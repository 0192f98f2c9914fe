import Kendylib.Foundations.Run
import Kendylib.Net.References
import Kendylib.Net.System

/-!
# References along a run

In every state of every run of a program with packets and connections, the count of each buffer in
memory is the number of references to it, and a buffer is in memory exactly if there are references
to it (`counted_always`). No step drops a reference to a buffer that has been destroyed, or accesses
it otherwise, with one exception: a packet keeps the place of its length without a reference, so a
write to a packet that has been sent in part may access a buffer that is gone.
-/

namespace Kendylib

open RefHeap Buffer RPacket WPacket Connection Held

/-! ## The references of a program -/

namespace Peer

/-- The references a connection holds. -/
def owned (p : Peer) : Multiset ℕ :=
  ownedAll p.conn.sendList + (refs p.conn.unpackBuf + refs p.conn.nextRecvBuf)

/-- The link to the buffer that is offered behind `next_recv_buf`, while a read is possible. -/
def offers (p : Peer) : Multiset (ℕ × ℕ) :=
  match p.unpacking, p.conn.nextRecvBuf with
  | none, some a => ((p.conn.wrecvbuf.filter fun v => v.base.1 ≠ a).map fun v => (a, v.base.1) : List _)
  | _, _ => 0

theorem offers_of_next {p : Peer} (h : p.conn.nextRecvBuf = none) : p.offers = 0 := by
  unfold offers
  rw [h]
  cases p.unpacking <;> rfl

theorem offers_of_unpacking {p : Peer} {n : ℕ} (h : p.unpacking = some n) : p.offers = 0 := by
  unfold offers
  rw [h]

theorem mem_offers {p : Peer} {a : ℕ} {x : ℕ × ℕ} (hu : p.unpacking = none)
    (ha : p.conn.nextRecvBuf = some a) :
    x ∈ p.offers ↔ ∃ v ∈ p.conn.wrecvbuf, v.base.1 ≠ a ∧ (a, v.base.1) = x := by
  unfold offers
  rw [hu, ha]
  simp only [Multiset.mem_coe, List.mem_map, List.mem_filter, decide_eq_true_eq, and_assoc]

/-- The roles of the references of a connection. -/
def roles (p : Peer) : Roles :=
  rolesAll p.conn.sendList + (headRole p.conn.nextRecvBuf + ⟨0, 0, p.offers⟩)

/-- `unpack_buf` and `next_recv_buf` are set together, before anything is received. -/
structure Ok (p : Peer) : Prop where
  both : p.conn.nextRecvBuf = none ↔ p.conn.unpackBuf = none
  started : p.conn.recvUsed = true ∨ p.unpacking ≠ none → p.conn.unpackBuf ≠ none

/-- A connection that has been started. -/
theorem Ok.both_some {p : Peer} (hok : p.Ok) (h : p.conn.unpackBuf ≠ none) :
    ∃ a b, p.conn.unpackBuf = some a ∧ p.conn.nextRecvBuf = some b := by
  obtain ⟨a, ha⟩ := Option.ne_none_iff_exists'.mp h
  obtain ⟨b, hb⟩ := Option.ne_none_iff_exists'.mp (hok.both.not.mpr h)
  exact ⟨a, b, ha, hb⟩

end Peer

namespace System

/-- The references of packets that are read. -/
def readOwned (rs : List RPacket) : Multiset ℕ := (rs.map RPacket.owned).sum

/-- The references held by packets and connections. -/
def owned (s : System) : Multiset ℕ :=
  readOwned s.rpackets + (ownedAll s.wpackets + (s.peers.map Peer.owned).sum)

/-- The roles of these references. -/
def roles (s : System) : Roles := rolesAll s.wpackets + (s.peers.map Peer.roles).sum

/-- All references to buffers: `buf`, `readbuf` and `binbuf` of the packets that are read, `buf` and
`writebuf` of those written, `unpack_buf` and `next_recv_buf` of the connections, and `next` of the
buffers in memory. -/
def references (s : System) : Multiset ℕ := s.owned + s.heap.links

/-- The count of each buffer in memory is the number of references to it, and there are some; there
is none to a buffer that is not in memory. -/
def Counted (s : System) : Prop :=
  ∀ a, match s.heap.cell a with
    | some c => c.refcount = s.references.count a ∧ 0 < s.references.count a
    | none => s.references.count a = 0

/-- The counts are exact, and the references fit for their roles. -/
structure Inv (s : System) : Prop where
  held : Held s.heap s.owned s.roles
  ok : ∀ p ∈ s.peers, p.Ok

theorem Inv.counted {s : System} (I : Inv s) : s.Counted := by
  intro a
  cases hc : s.heap.cell a with
  | some c => exact ⟨I.held.exact.count a c hc, I.held.exact.pos a c hc⟩
  | none =>
    refine Multiset.count_eq_zero_of_notMem fun ha => ?_
    obtain ⟨c, hc'⟩ := I.held.exact.held a ha
    rw [hc] at hc'
    cases hc'

end System

/-! ## One of many -/

section Focus

variable {α M : Type} [AddCommMonoid M] {xs : List α} {i : ℕ} {x : α}

theorem sum_map_focus (f : α → M) (hx : xs[i]? = some x) :
    (xs.map f).sum = f x + ((xs.eraseIdx i).map f).sum := by
  obtain ⟨hi, rfl⟩ := List.getElem?_eq_some_iff.mp hx
  rw [← ((List.getElem_cons_eraseIdx_perm hi).map f).sum_eq, List.map_cons, List.sum_cons]

theorem sum_map_set (f : α → M) (hx : xs[i]? = some x) (y : α) :
    ((xs.set i y).map f).sum = f y + ((xs.eraseIdx i).map f).sum := by
  obtain ⟨hi, -⟩ := List.getElem?_eq_some_iff.mp hx
  rw [((List.set_perm_cons_eraseIdx hi y).map f).sum_eq, List.map_cons, List.sum_cons]

end Focus

theorem Peer.within_recv (p : Peer) : (headRole p.conn.nextRecvBuf + ⟨0, 0, p.offers⟩).Within
    (refs p.conn.unpackBuf + refs p.conn.nextRecvBuf) := by
  refine Roles.Within.plus ⟨nofun, fun a ha => ?_, nofun⟩ ⟨nofun, nofun, ?_⟩
  · exact Multiset.mem_add.mpr (.inr ha)
  · intro x hx
    change x ∈ p.offers at hx
    cases hu : p.unpacking with
    | some n =>
      rw [Peer.offers_of_unpacking hu] at hx
      exact absurd hx (Multiset.notMem_zero x)
    | none =>
      cases ha : p.conn.nextRecvBuf with
      | none =>
        rw [Peer.offers_of_next ha] at hx
        exact absurd hx (Multiset.notMem_zero x)
      | some a =>
        obtain ⟨v, -, -, rfl⟩ := (Peer.mem_offers hu ha).mp hx
        simp

theorem Peer.within_owned (p : Peer) : p.roles.Within p.owned := by
  refine Roles.Within.plus ?_ (p.within_recv.add _)
  exact (within_ownedAll p.conn.sendList).add_right _

theorem within_peers (ps : List Peer) : (ps.map Peer.roles).sum.Within (ps.map Peer.owned).sum := by
  induction ps with
  | nil => exact Roles.within_zero
  | cons p ps ih =>
    rw [List.map_cons, List.map_cons, List.sum_cons, List.sum_cons]
    refine Roles.Within.plus ?_ (ih.add _)
    exact p.within_owned.add_right _

namespace System

variable {s t : System} {i j : ℕ} {p q : Peer} {h : Heap} {w w' : WPacket} {r r' : RPacket}
  {own : Multiset ℕ} {R : Roles}

theorem within_roles (s : System) :
    s.roles.Within (ownedAll s.wpackets + (s.peers.map Peer.owned).sum) := by
  refine Roles.Within.plus ?_ ((within_peers s.peers).add _)
  exact (within_ownedAll s.wpackets).add_right _

/-- What is held besides a connection. -/
def rest (s : System) (j : ℕ) : Multiset ℕ :=
  readOwned s.rpackets + (ownedAll s.wpackets + ((s.peers.eraseIdx j).map Peer.owned).sum)

def restRoles (s : System) (j : ℕ) : Roles :=
  rolesAll s.wpackets + ((s.peers.eraseIdx j).map Peer.roles).sum

theorem within_rest (s : System) (j : ℕ) : (s.restRoles j).Within (s.rest j) := by
  refine Roles.Within.add (Roles.Within.plus ?_ ((within_peers _).add _)) _
  exact (within_ownedAll s.wpackets).add_right _

theorem owned_focus (hp : s.peers[j]? = some p) : s.owned = p.owned + s.rest j := by
  rw [owned, sum_map_focus Peer.owned hp, rest]
  abel

theorem roles_focus (hp : s.peers[j]? = some p) : s.roles = p.roles + s.restRoles j := by
  rw [roles, sum_map_focus Peer.roles hp, restRoles]
  abel

theorem Inv.focus (I : Inv s) (hp : s.peers[j]? = some p) :
    Held s.heap (p.owned + s.rest j) (p.roles + s.restRoles j) ∧ p.Ok := by
  refine ⟨?_, I.ok p (List.mem_of_getElem? hp)⟩
  rw [← owned_focus hp, ← roles_focus hp]
  exact I.held

/-- A connection is changed. -/
theorem inv_setPeer (hok : ∀ p ∈ t.peers, p.Ok) (hp : t.peers[j]? = some p)
    (H : Held t.heap (q.owned + t.rest j) (q.roles + t.restRoles j)) (hq : q.Ok) :
    Inv (t.setPeer j q) := by
  refine ⟨?_, fun p' hp' => ?_⟩
  · have howned : (t.setPeer j q).owned = q.owned + t.rest j := by
      rw [owned, setPeer, sum_map_set Peer.owned hp, rest]
      abel
    have hroles : (t.setPeer j q).roles = q.roles + t.restRoles j := by
      rw [roles, setPeer, sum_map_set Peer.roles hp, restRoles]
      abel
    rw [howned, hroles]
    exact H
  · obtain hp' | rfl := List.mem_or_eq_of_mem_set hp'
    · exact hok p' hp'
    · exact hq

/-! ## Packets -/

theorem withPacket_ensures {α : Type} {xs : List α} {f : α → Exec System} {lost : Prop} (I : Inv s)
    (hf : ∀ x, xs[i]? = some x → (f x).EnsuresUnless lost Inv) :
    (s.withPacket xs i f).EnsuresUnless lost Inv := by
  unfold withPacket
  cases hx : xs[i]? with
  | none => exact I
  | some x => exact hf x hx

/-- A packet that is read is changed. -/
theorem readOwned_set (hr : s.rpackets[i]? = some r) (r' : RPacket) :
    s.owned = r.owned + (readOwned (s.rpackets.eraseIdx i) +
        (ownedAll s.wpackets + (s.peers.map Peer.owned).sum)) ∧
      ({ s with rpackets := s.rpackets.set i r' } : System).owned =
        r'.owned + (readOwned (s.rpackets.eraseIdx i) +
          (ownedAll s.wpackets + (s.peers.map Peer.owned).sum)) := by
  constructor
  · rw [owned, readOwned, sum_map_focus RPacket.owned hr, readOwned, add_assoc]
  · rw [owned]
    dsimp only
    rw [readOwned, sum_map_set RPacket.owned hr, readOwned, add_assoc]

theorem read_inv (I : Inv s) (op : Read) : (s.step (.read i op)).Ensures Inv := by
  refine withPacket_ensures I fun r hr => ?_
  have H := I.held
  rw [(readOwned_set hr r).1] at H
  refine (H.read (s.within_roles.add _) op).bind ?_
  rintro ⟨h', r', v⟩ H'
  refine ⟨?_, I.ok⟩
  have howned := (readOwned_set hr r').2
  change Held h' ({ s with rpackets := s.rpackets.set i r' } : System).owned s.roles
  rw [howned]
  exact H'

theorem rpacketDestroy_inv (I : Inv s) : (s.step (.rpacketDestroy i)).Ensures Inv := by
  refine withPacket_ensures I fun r hr => ?_
  have H := I.held
  rw [(readOwned_set hr r).1] at H
  exact (H.rpacketDestroy (s.within_roles.add _)).bind fun h' H' => ⟨H', I.ok⟩

theorem owned_append_rpacket (r : RPacket) :
    ({ s with rpackets := s.rpackets ++ [r] } : System).owned = r.owned + s.owned := by
  simp only [owned, readOwned, List.map_append, List.sum_append, List.map_cons, List.sum_cons,
    List.map_nil, List.sum_nil]
  abel

theorem owned_append_wpacket (w : WPacket) :
    ({ s with wpackets := s.wpackets ++ [w] } : System).owned = w.owned + s.owned := by
  simp only [owned, ownedAll, List.map_append, List.sum_append, List.map_cons, List.sum_cons,
    List.map_nil, List.sum_nil]
  abel

theorem roles_append_wpacket (w : WPacket) :
    ({ s with wpackets := s.wpackets ++ [w] } : System).roles = w.roles + s.roles := by
  simp only [roles, rolesAll, List.map_append, List.sum_append, List.map_cons, List.sum_cons,
    List.map_nil, List.sum_nil]
  abel

/-- A packet for reading is put to those held. -/
theorem inv_append_rpacket (I : Inv s) (H : Held h (r.owned + s.owned) s.roles) :
    Inv { s with heap := h, rpackets := s.rpackets ++ [r] } := by
  refine ⟨?_, I.ok⟩
  have howned := owned_append_rpacket (s := s) r
  change Held h ({ s with rpackets := s.rpackets ++ [r] } : System).owned s.roles
  rwa [howned]

/-- A packet for writing is put to those held. -/
theorem inv_append_wpacket (I : Inv s) (H : Held h (w.owned + s.owned) (w.roles + s.roles)) :
    Inv { s with heap := h, wpackets := s.wpackets ++ [w] } := by
  refine ⟨?_, I.ok⟩
  have howned := owned_append_wpacket (s := s) w
  have hroles := roles_append_wpacket (s := s) w
  change Held h ({ s with wpackets := s.wpackets ++ [w] } : System).owned
    ({ s with wpackets := s.wpackets ++ [w] } : System).roles
  rwa [howned, hroles]

theorem within_owned (s : System) : s.roles.Within s.owned := s.within_roles.add _

theorem wpacketCreate_inv (I : Inv s) (size : ℕ) (isRaw : Bool) :
    (s.step (.wpacketCreate size isRaw)).Ensures Inv := by
  refine (I.held.wpacketCreate s.within_owned size isRaw).bind ?_
  rintro ⟨h', w⟩ H'
  exact inv_append_wpacket I H'

theorem wpacketCreateByRpacket_inv (I : Inv s) :
    (s.step (.wpacketCreateByRpacket i)).Ensures Inv := by
  refine withPacket_ensures I fun r hr => ?_
  have hle : r.owned ≤ s.owned := by
    rw [(readOwned_set hr r).1]
    exact Multiset.le_add_right _ _
  refine (I.held.wpacketCreateByRpacket s.within_owned hle).bind ?_
  rintro ⟨h', w⟩ H'
  exact inv_append_wpacket I H'

theorem rpacketCreate_inv (I : Inv s) (b : Option ℕ) (pos pkLen : ℕ) (isRaw : Bool) :
    (s.step (.rpacketCreate b pos pkLen isRaw)).Ensures Inv := by
  unfold step
  dsimp only
  split_ifs with hvalid
  · have hlive : ∀ a, b = some a → ∃ c, s.heap.cell a = some c := fun a ha =>
      Option.isSome_iff_exists.mp (hvalid a ha)
    refine (I.held.rpacketCreate s.within_owned hlive pos pkLen isRaw).bind ?_
    rintro ⟨h', r⟩ ⟨H', -⟩
    exact inv_append_rpacket I H'
  · exact I

/-- Without one of the packets held. -/
def dropPacket (s : System) (i : ℕ) : System := { s with wpackets := s.wpackets.eraseIdx i }

theorem held_set (hw : s.wpackets[i]? = some w) (w' : WPacket) :
    ({ s with wpackets := s.wpackets.set i w' } : System).owned = w'.owned + (s.dropPacket i).owned ∧
      ({ s with wpackets := s.wpackets.set i w' } : System).roles =
        w'.roles + (s.dropPacket i).roles := by
  constructor
  · simp only [owned, ownedAll, dropPacket, sum_map_set WPacket.owned hw]
    abel
  · simp only [roles, rolesAll, dropPacket, sum_map_set WPacket.roles hw]
    abel

theorem held_focus (hw : s.wpackets[i]? = some w) :
    s.owned = w.owned + (s.dropPacket i).owned ∧ s.roles = w.roles + (s.dropPacket i).roles := by
  have hset := held_set hw w
  obtain ⟨hi, rfl⟩ := List.getElem?_eq_some_iff.mp hw
  rwa [List.set_getElem_self] at hset

/-- The connection with other packets to send. -/
def setSendList (p : Peer) (ws : List WPacket) : Peer :=
  { p with conn := { p.conn with sendList := ws } }

/-- A packet that is written to among the others, held by the application or waiting to be sent. -/
theorem Inv.packet (I : Inv s) {x : PacketRef} (hw : s.packet x = some w) :
    ∃ own R, Roles.Within R own ∧ s.owned = w.owned + own ∧ s.roles = w.roles + R ∧
      ∀ h w', Held h (w'.owned + own) (w'.roles + R) → Inv ({ s with heap := h }.setPacket w' x) := by
  cases x with
  | held i =>
    obtain ⟨howned, hroles⟩ := held_focus hw
    refine ⟨(s.dropPacket i).owned, (s.dropPacket i).roles, within_owned _, howned, hroles, ?_⟩
    intro h w' H'
    refine ⟨?_, I.ok⟩
    change Held h ({ s with wpackets := s.wpackets.set i w' } : System).owned
      ({ s with wpackets := s.wpackets.set i w' } : System).roles
    rwa [(held_set hw w').1, (held_set hw w').2]
  | queued j i =>
    obtain ⟨p, hp, hw⟩ := Option.bind_eq_some_iff.mp hw
    have hpok := I.ok p (List.mem_of_getElem? hp)
    -- the connection without the packet
    obtain ⟨q, hq⟩ : ∃ q, q = setSendList p (p.conn.sendList.eraseIdx i) := ⟨_, rfl⟩
    have howned : ∀ w', (setSendList p (p.conn.sendList.set i w')).owned = w'.owned + q.owned := by
      intro w'
      rw [hq, Peer.owned, Peer.owned, setSendList, setSendList, ownedAll,
        sum_map_set WPacket.owned hw, ownedAll, add_assoc]
    have hroles : ∀ w', (setSendList p (p.conn.sendList.set i w')).roles = w'.roles + q.roles := by
      intro w'
      rw [hq, Peer.roles, Peer.roles, setSendList, setSendList, rolesAll,
        sum_map_set WPacket.roles hw, rolesAll, add_assoc]
      rfl
    have hself : setSendList p (p.conn.sendList.set i w) = p := by
      obtain ⟨hi, rfl⟩ := List.getElem?_eq_some_iff.mp hw
      rw [setSendList, List.set_getElem_self]
    refine ⟨q.owned + s.rest j, q.roles + s.restRoles j, ?_, ?_, ?_, ?_⟩
    · refine Roles.Within.plus ?_ ((s.within_rest j).add _)
      exact q.within_owned.add_right _
    · rw [owned_focus hp, ← add_assoc, ← howned w, hself]
    · rw [roles_focus hp, ← add_assoc, ← hroles w, hself]
    · intro h w' H'
      have hset : ({ s with heap := h } : System).setPacket w' (.queued j i) =
          ({ s with heap := h } : System).setPeer j (setSendList p (p.conn.sendList.set i w')) := by
        simp only [setPacket, hp, setSendList]
      rw [hset]
      refine inv_setPeer I.ok hp ?_ ⟨hpok.both, hpok.started⟩
      rw [howned, hroles, add_assoc, add_assoc]
      exact H'

/-- The length of the packet is in a buffer that the packet has left behind. -/
def LenLost (s : System) (op : Op) : Prop :=
  ∃ x wop w, op = .write x wop ∧ s.packet x = some w ∧ ¬ LenHeld w

theorem write_inv (I : Inv s) (x : PacketRef) (op : Write) :
    (s.step (.write x op)).EnsuresUnless (LenLost s (.write x op)) Inv := by
  unfold step
  dsimp only
  cases hw : s.packet x with
  | none => exact I
  | some w =>
    dsimp only
    cases ha : w.writebuf with
    | none =>
      rw [if_pos rfl]
      exact I
    | some a =>
      rw [if_neg nofun]
      obtain ⟨own, R, W, howned, hroles, hset⟩ := I.packet hw
      have H := I.held
      rw [howned, hroles] at H
      have hwrite : (WPacket.write s.heap w op).EnsuresUnless (LenLost s (.write x op)) fun y =>
          Held y.1 (y.2.owned + own) (y.2.roles + R) :=
        ((H.write W ha op).mono fun _ hy => hy.1).imp fun hlost => ⟨x, op, w, rfl, hw, hlost⟩
      refine hwrite.bind ?_
      rintro ⟨h', w'⟩ H'
      exact hset h' w' H'

theorem rpacketCreateByWpacket_inv (I : Inv s) (x : PacketRef) :
    (s.step (.rpacketCreateByWpacket x)).Ensures Inv := by
  unfold step
  dsimp only
  cases hw : s.packet x with
  | none => exact I
  | some w =>
    obtain ⟨own, R, -, howned, -⟩ := I.packet hw
    have hle : w.owned ≤ s.owned := howned ▸ Multiset.le_add_right _ _
    refine (I.held.rpacketCreateByWpacket s.within_owned hle).bind ?_
    rintro ⟨h', r⟩ H'
    exact inv_append_rpacket I H'

theorem wpacketDestroy_inv (I : Inv s) : (s.step (.wpacketDestroy i)).Ensures Inv := by
  refine withPacket_ensures I fun w hw => ?_
  obtain ⟨howned, hroles⟩ := held_focus hw
  have H := I.held
  rw [howned, hroles] at H
  exact (H.fewer.wpacketDestroy (s.dropPacket i).within_owned).bind fun h' H' => ⟨H', I.ok⟩

/-! ## Connections -/

theorem connectionCreate_inv (I : Inv s) (isRaw : Bool) :
    (s.step (.connectionCreate isRaw)).Ensures Inv := by
  refine ⟨?_, fun p hp => ?_⟩
  · change Held s.heap
      ({ s with peers := s.peers ++ [⟨connectionCreate isRaw, none, none⟩] } : System).owned
      ({ s with peers := s.peers ++ [⟨connectionCreate isRaw, none, none⟩] } : System).roles
    have howned : (⟨connectionCreate isRaw, none, none⟩ : Peer).owned = 0 := rfl
    have hroles : (⟨connectionCreate isRaw, none, none⟩ : Peer).roles = 0 := rfl
    simp only [owned, roles, List.map_append, List.sum_append, List.map_cons, List.sum_cons,
      List.map_nil, List.sum_nil, howned, hroles, add_zero]
    exact I.held
  · obtain hp | hp := List.mem_append.mp hp
    · exact I.ok p hp
    · obtain rfl := List.mem_singleton.mp hp
      exact ⟨Iff.rfl, fun h => absurd h (by simp [connectionCreate])⟩

theorem startRecv_inv (I : Inv s) : (s.step (.startRecv j)).Ensures Inv := by
  refine withPacket_ensures I fun p hp => ?_
  obtain ⟨H, hok⟩ := I.focus hp
  cases hbuf : p.conn.unpackBuf with
  | some a =>
    rw [Connection.connectionStartRecv, hbuf]
    exact inv_setPeer I.ok hp H hok
  | none =>
    have hnext := hok.both.mpr hbuf
    have hidle : p.unpacking = none := by
      by_contra hne
      exact hok.started (.inr hne) hbuf
    have howned : p.owned = ownedAll p.conn.sendList := by
      rw [Peer.owned, hbuf, hnext, refs_none, add_zero, add_zero]
    have hroles : p.roles = rolesAll p.conn.sendList := by
      rw [Peer.roles, hnext, Peer.offers_of_next hnext]
      exact add_zero _
    rw [howned, hroles] at H
    have W : (rolesAll p.conn.sendList + s.restRoles j).Within
        (ownedAll p.conn.sendList + s.rest j) := by
      refine Roles.Within.plus ?_ ((s.within_rest j).add _)
      exact (within_ownedAll _).add_right _
    refine (H.connectionStartRecv W hbuf).bind ?_
    rintro ⟨h', c⟩ ⟨b, H', rfl⟩
    refine inv_setPeer I.ok hp (Held.of_eq H' ?_ ?_) ⟨by simp, by simp⟩
    · simp only [Peer.owned]
      change refs (some b) + (refs (some b) + (ownedAll p.conn.sendList + s.rest j)) =
        ownedAll p.conn.sendList + (refs (some b) + refs (some b)) + s.rest j
      abel
    · have hoffers : ∀ c : Connection, c.nextRecvBuf = some b → c.wrecvbuf = [⟨(b, 0), bufferSize⟩] →
          Peer.offers { p with conn := c } = 0 := by
        intro c hc hv
        refine Multiset.eq_zero_of_forall_notMem fun x hx => ?_
        obtain ⟨v, hv', hne, -⟩ := (Peer.mem_offers (p := { p with conn := c }) hidle hc).mp hx
        rw [hv, List.mem_singleton] at hv'
        exact hne (by rw [hv'])
      rw [Peer.roles, hoffers _ rfl rfl]
      change headRole (some b) + (rolesAll p.conn.sendList + s.restRoles j) =
        rolesAll p.conn.sendList + (headRole (some b) + 0) + s.restRoles j
      abel

theorem received_inv (I : Inv s) (bs : List UInt8) : (s.step (.received j bs)).Ensures Inv := by
  refine withPacket_ensures I fun p hp => ?_
  unfold received
  split_ifs with hidle
  · obtain ⟨H, hok⟩ := I.focus hp
    obtain ⟨a, b, ha, hb⟩ := hok.both_some (hok.started (.inl hidle.1))
    -- the bytes are put into the buffers offered
    have hvs : ∀ v ∈ p.conn.wrecvbuf, v.base.1 ∈ (p.roles + s.restRoles j).heads ∨
        ∃ a, (a, v.base.1) ∈ (p.roles + s.restRoles j).offers := by
      intro v hv
      by_cases hbase : v.base.1 = b
      · exact .inl (by simp [Peer.roles, headRole, hb, hbase])
      · refine .inr ⟨b, Multiset.mem_add.mpr (.inl ?_)⟩
        rw [Peer.roles]
        simp only [Roles.add_offers]
        exact Multiset.mem_add.mpr (.inr (Multiset.mem_add.mpr (.inr
          ((Peer.mem_offers hidle.2 hb).mpr ⟨v, hv, hbase, rfl⟩))))
    unfold Connection.arrive
    simp only [bind_assoc]
    refine (H.scatter hvs).bind fun h₁ H₁ => ?_
    -- then the request is no longer used
    have H₁' : Held h₁ (refs p.conn.nextRecvBuf + (refs p.conn.unpackBuf +
        (ownedAll p.conn.sendList + s.rest j)))
        (headRole p.conn.nextRecvBuf + (rolesAll p.conn.sendList + s.restRoles j)) := by
      have H₀ : Held h₁ (refs p.conn.nextRecvBuf + (refs p.conn.unpackBuf +
          (ownedAll p.conn.sendList + s.rest j))) (⟨0, 0, p.offers⟩ + (headRole p.conn.nextRecvBuf +
            (rolesAll p.conn.sendList + s.restRoles j))) := by
        refine Held.of_eq H₁ ?_ ?_
        · rw [Peer.owned]
          abel
        · rw [Peer.roles]
          abel
      exact H₀.fewer
    have W : (rolesAll p.conn.sendList + s.restRoles j).Within
        (refs p.conn.unpackBuf + (ownedAll p.conn.sendList + s.rest j)) := by
      refine Roles.Within.add (Roles.Within.plus ?_ ((s.within_rest j).add _)) _
      exact (within_ownedAll _).add_right _
    refine (updateNextRecvPosLoop H₁' W hb).bind ?_
    rintro ⟨h₂, c⟩ ⟨H₂, ⟨b', hb'⟩, hc⟩
    dsimp only at H₂ hb' hc ⊢
    have hsend : c.sendList = p.conn.sendList := by rw [hc]
    have hunpack : c.unpackBuf = p.conn.unpackBuf := by rw [hc]
    refine inv_setPeer I.ok hp (Held.of_eq H₂ ?_ ?_) ⟨?_, ?_⟩
    · change _ = ownedAll c.sendList + (refs c.unpackBuf + refs c.nextRecvBuf) + s.rest j
      rw [hsend, hunpack]
      abel
    · rw [Peer.roles, Peer.offers_of_unpacking rfl]
      change _ = rolesAll c.sendList + (headRole c.nextRecvBuf + 0) + s.restRoles j
      rw [hsend, add_zero]
      abel
    · change c.nextRecvBuf = none ↔ c.unpackBuf = none
      simp [hb', hunpack, ha]
    · change _ → c.unpackBuf ≠ none
      simp [hunpack, ha]
  · exact I

/-- A handler changes a connection in what has no references. -/
theorem inv_setFields (I : Inv s) (hp : s.peers[j]? = some p) (howned : q.owned = p.owned)
    (hroles : q.roles = p.roles) (hok : p.Ok → q.Ok) : Inv (s.setPeer j q) := by
  obtain ⟨H, hp'⟩ := I.focus hp
  exact inv_setPeer I.ok hp (by rwa [howned, hroles]) (hok hp')

theorem recvFailed_inv (I : Inv s) : (s.step (.recvFailed j)).Ensures Inv := by
  refine withPacket_ensures I fun p hp => ?_
  unfold recvFailed
  split_ifs with hidle
  · exact inv_setFields I hp rfl rfl fun hok => ⟨hok.both, fun h => by simp [hidle] at h⟩
  · exact I

theorem sent_inv (I : Inv s) (bytes : ℕ) : (s.step (.sent j bytes)).Ensures Inv := by
  refine withPacket_ensures I fun p hp => ?_
  unfold sent
  split_ifs
  · exact inv_setFields I hp rfl rfl fun hok => ⟨hok.both, hok.started⟩
  · exact I

theorem sendFailed_inv (I : Inv s) : (s.step (.sendFailed j)).Ensures Inv := by
  refine withPacket_ensures I fun p hp => ?_
  unfold sendFailed
  split_ifs
  · exact inv_setFields I hp rfl rfl fun hok => ⟨hok.both, hok.started⟩
  · exact I

theorem connectionDestroy_inv (I : Inv s) : (s.step (.connectionDestroy j)).Ensures Inv := by
  refine withPacket_ensures I fun p hp => ?_
  obtain ⟨H, -⟩ := I.focus hp
  have H' : Held s.heap (ownedAll p.conn.sendList +
      (refs p.conn.unpackBuf + (refs p.conn.nextRecvBuf + s.rest j))) (s.restRoles j) := by
    refine H.fewer.of_eq ?_ rfl
    rw [Peer.owned, add_assoc, add_assoc]
  refine (H'.connectionDestroy (s.within_rest j)).bind ?_
  rintro ⟨h', destroyed⟩ (⟨rfl, H''⟩ | ⟨rfl, rfl⟩)
  · exact ⟨H'', fun q hq => I.ok q (List.mem_of_mem_eraseIdx hq)⟩
  · exact I

theorem updateSendList_inv (I : Inv s) : (s.step (.updateSendList j)).Ensures Inv := by
  refine withPacket_ensures I fun p hp => ?_
  obtain ⟨H, hok⟩ := I.focus hp
  unfold updateSendList
  split
  · exact I
  · have H' : Held s.heap (ownedAll p.conn.sendList +
        (refs p.conn.unpackBuf + refs p.conn.nextRecvBuf + s.rest j)) (p.roles + s.restRoles j) :=
      H.of_eq (by rw [Peer.owned, add_assoc]) rfl
    refine (Held.prepareSend p.conn H').bind ?_
    rintro ⟨ready, c⟩ hc
    dsimp only at hc ⊢
    rw [hc]
    cases ready with
    | true => exact inv_setFields I hp rfl rfl fun hok => ⟨hok.both, hok.started⟩
    | false => exact inv_setFields I hp rfl rfl fun hok => ⟨hok.both, hok.started⟩
  · have H' : Held s.heap (ownedAll p.conn.sendList +
        (refs p.conn.unpackBuf + refs p.conn.nextRecvBuf + s.rest j))
        (rolesAll p.conn.sendList + ((headRole p.conn.nextRecvBuf + ⟨0, 0, p.offers⟩) +
          s.restRoles j)) :=
      H.of_eq (by rw [Peer.owned, add_assoc]) (by rw [Peer.roles, add_assoc])
    have W : ((headRole p.conn.nextRecvBuf + ⟨0, 0, p.offers⟩) + s.restRoles j).Within
        (refs p.conn.unpackBuf + refs p.conn.nextRecvBuf + s.rest j) := by
      refine Roles.Within.plus ?_ ((s.within_rest j).add _)
      exact p.within_recv.add_right _
    refine (H'.updateSendRound W).bind ?_
    rintro ⟨h₁, c, bytes, w⟩ ⟨H₁, hc⟩
    dsimp only at H₁ hc ⊢
    rw [hc]
    refine inv_setPeer (t := { s with heap := h₁, wpackets := s.wpackets ++ w.toList }) I.ok hp
      (Held.of_eq H₁ ?_ ?_) ⟨hok.both, hok.started⟩
    · simp only [Peer.owned, rest, ownedAll, List.map_append, List.sum_append]
      abel
    · have hroles : rolesAll (s.wpackets ++ w.toList) = rolesAll s.wpackets + rolesAll w.toList := by
        simp only [rolesAll, List.map_append, List.sum_append]
      simp only [Peer.roles, restRoles, hroles]
      change _ = rolesAll c.sendList + (headRole p.conn.nextRecvBuf + ⟨0, 0, p.offers⟩) + _
      abel

/-- A connection with packets put behind those it has to send. -/
theorem pushed_owned (c : Connection) (w : Option WPacket) (callback : Bool) :
    ownedAll (c.connectionPushPacket w callback).sendList =
        ownedAll w.toList + ownedAll c.sendList ∧
      rolesAll (c.connectionPushPacket w callback).sendList =
        rolesAll w.toList + rolesAll c.sendList := by
  cases w with
  | none => simp [connectionPushPacket]
  | some w =>
    have howned : ({ w with packetSendFinish := callback } : WPacket).owned = w.owned := rfl
    have hroles : ({ w with packetSendFinish := callback } : WPacket).roles = w.roles := rfl
    constructor
    · simp [connectionPushPacket, ownedAll, howned, add_comm]
    · simp [connectionPushPacket, rolesAll, hroles, add_comm]

/-- The packet that is handed over to a connection, if any, and the others held. -/
theorem handed_focus (s : System) (i : Option ℕ)
    (ht : t = { s with wpackets := (i.map s.wpackets.eraseIdx).getD s.wpackets }) :
    s.owned = ownedAll (i.bind fun i => s.wpackets[i]?).toList + t.owned ∧
      s.roles = rolesAll (i.bind fun i => s.wpackets[i]?).toList + t.roles := by
  subst ht
  cases i with
  | none => simp
  | some i =>
    dsimp only [Option.bind_some, Option.map_some, Option.getD_some]
    cases hw : s.wpackets[i]? with
    | none =>
      rw [List.eraseIdx_of_length_le (List.getElem?_eq_none_iff.mp hw)]
      simp
    | some w =>
      obtain ⟨howned, hroles⟩ := held_focus hw
      simp only [Option.toList_some, ownedAll_cons, rolesAll_cons, ownedAll_nil, rolesAll_nil, add_zero]
      exact ⟨howned, hroles⟩

/-- The references when a packet has been handed over. -/
theorem pushed_held (I : Inv s) (hp : s.peers[j]? = some p) (i : Option ℕ) (callback : Bool)
    (ht : t = { s with wpackets := (i.map s.wpackets.eraseIdx).getD s.wpackets })
    (hq : q = { p with conn := p.conn.connectionPushPacket (i.bind fun i => s.wpackets[i]?) callback }) :
    Held s.heap (q.owned + t.rest j) (q.roles + t.restRoles j) := by
  obtain ⟨howned, hroles⟩ := handed_focus s i ht
  obtain ⟨hsend, hsendRoles⟩ := pushed_owned p.conn (i.bind fun i => s.wpackets[i]?) callback
  have hpt : t.peers[j]? = some p := by
    rw [ht]
    exact hp
  refine I.held.of_eq ?_ ?_
  · rw [howned, owned_focus hpt, hq, Peer.owned, Peer.owned, hsend]
    change _ + (_ + (refs p.conn.unpackBuf + refs p.conn.nextRecvBuf) + _) =
      _ + _ + (refs p.conn.unpackBuf + refs p.conn.nextRecvBuf) + _
    abel
  · rw [hroles, roles_focus hpt, hq, Peer.roles, Peer.roles, hsendRoles]
    change _ + (_ + (headRole p.conn.nextRecvBuf + ⟨0, 0, p.offers⟩) + _) =
      _ + _ + (headRole p.conn.nextRecvBuf + ⟨0, 0, p.offers⟩) + _
    abel

theorem push_inv (I : Inv s) (callback : Bool) : (s.step (.push j i callback)).Ensures Inv := by
  refine withPacket_ensures I fun p hp => withPacket_ensures I fun w hw => ?_
  have H := pushed_held I hp (some i) callback rfl rfl
  rw [Option.bind_some, hw] at H
  have hok := I.ok p (List.mem_of_getElem? hp)
  exact inv_setPeer (t := { s with wpackets := s.wpackets.eraseIdx i }) I.ok hp H
    ⟨hok.both, hok.started⟩

theorem send_inv (I : Inv s) (i : Option ℕ) (callback : Bool) :
    (s.step (.send j i callback)).Ensures Inv := by
  refine withPacket_ensures I fun p hp => ?_
  have H := pushed_held I hp i callback rfl rfl
  obtain ⟨ws, hws⟩ : ∃ ws, ws = (i.map s.wpackets.eraseIdx).getD s.wpackets := ⟨_, rfl⟩
  rw [← hws] at H
  have hok := I.ok p (List.mem_of_getElem? hp)
  unfold send
  dsimp only
  rw [← hws]
  unfold Connection.connectionSend
  dsimp only
  split_ifs
  · exact inv_setPeer (t := { s with wpackets := ws }) I.ok hp H ⟨hok.both, hok.started⟩
  · obtain ⟨c, hc⟩ : ∃ c, c = p.conn.connectionPushPacket (i.bind fun i => s.wpackets[i]?) callback :=
      ⟨_, rfl⟩
    rw [← hc] at H ⊢
    have H' : Held s.heap (ownedAll c.sendList + (refs c.unpackBuf + refs c.nextRecvBuf +
        ({ s with wpackets := ws } : System).rest j)) _ := H.of_eq (by rw [Peer.owned, add_assoc]) rfl
    simp only [bind_assoc]
    refine Exec.EnsuresUnless.bind (Held.prepareSend { c with sendUsed := true } H') ?_
    rintro ⟨ready, c'⟩ hc'
    dsimp only at hc' ⊢
    split_ifs
    · rw [hc']
      refine inv_setPeer (t := { s with wpackets := ws }) I.ok hp H ?_
      subst hc
      exact ⟨hok.both, hok.started⟩
    · exact Exec.ensures_error nofun

/-- Behind the last round of `unpack` memory is offered to the next read. -/
theorem offer_inv (I : Inv s) (hp : s.peers[j]? = some p) {n : ℕ} (hu : p.unpacking = some n) :
    (do let r ← offer ⟨s.heap, p.conn, (), [], []⟩
        return ({ s with heap := r.heap } : System).setPeer j
          { p with conn := r.conn, unpacking := none } : Exec System).Ensures Inv := by
  obtain ⟨H, hok⟩ := I.focus hp
  obtain ⟨a, b, ha, hb⟩ := hok.both_some (hok.started (.inr (by simp [hu])))
  have hderef : Exec.deref p.conn.nextRecvBuf = .ok b := by rw [hb, Exec.deref_some]
  unfold Connection.offer
  simp only [hderef, Exec.ok_bind, bind_assoc]
  have hhead : b ∈ (p.roles + s.restRoles j).heads := by simp [Peer.roles, headRole, hb]
  refine (H.offerLoop_two hhead).bind ?_
  rintro ⟨h₁, vs⟩ ⟨R', H₁, -, hvs⟩
  dsimp only at H₁ hvs ⊢
  obtain ⟨q, hq⟩ : ∃ q, q = ({ p with
    conn := { p.conn with wrecvbuf := vs, recvUsed := true }, unpacking := none } : Peer) := ⟨_, rfl⟩
  have hoffers : ∀ x ∈ q.offers, x ∈ R'.offers := by
    intro x hx
    obtain ⟨v, hv, hne, rfl⟩ := (Peer.mem_offers (p := q) (by rw [hq]) (by rw [hq]; exact hb)).mp hx
    obtain h | h := hvs v (by rwa [hq] at hv)
    · exact absurd h hne
    · exact h
  have H₂ : Held h₁ (p.owned + s.rest j) (⟨0, 0, q.offers⟩ + (p.roles + s.restRoles j)) :=
    H₁.offers_of_mem hoffers
  change Inv (({ s with heap := h₁ } : System).setPeer j { p with
    conn := { p.conn with wrecvbuf := vs, recvUsed := true }, unpacking := none })
  rw [← hq]
  refine inv_setPeer I.ok hp (Held.of_eq H₂ ?_ ?_) ?_
  · rw [hq]
    rfl
  · have hroles : q.roles = rolesAll p.conn.sendList + (headRole p.conn.nextRecvBuf +
        ⟨0, 0, q.offers⟩) := by
      rw [Peer.roles, hq]
    rw [hroles, Peer.roles, Peer.offers_of_unpacking hu]
    change _ + (_ + (_ + 0) + s.restRoles j) = _ + s.restRoles j
    abel
  · rw [hq]
    refine ⟨hok.both, fun _ => ?_⟩
    change p.conn.unpackBuf ≠ none
    simp [ha]

theorem unpack_inv (I : Inv s) : (s.step (.unpack j)).Ensures Inv := by
  refine withPacket_ensures I fun p hp => ?_
  unfold unpack
  split
  · exact I
  · rename_i n hu
    obtain ⟨H, hok⟩ := I.focus hp
    obtain ⟨a, b, ha, hb⟩ := hok.both_some (hok.started (.inr (by simp [hu])))
    obtain ⟨own, hown⟩ : ∃ own, own = ownedAll p.conn.sendList + refs p.conn.nextRecvBuf +
      (ownedAll s.wpackets + ((s.peers.eraseIdx j).map Peer.owned).sum) := ⟨_, rfl⟩
    have H' : Held s.heap (refs p.conn.unpackBuf + (keepPackets.owned s.rpackets + own))
        (p.roles + s.restRoles j) := by
      refine H.of_eq ?_ rfl
      rw [Peer.owned, rest, hown]
      change _ + (readOwned s.rpackets + _) = _ + (readOwned s.rpackets + _)
      abel
    have W : (p.roles + s.restRoles j).Within own := by
      have hroles : p.roles = rolesAll p.conn.sendList + headRole p.conn.nextRecvBuf := by
        rw [Peer.roles, Peer.offers_of_unpacking hu]
        exact congrArg _ (add_zero _)
      rw [hroles, hown]
      refine Roles.Within.plus (Roles.Within.add_right (Roles.Within.plus ?_ ?_) _)
        (Roles.Within.add (Roles.Within.plus ?_ ((within_peers _).add _)) _)
      · exact (within_ownedAll _).add_right _
      · exact ⟨nofun, fun x hx => Multiset.mem_add.mpr (.inr hx), nofun⟩
      · exact (within_ownedAll _).add_right _
    refine (H'.unpackStep (s := ⟨s.heap, p.conn, s.rpackets, [], []⟩) W ha n).bind ?_
    rintro (_ | ⟨r, len⟩) hr
    · exact offer_inv I hp hu
    · obtain ⟨H₁, ⟨b', hb'⟩, hconn⟩ := hr r len rfl
      dsimp only at H₁ hb' hconn ⊢
      have hsend : r.conn.sendList = p.conn.sendList := by rw [hconn]
      have hnext : r.conn.nextRecvBuf = p.conn.nextRecvBuf := by rw [hconn]
      refine inv_setPeer (t := { s with heap := r.heap, rpackets := r.app }) I.ok hp
        (Held.of_eq H₁ ?_ ?_) ⟨?_, fun _ => ?_⟩
      · change _ = ownedAll r.conn.sendList + (refs r.conn.unpackBuf + refs r.conn.nextRecvBuf) +
          (keepPackets.owned r.app + (ownedAll s.wpackets + ((s.peers.eraseIdx j).map Peer.owned).sum))
        rw [hsend, hnext, hown]
        abel
      · rw [Peer.roles, Peer.roles, Peer.offers_of_unpacking hu, Peer.offers_of_unpacking rfl, hsend,
          hnext]
        rfl
      · change r.conn.nextRecvBuf = none ↔ r.conn.unpackBuf = none
        simp [hnext, hb, hb']
      · change r.conn.unpackBuf ≠ none
        simp [hb']

/-! ## Runs -/

/-- **Every step** keeps the counts exact. -/
theorem step_inv (s : System) (op : Op) (I : Inv s) : (s.step op).EnsuresUnless (LenLost s op) Inv := by
  cases op with
  | wpacketCreate size isRaw => exact (wpacketCreate_inv I size isRaw).unless
  | wpacketCreateByRpacket i => exact (wpacketCreateByRpacket_inv I).unless
  | write x op => exact write_inv I x op
  | wpacketDestroy i => exact (wpacketDestroy_inv I).unless
  | rpacketCreate b pos pkLen isRaw => exact (rpacketCreate_inv I b pos pkLen isRaw).unless
  | rpacketCreateByWpacket x => exact (rpacketCreateByWpacket_inv I x).unless
  | read i op => exact (read_inv I op).unless
  | rpacketDestroy i => exact (rpacketDestroy_inv I).unless
  | connectionCreate isRaw => exact (connectionCreate_inv I isRaw).unless
  | startRecv j => exact (startRecv_inv I).unless
  | received j bs => exact (received_inv I bs).unless
  | unpack j => exact (unpack_inv I).unless
  | recvFailed j => exact (recvFailed_inv I).unless
  | push j i callback => exact (push_inv I callback).unless
  | send j i callback => exact (send_inv I i callback).unless
  | sent j bytes => exact (sent_inv I bytes).unless
  | updateSendList j => exact (updateSendList_inv I).unless
  | sendFailed j => exact (sendFailed_inv I).unless
  | connectionDestroy j => exact (connectionDestroy_inv I).unless

theorem start_inv : Inv start where
  held := ⟨exact_empty, nofun, Multiset.nodup_zero, nofun, nofun, fun _ => False, nofun, nofun, nofun⟩
  ok := nofun

/-- **Reference counts are exact.** In every state of every run, the count of a buffer in memory is
the number of references to it, and a buffer is in memory exactly as long as there are any. A run
comes to an access to a destroyed buffer, a second destruction included, only by a write through the
place of a length whose buffer the packet has left behind. -/
theorem counted_always (ops : List Op) :
    Exec.Always step Counted start ops ∧
      Exec.FaultsOnly step (fun s op f => f = .freed → LenLost s op) start ops :=
  Exec.always_of_ensures (fun _ I => I.counted) step_inv start_inv ops

end System

end Kendylib
