import Kendylib.Net.RelayRuns

/-!
# Writing to a packet that is forwarded

A packet made by `wpacket_create_by_rpacket` shares the buffers of the packet it is made from until
it is written to: the first write copies them. What the packets that share the buffers are read as
does not depend on how many references there are (`Twin.read`), so it does not change when the packet
is made.

The copy is sized by the length in front of the packet, through a pointer that is null in a packet
that is made so. Any write reads through it, so the packet can only be left as it is
(`copiesOnWrite_iff`).
-/

namespace Kendylib

open RefHeap Buffer RPacket WPacket Connection
open Sender (packetBytes Carries)

namespace RPacket

variable {h g h' g' : Heap} {own₁ own₂ : Multiset ℕ} {r r' : RPacket} {a b n m : ℕ} {c d : Cell Block}
  {α : Type}

/-! ## Reads of one packet in two memories -/

/-- Two memories whose buffers differ in the number of references only. -/
structure Agree (h g : Heap) : Prop where
  fresh : h.fresh = g.fresh
  cell : ∀ x c d, h.cell x = some c → g.cell x = some d → c.next = d.next ∧ c.body = d.body

theorem Agree.keep (A : Agree h g) (K : Keeps h h') (L : Keeps g g') : Agree h' g' := by
  refine ⟨K.fresh.trans (A.fresh.trans L.fresh.symm), fun x c' d' hc' hd' => ?_⟩
  obtain ⟨c, hc, hn, hb⟩ := K.cell x c' hc'
  obtain ⟨d, hd, hn', hb'⟩ := L.cell x d' hd'
  obtain ⟨hnext, hbody⟩ := A.cell x c d hc hd
  exact ⟨hn.trans (hnext.trans hn'.symm), hb.trans (hbody.trans hb'.symm)⟩

/-- One packet in two memories that agree. -/
structure Twin (own₁ own₂ : Multiset ℕ) (h g : Heap) (r : RPacket) : Prop where
  left : Sound h (r.owned + own₁)
  right : Sound g (r.owned + own₂)
  agree : Agree h g
  len : r.len < 0x100000000

/-- What two runs of a read return: the same, and memories that agree. -/
def Alike (own₁ own₂ : Multiset ℕ) (x y : Heap × RPacket × α) : Prop :=
  x.2 = y.2 ∧ Twin own₁ own₂ x.1 y.1 x.2.1

/-- The same for a step that returns nothing and leaves `binbuf`. -/
def Moves (own₁ own₂ : Multiset ℕ) (binbuf : Option ℕ) (x y : Heap × RPacket) : Prop :=
  x.2 = y.2 ∧ Twin own₁ own₂ x.1 y.1 x.2 ∧ x.2.binbuf = binbuf

theorem Twin.fields (T : Twin own₁ own₂ h g r) (hr : r'.owned = r.owned) (hlen : r'.len = r.len) :
    Twin own₁ own₂ h g r' :=
  ⟨hr ▸ T.left, hr ▸ T.right, T.agree, hlen ▸ T.len⟩

/-- A buffer that the packet refers to. -/
theorem Twin.get (T : Twin own₁ own₂ h g r) (ha : a ∈ r.owned) :
    ∃ c d, h.cell a = some c ∧ g.cell a = some d ∧ c.next = d.next ∧ c.body = d.body := by
  obtain ⟨c, hc⟩ := T.left.live (Multiset.mem_add.mpr (.inl ha))
  obtain ⟨d, hd⟩ := T.right.live (Multiset.mem_add.mpr (.inl ha))
  exact ⟨c, d, hc, hd, T.agree.cell a c d hc hd⟩

/-- The buffer that is read from, unless there is none. -/
theorem Twin.readbuf (T : Twin own₁ own₂ h g r) :
    Exec.deref r.readbuf = .error .nullPointer ∨ ∃ a c d, Exec.deref r.readbuf = .ok a ∧
      r.readbuf = some a ∧ h.cell a = some c ∧ g.cell a = some d ∧ c.body = d.body := by
  cases hbuf : r.readbuf with
  | none => exact .inl rfl
  | some a =>
    obtain ⟨c, d, hc, hd, -, hb⟩ := T.get (a := a) (by simp [owned, hbuf])
    exact .inr ⟨a, c, d, rfl, rfl, hc, hd, hb⟩

theorem Twin.nextBuffer (T : Twin own₁ own₂ h g r) (hbuf : r.readbuf = some a) (hc : h.cell a = some c)
    (hd : g.cell a = some d) (m n : ℕ) :
    Exec.Both (Moves own₁ own₂ r.binbuf) (nextBuffer h { r with rpos := m, dataRemain := n } c)
      (nextBuffer g { r with rpos := m, dataRemain := n } d) := by
  obtain ⟨hn, hb⟩ := T.agree.cell a c d hc hd
  unfold RPacket.nextBuffer
  rw [← hb]
  split_ifs with hmove
  · have S₁ := T.left
    have S₂ := T.right
    rw [owned_readbuf] at S₁ S₂
    obtain ⟨h', hacq, S₁', K⟩ := bufferAcquire_spec S₁ (p := c.next) fun n hn => by
      rw [hbuf] at S₁
      exact (S₁.next_live hc hn).2
    obtain ⟨g', hacq', S₂', L⟩ := bufferAcquire_spec S₂ (p := d.next) fun n hn => by
      rw [hbuf] at S₂
      exact (S₂.next_live hd hn).2
    rw [hacq, hacq']
    refine ⟨by rw [hn], ⟨?_, ?_, T.agree.keep K L, T.len⟩, rfl⟩
    · rw [owned_readbuf]
      exact S₁'
    · rw [hn, owned_readbuf]
      exact S₂'
  · exact ⟨rfl, T.fields rfl rfl, rfl⟩

theorem Twin.copyRound (T : Twin own₁ own₂ h g r) (m : ℕ) :
    Exec.Both (fun x y => Alike own₁ own₂ x y ∧ x.2.1.binbuf = r.binbuf) (copyRound h r m)
      (copyRound g r m) := by
  unfold RPacket.copyRound
  rcases T.readbuf with hnull | ⟨a, c, d, hderef, hbuf, hc, hd, hb⟩
  · rw [hnull]
    exact rfl
  · simp only [hderef, Exec.ok_bind, get_eq hc, get_eq hd, ← hb]
    refine (Exec.both_refl _).bind ?_
    rintro out _ rfl
    refine (T.nextBuffer hbuf hc hd _ _).bind ?_
    rintro ⟨h₁, r₁⟩ ⟨g₁, r₁'⟩ ⟨heq, T₁, hbin⟩
    cases heq
    exact ⟨⟨rfl, T₁⟩, hbin⟩

theorem Twin.rpacketRead (T : Twin own₁ own₂ h g r) (m : ℕ) :
    Exec.Both (Alike own₁ own₂) (rpacketRead h r m) (rpacketRead g r m) := by
  have hloop : ∀ fuel h g r m, Twin own₁ own₂ h g r →
      Exec.Both (Alike own₁ own₂) (rpacketReadLoop fuel h r m) (rpacketReadLoop fuel g r m) := by
    intro fuel
    induction fuel with
    | zero => exact fun _ _ _ _ _ => rfl
    | succ fuel ih =>
      intro h g r m T
      unfold rpacketReadLoop
      split_ifs with hm
      · exact ⟨rfl, T⟩
      · refine (T.copyRound m).bind ?_
        rintro ⟨h₁, r₁, out⟩ ⟨g₁, r₁', out'⟩ ⟨⟨heq, T₁⟩, -⟩
        cases heq
        refine (ih h₁ g₁ r₁ _ T₁).bind ?_
        rintro ⟨h₂, r₂, rest⟩ ⟨g₂, r₂', rest'⟩ ⟨heq, T₂⟩
        cases heq
        exact ⟨rfl, T₂⟩
  unfold RPacket.rpacketRead
  rw [← T.agree.fresh]
  split_ifs with hfew
  · exact ⟨rfl, T⟩
  · exact hloop _ _ _ _ _ T

theorem Twin.rpacketReadUint (T : Twin own₁ own₂ h g r) (m : ℕ) :
    Exec.Both (Alike own₁ own₂) (rpacketReadUint m h r) (rpacketReadUint m g r) := by
  refine (T.rpacketRead m).bind ?_
  rintro ⟨h₁, r₁, out⟩ ⟨g₁, r₁', out'⟩ ⟨heq, T₁⟩
  cases heq
  exact ⟨rfl, T₁⟩

/-- The memory that is copied to is a new buffer in both. -/
theorem Twin.acquireBinbuf (T : Twin own₁ own₂ h g r) :
    Exec.Both (fun x y => Alike own₁ own₂ x y ∧ x.2.1.binbuf = some x.2.2) (acquireBinbuf h r)
      (acquireBinbuf g r) := by
  unfold RPacket.acquireBinbuf
  cases hbin : r.binbuf with
  | some x => exact ⟨⟨rfl, T⟩, hbin⟩
  | none =>
    by_cases hwrap : headerSize + r.len < 0x100000000
    · obtain ⟨h', hnew, S₁, hself, hne, hfresh⟩ := bufferCreateAndAcquire_spec T.left hwrap
      obtain ⟨g', hnew', S₂, hself', hne', hfresh'⟩ := bufferCreateAndAcquire_spec T.right hwrap
      rw [← T.agree.fresh] at hnew' hself' hne' hfresh' S₂
      simp only [hnew, hnew', Exec.ok_bind]
      have hown : ∀ own, ({ r with binbuf := some h.fresh, binbufpos := 0 } : RPacket).owned + own =
          h.fresh ::ₘ (r.owned + own) := fun own => by
        rw [owned, owned, hbin, refs_none, refs_some, ← Multiset.singleton_add]
        abel
      refine ⟨⟨rfl, ?_, ?_, ⟨hfresh.trans hfresh'.symm, fun x c d hc hd => ?_⟩, T.len⟩, rfl⟩
      · rw [hown]
        exact S₁
      · rw [hown]
        exact S₂
      · by_cases hx : x = h.fresh
        · subst hx
          obtain rfl := Option.some.inj (hself.symm.trans hc)
          obtain rfl := Option.some.inj (hself'.symm.trans hd)
          exact ⟨rfl, rfl⟩
        · exact T.agree.cell x c d (hne x hx ▸ hc) (hne' x hx ▸ hd)
    · have hsmall : add32 headerSize r.len < headerSize := by
        have := T.len
        rw [add32, headerSize] at *
        omega
      simp only [bufferCreateAndAcquire, if_pos hsmall]
      exact rfl

/-- Bytes put into a buffer of the packet. -/
theorem Twin.store (T : Twin own₁ own₂ h g r) (hb : b ∈ r.owned) (n : ℕ) (bytes : List UInt8) :
    Exec.Both (Twin own₁ own₂ · · r) (storeAt h (b, n) bytes) (storeAt g (b, n) bytes) := by
  obtain ⟨c, d, hc, hd, hn, hbody⟩ := T.get hb
  have hstore : ∀ {h : Heap} {own : Multiset ℕ} {c : Cell Block} {body : Block}, Sound h own →
      h.cell b = some c → c.body.store n bytes = .ok body →
        storeAt h (b, n) bytes = .ok (h.put b { c with body := body }) ∧
          Sound (h.put b { c with body := body }) own := by
    intro h own c body S hc hs
    have hput : storeAt h (b, n) bytes = .ok (h.put b { c with body := body }) := by
      rw [storeAt, get_eq hc, Exec.ok_bind, hs, Exec.ok_bind, setBody, get_eq hc]
      rfl
    obtain ⟨-, S', -⟩ := storeAt_ok S hc hput
    exact ⟨hput, S'⟩
  cases hs : c.body.store n bytes with
  | error e =>
    rw [storeAt, storeAt, get_eq hc, get_eq hd, Exec.ok_bind, Exec.ok_bind, ← hbody, hs]
    exact rfl
  | ok body =>
    obtain ⟨hput, S₁⟩ := hstore T.left hc hs
    obtain ⟨hput', S₂⟩ := hstore T.right hd (hbody ▸ hs)
    rw [hput, hput']
    refine ⟨S₁, S₂, ⟨T.agree.fresh, fun x e e' he he' => ?_⟩, T.len⟩
    by_cases hx : x = b
    · subst hx
      rw [put_self, Option.some.injEq] at he he'
      rw [← he, ← he']
      exact ⟨hn, rfl⟩
    · rw [put_of_ne hx] at he he'
      exact T.agree.cell x e e' he he'

theorem Twin.binaryLoop {fuel : ℕ} (T : Twin own₁ own₂ h g r) (hbin : r.binbuf = some b) (m : ℕ) :
    Exec.Both (Moves own₁ own₂ (some b)) (binaryLoop b fuel h r m) (binaryLoop b fuel g r m) := by
  induction fuel generalizing h g r m with
  | zero => exact rfl
  | succ fuel ih =>
    rw [binaryLoop_succ, binaryLoop_succ]
    split_ifs with hm
    · exact ⟨rfl, T, hbin⟩
    refine (T.copyRound m).bind ?_
    rintro ⟨h₁, r₁, out⟩ ⟨g₁, r₁', out'⟩ ⟨⟨heq, T₁⟩, hkept⟩
    cases heq
    have hbin₁ : r₁.binbuf = some b := hkept.trans hbin
    refine (T₁.store (b := b) (by simp [owned, hbin₁]) r₁.binbufpos out).bind fun h₂ g₂ T₂ => ?_
    exact ih (r := { r₁ with binbufpos := add32 r₁.binbufpos out.length }) (T₂.fields rfl rfl) hbin₁ _

theorem Twin.copyBinary (T : Twin own₁ own₂ h g r) (m : ℕ) :
    Exec.Both (Alike own₁ own₂) (copyBinary h r m) (copyBinary g r m) := by
  refine T.acquireBinbuf.bind ?_
  rintro ⟨h₁, r₁, b⟩ ⟨g₁, r₁', b'⟩ ⟨⟨heq, T₁⟩, hbin⟩
  cases heq
  dsimp only
  rw [← T₁.agree.fresh]
  refine (T₁.binaryLoop hbin m).bind ?_
  rintro ⟨h₂, r₂⟩ ⟨g₂, r₂'⟩ ⟨heq, T₂, -⟩
  cases heq
  exact ⟨rfl, T₂⟩

theorem Twin.rpacketReadBinary (T : Twin own₁ own₂ h g r) (len : ℕ) :
    Exec.Both (Alike own₁ own₂) (rpacketReadBinary h r len) (rpacketReadBinary g r len) := by
  unfold RPacket.rpacketReadBinary
  split_ifs with hraw
  · unfold rpacketRawReadBinary
    split_ifs with hzero
    · exact ⟨rfl, T⟩
    rcases T.readbuf with hnull | ⟨a, c, d, hderef, hbuf, hc, hd, hb⟩
    · rw [hnull]
      exact rfl
    · simp only [hderef, Exec.ok_bind, get_eq hc, get_eq hd, ← hb]
      split_ifs with hinside
      · exact ⟨rfl, Twin.fields T rfl rfl⟩
      · refine (T.copyBinary _).bind ?_
        rintro ⟨h₁, r₁, addr⟩ ⟨g₁, r₁', addr'⟩ ⟨heq, T₁⟩
        cases heq
        exact ⟨rfl, T₁⟩
  · refine (T.rpacketReadUint 4).bind ?_
    rintro ⟨h₁, r₁, size⟩ ⟨g₁, r₁', size'⟩ ⟨heq, T₁⟩
    cases heq
    dsimp only
    split_ifs with hnone
    · exact ⟨rfl, T₁⟩
    rcases T₁.readbuf with hnull | ⟨a, c, d, hderef, hbuf, hc, hd, hb⟩
    · rw [hnull]
      exact rfl
    · simp only [hderef, Exec.ok_bind, get_eq hc, get_eq hd, ← hb]
      split_ifs with hinside
      · refine (T₁.nextBuffer hbuf hc hd _ _).bind ?_
        rintro ⟨h₂, r₂⟩ ⟨g₂, r₂'⟩ ⟨heq, T₂, -⟩
        cases heq
        exact ⟨rfl, T₂⟩
      · refine (T₁.copyBinary _).bind ?_
        rintro ⟨h₂, r₂, addr⟩ ⟨g₂, r₂', addr'⟩ ⟨heq, T₂⟩
        cases heq
        exact ⟨rfl, T₂⟩

/-- **A read does not depend on the number of references**: it returns the same in two memories that
agree, or faults in the same way. -/
theorem Twin.read (T : Twin own₁ own₂ h g r) (op : Read) :
    Exec.Both (Alike own₁ own₂) (read h r op) (read g r op) := by
  cases op with
  | uint8 | uint16 | uint32 | uint64 =>
    refine (T.rpacketReadUint _).bind ?_
    rintro ⟨h₁, r₁, n⟩ ⟨g₁, r₁', n'⟩ ⟨heq, T₁⟩
    cases heq
    exact ⟨rfl, T₁⟩
  | string =>
    refine Exec.Both.bind (R := Alike own₁ own₂) ((T.rpacketReadBinary 0).bind ?_) ?_
    · rintro ⟨h₁, r₁, addr, len⟩ ⟨g₁, r₁', addr', len'⟩ ⟨heq, T₁⟩
      cases heq
      exact ⟨rfl, T₁⟩
    · rintro ⟨h₁, r₁, addr⟩ ⟨g₁, r₁', addr'⟩ ⟨heq, T₁⟩
      cases heq
      exact ⟨rfl, T₁⟩
  | binary =>
    refine (T.rpacketReadBinary 0).bind ?_
    rintro ⟨h₁, r₁, addr, len⟩ ⟨g₁, r₁', addr', len'⟩ ⟨heq, T₁⟩
    cases heq
    exact ⟨rfl, T₁⟩

/-- Reads one after the other. -/
def readAll : Heap → RPacket → List Read → Exec (Heap × RPacket × List Value)
  | h, r, [] => .ok (h, r, [])
  | h, r, op :: ops => do
    let (h, r, v) ← read h r op
    let (h, r, vs) ← readAll h r ops
    return (h, r, v :: vs)

/-- All sequences of reads of the packet return the same in both memories, or fault in the same way. -/
def SameReads (h g : Heap) (r : RPacket) : Prop :=
  ∀ ops, Exec.Both (fun x y => x.2.2 = y.2.2 ∧ Agree x.1 y.1) (readAll h r ops) (readAll g r ops)

theorem Twin.sameReads (T : Twin own₁ own₂ h g r) : SameReads h g r := by
  have hall : ∀ ops h g r, Twin own₁ own₂ h g r →
      Exec.Both (Alike own₁ own₂) (readAll h r ops) (readAll g r ops) := by
    intro ops
    induction ops with
    | nil => exact fun _ _ _ T => ⟨rfl, T⟩
    | cons op ops ih =>
      intro h g r T
      refine (T.read op).bind ?_
      rintro ⟨h₁, r₁, v⟩ ⟨g₁, r₁', v'⟩ ⟨heq, T₁⟩
      cases heq
      refine (ih h₁ g₁ r₁ T₁).bind ?_
      rintro ⟨h₂, r₂, vs⟩ ⟨g₂, r₂', vs'⟩ ⟨heq, T₂⟩
      cases heq
      exact ⟨rfl, T₂⟩
  intro ops
  exact (hall ops h g r T).mono fun x y hxy => ⟨congrArg Prod.snd hxy.1, hxy.2.agree⟩

end RPacket

namespace WPacket

variable {h h' : Heap} {own : Multiset ℕ} {r : RPacket} {rs : List RPacket} {w : WPacket}
  {f bs : List UInt8} {ops : List Write} {a : ℕ}

/-- All buffers are still there, with their links and bytes. -/
def Preserved (h h' : Heap) : Prop :=
  ∀ x c, h.cell x = some c → ∃ c', h'.cell x = some c' ∧ c'.next = c.next ∧ c'.body = c.body

/-- One more reference changes nothing that is stored. -/
theorem preserved_acquire {o : Option ℕ} (hx : bufferAcquire h none o = .ok h') : Preserved h h' := by
  cases o with
  | none =>
    cases Except.ok.inj hx
    exact fun x c hc => ⟨c, hc, rfl, rfl⟩
  | some a =>
    obtain ⟨h₁, hretain, hx⟩ := Exec.bind_eq_ok.mp hx
    obtain ⟨c, hc, hretain⟩ := Exec.bind_eq_ok.mp hretain
    cases Except.ok.inj hx
    cases Except.ok.inj hretain
    intro x e he
    by_cases hxa : x = a
    · subst hxa
      obtain rfl := Option.some.inj ((get_eq_ok.mp hc).symm.trans he)
      exact ⟨_, put_self, rfl, rfl⟩
    · exact ⟨e, by rw [put_of_ne hxa, he], rfl, rfl⟩

/-- A packet is made from `r`, which has the bytes `f`, and written to: it has these bytes and the
ones written, with their number in front unless it is raw, and the packets `rs`, which may share
buffers with it, are as they were. -/
def CopiesOnWrite (h : Heap) (rs : List RPacket) (r : RPacket) (f : List UInt8) (ops : List Write) :
    Prop :=
  ∃ h₁ w₁ h₂ w₂, wpacketCreateByRpacket h r = .ok (h₁, w₁) ∧ writeAll h₁ w₁ ops = .ok (h₂, w₂) ∧
    Waiting h₂ w₂
      (packetBytes r.raw (f.drop (headerLen r.raw) ++ ops.flatMap (Write.bytes r.raw))) ∧
    (∀ r' ∈ rs, SameReads h h₂ r') ∧ Preserved h h₂

/-- **A write to a packet that has been made from another one** reads through a null pointer. -/
theorem write_fault (hwritebuf : w.writebuf = none) (hlen : w.len = none) (op : Write) :
    write h w op = .error .nullPointer := by
  have hwrite : ∀ bs, wpacketWrite h w bs = .error .nullPointer := fun bs => by
    rw [wpacketWrite, hwritebuf]
    simp only [copyOnWrite, hlen, Exec.deref_none, Exec.error_bind]
  have hbinary : ∀ value size, wpacketWriteBinary h w value size = .error .nullPointer :=
    fun value size => by
      unfold wpacketWriteBinary wpacketWriteUint32 wpacketWriteUint
      split_ifs
      · exact hwrite _
      · rw [hwrite]
        rfl
  cases op with
  | uint8 value => exact hwrite _
  | uint16 value => exact hwrite _
  | uint32 value => exact hwrite _
  | uint64 value => exact hwrite _
  | string value =>
    simp only [write, wpacketWriteString]
    split_ifs
    · exact hbinary _ _
    · exact hbinary _ _
  | binary value => exact hbinary _ _

theorem CopiesOnWrite.eq_nil (C : CopiesOnWrite h rs r f ops) : ops = [] := by
  obtain ⟨h₁, w₁, h₂, w₂, hcreate, hrun, -⟩ := C
  cases ops with
  | nil => rfl
  | cons op ops =>
    obtain ⟨h', hacq, hcreate⟩ := Exec.bind_eq_ok.mp hcreate
    cases Except.ok.inj hcreate
    obtain ⟨x, hop, -⟩ := Exec.bind_eq_ok.mp hrun
    rw [write_fault rfl rfl] at hop
    cases hop

end WPacket

namespace Relay

open Exec Sender

variable {s : Relay} {h : Heap} {own : Multiset ℕ} {r : RPacket} {f : List UInt8} {k i : ℕ}
  {srcRaw destRaw : Bool} {ws : List Write}

/-- A length that does not fit is not that of the packet made. -/
theorem fits_of_copies {rs : List RPacket} (hlen : r.len < 0x100000000)
    (C : CopiesOnWrite h rs r f ws) : Fits r := by
  obtain rfl := C.eq_nil
  obtain ⟨h₁, w₁, h₂, w₂, hcreate, hrun, W, -⟩ := C
  obtain ⟨h', hacq, hcreate⟩ := Exec.bind_eq_ok.mp hcreate
  cases Except.ok.inj hcreate
  cases Except.ok.inj hrun
  have hsize := W.dataSize
  rw [Fits]
  cases hraw : r.raw with
  | true => exact .inl rfl
  | false =>
    rw [hraw, packetBytes, List.length_append, if_neg Bool.false_ne_true, if_neg Bool.false_ne_true,
      length_toBytes] at hsize
    change add32 r.len lenSize = _ at hsize
    rw [add32, lenSize] at *
    exact .inr (by omega)

/-- A frame is the length of the packet and what comes behind it, or raw bytes. -/
theorem IsFrame.packetBytes (F : IsFrame r f) : packetBytes r.raw (f.drop (headerLen r.raw)) = f := by
  have hlength := F.length
  unfold Sender.packetBytes headerLen frameLen at *
  split_ifs at * with hraw
  · rfl
  · rw [Bool.not_eq_true] at hraw
    have hdrop : (f.drop lenSize).length = r.len := by
      rw [List.length_drop, hlength, Nat.add_sub_cancel_left]
    have htake : (f.take lenSize).length = lenSize := List.length_take_of_le (by omega)
    have hback := toBytes_ofBytes (f.take lenSize)
    rw [htake, F.header hraw] at hback
    rw [hdrop, hback, List.take_append_drop]

/-- **Nothing is written** to the packet: it has the bytes of the one it is made from. -/
theorem copiesOnWrite_nil {rs : List RPacket} (S : Sound h own) (C : Carries h r f) (F : IsFrame r f)
    (hrs : ∀ r' ∈ rs, r'.owned ≤ own ∧ r'.len < 0x100000000) :
    CopiesOnWrite h rs r f [] := by
  obtain ⟨h₁, w₁, hcreate, S₁, K, W⟩ := waiting_of_carries S C
  refine ⟨h₁, w₁, h₁, w₁, hcreate, rfl, ?_, fun r' hr' => ?_, ?_⟩
  · rw [List.flatMap_nil, List.append_nil, F.packetBytes]
    exact W
  · obtain ⟨hle, hlen⟩ := hrs r' hr'
    obtain ⟨rest, rfl⟩ := Multiset.le_iff_exists_add.mp hle
    have hright : Sound h₁ (r'.owned + (w₁.owned + rest)) := by
      convert S₁ using 1
      abel
    refine Twin.sameReads ⟨S, hright, ?_, hlen⟩
    · refine ⟨K.fresh.symm, fun x c d hc hd => ?_⟩
      obtain ⟨c', hc', hn, hb⟩ := K.cell x d hd
      obtain rfl := Option.some.inj (hc'.symm.trans hc)
      exact ⟨hn.symm, hb.symm⟩
  · obtain ⟨h', hacq, hmade⟩ := Exec.bind_eq_ok.mp hcreate
    cases Except.ok.inj hmade
    exact preserved_acquire hacq

theorem Inv.copies_iff (I : Inv s) (hr : s.src.app[k]? = some r) (hi : s.kept[k]? = some i) :
    CopiesOnWrite s.src.heap s.src.app r (s.frame i) ws ↔ ws = [] ∧ Fits r := by
  obtain ⟨b, hb⟩ := I.filling
  obtain ⟨own, S⟩ := I.holds
  obtain ⟨r₀, -, H⟩ := I.kept k i r b hi hr hb
  constructor
  · exact fun C => ⟨C.eq_nil, fits_of_copies H.lt C⟩
  · rintro ⟨rfl, hfits⟩
    obtain ⟨C, F⟩ := H.carried hfits
    have F' : IsFrame r (s.frame i) := by
      refine ⟨F.length.trans ?_, fun hraw => ?_, F.nonempty⟩
      · rw [frameLen, frameLen, H.raw, H.len]
      · rw [H.len]
        exact F.header (H.raw ▸ hraw)
    refine copiesOnWrite_nil S C F' fun r' hr' => ⟨?_, ?_⟩
    · refine (owned_le hr').trans ?_
      rw [owned, add_assoc]
      exact (Multiset.le_add_right ..).trans
        ((Multiset.le_add_right ..).trans (Multiset.le_add_left ..))
    · obtain ⟨j, hj⟩ := List.mem_iff_getElem?.mp hr'
      have hlt : j < s.kept.length := I.kept_length ▸ (List.getElem?_eq_some_iff.mp hj).1
      obtain ⟨r₀', -, H'⟩ := I.kept j _ r' b (List.getElem?_eq_getElem hlt) hj hb
      exact H'.lt

/-- **A packet made from one that was received** can never be written to: what is promised holds if
and only if nothing is written and the length, with the length field, is a 32-bit number. This is for
every packet that is kept, in a run in which only packets that fit are forwarded. -/
theorem copiesOnWrite_iff (S : Sound h own) : ∃ s, start h srcRaw destRaw = .ok s ∧
    ∀ ops, BeforeEach step (fun s op => s.Allowed op ∧ s.Forwardable op) s ops →
      Always step (fun s => ∀ (k i : ℕ) r ws, s.src.app[k]? = some r → s.kept[k]? = some i →
        (CopiesOnWrite s.src.heap s.src.app r (s.frame i) ws ↔ ws = [] ∧ Fits r)) s ops := by
  obtain ⟨s, hstart, I⟩ := start_inv S
  refine ⟨s, hstart, fun ops hops => ?_⟩
  refine (safe_of_beforeEach (I := Inv) (F := fun _ op _ => op.isRead)
    (fun _ I _ _ _ _ hr hi => I.copies_iff hr hi) (fun s op I hC => ?_) I hops).1
  have hop := step_inv I hC
  cases h : s.step op with
  | ok s' => rwa [h] at hop
  | error e => rwa [h] at hop

/-- A packet of one byte is received and unpacked. -/
def firstPacket : List Op := [.received [1, 0, 0, 0, 7], .unpack, .unpack]

theorem copiesOnWrite_first_packet : ∃ s, start RefHeap.empty false false = .ok s ∧
    BeforeEach step (fun s op => s.Allowed op ∧ s.Forwardable op) s firstPacket ∧
      Always step (fun s => ∀ (k i : ℕ) r ws, s.src.app[k]? = some r → s.kept[k]? = some i →
        (CopiesOnWrite s.src.heap s.src.app r (s.frame i) ws ↔ ws = [] ∧ Fits r)) s firstPacket := by
  obtain ⟨s, hrun⟩ := Exec.exists_ok (x := do
    let s₀ ← start RefHeap.empty false false
    let s₁ ← step s₀ (.received [1, 0, 0, 0, 7])
    let s₂ ← step s₁ .unpack
    let s₃ ← step s₂ .unpack
    if s₀.unpacking = none then return s₃ else .error .fuel) (by decide +kernel)
  obtain ⟨s₀, hs₀, hrun⟩ := Exec.bind_eq_ok.mp hrun
  obtain ⟨s₁, hs₁, hrun⟩ := Exec.bind_eq_ok.mp hrun
  obtain ⟨s₂, hs₂, hrun⟩ := Exec.bind_eq_ok.mp hrun
  obtain ⟨s₃, hs₃, hrun⟩ := Exec.bind_eq_ok.mp hrun
  split_ifs at hrun with hfree
  have hops : BeforeEach step (fun s op => s.Allowed op ∧ s.Forwardable op) s₀ firstPacket := by
    refine .cons ⟨⟨hfree, by decide⟩, trivial⟩ hs₁ (.cons ⟨trivial, trivial⟩ hs₂ ?_)
    exact .cons ⟨trivial, trivial⟩ hs₃ trivial
  obtain ⟨s, hstart, hall⟩ :=
    (copiesOnWrite_iff sound_empty : ∃ s, start RefHeap.empty false false = .ok s ∧ _)
  obtain rfl := Except.ok.inj (hstart.symm.trans hs₀)
  exact ⟨s, hstart, hops, hall _ hops⟩

/-- One byte is written to a packet made from the one received. -/
theorem not_copiesOnWrite_one_byte : ∃ s s₁ s₂ r i, start RefHeap.empty false false = .ok s ∧
    step s (.received [1, 0, 0, 0, 7]) = .ok s₁ ∧ step s₁ .unpack = .ok s₂ ∧
      s₂.src.app[0]? = some r ∧ s₂.kept[0]? = some i ∧
        ¬ CopiesOnWrite s₂.src.heap s₂.src.app r (s₂.frame i) [.uint8 9] := by
  obtain ⟨s, hrun⟩ := Exec.exists_ok (x := do
    let s₀ ← start RefHeap.empty false false
    let s₁ ← step s₀ (.received [1, 0, 0, 0, 7])
    let s₂ ← step s₁ .unpack
    let r ← Exec.deref s₂.src.app[0]?
    let i ← Exec.deref s₂.kept[0]?
    return (r, i)) (by decide +kernel)
  obtain ⟨s₀, hs₀, hrun⟩ := Exec.bind_eq_ok.mp hrun
  obtain ⟨s₁, hs₁, hrun⟩ := Exec.bind_eq_ok.mp hrun
  obtain ⟨s₂, hs₂, hrun⟩ := Exec.bind_eq_ok.mp hrun
  obtain ⟨r, hr, hrun⟩ := Exec.bind_eq_ok.mp hrun
  obtain ⟨i, hi, -⟩ := Exec.bind_eq_ok.mp hrun
  refine ⟨s₀, s₁, s₂, r, i, hs₀, hs₁, hs₂, Exec.deref_eq_ok.mp hr, Exec.deref_eq_ok.mp hi, fun C => ?_⟩
  cases C.eq_nil

end Relay

end Kendylib
