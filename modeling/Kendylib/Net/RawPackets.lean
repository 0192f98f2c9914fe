import Kendylib.Net.ReceiveRuns
import Kendylib.Net.RelayRuns

/-!
# Raw packets

A raw packet has no length in front of it: `rpacket_read_binary` hands out all of it that has not been
read yet. The address returned is that of these bytes, in the buffer of the cursor or in memory of the
packet's own that they are copied to (`Readable.rawBlock`), but their number is told in the first case
only (`raw_reads_whole_iff`).

On a raw connection `unpack` makes a packet of what is in the buffer of its cursor, and goes on until
nothing is left. So every packet is in one buffer, and together they are the stream (`raw_stream`).
-/

namespace Kendylib

open RefHeap Buffer RPacket WPacket Connection

namespace RPacket

variable {h h₁ h₂ h' : Heap} {w w₁ : WPacket} {r : RPacket} {own : Multiset ℕ} {ps : List (ℕ × ℕ)}
  {bs : List UInt8} {size : ℕ} {ops : List Write} {raw : Bool}

/-! ## Packets that have been written -/

/-- Fixed-size reads one after the other. -/
def afterUints : Heap → RPacket → List Width → Exec (Heap × RPacket)
  | h, r, [] => .ok (h, r)
  | h, r, w :: ws => do
    let (h, r, _) ← w.read h r
    afterUints h r ws

/-- After any fixed-size reads the packet is at some later byte. -/
theorem Readable.afterUints (R : Readable raw h r own ps bs) (ws : List Width) :
    ∃ h' r' k, afterUints h r ws = .ok (h', r') ∧ Readable raw h' r' own (ps.drop k) (bs.drop k) := by
  induction ws generalizing h r ps bs with
  | nil => exact ⟨h, r, 0, rfl, R⟩
  | cons w ws ih =>
    obtain ⟨h₁, r₁, hread, R₁, -⟩ := R.rpacketReadUint w.size
    obtain ⟨h', r', k, hrest, R'⟩ := ih R₁
    rw [List.drop_drop, List.drop_drop] at R'
    refine ⟨h', r', _, ?_, R'⟩
    rw [RPacket.afterUints, w.read_eq, hread, Exec.ok_bind]
    exact hrest

/-- `rpacket_read_binary` hands out `bs`, and tells their number, whatever `*len` was before. -/
def ReadsWhole (h : Heap) (r : RPacket) (bs : List UInt8) : Prop :=
  ∀ len, ∃ h' r' addr, rpacketReadBinary h r len = .ok (h', r', addr, bs.length) ∧
    DataAt h' addr (if bs = [] then none else some bs) ∧ r'.dataRemain = 0

theorem Readable.readsWhole_iff (R : Readable true h r own ps bs) :
    ReadsWhole h r bs ↔ bs ≠ [] ∧ Together h r := by
  constructor
  · intro hall
    by_contra hnot
    obtain ⟨h', r', addr, hread, -⟩ := hall (bs.length + 1)
    obtain ⟨h₁, r₁, addr₁, len, hread₁, -, -, -, hkept⟩ := R.rawBlock (bs.length + 1)
    cases Except.ok.inj (hread.symm.trans hread₁)
    have := hkept hnot
    omega
  · intro hcond len
    obtain ⟨h', r', addr, len', hread, R', hdata, htold, -⟩ := R.rawBlock len
    refine ⟨h', r', addr, htold hcond ▸ hread, hdata, ?_⟩
    rw [R'.unread.remain, List.drop_length, List.length_nil]

/-- **A raw packet reads back whole**, after any fixed-size reads, if and only if something is left
and all of it is in the buffer of the cursor. -/
theorem raw_reads_whole_iff (S : Sound h own) (hsize : size < 0x100000000)
    (hcreate : wpacketCreate h size true = .ok (h₁, w₁)) (hrun : writeAll h₁ w₁ ops = .ok (h₂, w))
    (ws : List Width) :
    ∃ h₃ r₀ h₄ r, rpacketCreateByWpacket h₂ w = .ok (h₃, r₀) ∧ afterUints h₃ r₀ ws = .ok (h₄, r) ∧
      (ReadsWhole h₄ r ((ops.flatMap (Write.bytes true)).drop
        ((ops.flatMap (Write.bytes true)).length - r.dataRemain)) ↔
          0 < r.dataRemain ∧ Together h₄ r) := by
  obtain ⟨S₁, B₁, hraw₁⟩ := wpacketCreate_ok S hsize hcreate
  obtain ⟨S₂, B₂, hraw₂⟩ := writeAll_ok S₁ B₁ hrun
  have hraw : w.raw = true := hraw₂.trans hraw₁
  rw [hraw₁, List.nil_append] at B₂
  obtain ⟨payload, hpayload⟩ : ∃ payload, payload = ops.flatMap (Write.bytes true) := ⟨_, rfl⟩
  rw [← hpayload] at B₂ ⊢
  obtain ⟨a, ps, b, c, B⟩ := B₂
  obtain ⟨d, hd, -⟩ := B.begins
  obtain ⟨h₃, r₀, hmade, -, -, R₀⟩ := readable_of_create S₂ B hd fun hr => by
    rw [hraw] at hr
    cases hr
  rw [hraw] at R₀
  obtain ⟨h₄, r, k, hreads, R⟩ := R₀.afterUints ws
  have hremain := R.unread.remain
  refine ⟨h₃, r₀, h₄, r, hmade, hreads, ?_⟩
  have hdrop : payload.drop (payload.length - r.dataRemain) = payload.drop k := by
    rw [hremain, List.length_drop]
    rcases le_total k payload.length with hk | hk
    · rw [Nat.sub_sub_self hk]
    · rw [Nat.sub_eq_zero_of_le hk, Nat.sub_zero, List.drop_length, List.drop_of_length_le hk]
  rw [hdrop, R.readsWhole_iff, hremain, List.length_pos_iff]

/-- Two bytes of six are read, which leaves four in the buffer of the cursor. -/
theorem raw_reads_whole_one_buffer : ∃ h₁ w₁ h₂ w h₃ r₀ h₄ r,
    wpacketCreate RefHeap.empty 8 true = .ok (h₁, w₁) ∧
      writeAll h₁ w₁ [.uint32 7, .binary [5, 6]] = .ok (h₂, w) ∧
        rpacketCreateByWpacket h₂ w = .ok (h₃, r₀) ∧ afterUints h₃ r₀ [.w16] = .ok (h₄, r) ∧
          ReadsWhole h₄ r [0, 0, 5, 6] := by
  obtain ⟨⟨⟨h₁, w₁⟩, ⟨h₂, w⟩, ⟨h₃, r₀⟩, ⟨h₄, r⟩⟩, hrun⟩ := Exec.exists_ok (x := do
    let s ← wpacketCreate RefHeap.empty 8 true
    let t ← writeAll s.1 s.2 [.uint32 7, .binary [5, 6]]
    let u ← rpacketCreateByWpacket t.1 t.2
    let v ← afterUints u.1 u.2 [.w16]
    if v.2.dataRemain = 4 ∧
      ∃ a ∈ v.2.readbuf, ∃ c ∈ v.1.cell a, v.2.dataRemain ≤ c.body.size - v.2.rpos then
        return (s, t, u, v)
    else .error .fuel) (by decide +kernel)
  obtain ⟨s, hcreate, hrun⟩ := Exec.bind_eq_ok.mp hrun
  obtain ⟨t, hwrite, hrun⟩ := Exec.bind_eq_ok.mp hrun
  obtain ⟨u, hmade, hrun⟩ := Exec.bind_eq_ok.mp hrun
  obtain ⟨v, hread, hrun⟩ := Exec.bind_eq_ok.mp hrun
  split_ifs at hrun with hcond
  cases hrun
  obtain ⟨hfour, a, ha, c, hc, hle⟩ := hcond
  obtain ⟨h₃', r₀', h₄', r', hmade', hread', hiff⟩ :=
    raw_reads_whole_iff sound_empty (by decide) hcreate hwrite [.w16]
  cases Except.ok.inj (hmade'.symm.trans hmade)
  cases Except.ok.inj (hread'.symm.trans hread)
  refine ⟨h₁, w₁, h₂, w, h₃, r₀, h₄, r, hcreate, hwrite, hmade, hread, ?_⟩
  dsimp only at hfour
  rw [hfour] at hiff
  exact hiff.mpr ⟨by decide, a, c, ha, hc, hle⟩

/-- Five bytes in two buffers: they are copied, and `*len` stays what it was. -/
theorem not_raw_reads_whole_two_buffers : ∃ h₁ w₁ h₂ w h₃ r,
    wpacketCreate RefHeap.empty 4 true = .ok (h₁, w₁) ∧
      writeAll h₁ w₁ [.binary [1, 2, 3, 4, 5]] = .ok (h₂, w) ∧
        rpacketCreateByWpacket h₂ w = .ok (h₃, r) ∧ ¬ ReadsWhole h₃ r [1, 2, 3, 4, 5] := by
  obtain ⟨⟨⟨h₁, w₁⟩, ⟨h₂, w⟩, ⟨h₃, r⟩, x⟩, hrun⟩ := Exec.exists_ok (x := do
    let s ← wpacketCreate RefHeap.empty 4 true
    let t ← writeAll s.1 s.2 [.binary [1, 2, 3, 4, 5]]
    let u ← rpacketCreateByWpacket t.1 t.2
    let v ← rpacketReadBinary u.1 u.2 0
    if v.2.2.2 = 0 then return (s, t, u, v) else .error .fuel) (by decide +kernel)
  obtain ⟨s, hcreate, hrun⟩ := Exec.bind_eq_ok.mp hrun
  obtain ⟨t, hwrite, hrun⟩ := Exec.bind_eq_ok.mp hrun
  obtain ⟨u, hmade, hrun⟩ := Exec.bind_eq_ok.mp hrun
  obtain ⟨v, hread, hrun⟩ := Exec.bind_eq_ok.mp hrun
  split_ifs at hrun with hzero
  cases hrun
  refine ⟨h₁, w₁, h₂, w, h₃, r, hcreate, hwrite, hmade, fun hall => ?_⟩
  obtain ⟨h', r', addr, hread', -⟩ := hall 0
  cases Except.ok.inj (hread'.symm.trans hread)
  cases hzero

end RPacket

namespace Connection

variable {σ : Type} {process : Callback σ RPacket} {P : Receiver σ → Prop} {s s' : Receiver σ}
  {own : Multiset ℕ} {D len : ℕ} {ps qs : List (ℕ × ℕ)} {bs cs f d : List UInt8} {isRaw : Bool}
  {x : Heap × RPacket} {h : Heap}

/-! ## A raw connection -/

/-- A raw packet as it was handed over: its bytes `d`, at least one, are in one buffer. -/
structure Whole (x : Heap × RPacket) (d : List UInt8) : Prop where
  packet : ∃ a pos, x.2 = ⟨d.length, pos, d.length, 0, pos, none, some a, some a, true⟩ ∧
    Bytes x.1 (places a pos d.length) d ∧
      ∃ c, x.1.cell a = some c ∧ pos + d.length ≤ c.body.size
  sound : ∃ own, Sound x.1 (x.2.owned + own)
  nonempty : d ≠ []
  le : d.length ≤ bufferSize

theorem Whole.later (W : Whole x d) : Later x x.1 := by
  obtain ⟨own, S⟩ := W.sound
  exact ⟨own, S, fun a _ b c _ hc => ⟨c, hc, .of_eq rfl rfl⟩⟩

/-- **A raw packet that was handed over is read whole**, then or later. -/
theorem Whole.readsWhole (W : Whole x d) (hlater : Later x h) : ReadsWhole h x.2 d := by
  obtain ⟨a, pos, hx, hb, c, hc, hle⟩ := W.packet
  obtain ⟨own, S, hgrow⟩ := hlater
  obtain ⟨hspan, hsame⟩ := (Span.here hc hle).grow (hgrow a (by rw [hx])) S
  obtain ⟨c', hc', hg⟩ := hgrow a (by rw [hx]) a c (.refl a) hc
  have hsize := hg.size
  have hbound := W.le
  have hbs : bufferSize = 65536 := rfl
  have R : Readable true h x.2 own (places a pos d.length) d := by
    rw [hx] at S ⊢
    refine ⟨S, ⟨rfl, by omega, ⟨a, a, _, rfl, hspan⟩, hb.congr hsame⟩, rfl, ⟨a, rfl, fun y hy => ?_⟩,
      ?_, (Nat.zero_add _).le, nofun⟩
    · exact Option.some.inj hy ▸ .refl a
    · rw [headerSize]
      dsimp only
      omega
  refine R.readsWhole_iff.mpr ⟨W.nonempty, a, c', by rw [hx], hc', ?_⟩
  rw [hx]
  dsimp only
  omega

theorem whole_of_handedOver (H : HandedOver process s s' D len true f x) (hlen : f.length = len)
    (hin : ∃ a c, x.2.buf = some a ∧ x.1.cell a = some c ∧ D % bufferSize + len ≤ c.body.size)
    (hpos : 0 < len) (hle : len ≤ bufferSize) : Whole x f := by
  subst hlen
  obtain ⟨a, hx, -, -, qs, b, pos', hs, hb⟩ := H.packet
  obtain ⟨a', c, hbuf, hc, hfit⟩ := hin
  obtain rfl : a = a' := by
    rw [hx] at hbuf
    exact Option.some.inj hbuf
  obtain ⟨hcut, -⟩ := hs.advance hc (m := f.length) (k := f.length) hb.length.ge (by omega)
  obtain ⟨hb', -⟩ := Bytes.places_append (hcut ▸ hb)
  rw [List.take_length] at hb'
  exact ⟨⟨a, _, hx, hb', c, hc, hfit⟩, H.sound, List.ne_nil_of_length_pos hpos, hle⟩

/-- A fact about a connection that all steps of the receive path keep. -/
structure Kept (process : Callback σ RPacket) (P : Receiver σ → Prop) : Prop where
  round : ∀ {s s' : Receiver σ} {own : Multiset ℕ} {D len : ℕ} {ps qs : List (ℕ × ℕ)}
    {bs cs f : List UInt8} {isRaw : Bool} {x : Heap × RPacket}, Buffered process s own D ps bs →
      Buffered process s' own (D + len) qs cs → HandedOver process s s' D len isRaw f x → P s → P s'
  other : ∀ {s s' : Receiver σ} {own : Multiset ℕ} {D : ℕ} {ps qs : List (ℕ × ℕ)}
    {bs cs : List UInt8}, Buffered process s own D ps bs → Buffered process s' own D qs cs →
      Undelivered process s s' own → P s → P s'

section Raw

variable (K : Kept process P) (hp : process.Respects RPacket.owned)

include K hp

/-- **A call of `unpack`** hands over all bytes there are. -/
theorem unpackLoop_raw {fuel : ℕ} (pkLen : ℕ) (R : Buffered process s own D ps bs)
    (hraw : s.conn.raw = true) (hP : P s) (hfuel : bs.length < fuel) :
    ∃ t xs ds, unpackLoop process fuel pkLen s = .ok t ∧
      Buffered process t own (D + bs.length) [] [] ∧ t.conn.raw = true ∧ P t ∧
      t.handed = s.handed ++ xs ∧ ds.flatten = bs ∧
      List.Forall₂ Whole xs ds := by
  induction fuel generalizing s D ps bs pkLen with
  | zero => omega
  | succ fuel ih =>
    have hps := R.bytes.length
    rw [unpackLoop, unpackStep, if_pos hraw]
    rcases R.roundRaw hp with ⟨rfl, hround⟩ | ⟨len, s₁, x, hpos, hle, hbuf, hround, R₁, H, hin⟩
    · obtain rfl := List.eq_nil_of_length_eq_zero hps
      rw [hround]
      exact ⟨s, [], [], rfl, R, hraw, hP, (List.append_nil _).symm, rfl, .nil⟩
    · obtain ⟨a', upos', hconn⟩ := H.conn
      have hdrop : (bs.drop len).length = bs.length - len := List.length_drop
      obtain ⟨t, xs, ds, hrun, Rt, hrawt, hPt, hhand, hds, hall⟩ := ih len R₁
        (by rw [hconn]; exact hraw) (K.round R R₁ H hP) (by omega)
      rw [hround]
      refine ⟨t, x :: xs, bs.take len :: ds, hrun, ?_, hrawt, hPt, ?_, ?_, .cons ?_ hall⟩
      · rwa [hdrop, Nat.add_assoc, Nat.add_sub_cancel' hle] at Rt
      · rw [hhand, H.handed, List.append_assoc]
        rfl
      · rw [List.flatten_cons, hds, List.take_append_drop]
      · exact whole_of_handedOver H (List.length_take_of_le hle) hin hpos hbuf

/-- **A read** on a raw connection is handed over at once. -/
theorem recvRound_raw (R : Buffered process s own D [] []) (hready : Ready s)
    (hraw : s.conn.raw = true) (hP : P s) (hbs : bs.length ≤ bufferSize) :
    ∃ t xs ds, recvRound process s bs = .ok t ∧ Buffered process t own (D + bs.length) [] [] ∧
      Ready t ∧ t.conn.raw = true ∧ P t ∧ t.handed = s.handed ++ xs ∧ ds.flatten = bs ∧
      List.Forall₂ Whole xs ds := by
  obtain ⟨s₁, qs, harrive, R₁, U₁, -⟩ := R.arrive hready hbs
  have hsize := R₁.size
  rw [List.nil_append, Nat.mod_eq_of_lt (hbs.trans_lt (by decide))] at hsize
  rw [List.nil_append, List.nil_append] at R₁
  obtain ⟨s₂, xs, ds, hunpack, R₂, hraw₂, hP₂, hhand₂, hds, hall⟩ := unpackLoop_raw K hp 0 R₁
    (U₁.raw.trans hraw) (K.other R R₁ U₁ hP) (show bs.length < s₁.conn.unpackSize + 1 by omega)
  obtain ⟨t, hoffer, Rt, hreadyt, Ut, -⟩ := R₂.offer
  refine ⟨t, xs, ds, ?_, Rt, hreadyt, Ut.raw.trans hraw₂, K.other R₂ Rt Ut hP₂, ?_, hds, hall⟩
  · rw [recvRound, harrive, Exec.ok_bind, unpack, hunpack, Exec.ok_bind, hoffer]
  · rw [Ut.handed, hhand₂, U₁.handed]

/-- **A series of reads** on a raw connection. -/
theorem recvFinish_raw (R : Buffered process s own D [] []) (hready : Ready s)
    (hraw : s.conn.raw = true) (hP : P s) (reads : List (List UInt8))
    (hreads : ∀ bs ∈ reads, bs.length ≤ bufferSize) :
    ∃ t xs ds, recvFinish process .again s reads = .ok t ∧
      Buffered process t own (D + reads.flatten.length) [] [] ∧ Ready t ∧ P t ∧
      t.handed = s.handed ++ xs ∧ ds.flatten = reads.flatten ∧ List.Forall₂ Whole xs ds := by
  induction reads generalizing s D with
  | nil => exact ⟨s, [], [], rfl, R, hready, hP, (List.append_nil _).symm, rfl, .nil⟩
  | cons bs reads ih =>
    obtain ⟨s₁, xs₁, ds₁, hround, R₁, hready₁, hraw₁, hP₁, hhand₁, hds₁, hall₁⟩ :=
      recvRound_raw K hp R hready hraw hP (hreads bs List.mem_cons_self)
    obtain ⟨t, xs₂, ds₂, hrun, Rt, hreadyt, hPt, hhand₂, hds₂, hall₂⟩ := ih R₁ hready₁ hraw₁ hP₁
      fun cs hcs => hreads cs (List.mem_cons_of_mem _ hcs)
    refine ⟨t, xs₁ ++ xs₂, ds₁ ++ ds₂, ?_, ?_, hreadyt, hPt, ?_, ?_, List.rel_append hall₁ hall₂⟩
    · rw [recvFinish, hround, Exec.ok_bind, hrun]
    · rwa [List.flatten_cons, List.length_append, ← Nat.add_assoc]
    · rw [hhand₂, hhand₁, List.append_assoc]
    · rw [List.flatten_append, hds₁, hds₂, List.flatten_cons]

end Raw

/-- The application has all packets that were handed to it, and their chains have at most grown. -/
structure KeptAll (s : Receiver (List RPacket)) : Prop where
  app : s.app = s.handed.map Prod.snd
  grows : ∀ x ∈ s.handed, ∀ a, x.2.buf = some a → GrowsFrom x.1 s.heap a

theorem KeptAll.mem_owned {s : Receiver (List RPacket)} {a : ℕ} (A : KeptAll s) (hx : x ∈ s.handed)
    (ha : x.2.buf = some a) : a ∈ keepPackets.owned s.app := by
  rw [A.app]
  refine Multiset.mem_of_le (Relay.owned_le (List.mem_map_of_mem hx)) ?_
  simp [RPacket.owned, ha]

theorem keptAll_kept : Kept keepPackets KeptAll where
  round {s s'} _ _ _ _ _ _ _ _ _ x R R' H A := by
    obtain ⟨happ, hheap⟩ := Prod.mk.inj (Except.ok.inj H.call)
    refine ⟨by rw [← happ, H.handed, A.app, List.map_append]; rfl, fun y hy a ha => ?_⟩
    rw [H.handed] at hy
    rw [← hheap]
    rcases List.mem_append.mp hy with hold | hnew
    · have hown := A.mem_owned hold ha
      have hmem : a ∈ keepPackets.owned s'.app := by
        rw [← happ]
        exact Multiset.mem_of_le (Relay.owned_append ▸ Multiset.le_add_right ..) hown
      have hlive := R'.sound.live (Multiset.mem_add.mpr (.inr (Multiset.mem_add.mpr (.inl hmem))))
      rw [← hheap] at hlive
      obtain ⟨own, S⟩ := H.sound
      exact (A.grows y hold a ha).trans (.of_keepsFrom (H.keeps.from S.toExact hlive))
    · obtain rfl := List.mem_singleton.mp hnew
      exact .refl _ _
  other {s s'} _ _ _ _ _ _ R R' U A := by
    obtain ⟨b, b', -, -, P⟩ := U.spares
    refine ⟨by rw [U.app, U.handed, A.app], fun x hx a ha => ?_⟩
    rw [U.handed] at hx
    exact (A.grows x hx a ha).trans (P.grows a (Multiset.mem_add.mpr (.inl (A.mem_owned hx ha))))

section Raw

variable {h' : Heap} {c : Connection} {app : σ} {calls : List (List (List UInt8))}

/-- **Calls of `RecvFinish`** on a raw connection after `connection_start_recv`. -/
theorem receive_raw (K : Kept process P) (hp : process.Respects RPacket.owned)
    (S : Sound h (process.owned app + own))
    (hstart : connectionStartRecv h (connectionCreate true) = .ok (h', c))
    (hP : P ⟨h', c, app, [], []⟩) (hreads : ∀ reads ∈ calls, ∀ bs ∈ reads, bs.length ≤ bufferSize) :
    ∃ s' ds, receive process ⟨h', c, app, [], []⟩ calls = .ok s' ∧ s'.conn.unpackSize = 0 ∧
      Sound s'.heap (s'.conn.recvOwned + (process.owned s'.app + own)) ∧ P s' ∧
      ds.flatten = calls.flatten.flatten ∧ List.Forall₂ Whole s'.handed ds := by
  obtain ⟨h₁, c₁, hstart₁, hraw, R, hready⟩ := buffered_start (c := connectionCreate true) S rfl
  obtain ⟨rfl, rfl⟩ := Prod.mk.inj (Except.ok.inj (hstart₁.symm.trans hstart))
  obtain ⟨t, xs, ds, hrun, Rt, -, hPt, hhand, hds, hall⟩ := recvFinish_raw K hp R hready hraw hP
    calls.flatten fun bs hbs => by
      obtain ⟨reads, hmem, hin⟩ := List.mem_flatten.mp hbs
      exact hreads reads hmem bs hin
  obtain rfl : t.handed = xs := hhand
  exact ⟨t, ds, by rw [receive_eq, hrun], Rt.size, Rt.sound, hPt, hds, hall⟩

/-- **A raw connection delivers the stream.** After every series of reads `unpack_size` is zero, and
the packets handed over have the bytes received, one after the other: read whole when they are handed
over or in any later memory that still holds them, and read whole at the end by an application that
keeps them. -/
theorem raw_stream (hreads : ∀ reads ∈ calls, ∀ bs ∈ reads, bs.length ≤ bufferSize) :
    (∀ (h h' : Heap) (c : Connection) (app : σ), process.Respects RPacket.owned →
      Sound h (process.owned app + own) →
      connectionStartRecv h (connectionCreate true) = .ok (h', c) →
        ∃ s' ds, receive process ⟨h', c, app, [], []⟩ calls = .ok s' ∧ s'.conn.unpackSize = 0 ∧
          ds.flatten = calls.flatten.flatten ∧
          List.Forall₂ (fun x d => Later x x.1 ∧ ∀ h, Later x h → ReadsWhole h x.2 d) s'.handed ds) ∧
    ∀ (h h' : Heap) (c : Connection), Sound h own →
      connectionStartRecv h (connectionCreate true) = .ok (h', c) →
        ∃ s' ds, receive keepPackets ⟨h', c, [], [], []⟩ calls = .ok s' ∧ s'.conn.unpackSize = 0 ∧
          ds.flatten = calls.flatten.flatten ∧ List.Forall₂ (ReadsWhole s'.heap) s'.app ds := by
  constructor
  · intro h h' c app hp S hstart
    obtain ⟨s', ds, hrun, hsize, -, -, hds, hall⟩ :=
      receive_raw ⟨fun _ _ _ _ => trivial, fun _ _ _ _ => trivial⟩ hp S hstart trivial hreads
    exact ⟨s', ds, hrun, hsize, hds, hall.imp fun x d W => ⟨W.later, fun h hl => W.readsWhole hl⟩⟩
  · intro h h' c S hstart
    obtain ⟨s', ds, hrun, hsize, S', A, hds, hall⟩ := receive_raw keptAll_kept
      Relay.keepPackets_respects
      (show Sound h (keepPackets.owned [] + own) from (zero_add own).symm ▸ S) hstart ⟨rfl, nofun⟩ hreads
    refine ⟨s', ds, hrun, hsize, hds, ?_⟩
    rw [A.app, List.forall₂_map_left_iff]
    have hlater : ∀ x ∈ s'.handed, Later x s'.heap := fun x hx => by
      have hle := A.app ▸ Relay.owned_le (List.mem_map_of_mem (f := Prod.snd) hx)
      obtain ⟨rest, hrest⟩ := Multiset.le_iff_exists_add.mp hle
      refine ⟨s'.conn.recvOwned + (rest + own), ?_, A.grows x hx⟩
      convert S' using 1
      rw [hrest]
      abel
    exact ((List.forall₂_and_left _ _).mpr ⟨hlater, hall⟩).imp fun x d hx => hx.2.readsWhole hx.1

/-- Three bytes in two reads, each of which is a packet. -/
theorem raw_stream_two_reads : ∃ h c s' ds,
    connectionStartRecv RefHeap.empty (connectionCreate true) = .ok (h, c) ∧
      receive keepPackets ⟨h, c, [], [], []⟩ [[[1, 2], [3]]] = .ok s' ∧ s'.conn.unpackSize = 0 ∧
        ds.flatten = [1, 2, 3] ∧ List.Forall₂ (ReadsWhole s'.heap) s'.app ds := by
  obtain ⟨h, c, hstart, -⟩ := buffered_start (c := connectionCreate true)
    (show Sound RefHeap.empty (keepPackets.owned [] + 0) from sound_empty) rfl
  obtain ⟨-, hkeep⟩ := @raw_stream _ keepPackets 0 [[[1, 2], [3]]] (by decide)
  obtain ⟨s', ds, hrun, hsize, hds, hall⟩ := hkeep RefHeap.empty h c sound_empty hstart
  exact ⟨h, c, s', ds, hstart, hrun, hsize, hds, hall⟩

end Raw

end Connection

end Kendylib
