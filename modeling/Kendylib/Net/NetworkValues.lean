import Kendylib.Net.FailedReads
import Kendylib.Net.Network
import Kendylib.Net.RoundTrip

/-!
# Values sent between processes

What one process writes to a packet is what another one reads from it, when the packet has gone through
the network, while either of them receives, sends, forwards and reads other packets
(`network_values`). The reads of a packet may be spread over a run; what has not been read yet is always
the end of what has been written (`Legible`).

The one thing that can go wrong is that the length field of a packet crosses the edge of a buffer of the
process that receives it. Such a packet is not read back, and no other step of a run faults.
-/

namespace Kendylib

open RefHeap Buffer Connection Exec
open Held (ownedAll)

/-! ## Packets in buffers that are filled further -/

namespace Buffer

variable {h h' : Heap} {a b k n pos : ℕ} {c : Cell Block} {ps : List (ℕ × ℕ)}

theorem GrowsFrom.reach (G : GrowsFrom h h' a) (hab : Reach h a b) : GrowsFrom h h' b :=
  fun x c hx hc => G x c (hab.trans hx) hc

/-- The rest of a span behind places that fit into its first buffer. -/
theorem Span.behind (hs : Span h a pos ps b n) (hc : h.cell a = some c) (hk : k ≤ ps.length)
    (hin : pos + k ≤ c.body.capacity) : Span h a (pos + k) (ps.drop k) b n := by
  have hroom : k ≤ c.body.size - pos := by
    by_contra hlt
    obtain ⟨-, -, hnext⟩ := hs.advance hc hk rfl
    rcases hnext with hnext | ⟨hnil, -⟩ | ⟨hfull, -⟩
    · omega
    · have := congrArg List.length hnil
      rw [List.length_drop, List.length_nil] at this
      omega
    · omega
  exact (hs.advance hc hk (show k = min (c.body.size - pos) k by omega)).2.1

end Buffer

namespace RPacket

open WPacket

variable {h h' : Heap} {own own' : Multiset ℕ} {r r' : RPacket} {p bs done : List UInt8} {a : ℕ}
  {c : Cell Block} {ops : List Write}

/-- **Reading goes on** in memory where the buffers of the packet have been filled further. -/
theorem Reading.grow (R : Reading h r own bs)
    (G : ∀ a, r.buf = some a ∨ r.binbuf = some a → GrowsFrom h h' a)
    (E : ∀ x, r.binbuf = some x → ∃ c, h'.cell x = some c ∧ c.body.size = 0)
    (S' : Sound h' (r.owned + own')) : Reading h' r own' bs := by
  obtain ⟨s, hs, hreach⟩ := R.first
  obtain ⟨hremain, hlt, a, ps, b, pos, ha, hspan, hbytes⟩ := R.unread
  have Gs : GrowsFrom h h' s := G s (.inl hs)
  obtain ⟨hspan', hsame⟩ := hspan.grow (Gs.reach (hreach a ha)) S'
  refine ⟨S', ⟨hremain, hlt, a, ps, b, pos, ha, hspan', hbytes.congr hsame⟩, R.notRaw,
    ⟨s, hs, fun x hx => Reach.grow (hreach x hx) Gs⟩, R.len, R.room, fun x hx => ?_⟩
  obtain ⟨c, hc, -, hcap⟩ := R.binbuf x hx
  obtain ⟨c', hc', hg⟩ := G x (.inr hx) x c (.refl x) hc
  obtain ⟨d, hd, hsize⟩ := E x hx
  obtain rfl := Option.some.inj (hd.symm.trans hc')
  exact ⟨d, hd, hsize, hg.capacity.trans hcap⟩

/-- **Any read** returns, and reading goes on behind the bytes that it takes. -/
theorem Reading.read (R : Reading h r own bs) (op : Read) :
    ∃ h' r' v k, read h r op = .ok (h', r', v) ∧ Reading h' r' own (bs.drop k) := by
  obtain ⟨ps, R⟩ := reading_iff.mp R
  cases hw : op.width with
  | some w =>
    obtain ⟨h', r', hread, R', -⟩ := R.rpacketReadUint w
    exact ⟨h', r', .number _, _, by rw [read_width hw, hread]; rfl, reading_iff.mpr ⟨_, R'⟩⟩
  | none =>
    obtain ⟨h', r', addr, hread, R', -⟩ := R.block 0
    obtain ⟨f, hblock⟩ := read_block (h := h) (r := r) hw
    exact ⟨h', r', f _, _, by rw [hblock, hread]; rfl, reading_iff.mpr ⟨_, R'⟩⟩

/-- What has not been read yet is the end of the payload. -/
def Legible (h : Heap) (r : RPacket) (p : List UInt8) : Prop :=
  ∃ own n, Reading h r own (p.drop n)

theorem Legible.reading (P : Legible h r (done ++ bs)) (hremain : r.dataRemain = bs.length) :
    ∃ own, Reading h r own bs := by
  obtain ⟨own, n, R⟩ := P
  have hlen : ((done ++ bs).drop n).length = bs.length := R.unread.remain.symm.trans hremain
  have heq : (done ++ bs).drop n = bs :=
    (List.suffix_of_suffix_length_le (List.drop_suffix n _) (List.suffix_append done bs)
      hlen.le).eq_of_length hlen
  exact ⟨own, heq ▸ R⟩

theorem Legible.readsBack_iff (P : Legible h r (done ++ ops.flatMap (Write.bytes false)))
    (hremain : r.dataRemain = (ops.flatMap (Write.bytes false)).length)
    (hops : ∀ op ∈ ops, Write.Allowed op) : ReadsBack h r ops ↔ ∀ op ∈ ops, Write.Fits op := by
  obtain ⟨own, R⟩ := P.reading hremain
  exact RPacket.readsBack_iff R hops

/-- The read that matches a write asks for bytes that have been written. -/
theorem width_matching (op : Write) : match (matching op).width with
    | some w => 0 < w ∧ w ≤ 8 ∧ w ≤ (op.bytes false).length
    | none => lenSize ≤ (op.bytes false).length := by
  cases op with
  | uint8 | uint16 | uint32 | uint64 => exact ⟨by decide, by decide, (length_toBytes _ _).ge⟩
  | string | binary =>
    change lenSize ≤ (binaryBytes false _ _).length
    rw [binaryBytes]
    simp

/-- A packet whose cursor is beyond the end of its buffer is not read back. -/
theorem not_readsBack_beyond (S : Sound h own) (hbuf : r.readbuf = some a) (hc : h.cell a = some c)
    (hlt : c.body.capacity < r.rpos) (hpos : r.rpos + 8 < 0x100000000) (hraw : r.raw = false)
    (hremain : r.dataRemain = (ops.flatMap (Write.bytes false)).length) (hne : ops ≠ []) :
    ¬ ReadsBack h r ops := by
  obtain ⟨op, ops, rfl⟩ := List.exists_cons_of_ne_nil hne
  rw [List.flatMap_cons, List.length_append] at hremain
  have hnumber : ∀ w, 0 < w → w ≤ 8 → w ≤ (op.bytes false).length →
      rpacketReadUint w h r = .error .outOfBounds := fun w hw hw8 hle =>
    rpacketReadUint_beyond hbuf hc (S.wf a c hc) hlt (by omega) hw (by omega)
  have hfault : read h r (matching op) = .error .outOfBounds := by
    have hwidth := width_matching op
    cases hw : (matching op).width with
    | some w =>
      rw [hw] at hwidth
      obtain ⟨hpos, hle8, hle⟩ := hwidth
      rw [read_width hw, hnumber w hpos hle8 hle]
      rfl
    | none =>
      rw [hw] at hwidth
      obtain ⟨f, hblock⟩ := read_block (h := h) (r := r) hw
      rw [hblock, rpacketReadBinary, hraw, if_neg Bool.false_ne_true, rpacketReadUint32,
        hnumber 4 (by decide) (by decide) hwidth]
      rfl
  rw [ReadsBack, hfault]
  exact id

end RPacket

/-! ## What a step does to the packets kept -/

namespace Relay

open RPacket

variable {s s' : Relay} {r : RPacket} {k a : ℕ} {op : Op} {src : Receiver (List RPacket)}

/-- The rest of the program leaves what packets have copied to memory of their own. -/
def KeepsCopies (s : Relay) : Op → Prop
  | .dest (.other h) => ∀ r ∈ s.src.app, ∀ x, r.binbuf = some x → GrowsFrom s.src.heap h x
  | _ => True

/-- A packet has been kept before, and its buffers have at most been filled further, or it has been
read from. -/
def Passes (s s' : Relay) (i : ℕ) (r : RPacket) : Prop :=
  ∃ (k : ℕ) (r₀ : RPacket), s.kept[k]? = some i ∧ s.src.app[k]? = some r₀ ∧ r.buf = r₀.buf ∧
    (∀ a, r.buf = some a → GrowsFrom s.src.heap s'.src.heap a) ∧
      (r = r₀ ∧ (∀ a, r.binbuf = some a → GrowsFrom s.src.heap s'.src.heap a) ∨
        ∃ op v, RPacket.read s.src.heap r₀ op = .ok (s'.src.heap, r, v))

/-- A packet is handed over by the step: it starts where `unpack` is. -/
def Fresh (s s' : Relay) (i : ℕ) (r : RPacket) : Prop :=
  i = s.delivered.length ∧ ∃ a d, r = ⟨r.len, add32 (s.unpacked % bufferSize) lenSize, r.len, 0,
      s.unpacked % bufferSize, none, some a, some a, false⟩ ∧
    s'.src.heap.cell a = some d ∧ d.body.capacity = bufferSize

/-- What a step does to the packets. -/
structure Passing (s s' : Relay) : Prop where
  delivered : ∀ (i : ℕ) r, s'.delivered[i]? = some r → s.delivered[i]? = some r ∨ Fresh s s' i r
  kept : ∀ (k i : ℕ) r, s'.kept[k]? = some i → s'.src.app[k]? = some r →
    Passes s s' i r ∨ Fresh s s' i r

/-- The buffers that a packet refers to by itself have at most been filled further. -/
def Grows (s s' : Relay) (r : RPacket) : Prop :=
  ∀ a, r.buf = some a ∨ r.binbuf = some a → GrowsFrom s.src.heap s'.src.heap a

theorem Grows.passes {i : ℕ} (G : Grows s s' r) (hi : s.kept[k]? = some i)
    (hr : s.src.app[k]? = some r) : Passes s s' i r :=
  ⟨k, r, hi, hr, rfl, fun a ha => G a (.inl ha), .inl ⟨rfl, fun a ha => G a (.inr ha)⟩⟩

theorem passing_of_grows (hdelivered : s'.delivered = s.delivered) (hkept : s'.kept = s.kept)
    (happ : s'.src.app = s.src.app) (G : ∀ r ∈ s.src.app, Grows s s' r) : Passing s s' := by
  refine ⟨fun i r hr => .inl (hdelivered ▸ hr), fun k i r hi hr => .inl ?_⟩
  rw [happ] at hr
  exact (G r (List.mem_of_getElem? hr)).passes (hkept ▸ hi) hr

/-- A packet is handed over and kept. -/
theorem passing_of_append (hlength : s.kept.length = s.src.app.length)
    (hdelivered : s'.delivered = s.delivered ++ [r]) (hkept : s'.kept = s.kept ++ [s.delivered.length])
    (happ : s'.src.app = s.src.app ++ [r]) (F : Fresh s s' s.delivered.length r)
    (G : ∀ r ∈ s.src.app, Grows s s' r) : Passing s s' := by
  refine ⟨fun i q hq => ?_, fun k i q hi hq => ?_⟩
  · rw [hdelivered] at hq
    by_cases hlt : i < s.delivered.length
    · exact .inl (by rwa [List.getElem?_append_left hlt] at hq)
    · rw [List.getElem?_append_right (Nat.le_of_not_lt hlt), List.getElem?_singleton] at hq
      split_ifs at hq with hzero
      obtain rfl := Option.some.inj hq
      obtain rfl : i = s.delivered.length := by omega
      exact .inr F
  · rw [hkept] at hi
    rw [happ] at hq
    by_cases hlt : k < s.src.app.length
    · rw [List.getElem?_append_left (hlength ▸ hlt)] at hi
      rw [List.getElem?_append_left hlt] at hq
      exact .inl ((G q (List.mem_of_getElem? hq)).passes hi hq)
    · have hge := Nat.le_of_not_lt hlt
      rw [List.getElem?_append_right (hlength ▸ hge), List.getElem?_singleton] at hi
      rw [List.getElem?_append_right hge, List.getElem?_singleton] at hq
      split_ifs at hi hq
      obtain rfl := Option.some.inj hq
      obtain rfl := Option.some.inj hi
      exact .inr F

theorem mem_owned (ha : r.buf = some a ∨ r.binbuf = some a) : a ∈ r.owned := by
  rcases ha with ha | ha <;> simp [RPacket.owned, ha]

/-- The references of a packet that is kept, and those of everything else. -/
theorem Inv.sound_kept (I : Inv s) (hr : s.src.app[k]? = some r) : ∃ own, Sound s.src.heap
    (r.owned + (s.src.conn.recvOwned + (keepPackets.owned (s.src.app.eraseIdx k) + own))) := by
  obtain ⟨own, ps, R⟩ := I.buffered
  refine ⟨ownedAll s.dest.conn.sendList + own, ?_⟩
  convert R.sound using 1
  rw [owned_eraseIdx hr]
  abel

theorem Inv.grows_of_keeps (I' : Inv s') (K : Keeps s.src.heap s'.src.heap) (hr : r ∈ s'.src.app) :
    Grows s s' r := by
  obtain ⟨own, ps, R⟩ := I'.buffered
  intro a ha
  refine .of_keepsFrom (K.from R.sound.toExact (R.sound.live ?_))
  exact Multiset.mem_add.mpr (.inr (Multiset.mem_add.mpr
    (.inl (Multiset.mem_of_le (owned_le hr) (mem_owned ha)))))

theorem grows_undelivered {own : Multiset ℕ} (U : Undelivered keepPackets s.src src own)
    (hsrc : s'.src = src) (hr : r ∈ s.src.app) : Grows s s' r := by
  obtain ⟨b, b', -, -, P⟩ := U.spares
  intro a ha
  rw [hsrc]
  exact P.grows a (Multiset.mem_add.mpr (.inl (Multiset.mem_of_le (owned_le hr) (mem_owned ha))))

theorem passing_received {bs : List UInt8} (I : Inv s) (hC : s.Allowed (.received bs))
    (hs : s.step (.received bs) = .ok s') : Passing s s' := by
  obtain ⟨own, ps, R⟩ := I.buffered
  obtain ⟨src, qs, harrive, -, U, -⟩ := R.arrive (I.ready hC.1) hC.2
  rw [step, harrive] at hs
  obtain rfl := Except.ok.inj hs
  exact passing_of_grows rfl rfl U.app fun r hr => grows_undelivered U rfl hr

/-- **A round of `unpack`** may hand a packet over. -/
theorem passing_unpack (I : Inv s) (I' : Inv s') (hraw : s.src.conn.raw = false)
    (hs : s.unpackNext = .ok s') : Passing s s' := by
  cases hround : s.unpacking with
  | none =>
    rw [unpackNext, hround] at hs
    obtain rfl := Except.ok.inj hs
    exact passing_of_grows rfl rfl rfl fun r _ a _ => .refl _ a
  | some pkLen =>
    obtain ⟨own, ps, R⟩ := I.buffered
    obtain ⟨src, hoffer, -, -, U, -⟩ := R.offer
    have hstep : unpackStep keepPackets pkLen s.src = unpackRound keepPackets pkLen s.src := by
      rw [unpackStep, if_neg (by rw [hraw]; exact Bool.false_ne_true)]
    have hend : unpackRound keepPackets pkLen s.src = .ok none → Passing s s' := by
      intro hnone
      rw [unpackNext_offer hround (hstep.trans hnone) hoffer] at hs
      obtain rfl := Except.ok.inj hs
      exact passing_of_grows rfl rfl U.app fun r hr => grows_undelivered U rfl hr
    by_cases hmore : lenSize < s.src.conn.unpackSize
    · rcases R.round keepPackets_respects pkLen hmore rfl rfl with
        ⟨-, hnone⟩ | ⟨-, src', x, hdeliver, -, H⟩
      · exact hend hnone
      · obtain ⟨happ, hheap⟩ := Prod.mk.inj (Except.ok.inj H.call)
        have happ : src'.app = s.src.app ++ [x.2] := happ.symm
        obtain ⟨a, hx, -, ⟨d, hd, hcap⟩, -⟩ := H.packet
        rw [unpackNext_round hround (hstep.trans hdeliver)] at hs
        obtain rfl := Except.ok.inj hs
        refine passing_of_append (r := x.2) I.kept_length ?_ rfl happ
          ⟨rfl, a, d, by rw [hx]; rfl, ?_, hcap⟩ fun r hr => I'.grows_of_keeps ?_ ?_
        · change s.delivered ++ src'.app.drop _ = _
          rw [happ, List.drop_left]
        · rw [← show x.1 = src'.heap from hheap]
          exact hd
        · exact hheap ▸ H.keeps
        · change r ∈ src'.app
          rw [happ]
          exact List.mem_append_left _ hr
    · refine hend ?_
      rw [unpackRound, if_pos (Nat.le_of_not_lt hmore)]

/-- **A read** goes on with its own packet and leaves the others. -/
theorem passing_read {op : Read} (I : Inv s) (hs : s.step (.read k op) = .ok s') : Passing s s' := by
  rw [step] at hs
  cases hr : s.src.app[k]? with
  | none =>
    rw [hr] at hs
    obtain rfl := Except.ok.inj hs
    exact passing_of_grows rfl rfl rfl fun r _ a _ => .refl _ a
  | some r =>
    rw [hr] at hs
    obtain ⟨⟨h', r', v⟩, hread, hs⟩ := Exec.bind_eq_ok.mp hs
    obtain rfl := Except.ok.inj hs
    obtain ⟨own, S⟩ := I.sound_kept hr
    obtain ⟨b, hb⟩ := I.filling
    have hk : k < s.src.app.length := (List.getElem?_eq_some_iff.mp hr).1
    obtain ⟨i, hi⟩ : ∃ i, s.kept[k]? = some i :=
      ⟨_, List.getElem?_eq_getElem (I.kept_length ▸ hk)⟩
    obtain ⟨r₀, -, H⟩ := I.kept k i r b hi hr hb
    obtain ⟨L, -⟩ := H.read S (by simp [recvOwned, hb]) hread
    refine ⟨fun i q hq => .inl hq, fun j i' q hi' hq => .inl ?_⟩
    change s.kept[j]? = some i' at hi'
    change (s.src.app.set k r')[j]? = some q at hq
    by_cases hjk : k = j
    · subst hjk
      rw [List.getElem?_set_self hk] at hq
      obtain rfl := Option.some.inj hq
      refine ⟨k, r, hi', hr, L.fields.1, fun a ha => (L.stays a ?_).growsFrom, .inr ⟨op, v, hread⟩⟩
      rw [L.fields.1] at ha
      exact Multiset.mem_add.mpr (.inl (by simp [ha]))
    · rw [List.getElem?_set_ne hjk] at hq
      have hmem : q ∈ s.src.app.eraseIdx k :=
        List.mem_eraseIdx_iff_getElem?.mpr ⟨j, fun h => hjk h.symm, hq⟩
      refine Grows.passes (fun a ha => (L.stays a ?_).growsFrom) hi' hq
      exact Multiset.mem_add.mpr (.inr (Multiset.mem_add.mpr (.inr (Multiset.mem_add.mpr
        (.inl (Multiset.mem_of_le (owned_le hmem) (mem_owned ha)))))))

theorem passing_destroy (I : Inv s) (I' : Inv s') (hs : s.step (.destroy k) = .ok s') :
    Passing s s' := by
  rw [step] at hs
  cases hr : s.src.app[k]? with
  | none =>
    rw [hr] at hs
    obtain rfl := Except.ok.inj hs
    exact passing_of_grows rfl rfl rfl fun r _ a _ => .refl _ a
  | some r =>
    rw [hr] at hs
    obtain ⟨own, S⟩ := I.sound_kept hr
    obtain ⟨h', hdestroy, -, K⟩ := rpacketDestroy_spec S
    simp only [hdestroy, Exec.ok_bind] at hs
    obtain rfl := Except.ok.inj hs
    refine ⟨fun i q hq => .inl hq, fun j i q hi hq => .inl ?_⟩
    change (s.kept.eraseIdx k)[j]? = some i at hi
    change (s.src.app.eraseIdx k)[j]? = some q at hq
    have G : Grows s _ q := I'.grows_of_keeps K (List.mem_of_getElem? hq)
    rw [List.getElem?_eraseIdx] at hi hq
    split_ifs at hi hq
    · exact G.passes hi hq
    · exact G.passes hi hq

theorem step_submission {d d' : Sender} {w : WPacket} {f : List UInt8} {flush callback : Bool}
    (hs : d.step (submission w f flush callback) = .ok d') : d'.heap = d.heap := by
  cases flush with
  | true =>
    obtain ⟨c, -, hs⟩ := Exec.bind_eq_ok.mp hs
    obtain rfl := Except.ok.inj hs
    rfl
  | false =>
    obtain rfl := Except.ok.inj hs
    rfl

theorem passing_forward {flush callback : Bool} (I : Inv s) (I' : Inv s')
    (hfits : s.Forwardable (.forward k flush callback)) (hs : s.forward k flush callback = .ok s') :
    Passing s s' := by
  rw [forward] at hs
  split at hs
  next r i hr hi =>
    obtain ⟨own, ps, R⟩ := I.buffered
    obtain ⟨b, hb⟩ := I.filling
    obtain ⟨r₀, -, H⟩ := I.kept k i r b hi hr hb
    obtain ⟨h', w', hcreate', -, K, -⟩ := Sender.waiting_of_carries R.sound (H.carried (hfits r hr)).1
    obtain ⟨⟨h, w⟩, hcreate, hs⟩ := Exec.bind_eq_ok.mp hs
    obtain ⟨rfl, rfl⟩ := Prod.mk.inj (Except.ok.inj (hcreate'.symm.trans hcreate))
    obtain ⟨d, hd, hs⟩ := Exec.bind_eq_ok.mp hs
    have hheap : d.heap = h' := step_submission hd
    rw [← hheap] at K
    obtain rfl := Except.ok.inj hs
    exact passing_of_grows rfl rfl rfl fun r hr => I'.grows_of_keeps K hr
  next =>
    obtain rfl := Except.ok.inj hs
    exact passing_of_grows rfl rfl rfl fun r _ a _ => .refl _ a

/-- **A step of the connection that is sent on**, or of the rest of the program. -/
theorem passing_dest {op : Sender.Op} (I : Inv s) (I' : Inv s') (hC : s.Allowed (.dest op))
    (hcopies : s.KeepsCopies (.dest op)) (hs : s.step (.dest op) = .ok s') : Passing s s' := by
  obtain ⟨d, hd, hs⟩ := Exec.bind_eq_ok.mp hs
  obtain rfl := Except.ok.inj hs
  have hstep : (∀ h, op ≠ .other h) → s.Holds s.src.heap op.owned → Passing s (s.withSender d) := by
    rintro hop ⟨own, S⟩
    have S₁ : Sound s.src.heap (ownedAll s.dest.conn.sendList + (op.owned +
        (s.src.conn.recvOwned + (keepPackets.owned s.src.app + own)))) := by
      convert S using 1
      rw [Relay.owned]
      abel
    obtain ⟨K, -⟩ := Sender.step_owned I.sender hop S₁ hd
    exact passing_of_grows rfl rfl rfl fun r hr => I'.grows_of_keeps K hr
  cases op with
  | other h =>
    obtain ⟨-, U, -⟩ := hC
    obtain rfl := Except.ok.inj hd
    exact passing_of_grows rfl rfl rfl fun r hr a ha => ha.elim (U.kept r hr a) (hcopies r hr a)
  | push w bytes callback | send w bytes callback => exact hstep (fun h heq => by cases heq) hC.1
  | written | update | fail => exact hstep (fun h heq => by cases heq) I.holds

/-- **What a step does to the packets.** -/
theorem Inv.passing {op : Op} (I : Inv s) (I' : Inv s') (hraw : s.src.conn.raw = false)
    (hC : s.Allowed op) (hfits : s.Forwardable op) (hcopies : s.KeepsCopies op)
    (hs : s.step op = .ok s') : Passing s s' := by
  cases op with
  | received bs => exact passing_received I hC hs
  | unpack => exact passing_unpack I I' hraw hs
  | read k op => exact passing_read I hs
  | destroy k => exact passing_destroy I I' hs
  | forward k flush callback => exact passing_forward I I' hfits hs
  | dest op => exact passing_dest I I' hC hcopies hs

end Relay

namespace Network

open RPacket WPacket Relay

/-! ## What can be read -/

variable {y y' : Relay} {subs subs' : List Submission} {m : Submission} {r : RPacket} {i j k : ℕ}
  {p : List UInt8} {op : Relay.Op}

/-- The length field of a packet does not cross the edge of a buffer of the process that receives it. -/
def OneBuffer (submitted : List Submission) (j : ℕ) : Prop :=
  ((submitted.take j).flatMap Submission.bytes).length % bufferSize + lenSize ≤ bufferSize

/-- **What a process reads** of the packets submitted at its peer. -/
structure Values (submitted : List Submission) (y : Relay) : Prop where
  /-- Whatever has been read of a packet, what is left is read back, strings of `2 ^ 32 - 1` bytes or more
  excepted. -/
  left : ∀ (k j : ℕ) r m done ops, y.kept[k]? = some j → y.src.app[k]? = some r →
    submitted[j]? = some m → OneBuffer submitted j →
      m.bytes = encode (done ++ ops.flatMap (Write.bytes false)) →
        r.dataRemain = (ops.flatMap (Write.bytes false)).length → (∀ op ∈ ops, Write.Allowed op) →
          (ReadsBack y.src.heap r ops ↔ ∀ op ∈ ops, Write.Fits op)
  /-- A packet as it was handed over is read back only if its length field is in one buffer. -/
  whole : ∀ (k j : ℕ) r m ops, y.kept[k]? = some j → y.src.app[k]? = some r →
    y.delivered[j]? = some r → submitted[j]? = some m →
      m.bytes = encode (ops.flatMap (Write.bytes false)) → (∀ op ∈ ops, Write.Allowed op) →
        (ReadsBack y.src.heap r ops ↔ (∀ op ∈ ops, Write.Fits op) ∧ OneBuffer submitted j)

/-- The cursors of the packets are where the packets submitted say. -/
structure Placed (subs : List Submission) (y : Relay) : Prop where
  handed : ∀ (j : ℕ) r, y.delivered[j]? = some r → ∃ a, r = ⟨r.len,
    add32 (Arrives.offset (frames subs) j % bufferSize) lenSize, r.len, 0,
      Arrives.offset (frames subs) j % bufferSize, none, some a, some a, false⟩
  first : ∀ (k : ℕ) r a, y.src.app[k]? = some r → r.buf = some a →
    ∃ c, y.src.heap.cell a = some c ∧ c.body.capacity = bufferSize
  legible : ∀ (k j : ℕ) r m p, y.kept[k]? = some j → y.src.app[k]? = some r → subs[j]? = some m →
    OneBuffer subs j → m.bytes = encode p → Legible y.src.heap r p

theorem oneBuffer_iff : OneBuffer subs j ↔
    Arrives.offset (frames subs) j % bufferSize + lenSize ≤ bufferSize := by
  rw [OneBuffer, Arrives.offset, frames, ← List.map_take, List.flatMap_def]

/-- A packet that is kept comes from the packet `m` submitted, with the payload `p`. -/
structure Source (subs : List Submission) (y : Relay) (j : ℕ) (r : RPacket) (m : Submission)
    (p : List UInt8) : Prop where
  submitted : subs[j]? = some m
  lt : j < y.delivered.length
  bytes : m.bytes = encode p
  pos : 1 ≤ p.length
  bound : p.length + lenSize + bufferSize < 0x100000000
  len : r.len = p.length
  sound : ∃ own, Sound y.src.heap (r.owned + own)
  carries : Sender.Carries y.src.heap r m.bytes
  copied : ∀ x, r.binbuf = some x → ∃ c, y.src.heap.cell x = some c ∧ c.body.size = 0

theorem exists_source (N : Node y) (L : Linked subs y) (hframed : ∀ m ∈ subs, Framed m.bytes)
    (hj : y.kept[k]? = some j) (hr : y.src.app[k]? = some r) : ∃ m p, Source subs y j r m p := by
  obtain ⟨b, hb⟩ := N.inv.filling
  obtain ⟨r₀, hr₀, H⟩ := N.inv.kept k j r b hj hr hb
  obtain ⟨m, hm, hbytes, -⟩ := L.frame hframed hr₀
  obtain ⟨m', hm', -, hlen⟩ := L.packets j r₀ hr₀
  obtain rfl := Option.some.inj (hm.symm.trans hm')
  obtain ⟨p, hp, hpos, hbound⟩ := hframed m (List.mem_of_getElem? hm)
  obtain ⟨own, S⟩ := N.inv.sound_kept hr
  have hfits := L.fits hframed hr₀
  rw [Relay.Fits, ← H.len, ← H.raw] at hfits
  rw [hp, length_encode, Nat.add_left_cancel_iff] at hlen
  exact ⟨m, p, hm, (List.getElem?_eq_some_iff.mp hr₀).1, hp, hpos, hbound, H.len.trans hlen.symm, ⟨_, S⟩,
    hbytes ▸ (H.carried hfits).1, fun x hx => (H.binbuf x hx).empty⟩

theorem encode_injective : Function.Injective encode := fun p q h => by
  have := congrArg (List.drop lenSize) h
  rwa [encode, encode, List.drop_left' (length_toBytes ..), List.drop_left' (length_toBytes ..)] at this

theorem source (N : Node y) (L : Linked subs y) (hframed : ∀ m ∈ subs, Framed m.bytes)
    (hj : y.kept[k]? = some j) (hr : y.src.app[k]? = some r) (hm : subs[j]? = some m)
    (hp : m.bytes = encode p) : Source subs y j r m p := by
  obtain ⟨m', q, H⟩ := exists_source N L hframed hj hr
  obtain rfl := Option.some.inj (hm.symm.trans H.submitted)
  obtain rfl := encode_injective (hp.symm.trans H.bytes)
  exact H

/-- **A packet that has been handed over** can be read if its length field is in one buffer. -/
theorem legible_fresh (L : Linked subs y) (N' : Node y') (L' : Linked subs y')
    (hframed : ∀ m ∈ subs, Framed m.bytes) (F : Relay.Fresh y y' j r) (hj : y'.kept[k]? = some j)
    (hr : y'.src.app[k]? = some r) (hm : subs[j]? = some m) (hone : OneBuffer subs j)
    (hp : m.bytes = encode p) : Legible y'.src.heap r p := by
  have H := source N' L' hframed hj hr hm hp
  obtain ⟨own, S⟩ := H.sound
  have hlen := H.len
  have hbound := H.bound
  obtain ⟨rfl, a, d, hfields, hd, hcap⟩ := F
  obtain ⟨a', ps, b, pos, hbuf, hs, hbytes⟩ := H.carries.span
  rw [oneBuffer_iff, ← L.unpacked hframed] at hone
  have hbs : bufferSize = 65536 := rfl
  have hrpos : r.rpos = y.unpacked % bufferSize + lenSize := by
    rw [hfields]
    exact add32_of_lt (by omega)
  have hpos : r.beginPos = y.unpacked % bufferSize := by rw [hfields]
  have hfirst : r.buf = some a := by rw [hfields]
  have hread : r.readbuf = some a := by rw [hfields]
  obtain rfl := Option.some.inj (hfirst.symm.trans hbuf)
  have hps := hbytes.length
  rw [hp, length_encode] at hps
  rw [hpos] at hs
  have hrest := hs.behind hd (show lenSize ≤ ps.length by omega) (hcap ▸ hone)
  have hpayload := hbytes.drop lenSize
  rw [hp, encode, List.drop_left' (length_toBytes ..)] at hpayload
  refine ⟨own, 0, S, ⟨?_, ?_, a, _, b, pos, hread, hrpos ▸ hrest, hpayload⟩, by rw [hfields],
    ⟨a, hfirst, fun x hx => ?_⟩, ?_, ?_, fun x hx => ?_⟩
  · rw [List.drop_zero, ← hlen, hfields]
  · rw [List.drop_zero]
    omega
  · obtain rfl := Option.some.inj (hread.symm.trans hx)
    exact .refl a
  · rw [hlen, show headerSize = 32 from rfl]
    omega
  · rw [List.drop_zero, hlen, hfields]
    exact (Nat.zero_add _).le
  · rw [hfields] at hx
    cases hx

/-- **Reading goes on** after a step. -/
theorem legible_passes (N' : Node y') (L' : Linked subs y') (hframed : ∀ m ∈ subs, Framed m.bytes)
    (P : Placed subs y) (T : Relay.Passes y y' j r) (hj : y'.kept[k]? = some j)
    (hr : y'.src.app[k]? = some r) (hm : subs[j]? = some m) (hone : OneBuffer subs j)
    (hp : m.bytes = encode p) : Legible y'.src.heap r p := by
  obtain ⟨k₀, r₀, hj₀, hr₀, hbuf, hgrow, hcase⟩ := T
  obtain ⟨own, n, R⟩ := P.legible k₀ j r₀ m p hj₀ hr₀ hm hone hp
  rcases hcase with ⟨rfl, hbin⟩ | ⟨op, v, hread⟩
  · have H := source N' L' hframed hj hr hm hp
    obtain ⟨own', S'⟩ := H.sound
    exact ⟨own', n, R.grow (fun a ha => ha.elim (hgrow a) (hbin a)) H.copied S'⟩
  · obtain ⟨h', r', v', k', hread', R'⟩ := R.read op
    obtain ⟨hheap, hpair⟩ := Prod.mk.inj (Except.ok.inj (hread'.symm.trans hread))
    obtain ⟨rfl, -⟩ := Prod.mk.inj hpair
    rw [List.drop_drop] at R'
    exact ⟨own, n + k', hheap ▸ R'⟩

/-- **A step of a process.** -/
theorem Placed.step (P : Placed subs y) (L : Linked subs y) (N' : Node y') (L' : Linked subs y')
    (hframed : ∀ m ∈ subs, Framed m.bytes) (T : Relay.Passing y y') :
    Placed subs y' := by
  refine ⟨fun j r hr => ?_, fun k r a hr ha => ?_, fun k j r m p hj hr hm hone hp => ?_⟩
  · rcases T.delivered j r hr with hr | ⟨rfl, a, d, hfields, -⟩
    · exact P.handed j r hr
    · rw [L.unpacked hframed] at hfields
      exact ⟨a, hfields⟩
  · have hk : k < y'.src.app.length := (List.getElem?_eq_some_iff.mp hr).1
    have hj : y'.kept[k]? = some _ := List.getElem?_eq_getElem (N'.inv.kept_length ▸ hk)
    rcases T.kept k _ r hj hr with ⟨k₀, r₀, -, hr₀, hbuf, hgrow, -⟩ | ⟨-, a', d, hfields, hd, hcap⟩
    · obtain ⟨c, hc, hcap⟩ := P.first k₀ r₀ a hr₀ (hbuf ▸ ha)
      obtain ⟨c', hc', hg⟩ := hgrow a ha a c (.refl a) hc
      exact ⟨c', hc', hg.capacity.trans hcap⟩
    · rw [hfields] at ha
      obtain rfl := Option.some.inj ha
      exact ⟨d, hd, hcap⟩
  · rcases T.kept k j r hj hr with hpasses | hfresh
    · exact legible_passes N' L' hframed P hpasses hj hr hm hone hp
    · exact legible_fresh L N' L' hframed hfresh hj hr hm hone hp

theorem oneBuffer_append {l : List Submission} (hj : j ≤ subs.length) :
    OneBuffer (subs ++ l) j ↔ OneBuffer subs j := by
  rw [OneBuffer, OneBuffer, List.take_append_of_le_length hj]

/-- More packets are submitted at the peer. -/
theorem Placed.continues (P : Placed subs y) (N : Node y) (L : Linked subs y)
    (hframed : ∀ m ∈ subs, Framed m.bytes) (C : Continues subs subs') : Placed subs' y := by
  obtain ⟨l, rfl, -⟩ := C
  have hle : y.delivered.length ≤ (frames subs).length := L.arrives.le
  have hlen : y.delivered.length ≤ subs.length := hle.trans length_frames.le
  refine ⟨fun j r hr => ?_, P.first, fun k j r m p hj hr hm hone hp => ?_⟩
  · have hlt := (List.getElem?_eq_some_iff.mp hr).1
    rw [show frames (subs ++ l) = frames subs ++ frames l from List.map_append,
      Arrives.offset_append (hlt.le.trans hle)]
    exact P.handed j r hr
  · obtain ⟨m', q, H⟩ := exists_source N L hframed hj hr
    rw [List.getElem?_append_left (H.lt.trans_le hlen)] at hm
    exact P.legible k j r m p hj hr hm ((oneBuffer_append (H.lt.le.trans hlen)).mp hone) hp

theorem Placed.left (P : Placed subs y) {done : List UInt8} {ops : List Write}
    (hj : y.kept[k]? = some j) (hr : y.src.app[k]? = some r) (hm : subs[j]? = some m)
    (hone : OneBuffer subs j) (hp : m.bytes = encode (done ++ ops.flatMap (Write.bytes false)))
    (hremain : r.dataRemain = (ops.flatMap (Write.bytes false)).length)
    (hops : ∀ op ∈ ops, Write.Allowed op) :
    ReadsBack y.src.heap r ops ↔ ∀ op ∈ ops, Write.Fits op :=
  (P.legible k j r m _ hj hr hm hone hp).readsBack_iff hremain hops

/-- A packet as it was handed over is not read back if its length field crosses the edge of a buffer. -/
theorem Placed.not_readsBack (P : Placed subs y) {ops : List Write}
    (H : Source subs y j r m (ops.flatMap (Write.bytes false))) (hr : y.src.app[k]? = some r)
    (hdelivered : y.delivered[j]? = some r) (hcross : ¬ OneBuffer subs j) :
    ¬ ReadsBack y.src.heap r ops := by
  obtain ⟨own, S⟩ := H.sound
  have hlen := H.len
  have hpos := H.pos
  obtain ⟨a, hfields⟩ := P.handed j r hdelivered
  obtain ⟨c, hc, hcap⟩ := P.first k r a hr (by rw [hfields])
  rw [oneBuffer_iff] at hcross
  have hbs : bufferSize = 65536 := rfl
  have hlenSize : lenSize = 4 := rfl
  have hmod : Arrives.offset (frames subs) j % bufferSize < bufferSize := Nat.mod_lt _ (by decide)
  have hrpos : r.rpos = Arrives.offset (frames subs) j % bufferSize + lenSize := by
    rw [hfields]
    exact add32_of_lt (by omega)
  refine not_readsBack_beyond S (a := a) (by rw [hfields]) hc (by omega) (by omega) (by rw [hfields])
    (by rw [← hlen, hfields]) fun hnil => ?_
  rw [hnil] at hpos
  exact absurd hpos (by decide)

/-- **What a process reads.** -/
theorem Placed.values (P : Placed subs y) (N : Node y) (L : Linked subs y)
    (hframed : ∀ m ∈ subs, Framed m.bytes) : Values subs y := by
  refine ⟨fun k j r m done ops hj hr hm hone hp => P.left hj hr hm hone hp,
    fun k j r m ops hj hr hdelivered hm hp hops => ?_⟩
  have H := source N L hframed hj hr hm hp
  by_cases hone : OneBuffer subs j
  · obtain ⟨a, hfields⟩ := P.handed j r hdelivered
    have hremain : r.dataRemain = (ops.flatMap (Write.bytes false)).length := by rw [← H.len, hfields]
    rw [and_iff_left hone]
    exact P.left hj hr hm hone (show m.bytes = encode ([] ++ _) from hp) hremain hops
  · exact iff_of_false (P.not_readsBack H hr hdelivered hone) fun h => hone h.2

/-! ## Any number of processes -/

section Processes

variable {ι : Type} [DecidableEq ι] {peer : ι → ι} {n n' : ι → Relay} {x : ι × Relay.Op} {q : ι}

/-- A read from a packet whose length field crosses the edge of a buffer. -/
def ReadsCrossing (peer : ι → ι) (n : ι → Relay) (x : ι × Relay.Op) : Prop :=
  ∃ k op j, x.2 = .read k op ∧ (n x.1).kept[k]? = some j ∧
    ¬ OneBuffer (n (peer x.1)).dest.submitted j

/-- The processes are connected, and the cursors of the packets in their places. -/
structure Legibly (peer : ι → ι) (n : ι → Relay) : Prop where
  connected : Connected peer n
  placed : ∀ i, Placed (n (peer i)).dest.submitted (n i)

omit [DecidableEq ι] in
theorem Legibly.process (I : Legibly peer n) {op : Relay.Op} (hC : Allowed peer n (q, op))
    (hcopies : (n q).KeepsCopies op) (hs : (n q).step op = .ok y') (N' : Node y') :
    Linked (n (peer q)).dest.submitted y' ∧ Placed (n (peer q)).dest.submitted y' ∧
      Continues (n q).dest.submitted y'.dest.submitted := by
  obtain ⟨hallowed, hwired, hsends⟩ := hC
  obtain ⟨N, L⟩ := I.connected q
  have hframed := (I.connected (peer q)).1.framed
  obtain ⟨L', -, hcontinues⟩ := N.step L hframed hallowed (I.connected.bytes hwired) hsends hs
  have T := N.inv.passing N'.inv N.raw hallowed (N.forwardable L hframed op) hcopies hs
  exact ⟨L', (I.placed q).step L N' L' hframed T, hcontinues⟩

omit [DecidableEq ι] in
/-- A read that faults is one from a packet whose length field crosses the edge of a buffer. -/
theorem Legibly.readsCrossing (I : Legibly peer n) {op : Relay.Op} {e : Fault}
    (hread : op.isRead) (hs : (n q).step op = .error e) : ReadsCrossing peer n (q, op) := by
  obtain ⟨N, L⟩ := I.connected q
  cases op with
  | read k op =>
    rw [Relay.step] at hs
    cases hr : (n q).src.app[k]? with
    | none =>
      rw [hr] at hs
      cases hs
    | some r =>
      have hk : k < (n q).src.app.length := (List.getElem?_eq_some_iff.mp hr).1
      have hj : (n q).kept[k]? = some _ := List.getElem?_eq_getElem (N.inv.kept_length ▸ hk)
      refine ⟨k, op, _, rfl, hj, fun hone => ?_⟩
      obtain ⟨m, p, H⟩ := exists_source N L (I.connected (peer q)).1.framed hj hr
      obtain ⟨own, i, R⟩ := (I.placed q).legible k _ r m p hj hr H.submitted hone H.bytes
      obtain ⟨h', r', v, -, hok, -⟩ := R.read op
      rw [hr] at hs
      dsimp only at hs
      rw [hok] at hs
      cases hs
  | received | unpack | destroy | forward | dest => exact hread.elim

/-- **One step** of one process. -/
theorem Legibly.step (I : Legibly peer n) (hC : Allowed peer n x) (hcopies : (n x.1).KeepsCopies x.2) :
    match Network.step n x with
    | .ok n' => Legibly peer n'
    | .error _ => ReadsCrossing peer n x := by
  obtain ⟨q, op⟩ := x
  have hconnected := I.connected.step hC
  rw [Network.step] at hconnected ⊢
  dsimp only at hconnected ⊢
  cases hs : (n q).step op with
  | error e =>
    rw [hs] at hconnected
    exact I.readsCrossing hconnected hs
  | ok y' =>
    rw [hs] at hconnected
    refine ⟨hconnected, fun i => ?_⟩
    have N' : Node y' := by
      have := (hconnected q).1
      rwa [Function.update_self] at this
    obtain ⟨L', P', hcontinues⟩ := I.process hC hcopies hs N'
    have hcontinues := continues_update hcontinues
    have hframed := (I.connected (peer i)).1.framed
    by_cases hi : i = q
    · subst hi
      have hplaced := P'.continues N' L' hframed (hcontinues (peer i))
      rwa [Function.update_self]
    · rw [Function.update_of_ne hi]
      exact (I.placed i).continues (I.connected i).1 (I.connected i).2 hframed (hcontinues (peer i))

end Processes

theorem placed_start {h : Heap} (hstart : Relay.start h false false = .ok y) : Placed [] y := by
  obtain ⟨⟨h', c⟩, -, hstart⟩ := Exec.bind_eq_ok.mp hstart
  obtain rfl := Except.ok.inj hstart
  refine ⟨fun j r hr => ?_, fun k r a hr => ?_, fun k j r m p hj => ?_⟩
  · cases hr
  · cases hr
  · cases hj

/-- **Values arrive.** In every run in which no empty packets are sent, the reads that match what has been
written to a packet return it, whatever happens in between, if its length field is in one buffer of the
process that receives it; and no step faults but a read from another packet. -/
theorem network_values {ι : Type} [DecidableEq ι] (peer : ι → ι) {h : ι → Heap}
    {own : ι → Multiset ℕ} (S : ∀ i, Sound (h i) (own i)) : ∃ n, Starts h n ∧
      ∀ ops, BeforeEach Network.step
          (fun n x => Allowed peer n x ∧ (n x.1).KeepsCopies x.2) n ops →
        Always Network.step (fun n => ∀ i, Values (n (peer i)).dest.submitted (n i)) n ops ∧
          FaultsOnly Network.step (fun n x _ => ReadsCrossing peer n x) n ops := by
  choose n hstart hnode hlinked hsub using fun i => start_node (S i)
  refine ⟨n, hstart, fun ops hops =>
    safe_of_beforeEach (I := Legibly peer) (fun n I i => ?_) (fun n x I hC => ?_)
      ⟨fun i => ⟨hnode i, ?_⟩, fun i => ?_⟩ hops⟩
  · exact (I.placed i).values (I.connected i).1 (I.connected i).2 (I.connected (peer i)).1.framed
  · have hop := I.step hC.1 hC.2
    cases hs : Network.step n x with
    | ok n' => rwa [hs] at hop
    | error e => rwa [hs] at hop
  · rw [hsub]
    exact hlinked i
  · rw [hsub]
    exact placed_start (hstart i)

/-- Two numbers are sent, and the first one is read. -/
def twoNumbers (w : WPacket) : List (Bool × Relay.Op) :=
  [(true, .dest (.send w [3, 0, 0, 0, 7, 8, 0] true)), (true, .dest (.written 7)),
    (false, .received [3, 0, 0, 0, 7, 8, 0]), (false, .unpack), (false, .read 0 .uint8)]

theorem network_values_two_numbers : ∃ w n,
    BeforeEach Network.step (fun n x => Allowed not n x ∧ (n x.1).KeepsCopies x.2) n (twoNumbers w) ∧
      Always Network.step (fun n => ∀ i, Values (n (not i)).dest.submitted (n i)) n (twoNumbers w) ∧
        FaultsOnly Network.step (fun n x _ => ReadsCrossing not n x) n (twoNumbers w) := by
  obtain ⟨s, hrun⟩ := Exec.exists_ok (x := do
    let x ← wpacketCreate RefHeap.empty 64 false
    let y ← writeAll x.1 x.2 [.uint8 7, .uint16 8]
    let t ← Relay.start y.1 false false
    let f ← Relay.start RefHeap.empty false false
    let n₁ ← Network.step (fun i => if i then t else f)
      (true, .dest (.send y.2 [3, 0, 0, 0, 7, 8, 0] true))
    let n₂ ← Network.step n₁ (true, .dest (.written 7))
    let n₃ ← Network.step n₂ (false, .received [3, 0, 0, 0, 7, 8, 0])
    let n₄ ← Network.step n₃ (false, .unpack)
    let n₅ ← Network.step n₄ (false, .read 0 .uint8)
    if ((n₁ true).dest.conn.sendUsed = true ∧ (n₁ true).dest.sending = none ∧
        7 ≤ ((n₁ true).dest.conn.wsendbuf.map Iovec.len).sum) ∧
      ((n₂ false).unpacking = none ∧ (n₂ false).stream = [] ∧
        (n₂ true).dest.accepted = [3, 0, 0, 0, 7, 8, 0]) then return n₅
    else .error .fuel) (by decide +kernel)
  obtain ⟨⟨h₀, w₀⟩, hcreate, hrun⟩ := Exec.bind_eq_ok.mp hrun
  obtain ⟨⟨h, w⟩, hwrite, hrun⟩ := Exec.bind_eq_ok.mp hrun
  obtain ⟨t, ht, hrun⟩ := Exec.bind_eq_ok.mp hrun
  obtain ⟨f, hf, hrun⟩ := Exec.bind_eq_ok.mp hrun
  obtain ⟨n₁, hn₁, hrun⟩ := Exec.bind_eq_ok.mp hrun
  obtain ⟨n₂, hn₂, hrun⟩ := Exec.bind_eq_ok.mp hrun
  obtain ⟨n₃, hn₃, hrun⟩ := Exec.bind_eq_ok.mp hrun
  obtain ⟨n₄, hn₄, hrun⟩ := Exec.bind_eq_ok.mp hrun
  obtain ⟨n₅, hn₅, hrun⟩ := Exec.bind_eq_ok.mp hrun
  split_ifs at hrun with hfacts
  obtain ⟨⟨hused, hnone, htotal⟩, hfree, hstream, hsent⟩ := hfacts
  obtain ⟨S, hholds, hsender, W⟩ := ready_to_send (by decide) hcreate hwrite ht
  have hbytes : Framed [3, 0, 0, 0, 7, 8, 0] := ⟨[7, 8, 0], by decide, by decide, by decide⟩
  have hops : BeforeEach Network.step (fun n x => Allowed not n x ∧ (n x.1).KeepsCopies x.2)
      (fun i => if i then t else f) (twoNumbers w) := by
    refine .cons ⟨⟨⟨hholds, hsender, W, by decide⟩, trivial, hbytes⟩, trivial⟩ hn₁ ?_
    refine .cons ⟨⟨⟨hused, hnone, by decide, htotal, by decide⟩, trivial, trivial⟩, trivial⟩ hn₂ ?_
    refine .cons ⟨⟨⟨hfree, by decide⟩, ?_, trivial⟩, trivial⟩ hn₃ ?_
    · change (n₂ false).stream ++ _ <+: (n₂ true).dest.accepted
      rw [hstream, hsent]
      exact List.prefix_rfl
    refine .cons ⟨⟨trivial, trivial, trivial⟩, trivial⟩ hn₄ ?_
    exact .cons ⟨⟨trivial, trivial, trivial⟩, trivial⟩ hn₅ trivial
  obtain ⟨n, hstart, hall⟩ := network_values not (h := fun i => if i then h else RefHeap.empty)
    (fun i => show Sound _ (if i then w.owned else 0) by cases i; exacts [sound_empty, S])
  obtain rfl : n = fun i => if i then t else f := by
    funext i
    have hi := hstart i
    cases i
    · exact Except.ok.inj (hi.symm.trans hf)
    · exact Except.ok.inj (hi.symm.trans ht)
  exact ⟨w, _, hops, hall _ hops⟩

end Network

end Kendylib
