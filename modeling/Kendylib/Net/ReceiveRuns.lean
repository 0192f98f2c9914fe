import Kendylib.Net.Receive

/-!
# Runs of the receive path

A connection that is not raw receives a stream of bytes in reads of any sizes. What it does depends
on the bytes only, and not on how they are cut into reads: `cut` computes from the bytes that have
not been unpacked the packets that the next call of `unpack` hands over and the bytes it leaves.

* If the bytes are a stream of frames, the packets handed over are the frames in order
  (`handed_frames`).
* Reading a packet gives the bytes of its frame exactly if the frame starts at least four bytes
  before the end of a buffer (`reads_payload_iff`).
* Every call of `unpack` ends, and lowers `unpack_size` by the bytes of each packet, exactly if no
  length is read that with the four bytes of the length field exceeds 32 bits
  (`runEnds_iff_avoids`).
-/

namespace Kendylib.Connection

open RefHeap Buffer RPacket WPacket

variable {σ : Type} {process : Callback σ RPacket} {s s' t : Receiver σ} {own : Multiset ℕ} {D : ℕ}
  {ps : List (ℕ × ℕ)} {bs : List UInt8}

/-! ## What a call of `unpack` does with the bytes -/

/-- The packets, with their length fields, that `unpack` cuts off the bytes, and the bytes it
leaves; `none` if it comes to a length whose sum with the length field's own four bytes is not below
`2 ^ 32`. Only the number of bytes modulo `2 ^ 32` is known to it. -/
def cutLoop : ℕ → List UInt8 → Option (List (List UInt8) × List UInt8)
  | 0, bs => some ([], bs)
  | fuel + 1, bs =>
    if bs.length % 0x100000000 ≤ lenSize then some ([], bs)
    else
      let total := ofBytes (bs.take lenSize) + lenSize
      if 0x100000000 ≤ total then none
      else if bs.length % 0x100000000 < total then some ([], bs)
      else (cutLoop fuel (bs.drop total)).map fun x => (bs.take total :: x.1, x.2)

def cut (bs : List UInt8) : Option (List (List UInt8) × List UInt8) := cutLoop bs.length bs

/-- The loop of `unpack` ends in the state `t`, and every round that hands over a packet lowers
`unpack_size` by the length of the packet and the four bytes of the length field. -/
inductive EndsLowering (process : Callback σ RPacket) : ℕ → Receiver σ → Receiver σ → Prop
  | stop {pkLen : ℕ} {s : Receiver σ} (hstep : unpackStep process pkLen s = .ok none) :
      EndsLowering process pkLen s s
  | round {pkLen len : ℕ} {s s' t : Receiver σ}
      (hstep : unpackStep process pkLen s = .ok (some (s', len)))
      (hlower : s'.conn.unpackSize + (len + lenSize) = s.conn.unpackSize)
      (rest : EndsLowering process len s' t) : EndsLowering process pkLen s t

/-- The packets handed over one after the other, from the byte number `D` of the stream on. -/
def DeliveredAll (arrived : List (ℕ × ℕ)) : ℕ → List (List UInt8) → List (Heap × RPacket) → Prop
  | _, [], [] => True
  | D, f :: fs, x :: xs =>
    Delivered arrived D (f.length - lenSize) f x ∧ DeliveredAll arrived (D + f.length) fs xs
  | _, _, _ => False

theorem EndsLowering.loop {pkLen fuel : ℕ} (h : EndsLowering process pkLen s t)
    (hfuel : s.conn.unpackSize < fuel) : unpackLoop process fuel pkLen s = .ok t := by
  induction h generalizing fuel with
  | stop hstep =>
    obtain ⟨f, rfl⟩ : ∃ f, fuel = f + 1 := ⟨fuel - 1, by omega⟩
    rw [unpackLoop, hstep]
    rfl
  | round hstep hlower rest ih =>
    obtain ⟨f, rfl⟩ : ∃ f, fuel = f + 1 := ⟨fuel - 1, by omega⟩
    have hlen : lenSize = 4 := rfl
    rw [unpackLoop, hstep]
    exact ih (by omega)

theorem EndsLowering.unpack_eq (h : EndsLowering process 0 s t) : unpack process s = .ok t :=
  h.loop (Nat.lt_succ_self _)

theorem unpackStep_eq (hraw : s.conn.raw = false) (pkLen : ℕ) :
    unpackStep process pkLen s = unpackRound process pkLen s := by
  rw [unpackStep, hraw]
  rfl

section Unpack

variable (hp : process.Respects RPacket.owned)

include hp

/-- **A call of `unpack`** on bytes without a length that is too large. -/
theorem unpack_cut {fuel : ℕ} (pkLen : ℕ) (R : Receiving process s own D ps bs)
    (hfuel : bs.length ≤ fuel) {fs : List (List UInt8)} {rest : List UInt8}
    (hcut : cutLoop fuel bs = some (fs, rest)) :
    ∃ t k xs, EndsLowering process pkLen s t ∧ fs.flatten = bs.take k ∧ rest = bs.drop k ∧
      k ≤ bs.length ∧ Receiving process t own (D + k) (ps.drop k) rest ∧ t.arrived = s.arrived ∧
      t.handed = s.handed ++ xs ∧ DeliveredAll s.arrived D fs xs := by
  induction fuel generalizing s D ps bs fs pkLen with
  | zero =>
    obtain rfl : bs = [] := List.eq_nil_of_length_eq_zero (by omega)
    obtain ⟨rfl, rfl⟩ := Prod.mk.inj (Option.some.inj hcut)
    have hsize := R.size
    refine ⟨s, 0, [], .stop ?_, rfl, rfl, le_rfl, R, rfl, by simp, trivial⟩
    rw [unpackStep_eq R.raw, unpackRound, if_pos (by rw [hsize]; decide)]
  | succ fuel ih =>
    have hsize := R.size
    have hlenSize : lenSize = 4 := rfl
    have hstop : ∀ pkLen, unpackRound process pkLen s = .ok none → fs = [] → rest = bs →
        ∃ t k xs, EndsLowering process pkLen s t ∧ fs.flatten = bs.take k ∧ rest = bs.drop k ∧
          k ≤ bs.length ∧ Receiving process t own (D + k) (ps.drop k) rest ∧
          t.arrived = s.arrived ∧ t.handed = s.handed ++ xs ∧ DeliveredAll s.arrived D fs xs := by
      rintro pkLen hround rfl rfl
      refine ⟨s, 0, [], .stop ?_, rfl, rfl, Nat.zero_le _, R, rfl, by simp, trivial⟩
      rw [unpackStep_eq R.raw, hround]
    rw [cutLoop] at hcut
    by_cases hsmall : bs.length % 0x100000000 ≤ lenSize
    · rw [if_pos hsmall] at hcut
      obtain ⟨rfl, rfl⟩ := Prod.mk.inj (Option.some.inj hcut)
      exact hstop pkLen (by rw [unpackRound, if_pos (by omega)]) rfl rfl
    · rw [if_neg hsmall] at hcut
      obtain ⟨len, hlen⟩ : ∃ len, len = ofBytes (bs.take lenSize) := ⟨_, rfl⟩
      simp only [← hlen] at hcut
      by_cases hlarge : 0x100000000 ≤ len + lenSize
      · rw [if_pos hlarge] at hcut
        cases hcut
      · rw [if_neg hlarge] at hcut
        have htotal : len + lenSize = add32 len lenSize := (add32_of_lt (by omega)).symm
        rcases unpackRound_spec hp R pkLen (by omega) hlen htotal with
          ⟨hfew, hround⟩ | ⟨henough, s', x, hround, R', hhanded, harrived, hdel, hsize'⟩
        · rw [if_pos (by omega)] at hcut
          obtain ⟨rfl, rfl⟩ := Prod.mk.inj (Option.some.inj hcut)
          exact hstop pkLen hround rfl rfl
        · rw [if_neg (by omega)] at hcut
          obtain ⟨⟨fs', rest'⟩, hcut', heq⟩ := Option.map_eq_some_iff.mp hcut
          obtain ⟨rfl, rfl⟩ := Prod.mk.inj heq
          have hmod := Nat.mod_le bs.length 0x100000000
          obtain ⟨t, k, xs, hends, hfs, hrest, hk, Rt, harr, hhand, hall⟩ := ih len R'
            (by rw [List.length_drop]; omega) hcut'
          rw [List.length_drop] at hk
          have hflen : (bs.take (len + lenSize)).length = len + lenSize := by
            rw [List.length_take]
            omega
          refine ⟨t, len + lenSize + k, x :: xs, .round (by rw [unpackStep_eq R.raw, hround])
            (by omega) hends, ?_, ?_, by omega, ?_, harr.trans harrived, ?_, ?_, ?_⟩
          · rw [List.flatten_cons, hfs, ← List.take_add]
          · rw [hrest, List.drop_drop]
          · rwa [← Nat.add_assoc, ← List.drop_drop]
          · rw [hhand, hhanded, List.append_assoc]
            rfl
          · rw [hflen, Nat.add_sub_cancel]
            exact hdel
          · rw [hflen, ← harrived]
            exact hall

/-- **A call of `unpack`** that comes to a length that is too large does not lower `unpack_size` by
the exact sum. -/
theorem not_endsLowering {fuel pkLen : ℕ} (R : Receiving process s own D ps bs)
    (hfuel : bs.length ≤ fuel) (hcut : cutLoop fuel bs = none) (t : Receiver σ) :
    ¬ EndsLowering process pkLen s t := by
  induction fuel generalizing s D ps bs pkLen with
  | zero => cases hcut
  | succ fuel ih =>
    have hsize := R.size
    have hlenSize : lenSize = 4 := rfl
    rw [cutLoop] at hcut
    by_cases hsmall : bs.length % 0x100000000 ≤ lenSize
    · rw [if_pos hsmall] at hcut
      cases hcut
    rw [if_neg hsmall] at hcut
    obtain ⟨len, hlen⟩ : ∃ len, len = ofBytes (bs.take lenSize) := ⟨_, rfl⟩
    simp only [← hlen] at hcut
    intro hends
    rcases unpackRound_spec hp R pkLen (by omega) hlen rfl with
      ⟨hfew, hround⟩ | ⟨henough, s', x, hround, R', -, -, -, hsize'⟩
    · -- the sum is larger than the number of bytes: it has not wrapped
      have hlt : add32 len lenSize ≤ len + lenSize := Nat.mod_le _ _
      have hwrap : ¬ 0x100000000 ≤ len + lenSize := by
        intro hge
        have hlen' : len < 0x100000000 := by
          have := ofBytes_lt (bs.take lenSize)
          rw [← hlen, List.length_take] at this
          have hmin : min lenSize bs.length ≤ 4 := by omega
          exact this.trans_le (Nat.pow_le_pow_right (by decide) hmin)
        rw [add32] at hfew
        omega
      rw [if_neg hwrap, if_pos (by rw [add32_of_lt (by omega)] at hfew; omega)] at hcut
      cases hcut
    · cases hends with
      | stop hstep =>
        rw [unpackStep_eq R.raw, hround] at hstep
        cases hstep
      | @round _ len' _ s'' _ hstep hlower hrest =>
        rw [unpackStep_eq R.raw, hround] at hstep
        obtain ⟨rfl, rfl⟩ := Prod.mk.inj (Option.some.inj (Except.ok.inj hstep))
        have htotal : add32 len lenSize = len + lenSize := by omega
        have hlt : len + lenSize < 0x100000000 := by
          rw [← htotal]
          exact Nat.mod_lt _ (by decide)
        rw [if_neg (by omega), if_neg (by omega)] at hcut
        have hcut' := Option.map_eq_none_iff.mp hcut
        have hmod := Nat.mod_le bs.length 0x100000000
        rw [htotal] at R'
        exact ih R' (by rw [List.length_drop]; omega) hcut' hrest

end Unpack

/-! ## Reads -/

/-- The round of `RecvFinish` for a read of the bytes `bs`, with a call of `unpack` that ends and
lowers `unpack_size` as it should. -/
def ReadEnds (process : Callback σ RPacket) (s : Receiver σ) (bs : List UInt8) (s' : Receiver σ) :
    Prop :=
  ∃ s₁ t, arrive s bs = .ok s₁ ∧ EndsLowering process 0 s₁ t ∧ offer t = .ok s'

/-- In a series of reads every call of `unpack` ends and lowers `unpack_size` as it should. -/
def RunEnds (process : Callback σ RPacket) : Receiver σ → List (List UInt8) → Prop
  | _, [] => True
  | s, bs :: reads => ∃ s', ReadEnds process s bs s' ∧ RunEnds process s' reads

/-- No length that is too large is come to in a series of reads, of which the first finds the bytes
`pending` before its own. -/
def Avoids : List UInt8 → List (List UInt8) → Prop
  | _, [] => True
  | pending, bs :: reads => ∃ x, cut (pending ++ bs) = some x ∧ Avoids x.2 reads

theorem ReadEnds.round (h : ReadEnds process s bs s') : recvRound process s bs = .ok s' := by
  obtain ⟨s₁, t, harrive, hends, hoffer⟩ := h
  rw [recvRound, harrive, Exec.ok_bind, hends.unpack_eq, Exec.ok_bind, hoffer]

theorem Delivered.mono {arrived qs : List (ℕ × ℕ)} {len : ℕ} {f : List UInt8} {x : Heap × RPacket}
    (hd : Delivered arrived D len f x) : Delivered (arrived ++ qs) D len f x := by
  obtain ⟨⟨a, hx, hplace, hrest⟩, hsound⟩ := hd
  refine ⟨⟨a, hx, ?_, hrest⟩, hsound⟩
  rw [List.getElem?_append_left (List.getElem?_eq_some_iff.mp hplace).1, hplace]

theorem DeliveredAll.mono {arrived qs : List (ℕ × ℕ)} {fs : List (List UInt8)}
    {xs : List (Heap × RPacket)} (hd : DeliveredAll arrived D fs xs) :
    DeliveredAll (arrived ++ qs) D fs xs := by
  induction fs generalizing D xs with
  | nil =>
    cases xs with
    | nil => trivial
    | cons x xs => exact hd
  | cons f fs ih =>
    cases xs with
    | nil => exact hd
    | cons x xs => exact ⟨hd.1.mono, ih hd.2⟩

theorem DeliveredAll.append {arrived : List (ℕ × ℕ)} {fs gs : List (List UInt8)}
    {xs ys : List (Heap × RPacket)} (hd : DeliveredAll arrived D fs xs)
    (hd' : DeliveredAll arrived (D + fs.flatten.length) gs ys) :
    DeliveredAll arrived D (fs ++ gs) (xs ++ ys) := by
  induction fs generalizing D xs with
  | nil =>
    cases xs with
    | nil => exact hd'
    | cons x xs => exact hd.elim
  | cons f fs ih =>
    cases xs with
    | nil => exact hd.elim
    | cons x xs =>
      refine ⟨hd.1, ih hd.2 ?_⟩
      rwa [List.flatten_cons, List.length_append, ← Nat.add_assoc] at hd'

/-- The packets of a series, one by one. -/
theorem DeliveredAll.get {arrived : List (ℕ × ℕ)} {fs : List (List UInt8)}
    {xs : List (Heap × RPacket)} (hd : DeliveredAll arrived D fs xs) :
    xs.length = fs.length ∧ ∀ (i : ℕ) f x, fs[i]? = some f → xs[i]? = some x →
      Delivered arrived (D + (fs.take i).flatten.length) (f.length - lenSize) f x := by
  induction fs generalizing D xs with
  | nil =>
    cases xs with
    | nil => exact ⟨rfl, fun i f x hf => by simp at hf⟩
    | cons x xs => exact hd.elim
  | cons f fs ih =>
    cases xs with
    | nil => exact hd.elim
    | cons x xs =>
      obtain ⟨hlen, hget⟩ := ih hd.2
      refine ⟨by rw [List.length_cons, List.length_cons, hlen], fun i g y hg hy => ?_⟩
      cases i with
      | zero =>
        obtain rfl : f = g := Option.some.inj hg
        obtain rfl : x = y := Option.some.inj hy
        exact hd.1
      | succ i =>
        have := hget i g y hg hy
        rwa [Nat.add_assoc, ← List.length_append, ← List.flatten_cons, ← List.take_succ_cons] at this

section Reads

variable (hp : process.Respects RPacket.owned)

include hp

/-- **A read** whose bytes do not lead to a length that is too large. -/
theorem read_cut (R : Receiving process s own D ps bs) (hready : Ready s) {xs : List UInt8}
    (hxs : xs.length ≤ bufferSize) {fs : List (List UInt8)} {rest : List UInt8}
    (hcut : cut (bs ++ xs) = some (fs, rest)) :
    ∃ s' ys qs ps', ReadEnds process s xs s' ∧
      Receiving process s' own (D + fs.flatten.length) ps' rest ∧ Ready s' ∧
      bs ++ xs = fs.flatten ++ rest ∧ s'.handed = s.handed ++ ys ∧ s'.arrived = s.arrived ++ qs ∧
      DeliveredAll s'.arrived D fs ys := by
  obtain ⟨s₁, qs, harrive, R₁, hhand₁, harr₁⟩ := arrive_spec R hready hxs
  obtain ⟨t, k, ys, hends, hfs, hrest, hk, R₂, harr₂, hhand₂, hall⟩ :=
    unpack_cut hp 0 R₁ le_rfl hcut
  obtain ⟨s', hoffer, R', hready', hhand', harr'⟩ := offer_spec R₂
  have hlen : fs.flatten.length = k := by
    rw [hfs, List.length_take]
    omega
  have harr : s'.arrived = s₁.arrived := harr'.trans harr₂
  refine ⟨s', ys, qs, _, ⟨s₁, t, harrive, hends, hoffer⟩, hlen ▸ R', hready', ?_, ?_, harr.trans harr₁,
    harr ▸ hall⟩
  · rw [hfs, hrest, List.take_append_drop]
  · rw [hhand', hhand₂, hhand₁]

/-- **A series of reads** from any state of a receiving connection. -/
theorem runEnds_iff (R : Receiving process s own D ps bs) (hready : Ready s)
    (reads : List (List UInt8)) (hreads : ∀ xs ∈ reads, xs.length ≤ bufferSize) :
    RunEnds process s reads ↔ Avoids bs reads := by
  induction reads generalizing s D ps bs with
  | nil => exact Iff.rfl
  | cons xs reads ih =>
    have hxs := hreads xs List.mem_cons_self
    have hrest := fun ys hys => hreads ys (List.mem_cons_of_mem _ hys)
    constructor
    · rintro ⟨s', hread, hrun⟩
      cases hcut : cut (bs ++ xs) with
      | none =>
        obtain ⟨s₁, qs, harrive, R₁, -⟩ := arrive_spec R hready hxs
        obtain ⟨s₁', t, harrive', hends, -⟩ := hread
        obtain rfl := Except.ok.inj (harrive'.symm.trans harrive)
        exact absurd hends (not_endsLowering hp R₁ le_rfl hcut t)
      | some x =>
        obtain ⟨s'', ys, qs, ps', hread', R', hready', -⟩ := read_cut hp R hready hxs hcut
        obtain rfl := Except.ok.inj (hread.round.symm.trans hread'.round)
        exact ⟨x, hcut, (ih R' hready' hrest).mp hrun⟩
    · rintro ⟨x, hcut, havoid⟩
      obtain ⟨s', ys, qs, ps', hread, R', hready', -⟩ := read_cut hp R hready hxs hcut
      exact ⟨s', hread, (ih R' hready' hrest).mpr havoid⟩

end Reads

/-! ## Streams without lengths that are too large -/

/-- **`unpack` ends.** On a connection that is not raw, for every stream of bytes and every way to
cut it into reads, every call of `unpack` ends and lowers `unpack_size` by the bytes of each packet
exactly if no length that is too large is come to. -/
theorem runEnds_iff_avoids (hp : process.Respects RPacket.owned) {h h' : Heap} {c : Connection}
    {app : σ} (S : Sound h (process.owned app + own))
    (hstart : connectionStartRecv h (connectionCreate false) = .ok (h', c))
    (reads : List (List UInt8)) (hreads : ∀ xs ∈ reads, xs.length ≤ bufferSize) :
    RunEnds process ⟨h', c, app, [], []⟩ reads ↔ Avoids [] reads := by
  obtain ⟨h₁, c₁, hstart₁, R, hready⟩ :=
    connectionStartRecv_spec (c := connectionCreate false) S rfl rfl
  obtain ⟨rfl, rfl⟩ := Prod.mk.inj (Except.ok.inj (hstart₁.symm.trans hstart))
  exact runEnds_iff hp R hready reads hreads

/-- The application that destroys every packet at once. -/
def discard : Callback Unit RPacket where
  call _ h r := do return ((), ← rpacketDestroy h r)
  owned _ := 0

theorem discard_respects : discard.Respects RPacket.owned := by
  intro app h r own S
  obtain ⟨h', hdestroy, S', K⟩ := rpacketDestroy_spec S
  refine ⟨(), h', ?_, S', fun a ha => ?_⟩
  · change (rpacketDestroy h r >>= fun x => .ok ((), x)) = _
    rw [hdestroy, Exec.ok_bind]
  · exact K.from S'.toExact (S'.live (Multiset.mem_add.mpr (.inr ha)))

theorem start_discard : ∃ h c,
    connectionStartRecv RefHeap.empty (connectionCreate false) = .ok (h, c) ∧
      Receiving discard ⟨h, c, (), [], []⟩ 0 0 [] [] ∧ Ready (⟨h, c, (), [], []⟩ : Receiver Unit) :=
  connectionStartRecv_spec (c := connectionCreate false)
    (show Sound RefHeap.empty (discard.owned () + 0) from sound_empty) rfl rfl

/-- A packet of one byte, and the start of the next one. -/
theorem runEnds_one_packet : ∃ h c,
    connectionStartRecv RefHeap.empty (connectionCreate false) = .ok (h, c) ∧
      RunEnds discard ⟨h, c, (), [], []⟩ [[1, 0, 0], [0, 7, 2]] := by
  obtain ⟨h, c, hstart, -⟩ := start_discard
  have hsound : Sound RefHeap.empty (discard.owned () + 0) := sound_empty
  refine ⟨h, c, hstart, (runEnds_iff_avoids discard_respects hsound hstart _ ?_).mpr ?_⟩
  · decide
  · exact ⟨([], [1, 0, 0]), by decide, ([[1, 0, 0, 0, 7]], [2]), by decide, trivial⟩

/-- The length `2 ^ 32 - 4`: its sum with the four bytes of the length field is `0`. -/
theorem not_runEnds_length_wraps : ∃ h c,
    connectionStartRecv RefHeap.empty (connectionCreate false) = .ok (h, c) ∧
      ¬ RunEnds discard ⟨h, c, (), [], []⟩ [[252, 255, 255, 255, 0]] := by
  obtain ⟨h, c, hstart, R, hready⟩ := start_discard
  refine ⟨h, c, hstart, fun hrun => ?_⟩
  obtain ⟨x, hcut, -⟩ := (runEnds_iff discard_respects R hready _ (by decide)).mp hrun
  rw [List.nil_append, show cut [252, 255, 255, 255, 0] = none by decide] at hcut
  cases hcut

/-! ## Streams of frames -/

/-- The frame of a payload: its length in four bytes, and the payload. -/
def encode (p : List UInt8) : List UInt8 := toBytes lenSize p.length ++ p

@[simp] theorem length_encode (p : List UInt8) : (encode p).length = lenSize + p.length := by
  rw [encode, List.length_append, length_toBytes]

/-- The loop finds no whole frame at the start of the bytes. -/
def Waits (frames : List (List UInt8)) (bs : List UInt8) : Prop :=
  ∀ p, frames[0]? = some p →
    bs.length % 0x100000000 ≤ lenSize ∨ bs.length % 0x100000000 < lenSize + p.length

/-- **Frames are cut off one by one** from the bytes of a stream of frames. -/
theorem cutLoop_frames {fuel : ℕ} {frames : List (List UInt8)}
    (hframes : ∀ p ∈ frames, lenSize + p.length < 0x100000000)
    (hbs : bs <+: frames.flatMap encode) (hfuel : bs.length ≤ fuel) :
    ∃ k rest, cutLoop fuel bs = some ((frames.take k).map encode, rest) ∧ k ≤ frames.length ∧
      bs = (frames.take k).flatMap encode ++ rest ∧ rest <+: (frames.drop k).flatMap encode ∧
      Waits (frames.drop k) rest := by
  induction fuel generalizing bs frames with
  | zero =>
    obtain rfl : bs = [] := List.eq_nil_of_length_eq_zero (by omega)
    refine ⟨0, [], by simp [cutLoop], by simp, by simp, List.nil_prefix, fun p _ => .inl ?_⟩
    simp
  | succ fuel ih =>
    have hlenSize : lenSize = 4 := rfl
    rw [cutLoop]
    by_cases hsmall : bs.length % 0x100000000 ≤ lenSize
    · refine ⟨0, bs, by rw [if_pos hsmall]; rfl, by simp, by simp, hbs, fun p _ => .inl hsmall⟩
    rw [if_neg hsmall]
    have hmod := Nat.mod_le bs.length 0x100000000
    cases frames with
    | nil =>
      have := hbs.length_le
      simp only [List.flatMap_nil, List.length_nil] at this
      omega
    | cons p frames =>
      have hp := hframes p List.mem_cons_self
      obtain ⟨more, hmore⟩ := hbs
      rw [List.flatMap_cons] at hmore
      have hlen : ofBytes (bs.take lenSize) = p.length := by
        have htake : bs.take lenSize = (bs ++ more).take lenSize :=
          (List.take_append_of_le_length (by omega)).symm
        rw [htake, hmore, encode, List.append_assoc,
          List.take_append_of_le_length (by rw [length_toBytes]), List.take_of_length_le
          (by rw [length_toBytes])]
        exact ofBytes_toBytes (by rw [hlenSize]; omega)
      simp only [hlen]
      rw [if_neg (by omega)]
      by_cases hfew : bs.length % 0x100000000 < p.length + lenSize
      · rw [if_pos hfew]
        refine ⟨0, bs, rfl, by simp, by simp, ?_, fun q hq => .inr ?_⟩
        · exact ⟨more, by rw [hmore]; rfl⟩
        · obtain rfl : p = q := Option.some.inj hq
          omega
      · rw [if_neg hfew]
        have htotal : (encode p).length = p.length + lenSize := by
          rw [length_encode, Nat.add_comm]
        have htake : bs.take (p.length + lenSize) = encode p := by
          have hsame : (bs ++ more).take (p.length + lenSize) = bs.take (p.length + lenSize) :=
            List.take_append_of_le_length (by omega)
          rw [← hsame, hmore, ← htotal, List.take_left]
        have hdrop : bs.drop (p.length + lenSize) ++ more = frames.flatMap encode := by
          rw [← List.drop_append_of_le_length (by omega), hmore, ← htotal, List.drop_left]
        obtain ⟨k, rest, hcut, hk, hsplit, hrest, hwaits⟩ := ih
          (fun q hq => hframes q (List.mem_cons_of_mem _ hq)) ⟨more, hdrop⟩
          (by rw [List.length_drop]; omega)
        refine ⟨k + 1, rest, ?_, by simpa using hk, ?_, hrest, hwaits⟩
        · rw [hcut, htake]
          rfl
        · rw [List.take_succ_cons, List.flatMap_cons, List.append_assoc, ← hsplit, ← htake,
            List.take_append_drop]

/-- What comes after frames that have been cut off is a stream of the other frames. -/
theorem stream_rest {frames : List (List UInt8)} {k : ℕ} {rest more : List UInt8}
    (hsplit : bs = (frames.take k).flatMap encode ++ rest)
    (hstream : bs ++ more <+: frames.flatMap encode) :
    rest ++ more <+: (frames.drop k).flatMap encode := by
  rw [hsplit, List.append_assoc] at hstream
  nth_rewrite 2 [← List.take_append_drop k frames] at hstream
  rwa [List.flatMap_append, List.prefix_append_right_inj] at hstream

/-- A series of calls of `RecvFinish`, of which each makes some reads. -/
def receive (process : Callback σ RPacket) (s : Receiver σ) (calls : List (List (List UInt8))) :
    Exec (Receiver σ) := calls.foldlM (recvFinish process .again) s

theorem recvFinish_append (s : Receiver σ) (xs ys : List (List UInt8)) :
    recvFinish process .again s (xs ++ ys) =
      (recvFinish process .again s xs >>= fun t => recvFinish process .again t ys) := by
  induction xs generalizing s with
  | nil => rfl
  | cons x xs ih =>
    rw [List.cons_append, recvFinish, recvFinish]
    cases recvRound process s x with
    | error e => rfl
    | ok t => exact ih t

/-- How reads are divided among calls of `RecvFinish` makes no difference. -/
theorem receive_eq (s : Receiver σ) (calls : List (List (List UInt8))) :
    receive process s calls = recvFinish process .again s calls.flatten := by
  induction calls generalizing s with
  | nil => rfl
  | cons reads calls ih =>
    rw [List.flatten_cons, recvFinish_append, receive, List.foldlM_cons]
    cases recvFinish process .again s reads with
    | error e => rfl
    | ok t => exact ih t

section Frames

variable {frames : List (List UInt8)} (hp : process.Respects RPacket.owned)

include hp

/-- **A read** of a stream of frames. -/
theorem read_frames (R : Receiving process s own D ps bs) (hready : Ready s) {xs : List UInt8}
    (hxs : xs.length ≤ bufferSize) (hframes : ∀ p ∈ frames, lenSize + p.length < 0x100000000)
    (hstream : bs ++ xs <+: frames.flatMap encode) :
    ∃ s' k ys qs ps' rest, recvRound process s xs = .ok s' ∧ k ≤ frames.length ∧
      Receiving process s' own (D + ((frames.take k).flatMap encode).length) ps' rest ∧ Ready s' ∧
      bs ++ xs = (frames.take k).flatMap encode ++ rest ∧ Waits (frames.drop k) rest ∧
      s'.handed = s.handed ++ ys ∧ s'.arrived = s.arrived ++ qs ∧
      DeliveredAll s'.arrived D ((frames.take k).map encode) ys := by
  obtain ⟨k, rest, hcut, hk, hsplit, -, hwaits⟩ := cutLoop_frames hframes hstream le_rfl
  obtain ⟨s', ys, qs, ps', hread, R', hready', -, hhand, harr, hall⟩ := read_cut hp R hready hxs hcut
  rw [← List.flatMap_def] at R'
  exact ⟨s', k, ys, qs, ps', rest, hread.round, hk, R', hready', hsplit, hwaits, hhand, harr, hall⟩

/-- **A series of reads** of a stream of frames hands over the frames that have been cut off. -/
theorem recvFinish_frames (R : Receiving process s own D ps bs) (hready : Ready s)
    (hframes : ∀ p ∈ frames, lenSize + p.length < 0x100000000) (reads : List (List UInt8))
    (hreads : ∀ xs ∈ reads, xs.length ≤ bufferSize)
    (hstream : bs ++ reads.flatten <+: frames.flatMap encode) :
    ∃ s' k ys qs rest, recvFinish process .again s reads = .ok s' ∧ k ≤ frames.length ∧
      bs ++ reads.flatten = (frames.take k).flatMap encode ++ rest ∧
      s'.handed = s.handed ++ ys ∧ s'.arrived = s.arrived ++ qs ∧
      DeliveredAll s'.arrived D ((frames.take k).map encode) ys ∧
      ((∀ p ∈ frames, 1 ≤ p.length ∧ p.length + lenSize + bufferSize < 0x100000000) →
        (∀ p, frames[0]? = some p → bs.length < lenSize + p.length) →
          ∀ p, (frames.drop k)[0]? = some p → rest.length < lenSize + p.length) ∧
      Ready s' ∧ ∃ qs',
        Receiving process s' own (D + ((frames.take k).flatMap encode).length) qs' rest := by
  induction reads generalizing s D ps bs frames with
  | nil =>
    rw [List.flatten_nil, List.append_nil] at hstream ⊢
    exact ⟨s, 0, [], [], bs, rfl, by simp, by simp, by simp, by simp, trivial, fun _ h => h, hready,
      ps, R⟩
  | cons xs reads ih =>
    have hxs := hreads xs List.mem_cons_self
    rw [List.flatten_cons, ← List.append_assoc] at hstream ⊢
    have hfirst : bs ++ xs <+: frames.flatMap encode := (List.prefix_append _ _).trans hstream
    obtain ⟨s₁, k₁, ys₁, qs₁, ps₁, rest₁, hround, hk₁, R₁, hready₁, hsplit₁, hwaits₁, hhand₁, harr₁,
      hall₁⟩ := read_frames hp R hready hxs hframes hfirst
    have hframes₁ : ∀ p ∈ frames.drop k₁, lenSize + p.length < 0x100000000 :=
      fun p hp => hframes p (List.mem_of_mem_drop hp)
    have hstream₁ := stream_rest hsplit₁ hstream
    obtain ⟨s', k₂, ys₂, qs₂, rest, hrun, hk₂, hsplit₂, hhand₂, harr₂, hall₂, hshort₂, hready', qs',
      R'⟩ := ih R₁ hready₁ hframes₁ (fun ys hys => hreads ys (List.mem_cons_of_mem _ hys)) hstream₁
    rw [List.length_drop] at hk₂
    have htake : frames.take (k₁ + k₂) = frames.take k₁ ++ (frames.drop k₁).take k₂ := List.take_add
    refine ⟨s', k₁ + k₂, ys₁ ++ ys₂, qs₁ ++ qs₂, rest, ?_, by omega, ?_, ?_, ?_, ?_, ?_, hready', qs',
      ?_⟩
    · rw [recvFinish, hround, Exec.ok_bind, hrun]
    · rw [hsplit₁, List.append_assoc, hsplit₂, htake, List.flatMap_append, List.append_assoc]
    · rw [hhand₂, hhand₁, List.append_assoc]
    · rw [harr₂, harr₁, List.append_assoc]
    · rw [htake, List.map_append]
      rw [harr₂] at hall₂ ⊢
      exact hall₁.mono.append (by rwa [← List.flatMap_def])
    · intro hbounds hshort
      rw [← List.drop_drop]
      refine hshort₂ (fun p hp => hbounds p (List.mem_of_mem_drop hp)) fun p hp => ?_
      have hlenSize : lenSize = 4 := rfl
      have hbs : bufferSize = 65536 := rfl
      have hmem := hbounds p (List.mem_of_mem_drop (List.mem_of_getElem? hp))
      -- fewer bytes than a frame were pending, and fewer than `2 ^ 32` are now
      have hlt : rest₁.length < 0x100000000 := by
        have hlen := congrArg List.length hsplit₁
        rw [List.length_append, List.length_append] at hlen
        cases frames with
        | nil => simp at hp
        | cons q frames =>
          have := hshort q rfl
          have := hbounds q List.mem_cons_self
          omega
      rcases hwaits₁ p hp with h | h <;> rw [Nat.mod_eq_of_lt hlt] at h <;> omega
    · rwa [htake, List.flatMap_append, List.length_append, ← Nat.add_assoc]

end Frames

/-- The frames wholly contained in the first `n` bytes of a stream of frames. -/
def wholeFrames : List (List UInt8) → ℕ → List (List UInt8)
  | [], _ => []
  | p :: frames, n =>
    if lenSize + p.length ≤ n then p :: wholeFrames frames (n - (lenSize + p.length)) else []

theorem wholeFrames_eq_take {frames : List (List UInt8)} {k r : ℕ} (hk : k ≤ frames.length)
    (hr : ∀ p, (frames.drop k)[0]? = some p → r < lenSize + p.length) :
    wholeFrames frames (((frames.take k).flatMap encode).length + r) = frames.take k := by
  induction k generalizing frames with
  | zero =>
    cases frames with
    | nil => rfl
    | cons p frames =>
      have := hr p rfl
      rw [wholeFrames, if_neg (by simpa using this)]
      rfl
  | succ k ih =>
    cases frames with
    | nil => simp at hk
    | cons p frames =>
      have hlen : (((p :: frames).take (k + 1)).flatMap encode).length + r =
          lenSize + p.length + (((frames.take k).flatMap encode).length + r) := by
        rw [List.take_succ_cons, List.flatMap_cons, List.length_append, length_encode, Nat.add_assoc]
      rw [hlen, wholeFrames, if_pos (Nat.le_add_right _ _), Nat.add_sub_cancel_left,
        ih (by simpa using hk) hr, List.take_succ_cons]

/-- The packets handed over are the frames of these payloads, in order: each has the length of its
payload and starts at the place of the first byte of its frame. -/
structure HandedFrames (s : Receiver σ) (payloads : List (List UInt8)) : Prop where
  count : s.handed.length = payloads.length
  packet : ∀ (i : ℕ) p x, payloads[i]? = some p → s.handed[i]? = some x →
    x.2.len = p.length ∧ ∃ a, x.2.buf = some a ∧
      s.arrived[((payloads.take i).flatMap encode).length]? = some (a, x.2.beginPos)

theorem DeliveredAll.handedFrames {payloads : List (List UInt8)}
    (hall : DeliveredAll s.arrived 0 (payloads.map encode) s.handed) : HandedFrames s payloads := by
  obtain ⟨hcount, hget⟩ := hall.get
  refine ⟨by rw [hcount, List.length_map], fun i p x hpi hxi => ?_⟩
  obtain ⟨⟨a, hx, hplace, -⟩, -⟩ := hget i (encode p) x (by rw [List.getElem?_map, hpi]; rfl) hxi
  have hoffset : ((payloads.map encode).take i).flatten = (payloads.take i).flatMap encode := by
    rw [← List.map_take, List.flatMap_def]
  rw [Nat.zero_add, hoffset] at hplace hx
  refine ⟨?_, a, by rw [hx], by rw [hplace, hx]⟩
  rw [hx, length_encode, Nat.add_sub_cancel_left]

section Frames

variable {frames : List (List UInt8)} {calls : List (List (List UInt8))} {h h' : Heap}
  {c : Connection} {app : σ} (hp : process.Respects RPacket.owned)
  (S : Sound h (process.owned app + own))
  (hstart : connectionStartRecv h (connectionCreate false) = .ok (h', c))
  (hreads : ∀ reads ∈ calls, ∀ bs ∈ reads, bs.length ≤ bufferSize)
  (hstream : calls.flatten.flatten <+: frames.flatMap encode)

include hp S hstart hreads hstream

/-- **A stream of frames** after `connection_start_recv`. -/
theorem receive_frames (hframes : ∀ p ∈ frames, lenSize + p.length < 0x100000000) :
    ∃ s' k, receive process ⟨h', c, app, [], []⟩ calls = .ok s' ∧ k ≤ frames.length ∧
      DeliveredAll s'.arrived 0 ((frames.take k).map encode) s'.handed ∧
      ((∀ p ∈ frames, 1 ≤ p.length ∧ p.length + lenSize + bufferSize < 0x100000000) →
        wholeFrames frames calls.flatten.flatten.length = frames.take k) := by
  obtain ⟨h₁, c₁, hstart₁, R, hready⟩ :=
    connectionStartRecv_spec (c := connectionCreate false) S rfl rfl
  obtain ⟨rfl, rfl⟩ := Prod.mk.inj (Except.ok.inj (hstart₁.symm.trans hstart))
  obtain ⟨s', k, ys, qs, rest, hrun, hk, hsplit, hhand, -, hall, hshort, -⟩ :=
    recvFinish_frames hp R hready hframes calls.flatten (fun bs hbs => by
      obtain ⟨reads, hmem, hin⟩ := List.mem_flatten.mp hbs
      exact hreads reads hmem bs hin) hstream
  obtain rfl : s'.handed = ys := hhand
  refine ⟨s', k, by rw [receive_eq, hrun], hk, hall, fun hbounds => ?_⟩
  have hwhole := hshort hbounds fun p hp => by
    rw [List.length_nil, show lenSize = 4 from rfl]
    omega
  rw [List.nil_append] at hsplit
  rw [hsplit, List.length_append]
  exact wholeFrames_eq_take hk hwhole

/-- **Framing does not depend on chunking.** After every series of reads the packets handed over are
the frames wholly contained in the bytes received, in order and each exactly once. -/
theorem handed_frames
    (hframes : ∀ p ∈ frames, 1 ≤ p.length ∧ p.length + lenSize + bufferSize < 0x100000000) :
    ∃ s', receive process ⟨h', c, app, [], []⟩ calls = .ok s' ∧
      HandedFrames s' (wholeFrames frames calls.flatten.flatten.length) := by
  obtain ⟨s', k, hrun, -, hall, hwhole⟩ := receive_frames hp S hstart hreads hstream
    fun p hp => by have := hframes p hp; omega
  rw [hwhole hframes]
  exact ⟨s', hrun, hall.handedFrames⟩

end Frames

/-- Two frames, of which the second is not complete yet, in three reads and two calls. -/
theorem handed_one_of_two : ∃ h c s',
    connectionStartRecv RefHeap.empty (connectionCreate false) = .ok (h, c) ∧
      receive discard ⟨h, c, (), [], []⟩ [[[1, 0, 0], [0, 7, 2]], [[0, 0, 0]]] = .ok s' ∧
      HandedFrames s' [[7]] := by
  obtain ⟨h, c, hstart, -⟩ := start_discard
  have hsound : Sound RefHeap.empty (discard.owned () + 0) := sound_empty
  have hstream : ([[[1, 0, 0], [0, 7, 2]], [[0, 0, 0]]] : List (List (List UInt8))).flatten.flatten <+:
      [[7], [8, 9]].flatMap encode := by decide
  obtain ⟨s', hrun, hframes⟩ := handed_frames discard_respects hsound hstart (by decide) hstream
    (by decide)
  exact ⟨h, c, s', hstart, hrun, hframes⟩

/-! ## Reading a packet that has been received -/

/-- The four fixed widths of integers. -/
inductive Width
  | w8 | w16 | w32 | w64
  deriving DecidableEq

/-- The number of bytes of an integer. -/
def Width.size : Width → ℕ
  | w8 => 1
  | w16 => 2
  | w32 => 4
  | w64 => 8

/-- The read of an integer. -/
def Width.read : Width → Heap → RPacket → Exec (Heap × RPacket × ℕ)
  | w8 => rpacketReadUint8
  | w16 => rpacketReadUint16
  | w32 => rpacketReadUint32
  | w64 => rpacketReadUint64

theorem Width.read_eq (w : Width) : w.read = rpacketReadUint w.size := by
  cases w <;> rfl

theorem Width.size_pos (w : Width) : 0 < w.size := by
  cases w <;> decide

/-- A sequence of reads, and the values they return. -/
def readUints : Heap → RPacket → List Width → Exec (List ℕ)
  | _, _, [] => .ok []
  | h, r, w :: ws => do
    let (h, r, v) ← w.read h r
    return v :: (← readUints h r ws)

/-- The bytes of a payload in order, as integers of these widths. -/
def payloadValues : List Width → List UInt8 → List ℕ
  | [], _ => []
  | w :: ws, p => ofBytes (p.take w.size) :: payloadValues ws (p.drop w.size)

/-- The number of bytes that reads of these widths take. -/
def widthsSum (ws : List Width) : ℕ := (ws.map Width.size).sum

theorem readUints_spec {h : Heap} {r : RPacket} {ps : List (ℕ × ℕ)} {ws : List Width}
    (S : Sound h (refs r.readbuf + own)) (U : UnreadAt h r ps bs) (hsum : widthsSum ws ≤ bs.length) :
    readUints h r ws = .ok (payloadValues ws bs) := by
  induction ws generalizing h r ps bs with
  | nil => rfl
  | cons w ws ih =>
    rw [widthsSum, List.map_cons, List.sum_cons, ← widthsSum] at hsum
    obtain ⟨h₁, r₁, hread, S₁, U₁, -⟩ := rpacketReadUint_spec S U (m := w.size) (by omega)
    have hrest := ih S₁ U₁ (by rw [List.length_drop]; omega)
    rw [readUints, w.read_eq, hread, Exec.ok_bind]
    simp only [hrest, Exec.ok_bind]
    rfl

/-- A read of a packet whose cursor is beyond the end of its buffer. -/
theorem rpacketReadUint_beyond {h : Heap} {r : RPacket} {a w : ℕ} {d : Cell Block}
    (hbuf : r.readbuf = some a) (hd : h.cell a = some d) (hwf : d.body.WF)
    (hlt : d.body.capacity < r.rpos) (hpos : r.rpos + w < 0x100000000) (hw : 0 < w)
    (hremain : w ≤ r.dataRemain) : rpacketReadUint w h r = .error .outOfBounds := by
  have hsize := hwf.size_le
  have hlen := hwf.length
  have hround : copyRound h r w = .error .outOfBounds := by
    have hmin : min (sub32 d.body.size r.rpos) w = w := by
      rw [sub32]
      omega
    have hload : d.body.load r.rpos w = .error .outOfBounds := by
      rw [Block.load, if_neg (by omega)]
    rw [copyRound, hbuf]
    simp only [Exec.deref_some, Exec.ok_bind, get_eq hd, hmin, hload, Exec.error_bind]
  rw [rpacketReadUint, rpacketRead, if_neg (by omega), rpacketReadLoop, if_neg (by omega), hround]
  rfl

/-- A memory after the packet was handed over: the chain of the packet has at most grown, and the
packet still holds its references. -/
def Later (x : Heap × RPacket) (h : Heap) : Prop :=
  ∃ own, Sound h (x.2.owned + own) ∧ ∀ a, x.2.buf = some a → GrowsFrom x.1 h a

theorem Delivered.later {arrived : List (ℕ × ℕ)} {len : ℕ} {f : List UInt8} {x : Heap × RPacket}
    (hd : Delivered arrived D len f x) : Later x x.1 := by
  obtain ⟨own, S⟩ := hd.sound
  exact ⟨own, S, fun a _ b c _ hc => ⟨c, hc, .of_eq rfl rfl⟩⟩

/-- **Reading a packet** gives the bytes of its payload exactly if its length field does not cross
the end of a buffer. -/
theorem Delivered.reads_iff {arrived : List (ℕ × ℕ)} {p : List UInt8} {x : Heap × RPacket} {h : Heap}
    (hd : Delivered arrived D p.length (encode p) x) (hlater : Later x h)
    (hp : lenSize + p.length < 0x100000000) {ws : List Width} (hws : widthsSum ws ≤ p.length) :
    readUints h x.2 ws = .ok (payloadValues ws p) ↔
      ws = [] ∨ D % bufferSize + lenSize ≤ bufferSize := by
  obtain ⟨a, hx, -, ⟨e, he, hcap⟩, ps, a', pos', hspan, hbytes⟩ := hd.packet
  obtain ⟨own, S, hgrow⟩ := hlater
  have G : GrowsFrom x.1 h a := hgrow a (by rw [hx])
  obtain ⟨e', he', hgrown⟩ := G a e (.refl a) he
  have hcap' : e'.body.capacity = bufferSize := hgrown.capacity.trans hcap
  have hbs : bufferSize = 65536 := rfl
  have hlenSize : lenSize = 4 := rfl
  have hmod : D % bufferSize < bufferSize := Nat.mod_lt _ (by decide)
  have hrpos : x.2.rpos = D % bufferSize + lenSize := by
    rw [hx]
    exact add32_of_lt (by omega)
  by_cases hfit : D % bufferSize + lenSize ≤ bufferSize
  · refine ⟨fun _ => .inr hfit, fun _ => ?_⟩
    obtain ⟨hspan', hsame⟩ := hspan.grow G S
    have hb := hbytes.congr hsame
    have hlen := hb.length
    rw [length_encode] at hlen
    -- the length field is in the buffer of the packet, so the payload starts after it
    have hroom : lenSize ≤ e'.body.size - D % bufferSize := by
      by_contra hlt
      obtain ⟨-, -, hcase⟩ := hspan'.advance he' (show lenSize ≤ ps.length by omega) rfl
      rcases hcase with hcase | ⟨hnil, -⟩ | ⟨hfull, -⟩
      · omega
      · have := congrArg List.length hnil
        rw [List.length_drop, List.length_nil] at this
        omega
      · omega
    obtain ⟨hcut, hrest, -⟩ := hspan'.advance he' (show lenSize ≤ ps.length by omega)
      (show lenSize = min (e'.body.size - D % bufferSize) lenSize by omega)
    have hpayload : (encode p).drop lenSize = p := by
      rw [encode, List.drop_left' (length_toBytes _ _)]
    have U : UnreadAt h x.2 (ps.drop lenSize) p := by
      refine ⟨by rw [hx], by omega, ⟨a, a', pos', by rw [hx], hrpos ▸ hrest⟩, ?_⟩
      exact hpayload ▸ hb.drop lenSize
    have S' : Sound h (refs x.2.readbuf + (refs x.2.buf + refs x.2.binbuf + own)) := by
      convert S using 1
      rw [RPacket.owned]
      abel
    exact readUints_spec S' U hws
  · refine ⟨fun hread => .inl ?_, fun hnil => ?_⟩
    · cases ws with
      | nil => rfl
      | cons w ws =>
        have hw := w.size_pos
        have hw8 : w.size ≤ 8 := by cases w <;> decide
        rw [widthsSum, List.map_cons, List.sum_cons] at hws
        have hbeyond := rpacketReadUint_beyond (w := w.size) (show x.2.readbuf = some a by rw [hx])
          he' (S.wf a e' he') (by omega) (by omega) hw (by rw [hx]; simp only; omega)
        rw [readUints, w.read_eq, hbeyond] at hread
        cases hread
    · obtain rfl : ws = [] := hnil.resolve_right hfit
      rfl

/-- What reading says about a packet received in a stream of frames: it is the frame of the payload
`p`, and reads on it, then or later, give the payload exactly if there are none or the length field
of the frame is in one buffer. -/
def ReadsPayloadIff (frames : List (List UInt8)) (i : ℕ) (x : Heap × RPacket) (p : List UInt8) :
    Prop :=
  frames[i]? = some p ∧ x.2.len = p.length ∧ Later x x.1 ∧
    ∀ h, Later x h → ∀ ws, widthsSum ws ≤ x.2.len →
      (readUints h x.2 ws = .ok (payloadValues ws p) ↔
        ws = [] ∨ ((frames.take i).flatMap encode).length % bufferSize + lenSize ≤ bufferSize)

theorem DeliveredAll.reads {frames : List (List UInt8)} {k i : ℕ} {arrived : List (ℕ × ℕ)}
    {xs : List (Heap × RPacket)} {x : Heap × RPacket}
    (hframes : ∀ p ∈ frames, lenSize + p.length < 0x100000000)
    (hall : DeliveredAll arrived 0 ((frames.take k).map encode) xs) (hx : xs[i]? = some x) :
    ∃ p, ReadsPayloadIff frames i x p := by
  obtain ⟨hcount, hget⟩ := hall.get
  have hi : i < (frames.take k).length := by
    have := (List.getElem?_eq_some_iff.mp hx).1
    rwa [hcount, List.length_map] at this
  have hp : (frames.take k)[i]? = some (frames.take k)[i] := List.getElem?_eq_getElem hi
  generalize (frames.take k)[i] = p at hp
  have hd := hget i (encode p) x (by rw [List.getElem?_map, hp]; rfl) hx
  have hik : i < k := (List.length_take_le k frames).trans_lt' hi
  have hoffset : (((frames.take k).map encode).take i).flatten = (frames.take i).flatMap encode := by
    rw [← List.map_take, ← List.flatMap_def, List.take_take, Nat.min_eq_left hik.le]
  rw [List.getElem?_take_of_lt hik] at hp
  rw [Nat.zero_add, hoffset, length_encode, Nat.add_sub_cancel_left] at hd
  have hlen : x.2.len = p.length := by
    obtain ⟨a, hxa, -⟩ := hd.packet
    rw [hxa]
  exact ⟨p, hp, hlen, hd.later, fun h hlater ws hws =>
    hd.reads_iff hlater (hframes p (List.mem_of_getElem? hp)) (hlen ▸ hws)⟩

section Frames

variable {frames : List (List UInt8)} {calls : List (List (List UInt8))} {h h' : Heap}
  {c : Connection} {app : σ} (hp : process.Respects RPacket.owned)
  (S : Sound h (process.owned app + own))
  (hstart : connectionStartRecv h (connectionCreate false) = .ok (h', c))
  (hreads : ∀ reads ∈ calls, ∀ bs ∈ reads, bs.length ≤ bufferSize)
  (hstream : calls.flatten.flatten <+: frames.flatMap encode)

include hp S hstart hreads hstream

/-- **A received packet reads back its payload** exactly if the length field of its frame does not
cross the end of a buffer. -/
theorem reads_payload_iff (hframes : ∀ p ∈ frames, lenSize + p.length < 0x100000000) :
    ∃ s', receive process ⟨h', c, app, [], []⟩ calls = .ok s' ∧
      ∀ (i : ℕ) x, s'.handed[i]? = some x → ∃ p, ReadsPayloadIff frames i x p := by
  obtain ⟨s', k, hrun, -, hall, -⟩ := receive_frames hp S hstart hreads hstream hframes
  exact ⟨s', hrun, fun i x hx => hall.reads hframes hx⟩

end Frames

/-- The only packet of a stream of one frame. -/
theorem reads_one_byte : ∃ h c s' x,
    connectionStartRecv RefHeap.empty (connectionCreate false) = .ok (h, c) ∧
      receive discard ⟨h, c, (), [], []⟩ [[[1, 0, 0, 0, 7]]] = .ok s' ∧ s'.handed[0]? = some x ∧
      readUints x.1 x.2 [.w8] = .ok [7] := by
  obtain ⟨h, c, hstart, -⟩ := start_discard
  have hsound : Sound RefHeap.empty (discard.owned () + 0) := sound_empty
  have hstream : ([[[1, 0, 0, 0, 7]]] : List (List (List UInt8))).flatten.flatten <+:
      [[7]].flatMap encode := by decide
  obtain ⟨s', hrun, hread⟩ := reads_payload_iff discard_respects hsound hstart (by decide) hstream
    (by decide)
  obtain ⟨t, k, hrun', -, hall, hwhole⟩ := receive_frames discard_respects hsound hstart (by decide)
    hstream (by decide)
  obtain rfl := Except.ok.inj (hrun'.symm.trans hrun)
  have hone : t.handed.length = 1 := by
    rw [hall.get.1, ← hwhole (by decide)]
    rfl
  obtain ⟨x, hx⟩ : ∃ x, t.handed[0]? = some x :=
    ⟨_, List.getElem?_eq_getElem (show 0 < t.handed.length by omega)⟩
  obtain ⟨p, hp, hlen, hlater, hiff⟩ := hread 0 x hx
  obtain rfl : [7] = p := Option.some.inj hp
  refine ⟨h, c, t, x, hstart, hrun, hx, (hiff x.1 hlater [.w8] ?_).mpr (.inr ?_)⟩
  · rw [hlen]
    decide
  · decide

/-- A frame of 65533 bytes, and a frame whose length field crosses the end of the first buffer. -/
theorem not_reads_crossing_length : ∃ h c s' x,
    connectionStartRecv RefHeap.empty (connectionCreate false) = .ok (h, c) ∧
      receive discard ⟨h, c, (), [], []⟩ [[toBytes 4 65529 ++ List.replicate 65529 0 ++ [1, 0, 0]],
        [[0, 7]]] = .ok s' ∧ s'.handed[1]? = some x ∧ readUints x.1 x.2 [.w8] ≠ .ok [7] := by
  obtain ⟨h, c, hstart, -⟩ := start_discard
  have hsound : Sound RefHeap.empty (discard.owned () + 0) := sound_empty
  obtain ⟨big, hbig⟩ : ∃ big : List UInt8, big = List.replicate 65529 0 := ⟨_, rfl⟩
  have hlen : big.length = 65529 := by rw [hbig, List.length_replicate]
  have hframes : ∀ p ∈ [big, [7]], 1 ≤ p.length ∧ p.length + lenSize + bufferSize < 0x100000000 := by
    have hbs : bufferSize = 65536 := rfl
    have hlenSize : lenSize = 4 := rfl
    intro p hp
    rcases List.mem_pair.mp hp with rfl | rfl
    · omega
    · decide
  have hstream : [[toBytes 4 65529 ++ big ++ [1, 0, 0]], [[0, 7]]].flatten.flatten =
      [big, [7]].flatMap encode := by
    rw [List.flatMap_cons, List.flatMap_cons, encode, hlen, lenSize]
    simp [encode, toBytes, lenSize]
  have hreads : ∀ reads ∈ [[toBytes 4 65529 ++ big ++ [1, 0, 0]], [[0, 7]]], ∀ bs ∈ reads,
      bs.length ≤ bufferSize := by
    simp [hlen, bufferSize]
  have hsmall : ∀ p ∈ [big, [7]], lenSize + p.length < 0x100000000 := fun p hp => by
    have := hframes p hp
    omega
  obtain ⟨s', k, hrun, -, hall, hwhole⟩ := receive_frames discard_respects hsound hstart hreads
    (hstream ▸ List.prefix_rfl) hsmall
  have htwo : s'.handed.length = 2 := by
    rw [hall.get.1, List.length_map, ← hwhole hframes, hstream]
    simp [wholeFrames, hlen, lenSize]
  obtain ⟨x, hx⟩ : ∃ x, s'.handed[1]? = some x :=
    ⟨_, List.getElem?_eq_getElem (show 1 < s'.handed.length by omega)⟩
  obtain ⟨p, hp, hplen, hlater, hiff⟩ := hall.reads hsmall hx
  obtain rfl : [7] = p := Option.some.inj hp
  rw [← hbig]
  refine ⟨h, c, s', x, hstart, hrun, hx, fun hread => ?_⟩
  have := (hiff x.1 hlater [.w8] (by rw [hplen]; decide)).mp hread
  simp [hlen, lenSize, bufferSize] at this

end Kendylib.Connection
