import Kendylib.Net.ReceiveRuns

/-!
# Frames without a payload

A packet that is sent without writes is a frame of four zero bytes. `unpack` cuts a frame off only if
`unpack_size` is more than the four bytes of the length field, so that such a frame is handed over
when a byte that comes after it has been received, and not before.

At a frame boundary everything received has been handed over, and `unpack_size` is 0, exactly if the
last frame has a payload and `unpack_size` has not wrapped (`allDelivered_iff`).
-/

namespace Kendylib.Connection

open RefHeap Buffer RPacket WPacket

variable {σ : Type} {process : Callback σ RPacket} {s s' : Receiver σ} {own : Multiset ℕ} {D : ℕ}
  {ps : List (ℕ × ℕ)} {bs pending : List UInt8} {frames : List (List UInt8)}

/-- Nothing is left to unpack, and the packets handed over are the frames of these payloads. -/
def AllDelivered (s : Receiver σ) (frames : List (List UInt8)) : Prop :=
  s.conn.unpackSize = 0 ∧ HandedFrames s frames

/-! ## What is cut off the bytes of whole frames -/

/-- A round of the cutting leaves the bytes as they are, or cuts one packet off. -/
theorem cutLoop_cases {fuel : ℕ} {fs : List (List UInt8)} {rest : List UInt8}
    (hcut : cutLoop fuel bs = some (fs, rest)) :
    (fs = [] ∧ rest = bs) ∨ ∃ fuel' total gs, fuel = fuel' + 1 ∧ lenSize < bs.length % 0x100000000 ∧
      total ≤ bs.length % 0x100000000 ∧ cutLoop fuel' (bs.drop total) = some (gs, rest) ∧
      fs = bs.take total :: gs := by
  cases fuel with
  | zero =>
    obtain ⟨rfl, rfl⟩ := Prod.mk.inj (Option.some.inj hcut)
    exact .inl ⟨rfl, rfl⟩
  | succ fuel =>
    simp only [cutLoop] at hcut
    split_ifs at hcut with hsmall hlarge hfew
    · obtain ⟨rfl, rfl⟩ := Prod.mk.inj (Option.some.inj hcut)
      exact .inl ⟨rfl, rfl⟩
    · obtain ⟨rfl, rfl⟩ := Prod.mk.inj (Option.some.inj hcut)
      exact .inl ⟨rfl, rfl⟩
    · obtain ⟨⟨gs, rest'⟩, hcut', heq⟩ := Option.map_eq_some_iff.mp hcut
      obtain ⟨rfl, rfl⟩ := Prod.mk.inj heq
      exact .inr ⟨fuel, _, gs, rfl, by omega, by omega, hcut', rfl⟩

/-- What is cut off lies below a multiple of `2 ^ 32`: the bytes above it are not known to `unpack`. -/
theorem cutLoop_div {fuel : ℕ} {fs : List (List UInt8)} {rest : List UInt8}
    (hcut : cutLoop fuel bs = some (fs, rest)) :
    rest.length / 0x100000000 = bs.length / 0x100000000 := by
  induction fuel generalizing bs fs with
  | zero =>
    obtain ⟨-, rfl⟩ := Prod.mk.inj (Option.some.inj hcut)
    rfl
  | succ fuel ih =>
    rcases cutLoop_cases hcut with ⟨-, rfl⟩ | ⟨fuel', total, gs, heq, -, htotal, hcut', -⟩
    · rfl
    · obtain rfl : fuel = fuel' := Nat.succ.inj heq
      rw [ih hcut', List.length_drop]
      omega

/-- The packet behind which no bytes are left has a payload. -/
theorem cutLoop_last {fuel : ℕ} {fs : List (List UInt8)} (hcut : cutLoop fuel bs = some (fs, []))
    {f : List UInt8} (hf : fs.getLast? = some f) : lenSize < f.length := by
  induction fuel generalizing bs fs with
  | zero =>
    obtain ⟨rfl, -⟩ := Prod.mk.inj (Option.some.inj hcut)
    cases hf
  | succ fuel ih =>
    rcases cutLoop_cases hcut with ⟨rfl, -⟩ | ⟨fuel', total, gs, heq, hmore, htotal, hcut', rfl⟩
    · cases hf
    obtain rfl : fuel = fuel' := Nat.succ.inj heq
    cases gs with
    | cons g gs => exact ih hcut' (by rwa [List.getLast?_cons_cons] at hf)
    | nil =>
      obtain rfl := Option.some.inj hf
      -- more than four bytes were left, and the packet is all of them
      rcases cutLoop_cases hcut' with ⟨-, hnil⟩ | ⟨_, _, _, _, _, _, _, hne⟩
      · rw [List.take_of_length_le (List.drop_eq_nil_iff.mp hnil.symm)]
        exact hmore.trans_le (Nat.mod_le bs.length 0x100000000)
      · cases hne

/-- **The bytes of whole frames** are cut up completely exactly if the last frame has a payload and
there are less than `2 ^ 32` of them. -/
theorem cut_frames_iff (hframes : ∀ p ∈ frames, lenSize + p.length < 0x100000000) :
    ∃ k rest, cut (frames.flatMap encode) = some ((frames.take k).map encode, rest) ∧
      k ≤ frames.length ∧ rest = (frames.drop k).flatMap encode ∧
      (k = frames.length ↔
        frames.getLast? ≠ some [] ∧ (frames.flatMap encode).length < 0x100000000) := by
  obtain ⟨k, rest, hcut, hk, hsplit, -, hwaits⟩ :=
    cutLoop_frames hframes (List.prefix_refl (frames.flatMap encode)) le_rfl
  have hrest : rest = (frames.drop k).flatMap encode := by
    nth_rewrite 1 [← List.take_append_drop k frames] at hsplit
    rw [List.flatMap_append, List.append_cancel_left_eq] at hsplit
    exact hsplit.symm
  refine ⟨k, rest, hcut, hk, hrest, ?_, ?_⟩
  · rintro rfl
    rw [List.drop_length] at hrest
    obtain rfl : rest = [] := hrest
    rw [List.take_length] at hcut
    refine ⟨fun hlast => ?_, ?_⟩
    · have := cutLoop_last (f := encode []) hcut (by rw [List.getLast?_map, hlast]; rfl)
      exact absurd this (by decide)
    · have := cutLoop_div hcut
      rw [List.length_nil] at this
      omega
  · rintro ⟨hlast, hsmall⟩
    cases hdrop : frames.drop k with
    | nil => exact le_antisymm hk (List.drop_eq_nil_iff.mp hdrop)
    | cons p more =>
      exfalso
      -- what waits is a frame without a payload, and nothing comes after it
      have hlenSize : lenSize = 4 := rfl
      have hle : rest.length ≤ (frames.flatMap encode).length := by
        rw [hsplit, List.length_append]
        omega
      have hlen : rest.length = lenSize + p.length + (more.flatMap encode).length := by
        rw [hrest, hdrop, List.flatMap_cons, List.length_append, length_encode]
      have hwait := hwaits p (by rw [hdrop]; rfl)
      rw [Nat.mod_eq_of_lt (by omega)] at hwait
      obtain rfl : p = [] := List.eq_nil_of_length_eq_zero (by omega)
      cases more with
      | cons q more =>
        rw [List.flatMap_cons, List.length_append, length_encode] at hlen
        omega
      | nil =>
        apply hlast
        rw [← List.take_append_drop k frames, hdrop, List.getLast?_concat]

/-! ## Frame boundaries -/

/-- **A read that ends at a frame boundary**, after the frames handed over and the bytes `pending`. -/
theorem read_allDelivered_iff (hp : process.Respects RPacket.owned)
    (R : Receiving process s own D ps pending) (hready : Ready s)
    (hall : DeliveredAll s.arrived 0 ((frames.take s.handed.length).map encode) s.handed)
    (hD : D = ((frames.take s.handed.length).flatMap encode).length)
    (hframes : ∀ p ∈ frames, lenSize + p.length < 0x100000000) (hne : bs ≠ [])
    (hbs : bs.length ≤ bufferSize)
    (hstream : pending ++ bs = (frames.drop s.handed.length).flatMap encode) :
    ∃ s', recvRound process s bs = .ok s' ∧
      (AllDelivered s' frames ↔ frames.getLast? ≠ some [] ∧
        ((frames.drop s.handed.length).flatMap encode).length < 0x100000000) := by
  obtain ⟨k₁, hk₁⟩ : ∃ k₁, k₁ = s.handed.length := ⟨_, rfl⟩
  rw [← hk₁] at hall hD hstream ⊢
  have hdrop : frames.drop k₁ ≠ [] := by
    intro hnil
    rw [hnil, List.flatMap_nil, List.append_eq_nil_iff] at hstream
    exact hne hstream.2
  obtain ⟨k, rest, hcut, hk, hrest, hiff⟩ :=
    cut_frames_iff fun p hp => hframes p (List.mem_of_mem_drop hp)
  rw [← hstream] at hcut
  obtain ⟨s', ys, qs, ps', hread, R', hready', -, hhand, harr, hall'⟩ := read_cut hp R hready hbs hcut
  rw [List.length_drop] at hk hiff
  have hlt : k₁ < frames.length := by
    by_contra hge
    exact hdrop (List.drop_eq_nil_iff.mpr (by omega))
  have hall₂ : DeliveredAll s'.arrived 0 ((frames.take (k₁ + k)).map encode) s'.handed := by
    rw [List.take_add, List.map_append, hhand]
    refine DeliveredAll.append ?_ ?_
    · rw [harr]
      exact hall.mono
    · rwa [← List.flatMap_def, Nat.zero_add, ← hD]
  have hlast : (frames.drop k₁).getLast? = frames.getLast? := by
    rw [List.getLast?_drop, if_neg (by omega)]
  rw [hlast] at hiff
  refine ⟨s', hread.round, ?_⟩
  rw [← hiff]
  constructor
  · rintro ⟨-, hhanded⟩
    have hcount := hall₂.get.1
    rw [hhanded.count, List.length_map, List.length_take] at hcount
    omega
  · intro hfull
    rw [hfull, List.drop_eq_nil_iff.mpr (by rw [List.length_drop])] at hrest
    have hsize := R'.size
    rw [hrest] at hsize
    refine ⟨hsize, ?_⟩
    rw [List.take_of_length_le (by omega)] at hall₂
    exact hall₂.handedFrames

section Boundaries

variable {calls : List (List (List UInt8))} {h h' : Heap} {c : Connection} {app : σ}

/-- **Empty packets arrive late.** After every series of reads of which the last ends at a frame
boundary, all frames have been handed over and `unpack_size` is 0 exactly if the last frame has a
payload and the bytes that have not been handed over before the last read's call of `unpack` are
less than `2 ^ 32`. -/
theorem allDelivered_iff (hp : process.Respects RPacket.owned)
    (S : Sound h (process.owned app + own))
    (hstart : connectionStartRecv h (connectionCreate false) = .ok (h', c))
    (hreads : ∀ reads ∈ calls, ∀ bs ∈ reads, bs.length ≤ bufferSize)
    (hframes : ∀ p ∈ frames, lenSize + p.length < 0x100000000)
    (hne : bs ≠ []) (hbs : bs.length ≤ bufferSize)
    (hstream : calls.flatten.flatten ++ bs = frames.flatMap encode) :
    ∃ s₁ s', receive process ⟨h', c, app, [], []⟩ calls = .ok s₁ ∧
      recvRound process s₁ bs = .ok s' ∧
      (AllDelivered s' frames ↔ frames.getLast? ≠ some [] ∧
        ((frames.drop s₁.handed.length).flatMap encode).length < 0x100000000) := by
  obtain ⟨h₁, c₁, hstart₁, R, hready⟩ :=
    connectionStartRecv_spec (c := connectionCreate false) S rfl rfl
  obtain ⟨rfl, rfl⟩ := Prod.mk.inj (Except.ok.inj (hstart₁.symm.trans hstart))
  obtain ⟨s₁, k, ys, qs, rest, hrun, hk, hsplit, hhand, -, hall, -, hready₁, ps₁, R₁⟩ :=
    recvFinish_frames hp R hready hframes calls.flatten (fun xs hxs => by
      obtain ⟨reads, hmem, hin⟩ := List.mem_flatten.mp hxs
      exact hreads reads hmem xs hin) ⟨bs, hstream⟩
  obtain rfl : s₁.handed = ys := hhand
  have hcount : s₁.handed.length = k := by
    rw [hall.get.1, List.length_map, List.length_take]
    omega
  subst hcount
  rw [List.nil_append] at hsplit
  have hpending : rest ++ bs = (frames.drop s₁.handed.length).flatMap encode := by
    nth_rewrite 1 [← List.take_append_drop s₁.handed.length frames] at hstream
    rw [hsplit, List.append_assoc, List.flatMap_append, List.append_cancel_left_eq] at hstream
    exact hstream
  obtain ⟨s', hround, hiff⟩ := read_allDelivered_iff hp R₁ hready₁ hall (Nat.zero_add _) hframes hne
    hbs hpending
  exact ⟨s₁, s', by rw [receive_eq, hrun], hround, hiff⟩

/-- A frame without a payload and one with a payload, in two reads. -/
theorem allDelivered_two_frames : ∃ h c s₁ s',
    connectionStartRecv RefHeap.empty (connectionCreate false) = .ok (h, c) ∧
      receive discard ⟨h, c, (), [], []⟩ [[[0, 0, 0]]] = .ok s₁ ∧
      recvRound discard s₁ [0, 1, 0, 0, 0, 7] = .ok s' ∧ AllDelivered s' [[], [7]] := by
  obtain ⟨h, c, hstart, -⟩ := start_discard
  have hsound : Sound RefHeap.empty (discard.owned () + 0) := sound_empty
  have hstream : ([[[0, 0, 0]]] : List (List (List UInt8))).flatten.flatten ++ [0, 1, 0, 0, 0, 7] =
      [[], [7]].flatMap encode := by decide
  obtain ⟨s₁, s', hrun, hround, hiff⟩ := allDelivered_iff discard_respects hsound hstart
    (by decide) (by decide) (by decide) (by decide) hstream
  refine ⟨h, c, s₁, s', hstart, hrun, hround, hiff.mpr ⟨by decide, ?_⟩⟩
  have hfew := ((List.drop_sublist s₁.handed.length [[], [7]]).flatMap encode).length_le
  exact hfew.trans_lt (by decide)

/-- A frame without a payload that is all that arrives. -/
theorem not_allDelivered_lone_frame : ∃ h c s',
    connectionStartRecv RefHeap.empty (connectionCreate false) = .ok (h, c) ∧
      recvRound discard ⟨h, c, (), [], []⟩ (encode []) = .ok s' ∧ ¬ AllDelivered s' [[]] := by
  have hsound : Sound RefHeap.empty (discard.owned () + 0) := sound_empty
  obtain ⟨h, c, hstart, R, hready⟩ :=
    connectionStartRecv_spec (c := connectionCreate false) hsound rfl rfl
  have hstream : [] ++ encode [] = (List.drop 0 [[]]).flatMap encode := rfl
  obtain ⟨s', hround, hiff⟩ := read_allDelivered_iff discard_respects R hready trivial rfl
    (by decide) (by decide) (by decide) hstream
  exact ⟨h, c, s', hstart, hround, fun hall => (hiff.mp hall).1 rfl⟩

end Boundaries

end Kendylib.Connection
