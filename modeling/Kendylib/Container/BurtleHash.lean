import Kendylib.Foundations.Exec
import Kendylib.Foundations.Word

/-!
# The hash function

`burtle_hash` of `src/lookup8.c`. It keeps three 64-bit words, adds the key to them in blocks of 24
bytes and mixes the words after each block; the last bytes are added by a `switch` whose cases fall
through, with the length of the key in the lowest byte of the third word.

The value is that of the key in blocks, and no byte behind the key is read (`burtleHash_eq`). The three
words are a one-to-one image of what is hashed where this differs in one block only, and of the level
(`burtleState_no_funnels`), since the mixing is reversible.
-/

namespace Kendylib.BurtleHash

/-- The words `a`, `b` and `c`. -/
@[ext] structure Words where
  a : UInt64
  b : UInt64
  c : UInt64
  deriving DecidableEq

/-- Three lines of `mix64`, with the shifts in them. -/
def mixLines (f g h : UInt64 → UInt64) (s : Words) : Words :=
  let a := (s.a - s.b - s.c) ^^^ f s.c
  let b := (s.b - s.c - a) ^^^ g a
  let c := (s.c - a - b) ^^^ h b
  ⟨a, b, c⟩

def mix64 (s : Words) : Words :=
  let s := mixLines (· >>> 43) (· <<< 9) (· >>> 8) s
  let s := mixLines (· >>> 38) (· <<< 23) (· >>> 5) s
  let s := mixLines (· >>> 35) (· <<< 49) (· >>> 11) s
  mixLines (· >>> 12) (· <<< 18) (· >>> 22) s

/-- The byte at a place of the key, shifted to the left by a number of bytes. -/
def byteAt (k : List UInt8) (i shift : ℕ) : Exec UInt64 :=
  match k[i]? with
  | some x => .ok (x.toUInt64 <<< UInt64.ofNat (8 * shift))
  | none => .error .outOfBounds

/-- The sum of `n` bytes from a place on, the lowest first. -/
def bytesAt (k : List UInt8) (i : ℕ) : ℕ → Exec UInt64
  | 0 => .ok 0
  | n + 1 => do return (← bytesAt k i n) + (← byteAt k (i + n) n)

/-- The loop over blocks of 24 bytes, with the place and the length of what is left. -/
def blocks (k : List UInt8) (pos len : ℕ) (s : Words) : Exec (ℕ × ℕ × Words) :=
  if 24 ≤ len then do
    let a ← bytesAt k pos 8
    let b ← bytesAt k (pos + 8) 8
    let c ← bytesAt k (pos + 16) 8
    blocks k (pos + 24) (len - 24) (mix64 ⟨s.a + a, s.b + b, s.c + c⟩)
  else .ok (pos, len, s)
termination_by len

/-- One case of the `switch`. The first byte of `c` is left for the length. -/
def lastByte (k : List UInt8) (pos n : ℕ) (s : Words) : Exec Words := do
  if 17 ≤ n then return { s with c := s.c + (← byteAt k (pos + (n - 1)) (n - 16)) }
  else if 9 ≤ n then return { s with b := s.b + (← byteAt k (pos + (n - 1)) (n - 9)) }
  else return { s with a := s.a + (← byteAt k (pos + (n - 1)) (n - 1)) }

/-- The `switch`, whose cases fall through. -/
def lastBytes (k : List UInt8) (pos : ℕ) : ℕ → Words → Exec Words
  | 0, s => .ok s
  | n + 1, s => do lastBytes k pos n (← lastByte k pos (n + 1) s)

/-- `burtle_hash`, with all three words. -/
def burtleState (k : List UInt8) (length level : UInt64) : Exec Words := do
  let (pos, len, s) ← blocks k 0 length.toNat ⟨level, level, 0x9e3779b97f4a7c13⟩
  return mix64 (← lastBytes k pos len { s with c := s.c + length })

/-- `burtle_hash`. -/
def burtleHash (k : List UInt8) (length level : UInt64) : Exec UInt64 := do
  return (← burtleState k length level).c

/-! ## The key in blocks -/

/-- The number with these bytes. -/
def word (bs : List UInt8) : UInt64 := UInt64.ofNat (ofBytes bs)

/-- A block is added and the words are mixed. -/
def absorb (s : Words) (bs : List UInt8) : Words :=
  mix64 ⟨s.a + word (bs.take 8), s.b + word ((bs.drop 8).take 8), s.c + word (bs.drop 16)⟩

/-- The words after `n` blocks. -/
def absorbed (k : List UInt8) (level : UInt64) : ℕ → Words
  | 0 => ⟨level, level, 0x9e3779b97f4a7c13⟩
  | n + 1 => absorb (absorbed k level n) ((k.drop (24 * n)).take 24)

/-- The words after the last bytes, with the length. -/
def finished (k : List UInt8) (level : UInt64) : Words :=
  let s := absorbed k level (k.length / 24)
  let bs := k.drop (24 * (k.length / 24))
  mix64 ⟨s.a + word (bs.take 8), s.b + word ((bs.drop 8).take 8),
    s.c + UInt64.ofNat k.length + word (0 :: bs.drop 16)⟩

variable {k bs : List UInt8} {x : UInt8} {i n : ℕ} {s t : Words}

/-! ## Sums of bytes -/

theorem shifted_byte (hn : n < 8) :
    x.toUInt64 <<< UInt64.ofNat (8 * n) = UInt64.ofNat (x.toNat * 256 ^ n) := by
  apply UInt64.toNat_inj.mp
  rw [UInt64.toNat_shiftLeft, UInt64.toNat_ofNat', UInt64.toNat_ofNat', UInt8.toNat_toUInt64,
    Nat.mod_eq_of_lt (show 8 * n < 2 ^ 64 by omega), Nat.mod_eq_of_lt (show 8 * n < 64 by omega),
    Nat.shiftLeft_eq, Nat.pow_mul]

theorem ofBytes_append (xs : List UInt8) (x : UInt8) :
    ofBytes (xs ++ [x]) = ofBytes xs + x.toNat * 256 ^ xs.length := by
  induction xs with
  | nil => simp [ofBytes]
  | cons y xs ih =>
    rw [List.cons_append, ofBytes, ofBytes, ih, List.length_cons, pow_succ]
    ring

theorem word_append (hn : bs.length = n) (hlt : n < 8) :
    word (bs ++ [x]) = word bs + x.toUInt64 <<< UInt64.ofNat (8 * n) := by
  rw [word, ofBytes_append, hn, UInt64.ofNat_add, shifted_byte hlt, word]

theorem byteAt_eq (hx : k[i]? = some x) (n : ℕ) :
    byteAt k i n = .ok (x.toUInt64 <<< UInt64.ofNat (8 * n)) := by
  rw [byteAt, hx]

theorem bytesAt_eq (hn : n ≤ 8) (hi : i + n ≤ k.length) :
    bytesAt k i n = .ok (word ((k.drop i).take n)) := by
  induction n with
  | zero => rfl
  | succ n ih =>
    have hlt : i + n < k.length := hi
    have hbyte : (k.drop i)[n]? = some k[i + n] := by
      rw [List.getElem?_drop, List.getElem?_eq_getElem hlt]
    rw [bytesAt, ih (by omega) (by omega), Exec.ok_bind, byteAt_eq (List.getElem?_eq_getElem hlt),
      Exec.ok_bind, List.take_add_one, hbyte, Option.toList_some, word_append ?_ hn]
    · rfl
    · rw [List.length_take, List.length_drop]
      omega

/-! ## The loop and the switch -/

theorem blocks_eq {level : UInt64} {rest : List UInt8} (m : ℕ) (hn : n + m = k.length / 24) :
    blocks (k ++ rest) (24 * n) (k.length - 24 * n) (absorbed k level n) =
      .ok (24 * (k.length / 24), k.length % 24, absorbed k level (k.length / 24)) := by
  induction m generalizing n with
  | zero =>
    obtain rfl : n = k.length / 24 := hn
    rw [blocks, if_neg (by omega), show k.length - 24 * (k.length / 24) = k.length % 24 by omega]
  | succ m ih =>
    have hlt : 24 * n + 24 ≤ k.length := by omega
    have hword : ∀ j, j ≤ 16 → bytesAt (k ++ rest) (24 * n + j) 8 =
        .ok (word ((((k.drop (24 * n)).take 24).drop j).take 8)) := by
      intro j hj
      rw [bytesAt_eq le_rfl (by rw [List.length_append]; omega),
        List.drop_append_of_le_length (by omega), List.take_append_of_le_length (by simp; omega),
        List.drop_take, List.drop_drop, List.take_take, Nat.min_eq_left (by omega)]
    have hlast : (((k.drop (24 * n)).take 24).drop 16).take 8 = ((k.drop (24 * n)).take 24).drop 16 :=
      List.take_of_length_le (by simp)
    have h := ih (n := n + 1) (by omega)
    rw [blocks, if_pos (by omega), ← Nat.add_zero (24 * n), hword 0 (by omega), Exec.ok_bind,
      Nat.add_zero, hword 8 (by omega), Exec.ok_bind, hword 16 le_rfl, Exec.ok_bind, hlast,
      Nat.sub_sub]
    exact h

/-- What the last bytes add to the words. -/
def addLast (s : Words) (bs : List UInt8) : Words :=
  ⟨s.a + word (bs.take 8), s.b + word ((bs.drop 8).take 8), s.c + word (0 :: bs.drop 16)⟩

theorem addLast_nil : addLast s [] = s := by
  ext <;> simp [addLast, word, ofBytes]

/-- **A case of the switch** adds the last one of the bytes. -/
theorem lastByte_eq {pos : ℕ} (hlen : bs.length = n) (hn : n < 23) (hx : k[pos + n]? = some x) :
    ∃ s', lastByte k pos (n + 1) s = .ok s' ∧ addLast s' bs = addLast s (bs ++ [x]) := by
  have hcomm : ∀ u v w : UInt64, u + v + w = u + (w + v) := fun u v w => by
    rw [UInt64.add_assoc, UInt64.add_comm v w]
  rw [lastByte, Nat.add_sub_cancel]
  by_cases hc : 16 ≤ n
  · refine ⟨_, by rw [if_pos (Nat.succ_le_succ hc), byteAt_eq hx]; rfl, ?_⟩
    have hword : word (0 :: (bs.drop 16 ++ [x])) =
        word (0 :: bs.drop 16) + x.toUInt64 <<< UInt64.ofNat (8 * (n + 1 - 16)) :=
      word_append (List.length_cons.trans (by rw [List.length_drop]; omega)) (by omega)
    rw [addLast, addLast, List.take_append_of_le_length (by omega),
      List.drop_append_of_le_length (by omega), List.take_append_of_le_length (by simp; omega),
      List.drop_append_of_le_length (by omega), hword, hcomm]
  · by_cases hb : 8 ≤ n
    · refine ⟨_, by rw [if_neg (by omega), if_pos (by omega), byteAt_eq hx]; rfl, ?_⟩
      have hword : word (bs.drop 8 ++ [x]) =
          word (bs.drop 8) + x.toUInt64 <<< UInt64.ofNat (8 * (n + 1 - 9)) :=
        word_append (by rw [List.length_drop]; omega) (by omega)
      rw [addLast, addLast, List.take_append_of_le_length (by omega),
        List.drop_append_of_le_length (by omega),
        List.take_of_length_le (l := bs.drop 8 ++ [x]) (by simp; omega),
        List.take_of_length_le (l := bs.drop 8) (by rw [List.length_drop]; omega), hword,
        List.drop_of_length_le (l := bs ++ [x]) (by simp; omega),
        List.drop_of_length_le (l := bs) (i := 16) (by omega), hcomm]
    · refine ⟨_, by rw [if_neg (by omega), if_neg (by omega), byteAt_eq hx]; rfl, ?_⟩
      have hword := word_append (x := x) hlen (show n < 8 by omega)
      rw [addLast, addLast, List.take_of_length_le (l := bs ++ [x]) (by simp; omega),
        List.take_of_length_le (by omega), hword,
        List.drop_of_length_le (l := bs ++ [x]) (i := 8) (by simp; omega),
        List.drop_of_length_le (l := bs) (i := 8) (by omega),
        List.drop_of_length_le (l := bs ++ [x]) (i := 16) (by simp; omega),
        List.drop_of_length_le (l := bs) (i := 16) (by omega), hcomm]

/-- **The switch** adds the last bytes. -/
theorem lastBytes_eq {pos : ℕ} (hn : n ≤ 23) (hpos : pos + n ≤ k.length) :
    lastBytes k pos n s = .ok (addLast s ((k.drop pos).take n)) := by
  induction n generalizing s with
  | zero => rw [List.take_zero, addLast_nil, lastBytes]
  | succ n ih =>
    have hx : k[pos + n]? = some k[pos + n] := List.getElem?_eq_getElem hpos
    have hlength : ((k.drop pos).take n).length = n := by
      rw [List.length_take, List.length_drop]
      omega
    obtain ⟨s', hs', hadd⟩ := lastByte_eq (s := s) hlength hn hx
    rw [lastBytes, hs', Exec.ok_bind, ih (by omega) (by omega), hadd, List.take_add_one,
      List.getElem?_drop, hx, Option.toList_some]

theorem burtleState_eq (k rest : List UInt8) (level : UInt64) (hk : k.length < 2 ^ 64) :
    burtleState (k ++ rest) (UInt64.ofNat k.length) level = .ok (finished k level) := by
  have hlen : (UInt64.ofNat k.length).toNat = k.length := UInt64.toNat_ofNat_of_lt' hk
  have hblocks : blocks (k ++ rest) (24 * 0) (k.length - 24 * 0) (absorbed k level 0) = _ :=
    blocks_eq (k.length / 24) (by omega)
  have hmod : 24 * (k.length / 24) + k.length % 24 = k.length := Nat.div_add_mod ..
  rw [burtleState, hlen]
  rw [Nat.mul_zero, Nat.sub_zero] at hblocks
  change (blocks (k ++ rest) 0 k.length (absorbed k level 0) >>= _) = _
  rw [hblocks, Exec.ok_bind]
  dsimp only
  rw [lastBytes_eq (by omega) (by rw [List.length_append]; omega), Exec.ok_bind,
    List.drop_append_of_le_length (by omega), List.take_append_of_le_length (by simp; omega),
    List.take_of_length_le (by simp; omega)]
  rfl

/-- **The value is that of the key in blocks**, and nothing behind the key is read. -/
theorem burtleHash_eq (k rest : List UInt8) (level : UInt64) (hk : k.length < 2 ^ 64) :
    burtleHash (k ++ rest) (UInt64.ofNat k.length) level = .ok (finished k level).c := by
  rw [burtleHash, burtleState_eq k rest level hk]
  rfl

theorem burtleHash_eq_tls :
    burtleHash [1, 0, 0, 0, 9] 4 1 = .ok (finished [1, 0, 0, 0] 1).c :=
  burtleHash_eq [1, 0, 0, 0] [9] 1 (by decide)

/-! ## Mixing is reversible -/

theorem cancel {u v w z : UInt64} (f : UInt64) (h : (u - v - w) ^^^ f = (z - v - w) ^^^ f) : u = z := by
  have h' := (UInt64.xor_left_inj f).mp h
  grind

theorem mixLines_injective (f g h : UInt64 → UInt64) : Function.Injective (mixLines f g h) := by
  intro s t hst
  obtain ⟨ha, hb, hc⟩ := Words.mk.inj hst
  rw [ha] at hb hc
  rw [hb] at hc
  have hc' : s.c = t.c := cancel _ hc
  rw [hc'] at ha hb
  have hb' : s.b = t.b := cancel _ hb
  rw [hb'] at ha
  exact Words.ext (cancel _ ha) hb' hc'

theorem mix64_injective : Function.Injective mix64 :=
  (mixLines_injective (· >>> 12) (· <<< 18) (· >>> 22)).comp <|
    (mixLines_injective (· >>> 35) (· <<< 49) (· >>> 11)).comp <|
      (mixLines_injective (· >>> 38) (· <<< 23) (· >>> 5)).comp
        (mixLines_injective (· >>> 43) (· <<< 9) (· >>> 8))

/-! ## No funnels -/

theorem ofBytes_injective {xs ys : List UInt8} (hlen : xs.length = ys.length)
    (h : ofBytes xs = ofBytes ys) : xs = ys := by
  rw [← toBytes_ofBytes xs, ← toBytes_ofBytes ys, hlen, h]

theorem word_injective {xs ys : List UInt8} (hlen : xs.length = ys.length) (hlt : xs.length ≤ 8)
    (h : word xs = word ys) : xs = ys := by
  have hsmall : ∀ bs : List UInt8, bs.length ≤ 8 → (word bs).toNat = ofBytes bs := by
    intro bs hbs
    refine UInt64.toNat_ofNat_of_lt' ((ofBytes_lt bs).trans_le ?_)
    exact Nat.pow_le_pow_right (by decide) hbs
  refine ofBytes_injective hlen ?_
  rw [← hsmall xs hlt, ← hsmall ys (hlen ▸ hlt), h]

/-- Bytes are told by their first 8, the next 8 and the others. -/
theorem eq_of_thirds {xs ys : List UInt8} (ha : xs.take 8 = ys.take 8)
    (hb : (xs.drop 8).take 8 = (ys.drop 8).take 8) (hc : xs.drop 16 = ys.drop 16) : xs = ys := by
  have hdrop : xs.drop 8 = ys.drop 8 := by
    rw [← List.take_append_drop 8 (xs.drop 8), ← List.take_append_drop 8 (ys.drop 8), hb,
      List.drop_drop, List.drop_drop, hc]
  rw [← List.take_append_drop 8 xs, ← List.take_append_drop 8 ys, ha, hdrop]

/-- The words are told by what a block makes of them. -/
theorem absorb_words (h : absorb s bs = absorb t bs) : s = t := by
  obtain ⟨ha, hb, hc⟩ := Words.mk.inj (mix64_injective h)
  exact Words.ext ((UInt64.add_left_inj _).mp ha) ((UInt64.add_left_inj _).mp hb)
    ((UInt64.add_left_inj _).mp hc)

/-- A block is told by what it makes of the words. -/
theorem absorb_block {xs ys : List UInt8} (hlen : xs.length = ys.length) (hle : xs.length ≤ 24)
    (h : absorb s xs = absorb s ys) : xs = ys := by
  obtain ⟨ha, hb, hc⟩ := Words.mk.inj (mix64_injective h)
  refine eq_of_thirds (word_injective ?_ ?_ ((UInt64.add_right_inj _).mp ha))
    (word_injective ?_ ?_ ((UInt64.add_right_inj _).mp hb))
    (word_injective ?_ ?_ ((UInt64.add_right_inj _).mp hc))
  all_goals simp
  all_goals omega

variable {k' : List UInt8} {level level' : UInt64} {m : ℕ}

/-- The first blocks make the words. -/
theorem absorbed_congr (h : k.take (24 * n) = k'.take (24 * n)) :
    absorbed k level n = absorbed k' level n := by
  induction n with
  | zero => rfl
  | succ n ih =>
    have hblock : (k.drop (24 * n)).take 24 = (k'.drop (24 * n)).take 24 := by
      have hdrop := congrArg (List.drop (24 * n)) h
      rwa [List.drop_take, List.drop_take, show 24 * (n + 1) - 24 * n = 24 by omega] at hdrop
    have hbefore : k.take (24 * n) = k'.take (24 * n) := by
      have htake := congrArg (List.take (24 * n)) h
      rwa [List.take_take, List.take_take, Nat.min_eq_left (by omega)] at htake
    rw [absorbed, absorbed, ih hbefore, hblock]

/-- Words that blocks have made the same of were the same. -/
theorem absorbed_cancel (hafter : k.drop (24 * n) = k'.drop (24 * n)) (hle : n ≤ m)
    (h : absorbed k level m = absorbed k' level' m) : absorbed k level n = absorbed k' level' n := by
  induction m, hle using Nat.le_induction with
  | base => exact h
  | succ m hle ih =>
    have hsame : k.drop (24 * m) = k'.drop (24 * m) := by
      have hdrop := congrArg (List.drop (24 * m - 24 * n)) hafter
      rwa [List.drop_drop, List.drop_drop, show 24 * n + (24 * m - 24 * n) = 24 * m by omega] at hdrop
    rw [absorbed, absorbed, hsame] at h
    exact ih (absorb_words h)

/-- The last bytes are told by what they make of the words, and so are these. -/
theorem finished_cancel (hlen : k.length = k'.length) (h : finished k level = finished k' level') :
    (k.drop (24 * (k.length / 24)) = k'.drop (24 * (k.length / 24)) →
      absorbed k level (k.length / 24) = absorbed k' level' (k.length / 24)) ∧
    (absorbed k level (k.length / 24) = absorbed k' level' (k.length / 24) →
      k.drop (24 * (k.length / 24)) = k'.drop (24 * (k.length / 24))) := by
  rw [finished, finished, ← hlen] at h
  obtain ⟨ha, hb, hc⟩ := Words.mk.inj (mix64_injective h)
  constructor
  · intro hlast
    rw [hlast] at ha hb hc
    exact Words.ext ((UInt64.add_left_inj _).mp ha) ((UInt64.add_left_inj _).mp hb)
      ((UInt64.add_left_inj _).mp ((UInt64.add_left_inj _).mp hc))
  · intro hwords
    rw [hwords] at ha hb hc
    refine eq_of_thirds (word_injective ?_ ?_ ((UInt64.add_right_inj _).mp ha))
      (word_injective ?_ ?_ ((UInt64.add_right_inj _).mp hb))
      (List.cons.inj (word_injective ?_ ?_ ((UInt64.add_right_inj _).mp hc))).2
    all_goals simp
    all_goals omega

/-- The keys have one length and differ, in one block only. -/
def DifferInBlock (k k' : List UInt8) : Prop :=
  k.length = k'.length ∧ k ≠ k' ∧
    ∃ i, k.take (24 * i) = k'.take (24 * i) ∧ k.drop (24 * (i + 1)) = k'.drop (24 * (i + 1))

theorem finished_ne_of_level (h : level ≠ level') : finished k level ≠ finished k level' := by
  intro hsame
  obtain ⟨hwords, -⟩ := finished_cancel rfl hsame
  exact h (Words.mk.inj (absorbed_cancel rfl (Nat.zero_le _) (hwords rfl))).1

theorem finished_ne_of_block (h : DifferInBlock k k') : finished k level ≠ finished k' level := by
  intro hsame
  obtain ⟨hlen, hne, i, hbefore, hafter⟩ := h
  obtain ⟨hwords, hlast⟩ := finished_cancel hlen hsame
  refine hne ?_
  rcases Nat.lt_or_ge i (k.length / 24) with hi | hi
  · -- the keys differ in a block of the loop
    have htail : k.drop (24 * (k.length / 24)) = k'.drop (24 * (k.length / 24)) := by
      have hdrop := congrArg (List.drop (24 * (k.length / 24) - 24 * (i + 1))) hafter
      rwa [List.drop_drop, List.drop_drop,
        show 24 * (i + 1) + (24 * (k.length / 24) - 24 * (i + 1)) = 24 * (k.length / 24) by omega]
        at hdrop
    have hnext := absorbed_cancel hafter hi (hwords htail)
    rw [absorbed, absorbed, absorbed_congr hbefore] at hnext
    have hblock := absorb_block (by simp [hlen]) (by simp) hnext
    have hdrop : k.drop (24 * i) = k'.drop (24 * i) := by
      rw [← List.take_append_drop 24 (k.drop (24 * i)), ← List.take_append_drop 24 (k'.drop (24 * i)),
        hblock, List.drop_drop, List.drop_drop]
      exact congrArg _ hafter
    rw [← List.take_append_drop (24 * i) k, ← List.take_append_drop (24 * i) k', hbefore, hdrop]
  · -- they differ in the last bytes
    have htake : k.take (24 * (k.length / 24)) = k'.take (24 * (k.length / 24)) := by
      have htake := congrArg (List.take (24 * (k.length / 24))) hbefore
      rwa [List.take_take, List.take_take, Nat.min_eq_left (by omega)] at htake
    rw [← List.take_append_drop (24 * (k.length / 24)) k,
      ← List.take_append_drop (24 * (k.length / 24)) k', htake, hlast (absorbed_congr htake)]

/-- **No funnels**: a key makes different words with different levels, and so do keys that differ in one
block with one level. -/
theorem burtleState_no_funnels (k k' rest rest' : List UInt8) (level level' : UInt64)
    (hk : k.length < 2 ^ 64) (hk' : k'.length < 2 ^ 64)
    (h : k = k' ∧ level ≠ level' ∨ level = level' ∧ DifferInBlock k k') :
    burtleState (k ++ rest) (UInt64.ofNat k.length) level ≠
      burtleState (k' ++ rest') (UInt64.ofNat k'.length) level' := by
  rw [burtleState_eq k rest level hk, burtleState_eq k' rest' level' hk']
  refine fun hsame => ?_
  rcases h with ⟨rfl, hlevel⟩ | ⟨rfl, hblock⟩
  · exact finished_ne_of_level hlevel (Except.ok.inj hsame)
  · exact finished_ne_of_block hblock (Except.ok.inj hsame)

/-- The keys 1 and 2 of `tls_hash_func`. -/
theorem burtleState_no_funnels_tls : burtleState [1, 0, 0, 0] 4 1 ≠ burtleState [2, 0, 0, 0] 4 1 :=
  burtleState_no_funnels [1, 0, 0, 0] [2, 0, 0, 0] [] [] 1 1 (by decide) (by decide)
    (.inr ⟨rfl, rfl, by decide, 0, rfl, rfl⟩)

end Kendylib.BurtleHash
