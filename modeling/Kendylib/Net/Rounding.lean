import Kendylib.Net.WPacket
import Mathlib.Data.Nat.Log

/-!
# Rounding to a power of two

The capacity of the first buffer of a packet is `GetSize_of_pow2` of the size asked for, which sets
all bits below the highest one; the objects of a `block_obj_allocator` have the size `1` shifted left
by `GetK`, which counts the shifts that take the size down to one. For a size from 1 to `2 ^ 31` both
are the least power of two that is large enough (`roundings_agree`).
-/

namespace Kendylib.WPacket

variable {size : ℕ}

theorem isPowOf2_iff (hpos : 0 < size) (hsize : size < 0x100000000) :
    isPowOf2 size = true ↔ ∃ k, size = 2 ^ k := by
  rw [isPowOf2, sub32_of_le hpos hsize, beq_iff_eq,
    Nat.and_sub_one_eq_zero_iff_isPowerOfTwo hpos.ne']
  rfl

/-! ## Counting shifts -/

theorem getKLoop_eq_log {fuel : ℕ} (h : size < 2 ^ fuel) : getKLoop fuel size = Nat.log 2 size := by
  induction fuel generalizing size with
  | zero =>
    obtain rfl : size = 0 := by simpa using h
    rfl
  | succ fuel ih =>
    rw [getKLoop]
    split
    · rename_i hone
      have hhalf : size / 2 < 2 ^ fuel := by
        rw [pow_succ] at h
        omega
      rw [Nat.shiftRight_one, ih hhalf, Nat.log_of_one_lt_of_le one_lt_two hone]
    · rename_i hone
      exact (Nat.log_of_lt (by omega)).symm

/-- **`GetK`** is the exponent of the next power of two. -/
theorem getK_eq_clog (hpos : 0 < size) (hmax : size ≤ 0x80000000) : getK size = Nat.clog 2 size := by
  rw [getK]
  split
  · rename_i hpow
    obtain ⟨k, rfl⟩ := (isPowOf2_iff hpos (by omega)).mp hpow
    rw [getKLoop_eq_log (by omega), Nat.log_pow one_lt_two, Nat.clog_pow 2 k one_lt_two]
  · rename_i hpow
    rw [isPowOf2_iff hpos (by omega)] at hpow
    have hne : size ≠ 2 ^ 31 := fun h => hpow ⟨31, h⟩
    have hdouble : size <<< 1 % 0x100000000 = size * 2 := by
      rw [Nat.shiftLeft_eq, pow_one]
      exact Nat.mod_eq_of_lt (by omega)
    rw [hdouble, getKLoop_eq_log (by omega), Nat.log_mul_base one_lt_two hpos.ne']
    have hbelow : 2 ^ Nat.log 2 size < size :=
      lt_of_le_of_ne (Nat.pow_log_le_self 2 hpos.ne') fun h => hpow ⟨_, h.symm⟩
    apply le_antisymm
    · exact (Nat.lt_clog_iff_pow_lt one_lt_two).mpr hbelow
    · exact Nat.clog_le_of_le_pow (Nat.lt_pow_succ_log_self one_lt_two size).le

theorem getK_lt (hpos : 0 < size) (hmax : size ≤ 0x80000000) : getK size < 32 := by
  rw [getK_eq_clog hpos hmax]
  exact Nat.lt_succ_of_le (Nat.clog_le_of_le_pow hmax)

/-- The power of two that `GetK` finds fits into a word. -/
theorem one_shiftLeft_getK (hpos : 0 < size) (hmax : size ≤ 0x80000000) :
    1 <<< getK size % 0x100000000 = 2 ^ getK size := by
  rw [Nat.shiftLeft_eq, Nat.one_mul]
  exact Nat.mod_eq_of_lt (Nat.pow_lt_pow_right one_lt_two (getK_lt hpos hmax))

/-! ## Spreading the highest bit -/

/-- Of a number below `2 ^ (t + 1)` the highest `k` bits are set. -/
def HighBits (x t k : ℕ) : Prop := x < 2 ^ (t + 1) ∧ ∀ i ≤ t, t < i + k → x.testBit i

theorem HighBits.spread {x t k : ℕ} (hx : HighBits x t k) : HighBits (x ||| x >>> k) t (2 * k) := by
  refine ⟨Nat.or_lt_two_pow hx.1 ((Nat.shiftRight_le x k).trans_lt hx.1), fun i hle hlt => ?_⟩
  rw [Nat.testBit_or, Nat.testBit_shiftRight, Bool.or_eq_true]
  by_cases hi : t < i + k
  · exact .inl (hx.2 i hle hi)
  · exact .inr (hx.2 (k + i) (by omega) (by omega))

theorem HighBits.eq {x t k : ℕ} (hx : HighBits x t k) (hk : t < k) : x = 2 ^ (t + 1) - 1 := by
  refine Nat.eq_of_testBit_eq fun i => ?_
  rw [Nat.testBit_two_pow_sub_one]
  by_cases hi : i < t + 1
  · rw [hx.2 i (by omega) (by omega), decide_eq_true hi]
  · rw [decide_eq_false hi]
    have hpow : 2 ^ (t + 1) ≤ 2 ^ i := Nat.pow_le_pow_right (by decide) (by omega)
    exact Nat.testBit_lt_two_pow (hx.1.trans_le hpow)

theorem highBits_log2 {x : ℕ} (hx : x ≠ 0) : HighBits x x.log2 1 := by
  refine ⟨Nat.lt_log2_self, fun i hle hlt => ?_⟩
  obtain rfl : i = x.log2 := by omega
  exact Nat.testBit_of_two_pow_le_and_two_pow_add_one_gt (Nat.log2_self_le hx) Nat.lt_log2_self

/-- A size that is not a power of two: the bits below the highest one of `size - 1` are set. -/
theorem getSizeOfPow2_of_not_isPowOf2 (hsize : size < 0x100000000) (hpow : ¬ isPowOf2 size = true) :
    size - 1 ≠ 0 ∧ getSizeOfPow2 size = add32 (2 ^ ((size - 1).log2 + 1) - 1) 1 := by
  have hpos : size - 1 ≠ 0 := by
    intro hzero
    obtain rfl | rfl : size = 0 ∨ size = 1 := by omega
    · exact hpow rfl
    · exact hpow rfl
  have hlog : (size - 1).log2 < 32 := (Nat.log2_lt hpos).mpr (by omega)
  have hhigh := (highBits_log2 hpos).spread.spread.spread.spread.spread.eq hlog
  refine ⟨hpos, ?_⟩
  rw [getSizeOfPow2, if_neg hpow]
  simp only [sub32_of_le (show 1 ≤ size by omega) hsize, hhigh]

/-- **`GetSize_of_pow2`** is the next power of two. -/
theorem getSizeOfPow2_eq_pow_clog (hpos : 0 < size) (hmax : size ≤ 0x80000000) :
    getSizeOfPow2 size = 2 ^ Nat.clog 2 size := by
  by_cases hpow : isPowOf2 size = true
  · rw [getSizeOfPow2, if_pos hpow]
    obtain ⟨k, rfl⟩ := (isPowOf2_iff hpos (by omega)).mp hpow
    rw [Nat.clog_pow 2 k one_lt_two]
  · obtain ⟨hone, heq⟩ := getSizeOfPow2_of_not_isPowOf2 (by omega) hpow
    have hle := Nat.log2_self_le hone
    have hlt : size - 1 < 2 ^ ((size - 1).log2 + 1) := Nat.lt_log2_self
    have hlog : (size - 1).log2 < 31 := (Nat.log2_lt hone).mpr (by omega)
    have hpow31 : 2 ^ ((size - 1).log2 + 1) ≤ 2 ^ 31 := Nat.pow_le_pow_right (by decide) hlog
    have hclog : Nat.clog 2 size = (size - 1).log2 + 1 := by
      apply le_antisymm
      · exact Nat.clog_le_of_le_pow (by omega)
      · exact (Nat.lt_clog_iff_pow_lt one_lt_two).mpr (by omega)
    rw [heq, hclog, add32_of_lt (by omega)]
    omega

/-- `GetSize_of_pow2` of any word: it overflows to zero for a size above `2 ^ 31`. -/
theorem getSizeOfPow2_eq (hsize : size < 0x100000000) :
    getSizeOfPow2 size = 0 ∧ (size = 0 ∨ 0x80000000 < size) ∨
      ∃ j < 32, getSizeOfPow2 size = 2 ^ j ∧ size ≤ 2 ^ j := by
  rcases Nat.eq_zero_or_pos size with rfl | hpos
  · exact .inl ⟨rfl, .inl rfl⟩
  by_cases hmax : size ≤ 0x80000000
  · refine .inr ⟨Nat.clog 2 size, ?_, getSizeOfPow2_eq_pow_clog hpos hmax,
      Nat.le_pow_clog one_lt_two size⟩
    exact Nat.lt_succ_of_le (Nat.clog_le_of_le_pow hmax)
  · have hpow : ¬ isPowOf2 size = true := by
      rw [isPowOf2_iff hpos hsize]
      rintro ⟨k, rfl⟩
      have hlo : 31 < k := (Nat.pow_lt_pow_iff_right one_lt_two).mp (by omega)
      have hhi : k < 32 := (Nat.pow_lt_pow_iff_right one_lt_two).mp (by omega)
      omega
    obtain ⟨hone, heq⟩ := getSizeOfPow2_of_not_isPowOf2 hsize hpow
    have hlog : (size - 1).log2 = 31 := (Nat.log2_eq_iff hone).mpr ⟨by omega, by omega⟩
    rw [heq, hlog]
    exact .inl ⟨rfl, .inr (by omega)⟩

theorem getSizeOfPow2_bounds (hsize : size < 0x100000000) :
    getSizeOfPow2 size = 0 ∨ size ≤ getSizeOfPow2 size ∧ getSizeOfPow2 size ≤ 0x80000000 := by
  rcases getSizeOfPow2_eq hsize with ⟨hzero, -⟩ | ⟨j, hj, heq, hle⟩
  · exact .inl hzero
  · have : 2 ^ j ≤ 2 ^ 31 := Nat.pow_le_pow_right (by decide) (by omega)
    exact .inr ⟨by omega, by omega⟩

/-! ## Both roundings -/

/-- **Both roundings agree.** For every size from 1 to `2 ^ 31`, `GetSize_of_pow2` is the least power
of two that is at least the size, and it is `1` shifted left by `GetK`. -/
theorem roundings_agree (hpos : 1 ≤ size) (hmax : size ≤ 0x80000000) :
    IsLeast {n | size ≤ n ∧ ∃ k, n = 2 ^ k} (getSizeOfPow2 size) ∧
      getSizeOfPow2 size = 1 <<< getK size % 0x100000000 := by
  have heq := getSizeOfPow2_eq_pow_clog hpos hmax
  refine ⟨⟨⟨?_, _, heq⟩, ?_⟩, ?_⟩
  · rw [heq]
    exact Nat.le_pow_clog one_lt_two size
  · rintro n ⟨hle, k, rfl⟩
    rw [heq]
    exact Nat.pow_le_pow_right two_pos (Nat.clog_le_of_le_pow hle)
  · rw [heq, one_shiftLeft_getK hpos hmax, getK_eq_clog hpos hmax]

/-- A size between two powers of two. -/
theorem roundings_agree_100 : IsLeast {n | 100 ≤ n ∧ ∃ k, n = 2 ^ k} (getSizeOfPow2 100) ∧
    getSizeOfPow2 100 = 1 <<< getK 100 % 0x100000000 :=
  roundings_agree (by decide) (by decide)

end Kendylib.WPacket
