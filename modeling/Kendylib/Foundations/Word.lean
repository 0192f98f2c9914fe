import Mathlib.Tactic.Ring

/-!
# Machine words and bytes

Sums, differences and products of 32-bit unsigned words, as natural numbers reduced modulo `2 ^ 32`,
and the little-endian bytes of a number.
-/

namespace Kendylib

/-- The sum of two 32-bit words. -/
def add32 (a b : ℕ) : ℕ := (a + b) % 0x100000000

/-- The difference of two 32-bit words. -/
def sub32 (a b : ℕ) : ℕ := (a + (0x100000000 - b)) % 0x100000000

/-- The product of two 32-bit words. -/
def mul32 (a b : ℕ) : ℕ := a * b % 0x100000000

/-- A 32-bit word read as a signed number. -/
def int32 (a : ℕ) : ℤ := if a < 0x80000000 then a else (a : ℤ) - 0x100000000

theorem add32_of_lt {a b : ℕ} (h : a + b < 0x100000000) : add32 a b = a + b := Nat.mod_eq_of_lt h

theorem mul32_of_lt {a b : ℕ} (h : a * b < 0x100000000) : mul32 a b = a * b := Nat.mod_eq_of_lt h

theorem sub32_of_le {a b : ℕ} (h : b ≤ a) (ha : a < 0x100000000) : sub32 a b = a - b := by
  unfold sub32
  omega

/-- The `w` low bytes of a number, the lowest first. -/
def toBytes : ℕ → ℕ → List UInt8
  | 0, _ => []
  | w + 1, v => UInt8.ofNat v :: toBytes w (v / 256)

/-- The number with these bytes, the lowest first. -/
def ofBytes : List UInt8 → ℕ
  | [] => 0
  | b :: bs => b.toNat + 256 * ofBytes bs

@[simp] theorem length_toBytes (w v : ℕ) : (toBytes w v).length = w := by
  induction w generalizing v with
  | zero => rfl
  | succ w ih => simp [toBytes, ih]

theorem ofBytes_lt (bs : List UInt8) : ofBytes bs < 256 ^ bs.length := by
  induction bs with
  | nil => simp [ofBytes]
  | cons b bs ih =>
    have hb := b.toNat_lt
    simp only [ofBytes, List.length_cons, pow_succ]
    omega

theorem ofBytes_toBytes {w v : ℕ} (h : v < 256 ^ w) : ofBytes (toBytes w v) = v := by
  induction w generalizing v with
  | zero =>
    rw [pow_zero] at h
    simp only [toBytes, ofBytes]
    omega
  | succ w ih =>
    have hv : v / 256 < 256 ^ w := by
      rw [pow_succ] at h
      omega
    simp only [toBytes, ofBytes, ih hv, UInt8.toNat_ofNat']
    omega

theorem toBytes_ofBytes (bs : List UInt8) : toBytes bs.length (ofBytes bs) = bs := by
  induction bs with
  | nil => rfl
  | cons b bs ih =>
    have hb := b.toNat_lt
    have hdiv : (b.toNat + 256 * ofBytes bs) / 256 = ofBytes bs := by omega
    simp only [List.length_cons, toBytes, ofBytes, hdiv, ih, List.cons.injEq, and_true]
    apply UInt8.toNat_inj.mp
    rw [UInt8.toNat_ofNat']
    omega

end Kendylib
