import Mathlib.Logic.Equiv.Basic
import Mathlib.Order.RelClasses
import Mathlib.Tactic.Ring

/-!
# Sifting in a binary heap

A binary heap laid out in positions `1, 2, …`, the parent of position `i` being `i / 2`, over
any test `less` that decides a strict weak order. Only the positions below a bound `n` take part.

* `siftUp` and `siftDown` are the two repairs. They are total functions of the whole array.
* `OrderedExcept d n h` says that every pair off position `h` is in order, and that the children
  of `h` are in order with its parent: what is left of the order when the entry at `h` is replaced.
* `ordered_siftUp_siftDown`: from there, sifting down and then up restores the order.
* `Overlooked d n h` describes the one thing that goes wrong when the sift down is run with a bound
  that is one too small: the last entry was to move up and is not looked at. Where it does not
  hold the short sift is the right one (`siftDown_succ_of_not_overlooked`), and where it holds the
  last entry ends up before its parent (`less_of_overlooked`).
-/

namespace Kendylib.BinaryHeap

variable {α : Type*} (less : α → α → Bool)

/-- `less` decides a strict weak order. -/
abbrev WeakOrder : Prop := IsStrictWeakOrder α fun a b => less a b = true

instance weakOrder_lt {β : Type*} [LinearOrder β] : WeakOrder fun a b : β => decide (a < b) := by
  simpa [WeakOrder] using (isStrictWeakOrder_of_isOrderConnected : IsStrictWeakOrder β (· < ·))

section WeakOrder

variable {less} [WeakOrder less] {a b c : α}

theorem less_irrefl (a : α) : less a a = false := by
  simpa using Std.Irrefl.irrefl (r := fun a b => less a b = true) a

theorem less_trans (hab : less a b = true) (hbc : less b c = true) : less a c = true :=
  IsTrans.trans (r := fun a b => less a b = true) a b c hab hbc

theorem less_asymm (hab : less a b = true) : less b a = false := by
  by_contra hba
  have := less_trans hab (by simpa using hba)
  simp [less_irrefl] at this

theorem not_less_trans (hab : less a b = false) (hbc : less b c = false) : less a c = false := by
  by_contra hac
  have hac : less a c = true := by simpa using hac
  have hba : less b a = false := by
    by_contra hba
    have := less_trans (by simpa using hba) hac
    simp [hbc] at this
  have hcb : less c b = false := by
    by_contra hcb
    have := less_trans hac (by simpa using hcb)
    simp [hab] at this
  have := @IsStrictWeakOrder.incomp_trans α (fun a b => less a b = true) _ a b c
    (by simp [hab, hba]) (by simp [hbc, hcb])
  exact this.1 hac

end WeakOrder

/-! ## The two sifts -/

/-- The position that holds the least of the entry at `i` and its children below `n`. -/
def minChild (n : ℕ) (d : ℕ → α) (i : ℕ) : ℕ :=
  let c := if 2 * i < n ∧ less (d (2 * i)) (d i) then 2 * i else i
  if 2 * i + 1 < n ∧ less (d (2 * i + 1)) (d c) then 2 * i + 1 else c

/-- Exchange the entry at `i` with its least child until it is the least itself. -/
def siftDown (n : ℕ) : ℕ → (ℕ → α) → ℕ → ℕ → α
  | 0, d, _ => d
  | fuel + 1, d, i =>
    let c := minChild less n d i
    if c = i then d else siftDown n fuel (d ∘ Equiv.swap i c) c

/-- Exchange the entry at `i` with its parent while it is less. -/
def siftUp : ℕ → (ℕ → α) → ℕ → ℕ → α
  | 0, d, _ => d
  | fuel + 1, d, i =>
    if i / 2 = 0 then d
    else if less (d i) (d (i / 2)) then siftUp fuel (d ∘ Equiv.swap i (i / 2)) (i / 2) else d

/-- No entry below `n` is less than its parent. -/
def Ordered (n : ℕ) (d : ℕ → α) : Prop :=
  ∀ i, 2 ≤ i → i < n → less (d i) (d (i / 2)) = false

/-- The order with the entry at `h` left out. -/
structure OrderedExcept (n : ℕ) (d : ℕ → α) (h : ℕ) : Prop where
  off : ∀ i, 2 ≤ i → i < n → i ≠ h → i / 2 ≠ h → less (d i) (d (i / 2)) = false
  across : ∀ c, c < n → c / 2 = h → 1 ≤ h / 2 → less (d c) (d (h / 2)) = false

variable {less} {n h i : ℕ} {d : ℕ → α}

theorem OrderedExcept.mono {m : ℕ} (o : OrderedExcept less n d h) (hm : m ≤ n) :
    OrderedExcept less m d h :=
  ⟨fun i h2 hi => o.off i h2 (by omega), fun c hc => o.across c (by omega)⟩

theorem Ordered.mono {m : ℕ} (o : Ordered less n d) (hm : m ≤ n) : Ordered less m d :=
  fun i h2 hi => o i h2 (by omega)

/-- Replacing one entry of an ordered heap leaves it ordered except there. The test may change with
the entry, as long as it compares the other entries as before. -/
theorem Ordered.except [WeakOrder less] (o : Ordered less n d) {β : Type*} {less' : β → β → Bool}
    {d' : ℕ → β} (hd : ∀ i j, 1 ≤ i → i < n → i ≠ h → 1 ≤ j → j < n → j ≠ h →
      less' (d' i) (d' j) = less (d i) (d j)) : OrderedExcept less' n d' h where
  off i h2 hi hne hp := by
    rw [hd i (i / 2) (by omega) hi hne (by omega) (by omega) hp]
    exact o i h2 hi
  across c hc hch hh := by
    subst hch
    rw [hd c (c / 2 / 2) (by omega) hc (by omega) hh (by omega) (by omega)]
    exact not_less_trans (o c (by omega) hc) (o (c / 2) (by omega) (by omega))

theorem swap_apply_left (d : ℕ → α) (i j : ℕ) : (d ∘ Equiv.swap i j) i = d j := by simp

theorem swap_apply_right (d : ℕ → α) (i j : ℕ) : (d ∘ Equiv.swap i j) j = d i := by simp

theorem swap_apply_of_ne (d : ℕ → α) {i j k : ℕ} (hi : k ≠ i) (hj : k ≠ j) :
    (d ∘ Equiv.swap i j) k = d k := by
  simp [Equiv.swap_apply_of_ne_of_ne hi hj]

/-! ## The least child -/

variable (less) in
theorem minChild_cases (n : ℕ) (d : ℕ → α) (i : ℕ) :
    minChild less n d i = i ∨ minChild less n d i = 2 * i ∧ 2 * i < n ∨
      minChild less n d i = 2 * i + 1 ∧ 2 * i + 1 < n := by
  simp only [minChild]
  split_ifs <;> simp_all

theorem minChild_div_two (hc : minChild less n d i ≠ i) : minChild less n d i / 2 = i := by
  rcases minChild_cases less n d i with h | ⟨h, -⟩ | ⟨h, -⟩ <;> omega

theorem minChild_lt (hc : minChild less n d i ≠ i) : minChild less n d i < n := by
  rcases minChild_cases less n d i with h | ⟨h, hn⟩ | ⟨h, hn⟩ <;> omega

theorem lt_minChild (hi : 1 ≤ i) (hc : minChild less n d i ≠ i) : i < minChild less n d i := by
  rcases minChild_cases less n d i with h | ⟨h, -⟩ | ⟨h, -⟩ <;> omega

variable [WeakOrder less]

theorem less_minChild (hc : minChild less n d i ≠ i) :
    less (d (minChild less n d i)) (d i) = true := by
  simp only [minChild] at hc ⊢
  split_ifs at hc ⊢ with hl hr hr
  · exact less_trans hr.2 hl.2
  · exact hl.2
  · exact hr.2
  · exact absurd rfl hc

theorem not_less_minChild_self : less (d i) (d (minChild less n d i)) = false := by
  by_cases hc : minChild less n d i = i
  · rw [hc]; exact less_irrefl _
  · exact less_asymm (less_minChild hc)

/-- The least child is not after any child below `n`. -/
theorem not_less_minChild {c : ℕ} (hc : c < n) (hci : c / 2 = i) :
    less (d c) (d (minChild less n d i)) = false := by
  obtain rfl | rfl : c = 2 * i ∨ c = 2 * i + 1 := by omega
  all_goals
    simp only [minChild]
    split_ifs with hl hr hr
  · exact less_asymm hr.2
  · exact less_irrefl _
  · have : less (d (2 * i)) (d i) = false := by simpa [hc] using hl
    exact not_less_trans this (less_asymm hr.2)
  · simpa [hc] using hl
  · exact less_irrefl _
  · simpa [hc] using hr
  · exact less_irrefl _
  · simpa [hc] using hr

/-! ## Restoring the order -/

/-- One exchange of the sift down moves the gap in the order to the child. -/
theorem OrderedExcept.down (o : OrderedExcept less n d i) (hi : 1 ≤ i)
    (hc : minChild less n d i ≠ i) :
    OrderedExcept less n (d ∘ Equiv.swap i (minChild less n d i)) (minChild less n d i) := by
  have hdiv := minChild_div_two hc
  have hlt := minChild_lt hc
  have hgt := lt_minChild hi hc
  generalize hm : minChild less n d i = c at *
  refine ⟨fun k h2 hk hkc hkp => ?_, fun k hk hkc _ => ?_⟩
  · by_cases hki : k = i
    · subst hki
      rw [swap_apply_left, swap_apply_of_ne d (by omega) (by omega)]
      exact o.across c hlt hdiv (by omega)
    rw [swap_apply_of_ne d hki hkc]
    by_cases hpi : k / 2 = i
    · rw [hpi, swap_apply_left, ← hm]
      exact not_less_minChild hk hpi
    rw [swap_apply_of_ne d hpi hkp]
    exact o.off k h2 hk hki hpi
  · rw [hdiv, swap_apply_left, swap_apply_of_ne d (by omega) (by omega), ← hkc]
    exact o.off k (by omega) hk (by omega) (by omega)

theorem ordered_siftDown {fuel : ℕ} (o : OrderedExcept less n d i) (hi : 1 ≤ i)
    (habove : 1 ≤ i / 2 → less (d i) (d (i / 2)) = false) (hf : n ≤ fuel + i) :
    Ordered less n (siftDown less n fuel d i) := by
  induction fuel generalizing d i with
  | zero =>
    intro k h2 hk
    exact o.off k h2 hk (by omega) (by omega)
  | succ fuel ih =>
    simp only [siftDown]
    split_ifs with hc
    · intro k h2 hk
      by_cases hki : k = i
      · subst hki
        exact habove (by omega)
      by_cases hpi : k / 2 = i
      · have : less (d k) (d (minChild less n d i)) = false := not_less_minChild hk hpi
        rwa [hc, ← hpi] at this
      exact o.off k h2 hk hki hpi
    · have hgt := lt_minChild hi hc
      refine ih (o.down hi hc) (by omega) (fun _ => ?_) (by omega)
      rw [swap_apply_right, minChild_div_two hc, swap_apply_left]
      exact not_less_minChild_self

theorem ordered_siftUp {fuel : ℕ} (o : OrderedExcept less n d i)
    (hbelow : ∀ c, c < n → c / 2 = i → less (d c) (d i) = false) (hi : 1 ≤ i) (hf : i ≤ fuel) :
    Ordered less n (siftUp less fuel d i) := by
  induction fuel generalizing d i with
  | zero => omega
  | succ fuel ih =>
    -- the order once the entry at `i` is also in order with its parent
    have hstop : (1 ≤ i / 2 → less (d i) (d (i / 2)) = false) → Ordered less n d := by
      intro hp k h2 hk
      by_cases hki : k = i
      · subst hki
        exact hp (by omega)
      by_cases hpi : k / 2 = i
      · rw [hpi]
        exact hbelow k hk hpi
      exact o.off k h2 hk hki hpi
    simp only [siftUp]
    split_ifs with h0 hl
    · exact hstop (by omega)
    · have hup : 1 ≤ i / 2 / 2 → i / 2 < n → less (d (i / 2)) (d (i / 2 / 2)) = false :=
        fun hh hp => o.off (i / 2) (by omega) hp (by omega) (by omega)
      refine ih ⟨fun k h2 hk hkp hkpp => ?_, fun k hk hkp hh => ?_⟩ (fun k hk hkp => ?_)
        (by omega) (by omega)
      · by_cases hki : k = i
        · exact absurd (by rw [hki]) hkpp
        rw [swap_apply_of_ne d hki hkp]
        by_cases hpi : k / 2 = i
        · rw [hpi, swap_apply_left]
          exact o.across k hk hpi (by omega)
        rw [swap_apply_of_ne d hpi hkpp]
        exact o.off k h2 hk hki hpi
      · rw [swap_apply_of_ne (k := i / 2 / 2) d (by omega) (by omega)]
        by_cases hki : k = i
        · subst hki
          rw [swap_apply_left]
          exact hup hh (by omega)
        rw [swap_apply_of_ne d hki (by omega)]
        have := o.off k (by omega) hk hki (by omega)
        rw [hkp] at this
        exact not_less_trans this (hup hh (by omega))
      · rw [swap_apply_right]
        by_cases hki : k = i
        · subst hki
          rw [swap_apply_left]
          exact less_asymm hl
        rw [swap_apply_of_ne d hki (by omega)]
        have := o.off k (by omega) hk hki (by omega)
        rw [hkp] at this
        by_contra hlt
        have := less_trans (show less (d k) (d i) = true by simpa using hlt) hl
        simp_all
    · exact hstop fun _ => by simpa using hl

omit [WeakOrder less] in
theorem siftUp_eq_self {fuel : ℕ} (h : 1 ≤ i / 2 → less (d i) (d (i / 2)) = false) :
    siftUp less fuel d i = d := by
  cases fuel with
  | zero => rfl
  | succ fuel =>
    simp only [siftUp]
    split_ifs with h0 hl
    · rfl
    · simp [h (by omega)] at hl
    · rfl

/-- **Sifting down and then up restores the order** around a replaced entry. -/
theorem ordered_siftUp_siftDown {f g : ℕ} (o : OrderedExcept less n d i) (hi : 1 ≤ i)
    (hf : n ≤ f + i) (hg : i ≤ g) :
    Ordered less n (siftUp less g (siftDown less n f d i) i) := by
  by_cases hc : minChild less n d i = i
  · have hd : siftDown less n f d i = d := by
      cases f <;> simp [siftDown, hc]
    rw [hd]
    refine ordered_siftUp o (fun c hcn hci => ?_) hi hg
    have : less (d c) (d (minChild less n d i)) = false := not_less_minChild hcn hci
    rwa [hc] at this
  · -- the entry moves down, so it was not before its parent and the sift up stays put
    have habove : 1 ≤ i / 2 → less (d i) (d (i / 2)) = false := by
      intro hp
      by_contra hlt
      have := less_trans (less_minChild hc) (by simpa using hlt)
      simp [o.across _ (minChild_lt hc) (minChild_div_two hc) hp] at this
    have hord := ordered_siftDown o hi habove hf
    rwa [siftUp_eq_self]
    intro hp
    by_cases hin : i < n
    · exact hord i (by omega) hin
    · exact absurd (minChild_lt hc) (by have := lt_minChild hi hc; omega)

/-! ## A sift down that leaves out the last position -/

omit [WeakOrder less] in
theorem siftDown_apply_of_le {fuel k : ℕ} (hk : n ≤ k) : siftDown less n fuel d i k = d k := by
  induction fuel generalizing d i with
  | zero => rfl
  | succ fuel ih =>
    simp only [siftDown]
    split_ifs with hc
    · rfl
    · have := minChild_lt hc
      have := minChild_div_two hc
      rw [ih, swap_apply_of_ne d (by omega) (by omega)]

omit [WeakOrder less] in
theorem siftDown_apply_of_lt {fuel k : ℕ} (hk : k < i) : siftDown less n fuel d i k = d k := by
  induction fuel generalizing d i with
  | zero => rfl
  | succ fuel ih =>
    simp only [siftDown]
    split_ifs with hc
    · rfl
    · have := lt_minChild (by omega) hc
      rw [ih (by omega), swap_apply_of_ne d (by omega) (by omega)]

omit [WeakOrder less] in
theorem siftDown_apply_self {fuel : ℕ} (hi : 1 ≤ i) :
    siftDown less n (fuel + 1) d i i = d (minChild less n d i) := by
  simp only [siftDown]
  split_ifs with hc
  · rw [hc]
  · rw [siftDown_apply_of_lt (lt_minChild hi hc), swap_apply_left]

variable (less) in
/-- A sift of the entry `x` that comes to `c / 2`, in a heap whose last position is `n`, goes on
to `c`. -/
def prefers (n : ℕ) (d : ℕ → α) (x : α) (c : ℕ) : Bool :=
  if c % 2 = 0 then less (d c) x && !(decide (c + 1 ≤ n) && less (d (c + 1)) (d c))
  else less (d c) (if less (d (c - 1)) x then d (c - 1) else x)

variable (less) in
/-- The sift of the entry at `i` in a heap whose last position is `n` should end with the last
entry moving up: `i` is an ancestor of `n`, and every entry on the way from `n` up to `i` is the
preferred child. -/
structure Overlooked (n : ℕ) (d : ℕ → α) (i : ℕ) : Prop where
  below : i < n
  ancestor : ∃ k < n, n / 2 ^ k = i
  preferred : ∀ k < n, i < n / 2 ^ k → prefers less n d (d i) (n / 2 ^ k) = true

instance (n : ℕ) (d : ℕ → α) (i : ℕ) : Decidable (Overlooked less n d i) :=
  decidable_of_iff (i < n ∧ (∃ k < n, n / 2 ^ k = i) ∧
      ∀ k < n, i < n / 2 ^ k → prefers less n d (d i) (n / 2 ^ k) = true)
    ⟨fun ⟨h₁, h₂, h₃⟩ => ⟨h₁, h₂, h₃⟩, fun h => ⟨h.below, h.ancestor, h.preferred⟩⟩

omit [WeakOrder less] in
/-- Whether the last entry is overlooked depends on the entries up to the last only. -/
theorem Overlooked.congr {d' : ℕ → α} (hi : 1 ≤ i) (hd : ∀ k, 1 ≤ k → k ≤ n → d' k = d k)
    (o : Overlooked less n d i) : Overlooked less n d' i := by
  have hbelow := o.below
  refine ⟨hbelow, o.ancestor, fun k hk hik => ?_⟩
  have hkn : n / 2 ^ k ≤ n := Nat.div_le_self _ _
  have h := o.preferred k hk hik
  generalize n / 2 ^ k = c at h hik hkn ⊢
  have hc := hd c (by omega) hkn
  have hx := hd i hi hbelow.le
  unfold prefers at h ⊢
  by_cases hpar : c % 2 = 0
  · rw [if_pos hpar] at h ⊢
    by_cases hc1 : c + 1 ≤ n
    · rw [hc, hx, hd (c + 1) (by omega) hc1]
      exact h
    · simpa [hc1, hc, hx] using h
  · rw [if_neg hpar] at h ⊢
    rw [hc, hx, hd (c - 1) (by omega) (by omega)]
    exact h

theorem div_two_pow_succ (n k : ℕ) : n / 2 ^ (k + 1) = n / 2 ^ k / 2 := by
  rw [Nat.pow_succ, Nat.div_div_eq_div_mul]

theorem lt_of_lt_div_two_pow {n j k : ℕ} (h : n / 2 ^ k < n / 2 ^ j) : j < k := by
  by_contra hjk
  have : n / 2 ^ j ≤ n / 2 ^ k :=
    Nat.div_le_div_left (Nat.pow_le_pow_right (by omega) (by omega)) (Nat.two_pow_pos k)
  omega

theorem lt_of_div_two_pow_pos {n k : ℕ} (h : 1 ≤ n / 2 ^ k) : k < n := by
  have h1 : 2 ^ k ≤ n := by
    by_contra hlt
    rw [Nat.div_eq_of_lt (by omega)] at h
    omega
  have := Nat.lt_two_pow_self (n := k)
  omega

/-- A position strictly below `n / 2 ^ k` on the way to `n` is at least twice as large. -/
theorem two_mul_le_of_lt_div {n j k : ℕ} (h : n / 2 ^ k < n / 2 ^ j) :
    2 * (n / 2 ^ k) ≤ n / 2 ^ j := by
  have hjk := lt_of_lt_div_two_pow h
  have : n / 2 ^ k ≤ n / 2 ^ (j + 1) :=
    Nat.div_le_div_left (Nat.pow_le_pow_right (by omega) (by omega)) (Nat.two_pow_pos _)
  rw [div_two_pow_succ] at this
  omega

omit [WeakOrder less] in
theorem prefers_left (x : α) : prefers less n d x (2 * i) =
    (less (d (2 * i)) x && !(decide (2 * i + 1 ≤ n) && less (d (2 * i + 1)) (d (2 * i)))) := by
  simp [prefers]

omit [WeakOrder less] in
theorem prefers_right (x : α) : prefers less n d x (2 * i + 1) =
    less (d (2 * i + 1)) (if less (d (2 * i)) x then d (2 * i) else x) := by
  simp [prefers]

omit [WeakOrder less] in
theorem minChild_of_prefers {c : ℕ} (hci : c / 2 = i) (hc : c + 1 < n)
    (h : prefers less n d (d i) c = true) : minChild less n d i = c := by
  obtain rfl | rfl : c = 2 * i ∨ c = 2 * i + 1 := by omega
  · rw [prefers_left] at h
    grind [minChild]
  · rw [prefers_right] at h
    grind [minChild]

omit [WeakOrder less] in
theorem prefers_minChild (hn : minChild less n d i + 1 ≠ n) (hc : minChild less n d i ≠ i) :
    prefers less n d (d i) (minChild less n d i) = true := by
  rcases minChild_cases less n d i with h | ⟨h, hl⟩ | ⟨h, hl⟩
  · exact absurd h hc
  · rw [h, prefers_left]
    grind [minChild]
  · rw [h, prefers_right]
    grind [minChild]

omit [WeakOrder less] in
/-- The last position makes a difference to the least child only where it is preferred. -/
theorem minChild_succ (h : n / 2 = i → prefers less n d (d i) n = false) :
    minChild less (n + 1) d i = minChild less n d i := by
  by_cases hn : n / 2 = i
  · have h := h hn
    obtain rfl | rfl : n = 2 * i ∨ n = 2 * i + 1 := by omega
    · rw [prefers_left] at h
      grind [minChild]
    · rw [prefers_right] at h
      grind [minChild]
  · have h1 : 2 * i < n + 1 ↔ 2 * i < n := by omega
    have h2 : 2 * i + 1 < n + 1 ↔ 2 * i + 1 < n := by omega
    simp only [minChild, h1, h2]

omit [WeakOrder less] in
/-- The positions on the way to `n` strictly below `c` are preferred alike before and after the
exchange that brings the sifted entry from `i` to `c`. -/
theorem prefers_swap {c p : ℕ} {x : α} (hi : 1 ≤ i) (hc : i < c) (hp : 2 * c ≤ p) :
    prefers less n (d ∘ Equiv.swap i c) x p = prefers less n d x p := by
  unfold prefers
  rw [swap_apply_of_ne d (k := p) (by omega) (by omega),
    swap_apply_of_ne d (k := p + 1) (by omega) (by omega),
    swap_apply_of_ne d (k := p - 1) (by omega) (by omega)]

omit [WeakOrder less] in
theorem Overlooked.of_swap (hi : 1 ≤ i) (hc : minChild less n d i ≠ i)
    (o : Overlooked less n (d ∘ Equiv.swap i (minChild less n d i)) (minChild less n d i)) :
    Overlooked less n d i := by
  have hdiv := minChild_div_two hc
  have hgt := lt_minChild hi hc
  have hpref : minChild less n d i + 1 ≠ n → _ → _ := prefers_minChild
  generalize minChild less n d i = c at *
  obtain ⟨k, hk, hkc⟩ := o.ancestor
  have hki : n / 2 ^ (k + 1) = i := by rw [div_two_pow_succ, hkc, hdiv]
  have hcn : 2 * c ≤ n := by
    have := two_mul_le_of_lt_div (n := n) (j := 0) (k := k) (by simpa [hkc] using o.below)
    simpa [hkc] using this
  refine ⟨by omega, ⟨k + 1, lt_of_div_two_pow_pos (by omega), hki⟩, fun j hj hij => ?_⟩
  rcases Nat.lt_or_ge c (n / 2 ^ j) with hcj | hcj
  · have := o.preferred j hj hcj
    rw [← hkc] at hcj
    have h2 := two_mul_le_of_lt_div hcj
    rw [hkc] at h2
    rwa [swap_apply_right, prefers_swap hi hgt h2] at this
  · rw [← hki] at hij
    have hjk := lt_of_lt_div_two_pow hij
    have : n / 2 ^ k ≤ n / 2 ^ j :=
      Nat.div_le_div_left (Nat.pow_le_pow_right (by omega) (by omega)) (Nat.two_pow_pos j)
    rw [show n / 2 ^ j = c by omega]
    exact hpref (by omega) hc

omit [WeakOrder less] in
/-- Where the last entry is not overlooked, leaving out its position changes nothing. -/
theorem siftDown_succ_of_not_overlooked {fuel : ℕ} (hi : 1 ≤ i) (h : ¬ Overlooked less n d i) :
    siftDown less (n + 1) fuel d i = siftDown less n fuel d i := by
  induction fuel generalizing d i with
  | zero => rfl
  | succ fuel ih =>
    have hm : minChild less (n + 1) d i = minChild less n d i := by
      refine minChild_succ fun hn => ?_
      by_contra hp
      refine h ⟨by omega, ⟨1, lt_of_div_two_pow_pos (by rw [pow_one]; omega), by simpa using hn⟩,
        fun k hk hik => ?_⟩
      have hk0 : k < 1 := by
        refine lt_of_lt_div_two_pow (n := n) ?_
        simpa [hn] using hik
      rw [show k = 0 by omega]
      simpa using hp
    simp only [siftDown, hm]
    split_ifs with hc
    · rfl
    · exact ih (by have := lt_minChild hi hc; omega) fun o => h (o.of_swap hi hc)

omit [WeakOrder less] in
theorem Overlooked.swap {c : ℕ} (o : Overlooked less n d i) (hi : 1 ≤ i)
    (hc : c / 2 = i) (hk : ∃ k, n / 2 ^ k = c) (hcn : c < n) :
    Overlooked less n (d ∘ Equiv.swap i c) c := by
  obtain ⟨k, hk⟩ := hk
  refine ⟨hcn, ⟨k, lt_of_div_two_pow_pos (by omega), hk⟩, fun j hj hcj => ?_⟩
  rw [← hk] at hcj
  have h2 := two_mul_le_of_lt_div hcj
  rw [hk] at h2
  rw [swap_apply_right, prefers_swap hi (by omega) h2]
  exact o.preferred j hj (by omega)

omit [WeakOrder less] in
/-- An overlooked last entry is left below a parent that it is less than. -/
theorem less_of_overlooked {fuel : ℕ} (hi : 1 ≤ i) (hf : n ≤ fuel + i)
    (o : Overlooked less n d i) :
    less (d n) (siftDown less n fuel d i (n / 2)) = true := by
  induction fuel generalizing d i with
  | zero => have := o.below; omega
  | succ fuel ih =>
    have hbelow := o.below
    obtain ⟨k, hkn, hk⟩ := o.ancestor
    by_cases hn : n / 2 = i
    · have hp := o.preferred 0 (by omega) (by simpa using hbelow)
      rw [pow_zero, Nat.div_one] at hp
      rw [hn, siftDown_apply_self hi]
      obtain rfl | rfl : n = 2 * i ∨ n = 2 * i + 1 := by omega
      · rw [prefers_left] at hp
        grind [minChild]
      · rw [prefers_right] at hp
        grind [minChild]
    · -- the sift goes on to the next position on the way to `n`
      obtain _ | _ | k := k
      · simp only [pow_zero, Nat.div_one] at hk; omega
      · simp only [zero_add, pow_one] at hk; omega
      have hc : n / 2 ^ (k + 1) / 2 = i := by rw [← div_two_pow_succ]; exact hk
      have hcn : n / 2 ^ (k + 1) ≤ n / 2 := by
        rw [Nat.pow_succ', ← Nat.div_div_eq_div_mul]
        exact Nat.div_le_self _ _
      have hpref := o.preferred (k + 1) (by omega) (by omega)
      have hm := minChild_of_prefers hc (by omega) hpref
      simp only [siftDown, hm]
      rw [if_neg (by omega)]
      have := ih (by omega) (by omega) (o.swap hi hc ⟨k + 1, rfl⟩ (by omega))
      rwa [swap_apply_of_ne d (by omega) (by omega)] at this

/-- **Sifting with the last position left out** restores the order around a replaced entry
exactly when the last entry is not overlooked. -/
theorem ordered_short_sift_iff {f g : ℕ} (o : OrderedExcept less (n + 1) d i) (hi : 1 ≤ i)
    (hf : n + 1 ≤ f + i) (hg : i ≤ g) :
    Ordered less (n + 1) (siftUp less g (siftDown less n f d i) i) ↔ ¬ Overlooked less n d i := by
  refine ⟨fun hord ov => ?_, fun h => ?_⟩
  · have hbelow := ov.below
    obtain ⟨f, rfl⟩ : ∃ f', f = f' + 1 := ⟨f - 1, by omega⟩
    have hless : less (d n) (siftDown less n (f + 1) d i (n / 2)) = true :=
      less_of_overlooked hi (by omega) ov
    -- the sift up that follows stays put, so the last pair is out of order
    have hstay : 1 ≤ i / 2 →
        less (siftDown less n (f + 1) d i i) (siftDown less n (f + 1) d i (i / 2)) = false := by
      intro hp
      rw [siftDown_apply_of_lt (by omega : i / 2 < i), siftDown_apply_self hi]
      by_cases hc : minChild less n d i = i
      · have hn : n / 2 = i := by
          by_contra hn
          obtain ⟨k, -, hk⟩ := ov.ancestor
          obtain _ | _ | k := k
          · simp only [pow_zero, Nat.div_one] at hk; omega
          · simp only [zero_add, pow_one] at hk; omega
          have hc' : n / 2 ^ (k + 1) / 2 = i := by rw [← div_two_pow_succ]; exact hk
          have hcn : n / 2 ^ (k + 1) ≤ n / 2 := by
            rw [Nat.pow_succ', ← Nat.div_div_eq_div_mul]
            exact Nat.div_le_self _ _
          have := minChild_of_prefers hc' (by omega)
            (ov.preferred (k + 1) (lt_of_div_two_pow_pos (by omega)) (by omega))
          omega
        rw [hn, siftDown_apply_self hi, hc] at hless
        rw [hc]
        by_contra hlt
        have := less_trans hless (by simpa using hlt)
        simp [o.across n (by omega) hn hp] at this
      · exact o.across _ (by have := minChild_lt hc; omega) (minChild_div_two hc) hp
    rw [siftUp_eq_self hstay] at hord
    have := hord n (by omega) (by omega)
    rw [siftDown_apply_of_le le_rfl, hless] at this
    exact absurd this (by simp)
  · rw [← siftDown_succ_of_not_overlooked hi h]
    exact ordered_siftUp_siftDown o hi (by omega) hg

/-- The first entry of an ordered heap is not after any entry. -/
theorem Ordered.root (o : Ordered less n d) (hi : 1 ≤ i) (hn : i < n) :
    less (d i) (d 1) = false := by
  induction i using Nat.strongRecOn with
  | ind i ih =>
    obtain rfl | h2 : i = 1 ∨ 2 ≤ i := by omega
    · exact less_irrefl _
    · exact not_less_trans (o i h2 hn) (ih (i / 2) (by omega) (by omega) (by omega))

end Kendylib.BinaryHeap
