import Kendylib.Foundations.Exec
import Kendylib.Foundations.BinaryHeap
import Mathlib.Logic.Function.Basic
import Mathlib.Order.Interval.Finset.Nat

/-!
# The binary heap of the coroutine scheduler

The heap of `coro/minheap.c`: an array of pointers to the elements, position `0` left unused, each
element carrying its position in its `index` field. The array has `max_size` entries, null at
first; reading or writing outside it, and dereferencing a null entry, are faults.

`down` compares positions with `size` where the last element is at position `size`, so it never
looks at the last element.

The second half relates the code to the sifts of `Kendylib.BinaryHeap`: on a `Valid` heap, `up`,
`down` and the operations built on them return, keep the heap valid, and act on the entries as the
sifts do.
-/

namespace Kendylib.MinHeap

open BinaryHeap

/-- A heap over the elements `ε`, with the `index` field of every element. -/
structure Heap (ε : Type) where
  size : ℕ
  maxSize : ℕ
  data : List (Option ε)
  index : ε → ℕ

variable {ε : Type} [DecidableEq ε] (less : ε → ε → Bool)

/-- `minheap_create`, with no element in a heap. -/
def minheapCreate (size : ℕ) : Heap ε where
  size := 0
  maxSize := size
  data := List.replicate size none
  index := fun _ => 0

namespace Heap

/-- The element that `m->data[i]` points to. -/
def get (m : Heap ε) (i : ℕ) : Exec ε :=
  match m.data[i]? with
  | none => .error .outOfBounds
  | some p => Exec.deref p

/-- `m->data[i] = p`. -/
def put (m : Heap ε) (i : ℕ) (p : Option ε) : Exec (Heap ε) :=
  if i < m.data.length then .ok { m with data := m.data.set i p } else .error .outOfBounds

/-- `e->index = i`. -/
def setIndex (m : Heap ε) (e : ε) (i : ℕ) : Heap ε :=
  { m with index := Function.update m.index e i }

end Heap

/-! ## The operations -/

/-- Exchange two entries and set the `index` of both elements. -/
def swap (m : Heap ε) (idx1 idx2 : ℕ) : Exec (Heap ε) := do
  let x ← m.get idx1
  let y ← m.get idx2
  let m ← m.put idx1 (some y)
  let m ← m.put idx2 (some x)
  return (m.setIndex y idx1).setIndex x idx2

/-- The position of the parent. -/
def parent (idx : ℕ) : ℕ := idx / 2

/-- The position of the left child. -/
def left (idx : ℕ) : ℕ := idx * 2

/-- The position of the right child. -/
def right (idx : ℕ) : ℕ := idx * 2 + 1

/-- The loop of `up`, for at most `fuel` rounds. -/
def upLoop : ℕ → Heap ε → ℕ → Exec (Heap ε)
  | 0, _, _ => .error .fuel
  | fuel + 1, m, idx =>
    let p := parent idx
    if p = 0 then .ok m
    else do
      let x ← m.get idx
      let y ← m.get p
      if less x y then
        let m ← swap m idx p
        upLoop fuel m p
      else return m

/-- `up`: the position halves in every round. -/
def up (m : Heap ε) (idx : ℕ) : Exec (Heap ε) := upLoop less (idx + 1) m idx

/-- The child that `down` compares: `c` if `data[c]` is less than `data[min]`, else `min`, the
positions from `size` on left out. -/
def pick (m : Heap ε) (c min : ℕ) : Exec ℕ :=
  if c < m.size then do
    let x ← m.get c
    let y ← m.get min
    return if less x y then c else min
  else return min

/-- The recursion of `down`, for at most `fuel` calls. -/
def downLoop : ℕ → Heap ε → ℕ → Exec (Heap ε)
  | 0, _, _ => .error .fuel
  | fuel + 1, m, idx => do
    let min ← pick less m (left idx) idx
    let min ← pick less m (right idx) min
    if min ≠ idx then
      let m ← swap m idx min
      downLoop fuel m min
    else return m

/-- `down`: the position grows in every call and stays below `size`. -/
def down (m : Heap ε) (idx : ℕ) : Exec (Heap ε) := downLoop less (m.size + 1) m idx

/-- `minheap_change`. -/
def minheapChange (m : Heap ε) (e : ε) : Exec (Heap ε) := do
  let idx := m.index e
  let m ← down less m idx
  up less m idx

/-- `minheap_insert`. -/
def minheapInsert (m : Heap ε) (e : ε) : Exec (Heap ε) :=
  if m.index e ≠ 0 then minheapChange less m e
  else if m.maxSize ≤ m.size then .ok m
  else do
    let m := { m with size := m.size + 1 }
    let m ← m.put m.size (some e)
    let m := m.setIndex e m.size
    up less m (m.index e)

/-- `minheap_min`. -/
def minheapMin (m : Heap ε) : Exec (Option ε) :=
  if m.size = 0 then .ok none else do return some (← m.get 1)

/-- `minheap_popmin`. -/
def minheapPopmin (m : Heap ε) : Exec (Option ε × Heap ε) :=
  if m.size ≠ 0 then do
    let e ← m.get 1
    let m ← swap m 1 m.size
    let m ← m.put m.size none
    let m := { m with size := m.size - 1 }
    let m ← down less m 1
    return (some e, m.setIndex e 0)
  else .ok (none, m)

/-! ## The entries of a valid heap -/

section Valid

variable [Inhabited ε] {less} {m m' : Heap ε} {S : Set ε}

/-- The element that `m->data[i]` points to, where there is one. -/
def Heap.entry (m : Heap ε) (i : ℕ) : ε := (m.data[i]?.join).getD default

/-- The positions `1, …, size` are filled, every element there has its position as `index`, and
no other element of `S` has an `index`. -/
structure ValidOn (S : Set ε) (m : Heap ε) : Prop where
  length : m.data.length = m.maxSize
  filled : ∀ i, 1 ≤ i → i ≤ m.size → m.data[i]? = some (some (m.entry i))
  index_entry : ∀ i, 1 ≤ i → i ≤ m.size → m.index (m.entry i) = i
  contained : ∀ e ∈ S, m.index e ≠ 0 → m.index e ≤ m.size ∧ m.entry (m.index e) = e

/-- A heap whose elements are all accounted for. -/
abbrev Valid (m : Heap ε) : Prop := ValidOn Set.univ m

omit [DecidableEq ε] in
theorem valid_minheapCreate (size : ℕ) : Valid (minheapCreate size : Heap ε) where
  length := by simp [minheapCreate]
  filled i h1 h := by simp only [minheapCreate] at h; omega
  index_entry i h1 h := by simp only [minheapCreate] at h; omega
  contained e _ h := absurd rfl h

omit [DecidableEq ε] in
theorem ValidOn.lt_length (v : ValidOn S m) {i : ℕ} (h1 : 1 ≤ i) (h : i ≤ m.size) :
    i < m.data.length := by
  have := v.filled i h1 h
  by_contra hlt
  rw [List.getElem?_eq_none (by omega)] at this
  simp at this

omit [DecidableEq ε] in
theorem ValidOn.get (v : ValidOn S m) {i : ℕ} (h1 : 1 ≤ i) (h : i ≤ m.size) :
    m.get i = .ok (m.entry i) := by
  simp [Heap.get, v.filled i h1 h]

omit [DecidableEq ε] in
theorem ValidOn.entry_injective (v : ValidOn S m) {i j : ℕ} (hi1 : 1 ≤ i) (hi : i ≤ m.size)
    (hj1 : 1 ≤ j) (hj : j ≤ m.size) (h : m.entry i = m.entry j) : i = j := by
  rw [← v.index_entry i hi1 hi, h, v.index_entry j hj1 hj]

omit [DecidableEq ε] in
theorem entry_of_data_eq (h : m'.data = m.data) : m'.entry = m.entry := by
  funext i
  simp [Heap.entry, h]

omit [DecidableEq ε] in
theorem entry_set {i : ℕ} (hi : i < m.data.length) (x : ε) (h : m'.data = m.data.set i (some x)) :
    m'.entry = Function.update m.entry i x := by
  funext k
  simp only [Heap.entry, h]
  obtain rfl | hk := eq_or_ne k i
  · simp [hi]
  · simp [Function.update_of_ne hk, List.getElem?_set_ne hk.symm, Heap.entry]

/-- `m'` is the heap `m` with its entries rearranged as `d`. -/
structure Rearranged (S : Set ε) (m m' : Heap ε) (d : ℕ → ε) : Prop where
  valid : ValidOn S m'
  entry : m'.entry = d
  size : m'.size = m.size
  maxSize : m'.maxSize = m.maxSize
  mem : ∀ i, 1 ≤ i → i ≤ m.size → ∃ j, 1 ≤ j ∧ j ≤ m.size ∧ m'.entry i = m.entry j
  index_of_not_mem : ∀ e, (∀ i, 1 ≤ i → i ≤ m.size → m.entry i ≠ e) → m'.index e = m.index e

omit [DecidableEq ε] in
theorem Rearranged.refl (v : ValidOn S m) : Rearranged S m m m.entry :=
  ⟨v, rfl, rfl, rfl, fun i h1 h => ⟨i, h1, h, rfl⟩, fun _ _ => rfl⟩

/-- The heap after `swap`, on positions that hold elements. -/
def swapped (m : Heap ε) (i j : ℕ) : Heap ε where
  size := m.size
  maxSize := m.maxSize
  data := (m.data.set i (some (m.entry j))).set j (some (m.entry i))
  index := Function.update (Function.update m.index (m.entry j) i) (m.entry i) j

section Swap

variable {i j : ℕ} (v : ValidOn S m) (hi1 : 1 ≤ i) (hi : i ≤ m.size) (hj1 : 1 ≤ j)
  (hj : j ≤ m.size)

include v hi1 hi hj1 hj

theorem swap_eq : swap m i j = .ok (swapped m i j) := by
  have hli := v.lt_length hi1 hi
  have hlj := v.lt_length hj1 hj
  simp [swap, v.get hi1 hi, v.get hj1 hj, Heap.put, hli, hlj, swapped,
    Heap.setIndex]

theorem entry_swapped : (swapped m i j).entry = m.entry ∘ Equiv.swap i j := by
  have hli := v.lt_length hi1 hi
  have hlj := v.lt_length hj1 hj
  set m₁ : Heap ε := { m with data := m.data.set i (some (m.entry j)) }
  rw [entry_set (m := m₁) (by simpa [m₁] using hlj) (m.entry i) rfl,
    entry_set hli (m.entry j) rfl]
  funext k
  obtain rfl | hkj := eq_or_ne k j
  · simp
  obtain rfl | hki := eq_or_ne k i
  · simp [Function.update_of_ne hkj]
  · simp [Function.update_of_ne hkj, Function.update_of_ne hki,
      Equiv.swap_apply_of_ne_of_ne hki hkj]

theorem index_swapped {k : ℕ} (hk1 : 1 ≤ k) (hk : k ≤ m.size) :
    (swapped m i j).index (m.entry (Equiv.swap i j k)) = k := by
  simp only [swapped]
  obtain rfl | hkj := eq_or_ne k j
  · simp
  obtain rfl | hki := eq_or_ne k i
  · have : m.entry j ≠ m.entry k := fun h => hkj (v.entry_injective hj1 hj hk1 hk h).symm
    simp [Function.update_of_ne this]
  · have hj' : m.entry k ≠ m.entry j := fun h => hkj (v.entry_injective hk1 hk hj1 hj h)
    have hi' : m.entry k ≠ m.entry i := fun h => hki (v.entry_injective hk1 hk hi1 hi h)
    rw [Equiv.swap_apply_of_ne_of_ne hki hkj, Function.update_of_ne hi',
      Function.update_of_ne hj', v.index_entry k hk1 hk]

omit v hi1 hi hj1 hj in
theorem index_swapped_of_ne {e : ε} (hei : e ≠ m.entry i) (hej : e ≠ m.entry j) :
    (swapped m i j).index e = m.index e := by
  simp [swapped, Function.update_of_ne hei, Function.update_of_ne hej]

theorem rearranged_swapped : Rearranged S m (swapped m i j) (m.entry ∘ Equiv.swap i j) := by
  have hentry := entry_swapped v hi1 hi hj1 hj
  have hli := v.lt_length hi1 hi
  have hlj := v.lt_length hj1 hj
  refine ⟨⟨?_, fun k hk1 hk => ?_, fun k hk1 hk => ?_, fun e he hne => ?_⟩, hentry, rfl, rfl,
    fun k hk1 hk => ?_, fun e he => index_swapped_of_ne (he i hi1 hi).symm (he j hj1 hj).symm⟩
  · simp [swapped, v.length]
  · rw [hentry]
    simp only [swapped, Function.comp_apply]
    obtain rfl | hkj := eq_or_ne k j
    · simp [hlj]
    obtain rfl | hki := eq_or_ne k i
    · rw [List.getElem?_set_ne hkj.symm]
      simp [hli]
    · rw [List.getElem?_set_ne hkj.symm, List.getElem?_set_ne hki.symm,
        Equiv.swap_apply_of_ne_of_ne hki hkj, v.filled k hk1 hk]
  · rw [hentry]
    exact index_swapped v hi1 hi hj1 hj hk1 hk
  · -- the two elements moved, or an element elsewhere
    have key : ∀ k, 1 ≤ k → k ≤ m.size → e = m.entry k →
        (swapped m i j).index e ≤ m.size ∧
          (swapped m i j).entry ((swapped m i j).index e) = e := by
      rintro k hk1 hk rfl
      have := index_swapped v hi1 hi hj1 hj (k := Equiv.swap i j k)
        (by rw [Equiv.swap_apply_def]; split_ifs <;> omega)
        (by rw [Equiv.swap_apply_def]; split_ifs <;> omega)
      rw [Equiv.swap_apply_self] at this
      rw [this, hentry, Function.comp_apply, Equiv.swap_apply_self]
      exact ⟨by rw [Equiv.swap_apply_def]; split_ifs <;> omega, rfl⟩
    obtain rfl | hei := eq_or_ne e (m.entry i)
    · exact key i hi1 hi rfl
    obtain rfl | hej := eq_or_ne e (m.entry j)
    · exact key j hj1 hj rfl
    rw [index_swapped_of_ne hei hej] at hne
    obtain ⟨hle, heq⟩ := v.contained e he hne
    exact key _ (by omega) hle heq.symm
  · rw [hentry]
    refine ⟨Equiv.swap i j k, ?_, ?_, rfl⟩ <;> rw [Equiv.swap_apply_def] <;> split_ifs <;> omega

end Swap

omit [DecidableEq ε] in
theorem Rearranged.trans {m'' : Heap ε} {d d' : ℕ → ε} (h : Rearranged S m m' d)
    (h' : Rearranged S m' m'' d') : Rearranged S m m'' d' where
  valid := h'.valid
  entry := h'.entry
  size := h'.size.trans h.size
  maxSize := h'.maxSize.trans h.maxSize
  mem i h1 hi := by
    obtain ⟨j, hj1, hj, hij⟩ := h'.mem i h1 (by rw [h.size]; exact hi)
    obtain ⟨k, hk1, hk, hjk⟩ := h.mem j hj1 (by rw [← h.size]; exact hj)
    exact ⟨k, hk1, hk, hij.trans hjk⟩
  index_of_not_mem e he := by
    rw [h'.index_of_not_mem e fun i h1 hi => ?_, h.index_of_not_mem e he]
    obtain ⟨j, hj1, hj, hij⟩ := h.mem i h1 (by rw [← h.size]; exact hi)
    rw [hij]
    exact he j hj1 hj

/-! ## The code acts as the sifts -/

theorem upLoop_spec {fuel i : ℕ} (v : ValidOn S m) (hi : i ≤ m.size) (hf : i ≤ fuel) :
    ∃ m', upLoop less (fuel + 1) m i = .ok m' ∧
      Rearranged S m m' (siftUp less (fuel + 1) m.entry i) := by
  induction fuel generalizing m i with
  | zero =>
    obtain rfl : i = 0 := by omega
    exact ⟨m, by simp [upLoop, parent], by simpa [siftUp] using Rearranged.refl v⟩
  | succ fuel ih =>
    by_cases h0 : i / 2 = 0
    · rw [upLoop, siftUp]
      simp only [parent, h0, ↓reduceIte]
      exact ⟨m, rfl, .refl v⟩
    have hx := v.get (show 1 ≤ i by omega) hi
    have hy := v.get (show 1 ≤ i / 2 by omega) (by omega)
    rw [upLoop, siftUp]
    simp only [parent, h0, ↓reduceIte, hx, hy, Exec.ok_bind]
    cases hl : less (m.entry i) (m.entry (i / 2)) with
    | true =>
      have hr := rearranged_swapped v (by omega) hi (show 1 ≤ i / 2 by omega) (by omega)
      obtain ⟨m', hm', hr'⟩ := ih hr.valid (i := i / 2) (by rw [hr.size]; omega) (by omega)
      rw [hr.entry] at hr'
      refine ⟨m', ?_, hr.trans hr'⟩
      rw [swap_eq v (by omega) hi (show 1 ≤ i / 2 by omega) (by omega)]
      exact hm'
    | false => exact ⟨m, rfl, .refl v⟩

variable (less) in
theorem up_spec {i : ℕ} (v : ValidOn S m) (hi : i ≤ m.size) :
    ∃ m', up less m i = .ok m' ∧ Rearranged S m m' (siftUp less (i + 1) m.entry i) :=
  upLoop_spec v hi le_rfl

omit [DecidableEq ε] in
theorem pick_spec {c k : ℕ} (v : ValidOn S m) (hc : 1 ≤ c) (hk1 : 1 ≤ k)
    (hk : c < m.size → k ≤ m.size) :
    pick less m c k = .ok (if c < m.size ∧ less (m.entry c) (m.entry k) then c else k) := by
  unfold pick
  split_ifs with h h' h'
  · simp [v.get hc h.le, v.get hk1 (hk h), h'.2]
  · have : ¬ less (m.entry c) (m.entry k) = true := fun hl => h' ⟨h, hl⟩
    simp [v.get hc h.le, v.get hk1 (hk h), this]
  · exact absurd h'.1 h
  · rfl

/-- One call of `down`: the two comparisons pick the least child, of those before the last
position. -/
theorem downLoop_succ (less : ε → ε → Bool) (fuel : ℕ) {i : ℕ} (v : ValidOn S m) (hi : 1 ≤ i) :
    downLoop less (fuel + 1) m i =
      if minChild less m.size m.entry i ≠ i then do
        let m' ← swap m i (minChild less m.size m.entry i)
        downLoop less fuel m' (minChild less m.size m.entry i)
      else .ok m := by
  rw [downLoop, pick_spec v (by unfold left; omega) hi (by unfold left; omega), Exec.ok_bind,
    pick_spec v (by unfold right; omega) (by unfold left; split_ifs <;> omega)
      (by unfold left right; split_ifs <;> omega), Exec.ok_bind]
  have hmin : (if right i < m.size ∧ less (m.entry (right i)) (m.entry
      (if left i < m.size ∧ less (m.entry (left i)) (m.entry i) then left i else i)) then right i
      else if left i < m.size ∧ less (m.entry (left i)) (m.entry i) then left i else i) =
      minChild less m.size m.entry i := by
    simp only [minChild, left, right, mul_comm i 2]
  rw [hmin]
  rfl

theorem downLoop_spec {fuel i : ℕ} (v : ValidOn S m) (hi : 1 ≤ i) (hf : m.size ≤ fuel + i) :
    ∃ m', downLoop less (fuel + 1) m i = .ok m' ∧
      Rearranged S m m' (siftDown less m.size (fuel + 1) m.entry i) := by
  induction fuel generalizing m i with
  | zero =>
    have hc : minChild less m.size m.entry i = i := by
      by_contra hc
      have := minChild_lt hc
      have := lt_minChild hi hc
      omega
    refine ⟨m, by simp [downLoop_succ less 0 v hi, hc], ?_⟩
    simpa [siftDown, hc] using Rearranged.refl v
  | succ fuel ih =>
    rw [downLoop_succ less _ v hi, siftDown]
    by_cases hc : minChild less m.size m.entry i = i
    · exact ⟨m, by simp [hc], by simpa [hc] using Rearranged.refl v⟩
    have hlt := minChild_lt hc
    have hgt := lt_minChild hi hc
    simp only [if_neg hc, if_pos (show minChild less m.size m.entry i ≠ i from hc)]
    generalize minChild less m.size m.entry i = c at *
    have hr := rearranged_swapped v hi (show i ≤ m.size by omega) (show 1 ≤ c by omega) hlt.le
    obtain ⟨m', hm', hr'⟩ := ih hr.valid (i := c) (by omega) (by rw [hr.size]; omega)
    rw [hr.entry, hr.size] at hr'
    refine ⟨m', ?_, hr.trans hr'⟩
    rw [swap_eq v hi (by omega) (by omega) hlt.le]
    exact hm'

variable (less) in
theorem down_spec {i : ℕ} (v : ValidOn S m) (hi : 1 ≤ i) :
    ∃ m', down less m i = .ok m' ∧
      Rearranged S m m' (siftDown less m.size (m.size + 1) m.entry i) :=
  downLoop_spec v hi (by omega)

/-! ## The operations on a valid heap -/

/-- `minheap_change` of a contained element sifts it down, the last position left out, and then
sifts up from where it was. -/
theorem minheapChange_spec (less : ε → ε → Bool) {e : ε} (v : Valid m) (he : m.index e ≠ 0) :
    ∃ m', minheapChange less m e = .ok m' ∧ Rearranged Set.univ m m'
      (siftUp less (m.index e + 1) (siftDown less m.size (m.size + 1) m.entry (m.index e))
        (m.index e)) := by
  obtain ⟨m₁, h₁, r₁⟩ := down_spec less v (show 1 ≤ m.index e by omega)
  obtain ⟨m₂, h₂, r₂⟩ := up_spec less r₁.valid
    (show m.index e ≤ m₁.size by rw [r₁.size]; exact (v.contained e trivial he).1)
  rw [r₁.entry] at r₂
  exact ⟨m₂, by simp [minheapChange, h₁, h₂], r₁.trans r₂⟩

/-- The heap with `e` in the next free position. -/
def pushed (m : Heap ε) (e : ε) : Heap ε where
  size := m.size + 1
  maxSize := m.maxSize
  data := m.data.set (m.size + 1) (some e)
  index := Function.update m.index e (m.size + 1)

theorem valid_pushed {e : ε} (v : Valid m) (he : m.index e = 0) (hroom : m.size + 1 < m.maxSize) :
    Valid (pushed m e) ∧ (pushed m e).entry = Function.update m.entry (m.size + 1) e := by
  have hlt : m.size + 1 < m.data.length := by rw [v.length]; exact hroom
  have hentry : (pushed m e).entry = Function.update m.entry (m.size + 1) e :=
    entry_set hlt e rfl
  have hne : ∀ i, 1 ≤ i → i ≤ m.size → m.entry i ≠ e := by
    rintro i h1 h rfl
    rw [v.index_entry i h1 h] at he
    omega
  refine ⟨⟨by simp [pushed, v.length], fun i h1 h => ?_, fun i h1 h => ?_, fun x _ hx => ?_⟩,
    hentry⟩
  · rw [hentry]
    simp only [pushed] at h ⊢
    obtain rfl | hi := eq_or_ne i (m.size + 1)
    · simp [hlt]
    · rw [List.getElem?_set_ne hi.symm, Function.update_of_ne hi, v.filled i h1 (by omega)]
  · rw [hentry]
    simp only [pushed] at h ⊢
    obtain rfl | hi := eq_or_ne i (m.size + 1)
    · simp
    · rw [Function.update_of_ne hi, Function.update_of_ne (hne i h1 (by omega)),
        v.index_entry i h1 (by omega)]
  · rw [hentry]
    simp only [pushed] at hx ⊢
    obtain rfl | hxe := eq_or_ne x e
    · simp
    · rw [Function.update_of_ne hxe] at hx ⊢
      obtain ⟨hle, heq⟩ := v.contained x trivial hx
      rw [Function.update_of_ne (by omega)]
      exact ⟨by omega, heq⟩

/-- `minheap_insert` of a new element appends it and sifts it up. -/
theorem minheapInsert_spec (less : ε → ε → Bool) {e : ε} (v : Valid m) (he : m.index e = 0)
    (hroom : m.size + 1 < m.maxSize) :
    ∃ m', minheapInsert less m e = .ok m' ∧ Rearranged Set.univ (pushed m e) m'
      (siftUp less (m.size + 2) (Function.update m.entry (m.size + 1) e) (m.size + 1)) := by
  obtain ⟨v', hentry⟩ := valid_pushed v he hroom
  obtain ⟨m', hm', r⟩ := up_spec less v' (show m.size + 1 ≤ (pushed m e).size from le_rfl)
  rw [hentry] at r
  refine ⟨m', ?_, r⟩
  have hlt : m.size + 1 < m.data.length := by rw [v.length]; exact hroom
  have hfull : ¬ m.maxSize ≤ m.size := by omega
  simpa [minheapInsert, he, hfull, Heap.put, hlt, Heap.setIndex, pushed] using hm'

/-- The heap with its first entry replaced by the last, and the last position cleared. -/
def popped (m : Heap ε) : Heap ε where
  size := m.size - 1
  maxSize := m.maxSize
  data := (swapped m 1 m.size).data.set m.size none
  index := (swapped m 1 m.size).index

theorem validOn_popped (v : Valid m) (hs : m.size ≠ 0) :
    ValidOn {m.entry 1}ᶜ (popped m) ∧ (popped m).index (m.entry 1) = m.size ∧
      ∀ i, i < m.size → (popped m).entry i = Function.update m.entry 1 (m.entry m.size) i := by
  have r := rearranged_swapped v le_rfl (by omega) (show 1 ≤ m.size by omega) le_rfl
  have hget : ∀ i, i < m.size → (popped m).data[i]? = (swapped m 1 m.size).data[i]? := by
    intro i hi
    simp only [popped]
    rw [List.getElem?_set_ne (by omega)]
  have hsw : ∀ i, i < m.size → (popped m).entry i = (swapped m 1 m.size).entry i := by
    intro i hi
    simp [Heap.entry, hget i hi]
  have hentry : ∀ i, i < m.size →
      (popped m).entry i = Function.update m.entry 1 (m.entry m.size) i := by
    intro i hi
    rw [hsw i hi, r.entry, Function.comp_apply]
    obtain rfl | h1 := eq_or_ne i 1
    · simp
    · rw [Function.update_of_ne h1, Equiv.swap_apply_of_ne_of_ne h1 (by omega)]
  have hidx : (popped m).index (m.entry 1) = m.size := by simp [popped, swapped]
  refine ⟨⟨by simpa [popped, r.maxSize] using r.valid.length, fun i h1 h => ?_, fun i h1 h => ?_,
    fun e he hne => ?_⟩, hidx, hentry⟩
  · simp only [popped] at h
    rw [hget i (by omega), hsw i (by omega)]
    exact r.valid.filled i h1 (by rw [r.size]; omega)
  · simp only [popped] at h
    rw [hsw i (by omega)]
    exact r.valid.index_entry i h1 (by rw [r.size]; omega)
  · obtain ⟨hle, heq⟩ := r.valid.contained e trivial hne
    rw [r.size] at hle
    -- the element at the last position is the one popped
    have hlast : (swapped m 1 m.size).index e ≠ m.size := by
      intro hl
      rw [hl, r.entry] at heq
      exact he (by simpa using heq.symm)
    have hlt : (popped m).index e < m.size := by
      simp only [popped]
      omega
    refine ⟨by simp only [popped] at hlt ⊢; omega, ?_⟩
    rw [hsw _ hlt]
    exact heq

/-- `minheap_popmin` of a heap that is not empty returns the first entry and sifts the last one
down from the first position, the new last position left out. -/
theorem minheapPopmin_spec (less : ε → ε → Bool) (v : Valid m) (hs : m.size ≠ 0) :
    ∃ m', minheapPopmin less m = .ok (some (m.entry 1), m') ∧ Valid m' ∧
      m'.size = m.size - 1 ∧ m'.maxSize = m.maxSize ∧
      (∀ i, 1 ≤ i → i ≤ m'.size → ∃ j, 1 ≤ j ∧ j ≤ m.size ∧ m'.entry i = m.entry j) ∧
      m'.entry = siftDown less (m.size - 1) m.size (popped m).entry 1 := by
  obtain ⟨v', hidx, hpop⟩ := validOn_popped v hs
  obtain ⟨m₁, h₁, r⟩ := down_spec less v' le_rfl
  have hsize : (popped m).size + 1 = m.size := by simp only [popped]; omega
  have hnot : ∀ i, 1 ≤ i → i ≤ m₁.size → m₁.entry i ≠ m.entry 1 := by
    intro i h1 h heq
    have h2 := r.valid.index_entry i h1 h
    rw [heq, r.index_of_not_mem, hidx] at h2
    · rw [r.size] at h
      omega
    · intro j hj1 hj hje
      have := v'.index_entry j hj1 hj
      rw [hje, hidx] at this
      omega
  refine ⟨m₁.setIndex (m.entry 1) 0, ?_, ⟨r.valid.length, r.valid.filled, fun i h1 h => ?_,
    fun e _ he => ?_⟩, by rw [← hsize]; exact r.size, r.maxSize, fun i h1 h => ?_, ?_⟩
  · have hlt := v.lt_length (show 1 ≤ m.size by omega) le_rfl
    have hs1 : 1 ≤ m.size := by omega
    simp only [minheapPopmin, if_pos hs, v.get le_rfl hs1, Exec.ok_bind,
      swap_eq v le_rfl hs1 hs1 le_rfl, Heap.put]
    rw [if_pos (by simpa [swapped] using hlt)]
    simp only [Exec.ok_bind]
    change (down less (popped m) 1 >>= _) = _
    rw [h₁]
    rfl
  · simp only [Heap.setIndex]
    change Function.update m₁.index (m.entry 1) 0 (m₁.entry i) = i
    rw [Function.update_of_ne (hnot i h1 h)]
    exact r.valid.index_entry i h1 h
  · simp only [Heap.setIndex] at he ⊢
    obtain rfl | hne := eq_or_ne e (m.entry 1)
    · simp at he
    · rw [Function.update_of_ne hne] at he ⊢
      exact r.valid.contained e hne he
  · obtain ⟨j, hj1, hj, heq⟩ := r.mem i h1 (by rw [← r.size]; exact h)
    change ∃ j, 1 ≤ j ∧ j ≤ m.size ∧ m₁.entry i = m.entry j
    rw [heq, hpop j (by omega)]
    obtain rfl | hj1' := eq_or_ne j 1
    · exact ⟨m.size, by omega, le_rfl, Function.update_self ..⟩
    · exact ⟨j, hj1, by omega, Function.update_of_ne hj1' ..⟩
  · have hd := r.entry
    rw [hsize] at hd
    exact hd

/-! ## Membership -/

/-- The elements of a heap. -/
def members (m : Heap ε) : Finset ε := (Finset.Icc 1 m.size).image m.entry

theorem mem_members (v : Valid m) {e : ε} : e ∈ members m ↔ m.index e ≠ 0 := by
  rw [members, Finset.mem_image]
  constructor
  · rintro ⟨i, hi, rfl⟩
    obtain ⟨h1, h⟩ := Finset.mem_Icc.mp hi
    rw [v.index_entry i h1 h]
    omega
  · intro he
    obtain ⟨hle, heq⟩ := v.contained e trivial he
    exact ⟨m.index e, Finset.mem_Icc.mpr ⟨by omega, hle⟩, heq⟩

theorem card_members (v : Valid m) : (members m).card = m.size := by
  rw [members, Finset.card_image_of_injOn, Nat.card_Icc, Nat.add_sub_cancel]
  intro i hi j hj hij
  obtain ⟨hi1, hi⟩ := Finset.mem_Icc.mp (Finset.mem_coe.mp hi)
  obtain ⟨hj1, hj⟩ := Finset.mem_Icc.mp (Finset.mem_coe.mp hj)
  exact v.entry_injective hi1 hi hj1 hj hij

/-- A heap whose entries are all among those of another. -/
theorem members_subset {m' : Heap ε}
    (h : ∀ i, 1 ≤ i → i ≤ m'.size → ∃ j, 1 ≤ j ∧ j ≤ m.size ∧ m'.entry i = m.entry j) :
    members m' ⊆ members m := by
  intro y hy
  obtain ⟨i, hi, rfl⟩ := Finset.mem_image.mp hy
  obtain ⟨hi1, hi⟩ := Finset.mem_Icc.mp hi
  obtain ⟨j, hj1, hj, heq⟩ := h i hi1 hi
  rw [heq]
  exact Finset.mem_image_of_mem _ (Finset.mem_Icc.mpr ⟨hj1, hj⟩)

/-- Rearranging the entries neither adds nor loses one. -/
theorem index_ne_zero_of_rearranged {m' : Heap ε} {d : ℕ → ε} (v : Valid m)
    (r : Rearranged Set.univ m m' d) (x : ε) : m'.index x ≠ 0 ↔ m.index x ≠ 0 := by
  have heq : members m' = members m :=
    Finset.eq_of_subset_of_card_le (members_subset (r.size ▸ r.mem))
      (by rw [card_members r.valid, card_members v, r.size])
  rw [← mem_members r.valid, heq, mem_members v]

/-- `minheap_insert` of a new element adds it, if there is a position for it. -/
theorem minheapInsert_room (less : ε → ε → Bool) {e : ε} (v : Valid m) (he : m.index e = 0)
    (hroom : m.size + 1 < m.maxSize) :
    ∃ m', minheapInsert less m e = .ok m' ∧ Valid m' ∧ m'.maxSize = m.maxSize ∧
      ∀ x, m'.index x ≠ 0 ↔ m.index x ≠ 0 ∨ x = e := by
  obtain ⟨m', hm', r⟩ := minheapInsert_spec less v he hroom
  obtain ⟨vp, hentry⟩ := valid_pushed v he hroom
  refine ⟨m', hm', r.valid, r.maxSize, fun x => ?_⟩
  rw [index_ne_zero_of_rearranged vp r]
  obtain rfl | hx := eq_or_ne x e
  · simp [pushed]
  · simp [pushed, hx]

/-- Without one it refuses the element if there are no positions at all, and else writes past the
last one. -/
theorem minheapInsert_full (less : ε → ε → Bool) {e : ε} (v : Valid m) (he : m.index e = 0)
    (hroom : ¬ m.size + 1 < m.maxSize) :
    (minheapInsert less m e = .ok m ∧ m.maxSize = 0) ∨
      minheapInsert less m e = .error .outOfBounds := by
  by_cases hfull : m.maxSize ≤ m.size
  · refine .inl ⟨by simp [minheapInsert, he, hfull], ?_⟩
    by_contra h0
    have := v.lt_length (show 1 ≤ m.size by omega) le_rfl
    rw [v.length] at this
    omega
  · refine .inr ?_
    have hlt : ¬ m.size + 1 < m.data.length := by rw [v.length]; exact hroom
    simp [minheapInsert, he, hfull, Heap.put, hlt]

/-- `minheap_insert` of a new element adds it, unless the heap has no room at all or the write of
the last position is out of bounds. -/
theorem minheapInsert_members (less : ε → ε → Bool) {e : ε} (v : Valid m) (he : m.index e = 0) :
    (∃ m', minheapInsert less m e = .ok m' ∧ Valid m' ∧ m'.maxSize = m.maxSize ∧
      ∀ x, m'.index x ≠ 0 ↔ m.index x ≠ 0 ∨ x = e) ∨
    (minheapInsert less m e = .ok m ∧ m.maxSize = 0) ∨
    minheapInsert less m e = .error .outOfBounds := by
  by_cases hroom : m.size + 1 < m.maxSize
  · exact .inl (minheapInsert_room less v he hroom)
  · exact .inr (minheapInsert_full less v he hroom)

/-- `minheap_popmin` takes off the first entry and no other. -/
theorem minheapPopmin_members (less : ε → ε → Bool) (v : Valid m) (hs : m.size ≠ 0) :
    ∃ m', minheapPopmin less m = .ok (some (m.entry 1), m') ∧ Valid m' ∧
      m'.size = m.size - 1 ∧ m'.maxSize = m.maxSize ∧
      ∀ x, m'.index x ≠ 0 ↔ m.index x ≠ 0 ∧ x ≠ m.entry 1 := by
  obtain ⟨m', hm', v', hsize, hmax, hmem, -⟩ := minheapPopmin_spec less v hs
  have hs1 : 1 ≤ m.size := by omega
  have hzero : m'.index (m.entry 1) = 0 := by
    have hpop := hm'
    simp only [minheapPopmin, if_pos hs, v.get le_rfl hs1, Exec.ok_bind] at hpop
    obtain ⟨m₁, -, hpop⟩ := Exec.bind_eq_ok.mp hpop
    obtain ⟨m₂, -, hpop⟩ := Exec.bind_eq_ok.mp hpop
    obtain ⟨m₃, -, hpop⟩ := Exec.bind_eq_ok.mp hpop
    obtain ⟨-, rfl⟩ := Prod.mk.inj (Except.ok.inj hpop)
    exact Function.update_self ..
  refine ⟨m', hm', v', hsize, hmax, fun x => ?_⟩
  have hsub : members m' ⊆ (members m).erase (m.entry 1) := by
    refine Finset.subset_erase.mpr ⟨members_subset hmem, fun hfirst => ?_⟩
    exact (mem_members v').mp hfirst hzero
  have hfirst : m.entry 1 ∈ members m :=
    Finset.mem_image_of_mem _ (Finset.mem_Icc.mpr ⟨le_rfl, hs1⟩)
  have heq : members m' = (members m).erase (m.entry 1) := by
    refine Finset.eq_of_subset_of_card_le hsub ?_
    rw [Finset.card_erase_of_mem hfirst, card_members v', card_members v, hsize]
  rw [← mem_members v', heq, Finset.mem_erase, mem_members v, and_comm]

end Valid

end Kendylib.MinHeap
