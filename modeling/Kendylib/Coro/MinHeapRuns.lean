import Kendylib.Coro.MinHeap

/-!
# The order of the heap along a run

A run of the heap is a list of inserts, changes of priority and pops, from an empty heap. The test
`less` of the code compares the priorities that the elements have at the time, so a change sets
the priority of an element and then calls `minheap_change`.

`down` leaves out the last position. The step that shows it is described on the state before it:
`Overlooks` says that the entry to be sifted down should end above the last entry. The order holds
after every step of a run, and with it the pops come out least first, exactly when no step of the
run overlooks the last entry (`meets_iff_avoids`).
-/

namespace Kendylib.MinHeap

open BinaryHeap

variable {ε P : Type} [DecidableEq ε] (lt : P → P → Bool)

/-- A heap and the priorities of the elements. -/
structure State (ε P : Type) where
  heap : Heap ε
  prio : ε → P

/-- The calls a user makes. `insert` and `change` set the priority of the element first. -/
inductive Op (ε P : Type)
  | insert (e : ε) (p : P)
  | change (e : ε) (p : P)
  | popmin

/-- An empty heap made by `minheap_create`. -/
def start (maxSize : ℕ) (prio : ε → P) : State ε P := ⟨minheapCreate maxSize, prio⟩

namespace State

/-- The test that the heap was created with. -/
def less (s : State ε P) (l r : ε) : Bool := lt (s.prio l) (s.prio r)

/-- Alter the priority of an element. -/
def setPrio (s : State ε P) (e : ε) (p : P) : State ε P :=
  { s with prio := Function.update s.prio e p }

end State

/-- One call, with the element that `popmin` returns. -/
def step (s : State ε P) : Op ε P → Exec (Option ε × State ε P)
  | .insert e p => do
    let s := s.setPrio e p
    return (none, { s with heap := ← minheapInsert (s.less lt) s.heap e })
  | .change e p => do
    let s := s.setPrio e p
    return (none, { s with heap := ← minheapChange (s.less lt) s.heap e })
  | .popmin => do
    let (e, h) ← minheapPopmin (s.less lt) s.heap
    return (e, { s with heap := h })

/-- The calls that are made on a heap kept below `max_size`: `change` on a contained element,
`insert` of a contained element or with room for one more. -/
def Allowed (s : State ε P) : Op ε P → Prop
  | .insert e _ => s.heap.index e ≠ 0 ∨ s.heap.size + 1 < s.heap.maxSize
  | .change e _ => s.heap.index e ≠ 0
  | .popmin => True

instance (s : State ε P) (op : Op ε P) : Decidable (Allowed s op) := by
  cases op <;> unfold Allowed <;> infer_instance

/-- Every call of the run is allowed. -/
def AllowedRun : State ε P → List (Op ε P) → Prop
  | _, [] => True
  | s, op :: ops => Allowed s op ∧
    match step lt s op with
    | .ok (_, s') => AllowedRun s' ops
    | .error _ => True

instance decidableAllowedRun : (s : State ε P) → (ops : List (Op ε P)) →
    Decidable (AllowedRun lt s ops)
  | _, [] => isTrue trivial
  | s, op :: ops => @instDecidableAnd _ _ _ <|
    match step lt s op with
    | .ok (_, s') => decidableAllowedRun s' ops
    | .error _ => isTrue trivial

variable [Inhabited ε]

/-- No element `data[i]` with `2 ≤ i ≤ size` is less than `data[i / 2]`. -/
def HeapOrdered (s : State ε P) : Prop :=
  Ordered (s.less lt) (s.heap.size + 1) s.heap.entry

/-- No element of the heap is less than `x`. -/
def Least (s : State ε P) (x : ε) : Prop :=
  ∀ i, 1 ≤ i → i ≤ s.heap.size → s.less lt (s.heap.entry i) x = false

/-- The sift that the call makes should end with the last entry of the heap moving up. For a pop
the last entry takes the first position and the one before it becomes the last. -/
def Overlooks (s : State ε P) : Op ε P → Prop
  | .insert e p => s.heap.index e ≠ 0 ∧
    Overlooked ((s.setPrio e p).less lt) s.heap.size s.heap.entry (s.heap.index e)
  | .change e p =>
    Overlooked ((s.setPrio e p).less lt) s.heap.size s.heap.entry (s.heap.index e)
  | .popmin => s.heap.size ≠ 0 ∧ Overlooked (s.less lt) (s.heap.size - 1)
    (Function.update s.heap.entry 1 (s.heap.entry s.heap.size)) 1

instance (s : State ε P) (op : Op ε P) : Decidable (Overlooks lt s op) := by
  cases op <;> unfold Overlooks <;> infer_instance

/-- No call of the run overlooks the last entry. -/
def Avoids : State ε P → List (Op ε P) → Prop
  | _, [] => True
  | s, op :: ops => ¬ Overlooks lt s op ∧
    match step lt s op with
    | .ok (_, s') => Avoids s' ops
    | .error _ => True

instance decidableAvoids : (s : State ε P) → (ops : List (Op ε P)) → Decidable (Avoids lt s ops)
  | _, [] => isTrue trivial
  | s, op :: ops => @instDecidableAnd _ _ _ <|
    match step lt s op with
    | .ok (_, s') => decidableAvoids s' ops
    | .error _ => isTrue trivial

/-- The heap does its work along the run: every call returns and leaves the heap ordered,
`minheap_min` then answers a least element, and so does every `popmin`; an element popped right
after `last` is not less than it. -/
def Meets : State ε P → Option ε → List (Op ε P) → Prop
  | _, _, [] => True
  | s, last, op :: ops => ∃ a s', step lt s op = .ok (a, s') ∧ HeapOrdered lt s' ∧
    (∃ r, minheapMin s'.heap = .ok r ∧ (r = none ↔ s'.heap.size = 0) ∧ ∀ x ∈ r, Least lt s' x) ∧
    (∀ x ∈ a, Least lt s x ∧ ∀ y ∈ last, s.less lt x y = false) ∧ Meets s' a ops

/-! ## One call -/

section Step

variable {lt} [WeakOrder lt] {s : State ε P}

instance : WeakOrder (s.less lt) :=
  inferInstanceAs (IsStrictWeakOrder ε (Order.Preimage s.prio fun a b => lt a b = true))

omit [DecidableEq ε] in
theorem HeapOrdered.least (o : HeapOrdered lt s) : Least lt s (s.heap.entry 1) :=
  fun _ h1 h => o.root h1 (by omega)

omit [DecidableEq ε] in
theorem minheapMin_least (v : Valid s.heap) (o : HeapOrdered lt s) :
    ∃ r, minheapMin s.heap = .ok r ∧ (r = none ↔ s.heap.size = 0) ∧ ∀ x ∈ r, Least lt s x := by
  by_cases h0 : s.heap.size = 0
  · exact ⟨none, by simp [minheapMin, h0], by simp [h0], by simp⟩
  · refine ⟨some (s.heap.entry 1), ?_, by simp [h0], ?_⟩
    · simp [minheapMin, h0, v.get le_rfl (show 1 ≤ s.heap.size by omega)]
    · rintro x ⟨⟩
      exact o.least

/-- Altering the priority of a contained element leaves the order except at its position. -/
theorem orderedExcept_setPrio (v : Valid s.heap) (o : HeapOrdered lt s) (e : ε) (p : P) :
    OrderedExcept ((s.setPrio e p).less lt) (s.heap.size + 1) s.heap.entry (s.heap.index e) := by
  have hne : ∀ i, 1 ≤ i → i < s.heap.size + 1 → i ≠ s.heap.index e →
      (s.setPrio e p).prio (s.heap.entry i) = s.prio (s.heap.entry i) := by
    intro i h1 h hi
    refine Function.update_of_ne (fun heq => hi ?_) _ _
    rw [← heq, v.index_entry i h1 (by omega)]
  refine Ordered.except o fun i j hi1 hi hie hj1 hj hje => ?_
  simp only [State.less, hne i hi1 hi hie, hne j hj1 hj hje]

/-- Altering the priority of an element and calling `minheap_change`. -/
theorem change_spec (v : Valid s.heap) (o : HeapOrdered lt s) {e : ε} (p : P)
    (he : s.heap.index e ≠ 0) :
    ∃ h', minheapChange ((s.setPrio e p).less lt) s.heap e = .ok h' ∧ Valid h' ∧
      (HeapOrdered lt ⟨h', (s.setPrio e p).prio⟩ ↔
        ¬ Overlooked ((s.setPrio e p).less lt) s.heap.size s.heap.entry (s.heap.index e)) := by
  obtain ⟨h', hh', r⟩ := minheapChange_spec ((s.setPrio e p).less lt) v he
  refine ⟨h', hh', r.valid, ?_⟩
  have hsize : (⟨h', (s.setPrio e p).prio⟩ : State ε P).heap.size = s.heap.size := r.size
  unfold HeapOrdered
  rw [hsize]
  simp only [r.entry]
  exact ordered_short_sift_iff (orderedExcept_setPrio v o e p) (by omega) (by omega) (by omega)

theorem insert_spec (v : Valid s.heap) (o : HeapOrdered lt s) {e : ε} (p : P)
    (he : s.heap.index e = 0) (hroom : s.heap.size + 1 < s.heap.maxSize) :
    ∃ h', minheapInsert ((s.setPrio e p).less lt) s.heap e = .ok h' ∧ Valid h' ∧
      HeapOrdered lt ⟨h', (s.setPrio e p).prio⟩ := by
  obtain ⟨h', hh', r⟩ := minheapInsert_spec ((s.setPrio e p).less lt) v he hroom
  refine ⟨h', hh', r.valid, ?_⟩
  have hsize : (⟨h', (s.setPrio e p).prio⟩ : State ε P).heap.size = s.heap.size + 1 := r.size
  have hne : ∀ i, 1 ≤ i → i ≤ s.heap.size →
      (s.setPrio e p).prio (s.heap.entry i) = s.prio (s.heap.entry i) := by
    intro i h1 h
    refine Function.update_of_ne (fun heq => ?_) _ _
    rw [← heq, v.index_entry i h1 h] at he
    omega
  unfold HeapOrdered
  rw [hsize]
  simp only [r.entry]
  refine ordered_siftUp ⟨fun i h2 hi hne1 _ => ?_, fun c hc hc2 _ => by omega⟩
    (fun c hc hc2 => by omega) (by omega) (by omega)
  rw [Function.update_of_ne hne1, Function.update_of_ne (by omega)]
  have := o i h2 (by omega)
  simpa only [State.less, hne i (by omega) (by omega), hne (i / 2) (by omega) (by omega)]
    using this

theorem popmin_spec (v : Valid s.heap) (o : HeapOrdered lt s) (hs : s.heap.size ≠ 0) :
    ∃ h', minheapPopmin (s.less lt) s.heap = .ok (some (s.heap.entry 1), h') ∧ Valid h' ∧
      (∀ i, 1 ≤ i → i ≤ h'.size → ∃ j, 1 ≤ j ∧ j ≤ s.heap.size ∧ h'.entry i = s.heap.entry j) ∧
      (HeapOrdered lt ⟨h', s.prio⟩ ↔ ¬ Overlooks lt s .popmin) := by
  obtain ⟨h', hh', v', hsize, -, hmem, hentry⟩ := minheapPopmin_spec (s.less lt) v hs
  refine ⟨h', hh', v', hmem, ?_⟩
  obtain ⟨-, -, hpop⟩ := validOn_popped v hs
  have hexc : OrderedExcept (s.less lt) (s.heap.size - 1 + 1) (popped s.heap).entry 1 := by
    refine Ordered.except (Ordered.mono o (by omega)) fun i j hi1 hi hie hj1 hj hje => ?_
    rw [hpop i (by omega), hpop j (by omega), Function.update_of_ne hie, Function.update_of_ne hje]
  have hiff := ordered_short_sift_iff (f := s.heap.size) (g := 1) hexc le_rfl (by omega) le_rfl
  rw [siftUp_eq_self (by omega), ← hentry] at hiff
  have hcongr : Overlooked (s.less lt) (s.heap.size - 1) (popped s.heap).entry 1 ↔
      Overlooks lt s .popmin := by
    refine ⟨fun ov => ⟨hs, ov.congr le_rfl fun k _ hk => ?_⟩,
      fun ⟨_, ov⟩ => ov.congr le_rfl fun k _ hk => ?_⟩
    · rw [hpop k (by omega)]
    · rw [hpop k (by omega)]
  rw [← hcongr, ← hiff, ← hsize]
  rfl

/-- **One call** on a valid and ordered heap returns, keeps the heap valid, and keeps it ordered
exactly when it does not overlook the last entry. -/
theorem step_spec (v : Valid s.heap) (o : HeapOrdered lt s) {op : Op ε P} (ha : Allowed s op) :
    ∃ a s', step lt s op = .ok (a, s') ∧ Valid s'.heap ∧
      (HeapOrdered lt s' ↔ ¬ Overlooks lt s op) ∧
      ∀ x ∈ a, x = s.heap.entry 1 ∧ 1 ≤ s.heap.size ∧ s'.prio = s.prio ∧
        ∀ i, 1 ≤ i → i ≤ s'.heap.size →
          ∃ j, 1 ≤ j ∧ j ≤ s.heap.size ∧ s'.heap.entry i = s.heap.entry j := by
  cases op with
  | insert e p =>
    by_cases he : s.heap.index e = 0
    · obtain ⟨h', hh', v', o'⟩ := insert_spec v o p he (ha.resolve_left (absurd he))
      refine ⟨none, ⟨h', (s.setPrio e p).prio⟩, ?_, v', ?_, by simp⟩
      · simp only [step]
        change (minheapInsert _ s.heap e >>= _) = _
        rw [hh']
        rfl
      · simp [o', Overlooks, he]
    · obtain ⟨h', hh', v', hiff⟩ := change_spec v o p he
      refine ⟨none, ⟨h', (s.setPrio e p).prio⟩, ?_, v', ?_, by simp⟩
      · simp only [step]
        change (minheapInsert _ s.heap e >>= _) = _
        rw [minheapInsert, if_pos he, hh']
        rfl
      · simp [hiff, Overlooks, he]
  | change e p =>
    obtain ⟨h', hh', v', hiff⟩ := change_spec v o p ha
    refine ⟨none, ⟨h', (s.setPrio e p).prio⟩, ?_, v', by rw [hiff]; rfl, by simp⟩
    simp only [step]
    change (minheapChange _ s.heap e >>= _) = _
    rw [hh']
    rfl
  | popmin =>
    by_cases hs : s.heap.size = 0
    · refine ⟨none, s, ?_, v, ?_, by simp⟩
      · simp [step, minheapPopmin, hs]
      · simp [Overlooks, hs, o]
    · obtain ⟨h', hh', v', hmem, hiff⟩ := popmin_spec v o hs
      refine ⟨some (s.heap.entry 1), ⟨h', s.prio⟩, by simp [step, hh'], v', hiff, ?_⟩
      rintro x ⟨⟩
      exact ⟨rfl, by omega, rfl, hmem⟩

end Step

/-! ## Runs -/

variable {lt} in
theorem meets_iff_avoids_of_ordered [WeakOrder lt] {s : State ε P} {last : Option ε}
    {ops : List (Op ε P)} (v : Valid s.heap) (o : HeapOrdered lt s)
    (hlast : ∀ y ∈ last, Least lt s y) (ha : AllowedRun lt s ops) :
    Meets lt s last ops ↔ Avoids lt s ops := by
  induction ops generalizing s last with
  | nil => simp [Meets, Avoids]
  | cons op ops ih =>
    obtain ⟨a, s', hstep, v', hiff, hans⟩ := step_spec v o ha.1
    have ha' : AllowedRun lt s' ops := by
      have := ha.2
      rwa [hstep] at this
    -- the element popped is least, and so it is below what stays
    have hleast : ∀ x ∈ a, Least lt s x ∧ ∀ y ∈ last, s.less lt x y = false := by
      intro x hx
      obtain ⟨rfl, hs, -, -⟩ := hans x hx
      exact ⟨o.least, fun y hy => hlast y hy 1 le_rfl hs⟩
    have hnext : ∀ y ∈ a, Least lt s' y := by
      intro y hy i h1 hi
      obtain ⟨rfl, hs, hprio, hmem⟩ := hans y hy
      obtain ⟨j, hj1, hj, heq⟩ := hmem i h1 hi
      rw [heq, State.less, hprio]
      exact o.least j hj1 hj
    simp only [Meets, Avoids, hstep]
    constructor
    · rintro ⟨a', s'', heq, o', -, -, hrest⟩
      obtain ⟨rfl, rfl⟩ := Prod.mk.inj (Except.ok.inj heq)
      exact ⟨hiff.1 o', (ih v' o' hnext ha').1 hrest⟩
    · rintro ⟨hov, hrest⟩
      have o' := hiff.2 hov
      exact ⟨a, s', rfl, o', minheapMin_least v' o', hleast, (ih v' o' hnext ha').2 hrest⟩

/-- **The heap order holds along a run exactly when no call overlooks the last entry.** From an
empty heap, over any strict weak order of the priorities, every call of an allowed run leaves the
heap ordered, with `minheap_min` and `minheap_popmin` answering least elements and pops in a row
never decreasing, if and only if no call of the run sifts an entry down that should have ended
above the last one. -/
theorem meets_iff_avoids [WeakOrder lt] (maxSize : ℕ) (prio : ε → P) (ops : List (Op ε P))
    (ha : AllowedRun lt (start maxSize prio) ops) :
    Meets lt (start maxSize prio) none ops ↔ Avoids lt (start maxSize prio) ops :=
  meets_iff_avoids_of_ordered (valid_minheapCreate maxSize)
    (fun i h2 hi => by simp only [start, minheapCreate] at hi; omega) (by simp) ha

/-- The two pops of this run overlook nothing, so they come out in order. -/
theorem meets_two_pops : Meets (fun a b : ℕ => decide (a < b)) (start 4 fun _ : Fin 3 => 0) none
    [.insert 0 7, .insert 1 5, .change 0 6, .popmin, .popmin] :=
  (meets_iff_avoids _ 4 _ _ (by decide)).2 (by decide)

/-- Three elements put in in order: the pop brings the last of them to the top, above a lesser
one. -/
theorem not_meets_pop_of_three :
    AllowedRun (fun a b : ℕ => decide (a < b)) (start 4 fun _ : Fin 3 => 0)
        [.insert 0 1, .insert 1 2, .insert 2 3, .popmin] ∧
      ¬ Meets (fun a b : ℕ => decide (a < b)) (start 4 fun _ : Fin 3 => 0) none
        [.insert 0 1, .insert 1 2, .insert 2 3, .popmin] := by
  refine ⟨by decide, fun h => ?_⟩
  rw [meets_iff_avoids_of_ordered (valid_minheapCreate 4) (fun i h2 hi => by
    simp only [start, minheapCreate] at hi; omega) (by simp) (by decide)] at h
  exact absurd h (by decide)

end Kendylib.MinHeap
