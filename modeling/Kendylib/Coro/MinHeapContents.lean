import Kendylib.Coro.MinHeap
import Kendylib.Foundations.Run

/-!
# What is in the heap

A run of the heap here is any series of calls, each with a test `less` of its own: nothing is asked
of the test. The set of the elements that are inside is recorded beside the heap.

* `Contains` says that the positions `1, …, size` hold exactly these elements, each once, with its
  position as `index`. It holds along every run that keeps fewer than `max_size` elements
  (`contains_of_below`).
* Positions count from `1`, and so the position of the last of `max_size` elements is outside of
  the array, and so is that of the last element in the scratch array of `minheap_remove`. The
  accesses of a run are in bounds exactly if it puts in fewer than `max_size` elements and removes
  an element only when it is the only one (`inBounds_iff_roomy`).
-/

namespace Kendylib.MinHeap

variable {ε : Type} [DecidableEq ε] (less : ε → ε → Bool)

/-! ## Removing an element -/

/-- The first loop of `minheap_remove` from position `i` on, with the scratch array filled up to
`c`. -/
def removeLoop (e : ε) : ℕ → Heap ε → List (Option ε) → ℕ → ℕ →
    Exec (Heap ε × List (Option ε) × ℕ)
  | 0, m, back, _, c => .ok (m, back, c)
  | rounds + 1, m, back, i, c => do
    let x ← m.get i
    let m := m.setIndex x 0
    if x ≠ e then
      if c < back.length then removeLoop e rounds m (back.set c (some x)) (i + 1) (c + 1)
      else .error .outOfBounds
    else removeLoop e rounds m back (i + 1) c

/-- The second loop of `minheap_remove` from entry `i` of the scratch array on. -/
def reinsertLoop (back : List (Option ε)) : ℕ → Heap ε → ℕ → Exec (Heap ε)
  | 0, m, _ => .ok m
  | rounds + 1, m, i =>
    match back[i]? with
    | none => .error .outOfBounds
    | some p => do
      let x ← Exec.deref p
      let m ← minheapInsert less m x
      reinsertLoop back rounds m (i + 1)

/-- `minheap_remove`. -/
def minheapRemove (m : Heap ε) (e : ε) : Exec (Heap ε) := do
  let (m, back, c) ← removeLoop e m.size m (List.replicate (m.size - 1) none) 1 1
  if m.data.length < m.maxSize then .error .outOfBounds
  else
    let m := { m with
      data := List.replicate m.maxSize none ++ m.data.drop m.maxSize
      size := 0 }
    reinsertLoop less back (c - 1) m 1

/-! ## Runs -/

/-- A call on the heap. -/
inductive Call (ε : Type)
  | insert (e : ε)
  | change (e : ε)
  | popmin
  | remove (e : ε)

/-- A heap and the record of the elements that have been put in and not taken out since. -/
structure Tracked (ε : Type) where
  heap : Heap ε
  inside : Finset ε

/-- A heap made by `minheap_create`. -/
def Tracked.start (maxSize : ℕ) : Tracked ε := ⟨minheapCreate maxSize, ∅⟩

/-- A call, with the test as it answers at the time. -/
def trackedStep (s : Tracked ε) : (ε → ε → Bool) × Call ε → Exec (Tracked ε)
  | (less, .insert e) => do
    let h ← minheapInsert less s.heap e
    return ⟨h, insert e s.inside⟩
  | (less, .change e) => do
    let h ← minheapChange less s.heap e
    return ⟨h, s.inside⟩
  | (less, .popmin) => do
    let r ← minheapPopmin less s.heap
    return ⟨r.2, r.1.elim s.inside s.inside.erase⟩
  | (less, .remove e) => do
    let h ← minheapRemove less s.heap e
    return ⟨h, s.inside.erase e⟩

/-- The positions `1, …, size` hold the elements of `S`, each once and with its position as `index`;
the elements outside have the `index` `0`. -/
structure Contains (m : Heap ε) (S : Finset ε) : Prop where
  elements : ∃ l : List ε, l.Nodup ∧ l.toFinset = S ∧ l.length = m.size ∧
    (m.data.drop 1).take m.size = l.map some
  index : ∀ i e, 1 ≤ i → i ≤ m.size → m.data[i]? = some (some e) → m.index e = i
  outside : ∀ e ∉ S, m.index e = 0

/-- The calls that keep fewer than `max_size` elements: an element is put in where there is room for
one more, and changed while it is inside. -/
def Below (s : Tracked ε) : (ε → ε → Bool) × Call ε → Prop
  | (_, .insert e) => e ∈ s.inside ∨ s.inside.card + 1 < s.heap.maxSize
  | (_, .change e) => e ∈ s.inside
  | (_, .popmin) => True
  | (_, .remove _) => False

instance (s : Tracked ε) : DecidablePred (Below s)
  | (_, .insert _) => inferInstanceAs (Decidable (_ ∨ _))
  | (_, .change _) => inferInstanceAs (Decidable (_ ∈ _))
  | (_, .popmin) => isTrue trivial
  | (_, .remove _) => isFalse id

variable [Inhabited ε]

/-- The heap is valid and has the elements of the record. -/
structure TrackedInv (s : Tracked ε) : Prop where
  valid : Valid s.heap
  inside : ∀ e, e ∈ s.inside ↔ s.heap.index e ≠ 0

theorem TrackedInv.card {s : Tracked ε} (I : TrackedInv s) : s.inside.card = s.heap.size := by
  rw [← card_members I.valid]
  congr 1
  ext e
  rw [I.inside, mem_members I.valid]

theorem TrackedInv.contains {s : Tracked ε} (I : TrackedInv s) : Contains s.heap s.inside := by
  have hlen : ∀ i, i < s.heap.size → i + 1 < s.heap.data.length :=
    fun i hi => I.valid.lt_length (Nat.le_add_left 1 i) hi
  refine ⟨⟨(List.range s.heap.size).map fun i => s.heap.entry (i + 1), ?_, ?_, ?_, ?_⟩,
    fun i e h1 h he => ?_, fun e he => ?_⟩
  · refine List.Nodup.map_on (fun i hi j hj hij => ?_) List.nodup_range
    have := I.valid.entry_injective (Nat.le_add_left 1 i) (List.mem_range.mp hi)
      (Nat.le_add_left 1 j) (List.mem_range.mp hj) hij
    omega
  · ext e
    rw [I.inside, ← mem_members I.valid, members, List.mem_toFinset, List.mem_map, Finset.mem_image]
    constructor
    · rintro ⟨i, hi, rfl⟩
      exact ⟨i + 1, Finset.mem_Icc.mpr ⟨Nat.le_add_left 1 i, List.mem_range.mp hi⟩, rfl⟩
    · rintro ⟨i, hi, rfl⟩
      obtain ⟨h1, h⟩ := Finset.mem_Icc.mp hi
      exact ⟨i - 1, List.mem_range.mpr (by omega), by rw [Nat.sub_add_cancel h1]⟩
  · simp
  · refine List.ext_getElem? fun i => ?_
    rw [List.getElem?_take]
    split
    · rename_i hi
      rw [List.getElem?_drop, Nat.add_comm 1 i,
        I.valid.filled (i + 1) (Nat.le_add_left 1 i) hi]
      simp [hi]
    · rename_i hi
      rw [eq_comm, List.getElem?_eq_none]
      simpa using hi
  · have hentry : s.heap.entry i = e := by simp [Heap.entry, he]
    rw [← hentry]
    exact I.valid.index_entry i h1 h
  · by_contra hne
    exact he ((I.inside e).mpr hne)

omit [DecidableEq ε] in
theorem trackedInv_start (maxSize : ℕ) : TrackedInv (.start maxSize : Tracked ε) :=
  ⟨valid_minheapCreate maxSize, fun e => by simp [Tracked.start, minheapCreate]⟩

section Step

variable {less} {s : Tracked ε} {e : ε}

/-- An element inside is moved to where it belongs. -/
theorem change_tracked (less : ε → ε → Bool) (I : TrackedInv s) (he : e ∈ s.inside) :
    ∃ h, minheapChange less s.heap e = .ok h ∧ TrackedInv ⟨h, s.inside⟩ ∧
      h.maxSize = s.heap.maxSize := by
  obtain ⟨h, hh, r⟩ := minheapChange_spec less I.valid ((I.inside e).mp he)
  refine ⟨h, hh, ⟨r.valid, fun x => ?_⟩, r.maxSize⟩
  rw [I.inside, index_ne_zero_of_rearranged I.valid r]

/-- An element is inserted where there is room, or moved if it is inside. -/
theorem insert_tracked (less : ε → ε → Bool) (I : TrackedInv s)
    (hroom : e ∈ s.inside ∨ s.inside.card + 1 < s.heap.maxSize) :
    ∃ h, minheapInsert less s.heap e = .ok h ∧ TrackedInv ⟨h, insert e s.inside⟩ ∧
      h.maxSize = s.heap.maxSize := by
  by_cases he : e ∈ s.inside
  · obtain ⟨h, hh, I', hmax⟩ := change_tracked less I he
    refine ⟨h, ?_, ?_, hmax⟩
    · rwa [minheapInsert, if_pos ((I.inside e).mp he)]
    · rwa [Finset.insert_eq_of_mem he]
  · have hindex : s.heap.index e = 0 := not_not.mp fun h => he ((I.inside e).mpr h)
    have hroom := hroom.resolve_left he
    rw [I.card] at hroom
    obtain ⟨h, hh, v, hmax, hmem⟩ := minheapInsert_room less I.valid hindex hroom
    refine ⟨h, hh, ⟨v, fun x => ?_⟩, hmax⟩
    rw [Finset.mem_insert, I.inside, hmem, or_comm]

/-- The least element is taken out, if there is one. -/
theorem popmin_tracked (less : ε → ε → Bool) (I : TrackedInv s) :
    ∃ r, minheapPopmin less s.heap = .ok r ∧ TrackedInv ⟨r.2, r.1.elim s.inside s.inside.erase⟩ ∧
      r.2.maxSize = s.heap.maxSize := by
  by_cases hs : s.heap.size = 0
  · exact ⟨(none, s.heap), by simp [minheapPopmin, hs], I, rfl⟩
  · obtain ⟨h, hh, v, -, hmax, hmem⟩ := minheapPopmin_members less I.valid hs
    refine ⟨_, hh, ⟨v, fun x => ?_⟩, hmax⟩
    change x ∈ s.inside.erase (s.heap.entry 1) ↔ _
    rw [Finset.mem_erase, I.inside, hmem, and_comm]

/-- **A call** that keeps fewer than `max_size` elements. -/
theorem trackedStep_below (I : TrackedInv s) {call : (ε → ε → Bool) × Call ε}
    (hcall : Below s call) : ∃ s', trackedStep s call = .ok s' ∧ TrackedInv s' ∧
      s'.heap.maxSize = s.heap.maxSize := by
  obtain ⟨less, call⟩ := call
  cases call with
  | insert e =>
    obtain ⟨h, hh, I'⟩ := insert_tracked less I hcall
    exact ⟨_, by rw [trackedStep, hh]; rfl, I'⟩
  | change e =>
    obtain ⟨h, hh, I'⟩ := change_tracked less I hcall
    exact ⟨_, by rw [trackedStep, hh]; rfl, I'⟩
  | popmin =>
    obtain ⟨r, hr, I'⟩ := popmin_tracked less I
    exact ⟨_, by rw [trackedStep, hr]; rfl, I'⟩
  | remove e => exact hcall.elim

end Step

/-- **No element is lost.** In a run that keeps fewer than `max_size` elements every call returns,
and the heap always contains exactly the elements that have been put in and not been popped. -/
theorem contains_of_below (maxSize : ℕ) (calls : List ((ε → ε → Bool) × Call ε))
    (h : Exec.BeforeEach trackedStep Below (.start maxSize) calls) :
    Exec.Always trackedStep (fun s => Contains s.heap s.inside) (.start maxSize) calls ∧
      Exec.FaultsOnly trackedStep (fun _ _ _ => False) (.start maxSize) calls :=
  Exec.always_of_beforeEach (fun _ I => TrackedInv.contains I)
    (fun _ _ I hcall =>
      (trackedStep_below I hcall).imp fun _ h => ⟨h.1, h.2.1⟩) (trackedInv_start maxSize) h

/-- A test that says yes to everything. -/
theorem contains_three_calls :
    Exec.Always trackedStep (fun s => Contains s.heap s.inside) (.start 4 : Tracked (Fin 3))
        [(fun _ _ => true, .insert 0), (fun _ _ => true, .insert 1), (fun _ _ => false, .change 0),
          (fun _ _ => true, .popmin)] ∧
      Exec.FaultsOnly trackedStep (fun _ _ _ => False) (.start 4 : Tracked (Fin 3))
        [(fun _ _ => true, .insert 0), (fun _ _ => true, .insert 1), (fun _ _ => false, .change 0),
          (fun _ _ => true, .popmin)] :=
  contains_of_below 4 _ (by decide +kernel)

/-! ## Bounds -/

/-- The calls about elements that are inside. -/
def Inside (s : Tracked ε) : (ε → ε → Bool) × Call ε → Prop
  | (_, .insert _) => True
  | (_, .change e) => e ∈ s.inside
  | (_, .popmin) => True
  | (_, .remove e) => e ∈ s.inside

/-- The calls that the arrays have room for. -/
def Roomy (s : Tracked ε) : (ε → ε → Bool) × Call ε → Prop
  | (_, .insert e) => e ∈ s.inside ∨ s.inside.card + 1 < s.heap.maxSize
  | (_, .change _) => True
  | (_, .popmin) => True
  | (_, .remove _) => s.inside.card = 1

instance (s : Tracked ε) : DecidablePred (Inside s)
  | (_, .insert _) => isTrue trivial
  | (_, .change _) => inferInstanceAs (Decidable (_ ∈ _))
  | (_, .popmin) => isTrue trivial
  | (_, .remove _) => inferInstanceAs (Decidable (_ ∈ _))

instance (s : Tracked ε) : DecidablePred (Roomy s)
  | (_, .insert _) => inferInstanceAs (Decidable (_ ∨ _))
  | (_, .change _) => isTrue trivial
  | (_, .popmin) => isTrue trivial
  | (_, .remove _) => inferInstanceAs (Decidable (_ = _))

/-- The faults of an access outside of an array, and of an entry that is null. -/
def OutOfArray (f : Fault) : Prop := f = .outOfBounds ∨ f = .nullPointer

/-- No call of the run accesses an entry outside of an array or one that is null. -/
def InBounds (s : Tracked ε) (calls : List ((ε → ε → Bool) × Call ε)) : Prop :=
  Exec.FaultsOnly trackedStep (fun _ _ f => ¬ OutOfArray f) s calls

section Remove

variable {m m' : Heap ε} {e : ε} {back back' : List (Option ε)} {i c c' rounds : ℕ}

omit [DecidableEq ε] [Inhabited ε] in
theorem outOfArray_of_get {f : Fault} (h : m.get i = .error f) : OutOfArray f := by
  unfold Heap.get at h
  split at h
  · exact .inl (Except.error.inj h).symm
  · rename_i p hp
    cases p with
    | none => exact .inr (Except.error.inj h).symm
    | some x => cases h

/-- The first loop of `minheap_remove` ends only if all the elements it saves fit. -/
theorem removeLoop_ok (h : removeLoop e rounds m back i c = .ok (m', back', c'))
    (hget : ∀ j, i ≤ j → j < i + rounds → m.get j = .ok (m.entry j)) :
    c' = c + ((List.range' i rounds).map m.entry).countP (· ≠ e) ∧ (c' = c ∨ c' ≤ back.length) := by
  induction rounds generalizing m back i c with
  | zero =>
    obtain ⟨-, h⟩ := Prod.mk.inj (Except.ok.inj h)
    obtain ⟨-, rfl⟩ := Prod.mk.inj h
    exact ⟨by simp, .inl rfl⟩
  | succ rounds ih =>
    rw [removeLoop, hget i le_rfl (by omega), Exec.ok_bind] at h
    have hkeep : ∀ j, i + 1 ≤ j → j < i + 1 + rounds → (m.setIndex (m.entry i) 0).get j =
        .ok ((m.setIndex (m.entry i) 0).entry j) := by
      intro j h1 h2
      exact hget j (by omega) (by omega)
    have hentry : (m.setIndex (m.entry i) 0).entry = m.entry := entry_of_data_eq rfl
    rw [List.range'_succ, List.map_cons, List.countP_cons]
    by_cases hx : m.entry i = e
    · simp only [hx, ne_eq, not_true_eq_false, if_false] at h
      obtain ⟨hcount, hfit⟩ := ih h (by rwa [hx] at hkeep)
      rw [← hx, hentry, hx] at hcount
      exact ⟨by simpa [hx] using hcount, hfit⟩
    · simp only [ne_eq, hx, not_false_eq_true, if_true] at h
      split at h
      · rename_i hc
        obtain ⟨hcount, hfit⟩ := ih h hkeep
        rw [hentry] at hcount
        refine ⟨?_, .inr ?_⟩
        · simp only [ne_eq, hx, decide_not] at hcount ⊢
          simp only [decide_false, Bool.not_false, if_true]
          omega
        · rw [List.length_set] at hfit
          omega
      · cases h

omit [Inhabited ε] in
theorem removeLoop_error {f : Fault} (h : removeLoop e rounds m back i c = .error f) :
    OutOfArray f := by
  induction rounds generalizing m back i c with
  | zero => cases h
  | succ rounds ih =>
    rw [removeLoop] at h
    cases hx : m.get i with
    | error g =>
      rw [hx, Exec.error_bind, Except.error.injEq] at h
      exact h ▸ outOfArray_of_get hx
    | ok x =>
      rw [hx, Exec.ok_bind] at h
      split at h
      · split at h
        · exact ih h
        · exact .inl (Except.error.inj h).symm
      · exact ih h

/-- An element that is not the only one is not removed: the last of the others does not fit into the
scratch array. -/
theorem minheapRemove_many (less : ε → ε → Bool) (v : Valid m) (he : m.index e ≠ 0)
    (hmany : m.size ≠ 1) : ∃ f, minheapRemove less m e = .error f ∧ OutOfArray f := by
  cases hloop : removeLoop e m.size m (List.replicate (m.size - 1) none) 1 1 with
  | error f => exact ⟨f, by rw [minheapRemove, hloop, Exec.error_bind], removeLoop_error hloop⟩
  | ok r =>
    exfalso
    obtain ⟨m', back', c'⟩ := r
    obtain ⟨hcount, hfit⟩ := removeLoop_ok hloop fun j h1 h => v.get h1 (by omega)
    -- all elements but one are saved
    have hlist : ((List.range' 1 m.size).map m.entry).Nodup := by
      refine List.Nodup.map_on (fun i hi j hj hij => ?_) List.nodup_range'
      rw [List.mem_range'_1] at hi hj
      exact v.entry_injective hi.1 (by omega) hj.1 (by omega) hij
    have hmem : e ∈ (List.range' 1 m.size).map m.entry := by
      obtain ⟨hle, heq⟩ := v.contained e trivial he
      exact List.mem_map.mpr ⟨m.index e, List.mem_range'_1.mpr ⟨by omega, by omega⟩, heq⟩
    have hone : ((List.range' 1 m.size).map m.entry).countP (· = e) = 1 := by
      refine (List.countP_congr fun x _ => ?_).trans (List.count_eq_one_of_mem hlist hmem)
      simp
    have hsplit := List.length_eq_countP_add_countP (· = e) (l := (List.range' 1 m.size).map m.entry)
    rw [hone, List.length_map, List.length_range'] at hsplit
    simp only [decide_eq_true_eq] at hsplit
    rw [List.length_replicate] at hfit
    have := (v.contained e trivial he).1
    simp only [ne_eq] at hcount
    omega

/-- The heap with no element left. -/
def emptied (m : Heap ε) (e : ε) : Heap ε where
  size := 0
  maxSize := m.maxSize
  data := List.replicate m.maxSize none
  index := Function.update m.index e 0

/-- The only element is removed. -/
theorem minheapRemove_one (less : ε → ε → Bool) (v : Valid m) (he : m.index e ≠ 0)
    (hone : m.size = 1) : minheapRemove less m e = .ok (emptied m e) ∧ Valid (emptied m e) := by
  obtain ⟨hle, heq⟩ := v.contained e trivial he
  have hentry : m.entry 1 = e := by
    rwa [show m.index e = 1 by omega] at heq
  have hloop : removeLoop e m.size m (List.replicate (m.size - 1) none) 1 1 =
      .ok (m.setIndex e 0, [], 1) := by
    rw [hone, removeLoop, v.get le_rfl hone.ge, hentry, Exec.ok_bind]
    simp only [ne_eq, not_true_eq_false, if_false, removeLoop]
    rfl
  have hlen : ¬ m.data.length < m.maxSize := by
    rw [v.length]
    exact Nat.lt_irrefl _
  refine ⟨?_, ⟨by simp [emptied], fun i h1 h => ?_, fun i h1 h => ?_, fun x _ hx => ?_⟩⟩
  · rw [minheapRemove, hloop, Exec.ok_bind]
    simp only [Heap.setIndex, hlen, if_false, Nat.sub_self, reinsertLoop, emptied]
    rw [List.drop_of_length_le v.length.le, List.append_nil]
  · simp only [emptied] at h
    omega
  · simp only [emptied] at h
    omega
  · simp only [emptied] at hx ⊢
    obtain rfl | hne := eq_or_ne x e
    · rw [Function.update_self] at hx
      exact absurd rfl hx
    · -- every element inside is the one at position `1`
      rw [Function.update_of_ne hne] at hx
      obtain ⟨hle', heq'⟩ := v.contained x trivial hx
      rw [show m.index x = 1 by omega, hentry] at heq'
      exact absurd heq'.symm hne

end Remove

section Bounds

variable {s : Tracked ε} {e : ε}

theorem remove_tracked (less : ε → ε → Bool) (I : TrackedInv s) (he : e ∈ s.inside)
    (hone : s.inside.card = 1) :
    ∃ h, minheapRemove less s.heap e = .ok h ∧ TrackedInv ⟨h, s.inside.erase e⟩ ∧
      h.maxSize = s.heap.maxSize := by
  obtain ⟨hremove, v⟩ := minheapRemove_one less I.valid ((I.inside e).mp he) (I.card ▸ hone)
  refine ⟨_, hremove, ⟨v, fun x => ?_⟩, rfl⟩
  change x ∈ s.inside.erase e ↔ Function.update s.heap.index e 0 x ≠ 0
  rw [Finset.mem_erase, I.inside]
  obtain rfl | hne := eq_or_ne x e
  · simp
  · simp [hne]

/-- A call that the arrays have room for. -/
theorem trackedStep_roomy (I : TrackedInv s) {call : (ε → ε → Bool) × Call ε}
    (hinside : Inside s call) (hroomy : Roomy s call) :
    ∃ s', trackedStep s call = .ok s' ∧ TrackedInv s' ∧ s'.heap.maxSize = s.heap.maxSize := by
  obtain ⟨less, call⟩ := call
  cases call with
  | insert e => exact trackedStep_below I hroomy
  | change e => exact trackedStep_below I hinside
  | popmin =>
    have hbelow : Below s (less, .popmin) := trivial
    exact trackedStep_below I hbelow
  | remove e =>
    obtain ⟨h, hh, I'⟩ := remove_tracked less I hinside hroomy
    exact ⟨_, by rw [trackedStep, hh]; rfl, I'⟩

/-- **A call that the arrays have no room for** accesses an entry outside of one of them. -/
theorem trackedStep_not_roomy (I : TrackedInv s) (hmax : 1 ≤ s.heap.maxSize)
    {call : (ε → ε → Bool) × Call ε} (hinside : Inside s call) (hroomy : ¬ Roomy s call) :
    ∃ f, trackedStep s call = .error f ∧ OutOfArray f := by
  obtain ⟨less, call⟩ := call
  cases call with
  | insert e =>
    obtain ⟨hout, hfull⟩ := not_or.mp hroomy
    have hindex : s.heap.index e = 0 := not_not.mp fun h => hout ((I.inside e).mpr h)
    rw [I.card] at hfull
    rcases minheapInsert_full less I.valid hindex hfull with ⟨-, hzero⟩ | hfault
    · omega
    · exact ⟨_, by rw [trackedStep, hfault]; rfl, .inl rfl⟩
  | change e => exact absurd trivial hroomy
  | popmin => exact absurd trivial hroomy
  | remove e =>
    have hmany : s.heap.size ≠ 1 := fun h => hroomy (I.card.trans h)
    obtain ⟨f, hf, hout⟩ := minheapRemove_many less I.valid ((I.inside e).mp hinside) hmany
    exact ⟨f, by rw [trackedStep, hf]; rfl, hout⟩

end Bounds

/-- **The accesses of a run are in bounds** exactly if it puts in a new element only where two
positions are left, and removes an element only when it is the only one. -/
theorem inBounds_iff_roomy {maxSize : ℕ} (hmax : 1 ≤ maxSize)
    {calls : List ((ε → ε → Bool) × Call ε)}
    (hinside : Exec.BeforeEach trackedStep Inside (.start maxSize) calls) :
    InBounds (.start maxSize) calls ↔
      Exec.BeforeEach trackedStep Roomy (.start maxSize) calls := by
  have halways : Exec.Always trackedStep (fun _ => True) (.start maxSize : Tracked ε) calls :=
    Exec.always_of_invariant (I := fun _ => True) (C := fun _ _ => True) (fun _ _ => trivial)
      (fun _ _ _ _ _ _ => trivial) trivial (Exec.eachStep_of_forall fun _ _ _ => trivial)
  refine (and_iff_right halways).symm.trans (Exec.safe_iff_beforeEach_of
    (I := fun s => TrackedInv s ∧ 1 ≤ s.heap.maxSize) (A := Inside) (fun _ _ => trivial) ?_ ?_
    ⟨trackedInv_start maxSize, hmax⟩ hinside)
  · rintro s call ⟨I, hmax⟩ hinside hroomy
    obtain ⟨s', hs', I', hsame⟩ := trackedStep_roomy I hinside hroomy
    rw [hs']
    exact ⟨I', hsame ▸ hmax⟩
  · rintro s call ⟨I, hmax⟩ hinside hroomy
    obtain ⟨f, hf, hout⟩ := trackedStep_not_roomy I hmax hinside hroomy
    rw [hf]
    exact not_not.mpr hout

/-- One element in a heap of two positions, put in and removed. -/
theorem inBounds_one_element : InBounds (.start 2 : Tracked (Fin 2))
    [(fun _ _ => true, .insert 0), (fun _ _ => true, .remove 0), (fun _ _ => true, .insert 1)] :=
  (inBounds_iff_roomy (by decide) (by decide +kernel)).mpr (by decide +kernel)

/-- The second element of a heap for two, and the removal of one of two elements. -/
theorem not_inBounds_two_elements :
    ¬ InBounds (.start 2 : Tracked (Fin 2))
        [(fun _ _ => true, .insert 0), (fun _ _ => true, .insert 1)] ∧
      ¬ InBounds (.start 3 : Tracked (Fin 2))
        [(fun _ _ => true, .insert 0), (fun _ _ => true, .insert 1), (fun _ _ => true, .remove 0)] := by
  refine ⟨fun h => h (.inl rfl), fun h => h (.inl rfl)⟩

end Kendylib.MinHeap
