import Kendylib.Container.ListT
import Kendylib.Foundations.Run

/-!
# Runs of the doubly linked list

A run calls the operations of a list one after another, with any iterators. An iterator whose node
has been freed, or one to a sentinel where an operation needs an element, ends the run with a fault.

- `step_spec`: the nodes of the list are a sequence all along.
- `RemovesFirst`: `list_remove` takes the first element equal to a value out and returns 1, or
  returns 0 and leaves the list as it is if there is none.
- `removesFirst_iff`: it does so exactly if the value is in the list. For any other value
  `list_find` answers the end of the list, where `list_remove` expects a null node, and `list_erase`
  then dereferences the null `next` of the sentinel.
-/

namespace Kendylib.ListT

variable {V : Type}

/-- The operations that change a list; `calloc` tells whether the allocation succeeds. -/
inductive Op (V : Type)
  | insertAfter (it : ListIter) (val : V) (calloc : Bool)
  | insertBefore (it : ListIter) (val : V) (calloc : Bool)
  | pushBack (val : V) (calloc : Bool)
  | pushFront (val : V) (calloc : Bool)
  | popBack
  | popFront
  | erase (it : ListIter)
  | remove (v : V)
  | setVal (it : ListIter) (v : V)

variable [DecidableEq V]

def step (l : ListT V) : Op V → Exec (ListT V)
  | .insertAfter it val calloc => l.listInsertAfter it val calloc
  | .insertBefore it val calloc => l.listInsertBefore it val calloc
  | .pushBack val calloc => l.listPushBack val calloc
  | .pushFront val calloc => l.listPushFront val calloc
  | .popBack => do return (← l.listPopBack).2
  | .popFront => do return (← l.listPopFront).2
  | .erase it => do return (← l.listErase it).2
  | .remove v => do return (← l.listRemove v).2
  | .setVal it v => l.listIterSetVal it v

variable {l l' : ListT V} {xs l₁ l₂ : List (ℕ × V)} {a : ℕ} {v : V} {it it' : ListIter}

/-! ## The sequence -/

theorem Represents.of_remove (h : Represents l xs) {k : Int} (hok : l.listRemove v = .ok (k, l')) :
    ∃ ys, Represents l' ys := by
  rw [listRemove] at hok
  obtain ⟨it, -, hok⟩ := Exec.bind_eq_ok.mp hok
  split at hok
  · cases hok
    exact ⟨xs, h⟩
  · obtain ⟨⟨it', r⟩, herase, hok⟩ := Exec.bind_eq_ok.mp hok
    cases hok
    obtain ⟨l₁, a, v, l₂, -, -, h'⟩ := h.of_erase herase
    exact ⟨_, h'⟩

/-- One operation keeps the nodes a sequence. -/
theorem step_spec (h : Represents l xs) {op : Op V} (hok : step l op = .ok l') :
    ∃ ys, Represents l' ys := by
  cases op with
  | insertAfter it val calloc =>
    cases calloc with
    | false => exact ⟨xs, Except.ok.inj hok ▸ h⟩
    | true =>
      obtain ⟨l₁, l₂, -, h'⟩ := h.of_insertAfter hok
      exact ⟨_, h'⟩
  | insertBefore it val calloc =>
    cases calloc with
    | false => exact ⟨xs, Except.ok.inj hok ▸ h⟩
    | true =>
      obtain ⟨l₁, l₂, -, h'⟩ := h.of_insertBefore hok
      exact ⟨_, h'⟩
  | pushBack val calloc =>
    cases calloc with
    | false => exact ⟨xs, Except.ok.inj hok ▸ h⟩
    | true =>
      obtain ⟨r, hr, h'⟩ := listPushBack_spec h val
      exact ⟨_, Except.ok.inj (hr.symm.trans hok) ▸ h'⟩
  | pushFront val calloc =>
    cases calloc with
    | false =>
      rw [step, listPushFront] at hok
      obtain ⟨it, -, hok⟩ := Exec.bind_eq_ok.mp hok
      exact ⟨xs, Except.ok.inj hok ▸ h⟩
    | true =>
      obtain ⟨r, hr, h'⟩ := listPushFront_spec h val
      exact ⟨_, Except.ok.inj (hr.symm.trans hok) ▸ h'⟩
  | popBack =>
    rcases List.eq_nil_or_concat xs with rfl | ⟨ys, x, rfl⟩
    · rw [step, listPopBack, h.size] at hok
      exact ⟨[], Except.ok.inj hok ▸ h⟩
    · rw [List.concat_eq_append] at h
      obtain ⟨r, hr, h'⟩ := listPopBack_spec h
      rw [step, hr] at hok
      exact ⟨ys, Except.ok.inj hok ▸ h'⟩
  | popFront =>
    cases xs with
    | nil =>
      rw [step, listPopFront, h.size] at hok
      exact ⟨[], Except.ok.inj hok ▸ h⟩
    | cons x xs =>
      obtain ⟨r, hr, h'⟩ := listPopFront_spec h
      rw [step, hr] at hok
      exact ⟨xs, Except.ok.inj hok ▸ h'⟩
  | erase it =>
    obtain ⟨⟨it', r⟩, hr, hok⟩ := Exec.bind_eq_ok.mp hok
    cases hok
    obtain ⟨l₁, a, v, l₂, -, -, h'⟩ := h.of_erase hr
    exact ⟨_, h'⟩
  | remove v =>
    obtain ⟨⟨k, r⟩, hr, hok⟩ := Exec.bind_eq_ok.mp hok
    cases hok
    exact h.of_remove hr
  | setVal it v => exact h.of_setVal hok

/-! ## Removing a value -/

/-- `list_remove` takes the first element equal to `v` out and returns 1, or returns 0 and leaves the
list as it is if there is none. -/
def RemovesFirst (l : ListT V) (v : V) : Prop :=
  (v ∈ l.values → ∃ l', l.listRemove v = .ok (1, l') ∧
    Represents l' (l.entries.eraseP fun x => x.2 = v)) ∧
  (v ∉ l.values → l.listRemove v = .ok (0, l))

/-- The first element equal to the value goes out. -/
theorem listRemove_first (h : Represents l (l₁ ++ (a, v) :: l₂)) (hl₁ : ∀ x ∈ l₁, x.2 ≠ v) :
    ∃ l', l.listRemove v = .ok (1, l') ∧ Represents l' (l₁ ++ l₂) := by
  refine ⟨_, ?_, h.erase⟩
  have hlink : l.link .next (.node a) = .ok (some (firstPtr l₂)) :=
    link_next.mpr ⟨h.touch (by simp) l rfl, h.joined_node.1⟩
  simp [listRemove, listFind_first h hl₁, listErase, listIterNext, hlink, unlink_spec h]

theorem listRemove_mem (h : Represents l xs) (hv : v ∈ xs.map Prod.snd) :
    ∃ l', l.listRemove v = .ok (1, l') ∧ Represents l' (xs.eraseP fun x => x.2 = v) := by
  obtain ⟨x, hx, rfl⟩ := List.mem_map.mp hv
  obtain ⟨⟨a, v⟩, l₁, l₂, hl₁, hvx, rfl, herase⟩ :=
    List.exists_of_eraseP (p := fun y => decide (y.2 = x.2)) hx (by simp)
  obtain rfl : v = x.2 := by simpa using hvx
  rw [herase]
  exact listRemove_first h (by simpa using hl₁)

/-- A value that is not in the list is taken for one that is, at the end of it. -/
theorem listRemove_absent (h : Represents l xs) (hxs : ∀ x ∈ xs, x.2 ≠ v) :
    l.listRemove v = .error .nullPointer := by
  have hpre : l.link .pre .endNode = .ok (l.pre .endNode) := rfl
  have hnext : l.link .next .endNode = .ok none := congrArg Except.ok h.last
  have htouch := h.touch (by simpa using Represents.lastPtr_mem xs []) l rfl
  simp [listRemove, listFind_absent h hxs, listErase, listEnd, listIterNext, unlink, hpre, hnext,
    h.pre_endNode, setNext, htouch]

theorem Represents.removesFirst_iff_mem (h : Represents l xs) (v : V) :
    RemovesFirst l v ↔ v ∈ l.values := by
  constructor
  · intro hremoves
    by_contra hv
    have habsent : ∀ x ∈ xs, x.2 ≠ v := by
      rintro x hx rfl
      exact hv (by rw [values, h.entries]; exact List.mem_map_of_mem hx)
    exact absurd ((listRemove_absent h habsent).symm.trans (hremoves.2 hv)) nofun
  · intro hv
    refine ⟨fun _ => ?_, fun hnot => absurd hv hnot⟩
    rw [values, h.entries] at hv
    rw [h.entries]
    exact listRemove_mem h hv

/-- **In every run, `list_remove` removes a value right exactly if** it is in the list. -/
theorem removesFirst_iff (ops : List (Op V)) :
    Exec.Always step (fun l => ∀ v, RemovesFirst l v ↔ v ∈ l.values) listCreate ops := by
  refine Exec.always_of_invariant (I := fun l => ∃ xs, Represents l xs) (C := fun _ _ => True)
    ?_ ?_ ⟨[], represents_listCreate⟩ (Exec.eachStep_of_forall fun _ _ _ => trivial)
  · rintro l ⟨xs, h⟩ v
    exact h.removesFirst_iff_mem v
  · rintro l op l' ⟨xs, h⟩ - hok
    exact step_spec h hok

/-- Nothing is in a new list. -/
theorem not_removesFirst_empty : (listCreate : ListT ℕ).listRemove 1 = .error .nullPointer ∧
    ¬ RemovesFirst (listCreate : ListT ℕ) 1 := by
  have hremove : (listCreate : ListT ℕ).listRemove 1 = .error .nullPointer := rfl
  refine ⟨hremove, fun h => ?_⟩
  have hreturns := h.2 (by decide)
  rw [hremove] at hreturns
  cases hreturns

end Kendylib.ListT
