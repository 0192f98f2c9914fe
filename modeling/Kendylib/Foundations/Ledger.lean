import Mathlib.Data.List.Basic
import Mathlib.Tactic.Common

/-!
# Items that are taken in pieces

Items, each a list of elements, are submitted one after the other. Their elements are accepted in
pieces of any length, and the elements accepted are taken off the items afterwards, one item at a
time: an item of which all elements are taken is complete. A `Ledger` has what has been submitted and
accepted and the number of items complete, and `Balanced` says what is left of the others.

The four rules are one for each thing that happens: an item is submitted (`Balanced.submit`), a piece
is accepted (`Balanced.accept`), an item is complete (`Balanced.complete`), a piece is taken off an
item that is not (`Balanced.trim`). What follows from the balance is that nothing is lost,
repeated or out of order (`Balanced.accepted_prefix`), and that an item is complete when its last
element is accepted and not before (`Balanced.completed_prefix`, `Balanced.next_incomplete`).
-/

namespace Kendylib

/-- What has happened to the items. -/
structure Ledger (β : Type) where
  submitted : List (List β)
  accepted : List β
  completed : ℕ

namespace Ledger

variable {β : Type} {L : Ledger β} {rest : List (List β)} {part r out : List β} {k : ℕ}

/-- The items that have all of their elements accepted and taken. -/
def done (L : Ledger β) : List (List β) := L.submitted.take L.completed

/-- The other items. -/
def todo (L : Ledger β) : List (List β) := L.submitted.drop L.completed

theorem done_append_todo (L : Ledger β) : L.done ++ L.todo = L.submitted :=
  List.take_append_drop _ _

/-- The items `todo` are `rest` with the elements `part` in front of the first. -/
def Continues (part : List β) (todo : List (List β)) : List (List β) → Prop
  | [] => part = [] ∧ todo = []
  | r :: rest => todo = (part ++ r) :: rest

theorem Continues.flatten {todo : List (List β)} (h : Continues part todo rest) :
    todo.flatten = part ++ rest.flatten := by
  cases rest with
  | nil =>
    obtain ⟨rfl, rfl⟩ := h
    rfl
  | cons r rest =>
    rw [show todo = (part ++ r) :: rest from h, List.flatten_cons, List.flatten_cons,
      List.append_assoc]

/-- `rest` is what is left of the items that are not complete; the last `k` elements accepted have
not been taken off yet. -/
structure Balanced (L : Ledger β) (rest : List (List β)) (k : ℕ) : Prop where
  completed_le : L.completed ≤ L.submitted.length
  nonempty : ∀ r ∈ rest, r ≠ []
  split : ∃ part pending, L.accepted = L.done.flatten ++ part ++ pending ∧ pending.length = k ∧
    pending <+: rest.flatten ∧ Continues part L.todo rest

/-- Nothing has been submitted. -/
def start : Ledger β := ⟨[], [], 0⟩

theorem balanced_start : Balanced (start : Ledger β) [] 0 :=
  ⟨Nat.le_refl 0, nofun, [], [], rfl, rfl, List.nil_prefix, rfl, rfl⟩

/-! ## What happens -/

def submit (L : Ledger β) (r : List β) : Ledger β := { L with submitted := L.submitted ++ [r] }

def accept (L : Ledger β) (out : List β) : Ledger β := { L with accepted := L.accepted ++ out }

def complete (L : Ledger β) : Ledger β := { L with completed := L.completed + 1 }

theorem Balanced.completed_lt (B : Balanced L (r :: rest) k) : L.completed < L.submitted.length := by
  obtain ⟨part, pending, -, -, -, htodo⟩ := B.split
  by_contra hle
  have : L.todo = [] := List.drop_of_length_le (by omega)
  rw [this] at htodo
  cases htodo

/-- **An item is submitted.** -/
theorem Balanced.submit (B : Balanced L rest k) (hr : r ≠ []) : Balanced (L.submit r) (rest ++ [r]) k := by
  obtain ⟨part, pending, haccepted, hk, hprefix, htodo⟩ := B.split
  have hdone : (L.submit r).done = L.done := List.take_append_of_le_length B.completed_le
  have htodo' : (L.submit r).todo = L.todo ++ [r] := List.drop_append_of_le_length B.completed_le
  refine ⟨Nat.le_trans B.completed_le (by simp [Ledger.submit]), fun x hx => ?_, part, pending, ?_,
    hk, ?_, ?_⟩
  · rcases List.mem_append.mp hx with hx | hx
    · exact B.nonempty x hx
    · rwa [List.mem_singleton.mp hx]
  · rw [hdone]
    exact haccepted
  · rw [List.flatten_append]
    exact hprefix.trans (List.prefix_append _ _)
  · rw [htodo']
    cases rest with
    | nil =>
      obtain ⟨rfl, hnil⟩ := htodo
      rw [hnil]
      rfl
    | cons x rest =>
      rw [show L.todo = (part ++ x) :: rest from htodo]
      rfl

/-- **A piece is accepted.** -/
theorem Balanced.accept (B : Balanced L rest 0) (hout : out <+: rest.flatten) :
    Balanced (L.accept out) rest out.length := by
  obtain ⟨part, pending, haccepted, hk, -, htodo⟩ := B.split
  obtain rfl := List.eq_nil_of_length_eq_zero hk
  refine ⟨B.completed_le, B.nonempty, part, out, ?_, rfl, hout, htodo⟩
  rw [List.append_nil] at haccepted
  rw [Ledger.accept, haccepted]
  rfl

/-- **An item is complete.** -/
theorem Balanced.complete (B : Balanced L (r :: rest) k) (hle : r.length ≤ k) :
    Balanced L.complete rest (k - r.length) := by
  have hlt := B.completed_lt
  obtain ⟨part, pending, haccepted, hk, hprefix, htodo⟩ := B.split
  have htodo : L.todo = (part ++ r) :: rest := htodo
  have hnext : L.submitted[L.completed] = part ++ r := by
    have : L.todo = L.submitted[L.completed] :: L.submitted.drop (L.completed + 1) :=
      List.drop_eq_getElem_cons hlt
    rw [htodo, List.cons.injEq] at this
    exact this.1.symm
  have hdone : L.complete.done = L.done ++ [part ++ r] := by
    rw [done, Ledger.complete, List.take_succ_eq_append_getElem hlt, hnext]
    rfl
  have htodo' : L.complete.todo = rest := by
    have : L.complete.todo = L.todo.tail := by
      rw [todo, todo, List.tail_drop]
      rfl
    rw [this, htodo, List.tail_cons]
  -- the elements of the item are the first ones that have not been taken off
  rw [List.flatten_cons] at hprefix
  obtain ⟨pending, rfl⟩ : r <+: pending :=
    List.prefix_of_prefix_length_le (List.prefix_append _ _) hprefix (by omega)
  rw [List.prefix_append_right_inj] at hprefix
  refine ⟨hlt, fun x hx => B.nonempty x (List.mem_cons_of_mem r hx), [], pending, ?_, ?_, hprefix, ?_⟩
  · rw [hdone, List.flatten_append, List.flatten_singleton]
    change L.accepted = _
    rw [haccepted]
    simp only [List.append_assoc, List.append_nil]
  · rw [← hk, List.length_append, Nat.add_sub_cancel_left]
  · rw [htodo']
    cases rest with
    | nil => exact ⟨rfl, rfl⟩
    | cons x rest => rfl

/-- **A piece is taken off** an item that it does not complete. -/
theorem Balanced.trim (B : Balanced L (r :: rest) k) (hlt : k < r.length) :
    Balanced L (r.drop k :: rest) 0 := by
  obtain ⟨part, pending, haccepted, hk, hprefix, htodo⟩ := B.split
  have hpending : pending = r.take k := by
    rw [List.flatten_cons] at hprefix
    have := List.prefix_of_prefix_length_le hprefix (List.prefix_append r rest.flatten) (by omega)
    rw [← hk]
    exact List.prefix_iff_eq_take.mp this
  refine ⟨B.completed_le, fun x hx => ?_, part ++ r.take k, [], ?_, rfl, List.nil_prefix, ?_⟩
  · obtain rfl | hx := List.mem_cons.mp hx
    · exact List.ne_nil_of_length_pos (by rw [List.length_drop]; omega)
    · exact B.nonempty x (List.mem_cons_of_mem r hx)
  · rw [haccepted, hpending, List.append_nil, List.append_assoc]
  · change L.todo = (part ++ r.take k ++ r.drop k) :: rest
    rw [List.append_assoc, List.take_append_drop]
    exact htodo

/-! ## What follows -/

/-- **What is accepted** is the elements of the items in order, each once. -/
theorem Balanced.accepted_prefix (B : Balanced L rest k) : L.accepted <+: L.submitted.flatten := by
  obtain ⟨part, pending, haccepted, -, hprefix, htodo⟩ := B.split
  rw [haccepted, ← L.done_append_todo, List.flatten_append, htodo.flatten, List.append_assoc]
  exact (List.prefix_append_right_inj _).mpr ((List.prefix_append_right_inj _).mpr hprefix)

/-- An item that is complete has been accepted. -/
theorem Balanced.completed_prefix (B : Balanced L rest k) : L.done.flatten <+: L.accepted := by
  obtain ⟨part, pending, haccepted, -⟩ := B.split
  rw [haccepted, List.append_assoc]
  exact List.prefix_append _ _

/-- The next item has not been accepted as a whole, unless elements have still to be taken off. -/
theorem Balanced.next_incomplete (B : Balanced L rest 0) {next : List β}
    (hnext : L.submitted[L.completed]? = some next) :
    L.accepted.length < (L.done ++ [next]).flatten.length := by
  obtain ⟨part, pending, haccepted, hk, -, htodo⟩ := B.split
  obtain ⟨hlt, hget⟩ := List.getElem?_eq_some_iff.mp hnext
  have hcons : L.todo = next :: L.submitted.drop (L.completed + 1) := by
    rw [todo, List.drop_eq_getElem_cons hlt, hget]
  cases rest with
  | nil =>
    rw [htodo.2] at hcons
    cases hcons
  | cons r rest =>
    rw [show L.todo = (part ++ r) :: rest from htodo, List.cons.injEq] at hcons
    have hr := List.length_pos_iff.mpr (B.nonempty r List.mem_cons_self)
    rw [haccepted, ← hcons.1]
    simp only [List.length_append, List.flatten_append, List.flatten_singleton]
    omega

end Ledger

end Kendylib
