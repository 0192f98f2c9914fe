import Mathlib.Data.List.Basic
import Mathlib.Order.Basic
import Mathlib.Tactic.Common

/-!
# Items that arrive in pieces

Items, each a list of elements, are sent as one stream, which is cut into pieces on its way. `Arrives`
says that the stream received so far is a part of what is sent and that it has the first items whole.
The number of these grows by one where what is left of the stream is as long as the next item
(`Arrives.next`).
-/

namespace Kendylib

variable {β : Type} {items : List (List β)} {stream xs x : List β} {n j : ℕ}

/-- The stream is the start of the items, and has the first `n` of them whole. -/
structure Arrives (items : List (List β)) (stream : List β) (n : ℕ) : Prop where
  le : n ≤ items.length
  sent : stream <+: items.flatten
  whole : (items.take n).flatten <+: stream

namespace Arrives

/-- The elements of the first `n` items. -/
def offset (items : List (List β)) (n : ℕ) : ℕ := (items.take n).flatten.length

@[simp] theorem offset_zero : offset items 0 = 0 := rfl

theorem offset_succ (hx : items[n]? = some x) : offset items (n + 1) = offset items n + x.length := by
  obtain ⟨hn, rfl⟩ := List.getElem?_eq_some_iff.mp hx
  rw [offset, List.take_succ_eq_append_getElem hn, List.flatten_append, List.length_append,
    List.flatten_singleton]
  rfl

theorem offset_append (hn : n ≤ items.length) (more : List (List β)) :
    offset (items ++ more) n = offset items n := by
  rw [offset, List.take_append_of_le_length hn, offset]

theorem start : Arrives ([] : List (List β)) [] 0 := ⟨Nat.le_refl 0, List.nil_prefix, List.nil_prefix⟩

/-- More items are sent. -/
theorem submit (A : Arrives items stream n) (more : List (List β)) :
    Arrives (items ++ more) stream n := by
  refine ⟨?_, ?_, ?_⟩
  · rw [List.length_append]
    exact Nat.le_trans A.le (Nat.le_add_right _ _)
  · rw [List.flatten_append]
    exact A.sent.trans (List.prefix_append _ _)
  · rw [List.take_append_of_le_length A.le]
    exact A.whole

/-- A piece is received. -/
theorem receive (A : Arrives items stream n) (h : stream ++ xs <+: items.flatten) :
    Arrives items (stream ++ xs) n :=
  ⟨A.le, h, A.whole.trans (List.prefix_append _ _)⟩

theorem offset_le (A : Arrives items stream n) : offset items n ≤ stream.length := A.whole.length_le

/-- **What is left** of the stream is the start of the next items. -/
theorem pending (A : Arrives items stream n) :
    stream.drop (offset items n) <+: (items.drop n).flatten := by
  obtain ⟨rest, hrest⟩ := A.whole
  have hstream := A.sent
  rw [← List.take_append_drop n items, List.flatten_append, ← hrest,
    List.prefix_append_right_inj] at hstream
  rwa [← hrest, offset, List.drop_left]

/-- The start of the next item is the start of what is left. -/
theorem next_prefix (A : Arrives items stream n) (hx : items[n]? = some x) :
    stream.drop (offset items n) <+: x ∨ x <+: stream.drop (offset items n) := by
  obtain ⟨hn, rfl⟩ := List.getElem?_eq_some_iff.mp hx
  have hpending := A.pending
  rw [List.drop_eq_getElem_cons hn, List.flatten_cons] at hpending
  exact List.prefix_or_prefix_of_prefix hpending (List.prefix_append _ _)

/-- **The next item has arrived** when what is left is as long as it. -/
theorem next (A : Arrives items stream n) (hx : items[n]? = some x)
    (hlen : x.length ≤ (stream.drop (offset items n)).length) : Arrives items stream (n + 1) := by
  obtain ⟨hn, hget⟩ := List.getElem?_eq_some_iff.mp hx
  have hprefix : x <+: stream.drop (offset items n) := by
    refine (A.next_prefix hx).elim (fun h => ?_) id
    exact h.eq_of_length_le hlen ▸ List.prefix_rfl
  refine ⟨hn, A.sent, ?_⟩
  rw [List.take_succ_eq_append_getElem hn, List.flatten_append, List.flatten_singleton, hget]
  obtain ⟨rest, hrest⟩ := A.whole
  rw [← hrest, offset, List.drop_left] at hprefix
  rw [← hrest]
  exact (List.prefix_append_right_inj _).mpr hprefix

/-- Nothing is left where all items have arrived. -/
theorem pending_eq_nil (A : Arrives items stream n) (hn : items.length ≤ n) :
    stream.drop (offset items n) = [] := by
  have hpending := A.pending
  rw [List.drop_of_length_le hn] at hpending
  exact List.prefix_nil.mp hpending

/-- There is a next item where something is left. -/
theorem exists_next (A : Arrives items stream n) (hne : stream.drop (offset items n) ≠ []) :
    ∃ x, items[n]? = some x := by
  have hn : n < items.length := by
    by_contra hle
    exact hne (A.pending_eq_nil (Nat.le_of_not_lt hle))
  exact ⟨items[n], List.getElem?_eq_getElem hn⟩

/-- **An item that has arrived** is in the stream at its place. -/
theorem item (A : Arrives items stream n) (hj : j < n) (hx : items[j]? = some x) :
    (stream.drop (offset items j)).take x.length = x := by
  obtain ⟨hlt, hget⟩ := List.getElem?_eq_some_iff.mp hx
  have hsplit : (items.take n).flatten =
      (items.take j).flatten ++ (x ++ ((items.take n).drop (j + 1)).flatten) := by
    have hjn : j < (items.take n).length := by
      rw [List.length_take]
      omega
    have hcons : (items.take n).drop j = x :: (items.take n).drop (j + 1) := by
      rw [List.drop_eq_getElem_cons hjn, List.getElem_take, hget]
    rw [← List.flatten_cons, ← hcons, ← List.flatten_append]
    nth_rewrite 1 [← List.take_append_drop j (items.take n)]
    rw [List.take_take, Nat.min_eq_left (Nat.le_of_lt hj)]
  obtain ⟨rest, hrest⟩ := A.whole
  rw [← hrest, hsplit, List.append_assoc, offset, List.drop_left, List.append_assoc, List.take_left]

end Arrives

end Kendylib
