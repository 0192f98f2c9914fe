import Mathlib.Data.List.Basic

/-!
# Taking turns

Items wait in a list. A turn serves the first of them, or nobody (`idle`), and others may come to the
end of the list behind it. If no two turns in a row serve nobody, the item at the place `k` is served
within `2 * k + 2` turns, and those served before it are the items in front of it, each once and in
their order (`Rota.served_at`).
-/

namespace Kendylib

variable {α : Type}

/-- The turns of a list, up to the one that serves `c`. If `rested`, the turn before has served nobody
and the next one does. -/
inductive Rota (idle c : α) : Bool → List α → List α → Prop
  | nil (rested : Bool) (xs : List α) : Rota idle c rested xs []
  | served (rested : Bool) (xs ts : List α) : Rota idle c rested (c :: xs) (c :: ts)
  | serve (rested : Bool) {x : α} {xs ws ts : List α} (h : Rota idle c false (xs ++ ws) ts) :
    Rota idle c rested (x :: xs) (x :: ts)
  | rest {xs ws ts : List α} (h : Rota idle c true (xs ++ ws) ts) :
    Rota idle c false xs (idle :: ts)

variable {idle c : α} {rested : Bool} {xs ts : List α} {k : ℕ}

theorem Rota.of_rested (h : Rota idle c rested xs ts) : Rota idle c false xs ts := by
  cases h with
  | nil => exact .nil ..
  | served => exact .served ..
  | serve _ h => exact .serve _ h
  | rest h => exact .rest h

variable [DecidableEq α]

/-- **Every item is served**, after those in front of it. -/
theorem Rota.served_at (h : Rota idle c rested xs ts) (hk : xs[k]? = some c)
    (hfirst : c ∉ xs.take k) (hlen : 2 * k + 2 ≤ ts.length + rested.toNat) :
    ∃ i, i + rested.toNat < 2 * k + 2 ∧ ts[i]? = some c ∧
      (ts.take i).filter (· ≠ idle) = (xs.take k).filter (· ≠ idle) := by
  induction h generalizing k with
  | nil rested xs =>
    have := Bool.toNat_le rested
    simp at hlen
    omega
  | served rested xs ts =>
    cases k with
    | zero =>
      have := Bool.toNat_le rested
      exact ⟨0, by omega, rfl, by simp⟩
    | succ k => simp at hfirst
  | @serve rested x xs ws ts h ih =>
    have hr := Bool.toNat_le rested
    cases k with
    | zero =>
      obtain rfl : x = c := Option.some.inj hk
      exact ⟨0, by omega, rfl, by simp⟩
    | succ k =>
      have hk : xs[k]? = some c := hk
      have hlt : k < xs.length := (List.getElem?_eq_some_iff.mp hk).1
      have htake : (xs ++ ws).take k = xs.take k := List.take_append_of_le_length (Nat.le_of_lt hlt)
      have hfirst' : c ∉ xs.take k := fun hmem => hfirst (List.mem_cons_of_mem x hmem)
      obtain ⟨i, hi, hti, hbefore⟩ := ih (k := k) (by rwa [List.getElem?_append_left hlt])
        (by rwa [htake]) (by
          simp only [List.length_cons, Bool.toNat_false] at hlen ⊢
          omega)
      refine ⟨i + 1, ?_, hti, ?_⟩
      · simp only [Bool.toNat_false] at hi
        omega
      · rw [List.take_succ_cons, List.take_succ_cons, List.filter_cons, List.filter_cons, hbefore,
          htake]
  | @rest xs ws ts h ih =>
    have hlt : k < xs.length := (List.getElem?_eq_some_iff.mp hk).1
    have htake : (xs ++ ws).take k = xs.take k := List.take_append_of_le_length (Nat.le_of_lt hlt)
    obtain ⟨i, hi, hti, hbefore⟩ := ih (k := k) (by rwa [List.getElem?_append_left hlt])
      (by rwa [htake]) (by
        simp only [List.length_cons, Bool.toNat_false, Bool.toNat_true] at hlen ⊢
        omega)
    refine ⟨i + 1, ?_, hti, ?_⟩
    · simp only [Bool.toNat_true, Bool.toNat_false] at hi ⊢
      omega
    · rw [List.take_succ_cons, List.filter_cons, if_neg (by simp), hbefore, htake]

end Kendylib
