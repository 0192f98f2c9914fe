import Mathlib.Algebra.BigOperators.Group.Finset.Piecewise
import Mathlib.Data.Fintype.Basic
import Mathlib.Logic.Relation

/-!
# Interleavings

Any number of threads take steps in any order. A step is named by an event, which says what thread
takes it and, where the step has a choice, how it goes; an event that cannot happen in a state has no
next state. What is reached by events that meet a condition is `Reaches`, and an invariant that every
such event keeps holds in all of it (`Reaches.invariant`). A list of events runs by `exec`.

Every thread is at a place of its own, and a step moves one thread. `threadsIn` counts the threads at
the places of a kind, and `threadsIn_update` says what a move does to the number.
-/

namespace Kendylib.Interleaving

variable {σ ι : Type} (step : σ → ι → Option σ) {C D : σ → ι → Prop}

/-- The states reached from `s` by events that meet the condition. -/
def Reaches (C : σ → ι → Prop) : σ → σ → Prop :=
  Relation.ReflTransGen fun s s' => ∃ e, C s e ∧ step s e = some s'

/-- The state at the end of a list of events. -/
def exec : σ → List ι → Option σ
  | s, [] => some s
  | s, e :: es => (step s e).bind fun s' => exec s' es

/-- Every event of a list meets the condition, in the state in which it happens. -/
def Meets (C : σ → ι → Prop) : σ → List ι → Prop
  | _, [] => True
  | s, e :: es => C s e ∧ ∀ s', step s e = some s' → Meets C s' es

instance decidableMeets [∀ s e, Decidable (C s e)] :
    (s : σ) → (es : List ι) → Decidable (Meets step C s es)
  | _, [] => isTrue trivial
  | s, e :: es =>
    match h : step s e with
    | none => decidable_of_iff (C s e)
        ⟨fun hc => ⟨hc, fun _ h' => by rw [h] at h'; cases h'⟩, And.left⟩
    | some s' =>
      have := decidableMeets s' es
      decidable_of_iff (C s e ∧ Meets step C s' es)
        (and_congr_right fun _ => ⟨fun hr t h' => by
          rw [h] at h'
          exact Option.some.inj h' ▸ hr, fun hr => hr s' h⟩)

variable {step} {I : σ → Prop} {s s' : σ} {e : ι} {es : List ι}

theorem Reaches.refl : Reaches step C s s := Relation.ReflTransGen.refl

theorem Reaches.head {t : σ} (hc : C s e) (h : step s e = some s') (hr : Reaches step C s' t) :
    Reaches step C s t :=
  Relation.ReflTransGen.head ⟨e, hc, h⟩ hr

/-- An invariant that every event with the condition keeps holds in every state reached. -/
theorem Reaches.invariant (hstep : ∀ s e s', I s → C s e → step s e = some s' → I s') (hI : I s)
    (h : Reaches step C s s') : I s' := by
  induction h with
  | refl => exact hI
  | tail _ hlast ih =>
    obtain ⟨e, hc, hs⟩ := hlast
    exact hstep _ e _ ih hc hs

theorem reaches_of_exec (h : exec step s es = some s') (hC : Meets step C s es) :
    Reaches step C s s' := by
  induction es generalizing s with
  | nil =>
    obtain rfl := Option.some.inj h
    exact Reaches.refl
  | cons e es ih =>
    obtain ⟨s₁, hs₁, hrest⟩ := Option.bind_eq_some_iff.mp h
    exact Reaches.head hC.1 hs₁ (ih hrest (hC.2 s₁ hs₁))

/-- A property of the end of a list of events that is found by running it. -/
theorem exists_exec {P : σ → Prop} [DecidablePred P]
    (h : (exec step s es).any (fun s' => decide (P s')) = true) :
    ∃ s', exec step s es = some s' ∧ P s' := by
  obtain ⟨s', hs, hP⟩ := (Option.any_eq_true _ _).mp h
  exact ⟨s', hs, of_decide_eq_true hP⟩

/-! ## Counting threads -/

variable {T α : Type} [Fintype T] {f : T → α} {p : α → Prop} [DecidablePred p]

/-- The number of threads at a place with the property. -/
def threadsIn (f : T → α) (p : α → Prop) [DecidablePred p] : ℕ :=
  (Finset.univ.filter fun t => p (f t)).card

theorem threadsIn_pos : 0 < threadsIn f p ↔ ∃ t, p (f t) := by
  simp [threadsIn, Finset.card_pos, Finset.Nonempty]

/-- **A thread moves**: it is no longer counted at its old place, and is counted at the new one. -/
theorem threadsIn_update [DecidableEq T] (t : T) (a : α) :
    threadsIn (Function.update f t a) p + (if p (f t) then 1 else 0) =
      threadsIn f p + (if p a then 1 else 0) := by
  have hrest : ∀ g : T → α, threadsIn g p =
      (∑ u ∈ Finset.univ.erase t, if p (g u) then 1 else 0) + (if p (g t) then 1 else 0) := by
    intro g
    rw [threadsIn, Finset.card_filter, Finset.sum_erase_add _ _ (Finset.mem_univ t)]
  have hothers : (∑ u ∈ Finset.univ.erase t, if p (Function.update f t a u) then 1 else 0) =
      ∑ u ∈ Finset.univ.erase t, if p (f u) then 1 else 0 := by
    refine Finset.sum_congr rfl fun u hu => ?_
    rw [Function.update_of_ne (Finset.ne_of_mem_erase hu)]
  rw [hrest f, hrest (Function.update f t a), hothers, Function.update_self]
  omega

end Kendylib.Interleaving
