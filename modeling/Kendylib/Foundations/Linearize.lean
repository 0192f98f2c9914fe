import Kendylib.Foundations.Interleaving

/-!
# Calls that take effect at one moment

Threads call the operations of an object, in any interleaving. A call takes effect in one of the
events between its beginning and its return, with an answer, as if the object did it in one step
there; every other event leaves the object alone. `Linearizes` says this of each event. The calls of a
run that have returned are then a run of the object itself, in the order in which they took effect,
and each thread has got its answers to its calls in their order (`Linearizes.run`).
-/

namespace Kendylib.Interleaving

/-- What an event is to the callers. A call may begin, take effect and return in one event. -/
inductive Label (T C R : Type)
  | silent
  | call (t : T) (c : C)
  | answer (t : T) (c : C) (r : R)
  | instant (t : T) (c : C) (r : R)
  deriving DecidableEq

variable {T C R σ ι α : Type}

namespace Label

/-- The call that takes effect, with its answer. -/
def effect : Label T C R → Option (T × C × R)
  | .silent | .call _ _ => none
  | .answer t c r | .instant t c r => some (t, c, r)

/-- The call that begins. -/
def begins : Label T C R → Option (T × C)
  | .silent | .answer _ _ _ => none
  | .call t c | .instant t c _ => some (t, c)

end Label

/-- The labels of a list of events. -/
def labels (step : σ → ι → Option σ) (label : σ → ι → Label T C R) : σ → List ι → List (Label T C R)
  | _, [] => []
  | s, e :: es => label s e :: ((step s e).map fun s' => labels step label s' es).getD []

/-- The calls that took effect, with their answers, in the order in which they did. -/
def history (ls : List (Label T C R)) : List (T × C × R) := ls.filterMap Label.effect

/-- The calls of a thread that have begun. -/
def calls [DecidableEq T] (t : T) (ls : List (Label T C R)) : List C :=
  (ls.filterMap Label.begins).filterMap fun a => if a.1 = t then some a.2 else none

/-- The calls of a thread that are answered. -/
def answers [DecidableEq T] (t : T) (ls : List (Label T C R)) : List C :=
  (history ls).filterMap fun a => if a.1 = t then some a.2.1 else none

/-- The object after a list of calls with their answers, if they can be made one after the other. -/
def atomic (apply : α → C → R → Option α) : α → List (T × C × R) → Option α :=
  exec fun a o => apply a o.2.1 o.2.2

/-- What an event does to the object and to the calls that the threads are in, by its label. -/
def Label.Fits [DecidableEq T] (apply : α → C → R → Option α) (a a' : α) (p p' : T → Option C) :
    Label T C R → Prop
  | .silent => a' = a ∧ p' = p
  | .call t c => a' = a ∧ p t = none ∧ p' = Function.update p t (some c)
  | .answer t c r => apply a c r = some a' ∧ p t = some c ∧ p' = Function.update p t none
  | .instant t c r => apply a c r = some a' ∧ p t = none ∧ p' = p

/-- **Each event** from a state with the invariant keeps it, and does what its label says: `obj` is the
object and `pending` the call that a thread is in. -/
structure Linearizes [DecidableEq T] (step : σ → ι → Option σ) (label : σ → ι → Label T C R)
    (obj : σ → α) (pending : σ → T → Option C) (apply : α → C → R → Option α) (I : σ → Prop) :
    Prop where
  keeps {s s' : σ} {e : ι} (hI : I s) (h : step s e = some s') : I s'
  fits {s s' : σ} {e : ι} (hI : I s) (h : step s e = some s') :
    (label s e).Fits apply (obj s) (obj s') (pending s) (pending s')

variable {step : σ → ι → Option σ} {label : σ → ι → Label T C R} {obj : σ → α}
  {apply : α → C → R → Option α} {s s' : σ} {e : ι} {es : List ι} {l : Label T C R}
  {ls : List (Label T C R)}

theorem labels_cons (h : step s e = some s') :
    labels step label s (e :: es) = label s e :: labels step label s' es := by
  rw [labels, h]
  rfl

theorem history_cons : history (l :: ls) = l.effect.toList ++ history ls := by
  cases h : l.effect <;> simp [history, h]

theorem atomic_append {a a' : α} {os os' : List (T × C × R)} (h : atomic apply a os = some a') :
    atomic apply a (os ++ os') = atomic apply a' os' := by
  induction os generalizing a with
  | nil =>
    obtain rfl := Option.some.inj h
    rfl
  | cons o os ih =>
    obtain ⟨a₁, ha, hrest⟩ := Option.bind_eq_some_iff.mp h
    change ((apply a o.2.1 o.2.2).bind fun b => atomic apply b (os ++ os')) = _
    rw [show apply a o.2.1 o.2.2 = some a₁ from ha]
    exact ih hrest

variable [DecidableEq T] {p p' : T → Option C} {a a' : α}

theorem calls_cons (t : T) : calls t (l :: ls) =
    (l.begins.toList.filterMap fun a => if a.1 = t then some a.2 else none) ++ calls t ls := by
  cases h : l.begins <;> simp [calls, h, List.filterMap_cons]
  split_ifs <;> rfl

theorem answers_cons (t : T) : answers t (l :: ls) =
    (l.effect.toList.filterMap fun a => if a.1 = t then some a.2.1 else none) ++ answers t ls := by
  rw [answers, history_cons, List.filterMap_append, answers]

/-- An event is at most one step of the object. -/
theorem Label.Fits.atomic (h : l.Fits apply a a' p p') : atomic apply a l.effect.toList = some a' := by
  cases l with
  | silent =>
    obtain ⟨rfl, -⟩ := h
    rfl
  | call t c =>
    obtain ⟨rfl, -⟩ := h
    rfl
  | answer t c r | instant t c r =>
    change ((apply a c r).bind fun b => Interleaving.atomic apply b []) = _
    rw [h.1]
    rfl

/-- **The account of a thread**: the call it is in and the call that begins are the call that is
answered and the one it is in then. -/
theorem Label.Fits.account (h : l.Fits apply a a' p p') (t : T) : (p t).toList ++
        (l.begins.toList.filterMap fun a => if a.1 = t then some a.2 else none) =
      (l.effect.toList.filterMap fun a => if a.1 = t then some a.2.1 else none) ++
        (p' t).toList := by
  cases l with
  | silent =>
    rw [h.2]
    simp [Label.begins, Label.effect]
  | call u c =>
    obtain ⟨-, hnone, rfl⟩ := h
    by_cases hu : u = t
    · subst hu
      simp [Label.begins, Label.effect, hnone]
    · simp [Label.begins, Label.effect, hu, Function.update_of_ne (Ne.symm hu)]
  | answer u c r =>
    obtain ⟨-, hsome, rfl⟩ := h
    by_cases hu : u = t
    · subst hu
      simp [Label.begins, Label.effect, hsome]
    · simp [Label.begins, Label.effect, hu, Function.update_of_ne (Ne.symm hu)]
  | instant u c r =>
    obtain ⟨-, hnone, rfl⟩ := h
    by_cases hu : u = t
    · subst hu
      simp [Label.begins, Label.effect, hnone]
    · simp [Label.begins, Label.effect, hu]

variable {pending : σ → T → Option C} {I : σ → Prop}

/-- **A run**: the calls that have returned are a run of the object, and the calls of a thread are the
answered ones, in their order, and the one it is in. -/
theorem Linearizes.run (L : Linearizes step label obj pending apply I) (hI : I s)
    (h : exec step s es = some s') :
    atomic apply (obj s) (history (labels step label s es)) = some (obj s') ∧
      ∀ t, (pending s t).toList ++ calls t (labels step label s es) =
        answers t (labels step label s es) ++ (pending s' t).toList := by
  induction es generalizing s with
  | nil =>
    obtain rfl := Option.some.inj h
    exact ⟨rfl, fun t => by simp [labels, calls, answers, history]⟩
  | cons e es ih =>
    obtain ⟨s₁, hs, hrest⟩ := Option.bind_eq_some_iff.mp h
    obtain ⟨hobj, hcalls⟩ := ih (L.keeps hI hs) hrest
    have hfits := L.fits hI hs
    rw [labels_cons hs, history_cons]
    refine ⟨(atomic_append hfits.atomic).trans hobj, fun t => ?_⟩
    rw [calls_cons, answers_cons, ← List.append_assoc, hfits.account t, List.append_assoc, hcalls t,
      List.append_assoc]

end Kendylib.Interleaving
