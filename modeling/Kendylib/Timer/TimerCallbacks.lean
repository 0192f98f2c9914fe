import Kendylib.Timer.TimingWheel

/-!
# Callbacks that call the wheel

A callback may register and unregister items, its own among them. What the callbacks of a call of
`UpdateWheel` do is given by a list of calls for each item: no item has its callback run twice by
one call of `UpdateWheel` before something has gone wrong, so one list for each is enough.

The numbers of a wheel (`Alike`) are not changed by any call but `UpdateWheel`, which changes
`current` and `last_update` at its end.
-/

namespace Kendylib.TimingWheel

variable {w w' w'' : TimingWheel} {x n : ℕ}

/-- A call that a callback makes. `RegisterTimer` reads the clock itself. -/
inductive Act
  | register (x now timeout : ℕ)
  | unregister (x : ℕ)
  deriving DecidableEq

def act (w : TimingWheel) : Act → TimingWheel
  | .register x now timeout => (w.registerTimer x now timeout).1
  | .unregister x => w.unRegisterTimer x

/-- The callbacks that make these calls. -/
def callback (acts : ℕ → List Act) (w : TimingWheel) (x : ℕ) : Exec TimingWheel :=
  .ok ((acts x).foldl act w)

/-- The calls that are made when the item fires: none if it has no callback. -/
def calls (w : TimingWheel) (acts : ℕ → List Act) (x : ℕ) : List Act :=
  if (w.item x).callback then acts x else []

/-- An item taken off its list by `Active`. -/
def takeOff (w : TimingWheel) (x : ℕ) : TimingWheel :=
  w.setItem x ⟨none, none, (w.item x).callback, 0⟩

/-- A round of the loop of `Active`. -/
theorem activeLoop_some {acts : ℕ → List Act} {fuel : ℕ} :
    activeLoop (callback acts) (fuel + 1) w (some x) =
      (activeLoop (callback acts) fuel ((w.calls acts x).foldl act (w.takeOff x)) (w.item x).next >>=
        fun r => .ok (r.1, x :: r.2)) := by
  rw [activeLoop, calls]
  split <;> rfl

/-- Two wheels with the same numbers, and items with the same callbacks. -/
structure Alike (w w' : TimingWheel) : Prop where
  precision : w'.precision = w.precision
  slotSize : w'.slotSize = w.slotSize
  lastUpdate : w'.lastUpdate = w.lastUpdate
  current : w'.current = w.current
  items : w'.items = w.items
  callback : ∀ x, (w'.item x).callback = (w.item x).callback

theorem Alike.refl (w : TimingWheel) : Alike w w := ⟨rfl, rfl, rfl, rfl, rfl, fun _ => rfl⟩

theorem Alike.trans (h : Alike w w') (h' : Alike w' w'') : Alike w w'' :=
  ⟨h'.precision.trans h.precision, h'.slotSize.trans h.slotSize, h'.lastUpdate.trans h.lastUpdate,
    h'.current.trans h.current, h'.items.trans h.items,
    fun x => (h'.callback x).trans (h.callback x)⟩

theorem Alike.calls {acts : ℕ → List Act} (h : Alike w w') : w'.calls acts = w.calls acts := by
  funext x
  rw [TimingWheel.calls, h.callback x]
  rfl

theorem setItem_alike {i : WheelItem} (h : i.callback = (w.item x).callback) :
    Alike w (w.setItem x i) := by
  refine ⟨rfl, rfl, rfl, rfl, rfl, fun y => ?_⟩
  by_cases hy : y = x
  · subst hy
    simp [setItem, h]
  · simp [setItem, hy]

theorem setSlot_alike {h : Option ℕ} : Alike w (w.setSlot n h) := ⟨rfl, rfl, rfl, rfl, rfl, fun _ => rfl⟩

theorem setNext_alike {h : Option ℕ} : Alike w (w.setNext x h) := setItem_alike rfl

theorem setPre_alike {h : Option ℕ} : Alike w (w.setPre x h) := setItem_alike rfl

theorem takeOff_alike : Alike w (w.takeOff x) := setItem_alike rfl

theorem add_alike : Alike w (w.add n x) := by
  unfold add
  cases w.slot n with
  | none => exact ((setNext_alike.trans setPre_alike).trans setSlot_alike).trans (setItem_alike rfl)
  | some y => exact ((setPre_alike.trans setNext_alike).trans setSlot_alike).trans (setItem_alike rfl)

theorem registerTimer_alike {now timeout : ℕ} : Alike w (w.registerTimer x now timeout).1 := by
  unfold registerTimer
  cases w.registerSlot now timeout with
  | none => exact .refl w
  | some n => exact add_alike

theorem unRegisterTimer_alike : Alike w (w.unRegisterTimer x) := by
  unfold unRegisterTimer
  dsimp only
  split
  · exact .refl w
  · have hlast : ∀ {u : TimingWheel}, Alike w u →
        Alike w (u.setItem x ⟨none, none, (u.item x).callback, -1⟩) :=
      fun h => h.trans (setItem_alike rfl)
    cases (w.item x).pre with
    | none =>
      cases (w.item x).next with
      | none => exact hlast setSlot_alike
      | some m => exact hlast (setSlot_alike.trans setPre_alike)
    | some p =>
      cases (w.item x).next with
      | none => exact hlast setNext_alike
      | some m => exact hlast (setNext_alike.trans setPre_alike)

theorem act_alike (a : Act) : Alike w (w.act a) := by
  cases a with
  | register x now timeout => exact registerTimer_alike
  | unregister x => exact unRegisterTimer_alike

theorem acts_alike (as : List Act) : Alike w (as.foldl act w) := by
  induction as generalizing w with
  | nil => exact .refl w
  | cons a as ih => exact (act_alike a).trans ih

variable {acts : ℕ → List Act} {fired : List ℕ}

theorem activeLoop_alike {fuel : ℕ} {head : Option ℕ}
    (h : activeLoop (callback acts) fuel w head = .ok (w', fired)) : Alike w w' := by
  induction fuel generalizing w head fired with
  | zero =>
    cases head with
    | none =>
      obtain ⟨rfl, -⟩ := Prod.mk.inj (Except.ok.inj h)
      exact .refl w
    | some x => cases h
  | succ fuel ih =>
    cases head with
    | none =>
      obtain ⟨rfl, -⟩ := Prod.mk.inj (Except.ok.inj h)
      exact .refl w
    | some x =>
      rw [activeLoop_some] at h
      obtain ⟨r, hr, h⟩ := Exec.bind_eq_ok.mp h
      obtain ⟨rfl, -⟩ := Prod.mk.inj (Except.ok.inj h)
      exact (takeOff_alike.trans (acts_alike _)).trans (ih hr)

theorem active_alike (h : active (callback acts) w n = .ok (w', fired)) : Alike w w' :=
  setSlot_alike.trans (activeLoop_alike h)

theorem updateLoop_alike {rounds i : ℕ}
    (h : updateLoop (callback acts) rounds i w = .ok (w', fired)) : Alike w w' := by
  induction rounds generalizing w i fired with
  | zero =>
    obtain ⟨rfl, -⟩ := Prod.mk.inj (Except.ok.inj h)
    exact .refl w
  | succ rounds ih =>
    rw [updateLoop] at h
    obtain ⟨r, hr, h⟩ := Exec.bind_eq_ok.mp h
    obtain ⟨r', hr', h⟩ := Exec.bind_eq_ok.mp h
    obtain ⟨rfl, -⟩ := Prod.mk.inj (Except.ok.inj h)
    exact (active_alike hr).trans (ih hr')

/-- **A call of `UpdateWheel`** changes no numbers but `current` and `last_update`. -/
theorem updateWheel_alike {now : ℕ} {r : ℤ}
    (h : updateWheel (callback acts) w now = .ok (w', fired, r)) :
    Alike w { w' with current := w.current, lastUpdate := w.lastUpdate } := by
  unfold updateWheel at h
  dsimp only at h
  split at h
  · obtain ⟨rfl, -⟩ := Prod.mk.inj (Except.ok.inj h)
    exact .refl w
  · obtain ⟨u, hu, h⟩ := Exec.bind_eq_ok.mp h
    have hsame := updateLoop_alike hu
    split at h
    · cases h
    · obtain ⟨rfl, -⟩ := Prod.mk.inj (Except.ok.inj h)
      exact ⟨hsame.precision, hsame.slotSize, rfl, rfl, hsame.items, hsame.callback⟩

end Kendylib.TimingWheel
