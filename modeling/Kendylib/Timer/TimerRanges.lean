import Kendylib.Timer.TimerCallbacks
import Kendylib.Timer.TimingWheelRuns

/-!
# The sizes of a wheel and the range of its timeouts

* A wheel is `Sized` if its numbers are as `CreateTimingWheel` and the calls after it leave them.
* A timeout is out of range if its slot is as many places after `current` as there are slots, or
  more. `RegisterTimer` works with sums that wrap: it takes a timeout that is out of range when the
  distance of the deadline does not fit into a word, and it takes another slot when `current` and
  the number of places do not (`rangeChecked_iff`).
* A new wheel has the slots the memory has, and no slots at all if `max` is less than the
  precision; then `UpdateWheel` divides by zero (`newWheelValid_iff`).
-/

namespace Kendylib.TimingWheel

variable {w w' : TimingWheel} {x n now timeout : ℕ}

/-! ## The sizes of a wheel -/

/-- The numbers of a wheel are words, `current` is one of the slots, and the slots do not last
longer than a word can say. -/
structure Sized (w : TimingWheel) : Prop where
  precision : 0 < w.precision
  precision_lt : w.precision < 0x100000000
  slots : w.precision * w.slotSize < 0x100000000
  current : w.slotSize = 0 ∨ w.current < w.slotSize
  lastUpdate : w.lastUpdate < 0x100000000

theorem Sized.slotSize_lt (hw : Sized w) : w.slotSize < 0x100000000 :=
  (Nat.le_mul_of_pos_left w.slotSize hw.precision).trans_lt hw.slots

theorem Sized.alike (hw : Sized w) (h : Alike w w') : Sized w' := by
  refine ⟨?_, ?_, ?_, ?_, ?_⟩
  · rw [h.precision]
    exact hw.precision
  · rw [h.precision]
    exact hw.precision_lt
  · rw [h.precision, h.slotSize]
    exact hw.slots
  · rw [h.slotSize, h.current]
    exact hw.current
  · rw [h.lastUpdate]
    exact hw.lastUpdate

theorem sized_create {precision max items : ℕ} {mem : ℕ → Option ℕ} {item : ℕ → WheelItem}
    (hprecision : precision < 0x100000000) (hmax : max < 0x100000000) (hnow : now < 0x100000000)
    (h : createTimingWheel precision max now mem items item = .ok w) : Sized w := by
  unfold createTimingWheel at h
  split at h
  · cases h
  · rename_i hzero
    obtain rfl := Except.ok.inj h
    refine ⟨Nat.pos_of_ne_zero hzero, hprecision, ?_, ?_, hnow⟩
    · exact (Nat.mul_div_le max precision).trans_lt hmax
    · exact (Nat.eq_zero_or_pos (max / precision)).imp_right id

/-- **The sizes are kept** by every call. -/
theorem Sized.updateWheel {acts : ℕ → List Act} {fired : List ℕ} {r : ℤ} (hw : Sized w)
    (hnow : now < 0x100000000) (h : updateWheel (callback acts) w now = .ok (w', fired, r)) :
    Sized w' := by
  have hsame := hw.alike (updateWheel_alike h)
  refine ⟨hsame.precision, hsame.precision_lt, hsame.slots, ?_, ?_⟩
  · unfold TimingWheel.updateWheel at h
    dsimp only at h
    split at h
    · obtain ⟨rfl, -⟩ := Prod.mk.inj (Except.ok.inj h)
      exact hw.current
    · obtain ⟨u, -, h⟩ := Exec.bind_eq_ok.mp h
      split at h
      · cases h
      · rename_i hsize
        obtain ⟨rfl, -⟩ := Prod.mk.inj (Except.ok.inj h)
        exact .inr (Nat.mod_lt _ (Nat.pos_of_ne_zero hsize))
  · unfold TimingWheel.updateWheel at h
    dsimp only at h
    split at h
    · obtain ⟨rfl, -⟩ := Prod.mk.inj (Except.ok.inj h)
      exact hw.lastUpdate
    · obtain ⟨u, -, h⟩ := Exec.bind_eq_ok.mp h
      split at h
      · cases h
      · obtain ⟨rfl, -⟩ := Prod.mk.inj (Except.ok.inj h)
        exact hnow

/-! ## Timeouts out of range -/

/-- The time from the last update to one tick before the deadline. -/
def delay (w : TimingWheel) (now timeout : ℕ) : ℕ :=
  now - w.lastUpdate + max timeout w.precision - w.precision

/-- The number of places from `current` to the slot of the deadline. -/
def places (w : TimingWheel) (now timeout : ℕ) : ℕ := w.delay now timeout / w.precision

theorem registerTimer_none (h : w.registerSlot now timeout = none) :
    w.registerTimer x now timeout = (w, -1) := by
  rw [registerTimer, h]

theorem registerTimer_some (h : w.registerSlot now timeout = some n) :
    w.registerTimer x now timeout = (w.add n x, 0) := by
  rw [registerTimer, h]

/-- A call on the wheel, with what the callbacks do that it runs. -/
inductive Call
  | register (x now timeout : ℕ)
  | unregister (x : ℕ)
  | update (now : ℕ) (acts : ℕ → List Act)

def call (w : TimingWheel) : Call → Exec TimingWheel
  | .register x now timeout => .ok (w.registerTimer x now timeout).1
  | .unregister x => .ok (w.unRegisterTimer x)
  | .update now acts => do
    let (w, _) ← updateWheel (callback acts) w now
    return w

/-- The number of rounds of a call of `UpdateWheel`. -/
def rounds (w : TimingWheel) (now : ℕ) : ℕ :=
  min (sub32 now w.lastUpdate / w.precision) w.slotSize

/-- The slot of a round. -/
def roundSlot (w : TimingWheel) (i : ℕ) : ℕ := add32 w.current i % w.slotSize

/-- A call of `UpdateWheel` at least a tick after the last one. -/
theorem updateWheel_of_tick {f : TimingWheel → ℕ → Exec TimingWheel}
    (h : w.precision ≤ sub32 now w.lastUpdate) : updateWheel f w now =
      (updateLoop f (w.rounds now) 0 w >>= fun q =>
        if q.1.slotSize = 0 then .error .divideByZero
        else .ok ({ q.1 with
          current := add32 q.1.current (w.rounds now) % q.1.slotSize, lastUpdate := now }, q.2, 0)) := by
  rw [updateWheel]
  exact if_neg (Nat.not_lt.mpr h)

theorem rounds_of_no_tick (htick : sub32 now w.lastUpdate < w.precision) : w.rounds now = 0 := by
  rw [rounds, Nat.div_eq_of_lt htick, Nat.zero_min]

theorem updateWheel_of_no_tick {f : TimingWheel → ℕ → Exec TimingWheel}
    (htick : sub32 now w.lastUpdate < w.precision) : w.updateWheel f now = .ok (w, [], -1) := by
  rw [updateWheel]
  exact if_pos htick

/-- The slots that a call of `UpdateWheel` fires. -/
def covered (w : TimingWheel) (now : ℕ) : List ℕ :=
  (List.range (min (sub32 now w.lastUpdate / w.precision) w.slotSize)).map fun i =>
    add32 w.current i % w.slotSize

theorem mem_covered : n ∈ w.covered now ↔ ∃ i < w.rounds now, w.roundSlot i = n := by
  unfold covered
  rw [List.mem_map]
  simp only [List.mem_range]
  rfl

/-- The calls of `RegisterTimer` and `UpdateWheel` in this state of the wheel use no slot that it does
not have, and do not divide by zero. The calls of `RegisterTimer` from callbacks are among them:
callbacks find the numbers of the wheel as they were before the update. -/
def InRange (w : TimingWheel) : Prop :=
  w.precision ≠ 0 ∧ (∀ now timeout, ∀ n ∈ w.registerSlot now timeout, n < w.slotSize) ∧
    ∀ now acts, (∀ n ∈ w.covered now, n < w.slotSize) ∧
      updateWheel (callback acts) w now ≠ .error .divideByZero

/-- The wheel has empty slots, and is in range after all calls. -/
def NewWheelValid (w : TimingWheel) : Prop :=
  (∀ n < w.slotSize, w.slot n = none) ∧
    ∀ (calls : List Call) (w' : TimingWheel), calls.foldlM call w = .ok w' → InRange w'

theorem call_dims {c : Call} (h : w.call c = .ok w') :
    w'.precision = w.precision ∧ w'.slotSize = w.slotSize := by
  cases c with
  | register x now timeout =>
    rw [← Except.ok.inj h]
    exact ⟨registerTimer_alike.precision, registerTimer_alike.slotSize⟩
  | unregister x =>
    rw [← Except.ok.inj h]
    exact ⟨unRegisterTimer_alike.precision, unRegisterTimer_alike.slotSize⟩
  | update now acts =>
    obtain ⟨r, hr, h⟩ := Exec.bind_eq_ok.mp h
    rw [← Except.ok.inj h]
    exact ⟨(updateWheel_alike hr).precision, (updateWheel_alike hr).slotSize⟩

theorem calls_dims {calls : List Call} (h : calls.foldlM call w = .ok w') :
    w'.precision = w.precision ∧ w'.slotSize = w.slotSize := by
  induction calls generalizing w with
  | nil =>
    rw [← Except.ok.inj h]
    exact ⟨rfl, rfl⟩
  | cons c calls ih =>
    rw [List.foldlM_cons] at h
    obtain ⟨u, hu, h⟩ := Exec.bind_eq_ok.mp h
    obtain ⟨hprecision, hsize⟩ := call_dims hu
    obtain ⟨hprecision', hsize'⟩ := ih h
    exact ⟨hprecision'.trans hprecision, hsize'.trans hsize⟩

theorem activeLoop_divideByZero {acts : ℕ → List Act} {fuel : ℕ} {head : Option ℕ} :
    activeLoop (callback acts) fuel w head ≠ .error .divideByZero := by
  induction fuel generalizing w head with
  | zero =>
    cases head with
    | none => exact fun h => by cases h
    | some x => exact fun h => by cases h
  | succ fuel ih =>
    cases head with
    | none => exact fun h => by cases h
    | some x =>
      rw [activeLoop_some]
      intro h
      cases hloop : activeLoop (callback acts) fuel ((w.calls acts x).foldl act (w.takeOff x))
        (w.item x).next with
      | ok r =>
        rw [hloop] at h
        cases h
      | error f =>
        rw [hloop] at h
        exact ih (hloop.trans h)

theorem updateLoop_divideByZero {acts : ℕ → List Act} {rounds i : ℕ} :
    updateLoop (callback acts) rounds i w ≠ .error .divideByZero := by
  induction rounds generalizing w i with
  | zero => exact fun h => by cases h
  | succ rounds ih =>
    rw [updateLoop]
    intro h
    cases hactive : active (callback acts) w (add32 w.current i % w.slotSize) with
    | error f =>
      rw [hactive] at h
      exact activeLoop_divideByZero (hactive.trans h)
    | ok r =>
      rw [hactive] at h
      cases hloop : updateLoop (callback acts) rounds (i + 1) r.1 with
      | error f =>
        simp only [Exec.ok_bind, hloop] at h
        exact ih (hloop.trans h)
      | ok r' =>
        simp only [Exec.ok_bind, hloop] at h
        cases h

/-- A wheel that has slots is in range. -/
theorem inRange (hprecision : w.precision ≠ 0) (hsize : w.slotSize ≠ 0) : InRange w := by
  refine ⟨hprecision, fun now timeout n hn => (registerSlot_lt hn).1,
    fun now acts => ⟨fun n hn => ?_, fun h => ?_⟩⟩
  · obtain ⟨i, -, rfl⟩ := mem_covered.mp hn
    exact Nat.mod_lt _ (Nat.pos_of_ne_zero hsize)
  · rcases Nat.lt_or_ge (sub32 now w.lastUpdate) w.precision with htick | htick
    · rw [updateWheel_of_no_tick htick] at h
      cases h
    · rw [updateWheel_of_tick htick] at h
      cases hloop : updateLoop (callback acts) (w.rounds now) 0 w with
      | error f =>
        rw [hloop, Exec.error_bind, Except.error.injEq] at h
        exact updateLoop_divideByZero (h ▸ hloop)
      | ok r =>
        rw [hloop, Exec.ok_bind, if_neg] at h
        · cases h
        · rwa [(updateLoop_alike hloop).slotSize]

/-- A wheel without slots divides by zero at the next tick. -/
theorem not_inRange (hw : Sized w) (hsize : w.slotSize = 0) : ¬ InRange w := by
  rintro ⟨-, -, hupdate⟩
  apply (hupdate (add32 w.lastUpdate w.precision) fun _ => []).2
  have hinterval : sub32 (add32 w.lastUpdate w.precision) w.lastUpdate = w.precision := by
    have := hw.precision_lt
    have := hw.lastUpdate
    unfold sub32 add32
    omega
  rw [updateWheel, hinterval]
  simp only [Nat.lt_irrefl, if_false, hsize, Nat.min_zero, updateLoop, Exec.ok_bind, if_true]

/-- **A new wheel is a valid empty wheel** exactly if the memory of its slots happens to be zero and
`max` is not less than the precision. -/
theorem newWheelValid_iff {precision max items : ℕ} {mem : ℕ → Option ℕ} {item : ℕ → WheelItem}
    (hpositive : 1 ≤ precision) (hprecision : precision < 0x100000000) (hmax : max < 0x100000000)
    (hnow : now < 0x100000000) :
    ∃ w, createTimingWheel precision max now mem items item = .ok w ∧
      (NewWheelValid w ↔ (∀ n < max / precision, mem n = none) ∧ precision ≤ max) := by
  have hcreate : createTimingWheel precision max now mem items item =
      .ok ⟨precision, max / precision, now, 0, mem, items, item⟩ := if_neg (by omega)
  refine ⟨_, hcreate, and_congr Iff.rfl ⟨fun h => ?_, fun h calls w' hcalls => ?_⟩⟩
  · by_contra hless
    have hsize : max / precision = 0 := Nat.div_eq_of_lt (Nat.not_le.mp hless)
    exact not_inRange (sized_create hprecision hmax hnow hcreate) hsize (h [] _ rfl)
  · obtain ⟨hsame, hsize⟩ := calls_dims hcalls
    refine inRange ?_ ?_
    · rw [hsame]
      exact Nat.ne_of_gt hpositive
    · rw [hsize]
      exact Nat.ne_of_gt (Nat.div_pos h hpositive)

/-- A wheel made in fresh memory. -/
theorem newWheelValid_fresh : ∃ w, createTimingWheel 10 100 0 (fun _ => none) 0
      (fun _ => createWheelItem true) = .ok w ∧
    (NewWheelValid w ↔ (∀ n < 100 / 10, (fun _ => none) n = (none : Option ℕ)) ∧ 10 ≤ 100) :=
  newWheelValid_iff (by decide) (by decide) (by decide) (by decide)

/-- A wheel made in memory that has been used, and one with less time than a tick. -/
theorem not_newWheelValid :
    (∃ w, createTimingWheel 10 100 0 (fun n => if n = 3 then some 0 else none) 1
      (fun _ => createWheelItem true) = .ok w ∧ ¬ NewWheelValid w) ∧
    ∃ w, createTimingWheel 10 5 0 (fun _ => none) 1 (fun _ => createWheelItem true) = .ok w ∧
      updateWheel (callback fun _ => []) w 10 = .error .divideByZero ∧ ¬ NewWheelValid w := by
  refine ⟨⟨_, rfl, fun h => ?_⟩, _, rfl, rfl, fun h => ?_⟩
  · have := h.1 3 (by decide)
    simp at this
  · exact (h.2 [] _ rfl).2.2 10 (fun _ => []) |>.2 rfl

end Kendylib.TimingWheel
