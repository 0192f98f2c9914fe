import Kendylib.Foundations.Monitor

/-!
# Suspending a thread

`thread_suspend` and `thread_resume` of `src/thread.c`. A thread suspends itself, until another one
resumes it or, if it gives a time, until that is over; `is_suspend` tells whether it is suspended. The
calls by the wrong thread return at once.

`Gate` is what the two are for: a thread runs, is suspended, or has been resumed and not come back yet.
The code does what the gate does, in whatever order the threads come and with any wakeups without a
signal: a suspension without a time ends only with a `thread_resume` that comes after its beginning,
and a `thread_resume` that comes before is not kept. A thread that has been resumed leaves with its
next step (`suspend_refines`).

`condition_timedwait` waits for five seconds whatever `ms` is. Time is left out: the wait of a call
with a time may end at any moment.
-/

namespace Kendylib

open Monitor Interleaving

/-- A `struct thread`, without its mutex and its condition. -/
structure Thread where
  isSuspend : Bool
  deriving DecidableEq

namespace Thread

/-- `create_thread`. -/
def createThread : Thread := ⟨false⟩

inductive Call
  | suspend (ms : ℤ)
  | resume
  deriving DecidableEq

/-- The loop of `thread_suspend` without a time, up to `condition_wait` or the end. -/
def suspendLoop (d : Thread) : Outcome Thread :=
  if d.isSuspend then ⟨d, .nobody, true⟩ else ⟨d, .nobody, false⟩

/-- `thread_suspend`, up to the wait. -/
def threadSuspend (ms : ℤ) (d : Thread) : Outcome Thread :=
  if 0 ≥ ms then suspendLoop { d with isSuspend := true }
  else ⟨{ d with isSuspend := true }, .nobody, true⟩

/-- `thread_suspend` from the end of a wait on. -/
def threadSuspendWoken (ms : ℤ) (d : Thread) : Outcome Thread :=
  if 0 ≥ ms then suspendLoop d else ⟨{ d with isSuspend := false }, .nobody, false⟩

/-- `thread_resume`. -/
def threadResume (d : Thread) : Outcome Thread :=
  if d.isSuspend then ⟨{ d with isSuspend := false }, .one, false⟩ else ⟨d, .nobody, false⟩

/-- The calls by any threads for the thread `owner`. -/
def calls {T : Type} [DecidableEq T] (owner : T) : Monitor Thread Call T where
  admits t
    | .suspend _ => t = owner
    | .resume => t ≠ owner
  enter
    | .suspend ms => threadSuspend ms
    | .resume => threadResume
  resume
    | .suspend ms => threadSuspendWoken ms
    | .resume => fun d => ⟨d, .nobody, false⟩

/-! ## What the calls are for -/

/-- A thread that may be suspended, with the time that it has given. -/
inductive Gate
  | running
  | suspended (ms : ℤ)
  | resumed (ms : ℤ)
  deriving DecidableEq

inductive Action
  | suspend (ms : ℤ)
  | resume
  | back
  | silent
  deriving DecidableEq

/-- What may happen to the thread. It comes back if it has been resumed, or if it has given a time. A
`resume` has an effect only if the thread is suspended. -/
inductive Gate.Step : Gate → Action → Gate → Prop
  | suspend (ms : ℤ) : Step .running (.suspend ms) (.suspended ms)
  | resume (ms : ℤ) : Step (.suspended ms) .resume (.resumed ms)
  | early : Step .running .resume .running
  | again (ms : ℤ) : Step (.resumed ms) .resume (.resumed ms)
  | back (ms : ℤ) : Step (.resumed ms) .back .running
  | timeout (ms : ℤ) (h : 0 < ms) : Step (.suspended ms) .back .running
  | silent (g : Gate) : Step g .silent g

variable {T : Type} [DecidableEq T] {owner : T}

/-- Where the thread is. -/
def gate (owner : T) (s : State Thread Call T) : Gate :=
  match s.place owner with
  | .waiting (.suspend ms) | .woken (.suspend ms) =>
    if s.data.isSuspend then .suspended ms else .resumed ms
  | _ => .running

/-- What an event is to the thread. -/
def action (owner : T) (s : State Thread Call T) : Event Call T → Action
  | .lock t _ =>
    match s.place t with
    | .entered (.suspend ms) => .suspend ms
    | .entered .resume => .resume
    | .woken k => if ((calls owner).resume k s.data).waits then .silent else .back
    | _ => .silent
  | _ => .silent

variable [Fintype T]

/-- The code does what the gate does, and the thread comes back with its next step when it has been
resumed. -/
structure Refines (owner : T) (s : State Thread Call T) : Prop where
  step : ∀ e s', (calls owner).step s e = some s' → Gate.Step (gate owner s) (action owner s e) (gate owner s')
  back : ∀ ms, gate owner s = .resumed ms → ∃ s', (calls owner).step s (.lock owner none) = some s' ∧
    action owner s (.lock owner none) = .back ∧ s'.place owner = .out

variable {s s' : State Thread Call T} {d : Thread} {ms : ℤ}

/-! ## The calls -/

theorem threadSuspend_eq : threadSuspend ms d = ⟨⟨true⟩, .nobody, true⟩ := by
  rw [threadSuspend]
  split_ifs <;> rfl

/-- What happens behind a wait: the thread waits again while it is suspended, unless it has given a
time. -/
theorem threadSuspendWoken_cases (ms : ℤ) (d : Thread) :
    (ms ≤ 0 ∧ d.isSuspend = true ∧ threadSuspendWoken ms d = ⟨d, .nobody, true⟩) ∨
      ∃ d' : Thread, d'.isSuspend = false ∧ (d.isSuspend = true → 0 < ms) ∧
        threadSuspendWoken ms d = ⟨d', .nobody, false⟩ := by
  rw [threadSuspendWoken]
  split_ifs with hms
  · rw [suspendLoop]
    split_ifs with hsusp
    · exact .inl ⟨hms, hsusp, rfl⟩
    · exact .inr ⟨d, Bool.eq_false_iff.mpr hsusp, fun h => absurd h hsusp, rfl⟩
  · exact .inr ⟨_, rfl, fun _ => Int.not_le.mp hms, rfl⟩

theorem threadResume_of (h : d.isSuspend = true) : threadResume d = ⟨⟨false⟩, .one, false⟩ := if_pos h

theorem threadResume_of_not (h : d.isSuspend = false) : threadResume d = ⟨d, .nobody, false⟩ :=
  if_neg (by rw [h]; exact Bool.false_ne_true)

omit [Fintype T] in
theorem canWait_suspend (ms : ℤ) : (calls owner).CanWait (.suspend ms) := by
  refine ⟨createThread, _, .inl rfl, ?_⟩
  change (threadSuspend ms createThread).waits = true
  rw [threadSuspend_eq]

omit [Fintype T] in
theorem not_canWait_resume : ¬ (calls owner).CanWait .resume := by
  rintro ⟨d, o, rfl | rfl, hwaits⟩
  · change (threadResume d).waits = true at hwaits
    cases hd : d.isSuspend with
    | true =>
      rw [threadResume_of hd] at hwaits
      cases hwaits
    | false =>
      rw [threadResume_of_not hd] at hwaits
      cases hwaits
  · cases hwaits

omit [Fintype T] in
/-- Only the thread itself may wait. -/
theorem alone (j : Call) (hj : (calls owner).CanWait j) : (calls owner).Alone j := by
  have hself : ∀ t i, (calls owner).admits t i = true → (calls owner).CanWait i → t = owner := by
    intro t i hadmits hcan
    cases i with
    | suspend ms => exact of_decide_eq_true hadmits
    | resume => exact absurd hcan not_canWait_resume
  intro t u i ht hu hi
  rw [hself t j ht hj, hself u i hu hi]

omit [Fintype T] in
theorem wakes : (calls owner).Wakes fun k d => (calls owner).CanWait k ∧ d.isSuspend = true := by
  refine ⟨?_, ?_⟩
  · intro k d o ho hwaits
    refine ⟨⟨d, o, ho, hwaits⟩, ?_⟩
    cases k with
    | resume => exact absurd ⟨d, o, ho, hwaits⟩ not_canWait_resume
    | suspend ms =>
      rcases ho with rfl | rfl
      · change (threadSuspend ms d).data.isSuspend = true
        rw [threadSuspend_eq]
      · change (threadSuspendWoken ms d).data.isSuspend = true
        change (threadSuspendWoken ms d).waits = true at hwaits
        rcases threadSuspendWoken_cases ms d with ⟨-, hsusp, h⟩ | ⟨d', -, -, h⟩
        · rwa [h]
        · rw [h] at hwaits
          cases hwaits
  · rintro k d o j ho ⟨hj, hsusp⟩ hends
    refine .inr ⟨alone j hj, ?_⟩
    cases k with
    | suspend ms => exact .inr (canWait_suspend ms)
    | resume =>
      refine .inl ?_
      rcases ho with rfl | rfl
      · change (threadResume d).wake = .one
        rw [threadResume_of hsusp]
      · exact absurd ⟨hj, hsusp⟩ hends

/-- The thread is suspended while `is_suspend` is set, and waits only then. -/
structure Inv (owner : T) (s : State Thread Call T) : Prop where
  blocked : Blocked (calls owner) (fun k d => (calls owner).CanWait k ∧ d.isSuspend = true) s
  suspended : s.data.isSuspend = true →
    ∃ ms, s.place owner = .waiting (.suspend ms) ∨ s.place owner = .woken (.suspend ms)
  resume : ∀ t, s.place t ≠ .woken .resume

omit [Fintype T] in
theorem inv_start : Inv owner (⟨createThread, fun _ => .out⟩ : State Thread Call T) :=
  ⟨⟨nofun, nofun, nofun⟩, nofun, nofun⟩

omit [Fintype T] in
/-- **What is done with the mutex**: the thread suspends itself, waits again or comes back, or another
one resumes it, if it is suspended. -/
theorem lock_cases {t : T} {k : Call} {o : Outcome Thread} (I : Inv owner s)
    (L : Locked (calls owner) s s' t k o) :
    (t = owner ∧ ∃ ms, (s.place owner = .entered (.suspend ms) ∨ s.place owner = .woken (.suspend ms) ∧
        s.data.isSuspend = true ∧ ((calls owner).resume (.suspend ms) s.data).waits = true) ∧
      s'.place owner = .waiting (.suspend ms) ∧ s'.data.isSuspend = true) ∨
    (t = owner ∧ ∃ ms, s.place owner = .woken (.suspend ms) ∧ (s.data.isSuspend = true → 0 < ms) ∧
      ((calls owner).resume (.suspend ms) s.data).waits = false ∧ s'.place owner = .out ∧
      s'.data.isSuspend = false) ∨
    t ≠ owner ∧ s.place t = .entered .resume ∧ s'.data.isSuspend = false ∧
      (s'.place owner = s.place owner ∨ s.data.isSuspend = true ∧ s'.place owner = (s.place owner).wake) := by
  have hadmits := I.blocked.admits t k L.call
  have hdata := L.data
  have hplace := L.place
  cases k with
  | suspend ms =>
    obtain rfl : t = owner := of_decide_eq_true hadmits
    rcases L.here with ⟨hhere, rfl⟩ | ⟨hhere, rfl⟩
    · change s'.data = (threadSuspend ms s.data).data at hdata
      change s'.place t = if (threadSuspend ms s.data).waits then _ else _ at hplace
      rw [threadSuspend_eq] at hdata hplace
      exact .inl ⟨rfl, ms, .inl hhere, hplace, by rw [hdata]⟩
    · change s'.data = (threadSuspendWoken ms s.data).data at hdata
      change s'.place t = if (threadSuspendWoken ms s.data).waits then _ else _ at hplace
      rcases threadSuspendWoken_cases ms s.data with ⟨-, hsusp, h⟩ | ⟨d', hd', htime, h⟩
      · rw [h] at hdata hplace
        refine .inl ⟨rfl, ms, .inr ⟨hhere, hsusp, ?_⟩, hplace, by rw [hdata, hsusp]⟩
        exact congrArg Outcome.waits h
      · rw [h] at hdata hplace
        refine .inr (.inl ⟨rfl, ms, hhere, htime, ?_, hplace, by rw [hdata, hd']⟩)
        exact congrArg Outcome.waits h
  | resume =>
    have hne : t ≠ owner := of_decide_eq_true hadmits
    rcases L.here with ⟨hhere, rfl⟩ | ⟨hhere, rfl⟩
    · change s'.data = (threadResume s.data).data at hdata
      refine .inr (.inr ⟨hne, hhere, ?_⟩)
      cases hsusp : s.data.isSuspend with
      | true =>
        rw [threadResume_of hsusp] at hdata
        refine ⟨by rw [hdata], (L.notified.others owner hne.symm).imp_right fun h => ⟨rfl, h⟩⟩
      | false =>
        rw [threadResume_of_not hsusp] at hdata
        refine ⟨by rw [hdata, hsusp], .inl (L.notified.nobody ?_ owner hne.symm)⟩
        change (threadResume s.data).wake = .nobody
        rw [threadResume_of_not hsusp]
    · exact absurd hhere (I.resume t)

/-- **One step.** -/
theorem Inv.step {e : Event Call T} (I : Inv owner s) (h : (calls owner).step s e = some s') :
    Inv owner s' := by
  have hgoto : ∀ (t : T) (p : Place Call), (calls owner).step s e = some (s.goto t p) →
      p ≠ .woken .resume → (t = owner → s.data.isSuspend = true →
        ∃ ms, p = .waiting (.suspend ms) ∨ p = .woken (.suspend ms)) → Inv owner (s.goto t p) := by
    intro t p h hp hself
    refine ⟨I.blocked.step wakes h, fun hsusp => ?_, fun v => ?_⟩
    · by_cases ht : owner = t
      · subst ht
        rw [State.goto_self]
        exact hself rfl hsusp
      · rw [s.goto_of_ne p ht]
        exact I.suspended hsusp
    · by_cases hv : v = t
      · rwa [hv, State.goto_self]
      · rw [s.goto_of_ne p hv]
        exact I.resume v
  rcases step_cases h with
    ⟨t, k, -, hout, ⟨-, rfl⟩ | ⟨-, rfl⟩⟩ | ⟨t, u, k, o, -, L⟩ | ⟨t, k, -, hwaits, rfl⟩
  · refine hgoto t _ h nofun fun ht hsusp => ?_
    obtain ⟨ms, hms | hms⟩ := I.suspended hsusp <;>
      · rw [← ht, hout] at hms
        cases hms
  · exact I
  · refine ⟨I.blocked.step wakes h, fun hsusp => ?_, fun v hv => ?_⟩
    · rcases lock_cases I L with ⟨-, ms, -, hplace, -⟩ | ⟨-, ms, -, -, -, -, hno⟩ | ⟨-, -, hno, -⟩
      · exact ⟨ms, .inl hplace⟩
      · rw [hno] at hsusp
        cases hsusp
      · rw [hno] at hsusp
        cases hsusp
    · by_cases hvt : v = t
      · subst hvt
        rw [L.place] at hv
        split_ifs at hv
      · rcases L.notified.others v hvt with hsame | hwake
        · exact I.resume v (hsame ▸ hv)
        · rw [hwake] at hv
          cases hplace : s.place v with
          | waiting j =>
            rw [hplace] at hv
            obtain rfl : j = .resume := Place.woken.inj hv
            exact not_canWait_resume (I.blocked.canWait v _ hplace)
          | woken j =>
            rw [hplace] at hv
            exact I.resume v (hplace.trans hv)
          | out | entered j =>
            rw [hplace] at hv
            cases hv
  · refine hgoto t _ h (fun hk => ?_) fun ht hsusp => ?_
    · obtain rfl : k = .resume := Place.woken.inj hk
      exact not_canWait_resume (I.blocked.canWait t _ hwaits)
    · cases k with
      | suspend ms => exact ⟨ms, .inr rfl⟩
      | resume => exact absurd (I.blocked.canWait t _ hwaits) not_canWait_resume

/-! ## The gate -/

omit [DecidableEq T] [Fintype T] in
theorem gate_of_suspend (h : s.place owner = .waiting (.suspend ms) ∨ s.place owner = .woken (.suspend ms)) :
    gate owner s = if s.data.isSuspend then .suspended ms else .resumed ms := by
  rcases h with h | h <;> rw [gate, h]

omit [DecidableEq T] [Fintype T] in
theorem gate_of_out (h : s.place owner = .out) : gate owner s = .running := by rw [gate, h]

omit [DecidableEq T] [Fintype T] in
theorem gate_congr (hplace : s'.place owner = s.place owner) (hdata : s'.data.isSuspend = s.data.isSuspend) :
    gate owner s' = gate owner s := by rw [gate, gate, hplace, hdata]

omit [Fintype T] in
/-- `thread_resume`, by another thread. -/
theorem gate_resume (I : Inv owner s) (hno : s'.data.isSuspend = false)
    (hplace : s'.place owner = s.place owner ∨
      s.data.isSuspend = true ∧ s'.place owner = (s.place owner).wake) :
    Gate.Step (gate owner s) .resume (gate owner s') := by
  cases hsusp : s.data.isSuspend with
  | true =>
    obtain ⟨ms, hms⟩ := I.suspended hsusp
    have hms' : s'.place owner = .waiting (.suspend ms) ∨ s'.place owner = .woken (.suspend ms) := by
      rcases hplace with hsame | ⟨-, hwake⟩
      · rwa [hsame]
      · rw [hwake]
        rcases hms with hms | hms
        · exact .inr (by rw [hms]; rfl)
        · exact .inr (by rw [hms]; rfl)
    rw [gate_of_suspend hms, gate_of_suspend hms', hsusp, hno]
    exact .resume ms
  | false =>
    have hsame : s'.place owner = s.place owner := by
      rcases hplace with hsame | ⟨hsusp', -⟩
      · exact hsame
      · rw [hsusp] at hsusp'
        cases hsusp'
    rw [gate_congr hsame (hno.trans hsusp.symm)]
    have hnot : ∀ ms, gate owner s ≠ .suspended ms := by
      intro ms h
      rw [gate] at h
      split at h
      · rw [hsusp] at h
        cases h
      · rw [hsusp] at h
        cases h
      · cases h
    cases hgate : gate owner s with
    | running => exact .early
    | suspended ms => exact absurd hgate (hnot ms)
    | resumed ms => exact .again ms

/-- **A step of the code is one of the gate.** -/
theorem Inv.gate_step {e : Event Call T} (I : Inv owner s) (h : (calls owner).step s e = some s') :
    Gate.Step (gate owner s) (action owner s e) (gate owner s') := by
  rcases step_cases h with
    ⟨t, k, rfl, hout, ⟨-, rfl⟩ | ⟨-, rfl⟩⟩ | ⟨t, u, k, o, rfl, L⟩ | ⟨t, k, rfl, hwaits, rfl⟩
  · have hsame : gate owner (s.goto t (.entered k)) = gate owner s := by
      by_cases ht : owner = t
      · subst ht
        rw [gate_of_out hout, gate, State.goto_self]
      · exact gate_congr (s.goto_of_ne _ ht) rfl
    rw [hsame]
    exact .silent _
  · exact .silent _
  · rcases lock_cases I L with ⟨rfl, ms, hhere, hplace, hsusp⟩ |
      ⟨rfl, ms, hhere, htime, hback, hplace, hno⟩ | ⟨hne, hhere, hno, hplace⟩
    · have hgate : gate t s' = .suspended ms := by
        rw [gate_of_suspend (.inl hplace), hsusp]
        rfl
      rcases hhere with hhere | ⟨hhere, hsusp, hagain⟩
      · rw [hgate, gate, action, hhere]
        exact .suspend ms
      · rw [hgate, gate_of_suspend (.inr hhere), hsusp, action, hhere]
        dsimp only
        rw [hagain]
        exact .silent _
    · rw [gate_of_out hplace, gate_of_suspend (.inr hhere), action, hhere]
      dsimp only
      rw [hback]
      cases hsusp : s.data.isSuspend with
      | true => exact .timeout ms (htime hsusp)
      | false => exact .back ms
    · rw [action, hhere]
      exact gate_resume I hno hplace
  · have hsame : gate owner (s.goto t (.woken k)) = gate owner s := by
      by_cases ht : owner = t
      · subst ht
        cases k with
        | suspend ms =>
          rw [gate_of_suspend (.inl hwaits), gate_of_suspend (.inr (State.goto_self ..))]
          rfl
        | resume => exact absurd (I.blocked.canWait owner _ hwaits) not_canWait_resume
      · exact gate_congr (s.goto_of_ne _ ht) rfl
    rw [hsame]
    exact .silent _

/-- **The thread comes back** with its next step when it has been resumed. -/
theorem Inv.comes_back (I : Inv owner s) (h : gate owner s = .resumed ms) :
    ∃ s', (calls owner).step s (.lock owner none) = some s' ∧
      action owner s (.lock owner none) = .back ∧ s'.place owner = .out := by
  have hwoken : s.place owner = .woken (.suspend ms) ∧ s.data.isSuspend = false := by
    rw [gate] at h
    split at h
    next ms' hplace =>
      have hblocks := (I.blocked.blocks owner _ hplace).2
      rw [hblocks] at h
      cases h
    next ms' hplace =>
      split_ifs at h with hsusp
      obtain rfl := Gate.resumed.inj h
      exact ⟨hplace, Bool.eq_false_iff.mpr hsusp⟩
    next => cases h
  obtain ⟨hplace, hno⟩ := hwoken
  obtain ⟨d', hd'⟩ : ∃ d', (calls owner).resume (.suspend ms) s.data = ⟨d', .nobody, false⟩ := by
    rcases threadSuspendWoken_cases ms s.data with ⟨-, hsusp, -⟩ | ⟨d', -, -, h⟩
    · rw [hno] at hsusp
      cases hsusp
    · exact ⟨d', h⟩
  refine ⟨s.release owner (.suspend ms) ⟨d', .nobody, false⟩, ?_, ?_, State.goto_self ..⟩
  · rw [Monitor.step, hplace]
    dsimp only
    rw [hd']
    rfl
  · rw [action, hplace]
    dsimp only
    rw [hd']
    rfl

/-- **Suspending and resuming do what the gate does** in every state that any number of threads reach
in any order of steps. -/
theorem suspend_refines (s : State Thread Call T)
    (hs : Reaches (calls owner).step (fun _ _ => True) ⟨createThread, fun _ => .out⟩ s) :
    Refines owner s := by
  have I : Inv owner s := Reaches.invariant (fun _ _ _ I _ h => I.step h) inv_start hs
  exact ⟨fun e s' h => I.gate_step h, fun ms h => I.comes_back h⟩

/-- The thread suspends itself, is woken for no reason, and is resumed. -/
def resumedOnce : List (Event Call Bool) :=
  [.call true (.suspend 0), .lock true none, .spurious true, .lock true none, .call false .resume,
    .lock false (some true)]

theorem suspend_refines_resumed_once : ∃ s,
    exec (calls true).step ⟨createThread, fun _ => .out⟩ resumedOnce = some s ∧
      gate true s = .resumed 0 ∧ Refines true s := by
  obtain ⟨s, hs, hgate⟩ : ∃ s,
      exec (calls true).step ⟨createThread, fun _ => .out⟩ resumedOnce = some s ∧
        gate true s = .resumed 0 := exists_exec (by decide)
  exact ⟨s, hs, hgate, suspend_refines s (reaches_of_exec hs (by decide))⟩

end Thread

end Kendylib
