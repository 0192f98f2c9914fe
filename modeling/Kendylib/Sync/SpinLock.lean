import Kendylib.Foundations.Word
import Mathlib.Logic.Function.Basic

/-!
# The spin lock

The lock of `src/spinlock.c`, used by any number of threads. Every load, store, compare-and-swap and
operation of the mutex is one step of one thread; a thread's place between two of them is a `Pc`.
Pausing between two attempts is no step.

`owner` is `none` for the thread id `0`. The mutex is recursive: it has a holder and a count. Beside
the lock, the state has for each thread the number of calls of `spin_lock` that have returned and
whose `spin_unlock` has not (`depth`); nothing reads it but the rule that a thread unlocks only what
it has locked.

`lock_count` is a signed number of 32 bits in the source. It is kept here as an unsigned one.
-/

namespace Kendylib.SpinLock

/-- How a thread has got the lock: it had it, by the owner word with or without a limit to the
attempts, or by the mutex. -/
inductive Route
  | again
  | forever
  | limited
  | mutex
  deriving DecidableEq

/-- The place of a thread, named by its next step. -/
inductive Pc
  /-- Not in a call. -/
  | out
  /-- `spin_lock` loads `owner` to compare it with the thread's id. -/
  | lockEnter (count : ℕ)
  /-- A round of the loop loads `owner`; `left` attempts come after it, or no end of them. -/
  | spinLoad (left : Option ℕ)
  /-- A round of the loop makes its compare-and-swap. -/
  | spinSwap (left : Option ℕ)
  /-- `mutex_lock`. -/
  | mutexLock
  /-- `lock_by_mtx = 1`. -/
  | setFlag
  /-- `++lock_count`, the load and the store. -/
  | incLoad (route : Route)
  | incStore (route : Route) (v : ℕ)
  /-- `lock_by_mtx = 0` in `spin_lock`. -/
  | lockClear
  /-- `spin_unlock` loads `owner` to compare it with the thread's id. -/
  | unlockEnter
  /-- `--lock_count`, the load and the store. -/
  | decLoad
  | decStore (v : ℕ)
  /-- `lock_count == 0`. -/
  | testCount
  /-- `if (lock_by_mtx)`. -/
  | testFlag
  /-- `lock_by_mtx = 0` in `spin_unlock`. -/
  | unlockClear
  /-- `mutex_unlock`. -/
  | mutexUnlock
  /-- `owner = 0`. -/
  | release
  deriving DecidableEq

/-- A `struct spinlock`, and the threads. -/
structure State (T : Type) where
  owner : Option T
  lockCount : ℕ
  mtx : Option (T × ℕ)
  lockByMtx : Bool
  pc : T → Pc
  depth : T → ℕ

/-- What a thread that is not in a call calls next. -/
inductive Call
  | lock (count : ℕ)
  | unlock
  deriving DecidableEq

variable {T : Type} [DecidableEq T]

/-- `spin_create`. -/
def spinCreate : State T := ⟨none, 0, none, false, fun _ => .out, fun _ => 0⟩

def goto (s : State T) (t : T) (p : Pc) : State T := { s with pc := Function.update s.pc t p }

/-- The head of the loop: one more attempt, or the mutex. -/
def spinHead : Option ℕ → Pc
  | none => .spinLoad none
  | some 0 => .mutexLock
  | some (left + 1) => .spinLoad (some left)

/-- `spin_lock` returns. -/
def lockReturn (s : State T) (t : T) : State T :=
  { goto s t .out with depth := Function.update s.depth t (s.depth t + 1) }

/-- `spin_unlock` returns. -/
def unlockReturn (s : State T) (t : T) : State T :=
  { goto s t .out with depth := Function.update s.depth t (s.depth t - 1) }

/-- A step of the thread `t`, with the result of `spin_unlock` if that returns; `none` if the thread
has to wait for the mutex, or if it would unlock what it has not locked. `call` is what a thread that
is not in a call calls. -/
def step (s : State T) (t : T) (call : Call) : Option (State T × Option ℤ) :=
  match s.pc t with
  | .out =>
    match call with
    | .lock count => some (goto s t (.lockEnter count), none)
    | .unlock => if s.depth t = 0 then none else some (goto s t .unlockEnter, none)
  | .lockEnter count =>
    if s.owner = some t then some (goto s t (.incLoad .again), none)
    else some (goto s t (spinHead (if count = 0 then none else some count)), none)
  | .spinLoad left =>
    some (goto s t (if s.owner = none then .spinSwap left else spinHead left), none)
  | .spinSwap left =>
    if s.owner = none then
      some ({ goto s t (.incLoad (if left = none then .forever else .limited)) with owner := some t }, none)
    else some (goto s t (spinHead left), none)
  | .mutexLock =>
    match s.mtx with
    | none => some ({ goto s t .setFlag with mtx := some (t, 1) }, none)
    | some (u, n) => if u = t then some ({ goto s t .setFlag with mtx := some (t, n + 1) }, none) else none
  | .setFlag => some ({ goto s t (.incLoad .mutex) with lockByMtx := true }, none)
  | .incLoad route => some (goto s t (.incStore route s.lockCount), none)
  | .incStore route v =>
    if route = .forever then some ({ goto s t .lockClear with lockCount := add32 v 1 }, none)
    else some ({ lockReturn s t with lockCount := add32 v 1 }, none)
  | .lockClear => some ({ lockReturn s t with lockByMtx := false }, none)
  | .unlockEnter =>
    if s.owner = some t then some (goto s t .decLoad, none) else some (unlockReturn s t, some (-1))
  | .decLoad => some (goto s t (.decStore s.lockCount), none)
  | .decStore v => some ({ goto s t .testCount with lockCount := sub32 v 1 }, none)
  | .testCount =>
    if s.lockCount = 0 then some (goto s t .testFlag, none) else some (unlockReturn s t, some 0)
  | .testFlag => some (goto s t (if s.lockByMtx then .unlockClear else .release), none)
  | .unlockClear => some ({ goto s t .mutexUnlock with lockByMtx := false }, none)
  | .mutexUnlock =>
    match s.mtx with
    | none => some (unlockReturn s t, some 0)
    | some (u, n) =>
      -- the mutex refuses a thread that does not hold it
      let mtx := if u = t then (if n = 1 then none else some (u, n - 1)) else some (u, n)
      some ({ unlockReturn s t with mtx := mtx }, some 0)
  | .release => some ({ unlockReturn s t with owner := none }, some 0)

end Kendylib.SpinLock
