import Kendylib.Foundations.Interleaving

/-!
# The blocking queue

`block_queue_push` and `block_queue_pop` of `src/link_list.c`, called by any number of threads. What
runs under the mutex is one step of one thread, and so is a `condition_signal`, which comes after
the mutex of the push is released. A thread that waits at the condition has released the mutex, and
takes it again when it is woken.

A signal wakes one of the threads that wait at that moment, if there is one. The operating system may
wake a waiting thread without a signal too.

The nodes of the list are numbers. A node is pushed only while it is in no list, so that
`link_list_push_back` appends it.
-/

namespace Kendylib.BlockQueue

/-- The result of `block_queue_pop`. -/
inductive PopCode
  | success
  | timeout
  | forceWakeUp
  deriving DecidableEq

/-- A `struct block_queue`. The mutex and the condition are in the places of the threads. -/
structure Queue where
  l : List ℕ
  forceWakeup : Bool

/-- What a thread in `block_queue_pop` does with the mutex: wait at the condition, or return. -/
inductive Outcome
  | waits
  | returns (code : PopCode) (n : Option ℕ)

/-- The head of the loop of `block_queue_pop`, and what follows the loop. -/
def popLoop (bq : Queue) (ms : ℤ) : Queue × Outcome :=
  match bq.l with
  | [] => (bq, if ms = 0 then .returns .success none else .waits)
  | n :: rest => ({ bq with l := rest }, .returns .success (some n))

/-- The loop of `block_queue_pop` from the return of `condition_wait` or `condition_timedwait` on. -/
def popWoken (bq : Queue) (ms : ℤ) (timedOut : Bool) : Queue × Outcome :=
  if timedOut then (bq, .returns .timeout none)
  else if bq.forceWakeup then ({ bq with forceWakeup := false }, .returns .forceWakeUp none)
  else popLoop bq ms

/-- The place of a thread. -/
inductive Place
  /-- Not in a call. -/
  | out
  /-- It has released the mutex and calls `condition_signal` next. -/
  | signals
  /-- It has called `block_queue_pop` and not got the mutex yet. -/
  | entered (ms : ℤ)
  /-- It waits at the condition. -/
  | waiting (ms : ℤ)
  /-- It is on its way back from the condition: a signal has woken it, or its time is over. -/
  | woken (ms : ℤ) (timedOut : Bool)
  deriving DecidableEq

/-- A blocking queue and the threads that use it. `returned` has the returns of `block_queue_pop` in
their order; nothing reads it. -/
structure State (T : Type) where
  bq : Queue
  place : T → Place
  returned : List (T × PopCode × Option ℕ)

inductive Event (T : Type)
  /-- `t` pushes `n`, under the mutex. -/
  | push (t : T) (n : ℕ)
  /-- `t` sets `force_wakeup`, under the mutex. -/
  | forceWakeup (t : T)
  /-- `t` signals the condition, and this wakes `u`, or no thread. -/
  | signal (t : T) (u : Option T)
  /-- `t` calls `block_queue_pop`. -/
  | pop (t : T) (ms : ℤ)
  /-- `t` gets the mutex in `block_queue_pop`. -/
  | lock (t : T)
  /-- The time of `t` at the condition is over. -/
  | timeout (t : T)
  /-- `t` is woken without a signal. -/
  | spurious (t : T)

variable {T : Type}

/-- `create_block_queue`. -/
def createBlockQueue : State T := ⟨⟨[], false⟩, fun _ => .out, []⟩

def Place.waits : Place → Bool
  | .waiting _ => true
  | _ => false

variable [DecidableEq T]

def goto (s : State T) (t : T) (p : Place) : State T :=
  { s with place := Function.update s.place t p }

/-- The thread leaves the mutex of `block_queue_pop`, for the condition or for its caller. -/
def release (s : State T) (t : T) (ms : ℤ) : Queue × Outcome → State T
  | (bq, .waits) => { goto s t (.waiting ms) with bq := bq }
  | (bq, .returns code n) =>
    { goto s t .out with bq := bq, returned := s.returned ++ [(t, code, n)] }

variable [Fintype T]

/-- An event; `none` if it cannot happen. -/
def step (s : State T) : Event T → Option (State T)
  | .push t n =>
    if s.place t = .out ∧ n ∉ s.bq.l then
      let isEmpty := s.bq.l = []
      some { goto s t (if isEmpty then .signals else .out) with bq.l := s.bq.l ++ [n] }
    else none
  | .forceWakeup t =>
    if s.place t = .out then some { goto s t .signals with bq.forceWakeup := true } else none
  | .signal t none =>
    if s.place t = .signals ∧ ∀ u, (s.place u).waits = false then some (goto s t .out) else none
  | .signal t (some u) =>
    match s.place t, s.place u with
    | .signals, .waiting ms => some (goto (goto s t .out) u (.woken ms false))
    | _, _ => none
  | .pop t ms => if s.place t = .out then some (goto s t (.entered ms)) else none
  | .lock t =>
    match s.place t with
    | .entered ms => some (release s t ms (popLoop s.bq ms))
    | .woken ms timedOut => some (release s t ms (popWoken s.bq ms timedOut))
    | _ => none
  | .timeout t =>
    match s.place t with
    | .waiting ms => if 0 < ms then some (goto s t (.woken ms true)) else none
    | _ => none
  | .spurious t =>
    match s.place t with
    | .waiting ms => some (goto s t (.woken ms false))
    | _ => none

end Kendylib.BlockQueue
