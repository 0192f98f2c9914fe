import Kendylib.Foundations.Interleaving
import Kendylib.Log.LogFile
import Mathlib.Data.List.FinRange

/-!
# The log system

`log_write`, `write_to_file`, `write_all_log_file`, `worker_routine` and `close_log_system` of
`src/log.c`. Any number of threads call `log_write` on the logs that have been created, one thread
calls `close_log_system`, and the worker goes through the logs again and again until it finds
`is_close` set, and then once more. What runs under the mutex of a log is one step, and so is a read
of `is_close` and its compare-and-swap.

`log_write` reads `is_close` before it formats the record, and does not look at it again: the step
that pushes the record comes later, when `close_log_system` may have got anywhere. A push onto a log
that has been destroyed, or a call after `close_log_system` has freed the log system, is undefined and
has no next state.
-/

namespace Kendylib.Log

/-- The place of the worker: the test of its loop; the head of `write_to_file` for a log, with the
logs that follow it in `log_files`; the loop of `write_to_file`. `isClose` is the argument of
`write_all_log_file`. -/
inductive Worker (n : ℕ)
  | test
  | enter (isClose : Bool) (l : Fin n) (rest : List (Fin n))
  | write (isClose : Bool) (l : Fin n) (rest : List (Fin n))
  | exited

/-- The place of the thread that calls `close_log_system`. -/
inductive Closer
  | out
  | joins
  | destroys
  | returned
  deriving DecidableEq

/-- The log system with `n` logs, its worker, and the threads that use it. `writer` has the record of
a thread that is in `log_write` and has found `is_close` not set. `accepted` has the records whose
`log_write` returns 0, in the order of their pushes; nothing reads it. -/
structure System (n : ℕ) (T : Type) where
  isClose : Bool
  logFiles : List (Fin n)
  log : Fin n → LogFile
  worker : Worker n
  closer : Closer
  writer : T → Option (Fin n × Record)
  accepted : Fin n → List Record

inductive Event (n : ℕ) (T : Type)
  /-- `t` calls `log_write` and reads `is_close`. -/
  | begin (t : T) (l : Fin n) (r : Record)
  /-- `t` pushes its record, under the mutex of the log. -/
  | push (t : T)
  /-- The worker reads `is_close`. -/
  | test
  /-- The worker takes the queue of a log, under its mutex. `message` is what it says if this is the
  last pass. -/
  | take (message : Record)
  /-- `writev` takes `k` bytes. -/
  | write (k : ℕ)
  /-- The worker has written the packets of a log. -/
  | next
  /-- The compare-and-swap of `close_log_system`. -/
  | close
  /-- `thread_join` returns. -/
  | join
  /-- `close_log_system` destroys a log. -/
  | destroy
  /-- `close_log_system` frees the log system and returns. -/
  | free

variable {n : ℕ} {T : Type}

/-- All logs are created, and the worker runs. -/
def start : System n T where
  isClose := false
  logFiles := List.finRange n
  log := fun _ => ⟨[], [], []⟩
  worker := .test
  closer := .out
  writer := fun _ => none
  accepted := fun _ => []

/-- The walk of `write_all_log_file`, at the logs that are left of it. -/
def walk (isClose : Bool) : List (Fin n) → Worker n
  | [] => if isClose then .exited else .test
  | l :: rest => .enter isClose l rest

def System.setLog (s : System n T) (l : Fin n) (f : LogFile) : System n T :=
  { s with log := Function.update s.log l f }

/-- `write_to_file` up to its loop: on the last pass a message is written behind the records. -/
def takeRecords (f : LogFile) (isClose : Bool) (message : Record) : LogFile :=
  let f := f.takeQueue
  if isClose then { f with pendingLog := f.pendingLog ++ [createPacket message] } else f

/-- `destroy_log`: what is in the queue is dropped. -/
def destroyLog (f : LogFile) : LogFile := { f with logQueue := [] }

variable [DecidableEq T]

/-- The locked section of `log_write`. -/
def pushRecord (s : System n T) (t : T) (l : Fin n) (r : Record) : System n T :=
  let f := s.log l
  { s.setLog l { f with logQueue := f.logQueue ++ [createPacket r] } with
    writer := Function.update s.writer t none
    accepted := Function.update s.accepted l (s.accepted l ++ [r]) }

/-- An event; `none` if it cannot happen. -/
def step (s : System n T) : Event n T → Option (System n T)
  | .begin t l r =>
    if s.writer t = none ∧ s.closer ≠ .returned then
      some (if s.isClose then s else { s with writer := Function.update s.writer t (some (l, r)) })
    else none
  | .push t =>
    match s.writer t with
    | some (l, r) => if l ∈ s.logFiles then some (pushRecord s t l r) else none
    | none => none
  | .test =>
    match s.worker with
    | .test => some { s with worker := walk s.isClose s.logFiles }
    | _ => none
  | .take message =>
    match s.worker with
    | .enter isClose l rest =>
      some { s.setLog l (takeRecords (s.log l) isClose message) with
        worker := .write isClose l rest }
    | _ => none
  | .write k =>
    match s.worker with
    | .write _ l _ =>
      if 0 < k ∧ k ≤ (prepareWrite (s.log l)).flatten.length then
        match (s.log l).write k with
        | .ok f => some (s.setLog l f)
        | .error _ => none
      else none
    | _ => none
  | .next =>
    match s.worker with
    | .write isClose l rest =>
      if (s.log l).pendingLog.isEmpty then some { s with worker := walk isClose rest } else none
    | _ => none
  | .close => if s.closer = .out then some { s with isClose := true, closer := .joins } else none
  | .join =>
    match s.closer, s.worker with
    | .joins, .exited => some { s with closer := .destroys }
    | _, _ => none
  | .destroy =>
    match s.closer, s.logFiles with
    | .destroys, l :: rest => some { s.setLog l (destroyLog (s.log l)) with logFiles := rest }
    | _, _ => none
  | .free =>
    match s.closer, s.logFiles with
    | .destroys, [] => some { s with closer := .returned }
    | _, _ => none

end Kendylib.Log
