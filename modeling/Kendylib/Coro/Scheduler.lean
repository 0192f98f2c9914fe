import Kendylib.Coro.MinHeap
import Kendylib.Foundations.Word
import Kendylib.Net.LinkList

/-!
# The coroutine scheduler

The scheduler of `coro/co_sche.c`. A coroutine is a number, `Sche.coros` its record while it is
allocated; its list node and its heap element are in the list and in the heap. `Sche.running` is
the coroutine that has control: `uthread_switch` moves it, and a switch to `s->co` goes on behind
the `_sche_next` that `sche_schedule` is waiting in.

* `_less` is given pointers to heap elements and reads `timeout` at its offset from the start of a
  `struct coro`; `Coro.word` has the words of the record, so that the word read can be computed.
* `check_time_out` goes on while the first element of the heap has a `timeout` not below the clock.
-/

namespace Kendylib.Scheduler

open MinHeap

/-- The `status` of a coroutine. -/
inductive Status
  | yield | sleep | active | die | start
  deriving DecidableEq

/-- The fields of a `struct coro` that are not those of its list node or heap element. -/
structure Coro where
  status : Status
  timeout : ℕ
  arg : ℕ

/-- A coroutine as `calloc` leaves it, with its argument. The zero status is `CORO_YIELD`. -/
def Coro.fresh (arg : ℕ) : Coro := ⟨.yield, 0, arg⟩

/-- The place of `_heapele` in a `struct coro`, in words of four bytes. A pointer has one word: the
context switch is written for 32 bits. -/
def heapeleWord : ℕ := 1

/-- The place of `timeout`, behind `next`, `_heapele`, `_sche`, `ut`, `stack` and `status`. -/
def timeoutWord : ℕ := 6

/-- The words of a `struct coro` from `timeout` on. -/
def Coro.word (c : Coro) : ℕ → ℕ
  | 6 => c.timeout
  | 7 => c.arg
  | _ => 0

/-- A scheduler, its coroutines and the coroutine that has control. -/
structure Sche where
  co : ℕ
  minheap : MinHeap.Heap ℕ
  lists : Lists Unit ℕ
  nextCheckTimeout : ℕ
  stop : Bool
  coroSize : ℤ
  ti : ℕ
  coros : ℕ → Option Coro
  created : ℕ
  current : ℕ
  running : ℕ

namespace Sche

/-- The record of a coroutine. -/
def get (s : Sche) (c : ℕ) : Exec Coro :=
  match s.coros c with
  | some x => .ok x
  | none => .error .freed

def set (s : Sche) (c : ℕ) (x : Coro) : Sche :=
  { s with coros := Function.update s.coros c (some x) }

/-- The coroutines in `active_list`. -/
def active (s : Sche) : List ℕ := s.lists.nodes ()

/-- The status of a coroutine that is allocated. -/
def status (s : Sche) (c : ℕ) : Option Status := (s.coros c).map Coro.status

/-- What `((coro_t)l)->timeout` reads, for the heap element `l` of the coroutine `c`. -/
def timeoutOfHeapele (s : Sche) (c : ℕ) : ℕ :=
  ((s.coros c).map fun x => x.word (heapeleWord + timeoutWord)).getD 0

/-- `_less`. -/
def less (s : Sche) (l r : ℕ) : Bool := s.timeoutOfHeapele l < s.timeoutOfHeapele r

/-- `LINK_LIST_PUSH_BACK` on `active_list`. -/
def pushBack (s : Sche) (c : ℕ) : Exec Sche := do
  return { s with lists := ← s.lists.linkListPushBack () c }

/-- `coro_destroy`. -/
def coroDestroy (s : Sche) (c : ℕ) : Sche := { s with coros := Function.update s.coros c none }

/-- Destroy a coroutine and stop behind the last one. -/
def reap (s : Sche) (c : ℕ) : Sche :=
  let s := s.coroDestroy c
  { s with coroSize := s.coroSize - 1, stop := s.stop || s.coroSize - 1 == 0 }

end Sche

/-! ## Timeouts -/

/-- The loop of `check_time_out`, for at most `fuel` rounds. -/
def checkTimeOutLoop : ℕ → Sche → ℕ → Exec Sche
  | 0, _, _ => .error .fuel
  | fuel + 1, s, now => do
    match ← minheapMin s.minheap with
    | none => return s
    | some ele =>
      let co ← s.get ele
      if co.timeout < now then return s
      else
        let (_, h) ← minheapPopmin s.less s.minheap
        let s := { s with minheap := h }
        if co.status ≠ .active then
          let s ← (s.set ele { co with status := .active }).pushBack ele
          checkTimeOutLoop fuel s now
        else if co.status = .die then checkTimeOutLoop fuel (s.reap ele) now
        else checkTimeOutLoop fuel s now

/-- `check_time_out`: every round takes one element off the heap. -/
def checkTimeOut (s : Sche) (now : ℕ) : Exec Sche := do
  let s ← checkTimeOutLoop (s.minheap.size + 1) s now
  return { s with nextCheckTimeout := add32 now 200 }

/-- The look at the clock that `sche_next` and `sche_schedule` begin with. -/
def checkClock (s : Sche) (now : ℕ) : Exec Sche :=
  if 100 ≤ s.ti then
    let s := { s with ti := 0 }
    if s.nextCheckTimeout ≤ now then checkTimeOut s now else .ok s
  else .ok s

/-! ## Switching -/

/-- What `sche_schedule` does when `_sche_next` returns `co`. -/
def afterSwitch (s : Sche) (co : ℕ) : Exec Sche := do
  let c ← s.get co
  if c.status = .die ∧ s.minheap.index co = 0 then return s.reap co else return s

/-- `uthread_switch` to the coroutine `dest`, which is waiting for `para`. -/
def uthreadSwitch (s : Sche) (dest para : ℕ) : Exec Sche :=
  let s := { s with running := dest }
  if dest = s.co then afterSwitch s para else .ok s

/-- `_sche_next`. -/
def scheNext' (s : Sche) (co : ℕ) : Exec Sche := do
  let (next, lists) ← s.lists.linkListPop ()
  let s := { s with lists := lists }
  let next := next.getD s.co
  let c ← s.get co
  let s ← if c.status = .yield then (s.set co { c with status := .active }).pushBack co else .ok s
  if co = next then .error .assertion
  else uthreadSwitch { s with current := next, ti := add32 s.ti 1 } next co

/-- `sche_next`. -/
def scheNext (s : Sche) (co : ℕ) (status : Status) (now : ℕ) : Exec Sche := do
  let c ← s.get co
  let s ← checkClock (s.set co { c with status := status }) now
  scheNext' s co

/-- `sche_add_timeout`. -/
def scheAddTimeout (s : Sche) (co : ℕ) : Exec Sche := do
  let c ← s.get co
  let s := s.set co { c with status := .sleep }
  let h ← minheapInsert s.less s.minheap co
  scheNext' { s with minheap := h } co

/-! ## The calls -/

/-- `coro_yield`. -/
def coroYield (s : Sche) (co now : ℕ) : Exec Sche := scheNext s co .yield now

/-- `coro_sleep`. -/
def coroSleep (s : Sche) (co : ℕ) (ms : ℤ) (now : ℕ) : Exec Sche := do
  let c ← s.get co
  scheAddTimeout (s.set co { c with timeout := ((now + ms) % 0x100000000).toNat }) co

/-- The end of `coro_fun`, when the function of the coroutine has returned. -/
def coroFunEnd (s : Sche) (co : ℕ) : Exec Sche := do
  let c ← s.get co
  uthreadSwitch (s.set co { c with status := .die }) s.co co

/-- One round of `sche_schedule`, up to the switch. -/
def scheScheduleRound (s : Sche) (now : ℕ) : Exec Sche :=
  if s.stop then .ok s
  else do
    let s ← checkClock s now
    if s.lists.linkListIsEmpty () then return { s with ti := add32 s.ti 50 }
    else scheNext' s s.co

/-- `sche_create`, with `s->co` the coroutine `0`. -/
def scheCreate (maxCoro now : ℕ) : Sche where
  co := 0
  minheap := minheapCreate maxCoro
  lists := ⟨fun _ => .empty, fun _ => none⟩
  nextCheckTimeout := add32 now 200
  stop := false
  coroSize := 0
  ti := 0
  coros := Function.update (fun _ => none) 0 (some (Coro.fresh 0))
  created := 1
  current := 0
  running := 0

/-- `sche_spawn`: the new coroutine runs the beginning of `coro_fun` and switches back. -/
def scheSpawn (s : Sche) (arg : ℕ) : Exec Sche := do
  let co := s.created
  let s := { s with created := co + 1, coroSize := s.coroSize + 1 }
  let s ← (s.set co (Coro.fresh arg)).pushBack co
  let c ← s.get co
  return s.set co { c with status := .active }

/-- `sche_spawn` for each of the arguments. -/
def spawnAll : Sche → List ℕ → Exec Sche
  | s, [] => .ok s
  | s, arg :: args => do spawnAll (← scheSpawn s arg) args

end Kendylib.Scheduler
