import Kendylib.Foundations.Exec
import Kendylib.Foundations.Word
import Mathlib.Logic.Function.Basic

/-!
# The timing wheel

The wheel of `src/timing_wheel.c`. Its slots are the heads of doubly linked lists of items;
`current` is the slot of the next tick, and `last_update` the time of the last call of
`UpdateWheel`.

The memory of the items is a part of the state: `items` have been made by `CreateWheelItem`, with
the numbers below `items`. What an item passes to its callback is not modelled. A callback is a
function on the state, which `UpdateWheel` is given for all items.
-/

namespace Kendylib

/-- A `struct WheelItem`; `callback` says whether there is one. -/
structure WheelItem where
  pre : Option ℕ
  next : Option ℕ
  callback : Bool
  slot : ℤ

/-- A `struct TimingWheel` and the items. -/
structure TimingWheel where
  precision : ℕ
  slotSize : ℕ
  lastUpdate : ℕ
  current : ℕ
  slot : ℕ → Option ℕ
  items : ℕ
  item : ℕ → WheelItem

namespace TimingWheel

/-- `CreateWheelItem`. -/
def createWheelItem (callback : Bool) : WheelItem := ⟨none, none, callback, -1⟩

/-- `CreateTimingWheel` at the time `now`, with the memory for the slots as it is found. -/
def createTimingWheel (precision max now : ℕ) (mem : ℕ → Option ℕ) (items : ℕ)
    (item : ℕ → WheelItem) : Exec TimingWheel :=
  if precision = 0 then .error .divideByZero
  else .ok ⟨precision, max / precision, now, 0, mem, items, item⟩

def setItem (w : TimingWheel) (x : ℕ) (i : WheelItem) : TimingWheel :=
  { w with item := Function.update w.item x i }

def setSlot (w : TimingWheel) (n : ℕ) (h : Option ℕ) : TimingWheel :=
  { w with slot := Function.update w.slot n h }

def setPre (w : TimingWheel) (x : ℕ) (p : Option ℕ) : TimingWheel :=
  w.setItem x { w.item x with pre := p }

def setNext (w : TimingWheel) (x : ℕ) (n : Option ℕ) : TimingWheel :=
  w.setItem x { w.item x with next := n }

/-- `Add`. -/
def add (w : TimingWheel) (n x : ℕ) : TimingWheel :=
  let w := match w.slot n with
    | some y => (w.setPre y (some x)).setNext x (some y)
    | none => (w.setNext x none).setPre x none
  let w := w.setSlot n (some x)
  w.setItem x { w.item x with slot := int32 n }

/-- The slot for a timer, if the wheel has one for it. The signed `n` of the source is compared as
an unsigned number. -/
def registerSlot (w : TimingWheel) (now timeout : ℕ) : Option ℕ :=
  let timeout := if timeout < w.precision then w.precision else timeout
  let n := sub32 (sub32 (add32 now timeout) w.lastUpdate) w.precision / w.precision
  if n ≥ w.slotSize then none else some (add32 w.current n % w.slotSize)

/-- `RegisterTimer` at the time `now`. -/
def registerTimer (w : TimingWheel) (x now timeout : ℕ) : TimingWheel × ℤ :=
  match w.registerSlot now timeout with
  | none => (w, -1)
  | some n => (w.add n x, 0)

/-- The loop of `Active` from the item `head` on, and the items it has taken off the list. -/
def activeLoop (call : TimingWheel → ℕ → Exec TimingWheel) :
    ℕ → TimingWheel → Option ℕ → Exec (TimingWheel × List ℕ)
  | _, w, none => .ok (w, [])
  | 0, _, some _ => .error .fuel
  | fuel + 1, w, some cur => do
    let i := w.item cur
    let w := w.setItem cur ⟨none, none, i.callback, 0⟩
    let w ← if i.callback then call w cur else .ok w
    let (w, fired) ← activeLoop call fuel w i.next
    return (w, cur :: fired)

/-- `Active`. A list has no more items than there are. -/
def active (call : TimingWheel → ℕ → Exec TimingWheel) (w : TimingWheel) (n : ℕ) :
    Exec (TimingWheel × List ℕ) :=
  activeLoop call w.items (w.setSlot n none) (w.slot n)

/-- The loop of `UpdateWheel`, from the round `i` on. -/
def updateLoop (call : TimingWheel → ℕ → Exec TimingWheel) :
    ℕ → ℕ → TimingWheel → Exec (TimingWheel × List ℕ)
  | 0, _, w => .ok (w, [])
  | rounds + 1, i, w => do
    let (w, fired) ← active call w (add32 w.current i % w.slotSize)
    let (w, fired') ← updateLoop call rounds (i + 1) w
    return (w, fired ++ fired')

/-- `UpdateWheel`, and the items it has taken off their lists. -/
def updateWheel (call : TimingWheel → ℕ → Exec TimingWheel) (w : TimingWheel) (now : ℕ) :
    Exec (TimingWheel × List ℕ × ℤ) :=
  let interval := sub32 now w.lastUpdate
  if interval < w.precision then .ok (w, [], -1)
  else do
    let rounds := min (interval / w.precision) w.slotSize
    let (w, fired) ← updateLoop call rounds 0 w
    if w.slotSize = 0 then .error .divideByZero
    else return ({ w with current := add32 w.current rounds % w.slotSize, lastUpdate := now }, fired, 0)

/-- `UnRegisterTimer`. -/
def unRegisterTimer (w : TimingWheel) (x : ℕ) : TimingWheel :=
  let i := w.item x
  if i.slot < 0 ∨ i.slot ≥ w.slotSize then w
  else
    let w := match i.pre with
      | some p => w.setNext p i.next
      | none => w.setSlot i.slot.toNat i.next
    let w := match i.next with
      | some n => w.setPre n i.pre
      | none => w
    w.setItem x ⟨none, none, (w.item x).callback, -1⟩

end TimingWheel

end Kendylib
