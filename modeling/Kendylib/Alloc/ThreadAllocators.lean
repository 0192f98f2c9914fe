import Kendylib.Alloc.BlockObjAllocator

/-!
# The block allocator of several threads

The allocator of `src/block_obj_allocator.c` with `mt = 1`, for any number of threads. Every thread
that has allocated has a `thread_allocator` of its own, which `pthread_getspecific` returns, with its
two lists of free lists; the list of the central allocator is shared. What a thread can reach is an
allocator of one thread (`view`), and the functions run on that: the two kinds of allocator differ in
how a thread allocator is found and in the lock around the central list, which is of no effect as the
calls are atomic. `_thread_allocators` is only read when the allocator is destroyed and is left out.
-/

namespace Kendylib.BlockObjAllocator

open Lists

/-- The lists of free lists. -/
inductive SharedPlace (T : Type)
  /-- `_free_list` of a thread. -/
  | free (t : T)
  /-- `_recover` of a thread. -/
  | recover (t : T)
  /-- `_free_list` of the central allocator. -/
  | central
  deriving DecidableEq

/-- A `struct block_obj_allocator`; `thread` is what the threads have stored under `t_key`. -/
structure SharedAllocator (T : Type) where
  objSize : ℕ
  thread : T → Option ThreadAllocator
  lists : Lists (SharedPlace T) ℕ
  flist : ℕ → FreeList
  objNext : Obj → Option Obj
  blocks : ℕ

variable {T : Type}

/-- A list that the thread `t` can reach. -/
def Place.of (t : T) : Place → SharedPlace T
  | .free => .free t
  | .recover => .recover t
  | .central => .central

namespace SharedAllocator

/-- What the thread `t` can reach. -/
def view (s : SharedAllocator T) (t : T) : Allocator where
  objSize := s.objSize
  thread := s.thread t
  lists := s.lists.comap (Place.of t)
  flist := s.flist
  objNext := s.objNext
  blocks := s.blocks

variable [DecidableEq T]

/-- The thread `t` has changed what it can reach to `a`. -/
def store (s : SharedAllocator T) (t : T) (a : Allocator) : SharedAllocator T where
  objSize := a.objSize
  thread := Function.update s.thread t a.thread
  lists :=
    { list := fun
        | .free u => if u = t then a.lists.list .free else s.lists.list (.free u)
        | .recover u => if u = t then a.lists.list .recover else s.lists.list (.recover u)
        | .central => a.lists.list .central
      next := a.lists.next }
  flist := a.flist
  objNext := a.objNext
  blocks := a.blocks

/-- `block_obj_al_alloc`, called by the thread `t`. -/
def blockObjAlAlloc (s : SharedAllocator T) (t : T) : Exec (Obj × SharedAllocator T) := do
  let (ptr, a) ← BlockObjAllocator.blockObjAlAlloc (s.view t)
  return (ptr, s.store t a)

/-- `block_obj_al_dealloc`, called by the thread `t`. -/
def blockObjAlDealloc (s : SharedAllocator T) (t : T) (ptr : Obj) : Exec (SharedAllocator T) := do
  return s.store t (← BlockObjAllocator.blockObjAlDealloc (s.view t) ptr)

end SharedAllocator

/-- `create_block_obj_allocator` with `mt = 1`. -/
def createSharedAllocator (T : Type) (objSize : ℕ) (objNext : Obj → Option Obj) :
    SharedAllocator T where
  objSize := (createBlockObjAllocator objSize objNext).objSize
  thread _ := none
  lists := ⟨fun _ => .empty, fun _ => none⟩
  flist _ := ⟨0, 0, none, none⟩
  objNext := objNext
  blocks := 0

end Kendylib.BlockObjAllocator
