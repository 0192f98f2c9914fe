import Kendylib.Net.LinkList
import Kendylib.Net.WPacket

/-!
# The block allocator

The allocator of `src/block_obj_allocator.c` for one thread (`mt = 0`). Memory comes in blocks of one
megabyte. A block is cut into objects, which make up a `free_list`: a list threaded through the
objects themselves. The free lists are in turn the nodes of three `link_list`s, those with free
objects (`_free_list`) and those that take back what is freed (`_recover`), both of the thread, and
the list of the central allocator.

An object is named by its block and its number in it. `free_list`s are numbered like the blocks they
were made with. There is one thread, so that `_thread_allocators` has one element at most: it is
`thread`, which is `none` before the first allocation. An object that is handed out belongs to the
caller, who may write to it; its first word is where `next` was (`objNext`).
-/

namespace Kendylib.BlockObjAllocator

open Lists WPacket

/-- An object: its block and its number in the block. -/
abbrev Obj := ℕ × ℕ

/-- A `struct free_list`. -/
structure FreeList where
  size : ℕ
  initSize : ℕ
  head : Option Obj
  tail : Option Obj

/-- The lists of free lists. -/
inductive Place
  /-- `_free_list` of the thread. -/
  | free
  /-- `_recover` of the thread. -/
  | recover
  /-- `_free_list` of the central allocator. -/
  | central
  deriving DecidableEq

/-- The counters of a `struct thread_allocator`. -/
structure ThreadAllocator where
  freeSize : ℕ
  collectFactor : ℕ

/-- A `struct block_obj_allocator`, the free lists and the first words of the objects. -/
structure Allocator where
  objSize : ℕ
  thread : Option ThreadAllocator
  lists : Lists Place ℕ
  flist : ℕ → FreeList
  objNext : Obj → Option Obj
  /-- The number of blocks that have been made. -/
  blocks : ℕ

/-- `DEFAULT_BLOCK_SIZE`. -/
def defaultBlockSize : ℕ := 1024 * 1024

def setFlist (a : Allocator) (f : ℕ) (l : FreeList) : Allocator :=
  { a with flist := Function.update a.flist f l }

/-- `free_list_get`. -/
def freeListGet (a : Allocator) (f : ℕ) : Exec (Obj × Allocator) := do
  let l := a.flist f
  let ptr ← Exec.deref l.head
  let head := a.objNext ptr
  let tail := if head = none then none else l.tail
  return (ptr, setFlist a f { l with size := sub32 l.size 1, head := head, tail := tail })

/-- `free_list_put`. -/
def freeListPut (a : Allocator) (f : ℕ) (ptr : Obj) : Allocator :=
  let l := a.flist f
  let objNext := Function.update a.objNext ptr none
  match l.tail with
  | some t =>
    setFlist { a with objNext := Function.update objNext t (some ptr) } f
      { l with size := add32 l.size 1, tail := some ptr }
  | none =>
    setFlist { a with objNext := objNext } f
      { l with size := add32 l.size 1, head := some ptr, tail := some ptr }

/-- `creat_new_freelist`: the objects of a new block are put into a new free list. -/
def creatNewFreelist (a : Allocator) : Exec (ℕ × Allocator) :=
  if a.objSize = 0 then .error .divideByZero
  else
    let initSize := defaultBlockSize / a.objSize
    let f := a.blocks
    let a := setFlist { a with blocks := a.blocks + 1 } f ⟨initSize, initSize, none, none⟩
    let a := (List.range initSize).foldl (fun a i => freeListPut a f (f, i)) a
    .ok (f, setFlist a f { a.flist f with size := initSize })

/-- `link_list_push_back` of a free list. -/
def pushBack (a : Allocator) (p : Place) (f : ℕ) : Exec Allocator := do
  return { a with lists := ← a.lists.linkListPushBack p f }

/-- `link_list_pop` of a free list. -/
def pop (a : Allocator) (p : Place) : Exec (Option ℕ × Allocator) := do
  let (f, lists) ← a.lists.linkListPop p
  return (f, { a with lists := lists })

/-- `central_get_freelist`. -/
def centralGetFreelist (a : Allocator) : Exec (ℕ × Allocator) := do
  match ← pop a .central with
  | (some f, a) => return (f, a)
  | (none, a) => creatNewFreelist a

/-- The first half of `thread_allocator_alloc`: the free list to take an object from. -/
def pickList (a : Allocator) (t : ThreadAllocator) : Exec (ℕ × Allocator × ThreadAllocator) :=
  if t.freeSize = 0 then do
    let (f, a) ← centralGetFreelist a
    let a ← pushBack a .free f
    return (f, a, { t with freeSize := add32 t.freeSize (a.flist f).size })
  else
    match (a.lists.list .free).head with
    | some f => .ok (f, a, t)
    | none => do
      let (o, a) ← pop a .recover
      let f ← Exec.deref o
      let a ← pushBack a .free f
      return (f, a, t)

/-- `thread_allocator_alloc`. -/
def threadAllocatorAlloc (a : Allocator) (t : ThreadAllocator) : Exec (Obj × Allocator) := do
  let (f, a, t) ← pickList a t
  let (ptr, a) ← freeListGet a f
  let a := { a with thread := some { t with freeSize := sub32 t.freeSize 1 } }
  if (a.flist f).size = 0 then
    let (_, a) ← pop a .free
    let a ← pushBack a .recover f
    return (ptr, a)
  else return (ptr, a)

/-- `thread_allocator_dealloc`. -/
def threadAllocatorDealloc (a : Allocator) (t : ThreadAllocator) (ptr : Obj) : Exec Allocator :=
  match (a.lists.list .recover).head with
  | some f => do
    let a := freeListPut a f ptr
    let t := { t with freeSize := add32 t.freeSize 1 }
    if (a.flist f).size = (a.flist f).initSize then
      let (_, a) ← pop a .recover
      if t.freeSize ≥ t.collectFactor then
        let a ← pushBack a .central f
        return { a with thread := some { t with freeSize := sub32 t.freeSize (a.flist f).size } }
      else
        let a ← pushBack a .free f
        return { a with thread := some t }
    else return { a with thread := some t }
  | none =>
    match (a.lists.list .free).head with
    | none => .error .assertion
    | some f =>
      .ok { freeListPut a f ptr with thread := some { t with freeSize := add32 t.freeSize 1 } }

/-- `create_thread_allocator`. -/
def createThreadAllocator (objSize : ℕ) : Exec ThreadAllocator :=
  if objSize = 0 then .error .divideByZero else .ok ⟨0, defaultBlockSize * 2 / objSize⟩

/-- `block_obj_al_alloc`. -/
def blockObjAlAlloc (a : Allocator) : Exec (Obj × Allocator) := do
  match a.thread with
  | some t => threadAllocatorAlloc a t
  | none => threadAllocatorAlloc a (← createThreadAllocator a.objSize)

/-- `block_obj_al_dealloc`. -/
def blockObjAlDealloc (a : Allocator) (ptr : Obj) : Exec Allocator :=
  match a.thread with
  | some t => threadAllocatorDealloc a t ptr
  | none => .error .assertion

/-- `create_block_obj_allocator` with `mt = 0`. A pointer has eight bytes. -/
def createBlockObjAllocator (objSize : ℕ) (objNext : Obj → Option Obj) : Allocator where
  objSize := (1 <<< getK (if objSize < 8 then 8 else objSize)) % 0x100000000
  thread := none
  lists := ⟨fun _ => .empty, fun _ => none⟩
  flist _ := ⟨0, 0, none, none⟩
  objNext := objNext
  blocks := 0

end Kendylib.BlockObjAllocator
