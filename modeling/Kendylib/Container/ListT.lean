import Kendylib.Foundations.DoublyLinked
import Kendylib.Foundations.Exec
import Mathlib.Logic.Function.Basic

/-!
# The doubly linked list

The `list_t` of `src/list.c`. The nodes lie between two sentinels, `head` and `end`, that are part
of the list itself. An iterator has a node and the address of a link field, of that node: the field
says in which direction the iterator goes, and a null address stands for an end.

A value stands for the `val_size` bytes that a node keeps; `memcmp` compares them. The counter
`size` is a natural number: a list has fewer than `2 ^ 32` nodes.

`Represents l xs` says that the nodes between the sentinels are `xs`, with their values, and that
the links lead along them in both directions. The operations then act on `xs`: a node goes in at any
place (`listInsertBefore_spec`, `listInsertAfter_spec`), or out (`unlink_spec`).
-/

namespace Kendylib

/-- The address of a `struct node`: of a sentinel, or of one that has been allocated. -/
inductive NodePtr
  | head
  | endNode
  | node (a : ℕ)
  deriving DecidableEq

/-- A link field of a node. -/
inductive Link
  | next
  | pre
  deriving DecidableEq

/-- A `list_iter`. -/
structure ListIter where
  next : Option (NodePtr × Link)
  n : Option NodePtr

/-- A `struct list` and its nodes. `value` has the nodes that are in memory; addresses from `fresh`
on have not been used. -/
structure ListT (V : Type) where
  size : ℕ
  next : NodePtr → Option NodePtr
  pre : NodePtr → Option NodePtr
  value : ℕ → Option V
  fresh : ℕ

namespace ListT

variable {V : Type}

/-- `list_create`, the allocation succeeding. -/
def listCreate : ListT V where
  size := 0
  next p := if p = .head then some .endNode else none
  pre p := if p = .endNode then some .head else none
  value _ := none
  fresh := 0

/-! ## Nodes -/

/-- An access to a node. -/
def touch (l : ListT V) : NodePtr → Exec Unit
  | .node a => if (l.value a).isSome then .ok () else .error .freed
  | _ => .ok ()

/-- `p->next` and `p->pre`. -/
def link (l : ListT V) (f : Link) (p : NodePtr) : Exec (Option NodePtr) := do
  l.touch p
  match f with
  | .next => return l.next p
  | .pre => return l.pre p

def setNext (l : ListT V) (p : NodePtr) (q : Option NodePtr) : Exec (ListT V) := do
  l.touch p
  return { l with next := Function.update l.next p q }

def setPre (l : ListT V) (p : NodePtr) (q : Option NodePtr) : Exec (ListT V) := do
  l.touch p
  return { l with pre := Function.update l.pre p q }

/-- The value of a node; a sentinel has no room for one. -/
def valueOf (l : ListT V) : NodePtr → Exec V
  | .node a => match l.value a with
    | some v => .ok v
    | none => .error .freed
  | _ => .error .outOfBounds

/-- `free`. -/
def free (l : ListT V) (p : NodePtr) : Exec (ListT V) :=
  match p with
  | .node a => if (l.value a).isSome then .ok { l with value := Function.update l.value a none }
    else .error .freed
  | _ => .error .outOfBounds

/-- A new node, with the value copied into it. -/
def newNode (l : ListT V) (val : V) : ListT V × NodePtr :=
  ({ l with
    next := Function.update l.next (.node l.fresh) none
    pre := Function.update l.pre (.node l.fresh) none
    value := Function.update l.value l.fresh (some val)
    fresh := l.fresh + 1 }, .node l.fresh)

/-! ## Iterators -/

def listBegin (l : ListT V) : Exec ListIter := do
  let n ← Exec.deref (l.next .head)
  return ⟨some (n, .next), some n⟩

def listEnd : ListIter := ⟨none, some .endNode⟩

def listRbegin (l : ListT V) : Exec ListIter := do
  let n ← Exec.deref (l.pre .endNode)
  return ⟨some (n, .pre), some n⟩

def listRend : ListIter := ⟨none, some .head⟩

/-- `list_iter_next`. The iterator goes on along the field that it has the address of, which is to be
one of its own node. -/
def listIterNext (l : ListT V) (it : ListIter) : Exec ListIter :=
  match it.next with
  | none => .ok it
  | some (p, f) => do
    let n ← l.link f p
    if it.n = some p then
      let n ← Exec.deref n
      return ⟨some (n, f), some n⟩
    else .error .assertion

def listIterIsEqual (a b : ListIter) : Bool := a.n == b.n

def listIterGetVal (l : ListT V) (it : ListIter) : Exec V := do
  l.valueOf (← Exec.deref it.n)

def listIterSetVal (l : ListT V) (it : ListIter) (v : V) : Exec (ListT V) := do
  match ← Exec.deref it.n with
  | .node a => do
    let _ ← l.valueOf (.node a)
    return { l with value := Function.update l.value a (some v) }
  | _ => .error .outOfBounds

/-! ## Operations -/

/-- `list_insert_after`; `calloc` tells whether the allocation succeeds. -/
def listInsertAfter (l : ListT V) (it : ListIter) (val : V) (calloc : Bool) : Exec (ListT V) :=
  if calloc then do
    let (l, new) := l.newNode val
    let n ← Exec.deref it.n
    let N ← Exec.deref (← l.link .next n)
    let l ← l.setPre N (some new)
    let l ← l.setNext n (some new)
    let l ← l.setNext new (some N)
    let l ← l.setPre new (some n)
    return { l with size := l.size + 1 }
  else .ok l

/-- `list_insert_before`. -/
def listInsertBefore (l : ListT V) (it : ListIter) (val : V) (calloc : Bool) : Exec (ListT V) :=
  if calloc then do
    let (l, new) := l.newNode val
    let n ← Exec.deref it.n
    let P ← Exec.deref (← l.link .pre n)
    let l ← l.setNext P (some new)
    let l ← l.setPre n (some new)
    let l ← l.setNext new (some n)
    let l ← l.setPre new (some P)
    return { l with size := l.size + 1 }
  else .ok l

def listPushBack (l : ListT V) (val : V) (calloc : Bool) : Exec (ListT V) :=
  l.listInsertBefore listEnd val calloc

def listPushFront (l : ListT V) (val : V) (calloc : Bool) : Exec (ListT V) := do
  l.listInsertBefore (← l.listBegin) val calloc

/-- Take a node out of the list and free it. -/
def unlink (l : ListT V) (n : NodePtr) : Exec (ListT V) := do
  let P ← l.link .pre n
  let N ← l.link .next n
  let l ← l.setNext (← Exec.deref P) N
  let l ← l.setPre (← Exec.deref N) P
  let l ← l.free n
  return { l with size := l.size - 1 }

/-- `list_pop_back`, with the value copied out. -/
def listPopBack (l : ListT V) : Exec (Option V × ListT V) :=
  if l.size > 0 then do
    let n ← Exec.deref (l.pre .endNode)
    let out ← l.valueOf n
    return (some out, ← l.unlink n)
  else .ok (none, l)

def listPopFront (l : ListT V) : Exec (Option V × ListT V) :=
  if l.size > 0 then do
    let n ← Exec.deref (l.next .head)
    let out ← l.valueOf n
    return (some out, ← l.unlink n)
  else .ok (none, l)

def listBack (l : ListT V) : Exec (Option V) :=
  if l.size > 0 then do return some (← l.valueOf (← Exec.deref (l.pre .endNode))) else .ok none

def listFront (l : ListT V) : Exec (Option V) :=
  if l.size > 0 then do return some (← l.valueOf (← Exec.deref (l.next .head))) else .ok none

def listIsEmpty (l : ListT V) : Bool := l.size == 0

/-- `list_erase`. -/
def listErase (l : ListT V) (it : ListIter) : Exec (ListIter × ListT V) := do
  let next ← l.listIterNext it
  return (next, ← l.unlink (← Exec.deref it.n))

section Find

variable [DecidableEq V]

/-- The loop of `list_find`. -/
def findLoop (l : ListT V) (v : V) : ℕ → Option NodePtr → Exec ListIter
  | 0, _ => .error .fuel
  | fuel + 1, cur =>
    if cur = some .endNode then .ok listEnd
    else do
      let n ← Exec.deref cur
      if (← l.valueOf n) = v then return ⟨some (n, .next), some n⟩
      else findLoop l v fuel (← l.link .next n)

/-- `list_find`. -/
def listFind (l : ListT V) (v : V) : Exec ListIter := findLoop l v (l.size + 1) (l.next .head)

/-- `list_remove`. -/
def listRemove (l : ListT V) (v : V) : Exec (Int × ListT V) := do
  let it ← l.listFind v
  if it.n = none then return (0, l)
  else do
    let (_, l) ← l.listErase it
    return (1, l)

end Find

/-- The loop of `list_destroy` over the nodes: those that are freed. -/
def destroyLoop (l : ListT V) : ℕ → Option NodePtr → Exec (ListT V)
  | 0, _ => .error .fuel
  | fuel + 1, cur =>
    if cur = some .endNode then .ok l
    else do
      let n ← Exec.deref cur
      let next ← l.link .next n
      destroyLoop (← l.free n) fuel next

/-- `list_destroy`, up to the list itself. -/
def listDestroy (l : ListT V) : Exec (ListT V) :=
  if l.size > 0 then destroyLoop l (l.size + 1) (l.next .head) else .ok l

/-! ## The sequence of a list -/

/-- The addresses of nodes. -/
def cells (xs : List (ℕ × V)) : List NodePtr := xs.map fun x => .node x.1

/-- The node at which a part of the sequence starts, where the list ends with it. -/
def firstPtr : List (ℕ × V) → NodePtr
  | [] => .endNode
  | x :: _ => .node x.1

/-- The node at which a part of the sequence ends, where the list starts with it. -/
def lastPtr (xs : List (ℕ × V)) : NodePtr :=
  match xs.getLast? with
  | none => .head
  | some x => .node x.1

/-- All places of a list: its nodes in their order, between the sentinels. -/
def ring (xs : List (ℕ × V)) : List NodePtr := .head :: (cells xs ++ [.endNode])

/-- The nodes between the sentinels are `xs`, and no others are in memory. -/
structure Represents (l : ListT V) (xs : List (ℕ × V)) : Prop where
  chain : (.head :: (cells xs ++ [.endNode])).IsChain (Joined l.next l.pre)
  first : l.pre .head = none
  last : l.next .endNode = none
  nodup : (xs.map Prod.fst).Nodup
  value : ∀ x ∈ xs, l.value x.1 = some x.2
  live : ∀ a, (l.value a).isSome → a ∈ xs.map Prod.fst
  fresh : ∀ a ∈ xs.map Prod.fst, a < l.fresh
  size : l.size = xs.length

@[simp] theorem cells_append (xs ys : List (ℕ × V)) : cells (xs ++ ys) = cells xs ++ cells ys :=
  List.map_append

@[simp] theorem cells_cons (x : ℕ × V) (xs : List (ℕ × V)) :
    cells (x :: xs) = .node x.1 :: cells xs := rfl

@[simp] theorem firstPtr_nil : firstPtr ([] : List (ℕ × V)) = .endNode := rfl

@[simp] theorem firstPtr_cons (x : ℕ × V) (xs : List (ℕ × V)) :
    firstPtr (x :: xs) = .node x.1 := rfl

@[simp] theorem lastPtr_nil : lastPtr ([] : List (ℕ × V)) = .head := rfl

@[simp] theorem lastPtr_concat (xs : List (ℕ × V)) (x : ℕ × V) :
    lastPtr (xs ++ [x]) = .node x.1 := by
  simp [lastPtr]

@[simp] theorem node_mem_ring {xs : List (ℕ × V)} {a : ℕ} :
    .node a ∈ ring xs ↔ a ∈ xs.map Prod.fst := by
  simp [ring, cells]

theorem head_notMem_cells (xs : List (ℕ × V)) : .head ∉ cells xs := by
  simp [cells]

theorem endNode_notMem_cells (xs : List (ℕ × V)) : .endNode ∉ cells xs := by
  simp [cells]

theorem head_cells (xs : List (ℕ × V)) :
    ∃ l, NodePtr.head :: cells xs = l ++ [lastPtr xs] := by
  rcases List.eq_nil_or_concat xs with rfl | ⟨ys, x, rfl⟩
  · exact ⟨[], rfl⟩
  · exact ⟨.head :: cells ys, by simp [cells]⟩

theorem cells_endNode (xs : List (ℕ × V)) :
    ∃ r, cells xs ++ [NodePtr.endNode] = firstPtr xs :: r := by
  cases xs with
  | nil => exact ⟨[], rfl⟩
  | cons x xs => exact ⟨cells xs ++ [.endNode], rfl⟩

/-- The nodes on both sides of a cut are next to each other, and a node that goes in there comes
between them. -/
theorem ring_cut (l₁ l₂ : List (ℕ × V)) : ∃ c r : List NodePtr,
    ring (l₁ ++ l₂) = c ++ lastPtr l₁ :: firstPtr l₂ :: r ∧
    ∀ x : ℕ × V, ring (l₁ ++ x :: l₂) = c ++ lastPtr l₁ :: .node x.1 :: firstPtr l₂ :: r := by
  obtain ⟨c, hc⟩ := head_cells l₁
  obtain ⟨r, hr⟩ := cells_endNode l₂
  refine ⟨c, r, ?_, fun x => ?_⟩
  · rw [ring, cells_append, List.append_assoc, hr, ← List.cons_append, hc, List.append_assoc]
    rfl
  · rw [ring, cells_append, cells_cons, List.append_assoc, List.cons_append, hr, ← List.cons_append,
      hc, List.append_assoc]
    rfl

/-- The list can be cut before any place but the head. -/
theorem exists_cut_before {xs : List (ℕ × V)} {p : NodePtr} (hp : p ∈ ring xs) (hne : p ≠ .head) :
    ∃ l₁ l₂, xs = l₁ ++ l₂ ∧ p = firstPtr l₂ := by
  cases p with
  | head => exact absurd rfl hne
  | endNode => exact ⟨xs, [], by simp, rfl⟩
  | node a =>
    obtain ⟨x, hx, rfl⟩ := List.mem_map.mp (node_mem_ring.mp hp)
    obtain ⟨l₁, l₂, rfl⟩ := List.append_of_mem hx
    exact ⟨l₁, x :: l₂, rfl, rfl⟩

/-- The list can be cut after any place but the end. -/
theorem exists_cut_after {xs : List (ℕ × V)} {p : NodePtr} (hp : p ∈ ring xs) (hne : p ≠ .endNode) :
    ∃ l₁ l₂, xs = l₁ ++ l₂ ∧ p = lastPtr l₁ := by
  cases p with
  | head => exact ⟨[], xs, rfl, rfl⟩
  | endNode => exact absurd rfl hne
  | node a =>
    obtain ⟨x, hx, rfl⟩ := List.mem_map.mp (node_mem_ring.mp hp)
    obtain ⟨l₁, l₂, rfl⟩ := List.append_of_mem hx
    exact ⟨l₁ ++ [x], l₂, by simp, by simp⟩

theorem head_ne_firstPtr (xs : List (ℕ × V)) : .head ≠ firstPtr xs := by
  cases xs <;> simp

theorem endNode_ne_lastPtr (xs : List (ℕ × V)) : .endNode ≠ lastPtr xs := by
  rcases List.eq_nil_or_concat xs with rfl | ⟨ys, x, rfl⟩ <;> simp

variable {l l' : ListT V} {xs l₁ l₂ : List (ℕ × V)} {a : ℕ} {v : V} {n p q : NodePtr}
  {o : Option NodePtr} {it it' : ListIter}

theorem nodup_ring (h : (xs.map Prod.fst).Nodup) : (ring xs).Nodup := by
  have hcells : (cells xs).Nodup := by
    have hmap : cells xs = (xs.map Prod.fst).map NodePtr.node := by simp [cells]
    rw [hmap]
    exact h.map fun a b hab => NodePtr.node.inj hab
  rw [ring, List.nodup_cons, List.nodup_append]
  refine ⟨by simp [head_notMem_cells], hcells, List.nodup_singleton _, fun c hc d hd => ?_⟩
  rintro rfl
  rw [List.mem_singleton.mp hd] at hc
  exact endNode_notMem_cells xs hc

theorem touch_node : l.touch (.node a) = .ok () ↔ (l.value a).isSome := by
  cases h : l.value a <;> simp [touch, h]

theorem link_next : l.link .next n = .ok o ↔ l.touch n = .ok () ∧ l.next n = o := by
  cases h : l.touch n <;> simp [link, h]

theorem link_pre : l.link .pre n = .ok o ↔ l.touch n = .ok () ∧ l.pre n = o := by
  cases h : l.touch n <;> simp [link, h]

theorem represents_listCreate : Represents (listCreate : ListT V) [] where
  chain := by simp [cells, listCreate, Joined]
  first := rfl
  last := rfl
  nodup := List.nodup_nil
  value := by simp
  live a ha := by simp [listCreate] at ha
  fresh := by simp
  size := rfl

namespace Represents

theorem touch (h : Represents l xs) (hn : n ∈ ring xs) (l' : ListT V) (hl' : l'.value = l.value) :
    l'.touch n = .ok () := by
  cases n with
  | head => rfl
  | endNode => rfl
  | node a =>
    have ha : a ∈ xs.map Prod.fst := node_mem_ring.mp hn
    obtain ⟨x, hx, rfl⟩ := List.mem_map.mp ha
    rw [touch_node, hl', h.value x hx]
    rfl

theorem lastPtr_mem (l₁ l₂ : List (ℕ × V)) : lastPtr l₁ ∈ ring (l₁ ++ l₂) := by
  obtain ⟨c, r, hring, -⟩ := ring_cut l₁ l₂
  rw [hring]
  simp

theorem firstPtr_mem (l₁ l₂ : List (ℕ × V)) : firstPtr l₂ ∈ ring (l₁ ++ l₂) := by
  obtain ⟨c, r, hring, -⟩ := ring_cut l₁ l₂
  rw [hring]
  simp

/-- No other node has the address of one. -/
theorem notMem_others (h : Represents l (l₁ ++ (a, v) :: l₂)) : a ∉ (l₁ ++ l₂).map Prod.fst := by
  have hnodup := h.nodup
  rw [List.map_append, List.map_cons, List.nodup_middle, List.nodup_cons, ← List.map_append]
    at hnodup
  exact hnodup.1

/-- Where the sequence is cut in two, the nodes on both sides are joined. -/
theorem joined (h : Represents l (l₁ ++ l₂)) : Joined l.next l.pre (lastPtr l₁) (firstPtr l₂) := by
  obtain ⟨c, r, hring, -⟩ := ring_cut l₁ l₂
  have hchain : (ring (l₁ ++ l₂)).IsChain (Joined l.next l.pre) := h.chain
  rw [hring] at hchain
  exact (List.isChain_append_cons_cons.mp hchain).2.1

theorem next_head (h : Represents l xs) : l.next .head = some (firstPtr xs) := by
  have hcut : Represents l ([] ++ xs) := h
  exact hcut.joined.1

theorem pre_endNode (h : Represents l xs) : l.pre .endNode = some (lastPtr xs) := by
  have hcut : Represents l (xs ++ []) := by simpa using h
  exact hcut.joined.2

/-- A node in memory is a sentinel or one of the sequence. -/
theorem mem_ring (h : Represents l xs) (hn : l.touch n = .ok ()) : n ∈ ring xs := by
  cases n with
  | head => exact List.mem_cons_self
  | endNode => simp [ring]
  | node a => exact node_mem_ring.mpr (h.live a (touch_node.mp hn))

/-- A node that leads on to another is one after which the sequence can be cut. -/
theorem cut_after (h : Represents l xs) (hlink : l.link .next n = .ok (some q)) :
    ∃ l₁ l₂, xs = l₁ ++ l₂ ∧ n = lastPtr l₁ ∧ q = firstPtr l₂ := by
  obtain ⟨hn, hnext⟩ := link_next.mp hlink
  have hne : n ≠ .endNode := by
    rintro rfl
    exact absurd (h.last.symm.trans hnext) nofun
  obtain ⟨l₁, l₂, rfl, rfl⟩ := exists_cut_after (h.mem_ring hn) hne
  exact ⟨l₁, l₂, rfl, rfl, Option.some.inj (hnext.symm.trans h.joined.1)⟩

/-- A node that has another before it is one before which the sequence can be cut. -/
theorem cut_before (h : Represents l xs) (hlink : l.link .pre n = .ok (some p)) :
    ∃ l₁ l₂, xs = l₁ ++ l₂ ∧ n = firstPtr l₂ ∧ p = lastPtr l₁ := by
  obtain ⟨hn, hpre⟩ := link_pre.mp hlink
  have hne : n ≠ .head := by
    rintro rfl
    exact absurd (h.first.symm.trans hpre) nofun
  obtain ⟨l₁, l₂, rfl, rfl⟩ := exists_cut_before (h.mem_ring hn) hne
  exact ⟨l₁, l₂, rfl, rfl, Option.some.inj (hpre.symm.trans h.joined.2)⟩

end Represents

/-! ## A node goes in -/

/-- The list with a new node between two others. -/
def insertBetween (l : ListT V) (p q : NodePtr) (val : V) : ListT V where
  next := Function.update (Function.update l.next p (some (.node l.fresh))) (.node l.fresh) (some q)
  pre := Function.update (Function.update l.pre q (some (.node l.fresh))) (.node l.fresh) (some p)
  value := Function.update l.value l.fresh (some val)
  fresh := l.fresh + 1
  size := l.size + 1

theorem Represents.fresh_notMem (h : Represents l xs) : l.fresh ∉ xs.map Prod.fst :=
  fun hmem => lt_irrefl _ (h.fresh _ hmem)

/-- No node in the list is the new one. -/
theorem Represents.ne_fresh (h : Represents l xs) (hn : n ∈ ring xs) : n ≠ .node l.fresh := by
  rintro rfl
  exact h.fresh_notMem (node_mem_ring.mp hn)

theorem Represents.chain_insert (h : Represents l (l₁ ++ l₂)) (val : V) :
    (ring (l₁ ++ (l.fresh, val) :: l₂)).IsChain
      (Joined (l.insertBetween (lastPtr l₁) (firstPtr l₂) val).next
        (l.insertBetween (lastPtr l₁) (firstPtr l₂) val).pre) := by
  obtain ⟨c, r, hring, hring'⟩ := ring_cut l₁ l₂
  have hchain : (ring (l₁ ++ l₂)).IsChain (Joined l.next l.pre) := h.chain
  have hnodup := nodup_ring h.nodup
  have hne := fun n => h.ne_fresh (n := n)
  rw [hring] at hchain hnodup hne
  rw [hring']
  apply joined_insert hchain hnodup
  · simp [insertBetween, hne (lastPtr l₁) (by simp)]
  · simp [insertBetween]
  · simp [insertBetween]
  · simp [insertBetween, hne (firstPtr l₂) (by simp)]
  · intro a ha hax
    simp [insertBetween, hne a ha, hax]
  · intro a ha hay
    simp [insertBetween, hne a ha, hay]

/-- The sequence after a node has gone in. -/
theorem Represents.insert (h : Represents l (l₁ ++ l₂)) (val : V) :
    Represents (l.insertBetween (lastPtr l₁) (firstPtr l₂) val) (l₁ ++ (l.fresh, val) :: l₂) := by
  constructor
  · exact h.chain_insert val
  · simpa [insertBetween, head_ne_firstPtr] using h.first
  · simpa [insertBetween, endNode_ne_lastPtr] using h.last
  · rw [List.map_append, List.map_cons, List.nodup_middle, List.nodup_cons, ← List.map_append]
    exact ⟨h.fresh_notMem, h.nodup⟩
  · intro x hx
    rw [List.perm_middle.mem_iff, List.mem_cons] at hx
    rcases hx with rfl | hx
    · simp [insertBetween]
    · have hne : x.1 ≠ l.fresh := (h.fresh _ (List.mem_map_of_mem hx)).ne
      simpa [insertBetween, hne] using h.value x hx
  · intro a ha
    by_cases hnew : a = l.fresh
    · simp [hnew]
    · have hmem := h.live a (by simpa [insertBetween, hnew] using ha)
      simp at hmem ⊢
      tauto
  · intro a ha
    rw [(List.perm_middle.map Prod.fst).mem_iff, List.map_cons, List.mem_cons] at ha
    rcases ha with rfl | hmem
    · exact Nat.lt_succ_self _
    · exact Nat.lt_succ_of_lt (h.fresh a hmem)
  · simp [insertBetween, h.size]
    omega

/-- The nodes next to the cut are not the new one. -/
theorem Represents.firstPtr_ne (h : Represents l (l₁ ++ l₂)) : firstPtr l₂ ≠ .node l.fresh :=
  h.ne_fresh (firstPtr_mem l₁ l₂)

theorem Represents.lastPtr_ne (h : Represents l (l₁ ++ l₂)) : lastPtr l₁ ≠ .node l.fresh :=
  h.ne_fresh (lastPtr_mem l₁ l₂)

/-- With the new node in memory, all nodes that were there still are. -/
theorem Represents.touch_insert (h : Represents l xs) (val : V)
    (hn : n = .node l.fresh ∨ n ∈ ring xs) (l' : ListT V)
    (hl' : l'.value = Function.update l.value l.fresh (some val)) : l'.touch n = .ok () := by
  cases n with
  | head => rfl
  | endNode => rfl
  | node a =>
    rw [touch_node, hl']
    by_cases ha : a = l.fresh
    · simp [ha]
    · have hmem : NodePtr.node a ∈ ring xs :=
        hn.resolve_left fun hn => ha (NodePtr.node.inj hn)
      rw [Function.update_of_ne ha]
      exact touch_node.mp (h.touch hmem l rfl)

/-- **`list_insert_before`** puts the value before the node of the iterator. -/
theorem listInsertBefore_spec (h : Represents l (l₁ ++ l₂)) (hit : it.n = some (firstPtr l₂))
    (val : V) :
    l.listInsertBefore it val true = .ok (l.insertBetween (lastPtr l₁) (firstPtr l₂) val) := by
  have hnew := h.touch_insert val (.inl rfl)
  have hfirst := h.touch_insert val (.inr (Represents.firstPtr_mem l₁ l₂))
  have hlast := h.touch_insert val (.inr (Represents.lastPtr_mem l₁ l₂))
  simp [listInsertBefore, newNode, insertBetween, hit, link, setNext, setPre, hnew, hfirst, hlast,
    h.firstPtr_ne, h.joined.2, Function.update_comm h.lastPtr_ne.symm,
    Function.update_comm h.firstPtr_ne.symm]

/-- **`list_insert_after`** puts the value after the node of the iterator. -/
theorem listInsertAfter_spec (h : Represents l (l₁ ++ l₂)) (hit : it.n = some (lastPtr l₁))
    (val : V) :
    l.listInsertAfter it val true = .ok (l.insertBetween (lastPtr l₁) (firstPtr l₂) val) := by
  have hnew := h.touch_insert val (.inl rfl)
  have hfirst := h.touch_insert val (.inr (Represents.firstPtr_mem l₁ l₂))
  have hlast := h.touch_insert val (.inr (Represents.lastPtr_mem l₁ l₂))
  simp [listInsertAfter, newNode, insertBetween, hit, link, setNext, setPre, hnew, hfirst, hlast,
    h.lastPtr_ne, h.joined.1, Function.update_comm h.lastPtr_ne.symm,
    Function.update_comm h.firstPtr_ne.symm]

/-! ## A node goes out -/

/-- The list without the node `a` between two others. -/
def eraseBetween (l : ListT V) (p q : NodePtr) (a : ℕ) : ListT V where
  next := Function.update l.next p (some q)
  pre := Function.update l.pre q (some p)
  value := Function.update l.value a none
  fresh := l.fresh
  size := l.size - 1

theorem Represents.chain_erase (h : Represents l (l₁ ++ (a, v) :: l₂)) :
    (ring (l₁ ++ l₂)).IsChain
      (Joined (l.eraseBetween (lastPtr l₁) (firstPtr l₂) a).next
        (l.eraseBetween (lastPtr l₁) (firstPtr l₂) a).pre) := by
  obtain ⟨c, r, hring, hring'⟩ := ring_cut l₁ l₂
  have hchain : (ring (l₁ ++ (a, v) :: l₂)).IsChain (Joined l.next l.pre) := h.chain
  have hnodup := nodup_ring h.nodup
  rw [hring'] at hchain hnodup
  rw [hring]
  obtain ⟨-, hright, hdisj⟩ := List.nodup_append.mp hnodup
  obtain ⟨hlast, hright⟩ := List.nodup_cons.mp hright
  obtain ⟨-, hfirst⟩ := List.nodup_cons.mp hright
  obtain ⟨hfirst, -⟩ := List.nodup_cons.mp hfirst
  apply joined_erase hchain
  · simp [eraseBetween]
  · simp [eraseBetween]
  · intro b hb
    refine Function.update_of_ne ?_ ..
    rintro rfl
    rcases List.mem_append.mp hb with hb | hb
    · exact hdisj _ hb _ List.mem_cons_self rfl
    · exact hlast (List.mem_cons_of_mem _ hb)
  · intro b hb
    refine Function.update_of_ne ?_ ..
    rintro rfl
    rcases List.mem_append.mp hb with hb | hb
    · exact hdisj _ hb _ (by simp) rfl
    · rcases List.mem_cons.mp hb with hb | hb
      · exact hlast (by simp [hb])
      · exact hfirst hb

/-- The sequence after a node has gone out. -/
theorem Represents.erase (h : Represents l (l₁ ++ (a, v) :: l₂)) :
    Represents (l.eraseBetween (lastPtr l₁) (firstPtr l₂) a) (l₁ ++ l₂) := by
  have hsub : l₁ ++ l₂ ⊆ l₁ ++ (a, v) :: l₂ := fun x hx =>
    List.perm_middle.mem_iff.mpr (List.mem_cons_of_mem _ hx)
  have hne : ∀ b ∈ (l₁ ++ l₂).map Prod.fst, b ≠ a := by
    rintro b hb rfl
    exact h.notMem_others hb
  constructor
  · exact h.chain_erase
  · simpa [eraseBetween, head_ne_firstPtr] using h.first
  · simpa [eraseBetween, endNode_ne_lastPtr] using h.last
  · exact h.nodup.sublist (((List.sublist_cons_self (a, v) l₂).append_left l₁).map Prod.fst)
  · intro x hx
    simpa [eraseBetween, hne x.1 (List.mem_map_of_mem hx)] using h.value x (hsub hx)
  · intro b hb
    have hba : b ≠ a := by
      rintro rfl
      simp [eraseBetween] at hb
    have hmem := h.live b (by simpa [eraseBetween, hba] using hb)
    simpa [hba] using hmem
  · intro b hb
    exact h.fresh b (List.map_subset Prod.fst hsub hb)
  · simp [eraseBetween, h.size]

theorem Represents.joined_node (h : Represents l (l₁ ++ (a, v) :: l₂)) :
    Joined l.next l.pre (.node a) (firstPtr l₂) := by
  have hcut : Represents l ((l₁ ++ [(a, v)]) ++ l₂) := by simpa using h
  simpa using hcut.joined

/-- A node of the sequence is taken out and freed. -/
theorem unlink_spec (h : Represents l (l₁ ++ (a, v) :: l₂)) :
    l.unlink (.node a) = .ok (l.eraseBetween (lastPtr l₁) (firstPtr l₂) a) := by
  have hbefore : Joined l.next l.pre (lastPtr l₁) (.node a) := h.joined
  have hnode := h.touch (n := .node a) (by simp)
  have hlast := h.touch (Represents.lastPtr_mem l₁ ((a, v) :: l₂))
  have hfirst := h.touch (n := firstPtr l₂) (by
    have := Represents.firstPtr_mem (l₁ ++ [(a, v)]) l₂
    simpa using this)
  have hval := h.value (a, v) (by simp)
  simp [unlink, link, hnode, hbefore.2, h.joined_node.1, setNext, setPre, hlast, hfirst, free, hval,
    eraseBetween]

/-- A link that is not null has been there before the new node. -/
theorem link_newNode {val : V} {f : Link} (h : (l.newNode val).1.link f n = .ok (some p)) :
    l.link f n = .ok (some p) := by
  cases n with
  | head => cases f <;> simpa [link, touch, newNode] using h
  | endNode => cases f <;> simpa [link, touch, newNode] using h
  | node a =>
    by_cases ha : a = l.fresh
    · cases f <;> simp [link, touch, newNode, ha] at h
    · cases f <;> simpa [link, touch, newNode, ha] using h

/-- A call of `list_insert_before` that returns has put the value somewhere. -/
theorem Represents.of_insertBefore (h : Represents l xs) {val : V}
    (hok : l.listInsertBefore it val true = .ok l') :
    ∃ l₁ l₂, xs = l₁ ++ l₂ ∧ Represents l' (l₁ ++ (l.fresh, val) :: l₂) := by
  have hcall := hok
  rw [listInsertBefore, if_pos rfl] at hcall
  obtain ⟨n, hn, hcall⟩ := Exec.bind_eq_ok.mp hcall
  obtain ⟨o, hlink, hcall⟩ := Exec.bind_eq_ok.mp hcall
  obtain ⟨p, hp, -⟩ := Exec.bind_eq_ok.mp hcall
  obtain rfl := Exec.deref_eq_ok.mp hp
  obtain ⟨l₁, l₂, rfl, rfl, -⟩ := h.cut_before (link_newNode hlink)
  rw [listInsertBefore_spec h (Exec.deref_eq_ok.mp hn)] at hok
  cases hok
  exact ⟨l₁, l₂, rfl, h.insert val⟩

/-- A call of `list_insert_after` that returns has put the value somewhere. -/
theorem Represents.of_insertAfter (h : Represents l xs) {val : V}
    (hok : l.listInsertAfter it val true = .ok l') :
    ∃ l₁ l₂, xs = l₁ ++ l₂ ∧ Represents l' (l₁ ++ (l.fresh, val) :: l₂) := by
  have hcall := hok
  rw [listInsertAfter, if_pos rfl] at hcall
  obtain ⟨n, hn, hcall⟩ := Exec.bind_eq_ok.mp hcall
  obtain ⟨o, hlink, hcall⟩ := Exec.bind_eq_ok.mp hcall
  obtain ⟨q, hq, -⟩ := Exec.bind_eq_ok.mp hcall
  obtain rfl := Exec.deref_eq_ok.mp hq
  obtain ⟨l₁, l₂, rfl, rfl, -⟩ := h.cut_after (link_newNode hlink)
  rw [listInsertAfter_spec h (Exec.deref_eq_ok.mp hn)] at hok
  cases hok
  exact ⟨l₁, l₂, rfl, h.insert val⟩

/-- A node that is taken out and freed is one of the sequence. -/
theorem Represents.of_unlink (h : Represents l xs) (hok : l.unlink n = .ok l') :
    ∃ l₁ a v l₂, xs = l₁ ++ (a, v) :: l₂ ∧ n = .node a ∧ Represents l' (l₁ ++ l₂) := by
  have hcall := hok
  rw [unlink] at hcall
  obtain ⟨o, hpre, hcall⟩ := Exec.bind_eq_ok.mp hcall
  obtain ⟨o', hnext, hcall⟩ := Exec.bind_eq_ok.mp hcall
  obtain ⟨p, hp, hcall⟩ := Exec.bind_eq_ok.mp hcall
  obtain ⟨_, _, hcall⟩ := Exec.bind_eq_ok.mp hcall
  obtain ⟨q, hq, -⟩ := Exec.bind_eq_ok.mp hcall
  obtain rfl := Exec.deref_eq_ok.mp hp
  obtain rfl := Exec.deref_eq_ok.mp hq
  obtain ⟨l₁, l₂, rfl, rfl, -⟩ := h.cut_before hpre
  cases l₂ with
  | nil => exact absurd ((link_next.mp hnext).2.symm.trans h.last) nofun
  | cons x l₂ =>
    rw [firstPtr, unlink_spec h] at hok
    cases hok
    exact ⟨l₁, x.1, x.2, l₂, rfl, rfl, h.erase⟩

theorem Represents.of_erase (h : Represents l xs) (hok : l.listErase it = .ok (it', l')) :
    ∃ l₁ a v l₂, xs = l₁ ++ (a, v) :: l₂ ∧ it.n = some (.node a) ∧ Represents l' (l₁ ++ l₂) := by
  rw [listErase] at hok
  obtain ⟨next, _, hok⟩ := Exec.bind_eq_ok.mp hok
  obtain ⟨n, hn, hok⟩ := Exec.bind_eq_ok.mp hok
  obtain ⟨r, hunlink, hok⟩ := Exec.bind_eq_ok.mp hok
  cases hok
  obtain ⟨l₁, a, v, l₂, hxs, rfl, h'⟩ := h.of_unlink hunlink
  exact ⟨l₁, a, v, l₂, hxs, Exec.deref_eq_ok.mp hn, h'⟩

/-! ## A value is replaced -/

/-- The value of a node is replaced. -/
theorem Represents.setVal (h : Represents l (l₁ ++ (a, v) :: l₂)) (w : V) :
    Represents { l with value := Function.update l.value a (some w) } (l₁ ++ (a, w) :: l₂) := by
  have haddr : (l₁ ++ (a, w) :: l₂).map Prod.fst = (l₁ ++ (a, v) :: l₂).map Prod.fst := by simp
  constructor
  · simpa using h.chain
  · exact h.first
  · exact h.last
  · rw [haddr]
    exact h.nodup
  · intro x hx
    rw [List.perm_middle.mem_iff, List.mem_cons] at hx
    rcases hx with rfl | hx
    · simp
    · have hne : x.1 ≠ a := by
        rintro rfl
        exact h.notMem_others (List.mem_map_of_mem hx)
      have hmem : x ∈ l₁ ++ (a, v) :: l₂ :=
        List.perm_middle.mem_iff.mpr (List.mem_cons_of_mem _ hx)
      simpa [hne] using h.value x hmem
  · intro b hb
    rw [haddr]
    by_cases hba : b = a
    · simp [hba]
    · exact h.live b (by simpa [hba] using hb)
  · rw [haddr]
    exact h.fresh
  · simpa using h.size

theorem Represents.of_setVal (h : Represents l xs) (hok : l.listIterSetVal it v = .ok l') :
    ∃ ys, Represents l' ys := by
  rw [listIterSetVal] at hok
  obtain ⟨n, -, hok⟩ := Exec.bind_eq_ok.mp hok
  cases n with
  | head => cases hok
  | endNode => cases hok
  | node a =>
    obtain ⟨w, hw, hok⟩ := Exec.bind_eq_ok.mp hok
    cases hok
    have hlive : (l.value a).isSome := by
      cases ha : l.value a with
      | none => simp [valueOf, ha] at hw
      | some u => rfl
    obtain ⟨x, hx, rfl⟩ := List.mem_map.mp (h.live a hlive)
    obtain ⟨l₁, l₂, rfl⟩ := List.append_of_mem hx
    exact ⟨_, h.setVal v⟩

/-! ## The ends -/

theorem listBegin_spec (h : Represents l xs) :
    l.listBegin = .ok ⟨some (firstPtr xs, .next), some (firstPtr xs)⟩ := by
  rw [listBegin, h.next_head]
  rfl

theorem listRbegin_spec (h : Represents l xs) :
    l.listRbegin = .ok ⟨some (lastPtr xs, .pre), some (lastPtr xs)⟩ := by
  rw [listRbegin, h.pre_endNode]
  rfl

theorem listPushBack_spec (h : Represents l xs) (val : V) :
    ∃ l', l.listPushBack val true = .ok l' ∧ Represents l' (xs ++ [(l.fresh, val)]) := by
  have hcut : Represents l (xs ++ []) := by simpa using h
  refine ⟨_, ?_, hcut.insert val⟩
  rw [listPushBack]
  exact listInsertBefore_spec hcut rfl val

theorem listPushFront_spec (h : Represents l xs) (val : V) :
    ∃ l', l.listPushFront val true = .ok l' ∧ Represents l' ((l.fresh, val) :: xs) := by
  have hcut : Represents l ([] ++ xs) := h
  refine ⟨_, ?_, hcut.insert val⟩
  rw [listPushFront, listBegin_spec h, Exec.ok_bind]
  exact listInsertBefore_spec hcut rfl val

theorem valueOf_spec (h : Represents l (l₁ ++ (a, v) :: l₂)) : l.valueOf (.node a) = .ok v := by
  rw [valueOf, h.value (a, v) (by simp)]

theorem listFront_spec (h : Represents l ((a, v) :: xs)) : l.listFront = .ok (some v) := by
  have hcut : Represents l ([] ++ (a, v) :: xs) := h
  simp [listFront, h.size, h.next_head, valueOf_spec hcut]

theorem listBack_spec (h : Represents l (xs ++ [(a, v)])) : l.listBack = .ok (some v) := by
  simp [listBack, h.size, h.pre_endNode, valueOf_spec h]

theorem listPopFront_spec (h : Represents l ((a, v) :: xs)) :
    ∃ l', l.listPopFront = .ok (some v, l') ∧ Represents l' xs := by
  have hcut : Represents l ([] ++ (a, v) :: xs) := h
  refine ⟨_, ?_, hcut.erase⟩
  simp [listPopFront, h.size, h.next_head, valueOf_spec hcut, unlink_spec hcut]

theorem listPopBack_spec (h : Represents l (xs ++ [(a, v)])) :
    ∃ l', l.listPopBack = .ok (some v, l') ∧ Represents l' xs := by
  refine ⟨_, ?_, by simpa using h.erase⟩
  simp [listPopBack, h.size, h.pre_endNode, valueOf_spec h, unlink_spec h]

theorem listIsEmpty_spec (h : Represents l xs) : l.listIsEmpty = xs.isEmpty := by
  rw [listIsEmpty, h.size]
  cases xs <;> rfl

/-! ## Finding a value -/

section Find

variable [DecidableEq V]

/-- The loop passes the nodes with other values. -/
theorem findLoop_skip {m : List (ℕ × V)} (h : Represents l (l₁ ++ (m ++ l₂)))
    (hm : ∀ x ∈ m, x.2 ≠ v) (k : ℕ) :
    l.findLoop v (k + m.length) (some (firstPtr (m ++ l₂))) =
      l.findLoop v k (some (firstPtr l₂)) := by
  induction m generalizing l₁ with
  | nil => rfl
  | cons x m ih =>
    have hrest : Represents l ((l₁ ++ [x]) ++ (m ++ l₂)) := by simpa using h
    have hval : l.valueOf (.node x.1) = .ok x.2 := valueOf_spec h
    have hlink : l.link .next (.node x.1) = .ok (some (firstPtr (m ++ l₂))) :=
      link_next.mpr ⟨h.touch (by simp) l rfl, by simpa using hrest.joined.1⟩
    rw [← ih hrest fun y hy => hm y (List.mem_cons_of_mem x hy), List.length_cons, ← add_assoc,
      findLoop, List.cons_append, firstPtr, if_neg nofun, Exec.deref_some, Exec.ok_bind, hval,
      Exec.ok_bind, if_neg (hm x List.mem_cons_self), hlink, Exec.ok_bind]

theorem listFind_first (h : Represents l (l₁ ++ (a, v) :: l₂)) (hl₁ : ∀ x ∈ l₁, x.2 ≠ v) :
    l.listFind v = .ok ⟨some (.node a, .next), some (.node a)⟩ := by
  have hcut : Represents l ([] ++ (l₁ ++ (a, v) :: l₂)) := h
  have hfuel : l.size + 1 = (l₂.length + 1) + 1 + l₁.length := by
    simp [h.size]
    omega
  rw [listFind, h.next_head, hfuel, findLoop_skip hcut hl₁]
  simp [findLoop, valueOf_spec h]

theorem listFind_absent (h : Represents l xs) (hxs : ∀ x ∈ xs, x.2 ≠ v) :
    l.listFind v = .ok listEnd := by
  have hcut : Represents l ([] ++ (xs ++ [])) := by simpa using h
  rw [listFind, hcut.next_head, h.size, add_comm, List.nil_append, findLoop_skip hcut hxs]
  rfl

end Find

/-! ## The entries -/

/-- The entries met in so many steps along `next`. -/
def walk (l : ListT V) : ℕ → Option NodePtr → List (ℕ × V)
  | k + 1, some (.node a) => match l.value a with
    | some v => (a, v) :: walk l k (l.next (.node a))
    | none => []
  | _, _ => []

/-- The nodes of a list, from its head on, with their values. -/
def entries (l : ListT V) : List (ℕ × V) := l.walk l.size (l.next .head)

/-- The values of a list, in their order. -/
def values (l : ListT V) : List V := l.entries.map Prod.snd

theorem walk_spec (h : Represents l (l₁ ++ l₂)) : l.walk l₂.length (some (firstPtr l₂)) = l₂ := by
  induction l₂ generalizing l₁ with
  | nil => rfl
  | cons x l₂ ih =>
    have hrest : Represents l ((l₁ ++ [x]) ++ l₂) := by simpa using h
    have hnext : l.next (.node x.1) = some (firstPtr l₂) := h.joined_node.1
    simp [walk, h.value x (by simp), hnext, ih hrest]

theorem Represents.entries (h : Represents l xs) : l.entries = xs := by
  have hcut : Represents l ([] ++ xs) := h
  rw [ListT.entries, h.next_head, h.size, walk_spec hcut]

end ListT

end Kendylib
