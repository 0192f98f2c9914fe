import Kendylib.Foundations.Exec
import Kendylib.Foundations.RedBlack
import Mathlib.Logic.Function.Basic

/-!
# The red-black tree

The ordered map of `src/RBtree.c`, at the level of its pointers. A node has a `parent`, a `left` and
a `right` link; a link that leads nowhere points at the sentinel `nil`, a node inside the tree
structure whose colour is black and whose other fields are left as `malloc` returned them. No link
of a node is ever a null pointer.

The functions that differ from each other only by exchanging left and right are one definition
applied to a `Side`: for `rotate_left` the side is left, and the child that comes up is on the
other side. The loops run for as many rounds as the tree has nodes, and fault with `Fault.fuel`
beyond.

The counter `size` is a natural number: a tree has fewer than `2 ^ 32` nodes.
-/

namespace Kendylib

/-- The address of a node. -/
abbrev Addr := ℕ

/-- An `RBnode`, with its key and value. -/
structure RBnode (K V : Type) where
  parent : Addr
  left : Addr
  right : Addr
  color : Color
  key : K
  val : V

/-- The link on a side. -/
def RBnode.child {K V : Type} (n : RBnode K V) : Side → Addr
  | .left => n.left
  | .right => n.right

def RBnode.setChild {K V : Type} (n : RBnode K V) (a : Addr) : Side → RBnode K V
  | .left => { n with left := a }
  | .right => { n with right := a }

/-- An `RBtree` and the nodes in memory: those allocated and not freed. Addresses from `fresh` on
have not been used. -/
structure RBtree (K V : Type) where
  root : Addr
  size : ℕ
  node : Addr → Option (RBnode K V)
  fresh : Addr

namespace RBtree

variable {K V : Type}

/-- The sentinel. -/
def nil : Addr := 0

/-- `RBtree_create`; `dummy` is what `malloc` left in the sentinel. -/
def create (dummy : RBnode K V) : RBtree K V where
  root := nil
  size := 0
  node := Function.update (fun _ => none) nil (some { dummy with color := .black })
  fresh := 1

/-! ## Nodes -/

def get (rb : RBtree K V) (a : Addr) : Exec (RBnode K V) :=
  match rb.node a with
  | some n => .ok n
  | none => .error .freed

/-- Overwrite a node. -/
def put (rb : RBtree K V) (a : Addr) (n : RBnode K V) : RBtree K V :=
  { rb with node := Function.update rb.node a (some n) }

def setParent (rb : RBtree K V) (a p : Addr) : Exec (RBtree K V) := do
  return rb.put a { ← rb.get a with parent := p }

def setChild (s : Side) (rb : RBtree K V) (a b : Addr) : Exec (RBtree K V) := do
  return rb.put a ((← rb.get a).setChild b s)

def setColor (rb : RBtree K V) (a : Addr) (c : Color) : Exec (RBtree K V) := do
  return rb.put a { ← rb.get a with color := c }

/-- `copy_key` and `copy_value`. -/
def copyData (rb : RBtree K V) (a : Addr) (key : K) (val : V) : Exec (RBtree K V) := do
  return rb.put a { ← rb.get a with key := key, val := val }

/-- `free`. -/
def free (rb : RBtree K V) (a : Addr) : Exec (RBtree K V) := do
  let _ ← rb.get a
  return { rb with node := Function.update rb.node a none }

/-! ## Rotations -/

/-- Let the link from `parent` to `n` lead to `m`, or the root if `n` is the root. -/
def replaceChild (rb : RBtree K V) (parent n m : Addr) : Exec (RBtree K V) :=
  if n = rb.root then .ok { rb with root := m }
  else do
    if n = (← rb.get parent).left then rb.setChild .left parent m
    else rb.setChild .right parent m

/-- `rotate_left` and `rotate_right`. -/
def rotate (s : Side) (rb : RBtree K V) (n : Addr) : Exec (RBtree K V) := do
  let parent := (← rb.get n).parent
  let up := (← rb.get n).child s.other
  if up = nil then return rb
  let rb ← rb.setChild s.other n ((← rb.get up).child s)
  let rb ← rb.setParent ((← rb.get up).child s) n
  let rb ← rb.replaceChild parent n up
  let rb ← rb.setParent up parent
  let rb ← rb.setParent n up
  rb.setChild s up n

def rotateLeft (rb : RBtree K V) (n : Addr) : Exec (RBtree K V) := rotate .left rb n

def rotateRight (rb : RBtree K V) (n : Addr) : Exec (RBtree K V) := rotate .right rb n

/-! ## Repairing after an insert -/

/-- `color_flip`. -/
def colorFlip (rb : RBtree K V) (n : Addr) : Exec (RBtree K V) := do
  let rb ← rb.setColor n .red
  let rb ← rb.setColor (← rb.get n).right .black
  rb.setColor (← rb.get n).left .black

/-- Bring a node that is on the inner side of its parent to the outer side. -/
def outerGrandchild (s : Side) (rb : RBtree K V) (n parent : Addr) :
    Exec (RBtree K V × Addr) := do
  if n = (← rb.get parent).child s.other then return (← rotate s rb parent, parent)
  else return (rb, n)

/-- Let the parent of `n` take the place and the colour of the grandparent. -/
def liftParent (s : Side) (rb : RBtree K V) (n : Addr) : Exec (RBtree K V) := do
  let rb ← rb.setColor (← rb.get n).parent .black
  let grandParent := (← rb.get (← rb.get n).parent).parent
  let rb ← rb.setColor grandParent .red
  rotate s.other rb grandParent

/-- A round of `insert_fix_up` whose parent is on the side `s` of the grandparent, and the node to
go on with. -/
def insertRound (s : Side) (rb : RBtree K V) (n parent grandParent : Addr) :
    Exec (RBtree K V × Addr) := do
  let ancle := (← rb.get grandParent).child s.other
  if (← rb.get ancle).color = .red then
    return (← rb.colorFlip grandParent, grandParent)
  else
    let (rb, n) ← outerGrandchild s rb n parent
    return (← liftParent s rb n, n)

/-- The side of its parent that `n` is on; the code takes the right side for granted if it is not
the left one. -/
def sideOf (rb : RBtree K V) (parent n : Addr) : Exec Side := do
  if n = (← rb.get parent).left then return .left else return .right

/-- The loop of `insert_fix_up`. -/
def insertFixUpLoop : ℕ → RBtree K V → Addr → Exec (RBtree K V)
  | 0, _, _ => .error .fuel
  | fuel + 1, rb, n => do
    let parent := (← rb.get n).parent
    if (← rb.get parent).color = .red then
      let grandParent := (← rb.get parent).parent
      let s ← rb.sideOf grandParent parent
      let (rb, n) ← rb.insertRound s n parent grandParent
      insertFixUpLoop fuel rb n
    else return rb

/-- `insert_fix_up`. -/
def insertFixUp (rb : RBtree K V) (n : Addr) : Exec (RBtree K V) := do
  let rb ← insertFixUpLoop (rb.size + 1) rb n
  rb.setColor rb.root .black

/-! ## Repairing after a delete -/

/-- The sibling of a node on the side `s` of `p`, after a red one has been rotated away. -/
def blackSibling (s : Side) (rb : RBtree K V) (p : Addr) : Exec (RBtree K V × Addr) := do
  let w := (← rb.get p).child s.other
  if (← rb.get w).color = .red then
    let rb ← rb.setColor w .black
    let rb ← rb.setColor p .red
    let rb ← rotate s rb p
    return (rb, (← rb.get p).child s.other)
  else return (rb, w)

/-- The sibling `w`, after a red child on its inner side has been brought to the outer side. -/
def redNephew (s : Side) (rb : RBtree K V) (p w : Addr) : Exec (RBtree K V × Addr) := do
  if (← rb.get ((← rb.get w).child s.other)).color = .black then
    -- `w->left->color == BLACK;` only compares
    let _ ← rb.get ((← rb.get w).child s)
    let rb ← rb.setColor w .red
    let rb ← rotate s.other rb w
    return (rb, (← rb.get p).child s.other)
  else return (rb, w)

/-- A round of `delete_fix_up` at a node on the side `s` of `p`, and the node to go on with. -/
def deleteRound (s : Side) (rb : RBtree K V) (p : Addr) : Exec (RBtree K V × Addr) := do
  let (rb, w) ← blackSibling s rb p
  if (← rb.get (← rb.get w).left).color = .black ∧ (← rb.get (← rb.get w).right).color = .black then
    return (← rb.setColor w .red, p)
  else
    let (rb, w) ← redNephew s rb p w
    let rb ← rb.setColor w (← rb.get p).color
    let rb ← rb.setColor p .black
    let rb ← rb.setColor ((← rb.get w).child s.other) .black
    let rb ← rotate s rb p
    return (rb, rb.root)

/-- The loop of `delete_fix_up`: the node it ends at. -/
def deleteFixUpLoop : ℕ → RBtree K V → Addr → Exec (RBtree K V × Addr)
  | 0, _, _ => .error .fuel
  | fuel + 1, rb, n => do
    if n = rb.root then return (rb, n)
    else if (← rb.get n).color = .red then return (rb, n)
    else
      let p := (← rb.get n).parent
      let s ← rb.sideOf p n
      let (rb, n) ← rb.deleteRound s p
      deleteFixUpLoop fuel rb n

/-- `delete_fix_up`. -/
def deleteFixUp (rb : RBtree K V) (n : Addr) : Exec (RBtree K V) := do
  let (rb, n) ← deleteFixUpLoop (rb.size + 1) rb n
  rb.setColor n .black

/-! ## Walking -/

/-- The loop of `minimum` and `maxmum`. -/
def extremeLoop (s : Side) (rb : RBtree K V) : ℕ → Addr → Exec Addr
  | 0, _ => .error .fuel
  | fuel + 1, n => do
    if (← rb.get n).child s ≠ nil then extremeLoop s rb fuel ((← rb.get n).child s)
    else return n

def minimum (rb : RBtree K V) (n : Addr) : Exec Addr := extremeLoop .left rb (rb.size + 1) n

def maxmum (rb : RBtree K V) (n : Addr) : Exec Addr := extremeLoop .right rb (rb.size + 1) n

/-- The loop of `successor` up the parents. -/
def successorLoop (rb : RBtree K V) : ℕ → Addr → Addr → Exec Addr
  | 0, _, _ => .error .fuel
  | fuel + 1, n, y => do
    if y = nil then return y
    else if n = (← rb.get y).right then successorLoop rb fuel y (← rb.get y).parent
    else return y

/-- `successor`. -/
def successor (rb : RBtree K V) (n : Addr) : Exec Addr := do
  if (← rb.get n).right ≠ nil then rb.minimum (← rb.get n).right
  else successorLoop rb (rb.size + 1) n (← rb.get n).parent

/-- `get_delete_node`. -/
def getDeleteNode (rb : RBtree K V) (n : Addr) : Exec Addr := do
  if (← rb.get n).left = nil ∧ (← rb.get n).right = nil then return n
  else if (← rb.get n).right ≠ nil then rb.minimum (← rb.get n).right
  else rb.maxmum (← rb.get n).left

/-! ## The map -/

section Map

variable (compare : K → K → Int)

/-- The loop of `find`: the node of the key, or the last node visited. -/
def findLoop (rb : RBtree K V) (key : K) : ℕ → Addr → Addr → Exec Addr
  | 0, _, _ => .error .fuel
  | fuel + 1, cur, pre => do
    if cur = nil then return pre
    else
      let c := compare key (← rb.get cur).key
      if c = 0 then return cur
      else if c = -1 then findLoop rb key fuel (← rb.get cur).left cur
      else findLoop rb key fuel (← rb.get cur).right cur

/-- `find`. -/
def find (rb : RBtree K V) (key : K) : Exec Addr :=
  if rb.root = nil then .ok nil else findLoop compare rb key (rb.size + 1) rb.root nil

/-- `RBtree_find`: the node of the iterator, `nil` for the end. -/
def RBtreeFind (rb : RBtree K V) (key : K) : Exec Addr := do
  let n ← rb.find compare key
  if n = nil then return nil
  else if compare key (← rb.get n).key = 0 then return n
  else return nil

/-- `create_node` with the fields that `RBtree_insert` sets. -/
def createNode (rb : RBtree K V) (parent : Addr) (key : K) (val : V) : RBtree K V × Addr :=
  ({ rb.put rb.fresh ⟨parent, nil, nil, .red, key, val⟩ with fresh := rb.fresh + 1 }, rb.fresh)

/-- The part of `RBtree_insert` that links a new node below `x`. -/
def linkNode (rb : RBtree K V) (x : Addr) (key : K) (val : V) : Exec (RBtree K V × Addr) := do
  let (rb, n) := rb.createNode x key val
  let rb ← (do
    if x = nil then return { rb with root := n }
    else if compare key (← rb.get x).key = -1 then rb.setChild .left x n
    else rb.setChild .right x n)
  return ({ rb with size := rb.size + 1 }, n)

/-- `RBtree_insert`: the node of the iterator, `nil` for the end. -/
def RBtreeInsert (rb : RBtree K V) (key : K) (val : V) : Exec (Addr × RBtree K V) := do
  let x ← rb.find compare key
  let found ← (do
    if x = nil then return false else return decide (compare key (← rb.get x).key = 0))
  if found then return (nil, rb)
  let (rb, n) ← rb.linkNode compare x key val
  return (n, ← rb.insertFixUp n)

/-- The part of `rb_delete` that stores the successor of `n`, when the node to be unlinked is `x`. -/
def successorOf (rb : RBtree K V) (n x : Addr) : Exec Addr := do
  if x = n ∨ compare (← rb.get x).key (← rb.get n).key = -1 then rb.successor x
  else return n

/-- The part of `rb_delete` that unlinks `x`; the node that takes its place. -/
def unlink (rb : RBtree K V) (x : Addr) : Exec (RBtree K V × Addr) := do
  let node ← rb.get x
  let side ← rb.sideOf node.parent x
  let z := if node.left ≠ nil then node.left else node.right
  let rb ← rb.setChild side node.parent z
  let rb ← rb.setParent z node.parent
  return (rb, z)

/-- The part of `rb_delete` that repairs the tree and frees `x`. -/
def retire (rb : RBtree K V) (x z : Addr) : Exec (RBtree K V) := do
  let rb ← (do
    if x ≠ rb.root ∧ (← rb.get x).color = .black then rb.deleteFixUp z else return rb)
  let rb := if x = rb.root then { rb with root := nil } else rb
  let rb ← rb.free x
  return { rb with size := rb.size - 1 }

/-- `rb_delete`; the first result is what is stored in `succ`, if it is asked for. -/
def rbDelete (rb : RBtree K V) (key : K) (wantSucc : Bool) :
    Exec (Option Addr × RBtree K V) := do
  let n ← rb.find compare key
  if compare key (← rb.get n).key = 0 then
    let x ← rb.getDeleteNode n
    let succ ← (do
      if wantSucc then return some (← rb.successorOf compare n x) else return none)
    let (rb, z) ← rb.unlink x
    let rb ← (do
      if n ≠ x then rb.copyData n (← rb.get x).key (← rb.get x).val else return rb)
    return (succ, ← rb.retire x z)
  else return (none, rb)

/-- `RBtree_delete`. -/
def RBtreeDelete (rb : RBtree K V) (key : K) : Exec (RBtree K V) := do
  return (← rb.rbDelete compare key false).2

/-- `RBtree_erase` with an iterator at the node `it`. -/
def RBtreeErase (rb : RBtree K V) (it : Addr) : Exec (Addr × RBtree K V) := do
  let (succ, rb) ← rb.rbDelete compare (← rb.get it).key true
  return (succ.getD nil, rb)

end Map

/-- `rb_iter_get_first`. -/
def iterGetFirst (rb : RBtree K V) (it : Addr) : Exec K := do return (← rb.get it).key

/-- `rb_iter_get_second`. -/
def iterGetSecond (rb : RBtree K V) (it : Addr) : Exec V := do return (← rb.get it).val

/-- `rb_iter_set_second`. -/
def iterSetSecond (rb : RBtree K V) (it : Addr) (val : V) : Exec (RBtree K V) := do
  return rb.put it { ← rb.get it with val := val }

/-- `RBtree_size`. -/
def RBtreeSize (rb : RBtree K V) : ℕ := rb.size

/-- `RBtree_empty`. -/
def RBtreeEmpty (rb : RBtree K V) : Bool := rb.size == 0

end RBtree

end Kendylib
