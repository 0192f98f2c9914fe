import Kendylib.Foundations.Exec
import Mathlib.Data.Finset.Card
import Mathlib.Data.Set.Card

/-!
# The open-addressing hash map

The hash map of `src/hash_map.c`. A table has `slot_size` slots, probed from the remainder of the
hash code on, one slot after the other and round to the start. A removed item stays in its slot
with the flag `ITEM_DELETE`: a search goes past it, but an insert stops at the first slot that is
not `ITEM_USED`.

The hash function and the key comparison are the parameters `hash` and `keyCmp`. The items of a
table lie at `item_size * slot`, which is a slot of its own as long as `slot_size * item_size` stays
below `2 ^ 32`; the model addresses the slots by their numbers. The `_on_remove` callback is called
with the item removed and does not touch the map; it is left out.
-/

namespace Kendylib

/-- A `hash_item`, with its flag. An empty item has no content that is read. -/
inductive Slot (K V : Type)
  | empty
  | delete (hashCode : UInt64) (key : K) (val : V)
  | used (hashCode : UInt64) (key : K) (val : V)
  deriving DecidableEq

/-- A `hash_map`, without its function pointers. -/
structure HashMap (K V : Type) where
  slotSize : ℕ
  size : ℕ
  expandSize : ℕ
  items : List (Slot K V)

namespace HashMap

variable {K V : Type}

/-- An iterator: the slot of an item, or none if it is invalid. -/
abbrev Iter := Option ℕ

/-- `HASH_MAP_INDEX`. -/
def hashMapIndex (hashCode : UInt64) (slotSize : ℕ) : ℕ := hashCode.toNat % slotSize

/-- `hash_map_create`, the allocation succeeding. -/
def hashMapCreate (slotSize : ℕ) : HashMap K V where
  slotSize := slotSize
  size := 0
  expandSize := slotSize - slotSize / 4
  items := List.replicate slotSize .empty

/-- `GET_ITEM`. -/
def getItem (h : HashMap K V) (slot : ℕ) : Exec (Slot K V) :=
  match h.items[slot]? with
  | some item => .ok item
  | none => .error .outOfBounds

/-- Overwrite an item. -/
def setItem (h : HashMap K V) (slot : ℕ) (item : Slot K V) : HashMap K V :=
  { h with items := h.items.set slot item }

section Code

variable (hash : K → UInt64) (keyCmp : K → K → Int)

/-- The probing loop of `_hash_map_insert`, with `n` slots still to check: the slot found free, or
none when the key is met or every slot is in use. -/
def insertLoop (h : HashMap K V) (key : K) (hashCode : UInt64) : ℕ → ℕ → Exec (Option ℕ)
  | 0, _ => .ok none
  | n + 1, slot => do
    match ← h.getItem slot with
    | .used c k _ =>
      if hashCode = c ∧ keyCmp key k = 0 then return none
      else insertLoop h key hashCode n ((slot + 1) % h.slotSize)
    | _ => return some slot

/-- `_hash_map_insert`. -/
def innerHashMapInsert (h : HashMap K V) (key : K) (val : V) (hashCode : UInt64) :
    Exec (Int × HashMap K V) := do
  match ← insertLoop keyCmp h key hashCode h.slotSize (hashMapIndex hashCode h.slotSize) with
  | some slot => return (0, h.setItem slot (.used hashCode key val))
  | none => return (-1, h)

/-- The loop of `_hash_map_expand` over the old items. -/
def expandLoop (h : HashMap K V) : List (Slot K V) → Exec (HashMap K V)
  | [] => .ok h
  | .used c k v :: old => do
    let (_, h) ← innerHashMapInsert keyCmp h k v c
    expandLoop h old
  | _ :: old => expandLoop h old

/-- `_hash_map_expand`; `calloc` tells whether the allocation succeeds. -/
def hashMapExpand (h : HashMap K V) (calloc : Bool) : Exec (HashMap K V) :=
  if calloc then do
    let slotSize := 2 * h.slotSize
    let h ← expandLoop keyCmp
      { h with slotSize := slotSize, items := List.replicate slotSize .empty } h.items
    return { h with expandSize := h.slotSize - h.slotSize / 4 }
  else .ok h

/-- `hash_map_insert` expands the table that is three quarters full. -/
def NeedsExpand (h : HashMap K V) : Prop := h.slotSize < 0x80000000 ∧ h.expandSize ≤ h.size

instance (h : HashMap K V) : Decidable (NeedsExpand h) := inferInstanceAs (Decidable (_ ∧ _))

/-- `hash_map_insert`. -/
def hashMapInsert (h : HashMap K V) (key : K) (val : V) (calloc : Bool) :
    Exec (Int × HashMap K V) := do
  let hashCode := hash key
  let h ← (if NeedsExpand h then hashMapExpand keyCmp h calloc else pure h)
  if h.slotSize ≤ h.size then return (-1, h)
  let (r, h) ← innerHashMapInsert keyCmp h key val hashCode
  if r = 0 then return (0, { h with size := h.size + 1 }) else return (-1, h)

/-- The probing loop of `_hash_map_find`, with `n` slots still to check. -/
def findLoop (h : HashMap K V) (key : K) (hashCode : UInt64) : ℕ → ℕ → Exec Iter
  | 0, _ => .ok none
  | n + 1, slot => do
    match ← h.getItem slot with
    | .empty => return none
    | .delete c k _ =>
      if c = hashCode ∧ keyCmp key k = 0 then return none
      else findLoop h key hashCode n ((slot + 1) % h.slotSize)
    | .used c k _ =>
      if c = hashCode ∧ keyCmp key k = 0 then return some slot
      else findLoop h key hashCode n ((slot + 1) % h.slotSize)

/-- `_hash_map_find`, and `hash_map_find` that wraps its result in an iterator. -/
def hashMapFind (h : HashMap K V) (key : K) : Exec Iter :=
  findLoop keyCmp h key (hash key) h.slotSize (hashMapIndex (hash key) h.slotSize)

/-- Set the flag of the item in a slot to `ITEM_DELETE` and decrease `size`. An iterator points at
an empty slot only if the table it was made for has been freed. -/
def deleteItem (h : HashMap K V) (slot : ℕ) : Exec (HashMap K V) := do
  match ← h.getItem slot with
  | .used c k v | .delete c k v =>
    return { h.setItem slot (.delete c k v) with size := h.size - 1 }
  | .empty => .error .freed

/-- `hash_map_remove`. -/
def hashMapRemove (h : HashMap K V) (key : K) : Exec (Int × HashMap K V) := do
  match ← hashMapFind hash keyCmp h key with
  | some slot => return (0, ← deleteItem h slot)
  | none => return (-1, h)

/-- `hash_map_erase`. -/
def hashMapErase (h : HashMap K V) (iter : Iter) : Exec (Int × HashMap K V) := do
  match iter with
  | some slot => return (0, ← deleteItem h slot)
  | none => return (-1, h)

/-- `hash_map_iter_get_val`. -/
def hashMapIterGetVal (h : HashMap K V) (iter : Iter) : Exec V := do
  match ← h.getItem (← Exec.deref iter) with
  | .used _ _ v | .delete _ _ v => return v
  | .empty => .error .freed

/-- `hash_map_iter_set_val`. -/
def hashMapIterSetVal (h : HashMap K V) (iter : Iter) (data : V) : Exec (HashMap K V) := do
  let slot ← Exec.deref iter
  match ← h.getItem slot with
  | .used c k _ => return h.setItem slot (.used c k data)
  | .delete c k _ => return h.setItem slot (.delete c k data)
  | .empty => .error .freed

end Code

end HashMap

end Kendylib
