import Kendylib.Foundations.Blocks
import Kendylib.Foundations.Word

/-!
# Vectors

The `vector` of `vector.c`: `size` elements of `val_size` bytes each in a block `buf` with room for
`capability` of them. All three numbers and the products of two of them are 32-bit words.

A value is given as the memory from its address on, of which the code reads `val_size` bytes. No
allocation fails.
-/

namespace Kendylib.Vectors

/-- `struct vector`. -/
structure Vector where
  size : ℕ
  capability : ℕ
  valSize : ℕ
  buf : Option ℕ

/-- `vector_create`. -/
def vectorCreate (h : Blocks) (valSize reserveSize : ℕ) : Blocks × Vector :=
  if reserveSize ≠ 0 then
    let q := h.alloc (zeroed (mul32 valSize reserveSize))
    (q.2, ⟨reserveSize, reserveSize, valSize, some q.1⟩)
  else (h, ⟨reserveSize, reserveSize, valSize, none⟩)

/-- `vector_copy_create`. -/
def vectorCopyCreate (h : Blocks) (v : Vector) : Exec (Blocks × Vector) :=
  if v.buf = none then .ok (vectorCreate h v.valSize 0)
  else do
    let q := h.alloc (zeroed (mul32 v.capability v.valSize))
    let h ← q.2.memcpy (some q.1) v.buf (mul32 v.valSize v.size)
    return (h, ⟨v.size, v.capability, v.valSize, some q.1⟩)

/-- `vector_clear`. -/
def vectorClear (v : Vector) : Vector := { v with size := 0 }

/-- Where `realloc` has returned another block, the old one is freed. -/
def freeOld (h : Blocks) (buf : ℕ) (old : Option ℕ) : Exec Blocks :=
  if some buf ≠ old then h.free old else .ok h

/-- Where `realloc` has returned another block, `n` bytes are copied from the old one, which is
freed. -/
def moveOld (h : Blocks) (buf : ℕ) (old : Option ℕ) (n : ℕ) : Exec Blocks :=
  if some buf ≠ old then do (← h.memcpy (some buf) old n).free old else .ok h

/-- `vector_copy`. -/
def vectorCopy (h : Blocks) (r : Realloc) (v other : Vector) : Exec (Blocks × Vector) :=
  if other.buf = none ∨ v.valSize ≠ other.valSize then .ok (h, v)
  else if v.capability < other.capability then do
    let newSize := mul32 other.capability other.valSize
    let q ← h.realloc r v.buf newSize
    let h ← freeOld q.2 q.1 v.buf
    let h ← h.memcpy (some q.1) other.buf (mul32 other.size other.valSize)
    return (h, ⟨other.size, other.capability, v.valSize, some q.1⟩)
  else do
    let h ← h.memcpy v.buf other.buf (mul32 other.size other.valSize)
    return (h, { v with size := other.size })

/-- `vector_reserve`. -/
def vectorReserve (h : Blocks) (r : Realloc) (v : Vector) (reserveSize : ℕ) :
    Exec (Blocks × Vector) :=
  if v.capability > reserveSize then
    .ok (h, { v with
      capability := reserveSize, size := if v.size > reserveSize then reserveSize else v.size })
  else do
    let newSize := mul32 v.valSize reserveSize
    let q ← h.realloc r v.buf newSize
    let h ← moveOld q.2 q.1 v.buf (mul32 v.valSize v.size)
    return (h, { v with capability := reserveSize, buf := some q.1 })

/-- The bytes of a value. -/
def valueAt (val : ℕ → UInt8) (n : ℕ) : List UInt8 := (List.range n).map val

/-- `memcpy` of a value to `vector_get_addr_by_idx`. -/
def storeValue (h : Blocks) (v : Vector) (idx : ℕ) (val : ℕ → UInt8) : Exec Blocks :=
  h.store v.buf (mul32 v.valSize idx) (valueAt val v.valSize)

/-- The part of `vector_push_back` that makes room if the vector is full. -/
def vectorGrow (h : Blocks) (r : Realloc) (v : Vector) : Exec (Blocks × Vector) :=
  if v.size = v.capability then do
    let capability := if v.capability > 0 then mul32 2 v.capability else 32
    let newSize := mul32 capability v.valSize
    let q ← h.realloc r v.buf newSize
    let h ← moveOld q.2 q.1 v.buf (mul32 v.valSize v.capability)
    return (h, { v with capability := capability, buf := some q.1 })
  else .ok (h, v)

/-- `vector_push_back`. -/
def vectorPushBack (h : Blocks) (r : Realloc) (v : Vector) (val : ℕ → UInt8) :
    Exec (Blocks × Vector) := do
  let q ← vectorGrow h r v
  let h ← storeValue q.1 q.2 q.2.size val
  return (h, { q.2 with size := add32 q.2.size 1 })

/-- `vector_get`: what is in `*val` afterwards. -/
def vectorGet (h : Blocks) (v : Vector) (idx : ℕ) (val : List UInt8) : Exec (List UInt8) :=
  if v.buf ≠ none ∧ idx < v.capability then h.load v.buf (mul32 v.valSize idx) v.valSize
  else .ok val

/-- `vector_set`. -/
def vectorSet (h : Blocks) (v : Vector) (idx : ℕ) (val : ℕ → UInt8) : Exec Blocks :=
  if v.buf ≠ none ∧ idx < v.capability then storeValue h v idx val else .ok h

end Kendylib.Vectors
