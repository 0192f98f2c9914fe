import Kendylib.Container.HashMapRuns
import Kendylib.Foundations.Blocks
import Kendylib.Foundations.Run
import Kendylib.Foundations.Word
import Mathlib.Order.CompletePartialOrder
import Mathlib.Order.Interval.Set.Disjoint

/-!
# The layout of the hash map

The hash map of `src/hash_map.c` with its table as the bytes that `calloc` returns. An item has its
hash code in the bytes 0 to 7, its flag in byte 8, and from byte 9 on its key and its value. The
size of an item and its offset in the table are 32-bit words, while `calloc` is given the number of
slots and the size of an item and multiplies them without wrapping.

- `Exact`: no call computes a remainder by zero, an item has room for what is kept in it, and the
  bytes of the slots are apart from each other and inside the table.
- `layout_exact_iff`: in every state of a run this is so exactly if there is a slot, the size of an item is
  below `2 ^ 32`, and so is the offset of the last slot. The first slot whose offset is not gets
  bytes of the slot 0.
-/

namespace Kendylib

/-- A `hash_map`, with the bytes of its table. -/
structure ByteMap where
  slotSize : ℕ
  size : ℕ
  keySize : ℕ
  valSize : ℕ
  itemSize : ℕ
  expandSize : ℕ
  items : List UInt8

namespace ByteMap

open HashMap (Op)

/-- `hash_map_create`, the allocations succeeding. -/
def hashMapCreate (slotSize keySize valSize : ℕ) : ByteMap :=
  -- `sizeof(struct hash_item)` is 16
  let itemSize := (16 + keySize + valSize) % 0x100000000
  { slotSize := slotSize
    size := 0
    keySize := keySize
    valSize := valSize
    itemSize := itemSize
    expandSize := slotSize - slotSize / 4
    items := zeroed (slotSize * itemSize) }

/-! ## Items -/

/-- `GET_ITEM`: the offset of the item in a slot. -/
def getItem (itemSize slot : ℕ) : ℕ := mul32 itemSize slot

/-- The remainder that `HASH_MAP_INDEX` and the step to the next slot compute. -/
def remainder (a slotSize : ℕ) : Exec ℕ :=
  if slotSize = 0 then .error .divideByZero else .ok (a % slotSize)

/-- The bytes that are read. -/
def load (mem : List UInt8) (off n : ℕ) : Exec (List UInt8) :=
  if n = 0 then .ok []
  else if off + n ≤ mem.length then .ok ((mem.drop off).take n) else .error .outOfBounds

/-- Bytes that are written. -/
def store (mem : List UInt8) (off : ℕ) (bs : List UInt8) : Exec (List UInt8) :=
  if bs.length = 0 then .ok mem
  else if off + bs.length ≤ mem.length then
    .ok (mem.take off ++ bs ++ mem.drop (off + bs.length))
  else .error .outOfBounds

def itemEmpty : List UInt8 := [0]

def itemDelete : List UInt8 := [1]

def itemUsed : List UInt8 := [2]

def flagOf (mem : List UInt8) (item : ℕ) : Exec (List UInt8) := load mem (item + 8) 1

def codeOf (mem : List UInt8) (item : ℕ) : Exec ℕ := do return ofBytes (← load mem item 8)

/-- `GET_KEY`. -/
def keyOf (h : ByteMap) (mem : List UInt8) (item : ℕ) : Exec (List UInt8) :=
  load mem (item + 9) h.keySize

/-- `GET_VAL`. -/
def valOf (h : ByteMap) (mem : List UInt8) (item : ℕ) : Exec (List UInt8) :=
  load mem (item + 9 + h.keySize) h.valSize

/-! ## Operations -/

section Code

variable (hash : List UInt8 → UInt64) (keyCmp : List UInt8 → List UInt8 → Int)

/-- The item has this hash code and this key. -/
def isItemOf (h : ByteMap) (key : List UInt8) (hashCode item : ℕ) : Exec Bool := do
  if (← codeOf h.items item) = hashCode then
    return decide (keyCmp key (← h.keyOf h.items item) = 0)
  else return false

/-- The loop of `_hash_map_insert`, with `n` slots still to check: the item found free. -/
def insertLoop (h : ByteMap) (key : List UInt8) (hashCode : ℕ) : ℕ → ℕ → Exec (Option ℕ)
  | 0, _ => .ok none
  | n + 1, slot => do
    let item := getItem h.itemSize slot
    if (← flagOf h.items item) ≠ itemUsed then return some item
    else if ← isItemOf keyCmp h key hashCode item then return none
    else insertLoop h key hashCode n (← remainder (add32 slot 1) h.slotSize)

/-- `_hash_map_insert`. -/
def innerHashMapInsert (h : ByteMap) (key val : List UInt8) (hashCode : ℕ) :
    Exec (Int × ByteMap) := do
  let slot ← remainder hashCode h.slotSize
  match ← insertLoop keyCmp h key hashCode h.slotSize slot with
  | some item => do
    let items ← store h.items (item + 8) itemUsed
    let items ← store items (item + 9) (← load key 0 h.keySize)
    let items ← store items (item + 9 + h.keySize) (← load val 0 h.valSize)
    let items ← store items item (toBytes 8 hashCode)
    return (0, { h with items := items })
  | none => return (-1, h)

/-- The loop of `_hash_map_expand` over the slots of the old table. -/
def expandLoop (old : List UInt8) : List ℕ → ByteMap → Exec ByteMap
  | [], h => .ok h
  | i :: is, h => do
    let item := getItem h.itemSize i
    if (← flagOf old item) = itemUsed then do
      let key ← h.keyOf old item
      let val ← h.valOf old item
      let (_, h) ← innerHashMapInsert keyCmp h key val (← codeOf old item)
      expandLoop old is h
    else expandLoop old is h

/-- `_hash_map_expand`; `calloc` tells whether the allocation succeeds. -/
def hashMapExpand (h : ByteMap) (calloc : Bool) : Exec ByteMap :=
  if calloc then do
    let slotSize := mul32 h.slotSize 2
    let h ← expandLoop keyCmp h.items (List.range h.slotSize)
      { h with slotSize := slotSize, items := zeroed (slotSize * h.itemSize) }
    return { h with expandSize := h.slotSize - h.slotSize / 4 }
  else .ok h

/-- `hash_map_insert`. -/
def hashMapInsert (h : ByteMap) (key val : List UInt8) (calloc : Bool) : Exec (Int × ByteMap) := do
  let hashCode := (hash key).toNat
  let h ← (if h.slotSize < 0x80000000 ∧ h.expandSize ≤ h.size then hashMapExpand keyCmp h calloc
    else pure h)
  if h.slotSize ≤ h.size then return (-1, h)
  let (r, h) ← innerHashMapInsert keyCmp h key val hashCode
  if r = 0 then return (0, { h with size := add32 h.size 1 }) else return (-1, h)

/-- The loop of `_hash_map_find`, with `n` slots still to check: the item found. -/
def findLoop (h : ByteMap) (key : List UInt8) (hashCode : ℕ) : ℕ → ℕ → Exec (Option ℕ)
  | 0, _ => .ok none
  | n + 1, slot => do
    let item := getItem h.itemSize slot
    let flag ← flagOf h.items item
    if flag = itemEmpty then return none
    else if ← isItemOf keyCmp h key hashCode item then
      if flag = itemDelete then return none else return some item
    else findLoop h key hashCode n (← remainder (add32 slot 1) h.slotSize)

/-- `_hash_map_find`. -/
def hashMapFind (h : ByteMap) (key : List UInt8) : Exec (Option ℕ) := do
  let hashCode := (hash key).toNat
  findLoop keyCmp h key hashCode h.slotSize (← remainder hashCode h.slotSize)

/-- Set the flag of an item to `ITEM_DELETE` and decrease `size`. -/
def deleteItem (h : ByteMap) (item : ℕ) : Exec ByteMap := do
  return { h with items := ← store h.items (item + 8) itemDelete, size := sub32 h.size 1 }

/-- `hash_map_remove`. -/
def hashMapRemove (h : ByteMap) (key : List UInt8) : Exec (Int × ByteMap) := do
  match ← hashMapFind hash keyCmp h key with
  | some item => return (0, ← deleteItem h item)
  | none => return (-1, h)

/-- `hash_map_erase`. -/
def hashMapErase (h : ByteMap) (iter : Option ℕ) : Exec (Int × ByteMap) := do
  match iter with
  | some item => return (0, ← deleteItem h item)
  | none => return (-1, h)

/-- `hash_map_iter_get_val`, with the bytes read through the pointer. -/
def hashMapIterGetVal (h : ByteMap) (iter : Option ℕ) : Exec (List UInt8) := do
  h.valOf h.items (← Exec.deref iter)

/-- `hash_map_iter_set_val`. -/
def hashMapIterSetVal (h : ByteMap) (iter : Option ℕ) (data : List UInt8) : Exec ByteMap := do
  let item ← Exec.deref iter
  return { h with items := ← store h.items (item + 9 + h.keySize) (← load data 0 h.valSize) }

/-- One call, with keys and values as the bytes that their pointers lead to. -/
def step (h : ByteMap) : Op (List UInt8) (List UInt8) → Exec ByteMap
  | .insert k v calloc => do return (← hashMapInsert hash keyCmp h k v calloc).2
  | .find k => do
    match ← hashMapFind hash keyCmp h k with
    | some item => do
      let _ ← hashMapIterGetVal h (some item)
      return h
    | none => return h
  | .remove k => do return (← hashMapRemove hash keyCmp h k).2
  | .erase k => do return (← hashMapErase h (← hashMapFind hash keyCmp h k)).2
  | .setVal k v => do
    match ← hashMapFind hash keyCmp h k with
    | some item => hashMapIterSetVal h (some item) v
    | none => return h

/-! ## Exactness -/

/-- The bytes of a slot. -/
def range (h : ByteMap) (slot : ℕ) : Set ℕ :=
  Set.Ico (getItem h.itemSize slot) (getItem h.itemSize slot + h.itemSize)

/-- No call computes a remainder by zero, an item has room for its header, key and value, and the
bytes of the slots are apart from each other and inside the table. -/
structure Exact (h : ByteMap) : Prop where
  remainder : ∀ op, step hash keyCmp h op ≠ .error .divideByZero
  room : 9 + h.keySize + h.valSize ≤ h.itemSize
  disjoint : ∀ i < h.slotSize, ∀ j < h.slotSize, i ≠ j → Disjoint (h.range i) (h.range j)
  inside : ∀ i < h.slotSize, h.range i ⊆ Set.Ico 0 h.items.length

end Code

/-! ## The layout along a run -/

/-- The value the call returns satisfies `Q`; it computes a remainder by zero in the case `zero` only.
-/
def Computes {α : Type} (x : Exec α) (zero : Prop) (Q : α → Prop) : Prop :=
  match x with
  | .ok a => Q a
  | .error f => f = .divideByZero → zero

section Computes

variable {α β : Type} {x : Exec α} {zero zero' : Prop} {P Q : α → Prop}

theorem Computes.bind {f : α → Exec β} {R : β → Prop} (hx : Computes x zero P)
    (hf : ∀ a, P a → Computes (f a) zero R) : Computes (x >>= f) zero R := by
  cases x with
  | ok a => exact hf a hx
  | error e => exact hx

theorem Computes.mono (hx : Computes x zero P) (hzero : zero → zero') (hPQ : ∀ a, P a → Q a) :
    Computes x zero' Q := by
  cases x with
  | ok a => exact hPQ a hx
  | error e => exact fun he => hzero (hx he)

theorem computes_remainder (a b : ℕ) : Computes (remainder a b) (b = 0) fun _ => True := by
  unfold remainder
  split_ifs with h
  · exact fun _ => h
  · trivial

theorem computes_load (mem : List UInt8) (off n : ℕ) :
    Computes (load mem off n) zero fun _ => True := by
  unfold load
  split_ifs
  · trivial
  · trivial
  · exact nofun

/-- A write keeps the length of the table. -/
theorem computes_store (mem : List UInt8) (off : ℕ) (bs : List UInt8) :
    Computes (store mem off bs) zero fun mem' => mem'.length = mem.length := by
  unfold store
  split_ifs with hzero hfit
  · rfl
  · simp only [Computes, List.length_append, List.length_take, List.length_drop]
    omega
  · exact nofun

theorem computes_codeOf (mem : List UInt8) (item : ℕ) :
    Computes (codeOf mem item) zero fun _ => True :=
  (computes_load mem item 8).bind fun _ _ => trivial

end Computes

/-- The sizes are those that the map was made with, and the table is as `calloc` was asked for it. -/
structure Laid (k v : ℕ) (h : ByteMap) : Prop where
  keySize : h.keySize = k
  valSize : h.valSize = v
  itemSize : h.itemSize = (16 + k + v) % 0x100000000
  items : h.items.length = h.slotSize * h.itemSize

variable {hash : List UInt8 → UInt64} {keyCmp : List UInt8 → List UInt8 → Int} {h h' : ByteMap}
  {k v : ℕ}

theorem laid_hashMapCreate (slotSize k v : ℕ) : Laid k v (hashMapCreate slotSize k v) where
  keySize := rfl
  valSize := rfl
  itemSize := rfl
  items := length_zeroed _

theorem Laid.setItems (I : Laid k v h) {mem : List UInt8} (hmem : mem.length = h.items.length)
    (n : ℕ) : Laid k v { h with items := mem, size := n } where
  keySize := I.keySize
  valSize := I.valSize
  itemSize := I.itemSize
  items := hmem.trans I.items

theorem computes_isItemOf (h : ByteMap) (key : List UInt8) (hashCode item : ℕ) (zero : Prop) :
    Computes (isItemOf keyCmp h key hashCode item) zero fun _ => True := by
  refine (computes_codeOf h.items item).bind fun c _ => ?_
  split_ifs
  · exact (computes_load _ _ _).bind fun _ _ => trivial
  · trivial

theorem computes_insertLoop (h : ByteMap) (key : List UInt8) (hashCode n slot : ℕ) :
    Computes (insertLoop keyCmp h key hashCode n slot) (h.slotSize = 0) fun _ => True := by
  induction n generalizing slot with
  | zero => trivial
  | succ n ih =>
    refine (computes_load _ _ _).bind fun flag _ => ?_
    split_ifs
    · trivial
    · refine (computes_isItemOf h key hashCode _ _).bind fun same _ => ?_
      split_ifs
      · trivial
      · exact (computes_remainder _ _).bind fun slot' _ => ih slot'

theorem computes_findLoop (h : ByteMap) (key : List UInt8) (hashCode n slot : ℕ) :
    Computes (findLoop keyCmp h key hashCode n slot) (h.slotSize = 0) fun _ => True := by
  induction n generalizing slot with
  | zero => trivial
  | succ n ih =>
    refine (computes_load _ _ _).bind fun flag _ => ?_
    by_cases hempty : flag = itemEmpty
    · rw [if_pos hempty]
      trivial
    · rw [if_neg hempty]
      refine (computes_isItemOf h key hashCode _ _).bind fun same _ => ?_
      cases same with
      | true =>
        rw [if_pos rfl]
        split_ifs <;> trivial
      | false => exact (computes_remainder _ _).bind fun slot' _ => ih slot'

theorem Laid.innerHashMapInsert (I : Laid k v h) (key val : List UInt8) (hashCode : ℕ) :
    Computes (innerHashMapInsert keyCmp h key val hashCode) (h.slotSize = 0) fun r =>
      Laid k v r.2 ∧ r.2.slotSize = h.slotSize := by
  refine (computes_remainder _ _).bind fun slot _ => ?_
  refine (computes_insertLoop h key hashCode _ slot).bind fun found _ => ?_
  cases found with
  | none => exact ⟨I, rfl⟩
  | some item =>
    refine (computes_store _ _ _).bind fun mem₁ h₁ => ?_
    refine (computes_load _ _ _).bind fun _ _ => (computes_store _ _ _).bind fun mem₂ h₂ => ?_
    refine (computes_load _ _ _).bind fun _ _ => (computes_store _ _ _).bind fun mem₃ h₃ => ?_
    refine (computes_store _ _ _).bind fun mem₄ h₄ => ⟨?_, rfl⟩
    exact I.setItems (h₄.trans (h₃.trans (h₂.trans h₁))) h.size

theorem Laid.expandLoop (I : Laid k v h) (old : List UInt8) (slots : List ℕ) :
    Computes (expandLoop keyCmp old slots h) (h.slotSize = 0) fun h' =>
      Laid k v h' ∧ h'.slotSize = h.slotSize := by
  induction slots generalizing h with
  | nil => exact ⟨I, rfl⟩
  | cons i slots ih =>
    refine (computes_load _ _ _).bind fun flag _ => ?_
    split_ifs
    · refine (computes_load _ _ _).bind fun key _ => (computes_load _ _ _).bind fun val _ => ?_
      refine (computes_codeOf _ _).bind fun c _ => ?_
      refine (I.innerHashMapInsert key val c).bind fun r ⟨I', hslots⟩ => ?_
      exact (ih I').mono (fun h0 => hslots ▸ h0) fun h' ⟨I'', hslots'⟩ => ⟨I'', hslots'.trans hslots⟩
    · exact ih I

theorem Laid.hashMapExpand (I : Laid k v h) (hsmall : h.slotSize < 0x80000000) (calloc : Bool) :
    Computes (hashMapExpand keyCmp h calloc) (h.slotSize = 0) fun h' =>
      Laid k v h' ∧ (h'.slotSize = 0 → h.slotSize = 0) := by
  cases calloc with
  | false => exact ⟨I, id⟩
  | true =>
    have hdouble : mul32 h.slotSize 2 = h.slotSize * 2 := mul32_of_lt (by omega)
    have I' : Laid k v { h with
        slotSize := mul32 h.slotSize 2, items := zeroed (mul32 h.slotSize 2 * h.itemSize) } :=
      ⟨I.keySize, I.valSize, I.itemSize, length_zeroed _⟩
    have hzero : mul32 h.slotSize 2 = 0 → h.slotSize = 0 := by omega
    refine ((I'.expandLoop h.items _).mono hzero fun _ hr => hr).bind fun r ⟨I'', hslots⟩ => ?_
    have hlaid : Laid k v { r with expandSize := r.slotSize - r.slotSize / 4 } :=
      ⟨I''.keySize, I''.valSize, I''.itemSize, I''.items⟩
    exact ⟨hlaid, fun h0 => hzero (hslots.symm.trans h0)⟩

theorem Laid.hashMapInsert (I : Laid k v h) (key val : List UInt8) (calloc : Bool) :
    Computes (hashMapInsert hash keyCmp h key val calloc) (h.slotSize = 0) fun r =>
      Laid k v r.2 := by
  have hfirst : Computes (if h.slotSize < 0x80000000 ∧ h.expandSize ≤ h.size then
      ByteMap.hashMapExpand keyCmp h calloc else pure h) (h.slotSize = 0) fun h' =>
        Laid k v h' ∧ (h'.slotSize = 0 → h.slotSize = 0) := by
    split_ifs with hneeds
    · exact I.hashMapExpand hneeds.1 calloc
    · exact ⟨I, id⟩
  refine hfirst.bind fun h₁ ⟨I₁, hzero⟩ => ?_
  split_ifs
  · exact I₁
  · refine ((I₁.innerHashMapInsert key val _).mono hzero fun _ hr => hr).bind ?_
    rintro ⟨r, h₂⟩ ⟨I₂, -⟩
    dsimp only
    split_ifs
    · exact I₂.setItems rfl _
    · exact I₂

theorem computes_hashMapFind (h : ByteMap) (key : List UInt8) :
    Computes (hashMapFind hash keyCmp h key) (h.slotSize = 0) fun _ => True :=
  (computes_remainder _ _).bind fun slot _ => computes_findLoop h key _ _ slot

theorem Laid.deleteItem (I : Laid k v h) (item : ℕ) (zero : Prop) :
    Computes (deleteItem h item) zero (Laid k v) :=
  (computes_store _ _ _).bind fun _ hmem => I.setItems hmem _

theorem Laid.hashMapErase (I : Laid k v h) (iter : Option ℕ) (zero : Prop) :
    Computes (do return (← hashMapErase h iter).2) zero (Laid k v) := by
  cases iter with
  | none => exact I
  | some item =>
    rw [ByteMap.hashMapErase, bind_assoc]
    refine (I.deleteItem item zero).bind fun h' I' => ?_
    exact I'

/-- `hash_map_remove` erases what it finds. -/
theorem hashMapRemove_eq (h : ByteMap) (key : List UInt8) : hashMapRemove hash keyCmp h key =
    hashMapFind hash keyCmp h key >>= hashMapErase h := rfl

/-- One call keeps the layout, and computes a remainder by zero only if there is no slot. -/
theorem Laid.step (I : Laid k v h) (op : Op (List UInt8) (List UInt8)) :
    Computes (step hash keyCmp h op) (h.slotSize = 0) (Laid k v) := by
  cases op with
  | insert key val calloc =>
    refine (I.hashMapInsert key val calloc).bind fun r I' => ?_
    exact I'
  | find key =>
    refine (computes_hashMapFind h key).bind fun found _ => ?_
    cases found with
    | none => exact I
    | some item => exact (computes_load _ _ _).bind fun _ _ => I
  | remove key =>
    rw [ByteMap.step, hashMapRemove_eq, bind_assoc]
    exact (computes_hashMapFind h key).bind fun found _ => I.hashMapErase found _
  | erase key => exact (computes_hashMapFind h key).bind fun found _ => I.hashMapErase found _
  | setVal key val =>
    refine (computes_hashMapFind h key).bind fun found _ => ?_
    cases found with
    | none => exact I
    | some item =>
      refine (computes_load _ _ _).bind fun _ _ => (computes_store _ _ _).bind fun mem hmem => ?_
      exact I.setItems hmem h.size

/-! ## Where the layout is exact -/

/-- Where the last of the multiples of a word wraps, the first one that does is below the word. -/
theorem exists_mul32_lt {a n : ℕ} (ha : a < 0x100000000) (hn : 0x100000000 ≤ n * a) :
    ∃ s, 0 < s ∧ s ≤ n ∧ mul32 a s < a := by
  have hex : ∃ s, 0x100000000 ≤ s * a := ⟨n, hn⟩
  classical
  obtain ⟨s, hs⟩ : ∃ s, s = Nat.find hex := ⟨_, rfl⟩
  have hwraps : 0x100000000 ≤ s * a := hs ▸ Nat.find_spec hex
  have hpos : 0 < s := by
    rcases Nat.eq_zero_or_pos s with rfl | h
    · omega
    · exact h
  obtain ⟨m, rfl⟩ : ∃ m, s = m + 1 := ⟨s - 1, by omega⟩
  have hbefore : m * a < 0x100000000 := not_le.mp (Nat.find_min hex (by omega))
  refine ⟨m + 1, hpos, hs ▸ Nat.find_min' hex hn, ?_⟩
  have hmul : a * (m + 1) = m * a + a := by ring
  rw [Nat.add_mul, Nat.one_mul] at hwraps
  rw [mul32, hmul]
  omega

/-- The offset of a slot does not wrap if that of the last one does not. -/
theorem getItem_eq {itemSize slotSize i : ℕ} (hi : i < slotSize)
    (hlast : (slotSize - 1) * itemSize < 0x100000000) : getItem itemSize i = i * itemSize := by
  have hmul : itemSize * i ≤ (slotSize - 1) * itemSize := by
    rw [mul_comm]
    exact Nat.mul_le_mul_right _ (by omega)
  rw [getItem, mul32_of_lt (by omega), mul_comm]

theorem Exact.one_le (E : Exact hash keyCmp h) : 1 ≤ h.slotSize := by
  by_contra hzero
  have hfind : ByteMap.step hash keyCmp h (.find []) = .error .divideByZero := by
    rw [ByteMap.step, hashMapFind, ByteMap.remainder, if_pos (by omega)]
    rfl
  exact E.remainder _ hfind

/-- The slot whose offset is the first to wrap begins among the bytes of the slot 0. -/
theorem Exact.last_lt (E : Exact hash keyCmp h) (hitem : h.itemSize < 0x100000000) :
    (h.slotSize - 1) * h.itemSize < 0x100000000 := by
  have hslots := E.one_le
  by_contra hwraps
  obtain ⟨s, hs, hle, hlt⟩ := exists_mul32_lt hitem (not_lt.mp hwraps)
  have hdisj := E.disjoint 0 (by omega) s (by omega) hs.ne
  have hroom := E.room
  have hfirst : mul32 h.itemSize s ∈ h.range 0 := by simpa [range, getItem, mul32] using hlt
  have hsecond : mul32 h.itemSize s ∈ h.range s := by
    simp only [range, getItem, Set.mem_Ico]
    omega
  exact Set.disjoint_left.mp hdisj hfirst hsecond

/-- Where no offset wraps, the slots lie one after the other. -/
theorem disjoint_range (hlast : (h.slotSize - 1) * h.itemSize < 0x100000000) {i j : ℕ}
    (hj : j < h.slotSize) (hij : i < j) : Disjoint (h.range i) (h.range j) := by
  have hnext := Nat.mul_le_mul_right h.itemSize (Nat.succ_le_of_lt hij)
  rw [Nat.succ_mul] at hnext
  rw [range, range, getItem_eq (hij.trans hj) hlast, getItem_eq hj hlast, Set.Ico_disjoint_Ico]
  omega

theorem Laid.exact (I : Laid k v h) (hslots : 1 ≤ h.slotSize) (hroom : 16 + k + v < 0x100000000)
    (hlast : (h.slotSize - 1) * h.itemSize < 0x100000000) : Exact hash keyCmp h := by
  have hk := I.keySize
  have hv := I.valSize
  have hitem := I.itemSize
  constructor
  · intro op hop
    have hcomputes : Computes (ByteMap.step hash keyCmp h op) (h.slotSize = 0) (Laid k v) :=
      I.step op
    rw [hop] at hcomputes
    have hzero := hcomputes rfl
    omega
  · omega
  · intro i hi j hj hij
    rcases lt_or_gt_of_ne hij with hlt | hlt
    · exact disjoint_range hlast hj hlt
    · exact (disjoint_range hlast hi hlt).symm
  · intro i hi
    rw [range, getItem_eq hi hlast, I.items]
    refine Set.Ico_subset_Ico (Nat.zero_le _) ?_
    rw [← Nat.succ_mul]
    exact Nat.mul_le_mul_right _ hi

theorem Laid.exact_iff (I : Laid k v h) : Exact hash keyCmp h ↔
    1 ≤ h.slotSize ∧ 16 + k + v < 0x100000000 ∧
      (h.slotSize - 1) * (16 + k + v) < 0x100000000 := by
  have hk := I.keySize
  have hv := I.valSize
  have hitem := I.itemSize
  constructor
  · intro E
    have hroom : 16 + k + v < 0x100000000 := by
      have := E.room
      omega
    have hsame : h.itemSize = 16 + k + v := by omega
    exact ⟨E.one_le, hroom, hsame ▸ E.last_lt (by omega)⟩
  · rintro ⟨hslots, hroom, hlast⟩
    have hsame : h.itemSize = 16 + k + v := by omega
    exact I.exact hslots hroom (hsame ▸ hlast)

/-- **The layout is exact in a state of a run exactly if** there is a slot, and the size of an item
and the offset of the last slot are below `2 ^ 32`. -/
theorem layout_exact_iff (slotSize keySize valSize : ℕ) (ops : List (Op (List UInt8) (List UInt8))) :
    Exec.Always (step hash keyCmp)
      (fun h => Exact hash keyCmp h ↔ 1 ≤ h.slotSize ∧ 16 + keySize + valSize < 0x100000000 ∧
        (h.slotSize - 1) * (16 + keySize + valSize) < 0x100000000)
      (hashMapCreate slotSize keySize valSize) ops := by
  refine Exec.always_of_invariant (I := Laid keySize valSize) (C := fun _ _ => True)
    (fun h I => I.exact_iff) (fun h op h' I _ hop => ?_) (laid_hashMapCreate ..)
    (Exec.eachStep_of_forall fun _ _ _ => trivial)
  have hcomputes : Computes (step hash keyCmp h op) (h.slotSize = 0) (Laid keySize valSize) :=
    I.step op
  rwa [hop] at hcomputes

/-- Keys and values of 8 bytes: the slot `2 ^ 27` is the slot 0. Without slots, a search computes a
remainder by zero. -/
theorem not_exact_last_slot :
    (hashMapCreate 0x8000001 8 8).range 0x8000000 = (hashMapCreate 0x8000001 8 8).range 0 ∧
      ¬ Exact (fun _ => 0) (fun _ _ => 0) (hashMapCreate 0x8000001 8 8) ∧
        ∀ key, step (fun _ => 0) (fun _ _ => 0) (hashMapCreate 0 8 8) (.find key) =
          .error .divideByZero := by
  have hsame : (hashMapCreate 0x8000001 8 8).range 0x8000000 =
      (hashMapCreate 0x8000001 8 8).range 0 := rfl
  refine ⟨hsame, fun E => ?_, fun key => rfl⟩
  obtain ⟨-, -, hlast⟩ := (laid_hashMapCreate 0x8000001 8 8).exact_iff.mp E
  exact absurd hlast (by decide)

end ByteMap

end Kendylib
