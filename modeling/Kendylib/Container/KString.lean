import Kendylib.Foundations.Blocks
import Kendylib.Foundations.Word
import Mathlib.Data.List.Basic

/-!
# Strings

The `string` of `kstring.c`: a pointer `str` to a heap block and the number `buf_size`. A block is
the list of the bytes allocated for it, so that a write outside it is a fault, and so is the search
for the end of a text in a block that holds no NUL. A string owns its block: no other string has it.

`ALLOC` is `calloc`, and no allocation fails. A `realloc` to a larger size leaves bytes of which the
code knows nothing, here `junk`.
-/

namespace Kendylib.Strings

/-- A text in memory: its characters, none of which is the NUL that ends it. -/
structure CString where
  chars : List UInt8
  noNul : 0 ∉ chars
  deriving DecidableEq

namespace CString

/-- The memory a text takes. -/
def bytes (t : CString) : List UInt8 := t.chars ++ [0]

def length (t : CString) : ℕ := t.chars.length

def append (t u : CString) : CString :=
  ⟨t.chars ++ u.chars, fun h => (List.mem_append.mp h).elim t.noNul u.noNul⟩

@[simp] theorem append_chars (t u : CString) : (t.append u).chars = t.chars ++ u.chars := rfl

@[simp] theorem length_append (t u : CString) : (t.append u).length = t.length + u.length :=
  List.length_append

@[simp] theorem length_bytes (t : CString) : t.bytes.length = t.length + 1 := List.length_append

end CString

/-! ## Memory -/

/-- The byte at an offset. -/
def byteAt (mem : List UInt8) (i : ℕ) : Exec UInt8 :=
  match mem[i]? with
  | some c => .ok c
  | none => .error .outOfBounds

/-- `strlen`. -/
def strlen : List UInt8 → Exec ℕ
  | [] => .error .outOfBounds
  | c :: mem => if c = 0 then .ok 0 else (strlen mem).map (· + 1)

/-- The characters that `strncpy` writes. -/
def strncpyChars : List UInt8 → ℕ → Exec (List UInt8)
  | _, 0 => .ok []
  | [], _ + 1 => .error .outOfBounds
  | c :: src, n + 1 =>
    if c = 0 then .ok (List.replicate (n + 1) 0) else (strncpyChars src n).map (c :: ·)

/-- `strncpy`. -/
def strncpy (dst src : List UInt8) (n : ℕ) : Exec (List UInt8) := do
  let chars ← strncpyChars src n
  if n ≤ dst.length then return chars ++ dst.drop n else .error .outOfBounds

/-- `strcat`. -/
def strcat (dst src : List UInt8) : Exec (List UInt8) := do
  let len1 ← strlen dst
  let len2 ← strlen src
  if len1 + len2 + 1 ≤ dst.length then
    return dst.take len1 ++ src.take (len2 + 1) ++ dst.drop (len1 + len2 + 1)
  else .error .outOfBounds

/-! ## The code -/

/-- `string_t`. -/
structure KString where
  bufSize : ℕ
  str : Option (List UInt8)
  deriving DecidableEq

/-- `string_create`, with the memory from its argument on. -/
def stringCreate : Option (List UInt8) → Exec KString
  | none => .ok ⟨0, none⟩
  | some str => do
    let bufSize := add32 (← strlen str) 1
    return ⟨bufSize, some (← strncpy (zeroed bufSize) str bufSize)⟩

/-- `string_size`. -/
def stringSize (s : KString) : Exec ℕ :=
  match s.str with
  | none => .ok 0
  | some str => return (← strlen str) % 0x100000000

/-- `string_assign_cstr`. -/
def stringAssignCstr (a : KString) (b : List UInt8) : Exec KString := do
  let len1 ← stringSize a
  let len2 := (← strlen b) % 0x100000000
  let a : KString := if a.str = none ∨ len1 < len2 then
    ⟨add32 len2 1, some (zeroed (add32 len2 1))⟩ else a
  let str ← Exec.deref a.str
  return { a with str := some (← strncpy str b (add32 len2 1)) }

/-- `string_assign`. -/
def stringAssign (a b : KString) : Exec KString :=
  match b.str with
  | none => .ok a
  | some str => stringAssignCstr a str

/-- `string_cat_cstr`. -/
def stringCatCstr (junk : ℕ → UInt8) (a : KString) (b : List UInt8) : Exec KString := do
  let len1 ← stringSize a
  let len2 := (← strlen b) % 0x100000000
  let len3 := sub32 (add32 len1 len2) 1
  match a.str with
  | none =>
    return { a with str := some (← strncpy (zeroed (add32 len2 1)) b (add32 len2 1)) }
  | some str =>
    if len3 ≤ a.bufSize then return { a with str := some (← strcat str b) }
    else return ⟨len3, some (← strcat (resized junk str len3) b)⟩

/-- `string_cat`. -/
def stringCat (junk : ℕ → UInt8) (a b : KString) : Exec KString :=
  match b.str with
  | none => .ok a
  | some str => stringCatCstr junk a str

/-- The memory begins with the text and its NUL. -/
def Text (mem : List UInt8) (t : CString) : Prop := ∃ slack, mem = t.chars ++ 0 :: slack

namespace Text

variable {mem dst src : List UInt8} {t u : CString} {n : ℕ}

theorem length_lt (h : Text mem t) : t.length < mem.length := by
  obtain ⟨slack, rfl⟩ := h
  simp [CString.length]

theorem bytes (t : CString) : Text t.bytes t := ⟨[], rfl⟩

end Text

theorem strncpyChars_append {cs : List UInt8} (h : 0 ∉ cs) (mem : List UInt8) (n : ℕ) :
    strncpyChars (cs ++ mem) (cs.length + n) = (strncpyChars mem n).map (cs ++ ·) := by
  induction cs with
  | nil =>
    rw [List.nil_append, List.length_nil, Nat.zero_add]
    cases strncpyChars mem n <;> rfl
  | cons c cs ih =>
    have hc : c ≠ 0 := fun hc => h (hc ▸ List.mem_cons_self)
    rw [List.cons_append, List.length_cons, Nat.add_right_comm, strncpyChars, if_neg hc,
      ih fun h' => h (List.mem_cons_of_mem c h')]
    cases strncpyChars mem n <;> rfl

theorem strlen_append {cs : List UInt8} (h : 0 ∉ cs) (slack : List UInt8) :
    strlen (cs ++ 0 :: slack) = .ok cs.length := by
  induction cs with
  | nil => rfl
  | cons c cs ih =>
    have hc : c ≠ 0 := fun hc => h (hc ▸ List.mem_cons_self)
    rw [List.cons_append, strlen, if_neg hc, ih fun h' => h (List.mem_cons_of_mem c h')]
    rfl

theorem Text.strlen_eq {mem : List UInt8} {t : CString} (h : Text mem t) :
    strlen mem = .ok t.length := by
  obtain ⟨slack, rfl⟩ := h
  exact strlen_append t.noNul slack

theorem Text.unique {mem : List UInt8} {t u : CString} (h : Text mem t) (h' : Text mem u) :
    t = u := by
  have hlen : t.length = u.length := Except.ok.inj (h.strlen_eq.symm.trans h'.strlen_eq)
  obtain ⟨slack, rfl⟩ := h
  obtain ⟨slack', heq⟩ := h'
  have hchars : t.chars = u.chars := (List.append_inj heq hlen).1
  cases t
  cases u
  simpa using hchars

end Kendylib.Strings
