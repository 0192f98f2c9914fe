import Kendylib.Foundations.Exec
import Mathlib.Logic.Function.Basic

/-!
# Blocks of bytes

The heap that `malloc`, `calloc`, `realloc` and `free` manage, with what `memcpy` reads and writes
in it. A block is the list of its bytes, and a pointer to it is a number that is never given out
again. An access outside a block faults, and so does one to a block that has been freed. No
allocation fails.

`realloc` returns the same block or a new one; which of them, and the bytes that a larger block
gets, is up to the allocator (`Realloc`). -/

namespace Kendylib

/-- The bytes of a block from `calloc`. -/
def zeroed (n : ℕ) : List UInt8 := List.replicate n 0

/-- The bytes of a block whose size is changed: a larger one ends with `junk`. -/
def resized (junk : ℕ → UInt8) (mem : List UInt8) (n : ℕ) : List UInt8 :=
  (List.range n).map fun i => mem.getD i (junk i)

@[simp] theorem length_zeroed (n : ℕ) : (zeroed n).length = n := List.length_replicate

@[simp] theorem length_resized (junk : ℕ → UInt8) (mem : List UInt8) (n : ℕ) :
    (resized junk mem n).length = n := by
  simp [resized]

theorem take_resized {mem : List UInt8} {m n : ℕ} (junk : ℕ → UInt8) (hm : m ≤ mem.length)
    (hn : m ≤ n) : (resized junk mem n).take m = mem.take m := by
  apply List.ext_getElem
  · simp
    omega
  · intro i h h'
    rw [List.length_take] at h'
    have hi : i < mem.length := by omega
    simp [resized, hi]

/-- What is kept of a block that grows. -/
theorem prefix_resized {mem cs : List UInt8} {n : ℕ} (junk : ℕ → UInt8) (h : cs <+: mem)
    (hn : cs.length ≤ n) : cs <+: resized junk mem n := by
  have hle := h.length_le
  rw [List.prefix_iff_eq_take] at h ⊢
  rw [take_resized junk hle hn]
  exact h

/-- The choices of the allocator in a `realloc`. -/
structure Realloc where
  moves : Bool
  junk : ℕ → UInt8

/-- The blocks that are allocated; pointers from `fresh` on have not been given out. -/
structure Blocks where
  mem : ℕ → Option (List UInt8)
  fresh : ℕ

namespace Blocks

def empty : Blocks := ⟨fun _ => none, 0⟩

def get (h : Blocks) (p : ℕ) : Exec (List UInt8) :=
  match h.mem p with
  | some b => .ok b
  | none => .error .freed

def put (h : Blocks) (p : ℕ) (b : List UInt8) : Blocks :=
  { h with mem := Function.update h.mem p (some b) }

/-- A new block with these bytes, and the pointer to it. -/
def alloc (h : Blocks) (b : List UInt8) : ℕ × Blocks :=
  (h.fresh, ⟨Function.update h.mem h.fresh (some b), h.fresh + 1⟩)

/-- `free`. -/
def free (h : Blocks) : Option ℕ → Exec Blocks
  | none => .ok h
  | some p => do
    let _ ← h.get p
    return { h with mem := Function.update h.mem p none }

/-- `realloc`. -/
def realloc (h : Blocks) (r : Realloc) (p : Option ℕ) (n : ℕ) : Exec (ℕ × Blocks) :=
  match p with
  | none => .ok (h.alloc (resized r.junk [] n))
  | some p => do
    let b ← h.get p
    if r.moves then return (← h.free (some p)).alloc (resized r.junk b n)
    else return (p, h.put p (resized r.junk b n))

/-- The bytes that `memcpy` reads; nothing is accessed if there are none. -/
def load (h : Blocks) (p : Option ℕ) (off n : ℕ) : Exec (List UInt8) :=
  if n = 0 then .ok []
  else do
    let b ← h.get (← Exec.deref p)
    if off + n ≤ b.length then return (b.drop off).take n else .error .outOfBounds

/-- The bytes that `memcpy` writes. -/
def store (h : Blocks) (p : Option ℕ) (off : ℕ) (bs : List UInt8) : Exec Blocks :=
  if bs.length = 0 then .ok h
  else do
    let p ← Exec.deref p
    let b ← h.get p
    if off + bs.length ≤ b.length then
      return h.put p (b.take off ++ bs ++ b.drop (off + bs.length))
    else .error .outOfBounds

/-- `memcpy` from the beginning of one block to that of another. -/
def memcpy (h : Blocks) (dst src : Option ℕ) (n : ℕ) : Exec Blocks := do
  h.store dst 0 (← h.load src 0 n)

/-! ## One block -/

/-- What is to be had of a pointer: the bytes of its block, none for a null pointer. -/
def Holds (h : Blocks) : Option ℕ → List UInt8 → Prop
  | none, b => b = []
  | some p, b => h.mem p = some b

/-- Pointers that have not been given out lead nowhere. -/
def Fresh (h : Blocks) : Prop := ∀ p, h.fresh ≤ p → h.mem p = none

/-- All blocks but one are the same. -/
def SameBut (h h' : Blocks) (p : Option ℕ) : Prop :=
  ∀ q, p ≠ some q → h.mem q ≠ none → h'.mem q = h.mem q

variable {h h' : Blocks} {p q : ℕ} {o : Option ℕ} {b bs : List UInt8} {off n : ℕ} {r : Realloc}

theorem get_eq (hp : h.mem p = some b) : h.get p = .ok b := by
  rw [get, hp]

theorem get_freed (hp : h.mem p = none) : h.get p = .error .freed := by
  rw [get, hp]

@[simp] theorem put_mem_self : (h.put p b).mem p = some b := Function.update_self ..

theorem Fresh.put (hf : h.Fresh) (hp : h.mem p ≠ none) : (h.put p b).Fresh := by
  intro q hq
  have hne : q ≠ p := by
    rintro rfl
    exact hp (hf q hq)
  exact (Function.update_of_ne hne ..).trans (hf q hq)

theorem sameBut_put : SameBut h (h.put p b) (some p) := by
  intro q hq _
  exact Function.update_of_ne (fun hqp => hq (congrArg some hqp.symm)) ..

theorem Fresh.alloc (hf : h.Fresh) (b : List UInt8) : (h.alloc b).2.Fresh := by
  intro q hq
  have hq : h.fresh + 1 ≤ q := hq
  exact (Function.update_of_ne (by omega) ..).trans (hf q (by omega))

@[simp] theorem alloc_mem_self : (h.alloc b).2.mem (h.alloc b).1 = some b := Function.update_self ..

theorem Fresh.mem_fresh (hf : h.Fresh) : h.mem h.fresh = none := hf h.fresh le_rfl

theorem sameBut_alloc (hf : h.Fresh) (o : Option ℕ) : SameBut h (h.alloc b).2 o := by
  intro q _ hq
  have hne : q ≠ h.fresh := by
    rintro rfl
    exact hq hf.mem_fresh
  exact Function.update_of_ne hne ..

/-- Bytes within a block are read. -/
theorem load_eq (hb : h.Holds o b) (hn : off + n ≤ b.length) :
    h.load o off n = .ok ((b.drop off).take n) := by
  rw [load]
  split
  · rename_i hzero
    rw [hzero, List.take_zero]
  · cases o with
    | none =>
      rw [show b = [] from hb, List.length_nil] at hn
      omega
    | some p => rw [Exec.deref_some, Exec.ok_bind, get_eq hb, Exec.ok_bind, if_pos hn, Exec.pure_eq]

/-- Bytes within a block are written. -/
theorem store_eq (hp : h.mem p = some b) (hn : off + bs.length ≤ b.length) :
    ∃ h', h.store (some p) off bs = .ok h' ∧
      h'.mem = Function.update h.mem p (some (b.take off ++ bs ++ b.drop (off + bs.length))) ∧
      h'.fresh = h.fresh := by
  rw [store]
  split
  · rename_i hzero
    obtain rfl := List.length_eq_zero_iff.mp hzero
    refine ⟨h, rfl, ?_, rfl⟩
    simp [← hp]
  · rw [Exec.deref_some, Exec.ok_bind, get_eq hp, Exec.ok_bind, if_pos hn]
    exact ⟨_, rfl, rfl, rfl⟩

theorem memcpy_zero (h : Blocks) (dst src : Option ℕ) : h.memcpy dst src 0 = .ok h := by
  simp [memcpy, load, store]

/-! ## What an operation does to a pointer -/

/-- Only the block of the pointer has changed, and the pointer itself at most to that of a new one.
-/
structure Update (h h' : Blocks) (o o' : Option ℕ) : Prop where
  fresh : h'.Fresh
  same : SameBut h h' o
  pointer : o' = o ∨ ∃ p, o' = some p ∧ h.mem p = none

theorem SameBut.trans {h'' : Blocks} (hs : SameBut h h' o) (hs' : SameBut h' h'' o) :
    SameBut h h'' o := by
  intro q hq hmem
  have hsame := hs q hq hmem
  exact (hs' q hq (hsame ▸ hmem)).trans hsame

theorem Update.refl (hf : h.Fresh) (o : Option ℕ) : Update h h o o :=
  ⟨hf, fun _ _ _ => rfl, .inl rfl⟩

/-- A block of its own for a pointer that had none. -/
theorem Update.alloc (hf : h.Fresh) (b : List UInt8) :
    Update h (h.alloc b).2 none (some (h.alloc b).1) :=
  ⟨hf.alloc b, sameBut_alloc hf none, .inr ⟨_, rfl, hf.mem_fresh⟩⟩

/-- Two updates one after the other, the second one of the pointer that the first one has left. -/
theorem Update.trans {h'' : Blocks} {o' o'' : Option ℕ} (hu : Update h h' o o')
    (hu' : Update h' h'' o' o'') : Update h h'' o o'' := by
  refine ⟨hu'.fresh, fun q hq hlive => ?_, ?_⟩
  · have hsame := hu.same q hq hlive
    have hne : o' ≠ some q := by
      rcases hu.pointer with rfl | ⟨p, rfl, hnew⟩
      · exact hq
      · rintro ⟨⟩
        exact hlive hnew
    exact (hu'.same q hne (hsame ▸ hlive)).trans hsame
  · rcases hu'.pointer with rfl | ⟨p, rfl, hnew⟩
    · exact hu.pointer
    · by_cases ho : o = some p
      · exact .inl ho.symm
      · refine .inr ⟨p, rfl, ?_⟩
        by_contra hlive
        exact hlive ((hu.same p ho hlive).symm.trans hnew)

/-- A write into the block that the pointer leads to after the update. -/
theorem Update.write {h'' : Blocks} (hu : Update h h' o (some p))
    (hp : h'.mem p ≠ none) (hmem : h''.mem = Function.update h'.mem p (some b))
    (hfresh : h''.fresh = h'.fresh) : Update h h'' o (some p) := by
  refine ⟨fun q hq => ?_, fun q hq hlive => ?_, hu.pointer⟩
  · rw [hfresh] at hq
    have hne : q ≠ p := by
      rintro rfl
      exact hp (hu.fresh q hq)
    rw [hmem, Function.update_of_ne hne, hu.fresh q hq]
  · have hne : q ≠ p := by
      rintro rfl
      rcases hu.pointer with rfl | ⟨_, ⟨⟩, hnew⟩
      · exact hq rfl
      · exact hlive hnew
    rw [hmem, Function.update_of_ne hne, hu.same q hq hlive]

/-- The beginning of one block is copied to that of another, which may be the same. -/
theorem memcpy_update {src : Option ℕ} {c : List UInt8} (hf : h.Fresh) (hb : h.Holds o b)
    (hc : h.Holds src c) (hn : n ≤ b.length) (hn' : n ≤ c.length) :
    ∃ h', h.memcpy o src n = .ok h' ∧ h'.Holds o (c.take n ++ b.drop n) ∧ Update h h' o o := by
  have hload : h.load src 0 n = .ok (c.take n) := by
    simpa using @load_eq h src c 0 n hc (by omega)
  have hlen : (c.take n).length = n := by simpa using hn'
  rw [memcpy, hload, Exec.ok_bind]
  cases o with
  | none =>
    obtain rfl : b = [] := hb
    obtain rfl : n = 0 := by simpa using hn
    exact ⟨h, by simp [store], by simp [Holds], .refl hf none⟩
  | some p =>
    have hp : h.mem p = some b := hb
    obtain ⟨h', hstore, hmem, hfresh⟩ := @store_eq h p b (c.take n) 0 hp (by omega)
    refine ⟨h', hstore, ?_, (Update.refl hf (some p)).write (by simp [hp]) hmem hfresh⟩
    rw [Holds, hmem, Function.update_self, hlen]
    simp

theorem realloc_stays (hf : h.Fresh) (hb : h.Holds o b) (hstay : r.moves = false ∨ o = none)
    (n : ℕ) : ∃ p h', h.realloc r o n = .ok (p, h') ∧ h'.mem p = some (resized r.junk b n) ∧
      Update h h' o (some p) ∧ (o = some p ∨ o = none) := by
  cases o with
  | none =>
    obtain rfl : b = [] := hb
    exact ⟨_, _, rfl, alloc_mem_self, .alloc hf _, .inr rfl⟩
  | some p =>
    have hp : h.mem p = some b := hb
    have hmoves : r.moves = false := by simpa using hstay
    have hlive : h.mem p ≠ none := by simp [hp]
    refine ⟨p, h.put p (resized r.junk b n), ?_, put_mem_self,
      ⟨hf.put hlive, sameBut_put, .inl rfl⟩, .inl rfl⟩
    simp [realloc, get_eq hp, hmoves]

/-- A block that moves is freed. -/
theorem realloc_moves (hf : h.Fresh) (hp : h.mem p = some b) (hmoves : r.moves = true) (n : ℕ) :
    ∃ q h', h.realloc r (some p) n = .ok (q, h') ∧ h'.mem p = none ∧ q ≠ p := by
  have hne : p ≠ h.fresh := by
    rintro rfl
    simp [hf.mem_fresh] at hp
  let h₁ : Blocks := { h with mem := Function.update h.mem p none }
  refine ⟨h.fresh, (h₁.alloc (resized r.junk b n)).2, ?_, ?_, hne.symm⟩
  · simp [realloc, get_eq hp, hmoves, free, h₁, alloc]
  · simp [alloc, h₁, hne]

end Blocks

end Kendylib
