import Kendylib.Alloc.BlockObjAllocatorRuns

/-!
# The sizes of objects

`create_block_obj_allocator` rounds the size of the objects up to a power of two, and
`creat_new_freelist` divides the megabyte of a block by it. The rounding is exact in the whole range
(`le_objSize`). Beyond a megabyte the division leaves no object, and the first allocation takes
one off an empty list (`size_works_iff`).
-/

namespace Kendylib.BlockObjAllocator

open WPacket

variable {objSize : ℕ} {objNext : Obj → Option Obj}

/-- The rounded size is at least the size asked for. -/
theorem le_objSize (hmax : objSize ≤ 0x80000000) :
    objSize ≤ (createBlockObjAllocator objSize objNext).objSize := by
  obtain ⟨size, hsize⟩ : ∃ size, size = if objSize < 8 then 8 else objSize := ⟨_, rfl⟩
  have hle : objSize ≤ size ∧ 0 < size ∧ size ≤ 0x80000000 := by
    split at hsize <;> omega
  change objSize ≤ 1 <<< getK (if objSize < 8 then 8 else objSize) % 0x100000000
  rw [← hsize, one_shiftLeft_getK hle.2.1 hle.2.2, getK_eq_clog hle.2.1 hle.2.2]
  exact hle.1.trans (Nat.le_pow_clog one_lt_two size)

/-! ## Carving a block -/

/-- Where an object begins in its block: `i*size`. -/
def offset (size : ℕ) (x : Obj) : ℕ := x.2 * size % 0x100000000

/-- The free list `f` has been carved out of a new block, in objects of `size` bytes each that are
to hold `objSize` bytes. -/
structure Carved (objSize size : ℕ) (a : Allocator) (f : ℕ) : Prop where
  nonempty : objects a f ≠ []
  disjoint : (objects a f).Pairwise fun x y =>
    offset size x + size ≤ offset size y ∨ offset size y + size ≤ offset size x
  inside : ∀ x ∈ objects a f, x.1 = f ∧ offset size x + size ≤ defaultBlockSize
  large : objSize ≤ size

/-- A new allocator works: its first block is carved, and its first allocation returns an object
that lies inside a block. -/
structure Works (objSize : ℕ) (a : Allocator) : Prop where
  carved : ∃ f b, creatNewFreelist a = .ok (f, b) ∧ Carved objSize a.objSize b f
  alloc : ∃ x b, blockObjAlAlloc a = .ok (x, b) ∧ x.1 < b.blocks ∧
    offset a.objSize x + a.objSize ≤ defaultBlockSize

variable {size n i j : ℕ}

theorem offset_add_le (hn : defaultBlockSize / size = n) (hi : i < n) (f : ℕ) :
    offset size (f, i) = i * size ∧ i * size + size ≤ defaultBlockSize := by
  have hle : (i + 1) * size ≤ defaultBlockSize :=
    (Nat.mul_le_mul_right size hi).trans (hn ▸ Nat.div_mul_le_self defaultBlockSize size)
  rw [Nat.succ_mul] at hle
  refine ⟨Nat.mod_eq_of_lt ?_, hle⟩
  have hmega : defaultBlockSize < 0x100000000 := by decide
  exact (Nat.le_of_add_right_le hle).trans_lt hmega

theorem offset_disjoint (hn : defaultBlockSize / size = n) (hij : i < j) (hj : j < n) (f : ℕ) :
    offset size (f, i) + size ≤ offset size (f, j) := by
  rw [(offset_add_le hn (hij.trans hj) f).1, (offset_add_le hn hj f).1, ← Nat.succ_mul]
  exact Nat.mul_le_mul_right size hij

/-- A block is carved as soon as the division leaves an object. -/
theorem carved_of_objects {a : Allocator} {f : ℕ} (hpos : 0 < n) (hn : defaultBlockSize / size = n)
    (hlarge : objSize ≤ size) (hobj : objects a f = newObjs f n) : Carved objSize size a f := by
  refine ⟨?_, ?_, fun x hx => ?_, hlarge⟩
  · rw [hobj, newObjs, Ne, List.map_eq_nil_iff, List.range_eq_nil]
    exact hpos.ne'
  · rw [hobj, newObjs, List.pairwise_map]
    refine List.pairwise_lt_range.imp_of_mem fun hi hj hij => .inl ?_
    exact offset_disjoint hn hij (List.mem_range.mp hj) f
  · rw [hobj, mem_newObjs] at hx
    obtain ⟨rfl, hx⟩ := hx
    obtain ⟨hoff, hle⟩ := offset_add_le hn hx x.1
    exact ⟨rfl, hoff ▸ hle⟩

/-- Objects of at most one megabyte. -/
theorem works_of_le (hmax : objSize ≤ 0x100000) :
    Works objSize (createBlockObjAllocator objSize objNext) := by
  obtain ⟨n, I⟩ : ∃ n, Inv (createBlockObjAllocator objSize objNext) n ∅ := create_inv hmax
  obtain ⟨fr, rc, ce, os, size, P, S, L, hthread⟩ := id I
  constructor
  · obtain ⟨b, hnew, Sb, -, hblocks, -⟩ := creatNewFreelist_spec S
    refine ⟨_, b, hnew, carved_of_objects S.pos S.objSize.2.1 (le_objSize (by omega)) ?_⟩
    rw [Sb.stock.objects_eq (by omega), Function.update_self]
  · obtain ⟨x, b, halloc, -, Ib⟩ := blockObjAlAlloc_spec I
    have hx := Ib.mem_blockObjs (Finset.mem_insert_self x ∅)
    rw [blockObjs, Finset.mem_product, Finset.mem_range, Finset.mem_range] at hx
    obtain ⟨hoff, hle⟩ := offset_add_le S.objSize.2.1 hx.2 x.1
    exact ⟨x, b, halloc, hx.1, hoff ▸ hle⟩

/-- Objects of more than one megabyte leave no room for one in a block. -/
theorem no_object (hlt : 0x100000 < objSize) (hmax : objSize ≤ 0x80000000) {f : ℕ} {b : Allocator}
    (hnew : creatNewFreelist (createBlockObjAllocator objSize objNext) = .ok (f, b)) :
    objects b f = [] := by
  have hround : objSize ≤ (createBlockObjAllocator objSize objNext).objSize := le_objSize hmax
  set a := createBlockObjAllocator objSize objNext
  have hnone : defaultBlockSize / a.objSize = 0 := by
    refine Nat.div_eq_of_lt ?_
    have hmega : defaultBlockSize = 0x100000 := by decide
    omega
  rw [creatNewFreelist, if_neg (by omega)] at hnew
  simp only [hnone, List.range_zero, List.foldl_nil] at hnew
  obtain ⟨rfl, rfl⟩ := Prod.mk.inj (Except.ok.inj hnew)
  rw [objects, setFlist_self]
  rfl

/-- **A new allocator works for objects of a size that is at most one megabyte, and for no others.**
-/
theorem size_works_iff (hmax : objSize ≤ 0x80000000) (objNext : Obj → Option Obj) :
    Works objSize (createBlockObjAllocator objSize objNext) ↔ objSize ≤ 0x100000 := by
  constructor
  · intro h
    by_contra hlt
    obtain ⟨f, b, hnew, hcarved⟩ := h.carved
    exact hcarved.nonempty (no_object (not_le.mp hlt) hmax hnew)
  · exact works_of_le

/-- Objects of 100 bytes. -/
theorem size_works_iff_small : Works 100 (createBlockObjAllocator 100 fun _ => none) :=
  (size_works_iff (by decide) fun _ => none).mpr (by decide)

/-- Objects of one megabyte and a byte: the first allocation dereferences a null pointer. -/
theorem size_fails :
    (blockObjAlAlloc (createBlockObjAllocator 0x100001 fun _ => none)).toBool = false ∧
    ¬ Works 0x100001 (createBlockObjAllocator 0x100001 fun _ => none) := by
  constructor
  · decide +kernel
  · intro h
    obtain ⟨f, b, hnew, hcarved⟩ := h.carved
    exact hcarved.nonempty (no_object (by decide) (by decide) hnew)

end Kendylib.BlockObjAllocator
