import Kendylib.Alloc.BlockObjAllocator
import Kendylib.Net.Rounding
import Mathlib.Algebra.BigOperators.Group.Finset.Piecewise
import Mathlib.Algebra.Order.BigOperators.Group.Finset
import Mathlib.Data.Finset.Prod

/-!
# Runs of the block allocator

A run is a series of allocations and of deallocations of objects that are outstanding; the owners of
outstanding objects may write to them at any time. The set of the outstanding objects is recorded
beside the allocator.

The invariant (`Inv`) says which free lists can be empty and which are full, all that the code
relies on and does not say:

* the lists in `_free_list` are not empty, and all but the first are full;
* the first list in `_recover` is not full, and all others are empty;
* the lists of the central allocator are full.

So in every state the outstanding objects and the free ones are the objects of all blocks, each once
(`Exact`), and no allocation returns an object that is outstanding (`exact_of_proper`).
-/

namespace Kendylib.BlockObjAllocator

open Lists WPacket

variable {a a' : Allocator} {f g : ℕ} {x y : Obj} {l m : List Obj}

/-! ## Free lists -/

/-- The objects of the free list `f` are `l`. -/
structure Chain (a : Allocator) (f : ℕ) (l : List Obj) : Prop where
  head : (a.flist f).head = l.head?
  tail : (a.flist f).tail = l.getLast?
  linked : Linked a.objNext l

/-- **`free_list_get`** takes the first object. -/
theorem freeListGet_eq (C : Chain a f (x :: l)) : freeListGet a f = .ok (x, setFlist a f
    ⟨sub32 (a.flist f).size 1, (a.flist f).initSize, l.head?, l.getLast?⟩) := by
  have hnext : a.objNext x = l.head? := C.linked.1
  have htail : (if l.head? = none then none else (a.flist f).tail) = l.getLast? := by
    rw [C.tail]
    cases l with
    | nil => rfl
    | cons y l => rw [if_neg (by simp), List.getLast?_cons_cons]
  rw [freeListGet, C.head, List.head?_cons, Exec.deref_some, Exec.ok_bind, hnext]
  simp only [htail]
  rfl

theorem freeListPut_none (h : (a.flist f).tail = none) :
    freeListPut a f x = setFlist { a with objNext := Function.update a.objNext x none } f
      ⟨add32 (a.flist f).size 1, (a.flist f).initSize, some x, some x⟩ := by
  rw [freeListPut, h]

theorem freeListPut_some {t : Obj} (h : (a.flist f).tail = some t) :
    freeListPut a f x = setFlist { a with
        objNext := Function.update (Function.update a.objNext x none) t (some x) } f
      ⟨add32 (a.flist f).size 1, (a.flist f).initSize, (a.flist f).head, some x⟩ := by
  rw [freeListPut, h]

@[simp] theorem setFlist_self {l : FreeList} : (setFlist a f l).flist f = l := Function.update_self ..

theorem setFlist_of_ne {l : FreeList} (h : g ≠ f) : (setFlist a f l).flist g = a.flist g :=
  Function.update_of_ne h ..

/-- The fields that `free_list_put` does not touch. -/
theorem freeListPut_fields : (freeListPut a f x).lists = a.lists ∧
    (freeListPut a f x).blocks = a.blocks ∧ (freeListPut a f x).thread = a.thread ∧
    (freeListPut a f x).objSize = a.objSize ∧
    ∀ g, g ≠ f → (freeListPut a f x).flist g = a.flist g := by
  cases htail : (a.flist f).tail with
  | none =>
    rw [freeListPut_none htail]
    exact ⟨rfl, rfl, rfl, rfl, fun g hg => setFlist_of_ne hg⟩
  | some t =>
    rw [freeListPut_some htail]
    exact ⟨rfl, rfl, rfl, rfl, fun g hg => setFlist_of_ne hg⟩

/-- **`free_list_put`** appends an object that is not in the list. -/
theorem freeListPut_chain (C : Chain a f l) (hl : l.Nodup) (hx : x ∉ l) :
    Chain (freeListPut a f x) f (l ++ [x]) ∧
      ((freeListPut a f x).flist f).size = add32 (a.flist f).size 1 ∧
      ((freeListPut a f x).flist f).initSize = (a.flist f).initSize := by
  cases htail : (a.flist f).tail with
  | none =>
    obtain rfl : l = [] := List.getLast?_eq_none_iff.mp (C.tail.symm.trans htail)
    rw [freeListPut_none htail]
    refine ⟨⟨by simp, by simp, ?_⟩, by simp, by simp⟩
    exact ⟨Function.update_self .., trivial⟩
  | some t =>
    have hlast : l.getLast? = some t := C.tail.symm.trans htail
    have hmem : t ∈ l := List.mem_of_getLast? hlast
    have hxt : x ≠ t := by
      rintro rfl
      exact hx hmem
    have hhead : (l ++ [x]).head? = l.head? := by
      obtain ⟨y, m, rfl⟩ := List.exists_cons_of_ne_nil (List.ne_nil_of_mem hmem)
      rfl
    rw [freeListPut_some htail]
    refine ⟨⟨by rw [setFlist_self, hhead, C.head], by simp, ?_⟩, by simp, by simp⟩
    refine C.linked.append_singleton hl hlast ?_ (Function.update_self ..) fun y hy hyt => ?_
    · exact (Function.update_of_ne hxt ..).trans (Function.update_self ..)
    · refine (Function.update_of_ne hyt ..).trans (Function.update_of_ne ?_ ..)
      rintro rfl
      exact hx hy

/-- The other free lists are left as they are. -/
theorem freeListPut_other (C : Chain a f l) (C' : Chain a g m) (hgf : g ≠ f) (hx : x ∉ m)
    (hdisj : ∀ y ∈ l, y ∉ m) : Chain (freeListPut a f x) g m := by
  have hflist : (freeListPut a f x).flist g = a.flist g := freeListPut_fields.2.2.2.2 g hgf
  refine ⟨by rw [hflist, C'.head], by rw [hflist, C'.tail], C'.linked.congr fun y hy => ?_⟩
  have hyx : y ≠ x := by
    rintro rfl
    exact hx hy
  cases htail : (a.flist f).tail with
  | none =>
    rw [freeListPut_none htail]
    exact Function.update_of_ne hyx ..
  | some t =>
    have hyt : y ≠ t := by
      rintro rfl
      exact hdisj y (List.mem_of_getLast? (C.tail.symm.trans htail)) hy
    rw [freeListPut_some htail]
    exact (Function.update_of_ne hyt ..).trans (Function.update_of_ne hyx ..)

/-! ## The invariant -/

/-- The objects of the first `k` blocks, of `n` objects each. -/
def blockObjs (k n : ℕ) : Finset Obj := Finset.range k ×ˢ Finset.range n

/-- The free objects of some free lists, `os` being the objects of each. -/
def countIn (os : ℕ → List Obj) (fs : List ℕ) : ℕ := (fs.map fun f => (os f).length).sum

/-- The three lists of free lists. -/
def places (fr rc ce : List ℕ) : Place → List ℕ
  | .free => fr
  | .recover => rc
  | .central => ce

/-- The three lists have every free list once. -/
structure Placed (a : Allocator) (fr rc ce : List ℕ) : Prop where
  rep : a.lists.Represents (places fr rc ce)
  mem : ∀ f, f < a.blocks ↔ f ∈ fr ∨ f ∈ rc ∨ f ∈ ce
  fresh : ∀ f, a.blocks ≤ f → a.lists.next f = none

/-- The free lists have the objects `os`, however many each, and with those that are outstanding these
are the objects of all blocks, of which each has `n`. -/
structure Stock (a : Allocator) (n : ℕ) (out : Finset Obj) (os : ℕ → List Obj) : Prop where
  pos : 0 < n
  small : n ≤ 0x100000
  objSize : a.objSize ≠ 0 ∧ defaultBlockSize / a.objSize = n ∧
    defaultBlockSize * 2 / a.objSize = 2 * n
  chain : ∀ f < a.blocks, Chain a f (os f) ∧ (a.flist f).size = (os f).length ∧
    (a.flist f).initSize = n
  split : out.val + ∑ f ∈ Finset.range a.blocks, (os f : Multiset Obj) = (blockObjs a.blocks n).val

/-- The free lists have the objects `os`, and with those that are outstanding these are the objects
of all blocks, of which each has `n`. -/
structure Stocked (a : Allocator) (n : ℕ) (out : Finset Obj) (os : ℕ → List Obj) : Prop where
  pos : 0 < n
  small : n ≤ 0x100000
  objSize : a.objSize ≠ 0 ∧ defaultBlockSize / a.objSize = n ∧
    defaultBlockSize * 2 / a.objSize = 2 * n
  chain : ∀ f < a.blocks, Chain a f (os f) ∧ (a.flist f).size = (os f).length ∧
    (a.flist f).initSize = n
  split : out.val + ∑ f ∈ Finset.range a.blocks, (os f : Multiset Obj) = (blockObjs a.blocks n).val
  le : ∀ f < a.blocks, (os f).length ≤ n

/-- A thread counts `size` free objects. Its lists in `_free_list` are not empty; of those in `_recover`
the first has less than a block of objects, and the others have none. -/
structure Counted (n size : ℕ) (fr rc : List ℕ) (os : ℕ → List Obj) : Prop where
  count : size = countIn os fr + countIn os rc
  free_pos : ∀ f ∈ fr, os f ≠ []
  recover_lt : ∀ f, rc.head? = some f → (os f).length < n
  recover_nil : ∀ f ∈ rc.tail, os f = []

/-- How full the free lists are; `size` is the number of free objects that the thread counts. -/
structure Levels (n size : ℕ) (fr rc ce : List ℕ) (os : ℕ → List Obj) : Prop where
  count : size = countIn os fr + countIn os rc
  bound : countIn os fr ≤ 2 * n
  free_pos : ∀ f ∈ fr, os f ≠ []
  free_full : ∀ f ∈ fr.tail, (os f).length = n
  recover_lt : ∀ f, rc.head? = some f → (os f).length < n
  recover_nil : ∀ f ∈ rc.tail, os f = []
  central_full : ∀ f ∈ ce, (os f).length = n

section Split

variable {out out' all : Finset Obj} {k : ℕ} {os : ℕ → List Obj}

/-- No object is in two places. -/
theorem split_count (h : out.val + ∑ f ∈ Finset.range k, (os f : Multiset Obj) = all.val) (x : Obj) :
    out.val.count x + ∑ f ∈ Finset.range k, (os f : Multiset Obj).count x ≤ 1 := by
  have hcount := congrArg (Multiset.count x) h
  rw [Multiset.count_add, Multiset.count_sum'] at hcount
  rw [hcount]
  exact Multiset.nodup_iff_count_le_one.mp all.nodup x

theorem split_count_le (h : out.val + ∑ f ∈ Finset.range k, (os f : Multiset Obj) = all.val)
    (hf : f < k) (x : Obj) : out.val.count x + (os f : Multiset Obj).count x ≤ 1 := by
  have hle : (os f : Multiset Obj).count x ≤ ∑ f ∈ Finset.range k, (os f : Multiset Obj).count x :=
    Finset.single_le_sum (f := fun f => (os f : Multiset Obj).count x) (fun _ _ => Nat.zero_le _)
      (Finset.mem_range.mpr hf)
  have := split_count h x
  omega

theorem split_nodup (h : out.val + ∑ f ∈ Finset.range k, (os f : Multiset Obj) = all.val)
    (hf : f < k) : (os f).Nodup := by
  refine Multiset.coe_nodup.mp (Multiset.nodup_iff_count_le_one.mpr fun x => ?_)
  have := split_count_le h hf x
  omega

theorem split_out (h : out.val + ∑ f ∈ Finset.range k, (os f : Multiset Obj) = all.val) (hf : f < k)
    (hx : x ∈ out) : x ∉ os f := by
  intro hmem
  have h₁ := Multiset.count_pos.mpr (Multiset.mem_coe.mpr hmem)
  have h₂ := Multiset.count_pos.mpr (Finset.mem_val.mpr hx)
  have := split_count_le h hf x
  omega

theorem split_disjoint (h : out.val + ∑ f ∈ Finset.range k, (os f : Multiset Obj) = all.val)
    (hf : f < k) (hg : g < k) (hfg : f ≠ g) (hx : x ∈ os f) : x ∉ os g := by
  intro hmem
  have hle : ∑ i ∈ ({f, g} : Finset ℕ), (os i : Multiset Obj).count x ≤
      ∑ i ∈ Finset.range k, (os i : Multiset Obj).count x := by
    refine Finset.sum_le_sum_of_subset fun i hi => ?_
    rcases Finset.mem_insert.mp hi with rfl | hi
    · exact Finset.mem_range.mpr hf
    · exact Finset.mem_range.mpr (Finset.mem_singleton.mp hi ▸ hg)
  rw [Finset.sum_pair hfg] at hle
  have h₁ := Multiset.count_pos.mpr (Multiset.mem_coe.mpr hx)
  have h₂ := Multiset.count_pos.mpr (Multiset.mem_coe.mpr hmem)
  have := split_count h x
  omega

theorem split_mem (h : out.val + ∑ f ∈ Finset.range k, (os f : Multiset Obj) = all.val) (hf : f < k)
    (hx : x ∈ os f) : x ∈ all := by
  rw [← Finset.mem_val, ← h, Multiset.mem_add, Multiset.mem_sum]
  exact .inr ⟨f, Finset.mem_range.mpr hf, hx⟩

/-- Objects move between one free list and the callers. -/
theorem split_update (h : out.val + ∑ f ∈ Finset.range k, (os f : Multiset Obj) = all.val)
    (hf : f < k) (hmove : out'.val + (l : Multiset Obj) = out.val + (os f : Multiset Obj)) :
    out'.val + ∑ g ∈ Finset.range k, (Function.update os f l g : Multiset Obj) = all.val := by
  have hsum : ∑ g ∈ Finset.range k, (Function.update os f l g : Multiset Obj) + (os f : Multiset Obj) =
      ∑ g ∈ Finset.range k, (os g : Multiset Obj) + (l : Multiset Obj) := by
    have hcomm : ∀ g, (Function.update os f l g : Multiset Obj) =
        Function.update (fun g => (os g : Multiset Obj)) f (l : Multiset Obj) g := by
      intro g
      by_cases hg : g = f
      · subst hg
        simp
      · simp [hg]
    simp only [hcomm]
    have hmem := Finset.mem_range.mpr hf
    rw [Finset.sum_update_of_mem hmem, Finset.sum_eq_add_sum_sdiff_singleton f _ (fun h => absurd hmem h)]
    abel
  refine add_right_cancel (b := (os f : Multiset Obj)) ?_
  rw [add_assoc, hsum, ← h, add_comm (∑ g ∈ Finset.range k, (os g : Multiset Obj)), ← add_assoc, hmove]
  abel

/-- If all free lists are full, no object is outstanding. -/
theorem split_full {n : ℕ}
    (h : out.val + ∑ f ∈ Finset.range k, (os f : Multiset Obj) = (blockObjs k n).val)
    (hfull : ∀ f < k, (os f).length = n) : out = ∅ := by
  have hcard := congrArg Multiset.card h
  rw [Multiset.card_add, Multiset.card_sum] at hcard
  have hsum : ∑ f ∈ Finset.range k, Multiset.card (os f : Multiset Obj) = k * n := by
    rw [Finset.sum_congr rfl fun f hf => by
      rw [Multiset.coe_card, hfull f (Finset.mem_range.mp hf)], Finset.sum_const, Finset.card_range,
      nsmul_eq_mul, Nat.cast_id]
  have hall : Multiset.card (blockObjs k n).val = k * n := by
    rw [Finset.card_val, blockObjs, Finset.card_product, Finset.card_range, Finset.card_range]
  rw [hsum, hall] at hcard
  exact Finset.card_eq_zero.mp (by rw [← Finset.card_val]; omega)

end Split

/-! ## Moving free lists -/

section Move

variable {fr rc ce fs : List ℕ} {p q : Place} {n size : ℕ} {out : Finset Obj} {os : ℕ → List Obj}

theorem exists_places {g : ℕ} : (∃ p, g ∈ places fr rc ce p) ↔ g ∈ fr ∨ g ∈ rc ∨ g ∈ ce := by
  constructor
  · rintro ⟨p | p | p, h⟩
    · exact .inl h
    · exact .inr (.inl h)
    · exact .inr (.inr h)
  · rintro (h | h | h)
    · exact ⟨.free, h⟩
    · exact ⟨.recover, h⟩
    · exact ⟨.central, h⟩

/-- A node that moves from one list to another stays in one of the lists. -/
theorem exists_move {κ : Type} [DecidableEq κ] {xs : κ → List ℕ} {p q : κ} {g : ℕ}
    (hp : xs p = f :: fs) (hpq : q ≠ p) :
    (∃ r, g ∈ Function.update (Function.update xs p fs) q (xs q ++ [f]) r) ↔ ∃ r, g ∈ xs r := by
  constructor
  · rintro ⟨r, hr⟩
    by_cases hrq : r = q
    · subst hrq
      rw [Function.update_self, List.mem_append, List.mem_singleton] at hr
      rcases hr with hr | rfl
      · exact ⟨r, hr⟩
      · exact ⟨p, by rw [hp]; exact List.mem_cons_self⟩
    · rw [Function.update_of_ne hrq] at hr
      by_cases hrp : r = p
      · subst hrp
        rw [Function.update_self] at hr
        exact ⟨r, by rw [hp]; exact List.mem_cons_of_mem _ hr⟩
      · rw [Function.update_of_ne hrp] at hr
        exact ⟨r, hr⟩
  · rintro ⟨r, hr⟩
    by_cases hrp : r = p
    · subst hrp
      rw [hp] at hr
      rcases List.mem_cons.mp hr with rfl | hr
      · exact ⟨q, by rw [Function.update_self]; simp⟩
      · exact ⟨r, by rwa [Function.update_of_ne (Ne.symm hpq), Function.update_self]⟩
    · by_cases hrq : r = q
      · subst hrq
        exact ⟨r, by rw [Function.update_self]; exact List.mem_append_left _ hr⟩
      · exact ⟨r, by rwa [Function.update_of_ne hrq, Function.update_of_ne hrp]⟩

theorem Placed.nodup (P : Placed a fr rc ce) : (fr ++ (rc ++ ce)).Nodup := by
  have hd := P.rep.disjoint
  refine List.nodup_append'.mpr ⟨P.rep.nodup .free, List.nodup_append'.mpr
    ⟨P.rep.nodup .recover, P.rep.nodup .central, hd .recover .central (by decide)⟩, ?_⟩
  intro f hf hf'
  rcases List.mem_append.mp hf' with h | h
  · exact hd .free .recover (by decide) hf h
  · exact hd .free .central (by decide) hf h

theorem pop_spec {xs : Place → List ℕ} (r : a.lists.Represents xs) (hp : xs p = f :: fs) :
    ∃ lists, pop a p = .ok (some f, { a with lists := lists }) ∧
      lists.Represents (Function.update xs p fs) ∧ lists.next f = none ∧
      ∀ g, g ≠ f → lists.next g = a.lists.next g := by
  obtain ⟨lists, hpop, r', hnext, hother⟩ := r.pop hp
  exact ⟨lists, by rw [pop, hpop]; rfl, r', hnext, hother⟩

theorem pushBack_spec {xs : Place → List ℕ} (r : a.lists.Represents xs) (hf : ∀ p, f ∉ xs p)
    (hnext : a.lists.next f = none) :
    ∃ lists, pushBack a p f = .ok { a with lists := lists } ∧
      lists.Represents (Function.update xs p (xs p ++ [f])) ∧
      ∀ g, (∀ p, g ∉ xs p) → lists.next g = a.lists.next g := by
  obtain ⟨lists, hpush, r', hother⟩ := r.pushBack p hf hnext
  exact ⟨lists, by rw [pushBack, hpush]; rfl, r', hother⟩

/-- **A free list goes from the front of one list to the end of another.** -/
theorem move_spec (p q : Place) (fr' rc' ce' : List ℕ) (P : Placed a fr rc ce)
    (hp : places fr rc ce p = f :: fs) (hpq : q ≠ p)
    (hxs : Function.update (Function.update (places fr rc ce) p fs) q
      (places fr rc ce q ++ [f]) = places fr' rc' ce') :
    ∃ lists₁ lists, pop a p = .ok (some f, { a with lists := lists₁ }) ∧
      (∀ b : Allocator, b.lists = lists₁ → pushBack b q f = .ok { b with lists := lists }) ∧
      ∀ b : Allocator, b.lists = lists → b.blocks = a.blocks → Placed b fr' rc' ce' := by
  obtain ⟨lists₁, hpop, r₁, hnext₁, hother₁⟩ := pop_spec P.rep hp
  have hout : ∀ q, f ∉ Function.update (places fr rc ce) p fs q := by
    intro q hq
    by_cases hqp : q = p
    · subst hqp
      rw [Function.update_self] at hq
      have := P.rep.nodup q
      rw [hp, List.nodup_cons] at this
      exact this.1 hq
    · rw [Function.update_of_ne hqp] at hq
      exact P.rep.disjoint q p hqp hq (by rw [hp]; exact List.mem_cons_self)
  obtain ⟨lists, hpush, r, hother⟩ :=
    pushBack_spec (a := { a with lists := lists₁ }) (p := q) r₁ hout hnext₁
  rw [Function.update_of_ne hpq, hxs] at r
  refine ⟨lists₁, lists, hpop, ?_, ?_⟩
  · rintro b rfl
    rw [pushBack] at hpush ⊢
    obtain ⟨m, hm, hsame⟩ := Exec.bind_eq_ok.mp hpush
    obtain rfl : m = lists := congrArg Allocator.lists (Except.ok.inj hsame)
    rw [show b.lists.linkListPushBack q f = .ok m from hm]
    rfl
  · rintro b rfl hb
    refine ⟨r, fun g => ?_, fun g hg => ?_⟩
    · rw [hb, P.mem, ← exists_places, ← exists_places, ← hxs, exists_move hp hpq]
    rw [hb] at hg
    have hg' : ∀ p, g ∉ places fr rc ce p := fun p hgp =>
      Nat.not_lt.mpr hg ((P.mem g).mpr (exists_places.mp ⟨p, hgp⟩))
    have hgf : g ≠ f := by
      rintro rfl
      exact hg' p (by rw [hp]; exact List.mem_cons_self)
    rw [hother g fun q hq => ?_]
    · exact (hother₁ g hgf).trans (P.fresh g hg)
    · by_cases hqp : q = p
      · subst hqp
        rw [Function.update_self] at hq
        exact hg' q (by rw [hp]; exact List.mem_cons_of_mem _ hq)
      · rw [Function.update_of_ne hqp] at hq
        exact hg' q hq

end Move

/-! ## Moving objects -/

section Objects

variable {n size : ℕ} {out : Finset Obj} {os : ℕ → List Obj}

/-- **An object is handed out.** -/
theorem Stock.get (S : Stock a n out os) (hf : f < a.blocks) (hos : os f = x :: l)
    (hlt : l.length + 1 < 0x100000000) :
    ∃ b, freeListGet a f = .ok (x, b) ∧ x ∉ out ∧
      Stock b n (insert x out) (Function.update os f l) ∧ b.lists = a.lists ∧
      b.blocks = a.blocks ∧ (b.flist f).size = l.length := by
  obtain ⟨C, hsize, hinit⟩ := S.chain f hf
  rw [hos] at C hsize
  rw [List.length_cons] at hsize
  have hnodup := split_nodup S.split hf
  rw [hos, List.nodup_cons] at hnodup
  have hx : x ∉ out := fun h => split_out S.split hf h (by rw [hos]; exact List.mem_cons_self)
  have hdec : sub32 (a.flist f).size 1 = l.length := by
    rw [hsize, sub32_of_le (by omega) hlt, Nat.add_sub_cancel]
  refine ⟨_, freeListGet_eq C, hx, ⟨S.pos, S.small, S.objSize, fun g hg => ?_, ?_⟩,
    rfl, rfl, by rw [setFlist_self, hdec]⟩
  · by_cases hgf : g = f
    · subst hgf
      rw [Function.update_self, setFlist_self]
      exact ⟨⟨by rw [setFlist_self], by rw [setFlist_self], C.linked.2⟩, hdec, hinit⟩
    · obtain ⟨Cg, hg'⟩ := S.chain g hg
      rw [Function.update_of_ne hgf, setFlist_of_ne hgf]
      exact ⟨⟨by rw [setFlist_of_ne hgf, Cg.head], by rw [setFlist_of_ne hgf, Cg.tail], Cg.linked⟩, hg'⟩
  · refine split_update S.split hf ?_
    rw [Finset.insert_val_of_notMem hx, hos, ← Multiset.cons_coe, Multiset.cons_add, Multiset.add_cons]

/-- **An object is taken back.** -/
theorem Stock.put (S : Stock a n out os) (hf : f < a.blocks) (hx : x ∈ out)
    (hlt : (os f).length + 1 < 0x100000000) :
    Stock (freeListPut a f x) n (out.erase x) (Function.update os f (os f ++ [x])) := by
  obtain ⟨C, hsize, hinit⟩ := S.chain f hf
  have hnodup := split_nodup S.split hf
  have hxf := split_out S.split hf hx
  obtain ⟨hlists, hblocks, -, hobj, hother⟩ := freeListPut_fields (a := a) (f := f) (x := x)
  obtain ⟨C', hsize', hinit'⟩ := freeListPut_chain C hnodup hxf
  refine ⟨S.pos, S.small, by rw [hobj]; exact S.objSize, fun g hg => ?_, ?_⟩
  · rw [hblocks] at hg
    by_cases hgf : g = f
    · subst hgf
      rw [Function.update_self]
      refine ⟨C', ?_, hinit'.trans hinit⟩
      rw [hsize', hsize, add32_of_lt hlt, List.length_append]
      rfl
    · obtain ⟨Cg, hg'⟩ := S.chain g hg
      rw [Function.update_of_ne hgf, hother g hgf]
      exact ⟨freeListPut_other C Cg hgf (split_out S.split hg hx)
        fun y hy => split_disjoint S.split hf hg (Ne.symm hgf) hy, hg'⟩
  · rw [hblocks]
    refine split_update S.split hf ?_
    rw [Finset.erase_val, ← Multiset.coe_add, ← Multiset.cons_erase (Finset.mem_val.mpr hx)]
    simp only [Multiset.erase_cons_head]
    rw [← Multiset.singleton_add, Multiset.coe_singleton]
    abel

/-- The objects of a new block. -/
def newObjs (f n : ℕ) : List Obj := (List.range n).map (Prod.mk f)

theorem mem_newObjs {k : ℕ} : x ∈ newObjs f k ↔ x.1 = f ∧ x.2 < k := by
  rw [newObjs, List.mem_map]
  constructor
  · rintro ⟨i, hi, rfl⟩
    exact ⟨rfl, List.mem_range.mp hi⟩
  · rintro ⟨rfl, hx⟩
    exact ⟨x.2, List.mem_range.mpr hx, rfl⟩

theorem nodup_newObjs {k : ℕ} : (newObjs f k).Nodup :=
  List.nodup_range.map fun _ _ h => (Prod.mk.inj h).2

theorem blockObjs_succ (k n : ℕ) :
    (blockObjs (k + 1) n).val = (blockObjs k n).val + (newObjs k n : Multiset Obj) := by
  refine Multiset.Nodup.ext (Finset.nodup _) ?_ |>.mpr fun x => ?_
  · refine Multiset.nodup_add.mpr ⟨Finset.nodup _, Multiset.coe_nodup.mpr nodup_newObjs, ?_⟩
    refine Multiset.disjoint_left.mpr fun {x} hx hx' => ?_
    have h₁ := Finset.mem_product.mp (Finset.mem_val.mp hx)
    have h₂ := mem_newObjs.mp (Multiset.mem_coe.mp hx')
    have := Finset.mem_range.mp h₁.1
    omega
  · rw [Multiset.mem_add, Finset.mem_val, Finset.mem_val, Multiset.mem_coe, mem_newObjs, blockObjs,
      blockObjs, Finset.mem_product, Finset.mem_product, Finset.mem_range, Finset.mem_range,
      Finset.mem_range]
    omega

/-- The loop that puts the objects of a new block into its free list. -/
theorem putAll_spec {k : ℕ} (C : Chain a f []) :
    ∃ b, (List.range k).foldl (fun a i => freeListPut a f (f, i)) a = b ∧ Chain b f (newObjs f k) ∧
      (b.flist f).initSize = (a.flist f).initSize ∧ b.lists = a.lists ∧ b.blocks = a.blocks ∧
      b.thread = a.thread ∧ b.objSize = a.objSize ∧
      ∀ g, g ≠ f → b.flist g = a.flist g ∧ ∀ m, Chain a g m → (∀ y ∈ m, y.1 ≠ f) → Chain b g m := by
  induction k with
  | zero => exact ⟨a, rfl, C, rfl, rfl, rfl, rfl, rfl, fun g _ => ⟨rfl, fun m h _ => h⟩⟩
  | succ k ih =>
    obtain ⟨b, hb, Cb, hinit, hlists, hblocks, hthread, hobj, hother⟩ := ih
    have hk : (f, k) ∉ newObjs f k := fun h => (mem_newObjs.mp h).2.false
    obtain ⟨C', -, hinit'⟩ := freeListPut_chain Cb nodup_newObjs hk
    obtain ⟨hlists', hblocks', hthread', hobj', hother'⟩ :=
      freeListPut_fields (a := b) (f := f) (x := (f, k))
    have hlist : newObjs f (k + 1) = newObjs f k ++ [(f, k)] := by
      rw [newObjs, List.range_succ, List.map_append]
      rfl
    refine ⟨freeListPut b f (f, k), ?_, hlist ▸ C', hinit'.trans hinit, hlists'.trans hlists,
      hblocks'.trans hblocks, hthread'.trans hthread, hobj'.trans hobj,
      fun g hg => ⟨?_, fun m hm hne => ?_⟩⟩
    · rw [List.range_succ, List.foldl_append, hb]
      rfl
    · exact (hother' g hg).trans (hother g hg).1
    · refine freeListPut_other Cb ((hother g hg).2 m hm hne) hg (fun h => hne _ h rfl) fun y hy hym => ?_
      exact hne y hym (mem_newObjs.mp hy).1

/-- **A new block** is all free. -/
theorem Stock.creatNewFreelist (S : Stock a n out os) :
    ∃ b, BlockObjAllocator.creatNewFreelist a = .ok (a.blocks, b) ∧
      Stock b n out (Function.update os a.blocks (newObjs a.blocks n)) ∧ b.lists = a.lists ∧
      b.blocks = a.blocks + 1 ∧ (b.flist a.blocks).size = n := by
  obtain ⟨hsize, hn, -⟩ := S.objSize
  set a₁ := setFlist { a with blocks := a.blocks + 1 } a.blocks ⟨n, n, none, none⟩ with ha₁
  have C₁ : Chain a₁ a.blocks [] := by
    refine ⟨?_, ?_, trivial⟩ <;> rw [ha₁, setFlist_self] <;> rfl
  obtain ⟨b, hb, Cb, hinit, hlists, hblocks, hthread, hobj, hother⟩ := putAll_spec (k := n) C₁
  have hnew : BlockObjAllocator.creatNewFreelist a =
      .ok (a.blocks, setFlist b a.blocks { b.flist a.blocks with size := n }) := by
    rw [BlockObjAllocator.creatNewFreelist, if_neg hsize]
    simp only [hn, ← ha₁, hb]
  have hinit₁ : (b.flist a.blocks).initSize = n := by
    rw [hinit, ha₁, setFlist_self]
  refine ⟨_, hnew, ⟨S.pos, S.small, ?_, fun g hg => ?_, ?_⟩, hlists, hblocks,
    by rw [setFlist_self]⟩
  · have hobj' : (setFlist b a.blocks { b.flist a.blocks with size := n }).objSize = a.objSize := hobj
    rw [hobj']
    exact S.objSize
  · by_cases hgf : g = a.blocks
    · subst hgf
      rw [Function.update_self, setFlist_self]
      refine ⟨⟨?_, ?_, Cb.linked⟩, ?_, hinit₁⟩
      · rw [setFlist_self, Cb.head]
      · rw [setFlist_self, Cb.tail]
      · rw [newObjs, List.length_map, List.length_range]
    · have hlt : g < a.blocks := by
        have : g < b.blocks := hg
        rw [hblocks] at this
        exact Nat.lt_of_le_of_ne (Nat.lt_succ_iff.mp this) hgf
      obtain ⟨Cg, hg'⟩ := S.chain g hlt
      have hflist : a₁.flist g = a.flist g := setFlist_of_ne hgf
      have Cg₁ : Chain a₁ g (os g) := ⟨by rw [hflist, Cg.head], by rw [hflist, Cg.tail], Cg.linked⟩
      have hold : ∀ y ∈ os g, y.1 ≠ a.blocks := by
        intro y hy
        have := split_mem S.split hlt hy
        rw [blockObjs, Finset.mem_product, Finset.mem_range] at this
        exact this.1.ne
      have Cb' := (hother g hgf).2 _ Cg₁ hold
      rw [Function.update_of_ne hgf, setFlist_of_ne hgf, (hother g hgf).1, hflist]
      refine ⟨⟨?_, ?_, Cb'.linked⟩, hg'⟩
      · rw [setFlist_of_ne hgf, Cb'.head]
      · rw [setFlist_of_ne hgf, Cb'.tail]
  · change out.val + ∑ f ∈ Finset.range b.blocks, _ = _
    have hblocks₁ : b.blocks = a.blocks + 1 := hblocks
    change _ = (blockObjs b.blocks n).val
    rw [hblocks₁, Finset.sum_range_succ, Function.update_self, blockObjs_succ, ← S.split, ← add_assoc]
    congr 2
    refine Finset.sum_congr rfl fun g hg => ?_
    rw [Function.update_of_ne (Finset.mem_range.mp hg).ne]

/-! ## Free lists of at most one block -/

theorem Stocked.stock (S : Stocked a n out os) : Stock a n out os :=
  ⟨S.pos, S.small, S.objSize, S.chain, S.split⟩

theorem Stock.stocked (S : Stock a n out os) (hle : ∀ f < a.blocks, (os f).length ≤ n) :
    Stocked a n out os :=
  ⟨S.pos, S.small, S.objSize, S.chain, S.split, hle⟩

/-- The length of one free list changes. -/
theorem length_update_le {k : ℕ} (hle : ∀ g < k, g ≠ f → (os g).length ≤ n) (hl : l.length ≤ n) :
    ∀ g < k, (Function.update os f l g).length ≤ n := by
  intro g hg
  by_cases hgf : g = f
  · rwa [hgf, Function.update_self]
  · rw [Function.update_of_ne hgf]
    exact hle g hg hgf

theorem get_stocked (S : Stocked a n out os) (hf : f < a.blocks) (hos : os f = x :: l) :
    ∃ b, freeListGet a f = .ok (x, b) ∧ x ∉ out ∧
      Stocked b n (insert x out) (Function.update os f l) ∧ b.lists = a.lists ∧
      b.blocks = a.blocks ∧ (b.flist f).size = l.length := by
  have hle := S.le f hf
  have hsmall := S.small
  rw [hos, List.length_cons] at hle
  obtain ⟨b, hget, hx, Sb, hlists, hblocks, hsize⟩ := S.stock.get hf hos (by omega)
  refine ⟨b, hget, hx, Sb.stocked ?_, hlists, hblocks, hsize⟩
  rw [hblocks]
  exact length_update_le (fun g hg _ => S.le g hg) (by omega)

theorem put_stocked (S : Stocked a n out os) (hf : f < a.blocks) (hx : x ∈ out)
    (hlt : (os f).length < n) :
    Stocked (freeListPut a f x) n (out.erase x) (Function.update os f (os f ++ [x])) := by
  have hsmall := S.small
  refine (S.stock.put hf hx (by omega)).stocked ?_
  rw [freeListPut_fields.2.1]
  refine length_update_le (fun g hg _ => S.le g hg) ?_
  rw [List.length_append, List.length_singleton]
  omega

theorem creatNewFreelist_spec (S : Stocked a n out os) :
    ∃ b, creatNewFreelist a = .ok (a.blocks, b) ∧
      Stocked b n out (Function.update os a.blocks (newObjs a.blocks n)) ∧ b.lists = a.lists ∧
      b.blocks = a.blocks + 1 ∧ (b.flist a.blocks).size = n := by
  obtain ⟨b, hnew, Sb, hlists, hblocks, hsize⟩ := S.stock.creatNewFreelist
  refine ⟨b, hnew, Sb.stocked ?_, hlists, hblocks, hsize⟩
  rw [hblocks]
  refine length_update_le (fun g hg hne => S.le g ?_) ?_
  · omega
  · rw [newObjs, List.length_map, List.length_range]

end Objects

/-! ## Allocating -/

section Alloc

variable {n size : ℕ} {out : Finset Obj} {os : ℕ → List Obj} {fr rc ce fs : List ℕ}
  {t : ThreadAllocator}

@[simp] theorem countIn_nil : countIn os [] = 0 := rfl

@[simp] theorem countIn_cons : countIn os (f :: fs) = (os f).length + countIn os fs := rfl

@[simp] theorem countIn_append {gs : List ℕ} : countIn os (fs ++ gs) = countIn os fs + countIn os gs := by
  simp [countIn]

/-- A change of one free list leaves those of a list that it is not in. -/
theorem update_keep (hf : f ∉ fs) (hg : g ∈ fs) : Function.update os f l g = os g := by
  refine Function.update_of_ne ?_ ..
  rintro rfl
  exact hf hg

theorem countIn_update (hf : f ∉ fs) : countIn (Function.update os f l) fs = countIn os fs := by
  rw [countIn, countIn]
  congr 1
  refine List.map_congr_left fun g hg => ?_
  rw [update_keep hf hg]

theorem countIn_eq_zero (h : ∀ f ∈ fs, os f = []) : countIn os fs = 0 := by
  induction fs with
  | nil => rfl
  | cons f fs ih =>
    rw [countIn_cons, h f List.mem_cons_self, ih fun g hg => h g (List.mem_cons_of_mem _ hg)]
    rfl

theorem Levels.counted (L : Levels n size fr rc ce os) : Counted n size fr rc os :=
  ⟨L.count, L.free_pos, L.recover_lt, L.recover_nil⟩

theorem Counted.levels (C : Counted n size fr rc os) (hbound : countIn os fr ≤ 2 * n)
    (hfull : ∀ f ∈ fr.tail, (os f).length = n) (hcentral : ∀ f ∈ ce, (os f).length = n) :
    Levels n size fr rc ce os :=
  ⟨C.count, hbound, C.free_pos, hfull, C.recover_lt, C.recover_nil, hcentral⟩

theorem Counted.congr {os' : ℕ → List Obj} (C : Counted n size fr rc os)
    (hfr : ∀ f ∈ fr, os' f = os f) (hrc : ∀ f ∈ rc, os' f = os f) : Counted n size fr rc os' := by
  have hcount : ∀ {fs : List ℕ}, (∀ f ∈ fs, os' f = os f) → countIn os' fs = countIn os fs := by
    intro fs h
    rw [countIn, countIn]
    congr 1
    exact List.map_congr_left fun f hf => by rw [h f hf]
  refine ⟨?_, fun f hf => ?_, fun f hf => ?_, fun f hf => ?_⟩
  · rw [hcount hfr, hcount hrc]
    exact C.count
  · rw [hfr f hf]
    exact C.free_pos f hf
  · rw [hrc f (List.mem_of_mem_head? hf)]
    exact C.recover_lt f hf
  · rw [hrc f (List.mem_of_mem_tail hf)]
    exact C.recover_nil f hf

/-- If the thread has no free object, it has no list with free objects. -/
theorem Counted.free_eq_nil (C : Counted n 0 fr rc os) : fr = [] ∧ ∀ f ∈ rc, os f = [] := by
  have hcount := C.count
  constructor
  · cases fr with
    | nil => rfl
    | cons f fr =>
      have := List.length_pos_iff.mpr (C.free_pos f List.mem_cons_self)
      rw [countIn_cons] at hcount
      omega
  · cases rc with
    | nil => simp
    | cons f rc =>
      rw [countIn_cons] at hcount
      intro g hg
      rcases List.mem_cons.mp hg with rfl | hg
      · exact List.eq_nil_of_length_eq_zero (by omega)
      · exact C.recover_nil g hg

/-- A full free list comes to a thread without free objects. -/
theorem Counted.refill (C : Counted n 0 [] rc os) (hn : 0 < n) (hf : (os f).length = n) :
    Counted n n [f] rc os := by
  have hrc := C.free_eq_nil.2
  refine ⟨?_, ?_, C.recover_lt, C.recover_nil⟩
  · rw [countIn_cons, countIn_nil, hf, countIn_eq_zero hrc]
    rfl
  · intro g hg hnil
    obtain rfl := List.mem_singleton.mp hg
    rw [hnil, List.length_nil] at hf
    omega

/-- A full free list comes from the central allocator to a thread without free objects. -/
theorem Levels.refill (L : Levels n 0 [] rc ce os) (hn : 0 < n) (hf : (os f).length = n)
    (hce : ∀ g ∈ fs, g ∈ ce) : Levels n n [f] rc fs os := by
  refine (L.counted.refill hn hf).levels ?_ (by simp) fun g hg => L.central_full g (hce g hg)
  rw [countIn_cons, countIn_nil, hf]
  omega

/-- The first list of `_recover` has all objects that a thread without other lists counts. -/
theorem Counted.first (C : Counted n size [] (f :: rc) os) :
    size = (os f).length ∧ countIn os rc = 0 := by
  have hcount := C.count
  have hrest : countIn os rc = 0 := countIn_eq_zero C.recover_nil
  rw [countIn_nil, countIn_cons, hrest, Nat.zero_add, Nat.add_zero] at hcount
  exact ⟨hcount, hrest⟩

/-- A thread without other lists with free objects goes on with the first list of `_recover`. -/
theorem Counted.reuse (C : Counted n size [] (f :: rc) os) (hsize : size ≠ 0) (hn : 0 < n) :
    Counted n size [f] rc os := by
  obtain ⟨hcount, hrest⟩ := C.first
  refine ⟨?_, fun g hg => ?_, fun g hg => ?_, fun g hg => ?_⟩
  · rw [countIn_cons, countIn_nil, hrest, hcount]
    rfl
  · obtain rfl := List.mem_singleton.mp hg
    refine List.ne_nil_of_length_pos ?_
    omega
  · rw [C.recover_nil g (List.mem_of_mem_head? hg)]
    exact hn
  · exact C.recover_nil g (List.mem_of_mem_tail hg)

theorem Stock.congr {b : Allocator} (S : Stock a n out os) (hobj : b.objSize = a.objSize)
    (hflist : b.flist = a.flist) (hnext : b.objNext = a.objNext) (hblocks : b.blocks = a.blocks) :
    Stock b n out os := by
  refine ⟨S.pos, S.small, hobj ▸ S.objSize, fun f hf => ?_, by rw [hblocks]; exact S.split⟩
  obtain ⟨C, h⟩ := S.chain f (hblocks ▸ hf)
  rw [hflist]
  exact ⟨⟨by rw [hflist, C.head], by rw [hflist, C.tail], by rw [hnext]; exact C.linked⟩, h⟩

theorem Stocked.congr {b : Allocator} (S : Stocked a n out os) (hobj : b.objSize = a.objSize)
    (hflist : b.flist = a.flist) (hnext : b.objNext = a.objNext) (hblocks : b.blocks = a.blocks) :
    Stocked b n out os :=
  (S.stock.congr hobj hflist hnext hblocks).stocked (by rw [hblocks]; exact S.le)

/-- What a list is picked for: it is the first one of the thread's. -/
structure Picked (a : Allocator) (n : ℕ) (t : ThreadAllocator) (out : Finset Obj) (f : ℕ) : Prop where
  state : ∃ fr rc ce os, Placed a (f :: fr) rc ce ∧ Stocked a n out os ∧
    Levels n t.freeSize (f :: fr) rc ce os
  factor : t.collectFactor = 2 * n

/-- **Picking a list** with a free object. -/
theorem pickList_spec (P : Placed a fr rc ce) (S : Stocked a n out os)
    (L : Levels n t.freeSize fr rc ce os) (ht : t.collectFactor = 2 * n) :
    ∃ f b u, pickList a t = .ok (f, b, u) ∧ Picked b n u out f := by
  have hn := S.pos
  have hsmall := S.small
  by_cases hzero : t.freeSize = 0
  · rw [hzero] at L
    obtain ⟨rfl, hrc⟩ := L.counted.free_eq_nil
    have hsize : add32 t.freeSize n = n := by
      rw [hzero, add32_of_lt (by omega), Nat.zero_add]
    cases ce with
    | cons f ce =>
      -- a list of the central allocator
      obtain ⟨lists₁, lists, hpop, hpush, hplaced⟩ :=
        move_spec .central .free [f] rc ce P rfl (by decide) (by funext q; cases q <;> rfl)
      have hf : f < a.blocks := (P.mem f).mpr (by simp)
      have hfull := L.central_full f List.mem_cons_self
      have hget : centralGetFreelist a = .ok (f, { a with lists := lists₁ }) := by
        rw [centralGetFreelist, hpop]
        rfl
      have hflist : (a.flist f).size = n := (S.chain f hf).2.1.trans hfull
      refine ⟨f, { a with lists := lists }, { t with freeSize := n }, ?_, ⟨[], rc, ce, os,
        hplaced _ rfl rfl, S.congr rfl rfl rfl rfl,
        L.refill hn hfull fun g hg => List.mem_cons_of_mem _ hg⟩, ht⟩
      rw [pickList, if_pos hzero, hget, Exec.ok_bind]
      simp only [hpush { a with lists := lists₁ } rfl, Exec.ok_bind, hflist, hsize]
      rfl
    | nil =>
      -- a new block
      obtain ⟨b, hnew, Sb, hlists, hblocks, hflist⟩ := creatNewFreelist_spec S
      have hget : centralGetFreelist a = .ok (a.blocks, b) := by
        have hpop : pop a .central = .ok (none, a) := by
          rw [pop, P.rep.pop_nil rfl]
          rfl
        rw [centralGetFreelist, hpop, Exec.ok_bind]
        exact hnew
      have hold : ∀ g, a.blocks ≤ g → ∀ p, g ∉ places [] rc [] p := fun g hg p hp =>
        Nat.not_lt.mpr hg ((P.mem g).mpr (exists_places.mp ⟨p, hp⟩))
      obtain ⟨lists, hpush, r, hother⟩ := pushBack_spec (a := b) (p := .free) (hlists ▸ P.rep)
        (hold a.blocks le_rfl) (by rw [hlists]; exact P.fresh _ le_rfl)
      have hplaces : Function.update (places [] rc []) .free (places [] rc [] .free ++ [a.blocks]) =
          places [a.blocks] rc [] := by
        funext q
        cases q <;> rfl
      have Lnew : Levels n 0 [] rc [] (Function.update os a.blocks (newObjs a.blocks n)) := by
        have hkeep : ∀ g ∈ rc, Function.update os a.blocks (newObjs a.blocks n) g = os g := by
          intro g hg
          refine Function.update_of_ne ?_ ..
          rintro rfl
          exact hold a.blocks le_rfl .recover hg
        refine ⟨?_, by simp, by simp, by simp, fun g hg => ?_, fun g hg => ?_, by simp⟩
        · rw [countIn_nil, Nat.zero_add, countIn_eq_zero fun g hg => (hkeep g hg).trans (hrc g hg)]
        · rw [hkeep g (List.mem_of_mem_head? hg)]
          exact L.recover_lt g hg
        · rw [hkeep g (List.mem_of_mem_tail hg)]
          exact L.recover_nil g hg
      refine ⟨a.blocks, { b with lists := lists }, { t with freeSize := n }, ?_, ⟨[], rc, [], _,
        ⟨hplaces ▸ r, fun g => ?_, fun g hg => ?_⟩, Sb.congr rfl rfl rfl rfl, Lnew.refill hn ?_
        (by simp)⟩, ht⟩
      · rw [pickList, if_pos hzero, hget, Exec.ok_bind]
        simp only [hpush, Exec.ok_bind, hflist, hsize]
        rfl
      · have := P.mem g
        change g < b.blocks ↔ _
        simp only [List.mem_singleton, List.not_mem_nil, or_false, false_or] at this ⊢
        rw [hblocks, Nat.lt_succ_iff_lt_or_eq, this, or_comm]
      · have hg' : a.blocks ≤ g := by
          have : b.blocks ≤ g := hg
          omega
        exact (hother g (hold g hg')).trans (by rw [hlists]; exact P.fresh g hg')
      · rw [Function.update_self, newObjs, List.length_map, List.length_range]
  · cases fr with
    | cons f fr =>
      -- the first list of the thread
      refine ⟨f, a, t, ?_, ⟨fr, rc, ce, os, P, S, L⟩, ht⟩
      have hhead : (a.lists.list .free).head = some f := by
        rw [P.rep.list]
        rfl
      rw [pickList, if_neg hzero, hhead]
    | nil =>
      -- the first list of those that take objects back
      cases rc with
      | nil => exact absurd L.count hzero
      | cons f rc =>
        obtain ⟨hsize, -⟩ := L.counted.first
        have hlt := L.recover_lt f rfl
        obtain ⟨lists₁, lists, hpop, hpush, hplaced⟩ := move_spec .recover .free [f] rc ce P rfl
          (by decide) (by funext q; cases q <;> rfl)
        refine ⟨f, { a with lists := lists }, t, ?_, ⟨[], rc, ce, os, hplaced _ rfl rfl,
          S.congr rfl rfl rfl rfl, (L.counted.reuse hzero hn).levels ?_ (by simp) L.central_full⟩, ht⟩
        · have hhead : (a.lists.list .free).head = none := by
            rw [P.rep.list]
            rfl
          rw [pickList, if_neg hzero, hhead]
          simp only [hpop, Exec.ok_bind, Exec.deref_some, hpush { a with lists := lists₁ } rfl]
          rfl
        · rw [countIn_cons, countIn_nil]
          omega

/-- An object has been taken from the first list of the thread. -/
theorem Counted.take (C : Counted n size (f :: fr) rc os) (hos : os f = x :: l) (hfr : f ∉ fr)
    (hrc : f ∉ rc) (hn : 0 < n) :
    (l ≠ [] → Counted n (size - 1) (f :: fr) rc (Function.update os f l)) ∧
      (l = [] → Counted n (size - 1) fr (rc ++ [f]) (Function.update os f l)) := by
  have hcount := C.count
  rw [countIn_cons, hos, List.length_cons] at hcount
  constructor
  · intro hl
    refine ⟨?_, fun g hg => ?_, fun g hg => ?_, fun g hg => ?_⟩
    · rw [countIn_cons, Function.update_self, countIn_update hfr, countIn_update hrc]
      omega
    · rcases List.mem_cons.mp hg with rfl | hg
      · rwa [Function.update_self]
      · rw [update_keep hfr hg]
        exact C.free_pos g (List.mem_cons_of_mem _ hg)
    · rw [update_keep hrc (List.mem_of_mem_head? hg)]
      exact C.recover_lt g hg
    · rw [update_keep hrc (List.mem_of_mem_tail hg)]
      exact C.recover_nil g hg
  · rintro rfl
    refine ⟨?_, fun g hg => ?_, fun g hg => ?_, fun g hg => ?_⟩
    · rw [countIn_append, countIn_cons, countIn_nil, Function.update_self, countIn_update hfr,
        countIn_update hrc]
      simp only [List.length_nil] at hcount ⊢
      omega
    · rw [update_keep hfr hg]
      exact C.free_pos g (List.mem_cons_of_mem _ hg)
    · cases rc with
      | nil =>
        obtain rfl : f = g := Option.some.inj hg
        rwa [Function.update_self]
      | cons h rc =>
        have hhead : (h :: rc).head? = some g := hg
        rw [update_keep hrc (List.mem_of_mem_head? hhead)]
        exact C.recover_lt g hhead
    · by_cases hgf : g = f
      · rw [hgf, Function.update_self]
      · rw [Function.update_of_ne hgf]
        cases rc with
        | nil => cases hg
        | cons h rc =>
          refine C.recover_nil g ?_
          simpa [hgf] using hg

/-- The levels after an object has been taken from the first list of the thread. -/
theorem Levels.take (L : Levels n size (f :: fr) rc ce os) (hos : os f = x :: l) (hfr : f ∉ fr)
    (hrc : f ∉ rc) (hce : f ∉ ce) (hn : 0 < n) :
    (l ≠ [] → Levels n (size - 1) (f :: fr) rc ce (Function.update os f l)) ∧
      (l = [] → Levels n (size - 1) fr (rc ++ [f]) ce (Function.update os f l)) := by
  have hbound := L.bound
  rw [countIn_cons, hos, List.length_cons] at hbound
  have hcentral : ∀ g ∈ ce, (Function.update os f l g).length = n := by
    intro g hg
    rw [update_keep hce hg]
    exact L.central_full g hg
  have hfull : ∀ g ∈ fr, (Function.update os f l g).length = n := by
    intro g hg
    rw [update_keep hfr hg]
    exact L.free_full g hg
  obtain ⟨hmore, hlast⟩ := L.counted.take hos hfr hrc hn
  refine ⟨fun hl => (hmore hl).levels ?_ hfull hcentral, fun hl => (hlast hl).levels ?_
    (fun g hg => hfull g (List.mem_of_mem_tail hg)) hcentral⟩
  · rw [countIn_cons, Function.update_self, countIn_update hfr]
    omega
  · rw [countIn_update hfr]
    omega

/-- An allocator in a run, with blocks of `n` objects. -/
def Inv (a : Allocator) (n : ℕ) (out : Finset Obj) : Prop :=
  ∃ fr rc ce os size, Placed a fr rc ce ∧ Stocked a n out os ∧ Levels n size fr rc ce os ∧
    (a.thread = some ⟨size, 2 * n⟩ ∨ a.thread = none ∧ size = 0 ∧ a.blocks = 0)

theorem Placed.notMem (P : Placed a (f :: fr) rc ce) : f ∉ fr ∧ f ∉ rc ∧ f ∉ ce := by
  have hnodup := P.nodup
  rw [List.cons_append, List.nodup_cons] at hnodup
  simpa only [List.mem_append, not_or] using hnodup.1

/-- The counter of the thread is far below `2 ^ 32`. -/
theorem Levels.size_le (L : Levels n size fr rc ce os) : size ≤ 3 * n := by
  have hcount := L.count
  have hbound := L.bound
  cases rc with
  | nil =>
    rw [countIn_nil] at hcount
    omega
  | cons f rc =>
    have hlt := L.recover_lt f rfl
    rw [countIn_cons, countIn_eq_zero (show ∀ g ∈ rc, os g = [] from L.recover_nil)] at hcount
    omega

/-- **`thread_allocator_alloc`** returns an object that is not outstanding. -/
theorem threadAllocatorAlloc_spec (P : Placed a fr rc ce) (S : Stocked a n out os)
    (L : Levels n t.freeSize fr rc ce os) (ht : t.collectFactor = 2 * n) :
    ∃ x b, threadAllocatorAlloc a t = .ok (x, b) ∧ x ∉ out ∧ Inv b n (insert x out) := by
  obtain ⟨f, b, u, hpick, ⟨fr', rc', ce', os', P', S', L'⟩, hu⟩ := pickList_spec P S L ht
  obtain ⟨x, l, hos⟩ := List.exists_cons_of_ne_nil (L'.free_pos f List.mem_cons_self)
  have hf : f < b.blocks := (P'.mem f).mpr (by simp)
  obtain ⟨c, hget, hx, Sc, hlists, hblocks, hsize⟩ := get_stocked S' hf hos
  obtain ⟨hfr, hrc, hce⟩ := P'.notMem
  obtain ⟨hmore, hlast⟩ := L'.take hos hfr hrc hce S'.pos
  have hcount := L'.count
  have hsz := L'.size_le
  have hsmall := S'.small
  rw [countIn_cons, hos, List.length_cons] at hcount
  have hdec : sub32 u.freeSize 1 = u.freeSize - 1 := sub32_of_le (by omega) (by omega)
  have hrun : threadAllocatorAlloc a t = (do
      let a := { c with thread := some ⟨u.freeSize - 1, 2 * n⟩ }
      if l.length = 0 then
        let q ← pop a .free
        let a ← pushBack q.2 .recover f
        return (x, a)
      else return (x, a)) := by
    rw [threadAllocatorAlloc, hpick, Exec.ok_bind]
    simp only [hget, Exec.ok_bind, hdec, hu, hsize]
  have Pc : ∀ th, Placed { c with thread := th } (f :: fr') rc' ce' := fun th =>
    ⟨hlists ▸ P'.rep, fun g => hblocks ▸ P'.mem g, fun g hg => by
      rw [hlists]
      exact P'.fresh g (hblocks ▸ hg)⟩
  by_cases hl : l = []
  · obtain ⟨lists₁, lists, hpop, hpush, hplaced⟩ := move_spec .free .recover fr' (rc' ++ [f]) ce'
      (Pc (some ⟨u.freeSize - 1, 2 * n⟩)) rfl (by decide) (by funext q; cases q <;> rfl)
    refine ⟨x, { c with thread := some ⟨u.freeSize - 1, 2 * n⟩, lists := lists }, ?_, hx,
      fr', rc' ++ [f], ce', _, u.freeSize - 1, hplaced _ rfl rfl, Sc.congr rfl rfl rfl rfl, hlast hl,
      .inl rfl⟩
    rw [hrun]
    simp only [hl, List.length_nil, if_true, hpop, Exec.ok_bind]
    rw [hpush { c with thread := some ⟨u.freeSize - 1, 2 * n⟩, lists := lists₁ } rfl]
    rfl
  · refine ⟨x, { c with thread := some ⟨u.freeSize - 1, 2 * n⟩ }, ?_, hx, f :: fr', rc', ce', _,
      u.freeSize - 1, Pc _, Sc.congr rfl rfl rfl rfl, hmore hl, .inl rfl⟩
    rw [hrun]
    simp only [List.length_eq_zero_iff, hl, if_false]
    rfl

/-! ## Deallocating -/

theorem length_put : (Function.update os f (os f ++ [x]) f).length = (os f).length + 1 := by
  rw [Function.update_self, List.length_append, List.length_singleton]

/-- An object has been taken back by the first list of `_recover`: the list stays, or it is full and
leaves the thread or becomes the last one of `_free_list`. -/
theorem Counted.putRecover (C : Counted n size fr (f :: rc) os) (hfr : f ∉ fr) (hrc : f ∉ rc)
    (hn : 0 < n) :
    ((os f).length + 1 < n →
        Counted n (size + 1) fr (f :: rc) (Function.update os f (os f ++ [x]))) ∧
      ((os f).length + 1 = n → n ≤ size + 1 ∧
        Counted n (size + 1 - n) fr rc (Function.update os f (os f ++ [x])) ∧
        Counted n (size + 1) (fr ++ [f]) rc (Function.update os f (os f ++ [x]))) := by
  have hcount := C.count
  have hzero : countIn os rc = 0 := countIn_eq_zero C.recover_nil
  rw [countIn_cons, hzero] at hcount
  have hpos : ∀ g ∈ fr, Function.update os f (os f ++ [x]) g ≠ [] := fun g hg => by
    rw [update_keep hfr hg]
    exact C.free_pos g hg
  have hnil : ∀ g ∈ rc, Function.update os f (os f ++ [x]) g = [] := fun g hg => by
    rw [update_keep hrc hg]
    exact C.recover_nil g hg
  have hlt : ∀ g, rc.head? = some g → (Function.update os f (os f ++ [x]) g).length < n :=
    fun g hg => by
      rw [hnil g (List.mem_of_mem_head? hg)]
      exact hn
  refine ⟨fun hless => ?_, fun hlast => ⟨by omega, ?_, ?_⟩⟩
  · refine ⟨?_, hpos, fun g hg => ?_, hnil⟩
    · rw [countIn_cons, length_put, countIn_update hfr, countIn_update hrc, hzero]
      omega
    · obtain rfl : f = g := Option.some.inj hg
      rwa [length_put]
  · refine ⟨?_, hpos, hlt, fun g hg => hnil g (List.mem_of_mem_tail hg)⟩
    rw [countIn_update hfr, countIn_update hrc, hzero]
    omega
  · refine ⟨?_, fun g hg => ?_, hlt, fun g hg => hnil g (List.mem_of_mem_tail hg)⟩
    · rw [countIn_append, countIn_cons, countIn_nil, length_put, countIn_update hfr,
        countIn_update hrc, hzero]
      omega
    · rcases List.mem_append.mp hg with hg | hg
      · exact hpos g hg
      · rw [List.mem_singleton.mp hg, Function.update_self]
        simp

/-- The levels after an object has been taken back by the first list of `_recover`: the list stays,
or it is full and moves to one of the other two. -/
theorem Levels.putRecover (L : Levels n size fr (f :: rc) ce os) (hfr : f ∉ fr) (hrc : f ∉ rc)
    (hce : f ∉ ce) (hn : 0 < n) :
    ((os f).length + 1 < n →
        Levels n (size + 1) fr (f :: rc) ce (Function.update os f (os f ++ [x]))) ∧
      ((os f).length + 1 = n → n ≤ size + 1 ∧
        Levels n (size + 1 - n) fr rc (ce ++ [f]) (Function.update os f (os f ++ [x])) ∧
        (size + 1 < 2 * n →
          Levels n (size + 1) (fr ++ [f]) rc ce (Function.update os f (os f ++ [x])))) := by
  have hbound : countIn (Function.update os f (os f ++ [x])) fr ≤ 2 * n := by
    rw [countIn_update hfr]
    exact L.bound
  have hfull : ∀ g ∈ fr.tail, (Function.update os f (os f ++ [x]) g).length = n := fun g hg => by
    rw [update_keep hfr (List.mem_of_mem_tail hg)]
    exact L.free_full g hg
  have hcentral : ∀ g ∈ ce, (Function.update os f (os f ++ [x]) g).length = n := fun g hg => by
    rw [update_keep hce hg]
    exact L.central_full g hg
  obtain ⟨hstay, hlast⟩ := L.counted.putRecover (x := x) hfr hrc hn
  refine ⟨fun hless => (hstay hless).levels hbound hfull hcentral, fun hlen => ?_⟩
  obtain ⟨hle, hback, hkeep⟩ := hlast hlen
  refine ⟨hle, hback.levels hbound hfull fun g hg => ?_, fun hsize => hkeep.levels ?_ (fun g hg => ?_)
    hcentral⟩
  · rcases List.mem_append.mp hg with hg | hg
    · exact hcentral g hg
    · rw [List.mem_singleton.mp hg, length_put, hlen]
  · have hcount := hkeep.count
    omega
  · cases fr with
    | nil => cases hg
    | cons h fr =>
      rcases List.mem_append.mp (show g ∈ fr ++ [f] from hg) with hg | hg
      · exact hfull g hg
      · rw [List.mem_singleton.mp hg, length_put, hlen]

/-- An object has been taken back by the first list of `_free_list`. -/
theorem Counted.putFirst (C : Counted n size (f :: fr) [] os) (hfr : f ∉ fr) :
    Counted n (size + 1) (f :: fr) [] (Function.update os f (os f ++ [x])) := by
  have hcount := C.count
  rw [countIn_cons, countIn_nil] at hcount
  refine ⟨?_, fun g hg => ?_, fun g hg => (by cases hg), by simp⟩
  · rw [countIn_cons, countIn_nil, length_put, countIn_update hfr]
    omega
  · rcases List.mem_cons.mp hg with rfl | hg
    · rw [Function.update_self]
      simp
    · rw [update_keep hfr hg]
      exact C.free_pos g (List.mem_cons_of_mem _ hg)

/-- The levels after an object has been taken back by the first list of `_free_list`. -/
theorem Levels.putFirst (L : Levels n size (f :: fr) [] ce os) (hfr : f ∉ fr) (hce : f ∉ ce)
    (hlt : (os f).length < n) :
    Levels n (size + 1) (f :: fr) [] ce (Function.update os f (os f ++ [x])) := by
  have hbound := L.bound
  have hfirst := List.length_pos_iff.mpr (L.free_pos f List.mem_cons_self)
  rw [countIn_cons] at hbound
  refine (L.counted.putFirst hfr).levels ?_ (fun g hg => ?_) fun g hg => ?_
  · -- at most one full list comes after the first
    rw [countIn_cons, length_put, countIn_update hfr]
    rcases fr with - | ⟨g, - | ⟨h, fr⟩⟩
    · rw [countIn_nil]
      omega
    · have := L.free_full g (by simp)
      rw [countIn_cons, countIn_nil]
      omega
    · have h₁ := L.free_full g (by simp)
      have h₂ := L.free_full h (by simp)
      rw [countIn_cons, countIn_cons] at hbound
      omega
  · rw [update_keep hfr hg]
    exact L.free_full g hg
  · rw [update_keep hce hg]
    exact L.central_full g hg

/-- **`thread_allocator_dealloc`** takes an outstanding object back. -/
theorem threadAllocatorDealloc_spec (P : Placed a fr rc ce) (S : Stocked a n out os)
    (L : Levels n t.freeSize fr rc ce os) (ht : t.collectFactor = 2 * n) (hx : x ∈ out) :
    ∃ b, threadAllocatorDealloc a t x = .ok b ∧ Inv b n (out.erase x) := by
  have hn := S.pos
  have hsmall := S.small
  have hsz := L.size_le
  have hinc : add32 t.freeSize 1 = t.freeSize + 1 := add32_of_lt (by omega)
  have hnodup := P.nodup
  cases rc with
  | cons f rc =>
    have hf : f < a.blocks := (P.mem f).mpr (by simp)
    have hlt := L.recover_lt f rfl
    have S' := put_stocked S hf hx hlt
    obtain ⟨hlists, hblocks, -, -, -⟩ := freeListPut_fields (a := a) (f := f) (x := x)
    have hhead : (a.lists.list .recover).head = some f := by
      rw [P.rep.list]
      rfl
    have hsizes : ((freeListPut a f x).flist f).size = (os f).length + 1 ∧
        ((freeListPut a f x).flist f).initSize = n := by
      obtain ⟨-, h₁, h₂⟩ := S'.chain f (by rwa [hblocks])
      rw [Function.update_self, List.length_append, List.length_singleton] at h₁
      exact ⟨h₁, h₂⟩
    obtain ⟨hfr, hrc, hce⟩ : f ∉ fr ∧ f ∉ rc ∧ f ∉ ce := by
      rw [List.cons_append, List.nodup_middle, List.nodup_cons] at hnodup
      simpa only [List.mem_append, not_or] using hnodup.1
    obtain ⟨hless, hlast⟩ := L.putRecover (x := x) hfr hrc hce hn
    have P' : Placed (freeListPut a f x) fr (f :: rc) ce :=
      ⟨hlists ▸ P.rep, fun g => hblocks ▸ P.mem g, fun g hg => by
        rw [hlists]
        exact P.fresh g (hblocks ▸ hg)⟩
    rw [threadAllocatorDealloc, hhead]
    simp only [hinc, hsizes.1, hsizes.2, ht]
    by_cases hfull : (os f).length + 1 = n
    · obtain ⟨hle, Lcentral, Lfree⟩ := hlast hfull
      rw [if_pos hfull]
      by_cases hcollect : t.freeSize + 1 ≥ 2 * n
      · obtain ⟨lists₁, lists, hpop, hpush, hplaced⟩ := move_spec .recover .central fr rc (ce ++ [f]) P'
          rfl (by decide) (by funext q; cases q <;> rfl)
        have hback : sub32 (t.freeSize + 1) n = t.freeSize + 1 - n := sub32_of_le hle (by omega)
        refine ⟨{ freeListPut a f x with
            lists := lists
            thread := some ⟨t.freeSize + 1 - n, 2 * n⟩ }, ?_, fr, rc, ce ++ [f], _, _,
          hplaced _ rfl rfl, S'.congr rfl rfl rfl rfl, Lcentral, .inl rfl⟩
        simp only [hpop, Exec.ok_bind, if_pos hcollect]
        rw [hpush { freeListPut a f x with lists := lists₁ } rfl, Exec.ok_bind]
        simp only [hsizes.1, hfull, hback]
        rfl
      · obtain ⟨lists₁, lists, hpop, hpush, hplaced⟩ := move_spec .recover .free (fr ++ [f]) rc ce P'
          rfl (by decide) (by funext q; cases q <;> rfl)
        refine ⟨{ freeListPut a f x with
            lists := lists
            thread := some ⟨t.freeSize + 1, 2 * n⟩ }, ?_, fr ++ [f], rc, ce, _, _,
          hplaced _ rfl rfl, S'.congr rfl rfl rfl rfl, Lfree (by omega), .inl rfl⟩
        simp only [hpop, Exec.ok_bind, if_neg hcollect]
        rw [hpush { freeListPut a f x with lists := lists₁ } rfl, Exec.ok_bind]
        rfl
    · rw [if_neg hfull]
      exact ⟨_, rfl, fr, f :: rc, ce, _, _, ⟨P'.rep, P'.mem, P'.fresh⟩, S'.congr rfl rfl rfl rfl,
        hless (by omega), .inl rfl⟩
  | nil =>
    have hhead : (a.lists.list .recover).head = none := by
      rw [P.rep.list]
      rfl
    cases fr with
    | nil =>
      -- all free lists are those of the central allocator, and they are full
      have hempty := split_full S.split fun f hf =>
        L.central_full f (by simpa using (P.mem f).mp hf)
      rw [hempty] at hx
      cases hx
    | cons f fr =>
      have hf : f < a.blocks := (P.mem f).mpr (by simp)
      obtain ⟨hfr, -, hce⟩ := P.notMem
      have hlt : (os f).length < n := by
        by_contra hge
        have hempty := split_full S.split fun g hg => by
          rcases (P.mem g).mp hg with hg' | hg' | hg'
          · rcases List.mem_cons.mp hg' with rfl | hg'
            · exact Nat.le_antisymm (S.le g hg) (Nat.le_of_not_lt hge)
            · exact L.free_full g hg'
          · cases hg'
          · exact L.central_full g hg'
        rw [hempty] at hx
        cases hx
      have S' := put_stocked S hf hx hlt
      obtain ⟨hlists, hblocks, -, -, -⟩ := freeListPut_fields (a := a) (f := f) (x := x)
      have hfirst : (a.lists.list .free).head = some f := by
        rw [P.rep.list]
        rfl
      refine ⟨{ freeListPut a f x with thread := some ⟨t.freeSize + 1, 2 * n⟩ }, ?_, f :: fr, [], ce, _, _,
        ⟨?_, fun g => ?_, fun g hg => ?_⟩, S'.congr rfl rfl rfl rfl, L.putFirst hfr hce hlt, .inl rfl⟩
      · rw [threadAllocatorDealloc, hhead]
        simp only [hfirst, hinc, ht]
      · exact hlists ▸ P.rep
      · exact hblocks ▸ P.mem g
      · change (freeListPut a f x).lists.next g = none
        rw [hlists]
        exact P.fresh g (hblocks ▸ hg)

end Alloc

/-! ## Runs -/

/-- A call on the allocator, or a write of an owner to the first word of an object. -/
inductive Op
  | alloc
  | dealloc (x : Obj)
  | write (x : Obj) (v : Option Obj)

/-- An allocator and the record of the outstanding objects. -/
structure State where
  alloc : Allocator
  out : Finset Obj

/-- A call, and the object that an allocation returns. -/
def step (s : State) : Op → Exec (State × Option Obj)
  | .alloc => do
    let (x, a) ← blockObjAlAlloc s.alloc
    return (⟨a, insert x s.out⟩, some x)
  | .dealloc x => do
    let a ← blockObjAlDealloc s.alloc x
    return (⟨a, s.out.erase x⟩, none)
  | .write x v =>
    .ok (⟨{ s.alloc with objNext := Function.update s.alloc.objNext x v }, s.out⟩, none)

/-- Only objects that are outstanding are freed or written to. -/
def Allowed (s : State) : Op → Prop
  | .alloc => True
  | .dealloc x | .write x _ => x ∈ s.out

/-- A run in which only outstanding objects are freed or written to. -/
def Proper : State → List Op → Prop
  | _, [] => True
  | s, op :: ops => Allowed s op ∧ ∀ s' r, step s op = .ok (s', r) → Proper s' ops

instance (s : State) : DecidablePred (Allowed s)
  | .alloc => inferInstanceAs (Decidable True)
  | .dealloc _ => inferInstanceAs (Decidable (_ ∈ _))
  | .write _ _ => inferInstanceAs (Decidable (_ ∈ _))

instance decidableProper : ∀ s ops, Decidable (Proper s ops)
  | _, [] => isTrue trivial
  | s, op :: ops =>
    match h : step s op with
    | .error _ => decidable_of_iff (Allowed s op)
        ⟨fun hop => ⟨hop, fun _ _ h' => by rw [h] at h'; cases h'⟩, And.left⟩
    | .ok (s', r) =>
      have := decidableProper s' ops
      decidable_of_iff (Allowed s op ∧ Proper s' ops) (by
        refine and_congr_right fun _ => ⟨fun hrest u v h' => ?_, fun hrest => hrest s' r h⟩
        obtain ⟨rfl, rfl⟩ := Prod.mk.inj (Except.ok.inj (h.symm.trans h'))
        exact hrest)

/-- The objects of a free list. -/
def objects (a : Allocator) (f : ℕ) : List Obj :=
  walk a.objNext (a.flist f).size (a.flist f).head

/-- The free lists of the allocator, wherever they are. -/
def allLists (a : Allocator) : List ℕ :=
  a.lists.nodes .free ++ (a.lists.nodes .recover ++ a.lists.nodes .central)

/-- No object is lost and none is in two places; the thread counts its free objects; and only those
free lists are empty that may be. -/
structure Exact (a : Allocator) (out : Finset Obj) : Prop where
  objects : out.val + ((allLists a).flatMap (objects a) : Multiset Obj) =
    (blockObjs a.blocks (defaultBlockSize / a.objSize)).val
  freeSize : ∀ t, a.thread = some t → t.freeSize =
    ((a.lists.nodes .free ++ a.lists.nodes .recover).map fun f => (a.flist f).size).sum
  free : ∀ f ∈ a.lists.nodes .free, BlockObjAllocator.objects a f ≠ []
  recover : ∀ f ∈ (a.lists.nodes .recover).tail, BlockObjAllocator.objects a f = []

/-- In a run the allocator is exact in every state, every call returns, and no allocation returns an
object that is outstanding. -/
def RunExact : State → List Op → Prop
  | s, [] => Exact s.alloc s.out
  | s, op :: ops => Exact s.alloc s.out ∧ ∃ s' r, step s op = .ok (s', r) ∧
    (∀ x, r = some x → x ∉ s.out) ∧ RunExact s' ops

section Runs

variable {n : ℕ} {out : Finset Obj} {os : ℕ → List Obj}

theorem Stock.objects_eq (S : Stock a n out os) (hf : f < a.blocks) : objects a f = os f := by
  obtain ⟨C, hsize, -⟩ := S.chain f hf
  rw [objects, hsize, C.head, C.linked.walk]

theorem coe_flatMap_range (os : ℕ → List Obj) (k : ℕ) :
    ((List.range k).flatMap os : Multiset Obj) = ∑ f ∈ Finset.range k, (os f : Multiset Obj) := by
  induction k with
  | zero => rfl
  | succ k ih =>
    rw [List.range_succ, List.flatMap_append, ← Multiset.coe_add, ih, Finset.sum_range_succ,
      List.flatMap_singleton]

theorem Inv.exact (I : Inv a n out) : Exact a out := by
  obtain ⟨fr, rc, ce, os, size, P, S, L, hthread⟩ := I
  have hfr : a.lists.nodes .free = fr := P.rep.nodes .free
  have hrc : a.lists.nodes .recover = rc := P.rep.nodes .recover
  have hce : a.lists.nodes .central = ce := P.rep.nodes .central
  have hobj : ∀ {f}, f ∈ fr ∨ f ∈ rc ∨ f ∈ ce → objects a f = os f :=
    fun h => S.stock.objects_eq ((P.mem _).mpr h)
  refine ⟨?_, fun t ht => ?_, fun f hf => ?_, fun f hf => ?_⟩
  · -- the free lists are those of the blocks, in some order
    have hperm : (fr ++ (rc ++ ce)).Perm (List.range a.blocks) := by
      refine (List.perm_ext_iff_of_nodup P.nodup List.nodup_range).mpr fun f => ?_
      rw [List.mem_range, P.mem, List.mem_append, List.mem_append]
    have hsame : (fr ++ (rc ++ ce)).flatMap (objects a) = (fr ++ (rc ++ ce)).flatMap os := by
      refine List.flatMap_congr fun f hf => hobj ?_
      simpa only [List.mem_append] using hf
    rw [allLists, hfr, hrc, hce, hsame, S.objSize.2.1, ← S.split,
      Multiset.coe_eq_coe.mpr (hperm.flatMap_right os), coe_flatMap_range]
  · have hsum : ((fr ++ rc).map fun f => (a.flist f).size).sum = countIn os (fr ++ rc) := by
      rw [countIn]
      congr 1
      refine List.map_congr_left fun f hf => ?_
      refine (S.chain f ((P.mem f).mpr ?_)).2.1
      rcases List.mem_append.mp hf with h | h
      · exact .inl h
      · exact .inr (.inl h)
    rw [hfr, hrc, hsum, countIn_append, ← L.count]
    rcases hthread with hthread | ⟨hthread, -⟩
    · rw [← Option.some.inj (hthread.symm.trans ht)]
    · rw [hthread] at ht
      cases ht
  · rw [hfr] at hf
    rw [hobj (.inl hf)]
    exact L.free_pos f hf
  · rw [hrc] at hf
    rw [hobj (.inr (.inl (List.mem_of_mem_tail hf)))]
    exact L.recover_nil f hf

/-- **`block_obj_al_alloc`** returns an object that is not outstanding. -/
theorem blockObjAlAlloc_spec (I : Inv a n out) :
    ∃ x b, blockObjAlAlloc a = .ok (x, b) ∧ x ∉ out ∧ Inv b n (insert x out) := by
  obtain ⟨fr, rc, ce, os, size, P, S, L, hthread⟩ := I
  rcases hthread with hthread | ⟨hthread, rfl, -⟩
  · obtain ⟨x, b, h, hrest⟩ := threadAllocatorAlloc_spec (t := ⟨size, 2 * n⟩) P S L rfl
    exact ⟨x, b, by rw [blockObjAlAlloc, hthread]; exact h, hrest⟩
  · obtain ⟨x, b, h, hrest⟩ := threadAllocatorAlloc_spec (t := ⟨0, 2 * n⟩) P S L rfl
    refine ⟨x, b, ?_, hrest⟩
    rw [blockObjAlAlloc, hthread, createThreadAllocator, if_neg S.objSize.1, S.objSize.2.2]
    exact h

/-- An object that is outstanding is one of a block. -/
theorem Inv.mem_blockObjs (I : Inv a n out) (hx : x ∈ out) : x ∈ blockObjs a.blocks n := by
  obtain ⟨fr, rc, ce, os, size, P, S, L, hthread⟩ := I
  rw [← Finset.mem_val, ← S.split]
  exact Multiset.mem_add.mpr (.inl hx)

/-- **A call** on an allocator in a run. -/
theorem step_inv {s : State} {op : Op} (I : Inv s.alloc n s.out)
    (hop : Allowed s op) :
    ∃ s' r, step s op = .ok (s', r) ∧ (∀ x, r = some x → x ∉ s.out) ∧ Inv s'.alloc n s'.out := by
  obtain ⟨fr, rc, ce, os, size, P, S, L, hthread⟩ := id I
  cases op with
  | alloc =>
    obtain ⟨x, b, halloc, hx, Ib⟩ := blockObjAlAlloc_spec I
    refine ⟨_, _, by rw [step, halloc]; rfl, fun y hy => Option.some.inj hy ▸ hx, Ib⟩
  | dealloc x =>
    have hx : x ∈ s.out := hop
    rcases hthread with hthread | ⟨-, -, hblocks⟩
    · obtain ⟨b, hdealloc, Ib⟩ := threadAllocatorDealloc_spec (t := ⟨size, 2 * n⟩) P S L rfl hx
      refine ⟨⟨b, s.out.erase x⟩, none, ?_, fun y hy => (by cases hy), Ib⟩
      rw [step, blockObjAlDealloc, hthread]
      simp only [hdealloc, Exec.ok_bind]
      rfl
    · -- nothing has been allocated yet
      have hempty := split_full S.split fun f hf => by omega
      rw [hempty] at hx
      cases hx
  | write x v =>
    have hx : x ∈ s.out := hop
    refine ⟨_, _, rfl, fun y hy => (by cases hy), fr, rc, ce, os, size, ⟨P.rep, P.mem, P.fresh⟩,
      ⟨S.pos, S.small, S.objSize, fun f hf => ?_, S.split, S.le⟩, L, hthread⟩
    obtain ⟨C, h⟩ := S.chain f hf
    refine ⟨⟨C.head, C.tail, C.linked.congr fun y hy => Function.update_of_ne ?_ ..⟩, h⟩
    rintro rfl
    exact split_out S.split hf hx hy

theorem runExact_of_inv {s : State} {ops : List Op} (I : Inv s.alloc n s.out)
    (hproper : Proper s ops) : RunExact s ops := by
  induction ops generalizing s with
  | nil => exact I.exact
  | cons op ops ih =>
    obtain ⟨hop, hrest⟩ := hproper
    obtain ⟨s', r, hstep, hr, I'⟩ := step_inv I hop
    exact ⟨I.exact, s', r, hstep, hr, ih I' (hrest s' r hstep)⟩

end Runs

/-! ## The size of the objects -/

/-- **A new allocator** for objects of at most one megabyte. -/
theorem create_inv {objSize : ℕ} {objNext : Obj → Option Obj} (hmax : objSize ≤ 0x100000) :
    ∃ n, Inv (createBlockObjAllocator objSize objNext) n ∅ := by
  obtain ⟨k, hk⟩ : ∃ k, k = getK (if objSize < 8 then 8 else objSize) := ⟨_, rfl⟩
  have hk20 : k ≤ 20 := by
    rw [hk, getK_eq_clog (by split <;> omega) (by split <;> omega)]
    apply Nat.clog_le_of_le_pow
    split <;> omega
  have hsize : (createBlockObjAllocator objSize objNext).objSize = 2 ^ k := by
    change (1 <<< getK (if objSize < 8 then 8 else objSize)) % 0x100000000 = _
    rw [← hk, Nat.shiftLeft_eq, Nat.one_mul]
    exact Nat.mod_eq_of_lt ((Nat.pow_le_pow_right (by decide) hk20).trans_lt (by decide))
  have hn : defaultBlockSize / 2 ^ k = 2 ^ (20 - k) := by
    rw [show defaultBlockSize = 2 ^ 20 by rfl, Nat.pow_div hk20 (by decide)]
  have hfactor : defaultBlockSize * 2 / 2 ^ k = 2 * 2 ^ (20 - k) := by
    rw [show defaultBlockSize * 2 = 2 ^ 21 by rfl, Nat.pow_div (by omega) (by decide),
      show 21 - k = 20 - k + 1 by omega, pow_succ, Nat.mul_comm]
  have P : Placed (createBlockObjAllocator objSize objNext) [] [] [] := by
    refine ⟨⟨fun p => ?_, fun p => ?_, fun p => ?_, fun p q _ => ?_⟩, fun f => ?_, fun _ _ => rfl⟩
    · cases p <;> trivial
    · cases p <;> rfl
    · cases p <;> exact List.nodup_nil
    · cases p <;> simp [places]
    · simp [createBlockObjAllocator]
  have S : Stocked (createBlockObjAllocator objSize objNext) (2 ^ (20 - k)) ∅ fun _ => [] := by
    refine ⟨Nat.two_pow_pos _, Nat.pow_le_pow_right (by decide) (by omega : 20 - k ≤ 20), ?_,
      fun f hf => absurd hf (Nat.not_lt_zero f), rfl, fun f hf => absurd hf (Nat.not_lt_zero f)⟩
    rw [hsize]
    exact ⟨(Nat.two_pow_pos k).ne', hn, hfactor⟩
  have L : Levels (2 ^ (20 - k)) 0 [] [] [] (fun _ => []) := by
    refine ⟨rfl, Nat.zero_le _, ?_, ?_, ?_, ?_, ?_⟩ <;> simp
  exact ⟨_, [], [], [], _, 0, P, S, L, .inr ⟨rfl, rfl, rfl⟩⟩

/-- **The block allocator is exact.** For objects of at most one megabyte, in every run that frees
only outstanding objects, no allocation returns an object that is outstanding, no object is lost and
no assertion fails. -/
theorem exact_of_proper {objSize : ℕ} {objNext : Obj → Option Obj} {ops : List Op}
    (hsize : 1 ≤ objSize ∧ objSize ≤ 0x100000)
    (hproper : Proper ⟨createBlockObjAllocator objSize objNext, ∅⟩ ops) :
    RunExact ⟨createBlockObjAllocator objSize objNext, ∅⟩ ops := by
  obtain ⟨n, I⟩ : ∃ n, Inv (createBlockObjAllocator objSize objNext) n ∅ := create_inv hsize.2
  exact runExact_of_inv I hproper

/-- Objects of half a megabyte: three are allocated, and two of them freed in the other order. -/
theorem exact_two_blocks : RunExact ⟨createBlockObjAllocator 0x80000 (fun _ => none), ∅⟩
    [.alloc, .alloc, .alloc, .write (0, 0) (some (1, 1)), .dealloc (1, 0), .dealloc (0, 0), .alloc] :=
  exact_of_proper (by decide) (by decide)

end Kendylib.BlockObjAllocator
