import Kendylib.Container.RBtreeRuns

/-!
# Iterators in the runs of the red-black tree

In every state of a run from an empty tree,

* iteration from `RBtree_begin` visits every key once, in increasing order and with its value, and
  ends at `RBtree_end` (`iterates_of_proper`);
* `RBtree_erase` takes the key of its iterator off the tree. The iterator it returns is at the next
  key, unless the node has a left child and no right child: then the predecessor is unlinked and its
  data moved to the node, and the iterator is at the predecessor's key (`erasesToNext_iff_of_proper`).
-/

namespace Kendylib.RBtree

open Tree

variable {K V : Type} {compare : K → K → Int} {rb : RBtree K V} {t : Tree (Entry K V)}

section Spec

variable [DecidableEq K]

/-- Every call of the run returns with the answer of a finite map, and `P` holds of every state and
the map it stands for. -/
def Throughout (compare : K → K → Int) (P : RBtree K V → (K → Option V) → Prop) :
    RBtree K V → (K → Option V) → List (Op K V) → Prop
  | rb, m, [] => P rb m
  | rb, m, op :: ops => P rb m ∧ ∃ a rb' m', step compare rb op = .ok (a, rb') ∧
    Answers rb m op a rb' m' ∧ Throughout compare P rb' m' ops

variable {m : K → Option V} {P : RBtree K V → (K → Option V) → Prop} {ops : List (Op K V)}

theorem throughout_of_inv (ho : StrictOrder compare)
    (hP : ∀ rb t m, Inv compare rb t → Maps (data t.toList) m → P rb m) (I : Inv compare rb t)
    (M : Maps (data t.toList) m) (h : Proper compare rb ops) : Throughout compare P rb m ops := by
  induction ops generalizing rb t m with
  | nil => exact hP rb t m I M
  | cons op ops ih =>
    obtain ⟨hop, hrest⟩ := h
    obtain ⟨a, rb', t', m', hstep, hans, I', M'⟩ := step_spec ho I M hop
    rw [hstep] at hrest
    exact ⟨hP rb t m I M, a, rb', m', hstep, hans, ih I' M' hrest⟩

/-- The state at the end of a run. -/
theorem Throughout.last (h : Throughout compare P rb m ops) :
    ∃ rb' m', ops.foldlM (fun rb op => do return (← step compare rb op).2) rb = .ok rb' ∧
      P rb' m' := by
  induction ops generalizing rb m with
  | nil => exact ⟨rb, m, rfl, h⟩
  | cons op ops ih =>
    obtain ⟨-, a, rb', m', hstep, -, hrest⟩ := h
    obtain ⟨rb₂, m₂, hrun, hP⟩ := ih hrest
    refine ⟨rb₂, m₂, ?_, hP⟩
    rw [List.foldlM_cons, hstep]
    exact hrun

end Spec

/-! ## Iteration -/

/-- Iteration from `RBtree_begin` visits every key of the map once, in strictly increasing order and
with its value, and then stays at `RBtree_end`. -/
def IteratesOver (compare : K → K → Int) (rb : RBtree K V) (m : K → Option V) : Prop :=
  ∃ it kvs, rb.RBtreeBegin = .ok it ∧ Visits rb it kvs ∧ Sorted compare kvs ∧ Maps kvs m

/-- **Iteration is complete** in every state of a run whose tree is not empty. -/
theorem iterates_of_proper [DecidableEq K] (ho : StrictOrder compare) (dummy : RBnode K V)
    (ops : List (Op K V)) (h : Proper compare (create dummy) ops) :
    Throughout compare (fun rb m => rb.RBtreeEmpty = false → IteratesOver compare rb m)
      (create dummy) (fun _ => none) ops := by
  refine throughout_of_inv ho (fun rb t m I M hne => ?_) (inv_create compare dummy) maps_nil h
  obtain ⟨it, hbegin, hvisits⟩ := visits_of_inv I hne
  exact ⟨it, data t.toList, hbegin, hvisits, I.sorted, M⟩

/-- Five keys and a delete of an inner node. -/
theorem iterates_five_keys :
    Throughout compareNat (fun rb m => rb.RBtreeEmpty = false → IteratesOver compareNat rb m)
      (create ⟨7, 8, 9, .red, 0, 0⟩ : RBtree ℕ ℕ) (fun _ => none)
      [.insert 5 50, .insert 2 20, .insert 8 80, .insert 1 10, .insert 3 30, .delete 2] :=
  iterates_of_proper strictOrder_compareNat _ _ (by decide +kernel)

/-! ## Erasing -/

/-- Look-ups find the entries of the map, and end for any other key. -/
def Finds (compare : K → K → Int) (rb : RBtree K V) (m : K → Option V) : Prop :=
  ∀ k, ∃ it, rb.RBtreeFind compare k = .ok it ∧ rb.readIter it = .ok ((m k).map (k, ·))

/-- The iterator is at the least key of the map above `k`, or is the end if there is none. -/
def AtNext (compare : K → K → Int) (rb : RBtree K V) (m : K → Option V) (k : K) (it : Addr) : Prop :=
  mapIterEqual it rb.RBtreeEnd ∧ (∀ k', m k' ≠ none → compare k k' ≠ -1) ∨
    ∃ k' v', ¬ mapIterEqual it rb.RBtreeEnd ∧ rb.readIter it = .ok (some (k', v')) ∧
      m k' = some v' ∧ compare k k' = -1 ∧
      ∀ k'', m k'' ≠ none → compare k k'' = -1 → k'' = k' ∨ compare k' k'' = -1

/-- An erase at an iterator takes its key `k` off the map and returns the iterator at the next key. -/
def ErasesToNext [DecidableEq K] (compare : K → K → Int) (rb : RBtree K V) (m : K → Option V)
    (it : Addr) (k : K) : Prop :=
  ∃ it' rb', rb.RBtreeErase compare it = .ok (it', rb') ∧
    Finds compare rb' (Function.update m k none) ∧
    AtNext compare rb' (Function.update m k none) k it'

theorem finds_of_inv (ho : StrictOrder compare) {m : K → Option V} (I : Inv compare rb t)
    (M : Maps (data t.toList) m) : Finds compare rb m := by
  intro k
  rcases RBtreeFind_spec ho I k with ⟨x, hx, rfl, hfind⟩ | ⟨habs, hfind⟩
  · refine ⟨x.addr, hfind, ?_⟩
    rw [(readIter_of_mem I hx).2, (M _ x.val).mpr (List.mem_map_of_mem hx)]
    rfl
  · refine ⟨nil, hfind, ?_⟩
    rw [M.eq_none.mpr habs]
    rfl

/-- A node at the entries above `k` is at the next key, and a node before them is not. -/
theorem atNext_iff (ho : StrictOrder compare) {m : K → Option V} {P Q : List (K × V)} {k : K}
    {a : Addr} {early : Prop} (I : Inv compare rb t) (M : Maps (data t.toList) m)
    (hdata : data t.toList = P ++ Q) (hP : ∀ kv ∈ P, compare kv.1 k = -1)
    (hQ : ∀ kv ∈ Q, compare k kv.1 = -1) (hreturn : ReturnsTo a t.toList Q early) :
    AtNext compare rb m k a ↔ ¬ early := by
  obtain ⟨A, B, R, hlist, rfl, hB, hearly⟩ := hreturn
  -- the keys above `k` are those of `Q`
  have habove : ∀ k', m k' ≠ none → compare k k' = -1 → ∃ v', (k', v') ∈ Q := by
    intro k' hk' hlt
    obtain ⟨v', hv'⟩ := Option.ne_none_iff_exists'.mp hk'
    have hm := hdata ▸ (M k' v').mp hv'
    refine ⟨v', (List.mem_append.mp hm).resolve_left fun hm => ?_⟩
    exact compare_asymm ho hlt (hP _ hm)
  rw [← hearly, not_not]
  constructor
  · intro hnext
    by_contra hR
    obtain ⟨kv, R, rfl⟩ := List.exists_cons_of_ne_nil hR
    cases B with
    | nil => cases hB
    | cons z B =>
      obtain ⟨rfl, -⟩ := List.cons.inj hB
      have hz : z ∈ t.toList := hlist ▸ List.mem_append_right _ List.mem_cons_self
      obtain ⟨hzn, hread⟩ := readIter_of_mem I hz
      have hzP : (z.key, z.val) ∈ P := by
        rw [hlist, data_append, hB, ← List.append_assoc] at hdata
        rw [← List.append_cancel_right hdata]
        simp
      rcases hnext with ⟨hend, -⟩ | ⟨k', v', -, hread', -, hlt, -⟩
      · exact hzn (mapIterEqual_iff.mp hend)
      · rw [headAddr_cons, hread] at hread'
        obtain ⟨rfl, rfl⟩ := Prod.mk.inj (Option.some.inj (Except.ok.inj hread'))
        exact compare_asymm ho hlt (hP _ hzP)
  · rintro rfl
    cases B with
    | nil =>
      obtain rfl : Q = [] := hB.symm
      refine .inl ⟨mapIterEqual_iff.mpr rfl, fun k' hk' hlt => ?_⟩
      obtain ⟨v', hv'⟩ := habove k' hk' hlt
      cases hv'
    | cons z B =>
      have hz : z ∈ t.toList := hlist ▸ List.mem_append_right _ List.mem_cons_self
      obtain ⟨hzn, hread⟩ := readIter_of_mem I hz
      obtain rfl : (z.key, z.val) :: data B = Q := hB
      refine .inr ⟨z.key, z.val, fun hend => hzn (mapIterEqual_iff.mp hend), hread,
        (M _ _).mpr (List.mem_map_of_mem hz), hQ _ List.mem_cons_self, fun k'' hk'' hlt => ?_⟩
      obtain ⟨v'', hv''⟩ := habove k'' hk'' hlt
      have hs := hdata ▸ I.sorted
      rcases List.mem_cons.mp hv'' with heq | hm
      · exact .inl (Prod.mk.inj heq).1
      · exact .inr ((List.pairwise_cons.mp (List.pairwise_append.mp hs).2.1).1 _ hm)

/-- **An erase** at a node of the tree. -/
theorem erasesToNext_iff [DecidableEq K] (ho : StrictOrder compare) {m : K → Option V}
    (I : Inv compare rb t) (M : Maps (data t.toList) m) {x : Entry K V} (hx : x ∈ t.toList) :
    ErasesToNext compare rb m x.addr x.key ↔ ¬ OnlyLeft rb x.addr := by
  obtain ⟨a, rb', t', P, Q, herase, I', hdata, hdata', hreturn⟩ := RBtreeErase_spec ho I hx
  have hsorted := hdata ▸ I.sorted
  have M' : Maps (data t'.toList) (Function.update m x.key none) := by
    rw [hdata']
    exact (hdata ▸ M).drop (hsorted.unique ho)
  obtain ⟨-, hq, hpq⟩ := List.pairwise_append.mp hsorted
  have hnext := atNext_iff ho I' M' hdata' (fun kv hkv => hpq kv hkv _ List.mem_cons_self)
    (List.pairwise_cons.mp hq).1 hreturn
  constructor
  · rintro ⟨it', rb₂, herase', -, hn⟩
    obtain ⟨rfl, rfl⟩ := Prod.mk.inj (Except.ok.inj (herase.symm.trans herase'))
    exact hnext.mp hn
  · intro hsafe
    exact ⟨a, rb', herase, finds_of_inv ho I' M', hnext.mpr hsafe⟩

/-- **An erase returns the iterator at the next key** if and only if the node has a right child or
no left child, in every state of a run. -/
theorem erasesToNext_iff_of_proper [DecidableEq K] (ho : StrictOrder compare) (dummy : RBnode K V)
    (ops : List (Op K V)) (h : Proper compare (create dummy) ops) :
    Throughout compare (fun rb m => ∀ it k v, rb.readIter it = .ok (some (k, v)) →
        (ErasesToNext compare rb m it k ↔ ¬ OnlyLeft rb it))
      (create dummy) (fun _ => none) ops := by
  refine throughout_of_inv ho (fun rb t m I M it k v hread => ?_) (inv_create compare dummy)
    maps_nil h
  have hit : it ≠ nil := by
    rintro rfl
    cases hread
  have hlive : rb.node it ≠ none := by
    intro hnone
    rw [readIter, if_neg hit, iterGetFirst, get, hnone] at hread
    cases hread
  have hmem : it ∈ addrs t := by
    by_contra hm
    exact hlive (I.live it hit hm)
  obtain ⟨x, hx, rfl⟩ := List.mem_map.mp hmem
  rw [(readIter_of_mem I hx).2] at hread
  obtain ⟨rfl, rfl⟩ := Prod.mk.inj (Option.some.inj (Except.ok.inj hread))
  exact erasesToNext_iff ho I M hx

/-- An erase of a leaf, and of a node with two children. -/
theorem erasesToNext_three_keys :
    Throughout compareNat (fun rb m => ∀ it k v, rb.readIter it = .ok (some (k, v)) →
        (ErasesToNext compareNat rb m it k ↔ ¬ OnlyLeft rb it))
      (create ⟨7, 8, 9, .red, 0, 0⟩ : RBtree ℕ ℕ) (fun _ => none)
      [.insert 5 50, .insert 2 20, .insert 8 80, .erase 1, .erase 2] :=
  erasesToNext_iff_of_proper strictOrder_compareNat _ _ (by decide +kernel)

/-- The key 5 over the key 2: the erase of 5 returns an iterator at 2. -/
theorem not_erasesToNext_only_left :
    Proper compareNat (create ⟨7, 8, 9, .red, 0, 0⟩ : RBtree ℕ ℕ) [.insert 5 50, .insert 2 20] ∧
      ¬ Throughout compareNat (fun rb m => ∀ it k v, rb.readIter it = .ok (some (k, v)) →
          ErasesToNext compareNat rb m it k)
        (create ⟨7, 8, 9, .red, 0, 0⟩ : RBtree ℕ ℕ) (fun _ => none)
        [.insert 5 50, .insert 2 20] := by
  refine ⟨by decide +kernel, fun h => ?_⟩
  obtain ⟨rb, m, hrun, hP⟩ := h.last
  have hread : (do
      let rb ← [Op.insert 5 50, .insert 2 20].foldlM
        (fun rb op => do return (← step compareNat rb op).2) (create ⟨7, 8, 9, .red, 0, 0⟩)
      rb.readIter 1) = .ok (some (5, 50)) := by decide +kernel
  have hreturn : (do
      let rb ← [Op.insert 5 50, .insert 2 20].foldlM
        (fun rb op => do return (← step compareNat rb op).2) (create ⟨7, 8, 9, .red, 0, 0⟩)
      let next ← rb.RBtreeErase compareNat 1
      next.2.readIter next.1) = .ok (some (2, 20)) := by decide +kernel
  rw [hrun, Exec.ok_bind] at hread hreturn
  obtain ⟨it, rb', herase, -, hnext⟩ := hP 1 5 50 hread
  rw [herase, Exec.ok_bind] at hreturn
  rcases hnext with ⟨hend, -⟩ | ⟨k', v', -, hread', -, hlt, -⟩
  · obtain rfl : it = nil := mapIterEqual_iff.mp hend
    cases hreturn
  · rw [hreturn] at hread'
    obtain ⟨rfl, rfl⟩ := Prod.mk.inj (Option.some.inj (Except.ok.inj hread'))
    exact absurd hlt (by decide)

end Kendylib.RBtree
