import Kendylib.Container.RBtreeDelete

/-!
# Runs of the red-black tree

Sequences of calls through the interface of `src/map.c`, from an empty tree. A delete or an erase is
made on a tree that is not empty, and an iterator is used while its node is in memory; nothing else
is asked of the caller.

* In every state of a run the tree is a valid red-black tree (`valid_of_proper`).
* Every call answers like a finite map from keys to values (`answers_of_proper`).
-/

namespace Kendylib.RBtree

open Tree

variable {K V : Type} {compare : K → K → Int} {rb : RBtree K V} {t t' : Tree (Entry K V)}

/-- A call; iterators are given by the node they point at. -/
inductive Op (K V : Type)
  | insert (key : K) (val : V)
  | delete (key : K)
  | erase (it : Addr)
  | find (key : K)
  | setSecond (it : Addr) (val : V)
  | size
  | empty

/-- What a call returns. An iterator comes with the key and the value it holds, unless it is the
end. -/
inductive Answer (K V : Type)
  | iter (it : Addr) (held : Option (K × V))
  | unit
  | number (n : ℕ)
  | flag (b : Bool)

/-- One call. -/
def step (compare : K → K → Int) (rb : RBtree K V) : Op K V → Exec (Answer K V × RBtree K V)
  | .insert key val => do
    let (it, rb) ← rb.RBtreeInsert compare key val
    return (.iter it (← rb.readIter it), rb)
  | .delete key => do return (.unit, ← rb.RBtreeDelete compare key)
  | .erase it => do
    let (_, rb) ← rb.RBtreeErase compare it
    return (.unit, rb)
  | .find key => do
    let it ← rb.RBtreeFind compare key
    return (.iter it (← rb.readIter it), rb)
  | .setSecond it val => do return (.unit, ← rb.iterSetSecond it val)
  | .size => .ok (.number rb.RBtreeSize, rb)
  | .empty => .ok (.flag rb.RBtreeEmpty, rb)

/-- The call may be made. -/
def Allowed (rb : RBtree K V) : Op K V → Prop
  | .delete _ => rb.root ≠ nil
  | .erase it => rb.root ≠ nil ∧ (rb.node it).isSome
  | .setSecond it _ => it ≠ nil ∧ (rb.node it).isSome
  | _ => True

instance (rb : RBtree K V) (op : Op K V) : Decidable (Allowed rb op) := by
  cases op <;> unfold Allowed <;> infer_instance

/-- Every call of the run may be made in the state it is made in. -/
def Proper (compare : K → K → Int) : RBtree K V → List (Op K V) → Prop
  | _, [] => True
  | rb, op :: ops => Allowed rb op ∧
    match step compare rb op with
    | .ok (_, rb') => Proper compare rb' ops
    | .error _ => True

instance decidableProper (compare : K → K → Int) :
    (rb : RBtree K V) → (ops : List (Op K V)) → Decidable (Proper compare rb ops)
  | _, [] => .isTrue trivial
  | rb, op :: ops =>
    match h : step compare rb op with
    | .ok (_, rb') =>
      have := decidableProper compare rb' ops
      decidable_of_iff (Allowed rb op ∧ Proper compare rb' ops) (by simp [Proper, h])
    | .error _ => decidable_of_iff (Allowed rb op) (by simp [Proper, h])

/-! ## The specification -/

/-- A valid red-black tree: the nodes reached from the root are those of a tree `t` whose links all
have their parent links, the parent of the root being the sentinel (`Inv.holds`); the sentinel and
the root are black, no red node has a red child and all paths have the same number of black nodes
(`Inv.redBlack`); the keys are strictly increasing from left to right; `size` counts the nodes. -/
def Valid (compare : K → K → Int) (rb : RBtree K V) : Prop := ∃ t, Inv compare rb t

/-- Every call of the run returns, and `P` holds of every state. -/
def Always (compare : K → K → Int) (P : RBtree K V → Prop) : RBtree K V → List (Op K V) → Prop
  | rb, [] => P rb
  | rb, op :: ops => P rb ∧
    ∃ a rb', step compare rb op = .ok (a, rb') ∧ Always compare P rb' ops

section Spec

variable [DecidableEq K]

/-- The answer of a finite map, and the map after the call. A call that changes nothing leaves the
tree itself as it was. -/
def Answers (rb : RBtree K V) (m : K → Option V) :
    Op K V → Answer K V → RBtree K V → (K → Option V) → Prop
  | .insert k v, a, rb', m' =>
    (m k ≠ none ∧ a = .iter nil none ∧ rb' = rb ∧ m' = m) ∨
      (m k = none ∧ (∃ it ≠ nil, a = .iter it (some (k, v))) ∧ m' = Function.update m k (some v))
  | .delete k, a, rb', m' =>
    a = .unit ∧ (m k = none → rb' = rb) ∧ m' = Function.update m k none
  | .erase it, a, _, m' =>
    a = .unit ∧ ∃ k, rb.iterGetFirst it = .ok k ∧ m' = Function.update m k none
  | .find k, a, rb', m' =>
    (m k = none ∧ a = .iter nil none ∨ ∃ v, m k = some v ∧ ∃ it ≠ nil, a = .iter it (some (k, v))) ∧
      rb' = rb ∧ m' = m
  | .setSecond it v, a, _, m' =>
    a = .unit ∧ ∃ k, rb.iterGetFirst it = .ok k ∧ m k ≠ none ∧ m' = Function.update m k (some v)
  | .size, a, rb', m' => a = .number {k | m k ≠ none}.ncard ∧ rb' = rb ∧ m' = m
  | .empty, a, rb', m' => (∃ b, a = .flag b ∧ (b = true ↔ ∀ k, m k = none)) ∧ rb' = rb ∧ m' = m

/-- Every call of the run returns, with the answer of a finite map. -/
def Meets (compare : K → K → Int) : RBtree K V → (K → Option V) → List (Op K V) → Prop
  | _, _, [] => True
  | rb, m, op :: ops => ∃ a rb' m', step compare rb op = .ok (a, rb') ∧ Answers rb m op a rb' m' ∧
    Meets compare rb' m' ops

/-! ## The map of a tree -/

/-- The finite map of a list of keys and values. -/
def Maps (xs : List (K × V)) (m : K → Option V) : Prop := ∀ k v, m k = some v ↔ (k, v) ∈ xs

variable {m : K → Option V} {P Q : List (K × V)} {k : K} {v : V}

omit [DecidableEq K] in
theorem Maps.eq_none {xs : List (K × V)} (h : Maps xs m) : m k = none ↔ ∀ v, (k, v) ∉ xs := by
  rw [Option.eq_none_iff_forall_ne_some]
  exact forall_congr' fun v => not_congr (h k v)

omit [DecidableEq K] in
/-- No key is twice in the list. -/
theorem Sorted.unique (ho : StrictOrder compare) (hs : Sorted compare (P ++ (k, v) :: Q)) (w : V) :
    (k, w) ∉ P ++ Q := by
  obtain ⟨-, hq, hpq⟩ := List.pairwise_append.mp hs
  intro hm
  rcases List.mem_append.mp hm with hm | hm
  · exact compare_self ho k (hpq (k, w) hm (k, v) List.mem_cons_self)
  · exact compare_self ho k ((List.pairwise_cons.mp hq).1 (k, w) hm)

/-- A key put in the list. -/
theorem Maps.put (h : Maps (P ++ Q) m) : (∀ w, (k, w) ∉ P ++ Q) →
    Maps (P ++ (k, v) :: Q) (Function.update m k (some v)) := by
  intro hk k' v'
  rw [Function.update_apply]
  split_ifs with heq
  · subst heq
    have := hk v'
    simp only [List.mem_append, not_or] at this
    simp [this, eq_comm]
  · rw [h k' v']
    simp [heq]

/-- A key taken off the list. -/
theorem Maps.drop (h : Maps (P ++ (k, v) :: Q) m) (hk : ∀ w, (k, w) ∉ P ++ Q) :
    Maps (P ++ Q) (Function.update m k none) := by
  intro k' v'
  rw [Function.update_apply]
  split_ifs with heq
  · subst heq
    simpa using hk v'
  · rw [h k' v']
    simp [heq]

omit [DecidableEq K] in
/-- The number of keys. -/
theorem Maps.ncard (ho : StrictOrder compare) {xs : List (K × V)} (hs : Sorted compare xs)
    (h : Maps xs m) : {k | m k ≠ none}.ncard = xs.length := by
  classical
  have hnodup : (xs.map Prod.fst).Nodup := by
    rw [List.Nodup, List.pairwise_map]
    refine hs.imp fun {a b} hab heq => ?_
    rw [heq] at hab
    exact compare_self ho _ hab
  have hset : {k | m k ≠ none} = ((xs.map Prod.fst).toFinset : Set K) := by
    ext k
    simp only [Set.mem_ofPred_eq, List.coe_toFinset, List.mem_map]
    rw [Option.ne_none_iff_exists']
    constructor
    · rintro ⟨v, hv⟩
      exact ⟨(k, v), (h k v).mp hv, rfl⟩
    · rintro ⟨⟨k', v⟩, hm, rfl⟩
      exact ⟨v, (h k' v).mpr hm⟩
  rw [hset, Set.ncard_coe_finset, List.toFinset_card_of_nodup hnodup, List.length_map]

/-! ## Runs -/

/-- A delete takes the key off the map. -/
theorem rbDelete_maps (ho : StrictOrder compare) (I : Inv compare rb t) (M : Maps (data t.toList) m)
    (hne : rb.root ≠ nil) (k : K) (wantSucc : Bool) :
    ∃ a rb' t', rb.rbDelete compare k wantSucc = .ok (a, rb') ∧ (m k = none → rb' = rb) ∧
      Inv compare rb' t' ∧ Maps (data t'.toList) (Function.update m k none) := by
  rcases rbDelete_spec ho I hne k wantSucc with
    ⟨a, rb', t', v, P, Q, hdel, I', hdata, hdata'⟩ | ⟨habs, hdel⟩
  · refine ⟨a, rb', t', hdel, fun hk => ?_, I', ?_⟩
    · exact absurd (hdata ▸ List.mem_append_right _ List.mem_cons_self) (M.eq_none.mp hk v)
    · rw [hdata']
      exact (hdata ▸ M).drop ((hdata ▸ I.sorted).unique ho)
  · have hk : m k = none := M.eq_none.mpr habs
    refine ⟨none, rb, t, hdel, fun _ => rfl, I, ?_⟩
    rwa [← hk, Function.update_eq_self]

/-- **One call** that may be made answers like the finite map. -/
theorem step_spec (ho : StrictOrder compare) (I : Inv compare rb t) (M : Maps (data t.toList) m)
    {op : Op K V} (hop : Allowed rb op) :
    ∃ a rb' t' m', step compare rb op = .ok (a, rb') ∧ Answers rb m op a rb' m' ∧
      Inv compare rb' t' ∧ Maps (data t'.toList) m' := by
  cases op with
  | insert k v =>
    rcases RBtreeInsert_spec ho I k v with
      ⟨⟨w, hw⟩, hins⟩ | ⟨habs, x, rb', t', P, Q, hins, hx, rfl, rfl, I', hdata, hdata'⟩
    · refine ⟨.iter nil none, rb, t, m, by rw [step, hins]; rfl, .inl ⟨?_, rfl, rfl, rfl⟩, I, M⟩
      rw [(M k w).mpr hw]
      exact Option.some_ne_none w
    · obtain ⟨hn, hread⟩ := readIter_of_mem I' hx
      refine ⟨_, rb', t', Function.update m x.key (some x.val), ?_,
        .inr ⟨M.eq_none.mpr habs, ⟨x.addr, hn, rfl⟩, rfl⟩, I', ?_⟩
      · simp only [step, hins, Exec.ok_bind, hread]
        rfl
      · rw [hdata']
        exact (hdata ▸ M).put (hdata ▸ habs)
  | delete k =>
    obtain ⟨a, rb', t', hdel, hsame, I', M'⟩ := rbDelete_maps ho I M hop k false
    exact ⟨.unit, rb', t', _, by rw [step, RBtreeDelete, hdel]; rfl, ⟨rfl, hsame, rfl⟩, I', M'⟩
  | erase it =>
    obtain ⟨hne, hlive⟩ := hop
    obtain ⟨n, hn⟩ := Option.isSome_iff_exists.mp hlive
    obtain ⟨a, rb', t', hdel, -, I', M'⟩ := rbDelete_maps ho I M hne n.key true
    refine ⟨.unit, rb', t', _, ?_, ⟨rfl, n.key, by rw [iterGetFirst, get_eq hn]; rfl, rfl⟩, I', M'⟩
    rw [step, RBtreeErase, get_eq hn, Exec.ok_bind, hdel]
    rfl
  | find k =>
    rcases RBtreeFind_spec ho I k with ⟨x, hx, rfl, hfind⟩ | ⟨habs, hfind⟩
    · obtain ⟨hn, hread⟩ := readIter_of_mem I hx
      refine ⟨_, rb, t, m, ?_, ⟨.inr ⟨x.val, (M _ _).mpr (List.mem_map.mpr ⟨x, hx, rfl⟩), x.addr, hn,
        rfl⟩, rfl, rfl⟩, I, M⟩
      rw [step, hfind, Exec.ok_bind, hread]
      rfl
    · refine ⟨.iter nil none, rb, t, m, ?_, ⟨.inl ⟨M.eq_none.mpr habs, rfl⟩, rfl, rfl⟩, I, M⟩
      rw [step, hfind]
      rfl
  | setSecond it v =>
    obtain ⟨hit, hlive⟩ := hop
    obtain ⟨x, hx, rfl, rb', t', P, Q, hset, I', hdata, hdata'⟩ :=
      iterSetSecond_spec I hit (Option.isSome_iff_ne_none.mp hlive) v
    obtain ⟨-, n, hn, hkey, -⟩ := I.holds.rep.node_of_mem hx
    refine ⟨.unit, rb', t', Function.update m x.key (some v), by rw [step, hset]; rfl,
      ⟨rfl, x.key, by rw [iterGetFirst, get_eq hn, ← hkey]; rfl, ?_, rfl⟩, I', ?_⟩
    · rw [(M _ x.val).mpr (List.mem_map.mpr ⟨x, hx, rfl⟩)]
      exact Option.some_ne_none _
    · have hu := (hdata ▸ I.sorted).unique ho
      have hput := ((hdata ▸ M).drop hu).put (v := v) hu
      rwa [hdata', ← Function.update_idem]
  | size =>
    refine ⟨_, rb, t, m, rfl, ⟨?_, rfl, rfl⟩, I, M⟩
    rw [M.ncard ho I.sorted, RBtreeSize, I.size, data, List.length_map]
  | empty =>
    refine ⟨_, rb, t, m, rfl, ⟨⟨_, rfl, ?_⟩, rfl, rfl⟩, I, M⟩
    rw [RBtreeEmpty, beq_iff_eq, I.size, List.length_eq_zero_iff]
    constructor
    · intro hnil k
      exact M.eq_none.mpr (by simp [hnil])
    · intro hnone
      refine List.eq_nil_iff_forall_not_mem.mpr fun x hx => ?_
      exact M.eq_none.mp (hnone x.key) x.val (List.mem_map.mpr ⟨x, hx, rfl⟩)

theorem meets_of_inv (ho : StrictOrder compare) {ops : List (Op K V)} (I : Inv compare rb t)
    (M : Maps (data t.toList) m) (h : Proper compare rb ops) : Meets compare rb m ops := by
  induction ops generalizing rb t m with
  | nil => trivial
  | cons op ops ih =>
    obtain ⟨hop, hrest⟩ := h
    obtain ⟨a, rb', t', m', hstep, hans, I', M'⟩ := step_spec ho I M hop
    rw [hstep] at hrest
    exact ⟨a, rb', m', hstep, hans, ih I' M' hrest⟩

end Spec

theorem always_valid_of_inv (ho : StrictOrder compare) {m : K → Option V} {ops : List (Op K V)}
    (I : Inv compare rb t) (M : Maps (data t.toList) m) (h : Proper compare rb ops) :
    Always compare (Valid compare) rb ops := by
  classical
  induction ops generalizing rb t m with
  | nil => exact ⟨t, I⟩
  | cons op ops ih =>
    obtain ⟨hop, hrest⟩ := h
    obtain ⟨a, rb', t', m', hstep, -, I', M'⟩ := step_spec ho I M hop
    rw [hstep] at hrest
    exact ⟨⟨t, I⟩, a, rb', hstep, ih I' M' hrest⟩

theorem maps_nil : Maps (data (leaf : Tree (Entry K V)).toList) (fun _ => none) := by
  simp [Maps, toList]

/-- **The tree is a valid red-black tree in every state of a run.** -/
theorem valid_of_proper (ho : StrictOrder compare) (dummy : RBnode K V) (ops : List (Op K V))
    (h : Proper compare (create dummy) ops) :
    Always compare (Valid compare) (create dummy) ops :=
  always_valid_of_inv ho (inv_create compare dummy) maps_nil h

/-- The order of the natural numbers, as a comparison function. -/
def compareNat (a b : ℕ) : Int := if a < b then -1 else if a = b then 0 else 1

theorem strictOrder_compareNat : StrictOrder compareNat where
  range a b := by unfold compareNat; split_ifs <;> simp
  eq a b := by unfold compareNat; split_ifs <;> simp <;> omega
  flip a b := by unfold compareNat; split_ifs <;> simp <;> omega
  trans a b c := by unfold compareNat; split_ifs <;> simp <;> omega

/-- Seven keys, and deletes of an inner node, of the root and of a leaf. -/
theorem valid_seven_keys :
    Always compareNat (Valid compareNat) (create ⟨7, 8, 9, .red, 0, 0⟩ : RBtree ℕ ℕ)
      [.insert 5 50, .insert 2 20, .insert 8 80, .insert 1 10, .insert 3 30, .insert 9 90,
        .insert 4 40, .delete 2, .delete 5, .erase 1, .delete 1, .delete 6] :=
  valid_of_proper strictOrder_compareNat _ _ (by decide +kernel)

/-- **The tree answers like a finite map in every run.** -/
theorem answers_of_proper [DecidableEq K] (ho : StrictOrder compare) (dummy : RBnode K V)
    (ops : List (Op K V)) (h : Proper compare (create dummy) ops) :
    Meets compare (create dummy) (fun _ => none) ops :=
  meets_of_inv ho (inv_create compare dummy) maps_nil h

/-- A run with keys found, set, refused, deleted and erased. -/
theorem answers_five_keys :
    Meets compareNat (create ⟨7, 8, 9, .red, 0, 0⟩ : RBtree ℕ ℕ) (fun _ => none)
      [.insert 5 50, .insert 2 20, .insert 8 80, .insert 2 21, .find 2, .setSecond 2 22, .find 2,
        .insert 1 10, .insert 3 30, .size, .delete 2, .find 3, .erase 1, .delete 7, .find 5, .empty] :=
  answers_of_proper strictOrder_compareNat _ _ (by decide +kernel)

end Kendylib.RBtree
