import Kendylib.Container.RBtreeRuns

/-!
# The fields of the sentinel

`RBtree_create` paints the sentinel black and leaves its links and its key as `malloc` returned
them. Two trees that differ in these fields only go on to do so, and the calls made on them return
the same (`sameRuns_of_sparing`). The code writes the fields in many places. It reads the parent
after it has set it, and the left link when the root is unlinked, to choose which of the sentinel's
own links it writes. What it reads matters to a caller in two places only: `RBtree_begin` and
`RBtree_delete` on an empty tree.
-/

namespace Kendylib.RBtree

open Tree

variable {K V : Type} {rb rb' r r' : RBtree K V} {ctx : List (Frame (Entry K V))}
  {t u w : Tree (Entry K V)} {x y : Entry K V} {s s' : Side} {c : Color} {n p a b : Addr} {key : K}
  {compare : K → K → Int}

/-- The trees are the same but for the links, the key and the value of the sentinel. -/
structure SameTree (rb rb' : RBtree K V) : Prop where
  root : rb'.root = rb.root
  size : rb'.size = rb.size
  fresh : rb'.fresh = rb.fresh
  node : ∀ a, a ≠ nil → rb'.node a = rb.node a
  color : (rb'.node nil).map RBnode.color = (rb.node nil).map RBnode.color

theorem sameTree_create (d d' : RBnode K V) : SameTree (create d) (create d') := by
  refine ⟨rfl, rfl, rfl, fun a ha => ?_, by simp [create]⟩
  simp [create, ha]

/-! ## Reading and writing a node -/

theorem SameTree.get (A : SameTree rb rb') (ha : a ≠ nil) : rb'.get a = rb.get a := by
  rw [RBtree.get, RBtree.get, A.node a ha]

/-- The colour is the same also at the sentinel. -/
theorem SameTree.get_color (A : SameTree rb rb') (a : Addr) :
    Exec.Both (fun m m' => m.color = m'.color) (rb.get a) (rb'.get a) := by
  by_cases ha : a = nil
  · subst ha
    have hcolor := A.color
    rw [RBtree.get, RBtree.get]
    cases hm : rb.node nil with
    | none =>
      cases hm' : rb'.node nil with
      | none => exact rfl
      | some m' => simp [hm, hm'] at hcolor
    | some m =>
      cases hm' : rb'.node nil with
      | none => simp [hm, hm'] at hcolor
      | some m' =>
        simp only [hm, hm', Option.map_some, Option.some.injEq] at hcolor
        exact hcolor.symm
  · rw [A.get ha]
    exact (Exec.both_refl _).mono fun m m' h => congrArg RBnode.color h

/-- Overwriting the same node, in any way at the sentinel. -/
theorem SameTree.put (A : SameTree rb rb') (a : Addr) {m m' : RBnode K V}
    (hm : a ≠ nil → m = m') (hcolor : m.color = m'.color) : SameTree (rb.put a m) (rb'.put a m') := by
  refine ⟨A.root, A.size, A.fresh, fun b hb => ?_, ?_⟩
  · by_cases hba : b = a
    · subst hba
      rw [put_node_self, put_node_self, hm hb]
    · rw [put_node_of_ne hba, put_node_of_ne hba, A.node b hb]
  · by_cases ha : nil = a
    · rw [← ha, put_node_self, put_node_self, Option.map_some, Option.map_some, hcolor]
    · rw [put_node_of_ne ha, put_node_of_ne ha, A.color]

/-- A node is read, changed and written back. -/
theorem SameTree.modify (A : SameTree rb rb') (a : Addr) {f f' : RBnode K V → RBnode K V}
    (hf : a ≠ nil → f = f') (hcolor : ∀ m m', m.color = m'.color → (f m).color = (f' m').color) :
    Exec.Both SameTree (do return rb.put a (f (← rb.get a))) (do return rb'.put a (f' (← rb'.get a))) := by
  refine (A.get_color a).with_ok.bind fun m m' h => ?_
  obtain ⟨hm, hm', hc⟩ := h
  refine A.put a (fun ha => ?_) (hcolor m m' hc)
  rw [A.get ha, hm] at hm'
  rw [hf ha, Except.ok.inj hm']

theorem SameTree.setParent (A : SameTree rb rb') (a p : Addr) :
    Exec.Both SameTree (rb.setParent a p) (rb'.setParent a p) :=
  A.modify a (fun _ => rfl) fun _ _ h => h

theorem color_setChild (m : RBnode K V) (b : Addr) (s : Side) : (m.setChild b s).color = m.color := by
  cases s <;> rfl

/-- The side does not matter at the sentinel. -/
theorem SameTree.setChild (A : SameTree rb rb') (a b : Addr) (hs : a ≠ nil → s = s') :
    Exec.Both SameTree (RBtree.setChild s rb a b) (RBtree.setChild s' rb' a b) := by
  refine A.modify a
    (fun ha => by rw [hs ha]) fun m m' h => ?_
  rwa [color_setChild, color_setChild]

theorem SameTree.setColor (A : SameTree rb rb') (a : Addr) (c : Color) :
    Exec.Both SameTree (rb.setColor a c) (rb'.setColor a c) :=
  A.modify a (fun _ => rfl) fun _ _ _ => rfl

theorem SameTree.copyData (A : SameTree rb rb') (a : Addr) (key : K) (val : V) :
    Exec.Both SameTree (rb.copyData a key val) (rb'.copyData a key val) :=
  A.modify a (fun _ => rfl) fun _ _ h => h

theorem SameTree.free (A : SameTree rb rb') (a : Addr) :
    Exec.Both SameTree (rb.free a) (rb'.free a) := by
  refine (A.get_color a).bind fun _ _ _ => ?_
  refine ⟨A.root, A.size, A.fresh, fun b hb => ?_, ?_⟩
  · simp only [Function.update_apply, A.node b hb]
  · simp only [Function.update_apply]
    split_ifs
    · rfl
    · exact A.color

/-! ## Walking -/

theorem SameTree.extremeLoop (A : SameTree rb rb') (s : Side) (fuel : ℕ) (hn : n ≠ nil) :
    RBtree.extremeLoop s rb' fuel n = RBtree.extremeLoop s rb fuel n := by
  induction fuel generalizing n with
  | zero => rfl
  | succ fuel ih =>
    rw [RBtree.extremeLoop, RBtree.extremeLoop, A.get hn]
    cases rb.get n with
    | error f => rfl
    | ok m =>
      simp only [Exec.ok_bind]
      split_ifs with hm
      · exact ih hm
      · rfl

theorem SameTree.minimum (A : SameTree rb rb') (hn : n ≠ nil) : rb'.minimum n = rb.minimum n := by
  rw [RBtree.minimum, RBtree.minimum, A.size, A.extremeLoop _ _ hn]

theorem SameTree.maxmum (A : SameTree rb rb') (hn : n ≠ nil) : rb'.maxmum n = rb.maxmum n := by
  rw [RBtree.maxmum, RBtree.maxmum, A.size, A.extremeLoop _ _ hn]

theorem SameTree.successorLoop (A : SameTree rb rb') (fuel : ℕ) (n y : Addr) :
    RBtree.successorLoop rb' fuel n y = RBtree.successorLoop rb fuel n y := by
  induction fuel generalizing n y with
  | zero => rfl
  | succ fuel ih =>
    rw [RBtree.successorLoop, RBtree.successorLoop]
    by_cases hy : y = nil
    · rw [if_pos hy, if_pos hy]
    · rw [if_neg hy, if_neg hy, A.get hy]
      simp only [ih]

theorem SameTree.successor (A : SameTree rb rb') (hn : n ≠ nil) :
    rb'.successor n = rb.successor n := by
  rw [RBtree.successor, RBtree.successor, A.get hn, A.size]
  cases rb.get n with
  | error f => rfl
  | ok m =>
    simp only [Exec.ok_bind, A.successorLoop]
    split_ifs with hm
    · exact A.minimum hm
    · rfl

/-- **`RB_iter_next`** makes no step from the end. -/
theorem SameTree.RBIterNext (A : SameTree rb rb') (it : Addr) :
    rb'.RBIterNext it = rb.RBIterNext it := by
  rw [RBtree.RBIterNext, RBtree.RBIterNext]
  split_ifs with hit
  · rfl
  · exact A.successor hit

/-- **`RBtree_begin`** of a tree that is not empty. -/
theorem SameTree.RBtreeBegin (A : SameTree rb rb') (hne : rb.root ≠ nil) :
    rb'.RBtreeBegin = rb.RBtreeBegin := by
  rw [RBtree.RBtreeBegin, RBtree.RBtreeBegin, A.root, A.minimum hne]

theorem SameTree.readIter (A : SameTree rb rb') (it : Addr) :
    rb'.readIter it = rb.readIter it := by
  rw [RBtree.readIter, RBtree.readIter]
  split_ifs with hit
  · rfl
  · rw [iterGetFirst, iterGetSecond, iterGetFirst, iterGetSecond, A.get hit]

theorem SameTree.getDeleteNode (A : SameTree rb rb') (hn : n ≠ nil) :
    rb'.getDeleteNode n = rb.getDeleteNode n := by
  rw [RBtree.getDeleteNode, RBtree.getDeleteNode, A.get hn]
  cases rb.get n with
  | error f => rfl
  | ok m =>
    simp only [Exec.ok_bind]
    split_ifs with hleaf hright
    · rfl
    · exact A.minimum hright
    · exact A.maxmum fun hleft => hleaf ⟨hleft, not_not.mp hright⟩

theorem SameTree.findLoop (A : SameTree rb rb') (key : K) (fuel : ℕ) (cur pre : Addr) :
    RBtree.findLoop compare rb' key fuel cur pre = RBtree.findLoop compare rb key fuel cur pre := by
  induction fuel generalizing cur pre with
  | zero => rfl
  | succ fuel ih =>
    rw [RBtree.findLoop, RBtree.findLoop]
    by_cases hcur : cur = nil
    · rw [if_pos hcur, if_pos hcur]
    · rw [if_neg hcur, if_neg hcur, A.get hcur]
      simp only [ih]

theorem SameTree.find (A : SameTree rb rb') (key : K) :
    rb'.find compare key = rb.find compare key := by
  rw [RBtree.find, RBtree.find, A.root, A.size, A.findLoop]

/-- **`RBtree_find`**. -/
theorem SameTree.RBtreeFind (A : SameTree rb rb') (key : K) :
    rb'.RBtreeFind compare key = rb.RBtreeFind compare key := by
  rw [RBtree.RBtreeFind, RBtree.RBtreeFind, A.find]
  refine bind_congr fun n => ?_
  split_ifs with hn
  · rfl
  · rw [A.get hn]

/-! ## Rotating -/

/-- The parent that a node stores. -/
def parentAt (rb : RBtree K V) (a : Addr) : Option Addr := (rb.node a).map RBnode.parent

theorem SameTree.parentAt (A : SameTree rb rb') (ha : a ≠ nil) :
    rb'.parentAt a = rb.parentAt a := by
  rw [RBtree.parentAt, RBtree.parentAt, A.node a ha]

/-- A node of the tree: the sentinel is below none but the root. -/
structure Inside (rb : RBtree K V) (a : Addr) : Prop where
  ne_nil : a ≠ nil
  below : a ≠ rb.root → rb.parentAt a ≠ some nil

/-- The root and the parents are as they were. -/
structure Still (rb r : RBtree K V) : Prop where
  root : r.root = rb.root
  parentAt : ∀ a, r.parentAt a = rb.parentAt a

theorem Still.trans {r₁ r₂ : RBtree K V} (h₁ : Still rb r₁) (h₂ : Still r₁ r₂) : Still rb r₂ :=
  ⟨h₂.root.trans h₁.root, fun a => (h₂.parentAt a).trans (h₁.parentAt a)⟩

theorem Inside.still (h : Inside rb a) (hr : Still rb r) : Inside r a :=
  ⟨h.ne_nil, fun ha => by rw [hr.parentAt]; exact h.below (hr.root ▸ ha)⟩

theorem Holds.inside (h : Holds rb (plug ctx (join s c t x u))) : Inside rb x.addr := by
  refine ⟨h.ne_nil, fun hx => ?_⟩
  cases ctx with
  | nil => exact absurd (h.addr_eq_root.mpr rfl) (by rwa [addr_join])
  | cons f ctx =>
    rw [RBtree.parentAt, h.node_join, Option.map_some, cell_parent, parentAddr]
    exact fun hf => h.up.ne_nil (Option.some.inj hf)

theorem parentAt_put (rb : RBtree K V) (a b : Addr) (m : RBnode K V) :
    (rb.put a m).parentAt b = if b = a then some m.parent else rb.parentAt b := by
  rw [RBtree.parentAt, RBtree.parentAt]
  split_ifs with hb
  · rw [hb, put_node_self, Option.map_some]
  · rw [put_node_of_ne hb]

theorem node_eq {m : RBnode K V} (h : rb.get a = .ok m) : rb.node a = some m := by
  rw [RBtree.get] at h
  cases hn : rb.node a with
  | none => simp [hn] at h
  | some n => simpa [hn] using h

theorem still_put {m m' : RBnode K V} (hm : rb.get a = .ok m) (hp : m'.parent = m.parent) :
    Still rb (rb.put a m') := by
  refine ⟨rfl, fun b => ?_⟩
  rw [parentAt_put]
  split_ifs with hb
  · subst hb
    rw [RBtree.parentAt, node_eq hm, Option.map_some, hp]
  · rfl

theorem still_setColor (h : rb.setColor a c = .ok r) : Still rb r := by
  obtain ⟨m, hm, hr⟩ := Exec.bind_eq_ok.mp h
  cases hr
  exact still_put hm rfl

theorem parent_setChild (m : RBnode K V) (b : Addr) (s : Side) :
    (m.setChild b s).parent = m.parent := by
  cases s <;> rfl

theorem still_setChild (h : RBtree.setChild s rb a b = .ok r) : Still rb r := by
  obtain ⟨m, hm, hr⟩ := Exec.bind_eq_ok.mp h
  cases hr
  exact still_put hm (parent_setChild ..)

theorem still_copyData {val : V} (h : rb.copyData a key val = .ok r) : Still rb r := by
  obtain ⟨m, hm, hr⟩ := Exec.bind_eq_ok.mp h
  cases hr
  exact still_put hm rfl

theorem setParent_eq_ok (h : rb.setParent a p = .ok r) :
    r.root = rb.root ∧ r.parentAt a = some p := by
  obtain ⟨m, -, hr⟩ := Exec.bind_eq_ok.mp h
  cases hr
  exact ⟨rfl, by rw [parentAt_put, if_pos rfl]⟩

/-- The parent is looked at unless the node is the root. -/
theorem SameTree.replaceChild (A : SameTree rb rb') (hp : n ≠ rb.root → p ≠ nil) (b : Addr) :
    Exec.Both SameTree (rb.replaceChild p n b) (rb'.replaceChild p n b) := by
  rw [RBtree.replaceChild, RBtree.replaceChild, A.root]
  refine Exec.Both.ite Iff.rfl (fun _ => ?_) fun hn => ?_
  · exact ⟨rfl, A.size, A.fresh, A.node, A.color⟩
  · rw [A.get (hp hn)]
    refine Exec.Both.of_bind _ fun m _ => ?_
    exact Exec.Both.ite Iff.rfl (fun _ => A.setChild _ _ fun _ => rfl)
      fun _ => A.setChild _ _ fun _ => rfl

/-- **A rotation** writes the parent of the sentinel if the subtree in the middle is empty. -/
theorem SameTree.rotate (A : SameTree rb rb') (s : Side) (hn : Inside rb n) :
    Exec.Both SameTree (RBtree.rotate s rb n) (RBtree.rotate s rb' n) := by
  rw [RBtree.rotate, RBtree.rotate, A.get hn.ne_nil]
  refine Exec.Both.of_bind _ fun m hm => ?_
  refine Exec.Both.of_bind _ fun m₁ hm₁ => ?_
  obtain rfl := Except.ok.inj (hm.symm.trans hm₁)
  refine Exec.Both.ite Iff.rfl (fun _ => A) fun hup => ?_
  rw [A.get hup]
  refine Exec.Both.of_bind _ fun up _ => ?_
  refine (A.setChild n _ fun _ => rfl).with_ok.bind fun rb₁ rb₁' h₁ => ?_
  obtain ⟨hset₁, -, A₁⟩ := h₁
  rw [A₁.get hup]
  refine Exec.Both.of_bind _ fun up₁ _ => ?_
  refine (A₁.setParent _ n).with_ok.bind fun rb₂ rb₂' h₂ => ?_
  obtain ⟨hset₂, -, A₂⟩ := h₂
  -- the root is still the one that the node is compared with
  have hroot : rb₂.root = rb.root :=
    (setParent_eq_ok hset₂).1.trans (still_setChild hset₁).root
  have hparent : n ≠ rb₂.root → m.parent ≠ nil := by
    intro hne hp
    refine hn.below (hroot ▸ hne) ?_
    rw [RBtree.parentAt, node_eq hm, Option.map_some, hp]
  refine (A₂.replaceChild hparent _).bind fun rb₃ rb₃' A₃ => ?_
  refine (A₃.setParent _ _).bind fun rb₄ rb₄' A₄ => ?_
  refine (A₄.setParent _ _).bind fun rb₅ rb₅' A₅ => ?_
  exact A₅.setChild _ _ fun _ => rfl

/-! ## Inserting -/

/-- The parent of a node, read after something else was painted. -/
theorem Still.parent {m m' : RBnode K V} (hr : Still rb r) (hm : rb.get a = .ok m)
    (hm' : r.get a = .ok m') : m'.parent = m.parent := by
  have h := hr.parentAt a
  rw [RBtree.parentAt, RBtree.parentAt, node_eq hm, node_eq hm'] at h
  exact Option.some.inj h

theorem SameTree.colorFlip (A : SameTree rb rb') (hn : n ≠ nil) :
    Exec.Both SameTree (rb.colorFlip n) (rb'.colorFlip n) := by
  rw [RBtree.colorFlip, RBtree.colorFlip]
  refine (A.setColor n .red).bind fun rb₁ rb₁' A₁ => ?_
  rw [A₁.get hn]
  refine Exec.Both.of_bind _ fun m _ => ?_
  refine (A₁.setColor _ _).bind fun rb₂ rb₂' A₂ => ?_
  rw [A₂.get hn]
  exact Exec.Both.of_bind _ fun m _ => A₂.setColor _ _

/-- The node, its parent and its grandparent are none of them the sentinel. -/
theorem SameTree.liftParent {f g : Frame (Entry K V)} (A : SameTree rb rb') (s : Side)
    (h : Holds rb (plug (f :: g :: ctx) t)) (ht : t ≠ .leaf) :
    Exec.Both SameTree (RBtree.liftParent s rb (addr t)) (RBtree.liftParent s rb' (addr t)) := by
  obtain ⟨ct, l, x, r, rfl⟩ := exists_join .left ht
  rw [RBtree.liftParent, RBtree.liftParent, addr_join, A.get h.ne_nil, h.get_join, Exec.ok_bind,
    cell_parent]
  refine (A.setColor _ _).with_ok.bind fun rb₁ rb₁' h₁ => ?_
  obtain ⟨hset₁, -, A₁⟩ := h₁
  have hstill₁ := still_setColor hset₁
  rw [A₁.get h.ne_nil]
  refine Exec.Both.of_bind _ fun m hm => ?_
  rw [hstill₁.parent h.get_join hm, cell_parent, parentAddr, A₁.get h.up.ne_nil]
  refine Exec.Both.of_bind _ fun pm hpm => ?_
  rw [hstill₁.parent h.up.get_join hpm, cell_parent, parentAddr]
  refine (A₁.setColor _ _).with_ok.bind fun rb₂ rb₂' h₂ => ?_
  obtain ⟨hset₂, -, A₂⟩ := h₂
  exact A₂.rotate _ (h.up.up.inside.still (hstill₁.trans (still_setColor hset₂)))

/-- The results of the two runs of a round. -/
def SameStep (q q' : RBtree K V × Addr) : Prop := SameTree q.1 q'.1 ∧ q'.2 = q.2

/-- **A round of `insert_fix_up`** reads the colour of the uncle, which may be the sentinel. -/
theorem SameTree.insertRound {f g : Frame (Entry K V)} (A : SameTree rb rb')
    (h : Holds rb (plug (f :: g :: ctx) t)) (ht : t ≠ .leaf) :
    Exec.Both SameStep (RBtree.insertRound g.side rb (addr t) f.elt.addr g.elt.addr)
      (RBtree.insertRound g.side rb' (addr t) f.elt.addr g.elt.addr) := by
  rw [RBtree.insertRound, RBtree.insertRound, A.get h.up.up.ne_nil]
  refine Exec.Both.of_bind _ fun gm _ => ?_
  refine (A.get_color _).bind fun m m' hc => ?_
  refine Exec.Both.ite (by rw [hc]) (fun _ => ?_) fun _ => ?_
  · exact (A.colorFlip h.up.up.ne_nil).bind fun rb₁ rb₁' A₁ => ⟨A₁, rfl⟩
  · obtain ⟨fs, fc, fx, ft⟩ := f
    simp only at h ⊢
    have hp := h.up.ne_nil
    rw [outerGrandchild, outerGrandchild, A.get hp, h.up.get_join, Exec.ok_bind]
    rcases Side.eq_or_eq_other fs g.side with hfs | hfs
    · -- the node is on the outer side
      have hne : addr t ≠ addr ft := h.up.children_ne (.inl ht)
      simp only [hfs, cell_child_other, if_neg hne, Exec.pure_eq, Exec.ok_bind]
      exact (A.liftParent _ h ht).bind fun rb₁ rb₁' A₁ => ⟨A₁, rfl⟩
    · -- the node is on the inner side: its parent takes its place
      obtain ⟨tc, a, x, b, rfl⟩ := exists_join g.side ht
      have hturn : Holds rb (plug (g :: ctx) (join g.side fc ft fx (join g.side tc a x b))) := by
        rw [← join_other, ← hfs]
        exact h
      obtain ⟨rb₁, hrot, r₁⟩ := rotate_spec hturn
      obtain ⟨rb₁', hrot', A₁⟩ := (A.rotate g.side hturn.inside).of_ok hrot
      have hlift := A₁.liftParent g.side r₁.holds.down (join_ne_leaf _ _ _ _ _)
      rw [addr_join] at hlift
      simp only [hfs, cell_child, if_true, hrot, hrot', Exec.pure_eq, Exec.ok_bind]
      exact hlift.bind fun rb₂ rb₂' A₂ => ⟨A₂, rfl⟩

theorem SameTree.sideOf (A : SameTree rb rb') (n : Addr) (hp : p ≠ nil) :
    rb'.sideOf p n = rb.sideOf p n := by
  rw [RBtree.sideOf, RBtree.sideOf, A.get hp]

/-- **The loop of `insert_fix_up`.** -/
theorem SameTree.insertFixUpLoop {k : ℕ} (A : SameTree rb rb') (fuel : ℕ)
    (h : Holds rb (plug ctx t)) (hi : Inserting ctx t k) :
    Exec.Both SameTree (RBtree.insertFixUpLoop fuel rb (addr t))
      (RBtree.insertFixUpLoop fuel rb' (addr t)) := by
  induction fuel generalizing rb rb' ctx t k with
  | zero => exact rfl
  | succ fuel ih =>
    have ht := ne_leaf_of_red hi.red
    obtain ⟨tc, l, x, r, htj⟩ := exists_join .left ht
    have hn : addr t ≠ nil := fun hnil => ht (h.repFocus.addr_eq_nil.mp hnil)
    have hget : rb.get (addr t) = .ok (cell .left (parentAddr ctx) (addr l) (addr r) tc x) := by
      subst htj
      exact h.get_join
    rw [RBtree.insertFixUpLoop, RBtree.insertFixUpLoop, A.get hn, hget]
    simp only [Exec.ok_bind, cell_parent]
    refine (A.get_color _).with_ok.bind fun m m' hmm => ?_
    obtain ⟨hm, -, hc⟩ := hmm
    refine Exec.Both.ite (by rw [hc]) (fun hred => ?_) fun _ => A
    -- a red parent is not the root
    cases ctx with
    | nil =>
      obtain ⟨sm, hsm, hblack⟩ := h.sentinel
      obtain rfl := Option.some.inj ((node_eq hm).symm.trans hsm)
      rw [hred] at hblack
      cases hblack
    | cons f ctx =>
      obtain rfl := Except.ok.inj (h.up.get_join.symm.trans hm)
      rw [cell_color] at hred
      obtain ⟨-, htop, hne⟩ := hi.sound.2.2.1 hred
      cases ctx with
      | nil => exact absurd rfl hne
      | cons g ctx =>
        have hside := h.up.up.sideOf (.inl (join_ne_leaf _ _ _ _ _))
        rw [addr_join] at hside
        have hside' := (A.sideOf f.elt.addr h.up.up.ne_nil).trans hside
        obtain ⟨rb₁, ctx₁, t₁, n₁, hround, r₁, hi₁, -⟩ := insertRound_spec h hi hred htop
        obtain ⟨q, hround', A₁⟩ := (A.insertRound h ht).of_ok hround
        obtain ⟨A₁, hq⟩ := A₁
        rw [parentAddr, A.get h.up.ne_nil, h.up.get_join]
        simp only [Exec.ok_bind, cell_parent, parentAddr, hside, hside', hround, hround', hq]
        exact ih A₁ r₁.holds hi₁

theorem SameTree.insertFixUp {k : ℕ} (A : SameTree rb rb') (h : Holds rb (plug ctx t))
    (hi : Inserting ctx t k) :
    Exec.Both SameTree (rb.insertFixUp (addr t)) (rb'.insertFixUp (addr t)) := by
  rw [RBtree.insertFixUp, RBtree.insertFixUp, A.size]
  refine (A.insertFixUpLoop _ h hi).bind fun rb₁ rb₁' A₁ => ?_
  rw [A₁.root]
  exact A₁.setColor _ _

theorem SameTree.linkNode (A : SameTree rb rb') (x : Addr) (key : K) (val : V) :
    Exec.Both SameStep (rb.linkNode compare x key val) (rb'.linkNode compare x key val) := by
  have A₁ : SameTree (rb.createNode x key val).1 (rb'.createNode x key val).1 := by
    rw [createNode, createNode, A.fresh]
    have A₁ := A.put rb.fresh (m := ⟨x, nil, nil, .red, key, val⟩) (fun _ => rfl) rfl
    exact ⟨A₁.root, A₁.size, rfl, A₁.node, A₁.color⟩
  have hlink : Exec.Both SameTree (do
        if x = nil then return { (rb.createNode x key val).1 with root := rb.fresh }
        else if compare key (← (rb.createNode x key val).1.get x).key = -1 then
          (rb.createNode x key val).1.setChild .left x rb.fresh
        else (rb.createNode x key val).1.setChild .right x rb.fresh) (do
        if x = nil then return { (rb'.createNode x key val).1 with root := rb'.fresh }
        else if compare key (← (rb'.createNode x key val).1.get x).key = -1 then
          (rb'.createNode x key val).1.setChild .left x rb'.fresh
        else (rb'.createNode x key val).1.setChild .right x rb'.fresh) := by
    rw [A.fresh]
    refine Exec.Both.ite Iff.rfl (fun _ => ?_) fun hx => ?_
    · exact ⟨rfl, A₁.size, A₁.fresh, A₁.node, A₁.color⟩
    · rw [A₁.get hx]
      refine Exec.Both.of_bind _ fun m _ => ?_
      exact Exec.Both.ite Iff.rfl (fun _ => A₁.setChild _ _ fun _ => rfl)
        fun _ => A₁.setChild _ _ fun _ => rfl
  refine hlink.bind fun rb₂ rb₂' A₂ => ⟨?_, A.fresh⟩
  exact ⟨A₂.root, congrArg (· + 1) A₂.size, A₂.fresh, A₂.node, A₂.color⟩

/-! ## Repairing after a delete -/

theorem SameTree.blackSibling (A : SameTree rb rb') (s : Side) (hp : Inside rb p) :
    Exec.Both SameStep (RBtree.blackSibling s rb p) (RBtree.blackSibling s rb' p) := by
  rw [RBtree.blackSibling, RBtree.blackSibling, A.get hp.ne_nil]
  refine Exec.Both.of_bind _ fun m _ => ?_
  refine (A.get_color _).bind fun wm wm' hc => ?_
  refine Exec.Both.ite (by rw [hc]) (fun _ => ?_) fun _ => ⟨A, rfl⟩
  refine (A.setColor _ _).with_ok.bind fun rb₁ rb₁' h₁ => ?_
  obtain ⟨hset₁, -, A₁⟩ := h₁
  refine (A₁.setColor _ _).with_ok.bind fun rb₂ rb₂' h₂ => ?_
  obtain ⟨hset₂, -, A₂⟩ := h₂
  have hp₂ := hp.still ((still_setColor hset₁).trans (still_setColor hset₂))
  refine (A₂.rotate s hp₂).bind fun rb₃ rb₃' A₃ => ?_
  rw [A₃.get hp.ne_nil]
  exact Exec.Both.of_bind _ fun m _ => ⟨A₃, rfl⟩

/-- The children of the sibling may be the sentinel. -/
theorem SameTree.redNephew (A : SameTree rb rb') (s : Side) (hp : p ≠ nil) (hw : Inside rb n) :
    Exec.Both SameStep (RBtree.redNephew s rb p n) (RBtree.redNephew s rb' p n) := by
  rw [RBtree.redNephew, RBtree.redNephew, A.get hw.ne_nil]
  refine Exec.Both.of_bind _ fun m _ => ?_
  refine (A.get_color _).bind fun om om' hc => ?_
  refine Exec.Both.ite (by rw [hc]) (fun _ => ?_) fun _ => ⟨A, rfl⟩
  refine Exec.Both.of_bind _ fun m _ => ?_
  refine (A.get_color _).bind fun _ _ _ => ?_
  refine (A.setColor _ _).with_ok.bind fun rb₁ rb₁' h₁ => ?_
  obtain ⟨hset₁, -, A₁⟩ := h₁
  refine (A₁.rotate _ (hw.still (still_setColor hset₁))).bind fun rb₂ rb₂' A₂ => ?_
  rw [A₂.get hp]
  exact Exec.Both.of_bind _ fun m _ => ⟨A₂, rfl⟩

/-- A tree in memory does not use the fields of the sentinel. -/
theorem SameTree.holds (A : SameTree rb rb') (h : Holds rb t) : Holds rb' t := by
  refine ⟨A.root.trans h.root, h.rep.congr fun a ha => A.node a (h.rep.ne_nil ha), h.nodup, ?_, ?_,
    A.size ▸ h.size⟩
  · rw [A.fresh]
    exact h.fresh
  · obtain ⟨m, hm, hc⟩ := h.sentinel
    have hcolor := A.color
    rw [hm, Option.map_some] at hcolor
    obtain ⟨m', hm', hc'⟩ := Option.map_eq_some_iff.mp hcolor
    exact ⟨m', hm', hc'.trans hc⟩

/-- The sibling that comes up is a node, but its child may be the sentinel. -/
theorem SameTree.liftSibling (A : SameTree rb rb') (s : Side) (hp : Inside rb p) (hn : n ≠ nil) :
    Exec.Both SameTree (RBtree.liftSibling s rb p n) (RBtree.liftSibling s rb' p n) := by
  rw [RBtree.liftSibling, RBtree.liftSibling, A.get hp.ne_nil]
  refine Exec.Both.of_bind _ fun m _ => ?_
  refine (A.setColor _ _).with_ok.bind fun rb₁ rb₁' h₁ => ?_
  obtain ⟨hset₁, -, A₁⟩ := h₁
  refine (A₁.setColor _ _).with_ok.bind fun rb₂ rb₂' h₂ => ?_
  obtain ⟨hset₂, -, A₂⟩ := h₂
  rw [A₂.get hn]
  refine Exec.Both.of_bind _ fun m _ => ?_
  refine (A₂.setColor _ _).with_ok.bind fun rb₃ rb₃' h₃ => ?_
  obtain ⟨hset₃, -, A₃⟩ := h₃
  exact A₃.rotate s (hp.still (((still_setColor hset₁).trans (still_setColor hset₂)).trans
    (still_setColor hset₃)))

/-- **A round of `delete_fix_up`.** -/
theorem SameTree.deleteRound {f : Frame (Entry K V)} {k : ℕ} (A : SameTree rb rb')
    (h : Holds rb (plug (f :: ctx) t)) (hd : Deleting (f :: ctx) t k) :
    Exec.Both SameStep (RBtree.deleteRound f.side rb f.elt.addr)
      (RBtree.deleteRound f.side rb' f.elt.addr) := by
  obtain ⟨s, c, fx, w⟩ := f
  obtain ⟨rb₁, c', w', ctx', hsib, r₁, hw', hd₁, -⟩ := blackSibling_spec h hd
  obtain ⟨wc, a, wx, b, rfl⟩ := exists_join s (ne_leaf_of_balanced hd₁.sound.1)
  rw [color_join] at hw'
  subst hw'
  rw [addr_join] at hsib
  obtain ⟨q, hsib', A₁, hq⟩ := (A.blackSibling s h.up.inside).of_ok hsib
  obtain ⟨rb₁', w'⟩ := q
  simp only at A₁ hq
  subst hq
  have hw : Holds rb₁ (plug (⟨s.other, c', fx, t⟩ :: ctx') (join s .black a wx b)) :=
    r₁.holds.up.down_other
  simp only
  rw [deleteRound_eq hsib hw, deleteRound_eq hsib' (A₁.holds hw)]
  refine Exec.Both.ite Iff.rfl (fun _ => ?_) fun hboth => ?_
  · exact (A₁.setColor _ _).bind fun rb₂ rb₂' A₂ => ⟨A₂, rfl⟩
  · obtain ⟨rb₂, cw, a', wx', b', hneph, r₂, hb', -⟩ := redNephew_spec r₁.holds hd₁ hboth
    obtain ⟨q, hneph', A₂, hq⟩ := (A₁.redNephew s r₁.holds.up.ne_nil hw.inside).of_ok hneph
    obtain ⟨rb₂', w'⟩ := q
    simp only at A₂ hq
    subst hq
    rw [hneph, hneph', Exec.ok_bind, Exec.ok_bind]
    refine (A₂.liftSibling s r₂.holds.up.inside r₂.holds.up.down_other.ne_nil).bind
      fun rb₃ rb₃' A₃ => ⟨A₃, A₃.root⟩

/-- The trees are the same, and so is the parent read at the node `z`, which may be the sentinel. -/
structure SameFocus (z : Addr) (rb rb' : RBtree K V) : Prop where
  sameTree : SameTree rb rb'
  parent : rb'.parentAt z = rb.parentAt z

theorem SameTree.focus (A : SameTree rb rb') (ha : a ≠ nil) : SameFocus a rb rb' :=
  ⟨A, A.parentAt ha⟩

theorem SameFocus.deleteFixUpLoop {k : ℕ} (F : SameFocus (addr t) rb rb') (fuel : ℕ)
    (h : Holds rb (plug ctx t)) (hd : Deleting ctx t k)
    (hleaf : t = .leaf → ctx ≠ [] ∧ ∃ m, rb.node nil = some m ∧ m.parent = parentAddr ctx) :
    Exec.Both SameStep (RBtree.deleteFixUpLoop fuel rb (addr t))
      (RBtree.deleteFixUpLoop fuel rb' (addr t)) := by
  induction fuel generalizing rb rb' ctx t k with
  | zero => exact rfl
  | succ fuel ih =>
    have A := F.sameTree
    rw [RBtree.deleteFixUpLoop, RBtree.deleteFixUpLoop, A.root]
    refine Exec.Both.ite Iff.rfl (fun _ => ⟨A, rfl⟩) fun hroot => ?_
    refine (A.get_color _).with_ok.bind fun m m' hmm => ?_
    obtain ⟨hm, hm', hc⟩ := hmm
    refine Exec.Both.ite (by rw [hc]) (fun _ => ⟨A, rfl⟩) fun hblack => ?_
    cases ctx with
    | nil => exact absurd (h.addr_eq_root.mpr rfl) hroot
    | cons f ctx =>
      have hp : m.parent = f.elt.addr := parent_focus h (fun ht => (hleaf ht).2) hm
      have hp' : m'.parent = f.elt.addr := by
        have := F.parent
        rw [parentAt, parentAt, node_eq hm, node_eq hm', Option.map_some, Option.map_some, hp] at this
        exact Option.some.inj this
      have ht : t.color = .black := by
        obtain ⟨n, hn, hnc⟩ := h.get_color
        obtain rfl := Except.ok.inj (hn.symm.trans hm)
        rw [← hnc]
        cases hn : n.color with
        | red => exact absurd hn hblack
        | black => rfl
      have hside : rb.sideOf f.elt.addr (addr t) = .ok f.side :=
        h.up.sideOf (.inr (ne_leaf_of_balanced hd.sound.1))
      have hside' := (A.sideOf (addr t) h.up.ne_nil).trans hside
      obtain ⟨rb₁, ctx₁, t₁, n₁, hround, r₁, hne₁, hd₁, -⟩ := deleteRound_spec h hd ht
      obtain ⟨q, hround', A₁, hq⟩ := (A.deleteRound h hd).of_ok hround
      rw [hm, hm']
      simp only [Exec.ok_bind, hp, hp', hside, hside', hround, hround', hq]
      exact ih (A₁.focus fun hnil => hne₁ (r₁.holds.repFocus.addr_eq_nil.mp hnil)) r₁.holds hd₁
        fun hleaf => absurd hleaf hne₁

/-- **`delete_fix_up`** reads the parent of the sentinel, which `rb_delete` has set. -/
theorem SameFocus.deleteFixUp {k : ℕ} (F : SameFocus (addr t) rb rb') (h : Holds rb (plug ctx t))
    (hd : Deleting ctx t k)
    (hleaf : t = .leaf → ctx ≠ [] ∧ ∃ m, rb.node nil = some m ∧ m.parent = parentAddr ctx) :
    Exec.Both SameTree (rb.deleteFixUp (addr t)) (rb'.deleteFixUp (addr t)) := by
  rw [RBtree.deleteFixUp, RBtree.deleteFixUp, F.sameTree.size]
  refine (F.deleteFixUpLoop _ h hd hleaf).bind fun q q' hq => ?_
  obtain ⟨A₁, hz⟩ := hq
  simp only [hz]
  exact A₁.setColor _ _

/-! ## Deleting -/

/-- The side is taken from the sentinel's links if the node is the root. -/
theorem SameTree.sideOf_both (A : SameTree rb rb') (p n : Addr) :
    Exec.Both (fun s s' => p ≠ nil → s = s') (rb.sideOf p n) (rb'.sideOf p n) := by
  by_cases hp : p = nil
  · rw [RBtree.sideOf, RBtree.sideOf]
    refine (A.get_color p).bind fun m m' _ => ?_
    split_ifs <;> exact fun h => absurd hp h
  · rw [A.sideOf n hp]
    exact (Exec.both_refl _).mono fun _ _ h _ => h

/-- **Unlinking a node** sets the parent of the node, or of the sentinel, in its place. -/
theorem SameTree.unlink (A : SameTree rb rb') (hn : n ≠ nil) :
    Exec.Both (fun q q' => SameFocus q.2 q.1 q'.1 ∧ q'.2 = q.2) (rb.unlink n) (rb'.unlink n) := by
  rw [RBtree.unlink, RBtree.unlink, A.get hn]
  refine Exec.Both.of_bind _ fun m _ => ?_
  refine (A.sideOf_both _ _).bind fun s s' hs => ?_
  refine (A.setChild _ _ hs).bind fun rb₁ rb₁' A₁ => ?_
  refine (A₁.setParent _ _).with_ok.bind fun rb₂ rb₂' h₂ => ?_
  obtain ⟨hset, hset', A₂⟩ := h₂
  exact ⟨⟨A₂, (setParent_eq_ok hset').2.trans (setParent_eq_ok hset).2.symm⟩, rfl⟩

theorem unlink_root {z : Addr} (h : rb.unlink n = .ok (r, z)) : r.root = rb.root := by
  obtain ⟨m, -, h⟩ := Exec.bind_eq_ok.mp h
  obtain ⟨s, -, h⟩ := Exec.bind_eq_ok.mp h
  obtain ⟨rb₁, h₁, h⟩ := Exec.bind_eq_ok.mp h
  obtain ⟨rb₂, h₂, h⟩ := Exec.bind_eq_ok.mp h
  cases h
  exact (setParent_eq_ok h₂).1.trans (still_setChild h₁).root

/-- The data are moved from a node of the tree. -/
theorem SameFocus.moveData {z : Addr} (F : SameFocus z rb rb') (n : Addr) (ha : a ≠ nil) :
    Exec.Both (SameFocus z) (rb.moveData n a) (rb'.moveData n a) := by
  rw [RBtree.moveData, RBtree.moveData, F.sameTree.get ha]
  refine Exec.Both.ite Iff.rfl (fun _ => ?_) fun _ => F
  refine Exec.Both.of_bind _ fun m _ => Exec.Both.of_bind _ fun m' _ => ?_
  refine (F.sameTree.copyData n m.key m'.val).with_ok.mono fun r r' h => ?_
  obtain ⟨hr, hr', A⟩ := h
  refine ⟨A, ?_⟩
  rw [(still_copyData hr).parentAt, (still_copyData hr').parentAt, F.parent]

/-- The tree that `delete_fix_up` is to repair from `z`, after the node `n` was unlinked. -/
def Repairable (rb : RBtree K V) (n z : Addr) : Prop :=
  ∃ ctx t k, z = addr t ∧ Holds rb (plug ctx t) ∧
    (t = .leaf → ctx ≠ [] ∧ ∃ m, rb.node nil = some m ∧ m.parent = parentAddr ctx) ∧
    ∀ m, rb.node n = some m → m.color = .black → Deleting ctx t k

theorem SameFocus.retire {z : Addr} (F : SameFocus z rb rb') (hn : n ≠ nil)
    (hfix : n ≠ rb.root → Repairable rb n z) :
    Exec.Both SameTree (rb.retire n z) (rb'.retire n z) := by
  have A := F.sameTree
  have hrepair : Exec.Both SameTree
      (do if n ≠ rb.root ∧ (← rb.get n).color = .black then rb.deleteFixUp z else return rb)
      (do if n ≠ rb'.root ∧ (← rb'.get n).color = .black then rb'.deleteFixUp z else return rb') := by
    rw [A.get hn, A.root]
    refine Exec.Both.of_bind _ fun m hm => ?_
    refine Exec.Both.ite Iff.rfl (fun hblack => ?_) fun _ => A
    obtain ⟨ctx, t, k, rfl, h, hleaf, hd⟩ := hfix hblack.1
    exact F.deleteFixUp h (hd m (node_eq hm) hblack.2) hleaf
  refine hrepair.bind fun rb₁ rb₁' A₁ => ?_
  have A₂ : SameTree (if n = rb₁.root then { rb₁ with root := nil } else rb₁)
      (if n = rb₁'.root then { rb₁' with root := nil } else rb₁') := by
    rw [A₁.root]
    split_ifs
    · exact ⟨rfl, A₁.size, A₁.fresh, A₁.node, A₁.color⟩
    · exact A₁
  refine (A₂.free n).bind fun rb₃ rb₃' A₃ => ?_
  exact ⟨A₃.root, congrArg (· - 1) A₃.size, A₃.fresh, A₃.node, A₃.color⟩

/-- The part of `rb_delete` before the repair, at a node of the tree. -/
theorem remove_repairable (I : Inv compare rb (plug ctx (join .left c t x u))) :
    ∃ a rb₁ z rb₂, rb.getDeleteNode x.addr = .ok a ∧ a ≠ nil ∧ rb.unlink a = .ok (rb₁, z) ∧
      rb₁.moveData x.addr a = .ok rb₂ ∧ (a ≠ rb₂.root → Repairable rb₂ a z) := by
  have h := I.holds
  by_cases hleaf : t = .leaf ∧ u = .leaf
  · obtain ⟨rfl, rfl⟩ := hleaf
    have hget : rb.getDeleteNode x.addr = .ok x.addr := by
      simp only [RBtree.getDeleteNode, h.get_join, Exec.ok_bind]
      rfl
    cases ctx with
    | nil =>
      obtain ⟨rb₁, -, hun, -⟩ := unlink_retire_root h
      refine ⟨x.addr, rb₁, nil, rb₁, hget, h.ne_nil, hun, moveData_self .., fun hne => ?_⟩
      exact absurd (h.root.trans (addr_join ..)).symm (unlink_root hun ▸ hne)
    | cons f ctx =>
      obtain ⟨rb₁, hun, h₁, hnode, -, hnil⟩ := unlink_spec h
      obtain ⟨k, hb, hr, -, hs⟩ := sound_of_isRedBlack I.redBlack
      refine ⟨x.addr, rb₁, nil, rb₁, hget, h.ne_nil, hun, moveData_self .., fun _ =>
        ⟨f :: ctx, .leaf, 0, rfl, h₁, fun _ => ⟨by simp, hnil rfl⟩, fun m hm hblack => ?_⟩⟩
      obtain rfl := Option.some.inj (((hnode _ h.ne_nil (.inl rfl)).trans h.node_join).symm.trans hm)
      rw [cell_color] at hblack
      subst hblack
      exact deleting_of_unlinked hb hr hs
  · obtain ⟨s, o, path, d, y, u', hjoin, -, hget, -⟩ := getDeleteNode_spec h (not_and_or.mp hleaf)
    rw [hjoin] at h I
    obtain ⟨rb₁, rb₂, k, hun, hcopy, h₂, -, hm, hb, hr, hs, hnil, -⟩ :=
      moveNeighbour_spec h I.redBlack
    have hyn : y.addr ≠ nil := by
      rw [← plug_path] at h
      exact h.ne_nil
    refine ⟨y.addr, rb₁, addr u', rb₂, hget, hyn, hun, hcopy, fun _ =>
      ⟨_, u', 0, rfl, h₂, fun hu => ⟨by simp, hnil hu⟩, fun m' hm' hblack => ?_⟩⟩
    obtain ⟨m, hm, hmd⟩ := hm
    obtain rfl := Option.some.inj (hm.symm.trans hm')
    obtain rfl := hmd.symm.trans hblack
    exact deleting_of_unlinked hb hr hs

/-- **`RBtree_delete`** on a tree that is not empty. -/
theorem SameTree.RBtreeDelete (ho : StrictOrder compare) (A : SameTree rb rb')
    (I : Inv compare rb t) (hne : rb.root ≠ nil) (key : K) :
    Exec.Both SameTree (rb.RBtreeDelete compare key) (rb'.RBtreeDelete compare key) := by
  obtain ⟨ctx, t', a, hfind, rfl, hb, hcase⟩ := find_spec ho I.holds I.sorted key
  rw [RBtree.RBtreeDelete, RBtree.RBtreeDelete, rbDelete, rbDelete, A.find, hfind]
  rcases hcase with ⟨rfl, rfl⟩ | ⟨c, l, x, r, rfl, rfl, rfl⟩
  · -- the key is not in the tree
    cases ctx with
    | nil => exact absurd I.holds.root hne
    | cons f ctx =>
      have hp := I.holds.up.ne_nil
      have hget := I.holds.up.get_join
      simp only [parentAddr, Exec.ok_bind, A.get hp, hget, cell_key, if_neg (hb.compare_ne ho)]
      exact A
  · have I' : Inv compare rb (plug ctx (join .left c l x r)) := I
    have hx := I'.holds.ne_nil
    obtain ⟨a, rb₁, z, rb₂, hget, ha, hun, hcopy, hfix⟩ := remove_repairable I'
    obtain ⟨q, hun', F₁, hz⟩ := (A.unlink ha).of_ok hun
    obtain ⟨rb₁', z'⟩ := q
    simp only at F₁ hz
    subst hz
    obtain ⟨rb₂', hcopy', F₂⟩ := (F₁.moveData x.addr ha).of_ok hcopy
    have hretire := F₂.retire ha hfix
    rw [RBtree.moveData] at hcopy hcopy'
    simp only [Exec.ok_bind, A.get hx, I'.holds.get_join, cell_key, if_pos ((ho.eq _ _).mpr rfl),
      A.getDeleteNode hx, hget, hun, hun', Bool.false_eq_true, if_false, pure_bind, hcopy, hcopy',
      bind_assoc]
    exact hretire.bind fun rb₃ rb₃' A₃ => A₃

/-- **`RBtree_insert`**. -/
theorem SameTree.RBtreeInsert (ho : StrictOrder compare) (A : SameTree rb rb')
    (I : Inv compare rb t) (key : K) (val : V) :
    Exec.Both (fun q q' => q'.1 = q.1 ∧ SameTree q.2 q'.2) (rb.RBtreeInsert compare key val)
      (rb'.RBtreeInsert compare key val) := by
  obtain ⟨ctx, t', a, hfind, rfl, hb, hcase⟩ := find_spec ho I.holds I.sorted key
  rw [RBtree.RBtreeInsert, RBtree.RBtreeInsert, A.find, hfind]
  have hfound : (do
      if a = nil then return false
      else return decide (compare key (← rb'.get a).key = 0) : Exec Bool) = (do
      if a = nil then return false else return decide (compare key (← rb.get a).key = 0)) := by
    split_ifs with ha
    · rfl
    · rw [A.get ha]
  simp only [Exec.ok_bind, hfound]
  refine Exec.Both.of_bind _ fun found hf => ?_
  refine Exec.Both.ite Iff.rfl (fun _ => ⟨rfl, A⟩) fun hnot => ?_
  rcases hcase with ⟨rfl, rfl⟩ | ⟨c, l, x, r, rfl, rfl, rfl⟩
  · obtain ⟨rb₁, hlink, h₁, -⟩ := linkNode_spec ho I.holds hb val
    obtain ⟨q, hlink', A₁, hq⟩ := (A.linkNode _ key val).of_ok hlink
    obtain ⟨k, hk, -, -, hs⟩ := sound_of_isRedBlack I.redBlack
    have hi : Inserting ctx (join .left .red .leaf ⟨rb.fresh, key, val⟩ .leaf) k :=
      ⟨rfl, ⟨k, rfl, hk, hk⟩, ⟨fun _ => ⟨rfl, rfl⟩, trivial, trivial⟩, hs⟩
    have hfix := A₁.insertFixUp h₁ hi
    simp only [hlink, hlink', Exec.ok_bind, hq]
    exact hfix.bind fun rb₂ rb₂' A₂ => ⟨rfl, A₂⟩
  · -- a key in the tree is refused
    have h : Holds rb (plug ctx (join .left c l x r)) := I.holds
    rw [if_neg h.ne_nil, h.get_join, Exec.ok_bind, cell_key, (ho.eq _ _).mpr rfl] at hf
    cases hf
    exact absurd rfl hnot

/-! ## Runs -/

/-- A call; iterators are given by the node they point at. -/
inductive Call (K V : Type)
  | insert (key : K) (val : V)
  | delete (key : K)
  | find (key : K)
  | begin
  | next (it : Addr)
  | size
  | empty

/-- One call. -/
def call (compare : K → K → Int) (rb : RBtree K V) : Call K V → Exec (Answer K V × RBtree K V)
  | .insert key val => step compare rb (.insert key val)
  | .delete key => step compare rb (.delete key)
  | .find key => step compare rb (.find key)
  | .begin => do
    let it ← rb.RBtreeBegin
    return (.iter it (← rb.readIter it), rb)
  | .next it => do
    let it ← rb.RBIterNext it
    return (.iter it (← rb.readIter it), rb)
  | .size => step compare rb .size
  | .empty => step compare rb .empty

/-- Two runs of the same calls: each call returns the same in both, or faults in the same way and
ends both, and the trees are the same before and after it. -/
def SameRuns (compare : K → K → Int) : RBtree K V → RBtree K V → List (Call K V) → Prop
  | rb, rb', [] => SameTree rb rb'
  | rb, rb', op :: ops => SameTree rb rb' ∧
    Exec.Both (fun q q' => q'.1 = q.1 ∧ SameRuns compare q.2 q'.2 ops) (call compare rb op)
      (call compare rb' op)

/-- The call is no delete from an empty tree and does not ask for its beginning. -/
def Spares (rb : RBtree K V) : Call K V → Prop
  | .delete _ => rb.RBtreeEmpty = false
  | .begin => rb.RBtreeEmpty = false
  | _ => True

instance (rb : RBtree K V) (op : Call K V) : Decidable (Spares rb op) := by
  cases op <;> unfold Spares <;> infer_instance

/-- Every call of the run spares the sentinel of the tree it is made on. -/
def Sparing (compare : K → K → Int) : RBtree K V → List (Call K V) → Prop
  | _, [] => True
  | rb, op :: ops => Spares rb op ∧
    match call compare rb op with
    | .ok (_, rb') => Sparing compare rb' ops
    | .error _ => True

instance decidableSparing (compare : K → K → Int) :
    (rb : RBtree K V) → (ops : List (Call K V)) → Decidable (Sparing compare rb ops)
  | _, [] => .isTrue trivial
  | rb, op :: ops =>
    match h : call compare rb op with
    | .ok (_, rb') =>
      have := decidableSparing compare rb' ops
      decidable_of_iff (Spares rb op ∧ Sparing compare rb' ops) (by simp [Sparing, h])
    | .error _ => decidable_of_iff (Spares rb op) (by simp [Sparing, h])

theorem Inv.root_ne_nil (I : Inv compare rb t) (hne : rb.RBtreeEmpty = false) : rb.root ≠ nil := by
  intro hroot
  obtain rfl := I.holds.rep.addr_eq_nil.mp (I.holds.root ▸ hroot)
  have hsize : rb.size = 0 := I.size
  rw [RBtreeEmpty, hsize] at hne
  cases hne

/-- The iterator that a call returns, with what it holds. -/
theorem SameTree.answer (A : SameTree rb rb') (it : Addr) :
    Exec.Both (fun q q' => q'.1 = q.1 ∧ SameTree q.2 q'.2)
      (do return (Answer.iter it (← rb.readIter it), rb))
      (do return (Answer.iter it (← rb'.readIter it), rb')) := by
  rw [A.readIter]
  exact Exec.Both.of_bind _ fun held _ => ⟨rfl, A⟩

/-- **One call** on the two trees. -/
theorem SameTree.call (ho : StrictOrder compare) (A : SameTree rb rb') (I : Inv compare rb t)
    {op : Call K V} (hop : Spares rb op) :
    Exec.Both (fun q q' => q'.1 = q.1 ∧ SameTree q.2 q'.2) (RBtree.call compare rb op)
      (RBtree.call compare rb' op) := by
  cases op with
  | insert key val =>
    refine (A.RBtreeInsert ho I key val).bind fun q q' hq => ?_
    obtain ⟨it, r⟩ := q
    obtain ⟨it', r'⟩ := q'
    obtain ⟨rfl, A'⟩ := hq
    exact A'.answer _
  | delete key =>
    exact (A.RBtreeDelete ho I (I.root_ne_nil hop) key).bind fun r r' A' => ⟨rfl, A'⟩
  | find key =>
    rw [RBtree.call, RBtree.call, step, step, A.RBtreeFind]
    exact Exec.Both.of_bind _ fun it _ => A.answer it
  | begin =>
    rw [RBtree.call, RBtree.call, A.RBtreeBegin (I.root_ne_nil hop)]
    exact Exec.Both.of_bind _ fun it _ => A.answer it
  | next it =>
    rw [RBtree.call, RBtree.call, A.RBIterNext]
    exact Exec.Both.of_bind _ fun it _ => A.answer it
  | size => exact ⟨congrArg Answer.number A.size, A⟩
  | empty =>
    refine ⟨congrArg Answer.flag ?_, A⟩
    rw [RBtreeEmpty, RBtreeEmpty, A.size]

/-- A call that does not change the tree. -/
theorem answer_eq_ok {it : Addr} {ans : Answer K V}
    (h : (do return (Answer.iter it (← rb.readIter it), rb)) = Except.ok (ε := Fault) (ans, r)) :
    r = rb := by
  obtain ⟨held, -, h⟩ := Exec.bind_eq_ok.mp h
  cases h
  rfl

theorem inv_call (ho : StrictOrder compare) (I : Inv compare rb t) {op : Call K V}
    (hop : Spares rb op) {ans : Answer K V} (h : RBtree.call compare rb op = .ok (ans, r)) :
    ∃ t', Inv compare r t' := by
  cases op with
  | insert key val =>
    obtain ⟨q, hins, h⟩ := Exec.bind_eq_ok.mp h
    obtain rfl := answer_eq_ok h
    rcases RBtreeInsert_spec ho I key val with ⟨-, hins'⟩ | ⟨-, x, rb', t', P, Q, hins', -, -, -, I', -⟩
    · cases hins.symm.trans hins'
      exact ⟨t, I⟩
    · cases hins.symm.trans hins'
      exact ⟨t', I'⟩
  | delete key =>
    obtain ⟨r', hdelete, h⟩ := Exec.bind_eq_ok.mp h
    cases h
    obtain ⟨q, hdel, h⟩ := Exec.bind_eq_ok.mp hdelete
    cases h
    rcases rbDelete_spec ho I (I.root_ne_nil hop) key false with
      ⟨a, rb', t', v, P, Q, hdel', I', -⟩ | ⟨-, hdel'⟩
    · cases hdel.symm.trans hdel'
      exact ⟨t', I'⟩
    · cases hdel.symm.trans hdel'
      exact ⟨t, I⟩
  | find key =>
    obtain ⟨it, -, h⟩ := Exec.bind_eq_ok.mp h
    exact ⟨t, answer_eq_ok h ▸ I⟩
  | begin =>
    obtain ⟨it, -, h⟩ := Exec.bind_eq_ok.mp h
    exact ⟨t, answer_eq_ok h ▸ I⟩
  | next it =>
    obtain ⟨it, -, h⟩ := Exec.bind_eq_ok.mp h
    exact ⟨t, answer_eq_ok h ▸ I⟩
  | size =>
    cases h
    exact ⟨t, I⟩
  | empty =>
    cases h
    exact ⟨t, I⟩

theorem sameRuns_of_inv (ho : StrictOrder compare) {ops : List (Call K V)} (A : SameTree rb rb')
    (I : Inv compare rb t) (h : Sparing compare rb ops) : SameRuns compare rb rb' ops := by
  induction ops generalizing rb rb' t with
  | nil => exact A
  | cons op ops ih =>
    obtain ⟨hop, hrest⟩ := h
    refine ⟨A, (A.call ho I hop).with_ok.mono fun q q' hq => ?_⟩
    obtain ⟨hcall, -, hans, A'⟩ := hq
    obtain ⟨t', I'⟩ := inv_call ho I hop hcall
    rw [hcall] at hrest
    exact ⟨hans, ih A' I' hrest⟩

/-- On a new tree any other call tells two contents of the sentinel apart. -/
theorem exists_not_sameRuns (ho : StrictOrder compare) (d : RBnode K V) {op : Call K V}
    (h : ¬ Spares (create d) op) :
    ∃ d₁ d₂ : RBnode K V, ¬ SameRuns compare (create d₁) (create d₂) [op] := by
  cases op with
  | begin =>
    refine ⟨{ d with left := nil }, { d with left := 1 }, fun hsame => ?_⟩
    have hboth := hsame.2
    have h₁ : call compare (create { d with left := nil }) .begin =
        .ok (.iter nil none, create { d with left := nil }) := by
      simp [call, RBtreeBegin, minimum, create, extremeLoop, get, RBnode.child, readIter, nil]
    have h₂ : call compare (create { d with left := 1 }) .begin = .error .fuel := by
      simp [call, RBtreeBegin, minimum, create, extremeLoop, get, RBnode.child, nil]
    rw [h₁, h₂] at hboth
    exact hboth
  | delete key =>
    have heq : compare key key = 0 := (ho.eq _ _).mpr rfl
    refine ⟨{ d with parent := nil, key := key, left := nil, right := nil },
      { d with parent := nil, key := key, left := 1, right := nil }, fun hsame => ?_⟩
    have hboth := hsame.2
    obtain ⟨q, h₁⟩ : ∃ q, call compare
        (create { d with parent := nil, key := key, left := nil, right := nil }) (.delete key) =
          .ok q := by
      simp [call, step, RBtreeDelete, rbDelete, find, create, get, heq, getDeleteNode, unlink, sideOf,
        RBtree.setChild, RBtree.setParent, put, retire, RBtree.free, nil, RBnode.setChild]
    have h₂ : call compare
        (create { d with parent := nil, key := key, left := 1, right := nil }) (.delete key) =
          .error .freed := by
      simp [call, step, RBtreeDelete, rbDelete, find, create, get, heq, getDeleteNode, maxmum,
        extremeLoop, nil]
    rw [h₁, h₂] at hboth
    exact hboth
  | insert => exact absurd trivial h
  | find => exact absurd trivial h
  | next => exact absurd trivial h
  | size => exact absurd trivial h
  | empty => exact absurd trivial h

/-- **What `malloc` left in the sentinel makes no difference** to a run without a delete from an
empty tree and without its beginning. -/
theorem sameRuns_of_sparing (ho : StrictOrder compare) (d d' : RBnode K V) (ops : List (Call K V))
    (h : Sparing compare (create d) ops) : SameRuns compare (create d) (create d') ops :=
  sameRuns_of_inv ho (sameTree_create d d') (inv_create compare d) h

/-- Keys are put in and taken out until the tree is empty again, under two contents of the
sentinel. -/
theorem sameRuns_five_keys :
    SameRuns compareNat (create ⟨7, 8, 9, .red, 0, 0⟩ : RBtree ℕ ℕ) (create ⟨1, 1, 2, .black, 5, 50⟩)
      [.empty, .find 5, .insert 5 50, .insert 2 20, .insert 8 80, .begin, .next 2, .insert 1 10,
        .insert 3 30, .size, .delete 2, .delete 9, .next 1, .next 0, .delete 5, .find 3, .delete 1,
        .delete 8, .delete 3, .empty, .find 3, .insert 4 40, .delete 4] :=
  sameRuns_of_sparing strictOrder_compareNat _ _ _ (by decide +kernel)

/-- On an empty tree `RBtree_delete` takes the sentinel for the node of its key, and frees it, and
`RBtree_begin` follows the left link of the sentinel. -/
theorem not_sameRuns_empty :
    ¬ SameRuns compareNat (create ⟨0, 0, 0, .red, 5, 50⟩ : RBtree ℕ ℕ) (create ⟨0, 0, 0, .red, 6, 50⟩)
        [.delete 5] ∧
      ¬ SameRuns compareNat (create ⟨0, 0, 0, .red, 5, 50⟩ : RBtree ℕ ℕ) (create ⟨0, 77, 0, .red, 5, 50⟩)
        [.begin] := by
  refine ⟨fun h => ?_, fun h => h.2⟩
  obtain ⟨-, hsame⟩ : _ ∧ _ := h.2
  have hcolor : some Color.black = none := hsame.color
  cases hcolor
end Kendylib.RBtree
