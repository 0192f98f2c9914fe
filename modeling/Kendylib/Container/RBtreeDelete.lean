import Kendylib.Container.RBtreeIter

/-!
# Deleting

A delete takes the key off the list of keys and values (`rbDelete_spec`): the node that is unlinked
is the node of the key, or a neighbour whose key and value are moved to it.
-/

namespace Kendylib.RBtree

open Tree

variable {K V : Type} {rb : RBtree K V} {ctx : List (Frame (Entry K V))}
  {t u w : Tree (Entry K V)} {x y : Entry K V} {s : Side} {c : Color} {n : ℕ} {key : K}
  {compare : K → K → Int}

/-! ## Unlinking -/

theorem cell_z (s : Side) (p a : Addr) (c : Color) (x : Entry K V) :
    (if (cell s p nil a c x).left ≠ nil then (cell s p nil a c x).left
      else (cell s p nil a c x).right) = a := by
  cases s with
  | left => simp [cell]
  | right =>
    change (if a ≠ nil then a else nil) = a
    by_cases ha : a = nil
    · rw [if_neg (not_not.mpr ha), ha]
    · rw [if_pos ha]

/-- **Unlinking a node** with at most one child, below another node. -/
theorem unlink_spec {f : Frame (Entry K V)}
    (h : Holds rb (plug (f :: ctx) (join s c .leaf y u))) :
    ∃ rb', rb.unlink y.addr = .ok (rb', addr u) ∧ Holds rb' (plug (f :: ctx) u) ∧
      (∀ a ≠ nil, a = y.addr ∨ a ∉ addrs (plug (f :: ctx) u) → rb'.node a = rb.node a) ∧
      rb'.size = rb.size ∧
      (u = .leaf → ∃ m, rb'.node nil = some m ∧ m.parent = f.elt.addr) := by
  obtain ⟨hyn, hycell, -, hu⟩ := rep_join.mp h.repFocus
  obtain ⟨hnodup, hnodupc, hout⟩ := h.split
  have hyout : y.addr ∉ ctxAddrs (f :: ctx) := hout _ (mem_addrs_join.mpr (.inl rfl))
  have huout : ∀ a ∈ addrs u, a ∉ ctxAddrs (f :: ctx) ∧ a ≠ y.addr := by
    intro a ha
    refine ⟨hout a (mem_addrs_join.mpr (.inr (.inr ha))), ?_⟩
    rintro rfl
    exact h.down_other.split.2.2 _ ha (mem_ctxAddrs_cons.mpr (.inl rfl))
  have hside : rb.sideOf f.elt.addr y.addr = .ok f.side := by
    have := h.up.sideOf (.inl (join_ne_leaf _ _ _ _ _))
    rwa [addr_join] at this
  have hctx := h.repCtx
  rw [addr_join] at hctx
  obtain ⟨rb₁, hset, hctx₁, hne₁, hroot₁, hsize₁, hfresh₁⟩ := setChild_spec hctx hnodupc (addr u)
  have hfout : f.elt.addr ∈ ctxAddrs (f :: ctx) := mem_ctxAddrs_cons.mpr (.inl rfl)
  have hfn : f.elt.addr ≠ nil := hctx.1
  have hnil₁ : ∃ m, rb₁.node nil = some m ∧ m.color = .black := by
    rw [hne₁ nil hfn.symm]
    exact h.sentinel
  obtain ⟨rb₂, hpar, hu₂, hnil₂, hne₂, hroot₂, hsize₂, hfresh₂⟩ :=
    setParent_spec (q := f.elt.addr) (hu.congr fun a ha => hne₁ a fun heq =>
      (huout a ha).1 (heq ▸ hfout)) h.down_other.split.1 hnil₁
  have hsub : ∀ a ∈ addrs (plug (f :: ctx) u), a ∈ addrs (plug (f :: ctx) (join s c .leaf y u)) := by
    intro a ha
    rcases (Holds.mem_plug ..).mp ha with ha | ha
    · exact (Holds.mem_plug ..).mpr (.inl (mem_addrs_join.mpr (.inr (.inr ha))))
    · exact (Holds.mem_plug ..).mpr (.inr ha)
  have hlist : (plug (f :: ctx) u).toList.Sublist (plug (f :: ctx) (join s c .leaf y u)).toList := by
    rw [toList_plug, toList_plug]
    refine ((List.Sublist.refl _).append ?_).append (List.Sublist.refl _)
    cases s <;> simp [join, toList]
  refine ⟨rb₂, ?_, ⟨?_, rep_plug.mpr ⟨hctx₁.congr fun a ha => hne₂ a ?_, hu₂⟩, ?_, ?_, ?_, ?_⟩, ?_, ?_,
    ?_⟩
  · simp only [unlink, get_eq hycell, Exec.ok_bind, cell_parent, parentAddr, hside]
    rw [show addr (.leaf : Tree (Entry K V)) = nil from rfl, cell_z, hset, Exec.ok_bind, hpar]
    rfl
  · rw [hroot₂, hroot₁, h.root, addr_plug, addr_plug]
    rfl
  · exact ne_addr (hctx₁.ne_nil ha) fun hm => (huout a hm).1 ha
  · exact h.nodup.sublist (hlist.map _)
  · rw [hfresh₂, hfresh₁]
    exact ⟨h.fresh.1, fun a ha => h.fresh.2 a (hsub a ha)⟩
  · obtain ⟨m, hm, hc, -⟩ := hnil₂
    exact ⟨m, hm, hc⟩
  · rw [hsize₂, hsize₁]
    exact hlist.length_le.trans h.size
  · intro a hnil ha
    have hu : a ∉ addrs u := by
      rcases ha with rfl | ha
      · exact fun hm => (huout _ hm).2 rfl
      · exact fun hm => ha ((Holds.mem_plug ..).mpr (.inl hm))
    have hf : a ≠ f.elt.addr := by
      rintro rfl
      rcases ha with heq | ha
      · exact hyout (heq ▸ hfout)
      · exact ha ((Holds.mem_plug ..).mpr (.inr hfout))
    rw [hne₂ a (ne_addr hnil hu), hne₁ a hf]
  · rw [hsize₂, hsize₁]
  · intro hleaf
    obtain ⟨m, hm, -, hp⟩ := hnil₂
    exact ⟨m, hm, hp hleaf⟩

/-- The end of `rb_delete`: an unlinked node is freed. -/
theorem free_spec {a : Addr} {m : RBnode K V} (h : Holds rb t) (hout : a ∉ addrs t) (ha : a ≠ nil)
    (hcell : rb.node a = some m) (hsize : t.toList.length ≤ rb.size - 1) :
    ∃ rb', (do
        let rb := if a = rb.root then { rb with root := nil } else rb
        let rb ← rb.free a
        return { rb with size := rb.size - 1 } : Exec (RBtree K V)) = .ok rb' ∧ Holds rb' t ∧
      rb'.size = rb.size - 1 ∧ rb'.node = Function.update rb.node a none := by
  have hroot : a ≠ rb.root := by
    rw [h.root]
    exact ne_addr ha hout
  have hne : ∀ b, b ≠ a → Function.update rb.node a none b = rb.node b :=
    fun b hb => Function.update_of_ne hb ..
  refine ⟨{ rb with node := Function.update rb.node a none, size := rb.size - 1 }, ?_,
    ⟨h.root, h.rep.congr fun b hb => hne b ?_, h.nodup, h.fresh, ?_, hsize⟩, rfl, rfl⟩
  · simp only [if_neg hroot, free, get_eq hcell]
    rfl
  · rintro rfl
    exact hout hb
  · change ∃ n, Function.update rb.node a none nil = some n ∧ _
    rw [hne nil ha.symm]
    exact h.sentinel

/-- Without its black root, a subtree has a black node too few. -/
theorem deleting_of_unlinked (hb : Balanced (join s .black .leaf y u) n)
    (hr : NoRedRed (join s .black .leaf y u)) (hs : Sound ctx n) : Deleting ctx u 0 := by
  obtain ⟨k, rfl, hkl, hub⟩ := balanced_join.mp hb
  obtain rfl : k = 0 := hkl
  obtain ⟨-, -, hur⟩ := noRedRed_join.mp hr
  exact ⟨hub, hur.paint_black, hs⟩

/-- **Repairing and freeing** after a node `y` other than the root has been unlinked. -/
theorem retire_spec {m : RBnode K V} (h : Holds rb (plug ctx u)) (hctx : ctx ≠ [])
    (hout : y.addr ∉ addrs (plug ctx u)) (hyn : y.addr ≠ nil) (hcell : rb.node y.addr = some m)
    (hm : m.color = c) (hb : Balanced (join s c .leaf y u) n) (hr : NoRedRed (join s c .leaf y u))
    (hs : Sound ctx n)
    (hleaf : u = .leaf → ∃ m, rb.node nil = some m ∧ m.parent = parentAddr ctx)
    (hsize : (plug ctx u).toList.length ≤ rb.size - 1) :
    ∃ rb' t', rb.retire y.addr (addr u) = .ok rb' ∧ Holds rb' t' ∧ IsRedBlack t' ∧
      t'.toList = (plug ctx u).toList ∧ rb'.size = rb.size - 1 ∧
      ∀ a ≠ nil, a ∉ addrs (plug ctx u) → rb'.node a = Function.update rb.node y.addr none a := by
  have hroot : y.addr ≠ rb.root := by
    rw [h.root]
    exact ne_addr hyn hout
  -- the tree after the repair
  obtain ⟨rb₁, t₁, hfix, r₁, hrb₁⟩ : ∃ rb₁ t₁, (do
        if y.addr ≠ rb.root ∧ (← rb.get y.addr).color = .black then rb.deleteFixUp (addr u)
        else return rb : Exec (RBtree K V)) = .ok rb₁ ∧
      Rearranged rb rb₁ (plug ctx u) t₁ ∧ IsRedBlack t₁ := by
    rw [get_eq hcell, Exec.ok_bind, hm]
    cases c with
    | black =>
      obtain ⟨rb₁, t₁, hfix, r₁, hrb₁⟩ := deleteFixUp_spec h (deleting_of_unlinked hb hr hs)
        fun hu => ⟨hctx, hleaf hu⟩
      exact ⟨rb₁, t₁, by rw [if_pos ⟨hroot, rfl⟩, hfix], r₁, hrb₁⟩
    | red =>
      obtain ⟨k, rfl, -, hub⟩ := balanced_join.mp hb
      obtain ⟨hred, -, hur⟩ := noRedRed_join.mp hr
      obtain ⟨hbal, hnrr⟩ := fits_plug hub hur (fun _ => (hred rfl).2) hs
      exact ⟨rb, plug ctx u, by rw [if_neg (by simp)]; rfl, .refl h,
        color_plug_of_sound hs hctx, hbal, hnrr⟩
  have hout₁ : y.addr ∉ addrs t₁ := by rwa [r₁.addrs]
  obtain ⟨rb', hfree, h', hsize', hnode⟩ := free_spec r₁.holds hout₁ hyn
    ((r₁.frame _ hyn hout).trans hcell) (by rw [r₁.toList, r₁.size]; exact hsize)
  refine ⟨rb', t₁, ?_, h', hrb₁, r₁.toList, by rw [hsize', r₁.size], fun a ha hat => ?_⟩
  · rw [retire]
    change ((do
      if y.addr ≠ rb.root ∧ (← rb.get y.addr).color = .black then rb.deleteFixUp (addr u)
      else return rb : Exec (RBtree K V)) >>= _) = _
    rw [hfix, Exec.ok_bind]
    exact hfree
  · rw [hnode, Function.update_apply, Function.update_apply, r₁.frame a ha hat]

/-- A node that is the whole tree is unlinked from the sentinel, and the tree is empty. -/
theorem unlink_retire_root (h : Holds rb (join .left c .leaf y .leaf)) :
    ∃ rb₁ rb', rb.unlink y.addr = .ok (rb₁, nil) ∧ rb₁.retire y.addr nil = .ok rb' ∧
      Holds rb' .leaf ∧ rb'.size = rb.size - 1 ∧
      ∀ a ≠ nil, rb'.node a = Function.update rb.node y.addr none a := by
  have h' : Holds rb (plug [] (join .left c .leaf y .leaf)) := h
  obtain ⟨m, hm, hmc⟩ := h.sentinel
  have hyn := h'.ne_nil
  have hycell := h'.node_join
  have hroot : rb.root = y.addr := h.root
  -- the sentinel's link that the code writes depends on what it held
  obtain ⟨side, hside⟩ : ∃ side, rb.sideOf nil y.addr = .ok side := by
    rw [sideOf, get_eq hm, Exec.ok_bind]
    split_ifs
    · exact ⟨.left, rfl⟩
    · exact ⟨.right, rfl⟩
  set rb₁ := rb.put nil (m.setChild nil side) with hrb₁
  have hm₁ : rb₁.node nil = some (m.setChild nil side) := put_node_self ..
  set rb₂ := rb₁.put nil { m.setChild nil side with parent := nil } with hrb₂
  have hy₂ : rb₂.node y.addr = some (cell .left nil nil nil c y) := by
    rw [hrb₂, put_node_of_ne hyn, hrb₁, put_node_of_ne hyn, hycell]
    rfl
  have hleaf : Holds ⟨nil, rb.size - 1, Function.update rb₂.node y.addr none, rb.fresh⟩ .leaf := by
    refine ⟨rfl, trivial, List.nodup_nil, ⟨h.fresh.1, by simp [addrs, toList]⟩,
      ⟨{ m.setChild nil side with parent := nil }, ?_, ?_⟩, Nat.zero_le _⟩
    · exact (Function.update_of_ne hyn.symm ..).trans (put_node_self ..)
    · cases side <;> exact hmc
  refine ⟨rb₂, _, ?_, ?_, hleaf, rfl, fun a ha => ?_⟩
  · simp only [unlink, get_eq hycell, Exec.ok_bind, cell_parent, parentAddr, hside]
    rw [show addr (.leaf : Tree (Entry K V)) = nil from rfl, cell_z, setChild, get_eq hm,
      Exec.ok_bind, Exec.pure_eq, Exec.ok_bind, ← hrb₁, setParent, get_eq hm₁]
    rfl
  · have hroot₂ : y.addr = rb₂.root := hroot.symm
    simp only [retire, get_eq hy₂, Exec.ok_bind]
    rw [if_neg (fun hc => hc.1 hroot₂), Exec.pure_eq, Exec.ok_bind, if_pos hroot₂, free]
    rw [get_eq (show ({ rb₂ with root := nil } : RBtree K V).node y.addr = _ from hy₂)]
    rfl
  · simp only [Function.update_apply]
    rw [hrb₂, put_node_of_ne ha, hrb₁, put_node_of_ne ha]

/-! ## Deleting -/

/-- The node `a` is at the first of the entries `Q`, or `early` at one before them. -/
def ReturnsTo (a : Addr) (xs : List (Entry K V)) (Q : List (K × V)) (early : Prop) : Prop :=
  ∃ A B R, xs = A ++ B ∧ a = headAddr B ∧ data B = R ++ Q ∧ (R ≠ [] ↔ early)

/-- **A neighbour takes the place of an element.** The neighbour `y` of `x` below its child on the
side `s` is unlinked and its data moved to `x`: the element of `x` is off the list, and the node is
at the entries that followed it if `y` was one of them. -/
theorem data_neighbour (ctx : List (Frame (Entry K V))) {path : List (Frame (Entry K V))} {d : Color}
    {o : Tree (Entry K V)} (hside : ∀ f ∈ path, f.side = s.other) :
    ∃ P Q, data (plug ctx (join s c (plug path (join s.other d .leaf y u)) x o)).toList =
        P ++ (x.key, x.val) :: Q ∧
      data (plug ctx (join s c (plug path u) ⟨x.addr, y.key, y.val⟩ o)).toList = P ++ Q ∧
      ReturnsTo x.addr (plug ctx (join s c (plug path u) ⟨x.addr, y.key, y.val⟩ o)).toList Q
        (s = .left) := by
  cases s with
  | left =>
    refine ⟨data (before ctx ++ before path ++ u.toList ++ [y]), data (o.toList ++ after ctx), ?_, ?_,
      before ctx ++ before path ++ u.toList, ⟨x.addr, y.key, y.val⟩ :: (o.toList ++ after ctx),
      [(y.key, y.val)], ?_, rfl, rfl, by simp⟩
    · simp [toList_plug, join, toList, Side.other, after_of_right hside]
    · simp [toList_plug, join, toList, after_of_right hside]
    · simp [toList_plug, join, toList, after_of_right hside]
  | right =>
    refine ⟨data (before ctx ++ o.toList), data (y :: u.toList ++ after path ++ after ctx), ?_, ?_,
      before ctx ++ o.toList, ⟨x.addr, y.key, y.val⟩ :: (u.toList ++ after path ++ after ctx), [], ?_,
      rfl, rfl, by simp⟩
    · simp [toList_plug, join, toList, Side.other, before_of_left hside]
    · simp [toList_plug, join, toList, before_of_left hside]
    · simp [toList_plug, join, toList, before_of_left hside]

/-- The context does not depend on the elements. -/
theorem sound_setElt {path : List (Frame (Entry K V))}
    (h : Sound (path ++ ⟨s, c, x, u⟩ :: ctx) n) (y : Entry K V) :
    Sound (path ++ ⟨s, c, y, u⟩ :: ctx) n := by
  induction path generalizing n with
  | nil => exact h
  | cons f path ih =>
    obtain ⟨hb, hr, hred, hs⟩ := h
    refine ⟨hb, hr, fun hf => ⟨(hred hf).1, ?_, by simp⟩, ih hs⟩
    have := (hred hf).2.1
    cases path <;> exact this

/-- `get_delete_node` at a node with children: a neighbour on the side of a child. -/
theorem getDeleteNode_spec {l r : Tree (Entry K V)} (h : Holds rb (plug ctx (join .left c l x r)))
    (hne : l ≠ .leaf ∨ r ≠ .leaf) :
    ∃ s o path d y u, join .left c l x r = join s c (plug path (join s.other d .leaf y u)) x o ∧
      (∀ f ∈ path, f.side = s.other) ∧ rb.getDeleteNode x.addr = .ok y.addr ∧
      (s = .left ↔ l ≠ .leaf ∧ r = .leaf) := by
  have hlen := length_ctx_le ctx (join .left c l x r)
  have hsize := h.size
  have hlist : (join .left c l x r).toList = l.toList ++ x :: r.toList := rfl
  rw [hlist, List.length_append, List.length_cons] at hlen
  have hl : addr l = nil ↔ l = .leaf := h.down.repFocus.addr_eq_nil
  have hr : addr r = nil ↔ r = .leaf := h.down_other.repFocus.addr_eq_nil
  have hget : rb.getDeleteNode x.addr = if addr l = nil ∧ addr r = nil then .ok x.addr
      else if addr r ≠ nil then rb.minimum (addr r) else rb.maxmum (addr l) := by
    simp only [getDeleteNode, h.get_join, Exec.ok_bind]
    rfl
  by_cases hrl : r = .leaf
  · have hll : l ≠ .leaf := by simpa [hrl] using hne
    rw [if_neg fun hc => hll (hl.mp hc.1), if_neg (not_not.mpr (hr.mpr hrl))] at hget
    obtain ⟨path, d, y, u, hloop, rfl, hside⟩ := extremeLoop_spec .right h.down hll
      (show l.toList.length ≤ rb.size + 1 by omega)
    exact ⟨.left, r, path, d, y, u, rfl, hside, hget.trans hloop, by simp [hll, hrl]⟩
  · rw [if_neg fun hc => hrl (hr.mp hc.2), if_pos fun hc => hrl (hr.mp hc)] at hget
    obtain ⟨path, d, y, u, hloop, rfl, hside⟩ := extremeLoop_spec .left h.down_other hrl
      (show r.toList.length ≤ rb.size + 1 by omega)
    exact ⟨.right, l, path, d, y, u, rfl, hside, hget.trans hloop, by simp [hrl]⟩

/-- What `rb_delete` stores for the caller when a leaf is unlinked. -/
theorem successorOf_leaf (h : Holds rb (plug ctx (join .left c .leaf x .leaf))) :
    rb.successorOf compare x.addr x.addr = .ok (headAddr (after ctx)) := by
  rw [successorOf, h.get_join, Exec.ok_bind, Exec.ok_bind, if_pos (.inl rfl), successor_spec h]
  rfl

/-- What `rb_delete` stores for the caller when a neighbour is unlinked: the node itself, either as
the one the next data are moved to, or as the successor of the neighbour before it. -/
theorem successorOf_neighbour (ho : StrictOrder compare) {path : List (Frame (Entry K V))} {d : Color}
    {o : Tree (Entry K V)}
    (I : Inv compare rb (plug ctx (join s c (plug path (join s.other d .leaf y u)) x o)))
    (hside : ∀ f ∈ path, f.side = s.other) :
    rb.successorOf compare x.addr y.addr = .ok x.addr := by
  have h := I.holds
  have hy : Holds rb (plug (path ++ ⟨s, c, x, o⟩ :: ctx) (join s.other d .leaf y u)) := by
    rw [plug_append]
    exact h
  have hmem : y ∈ (plug path (join s.other d .leaf y u)).toList := by
    rw [toList_plug]
    cases s <;> simp [join, toList, Side.other]
  rw [successorOf, hy.get_join, Exec.ok_bind, h.get_join, Exec.ok_bind, cell_key, cell_key]
  cases s with
  | left =>
    have hlt : compare y.key x.key = -1 := (Sorted.focus I.sorted).1 y hmem
    have hsucc := successor_spec (show Holds rb (plug _ (join .left d u y .leaf)) from hy)
    rw [if_pos (.inr hlt), hsucc, after_append, after_of_right hside]
    rfl
  | right =>
    have hgt : compare x.key y.key = -1 := (Sorted.focus I.sorted).2 y hmem
    refine if_neg ?_
    rintro (heq | hlt)
    · have hnode := hy.node_join
      rw [heq, h.node_join] at hnode
      have hkey := congrArg RBnode.key (Option.some.inj hnode)
      rw [cell_key, cell_key] at hkey
      rw [hkey] at hgt
      exact compare_self ho _ hgt
    · exact compare_self ho _ (ho.trans _ _ _ hgt hlt)

/-- The part of `rb_delete` that moves the data of the unlinked node `x` to `n`. -/
def moveData (rb : RBtree K V) (n x : Addr) : Exec (RBtree K V) := do
  if n ≠ x then rb.copyData n (← rb.get x).key (← rb.get x).val else return rb

theorem moveData_self (rb : RBtree K V) (n : Addr) : rb.moveData n n = .ok rb := if_neg (by simp)

/-- A path below a child is a longer context. -/
theorem plug_path (path ctx : List (Frame (Entry K V))) (s : Side) (c : Color) (z : Entry K V)
    (o v : Tree (Entry K V)) :
    plug (path ++ ⟨s, c, z, o⟩ :: ctx) v = plug ctx (join s c (plug path v) z o) :=
  plug_append ..

/-- Unlinking the neighbour `y` of `x` and moving its data to `x`. -/
theorem moveNeighbour_spec {path : List (Frame (Entry K V))} {d : Color} {o : Tree (Entry K V)}
    (h : Holds rb (plug ctx (join s c (plug path (join s.other d .leaf y u)) x o)))
    (hrb : IsRedBlack (plug ctx (join s c (plug path (join s.other d .leaf y u)) x o))) :
    ∃ rb₁ rb₂ n, rb.unlink y.addr = .ok (rb₁, addr u) ∧
      rb₁.moveData x.addr y.addr = .ok rb₂ ∧
      Holds rb₂ (plug (path ++ ⟨s, c, ⟨x.addr, y.key, y.val⟩, o⟩ :: ctx) u) ∧
      y.addr ∉ addrs (plug (path ++ ⟨s, c, ⟨x.addr, y.key, y.val⟩, o⟩ :: ctx) u) ∧
      (∃ m, rb₂.node y.addr = some m ∧ m.color = d) ∧ Balanced (join s.other d .leaf y u) n ∧
      NoRedRed (join s.other d .leaf y u) ∧
      Sound (path ++ ⟨s, c, ⟨x.addr, y.key, y.val⟩, o⟩ :: ctx) n ∧
      (u = .leaf → ∃ m, rb₂.node nil = some m ∧
        m.parent = parentAddr (path ++ ⟨s, c, ⟨x.addr, y.key, y.val⟩, o⟩ :: ctx)) ∧
      rb₂.size = rb.size ∧
      ∀ a ≠ nil, a ∉ addrs (plug (path ++ ⟨s, c, ⟨x.addr, y.key, y.val⟩, o⟩ :: ctx) u) →
        rb₂.node a = rb.node a := by
  set x' : Entry K V := ⟨x.addr, y.key, y.val⟩ with hx'
  obtain ⟨f, ctx₁, hctx₁⟩ : ∃ f ctx₁, path ++ ⟨s, c, x, o⟩ :: ctx = f :: ctx₁ := by
    cases path with
    | nil => exact ⟨_, _, rfl⟩
    | cons f path => exact ⟨f, _, rfl⟩
  have hplug := plug_path path ctx s c (o := o)
  have hy : Holds rb (plug (f :: ctx₁) (join s.other d .leaf y u)) := by rwa [← hctx₁, hplug]
  obtain ⟨rb₁, hun, h₁, hnode, hsize₁, hnil⟩ := unlink_spec hy
  -- the neighbour is off the tree
  have hxmem : x.addr ∈ addrs (plug (f :: ctx₁) u) := by
    rw [← hctx₁, hplug]
    exact (Holds.mem_plug ..).mpr (.inl (mem_addrs_join.mpr (.inl rfl)))
  have hout : y.addr ∉ addrs (plug (f :: ctx₁) u) := by
    intro hm
    rcases (Holds.mem_plug ..).mp hm with hm | hm
    · exact hy.down_other.split.2.2 _ hm (mem_ctxAddrs_cons.mpr (.inl rfl))
    · exact hy.split.2.2 _ (mem_addrs_join.mpr (.inl rfl)) hm
  have hxy : x.addr ≠ y.addr := fun heq => hout (heq ▸ hxmem)
  have haddrs : addrs (plug (path ++ ⟨s, c, x', o⟩ :: ctx) u) = addrs (plug (f :: ctx₁) u) := by
    rw [hplug, addrs_setElt (show x'.addr = x.addr from rfl), ← hplug, hctx₁]
  have hycell := (hnode y.addr hy.ne_nil (.inl rfl)).trans hy.node_join
  rw [← hctx₁, hplug] at h₁
  -- its data is moved
  have h₂ := put_spec h₁ c x' rfl
  set rb₂ := rb₁.put x.addr (cell s (parentAddr ctx) (addr (plug path u)) (addr o) c x') with hrb₂
  rw [← hplug] at h₂
  obtain ⟨n, hb, hr, -, hs⟩ := sound_of_isRedBlack (show IsRedBlack (plug (path ++ ⟨s, c, x, o⟩ :: ctx)
    (join s.other d .leaf y u)) by rwa [hplug])
  have hpar : parentAddr (path ++ ⟨s, c, x', o⟩ :: ctx) = f.elt.addr := by
    cases path with
    | nil => exact congrArg parentAddr hctx₁
    | cons g path => exact congrArg parentAddr hctx₁
  refine ⟨rb₁, rb₂, n, hun, ?_, h₂, haddrs ▸ hout,
    ⟨_, (put_node_of_ne hxy.symm ..).trans hycell, cell_color ..⟩, hb, hr, sound_setElt hs x',
    fun hu => ?_, hsize₁, fun a ha hat => ?_⟩
  · rw [moveData, if_pos hxy, get_eq hycell]
    simp only [Exec.ok_bind, cell_key, cell_val, copyData, h₁.get_join]
    cases s <;> rfl
  · obtain ⟨m, hm, hmp⟩ := hnil hu
    exact ⟨m, (put_node_of_ne h₁.ne_nil.symm ..).trans hm, hmp.trans hpar.symm⟩
  · rw [haddrs] at hat
    have hax : a ≠ x.addr := fun heq => hat (heq ▸ hxmem)
    rw [hrb₂, put_node_of_ne hax, hnode a ha (.inr hat)]

/-- Unlinking the neighbour `y` of `x`, moving its data to `x`, and freeing it. -/
theorem removeNeighbour_spec {path : List (Frame (Entry K V))} {d : Color} {o : Tree (Entry K V)}
    (h : Holds rb (plug ctx (join s c (plug path (join s.other d .leaf y u)) x o)))
    (hrb : IsRedBlack (plug ctx (join s c (plug path (join s.other d .leaf y u)) x o)))
    (hsize : (plug ctx (join s c (plug path u) ⟨x.addr, y.key, y.val⟩ o)).toList.length ≤
      rb.size - 1) :
    ∃ rb₁ rb₂ rb' t', rb.unlink y.addr = .ok (rb₁, addr u) ∧
      rb₁.moveData x.addr y.addr = .ok rb₂ ∧
      rb₂.retire y.addr (addr u) = .ok rb' ∧ Holds rb' t' ∧ IsRedBlack t' ∧
      t'.toList = (plug ctx (join s c (plug path u) ⟨x.addr, y.key, y.val⟩ o)).toList ∧
      rb'.size = rb.size - 1 ∧
      ∀ a ≠ nil, a ∉ addrs t' → rb'.node a = Function.update rb.node y.addr none a := by
  obtain ⟨rb₁, rb₂, n, hun, hcopy, h₂, hout, ⟨m, hm, hmc⟩, hb, hr, hs, hnil, hsize₂, hnode⟩ :=
    moveNeighbour_spec h hrb
  have hyn : y.addr ≠ nil := by
    rw [← plug_path] at h
    exact h.ne_nil
  rw [← plug_path, ← hsize₂] at hsize
  obtain ⟨rb', t', hret, h', hrb', hlist, hsize', hnode'⟩ :=
    retire_spec h₂ (by simp) hout hyn hm hmc hb hr hs hnil hsize
  refine ⟨rb₁, rb₂, rb', t', hun, hcopy, hret, h', hrb', hlist.trans ?_, ?_, fun a ha hat => ?_⟩
  · rw [plug_path]
  · rw [hsize', hsize₂]
  · rw [addrs, hlist] at hat
    rw [hnode' a ha hat, Function.update_apply, Function.update_apply, hnode a ha hat]

/-- A tree with one element less, whose node `y` has been freed. -/
theorem Inv.remove {t' : Tree (Entry K V)} {rb' : RBtree K V} {y : Addr} {P Q : List (K × V)}
    {kv : K × V} (I : Inv compare rb t) (h' : Holds rb' t') (hrb : IsRedBlack t')
    (hsize : rb'.size = rb.size - 1)
    (hnode : ∀ a ≠ nil, a ∉ addrs t' → rb'.node a = Function.update rb.node y none a)
    (haddrs : ∀ a ∈ addrs t, a = y ∨ a ∈ addrs t') (hdata : data t.toList = P ++ kv :: Q)
    (hdata' : data t'.toList = P ++ Q) : Inv compare rb' t' where
  holds := h'
  redBlack := hrb
  sorted := by
    rw [hdata']
    exact (hdata ▸ I.sorted).sublist ((List.sublist_cons_self _ _).append_left _)
  size := by
    have hlen := congrArg List.length hdata
    have hlen' := congrArg List.length hdata'
    simp only [data, List.length_map, List.length_append, List.length_cons] at hlen hlen'
    rw [hsize, I.size]
    omega
  live := by
    intro a ha hat
    rw [hnode a ha hat, Function.update_apply]
    split_ifs with hy
    · rfl
    · refine I.live a ha fun hm => ?_
      rcases haddrs a hm with rfl | hm
      · exact hy rfl
      · exact hat hm

/-- The addresses below and around an unlinked node. -/
theorem mem_addrs_unlinked {d : Color} {a : Addr}
    (ha : a ∈ addrs (plug ctx (join s d .leaf y u))) : a = y.addr ∨ a ∈ addrs (plug ctx u) := by
  rcases (Holds.mem_plug ..).mp ha with ha | ha
  · rcases mem_addrs_join.mp ha with ha | ha | ha
    · exact .inl ha
    · simp [addrs, toList] at ha
    · exact .inr ((Holds.mem_plug ..).mpr (.inl ha))
  · exact .inr ((Holds.mem_plug ..).mpr (.inr ha))

/-- The part of `rb_delete` from `get_delete_node` on. -/
theorem remove_spec (ho : StrictOrder compare)
    (I : Inv compare rb (plug ctx (join .left c t x u))) :
    ∃ y a rb₁ z rb₂ rb' t' P Q, rb.getDeleteNode x.addr = .ok y ∧
      rb.successorOf compare x.addr y = .ok a ∧
      rb.unlink y = .ok (rb₁, z) ∧
      rb₁.moveData x.addr y = .ok rb₂ ∧
      rb₂.retire y z = .ok rb' ∧ Inv compare rb' t' ∧
      data (plug ctx (join .left c t x u)).toList = P ++ (x.key, x.val) :: Q ∧
      data t'.toList = P ++ Q ∧ ReturnsTo a t'.toList Q (t ≠ .leaf ∧ u = .leaf) := by
  have h := I.holds
  by_cases hleaf : t = .leaf ∧ u = .leaf
  · obtain ⟨rfl, rfl⟩ := hleaf
    have hget : rb.getDeleteNode x.addr = .ok x.addr := by
      simp only [getDeleteNode, h.get_join, Exec.ok_bind]
      rfl
    have hdata : data (plug ctx (join .left c .leaf x .leaf)).toList =
        data (before ctx) ++ (x.key, x.val) :: data (after ctx) := by
      rw [toList_plug]
      simp [join, toList]
    have hdata' : data (plug ctx (.leaf : Tree (Entry K V))).toList =
        data (before ctx) ++ data (after ctx) := by
      rw [toList_plug]
      simp [toList]
    have hret' : ReturnsTo (headAddr (after ctx)) (plug ctx (.leaf : Tree (Entry K V))).toList
        (data (after ctx)) ((.leaf : Tree (Entry K V)) ≠ .leaf ∧ (.leaf : Tree (Entry K V)) = .leaf) :=
      ⟨before ctx, after ctx, [], by rw [toList_plug]; simp [toList], rfl, rfl, by simp⟩
    cases ctx with
    | nil =>
      obtain ⟨rb₁, rb', hun, hret, h', hsize', hnode⟩ := unlink_retire_root h
      exact ⟨x.addr, _, rb₁, nil, rb₁, rb', .leaf, _, _, hget, successorOf_leaf h, hun,
        moveData_self .., hret, I.remove h' ⟨rfl, ⟨0, rfl⟩, trivial⟩ hsize'
          (fun a ha _ => hnode a ha) (fun a ha => mem_addrs_unlinked ha) hdata hdata', hdata, hdata',
        hret'⟩
    | cons f ctx =>
      obtain ⟨rb₁, hun, h₁, hnode, hsize₁, hnil⟩ := unlink_spec h
      obtain ⟨n, hb, hr, -, hs⟩ := sound_of_isRedBlack I.redBlack
      have hout : x.addr ∉ addrs (plug (f :: ctx) (.leaf : Tree (Entry K V))) := by
        intro hm
        rcases (Holds.mem_plug ..).mp hm with hm | hm
        · simp [addrs, toList] at hm
        · exact h.split.2.2 _ (mem_addrs_join.mpr (.inl rfl)) hm
      have hlen : (plug (f :: ctx) (.leaf : Tree (Entry K V))).toList.length ≤ rb₁.size - 1 := by
        have hlen := congrArg List.length hdata
        have hlen' := congrArg List.length hdata'
        simp only [data, List.length_map, List.length_append, List.length_cons] at hlen hlen'
        rw [hsize₁, I.size]
        omega
      obtain ⟨rb', t', hret, h', hrb', hlist, hsize', hnode'⟩ := retire_spec h₁ (by simp) hout
        h.ne_nil ((hnode _ h.ne_nil (.inl rfl)).trans h.node_join) (cell_color ..) hb hr hs hnil hlen
      rw [← hlist] at hdata' hret'
      have haddrs : addrs t' = addrs (plug (f :: ctx) (.leaf : Tree (Entry K V))) := by
        rw [addrs, hlist, ← addrs]
      refine ⟨x.addr, _, rb₁, nil, rb₁, rb', t', _, _, hget, successorOf_leaf h, hun,
        moveData_self .., hret, I.remove h' hrb' (by rw [hsize', hsize₁])
          (fun a ha hat => ?_) (fun a ha => haddrs ▸ mem_addrs_unlinked ha) hdata hdata', hdata, hdata',
        hret'⟩
      rw [haddrs] at hat
      rw [hnode' a ha hat, Function.update_apply, Function.update_apply, hnode a ha (.inr hat)]
  · -- the data of a neighbour moves to the node of the key
    obtain ⟨s, o, path, d, y, u', hjoin, hside, hget, hleft⟩ :=
      getDeleteNode_spec h (not_and_or.mp hleaf)
    rw [hjoin] at h I ⊢
    rw [← hleft]
    obtain ⟨P, Q, hdata, hdata', hret'⟩ := data_neighbour ctx (s := s) (c := c) (y := y) (u := u')
      (x := x) (d := d) (o := o) hside
    have hlen := congrArg List.length hdata
    have hlen' := congrArg List.length hdata'
    simp only [data, List.length_map, List.length_append, List.length_cons] at hlen hlen'
    have hsize := I.size
    obtain ⟨rb₁, rb₂, rb', t', hun, hcopy, hret, h', hrb', hlist, hsize', hnode⟩ :=
      removeNeighbour_spec h I.redBlack (by omega)
    have hplug := plug_path path ctx s c x o
    rw [← hlist] at hdata' hret'
    refine ⟨y.addr, x.addr, rb₁, addr u', rb₂, rb', t', P, Q, hget, successorOf_neighbour ho I hside,
      hun, hcopy, hret, I.remove h' hrb' hsize' hnode (fun a ha => ?_) hdata hdata', hdata, hdata',
      hret'⟩
    rw [← hplug] at ha
    rw [addrs, hlist, ← addrs, addrs_setElt (show Entry.addr ⟨x.addr, y.key, y.val⟩ = x.addr from rfl),
      ← hplug]
    exact mem_addrs_unlinked ha

/-- **`rb_delete`** of a key that `find` finds. -/
theorem rbDelete_node (ho : StrictOrder compare) (I : Inv compare rb (plug ctx (join .left c t x u)))
    (hfind : rb.find compare x.key = .ok x.addr) (wantSucc : Bool) :
    ∃ a rb' t' P Q,
      rb.rbDelete compare x.key wantSucc = .ok (if wantSucc then some a else none, rb') ∧
      Inv compare rb' t' ∧
      data (plug ctx (join .left c t x u)).toList = P ++ (x.key, x.val) :: Q ∧
      data t'.toList = P ++ Q ∧ ReturnsTo a t'.toList Q (t ≠ .leaf ∧ u = .leaf) := by
  obtain ⟨y, a, rb₁, z, rb₂, rb', t', P, Q, hget, hsucc, hun, hcopy, hret, hinv, hdata, hdata',
    hreturn⟩ := remove_spec ho I
  refine ⟨a, rb', t', P, Q, ?_, hinv, hdata, hdata', hreturn⟩
  rw [rbDelete, hfind, Exec.ok_bind, I.holds.get_join, Exec.ok_bind, cell_key,
    if_pos ((ho.eq _ _).mpr rfl), hget, Exec.ok_bind]
  have hstored : (do
      if wantSucc then return some (← rb.successorOf compare x.addr y)
      else return none : Exec (Option Addr)) = .ok (if wantSucc then some a else none) := by
    rw [hsucc]
    cases wantSucc <;> rfl
  rw [hstored, Exec.ok_bind, hun, Exec.ok_bind]
  simp only
  rw [moveData] at hcopy
  rw [hcopy, Exec.ok_bind, hret]
  rfl

/-- **`rb_delete`** on a tree that is not empty: a key in the tree is taken off, and any other key
changes nothing. -/
theorem rbDelete_spec (ho : StrictOrder compare) (I : Inv compare rb t) (hne : rb.root ≠ nil)
    (key : K) (wantSucc : Bool) :
    (∃ a rb' t' v P Q, rb.rbDelete compare key wantSucc = .ok (a, rb') ∧ Inv compare rb' t' ∧
        data t.toList = P ++ (key, v) :: Q ∧ data t'.toList = P ++ Q) ∨
      (∀ v, (key, v) ∉ data t.toList) ∧ rb.rbDelete compare key wantSucc = .ok (none, rb) := by
  obtain ⟨ctx, t', a, hfind, rfl, hb, ⟨rfl, rfl⟩ | ⟨c, l, x, r, rfl, rfl, rfl⟩⟩ :=
    find_spec ho I.holds I.sorted key
  · right
    refine ⟨fun v => hb.absent ho v, ?_⟩
    cases ctx with
    | nil => exact absurd I.holds.root hne
    | cons f ctx =>
      have h := I.holds.up
      rw [rbDelete, hfind, Exec.ok_bind, parentAddr, h.get_join, Exec.ok_bind, cell_key,
        if_neg (hb.compare_ne ho)]
      rfl
  · left
    obtain ⟨a, rb', t', P, Q, hdel, I', hdata, hdata', -⟩ :=
      rbDelete_node ho (show Inv compare rb (plug ctx (join .left c l x r)) from I) hfind wantSucc
    exact ⟨_, rb', t', x.val, P, Q, hdel, I', hdata, hdata'⟩

/-- No two entries have the same key. -/
theorem Sorted.eq_of_key (ho : StrictOrder compare) {xs : List (Entry K V)}
    (hs : Sorted compare (data xs)) (hx : x ∈ xs) (hy : y ∈ xs) (hkey : x.key = y.key) : x = y := by
  have hne : xs.Pairwise fun a b => a.key ≠ b.key := by
    refine (List.pairwise_map.mp hs).imp fun {a b} hab heq => ?_
    simp only [heq] at hab
    exact compare_self ho _ hab
  have : Std.Symm fun a b : Entry K V => a.key ≠ b.key := ⟨fun _ _ h => h.symm⟩
  by_contra hxy
  exact hne.forall hx hy hxy hkey

/-- The node has a left child and no right child. -/
def OnlyLeft (rb : RBtree K V) (a : Addr) : Prop :=
  ∃ n, rb.node a = some n ∧ n.left ≠ nil ∧ n.right = nil

/-- **`RBtree_erase`** at a node of the tree. -/
theorem RBtreeErase_spec (ho : StrictOrder compare) (I : Inv compare rb t) (hx : x ∈ t.toList) :
    ∃ a rb' t' P Q, rb.RBtreeErase compare x.addr = .ok (a, rb') ∧ Inv compare rb' t' ∧
      data t.toList = P ++ (x.key, x.val) :: Q ∧ data t'.toList = P ++ Q ∧
      ReturnsTo a t'.toList Q (OnlyLeft rb x.addr) := by
  obtain ⟨-, n, hn, hkey, -⟩ := I.holds.rep.node_of_mem hx
  obtain ⟨ctx, t', a, hfind, rfl, hb, ⟨rfl, rfl⟩ | ⟨c, l, y, r, rfl, hy, rfl⟩⟩ :=
    find_spec ho I.holds I.sorted x.key
  · exact absurd (List.mem_map_of_mem hx) (hb.absent ho x.val)
  · have hmem : y ∈ (plug ctx (.node c l y r)).toList := by
      rw [toList_plug]
      simp [toList]
    obtain rfl := I.sorted.eq_of_key ho hmem hx hy
    have I' : Inv compare rb (plug ctx (join .left c l y r)) := I
    obtain ⟨a, rb', t', P, Q, hdel, hinv, hdata, hdata', hreturn⟩ := rbDelete_node ho I' hfind true
    have hl : addr l = nil ↔ l = .leaf := I'.holds.down.repFocus.addr_eq_nil
    have hr : addr r = nil ↔ r = .leaf := I'.holds.down_other.repFocus.addr_eq_nil
    have honly : OnlyLeft rb y.addr ↔ l ≠ .leaf ∧ r = .leaf := by
      rw [OnlyLeft, I'.holds.node_join, ← hr, Ne, ← hl]
      simp [cell]
    refine ⟨a, rb', t', P, Q, ?_, hinv, hdata, hdata', ?_⟩
    · rw [RBtreeErase, get_eq hn, Exec.ok_bind, hkey, hdel]
      rfl
    · rwa [honly]

end Kendylib.RBtree
