import Kendylib.Container.RBtreeShape

/-!
# Repairing a red-black tree

The loops of `insert_fix_up` and `delete_fix_up` go up the tree from a node in focus.

* While an insert is repaired, the subtree in focus has a red root and everything is in order but
  for the parent of that root, which may be red too (`insertFixUpLoop_spec`).
* While a delete is repaired, the subtree in focus has one black node too few on every path, and its
  root counts as black (`deleteFixUpLoop_spec`). The two statements `w->left->color == BLACK` and
  `w->right->color == BLACK` compare where the textbook assigns; the colour they leave red is
  overwritten after the rotation.
-/

namespace Kendylib.RBtree

open Tree

variable {K V : Type} {rb : RBtree K V} {ctx : List (Frame (Entry K V))}
  {t u w : Tree (Entry K V)} {x y : Entry K V} {s : Side} {c d : Color} {n : ℕ}

/-- Painting the root of a subtree through its address. -/
theorem setColor_focus (h : Holds rb (plug ctx t)) (ht : t ≠ .leaf) (c : Color) :
    ∃ rb', rb.setColor (addr t) c = .ok rb' ∧
      Rearranged rb rb' (plug ctx t) (plug ctx (t.paint c)) := by
  obtain ⟨c', l, x, r, rfl⟩ := exists_join .left ht
  rw [addr_join, paint_join]
  exact setColor_spec h c

/-- Painting a child. -/
theorem setColor_child (h : Holds rb (plug ctx (join s c t x u))) (ht : t ≠ .leaf) (c' : Color) :
    ∃ rb', rb.setColor (addr t) c' = .ok rb' ∧
      Rearranged rb rb' (plug ctx (join s c t x u)) (plug ctx (join s c (t.paint c') x u)) :=
  setColor_focus h.down ht c'

theorem setColor_child_other (h : Holds rb (plug ctx (join s c t x u))) (hu : u ≠ .leaf)
    (c' : Color) :
    ∃ rb', rb.setColor (addr u) c' = .ok rb' ∧
      Rearranged rb rb' (plug ctx (join s c t x u)) (plug ctx (join s c t x (u.paint c'))) := by
  rw [← join_other s c u x t] at h ⊢
  rw [← join_other s c _ x t]
  exact setColor_child h hu c'

/-! ## After an insert -/

theorem colorFlip_spec (h : Holds rb (plug ctx (join s c t x u))) (ht : t ≠ .leaf)
    (hu : u ≠ .leaf) :
    ∃ rb', rb.colorFlip x.addr = .ok rb' ∧ Rearranged rb rb' (plug ctx (join s c t x u))
      (plug ctx (join s .red (t.paint .black) x (u.paint .black))) := by
  obtain ⟨rb₁, h₁, r₁⟩ := setColor_spec h .red
  rw [colorFlip, h₁, Exec.ok_bind, r₁.holds.get_join, Exec.ok_bind]
  -- the right child is painted first
  cases s with
  | left =>
    obtain ⟨rb₂, h₂, r₂⟩ := setColor_child_other r₁.holds hu .black
    obtain ⟨rb₃, h₃, r₃⟩ := setColor_child r₂.holds ht .black
    refine ⟨rb₃, ?_, (r₁.trans r₂).trans r₃⟩
    simp only [cell]
    rw [h₂, Exec.ok_bind, r₂.holds.get_join, Exec.ok_bind]
    exact h₃
  | right =>
    obtain ⟨rb₂, h₂, r₂⟩ := setColor_child r₁.holds ht .black
    obtain ⟨rb₃, h₃, r₃⟩ := setColor_child_other r₂.holds hu .black
    refine ⟨rb₃, ?_, (r₁.trans r₂).trans r₃⟩
    simp only [cell]
    rw [h₂, Exec.ok_bind, r₂.holds.get_join, Exec.ok_bind]
    exact h₃

/-- What the loop of `insert_fix_up` keeps about the subtree in focus and its context. -/
structure Inserting (ctx : List (Frame (Entry K V))) (t : Tree (Entry K V)) (n : ℕ) : Prop where
  red : t.color = .red
  balanced : Balanced t n
  noRedRed : NoRedRed t
  sound : Sound ctx n

/-- With a red uncle, the colours of the grandparent and its children are exchanged and the
grandparent comes into focus. -/
theorem Inserting.flip {f g : Frame (Entry K V)} (h : Inserting (f :: g :: ctx) t n)
    (hf : f.color = .red) (hg : g.color = .black) (hu : g.sib.color = .red) :
    Inserting ctx (join g.side .red (join f.side .black t f.elt f.sib) g.elt (g.sib.paint .black))
      (n + 1) := by
  obtain ⟨hfb, hfr, -, hgb, hgr, -, hctx⟩ := h.sound
  rw [hf, hg] at hctx
  rw [hf] at hgb
  obtain ⟨c, l, x, r, hsib⟩ := exists_join .left (ne_leaf_of_red hu)
  rw [hsib, color_join] at hu
  subst hu
  rw [hsib, balanced_join] at hgb
  obtain ⟨m, rfl, hl, hr⟩ := hgb
  rw [hsib, noRedRed_join] at hgr
  refine ⟨color_join .., balanced_join.mpr ⟨n + 1, rfl, balanced_join.mpr ⟨n, rfl, h.balanced, hfb⟩, ?_⟩,
    noRedRed_join.mpr ⟨fun _ => ⟨color_join .., ?_⟩,
      noRedRed_join.mpr ⟨fun h => Color.noConfusion h, h.noRedRed, hfr⟩, ?_⟩, hctx⟩
  · rw [hsib, paint_join, balanced_join]
    exact ⟨n, rfl, hl, hr⟩
  · rw [hsib, paint_join, color_join]
  · rw [hsib, paint_join, noRedRed_join]
    exact ⟨fun h => Color.noConfusion h, hgr.2⟩

/-- With a black uncle, the parent comes up in the place of the grandparent. -/
theorem Inserting.lift {fx gx : Entry K V} {fs gs : Tree (Entry K V)}
    (h : Inserting (⟨s, .red, fx, fs⟩ :: ⟨s, .black, gx, gs⟩ :: ctx) t n) (hu : gs.color = .black) :
    Inserting (⟨s, .black, fx, join s.other .red gs gx fs⟩ :: ctx) t n := by
  obtain ⟨hfb, hfr, hfred, hgb, hgr, -, hctx⟩ := h.sound
  refine ⟨h.red, h.balanced, h.noRedRed, balanced_join.mpr ⟨n, rfl, hgb, hfb⟩,
    noRedRed_join.mpr ⟨fun _ => ⟨hu, (hfred rfl).1⟩, hgr, hfr⟩, fun h => Color.noConfusion h, hctx⟩

/-- A node on the inner side changes places with its parent. -/
theorem Inserting.turn {g : Frame (Entry K V)} {fx : Entry K V} {a b fs : Tree (Entry K V)}
    (h : Inserting (⟨s.other, .red, fx, fs⟩ :: g :: ctx) (join s .red a x b) n) :
    Inserting (⟨s, .red, x, b⟩ :: g :: ctx) (join s .red fs fx a) n := by
  obtain ⟨hfb, hfr, hfred, hctx⟩ := h.sound
  obtain ⟨m, rfl, ha, hb⟩ := balanced_join.mp h.balanced
  obtain ⟨hred, har, hbr⟩ := noRedRed_join.mp h.noRedRed
  exact ⟨color_join .., balanced_join.mpr ⟨n, rfl, hfb, ha⟩,
    noRedRed_join.mpr ⟨fun _ => ⟨(hfred rfl).1, (hred rfl).1⟩, hfr, har⟩,
    hb, hbr, fun _ => ⟨(hred rfl).2, (hfred rfl).2⟩, hctx⟩

/-- `liftParent` for a node on the outer side. -/
theorem liftParent_spec {fx gx : Entry K V} {fs gs : Tree (Entry K V)} (ht : t ≠ .leaf)
    (h : Holds rb (plug (⟨s, c, fx, fs⟩ :: ⟨s, d, gx, gs⟩ :: ctx) t)) :
    ∃ rb', liftParent s rb (addr t) = .ok rb' ∧
      Rearranged rb rb' (plug (⟨s, c, fx, fs⟩ :: ⟨s, d, gx, gs⟩ :: ctx) t)
        (plug (⟨s, .black, fx, join s.other .red gs gx fs⟩ :: ctx) t) := by
  obtain ⟨ct, l, x, r, rfl⟩ := exists_join .left ht
  -- the parent and the grandparent are painted, one in focus after the other
  obtain ⟨rb₁, h₁, r₁⟩ := setColor_spec h.up .black
  obtain ⟨rb₂, h₂, r₂⟩ := setColor_spec r₁.holds.up .red
  have hturn : join s .red (join s .black (join .left ct l x r) fx fs) gx gs =
      join s.other .red gs gx (join s.other .black fs fx (join .left ct l x r)) := by
    rw [join_other, join_other]
  obtain ⟨rb₃, h₃, r₃⟩ := rotate_spec (s := s.other) (hturn ▸ r₂.holds)
  rw [← hturn, join_other s .black] at r₃
  refine ⟨rb₃, ?_, (r₁.trans r₂).trans r₃⟩
  have hn₁ : rb₁.get x.addr = .ok (cell .left fx.addr (addr l) (addr r) ct x) :=
    r₁.holds.down.get_join
  have hf₁ : rb₁.get fx.addr = .ok (cell s gx.addr x.addr (addr fs) .black fx) := by
    have := r₁.holds.get_join
    rwa [addr_join] at this
  simp only [addr_join, liftParent, h.get_join, Exec.ok_bind, cell_parent, parentAddr] at h₁ h₂ ⊢
  rw [h₁, Exec.ok_bind, hn₁, Exec.ok_bind, cell_parent, hf₁, Exec.ok_bind, cell_parent, h₂]
  exact h₃

/-- **A round of `insert_fix_up`.** -/
theorem insertRound_spec {f g : Frame (Entry K V)} (h : Holds rb (plug (f :: g :: ctx) t))
    (hi : Inserting (f :: g :: ctx) t n) (hf : f.color = .red) (hg : g.color = .black) :
    ∃ rb' ctx' t' n', insertRound g.side rb (addr t) f.elt.addr g.elt.addr = .ok (rb', addr t') ∧
      Rearranged rb rb' (plug (f :: g :: ctx) t) (plug ctx' t') ∧ Inserting ctx' t' n' ∧
      ctx'.length < ctx.length + 2 := by
  obtain ⟨un, hun, hucolor⟩ := h.up.up.down_other.get_color
  have hround : insertRound g.side rb (addr t) f.elt.addr g.elt.addr =
      if g.sib.color = .red then do return (← rb.colorFlip g.elt.addr, g.elt.addr)
      else do
        let q ← outerGrandchild g.side rb (addr t) f.elt.addr
        return (← liftParent g.side q.1 q.2, q.2) := by
    simp only [insertRound, h.up.up.get_join, Exec.ok_bind, cell_child_other, hun, hucolor]
  rw [hround]
  cases hu : g.sib.color with
  | red =>
    obtain ⟨rb', hflip, r⟩ := colorFlip_spec h.up.up (join_ne_leaf _ _ _ _ _) (ne_leaf_of_red hu)
    rw [paint_join] at r
    refine ⟨rb', ctx, _, _, ?_, r, hi.flip hf hg hu, by omega⟩
    rw [if_pos rfl, hflip, addr_join]
    rfl
  | black =>
    rw [if_neg (by decide)]
    obtain ⟨fs, fc, fx, ft⟩ := f
    obtain ⟨s, gc, gx, gt⟩ := g
    simp only at hf hg hu h hi ⊢
    subst hf hg
    have ht := ne_leaf_of_red hi.red
    rcases Side.eq_or_eq_other fs s with rfl | rfl
    · -- the node is on the outer side
      obtain ⟨rb', hlift, r⟩ := liftParent_spec ht h
      refine ⟨rb', _, t, n, ?_, r, hi.lift hu, by simp⟩
      have hne : addr t ≠ addr ft := h.up.children_ne (.inl ht)
      rw [outerGrandchild, h.up.get_join, Exec.ok_bind]
      simp only [cell_child_other, if_neg hne, Exec.pure_eq, Exec.ok_bind, hlift]
    · -- the node is on the inner side: it first changes places with its parent
      obtain ⟨tc, a, x, b, rfl⟩ := exists_join s ht
      obtain rfl : tc = .red := by
        have := hi.red
        rwa [color_join] at this
      have hturn : Holds rb (plug (⟨s, .black, gx, gt⟩ :: ctx)
          (join s .red ft fx (join s .red a x b))) := by
        rw [← join_other]
        exact h
      obtain ⟨rb₁, hrot, r₁⟩ := rotate_spec hturn
      obtain ⟨rb', hlift, r₂⟩ := liftParent_spec (join_ne_leaf s .red ft fx a) r₁.holds.down
      rw [← join_other s .red _ fx ft] at r₁
      refine ⟨rb', _, _, n, ?_, r₁.trans r₂, hi.turn.lift hu, by simp⟩
      rw [outerGrandchild, hturn.get_join, Exec.ok_bind, cell_child_other, if_pos rfl, hrot]
      rw [addr_join] at hlift ⊢
      simp only [Exec.pure_eq, Exec.ok_bind, hlift]

/-- **The loop of `insert_fix_up`** ends, and leaves a balanced tree without red-red edges. -/
theorem insertFixUpLoop_spec {fuel : ℕ} (h : Holds rb (plug ctx t)) (hi : Inserting ctx t n)
    (hfuel : ctx.length < fuel) :
    ∃ rb' t', insertFixUpLoop fuel rb (addr t) = .ok rb' ∧ Rearranged rb rb' (plug ctx t) t' ∧
      t' ≠ .leaf ∧ (∃ m, Balanced t' m) ∧ NoRedRed t' := by
  induction fuel generalizing rb ctx t n with
  | zero => omega
  | succ fuel ih =>
    have ht := ne_leaf_of_red hi.red
    obtain ⟨tn, htn, htp⟩ : ∃ tn, rb.get (addr t) = .ok tn ∧ tn.parent = parentAddr ctx := by
      obtain ⟨c, l, x, r, rfl⟩ := exists_join .left ht
      exact ⟨_, addr_join .. ▸ h.get_join, cell_parent ..⟩
    obtain ⟨pn, hpn, hpc⟩ : ∃ pn, rb.get (parentAddr ctx) = .ok pn ∧ pn.color = topColor ctx := by
      cases ctx with
      | nil =>
        obtain ⟨m, hm, hc⟩ := h.sentinel
        exact ⟨m, get_eq hm, hc⟩
      | cons f ctx => exact ⟨_, h.up.get_join, cell_color ..⟩
    simp only [insertFixUpLoop, htn, Exec.ok_bind, htp, hpn, hpc]
    cases htop : topColor ctx with
    | black =>
      rw [if_neg (by decide)]
      obtain ⟨hb, hr⟩ := fits_plug hi.balanced hi.noRedRed
        (fun hc => Color.noConfusion (htop.symm.trans hc)) hi.sound
      exact ⟨rb, plug ctx t, rfl, .refl h, fun heq => ht (plug_eq_leaf heq).2, hb, hr⟩
    | red =>
      -- a red parent is not the root
      cases ctx with
      | nil => cases htop
      | cons f ctx =>
        obtain ⟨-, htop', hne⟩ := hi.sound.2.2.1 htop
        cases ctx with
        | nil => exact absurd rfl hne
        | cons g ctx =>
          obtain ⟨rb₁, ctx₁, t₁, n₁, hround, r₁, hi₁, hlen⟩ := insertRound_spec h hi htop htop'
          obtain ⟨rb', t', hloop, r₂, hrest⟩ := ih r₁.holds hi₁ (by
            simp only [List.length_cons] at hfuel
            omega)
          refine ⟨rb', t', ?_, r₁.trans r₂, hrest⟩
          have hside := h.up.up.sideOf (.inl (join_ne_leaf _ _ _ _ _))
          rw [addr_join] at hside
          obtain rfl := Except.ok.inj (h.up.get_join.symm.trans hpn)
          rw [if_pos rfl, cell_parent]
          simp only [parentAddr, hside, Exec.ok_bind, hround, hloop]

/-- **`insert_fix_up`** makes a red-black tree. -/
theorem insertFixUp_spec (h : Holds rb (plug ctx t)) (hi : Inserting ctx t n) :
    ∃ rb' t', rb.insertFixUp (addr t) = .ok rb' ∧ Rearranged rb rb' (plug ctx t) t' ∧
      IsRedBlack t' := by
  have hlen := length_ctx_le ctx t
  have hsize := h.size
  obtain ⟨rb₁, t₁, hloop, r₁, hne, ⟨m, hb⟩, hr⟩ := insertFixUpLoop_spec h hi
    (show ctx.length < rb.size + 1 by omega)
  have h₁ : Holds rb₁ (plug [] t₁) := r₁.holds
  obtain ⟨rb', hcolor, r₂⟩ := setColor_focus h₁ hne .black
  refine ⟨rb', t₁.paint .black, ?_, r₁.trans r₂, ?_, hb.paint_black, hr.paint_black⟩
  · rw [insertFixUp, hloop, Exec.ok_bind, r₁.holds.root, hcolor]
  · obtain ⟨c, l, x, r, rfl⟩ := exists_join .left hne
    rw [paint_join, color_join]

/-! ## After a delete -/

/-- What the loop of `delete_fix_up` keeps about the subtree in focus and its context: the context
expects one more black node. -/
structure Deleting (ctx : List (Frame (Entry K V))) (t : Tree (Entry K V)) (n : ℕ) : Prop where
  balanced : Balanced t n
  noRedRed : NoRedRed (t.paint .black)
  sound : Sound ctx (n + 1)

/-- A black node seen from a red sibling: the sibling comes up, and the new sibling is black. -/
theorem Deleting.rotateSibling {fx wx : Entry K V} {a b : Tree (Entry K V)}
    (h : Deleting (⟨s, c, fx, join s .red a wx b⟩ :: ctx) t n) :
    c = .black ∧ a.color = .black ∧
      Deleting (⟨s, .red, fx, a⟩ :: ⟨s, .black, wx, b⟩ :: ctx) t n := by
  obtain ⟨hwb, hwr, hfred, hctx⟩ := h.sound
  obtain ⟨m, hm, ha, hb⟩ := balanced_join.mp hwb
  obtain rfl : n + 1 = m := hm
  obtain ⟨hred, har, hbr⟩ := noRedRed_join.mp hwr
  have hc : c = .black := by
    cases c with
    | black => rfl
    | red =>
      have := (hfred rfl).1
      rw [color_join] at this
      cases this
  subst hc
  exact ⟨rfl, (hred rfl).1, h.balanced, h.noRedRed, ha, har,
    fun _ => ⟨(hred rfl).1, rfl, by simp⟩, hb, hbr, fun hc => Color.noConfusion hc, hctx⟩

/-- Both nephews black: the sibling is painted red and the parent comes into focus. -/
theorem Deleting.paintSibling {f : Frame (Entry K V)} {a b : Tree (Entry K V)}
    (h : Deleting (f :: ctx) t n) (hw : f.sib = join s .black a x b) (ht : t.color = .black)
    (ha : a.color = .black) (hb : b.color = .black) :
    Deleting ctx (join f.side f.color t f.elt (join s .red a x b)) (n + f.color.weight) := by
  obtain ⟨hwb, hwr, hfred, hctx⟩ := h.sound
  rw [hw] at hwb hwr
  obtain ⟨m, hm, hab, hbb⟩ := balanced_join.mp hwb
  obtain rfl : n = m := by
    simp only [Color.weight] at hm
    omega
  obtain ⟨-, har, hbr⟩ := noRedRed_join.mp hwr
  have htr := h.noRedRed
  rw [paint_self ht] at htr
  refine ⟨balanced_join.mpr ⟨n, rfl, h.balanced, balanced_join.mpr ⟨n, rfl, hab, hbb⟩⟩, ?_, ?_⟩
  · rw [paint_join, noRedRed_join, noRedRed_join]
    exact ⟨fun hc => Color.noConfusion hc, htr, fun _ => ⟨ha, hb⟩, har, hbr⟩
  · have : n + f.color.weight + 1 = n + 1 + f.color.weight := by omega
    rw [this]
    exact hctx

/-- The inner nephew red, the outer one black: the inner one becomes the sibling. -/
theorem Deleting.rotateNephew {fx wx yx : Entry K V} {y₁ y₂ b : Tree (Entry K V)}
    (h : Deleting (⟨s, c, fx, join s .black (join s .red y₁ yx y₂) wx b⟩ :: ctx) t n)
    (hb : b.color = .black) :
    Deleting (⟨s, c, fx, join s .black y₁ yx (join s .red y₂ wx b)⟩ :: ctx) t n := by
  obtain ⟨hwb, hwr, hfred, hctx⟩ := h.sound
  obtain ⟨m, hm, hyb, hbb⟩ := balanced_join.mp hwb
  obtain ⟨m', hm', h₁, h₂⟩ := balanced_join.mp hyb
  obtain rfl : m = m' := hm'
  obtain ⟨-, hyr, hbr⟩ := noRedRed_join.mp hwr
  obtain ⟨hred, hr₁, hr₂⟩ := noRedRed_join.mp hyr
  refine ⟨h.balanced, h.noRedRed, balanced_join.mpr ⟨m, hm, h₁, balanced_join.mpr ⟨m, rfl, h₂, hbb⟩⟩,
    noRedRed_join.mpr ⟨fun hc => Color.noConfusion hc, hr₁,
      noRedRed_join.mpr ⟨fun _ => ⟨(hred rfl).2, hb⟩, hr₂, hbr⟩⟩,
    fun hc => ⟨color_join .., (hfred hc).2⟩, hctx⟩

/-- The outer nephew red: the sibling comes up, and the tree is in order. -/
theorem Deleting.finish {fx wx : Entry K V} {a b : Tree (Entry K V)}
    (h : Deleting (⟨s, c, fx, join s .black a wx b⟩ :: ctx) t n) (ht : t.color = .black)
    (hb : b.color = .red) :
    (∃ m, Balanced (plug ctx (join s c (join s .black t fx a) wx (b.paint .black))) m) ∧
      NoRedRed (plug ctx (join s c (join s .black t fx a) wx (b.paint .black))) := by
  obtain ⟨hwb, hwr, hfred, hctx⟩ := h.sound
  obtain ⟨m, hm, hab, hbb⟩ := balanced_join.mp hwb
  obtain rfl : n = m := by
    simp only [Color.weight] at hm
    omega
  obtain ⟨-, har, hbr⟩ := noRedRed_join.mp hwr
  have htr := h.noRedRed
  rw [paint_self ht] at htr
  obtain ⟨bc, b₁, bx, b₂, rfl⟩ := exists_join .left (ne_leaf_of_red hb)
  rw [color_join] at hb
  subst hb
  rw [paint_join]
  obtain ⟨m', hm', hb₁, hb₂⟩ := balanced_join.mp hbb
  obtain rfl : n = m' := hm'
  refine fits_plug (n := n + 1 + c.weight) (balanced_join.mpr ⟨n + 1, rfl,
    balanced_join.mpr ⟨n, rfl, h.balanced, hab⟩, balanced_join.mpr ⟨n, rfl, hb₁, hb₂⟩⟩) ?_ ?_ hctx
  · refine noRedRed_join.mpr ⟨fun _ => ⟨color_join .., color_join ..⟩, ?_, ?_⟩
    · exact noRedRed_join.mpr ⟨fun hc => Color.noConfusion hc, htr, har⟩
    · exact noRedRed_join.mpr ⟨fun hc => Color.noConfusion hc, (noRedRed_join.mp hbr).2⟩
  · intro htop
    rw [color_join]
    cases c with
    | black => rfl
    | red =>
      rw [(hfred rfl).2.1] at htop
      cases htop

/-- **The sibling is made black.** -/
theorem blackSibling_spec {fx : Entry K V} (h : Holds rb (plug (⟨s, c, fx, w⟩ :: ctx) t))
    (hd : Deleting (⟨s, c, fx, w⟩ :: ctx) t n) :
    ∃ rb' c' w' ctx', blackSibling s rb fx.addr = .ok (rb', addr w') ∧
      Rearranged rb rb' (plug (⟨s, c, fx, w⟩ :: ctx) t) (plug (⟨s, c', fx, w'⟩ :: ctx') t) ∧
      w'.color = .black ∧ Deleting (⟨s, c', fx, w'⟩ :: ctx') t n ∧
      (ctx' = ctx ∨ c' = .red) := by
  obtain ⟨wn, hwn, hwc⟩ := h.up.down_other.get_color
  have hp : rb.get fx.addr = .ok (cell s (parentAddr ctx) (addr t) (addr w) c fx) := h.up.get_join
  simp only [blackSibling, hp, Exec.ok_bind, cell_child_other, hwn, hwc]
  cases hw : w.color with
  | black => exact ⟨rb, c, w, ctx, rfl, .refl h, hw, hd, .inl rfl⟩
  | red =>
    obtain ⟨wc, a, wx, b, rfl⟩ := exists_join s (ne_leaf_of_red hw)
    rw [color_join] at hw
    subst hw
    obtain ⟨-, ha, hd'⟩ := hd.rotateSibling
    obtain ⟨rb₁, h₁, r₁⟩ := setColor_child_other h.up (join_ne_leaf _ _ _ _ _) .black
    rw [paint_join] at r₁
    obtain ⟨rb₂, h₂, r₂⟩ := setColor_spec r₁.holds .red
    obtain ⟨rb₃, h₃, r₃⟩ := rotate_spec r₂.holds
    refine ⟨rb₃, .red, a, ⟨s, .black, wx, b⟩ :: ctx, ?_, (r₁.trans r₂).trans r₃, ha, hd', .inr rfl⟩
    have hp₃ : rb₃.get fx.addr = .ok (cell s wx.addr (addr t) (addr a) .red fx) :=
      r₃.holds.down.get_join
    simp only at h₁ h₂ h₃
    simp only [addr_join] at h₁ ⊢
    rw [if_pos trivial, h₁, Exec.ok_bind, h₂, Exec.ok_bind, h₃, Exec.ok_bind, hp₃, Exec.ok_bind,
      cell_child_other]
    rfl

/-- **The outer nephew is made red.** -/
theorem redNephew_spec {fx wx : Entry K V} {a b : Tree (Entry K V)}
    (h : Holds rb (plug (⟨s, c, fx, join s .black a wx b⟩ :: ctx) t))
    (hd : Deleting (⟨s, c, fx, join s .black a wx b⟩ :: ctx) t n)
    (hred : ¬ (a.color = .black ∧ b.color = .black)) :
    ∃ rb' cw a' wx' b', redNephew s rb fx.addr wx.addr = .ok (rb', wx'.addr) ∧
      Rearranged rb rb' (plug (⟨s, c, fx, join s .black a wx b⟩ :: ctx) t)
        (plug (⟨s, c, fx, join s cw a' wx' b'⟩ :: ctx) t) ∧
      b'.color = .red ∧ Deleting (⟨s, c, fx, join s .black a' wx' b'⟩ :: ctx) t n := by
  have hsib : Holds rb (plug (⟨s.other, c, fx, t⟩ :: ctx) (join s .black a wx b)) :=
    h.up.down_other
  obtain ⟨an, han, -⟩ := hsib.down.get_color
  obtain ⟨bn, hbn, hbc⟩ := hsib.down_other.get_color
  simp only [redNephew, hsib.get_join, Exec.ok_bind, cell_child_other, cell_child, hbn, hbc]
  cases hb : b.color with
  | red => exact ⟨rb, .black, a, wx, b, rfl, .refl h, hb, hd⟩
  | black =>
    have ha : a.color = .red := by
      cases hac : a.color with
      | red => rfl
      | black => exact absurd ⟨hac, hb⟩ hred
    obtain ⟨ac, y₁, yx, y₂, rfl⟩ := exists_join s (ne_leaf_of_red ha)
    rw [color_join] at ha
    subst ha
    obtain ⟨rb₁, h₁, r₁⟩ := setColor_spec hsib .red
    have hturn : join s .red (join s .red y₁ yx y₂) wx b =
        join s.other .red b wx (join s.other .red y₂ yx y₁) := by
      rw [join_other, join_other]
    obtain ⟨rb₂, h₂, r₂⟩ := rotate_spec (s := s.other) (hturn ▸ r₁.holds)
    have hdone : join s.other .red (join s.other .red b wx y₂) yx y₁ =
        join s .red y₁ yx (join s .red y₂ wx b) := by
      rw [join_other, join_other]
    rw [← hturn, hdone] at r₂
    have r := r₁.trans r₂
    simp only [plug, join_other] at r
    refine ⟨rb₂, .red, y₁, yx, join s .red y₂ wx b, ?_, r, color_join .., hd.rotateNephew hb⟩
    have hp₂ : rb₂.get fx.addr = .ok (cell s (parentAddr ctx) (addr t) yx.addr c fx) := by
      have := r.holds.get_join
      rwa [addr_join] at this
    rw [if_pos rfl, han, Exec.ok_bind, h₁, Exec.ok_bind, h₂, Exec.ok_bind, hp₂, Exec.ok_bind,
      cell_child_other]
    rfl

/-- The last part of a round: the sibling `w` takes the place and the colour of the parent `p`. -/
def liftSibling (s : Side) (rb : RBtree K V) (p w : Addr) : Exec (RBtree K V) := do
  let rb ← rb.setColor w (← rb.get p).color
  let rb ← rb.setColor p .black
  let rb ← rb.setColor ((← rb.get w).child s.other) .black
  rotate s rb p

theorem liftSibling_spec {fx wx : Entry K V} {a b : Tree (Entry K V)} {cw : Color}
    (h : Holds rb (plug (⟨s, c, fx, join s cw a wx b⟩ :: ctx) t)) (hb : b.color = .red) :
    ∃ rb', liftSibling s rb fx.addr wx.addr = .ok rb' ∧
      Rearranged rb rb' (plug (⟨s, c, fx, join s cw a wx b⟩ :: ctx) t)
        (plug ctx (join s c (join s .black t fx a) wx (b.paint .black))) := by
  have hp : rb.get fx.addr = .ok (cell s (parentAddr ctx) (addr t) wx.addr c fx) := by
    have := h.up.get_join
    rwa [addr_join] at this
  obtain ⟨rb₁, h₁, r₁⟩ := setColor_child_other h.up (join_ne_leaf _ _ _ _ _) c
  rw [paint_join] at r₁
  obtain ⟨rb₂, h₂, r₂⟩ := setColor_spec r₁.holds .black
  obtain ⟨rb₃, h₃, r₃⟩ := setColor_child_other r₂.holds.down_other (ne_leaf_of_red hb) .black
  have hw₂ := r₂.holds.down_other.get_join
  simp only [plug, join_other] at r₃
  obtain ⟨rb₄, h₄, r₄⟩ := rotate_spec r₃.holds
  refine ⟨rb₄, ?_, ((r₁.trans r₂).trans r₃).trans r₄⟩
  simp only [addr_join] at h₁ h₂ hw₂
  rw [liftSibling, hp, Exec.ok_bind, cell_color, h₁, Exec.ok_bind, h₂, Exec.ok_bind, hw₂,
    Exec.ok_bind, cell_child_other, h₃, Exec.ok_bind]
  exact h₄

/-- A round of `delete_fix_up` from the black sibling on, which decides by the colours of the
nephews. -/
theorem deleteRound_eq {rb₁ : RBtree K V} {p : Addr} {wx : Entry K V} {a b : Tree (Entry K V)}
    (hsib : blackSibling s rb p = .ok (rb₁, wx.addr))
    (hw : Holds rb₁ (plug ctx (join s c a wx b))) :
    deleteRound s rb p =
      if a.color = .black ∧ b.color = .black then do return (← rb₁.setColor wx.addr .red, p)
      else do
        let q ← redNephew s rb₁ p wx.addr
        let rb ← liftSibling s q.1 p q.2
        return (rb, rb.root) := by
  obtain ⟨an, han, hac⟩ := hw.down.get_color
  obtain ⟨bn, hbn, hbc⟩ := hw.down_other.get_color
  simp only [deleteRound, liftSibling, hsib, Exec.ok_bind, hw.get_join, bind_assoc]
  cases s with
  | left => simp only [cell, han, hbn, Exec.ok_bind, hac, hbc]
  | right => simp only [cell, han, hbn, Exec.ok_bind, hac, hbc, and_comm]

/-- **A round of `delete_fix_up`.** -/
theorem deleteRound_spec {f : Frame (Entry K V)} (h : Holds rb (plug (f :: ctx) t))
    (hd : Deleting (f :: ctx) t n) (ht : t.color = .black) :
    ∃ rb' ctx' t' n', deleteRound f.side rb f.elt.addr = .ok (rb', addr t') ∧
      Rearranged rb rb' (plug (f :: ctx) t) (plug ctx' t') ∧ t' ≠ .leaf ∧ Deleting ctx' t' n' ∧
      (ctx'.length < ctx.length + 1 ∨ t'.color = .red) := by
  obtain ⟨s, c, fx, w⟩ := f
  obtain ⟨rb₁, c', w', ctx', hsib, r₁, hw', hd₁, hctx'⟩ := blackSibling_spec h hd
  obtain ⟨wc, a, wx, b, rfl⟩ := exists_join s (ne_leaf_of_balanced hd₁.sound.1)
  rw [color_join] at hw'
  subst hw'
  have hw₁ : Holds rb₁ (plug (⟨s.other, c', fx, t⟩ :: ctx') (join s .black a wx b)) :=
    r₁.holds.up.down_other
  rw [addr_join] at hsib
  simp only [deleteRound_eq hsib hw₁]
  by_cases hboth : a.color = .black ∧ b.color = .black
  · -- the sibling is painted red
    obtain ⟨rb₂, h₂, r₂⟩ := setColor_child_other r₁.holds.up (join_ne_leaf _ _ _ _ _) .red
    rw [paint_join] at r₂
    refine ⟨rb₂, ctx', _, _, ?_, r₁.trans r₂, join_ne_leaf _ _ _ _ _,
      hd₁.paintSibling rfl ht hboth.1 hboth.2, ?_⟩
    · simp only [addr_join] at h₂ ⊢
      rw [if_pos hboth, h₂]
      rfl
    · rcases hctx' with rfl | rfl
      · exact .inl (Nat.lt_succ_self _)
      · exact .inr (color_join ..)
  · rw [if_neg hboth]
    obtain ⟨rb₂, cw, a', wx', b', hneph, r₂, hb', hd₂⟩ := redNephew_spec r₁.holds hd₁ hboth
    obtain ⟨rb₃, h₃, r₃⟩ := liftSibling_spec r₂.holds hb'
    obtain ⟨⟨m, hbal⟩, hred⟩ := hd₂.finish ht hb'
    refine ⟨rb₃, [], plug ctx' (join s c' (join s .black t fx a') wx' (b'.paint .black)), m, ?_,
      (r₁.trans r₂).trans r₃, fun hleaf => join_ne_leaf _ _ _ _ _ (plug_eq_leaf hleaf).2,
      ⟨hbal, hred.paint_black, trivial⟩, .inl (by simp)⟩
    rw [hneph, Exec.ok_bind, ← r₃.holds.root]
    simp only [h₃, Exec.ok_bind]
    rfl

/-- The parent read at the subtree in focus, or at the sentinel in its place. -/
theorem parent_focus {f : Frame (Entry K V)} {m : RBnode K V} (h : Holds rb (plug (f :: ctx) t))
    (hleaf : t = .leaf → ∃ m, rb.node nil = some m ∧ m.parent = f.elt.addr)
    (hm : rb.get (addr t) = .ok m) : m.parent = f.elt.addr := by
  by_cases hne : t = .leaf
  · obtain ⟨m', hm', hp⟩ := hleaf hne
    subst hne
    obtain rfl := Except.ok.inj ((get_eq hm').symm.trans hm)
    exact hp
  · obtain ⟨c, l, x, r, rfl⟩ := exists_join .left hne
    rw [addr_join] at hm
    obtain rfl := Except.ok.inj (h.get_join.symm.trans hm)
    exact cell_parent ..

/-- **The loop of `delete_fix_up`** ends at a node that, painted black, completes the tree. -/
theorem deleteFixUpLoop_spec {fuel : ℕ} (h : Holds rb (plug ctx t)) (hd : Deleting ctx t n)
    (hleaf : t = .leaf → ctx ≠ [] ∧ ∃ m, rb.node nil = some m ∧ m.parent = parentAddr ctx)
    (hfuel : ctx.length < fuel ∨ 0 < fuel ∧ t.color = .red) :
    ∃ rb' ctx' t', deleteFixUpLoop fuel rb (addr t) = .ok (rb', addr t') ∧
      Rearranged rb rb' (plug ctx t) (plug ctx' t') ∧ t' ≠ .leaf ∧
      IsRedBlack (plug ctx' (t'.paint .black)) := by
  induction fuel generalizing rb ctx t n with
  | zero => omega
  | succ fuel ih =>
    obtain ⟨tn, htn, htc⟩ := h.get_color
    -- the loop ends at the root and at a red node
    have hdone : t ≠ .leaf → (ctx = [] ∨ t.color = .red) →
        IsRedBlack (plug ctx (t.paint .black)) := by
      intro hne hend
      have hcol : (t.paint .black).color = .black := by
        obtain ⟨c, l, x, r, rfl⟩ := exists_join .left hne
        rw [paint_join, color_join]
      rcases hend with rfl | hred
      · exact ⟨hcol, hd.balanced.paint_black, hd.noRedRed⟩
      · have hbal : Balanced (t.paint .black) (n + 1) := by
          obtain ⟨c, l, x, r, rfl⟩ := exists_join .left hne
          rw [color_join] at hred
          subst hred
          obtain ⟨m, rfl, hl, hr⟩ := balanced_join.mp hd.balanced
          rw [paint_join, balanced_join]
          exact ⟨n, rfl, hl, hr⟩
        obtain ⟨hb, hr⟩ := fits_plug hbal hd.noRedRed (fun _ => hcol) hd.sound
        refine ⟨?_, hb, hr⟩
        cases ctx with
        | nil => exact hcol
        | cons f ctx => exact color_plug_of_sound hd.sound (by simp)
    rw [deleteFixUpLoop]
    by_cases hroot : addr t = rb.root
    · have hctx := h.addr_eq_root.mp hroot
      have hne : t ≠ .leaf := fun ht => (hleaf ht).1 hctx
      exact ⟨rb, ctx, t, by rw [if_pos hroot]; rfl, .refl h, hne, hdone hne (.inl hctx)⟩
    rw [if_neg hroot, htn, Exec.ok_bind, htc]
    cases htcol : t.color with
    | red =>
      exact ⟨rb, ctx, t, by rw [if_pos rfl]; rfl, .refl h, ne_leaf_of_red htcol,
        hdone (ne_leaf_of_red htcol) (.inr htcol)⟩
    | black =>
      cases ctx with
      | nil => exact absurd (h.addr_eq_root.mpr rfl) hroot
      | cons f ctx =>
        have htp : tn.parent = f.elt.addr := parent_focus h (fun ht => (hleaf ht).2) htn
        have hside : rb.sideOf f.elt.addr (addr t) = .ok f.side :=
          h.up.sideOf (.inr (ne_leaf_of_balanced hd.sound.1))
        obtain ⟨rb₁, ctx₁, t₁, n₁, hround, r₁, hne₁, hd₁, hlen⟩ := deleteRound_spec h hd htcol
        have hfuel₁ : ctx₁.length < fuel ∨ 0 < fuel ∧ t₁.color = .red := by
          rcases hfuel with hfuel | ⟨-, hred⟩
          · simp only [List.length_cons] at hfuel
            rcases hlen with hlen | hred
            · exact .inl (by omega)
            · exact .inr ⟨by omega, hred⟩
          · rw [htcol] at hred
            cases hred
        obtain ⟨rb', ctx', t', hloop, r₂, hrest⟩ := ih r₁.holds hd₁ (fun ht => absurd ht hne₁) hfuel₁
        refine ⟨rb', ctx', t', ?_, r₁.trans r₂, hrest⟩
        rw [if_neg (by decide)]
        simp only [Exec.ok_bind, htp, hside, hround, hloop]

/-- **`delete_fix_up`** makes a red-black tree. -/
theorem deleteFixUp_spec (h : Holds rb (plug ctx t)) (hd : Deleting ctx t n)
    (hleaf : t = .leaf → ctx ≠ [] ∧ ∃ m, rb.node nil = some m ∧ m.parent = parentAddr ctx) :
    ∃ rb' t', rb.deleteFixUp (addr t) = .ok rb' ∧ Rearranged rb rb' (plug ctx t) t' ∧
      IsRedBlack t' := by
  have hlen := length_ctx_le ctx t
  have hsize := h.size
  obtain ⟨rb₁, ctx₁, t₁, hloop, r₁, hne, hrb⟩ := deleteFixUpLoop_spec h hd hleaf
    (.inl (show ctx.length < rb.size + 1 by omega))
  obtain ⟨rb', hcolor, r₂⟩ := setColor_focus r₁.holds hne .black
  refine ⟨rb', plug ctx₁ (t₁.paint .black), ?_, r₁.trans r₂, hrb⟩
  simp only [deleteFixUp, hloop, Exec.ok_bind, hcolor]

end Kendylib.RBtree
