import Kendylib.Container.RBtree
import Mathlib.Data.List.Nodup

/-!
# The shape of a red-black tree in memory

`Holds rb t` says that the pointers of `rb` are those of the tree `t`, whose elements are the nodes
with their addresses, keys and values: every link and every parent pointer is right, no node is
met twice, the root's parent is the sentinel and the sentinel is black. An operation at a node
inside the tree is specified for a subtree in a context:

* painting a node (`setColor_spec`) and overwriting it (`put_spec`);
* **a rotation** (`rotate_spec`), whose two subtrees on the outside stay where they are, while the
  one in the middle, or the sentinel in its place, gets a new parent.
-/

namespace Kendylib

/-- A node of the tree: its address, key and value. -/
structure Entry (K V : Type) where
  addr : Addr
  key : K
  val : V

namespace RBtree

variable {K V : Type}

open Tree

/-- The address of the root of a subtree. -/
def addr : Tree (Entry K V) → Addr
  | .leaf => nil
  | .node _ _ x _ => x.addr

/-- The node `x` as it is stored, with the link `a` on the side `s` and `b` on the other. -/
def cell (s : Side) (p a b : Addr) (c : Color) (x : Entry K V) : RBnode K V :=
  match s with
  | .left => ⟨p, a, b, c, x.key, x.val⟩
  | .right => ⟨p, b, a, c, x.key, x.val⟩

section Cell

variable (s : Side) (p q a b d : Addr) (c c' : Color) (x : Entry K V)

@[simp] theorem cell_parent : (cell s p a b c x).parent = p := by cases s <;> rfl
@[simp] theorem cell_color : (cell s p a b c x).color = c := by cases s <;> rfl
@[simp] theorem cell_key : (cell s p a b c x).key = x.key := by cases s <;> rfl
@[simp] theorem cell_val : (cell s p a b c x).val = x.val := by cases s <;> rfl
@[simp] theorem cell_child : (cell s p a b c x).child s = a := by cases s <;> rfl
@[simp] theorem cell_child_other : (cell s p a b c x).child s.other = b := by cases s <;> rfl

theorem cell_setParent : { cell s p a b c x with parent := q } = cell s q a b c x := by
  cases s <;> rfl

theorem cell_setColor : { cell s p a b c x with color := c' } = cell s p a b c' x := by
  cases s <;> rfl

@[simp] theorem cell_setChild : (cell s p a b c x).setChild d s = cell s p d b c x := by
  cases s <;> rfl

@[simp] theorem cell_setChild_other :
    (cell s p a b c x).setChild d s.other = cell s p a d c x := by
  cases s <;> rfl

end Cell

@[simp] theorem addr_join (s : Side) (c : Color) (t u : Tree (Entry K V)) (x : Entry K V) :
    addr (join s c t x u) = x.addr := by
  cases s <;> rfl

@[simp] theorem addr_paint (c : Color) (t : Tree (Entry K V)) : addr (t.paint c) = addr t := by
  cases t <;> rfl

/-! ## Trees in memory -/

/-- The addresses of a tree. -/
def addrs (t : Tree (Entry K V)) : List Addr := t.toList.map Entry.addr

/-- The subtree `t` is in memory below the parent `p`. -/
def Rep (node : Addr → Option (RBnode K V)) : Addr → Tree (Entry K V) → Prop
  | _, .leaf => True
  | p, .node c l x r => x.addr ≠ nil ∧
    node x.addr = some (cell .left p (addr l) (addr r) c x) ∧ Rep node x.addr l ∧ Rep node x.addr r

variable {node node' : Addr → Option (RBnode K V)} {p : Addr} {t u w : Tree (Entry K V)}
  {x y : Entry K V} {s : Side} {c d : Color}

theorem rep_join :
    Rep node p (join s c t x u) ↔ x.addr ≠ nil ∧
      node x.addr = some (cell s p (addr t) (addr u) c x) ∧ Rep node x.addr t ∧
      Rep node x.addr u := by
  cases s with
  | left => rfl
  | right =>
    simp only [join, Rep, cell]
    tauto

theorem mem_addrs_join {a : Addr} :
    a ∈ addrs (join s c t x u) ↔ a = x.addr ∨ a ∈ addrs t ∨ a ∈ addrs u := by
  cases s <;> simp only [addrs, join, toList, List.map_append, List.map_cons, List.mem_append,
    List.mem_cons] <;> tauto

theorem addr_mem (h : t ≠ .leaf) : addr t ∈ addrs t := by
  cases t with
  | leaf => exact absurd rfl h
  | node c l x r => simp [addr, addrs, toList]

theorem Rep.ne_nil (h : Rep node p t) {a : Addr} (ha : a ∈ addrs t) : a ≠ nil := by
  induction t generalizing p with
  | leaf => simp [addrs, toList] at ha
  | node c l x r ihl ihr =>
    obtain ⟨hx, -, hl, hr⟩ := h
    rcases mem_addrs_join (s := .left).mp ha with rfl | ha | ha
    · exact hx
    · exact ihl hl ha
    · exact ihr hr ha

theorem Rep.addr_eq_nil (h : Rep node p t) : addr t = nil ↔ t = .leaf := by
  refine ⟨fun ha => ?_, fun ht => by rw [ht]; rfl⟩
  by_contra hne
  exact h.ne_nil (addr_mem hne) ha

theorem Rep.congr (h : Rep node p t) (heq : ∀ a ∈ addrs t, node' a = node a) : Rep node' p t := by
  induction t generalizing p with
  | leaf => trivial
  | node c l x r ihl ihr =>
    obtain ⟨hx, hcell, hl, hr⟩ := h
    have hmem := @mem_addrs_join K V l r x .left c
    exact ⟨hx, by rw [heq _ (hmem.mpr (.inl rfl)), hcell],
      ihl hl fun a ha => heq a (hmem.mpr (.inr (.inl ha))),
      ihr hr fun a ha => heq a (hmem.mpr (.inr (.inr ha)))⟩

/-! ## Contexts in memory -/

/-- The parent of the subtree in focus. -/
def parentAddr : List (Frame (Entry K V)) → Addr
  | [] => nil
  | f :: _ => f.elt.addr

/-- The address of the whole tree, with a subtree at `a` in focus. -/
def rootAddr : List (Frame (Entry K V)) → Addr → Addr
  | [], a => a
  | f :: ctx, _ => rootAddr ctx f.elt.addr

/-- The elements of a context. -/
def ctxList : List (Frame (Entry K V)) → List (Entry K V)
  | [] => []
  | f :: ctx => f.elt :: (f.sib.toList ++ ctxList ctx)

def ctxAddrs (ctx : List (Frame (Entry K V))) : List Addr := (ctxList ctx).map Entry.addr

/-- The context is in memory, with the link `a` to the subtree in focus. -/
def RepCtx (node : Addr → Option (RBnode K V)) : List (Frame (Entry K V)) → Addr → Prop
  | [], _ => True
  | f :: ctx, a => f.elt.addr ≠ nil ∧
    node f.elt.addr = some (cell f.side (parentAddr ctx) a (addr f.sib) f.color f.elt) ∧
    Rep node f.elt.addr f.sib ∧ RepCtx node ctx f.elt.addr

variable {ctx : List (Frame (Entry K V))} {a b : Addr}

theorem mem_ctxAddrs_cons {f : Frame (Entry K V)} :
    a ∈ ctxAddrs (f :: ctx) ↔ a = f.elt.addr ∨ a ∈ addrs f.sib ∨ a ∈ ctxAddrs ctx := by
  simp only [ctxAddrs, ctxList, List.map_cons, List.mem_cons, List.map_append, List.mem_append,
    addrs]

theorem rep_plug : Rep node nil (plug ctx t) ↔ RepCtx node ctx (addr t) ∧
    Rep node (parentAddr ctx) t := by
  induction ctx generalizing t with
  | nil => simp [plug, RepCtx, parentAddr]
  | cons f ctx ih =>
    rw [plug, ih, rep_join, addr_join, RepCtx, parentAddr]
    tauto

theorem addr_plug : addr (plug ctx t) = rootAddr ctx (addr t) := by
  induction ctx generalizing t with
  | nil => rfl
  | cons f ctx ih => rw [plug, ih, addr_join, rootAddr]

theorem toList_plug_perm : (plug ctx t).toList.Perm (t.toList ++ ctxList ctx) := by
  induction ctx generalizing t with
  | nil => simp [plug, ctxList]
  | cons f ctx ih =>
    obtain ⟨s, c, x, u⟩ := f
    refine ih.trans ?_
    cases s with
    | left => simp [join, toList, ctxList]
    | right =>
      simp only [join, toList, ctxList]
      calc u.toList ++ x :: t.toList ++ ctxList ctx
          = (u.toList ++ x :: t.toList) ++ ctxList ctx := rfl
        _ |>.Perm ((t.toList ++ x :: u.toList) ++ ctxList ctx) := by
          refine List.Perm.append_right _ ?_
          exact (List.perm_append_comm.trans (by simp)).trans List.perm_middle.symm
        _ |>.Perm (t.toList ++ x :: (u.toList ++ ctxList ctx)) := by simp

theorem RepCtx.congr (h : RepCtx node ctx a) (heq : ∀ b ∈ ctxAddrs ctx, node' b = node b) :
    RepCtx node' ctx a := by
  induction ctx generalizing a with
  | nil => trivial
  | cons f ctx ih =>
    obtain ⟨hf, hcell, hsib, hctx⟩ := h
    exact ⟨hf, by rw [heq _ (mem_ctxAddrs_cons.mpr (.inl rfl)), hcell],
      hsib.congr fun b hb => heq b (mem_ctxAddrs_cons.mpr (.inr (.inl hb))),
      ih hctx fun b hb => heq b (mem_ctxAddrs_cons.mpr (.inr (.inr hb)))⟩

theorem RepCtx.ne_nil (h : RepCtx node ctx a) (hb : b ∈ ctxAddrs ctx) : b ≠ nil := by
  induction ctx generalizing a with
  | nil => simp [ctxAddrs, ctxList] at hb
  | cons f ctx ih =>
    obtain ⟨hf, -, hsib, hctx⟩ := h
    rcases mem_ctxAddrs_cons.mp hb with rfl | hb | hb
    · exact hf
    · exact hsib.ne_nil hb
    · exact ih hctx hb

theorem rootAddr_mem (hne : ctx ≠ []) : rootAddr ctx a ∈ ctxAddrs ctx := by
  induction ctx generalizing a with
  | nil => exact absurd rfl hne
  | cons f ctx ih =>
    rw [mem_ctxAddrs_cons, rootAddr]
    cases ctx with
    | nil => exact .inl rfl
    | cons g ctx => exact .inr (.inr (ih (by simp)))

/-! ## The whole tree -/

/-- The pointers of `rb` are those of `t`. The counter may be ahead of the tree: a node is unlinked
before `size` is decreased. -/
structure Holds (rb : RBtree K V) (t : Tree (Entry K V)) : Prop where
  root : rb.root = addr t
  rep : Rep rb.node nil t
  nodup : (addrs t).Nodup
  fresh : nil < rb.fresh ∧ ∀ a ∈ addrs t, a < rb.fresh
  sentinel : ∃ n, rb.node nil = some n ∧ n.color = .black
  size : t.toList.length ≤ rb.size

/-- The tree `t` was rearranged into `t'`: the same elements in the same order, and no node outside
the tree but the sentinel was touched. -/
structure Rearranged (rb rb' : RBtree K V) (t t' : Tree (Entry K V)) : Prop where
  holds : Holds rb' t'
  toList : t'.toList = t.toList
  frame : ∀ a, a ≠ nil → a ∉ addrs t → rb'.node a = rb.node a
  size : rb'.size = rb.size

variable {rb rb' rb₁ rb₂ : RBtree K V} {t' t₁ t₂ : Tree (Entry K V)}

theorem Rearranged.addrs (h : Rearranged rb rb' t t') : RBtree.addrs t' = RBtree.addrs t := by
  rw [RBtree.addrs, h.toList, RBtree.addrs]

theorem Rearranged.refl (h : Holds rb t) : Rearranged rb rb t t :=
  ⟨h, rfl, fun _ _ _ => rfl, rfl⟩

theorem Rearranged.trans (h₁ : Rearranged rb rb₁ t t₁) (h₂ : Rearranged rb₁ rb₂ t₁ t₂) :
    Rearranged rb rb₂ t t₂ :=
  ⟨h₂.holds, h₂.toList.trans h₁.toList, fun a hn ha =>
    (h₂.frame a hn (by rwa [h₁.addrs])).trans (h₁.frame a hn ha), h₂.size.trans h₁.size⟩

theorem get_eq {n : RBnode K V} (h : rb.node a = some n) : rb.get a = .ok n := by
  rw [get, h]

theorem put_node_self (rb : RBtree K V) (a : Addr) (n : RBnode K V) :
    (rb.put a n).node a = some n := Function.update_self ..

theorem put_node_of_ne (hb : b ≠ a) (rb : RBtree K V) (n : RBnode K V) :
    (rb.put a n).node b = rb.node b := Function.update_of_ne hb ..

namespace Holds

/-- The addresses of a subtree and those of its context. -/
theorem split (h : Holds rb (plug ctx t)) :
    (addrs t).Nodup ∧ (ctxAddrs ctx).Nodup ∧ ∀ a ∈ addrs t, a ∉ ctxAddrs ctx := by
  have hperm : (addrs (plug ctx t)).Perm (addrs t ++ ctxAddrs ctx) := by
    rw [addrs, addrs, ctxAddrs, ← List.map_append]
    exact toList_plug_perm.map _
  obtain ⟨ht, hctx, hdisj⟩ := List.nodup_append.mp (hperm.nodup_iff.mp h.nodup)
  exact ⟨ht, hctx, fun a ha hac => hdisj a ha a hac rfl⟩

theorem repCtx (h : Holds rb (plug ctx t)) : RepCtx rb.node ctx (addr t) := (rep_plug.mp h.rep).1

theorem repFocus (h : Holds rb (plug ctx t)) : Rep rb.node (parentAddr ctx) t :=
  (rep_plug.mp h.rep).2

theorem mem_plug (ctx : List (Frame (Entry K V))) (t : Tree (Entry K V)) :
    a ∈ addrs (plug ctx t) ↔ a ∈ addrs t ∨ a ∈ ctxAddrs ctx := by
  rw [addrs, (toList_plug_perm.map Entry.addr).mem_iff, List.map_append, List.mem_append]
  rfl

/-- The node in focus. -/
theorem node_join (h : Holds rb (plug ctx (join s c t x u))) :
    rb.node x.addr = some (cell s (parentAddr ctx) (addr t) (addr u) c x) :=
  (rep_join.mp h.repFocus).2.1

theorem get_join (h : Holds rb (plug ctx (join s c t x u))) :
    rb.get x.addr = .ok (cell s (parentAddr ctx) (addr t) (addr u) c x) :=
  get_eq h.node_join

theorem ne_nil (h : Holds rb (plug ctx (join s c t x u))) : x.addr ≠ nil :=
  (rep_join.mp h.repFocus).1

/-- The colour of a subtree, read through its address. -/
theorem get_color (h : Holds rb (plug ctx t)) : ∃ n, rb.get (addr t) = .ok n ∧ n.color = t.color := by
  cases t with
  | leaf =>
    obtain ⟨n, hn, hc⟩ := h.sentinel
    exact ⟨n, get_eq hn, hc⟩
  | node c l x r => exact ⟨_, get_join (s := .left) h, cell_color ..⟩

/-- The parent in focus. -/
theorem up {f : Frame (Entry K V)} (h : Holds rb (plug (f :: ctx) t)) :
    Holds rb (plug ctx (join f.side f.color t f.elt f.sib)) := h

/-- The child on the side `s` in focus. -/
theorem down (h : Holds rb (plug ctx (join s c t x u))) : Holds rb (plug (⟨s, c, x, u⟩ :: ctx) t) := h

theorem down_other (h : Holds rb (plug ctx (join s c t x u))) :
    Holds rb (plug (⟨s.other, c, x, t⟩ :: ctx) u) := by
  rw [← join_other s c u x t] at h
  exact h

/-- The two children of a node are not the same address, unless both are leaves. -/
theorem children_ne (h : Holds rb (plug ctx (join s c t x u))) (hne : t ≠ .leaf ∨ u ≠ .leaf) :
    addr t ≠ addr u := by
  intro heq
  have ht := h.down.repFocus
  have hu := h.down_other.repFocus
  rcases hne with hne | hne
  · have hmem := addr_mem hne
    have hu' : u ≠ .leaf := by
      rw [Ne, ← hu.addr_eq_nil, ← heq, ht.addr_eq_nil]
      exact hne
    exact h.down.split.2.2 _ hmem (by
      rw [mem_ctxAddrs_cons, heq]
      exact .inr (.inl (addr_mem hu')))
  · have hmem := addr_mem hne
    have ht' : t ≠ .leaf := by
      rw [Ne, ← ht.addr_eq_nil, heq, hu.addr_eq_nil]
      exact hne
    exact h.down.split.2.2 _ (addr_mem ht') (by
      rw [mem_ctxAddrs_cons, heq]
      exact .inr (.inl hmem))

/-- The side test of the code. -/
theorem sideOf (h : Holds rb (plug ctx (join s c t x u))) (hne : t ≠ .leaf ∨ u ≠ .leaf) :
    rb.sideOf x.addr (addr t) = .ok s := by
  have hchild := h.children_ne hne
  rw [RBtree.sideOf, h.get_join, Exec.ok_bind]
  cases s with
  | left => simp [cell]
  | right => simp [cell, hchild]

/-- Whether the subtree in focus is the whole tree. -/
theorem addr_eq_root (h : Holds rb (plug ctx t)) : addr t = rb.root ↔ ctx = [] := by
  rw [h.root, addr_plug]
  constructor
  · intro heq
    by_contra hne
    have hmem := rootAddr_mem (a := addr t) hne
    rw [← heq] at hmem
    by_cases ht : t = .leaf
    · exact h.repCtx.ne_nil hmem (by rw [ht]; rfl)
    · exact h.split.2.2 _ (addr_mem ht) hmem
  · rintro rfl
    rfl

end Holds

/-! ## Overwriting a node -/

/-- Other data and another colour at the same address. -/
theorem addrs_setElt {c' : Color} (hy : y.addr = x.addr) :
    addrs (plug ctx (join s c' t y u)) = addrs (plug ctx (join s c t x u)) := by
  rw [addrs, addrs, toList_plug, toList_plug]
  cases s <;> simp [join, toList, hy]

/-- Painting the node in focus, and giving it other data. -/
theorem put_spec (h : Holds rb (plug ctx (join s c t x u))) (c' : Color) (y : Entry K V)
    (hy : y.addr = x.addr) :
    Holds (rb.put x.addr (cell s (parentAddr ctx) (addr t) (addr u) c' y))
      (plug ctx (join s c' t y u)) := by
  obtain ⟨hx, hcell, ht, hu⟩ := rep_join.mp h.repFocus
  obtain ⟨hnodup, -, hout⟩ := h.split
  have haddrs : addrs (plug ctx (join s c' t y u)) = addrs (plug ctx (join s c t x u)) :=
    addrs_setElt hy
  have hne : ∀ a, a ≠ x.addr → (rb.put x.addr (cell s (parentAddr ctx) (addr t) (addr u) c' y)).node a =
      rb.node a := fun a ha => put_node_of_ne ha ..
  have hmem : ∀ a, a ∈ addrs t ∨ a ∈ addrs u → a ≠ x.addr := by
    rintro a (ha | ha) rfl
    · exact h.down.split.2.2 _ ha (mem_ctxAddrs_cons.mpr (.inl rfl))
    · exact h.down_other.split.2.2 _ ha (mem_ctxAddrs_cons.mpr (.inl rfl))
  refine ⟨?_, rep_plug.mpr ⟨?_, rep_join.mpr ⟨by rw [hy]; exact hx, ?_, ?_, ?_⟩⟩, ?_, ?_, ?_, ?_⟩
  · rw [addr_plug, addr_join, hy]
    have := h.root
    rwa [addr_plug, addr_join] at this
  · have := h.repCtx
    rw [addr_join] at this ⊢
    rw [hy]
    refine this.congr fun b hb => hne b ?_
    rintro rfl
    exact hout _ (mem_addrs_join.mpr (.inl rfl)) hb
  · rw [hy]
    exact put_node_self ..
  · rw [hy]
    exact ht.congr fun a ha => hne a (hmem a (.inl ha))
  · rw [hy]
    exact hu.congr fun a ha => hne a (hmem a (.inr ha))
  · rw [haddrs]
    exact h.nodup
  · rw [haddrs]
    exact h.fresh
  · rw [hne nil hx.symm]
    exact h.sentinel
  · have hlen := congrArg List.length haddrs
    rw [addrs, addrs, List.length_map, List.length_map] at hlen
    rw [hlen]
    exact h.size

/-- **Painting a node.** -/
theorem setColor_spec (h : Holds rb (plug ctx (join s c t x u))) (c' : Color) :
    ∃ rb', rb.setColor x.addr c' = .ok rb' ∧
      Rearranged rb rb' (plug ctx (join s c t x u)) (plug ctx (join s c' t x u)) := by
  refine ⟨rb.put x.addr (cell s (parentAddr ctx) (addr t) (addr u) c' x), ?_,
    put_spec h c' x rfl, ?_, fun a _ ha => ?_, rfl⟩
  · rw [setColor, h.get_join, Exec.ok_bind, cell_setColor]
    rfl
  · rw [toList_plug, toList_plug]
    cases s <;> rfl
  · refine put_node_of_ne ?_ ..
    rintro rfl
    exact ha ((Holds.mem_plug ..).mpr (.inl (mem_addrs_join.mpr (.inl rfl))))

/-! ## Relinking -/

/-- `setParent` at the root of a subtree, or at the sentinel if the subtree is a leaf. -/
theorem setParent_spec {q : Addr} (hrep : Rep rb.node p t) (hnodup : (addrs t).Nodup)
    (hnil : ∃ n, rb.node nil = some n ∧ n.color = .black) :
    ∃ rb', rb.setParent (addr t) q = .ok rb' ∧ Rep rb'.node q t ∧
      (∃ n, rb'.node nil = some n ∧ n.color = .black ∧ (t = .leaf → n.parent = q)) ∧
      (∀ a, a ≠ addr t → rb'.node a = rb.node a) ∧
      rb'.root = rb.root ∧ rb'.size = rb.size ∧ rb'.fresh = rb.fresh := by
  cases t with
  | leaf =>
    obtain ⟨n, hn, hc⟩ := hnil
    refine ⟨rb.put nil { n with parent := q }, ?_, trivial,
      ⟨{ n with parent := q }, put_node_self .., hc, fun _ => rfl⟩,
      fun a ha => put_node_of_ne ha .., rfl, rfl, rfl⟩
    rw [setParent, addr, get_eq hn]
    rfl
  | node c l x r =>
    obtain ⟨hx, hcell, hl, hr⟩ := hrep
    have hout : x.addr ∉ addrs l ∧ x.addr ∉ addrs r := by
      simp only [addrs, toList, List.map_append, List.map_cons] at hnodup ⊢
      obtain ⟨-, hxr, hdisj⟩ := List.nodup_append.mp hnodup
      exact ⟨fun hxl => hdisj _ hxl _ List.mem_cons_self rfl, (List.nodup_cons.mp hxr).1⟩
    obtain ⟨n, hn, hc⟩ := hnil
    have hne : ∀ a, a ≠ x.addr →
        (rb.put x.addr (cell .left q (addr l) (addr r) c x)).node a = rb.node a :=
      fun a ha => put_node_of_ne ha ..
    refine ⟨rb.put x.addr (cell .left q (addr l) (addr r) c x), ?_, ⟨hx, put_node_self ..,
      hl.congr fun a ha => hne a ?_, hr.congr fun a ha => hne a ?_⟩,
      ⟨n, by rw [hne nil hx.symm, hn], hc, by simp⟩, hne, rfl, rfl, rfl⟩
    · rw [setParent, addr, get_eq hcell, Exec.ok_bind, cell_setParent]
      rfl
    · rintro rfl
      exact hout.1 ha
    · rintro rfl
      exact hout.2 ha

/-- Setting the link of the innermost frame. -/
theorem setChild_spec {f : Frame (Entry K V)} (hctx : RepCtx rb.node (f :: ctx) a)
    (hnodup : (ctxAddrs (f :: ctx)).Nodup) (m : Addr) :
    ∃ rb', setChild f.side rb f.elt.addr m = .ok rb' ∧ RepCtx rb'.node (f :: ctx) m ∧
      (∀ b, b ≠ f.elt.addr → rb'.node b = rb.node b) ∧
      rb'.root = rb.root ∧ rb'.size = rb.size ∧ rb'.fresh = rb.fresh := by
  obtain ⟨hf, hcell, hsib, hup⟩ := hctx
  have hfout : f.elt.addr ∉ addrs f.sib ∧ f.elt.addr ∉ ctxAddrs ctx := by
    simp only [ctxAddrs, ctxList, List.map_cons, List.map_append] at hnodup
    have := (List.nodup_cons.mp hnodup).1
    rw [List.mem_append, not_or] at this
    exact this
  have hne : ∀ b, b ≠ f.elt.addr → (rb.put f.elt.addr
      (cell f.side (parentAddr ctx) m (addr f.sib) f.color f.elt)).node b = rb.node b :=
    fun b hb => put_node_of_ne hb ..
  refine ⟨rb.put f.elt.addr (cell f.side (parentAddr ctx) m (addr f.sib) f.color f.elt), ?_,
    ⟨hf, put_node_self .., hsib.congr fun b hb => hne b ?_, hup.congr fun b hb => hne b ?_⟩, hne,
    rfl, rfl, rfl⟩
  · rw [setChild, get_eq hcell, Exec.ok_bind, cell_setChild]
    rfl
  · rintro rfl
    exact hfout.1 hb
  · rintro rfl
    exact hfout.2 hb

/-- `replaceChild` puts another subtree in the place of the one in focus. -/
theorem replaceChild_spec (hctx : RepCtx rb.node ctx a) (hroot : rb.root = rootAddr ctx a)
    (hnodup : (ctxAddrs ctx).Nodup) (ha : a ≠ nil) (hout : a ∉ ctxAddrs ctx) (m : Addr) :
    ∃ rb', rb.replaceChild (parentAddr ctx) a m = .ok rb' ∧ RepCtx rb'.node ctx m ∧
      rb'.root = rootAddr ctx m ∧ (∀ b, b ∉ ctxAddrs ctx → rb'.node b = rb.node b) ∧
      rb'.size = rb.size ∧ rb'.fresh = rb.fresh := by
  cases ctx with
  | nil =>
    refine ⟨{ rb with root := m }, ?_, trivial, rfl, fun _ _ => rfl, rfl, rfl⟩
    rw [replaceChild, if_pos]
    exact hroot.symm
  | cons f ctx =>
    obtain ⟨rb', hset, hctx', hne, hroot', hsize, hfresh⟩ := setChild_spec hctx hnodup m
    obtain ⟨-, hcell, -, -⟩ := hctx
    have hnroot : a ≠ rb.root := by
      rw [hroot]
      rintro heq
      exact hout (heq ▸ rootAddr_mem (by simp))
    have hnsib : a ≠ addr f.sib := by
      rintro rfl
      refine hout (mem_ctxAddrs_cons.mpr (.inr (.inl (addr_mem fun hleaf => ha ?_))))
      rw [hleaf]
      rfl
    refine ⟨rb', ?_, hctx', hroot'.trans hroot, fun b hb => hne b ?_, hsize, hfresh⟩
    · rw [replaceChild, if_neg hnroot, parentAddr, get_eq hcell, Exec.ok_bind]
      -- the link on the side of the hole is the one that leads to `a`
      cases hs : f.side with
      | left =>
        rw [hs] at hset
        rw [if_pos (by rfl), hset]
      | right =>
        rw [hs] at hset
        rw [if_neg (by exact hnsib), hset]
    · rintro rfl
      exact hb (mem_ctxAddrs_cons.mpr (.inl rfl))

theorem ne_addr (ha : a ≠ nil) (hat : a ∉ addrs t) : a ≠ addr t := by
  rintro rfl
  exact hat (addr_mem fun hleaf => ha (by rw [hleaf]; rfl))

/-- The addresses that a rotation has to do with are all different. -/
structure Apart (ctx : List (Frame (Entry K V))) (t u w : Tree (Entry K V)) (x y : Addr) : Prop where
  xy : x ≠ y
  above : x ∉ ctxAddrs ctx ∧ y ∉ ctxAddrs ctx
  left : ∀ a ∈ addrs t, a ≠ x ∧ a ≠ y ∧ a ∉ addrs u ∧ a ∉ ctxAddrs ctx
  middle : ∀ a ∈ addrs u, a ≠ x ∧ a ≠ y ∧ a ∉ ctxAddrs ctx
  right : ∀ a ∈ addrs w, a ≠ x ∧ a ≠ y ∧ a ∉ addrs u ∧ a ∉ ctxAddrs ctx

theorem Holds.apart (h : Holds rb (plug ctx (join s c t x (join s d u y w)))) :
    Apart ctx t u w x.addr y.addr := by
  have ht := h.down.split.2.2
  have hu := h.down_other.down.split.2.2
  have hw := h.down_other.down_other.split.2.2
  have hin := h.down_other.split.2.2 y.addr (mem_addrs_join.mpr (.inl rfl))
  simp only [mem_ctxAddrs_cons, mem_addrs_join, not_or] at ht hu hw hin
  refine ⟨Ne.symm hin.1, ⟨h.split.2.2 _ (mem_addrs_join.mpr (.inl rfl)), hin.2.2⟩, fun a ha => ?_,
    fun a ha => ?_, fun a ha => ?_⟩
  · obtain ⟨hax, ⟨hay, hau, -⟩, hac⟩ := ht a ha
    exact ⟨hax, hay, hau, hac⟩
  · obtain ⟨hay, -, hax, -, hac⟩ := hu a ha
    exact ⟨hax, hay, hac⟩
  · obtain ⟨hay, hau, hax, -, hac⟩ := hw a ha
    exact ⟨hax, hay, hau, hac⟩

/-- **A rotation**: the child `y` of `x` comes up, and the subtree between them changes sides. -/
theorem rotate_spec (h : Holds rb (plug ctx (join s c t x (join s d u y w)))) :
    ∃ rb', rotate s rb x.addr = .ok rb' ∧
      Rearranged rb rb' (plug ctx (join s c t x (join s d u y w)))
        (plug ctx (join s d (join s c t x u) y w)) := by
  have hap := h.apart
  have hxcell := h.node_join
  have hycell := h.down_other.node_join
  rw [addr_join] at hxcell
  have hxn : x.addr ≠ nil := h.ne_nil
  have hyn : y.addr ≠ nil := h.down_other.ne_nil
  have hu := h.down_other.down.repFocus
  have hyu : y.addr ≠ addr u := ne_addr hyn fun hm => (hap.middle _ hm).2.1 rfl
  have hxu : x.addr ≠ addr u := ne_addr hxn fun hm => (hap.middle _ hm).1 rfl
  have hctxu : ∀ a ∈ ctxAddrs ctx, a ≠ addr u := fun a ha =>
    ne_addr (h.repCtx.ne_nil ha) fun hm => (hap.middle _ hm).2.2 ha
  -- the six assignments
  set rb₁ := rb.put x.addr (cell s (parentAddr ctx) (addr t) (addr u) c x) with hrb₁
  have hne₁ : ∀ a, a ≠ x.addr → rb₁.node a = rb.node a := fun a ha => put_node_of_ne ha ..
  have hnil₁ : ∃ n, rb₁.node nil = some n ∧ n.color = .black := by
    rw [hne₁ nil hxn.symm]
    exact h.sentinel
  obtain ⟨rb₂, hrb₂, hu₂, hnil₂, hne₂, hroot₂, hsize₂, hfresh₂⟩ := setParent_spec (q := x.addr)
    (hu.congr fun a ha => hne₁ a (hap.middle a ha).1) h.down_other.down.split.1 hnil₁
  have hctx₂ : RepCtx rb₂.node ctx x.addr := by
    have := h.repCtx
    rw [addr_join] at this
    refine this.congr fun a ha => ?_
    rw [hne₂ a (hctxu a ha), hne₁]
    rintro rfl
    exact hap.above.1 ha
  have hroot : rb₂.root = rootAddr ctx x.addr := by
    have := h.root
    rw [addr_plug, addr_join] at this
    rw [hroot₂, ← this]
    rfl
  obtain ⟨rb₃, hrb₃, hctx₃, hroot₃, hne₃, hsize₃, hfresh₃⟩ := replaceChild_spec hctx₂ hroot
    h.split.2.1 hxn hap.above.1 y.addr
  have hycell₁ : rb₁.node y.addr = some (cell s x.addr (addr u) (addr w) d y) := by
    rw [hne₁ _ hap.xy.symm, hycell]
    rfl
  have hycell₃ : rb₃.node y.addr = some (cell s x.addr (addr u) (addr w) d y) := by
    rw [hne₃ _ hap.above.2, hne₂ _ hyu, hycell₁]
  have hxcell₃ : rb₃.node x.addr = some (cell s (parentAddr ctx) (addr t) (addr u) c x) := by
    rw [hne₃ _ hap.above.1, hne₂ _ hxu, hrb₁, put_node_self]
  set rb₄ := rb₃.put y.addr (cell s (parentAddr ctx) (addr u) (addr w) d y) with hrb₄
  set rb₅ := rb₄.put x.addr (cell s y.addr (addr t) (addr u) c x) with hrb₅
  set rb₆ := rb₅.put y.addr (cell s (parentAddr ctx) x.addr (addr w) d y) with hrb₆
  have hne₆ : ∀ a, a ≠ x.addr → a ≠ y.addr → rb₆.node a = rb₃.node a := by
    intro a hax hay
    rw [hrb₆, put_node_of_ne hay, hrb₅, put_node_of_ne hax, hrb₄, put_node_of_ne hay]
  have hold : ∀ a, a ≠ x.addr → a ≠ y.addr → a ≠ addr u → a ∉ ctxAddrs ctx →
      rb₆.node a = rb.node a := by
    intro a hax hay hau hac
    rw [hne₆ a hax hay, hne₃ a hac, hne₂ a hau, hne₁ a hax]
  have hlist : (plug ctx (join s d (join s c t x u) y w)).toList =
      (plug ctx (join s c t x (join s d u y w))).toList := by
    rw [toList_plug, toList_plug, toList_rotate]
  refine ⟨rb₆, ?_, ⟨?_, rep_plug.mpr ⟨?_, rep_join.mpr ⟨hyn, ?_, rep_join.mpr ⟨hxn, ?_, ?_, ?_⟩, ?_⟩⟩,
    ?_, ?_, ?_, ?_⟩, hlist, fun a han ha => ?_, hsize₃.trans hsize₂⟩
  · rw [rotate, h.get_join, Exec.ok_bind, Exec.ok_bind]
    simp only [cell_parent, cell_child_other, addr_join, if_neg hyn]
    rw [get_eq hycell, Exec.ok_bind, cell_child, setChild, h.get_join, Exec.ok_bind,
      cell_setChild_other, Exec.pure_eq, Exec.ok_bind, ← hrb₁, get_eq hycell₁, Exec.ok_bind,
      cell_child, hrb₂, Exec.ok_bind, hrb₃, Exec.ok_bind, setParent, get_eq hycell₃, Exec.ok_bind,
      cell_setParent, Exec.pure_eq, Exec.ok_bind, ← hrb₄, setParent,
      get_eq (show rb₄.node x.addr = _ by rw [hrb₄, put_node_of_ne hap.xy, hxcell₃]), Exec.ok_bind,
      cell_setParent, Exec.pure_eq, Exec.ok_bind, ← hrb₅, setChild,
      get_eq (show rb₅.node y.addr = _ by rw [hrb₅, put_node_of_ne hap.xy.symm, hrb₄, put_node_self]),
      Exec.ok_bind, cell_setChild, Exec.pure_eq]
  · rw [addr_plug, addr_join]
    exact hroot₃
  · rw [addr_join]
    refine hctx₃.congr fun a ha => hne₆ a ?_ ?_
    · rintro rfl
      exact hap.above.1 ha
    · rintro rfl
      exact hap.above.2 ha
  · rw [addr_join, hrb₆, put_node_self]
  · rw [hrb₆, put_node_of_ne hap.xy, hrb₅, put_node_self]
  · refine h.down.repFocus.congr fun a ha => ?_
    obtain ⟨hax, hay, hau, hac⟩ := hap.left a ha
    exact hold a hax hay (ne_addr (h.down.repFocus.ne_nil ha) hau) hac
  · refine hu₂.congr fun a ha => ?_
    obtain ⟨hax, hay, hac⟩ := hap.middle a ha
    rw [hne₆ a hax hay, hne₃ a hac]
  · refine h.down_other.down_other.repFocus.congr fun a ha => ?_
    obtain ⟨hax, hay, hau, hac⟩ := hap.right a ha
    exact hold a hax hay (ne_addr (h.down_other.down_other.repFocus.ne_nil ha) hau) hac
  · rw [addrs, hlist]
    exact h.nodup
  · rw [addrs, hlist]
    change nil < rb₃.fresh ∧ ∀ a ∈ _, a < rb₃.fresh
    rw [hfresh₃, hfresh₂]
    exact h.fresh
  · obtain ⟨n, hn, hc, -⟩ := hnil₂
    refine ⟨n, ?_, hc⟩
    rw [hne₆ nil hxn.symm hyn.symm, hne₃ nil fun hm => h.repCtx.ne_nil hm rfl, hn]
  · rw [hlist]
    change _ ≤ rb₃.size
    rw [hsize₃, hsize₂]
    exact h.size
  · rw [Holds.mem_plug, mem_addrs_join, mem_addrs_join] at ha
    simp only [not_or] at ha
    exact hold a ha.1.1 ha.1.2.2.1 (ne_addr han ha.1.2.2.2.1) ha.2

end RBtree

end Kendylib
