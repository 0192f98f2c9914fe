import Kendylib.Container.RBtreeShape

/-!
# Checking a tree

`check` walks a tree and is to return a value other than `0` exactly for the valid ones: no red node
has a red parent, and all paths from the root to the sentinel have the same number of black nodes.
It counts at the nodes without children only. A node with one child ends a path as well, on the side
of the sentinel, and there nothing is compared.

* `check_spec`: what `check` returns, in terms of the numbers at the nodes without children
  (`leafCounts`).
* `balanced_iff`: these numbers decide the matter unless a black node is below a node with one child.
* `checks_iff`: so the answer is right exactly if there is no such node, or the tree is rejected for
  another reason.
-/

namespace Kendylib

namespace Tree

variable {α : Type}

def isLeaf : Tree α → Bool
  | leaf => true
  | node .. => false

theorem isLeaf_iff {t : Tree α} : t.isLeaf = true ↔ t = leaf := by
  cases t <;> simp [isLeaf]

/-- The numbers of black nodes on the paths to the nodes without children, where `b` black nodes are
above the tree. -/
def leafCounts : Tree α → ℕ → List ℕ
  | leaf, _ => []
  | node c l _ r, b =>
    if l.isLeaf && r.isLeaf then [b + c.weight]
    else l.leafCounts (b + c.weight) ++ r.leafCounts (b + c.weight)

/-- All paths to nodes without children have the same number of black nodes. -/
def LeavesAgree (t : Tree α) : Prop := ∃ m, ∀ k ∈ t.leafCounts 0, k = m

def HasBlack : Tree α → Prop
  | leaf => False
  | node c l _ r => c = .black ∨ l.HasBlack ∨ r.HasBlack

/-- A node with one child has a black node below it. -/
def BlackBelowOneChild : Tree α → Prop
  | leaf => False
  | node _ l _ r => l = leaf ∧ r.HasBlack ∨ r = leaf ∧ l.HasBlack ∨
    l.BlackBelowOneChild ∨ r.BlackBelowOneChild

variable {t l r : Tree α} {b k m n : ℕ} {c : Color} {x : α}

theorem le_of_mem_leafCounts (h : k ∈ t.leafCounts b) : b ≤ k := by
  induction t generalizing b with
  | leaf => simp [leafCounts] at h
  | node c l x r ihl ihr =>
    rw [leafCounts] at h
    split at h
    · rw [List.mem_singleton.mp h]
      exact Nat.le_add_right ..
    · rcases List.mem_append.mp h with h | h
      · exact (Nat.le_add_right ..).trans (ihl h)
      · exact (Nat.le_add_right ..).trans (ihr h)

/-- A black root is on every path. -/
theorem pos_of_mem_leafCounts (ht : t ≠ leaf) (hroot : t.color = .black)
    (h : k ∈ t.leafCounts 0) : k ≠ 0 := by
  cases t with
  | leaf => exact absurd rfl ht
  | node c l x r =>
    obtain rfl : c = .black := hroot
    rw [leafCounts] at h
    split at h
    · rw [List.mem_singleton.mp h]
      exact one_ne_zero
    · rcases List.mem_append.mp h with h | h
      · exact Nat.one_le_iff_ne_zero.mp (le_of_mem_leafCounts h)
      · exact Nat.one_le_iff_ne_zero.mp (le_of_mem_leafCounts h)

theorem leafCounts_ne_nil (ht : t ≠ leaf) : t.leafCounts b ≠ [] := by
  induction t generalizing b with
  | leaf => exact absurd rfl ht
  | node c l x r ihl ihr =>
    rw [leafCounts]
    split
    · simp
    · rename_i hnot
      rw [Bool.and_eq_true, isLeaf_iff, isLeaf_iff] at hnot
      by_cases hl : l = leaf
      · exact List.append_ne_nil_of_right_ne_nil _ (ihr fun hr => hnot ⟨hl, hr⟩)
      · exact List.append_ne_nil_of_left_ne_nil (ihl hl) _

/-- The paths of a balanced tree to the nodes without children are as long as the others. -/
theorem Balanced.leafCounts (h : Balanced t n) (hk : k ∈ t.leafCounts b) : k = b + n := by
  induction t generalizing b n with
  | leaf => simp [Tree.leafCounts] at hk
  | node c l x r ihl ihr =>
    obtain ⟨m, rfl, hl, hr⟩ := h
    rw [Tree.leafCounts] at hk
    split at hk
    · rename_i hleaf
      rw [Bool.and_eq_true, isLeaf_iff] at hleaf
      rw [hleaf.1] at hl
      rw [List.mem_singleton.mp hk, show m = 0 from hl, Nat.zero_add]
    · rcases List.mem_append.mp hk with hk | hk
      · rw [ihl hl hk]
        omega
      · rw [ihr hr hk]
        omega

theorem balanced_zero (h : ¬ t.HasBlack) : Balanced t 0 := by
  induction t with
  | leaf => rfl
  | node c l x r ihl ihr =>
    simp only [HasBlack, not_or] at h
    refine ⟨0, ?_, ihl h.2.1, ihr h.2.2⟩
    cases c with
    | red => rfl
    | black => exact absurd rfl h.1

theorem not_hasBlack (h : Balanced t 0) : ¬ t.HasBlack := by
  induction t with
  | leaf => exact id
  | node c l x r ihl ihr =>
    obtain ⟨m, hm, hl, hr⟩ := h
    have hc : c ≠ .black := by
      rintro rfl
      simp [Color.weight] at hm
    obtain rfl : m = 0 := by omega
    simp only [HasBlack, not_or]
    exact ⟨hc, ihl hl, ihr hr⟩

theorem Balanced.not_blackBelowOneChild (h : Balanced t n) : ¬ t.BlackBelowOneChild := by
  induction t generalizing n with
  | leaf => exact id
  | node c l x r ihl ihr =>
    obtain ⟨m, -, hl, hr⟩ := h
    rintro (⟨rfl, hblack⟩ | ⟨rfl, hblack⟩ | hbelow | hbelow)
    · obtain rfl : m = 0 := hl
      exact not_hasBlack hr hblack
    · obtain rfl : m = 0 := hr
      exact not_hasBlack hl hblack
    · exact ihl hl hbelow
    · exact ihr hr hbelow

/-- In a tree without black nodes the number at the nodes without children is the one above it. -/
theorem eq_of_no_black (hk : ∀ k ∈ t.leafCounts b, k = m) (ht : t ≠ leaf) (h : ¬ t.HasBlack) :
    m = b := by
  have hmem := List.head_mem (leafCounts_ne_nil (b := b) ht)
  rw [← hk _ hmem]
  exact (balanced_zero h).leafCounts hmem

/-- Where the paths to the nodes without children agree, and none ends before a black node, all paths
agree. -/
theorem balanced_of_agree (hk : ∀ k ∈ t.leafCounts b, k = m) (h : ¬ t.BlackBelowOneChild) :
    ∃ n, Balanced t n ∧ (t ≠ leaf → m = b + n) := by
  induction t generalizing b with
  | leaf => exact ⟨0, rfl, fun h => absurd rfl h⟩
  | node c l x r ihl ihr =>
    simp only [BlackBelowOneChild, not_or, not_and] at h
    obtain ⟨hright, hleft, hl, hr⟩ := h
    rw [leafCounts] at hk
    split at hk
    · rename_i hleaf
      rw [Bool.and_eq_true, isLeaf_iff, isLeaf_iff] at hleaf
      obtain ⟨rfl, rfl⟩ := hleaf
      exact ⟨c.weight, ⟨0, (Nat.zero_add _).symm, rfl, rfl⟩, fun _ =>
        (hk _ (List.mem_singleton_self _)).symm⟩
    · rename_i hnot
      have hkl := fun k h => hk k (List.mem_append_left _ h)
      have hkr := fun k h => hk k (List.mem_append_right _ h)
      obtain ⟨nl, hbl, hml⟩ := ihl hkl hl
      obtain ⟨nr, hbr, hmr⟩ := ihr hkr hr
      by_cases hll : l = leaf
      · -- a path ends here, and there is no black node on the other side
        subst hll
        have hm := eq_of_no_black hkr (by rintro rfl; exact hnot rfl) (hright rfl)
        exact ⟨c.weight, ⟨0, (Nat.zero_add _).symm, rfl, balanced_zero (hright rfl)⟩, fun _ => hm⟩
      · by_cases hrl : r = leaf
        · subst hrl
          have hm := eq_of_no_black hkl hll (hleft rfl)
          exact ⟨c.weight, ⟨0, (Nat.zero_add _).symm, balanced_zero (hleft rfl), rfl⟩, fun _ => hm⟩
        · have hsame : nl = nr := by
            have := hml hll
            have := hmr hrl
            omega
          subst hsame
          exact ⟨nl + c.weight, ⟨nl, rfl, hbl, hbr⟩, fun _ => by rw [hml hll]; omega⟩

/-- **All paths agree exactly if** those to the nodes without children do, and no black node is below
a node with one child. -/
theorem balanced_iff : (∃ n, Balanced t n) ↔ t.LeavesAgree ∧ ¬ t.BlackBelowOneChild := by
  constructor
  · rintro ⟨n, h⟩
    exact ⟨⟨0 + n, fun k hk => h.leafCounts hk⟩, h.not_blackBelowOneChild⟩
  · rintro ⟨⟨m, hm⟩, hbelow⟩
    obtain ⟨n, h, -⟩ := balanced_of_agree hm hbelow
    exact ⟨n, h⟩

end Tree

namespace RBtree

open Tree

variable {K V : Type}

/-- `max_black_level` and `max_level`. -/
structure Levels where
  maxBlackLevel : ℕ
  maxLevel : ℕ

/-- `check`, where the end of the function without a `return` counts as success. -/
def check (rb : RBtree K V) : ℕ → Addr → ℕ → ℕ → Levels → Exec (Int × Levels)
  | 0, _, _, _, _ => .error .fuel
  | fuel + 1, n, level, blackLevel, m => do
    if n = nil then return (1, m)
    let node ← rb.get n
    let redParent ← (do
      if node.color = .black then return false
      else return decide ((← rb.get node.parent).color = .red))
    if redParent then return (0, m)
    let blackLevel := if node.color = .black then blackLevel + 1 else blackLevel
    let level := level + 1
    if node.left = nil ∧ node.right = nil then
      let m := { m with maxLevel := max m.maxLevel level }
      if m.maxBlackLevel = 0 then return (1, { m with maxBlackLevel := blackLevel })
      else if m.maxBlackLevel ≠ blackLevel then return (0, m)
      else return (1, m)
    else
      let (r, m) ← check rb fuel node.left level blackLevel m
      if r = 0 then return (0, m)
      let (r, m) ← check rb fuel node.right level blackLevel m
      if r = 0 then return (0, m)
      return (1, m)

/-- `RBtree_check_vaild`: the levels that it prints, if it does. -/
def rbtreeCheckVaild (rb : RBtree K V) : Exec (Option Levels) := do
  if rb.root = nil then return none
  let (r, m) ← check rb (rb.size + 1) rb.root 0 0 ⟨0, 0⟩
  return if r = 0 then none else some m

/-! ## What the check returns -/

/-- The numbers compared one after the other with the first of them; `0` stands for none yet. -/
def scan : ℕ → List ℕ → Option ℕ
  | m, [] => some m
  | m, k :: ks => if m = 0 then scan k ks else if m = k then scan m ks else none

theorem scan_append (m : ℕ) (ks ls : List ℕ) :
    scan m (ks ++ ls) = (scan m ks).bind fun m => scan m ls := by
  induction ks generalizing m with
  | nil => rfl
  | cons k ks ih =>
    rw [List.cons_append, scan, scan]
    split_ifs
    · exact ih k
    · exact ih m
    · rfl

theorem isSome_scan {m : ℕ} {ks : List ℕ} (hm : m ≠ 0) : (scan m ks).isSome ↔ ∀ k ∈ ks, k = m := by
  induction ks with
  | nil => simp [scan]
  | cons k ks ih =>
    rw [scan, if_neg hm, List.forall_mem_cons]
    split_ifs with hk
    · rw [ih, hk, eq_self, true_and]
    · simp [Ne.symm hk]

theorem isSome_scan_zero {ks : List ℕ} (hpos : ∀ k ∈ ks, k ≠ 0) :
    (scan 0 ks).isSome ↔ ∃ m, ∀ k ∈ ks, k = m := by
  cases ks with
  | nil => simp [scan]
  | cons k ks =>
    rw [scan, if_pos rfl, isSome_scan (hpos k List.mem_cons_self)]
    constructor
    · intro h
      exact ⟨k, List.forall_mem_cons.mpr ⟨rfl, h⟩⟩
    · rintro ⟨m, hm⟩
      obtain ⟨rfl, hm⟩ := List.forall_mem_cons.mp hm
      exact hm

variable {rb : RBtree K V} {p : Addr} {q : RBnode K V} {t l r : Tree (Entry K V)} {c : Color}
  {x : Entry K V} {fuel level b : ℕ} {m : Levels}

/-- What a call of `check` returned for a tree below the node `q`, with `b` black nodes above it. -/
structure Answered (q : RBnode K V) (t : Tree (Entry K V)) (b : ℕ) (m : Levels)
    (r : Int × Levels) : Prop where
  success : r.1 ≠ 0 ↔ (q.color = .red → t.color = .black) ∧ NoRedRed t ∧
    (scan m.maxBlackLevel (t.leafCounts b)).isSome
  levels : r.1 ≠ 0 → scan m.maxBlackLevel (t.leafCounts b) = some r.2.maxBlackLevel

/-- `check` at a node, once its colour has been found to be right. -/
def checkBelow (rb : RBtree K V) (fuel : ℕ) (l r : Addr) (level blackLevel : ℕ) (m : Levels) :
    Exec (Int × Levels) := do
  if l = nil ∧ r = nil then
    let m := { m with maxLevel := max m.maxLevel level }
    if m.maxBlackLevel = 0 then return (1, { m with maxBlackLevel := blackLevel })
    else if m.maxBlackLevel ≠ blackLevel then return (0, m)
    else return (1, m)
  else
    let (k, m) ← check rb fuel l level blackLevel m
    if k = 0 then return (0, m)
    let (k, m) ← check rb fuel r level blackLevel m
    if k = 0 then return (0, m)
    return (1, m)

theorem check_node (hx : x.addr ≠ nil)
    (hcell : rb.node x.addr = some (cell .left p (addr l) (addr r) c x)) (hp : rb.get p = .ok q) :
    check rb (fuel + 1) x.addr level b m =
      if c = .red ∧ q.color = .red then .ok (0, m)
      else checkBelow rb fuel (addr l) (addr r) (level + 1) (b + c.weight) m := by
  have hget : rb.get x.addr = .ok (cell .left p (addr l) (addr r) c x) := by
    rw [RBtree.get, hcell]
  rw [check, if_neg hx, hget]
  cases c with
  | black =>
    simp only [Exec.ok_bind, Exec.pure_eq, cell_color, if_true, reduceCtorEq, false_and, if_false,
      Bool.false_eq_true]
    rfl
  | red =>
    simp only [Exec.ok_bind, Exec.pure_eq, cell_color, cell_parent, reduceCtorEq, if_false, hp,
      decide_eq_true_eq, true_and]
    rfl

/-- A node without children: its number is compared, or is the first one. -/
theorem checkBelow_childless (hq : q.color = .red → c = .black) :
    ∃ r, checkBelow rb fuel nil nil level (b + c.weight) m = .ok r ∧
      Answered q (.node c .leaf x .leaf) b m r := by
  have hno : NoRedRed (.node c .leaf x .leaf : Tree (Entry K V)) :=
    ⟨fun _ => ⟨rfl, rfl⟩, trivial, trivial⟩
  have hcounts : (Tree.node c .leaf x .leaf).leafCounts b = [b + c.weight] := rfl
  rw [checkBelow, if_pos ⟨rfl, rfl⟩]
  dsimp only
  split_ifs with hzero hne
  · have hscan : scan m.maxBlackLevel [b + c.weight] = some (b + c.weight) := by
      rw [scan, if_pos hzero, scan]
    refine ⟨_, rfl, iff_of_true one_ne_zero ⟨hq, hno, ?_⟩, fun _ => ?_⟩
    · rw [hcounts, hscan, Option.isSome_some]
    · rw [hcounts, hscan]
  · have hscan : scan m.maxBlackLevel [b + c.weight] = none := by
      rw [scan, if_neg hzero, if_neg hne]
    refine ⟨_, rfl, iff_of_false (fun h => h rfl) fun h => ?_, fun h => absurd rfl h⟩
    rw [hcounts, hscan] at h
    cases h.2.2
  · have hscan : scan m.maxBlackLevel [b + c.weight] = some m.maxBlackLevel := by
      rw [scan, if_neg hzero, if_pos (not_ne_iff.mp hne), scan]
    refine ⟨_, rfl, iff_of_true one_ne_zero ⟨hq, hno, ?_⟩, fun _ => ?_⟩
    · rw [hcounts, hscan, Option.isSome_some]
    · rw [hcounts, hscan]

/-- A node with a child: both sides are checked, the sentinel among them. -/
theorem checkBelow_children {n : RBnode K V} {k k' : Int × Levels} (hq : q.color = .red → c = .black)
    (hn : n.color = c) (hnil : ¬ (addr l = nil ∧ addr r = nil))
    (hcounts : (Tree.node c l x r).leafCounts b =
      l.leafCounts (b + c.weight) ++ r.leafCounts (b + c.weight))
    (hleft : check rb fuel (addr l) level (b + c.weight) m = .ok k)
    (A : Answered n l (b + c.weight) m k)
    (hright : check rb fuel (addr r) level (b + c.weight) k.2 = .ok k')
    (A' : Answered n r (b + c.weight) k.2 k') :
    ∃ res, checkBelow rb fuel (addr l) (addr r) level (b + c.weight) m = .ok res ∧
      Answered q (.node c l x r) b m res := by
  obtain ⟨hok, hlev⟩ := A
  obtain ⟨hok', hlev'⟩ := A'
  rw [hn] at hok hok'
  rw [checkBelow, if_neg hnil, hleft, Exec.ok_bind]
  dsimp only
  by_cases hk : k.1 = 0
  · rw [if_pos hk]
    refine ⟨_, rfl, iff_of_false (fun h => h rfl) ?_, fun h => absurd rfl h⟩
    rintro ⟨-, ⟨hcol, hno, -⟩, hscan⟩
    rw [hcounts, scan_append] at hscan
    exact hok.mpr ⟨fun hc => (hcol hc).1, hno, Option.isSome_of_isSome_bind hscan⟩ hk
  have hscan : scan m.maxBlackLevel ((Tree.node c l x r).leafCounts b) =
      scan k.2.maxBlackLevel (r.leafCounts (b + c.weight)) := by
    rw [hcounts, scan_append, hlev hk, Option.bind_some]
  obtain ⟨hcl, hnol, -⟩ := hok.mp hk
  rw [if_neg hk, hright, Exec.ok_bind]
  split_ifs with hk'
  · refine ⟨_, rfl, iff_of_false (fun h => h rfl) ?_, fun h => absurd rfl h⟩
    rintro ⟨-, ⟨hcol, -, hno⟩, hsome⟩
    rw [hscan] at hsome
    exact hok'.mpr ⟨fun hc => (hcol hc).2, hno, hsome⟩ hk'
  · obtain ⟨hcr, hnor, hsome⟩ := hok'.mp hk'
    refine ⟨_, rfl, iff_of_true one_ne_zero ?_, fun _ => ?_⟩
    · rw [hscan]
      exact ⟨hq, ⟨fun hc => ⟨hcl hc, hcr hc⟩, hnol, hnor⟩, hsome⟩
    · rw [hscan, hlev' hk']

/-- **`check`** succeeds exactly if no red node has a red parent and the numbers of black nodes at
the nodes without children are the same. -/
theorem check_spec (level b : ℕ) (m : Levels) (h : Rep rb.node p t) (hp : rb.get p = .ok q)
    (hfuel : t.toList.length < fuel) :
    ∃ r, check rb fuel (addr t) level b m = .ok r ∧ Answered q t b m r := by
  induction t generalizing p q fuel level b m with
  | leaf =>
    obtain ⟨f, rfl⟩ : ∃ f, fuel = f + 1 := ⟨fuel - 1, by omega⟩
    exact ⟨(1, m), rfl, by simp [NoRedRed, scan, leafCounts, Tree.color], fun _ => rfl⟩
  | node c l x r ihl ihr =>
    obtain ⟨f, rfl⟩ : ∃ f, fuel = f + 1 := ⟨fuel - 1, by omega⟩
    obtain ⟨hx, hcell, hl, hr⟩ := h
    rw [toList, List.length_append, List.length_cons] at hfuel
    have hget : rb.get x.addr = .ok (cell .left p (addr l) (addr r) c x) := by
      rw [RBtree.get, hcell]
    rw [addr, check_node hx hcell hp]
    split_ifs with hred
    · refine ⟨_, rfl, iff_of_false (fun h => h rfl) fun h => ?_, fun h => absurd rfl h⟩
      have hblack := h.1 hred.2
      rw [Tree.color, hred.1] at hblack
      cases hblack
    have hq : q.color = .red → c = .black := by
      intro hq
      cases c with
      | red => exact absurd ⟨rfl, hq⟩ hred
      | black => rfl
    by_cases hleaf : l = .leaf ∧ r = .leaf
    · obtain ⟨rfl, rfl⟩ := hleaf
      exact checkBelow_childless hq
    · have hcounts : (Tree.node c l x r).leafCounts b =
          l.leafCounts (b + c.weight) ++ r.leafCounts (b + c.weight) := by
        rw [leafCounts, if_neg]
        rwa [Bool.and_eq_true, isLeaf_iff, isLeaf_iff]
      obtain ⟨k, hleft, A⟩ := ihl (level + 1) (b + c.weight) m hl hget
        (show l.toList.length < f by omega)
      obtain ⟨k', hright, A'⟩ := ihr (level + 1) (b + c.weight) k.2 hr hget
        (show r.toList.length < f by omega)
      exact checkBelow_children hq (cell_color ..) (by rwa [hl.addr_eq_nil, hr.addr_eq_nil]) hcounts
        hleft A hright A'

/-! ## Exactness -/

/-- `check` returns, from the root of the tree on, a value other than `0` exactly if no red node has
a red parent and all paths from the root to the sentinel have the same number of black nodes. -/
def Checks (rb : RBtree K V) (t : Tree (Entry K V)) : Prop :=
  ∃ r m, check rb (rb.size + 1) rb.root 0 0 ⟨0, 0⟩ = .ok (r, m) ∧
    (r ≠ 0 ↔ NoRedRed t ∧ ∃ n, Balanced t n)

/-- **The checker is right about a tree exactly unless** no red node of it has a red parent, the
paths to the nodes without children have the same number of black nodes, and a node with one child
has a black node below it. -/
theorem checks_iff (h : Holds rb t) (ht : t ≠ .leaf) (hroot : t.color = .black) :
    Checks rb t ↔ ¬ (NoRedRed t ∧ t.LeavesAgree ∧ t.BlackBelowOneChild) := by
  obtain ⟨s, hs, hblack⟩ := h.sentinel
  have hget : rb.get nil = .ok s := by rw [RBtree.get, hs]
  obtain ⟨⟨r, m⟩, hcheck, A⟩ := check_spec 0 0 ⟨0, 0⟩ h.rep hget
    (Nat.lt_succ_of_le h.size)
  rw [← h.root] at hcheck
  have hsuccess : r ≠ 0 ↔ NoRedRed t ∧ t.LeavesAgree := by
    have h := A.success
    rw [isSome_scan_zero fun k => pos_of_mem_leafCounts ht hroot] at h
    exact h.trans (and_iff_right fun _ => hroot)
  have hsame : Checks rb t ↔ (r ≠ 0 ↔ NoRedRed t ∧ ∃ n, Balanced t n) := by
    constructor
    · rintro ⟨r', m', hcheck', hiff⟩
      cases Except.ok.inj (hcheck'.symm.trans hcheck)
      exact hiff
    · exact fun hiff => ⟨r, m, hcheck, hiff⟩
  rw [hsame, hsuccess, balanced_iff]
  tauto

/-- A black root with one child of the colour `c`, on the left. -/
def oneChild (c : Color) : RBtree Unit Unit where
  root := 1
  size := 2
  node
    | 0 => some ⟨0, 0, 0, .black, (), ()⟩
    | 1 => some ⟨0, 2, 0, .black, (), ()⟩
    | 2 => some ⟨1, 0, 0, c, (), ()⟩
    | _ => none
  fresh := 3

def oneChildTree (c : Color) : Tree (Entry Unit Unit) :=
  .node .black (.node c .leaf ⟨2, (), ()⟩ .leaf) ⟨1, (), ()⟩ .leaf

theorem holds_oneChild (c : Color) : Holds (oneChild c) (oneChildTree c) where
  root := rfl
  rep := ⟨one_ne_zero, rfl, ⟨two_ne_zero, rfl, trivial, trivial⟩, trivial⟩
  nodup := by
    show [2, 1].Nodup
    decide
  fresh := by
    show 0 < 3 ∧ ∀ a ∈ [2, 1], a < 3
    decide
  sentinel := ⟨_, rfl, rfl⟩
  size := le_rfl

/-- A red child is no black node below a node with one child. -/
theorem checks_red_child : Holds (oneChild .red) (oneChildTree .red) ∧
    oneChildTree .red ≠ .leaf ∧ (oneChildTree .red).color = .black ∧
      Checks (oneChild .red) (oneChildTree .red) := by
  refine ⟨holds_oneChild _, by simp [oneChildTree], rfl,
    (checks_iff (holds_oneChild _) (by simp [oneChildTree]) rfl).mpr ?_⟩
  rintro ⟨-, -, hbelow⟩
  simp [oneChildTree, BlackBelowOneChild, HasBlack] at hbelow

/-- A black child on one side only is not noticed. -/
theorem not_checks_black_child : Holds (oneChild .black) (oneChildTree .black) ∧
    oneChildTree .black ≠ .leaf ∧ (oneChildTree .black).color = .black ∧
      ¬ Checks (oneChild .black) (oneChildTree .black) := by
  refine ⟨holds_oneChild _, by simp [oneChildTree], rfl, ?_⟩
  rintro ⟨r, m, hcheck, hiff⟩
  obtain rfl : 1 = r := congrArg Prod.fst (Except.ok.inj hcheck)
  obtain ⟨-, n, k, -, ⟨j, hj, -, -⟩, hk⟩ := hiff.mp one_ne_zero
  simp only [Tree.Balanced, Color.weight] at hj hk
  omega

end RBtree

end Kendylib
