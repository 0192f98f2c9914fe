import Mathlib.Data.List.Basic
import Mathlib.Tactic.Ring

/-!
# Red-black trees and their contexts

Binary trees with colours, and the context of a subtree: the list of the nodes above it, from its
parent up to the root, each with the side it hangs on and the other child (`Frame`). An algorithm
that works at a node inside a tree works on a context and a subtree, and `plug` puts the two
together.

The red-black conditions split along `plug`: a subtree of a given black height fits a context that
is `Sound` for this height (`isRedBlack_plug`, `sound_of_isRedBlack`).
-/

namespace Kendylib

/-- The side of a child. -/
inductive Side
  | left
  | right
  deriving DecidableEq

namespace Side

def other : Side → Side
  | left => right
  | right => left

@[simp] theorem other_other (s : Side) : s.other.other = s := by cases s <;> rfl

theorem eq_or_eq_other (s s' : Side) : s = s' ∨ s = s'.other := by cases s <;> cases s' <;> simp [other]

end Side

inductive Color
  | red
  | black
  deriving DecidableEq

/-- What a node of this colour adds to the black height. -/
def Color.weight : Color → ℕ
  | red => 0
  | black => 1

/-- A binary tree with coloured nodes. -/
inductive Tree (α : Type)
  | leaf
  | node (c : Color) (l : Tree α) (x : α) (r : Tree α)

namespace Tree

variable {α : Type}

/-- The colour of the root; a leaf is black. -/
def color : Tree α → Color
  | leaf => .black
  | node c _ _ _ => c

/-- Give the root the colour `c`. -/
def paint (c : Color) : Tree α → Tree α
  | leaf => leaf
  | node _ l x r => node c l x r

/-- The elements from left to right. -/
def toList : Tree α → List α
  | leaf => []
  | node _ l x r => l.toList ++ x :: r.toList

/-- The node with the child `t` on the side `s` and `u` on the other. -/
def join (s : Side) (c : Color) (t : Tree α) (x : α) (u : Tree α) : Tree α :=
  match s with
  | .left => node c t x u
  | .right => node c u x t

theorem join_other (s : Side) (c : Color) (t : Tree α) (x : α) (u : Tree α) :
    join s.other c t x u = join s c u x t := by
  cases s <;> rfl

/-- A tree that is not a leaf, seen from the side `s`. -/
theorem exists_join (s : Side) {t : Tree α} (h : t ≠ leaf) :
    ∃ c u x w, t = join s c u x w := by
  cases t with
  | leaf => exact absurd rfl h
  | node c l x r =>
    cases s with
    | left => exact ⟨c, l, x, r, rfl⟩
    | right => exact ⟨c, r, x, l, rfl⟩

@[simp] theorem color_join (s : Side) (c : Color) (t : Tree α) (x : α) (u : Tree α) :
    (join s c t x u).color = c := by
  cases s <;> rfl

@[simp] theorem paint_join (s : Side) (c c' : Color) (t : Tree α) (x : α) (u : Tree α) :
    (join s c t x u).paint c' = join s c' t x u := by
  cases s <;> rfl

@[simp] theorem join_ne_leaf (s : Side) (c : Color) (t : Tree α) (x : α) (u : Tree α) :
    ¬ join s c t x u = leaf := by
  cases s <;> simp [join]

theorem ne_leaf_of_red {t : Tree α} (h : t.color = .red) : t ≠ leaf := by
  rintro rfl
  cases h

@[simp] theorem toList_paint (c : Color) (t : Tree α) : (t.paint c).toList = t.toList := by
  cases t <;> rfl

/-- **A rotation keeps the order of the elements.** -/
theorem toList_rotate (s : Side) (c c' d d' : Color) (t u w : Tree α) (x y : α) :
    (join s c' (join s c t x u) y w).toList = (join s d t x (join s d' u y w)).toList := by
  cases s <;> simp [join, toList]

/-! ## Contexts -/

/-- A node above the subtree in focus: the side and the colour, the element and the other child. -/
structure Frame (α : Type) where
  side : Side
  color : Color
  elt : α
  sib : Tree α

/-- Put a subtree in a context, the innermost frame first. -/
def plug : List (Frame α) → Tree α → Tree α
  | [], t => t
  | f :: ctx, t => plug ctx (join f.side f.color t f.elt f.sib)

/-- The elements to the left of the subtree in focus. -/
def before : List (Frame α) → List α
  | [] => []
  | ⟨.left, _, _, _⟩ :: ctx => before ctx
  | ⟨.right, _, x, u⟩ :: ctx => before ctx ++ u.toList ++ [x]

/-- The elements to the right of the subtree in focus. -/
def after : List (Frame α) → List α
  | [] => []
  | ⟨.left, _, x, u⟩ :: ctx => x :: u.toList ++ after ctx
  | ⟨.right, _, _, _⟩ :: ctx => after ctx

theorem toList_plug (ctx : List (Frame α)) (t : Tree α) :
    (plug ctx t).toList = before ctx ++ t.toList ++ after ctx := by
  induction ctx generalizing t with
  | nil => simp [plug, before, after]
  | cons f ctx ih =>
    obtain ⟨s, c, x, u⟩ := f
    cases s <;> simp [plug, ih, join, toList, before, after]

theorem plug_append (ctx ctx' : List (Frame α)) (t : Tree α) :
    plug (ctx ++ ctx') t = plug ctx' (plug ctx t) := by
  induction ctx generalizing t with
  | nil => rfl
  | cons f ctx ih => exact ih _

theorem before_append (ctx ctx' : List (Frame α)) : before (ctx ++ ctx') = before ctx' ++ before ctx := by
  induction ctx with
  | nil => simp [before]
  | cons f ctx ih =>
    obtain ⟨s, c, x, u⟩ := f
    cases s <;> simp [before, ih]

theorem after_append (ctx ctx' : List (Frame α)) : after (ctx ++ ctx') = after ctx ++ after ctx' := by
  induction ctx with
  | nil => simp [after]
  | cons f ctx ih =>
    obtain ⟨s, c, x, u⟩ := f
    cases s <;> simp [after, ih]

theorem plug_eq_leaf {ctx : List (Frame α)} {t : Tree α} (h : plug ctx t = leaf) :
    ctx = [] ∧ t = leaf := by
  induction ctx generalizing t with
  | nil => exact ⟨rfl, h⟩
  | cons f ctx ih => exact absurd (ih h).2 (join_ne_leaf _ _ _ _ _)

/-- The focus can be moved to any place of the list. -/
theorem exists_plug_of_append {t : Tree α} {x : α} {P Q : List α} (h : t.toList = P ++ x :: Q) :
    ∃ ctx c l r, t = plug ctx (node c l x r) ∧ P = before ctx ++ l.toList ∧
      Q = r.toList ++ after ctx := by
  induction t generalizing P Q with
  | leaf => simp [toList] at h
  | node c l y r ihl ihr =>
    rcases List.append_eq_append_iff.mp h with ⟨R, rfl, hR⟩ | ⟨R, hl, hR⟩
    · rcases List.cons_eq_append_iff.mp hR with ⟨rfl, hxr⟩ | ⟨S, rfl, hr⟩
      · obtain ⟨rfl, rfl⟩ := List.cons.inj hxr
        exact ⟨[], c, l, r, rfl, by simp [before], by simp [after]⟩
      · obtain ⟨ctx, c', l', r', rfl, rfl, rfl⟩ := ihr hr
        exact ⟨ctx ++ [⟨.right, c, y, l⟩], c', l', r', by rw [plug_append]; rfl,
          by simp [before_append, before], by simp [after_append, after]⟩
    · rcases List.cons_eq_append_iff.mp hR with ⟨rfl, hxr⟩ | ⟨S, rfl, rfl⟩
      · obtain ⟨rfl, rfl⟩ := List.cons.inj hxr
        exact ⟨[], c, l, r, rfl, by simpa [before] using hl.symm, by simp [after]⟩
      · obtain ⟨ctx, c', l', r', rfl, rfl, rfl⟩ := ihl hl
        exact ⟨ctx ++ [⟨.left, c, y, r⟩], c', l', r', by rw [plug_append]; rfl,
          by simp [before_append, before], by simp [after_append, after]⟩

/-- The focus can be moved to any element. -/
theorem exists_plug_of_mem {t : Tree α} {x : α} (hx : x ∈ t.toList) :
    ∃ ctx c l r, t = plug ctx (node c l x r) := by
  obtain ⟨P, Q, h⟩ := List.append_of_mem hx
  obtain ⟨ctx, c, l, r, ht, -, -⟩ := exists_plug_of_append h
  exact ⟨ctx, c, l, r, ht⟩

/-- The number of frames is below the number of elements. -/
theorem length_ctx_le (ctx : List (Frame α)) (t : Tree α) :
    ctx.length + t.toList.length ≤ (plug ctx t).toList.length := by
  induction ctx generalizing t with
  | nil => simp [plug]
  | cons f ctx ih =>
    obtain ⟨s, c, x, u⟩ := f
    have := ih (join s c t x u)
    simp only [plug, List.length_cons]
    cases s <;> simp [join, toList] at this ⊢ <;> omega

/-! ## The red-black conditions -/

/-- Every path from the root down to a leaf has `n` black nodes. -/
def Balanced : Tree α → ℕ → Prop
  | leaf, n => n = 0
  | node c l _ r, n => ∃ m, n = m + c.weight ∧ Balanced l m ∧ Balanced r m

/-- No red node has a red child. -/
def NoRedRed : Tree α → Prop
  | leaf => True
  | node c l _ r => (c = .red → l.color = .black ∧ r.color = .black) ∧ NoRedRed l ∧ NoRedRed r

/-- A red-black tree, apart from the order of its elements. -/
structure IsRedBlack (t : Tree α) : Prop where
  root : t.color = .black
  balanced : ∃ n, Balanced t n
  noRedRed : NoRedRed t

@[simp] theorem balanced_join {s : Side} {c : Color} {t u : Tree α} {x : α} {n : ℕ} :
    Balanced (join s c t x u) n ↔ ∃ m, n = m + c.weight ∧ Balanced t m ∧ Balanced u m := by
  cases s with
  | left => rfl
  | right => simp only [join, Balanced, and_comm]

@[simp] theorem noRedRed_join {s : Side} {c : Color} {t u : Tree α} {x : α} :
    NoRedRed (join s c t x u) ↔
      (c = .red → t.color = .black ∧ u.color = .black) ∧ NoRedRed t ∧ NoRedRed u := by
  cases s with
  | left => rfl
  | right =>
    simp only [join, NoRedRed]
    tauto

theorem ne_leaf_of_balanced {t : Tree α} {n : ℕ} (h : Balanced t (n + 1)) : t ≠ leaf := by
  rintro rfl
  simp [Balanced] at h

theorem NoRedRed.paint_black {t : Tree α} (h : NoRedRed t) : NoRedRed (t.paint .black) := by
  cases t with
  | leaf => trivial
  | node c l x r => exact ⟨fun hc => Color.noConfusion hc, h.2⟩

theorem paint_self {t : Tree α} {c : Color} (h : t.color = c) : t.paint c = t := by
  cases t with
  | leaf => rfl
  | node c' l x r => subst h; rfl

/-- Painting the root black leaves a tree balanced. -/
theorem Balanced.paint_black {t : Tree α} {n : ℕ} (h : Balanced t n) :
    ∃ m, Balanced (t.paint .black) m := by
  cases t with
  | leaf => exact ⟨n, h⟩
  | node c l x r =>
    obtain ⟨m, -, hl, hr⟩ := h
    exact ⟨m + 1, m, rfl, hl, hr⟩

/-! ## Contexts of red-black trees -/

/-- The colour of the parent; above the root everything is black. -/
def topColor : List (Frame α) → Color
  | [] => .black
  | f :: _ => f.color

/-- The context accepts a subtree of black height `n`; the root is black. -/
def Sound : List (Frame α) → ℕ → Prop
  | [], _ => True
  | f :: ctx, n => Balanced f.sib n ∧ NoRedRed f.sib ∧
    (f.color = .red → f.sib.color = .black ∧ topColor ctx = .black ∧ ctx ≠ []) ∧
    Sound ctx (n + f.color.weight)

theorem color_plug_of_sound {ctx : List (Frame α)} {t : Tree α} {n : ℕ} (h : Sound ctx n)
    (hne : ctx ≠ []) : (plug ctx t).color = .black := by
  induction ctx generalizing t n with
  | nil => exact absurd rfl hne
  | cons f ctx ih =>
    cases hctx : ctx with
    | nil =>
      subst hctx
      cases hc : f.color with
      | red => exact absurd rfl (h.2.2.1 hc).2.2
      | black => simp [plug, hc]
    | cons g ctx' => exact hctx ▸ ih h.2.2.2 (by simp [hctx])

/-- **A subtree that fits its context** gives a balanced tree without red-red edges. -/
theorem fits_plug {ctx : List (Frame α)} {t : Tree α} {n : ℕ} (hb : Balanced t n)
    (hr : NoRedRed t) (hc : topColor ctx = .red → t.color = .black) (h : Sound ctx n) :
    (∃ m, Balanced (plug ctx t) m) ∧ NoRedRed (plug ctx t) := by
  induction ctx generalizing t n with
  | nil => exact ⟨⟨n, hb⟩, hr⟩
  | cons f ctx ih =>
    obtain ⟨hsb, hsr, hred, hctx⟩ := h
    refine ih (n := n + f.color.weight) ?_ ?_ ?_ hctx
    · exact balanced_join.mpr ⟨n, rfl, hb, hsb⟩
    · exact noRedRed_join.mpr ⟨fun h => ⟨hc h, (hred h).1⟩, hr, hsr⟩
    · intro htop
      rw [color_join]
      cases hfc : f.color with
      | red => rw [(hred hfc).2.1] at htop; cases htop
      | black => rfl

/-- Every subtree of a red-black tree fits its context. -/
theorem sound_of_isRedBlack {ctx : List (Frame α)} {t : Tree α} (h : IsRedBlack (plug ctx t)) :
    ∃ n, Balanced t n ∧ NoRedRed t ∧ (topColor ctx = .red → t.color = .black) ∧ Sound ctx n := by
  induction ctx generalizing t with
  | nil =>
    obtain ⟨n, hn⟩ := h.balanced
    exact ⟨n, hn, h.noRedRed, fun h => by simp [topColor] at h, trivial⟩
  | cons f ctx ih =>
    obtain ⟨n, hb, hr, htop, hs⟩ := ih h
    obtain ⟨m, rfl, hbt, hbs⟩ := balanced_join.mp hb
    obtain ⟨hred, hrt, hrs⟩ := noRedRed_join.mp hr
    refine ⟨m, hbt, hrt, fun hf => (hred hf).1, hbs, hrs, fun hf => ⟨(hred hf).2, ?_, ?_⟩, hs⟩
    · cases hctx : topColor ctx with
      | red => simpa [hf] using htop hctx
      | black => rfl
    · rintro rfl
      have := h.root
      simp [plug, hf] at this

/-- Another element at the node in focus. -/
theorem IsRedBlack.setElt {ctx : List (Frame α)} {s : Side} {c : Color} {t u : Tree α} {x : α}
    (h : IsRedBlack (plug ctx (join s c t x u))) (y : α) :
    IsRedBlack (plug ctx (join s c t y u)) := by
  obtain ⟨n, hb, hr, htop, hs⟩ := sound_of_isRedBlack h
  rw [balanced_join] at hb
  rw [noRedRed_join] at hr
  rw [color_join] at htop
  obtain ⟨hb', hr'⟩ := fits_plug (t := join s c t y u) (balanced_join.mpr hb) (noRedRed_join.mpr hr)
    (by rwa [color_join]) hs
  refine ⟨?_, hb', hr'⟩
  cases ctx with
  | nil => simpa [plug] using h.root
  | cons f ctx => exact color_plug_of_sound hs (by simp)

end Tree

end Kendylib
