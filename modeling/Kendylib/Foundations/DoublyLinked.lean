import Mathlib.Data.List.Chain
import Mathlib.Data.List.Nodup

/-!
# Doubly linked lists

Cells with a pointer to the cell before and a pointer to the cell after. `Seg pre next p h l` says
that the pointer `h` leads along the cells of `l` to the end, and that each of them points back to
the one before it, the first of them to `p`.

* The cells are determined by the pointer (`Seg.unique`), and none occurs twice (`Seg.nodup`).
* A cell is put in front (`Seg.push`), or taken out anywhere (`Seg.unlink`), if the pointers to and
  from its neighbours are changed and no others of the cells.

A list between two cells that are always there is a chain of cells that are `Joined`: each points to
the next one, which points back. A cell goes in or out between any two of them (`joined_insert`,
`joined_erase`), and the pointers of any one lead to the cells beside it (`joined_next`,
`joined_pre`).
-/

namespace Kendylib

variable {α : Type} {pre next pre' next' : α → Option α} {p q h : Option α} {x : α} {l m : List α}

/-- The pointer `h`, kept in the cell `p`, leads along the cells `l` to the end. -/
def Seg (pre next : α → Option α) : Option α → Option α → List α → Prop
  | _, h, [] => h = none
  | p, h, x :: l => h = some x ∧ pre x = p ∧ Seg pre next (some x) (next x) l

theorem Seg.congr (hs : Seg pre next p h l) (hpre : ∀ x ∈ l, pre' x = pre x)
    (hnext : ∀ x ∈ l, next' x = next x) : Seg pre' next' p h l := by
  induction l generalizing p h with
  | nil => exact hs
  | cons x l ih =>
    obtain ⟨hx, hp, hrest⟩ := hs
    refine ⟨hx, (hpre x List.mem_cons_self).trans hp, ?_⟩
    rw [hnext x List.mem_cons_self]
    exact ih hrest (fun y hy => hpre y (List.mem_cons_of_mem _ hy))
      fun y hy => hnext y (List.mem_cons_of_mem _ hy)

theorem Seg.unique (hs : Seg pre next p h l) (ht : Seg pre next q h m) : l = m := by
  induction l generalizing p q h m with
  | nil =>
    obtain rfl : h = none := hs
    cases m with
    | nil => rfl
    | cons y m => exact absurd ht.1.symm (Option.some_ne_none y)
  | cons x l ih =>
    obtain ⟨rfl, -, hrest⟩ := hs
    cases m with
    | nil => exact absurd ht (Option.some_ne_none x)
    | cons y m =>
      obtain ⟨hxy, -, hrest'⟩ := ht
      obtain rfl := Option.some.inj hxy
      rw [ih hrest hrest']

/-- The cells from any one of the list on. -/
theorem Seg.drop (hs : Seg pre next p h (l ++ x :: m)) : Seg pre next (pre x) (some x) (x :: m) := by
  induction l generalizing p h with
  | nil =>
    obtain ⟨-, -, hrest⟩ := hs
    exact ⟨rfl, rfl, hrest⟩
  | cons y l ih => exact ih hs.2.2

theorem Seg.nodup (hs : Seg pre next p h l) : l.Nodup := by
  induction l generalizing p h with
  | nil => exact List.nodup_nil
  | cons x l ih =>
    refine List.nodup_cons.mpr ⟨fun hx => ?_, ih hs.2.2⟩
    -- a cell that comes back would have two different rests
    obtain ⟨a, b, rfl⟩ := List.append_of_mem hx
    have hlater : Seg pre next (pre x) (some x) (x :: b) := hs.2.2.drop
    have hsame := (hs.1 ▸ hs).unique hlater
    have hlen := congrArg List.length hsame
    simp only [List.length_cons, List.length_append] at hlen
    omega

/-- A cell that is not the first points back to one of those before it. -/
theorem Seg.pre_mem (hs : Seg pre next p h (l ++ x :: m)) (hl : l ≠ []) :
    ∃ w ∈ l, pre x = some w := by
  induction l generalizing p h with
  | nil => exact absurd rfl hl
  | cons y l ih =>
    cases l with
    | nil => exact ⟨y, List.mem_cons_self, hs.2.2.2.1⟩
    | cons z l =>
      obtain ⟨w, hw, hxw⟩ := ih hs.2.2 (List.cons_ne_nil z l)
      exact ⟨w, List.mem_cons_of_mem _ hw, hxw⟩

/-- No cell points to itself. -/
theorem Seg.ne_next (hs : Seg pre next p h (l ++ x :: m)) {y : α} (hy : next x = some y) : y ≠ x := by
  rintro rfl
  have hrest := hs.drop
  cases m with
  | nil => exact Option.some_ne_none y (hy.symm.trans hrest.2.2)
  | cons z m =>
    obtain rfl := Option.some.inj (hy.symm.trans hrest.2.2.1)
    exact (List.nodup_cons.mp hrest.nodup).1 List.mem_cons_self

theorem Seg.ne_pre (hs : Seg pre next none h (l ++ x :: m)) {y : α} (hy : pre x = some y) :
    y ≠ x := by
  rintro rfl
  by_cases hl : l = []
  · subst hl
    exact Option.some_ne_none y (hy.symm.trans hs.2.1)
  · obtain ⟨w, hw, hyw⟩ := hs.pre_mem hl
    obtain rfl := Option.some.inj (hy.symm.trans hyw)
    have := hs.nodup
    rw [List.nodup_middle, List.nodup_cons] at this
    exact this.1 (List.mem_append_left _ hw)

/-- **A cell in front.** -/
theorem Seg.push (hs : Seg pre next p h l) (hpx : pre' x = q) (hnx : next' x = h)
    (hfirst : ∀ y, h = some y → pre' y = some x)
    (hpre : ∀ y ∈ l, h ≠ some y → pre' y = pre y) (hnext : ∀ y ∈ l, next' y = next y) :
    Seg pre' next' q (some x) (x :: l) := by
  refine ⟨rfl, hpx, ?_⟩
  rw [hnx]
  cases l with
  | nil => exact hs
  | cons y l =>
    have hnodup := List.nodup_cons.mp hs.nodup
    obtain ⟨rfl, -, hrest⟩ := hs
    refine ⟨rfl, hfirst y rfl, ?_⟩
    rw [hnext y List.mem_cons_self]
    refine hrest.congr (fun z hz => hpre z (List.mem_cons_of_mem _ hz) fun hyz => ?_)
      fun z hz => hnext z (List.mem_cons_of_mem _ hz)
    exact hnodup.1 (Option.some.inj hyz ▸ hz)

/-- **A cell taken out.** The pointer to it and the pointer back to it now pass it by; `h'` is the
pointer to the first cell, which was `x` if `l` is empty. -/
theorem Seg.unlink {h' : Option α} (hs : Seg pre next p h (l ++ x :: m))
    (hp : ∀ z, p = some z → z ∉ l ++ x :: m)
    (hto : ∀ z, pre x = some z → next' z = next x) (hback : ∀ y, next x = some y → pre' y = pre x)
    (hnext : ∀ z ∈ l ++ m, pre x ≠ some z → next' z = next z)
    (hpre : ∀ y ∈ l ++ m, next x ≠ some y → pre' y = pre y)
    (hhead : l = [] → h' = next x) (hhead' : l ≠ [] → h' = h) :
    Seg pre' next' p h' (l ++ m) := by
  induction l generalizing p h h' with
  | nil =>
    rw [hhead rfl]
    have hnodup := List.nodup_cons.mp hs.nodup
    obtain ⟨-, hpx, hrest⟩ := hs
    cases m with
    | nil => exact hrest
    | cons y m =>
      have hne : ∀ z ∈ y :: m, pre x ≠ some z := by
        intro z hz hxz
        exact hp z (hpx.symm.trans hxz) (List.mem_cons_of_mem _ hz)
      have hy := List.nodup_cons.mp hnodup.2
      obtain ⟨hxy, -, hrest⟩ := hrest
      refine ⟨hxy, (hback y hxy).trans hpx, ?_⟩
      rw [hnext y List.mem_cons_self (hne y List.mem_cons_self)]
      refine hrest.congr (fun z hz => hpre z (List.mem_cons_of_mem _ hz) fun hxz => ?_)
        fun z hz => hnext z (List.mem_cons_of_mem _ hz) (hne z (List.mem_cons_of_mem _ hz))
      exact hy.1 (Option.some.inj (hxy.symm.trans hxz) ▸ hz)
  | cons z l ih =>
    have hnodup := hs.nodup
    rw [List.cons_append, List.nodup_cons] at hnodup
    obtain ⟨hhz, hpz, hrest⟩ := hs
    have hxz : next x ≠ some z := by
      intro hxz
      have hlater := hrest.drop
      cases m with
      | nil => exact Option.some_ne_none z (hxz.symm.trans hlater.2.2)
      | cons y m =>
        obtain rfl := Option.some.inj (hlater.2.2.1.symm.trans hxz)
        exact hnodup.1 (by simp)
    refine ⟨(hhead' (List.cons_ne_nil z l)).trans hhz, ?_, ?_⟩
    · exact (hpre z List.mem_cons_self hxz).trans hpz
    · refine ih hrest (fun w hw => ?_) (fun w hw => hnext w (List.mem_cons_of_mem _ hw))
        (fun w hw => hpre w (List.mem_cons_of_mem _ hw)) (fun hl => ?_) fun hl => ?_
      · exact Option.some.inj hw ▸ hnodup.1
      · subst hl
        exact hto z hrest.2.1
      · refine hnext z List.mem_cons_self fun hxz' => ?_
        obtain ⟨w, hw, hxw⟩ := hrest.pre_mem hl
        obtain rfl := Option.some.inj (hxz'.symm.trans hxw)
        exact hnodup.1 (List.mem_append_left _ hw)

/-! ## Chains of cells -/

section Joined

variable {y z : α} {r : List α}

/-- The first cell points to the second one, which points back. -/
def Joined (next pre : α → Option α) (x y : α) : Prop := next x = some y ∧ pre y = some x

theorem joined_congr (h : l.IsChain (Joined next pre)) (hnext : ∀ x ∈ l, next' x = next x)
    (hpre : ∀ x ∈ l.tail, pre' x = pre x) : l.IsChain (Joined next' pre') := by
  refine h.imp_of_mem_tail_imp fun x y hx hy hxy => ?_
  exact ⟨(hnext x hx).trans hxy.1, (hpre y hy).trans hxy.2⟩

/-- The chain up to a cell, where other cells than this one keep their pointers. -/
theorem joined_append_congr (h : (l ++ [x]).IsChain (Joined next pre))
    (hnext : ∀ a ∈ l, next' a = next a) (hpre : ∀ a ∈ l ++ [x], pre' a = pre a) :
    (l ++ [x]).IsChain (Joined next' pre') := by
  obtain ⟨hl, -, hlast⟩ := List.isChain_append.mp h
  refine List.isChain_append.mpr ⟨?_, List.isChain_singleton x, fun a ha b hb => ?_⟩
  · refine joined_congr hl hnext fun a ha => hpre a ?_
    exact List.mem_append_left _ (List.mem_of_mem_tail ha)
  · obtain ⟨hab, hba⟩ := hlast a ha b hb
    obtain rfl : x = b := by simpa using hb
    exact ⟨(hnext a (List.mem_of_mem_getLast? ha)).trans hab, (hpre x (by simp)).trans hba⟩

/-- **A cell goes in** between two others. -/
theorem joined_insert (h : (l ++ x :: y :: r).IsChain (Joined next pre))
    (hnodup : (l ++ x :: y :: r).Nodup) (hx : next' x = some z) (hz : pre' z = some x)
    (hz' : next' z = some y) (hy : pre' y = some z)
    (hnext : ∀ a ∈ l ++ x :: y :: r, a ≠ x → next' a = next a)
    (hpre : ∀ a ∈ l ++ x :: y :: r, a ≠ y → pre' a = pre a) :
    (l ++ x :: z :: y :: r).IsChain (Joined next' pre') := by
  obtain ⟨hleft, -, hright⟩ := List.isChain_append_cons_cons.mp h
  obtain ⟨-, hxr, hdisj⟩ := List.nodup_append.mp hnodup
  obtain ⟨hxr, hyr⟩ := List.nodup_cons.mp hxr
  rw [List.isChain_append_cons_cons, List.isChain_cons_cons]
  refine ⟨joined_append_congr hleft (fun a ha => ?_) fun a ha => ?_, ⟨hx, hz⟩, ⟨hz', hy⟩,
    joined_congr hright (fun a ha => ?_) fun a ha => ?_⟩
  · exact hnext a (by simp [ha]) (hdisj a ha x (by simp))
  · refine hpre a (by simp at ha ⊢; tauto) ?_
    rintro rfl
    rcases List.mem_append.mp ha with ha | ha
    · exact hdisj a ha a (by simp) rfl
    · exact hxr (by simp at ha; simp [ha])
  · refine hnext a (by simp at ha ⊢; tauto) ?_
    rintro rfl
    exact hxr ha
  · refine hpre a (by simp at ha ⊢; tauto) ?_
    rintro rfl
    exact (List.nodup_cons.mp hyr).1 ha

/-- **A cell goes out** from between two others. -/
theorem joined_erase (h : (l ++ x :: z :: y :: r).IsChain (Joined next pre))
    (hx : next' x = some y) (hy : pre' y = some x) (hnext : ∀ a ∈ l ++ y :: r, next' a = next a)
    (hpre : ∀ a ∈ l ++ x :: r, pre' a = pre a) :
    (l ++ x :: y :: r).IsChain (Joined next' pre') := by
  obtain ⟨hleft, -, hright⟩ := List.isChain_append_cons_cons.mp h
  rw [List.isChain_cons_cons] at hright
  refine List.isChain_append_cons_cons.mpr
    ⟨joined_append_congr hleft (fun a ha => ?_) fun a ha => ?_, ⟨hx, hy⟩,
      joined_congr hright.2 (fun a ha => ?_) fun a ha => ?_⟩
  · exact hnext a (by simp [ha])
  · exact hpre a (by simp at ha ⊢; tauto)
  · exact hnext a (by simp at ha ⊢; tauto)
  · exact hpre a (by simp at ha ⊢; tauto)

/-! ## The cells beside a cell -/

section Beside

variable [DecidableEq α]

/-- The cell after `x`. -/
def cellAfter (l : List α) (x : α) : Option α := l[l.idxOf x + 1]?

/-- The cell before `x`. -/
def cellBefore (l : List α) (x : α) : Option α :=
  match l.idxOf x with
  | 0 => none
  | i + 1 => l[i]?

theorem idxOf_append_cons (h : (l ++ x :: r).Nodup) : (l ++ x :: r).idxOf x = l.length := by
  rw [List.nodup_middle, List.nodup_cons, List.mem_append, not_or] at h
  rw [List.idxOf_append_of_notMem h.1.1, List.idxOf_cons_self, Nat.add_zero]

theorem joined_next (h : l.IsChain (Joined next pre)) (hlast : ∀ z ∈ l.getLast?, next z = none)
    (hx : x ∈ l) : next x = cellAfter l x := by
  have hi : l.idxOf x < l.length := List.idxOf_lt_length_of_mem hx
  have hget : l[l.idxOf x] = x := List.getElem_idxOf hi
  rw [cellAfter]
  by_cases hend : l.idxOf x + 1 < l.length
  · have hjoined := List.isChain_iff_getElem.mp h _ hend
    rw [hget] at hjoined
    rw [hjoined.1, List.getElem?_eq_getElem hend]
  · rw [List.getElem?_eq_none (by omega)]
    apply hlast
    have hidx : l.length - 1 = l.idxOf x := by omega
    rw [List.getLast?_eq_getElem?, hidx, List.getElem?_eq_getElem hi, hget]
    rfl

theorem joined_pre (h : l.IsChain (Joined next pre)) (hfirst : ∀ z ∈ l.head?, pre z = none)
    (hx : x ∈ l) : pre x = cellBefore l x := by
  have hi : l.idxOf x < l.length := List.idxOf_lt_length_of_mem hx
  have hget : l[l.idxOf x] = x := List.getElem_idxOf hi
  rw [cellBefore]
  split
  · rename_i hzero
    apply hfirst
    simp only [hzero] at hget
    rw [List.head?_eq_getElem?, List.getElem?_eq_getElem (by omega), hget]
    rfl
  · rename_i i hsucc
    have hjoined := List.isChain_iff_getElem.mp h i (by omega)
    simp only [hsucc] at hget
    rw [hget] at hjoined
    rw [hjoined.2, List.getElem?_eq_getElem (by omega)]

end Beside

end Joined

end Kendylib
