import Mathlib.Data.List.Basic
import Mathlib.Data.List.Perm.Subperm
import Mathlib.Logic.Function.Basic

/-!
# Queues and their accounts

A number of queues, told by what is done to them: an item is put behind all others or in front of
them, the first one is answered, or all that wait are dropped. `Replays` says what is in the queues
after a list of deeds, each of which answers what is first.

The items answered and those that wait are items put in, each as often at most (`subperm`), and all
of them where nothing is dropped (`perm`). They are in order where no item is put in front
(`sublist`).
-/

namespace Kendylib

/-- What is done to the queues. -/
inductive Deed (L R : Type)
  | post (l : L) (x : R)
  | first (l : L) (x : R)
  | answer (l : L) (x : R)
  | drop (l : L)
  deriving DecidableEq

variable {L R : Type} [DecidableEq L]

namespace Deed

/-- The item that is put into a queue. -/
def put (l : L) : Deed L R → Option R
  | .post k x | .first k x => if k = l then some x else none
  | .answer .. | .drop _ => none

/-- The item of a queue that is answered. -/
def out (l : L) : Deed L R → Option R
  | .answer k x => if k = l then some x else none
  | .post .. | .first .. | .drop _ => none

end Deed

/-- The items put into a queue, in the order in which that is done. -/
def posted (l : L) (ds : List (Deed L R)) : List R := ds.filterMap (Deed.put l)

/-- The items of a queue that are answered, in the order in which that is done. -/
def answered (l : L) (ds : List (Deed L R)) : List R := ds.filterMap (Deed.out l)

/-- The queues after a list of deeds, from empty ones on. -/
inductive Replays : List (Deed L R) → (L → List R) → Prop
  | nil : Replays [] fun _ => []
  | post {ds q} (h : Replays ds q) (l : L) (x : R) :
    Replays (ds ++ [.post l x]) (Function.update q l (q l ++ [x]))
  | first {ds q} (h : Replays ds q) (l : L) (x : R) :
    Replays (ds ++ [.first l x]) (Function.update q l (x :: q l))
  | answer {ds q} (h : Replays ds q) (l : L) {x : R} {xs : List R} (hq : q l = x :: xs) :
    Replays (ds ++ [.answer l x]) (Function.update q l xs)
  | drop {ds q} (h : Replays ds q) (l : L) : Replays (ds ++ [.drop l]) (Function.update q l [])

namespace Replays

variable {ds : List (Deed L R)} {q : L → List R} {l k : L} {x : R} {xs : List R}

theorem posted_append (d : Deed L R) : posted l (ds ++ [d]) = posted l ds ++ (d.put l).toList := by
  rw [posted, List.filterMap_append]
  cases h : d.put l <;> simp [posted, h]

theorem answered_append (d : Deed L R) :
    answered l (ds ++ [d]) = answered l ds ++ (d.out l).toList := by
  rw [answered, List.filterMap_append]
  cases h : d.out l <;> simp [answered, h]

/-- **The accounts** of a queue: a relation between the items answered with those that wait and the
items put in. -/
theorem account {P : List R → List R → Prop} (h : Replays ds q) (l : L) (hnil : P [] [])
    (hpost : ∀ {as bs : List R} (x : R), P as bs → P (as ++ [x]) (bs ++ [x]))
    (hfirst : ∀ {as ws bs : List R} (x : R), .first l x ∈ ds → P (as ++ ws) bs →
      P (as ++ x :: ws) (bs ++ [x]))
    (hdrop : ∀ {as ws bs : List R}, .drop l ∈ ds → P (as ++ ws) bs → P as bs) :
    P (answered l ds ++ q l) (posted l ds) := by
  have hother : ∀ {ds : List (Deed L R)} {q : L → List R} {k : L} {xs : List R} {d : Deed L R},
      l ≠ k → d.put l = none → d.out l = none → P (answered l ds ++ q l) (posted l ds) →
        P (answered l (ds ++ [d]) ++ Function.update q k xs l) (posted l (ds ++ [d])) := by
    intro ds q k xs d hlk hput hout hP
    rw [posted_append, answered_append, hput, hout, Function.update_of_ne hlk]
    simpa using hP
  induction h with
  | nil => exact hnil
  | @post ds q _ k x ih =>
    have ih := ih (fun x hx => hfirst x (List.mem_append_left _ hx))
      (fun hx => hdrop (List.mem_append_left _ hx))
    by_cases hk : k = l
    · subst hk
      rw [posted_append, answered_append, Function.update_self]
      simpa [Deed.put, Deed.out] using hpost x ih
    · exact hother (Ne.symm hk) (if_neg hk) rfl ih
  | @first ds q _ k x ih =>
    have ih := ih (fun x hx => hfirst x (List.mem_append_left _ hx))
      (fun hx => hdrop (List.mem_append_left _ hx))
    by_cases hk : k = l
    · subst hk
      rw [posted_append, answered_append, Function.update_self]
      simpa [Deed.put, Deed.out] using hfirst x (by simp) ih
    · exact hother (Ne.symm hk) (if_neg hk) rfl ih
  | @answer ds q _ k x xs hq ih =>
    have ih := ih (fun x hx => hfirst x (List.mem_append_left _ hx))
      (fun hx => hdrop (List.mem_append_left _ hx))
    by_cases hk : k = l
    · subst hk
      rw [posted_append, answered_append, Function.update_self]
      simpa [Deed.put, Deed.out, hq] using ih
    · exact hother (Ne.symm hk) rfl (if_neg hk) ih
  | @drop ds q _ k ih =>
    have ih := ih (fun x hx => hfirst x (List.mem_append_left _ hx))
      (fun hx => hdrop (List.mem_append_left _ hx))
    by_cases hk : k = l
    · subst hk
      rw [posted_append, answered_append, Function.update_self]
      simpa [Deed.put, Deed.out] using hdrop (by simp) ih
    · exact hother (Ne.symm hk) rfl rfl ih

theorem perm_first {as ws : List R} (x : R) :
    (as ++ x :: ws).Perm ((as ++ ws) ++ [x]) := by
  rw [List.append_assoc]
  exact (List.perm_append_singleton x ws).symm.append_left _

/-- **Each once**: what is answered and what waits are items put in. -/
theorem subperm (h : Replays ds q) (l : L) : (answered l ds ++ q l).Subperm (posted l ds) := by
  refine h.account l (.refl []) (fun x hP => ?_) (fun x _ hP => ?_) (fun _ hP => ?_)
  · exact (List.subperm_append_right [x]).mpr hP
  · exact (perm_first x).subperm.trans ((List.subperm_append_right [x]).mpr hP)
  · exact (List.sublist_append_left ..).subperm.trans hP

/-- **None is lost** where nothing is dropped. -/
theorem perm (h : Replays ds q) (hdrop : .drop l ∉ ds) :
    (answered l ds ++ q l).Perm (posted l ds) := by
  refine h.account l (.refl []) (fun x hP => hP.append_right [x]) (fun x _ hP => ?_)
    (fun hd => absurd hd hdrop)
  exact (perm_first x).trans (hP.append_right [x])

/-- **In order** where nothing is put in front. -/
theorem sublist (h : Replays ds q) (hfirst : ∀ x, .first l x ∉ ds) :
    (answered l ds ++ q l).Sublist (posted l ds) :=
  h.account l .slnil (fun x hP => hP.append_right [x]) (fun x hx => absurd hx (hfirst x))
    fun _ hP => (List.sublist_append_left ..).trans hP

end Replays

end Kendylib
