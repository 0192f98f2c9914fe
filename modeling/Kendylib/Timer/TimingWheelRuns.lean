import Kendylib.Foundations.DoublyLinked
import Kendylib.Timer.TimingWheel
import Mathlib.Data.Finset.Card

/-!
# Runs of the timing wheel

A run is a series of calls of `RegisterTimer`, `UnRegisterTimer` and `UpdateWheel`, with callbacks
that do not touch the wheel. The set of the registered items is recorded beside the wheel: those
that have been registered with success and since then neither unregistered nor fired.

* `Linked` says that the wheel has exactly these items, each in the list of its slot.
* One lemma for each of the three functions says what it does to a wheel that is linked
  (`add_inv`, `unlink_inv`, `updateLoop_inv`).
* `UnRegisterTimer` takes an item that has fired for one in the slot `0`, and drops the list of that
  slot. Registration is exact in the runs without such a call and without two kinds of sizes that
  the wheel's numbers do not allow for (`exact_iff_clear`).
-/

namespace Kendylib.TimingWheel

variable {w w' : TimingWheel} {reg : Finset ℕ} {x y n : ℕ} {l : List ℕ}

/-! ## Linked wheels -/

/-- The pointers of the items. -/
def preOf (w : TimingWheel) (x : ℕ) : Option ℕ := (w.item x).pre

def nextOf (w : TimingWheel) (x : ℕ) : Option ℕ := (w.item x).next

/-- Every slot's list is doubly linked, and has exactly the registered items whose `slot` it is. -/
structure Linked (w : TimingWheel) (reg : Finset ℕ) : Prop where
  list : ∀ n < w.slotSize, ∃ l, Seg w.preOf w.nextOf none (w.slot n) l ∧
    ∀ x, x ∈ l ↔ x ∈ reg ∧ (w.item x).slot = n
  slot : ∀ x ∈ reg, ∃ n < w.slotSize, (w.item x).slot = n

/-- An item that has fired, and has not been registered or unregistered since. -/
def Fired (w : TimingWheel) (reg : Finset ℕ) (x : ℕ) : Prop := x ∉ reg ∧ (w.item x).slot = 0

/-- A wheel with the items `reg`. An item that is not registered has no neighbours, and its `slot` is
`-1` unless it has fired. -/
structure Inv (w : TimingWheel) (reg : Finset ℕ) : Prop extends Linked w reg where
  pre : ∀ x ∉ reg, (w.item x).pre = none
  next : ∀ x ∉ reg, (w.item x).next = none
  idle : ∀ x ∉ reg, (w.item x).slot = -1 ∨ (w.item x).slot = 0
  known : ∀ x ∈ reg, x < w.items

theorem Linked.first (I : Linked w reg) (hn : n < w.slotSize) (hy : w.slot n = some y) :
    y ∈ reg ∧ (w.item y).slot = n := by
  obtain ⟨l, hl, hmem⟩ := I.list n hn
  cases l with
  | nil => exact absurd (hy.symm.trans hl) (Option.some_ne_none y)
  | cons z l =>
    obtain rfl := Option.some.inj (hy.symm.trans hl.1)
    exact (hmem y).mp List.mem_cons_self

/-! ## Registering -/

/-- What `Add` writes, for an item that is not the head of the slot's list. -/
theorem add_eq (hx : w.slot n ≠ some x) (hpre : (w.item x).pre = none) :
    (w.add n x).slot = Function.update w.slot n (some x) ∧
      (w.add n x).item x = ⟨none, w.slot n, (w.item x).callback, int32 n⟩ ∧
      (∀ y, w.slot n = some y → (w.add n x).item y = { w.item y with pre := some x }) ∧
      ∀ y, y ≠ x → w.slot n ≠ some y → (w.add n x).item y = w.item y := by
  cases hslot : w.slot n with
  | none =>
    have hadd : w.add n x = ((w.setNext x none).setPre x none |>.setSlot n (some x)).setItem x
        ⟨none, none, (w.item x).callback, int32 n⟩ := by
      simp [add, hslot, setNext, setPre, setItem, setSlot]
    rw [hadd]
    refine ⟨rfl, ?_, fun y hy => (by cases hy), fun y hy _ => ?_⟩
    · simp [setItem]
    · simp [setItem, setSlot, setPre, setNext, hy]
  | some z =>
    have hzx : x ≠ z := fun h => hx (h ▸ hslot)
    have hadd : w.add n x = ((w.setPre z (some x)).setNext x (some z) |>.setSlot n (some x)).setItem x
        ⟨none, some z, (w.item x).callback, int32 n⟩ := by
      simp [add, hslot, setNext, setPre, setItem, setSlot, Function.update_of_ne hzx, hpre]
    rw [hadd]
    refine ⟨rfl, ?_, fun y hy => ?_, fun y hy hyz => ?_⟩
    · simp [setItem]
    · obtain rfl := Option.some.inj hy
      simp [setItem, setSlot, setPre, setNext, Function.update_of_ne hzx.symm]
    · have hne : y ≠ z := fun h => hyz (h ▸ rfl)
      simp [setItem, setSlot, setPre, setNext, hy, hne]

@[simp] theorem add_slotSize : (w.add n x).slotSize = w.slotSize := by
  unfold add
  cases w.slot n <;> rfl

@[simp] theorem add_items : (w.add n x).items = w.items := by
  unfold add
  cases w.slot n <;> rfl

/-- **A registration** puts the item in front of the list of its slot. -/
theorem add_inv (I : Inv w reg) (hx : x ∉ reg) (hknown : x < w.items) (hn : n < w.slotSize)
    (hsmall : n < 0x80000000) : Inv (w.add n x) (insert x reg) := by
  have hhead : w.slot n ≠ some x := fun h => hx (I.first hn h).1
  obtain ⟨hslot, hself, hfirst, hother⟩ := add_eq hhead (I.pre x hx)
  have hint : int32 n = n := if_pos hsmall
  have hne : ∀ y ∈ reg, y ≠ x := fun y hy h => hx (h ▸ hy)
  -- the other registered items keep their slots and what comes after them
  have hkeep : ∀ y ∈ reg, ((w.add n x).item y).slot = (w.item y).slot ∧
      ((w.add n x).item y).next = (w.item y).next := by
    intro y hy
    by_cases hyn : w.slot n = some y
    · rw [hfirst y hyn]
      exact ⟨rfl, rfl⟩
    · rw [hother y (hne y hy) hyn]
      exact ⟨rfl, rfl⟩
  have hidle : ∀ y ∉ insert x reg, (w.add n x).item y = w.item y := by
    intro y hy
    rw [Finset.mem_insert, not_or] at hy
    exact hother y hy.1 fun h => hy.2 (I.first hn h).1
  refine ⟨⟨fun m hm => ?_, fun y hy => ?_⟩, fun y hy => ?_, fun y hy => ?_, fun y hy => ?_,
    fun y hy => ?_⟩
  · rw [add_slotSize] at hm
    obtain ⟨l, hl, hmem⟩ := I.list m hm
    by_cases hmn : m = n
    · subst hmn
      refine ⟨x :: l, ?_, fun y => ?_⟩
      · rw [hslot, Function.update_self]
        refine hl.push ?_ ?_ (fun y hy => ?_) (fun y hy hyh => ?_) fun y hy => ?_
        · rw [preOf, hself]
        · rw [nextOf, hself]
        · rw [preOf, hfirst y hy]
        · rw [preOf, hother y (hne y ((hmem y).mp hy).1) hyh]
          rfl
        · exact (hkeep y ((hmem y).mp hy).1).2
      · rw [List.mem_cons, Finset.mem_insert]
        constructor
        · rintro (rfl | hy)
          · exact ⟨.inl rfl, by rw [hself, hint]⟩
          · obtain ⟨hyr, hys⟩ := (hmem y).mp hy
            exact ⟨.inr hyr, (hkeep y hyr).1.trans hys⟩
        · rintro ⟨rfl | hyr, hys⟩
          · exact .inl rfl
          · exact .inr ((hmem y).mpr ⟨hyr, (hkeep y hyr).1.symm.trans hys⟩)
    · refine ⟨l, ?_, fun y => ?_⟩
      · rw [hslot, Function.update_of_ne hmn]
        refine hl.congr (fun y hy => ?_) fun y hy => (hkeep y ((hmem y).mp hy).1).2
        obtain ⟨hyr, hys⟩ := (hmem y).mp hy
        rw [preOf, hother y (hne y hyr) fun h => ?_]
        · rfl
        · have := (I.first hn h).2
          omega
      · rw [hmem, Finset.mem_insert]
        constructor
        · rintro ⟨hyr, hys⟩
          exact ⟨.inr hyr, (hkeep y hyr).1.trans hys⟩
        · rintro ⟨rfl | hyr, hys⟩
          · rw [hself, hint] at hys
            exact absurd (Int.ofNat_inj.mp hys).symm hmn
          · exact ⟨hyr, (hkeep y hyr).1.symm.trans hys⟩
  · rw [add_slotSize]
    rcases Finset.mem_insert.mp hy with rfl | hyr
    · exact ⟨n, hn, by rw [hself, hint]⟩
    · rw [(hkeep y hyr).1]
      exact I.slot y hyr
  · rw [hidle y hy]
    exact I.pre y fun h => hy (Finset.mem_insert_of_mem h)
  · rw [hidle y hy]
    exact I.next y fun h => hy (Finset.mem_insert_of_mem h)
  · rw [hidle y hy]
    exact I.idle y fun h => hy (Finset.mem_insert_of_mem h)
  · rw [add_items]
    rcases Finset.mem_insert.mp hy with rfl | hyr
    · exact hknown
    · exact I.known y hyr

/-! ## Unregistering -/

@[simp] theorem unRegisterTimer_slotSize : (w.unRegisterTimer x).slotSize = w.slotSize := by
  unfold unRegisterTimer
  dsimp only
  split
  · rfl
  · cases (w.item x).pre <;> cases (w.item x).next <;> rfl

@[simp] theorem unRegisterTimer_items : (w.unRegisterTimer x).items = w.items := by
  unfold unRegisterTimer
  dsimp only
  split
  · rfl
  · cases (w.item x).pre <;> cases (w.item x).next <;> rfl

section Unlink

variable (hslot : (w.item x).slot = n) (hn : n < w.slotSize)

include hslot hn

/-- The writes of `UnRegisterTimer` to the slots. -/
theorem unRegisterTimer_slot : (w.unRegisterTimer x).slot =
    if (w.item x).pre = none then Function.update w.slot n (w.item x).next else w.slot := by
  have hrange : ¬ ((w.item x).slot < 0 ∨ (w.item x).slot ≥ w.slotSize) := by omega
  unfold unRegisterTimer
  rw [if_neg hrange, hslot]
  cases (w.item x).pre <;> cases (w.item x).next <;> simp [setItem, setSlot, setNext, setPre]

theorem unRegisterTimer_self :
    (w.unRegisterTimer x).item x = ⟨none, none, (w.item x).callback, -1⟩ := by
  have hrange : ¬ ((w.item x).slot < 0 ∨ (w.item x).slot ≥ w.slotSize) := by omega
  have hset : ∀ (u : TimingWheel) y p, ((u.setPre y p).item x).callback = (u.item x).callback ∧
      ((u.setNext y p).item x).callback = (u.item x).callback := by
    intro u y p
    by_cases hy : x = y <;> simp [setPre, setNext, setItem, hy]
  unfold unRegisterTimer
  rw [if_neg hrange]
  cases (w.item x).pre <;> cases (w.item x).next <;>
    simp [setItem, hset] <;> rfl

/-- The writes of `UnRegisterTimer` to the other items. -/
theorem unRegisterTimer_other {z : ℕ} (hz : z ≠ x) :
    ((w.unRegisterTimer x).item z).slot = (w.item z).slot ∧
      ((w.item x).pre = some z → ((w.unRegisterTimer x).item z).next = (w.item x).next) ∧
      ((w.item x).pre ≠ some z → ((w.unRegisterTimer x).item z).next = (w.item z).next) ∧
      ((w.item x).next = some z → ((w.unRegisterTimer x).item z).pre = (w.item x).pre) ∧
      ((w.item x).next ≠ some z → ((w.unRegisterTimer x).item z).pre = (w.item z).pre) := by
  have hrange : ¬ ((w.item x).slot < 0 ∨ (w.item x).slot ≥ w.slotSize) := by omega
  unfold unRegisterTimer
  rw [if_neg hrange]
  cases hp : (w.item x).pre with
  | none =>
    cases hnx : (w.item x).next with
    | none => simp [setItem, setSlot, hz]
    | some m =>
      by_cases hm : m = z
      · subst hm
        simp [setItem, setSlot, setPre, hz]
      · simp [setItem, setSlot, setPre, hz, hm, Ne.symm hm]
  | some q =>
    cases hnx : (w.item x).next with
    | none =>
      by_cases hq : q = z
      · subst hq
        simp [setItem, setNext, hz]
      · simp [setItem, setNext, hz, hq, Ne.symm hq]
    | some m =>
      by_cases hm : m = z <;> by_cases hq : q = z
      · subst hm hq
        simp [setItem, setPre, setNext, hz]
      · subst hm
        simp [setItem, setPre, setNext, hz, hq, Ne.symm hq]
      · subst hq
        simp [setItem, setPre, setNext, hz, hm, Ne.symm hm]
      · simp [setItem, setPre, setNext, hz, hm, hq, Ne.symm hm, Ne.symm hq]

end Unlink

/-- **Unregistering a registered item** takes it out of the list of its slot. -/
theorem unlink_inv (I : Inv w reg) (hx : x ∈ reg) : Inv (w.unRegisterTimer x) (reg.erase x) := by
  obtain ⟨n, hn, hslot⟩ := I.slot x hx
  have hself := unRegisterTimer_self hslot hn
  have hother := fun z (hz : z ≠ x) => unRegisterTimer_other hslot hn hz
  have hslots := unRegisterTimer_slot hslot hn
  obtain ⟨l, hl, hmem⟩ := I.list n hn
  obtain ⟨a, b, rfl⟩ := List.append_of_mem ((hmem x).mpr ⟨hx, hslot⟩)
  have hnodup := hl.nodup
  have hne : ∀ z ∈ a ++ b, z ≠ x := by
    rintro z hz rfl
    rw [List.nodup_middle, List.nodup_cons] at hnodup
    exact hnodup.1 hz
  -- the neighbours are in the same list
  have hnear : ∀ z, (w.item x).pre = some z ∨ (w.item x).next = some z → z ∈ a ++ x :: b := by
    rintro z (hz | hz)
    · by_cases ha : a = []
      · subst ha
        exact absurd (hz.symm.trans hl.2.1) (Option.some_ne_none z)
      · obtain ⟨y, hy, hxy⟩ := hl.pre_mem ha
        obtain rfl := Option.some.inj (hz.symm.trans hxy)
        exact List.mem_append_left _ hy
    · have hrest := hl.drop.2.2
      cases b with
      | nil => exact absurd (hz.symm.trans hrest) (Option.some_ne_none z)
      | cons y b =>
        obtain rfl := Option.some.inj (hz.symm.trans hrest.1)
        simp
  -- an item outside of the list keeps its pointers
  have hfar : ∀ z ∉ a ++ x :: b, (w.unRegisterTimer x).preOf z = w.preOf z ∧
      (w.unRegisterTimer x).nextOf z = w.nextOf z := by
    intro z hz
    have hzx : z ≠ x := by
      rintro rfl
      exact hz (by simp)
    obtain ⟨-, -, hnext, -, hpre⟩ := hother z hzx
    exact ⟨hpre fun h => hz (hnear z (.inr h)), hnext fun h => hz (hnear z (.inl h))⟩
  have hout : ∀ z ∉ reg, z ∉ a ++ x :: b := fun z hz h => hz ((hmem z).mp h).1
  have hidle : ∀ z ∉ reg.erase x, z = x ∨ z ≠ x ∧ z ∉ reg := by
    intro z hz
    by_cases hzx : z = x
    · exact .inl hzx
    · exact .inr ⟨hzx, fun h => hz (Finset.mem_erase.mpr ⟨hzx, h⟩)⟩
  refine ⟨⟨fun m hm => ?_, fun z hz => ?_⟩, fun z hz => ?_, fun z hz => ?_, fun z hz => ?_,
    fun z hz => ?_⟩
  · rw [unRegisterTimer_slotSize] at hm
    by_cases hmn : m = n
    · subst hmn
      refine ⟨a ++ b, ?_, fun z => ?_⟩
      · refine hl.unlink (fun z hz => by cases hz) (fun z hz => ?_) (fun z hz => ?_)
          (fun z hz hzp => (hother z (hne z hz)).2.2.1 hzp)
          (fun z hz hzn => (hother z (hne z hz)).2.2.2.2 hzn) (fun ha => ?_) fun ha => ?_
        · exact (hother z (hl.ne_pre hz)).2.1 hz
        · exact (hother z (hl.ne_next hz)).2.2.2.1 hz
        · subst ha
          rw [hslots, if_pos (show (w.item x).pre = none from hl.2.1), Function.update_self]
          rfl
        · obtain ⟨y, -, hy⟩ := hl.pre_mem ha
          rw [hslots, if_neg (by rw [show (w.item x).pre = _ from hy]; exact Option.some_ne_none y)]
      · rw [Finset.mem_erase]
        constructor
        · intro hz
          have hzx := hne z hz
          obtain ⟨hzr, hzs⟩ := (hmem z).mp (by
            rcases List.mem_append.mp hz with h | h <;> simp [h])
          exact ⟨⟨hzx, hzr⟩, (hother z hzx).1.trans hzs⟩
        · rintro ⟨⟨hzx, hzr⟩, hzs⟩
          have hz := (hmem z).mpr ⟨hzr, (hother z hzx).1.symm.trans hzs⟩
          simpa [hzx] using hz
    · obtain ⟨k, hk, hkmem⟩ := I.list m hm
      have hdisj : ∀ z ∈ k, z ∉ a ++ x :: b := by
        intro z hz hz'
        have h₁ := ((hkmem z).mp hz).2
        have h₂ := ((hmem z).mp hz').2
        omega
      refine ⟨k, ?_, fun z => ?_⟩
      · have hsame : (w.unRegisterTimer x).slot m = w.slot m := by
          rw [hslots]
          split
          · exact Function.update_of_ne hmn _ _
          · rfl
        rw [hsame]
        exact hk.congr (fun z hz => (hfar z (hdisj z hz)).1) fun z hz => (hfar z (hdisj z hz)).2
      · rw [hkmem, Finset.mem_erase]
        by_cases hzx : z = x
        · subst hzx
          simp only [ne_eq, not_true_eq_false, false_and, iff_false, not_and]
          intro _
          omega
        · rw [(hother z hzx).1]
          simp [hzx]
  · obtain ⟨hzx, hzr⟩ := Finset.mem_erase.mp hz
    rw [unRegisterTimer_slotSize, (hother z hzx).1]
    exact I.slot z hzr
  · rcases hidle z hz with rfl | ⟨-, hzr⟩
    · rw [hself]
    · exact (hfar z (hout z hzr)).1.trans (I.pre z hzr)
  · rcases hidle z hz with rfl | ⟨-, hzr⟩
    · rw [hself]
    · exact (hfar z (hout z hzr)).2.trans (I.next z hzr)
  · rcases hidle z hz with rfl | ⟨hzx, hzr⟩
    · exact .inl (by rw [hself])
    · rw [(hother z hzx).1]
      exact I.idle z hzr
  · rw [unRegisterTimer_items]
    exact I.known z (Finset.mem_of_mem_erase hz)

/-- Unregistering an item that is neither registered nor fired does nothing. -/
theorem unRegisterTimer_of_neg (hx : (w.item x).slot = -1) : w.unRegisterTimer x = w := by
  unfold unRegisterTimer
  rw [if_pos (by omega)]

/-- **Unregistering an item that has fired** empties the slot `0`. -/
theorem unRegisterTimer_fired (I : Inv w reg) (hx : Fired w reg x) (hsize : 0 < w.slotSize) :
    w.unRegisterTimer x = (w.setSlot 0 none).setItem x ⟨none, none, (w.item x).callback, -1⟩ := by
  unfold unRegisterTimer
  dsimp only
  rw [if_neg (by rw [hx.2]; omega), I.pre x hx.1, I.next x hx.1, hx.2]
  rfl

/-- The slot of an item that is not registered may be anything that is allowed to such items. -/
theorem Inv.setItem (I : Inv w reg) (hx : x ∉ reg) {i : WheelItem} (hpre : i.pre = none)
    (hnext : i.next = none) (hslot : i.slot = -1 ∨ i.slot = 0) : Inv (w.setItem x i) reg := by
  have hself : (w.setItem x i).item x = i := Function.update_self ..
  have hother : ∀ z, z ≠ x → (w.setItem x i).item z = w.item z :=
    fun z hz => Function.update_of_ne hz ..
  have hne : ∀ z ∈ reg, z ≠ x := fun z hz h => hx (h ▸ hz)
  have hidle : ∀ P : WheelItem → Prop, P i → (∀ z ∉ reg, P (w.item z)) →
      ∀ z ∉ reg, P ((w.setItem x i).item z) := by
    intro P hi hP z hz
    by_cases hzx : z = x
    · rwa [hzx, hself]
    · rw [hother z hzx]
      exact hP z hz
  refine ⟨⟨fun n hn => ?_, fun z hz => ?_⟩, hidle (fun i => i.pre = none) hpre I.pre,
    hidle (fun i => i.next = none) hnext I.next, hidle (fun i => i.slot = -1 ∨ i.slot = 0) hslot I.idle,
    I.known⟩
  · obtain ⟨l, hl, hmem⟩ := I.list n hn
    have hkeep : ∀ z ∈ l, (w.setItem x i).item z = w.item z :=
      fun z hz => hother z (hne z ((hmem z).mp hz).1)
    refine ⟨l, hl.congr (fun z hz => ?_) fun z hz => ?_, fun z => ?_⟩
    · rw [preOf, hkeep z hz]
      rfl
    · rw [nextOf, hkeep z hz]
      rfl
    · rw [hmem]
      refine and_congr_right fun hz => ?_
      rw [hother z (hne z hz)]
  · rw [hother z (hne z hz)]
    exact I.slot z hz

/-- **Unregistering an item that has fired** is harmless while the slot `0` is empty. -/
theorem fired_inv (I : Inv w reg) (hx : Fired w reg x)
    (hempty : 0 < w.slotSize → w.slot 0 = none) : Inv (w.unRegisterTimer x) reg := by
  rcases Nat.eq_zero_or_pos w.slotSize with hsize | hsize
  · have hsame : w.unRegisterTimer x = w := by
      unfold unRegisterTimer
      rw [if_pos (by rw [hx.2, hsize]; decide)]
    rwa [hsame]
  · rw [unRegisterTimer_fired I hx hsize]
    have hslot : w.setSlot 0 none = w := by
      rw [setSlot, ← hempty hsize, Function.update_eq_self]
    rw [hslot]
    exact I.setItem hx.1 rfl rfl (.inl rfl)

/-! ## Updating -/

/-- The callback that does not touch the wheel. -/
def quiet (w : TimingWheel) (_ : ℕ) : Exec TimingWheel := .ok w

/-- The wheel after the items of `l` have been taken off their lists. -/
def fire (w : TimingWheel) (l : List ℕ) : TimingWheel :=
  { w with item := fun x => if x ∈ l then ⟨none, none, (w.item x).callback, 0⟩ else w.item x }

/-- **The loop of `Active`** takes off all items of the list. -/
theorem activeLoop_eq {fuel : ℕ} {p head : Option ℕ} (hl : Seg w.preOf w.nextOf p head l)
    (hfuel : l.length ≤ fuel) : activeLoop quiet fuel w head = .ok (w.fire l, l) := by
  induction l generalizing w fuel p head with
  | nil =>
    obtain rfl : head = none := hl
    have hsame : w.fire [] = w := by simp [fire]
    rw [hsame, activeLoop]
  | cons x l ih =>
    have hx := (List.nodup_cons.mp hl.nodup).1
    obtain ⟨rfl, -, hrest⟩ := hl
    obtain ⟨f, rfl⟩ : ∃ f, fuel = f + 1 := ⟨fuel - 1, by simp at hfuel; omega⟩
    set u := w.setItem x ⟨none, none, (w.item x).callback, 0⟩ with hu
    have hother : ∀ z ∈ l, u.item z = w.item z :=
      fun z hz => Function.update_of_ne (by rintro rfl; exact hx hz) ..
    have hseg : Seg u.preOf u.nextOf (some x) (w.nextOf x) l := by
      refine hrest.congr (fun z hz => ?_) fun z hz => ?_
      · rw [preOf, hother z hz]
        rfl
      · rw [nextOf, hother z hz]
        rfl
    have hrec := ih hseg (show l.length ≤ f by simpa using hfuel)
    have hfire : u.fire l = w.fire (x :: l) := by
      simp only [fire, hu, setItem, TimingWheel.mk.injEq, true_and]
      funext z
      by_cases hzx : z = x
      · subst hzx
        simp [hx]
      · simp [hzx]
    have hround : activeLoop quiet (f + 1) w (some x) =
        (activeLoop quiet f u (w.nextOf x) >>= fun r => .ok (r.1, x :: r.2)) := by
      rw [activeLoop]
      split <;> rfl
    rw [hround, hrec, hfire, Exec.ok_bind]

/-- **`Active`** fires exactly the items of the slot. -/
theorem active_inv (I : Inv w reg) (hn : n < w.slotSize) :
    ∃ w' l, active quiet w n = .ok (w', l) ∧ Inv w' (reg \ l.toFinset) ∧ l.Nodup ∧
      (∀ x ∈ l, x ∈ reg) ∧ w'.slotSize = w.slotSize := by
  obtain ⟨l, hl, hmem⟩ := I.list n hn
  have hsub : ∀ x ∈ l, x ∈ reg := fun x hx => ((hmem x).mp hx).1
  have hlen : l.length ≤ w.items := by
    have hcard : l.toFinset ⊆ Finset.range w.items := fun x hx =>
      Finset.mem_range.mpr (I.known x (hsub x (List.mem_toFinset.mp hx)))
    have := Finset.card_le_card hcard
    rwa [List.toFinset_card_of_nodup hl.nodup, Finset.card_range] at this
  set u := (w.setSlot n none).fire l with hu
  have hin : ∀ x ∈ l, u.item x = ⟨none, none, (w.item x).callback, 0⟩ := fun x hx => if_pos hx
  have hout : ∀ x ∉ l, u.item x = w.item x := fun x hx => if_neg hx
  have hreg : ∀ x, x ∈ reg \ l.toFinset ↔ x ∈ reg ∧ x ∉ l := fun x => by
    rw [Finset.mem_sdiff, List.mem_toFinset]
  have hidle : ∀ P : WheelItem → Prop, (∀ b, P ⟨none, none, b, 0⟩) → (∀ x ∉ reg, P (w.item x)) →
      ∀ x ∉ reg \ l.toFinset, P (u.item x) := by
    intro P hP hP' x hx
    by_cases hxl : x ∈ l
    · rw [hin x hxl]
      exact hP _
    · rw [hout x hxl]
      exact hP' x fun h => hx ((hreg x).mpr ⟨h, hxl⟩)
  refine ⟨u, l, ?_, ⟨⟨fun m hm => ?_, fun x hx => ?_⟩,
    hidle (fun i => i.pre = none) (fun _ => rfl) I.pre,
    hidle (fun i => i.next = none) (fun _ => rfl) I.next,
    hidle (fun i => i.slot = -1 ∨ i.slot = 0) (fun _ => .inr rfl) I.idle, fun x hx => ?_⟩, hl.nodup,
    hsub, rfl⟩
  · exact activeLoop_eq (w := w.setSlot n none) hl hlen
  · by_cases hmn : m = n
    · subst hmn
      refine ⟨[], Function.update_self .., fun x => ?_⟩
      simp only [List.not_mem_nil, false_iff, not_and]
      intro hx hslot
      obtain ⟨hxr, hxl⟩ := (hreg x).mp hx
      rw [hout x hxl] at hslot
      exact hxl ((hmem x).mpr ⟨hxr, hslot⟩)
    · obtain ⟨k, hk, hkmem⟩ := I.list m hm
      have hdisj : ∀ x ∈ k, x ∉ l := by
        intro x hx hx'
        have h₁ := ((hkmem x).mp hx).2
        have h₂ := ((hmem x).mp hx').2
        omega
      refine ⟨k, ?_, fun x => ?_⟩
      · have hsame : u.slot m = w.slot m := Function.update_of_ne hmn ..
        rw [hsame]
        refine hk.congr (fun x hx => ?_) fun x hx => ?_
        · rw [preOf, hout x (hdisj x hx)]
          rfl
        · rw [nextOf, hout x (hdisj x hx)]
          rfl
      · rw [hreg]
        constructor
        · intro hx
          rw [hout x (hdisj x hx)]
          exact ⟨⟨((hkmem x).mp hx).1, hdisj x hx⟩, ((hkmem x).mp hx).2⟩
        · rintro ⟨⟨hxr, hxl⟩, hslot⟩
          rw [hout x hxl] at hslot
          exact (hkmem x).mpr ⟨hxr, hslot⟩
  · obtain ⟨hxr, hxl⟩ := (hreg x).mp hx
    rw [hout x hxl]
    exact I.slot x hxr
  · exact I.known x ((hreg x).mp hx).1

/-- **The loop of `UpdateWheel`** fires registered items only, and none of them twice. -/
theorem updateLoop_inv {i : ℕ} (I : Inv w reg) (hsize : 0 < w.slotSize) :
    ∃ w' l, updateLoop quiet n i w = .ok (w', l) ∧ Inv w' (reg \ l.toFinset) ∧ l.Nodup ∧
      (∀ x ∈ l, x ∈ reg) ∧ w'.slotSize = w.slotSize := by
  induction n generalizing w reg i with
  | zero => exact ⟨w, [], rfl, by simpa using I, List.nodup_nil, by simp, rfl⟩
  | succ n ih =>
    obtain ⟨w₁, l₁, hact, I₁, hnodup₁, hsub₁, hsize₁⟩ :=
      active_inv I (Nat.mod_lt (add32 w.current i) hsize)
    obtain ⟨w₂, l₂, hloop, I₂, hnodup₂, hsub₂, hsize₂⟩ := ih (i := i + 1) I₁ (hsize₁ ▸ hsize)
    have hsub : ∀ x ∈ l₂, x ∈ reg ∧ x ∉ l₁ := by
      intro x hx
      have := hsub₂ x hx
      rwa [Finset.mem_sdiff, List.mem_toFinset] at this
    refine ⟨w₂, l₁ ++ l₂, ?_, ?_, ?_, fun x hx => ?_, hsize₂.trans hsize₁⟩
    · rw [updateLoop, hact, Exec.ok_bind]
      simp only [hloop, Exec.ok_bind]
      rfl
    · have hboth : reg \ (l₁ ++ l₂).toFinset = (reg \ l₁.toFinset) \ l₂.toFinset := by
        ext x
        simp [and_assoc]
      rwa [hboth]
    · refine List.nodup_append.mpr ⟨hnodup₁, hnodup₂, ?_⟩
      rintro x hx y hy rfl
      exact (hsub x hy).2 hx
    · rcases List.mem_append.mp hx with h | h
      · exact hsub₁ x h
      · exact (hsub x h).1

/-! ## Runs -/

/-- A call on the wheel. `RegisterTimer` reads the clock itself. -/
inductive Op
  | register (x now timeout : ℕ)
  | unregister (x : ℕ)
  | update (now : ℕ)

/-- A wheel and the record of the registered items. -/
structure State where
  wheel : TimingWheel
  registered : Finset ℕ

/-- A call, and the items it fires: the callbacks that run are those of these items. -/
def step (s : State) : Op → Exec (State × List ℕ)
  | .register x now timeout =>
    let (w, result) := s.wheel.registerTimer x now timeout
    .ok (⟨w, if result = 0 then insert x s.registered else s.registered⟩, [])
  | .unregister x => .ok (⟨s.wheel.unRegisterTimer x, s.registered.erase x⟩, [])
  | .update now => do
    let (w, fired, _) ← s.wheel.updateWheel quiet now
    return (⟨w, s.registered \ fired.toFinset⟩, fired)

/-- The calls of the setting: all are about items that there are, and an item that is registered is
not registered again. -/
def Allowed (s : State) : Op → Prop
  | .register x _ _ => x < s.wheel.items ∧ x ∉ s.registered
  | .unregister x => x < s.wheel.items
  | .update _ => True

/-- A call that the wheel can take: a number of a slot fits into the item's `slot`, an item that has
fired is unregistered only while the slot `0` is empty, and a wheel without slots is not updated. -/
def Clear (s : State) : Op → Prop
  | .register _ now timeout => ∀ n ∈ s.wheel.registerSlot now timeout, n < 0x80000000
  | .unregister x =>
    Fired s.wheel s.registered x → 0 < s.wheel.slotSize → s.wheel.slot 0 = none
  | .update now => s.wheel.precision ≤ sub32 now s.wheel.lastUpdate → s.wheel.slotSize ≠ 0

/-- A condition on the calls of a run and the states they are made in. -/
def Along (P : State → Op → Prop) : State → List Op → Prop
  | _, [] => True
  | s, op :: ops => P s op ∧ ∀ s' fired, step s op = .ok (s', fired) → Along P s' ops

instance : DecidablePred (Fired w reg) := fun _ => inferInstanceAs (Decidable (_ ∧ _))

instance (s : State) : DecidablePred (Allowed s)
  | .register _ _ _ => inferInstanceAs (Decidable (_ ∧ _))
  | .unregister _ => inferInstanceAs (Decidable (_ < _))
  | .update _ => inferInstanceAs (Decidable True)

instance (s : State) : DecidablePred (Clear s)
  | .register _ _ _ => inferInstanceAs (Decidable (∀ n ∈ _, n < 0x80000000))
  | .unregister _ => inferInstanceAs (Decidable (_ → _ → _))
  | .update _ => inferInstanceAs (Decidable (_ → _ ≠ _))

theorem along_cons {P : State → Op → Prop} {s s' : State} {op : Op} {ops : List Op} {fired : List ℕ}
    (hstep : step s op = .ok (s', fired)) : Along P s (op :: ops) ↔ P s op ∧ Along P s' ops := by
  refine and_congr_right fun _ => ⟨fun h => h s' fired hstep, fun h t l hstep' => ?_⟩
  obtain ⟨rfl, rfl⟩ := Prod.mk.inj (Except.ok.inj (hstep.symm.trans hstep'))
  exact h

/-- Whether a condition holds along a run can be computed. -/
def decidableAlong {P : State → Op → Prop} (dec : ∀ s op, Decidable (P s op)) :
    ∀ s ops, Decidable (Along P s ops)
  | _, [] => isTrue trivial
  | s, op :: ops =>
    match h : step s op with
    | .ok (s', _) =>
      have := dec s op
      have := decidableAlong dec s' ops
      decidable_of_iff (P s op ∧ Along P s' ops) (along_cons h).symm
    | .error _ =>
      have := dec s op
      decidable_of_iff (P s op) ⟨fun hp => ⟨hp, fun _ _ h' => by rw [h] at h'; cases h'⟩, And.left⟩

instance (s : State) : DecidablePred (Along Allowed s) := decidableAlong (fun _ _ => inferInstance) s

instance (s : State) : DecidablePred (Along Clear s) := decidableAlong (fun _ _ => inferInstance) s

/-- Registration is exact in a run: in every state the wheel is linked, every call returns, and it
fires registered items only and none of them twice. -/
def Exact : State → List Op → Prop
  | s, [] => Linked s.wheel s.registered
  | s, op :: ops => Linked s.wheel s.registered ∧ ∃ s' fired, step s op = .ok (s', fired) ∧
    fired.Nodup ∧ (∀ x ∈ fired, x ∈ s.registered) ∧ Exact s' ops

theorem Exact.linked {s : State} {ops : List Op} (h : Exact s ops) :
    Linked s.wheel s.registered := by
  cases ops with
  | nil => exact h
  | cons op ops => exact h.1

theorem registerSlot_lt {now timeout : ℕ} (hslot : w.registerSlot now timeout = some n) :
    n < w.slotSize ∧ n < 0x100000000 := by
  obtain ⟨k, hk⟩ : ∃ k, w.registerSlot now timeout =
    if k ≥ w.slotSize then none else some (add32 w.current k % w.slotSize) := ⟨_, rfl⟩
  rw [hk] at hslot
  split at hslot
  · cases hslot
  · rw [← Option.some.inj hslot]
    refine ⟨Nat.mod_lt _ (by omega), (Nat.mod_le _ _).trans_lt ?_⟩
    exact Nat.mod_lt _ (by decide)

/-- **A call that the wheel can take.** -/
theorem step_inv {s : State} {op : Op} (I : Inv s.wheel s.registered) (hallowed : Allowed s op)
    (hclear : Clear s op) : ∃ s' fired, step s op = .ok (s', fired) ∧ fired.Nodup ∧
      (∀ x ∈ fired, x ∈ s.registered) ∧ Inv s'.wheel s'.registered := by
  cases op with
  | register x now timeout =>
    refine ⟨_, [], rfl, List.nodup_nil, by simp, ?_⟩
    cases hslot : s.wheel.registerSlot now timeout with
    | none => exact I
    | some n =>
      exact add_inv I hallowed.2 hallowed.1 (registerSlot_lt hslot).1 (hclear n hslot)
  | unregister x =>
    refine ⟨_, [], rfl, List.nodup_nil, by simp, ?_⟩
    by_cases hx : x ∈ s.registered
    · exact unlink_inv I hx
    · change Inv (s.wheel.unRegisterTimer x) (s.registered.erase x)
      rw [Finset.erase_eq_of_notMem hx]
      rcases I.idle x hx with hslot | hslot
      · rwa [unRegisterTimer_of_neg hslot]
      · exact fired_inv I ⟨hx, hslot⟩ (hclear ⟨hx, hslot⟩)
  | update now =>
    by_cases hlong : sub32 now s.wheel.lastUpdate < s.wheel.precision
    · refine ⟨s, [], ?_, List.nodup_nil, by simp, I⟩
      simp [step, updateWheel, hlong]
    · have hsize := hclear (Nat.le_of_not_lt hlong)
      obtain ⟨rounds, hrounds⟩ : ∃ rounds, rounds =
          min (sub32 now s.wheel.lastUpdate / s.wheel.precision) s.wheel.slotSize := ⟨_, rfl⟩
      obtain ⟨w', l, hloop, I', hnodup, hsub, hsize'⟩ :=
        updateLoop_inv (n := rounds) (i := 0) I (Nat.pos_of_ne_zero hsize)
      refine ⟨⟨{ w' with
          current := add32 w'.current rounds % s.wheel.slotSize
          lastUpdate := now }, s.registered \ l.toFinset⟩, l, ?_, hnodup, hsub, ?_⟩
      · simp only [step, updateWheel, if_neg hlong, ← hrounds, hloop, Exec.ok_bind, hsize',
          if_neg hsize]
        rfl
      · exact ⟨⟨I'.list, I'.slot⟩, I'.pre, I'.next, I'.idle, I'.known⟩

/-- **A call that the wheel cannot take** does not return, or leaves a wheel that is not linked. -/
theorem step_not_linked {s s' : State} {op : Op} {fired : List ℕ} (I : Inv s.wheel s.registered)
    (hclear : ¬ Clear s op) (hstep : step s op = .ok (s', fired)) :
    ¬ Linked s'.wheel s'.registered := by
  intro hlinked
  apply hclear
  cases op with
  | register x now timeout =>
    intro n (hslot : s.wheel.registerSlot now timeout = some n)
    by_contra hlarge
    simp only [step, registerTimer, hslot, if_true] at hstep
    obtain ⟨rfl, -⟩ := Prod.mk.inj (Except.ok.inj hstep)
    obtain ⟨m, -, hm⟩ := hlinked.slot x (Finset.mem_insert_self x _)
    have hint : ((s.wheel.add n x).item x).slot = int32 n := by
      unfold add
      simp [setItem]
    have hlt := (registerSlot_lt hslot).2
    rw [hint, int32, if_neg (by omega)] at hm
    omega
  | unregister x =>
    intro hfired hsize
    obtain ⟨rfl, -⟩ := Prod.mk.inj (Except.ok.inj hstep)
    change Linked (s.wheel.unRegisterTimer x) (s.registered.erase x) at hlinked
    rw [unRegisterTimer_fired I hfired hsize] at hlinked
    by_contra hnone
    -- the first item of the slot is still registered, but its list is empty
    obtain ⟨y, hy⟩ := Option.ne_none_iff_exists'.mp hnone
    obtain ⟨hreg, hslot⟩ := I.first hsize hy
    have hyx : y ≠ x := fun h => hfired.1 (h ▸ hreg)
    obtain ⟨l, hl, hmem⟩ := hlinked.list 0 hsize
    have hin : y ∈ l := by
      refine (hmem y).mpr ⟨Finset.mem_erase.mpr ⟨hyx, hreg⟩, ?_⟩
      simpa [setItem, setSlot, hyx] using hslot
    cases l with
    | nil => cases hin
    | cons z l =>
      have hhead := hl.1
      simp [setItem, setSlot] at hhead
  | update now =>
    rintro hlong hzero
    simp only [step, updateWheel, if_neg (Nat.not_lt.mpr hlong), hzero, Nat.min_zero, updateLoop,
      Exec.ok_bind, if_true, Exec.error_bind] at hstep
    cases hstep

theorem exact_iff {s : State} {ops : List Op} (I : Inv s.wheel s.registered)
    (hallowed : Along Allowed s ops) : Exact s ops ↔ Along Clear s ops := by
  induction ops generalizing s with
  | nil => exact ⟨fun _ => trivial, fun _ => I.toLinked⟩
  | cons op ops ih =>
    obtain ⟨hop, hrest⟩ := hallowed
    constructor
    · rintro ⟨-, s', fired, hstep, -, -, hexact⟩
      have hclear : Clear s op := by
        by_contra hnot
        exact step_not_linked I hnot hstep hexact.linked
      refine ⟨hclear, fun t fired' hstep' => ?_⟩
      obtain ⟨rfl, rfl⟩ := Prod.mk.inj (Except.ok.inj (hstep.symm.trans hstep'))
      obtain ⟨u, fired', hstep', -, -, I'⟩ := step_inv I hop hclear
      obtain ⟨rfl, rfl⟩ := Prod.mk.inj (Except.ok.inj (hstep.symm.trans hstep'))
      exact (ih I' (hrest s' fired hstep)).mp hexact
    · rintro ⟨hclear, hlater⟩
      obtain ⟨s', fired, hstep, hnodup, hsub, I'⟩ := step_inv I hop hclear
      exact ⟨I.toLinked, s', fired, hstep, hnodup, hsub,
        (ih I' (hrest s' fired hstep)).mpr (hlater s' fired hstep)⟩

/-- A wheel whose slots are empty, and items that are not registered. -/
theorem create_inv {precision max now items : ℕ} {callback : ℕ → Bool}
    (h : createTimingWheel precision max now (fun _ => none) items
      (fun x => createWheelItem (callback x)) = .ok w) : Inv w ∅ := by
  unfold createTimingWheel at h
  split at h
  · cases h
  · obtain rfl := Except.ok.inj h
    refine ⟨⟨fun n _ => ⟨[], rfl, by simp⟩, by simp⟩, fun _ _ => rfl, fun _ _ => rfl,
      fun _ _ => .inl rfl, by simp⟩

/-- **Registration is exact** in a run from a wheel whose slots are empty, exactly if no call is made
that the wheel cannot take. -/
theorem exact_iff_clear {precision max now items : ℕ} {callback : ℕ → Bool}
    (h : createTimingWheel precision max now (fun _ => none) items
      (fun x => createWheelItem (callback x)) = .ok w) {ops : List Op}
    (hallowed : Along Allowed ⟨w, ∅⟩ ops) : Exact ⟨w, ∅⟩ ops ↔ Along Clear ⟨w, ∅⟩ ops :=
  exact_iff (create_inv h) hallowed

/-- A wheel of three slots and two items, each with a callback. -/
def threeSlots : TimingWheel := ⟨10, 3, 0, 0, fun _ => none, 2, fun _ => createWheelItem true⟩

theorem create_threeSlots : createTimingWheel 10 30 0 (fun _ => none) 2
    (fun _ => createWheelItem true) = .ok threeSlots := rfl

/-- An item is registered, fires and is unregistered while the slot `0` is empty. -/
theorem exact_unregister_fired :
    Exact ⟨threeSlots, ∅⟩ [.register 0 0 10, .update 10, .unregister 0, .register 1 10 30] :=
  (exact_iff_clear create_threeSlots (by decide)).mpr (by decide)

/-- The slot `0` has an item when one that has fired is unregistered. -/
theorem not_exact_unregister_fired : ∃ ops, Along Allowed ⟨threeSlots, ∅⟩ ops ∧
    ops = [.register 0 0 10, .update 10, .register 1 10 30, .unregister 0] ∧
    ¬ Exact ⟨threeSlots, ∅⟩ ops := by
  refine ⟨_, by decide, rfl, ?_⟩
  rw [exact_iff (create_inv create_threeSlots) (by decide)]
  decide

end Kendylib.TimingWheel
