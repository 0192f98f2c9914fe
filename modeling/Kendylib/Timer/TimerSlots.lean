import Kendylib.Timer.TimerRanges

/-!
# The lists of the slots

A wheel from above: a list of items for each slot. `Holds w L` says that the wheel `w` has the lists
`L`, whatever the numbers of the slots are; the `slot` of an item is the number of its slot read as a
signed word.

* The calls act on the lists: `RegisterTimer` puts an item in front of a list (`Holds.register`),
  `UnRegisterTimer` takes one out of its list (`Holds.unregister`).
* While `Active` runs, the items that it has still to take off are on a list of their own, which no
  slot points at (`Sweeping`). The calls that callbacks make act on the lists of the slots as before
  (`Sweeping.register`, `Sweeping.unregister`), and an item may be taken out of the middle of that
  list too (`Sweeping.unregister_rest`).
-/

namespace Kendylib.TimingWheel

variable {w : TimingWheel} {L : ℕ → List ℕ} {x y n m now timeout : ℕ} {l rest : List ℕ}
  {p : Option ℕ}

/-! ## Wheels and their lists -/

/-- The wheel has the lists `L`, and no other items have neighbours. -/
structure Holds (w : TimingWheel) (L : ℕ → List ℕ) : Prop where
  list : ∀ n < w.slotSize, Seg w.preOf w.nextOf none (w.slot n) (L n)
  empty : ∀ n, w.slotSize ≤ n → L n = []
  slot : ∀ n, ∀ x ∈ L n, (w.item x).slot = int32 n
  apart : ∀ m n x, x ∈ L m → x ∈ L n → m = n
  pre : ∀ x, (∀ n, x ∉ L n) → (w.item x).pre = none
  next : ∀ x, (∀ n, x ∉ L n) → (w.item x).next = none
  known : ∀ n, ∀ x ∈ L n, x < w.items

theorem Holds.lt (H : Holds w L) (hx : x ∈ L n) : n < w.slotSize := by
  by_contra hn
  rw [H.empty n (Nat.not_lt.mp hn)] at hx
  cases hx

theorem Holds.nodup (H : Holds w L) (n : ℕ) : (L n).Nodup := by
  by_cases hn : n < w.slotSize
  · exact (H.list n hn).nodup
  · rw [H.empty n (Nat.not_lt.mp hn)]
    exact List.nodup_nil

theorem Holds.first (H : Holds w L) (hn : n < w.slotSize) (hy : w.slot n = some y) : y ∈ L n := by
  have hl := H.list n hn
  cases hL : L n with
  | nil =>
    rw [hL] at hl
    exact absurd (hy.symm.trans hl) (Option.some_ne_none y)
  | cons z l =>
    rw [hL] at hl
    obtain rfl := Option.some.inj (hy.symm.trans hl.1)
    exact List.mem_cons_self

theorem Holds.head (H : Holds w L) (hn : n < w.slotSize) : w.slot n = (L n).head? := by
  have hl := H.list n hn
  cases hL : L n with
  | nil =>
    rw [hL] at hl
    exact hl
  | cons y l =>
    rw [hL] at hl
    exact hl.1

/-- The `slot` of an item is its slot exactly if it is not negative. -/
theorem Holds.slot_nonneg (H : Holds w L) (hw : Sized w) (hx : x ∈ L n) :
    0 ≤ (w.item x).slot ↔ n < 0x80000000 := by
  have hword : n < 0x100000000 := (H.lt hx).trans hw.slotSize_lt
  rw [H.slot n x hx, int32]
  split <;> omega

/-- The wheel determines its lists. -/
theorem Holds.unique {M : ℕ → List ℕ} (H : Holds w L) (H' : Holds w M) : L = M := by
  funext n
  by_cases hn : n < w.slotSize
  · exact (H.list n hn).unique (H'.list n hn)
  · rw [H.empty n (Nat.not_lt.mp hn), H'.empty n (Nat.not_lt.mp hn)]

/-- A list has no more items than there are. -/
theorem Holds.length_le (H : Holds w L) (n : ℕ) : (L n).length ≤ w.items := by
  have hcard : (L n).toFinset ⊆ Finset.range w.items := fun x hx =>
    Finset.mem_range.mpr (H.known n x (List.mem_toFinset.mp hx))
  have := Finset.card_le_card hcard
  rwa [List.toFinset_card_of_nodup (H.nodup n), Finset.card_range] at this

/-- A wheel whose slots are empty. -/
theorem holds_empty (hslot : ∀ n < w.slotSize, w.slot n = none) (hpre : ∀ x, (w.item x).pre = none)
    (hnext : ∀ x, (w.item x).next = none) : Holds w fun _ => [] :=
  ⟨hslot, fun _ _ => rfl, by simp, by simp, fun x _ => hpre x, fun x _ => hnext x, by simp⟩

/-! ## Registering -/

/-- The lists with an item put in front of one of them, if there is a slot for it. -/
def putIn (L : ℕ → List ℕ) (s : Option ℕ) (x : ℕ) : ℕ → List ℕ :=
  match s with
  | none => L
  | some n => Function.update L n (x :: L n)

theorem mem_putIn : y ∈ putIn L (some n) x m ↔ m = n ∧ y = x ∨ y ∈ L m := by
  unfold putIn
  by_cases hm : m = n
  · subst hm
    simp
  · simp [hm]

/-- `Add` puts an item that is in no list in front of the list of the slot. -/
theorem Holds.add (H : Holds w L) (hx : ∀ m, x ∉ L m) (hknown : x < w.items)
    (hn : n < w.slotSize) : Holds (w.add n x) (putIn L (some n) x) := by
  have hhead : w.slot n ≠ some x := fun h => hx n (H.first hn h)
  obtain ⟨hslot, hself, hfirst, hother⟩ := add_eq hhead (H.pre x hx)
  have hne : ∀ m, ∀ y ∈ L m, y ≠ x := fun m y hy h => hx m (h ▸ hy)
  -- the other items keep their slots and what comes after them
  have hkeep : ∀ y, y ≠ x → ((w.add n x).item y).slot = (w.item y).slot ∧
      ((w.add n x).item y).next = (w.item y).next := by
    intro y hy
    by_cases hyn : w.slot n = some y
    · rw [hfirst y hyn]
      exact ⟨rfl, rfl⟩
    · rw [hother y hy hyn]
      exact ⟨rfl, rfl⟩
  have hidle : ∀ y, (∀ m, y ∉ putIn L (some n) x m) → (w.add n x).item y = w.item y ∧
      ∀ m, y ∉ L m := by
    intro y hy
    have hy' : ∀ m, y ∉ L m := fun m h => hy m (mem_putIn.mpr (.inr h))
    exact ⟨hother y (fun h => hy n (mem_putIn.mpr (.inl ⟨rfl, h⟩))) fun h => hy' n (H.first hn h), hy'⟩
  refine ⟨fun m hm => ?_, fun m hm => ?_, fun m y hy => ?_, fun m m' y hy hy' => ?_, fun y hy => ?_,
    fun y hy => ?_, fun m y hy => ?_⟩
  · rw [add_slotSize] at hm
    have hl := H.list m hm
    by_cases hmn : m = n
    · subst hmn
      rw [hslot, putIn, Function.update_self, Function.update_self]
      refine hl.push ?_ ?_ (fun y hy => ?_) (fun y hy hyh => ?_) fun y hy => (hkeep y (hne m y hy)).2
      · rw [preOf, hself]
      · rw [nextOf, hself]
      · rw [preOf, hfirst y hy]
      · rw [preOf, hother y (hne m y hy) hyh]
        rfl
    · rw [hslot, putIn, Function.update_of_ne hmn, Function.update_of_ne hmn]
      refine hl.congr (fun y hy => ?_) fun y hy => (hkeep y (hne m y hy)).2
      rw [preOf, hother y (hne m y hy) fun h => hmn (H.apart m n y hy (H.first hn h))]
      rfl
  · rw [add_slotSize] at hm
    rw [putIn, Function.update_of_ne (by omega)]
    exact H.empty m hm
  · rcases mem_putIn.mp hy with ⟨rfl, rfl⟩ | hy
    · rw [hself]
    · rw [(hkeep y (hne m y hy)).1]
      exact H.slot m y hy
  · rcases mem_putIn.mp hy with ⟨hmn, hyx⟩ | hold <;>
      rcases mem_putIn.mp hy' with ⟨hmn', hyx'⟩ | hold'
    · exact hmn.trans hmn'.symm
    · exact absurd (hyx ▸ hold') (hx m')
    · exact absurd (hyx' ▸ hold) (hx m)
    · exact H.apart m m' y hold hold'
  · rw [(hidle y hy).1]
    exact H.pre y (hidle y hy).2
  · rw [(hidle y hy).1]
    exact H.next y (hidle y hy).2
  · rw [add_items]
    rcases mem_putIn.mp hy with ⟨-, rfl⟩ | hy
    · exact hknown
    · exact H.known m y hy

/-- **`RegisterTimer`** of an item that is in no list. -/
theorem Holds.register (H : Holds w L) (now timeout : ℕ) (hx : ∀ m, x ∉ L m) (hknown : x < w.items) :
    Holds (w.registerTimer x now timeout).1 (putIn L (w.registerSlot now timeout) x) := by
  unfold registerTimer
  cases hslot : w.registerSlot now timeout with
  | none => exact H
  | some n => exact H.add hx hknown (registerSlot_lt hslot).1

/-! ## Unregistering -/

/-- The lists with an item taken out of the list of a slot. -/
def takeOut (L : ℕ → List ℕ) (n x : ℕ) : ℕ → List ℕ := Function.update L n ((L n).erase x)

theorem Holds.mem_takeOut (H : Holds w L) (hx : x ∈ L n) : y ∈ takeOut L n x m ↔ y ∈ L m ∧ y ≠ x := by
  unfold takeOut
  by_cases hm : m = n
  · subst hm
    rw [Function.update_self, (H.nodup m).mem_erase_iff, and_comm]
  · rw [Function.update_of_ne hm]
    refine (and_iff_left_of_imp fun hy => ?_).symm
    rintro rfl
    exact hm (H.apart m n y hy hx)

/-- The neighbours of an item are in its list. -/
theorem Holds.near (H : Holds w L) (hx : x ∈ L n)
    (hy : (w.item x).pre = some y ∨ (w.item x).next = some y) : y ∈ L n := by
  have hl := H.list n (H.lt hx)
  obtain ⟨a, b, hab⟩ := List.append_of_mem hx
  rw [hab] at hl ⊢
  rcases hy with hy | hy
  · by_cases ha : a = []
    · subst ha
      exact absurd (hy.symm.trans hl.2.1) (Option.some_ne_none y)
    · obtain ⟨z, hz, hxz⟩ := hl.pre_mem ha
      obtain rfl := Option.some.inj (hy.symm.trans hxz)
      exact List.mem_append_left _ hz
  · have hrest := hl.drop.2.2
    cases b with
    | nil => exact absurd (hy.symm.trans hrest) (Option.some_ne_none y)
    | cons z b =>
      obtain rfl := Option.some.inj (hy.symm.trans hrest.1)
      simp

/-- **`UnRegisterTimer`** of an item in a slot whose number an item's `slot` can say. -/
theorem Holds.unregister (H : Holds w L) (hx : x ∈ L n) (hsmall : n < 0x80000000) :
    Holds (w.unRegisterTimer x) (takeOut L n x) := by
  have hn := H.lt hx
  have hslot : (w.item x).slot = n := by
    rw [H.slot n x hx, int32, if_pos hsmall]
  have hself := unRegisterTimer_self hslot hn
  have hother := fun z (hz : z ≠ x) => unRegisterTimer_other hslot hn hz
  have hslots := unRegisterTimer_slot hslot hn
  have hl := H.list n hn
  have hnodup := H.nodup n
  obtain ⟨a, b, hab⟩ := List.append_of_mem hx
  rw [hab] at hl hnodup
  have hxa : x ∉ a := fun h => (List.nodup_middle.mp hnodup |> List.nodup_cons.mp).1
    (List.mem_append_left _ h)
  have herase : takeOut L n x n = a ++ b := by
    rw [takeOut, Function.update_self, hab, List.erase_append_right _ hxa, List.erase_cons_head]
  have hne : ∀ z ∈ a ++ b, z ≠ x := by
    rintro z hz rfl
    rw [List.nodup_middle, List.nodup_cons] at hnodup
    exact hnodup.1 hz
  -- an item outside of the list keeps its pointers
  have hfar : ∀ z ∉ L n, (w.unRegisterTimer x).preOf z = w.preOf z ∧
      (w.unRegisterTimer x).nextOf z = w.nextOf z := by
    intro z hz
    have hzx : z ≠ x := by
      rintro rfl
      exact hz hx
    obtain ⟨-, -, hnext, -, hpre⟩ := hother z hzx
    exact ⟨hpre fun h => hz (H.near hx (.inr h)), hnext fun h => hz (H.near hx (.inl h))⟩
  have hidle : ∀ z, (∀ m, z ∉ takeOut L n x m) → z = x ∨ z ≠ x ∧ ∀ m, z ∉ L m := by
    intro z hz
    by_cases hzx : z = x
    · exact .inl hzx
    · exact .inr ⟨hzx, fun m h => hz m ((H.mem_takeOut hx).mpr ⟨h, hzx⟩)⟩
  refine ⟨fun m hm => ?_, fun m hm => ?_, fun m z hz => ?_, fun m m' z hz hz' => ?_, fun z hz => ?_,
    fun z hz => ?_, fun m z hz => ?_⟩
  · rw [unRegisterTimer_slotSize] at hm
    by_cases hmn : m = n
    · subst hmn
      rw [herase]
      refine hl.unlink (fun z hz => by cases hz) (fun z hz => ?_) (fun z hz => ?_)
        (fun z hz hzp => (hother z (hne z hz)).2.2.1 hzp)
        (fun z hz hzn => (hother z (hne z hz)).2.2.2.2 hzn) (fun ha => ?_) fun ha => ?_
      · exact (hother z (hl.ne_pre hz)).2.1 hz
      · exact (hother z (hl.ne_next hz)).2.2.2.1 hz
      · subst ha
        rw [hslots, if_pos (show (w.item x).pre = none from hl.2.1), Function.update_self]
        rfl
      · obtain ⟨y, -, hy⟩ := hl.pre_mem ha
        rw [hslots, if_neg (by rw [show (w.item x).pre = _ from hy]; exact Option.some_ne_none y)]
    · have hdisj : ∀ z ∈ L m, z ∉ L n := fun z hz hz' => hmn (H.apart m n z hz hz')
      have hsame : (w.unRegisterTimer x).slot m = w.slot m := by
        rw [hslots]
        split
        · exact Function.update_of_ne hmn _ _
        · rfl
      rw [takeOut, Function.update_of_ne hmn, hsame]
      exact (H.list m hm).congr (fun z hz => (hfar z (hdisj z hz)).1)
        fun z hz => (hfar z (hdisj z hz)).2
  · rw [unRegisterTimer_slotSize] at hm
    rw [takeOut, Function.update_of_ne (by omega)]
    exact H.empty m hm
  · obtain ⟨hz, hzx⟩ := (H.mem_takeOut hx).mp hz
    rw [(hother z hzx).1]
    exact H.slot m z hz
  · exact H.apart m m' z ((H.mem_takeOut hx).mp hz).1 ((H.mem_takeOut hx).mp hz').1
  · rcases hidle z hz with rfl | ⟨-, hz⟩
    · rw [hself]
    · exact (hfar z (hz n)).1.trans (H.pre z hz)
  · rcases hidle z hz with rfl | ⟨-, hz⟩
    · rw [hself]
    · exact (hfar z (hz n)).2.trans (H.next z hz)
  · rw [unRegisterTimer_items]
    exact H.known m z ((H.mem_takeOut hx).mp hz).1

/-- An item in a slot whose number an item's `slot` cannot say is not unregistered. -/
theorem Holds.unregister_high (H : Holds w L) (hx : x ∈ L n) (hlarge : 0x80000000 ≤ n)
    (hword : n < 0x100000000) : w.unRegisterTimer x = w := by
  have hslot : (w.item x).slot < 0 := by
    rw [H.slot n x hx, int32, if_neg (Nat.not_lt.mpr hlarge)]
    omega
  unfold unRegisterTimer
  rw [if_pos (.inl hslot)]

/-! ## Inside `Active` -/

theorem fire_item_of_notMem (hx : x ∉ l) : (w.fire l).item x = w.item x := if_neg hx

theorem fire_nil : w.fire [] = w := by simp [fire]

theorem setItem_fire {i : WheelItem} (hx : x ∉ l) :
    (w.setItem x i).fire l = (w.fire l).setItem x i := by
  simp only [fire, setItem, TimingWheel.mk.injEq, true_and]
  funext z
  by_cases hz : z = x
  · subst hz
    simp [hx]
  · simp [hz]

theorem setSlot_fire {h : Option ℕ} : (w.setSlot n h).fire l = (w.fire l).setSlot n h := rfl

theorem setPre_fire {h : Option ℕ} (hx : x ∉ l) : (w.setPre x h).fire l = (w.fire l).setPre x h := by
  rw [setPre, setItem_fire hx, setPre, fire_item_of_notMem hx]

theorem setNext_fire {h : Option ℕ} (hx : x ∉ l) :
    (w.setNext x h).fire l = (w.fire l).setNext x h := by
  rw [setNext, setItem_fire hx, setNext, fire_item_of_notMem hx]

/-- Items that are elsewhere do not matter to `Add`. -/
theorem add_fire (hx : x ∉ l) (hhead : ∀ y, w.slot n = some y → y ∉ l) :
    (w.add n x).fire l = (w.fire l).add n x := by
  have hlast : ∀ u : TimingWheel, (u.setItem x { u.item x with slot := int32 n }).fire l =
      (u.fire l).setItem x { (u.fire l).item x with slot := int32 n } := by
    intro u
    rw [setItem_fire hx, fire_item_of_notMem hx]
  have hslot : (w.fire l).slot = w.slot := rfl
  unfold add
  dsimp only
  rw [hlast, setSlot_fire, hslot]
  cases hy : w.slot n with
  | none =>
    dsimp only
    rw [setPre_fire hx, setNext_fire hx]
  | some y =>
    dsimp only
    rw [setNext_fire hx, setPre_fire (hhead y hy)]

theorem registerTimer_fire (hx : x ∉ l)
    (hhead : ∀ n < w.slotSize, ∀ y, w.slot n = some y → y ∉ l) :
    (w.registerTimer x now timeout).1.fire l = ((w.fire l).registerTimer x now timeout).1 := by
  have hsame : (w.fire l).registerSlot now timeout = w.registerSlot now timeout := rfl
  unfold registerTimer
  rw [hsame]
  cases hslot : w.registerSlot now timeout with
  | none => rfl
  | some n => exact add_fire hx (hhead n (registerSlot_lt hslot).1)

/-- Items that are elsewhere do not matter to `UnRegisterTimer`. -/
theorem unRegisterTimer_fire (hx : x ∉ l) (hpre : ∀ y, (w.item x).pre = some y → y ∉ l)
    (hnext : ∀ y, (w.item x).next = some y → y ∉ l) :
    (w.unRegisterTimer x).fire l = (w.fire l).unRegisterTimer x := by
  have hitem : (w.fire l).item x = w.item x := fire_item_of_notMem hx
  have hsize : (w.fire l).slotSize = w.slotSize := rfl
  have hlast : ∀ u : TimingWheel, (u.setItem x ⟨none, none, (u.item x).callback, -1⟩).fire l =
      (u.fire l).setItem x ⟨none, none, ((u.fire l).item x).callback, -1⟩ := by
    intro u
    rw [setItem_fire hx, fire_item_of_notMem hx]
  unfold unRegisterTimer
  dsimp only
  rw [hitem, hsize]
  split
  · rfl
  · cases hp : (w.item x).pre with
    | none =>
      cases hn : (w.item x).next with
      | none => exact hlast _
      | some m =>
        dsimp only
        rw [hlast, setPre_fire (hnext m hn), setSlot_fire]
    | some q =>
      cases hn : (w.item x).next with
      | none =>
        dsimp only
        rw [hlast, setNext_fire (hpre q hp)]
      | some m =>
        dsimp only
        rw [hlast, setPre_fire (hnext m hn), setNext_fire (hpre q hp)]

/-- The wheel inside `Active`, called for the slot `n`: the items `rest` are still to be taken off, and
the first of them still points back to `p`. -/
structure Sweeping (w : TimingWheel) (L : ℕ → List ℕ) (n : ℕ) (p : Option ℕ) (rest : List ℕ) :
    Prop where
  holds : Holds (w.fire rest) L
  seg : Seg w.preOf w.nextOf p rest.head? rest
  prev : ∀ z, p = some z → z ∉ rest
  slot : ∀ x ∈ rest, (w.item x).slot = int32 n
  apart : ∀ x ∈ rest, ∀ m, x ∉ L m
  known : ∀ x ∈ rest, x < w.items

/-- The items of the slot are taken off it. -/
theorem Holds.sweeping (H : Holds w L) (hn : n < w.slotSize) :
    Sweeping (w.setSlot n none) (Function.update L n []) n none (L n) := by
  have hl := H.list n hn
  have hmem : ∀ m x, x ∈ Function.update L n [] m ↔ x ∈ L m ∧ x ∉ L n := by
    intro m x
    by_cases hm : m = n
    · subst hm
      simp
    · rw [Function.update_of_ne hm]
      exact (and_iff_left_of_imp fun hx hx' => hm (H.apart m n x hx hx')).symm
  have hout : ∀ x ∉ L n, ((w.setSlot n none).fire (L n)).item x = w.item x :=
    fun x hx => fire_item_of_notMem hx
  have hidle : ∀ P : WheelItem → Prop, (∀ b, P ⟨none, none, b, 0⟩) →
      (∀ x, (∀ m, x ∉ L m) → P (w.item x)) → ∀ x, (∀ m, x ∉ Function.update L n [] m) →
      P (((w.setSlot n none).fire (L n)).item x) := by
    intro P hP hP' x hx
    by_cases hxn : x ∈ L n
    · rw [show ((w.setSlot n none).fire (L n)).item x = _ from if_pos hxn]
      exact hP _
    · rw [hout x hxn]
      exact hP' x fun m hm => hx m ((hmem m x).mpr ⟨hm, hxn⟩)
  refine ⟨⟨fun m hm => ?_, fun m hm => ?_, fun m x hx => ?_, fun m m' x hx hx' => ?_,
    hidle (fun i => i.pre = none) (fun _ => rfl) H.pre,
    hidle (fun i => i.next = none) (fun _ => rfl) H.next, fun m x hx => ?_⟩, ?_, by simp, H.slot n,
    fun x hx m hm => ((hmem m x).mp hm).2 hx, H.known n⟩
  · by_cases hmn : m = n
    · subst hmn
      rw [Function.update_self]
      exact Function.update_self ..
    · have hsame : ((w.setSlot n none).fire (L n)).slot m = w.slot m := Function.update_of_ne hmn ..
      have hfar : ∀ x ∈ L m, x ∉ L n := fun x hx hx' => hmn (H.apart m n x hx hx')
      rw [Function.update_of_ne hmn, hsame]
      refine (H.list m hm).congr (fun x hx => ?_) fun x hx => ?_
      · rw [preOf, hout x (hfar x hx)]
        rfl
      · rw [nextOf, hout x (hfar x hx)]
        rfl
  · by_cases hmn : m = n
    · rw [hmn, Function.update_self]
    · rw [Function.update_of_ne hmn]
      exact H.empty m hm
  · obtain ⟨hx, hxn⟩ := (hmem m x).mp hx
    rw [hout x hxn]
    exact H.slot m x hx
  · exact H.apart m m' x ((hmem m x).mp hx).1 ((hmem m' x).mp hx').1
  · exact H.known m x ((hmem m x).mp hx).1
  · rw [← H.head hn]
    exact hl

/-- No item is left to be taken off. -/
theorem Sweeping.done (S : Sweeping w L n p []) : Holds w L := by
  have H := S.holds
  rwa [fire_nil] at H

/-- The first item is taken off. -/
theorem Sweeping.takeOff (S : Sweeping w L n p (x :: rest)) :
    Sweeping (w.takeOff x) L n (some x) rest := by
  have hx := (List.nodup_cons.mp S.seg.nodup).1
  have hother : ∀ z ∈ rest, (w.takeOff x).item z = w.item z :=
    fun z hz => Function.update_of_ne (by rintro rfl; exact hx hz) ..
  have hfire : (w.takeOff x).fire rest = w.fire (x :: rest) := by
    simp only [fire, TimingWheel.takeOff, setItem, TimingWheel.mk.injEq, true_and]
    funext z
    by_cases hzx : z = x
    · subst hzx
      simp [hx]
    · simp [hzx]
  have hnext : w.nextOf x = rest.head? := by
    cases rest with
    | nil => exact S.seg.2.2
    | cons y l => exact S.seg.2.2.1
  have hseg := S.seg.2.2
  rw [hnext] at hseg
  refine ⟨hfire ▸ S.holds, ?_, fun z hz => ?_, fun z hz => ?_, fun z hz => S.apart z (List.mem_cons_of_mem x hz),
    fun z hz => S.known z (List.mem_cons_of_mem x hz)⟩
  · refine hseg.congr (fun z hz => ?_) fun z hz => ?_
    · rw [preOf, hother z hz]
      rfl
    · rw [nextOf, hother z hz]
      rfl
  · obtain rfl := Option.some.inj hz
    exact hx
  · rw [hother z hz]
    exact S.slot z (List.mem_cons_of_mem x hz)

theorem Sweeping.head_next (S : Sweeping w L n p (x :: rest)) : (w.item x).next = rest.head? := by
  cases rest with
  | nil => exact S.seg.2.2
  | cons y l => exact S.seg.2.2.1

/-- The wheel inside `Active` after writes that leave the items alone that are still to be taken
off. -/
theorem Sweeping.of_eq {w' : TimingWheel} {L' : ℕ → List ℕ} (S : Sweeping w L n p rest)
    (holds : Holds (w'.fire rest) L') (hitem : ∀ x ∈ rest, w'.item x = w.item x)
    (hitems : w'.items = w.items) (hapart : ∀ x ∈ rest, ∀ m, x ∉ L' m) :
    Sweeping w' L' n p rest := by
  refine ⟨holds, S.seg.congr (fun x hx => ?_) fun x hx => ?_, S.prev, fun x hx => ?_, hapart, fun x hx => ?_⟩
  · rw [preOf, hitem x hx]
    rfl
  · rw [nextOf, hitem x hx]
    rfl
  · rw [hitem x hx]
    exact S.slot x hx
  · rw [hitems]
    exact S.known x hx

theorem Sweeping.head_notMem (S : Sweeping w L n p rest) (hm : m < w.slotSize)
    (hy : w.slot m = some y) : y ∉ rest :=
  fun h => S.apart y h m (S.holds.first hm hy)

/-- **`RegisterTimer`** called by a callback, for an item that is in no list. -/
theorem Sweeping.register (S : Sweeping w L n p rest) (now timeout : ℕ) (hy : ∀ m, y ∉ L m)
    (hrest : y ∉ rest) (hknown : y < w.items) : Sweeping (w.registerTimer y now timeout).1
      (putIn L (w.registerSlot now timeout) y) n p rest := by
  refine S.of_eq ?_ (fun x hx => ?_) registerTimer_alike.items fun x hx m hm => ?_
  · rw [registerTimer_fire hrest fun m hm z hz => S.head_notMem hm hz]
    exact S.holds.register now timeout hy hknown
  · have hpre := S.holds.pre y hy
    rw [fire_item_of_notMem hrest] at hpre
    have hne : x ≠ y := by
      rintro rfl
      exact hrest hx
    unfold registerTimer
    cases hslot : w.registerSlot now timeout with
    | none => rfl
    | some k =>
      have hk := (registerSlot_lt hslot).1
      refine (add_eq (w := w) (fun h => hy k (S.holds.first hk h)) hpre).2.2.2 x hne fun h => ?_
      exact S.head_notMem hk h hx
  · cases hslot : w.registerSlot now timeout with
    | none =>
      rw [hslot] at hm
      exact S.apart x hx m hm
    | some k =>
      rw [hslot] at hm
      rcases mem_putIn.mp hm with ⟨-, rfl⟩ | hm
      · exact hrest hx
      · exact S.apart x hx m hm

/-- The writes of `UnRegisterTimer` leave an item alone that is not a neighbour. -/
theorem unRegisterTimer_far {z : ℕ} (hslot : (w.item x).slot = n) (hn : n < w.slotSize) (hz : z ≠ x)
    (hpre : (w.item x).pre ≠ some z) (hnext : (w.item x).next ≠ some z) :
    (w.unRegisterTimer x).item z = w.item z := by
  obtain ⟨hs, -, hnx, -, hpr⟩ := unRegisterTimer_other hslot hn hz
  have hcallback := (unRegisterTimer_alike : Alike w (w.unRegisterTimer x)).callback z
  cases hi : (w.unRegisterTimer x).item z with
  | mk a b c d =>
    simp only [hi] at hs hnx hpr hcallback
    rw [hs, hnx hpre, hpr hnext, hcallback]

/-- **`UnRegisterTimer`** called by a callback, for an item in the list of a slot. -/
theorem Sweeping.unregister (S : Sweeping w L n p rest) (hy : y ∈ L m) (hsmall : m < 0x80000000) :
    Sweeping (w.unRegisterTimer y) (takeOut L m y) n p rest := by
  have hrest : y ∉ rest := fun h => S.apart y h m hy
  have hitem : (w.fire rest).item y = w.item y := fire_item_of_notMem hrest
  have hnear : ∀ z, (w.item y).pre = some z ∨ (w.item y).next = some z → z ∉ rest := by
    intro z hz hz'
    rw [← hitem] at hz
    exact S.apart z hz' m (S.holds.near hy hz)
  have hslot : (w.item y).slot = m := by
    rw [← hitem, S.holds.slot m y hy, int32, if_pos hsmall]
  refine S.of_eq ?_ (fun x hx => ?_) unRegisterTimer_alike.items fun x hx k hk => ?_
  · rw [unRegisterTimer_fire hrest (fun z hz => hnear z (.inl hz)) fun z hz => hnear z (.inr hz)]
    exact S.holds.unregister hy hsmall
  · refine unRegisterTimer_far hslot (S.holds.lt hy) ?_ (fun h => hnear x (.inl h) hx)
      fun h => hnear x (.inr h) hx
    rintro rfl
    exact hrest hx
  · exact S.apart x hx k ((S.holds.mem_takeOut hy).mp hk).1

/-- An item in a slot whose number an item's `slot` cannot say is not unregistered. -/
theorem Sweeping.unregister_high (S : Sweeping w L n p rest)
    (hy : y ∈ L m ∧ 0x80000000 ≤ m ∧ m < 0x100000000 ∨
      y ∈ rest ∧ 0x80000000 ≤ n ∧ n < 0x100000000) : w.unRegisterTimer y = w := by
  have hslot : (w.item y).slot < 0 := by
    rcases hy with ⟨hy, hlarge, hword⟩ | ⟨hy, hlarge, hword⟩
    · rw [← fire_item_of_notMem fun h => S.apart y h m hy, S.holds.slot m y hy, int32,
        if_neg (Nat.not_lt.mpr hlarge)]
      omega
    · rw [S.slot y hy, int32, if_neg (Nat.not_lt.mpr hlarge)]
      omega
  unfold unRegisterTimer
  rw [if_pos (.inl hslot)]

theorem Holds.congr {w' : TimingWheel} (H : Holds w L) (hsize : w'.slotSize = w.slotSize)
    (hslot : w'.slot = w.slot) (hitems : w'.items = w.items) (hitem : w'.item = w.item) :
    Holds w' L := by
  obtain ⟨precision, slotSize, lastUpdate, current, slot, items, item⟩ := w
  obtain ⟨precision', slotSize', lastUpdate', current', slot', items', item'⟩ := w'
  obtain rfl : slotSize' = slotSize := hsize
  obtain rfl : slot' = slot := hslot
  obtain rfl : items' = items := hitems
  obtain rfl : item' = item := hitem
  exact ⟨H.list, H.empty, H.slot, H.apart, H.pre, H.next, H.known⟩

/-- An item that is in no list may have any `slot`. -/
theorem Holds.setItem (H : Holds w L) (hx : ∀ m, x ∉ L m) {i : WheelItem} (hpre : i.pre = none)
    (hnext : i.next = none) : Holds (w.setItem x i) L := by
  have hother : ∀ z, z ≠ x → (w.setItem x i).item z = w.item z :=
    fun z hz => Function.update_of_ne hz ..
  have hne : ∀ m, ∀ z ∈ L m, z ≠ x := fun m z hz h => hx m (h ▸ hz)
  refine ⟨fun m hm => (H.list m hm).congr (fun z hz => ?_) fun z hz => ?_, H.empty, fun m z hz => ?_,
    H.apart, fun z hz => ?_, fun z hz => ?_, H.known⟩
  · rw [preOf, hother z (hne m z hz)]
    rfl
  · rw [nextOf, hother z (hne m z hz)]
    rfl
  · rw [hother z (hne m z hz)]
    exact H.slot m z hz
  · by_cases hzx : z = x
    · rw [hzx, show (w.setItem x i).item x = i from Function.update_self .., hpre]
    · rw [hother z hzx]
      exact H.pre z hz
  · by_cases hzx : z = x
    · rw [hzx, show (w.setItem x i).item x = i from Function.update_self .., hnext]
    · rw [hother z hzx]
      exact H.next z hz

/-- **`UnRegisterTimer`** called by a callback, for an item that is still to be taken off and is not
the next one. -/
theorem Sweeping.unregister_rest (S : Sweeping w L n p (x :: rest)) (hy : y ∈ rest)
    (hn : n < w.slotSize) (hsmall : n < 0x80000000) :
    Sweeping (w.unRegisterTimer y) L n p (x :: rest.erase y) := by
  have hslot : (w.item y).slot = n := by
    rw [S.slot y (List.mem_cons_of_mem x hy), int32, if_pos hsmall]
  have hself := unRegisterTimer_self hslot hn
  have hother := fun z (hz : z ≠ y) => unRegisterTimer_other hslot hn hz
  have hslots := unRegisterTimer_slot hslot hn
  have hseg := S.seg
  have hnodup := S.seg.nodup
  obtain ⟨a, b, rfl⟩ := List.append_of_mem hy
  rw [← List.cons_append] at hseg hnodup
  have hne : ∀ z ∈ (x :: a) ++ b, z ≠ y := by
    rintro z hz rfl
    rw [List.nodup_middle, List.nodup_cons] at hnodup
    exact hnodup.1 hz
  have hya : y ∉ a := fun h => hne y (by simp [h]) rfl
  rw [List.erase_append_right _ hya, List.erase_cons_head]
  -- the item before it is still to be taken off too, so no slot is written
  obtain ⟨q, hq, hyq⟩ := hseg.pre_mem (List.cons_ne_nil x a)
  have hkeep : (w.unRegisterTimer y).slot = w.slot := by
    rw [hslots, if_neg (by rw [show (w.item y).pre = _ from hyq]; exact Option.some_ne_none q)]
  have hnextmem : ∀ z, (w.item y).next = some z → z ∈ b := by
    intro z hz
    have hrest := hseg.drop.2.2
    cases b with
    | nil => exact absurd (hz.symm.trans hrest) (Option.some_ne_none z)
    | cons c b =>
      obtain rfl := Option.some.inj (hz.symm.trans hrest.1)
      exact List.mem_cons_self
  have hfar : ∀ z ∉ (x :: a) ++ b, z ≠ y → (w.unRegisterTimer y).item z = w.item z := by
    intro z hz hzy
    refine unRegisterTimer_far hslot hn hzy (fun h => ?_) fun h => ?_
    · obtain rfl := Option.some.inj (h.symm.trans hyq)
      exact hz (List.mem_append_left _ hq)
    · exact hz (List.mem_append_right _ (hnextmem z h))
  have hcallback : ∀ z, ((w.unRegisterTimer y).item z).callback = (w.item z).callback :=
    unRegisterTimer_alike.callback
  have hmem : ∀ z, z ∈ x :: (a ++ y :: b) ↔ z ∈ (x :: a) ++ b ∨ z = y := by
    intro z
    simp only [List.cons_append, List.mem_cons, List.mem_append]
    tauto
  refine ⟨?_, ?_, fun z hz hz' => S.prev z hz ((hmem z).mpr (.inl hz')), fun z hz => ?_,
    fun z hz => S.apart z ((hmem z).mpr (.inl hz)), fun z hz => ?_⟩
  · have hlists : ∀ m, y ∉ L m := S.apart y ((hmem y).mpr (.inr rfl))
    have H := S.holds.setItem (i := ⟨none, none, (w.item y).callback, -1⟩) hlists rfl rfl
    refine H.congr unRegisterTimer_alike.slotSize hkeep unRegisterTimer_alike.items ?_
    funext z
    change (if z ∈ (x :: a) ++ b then _ else (w.unRegisterTimer y).item z) =
      Function.update (w.fire (x :: (a ++ y :: b))).item y _ z
    by_cases hz : z ∈ (x :: a) ++ b
    · rw [if_pos hz, Function.update_of_ne (hne z hz), hcallback]
      exact (if_pos ((hmem z).mpr (.inl hz))).symm
    · rw [if_neg hz]
      by_cases hzy : z = y
      · rw [hzy, Function.update_self, hself]
      · rw [Function.update_of_ne hzy, hfar z hz hzy]
        exact (fire_item_of_notMem fun h => ((hmem z).mp h).elim hz hzy).symm
  · have hunlink : Seg (w.unRegisterTimer y).preOf (w.unRegisterTimer y).nextOf p (some x)
        ((x :: a) ++ b) := by
      refine hseg.unlink (fun z hz hz' => S.prev z hz (by simpa using hz')) (fun z hz => ?_)
        (fun z hz => ?_) (fun z hz hzp => (hother z (hne z hz)).2.2.1 hzp)
        (fun z hz hzn => (hother z (hne z hz)).2.2.2.2 hzn)
        (fun h => absurd h (List.cons_ne_nil x a)) fun _ => rfl
      · obtain rfl := Option.some.inj (hz.symm.trans hyq)
        exact (hother z (hne z (List.mem_append_left _ hq))).2.1 hz
      · exact (hother z (hne z (List.mem_append_right _ (hnextmem z hz)))).2.2.2.1 hz
    exact hunlink
  · rw [(hother z (hne z hz)).1]
    exact S.slot z ((hmem z).mpr (.inl hz))
  · rw [unRegisterTimer_alike.items]
    exact S.known z ((hmem z).mpr (.inl hz))

end Kendylib.TimingWheel
