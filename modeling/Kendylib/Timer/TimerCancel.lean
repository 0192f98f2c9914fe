import Kendylib.Timer.TimerSlots

/-!
# Callbacks that unregister items

The callbacks of a call of `UpdateWheel` unregister items that are registered at the time. In what
order the items fire then, and what is gone when each of them does, follows from the lists of the
slots alone (`turns`).

* `Active` holds a pointer to the next item while a callback runs. If the callback unregisters that
  item, it fires nevertheless, and the items after it are lost.
* An item in a slot whose number its `slot` cannot say is not unregistered at all.

Cancelling is safe exactly if no callback unregisters the item that follows its own in the list, nor
an item still to fire of the second kind (`cancelSafe_iff`).
-/

namespace Kendylib.TimingWheel

variable {w w' : TimingWheel} {L : ℕ → List ℕ} {x y n now i : ℕ} {cancels c e : ℕ → List ℕ}
  {gone : Finset ℕ} {queue : List (ℕ × ℕ)}

/-! ## The order of the callbacks -/

/-- The callbacks that unregister these items. -/
def cancelActs (cancels : ℕ → List ℕ) (x : ℕ) : List Act := (cancels x).map .unregister

/-- The items that are unregistered when the item fires. -/
def requests (w : TimingWheel) (cancels : ℕ → List ℕ) (x : ℕ) : List ℕ :=
  if (w.item x).callback then cancels x else []

/-- Those of them whose `slot` is the number of their slot. -/
def effective (w : TimingWheel) (cancels : ℕ → List ℕ) (x : ℕ) : List ℕ :=
  (w.requests cancels x).filter fun y => 0 ≤ (w.item y).slot

/-- An item firing: what has fired or been taken out before it, the round of the call and the item,
and the items of this round and the later ones that come after it. -/
structure Turn where
  gone : Finset ℕ
  round : ℕ
  item : ℕ
  queue : List (ℕ × ℕ)
  deriving DecidableEq

/-- The items of the queue that fire, if each takes out the items `e`. -/
def turns (e : ℕ → List ℕ) : Finset ℕ → List (ℕ × ℕ) → List Turn
  | _, [] => []
  | gone, (i, x) :: queue =>
    if x ∈ gone then turns e gone queue
    else ⟨gone, i, x, queue⟩ :: turns e (gone ∪ insert x (e x).toFinset) queue

/-- The item that follows in the list. -/
def Turn.next (t : Turn) : Option ℕ :=
  (t.queue.find? fun q => q.1 = t.round ∧ q.2 ∉ t.gone).map Prod.snd

/-- The items of a series of rounds, with the numbers of the rounds. -/
def queued (w : TimingWheel) (L : ℕ → List ℕ) (i rounds : ℕ) : List (ℕ × ℕ) :=
  (List.range' i rounds).flatMap fun i => (L (w.roundSlot i)).map (Prod.mk i)

/-- The items that fire in a call of `UpdateWheel`. -/
def updateTurns (w : TimingWheel) (L : ℕ → List ℕ) (now : ℕ) (cancels : ℕ → List ℕ) : List Turn :=
  turns (w.effective cancels) ∅ (w.queued L 0 (w.rounds now))

/-! ## What is asked of the callbacks -/

/-- The callback unregisters registered items other than its own. -/
def MayUnregister (w : TimingWheel) (L : ℕ → List ℕ) (cancels : ℕ → List ℕ) (t : Turn) : Prop :=
  (w.requests cancels t.item).Nodup ∧
    ∀ y ∈ w.requests cancels t.item, y ≠ t.item ∧ y ∉ t.gone ∧ ∃ n, y ∈ L n

/-- The callback takes the item out that follows its own in the list. -/
def Loses (w : TimingWheel) (cancels : ℕ → List ℕ) (t : Turn) : Prop :=
  ∃ y ∈ w.requests cancels t.item, t.next = some y ∧ 0 ≤ (w.item y).slot

/-- The callbacks unregister registered items other than their own, as long as the list is not
lost. -/
def AllowedUntil (w : TimingWheel) (L : ℕ → List ℕ) (cancels : ℕ → List ℕ) : List Turn → Prop
  | [] => True
  | t :: ts => MayUnregister w L cancels t ∧ (Loses w cancels t ∨ AllowedUntil w L cancels ts)

/-- The callback does not unregister the item that follows its own in the list, nor one still to fire
whose `slot` is negative. -/
def Spares (w : TimingWheel) (cancels : ℕ → List ℕ) (t : Turn) : Prop :=
  ∀ y ∈ w.requests cancels t.item, t.next ≠ some y ∧
    ((w.item y).slot < 0 → y ∉ t.queue.map Prod.snd)

/-- The item is unregistered before its own callback has run. -/
def Unregistered (c : ℕ → List ℕ) (x : ℕ) : List ℕ → Prop
  | [] => False
  | z :: l => z ≠ x ∧ (x ∈ c z ∨ Unregistered c x l)

/-- The call returns, no item is fired that has been unregistered before, and every other item of a
covered slot is fired once. -/
def CancelSafe (w : TimingWheel) (L : ℕ → List ℕ) (now : ℕ) (cancels : ℕ → List ℕ) : Prop :=
  ∃ w' fired r, w.updateWheel (callback (cancelActs cancels)) now = .ok (w', fired, r) ∧
    (∀ x, Unregistered (w.requests cancels) x fired → x ∉ fired) ∧
    ∀ n ∈ w.covered now, ∀ x ∈ L n, ¬ Unregistered (w.requests cancels) x fired →
      fired.count x = 1

/-! ## What fires -/

theorem turns_item_notMem (hx : x ∈ (turns e gone queue).map Turn.item) : x ∉ gone := by
  induction queue generalizing gone with
  | nil => cases hx
  | cons q queue ih =>
    obtain ⟨i, z⟩ := q
    rw [turns] at hx
    split at hx
    · exact ih hx
    · rename_i hz
      rcases List.mem_cons.mp hx with rfl | hx
      · exact hz
      · exact fun h => ih hx (Finset.mem_union_left _ h)

theorem turns_nodup : ((turns e gone queue).map Turn.item).Nodup := by
  induction queue generalizing gone with
  | nil => exact List.nodup_nil
  | cons q queue ih =>
    obtain ⟨i, z⟩ := q
    rw [turns]
    split
    · exact ih
    · refine List.nodup_cons.mpr ⟨fun h => turns_item_notMem h ?_, ih⟩
      simp

theorem turns_item_mem (hx : x ∈ (turns e gone queue).map Turn.item) : x ∈ queue.map Prod.snd := by
  induction queue generalizing gone with
  | nil => cases hx
  | cons q queue ih =>
    obtain ⟨i, z⟩ := q
    rw [turns] at hx
    split at hx
    · exact List.mem_cons_of_mem _ (ih hx)
    · rcases List.mem_cons.mp hx with rfl | hx
      · exact List.mem_cons_self
      · exact List.mem_cons_of_mem _ (ih hx)

/-- An item of the queue that no callback takes out fires. -/
theorem turns_fires (hx : x ∈ queue.map Prod.snd) (hgone : x ∉ gone) (he : ∀ z, x ∉ e z) :
    x ∈ (turns e gone queue).map Turn.item := by
  induction queue generalizing gone with
  | nil => cases hx
  | cons q queue ih =>
    obtain ⟨i, z⟩ := q
    rw [turns]
    by_cases hz : z ∈ gone
    · rw [if_pos hz]
      rcases List.mem_cons.mp hx with rfl | hx
      · exact absurd hz hgone
      · exact ih hx hgone
    · rw [if_neg hz]
      by_cases hxz : x = z
      · subst hxz
        exact List.mem_cons_self
      · refine List.mem_cons_of_mem _ (ih ((List.mem_cons.mp hx).resolve_left hxz) ?_)
        rw [Finset.mem_union, Finset.mem_insert, List.mem_toFinset, not_or, not_or]
        exact ⟨hgone, hxz, he z⟩

/-- The items that are unregistered do not fire, and the others of the queue do. -/
def FiresRest (c e : ℕ → List ℕ) (gone : Finset ℕ) (queue : List (ℕ × ℕ)) : Prop :=
  ∀ x ∉ gone, (Unregistered c x ((turns e gone queue).map Turn.item) →
      x ∉ (turns e gone queue).map Turn.item) ∧
    (x ∈ queue.map Prod.snd → ¬ Unregistered c x ((turns e gone queue).map Turn.item) →
      x ∈ (turns e gone queue).map Turn.item)

/-- **Where every callback takes out the items `e` of the items `c` that it unregisters**, the
unregistered items do not fire exactly if no callback unregisters an item that it does not take out
and that is still to fire. -/
theorem firesRest_iff {high : ℕ → Prop} (he : ∀ z y, y ∈ e z ↔ y ∈ c z ∧ ¬ high y)
    (hc : ∀ t ∈ turns e gone queue, ∀ y ∈ c t.item, y ≠ t.item ∧ y ∉ t.gone) :
    FiresRest c e gone queue ↔
      ∀ t ∈ turns e gone queue, ∀ y ∈ c t.item, high y → y ∉ t.queue.map Prod.snd := by
  have hnever : ∀ y, high y → ∀ z, y ∉ e z := fun y hy z hz => ((he z y).mp hz).2 hy
  induction queue generalizing gone with
  | nil => exact iff_of_true (fun x _ => ⟨fun h => h.elim, fun h => by cases h⟩) fun t ht => by cases ht
  | cons q queue ih =>
    obtain ⟨i, z⟩ := q
    by_cases hz : z ∈ gone
    · -- the item has fired or been taken out before
      have hskip : turns e gone ((i, z) :: queue) = turns e gone queue := by
        rw [turns, if_pos hz]
      rw [hskip] at hc ⊢
      refine Iff.trans ?_ (ih hc)
      rw [FiresRest, FiresRest, hskip]
      refine forall₂_congr fun x hx => and_congr_right fun _ => ?_
      have hxz : x ≠ z := by
        rintro rfl
        exact hx hz
      rw [List.map_cons, List.mem_cons, or_iff_right hxz]
    · have hturn : turns e gone ((i, z) :: queue) =
          ⟨gone, i, z, queue⟩ :: turns e (gone ∪ insert z (e z).toFinset) queue := by
        rw [turns, if_neg hz]
      have hgone : ∀ x, x ∈ gone ∪ insert z (e z).toFinset ↔ x ∈ gone ∨ x = z ∨ x ∈ e z := by
        intro x
        rw [Finset.mem_union, Finset.mem_insert, List.mem_toFinset]
      rw [hturn, List.forall_mem_cons] at hc
      obtain ⟨hself, hc⟩ := hc
      rw [hturn, List.forall_mem_cons]
      refine Iff.trans ?_ (and_congr Iff.rfl (ih hc))
      rw [FiresRest, hturn, List.map_cons]
      have hcons : ∀ x, x ≠ z → (x ∈ z :: (turns e (gone ∪ insert z (e z).toFinset) queue).map
          Turn.item ↔ x ∈ (turns e (gone ∪ insert z (e z).toFinset) queue).map Turn.item) :=
        fun x hx => by rw [List.mem_cons, or_iff_right hx]
      constructor
      · intro h
        refine ⟨fun y hy hhigh hqueue => ?_, fun x hx => ?_⟩
        · obtain ⟨hyz, hygone⟩ := hself y hy
          refine (h y hygone).1 ⟨hyz.symm, .inl hy⟩ ((hcons y hyz).mpr ?_)
          refine turns_fires hqueue (fun hy' => ?_) (hnever y hhigh)
          rcases (hgone y).mp hy' with h | h | h
          · exact hygone h
          · exact hyz h
          · exact hnever y hhigh z h
        · rw [hgone, not_or, not_or] at hx
          obtain ⟨hx, hxz, hxe⟩ := hx
          obtain ⟨hfirst, hsecond⟩ := h x hx
          refine ⟨fun hun hmem => hfirst ⟨Ne.symm hxz, .inr hun⟩ ((hcons x hxz).mpr hmem),
            fun hqueue hun => ?_⟩
          by_cases hxc : x ∈ c z
          · have hhigh : high x := by
              by_contra hlow
              exact hxe ((he z x).mpr ⟨hxc, hlow⟩)
            refine turns_fires hqueue (fun hx' => ?_) (hnever x hhigh)
            rcases (hgone x).mp hx' with h | h | h
            · exact hx h
            · exact hxz h
            · exact hxe h
          · refine (hcons x hxz).mp (hsecond (List.mem_cons_of_mem _ hqueue) ?_)
            rintro ⟨-, h | h⟩
            · exact hxc h
            · exact hun h
      · rintro ⟨hturn, hrest⟩ x hx
        by_cases hxz : x = z
        · subst hxz
          exact ⟨fun hun => absurd rfl hun.1, fun _ _ => List.mem_cons_self⟩
        rw [hcons x hxz]
        by_cases hx' : x ∈ gone ∪ insert z (e z).toFinset
        · have hxe : x ∈ e z := by
            rcases (hgone x).mp hx' with h | h | h
            · exact absurd h hx
            · exact absurd h hxz
            · exact h
          refine ⟨fun _ h => turns_item_notMem h hx', fun _ hun => ?_⟩
          exact absurd ⟨Ne.symm hxz, .inl ((he z x).mp hxe).1⟩ hun
        · obtain ⟨hfirst, hsecond⟩ := hrest x hx'
          refine ⟨?_, fun hqueue hun => ?_⟩
          · rintro ⟨-, hxc | hun⟩
            · have hhigh : high x := by
                by_contra hlow
                exact hx' ((hgone x).mpr (.inr (.inr ((he z x).mpr ⟨hxc, hlow⟩))))
              exact fun h => hturn x hxc hhigh (turns_item_mem h)
            · exact hfirst hun
          · refine hsecond ((List.mem_cons.mp hqueue).resolve_left hxz) fun h => ?_
            exact hun ⟨Ne.symm hxz, .inr h⟩

/-! ## The lists while the call runs -/

/-- What is gone after an item has been unregistered. -/
def goneWith (w : TimingWheel) (gone : Finset ℕ) (y : ℕ) : Finset ℕ :=
  if 0 ≤ (w.item y).slot then insert y gone else gone

/-- What is left of the lists. -/
def kept (L : ℕ → List ℕ) (gone : Finset ℕ) (n : ℕ) : List ℕ := (L n).filter (· ∉ gone)

theorem filter_insert_of_notMem {l : List ℕ} (hy : y ∉ l) :
    l.filter (· ∉ insert y gone) = l.filter (· ∉ gone) := by
  refine List.filter_congr fun x hx => ?_
  have hxy : x ≠ y := by
    rintro rfl
    exact hy hx
  simp [hxy]

theorem filter_insert_eq_erase {l : List ℕ} (hl : l.Nodup) :
    l.filter (· ∉ insert y gone) = (l.filter (· ∉ gone)).erase y := by
  rw [(hl.filter _).erase_eq_filter, List.filter_filter]
  refine List.filter_congr fun x _ => ?_
  by_cases hxy : x = y <;> simp [hxy]

section Sweep

variable {u : TimingWheel} {rest : List ℕ} {p : Option ℕ} (hw : Sized w) (H : Holds w L)

include H

/-- An item of one list leaves the others alone. -/
theorem Holds.update_kept (hy : y ∈ L n) :
    Function.update (kept L (insert y gone)) n [] = Function.update (kept L gone) n [] := by
  funext m
  by_cases hm : m = n
  · rw [hm, Function.update_self, Function.update_self]
  · rw [Function.update_of_ne hm, Function.update_of_ne hm]
    exact filter_insert_of_notMem fun h => hm (H.apart m n y h hy)

theorem Holds.takeOut_kept {m : ℕ} (hy : y ∈ L m) (hm : m ≠ n) :
    takeOut (Function.update (kept L gone) n []) m y =
      Function.update (kept L (insert y gone)) n [] := by
  funext k
  by_cases hkn : k = n
  · rw [takeOut, hkn, Function.update_of_ne hm.symm, Function.update_self, Function.update_self]
  · rw [takeOut, Function.update_of_ne hkn]
    by_cases hkm : k = m
    · subst hkm
      rw [Function.update_self, Function.update_of_ne hkn]
      exact (filter_insert_eq_erase (H.nodup k)).symm
    · rw [Function.update_of_ne hkm, Function.update_of_ne hkn]
      exact (filter_insert_of_notMem fun h => hkm (H.apart k m y h hy)).symm

include hw

/-- **`UnRegisterTimer`** called by a callback takes the item out of its list, or leaves everything as
it is if the `slot` of the item is negative. -/
theorem Sweeping.request (S : Sweeping u (Function.update (kept L gone) n []) n p
      (rest.filter (· ∉ gone))) (hu : Alike w u) (hn : n < w.slotSize) (hnodup : rest.Nodup)
    (hsub : ∀ y ∈ rest, y ∈ L n) (hall : ∀ y ∈ L n, y ∈ rest ∨ y ∈ gone) (hgone : y ∉ gone)
    (hy : ∃ m, y ∈ L m)
    (hhead : 0 ≤ (w.item y).slot → (rest.filter (· ∉ gone)).head? ≠ some y) :
    Sweeping (u.unRegisterTimer y) (Function.update (kept L (goneWith w gone y)) n []) n p
        (rest.filter (· ∉ goneWith w gone y)) ∧
      (rest.filter (· ∉ goneWith w gone y)).head? = (rest.filter (· ∉ gone)).head? := by
  obtain ⟨m, hy⟩ := hy
  have hlow := H.slot_nonneg hw hy
  by_cases hslot : 0 ≤ (w.item y).slot
  · have hsmall := hlow.mp hslot
    rw [goneWith, if_pos hslot]
    by_cases hmn : m = n
    · -- the item is still to be taken off
      subst hmn
      have hmem : y ∈ rest.filter (· ∉ gone) :=
        List.mem_filter.mpr ⟨(hall y hy).resolve_right hgone, by simpa using hgone⟩
      rw [H.update_kept hy, filter_insert_eq_erase hnodup]
      cases hlist : rest.filter (· ∉ gone) with
      | nil =>
        rw [hlist] at hmem
        cases hmem
      | cons z l =>
        rw [hlist] at S hmem hhead
        have hzy : z ≠ y := by
          rintro rfl
          exact hhead hslot rfl
        rw [List.erase_cons_tail (by simpa using hzy)]
        exact ⟨S.unregister_rest ((List.mem_cons.mp hmem).resolve_left hzy.symm)
          (hu.slotSize ▸ hn) hsmall, rfl⟩
    · have hrest : y ∉ rest := fun h => hmn (H.apart m n y hy (hsub y h))
      have hmem : y ∈ Function.update (kept L gone) n [] m := by
        rw [Function.update_of_ne hmn]
        exact List.mem_filter.mpr ⟨hy, by simpa using hgone⟩
      rw [filter_insert_of_notMem hrest, ← H.takeOut_kept hy hmn]
      exact ⟨S.unregister hmem hsmall, rfl⟩
  · have hlarge : 0x80000000 ≤ m := Nat.not_lt.mp fun h => hslot (hlow.mpr h)
    have hword : m < 0x100000000 := (H.lt hy).trans hw.slotSize_lt
    rw [goneWith, if_neg hslot]
    refine ⟨?_, rfl⟩
    rw [S.unregister_high (m := m)]
    · exact S
    · by_cases hmn : m = n
      · subst hmn
        exact .inr ⟨List.mem_filter.mpr ⟨(hall y hy).resolve_right hgone, by simpa using hgone⟩,
          hlarge, hword⟩
      · refine .inl ⟨?_, hlarge, hword⟩
        rw [Function.update_of_ne hmn]
        exact List.mem_filter.mpr ⟨hy, by simpa using hgone⟩

/-- The calls of one callback. -/
theorem Sweeping.requests {ys : List ℕ} (S : Sweeping u (Function.update (kept L gone) n []) n p
      (rest.filter (· ∉ gone))) (hu : Alike w u) (hn : n < w.slotSize) (hnodup : rest.Nodup)
    (hsub : ∀ y ∈ rest, y ∈ L n) (hall : ∀ y ∈ L n, y ∈ rest ∨ y ∈ gone) (hys : ys.Nodup)
    (hgone : ∀ y ∈ ys, y ∉ gone ∧ ∃ m, y ∈ L m)
    (hhead : ∀ y ∈ ys, 0 ≤ (w.item y).slot → (rest.filter (· ∉ gone)).head? ≠ some y) :
    Sweeping ((ys.map Act.unregister).foldl act u)
        (Function.update (kept L (ys.foldl (goneWith w) gone)) n []) n p
        (rest.filter (· ∉ ys.foldl (goneWith w) gone)) ∧
      (rest.filter (· ∉ ys.foldl (goneWith w) gone)).head? = (rest.filter (· ∉ gone)).head? := by
  induction ys generalizing u gone with
  | nil => exact ⟨S, rfl⟩
  | cons y ys ih =>
    obtain ⟨hyys, hys⟩ := List.nodup_cons.mp hys
    obtain ⟨hy, hgone'⟩ := List.forall_mem_cons.mp hgone
    obtain ⟨hyhead, hhead'⟩ := List.forall_mem_cons.mp hhead
    obtain ⟨S', hsame⟩ := S.request hw H hu hn hnodup hsub hall hy.1 hy.2 hyhead
    have hsubset : ∀ x, x ∈ goneWith w gone y ↔ x ∈ gone ∨ x = y ∧ 0 ≤ (w.item y).slot := by
      intro x
      unfold goneWith
      split <;> simp [*, or_comm]
    have hlater : ∀ x ∈ ys, x ∉ goneWith w gone y ∧ ∃ m, x ∈ L m := by
      refine fun x hx => ⟨fun h => ?_, (hgone' x hx).2⟩
      rcases (hsubset x).mp h with h | ⟨rfl, -⟩
      · exact (hgone' x hx).1 h
      · exact hyys hx
    obtain ⟨S'', hsame'⟩ := ih S' (hu.trans unRegisterTimer_alike)
      (fun x hx => (hall x hx).imp_right fun h => (hsubset x).mpr (.inl h)) hys hlater
      fun x hx hslot => hsame ▸ hhead' x hx hslot
    exact ⟨S'', hsame'.trans hsame⟩

end Sweep

theorem foldl_goneWith {ys : List ℕ} : ys.foldl (goneWith w) gone =
    gone ∪ (ys.filter fun y => 0 ≤ (w.item y).slot).toFinset := by
  induction ys generalizing gone with
  | nil => simp
  | cons y ys ih =>
    rw [List.foldl_cons, ih, goneWith]
    ext x
    by_cases hslot : 0 ≤ (w.item y).slot
    · simp [hslot]
    · simp [hslot]

/-! ## The rounds of a call -/

/-- An item that was not gone before is fired although it has been unregistered. -/
def Broken (c : ℕ → List ℕ) (gone : Finset ℕ) (l : List ℕ) : Prop :=
  ∃ y ∉ gone, Unregistered c y l ∧ y ∈ l

theorem Broken.cons {l : List ℕ} {g : Finset ℕ} (hg : gone ∪ {x} ⊆ g)
    (h : Broken c g l) : Broken c gone (x :: l) := by
  obtain ⟨y, hy, hun, hmem⟩ := h
  have hyx : x ≠ y := by
    rintro rfl
    exact hy (hg (by simp))
  exact ⟨y, fun h => hy (hg (Finset.mem_union_left _ h)), ⟨hyx, .inr hun⟩, List.mem_cons_of_mem x hmem⟩

theorem Unregistered.append {l l' : List ℕ} (h : Unregistered c x l) : Unregistered c x (l ++ l') := by
  induction l with
  | nil => exact h.elim
  | cons z l ih => exact ⟨h.1, h.2.imp_right ih⟩

theorem Broken.append {l : List ℕ} (l' : List ℕ) (h : Broken c gone l) : Broken c gone (l ++ l') := by
  obtain ⟨y, hy, hun, hmem⟩ := h
  exact ⟨y, hy, hun.append, List.mem_append_left l' hmem⟩

theorem next_eq {rest : List ℕ} (hq : ∀ z ∈ queue, z.1 ≠ i) :
    Turn.next ⟨gone, i, x, rest.map (Prod.mk i) ++ queue⟩ = (rest.filter (· ∉ gone)).head? := by
  have hlater : queue.find? (fun z => z.1 = i ∧ z.2 ∉ gone) = none := by
    rw [List.find?_eq_none]
    intro z hz
    simp [hq z hz]
  rw [Turn.next, List.find?_append, hlater, Option.or_none, List.find?_map, List.head?_filter,
    Option.map_map]
  have hfst : ((fun z : ℕ × ℕ => decide (z.1 = i ∧ z.2 ∉ gone)) ∘ Prod.mk i) =
      fun z => decide (z ∉ gone) := by
    funext z
    simp
  rw [hfst]
  exact congrFun Option.map_id _

theorem calls_cancelActs {u : TimingWheel} (hu : Alike w u) :
    u.calls (cancelActs cancels) x = (w.requests cancels x).map .unregister := by
  rw [hu.calls, calls, requests]
  split <;> rfl

theorem mem_queued {z : ℕ × ℕ} {r : ℕ} :
    z ∈ w.queued L i r ↔ (i ≤ z.1 ∧ z.1 < i + r) ∧ z.2 ∈ L (w.roundSlot z.1) := by
  obtain ⟨k, y⟩ := z
  simp [queued, List.mem_range'_1]

/-- The loop of `Active` fires the item it starts with. -/
theorem activeLoop_head {call : TimingWheel → ℕ → Exec TimingWheel} {fuel : ℕ}
    {r : TimingWheel × List ℕ} (h : activeLoop call fuel w (some y) = .ok r) : y ∈ r.2 := by
  cases fuel with
  | zero => cases h
  | succ fuel =>
    obtain ⟨u, -, h⟩ : ∃ u, (if (w.item y).callback then call (w.takeOff y) y
        else .ok (w.takeOff y)) = .ok u ∧
        (activeLoop call fuel u (w.item y).next >>= fun r => .ok (r.1, y :: r.2)) = .ok r := by
      rw [activeLoop] at h
      split at h
      · obtain ⟨u, hu, h⟩ := Exec.bind_eq_ok.mp h
        exact ⟨u, by rwa [if_pos ‹_›], h⟩
      · exact ⟨w.takeOff y, by rw [if_neg ‹_›], h⟩
    obtain ⟨r', -, h⟩ := Exec.bind_eq_ok.mp h
    rw [← Except.ok.inj h]
    exact List.mem_cons_self

section Rounds

variable {u : TimingWheel} {rest : List ℕ} {p : Option ℕ} (hw : Sized w) (H : Holds w L)

include hw H

/-- **The loop of `Active`**: the items of the list fire that are not gone, or the list is lost, and
then an item is fired that has been unregistered. -/
theorem activeLoop_turns {fuel : ℕ} (S : Sweeping u (Function.update (kept L gone) n []) n p
      (rest.filter (· ∉ gone))) (hu : Alike w u) (hn : n < w.slotSize) (hnodup : rest.Nodup)
    (hsub : ∀ y ∈ rest, y ∈ L n) (hall : ∀ y ∈ L n, y ∈ rest ∨ y ∈ gone)
    (hq : ∀ z ∈ queue, z.1 ≠ i) (hfuel : (rest.filter (· ∉ gone)).length ≤ fuel)
    (ha : AllowedUntil w L cancels
      (turns (w.effective cancels) gone (rest.map (Prod.mk i) ++ queue))) :
    (∃ ts g u', turns (w.effective cancels) gone (rest.map (Prod.mk i) ++ queue) =
        ts ++ turns (w.effective cancels) g queue ∧
      activeLoop (callback (cancelActs cancels)) fuel u (rest.filter (· ∉ gone)).head? =
        .ok (u', ts.map Turn.item) ∧
      Holds u' (Function.update (kept L g) n []) ∧ Alike w u' ∧ (∀ t ∈ ts, ¬ Loses w cancels t) ∧
      AllowedUntil w L cancels (turns (w.effective cancels) g queue) ∧ (∀ y ∈ L n, y ∈ g) ∧
      ∀ l, Broken (w.requests cancels) g l →
        Broken (w.requests cancels) gone (ts.map Turn.item ++ l)) ∨
    (∃ t ∈ turns (w.effective cancels) gone (rest.map (Prod.mk i) ++ queue), Loses w cancels t) ∧
      ∀ u' l, activeLoop (callback (cancelActs cancels)) fuel u (rest.filter (· ∉ gone)).head? =
        .ok (u', l) → Broken (w.requests cancels) gone l := by
  induction rest generalizing u gone p fuel with
  | nil =>
    refine .inl ⟨[], gone, u, rfl, ?_, S.done, hu, by simp, ha, fun y hy => ?_, fun l hl => hl⟩
    · cases fuel <;> rfl
    · exact (hall y hy).resolve_left (List.not_mem_nil)
  | cons x rest ih =>
    obtain ⟨hxrest, hnodup⟩ := List.nodup_cons.mp hnodup
    obtain ⟨hx, hsub⟩ := List.forall_mem_cons.mp hsub
    by_cases hgone : x ∈ gone
    · -- the item has been taken out before
      have hfilter : (x :: rest).filter (· ∉ gone) = rest.filter (· ∉ gone) :=
        List.filter_cons_of_neg (by simpa using hgone)
      have hturns : turns (w.effective cancels) gone ((x :: rest).map (Prod.mk i) ++ queue) =
          turns (w.effective cancels) gone (rest.map (Prod.mk i) ++ queue) := by
        rw [List.map_cons, List.cons_append, turns, if_pos hgone]
      rw [hfilter] at S hfuel ⊢
      rw [hturns] at ha ⊢
      refine ih S hu hnodup hsub (fun y hy => ?_) hfuel ha
      rcases hall y hy with h | h
      · rcases List.mem_cons.mp h with rfl | h
        · exact .inr hgone
        · exact .inl h
      · exact .inr h
    obtain ⟨t, ht⟩ : ∃ t : Turn, t = ⟨gone, i, x, rest.map (Prod.mk i) ++ queue⟩ := ⟨_, rfl⟩
    obtain ⟨g, hg⟩ : ∃ g, g = gone ∪ insert x (w.effective cancels x).toFinset := ⟨_, rfl⟩
    have hturns : turns (w.effective cancels) gone ((x :: rest).map (Prod.mk i) ++ queue) =
        t :: turns (w.effective cancels) g (rest.map (Prod.mk i) ++ queue) := by
      rw [List.map_cons, List.cons_append, turns, if_neg hgone, ht, hg]
    have hfilter : (x :: rest).filter (· ∉ gone) = x :: rest.filter (· ∉ gone) :=
      List.filter_cons_of_pos (by simpa using hgone)
    have hnext : t.next = (rest.filter (· ∉ gone)).head? := ht ▸ next_eq hq
    have hitem : t.item = x := ht ▸ rfl
    rw [hfilter] at S hfuel ⊢
    rw [hturns] at ha ⊢
    obtain ⟨⟨hys, hmay⟩, hlater⟩ := ha
    rw [hitem] at hys hmay
    obtain ⟨f, rfl⟩ : ∃ f, fuel = f + 1 := ⟨fuel - 1, by simp at hfuel; omega⟩
    -- the round of the loop
    have hround : ∀ h : Option ℕ, h = (rest.filter (· ∉ gone)).head? →
        activeLoop (callback (cancelActs cancels)) (f + 1) u (some x) =
          (activeLoop (callback (cancelActs cancels)) f
            (((w.requests cancels x).map .unregister).foldl act (u.takeOff x)) h >>=
              fun r => .ok (r.1, x :: r.2)) := by
      rintro h rfl
      rw [activeLoop_some, S.head_next, calls_cancelActs hu]
    by_cases hloses : Loses w cancels t
    · -- the next item has been unregistered, and is fired
      refine .inr ⟨⟨t, List.mem_cons_self, hloses⟩, fun u' l hl => ?_⟩
      obtain ⟨y, hy, hyn, -⟩ := hloses
      rw [hitem] at hy
      rw [List.head?_cons, hround _ (hyn.symm.trans hnext)] at hl
      obtain ⟨r, hr, hl⟩ := Exec.bind_eq_ok.mp hl
      obtain ⟨-, rfl⟩ := Prod.mk.inj (Except.ok.inj hl)
      obtain ⟨hyx, hygone, -⟩ := hmay y hy
      rw [ht] at hygone
      refine ⟨y, hygone, ⟨hyx.symm, .inl hy⟩, List.mem_cons_of_mem x (activeLoop_head hr)⟩
    · have hlater := hlater.resolve_left hloses
      have S₁ := S.takeOff
      have hsame : rest.filter (· ∉ insert x gone) = rest.filter (· ∉ gone) :=
        filter_insert_of_notMem hxrest
      rw [← H.update_kept hx, ← hsame] at S₁
      have hall₁ : ∀ y ∈ L n, y ∈ rest ∨ y ∈ insert x gone := by
        intro y hy
        rcases hall y hy with h | h
        · rcases List.mem_cons.mp h with rfl | h
          · exact .inr (Finset.mem_insert_self y gone)
          · exact .inl h
        · exact .inr (Finset.mem_insert_of_mem h)
      have hgone₁ : ∀ y ∈ w.requests cancels x, y ∉ insert x gone ∧ ∃ m, y ∈ L m := by
        refine fun y hy => ⟨fun h => ?_, (hmay y hy).2.2⟩
        rcases Finset.mem_insert.mp h with rfl | h
        · exact (hmay y hy).1 rfl
        · exact (hmay y hy).2.1 (ht ▸ h)
      have hhead₁ : ∀ y ∈ w.requests cancels x, 0 ≤ (w.item y).slot →
          (rest.filter (· ∉ insert x gone)).head? ≠ some y := by
        intro y hy hslot hyhead
        rw [hsame, ← hnext] at hyhead
        exact hloses ⟨y, hitem ▸ hy, hyhead, hslot⟩
      obtain ⟨S₂, hhead⟩ := S₁.requests hw H (hu.trans takeOff_alike) hn hnodup hsub hall₁ hys hgone₁
        hhead₁
      have hg' : (w.requests cancels x).foldl (goneWith w) (insert x gone) = g := by
        rw [foldl_goneWith, hg, effective]
        ext y
        simp only [Finset.mem_union, Finset.mem_insert]
        tauto
      have hsubset : gone ∪ {x} ⊆ g := by
        rw [hg]
        exact Finset.union_subset_union_right (by simp)
      rw [hg'] at S₂ hhead
      rw [hsame] at hhead
      have hlength : (rest.filter (· ∉ g)).length ≤ f := by
        have hle : (rest.filter (· ∉ g)).length ≤ (rest.filter (· ∉ gone)).length := by
          refine List.Sublist.length_le (List.monotone_filter_right rest fun y hy => ?_)
          simp only [decide_eq_true_eq] at hy ⊢
          exact fun h => hy (hsubset (Finset.mem_union_left _ h))
        rw [List.length_cons] at hfuel
        omega
      have hall₂ : ∀ y ∈ L n, y ∈ rest ∨ y ∈ g := by
        refine fun y hy => (hall₁ y hy).imp_right fun h => hsubset ?_
        rw [Finset.mem_union, Finset.mem_singleton, or_comm]
        exact Finset.mem_insert.mp h
      rw [List.head?_cons, hround _ hhead]
      rcases ih S₂ ((hu.trans takeOff_alike).trans (acts_alike _)) hnodup hsub hall₂ hlength hlater with
        ⟨ts, g', u', hts, hloop, H', hu', hno, ha', hgone', hlater'⟩ | ⟨⟨t', ht', hl'⟩, hbroken⟩
      · refine .inl ⟨t :: ts, g', u', by rw [hts, List.cons_append], ?_, H', hu',
          List.forall_mem_cons.mpr ⟨hloses, hno⟩, ha', hgone', fun l hl => ?_⟩
        · rw [hloop, Exec.ok_bind, List.map_cons, hitem]
        · rw [List.map_cons, List.cons_append, hitem]
          exact (hlater' l hl).cons hsubset
      · refine .inr ⟨⟨t', List.mem_cons_of_mem t ht', hl'⟩, fun u' l hl => ?_⟩
        obtain ⟨r, hr, hl⟩ := Exec.bind_eq_ok.mp hl
        obtain ⟨-, rfl⟩ := Prod.mk.inj (Except.ok.inj hl)
        exact (hbroken r.1 r.2 hr).cons hsubset

/-- **The loop of `UpdateWheel`**: the items of the queue fire that are not gone, or the items of a
list are lost, and then an item is fired that has been unregistered. -/
theorem updateLoop_turns {r : ℕ} (U : Holds u (kept L gone)) (hu : Alike w u) (hsize : 0 < w.slotSize)
    (ha : AllowedUntil w L cancels (turns (w.effective cancels) gone (w.queued L i r))) :
    (∃ u', updateLoop (callback (cancelActs cancels)) r i u =
        .ok (u', (turns (w.effective cancels) gone (w.queued L i r)).map Turn.item) ∧
      Alike w u' ∧ AllowedUntil w L cancels (turns (w.effective cancels) gone (w.queued L i r)) ∧
      ∀ t ∈ turns (w.effective cancels) gone (w.queued L i r), ¬ Loses w cancels t) ∨
    (∃ t ∈ turns (w.effective cancels) gone (w.queued L i r), Loses w cancels t) ∧
      ∀ u' l, updateLoop (callback (cancelActs cancels)) r i u = .ok (u', l) →
        Broken (w.requests cancels) gone l := by
  induction r generalizing u gone i with
  | zero => exact .inl ⟨u, rfl, hu, ha, fun t ht => by cases ht⟩
  | succ r ih =>
    have hqueue : w.queued L i (r + 1) =
        (L (w.roundSlot i)).map (Prod.mk i) ++ w.queued L (i + 1) r := by
      rw [queued, List.range'_succ, List.flatMap_cons, queued]
    have hslot : add32 u.current i % u.slotSize = w.roundSlot i := by
      rw [hu.current, hu.slotSize, roundSlot]
    have hn : w.roundSlot i < w.slotSize := Nat.mod_lt _ hsize
    have hn' : w.roundSlot i < u.slotSize := hu.slotSize.symm ▸ hn
    have S := U.sweeping hn'
    have hround : updateLoop (callback (cancelActs cancels)) (r + 1) i u =
        (activeLoop (callback (cancelActs cancels)) u.items (u.setSlot (w.roundSlot i) none)
          ((L (w.roundSlot i)).filter (· ∉ gone)).head? >>= fun q =>
          updateLoop (callback (cancelActs cancels)) r (i + 1) q.1 >>= fun q' =>
            .ok (q'.1, q.2 ++ q'.2)) := by
      rw [updateLoop, active, hslot, U.head hn']
      rfl
    have hlater : ∀ z ∈ w.queued L (i + 1) r, z.1 ≠ i := by
      intro z hz
      have := mem_queued.mp hz
      omega
    rw [hqueue] at ha ⊢
    rw [hround]
    rcases activeLoop_turns hw H S (hu.trans setSlot_alike) hn (H.nodup _) (fun y hy => hy)
      (fun y hy => .inl hy) hlater (U.length_le _) ha with
      ⟨ts, g, u₁, hts, hloop, U₁, hu₁, hno, ha₁, hgone, hbroken⟩ | ⟨hloses, hbroken⟩
    · have hempty : Function.update (kept L g) (w.roundSlot i) [] = kept L g := by
        rw [Function.update_eq_self_iff, kept, eq_comm, List.filter_eq_nil_iff]
        exact fun y hy => by simpa using hgone y hy
      rw [hempty] at U₁
      rw [hts, hloop, Exec.ok_bind]
      rcases ih U₁ hu₁ ha₁ with ⟨u₂, hloop₂, hu₂, -, hno₂⟩ | ⟨⟨t, ht, hloses⟩, hbroken₂⟩
      · refine .inl ⟨u₂, ?_, hu₂, hts ▸ ha, fun t ht => ?_⟩
        · rw [hloop₂, Exec.ok_bind, List.map_append]
        · rcases List.mem_append.mp ht with ht | ht
          · exact hno t ht
          · exact hno₂ t ht
      · refine .inr ⟨⟨t, List.mem_append_right ts ht, hloses⟩, fun u' l hl => ?_⟩
        obtain ⟨q, hq, hl⟩ := Exec.bind_eq_ok.mp hl
        obtain ⟨-, rfl⟩ := Prod.mk.inj (Except.ok.inj hl)
        exact hbroken q.2 (hbroken₂ q.1 q.2 hq)
    · refine .inr ⟨hloses, fun u' l hl => ?_⟩
      obtain ⟨q, hq, hl⟩ := Exec.bind_eq_ok.mp hl
      obtain ⟨q', -, hl⟩ := Exec.bind_eq_ok.mp hl
      obtain ⟨-, rfl⟩ := Prod.mk.inj (Except.ok.inj hl)
      exact (hbroken q.1 q.2 hq).append q'.2

end Rounds

/-! ## Cancelling -/

/-- The items of the queue are those of the covered slots. -/
theorem mem_queued_covered :
    x ∈ (w.queued L 0 (w.rounds now)).map Prod.snd ↔ ∃ n ∈ w.covered now, x ∈ L n := by
  constructor
  · intro hx
    obtain ⟨z, hz, rfl⟩ := List.mem_map.mp hx
    obtain ⟨⟨-, hlt⟩, hmem⟩ := mem_queued.mp hz
    rw [Nat.zero_add] at hlt
    exact ⟨_, mem_covered.mpr ⟨z.1, hlt, rfl⟩, hmem⟩
  · rintro ⟨n, hn, hx⟩
    obtain ⟨k, hk, rfl⟩ := mem_covered.mp hn
    refine List.mem_map.mpr ⟨(k, x), mem_queued.mpr ⟨⟨Nat.zero_le k, ?_⟩, hx⟩, rfl⟩
    rwa [Nat.zero_add]

theorem mem_effective : y ∈ w.effective cancels x ↔
    y ∈ w.requests cancels x ∧ ¬ (w.item y).slot < 0 := by
  rw [effective, List.mem_filter, decide_eq_true_eq, Int.not_lt]

theorem Turn.mem_queue_of_next {t : Turn} (h : t.next = some y) : y ∈ t.queue.map Prod.snd := by
  obtain ⟨z, hz, rfl⟩ := Option.map_eq_some_iff.mp h
  exact List.mem_map.mpr ⟨z, List.mem_of_find?_eq_some hz, rfl⟩

theorem AllowedUntil.mayUnregister {ts : List Turn} (h : AllowedUntil w L cancels ts)
    (hno : ∀ t ∈ ts, ¬ Loses w cancels t) : ∀ t ∈ ts, MayUnregister w L cancels t := by
  induction ts with
  | nil => exact fun t ht => by cases ht
  | cons t ts ih =>
    obtain ⟨hfirst, hno⟩ := List.forall_mem_cons.mp hno
    exact List.forall_mem_cons.mpr ⟨h.1, ih (h.2.resolve_left hfirst) hno⟩

/-- A call that returns, with an item fired in every turn. -/
theorem cancelSafe_iff_firesRest (hresult : updateWheel (callback (cancelActs cancels)) w now =
      .ok (w', (w.updateTurns L now cancels).map Turn.item, 0)) :
    CancelSafe w L now cancels ↔ FiresRest (w.requests cancels) (w.effective cancels) ∅
      (w.queued L 0 (w.rounds now)) := by
  constructor
  · rintro ⟨w', fired, r, h, hgone, hrest⟩ x -
    obtain ⟨-, h⟩ := Prod.mk.inj (Except.ok.inj (hresult.symm.trans h))
    obtain ⟨rfl, -⟩ := Prod.mk.inj h
    refine ⟨hgone x, fun hqueue hun => ?_⟩
    obtain ⟨n, hn, hx⟩ := mem_queued_covered.mp hqueue
    refine List.count_pos_iff.mp ?_
    exact Nat.lt_of_lt_of_eq Nat.one_pos (hrest n hn x hx hun).symm
  · intro h
    refine ⟨_, _, _, hresult, fun x => (h x (Finset.notMem_empty x)).1, fun n hn x hx hun => ?_⟩
    refine List.count_eq_one_of_mem turns_nodup ?_
    exact (h x (Finset.notMem_empty x)).2 (mem_queued_covered.mpr ⟨n, hn, hx⟩) hun

/-- A call that fires an item unregistered before. -/
theorem not_cancelSafe_of_broken (hbroken : ∀ w' fired r,
      updateWheel (callback (cancelActs cancels)) w now = .ok (w', fired, r) →
      ∃ y, Unregistered (w.requests cancels) y fired ∧ y ∈ fired) : ¬ CancelSafe w L now cancels := by
  rintro ⟨w', fired, r, h, hgone, -⟩
  obtain ⟨y, hun, hmem⟩ := hbroken w' fired r h
  exact hgone y hun hmem

/-- **Cancelling is safe** exactly if the wheel has slots at a tick, no callback unregisters the item
that follows its own in the list, and none unregisters an item still to fire whose `slot` is
negative. -/
theorem cancelSafe_iff (hw : Sized w) (H : Holds w L)
    (ha : AllowedUntil w L cancels (w.updateTurns L now cancels)) :
    CancelSafe w L now cancels ↔
      (w.precision ≤ sub32 now w.lastUpdate → 0 < w.slotSize) ∧
        ∀ t ∈ w.updateTurns L now cancels, Spares w cancels t := by
  by_cases htick : sub32 now w.lastUpdate < w.precision
  · -- the call does nothing
    have hrounds := rounds_of_no_tick htick
    have hturns : w.updateTurns L now cancels = [] := by
      rw [updateTurns, hrounds]
      rfl
    refine iff_of_true
      ⟨w, [], -1, updateWheel_of_no_tick htick, fun x hx => hx.elim, fun n hn => ?_⟩
      ⟨fun h => absurd htick (Nat.not_lt.mpr h), fun t ht => ?_⟩
    · obtain ⟨k, hk, -⟩ := mem_covered.mp hn
      exact absurd (hrounds ▸ hk) (Nat.not_lt_zero k)
    · rw [hturns] at ht
      cases ht
  have hwheel := updateWheel_of_tick (f := callback (cancelActs cancels)) (Nat.not_lt.mp htick)
  by_cases hsize : 0 < w.slotSize
  swap
  · -- the call divides by zero
    have hzero : w.slotSize = 0 := by omega
    have hrounds : w.rounds now = 0 := by
      rw [rounds, hzero, Nat.min_zero]
    refine iff_of_false ?_ fun h => hsize (h.1 (Nat.not_lt.mp htick))
    rintro ⟨w', fired, r, h, -⟩
    rw [hwheel, hrounds, updateLoop, Exec.ok_bind, if_pos hzero] at h
    cases h
  rw [and_iff_right fun _ => hsize]
  have hkept : kept L ∅ = L := by
    funext n
    simp [kept]
  have U : Holds w (kept L ∅) := hkept.symm ▸ H
  unfold updateTurns at ha
  rcases updateLoop_turns hw H U (.refl w) hsize ha with ⟨u, hloop, hu, -, hno⟩ | ⟨⟨t, ht, hloses⟩, hbroken⟩
  · have hresult : updateWheel (callback (cancelActs cancels)) w now =
        .ok ({ u with current := add32 u.current (w.rounds now) % u.slotSize, lastUpdate := now },
          (w.updateTurns L now cancels).map Turn.item, 0) := by
      rw [hwheel, hloop, Exec.ok_bind, if_neg (by rw [hu.slotSize]; omega)]
      rfl
    have hmay : ∀ t ∈ w.updateTurns L now cancels, ∀ y ∈ w.requests cancels t.item,
        y ≠ t.item ∧ y ∉ t.gone := by
      intro t ht y hy
      have := (ha.mayUnregister hno t ht).2 y hy
      exact ⟨this.1, this.2.1⟩
    rw [cancelSafe_iff_firesRest hresult, firesRest_iff (fun z y => mem_effective) hmay]
    refine forall₂_congr fun t ht => forall₂_congr fun y hy => ?_
    refine ⟨fun h => ⟨fun hnext => ?_, h⟩, fun h => h.2⟩
    have hslot : (w.item y).slot < 0 := by
      by_contra hslot
      exact hno t ht ⟨y, hy, hnext, Int.not_lt.mp hslot⟩
    exact h hslot (Turn.mem_queue_of_next hnext)
  · refine iff_of_false (not_cancelSafe_of_broken fun w' fired r h => ?_) fun h => ?_
    · rw [hwheel] at h
      obtain ⟨q, hq, h⟩ := Exec.bind_eq_ok.mp h
      split at h
      · cases h
      · obtain ⟨-, h⟩ := Prod.mk.inj (Except.ok.inj h)
        obtain ⟨rfl, -⟩ := Prod.mk.inj h
        obtain ⟨y, -, hun, hmem⟩ := hbroken q.1 q.2 hq
        exact ⟨y, hun, hmem⟩
    · obtain ⟨y, hy, hnext, -⟩ := hloses
      exact (h t ht y hy).1 hnext

/-- A new wheel of ten slots and three items. -/
def threeIdle : TimingWheel := ⟨10, 10, 0, 0, fun _ => none, 3, fun _ => createWheelItem true⟩

/-- The three items are registered for one slot. -/
def threeItems : TimingWheel :=
  (((threeIdle.registerTimer 2 0 10).1.registerTimer 1 0 10).1.registerTimer 0 0 10).1

def threeItemsLists : ℕ → List ℕ :=
  putIn (putIn (putIn (fun _ => []) (some 0) 2) (some 0) 1) (some 0) 0

theorem alike_threeItems : Alike threeIdle threeItems :=
  (registerTimer_alike.trans registerTimer_alike).trans registerTimer_alike

theorem sized_threeItems : Sized threeItems :=
  Sized.alike ⟨by decide, by decide, by decide, by decide, by decide⟩ alike_threeItems

theorem mem_threeItemsLists : y ∈ threeItemsLists 0 ↔ y < 3 := by
  change y ∈ [0, 1, 2] ↔ y < 3
  simp
  omega

theorem holds_threeItems : Holds threeItems threeItemsLists := by
  have hslot : ∀ w, Alike threeIdle w → w.registerSlot 0 10 = some 0 := by
    intro w hw
    rw [registerSlot, hw.precision, hw.slotSize, hw.lastUpdate, hw.current]
    rfl
  have H : Holds threeIdle fun _ => [] := holds_empty (fun _ _ => rfl) (fun _ => rfl) fun _ => rfl
  have H₁ := H.register (x := 2) 0 10 (fun m => List.not_mem_nil) (by decide)
  rw [hslot _ (.refl _)] at H₁
  have H₂ := H₁.register (x := 1) 0 10 (fun m => by simp [mem_putIn]) (by decide)
  rw [hslot _ registerTimer_alike] at H₂
  have H₃ := H₂.register (x := 0) 0 10 (fun m => by simp [mem_putIn]) (by decide)
  rwa [hslot _ (registerTimer_alike.trans registerTimer_alike)] at H₃

theorem requests_threeItems : threeItems.requests cancels = cancels := by
  funext x
  exact if_pos (alike_threeItems.callback x)

/-- The first item's callback unregisters the last item of the list. -/
theorem cancelSafe_last :
    CancelSafe threeItems threeItemsLists 10 fun x => if x = 0 then [2] else [] := by
  have hturns : threeItems.updateTurns threeItemsLists 10 (fun x => if x = 0 then [2] else []) =
      [⟨∅, 0, 0, [(0, 1), (0, 2)]⟩, ⟨{0, 2}, 0, 1, [(0, 2)]⟩] := by
    decide +kernel
  have hslot : ¬ (threeItems.item 2).slot < 0 := by decide
  refine (cancelSafe_iff sized_threeItems holds_threeItems ?_).mpr ⟨fun _ => by decide, ?_⟩
  · rw [hturns]
    refine ⟨⟨by simp [requests_threeItems], ?_⟩, .inr ⟨⟨by simp [requests_threeItems], ?_⟩, .inr trivial⟩⟩
    · simp only [requests_threeItems, if_true, List.forall_mem_singleton]
      exact ⟨by decide, by decide, 0, mem_threeItemsLists.mpr (by decide)⟩
    · simp [requests_threeItems]
  · rw [hturns]
    simp [Spares, requests_threeItems, hslot, Turn.next]

/-- The first item's callback unregisters the second item, which fires, and the third is lost. -/
theorem not_cancelSafe_next : Sized threeItems ∧ Holds threeItems threeItemsLists ∧
    AllowedUntil threeItems threeItemsLists (fun x => if x = 0 then [1] else [])
      (threeItems.updateTurns threeItemsLists 10 fun x => if x = 0 then [1] else []) ∧
    (updateWheel (callback (cancelActs fun x => if x = 0 then [1] else [])) threeItems 10).map
      (fun q => q.2) = .ok ([0, 1], 0) ∧
    ¬ CancelSafe threeItems threeItemsLists 10 fun x => if x = 0 then [1] else [] := by
  have hturns : threeItems.updateTurns threeItemsLists 10 (fun x => if x = 0 then [1] else []) =
      [⟨∅, 0, 0, [(0, 1), (0, 2)]⟩, ⟨{0, 1}, 0, 2, []⟩] := by
    decide +kernel
  have hfired : (updateWheel (callback (cancelActs fun x => if x = 0 then [1] else [])) threeItems
      10).map (fun q => q.2) = .ok ([0, 1], 0) := by
    decide +kernel
  refine ⟨sized_threeItems, holds_threeItems, ?_, hfired, ?_⟩
  · rw [hturns]
    refine ⟨⟨by simp [requests_threeItems], ?_⟩, .inl ⟨1, ?_⟩⟩
    · simp only [requests_threeItems, if_true, List.forall_mem_singleton]
      exact ⟨by decide, by decide, 0, mem_threeItemsLists.mpr (by decide)⟩
    · simp only [requests_threeItems]
      decide
  · rintro ⟨w', fired, r, h, hgone, -⟩
    rw [h] at hfired
    obtain ⟨rfl, -⟩ := Prod.mk.inj (Except.ok.inj hfired)
    refine hgone 1 ?_ (by decide)
    rw [requests_threeItems]
    exact ⟨by decide, .inl (by decide)⟩

end Kendylib.TimingWheel
