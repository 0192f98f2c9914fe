import Kendylib.Timer.TimerSlots

/-!
# Callbacks that register items

The callbacks of a call of `UpdateWheel` register items that are in no list at the time, their own
among them. What the call does then is what `sweep` does to the lists of the slots
(`updateLoop_sweep`): a round takes the items of its slot off, and what their callbacks register is put
in front of the lists.

The numbers of the wheel do not change before the end of the call. An item that is registered goes at
least as many places after `current` as the call has rounds, so no later round finds it there, except
where the number of the slot is taken from a sum that wraps. The call fires every item of its slots
once, and nothing that it has registered, exactly if no callback registers an item in this way for a
slot of a later round (`rearmSafe_iff`).
-/

namespace Kendylib.TimingWheel

/-- A call of `RegisterTimer`, with the clock it reads. -/
structure Rearm where
  item : ℕ
  clock : ℕ
  timeout : ℕ

variable {w u : TimingWheel} {L M : ℕ → List ℕ} {x y z n m now i j r : ℕ} {regs : ℕ → List Rearm}
  {rs : List Rearm} {rest l : List ℕ} {p : Option ℕ}

/-! ## The lists -/

/-- The callbacks that make these calls. The clock is a word. -/
def rearmActs (regs : ℕ → List Rearm) (x : ℕ) : List Act :=
  (regs x).map fun r => .register r.item (r.clock % 0x100000000) r.timeout

/-- The calls that are made when the item fires. -/
def rearms (w : TimingWheel) (regs : ℕ → List Rearm) (x : ℕ) : List Rearm :=
  if (w.item x).callback then regs x else []

/-- The slot for the item, if the wheel has one for it. -/
def rearmSlot (w : TimingWheel) (r : Rearm) : Option ℕ :=
  w.registerSlot (r.clock % 0x100000000) r.timeout

/-- The lists after these calls. -/
def putAll (w : TimingWheel) (L : ℕ → List ℕ) (rs : List Rearm) : ℕ → List ℕ :=
  rs.foldl (fun L r => putIn L (w.rearmSlot r) r.item) L

/-- The lists after these items have fired. -/
def fireAll (w : TimingWheel) (regs : ℕ → List Rearm) (L : ℕ → List ℕ) (l : List ℕ) : ℕ → List ℕ :=
  l.foldl (fun L x => w.putAll L (w.rearms regs x)) L

/-- A series of rounds: the items that fire, and the lists afterwards. -/
def sweep (w : TimingWheel) (regs : ℕ → List Rearm) : ℕ → ℕ → (ℕ → List ℕ) → List ℕ × (ℕ → List ℕ)
  | 0, _, L => ([], L)
  | r + 1, i, L =>
    let l := L (w.roundSlot i)
    let q := w.sweep regs r (i + 1) (w.fireAll regs (Function.update L (w.roundSlot i) []) l)
    (l ++ q.1, q.2)

/-! ## What is asked of the callbacks -/

/-- The calls register items that are in no list, at clock readings not before `now` and with timeouts
that a word can hold, counted from the last update. -/
def MayRearm (w : TimingWheel) (now : ℕ) (L : ℕ → List ℕ) (rest : List ℕ) : List Rearm → Prop
  | [] => True
  | r :: rs =>
    (r.item < w.items ∧ (∀ n, r.item ∉ L n) ∧ r.item ∉ rest ∧
      sub32 now w.lastUpdate ≤ sub32 r.clock w.lastUpdate ∧
      sub32 r.clock w.lastUpdate + r.timeout < 0x100000000) ∧
    MayRearm w now (putIn L (w.rearmSlot r) r.item) rest rs

/-- The callbacks of these items do. -/
def FiresMayRearm (w : TimingWheel) (now : ℕ) (regs : ℕ → List Rearm) :
    (ℕ → List ℕ) → List ℕ → Prop
  | _, [] => True
  | L, x :: rest => MayRearm w now L rest (w.rearms regs x) ∧
    FiresMayRearm w now regs (w.putAll L (w.rearms regs x)) rest

/-- The callbacks of a series of rounds do. -/
def SweepMayRearm (w : TimingWheel) (now : ℕ) (regs : ℕ → List Rearm) :
    ℕ → ℕ → (ℕ → List ℕ) → Prop
  | 0, _, _ => True
  | r + 1, i, L =>
    FiresMayRearm w now regs (Function.update L (w.roundSlot i) []) (L (w.roundSlot i)) ∧
    SweepMayRearm w now regs r (i + 1)
      (w.fireAll regs (Function.update L (w.roundSlot i) []) (L (w.roundSlot i)))

/-! ## The wheel and its lists -/

theorem calls_rearmActs (hu : Alike w u) :
    u.calls (rearmActs regs) x =
      (w.rearms regs x).map fun r => .register r.item (r.clock % 0x100000000) r.timeout := by
  rw [hu.calls, calls, rearms]
  split <;> rfl

theorem Alike.registerSlot {timeout : ℕ} (hu : Alike w u) :
    u.registerSlot now timeout = w.registerSlot now timeout := by
  unfold TimingWheel.registerSlot
  rw [hu.precision, hu.slotSize, hu.lastUpdate, hu.current]

/-- The calls of one callback. -/
theorem Sweeping.rearm (S : Sweeping u L n p rest) (hu : Alike w u) (ha : MayRearm w now L rest rs) :
    Sweeping ((rs.map fun r => Act.register r.item (r.clock % 0x100000000) r.timeout).foldl act u)
      (w.putAll L rs) n p rest := by
  induction rs generalizing u L with
  | nil => exact S
  | cons r rs ih =>
    obtain ⟨⟨hknown, hlists, hrest, -⟩, ha⟩ := ha
    have S' := S.register (r.clock % 0x100000000) r.timeout hlists hrest
      (hu.items.symm ▸ hknown)
    rw [hu.registerSlot] at S'
    exact ih S' (hu.trans registerTimer_alike) ha

/-- **The loop of `Active`** fires the items of the list. -/
theorem activeLoop_sweep {fuel : ℕ} (S : Sweeping u L n p rest) (hu : Alike w u)
    (hfuel : rest.length ≤ fuel) (ha : FiresMayRearm w now regs L rest) :
    ∃ u', activeLoop (callback (rearmActs regs)) fuel u rest.head? = .ok (u', rest) ∧
      Holds u' (w.fireAll regs L rest) ∧ Alike w u' := by
  induction rest generalizing u L p fuel with
  | nil =>
    refine ⟨u, ?_, S.done, hu⟩
    cases fuel <;> rfl
  | cons x rest ih =>
    obtain ⟨f, rfl⟩ : ∃ f, fuel = f + 1 := ⟨fuel - 1, by simp at hfuel; omega⟩
    obtain ⟨hx, ha⟩ := ha
    have S' := S.takeOff.rearm (hu.trans takeOff_alike) hx
    obtain ⟨u', hloop, H, hu'⟩ := ih S' ((hu.trans takeOff_alike).trans (acts_alike _))
      (by simpa using hfuel) ha
    refine ⟨u', ?_, H, hu'⟩
    rw [List.head?_cons, activeLoop_some, S.head_next, calls_rearmActs hu, hloop, Exec.ok_bind]

/-- **The loop of `UpdateWheel`** does to the lists what `sweep` does. -/
theorem updateLoop_sweep (H : Holds u L) (hu : Alike w u) (hsize : 0 < w.slotSize)
    (ha : SweepMayRearm w now regs r i L) :
    ∃ u', updateLoop (callback (rearmActs regs)) r i u = .ok (u', (w.sweep regs r i L).1) ∧
      Holds u' (w.sweep regs r i L).2 ∧ Alike w u' := by
  induction r generalizing u L i with
  | zero => exact ⟨u, rfl, H, hu⟩
  | succ r ih =>
    obtain ⟨hround, ha⟩ := ha
    have hslot : add32 u.current i % u.slotSize = w.roundSlot i := by
      rw [hu.current, hu.slotSize, roundSlot]
    have hn : w.roundSlot i < u.slotSize := hu.slotSize.symm ▸ Nat.mod_lt _ hsize
    obtain ⟨u₁, hloop, H₁, hu₁⟩ := activeLoop_sweep (H.sweeping hn) (hu.trans setSlot_alike)
      (H.length_le _) hround
    obtain ⟨u₂, hloop₂, H₂, hu₂⟩ := ih H₁ hu₁ ha
    refine ⟨u₂, ?_, H₂, hu₂⟩
    have hactive : active (callback (rearmActs regs)) u (w.roundSlot i) =
        .ok (u₁, L (w.roundSlot i)) := by
      rw [active, H.head hn]
      exact hloop
    rw [updateLoop, hslot, hactive, Exec.ok_bind]
    dsimp only
    rw [hloop₂, Exec.ok_bind]
    rfl

/-! ## What a series of rounds fires -/

/-- The items that the callback of an item registers. -/
def registered (w : TimingWheel) (regs : ℕ → List Rearm) (x : ℕ) : List ℕ :=
  ((w.rearms regs x).filter fun r => (w.rearmSlot r).isSome).map Rearm.item

theorem mem_registered :
    y ∈ w.registered regs x ↔ ∃ r ∈ w.rearms regs x, (∃ m, w.rearmSlot r = some m) ∧ r.item = y := by
  simp only [registered, List.mem_map, List.mem_filter, Option.isSome_iff_exists, and_assoc]

theorem mem_putAll : y ∈ w.putAll L rs m ↔
    (∃ r ∈ rs, w.rearmSlot r = some m ∧ r.item = y) ∨ y ∈ L m := by
  induction rs generalizing L with
  | nil => simp [putAll]
  | cons r rs ih =>
    change y ∈ w.putAll (putIn L (w.rearmSlot r) r.item) rs m ↔ _
    have hfirst : y ∈ putIn L (w.rearmSlot r) r.item m ↔
        w.rearmSlot r = some m ∧ r.item = y ∨ y ∈ L m := by
      cases hr : w.rearmSlot r with
      | none => simp [putIn]
      | some k => rw [mem_putIn, Option.some.injEq, eq_comm, eq_comm (a := y)]
    rw [ih, hfirst, List.exists_mem_cons_iff, or_left_comm, or_assoc]

theorem putAll_of_ne (h : ∀ r ∈ rs, w.rearmSlot r ≠ some m) : w.putAll L rs m = L m := by
  induction rs generalizing L with
  | nil => rfl
  | cons r rs ih =>
    obtain ⟨hr, h⟩ := List.forall_mem_cons.mp h
    refine (ih h).trans ?_
    change putIn L (w.rearmSlot r) r.item m = L m
    cases hk : w.rearmSlot r with
    | none => rfl
    | some k =>
      refine Function.update_of_ne ?_ _ _
      rintro rfl
      exact hr hk

theorem mem_fireAll : y ∈ w.fireAll regs L l m ↔
    (∃ x ∈ l, ∃ r ∈ w.rearms regs x, w.rearmSlot r = some m ∧ r.item = y) ∨ y ∈ L m := by
  induction l generalizing L with
  | nil => simp [fireAll]
  | cons x l ih =>
    change y ∈ w.fireAll regs (w.putAll L (w.rearms regs x)) l m ↔ _
    rw [ih, mem_putAll, List.exists_mem_cons_iff, or_left_comm, or_assoc]

theorem fireAll_of_ne (h : ∀ x ∈ l, ∀ r ∈ w.rearms regs x, w.rearmSlot r ≠ some m) :
    w.fireAll regs L l m = L m := by
  induction l generalizing L with
  | nil => rfl
  | cons x l ih =>
    obtain ⟨hx, h⟩ := List.forall_mem_cons.mp h
    exact (ih h).trans (putAll_of_ne hx)

/-- An item of another slot is still there after a round. -/
theorem mem_next_round (hx : x ∈ L m) (hmn : m ≠ n) :
    x ∈ w.fireAll regs (Function.update L n []) l m := by
  refine mem_fireAll.mpr (.inr ?_)
  rwa [Function.update_of_ne hmn]

/-- An item in the slot of a later round fires. -/
theorem sweep_fires (hx : x ∈ L (w.roundSlot j)) (hij : i ≤ j) (hj : j < i + r) :
    x ∈ (w.sweep regs r i L).1 := by
  induction r generalizing L i with
  | zero => omega
  | succ r ih =>
    by_cases hxi : x ∈ L (w.roundSlot i)
    · exact List.mem_append_left _ hxi
    · have hslots : w.roundSlot j ≠ w.roundSlot i := fun h => hxi (h ▸ hx)
      have hne : i ≠ j := by
        rintro rfl
        exact hslots rfl
      exact List.mem_append_right _ (ih (mem_next_round hx hslots) (by omega) (by omega))

/-- An item fires after it has been registered, if it goes into the slot of a later round. -/
theorem sweep_not_pairwise {k : ℕ} {a : Rearm} (hx : x ∈ L (w.roundSlot k)) (hik : i ≤ k)
    (ha : a ∈ w.rearms regs x) (hslot : w.rearmSlot a = some (w.roundSlot j)) (hkj : k < j)
    (hj : j < i + r) : ¬ (w.sweep regs r i L).1.Pairwise fun x y => y ∉ w.registered regs x := by
  induction r generalizing L i with
  | zero => omega
  | succ r ih =>
    intro hpair
    obtain ⟨-, hpair, hcross⟩ := List.pairwise_append.mp hpair
    by_cases hxi : x ∈ L (w.roundSlot i)
    · refine hcross x hxi a.item ?_ (mem_registered.mpr ⟨a, ha, ⟨_, hslot⟩, rfl⟩)
      refine sweep_fires (j := j) (mem_fireAll.mpr (.inl ⟨x, hxi, a, ha, hslot, rfl⟩)) ?_ ?_
      · omega
      · omega
    · have hslots : w.roundSlot k ≠ w.roundSlot i := fun h => hxi (h ▸ hx)
      have hne : i ≠ k := by
        rintro rfl
        exact hslots rfl
      exact ih (mem_next_round hx hslots) (by omega) (by omega) hpair

/-- The items of the slots of a series of rounds. -/
def swept (w : TimingWheel) : ℕ → ℕ → (ℕ → List ℕ) → List ℕ
  | 0, _, _ => []
  | r + 1, i, M => M (w.roundSlot i) ++ w.swept r (i + 1) (Function.update M (w.roundSlot i) [])

theorem mem_of_mem_swept (hx : x ∈ w.swept r i M) : ∃ j, (i ≤ j ∧ j < i + r) ∧ x ∈ M (w.roundSlot j) := by
  induction r generalizing M i with
  | zero => cases hx
  | succ r ih =>
    rcases List.mem_append.mp hx with hx | hx
    · exact ⟨i, by omega, hx⟩
    · obtain ⟨j, hj, hx⟩ := ih hx
      refine ⟨j, by omega, ?_⟩
      by_cases hslots : w.roundSlot j = w.roundSlot i
      · rw [hslots, Function.update_self] at hx
        cases hx
      · rwa [Function.update_of_ne hslots] at hx

theorem swept_nodup (hnodup : ∀ n, (M n).Nodup) (hapart : ∀ m n x, x ∈ M m → x ∈ M n → m = n) :
    (w.swept r i M).Nodup := by
  induction r generalizing M i with
  | zero => exact List.nodup_nil
  | succ r ih =>
    have hmem : ∀ m x, x ∈ Function.update M (w.roundSlot i) [] m → m ≠ w.roundSlot i ∧ x ∈ M m := by
      intro m x hx
      by_cases hm : m = w.roundSlot i
      · rw [hm, Function.update_self] at hx
        cases hx
      · rw [Function.update_of_ne hm] at hx
        exact ⟨hm, hx⟩
    refine List.nodup_append.mpr ⟨hnodup _, ih (fun n => ?_) fun m n x hx hx' => ?_, ?_⟩
    · by_cases hn : n = w.roundSlot i
      · rw [hn, Function.update_self]
        exact List.nodup_nil
      · rw [Function.update_of_ne hn]
        exact hnodup n
    · exact hapart m n x (hmem m x hx).2 (hmem n x hx').2
    · rintro x hx y hy rfl
      obtain ⟨j, -, hy⟩ := mem_of_mem_swept hy
      obtain ⟨hne, hy⟩ := hmem _ _ hy
      exact hne (hapart _ _ x hy hx)

/-- Nothing is registered for the slot of a later round. -/
def Calm (w : TimingWheel) (regs : ℕ → List Rearm) (r i : ℕ) (M : ℕ → List ℕ) : Prop :=
  ∀ k, i ≤ k → ∀ x ∈ M (w.roundSlot k), ∀ a ∈ w.rearms regs x, ∀ j, k < j → j < i + r →
    w.rearmSlot a ≠ some (w.roundSlot j)

theorem Calm.later (hcalm : Calm w regs (r + 1) i M) :
    Calm w regs r (i + 1) (Function.update M (w.roundSlot i) []) := by
  intro k hk x hx a ha j hkj hj
  refine hcalm k (by omega) x ?_ a ha j hkj (by omega)
  by_cases hslots : w.roundSlot k = w.roundSlot i
  · rw [hslots, Function.update_self] at hx
    cases hx
  · rwa [Function.update_of_ne hslots] at hx

/-- The lists of the later rounds after a round that registers nothing for them. -/
theorem Calm.next (hcalm : Calm w regs (r + 1) i M)
    (hsame : ∀ j, i ≤ j → j < i + (r + 1) → L (w.roundSlot j) = M (w.roundSlot j)) :
    ∀ j, i + 1 ≤ j → j < i + 1 + r →
      w.fireAll regs (Function.update L (w.roundSlot i) []) (L (w.roundSlot i)) (w.roundSlot j) =
        Function.update M (w.roundSlot i) [] (w.roundSlot j) := by
  intro j hij hj
  rw [fireAll_of_ne]
  · by_cases hslots : w.roundSlot j = w.roundSlot i
    · rw [hslots, Function.update_self, Function.update_self]
    · rw [Function.update_of_ne hslots, Function.update_of_ne hslots]
      exact hsame j (by omega) (by omega)
  · intro x hx a ha
    rw [hsame i (Nat.le_refl i) (by omega)] at hx
    exact hcalm i (Nat.le_refl i) x hx a ha j (by omega) (by omega)

/-- A series of rounds that registers nothing for its later ones fires what is there. -/
theorem sweep_eq_swept (hcalm : Calm w regs r i M)
    (hsame : ∀ j, i ≤ j → j < i + r → L (w.roundSlot j) = M (w.roundSlot j)) :
    (w.sweep regs r i L).1 = w.swept r i M := by
  induction r generalizing L M i with
  | zero => rfl
  | succ r ih =>
    have hrest := ih hcalm.later (hcalm.next hsame)
    rw [sweep, swept]
    dsimp only
    rw [hrest, hsame i (Nat.le_refl i) (by omega)]

/-! ## What the callbacks may do -/

theorem MayRearm.spec {a : Rearm} (hmay : MayRearm w now L rest rs) (ha : a ∈ rs) :
    (∀ n, a.item ∉ L n) ∧ a.item ∉ rest ∧
      sub32 now w.lastUpdate ≤ sub32 a.clock w.lastUpdate ∧
      sub32 a.clock w.lastUpdate + a.timeout < 0x100000000 := by
  induction rs generalizing L with
  | nil => cases ha
  | cons r rs ih =>
    obtain ⟨⟨-, hlists, hrest, hclock⟩, hmay⟩ := hmay
    rcases List.mem_cons.mp ha with rfl | ha
    · exact ⟨hlists, hrest, hclock⟩
    · obtain ⟨hlists', hspec⟩ := ih hmay ha
      refine ⟨fun n hn => hlists' n ?_, hspec⟩
      exact (show a.item ∈ w.putAll L [r] n from mem_putAll.mpr (.inr hn))

theorem FiresMayRearm.spec {a : Rearm} (hmay : FiresMayRearm w now regs L l) (hx : x ∈ l)
    (ha : a ∈ w.rearms regs x) : (∀ n, a.item ∉ L n) ∧
      sub32 now w.lastUpdate ≤ sub32 a.clock w.lastUpdate ∧
      sub32 a.clock w.lastUpdate + a.timeout < 0x100000000 := by
  induction l generalizing L with
  | nil => cases hx
  | cons z l ih =>
    obtain ⟨hz, hmay⟩ := hmay
    rcases List.mem_cons.mp hx with rfl | hx
    · obtain ⟨hlists, -, hclock⟩ := hz.spec ha
      exact ⟨hlists, hclock⟩
    · obtain ⟨hlists, hclock⟩ := ih hmay hx
      exact ⟨fun n hn => hlists n (mem_putAll.mpr (.inr hn)), hclock⟩

/-- No item of the list is registered before it fires. -/
theorem FiresMayRearm.pairwise (hmay : FiresMayRearm w now regs L l) :
    l.Pairwise fun x y => y ∉ w.registered regs x := by
  induction l generalizing L with
  | nil => exact List.Pairwise.nil
  | cons z l ih =>
    obtain ⟨hz, hmay⟩ := hmay
    refine List.pairwise_cons.mpr ⟨fun y hy hreg => ?_, ih hmay⟩
    obtain ⟨a, ha, -, rfl⟩ := mem_registered.mp hreg
    exact (hz.spec ha).2.1 hy

/-- The clocks and timeouts of the callbacks of a series of rounds. -/
theorem SweepMayRearm.clock {a : Rearm} (hmay : SweepMayRearm w now regs r i L)
    (hx : x ∈ L (w.roundSlot j)) (hij : i ≤ j) (hj : j < i + r) (ha : a ∈ w.rearms regs x) :
    sub32 now w.lastUpdate ≤ sub32 a.clock w.lastUpdate ∧
      sub32 a.clock w.lastUpdate + a.timeout < 0x100000000 := by
  induction r generalizing L i with
  | zero => omega
  | succ r ih =>
    obtain ⟨hround, hmay⟩ := hmay
    by_cases hxi : x ∈ L (w.roundSlot i)
    · exact (hround.spec hxi ha).2
    · have hslots : w.roundSlot j ≠ w.roundSlot i := fun h => hxi (h ▸ hx)
      have hne : i ≠ j := by
        rintro rfl
        exact hslots rfl
      exact ih hmay (mem_next_round hx hslots) (by omega) (by omega)

/-- Nothing fires after it has been registered. -/
theorem SweepMayRearm.pairwise (hmay : SweepMayRearm w now regs r i L) (hcalm : Calm w regs r i M)
    (hsame : ∀ j, i ≤ j → j < i + r → L (w.roundSlot j) = M (w.roundSlot j)) :
    (w.sweep regs r i L).1.Pairwise fun x y => y ∉ w.registered regs x := by
  induction r generalizing L M i with
  | zero => exact List.Pairwise.nil
  | succ r ih =>
    obtain ⟨hround, hmay⟩ := hmay
    refine List.pairwise_append.mpr
      ⟨hround.pairwise, ih hmay hcalm.later (hcalm.next hsame), fun x hx y hy hreg => ?_⟩
    obtain ⟨a, ha, -, rfl⟩ := mem_registered.mp hreg
    -- the item was there when the round began
    rw [sweep_eq_swept hcalm.later (hcalm.next hsame)] at hy
    obtain ⟨j, hj, hy⟩ := mem_of_mem_swept hy
    refine (hround.spec hx ha).1 (w.roundSlot j) ?_
    by_cases hslots : w.roundSlot j = w.roundSlot i
    · rw [hslots, Function.update_self] at hy
      cases hy
    · rw [Function.update_of_ne hslots] at hy ⊢
      rwa [hsame j (by omega) (by omega)]

/-! ## Sums that wrap -/

/-- The number of places from `current` to the slot of the item's deadline. -/
def ahead (w : TimingWheel) (r : Rearm) : ℕ :=
  w.places (w.lastUpdate + sub32 r.clock w.lastUpdate) r.timeout

/-- The slot `n` places after `current` comes out as the slot of the round `j`, since its sum wraps. -/
def Revisits (w : TimingWheel) (n j : ℕ) : Prop :=
  n < w.slotSize ∧ w.current + j < 0x100000000 ∧ 0x100000000 ≤ w.current + n ∧
    n + w.slotSize = j + 0x100000000

theorem rearmSlot_eq {a : Rearm} (hw : Sized w)
    (hsum : sub32 a.clock w.lastUpdate + a.timeout < 0x100000000) : w.rearmSlot a =
      if w.slotSize ≤ w.ahead a then none else some (add32 w.current (w.ahead a) % w.slotSize) := by
  have hmax : (if a.timeout < w.precision then w.precision else a.timeout) =
      max a.timeout w.precision := by
    split <;> omega
  have hdelay : sub32 (sub32 (add32 (a.clock % 0x100000000) (max a.timeout w.precision))
      w.lastUpdate) w.precision = w.delay (w.lastUpdate + sub32 a.clock w.lastUpdate) a.timeout := by
    have := hw.precision_lt
    have := hw.lastUpdate
    unfold delay
    unfold sub32 at hsum ⊢
    unfold add32
    omega
  rw [rearmSlot, registerSlot, hmax, hdelay]
  rfl

/-- An item registered in a call goes as many places ahead as the call has rounds. -/
theorem rounds_le_ahead {a : Rearm}
    (hclock : sub32 now w.lastUpdate ≤ sub32 a.clock w.lastUpdate) : w.rounds now ≤ w.ahead a := by
  refine (Nat.min_le_left _ _).trans (Nat.div_le_div_right ?_)
  unfold delay
  omega

/-- A number of less than two turns of the wheel. -/
theorem mod_of_lt_twice {v s : ℕ} (hv : v < 2 * s) : v % s = if v < s then v else v - s := by
  split
  · exact Nat.mod_eq_of_lt ‹_›
  · rw [Nat.mod_eq_sub_mod (by omega), Nat.mod_eq_of_lt (by omega)]

theorem rearmSlot_eq_roundSlot_iff {a : Rearm} (hw : Sized w) (hsize : 0 < w.slotSize)
    (hclock : sub32 now w.lastUpdate ≤ sub32 a.clock w.lastUpdate)
    (hsum : sub32 a.clock w.lastUpdate + a.timeout < 0x100000000) (hj : j < w.rounds now) :
    w.rearmSlot a = some (w.roundSlot j) ↔ w.Revisits (w.ahead a) j := by
  have hahead : j < w.ahead a := hj.trans_le (rounds_le_ahead hclock)
  have hcurrent : w.current < w.slotSize := hw.current.resolve_left hsize.ne'
  have hword := hw.slotSize_lt
  rw [rearmSlot_eq hw hsum]
  by_cases hout : w.slotSize ≤ w.ahead a
  · rw [if_pos hout]
    exact iff_of_false (fun h => by cases h) fun h => absurd hout (Nat.not_le.mpr h.1)
  · rw [if_neg hout, Option.some.injEq, roundSlot, mod_of_lt_twice, mod_of_lt_twice]
    · unfold Revisits add32
      split <;> split <;> omega
    · unfold add32
      omega
    · unfold add32
      omega

/-- No sum wraps on a wheel of half the words. -/
theorem not_revisits (hw : Sized w) (hslots : w.slotSize ≤ 0x80000000) : ¬ w.Revisits n j := by
  rintro ⟨hn, -, hwrap, -⟩
  have := hw.current
  omega

/-! ## Re-arming -/

/-- The call returns, every item of a covered slot is fired once, and no item is fired after the
call has registered it. -/
def RearmSafe (w : TimingWheel) (L : ℕ → List ℕ) (now : ℕ) (regs : ℕ → List Rearm) : Prop :=
  ∃ w' fired r, w.updateWheel (callback (rearmActs regs)) now = .ok (w', fired, r) ∧
    (∀ n ∈ w.covered now, ∀ x ∈ L n, fired.count x = 1) ∧
    fired.Pairwise fun x y => y ∉ w.registered regs x

/-- **A call of `UpdateWheel`** at least a tick after the last one does to the lists what `sweep`
does. -/
theorem updateWheel_sweep_of_tick (hsize : 0 < w.slotSize) (H : Holds w L)
    (hmay : SweepMayRearm w now regs (w.rounds now) 0 L)
    (htick : w.precision ≤ sub32 now w.lastUpdate) :
    ∃ u, w.updateWheel (callback (rearmActs regs)) now =
      .ok ({ u with current := add32 w.current (w.rounds now) % w.slotSize, lastUpdate := now },
        (w.sweep regs (w.rounds now) 0 L).1, 0) ∧
      Holds u (w.sweep regs (w.rounds now) 0 L).2 ∧ Alike w u := by
  obtain ⟨u, hloop, H', hu⟩ := updateLoop_sweep H (.refl w) hsize hmay
  refine ⟨u, ?_, H', hu⟩
  rw [updateWheel_of_tick htick, hloop, Exec.ok_bind]
  dsimp only
  rw [hu.slotSize, hu.current, if_neg (by omega)]

/-- **A call of `UpdateWheel`** does to the lists what `sweep` does. -/
theorem updateWheel_sweep (hsize : 0 < w.slotSize) (H : Holds w L)
    (hmay : SweepMayRearm w now regs (w.rounds now) 0 L) :
    ∃ w' r, w.updateWheel (callback (rearmActs regs)) now =
      .ok (w', (w.sweep regs (w.rounds now) 0 L).1, r) ∧
      Holds w' (w.sweep regs (w.rounds now) 0 L).2 := by
  by_cases htick : sub32 now w.lastUpdate < w.precision
  · rw [rounds_of_no_tick htick]
    exact ⟨w, -1, updateWheel_of_no_tick htick, H⟩
  · obtain ⟨u, hresult, H', -⟩ := updateWheel_sweep_of_tick hsize H hmay (Nat.not_lt.mp htick)
    exact ⟨_, 0, hresult, H'.congr rfl rfl rfl rfl⟩

/-- **Re-arming is safe** exactly if no callback registers an item whose slot comes out as that of a
later round. -/
theorem rearmSafe_iff (hw : Sized w) (hsize : 1 ≤ w.slotSize) (H : Holds w L)
    (hmay : SweepMayRearm w now regs (w.rounds now) 0 L) :
    RearmSafe w L now regs ↔ ∀ i < w.rounds now, ∀ x ∈ L (w.roundSlot i), ∀ a ∈ w.rearms regs x,
      ∀ j, i < j → j < w.rounds now → ¬ w.Revisits (w.ahead a) j := by
  obtain ⟨w', r, hresult, -⟩ := updateWheel_sweep hsize H hmay
  have hslot : ∀ i < w.rounds now, ∀ x ∈ L (w.roundSlot i), ∀ a ∈ w.rearms regs x,
      ∀ j < w.rounds now, w.rearmSlot a = some (w.roundSlot j) ↔ w.Revisits (w.ahead a) j := by
    intro i hi x hx a ha j hj
    obtain ⟨hclock, hsum⟩ := hmay.clock hx (Nat.zero_le i) (by omega) ha
    exact rearmSlot_eq_roundSlot_iff hw hsize hclock hsum hj
  constructor
  · rintro ⟨u, fired, r', h, -, hpair⟩ i hi x hx a ha j hij hj hrev
    obtain ⟨-, h⟩ := Prod.mk.inj (Except.ok.inj (hresult.symm.trans h))
    obtain ⟨rfl, -⟩ := Prod.mk.inj h
    exact sweep_not_pairwise hx (Nat.zero_le i) ha ((hslot i hi x hx a ha j hj).mpr hrev) hij
      (by omega) hpair
  · intro h
    have hcalm : Calm w regs (w.rounds now) 0 L := by
      intro k _ x hx a ha j hkj hj hregister
      rw [Nat.zero_add] at hj
      exact h k (by omega) x hx a ha j hkj hj ((hslot k (by omega) x hx a ha j hj).mp hregister)
    have hsame : ∀ j, 0 ≤ j → j < 0 + w.rounds now → L (w.roundSlot j) = L (w.roundSlot j) :=
      fun _ _ _ => rfl
    refine ⟨w', _, r, hresult, fun n hn x hx => ?_, hmay.pairwise hcalm hsame⟩
    obtain ⟨i, hi, rfl⟩ := mem_covered.mp hn
    refine List.count_eq_one_of_mem ?_ (sweep_fires hx (Nat.zero_le i) (by omega))
    rw [sweep_eq_swept hcalm hsame]
    exact swept_nodup H.nodup H.apart

/-- A wheel with one item in its first slot. -/
def oneItem : TimingWheel :=
  TimingWheel.add ⟨10, 10, 0, 0, fun _ => none, 1, fun _ => createWheelItem true⟩ 0 0

theorem holds_one {w : TimingWheel} (hslot : ∀ n, w.slot n = none)
    (hitem : ∀ x, w.item x = createWheelItem true) (hitems : 0 < w.items) (hn : n < w.slotSize) :
    Holds (w.add n 0) (putIn (fun _ => []) (some n) 0) := by
  refine Holds.add (holds_empty (fun n _ => hslot n) (fun x => ?_) fun x => ?_)
    (fun m => List.not_mem_nil) hitems hn
  · rw [hitem x]
    rfl
  · rw [hitem x]
    rfl

theorem putIn_update : Function.update (putIn (fun _ => []) (some n) x) n [] = fun _ => [] := by
  funext m
  by_cases hm : m = n
  · subst hm
    exact Function.update_self ..
  · simp [putIn, hm]

/-- The item is registered again for the next tick. -/
theorem rearmSafe_oneItem :
    RearmSafe oneItem (putIn (fun _ => []) (some 0) 0) 10 fun _ => [⟨0, 10, 10⟩] := by
  have hw : Sized oneItem :=
    Sized.alike ⟨by decide, by decide, by decide, by decide, by decide⟩ add_alike
  refine (rearmSafe_iff hw (by decide) (holds_one (fun _ => rfl) (fun _ => rfl) (by decide)
    (by decide)) ?_).mpr fun i _ x _ a _ j _ _ => not_revisits hw (by decide)
  refine (show SweepMayRearm oneItem 10 (fun _ => [⟨0, 10, 10⟩]) 1 0 _ from ⟨?_, trivial⟩)
  have hslot : oneItem.roundSlot 0 = 0 := by decide
  rw [hslot, putIn_update]
  exact ⟨⟨⟨by decide, fun n => List.not_mem_nil, by decide, by decide, by decide⟩, trivial⟩, trivial⟩

/-- A wheel of almost all words, some time after it was made, with one item in its last slot. -/
def lastSlots : TimingWheel :=
  TimingWheel.add ⟨1, 0xffffffff, 0xfffffffe, 0xfffffffe, fun _ => none, 1,
    fun _ => createWheelItem true⟩ 0xfffffffe 0

/-- The item is registered again for the next tick, and fires twice. -/
theorem not_rearmSafe_lastSlots : Sized lastSlots ∧
    Holds lastSlots (putIn (fun _ => []) (some 0xfffffffe) 0) ∧
    SweepMayRearm lastSlots 0 (fun _ => [⟨0, 0, 1⟩]) (lastSlots.rounds 0) 0
      (putIn (fun _ => []) (some 0xfffffffe) 0) ∧
    (updateWheel (callback (rearmActs fun _ => [⟨0, 0, 1⟩])) lastSlots 0).map (fun q => q.2) =
      .ok ([0, 0], 0) ∧
    ¬ RearmSafe lastSlots (putIn (fun _ => []) (some 0xfffffffe) 0) 0 fun _ => [⟨0, 0, 1⟩] := by
  have hfired : (updateWheel (callback (rearmActs fun _ => [⟨0, 0, 1⟩])) lastSlots 0).map
      (fun q => q.2) = .ok ([0, 0], 0) := by
    decide +kernel
  have hw : Sized lastSlots :=
    Sized.alike ⟨by decide, by decide, by decide, by decide, by decide⟩ add_alike
  refine ⟨hw, holds_one (fun _ => rfl) (fun _ => rfl) (by decide) (by decide), ?_, hfired, ?_⟩
  · have hrounds : lastSlots.rounds 0 = 2 := by decide +kernel
    rw [hrounds]
    have hfirst : lastSlots.roundSlot 0 = 0xfffffffe := by decide +kernel
    have hsecond : lastSlots.roundSlot 1 = 0 := by decide +kernel
    have hslot : lastSlots.rearmSlot ⟨0, 0, 1⟩ = some 0 := by decide +kernel
    have hmay : FiresMayRearm lastSlots 0 (fun _ => [⟨0, 0, 1⟩]) (fun _ => []) [0] :=
      ⟨⟨⟨by decide, fun n => List.not_mem_nil, by decide, by decide, by decide⟩, trivial⟩, trivial⟩
    have hlist : putIn (fun _ => []) (some 0xfffffffe) 0 0xfffffffe = [0] := by decide +kernel
    have hnext : lastSlots.fireAll (fun _ => [⟨0, 0, 1⟩]) (fun _ => []) [0] =
        putIn (fun _ => []) (some 0) 0 := by
      change putIn (fun _ => []) (lastSlots.rearmSlot ⟨0, 0, 1⟩) 0 = _
      rw [hslot]
    unfold SweepMayRearm
    rw [hfirst, putIn_update, hlist, hnext]
    unfold SweepMayRearm
    rw [hsecond, putIn_update]
    exact ⟨hmay, hmay, trivial⟩
  · rintro ⟨w', fired, r, h, -, hpair⟩
    rw [h] at hfired
    obtain ⟨rfl, -⟩ := Prod.mk.inj (Except.ok.inj hfired)
    refine (List.pairwise_cons.mp hpair).1 0 List.mem_cons_self ?_
    decide +kernel

end Kendylib.TimingWheel
