import Kendylib.Foundations.Run
import Kendylib.Timer.TimerRearm

/-!
# The record of a run

Runs of the wheel with clock readings that are not words: the time of the last update and of the last
call of `UpdateWheel`, what each item has been registered for, and a log of the callbacks, with what
their items were registered for at the time.

An item `k` places after `current` fires in the round `k` of a call that has so many. Its place is
kept in step with its deadline (`Timed.Kept`) as long as no sum with `current` wraps and the items
that are unregistered have a `slot` that says where they are.
-/

namespace Kendylib.TimingWheel

/-- What an item has been registered for: the clock reading and the effective timeout. -/
structure Due where
  start : ℕ
  timeout : ℕ
  deriving DecidableEq

/-- A callback that has run, in the call `UpdateWheel(time)`. -/
structure Firing where
  item : ℕ
  time : ℕ
  due : Option Due
  deriving DecidableEq

/-- A wheel and its past. -/
structure Timed where
  wheel : TimingWheel
  lastUpdate : ℕ
  called : ℕ
  due : ℕ → Option Due
  log : List Firing

/-- A call on the wheel. -/
inductive TimedOp
  | register (a : Rearm)
  | unregister (x : ℕ)
  | update (now : ℕ) (regs : ℕ → List Rearm)

variable {w w' : TimingWheel} {L M : ℕ → List ℕ} {x y n m now i j k r : ℕ} {regs : ℕ → List Rearm}
  {rs : List Rearm} {rest l : List ℕ} {due : ℕ → Option Due} {Q Q' : ℕ → ℕ → Due → Prop} {a : Rearm}

/-! ## Runs with clocks -/

def dueOf (w : TimingWheel) (a : Rearm) : Due := ⟨a.clock, max a.timeout w.precision⟩

/-- What the items are registered for after a call of `RegisterTimer` in a callback. -/
def record (w : TimingWheel) (due : ℕ → Option Due) (a : Rearm) : ℕ → Option Due :=
  if (w.rearmSlot a).isSome then Function.update due a.item (some (w.dueOf a)) else due

/-- What the items are registered for after an item has fired. -/
def recordFire (w : TimingWheel) (regs : ℕ → List Rearm) (due : ℕ → Option Due) (x : ℕ) :
    ℕ → Option Due :=
  (w.rearms regs x).foldl w.record (Function.update due x none)

/-- The callbacks of these items. -/
def firings (w : TimingWheel) (regs : ℕ → List Rearm) (now : ℕ) :
    (ℕ → Option Due) → List ℕ → List Firing
  | _, [] => []
  | due, x :: l => ⟨x, now, due x⟩ :: w.firings regs now (w.recordFire regs due x) l

/-- The code sees the clock readings as words. -/
def Timed.step (s : Timed) : TimedOp → Exec Timed
  | .register a =>
    let (w, result) := s.wheel.registerTimer a.item (a.clock % 0x100000000) a.timeout
    .ok { s with
      wheel := w
      due := if result = 0 then Function.update s.due a.item (some (s.wheel.dueOf a)) else s.due }
  | .unregister x =>
    .ok { s with wheel := s.wheel.unRegisterTimer x, due := Function.update s.due x none }
  | .update now regs => do
    let (w, fired, result) ←
      s.wheel.updateWheel (callback (rearmActs regs)) (now % 0x100000000)
    return {
      wheel := w
      lastUpdate := if result = 0 then now else s.lastUpdate
      called := now
      due := fired.foldl (s.wheel.recordFire regs) s.due
      log := s.log ++ s.wheel.firings regs now s.due fired }

/-- The clock reading is not before `now`, and the timeout ends before a word, counted from the last
update, comes to its end. -/
def Timed.Counts (s : Timed) (now : ℕ) (a : Rearm) : Prop :=
  now ≤ a.clock ∧ a.clock - s.lastUpdate + a.timeout < 0x100000000

/-- Items are registered when they are not, and unregistered when they are, and the clock does not go
back. -/
def Timed.Allowed (s : Timed) : TimedOp → Prop
  | .register a => a.item < s.wheel.items ∧ s.due a.item = none ∧ s.Counts s.lastUpdate a
  | .unregister x => s.due x ≠ none
  | .update now regs => s.lastUpdate ≤ now ∧ now - s.lastUpdate < 0x100000000 ∧
    ∀ L, Holds s.wheel L →
      SweepMayRearm s.wheel (now % 0x100000000) regs (s.wheel.rounds (now % 0x100000000)) 0 L ∧
      ∀ i < s.wheel.rounds (now % 0x100000000), ∀ x ∈ L (s.wheel.roundSlot i),
        ∀ a ∈ s.wheel.rearms regs x, s.Counts now a

/-- The place of the item's slot does not wrap, if it has one. -/
def Unwrapped (w : TimingWheel) (a : Rearm) : Prop :=
  w.slotSize ≤ w.ahead a ∨ w.current + w.ahead a < 0x100000000

/-- No sum with `current` wraps, and the `slot` of an item that is unregistered is not negative. -/
def Timed.Unwrapped (s : Timed) : TimedOp → Prop
  | .register a => s.wheel.Unwrapped a
  | .unregister x => 0 ≤ (s.wheel.item x).slot
  | .update now regs => s.wheel.current + s.wheel.rounds (now % 0x100000000) < 0x100000000 ∧
    ∀ L, Holds s.wheel L → ∀ i < s.wheel.rounds (now % 0x100000000),
      ∀ x ∈ L (s.wheel.roundSlot i), ∀ a ∈ s.wheel.rearms regs x, s.wheel.Unwrapped a

/-! ## Places -/

/-- The number of places from `current` to a slot. -/
def place (w : TimingWheel) (n : ℕ) : ℕ := (n + w.slotSize - w.current) % w.slotSize

section Places

variable (hcurrent : w.current < w.slotSize)

include hcurrent

theorem place_lt : w.place n < w.slotSize := Nat.mod_lt _ (by omega)

theorem place_add (hk : k < w.slotSize) : w.place ((w.current + k) % w.slotSize) = k := by
  have hmod := mod_of_lt_twice (v := w.current + k) (s := w.slotSize) (by omega)
  rw [place, hmod]
  split
  · rw [show w.current + k + w.slotSize - w.current = k + w.slotSize by omega, Nat.add_mod_right,
      Nat.mod_eq_of_lt hk]
  · rw [show w.current + k - w.slotSize + w.slotSize - w.current = k by omega, Nat.mod_eq_of_lt hk]

theorem slot_of_place (hn : n < w.slotSize) : (w.current + w.place n) % w.slotSize = n := by
  have hmod := mod_of_lt_twice (v := n + w.slotSize - w.current) (s := w.slotSize) (by omega)
  rw [place, hmod, mod_of_lt_twice]
  · split <;> split <;> omega
  · split <;> omega

/-- The places after the wheel has been turned. -/
theorem place_turned (hn : n < w.slotSize) (hk : k ≤ w.place n) (hsize : w'.slotSize = w.slotSize)
    (hturned : w'.current = (w.current + k) % w.slotSize) : w'.place n = w.place n - k := by
  have hlt : w.place n < w.slotSize := place_lt hcurrent
  have hcurrent' : w'.current < w'.slotSize := by
    rw [hturned, hsize]
    exact Nat.mod_lt _ (by omega)
  have hslot : (w'.current + (w.place n - k)) % w'.slotSize = n := by
    rw [hturned, hsize, Nat.mod_add_mod, show w.current + k + (w.place n - k) = w.current + w.place n by
      omega]
    exact slot_of_place hcurrent hn
  have hplace := place_add (k := w.place n - k) hcurrent' (by omega)
  rwa [hslot] at hplace

end Places

theorem roundSlot_of_lt (h : w.current + i < 0x100000000) :
    w.roundSlot i = (w.current + i) % w.slotSize := by
  rw [roundSlot, add32_of_lt h]

/-! ## The record while a call runs -/

/-- The record has entries for the items of the lists, and the entries of the items of `L` are as `Q`
says; the items `rest` are still to be taken off. -/
structure Recorded (L : ℕ → List ℕ) (rest : List ℕ) (due : ℕ → Option Due)
    (Q : ℕ → ℕ → Due → Prop) : Prop where
  registered : ∀ x, (∃ d, due x = some d) ↔ x ∈ rest ∨ ∃ n, x ∈ L n
  entry : ∀ n, ∀ x ∈ L n, ∀ d, due x = some d → Q n x d

theorem Recorded.mono (R : Recorded L rest due Q)
    (h : ∀ n, ∀ x ∈ L n, ∀ d, due x = some d → Q n x d → Q' n x d) : Recorded L rest due Q' :=
  ⟨R.registered, fun n x hx d hd => h n x hx d hd (R.entry n x hx d hd)⟩

/-- An item that is in no list is registered. -/
theorem Recorded.putIn (R : Recorded L rest due Q) (hlists : ∀ n, a.item ∉ L n)
    (hrest : a.item ∉ rest) (hQ : ∀ m, w.rearmSlot a = some m → Q m a.item (w.dueOf a)) :
    Recorded (putIn L (w.rearmSlot a) a.item) rest (w.record due a) Q ∧
      ∀ x ∈ rest, w.record due a x = due x := by
  cases hslot : w.rearmSlot a with
  | none =>
    rw [record, hslot]
    exact ⟨R, fun x _ => rfl⟩
  | some m =>
    have hrecord : w.record due a = Function.update due a.item (some (w.dueOf a)) := by
      rw [record, hslot]
      rfl
    have hother : ∀ x, x ≠ a.item → w.record due a x = due x := by
      intro x hx
      rw [hrecord, Function.update_of_ne hx]
    have hself : w.record due a a.item = some (w.dueOf a) := by
      rw [hrecord, Function.update_self]
    refine ⟨⟨fun x => ?_, fun n x hx d hd => ?_⟩, fun x hx => hother x fun h => hrest (h ▸ hx)⟩
    · by_cases hx : x = a.item
      · subst hx
        rw [hself]
        exact iff_of_true ⟨_, rfl⟩ (.inr ⟨m, mem_putIn.mpr (.inl ⟨rfl, rfl⟩)⟩)
      · rw [hother x hx, R.registered x]
        refine or_congr_right (exists_congr fun n => ?_)
        rw [mem_putIn, or_iff_right fun h => hx h.2]
    · rcases mem_putIn.mp hx with ⟨rfl, rfl⟩ | hx
      · rw [hself] at hd
        obtain rfl := Option.some.inj hd
        exact hQ n hslot
      · rw [hother x fun h => hlists n (h ▸ hx)] at hd
        exact R.entry n x hx d hd

/-- The calls of one callback. -/
theorem Recorded.rearm (R : Recorded L rest due Q) (hmay : MayRearm w now L rest rs)
    (hQ : ∀ a ∈ rs, ∀ m, w.rearmSlot a = some m → Q m a.item (w.dueOf a)) :
    Recorded (w.putAll L rs) rest (rs.foldl w.record due) Q ∧
      ∀ x ∈ rest, rs.foldl w.record due x = due x := by
  induction rs generalizing L due with
  | nil => exact ⟨R, fun x _ => rfl⟩
  | cons a rs ih =>
    obtain ⟨⟨-, hlists, hrest, -⟩, hmay⟩ := hmay
    obtain ⟨ha, hQ⟩ := List.forall_mem_cons.mp hQ
    obtain ⟨R₁, hsame₁⟩ := R.putIn hlists hrest ha
    obtain ⟨R₂, hsame₂⟩ := ih R₁ hmay hQ
    exact ⟨R₂, fun x hx => (hsame₂ x hx).trans (hsame₁ x hx)⟩

/-- The items of a list fire. Each has the entry still that it had when the list was taken off. -/
theorem Recorded.fires (R : Recorded L rest due Q) (hnodup : rest.Nodup)
    (hapart : ∀ x ∈ rest, ∀ n, x ∉ L n) (hmay : FiresMayRearm w now regs L rest)
    (hQ : ∀ x ∈ rest, ∀ a ∈ w.rearms regs x, ∀ m, w.rearmSlot a = some m → Q m a.item (w.dueOf a))
    (t : ℕ) : Recorded (w.fireAll regs L rest) [] (rest.foldl (w.recordFire regs) due) Q ∧
      w.firings regs t due rest = rest.map fun x => ⟨x, t, due x⟩ := by
  induction rest generalizing L due with
  | nil => exact ⟨R, rfl⟩
  | cons x rest ih =>
    obtain ⟨hx, hnodup⟩ := List.nodup_cons.mp hnodup
    obtain ⟨hxL, hapart⟩ := List.forall_mem_cons.mp hapart
    obtain ⟨hmayx, hmay⟩ := hmay
    obtain ⟨hQx, hQ⟩ := List.forall_mem_cons.mp hQ
    -- the item is taken off
    have R₀ : Recorded L rest (Function.update due x none) Q := by
      refine ⟨fun y => ?_, fun n y hy d hd => ?_⟩
      · by_cases hyx : y = x
        · subst hyx
          rw [Function.update_self]
          refine iff_of_false ?_ ?_
          · rintro ⟨d, hd⟩
            cases hd
          · rintro (h | ⟨n, h⟩)
            · exact hx h
            · exact hxL n h
        · rw [Function.update_of_ne hyx, R.registered y, List.mem_cons, or_iff_right hyx]
      · have hyx : y ≠ x := by
          rintro rfl
          exact hxL n hy
        rw [Function.update_of_ne hyx] at hd
        exact R.entry n y hy d hd
    obtain ⟨R₁, hsame⟩ := R₀.rearm hmayx hQx
    have hapart₁ : ∀ y ∈ rest, ∀ n, y ∉ w.putAll L (w.rearms regs x) n := by
      intro y hy n hyn
      rcases mem_putAll.mp hyn with ⟨a, ha, -, rfl⟩ | hyn
      · exact (hmayx.spec ha).2.1 hy
      · exact hapart y hy n hyn
    obtain ⟨R₂, hlog⟩ := ih R₁ hnodup hapart₁ hmay hQ
    refine ⟨R₂, ?_⟩
    rw [firings, List.map_cons]
    change _ :: w.firings regs t ((w.rearms regs x).foldl w.record _) rest = _
    rw [hlog, List.cons.injEq]
    refine ⟨rfl, List.map_congr_left fun y hy => ?_⟩
    have hyx : y ≠ x := by
      rintro rfl
      exact hx hy
    rw [hsame y hy, Function.update_of_ne hyx]

theorem firings_append {t : ℕ} {l' : List ℕ} : w.firings regs t due (l ++ l') =
    w.firings regs t due l ++ w.firings regs t (l.foldl (w.recordFire regs) due) l' := by
  induction l generalizing due with
  | nil => rfl
  | cons x l ih =>
    rw [List.cons_append, firings, firings, ih]
    rfl

/-- The entry of an item in the slot `n`, in the round `i` of `K`: its place is not before the round,
and if it is the place of one of the rounds, the item has been in the slot since the call began. -/
def Ahead (w : TimingWheel) (M : ℕ → List ℕ) (B : ℕ → Due → Prop) (K i n x : ℕ) (d : Due) : Prop :=
  B (w.place n) d ∧ i ≤ w.place n ∧ (w.place n < K → x ∈ M n)

/-- **The rounds of a call** fire items whose places are those of the rounds, and leave none there. -/
theorem Recorded.sweep {B : ℕ → Due → Prop} {K : ℕ} {u : TimingWheel} (hsize : 0 < w.slotSize)
    (hcurrent : w.current < w.slotSize) (hK : i + r = K) (hKsize : K ≤ w.slotSize)
    (hwrap : w.current + K < 0x100000000) (H : Holds u L) (hu : Alike w u)
    (hmay : SweepMayRearm w now regs r i L)
    (R : Recorded L [] due (w.Ahead M B K i))
    (hregs : ∀ j < K, ∀ x ∈ M (w.roundSlot j), ∀ a ∈ w.rearms regs x, ∀ m,
      w.rearmSlot a = some m → K ≤ w.place m ∧ B (w.place m) (w.dueOf a)) (t : ℕ) :
    Recorded (w.sweep regs r i L).2 [] ((w.sweep regs r i L).1.foldl (w.recordFire regs) due)
        (w.Ahead M B K K) ∧
      ∀ f ∈ w.firings regs t due (w.sweep regs r i L).1,
        f.time = t ∧ ∃ d, f.due = some d ∧ ∃ j < K, B j d := by
  induction r generalizing L due i u with
  | zero =>
    obtain rfl : i = K := hK
    exact ⟨R, fun f hf => by cases hf⟩
  | succ r ih =>
    obtain ⟨hround, hmay⟩ := hmay
    have hslot := roundSlot_of_lt (w := w) (i := i) (by omega)
    have hplace : w.place (w.roundSlot i) = i := by
      rw [hslot]
      exact place_add hcurrent (by omega)
    have hn : w.roundSlot i < u.slotSize := hu.slotSize.symm ▸ Nat.mod_lt _ hsize
    obtain ⟨u₁, -, H₁, hu₁⟩ := activeLoop_sweep (H.sweeping hn) (hu.trans setSlot_alike)
      (H.length_le _) hround
    have hother : ∀ m x, x ∈ Function.update L (w.roundSlot i) [] m ↔ m ≠ w.roundSlot i ∧ x ∈ L m := by
      intro m x
      by_cases hm : m = w.roundSlot i
      · rw [hm, Function.update_self]
        simp
      · rw [Function.update_of_ne hm, and_iff_right hm]
    -- the list of the slot is taken off
    have R₀ : Recorded (Function.update L (w.roundSlot i) []) (L (w.roundSlot i)) due
        (w.Ahead M B K i) := by
      refine ⟨fun x => ?_, fun m x hx => R.entry m x ((hother m x).mp hx).2⟩
      rw [R.registered x, or_iff_right List.not_mem_nil]
      constructor
      · rintro ⟨m, hx⟩
        by_cases hm : m = w.roundSlot i
        · exact .inl (hm ▸ hx)
        · exact .inr ⟨m, (hother m x).mpr ⟨hm, hx⟩⟩
      · rintro (hx | ⟨m, hx⟩)
        · exact ⟨_, hx⟩
        · exact ⟨m, ((hother m x).mp hx).2⟩
    have hfires : ∀ x ∈ L (w.roundSlot i), x ∈ M (w.roundSlot i) ∧ ∃ d, due x = some d ∧ B i d := by
      intro x hx
      obtain ⟨d, hd⟩ := (R.registered x).mpr (.inr ⟨_, hx⟩)
      obtain ⟨hB, -, hM⟩ := R.entry _ x hx d hd
      rw [hplace] at hB hM
      exact ⟨hM (by omega), d, hd, hB⟩
    have hnew : ∀ x ∈ L (w.roundSlot i), ∀ a ∈ w.rearms regs x, ∀ m, w.rearmSlot a = some m →
        w.Ahead M B K (i + 1) m a.item (w.dueOf a) := by
      intro x hx a ha m hm
      obtain ⟨hfar, hB⟩ := hregs i (by omega) x (hfires x hx).1 a ha m hm
      exact ⟨hB, by omega, fun h => by omega⟩
    obtain ⟨R₁, hlog⟩ := R₀.fires (H.nodup _)
      (fun x hx m hm => ((hother m x).mp hm).1 (H.apart m _ x ((hother m x).mp hm).2 hx)) hround
      (fun x hx a ha m hm => ⟨(hnew x hx a ha m hm).1, (Nat.le_succ i).trans (hnew x hx a ha m hm).2.1,
        (hnew x hx a ha m hm).2.2⟩) t
    have R₂ : Recorded (w.fireAll regs (Function.update L (w.roundSlot i) []) (L (w.roundSlot i))) []
        ((L (w.roundSlot i)).foldl (w.recordFire regs) due) (w.Ahead M B K (i + 1)) := by
      refine R₁.mono fun m y hy d _ hd => ⟨hd.1, ?_, hd.2.2⟩
      rcases mem_fireAll.mp hy with ⟨x, hx, a, ha, hm, -⟩ | hy
      · exact (hnew x hx a ha m hm).2.1
      · obtain ⟨hm, hy⟩ := (hother m y).mp hy
        have hmlt : m < w.slotSize := hu.slotSize ▸ H.lt hy
        have hne : w.place m ≠ i := by
          intro h
          apply hm
          rw [hslot, ← h]
          exact (slot_of_place hcurrent hmlt).symm
        have := hd.2.1
        omega
    obtain ⟨R₃, hlater⟩ := ih (by omega) H₁ hu₁ hmay R₂
    refine ⟨?_, ?_⟩
    · rw [TimingWheel.sweep]
      dsimp only
      rw [List.foldl_append]
      exact R₃
    · rw [TimingWheel.sweep]
      dsimp only
      rw [firings_append, hlog]
      intro f hf
      rcases List.mem_append.mp hf with hf | hf
      · obtain ⟨x, hx, rfl⟩ := List.mem_map.mp hf
        obtain ⟨-, d, hd, hB⟩ := hfires x hx
        exact ⟨rfl, d, hd, i, by omega, hB⟩
      · exact hlater f hf

/-! ## The invariant of a run -/

variable {s s' : Timed} {B : ℕ → ℕ → ℕ → Due → Prop}

/-- The wheel has lists, and the items of the record in them: with an item `k` places after `current`
that is registered for `d`, `B` holds of the precision, the last update, `k` and `d`. -/
structure Timed.Kept (B : ℕ → ℕ → ℕ → Due → Prop) (s : Timed) : Prop where
  sized : Sized s.wheel
  clock : s.wheel.lastUpdate = s.lastUpdate % 0x100000000
  recorded : ∃ L, Holds s.wheel L ∧ Recorded L [] s.due fun n _ d =>
    B s.wheel.precision s.lastUpdate (s.wheel.place n) d

/-- The deadline is more than `k` and at most `k + 1` ticks away when the item goes `k` places
ahead. -/
def Rounded (B : ℕ → ℕ → ℕ → Due → Prop) : Prop :=
  ∀ p t k d, t + (k + 1) * p ≤ d.start + d.timeout → d.start + d.timeout < t + (k + 2) * p →
    B p t k d

theorem Timed.Kept.entry (I : s.Kept B) {d : Due} (hd : s.due x = some d) :
    ∃ k, B s.wheel.precision s.lastUpdate k d := by
  obtain ⟨L, -, R⟩ := I.recorded
  obtain ⟨n, hx⟩ := ((R.registered x).mp ⟨d, hd⟩).resolve_left List.not_mem_nil
  exact ⟨_, R.entry n x hx d hd⟩

/-- The clock reading as the code sees it. -/
theorem Timed.Kept.sub32_eq (I : s.Kept B) {c : ℕ} (hc : s.lastUpdate ≤ c)
    (hword : c - s.lastUpdate < 0x100000000) : sub32 c s.wheel.lastUpdate = c - s.lastUpdate := by
  rw [I.clock, sub32]
  omega

theorem sub32_mod (c t : ℕ) : sub32 (c % 0x100000000) t = sub32 c t := by
  rw [sub32, sub32, Nat.mod_add_mod]

/-- An item whose clock and timeout count goes as many places ahead as there are ticks before its
deadline. -/
theorem Timed.Kept.ahead (I : s.Kept B) (hB : Rounded B) (ht : s.lastUpdate ≤ now)
    (ha : s.Counts now a) : sub32 a.clock s.wheel.lastUpdate + a.timeout < 0x100000000 ∧
      B s.wheel.precision s.lastUpdate (s.wheel.ahead a) (s.wheel.dueOf a) := by
  obtain ⟨hclock, hsum⟩ := ha
  have hsub := I.sub32_eq (ht.trans hclock) (by omega)
  have hahead : s.wheel.ahead a =
      (a.clock - s.lastUpdate + max a.timeout s.wheel.precision - s.wheel.precision) /
        s.wheel.precision := by
    rw [TimingWheel.ahead, places, delay, hsub, Nat.add_sub_cancel_left]
  have hlow := Nat.div_mul_le_self
    (a.clock - s.lastUpdate + max a.timeout s.wheel.precision - s.wheel.precision) s.wheel.precision
  have hhigh := Nat.lt_div_mul_add (a := a.clock - s.lastUpdate + max a.timeout s.wheel.precision -
    s.wheel.precision) I.sized.precision
  rw [← hahead] at hlow hhigh
  refine ⟨by omega, hB _ _ _ _ ?_ ?_⟩
  · rw [Nat.succ_mul, dueOf]
    dsimp only
    omega
  · rw [show s.wheel.ahead a + 2 = s.wheel.ahead a + 1 + 1 from rfl, Nat.succ_mul, Nat.succ_mul, dueOf]
    dsimp only
    omega

/-- Where no sum wraps, the slot is as many places ahead. -/
theorem place_rearmSlot (hw : Sized w) (hsum : sub32 a.clock w.lastUpdate + a.timeout < 0x100000000)
    (hwrap : w.Unwrapped a) (hm : w.rearmSlot a = some m) :
    w.ahead a < w.slotSize ∧ w.place m = w.ahead a := by
  rw [rearmSlot_eq hw hsum] at hm
  by_cases hout : w.slotSize ≤ w.ahead a
  · rw [if_pos hout] at hm
    cases hm
  · rw [if_neg hout, add32_of_lt (hwrap.resolve_left hout)] at hm
    obtain rfl := Option.some.inj hm
    have hlt := Nat.not_le.mp hout
    exact ⟨hlt, place_add (hw.current.resolve_left (by omega)) hlt⟩

/-- No sum wraps on a wheel of half the words, and every `slot` is the number of the slot. -/
theorem Timed.Kept.unwrapped {op : TimedOp} (I : s.Kept B) (hsize : 0 < s.wheel.slotSize)
    (hslots : s.wheel.slotSize ≤ 0x80000000) (ha : s.Allowed op) : s.Unwrapped op := by
  have hcurrent := I.sized.current.resolve_left hsize.ne'
  have hrearm : ∀ a, s.wheel.Unwrapped a := by
    intro a
    by_cases hout : s.wheel.slotSize ≤ s.wheel.ahead a
    · exact .inl hout
    · exact .inr (by omega)
  cases op with
  | register a => exact hrearm a
  | unregister x =>
    obtain ⟨L, H, R⟩ := I.recorded
    obtain ⟨n, hx⟩ := ((R.registered x).mp (Option.ne_none_iff_exists'.mp ha)).resolve_left
      List.not_mem_nil
    exact (H.slot_nonneg I.sized hx).mpr ((H.lt hx).trans_le hslots)
  | update now regs =>
    refine ⟨?_, fun L _ i _ x _ a _ => hrearm a⟩
    have hrounds : s.wheel.rounds (now % 0x100000000) ≤ s.wheel.slotSize := Nat.min_le_right _ _
    omega

theorem Alike.place (hu : Alike w w') : w'.place n = w.place n := by
  rw [TimingWheel.place, TimingWheel.place, hu.slotSize, hu.current]

/-- **`RegisterTimer`** keeps the record. -/
theorem Timed.Kept.register (I : s.Kept B) (hB : Rounded B) (ha : s.Allowed (.register a))
    (hwrap : s.wheel.Unwrapped a) (h : s.step (.register a) = .ok s') :
    s'.Kept B ∧ s'.lastUpdate = s.lastUpdate ∧ s'.called = s.called ∧ s'.log = s.log ∧
      s'.wheel.precision = s.wheel.precision := by
  obtain ⟨hknown, hidle, hcounts⟩ := ha
  obtain ⟨hsum, hplace⟩ := I.ahead hB (Nat.le_refl _) hcounts
  obtain ⟨L, H, R⟩ := I.recorded
  have hlists : ∀ n, a.item ∉ L n := by
    intro n hn
    obtain ⟨d, hd⟩ := (R.registered a.item).mpr (.inr ⟨n, hn⟩)
    exact absurd (hidle.symm.trans hd) (by simp)
  have hok : s.step (.register a) = .ok { s with
      wheel := (s.wheel.registerTimer a.item (a.clock % 0x100000000) a.timeout).1
      due := s.wheel.record s.due a } := by
    unfold Timed.step record
    cases hslot : s.wheel.rearmSlot a with
    | none =>
      dsimp only
      rw [registerTimer_none hslot]
      rfl
    | some n =>
      dsimp only
      rw [registerTimer_some hslot]
      rfl
  obtain rfl := Except.ok.inj (h.symm.trans hok)
  have halike : Alike s.wheel (s.wheel.registerTimer a.item (a.clock % 0x100000000) a.timeout).1 :=
    registerTimer_alike
  have hQ : ∀ m, s.wheel.rearmSlot a = some m →
      B s.wheel.precision s.lastUpdate (s.wheel.place m) (s.wheel.dueOf a) := by
    intro m hm
    rw [(place_rearmSlot I.sized hsum hwrap hm).2]
    exact hplace
  refine ⟨⟨I.sized.alike halike, halike.lastUpdate.trans I.clock, _,
    H.register _ _ hlists hknown, ?_⟩, rfl, rfl, rfl, halike.precision⟩
  refine (R.putIn hlists List.not_mem_nil hQ).1.mono fun n x _ d _ hd => ?_
  dsimp only
  rwa [halike.precision, halike.place]

/-- **`UnRegisterTimer`** keeps the record. -/
theorem Timed.Kept.unregister (I : s.Kept B) (ha : s.Allowed (.unregister x))
    (hslot : 0 ≤ (s.wheel.item x).slot) (h : s.step (.unregister x) = .ok s') :
    s'.Kept B ∧ s'.lastUpdate = s.lastUpdate ∧ s'.called = s.called ∧ s'.log = s.log ∧
      s'.wheel.precision = s.wheel.precision := by
  obtain rfl := Except.ok.inj h
  obtain ⟨L, H, R⟩ := I.recorded
  obtain ⟨d, hd⟩ := Option.ne_none_iff_exists'.mp ha
  obtain ⟨n, hx⟩ := ((R.registered x).mp ⟨d, hd⟩).resolve_left List.not_mem_nil
  have halike : Alike s.wheel (s.wheel.unRegisterTimer x) := unRegisterTimer_alike
  refine ⟨⟨I.sized.alike halike, halike.lastUpdate.trans I.clock, _,
    H.unregister hx ((H.slot_nonneg I.sized hx).mp hslot), fun y => ?_, fun m y hy d hd => ?_⟩,
    rfl, rfl, rfl, halike.precision⟩
  · dsimp only
    by_cases hyx : y = x
    · subst hyx
      simp [H.mem_takeOut hx]
    · rw [Function.update_of_ne hyx, R.registered y]
      refine or_congr_right (exists_congr fun m => ?_)
      rw [H.mem_takeOut hx, and_iff_left hyx]
  · obtain ⟨hy, hyx⟩ := (H.mem_takeOut hx).mp hy
    dsimp only at hd ⊢
    rw [Function.update_of_ne hyx] at hd
    rw [halike.precision, halike.place]
    exact R.entry m y hy d hd

/-- A call of `UpdateWheel` that comes before the next tick changes nothing. -/
theorem Timed.step_of_no_tick (htick : sub32 now s.wheel.lastUpdate < s.wheel.precision) :
    s.step (.update now regs) = .ok { s with called := now } := by
  rw [Timed.step, updateWheel_of_no_tick (by rwa [sub32_mod])]
  simp [firings]

theorem Timed.Kept.no_tick (I : s.Kept B) (hnow : s.lastUpdate ≤ now)
    (hword : now - s.lastUpdate < 0x100000000)
    (htick : ¬ s.wheel.precision ≤ now - s.lastUpdate) (h : s.step (.update now regs) = .ok s') :
    s'.Kept B ∧ s' = { s with called := now } := by
  rw [← I.sub32_eq hnow hword, Nat.not_le] at htick
  rw [Timed.step_of_no_tick htick] at h
  obtain rfl := Except.ok.inj h
  exact ⟨⟨I.sized, I.clock, I.recorded⟩, rfl⟩

theorem mem_of_mem_rearms (h : a ∈ w.rearms regs x) : a ∈ regs x := by
  unfold rearms at h
  split at h
  · exact h
  · cases h

/-- **`UpdateWheel`** keeps the record, if the items that are left or registered by callbacks are in
step with the new time. It fires items of the places of its rounds. -/
theorem Timed.Kept.update (I : s.Kept B) (hB : Rounded B) (ha : s.Allowed (.update now regs))
    (hwrap : s.Unwrapped (.update now regs)) (htick : s.wheel.precision ≤ now - s.lastUpdate)
    (hleft : ∀ L, Holds s.wheel L → ∀ n, ∀ x ∈ L n, ∀ d, s.due x = some d →
      B s.wheel.precision s.lastUpdate (s.wheel.place n) d →
      (now - s.lastUpdate) / s.wheel.precision ≤ s.wheel.place n →
      B s.wheel.precision now (s.wheel.place n - (now - s.lastUpdate) / s.wheel.precision) d)
    (hnew : ∀ x, ∀ a ∈ regs x, ∀ k d, B s.wheel.precision s.lastUpdate k d →
      (now - s.lastUpdate) / s.wheel.precision ≤ k →
      B s.wheel.precision now (k - (now - s.lastUpdate) / s.wheel.precision) d)
    (h : s.step (.update now regs) = .ok s') :
    s'.Kept B ∧ s'.lastUpdate = now ∧ s'.called = now ∧
      s'.wheel.precision = s.wheel.precision ∧ ∃ fs, s'.log = s.log ++ fs ∧ ∀ f ∈ fs, f.time = now ∧
        ∃ d, f.due = some d ∧ ∃ j < (now - s.lastUpdate) / s.wheel.precision,
          B s.wheel.precision s.lastUpdate j d := by
  obtain ⟨ht, hword, hmay⟩ := ha
  obtain ⟨hwrapK, hunwrapped⟩ := hwrap
  obtain ⟨L, H, R⟩ := I.recorded
  obtain ⟨hmay, hcounts⟩ := hmay L H
  have hunwrapped := hunwrapped L H
  have hsub : sub32 (now % 0x100000000) s.wheel.lastUpdate = now - s.lastUpdate := by
    rw [sub32_mod, I.sub32_eq ht hword]
  obtain ⟨K, hK⟩ : ∃ K, K = s.wheel.rounds (now % 0x100000000) := ⟨_, rfl⟩
  obtain ⟨q, hq⟩ : ∃ q, q = (now - s.lastUpdate) / s.wheel.precision := ⟨_, rfl⟩
  have hKq : K = min q s.wheel.slotSize := by
    rw [hK, rounds, hsub, hq]
  rw [← hK] at hmay hcounts hunwrapped hwrapK
  rw [← hq] at hleft hnew ⊢
  have htick' : s.wheel.precision ≤ sub32 (now % 0x100000000) s.wheel.lastUpdate := hsub ▸ htick
  by_cases hsize : 0 < s.wheel.slotSize
  swap
  · -- the call divides by zero
    have hzero : s.wheel.slotSize = 0 := by omega
    have hrounds : s.wheel.rounds (now % 0x100000000) = 0 := by
      rw [rounds, hzero, Nat.min_zero]
    rw [Timed.step, updateWheel_of_tick htick', hrounds, updateLoop, Exec.ok_bind, if_pos hzero] at h
    cases h
  have hcurrent := I.sized.current.resolve_left hsize.ne'
  rw [hK] at hmay
  obtain ⟨u, hresult, H', hu⟩ := updateWheel_sweep_of_tick hsize H hmay htick'
  rw [← hK] at hmay hresult H'
  have R₀ : Recorded L [] s.due (s.wheel.Ahead L (fun k d => B s.wheel.precision s.lastUpdate k d ∧
      (q ≤ k → B s.wheel.precision now (k - q) d)) K 0) :=
    R.mono fun n x hx d hd hB => ⟨⟨hB, hleft L H n x hx d hd hB⟩, Nat.zero_le _, fun _ => hx⟩
  have hregs : ∀ j < K, ∀ x ∈ L (s.wheel.roundSlot j), ∀ a ∈ s.wheel.rearms regs x, ∀ m,
      s.wheel.rearmSlot a = some m → K ≤ s.wheel.place m ∧
        (B s.wheel.precision s.lastUpdate (s.wheel.place m) (s.wheel.dueOf a) ∧
          (q ≤ s.wheel.place m → B s.wheel.precision now (s.wheel.place m - q) (s.wheel.dueOf a))) := by
    intro j hj x hx a ha m hm
    have hcount := hcounts j hj x hx a ha
    obtain ⟨hsum, hB'⟩ := I.ahead hB ht hcount
    obtain ⟨-, hplace⟩ := place_rearmSlot I.sized hsum (hunwrapped j hj x hx a ha) hm
    have hlater : sub32 (now % 0x100000000) s.wheel.lastUpdate ≤
        sub32 a.clock s.wheel.lastUpdate := by
      rw [hsub, I.sub32_eq (ht.trans hcount.1) (by have := hcount.2; omega)]
      exact Nat.sub_le_sub_right hcount.1 _
    rw [hplace]
    exact ⟨hK ▸ rounds_le_ahead hlater, hB', hnew x a (mem_of_mem_rearms ha) _ _ hB'⟩
  obtain ⟨R₁, hlog⟩ := R₀.sweep hsize hcurrent (Nat.zero_add K) (by omega) hwrapK H (.refl _) hmay
    hregs now
  have hsized := I.sized.updateWheel (Nat.mod_lt now (by decide)) hresult
  rw [Timed.step, hresult] at h
  obtain rfl := Except.ok.inj h
  refine ⟨⟨hsized, rfl, _, H'.congr rfl rfl rfl rfl, R₁.mono fun n x hx d hd hentry => ?_⟩, rfl, rfl,
    hu.precision, _, rfl, fun f hf => ?_⟩
  · obtain ⟨⟨-, hnext⟩, hfar, -⟩ := hentry
    have hn : n < s.wheel.slotSize := hu.slotSize ▸ H'.lt hx
    have hlt : s.wheel.place n < s.wheel.slotSize := place_lt hcurrent
    have hqK : q = K := by omega
    have hplace : ({ u with
        current := add32 s.wheel.current K % s.wheel.slotSize
        lastUpdate := now % 0x100000000 } : TimingWheel).place n = s.wheel.place n - K := by
      refine place_turned hcurrent hn hfar hu.slotSize ?_
      dsimp only
      rw [add32_of_lt hwrapK]
    dsimp only
    rw [if_pos rfl, hplace, hu.precision, ← hqK]
    exact hnext (hqK ▸ hfar)
  · obtain ⟨htime, d, hd, j, hj, hB', -⟩ := hlog f hf
    exact ⟨htime, d, hd, j, by omega, hB'⟩


end Kendylib.TimingWheel
