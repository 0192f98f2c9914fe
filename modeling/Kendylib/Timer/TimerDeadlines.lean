import Kendylib.Timer.TimerRecord

/-!
# Deadlines

Runs of calls on a wheel whose slots are empty in the beginning.

* No item fires too early, as long as no sum with `current` wraps and no item is unregistered whose
  `slot` is negative (`noneEarly_always`).
* A call of `UpdateWheel` drops the part of the elapsed time that does not make a tick, so the items
  that are left fall behind. None fires too late if what each call drops is made up for by the
  rounding of the deadlines (`noneLate_always`).
-/

namespace Kendylib.TimingWheel

variable {w : TimingWheel} {L M : ℕ → List ℕ} {x n now r i : ℕ} {regs : ℕ → List Rearm} {s s' : Timed}
  {ops : List TimedOp} {op : TimedOp}

/-! ## Not too early -/

/-- An item that has been registered at the time `r` with the effective timeout `T` fires in a call
`UpdateWheel(t)` with `t - r > T - precision` only. -/
def Timed.NoneEarly (s : Timed) : Prop :=
  ∀ f ∈ s.log, ∃ d, f.due = some d ∧ d.start + d.timeout < f.time + s.wheel.precision

/-- An item is not more than one tick too far ahead. -/
def NotShort (p t k : ℕ) (d : Due) : Prop := d.start + d.timeout < t + (k + 2) * p

theorem notShort_turned {p t k q : ℕ} {d : Due} (h : NotShort p t k d) (hq : q ≤ k)
    (ht : q * p ≤ now - t) (hnow : t ≤ now) : NotShort p now (k - q) d := by
  obtain ⟨j, rfl⟩ := Nat.exists_eq_add_of_le hq
  unfold NotShort at h ⊢
  rw [Nat.add_sub_cancel_left]
  have hsum : (q + j + 2) * p = q * p + (j + 2) * p := by ring
  omega

theorem Timed.NoneEarly.step (I : s.Kept NotShort) (hlog : s.NoneEarly) (ha : s.Allowed op)
    (hwrap : s.Unwrapped op) (h : s.step op = .ok s') : s'.Kept NotShort ∧ s'.NoneEarly := by
  have hB : Rounded NotShort := fun p t k d _ h => h
  cases op with
  | register a =>
    obtain ⟨I', -, -, hlog', hprecision⟩ := I.register hB ha hwrap h
    refine ⟨I', ?_⟩
    rwa [Timed.NoneEarly, hlog', hprecision]
  | unregister x =>
    obtain ⟨I', -, -, hlog', hprecision⟩ := I.unregister ha hwrap h
    refine ⟨I', ?_⟩
    rwa [Timed.NoneEarly, hlog', hprecision]
  | update now regs =>
    by_cases htick : s.wheel.precision ≤ now - s.lastUpdate
    · have hq := Nat.div_mul_le_self (now - s.lastUpdate) s.wheel.precision
      obtain ⟨I', -, -, hprecision, fs, hlog', hfs⟩ := I.update hB ha hwrap htick
        (fun _ _ _ _ _ _ _ h hk => notShort_turned h hk hq ha.1)
        (fun _ _ _ _ _ h hk => notShort_turned h hk hq ha.1) h
      refine ⟨I', fun f hf => ?_⟩
      rw [hprecision]
      rw [hlog'] at hf
      rcases List.mem_append.mp hf with hf | hf
      · exact hlog f hf
      · obtain ⟨htime, d, hd, j, hj, hB⟩ := hfs f hf
        refine ⟨d, hd, ?_⟩
        -- the round after that of the item ends by the time of the call
        have hround : (j + 1) * s.wheel.precision ≤ now - s.lastUpdate :=
          (Nat.mul_le_mul_right _ hj).trans hq
        have hsum : (j + 2) * s.wheel.precision = (j + 1) * s.wheel.precision + s.wheel.precision := by
          ring
        have hnow := ha.1
        unfold NotShort at hB
        omega
    · obtain ⟨I', rfl⟩ := I.no_tick ha.1 ha.2.1 htick h
      exact ⟨I', hlog⟩

/-- A wheel whose slots are empty, at the time `now`. -/
def Timed.start (w : TimingWheel) (now : ℕ) : Timed := ⟨w, now, now, fun _ => none, []⟩

theorem kept_start {B : ℕ → ℕ → ℕ → Due → Prop} (hw : Sized w) (H : Holds w fun _ => [])
    (hnow : w.lastUpdate = now % 0x100000000) : (Timed.start w now).Kept B := by
  refine ⟨hw, hnow, _, H, fun x => ?_, fun n x hx => by cases hx⟩
  simp [Timed.start]

/-- **No item fires too early** in a run in which no sum wraps and no item with a negative `slot` is
unregistered. -/
theorem noneEarly_always (hw : Sized w) (H : Holds w fun _ => [])
    (hnow : w.lastUpdate = now % 0x100000000)
    (ha : Exec.EachStep Timed.step Timed.Allowed (Timed.start w now) ops)
    (hwrap : Exec.EachStep Timed.step Timed.Unwrapped (Timed.start w now) ops) :
    Exec.Always Timed.step Timed.NoneEarly (Timed.start w now) ops := by
  refine Exec.always_of_invariant (I := fun s => s.Kept NotShort ∧ s.NoneEarly) (fun s I => I.2) ?_
    ⟨kept_start hw H hnow, fun f hf => by cases hf⟩ (ha.and hwrap)
  exact fun s op s' I hc h => Timed.NoneEarly.step I.1 I.2 hc.1 hc.2 h

/-- Callbacks that leave the wheel alone do what they may. -/
theorem sweepMayRearm_quiet (h : ∀ x, w.rearms regs x = []) : SweepMayRearm w now regs r i L := by
  have hfires : ∀ M l, FiresMayRearm w now regs M l := by
    intro M l
    induction l generalizing M with
    | nil => trivial
    | cons x l ih =>
      refine ⟨?_, ih _⟩
      rw [h x]
      trivial
  induction r generalizing L i with
  | zero => trivial
  | succ r ih => exact ⟨hfires _ _, ih⟩

theorem rearms_none : w.rearms (fun _ => []) x = [] := by
  unfold rearms
  split <;> rfl

theorem allowed_quiet (ht : s.lastUpdate ≤ now) (hword : now - s.lastUpdate < 0x100000000) :
    s.Allowed (.update now fun _ => []) := by
  refine ⟨ht, hword, fun L _ => ⟨sweepMayRearm_quiet fun x => rearms_none, fun i _ x _ a ha => ?_⟩⟩
  rw [rearms_none] at ha
  cases ha

/-- A new wheel of ten slots with one item. -/
def oneIdle : TimingWheel := ⟨10, 10, 0, 0, fun _ => none, 1, fun _ => createWheelItem true⟩

theorem sized_oneIdle : Sized oneIdle := ⟨by decide, by decide, by decide, by decide, by decide⟩

theorem holds_oneIdle : Holds oneIdle fun _ => [] :=
  holds_empty (fun _ _ => rfl) (fun _ => rfl) fun _ => rfl

/-- The item is registered for the next tick. -/
def oneRegistered : Timed :=
  ⟨oneIdle.add 0 0, 0, 0, Function.update (fun _ => none) 0 (some ⟨0, 10⟩), []⟩

theorem step_oneIdle :
    (Timed.start oneIdle 0).step (.register ⟨0, 0, 10⟩) = .ok oneRegistered := rfl

/-- Its callback registers it again. -/
theorem noneEarly_oneIdle : Exec.Always Timed.step Timed.NoneEarly (Timed.start oneIdle 0)
    [.register ⟨0, 0, 10⟩, .update 10 fun _ => [⟨0, 10, 10⟩]] := by
  have H : Holds (oneIdle.add 0 0) (putIn (fun _ => []) (some 0) 0) :=
    holds_one (fun _ => rfl) (fun _ => rfl) (by decide) (by decide)
  have hrounds : oneRegistered.wheel.rounds (10 % 0x100000000) = 1 := by decide
  have hslot : oneRegistered.wheel.roundSlot 0 = 0 := by decide
  have hrearms : ∀ x, ∀ a ∈ oneRegistered.wheel.rearms (fun _ => [⟨0, 10, 10⟩]) x, a = ⟨0, 10, 10⟩ :=
    fun x a ha => List.mem_singleton.mp (mem_of_mem_rearms ha)
  refine noneEarly_always sized_oneIdle holds_oneIdle rfl
    (.cons step_oneIdle ⟨by decide, rfl, by decide, by decide⟩
      (.last ⟨by decide, by decide, fun L h => ⟨?_, fun i _ x _ a ha => ?_⟩⟩))
    (.cons step_oneIdle (.inr (by decide)) (.last ⟨by decide, fun L _ i _ x _ a ha => ?_⟩))
  · rw [hrounds, h.unique H]
    refine (show SweepMayRearm oneRegistered.wheel (10 % 0x100000000) (fun _ => [⟨0, 10, 10⟩]) 1 0 _
      from ⟨?_, trivial⟩)
    rw [hslot, putIn_update]
    exact ⟨⟨⟨by decide, fun n => List.not_mem_nil, by decide, by decide, by decide⟩, trivial⟩, trivial⟩
  · rw [hrearms x a ha]
    exact ⟨by decide, by decide⟩
  · rw [hrearms x a ha]
    exact .inr (by decide)

/-- A wheel of almost all words, some time after it was made. -/
def lastIdle : TimingWheel :=
  ⟨1, 0xffffffff, 0xfffffffe, 0xfffffffe, fun _ => none, 1, fun _ => createWheelItem true⟩

/-- The sum with `current` wraps, and the item fires a tick too early. -/
theorem not_noneEarly_lastIdle : ∃ ops, Sized lastIdle ∧ Holds lastIdle (fun _ => []) ∧
    Exec.EachStep Timed.step Timed.Allowed (Timed.start lastIdle 0xfffffffe) ops ∧
    ops = [.register ⟨0, 0xfffffffe, 3⟩, .update 0x100000000 fun _ => []] ∧
    ¬ Exec.Always Timed.step Timed.NoneEarly (Timed.start lastIdle 0xfffffffe) ops := by
  obtain ⟨s, hs⟩ : ∃ s, s = { Timed.start lastIdle 0xfffffffe with
    wheel := lastIdle.add 0 0, due := Function.update (fun _ => none) 0 (some ⟨0xfffffffe, 3⟩) } :=
    ⟨_, rfl⟩
  have hstep : (Timed.start lastIdle 0xfffffffe).step (.register ⟨0, 0xfffffffe, 3⟩) = .ok s := by
    rw [hs]
    rfl
  have hlast : (s.step (.update 0x100000000 fun _ => [])).map (fun s => (s.log, s.wheel.precision)) =
      .ok ([⟨0, 0x100000000, some ⟨0xfffffffe, 3⟩⟩], 1) := by
    rw [hs]
    decide +kernel
  refine ⟨_, ⟨by decide, by decide, by decide, by decide, by decide⟩,
    holds_empty (fun _ _ => rfl) (fun _ => rfl) fun _ => rfl, ?_, rfl, fun h => ?_⟩
  · refine .cons hstep ⟨by decide, rfl, by decide, by decide⟩ (.last (allowed_quiet ?_ ?_))
    · rw [hs]
      decide
    · rw [hs]
      decide
  · obtain ⟨s', hs'⟩ : ∃ s', s.step (.update 0x100000000 fun _ => []) = .ok s' := by
      rw [hs]
      exact Exec.exists_ok (by decide +kernel)
    rw [hs'] at hlast
    obtain ⟨hlog, hprecision⟩ := Prod.mk.inj (Except.ok.inj hlast)
    obtain ⟨d, hd, hearly⟩ := ((h.tail hstep).tail hs').head _ (hlog ▸ List.mem_singleton_self _)
    obtain rfl := Option.some.inj hd
    rw [hprecision] at hearly
    exact absurd hearly (by decide)

/-! ## Not too late -/

/-- An item that has been registered at the time `r` with the effective timeout `T`, and not been
unregistered, has fired by the end of a call `UpdateWheel(t)` with `t - r ≥ T`. -/
def Timed.NoneLate (s : Timed) : Prop :=
  ∀ x d, s.due x = some d → s.called < d.start + d.timeout

/-- The callbacks leave the wheel alone. -/
def Timed.Quiet (_ : Timed) : TimedOp → Prop
  | .update _ regs => ∀ x, regs x = []
  | _ => True

/-- What a call of `UpdateWheel` drops of the elapsed time leaves no item behind its deadline that
stays in the wheel. -/
def Timed.KeepsUp (s : Timed) : TimedOp → Prop
  | .update now _ => s.wheel.precision ≤ now - s.lastUpdate → ∀ L, Holds s.wheel L → ∀ n, ∀ x ∈ L n,
      ∀ d, s.due x = some d → (now - s.lastUpdate) / s.wheel.precision ≤ s.wheel.place n →
        s.lastUpdate + (s.wheel.place n + 1) * s.wheel.precision +
          (now - s.lastUpdate) % s.wheel.precision ≤ d.start + d.timeout
  | _ => True

/-- An item is not too far ahead. -/
def NotLong (p t k : ℕ) (d : Due) : Prop := t + (k + 1) * p ≤ d.start + d.timeout

theorem notLong_turned {p t k : ℕ} {d : Due} (hk : (now - t) / p ≤ k) (hnow : t ≤ now)
    (h : t + (k + 1) * p + (now - t) % p ≤ d.start + d.timeout) :
    NotLong p now (k - (now - t) / p) d := by
  obtain ⟨j, hj⟩ := Nat.exists_eq_add_of_le hk
  have hdiv := Nat.div_add_mod (now - t) p
  have hsum : (k + 1) * p = p * ((now - t) / p) + (j + 1) * p := by
    rw [hj]
    ring
  unfold NotLong
  rw [show k - (now - t) / p = j by omega]
  omega

theorem Timed.NoneLate.of_kept (I : s.Kept NotLong) (hcalled : s.called < s.lastUpdate + s.wheel.precision) :
    s.NoneLate := by
  intro x d hd
  obtain ⟨k, hk⟩ := I.entry hd
  have hsum : (k + 1) * s.wheel.precision = k * s.wheel.precision + s.wheel.precision := by ring
  unfold NotLong at hk
  omega

theorem Timed.Kept.step_notLong (I : s.Kept NotLong)
    (hcalled : s.called < s.lastUpdate + s.wheel.precision) (ha : s.Allowed op) (hquiet : s.Quiet op)
    (hwrap : s.Unwrapped op) (hkeeps : s.KeepsUp op) (h : s.step op = .ok s') :
    s'.Kept NotLong ∧ s'.called < s'.lastUpdate + s'.wheel.precision := by
  have hB : Rounded NotLong := fun p t k d h _ => h
  cases op with
  | register a =>
    obtain ⟨I', hlast, hcalled', -, hprecision⟩ := I.register hB ha hwrap h
    exact ⟨I', by rwa [hlast, hcalled', hprecision]⟩
  | unregister x =>
    obtain ⟨I', hlast, hcalled', -, hprecision⟩ := I.unregister ha hwrap h
    exact ⟨I', by rwa [hlast, hcalled', hprecision]⟩
  | update now regs =>
    by_cases htick : s.wheel.precision ≤ now - s.lastUpdate
    · obtain ⟨I', hlast, hcalled', hprecision, -⟩ := I.update hB ha hwrap htick
        (fun L H n x hx d hd _ hk => notLong_turned hk ha.1 (hkeeps htick L H n x hx d hd hk))
        (fun x a ha => absurd ha (hquiet x ▸ List.not_mem_nil)) h
      have hpos := I.sized.precision
      refine ⟨I', ?_⟩
      rw [hlast, hcalled', hprecision]
      omega
    · obtain ⟨I', rfl⟩ := I.no_tick ha.1 ha.2.1 htick h
      refine ⟨I', ?_⟩
      have hnow := ha.1
      dsimp only
      omega

/-- **No item fires too late** in a run in which no sum wraps and no item with a negative `slot` is
unregistered, if what each call of `UpdateWheel` drops leaves no item behind its deadline. -/
theorem noneLate_always (hw : Sized w) (H : Holds w fun _ => [])
    (hnow : w.lastUpdate = now % 0x100000000)
    (ha : Exec.EachStep Timed.step Timed.Allowed (Timed.start w now) ops)
    (hquiet : Exec.EachStep Timed.step Timed.Quiet (Timed.start w now) ops)
    (hwrap : Exec.EachStep Timed.step Timed.Unwrapped (Timed.start w now) ops)
    (hkeeps : Exec.EachStep Timed.step Timed.KeepsUp (Timed.start w now) ops) :
    Exec.Always Timed.step Timed.NoneLate (Timed.start w now) ops := by
  refine Exec.always_of_invariant
    (I := fun s => s.Kept NotLong ∧ s.called < s.lastUpdate + s.wheel.precision)
    (fun s I => Timed.NoneLate.of_kept I.1 I.2) ?_
    ⟨kept_start hw H hnow, Nat.lt_add_of_pos_right hw.precision⟩
    ((ha.and hquiet).and (hwrap.and hkeeps))
  exact fun s op s' I hc h => I.1.step_notLong I.2 hc.1.1 hc.1.2 hc.2.1 hc.2.2 h

/-- The item is registered for its third tick. -/
def thirdTick : Timed :=
  ⟨oneIdle.add 2 0, 0, 0, Function.update (fun _ => none) 0 (some ⟨0, 35⟩), []⟩

theorem step_thirdTick : (Timed.start oneIdle 0).step (.register ⟨0, 0, 35⟩) = .ok thirdTick := rfl

/-- A call drops three milliseconds, and the deadline has been rounded by five. -/
theorem noneLate_oneIdle : Exec.Always Timed.step Timed.NoneLate (Timed.start oneIdle 0)
    [.register ⟨0, 0, 35⟩, .update 13 fun _ => []] := by
  have H : Holds (oneIdle.add 2 0) (putIn (fun _ => []) (some 2) 0) :=
    holds_one (fun _ => rfl) (fun _ => rfl) (by decide) (by decide)
  refine noneLate_always sized_oneIdle holds_oneIdle rfl
    (.cons step_thirdTick ⟨by decide, rfl, by decide, by decide⟩
      (.last (allowed_quiet (by decide) (by decide))))
    (.cons step_thirdTick trivial (.last fun _ => rfl))
    (.cons step_thirdTick (.inr (by decide)) (.last ⟨by decide, fun L _ i _ x _ a ha => ?_⟩))
    (.cons step_thirdTick trivial (.last fun _ L h n x hx d hd _ => ?_))
  · rw [rearms_none] at ha
    cases ha
  · rw [h.unique H] at hx
    rcases mem_putIn.mp hx with ⟨rfl, rfl⟩ | hx
    · obtain rfl := Option.some.inj hd
      decide
    · cases hx

/-- Two calls drop nine milliseconds each, and the item has not fired at its deadline. -/
theorem not_noneLate_oneIdle : ∃ ops,
    Exec.EachStep Timed.step Timed.Allowed (Timed.start oneIdle 0) ops ∧
    Exec.EachStep Timed.step Timed.Quiet (Timed.start oneIdle 0) ops ∧
    ops = [.register ⟨0, 0, 30⟩, .update 19 fun _ => [], .update 38 fun _ => []] ∧
    ¬ Exec.Always Timed.step Timed.NoneLate (Timed.start oneIdle 0) ops := by
  obtain ⟨s, hs⟩ : ∃ s : Timed, s = ⟨oneIdle.add 2 0, 0, 0,
    Function.update (fun _ => none) 0 (some ⟨0, 30⟩), []⟩ := ⟨_, rfl⟩
  have hstep : (Timed.start oneIdle 0).step (.register ⟨0, 0, 30⟩) = .ok s := by
    rw [hs]
    rfl
  have hrun : (s.step (.update 19 fun _ => []) >>= fun s₁ =>
      s₁.step (.update 38 fun _ => []) >>= fun s₂ =>
        (.ok (s₁.lastUpdate, s₂.due 0, s₂.called) : Exec _)) = .ok (19, some ⟨0, 30⟩, 38) := by
    rw [hs]
    decide +kernel
  obtain ⟨s₁, hs₁, hrun⟩ := Exec.bind_eq_ok.mp hrun
  obtain ⟨s₂, hs₂, hrun⟩ := Exec.bind_eq_ok.mp hrun
  obtain ⟨hfirst, hlast⟩ := Prod.mk.inj (Except.ok.inj hrun)
  obtain ⟨hdue, hcalled⟩ := Prod.mk.inj hlast
  refine ⟨_, ?_, ?_, rfl, fun h => ?_⟩
  · refine .cons hstep ⟨by decide, rfl, by decide, by decide⟩
      (.cons hs₁ (allowed_quiet ?_ ?_) (.last (allowed_quiet ?_ ?_)))
    · rw [hs]
      decide
    · rw [hs]
      decide
    · rw [hfirst]
      decide
    · rw [hfirst]
      decide
  · exact .cons hstep trivial (.cons hs₁ (fun _ => rfl) (.last fun _ => rfl))
  · have hlate := (((h.tail hstep).tail hs₁).tail hs₂).head 0 ⟨0, 30⟩ hdue
    rw [hcalled] at hlate
    exact absurd hlate (by decide)

end Kendylib.TimingWheel
