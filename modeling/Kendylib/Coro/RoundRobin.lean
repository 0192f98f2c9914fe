import Kendylib.Coro.PopulationRuns
import Kendylib.Foundations.RoundRobin

/-!
# Every coroutine gets its turn

`_sche_next` takes the first coroutine of the list, and who yields or wakes up goes to its end. Only a
coroutine that finishes gives control to `s->co`, whatever is in the list, and the next round of
`sche_schedule` takes the first one again. A coroutine in the list therefore has control within two
steps for each one in front of it and two for itself, however the others behave and whatever the clock
reads; and apart from `s->co` it is those in front of it that have control before it, each once and in
their order (`fair_of_hasRoom`).

Nothing takes control from a coroutine that does not give it away: a step is what a coroutine does up
to the next time that it calls the scheduler.
-/

namespace Kendylib.Scheduler

open MinHeap

/-- The coroutines that the steps of a run give control to, up to a step that fails. -/
def turns : Sche → List (Action × ℕ) → List ℕ
  | _, [] => []
  | s, (a, now) :: rest =>
    match step s a now with
    | .ok s' => s'.running :: turns s' rest
    | .error _ => []

/-- The steps of a run as events. -/
def acts (run : List (Action × ℕ)) : List Event := run.map fun e => .act e.1 e.2

instance (s : Sche) : (e : Event) → Decidable (HasRoom s e)
  | .act (.sleep _) _ => inferInstanceAs (Decidable (_ → _))
  | .act .yield _ | .act .finish _ | .spawn _ => isTrue trivial

/-- The coroutine at the place `k` of the list has control within `2 * k + 2` steps, behind those in
front of it. -/
def Fair (s : Sche) : Prop :=
  s.stop = false → ∀ k c, s.active[k]? = some c → c ≠ s.co →
    ∀ run, Exec.BeforeEach eventStep HasRoom s (acts run) → 2 * k + 2 ≤ (turns s run).length →
      ∃ i < 2 * k + 2, (turns s run)[i]? = some c ∧
        ((turns s run).take i).filter (· ≠ s.co) = (s.active.take k).filter (· ≠ s.co)

variable {s s' s₁ : Sche} {xs ys ws : List ℕ} {c n now : ℕ} {x : Coro} {a : Action}

/-- What a step does to the list: the first one gets control and others come to the end. -/
structure Dispatches (s : Sche) (xs : List ℕ) (s' : Sche) : Prop where
  co : s'.co = s.co
  stop : s'.stop = s.stop
  first : ∃ ws rest, xs = s'.running :: rest ∧ s'.active = rest ++ ws

/-- **`_sche_next`** behind a look at the clock. -/
theorem scheNext'_dispatches (i : Inv s₁ (xs ++ ws)) (hxs : xs ≠ []) (hx : s₁.coros c = some x)
    (hdie : x.status ≠ .die) (hyield : x.status = .yield → c ∉ xs ++ ws)
    (h : scheNext' s₁ c = .ok s') (hco : s₁.co = s.co) (hstop : s₁.stop = s.stop) :
    Dispatches s xs s' := by
  obtain ⟨-, herr⟩ | ⟨-, t, ht, i', hrun, hframe, -⟩ := scheNext'_spec i hx hdie hyield
  · rw [herr] at h
    cases h
  obtain rfl := Except.ok.inj (ht.symm.trans h)
  refine ⟨by rw [hframe, hco], by rw [hframe, hstop], ?_⟩
  cases xs with
  | nil => exact absurd rfl hxs
  | cons n rest =>
    obtain rfl : t.running = n := hrun
    refine ⟨ws ++ if x.status = .yield then [c] else [], rest, rfl, ?_⟩
    rw [i'.active, List.cons_append, List.tail_cons, List.append_assoc]

/-- The look at the clock leaves `stop` alone. -/
theorem stop_checkClock (i : Inv s xs) (h : checkClock s now = .ok s₁) : s₁.stop = s.stop := by
  obtain ⟨t, ws, ht, -, -, hframe, -⟩ := checkClock_woken i now
  obtain rfl := Except.ok.inj (ht.symm.trans h)
  rw [hframe]

/-- **A round of `sche_schedule`** gives control to the first coroutine. -/
theorem scheScheduleRound_dispatches (P : Populated s xs) (hxs : xs ≠ []) (hstop : s.stop = false)
    (h : scheScheduleRound s now = .ok s') : Dispatches s xs s' := by
  obtain ⟨s₁, ws, hs₁, i₁, k₁⟩ := checkClock_spec P.inv now
  obtain ⟨x, -, hx₁, -, hdie, hyield⟩ := P.control.clocked_co k₁
  rw [scheScheduleRound, if_neg (by simp [hstop]), hs₁, Exec.ok_bind, i₁.lists.isEmpty,
    if_neg (by simp [hxs])] at h
  exact scheNext'_dispatches i₁ hxs hx₁ hdie hyield h k₁.co (stop_checkClock P.inv hs₁)

/-- **`coro_yield`** gives control to the first coroutine. -/
theorem coroYield_dispatches (P : Populated s xs) (hrun : s.running ≠ s.co) (hxs : xs ≠ [])
    (h : coroYield s s.running now = .ok s') : Dispatches s xs s' := by
  obtain ⟨x, hx, hst⟩ := P.control.coros_running hrun
  have hmem := (P.control.running hrun).2
  have hawake : s.status s.running ≠ some .sleep := by
    rw [status_of_coros hx, hst]
    decide
  have i₀ : Inv (s.set s.running { x with status := .yield }) xs :=
    P.inv.set hmem (P.inv.lt_created hx) hawake (by simp)
  have hst₀ : (s.set s.running { x with status := .yield }).status s.running ≠ some .sleep := by
    rw [status_set_self]
    simp
  obtain ⟨s₁, ws, hs₁, i₁, k₁⟩ := checkClock_spec i₀ now
  have hx₁ : s₁.coros s.running = some { x with status := .yield } := by
    rw [k₁.coros_of_not_sleep hst₀, coros_set_self]
  have hstop := stop_checkClock i₀ hs₁
  simp only [coroYield, scheNext, get_of_coros hx, Exec.ok_bind, hs₁] at h
  exact scheNext'_dispatches i₁ hxs hx₁ (by simp) (fun _ => k₁.not_mem hmem hst₀) h k₁.co hstop

/-- **`coro_sleep`** gives control to the first coroutine. -/
theorem coroSleep_dispatches (P : Populated s xs) (hrun : s.running ≠ s.co) (hxs : xs ≠ []) {ms : ℤ}
    (hroom : s.minheap.size + 1 < s.minheap.maxSize) (h : coroSleep s s.running ms now = .ok s') :
    Dispatches s xs s' := by
  obtain ⟨x, hx, hst⟩ := P.control.coros_running hrun
  have hmem := (P.control.running hrun).2
  have hawake : s.status s.running ≠ some .sleep := by
    rw [status_of_coros hx, hst]
    decide
  obtain ⟨t, ht, v, hmax, hidx⟩ := minheapInsert_room (s.set s.running (x.asleep ms now)).less
    P.inv.heap (P.inv.index_eq_zero hawake) hroom
  rw [coroSleep_eq hx, ht, Exec.ok_bind] at h
  have i₁ : Inv { s.set s.running (x.asleep ms now) with minheap := t } (xs ++ []) := by
    rw [List.append_nil]
    exact P.inv.sleep hmem (P.inv.lt_created hx) hawake v hmax (.inl hidx) rfl
  have hx₁ : ({ s.set s.running (x.asleep ms now) with minheap := t } : Sche).coros s.running =
      some (x.asleep ms now) := coros_set_self
  exact scheNext'_dispatches i₁ hxs hx₁ (by simp [Coro.asleep]) (by simp [Coro.asleep]) h rfl rfl

/-- **A step** gives control to the first coroutine, or a coroutine finishes and gives it to `s->co`. -/
theorem step_turn (P : Populated s xs) (hxs : xs ≠ []) (hstop : s.stop = false)
    (hroom : HasRoom s (.act a now)) (h : step s a now = .ok s') :
    Dispatches s xs s' ∨ s.running ≠ s.co ∧ s'.running = s.co ∧ s'.co = s.co ∧ s'.active = xs ∧
      s'.stop = (s'.coroSize == 0) := by
  unfold step at h
  split_ifs at h with hrun
  · exact .inl (scheScheduleRound_dispatches P hxs hstop h)
  · cases a with
    | yield => exact .inl (coroYield_dispatches P hrun hxs h)
    | sleep ms => exact .inl (coroSleep_dispatches P hrun hxs (hroom hrun) h)
    | finish =>
      obtain ⟨x, hx, hst⟩ := P.control.coros_running hrun
      have heq := coroFunEnd_eq P.inv hx hst
      obtain rfl := Except.ok.inj (heq.symm.trans h)
      refine .inr ⟨hrun, rfl, rfl, P.inv.active, ?_⟩
      simp [Sche.reap, Sche.coroDestroy, Sche.set, hstop]

/-- A coroutine in the list keeps the scheduler going. -/
theorem Populated.coroSize_ne_zero (P : Populated s xs) (hc : c ∈ xs) (hne : c ≠ s.co) :
    s.coroSize ≠ 0 := by
  obtain ⟨x, hx, -⟩ := status_eq_some.mp (P.inv.queued c hc)
  have hmem : c ∈ s.spawned := P.inv.mem_spawned.mpr ⟨hne, x, hx⟩
  have := Finset.card_pos.mpr ⟨c, hmem⟩
  rw [P.counted]
  omega

/-! ## Runs -/

/-- The turns of a run, up to the one of the coroutine `c`. -/
theorem rota (P : Populated s xs) (hstop : s.stop = false) (hc : c ∈ xs) (hne : c ≠ s.co)
    {run : List (Action × ℕ)} (hroom : Exec.BeforeEach eventStep HasRoom s (acts run)) :
    Rota s.co c (s.running == s.co) xs (turns s run) := by
  induction run generalizing s xs with
  | nil => exact .nil ..
  | cons e rest ih =>
    obtain ⟨a, now⟩ := e
    obtain ⟨hroom, hrest⟩ := hroom
    have hpop := P.step hroom
    cases hs : eventStep s (.act a now) with
    | error f =>
      rw [turns, show step s a now = .error f from hs]
      exact .nil ..
    | ok s' =>
      have hs' : step s a now = .ok s' := hs
      have hturns : turns s ((a, now) :: rest) = s'.running :: turns s' rest := by rw [turns, hs']
      rw [hturns]
      rw [hs] at hrest hpop
      obtain herr | ⟨t, ys, ht, P'⟩ := hpop
      · cases herr
      obtain rfl := Except.ok.inj ht
      have hys : s'.active = ys := P'.inv.active
      obtain ⟨hco, hstop', ws, rest', hxs, hactive⟩ | ⟨hrun, hrun', hco, hactive, hstop'⟩ :=
        step_turn P (List.ne_nil_of_mem hc) hstop hroom hs'
      · subst hxs
        obtain rfl | hc := List.mem_cons.mp hc
        · exact .served ..
        · have hrec := ih P' (hstop'.trans hstop)
            (by rw [← hys, hactive]; exact List.mem_append_left _ hc) (hco ▸ hne) hrest
          rw [hco, ← hys, hactive] at hrec
          exact .serve _ hrec.of_rested
      · rw [beq_false_of_ne hrun, hrun']
        have hc' : c ∈ ys := by rwa [← hys, hactive]
        have hne' : c ≠ s'.co := hco ▸ hne
        have hrec := ih P' (by simp [hstop', P'.coroSize_ne_zero hc' hne']) hc' hne' hrest
        rw [hrun', hco, beq_self_eq_true, ← hys, hactive, ← List.append_nil xs] at hrec
        exact .rest hrec

theorem Populated.fair (P : Populated s xs) : Fair s := by
  intro hstop k c hk hne run hroom hlen
  rw [P.inv.active] at hk ⊢
  have hR := rota P hstop (List.mem_of_getElem? hk) hne hroom
  -- the list has no coroutine twice
  have hfirst : c ∉ xs.take k := by
    intro hmem
    obtain ⟨j, hj, heq⟩ := List.mem_take_iff_getElem.mp hmem
    obtain ⟨hk', hck⟩ := List.getElem?_eq_some_iff.mp hk
    have := (P.inv.nodup.getElem_inj_iff).mp (heq.trans hck.symm)
    omega
  obtain ⟨i, hi, hti, hbefore⟩ := hR.served_at hk hfirst (by omega)
  exact ⟨i, by omega, hti, hbefore⟩

/-- **Every coroutine gets its turn.** For every `max_coro`, any number of spawned coroutines and every
behaviour of theirs for which the heap has room: in every state reached before the scheduler stops, the
coroutine at the place `k` of the list has control within `2 * k + 2` steps of any run that goes on from
there, and those that have it before are the `k` coroutines in front of it, in their order, and
`s->co`. -/
theorem fair_of_hasRoom (maxCoro t : ℕ) (events : List Event)
    (hroom : Exec.BeforeEach eventStep HasRoom (scheCreate maxCoro t) events) :
    Exec.Always eventStep Fair (scheCreate maxCoro t) events := by
  refine (Exec.safe_of_beforeEach (I := fun s => ∃ xs, Populated s xs)
    (F := fun _ _ f => f = .assertion) (fun s P => ?_) (fun s e P hroom => ?_)
    ⟨[], populated_scheCreate maxCoro t⟩ hroom).1
  · obtain ⟨xs, P⟩ := P
    exact P.fair
  · obtain ⟨xs, P⟩ := P
    obtain herr | ⟨s', ys, hs', P'⟩ := P.step hroom
    · rw [herr]
    · rw [hs']
      exact ⟨ys, P'⟩

/-- Three coroutines, of which the first sleeps and the second finishes. -/
def fairEvents : List Event :=
  [.spawn 7, .spawn 8, .spawn 9, .act .yield 0, .act (.sleep 500) 0, .act .finish 0]

theorem fair_of_hasRoom_three : Exec.Always eventStep Fair (scheCreate 4 0) fairEvents :=
  fair_of_hasRoom 4 0 fairEvents (by decide)

end Kendylib.Scheduler
