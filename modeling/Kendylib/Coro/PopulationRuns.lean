import Kendylib.Coro.SchedulerRuns
import Kendylib.Foundations.Run

/-!
# The population of the scheduler

Where the coroutines are in a run. The main context calls `sche_spawn` at any time it has control.

A coroutine that sleeps is in the heap only if `minheap_insert` has put it there. `sche_create` makes
the heap with `max_coro` positions, of which the first is not used, and nothing keeps the number of
coroutines below it: a coroutine that goes to sleep when `max_coro - 1` are asleep already is written
behind the last position, or is refused if there are no positions at all. It is then in no list and
never runs again. As long as there is a position for every sleeper no coroutine is lost
(`accounted_iff_hasRoom`).
-/

namespace Kendylib.Scheduler

open MinHeap

/-- What happens next: the main context spawns a coroutine, or the coroutine that has control takes
a step at the clock reading `now`. -/
inductive Event
  | spawn (arg : ℕ)
  | act (a : Action) (now : ℕ)

/-- One event. Coroutines do not call `sche_spawn`. -/
def eventStep (s : Sche) : Event → Exec Sche
  | .spawn arg => if s.running = s.co then scheSpawn s arg else .ok s
  | .act a now => step s a now

/-- The coroutine is an element of the heap. -/
def InHeap (s : Sche) (c : ℕ) : Prop :=
  ∃ i, 1 ≤ i ∧ i ≤ s.minheap.size ∧ s.minheap.data[i]? = some (some c)

/-- The coroutines that have been spawned and are not destroyed. -/
def Sche.spawned (s : Sche) : Finset ℕ :=
  (Finset.range s.created).filter fun c => c ≠ s.co ∧ (s.coros c).isSome

/-- No coroutine is lost, and `coro_size` is their number. -/
structure Accounted (s : Sche) : Prop where
  placed : ∀ c ∈ s.spawned, c = s.running ∨ c ∈ s.active ∨ InHeap s c
  counted : s.coroSize = s.spawned.card

/-- If the coroutine that has control goes to sleep, the heap has a position for it. -/
def HasRoom (s : Sche) : Event → Prop
  | .act (.sleep _) _ => s.running ≠ s.co → s.minheap.size + 1 < s.minheap.maxSize
  | _ => True

variable {s s' s₁ : Sche} {xs ys ws : List ℕ} {c d now : ℕ} {x : Coro} {a : Action}

theorem Inv.inHeap_iff (i : Inv s xs) : InHeap s c ↔ s.minheap.index c ≠ 0 := by
  constructor
  · rintro ⟨j, hj1, hj, hdata⟩
    have heq := i.heap.filled j hj1 hj
    rw [hdata, Option.some.injEq, Option.some.injEq] at heq
    rw [heq, i.heap.index_entry j hj1 hj]
    omega
  · intro hne
    obtain ⟨hle, hentry⟩ := i.heap.contained c trivial hne
    have hdata := i.heap.filled _ (Nat.one_le_iff_ne_zero.mpr hne) hle
    rw [hentry] at hdata
    exact ⟨_, Nat.one_le_iff_ne_zero.mpr hne, hle, hdata⟩

theorem Inv.mem_spawned (i : Inv s xs) : c ∈ s.spawned ↔ c ≠ s.co ∧ ∃ x, s.coros c = some x := by
  rw [Sche.spawned, Finset.mem_filter, Finset.mem_range, Option.isSome_iff_exists]
  refine and_iff_right_of_imp ?_
  rintro ⟨-, x, hx⟩
  exact i.lt_created hx

/-- No coroutine has been made or destroyed. -/
structure SameCoros (s s' : Sche) : Prop where
  co : s'.co = s.co
  coroSize : s'.coroSize = s.coroSize
  created : s'.created = s.created
  isSome : ∀ c, (s'.coros c).isSome = (s.coros c).isSome

theorem SameCoros.trans {s₂ : Sche} (h₁ : SameCoros s s₁) (h₂ : SameCoros s₁ s₂) : SameCoros s s₂ :=
  ⟨h₂.co.trans h₁.co, h₂.coroSize.trans h₁.coroSize, h₂.created.trans h₁.created,
    fun c => (h₂.isSome c).trans (h₁.isSome c)⟩

theorem SameCoros.set (hx : s.coros c = some x) (x' : Coro) : SameCoros s (s.set c x') := by
  refine ⟨rfl, rfl, rfl, fun d => ?_⟩
  by_cases hd : d = c
  · rw [hd, coros_set_self, hx]
    rfl
  · rw [coros_set_of_ne hd]

theorem SameCoros.spawned (h : SameCoros s s') : s'.spawned = s.spawned := by
  rw [Sche.spawned, Sche.spawned, h.created]
  refine Finset.filter_congr fun c _ => ?_
  rw [h.co, h.isSome c]

/-- The invariant of all runs. -/
structure Populated (s : Sche) (xs : List ℕ) : Prop where
  inv : Inv s xs
  control : Control s xs
  placed : ∀ c ∈ s.spawned, s.minheap.index c ≠ 0 ∨ c = s.running ∨ c ∈ xs
  counted : s.coroSize = s.spawned.card

theorem Populated.accounted (P : Populated s xs) : Accounted s := by
  refine ⟨fun c hc => ?_, P.counted⟩
  rw [P.inv.active, P.inv.inHeap_iff]
  obtain h | h | h := P.placed c hc
  · exact .inr (.inr h)
  · exact .inl h
  · exact .inr (.inl h)

theorem Populated.of_same (P : Populated s xs) (h : SameCoros s s') (i' : Inv s' ys)
    (k' : Control s' ys)
    (hplaced : ∀ c ∈ s.spawned, s'.minheap.index c ≠ 0 ∨ c = s'.running ∨ c ∈ ys) : Populated s' ys :=
  ⟨i', k', fun c hc => hplaced c (h.spawned ▸ hc), by rw [h.coroSize, h.spawned, P.counted]⟩

/-! ## Switching -/

/-- The look at the clock loses nobody. -/
theorem placed_checkClock (i : Inv s xs) (now : ℕ) :
    ∃ s' ws, checkClock s now = .ok s' ∧ Inv s' (xs ++ ws) ∧ Clocked s s' now ws ∧ SameCoros s s' ∧
      ∀ c, s.minheap.index c ≠ 0 ∨ c ∈ xs → s'.minheap.index c ≠ 0 ∨ c ∈ xs ++ ws := by
  obtain ⟨s', ws, hs', i', k, hframe, hindex⟩ := checkClock_woken i now
  refine ⟨s', ws, hs', i', k, ⟨k.co, by rw [hframe], by rw [hframe], fun c => ?_⟩, fun c hc => ?_⟩
  · rw [k.coros c]
    split_ifs
    · exact Option.isSome_map ..
    · rfl
  · rw [hindex, List.mem_append]
    by_cases hw : c ∈ ws
    · exact .inr (.inr hw)
    · exact hc.imp (fun h => ⟨h, hw⟩) .inl

/-- **`_sche_next`** loses nobody but a coroutine that neither yields nor is in the heap. -/
theorem placed_scheNext' (i : Inv s xs) (hx : s.coros c = some x) (hdie : x.status ≠ .die)
    (hyield : x.status = .yield → c ∉ xs) (hs' : scheNext' s c = .ok s') (i' : Inv s' ys) :
    SameCoros s s' ∧ (∀ d, s.minheap.index d ≠ 0 ∨ d ∈ xs →
        s'.minheap.index d ≠ 0 ∨ d = s'.running ∨ d ∈ ys) ∧
      (x.status = .yield → c ∈ ys) := by
  obtain ⟨-, herr⟩ | ⟨-, t, ht, it, hrun, hframe, hcoros⟩ := scheNext'_spec i hx hdie hyield
  · rw [herr] at hs'
    cases hs'
  obtain rfl := Except.ok.inj (ht.symm.trans hs')
  have hys : ys = xs.tail ++ if x.status = .yield then [c] else [] := i'.active.symm.trans it.active
  have hheap : t.minheap = s.minheap := by rw [hframe]
  refine ⟨⟨by rw [hframe], by rw [hframe], by rw [hframe], fun d => ?_⟩, fun d hd => ?_, fun hy => ?_⟩
  · rw [hcoros]
    split_ifs
    · exact (SameCoros.set hx _).isSome d
    · rfl
  · rw [hheap]
    refine hd.imp_right fun hd => ?_
    cases xs with
    | nil => cases hd
    | cons n rest =>
      obtain rfl | hd := List.mem_cons.mp hd
      · exact .inl hrun.symm
      · exact .inr (by rw [hys]; exact List.mem_append_left _ hd)
  · rw [hys, if_pos hy]
    simp

/-! ## One step -/

/-- The step returns and keeps the invariant, or the assertion of `_sche_next` fails. -/
def Populates (x : Exec Sche) : Prop := x = .error .assertion ∨ ∃ s' ys, x = .ok s' ∧ Populated s' ys

/-- **A round of `sche_schedule`** loses nobody. -/
theorem populated_round (P : Populated s xs) (hrun : s.running = s.co) (now : ℕ) :
    Populates (scheScheduleRound s now) := by
  obtain ⟨herr, -⟩ | ⟨s', hs', ys, i', k', -⟩ :=
    scheScheduleRound_spec P.inv P.control hrun .yield now
  · exact .inl herr
  refine .inr ⟨s', ys, hs', ?_⟩
  unfold scheScheduleRound at hs'
  split_ifs at hs' with hstop
  · obtain rfl := Except.ok.inj hs'
    rwa [show ys = xs from i'.active.symm.trans P.inv.active]
  obtain ⟨s₁, ws, hs₁, i₁, k₁, hsame, hkept⟩ := placed_checkClock P.inv now
  simp only [hs₁, Exec.ok_bind, i₁.lists.isEmpty] at hs'
  -- `s->co` is not among the spawned
  have hplaced : ∀ c ∈ s.spawned, s₁.minheap.index c ≠ 0 ∨ c ∈ xs ++ ws := by
    intro c hc
    refine hkept c ?_
    obtain h | h | h := P.placed c hc
    · exact .inl h
    · exact absurd (h.trans hrun) (P.inv.mem_spawned.mp hc).1
    · exact .inr h
  split_ifs at hs' with hnil
  · obtain rfl := Except.ok.inj hs'
    have hys : ys = xs ++ ws := i'.active.symm.trans i₁.active
    exact P.of_same ⟨hsame.co, hsame.coroSize, hsame.created, hsame.isSome⟩ i' k' fun c hc =>
      (hplaced c hc).imp_right fun h => .inr (hys ▸ h)
  · obtain ⟨x, hx, hx₁, hawake, hdie, hyield⟩ := P.control.clocked_co k₁
    obtain ⟨hsame', hkept', -⟩ := placed_scheNext' i₁ hx₁ hdie hyield hs' i'
    exact P.of_same (hsame.trans hsame') i' k' fun c hc => hkept' c (hplaced c hc)

/-- **`coro_yield`** loses nobody. -/
theorem populated_coroYield (P : Populated s xs) (hrun : s.running ≠ s.co) (now : ℕ) :
    Populates (coroYield s s.running now) := by
  obtain ⟨s', hs', ys, i', k', -⟩ := coroYield_spec P.inv P.control hrun now
  refine .inr ⟨s', ys, hs', ?_⟩
  obtain ⟨x, hx, hst⟩ := P.control.coros_running hrun
  have hmem := (P.control.running hrun).2
  have hawake : s.status s.running ≠ some .sleep := by
    rw [status_of_coros hx, hst]
    decide
  have i₀ : Inv (s.set s.running { x with status := .yield }) xs :=
    P.inv.set hmem (P.inv.lt_created hx) hawake (by simp)
  have hst₀ : (s.set s.running { x with status := .yield }).status s.running ≠ some .sleep := by
    rw [status_set_self]
    simp
  obtain ⟨s₁, ws, hs₁, i₁, k₁, hsame, hkept⟩ := placed_checkClock i₀ now
  have hx₁ : s₁.coros s.running = some { x with status := .yield } := by
    rw [k₁.coros_of_not_sleep hst₀, coros_set_self]
  simp only [coroYield, scheNext, get_of_coros hx, Exec.ok_bind, hs₁] at hs'
  obtain ⟨hsame', hkept', hlast⟩ :=
    placed_scheNext' i₁ hx₁ (by simp) (fun _ => k₁.not_mem hmem hst₀) hs' i'
  refine P.of_same (((SameCoros.set hx _).trans hsame).trans hsame') i' k' fun c hc => ?_
  obtain h | rfl | h := P.placed c hc
  · exact hkept' c (hkept c (.inl h))
  · exact .inr (.inr (hlast rfl))
  · exact hkept' c (hkept c (.inr h))

/-- **`coro_sleep`** loses nobody if the heap has a position for the sleeper. -/
theorem populated_coroSleep (P : Populated s xs) (hrun : s.running ≠ s.co) (ms : ℤ) (now : ℕ)
    (hroom : s.minheap.size + 1 < s.minheap.maxSize) : Populates (coroSleep s s.running ms now) := by
  obtain ⟨x, hx, hst⟩ := P.control.coros_running hrun
  have hmem := (P.control.running hrun).2
  have hawake : s.status s.running ≠ some .sleep := by
    rw [status_of_coros hx, hst]
    decide
  have hspec := coroSleep_spec P.inv P.control hrun ms now
  obtain ⟨h, hh, v, hmax, hidx⟩ := minheapInsert_room (s.set s.running (x.asleep ms now)).less
    P.inv.heap (P.inv.index_eq_zero hawake) hroom
  rw [coroSleep_eq hx, hh, Exec.ok_bind] at hspec ⊢
  have i₁ : Inv { s.set s.running (x.asleep ms now) with minheap := h } xs :=
    P.inv.sleep hmem (P.inv.lt_created hx) hawake v hmax (.inl hidx) rfl
  have hx₁ : ({ s.set s.running (x.asleep ms now) with minheap := h } : Sche).coros s.running =
      some (x.asleep ms now) := coros_set_self
  obtain herr | ⟨s', hs', ys, i', k', -⟩ := hspec
  · obtain ⟨-, hass⟩ | ⟨-, s', hs', -⟩ := scheNext'_spec i₁ hx₁ nofun nofun
    · exact .inl hass
    · rw [hs'] at herr
      cases herr
  · obtain ⟨hsame', hkept', -⟩ := placed_scheNext' i₁ hx₁ nofun nofun hs' i'
    have hsame := SameCoros.set hx (x.asleep ms now)
    refine .inr ⟨s', ys, hs', P.of_same
      ⟨hsame'.co.trans hsame.co, hsame'.coroSize.trans hsame.coroSize,
        hsame'.created.trans hsame.created, fun c => (hsame'.isSome c).trans (hsame.isSome c)⟩ i' k'
      fun c hc => hkept' c ?_⟩
    change h.index c ≠ 0 ∨ c ∈ xs
    rw [hidx]
    obtain h | rfl | h := P.placed c hc
    · exact .inl (.inl h)
    · exact .inl (.inr rfl)
    · exact .inr h

/-- **The end of `coro_fun`** destroys the coroutine that has control and loses no other. -/
theorem populated_coroFunEnd (P : Populated s xs) (hrun : s.running ≠ s.co) :
    Populates (coroFunEnd s s.running) := by
  obtain ⟨s', hs', ys, i', k', -⟩ := coroFunEnd_spec P.inv P.control hrun 0
  obtain ⟨x, hx, hst⟩ := P.control.coros_running hrun
  have heq := coroFunEnd_eq P.inv hx hst
  obtain rfl := Except.ok.inj (heq.symm.trans hs')
  have hys : ys = xs := i'.active.symm.trans P.inv.active
  have hmem : s.running ∈ s.spawned := P.inv.mem_spawned.mpr ⟨hrun, x, hx⟩
  have hspawned : (({ s.set s.running { x with status := .die } with running := s.co } :
      Sche).reap s.running).spawned = s.spawned.erase s.running := by
    ext c
    rw [i'.mem_spawned, Finset.mem_erase, P.inv.mem_spawned]
    change c ≠ s.co ∧ _ ↔ _
    by_cases hc : c = s.running
    · simp [hc, Sche.reap, Sche.coroDestroy]
    · simp [hc, Sche.reap, Sche.coroDestroy, Sche.set]
  refine .inr ⟨_, ys, heq, i', k', fun c hc => ?_, ?_⟩
  · rw [hspawned] at hc
    obtain ⟨hne, hc⟩ := Finset.mem_erase.mp hc
    obtain h | h | h := P.placed c hc
    · exact .inl h
    · exact absurd h hne
    · exact .inr (.inr (hys ▸ h))
  · rw [hspawned, Finset.card_erase_of_mem hmem]
    have hcard := Finset.card_pos.mpr ⟨_, hmem⟩
    change s.coroSize - 1 = _
    rw [P.counted]
    omega

/-- **`sche_spawn`** adds a coroutine to the list. -/
theorem populated_scheSpawn (P : Populated s xs) (hrun : s.running = s.co) (arg : ℕ) :
    Populates (scheSpawn s arg) := by
  obtain ⟨s', hs', i', hframe, hcoros⟩ := scheSpawn_inv P.inv arg
  have hnone : s.coros s.created = none := P.inv.created s.created le_rfl
  have hco : s'.co = s.co := by rw [hframe]
  have hne : s.co ≠ s.created := by
    obtain ⟨x, hx, -⟩ := P.control.coros_co
    intro h
    rw [h, hnone] at hx
    cases hx
  have hnew : s.created ∉ s.spawned := fun h => by
    obtain ⟨-, x, hx⟩ := P.inv.mem_spawned.mp h
    rw [hnone] at hx
    cases hx
  have hspawned : s'.spawned = insert s.created s.spawned := by
    ext c
    rw [i'.mem_spawned, Finset.mem_insert, P.inv.mem_spawned, hco, hcoros]
    by_cases hc : c = s.created
    · simp [hc, hne.symm]
    · simp [hc]
  refine .inr ⟨s', _, hs', i', ⟨fun h => ?_, ?_⟩, fun c hc => ?_, ?_⟩
  · rw [hco, hframe] at h
    exact absurd hrun h
  · have hst : s'.status s'.co = s.status s.co := by
      rw [Sche.status, hco, hcoros, Function.update_of_ne hne, Sche.status]
    rw [hst, hco, List.mem_append, List.mem_singleton, hframe]
    exact P.control.co.imp_right fun h => ⟨h.1, h.2.1, not_or.mpr ⟨h.2.2, hne⟩⟩
  · rw [hspawned] at hc
    rw [List.mem_append, List.mem_singleton, show s'.minheap = s.minheap by rw [hframe],
      show s'.running = s.running by rw [hframe]]
    obtain rfl | hc := Finset.mem_insert.mp hc
    · exact .inr (.inr (.inr rfl))
    · exact (P.placed c hc).imp_right (Or.imp_right .inl)
  · rw [hspawned, Finset.card_insert_of_notMem hnew, show s'.coroSize = s.coroSize + 1 by rw [hframe],
      P.counted]
    rfl

/-- **Every event** keeps the invariant if there is a position for who goes to sleep. -/
theorem Populated.step (P : Populated s xs) {e : Event} (hroom : HasRoom s e) :
    Populates (eventStep s e) := by
  cases e with
  | spawn arg =>
    rw [eventStep]
    split_ifs with hrun
    · exact populated_scheSpawn P hrun arg
    · exact .inr ⟨s, xs, rfl, P⟩
  | act a now =>
    rw [eventStep]
    unfold Scheduler.step
    split_ifs with hrun
    · exact populated_round P hrun now
    · cases a with
      | yield => exact populated_coroYield P hrun now
      | sleep ms => exact populated_coroSleep P hrun ms now (hroom hrun)
      | finish => exact populated_coroFunEnd P hrun

/-- **Without a position** the coroutine that goes to sleep is lost, or written behind the last. -/
theorem Populated.lost (P : Populated s xs) {e : Event} (hroom : ¬ HasRoom s e) :
    match eventStep s e with
    | .ok s' => ¬ Accounted s'
    | .error f => ¬ f = .assertion := by
  cases e with
  | spawn arg => exact absurd trivial hroom
  | act a now =>
    cases a with
    | yield => exact absurd trivial hroom
    | finish => exact absurd trivial hroom
    | sleep ms =>
      rw [HasRoom, Classical.not_imp] at hroom
      obtain ⟨hrun, hroom⟩ := hroom
      obtain ⟨x, hx, hst⟩ := P.control.coros_running hrun
      have hmem := (P.control.running hrun).2
      have hawake : s.status s.running ≠ some .sleep := by
        rw [status_of_coros hx, hst]
        decide
      have hidx := P.inv.index_eq_zero hawake
      have hstep : eventStep s (.act (.sleep ms) now) = coroSleep s s.running ms now := by
        rw [eventStep, Scheduler.step, if_neg hrun]
      rw [hstep, coroSleep_eq hx]
      obtain ⟨hh, h0⟩ | hh :=
        minheapInsert_full (s.set s.running (x.asleep ms now)).less P.inv.heap hidx hroom
      · have i₁ : Inv { s.set s.running (x.asleep ms now) with minheap := s.minheap } xs :=
          P.inv.sleep hmem (P.inv.lt_created hx) hawake P.inv.heap rfl (.inr ⟨rfl, h0⟩) rfl
        have hx₁ : ({ s.set s.running (x.asleep ms now) with minheap := s.minheap } : Sche).coros
            s.running = some (x.asleep ms now) := coros_set_self
        rw [hh, Exec.ok_bind]
        obtain ⟨hself, -⟩ | ⟨hne, s', hs', i', hrun', hframe, hcoros⟩ :=
          scheNext'_spec i₁ hx₁ nofun nofun
        · -- the coroutine that has control is not in the list
          cases xs with
          | nil => exact absurd hself hrun
          | cons n rest =>
            obtain rfl : s.running = n := hself
            exact absurd List.mem_cons_self hmem
        · rw [hs']
          rintro ⟨hplaced, -⟩
          have hspawned : s.running ∈ s'.spawned := by
            rw [i'.mem_spawned, show s'.co = s.co by rw [hframe]; rfl, hcoros]
            exact ⟨hrun, _, hx₁⟩
          have hplaced := hplaced _ hspawned
          rw [hrun', i'.active, i'.inHeap_iff, show s'.minheap = s.minheap by rw [hframe]] at hplaced
          obtain h | h | h := hplaced
          · exact hne h
          · rw [if_neg nofun, List.append_nil] at h
            exact hmem (List.mem_of_mem_tail h)
          · exact h hidx
      · rw [hh]
        nofun

/-! ## Runs -/

theorem populated_scheCreate (maxCoro t : ℕ) : Populated (scheCreate maxCoro t) [] := by
  have hspawned : (scheCreate maxCoro t).spawned = ∅ := rfl
  refine ⟨inv_scheCreate maxCoro t, ⟨fun h => absurd rfl h, .inr ⟨rfl, rfl, by simp⟩⟩, fun c hc => ?_, ?_⟩
  · rw [hspawned] at hc
    cases hc
  · rw [hspawned]
    rfl

/-- **No coroutine is lost, exactly if the heap has a position for every sleeper.** For every
`max_coro`, any number of spawned coroutines and every behaviour of theirs: in every state each one
that is not destroyed has control, is in the list or in the heap, `coro_size` is their number, and no
event accesses memory wrongly, if and only if `coro_sleep` is called only when there is a position in
the heap. -/
theorem accounted_iff_hasRoom (maxCoro t : ℕ) (events : List Event) :
    Exec.Always eventStep Accounted (scheCreate maxCoro t) events ∧
        Exec.FaultsOnly eventStep (fun _ _ f => f = .assertion) (scheCreate maxCoro t) events ↔
      Exec.BeforeEach eventStep HasRoom (scheCreate maxCoro t) events := by
  refine Exec.safe_iff_beforeEach (I := fun s => ∃ xs, Populated s xs) (fun s P => ?_)
    (fun s e P hroom => ?_) (fun s e P hroom => ?_) ⟨[], populated_scheCreate maxCoro t⟩
  · obtain ⟨xs, P⟩ := P
    exact P.accounted
  · obtain ⟨xs, P⟩ := P
    obtain herr | ⟨s', ys, hs', P'⟩ := P.step hroom
    · rw [herr]
    · rw [hs']
      exact ⟨ys, P'⟩
  · obtain ⟨xs, P⟩ := P
    have hlost := P.lost hroom
    cases hstep : eventStep s e with
    | ok s' =>
      rw [hstep] at hlost
      exact hlost
    | error f =>
      rw [hstep] at hlost
      exact hlost

/-- A scheduler with no position at all: the first coroutine that goes to sleep is lost. -/
theorem not_accounted_no_position :
    ¬ Exec.Always eventStep Accounted (scheCreate 0 0)
      [.spawn 7, .act .yield 0, .act (.sleep 500) 0] := by
  obtain ⟨s, hrun⟩ := Exec.exists_ok (x := do
    let s₁ ← eventStep (scheCreate 0 0) (.spawn 7)
    let s₂ ← eventStep s₁ (.act .yield 0)
    let s₃ ← eventStep s₂ (.act (.sleep 500) 0)
    if 1 ∈ s₃.spawned ∧ 1 ≠ s₃.running ∧ 1 ∉ s₃.active ∧ s₃.minheap.size = 0 then
      return s₃
    else .error .fuel) (by decide)
  obtain ⟨s₁, hs₁, hrun⟩ := Exec.bind_eq_ok.mp hrun
  obtain ⟨s₂, hs₂, hrun⟩ := Exec.bind_eq_ok.mp hrun
  obtain ⟨s₃, hs₃, hrun⟩ := Exec.bind_eq_ok.mp hrun
  split_ifs at hrun with hlost
  obtain ⟨hspawned, hrunning, hactive, hsize⟩ := hlost
  simp only [Exec.Always, hs₁, hs₂, hs₃]
  rintro ⟨-, -, -, hplaced, -⟩
  obtain h | h | ⟨i, h1, hi, -⟩ := hplaced 1 hspawned
  · exact hrunning h
  · exact hactive h
  · omega

end Kendylib.Scheduler
