import Kendylib.Coro.Scheduler

/-!
# Runs of the scheduler

A run begins with `sche_create` and any number of `sche_spawn`; then the coroutine that has control
takes a step: a round of `sche_schedule` for `s->co`, and for every other coroutine what it likes
to do, with any reading of the clock.
-/

namespace Kendylib.Scheduler

open MinHeap

/-- What a coroutine does next. -/
inductive Action
  | yield
  | sleep (ms : ℤ)
  | finish
  deriving DecidableEq

/-- The coroutine that has control takes a step, at the clock reading `now`. -/
def step (s : Sche) (a : Action) (now : ℕ) : Exec Sche :=
  if s.running = s.co then scheScheduleRound s now
  else match a with
    | .yield => coroYield s s.running now
    | .sleep ms => coroSleep s s.running ms now
    | .finish => coroFunEnd s s.running

/-! ## What the scheduler keeps -/

/-- The list is `xs` and what is in it is active; what is in the heap is asleep, and nothing else
is asleep unless the heap has no room at all. -/
structure Inv (s : Sche) (xs : List ℕ) : Prop where
  lists : s.lists.Represents fun _ => xs
  next : ∀ c, c ∉ xs → s.lists.next c = none
  heap : Valid s.minheap
  queued : ∀ c ∈ xs, s.status c = some .active
  sleeping : ∀ c, s.minheap.index c ≠ 0 → s.status c = some .sleep
  asleep : ∀ c, s.status c = some .sleep → s.minheap.index c ≠ 0 ∨ s.minheap.maxSize = 0
  created : ∀ c, s.created ≤ c → s.coros c = none

/-- The coroutine that has control is active and not in the list, `s->co` apart. -/
structure Control (s : Sche) (xs : List ℕ) : Prop where
  running : s.running ≠ s.co → s.status s.running = some .active ∧ s.running ∉ xs
  co : s.status s.co = some .active ∨
    s.status s.co = some .yield ∧ s.running = s.co ∧ s.co ∉ xs

section Sche

variable {s s' : Sche} {xs ws : List ℕ} {c d now : ℕ} {x : Coro}

theorem Inv.active (i : Inv s xs) : s.active = xs := i.lists.nodes ()

theorem Inv.nodup (i : Inv s xs) : xs.Nodup := i.lists.nodup ()

theorem status_eq_some {st : Status} :
    s.status c = some st ↔ ∃ x, s.coros c = some x ∧ x.status = st := by
  simp [Sche.status]

theorem status_of_coros (h : s.coros c = some x) : s.status c = some x.status := by
  simp [Sche.status, h]

theorem get_of_coros (h : s.coros c = some x) : s.get c = .ok x := by simp [Sche.get, h]

@[simp] theorem coros_set_self : (s.set c x).coros c = some x := Function.update_self ..

theorem coros_set_of_ne (h : d ≠ c) : (s.set c x).coros d = s.coros d := Function.update_of_ne h ..

@[simp] theorem status_set_self : (s.set c x).status c = some x.status := by simp [Sche.status]

theorem status_set_of_ne (h : d ≠ c) : (s.set c x).status d = s.status d := by
  rw [Sche.status, coros_set_of_ne h, Sche.status]

/-- A coroutine that is not asleep is not in the heap. -/
theorem Inv.index_eq_zero (i : Inv s xs) (h : s.status c ≠ some .sleep) : s.minheap.index c = 0 := by
  by_contra hne
  exact h (i.sleeping c hne)

theorem Inv.lt_created (i : Inv s xs) (h : s.coros c = some x) : c < s.created := by
  by_contra hlt
  rw [i.created c (by omega)] at h
  cases h

/-- Altering the record of a coroutine that is neither in the list nor asleep, before or after. -/
theorem Inv.set (i : Inv s xs) (hx : c ∉ xs) (hc : c < s.created) (h : s.status c ≠ some .sleep)
    (hst : x.status ≠ .sleep) : Inv (s.set c x) xs where
  lists := i.lists
  next := i.next
  heap := i.heap
  queued d hd := by
    rw [status_set_of_ne (by rintro rfl; exact hx hd), i.queued d hd]
  sleeping d hd := by
    rw [status_set_of_ne (by rintro rfl; exact hd (i.index_eq_zero h)), i.sleeping d hd]
  asleep d hd := by
    obtain rfl | hne := eq_or_ne d c
    · rw [status_set_self] at hd
      exact absurd (Option.some.inj hd) hst
    · rw [status_set_of_ne hne] at hd
      exact i.asleep d hd
  created d hd := by
    have hd' : s.created ≤ d := hd
    rw [coros_set_of_ne (by omega), i.created d hd']

/-- The fields that `Inv` does not speak of. -/
theorem Inv.of_eq (i : Inv s xs) (hl : s'.lists = s.lists) (hh : s'.minheap = s.minheap)
    (hc : s'.coros = s.coros) (hn : s.created ≤ s'.created) : Inv s' xs := by
  have hst : ∀ c, s'.status c = s.status c := fun c => by rw [Sche.status, hc, Sche.status]
  refine ⟨hl ▸ i.lists, fun c h => hl ▸ i.next c h, hh ▸ i.heap, fun c h => ?_, fun c h => ?_,
    fun c h => ?_, fun c h => ?_⟩
  · rw [hst, i.queued c h]
  · rw [hst, i.sleeping c (hh ▸ h)]
  · rw [hh]
    exact i.asleep c (hst c ▸ h)
  · rw [hc, i.created c (le_trans hn h)]

theorem update_const (xs ys : List ℕ) :
    (Function.update (fun _ : Unit => xs) () ys) = fun _ => ys := by
  funext u
  simp

/-- **Putting an active coroutine into the list.** -/
theorem Inv.pushBack (i : Inv s xs) (hx : c ∉ xs) (hc : s.status c = some .active) :
    ∃ l, s.pushBack c = .ok { s with lists := l } ∧ Inv { s with lists := l } (xs ++ [c]) := by
  obtain ⟨l, hl, r, hnext⟩ := i.lists.pushBack () (n := c) (fun _ => hx) (i.next c hx)
  rw [update_const] at r
  refine ⟨l, by simp [Sche.pushBack, hl], r, fun d hd => ?_, i.heap, fun d hd => ?_, i.sleeping,
    i.asleep, i.created⟩
  · rw [List.mem_append, not_or] at hd
    rw [hnext d fun _ => hd.1, i.next d hd.1]
  · rw [List.mem_append, List.mem_singleton] at hd
    obtain hd | rfl := hd
    · exact i.queued d hd
    · exact hc

/-- Taking a coroutine off the heap and making it active. -/
theorem Inv.wake (i : Inv s xs) {h : MinHeap.Heap ℕ} (hc : s.status c = some .sleep) (v : Valid h)
    (hmax : h.maxSize = s.minheap.maxSize)
    (hidx : ∀ d, h.index d ≠ 0 ↔ s.minheap.index d ≠ 0 ∧ d ≠ c) (hx : x.status = .active) :
    c ∉ xs ∧ Inv ({ s with minheap := h }.set c x) xs := by
  have hmem : c ∉ xs := by
    intro hmem
    rw [i.queued c hmem] at hc
    cases hc
  obtain ⟨y, hy, -⟩ := status_eq_some.mp hc
  have hlt := i.lt_created hy
  refine ⟨hmem, i.lists, i.next, v, fun d hd => ?_, fun d hd => ?_, fun d hd => ?_,
    fun d hd => ?_⟩
  · rw [status_set_of_ne (by rintro rfl; exact hmem hd)]
    exact i.queued d hd
  · obtain ⟨hd, hne⟩ := (hidx d).mp hd
    rw [status_set_of_ne hne]
    exact i.sleeping d hd
  · obtain rfl | hne := eq_or_ne d c
    · rw [status_set_self, hx] at hd
      cases hd
    · rw [status_set_of_ne hne] at hd
      refine (i.asleep d hd).imp (fun hd => (hidx d).mpr ⟨hd, hne⟩) fun h0 => ?_
      exact hmax.trans h0
  · have hd' : s.created ≤ d := hd
    rw [coros_set_of_ne (by omega)]
    exact i.created d hd'

/-! ## Waking up -/

/-- `s'` is `s` with the coroutines `ws` taken off the heap and made active, all of them with a
`timeout` that is not below `now`. -/
structure Woken (s s' : Sche) (now : ℕ) (ws : List ℕ) : Prop where
  frame : s' = { s with minheap := s'.minheap, lists := s'.lists, coros := s'.coros }
  coros : ∀ c, s'.coros c =
    if c ∈ ws then (s.coros c).map fun x => { x with status := .active } else s.coros c
  index : ∀ c, s'.minheap.index c ≠ 0 ↔ s.minheap.index c ≠ 0 ∧ c ∉ ws
  maxSize : s'.minheap.maxSize = s.minheap.maxSize
  late : ∀ c ∈ ws, s.minheap.index c ≠ 0 ∧ ∀ x, s.coros c = some x → now ≤ x.timeout

theorem Woken.refl (s : Sche) (now : ℕ) : Woken s s now [] where
  frame := rfl
  coros c := by simp
  index c := by simp
  maxSize := rfl
  late := by simp

/-- The loop ends with an empty heap or at a coroutine with a `timeout` below `now`. -/
def Ended (s : Sche) (now : ℕ) : Prop :=
  (∀ c, s.minheap.index c = 0) ∨
    ∃ c x, s.minheap.index c ≠ 0 ∧ s.coros c = some x ∧ x.timeout < now

theorem checkTimeOutLoop_spec {fuel : ℕ} (now : ℕ) (i : Inv s xs) (hf : s.minheap.size < fuel) :
    ∃ s' ws, checkTimeOutLoop fuel s now = .ok s' ∧ Inv s' (xs ++ ws) ∧ Woken s s' now ws ∧
      Ended s' now := by
  induction fuel generalizing s xs with
  | zero => omega
  | succ fuel ih =>
    by_cases h0 : s.minheap.size = 0
    · refine ⟨s, [], by simp [checkTimeOutLoop, minheapMin, h0], by simpa using i, .refl s now,
        .inl fun c => ?_⟩
      by_contra hne
      have := (i.heap.contained c trivial hne).1
      omega
    · have h1 : 1 ≤ s.minheap.size := by omega
      obtain ⟨e, he⟩ : ∃ e, e = s.minheap.entry 1 := ⟨_, rfl⟩
      have hidx : s.minheap.index e ≠ 0 := by
        rw [he, i.heap.index_entry 1 le_rfl h1]
        omega
      have hst := i.sleeping e hidx
      obtain ⟨x, hx, hxs⟩ := status_eq_some.mp hst
      have hmin : minheapMin s.minheap = .ok (some e) := by
        simp [minheapMin, h0, i.heap.get le_rfl h1, he]
      simp only [checkTimeOutLoop, hmin, Exec.ok_bind, get_of_coros hx]
      by_cases hlt : x.timeout < now
      · exact ⟨s, [], by simp [hlt], by simpa using i, .refl s now, .inr ⟨e, x, hidx, hx, hlt⟩⟩
      obtain ⟨h, hpop, v, hsize, hmax, hmem⟩ := minheapPopmin_members s.less i.heap h0
      rw [← he] at hpop hmem
      obtain ⟨hnot, iw⟩ := i.wake (x := { x with status := .active }) hst v hmax hmem rfl
      obtain ⟨l, hl, il⟩ := iw.pushBack hnot status_set_self
      obtain ⟨s', ws, hs', i', w, hend⟩ := ih il (by
        change h.size < fuel
        omega)
      rw [if_neg hlt, hpop]
      simp only [Exec.ok_bind, hxs, hl]
      rw [if_pos (by decide)]
      refine ⟨s', e :: ws, hs', by simpa using i', ⟨?_, fun c => ?_, fun c => ?_, ?_, ?_⟩, hend⟩
      · have := w.frame
        simp only [Sche.set] at this
        exact this
      · rw [w.coros c]
        obtain rfl | hc := eq_or_ne c e
        · simp [Sche.set, hx]
        · simp [Sche.set, hc]
      · rw [w.index c]
        change h.index c ≠ 0 ∧ _ ↔ _
        rw [hmem c, List.mem_cons, not_or, and_assoc]
      · exact w.maxSize.trans hmax
      · rintro c hc
        obtain rfl | hc := List.mem_cons.mp hc
        · refine ⟨hidx, fun y hy => ?_⟩
          obtain rfl := Option.some.inj (hx.symm.trans hy)
          omega
        · obtain ⟨hci, hct⟩ := w.late c hc
          obtain ⟨hci, hce⟩ := (hmem c).mp hci
          refine ⟨hci, fun y hy => hct y ?_⟩
          exact (coros_set_of_ne hce).trans hy

/-- **`check_time_out`** returns, and moves coroutines from the heap to the end of the list until
it meets one with a `timeout` below the clock. -/
theorem checkTimeOut_spec (i : Inv s xs) (now : ℕ) :
    ∃ s' ws, checkTimeOut s now = .ok { s' with nextCheckTimeout := add32 now 200 } ∧
      Inv s' (xs ++ ws) ∧ Woken s s' now ws ∧ Ended s' now := by
  obtain ⟨s', ws, hs', i', w, hend⟩ := checkTimeOutLoop_spec now i (Nat.lt_succ_self _)
  exact ⟨s', ws, by simp [checkTimeOut, hs'], i', w, hend⟩

/-- The look at the clock calls `check_time_out`. -/
def Checks (s : Sche) (now : ℕ) : Prop := 100 ≤ s.ti ∧ s.nextCheckTimeout ≤ now

instance : Decidable (Checks s now) := inferInstanceAs (Decidable (_ ∧ _))

/-- `s'` is `s` after a look at the clock that made the coroutines `ws` active. -/
structure Clocked (s s' : Sche) (now : ℕ) (ws : List ℕ) : Prop where
  co : s'.co = s.co
  running : s'.running = s.running
  coros : ∀ c, s'.coros c =
    if c ∈ ws then (s.coros c).map fun x => { x with status := .active } else s.coros c
  asleep : ∀ c ∈ ws, s.status c = some .sleep
  checks : ws ≠ [] → Checks s now

/-- The look at the clock moves the coroutines `ws` from the heap to the list. -/
theorem checkClock_woken (i : Inv s xs) (now : ℕ) :
    ∃ s' ws, checkClock s now = .ok s' ∧ Inv s' (xs ++ ws) ∧ Clocked s s' now ws ∧
      s' = { s with minheap := s'.minheap, lists := s'.lists, coros := s'.coros, ti := s'.ti,
                    nextCheckTimeout := s'.nextCheckTimeout } ∧
      ∀ c, s'.minheap.index c ≠ 0 ↔ s.minheap.index c ≠ 0 ∧ c ∉ ws := by
  have i₀ : Inv { s with ti := 0 } xs := i.of_eq rfl rfl rfl le_rfl
  unfold checkClock
  split
  · rename_i hti
    dsimp only
    split
    · rename_i hnext
      obtain ⟨s', ws, hs', i', w, -⟩ := checkTimeOut_spec i₀ now
      have hframe := w.frame
      refine ⟨_, ws, hs', i'.of_eq rfl rfl rfl le_rfl, ⟨?_, ?_, w.coros, fun c hc => ?_,
        fun _ => ⟨hti, hnext⟩⟩, ?_, w.index⟩
      · have := congrArg Sche.co hframe
        exact this
      · have := congrArg Sche.running hframe
        exact this
      · exact i.sleeping c (w.late c hc).1
      · rw [hframe]
    · exact ⟨_, [], rfl, by simpa using i₀, ⟨rfl, rfl, by simp, by simp, by simp⟩, rfl, by simp⟩
  · exact ⟨s, [], rfl, by simpa using i, ⟨rfl, rfl, by simp, by simp, by simp⟩, rfl, by simp⟩

theorem checkClock_spec (i : Inv s xs) (now : ℕ) :
    ∃ s' ws, checkClock s now = .ok s' ∧ Inv s' (xs ++ ws) ∧ Clocked s s' now ws := by
  obtain ⟨s', ws, hs', i', k, -⟩ := checkClock_woken i now
  exact ⟨s', ws, hs', i', k⟩

theorem Clocked.coros_of_not_sleep (k : Clocked s s' now ws) (h : s.status c ≠ some .sleep) :
    s'.coros c = s.coros c := by
  rw [k.coros, if_neg fun hc => h (k.asleep c hc)]

theorem Clocked.status_of_not_sleep (k : Clocked s s' now ws) (h : s.status c ≠ some .sleep) :
    s'.status c = s.status c := by
  rw [Sche.status, k.coros_of_not_sleep h, Sche.status]

theorem Clocked.not_mem (k : Clocked s s' now ws) (hx : c ∉ xs) (h : s.status c ≠ some .sleep) :
    c ∉ xs ++ ws := by
  rw [List.mem_append, not_or]
  exact ⟨hx, fun hc => h (k.asleep c hc)⟩

/-! ## Switching -/

theorem Inv.pop (i : Inv s xs) :
    ∃ l, s.lists.linkListPop () = .ok (xs.head?, l) ∧ Inv { s with lists := l } xs.tail := by
  cases xs with
  | nil => exact ⟨s.lists, i.lists.pop_nil rfl, i⟩
  | cons n ys =>
    obtain ⟨l, hl, r, hn, hnext⟩ := i.lists.pop rfl
    rw [update_const] at r
    refine ⟨l, hl, r, fun c hc => ?_, i.heap, fun c hc => i.queued c (List.mem_cons_of_mem n hc),
      i.sleeping, i.asleep, i.created⟩
    obtain rfl | hne := eq_or_ne c n
    · exact hn
    · rw [hnext c hne, i.next c (by simpa [hne] using hc)]

/-- A switch by a coroutine that has not died. -/
theorem uthreadSwitch_spec (hx : s.coros c = some x) (hdie : x.status ≠ .die) (dest : ℕ) :
    uthreadSwitch s dest c = .ok { s with running := dest } := by
  unfold uthreadSwitch
  dsimp only
  split
  · have hget : ({ s with running := dest } : Sche).get c = .ok x := get_of_coros hx
    simp [afterSwitch, hget, hdie]
  · rfl

/-- **`_sche_next`** takes the first coroutine of the list, or `s->co` if there is none, and puts
the one that yields at the end. The assertion fails if they are the same. -/
theorem scheNext'_spec (i : Inv s xs) (hx : s.coros c = some x) (hdie : x.status ≠ .die)
    (hyield : x.status = .yield → c ∉ xs) :
    (c = xs.head?.getD s.co ∧ scheNext' s c = .error .assertion) ∨
    (c ≠ xs.head?.getD s.co ∧ ∃ s', scheNext' s c = .ok s' ∧
      Inv s' (xs.tail ++ if x.status = .yield then [c] else []) ∧
      s'.running = xs.head?.getD s.co ∧
      s' = { s with lists := s'.lists, coros := s'.coros, running := s'.running,
                    current := s'.current, ti := s'.ti } ∧
      s'.coros = if x.status = .yield then
        Function.update s.coros c (some { x with status := .active }) else s.coros) := by
  obtain ⟨l, hl, i₁⟩ := i.pop
  have hget : ({ s with lists := l } : Sche).get c = .ok x := get_of_coros hx
  simp only [scheNext', hl, Exec.ok_bind, hget]
  by_cases hy : x.status = .yield
  · have hnot : c ∉ xs.tail := fun hc => hyield hy (List.mem_of_mem_tail hc)
    have hst : s.status c ≠ some .sleep := by rw [status_of_coros hx, hy]; decide
    have i₂ : Inv (({ s with lists := l } : Sche).set c { x with status := .active }) xs.tail :=
      i₁.set hnot (i₁.lt_created hx) hst nofun
    obtain ⟨l', hl', i₃⟩ := i₂.pushBack hnot status_set_self
    simp only [if_pos hy, hl', Exec.ok_bind]
    by_cases hc : c = xs.head?.getD s.co
    · exact .inl ⟨hc, by rw [if_pos hc]⟩
    · refine .inr ⟨hc, ?_⟩
      rw [if_neg hc]
      exact ⟨_, uthreadSwitch_spec (x := { x with status := .active }) (by simp [Sche.set]) nofun _,
        i₃.of_eq rfl rfl rfl le_rfl, rfl, rfl, rfl⟩
  · simp only [if_neg hy, List.append_nil]
    by_cases hc : c = xs.head?.getD s.co
    · exact .inl ⟨hc, by rw [if_pos hc]⟩
    · refine .inr ⟨hc, ?_⟩
      change ∃ s', (if c = xs.head?.getD s.co then _ else _) = _ ∧ _
      rw [if_neg hc]
      exact ⟨_, uthreadSwitch_spec (x := x) (by exact hx) hdie _, i₁.of_eq rfl rfl rfl le_rfl, rfl,
        rfl, rfl⟩

/-- The coroutine that `_sche_next` gives control to is active and off the list. Only `s->co` can
be its own successor, and then it was in the list. -/
theorem dispatch_spec (i : Inv s xs) (hx : s.coros c = some x) (hdie : x.status ≠ .die)
    (hmem : c ∉ xs ∨ c = s.co ∧ x.status = .active)
    (hco : s.status s.co = some .active ∨ c = s.co ∧ x.status = .yield)
    (hne : xs ≠ [] ∨ c ≠ s.co) :
    (scheNext' s c = .error .assertion ∧ c ∈ xs) ∨
    ∃ s' ys, scheNext' s c = .ok s' ∧ Inv s' ys ∧ Control s' ys ∧ s'.running ∉ ys ∧
      s'.co = s.co ∧ (∀ d, d ≠ c → s'.coros d = s.coros d) ∧
      ∃ x', s'.coros c = some x' ∧
        x'.status = (if x.status = .yield then .active else x.status) ∧
        x'.timeout = x.timeout := by
  have hyield : x.status = .yield → c ∉ xs := by
    intro hy
    refine hmem.resolve_right fun h => ?_
    rw [hy] at h
    exact nomatch h.2
  obtain ⟨hc, herr⟩ | ⟨hc, s', hs', i', hrun, hframe, hcoros⟩ := scheNext'_spec i hx hdie hyield
  · refine .inl ⟨herr, ?_⟩
    cases xs with
    | nil => exact absurd hc (hne.resolve_left (by simp))
    | cons n ys => exact hc ▸ List.mem_cons_self
  have hsco : s'.co = s.co := by rw [hframe]
  have hother : ∀ d, d ≠ c → s'.coros d = s.coros d := by
    intro d hd
    rw [hcoros]
    split
    · exact Function.update_of_ne hd ..
    · rfl
  have hstatus : ∀ d, d ≠ c → s'.status d = s.status d := by
    intro d hd
    rw [Sche.status, hother d hd, Sche.status]
  -- the coroutine that yields is put behind the others, so it is not the one that runs
  have hout : s'.running ∉ xs.tail ++ if x.status = .yield then [c] else [] := by
    rw [List.mem_append, not_or]
    refine ⟨fun h => ?_, fun h => ?_⟩
    · cases xs with
      | nil => cases h
      | cons n ys =>
        rw [hrun] at h
        exact (List.nodup_cons.mp i.nodup).1 h
    · split at h
      · exact hc (hrun ▸ (List.mem_singleton.mp h).symm)
      · cases h
  refine .inr ⟨s', _, hs', i', ⟨fun hrc => ⟨?_, hout⟩, ?_⟩, hout, hsco, hother, ?_⟩
  · have hne' : s'.running ≠ c := fun h => hc (h ▸ hrun)
    rw [hstatus _ hne']
    cases xs with
    | nil => exact absurd (hrun.trans hsco.symm) hrc
    | cons n ys => exact hrun ▸ i.queued n List.mem_cons_self
  · rw [hsco]
    refine .inl ?_
    by_cases hsc : s.co = c
    · obtain hco | ⟨-, hy⟩ := hco
      · have hxa : x.status = .active := by
          rw [hsc, status_of_coros hx] at hco
          exact Option.some.inj hco
        rw [Sche.status, hcoros, hxa, if_neg (by decide), hsc]
        exact (status_of_coros hx).trans (by rw [hxa])
      · rw [Sche.status, hcoros, if_pos hy, hsc, Function.update_self]
        rfl
    · rw [hstatus _ hsc]
      exact hco.resolve_right fun h => hsc h.1.symm
  · rw [hcoros]
    split
    · exact ⟨_, Function.update_self .., rfl, rfl⟩
    · exact ⟨x, hx, rfl, rfl⟩

/-! ## One step -/

/-- The step calls `check_time_out`. -/
def Looks (s : Sche) (a : Action) (now : ℕ) : Prop :=
  Checks s now ∧ (s.running = s.co ∧ s.stop = false ∨ s.running ≠ s.co ∧ a = .yield)

instance (s : Sche) (a : Action) (now : ℕ) : Decidable (Looks s a now) :=
  inferInstanceAs (Decidable (_ ∧ (_ ∧ _ ∨ _ ∧ _)))

/-- The coroutine `c` goes to sleep in the step. -/
def Sleeps (s : Sche) (a : Action) (c : ℕ) : Prop :=
  c = s.running ∧ s.running ≠ s.co ∧ ∃ ms, a = .sleep ms

/-- What a step makes of the record `x` of the coroutine `c`. -/
inductive Change (s : Sche) (a : Action) (now c : ℕ) (x x' : Coro) : Prop
  | asleep (h : x.status = .sleep) (h' : x'.status = .sleep) (ht : x'.timeout = x.timeout)
  | awake (h : x.status ≠ .sleep) (h' : x'.status ≠ .sleep) (hn : ¬ Sleeps s a c)
  | woken (h : x.status = .sleep) (h' : x'.status ≠ .sleep) (hl : Looks s a now)
  | slept (ms : ℤ) (hc : c = s.running) (hne : s.running ≠ s.co) (ha : a = .sleep ms)
      (h' : x'.status = .sleep) (ht : x'.timeout = ((now + ms) % 0x100000000).toNat)

/-- A step makes no coroutine and changes the records as `Change` says. -/
def Changes (s s' : Sche) (a : Action) (now : ℕ) : Prop :=
  ∀ c x', s'.coros c = some x' → ∃ x, s.coros c = some x ∧ Change s a now c x x'

/-- A coroutine finishes while `s->co` is in the list. -/
def Slips (s : Sche) (a : Action) : Prop :=
  s.running ≠ s.co ∧ a = .finish ∧ s.co ∈ s.active

instance (s : Sche) (a : Action) : Decidable (Slips s a) :=
  inferInstanceAs (Decidable (_ ∧ _ ∧ _))

variable {a : Action}

theorem Change.refl (hn : ¬ Sleeps s a c) : Change s a now c x x := by
  by_cases h : x.status = .sleep
  · exact .asleep h h rfl
  · exact .awake h h hn

/-- A look at the clock in `s₀`, which is `s` up to the record of `c`, and then a switch away from
`c`, which is awake before and after. -/
theorem changes_of_clocked {s₀ s₁ : Sche} (k : Clocked s₀ s₁ now ws)
    (hn : ∀ d, ¬ Sleeps s a d) (h₀ : ∀ d, d ≠ c → s₀.coros d = s.coros d)
    (hcheck : Checks s₀ now → Looks s a now)
    (h₁ : ∀ d, d ≠ c → s'.coros d = s₁.coros d) (hx : s.coros c = some x)
    (hxs : x.status ≠ .sleep) {x' : Coro} (hx' : s'.coros c = some x') (hxs' : x'.status ≠ .sleep) :
    Changes s s' a now := by
  intro d y' hy'
  obtain rfl | hd := eq_or_ne d c
  · obtain rfl := Option.some.inj (hx'.symm.trans hy')
    exact ⟨x, hx, .awake hxs hxs' (hn d)⟩
  rw [h₁ d hd, k.coros d, h₀ d hd] at hy'
  split at hy'
  · rename_i hmem
    obtain ⟨y, hy, rfl⟩ := Option.map_eq_some_iff.mp hy'
    have hst := k.asleep d hmem
    rw [status_of_coros ((h₀ d hd).trans hy)] at hst
    exact ⟨y, hy, .woken (Option.some.inj hst) nofun
      (hcheck (k.checks (List.ne_nil_of_mem hmem)))⟩
  · exact ⟨y', hy', .refl (hn d)⟩

/-- What a step that returns has to show. -/
def Stepped (s : Sche) (xs : List ℕ) (a : Action) (now : ℕ) (s' : Sche) : Prop :=
  ∃ ys, Inv s' ys ∧ Control s' ys ∧ Changes s s' a now ∧
    (s.running ∉ xs → (s'.running ∈ ys ↔ Slips s a))

theorem Control.coros_co (k : Control s xs) :
    ∃ x, s.coros s.co = some x ∧
      (x.status = .active ∨ x.status = .yield ∧ s.running = s.co ∧ s.co ∉ xs) := by
  obtain h | ⟨h, hrun, hmem⟩ := k.co
  · obtain ⟨x, hx, hs⟩ := status_eq_some.mp h
    exact ⟨x, hx, .inl hs⟩
  · obtain ⟨x, hx, hs⟩ := status_eq_some.mp h
    exact ⟨x, hx, .inr ⟨hs, hrun, hmem⟩⟩

/-- The record of `s->co` behind a look at the clock. -/
theorem Control.clocked_co {s₁ : Sche} (k : Control s xs) (k₁ : Clocked s s₁ now ws) :
    ∃ x, s.coros s.co = some x ∧ s₁.coros s₁.co = some x ∧ s.status s.co ≠ some .sleep ∧
      x.status ≠ .die ∧ (x.status = .yield → s₁.co ∉ xs ++ ws) := by
  obtain ⟨x, hx, hst⟩ := k.coros_co
  have hawake : s.status s.co ≠ some .sleep := by
    rw [status_of_coros hx]
    obtain h | ⟨h, -⟩ := hst <;> rw [h] <;> decide
  refine ⟨x, hx, by rw [k₁.co, k₁.coros_of_not_sleep hawake, hx], hawake, ?_, fun hy => ?_⟩
  · obtain h | ⟨h, -⟩ := hst <;> rw [h] <;> decide
  · obtain h | ⟨-, -, hmem⟩ := hst
    · rw [h] at hy
      cases hy
    · rw [k₁.co]
      exact k₁.not_mem hmem hawake

/-- **A round of `sche_schedule`** fails only where `s->co` is in the list. -/
theorem scheScheduleRound_spec (i : Inv s xs) (k : Control s xs) (hrun : s.running = s.co)
    (a : Action) (now : ℕ) :
    (scheScheduleRound s now = .error .assertion ∧ s.running ∈ xs) ∨
    ∃ s', scheScheduleRound s now = .ok s' ∧ Stepped s xs a now s' := by
  have hslip : ¬ Slips s a := fun h => h.1 hrun
  have hn : ∀ d, ¬ Sleeps s a d := fun d h => h.2.1 hrun
  unfold scheScheduleRound
  split
  · exact .inr ⟨s, rfl, xs, i, k, fun d x' hx' => ⟨x', hx', .refl (hn d)⟩,
      fun h => by simp [h, hslip]⟩
  have hlook : Checks s now → Looks s a now := by
    rename_i hstop
    exact fun h => ⟨h, .inl ⟨hrun, by simpa using hstop⟩⟩
  obtain ⟨s₁, ws, hs₁, i₁, k₁⟩ := checkClock_spec i now
  obtain ⟨x, hx, hx₁, hawake, hdie, hout⟩ := k.clocked_co k₁
  obtain ⟨x', hx', hst⟩ := k.coros_co
  obtain rfl := Option.some.inj (hx.symm.trans hx')
  have hxs : x.status ≠ .sleep := by
    rintro h
    exact hawake (by rw [status_of_coros hx, h])
  have hst₁ : s₁.status s₁.co = some x.status := status_of_coros hx₁
  simp only [hs₁, Exec.ok_bind, i₁.lists.isEmpty]
  by_cases hnil : xs ++ ws = []
  · rw [hnil] at i₁ ⊢
    refine .inr ⟨_, rfl, [], i₁.of_eq rfl rfl rfl le_rfl, ⟨fun h => ?_, ?_⟩, ?_, fun _ => ?_⟩
    · exact absurd (k₁.running.trans (hrun.trans k₁.co.symm)) h
    · change s₁.status s₁.co = _ ∨ s₁.status s₁.co = _ ∧ s₁.running = s₁.co ∧ _
      rw [hst₁]
      refine hst.imp (fun h => by rw [h]) fun h => ⟨by rw [h.1], ?_, by simp⟩
      rw [k₁.running, k₁.co, hrun]
    · exact changes_of_clocked k₁ hn (fun _ _ => rfl) hlook (fun _ _ => rfl) hx hxs
        (by rw [← k₁.co]; exact hx₁) hxs
    · simp [hslip]
  · rw [if_neg (by simpa using hnil)]
    have hmem : s₁.co ∉ xs ++ ws ∨ s₁.co = s₁.co ∧ x.status = .active :=
      hst.symm.imp (fun h => hout h.1) fun h => ⟨rfl, h⟩
    have hco : s₁.status s₁.co = some .active ∨ s₁.co = s₁.co ∧ x.status = .yield := by
      rw [hst₁]
      exact hst.imp (fun h => by rw [h]) fun h => ⟨rfl, h.1⟩
    obtain ⟨herr, hin⟩ | ⟨s', ys, hs', i', k', hnot, hsco, hother, x', hx', hs'', -⟩ :=
      dispatch_spec i₁ hx₁ hdie hmem hco (.inl hnil)
    · refine .inl ⟨herr, ?_⟩
      rw [hrun, ← k₁.co]
      by_contra hnin
      have hout' : s.co ∉ xs := by rwa [← k₁.co]
      exact k₁.not_mem hout' hawake (k₁.co ▸ hin)
    · refine .inr ⟨s', hs', ys, i', k', ?_, fun _ => by simp [hnot, hslip]⟩
      refine changes_of_clocked k₁ hn (fun _ _ => rfl) hlook (c := s.co) (fun d hd => ?_) hx hxs
        (by rw [← k₁.co]; exact hx') ?_
      · exact hother d (by rwa [k₁.co])
      · rw [hs'']
        split
        · decide
        · exact hxs

theorem Control.coros_running (k : Control s xs) (hrun : s.running ≠ s.co) :
    ∃ x, s.coros s.running = some x ∧ x.status = .active := status_eq_some.mp (k.running hrun).1

theorem Control.active_co (k : Control s xs) (hrun : s.running ≠ s.co) :
    s.status s.co = some .active := k.co.resolve_right fun h => hrun h.2.1

/-- **`coro_yield`** by the coroutine that has control. -/
theorem coroYield_spec (i : Inv s xs) (k : Control s xs) (hrun : s.running ≠ s.co) (now : ℕ) :
    ∃ s', coroYield s s.running now = .ok s' ∧ Stepped s xs .yield now s' := by
  obtain ⟨x, hx, hst⟩ := k.coros_running hrun
  have hmem := (k.running hrun).2
  have hxs : x.status ≠ .sleep := by rw [hst]; decide
  have hawake : s.status s.running ≠ some .sleep := by
    rw [status_of_coros hx, hst]
    decide
  obtain ⟨s₀, hs₀⟩ : ∃ s₀, s₀ = s.set s.running { x with status := .yield } := ⟨_, rfl⟩
  have i₀ : Inv s₀ xs := by
    rw [hs₀]
    exact i.set hmem (i.lt_created hx) hawake nofun
  have hco₀ : s₀.co = s.co := by rw [hs₀]; rfl
  have hst₀ : s₀.status s.running = some .yield := by rw [hs₀]; exact status_set_self
  have hcs₀ : s₀.status s.co = some .active := by
    rw [hs₀, status_set_of_ne hrun.symm]
    exact k.active_co hrun
  obtain ⟨s₁, ws, hs₁, i₁, k₁⟩ := checkClock_spec i₀ now
  have hcoros₁ : s₁.coros s.running = some { x with status := .yield } := by
    rw [k₁.coros_of_not_sleep (by rw [hst₀]; decide), hs₀]
    exact coros_set_self
  have hcs₁ : s₁.status s₁.co = some .active := by
    rw [k₁.co, hco₀, k₁.status_of_not_sleep (by rw [hcs₀]; decide), hcs₀]
  have hnot : s.running ∉ xs ++ ws := k₁.not_mem hmem (by rw [hst₀]; decide)
  simp only [coroYield, scheNext, get_of_coros hx, Exec.ok_bind, ← hs₀, hs₁]
  obtain ⟨-, hin⟩ | ⟨s', ys, hs', i', k', hout, hsco, hother, x', hx', hs'', -⟩ :=
    dispatch_spec i₁ hcoros₁ nofun (.inl hnot) (.inl hcs₁) (.inr (by rwa [k₁.co, hco₀]))
  · exact absurd hin hnot
  refine ⟨s', hs', ys, i', k', ?_, fun _ => ⟨fun h => absurd h hout, fun h => nomatch h.2.1⟩⟩
  refine changes_of_clocked k₁ (fun _ h => ?_) (fun d hd => ?_) (fun h => ?_) hother hx hxs hx' ?_
  · exact nomatch h.2.2
  · rw [hs₀, coros_set_of_ne hd]
  · rw [hs₀] at h
    exact ⟨h, .inr ⟨hrun, rfl⟩⟩
  · rw [hs'']
    exact nofun

/-- Putting a coroutine to sleep: `minheap_insert` has added it, or the heap has no room at all. -/
theorem Inv.sleep (i : Inv s xs) {h : MinHeap.Heap ℕ} (hx : c ∉ xs) (hc : c < s.created)
    (hst : s.status c ≠ some .sleep) (v : Valid h) (hmax : h.maxSize = s.minheap.maxSize)
    (hidx : (∀ d, h.index d ≠ 0 ↔ s.minheap.index d ≠ 0 ∨ d = c) ∨
      h = s.minheap ∧ s.minheap.maxSize = 0) (hxs : x.status = .sleep) :
    Inv { s.set c x with minheap := h } xs where
  lists := i.lists
  next := i.next
  heap := v
  queued d hd := by
    have hne : d ≠ c := by rintro rfl; exact hx hd
    exact (status_set_of_ne hne).trans (i.queued d hd)
  sleeping d hd := by
    change (s.set c x).status d = _
    obtain rfl | hne := eq_or_ne d c
    · rw [status_set_self, hxs]
    · rw [status_set_of_ne hne]
      obtain hidx | ⟨rfl, -⟩ := hidx
      · exact i.sleeping d (((hidx d).mp hd).resolve_right hne)
      · exact i.sleeping d hd
  asleep d hd := by
    obtain hidx | ⟨rfl, h0⟩ := hidx
    · obtain rfl | hne := eq_or_ne d c
      · exact .inl ((hidx d).mpr (.inr rfl))
      · have hd' : s.status d = some .sleep := by
          rw [← status_set_of_ne hne]
          exact hd
        exact (i.asleep d hd').imp (fun h => (hidx d).mpr (.inl h)) fun h => hmax.trans h
    · exact .inr h0
  created d hd := by
    have hd' : s.created ≤ d := hd
    exact (coros_set_of_ne (by omega)).trans (i.created d hd')

/-- The record of a coroutine that goes to sleep at the clock reading `now`. -/
def Coro.asleep (x : Coro) (ms : ℤ) (now : ℕ) : Coro :=
  ⟨.sleep, ((now + ms) % 0x100000000).toNat, x.arg⟩

theorem coroSleep_eq (hx : s.coros c = some x) (ms : ℤ) (now : ℕ) :
    coroSleep s c ms now = minheapInsert (s.set c (x.asleep ms now)).less s.minheap c >>= fun h =>
      scheNext' { s.set c (x.asleep ms now) with minheap := h } c := by
  -- the two writes to the record come to one
  have hset : (s.set c { x with timeout := ((now + ms) % 0x100000000).toNat }).set
      c ⟨.sleep, ((now + ms) % 0x100000000).toNat, x.arg⟩ = s.set c (x.asleep ms now) := by
    simp [Sche.set, Coro.asleep]
  simp only [coroSleep, scheAddTimeout, get_of_coros hx, Exec.ok_bind,
    get_of_coros coros_set_self, hset]
  rfl

/-- **`coro_sleep`** by the coroutine that has control. -/
theorem coroSleep_spec (i : Inv s xs) (k : Control s xs) (hrun : s.running ≠ s.co) (ms : ℤ)
    (now : ℕ) :
    coroSleep s s.running ms now = .error .outOfBounds ∨
    ∃ s', coroSleep s s.running ms now = .ok s' ∧ Stepped s xs (.sleep ms) now s' := by
  obtain ⟨x, hx, hst⟩ := k.coros_running hrun
  have hmem := (k.running hrun).2
  have hawake : s.status s.running ≠ some .sleep := by
    rw [status_of_coros hx, hst]
    decide
  obtain ⟨y, hy⟩ : ∃ y, y = x.asleep ms now := ⟨_, rfl⟩
  have hys : y.status = .sleep := by rw [hy, Coro.asleep]
  have key : ∀ h, Inv { s.set s.running y with minheap := h } xs →
      ∃ s', scheNext' { s.set s.running y with minheap := h } s.running = .ok s' ∧
        Stepped s xs (.sleep ms) now s' := by
    intro h i₁
    have hcs : s.status s.co = some .active := k.active_co hrun
    rw [← status_set_of_ne (x := y) hrun.symm] at hcs
    obtain ⟨-, hin⟩ | ⟨s', ys, hs', i', k', hout, hsco, hother, x', hx', hs'', ht⟩ :=
      dispatch_spec (x := y) i₁ coros_set_self (by rw [hys]; decide) (.inl hmem) (.inl hcs)
        (.inr hrun)
    · exact absurd hin hmem
    refine ⟨s', hs', ys, i', k', fun d x'' hx'' => ?_, fun _ =>
      ⟨fun h => absurd h hout, fun h => nomatch h.2.1⟩⟩
    obtain rfl | hd := eq_or_ne d s.running
    · obtain rfl := Option.some.inj (hx'.symm.trans hx'')
      rw [hys] at hs''
      exact ⟨x, hx, .slept ms rfl hrun rfl hs'' (by rw [ht, hy, Coro.asleep])⟩
    · have hd' : s.coros d = some x'' := by
        rw [← coros_set_of_ne (x := y) hd, ← hx'']
        exact (hother d hd).symm
      exact ⟨x'', hd', .refl fun h => hd h.1⟩
  have hidx : s.minheap.index s.running = 0 := i.index_eq_zero hawake
  rw [coroSleep_eq hx, ← hy]
  obtain ⟨h, hh, v, hmax, hmem'⟩ | ⟨hh, h0⟩ | hh :=
    minheapInsert_members (s.set s.running y).less i.heap hidx
  · rw [hh]
    exact .inr (key h (i.sleep hmem (i.lt_created hx) hawake v hmax (.inl hmem') hys))
  · rw [hh]
    exact .inr (key _ (i.sleep hmem (i.lt_created hx) hawake i.heap rfl (.inr ⟨rfl, h0⟩) hys))
  · rw [hh]
    exact .inl rfl

/-- The end of `coro_fun`: the coroutine is destroyed at once. -/
theorem coroFunEnd_eq (i : Inv s xs) (hx : s.coros c = some x) (hst : x.status = .active) :
    coroFunEnd s c = .ok (({ s.set c { x with status := .die } with running := s.co }).reap c) := by
  have hidx : s.minheap.index c = 0 := i.index_eq_zero (by rw [status_of_coros hx, hst]; decide)
  simp only [coroFunEnd, get_of_coros hx, Exec.ok_bind, uthreadSwitch]
  refine (if_pos rfl).trans ?_
  rw [afterSwitch]
  have hget : ({ s.set c { x with status := .die } with running := s.co } : Sche).get c =
      .ok { x with status := .die } := get_of_coros coros_set_self
  rw [hget]
  simp only [Exec.ok_bind]
  rw [if_pos ⟨trivial, hidx⟩]
  rfl

/-- **The end of `coro_fun`** gives control to `s->co`, in the list or not. -/
theorem coroFunEnd_spec (i : Inv s xs) (k : Control s xs) (hrun : s.running ≠ s.co) (now : ℕ) :
    ∃ s', coroFunEnd s s.running = .ok s' ∧ Stepped s xs .finish now s' := by
  obtain ⟨x, hx, hst⟩ := k.coros_running hrun
  have hmem := (k.running hrun).2
  have hawake : s.status s.running ≠ some .sleep := by
    rw [status_of_coros hx, hst]
    decide
  have hidx := i.index_eq_zero hawake
  have i₀ : Inv (s.coroDestroy s.running) xs := by
    have hne : ∀ d, d ≠ s.running → (s.coroDestroy s.running).status d = s.status d :=
      fun d hd => by simp [Sche.status, Sche.coroDestroy, Function.update_of_ne hd]
    refine ⟨i.lists, i.next, i.heap, fun d hd => ?_, fun d hd => ?_, fun d hd => ?_,
      fun d hd => ?_⟩
    · rw [hne d (by rintro rfl; exact hmem hd), i.queued d hd]
    · rw [hne d (by rintro rfl; exact hd hidx), i.sleeping d hd]
    · refine i.asleep d ?_
      rw [← hne d ?_, hd]
      rintro rfl
      simp [Sche.status, Sche.coroDestroy] at hd
    · have hlt := i.lt_created hx
      have hd' : s.created ≤ d := hd
      simp only [Sche.coroDestroy]
      rw [Function.update_of_ne (by omega), i.created d hd']
  refine ⟨_, coroFunEnd_eq i hx hst, xs, i₀.of_eq rfl rfl ?_ le_rfl, ⟨fun h => absurd rfl h, ?_⟩,
    fun c x' hx' => ?_, fun _ => ?_⟩
  · simp [Sche.reap, Sche.coroDestroy, Sche.set]
  · refine .inl ?_
    have := k.active_co hrun
    simpa [Sche.reap, Sche.coroDestroy, Sche.set, Sche.status, Function.update_of_ne hrun.symm]
      using this
  · refine ⟨x', ?_, .refl fun h => nomatch h.2.2⟩
    obtain rfl | hc := eq_or_ne c s.running
    · simp [Sche.reap, Sche.coroDestroy] at hx'
    · simpa [Sche.reap, Sche.coroDestroy, Sche.set, Function.update_of_ne hc] using hx'
  · rw [Slips, i.active]
    exact ⟨fun h => ⟨hrun, rfl, h⟩, fun h => h.2.2⟩

/-- **One step** returns, or fails at the assertion with `s->co` running and in the list, or
writes past the end of the heap. -/
theorem step_spec (i : Inv s xs) (k : Control s xs) (a : Action) (now : ℕ) :
    (step s a now = .error .assertion ∧ s.running ∈ xs) ∨
    (step s a now = .error .outOfBounds ∧ a ≠ .finish) ∨
    ∃ s', step s a now = .ok s' ∧ Stepped s xs a now s' := by
  unfold step
  split
  · rename_i hrun
    exact (scheScheduleRound_spec i k hrun a now).imp_right .inr
  · rename_i hrun
    cases a with
    | yield => exact .inr (.inr (coroYield_spec i k hrun now))
    | sleep ms => exact .inr ((coroSleep_spec i k hrun ms now).imp_left fun h => ⟨h, nofun⟩)
    | finish => exact .inr (.inr (coroFunEnd_spec i k hrun now))

/-! ## The start of a run -/

/-- The coroutines as they are before `sche_schedule` is called. -/
structure Before (s : Sche) : Prop where
  running : s.running = s.co
  status : s.status s.co = some .yield
  awake : ∀ c, s.status c ≠ some .sleep

theorem before_scheCreate (maxCoro now : ℕ) : Before (scheCreate maxCoro now) where
  running := rfl
  status := rfl
  awake c h := by
    obtain ⟨x, hx, hs⟩ := status_eq_some.mp h
    obtain rfl | hne := eq_or_ne c 0
    · obtain rfl := Option.some.inj hx
      cases hs
    · simp [scheCreate, hne] at hx

theorem inv_scheCreate (maxCoro now : ℕ) : Inv (scheCreate maxCoro now) [] where
  lists := ⟨fun _ => trivial, fun _ => rfl, fun _ => List.nodup_nil, fun _ _ _ => by simp⟩
  next _ _ := rfl
  heap := valid_minheapCreate maxCoro
  queued c hc := nomatch hc
  sleeping c hc := absurd rfl hc
  asleep c hc := absurd hc ((before_scheCreate maxCoro now).awake c)
  created c hc := by
    have hc' : 1 ≤ c := hc
    have hne : c ≠ 0 := by omega
    simp [scheCreate, hne]

/-- **`sche_spawn`** puts a new coroutine at the end of the list. -/
theorem scheSpawn_inv (i : Inv s xs) (arg : ℕ) :
    ∃ s', scheSpawn s arg = .ok s' ∧ Inv s' (xs ++ [s.created]) ∧
      s' = { s with created := s.created + 1, coroSize := s.coroSize + 1, lists := s'.lists,
                    coros := s'.coros } ∧
      s'.coros = Function.update s.coros s.created (some { Coro.fresh arg with status := .active }) := by
  obtain ⟨s₀, hs₀⟩ : ∃ s₀, s₀ = { s with created := s.created + 1, coroSize := s.coroSize + 1 } :=
    ⟨_, rfl⟩
  have hnone : s.coros s.created = none := i.created s.created le_rfl
  have hout : s.created ∉ xs := by
    intro h
    have := i.queued _ h
    simp [Sche.status, hnone] at this
  have i₀ : Inv s₀ xs := by
    rw [hs₀]
    exact i.of_eq rfl rfl rfl (Nat.le_succ _)
  have hawake : s₀.status s.created ≠ some .sleep := by simp [hs₀, Sche.status, hnone]
  have hlt : s.created < s₀.created := by rw [hs₀]; exact Nat.lt_succ_self _
  -- the status is set behind the push, which does not read it
  have i₁ : Inv (s₀.set s.created { Coro.fresh arg with status := .active }) xs :=
    i₀.set hout hlt hawake nofun
  obtain ⟨l, hl, i₂⟩ := i₁.pushBack hout status_set_self
  have hl' : (s₀.set s.created (Coro.fresh arg)).pushBack s.created =
      .ok { s₀.set s.created (Coro.fresh arg) with lists := l } := by
    simp only [Sche.pushBack, Sche.set] at hl ⊢
    obtain ⟨l', h₁, h₂⟩ := Exec.bind_eq_ok.mp hl
    simp only [Exec.pure_eq, Except.ok.injEq, Sche.mk.injEq, true_and, and_true] at h₂
    rw [h₁, h₂]
    rfl
  have hget : ({ s₀.set s.created (Coro.fresh arg) with lists := l } : Sche).get s.created =
      .ok (Coro.fresh arg) := get_of_coros coros_set_self
  refine ⟨_, ?_, i₂, by rw [hs₀]; rfl, by rw [hs₀]; rfl⟩
  simp only [scheSpawn, ← hs₀, hl', Exec.ok_bind, hget]
  simp [Sche.set]

theorem scheSpawn_spec (i : Inv s xs) (b : Before s) (arg : ℕ) :
    ∃ s' ys, scheSpawn s arg = .ok s' ∧ Inv s' ys ∧ Before s' := by
  obtain ⟨s', hs', i', hframe, hcoros⟩ := scheSpawn_inv i arg
  have hstatus : ∀ c, c ≠ s.created → s'.status c = s.status c := fun c hc => by
    rw [Sche.status, hcoros, Function.update_of_ne hc, Sche.status]
  have hne : s.co ≠ s.created := by
    intro h
    have := b.status
    simp [Sche.status, h, i.created s.created le_rfl] at this
  have hco : s'.co = s.co := by rw [hframe]
  refine ⟨s', _, hs', i', by rw [hco, hframe]; exact b.running, ?_, fun c => ?_⟩
  · rw [hco, hstatus _ hne, b.status]
  · by_cases hc : c = s.created
    · rw [hc, Sche.status, hcoros, Function.update_self]
      nofun
    · rw [hstatus c hc]
      exact b.awake c

theorem spawnAll_spec (i : Inv s xs) (b : Before s) (args : List ℕ) :
    ∃ s' ys, spawnAll s args = .ok s' ∧ Inv s' ys ∧ Before s' := by
  induction args generalizing s xs with
  | nil => exact ⟨s, xs, rfl, i, b⟩
  | cons arg args ih =>
    obtain ⟨s₁, ys, hs₁, i₁, b₁⟩ := scheSpawn_spec i b arg
    obtain ⟨s', zs, hs', i', b'⟩ := ih i₁ b₁
    exact ⟨s', zs, by simp [spawnAll, hs₁, hs'], i', b'⟩

/-- A scheduler created at the clock reading `t`, with a coroutine for each of the arguments. -/
def start (maxCoro t : ℕ) (args : List ℕ) : Exec Sche := spawnAll (scheCreate maxCoro t) args

theorem start_spec (maxCoro t : ℕ) (args : List ℕ) :
    ∃ s xs, start maxCoro t args = .ok s ∧ Inv s xs ∧ Control s xs ∧ s.running ∉ xs ∧
      ∀ c, s.status c ≠ some .sleep := by
  obtain ⟨s, xs, hs, i, b⟩ := spawnAll_spec (inv_scheCreate maxCoro t)
    (before_scheCreate maxCoro t) args
  have hout : s.co ∉ xs := by
    intro h
    have := b.status
    rw [i.queued _ h] at this
    cases this
  exact ⟨s, xs, hs, i, ⟨fun h => absurd b.running h, .inr ⟨b.status, b.running, hout⟩⟩,
    b.running ▸ hout, b.awake⟩

end Sche

/-! ## The coroutine that has control is not queued -/

/-- The coroutine that has control is not in the list, and no coroutine is in it twice. -/
def Separate (s : Sche) : Prop := s.running ∉ s.active ∧ s.active.Nodup

/-- Every state of the run is `Separate`, and no step of it fails at an assertion. -/
def NeverSelf : Sche → List (Action × ℕ) → Prop
  | s, [] => Separate s
  | s, (a, now) :: rest => Separate s ∧
    match step s a now with
    | .ok s' => NeverSelf s' rest
    | .error f => f ≠ .assertion

/-- No coroutine finishes while `s->co` is in the list. -/
def Clear : Sche → List (Action × ℕ) → Prop
  | _, [] => True
  | s, (a, now) :: rest => ¬ Slips s a ∧
    match step s a now with
    | .ok s' => Clear s' rest
    | .error _ => True

instance decidableClear : (s : Sche) → (run : List (Action × ℕ)) → Decidable (Clear s run)
  | _, [] => isTrue trivial
  | s, (a, now) :: rest => @instDecidableAnd _ _ _ <|
    match step s a now with
    | .ok s' => decidableClear s' rest
    | .error _ => isTrue trivial

theorem neverSelf_iff_of_inv {s : Sche} {xs : List ℕ} (i : Inv s xs) (k : Control s xs)
    (hout : s.running ∉ xs) (run : List (Action × ℕ)) : NeverSelf s run ↔ Clear s run := by
  have hsep : ∀ {s : Sche} {xs : List ℕ}, Inv s xs → (Separate s ↔ s.running ∉ xs) := by
    intro s xs i
    rw [Separate, i.active]
    exact and_iff_left i.nodup
  induction run generalizing s xs with
  | nil => simp [NeverSelf, Clear, hsep i, hout]
  | cons e rest ih =>
    obtain ⟨a, now⟩ := e
    simp only [NeverSelf, Clear, hsep i, hout, not_false_eq_true, true_and]
    obtain ⟨-, hin⟩ | ⟨herr, ha⟩ | ⟨s', hs', ys, i', k', -, hrun⟩ := step_spec i k a now
    · exact absurd hin hout
    · simp [herr, Slips, ha]
    · simp only [hs']
      by_cases hslip : Slips s a
      · -- the violation shows in the state that the step leads to
        refine ⟨fun h => absurd ((hrun hout).mpr hslip) ?_, fun h => absurd hslip h.1⟩
        rw [← hsep i']
        cases rest with
        | nil => exact h
        | cons e rest => exact h.1
      · have hout' : s'.running ∉ ys := fun h => hslip ((hrun hout).mp h)
        exact (ih i' k' hout').trans (and_iff_right hslip).symm

/-- **No coroutine is dispatched to itself, exactly if none finishes while `s->co` is queued.** For
every number of coroutines, every behaviour of theirs and all clock readings, the coroutine that has
control is never in the list, no coroutine is in it twice and `assert(co != next)` holds, if and
only if no coroutine of the run finishes while the scheduler's own `s->co` is in the list. -/
theorem neverSelf_iff_clear (maxCoro t : ℕ) (args : List ℕ) (run : List (Action × ℕ)) :
    ∃ s, start maxCoro t args = .ok s ∧ (NeverSelf s run ↔ Clear s run) := by
  obtain ⟨s, xs, hs, i, k, hout, -⟩ := start_spec maxCoro t args
  exact ⟨s, hs, neverSelf_iff_of_inv i k hout run⟩

/-- Two coroutines, of which the first goes to sleep and the second finishes: `s->co`, put into the
list by its first round, has control and is in it, and the next round takes it for its own
successor. -/
theorem not_neverSelf_finish_behind_sleep :
    ∃ s, start 4 0 [0, 0] = .ok s ∧
      ¬ NeverSelf s [(.yield, 0), (.sleep 500, 0), (.finish, 0), (.yield, 0)] := by
  obtain ⟨s, xs, hs, i, k, hout, -⟩ := start_spec 4 0 [0, 0]
  refine ⟨s, hs, fun h => ?_⟩
  rw [neverSelf_iff_of_inv i k hout] at h
  obtain rfl := Except.ok.inj hs
  exact absurd h (by decide)

/-! ## Sleepers -/

/-- The `timeout` of a coroutine that is allocated. -/
def Sche.timeout (s : Sche) (c : ℕ) : ℕ := ((s.coros c).map Coro.timeout).getD 0

/-- `s'` is `s` with the sleepers that are due moved to the end of the list, the earliest first, and
the others still in the heap. -/
def WakesDue (s : Sche) (now : ℕ) (s' : Sche) : Prop :=
  ∃ ws, s'.active = s.active ++ ws ∧ ws.Nodup ∧
    (∀ c, c ∈ ws ↔ s.status c = some .sleep ∧ s.timeout c ≤ now) ∧
    ws.Pairwise (fun c d => s.timeout c ≤ s.timeout d) ∧
    ∀ c, s.status c = some .sleep → c ∉ ws → s'.minheap.index c ≠ 0

/-- `check_time_out` returns and wakes the sleepers that are due. -/
def OnTime (s : Sche) (now : ℕ) : Prop := ∃ s', checkTimeOut s now = .ok s' ∧ WakesDue s now s'

/-- Every sleeper is due at this very reading of the clock, and the heap has room for it. -/
def DueNow (s : Sche) (now : ℕ) : Prop :=
  ∀ c < s.created, s.status c = some .sleep → s.timeout c = now ∧ s.minheap.maxSize ≠ 0

instance (s : Sche) (now : ℕ) : Decidable (DueNow s now) :=
  inferInstanceAs (Decidable (∀ c < s.created, _))

theorem Sche.timeout_eq {s : Sche} {c : ℕ} {x : Coro} (h : s.coros c = some x) :
    s.timeout c = x.timeout := by simp [Sche.timeout, h]

theorem Inv.maxSize_ne_zero {s : Sche} {xs : List ℕ} {c : ℕ} (i : Inv s xs)
    (hc : s.minheap.index c ≠ 0) : s.minheap.maxSize ≠ 0 := by
  have hle := (i.heap.contained c trivial hc).1
  have hlt := i.heap.lt_length (show 1 ≤ s.minheap.size by omega) le_rfl
  rw [i.heap.length] at hlt
  omega

/-- **One call of `check_time_out`** wakes the sleepers that are due exactly if all sleepers are
due now: it stops at the first one that was due before. -/
theorem onTime_iff {s : Sche} {xs : List ℕ} (i : Inv s xs) (now : ℕ) :
    OnTime s now ↔ DueNow s now := by
  obtain ⟨s', ws, hs', i', w, hend⟩ := checkTimeOut_spec i now
  have hactive : ({ s' with nextCheckTimeout := add32 now 200 } : Sche).active = xs ++ ws :=
    i'.active
  have hsleep : ∀ c ∈ ws, s.status c = some .sleep := fun c hc => i.sleeping c (w.late c hc).1
  have hlate : ∀ c ∈ ws, now ≤ s.timeout c := by
    intro c hc
    obtain ⟨x, hx, -⟩ := status_eq_some.mp (hsleep c hc)
    rw [Sche.timeout_eq hx]
    exact (w.late c hc).2 x hx
  -- a sleeper that is left over and was due before now
  have hrest : ¬ (∀ c, s'.minheap.index c = 0) → ∃ c, s'.minheap.index c ≠ 0 ∧
      s.status c = some .sleep ∧ s.timeout c < now := by
    intro hne
    obtain ⟨c, x, hc, hx, hlt⟩ := hend.resolve_left hne
    obtain ⟨hc', hcw⟩ := (w.index c).mp hc
    rw [w.coros c, if_neg hcw] at hx
    exact ⟨c, hc, i.sleeping c hc', by rwa [Sche.timeout_eq hx]⟩
  constructor
  · rintro ⟨t, ht, vs, hvs, -, hmem, -, hheap⟩ c - hc
    obtain rfl := Except.ok.inj (hs'.symm.trans ht)
    rw [hactive, i.active, List.append_cancel_left_eq] at hvs
    subst hvs
    have hge : ∀ d, s.status d = some .sleep → now ≤ s.timeout d := by
      intro d hd
      by_contra hlt
      have := hlate d ((hmem d).mpr ⟨hd, by omega⟩)
      omega
    have hempty : ∀ d, s'.minheap.index d = 0 := by
      by_contra hne
      obtain ⟨d, -, hd, hlt⟩ := hrest hne
      have := hge d hd
      omega
    have hcw : c ∈ ws := by
      by_contra hcw
      exact hheap c hc hcw (hempty c)
    exact ⟨le_antisymm ((hmem c).mp hcw).2 (hge c hc), i.maxSize_ne_zero (w.late c hcw).1⟩
  · intro hdue
    have hdue' : ∀ c, s.status c = some .sleep → s.timeout c = now ∧ s.minheap.maxSize ≠ 0 := by
      intro c hc
      obtain ⟨x, hx, -⟩ := status_eq_some.mp hc
      exact hdue c (i.lt_created hx) hc
    have hempty : ∀ d, s'.minheap.index d = 0 := by
      by_contra hne
      obtain ⟨d, -, hd, hlt⟩ := hrest hne
      have := (hdue' d hd).1
      omega
    have hall : ∀ c, s.status c = some .sleep → c ∈ ws := by
      intro c hc
      by_contra hcw
      have hidx := (i.asleep c hc).resolve_right (hdue' c hc).2
      exact (w.index c).mpr ⟨hidx, hcw⟩ (hempty c)
    refine ⟨_, hs', ws, by rw [hactive, i.active], ?_, fun c => ⟨fun hc => ?_, fun h => hall c h.1⟩,
      ?_, fun c hc hcw => absurd (hall c hc) hcw⟩
    · exact (List.nodup_append.mp i'.nodup).2.1
    · exact ⟨hsleep c hc, (hdue' c (hsleep c hc)).1.le⟩
    · refine List.pairwise_of_forall_mem_list fun c hc d hd => ?_
      rw [(hdue' c (hsleep c hc)).1, (hdue' d (hsleep d hd)).1]

/-- The states that a run leads to. -/
def exec : Sche → List (Action × ℕ) → Exec Sche
  | s, [] => .ok s
  | s, (a, now) :: rest => do exec (← step s a now) rest

theorem exec_inv {s s' : Sche} {xs : List ℕ} {run : List (Action × ℕ)} (i : Inv s xs)
    (k : Control s xs) (h : exec s run = .ok s') : ∃ ys, Inv s' ys := by
  induction run generalizing s xs with
  | nil =>
    obtain rfl := Except.ok.inj h
    exact ⟨xs, i⟩
  | cons e rest ih =>
    obtain ⟨a, now⟩ := e
    obtain ⟨s₁, hs₁, h⟩ := Exec.bind_eq_ok.mp h
    obtain ⟨herr, -⟩ | ⟨herr, -⟩ | ⟨s₂, hs₂, ys, i', k', -, -⟩ := step_spec i k a now
    · rw [hs₁] at herr
      cases herr
    · rw [hs₁] at herr
      cases herr
    · obtain rfl := Except.ok.inj (hs₁.symm.trans hs₂)
      exact ih i' k' h

/-! ## When sleepers run again -/

/-- The clock does not go back, and neither it nor a deadline passes `2 ^ 32`. -/
def Timed : ℕ → List (Action × ℕ) → Prop
  | _, [] => True
  | t, (a, now) :: rest => t ≤ now ∧ now < 0x100000000 ∧
    (match a with
    | .sleep ms => 0 ≤ now + ms ∧ now + ms < 0x100000000
    | _ => True) ∧ Timed now rest

/-- Every call of `check_time_out` in the run finds all sleepers due at its reading. -/
def LooksDue : Sche → List (Action × ℕ) → Prop
  | _, [] => True
  | s, (a, now) :: rest => (Looks s a now → DueNow s now) ∧
    match step s a now with
    | .ok s' => LooksDue s' rest
    | .error _ => True

instance decidableLooksDue : (s : Sche) → (run : List (Action × ℕ)) → Decidable (LooksDue s run)
  | _, [] => isTrue trivial
  | s, (a, now) :: rest => @instDecidableAnd _ _ _ <|
    match step s a now with
    | .ok s' => decidableLooksDue s' rest
    | .error _ => isTrue trivial

/-- The deadlines behind a step: `coro_sleep(co, ms)` at time `now` sets that of `co` to
`now + ms`. -/
def dueAfter (due : ℕ → ℤ) (s : Sche) (a : Action) (now : ℕ) : ℕ → ℤ :=
  match a with
  | .sleep ms => if s.running = s.co then due else Function.update due s.running (now + ms)
  | _ => due

/-- No coroutine is given control before its deadline. -/
def NeverEarly : (ℕ → ℤ) → Sche → List (Action × ℕ) → Prop
  | _, _, [] => True
  | due, s, (a, now) :: rest =>
    match step s a now with
    | .ok s' => dueAfter due s a now s'.running ≤ now ∧ NeverEarly (dueAfter due s a now) s' rest
    | .error _ => True

/-- A sleeper has its deadline as `timeout`; that of the others is over at the time `t`. -/
def Kept (due : ℕ → ℤ) (s : Sche) (t : ℕ) : Prop :=
  ∀ c x, s.coros c = some x →
    (x.status = .sleep → (x.timeout : ℤ) = due c) ∧ (x.status ≠ .sleep → due c ≤ t)

/-- One step keeps the deadlines, if a look at the clock finds all sleepers due. -/
theorem Kept.step {due : ℕ → ℤ} {s s' : Sche} {a : Action} {t now : ℕ} (k : Kept due s t)
    (hc : Changes s s' a now) (ht : t ≤ now)
    (hrun : s.running ≠ s.co → s.status s.running = some .active)
    (hms : ∀ ms, a = .sleep ms → 0 ≤ now + ms ∧ now + ms < 0x100000000)
    (hdue : Looks s a now → ∀ c x, s.coros c = some x → x.status = .sleep → x.timeout = now) :
    Kept (dueAfter due s a now) s' now := by
  have hsame : ∀ c, ¬ Sleeps s a c → dueAfter due s a now c = due c := by
    intro c hn
    unfold dueAfter
    split
    · rename_i ms
      split
      · rfl
      · rename_i hne
        exact Function.update_of_ne (fun h => hn ⟨h, hne, ms, rfl⟩) ..
    · rfl
  intro c x' hx'
  obtain ⟨x, hx, hchange⟩ := hc c x' hx'
  obtain ⟨h, h', hto⟩ | ⟨h, h', hn⟩ | ⟨h, h', hl⟩ | ⟨ms, rfl, hne, rfl, h', hto⟩ := hchange
  · refine ⟨fun _ => ?_, fun hx => absurd h' hx⟩
    rw [hsame c, hto]
    · exact (k c x hx).1 h
    · rintro ⟨rfl, hne, -⟩
      have := hrun hne
      rw [status_of_coros hx, h] at this
      cases this
  · refine ⟨fun hx => absurd hx h', fun _ => ?_⟩
    rw [hsame c hn]
    exact le_trans ((k c x hx).2 h) (by exact_mod_cast ht)
  · refine ⟨fun hx => absurd hx h', fun _ => ?_⟩
    rw [hsame c, ← (k c x hx).1 h, hdue hl c x hx h]
    rintro ⟨-, hne, ms, rfl⟩
    obtain ⟨hco, -⟩ | ⟨-, ha⟩ := hl.2
    · exact hne hco
    · cases ha
  · refine ⟨fun _ => ?_, fun hx => absurd h' hx⟩
    obtain ⟨h0, hlt⟩ := hms ms rfl
    simp only [dueAfter, if_neg hne, Function.update_self, hto]
    rw [Int.emod_eq_of_lt h0 hlt, Int.toNat_of_nonneg h0]

theorem neverEarly_of_inv {due : ℕ → ℤ} {s : Sche} {xs : List ℕ} {t : ℕ}
    {run : List (Action × ℕ)} (i : Inv s xs) (k : Control s xs) (hk : Kept due s t)
    (htimed : Timed t run) (hdue : LooksDue s run) : NeverEarly due s run := by
  induction run generalizing due s xs t with
  | nil => trivial
  | cons e rest ih =>
    obtain ⟨a, now⟩ := e
    obtain ⟨ht, -, hms, hrest⟩ := htimed
    obtain ⟨herr, -⟩ | ⟨herr, -⟩ | ⟨s', hs', ys, i', k', hc, -⟩ := step_spec i k a now
    · simp [NeverEarly, herr]
    · simp [NeverEarly, herr]
    have hk' : Kept (dueAfter due s a now) s' now := by
      refine hk.step hc ht (fun h => (k.running h).1) (fun ms ha => ?_) fun hl c x hx hs => ?_
      · subst ha
        exact hms
      · have := (hdue.1 hl c (i.lt_created hx) (by rw [status_of_coros hx, hs])).1
        rwa [Sche.timeout_eq hx] at this
    have hdue' : LooksDue s' rest := by
      have := hdue.2
      rwa [hs'] at this
    simp only [NeverEarly, hs']
    refine ⟨?_, ih i' k' hk' hrest hdue'⟩
    -- what has control is awake, so its deadline is over
    by_cases hrun : s'.running = s'.co
    · obtain ⟨x, hx, hst⟩ := k'.coros_co
      rw [hrun]
      refine (hk' _ x hx).2 ?_
      obtain h | ⟨h, -⟩ := hst <;> rw [h] <;> decide
    · obtain ⟨x, hx, hst⟩ := k'.coros_running hrun
      exact (hk' _ x hx).2 (by rw [hst]; decide)

/-- **Sleepers wake on time exactly when all of them are due at the reading of the clock.** In every
state of every run, `check_time_out` moves to the list the sleepers whose `timeout` is at most `now`,
the earliest first, and leaves the others in the heap, if and only if every sleeper has the
`timeout` `now` (in a heap with room for it). In a run whose calls of `check_time_out` all find the
sleepers so, no coroutine that called `coro_sleep(co, ms)` at time `t` has control again before
`t + ms`. -/
theorem onTime_iff_dueNow (maxCoro t : ℕ) (args : List ℕ) (run : List (Action × ℕ)) :
    ∃ s, start maxCoro t args = .ok s ∧
      (∀ s', exec s run = .ok s' → ∀ now, OnTime s' now ↔ DueNow s' now) ∧
      (Timed t run → LooksDue s run → NeverEarly (fun _ => 0) s run) := by
  obtain ⟨s, xs, hs, i, k, -, hawake⟩ := start_spec maxCoro t args
  refine ⟨s, hs, fun s' hs' now => ?_, fun htimed hdue => ?_⟩
  · obtain ⟨ys, i'⟩ := exec_inv i k hs'
    exact onTime_iff i' now
  · refine neverEarly_of_inv i k (fun c x hx => ⟨fun h => ?_, fun _ => by simp⟩) htimed hdue
    exact absurd (by rw [status_of_coros hx, h]) (hawake c)

/-- A coroutine that sleeps for 200 ms and is woken by the first check, at its deadline. -/
def sleepRun : List (Action × ℕ) :=
  [(.yield, 0), (.sleep 200, 0), (.yield, 0), (.yield, 0), (.yield, 200)]

theorem neverEarly_sleepRun :
    ∃ s, start 4 0 [7] = .ok s ∧ Timed 0 sleepRun ∧ LooksDue s sleepRun ∧
      NeverEarly (fun _ => 0) s sleepRun := by
  obtain ⟨s, hs, -, h⟩ := onTime_iff_dueNow 4 0 [7] sleepRun
  have htimed : Timed 0 sleepRun := by simp [Timed, sleepRun]
  have hdue : LooksDue s sleepRun := by
    obtain rfl := Except.ok.inj hs
    decide
  exact ⟨s, hs, htimed, hdue, h htimed hdue⟩

/-- A coroutine that sleeps for 500 ms is woken when the clock has moved by 200. -/
theorem not_onTime_early :
    ∃ s s', start 4 0 [7] = .ok s ∧ exec s [(.yield, 0), (.sleep 500, 0)] = .ok s' ∧
      ¬ OnTime s' 200 := by
  obtain ⟨s, xs, hs, i, k, -, -⟩ := start_spec 4 0 [7]
  have hrun : (match exec s [(.yield, 0), (.sleep 500, 0)] with
      | .ok s' => decide (DueNow s' 200)
      | .error _ => true) = false := by
    obtain rfl := Except.ok.inj hs
    decide
  cases hs' : exec s [(.yield, 0), (.sleep 500, 0)] with
  | error f => simp [hs'] at hrun
  | ok s' =>
    rw [hs'] at hrun
    obtain ⟨ys, i'⟩ := exec_inv i k hs'
    exact ⟨s, s', hs, hs', fun h => of_decide_eq_false hrun ((onTime_iff i' 200).mp h)⟩

end Kendylib.Scheduler
