import Kendylib.Sync.BlockQueue

/-!
# Wakeups of the blocking queue

`block_queue_push` signals only where it finds the queue empty. Two pushes in a row therefore give
one signal, and it wakes one of two consumers that wait: the other one waits on beside a node that no
thread is about to take (`lost_two_pushes`).

A node of the queue is provided for by a consumer on its way to the mutex, or by a signal to come. As
long as every push onto a queue that is not empty finds one more of these than there are nodes, or a
signal to come for each consumer that waits, no wakeup is lost (`not_lost_of_answered`). Where a push
does not, a wakeup can be lost from there on (`lost_of_unanswered`).
-/

namespace Kendylib.BlockQueue

open Interleaving

variable {T : Type} {s s' : State T} {t u : T} {p : Place} {e : Event T}

/-! ## Calls that wait without an end -/

/-- What is known of a place where no call of `block_queue_pop` has a time. -/
def Place.Endless : Place → Prop
  | .entered ms | .waiting ms => ms < 0
  | .woken ms timedOut => ms < 0 ∧ timedOut = false
  | _ => True

/-- No call of `block_queue_pop` has a time, and none is woken by force. -/
structure Calm (s : State T) : Prop where
  endless : ∀ t, (s.place t).Endless
  unforced : s.bq.forceWakeup = false

theorem Calm.goto [DecidableEq T] (C : Calm s) (hp : p.Endless) : Calm (goto s t p) := by
  refine ⟨fun u => ?_, C.unforced⟩
  by_cases hu : u = t
  · subst hu
    simpa [BlockQueue.goto] using hp
  · simpa [BlockQueue.goto, hu] using C.endless u

/-! ## Lost wakeups -/

variable [Fintype T]

/-- The thread is on its way to the mutex of `block_queue_pop`. -/
def Place.takes : Place → Bool
  | .entered _ | .woken _ _ => true
  | _ => false

def Place.isSignals : Place → Bool
  | .signals => true
  | _ => false

/-- The consumers that wait at the condition. -/
def waiters (s : State T) : ℕ := threadsIn s.place fun p => p.waits = true

/-- The consumers on their way to the mutex. -/
def takers (s : State T) : ℕ := threadsIn s.place fun p => p.takes = true

/-- The signals to come. -/
def signals (s : State T) : ℕ := threadsIn s.place fun p => p.isSignals = true

/-- **A wakeup is lost**: there is a node for a consumer that waits, and no thread is on its way to
take it or to signal. -/
def Lost (s : State T) : Prop :=
  s.bq.l ≠ [] ∧ (∃ t, (s.place t).waits = true) ∧
    ∀ t, (s.place t).takes = false ∧ (s.place t).isSignals = false

instance (s : State T) : Decidable (Lost s) := inferInstanceAs (Decidable (_ ∧ _ ∧ _))

theorem lost_iff : Lost s ↔ 0 < s.bq.l.length ∧ 0 < waiters s ∧ takers s = 0 ∧ signals s = 0 := by
  have hnone : ∀ p : Place → Bool,
      threadsIn s.place (fun x => p x = true) = 0 ↔ ∀ t, p (s.place t) = false := by
    intro p
    rw [← not_iff_not, ← ne_eq, ← Nat.pos_iff_ne_zero, threadsIn_pos]
    simp
  rw [Lost, waiters, takers, signals, threadsIn_pos, hnone, hnone, ← forall_and,
    List.length_pos_iff]

/-- The calls of the producers, and of consumers that wait without an end. -/
def Forever (_ : State T) : Event T → Prop
  | .pop _ ms => ms < 0
  | .forceWakeup _ => False
  | _ => True

/-- A push onto a queue that is not empty finds a consumer on its way or a signal to come for one more
node than there are, or a signal to come for every consumer that waits. -/
def Answered (s : State T) : Event T → Prop
  | .push _ _ => s.bq.l = [] ∨ s.bq.l.length < takers s + signals s ∨ waiters s ≤ signals s
  | _ => True

instance (s : State T) (e : Event T) : Decidable (Forever s e) := by
  cases e <;> unfold Forever <;> infer_instance

instance (s : State T) (e : Event T) : Decidable (Answered s e) := by
  cases e <;> unfold Answered <;> infer_instance

/-- Every node is provided for, or every consumer that waits is. -/
structure Inv (s : State T) : Prop where
  calm : Calm s
  provided : s.bq.l.length ≤ takers s + signals s ∨ waiters s ≤ signals s

theorem Inv.not_lost (I : Inv s) : ¬ Lost s := by
  rw [lost_iff]
  have := I.provided
  omega

theorem createBlockQueue_inv : Inv (createBlockQueue : State T) :=
  ⟨⟨fun _ => trivial, rfl⟩, .inl (Nat.zero_le _)⟩

/-! ## What an event does to the numbers -/

variable [DecidableEq T]

theorem waiters_goto (hp : s.place t = p) (a : Place) :
    waiters (goto s t a) + p.waits.toNat = waiters s + a.waits.toNat := by
  have := threadsIn_update (f := s.place) (p := fun p => p.waits = true) t a
  rw [hp] at this
  simpa only [waiters, goto, Bool.toNat, Bool.cond_eq_ite] using this

theorem takers_goto (hp : s.place t = p) (a : Place) :
    takers (goto s t a) + p.takes.toNat = takers s + a.takes.toNat := by
  have := threadsIn_update (f := s.place) (p := fun p => p.takes = true) t a
  rw [hp] at this
  simpa only [takers, goto, Bool.toNat, Bool.cond_eq_ite] using this

theorem signals_goto (hp : s.place t = p) (a : Place) :
    signals (goto s t a) + p.isSignals.toNat = signals s + a.isSignals.toNat := by
  have := threadsIn_update (f := s.place) (p := fun p => p.isSignals = true) t a
  rw [hp] at this
  simpa only [signals, goto, Bool.toNat, Bool.cond_eq_ite] using this

/-! ## A thread that gets the mutex -/

/-- **A thread gets the mutex** in `block_queue_pop`: it takes the first node, or goes to wait if
there is none. -/
theorem lock_spec (C : Calm s) (h : step s (.lock t) = some s') :
    (s.place t).takes = true ∧ Calm s' ∧
      ((s.bq.l = [] ∧ s'.bq.l = [] ∧ ∃ ms, s'.place = (goto s t (.waiting ms)).place) ∨
        (∃ n, s.bq.l = n :: s'.bq.l) ∧ s'.place = (goto s t .out).place) := by
  have hend := C.endless t
  -- a thread that is woken makes the test of the loop again
  have hloop : ∃ ms, ms < 0 ∧ (s.place t).takes = true ∧ s' = release s t ms (popLoop s.bq ms) := by
    rw [step] at h
    split at h
    · rename_i ms hp
      rw [hp] at hend
      exact ⟨ms, hend, by rw [hp]; rfl, (Option.some.inj h).symm⟩
    · rename_i ms timedOut hp
      rw [hp] at hend
      obtain ⟨hms, rfl⟩ := hend
      refine ⟨ms, hms, by rw [hp]; rfl, ?_⟩
      rw [← Option.some.inj h, popWoken, if_neg Bool.false_ne_true, C.unforced,
        if_neg Bool.false_ne_true]
    · cases h
  obtain ⟨ms, hms, htakes, rfl⟩ := hloop
  refine ⟨htakes, ?_⟩
  cases hl : s.bq.l with
  | nil =>
    have hpop : popLoop s.bq ms = (s.bq, .waits) := by
      rw [popLoop, hl]
      simp only [if_neg hms.ne]
    rw [hpop]
    exact ⟨C.goto hms, .inl ⟨rfl, hl, ms, rfl⟩⟩
  | cons n rest =>
    have hpop : popLoop s.bq ms = ({ s.bq with l := rest }, .returns .success (some n)) := by
      rw [popLoop, hl]
    rw [hpop]
    exact ⟨⟨(C.goto (p := .out) trivial).endless, C.unforced⟩, .inr ⟨⟨n, rfl⟩, rfl⟩⟩

/-- The numbers after a thread has got the mutex. -/
theorem lock_counts (C : Calm s) (h : step s (.lock t) = some s') :
    Calm s' ∧ signals s' = signals s ∧ takers s' + 1 = takers s ∧
      ((s.bq.l = [] ∧ s'.bq.l = [] ∧ waiters s' = waiters s + 1) ∨
        s.bq.l.length = s'.bq.l.length + 1 ∧ waiters s' = waiters s) := by
  obtain ⟨htakes, C', hrest⟩ := lock_spec C h
  have hout : (s.place t).waits = false ∧ (s.place t).isSignals = false := by
    revert htakes
    cases s.place t <;> simp [Place.takes, Place.waits, Place.isSignals]
  have hplace : ∀ a : Place, s'.place = (goto s t a).place → a.takes = false → a.isSignals = false →
      signals s' = signals s ∧ takers s' + 1 = takers s ∧
        waiters s' = waiters s + a.waits.toNat := by
    intro a ha hat has
    have hw := waiters_goto (t := t) (s := s) rfl a
    have ht := takers_goto (t := t) (s := s) rfl a
    have hs := signals_goto (t := t) (s := s) rfl a
    rw [hout.1] at hw
    rw [htakes, hat] at ht
    rw [hout.2, has] at hs
    simp only [waiters, takers, signals, ha] at hw ht hs ⊢
    exact ⟨hs, ht, hw⟩
  rcases hrest with ⟨hl, hl', ms, ha⟩ | ⟨⟨n, hl⟩, ha⟩
  · obtain ⟨hs, ht, hw⟩ := hplace _ ha rfl rfl
    exact ⟨C', hs, ht, .inl ⟨hl, hl', hw⟩⟩
  · obtain ⟨hs, ht, hw⟩ := hplace _ ha rfl rfl
    exact ⟨C', hs, ht, .inr ⟨by rw [hl, List.length_cons], hw⟩⟩

/-- The numbers after a signal has woken a thread. -/
theorem signal_counts (ht : s.place t = .signals) {ms : ℤ} (hu : s.place u = .waiting ms) :
    let s' := goto (goto s t .out) u (.woken ms false)
    signals s' + 1 = signals s ∧ waiters s' + 1 = waiters s ∧ takers s' = takers s + 1 := by
  have hu' : (goto s t .out).place u = .waiting ms := by
    have hne : u ≠ t := by
      rintro rfl
      rw [ht] at hu
      cases hu
    simp [goto, hne, hu]
  have hw := waiters_goto ht .out
  have htk := takers_goto ht .out
  have hs := signals_goto ht .out
  have hw' := waiters_goto hu' (.woken ms false)
  have htk' := takers_goto hu' (.woken ms false)
  have hs' := signals_goto hu' (.woken ms false)
  simp only [Place.waits, Place.takes, Place.isSignals, Bool.toNat_true, Bool.toNat_false] at *
  omega

/-! ## Wakeups that are not lost -/

/-- **One event.** -/
theorem step_inv (I : Inv s) (hf : Forever s e) (ha : Answered s e) (h : step s e = some s') :
    Inv s' := by
  obtain ⟨C, hprovided⟩ := I
  cases e with
  | push t n =>
    rw [step] at h
    split at h
    · rename_i hpush
      obtain rfl := Option.some.inj h
      have hw := waiters_goto hpush.1 (if s.bq.l = [] then .signals else .out)
      have ht := takers_goto hpush.1 (if s.bq.l = [] then .signals else .out)
      have hs := signals_goto hpush.1 (if s.bq.l = [] then .signals else .out)
      refine ⟨⟨(C.goto ?_).endless, C.unforced⟩, ?_⟩
      · split <;> trivial
      · change (s.bq.l ++ [n]).length ≤ takers (goto s t _) + signals (goto s t _) ∨
          waiters (goto s t _) ≤ signals (goto s t _)
        rw [List.length_append, List.length_singleton]
        by_cases hl : s.bq.l = []
        · simp only [hl, if_true, Place.waits, Place.takes, Place.isSignals, Bool.toNat_true,
            Bool.toNat_false, List.length_nil] at *
          omega
        · have ha : s.bq.l.length < takers s + signals s ∨ waiters s ≤ signals s :=
            ha.resolve_left hl
          simp only [hl, if_false, Place.waits, Place.takes, Place.isSignals,
            Bool.toNat_false] at *
          omega
    · cases h
  | forceWakeup t => exact hf.elim
  | signal t u =>
    cases u with
    | none =>
      rw [step] at h
      split at h
      · rename_i hsignal
        obtain rfl := Option.some.inj h
        have hw := waiters_goto hsignal.1 .out
        have hnone : waiters s = 0 := by
          rw [← not_ne_iff, ← Nat.pos_iff_ne_zero, waiters, threadsIn_pos]
          rintro ⟨u, hu⟩
          rw [hsignal.2 u] at hu
          cases hu
        refine ⟨C.goto trivial, .inr ?_⟩
        simp only [Place.waits, Bool.toNat_false] at hw
        omega
      · cases h
    | some u =>
      rw [step] at h
      split at h
      · rename_i ms ht hu
        obtain rfl := Option.some.inj h
        obtain ⟨hs, hw, htk⟩ := signal_counts ht hu
        have hend : ms < 0 := by
          have := C.endless u
          rwa [hu] at this
        refine ⟨(C.goto (p := .out) trivial).goto ⟨hend, rfl⟩, ?_⟩
        change s.bq.l.length ≤ _ ∨ _
        omega
      · cases h
  | pop t ms =>
    rw [step] at h
    split at h
    · rename_i hout
      obtain rfl := Option.some.inj h
      have hw := waiters_goto hout (.entered ms)
      have ht := takers_goto hout (.entered ms)
      have hs := signals_goto hout (.entered ms)
      refine ⟨C.goto hf, ?_⟩
      change s.bq.l.length ≤ _ ∨ _
      simp only [Place.waits, Place.takes, Place.isSignals, Bool.toNat_true, Bool.toNat_false] at *
      omega
    · cases h
  | lock t =>
    obtain ⟨C', hs, ht, hrest⟩ := lock_counts C h
    refine ⟨C', ?_⟩
    rcases hrest with ⟨-, hl', -⟩ | ⟨hl, hw⟩
    · rw [hl']
      exact .inl (Nat.zero_le _)
    · omega
  | timeout t =>
    rw [step] at h
    split at h
    · rename_i ms hp
      have hend := C.endless t
      rw [hp] at hend
      rw [if_neg (not_lt_of_gt hend)] at h
      cases h
    · cases h
  | spurious t =>
    rw [step] at h
    split at h
    · rename_i ms hp
      obtain rfl := Option.some.inj h
      have hend := C.endless t
      rw [hp] at hend
      have hw := waiters_goto hp (.woken ms false)
      have ht := takers_goto hp (.woken ms false)
      have hs := signals_goto hp (.woken ms false)
      refine ⟨C.goto ⟨hend, rfl⟩, ?_⟩
      change s.bq.l.length ≤ _ ∨ _
      simp only [Place.waits, Place.takes, Place.isSignals, Bool.toNat_true, Bool.toNat_false] at *
      omega
    · cases h

/-- **No wakeup is lost** in an interleaving in which every push onto a queue that is not empty is
answered. -/
theorem not_lost_of_answered
    (h : Reaches step (fun s e => Forever s e ∧ Answered s e) (createBlockQueue : State T) s) :
    ¬ Lost s :=
  (h.invariant (fun _ _ _ I hC hstep => step_inv I hC.1 hC.2 hstep)
    createBlockQueue_inv).not_lost

/-! ## Wakeups that are lost -/

/-- **From too many nodes on**, with consumers that wait beyond the signals to come: the consumers
on their way each take a node, the signals each wake a consumer that does, and a node is left beside
a consumer that waits. -/
theorem lost_of_excess (k : ℕ) : ∀ s : State T, Calm s → 2 * signals s + takers s = k →
    takers s + signals s < s.bq.l.length → signals s < waiters s →
    ∃ s', Reaches step Forever s s' ∧ Lost s' := by
  induction k using Nat.strong_induction_on with
  | _ k ih =>
    intro s C hk hnodes hwait
    by_cases htakes : ∃ t, (s.place t).takes = true
    · obtain ⟨t, ht⟩ := htakes
      obtain ⟨s₁, h⟩ : ∃ s₁, step s (.lock t) = some s₁ := by
        rw [step]
        cases hp : s.place t with
        | entered ms => exact ⟨_, rfl⟩
        | woken ms timedOut => exact ⟨_, rfl⟩
        | _ => rw [hp] at ht; cases ht
      obtain ⟨C₁, hs, htk, hrest⟩ := lock_counts C h
      rcases hrest with ⟨hl, -⟩ | ⟨hl, hw⟩
      · rw [hl, List.length_nil] at hnodes
        omega
      · obtain ⟨s', hr, hlost⟩ := ih _ (by omega) s₁ C₁ rfl (by omega) (by omega)
        exact ⟨s', Reaches.head (e := Event.lock t) trivial h hr, hlost⟩
    · by_cases hsignals : ∃ t, (s.place t).isSignals = true
      · obtain ⟨t, ht⟩ := hsignals
        have hpt : s.place t = .signals := by
          cases hp : s.place t <;> rw [hp] at ht <;> first | rfl | cases ht
        obtain ⟨u, hu⟩ := threadsIn_pos.mp (Nat.zero_lt_of_lt hwait)
        obtain ⟨ms, hpu⟩ : ∃ ms, s.place u = .waiting ms := by
          cases hp : s.place u with
          | waiting ms => exact ⟨ms, rfl⟩
          | _ => rw [hp] at hu; cases hu
        have h : step s (.signal t (some u)) =
            some (goto (goto s t .out) u (.woken ms false)) := by
          rw [step, hpt, hpu]
        obtain ⟨hs, hw, htk⟩ := signal_counts hpt hpu
        have hend := C.endless u
        rw [hpu] at hend
        have C₁ : Calm (goto (goto s t .out) u (.woken ms false)) :=
          (C.goto (p := .out) trivial).goto ⟨hend, rfl⟩
        obtain ⟨s', hr, hlost⟩ := ih _ (by omega) _ C₁ rfl
          (show _ < s.bq.l.length by omega) (by omega)
        exact ⟨s', Reaches.head (e := Event.signal t (some u)) trivial h hr, hlost⟩
      · refine ⟨s, Reaches.refl, lost_iff.mpr ⟨by omega, by omega, ?_, ?_⟩⟩
        · rwa [← not_ne_iff, ← Nat.pos_iff_ne_zero, takers, threadsIn_pos]
        · rwa [← not_ne_iff, ← Nat.pos_iff_ne_zero, signals, threadsIn_pos]

/-- **A push that is not answered** can lose a wakeup. -/
theorem lost_of_unanswered (I : Inv s) (ha : ¬ Answered s e) (h : step s e = some s') :
    ∃ s'', Reaches step Forever s' s'' ∧ Lost s'' := by
  cases e with
  | push t n =>
    simp only [Answered, not_or] at ha
    obtain ⟨hl, hnodes, hwait⟩ := ha
    rw [step] at h
    split at h
    · rename_i hpush
      obtain rfl := Option.some.inj h
      have hw := waiters_goto hpush.1 .out
      have ht := takers_goto hpush.1 .out
      have hs := signals_goto hpush.1 .out
      simp only [Place.waits, Place.takes, Place.isSignals, Bool.toNat_false] at hw ht hs
      simp only [if_neg hl]
      refine lost_of_excess _ _ ⟨(I.calm.goto (p := .out) trivial).endless, I.calm.unforced⟩ rfl ?_ ?_
      · change takers (goto s t .out) + signals (goto s t .out) < (s.bq.l ++ [n]).length
        rw [List.length_append, List.length_singleton]
        omega
      · change signals (goto s t .out) < waiters (goto s t .out)
        omega
    · cases h
  | _ => exact absurd trivial ha

/-- A consumer waits; one push signals and wakes it, and another push follows. -/
def answeredRun : List (Event (Fin 3)) :=
  [.pop 0 (-1), .lock 0, .push 1 7, .signal 1 (some 0), .push 2 8]

theorem not_lost_answered : ∃ s, exec step createBlockQueue answeredRun = some s ∧ ¬ Lost s := by
  obtain ⟨s, hs, -⟩ : ∃ s, exec step createBlockQueue answeredRun = some s ∧ True :=
    exists_exec (by decide)
  exact ⟨s, hs, not_lost_of_answered (reaches_of_exec hs (by decide))⟩

/-- Two consumers wait, and two pushes come before the signal of the first. -/
def twoPushes : List (Event (Fin 4)) :=
  [.pop 0 (-1), .lock 0, .pop 1 (-1), .lock 1, .push 2 7, .push 3 8, .signal 2 (some 0), .lock 0]

theorem lost_two_pushes :
    ¬ ∀ s : State (Fin 4), Reaches step Forever createBlockQueue s → ¬ Lost s := by
  intro hall
  obtain ⟨s, hs, hlost⟩ : ∃ s, exec step createBlockQueue twoPushes = some s ∧ Lost s :=
    exists_exec (by decide)
  exact hall s (reaches_of_exec hs (by decide)) hlost

end Kendylib.BlockQueue
