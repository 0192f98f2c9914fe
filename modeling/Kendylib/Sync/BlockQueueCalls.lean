import Kendylib.Foundations.Linearize
import Kendylib.Sync.BlockQueue
import Mathlib.Data.Fintype.Sum

/-!
# The blocking queue as a queue

What the threads see of a blocking queue, in any interleaving, is a first-in first-out queue that does
each call in one step: `block_queue_push` and `block_queue_force_wakeup` where they have the mutex, and
`block_queue_pop` where it leaves the mutex for good (`queue_linearizes`). It follows that the nodes
leave the queue in the order in which they were pushed, each once, and that a call ends with
`POP_FORCE_WAKE_UP` at most as often as one has been asked for.

A call whose time is over returns without a node even if there is one by then, and so does a call that
is woken by force.
-/

namespace Kendylib.BlockQueue

open Interleaving

/-- The calls of a blocking queue. -/
inductive Call
  | push (n : ℕ)
  | forceWakeup
  | pop (ms : ℤ)
  deriving DecidableEq

inductive Answer
  | done
  | popped (code : PopCode) (n : Option ℕ)
  deriving DecidableEq

/-- What each call does to a queue in one step, if it gets the answer; `none` if it cannot get it. -/
def apply (bq : Queue) : Call → Answer → Option Queue
  | .push n, .done => some { bq with l := bq.l ++ [n] }
  | .forceWakeup, .done => some { bq with forceWakeup := true }
  | .pop _, .popped .success (some n) =>
    match bq.l with
    | m :: rest => if m = n then some { bq with l := rest } else none
    | [] => none
  | .pop ms, .popped .success none => if bq.l = [] ∧ ms = 0 then some bq else none
  | .pop ms, .popped .timeout none => if 0 < ms then some bq else none
  | .pop ms, .popped .forceWakeUp none =>
    if bq.forceWakeup ∧ ms ≠ 0 then some { bq with forceWakeup := false } else none
  | _, _ => none

/-- The call that a thread at the place is in. A push has taken effect before its signal. -/
def Place.call : Place → Option Call
  | .out | .signals => none
  | .entered ms | .waiting ms | .woken ms _ => some (.pop ms)

variable {T : Type}

/-- The call that each thread is in. -/
def pending (s : State T) (t : T) : Option Call := (s.place t).call

/-- What leaving the mutex of `block_queue_pop` is to the callers. -/
def Outcome.label (t : T) (ms : ℤ) : Outcome → Label T Call Answer
  | .waits => .silent
  | .returns code n => .answer t (.pop ms) (.popped code n)

/-- What an event is to the callers. -/
def label (s : State T) : Event T → Label T Call Answer
  | .push t n => .instant t (.push n) .done
  | .forceWakeup t => .instant t .forceWakeup .done
  | .pop t ms => .call t (.pop ms)
  | .lock t =>
    match s.place t with
    | .entered ms => (popLoop s.bq ms).2.label t ms
    | .woken ms timedOut => (popWoken s.bq ms timedOut).2.label t ms
    | _ => .silent
  | .signal .. | .timeout _ | .spurious _ => .silent

/-- The nodes pushed. -/
def pushes (os : List (T × Call × Answer)) : List ℕ := os.filterMap fun
  | (_, .push n, _) => some n
  | _ => none

/-- The nodes that the calls returned. -/
def takes (os : List (T × Call × Answer)) : List ℕ := os.filterMap fun
  | (_, _, .popped _ n) => n
  | _ => none

/-- The returns of `block_queue_pop`. -/
def returns (os : List (T × Call × Answer)) : List (T × PopCode × Option ℕ) := os.filterMap fun
  | (t, _, .popped code n) => some (t, code, n)
  | _ => none

def forces (os : List (T × Call × Answer)) : ℕ := os.countP fun o => o.2.1 = .forceWakeup

def forced (os : List (T × Call × Answer)) : ℕ :=
  os.countP fun o => o.2.2 = .popped .forceWakeUp none

/-- **The calls of a run**, with the queue and the threads at its end. -/
structure Queues [DecidableEq T] (ls : List (Label T Call Answer)) (s : State T) : Prop where
  /-- The calls that have taken effect, done one after the other. -/
  serial : atomic apply ⟨[], false⟩ (history ls) = some s.bq
  /-- Their answers are the returns. -/
  returned : s.returned = returns (history ls)
  /-- The answers of a thread belong to its calls, in their order. -/
  answered : ∀ t, calls t ls = answers t ls ++ (pending s t).toList
  fifo : pushes (history ls) = takes (history ls) ++ s.bq.l
  forced : forced (history ls) + s.bq.forceWakeup.toNat ≤ forces (history ls)

/-! ## The queue that does each call in one step -/

variable {bq bq' : Queue} {c : Call} {r : Answer} {os : List (T × Call × Answer)}

/-- **One call.** -/
theorem apply_cases (h : apply bq c r = some bq') :
    (∃ n, c = .push n ∧ r = .done ∧ bq' = { bq with l := bq.l ++ [n] }) ∨
    (c = .forceWakeup ∧ r = .done ∧ bq' = { bq with forceWakeup := true }) ∨
    (∃ ms n, c = .pop ms ∧ r = .popped .success (some n) ∧ bq = { bq' with l := n :: bq'.l }) ∨
    (∃ ms code, c = .pop ms ∧ code ≠ .forceWakeUp ∧ r = .popped code none ∧ bq' = bq) ∨
    ∃ ms, c = .pop ms ∧ r = .popped .forceWakeUp none ∧ bq.forceWakeup = true ∧
      bq' = { bq with forceWakeup := false } := by
  unfold apply at h
  split at h
  · exact .inl ⟨_, rfl, rfl, (Option.some.inj h).symm⟩
  · exact .inr (.inl ⟨rfl, rfl, (Option.some.inj h).symm⟩)
  · rename_i ms n
    refine .inr (.inr (.inl ⟨ms, n, rfl, rfl, ?_⟩))
    split at h
    · rename_i m rest hl
      split_ifs at h with hm
      obtain rfl := Option.some.inj h
      rw [← hm, ← hl]
    · cases h
  · split_ifs at h
    exact .inr (.inr (.inr (.inl ⟨_, _, rfl, by simp, rfl, (Option.some.inj h).symm⟩)))
  · split_ifs at h
    exact .inr (.inr (.inr (.inl ⟨_, _, rfl, by simp, rfl, (Option.some.inj h).symm⟩)))
  · split_ifs at h with hf
    exact .inr (.inr (.inr (.inr ⟨_, rfl, rfl, hf.1, (Option.some.inj h).symm⟩)))
  · cases h

/-- **First in, first out**: what is in the queue and what is pushed is what is taken and what is in
the queue then. -/
theorem atomic_fifo (h : atomic apply bq os = some bq') : bq.l ++ pushes os = takes os ++ bq'.l := by
  induction os generalizing bq with
  | nil =>
    obtain rfl := Option.some.inj h
    simp [pushes, takes]
  | cons o os ih =>
    obtain ⟨t, c, r⟩ := o
    obtain ⟨bq₁, hc, hrest⟩ := Option.bind_eq_some_iff.mp h
    have ih := ih hrest
    obtain ⟨n, rfl, rfl, rfl⟩ | ⟨rfl, rfl, rfl⟩ | ⟨ms, n, rfl, rfl, rfl⟩ |
      ⟨ms, code, rfl, -, rfl, rfl⟩ | ⟨ms, rfl, rfl, -, rfl⟩ := apply_cases hc
    · simpa [pushes, takes] using ih
    · simpa [pushes, takes] using ih
    · simpa [pushes, takes] using ih
    · simpa [pushes, takes] using ih
    · simpa [pushes, takes] using ih

/-- No more calls are woken by force than are asked for. -/
theorem atomic_forced (h : atomic apply bq os = some bq') :
    forced os + bq'.forceWakeup.toNat ≤ bq.forceWakeup.toNat + forces os := by
  induction os generalizing bq with
  | nil =>
    obtain rfl := Option.some.inj h
    simp [forced, forces]
  | cons o os ih =>
    obtain ⟨t, c, r⟩ := o
    obtain ⟨bq₁, hc, hrest⟩ := Option.bind_eq_some_iff.mp h
    have ih := ih hrest
    simp only [forced, forces, List.countP_cons] at ih ⊢
    obtain ⟨n, rfl, rfl, rfl⟩ | ⟨rfl, rfl, rfl⟩ | ⟨ms, n, rfl, rfl, rfl⟩ |
      ⟨ms, code, rfl, hcode, rfl, rfl⟩ | ⟨ms, rfl, rfl, hf, rfl⟩ := apply_cases hc
    · simpa using ih
    · have := Bool.toNat_le bq.forceWakeup
      simp only [Bool.toNat_true] at ih
      simp
      omega
    · simpa using ih
    · simpa [hcode] using ih
    · simp only [hf, Bool.toNat_true, Bool.toNat_false] at ih ⊢
      simp
      omega

/-! ## One event -/

/-- What is known of a place: no call without waiting is at the condition, and only a call with a time
is over time. -/
def Place.Timely : Place → Prop
  | .waiting ms => ms ≠ 0
  | .woken ms timedOut => ms ≠ 0 ∧ (timedOut = true → 0 < ms)
  | _ => True

/-- A thread with the mutex in `block_queue_pop` waits, or returns with an answer that it can get. -/
def Does (bq : Queue) (ms : ℤ) (o : Queue × Outcome) : Prop :=
  (ms ≠ 0 ∧ o = (bq, .waits)) ∨ ∃ bq' code n, o = (bq', .returns code n) ∧
    apply bq (.pop ms) (.popped code n) = some bq'

theorem popLoop_does (bq : Queue) (ms : ℤ) : Does bq ms (popLoop bq ms) := by
  rw [popLoop]
  split
  · rename_i hl
    split_ifs with hms
    · exact .inr ⟨_, _, _, rfl, if_pos ⟨hl, hms⟩⟩
    · exact .inl ⟨hms, rfl⟩
  · rename_i n rest hl
    refine .inr ⟨_, _, _, rfl, ?_⟩
    simp [apply, hl]

theorem popWoken_does (bq : Queue) {ms : ℤ} {timedOut : Bool} (hms : ms ≠ 0)
    (htime : timedOut = true → 0 < ms) : Does bq ms (popWoken bq ms timedOut) := by
  rw [popWoken]
  split_ifs with ht hf
  · exact .inr ⟨_, _, _, rfl, if_pos (htime ht)⟩
  · exact .inr ⟨_, _, _, rfl, if_pos ⟨hf, hms⟩⟩
  · exact popLoop_does bq ms

variable {s s' : State T} {t u : T} {p : Place} {e : Event T} {ms : ℤ} [DecidableEq T]

theorem pending_goto : pending (goto s t p) = Function.update (pending s) t p.call := by
  funext u
  by_cases hu : u = t
  · subst hu
    simp [pending, goto]
  · simp [pending, goto, hu]

theorem pending_goto_of_call (h : p.call = pending s t) : pending (goto s t p) = pending s := by
  rw [pending_goto, h, Function.update_eq_self]

/-- Every thread is at a place of which that is known. -/
def Timely (s : State T) : Prop := ∀ t, (s.place t).Timely

theorem Timely.goto (H : Timely s) (hp : p.Timely) : Timely (goto s t p) := by
  intro u
  by_cases hu : u = t
  · subst hu
    simpa [BlockQueue.goto] using hp
  · simpa [BlockQueue.goto, hu] using H u

/-- What an event does: it keeps the places timely, does what its label says, and a return is told. -/
structure Event.Fits (s : State T) (l : Label T Call Answer) (s' : State T) : Prop where
  timely : Timely s'
  fits : l.Fits apply s.bq s'.bq (pending s) (pending s')
  returned : s'.returned = s.returned ++ returns l.effect.toList

/-- **Leaving the mutex** of `block_queue_pop`. -/
theorem release_fits (H : Timely s) (ht : pending s t = some (.pop ms)) {o : Queue × Outcome}
    (ho : Does s.bq ms o) : Event.Fits s (o.2.label t ms) (release s t ms o) := by
  rcases ho with ⟨hms, rfl⟩ | ⟨bq', code, n, rfl, happly⟩
  · refine ⟨(H.goto hms : Timely (goto s t (.waiting ms))), ⟨rfl, ?_⟩, ?_⟩
    · exact pending_goto_of_call (p := .waiting ms) ht.symm
    · exact (List.append_nil _).symm
  · refine ⟨(H.goto trivial : Timely (goto s t .out)), ⟨happly, ht, ?_⟩, rfl⟩
    exact pending_goto (p := .out)

variable [Fintype T]

theorem step_fits (H : Timely s) (h : step s e = some s') : Event.Fits s (label s e) s' := by
  -- a thread that moves within the call it is in
  have hmove : ∀ {u : T} {p : Place}, p.Timely → p.call = pending s u →
      Event.Fits s .silent (goto s u p) := fun hp hcall =>
    ⟨H.goto hp, ⟨rfl, pending_goto_of_call hcall⟩, (List.append_nil _).symm⟩
  cases e with
  | push t n =>
    rw [step] at h
    split_ifs at h with hpush
    obtain rfl := Option.some.inj h
    have hout : pending s t = none := by rw [pending, hpush.1, Place.call]
    have hplace : ∀ p : Place, p.call = none → p.Timely →
        Event.Fits s (.instant t (.push n) .done) { goto s t p with bq.l := s.bq.l ++ [n] } :=
      fun p hcall hp => ⟨(H.goto hp : Timely (goto s t p)),
        ⟨rfl, hout, pending_goto_of_call (hcall.trans hout.symm)⟩, (List.append_nil _).symm⟩
    refine hplace _ ?_ ?_ <;> split_ifs <;> trivial
  | forceWakeup t =>
    rw [step] at h
    split_ifs at h with hout
    obtain rfl := Option.some.inj h
    have hnone : pending s t = none := by rw [pending, hout, Place.call]
    exact ⟨(H.goto trivial : Timely (goto s t .signals)),
      ⟨rfl, hnone, pending_goto_of_call (p := .signals) hnone.symm⟩, (List.append_nil _).symm⟩
  | signal t u =>
    cases u with
    | none =>
      rw [step] at h
      split_ifs at h with hsignal
      obtain rfl := Option.some.inj h
      exact hmove trivial (by rw [pending, hsignal.1]; rfl)
    | some u =>
      rw [step] at h
      split at h
      · rename_i ms ht hu
        obtain rfl := Option.some.inj h
        have hms := H u
        rw [hu] at hms
        have hcall : pending (goto s t .out) = pending s :=
          pending_goto_of_call (by rw [pending, ht]; rfl)
        refine ⟨(H.goto (p := .out) trivial).goto ⟨hms, fun hf => absurd hf Bool.false_ne_true⟩,
          ⟨rfl, ?_⟩, (List.append_nil _).symm⟩
        rw [pending_goto_of_call (by rw [hcall, pending, hu]; rfl), hcall]
      · cases h
  | pop t ms =>
    rw [step] at h
    split_ifs at h with hout
    obtain rfl := Option.some.inj h
    refine ⟨H.goto trivial, ⟨rfl, ?_, pending_goto⟩, (List.append_nil _).symm⟩
    rw [pending, hout, Place.call]
  | lock t =>
    have hplace := H t
    rw [step] at h
    split at h
    · rename_i ms hp
      obtain rfl := Option.some.inj h
      have hlabel : label s (.lock t) = (popLoop s.bq ms).2.label t ms := by rw [label, hp]
      rw [hlabel]
      exact release_fits H (by rw [pending, hp, Place.call]) (popLoop_does s.bq ms)
    · rename_i ms timedOut hp
      obtain rfl := Option.some.inj h
      rw [hp] at hplace
      have hlabel : label s (.lock t) = (popWoken s.bq ms timedOut).2.label t ms := by
        rw [label, hp]
      rw [hlabel]
      exact release_fits H (by rw [pending, hp, Place.call]) (popWoken_does s.bq hplace.1 hplace.2)
    · cases h
  | timeout t =>
    have hplace := H t
    rw [step] at h
    split at h
    · rename_i ms hp
      split_ifs at h with hms
      obtain rfl := Option.some.inj h
      exact hmove ⟨hms.ne', fun _ => hms⟩ (by rw [pending, hp]; rfl)
    · cases h
  | spurious t =>
    have hplace := H t
    rw [step] at h
    split at h
    · rename_i ms hp
      obtain rfl := Option.some.inj h
      rw [hp] at hplace
      exact hmove ⟨hplace, fun hf => absurd hf Bool.false_ne_true⟩ (by rw [pending, hp]; rfl)
    · cases h

/-! ## The runs -/

theorem linearizes : Linearizes (step (T := T)) label State.bq pending apply Timely where
  keeps H h := (step_fits H h).timely
  fits H h := (step_fits H h).fits

theorem returned_run {es : List (Event T)} (H : Timely s) (h : exec step s es = some s') :
    s'.returned = s.returned ++ returns (history (labels step label s es)) := by
  induction es generalizing s with
  | nil =>
    obtain rfl := Option.some.inj h
    exact (List.append_nil _).symm
  | cons e es ih =>
    obtain ⟨s₁, hs, hrest⟩ := Option.bind_eq_some_iff.mp h
    have hfits := step_fits H hs
    rw [labels_cons hs, history_cons, returns, List.filterMap_append, ih hfits.timely hrest,
      hfits.returned, List.append_assoc]
    rfl

/-- **A blocking queue is a queue**, in every interleaving of its threads. -/
theorem queue_linearizes {es : List (Event T)} (h : exec step createBlockQueue es = some s) :
    Queues (labels step label createBlockQueue es) s := by
  have H : Timely (createBlockQueue : State T) := fun _ => trivial
  obtain ⟨hserial, hcalls⟩ := linearizes.run H h
  refine ⟨hserial, returned_run H h, hcalls, ?_, ?_⟩
  · simpa [createBlockQueue] using atomic_fifo hserial
  · simpa [createBlockQueue] using atomic_forced hserial

/-- Two consumers and two producers; one consumer is woken by force, and one has no time left when a
node comes. -/
def consumersRun : List (Event (Bool ⊕ Bool)) :=
  let a := .inl false
  let b := .inl true
  [.pop a (-1), .lock a, .pop b 5, .lock b, .push (.inr false) 7, .signal (.inr false) (some a),
    .timeout b, .push (.inr true) 8, .lock b, .lock a, .pop b 0, .lock b, .pop a (-1), .lock a,
    .forceWakeup (.inr true), .signal (.inr true) (some a), .lock a]

theorem queue_linearizes_consumers : ∃ s, exec step createBlockQueue consumersRun = some s ∧
    s.returned = [(.inl true, .timeout, none), (.inl false, .success, some 7),
      (.inl true, .success, some 8), (.inl false, .forceWakeUp, none)] ∧
    Queues (labels step label createBlockQueue consumersRun) s := by
  obtain ⟨s, hs, hreturned⟩ : ∃ s, exec step createBlockQueue consumersRun = some s ∧
      s.returned = [(.inl true, .timeout, none), (.inl false, .success, some 7),
        (.inl true, .success, some 8), (.inl false, .forceWakeUp, none)] := exists_exec (by decide)
  exact ⟨s, hs, hreturned, queue_linearizes hs⟩

end Kendylib.BlockQueue
