import Kendylib.Foundations.Interleaving

/-!
# Monitors

Data under a mutex with one condition, used by any number of threads. A call takes the mutex, and
with it runs to its return or to a wait at the condition, which releases the mutex; a thread that is
woken takes the mutex again and goes on. What runs under the mutex is one step. A signal wakes one of
the threads that wait, if there is one, and a broadcast all of them; a thread may be woken without
either, also because its time is over.

No wakeup is lost (`Reaches.blocked`) where a thread waits only while it has to, and each step that
ends this wakes all, or wakes one where no two threads can wait.
-/

namespace Kendylib

open Interleaving

/-- Whom a step wakes. -/
inductive Wake
  | nobody
  | one
  | all
  deriving DecidableEq

/-- What a thread leaves behind that had the mutex, and whether it waits at the condition or returns. -/
structure Outcome (σ : Type) where
  data : σ
  wake : Wake
  waits : Bool

/-- The calls `κ` of threads `T`: who may make them, and what is done with the mutex from the call on,
and from the return of a wait on. A call that may not be made returns at once. -/
structure Monitor (σ κ T : Type) where
  admits : T → κ → Bool
  enter : κ → σ → Outcome σ
  resume : κ → σ → Outcome σ

namespace Monitor

variable {σ κ T : Type}

/-- Where a thread is: not in a call, called without having got the mutex, at the condition, or on its
way back from there. -/
inductive Place (κ : Type)
  | out
  | entered (k : κ)
  | waiting (k : κ)
  | woken (k : κ)
  deriving DecidableEq

namespace Place

def wake : Place κ → Place κ
  | .waiting k => .woken k
  | p => p

/-- The call that a thread is in. -/
def call : Place κ → Option κ
  | .out => none
  | .entered k | .waiting k | .woken k => some k

def waits : Place κ → Bool
  | .waiting _ => true
  | _ => false

variable {p : Place κ} {k : κ}

@[simp] theorem call_wake : p.wake.call = p.call := by
  cases p <;> rfl

@[simp] theorem waits_wake : p.wake.waits = false := by
  cases p <;> rfl

theorem wake_of_not_waits (h : p.waits = false) : p.wake = p := by
  cases p with
  | waiting k => cases h
  | out | entered k | woken k => rfl

theorem waits_of_eq (h : p = .waiting k) : p.waits = true := by
  rw [h]
  rfl

theorem exists_of_waits (h : p.waits = true) : ∃ k, p = .waiting k := by
  cases p with
  | waiting k => exact ⟨k, rfl⟩
  | out | entered k | woken k => cases h

end Place

structure State (σ κ T : Type) where
  data : σ
  place : T → Place κ

inductive Event (κ T : Type)
  | call (t : T) (k : κ)
  /-- `t` gets the mutex; `u` is the thread that is woken if it signals. -/
  | lock (t : T) (u : Option T)
  /-- `t` is woken without a signal. -/
  | spurious (t : T)

section Code

variable [DecidableEq T]

def State.goto (s : State σ κ T) (t : T) (p : Place κ) : State σ κ T :=
  { s with place := Function.update s.place t p }

@[simp] theorem State.goto_self (s : State σ κ T) (t : T) (p : Place κ) : (s.goto t p).place t = p :=
  Function.update_self ..

theorem State.goto_of_ne (s : State σ κ T) (p : Place κ) {t v : T} (h : v ≠ t) :
    (s.goto t p).place v = s.place v := Function.update_of_ne h ..

/-- The thread `t` releases the mutex. -/
def State.release (s : State σ κ T) (t : T) (k : κ) (o : Outcome σ) : State σ κ T :=
  { s.goto t (if o.waits then .waiting k else .out) with data := o.data }

variable [Fintype T]

/-- Threads that wait are woken; `none` if `u` is not what a signal does. -/
def State.notify (s : State σ κ T) (u : Option T) : Wake → Option (State σ κ T)
  | .nobody => if u = none then some s else none
  | .all => if u = none then some { s with place := fun t => (s.place t).wake } else none
  | .one =>
    match u with
    | none => if ∀ t, (s.place t).waits = false then some s else none
    | some u => if (s.place u).waits then some (s.goto u (s.place u).wake) else none

/-- An event; `none` if it cannot happen. -/
def step (M : Monitor σ κ T) (s : State σ κ T) : Event κ T → Option (State σ κ T)
  | .call t k =>
    match s.place t with
    | .out => some (if M.admits t k then s.goto t (.entered k) else s)
    | _ => none
  | .lock t u =>
    match s.place t with
    | .entered k => (s.notify u (M.enter k s.data).wake).map fun s' => s'.release t k (M.enter k s.data)
    | .woken k => (s.notify u (M.resume k s.data).wake).map fun s' => s'.release t k (M.resume k s.data)
    | _ => none
  | .spurious t =>
    match s.place t with
    | .waiting k => some (s.goto t (.woken k))
    | _ => none

end Code

/-! ## Steps -/

/-- What is done with the mutex in a call. -/
def Section (M : Monitor σ κ T) (k : κ) (d : σ) (o : Outcome σ) : Prop :=
  o = M.enter k d ∨ o = M.resume k d

variable [DecidableEq T] [Fintype T] {M : Monitor σ κ T} {s s' : State σ κ T} {t u : T} {k : κ}
  {o : Outcome σ} {e : Event κ T}

/-- Threads other than `t` are where they were, or are woken as is said by `w`. -/
structure Notified (s s' : State σ κ T) (t : T) (w : Wake) : Prop where
  others : ∀ v, v ≠ t → s'.place v = s.place v ∨ s'.place v = (s.place v).wake
  nobody : w = .nobody → ∀ v, v ≠ t → s'.place v = s.place v
  all : w = .all → ∀ v, v ≠ t → s'.place v = (s.place v).wake
  one : w = .one → (∀ v, (s.place v).waits = false) ∨
    ∃ u, (s.place u).waits = true ∧ s'.place u = (s.place u).wake

/-- What a thread does with the mutex. -/
structure Locked (M : Monitor σ κ T) (s s' : State σ κ T) (t : T) (k : κ) (o : Outcome σ) : Prop where
  call : (s.place t).call = some k
  here : s.place t = .entered k ∧ o = M.enter k s.data ∨ s.place t = .woken k ∧ o = M.resume k s.data
  data : s'.data = o.data
  place : s'.place t = if o.waits then .waiting k else .out
  notified : Notified s s' t o.wake

theorem notify_spec {w : Wake} {x : Option T} (ht : (s.place t).waits = false)
    (h : s.notify x w = some s') : Notified s (s'.release t k o) t w := by
  have hother : ∀ v, v ≠ t → (s'.release t k o).place v = s'.place v := fun v hv =>
    Function.update_of_ne hv ..
  cases w with
  | nobody =>
    obtain ⟨-, h⟩ := Option.ite_none_right_eq_some.mp h
    obtain rfl := Option.some.inj h
    exact ⟨fun v hv => .inl (hother v hv), fun _ v hv => hother v hv, nofun, nofun⟩
  | all =>
    obtain ⟨-, h⟩ := Option.ite_none_right_eq_some.mp h
    obtain rfl := Option.some.inj h
    exact ⟨fun v hv => .inr (hother v hv), nofun, fun _ v hv => hother v hv, nofun⟩
  | one =>
    cases x with
    | none =>
      obtain ⟨hnone, h⟩ := Option.ite_none_right_eq_some.mp h
      obtain rfl := Option.some.inj h
      exact ⟨fun v hv => .inl (hother v hv), nofun, nofun, fun _ => .inl hnone⟩
    | some u =>
      obtain ⟨hu, h⟩ := Option.ite_none_right_eq_some.mp h
      obtain rfl := Option.some.inj h
      have hut : u ≠ t := by
        rintro rfl
        rw [ht] at hu
        cases hu
      have hself : ((s.goto u (s.place u).wake).release t k o).place u = (s.place u).wake :=
        (hother u hut).trans (Function.update_self ..)
      refine ⟨fun v hv => ?_, nofun, nofun, fun _ => .inr ⟨u, hu, hself⟩⟩
      by_cases hvu : v = u
      · exact .inr (hvu ▸ hself)
      · exact .inl ((hother v hv).trans (Function.update_of_ne hvu ..))

/-- **What an event does.** -/
theorem step_cases (h : M.step s e = some s') :
    (∃ t k, e = .call t k ∧ s.place t = .out ∧
      (M.admits t k = true ∧ s' = s.goto t (.entered k) ∨ M.admits t k = false ∧ s' = s)) ∨
    (∃ t u k o, e = .lock t u ∧ Locked M s s' t k o) ∨
    ∃ t k, e = .spurious t ∧ s.place t = .waiting k ∧ s' = s.goto t (.woken k) := by
  cases e with
  | call t k =>
    rw [step] at h
    split at h
    next hout =>
      refine .inl ⟨t, k, rfl, hout, ?_⟩
      obtain rfl := Option.some.inj h
      cases M.admits t k
      · exact .inr ⟨rfl, rfl⟩
      · exact .inl ⟨rfl, rfl⟩
    next => cases h
  | lock t u =>
    refine .inr (.inl ?_)
    rw [step] at h
    split at h
    next k hk =>
      obtain ⟨s₁, hs₁, rfl⟩ := Option.map_eq_some_iff.mp h
      exact ⟨t, u, k, _, rfl, by rw [hk]; rfl, .inl ⟨hk, rfl⟩, rfl, Function.update_self ..,
        notify_spec (by rw [hk]; rfl) hs₁⟩
    next k hk =>
      obtain ⟨s₁, hs₁, rfl⟩ := Option.map_eq_some_iff.mp h
      exact ⟨t, u, k, _, rfl, by rw [hk]; rfl, .inr ⟨hk, rfl⟩, rfl, Function.update_self ..,
        notify_spec (by rw [hk]; rfl) hs₁⟩
    next => cases h
  | spurious t =>
    rw [step] at h
    split at h
    next k hk => exact .inr (.inr ⟨t, k, rfl, hk, (Option.some.inj h).symm⟩)
    next => cases h

omit [DecidableEq T] [Fintype T] in
theorem Locked.section (L : Locked M s s' t k o) : M.Section k s.data o :=
  L.here.imp And.right And.right

omit [DecidableEq T] [Fintype T] in
/-- Another thread that waits then has waited before. -/
theorem Locked.waited (L : Locked M s s' t k o) {v : T} {j : κ} (hv : s'.place v = .waiting j)
    (hvt : v ≠ t) : s.place v = .waiting j := by
  rcases L.notified.others v hvt with hsame | hwake
  · rw [← hsame, hv]
  · have hwaits : (s.place v).wake.waits = true := by
      rw [← hwake, hv]
      rfl
    rw [Place.waits_wake] at hwaits
    cases hwaits

/-! ## Lost wakeups -/

/-- The call may wait. -/
def CanWait (M : Monitor σ κ T) (k : κ) : Prop := ∃ d o, M.Section k d o ∧ o.waits = true

/-- A thread that is in the call is the only one that may wait. -/
def Alone (M : Monitor σ κ T) (j : κ) : Prop :=
  ∀ t u i, M.admits t j = true → M.admits u i = true → M.CanWait i → t = u

/-- A thread waits where its call has to. Where this ends, all are woken, or no other thread may wait
and it is woken or is the one that ends it. -/
structure Wakes (M : Monitor σ κ T) (Blocks : κ → σ → Prop) : Prop where
  blocks : ∀ k d o, M.Section k d o → o.waits = true → Blocks k o.data
  wakes : ∀ k d o j, M.Section k d o → Blocks j d → ¬ Blocks j o.data → o.wake = .all ∨
    M.Alone j ∧ (o.wake = .one ∨ M.CanWait k)

/-- **No wakeup is lost**: the calls of the threads that wait have to. -/
structure Blocked (M : Monitor σ κ T) (Blocks : κ → σ → Prop) (s : State σ κ T) : Prop where
  admits : ∀ t k, (s.place t).call = some k → M.admits t k = true
  canWait : ∀ t k, s.place t = .waiting k → M.CanWait k
  blocks : ∀ t k, s.place t = .waiting k → Blocks k s.data

variable {Blocks : κ → σ → Prop}

omit [Fintype T] in
theorem Blocked.goto (B : Blocked M Blocks s) {p : Place κ} (hp : p.waits = false)
    (hk : ∀ k, p.call = some k → M.admits t k = true) : Blocked M Blocks (s.goto t p) := by
  have hold : ∀ v j, (s.goto t p).place v = .waiting j → s.place v = .waiting j := by
    intro v j hv
    by_cases hvt : v = t
    · subst hvt
      rw [State.goto_self] at hv
      rw [Place.waits_of_eq hv] at hp
      cases hp
    · rwa [s.goto_of_ne p hvt] at hv
  refine ⟨fun v j hv => ?_, fun v j hv => B.canWait v j (hold v j hv),
    fun v j hv => B.blocks v j (hold v j hv)⟩
  by_cases hvt : v = t
  · subst hvt
    rw [State.goto_self] at hv
    exact hk j hv
  · rw [s.goto_of_ne p hvt] at hv
    exact B.admits v j hv

omit [DecidableEq T] [Fintype T] in
theorem Blocked.lock (B : Blocked M Blocks s) (W : M.Wakes Blocks) (L : Locked M s s' t k o) :
    Blocked M Blocks s' := by
  refine ⟨fun v j hv => ?_, fun v j hv => ?_, fun v j hv => ?_⟩
  · by_cases hvt : v = t
    · subst hvt
      rw [L.place] at hv
      obtain rfl : k = j := by
        split_ifs at hv
        · exact Option.some.inj hv
        · cases hv
      exact B.admits v k L.call
    · refine B.admits v j ?_
      rcases L.notified.others v hvt with hsame | hwake
      · rw [← hsame, hv]
      · rw [← hv, hwake, Place.call_wake]
  · by_cases hvt : v = t
    · subst hvt
      rw [L.place] at hv
      split_ifs at hv with hwaits
      obtain rfl := Place.waiting.inj hv
      exact ⟨_, o, L.section, hwaits⟩
    · exact B.canWait v j (L.waited hv hvt)
  · rw [L.data]
    by_cases hvt : v = t
    · subst hvt
      rw [L.place] at hv
      split_ifs at hv with hwaits
      obtain rfl := Place.waiting.inj hv
      exact W.blocks k s.data o L.section hwaits
    · have hwaited := L.waited hv hvt
      by_contra hends
      have hadmits : M.admits v j = true := B.admits v j (by rw [hwaited]; rfl)
      rcases W.wakes k s.data o j L.section (B.blocks v j hwaited) hends with
        hall | ⟨halone, hone | hself⟩
      · -- a broadcast wakes `v`
        have hwoken := L.notified.all hall v hvt
        rw [hv, hwaited] at hwoken
        cases hwoken
      · rcases L.notified.one hone with hnone | ⟨u, hu, hwoken⟩
        · have hno := hnone v
          rw [Place.waits_of_eq hwaited] at hno
          cases hno
        · -- the thread that the signal wakes is `v`
          obtain ⟨i, hi⟩ := Place.exists_of_waits hu
          obtain rfl := halone v u i hadmits (B.admits u i (by rw [hi]; rfl)) (B.canWait u i hi)
          rw [hv, hwaited] at hwoken
          cases hwoken
      · exact hvt (halone v t k hadmits (B.admits t k L.call) hself)

/-- **Every event** keeps it. -/
theorem Blocked.step (B : Blocked M Blocks s) (W : M.Wakes Blocks) (h : M.step s e = some s') :
    Blocked M Blocks s' := by
  rcases step_cases h with ⟨t, k, -, -, ⟨hk, rfl⟩ | ⟨-, rfl⟩⟩ | ⟨t, u, k, o, -, L⟩ | ⟨t, k, -, hk, rfl⟩
  · exact B.goto rfl fun j hj => Option.some.inj hj ▸ hk
  · exact B
  · exact B.lock W L
  · exact B.goto rfl fun j hj => Option.some.inj hj ▸ B.admits t k (by rw [hk]; rfl)

theorem Reaches.blocked {C : State σ κ T → Event κ T → Prop} (W : M.Wakes Blocks)
    (B : Blocked M Blocks s) (h : Reaches M.step C s s') : Blocked M Blocks s' :=
  Reaches.invariant (fun _ _ _ B _ h => B.step W h) B h

/-! ## Leaving -/

/-- Nobody waits, and no call does any more. -/
structure Open (P : σ → Prop) (s : State σ κ T) : Prop where
  data : P s.data
  nobody : ∀ t, (s.place t).waits = false

variable {P : σ → Prop}

theorem notify_none (hnobody : ∀ t, (s.place t).waits = false) (w : Wake) :
    s.notify none w = some s := by
  have hsame : (fun t => (s.place t).wake) = s.place := by
    funext t
    exact Place.wake_of_not_waits (hnobody t)
  cases w with
  | nobody => rfl
  | one => exact if_pos hnobody
  | all =>
    rw [State.notify, hsame]
    rfl

/-- **A thread leaves** with its next step. -/
theorem Open.lock (hP : ∀ k d o, M.Section k d o → P d → o.waits = false ∧ P o.data)
    (O : Open P s) (hk : (s.place t).call = some k) : ∃ s', M.step s (.lock t none) = some s' ∧
      Open P s' ∧ s'.place t = .out ∧ ∀ v, v ≠ t → s'.place v = s.place v := by
  have hleave : ∀ o, M.Section k s.data o → Open P (s.release t k o) ∧
      (s.release t k o).place t = .out ∧
        ∀ v, v ≠ t → (s.release t k o).place v = s.place v := by
    intro o ho
    obtain ⟨hwaits, hdata⟩ := hP k s.data o ho O.data
    have hself : (s.release t k o).place t = .out := by
      refine (State.goto_self s t _).trans ?_
      rw [if_neg (by rw [hwaits]; exact Bool.false_ne_true)]
    have hother : ∀ v, v ≠ t → (s.release t k o).place v = s.place v := fun v hv =>
      s.goto_of_ne _ hv
    refine ⟨⟨hdata, fun v => ?_⟩, hself, hother⟩
    by_cases hv : v = t
    · rw [hv, hself]
      rfl
    · rw [hother v hv]
      exact O.nobody v
  cases hplace : s.place t with
  | out =>
    rw [hplace] at hk
    cases hk
  | waiting j =>
    have hno := O.nobody t
    rw [hplace] at hno
    cases hno
  | entered j =>
    rw [hplace] at hk
    obtain rfl := Option.some.inj hk
    refine ⟨_, ?_, hleave _ (.inl rfl)⟩
    rw [step, hplace]
    dsimp only
    rw [notify_none O.nobody]
    rfl
  | woken j =>
    rw [hplace] at hk
    obtain rfl := Option.some.inj hk
    refine ⟨_, ?_, hleave _ (.inr rfl)⟩
    rw [step, hplace]
    dsimp only
    rw [notify_none O.nobody]
    rfl

/-- **All leave**, in whatever order they get the mutex. -/
theorem Open.leave (hP : ∀ k d o, M.Section k d o → P d → o.waits = false ∧ P o.data)
    (O : Open P s) {ts : List T} (hnodup : ts.Nodup) (hts : ∀ t ∈ ts, s.place t ≠ .out) :
    ∃ s', exec M.step s (ts.map fun t => .lock t none) = some s' ∧ ∀ t, s'.place t =
      if t ∈ ts then .out else s.place t := by
  induction ts generalizing s with
  | nil => exact ⟨s, rfl, fun _ => rfl⟩
  | cons t ts ih =>
    obtain ⟨ht, hnodup⟩ := List.nodup_cons.mp hnodup
    obtain ⟨k, hk⟩ : ∃ k, (s.place t).call = some k := by
      have hout := hts t List.mem_cons_self
      cases hplace : s.place t with
      | out => exact absurd hplace hout
      | entered k | waiting k | woken k => exact ⟨k, rfl⟩
    obtain ⟨s₁, hs₁, O₁, hself, hother⟩ := O.lock hP hk
    have hne : ∀ v ∈ ts, v ≠ t := fun v hv h => ht (h ▸ hv)
    obtain ⟨s', hs', hplace⟩ := ih O₁ hnodup fun v hv => by
      rw [hother v (hne v hv)]
      exact hts v (List.mem_cons_of_mem t hv)
    refine ⟨s', ?_, fun v => ?_⟩
    · rw [List.map_cons, exec, hs₁, Option.bind_some, hs']
    · rw [hplace]
      by_cases hv : v = t
      · subst hv
        rw [if_neg ht, hself, if_pos List.mem_cons_self]
      · rw [hother v hv]
        simp [hv]

end Monitor

end Kendylib
