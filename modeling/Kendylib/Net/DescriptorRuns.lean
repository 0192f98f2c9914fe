import Kendylib.Net.HandleMgr

/-!
# Descriptors along a run

`CloseSocket` closes the descriptor of a handle and `ReleaseSocket` closes it again, when the number
may have been given out for another handle. A handle that was neither closed nor released since it
was opened (`Holds`) owns its descriptor in every state of a run, exactly when no handle that was
closed is released while its descriptor number is held by another one (`alwaysOwned_iff_noTheft`).
-/

namespace Kendylib.Pool

variable {E R : Type}

/-- A pool, and the handles that were passed to `CloseSocket` since they were opened. -/
structure Tracked (E R : Type) where
  pool : Pool E R
  closed : ℕ → Bool

/-- The handle `s` is live and was not closed since it was opened. -/
def Holds (t : Tracked E R) (s : ℕ) : Prop :=
  s < t.pool.count ∧ t.pool.status s = true ∧ t.closed s = false

instance (t : Tracked E R) (s : ℕ) : Decidable (Holds t s) := inferInstanceAs (Decidable (_ ∧ _))

/-- The handles that hold a descriptor have it open, and no two have the same. -/
structure Owned (t : Tracked E R) : Prop where
  opened : ∀ s, Holds t s → t.pool.opened (t.pool.fd s) = true
  injective : ∀ s s', Holds t s → Holds t s' → t.pool.fd s = t.pool.fd s' → s = s'

/-- The record of closed handles when `h` has been given out, or `-1`. -/
def reopen (closed : ℕ → Bool) (h : ℤ) : ℕ → Bool :=
  if 0 ≤ h then Function.update closed h.toNat false else closed

/-- What a call does to the record of closed handles. -/
def closedAfter (t : Tracked E R) : Call E R → ℕ → Bool
  | .openSocket fd => reopen t.closed (t.pool.openSocket fd).1
  | .accept sock fd => reopen t.closed (t.pool.accept sock fd).1
  | .closeSocket sock =>
    match t.pool.getSocketByHandle sock with
    | some s => Function.update t.closed s true
    | none => t.closed
  | _ => t.closed

/-- `socket` and `accept` answer descriptors that are not open, and a handle is closed at most once
after it was opened. -/
def Allowed (t : Tracked E R) : Call E R → Prop
  | .openSocket fd | .accept _ fd => ∀ n ∈ fd, t.pool.opened n = false
  | .closeSocket sock => ∀ s ∈ t.pool.getSocketByHandle sock, t.closed s = false
  | _ => True

instance (t : Tracked E R) (c : Call E R) : Decidable (Allowed t c) := by
  cases c <;> unfold Allowed <;> infer_instance

/-- The call releases a handle that was closed before and whose descriptor number is held by
another handle. -/
def Steals (t : Tracked E R) : Call E R → Prop
  | .releaseSocket sock => ∃ s ∈ t.pool.getSocketByHandle sock, t.closed s = true ∧
    ∃ s' < t.pool.count, Holds t s' ∧ t.pool.fd s' = t.pool.fd s
  | _ => False

instance (t : Tracked E R) (c : Call E R) : Decidable (Steals t c) := by
  cases c <;> unfold Steals <;> infer_instance

/-! ## One call -/

section Call

variable {t : Tracked E R} {s fd : ℕ}

theorem getSocketByHandle_eq_some {p : Pool E R} {h : ℤ} (hs : p.getSocketByHandle h = some s) :
    s < p.count ∧ p.status s = true := by
  unfold getSocketByHandle at hs
  split at hs
  · rename_i hcond
    obtain rfl := Option.some.inj hs
    exact hcond.2
  · cases hs

/-- What giving out a handle comes to: the pool is full and the descriptor is closed again, or a
socket that was not live gets it. -/
theorem adopt_cases (p : Pool E R) (fd : ℕ) :
    ((p.adopt fd).1 = -1 ∧ (p.adopt fd).2.status = p.status ∧ (p.adopt fd).2.fd = p.fd ∧
      (p.adopt fd).2.count = p.count ∧
      (p.adopt fd).2.opened = Function.update p.opened fd false) ∨
    ∃ s : ℕ, (p.adopt fd).1 = s ∧ (p.adopt fd).2.status = Function.update p.status s true ∧
      (p.adopt fd).2.fd = Function.update p.fd s fd ∧
      (∀ s', s' ≠ s → s' < (p.adopt fd).2.count → s' < p.count) ∧
      (p.adopt fd).2.opened = Function.update p.opened fd true := by
  have hrel : ({ p with opened := Function.update p.opened fd true } : Pool E R).released =
    p.released := rfl
  cases hs : p.released with
  | some s =>
    refine .inr ⟨s, ?_⟩
    simp only [adopt, newSocketWrapper, hrel, hs, initSocket]
    exact ⟨trivial, trivial, trivial, fun s' _ h => h, trivial⟩
  | none =>
    by_cases hroom : p.count < maxSocket
    · refine .inr ⟨p.count, ?_⟩
      simp only [adopt, newSocketWrapper, hrel, hs, hroom, if_true, initSocket, createSocket]
      exact ⟨trivial, trivial, trivial, fun s' hne h => by omega, trivial⟩
    · refine .inl ?_
      simp only [adopt, newSocketWrapper, hrel, hs, hroom, if_false, close,
        Function.update_idem]
      exact ⟨trivial, trivial, trivial, trivial, trivial⟩

/-- A new handle owns its descriptor. -/
theorem Owned.adopt (o : Owned t) (hfd : t.pool.opened fd = false) :
    Owned ⟨(t.pool.adopt fd).2, reopen t.closed (t.pool.adopt fd).1⟩ := by
  have hne : ∀ s, Holds t s → t.pool.fd s ≠ fd := by
    rintro s hs rfl
    rw [o.opened s hs] at hfd
    cases hfd
  obtain ⟨hh, hst, hf, hc, hop⟩ | ⟨s, hh, hst, hf, hc, hop⟩ := adopt_cases t.pool fd
  · have hholds : ∀ s, Holds ⟨(t.pool.adopt fd).2, reopen t.closed (t.pool.adopt fd).1⟩ s →
        Holds t s := by
      intro s hs
      simpa [Holds, hh, hst, hc, reopen] using hs
    refine ⟨fun s hs => ?_, fun s s' hs hs' heq => ?_⟩
    · simp only [hop, hf]
      rw [Function.update_of_ne (hne s (hholds s hs))]
      exact o.opened s (hholds s hs)
    · simp only [hf] at heq
      exact o.injective s s' (hholds s hs) (hholds s' hs') heq
  · have hholds : ∀ s', s' ≠ s →
        Holds ⟨(t.pool.adopt fd).2, reopen t.closed (t.pool.adopt fd).1⟩ s' → Holds t s' := by
      rintro s' hs' ⟨hlt, hlive, hopen⟩
      refine ⟨hc s' hs' hlt, ?_, ?_⟩
      · simpa [hst, Function.update_of_ne hs'] using hlive
      · simpa [hh, reopen, Function.update_of_ne hs'] using hopen
    refine ⟨fun s' hs' => ?_, fun s' s'' hs' hs'' heq => ?_⟩
    · simp only [hop, hf]
      rcases eq_or_ne s' s with rfl | hss
      · simp
      · rw [Function.update_of_ne hss, Function.update_of_ne (hne s' (hholds s' hss hs'))]
        exact o.opened s' (hholds s' hss hs')
    · simp only [hf] at heq
      rcases eq_or_ne s' s with rfl | h1
      · rcases eq_or_ne s'' s' with rfl | h2
        · rfl
        · rw [Function.update_self, Function.update_of_ne h2] at heq
          exact absurd heq.symm (hne s'' (hholds s'' h2 hs''))
      · rw [Function.update_of_ne h1] at heq
        rcases eq_or_ne s'' s with rfl | h2
        · rw [Function.update_self] at heq
          exact absurd heq (hne s' (hholds s' h1 hs'))
        · rw [Function.update_of_ne h2] at heq
          exact o.injective s' s'' (hholds s' h1 hs') (hholds s'' h2 hs'') heq

/-- Fewer handles and a descriptor closed that none of them holds. -/
theorem Owned.close {t' : Tracked E R} (o : Owned t) (fd : ℕ) (hfd : t'.pool.fd = t.pool.fd)
    (hop : t'.pool.opened = Function.update t.pool.opened fd false)
    (hholds : ∀ s, Holds t' s → Holds t s ∧ t.pool.fd s ≠ fd) : Owned t' where
  opened s hs := by
    obtain ⟨hs, hne⟩ := hholds s hs
    rw [hop, hfd, Function.update_of_ne hne]
    exact o.opened s hs
  injective s s' hs hs' heq := by
    rw [hfd] at heq
    exact o.injective s s' (hholds s hs).1 (hholds s' hs').1 heq

variable [DecidableEq E] [DecidableEq R]

/-- The state after a call. -/
def Tracked.call (t : Tracked E R) (c : Call E R) : Exec (Tracked E R) := do
  return ⟨← t.pool.call c, closedAfter t c⟩

theorem wsaIo_owned {d : Dir} {sock : ℤ} {io : R} {now : Bool} {result : IoResult}
    {p' : Pool E R} (h : t.pool.call (.wsaIo d sock io now result) = .ok p') :
    p'.status = t.pool.status ∧ p'.fd = t.pool.fd ∧ p'.count = t.pool.count ∧
      p'.opened = t.pool.opened := by
  obtain ⟨⟨a, b, net⟩, -, h⟩ := Exec.bind_eq_ok.mp h
  obtain rfl := Except.ok.inj h
  exact ⟨rfl, rfl, rfl, rfl⟩

/-- **One call** leaves every handle its descriptor, exactly if it does not release a handle closed
before whose descriptor number is held by another one. -/
theorem call_owned {t' : Tracked E R} {c : Call E R} (o : Owned t) (ha : Allowed t c)
    (h : t.call c = .ok t') : Owned t' ↔ ¬ Steals t c := by
  obtain ⟨p', hp', h⟩ := Exec.bind_eq_ok.mp h
  obtain rfl := Except.ok.inj h
  cases c with
  | openSocket n =>
    obtain rfl := Except.ok.inj hp'
    simp only [Steals, not_false_eq_true, iff_true, closedAfter]
    cases n with
    | none => exact o
    | some n => exact o.adopt (ha n rfl)
  | accept sock n =>
    obtain rfl := Except.ok.inj hp'
    simp only [Steals, not_false_eq_true, iff_true, closedAfter, accept]
    cases hs : t.pool.getSocketByHandle sock with
    | none => exact o
    | some s =>
      cases n with
      | none => exact o
      | some n => exact o.adopt (ha n rfl)
  | closeSocket sock =>
    obtain rfl := Except.ok.inj hp'
    simp only [Steals, not_false_eq_true, iff_true, closedAfter, closeSocket]
    cases hs : t.pool.getSocketByHandle sock with
    | none => exact o
    | some s =>
      -- the handle owns what it closes
      obtain ⟨hlt, hlive⟩ := getSocketByHandle_eq_some hs
      have hself : Holds t s := ⟨hlt, hlive, ha s hs⟩
      refine o.close (t.pool.fd s) rfl rfl fun s' hs' => ?_
      have hne : s' ≠ s := by
        rintro rfl
        simpa using hs'.2.2
      have hs'' : Holds t s' := ⟨hs'.1, hs'.2.1, by simpa [Function.update_of_ne hne] using hs'.2.2⟩
      exact ⟨hs'', fun heq => hne (o.injective s' s hs'' hself heq)⟩
  | releaseSocket sock =>
    obtain rfl := Except.ok.inj hp'
    simp only [Steals, closedAfter, releaseSocket, releaseSocketWrapper]
    cases hs : t.pool.getSocketByHandle sock with
    | none => simpa using o
    | some s =>
      obtain ⟨hlt, hlive⟩ := getSocketByHandle_eq_some hs
      have hiff : ∀ s', Holds ⟨{ t.pool.close (t.pool.fd s) with
          status := Function.update t.pool.status s false }, t.closed⟩ s' ↔
          Holds t s' ∧ s' ≠ s := by
        intro s'
        rcases eq_or_ne s' s with rfl | hne
        · simp [Holds]
        · simp [Holds, close, hne]
      constructor
      · rintro o' ⟨u, hu, hclosed, s', hlt', hs', heq⟩
        obtain rfl := Option.some.inj hu
        have hne : s' ≠ s := by
          rintro rfl
          rw [hs'.2.2] at hclosed
          cases hclosed
        have hopen := o'.opened s' ((hiff s').mpr ⟨hs', hne⟩)
        simp [close, heq] at hopen
      · intro hnot
        refine o.close (t.pool.fd s) rfl rfl fun s' hs' => ?_
        obtain ⟨hs', hne⟩ := (hiff s').mp hs'
        refine ⟨hs', fun heq => ?_⟩
        by_cases hclosed : t.closed s = true
        · exact hnot ⟨s, rfl, hclosed, s', hs'.1, hs', heq⟩
        · exact hne (o.injective s' s hs' ⟨hlt, hlive, by simpa using hclosed⟩ heq)
  | bind2Engine e sock registered =>
    obtain rfl := Except.ok.inj hp'
    simp only [Steals, not_false_eq_true, iff_true, closedAfter, bind2Engine]
    split
    · exact o
    · split
      · exact ⟨o.opened, o.injective⟩
      · exact o
  | wsaIo d sock io now result =>
    obtain ⟨hst, hfd, hc, hop⟩ := wsaIo_owned hp'
    simp only [Steals, not_false_eq_true, iff_true, closedAfter]
    refine ⟨fun s hs => ?_, fun s s' hs hs' heq => ?_⟩
    · simp only [Holds, hst, hc] at hs
      simp only [hop, hfd]
      exact o.opened s hs
    · simp only [Holds, hst, hc] at hs hs'
      simp only [hfd] at heq
      exact o.injective s s' hs hs' heq

end Call

/-! ## Runs -/

variable [DecidableEq E] [DecidableEq R]

/-- The calls of the run are allowed. -/
def AllowedRun : Tracked E R → List (Call E R) → Prop
  | _, [] => True
  | t, c :: cs => Allowed t c ∧
    match t.call c with
    | .ok t' => AllowedRun t' cs
    | .error _ => True

instance decidableAllowedRun : (t : Tracked E R) → (cs : List (Call E R)) →
    Decidable (AllowedRun t cs)
  | _, [] => isTrue trivial
  | t, c :: cs => @instDecidableAnd _ _ _ <|
    match t.call c with
    | .ok t' => decidableAllowedRun t' cs
    | .error _ => isTrue trivial

/-- Every handle that holds a descriptor owns it, in every state of the run. -/
def AlwaysOwned : Tracked E R → List (Call E R) → Prop
  | t, [] => Owned t
  | t, c :: cs => Owned t ∧
    match t.call c with
    | .ok t' => AlwaysOwned t' cs
    | .error _ => True

/-- No call of the run releases a handle that was closed before while its descriptor number is held
by another handle. -/
def NoTheft : Tracked E R → List (Call E R) → Prop
  | _, [] => True
  | t, c :: cs =>
    match t.call c with
    | .ok t' => ¬ Steals t c ∧ NoTheft t' cs
    | .error _ => True

instance decidableNoTheft : (t : Tracked E R) → (cs : List (Call E R)) → Decidable (NoTheft t cs)
  | _, [] => isTrue trivial
  | t, c :: cs =>
    show Decidable (match t.call c with
      | .ok t' => ¬ Steals t c ∧ NoTheft t' cs
      | .error _ => True) from
    match t.call c with
    | .ok t' => @instDecidableAnd _ _ _ (decidableNoTheft t' cs)
    | .error _ => isTrue trivial

theorem alwaysOwned_iff_of_owned {t : Tracked E R} {cs : List (Call E R)} (o : Owned t)
    (ha : AllowedRun t cs) : AlwaysOwned t cs ↔ NoTheft t cs := by
  induction cs generalizing t with
  | nil => simp [AlwaysOwned, NoTheft, o]
  | cons c cs ih =>
    obtain ⟨hac, ha⟩ := ha
    simp only [AlwaysOwned, NoTheft, o, true_and]
    cases h : t.call c with
    | error f => simp
    | ok t' =>
      rw [h] at ha
      have hiff := call_owned o hac h
      by_cases hsteal : Steals t c
      · have hnot : ¬ AlwaysOwned t' cs := by
          intro hall
          refine hiff.mp ?_ hsteal
          cases cs with
          | nil => exact hall
          | cons c' cs => exact hall.1
        simp [hsteal, hnot]
      · have hrest := ih (hiff.mpr hsteal) ha
        simp [hsteal, hrest]

/-- A pool without handles. -/
def trackedStart (opened : ℕ → Bool) : Tracked E R := ⟨start opened, fun _ => false⟩

omit [DecidableEq E] [DecidableEq R] in
theorem owned_trackedStart (opened : ℕ → Bool) : Owned (trackedStart opened : Tracked E R) where
  opened s hs := absurd hs.1 (Nat.not_lt_zero s)
  injective s _ hs _ _ := absurd hs.1 (Nat.not_lt_zero s)

/-- **Descriptors are closed by their owner only, exactly if no number is recycled between
`CloseSocket` and `ReleaseSocket`.** In every run of calls in which the kernel answers descriptors
that are not open and no handle is closed twice, every live handle that was not closed has its
descriptor open and shares it with no other, in every state, if and only if no call releases a
handle that was closed before while another such handle holds its descriptor number. -/
theorem alwaysOwned_iff_noTheft (opened : ℕ → Bool) (cs : List (Call E R))
    (ha : AllowedRun (trackedStart opened) cs) :
    AlwaysOwned (trackedStart opened) cs ↔ NoTheft (trackedStart opened) cs :=
  alwaysOwned_iff_of_owned (owned_trackedStart opened) ha

/-- Two handles are closed and released at once, and the numbers are given out again. -/
theorem alwaysOwned_release_at_once :
    AlwaysOwned (trackedStart fun _ => false : Tracked Unit ℕ)
      [.openSocket (some 3), .accept 0 (some 4), .closeSocket 1, .releaseSocket 1,
        .openSocket (some 4), .releaseSocket 0] :=
  (alwaysOwned_iff_noTheft _ _ (by decide)).mpr (by decide)

/-- A descriptor number is given out again between the `CloseSocket` and the `ReleaseSocket` of its
old handle, which closes it for the new one. -/
theorem not_alwaysOwned_recycled :
    AllowedRun (trackedStart fun _ => false : Tracked Unit ℕ)
        [.openSocket (some 3), .closeSocket 0, .openSocket (some 3), .releaseSocket 0] ∧
      ¬ AlwaysOwned (trackedStart fun _ => false : Tracked Unit ℕ)
        [.openSocket (some 3), .closeSocket 0, .openSocket (some 3), .releaseSocket 0] := by
  refine ⟨by decide, ?_⟩
  rw [alwaysOwned_iff_of_owned (owned_trackedStart _) (by decide)]
  decide

end Kendylib.Pool
