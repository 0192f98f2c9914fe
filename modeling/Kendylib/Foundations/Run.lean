import Kendylib.Foundations.Exec

/-!
# Runs

A run is a sequence of operations from a state on; it ends with the first one that faults. A
property holds always in a run if it holds in every state the run comes to, and a condition is met
at each step if it is met by every operation that returns, in the state it starts from.

An invariant is carried through a run by `always_of_invariant`. Where the condition is exactly what
keeps the property, `always_iff_eachStep` and `safe_iff_beforeEach` carry both directions.
-/

namespace Kendylib.Exec

variable {σ ι : Type} (step : σ → ι → Exec σ)

/-- The property holds in every state of a run. -/
def Always (P : σ → Prop) : σ → List ι → Prop
  | s, [] => P s
  | s, op :: ops => P s ∧ match step s op with
    | .ok s' => Always P s' ops
    | .error _ => True

/-- The run ends without a fault, or with one that is allowed. -/
def FaultsOnly (F : σ → ι → Fault → Prop) : σ → List ι → Prop
  | _, [] => True
  | s, op :: ops => match step s op with
    | .ok s' => FaultsOnly F s' ops
    | .error f => F s op f

/-- Every step of a run that returns meets the condition. -/
def EachStep (C : σ → ι → Prop) : σ → List ι → Prop
  | _, [] => True
  | s, op :: ops => match step s op with
    | .ok s' => C s op ∧ EachStep C s' ops
    | .error _ => True

/-- Every operation of a run meets the condition, whether it returns or not. -/
def BeforeEach (C : σ → ι → Prop) : σ → List ι → Prop
  | _, [] => True
  | s, op :: ops => C s op ∧ match step s op with
    | .ok s' => BeforeEach C s' ops
    | .error _ => True

instance decidableAlways {P : σ → Prop} [DecidablePred P] :
    (s : σ) → (ops : List ι) → Decidable (Always step P s ops)
  | s, [] => inferInstanceAs (Decidable (P s))
  | s, op :: ops =>
    show Decidable (P s ∧ match step s op with
      | .ok s' => Always step P s' ops
      | .error _ => True) from
    @instDecidableAnd _ _ _ (match step s op with
      | .ok s' => decidableAlways s' ops
      | .error _ => isTrue trivial)

instance decidableEachStep {C : σ → ι → Prop} [∀ s op, Decidable (C s op)] :
    (s : σ) → (ops : List ι) → Decidable (EachStep step C s ops)
  | _, [] => isTrue trivial
  | s, op :: ops =>
    show Decidable (match step s op with
      | .ok s' => C s op ∧ EachStep step C s' ops
      | .error _ => True) from
    match step s op with
    | .ok s' => @instDecidableAnd _ _ _ (decidableEachStep s' ops)
    | .error _ => isTrue trivial

instance decidableBeforeEach {C : σ → ι → Prop} [∀ s op, Decidable (C s op)] :
    (s : σ) → (ops : List ι) → Decidable (BeforeEach step C s ops)
  | _, [] => isTrue trivial
  | s, op :: ops =>
    show Decidable (C s op ∧ match step s op with
      | .ok s' => BeforeEach step C s' ops
      | .error _ => True) from
    @instDecidableAnd _ _ _ (match step s op with
      | .ok s' => decidableBeforeEach s' ops
      | .error _ => isTrue trivial)

variable {step} {P I : σ → Prop} {A C : σ → ι → Prop} {s : σ} {ops : List ι}

theorem Always.head (h : Always step P s ops) : P s := by
  cases ops with
  | nil => exact h
  | cons op ops => exact h.1

theorem Always.tail {op : ι} {s' : σ} (h : Always step P s (op :: ops)) (hs : step s op = .ok s') :
    Always step P s' ops := by
  rw [Always, hs] at h
  exact h.2

theorem eachStep_of_forall (h : ∀ op ∈ ops, ∀ s, C s op) : EachStep step C s ops := by
  induction ops generalizing s with
  | nil => trivial
  | cons op ops ih =>
    rw [EachStep]
    cases step s op with
    | error f => trivial
    | ok s' =>
      exact ⟨h op List.mem_cons_self s, ih fun op' h' => h op' (List.mem_cons_of_mem op h')⟩

theorem EachStep.cons {op : ι} {s' : σ} (h : step s op = .ok s') (hc : C s op)
    (hrest : EachStep step C s' ops) : EachStep step C s (op :: ops) := by
  rw [EachStep, h]
  exact ⟨hc, hrest⟩

theorem EachStep.last {op : ι} (hc : C s op) : EachStep step C s [op] := by
  rw [EachStep]
  cases step s op with
  | error f => trivial
  | ok s' => exact ⟨hc, trivial⟩

theorem EachStep.and {D : σ → ι → Prop} (h : EachStep step C s ops) (h' : EachStep step D s ops) :
    EachStep step (fun s op => C s op ∧ D s op) s ops := by
  induction ops generalizing s with
  | nil => trivial
  | cons op ops ih =>
    rw [EachStep] at h h' ⊢
    cases hs : step s op with
    | error f => trivial
    | ok s' =>
      rw [hs] at h h'
      exact ⟨⟨h.1, h'.1⟩, ih h.2 h'.2⟩

theorem BeforeEach.cons {op : ι} {s' : σ} (hc : C s op) (h : step s op = .ok s')
    (hrest : BeforeEach step C s' ops) : BeforeEach step C s (op :: ops) := by
  rw [BeforeEach, h]
  exact ⟨hc, hrest⟩

/-- An invariant that every allowed step keeps holds always. -/
theorem always_of_invariant (hP : ∀ s, I s → P s)
    (hstep : ∀ s op s', I s → C s op → step s op = .ok s' → I s') (hI : I s)
    (hC : EachStep step C s ops) : Always step P s ops := by
  induction ops generalizing s with
  | nil => exact hP s hI
  | cons op ops ih =>
    refine ⟨hP s hI, ?_⟩
    rw [EachStep] at hC
    cases h : step s op with
    | error f => trivial
    | ok s' =>
      rw [h] at hC
      exact ih (hstep s op s' hI hC.1 h) hC.2

/-- An invariant of steps that access freed blocks in the case `lost` only. -/
theorem always_of_ensures {lost : σ → ι → Prop} (hP : ∀ s, I s → P s)
    (hstep : ∀ s op, I s → (step s op).EnsuresUnless (lost s op) I) (hI : I s) (ops : List ι) :
    Always step P s ops ∧ FaultsOnly step (fun s op f => f = .freed → lost s op) s ops := by
  induction ops generalizing s with
  | nil => exact ⟨hP s hI, trivial⟩
  | cons op ops ih =>
    have hop := hstep s op hI
    rw [Always, FaultsOnly]
    cases h : step s op with
    | error f =>
      rw [h] at hop
      exact ⟨⟨hP s hI, trivial⟩, hop⟩
    | ok s' =>
      rw [h] at hop
      obtain ⟨halways, hfaults⟩ := ih hop
      exact ⟨⟨hP s hI, halways⟩, hfaults⟩

/-- An invariant of operations that, where they meet the condition, return or fault as is allowed.
-/
theorem safe_of_beforeEach {F : σ → ι → Fault → Prop} (hP : ∀ s, I s → P s)
    (hstep : ∀ s op, I s → C s op → match step s op with
      | .ok s' => I s'
      | .error f => F s op f) (hI : I s)
    (hC : BeforeEach step C s ops) : Always step P s ops ∧ FaultsOnly step F s ops := by
  induction ops generalizing s with
  | nil => exact ⟨hP s hI, trivial⟩
  | cons op ops ih =>
    have hop := hstep s op hI hC.1
    have hrest := hC.2
    rw [Always, FaultsOnly]
    cases h : step s op with
    | error f =>
      rw [h] at hop
      exact ⟨⟨hP s hI, trivial⟩, hop⟩
    | ok s' =>
      rw [h] at hop hrest
      obtain ⟨halways, hfaults⟩ := ih hop hrest
      exact ⟨⟨hP s hI, halways⟩, hfaults⟩

/-- An invariant of operations that return whenever they meet the condition. -/
theorem always_of_beforeEach {F : σ → ι → Fault → Prop} (hP : ∀ s, I s → P s)
    (hstep : ∀ s op, I s → C s op → ∃ s', step s op = .ok s' ∧ I s') (hI : I s)
    (hC : BeforeEach step C s ops) : Always step P s ops ∧ FaultsOnly step F s ops := by
  refine safe_of_beforeEach hP (fun s op hI hc => ?_) hI hC
  obtain ⟨s', h, hI'⟩ := hstep s op hI hc
  rw [h]
  exact hI'

/-- The property holds always exactly if each step meets the condition, where a step that meets it
keeps the invariant and one that does not loses the property. -/
theorem always_iff_eachStep (hP : ∀ s, I s → P s)
    (hgood : ∀ s op s', I s → A s op → step s op = .ok s' → C s op → I s')
    (hbad : ∀ s op s', I s → A s op → step s op = .ok s' → ¬ C s op → ¬ P s') (hI : I s)
    (hA : EachStep step A s ops) : Always step P s ops ↔ EachStep step C s ops := by
  induction ops generalizing s with
  | nil => exact iff_of_true (hP s hI) trivial
  | cons op ops ih =>
    rw [EachStep] at hA
    rw [Always, EachStep]
    cases h : step s op with
    | error f => exact iff_of_true ⟨hP s hI, trivial⟩ trivial
    | ok s' =>
      rw [h] at hA
      by_cases hc : C s op
      · have hrest := ih (hgood s op s' hI hA.1 h hc) hA.2
        exact ⟨fun ha => ⟨hc, hrest.mp ha.2⟩, fun hs => ⟨hP s hI, hrest.mpr hs.2⟩⟩
      · have hlost := hbad s op s' hI hA.1 h hc
        exact ⟨fun ha => absurd ha.2.head hlost, fun hs => absurd hs.1 hc⟩

theorem beforeEach_of_forall (h : ∀ s op, C s op) : BeforeEach step C s ops := by
  induction ops generalizing s with
  | nil => trivial
  | cons op ops ih =>
    refine ⟨h s op, ?_⟩
    cases step s op with
    | error f => trivial
    | ok s' => exact ih

theorem BeforeEach.and {D : σ → ι → Prop} (h : BeforeEach step C s ops)
    (h' : BeforeEach step D s ops) : BeforeEach step (fun s op => C s op ∧ D s op) s ops := by
  induction ops generalizing s with
  | nil => trivial
  | cons op ops ih =>
    obtain ⟨hc, hrest⟩ := h
    obtain ⟨hd, hrest'⟩ := h'
    refine ⟨⟨hc, hd⟩, ?_⟩
    cases hs : step s op with
    | error f => trivial
    | ok s' =>
      rw [hs] at hrest hrest'
      exact ih hrest hrest'

/-- Two conditions that are the same where an invariant holds are met by the same runs. -/
theorem beforeEach_congr {D : σ → ι → Prop} (hstep : ∀ s op s', I s → step s op = .ok s' → I s')
    (hcond : ∀ s op, I s → (C s op ↔ D s op)) (hI : I s) :
    BeforeEach step C s ops ↔ BeforeEach step D s ops := by
  induction ops generalizing s with
  | nil => exact Iff.rfl
  | cons op ops ih =>
    rw [BeforeEach, BeforeEach]
    refine and_congr (hcond s op hI) ?_
    cases hs : step s op with
    | error f => exact Iff.rfl
    | ok s' => exact ih (hstep s op s' hI hs)

/-- A condition that follows from an invariant is met by every run. -/
theorem beforeEach_of_invariant (hstep : ∀ s op s', I s → step s op = .ok s' → I s')
    (hcond : ∀ s op, I s → C s op) (hI : I s) : BeforeEach step C s ops := by
  have hiff : ∀ s op, I s → (C s op ↔ True) := fun s op hs => iff_true_intro (hcond s op hs)
  exact (beforeEach_congr hstep hiff hI).mpr (beforeEach_of_forall fun _ _ => trivial)

/-- Without the faults of the operations that do not meet the condition, all meet it. -/
theorem beforeEach_of_faultsOnly {F : σ → ι → Fault → Prop}
    (hbad : ∀ s op, ¬ C s op → ∃ f, step s op = .error f ∧ ¬ F s op f)
    (h : FaultsOnly step F s ops) : BeforeEach step C s ops := by
  induction ops generalizing s with
  | nil => trivial
  | cons op ops ih =>
    rw [FaultsOnly] at h
    have hc : C s op := by
      by_contra hc
      obtain ⟨f, hf, hno⟩ := hbad s op hc
      rw [hf] at h
      exact hno h
    refine ⟨hc, ?_⟩
    cases hs : step s op with
    | error f => trivial
    | ok s' =>
      rw [hs] at h
      exact ih h

/-- The same where a step that does not meet the condition may also end the run with a fault that is
not allowed. All operations of the run are admitted by `A`. -/
theorem safe_iff_beforeEach_of {F : σ → ι → Fault → Prop} (hP : ∀ s, I s → P s)
    (hgood : ∀ s op, I s → A s op → C s op → match step s op with
      | .ok s' => I s'
      | .error f => F s op f)
    (hbad : ∀ s op, I s → A s op → ¬ C s op → match step s op with
      | .ok s' => ¬ P s'
      | .error f => ¬ F s op f) (hI : I s) (hA : BeforeEach step A s ops) :
    Always step P s ops ∧ FaultsOnly step F s ops ↔ BeforeEach step C s ops := by
  induction ops generalizing s with
  | nil => exact iff_of_true ⟨hP s hI, trivial⟩ trivial
  | cons op ops ih =>
    have hgood := hgood s op hI hA.1
    have hbad := hbad s op hI hA.1
    have hrest := hA.2
    rw [Always, FaultsOnly, BeforeEach]
    cases h : step s op with
    | error f =>
      rw [h] at hgood hbad
      refine ⟨fun hs => ⟨?_, trivial⟩, fun hc => ⟨⟨hP s hI, trivial⟩, hgood hc.1⟩⟩
      by_contra hc
      exact hbad hc hs.2
    | ok s' =>
      rw [h] at hgood hbad hrest
      constructor
      · rintro ⟨⟨-, halways⟩, hfaults⟩
        have hc : C s op := by
          by_contra hc
          exact hbad hc halways.head
        exact ⟨hc, (ih (hgood hc) hrest).mp ⟨halways, hfaults⟩⟩
      · rintro ⟨hc, hmeets⟩
        obtain ⟨halways, hfaults⟩ := (ih (hgood hc) hrest).mpr hmeets
        exact ⟨⟨hP s hI, halways⟩, hfaults⟩

/-- The same where every operation is admitted. -/
theorem safe_iff_beforeEach {F : σ → ι → Fault → Prop} (hP : ∀ s, I s → P s)
    (hgood : ∀ s op, I s → C s op → match step s op with
      | .ok s' => I s'
      | .error f => F s op f)
    (hbad : ∀ s op, I s → ¬ C s op → match step s op with
      | .ok s' => ¬ P s'
      | .error f => ¬ F s op f) (hI : I s) :
    Always step P s ops ∧ FaultsOnly step F s ops ↔ BeforeEach step C s ops :=
  safe_iff_beforeEach_of (A := fun _ _ => True) hP (fun s op hI _ => hgood s op hI)
    (fun s op hI _ => hbad s op hI) hI (beforeEach_of_forall fun _ _ => trivial)

end Kendylib.Exec
