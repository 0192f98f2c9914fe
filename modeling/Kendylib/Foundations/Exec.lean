import Mathlib.Tactic.Ring

/-!
# Execution with faults

The C functions are modelled as functions into `Exec`: they return a value, or they fault. A fault
stands for what the C standard leaves undefined or for a failed `assert`, so a run that returns is
one in which neither happened. Loops without a structural bound carry a `fuel`, the number of
rounds they may still take; a loop that has none left faults with `Fault.fuel`.
-/

namespace Kendylib

/-- What can go wrong in a run. -/
inductive Fault
  /-- A null pointer is dereferenced. -/
  | nullPointer
  /-- An access outside the memory block it is made in. -/
  | outOfBounds
  /-- An access to a block that has been freed. -/
  | freed
  /-- A failed `assert`. -/
  | assertion
  /-- A division by zero. -/
  | divideByZero
  /-- The rounds allowed to a loop are used up. -/
  | fuel
  deriving DecidableEq, Repr

/-- The result of a call: a value or a fault. -/
abbrev Exec := Except Fault

namespace Exec

variable {α β : Type}

@[simp] theorem ok_bind (a : α) (f : α → Exec β) : ((.ok a : Exec α) >>= f) = f a := rfl

@[simp] theorem error_bind (e : Fault) (f : α → Exec β) :
    ((.error e : Exec α) >>= f) = .error e := rfl

@[simp] theorem pure_eq (a : α) : (pure a : Exec α) = .ok a := rfl

theorem bind_eq_ok {x : Exec α} {f : α → Exec β} {b : β} :
    (x >>= f) = .ok b ↔ ∃ a, x = .ok a ∧ f a = .ok b := by
  cases x <;> simp

theorem exists_ok {x : Exec α} (h : x.toBool = true) : ∃ a, x = .ok a := by
  cases x with
  | ok a => exact ⟨a, rfl⟩
  | error f => cases h

/-- The value of a pointer that the code dereferences. -/
def deref : Option α → Exec α
  | some a => .ok a
  | none => .error .nullPointer

@[simp] theorem deref_some (a : α) : deref (some a) = .ok a := rfl

@[simp] theorem deref_none : deref (none : Option α) = .error .nullPointer := rfl

theorem deref_eq_ok {o : Option α} {a : α} : deref o = .ok a ↔ o = some a := by
  cases o <;> simp

/-! ## What a call ensures -/

/-- The value the call returns satisfies `Q`; it accesses a freed block only in the case `lost`, and
may fault otherwise. -/
def EnsuresUnless (x : Exec α) (lost : Prop) (Q : α → Prop) : Prop :=
  match x with
  | .ok a => Q a
  | .error f => f = .freed → lost

/-- The call accesses no freed block, and the value it returns satisfies `Q`. -/
abbrev Ensures (x : Exec α) (Q : α → Prop) : Prop := EnsuresUnless x False Q

variable {x : Exec α} {lost : Prop} {P Q : α → Prop}

theorem ensures_error {f : Fault} (h : f ≠ .freed) : EnsuresUnless (.error f) lost Q :=
  fun hf => absurd hf h

theorem EnsuresUnless.of_eq {a : α} (hx : x = .ok a) (h : Q a) : x.EnsuresUnless lost Q := hx ▸ h

theorem EnsuresUnless.mono (hx : x.EnsuresUnless lost P) (h : ∀ a, P a → Q a) :
    x.EnsuresUnless lost Q := by
  cases x with
  | ok a => exact h a hx
  | error f => exact hx

theorem EnsuresUnless.imp {lost' : Prop} (hx : x.EnsuresUnless lost P) (h : lost → lost') :
    x.EnsuresUnless lost' P := by
  cases x with
  | ok a => exact hx
  | error f => exact fun hf => h (hx hf)

theorem EnsuresUnless.unless (hx : x.Ensures P) : x.EnsuresUnless lost P := hx.imp False.elim

theorem EnsuresUnless.bind {f : α → Exec β} {R : β → Prop} (hx : x.EnsuresUnless lost P)
    (hf : ∀ a, P a → (f a).EnsuresUnless lost R) : (x >>= f).EnsuresUnless lost R := by
  cases x with
  | ok a => exact hf a hx
  | error f => exact hx

theorem ensures_deref {o : Option α} (h : ∀ a, o = some a → Q a) :
    (deref o).EnsuresUnless lost Q := by
  cases o with
  | none => exact ensures_error nofun
  | some a => exact h a rfl

/-! ## Two calls side by side -/

/-- Both calls return, with values that are related, or both fault in the same way. -/
def Both (R : α → β → Prop) : Exec α → Exec β → Prop
  | .ok a, .ok b => R a b
  | .error f, .error g => f = g
  | _, _ => False

theorem Both.bind {γ δ : Type} {R : α → β → Prop} {T : γ → δ → Prop} {x : Exec α} {y : Exec β}
    {f : α → Exec γ} {g : β → Exec δ} (h : Both R x y) (hfg : ∀ a b, R a b → Both T (f a) (g b)) :
    Both T (x >>= f) (y >>= g) := by
  cases x with
  | ok a =>
    cases y with
    | ok b => exact hfg a b h
    | error e => exact h.elim
  | error e =>
    cases y with
    | ok b => exact h.elim
    | error e' => exact h

theorem Both.mono {R T : α → β → Prop} {x : Exec α} {y : Exec β} (h : Both R x y)
    (hRT : ∀ a b, R a b → T a b) : Both T x y := by
  cases x with
  | ok a =>
    cases y with
    | ok b => exact hRT a b h
    | error e => exact h.elim
  | error e =>
    cases y with
    | ok b => exact h.elim
    | error e' => exact h

/-- The values related are those that the calls return. -/
theorem Both.with_ok {R : α → β → Prop} {x : Exec α} {y : Exec β} (h : Both R x y) :
    Both (fun a b => x = .ok a ∧ y = .ok b ∧ R a b) x y := by
  cases x with
  | ok a =>
    cases y with
    | ok b => exact ⟨rfl, rfl, h⟩
    | error e => exact h.elim
  | error e =>
    cases y with
    | ok b => exact h.elim
    | error e' => exact h

/-- The first call is known to return. -/
theorem Both.of_ok {R : α → β → Prop} {x : Exec α} {y : Exec β} {a : α} (h : Both R x y)
    (hx : x = .ok a) : ∃ b, y = .ok b ∧ R a b := by
  subst hx
  cases y with
  | ok b => exact ⟨b, rfl, h⟩
  | error e => exact h.elim

/-- Both runs go on from the same call. -/
theorem Both.of_bind {γ δ : Type} {T : γ → δ → Prop} (x : Exec α) {f : α → Exec γ}
    {g : α → Exec δ} (hfg : ∀ a, x = .ok a → Both T (f a) (g a)) : Both T (x >>= f) (x >>= g) := by
  cases x with
  | ok a => exact hfg a rfl
  | error e => exact rfl

theorem Both.ite {R : α → β → Prop} {c d : Prop} [Decidable c] [Decidable d] {x₁ x₂ : Exec α}
    {y₁ y₂ : Exec β} (hcd : c ↔ d) (h₁ : c → Both R x₁ y₁) (h₂ : ¬ c → Both R x₂ y₂) :
    Both R (if c then x₁ else x₂) (if d then y₁ else y₂) := by
  by_cases hc : c
  · rw [if_pos hc, if_pos (hcd.mp hc)]
    exact h₁ hc
  · rw [if_neg hc, if_neg (mt hcd.mpr hc)]
    exact h₂ hc

/-- A call whose result does not depend on the memory. -/
theorem both_refl (x : Exec α) : Both Eq x x := by
  cases x with
  | ok a => exact rfl
  | error f => exact rfl

end Exec

end Kendylib
