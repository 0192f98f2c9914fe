import Mathlib.Data.List.Basic
import Mathlib.Data.Int.Basic

/-!
# Exceptions

The macros `TRY`, `CATCH`, `CATCH_ALL`, `ENDTRY` and `THROW` of `except.h`, with `exception_throw` of
`except.c`, for programs that are built from them, sequencing and function calls. `setjmp` and
`longjmp` behave as the C standard says: a `longjmp` to the frame of a `TRY` ends everything between
the two, and its `setjmp` returns once more.

A run keeps a log. It says of every `ENDTRY` that is left normally what `exception_stack` is there
and was before the `TRY`, and of every exception thrown where it goes and which bodies of `TRY`
blocks are executing.

`exception_throw` takes the frame it jumps to off the stack, and `ENDTRY` takes one off if the
exception has been caught. Each block that catches an exception thus takes off two frames, of which
the second is that of the block around it. The stack is balanced exactly as long as no block catches
an exception inside the body of another one (`balanced_iff_outermost`). Frames are only ever missing
from it: no exception goes to a block that has ended (`run_not_jump`).
-/

namespace Kendylib.Exceptions

/-- A program. The handler of `CATCH(e)` is a pair `(some e, p)`, that of `CATCH_ALL` is
`(none, p)`. -/
inductive Prog
  | skip
  | seq (p q : Prog)
  | call (f : ℕ)
  | throw (code : ℤ) (nonzero : code ≠ 0)
  | tryBlock (body : Prog) (handlers : List (Option ℤ × Prog))

/-- What the log says. -/
inductive Event
  /-- An `ENDTRY` is left normally, with `exception_stack` from `before` its `TRY` and `after` it. -/
  | left (before after : List ℕ)
  /-- `exception_throw` inside these bodies jumps to a frame, or reports an unsolved exception. -/
  | thrown (enclosing : List ℕ) (target : Option ℕ)
  /-- A handler inside these bodies has been executed to its end. -/
  | caught (enclosing : List ℕ)
  deriving DecidableEq

/-- `exceptionStack` are the frames from `exception_stack` on, along `pre`; every frame is a number. -/
structure State where
  exceptionStack : List ℕ
  frames : ℕ
  log : List Event

/-- How a piece of a program ends: normally, by a `longjmp` to a frame, or not within its fuel. -/
inductive Outcome
  | normal
  | jump (frame : ℕ) (code : ℤ)
  | fuel

def State.record (s : State) (e : Event) : State := { s with log := s.log ++ [e] }

/-- `exception_throw`. It returns if there is no frame. -/
def exceptionThrow (enclosing : List ℕ) (code : ℤ) (s : State) : Outcome × State :=
  match s.exceptionStack with
  | frame :: pre =>
    (.jump frame code, { s with exceptionStack := pre }.record (.thrown enclosing (some frame)))
  | [] => (.normal, s.record (.thrown enclosing none))

/-- `ENDTRY`, with the value of `frame.exception`. -/
def endTry (enclosing before : List ℕ) (exception : ℤ) (s : State) : Outcome × State :=
  if exception ≠ 0 then exceptionThrow enclosing exception s
  else (.normal, { s with exceptionStack := s.exceptionStack.tail }.record
    (.left before s.exceptionStack.tail))

/-- The first handler that a non-zero `frame.exception` selects. -/
def handler (handlers : List (Option ℤ × Prog)) (exception : ℤ) : Option Prog :=
  (handlers.find? fun x => x.1.all (· == exception)).map Prod.snd

/-- What follows the body of a block: a `longjmp` to its frame goes on with the handlers, which are
executed by `handle`. -/
def endBlock (handle : Prog → State → Outcome × State) (enclosing before : List ℕ) (frame : ℕ)
    (handlers : List (Option ℤ × Prog)) : Outcome × State → Outcome × State
  | (.normal, s) => endTry enclosing before 0 s
  | (.jump target code, s) =>
    if target = frame then
      match handler handlers code with
      | some p =>
        match handle p s with
        | (.normal, s) => endTry enclosing before 0 (s.record (.caught enclosing))
        | r => r
      | none => endTry enclosing before code s
    else (.jump target code, s)
  | (.fuel, s) => (.fuel, s)

/-- Execute a program inside the bodies `enclosing`, where `env` are the functions. -/
def exec (env : ℕ → Prog) : ℕ → List ℕ → Prog → State → Outcome × State
  | 0, _, _, s => (.fuel, s)
  | _ + 1, _, .skip, s => (.normal, s)
  | fuel + 1, enclosing, .seq p q, s =>
    match exec env fuel enclosing p s with
    | (.normal, s) => exec env fuel enclosing q s
    | r => r
  | fuel + 1, enclosing, .call f, s => exec env fuel enclosing (env f) s
  | _ + 1, enclosing, .throw code _, s => exceptionThrow enclosing code s
  | fuel + 1, enclosing, .tryBlock body handlers, s =>
    let frame := s.frames
    endBlock (exec env fuel enclosing) enclosing s.exceptionStack frame handlers
      (exec env fuel (frame :: enclosing) body
        { s with exceptionStack := frame :: s.exceptionStack, frames := frame + 1 })

/-- The run of a program, from an empty stack on. -/
def run (env : ℕ → Prog) (fuel : ℕ) (p : Prog) : Outcome × State := exec env fuel [] p ⟨[], 0, []⟩

/-! ## What the log should say -/

/-- An `ENDTRY` leaves the stack as it was before its `TRY`, and an exception goes to the innermost
body that is executing. -/
def Event.Balanced : Event → Prop
  | .left before after => after = before
  | .thrown enclosing target => target = enclosing.head?
  | .caught _ => True

/-- No handler ends inside the body of another block. -/
def Event.Outermost : Event → Prop
  | .caught enclosing => enclosing = []
  | _ => True

instance : DecidablePred Event.Balanced
  | .left before after => inferInstanceAs (Decidable (after = before))
  | .thrown enclosing target => inferInstanceAs (Decidable (target = enclosing.head?))
  | .caught _ => isTrue trivial

def Balanced (log : List Event) : Prop := ∀ e ∈ log, e.Balanced

def Outermost (log : List Event) : Prop := ∀ e ∈ log, e.Outermost

instance (log : List Event) : Decidable (Balanced log) := inferInstanceAs (Decidable (∀ e ∈ log, _))

variable {handle : Prog → State → Outcome × State} {handlers : List (Option ℤ × Prog)} {frame : ℕ}
  {enclosing before : List ℕ} {code : ℤ} {s : State} {r : Outcome × State} {e : Event}
  {log log' : List Event}

theorem balanced_append : Balanced (log ++ log') ↔ Balanced log ∧ Balanced log' :=
  List.forall_mem_append

theorem outermost_append : Outermost (log ++ log') ↔ Outermost log ∧ Outermost log' :=
  List.forall_mem_append

theorem balanced_record : Balanced (s.record e).log ↔ Balanced s.log ∧ e.Balanced := by
  rw [State.record, balanced_append]
  simp [Balanced]

theorem outermost_record : Outermost (s.record e).log ↔ Outermost s.log ∧ e.Outermost := by
  rw [State.record, outermost_append]
  simp [Outermost]

/-! ## The log only grows -/

/-- The log of `s` with something added. -/
def Extends (s s' : State) : Prop := ∃ log, s'.log = s.log ++ log

theorem Extends.refl (s : State) : Extends s s := ⟨[], (List.append_nil _).symm⟩

theorem Extends.trans {s₁ s₂ s₃ : State} (h₁₂ : Extends s₁ s₂) (h₂₃ : Extends s₂ s₃) : Extends s₁ s₃ := by
  obtain ⟨log, h⟩ := h₁₂
  obtain ⟨log', h'⟩ := h₂₃
  exact ⟨log ++ log', by rw [h', h, List.append_assoc]⟩

theorem exceptionThrow_extends : Extends s (exceptionThrow enclosing code s).2 := by
  unfold exceptionThrow
  split
  · exact ⟨_, rfl⟩
  · exact ⟨_, rfl⟩

theorem endTry_extends : Extends s (endTry enclosing before code s).2 := by
  unfold endTry
  split
  · exact exceptionThrow_extends
  · exact ⟨_, rfl⟩

theorem endBlock_extends (hhandle : ∀ p s, Extends s (handle p s).2) :
    Extends r.2 (endBlock handle enclosing before frame handlers r).2 := by
  unfold endBlock
  split
  · exact endTry_extends
  · rename_i target code s
    split
    · split
      · rename_i p _
        have hp := hhandle p s
        split
        · rename_i s' h
          rw [h] at hp
          exact hp.trans (Extends.trans ⟨_, rfl⟩ endTry_extends)
        · exact hp
      · exact endTry_extends
    · exact .refl s
  · exact .refl _

/-- Execution adds to the log. -/
theorem exec_extends (env : ℕ → Prog) (fuel : ℕ) (enclosing : List ℕ) (p : Prog) (s : State) :
    Extends s (exec env fuel enclosing p s).2 := by
  induction fuel generalizing enclosing p s with
  | zero => exact .refl s
  | succ fuel ih =>
    cases p with
    | skip => exact .refl s
    | seq p q =>
      have hp := ih enclosing p s
      rw [exec]
      split
      · rename_i s₁ h
        rw [h] at hp
        exact hp.trans (ih enclosing q s₁)
      · exact hp
    | call f => exact ih enclosing (env f) s
    | throw code h => exact exceptionThrow_extends
    | tryBlock body handlers =>
      have hbody := ih (s.frames :: enclosing) body
        { s with exceptionStack := s.frames :: s.exceptionStack, frames := s.frames + 1 }
      exact hbody.trans (endBlock_extends (ih enclosing))

/-! ## Balance -/

/-- How a piece of a program ends that starts with the frames `enclosing` on the stack. -/
def Ends (enclosing : List ℕ) : Outcome × State → Prop
  | (.normal, s) => s.exceptionStack = enclosing
  | (.jump frame code, s) => code ≠ 0 ∧ enclosing = frame :: s.exceptionStack
  | (.fuel, _) => True

/-- All is well, and the stack is what it should be; or the log shows both a fault and its cause. -/
def Checked (enclosing : List ℕ) (r : Outcome × State) : Prop :=
  Balanced r.2.log ∧ Outermost r.2.log ∧ Ends enclosing r ∨ ¬ Balanced r.2.log ∧ ¬ Outermost r.2.log

/-- What has gone wrong stays wrong. -/
theorem Checked.of_extends (hbad : ¬ Balanced s.log ∧ ¬ Outermost s.log) (h : Extends s r.2) :
    Checked enclosing r := by
  obtain ⟨log, hlog⟩ := h
  rw [Checked, hlog, balanced_append, outermost_append]
  exact .inr ⟨fun h => hbad.1 h.1, fun h => hbad.2 h.1⟩

/-- **`exception_throw`** goes to the innermost body. -/
theorem exceptionThrow_checked (hs : s.exceptionStack = enclosing) (hb : Balanced s.log)
    (ho : Outermost s.log) (hcode : code ≠ 0) : Checked enclosing (exceptionThrow enclosing code s) := by
  subst hs
  refine .inl ?_
  unfold exceptionThrow
  split
  · rename_i frame pre h
    exact ⟨balanced_record.mpr ⟨hb, by rw [Event.Balanced, h]; rfl⟩,
      outermost_record.mpr ⟨ho, trivial⟩, hcode, h⟩
  · rename_i h
    exact ⟨balanced_record.mpr ⟨hb, by rw [Event.Balanced, h]; rfl⟩,
      outermost_record.mpr ⟨ho, trivial⟩, rfl⟩

/-- **`ENDTRY` behind a body** that has been executed to its end. -/
theorem endTry_checked (hs : s.exceptionStack = frame :: enclosing) (hb : Balanced s.log)
    (ho : Outermost s.log) : Checked enclosing (endTry enclosing enclosing 0 s) := by
  rw [endTry, if_neg (not_not.mpr rfl), hs]
  exact .inl ⟨balanced_record.mpr ⟨hb, rfl⟩, outermost_record.mpr ⟨ho, trivial⟩, rfl⟩

/-- **`ENDTRY` behind a handler** takes the frame of the block around it off the stack. -/
theorem endTry_caught (hs : s.exceptionStack = enclosing) (hb : Balanced s.log) (ho : Outermost s.log) :
    Checked enclosing (endTry enclosing enclosing 0 (s.record (.caught enclosing))) := by
  have htop : (s.record (.caught enclosing)).exceptionStack = enclosing := hs
  rw [endTry, if_neg (not_not.mpr rfl), htop]
  cases enclosing with
  | nil =>
    exact .inl ⟨balanced_record.mpr ⟨balanced_record.mpr ⟨hb, trivial⟩, rfl⟩,
      outermost_record.mpr ⟨outermost_record.mpr ⟨ho, rfl⟩, trivial⟩, rfl⟩
  | cons frame rest =>
    refine .inr ⟨fun h => ?_, fun h => ?_⟩
    · have hleft : rest = frame :: rest := (balanced_record.mp h).2
      simp at hleft
    · have hcaught : frame :: rest = [] := (outermost_record.mp (outermost_record.mp h).1).2
      cases hcaught

/-- **`ENDTRY` behind an exception that no handler has caught** throws it again. -/
theorem endTry_uncaught (hs : s.exceptionStack = enclosing) (hb : Balanced s.log)
    (ho : Outermost s.log) (hcode : code ≠ 0) : Checked enclosing (endTry enclosing before code s) := by
  rw [endTry, if_pos hcode]
  exact exceptionThrow_checked hs hb ho hcode

/-- **The end of a block**, whichever way its body has ended. -/
theorem endBlock_checked (hhandle : ∀ p s, s.exceptionStack = enclosing → Balanced s.log →
      Outermost s.log → Checked enclosing (handle p s)) (hextends : ∀ p s, Extends s (handle p s).2)
    (hr : Checked (frame :: enclosing) r) :
    Checked enclosing (endBlock handle enclosing enclosing frame handlers r) := by
  obtain ⟨hb, ho, hends⟩ | hbad := hr
  · unfold endBlock
    split
    · exact endTry_checked hends hb ho
    · -- the exception has reached this block
      rename_i target code s
      obtain ⟨hcode, hstack⟩ := hends
      obtain ⟨htarget, htail⟩ := List.cons.inj hstack
      rw [if_pos htarget.symm]
      split
      · rename_i p _
        have hp := hhandle p s htail.symm hb ho
        split
        · rename_i s' h
          rw [h] at hp
          obtain ⟨hb', ho', hs'⟩ | hbad := hp
          · exact endTry_caught hs' hb' ho'
          · exact .of_extends ⟨fun h => hbad.1 (balanced_record.mp h).1,
              fun h => hbad.2 (outermost_record.mp h).1⟩ endTry_extends
        · exact hp
      · exact endTry_uncaught htail.symm hb ho hcode
    · exact .inl ⟨hb, ho, trivial⟩
  · exact .of_extends hbad (endBlock_extends hextends)

/-- **Every piece of a program** is balanced, or some handler ends inside another body. -/
theorem exec_checked (env : ℕ → Prog) (fuel : ℕ) (enclosing : List ℕ) (p : Prog) (s : State)
    (hs : s.exceptionStack = enclosing) (hb : Balanced s.log) (ho : Outermost s.log) :
    Checked enclosing (exec env fuel enclosing p s) := by
  induction fuel generalizing enclosing p s with
  | zero => exact .inl ⟨hb, ho, trivial⟩
  | succ fuel ih =>
    cases p with
    | skip => exact .inl ⟨hb, ho, hs⟩
    | seq p q =>
      have hp := ih enclosing p s hs hb ho
      rw [exec]
      split
      · rename_i s₁ h
        rw [h] at hp
        obtain ⟨hb₁, ho₁, hs₁⟩ | hbad := hp
        · exact ih enclosing q s₁ hs₁ hb₁ ho₁
        · exact .of_extends hbad (exec_extends env fuel enclosing q s₁)
      · exact hp
    | call f => exact ih enclosing (env f) s hs hb ho
    | throw code hcode => exact exceptionThrow_checked hs hb ho hcode
    | tryBlock body handlers =>
      subst hs
      exact endBlock_checked (ih _) (exec_extends env fuel _) (ih _ body _ rfl hb ho)

/-- **The exception stack is balanced, exactly if no block catches an exception inside the body of
another one.** In every run of every program, also one that does not end: every `ENDTRY` that is left
normally leaves `exception_stack` as it was before its `TRY`, and every exception goes to the
innermost body that is executing or is reported if there is none, if and only if no handler is
executed to its end inside a body. -/
theorem balanced_iff_outermost (env : ℕ → Prog) (fuel : ℕ) (p : Prog) :
    Balanced (run env fuel p).2.log ↔ Outermost (run env fuel p).2.log := by
  have hnil : Balanced ([] : List Event) := nofun
  have hnil' : Outermost ([] : List Event) := nofun
  obtain ⟨hb, ho, -⟩ | ⟨hb, ho⟩ := exec_checked env fuel [] p ⟨[], 0, []⟩ rfl hnil hnil'
  · exact iff_of_true hb ho
  · exact iff_of_false hb ho

/-- An exception that is caught inside the body of another block, and one thrown behind it, which is
reported as unsolved although the outer block catches everything. -/
theorem not_balanced_caught_inside :
    ¬ Balanced (run (fun _ => .skip) 5 (.tryBlock
      (.seq (.tryBlock (.throw 1 (by decide)) [(some 1, .skip)]) (.throw 2 (by decide)))
      [(none, .skip)])).2.log := by
  decide

/-! ## Where jumps go -/

/-- The frames on the stack are those of bodies that are executing, though some may be missing; a
jump goes to one of them. -/
def Lives (enclosing : List ℕ) : Outcome × State → Prop
  | (.normal, s) => s.exceptionStack.Sublist enclosing
  | (.jump frame _, s) => (frame :: s.exceptionStack).Sublist enclosing
  | (.fuel, _) => True

theorem exceptionThrow_lives (hs : s.exceptionStack.Sublist enclosing) :
    Lives enclosing (exceptionThrow enclosing code s) := by
  unfold exceptionThrow
  split
  · rename_i frame pre h
    rwa [h] at hs
  · exact hs

theorem endTry_lives (hs : s.exceptionStack.Sublist enclosing) :
    Lives enclosing (endTry enclosing before code s) := by
  unfold endTry
  split
  · exact exceptionThrow_lives hs
  · exact (List.tail_sublist _).trans hs

theorem endBlock_lives (hhandle : ∀ p s, s.exceptionStack.Sublist enclosing → Lives enclosing (handle p s))
    (hr : Lives (frame :: enclosing) r) :
    Lives enclosing (endBlock handle enclosing before frame handlers r) := by
  unfold endBlock
  split
  · rename_i s
    have htail : s.exceptionStack.tail.Sublist enclosing := hr.tail
    rw [endTry, if_neg (not_not.mpr rfl)]
    exact htail
  · rename_i target code s
    have htail : s.exceptionStack.Sublist enclosing := hr.tail
    split
    · split
      · rename_i p _
        have hp := hhandle p s htail
        split
        · rename_i s' h
          rw [h] at hp
          exact endTry_lives hp
        · exact hp
      · exact endTry_lives htail
    · rename_i hne
      exact (List.sublist_cons_iff.mp hr).resolve_right fun ⟨l, hl, _⟩ => hne (List.cons.inj hl).1
  · trivial

theorem exec_lives (env : ℕ → Prog) (fuel : ℕ) (enclosing : List ℕ) (p : Prog) (s : State)
    (hs : s.exceptionStack.Sublist enclosing) : Lives enclosing (exec env fuel enclosing p s) := by
  induction fuel generalizing enclosing p s with
  | zero => trivial
  | succ fuel ih =>
    cases p with
    | skip => exact hs
    | seq p q =>
      have hp := ih enclosing p s hs
      rw [exec]
      split
      · rename_i s₁ h
        rw [h] at hp
        exact ih enclosing q s₁ hp
      · exact hp
    | call f => exact ih enclosing (env f) s hs
    | throw code hcode => exact exceptionThrow_lives hs
    | tryBlock body handlers =>
      exact endBlock_lives (ih enclosing) (ih (s.frames :: enclosing) body _ (hs.cons_cons _))

/-- **No jump goes to a block that has ended**, balanced or not: every exception ends in a block
whose body is executing, so none leaves the program. -/
theorem run_not_jump (env : ℕ → Prog) (fuel : ℕ) (p : Prog) (frame : ℕ) (code : ℤ) :
    (run env fuel p).1 ≠ .jump frame code := by
  intro hjump
  have h := exec_lives env fuel [] p ⟨[], 0, []⟩ (List.Sublist.refl [])
  change Lives [] (run env fuel p) at h
  generalize run env fuel p = r at h hjump
  obtain ⟨o, s⟩ := r
  obtain rfl : o = .jump frame code := hjump
  cases h

end Kendylib.Exceptions
