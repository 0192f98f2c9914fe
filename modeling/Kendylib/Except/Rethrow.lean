import Kendylib.Except.ExceptionStack
import Mathlib.Logic.Function.Basic
import Mathlib.Order.Basic

/-!
# Throwing an exception again

Programs as in the previous module, with `RETHROW` and with what it reads: the fields `exception`,
`file` and `line` of the frame of the block it stands in. `longjmp` makes `setjmp` return the value
it is given, or `1` if that value is `0`.

`CATCH` and `CATCH_ALL` set `frame.exception` to `0` before the handler starts, so that a `RETHROW`
in it throws the code `0`, which arrives as `1`. File and line are kept. The log says of every
`RETHROW` in a handler what it should deliver and what arrives; `rethrow_kept_iff` is the exact
condition for the two to be the same.
-/

namespace Kendylib.Rethrowing

open Exceptions (Outcome)

/-- A place in the source: `__FILE__` and `__LINE__`. -/
structure Site where
  file : String
  line : ℤ
  deriving DecidableEq

/-- A program. The handler of `CATCH(e)` is a pair `(some e, p)`, that of `CATCH_ALL` is
`(none, p)`. -/
inductive Prog
  | skip
  | seq (p q : Prog)
  | call (f : ℕ)
  | throw (code : ℤ) (nonzero : code ≠ 0) (site : Site)
  | rethrow
  | tryBlock (body : Prog) (handlers : List (Option ℤ × Prog))

/-- The fields of a `struct exception_frame`. -/
structure Frame where
  exception : ℤ
  site : Site
  deriving DecidableEq

/-- A `RETHROW` in a handler: the code that the handler has caught and where it was thrown, the
bodies around the handler's block and the frames on the stack, and the frame that it jumps to, as it
is when `setjmp` has returned there. -/
structure Rethrow where
  code : ℤ
  origin : Site
  enclosing : List ℕ
  stack : List ℕ
  received : Option (ℕ × Frame)
  deriving DecidableEq

/-- `exceptionStack` are the frames from `exception_stack` on, along `pre`; every frame is a number.
`origin` records beside each frame where the exception in it was thrown first. -/
structure State where
  exceptionStack : List ℕ
  frames : ℕ
  frame : ℕ → Frame
  origin : ℕ → Site
  log : List Rethrow

/-- What `setjmp` returns after a `longjmp` with this value. -/
def longjmpValue (code : ℤ) : ℤ := if code = 0 then 1 else code

def State.setFrame (s : State) (f : ℕ) (x : Frame) : State :=
  { s with frame := Function.update s.frame f x }

/-- `frame.exception` of one frame is assigned. -/
def State.setException (s : State) (f : ℕ) (code : ℤ) : State :=
  s.setFrame f { s.frame f with exception := code }

/-- `exception_throw`. It returns if there is no frame. -/
def exceptionThrow (code : ℤ) (site origin : Site) (s : State) : Outcome × State :=
  match s.exceptionStack with
  | frame :: pre =>
    (.jump frame code, { s.setFrame frame ⟨code, site⟩ with
      exceptionStack := pre, origin := Function.update s.origin frame origin })
  | [] => (.normal, s)

/-- `exception_throw` with the fields of a frame, as `RETHROW` and `ENDTRY` call it. -/
def throwFrame (frame : ℕ) (s : State) : Outcome × State :=
  exceptionThrow (s.frame frame).exception (s.frame frame).site (s.origin frame) s

/-- `ENDTRY`. -/
def endTry (frame : ℕ) (s : State) : Outcome × State :=
  if (s.frame frame).exception ≠ 0 then throwFrame frame s
  else (.normal, { s with exceptionStack := s.exceptionStack.tail })

/-- `setjmp` returns once more: the frame that a `longjmp` goes to gets the value. -/
def arrive (frame : ℕ) (code : ℤ) (s : State) : State := s.setException frame (longjmpValue code)

/-- The first handler that a non-zero `frame.exception` selects. -/
def handler (handlers : List (Option ℤ × Prog)) (exception : ℤ) : Option Prog :=
  (handlers.find? fun x => x.1.all (· == exception)).map Prod.snd

/-- The block that a piece of a program stands in directly, if it stands in one within its function:
its frame, and the code that has been caught if the piece stands in a handler. -/
structure Around where
  frame : ℕ
  caught : Option ℤ

/-- `RETHROW`, which the log shows if it stands in a handler. -/
def rethrow (enclosing : List ℕ) (a : Around) (s : State) : Outcome × State :=
  let r := throwFrame a.frame s
  match a.caught with
  | none => r
  | some code =>
    let received := s.exceptionStack.head?.map fun f =>
      (f, (arrive f (s.frame a.frame).exception r.2).frame f)
    (r.1, { r.2 with log :=
      r.2.log ++ [⟨code, s.origin a.frame, enclosing, s.exceptionStack, received⟩] })

/-- What follows the body of a block: a `longjmp` to its frame goes on with the handlers, which are
executed by `handle`. -/
def endBlock (handle : Around → Prog → State → Outcome × State) (frame : ℕ)
    (handlers : List (Option ℤ × Prog)) : Outcome × State → Outcome × State
  | (.normal, s) => endTry frame s
  | (.jump target code, s) =>
    if target = frame then
      let s := arrive frame code s
      let exception := (s.frame frame).exception
      match handler handlers exception with
      | some p =>
        match handle ⟨frame, some exception⟩ p (s.setException frame 0) with
        | (.normal, s) => endTry frame s
        | r => r
      | none => endTry frame s
    else (.jump target code, s)
  | (.fuel, s) => (.fuel, s)

/-- Execute a program inside the bodies `enclosing`, where `env` are the functions. A `RETHROW` that
stands in no block does not compile. -/
def exec (env : ℕ → Prog) : ℕ → List ℕ → Option Around → Prog → State → Outcome × State
  | 0, _, _, _, s => (.fuel, s)
  | _ + 1, _, _, .skip, s => (.normal, s)
  | fuel + 1, enclosing, around, .seq p q, s =>
    match exec env fuel enclosing around p s with
    | (.normal, s) => exec env fuel enclosing around q s
    | r => r
  | fuel + 1, enclosing, _, .call f, s => exec env fuel enclosing none (env f) s
  | _ + 1, _, _, .throw code _ site, s => exceptionThrow code site site s
  | _ + 1, enclosing, around, .rethrow, s =>
    match around with
    | some a => rethrow enclosing a s
    | none => (.normal, s)
  | fuel + 1, enclosing, _, .tryBlock body handlers, s =>
    let frame := s.frames
    let s := { s with exceptionStack := frame :: s.exceptionStack, frames := frame + 1 }
    endBlock (fun a => exec env fuel enclosing (some a)) frame handlers
      (exec env fuel (frame :: enclosing) (some ⟨frame, none⟩) body (s.setException frame 0))

/-- The run of a program, from an empty stack on. The frames have arbitrary contents before their
`TRY`. -/
def run (env : ℕ → Prog) (junk : ℕ → Frame) (fuel : ℕ) (p : Prog) : Outcome × State :=
  exec env fuel [] none p ⟨[], 0, junk, fun f => (junk f).site, []⟩

/-! ## What a `RETHROW` should do -/

/-- The innermost block around the handler's own receives the code that the handler has caught, and
where it was thrown. -/
def Rethrow.Kept (e : Rethrow) : Prop :=
  ∀ f, e.enclosing.head? = some f → e.received = some (f, ⟨e.code, e.origin⟩)

/-- The code is `1`, and `exception_stack` is the frame of the innermost block around the handler's
own, if there is one. -/
def Rethrow.Survives (e : Rethrow) : Prop :=
  e.enclosing = [] ∨ e.code = 1 ∧ e.stack.head? = e.enclosing.head?

/-! ## What a piece of a program keeps -/

/-- The origin of the exception in a frame is where the frame says it was thrown, and all that the
log shows is as it should be. -/
structure Inv (s : State) : Prop where
  site : ∀ f, (s.frame f).site = s.origin f
  log : ∀ e ∈ s.log, e.Kept ↔ e.Survives

/-- The frames that a piece of a program starts with: those on the stack are of bodies around it,
and in a handler the frame of its block is not one of them and has no exception. -/
structure Ready (enclosing : List ℕ) (around : Option Around) (s : State) : Prop where
  stack : s.exceptionStack.Sublist enclosing
  old : ∀ f ∈ enclosing, f < s.frames
  block : ∀ a, around = some a → a.frame < s.frames
  caught : ∀ a c, around = some a → a.caught = some c →
    a.frame ∉ enclosing ∧ (s.frame a.frame).exception = 0

/-- The frames on the stack are those of bodies that are executing; a jump goes to one of them. -/
def Lives (enclosing : List ℕ) : Outcome × State → Prop
  | (.normal, s) => s.exceptionStack.Sublist enclosing
  | (.jump frame _, s) => (frame :: s.exceptionStack).Sublist enclosing
  | (.fuel, _) => True

/-- How a piece of a program ends: of the first `n` frames it has changed only the one it jumps to.
-/
structure Good (n : ℕ) (enclosing : List ℕ) (s : State) (r : Outcome × State) : Prop where
  inv : Inv r.2
  frames : s.frames ≤ r.2.frames
  same : ∀ f < n, (∀ code, r.1 ≠ .jump f code) → r.2.frame f = s.frame f
  lives : Lives enclosing r

variable {n frame : ℕ} {enclosing : List ℕ} {around : Option Around} {a : Around} {code : ℤ}
  {site origin : Site} {s s' : State} {r : Outcome × State} {handlers : List (Option ℤ × Prog)}
  {handle : Around → Prog → State → Outcome × State}

theorem Good.from (h : Good n enclosing s' r) (hframes : s.frames ≤ s'.frames)
    (hsame : ∀ f < n, s'.frame f = s.frame f) : Good n enclosing s r :=
  ⟨h.inv, hframes.trans h.frames, fun f hf hr => (h.same f hf hr).trans (hsame f hf), h.lives⟩

theorem Good.mono {m : ℕ} (h : Good m enclosing s r) (hn : n ≤ m) : Good n enclosing s r :=
  ⟨h.inv, h.frames, fun f hf => h.same f (hf.trans_le hn), h.lives⟩

theorem Good.normal_same (h : Good n enclosing s (.normal, s')) :
    ∀ f < n, s'.frame f = s.frame f :=
  fun f hf => h.same f hf (by simp)

/-- The piece behind one that has ended normally. -/
theorem Ready.next (h : Ready enclosing around s) (hs : Good s.frames enclosing s (.normal, s')) :
    Ready enclosing around s' := by
  refine ⟨hs.lives, fun f hf => (h.old f hf).trans_le hs.frames,
    fun a ha => (h.block a ha).trans_le hs.frames, fun a c ha hc => ?_⟩
  obtain ⟨hout, hzero⟩ := h.caught a c ha hc
  rw [hs.normal_same a.frame (h.block a ha)]
  exact ⟨hout, hzero⟩

theorem Inv.setException (h : Inv s) (f : ℕ) (code : ℤ) : Inv (s.setException f code) := by
  refine ⟨fun g => ?_, h.log⟩
  by_cases hg : g = f
  · subst hg
    simpa [State.setException, State.setFrame] using h.site g
  · simpa [State.setException, State.setFrame, hg] using h.site g

theorem setException_frame : ((s.setException frame code).frame frame).exception = code := by
  simp [State.setException, State.setFrame]

theorem setException_other {f : ℕ} (h : f ≠ frame) :
    (s.setException frame code).frame f = s.frame f := by
  simp [State.setException, State.setFrame, h]

/-! ## Throwing -/

/-- **`exception_throw`** changes only a frame that is on the stack. -/
theorem exceptionThrow_good (hs : Inv s) (hstack : s.exceptionStack.Sublist enclosing)
    (hsite : site = origin) (code : ℤ) :
    Good n enclosing s (exceptionThrow code site origin s) := by
  unfold exceptionThrow
  split
  · rename_i frame pre h
    rw [h] at hstack
    refine ⟨⟨fun f => ?_, hs.log⟩, le_rfl, fun f _ hf => ?_, hstack⟩
    · by_cases hf : f = frame
      · subst hf
        simpa [State.setFrame] using hsite
      · simpa [State.setFrame, hf] using hs.site f
    · have hne : f ≠ frame := fun h => hf code (h ▸ rfl)
      simp [State.setFrame, hne]
  · exact ⟨hs, le_rfl, fun _ _ _ => rfl, hstack⟩

theorem endTry_good (hs : Inv s) (hstack : s.exceptionStack.Sublist enclosing) :
    Good n enclosing s (endTry frame s) := by
  unfold endTry
  split
  · exact exceptionThrow_good hs hstack (hs.site frame) _
  · exact ⟨⟨hs.site, hs.log⟩, le_rfl, fun _ _ _ => rfl, (List.tail_sublist _).trans hstack⟩

/-- The frame that `RETHROW` jumps to, when `setjmp` has returned: the code `0` has become `1`. -/
theorem received_frame (hs : Inv s) {f : ℕ} {pre : List ℕ} (hstack : s.exceptionStack = f :: pre)
    (hzero : (s.frame a.frame).exception = 0) :
    (arrive f (s.frame a.frame).exception (throwFrame a.frame s).2).frame f =
      ⟨1, s.origin a.frame⟩ := by
  have hsite := hs.site a.frame
  rw [throwFrame, exceptionThrow, hstack]
  simp [arrive, State.setException, State.setFrame, hzero, longjmpValue, hsite]

/-- What arrives is the code `1`, in the frame on top of the stack. -/
theorem kept_iff_survives {e : Rethrow}
    (h : e.received = e.stack.head?.map fun f => (f, ⟨1, e.origin⟩)) : e.Kept ↔ e.Survives := by
  rw [Rethrow.Kept, Rethrow.Survives, h]
  cases henc : e.enclosing with
  | nil => simp
  | cons g rest =>
    cases hstack : e.stack with
    | nil => simp
    | cons f pre => simp [and_comm, eq_comm]

/-- **`RETHROW`** delivers the code `1` if it stands in a handler. -/
theorem rethrow_good (hs : Inv s) (h : Ready enclosing (some a) s) :
    Good n enclosing s (rethrow enclosing a s) := by
  have hthrow : Good n enclosing s (throwFrame a.frame s) :=
    exceptionThrow_good hs h.stack (hs.site a.frame) _
  unfold rethrow
  split
  · exact hthrow
  · rename_i c hc
    obtain ⟨-, hzero⟩ := h.caught a c rfl hc
    refine ⟨⟨hthrow.inv.site, fun e he => ?_⟩, hthrow.frames, hthrow.same, ?_⟩
    · rcases List.mem_append.mp he with he | he
      · exact hthrow.inv.log e he
      · obtain rfl := List.mem_singleton.mp he
        apply kept_iff_survives
        cases hstack : s.exceptionStack with
        | nil => rfl
        | cons f pre => simp [received_frame hs hstack hzero]
    · have hlives := hthrow.lives
      revert hlives
      generalize throwFrame a.frame s = r
      obtain ⟨o, s'⟩ := r
      cases o <;> exact id

/-! ## Blocks -/

/-- **What follows the body of a block.** -/
theorem endBlock_good (hr : Good (frame + 1) (frame :: enclosing) s r) (hframe : frame < s.frames)
    (hzero : (s.frame frame).exception = 0) (hold : ∀ f ∈ enclosing, f < frame)
    (hhandle : ∀ a p s, Inv s → Ready enclosing (some a) s →
      Good s.frames enclosing s (handle a p s)) :
    Good frame enclosing s (endBlock handle frame handlers r) := by
  have hout : frame ∉ enclosing := fun h => (hold frame h).false
  have hframe' := hframe.trans_le hr.frames
  unfold endBlock
  split
  · -- the frame still has no exception
    rename_i s'
    have hzero' : (s'.frame frame).exception = 0 := by
      rw [hr.normal_same frame (Nat.lt_succ_self frame), hzero]
    rw [endTry, if_neg (not_not.mpr hzero')]
    exact ⟨⟨hr.inv.site, hr.inv.log⟩, hr.frames,
      fun f hf _ => hr.normal_same f (hf.trans (Nat.lt_succ_self frame)), hr.lives.tail⟩
  · rename_i target code s'
    split
    · rename_i htarget
      subst htarget
      have hstack : s'.exceptionStack.Sublist enclosing := hr.lives.of_cons_cons
      have hinv : Inv (arrive target code s') := hr.inv.setException target _
      have hsame : ∀ f < target, (arrive target code s').frame f = s.frame f := fun f hf => by
        rw [arrive, setException_other hf.ne]
        refine hr.same f (hf.trans (Nat.lt_succ_self target)) fun c hc => ?_
        exact hf.ne (Outcome.jump.inj hc).1.symm
      dsimp only
      split
      · rename_i p _
        let s₂ := (arrive target code s').setException target 0
        have hinv₂ : Inv s₂ := hinv.setException target 0
        have hsame₂ : ∀ f < target, s₂.frame f = s.frame f := fun f hf => by
          rw [setException_other hf.ne, hsame f hf]
        have hready : Ready enclosing
            (some ⟨target, some ((arrive target code s').frame target).exception⟩) s₂ := by
          refine ⟨hstack, fun f hf => (hold f hf).trans hframe', ?_, ?_⟩
          · rintro a ⟨⟩
            exact hframe'
          · rintro a c ⟨⟩ -
            exact ⟨hout, setException_frame⟩
        have hp := ((hhandle _ p s₂ hinv₂ hready).mono hframe'.le).from hr.frames hsame₂
        split
        · rename_i s₃ heq
          rw [heq] at hp
          exact (endTry_good hp.inv hp.lives).from hp.frames hp.normal_same
        · exact hp
      · exact (endTry_good hinv hstack).from hr.frames hsame
    · -- the jump goes on to a block further out
      rename_i hne
      refine ⟨hr.inv, hr.frames, fun f hf => hr.same f (hf.trans (Nat.lt_succ_self frame)), ?_⟩
      refine (List.sublist_cons_iff.mp hr.lives).resolve_right ?_
      rintro ⟨l, hl, -⟩
      exact hne (List.cons.inj hl).1
  · exact ⟨hr.inv, hr.frames, fun f hf => hr.same f (hf.trans (Nat.lt_succ_self frame)), trivial⟩

/-- **Every piece of a program.** -/
theorem exec_good (env : ℕ → Prog) (fuel : ℕ) (enclosing : List ℕ) (around : Option Around)
    (p : Prog) (s : State) (hs : Inv s) (h : Ready enclosing around s) :
    Good s.frames enclosing s (exec env fuel enclosing around p s) := by
  induction fuel generalizing enclosing around p s with
  | zero => exact ⟨hs, le_rfl, fun _ _ _ => rfl, trivial⟩
  | succ fuel ih =>
    cases p with
    | skip => exact ⟨hs, le_rfl, fun _ _ _ => rfl, h.stack⟩
    | seq p q =>
      have hp := ih enclosing around p s hs h
      rw [exec]
      split
      · rename_i s₁ heq
        rw [heq] at hp
        exact ((ih enclosing around q s₁ hp.inv (h.next hp)).mono hp.frames).from hp.frames
          hp.normal_same
      · exact hp
    | call f => exact ih enclosing none (env f) s hs ⟨h.stack, h.old, by simp, by simp⟩
    | throw code _ site => exact exceptionThrow_good hs h.stack rfl code
    | rethrow =>
      cases around with
      | none => exact ⟨hs, le_rfl, fun _ _ _ => rfl, h.stack⟩
      | some a => exact rethrow_good hs h
    | tryBlock body handlers =>
      let s₁ : State :=
        { s with exceptionStack := s.frames :: s.exceptionStack, frames := s.frames + 1 }
      let s₂ := s₁.setException s.frames 0
      have hs₁ : Inv s₁ := ⟨hs.site, hs.log⟩
      have hready : Ready (s.frames :: enclosing) (some ⟨s.frames, none⟩) s₂ := by
        refine ⟨h.stack.cons_cons s.frames, fun f hf => ?_, ?_, ?_⟩
        · rcases List.mem_cons.mp hf with rfl | hf
          · exact Nat.lt_succ_self _
          · exact (h.old f hf).trans (Nat.lt_succ_self _)
        · rintro a ⟨⟩
          exact Nat.lt_succ_self _
        · rintro a c ⟨⟩ ⟨⟩
      have hbody := ih _ _ body s₂ (hs₁.setException s.frames 0) hready
      refine (endBlock_good hbody (Nat.lt_succ_self _) setException_frame h.old
        fun a p s hs h => ih enclosing (some a) p s hs h).from (Nat.le_succ _) fun f hf => ?_
      exact setException_other hf.ne

/-- **A `RETHROW` keeps the exception exactly if its code is `1` and `exception_stack` is the frame
of the innermost block around the handler's own.** In every run of every program, also one that does
not end, each `RETHROW` that a handler executes delivers the code that the handler has caught, with
the file and line of the first `THROW`, to the innermost block around the handler's own, if and only
if there is none, or that code is `1` and that block's frame is on top of the stack. -/
theorem rethrow_kept_iff (env : ℕ → Prog) (junk : ℕ → Frame) (fuel : ℕ) (p : Prog) :
    ∀ e ∈ (run env junk fuel p).2.log, e.Kept ↔ e.Survives := by
  have hs : Inv ⟨[], 0, junk, fun f => (junk f).site, []⟩ := ⟨fun _ => rfl, by simp⟩
  have hready : Ready [] none ⟨[], 0, junk, fun f => (junk f).site, []⟩ :=
    ⟨List.Sublist.refl [], by simp, by simp, by simp⟩
  exact (exec_good env fuel [] none p _ hs hready).inv.log

/-- The code 1 is caught and thrown again. -/
theorem rethrow_kept_iff_one :
    ∃ e ∈ (run (fun _ => .skip) (fun _ => ⟨0, ⟨"", 0⟩⟩) 4
      (.tryBlock (.tryBlock (.throw 1 (by decide) ⟨"a.c", 7⟩) [(some 1, .rethrow)])
        [(some 1, .skip)])).2.log, e.Kept := by
  let e : Rethrow := ⟨1, ⟨"a.c", 7⟩, [0], [0], some (0, ⟨1, ⟨"a.c", 7⟩⟩)⟩
  have he : e ∈ (run (fun _ => .skip) (fun _ => ⟨0, ⟨"", 0⟩⟩) 4
      (.tryBlock (.tryBlock (.throw 1 (by decide) ⟨"a.c", 7⟩) [(some 1, .rethrow)])
        [(some 1, .skip)])).2.log := by decide
  exact ⟨e, he, (rethrow_kept_iff _ _ _ _ e he).mpr (.inr ⟨rfl, rfl⟩)⟩

/-- The code 2 is caught, thrown again and arrives outside as the code 1. -/
theorem rethrow_not_kept :
    ∃ e ∈ (run (fun _ => .skip) (fun _ => ⟨0, ⟨"", 0⟩⟩) 4
      (.tryBlock (.tryBlock (.throw 2 (by decide) ⟨"a.c", 7⟩) [(some 2, .rethrow)])
        [(some 2, .skip)])).2.log, ¬ e.Kept := by
  refine ⟨⟨2, ⟨"a.c", 7⟩, [0], [0], some (0, ⟨1, ⟨"a.c", 7⟩⟩)⟩, by decide, fun h => ?_⟩
  have hreceived := h 0 rfl
  simp at hreceived

end Kendylib.Rethrowing
