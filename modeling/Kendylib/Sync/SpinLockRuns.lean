import Kendylib.Sync.SpinLock

/-!
# Runs of the spin lock

A run is any interleaving of the steps of any number of threads. The lock has two ways in, the owner
word and the mutex, and they do not exclude each other: `owner` is not set by a thread that comes in
by the mutex, so that another may come in by the owner word, and the `spin_unlock` of the first one
fails (`not_excludes_two_threads`).

As long as no thread falls back to the mutex, the owner word is the lock: it is the id of a thread
exactly if the thread holds the lock or is about to (`Inv.holds`), and `lock_count` is the depth of
that thread (`Inv.count`). So the lock excludes (`excludes_of_clear`).
-/

namespace Kendylib.SpinLock

variable {T : Type} {s s' : State T} {t u : T} {call : Call}

/-! ## What the places of a thread say -/

/-- The thread has made its compare-and-swap and not returned yet. -/
def Pc.Acquired : Pc → Prop
  | .incLoad route | .incStore route _ => route ≠ .again
  | .lockClear => True
  | _ => False

/-- The thread at the place `p` has the owner word. -/
def Holds (p : Pc) (depth : ℕ) : Prop := 0 < depth ∨ p.Acquired

/-- What is known of the depth of a thread at the place `p`, if no thread has taken the mutex. -/
def Shape : Pc → ℕ → Prop
  | .out, _ | .lockEnter _, _ => True
  | .spinLoad _, d | .spinSwap _, d | .mutexLock, d | .lockClear, d => d = 0
  | .setFlag, _ | .unlockClear, _ | .mutexUnlock, _ => False
  | .incLoad route, d => route ≠ .mutex ∧ (route = .again ↔ 0 < d)
  | .incStore route v, d => route ≠ .mutex ∧ (route = .again ↔ 0 < d) ∧ v = d
  | .unlockEnter, d | .decLoad, d | .testCount, d => 0 < d
  | .decStore v, d => 0 < d ∧ v = d
  | .testFlag, d | .release, d => d = 1

/-- What `lock_count` is while the thread at the place `p` has the owner word. -/
def countAt : Pc → ℕ → ℕ
  | .lockClear, d => d + 1
  | .testCount, d | .testFlag, d | .release, d => d - 1
  | _, d => d

/-! ## The invariant -/

/-- The lock while no thread has taken the mutex. -/
structure Inv (s : State T) : Prop where
  holds : ∀ t, s.owner = some t ↔ Holds (s.pc t) (s.depth t)
  count : ∀ t, s.owner = some t → s.lockCount = countAt (s.pc t) (s.depth t)
  free : s.owner = none → s.lockCount = 0
  flag : s.lockByMtx = false
  mtx : s.mtx = none
  shape : ∀ t, Shape (s.pc t) (s.depth t)

theorem spinCreate_inv [DecidableEq T] : Inv (spinCreate : State T) :=
  ⟨fun t => by simp [spinCreate, Holds, Pc.Acquired], fun t h => (by cases h), fun _ => rfl, rfl, rfl,
    fun _ => trivial⟩

/-- No thread but the owner holds the lock. -/
theorem Inv.not_owner (I : Inv s) (hd : s.depth t = 0) (hp : ¬ (s.pc t).Acquired) :
    s.owner ≠ some t := by
  intro h
  rcases (I.holds t).mp h with h | h
  · omega
  · exact hp h

variable [DecidableEq T]

/-- **A step of one thread** that leaves the mutex alone. The owner word may change from and to the
id of the thread only, and `lock_count` only while the thread has the owner word. -/
theorem Inv.update (I : Inv s) {p : Pc} {d c : ℕ} {o : Option T} (hshape : Shape p d)
    (hholds : o = some t ↔ Holds p d) (hother : ∀ u, u ≠ t → (o = some u ↔ s.owner = some u))
    (hcount : o = some t → c = countAt p d) (hkeep : ∀ u, u ≠ t → o = some u → c = s.lockCount)
    (hfree : o = none → c = 0) :
    Inv ⟨o, c, s.mtx, s.lockByMtx, Function.update s.pc t p, Function.update s.depth t d⟩ := by
  refine ⟨fun u => ?_, fun u hu => ?_, hfree, I.flag, I.mtx, fun u => ?_⟩
  · by_cases hut : u = t
    · subst hut
      simpa using hholds
    · simpa [hut] using (hother u hut).trans (I.holds u)
  · by_cases hut : u = t
    · subst hut
      simpa using hcount hu
    · have hsame := I.count u ((hother u hut).mp hu)
      simpa [hut] using (hkeep u hut hu).trans hsame
  · by_cases hut : u = t
    · subst hut
      simpa using hshape
    · simpa [hut] using I.shape u

/-- **A step that only moves the thread.** -/
theorem Inv.goto (I : Inv s) {p : Pc} (hshape : Shape p (s.depth t))
    (hholds : s.owner = some t ↔ Holds p (s.depth t))
    (hcount : s.owner = some t → countAt p (s.depth t) = countAt (s.pc t) (s.depth t)) :
    Inv (goto s t p) := by
  have := I.update hshape hholds (fun _ _ => Iff.rfl)
    (fun h => (I.count t h).trans (hcount h).symm) (fun _ _ _ => rfl) I.free
  rwa [Function.update_eq_self] at this

/-- **A step of the owner** that keeps the owner word. -/
theorem Inv.own (I : Inv s) (howner : s.owner = some t) {p : Pc} {d c : ℕ} (hshape : Shape p d)
    (hholds : Holds p d) (hcount : c = countAt p d) :
    Inv ⟨s.owner, c, s.mtx, s.lockByMtx, Function.update s.pc t p, Function.update s.depth t d⟩ := by
  rw [howner]
  refine I.update hshape ⟨fun _ => hholds, fun _ => rfl⟩ (fun u hu => by rw [howner])
    (fun _ => hcount) (fun u hu h => ?_) fun h => by cases h
  exact absurd (Option.some.inj h).symm hu

/-- **The compare-and-swap that succeeds.** -/
theorem Inv.swap (I : Inv s) (howner : s.owner = none) (hd : s.depth t = 0) {route : Route}
    (hagain : route ≠ .again) (hmutex : route ≠ .mutex) :
    Inv { SpinLock.goto s t (.incLoad route) with owner := some t } := by
  have := I.update (t := t) (p := .incLoad route) (d := s.depth t) (c := s.lockCount) (o := some t)
    ⟨hmutex, by simp [hagain, hd]⟩ ⟨fun _ => .inr hagain, fun _ => rfl⟩
    (fun u hu => by simp [howner, Ne.symm hu]) (fun _ => by simp [countAt, hd, I.free howner])
    (fun u hu h => absurd (Option.some.inj h).symm hu) (fun h => by cases h)
  rwa [Function.update_eq_self] at this

/-- **The owner word is given back.** -/
theorem Inv.release (I : Inv s) (howner : s.owner = some t) (hcount : s.lockCount = 0)
    (hd : s.depth t = 1) : Inv { unlockReturn s t with owner := none } := by
  have := I.update (t := t) (p := .out) (d := s.depth t - 1) (c := s.lockCount) (o := none) trivial
    (by simp [Holds, Pc.Acquired, hd]) (fun u hu => by simp [howner, Ne.symm hu])
    (fun h => by cases h) (fun u hu h => by cases h) (fun _ => hcount)
  exact this

/-! ## Steps -/

/-- The lock is free. -/
def Free (s : State T) : Prop := s.owner = none ∧ s.lockCount = 0 ∧ s.mtx = none ∧ s.lockByMtx = false

/-- The threads that hold the lock are one at most. -/
def Excludes (s : State T) : Prop := ∀ t u, 0 < s.depth t → 0 < s.depth u → t = u

/-- What is asked of a step of the thread `t` that ends in `s'`: a `spin_unlock` returns `0`, and
leaves the lock free if it was the outermost one. -/
def UnlocksOk (s' : State T) (t : T) (result : Option ℤ) : Prop :=
  ∀ v, result = some v → v = 0 ∧ (s'.depth t = 0 → Free s')

/-- The thread does not fall back to the mutex, and has not locked the lock too often for
`lock_count` to count it. -/
def Clear (s : State T) (t : T) : Prop := s.pc t ≠ .mutexLock ∧ s.depth t + 1 < 0x80000000

omit [DecidableEq T] in
theorem Inv.excludes (I : Inv s) : Excludes s := by
  intro t u ht hu
  have h₁ := (I.holds t).mpr (.inl ht)
  have h₂ := (I.holds u).mpr (.inl hu)
  exact Option.some.inj (h₁.symm.trans h₂)

theorem shape_spinHead (left : Option ℕ) : Shape (spinHead left) 0 := by
  rcases left with - | - | left <;> rfl

theorem not_acquired_spinHead (left : Option ℕ) : ¬ (spinHead left).Acquired := by
  rcases left with - | - | left <;> exact id

/-- Back to the head of the loop. -/
theorem Inv.spinHead (I : Inv s) (hd : s.depth t = 0) (hp : ¬ (s.pc t).Acquired) (left : Option ℕ) :
    Inv (SpinLock.goto s t (spinHead left)) := by
  have hnot := I.not_owner hd hp
  refine I.goto (hd ▸ shape_spinHead left) ⟨fun h => absurd h hnot, fun h => ?_⟩
    fun h => absurd h hnot
  rcases h with h | h
  · omega
  · exact absurd h (not_acquired_spinHead left)

/-- **A step** that does not fall back to the mutex. -/
theorem step_inv {result : Option ℤ} (I : Inv s) (hclear : Clear s t)
    (hstep : step s t call = some (s', result)) : Inv s' ∧ UnlocksOk s' t result := by
  have hshape := I.shape t
  have hholds := I.holds t
  have hcount := I.count t
  obtain ⟨hmutex, hdepth⟩ := hclear
  have hnone : UnlocksOk s' t none := fun v h => by cases h
  unfold step at hstep
  cases hpc : s.pc t with
  | out =>
    rw [hpc] at hstep hholds hcount
    cases call with
    | lock count =>
      obtain ⟨rfl, rfl⟩ := Prod.mk.inj (Option.some.inj hstep)
      exact ⟨I.goto trivial hholds fun _ => by rw [hpc]; rfl, hnone⟩
    | unlock =>
      dsimp only at hstep
      split at hstep
      · cases hstep
      · rename_i hd
        obtain ⟨rfl, rfl⟩ := Prod.mk.inj (Option.some.inj hstep)
        exact ⟨I.goto (Nat.pos_of_ne_zero hd) hholds fun _ => by rw [hpc]; rfl, hnone⟩
  | lockEnter count =>
    rw [hpc] at hstep hholds hcount
    dsimp only at hstep
    split at hstep
    · rename_i howner
      obtain ⟨rfl, rfl⟩ := Prod.mk.inj (Option.some.inj hstep)
      have hpos : 0 < s.depth t := (hholds.mp howner).resolve_right id
      refine ⟨I.goto ⟨by decide, by simpa using hpos⟩ ⟨fun _ => .inl hpos, fun _ => howner⟩ fun _ => ?_,
        hnone⟩
      rw [hpc]
      rfl
    · rename_i howner
      obtain ⟨rfl, rfl⟩ := Prod.mk.inj (Option.some.inj hstep)
      have hd : s.depth t = 0 := by
        by_contra hd
        exact howner (hholds.mpr (.inl (Nat.pos_of_ne_zero hd)))
      exact ⟨I.spinHead hd (by rw [hpc]; exact id) _, hnone⟩
  | spinLoad left =>
    rw [hpc] at hstep hshape
    obtain ⟨rfl, rfl⟩ := Prod.mk.inj (Option.some.inj hstep)
    have hd : s.depth t = 0 := hshape
    have hnot := I.not_owner hd (by rw [hpc]; exact id)
    refine ⟨?_, hnone⟩
    split
    · refine I.goto hd ⟨fun h => absurd h hnot, fun h => ?_⟩ fun h => absurd h hnot
      rcases h with h | h
      · omega
      · exact h.elim
    · exact I.spinHead hd (by rw [hpc]; exact id) left
  | spinSwap left =>
    rw [hpc] at hstep hshape
    have hd : s.depth t = 0 := hshape
    dsimp only at hstep
    split at hstep
    · rename_i howner
      obtain ⟨rfl, rfl⟩ := Prod.mk.inj (Option.some.inj hstep)
      exact ⟨I.swap howner hd (by split <;> decide) (by split <;> decide), hnone⟩
    · obtain ⟨rfl, rfl⟩ := Prod.mk.inj (Option.some.inj hstep)
      exact ⟨I.spinHead hd (by rw [hpc]; exact id) left, hnone⟩
  | mutexLock => exact absurd hpc hmutex
  | setFlag =>
    rw [hpc] at hshape
    exact hshape.elim
  | unlockClear =>
    rw [hpc] at hshape
    exact hshape.elim
  | mutexUnlock =>
    rw [hpc] at hshape
    exact hshape.elim
  | incLoad route =>
    rw [hpc] at hstep hshape hholds hcount
    obtain ⟨rfl, rfl⟩ := Prod.mk.inj (Option.some.inj hstep)
    have howner : s.owner = some t := by
      refine hholds.mpr ?_
      by_cases hr : route = .again
      · exact .inl (hshape.2.mp hr)
      · exact .inr hr
    exact ⟨I.goto ⟨hshape.1, hshape.2, hcount howner⟩ hholds fun _ => by rw [hpc]; rfl, hnone⟩
  | incStore route v =>
    rw [hpc] at hstep hshape hholds hcount
    obtain ⟨hmtx, hagain, hv⟩ := hshape
    have howner : s.owner = some t := by
      refine hholds.mpr ?_
      by_cases hr : route = .again
      · exact .inl (hagain.mp hr)
      · exact .inr hr
    have hinc : add32 v 1 = s.depth t + 1 := by
      rw [add32_of_lt (by omega), hv]
    dsimp only at hstep
    split at hstep
    · rename_i hforever
      obtain ⟨rfl, rfl⟩ := Prod.mk.inj (Option.some.inj hstep)
      have hd : s.depth t = 0 := by
        subst hforever
        simpa using hagain
      have := I.own howner (p := .lockClear) hd (.inr trivial) hinc
      rw [Function.update_eq_self] at this
      exact ⟨this, hnone⟩
    · obtain ⟨rfl, rfl⟩ := Prod.mk.inj (Option.some.inj hstep)
      exact ⟨I.own howner (p := .out) trivial (.inl (Nat.succ_pos _)) hinc, hnone⟩
  | lockClear =>
    rw [hpc] at hstep hshape hholds hcount
    obtain ⟨rfl, rfl⟩ := Prod.mk.inj (Option.some.inj hstep)
    have howner := hholds.mpr (.inr trivial)
    have := I.own howner (p := .out) trivial (.inl (Nat.succ_pos _)) (hcount howner)
    rw [I.flag] at this
    exact ⟨this, hnone⟩
  | unlockEnter =>
    rw [hpc] at hstep hshape hholds hcount
    have howner := hholds.mpr (.inl hshape)
    dsimp only at hstep
    rw [if_pos howner] at hstep
    obtain ⟨rfl, rfl⟩ := Prod.mk.inj (Option.some.inj hstep)
    exact ⟨I.goto hshape hholds fun _ => by rw [hpc]; rfl, hnone⟩
  | decLoad =>
    rw [hpc] at hstep hshape hholds hcount
    obtain ⟨rfl, rfl⟩ := Prod.mk.inj (Option.some.inj hstep)
    have howner := hholds.mpr (.inl hshape)
    exact ⟨I.goto ⟨hshape, hcount howner⟩ hholds fun _ => by rw [hpc]; rfl, hnone⟩
  | decStore v =>
    rw [hpc] at hstep hshape hholds hcount
    obtain ⟨rfl, rfl⟩ := Prod.mk.inj (Option.some.inj hstep)
    obtain ⟨hpos, hv⟩ := hshape
    have hdec : sub32 v 1 = s.depth t - 1 := by
      rw [sub32_of_le (by omega) (by omega), hv]
    have := I.own (hholds.mpr (.inl hpos)) (p := .testCount) hpos (.inl hpos) hdec
    rw [Function.update_eq_self] at this
    exact ⟨this, hnone⟩
  | testCount =>
    rw [hpc] at hstep hshape hholds hcount
    have hpos : 0 < s.depth t := hshape
    have howner := hholds.mpr (.inl hpos)
    have hc : s.lockCount = s.depth t - 1 := hcount howner
    dsimp only at hstep
    split at hstep
    · obtain ⟨rfl, rfl⟩ := Prod.mk.inj (Option.some.inj hstep)
      exact ⟨I.goto (show s.depth t = 1 by omega) hholds fun _ => by rw [hpc]; rfl, hnone⟩
    · obtain ⟨rfl, rfl⟩ := Prod.mk.inj (Option.some.inj hstep)
      refine ⟨I.own howner (p := .out) trivial (.inl (by omega)) hc, fun v hv => ⟨?_, fun hzero => ?_⟩⟩
      · exact (Option.some.inj hv).symm
      · have : s.depth t - 1 = 0 := by simpa [unlockReturn] using hzero
        omega
  | testFlag =>
    rw [hpc] at hstep hshape hholds
    obtain ⟨rfl, rfl⟩ := Prod.mk.inj (Option.some.inj hstep)
    rw [I.flag]
    exact ⟨I.goto hshape hholds fun _ => by rw [hpc]; rfl, hnone⟩
  | release =>
    rw [hpc] at hstep hshape hholds hcount
    obtain ⟨rfl, rfl⟩ := Prod.mk.inj (Option.some.inj hstep)
    have hd : s.depth t = 1 := hshape
    have howner := hholds.mpr (.inl (by omega))
    have hc : s.lockCount = 0 := by simpa [countAt, hd] using hcount howner
    refine ⟨I.release howner hc hd, fun v hv => ⟨(Option.some.inj hv).symm, fun _ => ?_⟩⟩
    exact ⟨rfl, hc, I.mtx, I.flag⟩

/-! ## Runs -/

/-- The lock excludes in a run: in every state one thread at most holds it, and every `spin_unlock`
of a thread that holds it returns `0` and, at the outermost level, leaves it free. -/
def RunExcludes : State T → List (T × Call) → Prop
  | s, [] => Excludes s
  | s, (t, call) :: run => Excludes s ∧ ∀ s' result, step s t call = some (s', result) →
    UnlocksOk s' t result ∧ RunExcludes s' run

/-- No step of a run falls back to the mutex, and no thread locks the lock too often for
`lock_count`. -/
def RunClear : State T → List (T × Call) → Prop
  | _, [] => True
  | s, (t, call) :: run => Clear s t ∧ ∀ s' result, step s t call = some (s', result) → RunClear s' run

/-- The state at the end of a run. -/
def finish : State T → List (T × Call) → Option (State T)
  | s, [] => some s
  | s, (t, call) :: run => (step s t call).bind fun x => finish x.1 run

theorem RunExcludes.finish {run : List (T × Call)} (h : RunExcludes s run)
    (hrun : SpinLock.finish s run = some s') : Excludes s' := by
  induction run generalizing s with
  | nil =>
    obtain rfl := Option.some.inj hrun
    exact h
  | cons x run ih =>
    obtain ⟨⟨s₁, result⟩, hstep, hrest⟩ := Option.bind_eq_some_iff.mp hrun
    exact ih (h.2 s₁ result hstep).2 hrest

instance (s : State T) (t : T) : Decidable (Clear s t) := inferInstanceAs (Decidable (_ ∧ _))

instance decidableRunClear : ∀ (s : State T) (run : List (T × Call)), Decidable (RunClear s run)
  | _, [] => isTrue trivial
  | s, (t, call) :: run =>
    match h : step s t call with
    | none => decidable_of_iff (Clear s t)
        ⟨fun hc => ⟨hc, fun _ _ h' => by rw [h] at h'; cases h'⟩, And.left⟩
    | some (s', result) =>
      have := decidableRunClear s' run
      decidable_of_iff (Clear s t ∧ RunClear s' run) (by
        refine and_congr_right fun _ => ⟨fun hr u v h' => ?_, fun hr => hr s' result h⟩
        rw [h] at h'
        obtain ⟨rfl, rfl⟩ := Prod.mk.inj (Option.some.inj h')
        exact hr)

theorem runExcludes_of_inv (I : Inv s) {run : List (T × Call)} (hclear : RunClear s run) :
    RunExcludes s run := by
  induction run generalizing s with
  | nil => exact I.excludes
  | cons x run ih =>
    obtain ⟨hstep, hrest⟩ := hclear
    refine ⟨I.excludes, fun s' result h => ?_⟩
    obtain ⟨I', hunlock⟩ := step_inv I hstep h
    exact ⟨hunlock, ih I' (hrest s' result h)⟩

/-- **The spin lock excludes** in every interleaving in which no thread falls back to the mutex. -/
theorem excludes_of_clear {run : List (T × Call)} (hclear : RunClear spinCreate run) :
    RunExcludes spinCreate run :=
  runExcludes_of_inv spinCreate_inv hclear

/-- The calls of a thread that locks the lock, without a limit to the attempts, and finds it free. -/
def lockAlone (t : T) : List (T × Call) := List.replicate 7 (t, .lock 0)

/-- One thread locks the lock twice and unlocks it twice; then another has it. -/
theorem excludes_recursive : RunExcludes (spinCreate : State Bool)
    (lockAlone true ++ List.replicate 4 (true, .lock 3) ++ List.replicate 12 (true, .unlock) ++
      lockAlone false) :=
  excludes_of_clear (by decide)

/-- A thread holds the lock while another one's only attempt fails: it comes in by the mutex. -/
theorem not_excludes_two_threads : ¬ RunExcludes (spinCreate : State Bool)
    (lockAlone true ++ List.replicate 7 (false, .lock 1)) := by
  intro h
  obtain ⟨s, hs⟩ : ∃ s, finish (spinCreate : State Bool)
      (lockAlone true ++ List.replicate 7 (false, .lock 1)) = some s := ⟨_, rfl⟩
  have hdepth : s.depth = fun _ => 1 := by
    have hall : (finish (spinCreate : State Bool)
        (lockAlone true ++ List.replicate 7 (false, .lock 1))).map
          (fun s => (s.depth true, s.depth false)) =
          some (1, 1) := by decide
    rw [hs, Option.map_some, Option.some.injEq, Prod.mk.injEq] at hall
    funext b
    cases b
    · exact hall.2
    · exact hall.1
  have := h.finish hs true false (by rw [hdepth]; decide) (by rw [hdepth]; decide)
  cases this

end Kendylib.SpinLock
