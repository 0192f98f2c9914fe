import Kendylib.Foundations.Monitor

/-!
# The barrier

`barrior_wait` of `src/sync.c`, called by any number of threads. It counts `wait_count` down under the
mutex, and waits at the condition while the count is above zero; the thread that brings it to zero
wakes all. The count is not set again, so that a thread that calls later passes.

No thread leaves before as many have come as the barrier was made for, and from then on each thread
leaves with its next step, in whatever order they get the mutex (`barrior_synchronises`).

The count is an integer: fewer than `2 ^ 31` threads come after the barrier has opened.
-/

namespace Kendylib

open Monitor Interleaving

/-- A `struct barrior`, without its mutex and its condition. `arrived` counts the threads that have
got the mutex, and `left` those that have returned; they are not read by anything. -/
structure Barrior where
  waitCount : ℤ
  arrived : ℕ
  left : ℕ
  deriving DecidableEq

namespace Barrior

/-- `barrior_create`. -/
def barriorCreate (waitcount : ℤ) : Barrior := ⟨waitcount, 0, 0⟩

def leave (b : Barrior) (wake : Wake) : Outcome Barrior := ⟨{ b with left := b.left + 1 }, wake, false⟩

/-- The loop of `barrior_wait`, up to `condition_wait` or the end. -/
def loop (b : Barrior) : Outcome Barrior :=
  if b.waitCount > 0 then ⟨b, .nobody, true⟩ else b.leave .nobody

/-- `barrior_wait`, up to `condition_wait` or the end. -/
def barriorWait (b : Barrior) : Outcome Barrior :=
  let b := { b with waitCount := b.waitCount - 1, arrived := b.arrived + 1 }
  if 0 = b.waitCount then b.leave .all else b.loop

/-- The threads that use a barrier. -/
def threads (T : Type) : Monitor Barrior Unit T := ⟨fun _ _ => true, fun _ => barriorWait, fun _ => loop⟩

variable {T : Type} [DecidableEq T] [Fintype T]

def start (waitcount : ℤ) : State Barrior Unit T := ⟨barriorCreate waitcount, fun _ => .out⟩

/-- **What a barrier is for.** -/
structure Synchronises (n : ℤ) (s : State Barrior Unit T) : Prop where
  /-- No thread leaves before `n` have come. -/
  early : (s.data.arrived : ℤ) < n → s.data.left = 0
  /-- When `n` have come, the threads in the call leave in whatever order they get the mutex. -/
  late : n ≤ s.data.arrived → ∀ ts : List T, ts.Nodup → (∀ t, t ∈ ts ↔ s.place t ≠ .out) →
    ∃ s', exec (threads T).step s (ts.map fun t => .lock t none) = some s' ∧
      ∀ t, s'.place t = .out

variable {n : ℤ} {s s' : State Barrior Unit T} {d : Barrior} {o : Outcome Barrior}

/-- The count is what is missing, and no thread has left while it is above zero. -/
structure Counts (n : ℤ) (d : Barrior) : Prop where
  waitCount : d.waitCount = n - d.arrived
  left : 0 < d.waitCount → d.left = 0

theorem loop_of_pos (h : 0 < d.waitCount) : d.loop = ⟨d, .nobody, true⟩ := if_pos h

theorem loop_of_not_pos (h : d.waitCount ≤ 0) : d.loop = d.leave .nobody := if_neg (Int.not_lt.mpr h)

/-- The count and the number of threads after another one has come. -/
def come (d : Barrior) : Barrior := { d with waitCount := d.waitCount - 1, arrived := d.arrived + 1 }

theorem barriorWait_of_last (h : d.waitCount = 1) : d.barriorWait = d.come.leave .all :=
  if_pos (by rw [h]; rfl)

theorem barriorWait_of_ne (h : d.waitCount ≠ 1) : d.barriorWait = d.come.loop :=
  if_neg fun hzero => h (Int.sub_eq_zero.mp hzero.symm)

theorem Counts.come (h : Counts n d) : Counts n d.come := by
  refine ⟨?_, fun hpos => h.left ?_⟩
  · have := h.waitCount
    rw [Barrior.come]
    push_cast
    omega
  · change 0 < d.waitCount - 1 at hpos
    omega

theorem Counts.loop (h : Counts n d) : Counts n d.loop.data := by
  rcases lt_or_ge 0 d.waitCount with hpos | hle
  · rwa [loop_of_pos hpos]
  · rw [loop_of_not_pos hle]
    exact ⟨h.waitCount, fun hgt => absurd hgt (Int.not_lt.mpr hle)⟩

theorem Counts.barriorWait (h : Counts n d) : Counts n d.barriorWait.data := by
  by_cases hlast : d.waitCount = 1
  · rw [barriorWait_of_last hlast]
    refine ⟨h.come.waitCount, fun hgt => ?_⟩
    change 0 < d.waitCount - 1 at hgt
    omega
  · rw [barriorWait_of_ne hlast]
    exact h.come.loop

theorem waitCount_loop : d.loop.data.waitCount = d.waitCount := by
  rw [Barrior.loop]
  split_ifs <;> rfl

theorem loop_waits (hwaits : d.loop.waits = true) : 0 < d.loop.data.waitCount := by
  rcases lt_or_ge 0 d.waitCount with hpos | hle
  · rwa [waitCount_loop]
  · rw [loop_of_not_pos hle] at hwaits
    cases hwaits

omit [DecidableEq T] [Fintype T] in
/-- A thread waits while the count is above zero, and the thread that ends this wakes all. -/
theorem wakes : (threads T).Wakes fun _ d => 0 < d.waitCount := by
  refine ⟨?_, ?_⟩
  · rintro k d o (rfl | rfl) hwaits
    · change d.barriorWait.waits = true at hwaits
      change 0 < d.barriorWait.data.waitCount
      by_cases hlast : d.waitCount = 1
      · rw [barriorWait_of_last hlast] at hwaits
        cases hwaits
      · rw [barriorWait_of_ne hlast] at hwaits ⊢
        exact loop_waits hwaits
    · exact loop_waits hwaits
  · rintro k d o j (rfl | rfl) hblocks hends
    · refine .inl ?_
      change ¬ 0 < d.barriorWait.data.waitCount at hends
      change d.barriorWait.wake = .all
      by_cases hlast : d.waitCount = 1
      · rw [barriorWait_of_last hlast]
        rfl
      · rw [barriorWait_of_ne hlast, waitCount_loop] at hends
        change ¬ 0 < d.waitCount - 1 at hends
        omega
    · exact absurd (waitCount_loop.symm ▸ hblocks) hends

omit [DecidableEq T] [Fintype T] in
/-- With the count at zero or below, no call waits. -/
theorem passes (k : Unit) (d : Barrior) (o : Outcome Barrior) (ho : (threads T).Section k d o)
    (hd : d.waitCount ≤ 0) : o.waits = false ∧ o.data.waitCount ≤ 0 := by
  rcases ho with rfl | rfl
  · change d.barriorWait.waits = false ∧ d.barriorWait.data.waitCount ≤ 0
    have hcome : d.come.waitCount ≤ 0 := by
      change d.waitCount - 1 ≤ 0
      omega
    rw [barriorWait_of_ne (by omega), loop_of_not_pos hcome]
    exact ⟨rfl, hcome⟩
  · change d.loop.waits = false ∧ d.loop.data.waitCount ≤ 0
    rw [loop_of_not_pos hd]
    exact ⟨rfl, hd⟩

/-! ## Runs -/

/-- The threads that wait have to, and the count is what is missing. -/
structure Inv (n : ℤ) (s : State Barrior Unit T) : Prop where
  blocked : Blocked (threads T) (fun _ d => 0 < d.waitCount) s
  counts : Counts n s.data

omit [DecidableEq T] [Fintype T] in
theorem inv_start (n : ℤ) : Inv n (start n : State Barrior Unit T) :=
  ⟨⟨nofun, nofun, nofun⟩, (Int.sub_zero n).symm, fun _ => rfl⟩

/-- **One step.** -/
theorem Inv.step {e : Event Unit T} (I : Inv n s) (h : (threads T).step s e = some s') : Inv n s' := by
  refine ⟨I.blocked.step wakes h, ?_⟩
  rcases step_cases h with ⟨t, k, -, -, ⟨-, rfl⟩ | ⟨-, rfl⟩⟩ | ⟨t, u, k, o, -, L⟩ | ⟨t, k, -, -, rfl⟩
  · exact I.counts
  · exact I.counts
  · rw [L.data]
    rcases L.section with rfl | rfl
    · exact I.counts.barriorWait
    · exact I.counts.loop
  · exact I.counts

theorem Inv.synchronises (I : Inv n s) : Synchronises n s := by
  have hcount := I.counts.waitCount
  refine ⟨fun hless => I.counts.left (by omega), fun hle ts hnodup hts => ?_⟩
  have hdata : s.data.waitCount ≤ 0 := by omega
  have O : Open (fun d => d.waitCount ≤ 0) s := by
    refine ⟨hdata, fun t => ?_⟩
    cases hplace : s.place t with
    | waiting k => exact absurd (I.blocked.blocks t k hplace) (Int.not_lt.mpr hdata)
    | out | entered k | woken k => rfl
  obtain ⟨s', hs', hplace⟩ := O.leave passes hnodup fun t ht => (hts t).mp ht
  refine ⟨s', hs', fun t => ?_⟩
  rw [hplace]
  split_ifs with ht
  · rfl
  · by_contra hout
    exact ht ((hts t).mpr hout)

/-- **The barrier synchronises** in every state that any number of threads reach in any order of
steps, with threads woken for no reason too. -/
theorem barrior_synchronises (n : ℤ) (s : State Barrior Unit T)
    (hs : Reaches (threads T).step (fun _ _ => True) (start n) s) : Synchronises n s :=
  (Reaches.invariant (fun _ _ _ I _ h => I.step h) (inv_start n) hs).synchronises

/-- Two threads meet, one of which is woken too early. -/
def meeting : List (Event Unit Bool) :=
  [.call false (), .lock false none, .spurious false, .call true (), .lock false none, .lock true none]

theorem barrior_synchronises_meeting : ∃ s, exec (threads Bool).step (start 2) meeting = some s ∧
    s.data.left = 1 ∧ s.place false = .woken () ∧ Synchronises 2 s := by
  obtain ⟨s, hs, hleft, hplace⟩ : ∃ s, exec (threads Bool).step (start 2) meeting = some s ∧
      s.data.left = 1 ∧ s.place false = .woken () := exists_exec (by decide)
  exact ⟨s, hs, hleft, hplace,
    barrior_synchronises 2 s (reaches_of_exec hs (by decide))⟩

end Barrior

end Kendylib
