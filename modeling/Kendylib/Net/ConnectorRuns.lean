import Kendylib.Foundations.Run
import Kendylib.Net.ConnectorRequests

/-!
# Runs of the connector

A run calls `connector_connect` and `connector_run`, in any order and with any results of the
system. A call of `connector_run` that has not come to an end with the rounds that are given ends
the run.

The connector refuses a request when it waits for `FD_SETSIZE` others, but it is the descriptor that
`FD_SET` takes for an index. So the requests are accounted for exactly as long as the descriptors of
those that are taken over are small (`answered_iff_fits`).
-/

namespace Kendylib.Connecting

open Exec

variable {c c' c₁ : Connector} {i : ℕ} {r : Round}

/-! ## Rounds -/

/-- The scan of the first round goes through all requests. -/
theorem selectAndScan_first (h : Inv [] c) (htotal : r.total > 0) :
    ∃ c', selectAndScan 0 c r = .ok c' ∧ Passed (fun pc => select r c.set pc.realFd)
      PendingConnect.sock { c with set := select r c.set } c.pendingConnect [] c' := by
  rw [selectAndScan, if_pos htotal, Nat.sub_zero]
  exact scan_passed (h.set _) (by simp)

/-- In a later round the counter is at the end, and nothing is scanned. -/
theorem selectAndScan_later (hi : c.pendingConnect.length ≤ i) :
    selectAndScan i c r = .ok { c with set := select r c.set } := by
  rw [selectAndScan, Nat.sub_eq_zero_of_le hi]
  split_ifs <;> rfl

theorem selectAndScan_inv (h : Inv [] c) (i : ℕ) (r : Round) :
    ∃ c', selectAndScan i c r = .ok c' ∧ Inv [] c' := by
  by_cases htotal : r.total > 0
  · let size := c.pendingConnect.length
    have hlength : (c.pendingConnect.take (size - i)).length = size - i := by
      rw [List.length_take]
      exact Nat.min_eq_left (Nat.sub_le size i)
    obtain ⟨c', hscan, hpassed⟩ :=
      scan_passed (h.set (select r c.set)) (List.take_append_drop (size - i) c.pendingConnect).symm
    rw [hlength] at hscan
    rw [selectAndScan, if_pos htotal]
    exact ⟨c', hscan, hpassed.inv⟩
  · rw [selectAndScan, if_neg htotal]
    exact ⟨_, rfl, h.set _⟩

theorem checkAll_passed (h : Inv [] c) (r : Round) :
    ∃ c', checkAll c r = .ok (c.pendingConnect.length, c') ∧
      Passed (fun pc => pc.timeout ≤ getSystemMs r.checkedAt) (fun _ => -1) { c with set := fdZero }
        c.pendingConnect [] c' := by
  obtain ⟨c', hcheck, hpassed⟩ :=
    checkTimeouts_passed (getSystemMs r.checkedAt) (h.set fdZero) (List.append_nil _).symm
  refine ⟨c', ?_, hpassed⟩
  unfold checkAll
  simp only [hcheck, Exec.ok_bind, Exec.pure_eq]

/-- The loop keeps the invariant, whatever the rounds do. -/
theorem runLoop_inv (h : Inv [] c) (timeout i : ℕ) (rounds : List Round) :
    (∃ c', runLoop timeout i c rounds = .ok c' ∧ Inv [] c') ∨
      runLoop timeout i c rounds = .error .fuel := by
  induction rounds generalizing c i with
  | nil =>
    rw [runLoop]
    split_ifs
    · exact .inl ⟨c, rfl, h⟩
    · exact .inr rfl
  | cons r rounds ih =>
    obtain ⟨c₁, hscan, h₁⟩ := selectAndScan_inv h i r
    obtain ⟨c₂, hcheck, h₂⟩ := checkAll_passed h₁ r
    rw [runLoop]
    by_cases hempty : c.pendingConnect.length = 0
    · rw [if_pos hempty]
      exact .inl ⟨c, rfl, h⟩
    · rw [if_neg hempty, hscan, Exec.ok_bind, hcheck, Exec.ok_bind]
      split_ifs
      · exact ih h₂.inv _
      · exact .inl ⟨c₂, rfl, h₂.inv⟩

/-! ## Runs -/

inductive Op
  | connect (call : Connect)
  | run (now ms : ℕ) (rounds : List Round)

def step (c : Connector) : Op → Exec Connector
  | .connect call => .ok (connectorConnect c call).1
  | .run now ms rounds => connectorRun c now ms rounds

/-- The requests that `connector_run` has room for have descriptors that fit into an `fd_set`. -/
def Op.Fits (c : Connector) : Op → Prop
  | .connect _ => True
  | .run _ _ _ => ∀ pc ∈ c.externPendingConnect.take (fdSetSize - c.fdSeisize),
      pc.realFd < fdSetSize

/-- Each request that has been accepted has been answered once and is in no list, or it has not been
answered and is in one of the lists. The connector counts those that it waits for. -/
def Answered (c : Connector) : Prop :=
  (∀ k < c.accepted.length,
    timesAnswered c k = 1 ∧ timesIn c.pendingConnect k = 0 ∧ timesIn c.externPendingConnect k = 0 ∨
      timesAnswered c k = 0 ∧ timesIn c.pendingConnect k + timesIn c.externPendingConnect k = 1) ∧
    c.fdSeisize = c.pendingConnect.length

theorem Inv.answered (h : Inv [] c) : Answered c := by
  refine ⟨fun k hk => ?_, h.size⟩
  have hcount := h.accounted.count k
  rw [if_pos hk, timesIn_nil] at hcount
  omega

/-- The list that is taken over is empty afterwards. -/
theorem Inv.swap (h : Inv [] c) :
    Inv c.externPendingConnect { c with externPendingConnect := [] } := by
  refine ⟨⟨fun k => ?_, fun pc hpc => h.accounted.recorded pc ?_⟩, h.size, h.small, h.fits⟩
  · have hk := h.accounted.count k
    rw [timesIn_nil] at hk
    rw [timesIn_nil]
    change timesAnswered c k + timesIn c.externPendingConnect k + timesIn c.pendingConnect k + 0 =
      if k < c.accepted.length then 1 else 0
    omega
  · rcases hpc with hpc | hpc | hpc
    · exact .inr (.inr hpc)
    · exact .inr (.inl hpc)
    · cases hpc

theorem connect_inv (h : Inv [] c) (call : Connect) : Inv [] (connectorConnect c call).1 :=
  h.of_calls (connectorConnect_calls c call)

/-- **`connector_run`** keeps the invariant if the descriptors fit. -/
theorem connectorRun_inv (h : Inv [] c) {now ms : ℕ} {rounds : List Round}
    (hfits : (Op.run now ms rounds).Fits c) :
    (∃ c', connectorRun c now ms rounds = .ok c' ∧ Inv [] c') ∨
      connectorRun c now ms rounds = .error .fuel := by
  obtain ⟨c', htake, h'⟩ := takeOver_inv h.swap hfits
  have hrun : connectorRun c now ms rounds =
      runLoop (add32 (getSystemMs now) ms) 0 c' rounds := by
    rw [connectorRun]
    exact congrArg (· >>= fun c => runLoop _ 0 c rounds) htake
  rw [hrun]
  exact runLoop_inv h' _ 0 rounds

theorem connectorRun_faults {now ms : ℕ} {rounds : List Round}
    (hfits : ¬ (Op.run now ms rounds).Fits c) :
    connectorRun c now ms rounds = .error .outOfBounds := by
  have htake : takeOver { c with externPendingConnect := [] } c.externPendingConnect =
      .error .outOfBounds := takeOver_faults hfits
  rw [connectorRun]
  exact congrArg (· >>= fun c => runLoop _ 0 c rounds) htake

/-- **Each request that has been accepted has always been answered exactly once or waits in exactly
one list, and no call accesses memory outside an `fd_set`, exactly if the descriptors of the
requests that are taken over are below `FD_SETSIZE`.** -/
theorem answered_iff_fits (ops : List Op) :
    Always step Answered connectorCreate ops ∧
        FaultsOnly step (fun _ _ f => f = .fuel) connectorCreate ops ↔
      BeforeEach step (fun c op => op.Fits c) connectorCreate ops := by
  refine safe_iff_beforeEach (fun c h => h.answered) (fun c op h hfits => ?_)
    (fun c op h hfits => ?_) inv_create
  · cases op with
    | connect call => exact connect_inv h call
    | run now ms rounds =>
      rcases connectorRun_inv h hfits with ⟨c', hrun, h'⟩ | hrun
      · rw [step, hrun]
        exact h'
      · rw [step, hrun]
  · cases op with
    | connect call => exact absurd trivial hfits
    | run now ms rounds =>
      rw [step, connectorRun_faults hfits]
      exact fun h => by cases h

/-- A socket with the descriptor `1024`. -/
theorem answered_overflow :
    ¬ (Always step Answered connectorCreate
          [.connect (.call 7 1 0 (-1) 1024 0 1000 []), .run 0 10 []] ∧
        FaultsOnly step (fun _ _ f => f = .fuel) connectorCreate
          [.connect (.call 7 1 0 (-1) 1024 0 1000 []), .run 0 10 []]) := by
  rintro ⟨-, hfaults⟩
  have hfuel : Fault.outOfBounds = Fault.fuel := hfaults
  cases hfuel

end Kendylib.Connecting
