import Kendylib.Net.ConnectorRuns

/-!
# The rounds of `connector_run`

Each round of the loop calls `select`, scans the requests for those whose socket is connected, and
checks the timeouts of the others. Two results are about the rounds of all calls in a run.

The counter of the scan is set to the beginning in front of the loop only. The check of the timeouts
leaves it at the end of the list, so that the scan finds nothing in any round but the first
(`reported_iff_quiet`).

The time at which a request has to be given up is compared with the clock as a number, although both
are words that wrap around. The check is right exactly if either both of them have wrapped since the
request was made, or neither (`timedOut_iff`).
-/

namespace Kendylib.Connecting

open Exec

/-- The property holds of every round that the loop begins: of the counter, of the connector, and of
what the round depends on. -/
def EachRound (P : ℕ → Connector → Round → Prop) (timeout : ℕ) :
    ℕ → Connector → List Round → Prop
  | _, _, [] => True
  | i, c, r :: rounds => c.pendingConnect.length ≠ 0 → P i c r ∧
      ∀ c₁ q, selectAndScan i c r = .ok c₁ → checkAll c₁ r = .ok q →
        getSystemMs r.endedAt < timeout → EachRound P timeout q.1 q.2 rounds

/-- The property holds of every round of a call. -/
def Op.Each (P : ℕ → Connector → Round → Prop) (c : Connector) : Op → Prop
  | .connect _ => True
  | .run now ms rounds => ∀ c', takeOver { c with externPendingConnect := [] }
      c.externPendingConnect = .ok c' → EachRound P (add32 (getSystemMs now) ms) 0 c' rounds

variable {c c' c₁ : Connector} {i : ℕ} {r : Round} {P Q : ℕ → Connector → Round → Prop}
  {op : Op} {ops : List Op}

/-- What holds at the beginning of a round: the counter is at the beginning of the list, or at its
end. -/
structure AtRound (i : ℕ) (c : Connector) : Prop where
  inv : Inv [] c
  counter : i = 0 ∨ c.pendingConnect.length ≤ i

theorem AtRound.scanned (h : AtRound i c) (hscan : selectAndScan i c r = .ok c₁) : Inv [] c₁ := by
  obtain ⟨c', hscan', h'⟩ := selectAndScan_inv h.inv i r
  obtain rfl : c₁ = c' := Except.ok.inj (hscan.symm.trans hscan')
  exact h'

theorem Inv.checked (h : Inv [] c) {q : ℕ × Connector} (hcheck : checkAll c r = .ok q) :
    q.1 = c.pendingConnect.length ∧
      Passed (fun pc => pc.timeout ≤ getSystemMs r.checkedAt) (fun _ => -1) { c with set := fdZero }
        c.pendingConnect [] q.2 := by
  obtain ⟨c', hcheck', hpassed⟩ := checkAll_passed h r
  obtain rfl : q = (c.pendingConnect.length, c') := Except.ok.inj (hcheck.symm.trans hcheck')
  exact ⟨rfl, hpassed⟩

/-- A round leaves the counter at the end. -/
theorem AtRound.next (h : AtRound i c) {q : ℕ × Connector} (hscan : selectAndScan i c r = .ok c₁)
    (hcheck : checkAll c₁ r = .ok q) : AtRound q.1 q.2 := by
  obtain ⟨hcounter, hpassed⟩ := (h.scanned hscan).checked hcheck
  refine ⟨hpassed.inv, .inr ?_⟩
  rw [hpassed.pendingConnect, List.nil_append, hcounter]
  exact List.length_filter_le ..

theorem eachRound_congr (hPQ : ∀ i c r, AtRound i c → (P i c r ↔ Q i c r)) (timeout : ℕ)
    (rounds : List Round) (h : AtRound i c) :
    EachRound P timeout i c rounds ↔ EachRound Q timeout i c rounds := by
  induction rounds generalizing i c with
  | nil => exact Iff.rfl
  | cons r rounds ih =>
    refine imp_congr_right fun _ => and_congr (hPQ i c r h) ?_
    refine forall_congr' fun c₁ => forall_congr' fun q => ?_
    refine imp_congr_right fun hscan => imp_congr_right fun hcheck => imp_congr_right fun _ => ?_
    exact ih (h.next hscan hcheck)

theorem step_inv (h : Inv [] c) (hstep : step c op = .ok c') : Inv [] c' := by
  cases op with
  | connect call =>
    obtain rfl := Except.ok.inj hstep
    exact connect_inv h call
  | run now ms rounds =>
    rw [step] at hstep
    by_cases hfits : (Op.run now ms rounds).Fits c
    · rcases connectorRun_inv h hfits with ⟨c₁, hrun, h₁⟩ | hrun
      · obtain rfl : c' = c₁ := Except.ok.inj (hstep.symm.trans hrun)
        exact h₁
      · rw [hrun] at hstep
        cases hstep
    · rw [connectorRun_faults hfits] at hstep
      cases hstep

/-- The loop begins with what has been taken over. -/
theorem atRound_takeOver (h : Inv [] c) (htake : takeOver { c with externPendingConnect := [] }
    c.externPendingConnect = .ok c') : AtRound 0 c' := by
  by_cases hfits : (Op.run 0 0 []).Fits c
  · obtain ⟨c₁, htake', h₁⟩ := takeOver_inv h.swap hfits
    obtain rfl : c' = c₁ := Except.ok.inj (htake.symm.trans htake')
    exact ⟨h₁, .inl rfl⟩
  · have hfaults : takeOver { c with externPendingConnect := [] } c.externPendingConnect =
        .error .outOfBounds := takeOver_faults hfits
    rw [hfaults] at htake
    cases htake

/-- **Two properties of rounds that are the same in every round** are the same in every run. -/
theorem each_congr (hPQ : ∀ i c r, AtRound i c → (P i c r ↔ Q i c r)) (ops : List Op) :
    BeforeEach step (fun c op => op.Each P c) connectorCreate ops ↔
      BeforeEach step (fun c op => op.Each Q c) connectorCreate ops := by
  refine beforeEach_congr (fun c op c' h hstep => step_inv h hstep) (fun c op h => ?_) inv_create
  cases op with
  | connect call => exact Iff.rfl
  | run now ms rounds =>
    refine forall_congr' fun c' => imp_congr_right fun htake => ?_
    exact eachRound_congr hPQ _ rounds (atRound_takeOver h htake)

theorem eachRound_of_atRound (hP : ∀ i c r, AtRound i c → P i c r) (timeout : ℕ)
    (rounds : List Round) (h : AtRound i c) : EachRound P timeout i c rounds := by
  induction rounds generalizing i c with
  | nil => trivial
  | cons r rounds ih =>
    exact fun _ => ⟨hP i c r h, fun c₁ q hscan hcheck _ => ih (h.next hscan hcheck)⟩

/-- **What holds in every round** holds of the rounds of every run. -/
theorem each_of_atRound (hP : ∀ i c r, AtRound i c → P i c r) (ops : List Op) :
    BeforeEach step (fun c op => op.Each P c) connectorCreate ops := by
  refine beforeEach_of_invariant (fun c op c' h hstep => step_inv h hstep) (fun c op h => ?_)
    inv_create
  cases op with
  | connect call => trivial
  | run now ms rounds =>
    exact fun c' htake => eachRound_of_atRound hP _ rounds (atRound_takeOver h htake)

/-! ## Answers -/

variable {pc : PendingConnect} {k : ℕ} {a b : ℤ}

/-- A request that the connector waits for has not been answered. -/
theorem Inv.unanswered (h : Inv [] c) (hpc : pc ∈ c.pendingConnect) :
    ⟨pc.request, a⟩ ∉ c.answers := by
  intro hanswer
  have hcount := h.accounted.count pc.request
  have hpos := timesAnswered_pos hanswer
  have hpos' := timesIn_pos hpc
  split_ifs at hcount <;> omega

/-- A request is answered with one handle. -/
theorem Inv.answers_unique (h : Inv [] c) (ha : ⟨k, a⟩ ∈ c.answers) (hb : ⟨k, b⟩ ∈ c.answers) :
    a = b := by
  have hcount := h.accounted.count k
  by_contra hne
  obtain ⟨before, after, hsplit⟩ := List.append_of_mem ha
  have hb' : ⟨k, b⟩ ∈ before ++ after := by
    rw [hsplit, List.mem_append, List.mem_cons] at hb
    rcases hb with hb | hb | hb
    · exact List.mem_append_left after hb
    · cases hb
      exact absurd rfl hne
    · exact List.mem_append_right before hb
  have hpos : 0 < ((before ++ after).map Answer.request).count k :=
    List.count_pos_iff.mpr (List.mem_map_of_mem (f := Answer.request) hb')
  simp only [timesAnswered, hsplit, List.map_append, List.map_cons, List.count_append,
    List.count_cons, beq_self_eq_true, if_true] at hcount hpos
  split_ifs at hcount <;> omega

theorem mem_drop_of_prefix {α : Type} {l l' : List α} {x : α} (h : l <+: l') (hx : x ∈ l')
    (hx' : x ∉ l) : x ∈ l'.drop l.length := by
  obtain ⟨more, rfl⟩ := h
  rw [List.drop_left]
  exact (List.mem_append.mp hx).resolve_left hx'

/-! ## Connected sockets -/

/-- If `select` finds something, every request whose descriptor it leaves in the set is answered
with its socket by the scan, and not with `-1` by the check. -/
def Reported (i : ℕ) (c : Connector) (r : Round) : Prop :=
  r.total > 0 → ∀ pc ∈ c.pendingConnect, select r c.set pc.realFd →
    ∃ c₁, selectAndScan i c r = .ok c₁ ∧
      ⟨pc.request, pc.sock⟩ ∈ c₁.answers.drop c.answers.length ∧
      ∀ q, checkAll c₁ r = .ok q → ⟨pc.request, -1⟩ ∉ q.2.answers

/-- It is the first round of the call, or `select` finds none of the requests. -/
def Quiet (i : ℕ) (c : Connector) (r : Round) : Prop :=
  i = 0 ∨ (r.total > 0 → ∀ pc ∈ c.pendingConnect, ¬ select r c.set pc.realFd)

theorem reported_iff (h : AtRound i c) : Reported i c r ↔ Quiet i c r := by
  constructor
  · intro hreported
    rcases h.counter with hi | hi
    · exact .inl hi
    · refine .inr fun htotal pc hpc hset => ?_
      obtain ⟨c₁, hscan, hanswer, -⟩ := hreported htotal pc hpc hset
      obtain rfl := Except.ok.inj ((selectAndScan_later hi).symm.trans hscan)
      simp at hanswer
  · rintro (rfl | hquiet) htotal pc hpc hset
    · obtain ⟨c₁, hscan, hpassed⟩ := selectAndScan_first h.inv htotal
      have hanswer := hpassed.answered pc hpc hset
      refine ⟨c₁, hscan, mem_drop_of_prefix hpassed.answers hanswer (h.inv.unanswered hpc), ?_⟩
      intro q hcheck hlate
      obtain ⟨-, hpassed'⟩ := hpassed.inv.checked hcheck
      have hsock : pc.sock = -1 :=
        hpassed'.inv.answers_unique (hpassed'.answers.subset hanswer) hlate
      have hnonneg := (h.inv.accounted.recorded pc (.inr (.inl hpc))).1
      omega
    · exact absurd hset (hquiet htotal pc hpc)

/-- **In every round of every call the requests whose sockets `select` finds connected are answered
with their sockets before the timeouts are checked, exactly if it finds none after the first round
of a call.** -/
theorem reported_iff_quiet (ops : List Op) :
    BeforeEach step (fun c op => op.Each Reported c) connectorCreate ops ↔
      BeforeEach step (fun c op => op.Each Quiet c) connectorCreate ops :=
  each_congr (fun _ _ _ h => reported_iff h) ops

/-- Two sockets: the first one is connected in the first round, and the second one in the second. -/
theorem reported_later :
    ¬ BeforeEach step (fun c op => op.Each Reported c) connectorCreate
      [.connect (.call 7 1 0 (-1) 3 0 1000 []), .connect (.call 8 1 0 (-1) 4 0 1000 []),
        .run 0 100 [⟨1, (· == 3), 10, 10⟩, ⟨1, (· == 4), 20, 20⟩]] := by
  rintro ⟨-, -, hrun, -⟩
  have hsecond := (hrun _ rfl (by decide)).2 _ _ rfl rfl (by decide)
  obtain ⟨c₁, hscan, hanswer, -⟩ :=
    (hsecond (by decide)).1 (by decide) _ List.mem_cons_self (by decide)
  obtain rfl := Except.ok.inj hscan
  exact absurd hanswer (by decide)

/-! ## Timeouts -/

/-- The timeouts are checked in a round while the connector waits for a request, less than `2 ^ 31`
milliseconds after the request was made. -/
structure Checked (i : ℕ) (c : Connector) (r : Round) (pc : PendingConnect) (request : Request)
    (c₁ : Connector) (q : ℕ × Connector) : Prop where
  scan : selectAndScan i c r = .ok c₁
  check : checkAll c₁ r = .ok q
  pending : pc ∈ c₁.pendingConnect
  accepted : c₁.accepted[pc.request]? = some request
  short : request.ms < 0x80000000
  later : request.start ≤ r.checkedAt
  soon : r.checkedAt < request.start + 0x80000000

/-- The property holds of every request in every check: of the request, of the time since it was
made, and of its being reported. -/
def EachCheck (P : Request → ℕ → Prop → Prop) (i : ℕ) (c : Connector) (r : Round) : Prop :=
  ∀ pc request c₁ q, Checked i c r pc request c₁ q → P request (r.checkedAt - request.start)
    (⟨pc.request, -1⟩ ∈ q.2.answers.drop c₁.answers.length)

/-- A request is reported exactly if its time is over. -/
def OnTime (request : Request) (elapsed : ℕ) (reported : Prop) : Prop :=
  reported ↔ request.ms ≤ elapsed

/-- Up to the timeout of the request the clock wraps exactly if it has wrapped up to now. -/
def WrapsAlike (request : Request) (elapsed : ℕ) : Prop :=
  getSystemMs request.start + request.ms < 0x100000000 ↔
    getSystemMs request.start + elapsed < 0x100000000

/-- The comparison of the code. -/
theorem timeout_le_iff {start ms elapsed : ℕ} (hms : ms < 0x80000000)
    (helapsed : elapsed < 0x80000000) :
    (add32 (getSystemMs start) ms ≤ getSystemMs (start + elapsed) ↔ ms ≤ elapsed) ↔
      WrapsAlike ⟨start, ms⟩ elapsed := by
  simp only [WrapsAlike, add32, getSystemMs]
  omega

/-- A request is reported if the code finds its timeout below the clock. -/
theorem reported_check {request : Request} {q : ℕ × Connector} (h : AtRound i c)
    (hc : Checked i c r pc request c₁ q) :
    ⟨pc.request, -1⟩ ∈ q.2.answers.drop c₁.answers.length ↔
      pc.timeout ≤ getSystemMs r.checkedAt := by
  have h₁ := h.scanned hc.scan
  obtain ⟨-, h₂⟩ := h₁.checked hc.check
  constructor
  · intro hanswer
    by_contra hlate
    have hpending : pc ∈ q.2.pendingConnect := by
      rw [h₂.pendingConnect]
      simpa using ⟨hc.pending, not_le.mp hlate⟩
    exact h₂.inv.unanswered hpending (List.mem_of_mem_drop hanswer)
  · intro htimeout
    have hanswer := h₂.answered pc hc.pending (by simpa using htimeout)
    exact mem_drop_of_prefix h₂.answers hanswer (h₁.unanswered hc.pending)

/-- **In every check of the timeouts a request that the connector waits for is reported exactly if
its time is over, exactly if its timeout and the clock have both wrapped or both not.** -/
theorem timedOut_iff (ops : List Op) :
    BeforeEach step (fun c op => op.Each (EachCheck fun request elapsed reported =>
      OnTime request elapsed reported ↔ WrapsAlike request elapsed) c) connectorCreate ops := by
  refine each_of_atRound (fun i c r h pc request c₁ q hc => ?_) ops
  have h₁ := h.scanned hc.scan
  obtain ⟨-, request', hrequest, htimeout⟩ := h₁.accounted.recorded pc (.inr (.inl hc.pending))
  obtain rfl : request = request' := Option.some.inj (hc.accepted.symm.trans hrequest)
  obtain ⟨elapsed, helapsed⟩ := Nat.exists_eq_add_of_le hc.later
  have hsoon := hc.soon
  change OnTime request _ _ ↔ WrapsAlike request _
  rw [OnTime, reported_check h hc, htimeout, helapsed, Nat.add_sub_cancel_left]
  exact timeout_le_iff hc.short (by omega)

/-- A request that may take two seconds, made one second before the clock wraps: it is given up
after a millisecond. -/
theorem timedOut_early :
    ¬ BeforeEach step (fun c op => op.Each (EachCheck OnTime) c) connectorCreate
      [.connect (.call 7 1 0 (-1) 3 4294966296 2000 []),
        .run 4294966296 10 [⟨0, fdZero, 4294966297, 4294966297⟩]] := by
  rintro ⟨-, hrun, -⟩
  have hround := (hrun _ rfl (by decide)).1
  have hcheck := hround _ ⟨4294966296, 2000⟩ _ _
    ⟨rfl, rfl, List.mem_cons_self, rfl, by decide, by decide, by decide⟩
  exact absurd (hcheck.mp (by decide)) (by decide)

end Kendylib.Connecting
