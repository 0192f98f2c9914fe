import Kendylib.Net.Connector
import Mathlib.Data.List.Count

/-!
# The requests of the connector

The requests are numbered in the order in which they are accepted. The invariant (`Inv`) is that
each of them has been answered once or waits in one place, that the connector counts those that it
waits for, and that their descriptors fit into an `fd_set`. The callbacks of the requests keep it
(`Calls`), and so does each part of `connector_run`.

A scan and a check of the timeouts go once through the requests that the connector waits for: those
that are answered leave, and the others come behind in the same order (`Passed`).
-/

namespace Kendylib.Connecting

/-! ## Where the requests are -/

/-- How often a request has been answered. -/
def timesAnswered (c : Connector) (k : ℕ) : ℕ := (c.answers.map Answer.request).count k

/-- How often a request is in a list. -/
def timesIn (l : List PendingConnect) (k : ℕ) : ℕ := (l.map PendingConnect.request).count k

/-- What the connector has noted down about a request that waits. -/
def Recorded (c : Connector) (pc : PendingConnect) : Prop :=
  0 ≤ pc.sock ∧ ∃ r, c.accepted[pc.request]? = some r ∧
    pc.timeout = add32 (getSystemMs r.start) r.ms

/-- Each request that has been accepted has been answered or waits: in one of the lists of the
connector, or among those in hand. -/
structure Accounted (l : List PendingConnect) (c : Connector) : Prop where
  count : ∀ k, timesAnswered c k + timesIn l k + timesIn c.pendingConnect k +
    timesIn c.externPendingConnect k = if k < c.accepted.length then 1 else 0
  recorded : ∀ pc, pc ∈ l ∨ pc ∈ c.pendingConnect ∨ pc ∈ c.externPendingConnect → Recorded c pc

variable {c c' c₁ : Connector} {l rest todo kept : List PendingConnect} {pc : PendingConnect}
  {k : ℕ} {handle : ℤ} {r : Request}

@[simp] theorem timesIn_nil : timesIn [] k = 0 := rfl

@[simp] theorem timesIn_cons :
    timesIn (pc :: l) k = timesIn l k + if pc.request = k then 1 else 0 := by
  simp [timesIn, List.count_cons]

@[simp] theorem timesIn_append : timesIn (l ++ rest) k = timesIn l k + timesIn rest k := by
  simp [timesIn]

@[simp] theorem timesAnswered_answer : timesAnswered (c.answer pc.request handle) k =
    timesAnswered c k + if pc.request = k then 1 else 0 := by
  simp [timesAnswered, Connector.answer, List.count_cons]

theorem timesIn_pos (h : pc ∈ l) : 0 < timesIn l pc.request :=
  List.count_pos_iff.mpr (List.mem_map_of_mem h)

theorem timesAnswered_pos (h : ⟨k, handle⟩ ∈ c.answers) : 0 < timesAnswered c k :=
  List.count_pos_iff.mpr (List.mem_map_of_mem (f := Answer.request) h)

theorem Recorded.mono (h : Recorded c pc) (hc : c.accepted <+: c'.accepted) : Recorded c' pc := by
  obtain ⟨hsock, r, hr, htimeout⟩ := h
  obtain ⟨more, hmore⟩ := hc
  refine ⟨hsock, r, ?_, htimeout⟩
  rw [← hmore]
  exact (List.getElem?_append_left (List.getElem?_eq_some_iff.mp hr).1).trans hr

theorem Accounted.answer (h : Accounted (pc :: l) c) (handle : ℤ) :
    Accounted l (c.answer pc.request handle) := by
  refine ⟨fun k => ?_, fun q hq => ?_⟩
  · have hk := h.count k
    rw [timesIn_cons] at hk
    rw [timesAnswered_answer]
    change _ + timesIn c.pendingConnect k + timesIn c.externPendingConnect k =
      if k < c.accepted.length then 1 else 0
    omega
  · exact h.recorded q (hq.imp_left (List.mem_cons_of_mem pc))

theorem Accounted.fdSeisize (h : Accounted l c) (n : ℕ) : Accounted l { c with fdSeisize := n } :=
  ⟨h.count, h.recorded⟩

/-- The first request that the connector waits for is taken in hand. -/
theorem Accounted.pop (h : Accounted l c) (hpending : c.pendingConnect = pc :: rest) :
    Accounted (pc :: l) { c with pendingConnect := rest } := by
  refine ⟨fun k => ?_, fun q hq => h.recorded q ?_⟩
  · have hk := h.count k
    rw [hpending, timesIn_cons] at hk
    rw [timesIn_cons]
    change timesAnswered c k + _ + timesIn rest k + timesIn c.externPendingConnect k =
      if k < c.accepted.length then 1 else 0
    omega
  · rw [hpending, List.mem_cons]
    rcases hq with hq | hq | hq
    · rcases List.mem_cons.mp hq with rfl | hq
      · exact .inr (.inl (.inl rfl))
      · exact .inl hq
    · exact .inr (.inl (.inr hq))
    · exact .inr (.inr hq)

/-- The connector waits for the request in hand. -/
theorem Accounted.push (h : Accounted (pc :: l) c) :
    Accounted l { c with pendingConnect := c.pendingConnect ++ [pc] } := by
  refine ⟨fun k => ?_, fun q hq => h.recorded q ?_⟩
  · have hk := h.count k
    rw [timesIn_cons] at hk
    rw [timesIn_append, timesIn_cons, timesIn_nil]
    change timesAnswered c k + _ + (timesIn c.pendingConnect k + _) +
      timesIn c.externPendingConnect k = if k < c.accepted.length then 1 else 0
    omega
  · rcases hq with hq | hq | hq
    · exact .inl (List.mem_cons_of_mem pc hq)
    · rcases List.mem_append.mp hq with hq | hq
      · exact .inr (.inl hq)
      · rw [List.mem_singleton.mp hq]
        exact .inl List.mem_cons_self
    · exact .inr (.inr hq)

/-! ## Callbacks -/

/-- What a callback does to a connector: it may accept requests, and answer these. -/
structure Calls (c c' : Connector) : Prop where
  set : c'.set = c.set
  pendingConnect : c'.pendingConnect = c.pendingConnect
  fdSeisize : c'.fdSeisize = c.fdSeisize
  accepted : c.accepted <+: c'.accepted
  answers : c.answers <+: c'.answers
  accounted : ∀ l, Accounted l c → Accounted l c'

theorem Calls.refl (c : Connector) : Calls c c :=
  ⟨rfl, rfl, rfl, List.prefix_rfl, List.prefix_rfl, fun _ h => h⟩

theorem Calls.trans (h : Calls c c₁) (h' : Calls c₁ c') : Calls c c' :=
  ⟨h'.set.trans h.set, h'.pendingConnect.trans h.pendingConnect, h'.fdSeisize.trans h.fdSeisize,
    h.accepted.trans h'.accepted, h.answers.trans h'.answers,
    fun l hl => h'.accounted l (h.accounted l hl)⟩

/-- A new request, which is in hand at first. -/
theorem Accounted.accept (h : Accounted l c) (hsock : 0 ≤ pc.sock)
    (hrequest : pc.request = c.accepted.length)
    (htimeout : pc.timeout = add32 (getSystemMs r.start) r.ms) :
    Accounted (pc :: l) (c.accept r) := by
  have hprefix : c.accepted <+: (c.accept r).accepted := List.prefix_append _ _
  refine ⟨fun k => ?_, fun q hq => ?_⟩
  · have hk := h.count k
    rw [timesIn_cons, hrequest]
    change timesAnswered c k + _ + timesIn c.pendingConnect k + timesIn c.externPendingConnect k =
      if k < (c.accepted ++ [r]).length then 1 else 0
    rw [List.length_append, List.length_singleton]
    split_ifs at hk ⊢ <;> omega
  · rcases hq with hq | hq
    · rcases List.mem_cons.mp hq with rfl | hq
      · exact ⟨hsock, r, by simp [Connector.accept, hrequest], htimeout⟩
      · exact (h.recorded q (.inl hq)).mono hprefix
    · exact (h.recorded q (.inr hq)).mono hprefix

theorem Accounted.pushExtern (h : Accounted (pc :: l) c) : Accounted l (c.pushExtern pc) := by
  refine ⟨fun k => ?_, fun q hq => h.recorded q ?_⟩
  · have hk := h.count k
    rw [timesIn_cons] at hk
    change timesAnswered c k + timesIn l k + timesIn c.pendingConnect k +
      timesIn (c.externPendingConnect ++ [pc]) k = if k < c.accepted.length then 1 else 0
    rw [timesIn_append, timesIn_cons, timesIn_nil]
    omega
  · rcases hq with hq | hq | hq
    · exact .inl (List.mem_cons_of_mem pc hq)
    · exact .inr (.inl hq)
    · rcases List.mem_append.mp hq with hq | hq
      · exact .inr (.inr hq)
      · rw [List.mem_singleton.mp hq]
        exact .inl List.mem_cons_self

mutual

/-- **`connector_connect`** accepts a request at most, which it answers or puts into the list. -/
theorem connectorConnect_calls (c : Connector) :
    (call : Connect) → Calls c (connectorConnect c call).1
  | .call sock inetPton setNonblock connected realFd now ms callBack => by
    rw [connectorConnect]
    split_ifs with hsock hpton hblock hconnected
    · exact .refl c
    · exact .refl c
    · exact .refl c
    · let pc : PendingConnect :=
        ⟨c.accepted.length, sock, realFd, callBack, add32 (getSystemMs now) ms⟩
      have hanswer : Calls c ((c.accept ⟨now, ms⟩).answer c.accepted.length sock) := by
        refine ⟨rfl, rfl, rfl, List.prefix_append _ _, List.prefix_append _ _, fun l hl => ?_⟩
        have haccept : Accounted (pc :: l) (c.accept ⟨now, ms⟩) :=
          hl.accept (not_lt.mp hsock) rfl rfl
        exact haccept.answer sock
      exact hanswer.trans (runCallBack_calls _ callBack)
    · exact ⟨rfl, rfl, rfl, List.prefix_append _ _, List.prefix_rfl, fun l hl =>
        (hl.accept (not_lt.mp hsock) rfl rfl).pushExtern⟩

theorem runCallBack_calls (c : Connector) : (calls : List Connect) → Calls c (runCallBack c calls)
  | [] => by
    rw [runCallBack]
    exact .refl c
  | call :: calls => by
    rw [runCallBack]
    exact (connectorConnect_calls c call).trans (runCallBack_calls _ calls)

end

/-- **The callback of a request** that is in hand answers it. -/
theorem callBack_calls (c : Connector) (pc : PendingConnect) (handle : ℤ) :
    Calls (c.answer pc.request handle) (c.callBack pc handle) :=
  runCallBack_calls _ pc.callBack

/-! ## The invariant -/

/-- Each request is accounted for; those that the connector waits for are counted, and their
descriptors fit into a set. -/
structure Inv (l : List PendingConnect) (c : Connector) : Prop where
  accounted : Accounted l c
  size : c.fdSeisize = c.pendingConnect.length
  small : c.pendingConnect.length ≤ fdSetSize
  fits : ∀ pc ∈ c.pendingConnect, pc.realFd < fdSetSize

theorem inv_create : Inv [] connectorCreate :=
  ⟨⟨fun _ => rfl, by simp [connectorCreate]⟩, rfl, by simp [connectorCreate],
    by simp [connectorCreate]⟩

theorem Inv.of_calls (h : Inv l c) (hc : Calls c c') : Inv l c' := by
  refine ⟨hc.accounted l h.accounted, ?_, ?_, ?_⟩
  · rw [hc.fdSeisize, hc.pendingConnect, h.size]
  · rw [hc.pendingConnect]
    exact h.small
  · rw [hc.pendingConnect]
    exact h.fits

theorem Inv.answer (h : Inv (pc :: l) c) (handle : ℤ) : Inv l (c.answer pc.request handle) :=
  ⟨h.accounted.answer handle, h.size, h.small, h.fits⟩

theorem Inv.set (h : Inv l c) (set : FdSet) : Inv l { c with set := set } :=
  ⟨⟨h.accounted.count, h.accounted.recorded⟩, h.size, h.small, h.fits⟩

/-- **The requests are taken over**, as far as there is room; the others are refused. -/
theorem takeOver_inv (h : Inv l c)
    (hfits : ∀ pc ∈ l.take (fdSetSize - c.fdSeisize), pc.realFd < fdSetSize) :
    ∃ c', takeOver c l = .ok c' ∧ Inv [] c' := by
  induction l generalizing c with
  | nil => exact ⟨c, rfl, h⟩
  | cons pc l ih =>
    rw [takeOver]
    split_ifs with hfull
    · have hcalls := callBack_calls c pc (-1)
      refine ih ((h.answer (-1)).of_calls hcalls) ?_
      have hzero : fdSetSize - (c.callBack pc (-1)).fdSeisize = 0 := by
        rw [hcalls.fdSeisize]
        exact Nat.sub_eq_zero_of_le hfull
      simp [hzero]
    · have hsize := h.size
      have hroom : fdSetSize - c.fdSeisize = fdSetSize - (c.fdSeisize + 1) + 1 := by omega
      rw [hroom, List.take_succ_cons] at hfits
      have hadd : add32 c.fdSeisize 1 = c.fdSeisize + 1 :=
        add32_of_lt (by simp only [fdSetSize] at hfull; omega)
      have hpc : pc.realFd < fdSetSize := hfits pc List.mem_cons_self
      rw [fdSet, if_pos hpc, Exec.ok_bind, hadd]
      refine ih ⟨⟨h.accounted.push.count, h.accounted.push.recorded⟩, ?_, ?_, fun q hq => ?_⟩ ?_
      · simp [hsize]
      · simp only [List.length_append, List.length_singleton]
        omega
      · rcases List.mem_append.mp hq with hq | hq
        · exact h.fits q hq
        · rw [List.mem_singleton.mp hq]
          exact hpc
      · exact fun q hq => hfits q (List.mem_cons_of_mem pc hq)

/-- A descriptor that does not fit into the set ends the run. -/
theorem takeOver_faults
    (hfits : ¬ ∀ pc ∈ l.take (fdSetSize - c.fdSeisize), pc.realFd < fdSetSize) :
    takeOver c l = .error .outOfBounds := by
  induction l generalizing c with
  | nil => simp at hfits
  | cons pc l ih =>
    have hfull : ¬ c.fdSeisize ≥ fdSetSize := fun hfull => by
      rw [Nat.sub_eq_zero_of_le hfull] at hfits
      simp at hfits
    have hroom : fdSetSize - c.fdSeisize = fdSetSize - (c.fdSeisize + 1) + 1 := by omega
    have hadd : add32 c.fdSeisize 1 = c.fdSeisize + 1 :=
      add32_of_lt (by simp only [fdSetSize] at hfull; omega)
    rw [takeOver, if_neg hfull, fdSet]
    split_ifs with hpc
    · rw [Exec.ok_bind, hadd]
      refine ih fun hrest => hfits ?_
      rw [hroom, List.take_succ_cons]
      exact List.forall_mem_cons.mpr ⟨hpc, hrest⟩
    · rfl

/-! ## Going through the requests -/

/-- The connector after a pass through the requests `todo`: those in `out` have been answered with
the handle they are to get, and the others come behind those that have been kept before. -/
structure Passed (out : PendingConnect → Bool) (handle : PendingConnect → ℤ) (c : Connector)
    (todo kept : List PendingConnect) (c' : Connector) : Prop where
  inv : Inv [] c'
  pendingConnect : c'.pendingConnect = kept ++ todo.filter (!out ·)
  accepted : c.accepted <+: c'.accepted
  answers : c.answers <+: c'.answers
  answered : ∀ pc ∈ todo, out pc → ⟨pc.request, handle pc⟩ ∈ c'.answers

/-- The connector after a request has left, which it has answered. -/
structure Left (c : Connector) (pc : PendingConnect) (handle : ℤ) (rest : List PendingConnect)
    (c' : Connector) : Prop where
  inv : Inv [] c'
  set : c'.set = c.set
  pendingConnect : c'.pendingConnect = rest
  accepted : c.accepted <+: c'.accepted
  answers : c.answers <+: c'.answers
  answered : ⟨pc.request, handle⟩ ∈ c'.answers

/-- **The first request leaves.** -/
theorem left_callBack (h : Inv [] c) (hpending : c.pendingConnect = pc :: rest) (handle : ℤ) :
    Left c pc handle rest { ({ c with pendingConnect := rest } : Connector).callBack pc handle with
      fdSeisize := sub32 (({ c with pendingConnect := rest } : Connector).callBack pc
        handle).fdSeisize 1 } := by
  have hcalls := callBack_calls { c with pendingConnect := rest } pc handle
  have haccounted := hcalls.accounted [] ((h.accounted.pop hpending).answer handle)
  have hsize := h.size
  have hsmall := h.small
  have hlast : (⟨pc.request, handle⟩ : Answer) ∈
      (({ c with pendingConnect := rest } : Connector).answer pc.request handle).answers := by
    simp [Connector.answer]
  rw [hpending, List.length_cons] at hsize hsmall
  refine ⟨⟨haccounted.fdSeisize _, ?_, ?_, ?_⟩, hcalls.set, hcalls.pendingConnect,
    hcalls.accepted, (List.prefix_append _ _).trans hcalls.answers, hcalls.answers.subset hlast⟩
  · simp only [hcalls.fdSeisize, hcalls.pendingConnect, Connector.answer]
    rw [hsize, sub32_of_le (by omega) (by simp only [fdSetSize] at hsmall; omega)]
    rfl
  · simp only [hcalls.pendingConnect, Connector.answer]
    omega
  · simp only [hcalls.pendingConnect, Connector.answer]
    exact fun q hq => h.fits q (hpending ▸ List.mem_cons_of_mem pc hq)

/-- **The first request comes behind the others.** -/
theorem inv_rotate (h : Inv [] c) (hpending : c.pendingConnect = pc :: rest) :
    Inv [] { c with pendingConnect := rest ++ [pc] } := by
  have hpush := (h.accounted.pop hpending).push
  have hperm : (rest ++ [pc]).Perm c.pendingConnect := hpending ▸ List.perm_append_singleton pc rest
  refine ⟨⟨hpush.count, hpush.recorded⟩, ?_, ?_, fun q hq => h.fits q (hperm.subset hq)⟩
  · exact h.size.trans hperm.length_eq.symm
  · exact hperm.length_eq.trans_le h.small

variable {out : PendingConnect → Bool} {handles : PendingConnect → ℤ}

theorem Passed.leave (h : Left c pc (handles pc) (todo ++ kept) c₁)
    (hout : out pc) (h' : Passed out handles c₁ todo kept c') :
    Passed out handles c (pc :: todo) kept c' := by
  refine ⟨h'.inv, ?_, h.accepted.trans h'.accepted, h.answers.trans h'.answers, ?_⟩
  · rw [h'.pendingConnect, List.filter_cons_of_neg (by simp [hout])]
  · rw [List.forall_mem_cons]
    exact ⟨fun _ => h'.answers.subset h.answered, h'.answered⟩

theorem Passed.stay (hout : ¬ out pc) (h' : Passed out handles c₁ todo (kept ++ [pc]) c')
    (haccepted : c₁.accepted = c.accepted) (hanswers : c₁.answers = c.answers) :
    Passed out handles c (pc :: todo) kept c' := by
  refine ⟨h'.inv, ?_, haccepted ▸ h'.accepted, hanswers ▸ h'.answers, ?_⟩
  · rw [h'.pendingConnect, List.filter_cons_of_pos (by simpa using hout)]
    simp
  · rw [List.forall_mem_cons]
    exact ⟨fun h => absurd h hout, h'.answered⟩

/-- **The scan** answers the requests whose descriptor is in the set. -/
theorem scan_passed (h : Inv [] c) (hpending : c.pendingConnect = todo ++ kept) :
    ∃ c', scan c todo.length = .ok c' ∧
      Passed (fun pc => c.set pc.realFd) PendingConnect.sock c todo kept c' := by
  induction todo generalizing c kept with
  | nil =>
    exact ⟨c, rfl, h, by simpa using hpending, List.prefix_rfl, List.prefix_rfl, by simp⟩
  | cons pc todo ih =>
    have hpc : pc.realFd < fdSetSize := h.fits pc (by simp [hpending])
    rw [List.length_cons, scan, hpending]
    dsimp only [List.cons_append]
    rw [fdIsset, if_pos hpc, Exec.ok_bind]
    split_ifs with hset
    · have hleft := left_callBack h hpending pc.sock
      obtain ⟨c', hscan, hpassed⟩ := ih hleft.inv hleft.pendingConnect
      rw [hleft.set] at hpassed
      exact ⟨c', hscan, .leave hleft hset hpassed⟩
    · have hrotate := inv_rotate h hpending
      obtain ⟨c', hscan, hpassed⟩ := @ih _ (kept ++ [pc]) hrotate (by simp)
      exact ⟨c', hscan, .stay hset hpassed rfl rfl⟩

/-- **The check of the timeouts** answers the requests that have run out of time with `-1`. -/
theorem checkTimeouts_passed (tick : ℕ) (h : Inv [] c)
    (hpending : c.pendingConnect = todo ++ kept) :
    ∃ c', checkTimeouts tick c todo.length = .ok c' ∧
      Passed (fun pc => pc.timeout ≤ tick) (fun _ => -1) c todo kept c' := by
  induction todo generalizing c kept with
  | nil =>
    exact ⟨c, rfl, h, by simpa using hpending, List.prefix_rfl, List.prefix_rfl, by simp⟩
  | cons pc todo ih =>
    have hpc : pc.realFd < fdSetSize := h.fits pc (by simp [hpending])
    rw [List.length_cons, checkTimeouts, hpending]
    dsimp only [List.cons_append]
    split_ifs with htimeout
    · have hleft := left_callBack h hpending (-1)
      obtain ⟨c', hcheck, hpassed⟩ := ih hleft.inv hleft.pendingConnect
      exact ⟨c', hcheck, .leave hleft (by simpa using htimeout) hpassed⟩
    · rw [fdSet, if_pos hpc, Exec.ok_bind]
      have hrotate := (inv_rotate h hpending).set (Function.update c.set pc.realFd true)
      obtain ⟨c', hcheck, hpassed⟩ := @ih _ (kept ++ [pc]) hrotate (by simp)
      exact ⟨c', hcheck, .stay (by simpa using htimeout) hpassed rfl rfl⟩

end Kendylib.Connecting
