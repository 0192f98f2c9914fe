import Kendylib.Log.LogSystem

/-!
# Closing the log

`close_log_system` waits for the worker, and the worker writes all that it takes from the queues
before it exits. What a thread pushes after the worker has taken the queue of the log for the last
time stays in the queue, and `destroy_log` drops it: the thread has read `is_close` before it was set,
and `log_write` returns 0 (`not_delivered_stalled`). If every push comes before the worker takes the
queue of its log for the last time, every record is in its file when `close_log_system` returns
(`delivered_of_timely`); what is pushed after that is not written (`file_of_taken`).
-/

namespace Kendylib.Log

open Interleaving

variable {n : ℕ} {T : Type} {s s' : System n T} {e : Event n T} {l : Fin n} {f : LogFile}
  {acc : List Record} {P Q : Prop}

/-- When `close_log_system` has returned, the file of every log is a sequence of records with all
the accepted ones among them, in their order. -/
def Delivered (s : System n T) : Prop :=
  s.closer = .returned → ∀ l, ∃ records : List Record,
    (s.log l).file = records.flatMap Subtype.val ∧ (s.accepted l).Sublist records

/-- The worker has taken the queue of the log for the last time. -/
def Worker.Taken : Worker n → Fin n → Prop
  | .enter true l rest, l' => l' ∉ l :: rest
  | .write true _ rest, l' => l' ∉ rest
  | .exited, _ => True
  | _, _ => False

/-- A record is pushed before the worker takes the queue of its log for the last time. -/
def Timely (s : System n T) : Event n T → Prop
  | .push t =>
    match s.writer t with
    | some (l, _) => ¬ s.worker.Taken l
    | none => True
  | _ => True

instance : (w : Worker n) → (l : Fin n) → Decidable (w.Taken l)
  | .test, _ | .enter false _ _, _ | .write false _ _, _ => isFalse id
  | .enter true l rest, l' => inferInstanceAs (Decidable (l' ∉ l :: rest))
  | .write true _ rest, l' => inferInstanceAs (Decidable (l' ∉ rest))
  | .exited, _ => isTrue trivial

instance (s : System n T) : (e : Event n T) → Decidable (Timely s e)
  | .push t =>
    match h : s.writer t with
    | some (l, _) => decidable_of_iff (¬ s.worker.Taken l) (by rw [Timely, h])
    | none => isTrue (by rw [Timely, h]; trivial)
  | .begin _ _ _ | .test | .take _ | .write _ | .next | .close | .join | .destroy | .free =>
    isTrue trivial

/-! ## What a log has of the accepted records -/

/-- The accepted records are in the file, in the packets to write or in the queue, in this order; the
queue is empty if the worker is done with it. -/
def LogFile.Holds (f : LogFile) (acc : List Record) (taken : Prop) : Prop :=
  ∃ records queued : List Record,
    f.file ++ f.pendingLog.flatMap Packet.bytes = records.flatMap Subtype.val ∧
    f.logQueue = queued.map createPacket ∧ acc.Sublist (records ++ queued) ∧
    (∀ w ∈ f.pendingLog, w.Waiting) ∧ (taken → queued = [])

theorem map_createPacket_bytes (rs : List Record) :
    (rs.map createPacket).flatMap Packet.bytes = rs.flatMap Subtype.val := by
  rw [List.flatMap_map]
  exact List.flatMap_congr fun r _ => createPacket_bytes r

namespace LogFile.Holds

theorem mono (H : f.Holds acc P) (h : Q → P) : f.Holds acc Q := by
  obtain ⟨records, queued, hbytes, hqueue, hacc, hwait, htaken⟩ := H
  exact ⟨records, queued, hbytes, hqueue, hacc, hwait, fun hq => htaken (h hq)⟩

theorem push (H : f.Holds acc P) (hP : ¬ P) (r : Record) :
    LogFile.Holds { f with logQueue := f.logQueue ++ [createPacket r] } (acc ++ [r]) P := by
  obtain ⟨records, queued, hbytes, hqueue, hacc, hwait, -⟩ := H
  refine ⟨records, queued ++ [r], hbytes, ?_, ?_, hwait, fun h => absurd h hP⟩
  · rw [hqueue, List.map_append, List.map_singleton]
  · rw [← List.append_assoc]
    exact hacc.append (List.Sublist.refl [r])

theorem takeQueue (H : f.Holds acc P) : f.takeQueue.Holds acc Q := by
  obtain ⟨records, queued, hbytes, hqueue, hacc, hwait, -⟩ := H
  refine ⟨records ++ queued, [], ?_, rfl, by rwa [List.append_nil], ?_, fun _ => rfl⟩
  · rw [LogFile.takeQueue, List.flatMap_append, ← List.append_assoc, hbytes, hqueue,
      map_createPacket_bytes, List.flatMap_append]
  · intro w hw
    rcases List.mem_append.mp hw with hw | hw
    · exact hwait w hw
    · rw [hqueue] at hw
      obtain ⟨r, -, rfl⟩ := List.mem_map.mp hw
      exact createPacket_waiting r

theorem takeRecords (H : f.Holds acc P) (isClose : Bool) (message : Record) :
    (takeRecords f isClose message).Holds acc Q := by
  obtain ⟨records, queued, hbytes, hqueue, hacc, hwait, htaken⟩ := H.takeQueue (Q := True)
  obtain rfl := htaken trivial
  rw [List.append_nil] at hacc
  rw [Log.takeRecords]
  cases isClose with
  | false =>
    exact ⟨records, [], hbytes, hqueue, by rwa [List.append_nil], hwait, fun _ => rfl⟩
  | true =>
    refine ⟨records ++ [message], [], ?_, hqueue, ?_, ?_, fun _ => rfl⟩
    · simp only [if_true, List.flatMap_append, List.flatMap_singleton, createPacket_bytes]
      rw [← List.append_assoc, hbytes]
    · rw [List.append_nil]
      exact hacc.trans (List.sublist_append_left ..)
    · intro w hw
      rcases List.mem_append.mp hw with hw | hw
      · exact hwait w hw
      · rw [List.mem_singleton.mp hw]
        exact createPacket_waiting message

/-- **A write keeps the records**, and none of its assertions fails. -/
theorem write (H : f.Holds acc P) {k : ℕ} (hk : k ≤ (prepareWrite f).flatten.length) :
    ∃ f', f.write k = .ok f' ∧ f'.Holds acc P := by
  obtain ⟨records, queued, hbytes, hqueue, hacc, hwait, htaken⟩ := H
  obtain ⟨f', hwrite, hwait', hqueue', hbytes'⟩ := f.write_spec hwait hk
  exact ⟨f', hwrite, records, queued, hbytes'.trans hbytes, hqueue'.trans hqueue, hacc, hwait',
    htaken⟩

theorem destroyLog (H : f.Holds acc P) (hP : P) : (destroyLog f).Holds acc P := by
  obtain ⟨records, queued, hbytes, -, hacc, hwait, htaken⟩ := H
  obtain rfl := htaken hP
  exact ⟨records, [], hbytes, rfl, hacc, hwait, htaken⟩

end LogFile.Holds

/-! ## The invariant -/

/-- The log whose packets the worker writes. -/
def Worker.writes : Worker n → Option (Fin n)
  | .write _ l _ => some l
  | _ => none

/-- The logs hold the accepted records, and only the one the worker writes has packets to write. The
logs are all there while the worker runs, and `close_log_system` destroys them after that. -/
structure Inv (s : System n T) : Prop where
  holds : ∀ l, (s.log l).Holds (s.accepted l) (s.worker.Taken l)
  written : ∀ l, s.worker.writes ≠ some l → (s.log l).pendingLog = []
  present : s.worker ≠ .exited → ∀ l, l ∈ s.logFiles
  joined : s.closer = .destroys ∨ s.closer = .returned → s.worker = .exited

theorem start_inv : Inv (start : System n T) where
  holds _ := ⟨[], [], rfl, rfl, List.nil_sublist _, by simp [start], fun _ => rfl⟩
  written _ _ := rfl
  present _ := List.mem_finRange
  joined h := by simp [start] at h

theorem Inv.delivered (I : Inv s) : Delivered s := by
  intro hreturned l
  have hexited := I.joined (.inr hreturned)
  obtain ⟨records, queued, hbytes, -, hacc, -, htaken⟩ := I.holds l
  rw [hexited] at htaken
  obtain rfl := htaken trivial
  rw [I.written l (by rw [hexited]; exact nofun), List.flatMap_nil, List.append_nil] at hbytes
  rw [List.append_nil] at hacc
  exact ⟨records, hbytes, hacc⟩

/-! ## The places of the worker -/

@[simp] theorem taken_enter {b : Bool} {l l' : Fin n} {rest : List (Fin n)} :
    (Worker.enter b l rest).Taken l' ↔ b = true ∧ l' ∉ l :: rest := by
  cases b <;> simp [Worker.Taken]

@[simp] theorem taken_write {b : Bool} {l l' : Fin n} {rest : List (Fin n)} :
    (Worker.write b l rest).Taken l' ↔ b = true ∧ l' ∉ rest := by
  cases b <;> simp [Worker.Taken]

@[simp] theorem taken_walk {b : Bool} {l : Fin n} {rest : List (Fin n)} :
    (walk b rest).Taken l ↔ b = true ∧ l ∉ rest := by
  cases rest with
  | nil => cases b <;> simp [walk, Worker.Taken]
  | cons l' rest => rw [walk, taken_enter]

@[simp] theorem writes_walk {b : Bool} {rest : List (Fin n)} : (walk b rest).writes = none := by
  cases rest with
  | nil => cases b <;> rfl
  | cons l rest => rfl

/-! ## One event -/

/-- An event that changes one log. -/
theorem Inv.at_log (I : Inv s) (l : Fin n)
    (hothers : ∀ l', l' ≠ l → s'.log l' = s.log l' ∧ s'.accepted l' = s.accepted l' ∧
      (s'.worker.Taken l' → s.worker.Taken l') ∧
      (s'.worker.writes ≠ some l' → s.worker.writes ≠ some l'))
    (hholds : (s'.log l).Holds (s'.accepted l) (s'.worker.Taken l))
    (hwritten : s'.worker.writes ≠ some l → (s'.log l).pendingLog = [])
    (hpresent : s'.worker ≠ .exited → ∀ l, l ∈ s'.logFiles)
    (hjoined : s'.closer = .destroys ∨ s'.closer = .returned → s'.worker = .exited) : Inv s' := by
  refine ⟨fun l' => ?_, fun l' hw => ?_, hpresent, hjoined⟩
  · by_cases hl : l' = l
    · rwa [hl]
    · obtain ⟨hlog, hacc, htaken, -⟩ := hothers l' hl
      rw [hlog, hacc]
      exact (I.holds l').mono htaken
  · by_cases hl : l' = l
    · rw [hl] at hw ⊢
      exact hwritten hw
    · obtain ⟨hlog, -, -, hwrites⟩ := hothers l' hl
      rw [hlog]
      exact I.written l' (hwrites hw)

/-- A log that the worker sets anew, at its place. -/
theorem Inv.setLog (I : Inv s) (hholds : f.Holds (s.accepted l) (s.worker.Taken l))
    (hwritten : s.worker.writes ≠ some l → f.pendingLog = []) : Inv (s.setLog l f) := by
  refine I.at_log l (fun l' hl => ⟨Function.update_of_ne hl _ _, rfl, id, id⟩) ?_ ?_ I.present I.joined
  · simp only [System.setLog, Function.update_self]
    exact hholds
  · simp only [System.setLog, Function.update_self]
    exact hwritten

theorem step_inv [DecidableEq T] (I : Inv s) (ht : Timely s e) (h : step s e = some s') : Inv s' := by
  cases e with
  | begin t l r =>
    rw [step] at h
    split at h
    · obtain rfl := Option.some.inj h
      split
      · exact I
      · exact ⟨I.holds, I.written, I.present, I.joined⟩
    · cases h
  | push t =>
    rw [step] at h
    split at h
    · rename_i l r hwriter
      split at h
      · obtain rfl := Option.some.inj h
        have htaken : ¬ s.worker.Taken l := by simpa only [Timely, hwriter] using ht
        refine I.at_log l (fun l' hl => ?_) ?_ ?_ I.present I.joined
        · exact ⟨Function.update_of_ne hl _ _, Function.update_of_ne hl _ _, id, id⟩
        · simp only [pushRecord, System.setLog, Function.update_self]
          exact (I.holds l).push htaken r
        · simp only [pushRecord, System.setLog, Function.update_self]
          exact I.written l
      · cases h
    · cases h
  | test =>
    rw [step] at h
    split at h
    · rename_i hworker
      obtain rfl := Option.some.inj h
      have hall : ∀ l, l ∈ s.logFiles := I.present (by rw [hworker]; exact nofun)
      refine ⟨fun l => (I.holds l).mono fun htaken => ?_, fun l _ => I.written l ?_, fun _ => hall,
        fun hclosed => ?_⟩
      · exact absurd (hall l) (taken_walk.mp htaken).2
      · rw [hworker]
        exact nofun
      · have := I.joined hclosed
        rw [hworker] at this
        cases this
    · cases h
  | take message =>
    rw [step] at h
    split at h
    · rename_i isClose l rest hworker
      obtain rfl := Option.some.inj h
      have hrunning : s.worker ≠ .exited := by rw [hworker]; exact nofun
      refine I.at_log l (fun l' hl => ⟨Function.update_of_ne hl _ _, rfl, ?_, ?_⟩) ?_ ?_
        (fun _ => I.present hrunning) fun hclosed => absurd (I.joined hclosed) hrunning
      · rw [hworker, taken_write, taken_enter]
        exact fun ⟨hb, hrest⟩ => ⟨hb, List.not_mem_cons_of_ne_of_not_mem hl hrest⟩
      · rw [hworker]
        exact fun _ => nofun
      · simp only [System.setLog, Function.update_self]
        exact (I.holds l).takeRecords isClose message
      · exact fun hw => absurd rfl hw
    · cases h
  | write k =>
    rw [step] at h
    split at h
    · rename_i isClose l rest hworker
      split at h
      · rename_i hk
        obtain ⟨f, hwrite, hholds⟩ := (I.holds l).write hk.2
        rw [hwrite] at h
        obtain rfl := Option.some.inj h
        exact I.setLog hholds fun hw => absurd (by rw [hworker]; rfl) hw
      · cases h
    · cases h
  | next =>
    rw [step] at h
    split at h
    · rename_i isClose l rest hworker
      split at h
      · rename_i hempty
        obtain rfl := Option.some.inj h
        have hrunning : s.worker ≠ .exited := by rw [hworker]; exact nofun
        refine ⟨fun l' => (I.holds l').mono fun htaken => ?_, fun l' _ => ?_,
          fun _ => I.present hrunning, fun hclosed => absurd (I.joined hclosed) hrunning⟩
        · rw [hworker, taken_write]
          exact taken_walk.mp htaken
        · by_cases hl : l' = l
          · rw [hl]
            exact List.isEmpty_iff.mp hempty
          · refine I.written l' fun hw => hl ?_
            rw [hworker] at hw
            exact (Option.some.inj hw).symm
      · cases h
    · cases h
  | close =>
    rw [step] at h
    split at h
    · obtain rfl := Option.some.inj h
      exact ⟨I.holds, I.written, I.present, fun hclosed => absurd hclosed (by simp)⟩
    · cases h
  | join =>
    rw [step] at h
    split at h
    · rename_i hworker
      obtain rfl := Option.some.inj h
      exact ⟨I.holds, I.written, I.present, fun _ => hworker⟩
    · cases h
  | destroy =>
    rw [step] at h
    split at h
    · rename_i l rest hcloser hfiles
      obtain rfl := Option.some.inj h
      have hexited := I.joined (.inl hcloser)
      have I' : Inv (s.setLog l (destroyLog (s.log l))) :=
        I.setLog ((I.holds l).destroyLog (by rw [hexited]; trivial)) (I.written l)
      exact ⟨I'.holds, I'.written, fun hw => absurd hexited hw, I'.joined⟩
    · cases h
  | free =>
    rw [step] at h
    split at h
    · rename_i hcloser hfiles
      obtain rfl := Option.some.inj h
      exact ⟨I.holds, I.written, I.present, fun _ => I.joined (.inl hcloser)⟩
    · cases h

/-- **Closing the log loses no record** that is pushed before the worker takes the queue of its log
for the last time, in any interleaving and with any number of bytes taken by each `writev`. -/
theorem delivered_of_timely [DecidableEq T]
    (h : Reaches step Timely (start : System n T) s) : Delivered s :=
  (h.invariant (fun _ _ _ I hC hstep => step_inv I hC hstep) start_inv).delivered

/-! ## What is pushed too late -/

/-- The worker is done with the queue of the log, and writes `bytes` to its file, or has. -/
structure Settled (l : Fin n) (bytes : List UInt8) (s : System n T) : Prop where
  taken : s.worker.Taken l
  waiting : ∀ w ∈ (s.log l).pendingLog, w.Waiting
  bytes : (s.log l).file ++ (s.log l).pendingLog.flatMap Packet.bytes = bytes

variable {bytes : List UInt8}

theorem Inv.settled (I : Inv s) (hl : s.worker.Taken l) :
    Settled l ((s.log l).file ++ (s.log l).pendingLog.flatMap Packet.bytes) s := by
  obtain ⟨_, _, _, _, _, hwait, _⟩ := I.holds l
  exact ⟨hl, hwait, rfl⟩

theorem Settled.congr (S : Settled l bytes s) (hl : s'.worker.Taken l)
    (hpending : (s'.log l).pendingLog = (s.log l).pendingLog)
    (hfile : (s'.log l).file = (s.log l).file) : Settled l bytes s' :=
  ⟨hl, by rw [hpending]; exact S.waiting, by rw [hpending, hfile]; exact S.bytes⟩

/-- A log of which only the queue changes. -/
theorem Settled.of_queue (S : Settled l bytes s) (hl : s'.worker.Taken l) {l' : Fin n}
    (hlog : s'.log = Function.update s.log l' f)
    (hpending : f.pendingLog = (s.log l').pendingLog) (hfile : f.file = (s.log l').file) :
    Settled l bytes s' := by
  by_cases h : l = l'
  · subst h
    exact S.congr hl (by rw [hlog, Function.update_self, hpending])
      (by rw [hlog, Function.update_self, hfile])
  · have hother : s'.log l = s.log l := by rw [hlog, Function.update_of_ne h]
    exact S.congr hl (by rw [hother]) (by rw [hother])

theorem Settled.step [DecidableEq T] (S : Settled l bytes s) (h : step s e = some s') :
    Settled l bytes s' := by
  have htaken := S.taken
  cases e with
  | begin t l' r =>
    rw [Log.step] at h
    split at h
    · obtain rfl := Option.some.inj h
      split
      · exact S
      · exact ⟨S.taken, S.waiting, S.bytes⟩
    · cases h
  | push t =>
    rw [Log.step] at h
    split at h
    · split at h
      · obtain rfl := Option.some.inj h
        exact S.of_queue htaken rfl rfl rfl
      · cases h
    · cases h
  | test =>
    rw [Log.step] at h
    split at h
    · rename_i hworker
      rw [hworker] at htaken
      exact htaken.elim
    · cases h
  | take message =>
    rw [Log.step] at h
    split at h
    · rename_i isClose l' rest hworker
      obtain rfl := Option.some.inj h
      rw [hworker, taken_enter, List.mem_cons, not_or] at htaken
      have hother : Function.update s.log l' (takeRecords (s.log l') isClose message) l = s.log l :=
        Function.update_of_ne htaken.2.1 _ _
      exact S.congr (taken_write.mpr ⟨htaken.1, htaken.2.2⟩) (by rw [← hother]; rfl)
        (by rw [← hother]; rfl)
    · cases h
  | write k =>
    rw [Log.step] at h
    split at h
    · rename_i isClose l' rest hworker
      split at h
      · rename_i hk
        by_cases hl : l = l'
        · subst hl
          obtain ⟨f, hwrite, hwait, -, hbytes⟩ := (s.log l).write_spec S.waiting hk.2
          rw [hwrite] at h
          obtain rfl := Option.some.inj h
          refine ⟨htaken, ?_, ?_⟩
          · simpa only [System.setLog, Function.update_self] using hwait
          · simpa only [System.setLog, Function.update_self] using hbytes.trans S.bytes
        · split at h
          · rename_i f hwrite
            obtain rfl := Option.some.inj h
            have hother : Function.update s.log l' f l = s.log l := Function.update_of_ne hl _ _
            exact S.congr htaken (by rw [← hother]; rfl) (by rw [← hother]; rfl)
          · cases h
      · cases h
    · cases h
  | next =>
    rw [Log.step] at h
    split at h
    · rename_i isClose l' rest hworker
      split at h
      · obtain rfl := Option.some.inj h
        rw [hworker, taken_write] at htaken
        exact S.congr (taken_walk.mpr htaken) rfl rfl
      · cases h
    · cases h
  | close =>
    rw [Log.step] at h
    split at h
    · obtain rfl := Option.some.inj h
      exact S.congr htaken rfl rfl
    · cases h
  | join =>
    rw [Log.step] at h
    split at h
    · obtain rfl := Option.some.inj h
      exact S.congr htaken rfl rfl
    · cases h
  | destroy =>
    rw [Log.step] at h
    split at h
    · obtain rfl := Option.some.inj h
      exact S.of_queue htaken rfl rfl rfl
    · cases h
  | free =>
    rw [Log.step] at h
    split at h
    · obtain rfl := Option.some.inj h
      exact S.congr htaken rfl rfl
    · cases h

/-- **A record that is pushed too late is not written**: once the worker has taken the queue of a log
for the last time, whatever is pushed, its file gets what the packets of the worker have and no
more. -/
theorem file_of_taken [DecidableEq T] (I : Inv s) (hl : s.worker.Taken l)
    (h : Reaches step (fun _ _ => True) s s') :
    (s'.log l).file <+: (s.log l).file ++ (s.log l).pendingLog.flatMap Packet.bytes := by
  have S := h.invariant (I := Settled l _) (fun _ _ _ S _ hstep => S.step hstep) (I.settled hl)
  rw [← S.bytes]
  exact List.prefix_append ..

/-! ## Runs -/

/-- A thread writes a record, and another one while the worker writes the first in two parts. -/
def timelyRun : List (Event 1 (Fin 2)) :=
  [.begin 0 0 ⟨[1, 2], by decide⟩, .begin 1 0 ⟨[3], by decide⟩, .push 0, .test,
    .take ⟨[0], by decide⟩, .write 1, .close, .push 1, .write 1, .next, .test,
    .take ⟨[0], by decide⟩, .write 2, .next, .join, .destroy, .free]

theorem delivered_two_records : ∃ s, exec step (start : System 1 (Fin 2)) timelyRun = some s ∧
    s.closer = .returned ∧ Delivered s := by
  obtain ⟨s, hs, hreturned⟩ :
      ∃ s, exec step (start : System 1 (Fin 2)) timelyRun = some s ∧ s.closer = .returned :=
    exists_exec (by decide +kernel)
  exact ⟨s, hs, hreturned, delivered_of_timely (reaches_of_exec hs (by decide +kernel))⟩

/-- A thread reads `is_close`, and pushes its record when the worker has exited. -/
def stalledRun : List (Event 1 (Fin 1)) :=
  [.begin 0 0 ⟨[1], by decide⟩, .close, .test, .take ⟨[0], by decide⟩, .write 1, .next, .push 0,
    .join, .destroy, .free]

theorem not_delivered_stalled :
    ¬ ∀ s : System 1 (Fin 1), Reaches step (fun _ _ => True) start s → Delivered s := by
  intro hall
  obtain ⟨s, hs, hreturned, hfile, hacc⟩ :
      ∃ s, exec step (start : System 1 (Fin 1)) stalledRun = some s ∧ s.closer = .returned ∧
        (s.log 0).file = [0] ∧ (s.accepted 0).map Subtype.val = [[1]] :=
    exists_exec (by decide +kernel)
  obtain ⟨records, hrecords, hsub⟩ := hall s (reaches_of_exec hs (by decide +kernel)) hreturned 0
  have hmem : (1 : UInt8) ∈ records.flatMap Subtype.val := by
    have hr : [(1 : UInt8)] ∈ records.map Subtype.val :=
      (hsub.map Subtype.val).subset (by rw [hacc]; exact List.mem_singleton.mpr rfl)
    obtain ⟨r, hr, hone⟩ := List.mem_map.mp hr
    exact List.mem_flatMap.mpr ⟨r, hr, by rw [hone]; exact List.mem_singleton.mpr rfl⟩
  rw [← hrecords, hfile] at hmem
  exact absurd hmem (by decide)

end Kendylib.Log
