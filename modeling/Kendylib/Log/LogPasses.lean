import Kendylib.Foundations.Run
import Kendylib.Log.LogSystemRuns

/-!
# The passes of the worker

One log, into which threads write records while the worker calls `write_to_file(l, 0)` again and
again. A pass takes the queue, hands pieces of the packets to `writev` until none is left, and ends;
in between further records may be queued. Each `writev` takes any number of bytes from one to all
that it is given.

When a pass has ended, the file has the records that the passes have taken, one behind the other,
and `pending_log` is empty (`passes_deliver`). A pass never gets stuck: while packets are left,
`writev` is given at least one byte. -/

namespace Kendylib.Log

open Exec

/-- A log, and whether the worker is in the loop of `write_to_file`. `queued` are the records in
`log_queue` and `taken` those that were in it when a pass took it, in order; nothing reads them. -/
structure Passes where
  log : LogFile
  writing : Bool
  queued : List Record
  taken : List Record

inductive PassEvent
  /-- The locked section of `log_write`. -/
  | logWrite (r : Record)
  /-- A pass begins: the locked section of `write_to_file`. -/
  | take
  /-- A round of the loop, in which `writev` takes `n` bytes. -/
  | writev (n : ℕ)
  /-- The loop finds `pending_log` empty. -/
  | finish

namespace Passes

/-- A new log. -/
def start : Passes := ⟨⟨[], [], []⟩, false, [], []⟩

def step (s : Passes) : PassEvent → Exec Passes
  | .logWrite r => .ok
    { s with
      log := { s.log with logQueue := s.log.logQueue ++ [createPacket r] }
      queued := s.queued ++ [r] }
  | .take => .ok ⟨s.log.takeQueue, true, [], s.taken ++ s.queued⟩
  | .writev n => do return { s with log := ← s.log.write n }
  | .finish => .ok { s with writing := false }

/-- The events that can happen: a `writev` takes at least one byte and at most all it is given. -/
def Enabled (s : Passes) : PassEvent → Prop
  | .logWrite _ => True
  | .take => s.writing = false
  | .writev n => s.writing = true ∧ s.log.pendingLog ≠ [] ∧
      1 ≤ n ∧ n ≤ (prepareWrite s.log).flatten.length
  | .finish => s.writing = true ∧ s.log.pendingLog = []

/-- Between two passes the file has the records that the passes have taken, and nothing is pending.
During a pass the file has the first bytes of them, and the next `writev` is given something. -/
structure Delivers (s : Passes) : Prop where
  ended : s.writing = false → s.log.pendingLog = [] ∧ s.log.file = s.taken.flatMap Subtype.val
  started : s.log.file <+: s.taken.flatMap Subtype.val
  progress : s.log.pendingLog ≠ [] → 1 ≤ (prepareWrite s.log).flatten.length

/-- The packets hold what is queued, and what has been taken and is not in the file. -/
structure Inv (s : Passes) : Prop where
  queue : s.log.logQueue = s.queued.map createPacket
  waiting : ∀ w ∈ s.log.pendingLog, w.Waiting ∧ w.bufs.length ≤ 1
  bytes : s.log.file ++ s.log.pendingLog.flatMap Packet.bytes = s.taken.flatMap Subtype.val
  ended : s.writing = false → s.log.pendingLog = []

end Passes

variable {w w' : Packet} {ws ws' : List Packet} {fuel n : ℕ}

/-! ## Progress -/

/-- `on_write_finish` adds no buffer to a packet. -/
theorem consume_bufs (h : consume fuel w n = .ok w') : w'.bufs.length ≤ w.bufs.length := by
  induction fuel generalizing w n with
  | zero =>
    cases n with
    | zero =>
      obtain rfl := Except.ok.inj h
      exact le_rfl
    | succ n => cases h
  | succ fuel ih =>
    obtain ⟨beginPos, dataSize, bufs⟩ := w
    cases n with
    | zero =>
      obtain rfl : ⟨beginPos, dataSize, bufs⟩ = w' := by simpa [consume] using h
      exact le_rfl
    | succ n =>
      cases bufs with
      | nil => cases h
      | cons b bufs =>
        rw [consume] at h
        refine (ih h).trans ?_
        split
        · exact Nat.le_succ _
        · exact le_rfl

theorem onWriteFinish_bufs (hws : ∀ w ∈ ws, w.bufs.length ≤ 1) (h : onWriteFinish ws n = .ok ws') :
    ∀ w ∈ ws', w.bufs.length ≤ 1 := by
  induction ws generalizing n with
  | nil =>
    cases n with
    | zero =>
      obtain rfl : [] = ws' := by simpa [onWriteFinish] using h
      exact hws
    | succ n => cases h
  | cons w ws ih =>
    cases n with
    | zero =>
      obtain rfl : w :: ws = ws' := by simpa [onWriteFinish] using h
      exact hws
    | succ n =>
      rw [onWriteFinish] at h
      split at h
      · exact ih (fun v hv => hws v (List.mem_cons_of_mem w hv)) h
      · obtain ⟨w', hw', hrest⟩ := Exec.bind_eq_ok.mp h
        obtain rfl : w' :: ws = ws' := Except.ok.inj hrest
        intro v hv
        rcases List.mem_cons.mp hv with rfl | hv
        · exact (consume_bufs hw').trans (hws w List.mem_cons_self)
        · exact hws v (List.mem_cons_of_mem w hv)

theorem length_prepareBuffers_le (bufs : List (List UInt8)) (pos size room : ℕ) :
    (prepareBuffers bufs pos size room).length ≤ bufs.length := by
  induction bufs generalizing pos size room with
  | nil => exact le_rfl
  | cons b bufs ih =>
    rw [prepareBuffers]
    split
    · exact Nat.zero_le _
    · exact Nat.succ_le_succ (ih 0 _ _)

/-- A packet with one buffer is handed to `writev` whole. -/
theorem preparePackets_pos (hw : w.Waiting) (hbufs : w.bufs.length ≤ 1) {room : ℕ}
    (hroom : 1 < room) : 1 ≤ (preparePackets (w :: ws) room).flatten.length := by
  obtain ⟨-, -, hall⟩ := prepareBuffers_spec w.bufs w.beginPos w.dataSize room hw.size hw.first
  have hle := length_prepareBuffers_le w.bufs w.beginPos w.dataSize room
  have hbytes := hall.resolve_left (by omega)
  have hlen : (w.bufs.flatten.drop w.beginPos).length = w.dataSize := hw.length_bytes
  have hpos := hw.dataSize_pos
  rw [preparePackets, if_neg (by omega)]
  simp only [List.flatten_append, List.length_append, hbytes, hlen]
  omega

namespace Passes

variable {s : Passes} {e : PassEvent}

theorem Inv.delivers (h : Inv s) : Delivers s := by
  refine ⟨fun hend => ?_, ⟨_, h.bytes⟩, fun hne => ?_⟩
  · have hnil := h.ended hend
    have hbytes := h.bytes
    rw [hnil, List.flatMap_nil, List.append_nil] at hbytes
    exact ⟨hnil, hbytes⟩
  · obtain ⟨w, ws, hws⟩ := List.exists_cons_of_ne_nil hne
    obtain ⟨hw, hbufs⟩ := h.waiting w (hws ▸ List.mem_cons_self)
    rw [prepareWrite, hws]
    exact preparePackets_pos hw hbufs (by decide)

theorem start_inv : Inv start := ⟨rfl, by simp [start], rfl, fun _ => rfl⟩

/-- The packets of new records. -/
theorem waiting_map (rs : List Record) :
    ∀ w ∈ rs.map createPacket, w.Waiting ∧ w.bufs.length ≤ 1 := by
  intro w hw
  obtain ⟨r, -, rfl⟩ := List.mem_map.mp hw
  exact ⟨createPacket_waiting r, le_rfl⟩

theorem Inv.take (h : Inv s) : Inv ⟨s.log.takeQueue, true, [], s.taken ++ s.queued⟩ := by
  have hpending : s.log.takeQueue.pendingLog = s.log.pendingLog ++ s.queued.map createPacket := by
    rw [LogFile.takeQueue, h.queue]
  refine ⟨rfl, fun w hw => ?_, ?_, by simp⟩
  · rw [hpending] at hw
    rcases List.mem_append.mp hw with hw | hw
    · exact h.waiting w hw
    · exact waiting_map s.queued w hw
  · change s.log.file ++ s.log.takeQueue.pendingLog.flatMap Packet.bytes = _
    rw [hpending, List.flatMap_append, ← List.append_assoc, h.bytes, map_createPacket_bytes,
      List.flatMap_append]

/-- **A round of the loop** does not fail, and moves bytes from the packets to the file. -/
theorem Inv.writev (h : Inv s) (hwriting : s.writing = true)
    (hn : n ≤ (prepareWrite s.log).flatten.length) :
    ∃ l, s.log.write n = .ok l ∧ Inv { s with log := l } := by
  obtain ⟨l, hl, hwaiting, hqueue, hbytes⟩ := LogFile.write_spec (fun w hw => (h.waiting w hw).1) hn
  refine ⟨l, hl, hqueue.trans h.queue, fun w hw => ⟨hwaiting w hw, ?_⟩, hbytes.trans h.bytes,
    fun hend => ?_⟩
  · obtain ⟨ws, hws, hok⟩ := Exec.bind_eq_ok.mp hl
    obtain rfl := Except.ok.inj hok
    exact onWriteFinish_bufs (fun v hv => (h.waiting v hv).2) hws w hw
  · have hend : s.writing = false := hend
    rw [hwriting] at hend
    cases hend

theorem step_inv (h : Inv s) (he : Enabled s e) : ∃ s', step s e = .ok s' ∧ Inv s' := by
  cases e with
  | logWrite r =>
    refine ⟨_, rfl, ?_, h.waiting, h.bytes, h.ended⟩
    simp [h.queue]
  | take => exact ⟨_, rfl, h.take⟩
  | writev n =>
    obtain ⟨hwriting, -, -, hn⟩ := he
    obtain ⟨l, hl, hinv⟩ := h.writev hwriting hn
    exact ⟨_, by rw [step, hl]; rfl, hinv⟩
  | finish => exact ⟨_, rfl, h.queue, h.waiting, h.bytes, fun _ => he.2⟩

/-- **The file of a log is the records that the passes have taken from its queue, in order, whenever
a pass has ended.** In every run, however few bytes each `writev` takes and whenever records are
queued; no assertion fails, and no pass gets stuck. -/
theorem passes_deliver {events : List PassEvent} (h : BeforeEach step Enabled start events) :
    Always step Delivers start events ∧ FaultsOnly step (fun _ _ _ => False) start events :=
  always_of_beforeEach (fun _ hs => hs.delivers) (fun _ _ hs he => step_inv hs he) start_inv h

/-- A record is queued while the first pass is writing; the second pass writes it in two pieces. -/
theorem passes_deliver_two :
    Always step Delivers start
        [.logWrite ⟨[65], by decide⟩, .take, .logWrite ⟨[66, 67], by decide⟩, .writev 1, .finish,
          .take, .writev 1, .writev 1, .finish] ∧
      FaultsOnly step (fun _ _ _ => False) start
        [.logWrite ⟨[65], by decide⟩, .take, .logWrite ⟨[66, 67], by decide⟩, .writev 1, .finish,
          .take, .writev 1, .writev 1, .finish] := by
  refine passes_deliver (.cons trivial rfl (.cons rfl rfl (.cons trivial rfl (.cons ?_ rfl
    (.cons ⟨rfl, rfl⟩ rfl (.cons rfl rfl (.cons ?_ rfl (.cons ?_ rfl
      (.cons ⟨rfl, rfl⟩ rfl trivial)))))))))
  · exact ⟨rfl, List.cons_ne_nil _ _, by decide, by decide⟩
  · exact ⟨rfl, List.cons_ne_nil _ _, by decide, by decide⟩
  · exact ⟨rfl, List.cons_ne_nil _ _, by decide, by decide⟩

/-- **Every pass ends**: a pass that has begun makes at most as many rounds as there are bytes to
write. -/
theorem writevs_le (h : Inv s) {ns : List ℕ}
    (hns : BeforeEach step Enabled s (ns.map PassEvent.writev)) :
    ns.length ≤ (s.log.pendingLog.flatMap Packet.bytes).length := by
  induction ns generalizing s with
  | nil => exact Nat.zero_le _
  | cons n ns ih =>
    obtain ⟨⟨hwriting, -, hpos, hn⟩, hrest⟩ := hns
    obtain ⟨l, hl, hinv⟩ := h.writev hwriting hn
    have hstep : step s (.writev n) = .ok { s with log := l } := by
      rw [step, hl]
      rfl
    rw [hstep] at hrest
    have hle : ns.length ≤ (l.pendingLog.flatMap Packet.bytes).length := ih hinv hrest
    have hbytes := congrArg List.length (hinv.bytes.trans h.bytes.symm)
    have hfile : l.file = s.log.file ++ (prepareWrite s.log).flatten.take n := by
      obtain ⟨ws, -, hok⟩ := Exec.bind_eq_ok.mp hl
      exact congrArg LogFile.file (Except.ok.inj hok).symm
    simp only [hfile, List.length_append, List.length_take, Nat.min_eq_left hn] at hbytes
    rw [List.length_cons]
    omega

end Passes

end Kendylib.Log
