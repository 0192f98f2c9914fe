import Kendylib.Foundations.Exec
import Mathlib.Data.List.Infix

/-!
# The file of a log

`prepare_write` and `on_write_finish` of `src/log.c`, and what `write_to_file` does with them: it hands
up to `max_write_buf` pieces of the packets in `pending_log` to `writev`, which takes some of their
bytes, and drops as many from the packets. A packet is read as its bytes here, buffer by buffer, since
the packets of a log are its own and nobody writes to them again.

However many bytes a `writev` takes, they are the next bytes of the packets, and `on_write_finish`
leaves the packets with the bytes after them (`LogFile.write_spec`).
-/

namespace Kendylib.Log

/-- A record as `log_write` formats it, into 4096 bytes with a zero at the end. -/
abbrev Record := {bs : List UInt8 // bs ≠ [] ∧ bs.length < 4096}

/-- A `struct wpacket` that waits to be written. The buffers are their first `size` bytes. -/
structure Packet where
  beginPos : ℕ
  dataSize : ℕ
  bufs : List (List UInt8)

/-- `wpacket_create` and `wpacket_write_binary` of a record: a raw packet with room for all of it. -/
def createPacket (r : Record) : Packet := ⟨0, r.1.length, [r.1]⟩

/-- A `log_t`. `file` is what has been written to the file descriptor. -/
structure LogFile where
  logQueue : List Packet
  pendingLog : List Packet
  file : List UInt8

/-- `max_write_buf`. -/
def maxWriteBuf : ℕ := 1024

/-- The inner loop of `prepare_write`: the pieces of one packet, with room for `room` of them. -/
def prepareBuffers : List (List UInt8) → ℕ → ℕ → ℕ → List (List UInt8)
  | [], _, _, _ => []
  | b :: bufs, pos, bufferSize, room =>
    if room = 0 ∨ bufferSize = 0 then []
    else
      let size := min (b.length - pos) bufferSize
      (b.drop pos).take size :: prepareBuffers bufs 0 (bufferSize - size) (room - 1)

/-- The outer loop of `prepare_write`. -/
def preparePackets : List Packet → ℕ → List (List UInt8)
  | [], _ => []
  | w :: ws, room =>
    if room = 0 then []
    else
      let iovs := prepareBuffers w.bufs w.beginPos w.dataSize room
      iovs ++ preparePackets ws (room - iovs.length)

/-- `prepare_write`, as the bytes of the `iovec`s. -/
def prepareWrite (l : LogFile) : List (List UInt8) := preparePackets l.pendingLog maxWriteBuf

/-- The inner loop of `on_write_finish`. -/
def consume : ℕ → Packet → ℕ → Exec Packet
  | _, w, 0 => .ok w
  | 0, _, _ + 1 => .error .fuel
  | _ + 1, ⟨_, _, []⟩, _ + 1 => .error .nullPointer
  | fuel + 1, ⟨beginPos, dataSize, b :: bufs⟩, n + 1 =>
    let size := min (b.length - beginPos) (n + 1)
    consume fuel
      (if b.length ≤ beginPos + size then ⟨0, dataSize - size, bufs⟩
        else ⟨beginPos + size, dataSize - size, b :: bufs⟩)
      (n + 1 - size)

/-- `on_write_finish`: the packets left in `pending_log`. -/
def onWriteFinish : List Packet → ℕ → Exec (List Packet)
  | ws, 0 => .ok ws
  | [], _ + 1 => .error .assertion
  | w :: ws, n + 1 =>
    if w.dataSize ≤ n + 1 then onWriteFinish ws (n + 1 - w.dataSize)
    else do
      let w ← consume (w.bufs.length + 1) w (n + 1)
      return w :: ws

/-- The section of `write_to_file` under the mutex of the log, with `link_list_swap`. -/
def LogFile.takeQueue (l : LogFile) : LogFile :=
  { l with pendingLog := l.pendingLog ++ l.logQueue, logQueue := [] }

/-- A round of `write_to_file` in which `writev` takes `n` bytes. -/
def LogFile.write (l : LogFile) (n : ℕ) : Exec LogFile := do
  let ws ← onWriteFinish l.pendingLog n
  return { l with pendingLog := ws, file := l.file ++ (prepareWrite l).flatten.take n }

/-! ## The bytes that wait -/

/-- The bytes of a packet that are not written. -/
def Packet.bytes (w : Packet) : List UInt8 := w.bufs.flatten.drop w.beginPos

/-- The packet has bytes to write, from a place in its first buffer on. -/
structure Packet.Waiting (w : Packet) : Prop where
  dataSize_pos : 0 < w.dataSize
  size : w.beginPos + w.dataSize = w.bufs.flatten.length
  first : ∀ b ∈ w.bufs.head?, w.beginPos ≤ b.length

variable {w : Packet} {ws : List Packet} {r : Record} {n : ℕ}

theorem createPacket_bytes (r : Record) : (createPacket r).bytes = r.1 := by
  simp [createPacket, Packet.bytes]

theorem createPacket_waiting (r : Record) : (createPacket r).Waiting :=
  ⟨List.length_pos_of_ne_nil r.2.1, by simp [createPacket], by simp [createPacket]⟩

namespace Packet.Waiting

theorem length_bytes (W : w.Waiting) : w.bytes.length = w.dataSize := by
  rw [bytes, List.length_drop, ← W.size, Nat.add_sub_cancel_left]

theorem exists_cons (W : w.Waiting) :
    ∃ b bufs, w.bufs = b :: bufs ∧ w.beginPos ≤ b.length := by
  cases hb : w.bufs with
  | nil =>
    have hsize := W.size
    have := W.dataSize_pos
    rw [hb, List.flatten_nil, List.length_nil] at hsize
    omega
  | cons b bufs => exact ⟨b, bufs, rfl, W.first b (by rw [hb]; rfl)⟩

end Packet.Waiting

/-! ## What `writev` is given -/

/-- The pieces of a packet are its first bytes, and all of them unless there is no more room. -/
theorem prepareBuffers_spec (bufs : List (List UInt8)) (pos size room : ℕ)
    (hsize : pos + size = bufs.flatten.length) (hpos : ∀ b ∈ bufs.head?, pos ≤ b.length) :
    let iovs := prepareBuffers bufs pos size room
    iovs.flatten <+: bufs.flatten.drop pos ∧ iovs.length ≤ room ∧
      (iovs.length = room ∨ iovs.flatten = bufs.flatten.drop pos) := by
  induction bufs generalizing pos size room with
  | nil => simp [prepareBuffers]
  | cons b bufs ih =>
    rw [prepareBuffers]
    by_cases hstop : room = 0 ∨ size = 0
    · rw [if_pos hstop]
      refine ⟨List.nil_prefix, Nat.zero_le _, hstop.imp Eq.symm fun h => ?_⟩
      rw [List.drop_of_length_le (by omega), List.flatten_nil]
    · rw [if_neg hstop, not_or] at *
      have hb : pos ≤ b.length := hpos b rfl
      rw [List.flatten_cons, List.length_append] at hsize
      have hmin : min (b.length - pos) size = b.length - pos := by omega
      have htake : (b.drop pos).take (b.length - pos) = b.drop pos :=
        List.take_of_length_le (List.length_drop ..).le
      obtain ⟨hpieces, hroom, hall⟩ := ih 0 (size - (b.length - pos)) (room - 1) (by omega)
        fun _ _ => Nat.zero_le _
      rw [List.drop_zero] at hpieces hall
      simp only [hmin, htake, List.flatten_cons, List.length_cons,
        List.drop_append_of_le_length hb]
      refine ⟨(List.prefix_append_right_inj _).mpr hpieces, by omega, hall.imp (by omega) ?_⟩
      exact fun h => by rw [h]

/-- **The pieces are the next bytes.** -/
theorem preparePackets_prefix (hws : ∀ w ∈ ws, w.Waiting) (room : ℕ) :
    (preparePackets ws room).flatten <+: ws.flatMap Packet.bytes := by
  induction ws generalizing room with
  | nil => exact List.nil_prefix
  | cons w ws ih =>
    have W : w.Waiting := hws w List.mem_cons_self
    rw [preparePackets]
    split
    · exact List.nil_prefix
    · obtain ⟨hpieces, hroom, hall⟩ := prepareBuffers_spec w.bufs w.beginPos w.dataSize room
        W.size W.first
      rw [List.flatten_append, List.flatMap_cons]
      rcases hall with hfull | hall
      · have hnone : ∀ ws, preparePackets ws 0 = [] := by
          rintro (_ | _) <;> rfl
        rw [hfull, Nat.sub_self, hnone, List.flatten_nil, List.append_nil]
        exact hpieces.trans (List.prefix_append ..)
      · rw [hall]
        exact (List.prefix_append_right_inj _).mpr
          (ih (fun w hw => hws w (List.mem_cons_of_mem _ hw)) _)

/-! ## What is left after a write -/

theorem consume_spec (fuel : ℕ) (W : w.Waiting) (hn : n < w.dataSize)
    (hfuel : w.bufs.length < fuel) :
    ∃ w', consume fuel w n = .ok w' ∧ w'.Waiting ∧ w'.bytes = w.bytes.drop n := by
  induction fuel generalizing w n with
  | zero => omega
  | succ fuel ih =>
    cases n with
    | zero => exact ⟨w, by rw [consume], W, rfl⟩
    | succ n =>
      obtain ⟨b, bufs, hbufs, hb⟩ := W.exists_cons
      obtain ⟨beginPos, dataSize, _⟩ := w
      obtain rfl : _ = b :: bufs := hbufs
      have hsize : beginPos + dataSize = b.length + bufs.flatten.length := by
        rw [W.size, List.flatten_cons, List.length_append]
      change beginPos ≤ b.length at hb
      change n + 1 < dataSize at hn
      rw [consume]
      by_cases hend : b.length - beginPos ≤ n + 1
      · -- the bytes reach the end of the first buffer
        rw [min_eq_left hend]
        simp only [if_pos (show b.length ≤ beginPos + (b.length - beginPos) by omega)]
        have W' : Packet.Waiting ⟨0, dataSize - (b.length - beginPos), bufs⟩ :=
          ⟨show 0 < dataSize - _ by omega,
            show 0 + (dataSize - _) = bufs.flatten.length by omega, fun _ _ => Nat.zero_le _⟩
        obtain ⟨w', hw', W'', hbytes⟩ := ih (n := n + 1 - (b.length - beginPos)) W'
          (show _ < dataSize - _ by omega) (Nat.lt_of_succ_lt_succ hfuel)
        refine ⟨w', hw', W'', hbytes.trans ?_⟩
        have hnil : (b.drop beginPos).drop (n + 1) = [] :=
          List.drop_of_length_le (by rw [List.length_drop]; exact hend)
        change (bufs.flatten.drop 0).drop _ = ((b ++ bufs.flatten).drop beginPos).drop _
        rw [List.drop_zero, List.drop_append_of_le_length hb, List.drop_append, hnil,
          List.nil_append, List.length_drop]
      · rw [min_eq_right (by omega)]
        simp only [if_neg (show ¬ b.length ≤ beginPos + (n + 1) by omega), Nat.sub_self]
        refine ⟨_, by rw [consume], ⟨show 0 < dataSize - (n + 1) by omega, ?_, ?_⟩, ?_⟩
        · change beginPos + (n + 1) + (dataSize - (n + 1)) = (b :: bufs).flatten.length
          rw [List.flatten_cons, List.length_append]
          omega
        · rintro _ ⟨⟩
          change beginPos + (n + 1) ≤ b.length
          omega
        · rw [Packet.bytes, Packet.bytes, List.drop_drop]

/-- **The packets left have the bytes after those written.** No `assert` of `on_write_finish` fails. -/
theorem onWriteFinish_spec (hws : ∀ w ∈ ws, w.Waiting)
    (hn : n ≤ (ws.flatMap Packet.bytes).length) :
    ∃ ws', onWriteFinish ws n = .ok ws' ∧ (∀ w ∈ ws', w.Waiting) ∧
      ws'.flatMap Packet.bytes = (ws.flatMap Packet.bytes).drop n := by
  induction ws generalizing n with
  | nil =>
    obtain rfl := Nat.le_zero.mp hn
    exact ⟨[], by rw [onWriteFinish], hws, rfl⟩
  | cons w ws ih =>
    cases n with
    | zero => exact ⟨w :: ws, by rw [onWriteFinish], hws, rfl⟩
    | succ n =>
      have W : w.Waiting := hws w List.mem_cons_self
      have hrest : ∀ w' ∈ ws, w'.Waiting := fun w' hw => hws w' (List.mem_cons_of_mem _ hw)
      rw [List.flatMap_cons, List.length_append, W.length_bytes] at hn
      rw [onWriteFinish, List.flatMap_cons]
      by_cases hall : w.dataSize ≤ n + 1
      · obtain ⟨ws', hfin, hwait, hbytes⟩ := ih hrest
          (show n + 1 - w.dataSize ≤ (ws.flatMap Packet.bytes).length by omega)
        have hnil : w.bytes.drop (n + 1) = [] :=
          List.drop_of_length_le (by rw [W.length_bytes]; exact hall)
        refine ⟨ws', by rw [if_pos hall, hfin], hwait, hbytes.trans ?_⟩
        rw [List.drop_append, hnil, List.nil_append, W.length_bytes]
      · obtain ⟨w', hcons, W', hbytes⟩ := consume_spec (w.bufs.length + 1) W (Nat.lt_of_not_le hall)
          (Nat.lt_succ_self _)
        refine ⟨w' :: ws, by rw [if_neg hall, hcons]; rfl, ?_, ?_⟩
        · intro v hv
          rcases List.mem_cons.mp hv with rfl | hv
          · exact W'
          · exact hrest v hv
        · rw [List.flatMap_cons, hbytes,
            List.drop_append_of_le_length (by rw [W.length_bytes]; omega)]

/-- **A write moves bytes from the packets to the file**: any number of bytes that `writev` takes. -/
theorem LogFile.write_spec {l : LogFile} (hws : ∀ w ∈ l.pendingLog, w.Waiting)
    (hn : n ≤ (prepareWrite l).flatten.length) :
    ∃ l', l.write n = .ok l' ∧ (∀ w ∈ l'.pendingLog, w.Waiting) ∧ l'.logQueue = l.logQueue ∧
      l'.file ++ l'.pendingLog.flatMap Packet.bytes =
        l.file ++ l.pendingLog.flatMap Packet.bytes := by
  have hpieces : (prepareWrite l).flatten <+: l.pendingLog.flatMap Packet.bytes :=
    preparePackets_prefix hws maxWriteBuf
  obtain ⟨ws', hfin, hwait, hbytes⟩ := onWriteFinish_spec hws (hn.trans hpieces.length_le)
  refine ⟨{ l with pendingLog := ws', file := l.file ++ (prepareWrite l).flatten.take n },
    by rw [LogFile.write, hfin]; rfl, hwait, rfl, ?_⟩
  have htake : (prepareWrite l).flatten.take n = (l.pendingLog.flatMap Packet.bytes).take n := by
    obtain ⟨rest, hrest⟩ := hpieces
    rw [← hrest, List.take_append_of_le_length hn]
  rw [hbytes, htake, List.append_assoc, List.take_append_drop]

end Kendylib.Log
