import Kendylib.Net.WPacket

/-!
# Connections

The two paths of `src/Connection.c`. Received bytes are put into a chain of buffers of 65536 bytes;
`next_recv_buf` and `next_recv_pos` are the place of the next byte to be received, `unpack_buf` and
`unpack_pos` the place of the next byte to be unpacked, and `unpack_size` the number of bytes in
between. Packets to be sent wait in `send_list`; a request to the socket covers at most 1024 pieces
of memory.

The application takes part by two callbacks, `_process_packet` for a packet received and
`_packet_send_finish` for a packet sent. Each is a function on a state of the application and the
memory (`Callback`), which the packet is handed over to.

A round of `update_send_list` ends where `_packet_send_finish` may be called.

The sockets are outside the model. A read is given by the bytes that it puts into the memory that
was offered to it, a write by the number of bytes that it takes. `is_close` is not modelled: nothing
sets it.
-/

namespace Kendylib

open RefHeap Buffer RPacket WPacket

/-- `BUFFER_SIZE`. -/
def bufferSize : ℕ := 65536

/-- `MAX_WBAF`. -/
def maxWbaf : ℕ := 1024

/-- A `struct iovec`: a place in a buffer and a length. -/
structure Iovec where
  base : ℕ × ℕ
  len : ℕ

/-- A `struct connection`; `recvUsed` and `sendUsed` are the `isUsed` of the two requests. -/
structure Connection where
  wsendbuf : List Iovec
  wrecvbuf : List Iovec
  sendUsed : Bool
  recvUsed : Bool
  unpackSize : ℕ
  unpackPos : ℕ
  nextRecvPos : ℕ
  nextRecvBuf : Option ℕ
  unpackBuf : Option ℕ
  sendList : List WPacket
  raw : Bool

/-- Code of the application that a packet is handed over to, and the references that the application
holds in a state. -/
structure Callback (σ α : Type) where
  call : σ → Heap → α → Exec (σ × Heap)
  owned : σ → Multiset ℕ

/-- What is asked of the application: it takes over the references `refsOf x` of what it is handed,
and does not change the chains that others hold references to. -/
def Callback.Respects {σ α : Type} (f : Callback σ α) (refsOf : α → Multiset ℕ) : Prop :=
  ∀ s h x own, Sound h (refsOf x + (f.owned s + own)) →
    ∃ s' h', f.call s h x = .ok (s', h') ∧ Sound h' (f.owned s' + own) ∧ ∀ a ∈ own, KeepsFrom h h' a

/-- An application that keeps the packets it is handed. -/
def keepPackets : Callback (List RPacket) RPacket where
  call rs h r := .ok (rs ++ [r], h)
  owned rs := (rs.map RPacket.owned).sum

namespace Connection

variable {σ : Type}

/-- `connection_create`. -/
def connectionCreate (isRaw : Bool) : Connection :=
  ⟨[], [], false, false, 0, 0, 0, none, none, [], isRaw⟩

/-- `connection_start_recv`, which posts a request for a first buffer. -/
def connectionStartRecv (h : Heap) (c : Connection) : Exec (Heap × Connection) :=
  match c.unpackBuf with
  | some _ => .ok (h, c)
  | none => do
    let (h, b) ← bufferCreateAndAcquire h bufferSize
    let h ← bufferAcquire h none (some b)
    return (h, { c with
      unpackBuf := some b
      nextRecvBuf := some b
      nextRecvPos := 0
      unpackPos := 0
      unpackSize := 0
      wrecvbuf := [⟨(b, 0), bufferSize⟩]
      recvUsed := true })

/-! ## Receiving -/

/-- What a read does: the bytes are put into the pieces of memory one after the other. -/
def scatter (h : Heap) : List Iovec → List UInt8 → Exec Heap
  | _, [] => .ok h
  | [], _ :: _ => .error .outOfBounds
  | v :: vs, bs => do
    let h ← storeAt h v.base (bs.take v.len)
    scatter h vs (bs.drop v.len)

/-- The next buffer of a chain, which is created if there is none. -/
def nextOrNew (h : Heap) (a : ℕ) : Exec (Heap × ℕ) := do
  match (← h.get a).next with
  | some n => return (h, n)
  | none =>
    let (h, n) ← bufferCreateAndAcquire h bufferSize
    return (← h.setNext a n, n)

/-- A round of `update_next_recv_pos`: the number of bytes it counts. -/
def fillRound (h : Heap) (c : Connection) (bytes : ℕ) : Exec (Heap × Connection × ℕ) := do
  let a ← Exec.deref c.nextRecvBuf
  let b := (← h.get a).body
  let size := min (sub32 b.capacity c.nextRecvPos) bytes
  let h ← setSize h a (add32 b.size size)
  let c := { c with nextRecvPos := add32 c.nextRecvPos size }
  if c.nextRecvPos ≥ b.capacity then
    let (h, n) ← nextOrNew h a
    let h ← bufferAcquire h (some a) (some n)
    return (h, { c with nextRecvBuf := some n, nextRecvPos := 0 }, size)
  else return (h, c, size)

/-- The loop of `update_next_recv_pos`. -/
def updateNextRecvPosLoop : ℕ → Heap → Connection → ℕ → Exec (Heap × Connection)
  | 0, _, _, _ => .error .fuel
  | fuel + 1, h, c, bytes =>
    if bytes = 0 then .ok (h, c)
    else do
      let (h, c, size) ← fillRound h c bytes
      updateNextRecvPosLoop fuel h c (bytes - size)

/-- `update_next_recv_pos`: every round takes a byte, or no round does. -/
def updateNextRecvPos (h : Heap) (c : Connection) (bytes : ℕ) : Exec (Heap × Connection) :=
  updateNextRecvPosLoop (bytes + 1) h c bytes

/-- The end of a round of unpacking: from the end of a buffer go on to the next one. -/
def nextUnpackBuf (h : Heap) (c : Connection) (cell : Cell Block) : Exec (Heap × Connection) :=
  if c.unpackPos ≥ cell.body.capacity then
    match cell.next with
    | none => .error .assertion
    | some n => do
      let h ← bufferAcquire h c.unpackBuf (some n)
      return (h, { c with unpackPos := 0, unpackBuf := some n })
  else .ok (h, c)

/-- Move the unpacking cursor by `size` bytes inside its buffer. -/
def consume (c : Connection) (size : ℕ) : Connection :=
  { c with unpackPos := add32 c.unpackPos size, unpackSize := sub32 c.unpackSize size }

/-- The loop of `unpack` that moves the cursor past a packet. -/
def skipLoop : ℕ → Heap → Connection → ℕ → Exec (Heap × Connection)
  | 0, _, _, _ => .error .fuel
  | fuel + 1, h, c, total =>
    if total = 0 then .ok (h, c)
    else do
      let cell ← h.get (← Exec.deref c.unpackBuf)
      let size := min (sub32 cell.body.size c.unpackPos) total
      let (h, c) ← nextUnpackBuf h (consume c size) cell
      skipLoop fuel h c (total - size)

/-- A connection that receives: the memory, the connection and the application, and two records
that nothing reads. `arrived` has the place of every byte received so far; `handed` has, for
every packet handed to `_process_packet`, the memory and the packet at that moment. -/
structure Receiver (σ : Type) where
  heap : Heap
  conn : Connection
  app : σ
  arrived : List (ℕ × ℕ)
  handed : List (Heap × RPacket)

/-- Hand a packet to `_process_packet`. -/
def handOver (process : Callback σ RPacket) (s : Receiver σ) (h : Heap) (c : Connection)
    (r : RPacket) : Exec (Receiver σ) := do
  let (app, heap) ← process.call s.app h r
  return { s with heap := heap, conn := c, app := app, handed := s.handed ++ [(h, r)] }

/-- A round of `unpack` on a connection that is not raw: the state after a packet has been handed
over and its length, or `none` at the end of the loop. `pkLen` is the length left by the round
before, which `buffer_read` overwrites. -/
def unpackRound (process : Callback σ RPacket) (pkLen : ℕ) (s : Receiver σ) :
    Exec (Option (Receiver σ × ℕ)) :=
  if s.conn.unpackSize ≤ lenSize then .ok none
  else do
    let (_, out) ← bufferRead s.heap s.conn.unpackBuf s.conn.unpackPos lenSize
    let pkLen := ofBytes (out ++ (toBytes lenSize pkLen).drop out.length)
    let total := add32 pkLen lenSize
    if total > s.conn.unpackSize then return none
    else
      let (h, r) ← rpacketCreate s.heap s.conn.unpackBuf s.conn.unpackPos pkLen false
      let (h, c) ← skipLoop (total + 1) h s.conn total
      return some (← handOver process s h c r, pkLen)

/-- A round of `unpack` on a raw connection. -/
def unpackRoundRaw (process : Callback σ RPacket) (s : Receiver σ) :
    Exec (Option (Receiver σ × ℕ)) := do
  let cell ← s.heap.get (← Exec.deref s.conn.unpackBuf)
  let pkLen := sub32 cell.body.size s.conn.unpackPos
  if pkLen = 0 then return none
  else
    let (h, r) ← rpacketCreate s.heap s.conn.unpackBuf s.conn.unpackPos pkLen true
    let (h, c) ← nextUnpackBuf h (consume s.conn pkLen) cell
    return some (← handOver process s h c r, pkLen)

/-- A round of the loop of `unpack`. -/
def unpackStep (process : Callback σ RPacket) (pkLen : ℕ) (s : Receiver σ) :
    Exec (Option (Receiver σ × ℕ)) :=
  if s.conn.raw then unpackRoundRaw process s else unpackRound process pkLen s

/-- The loop of `unpack`. -/
def unpackLoop (process : Callback σ RPacket) : ℕ → ℕ → Receiver σ → Exec (Receiver σ)
  | 0, _, _ => .error .fuel
  | fuel + 1, pkLen, s => do
    match ← unpackStep process pkLen s with
    | none => return s
    | some (s, pkLen) => unpackLoop process fuel pkLen s

/-- `unpack`. A round that leaves `unpack_size` as it is leaves the cursor where it is, and so do all
later rounds. -/
def unpack (process : Callback σ RPacket) (s : Receiver σ) : Exec (Receiver σ) :=
  unpackLoop process (s.conn.unpackSize + 1) 0 s

/-- The loop of `RecvFinish` that collects the memory for the next read, in at most two pieces. -/
def offerLoop : ℕ → Heap → ℕ → ℕ → ℕ → Exec (Heap × List Iovec)
  | 0, h, _, _, recvSize => if recvSize = 0 then .ok (h, []) else .error .outOfBounds
  | room + 1, h, a, pos, recvSize =>
    if recvSize = 0 then .ok (h, [])
    else do
      let b := (← h.get a).body
      let free := min (sub32 b.capacity pos) recvSize
      let (h, a', pos') ← (if recvSize - free ≠ 0 ∧ add32 pos free ≥ b.capacity then do
          let (h, n) ← nextOrNew h a
          return (h, n, 0)
        else return (h, a, add32 pos free))
      let (h, vs) ← offerLoop room h a' pos' (recvSize - free)
      return (h, ⟨(a, pos), free⟩ :: vs)

/-- The bytes `bs` of a read have been put into the memory offered to it, and are counted. -/
def arrive (s : Receiver σ) (bs : List UInt8) : Exec (Receiver σ) := do
  let h ← scatter s.heap s.conn.wrecvbuf bs
  let arrived := (s.conn.wrecvbuf.flatMap fun v => places v.base.1 v.base.2 v.len).take bs.length
  let (h, c) ← updateNextRecvPos h s.conn bs.length
  let c := { c with unpackSize := add32 c.unpackSize bs.length }
  return { s with heap := h, conn := c, arrived := s.arrived ++ arrived }

/-- Memory is offered to the next read. -/
def offer (s : Receiver σ) : Exec (Receiver σ) := do
  let (h, vs) ← offerLoop 2 s.heap (← Exec.deref s.conn.nextRecvBuf) s.conn.nextRecvPos bufferSize
  return { s with heap := h, conn := { s.conn with wrecvbuf := vs, recvUsed := true } }

/-- The round of `RecvFinish` for a read of the bytes `bs`. -/
def recvRound (process : Callback σ RPacket) (s : Receiver σ) (bs : List UInt8) :
    Exec (Receiver σ) := do
  let s ← arrive s bs
  let s ← unpack process s
  offer s

/-- The read that ends a series of reads. -/
inductive LastRead
  /-- There is no data at the moment. -/
  | again
  /-- The peer has closed the connection, or there is an error. -/
  | closed

/-- `RecvFinish`: the read that finished and the reads made at once after it, up to one that brings
no bytes. A closed connection is then reported to the application. -/
def recvFinish (process : Callback σ RPacket) (last : LastRead) :
    Receiver σ → List (List UInt8) → Exec (Receiver σ)
  | s, [] =>
    match last with
    | .again => .ok s
    | .closed => .ok { s with conn := { s.conn with recvUsed := false } }
  | s, bs :: reads => do
    let s ← recvRound process s bs
    recvFinish process last s reads

/-! ## Sending -/

/-- The inner loop of `prepare_send`: the pieces of a packet of which `size` bytes are left, `room`
of them at most. -/
def prepareBuffers (h : Heap) : ℕ → Option ℕ → ℕ → ℕ → Exec (List Iovec)
  | 0, _, _, _ | _ + 1, none, _, _ => .ok []
  | room + 1, some a, pos, size =>
    if size = 0 then .ok []
    else do
      let c ← h.get a
      let len := min (sub32 c.body.size pos) size
      let vs ← prepareBuffers h room c.next 0 (size - len)
      return ⟨(a, pos), len⟩ :: vs

/-- The outer loop of `prepare_send`. -/
def preparePackets (h : Heap) : ℕ → List WPacket → Exec (List Iovec)
  | _, [] => .ok []
  | room, w :: ws =>
    if room = 0 then .ok []
    else do
      let vs ← prepareBuffers h room w.buf w.beginPos w.dataSize
      let rest ← preparePackets h (room - vs.length) ws
      return vs ++ rest

/-- `prepare_send`: whether there is something to send. -/
def prepareSend (h : Heap) (c : Connection) : Exec (Bool × Connection) := do
  let vs ← preparePackets h maxWbaf c.sendList
  return if vs.isEmpty then (false, c) else (true, { c with wsendbuf := vs })

/-- The inner loop of `update_send_list`: the packet without its first `bytes` bytes. -/
def consumeLoop : ℕ → Heap → WPacket → ℕ → Exec (Heap × WPacket)
  | 0, _, _, _ => .error .fuel
  | fuel + 1, h, w, bytes =>
    if bytes = 0 then .ok (h, w)
    else do
      let c ← h.get (← Exec.deref w.buf)
      let size := min (sub32 c.body.size w.beginPos) bytes
      let w := { w with beginPos := add32 w.beginPos size, dataSize := sub32 w.dataSize size }
      if w.beginPos ≥ c.body.size then
        let h ← bufferAcquire h w.buf c.next
        consumeLoop fuel h { w with beginPos := 0, buf := c.next } (bytes - size)
      else consumeLoop fuel h w (bytes - size)

/-- A round of `update_send_list` for `bytes` bytes: how many of them are left, and the packet that
is handed to `_packet_send_finish`, if any. Every round of the inner loop takes a byte or goes on to
the next buffer. -/
def updateSendRound (h : Heap) (c : Connection) (bytes : ℕ) :
    Exec (Heap × Connection × ℕ × Option WPacket) :=
  match c.sendList with
  | [] => .error .assertion
  | w :: ws =>
    if bytes ≥ w.dataSize then
      if w.packetSendFinish then .ok (h, { c with sendList := ws }, bytes - w.dataSize, some w)
      else do
        let h ← wpacketDestroy h w
        return (h, { c with sendList := ws }, bytes - w.dataSize, none)
    else do
      let (h, w) ← consumeLoop (h.fresh + bytes + 1) h w bytes
      return (h, { c with sendList := w :: ws }, 0, none)

/-- `connection_push_packet`, with a callback or without. -/
def connectionPushPacket (c : Connection) (w : Option WPacket) (callback : Bool) : Connection :=
  { c with sendList := c.sendList ++ (w.map fun w => { w with packetSendFinish := callback }).toList }

/-- `connection_send`. `WSASend` asserts that it is given a request. -/
def connectionSend (h : Heap) (c : Connection) (w : Option WPacket) (callback : Bool) :
    Exec Connection :=
  let c := c.connectionPushPacket w callback
  if c.sendUsed then .ok c
  else do
    let (ready, c) ← prepareSend h { c with sendUsed := true }
    if ready then return c else .error .assertion

/-- Destroy packets one after the other. -/
def destroyPackets : Heap → List WPacket → Exec Heap
  | h, [] => .ok h
  | h, w :: ws => do destroyPackets (← wpacketDestroy h w) ws

/-- `connection_destroy`: whether the connection has been destroyed. -/
def connectionDestroy (h : Heap) (c : Connection) : Exec (Heap × Bool) :=
  if c.recvUsed || c.sendUsed then .ok (h, false)
  else do
    let h ← destroyPackets h c.sendList
    let h ← bufferRelease h c.unpackBuf
    let h ← bufferRelease h c.nextRecvBuf
    return (h, true)

end Connection

end Kendylib
