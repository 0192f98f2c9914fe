import Kendylib.Net.Connection

/-!
# A program with packets and connections

The packets that the application holds and its connections, over the memory of their buffers. The
steps are the calls of the application and those parts of `RecvFinish` and `SendFinish` between which
the application may run: a round of `unpack` ends with `_process_packet`, a round of
`update_send_list` with `_packet_send_finish`. A packet that is handed to the application is put to
those it holds, and what it does then are steps like any others.

Copy-on-write is left out: a packet without a `writebuf` is not written to.
-/

namespace Kendylib

open RefHeap Buffer RPacket WPacket Connection

/-- A connection and where its two handlers are: `unpacking` has the `pk_len` of the last round of
`unpack` while this is running, and `sent` has the bytes left of a write while `SendFinish` is. -/
structure Peer where
  conn : Connection
  unpacking : Option ℕ
  sent : Option ℕ

/-- The memory, the packets that the application holds, and the connections. -/
structure System where
  heap : Heap
  rpackets : List RPacket
  wpackets : List WPacket
  peers : List Peer

/-- A packet for writing: one that the application holds, or one that waits in the `send_list` of a
connection. -/
inductive PacketRef
  | held (i : ℕ)
  | queued (j i : ℕ)
  deriving DecidableEq

namespace System

/-- Nothing has been created yet. -/
def start : System := ⟨.empty, [], [], []⟩

def packet (s : System) : PacketRef → Option WPacket
  | .held i => s.wpackets[i]?
  | .queued j i => s.peers[j]?.bind fun p => p.conn.sendList[i]?

def setPeer (s : System) (j : ℕ) (p : Peer) : System := { s with peers := s.peers.set j p }

def setPacket (s : System) (w : WPacket) : PacketRef → System
  | .held i => { s with wpackets := s.wpackets.set i w }
  | .queued j i =>
    match s.peers[j]? with
    | some p => s.setPeer j { p with conn := { p.conn with sendList := p.conn.sendList.set i w } }
    | none => s

/-- The calls of the application and the steps of the handlers. `rpacketCreate` is given a pointer to
a buffer that is in memory. -/
inductive Op
  | wpacketCreate (size : ℕ) (isRaw : Bool)
  | wpacketCreateByRpacket (i : ℕ)
  | write (x : PacketRef) (op : Write)
  | wpacketDestroy (i : ℕ)
  | rpacketCreate (b : Option ℕ) (pos pkLen : ℕ) (isRaw : Bool)
  | rpacketCreateByWpacket (x : PacketRef)
  | read (i : ℕ) (op : Read)
  | rpacketDestroy (i : ℕ)
  | connectionCreate (isRaw : Bool)
  | startRecv (j : ℕ)
  | received (j : ℕ) (bs : List UInt8)
  | unpack (j : ℕ)
  | recvFailed (j : ℕ)
  | push (j i : ℕ) (callback : Bool)
  | send (j : ℕ) (i : Option ℕ) (callback : Bool)
  | sent (j bytes : ℕ)
  | updateSendList (j : ℕ)
  | sendFailed (j : ℕ)
  | connectionDestroy (j : ℕ)
  deriving DecidableEq

/-- The pointer is null or to a buffer in memory. -/
def Valid (s : System) (b : Option ℕ) : Prop := ∀ a, b = some a → (s.heap.cell a).isSome

instance (s : System) (b : Option ℕ) : Decidable (s.Valid b) :=
  match b with
  | none => isTrue nofun
  | some a => decidable_of_iff ((s.heap.cell a).isSome = true)
    ⟨fun h _ ha => Option.some.inj ha ▸ h, fun h => h a rfl⟩

/-- Use the packet at a place of a list, if there is one. -/
def withPacket {α : Type} (s : System) (xs : List α) (i : ℕ) (f : α → Exec System) : Exec System :=
  match xs[i]? with
  | some x => f x
  | none => .ok s

/-! ## The steps of the handlers -/

/-- `RecvFinish` with the bytes of a read, up to `unpack`. -/
def received (s : System) (j : ℕ) (p : Peer) (bs : List UInt8) : Exec System :=
  if p.conn.recvUsed ∧ p.unpacking = none then do
    let r ← arrive ⟨s.heap, p.conn, (), [], []⟩ bs
    return { s with heap := r.heap }.setPeer j { p with conn := r.conn, unpacking := some 0 }
  else .ok s

/-- A round of `unpack`; behind the last one memory is offered to the next read. -/
def unpack (s : System) (j : ℕ) (p : Peer) : Exec System :=
  match p.unpacking with
  | none => .ok s
  | some pkLen => do
    match ← unpackStep keepPackets pkLen ⟨s.heap, p.conn, s.rpackets, [], []⟩ with
    | some (r, pkLen) =>
      return { s with heap := r.heap, rpackets := r.app }.setPeer j
        { p with conn := r.conn, unpacking := some pkLen }
    | none =>
      let r ← offer ⟨s.heap, p.conn, (), [], []⟩
      return { s with heap := r.heap }.setPeer j { p with conn := r.conn, unpacking := none }

/-- `RecvFinish` at the end of the stream or with an error. -/
def recvFailed (s : System) (j : ℕ) (p : Peer) : Exec System :=
  if p.unpacking = none then
    .ok (s.setPeer j { p with conn := { p.conn with recvUsed := false } })
  else .ok s

/-- `SendFinish` with the count of a write, up to `update_send_list`. -/
def sent (s : System) (j : ℕ) (p : Peer) (bytes : ℕ) : Exec System :=
  if p.conn.sendUsed ∧ p.sent = none ∧ bytes ≠ 0 then .ok (s.setPeer j { p with sent := some bytes })
  else .ok s

/-- A round of `update_send_list`; behind the last one the next write is prepared. -/
def updateSendList (s : System) (j : ℕ) (p : Peer) : Exec System :=
  match p.sent with
  | none => .ok s
  | some 0 => do
    let (ready, c) ← prepareSend s.heap p.conn
    return s.setPeer j { p with conn := if ready then c else { c with sendUsed := false }, sent := none }
  | some (bytes + 1) => do
    let (h, c, bytes, w) ← updateSendRound s.heap p.conn (bytes + 1)
    return { s with heap := h, wpackets := s.wpackets ++ w.toList }.setPeer j
      { p with conn := c, sent := some bytes }

/-- `SendFinish` with an error. -/
def sendFailed (s : System) (j : ℕ) (p : Peer) : Exec System :=
  if p.sent = none then .ok (s.setPeer j { p with conn := { p.conn with sendUsed := false } })
  else .ok s

/-! ## Steps -/

/-- Hand a packet over to a connection with `connection_send`. -/
def send (s : System) (j : ℕ) (p : Peer) (i : Option ℕ) (callback : Bool) : Exec System := do
  let w := i.bind fun i => s.wpackets[i]?
  let c ← connectionSend s.heap p.conn w callback
  return { s with wpackets := (i.map s.wpackets.eraseIdx).getD s.wpackets }.setPeer j { p with conn := c }

/-- One step. A call for a packet or a connection that is not there does nothing. -/
def step (s : System) : Op → Exec System
  | .wpacketCreate size isRaw => do
    let (h, w) ← wpacketCreate s.heap size isRaw
    return { s with heap := h, wpackets := s.wpackets ++ [w] }
  | .wpacketCreateByRpacket i => s.withPacket s.rpackets i fun r => do
    let (h, w) ← wpacketCreateByRpacket s.heap r
    return { s with heap := h, wpackets := s.wpackets ++ [w] }
  | .write x op =>
    match s.packet x with
    | none => .ok s
    | some w => if w.writebuf = none then .ok s else do
      let (h, w) ← write s.heap w op
      return { s with heap := h }.setPacket w x
  | .wpacketDestroy i => s.withPacket s.wpackets i fun w => do
    let h ← wpacketDestroy s.heap w
    return { s with heap := h, wpackets := s.wpackets.eraseIdx i }
  | .rpacketCreate b pos pkLen isRaw => if s.Valid b then do
      let (h, r) ← rpacketCreate s.heap b pos pkLen isRaw
      return { s with heap := h, rpackets := s.rpackets ++ [r] }
    else .ok s
  | .rpacketCreateByWpacket x =>
    match s.packet x with
    | none => .ok s
    | some w => do
      let (h, r) ← rpacketCreateByWpacket s.heap w
      return { s with heap := h, rpackets := s.rpackets ++ [r] }
  | .read i op => s.withPacket s.rpackets i fun r => do
    let (h, r, _) ← read s.heap r op
    return { s with heap := h, rpackets := s.rpackets.set i r }
  | .rpacketDestroy i => s.withPacket s.rpackets i fun r => do
    let h ← rpacketDestroy s.heap r
    return { s with heap := h, rpackets := s.rpackets.eraseIdx i }
  | .connectionCreate isRaw =>
    .ok { s with peers := s.peers ++ [⟨Connection.connectionCreate isRaw, none, none⟩] }
  | .startRecv j => s.withPacket s.peers j fun p => do
    let (h, c) ← connectionStartRecv s.heap p.conn
    return { s with heap := h }.setPeer j { p with conn := c }
  | .received j bs => s.withPacket s.peers j fun p => s.received j p bs
  | .unpack j => s.withPacket s.peers j fun p => s.unpack j p
  | .recvFailed j => s.withPacket s.peers j fun p => s.recvFailed j p
  | .push j i callback => s.withPacket s.peers j fun p => s.withPacket s.wpackets i fun w =>
    .ok ({ s with wpackets := s.wpackets.eraseIdx i }.setPeer j
      { p with conn := p.conn.connectionPushPacket (some w) callback })
  | .send j i callback => s.withPacket s.peers j fun p => s.send j p i callback
  | .sent j bytes => s.withPacket s.peers j fun p => s.sent j p bytes
  | .updateSendList j => s.withPacket s.peers j fun p => s.updateSendList j p
  | .sendFailed j => s.withPacket s.peers j fun p => s.sendFailed j p
  | .connectionDestroy j => s.withPacket s.peers j fun p => do
    let (h, destroyed) ← connectionDestroy s.heap p.conn
    return { s with heap := h, peers := if destroyed then s.peers.eraseIdx j else s.peers }

end System

end Kendylib
