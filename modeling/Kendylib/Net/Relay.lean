import Kendylib.Net.Sender

/-!
# A connection that forwards packets

The application keeps the packets that `unpack` hands it, reads from them, and forwards them on
another connection by `wpacket_create_by_rpacket`. A packet that is forwarded shares the buffers that
the first connection receives into; reads, writes and rounds of `unpack` and of `update_send_list`
come in any order. The two connections may be the two sides of one.

A round of `RecvFinish` is cut where the application may run: `received` for the bytes of a read, then
a step for every round of `unpack`, the last of which offers memory to the next read.

The records `stream`, `delivered`, `kept` and `forwarded` are not read by anything but to tell which
frame of the stream a packet forwarded is.
-/

namespace Kendylib

open RefHeap Buffer RPacket WPacket Connection
open Held (ownedAll)

/-- A connection that is received from, one that is sent on, and between them an application that
keeps packets. In `unpacking` there is the length left by the last round of `unpack` while it runs.
`stream` has the bytes received, `delivered` the packets as they were handed over, `kept` the numbers
of those that the application still has, and `forwarded` for each packet forwarded its number and that
of the submission. The memory is that of `src`. -/
structure Relay where
  src : Receiver (List RPacket)
  unpacking : Option ℕ
  dest : Sender
  stream : List UInt8
  delivered : List RPacket
  kept : List ℕ
  forwarded : List (ℕ × ℕ)

namespace Relay

/-- `connection_start_recv` on a new connection. -/
def start (h : Heap) (srcRaw destRaw : Bool) : Exec Relay := do
  let (h, c) ← connectionStartRecv h (connectionCreate srcRaw)
  return ⟨⟨h, c, [], [], []⟩, none, Sender.start h destRaw, [], [], [], []⟩

/-- The bytes of a packet with its length field, or the bytes of a raw packet. -/
def frameLen (r : RPacket) : ℕ := if r.raw then r.len else lenSize + r.len

/-- The bytes that `unpack` takes off for a packet, a 32-bit number. -/
def taken (r : RPacket) : ℕ := if r.raw then r.len else add32 r.len lenSize

/-- The frame of a packet: as many bytes of the stream as its length says, from where `unpack` was
when it handed the packet over. -/
def frameAt (stream : List UInt8) (delivered : List RPacket) (i : ℕ) : List UInt8 :=
  match delivered[i]? with
  | none => []
  | some r => (stream.drop ((delivered.take i).map taken).sum).take (frameLen r)

def frame (s : Relay) (i : ℕ) : List UInt8 := frameAt s.stream s.delivered i

inductive Op
  | received (bs : List UInt8)
  /-- A round of `unpack`, or the offer of memory behind the last one. -/
  | unpack
  | read (k : ℕ) (op : Read)
  | destroy (k : ℕ)
  | forward (k : ℕ) (flush callback : Bool)
  /-- What happens to the connection that is sent on, other packets for it included, and what the rest
  of the program does to the memory. -/
  | dest (op : Sender.Op)

def sender (s : Relay) : Sender := { s.dest with heap := s.src.heap }

def withSender (s : Relay) (d : Sender) : Relay := { s with src.heap := d.heap, dest := d }

/-- Hand a packet to `connection_send` or `connection_push_packet`. -/
def submission (w : WPacket) (bytes : List UInt8) (flush callback : Bool) : Sender.Op :=
  if flush then .send w bytes callback else .push w bytes callback

def unpackNext (s : Relay) : Exec Relay :=
  match s.unpacking with
  | none => .ok s
  | some pkLen => do
    match ← unpackStep keepPackets pkLen s.src with
    | none => return { s with src := ← offer s.src, unpacking := none }
    | some (src, pkLen) => return { s with
        src := src
        unpacking := some pkLen
        kept := s.kept ++ [s.delivered.length]
        delivered := s.delivered ++ src.app.drop s.src.app.length }

def forward (s : Relay) (k : ℕ) (flush callback : Bool) : Exec Relay :=
  match s.src.app[k]?, s.kept[k]? with
  | some r, some i => do
    let (h, w) ← wpacketCreateByRpacket s.src.heap r
    let d ← Sender.step { s.dest with heap := h } (submission w (s.frame i) flush callback)
    return { s.withSender d with forwarded := s.forwarded ++ [(i, s.dest.submitted.length)] }
  | _, _ => .ok s

def step (s : Relay) : Op → Exec Relay
  | .received bs => do
    return { s with src := ← arrive s.src bs, unpacking := some 0, stream := s.stream ++ bs }
  | .unpack => s.unpackNext
  | .read k op =>
    match s.src.app[k]? with
    | none => .ok s
    | some r => do
      let (h, r, _) ← RPacket.read s.src.heap r op
      return { s with src.heap := h, src.app := s.src.app.set k r }
  | .destroy k =>
    match s.src.app[k]? with
    | none => .ok s
    | some r => do
      let h ← rpacketDestroy s.src.heap r
      return { s with src.heap := h, src.app := s.src.app.eraseIdx k, kept := s.kept.eraseIdx k }
  | .forward k flush callback => s.forward k flush callback
  | .dest op => return s.withSender (← s.sender.step op)

/-! ## What may happen -/

/-- The references held for the two connections and the packets that are kept. -/
def owned (s : Relay) : Multiset ℕ :=
  s.src.conn.recvOwned + (keepPackets.owned s.src.app + ownedAll s.dest.conn.sendList)

/-- The memory holds the packets and the buffers to receive into, and what others hold. -/
def Holds (s : Relay) (h : Heap) (extra : Multiset ℕ) : Prop :=
  ∃ own, Sound h (s.owned + (extra + own))

/-- The rest of the program leaves the buffers to receive into and the memory that packets have of
their own; the buffers of packets are at most filled further. -/
structure Untouched (s : Relay) (h : Heap) : Prop where
  src : ∀ a, s.src.conn.unpackBuf = some a → StaysFrom s.src.heap h a
  kept : ∀ r ∈ s.src.app, ∀ a, r.buf = some a → GrowsFrom s.src.heap h a
  binbuf : ∀ r ∈ s.src.app, ∀ x b, r.binbuf = some x → s.src.conn.nextRecvBuf = some b →
    Apart s.src.heap b x → Apart h b x

/-- A read brings at most as many bytes as memory was offered for, when `unpack` has ended. What else
may happen is said in `Sender.Allowed`. -/
def Allowed (s : Relay) : Op → Prop
  | .received bs => s.unpacking = none ∧ bs.length ≤ bufferSize
  | .unpack | .read .. | .destroy _ | .forward .. => True
  | .dest (.other h) => s.Holds h 0 ∧ s.Untouched h ∧ s.sender.Allowed (.other h)
  | .dest (.push w bytes callback) =>
    s.Holds s.src.heap w.owned ∧ s.sender.Allowed (.push w bytes callback)
  | .dest (.send w bytes callback) =>
    s.Holds s.src.heap w.owned ∧ s.sender.Allowed (.send w bytes callback)
  | .dest op => s.sender.Allowed op

/-- The length of the packet is such that with its length field it is a 32-bit number. -/
def Fits (r : RPacket) : Prop := r.raw = true ∨ lenSize + r.len < 0x100000000

/-- A packet that is forwarded is raw, or its length is not within four of `2 ^ 32`. -/
def Forwardable (s : Relay) : Op → Prop
  | .forward k _ _ => ∀ r, s.src.app[k]? = some r → Fits r
  | _ => True

end Relay

end Kendylib
