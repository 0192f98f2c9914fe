import Kendylib.Net.SendQueue

/-!
# A connection that sends

The send path of a connection: `connection_push_packet`, `connection_send` and `SendFinish`. A write
takes a number of bytes from the pieces of memory prepared for it. `SendFinish` then runs
`update_send_list` and prepares the next write; between the rounds of `update_send_list` the
application may run, which calls `_packet_send_finish` there.

What else the program does to the memory is a step of its own (`other`). It leaves the packets that
wait alone; their buffers may be filled further (`Allowed`).

The records `submitted`, `accepted`, `completed` and `failed` are not read by anything.
-/

namespace Kendylib

open RefHeap Buffer RPacket WPacket Connection
open Held (ownedAll)

/-- A packet handed over to be sent: its bytes, whether this was done by `connection_send`, and
whether there is a callback. -/
structure Submission where
  bytes : List UInt8
  flush : Bool
  callback : Bool
  deriving DecidableEq

/-- A connection, and in `sending` the bytes of the last write that `update_send_list` has still to
take off while it runs. `accepted` has the bytes taken by writes, and `completed` has for each packet
completed whether it was handed to `_packet_send_finish` or destroyed. -/
structure Sender where
  heap : Heap
  conn : Connection
  sending : Option ℕ
  submitted : List Submission
  accepted : List UInt8
  completed : List Bool
  failed : Bool

namespace Sender

/-- A new connection. -/
def start (h : Heap) (isRaw : Bool) : Sender := ⟨h, connectionCreate isRaw, none, [], [], [], false⟩

/-- The first `n` bytes of the pieces of a write. -/
def gather (h : Heap) : List Iovec → ℕ → Exec (List UInt8)
  | _, 0 => .ok []
  | [], _ + 1 => .error .outOfBounds
  | v :: vs, n + 1 =>
    if v.len = 0 then gather h vs (n + 1)
    else do
      let c ← h.get v.base.1
      let bs ← c.body.load v.base.2 (min v.len (n + 1))
      return bs ++ (← gather h vs (n + 1 - min v.len (n + 1)))

inductive Op
  | push (w : WPacket) (bytes : List UInt8) (callback : Bool)
  | send (w : WPacket) (bytes : List UInt8) (callback : Bool)
  /-- A write takes `n` bytes. -/
  | written (n : ℕ)
  /-- A round of `update_send_list`, or the preparation of the next write behind the last one. -/
  | update
  /-- A write fails, or takes no bytes. -/
  | fail
  | other (h : Heap)

/-- `SendFinish` from a round of `update_send_list` to the next. -/
def update (s : Sender) : Exec Sender :=
  match s.sending with
  | none => .ok s
  | some 0 => do
    let (ready, c) ← prepareSend s.heap s.conn
    return { s with conn := if ready then c else { c with sendUsed := false }, sending := none }
  | some (n + 1) => do
    let (h, c, n, w) ← updateSendRound s.heap s.conn (n + 1)
    let popped := c.sendList.length < s.conn.sendList.length
    return { s with
      heap := h
      conn := c
      sending := some n
      completed := s.completed ++ if popped then [w.isSome] else [] }

def step (s : Sender) : Op → Exec Sender
  | .push w bytes callback => .ok { s with
      conn := connectionPushPacket s.conn (some w) callback
      submitted := s.submitted ++ [⟨bytes, false, callback⟩] }
  | .send w bytes callback => do
    let c ← connectionSend s.heap s.conn (some w) callback
    return { s with conn := c, submitted := s.submitted ++ [⟨bytes, true, callback⟩] }
  | .written n => do
    let out ← gather s.heap s.conn.wsendbuf n
    return { s with sending := some n, accepted := s.accepted ++ out }
  | .update => s.update
  | .fail => .ok { s with conn.sendUsed := false, failed := true }
  | .other h => .ok { s with heap := h }

/-- The memory holds the packets that wait, and what others hold. -/
def Holds (s : Sender) (h : Heap) (extra : Multiset ℕ) : Prop :=
  ∃ own, Sound h (ownedAll s.conn.sendList + (extra + own))

/-- What happens to a connection. The caller of `connection_push_packet` or `connection_send` hands
over a packet of his with bytes to send. A write takes at least one byte and at most those prepared,
and returns their number as an `int32_t`. What else the program does leaves the packets that wait
where they are, in buffers that are at most filled further. -/
def Allowed (s : Sender) : Op → Prop
  | .push w bytes _ | .send w bytes _ =>
    s.Holds s.heap w.owned ∧ Waiting s.heap w bytes ∧ bytes ≠ []
  | .written n => s.conn.sendUsed = true ∧ s.sending = none ∧ 0 < n ∧
    n ≤ (s.conn.wsendbuf.map Iovec.len).sum ∧ n < 0x80000000
  | .update => True
  | .fail => s.conn.sendUsed = true ∧ s.sending = none
  | .other h => s.Holds h 0 ∧
    ∀ w ∈ s.conn.sendList, ∀ a, w.buf = some a → GrowsFrom s.heap h a

end Sender

end Kendylib
