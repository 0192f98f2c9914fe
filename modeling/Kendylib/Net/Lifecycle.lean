import Kendylib.Net.Engine

/-!
# The requests of a connection

The side of `src/Connection.c` that deals with requests: the two requests of a connection,
`recv_overlap` and `send_overlap`, the flags `isUsed` by which the connection knows of them, and the
queues of the socket that they wait in. A request is named by its direction. Packets to be sent are
given by their `data_size`; the bytes of both paths are the subject of `Kendylib.Net.Connection`.
`is_close`, which is `0` from `connection_create` on, is left out.

`RecvFinish` and `SendFinish` are cut where the application may run (`Handler`): behind a call of
`_process_packet` or `_packet_send_finish`, and behind `_on_disconnect`, with which they end. What
the application does there are steps like those it makes elsewhere.
-/

namespace Kendylib

/-- The completion handler that is running: `RecvFinish` or `SendFinish` with the outcome of a
transfer, or on the way to the next one. -/
inductive Handler
  | idle
  | finish (d : Dir) (result : IoResult)
  | more (d : Dir)
  deriving DecidableEq

/-- A connection on the socket `()`. `started` tells whether `unpack_buf` is set, `isUsed` has the
flags of the two requests and `sendList` the sizes of the packets in `send_list`. Three fields record
what happened: `RecvFinish` has met the end of the stream or an error, `_on_disconnect` has been
called, and the connection has been freed. -/
structure Life (E : Type) where
  net : Net E Unit Dir
  handler : Handler
  started : Bool
  isUsed : Dir → Bool
  sendList : List ℕ
  ended : Bool
  reported : Bool
  freed : Bool

namespace Life

variable {E : Type} [DecidableEq E]

/-- The request of a direction waits in the queue of the socket. -/
def Linked (s : Life E) (d : Dir) : Prop := d ∈ s.net.pending.nodes (d, ())

instance (s : Life E) (d : Dir) : Decidable (s.Linked d) := inferInstanceAs (Decidable (_ ∈ _))

def setUsed (s : Life E) (d : Dir) (b : Bool) : Life E :=
  { s with isUsed := Function.update s.isUsed d b }

/-- `WSARecv` or `WSASend` for the request of a direction: the outcome if it is tried at once. -/
def wsaIo (s : Life E) (d : Dir) (now : Bool) (result : IoResult) : Exec (Life E) := do
  let (_, _, net) ← s.net.wsaIo d (some ()) d now result
  return { s with net := net }

/-- Call `_on_disconnect`. -/
def onDisconnect (s : Life E) : Life E := { s with reported := true }

/-! ## The calls of the application -/

/-- `connection_start_recv`. -/
def connectionStartRecv (s : Life E) : Exec (Life E) :=
  if s.started then .ok s
  else ({ s with started := true }.setUsed .recv true).wsaIo .recv false (.error EAGAIN)

/-- Put a packet behind the others, if there is one. -/
def pushPacket (s : Life E) (w : Option ℕ) : Life E := { s with sendList := s.sendList ++ w.toList }

/-- `connection_push_packet`. -/
def connectionPushPacket (s : Life E) (w : Option ℕ) : Life E := s.pushPacket w

/-- `prepare_send` finds something to send. -/
def prepareSend (s : Life E) : Bool := s.sendList.any (0 < ·)

/-- `connection_send`. `WSASend` asserts that it is given a request. -/
def connectionSend (s : Life E) (w : Option ℕ) : Exec (Life E) :=
  let s := s.pushPacket w
  if s.isUsed .send then .ok s
  else if s.prepareSend then (s.setUsed .send true).wsaIo .send false (.error EAGAIN)
  else .error .assertion

/-- `connection_active_close`. Closing the descriptor leaves the requests in their queues. -/
def connectionActiveClose (s : Life E) : Life E :=
  ((s.setUsed .recv false).setUsed .send false).onDisconnect

/-- `connection_destroy`: the value it returns. -/
def connectionDestroy (s : Life E) : ℤ × Life E :=
  if !s.isUsed .recv && !s.isUsed .send then (0, { s with freed := true }) else (-1, s)

/-! ## The completion handlers -/

/-- `update_send_list` on the sizes of the packets. -/
def updateSendList : List ℕ → ℕ → Exec (List ℕ)
  | ws, 0 => .ok ws
  | [], _ + 1 => .error .assertion
  | w :: ws, bytes + 1 =>
    if w ≤ bytes + 1 then updateSendList ws (bytes + 1 - w) else .ok ((w - (bytes + 1)) :: ws)

/-- The end of the stream or an error: the flag is cleared, and if the other request is not in use
either, the connection is reported. -/
def transferFailed (s : Life E) (d other : Dir) : Life E :=
  let s := { s.setUsed d false with ended := s.ended || d == .recv, handler := .idle }
  if s.isUsed other then s else s.onDisconnect

/-- `RecvFinish` with the outcome of a transfer, up to where the packets received have been handed
over. -/
def recvFinish (s : Life E) (result : IoResult) : Exec (Life E) :=
  match result with
  | .bytes 0 => .ok (s.transferFailed .recv .send)
  | .bytes (_ + 1) => .ok { s with handler := .more .recv }
  | .error errno =>
    if errno = EAGAIN then .ok { s with handler := .idle } else .ok (s.transferFailed .recv .send)

/-- The rest of a round of `RecvFinish`: the next transfer is tried at once. -/
def recvMore (s : Life E) (result : IoResult) : Exec (Life E) := do
  let s ← (s.setUsed .recv true).wsaIo .recv true result
  return { s with handler := .finish .recv result }

/-- `SendFinish` with the outcome of a transfer, up to where the packets sent have been handed
over. -/
def sendFinish (s : Life E) (result : IoResult) : Exec (Life E) :=
  match result with
  | .bytes 0 => .ok (s.transferFailed .send .recv)
  | .bytes (n + 1) => do
    return { s with sendList := ← updateSendList s.sendList (n + 1), handler := .more .send }
  | .error errno =>
    if errno = EAGAIN then .ok { s with handler := .idle } else .ok (s.transferFailed .send .recv)

/-- The rest of a round of `SendFinish`: it ends if there is nothing left to send. -/
def sendMore (s : Life E) (result : IoResult) : Exec (Life E) :=
  if s.prepareSend then do
    let s ← s.wsaIo .send true result
    return { s with handler := .finish .send result }
  else .ok { s.setUsed .send false with handler := .idle }

/-! ## Steps -/

/-- The steps of a run. `ready` is the `_recv` or `_send` of `Process` with the answer of the kernel,
`resume` goes on with the handler that is running, up to where the application may run again. -/
inductive Op
  | startRecv
  | push (w : Option ℕ)
  | send (w : Option ℕ)
  | activeClose
  | destroy
  | event (d : Dir)
  | ready (d : Dir) (result : IoResult)
  | resume (result : IoResult)
  deriving DecidableEq

/-- `_recv` or `_send`, which calls the handler unless the transfer would block. -/
def ready (s : Life E) (d : Dir) (result : IoResult) : Exec (Life E) := do
  let (_, called, net) ← Net.tryIo d s.net () result
  return { s with net := net, handler := if called then .finish d result else .idle }

def resume (s : Life E) (result : IoResult) : Exec (Life E) :=
  match s.handler with
  | .idle => .ok s
  | .finish .recv r => s.recvFinish r
  | .finish .send r => s.sendFinish r
  | .more .recv => s.recvMore result
  | .more .send => s.sendMore result

/-- One step of a connection that has not been freed. A handler runs to its end before the engine
looks at the socket again. -/
def step (s : Life E) (op : Op) : Exec (Life E) :=
  if s.freed then .error .freed
  else match op with
    | .startRecv => s.connectionStartRecv
    | .push w => .ok (s.connectionPushPacket w)
    | .send w => s.connectionSend w
    | .activeClose => .ok s.connectionActiveClose
    | .destroy => .ok s.connectionDestroy.2
    | .event d => do return { s with net := ← Net.onActive d s.net () }
    | .ready d result =>
      match s.handler with
      | .idle => s.ready d result
      | _ => .ok s
    | .resume result => s.resume result

/-- `connection_create`, on a socket bound to an engine or not. -/
def connectionCreate (engine : Option E) : Life E where
  net := ⟨fun _ => ⟨engine, false, false, false⟩, ⟨fun _ => .empty, fun _ => none⟩,
    ⟨fun _ => .empty, fun _ => none⟩⟩
  handler := .idle
  started := false
  isUsed _ := false
  sendList := []
  ended := false
  reported := false
  freed := false

end Life

end Kendylib
