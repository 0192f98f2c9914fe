import Kendylib.Net.LinkList
import Mathlib.Data.Fintype.Prod

/-!
# Sockets and the engine's active list

The request queues of `src/Socket.c`, `src/KendyNet.c` and `src/epoll.c`. A socket keeps the
requests that wait for `readv` and `writev` in two lists, with a flag for each direction that tells
whether the descriptor was ready when last tried. A socket with something to do is put in the list
`actived` of its engine, and `isactived` records that it is there. `epoll_loop` takes the sockets
off that list one by one and lets `Process` try one request of each direction.

The functions for reading and for writing differ in the fields they use only; each is one
definition applied to a `Dir`. What the kernel answers (`IoResult`) and what the callbacks do are
inputs of the model: a callback `OnRead` or `OnWrite` is the list of requests it posts.
-/

namespace Kendylib

/-- The direction of a request. -/
inductive Dir
  | recv
  | send
  deriving DecidableEq

instance : Fintype Dir := ⟨{.recv, .send}, fun d => by cases d <;> decide⟩

/-- What `readv` or `writev` answers: a count of bytes, or `-1` with an `errno`. -/
inductive IoResult
  | bytes (n : ℕ)
  | error (errno : UInt32)
  deriving DecidableEq

/-- The `errno` of an operation that would block. -/
def EAGAIN : UInt32 := 11

/-- A `socket_wrapper`, without its lists. -/
structure Socket (E : Type) where
  engine : Option E
  isactived : Bool
  readable : Bool
  writeable : Bool

/-- The flag of a direction: `readable` or `writeable`. -/
def Socket.ready {E : Type} (sock : Socket E) : Dir → Bool
  | .recv => sock.readable
  | .send => sock.writeable

def Socket.setReady {E : Type} (sock : Socket E) (b : Bool) : Dir → Socket E
  | .recv => { sock with readable := b }
  | .send => { sock with writeable := b }

@[simp] theorem Socket.ready_setReady {E : Type} (sock : Socket E) (b : Bool) (d d' : Dir) :
    (sock.setReady b d).ready d' = if d' = d then b else sock.ready d' := by
  cases d <;> cases d' <;> rfl

@[simp] theorem Socket.isactived_setReady {E : Type} (sock : Socket E) (b : Bool) (d : Dir) :
    (sock.setReady b d).isactived = sock.isactived := by
  cases d <;> rfl

@[simp] theorem Socket.engine_setReady {E : Type} (sock : Socket E) (b : Bool) (d : Dir) :
    (sock.setReady b d).engine = sock.engine := by
  cases d <;> rfl

/-- The sockets `S` with requests `R`, and the lists of the engines `E`: `actived` holds the list of
each engine, `pending` the lists `pending_recv` and `pending_send` of each socket. -/
structure Net (E S R : Type) where
  socket : S → Socket E
  actived : Lists E S
  pending : Lists (Dir × S) R

/-- A request posted with `now = 0`. -/
structure Post (S R : Type) where
  dir : Dir
  sock : S
  io : R

namespace Net

variable {E S R : Type} [DecidableEq E] [DecidableEq S] [DecidableEq R]

omit [DecidableEq E] [DecidableEq R] in
def setSocket (st : Net E S R) (s : S) (sock : Socket E) : Net E S R :=
  { st with socket := Function.update st.socket s sock }

/-- Set `isactived` and put the socket in the list `actived` of the engine `e`. -/
def activate (st : Net E S R) (e : E) (s : S) : Exec (Net E S R) := do
  let actived ← st.actived.linkListPushBack e s
  return { st.setSocket s { st.socket s with isactived := true } with actived := actived }

/-- `on_read_active` and `on_write_active`. -/
def onActive (d : Dir) (st : Net E S R) (s : S) : Exec (Net E S R) := do
  let st := st.setSocket s ((st.socket s).setReady true d)
  if !(st.socket s).isactived && !st.pending.linkListIsEmpty (d, s) then
    st.activate (← Exec.deref (st.socket s).engine) s
  else return st

def onReadActive (st : Net E S R) (s : S) : Exec (Net E S R) := onActive .recv st s

def onWriteActive (st : Net E S R) (s : S) : Exec (Net E S R) := onActive .send st s

/-- `raw_recv` and `raw_send`: the return value, the bytes transferred and the error code. -/
def rawIo (d : Dir) (st : Net E S R) (s : S) (io : R) (result : IoResult) :
    Exec (Int × Int × UInt32 × Net E S R) :=
  match result with
  | .bytes n => .ok (n, n, 0, st)
  | .error errno =>
    if errno = EAGAIN then do
      -- the request goes back to the front of its queue
      let pending ← st.pending.linkListPushFront (d, s) io
      let st := st.setSocket s ((st.socket s).setReady false d)
      return (-1, -1, errno, { st with pending := pending })
    else .ok (-1, -1, errno, st)

def rawRecv (st : Net E S R) (s : S) (io : R) (result : IoResult) :
    Exec (Int × Int × UInt32 × Net E S R) := rawIo .recv st s io result

def rawSend (st : Net E S R) (s : S) (io : R) (result : IoResult) :
    Exec (Int × Int × UInt32 × Net E S R) := rawIo .send st s io result

/-- `WSARecv` and `WSASend` on the socket that `GetSocketByHandle` answers: the return value and the
error code. The answer of the kernel is used when `now` is set. -/
def wsaIo (d : Dir) (st : Net E S R) (sock : Option S) (io : R) (now : Bool) (result : IoResult) :
    Exec (Int × UInt32 × Net E S R) :=
  match sock with
  | none => .ok (-1, 0, st)
  | some s =>
    if now then do
      let (ret, _, errCode, st) ← rawIo d st s io result
      return (ret, errCode, st)
    else do
      let st := { st with pending := ← st.pending.linkListPushBack (d, s) io }
      let sock := st.socket s
      let st ← (match sock.engine with
        | some e => if sock.ready d && !sock.isactived then st.activate e s else pure st
        | none => pure st)
      return (-1, EAGAIN, st)

def WSARecv (st : Net E S R) (sock : Option S) (io : R) (now : Bool) (result : IoResult) :
    Exec (Int × UInt32 × Net E S R) := wsaIo .recv st sock io now result

def WSASend (st : Net E S R) (sock : Option S) (io : R) (now : Bool) (result : IoResult) :
    Exec (Int × UInt32 × Net E S R) := wsaIo .send st sock io now result

/-- Post a request with `now = 0`. -/
def post (st : Net E S R) (p : Post S R) : Exec (Net E S R) := do
  let (_, _, st) ← match p.dir with
    | .recv => WSARecv st (some p.sock) p.io false (.error EAGAIN)
    | .send => WSASend st (some p.sock) p.io false (.error EAGAIN)
  return st

/-- What a callback does: post requests one after the other. -/
def postAll (st : Net E S R) : List (Post S R) → Exec (Net E S R)
  | [] => .ok st
  | p :: ps => do (← st.post p).postAll ps

/-- `_recv` and `_send` up to the callback: the return value, and whether the callback is called. -/
def tryIo (d : Dir) (st : Net E S R) (s : S) (result : IoResult) :
    Exec (Int × Bool × Net E S R) :=
  if (st.socket s).ready d then do
    match ← st.pending.linkListPop (d, s) with
    | (some io, pending) =>
      let (ret, _, errCode, st) ← rawIo d { st with pending := pending } s io result
      return (ret, decide (0 ≤ ret) || errCode != EAGAIN, st)
    | (none, pending) => return (-1, false, { st with pending := pending })
  else .ok (-1, false, st)

/-- `_recv` and `_send`. -/
def innerIo (d : Dir) (st : Net E S R) (s : S) (result : IoResult) (callback : List (Post S R)) :
    Exec (Int × Net E S R) := do
  let (ret, called, st) ← tryIo d st s result
  return (ret, ← if called then st.postAll callback else pure st)

def innerRecv (st : Net E S R) (s : S) (result : IoResult) (onRead : List (Post S R)) :
    Exec (Int × Net E S R) := innerIo .recv st s result onRead

def innerSend (st : Net E S R) (s : S) (result : IoResult) (onWrite : List (Post S R)) :
    Exec (Int × Net E S R) := innerIo .send st s result onWrite

/-- What the kernel and the callbacks do during one call of `Process`. -/
structure Round (S R : Type) where
  readv : IoResult
  onRead : List (Post S R)
  writev : IoResult
  onWrite : List (Post S R)

/-- `Process`. -/
def process (st : Net E S R) (s : S) (r : Round S R) : Exec (Bool × Net E S R) := do
  let (re, st) ← innerRecv st s r.readv r.onRead
  let (se, st) ← innerSend st s r.writev r.onWrite
  return (decide (0 < re) && decide (0 < se), st)

/-- One round of the inner loop of `epoll_loop`, which ends when `actived` is empty. -/
def epollLoopRound (st : Net E S R) (n : E) (r : Round S R) : Exec (Net E S R) :=
  if st.actived.linkListIsEmpty n then .ok st
  else do
    let (s, actived) ← st.actived.linkListPop n
    let s ← Exec.deref s
    let st := { st.setSocket s { st.socket s with isactived := false } with actived := actived }
    let (again, st) ← process st s r
    if again && !(st.socket s).isactived then st.activate n s else return st

end Net

end Kendylib
