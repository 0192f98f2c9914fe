import Kendylib.Net.Engine

/-!
# Handles

The pool of sockets of `src/HandleMgr.c` and the calls of `src/SocketWrapper.c` and
`src/KendyNet.c` that take a handle. A handle is the place of a socket in the pool; a socket object
is made when no released one is left and is never freed, so it outlives the handles given out for
it.

* The kernel answers `socket` and `accept` with a descriptor, or with none; `Pool.opened` has the
  descriptors that are open.
* A round of the inner loop of `epoll_loop` is cut where a callback may run (`Phase`): `OnRead` runs
  behind the `_recv` of `Process` and `OnWrite` behind its `_send`, and what they do are calls like
  those made elsewhere.
-/

namespace Kendylib

/-- `MAX_SOCKET`. -/
def maxSocket : ℕ := 4096

/-- Where `epoll_loop` is: outside of its inner loop, or processing the socket `s` of the engine `n`,
before `_recv`, before `_send`, or behind it, with what the two returned. -/
inductive Phase (E : Type)
  | idle
  | recv (n : E) (s : ℕ)
  | send (n : E) (s : ℕ) (re : ℤ)
  | finish (n : E) (s : ℕ) (re se : ℤ)

/-- The sockets and their engines, the pool, and the open descriptors. `count` is
`current_socket_count`. -/
structure Pool (E R : Type) where
  net : Net E ℕ R
  phase : Phase E
  status : ℕ → Bool
  fd : ℕ → ℕ
  count : ℕ
  opened : ℕ → Bool

namespace Pool

variable {E R : Type}

/-! ## The pool -/

/-- `GetSocketByHandle`. -/
def getSocketByHandle (p : Pool E R) (h : ℤ) : Option ℕ :=
  if 0 ≤ h ∧ h.toNat < p.count ∧ p.status h.toNat = true then some h.toNat else none

/-- `create_socket`, for the next place of the pool. -/
def createSocket (p : Pool E R) : Pool E R :=
  { p with net := { p.net.setSocket p.count ⟨none, false, false, false⟩ with
    pending := (p.net.pending.setList (.send, p.count) .empty).setList (.recv, p.count) .empty } }

/-- The first socket of the pool that was released. -/
def released (p : Pool E R) : Option ℕ := (List.range p.count).find? fun i => !p.status i

/-- `NewSocketWrapper`: a released socket, or a new one if there is room. -/
def newSocketWrapper (p : Pool E R) : Option ℕ × Pool E R :=
  match p.released with
  | some i => (some i, { p with status := Function.update p.status i true })
  | none =>
    if p.count < maxSocket then
      let p := p.createSocket
      (some p.count,
        { p with status := Function.update p.status p.count true, count := p.count + 1 })
    else (none, p)

/-- `InitSocket`. -/
def initSocket (p : Pool E R) (s fd : ℕ) : Pool E R :=
  let net := p.net.setSocket s ⟨none, false, false, false⟩
  { p with
    fd := Function.update p.fd s fd
    net := { net with
      actived := net.actived.setNext s none
      pending := (net.pending.setList (.send, s) .empty).setList (.recv, s) .empty } }

/-- `close`, which fails on a descriptor that is not open. -/
def close (p : Pool E R) (fd : ℕ) : Pool E R :=
  { p with opened := Function.update p.opened fd false }

/-- Give out a handle for the descriptor `fd`, which the kernel has opened. -/
def adopt (p : Pool E R) (fd : ℕ) : ℤ × Pool E R :=
  let p := { p with opened := Function.update p.opened fd true }
  match p.newSocketWrapper with
  | (none, p) => (-1, p.close fd)
  | (some s, p) => (s, p.initSocket s fd)

/-- `OpenSocket`, with the answer of `socket`. -/
def openSocket (p : Pool E R) (fd : Option ℕ) : ℤ × Pool E R :=
  match fd with
  | none => (-1, p)
  | some fd => p.adopt fd

/-- `Accept`, with the answer of `accept`. -/
def accept (p : Pool E R) (sock : ℤ) (fd : Option ℕ) : ℤ × Pool E R :=
  match p.getSocketByHandle sock with
  | none => (-1, p)
  | some _ => p.openSocket fd

/-- `CloseSocket`. -/
def closeSocket (p : Pool E R) (sock : ℤ) : Pool E R :=
  match p.getSocketByHandle sock with
  | none => p
  | some s => p.close (p.fd s)

/-- `ReleaseSocketWrapper`. Taking the descriptor out of the poller changes nothing here: events are
inputs. -/
def releaseSocketWrapper (p : Pool E R) (handle : ℤ) : Pool E R :=
  match p.getSocketByHandle handle with
  | none => p
  | some s => { p.close (p.fd s) with status := Function.update p.status s false }

/-- `ReleaseSocket`. -/
def releaseSocket (p : Pool E R) (sock : ℤ) : Pool E R := p.releaseSocketWrapper sock

/-- `Bind2Engine`, with the answer of `epoll_ctl`. -/
def bind2Engine (p : Pool E R) (e : E) (sock : ℤ) (registered : Bool) : Pool E R :=
  match p.getSocketByHandle sock with
  | none => p
  | some s =>
    if registered then
      { p with net := p.net.setSocket s { p.net.socket s with engine := some e } }
    else p

/-- An empty pool, engines with empty lists, and some descriptors open that are not of the pool. -/
def start (opened : ℕ → Bool) : Pool E R where
  net := ⟨fun _ => ⟨none, false, false, false⟩, ⟨fun _ => .empty, fun _ => none⟩,
    ⟨fun _ => .empty, fun _ => none⟩⟩
  phase := .idle
  status _ := false
  fd _ := 0
  count := 0
  opened := opened

/-! ## Steps -/

/-- The calls of a user, with the answers of the kernel. -/
inductive Call (E R : Type)
  | openSocket (fd : Option ℕ)
  | accept (sock : ℤ) (fd : Option ℕ)
  | closeSocket (sock : ℤ)
  | releaseSocket (sock : ℤ)
  | bind2Engine (e : E) (sock : ℤ) (registered : Bool)
  | wsaIo (d : Dir) (sock : ℤ) (io : R) (now : Bool) (result : IoResult)

variable [DecidableEq E] [DecidableEq R]

def call (p : Pool E R) : Call E R → Exec (Pool E R)
  | .openSocket fd => .ok (p.openSocket fd).2
  | .accept sock fd => .ok (p.accept sock fd).2
  | .closeSocket sock => .ok (p.closeSocket sock)
  | .releaseSocket sock => .ok (p.releaseSocket sock)
  | .bind2Engine e sock registered => .ok (p.bind2Engine e sock registered)
  | .wsaIo d sock io now result => do
    let (_, _, net) ← p.net.wsaIo d (p.getSocketByHandle sock) io now result
    return { p with net := net }

/-- `epoll_loop` on the engine `n` goes on to the next place where a callback may run. `result` is
the answer of the kernel to the request that is tried. -/
def epollLoopStep (p : Pool E R) (n : E) (result : IoResult) : Exec (Pool E R) :=
  match p.phase with
  | .idle =>
    if p.net.actived.linkListIsEmpty n then .ok p
    else do
      let (s, actived) ← p.net.actived.linkListPop n
      let s ← Exec.deref s
      let net := { p.net.setSocket s { p.net.socket s with isactived := false } with
        actived := actived }
      return { p with net := net, phase := .recv n s }
  | .recv n s => do
    let (re, _, net) ← Net.tryIo .recv p.net s result
    return { p with net := net, phase := .send n s re }
  | .send n s re => do
    let (se, _, net) ← Net.tryIo .send p.net s result
    return { p with net := net, phase := .finish n s re se }
  | .finish n s re se =>
    if decide (0 < re) && decide (0 < se) && !(p.net.socket s).isactived then do
      return { p with net := ← p.net.activate n s, phase := .idle }
    else .ok { p with phase := .idle }

/-- The steps of a run: a call, by a callback or by the program elsewhere, an event of the poller for
a socket of the pool, and a step of `epoll_loop`. -/
inductive Op (E R : Type)
  | call (c : Call E R)
  | event (d : Dir) (s : ℕ)
  | loop (n : E) (result : IoResult)

def step (p : Pool E R) : Op E R → Exec (Pool E R)
  | .call c => p.call c
  | .event d s =>
    if s < p.count then do
      let net ← (match d with
        | .recv => p.net.onReadActive s
        | .send => p.net.onWriteActive s)
      return { p with net := net }
    else .ok p
  | .loop n result => p.epollLoopStep n result

end Pool

end Kendylib
