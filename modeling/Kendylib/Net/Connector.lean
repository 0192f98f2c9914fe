import Kendylib.Foundations.Exec
import Kendylib.Foundations.Word
import Mathlib.Logic.Function.Basic

/-!
# The connector

`Connector.c`: sockets that are being connected. `connector_connect` puts a request whose socket is
not connected at once into `extern_pending_connect`. `connector_run` takes the requests from there
into `_pending_connect`, and then waits with `select` for their sockets, for as many rounds as the
time allows. The callback of a request gets its socket, or `-1` where there was no room for the
request or it took too long.

What the system does is given from outside: what the socket calls of a request return, what a
callback does, and for each round what `select` returns and what the clock shows. The connector is
given together with what its users have seen: the requests they made and the callbacks they got.
-/

namespace Kendylib.Connecting

/-! ## Descriptors and the clock -/

/-- `FD_SETSIZE`. -/
def fdSetSize : ℕ := 1024

/-- `fd_set`. -/
abbrev FdSet := ℕ → Bool

/-- `FD_ZERO`. -/
def fdZero : FdSet := fun _ => false

/-- `FD_SET`: the set has `FD_SETSIZE` bits. -/
def fdSet (fd : ℕ) (set : FdSet) : Exec FdSet :=
  if fd < fdSetSize then .ok (Function.update set fd true) else .error .outOfBounds

/-- `FD_ISSET`. -/
def fdIsset (fd : ℕ) (set : FdSet) : Exec Bool :=
  if fd < fdSetSize then .ok (set fd) else .error .outOfBounds

/-- `GetSystemMs`, after so many milliseconds, in the 32-bit word that the callers keep it in. -/
def getSystemMs (time : ℕ) : ℕ := time % 0x100000000

/-! ## Requests -/

/-- A call of `connector_connect`: what `OpenSocket`, `inet_pton`, `setNonblock` and `Connect`
return, the descriptor of the socket, the time, and the calls of `connector_connect` that the
callback makes. -/
inductive Connect
  | call (sock inetPton setNonblock connected : ℤ) (realFd now ms : ℕ) (callBack : List Connect)

/-- `pending_connect`. The number of the request stands for the callback and for what it gets beside
the socket: `ip`, `port` and `ud`. -/
structure PendingConnect where
  request : ℕ
  sock : ℤ
  realFd : ℕ
  callBack : List Connect
  timeout : ℕ

/-- A request that has been accepted: when it was, and how long it may take. -/
structure Request where
  start : ℕ
  ms : ℕ

/-- A callback that has been run, with the handle it got. -/
structure Answer where
  request : ℕ
  handle : ℤ
  deriving DecidableEq

/-- `struct connector`, with the requests that it has accepted and those that it has answered. -/
structure Connector where
  set : FdSet
  pendingConnect : List PendingConnect
  fdSeisize : ℕ
  externPendingConnect : List PendingConnect
  accepted : List Request
  answers : List Answer

/-- `connector_create`. -/
def connectorCreate : Connector := ⟨fdZero, [], 0, [], [], []⟩

def Connector.accept (c : Connector) (r : Request) : Connector :=
  { c with accepted := c.accepted ++ [r] }

def Connector.answer (c : Connector) (request : ℕ) (handle : ℤ) : Connector :=
  { c with answers := c.answers ++ [⟨request, handle⟩] }

def Connector.pushExtern (c : Connector) (pc : PendingConnect) : Connector :=
  { c with externPendingConnect := c.externPendingConnect ++ [pc] }

mutual

/-- `connector_connect`, with what it returns. -/
def connectorConnect (c : Connector) : Connect → Connector × ℤ
  | .call sock inetPton setNonblock connected realFd now ms callBack =>
    if sock < 0 then (c, -1)
    else if inetPton < 0 then (c, -1)
    else if ms > 0 ∧ setNonblock ≠ 0 then (c, -1)
    else
      let request := c.accepted.length
      let c := c.accept ⟨now, ms⟩
      if connected = 0 then (runCallBack (c.answer request sock) callBack, 0)
      else (c.pushExtern ⟨request, sock, realFd, callBack, add32 (getSystemMs now) ms⟩, 0)

/-- What a callback does. -/
def runCallBack (c : Connector) : List Connect → Connector
  | [] => c
  | call :: calls => runCallBack (connectorConnect c call).1 calls

end

/-- `pc->call_back`. -/
def Connector.callBack (c : Connector) (pc : PendingConnect) (handle : ℤ) : Connector :=
  runCallBack (c.answer pc.request handle) pc.callBack

/-! ## `connector_run` -/

/-- `link_list_swap`: both lists afterwards. -/
def linkListSwap {α : Type} (dst src : List α) : List α × List α := (dst ++ src, [])

/-- The requests are taken over from the list `_l`. -/
def takeOver (c : Connector) : List PendingConnect → Exec Connector
  | [] => .ok c
  | pc :: l =>
    if c.fdSeisize ≥ fdSetSize then takeOver (c.callBack pc (-1)) l
    else do
      let set ← fdSet pc.realFd c.set
      takeOver { c with
        set := set
        pendingConnect := c.pendingConnect ++ [pc]
        fdSeisize := add32 c.fdSeisize 1 } l

/-- The requests whose descriptor `select` has left in the set, among the first ones. -/
def scan (c : Connector) : ℕ → Exec Connector
  | 0 => .ok c
  | n + 1 =>
    match c.pendingConnect with
    | [] => scan c n
    | pc :: rest => do
      let c := { c with pendingConnect := rest }
      if ← fdIsset pc.realFd c.set then
        let c := c.callBack pc pc.sock
        scan { c with fdSeisize := sub32 c.fdSeisize 1 } n
      else scan { c with pendingConnect := c.pendingConnect ++ [pc] } n

/-- The requests that have run out of time, among the first ones; the others are put into the set
for the next `select`. -/
def checkTimeouts (tick : ℕ) (c : Connector) : ℕ → Exec Connector
  | 0 => .ok c
  | n + 1 =>
    match c.pendingConnect with
    | [] => .error .nullPointer
    | pc :: rest => do
      let c := { c with pendingConnect := rest }
      if tick ≥ pc.timeout then
        let c := c.callBack pc (-1)
        checkTimeouts tick { c with fdSeisize := sub32 c.fdSeisize 1 } n
      else do
        let c := { c with pendingConnect := c.pendingConnect ++ [pc] }
        let set ← fdSet pc.realFd c.set
        checkTimeouts tick { c with set := set } n

/-- What a round depends on: the result of `select` with the descriptors that are ready, and the
time at the check of the timeouts and at the end. -/
structure Round where
  total : ℤ
  ready : FdSet
  checkedAt : ℕ
  endedAt : ℕ

/-- `select` leaves the descriptors in the set that are ready. -/
def select (r : Round) (set : FdSet) : FdSet := fun fd => set fd && r.ready fd

/-- The first part of a round: `select`, and the scan from the counter `i` on. -/
def selectAndScan (i : ℕ) (c : Connector) (r : Round) : Exec Connector :=
  let size := c.pendingConnect.length
  let c := { c with set := select r c.set }
  if r.total > 0 then scan c (size - i) else .ok c

/-- The second part of a round: the check of all timeouts, with the counter that it leaves. -/
def checkAll (c : Connector) (r : Round) : Exec (ℕ × Connector) := do
  let c := { c with set := fdZero }
  let tick := getSystemMs r.checkedAt
  let size := c.pendingConnect.length
  return (size, ← checkTimeouts tick c size)

/-- The loop of `connector_run`, from the counter `i` on. -/
def runLoop (timeout : ℕ) (i : ℕ) (c : Connector) : List Round → Exec Connector
  | [] => if c.pendingConnect.length = 0 then .ok c else .error .fuel
  | r :: rounds =>
    if c.pendingConnect.length = 0 then .ok c
    else do
      let q ← checkAll (← selectAndScan i c r) r
      if getSystemMs r.endedAt < timeout then runLoop timeout q.1 q.2 rounds else .ok q.2

/-- `connector_run`. -/
def connectorRun (c : Connector) (now ms : ℕ) (rounds : List Round) : Exec Connector := do
  let timeout := add32 (getSystemMs now) ms
  let q := linkListSwap [] c.externPendingConnect
  let c ← takeOver { c with externPendingConnect := q.2 } q.1
  runLoop timeout 0 c rounds

end Kendylib.Connecting
