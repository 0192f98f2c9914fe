import Kendylib.Net.DescriptorRuns
import Kendylib.Foundations.Run

/-!
# The acceptor

`src/Acceptor.c`, with the calls of `src/SocketWrapper.c` that it makes. An acceptor listens at any
number of addresses. `acceptor_run` waits in `select`, accepts on every descriptor that is reported until
`Accept` fails, hands each connection to the callback of the listener, and makes up the set of descriptors
again, which `select` has overwritten.

* The kernel has the connections that have come in on a descriptor and have not been accepted
  (`backlog`). Connections come in at any time, and callbacks and the program elsewhere make calls on the
  pool of sockets at any time.
* `select` is called for the descriptors below 100, whatever the set has.
* A connection that is accepted when no handle is left is closed at once, and the listener has to wait for
  the next `select`.

What is left out is the clock: `acceptor_run` returns and is called again in the state in which it waits in
`select`.
-/

namespace Kendylib.Accepting

open Pool

variable {E R U C : Type}

/-- A `struct st_listen`. What is called for a connection is `accept_callback` with `ud`; the two are
`ud` here. -/
structure StListen (U : Type) where
  sock : ℤ
  realFd : ℕ
  ud : U

/-- A `struct acceptor`. -/
structure Acceptor (U : Type) where
  set : ℕ → Bool
  stListens : List (StListen U)

/-- `FD_SETSIZE`. -/
def fdSetsize : ℕ := 1024

/-- `FD_SET`. -/
def fdSet (set : ℕ → Bool) (fd : ℕ) : Exec (ℕ → Bool) :=
  if fd < fdSetsize then .ok (Function.update set fd true) else .error .outOfBounds

/-- `FD_ISSET`. -/
def fdIsset (set : ℕ → Bool) (fd : ℕ) : Exec Bool :=
  if fd < fdSetsize then .ok (set fd) else .error .outOfBounds

/-! ## Making an acceptor -/

/-- The answers of the kernel in `Tcp_Listen`: of `socket`, `bind` and `listen`. -/
structure Answers where
  socket : Option ℕ
  bind : Bool
  listen : Bool

/-- `Tcp_Listen`, for an address that `inet_pton` can read. -/
def tcpListen (p : Pool E R) (k : Answers) : ℤ × Pool E R :=
  let (sock, p) := p.openSocket k.socket
  if sock < 0 then (-1, p)
  else if !k.bind then (-1, p.closeSocket sock)
  else if k.listen then (sock, p)
  else (-1, p.closeSocket sock)

/-- Where `acceptor_run` is: in `select`, or in its loop with these listeners to come. -/
inductive Place (U : Type)
  | select
  | scan (rest : List (StListen U))

/-- What has become of a connection. -/
inductive Outcome
  /-- The callback was called with this handle. -/
  | handed (client : ℤ)
  /-- There was no handle for it. -/
  | turnedAway
  /-- The client has given it up. -/
  | aborted
  deriving DecidableEq

/-- A connection that a listener has taken. -/
structure Deed (U C : Type) where
  listener : StListen U
  conn : C
  outcome : Outcome

/-- The pool, the acceptor and the kernel. Only for the record are the connections that have `arrived` on a
descriptor, what has become of them (`deeds`), how many had come when `select` returned last (`due`), and
whether `Accept` has failed since with a connection waiting. -/
structure Server (E R U C : Type) where
  pool : Pool E R
  acceptor : Acceptor U
  place : Place U
  backlog : ℕ → List C
  arrived : ℕ → List C
  deeds : List (Deed U C)
  due : ℕ → ℕ
  failed : ℕ → Bool

/-- The answer of `accept` if a connection is waiting. -/
inductive Answer
  | taken (fd : ℕ)
  | aborted
  | failed
  deriving DecidableEq

inductive Event (E R C : Type)
  | arrive (fd : ℕ) (c : C)
  | call (c : Call E R)
  | select (interrupted : Bool)
  | next (answer : Answer)

namespace Server

/-- The end of a round: the set is made up again. -/
def rebuild (x : Server E R U C) : Exec (Server E R U C) := do
  let set ← x.acceptor.stListens.foldlM (fun set l => fdSet set l.realFd) fun _ => false
  return { x with acceptor := { x.acceptor with set := set }, place := .select }

/-- `Accept` has returned `-1` with a connection waiting. -/
def fail (x : Server E R U C) (l : StListen U) (rest : List (StListen U)) : Server E R U C :=
  { x with place := .scan rest, failed := Function.update x.failed l.realFd true }

/-- The first connection waiting on `fd` is gone. -/
def take (x : Server E R U C) (l : StListen U) (fd : ℕ) (c : C) (cs : List C) (o : Outcome) :
    Server E R U C :=
  { x with backlog := Function.update x.backlog fd cs, deeds := x.deeds ++ [⟨l, c, o⟩] }

/-- A round of the loop that accepts. The answer `aborted` makes `Accept` call `accept` again. -/
def accept (x : Server E R U C) (l : StListen U) (rest : List (StListen U)) (answer : Answer) :
    Server E R U C :=
  match x.pool.getSocketByHandle l.sock with
  | none => x.fail l rest
  | some s =>
    match x.backlog (x.pool.fd s), answer with
    | [], _ => { x with place := .scan rest }
    | c :: cs, .taken n =>
      let (client, p) := x.pool.accept l.sock (some n)
      if client < 0 then { x.take l (x.pool.fd s) c cs .turnedAway with pool := p }.fail l rest
      else { x.take l (x.pool.fd s) c cs (.handed client) with pool := p }
    | c :: cs, .aborted => x.take l (x.pool.fd s) c cs .aborted
    | _ :: _, .failed => x.fail l rest

/-- The descriptors that `select` reports. -/
def ready (x : Server E R U C) (fd : ℕ) : Bool :=
  x.acceptor.set fd && decide (fd < 100) && !(x.backlog fd).isEmpty

variable [DecidableEq E] [DecidableEq R]

/-- A step. The set does not change while the listeners are gone through, so that `FD_ISSET` may be
evaluated again before each `Accept`. -/
def step (x : Server E R U C) : Event E R C → Exec (Server E R U C)
  | .arrive fd c => .ok { x with
      backlog := Function.update x.backlog fd (x.backlog fd ++ [c])
      arrived := Function.update x.arrived fd (x.arrived fd ++ [c]) }
  | .call c => do return { x with pool := ← x.pool.call c }
  | .select interrupted =>
    match x.place with
    | .scan _ => .ok x
    | .select =>
      if interrupted then x.rebuild
      else
        let x := { x with
          due := fun fd => if fd < 100 then (x.arrived fd).length else 0
          failed := fun _ => false }
        if (List.range 100).any x.ready then
          .ok { x with
            acceptor := { x.acceptor with set := x.ready }
            place := .scan x.acceptor.stListens }
        else x.rebuild
  | .next answer =>
    match x.place with
    | .select => .ok x
    | .scan [] => x.rebuild
    | .scan (l :: rest) => do
      if ← fdIsset x.acceptor.set l.realFd then return x.accept l rest answer
      else return { x with place := .scan rest }

/-- Nobody has come yet. -/
def start (p : Pool E R) (a : Acceptor U) : Server E R U C :=
  ⟨p, a, .select, fun _ => [], fun _ => [], [], fun _ => 0, fun _ => false⟩

end Server

end Kendylib.Accepting
