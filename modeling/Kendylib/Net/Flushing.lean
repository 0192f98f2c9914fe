import Kendylib.Foundations.Run
import Kendylib.Net.EngineRuns
import Kendylib.Net.SendRuns

/-!
# Flushing the send queue

The send path of a connection together with the queue `pending_send` of its socket. The request of
the connection is put into that queue by `connection_send`, if it is not in use, taken out by `_send`,
and put back when the descriptor would block. `SendFinish` runs from the answer of `_send` to the end
of its loop, with the application's callbacks in between.

`connection_send` hands `WSASend` what `prepare_send` returns, which is `NULL` if the packets in
`send_list` have no byte left to send, while `SendFinish` looks first. So `WSASend` finds a request in
all calls of a run exactly if `connection_send`, wherever it finds the request free, finds a byte to
send (`flushes_iff`).
-/

namespace Kendylib

open RefHeap Buffer RPacket WPacket Connection Exec
open Held (ownedAll ownedAll_cons)

variable {E S R : Type} [DecidableEq E] [DecidableEq S] [DecidableEq R]

/-- The `errno` behind an answer of the kernel. -/
def IoResult.errno : IoResult → UInt32
  | .bytes _ => 0
  | .error errno => errno

/-- What `raw_send` returns for an answer of the kernel. -/
def IoResult.ret : IoResult → Int
  | .bytes n => n
  | .error _ => -1

/-- A connection and the sockets of the program. While `SendFinish` runs, `sending` has the bytes of
the last write that `update_send_list` has still to take off. -/
structure Flusher (E S R : Type) where
  heap : Heap
  conn : Connection
  net : Net E S R
  sending : Option ℕ

namespace Flusher

/-- A new connection. -/
def start (h : Heap) (isRaw : Bool) (net : Net E S R) : Flusher E S R :=
  ⟨h, connectionCreate isRaw, net, none⟩

inductive Op (E S R : Type)
  | push (w : Option WPacket) (callback : Bool)
  | send (w : Option WPacket) (callback : Bool)
  /-- `_send` of the socket, which calls `SendFinish`. -/
  | process (result : IoResult)
  /-- A round of `update_send_list`, or the next write behind the last round. -/
  | update (result : IoResult)
  /-- What the rest of the program does. -/
  | other (h : Heap) (net : Net E S R)

omit [DecidableEq E] [DecidableEq S] [DecidableEq R] in
/-- The branches of `SendFinish` for what a write returned. -/
def sendFinish (s : Flusher E S R) (bytesTransfer : Int) (errCode : UInt32) : Flusher E S R :=
  if bytesTransfer = 0 ∨ bytesTransfer < 0 ∧ errCode ≠ EAGAIN then
    { s with conn.sendUsed := false, sending := none }
  else if bytesTransfer < 0 then { s with sending := none }
  else { s with sending := some bytesTransfer.toNat }

variable (sock : S) (io : R)

/-- `SendFinish` from a round of `update_send_list` to the next. -/
def update (s : Flusher E S R) (result : IoResult) : Exec (Flusher E S R) :=
  match s.sending with
  | none => .ok s
  | some 0 => do
    let (ready, c) ← prepareSend s.heap s.conn
    if ready then
      let (ret, errCode, net) ← Net.WSASend s.net (some sock) io true result
      return { s with conn := c, net := net }.sendFinish ret errCode
    else return { s with conn := { c with sendUsed := false }, sending := none }
  | some (n + 1) => do
    let (h, c, n, _) ← updateSendRound s.heap s.conn (n + 1)
    return { s with heap := h, conn := c, sending := some n }

/-- The socket of the connection is `sock`, and its request for sending is `io`. -/
def step (s : Flusher E S R) : Op E S R → Exec (Flusher E S R)
  | .push w callback => .ok { s with conn := connectionPushPacket s.conn w callback }
  | .send w callback => do
    let c ← connectionSend s.heap s.conn w callback
    let net ← (if s.conn.sendUsed then .ok s.net else s.net.post ⟨.send, sock, io⟩)
    return { s with conn := c, net := net }
  | .process result => do
    let (ret, called, net) ← Net.tryIo .send s.net sock result
    let s := { s with net := net }
    return if called then s.sendFinish ret result.errno else s
  | .update result => s.update sock io result
  | .other h net => .ok { s with heap := h, net := net }

/-! ## Runs -/

/-- A write takes at most the bytes that were prepared, and returns their number as an `int32_t`. -/
def Takes (vs : List Iovec) (result : IoResult) : Prop :=
  ∀ n, result = .bytes n → n ≤ (vs.map Iovec.len).sum ∧ n < 0x80000000

/-- A packet that the caller hands over: its bytes, of which there may be none, are on its chain. -/
def Handed (s : Flusher E S R) (w : WPacket) : Prop :=
  (∃ own, Sound s.heap (ownedAll s.conn.sendList + (w.owned + own))) ∧
    ∃ bytes, Waiting s.heap w bytes

/-- What happens to a connection. What the rest of the program does leaves the packets that wait where
they are, in buffers that are at most filled further, and the queue `pending_send` of the socket as it
is. -/
def Allowed (s : Flusher E S R) : Op E S R → Prop
  | .push w _ | .send w _ => ∀ v, w = some v → s.Handed v
  | .process result => Takes s.conn.wsendbuf result
  | .update result => ∀ c, prepareSend s.heap s.conn = .ok (true, c) → Takes c.wsendbuf result
  | .other h net => (∃ own, Sound h (ownedAll s.conn.sendList + own)) ∧
    (∀ w ∈ s.conn.sendList, ∀ a, w.buf = some a → GrowsFrom s.heap h a) ∧
    ∃ xp, net.Inv xp ∧ xp (.send, sock) = s.net.pending.nodes (.send, sock) ∧
      ∀ l, l ≠ (.send, sock) → io ∉ xp l

/-- The request is in use only while it is queued or `SendFinish` runs. -/
def Tracked (s : Flusher E S R) : Prop :=
  s.conn.sendUsed = true → io ∈ s.net.pending.nodes (.send, sock) ∨ s.sending ≠ none

omit [DecidableEq E] [DecidableEq S] [DecidableEq R] in
/-- Where the request is free, `connection_send` finds a byte to send. -/
def FindsBytes (s : Flusher E S R) : Op E S R → Prop
  | .send w _ => s.conn.sendUsed = true ∨ ∃ v ∈ s.conn.sendList ++ w.toList, v.dataSize ≠ 0
  | _ => True

end Flusher

/-! ## Preparing a write -/

namespace Connection

variable {h : Heap} {own : Multiset ℕ} {ws : List WPacket} {rest : List (List UInt8)}
  {vs : List Iovec} {conn : Connection} {room : ℕ}

theorem flatten_eq_nil_iff (Q : Queue h ws rest) : rest.flatten = [] ↔ ∀ w ∈ ws, w.dataSize = 0 := by
  induction Q with
  | nil => simp
  | cons W Q ih =>
    rw [List.flatten_cons, List.append_eq_nil_iff, ih, List.forall_mem_cons, W.dataSize,
      List.length_eq_zero_iff]

/-- Packets without bytes have no pieces. -/
theorem preparePackets_empty (hnone : ∀ w ∈ ws, w.dataSize = 0) : preparePackets h room ws = .ok [] := by
  induction ws with
  | nil => rfl
  | cons w ws ih =>
    rw [List.forall_mem_cons] at hnone
    rw [preparePackets, hnone.1, prepareBuffers_zero]
    split_ifs
    · rfl
    · simp only [Exec.ok_bind, List.length_nil, Nat.sub_zero, ih hnone.2]
      rfl

/-- Packets with bytes have pieces. -/
theorem preparePackets_some (S : Sound h own) (Q : Queue h ws rest) (hsome : rest.flatten ≠ [])
    (hroom : 0 < room) (hvs : preparePackets h room ws = .ok vs) : vs ≠ [] := by
  induction Q generalizing vs with
  | nil => exact absurd rfl hsome
  | @cons w bs ws rest W Q ih =>
    obtain ⟨a, ps, b, pos', hbuf, hs, hb⟩ := W.span
    obtain ⟨us, hus, -, -, -, hfound⟩ := prepareBuffers_spec room S hs
    rw [hb.length, ← W.dataSize, ← hbuf] at hus
    rw [preparePackets, if_neg hroom.ne', hus, Exec.ok_bind] at hvs
    obtain ⟨more, hmore, hvs⟩ := Exec.bind_eq_ok.mp hvs
    obtain rfl := Except.ok.inj hvs
    by_cases hps : ps = []
    · -- the packet has nothing to send, and the next ones have the same room
      subst hps
      have hnil : bs = [] := List.eq_nil_of_length_eq_zero hb.length.symm
      rw [W.dataSize, hnil, List.length_nil, prepareBuffers_zero] at hus
      obtain rfl := Except.ok.inj hus
      rw [hnil, List.flatten_cons, List.nil_append] at hsome
      exact ih hsome hmore
    · exact List.append_ne_nil_of_left_ne_nil (hfound hroom hps) more

/-- **`prepare_send`**: there is something to send exactly if a byte waits. -/
theorem prepareSend_bytes (S : Sound h own) (Q : Queue h conn.sendList rest) :
    (rest.flatten = [] ∧ prepareSend h conn = .ok (false, conn)) ∨
      (rest.flatten ≠ [] ∧ ∃ vs, prepareSend h conn = .ok (true, { conn with wsendbuf := vs }) ∧
        (vs.map Iovec.len).sum ≤ rest.flatten.length) := by
  obtain ⟨vs, out, hvs, -, hb, hout, -⟩ := preparePackets_spec maxWbaf S Q
  by_cases hnil : rest.flatten = []
  · refine .inl ⟨hnil, ?_⟩
    rw [prepareSend, preparePackets_empty ((flatten_eq_nil_iff Q).mp hnil)]
    rfl
  · obtain ⟨v, us, rfl⟩ := List.exists_cons_of_ne_nil (preparePackets_some S Q hnil (by decide) hvs)
    refine .inr ⟨hnil, v :: us, by rw [prepareSend, hvs]; rfl, ?_⟩
    have hlen := hb.length
    rw [offeredPlaces, List.length_flatMap] at hlen
    simp only [length_places] at hlen
    rw [hlen]
    exact hout.length_le

end Connection

namespace Flusher

variable {sock : S} {io : R} {s s' : Flusher E S R} {h : Heap} {own : Multiset ℕ} {net : Net E S R}
  {xp : Dir × S → List R} {w : WPacket} {result : IoResult} {n : ℕ} {ops : List (Op E S R)}

set_option linter.unusedSectionVars false

/-! ## The invariant -/

/-- The bytes that wait are on the chains of the packets; a write takes no more than there are. The
request is queued exactly while it is in use and `SendFinish` does not run. -/
structure Inv (sock : S) (io : R) (s : Flusher E S R) : Prop where
  holds : ∃ own, Sound s.heap (ownedAll s.conn.sendList + own)
  rest : ∃ rest, Queue s.heap s.conn.sendList rest ∧ s.sending.getD 0 ≤ rest.flatten.length ∧
    (s.conn.sendUsed = true → s.sending = none →
      (s.conn.wsendbuf.map Iovec.len).sum ≤ rest.flatten.length)
  queue : ∃ xp, s.net.Inv xp ∧ (∀ l, l ≠ (.send, sock) → io ∉ xp l) ∧
    xp (.send, sock) = if s.conn.sendUsed = true ∧ s.sending = none then [io] else []
  used : s.sending ≠ none → s.conn.sendUsed = true

theorem Inv.tracked (I : Inv sock io s) : Tracked sock io s := by
  intro hused
  obtain ⟨xp, N, -, hxp⟩ := I.queue
  by_cases hnone : s.sending = none
  · rw [if_pos ⟨hused, hnone⟩] at hxp
    exact .inl (by rw [N.pending.nodes, hxp]; exact List.mem_singleton.mpr rfl)
  · exact .inr hnone

theorem start_inv (S₀ : Sound h own) (N : net.Inv xp) (hfree : ∀ l, io ∉ xp l)
    (hidle : xp (.send, sock) = []) (isRaw : Bool) : Inv sock io (start h isRaw net) := by
  refine ⟨⟨own, by rwa [show ownedAll (start h isRaw net).conn.sendList = 0 from rfl, zero_add]⟩,
    ⟨[], .nil, le_rfl, fun hused => by cases hused⟩, ⟨xp, N, fun l _ => hfree l, ?_⟩,
    fun hne => absurd rfl hne⟩
  rw [hidle, if_neg (fun hused => by cases hused.1)]

/-- **A packet is put to `send_list`.** -/
theorem Inv.push (I : Inv sock io s) {o : Option WPacket} (hold : ∀ v, o = some v → s.Handed v)
    (callback : Bool) : Inv sock io { s with conn := connectionPushPacket s.conn o callback } := by
  cases o with
  | none =>
    have hsame : connectionPushPacket s.conn none callback = s.conn := by
      rw [connectionPushPacket, Option.map_none, Option.toList_none, List.append_nil]
    rwa [hsame]
  | some w =>
    obtain ⟨⟨own, S'⟩, bytes, W⟩ := hold w rfl
    obtain ⟨rest, Q, hsending, hprepared⟩ := I.rest
    set w' : WPacket := { w with packetSendFinish := callback } with hw'
    have W' : Waiting s.heap w' bytes := ⟨W.dataSize, W.lt, W.span⟩
    have hmore : rest.flatten.length ≤ (rest ++ [bytes]).flatten.length := by
      rw [List.flatten_append, List.length_append]
      exact Nat.le_add_right ..
    refine ⟨⟨own, ?_⟩, ⟨rest ++ [bytes], Q.append W', hsending.trans hmore,
      fun hused hnone => (hprepared hused hnone).trans hmore⟩, I.queue, I.used⟩
    change Sound s.heap (ownedAll (s.conn.sendList ++ [w']) + own)
    rw [ownedAll_append_singleton, add_assoc]
    exact S'

/-- **A write is over.** -/
theorem Inv.finish (hholds : ∃ own, Sound s.heap (ownedAll s.conn.sendList + own))
    (hused : s.conn.sendUsed = true) {rest : List (List UInt8)} (Q : Queue s.heap s.conn.sendList rest)
    (htotal : (s.conn.wsendbuf.map Iovec.len).sum ≤ rest.flatten.length)
    (htakes : Takes s.conn.wsendbuf result) (N : s.net.Inv xp) (hout : ∀ l, l ≠ (.send, sock) → io ∉ xp l)
    (hxp : xp (.send, sock) = if result = .error EAGAIN then [io] else []) :
    Inv sock io (s.sendFinish result.ret result.errno) := by
  cases result with
  | bytes n =>
    rw [if_neg nofun] at hxp
    rw [sendFinish, IoResult.errno, IoResult.ret]
    by_cases hn : n = 0
    · rw [if_pos (.inl (by omega))]
      exact ⟨hholds, ⟨rest, Q, Nat.zero_le _, fun hused => by cases hused⟩, ⟨xp, N, hout, by
        rw [hxp, if_neg (fun hused => by cases hused.1)]⟩, fun hne => absurd rfl hne⟩
    · rw [if_neg (by omega), if_neg (by omega)]
      refine ⟨hholds, ⟨rest, Q, ?_, fun _ hnone => by cases hnone⟩, ⟨xp, N, hout, ?_⟩, fun _ => hused⟩
      · rw [Option.getD_some, Int.toNat_natCast]
        exact (htakes n rfl).1.trans htotal
      rw [hxp, if_neg (fun hboth => by cases hboth.2)]
  | error errno =>
    rw [sendFinish, IoResult.errno, IoResult.ret]
    by_cases hagain : errno = EAGAIN
    · rw [hagain, if_pos rfl] at hxp
      rw [if_neg (by simp [hagain]), if_pos (by decide)]
      exact ⟨hholds, ⟨rest, Q, Nat.zero_le _, fun _ _ => htotal⟩, ⟨xp, N, hout, by
        rw [hxp, if_pos ⟨hused, rfl⟩]⟩, fun hne => absurd rfl hne⟩
    · rw [if_neg (fun heq => hagain (IoResult.error.inj heq))] at hxp
      rw [if_pos (.inr ⟨by decide, hagain⟩)]
      exact ⟨hholds, ⟨rest, Q, Nat.zero_le _, fun hused => by cases hused⟩, ⟨xp, N, hout, by
        rw [hxp, if_neg (fun hused => by cases hused.1)]⟩, fun hne => absurd rfl hne⟩

/-! ## Steps -/

/-- **`_send`** takes the request out of the queue, and `SendFinish` begins unless it goes back. -/
theorem Inv.process (I : Inv sock io s) (htakes : Takes s.conn.wsendbuf result) :
    ∃ s', step sock io s (.process result) = .ok s' ∧ Inv sock io s' := by
  obtain ⟨xp, N, hout, hxp⟩ := I.queue
  obtain ⟨rest, Q, hsending, hprepared⟩ := I.rest
  by_cases htry : Net.Tries s.net sock .send
  · have hqueued : s.conn.sendUsed = true ∧ s.sending = none := by
      by_contra hnot
      rw [if_neg hnot] at hxp
      have := htry.2
      rw [N.size, hxp] at this
      exact this rfl
    rw [if_pos hqueued] at hxp
    have hrest := hprepared hqueued.1 hqueued.2
    by_cases hagain : result = .error EAGAIN
    · subst hagain
      obtain ⟨net', htried, N', -⟩ := Net.tryIo_blocked N htry
      exact ⟨{ s with net := net' }, by rw [step, htried]; rfl, I.holds, ⟨rest, Q, hsending, hprepared⟩,
        ⟨xp, N', hout, by rw [hxp, if_pos hqueued]⟩, I.used⟩
    · obtain ⟨ret, m', htried, N', -⟩ := Net.tryIo_called N htry hagain
      have hret : ret = result.ret := by
        rw [Net.tryIo, if_pos htry.1] at htried
        obtain ⟨⟨o, m⟩, hpop, htried⟩ := Exec.bind_eq_ok.mp htried
        cases o with
        | none => cases htried
        | some x =>
          cases result with
          | bytes n => exact (Prod.mk.inj (Except.ok.inj htried)).1.symm
          | error errno =>
            have herr : errno ≠ EAGAIN := fun h => hagain (by rw [h])
            simp only [Net.rawIo, if_neg herr] at htried
            exact (Prod.mk.inj (Except.ok.inj htried)).1.symm
      subst hret
      refine ⟨_, by rw [step, htried]; rfl, ?_⟩
      refine Inv.finish (s := { s with net := { s.net with pending := m' } }) I.holds hqueued.1 Q hrest
        htakes N' (fun l hl => ?_) ?_
      · rw [Function.update_of_ne hl]
        exact hout l hl
      · rw [Function.update_self, hxp, if_neg hagain]
        rfl
  · refine ⟨s, ?_, I⟩
    rw [step, Net.tryIo_idle N result htry]
    rfl

/-- **The next write** in `SendFinish`. -/
theorem Inv.next (I : Inv sock io s) (hsending : s.sending = some 0)
    (htakes : ∀ c, prepareSend s.heap s.conn = .ok (true, c) → Takes c.wsendbuf result) :
    ∃ s', s.update sock io result = .ok s' ∧ Inv sock io s' := by
  obtain ⟨own, S₀⟩ := I.holds
  obtain ⟨rest, Q, -, -⟩ := I.rest
  obtain ⟨xp, N, hout, hxp⟩ := I.queue
  have hused := I.used (by rw [hsending]; nofun)
  rw [if_neg (fun hboth => by rw [hsending] at hboth; cases hboth.2)] at hxp
  have hfree : ∀ l, io ∉ xp l := by
    intro l
    by_cases hl : l = (.send, sock)
    · rw [hl, hxp]
      exact List.not_mem_nil
    · exact hout l hl
  rw [update, hsending]
  rcases prepareSend_bytes S₀ Q with ⟨hnil, hprep⟩ | ⟨hsome, vs, hprep, htotal⟩
  · refine ⟨_, by rw [hprep]; rfl, ?_⟩
    refine ⟨I.holds, ⟨rest, Q, Nat.zero_le _, fun hused => by cases hused⟩, ⟨xp, N, hout, ?_⟩,
      fun hne => absurd rfl hne⟩
    rw [hxp, if_neg (fun hboth => by cases hboth.1)]
  · have htakes := htakes _ hprep
    -- what `raw_send` leaves of the queue
    obtain ⟨net', hraw, xp', N', hout', hxp'⟩ : ∃ net', Net.WSASend s.net (some sock) io true result =
        .ok (result.ret, result.errno, net') ∧ ∃ xp', net'.Inv xp' ∧
          (∀ l, l ≠ (.send, sock) → io ∉ xp' l) ∧
          xp' (.send, sock) = if result = .error EAGAIN then [io] else [] := by
      by_cases hagain : result = .error EAGAIN
      · subst hagain
        obtain ⟨net', hraw, N', -⟩ := Net.rawIo_blocked N hfree .send sock
        refine ⟨net', ?_, _, N', fun l hl => ?_, ?_⟩
        · rw [Net.WSASend, Net.wsaIo]
          simp only [if_true, hraw, Exec.ok_bind]
          rfl
        · rw [Function.update_of_ne hl]
          exact hout l hl
        · rw [Function.update_self, hxp, if_pos rfl]
      · refine ⟨s.net, ?_, xp, N, hout, by rw [hxp, if_neg hagain]⟩
        cases result with
        | bytes n => rfl
        | error errno =>
          have herr : errno ≠ EAGAIN := fun h => hagain (by rw [h])
          rw [Net.WSASend, Net.wsaIo]
          simp only [if_true, Net.rawIo, if_neg herr, Exec.ok_bind]
          rfl
    refine ⟨_, by rw [hprep]; simp only [Exec.ok_bind, if_true, hraw]; rfl, ?_⟩
    exact Inv.finish (s := { s with conn := { s.conn with wsendbuf := vs }, net := net' }) I.holds hused
      Q htotal htakes N' hout' hxp'

/-- **A round of `update_send_list`** finds a packet. -/
theorem Inv.round (I : Inv sock io s) (hsending : s.sending = some (n + 1)) :
    ∃ s', s.update sock io result = .ok s' ∧ Inv sock io s' := by
  obtain ⟨own, S₀⟩ := I.holds
  obtain ⟨rest, Q, hle, -⟩ := I.rest
  obtain ⟨xp, N, hout, hxp⟩ := I.queue
  have hused := I.used (by rw [hsending]; nofun)
  rw [if_neg (fun hboth => by rw [hsending] at hboth; cases hboth.2)] at hxp
  rw [hsending, Option.getD_some] at hle
  have hqueue : ∀ (n : ℕ) (c : Bool), ∃ xp, s.net.Inv xp ∧ (∀ l, l ≠ (.send, sock) → io ∉ xp l) ∧
      xp (.send, sock) = if c = true ∧ some n = none then [io] else [] := fun n c =>
    ⟨xp, N, hout, by rw [hxp, if_neg (fun hboth => by cases hboth.2)]⟩
  rw [update, hsending]
  cases hlist : s.conn.sendList with
  | nil =>
    rw [hlist] at Q
    cases Q
    cases hle
  | cons w ws =>
    rw [hlist] at Q S₀
    cases rest with
    | nil => cases Q
    | cons bs rest =>
      rw [List.flatten_cons, List.length_append] at hle
      by_cases hfull : bs.length ≤ n + 1
      · obtain ⟨h', hround, S', Q', -⟩ := updateSendRound_complete S₀ Q hlist hfull
        refine ⟨_, by simp only [hround, Exec.ok_bind]; rfl, ?_⟩
        refine ⟨⟨_, S'⟩, ⟨rest, Q', ?_, fun _ hnone => by cases hnone⟩, hqueue _ _, fun _ => hused⟩
        change n + 1 - bs.length ≤ rest.flatten.length
        omega
      · obtain ⟨h', w', hround, S', Q', -, -⟩ :=
          updateSendRound_part S₀ Q hlist (show n + 1 < bs.length by omega)
        refine ⟨_, by simp only [hround, Exec.ok_bind]; rfl, ?_⟩
        exact ⟨⟨own, S'⟩, ⟨_, Q', Nat.zero_le _, fun _ hnone => by cases hnone⟩, hqueue _ _,
          fun _ => hused⟩

/-- **`connection_send`** queues the request if a byte waits, and asserts in vain otherwise. -/
theorem Inv.send (I : Inv sock io s) {o : Option WPacket} (hold : ∀ v, o = some v → s.Handed v)
    (callback : Bool) :
    (s.FindsBytes (.send (E := E) (S := S) (R := R) o callback) →
      ∃ s', step sock io s (.send o callback) = .ok s' ∧ Inv sock io s') ∧
    (¬ s.FindsBytes (.send (E := E) (S := S) (R := R) o callback) →
      step sock io s (.send o callback) = .error .assertion) := by
  have I' := I.push hold callback
  rw [step, connectionSend]
  by_cases hused : s.conn.sendUsed = true
  · refine ⟨fun _ => ?_, fun hnot => absurd (.inl hused) hnot⟩
    rw [if_pos (show (connectionPushPacket s.conn o callback).sendUsed = true from hused)]
    rw [Exec.ok_bind, if_pos hused]
    exact ⟨_, rfl, I'⟩
  obtain ⟨own, S₀⟩ := I'.holds
  obtain ⟨rest, Q, -, -⟩ := I'.rest
  obtain ⟨xp, N, hout, hxp⟩ := I.queue
  have hnone : s.sending = none := by
    by_contra hne
    exact hused (I.used hne)
  rw [if_neg (fun hboth => hused hboth.1)] at hxp
  have hbytes : rest.flatten = [] ↔ ∀ v ∈ s.conn.sendList ++ o.toList, v.dataSize = 0 := by
    rw [flatten_eq_nil_iff Q, connectionPushPacket]
    cases o with
    | none => rfl
    | some w => simp [or_imp, forall_and]
  rw [if_neg (show ¬ (connectionPushPacket s.conn o callback).sendUsed = true from hused)]
  set c : Connection := { connectionPushPacket s.conn o callback with sendUsed := true } with hc
  rcases prepareSend_bytes S₀ (show Queue s.heap c.sendList rest from Q) with
    ⟨hnil, hprep⟩ | ⟨hsome, vs, hprep, htotal⟩
  · refine ⟨fun hfinds => ?_, fun _ => by rw [hprep]; rfl⟩
    obtain ⟨v, hv, hne⟩ := hfinds.resolve_left hused
    exact absurd (hbytes.mp hnil v hv) hne
  · refine ⟨fun _ => ?_, fun hnot => ?_⟩
    · have hfree : Net.AllowedPost s.net (⟨.send, sock, io⟩ : Post S R) := by
        intro l
        rw [N.pending.nodes]
        by_cases hl : l = (.send, sock)
        · rw [hl, hxp]
          exact List.not_mem_nil
        · exact hout l hl
      obtain ⟨net', xp', hpost, N', P⟩ := Net.post_spec N hfree
      refine ⟨_, by rw [hprep]; simp only [Exec.ok_bind, if_true, if_neg hused, hpost]; rfl, ?_⟩
      refine ⟨⟨own, S₀⟩, ⟨rest, Q, ?_, fun _ _ => htotal⟩, ⟨xp', N', fun l hl => ?_, ?_⟩, fun _ => rfl⟩
      · change s.sending.getD 0 ≤ _
        rw [hnone]
        exact Nat.zero_le _
      · rw [P.queue l]
        simp only [List.filter_cons, List.filter_nil, decide_eq_true_eq, if_neg (Ne.symm hl),
          List.map_nil, List.append_nil]
        exact hout l hl
      · rw [P.queue, hxp]
        rw [if_pos ⟨rfl, hnone⟩]
        simp
    · refine absurd (.inr ?_) hnot
      rw [← not_iff_not] at hbytes
      obtain ⟨v, hv⟩ := not_forall.mp (hbytes.mp hsome)
      obtain ⟨hmem, hne⟩ := Classical.not_imp.mp hv
      exact ⟨v, hmem, hne⟩

/-- **One step.** -/
theorem step_inv (I : Inv sock io s) {op : Op E S R} (hC : s.Allowed sock io op) :
    (s.FindsBytes op → ∃ s', step sock io s op = .ok s' ∧ Inv sock io s') ∧
      (¬ s.FindsBytes op → step sock io s op = .error .assertion) := by
  cases op with
  | push w callback => exact ⟨fun _ => ⟨_, rfl, I.push hC callback⟩, fun hnot => absurd trivial hnot⟩
  | send w callback => exact I.send hC callback
  | process result => exact ⟨fun _ => I.process hC, fun hnot => absurd trivial hnot⟩
  | update result =>
    refine ⟨fun _ => ?_, fun hnot => absurd trivial hnot⟩
    cases hsending : s.sending with
    | none => exact ⟨s, by rw [step, update, hsending], I⟩
    | some n =>
      cases n with
      | zero => exact I.next hsending hC
      | succ n => exact I.round hsending
  | other h net =>
    obtain ⟨⟨own, S'⟩, G, xp', N', hsame, hout⟩ := hC
    obtain ⟨rest, Q, hsending, hprepared⟩ := I.rest
    obtain ⟨xp, N, -, hxp⟩ := I.queue
    refine ⟨fun _ => ⟨_, rfl, ⟨own, S'⟩, ⟨rest, Q.grow G S', hsending, hprepared⟩,
      ⟨xp', N', hout, ?_⟩, I.used⟩, fun hnot => absurd trivial hnot⟩
    rw [hsame, N.pending.nodes, hxp]

/-! ## All runs -/

section Runs

variable (S₀ : Sound h own) (N : net.Inv xp) (hfree : ∀ l, io ∉ xp l) (hidle : xp (.send, sock) = [])
  (isRaw : Bool) (hops : BeforeEach (step sock io) (Allowed sock io) (start h isRaw net) ops)

include S₀ N hfree hidle hops

/-- No step of a run ends with a fault other than those `F`, whichever these are, if bytes are found;
and where `F` leaves out the assertion, they have to be found. -/
theorem flushes_iff_of (F : Fault → Prop) (hF : ¬ F .assertion) :
    Always (step sock io) (Tracked sock io) (start h isRaw net) ops ∧
        FaultsOnly (step sock io) (fun _ _ f => F f) (start h isRaw net) ops ↔
      BeforeEach (step sock io) FindsBytes (start h isRaw net) ops := by
  refine safe_iff_beforeEach_of (I := Inv sock io) (fun s I => Inv.tracked I) (fun s op I hA hC => ?_)
    (fun s op I hA hC => ?_) (start_inv S₀ N hfree hidle isRaw) hops
  · obtain ⟨s', hs', I'⟩ := (step_inv I hA).1 hC
    rw [hs']
    exact I'
  · rw [(step_inv I hA).2 hC]
    exact hF

/-- **Flushing is safe** exactly as far as bytes are found: in a run of a new connection on a socket
with nothing queued, `WSASend` is handed a request by all calls, `update_send_list` finds the packets
of the bytes written, and the request is in use only while it is queued or `SendFinish` runs, if and
only if `connection_send`, wherever it finds the request free, finds a byte to send. -/
theorem flushes_iff : Always (step sock io) (Tracked sock io) (start h isRaw net) ops ∧
      FaultsOnly (step sock io) (fun _ _ f => f ≠ .assertion) (start h isRaw net) ops ↔
    BeforeEach (step sock io) FindsBytes (start h isRaw net) ops :=
  flushes_iff_of S₀ N hfree hidle isRaw hops (· ≠ .assertion) fun h => h rfl

/-- Where bytes are found, nothing else fails either. -/
theorem flushes_without_fault (hbytes : BeforeEach (step sock io) FindsBytes (start h isRaw net) ops) :
    FaultsOnly (step sock io) (fun _ _ _ => False) (start h isRaw net) ops :=
  ((flushes_iff_of S₀ N hfree hidle isRaw hops (fun _ => False) id).mpr hbytes).2

end Runs

/-- The socket of an engine, with its descriptor ready for writing. -/
def writeable : Net Unit Unit Unit :=
  let net := Net.start fun _ => some ()
  net.setSocket () ((net.socket ()).setReady true .send)

theorem writeable_inv : writeable.Inv fun _ => [] := (Net.inv_start _).setReady () true .send

/-- A packet is pushed, flushed by `connection_send` without a packet, and sent by two writes. -/
def flushOnce (w : WPacket) : List (Op Unit Unit Unit) :=
  [.push (some w) true, .send none false, .process (.bytes 2), .update (.bytes 0), .update (.bytes 1),
    .update (.bytes 0), .update (.bytes 0)]

theorem flushes_once : ∃ h w,
    BeforeEach (step () ()) (Allowed () ()) (start h true writeable) (flushOnce w) ∧
      Always (step () ()) (Tracked () ()) (start h true writeable) (flushOnce w) ∧
      FaultsOnly (step () ()) (fun _ _ f => f ≠ .assertion) (start h true writeable) (flushOnce w) := by
  obtain ⟨s, hrun⟩ := Exec.exists_ok (x := do
    let x ← wpacketCreate RefHeap.empty 4 true
    let y ← writeAll x.1 x.2 [.binary [1, 2, 3]]
    let s₁ ← step () () (start y.1 true writeable) (.push (some y.2) true)
    let s₂ ← step () () s₁ (.send none false)
    let s₃ ← step () () s₂ (.process (.bytes 2))
    let s₄ ← step () () s₃ (.update (.bytes 0))
    let p ← prepareSend s₄.heap s₄.conn
    let s₅ ← step () () s₄ (.update (.bytes 1))
    let s₆ ← step () () s₅ (.update (.bytes 0))
    let s₇ ← step () () s₆ (.update (.bytes 0))
    if s₁.conn.sendList.any (fun v => v.dataSize != 0) ∧ 2 ≤ (s₂.conn.wsendbuf.map Iovec.len).sum ∧
      1 ≤ (p.2.wsendbuf.map Iovec.len).sum then
      return s₇
    else .error .fuel) (by decide +kernel)
  obtain ⟨⟨h₀, w₀⟩, hcreate, hrun⟩ := Exec.bind_eq_ok.mp hrun
  obtain ⟨⟨h, w⟩, hwrite, hrun⟩ := Exec.bind_eq_ok.mp hrun
  obtain ⟨s₁, hs₁, hrun⟩ := Exec.bind_eq_ok.mp hrun
  obtain ⟨s₂, hs₂, hrun⟩ := Exec.bind_eq_ok.mp hrun
  obtain ⟨s₃, hs₃, hrun⟩ := Exec.bind_eq_ok.mp hrun
  obtain ⟨s₄, hs₄, hrun⟩ := Exec.bind_eq_ok.mp hrun
  obtain ⟨p, hprep, hrun⟩ := Exec.bind_eq_ok.mp hrun
  obtain ⟨s₅, hs₅, hrun⟩ := Exec.bind_eq_ok.mp hrun
  obtain ⟨s₆, hs₆, hrun⟩ := Exec.bind_eq_ok.mp hrun
  obtain ⟨s₇, hs₇, hrun⟩ := Exec.bind_eq_ok.mp hrun
  split_ifs at hrun with hcounts
  obtain ⟨hany, htotal₂, htotal₄⟩ := hcounts
  obtain ⟨S₁, B₀, -⟩ := wpacketCreate_ok sound_empty (by decide) hcreate
  obtain ⟨S₁, B, -⟩ := writeAll_ok S₁ B₀ hwrite
  have hnothing : ∀ vs, Takes vs (.bytes 0) := by
    rintro vs n heq
    cases heq
    exact ⟨Nat.zero_le _, by decide⟩
  have hops : BeforeEach (step () ()) (Allowed () ()) (start h true writeable) (flushOnce w) := by
    refine .cons (fun v hv => ?_) hs₁ (.cons nofun hs₂ ?_)
    · obtain rfl := Option.some.inj hv
      refine ⟨⟨0, ?_⟩, _, Sender.waiting_of_built B⟩
      exact (zero_add (w.owned + 0)).symm ▸ S₁
    refine .cons (fun n heq => ?_) hs₃ (.cons (fun c _ => hnothing _) hs₄ ?_)
    · cases heq
      exact ⟨htotal₂, by decide⟩
    refine .cons (fun c hc n heq => ?_) hs₅ (.cons (fun c _ => hnothing _) hs₆ ?_)
    · obtain rfl := Except.ok.inj (hprep.symm.trans hc)
      cases heq
      exact ⟨htotal₄, by decide⟩
    exact .cons (fun c _ => hnothing _) hs₇ trivial
  have hbytes : BeforeEach (step () ()) FindsBytes (start h true writeable) (flushOnce w) := by
    refine .cons trivial hs₁ (.cons (.inr ?_) hs₂ ?_)
    · obtain ⟨v, hv, hne⟩ := List.any_eq_true.mp hany
      exact ⟨v, List.mem_append_left _ hv, by simpa using hne⟩
    exact .cons trivial hs₃ (.cons trivial hs₄ (.cons trivial hs₅ (.cons trivial hs₆
      (.cons trivial hs₇ trivial))))
  exact ⟨h, w, hops, (flushes_iff S₁ writeable_inv (fun _ => List.not_mem_nil) rfl true hops).mpr
    hbytes⟩

/-- A connection with nothing to send is flushed. -/
theorem not_flushes_nothing :
    BeforeEach (step () ()) (Allowed () ()) (start RefHeap.empty true writeable) [.send none false] ∧
      ¬ FaultsOnly (step () ()) (fun _ _ f => f ≠ .assertion) (start RefHeap.empty true writeable)
        [.send none false] := by
  have hstep : step () () (start RefHeap.empty true writeable) (.send none false) =
      .error .assertion := rfl
  refine ⟨⟨nofun, ?_⟩, fun hfaults => ?_⟩
  · rw [hstep]
    trivial
  · rw [FaultsOnly, hstep] at hfaults
    exact hfaults rfl

end Flusher

end Kendylib
