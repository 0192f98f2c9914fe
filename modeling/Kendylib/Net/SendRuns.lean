import Kendylib.Foundations.Ledger
import Kendylib.Foundations.Run
import Kendylib.Net.Sender
import Kendylib.Net.WritingRuns

/-!
# Runs of the send path

A run is any sequence of submissions, writes that take any part of what was prepared, rounds of
`update_send_list`, failures of writes, and steps of the rest of the program. The bytes left of the
packets in `send_list`, together with those that `update_send_list` has still to take off, are in
balance with what has been submitted and accepted (`Inv.rest`), and a write that is prepared covers
bytes at their front (`Prepared`).

So the send path neither loses, repeats nor reorders bytes (`sends_in_order`).
-/

namespace Kendylib

open RefHeap Buffer RPacket WPacket Connection Exec
open Held (ownedAll ownedAll_cons mem_ownedAll)

namespace Sender

variable {h h' : Heap} {own : Multiset ℕ} {s s' : Sender} {w : WPacket} {bs out : List UInt8} {n : ℕ}
  {vs : List Iovec} {rest : List (List UInt8)} {isRaw : Bool} {ops : List Op}

/-! ## What a write takes -/

theorem gather_spec (hb : Bytes h (offeredPlaces vs) bs) (hn : n ≤ bs.length) :
    gather h vs n = .ok (bs.take n) := by
  induction vs generalizing bs n with
  | nil =>
    obtain rfl : bs = [] := List.eq_nil_of_length_eq_zero hb.length.symm
    obtain rfl : n = 0 := Nat.le_zero.mp hn
    rfl
  | cons v vs ih =>
    cases n with
    | zero => rfl
    | succ n =>
      obtain ⟨hfirst, hrest⟩ := Bytes.places_append (offeredPlaces_cons (v := v) ▸ hb)
      rw [gather]
      by_cases hv : v.len = 0
      · rw [if_pos hv]
        rw [hv, List.drop_zero] at hrest
        exact ih hrest hn
      · obtain ⟨k, hk⟩ : ∃ k, k = min v.len (n + 1) := ⟨_, rfl⟩
        obtain ⟨c, hc, hlast⟩ := hfirst.live (p := (v.base.1, v.base.2 + (v.len - 1)))
          (mem_places.mpr ⟨rfl, by omega, by omega⟩)
        obtain ⟨got, hload, hgot⟩ := load_spec hc (show v.base.2 + k ≤ c.body.buf.length by omega)
        have htake := hfirst.take k
        rw [places_take (show k ≤ v.len by omega), List.take_take,
          Nat.min_eq_left (show k ≤ v.len by omega)] at htake
        have hlater : gather h vs (n + 1 - k) = .ok ((bs.drop v.len).take (n + 1 - k)) :=
          ih hrest (by rw [List.length_drop]; omega)
        rw [if_neg hv, get_eq hc, Exec.ok_bind, ← hk, hload, Exec.ok_bind, hlater,
          hgot.unique htake]
        change Except.ok (bs.take k ++ (bs.drop v.len).take (n + 1 - k)) = _
        congr 1
        rcases Nat.le_total v.len (n + 1) with hle | hle
        · rw [show k = v.len by omega, ← List.take_add, Nat.add_sub_cancel' hle]
        · rw [show k = n + 1 by omega, Nat.sub_self, List.take_zero, List.append_nil]

theorem length_offeredPlaces : (offeredPlaces vs).length = (vs.map Iovec.len).sum := by
  simp [offeredPlaces, List.length_flatMap]

/-! ## The invariant -/

/-- The submissions of packets that are not complete. -/
def uncompleted (s : Sender) : List Submission := s.submitted.drop s.completed.length

def ledger (s : Sender) : Ledger UInt8 :=
  ⟨s.submitted.map Submission.bytes, s.accepted, s.completed.length⟩

/-- The write that is prepared covers bytes at the front of the queue. -/
def Prepared (s : Sender) (rest : List (List UInt8)) : Prop :=
  Covers s.heap s.conn.sendList s.conn.wsendbuf ∧
    ∃ out, Bytes s.heap (offeredPlaces s.conn.wsendbuf) out ∧ out <+: rest.flatten

/-- The packets that wait are accounted for. -/
structure Accounted (s : Sender) : Prop where
  holds : s.Holds s.heap 0
  rest : ∃ rest, Queue s.heap s.conn.sendList rest ∧ s.ledger.Balanced rest (s.sending.getD 0) ∧
    (s.conn.sendUsed = true → s.sending = none → s.Prepared rest)
  callbacks : s.conn.sendList.map WPacket.packetSendFinish =
    s.uncompleted.map Submission.callback
  completed : s.completed = (s.submitted.take s.completed.length).map Submission.callback
  used : s.sending ≠ none → s.conn.sendUsed = true

structure Inv (s : Sender) : Prop extends Accounted s where
  drained : s.failed = false → s.conn.sendUsed = false → ∀ x ∈ s.uncompleted, x.flush = false

/-- **What the send path promises**: the bytes accepted are those of the packets submitted, in order;
the packets are completed in order and as their callbacks ask for, none before its last byte is
accepted, and each when `update_send_list` is through with that; while no write has failed and none is
under way, every packet of `connection_send` is complete. -/
structure Sent (s : Sender) : Prop where
  accepted : s.accepted <+: s.submitted.flatMap Submission.bytes
  completed : s.completed = (s.submitted.take s.completed.length).map Submission.callback
  notBefore : (s.submitted.take s.completed.length).flatMap Submission.bytes <+: s.accepted
  whenAccepted : s.sending = none → ∀ x, s.submitted[s.completed.length]? = some x →
    s.accepted.length < ((s.submitted.take s.completed.length ++ [x]).flatMap Submission.bytes).length
  drained : s.failed = false → s.conn.sendUsed = false →
    ∀ x ∈ s.submitted.drop s.completed.length, x.flush = false

theorem Inv.sent (I : Inv s) : Sent s := by
  obtain ⟨rest, -, B, -⟩ := I.rest
  have hbytes : ∀ xs : List Submission, xs.flatMap Submission.bytes =
      (xs.map Submission.bytes).flatten := fun xs => List.flatMap_def
  have hdone : s.ledger.done = (s.submitted.take s.completed.length).map Submission.bytes :=
    (List.map_take).symm
  refine ⟨?_, I.completed, ?_, fun hnone x hx => ?_, I.drained⟩
  · rw [hbytes]
    exact B.accepted_prefix
  · rw [hbytes, ← hdone]
    exact B.completed_prefix
  · rw [hnone] at B
    have hnext : s.ledger.submitted[s.ledger.completed]? = some x.bytes := by
      rw [ledger, List.getElem?_map, hx, Option.map_some]
    rw [hbytes, List.map_append, ← hdone]
    exact B.next_incomplete hnext

theorem start_inv (S : Sound h own) : Inv (start h isRaw) := by
  refine ⟨⟨⟨own, ?_⟩, ⟨[], .nil, Ledger.balanced_start, fun hused => by cases hused⟩, rfl, rfl,
    fun hne => absurd rfl hne⟩, fun _ _ x hx => by cases hx⟩
  rw [zero_add]
  exact (zero_add own).symm ▸ S

/-! ## Steps -/

theorem Accounted.completed_le (A : Accounted s) : s.completed.length ≤ s.submitted.length := by
  obtain ⟨rest, -, B, -⟩ := A.rest
  simpa [ledger] using B.completed_le

/-- **A packet is put to `send_list`.** -/
theorem Accounted.submit (A : Accounted s) (hold : s.Holds s.heap w.owned)
    (W : Waiting s.heap w bs) (hbs : bs ≠ []) (flush callback : Bool) :
    Accounted { s with
      conn := connectionPushPacket s.conn (some w) callback
      submitted := s.submitted ++ [⟨bs, flush, callback⟩] } := by
  obtain ⟨rest, Q, B, hprepared⟩ := A.rest
  obtain ⟨own, S⟩ := hold
  have hle := A.completed_le
  set w' : WPacket := { w with packetSendFinish := callback } with hw'
  have W' : Waiting s.heap w' bs := ⟨W.dataSize, W.lt, W.span⟩
  refine ⟨⟨own, ?_⟩, ⟨rest ++ [bs], Q.append W', ?_, fun hused hnone => ?_⟩, ?_, ?_, A.used⟩
  · change Sound s.heap (ownedAll (s.conn.sendList ++ [w']) + (0 + own))
    rw [ownedAll_append_singleton, zero_add, add_assoc]
    exact S
  · convert B.submit hbs using 1
    simp [ledger, Ledger.submit]
  · obtain ⟨hcovers, out, hb, hout⟩ := hprepared hused hnone
    refine ⟨fun p hp => ?_, out, hb, ?_⟩
    · obtain ⟨v, hv, hlive⟩ := hcovers p hp
      exact ⟨v, List.mem_append_left _ hv, hlive⟩
    rw [List.flatten_append]
    exact hout.trans (List.prefix_append _ _)
  · change (s.conn.sendList ++ [w']).map _ = ((s.submitted ++ [_]).drop s.completed.length).map _
    rw [List.map_append, A.callbacks, uncompleted, List.drop_append_of_le_length hle,
      List.map_append]
    rfl
  · change s.completed = ((s.submitted ++ [_]).take s.completed.length).map _
    rw [List.take_append_of_le_length hle]
    exact A.completed

/-- **A write is prepared**, where none is under way. -/
theorem Accounted.prepare (A : Accounted s) (used : Bool) (hsettled : s.sending.getD 0 = 0) :
    (s.conn.sendList = [] ∧ prepareSend s.heap { s.conn with sendUsed := used } =
        .ok (false, { s.conn with sendUsed := used }) ∧ s.uncompleted = [] ∧
        Accounted { s with conn.sendUsed := false, sending := none }) ∨
      ∃ vs, prepareSend s.heap { s.conn with sendUsed := used } =
          .ok (true, { s.conn with sendUsed := used, wsendbuf := vs }) ∧
        Accounted { s with conn.sendUsed := true, conn.wsendbuf := vs, sending := none } := by
  obtain ⟨rest, Q, B, -⟩ := A.rest
  obtain ⟨own, S⟩ := A.holds
  rw [hsettled] at B
  have Q' : Queue s.heap { s.conn with sendUsed := used }.sendList rest := Q
  rcases prepareSend_spec S Q' B.nonempty with
    ⟨hnil, hprep⟩ | ⟨vs, out, hprep, -, hb, hout, hcovers⟩
  · refine .inl ⟨hnil, hprep, ?_, A.holds, ⟨rest, Q, B, fun hused => by cases hused⟩, A.callbacks,
      A.completed, fun hne => absurd rfl hne⟩
    have hcallbacks := A.callbacks
    rw [show s.conn.sendList = [] from hnil, List.map_nil] at hcallbacks
    exact List.map_eq_nil_iff.mp hcallbacks.symm
  · exact .inr ⟨vs, hprep, A.holds, ⟨rest, Q, B, fun _ _ => ⟨hcovers, out, hb, hout⟩⟩, A.callbacks,
      A.completed, fun hne => absurd rfl hne⟩

/-- **A write takes bytes.** -/
theorem Accounted.written (A : Accounted s) (hC : s.Allowed (.written n)) :
    ∃ s', s.step (.written n) = .ok s' ∧ Accounted s' ∧ s'.conn = s.conn := by
  obtain ⟨hused, hnone, hpos, hle, -⟩ := hC
  obtain ⟨rest, Q, B, hprepared⟩ := A.rest
  obtain ⟨-, out, hb, hout⟩ := hprepared hused hnone
  rw [← length_offeredPlaces, hb.length] at hle
  have hn : (out.take n).length = n := List.length_take_of_le hle
  refine ⟨{ s with sending := some n, accepted := s.accepted ++ out.take n }, ?_,
    ⟨A.holds, ⟨rest, Q, ?_, fun _ h => by cases h⟩, A.callbacks, A.completed, fun _ => hused⟩, rfl⟩
  · rw [step, gather_spec hb hle]
    rfl
  rw [hnone] at B
  have := B.accept ((List.take_prefix n out).trans hout)
  rwa [hn] at this

/-- **What the rest of the program does.** -/
theorem Accounted.other (A : Accounted s) (hC : s.Allowed (.other h)) :
    Accounted { s with heap := h } := by
  obtain ⟨hholds, G⟩ := hC
  obtain ⟨rest, Q, B, hprepared⟩ := A.rest
  obtain ⟨own, S⟩ := hholds
  refine ⟨⟨own, S⟩, ⟨rest, Q.grow G S, B, fun hused hnone => ?_⟩, A.callbacks, A.completed, A.used⟩
  obtain ⟨hcovers, out, hb, hout⟩ := hprepared hused hnone
  have hsame : ∀ p ∈ offeredPlaces s.conn.wsendbuf, byteAt h p = byteAt s.heap p := by
    intro p hp
    obtain ⟨w, hw, a, ha, hlive⟩ := hcovers p hp
    exact (hlive.grow (G w hw a ha)).2
  refine ⟨fun p hp => ?_, out, hb.congr hsame, hout⟩
  obtain ⟨w, hw, a, ha, hlive⟩ := hcovers p hp
  exact ⟨w, hw, a, ha, (hlive.grow (G w hw a ha)).1⟩

/-- **A round of `update_send_list`.** -/
theorem Accounted.round (A : Accounted s) (hsending : s.sending = some (n + 1)) :
    ∃ s', s.update = .ok s' ∧ Accounted s' ∧ s'.conn.sendUsed = s.conn.sendUsed := by
  obtain ⟨rest, Q, B, -⟩ := A.rest
  obtain ⟨own, S⟩ := A.holds
  have hused := A.used (by rw [hsending]; nofun)
  have hcallbacks := A.callbacks
  rw [hsending, Option.getD_some] at B
  rw [update, hsending]
  cases hlist : s.conn.sendList with
  | nil =>
    -- `assert(w)` holds: bytes that were taken are of packets that wait
    rw [hlist] at Q
    cases Q
    obtain ⟨part, pending, -, hlen, hprefix, -⟩ := B.split
    rw [List.prefix_nil.mp hprefix] at hlen
    cases hlen
  | cons w ws =>
    rw [hlist] at Q S hcallbacks
    cases rest with
    | nil => cases Q
    | cons bs rest =>
      rw [List.map_cons] at hcallbacks
      by_cases hfull : bs.length ≤ n + 1
      · obtain ⟨h', hround, S', Q', -⟩ := updateSendRound_complete S Q hlist hfull
        have hlt : s.completed.length < s.submitted.length := by
          simpa [ledger] using B.completed_lt
        rw [uncompleted, List.drop_eq_getElem_cons hlt, List.map_cons, List.cons.injEq] at hcallbacks
        have hpopped : ws.length < (w :: ws).length := Nat.lt_succ_self _
        have hfinish : (if w.packetSendFinish = true then some w else none).isSome =
            w.packetSendFinish := by
          cases w.packetSendFinish <;> rfl
        simp only [hround, Exec.ok_bind, hpopped, if_true, hfinish]
        rw [zero_add] at S'
        refine ⟨_, rfl, ⟨⟨(if w.packetSendFinish then w.owned else 0) + own, ?_⟩,
          ⟨rest, Q', ?_, fun _ h => by cases h⟩, ?_, ?_, fun _ => hused⟩, rfl⟩
        · rw [zero_add]
          exact S'
        · convert B.complete hfull using 1
          · simp [ledger, Ledger.complete]
          · rfl
        · rw [uncompleted, List.length_append, List.length_singleton]
          exact hcallbacks.2
        · rw [List.length_append, List.length_singleton, List.take_succ_eq_append_getElem hlt,
            List.map_append, ← A.completed, List.map_singleton, ← hcallbacks.1]
      · obtain ⟨h', w', hround, S', Q', hfinish, -⟩ :=
          updateSendRound_part S Q hlist (show n + 1 < bs.length by omega)
        have hkept : ¬ (w' :: ws).length < (w :: ws).length := lt_irrefl _
        simp only [hround, Exec.ok_bind, hkept, if_false, List.append_nil]
        refine ⟨_, rfl, ⟨⟨own, S'⟩, ⟨_, Q', ?_, fun _ h => by cases h⟩, ?_, A.completed,
          fun _ => hused⟩, rfl⟩
        · exact B.trim (by omega)
        · rw [List.map_cons, hfinish, hcallbacks]
          rfl

/-- **One step.** -/
theorem step_inv {op : Op} (I : Inv s) (hC : s.Allowed op) : ∃ s', s.step op = .ok s' ∧ Inv s' := by
  cases op with
  | push w bytes callback =>
    obtain ⟨hold, W, hbytes⟩ := hC
    refine ⟨_, rfl, I.toAccounted.submit hold W hbytes false callback, fun hf hu x hx => ?_⟩
    change x ∈ (s.submitted ++ [_]).drop s.completed.length at hx
    rw [List.drop_append_of_le_length I.completed_le, List.mem_append, List.mem_singleton] at hx
    rcases hx with hx | rfl
    · exact I.drained hf hu x hx
    · rfl
  | send w bytes callback =>
    obtain ⟨hold, W, hbytes⟩ := hC
    have A := I.toAccounted.submit hold W hbytes true callback
    rw [step, connectionSend]
    by_cases hused : s.conn.sendUsed = true
    · rw [if_pos (show (connectionPushPacket s.conn (some w) callback).sendUsed = true from hused)]
      refine ⟨_, rfl, A, fun _ hfree => ?_⟩
      cases hused.symm.trans hfree
    · have hnone : s.sending = none := by
        by_contra hne
        exact hused (I.used hne)
      rw [if_neg (show ¬ (connectionPushPacket s.conn (some w) callback).sendUsed = true from hused)]
      rcases A.prepare true (by rw [show _ = s.sending from rfl, hnone]; rfl) with
        ⟨hnil, -⟩ | ⟨vs, hprep, A'⟩
      · exact absurd hnil (by simp [connectionPushPacket])
      · rw [hprep]
        refine ⟨_, rfl, ?_, fun _ hfree => by cases hfree⟩
        rw [show s.sending = none from hnone]
        exact A'
  | written n =>
    obtain ⟨s', hs', A', hconn⟩ := I.toAccounted.written hC
    refine ⟨s', hs', A', fun _ hfree => ?_⟩
    rw [hconn, hC.1] at hfree
    cases hfree
  | update =>
    rw [step]
    cases hsending : s.sending with
    | none => exact ⟨s, by rw [update, hsending], I⟩
    | some k =>
      have hused := I.used (by rw [hsending]; nofun)
      cases k with
      | zero =>
        rw [update, hsending]
        rcases I.toAccounted.prepare s.conn.sendUsed (by rw [hsending]; rfl) with
          ⟨-, hprep, hdone, A'⟩ | ⟨vs, hprep, A'⟩
        · refine ⟨_, by rw [show prepareSend s.heap s.conn = _ from hprep]; rfl, A',
            fun _ _ x hx => ?_⟩
          have hx : x ∈ s.uncompleted := hx
          rw [hdone] at hx
          cases hx
        · refine ⟨_, by rw [show prepareSend s.heap s.conn = _ from hprep]; rfl, ?_,
            fun _ hfree => by cases hused.symm.trans hfree⟩
          rwa [← hused] at A'
      | succ n =>
        obtain ⟨s', hs', A', hsame⟩ := I.toAccounted.round hsending
        refine ⟨s', hs', A', fun _ hfree => ?_⟩
        rw [hsame, hused] at hfree
        cases hfree
  | fail =>
    obtain ⟨rest, Q, B, -⟩ := I.rest
    exact ⟨_, rfl, ⟨I.holds, ⟨rest, Q, B, fun hused => by cases hused⟩, I.callbacks, I.completed,
      fun hne => absurd hC.2 hne⟩, fun hf => by cases hf⟩
  | other h => exact ⟨_, rfl, I.toAccounted.other hC, I.drained⟩

/-- **The send path** keeps its promises in every run, and no step of a run fails. -/
theorem sends_in_order (S : Sound h own) (hops : BeforeEach step Allowed (start h isRaw) ops) :
    Always step Sent (start h isRaw) ops ∧
      FaultsOnly step (fun _ _ _ => False) (start h isRaw) ops :=
  always_of_beforeEach (fun _ I => I.sent) (fun _ _ I hC => step_inv I hC) (start_inv S) hops

/-! ## Packets to send -/

/-- The bytes of a packet made by `wpacket_create` to which `payload` has been written. -/
def packetBytes (raw : Bool) (payload : List UInt8) : List UInt8 :=
  (if raw then [] else toBytes lenSize payload.length) ++ payload

/-- **A packet made by `wpacket_create`** can be sent. -/
theorem waiting_of_built {cap : ℕ} {payload : List UInt8} (B : Built cap h w payload) :
    Waiting h w (packetBytes w.raw payload) := by
  obtain ⟨a, ps, b, c, B⟩ := B
  obtain ⟨hs, hb⟩ := B.whole
  have hlen : w.dataSize = (packetBytes w.raw payload).length := by
    rw [B.dataSize, packetBytes, List.length_append, headerLen]
    split_ifs <;> simp
  have hle := B.dataSize_le
  exact ⟨hlen, by omega, a, _, b, w.wpos, B.buf, by rwa [B.beginPos], hb⟩

/-- The bytes `bs` are on the chain of a packet for reading, from its first place on; they are as many
as its length says, with the length field itself unless it is raw. -/
structure Carries (h : Heap) (r : RPacket) (bs : List UInt8) : Prop where
  length : bs.length = if r.raw then r.len else add32 r.len lenSize
  lt : bs.length < 0x100000000
  span : ∃ a ps b pos', r.buf = some a ∧ Span h a r.beginPos ps b pos' ∧ Bytes h ps bs

/-- The bytes stay when the buffers of the packet are filled further. -/
theorem Carries.grow {r : RPacket} (C : Carries h r bs) (G : ∀ a, r.buf = some a → GrowsFrom h h' a)
    (S' : Sound h' own) : Carries h' r bs := by
  obtain ⟨a, ps, b, pos', hbuf, hs, hb⟩ := C.span
  obtain ⟨hs', hsame⟩ := hs.grow (G a hbuf) S'
  exact ⟨C.length, C.lt, a, ps, b, pos', hbuf, hs', hb.congr hsame⟩

theorem Carries.congr {r r' : RPacket} (C : Carries h r bs) (hr : r'.buf = r.buf ∧
    r'.beginPos = r.beginPos ∧ r'.len = r.len ∧ r'.raw = r.raw) : Carries h r' bs := by
  obtain ⟨hbuf, hpos, hlen, hraw⟩ := hr
  refine ⟨?_, C.lt, ?_⟩
  · rw [hraw, hlen]
    exact C.length
  · rw [hbuf, hpos]
    exact C.span

/-- **A packet made by `wpacket_create_by_rpacket`** can be sent. -/
theorem waiting_of_carries {r : RPacket} (S : Sound h own) (C : Carries h r bs) :
    ∃ h' w, wpacketCreateByRpacket h r = .ok (h', w) ∧ Sound h' (w.owned + own) ∧ Keeps h h' ∧
      Waiting h' w bs := by
  obtain ⟨hlen, hlt, a, ps, b, pos', hbuf, hs, hb⟩ := C
  obtain ⟨c, hc, -⟩ := hs.start
  obtain ⟨h', hacq, S', K⟩ := bufferAcquire_spec (o := none) (p := r.buf)
    (show Sound h (refs none + own) by rwa [refs_none, zero_add]) fun x hx => by
      rw [hbuf, Option.some.injEq] at hx
      exact hx ▸ ⟨c, hc⟩
  obtain ⟨hs', hsame⟩ := hs.grow (.of_keepsFrom (K.from S'.toExact (S'.live (by simp [hbuf])))) S'
  refine ⟨h', ⟨none, r.buf, none, 0, 0, r.beginPos, if r.raw then r.len else add32 r.len lenSize,
    r.raw, false⟩, ?_, ?_, K, hlen.symm, hlt, a, ps, b, pos', hbuf, hs', hb.congr hsame⟩
  · rw [wpacketCreateByRpacket, hacq]
    rfl
  · rwa [WPacket.owned, refs_none, add_zero]

/-- A packet is sent by two writes, the first of which takes two bytes. -/
def twoWrites (w : WPacket) : List Op :=
  [.send w [1, 2, 3] true, .written 2, .update, .update, .written 1, .update, .update]

theorem sends_in_order_two_writes : ∃ h w, BeforeEach step Allowed (start h true) (twoWrites w) ∧
    Always step Sent (start h true) (twoWrites w) ∧
      FaultsOnly step (fun _ _ _ => False) (start h true) (twoWrites w) := by
  obtain ⟨s, hrun⟩ := Exec.exists_ok (x := do
    let x ← wpacketCreate RefHeap.empty 4 true
    let y ← writeAll x.1 x.2 [.binary [1, 2, 3]]
    let s₁ ← step (start y.1 true) (.send y.2 [1, 2, 3] true)
    let s₂ ← step s₁ (.written 2)
    let s₃ ← step s₂ .update
    let s₄ ← step s₃ .update
    let s₅ ← step s₄ (.written 1)
    let s₆ ← step s₅ .update
    let s₇ ← step s₆ .update
    if (s₁.conn.sendUsed = true ∧ s₁.sending = none ∧ 2 ≤ (s₁.conn.wsendbuf.map Iovec.len).sum) ∧
      s₄.conn.sendUsed = true ∧ s₄.sending = none ∧ 1 ≤ (s₄.conn.wsendbuf.map Iovec.len).sum then
      return s₇
    else .error .fuel) (by decide +kernel)
  obtain ⟨⟨h₀, w₀⟩, hcreate, hrun⟩ := Exec.bind_eq_ok.mp hrun
  obtain ⟨⟨h, w⟩, hwrite, hrun⟩ := Exec.bind_eq_ok.mp hrun
  obtain ⟨s₁, hs₁, hrun⟩ := Exec.bind_eq_ok.mp hrun
  obtain ⟨s₂, hs₂, hrun⟩ := Exec.bind_eq_ok.mp hrun
  obtain ⟨s₃, hs₃, hrun⟩ := Exec.bind_eq_ok.mp hrun
  obtain ⟨s₄, hs₄, hrun⟩ := Exec.bind_eq_ok.mp hrun
  obtain ⟨s₅, hs₅, hrun⟩ := Exec.bind_eq_ok.mp hrun
  obtain ⟨s₆, hs₆, hrun⟩ := Exec.bind_eq_ok.mp hrun
  obtain ⟨s₇, hs₇, hrun⟩ := Exec.bind_eq_ok.mp hrun
  split_ifs at hrun with hcounts
  obtain ⟨⟨hused₁, hnone₁, htotal₁⟩, hused₄, hnone₄, htotal₄⟩ := hcounts
  obtain ⟨S₀, B₀, hraw₀⟩ := wpacketCreate_ok sound_empty (by decide) hcreate
  obtain ⟨S, B, hraw⟩ := writeAll_ok S₀ B₀ hwrite
  have W := waiting_of_built B
  rw [hraw, hraw₀] at W
  have hops : BeforeEach step Allowed (start h true) (twoWrites w) := by
    refine .cons ⟨⟨0, ?_⟩, W, by decide⟩ hs₁ ?_
    · exact (zero_add (w.owned + 0)).symm ▸ S
    refine .cons ⟨hused₁, hnone₁, by decide, htotal₁, by decide⟩ hs₂ ?_
    refine .cons trivial hs₃ (.cons trivial hs₄ ?_)
    refine .cons ⟨hused₄, hnone₄, by decide, htotal₄, by decide⟩ hs₅ ?_
    exact .cons trivial hs₆ (.cons trivial hs₇ trivial)
  exact ⟨h, w, hops, sends_in_order S hops⟩

end Sender

end Kendylib
