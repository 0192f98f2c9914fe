import Kendylib.Net.Relay
import Kendylib.Net.SendRuns
import Kendylib.Net.SharedReads

/-!
# Runs of a relay

A packet that is forwarded is sent as it was received, whatever has been read from it, and while the
buffers that it shares are received into (`forwards_frames`). The length of the packet has to be such
that with the length field it is a 32-bit number: else `unpack` hands the packet over too early, and
what is sent is at most three bytes (`not_forwards_length_wraps`).

Receiving fills buffers further and links new ones behind them, and leaves what packets have copied
(`Spares`); a read leaves all bytes that are counted (`RPacket.Leaves`); the send path frees buffers at
most. So the places of the frame of a packet stay where they are (`Shares`), and the invariant of the
send path applies to the packets forwarded.
-/

namespace Kendylib

open RefHeap Buffer RPacket WPacket Connection Exec
open Held (ownedAll ownedAll_cons mem_ownedAll)

namespace Sender

variable {d d' : Sender} {h : Heap} {own : Multiset ℕ} {c c' : Connection} {ready : Bool}

/-- The references that an operation takes over. -/
def Op.owned : Op → Multiset ℕ
  | .push w .. | .send w .. => w.owned
  | _ => 0

/-- What an operation submits. -/
def Op.submissions : Op → List Submission
  | .push _ bytes callback => [⟨bytes, false, callback⟩]
  | .send _ bytes callback => [⟨bytes, true, callback⟩]
  | _ => []

theorem prepareSend_sendList (hx : prepareSend h c = .ok (ready, c')) : c'.sendList = c.sendList := by
  obtain ⟨vs, -, hx⟩ := Exec.bind_eq_ok.mp hx
  split_ifs at hx <;> cases Except.ok.inj hx <;> rfl

theorem update_owned (I : Inv d) (S : Sound d.heap (ownedAll d.conn.sendList + own))
    (hstep : d.update = .ok d') :
    Keeps d.heap d'.heap ∧ (∃ more, Sound d'.heap (ownedAll d'.conn.sendList + (more + own))) ∧
      d'.submitted = d.submitted := by
  have S₀ : Sound d.heap (ownedAll d.conn.sendList + (0 + own)) := by rwa [zero_add]
  rw [update] at hstep
  cases hsending : d.sending with
  | none =>
    rw [hsending] at hstep
    cases Except.ok.inj hstep
    exact ⟨.refl _, ⟨0, S₀⟩, rfl⟩
  | some k =>
    rw [hsending] at hstep
    cases k with
    | zero =>
      obtain ⟨⟨ready, c'⟩, hprep, hstep⟩ := Exec.bind_eq_ok.mp hstep
      have hlist : (if ready then c' else { c' with sendUsed := false }).sendList =
          d.conn.sendList := by
        have hsame := prepareSend_sendList hprep
        split_ifs <;> exact hsame
      cases Except.ok.inj hstep
      refine ⟨.refl _, ⟨0, ?_⟩, rfl⟩
      change Sound d.heap (ownedAll (if ready then c' else { c' with sendUsed := false }).sendList + _)
      rwa [hlist]
    | succ n =>
      obtain ⟨rest, Q, B, -⟩ := I.rest
      obtain ⟨⟨h₁, c₁, n₁, w₁⟩, hround, hstep⟩ := Exec.bind_eq_ok.mp hstep
      cases Except.ok.inj hstep
      cases hlist : d.conn.sendList with
      | nil =>
        rw [updateSendRound, hlist] at hround
        cases hround
      | cons w ws =>
        rw [hlist] at Q S
        cases rest with
        | nil => cases Q
        | cons bs rest =>
          by_cases hfull : bs.length ≤ n + 1
          · obtain ⟨h', hround', S', -, K⟩ := updateSendRound_complete S Q hlist hfull
            cases Except.ok.inj (hround'.symm.trans hround)
            exact ⟨K, ⟨_, S'⟩, rfl⟩
          · obtain ⟨h', w', hround', S', -, -, K⟩ :=
              updateSendRound_part S Q hlist (show n + 1 < bs.length by omega)
            cases Except.ok.inj (hround'.symm.trans hround)
            exact ⟨K, ⟨0, by rwa [zero_add]⟩, rfl⟩

/-- **What a step does with the memory**: buffers may be freed, and references handed to
`_packet_send_finish`. -/
theorem step_owned {op : Op} (I : Inv d) (hop : ∀ h, op ≠ .other h)
    (S : Sound d.heap (ownedAll d.conn.sendList + (op.owned + own))) (hstep : d.step op = .ok d') :
    Keeps d.heap d'.heap ∧ (∃ more, Sound d'.heap (ownedAll d'.conn.sendList + (more + own))) ∧
      d'.submitted = d.submitted ++ op.submissions := by
  have hpushed : ∀ (w : WPacket) (ws : List WPacket) callback,
      Sound d.heap (ownedAll ws + (w.owned + own)) →
        Sound d.heap (ownedAll (ws ++ [{ w with packetSendFinish := callback }]) + (0 + own)) := by
    intro w ws callback S
    rw [ownedAll_append_singleton, zero_add, add_assoc]
    exact S
  cases op with
  | push w bytes callback =>
    cases Except.ok.inj hstep
    exact ⟨.refl _, ⟨0, hpushed w _ callback S⟩, rfl⟩
  | send w bytes callback =>
    obtain ⟨c, hsend, hstep⟩ := Exec.bind_eq_ok.mp hstep
    cases Except.ok.inj hstep
    have hlist : c.sendList = d.conn.sendList ++ [{ w with packetSendFinish := callback }] := by
      rw [connectionSend] at hsend
      split_ifs at hsend with hused
      · rw [← Except.ok.inj hsend]
        rfl
      · obtain ⟨⟨ready, c'⟩, hprep, hsend⟩ := Exec.bind_eq_ok.mp hsend
        have hsame := prepareSend_sendList hprep
        dsimp only at hsend
        split_ifs at hsend
        obtain rfl := Except.ok.inj hsend
        exact hsame
    refine ⟨.refl _, ⟨0, ?_⟩, rfl⟩
    change Sound d.heap (ownedAll c.sendList + _)
    rw [hlist]
    exact hpushed w _ callback S
  | written n =>
    obtain ⟨out, -, hstep⟩ := Exec.bind_eq_ok.mp hstep
    cases Except.ok.inj hstep
    exact ⟨.refl _, ⟨0, S⟩, (List.append_nil _).symm⟩
  | update =>
    rw [show (Op.update).submissions = [] from rfl, List.append_nil]
    rw [show (Op.update).owned = 0 from rfl, zero_add] at S
    exact update_owned I S hstep
  | fail =>
    cases Except.ok.inj hstep
    exact ⟨.refl _, ⟨0, S⟩, (List.append_nil _).symm⟩
  | other h => exact absurd rfl (hop h)

end Sender

namespace Relay

variable {s s' : Relay} {h h' : Heap} {own own' : Multiset ℕ} {r r₀ r' : RPacket} {f : List UInt8}
  {stream xs : List UInt8} {ds es rs : List RPacket} {ws : List WPacket} {a b b' i k n : ℕ}
  {ops : List Op} {srcRaw destRaw : Bool}

/-! ## Frames -/

/-- The frame is as long as the packet says, with the length of the packet in front unless it is raw. -/
structure IsFrame (r : RPacket) (f : List UInt8) : Prop where
  length : f.length = frameLen r
  header : r.raw = false → ofBytes (f.take lenSize) = r.len
  nonempty : f ≠ []

/-- Frames stay when more is received. -/
theorem frameAt_append (hr : ds[i]? = some r) (hlen : (frameAt stream ds i).length = frameLen r) :
    frameAt (stream ++ xs) (ds ++ es) i = frameAt stream ds i := by
  have hi : i < ds.length := (List.getElem?_eq_some_iff.mp hr).1
  have hr' : (ds ++ es)[i]? = some r := by rw [List.getElem?_append_left hi, hr]
  unfold frameAt at hlen ⊢
  rw [hr] at hlen ⊢
  rw [hr', List.take_append_of_le_length hi.le]
  dsimp only at hlen ⊢
  rw [List.drop_append, List.take_append]
  rw [List.length_take] at hlen
  rw [show frameLen r - (stream.drop ((ds.take i).map taken).sum).length = 0 by omega, List.take_zero,
    List.append_nil]

/-- **What forwarding promises**: the connection that is sent on sends what is submitted, in order, and
what is submitted for a packet forwarded is its frame as received. -/
structure Relayed (s : Relay) : Prop where
  sent : Sender.Sent s.dest
  forwarded : ∀ x ∈ s.forwarded, ∃ r m, s.delivered[x.1]? = some r ∧
    s.dest.submitted[x.2]? = some m ∧ m.bytes = s.frame x.1 ∧ IsFrame r (s.frame x.1)

/-! ## The invariant -/

/-- A packet that is kept is the one that was handed over, with its cursor moved; the bytes of its frame
`f` are on its chain, and it has copied to memory that is apart. -/
structure Holding (h : Heap) (b : ℕ) (f : List UInt8) (r₀ r : RPacket) : Prop where
  len : r.len = r₀.len
  raw : r.raw = r₀.raw
  lt : r.len < 0x100000000
  binbuf : ∀ x, r.binbuf = some x → Apart h b x
  carried : Fits r → Sender.Carries h r f ∧ IsFrame r₀ f

/-- The bytes unpacked. -/
def unpacked (s : Relay) : ℕ := (s.delivered.map taken).sum

structure Inv (s : Relay) : Prop where
  buffered : ∃ own ps, Buffered keepPackets s.src (ownedAll s.dest.conn.sendList + own) s.unpacked ps
    (s.stream.drop s.unpacked)
  unpacked_le : s.unpacked ≤ s.stream.length
  ready : s.unpacking = none → Ready s.src
  sender : Sender.Inv s.sender
  kept_length : s.kept.length = s.src.app.length
  kept : ∀ (k i : ℕ) r b, s.kept[k]? = some i → s.src.app[k]? = some r → s.src.conn.nextRecvBuf = some b →
    ∃ r₀, s.delivered[i]? = some r₀ ∧ Holding s.src.heap b (s.frame i) r₀ r
  forwarded : ∀ x ∈ s.forwarded, ∃ r m, s.delivered[x.1]? = some r ∧
    s.dest.submitted[x.2]? = some m ∧ m.bytes = s.frame x.1 ∧ IsFrame r (s.frame x.1)

theorem Inv.relayed (I : Inv s) : Relayed s :=
  ⟨⟨I.sender.sent.accepted, I.sender.sent.completed, I.sender.sent.notBefore,
    I.sender.sent.whenAccepted, I.sender.sent.drained⟩, I.forwarded⟩

/-! ## Buffers that are shared -/

/-- The buffers of packets are at most filled further, and what packets have copied stays apart, while
the buffer being filled changes from `b` to `b'`. -/
structure Shares (rs : List RPacket) (ws : List WPacket) (h : Heap) (b : ℕ) (h' : Heap) (b' : ℕ) :
    Prop where
  kept : ∀ r ∈ rs, ∀ a, r.buf = some a → GrowsFrom h h' a
  binbuf : ∀ r ∈ rs, ∀ x, r.binbuf = some x → Apart h b x → Apart h' b' x
  waiting : ∀ w ∈ ws, ∀ a, w.buf = some a → GrowsFrom h h' a

theorem owned_eraseIdx (hr : rs[k]? = some r) :
    keepPackets.owned rs = r.owned + keepPackets.owned (rs.eraseIdx k) := by
  obtain ⟨hk, rfl⟩ := List.getElem?_eq_some_iff.mp hr
  exact ((List.getElem_cons_eraseIdx_perm hk).map RPacket.owned).sum_eq.symm

theorem owned_set (hr : rs[k]? = some r) :
    keepPackets.owned (rs.set k r') = r'.owned + keepPackets.owned (rs.eraseIdx k) := by
  obtain ⟨hk, rfl⟩ := List.getElem?_eq_some_iff.mp hr
  exact ((List.set_perm_cons_eraseIdx hk r').map RPacket.owned).sum_eq

theorem owned_append : keepPackets.owned (rs ++ [r]) = keepPackets.owned rs + r.owned := by
  simp [keepPackets]

theorem keepPackets_respects : keepPackets.Respects RPacket.owned := by
  intro rs h r own S
  refine ⟨rs ++ [r], h, rfl, ?_, fun a _ b c _ hc => ⟨c, hc, rfl, rfl⟩⟩
  rw [owned_append, add_comm _ r.owned, add_assoc]
  exact S

theorem owned_le (hr : r ∈ rs) : r.owned ≤ keepPackets.owned rs := by
  obtain ⟨k, hk⟩ := List.mem_iff_getElem?.mp hr
  rw [owned_eraseIdx hk]
  exact Multiset.le_add_right ..

theorem shared_le {x y z w : Multiset ℕ} : x + y ≤ w + (x + (y + z)) :=
  Multiset.le_iff_exists_add.mpr ⟨w + z, by abel⟩

theorem Shares.of_spares (P : Spares own h b h' b') (hrs : keepPackets.owned rs ≤ own)
    (hws : ownedAll ws ≤ own) : Shares rs ws h b h' b' := by
  have hmem : ∀ r ∈ rs, ∀ a ∈ r.owned, a ∈ own := fun r hr a ha =>
    Multiset.mem_of_le hrs (Multiset.mem_of_le (owned_le hr) ha)
  exact ⟨fun r hr a ha => P.grows a (hmem r hr a (by simp [RPacket.owned, ha])),
    fun r hr x hx => P.apart x (hmem r hr x (by simp [RPacket.owned, hx])),
    fun w hw a ha => P.grows a (Multiset.mem_of_le hws (mem_ownedAll hw (by simp [WPacket.owned, ha])))⟩

theorem Holding.grow (H : Holding h b f r₀ r) (G : ∀ a, r.buf = some a → GrowsFrom h h' a)
    (A : ∀ x, r.binbuf = some x → Apart h b x → Apart h' b' x) (S' : Sound h' own) :
    Holding h' b' f r₀ r :=
  ⟨H.len, H.raw, H.lt, fun x hx => A x hx (H.binbuf x hx),
    fun hfits => ⟨(H.carried hfits).1.grow G S', (H.carried hfits).2⟩⟩

/-- The frame of a packet that is kept stays when more is received. -/
theorem Holding.append (H : Holding h b (frameAt stream ds i) r₀ r) (hr : ds[i]? = some r₀) :
    Holding h b (frameAt (stream ++ xs) (ds ++ es) i) r₀ r :=
  ⟨H.len, H.raw, H.lt, H.binbuf, fun hfits => by
    rw [frameAt_append hr (H.carried hfits).2.length]
    exact H.carried hfits⟩

theorem Inv.kept_grow (I : Inv s) (hb : s.src.conn.nextRecvBuf = some b)
    (Sh : Shares rs ws s.src.heap b h' b') (S' : Sound h' own) (hi : s.kept[k]? = some i)
    (hr : s.src.app[k]? = some r) (hmem : r ∈ rs) :
    ∃ r₀, s.delivered[i]? = some r₀ ∧ Holding h' b' (s.frame i) r₀ r := by
  obtain ⟨r₀, hr₀, H⟩ := I.kept k i r b hi hr hb
  exact ⟨r₀, hr₀, H.grow (Sh.kept r hmem) (Sh.binbuf r hmem) S'⟩

theorem Inv.kept_append (I : Inv s) (hb : s.src.conn.nextRecvBuf = some b)
    (Sh : Shares s.src.app ws s.src.heap b h' b') (S' : Sound h' own) (xs : List UInt8)
    (es : List RPacket) (hi : s.kept[k]? = some i) (hr : s.src.app[k]? = some r) :
    ∃ r₀, (s.delivered ++ es)[i]? = some r₀ ∧
      Holding h' b' (frameAt (s.stream ++ xs) (s.delivered ++ es) i) r₀ r := by
  obtain ⟨r₀, hr₀, H⟩ := I.kept_grow hb Sh S' hi hr (List.mem_of_getElem? hr)
  have hlt : i < s.delivered.length := (List.getElem?_eq_some_iff.mp hr₀).1
  exact ⟨r₀, by rw [List.getElem?_append_left hlt, hr₀], H.append hr₀⟩

theorem Inv.forwarded_append (I : Inv s) (xs : List UInt8) (es : List RPacket)
    (l : List Submission) : ∀ x ∈ s.forwarded, ∃ r m, (s.delivered ++ es)[x.1]? = some r ∧
      (s.dest.submitted ++ l)[x.2]? = some m ∧ m.bytes = frameAt (s.stream ++ xs) (s.delivered ++ es) x.1 ∧
        IsFrame r (frameAt (s.stream ++ xs) (s.delivered ++ es) x.1) := by
  intro x hx
  obtain ⟨r, m, hr, hm, hbytes, hframe⟩ := I.forwarded x hx
  rw [frameAt_append hr hframe.length]
  exact ⟨r, m, by rw [List.getElem?_append_left (List.getElem?_eq_some_iff.mp hr).1, hr],
    by rw [List.getElem?_append_left (List.getElem?_eq_some_iff.mp hm).1, hm], hbytes, hframe⟩

/-- The send path goes on in memory that has been changed. -/
theorem Inv.sender_grow (I : Inv s) (S' : Sound h' (ownedAll s.dest.conn.sendList + own))
    (G : ∀ w ∈ s.dest.conn.sendList, ∀ a, w.buf = some a → GrowsFrom s.src.heap h' a) :
    Sender.Inv { s.dest with heap := h' } := by
  have hholds : s.sender.Holds h' 0 := ⟨own, by rw [zero_add]; exact S'⟩
  exact ⟨I.sender.toAccounted.other ⟨hholds, G⟩, I.sender.drained⟩

/-! ## Steps -/

/-- A step of the connection that is received from, or of the rest of the program. -/
theorem Inv.source {src : Receiver (List RPacket)} {ps : List (ℕ × ℕ)} (I : Inv s)
    (unpacking : Option ℕ) (hb : s.src.conn.nextRecvBuf = some b) (hb' : src.conn.nextRecvBuf = some b')
    (R' : Buffered keepPackets src (ownedAll s.dest.conn.sendList + own) s.unpacked ps
      ((s.stream ++ xs).drop s.unpacked))
    (happ : src.app = s.src.app)
    (Sh : Shares s.src.app s.dest.conn.sendList s.src.heap b src.heap b')
    (hready : unpacking = none → Ready src) :
    Inv { s with src := src, unpacking := unpacking, stream := s.stream ++ xs } := by
  have S' := R'.sound
  have S₁ : Sound src.heap (ownedAll s.dest.conn.sendList +
      (src.conn.recvOwned + (keepPackets.owned src.app + own))) := by
    convert S' using 1
    abel
  refine ⟨⟨own, ps, R'⟩, ?_, hready, I.sender_grow S₁ Sh.waiting, ?_, ?_, ?_⟩
  · have := I.unpacked_le
    change s.unpacked ≤ (s.stream ++ xs).length
    rw [List.length_append]
    omega
  · change s.kept.length = src.app.length
    rw [happ]
    exact I.kept_length
  · intro k i r b₁ hi hr hb₁
    obtain rfl := Option.some.inj (hb₁.symm.trans hb')
    obtain ⟨r₀, hr₀, H⟩ := I.kept_append hb Sh S' xs [] hi (happ ▸ hr)
    rw [List.append_nil] at hr₀ H
    exact ⟨r₀, hr₀, H⟩
  · have := I.forwarded_append xs [] []
    rwa [List.append_nil, List.append_nil] at this

theorem Inv.spared {src : Receiver (List RPacket)}
    (U : Undelivered keepPackets s.src src (ownedAll s.dest.conn.sendList + own)) :
    ∃ b b', s.src.conn.nextRecvBuf = some b ∧ src.conn.nextRecvBuf = some b' ∧
      Shares s.src.app s.dest.conn.sendList s.src.heap b src.heap b' := by
  obtain ⟨b, b', hb, hb', P⟩ := U.spares
  refine ⟨b, b', hb, hb', .of_spares P (Multiset.le_add_right ..) ?_⟩
  exact (Multiset.le_add_right ..).trans (Multiset.le_add_left ..)

/-- **The bytes of a read.** -/
theorem Inv.received {bs : List UInt8} (I : Inv s) (hC : s.Allowed (.received bs)) :
    ∃ s', s.step (.received bs) = .ok s' ∧ Inv s' := by
  obtain ⟨own, ps, R⟩ := I.buffered
  obtain ⟨src, qs, harrive, R', U, -⟩ := R.arrive (I.ready hC.1) hC.2
  obtain ⟨b, b', hb, hb', Sh⟩ := Inv.spared (s := s) U
  rw [← List.drop_append_of_le_length I.unpacked_le] at R'
  exact ⟨_, by rw [step, harrive]; rfl, I.source (some 0) hb hb' R' U.app Sh nofun⟩

/-- **The end of `unpack`**: memory is offered to the next read. -/
theorem Inv.offered (I : Inv s) :
    ∃ src, offer s.src = .ok src ∧ Inv { s with src := src, unpacking := none } := by
  obtain ⟨own, ps, R⟩ := I.buffered
  obtain ⟨src, hoffer, R', hready, U, -⟩ := R.offer
  obtain ⟨b, b', hb, hb', Sh⟩ := Inv.spared (s := s) U
  rw [← List.append_nil s.stream] at R'
  have I' := I.source none hb hb' R' U.app Sh fun _ => hready
  rw [List.append_nil] at I'
  exact ⟨src, hoffer, I'⟩

theorem taken_eq (hfits : Fits r) : taken r = frameLen r := by
  rw [taken, frameLen]
  split_ifs with hraw
  · rfl
  · rcases hfits with hfits | hfits
    · exact absurd hfits hraw
    · rw [add32_of_lt (by omega), add_comm]

/-- The packet handed over is kept, and `bs.take n` is its frame. -/
theorem holding_delivered {src : Receiver (List RPacket)} {len D : ℕ} {isRaw : Bool}
    {x : Heap × RPacket} {bs : List UInt8}
    (H : HandedOver keepPackets s.src src D len isRaw (bs.take n) x) (hn : n ≤ bs.length)
    (hpos : isRaw = true → 0 < n) (hlen : len < 0x100000000) (htaken : taken x.2 = n)
    (hheader : isRaw = false → ofBytes (bs.take lenSize) = len) :
    Holding x.1 b (bs.take (frameLen x.2)) x.2 x.2 := by
  obtain ⟨a, hr, -, -, qs, a', pos', hspan, hbytes⟩ := H.packet
  have hxlen : x.2.len = len := by rw [hr]
  have hxraw : x.2.raw = isRaw := by rw [hr]
  refine ⟨rfl, rfl, by rwa [hxlen], fun y hy => ?_, fun hfits => ?_⟩
  · rw [hr] at hy
    cases hy
  have hframe : n = frameLen x.2 := htaken ▸ taken_eq hfits
  rw [← hframe]
  have hlt : n < 0x100000000 := by
    rw [← htaken, taken]
    split_ifs
    · rwa [hxlen]
    · exact Nat.mod_lt _ (by decide)
  have hfull : (bs.take n).length = n := List.length_take_of_le hn
  refine ⟨⟨?_, by rwa [hfull], a, qs, a', pos', by rw [hr], ?_, hbytes⟩, ⟨?_, fun hraw => ?_, ?_⟩⟩
  · rw [hfull]
    exact htaken.symm
  · rw [hr]
    exact hspan
  · rw [hfull, hframe]
  · have hge : lenSize ≤ n := by
      rw [hframe, frameLen, hraw]
      exact Nat.le_add_right ..
    rw [List.take_take, Nat.min_eq_left hge, hheader (hxraw.symm.trans hraw), hxlen]
  · refine List.ne_nil_of_length_pos ?_
    rw [hfull]
    cases isRaw with
    | true => exact hpos rfl
    | false =>
      rw [hframe, frameLen, hxraw]
      exact Nat.lt_of_lt_of_le (by decide : 0 < lenSize) (Nat.le_add_right ..)

/-- **A packet is handed over.** -/
theorem Inv.delivered {src : Receiver (List RPacket)} {len : ℕ} {isRaw : Bool} {x : Heap × RPacket}
    {ps : List (ℕ × ℕ)} {bs : List UInt8} (I : Inv s) (hbs : bs = s.stream.drop s.unpacked)
    (R' : Buffered keepPackets src (ownedAll s.dest.conn.sendList + own) (s.unpacked + n) ps (bs.drop n))
    (H : HandedOver keepPackets s.src src s.unpacked len isRaw (bs.take n) x) (hn : n ≤ bs.length)
    (hpos : isRaw = true → 0 < n) (hlen : len < 0x100000000) (htaken : taken x.2 = n)
    (hheader : isRaw = false → ofBytes (bs.take lenSize) = len) (unpacking : ℕ) :
    Inv { s with
      src := src
      unpacking := some unpacking
      kept := s.kept ++ [s.delivered.length]
      delivered := s.delivered ++ src.app.drop s.src.app.length } := by
  obtain ⟨a₂, upos₂, hconn⟩ := H.conn
  obtain ⟨happ, hheap⟩ := Prod.mk.inj (Except.ok.inj H.call)
  have happ : src.app = s.src.app ++ [x.2] := happ.symm
  obtain ⟨b, hb⟩ : ∃ b, s.src.conn.nextRecvBuf = some b := by
    obtain ⟨own₀, ps₀, R⟩ := I.buffered
    obtain ⟨-, b, -, hb, -⟩ := R.chain
    exact ⟨b, hb⟩
  have hb' : src.conn.nextRecvBuf = some b := by
    rw [hconn]
    exact hb
  have hnew : src.app.drop s.src.app.length = [x.2] := by
    rw [happ]
    exact List.drop_left' rfl
  have S' := R'.sound
  have P : Spares (keepPackets.owned s.src.app + ownedAll s.dest.conn.sendList)
      s.src.heap b src.heap b := by
    refine .of_keeps (hheap ▸ H.keeps) S' ?_ b
    rw [happ, owned_append, show ∀ w x y z o : Multiset ℕ, y + (w + z + (x + o)) = w + x + (y + z + o) by
      intros; abel]
    exact Multiset.le_add_right ..
  have Sh : Shares s.src.app s.dest.conn.sendList s.src.heap b src.heap b :=
    .of_spares P (Multiset.le_add_right ..) (Multiset.le_add_left ..)
  have S₁ : Sound src.heap (ownedAll s.dest.conn.sendList +
      (src.conn.recvOwned + (keepPackets.owned src.app + own))) := by
    convert S' using 1
    abel
  have hunpacked : ((s.delivered ++ [x.2]).map taken).sum = s.unpacked + n := by
    rw [List.map_append, List.sum_append, ← htaken]
    simp [unpacked]
  rw [hnew]
  refine ⟨⟨own, ps, ?_⟩, ?_, nofun, I.sender_grow S₁ Sh.waiting, ?_, ?_, ?_⟩
  · change Buffered _ _ _ ((s.delivered ++ [x.2]).map taken).sum _
      (s.stream.drop ((s.delivered ++ [x.2]).map taken).sum)
    rwa [hunpacked, ← List.drop_drop, ← hbs]
  · change ((s.delivered ++ [x.2]).map taken).sum ≤ s.stream.length
    have := I.unpacked_le
    rw [hbs, List.length_drop] at hn
    omega
  · change (s.kept ++ [_]).length = src.app.length
    rw [happ, List.length_append, List.length_append, I.kept_length]
    rfl
  · intro k i r b₁ hi hr hb₁
    obtain rfl := Option.some.inj (hb'.symm.trans hb₁)
    change (s.kept ++ [_])[k]? = some i at hi
    change src.app[k]? = some r at hr
    rw [happ] at hr
    by_cases hk : k < s.src.app.length
    · rw [List.getElem?_append_left hk] at hr
      rw [List.getElem?_append_left (I.kept_length ▸ hk)] at hi
      obtain ⟨r₀, hr₀, H'⟩ := I.kept_append hb Sh S' [] [x.2] hi hr
      rw [List.append_nil] at H'
      exact ⟨r₀, hr₀, H'⟩
    · have hk := Nat.le_of_not_lt hk
      rw [List.getElem?_append_right hk, List.getElem?_singleton] at hr
      rw [List.getElem?_append_right (I.kept_length ▸ hk), List.getElem?_singleton] at hi
      split_ifs at hr hi
      obtain rfl := Option.some.inj hr
      obtain rfl := Option.some.inj hi
      refine ⟨x.2, by simp, ?_⟩
      have hframe : frameAt s.stream (s.delivered ++ [x.2]) s.delivered.length =
          bs.take (frameLen x.2) := by
        simp [frameAt, hbs, unpacked]
      change Holding src.heap b (frameAt s.stream (s.delivered ++ [x.2]) s.delivered.length) x.2 x.2
      rw [hframe, ← show x.1 = src.heap from hheap]
      exact holding_delivered H hn hpos hlen htaken hheader
  · have := I.forwarded_append [] [x.2] []
    rwa [List.append_nil, List.append_nil] at this

theorem unpackNext_offer {src : Receiver (List RPacket)} {pkLen : ℕ} (hs : s.unpacking = some pkLen)
    (hstep : unpackStep keepPackets pkLen s.src = .ok none) (hoffer : offer s.src = .ok src) :
    s.unpackNext = .ok { s with src := src, unpacking := none } := by
  rw [unpackNext, hs]
  simp only [hstep, hoffer, Exec.ok_bind]
  rfl

theorem unpackNext_round {src : Receiver (List RPacket)} {pkLen len : ℕ}
    (hs : s.unpacking = some pkLen) (hstep : unpackStep keepPackets pkLen s.src = .ok (some (src, len))) :
    s.unpackNext = .ok { s with
      src := src
      unpacking := some len
      kept := s.kept ++ [s.delivered.length]
      delivered := s.delivered ++ src.app.drop s.src.app.length } := by
  rw [unpackNext, hs]
  simp only [hstep, Exec.ok_bind]
  rfl

/-- **A round of `unpack`**, or the offer behind the last one. -/
theorem Inv.unpackNext (I : Inv s) : ∃ s', s.unpackNext = .ok s' ∧ Inv s' := by
  cases hs : s.unpacking with
  | none => exact ⟨s, by rw [Relay.unpackNext, hs], I⟩
  | some pkLen =>
    obtain ⟨src, hoffer, hoffered⟩ := I.offered
    obtain ⟨own, ps, R⟩ := I.buffered
    have hsize := R.size
    by_cases hraw : s.src.conn.raw = true
    · have hstep : unpackStep keepPackets pkLen s.src = unpackRoundRaw keepPackets s.src := by
        rw [unpackStep, if_pos hraw]
      rcases R.roundRaw keepPackets_respects with
        ⟨-, hround⟩ | ⟨len, src', x, hpos, hle, hbuf, hround, R', H, -⟩
      · exact ⟨_, unpackNext_offer hs (hstep.trans hround) hoffer, hoffered⟩
      · obtain ⟨a, hr, -⟩ := H.packet
        refine ⟨_, unpackNext_round hs (hstep.trans hround),
          I.delivered rfl R' H hle (fun _ => hpos) (hbuf.trans_lt (by decide)) ?_ nofun len⟩
        rw [hr]
        rfl
    · have hstep : unpackStep keepPackets pkLen s.src = unpackRound keepPackets pkLen s.src := by
        rw [unpackStep, if_neg hraw]
      by_cases hmore : lenSize < s.src.conn.unpackSize
      · have hlen : ofBytes ((s.stream.drop s.unpacked).take lenSize) < 0x100000000 := by
          refine (ofBytes_lt _).trans_le (Nat.pow_le_pow_right (by decide) (List.length_take_le _ _))
        rcases R.round keepPackets_respects pkLen hmore rfl rfl with
          ⟨-, hround⟩ | ⟨hle, src', x, hround, R', H⟩
        · exact ⟨_, unpackNext_offer hs (hstep.trans hround) hoffer, hoffered⟩
        · obtain ⟨a, hr, -⟩ := H.packet
          refine ⟨_, unpackNext_round hs (hstep.trans hround),
            I.delivered rfl R' H ?_ nofun hlen ?_ (fun _ => rfl) _⟩
          · rw [hsize] at hle
            exact hle.trans (Nat.mod_le _ _)
          · rw [hr]
            rfl
      · refine ⟨_, unpackNext_offer hs (hstep.trans ?_) hoffer, hoffered⟩
        rw [unpackRound, if_pos (Nat.le_of_not_lt hmore)]

/-- A step of the application or of the connection that is sent on. -/
theorem Inv.rest {app : List RPacket} {kept : List ℕ} {d : Sender} {l : List Submission} (I : Inv s)
    (T : ∀ a, s.src.conn.unpackBuf = some a → StaysFrom s.src.heap h' a)
    (S' : Sound h' (s.src.conn.recvOwned +
      (keepPackets.owned app + (ownedAll d.conn.sendList + own'))))
    (hd : Sender.Inv { d with heap := h' }) (hsub : d.submitted = s.dest.submitted ++ l)
    (hlen : kept.length = app.length)
    (hkept : ∀ (k i : ℕ) r b, kept[k]? = some i → app[k]? = some r →
      s.src.conn.nextRecvBuf = some b →
        ∃ r₀, s.delivered[i]? = some r₀ ∧ Holding h' b (s.frame i) r₀ r) :
    Inv { s with src.heap := h', src.app := app, kept := kept, dest := d } := by
  obtain ⟨own, ps, R⟩ := I.buffered
  refine ⟨⟨own', ps, R.stay T S'⟩, I.unpacked_le, fun hs => (I.ready hs).stay R T, hd, hlen, hkept, ?_⟩
  have := I.forwarded_append [] [] l
  rwa [List.append_nil, List.append_nil, ← hsub] at this

theorem Inv.holds (I : Inv s) : s.Holds s.src.heap 0 := by
  obtain ⟨own, ps, R⟩ := I.buffered
  refine ⟨own, ?_⟩
  convert R.sound using 1
  rw [owned]
  abel

theorem Inv.filling (I : Inv s) : ∃ b, s.src.conn.nextRecvBuf = some b := by
  obtain ⟨own, ps, R⟩ := I.buffered
  obtain ⟨-, b, -, hb, -⟩ := R.chain
  exact ⟨b, hb⟩

/-- **What a read leaves** of a packet that is kept. -/
theorem Holding.read {op : Read} {v : Value} (H : Holding h b f r₀ r) (S : Sound h (r.owned + own))
    (hb : b ∈ own) (hx : RPacket.read h r op = .ok (h', r', v)) :
    Leaves own b h r h' r' ∧ Holding h' b f r₀ r' := by
  have L := Leaves.read S hb H.lt H.binbuf hx
  obtain ⟨hbuf, hpos, hlen, hraw⟩ := L.fields
  refine ⟨L, hlen.trans H.len, hraw.trans H.raw, hlen ▸ H.lt, L.binbuf, fun hfits => ?_⟩
  obtain ⟨C, F⟩ := H.carried (by rwa [Fits, hlen, hraw] at hfits)
  refine ⟨(C.grow (fun a ha => (L.stays a ?_).growsFrom) L.sound).congr L.fields, F⟩
  exact Multiset.mem_add.mpr (.inl (by simp [ha]))

/-- **A read.** -/
theorem Inv.read {op : Read} (I : Inv s) (hx : s.step (.read k op) = .ok s') : Inv s' := by
  rw [step] at hx
  cases hr : s.src.app[k]? with
  | none =>
    rw [hr] at hx
    exact Except.ok.inj hx ▸ I
  | some r =>
    rw [hr] at hx
    obtain ⟨⟨h', r', v⟩, hread, hx⟩ := Exec.bind_eq_ok.mp hx
    obtain rfl := Except.ok.inj hx
    obtain ⟨own, ps, R⟩ := I.buffered
    obtain ⟨b, hb⟩ := I.filling
    have hk : k < s.src.app.length := (List.getElem?_eq_some_iff.mp hr).1
    obtain ⟨i, hi⟩ : ∃ i, s.kept[k]? = some i :=
      ⟨_, List.getElem?_eq_getElem (I.kept_length ▸ hk)⟩
    obtain ⟨r₀, hr₀, H⟩ := I.kept k i r b hi hr hb
    have S : Sound s.src.heap (r.owned + (s.src.conn.recvOwned +
        (keepPackets.owned (s.src.app.eraseIdx k) + (ownedAll s.dest.conn.sendList + own)))) := by
      convert R.sound using 1
      rw [owned_eraseIdx hr]
      abel
    obtain ⟨L, H'⟩ := H.read S (by simp [recvOwned, hb]) hread
    have P : Spares (keepPackets.owned (s.src.app.eraseIdx k) + ownedAll s.dest.conn.sendList)
        s.src.heap b h' b :=
      Spares.mono ⟨fun x hx => (L.stays x (Multiset.mem_add.mpr (.inr hx))).growsFrom,
        fun x hx A => L.apart x hx A⟩ shared_le
    have Sh : Shares (s.src.app.eraseIdx k) s.dest.conn.sendList s.src.heap b h' b :=
      .of_spares P (Multiset.le_add_right ..) (Multiset.le_add_left ..)
    have S' : Sound h' (s.src.conn.recvOwned + (keepPackets.owned (s.src.app.set k r') +
        (ownedAll s.dest.conn.sendList + own))) := by
      convert L.sound using 1
      rw [owned_set hr]
      abel
    have S₁ : Sound h' (ownedAll s.dest.conn.sendList + (s.src.conn.recvOwned +
        (keepPackets.owned (s.src.app.set k r') + own))) := by
      convert S' using 1
      abel
    refine I.rest (l := []) (fun a ha => L.stays a ?_) S' (I.sender_grow S₁ Sh.waiting)
      (List.append_nil _).symm (by rw [List.length_set, I.kept_length]) ?_
    · exact Multiset.mem_add.mpr (.inr (by simp [recvOwned, ha]))
    · intro j i' q b' hi' hq hb'
      obtain rfl := Option.some.inj (hb.symm.trans hb')
      by_cases hjk : k = j
      · subst hjk
        obtain rfl := Option.some.inj (hi.symm.trans hi')
        rw [List.getElem?_set_self hk] at hq
        exact ⟨r₀, hr₀, Option.some.inj hq ▸ H'⟩
      · rw [List.getElem?_set_ne hjk] at hq
        have hmem : q ∈ s.src.app.eraseIdx k :=
          List.mem_eraseIdx_iff_getElem?.mpr ⟨j, fun h => hjk h.symm, hq⟩
        exact I.kept_grow hb Sh S' hi' hq hmem

/-- **A packet is destroyed.** -/
theorem Inv.destroy (I : Inv s) : ∃ s', s.step (.destroy k) = .ok s' ∧ Inv s' := by
  rw [step]
  cases hr : s.src.app[k]? with
  | none => exact ⟨s, rfl, I⟩
  | some r =>
    obtain ⟨own, ps, R⟩ := I.buffered
    obtain ⟨b, hb⟩ := I.filling
    have hk : k < s.src.app.length := (List.getElem?_eq_some_iff.mp hr).1
    have S : Sound s.src.heap (r.owned + (s.src.conn.recvOwned +
        (keepPackets.owned (s.src.app.eraseIdx k) + (ownedAll s.dest.conn.sendList + own)))) := by
      convert R.sound using 1
      rw [owned_eraseIdx hr]
      abel
    obtain ⟨h', hdestroy, S', K⟩ := rpacketDestroy_spec S
    have Sh : Shares (s.src.app.eraseIdx k) s.dest.conn.sendList s.src.heap b h' b :=
      .of_spares (.of_keeps K S' shared_le b) (Multiset.le_add_right ..) (Multiset.le_add_left ..)
    have S₁ : Sound h' (ownedAll s.dest.conn.sendList + (s.src.conn.recvOwned +
        (keepPackets.owned (s.src.app.eraseIdx k) + own))) := by
      convert S' using 1
      abel
    refine ⟨_, by simp only [hdestroy, Exec.ok_bind]; rfl, I.rest (l := []) (fun a ha => ?_) S'
      (I.sender_grow S₁ Sh.waiting) (List.append_nil _).symm ?_ ?_⟩
    · exact .of_keepsFrom (K.from S'.toExact (S'.live (by simp [recvOwned, ha])))
    · rw [List.length_eraseIdx_of_lt hk, List.length_eraseIdx_of_lt (I.kept_length ▸ hk),
        I.kept_length]
    · intro j i q b' hi hq hb'
      obtain rfl := Option.some.inj (hb.symm.trans hb')
      have hmem : q ∈ s.src.app.eraseIdx k := List.mem_of_getElem? hq
      obtain ⟨j', hi', hq'⟩ : ∃ j', s.kept[j']? = some i ∧ s.src.app[j']? = some q := by
        rw [List.getElem?_eraseIdx] at hi hq
        split_ifs at hi hq
        · exact ⟨j, hi, hq⟩
        · exact ⟨j + 1, hi, hq⟩
      exact I.kept_grow hb Sh S' hi' hq' hmem

/-- Memory that the rest of the program has changed. -/
theorem Inv.memory (I : Inv s) (hb : s.src.conn.nextRecvBuf = some b)
    (T : ∀ a, s.src.conn.unpackBuf = some a → StaysFrom s.src.heap h' a)
    (Sh : Shares s.src.app s.dest.conn.sendList s.src.heap b h' b) (S' : Sound h' (s.owned + own)) :
    Inv (s.withSender { s.dest with heap := h' }) := by
  have S₁ : Sound h' (s.src.conn.recvOwned + (keepPackets.owned s.src.app +
      (ownedAll s.dest.conn.sendList + own))) := by
    convert S' using 1
    rw [owned]
    abel
  have S₂ : Sound h' (ownedAll s.dest.conn.sendList + (s.src.conn.recvOwned +
      (keepPackets.owned s.src.app + own))) := by
    convert S' using 1
    rw [owned]
    abel
  refine I.rest (l := []) T S₁ (I.sender_grow S₂ Sh.waiting) (List.append_nil _).symm I.kept_length ?_
  intro k i r b' hi hr hb'
  obtain rfl := Option.some.inj (hb.symm.trans hb')
  exact I.kept_grow hb Sh S' hi hr (List.mem_of_getElem? hr)

/-- **A step of the connection that is sent on.** -/
theorem Inv.dest (I : Inv s) (op : Sender.Op) (hop : ∀ h, op ≠ .other h)
    (hown : s.Holds s.src.heap op.owned) (hC : s.sender.Allowed op) :
    ∃ d, s.sender.step op = .ok d ∧ Inv (s.withSender d) ∧
      d.submitted = s.dest.submitted ++ op.submissions := by
  obtain ⟨d, hstep, hd⟩ := Sender.step_inv I.sender hC
  obtain ⟨own, S⟩ := hown
  obtain ⟨b, hb⟩ := I.filling
  have S₁ : Sound s.src.heap (ownedAll s.dest.conn.sendList + (op.owned +
      (s.src.conn.recvOwned + (keepPackets.owned s.src.app + own)))) := by
    convert S using 1
    rw [Relay.owned]
    abel
  obtain ⟨K, ⟨more, S₂⟩, hsub⟩ := Sender.step_owned I.sender hop S₁ hstep
  have S' : Sound d.heap (s.src.conn.recvOwned + (keepPackets.owned s.src.app +
      (ownedAll d.conn.sendList + (more + own)))) := by
    convert S₂ using 1
    abel
  refine ⟨d, hstep, I.rest (fun a ha => ?_) S' hd hsub I.kept_length ?_, hsub⟩
  · exact .of_keepsFrom (K.from S'.toExact (S'.live (by simp [recvOwned, ha])))
  · intro k i r b' hi hr hb'
    obtain rfl := Option.some.inj (hb.symm.trans hb')
    have P : Spares (keepPackets.owned s.src.app) s.src.heap b d.heap b :=
      .of_keeps K S' ((Multiset.le_add_right ..).trans (Multiset.le_add_left ..)) b
    have Sh : Shares s.src.app [] s.src.heap b d.heap b :=
      .of_spares P le_rfl (by rw [ownedAll]; exact Multiset.zero_le _)
    exact I.kept_grow hb Sh S' hi hr (List.mem_of_getElem? hr)

theorem owned_submission {w : WPacket} {flush callback : Bool} :
    (submission w f flush callback).owned = w.owned := by
  cases flush <;> rfl

/-- **A packet is forwarded.** -/
theorem Inv.forward {flush callback : Bool} (I : Inv s)
    (hfits : s.Forwardable (.forward k flush callback)) :
    ∃ s', s.forward k flush callback = .ok s' ∧ Inv s' := by
  rw [Relay.forward]
  cases hr : s.src.app[k]? with
  | none => exact ⟨s, rfl, I⟩
  | some r =>
    cases hi : s.kept[k]? with
    | none => exact ⟨s, rfl, I⟩
    | some i =>
      obtain ⟨own, ps, R⟩ := I.buffered
      obtain ⟨b, hb⟩ := I.filling
      obtain ⟨r₀, hr₀, H⟩ := I.kept k i r b hi hr hb
      obtain ⟨C, F⟩ := H.carried (hfits r hr)
      have S : Sound s.src.heap (s.owned + own) := by
        convert R.sound using 1
        rw [owned]
        abel
      obtain ⟨h, w, hcreate, S', K, W⟩ := Sender.waiting_of_carries S C
      have S'' : Sound h (s.owned + (w.owned + own)) := by
        convert S' using 1
        abel
      have P : Spares s.owned s.src.heap b h b := .of_keeps K S'' (Multiset.le_add_right ..) b
      have I₁ : Inv (s.withSender { s.dest with heap := h }) := by
        refine I.memory hb (fun a ha => ?_) (.of_spares P ?_ ?_) S''
        · exact .of_keepsFrom (K.from S''.toExact (S''.live (by simp [owned, recvOwned, ha])))
        · exact (Multiset.le_add_right ..).trans (Multiset.le_add_left ..)
        · exact (Multiset.le_add_left ..).trans (Multiset.le_add_left ..)
      have hholds : Sender.Holds { s.dest with heap := h } h w.owned := by
        refine ⟨s.src.conn.recvOwned + (keepPackets.owned s.src.app + own), ?_⟩
        convert S'' using 1
        rw [owned]
        abel
      have hallowed : Sender.Allowed { s.dest with heap := h }
          (submission w (s.frame i) flush callback) := by
        cases flush <;> exact ⟨hholds, W, F.nonempty⟩
      obtain ⟨d, hstep, I', hsub⟩ := I₁.dest (submission w (s.frame i) flush callback)
        (by cases flush <;> simp [submission]) ⟨own, by rw [owned_submission]; exact S''⟩ hallowed
      refine ⟨{ s.withSender d with forwarded := s.forwarded ++ [(i, s.dest.submitted.length)] }, ?_,
        I'.buffered, I'.unpacked_le, I'.ready, I'.sender, I'.kept_length, I'.kept, fun x hx => ?_⟩
      · simp only [hcreate, Exec.ok_bind]
        rw [show Sender.step { s.dest with heap := h } _ = _ from hstep]
        rfl
      · rcases List.mem_append.mp hx with hx | hx
        · exact I'.forwarded x hx
        · obtain rfl := List.mem_singleton.mp hx
          refine ⟨r₀, ⟨s.frame i, flush, callback⟩, hr₀, ?_, rfl, F⟩
          change d.submitted[s.dest.submitted.length]? = _
          rw [hsub]
          cases flush <;> exact List.getElem?_concat_length ..

/-- A read from a packet that is kept. It may fault, as a read from a packet whose length field crosses
the edge of a buffer does. -/
def Op.isRead : Op → Prop
  | .read .. => True
  | _ => False

/-- **One step.** -/
theorem step_inv {op : Op} (I : Inv s) (hC : s.Allowed op ∧ s.Forwardable op) :
    match s.step op with
    | .ok s' => Inv s'
    | .error _ => op.isRead := by
  have hok : (∃ s', s.step op = .ok s' ∧ Inv s') → match s.step op with
      | .ok s' => Inv s'
      | .error _ => op.isRead := by
    rintro ⟨s', hs', I'⟩
    rw [hs']
    exact I'
  cases op with
  | received bs => exact hok (I.received hC.1)
  | unpack => exact hok I.unpackNext
  | read k op =>
    cases hx : s.step (.read k op) with
    | ok s' => exact I.read hx
    | error e => trivial
  | destroy k => exact hok I.destroy
  | forward k flush callback => exact hok (I.forward hC.2)
  | dest op =>
    refine hok ?_
    cases op with
    | other h =>
      obtain ⟨⟨⟨own, S⟩, U, hother⟩, -⟩ := hC
      obtain ⟨b, hb⟩ := I.filling
      rw [zero_add] at S
      refine ⟨_, rfl, ?_⟩
      exact I.memory hb U.src ⟨U.kept, fun r hr x hx => U.binbuf r hr x b hx hb, hother.2⟩ S
    | push w bytes callback =>
      obtain ⟨d, hstep, I', -⟩ := I.dest (.push w bytes callback) nofun hC.1.1 hC.1.2
      exact ⟨_, by rw [step, hstep]; rfl, I'⟩
    | send w bytes callback =>
      obtain ⟨d, hstep, I', -⟩ := I.dest (.send w bytes callback) nofun hC.1.1 hC.1.2
      exact ⟨_, by rw [step, hstep]; rfl, I'⟩
    | written n =>
      obtain ⟨d, hstep, I', -⟩ := I.dest (.written n) nofun I.holds hC.1
      exact ⟨_, by rw [step, hstep]; rfl, I'⟩
    | update =>
      obtain ⟨d, hstep, I', -⟩ := I.dest .update nofun I.holds hC.1
      exact ⟨_, by rw [step, hstep]; rfl, I'⟩
    | fail =>
      obtain ⟨d, hstep, I', -⟩ := I.dest .fail nofun I.holds hC.1
      exact ⟨_, by rw [step, hstep]; rfl, I'⟩

theorem start_inv (S : Sound h own) :
    ∃ s, start h srcRaw destRaw = .ok s ∧ Inv s := by
  obtain ⟨h', c, hstart, -, R, hready⟩ := buffered_start (c := connectionCreate srcRaw)
    (show Sound h (keepPackets.owned [] + own) from (zero_add own).symm ▸ S) rfl
  refine ⟨⟨⟨h', c, [], [], []⟩, none, Sender.start h' destRaw, [], [], [], []⟩, by rw [start, hstart]; rfl,
    ⟨own, [], ?_⟩, Nat.zero_le _, fun _ => hready, Sender.start_inv R.sound, rfl, ?_, ?_⟩
  · change Buffered keepPackets _ (0 + own) 0 [] []
    rwa [zero_add]
  · intro k i r b hi
    cases hi
  · intro x hx
    cases hx

/-- **Forwarding preserves packets** in every run in which no packet is forwarded whose length, with the
length field, exceeds 32 bits; no step of such a run but a read of a packet faults. -/
theorem forwards_frames (S : Sound h own) : ∃ s, start h srcRaw destRaw = .ok s ∧
    ∀ ops, BeforeEach step (fun s op => s.Allowed op ∧ s.Forwardable op) s ops →
      Always step Relayed s ops ∧ FaultsOnly step (fun _ op _ => op.isRead) s ops := by
  obtain ⟨s, hstart, I⟩ := start_inv S
  refine ⟨s, hstart, fun ops hops =>
    safe_of_beforeEach (I := Inv) (fun _ I => I.relayed) (fun s op I hC => ?_) I hops⟩
  have hop := step_inv I hC
  cases h : s.step op with
  | ok s' => rwa [h] at hop
  | error e => rwa [h] at hop

/-- A packet of one byte is read from and forwarded, and more is received between the two writes that
it takes. -/
def oneByte : List Op :=
  [.received [1, 0, 0, 0, 7], .unpack, .unpack, .read 0 .uint8, .forward 0 true true,
    .dest (.written 3), .received [9], .dest .update, .dest .update, .dest (.written 2), .dest .update]

theorem forwards_frames_one_byte : ∃ s, start RefHeap.empty false false = .ok s ∧
    BeforeEach step (fun s op => s.Allowed op ∧ s.Forwardable op) s oneByte ∧
      Always step Relayed s oneByte ∧ FaultsOnly step (fun _ op _ => op.isRead) s oneByte := by
  obtain ⟨s, hrun⟩ := Exec.exists_ok (x := do
    let s₀ ← start RefHeap.empty false false
    let s₁ ← step s₀ (.received [1, 0, 0, 0, 7])
    let s₂ ← step s₁ .unpack
    let s₃ ← step s₂ .unpack
    let s₄ ← step s₃ (.read 0 .uint8)
    let s₅ ← step s₄ (.forward 0 true true)
    let s₆ ← step s₅ (.dest (.written 3))
    let s₇ ← step s₆ (.received [9])
    let s₈ ← step s₇ (.dest .update)
    let s₉ ← step s₈ (.dest .update)
    let s₁₀ ← step s₉ (.dest (.written 2))
    let s₁₁ ← step s₁₀ (.dest .update)
    if (s₀.unpacking = none ∧ (∀ r ∈ s₄.src.app, lenSize + RPacket.len r < 0x100000000)) ∧
      (s₅.dest.conn.sendUsed = true ∧ s₅.dest.sending = none ∧
        3 ≤ (s₅.dest.conn.wsendbuf.map Iovec.len).sum) ∧ s₆.unpacking = none ∧
      s₉.dest.conn.sendUsed = true ∧ s₉.dest.sending = none ∧
        2 ≤ (s₉.dest.conn.wsendbuf.map Iovec.len).sum then return s₁₁
    else .error .fuel) (by decide +kernel)
  obtain ⟨s₀, hs₀, hrun⟩ := Exec.bind_eq_ok.mp hrun
  obtain ⟨s₁, hs₁, hrun⟩ := Exec.bind_eq_ok.mp hrun
  obtain ⟨s₂, hs₂, hrun⟩ := Exec.bind_eq_ok.mp hrun
  obtain ⟨s₃, hs₃, hrun⟩ := Exec.bind_eq_ok.mp hrun
  obtain ⟨s₄, hs₄, hrun⟩ := Exec.bind_eq_ok.mp hrun
  obtain ⟨s₅, hs₅, hrun⟩ := Exec.bind_eq_ok.mp hrun
  obtain ⟨s₆, hs₆, hrun⟩ := Exec.bind_eq_ok.mp hrun
  obtain ⟨s₇, hs₇, hrun⟩ := Exec.bind_eq_ok.mp hrun
  obtain ⟨s₈, hs₈, hrun⟩ := Exec.bind_eq_ok.mp hrun
  obtain ⟨s₉, hs₉, hrun⟩ := Exec.bind_eq_ok.mp hrun
  obtain ⟨s₁₀, hs₁₀, hrun⟩ := Exec.bind_eq_ok.mp hrun
  obtain ⟨s₁₁, hs₁₁, hrun⟩ := Exec.bind_eq_ok.mp hrun
  split_ifs at hrun with hfacts
  obtain ⟨⟨hfree₀, hfits⟩, ⟨hused₅, hnone₅, htotal₅⟩, hfree₆, hused₉, hnone₉, htotal₉⟩ := hfacts
  have hops : BeforeEach step (fun s op => s.Allowed op ∧ s.Forwardable op) s₀ oneByte := by
    refine .cons ⟨⟨hfree₀, by decide⟩, trivial⟩ hs₁ (.cons ⟨trivial, trivial⟩ hs₂ ?_)
    refine .cons ⟨trivial, trivial⟩ hs₃ (.cons ⟨trivial, trivial⟩ hs₄ ?_)
    refine .cons ⟨trivial, fun r hr => .inr (hfits r (List.mem_of_getElem? hr))⟩ hs₅ ?_
    refine .cons ⟨⟨hused₅, hnone₅, by decide, htotal₅, by decide⟩, trivial⟩ hs₆ ?_
    refine .cons ⟨⟨hfree₆, by decide⟩, trivial⟩ hs₇ (.cons ⟨trivial, trivial⟩ hs₈ ?_)
    refine .cons ⟨trivial, trivial⟩ hs₉ ?_
    refine .cons ⟨⟨hused₉, hnone₉, by decide, htotal₉, by decide⟩, trivial⟩ hs₁₀ ?_
    exact .cons ⟨trivial, trivial⟩ hs₁₁ trivial
  obtain ⟨s, hstart, hall⟩ :=
    (forwards_frames sound_empty : ∃ s, start RefHeap.empty false false = .ok s ∧ _)
  obtain rfl := Except.ok.inj (hstart.symm.trans hs₀)
  exact ⟨s, hstart, hops, hall _ hops⟩

/-- A packet of a length of nearly 4 GB is handed over when five bytes have been received, and
forwarded. -/
def lengthWraps : List Op :=
  [.received [254, 255, 255, 255, 0], .unpack, .unpack, .forward 0 true false, .dest (.written 2),
    .dest .update]

/-- The packet is complete when two bytes of its length field have been sent. -/
theorem not_forwards_length_wraps : ∃ s, start RefHeap.empty false false = .ok s ∧
    BeforeEach step Allowed s lengthWraps ∧ ¬ Always step Relayed s lengthWraps := by
  obtain ⟨s, hrun⟩ := Exec.exists_ok (x := do
    let s₀ ← start RefHeap.empty false false
    let s₁ ← step s₀ (.received [254, 255, 255, 255, 0])
    let s₂ ← step s₁ .unpack
    let s₃ ← step s₂ .unpack
    let s₄ ← step s₃ (.forward 0 true false)
    let s₅ ← step s₄ (.dest (.written 2))
    let s₆ ← step s₅ (.dest .update)
    if s₀.unpacking = none ∧ (s₄.dest.conn.sendUsed = true ∧ s₄.dest.sending = none ∧
        2 ≤ (s₄.dest.conn.wsendbuf.map Iovec.len).sum) ∧
      ¬ (s₆.dest.submitted.take s₆.dest.completed.length).flatMap Submission.bytes <+:
        s₆.dest.accepted then return s₆
    else .error .fuel) (by decide +kernel)
  obtain ⟨s₀, hs₀, hrun⟩ := Exec.bind_eq_ok.mp hrun
  obtain ⟨s₁, hs₁, hrun⟩ := Exec.bind_eq_ok.mp hrun
  obtain ⟨s₂, hs₂, hrun⟩ := Exec.bind_eq_ok.mp hrun
  obtain ⟨s₃, hs₃, hrun⟩ := Exec.bind_eq_ok.mp hrun
  obtain ⟨s₄, hs₄, hrun⟩ := Exec.bind_eq_ok.mp hrun
  obtain ⟨s₅, hs₅, hrun⟩ := Exec.bind_eq_ok.mp hrun
  obtain ⟨s₆, hs₆, hrun⟩ := Exec.bind_eq_ok.mp hrun
  split_ifs at hrun with hfacts
  obtain ⟨hfree₀, ⟨hused₄, hnone₄, htotal₄⟩, hlost⟩ := hfacts
  refine ⟨s₀, hs₀, ?_, fun hall => ?_⟩
  · refine .cons ⟨hfree₀, by decide⟩ hs₁ (.cons trivial hs₂ (.cons trivial hs₃ ?_))
    refine .cons trivial hs₄ (.cons ⟨hused₄, hnone₄, by decide, htotal₄, by decide⟩ hs₅ ?_)
    exact .cons trivial hs₆ trivial
  · have hend := (((((hall.tail hs₁).tail hs₂).tail hs₃).tail hs₄).tail hs₅).tail hs₆
    exact hlost hend.head.sent.notBefore

end Relay

end Kendylib
