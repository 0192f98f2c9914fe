import Kendylib.Net.RawPackets

/-!
# The chain between two rounds

What a round of `RecvFinish` leaves, on a raw connection and on one that is not raw: the chain from
the unpacking cursor to the receiving cursor, and the request that is posted for the next read.

* `Positions` are the places met from a cursor on, one after the other, and from the end of a buffer
  on in the next one.
* `Inv` is the invariant of the chain. It holds after every round, whatever the reads
  (`receive_inv`).

The length fields of a stream of frames may be zero, and the bytes that wait for the rest of a frame
are bounded by the largest frame, or are a length field of their own (`recvFinish_pending`).
-/

namespace Kendylib.Connection

open RefHeap Buffer RPacket WPacket

variable {σ : Type} {process : Callback σ RPacket} {s s' : Receiver σ} {own : Multiset ℕ} {D : ℕ}
  {ps qs : List (ℕ × ℕ)} {bs : List UInt8} {h h' : Heap} {a b pos upos rpos n m x : ℕ}
  {c d : Cell Block}

/-- The places met from `pos` in the buffer `b` on. -/
inductive Positions (h : Heap) : ℕ → ℕ → List (ℕ × ℕ) → Prop
  | nil {b pos : ℕ} : Positions h b pos []
  | here {b pos : ℕ} {c : Cell Block} {ps : List (ℕ × ℕ)} (hc : h.cell b = some c)
      (hlt : pos < c.body.capacity) (rest : Positions h b (pos + 1) ps) :
      Positions h b pos ((b, pos) :: ps)
  | next {b pos n : ℕ} {c : Cell Block} {ps : List (ℕ × ℕ)} (hc : h.cell b = some c)
      (hend : pos = c.body.capacity) (hnext : c.next = some n) (rest : Positions h n 0 ps) :
      Positions h b pos ps

theorem Positions.places (hc : h.cell b = some c) (hle : pos + n ≤ c.body.capacity)
    (rest : Positions h b (pos + n) ps) : Positions h b pos (places b pos n ++ ps) := by
  induction n generalizing pos with
  | zero => simpa [Buffer.places] using rest
  | succ n ih =>
    have hcons : Buffer.places b pos (n + 1) = (b, pos) :: Buffer.places b (pos + 1) n := by
      rw [Buffer.places, List.range'_succ, List.map_cons, Buffer.places]
    rw [hcons, List.cons_append]
    refine .here hc (by omega) (ih (by omega) ?_)
    rwa [show pos + 1 + n = pos + (n + 1) by omega]

/-- The number of bytes of the stream that the packets handed over so far were made of: those of a
packet, and on a connection that is not raw those of its length field. -/
def deliveredBytes (s : Receiver σ) : ℕ :=
  (s.handed.map fun x => x.2.len + if s.conn.raw then 0 else lenSize).sum

/-- The request posted for the next read: one or two pieces of memory, 65536 bytes together, which
are the places that come next in the chain, in this order. -/
structure Requests (s : Receiver σ) (b : ℕ) : Prop where
  used : s.conn.recvUsed = true
  count : s.conn.wrecvbuf.length = 1 ∨ s.conn.wrecvbuf.length = 2
  sum : (s.conn.wrecvbuf.map Iovec.len).sum = bufferSize
  positions : Positions s.heap b s.conn.nextRecvPos (offeredPlaces s.conn.wrecvbuf)

/-- The chain from `unpack_buf` to `next_recv_buf`, and the request for the next read, after the
bytes `received`. -/
structure Inv (s : Receiver σ) (received : List UInt8) : Prop where
  chain : ∃ a b d ps, s.conn.unpackBuf = some a ∧ s.conn.nextRecvBuf = some b ∧
    s.heap.cell b = some d ∧ Reach s.heap a b ∧
    (∀ x c, Reach s.heap a x → Reach s.heap x b → x ≠ b → s.heap.cell x = some c →
      c.body.size = c.body.capacity) ∧
    s.conn.nextRecvPos = d.body.size ∧ s.conn.nextRecvPos < d.body.capacity ∧
    Span s.heap a s.conn.unpackPos ps b s.conn.nextRecvPos ∧ s.conn.unpackSize = ps.length ∧
    Bytes s.heap ps (received.drop (deliveredBytes s)) ∧ Requests s b ∧
    ∀ k ≤ bufferSize, ∃ h' b' rpos', updateNextRecvPos s.heap s.conn k =
        .ok (h', { s.conn with nextRecvBuf := some b', nextRecvPos := rpos' }) ∧
      Span h' a s.conn.unpackPos (ps ++ (offeredPlaces s.conn.wrecvbuf).take k) b' rpos'
  delivered : deliveredBytes s ≤ received.length

/-- The buffers that a span leaves are full. -/
theorem Span.full (hs : Span h a pos ps b upos) (E : Exact h own) (hax : Reach h a x)
    (hxb : Reach h x b) (hne : x ≠ b) (hx : h.cell x = some c) : c.body.size = c.body.capacity := by
  induction hs with
  | here hd hn => exact absurd (le_antisymm (E.le_of_reach hxb) (E.le_of_reach hax)) hne
  | cross hd hpos hfull hnext rest ih =>
    cases hax with
    | refl =>
      obtain rfl := Option.some.inj (hd.symm.trans hx)
      exact hfull
    | step hd' hnext' hrest =>
      obtain rfl := Option.some.inj (hd.symm.trans hd')
      obtain rfl := Option.some.inj (hnext.symm.trans hnext')
      exact ih hrest hxb hne

/-- The memory that is offered comes next in the chain. -/
theorem Offered.positions {vs : List Iovec} (hoff : Offered h b rpos vs)
    (C : Chain h a upos ps b rpos) : Positions h b rpos (offeredPlaces vs) := by
  obtain ⟨d, hd, hsize, hnext⟩ := C.filling
  have hcap := C.path.capacity_last hd
  have hroom := C.room
  rcases hoff with ⟨rfl, rfl⟩ | ⟨-, e, n, he, hn, rfl⟩
  · rw [offeredPlaces_one, ← List.append_nil (places b 0 bufferSize)]
    exact Positions.places hd (by omega) .nil
  · obtain rfl := Option.some.inj (he.symm.trans hd)
    rw [offeredPlaces_two]
    refine Positions.places hd (by omega) (.next hd (by omega) hn ?_)
    rcases hnext with hnone | ⟨n', f, hn', hf, -, -, hfcap⟩
    · rw [hnone] at hn
      cases hn
    · obtain rfl := Option.some.inj (hn'.symm.trans hn)
      rw [← List.append_nil (places n' 0 rpos)]
      exact Positions.places hf (by omega) .nil

/-- **The invariant** of a connection that is ready for a read, of which fewer than `2 ^ 32` bytes
wait. -/
theorem Buffered.inv {received : List UInt8}
    (R : Buffered process s own (deliveredBytes s) ps (received.drop (deliveredBytes s)))
    (hready : Ready s) (hused : s.conn.recvUsed = true) (hle : deliveredBytes s ≤ received.length)
    (hroom : received.length - deliveredBytes s < 0x100000000) : Inv s received := by
  obtain ⟨a, b, hbuf, hnext, C⟩ := R.chain
  obtain ⟨b', hnext', hoff⟩ := hready
  obtain rfl := Option.some.inj (hnext.symm.trans hnext')
  obtain ⟨d, hd, hsize, -⟩ := C.filling
  have hlen := R.bytes.length
  have hrecv := C.room
  rw [List.length_drop] at hlen
  refine ⟨⟨a, b, d, ps, hbuf, hnext, hd, C.span.reach, ?_, hsize.symm, ?_, C.span, ?_, R.bytes,
    ⟨hused, ?_, ?_, hoff.positions C⟩, fun k hk => ?_⟩, hle⟩
  · exact fun x c hax hxb hne hx => Span.full C.span R.sound.toExact hax hxb hne hx
  · rw [C.path.capacity_last hd]
    exact hrecv
  · rw [R.size, List.length_drop, Nat.mod_eq_of_lt hroom, hlen]
  · rcases hoff with ⟨-, hvs⟩ | ⟨-, _, _, -, -, hvs⟩
    · exact .inl (by rw [hvs]; rfl)
    · exact .inr (by rw [hvs]; rfl)
  · rcases hoff with ⟨-, hvs⟩ | ⟨-, _, _, -, -, hvs⟩
    · rw [hvs]
      rfl
    · simp only [hvs, List.map_cons, List.map_nil, List.sum_cons, List.sum_nil]
      omega
  · have S : Sound s.heap (refs (some b) + (refs (some a) + (process.owned s.app + own))) := by
      convert R.sound using 1
      rw [recvOwned, hbuf, hnext]
      abel
    obtain ⟨h', b', rpos', hupdate, -, C', -⟩ :=
      updateNextRecvPos_spec S hnext rfl C (by simp) hoff hk
    exact ⟨h', b', rpos', hupdate, C'.span⟩

/-! ## Rounds -/

theorem used_of_start {isRaw : Bool} {conn : Connection}
    (h : connectionStartRecv h (connectionCreate isRaw) = .ok (h', conn)) :
    conn.recvUsed = true := by
  obtain ⟨⟨h₁, b⟩, -, h⟩ := Exec.bind_eq_ok.mp h
  obtain ⟨h₂, -, h⟩ := Exec.bind_eq_ok.mp h
  obtain ⟨-, rfl⟩ := Prod.mk.inj (Except.ok.inj h)
  rfl

theorem used_of_recvRound (h : recvRound process s bs = .ok s') : s'.conn.recvUsed = true := by
  obtain ⟨s₁, -, h⟩ := Exec.bind_eq_ok.mp h
  obtain ⟨s₂, -, h⟩ := Exec.bind_eq_ok.mp h
  obtain ⟨b, -, h⟩ := Exec.bind_eq_ok.mp h
  obtain ⟨⟨h', vs⟩, -, h⟩ := Exec.bind_eq_ok.mp h
  obtain rfl := Except.ok.inj h
  rfl

/-- A request is posted after every round. -/
theorem used_of_recvFinish {reads : List (List UInt8)}
    (h : recvFinish process .again s reads = .ok s') (hused : s.conn.recvUsed = true) :
    s'.conn.recvUsed = true := by
  induction reads generalizing s with
  | nil =>
    obtain rfl := Except.ok.inj h
    exact hused
  | cons bs reads ih =>
    obtain ⟨s₁, hround, hrest⟩ := Exec.bind_eq_ok.mp h
    exact ih hrest (used_of_recvRound hround)

theorem DeliveredAll.sum {arrived : List (ℕ × ℕ)} {frames : List (List UInt8)}
    {xs : List (Heap × RPacket)} (hd : DeliveredAll arrived D (frames.map encode) xs) :
    (xs.map fun x => x.2.len + lenSize).sum = (frames.flatMap encode).length := by
  induction frames generalizing D xs with
  | nil =>
    cases xs with
    | nil => rfl
    | cons x xs => exact hd.elim
  | cons p frames ih =>
    cases xs with
    | nil => exact hd.elim
    | cons x xs =>
      obtain ⟨⟨⟨a, hx, -⟩, -⟩, hrest⟩ := hd
      rw [List.map_cons, List.sum_cons, ih hrest, List.flatMap_cons, List.length_append, hx,
        length_encode]
      dsimp only
      omega

section Frames

variable {frames : List (List UInt8)} (hp : process.Respects RPacket.owned)

include hp

/-- **A series of reads** of a stream of frames, some of which may be empty. The bytes that wait
after it are fewer than `2 ^ 32 - 65536`. -/
theorem recvFinish_pending (R : Receiving process s own D ps bs) (hready : Ready s)
    (hframes : ∀ p ∈ frames, p.length + lenSize + bufferSize < 0x100000000)
    (reads : List (List UInt8)) (hreads : ∀ xs ∈ reads, xs.length ≤ bufferSize)
    (hstream : bs ++ reads.flatten <+: frames.flatMap encode)
    (hroom : bs.length + bufferSize < 0x100000000) :
    ∃ s' ys n qs, recvFinish process .again s reads = .ok s' ∧ s'.handed = s.handed ++ ys ∧
      (ys.map fun x => x.2.len + lenSize).sum = n ∧ n ≤ (bs ++ reads.flatten).length ∧
      Receiving process s' own (D + n) qs ((bs ++ reads.flatten).drop n) ∧ Ready s' ∧
      (bs ++ reads.flatten).length - n + bufferSize < 0x100000000 := by
  induction reads generalizing s D ps bs frames with
  | nil =>
    rw [List.flatten_nil, List.append_nil]
    exact ⟨s, [], 0, ps, rfl, (List.append_nil _).symm, rfl, Nat.zero_le _, R, hready, hroom⟩
  | cons xs reads ih =>
    have hlenSize : lenSize = 4 := rfl
    have hbs : bufferSize = 65536 := rfl
    have hxs := hreads xs List.mem_cons_self
    rw [List.flatten_cons, ← List.append_assoc] at hstream ⊢
    have hfirst : bs ++ xs <+: frames.flatMap encode := (List.prefix_append _ _).trans hstream
    obtain ⟨s₁, k, ys₁, qs₁, ps₁, rest, hround, hk, R₁, hready₁, hsplit, hwaits, hhand₁, -, hall₁⟩ :=
      read_frames hp R hready hxs (fun p hp => by have := hframes p hp; omega) hfirst
    have hlen := congrArg List.length hsplit
    rw [List.length_append, List.length_append] at hlen
    have hrest := stream_rest hsplit hstream
    -- what waits is a length field, or a part of the next frame
    have hroom₁ : rest.length + bufferSize < 0x100000000 := by
      cases hnext : (frames.drop k)[0]? with
      | none =>
        have hnil : frames.drop k = [] := by simpa using hnext
        rw [hnil, List.flatMap_nil, List.prefix_nil, List.append_eq_nil_iff] at hrest
        rw [hrest.1]
        decide
      | some p =>
        have hframe := hframes p (List.mem_of_mem_drop (List.mem_of_getElem? hnext))
        rcases hwaits p hnext with hfew | hfew <;> rw [Nat.mod_eq_of_lt (by omega)] at hfew <;> omega
    obtain ⟨s', ys₂, n, qs, hrun, hhand₂, hsum, hn, R', hready', hroom'⟩ := ih R₁ hready₁
      (fun p hp => hframes p (List.mem_of_mem_drop hp))
      (fun ys hys => hreads ys (List.mem_cons_of_mem _ hys)) hrest hroom₁
    have hdrop : ∀ m, (bs ++ xs ++ reads.flatten).drop
        (((frames.take k).flatMap encode).length + m) = (rest ++ reads.flatten).drop m := by
      intro m
      rw [← List.drop_drop, hsplit, List.append_assoc, List.drop_left]
    have htotal : (bs ++ xs ++ reads.flatten).length =
        ((frames.take k).flatMap encode).length + (rest ++ reads.flatten).length := by
      rw [hsplit, List.append_assoc, List.length_append]
    refine ⟨s', ys₁ ++ ys₂, ((frames.take k).flatMap encode).length + n, qs, ?_, ?_, ?_, by omega,
      ?_, hready', by omega⟩
    · rw [recvFinish, hround, Exec.ok_bind, hrun]
    · rw [hhand₂, hhand₁, List.append_assoc]
    · rw [List.map_append, List.sum_append, hall₁.sum, hsum]
    · rw [hdrop, ← Nat.add_assoc]
      exact R'

end Frames

/-- A connection stays raw. -/
theorem raw_kept : Kept process fun s => s.conn.raw = true where
  round _ _ H hraw := by
    obtain ⟨a', upos', hconn⟩ := H.conn
    rw [hconn]
    exact hraw
  other _ _ U hraw := U.raw.trans hraw

/-- On a raw connection all bytes have been delivered. -/
theorem delivered_raw {ds : List (List UInt8)} (hraw : s.conn.raw = true)
    (hall : List.Forall₂ Whole s.handed ds) : deliveredBytes s = ds.flatten.length := by
  rw [deliveredBytes, hraw]
  generalize s.handed = xs at hall
  induction hall with
  | nil => rfl
  | cons hx _ ih =>
    obtain ⟨a, pos, hx, -⟩ := hx.packet
    rw [List.map_cons, List.sum_cons, ih, List.flatten_cons, List.length_append, hx]
    rfl

section Start

variable {isRaw : Bool} {conn : Connection} {app : σ} {calls : List (List (List UInt8))}

/-- **The chain between two rounds.** After every series of reads on a connection, raw or not, no
assertion has failed, and the chain and the request for the next read are as they should be. -/
theorem receive_inv (hp : process.Respects RPacket.owned) (S : Sound h (process.owned app + own))
    (hstart : connectionStartRecv h (connectionCreate isRaw) = .ok (h', conn))
    (hreads : ∀ reads ∈ calls, ∀ bs ∈ reads, bs.length ≤ bufferSize)
    (hstream : isRaw = true ∨ ∃ frames : List (List UInt8),
      (∀ p ∈ frames, p.length + lenSize + bufferSize < 0x100000000) ∧
        calls.flatten.flatten <+: frames.flatMap encode) :
    ∃ s', receive process ⟨h', conn, app, [], []⟩ calls = .ok s' ∧
      Inv s' calls.flatten.flatten := by
  obtain ⟨h₁, c₁, hstart₁, hraw, R, hready⟩ := buffered_start (c := connectionCreate isRaw) S rfl
  obtain ⟨rfl, rfl⟩ := Prod.mk.inj (Except.ok.inj (hstart₁.symm.trans hstart))
  have hall : ∀ bs ∈ calls.flatten, bs.length ≤ bufferSize := by
    intro bs hbs
    obtain ⟨reads, hmem, hin⟩ := List.mem_flatten.mp hbs
    exact hreads reads hmem bs hin
  have hused : c₁.recvUsed = true := used_of_start hstart
  rcases Bool.eq_false_or_eq_true isRaw with rfl | rfl
  · obtain ⟨s', xs, ds, hrun, R', hready', hraw', hhand, hds, hwhole⟩ :=
      recvFinish_raw raw_kept hp R hready hraw hraw calls.flatten hall
    obtain rfl : s'.handed = xs := hhand
    have hdel : deliveredBytes s' = calls.flatten.flatten.length := by
      rw [delivered_raw hraw' hwhole, hds]
    rw [Nat.zero_add, ← hdel] at R'
    have hnil : calls.flatten.flatten.drop (deliveredBytes s') = [] := by
      rw [hdel, List.drop_length]
    rw [← hnil] at R'
    exact ⟨s', by rw [receive_eq, hrun], R'.inv hready' (used_of_recvFinish hrun hused) hdel.le
      (by rw [hdel, Nat.sub_self]; decide)⟩
  · obtain ⟨frames, hframes, hstream⟩ := hstream.resolve_left Bool.false_ne_true
    obtain ⟨s', ys, n, qs, hrun, hhand, hsum, hn, R', hready', hroom⟩ :=
      recvFinish_pending hp (R.receiving hraw) hready hframes calls.flatten hall hstream (by decide)
    obtain rfl : s'.handed = ys := hhand
    rw [List.nil_append] at hn R' hroom
    have hdel : deliveredBytes s' = n := by
      rw [deliveredBytes, R'.raw]
      exact hsum
    rw [Nat.zero_add] at R'
    subst hdel
    exact ⟨s', by rw [receive_eq, hrun], R'.buffered.inv hready' (used_of_recvFinish hrun hused) hn
      (by omega)⟩

end Start

/-- A frame, and a read that ends at the end of the first buffer. -/
theorem receive_inv_discard : ∃ h c s',
    connectionStartRecv RefHeap.empty (connectionCreate false) = .ok (h, c) ∧
      receive discard ⟨h, c, (), [], []⟩ [[[1, 0, 0, 0, 7], [0, 0, 0]], [[0, 2]]] = .ok s' ∧
        Inv s' [1, 0, 0, 0, 7, 0, 0, 0, 0, 2] := by
  obtain ⟨h, c, hstart, -⟩ := start_discard
  have hsound : Sound RefHeap.empty (discard.owned () + 0) := sound_empty
  obtain ⟨s', hrun, hinv⟩ : ∃ s',
      receive discard ⟨h, c, (), [], []⟩ [[[1, 0, 0, 0, 7], [0, 0, 0]], [[0, 2]]] = .ok s' ∧
        Inv s' [1, 0, 0, 0, 7, 0, 0, 0, 0, 2] :=
    receive_inv discard_respects hsound hstart (by decide)
      (.inr ⟨[[7], [], [0, 0]], by decide, by decide⟩)
  exact ⟨h, c, s', hstart, hrun, hinv⟩

end Kendylib.Connection
