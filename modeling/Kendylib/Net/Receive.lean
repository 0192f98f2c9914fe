import Kendylib.Net.Connection

/-!
# The chain of received bytes

The bytes that have been received and not unpacked yet lie on a span of the chain, from the
unpacking cursor to the receiving cursor (`Chain`). A read extends the span at its end
(`receive_spec`), and unpacking a packet moves its start (`unpackRound_spec`).
-/

namespace Kendylib

open RefHeap Buffer RPacket WPacket

namespace Connection

variable {σ : Type} {h h' : Heap} {own own' : Multiset ℕ} {a b pos upos rpos n k m : ℕ}
  {ps : List (ℕ × ℕ)} {bs : List UInt8} {c c' : Connection} {d e : Cell Block}

/-- The references a connection holds for receiving. -/
def recvOwned (c : Connection) : Multiset ℕ := refs c.unpackBuf + refs c.nextRecvBuf

/-! ## The chain -/

/-- The chain leads from `a` to `b`, through buffers of `BUFFER_SIZE` bytes. -/
inductive Path (h : Heap) : ℕ → ℕ → Prop
  | last {a : ℕ} {c : Cell Block} (hc : h.cell a = some c) (hcap : c.body.capacity = bufferSize) :
      Path h a a
  | step {a m b : ℕ} {c : Cell Block} (hc : h.cell a = some c) (hcap : c.body.capacity = bufferSize)
      (hnext : c.next = some m) (rest : Path h m b) : Path h a b

theorem Path.capacity (hp : Path h a b) (hd : h.cell a = some d) : d.body.capacity = bufferSize := by
  cases hp with
  | last hc hcap => exact Option.some.inj (hc.symm.trans hd) ▸ hcap
  | step hc hcap hnext rest => exact Option.some.inj (hc.symm.trans hd) ▸ hcap

theorem Path.capacity_last (hp : Path h a b) (hd : h.cell b = some d) :
    d.body.capacity = bufferSize := by
  induction hp with
  | last hc hcap => exact Option.some.inj (hc.symm.trans hd) ▸ hcap
  | step hc hcap hnext rest ih => exact ih hd

theorem Path.next (hp : Path h a b) (hd : h.cell a = some d) (hn : d.next = some n) (hlt : a < b) :
    Path h n b := by
  cases hp with
  | last hc hcap => exact absurd rfl hlt.ne
  | step hc hcap hnext rest =>
    obtain rfl := Option.some.inj (hc.symm.trans hd)
    obtain rfl := Option.some.inj (hnext.symm.trans hn)
    exact rest

theorem Path.snoc (hp : Path h a b) (hd : h.cell b = some d) (hn : d.next = some n)
    (he : h.cell n = some e) (hcap : e.body.capacity = bufferSize) : Path h a n := by
  induction hp with
  | last hc hcap' =>
    obtain rfl := Option.some.inj (hc.symm.trans hd)
    exact .step hc hcap' hn (.last he hcap)
  | step hc hcap' hnext rest ih => exact .step hc hcap' hnext (ih hd)

theorem Path.grow (hp : Path h a b) (G : GrowsFrom h h' a) : Path h' a b := by
  induction hp with
  | last hc hcap =>
    obtain ⟨c', hc', hg⟩ := G _ _ (.refl _) hc
    exact .last hc' (hg.capacity.trans hcap)
  | step hc hcap hnext rest ih =>
    obtain ⟨c', hc', hg⟩ := G _ _ (.refl _) hc
    exact .step hc' (hg.capacity.trans hcap) (hg.next _ hnext) (ih (G.next hc hnext))

/-- The buffer that is being filled, up to `rpos`. At most one empty buffer comes after it. -/
def Filling (h : Heap) (b rpos : ℕ) : Prop :=
  ∃ d, h.cell b = some d ∧ d.body.size = rpos ∧ (d.next = none ∨
    ∃ n e, d.next = some n ∧ h.cell n = some e ∧ e.next = none ∧ e.body.size = 0 ∧
      e.body.capacity = bufferSize)

/-- The bytes received and not unpacked yet are at the places `ps`. -/
structure Chain (h : Heap) (a upos : ℕ) (ps : List (ℕ × ℕ)) (b rpos : ℕ) : Prop where
  span : Span h a upos ps b rpos
  path : Path h a b
  start : upos < bufferSize
  room : rpos < bufferSize
  filling : Filling h b rpos

/-- What leaves the links, the sizes and the bytes stored leaves the chain. -/
theorem Chain.stay (C : Chain h a upos ps b rpos) (T : StaysFrom h h' a) (S' : Sound h' own') :
    Chain h' a upos ps b rpos ∧ ∀ p ∈ ps, byteAt h' p = byteAt h p := by
  obtain ⟨hs, hbytes⟩ := C.span.grow T.growsFrom S'
  refine ⟨⟨hs, C.path.grow T.growsFrom, C.start, C.room, ?_⟩, hbytes⟩
  obtain ⟨d, hd, hsize, hnext⟩ := C.filling
  obtain ⟨d', hd', hn, hs', -⟩ := T b d C.span.reach hd
  refine ⟨d', hd', hs'.trans hsize, ?_⟩
  rcases hnext with hnext | ⟨n, e, hnext, he, hen, hes, hec⟩
  · exact .inl (hn.trans hnext)
  · obtain ⟨e', he', hn', hs'', hg⟩ := T n e (C.span.reach.next hd hnext) he
    exact .inr ⟨n, e', hn.trans hnext, he', hn'.trans hen, hs''.trans hes, hg.capacity.trans hec⟩

/-- What leaves the chain as it is leaves the bytes where they are. -/
theorem Chain.keep (C : Chain h a upos ps b rpos) (K : KeepsFrom h h' a) (S' : Sound h' own') :
    Chain h' a upos ps b rpos ∧ ∀ p ∈ ps, byteAt h' p = byteAt h p :=
  C.stay (.of_keepsFrom K) S'

/-- The first byte is at the unpacking cursor. -/
theorem Chain.first (C : Chain h a upos ps b rpos) (hps : ps ≠ []) :
    ∃ d, h.cell a = some d ∧ upos < d.body.size := by
  obtain ⟨d, hd, hpos⟩ := C.span.start
  refine ⟨d, hd, ?_⟩
  by_contra hge
  have hcap := C.path.capacity hd
  have hstart := C.start
  have hlen := List.length_pos_iff.mpr hps
  cases C.span with
  | here hc hn =>
    obtain rfl := Option.some.inj (hc.symm.trans hd)
    rw [length_places] at hlen
    omega
  | cross hc hpos' hfull hnext rest =>
    obtain rfl := Option.some.inj (hc.symm.trans hd)
    omega

theorem Chain.head (C : Chain h a upos ps b rpos) (hps : ps ≠ []) : ps[0]? = some (a, upos) := by
  obtain ⟨d, hd, hlt⟩ := C.first hps
  have hlen := List.length_pos_iff.mpr hps
  obtain ⟨hcut, -⟩ := C.span.advance hd (show 1 ≤ ps.length by omega) rfl
  rw [hcut, show min (d.body.size - upos) 1 = 1 by omega]
  rfl

/-! ## Moving the unpacking cursor -/

/-- **One step of the unpacking cursor** inside a buffer, or to the start of the next one. -/
theorem nextUnpackBuf_spec (S : Sound h (refs c.unpackBuf + own)) (hbuf : c.unpackBuf = some a)
    (C : Chain h a upos ps b rpos) (hd : h.cell a = some d) (hm : m ≤ ps.length)
    (hk : k = min (d.body.size - upos) m) (hpos : c.unpackPos = upos + k) :
    ∃ h' a' upos', nextUnpackBuf h c d = .ok (h', { c with unpackPos := upos', unpackBuf := some a' }) ∧
      Sound h' (refs (some a') + own) ∧ Chain h' a' upos' (ps.drop k) b rpos ∧ Keeps h h' ∧
      upos' = (upos + k) % bufferSize ∧ ∀ p ∈ ps.drop k, byteAt h' p = byteAt h p := by
  obtain ⟨hcut, hs, hnext⟩ := C.span.advance hd hm hk
  have hcap := C.path.capacity hd
  have hsize := (S.wf a d hd).size_le
  have hupos := C.span.start
  obtain ⟨d', hd', hle⟩ := hupos
  obtain rfl := Option.some.inj (hd'.symm.trans hd)
  rw [nextUnpackBuf, hpos, hcap]
  by_cases hend : upos + k ≥ bufferSize
  · rw [if_pos hend]
    rcases hnext with hlt | ⟨-, rfl, hrpos⟩ | ⟨hfull, n, hn, hs'⟩
    · omega
    · have := C.room
      omega
    · obtain ⟨hup, hlive⟩ := S.next_live hd hn
      obtain ⟨h', hacq, S', K⟩ := bufferAcquire_spec S (p := some n)
        (fun x hx => Option.some.inj hx ▸ hlive)
      have hlive' := S'.live (show n ∈ refs (some n) + own by simp)
      have hpath : Path h n b := C.path.next hd hn (hup.trans_le (S.le_of_reach hs'.reach))
      have C₁ : Chain h n 0 (ps.drop k) b rpos := ⟨hs', hpath, Nat.zero_lt_succ _, C.room, C.filling⟩
      obtain ⟨C', hbytes⟩ := C₁.keep (K.from S'.toExact hlive') S'
      refine ⟨h', n, 0, ?_, S', C', K, ?_, hbytes⟩
      · rw [hn]
        simp only [hacq, Exec.ok_bind]
        rfl
      · rw [show upos + k = bufferSize by omega, Nat.mod_self]
  · rw [if_neg hend]
    refine ⟨h, a, upos + k, ?_, hbuf ▸ S, ⟨hs, C.path, by omega, C.room, C.filling⟩, .refl h,
      (Nat.mod_eq_of_lt (by omega)).symm, fun p _ => rfl⟩
    rw [← hpos, ← hbuf]

/-- **Moving past a packet** of `total` bytes that are all there. -/
theorem skipLoop_spec {fuel total : ℕ} (S : Sound h (refs c.unpackBuf + own))
    (hbuf : c.unpackBuf = some a) (C : Chain h a c.unpackPos ps b rpos) (htotal : total ≤ ps.length)
    (hsize : total ≤ c.unpackSize) (hlt : c.unpackSize < 0x100000000) (hfuel : total < fuel) :
    ∃ h' a' upos', skipLoop fuel h c total = .ok (h', { c with
        unpackPos := upos', unpackBuf := some a', unpackSize := c.unpackSize - total }) ∧
      Sound h' (refs (some a') + own) ∧ Chain h' a' upos' (ps.drop total) b rpos ∧ Keeps h h' ∧
      upos' = (c.unpackPos + total) % bufferSize ∧ ∀ p ∈ ps.drop total, byteAt h' p = byteAt h p := by
  induction fuel generalizing h c a ps total with
  | zero => omega
  | succ fuel ih =>
    rw [skipLoop]
    by_cases hzero : total = 0
    · subst hzero
      refine ⟨h, a, c.unpackPos, ?_, hbuf ▸ S, C, .refl h, ?_, fun p _ => rfl⟩
      · rw [if_pos rfl, ← hbuf]
        rfl
      · exact (Nat.mod_eq_of_lt C.start).symm
    · have hps : ps ≠ [] := by
        rintro rfl
        rw [List.length_nil] at htotal
        omega
      obtain ⟨d, hd, hfirst⟩ := C.first hps
      have hcap := C.path.capacity hd
      have hd_size := (S.wf a d hd).size_le
      have hstart := C.start
      have hbs : bufferSize = 65536 := rfl
      obtain ⟨k, hk⟩ : ∃ k, k = min (d.body.size - c.unpackPos) total := ⟨_, rfl⟩
      have hround : consume c k =
          { c with unpackPos := c.unpackPos + k, unpackSize := c.unpackSize - k } := by
        rw [consume, add32_of_lt (by omega), sub32_of_le (by omega) hlt]
      have S₁ : Sound h (refs (consume c k).unpackBuf + own) := S
      obtain ⟨h₁, a₁, upos₁, hmove, S₁, C₁, K₁, hupos₁, hbytes₁⟩ :=
        nextUnpackBuf_spec S₁ hbuf C hd htotal hk (by rw [hround])
      obtain ⟨h', a', upos', hloop, S', C', K', hupos', hbytes'⟩ :=
        ih (c := { consume c k with unpackPos := upos₁, unpackBuf := some a₁ }) S₁ rfl C₁
          (show total - k ≤ (ps.drop k).length by rw [List.length_drop]; omega)
          (by rw [hround]; change _ ≤ c.unpackSize - k; omega)
          (by rw [hround]; change c.unpackSize - k < _; omega) (by omega)
      have hdrop : (ps.drop k).drop (total - k) = ps.drop total := by
        rw [List.drop_drop, Nat.add_sub_cancel' (by omega)]
      rw [hdrop] at C' hbytes'
      refine ⟨h', a', upos', ?_, S', C', K₁.trans K', ?_, fun p hp => ?_⟩
      · rw [if_neg hzero, hbuf]
        simp only [Exec.deref_some, Exec.ok_bind, get_eq hd,
          sub32_of_le hfirst.le (show d.body.size < 0x100000000 by omega), ← hk, hmove]
        rw [hloop, hround]
        simp only [Except.ok.injEq, Prod.mk.injEq, true_and]
        rw [Nat.sub_sub, Nat.add_sub_cancel' (by omega)]
      · rw [hupos']
        change (upos₁ + (total - k)) % bufferSize = _
        rw [hupos₁, Nat.mod_add_mod, Nat.add_assoc, Nat.add_sub_cancel' (by omega)]
      · rw [hbytes' p hp]
        refine hbytes₁ p ?_
        rw [← hdrop] at hp
        exact List.mem_of_mem_drop hp

/-! ## Unpacking -/

variable {process : Callback σ RPacket} {s s' : Receiver σ} {D : ℕ}

/-- A connection has unpacked `D` bytes; `bs` are the bytes received after these, at the places `ps`.
The references `own` are held by others. -/
structure Buffered (process : Callback σ RPacket) (s : Receiver σ) (own : Multiset ℕ) (D : ℕ)
    (ps : List (ℕ × ℕ)) (bs : List UInt8) : Prop where
  sound : Sound s.heap (s.conn.recvOwned + (process.owned s.app + own))
  chain : ∃ a b, s.conn.unpackBuf = some a ∧ s.conn.nextRecvBuf = some b ∧
    Chain s.heap a s.conn.unpackPos ps b s.conn.nextRecvPos
  bytes : Bytes s.heap ps bs
  size : s.conn.unpackSize = bs.length % 0x100000000
  pos : s.conn.unpackPos = D % bufferSize
  arrived : ∃ pre, pre.length = D ∧ s.arrived = pre ++ ps

/-- A connection that is not raw has unpacked `D` bytes; `bs` are the bytes received after these, at
the places `ps`. The references `own` are held by others. -/
structure Receiving (process : Callback σ RPacket) (s : Receiver σ) (own : Multiset ℕ) (D : ℕ)
    (ps : List (ℕ × ℕ)) (bs : List UInt8) : Prop where
  raw : s.conn.raw = false
  sound : Sound s.heap (s.conn.recvOwned + (process.owned s.app + own))
  chain : ∃ a b, s.conn.unpackBuf = some a ∧ s.conn.nextRecvBuf = some b ∧
    Chain s.heap a s.conn.unpackPos ps b s.conn.nextRecvPos
  bytes : Bytes s.heap ps bs
  size : s.conn.unpackSize = bs.length % 0x100000000
  pos : s.conn.unpackPos = D % bufferSize
  arrived : ∃ pre, pre.length = D ∧ s.arrived = pre ++ ps

theorem Receiving.buffered (R : Receiving process s own D ps bs) : Buffered process s own D ps bs :=
  ⟨R.sound, R.chain, R.bytes, R.size, R.pos, R.arrived⟩

theorem Buffered.receiving (R : Buffered process s own D ps bs) (hraw : s.conn.raw = false) :
    Receiving process s own D ps bs :=
  ⟨hraw, R.sound, R.chain, R.bytes, R.size, R.pos, R.arrived⟩

/-- What the application does leaves the bytes received. -/
theorem Buffered.stay {app : σ} (R : Buffered process s own D ps bs)
    (T : ∀ a, s.conn.unpackBuf = some a → StaysFrom s.heap h' a)
    (S' : Sound h' (s.conn.recvOwned + (process.owned app + own'))) :
    Buffered process { s with heap := h', app := app } own' D ps bs := by
  obtain ⟨a, b, hbuf, hnext, C⟩ := R.chain
  obtain ⟨C', hbytes⟩ := C.stay (T a hbuf) S'
  exact ⟨S', ⟨a, b, hbuf, hnext, C'⟩, R.bytes.congr hbytes, R.size, R.pos, R.arrived⟩

/-- A packet handed to `_process_packet`, with the memory at that moment: it starts at the place of
the byte number `D` of the stream, and `frame` are the bytes that have been unpacked for it. -/
structure Delivered (arrived : List (ℕ × ℕ)) (D len : ℕ) (frame : List UInt8) (x : Heap × RPacket) :
    Prop where
  packet : ∃ a, x.2 = ⟨len, add32 (D % bufferSize) lenSize, len, 0, D % bufferSize, none, some a, some a,
      false⟩ ∧ arrived[D]? = some (a, D % bufferSize) ∧
    (∃ d, x.1.cell a = some d ∧ d.body.capacity = bufferSize) ∧
    ∃ ps a' pos', Span x.1 a (D % bufferSize) ps a' pos' ∧ Bytes x.1 ps frame
  sound : ∃ own, Sound x.1 (x.2.owned + own)

/-- What handing a packet over comes to: the packet starts at the cursor, with the bytes `frame`
unpacked for it, and the cursor is moved past these. -/
structure HandedOver (process : Callback σ RPacket) (s s' : Receiver σ) (D len : ℕ) (isRaw : Bool)
    (frame : List UInt8) (x : Heap × RPacket) : Prop where
  packet : ∃ a, x.2 = ⟨len, if isRaw then D % bufferSize else add32 (D % bufferSize) lenSize, len, 0,
      D % bufferSize, none, some a, some a, isRaw⟩ ∧ s.conn.unpackBuf = some a ∧
    (∃ d, x.1.cell a = some d ∧ d.body.capacity = bufferSize) ∧
    ∃ ps a' pos', Span x.1 a (D % bufferSize) ps a' pos' ∧ Bytes x.1 ps frame
  sound : ∃ own, Sound x.1 (x.2.owned + own)
  keeps : Keeps s.heap x.1
  call : process.call s.app x.1 x.2 = .ok (s'.app, s'.heap)
  handed : s'.handed = s.handed ++ [x]
  arrived : s'.arrived = s.arrived
  conn : ∃ a' upos', s'.conn = { s.conn with
    unpackPos := upos', unpackBuf := some a', unpackSize := sub32 s.conn.unpackSize frame.length }

/-- **Handing a packet over**: it is created at the cursor, the cursor moved by `move`, and
`_process_packet` called. -/
theorem Buffered.deliver (move : Heap → Exec (Heap × Connection)) (len : ℕ) (isRaw : Bool)
    (hp : process.Respects RPacket.owned) (R : Buffered process s own D ps bs)
    (hbuf : s.conn.unpackBuf = some a) (hnext : s.conn.nextRecvBuf = some b)
    (C : Chain s.heap a s.conn.unpackPos ps b s.conn.nextRecvPos) (hk : k ≤ bs.length)
    (hk32 : k < 0x100000000)
    (hmove : ∀ h₁ own₁, Sound h₁ (refs s.conn.unpackBuf + own₁) → Keeps s.heap h₁ →
      Chain h₁ a s.conn.unpackPos ps b s.conn.nextRecvPos →
      ∃ h' a' upos', move h₁ = .ok (h', { s.conn with
          unpackPos := upos', unpackBuf := some a', unpackSize := sub32 s.conn.unpackSize k }) ∧
        Sound h' (refs (some a') + own₁) ∧ Chain h' a' upos' (ps.drop k) b s.conn.nextRecvPos ∧
        Keeps h₁ h' ∧ upos' = (s.conn.unpackPos + k) % bufferSize ∧
        ∀ p ∈ ps.drop k, byteAt h' p = byteAt h₁ p) :
    ∃ s' x, (do
        let (h, r) ← rpacketCreate s.heap s.conn.unpackBuf s.conn.unpackPos len isRaw
        let (h, c) ← move h
        return some (← handOver process s h c r, len)) = .ok (some (s', len)) ∧
      Buffered process s' own (D + k) (ps.drop k) (bs.drop k) ∧
      HandedOver process s s' D len isRaw (bs.take k) x := by
  have hps := R.bytes.length
  have hsize := R.size
  obtain ⟨d, hd, -⟩ := C.span.start
  obtain ⟨h₁, r, hcreate, S₁, K₁, hr⟩ := rpacketCreate_spec R.sound hd s.conn.unpackPos len isRaw
  have ha₁ : ∃ c, h₁.cell a = some c := S₁.live (by rw [hr, RPacket.owned]; simp)
  obtain ⟨C₁, hbytes₁⟩ := C.keep (K₁.from S₁.toExact ha₁) S₁
  have S₁' : Sound h₁ (refs s.conn.unpackBuf +
      (r.owned + (refs s.conn.nextRecvBuf + (process.owned s.app + own)))) := by
    convert S₁ using 1
    rw [recvOwned]
    abel
  obtain ⟨h₂, a₂, upos₂, hskip, S₂, C₂, K₂, hupos₂, hbytes₂⟩ := hmove h₁ _ S₁' K₁ C₁
  set c₂ : Connection := { s.conn with
    unpackPos := upos₂, unpackBuf := some a₂, unpackSize := sub32 s.conn.unpackSize k } with hc₂
  have S₂' : Sound h₂ (r.owned + (process.owned s.app + (c₂.recvOwned + own))) := by
    convert S₂ using 1
    rw [recvOwned]
    abel
  obtain ⟨app₃, h₃, hcall, S₃, K₃⟩ := hp s.app h₂ r (c₂.recvOwned + own) S₂'
  obtain ⟨C₃, hbytes₃⟩ := C₂.keep (K₃ a₂ (by rw [recvOwned, hc₂]; simp)) S₃
  have ha₂ : ∃ c, h₂.cell a = some c := S₂'.live (by rw [hr, RPacket.owned]; simp)
  obtain ⟨Ca, hbytesa⟩ := C.keep ((K₁.trans K₂).from S₂.toExact ha₂) S₂
  obtain ⟨pre, hpre, harr⟩ := R.arrived
  have hframe : (bs.take k).length = k := List.length_take_of_le hk
  refine ⟨⟨h₃, c₂, app₃, s.arrived, s.handed ++ [(h₂, r)]⟩, (h₂, r), ?_, ?_,
    ⟨⟨a, ?_, hbuf, ?_, ?_⟩, ⟨_, S₂'⟩, K₁.trans K₂, hcall, rfl, rfl, ⟨a₂, upos₂, ?_⟩⟩⟩
  · rw [hbuf, hcreate, Exec.ok_bind]
    simp only [hskip, Exec.ok_bind, handOver, hcall]
    rfl
  · refine ⟨?_, ⟨a₂, b, rfl, hnext, C₃⟩, ?_, ?_, ?_, ?_⟩
    · convert S₃ using 1
      abel
    · refine (R.bytes.drop k).congr fun p hp => ?_
      rw [hbytes₃ p hp, hbytes₂ p hp, hbytes₁ p (List.mem_of_mem_drop hp)]
    · change sub32 s.conn.unpackSize k = _
      rw [hsize, List.length_drop, sub32]
      omega
    · change upos₂ = _
      rw [hupos₂, R.pos, Nat.mod_add_mod]
    · refine ⟨pre ++ ps.take k, ?_, ?_⟩
      · rw [List.length_append, List.length_take, hpre]
        omega
      · rw [List.append_assoc, List.take_append_drop, harr]
  · rw [← R.pos]
    exact hr
  · obtain ⟨e, he⟩ := ha₂
    exact ⟨e, he, Ca.path.capacity he⟩
  · obtain ⟨a', pos', hspan, -⟩ := Ca.span.split (k := k) (by omega)
    rw [R.pos] at hspan
    exact ⟨_, a', pos', hspan, (R.bytes.congr hbytesa).take k⟩
  · rw [hframe]

/-- **A round of `unpack`** reads the length at the cursor. If all bytes of the packet are there, it
is handed over and the cursor moved past it. -/
theorem Buffered.round (hp : process.Respects RPacket.owned) (R : Buffered process s own D ps bs)
    (pkLen : ℕ) (hmore : lenSize < s.conn.unpackSize) {len total : ℕ}
    (hlen : len = ofBytes (bs.take lenSize)) (htotal : total = add32 len lenSize) :
    (s.conn.unpackSize < total ∧ unpackRound process pkLen s = .ok none) ∨
      total ≤ s.conn.unpackSize ∧ ∃ s' x, unpackRound process pkLen s = .ok (some (s', len)) ∧
        Buffered process s' own (D + total) (ps.drop total) (bs.drop total) ∧
        HandedOver process s s' D len false (bs.take total) x := by
  obtain ⟨a, b, hbuf, hnext, C⟩ := R.chain
  have hsize := R.size
  have hps := R.bytes.length
  have hlt : s.conn.unpackSize < 0x100000000 := by omega
  have hbound : s.conn.unpackSize ≤ bs.length := by
    rw [hsize]
    exact Nat.mod_le _ _
  have hread := bufferRead_spec R.sound C.span R.bytes (m := lenSize) (by omega)
  have hout : (bs.take lenSize).length = lenSize := by
    rw [List.length_take]
    omega
  have hround : unpackRound process pkLen s = (if total > s.conn.unpackSize then .ok none
      else do
        let (h, r) ← rpacketCreate s.heap s.conn.unpackBuf s.conn.unpackPos len false
        let (h, c) ← skipLoop (total + 1) h s.conn total
        return some (← handOver process s h c r, len)) := by
    rw [unpackRound, if_neg (by omega), hbuf, hread, Exec.ok_bind]
    simp only [hout]
    rw [List.drop_of_length_le (by simp), List.append_nil, ← hlen, ← htotal]
    rfl
  rw [hround]
  by_cases hfit : total > s.conn.unpackSize
  · exact .inl ⟨hfit, if_pos hfit⟩
  · refine .inr ⟨by omega, ?_⟩
    rw [if_neg hfit]
    refine R.deliver (k := total) (fun h => skipLoop (total + 1) h s.conn total) len false hp hbuf hnext
      C (by omega) (by omega) fun h₁ own₁ S₁ _ C₁ => ?_
    have hskip := skipLoop_spec S₁ hbuf C₁ (show total ≤ ps.length by omega)
      (show total ≤ s.conn.unpackSize by omega) hlt (Nat.lt_succ_self total)
    rwa [← sub32_of_le (show total ≤ s.conn.unpackSize by omega) hlt] at hskip

/-- The bytes up to the end of the buffer of the cursor have been received. -/
theorem Chain.rest_le (C : Chain h a upos ps b rpos) (hd : h.cell a = some d) :
    d.body.size - upos ≤ ps.length := by
  cases C.span with
  | here hc hn =>
    obtain ⟨e, he, hsize, -⟩ := C.filling
    obtain rfl := Option.some.inj (he.symm.trans hd)
    rw [length_places]
    omega
  | cross hc hpos hfull hnext rest =>
    obtain rfl := Option.some.inj (hc.symm.trans hd)
    rw [List.length_append, length_places]
    exact Nat.le_add_right ..

/-- **A round of `unpack` on a raw connection** hands over what is in the buffer of the cursor. -/
theorem Buffered.roundRaw (hp : process.Respects RPacket.owned) (R : Buffered process s own D ps bs) :
    (bs = [] ∧ unpackRoundRaw process s = .ok none) ∨
      ∃ len s' x, 0 < len ∧ len ≤ bs.length ∧ len ≤ bufferSize ∧
        unpackRoundRaw process s = .ok (some (s', len)) ∧
        Buffered process s' own (D + len) (ps.drop len) (bs.drop len) ∧
        HandedOver process s s' D len true (bs.take len) x ∧
        ∃ a d, x.2.buf = some a ∧ x.1.cell a = some d ∧ D % bufferSize + len ≤ d.body.size := by
  obtain ⟨a, b, hbuf, hnext, C⟩ := R.chain
  obtain ⟨d, hd, hpos⟩ := C.span.start
  have hps := R.bytes.length
  have hcap := C.path.capacity hd
  have hwf := (R.sound.wf a d hd).size_le
  have hbs : bufferSize = 65536 := rfl
  have hrest := C.rest_le hd
  obtain ⟨len, hlen⟩ : ∃ len, len = d.body.size - s.conn.unpackPos := ⟨_, rfl⟩
  have hsub : sub32 d.body.size s.conn.unpackPos = len := by rw [sub32_of_le hpos (by omega), hlen]
  rw [unpackRoundRaw, hbuf, Exec.deref_some, Exec.ok_bind, get_eq hd, Exec.ok_bind, hsub]
  by_cases hzero : len = 0
  · refine .inl ⟨?_, if_pos hzero⟩
    by_contra hne
    obtain ⟨e, he, hlt⟩ := C.first (List.ne_nil_of_length_pos (by
      rw [hps]
      exact List.length_pos_iff.mpr hne))
    obtain rfl := Option.some.inj (he.symm.trans hd)
    omega
  · obtain ⟨s', x, hround, R', H⟩ := R.deliver (k := len)
      (fun h => nextUnpackBuf h (consume s.conn len) d) len true hp hbuf hnext C (by omega) (by omega)
      fun h₁ own₁ S₁ K₁ C₁ => by
        obtain ⟨d₁, hd₁, -⟩ := C₁.span.start
        obtain ⟨e, he, hn, hb⟩ := K₁.cell a d₁ hd₁
        obtain rfl := Option.some.inj (he.symm.trans hd)
        have hsame : nextUnpackBuf h₁ (consume s.conn len) e =
            nextUnpackBuf h₁ (consume s.conn len) d₁ := by
          rw [nextUnpackBuf, nextUnpackBuf, hn, hb]
        have hround : consume s.conn len = { s.conn with
            unpackPos := s.conn.unpackPos + len, unpackSize := sub32 s.conn.unpackSize len } := by
          rw [consume, add32_of_lt (by omega)]
        obtain ⟨h', a', upos', hmove, S', C', K', hupos', hbytes'⟩ :=
          nextUnpackBuf_spec (c := consume s.conn len) (m := len) (k := len) S₁ hbuf C₁ hd₁ (by omega)
            (by rw [hb]; omega) (by rw [hround])
        refine ⟨h', a', upos', ?_, S', C', K', hupos', hbytes'⟩
        rw [hsame, hmove, hround]
    refine .inr ⟨len, s', x, by omega, by omega, by omega, ?_, R', H, ?_⟩
    · rw [if_neg hzero, ← hround, hbuf]
    · obtain ⟨a', hx, hbuf', ⟨e, he, -⟩, -⟩ := H.packet
      obtain rfl := Option.some.inj (hbuf.symm.trans hbuf')
      obtain ⟨d', hd', -, hbody⟩ := H.keeps.cell a e he
      obtain rfl := Option.some.inj (hd'.symm.trans hd)
      refine ⟨a, e, by rw [hx], he, ?_⟩
      rw [hbody, ← R.pos]
      omega

/-- A round on a connection that is not raw. -/
theorem unpackRound_spec (hp : process.Respects RPacket.owned) (R : Receiving process s own D ps bs)
    (pkLen : ℕ) (hmore : lenSize < s.conn.unpackSize) {len total : ℕ}
    (hlen : len = ofBytes (bs.take lenSize)) (htotal : total = add32 len lenSize) :
    (s.conn.unpackSize < total ∧ unpackRound process pkLen s = .ok none) ∨
      total ≤ s.conn.unpackSize ∧ ∃ s' x, unpackRound process pkLen s = .ok (some (s', len)) ∧
        Receiving process s' own (D + total) (ps.drop total) (bs.drop total) ∧
        s'.handed = s.handed ++ [x] ∧ s'.arrived = s.arrived ∧
        Delivered s.arrived D len (bs.take total) x ∧
        s'.conn.unpackSize = s.conn.unpackSize - total := by
  have hsize := R.size
  refine (R.buffered.round hp pkLen hmore hlen htotal).imp_right ?_
  rintro ⟨hle, s', x, hround, R', H⟩
  obtain ⟨a, b, hbuf, -, C⟩ := R.chain
  obtain ⟨pre, hpre, harr⟩ := R.arrived
  obtain ⟨a', upos', hconn⟩ := H.conn
  obtain ⟨a'', hr, hbuf', hcell, hspan⟩ := H.packet
  obtain rfl := Option.some.inj (hbuf.symm.trans hbuf')
  have hps := R.bytes.length
  refine ⟨hle, s', x, hround, R'.receiving (by rw [hconn]; exact R.raw), H.handed, H.arrived,
    ⟨⟨a, hr, ?_, hcell, hspan⟩, H.sound⟩, ?_⟩
  · rw [harr, List.getElem?_append_right hpre.le, hpre, Nat.sub_self, ← R.pos]
    exact C.head (List.ne_nil_of_length_pos (by omega))
  · rw [hconn]
    change sub32 s.conn.unpackSize (bs.take total).length = _
    rw [List.length_take_of_le (by omega), sub32_of_le hle (by omega)]

/-! ## A read -/

/-- The places of the memory offered to a read. -/
def offeredPlaces (vs : List Iovec) : List (ℕ × ℕ) :=
  vs.flatMap fun v => places v.base.1 v.base.2 v.len

theorem offeredPlaces_one : offeredPlaces [⟨(a, pos), n⟩] = places a pos n := by
  simp [offeredPlaces]

theorem offeredPlaces_two : offeredPlaces [⟨(a, pos), n⟩, ⟨(b, rpos), m⟩] =
    places a pos n ++ places b rpos m := by
  simp [offeredPlaces]

/-- Buffers keep their links, their capacities and their sizes. -/
def Shape (h h' : Heap) : Prop :=
  ∀ x e, h.cell x = some e → ∃ e', h'.cell x = some e' ∧ e'.next = e.next ∧
    e'.body.capacity = e.body.capacity ∧ e'.body.size = e.body.size

theorem Shape.refl (h : Heap) : Shape h h := fun _ e he => ⟨e, he, rfl, rfl, rfl⟩

theorem Shape.trans {h₁ h₂ : Heap} (X₁ : Shape h h₁) (X₂ : Shape h₁ h₂) : Shape h h₂ := by
  intro x e he
  obtain ⟨e₁, he₁, hn₁, hc₁, hs₁⟩ := X₁ x e he
  obtain ⟨e₂, he₂, hn₂, hc₂, hs₂⟩ := X₂ x e₁ he₁
  exact ⟨e₂, he₂, hn₂.trans hn₁, hc₂.trans hc₁, hs₂.trans hs₁⟩

theorem Shape.put (hd : h.cell a = some d) (buf : List UInt8) :
    Shape h (h.put a { d with body := { d.body with buf := buf } }) := by
  intro x e he
  by_cases hx : x = a
  · subst hx
    obtain rfl := Option.some.inj (he.symm.trans hd)
    exact ⟨_, put_self, rfl, rfl, rfl⟩
  · exact ⟨e, by rw [put_of_ne hx, he], rfl, rfl, rfl⟩

theorem Shape.of_put (hd : h.cell a = some d) (buf : List UInt8) :
    Shape (h.put a { d with body := { d.body with buf := buf } }) h := by
  intro x e he
  by_cases hx : x = a
  · subst hx
    rw [put_self, Option.some.injEq] at he
    exact ⟨d, hd, by rw [← he], by rw [← he], by rw [← he]⟩
  · exact ⟨e, by rwa [put_of_ne hx] at he, rfl, rfl, rfl⟩

/-- **What a read does** to memory that is not in use. -/
theorem scatter_spec {vs : List Iovec} (S : Sound h own) (hnodup : (offeredPlaces vs).Nodup)
    (hvs : ∀ v ∈ vs, ∃ e, h.cell v.base.1 = some e ∧ v.base.2 + v.len ≤ e.body.capacity)
    (hlen : bs.length ≤ (offeredPlaces vs).length) :
    ∃ h', scatter h vs bs = .ok h' ∧ Sound h' own ∧ Shape h h' ∧ Shape h' h ∧
      (∀ p ∉ offeredPlaces vs, byteAt h' p = byteAt h p) ∧
      Bytes h' ((offeredPlaces vs).take bs.length) bs := by
  induction vs generalizing h bs with
  | nil =>
    obtain rfl : bs = [] := List.eq_nil_of_length_eq_zero (by simpa [offeredPlaces] using hlen)
    exact ⟨h, rfl, S, .refl h, .refl h, fun _ _ => rfl, rfl⟩
  | cons v vs ih =>
    by_cases hbs : bs = []
    · subst hbs
      exact ⟨h, rfl, S, .refl h, .refl h, fun _ _ => rfl, rfl⟩
    have hsplit : offeredPlaces (v :: vs) = places v.base.1 v.base.2 v.len ++ offeredPlaces vs := rfl
    rw [hsplit] at hnodup hlen ⊢
    rw [List.length_append, length_places] at hlen
    obtain ⟨-, hnodup', hdisj⟩ := List.nodup_append.mp hnodup
    obtain ⟨e, he, hcap⟩ := hvs v List.mem_cons_self
    have htake : (bs.take v.len).length = min v.len bs.length := List.length_take
    obtain ⟨h₁, buf, hstore, S₁, hput, hother, hbytes⟩ := storeAt_spec S he
      (show v.base.2 + (bs.take v.len).length ≤ _ by omega)
    have hshape : Shape h h₁ := hput ▸ Shape.put he buf
    have hback : Shape h₁ h := hput ▸ Shape.of_put he buf
    obtain ⟨h', hrec, S', hshape', hback', hother', hbytes'⟩ := ih S₁ hnodup' (by
        intro w hw
        obtain ⟨e, he, hcap⟩ := hvs w (List.mem_cons_of_mem _ hw)
        obtain ⟨e', he', -, hcap', -⟩ := hshape _ e he
        exact ⟨e', he', by omega⟩)
      (show (bs.drop v.len).length ≤ _ by rw [List.length_drop]; omega)
    have hsub : ∀ p ∈ places v.base.1 v.base.2 (bs.take v.len).length,
        p ∈ places v.base.1 v.base.2 v.len := by
      intro p hp
      rw [mem_places] at hp ⊢
      omega
    refine ⟨h', ?_, S', hshape.trans hshape', hback'.trans hback, fun p hp => ?_, ?_⟩
    · obtain ⟨y, ys, rfl⟩ := List.exists_cons_of_ne_nil hbs
      change (storeAt h v.base ((y :: ys).take v.len) >>= fun h =>
        scatter h vs ((y :: ys).drop v.len)) = _
      rw [hstore, Exec.ok_bind, hrec]
    · rw [List.mem_append, not_or] at hp
      rw [hother' p hp.2, hother p fun hm => hp.1 (hsub p hm)]
    · have hcut : (places v.base.1 v.base.2 v.len ++ offeredPlaces vs).take bs.length =
          places v.base.1 v.base.2 (bs.take v.len).length ++
            (offeredPlaces vs).take (bs.drop v.len).length := by
        rw [List.take_append, length_places, List.length_drop, htake]
        congr 1
        rcases Nat.le_total v.len bs.length with hle | hle
        · rw [List.take_of_length_le (by simpa using hle), Nat.min_eq_left hle]
        · rw [places_take hle, Nat.min_eq_right hle]
      rw [hcut]
      have hfirst := hbytes.congr fun p hp => hother' p fun hm => hdisj p (hsub p hp) p hm rfl
      have := hfirst.append hbytes'
      rwa [List.take_append_drop] at this

/-- Buffers keep their bodies and their links; there may be new links and new buffers. -/
def Extends (h h' : Heap) : Prop :=
  ∀ x e, h.cell x = some e → ∃ e', h'.cell x = some e' ∧ (∀ n, e.next = some n → e'.next = some n) ∧
    e'.body = e.body

theorem Extends.growsFrom (X : Extends h h') : GrowsFrom h h' a := by
  intro x e _ he
  obtain ⟨e', he', hn, hb⟩ := X x e he
  exact ⟨e', he', hn, by rw [hb], by rw [hb], fun p _ => by rw [hb]⟩

theorem Extends.byteAt_eq (X : Extends h h') {p : ℕ × ℕ} (he : h.cell p.1 = some e) :
    byteAt h' p = byteAt h p := by
  obtain ⟨e', he', -, hb⟩ := X p.1 e he
  rw [byteAt, byteAt, he, he', Option.bind_some, Option.bind_some, hb]

theorem Keeps.byteAt_eq (K : Keeps h h') {p : ℕ × ℕ} (he : h'.cell p.1 = some e) :
    byteAt h' p = byteAt h p := by
  obtain ⟨e', he', -, hb⟩ := K.cell p.1 e he
  rw [byteAt, byteAt, he, he', Option.bind_some, Option.bind_some, hb]

/-- An empty buffer at the end of the chain. -/
def Fresh (e : Cell Block) : Prop :=
  e.next = none ∧ e.body.size = 0 ∧ e.body.capacity = bufferSize

/-- **A new buffer** is linked to the last one of a chain. -/
theorem linkNew_spec (S : Sound h own) (hd : h.cell b = some d) (hnone : d.next = none)
    (hn : headerSize + n < 0x100000000) :
    ∃ h₁ h', bufferCreateAndAcquire h n = .ok (h₁, h.fresh) ∧ h₁.setNext b h.fresh = .ok h' ∧
      Sound h' own ∧ Extends h h' ∧ h'.cell b = some { d with next := some h.fresh } ∧
      h'.cell h.fresh = some ⟨1, none, n, 0, List.replicate n 0⟩ ∧ b < h.fresh ∧
      (∀ x, (∃ e, h.cell x = some e) → Unlinked h x → Unlinked h' x) ∧
      (∀ x, x ≠ b → x ≠ h.fresh → h'.cell x = h.cell x) ∧ h'.fresh = h.fresh + 1 := by
  obtain ⟨h₁, hnew, S₁, hself, hne, hfresh⟩ := bufferCreateAndAcquire_spec S hn
  have hb := S.bound b d hd
  have hd₁ : h₁.cell b = some d := by rw [hne b hb.ne, hd]
  obtain ⟨h₂, hlink, E₂, hput⟩ := setNext_spec S₁.toExact hd₁ hnone hb
  have hother : ∀ x, x ≠ b → h₂.cell x = h₁.cell x := fun x hx => by rw [hput, put_of_ne hx]
  have hb₂ : h₂.cell b = some { d with next := some h.fresh } := by rw [hput, put_self]
  have hfresh₂ : h₂.cell h.fresh = some ⟨1, none, n, 0, List.replicate n 0⟩ :=
    (hother _ hb.ne').trans hself
  refine ⟨h₁, h₂, hnew, hlink, ⟨E₂, fun x e he => ?_⟩, fun x e he => ?_, hb₂, hfresh₂, hb,
    fun x hx U y e he => ?_, fun x hx hxf => by rw [hother x hx, hne x hxf],
    by rw [hput, put_fresh, hfresh]⟩
  · by_cases hx : x = b
    · subst hx
      rw [hb₂, Option.some.injEq] at he
      rw [← he]
      exact S.wf x d hd
    · exact S₁.wf x e (by rwa [hother x hx] at he)
  · by_cases hx : x = b
    · subst hx
      obtain rfl := Option.some.inj (he.symm.trans hd)
      refine ⟨_, hb₂, fun m hm => ?_, rfl⟩
      rw [hnone] at hm
      cases hm
    · exact ⟨e, by rw [hother x hx, hne x (S.bound x e he).ne, he], fun _ h => h, rfl⟩
  · obtain ⟨e₀, he₀⟩ := hx
    by_cases hy : y = b
    · subst hy
      rw [hb₂, Option.some.injEq] at he
      rw [← he]
      exact fun heq => (S.bound x e₀ he₀).ne (Option.some.inj heq).symm
    · by_cases hyf : y = h.fresh
      · rw [hyf, hfresh₂, Option.some.injEq] at he
        rw [← he]
        nofun
      · exact U y e (by rwa [hother y hy, hne y hyf] at he)

/-- **The next buffer of the chain**, created if need be. -/
theorem nextOrNew_spec (S : Sound h own) (F : Filling h b rpos) (hd : h.cell b = some d) :
    ∃ h' n d' e, nextOrNew h b = .ok (h', n) ∧ Sound h' own ∧ Extends h h' ∧ h'.cell b = some d' ∧
      d'.next = some n ∧ d'.body = d.body ∧ h'.cell n = some e ∧ Fresh e ∧
      (∀ m, d.next = some m → n = m) ∧
      ∀ x, (∃ e, h.cell x = some e) → Unlinked h x → Unlinked h' x := by
  obtain ⟨d₀, hd₀, -, hnext⟩ := F
  obtain rfl := Option.some.inj (hd₀.symm.trans hd)
  rcases hnext with hnone | ⟨n, e, hn, he, hfresh⟩
  · obtain ⟨h₁, h₂, hnew, hlink, S₂, X, hb₂, hfresh, -, hlinks, -⟩ :=
      linkNew_spec S (n := bufferSize) hd hnone (by decide)
    refine ⟨h₂, h.fresh, _, _, ?_, S₂, X, hb₂, rfl, rfl, hfresh, ⟨rfl, rfl, rfl⟩, fun m hm => ?_,
      hlinks⟩
    · rw [nextOrNew, get_eq hd, Exec.ok_bind, hnone]
      simp only [hnew, Exec.ok_bind, hlink]
      rfl
    · rw [hnone] at hm
      cases hm
  · refine ⟨h, n, d₀, e, ?_, S, fun x e he => ⟨e, he, fun _ h => h, rfl⟩, hd, hn, rfl, he, hfresh,
      fun m hm => Option.some.inj (hn.symm.trans hm), fun _ _ U => U⟩
    rw [nextOrNew, get_eq hd, Exec.ok_bind, hn]
    rfl

/-! ### What others hold -/

/-- Memory of a packet's own: nothing is counted in it, and it is neither the buffer `b` that is being
filled nor one that a link leads to. -/
structure Apart (h : Heap) (b x : ℕ) : Prop where
  empty : ∃ c, h.cell x = some c ∧ c.body.size = 0
  ne : x ≠ b
  unlinked : Unlinked h x

variable {x : ℕ}

theorem Apart.keep (A : Apart h b x) (K : Keeps h h') (hlive : ∃ c, h'.cell x = some c) :
    Apart h' b x := by
  obtain ⟨c', hc'⟩ := hlive
  obtain ⟨c, hc, hsize⟩ := A.empty
  obtain ⟨d, hd, -, hbody⟩ := K.cell x c' hc'
  obtain rfl := Option.some.inj (hd.symm.trans hc)
  exact ⟨⟨c', hc', by rw [hbody, hsize]⟩, A.ne, A.unlinked.of_keeps K⟩

theorem Apart.extend (A : Apart h b x) (X : Extends h h')
    (hlinks : ∀ x, (∃ e, h.cell x = some e) → Unlinked h x → Unlinked h' x) : Apart h' b x := by
  obtain ⟨c, hc, hsize⟩ := A.empty
  obtain ⟨c', hc', -, hbody⟩ := X x c hc
  exact ⟨⟨c', hc', by rw [hbody, hsize]⟩, A.ne, hlinks x ⟨c, hc⟩ A.unlinked⟩

/-- Filling goes on in a buffer that a link leads to. -/
theorem Apart.next (A : Apart h b x) (hd : h.cell a = some d) (hn : d.next = some n) :
    Apart h n x :=
  ⟨A.empty, fun heq => A.unlinked a d hd (heq ▸ hn), A.unlinked⟩

theorem Apart.shape (A : Apart h b x) (hshape : Shape h h') (hback : Shape h' h) : Apart h' b x := by
  obtain ⟨c, hc, hsize⟩ := A.empty
  obtain ⟨c', hc', -, -, hs⟩ := hshape x c hc
  refine ⟨⟨c', hc', hs.trans hsize⟩, A.ne, fun y e he => ?_⟩
  obtain ⟨e', he', hn, -⟩ := hback y e he
  rw [← hn]
  exact A.unlinked y e' he'

/-- The buffers that others have references to are at most filled further, and what is apart from the
chain stays so, while the buffer being filled changes from `b` to `b'`. -/
structure Spares (own : Multiset ℕ) (h : Heap) (b : ℕ) (h' : Heap) (b' : ℕ) : Prop where
  grows : ∀ x ∈ own, GrowsFrom h h' x
  apart : ∀ x ∈ own, Apart h b x → Apart h' b' x

theorem Spares.refl (own : Multiset ℕ) (h : Heap) (b : ℕ) : Spares own h b h b :=
  ⟨fun x _ => .refl h x, fun _ _ A => A⟩

theorem Spares.trans {h₁ h₂ : Heap} {b₁ b₂ : ℕ} (P₁ : Spares own h b h₁ b₁)
    (P₂ : Spares own h₁ b₁ h₂ b₂) : Spares own h b h₂ b₂ :=
  ⟨fun x hx => (P₁.grows x hx).trans (P₂.grows x hx),
    fun x hx A => P₂.apart x hx (P₁.apart x hx A)⟩

theorem Spares.of_keeps (K : Keeps h h') (S' : Sound h' own') (hown : own ≤ own') (b : ℕ) :
    Spares own h b h' b := by
  have hlive : ∀ x ∈ own, ∃ c, h'.cell x = some c := fun x hx =>
    S'.live (Multiset.mem_of_le hown hx)
  exact ⟨fun x hx => .of_keepsFrom (K.from S'.toExact (hlive x hx)),
    fun x hx A => A.keep K (hlive x hx)⟩

theorem Spares.mono (P : Spares own' h a h' b) (hown : own ≤ own') : Spares own h a h' b :=
  ⟨fun x hx => P.grows x (Multiset.mem_of_le hown hx),
    fun x hx => P.apart x (Multiset.mem_of_le hown hx)⟩

/-- The size of the buffer that is being filled grows. -/
theorem Spares.fill (hd : h.cell b = some d) (hle : d.body.size ≤ n) (own : Multiset ℕ) :
    Spares own h b (h.put b { d with body := { d.body with size := n } }) b := by
  refine ⟨fun x _ => .put hd ⟨fun _ h => h, rfl, hle, fun _ _ => rfl⟩, fun x _ A => ?_⟩
  obtain ⟨c, hc, hsize⟩ := A.empty
  refine ⟨⟨c, by rw [put_of_ne A.ne, hc], hsize⟩, A.ne, fun y e he => ?_⟩
  by_cases hy : y = b
  · subst hy
    rw [put_self, Option.some.injEq] at he
    rw [← he]
    exact A.unlinked y d hd
  · exact A.unlinked y e (by rwa [put_of_ne hy] at he)

/-! ### The rounds of `update_next_recv_pos` -/

/-- **A round of `update_next_recv_pos`** extends the span in the buffer that is being filled; from
the end of that buffer it goes on to the next one. -/
theorem fillRound_spec (S : Sound h (refs (some b) + own)) (hbuf : c.nextRecvBuf = some b)
    (hpos : c.nextRecvPos = rpos) (C : Chain h a upos ps b rpos) (ha : a ∈ own)
    (hd : h.cell b = some d) (hk : k = min (bufferSize - rpos) m) :
    ∃ h' b' rpos', fillRound h c m = .ok (h', { c with nextRecvBuf := some b', nextRecvPos := rpos' }, k) ∧
      Sound h' (refs (some b') + own) ∧ Chain h' a upos (ps ++ places b rpos k) b' rpos' ∧
      (∀ p, p ∈ ps ++ places b rpos k ∨ p.1 = b' ∧ (∃ e, h.cell b' = some e) →
        byteAt h' p = byteAt h p) ∧
      (rpos + k < bufferSize ∧ b' = b ∧ rpos' = rpos + k ∨
        rpos + k = bufferSize ∧ rpos' = 0 ∧ ∀ n, d.next = some n → b' = n) ∧
      Spares own h b h' b' := by
  have hcap := C.path.capacity_last hd
  have hroom := C.room
  have hbs : bufferSize = 65536 := rfl
  obtain ⟨d₀, hd₀, hsize, hnext⟩ := C.filling
  obtain rfl := Option.some.inj (hd₀.symm.trans hd)
  -- the size grows
  obtain ⟨h₁, hset, S₁, hput, hbytes₁⟩ := setSize_spec S hd (show rpos + k ≤ d₀.body.capacity by omega)
  set d₁ : Cell Block := { d₀ with body := { d₀.body with size := rpos + k } } with hd₁_def
  have hd₁ : h₁.cell b = some d₁ := by rw [hput, put_self]
  have G : GrowsFrom h h₁ a := by
    rw [hput]
    exact .put hd ⟨fun _ h => h, rfl, by change d₀.body.size ≤ rpos + k; omega, fun _ _ => rfl⟩
  have P₁ : Spares own h b h₁ b := hput ▸ Spares.fill hd (by omega) own
  have hspan₁ : Span h₁ a upos (ps ++ places b rpos k) b (rpos + k) :=
    (C.span.grow G S₁).1.append (Span.here hd₁ le_rfl)
  have F₁ : Filling h₁ b (rpos + k) := by
    refine ⟨d₁, hd₁, rfl, ?_⟩
    rcases hnext with hnone | ⟨n, e, hn, he, hrest⟩
    · exact .inl hnone
    · have hne : n ≠ b := (S.up b d₀ n hd hn).ne'
      exact .inr ⟨n, e, hn, by rw [hput, put_of_ne hne, he], hrest⟩
  have hround : fillRound h c m = (do
      if rpos + k ≥ bufferSize then
        let q ← nextOrNew h₁ b
        let h ← bufferAcquire q.1 (some b) (some q.2)
        return (h, { c with nextRecvBuf := some q.2, nextRecvPos := 0 }, k)
      else return (h₁, { c with nextRecvPos := rpos + k }, k)) := by
    rw [fillRound, hbuf]
    simp only [Exec.deref_some, Exec.ok_bind, get_eq hd, hcap, hpos, hsize,
      sub32_of_le hroom.le (show bufferSize < 0x100000000 by omega), ← hk,
      add32_of_lt (show rpos + k < 0x100000000 by omega), hset]
  rw [hround]
  by_cases hend : rpos + k ≥ bufferSize
  · rw [if_pos hend]
    obtain ⟨h₂, n, d₂, e, hnew, S₂, X, hd₂, hn, hbody, he, hfresh, hsame, hlinks⟩ :=
      nextOrNew_spec S₁ F₁ hd₁
    have P₂ : Spares own h₁ b h₂ n :=
      ⟨fun x _ => X.growsFrom, fun x _ A => (A.extend X hlinks).next hd₂ hn⟩
    obtain ⟨hspan₂, hbytes₂⟩ := hspan₁.grow X.growsFrom S₂
    have hcap₂ : d₂.body.capacity = bufferSize := by rw [hbody]; exact hcap
    have hsize₂ : d₂.body.size = rpos + k := by rw [hbody]
    have hcross : Span h₂ b (rpos + k) [] n 0 := by
      have := Span.cross hd₂ (show rpos + k ≤ d₂.body.size by omega) (by omega) hn
        (Span.nil he (show 0 ≤ e.body.size by omega))
      rwa [hsize₂, Nat.sub_self, places, List.range'_zero, List.map_nil, List.nil_append] at this
    have hspan : Span h₂ a upos (ps ++ places b rpos k) n 0 := by
      have := hspan₂.append hcross
      rwa [List.append_nil] at this
    have C₂ : Chain h₂ a upos (ps ++ places b rpos k) n 0 :=
      ⟨hspan, ((C.path.grow G).grow X.growsFrom).snoc hd₂ hn he hfresh.2.2, C.start, by omega,
        ⟨e, he, hfresh.2.1, .inl hfresh.1⟩⟩
    obtain ⟨h', hacq, S', K⟩ := bufferAcquire_spec S₂ (p := some n)
      fun x hx => ⟨e, Option.some.inj hx ▸ he⟩
    have hlive := S'.live (show a ∈ refs (some n) + own from Multiset.mem_add.mpr (.inr ha))
    obtain ⟨C', hbytes'⟩ := C₂.keep (K.from S'.toExact hlive) S'
    refine ⟨h', n, 0, ?_, S', C', fun p hp => ?_, .inr ⟨by omega, rfl, hsame⟩,
      (P₁.trans P₂).trans (.of_keeps K S' (Multiset.le_add_left ..) n)⟩
    · rw [hnew, Exec.ok_bind]
      simp only [hacq, Exec.ok_bind]
      rfl
    · rcases hp with hp | ⟨hp, e₀, he₀⟩
      · rw [hbytes' p hp, hbytes₂ p hp, hbytes₁ p]
      · obtain ⟨e', he'⟩ := S'.live (show n ∈ refs (some n) + own by simp)
        obtain ⟨e₁, he₁⟩ : ∃ e₁, h₁.cell n = some e₁ := by
          by_cases hnb : n = b
          · exact ⟨d₁, hnb ▸ hd₁⟩
          · exact ⟨e₀, by rw [hput, put_of_ne hnb, he₀]⟩
        rw [Keeps.byteAt_eq K (hp ▸ he'), X.byteAt_eq (hp ▸ he₁), hbytes₁ p]
  · rw [if_neg hend]
    refine ⟨h₁, b, rpos + k, ?_, S₁, ⟨hspan₁, C.path.grow G, C.start, by omega, F₁⟩,
      fun p _ => hbytes₁ p, .inl ⟨by omega, rfl, rfl⟩, P₁⟩
    rw [← hbuf]
    rfl

/-- The memory offered to a read: the rest of the buffer that is being filled, and the start of the
next one. -/
def Offered (h : Heap) (b rpos : ℕ) (vs : List Iovec) : Prop :=
  rpos = 0 ∧ vs = [⟨(b, 0), bufferSize⟩] ∨
    0 < rpos ∧ ∃ d n, h.cell b = some d ∧ d.next = some n ∧
      vs = [⟨(b, rpos), bufferSize - rpos⟩, ⟨(n, 0), rpos⟩]

/-- **`update_next_recv_pos`** extends the span by the bytes of a read. -/
theorem updateNextRecvPos_spec {vs : List Iovec} (S : Sound h (refs (some b) + own))
    (hbuf : c.nextRecvBuf = some b) (hpos : c.nextRecvPos = rpos) (C : Chain h a upos ps b rpos)
    (ha : a ∈ own) (hoff : Offered h b rpos vs) (hk : k ≤ bufferSize) :
    ∃ h' b' rpos', updateNextRecvPos h c k =
        .ok (h', { c with nextRecvBuf := some b', nextRecvPos := rpos' }) ∧
      Sound h' (refs (some b') + own) ∧ Chain h' a upos (ps ++ (offeredPlaces vs).take k) b' rpos' ∧
      (∀ p ∈ ps ++ (offeredPlaces vs).take k, byteAt h' p = byteAt h p) ∧ Spares own h b h' b' := by
  obtain ⟨d, hd, -⟩ := C.span.finish
  have hroom := C.room
  have hbs : bufferSize = 65536 := rfl
  by_cases hk0 : k = 0
  · subst hk0
    rw [List.take_zero, List.append_nil]
    exact ⟨h, b, rpos, by rw [← hbuf, ← hpos]; rfl, S, C, fun _ _ => rfl, .refl ..⟩
  obtain ⟨k₁, hk₁⟩ : ∃ k₁, k₁ = min (bufferSize - rpos) k := ⟨_, rfl⟩
  obtain ⟨h₁, b₁, rpos₁, hround₁, S₁, C₁, hbytes₁, hcase, P₁⟩ :=
    fillRound_spec S hbuf hpos C ha hd hk₁
  have hloop : updateNextRecvPos h c k = updateNextRecvPosLoop k h₁
      { c with nextRecvBuf := some b₁, nextRecvPos := rpos₁ } (k - k₁) := by
    rw [updateNextRecvPos, updateNextRecvPosLoop, if_neg hk0, hround₁, Exec.ok_bind]
  obtain ⟨f, hf⟩ : ∃ f, k = f + 1 := ⟨k - 1, by omega⟩
  by_cases hall : k₁ = k
  · have hplaces : (offeredPlaces vs).take k = places b rpos k₁ := by
      rw [hall]
      rcases hoff with ⟨rfl, rfl⟩ | ⟨-, e, n, -, -, rfl⟩
      · rw [offeredPlaces_one, places_take (by omega)]
      · rw [offeredPlaces_two, List.take_append_of_le_length (by rw [length_places]; omega),
          places_take (by omega)]
    rw [hplaces]
    refine ⟨h₁, b₁, rpos₁, ?_, S₁, C₁, fun p hp => hbytes₁ p (.inl hp), P₁⟩
    rw [hloop, hf, updateNextRecvPosLoop, if_pos (by omega)]
  · -- the read goes on in the next buffer
    obtain ⟨rfl, e, n, he, hn, rfl⟩ | ⟨hpos', e, n, he, hn, rfl⟩ := hoff
    · omega
    obtain rfl := Option.some.inj (he.symm.trans hd)
    obtain ⟨hfull, rfl, hsame⟩ : rpos + k₁ = bufferSize ∧ rpos₁ = 0 ∧ ∀ n, e.next = some n → b₁ = n := by
      rcases hcase with ⟨hlt, -, -⟩ | hcase
      · omega
      · exact hcase
    obtain rfl := hsame n hn
    obtain ⟨d₁, hd₁, -⟩ := C₁.span.finish
    obtain ⟨h₂, b₂, rpos₂, hround₂, S₂, C₂, hbytes₂, hcase₂, P₂⟩ :=
      fillRound_spec (c := { c with nextRecvBuf := some b₁, nextRecvPos := 0 }) S₁ rfl rfl C₁ ha hd₁
        (show k - k₁ = min (bufferSize - 0) (k - k₁) by omega)
    have hplaces : (offeredPlaces [⟨(b, rpos), bufferSize - rpos⟩, ⟨(b₁, 0), rpos⟩]).take k =
        places b rpos k₁ ++ places b₁ 0 (k - k₁) := by
      have hfirst : (places b rpos (bufferSize - rpos)).length ≤ k := by
        rw [length_places]
        omega
      rw [offeredPlaces_two, List.take_append, length_places, List.take_of_length_le hfirst,
        places_take (by omega), show bufferSize - rpos = k₁ by omega]
    rw [hplaces, ← List.append_assoc]
    refine ⟨h₂, b₂, rpos₂, ?_, S₂, C₂, fun p hp => ?_, P₁.trans P₂⟩
    · obtain ⟨g, hg⟩ : ∃ g, f = g + 1 := ⟨f - 1, by omega⟩
      rw [hloop]
      generalize hj : k - k₁ = j at hround₂ ⊢
      rw [hf, updateNextRecvPosLoop, if_neg (by omega), hround₂, Exec.ok_bind]
      simp only [Nat.sub_self]
      rw [hg, updateNextRecvPosLoop, if_pos rfl]
    · rw [hbytes₂ p (.inl hp)]
      refine hbytes₁ p ?_
      rcases List.mem_append.mp hp with hp | hp
      · exact .inl hp
      · exact .inr ⟨(mem_places.mp hp).1, (S.next_live hd hn).2⟩

theorem nodup_places : (places a pos n).Nodup :=
  (List.nodup_range' ..).map fun x y h => (Prod.mk.inj h).2

theorem Offered.nodup {vs : List Iovec} (hoff : Offered h b rpos vs) (E : Exact h own) :
    (offeredPlaces vs).Nodup := by
  rcases hoff with ⟨-, rfl⟩ | ⟨-, d, n, hd, hn, rfl⟩
  · rw [offeredPlaces_one]
    exact nodup_places
  · rw [offeredPlaces_two, List.nodup_append]
    refine ⟨nodup_places, nodup_places, fun p hp q hq heq => ?_⟩
    have hp := (mem_places.mp hp).1
    have hq := (mem_places.mp hq).1
    exact (E.up b d n hd hn).ne (by rw [← hp, ← hq, heq])

/-- A read leaves the bytes stored before it, in all buffers. -/
theorem Chain.scatter {vs : List Iovec} (C : Chain h a upos ps b rpos)
    (hoff : Offered h b rpos vs) (hshape : Shape h h')
    (hbytes : ∀ p ∉ offeredPlaces vs, byteAt h' p = byteAt h p) (x : ℕ) : StaysFrom h h' x := by
  obtain ⟨d, hd, hsize, hnext⟩ := C.filling
  -- the memory offered is beyond the sizes of the buffers
  have hout : ∀ x e, h.cell x = some e → ∀ p < e.body.size, (x, p) ∉ offeredPlaces vs := by
    intro x e he p hp
    have hb : x = b → p < rpos := by
      rintro rfl
      obtain rfl := Option.some.inj (he.symm.trans hd)
      omega
    rcases hoff with ⟨rfl, rfl⟩ | ⟨-, d', n, hd', hn, rfl⟩
    · rw [offeredPlaces_one, mem_places]
      rintro ⟨hx, -⟩
      have := hb hx
      omega
    · obtain rfl := Option.some.inj (hd'.symm.trans hd)
      rw [offeredPlaces_two, List.mem_append, mem_places, mem_places]
      rintro (⟨hx, hge, -⟩ | ⟨hx, -⟩)
      · have := hb hx
        exact absurd hge (by simpa using this)
      · rcases hnext with hnone | ⟨m, e', hm, he', -, hzero, -⟩
        · rw [hnone] at hn
          cases hn
        · obtain rfl := Option.some.inj (hm.symm.trans hn)
          obtain rfl : x = m := hx
          obtain rfl := Option.some.inj (he'.symm.trans he)
          omega
  intro y e _ he
  obtain ⟨e', he', hn, hcap, hsz⟩ := hshape y e he
  refine ⟨e', he', hn, hsz, fun n h => hn.trans h, hcap, hsz.ge, fun p hp => ?_⟩
  have := hbytes (y, p) (hout y e he p hp)
  rwa [byteAt, byteAt, he, he', Option.bind_some, Option.bind_some] at this

/-- The connection is ready for a read. -/
def Ready (s : Receiver σ) : Prop :=
  ∃ b, s.conn.nextRecvBuf = some b ∧ Offered s.heap b s.conn.nextRecvPos s.conn.wrecvbuf

/-- A step of the receive path that hands no packet over leaves what others hold. -/
structure Undelivered (process : Callback σ RPacket) (s s' : Receiver σ) (own : Multiset ℕ) : Prop where
  handed : s'.handed = s.handed
  app : s'.app = s.app
  raw : s'.conn.raw = s.conn.raw
  spares : ∃ b b', s.conn.nextRecvBuf = some b ∧ s'.conn.nextRecvBuf = some b' ∧
    Spares (process.owned s.app + own) s.heap b s'.heap b'

theorem Ready.stay {app : σ} (hready : Ready s) (R : Buffered process s own D ps bs)
    (T : ∀ a, s.conn.unpackBuf = some a → StaysFrom s.heap h' a) :
    Ready { s with heap := h', app := app } := by
  obtain ⟨a, b, hbuf, hnext, C⟩ := R.chain
  obtain ⟨b', hnext', hoff⟩ := hready
  obtain rfl := Option.some.inj (hnext.symm.trans hnext')
  refine ⟨b, hnext, hoff.imp_right ?_⟩
  rintro ⟨hpos, d, n, hd, hn, hvs⟩
  obtain ⟨d', hd', hn', -⟩ := T a hbuf b d C.span.reach hd
  exact ⟨hpos, d', n, hd', hn'.trans hn, hvs⟩

/-- **The bytes of a read** come after those received before. -/
theorem Buffered.arrive (R : Buffered process s own D ps bs) (hready : Ready s) {xs : List UInt8}
    (hxs : xs.length ≤ bufferSize) :
    ∃ s' qs, Connection.arrive s xs = .ok s' ∧ Buffered process s' own D (ps ++ qs) (bs ++ xs) ∧
      Undelivered process s s' own ∧ s'.arrived = s.arrived ++ qs := by
  obtain ⟨a, b, hbuf, hnext, C⟩ := R.chain
  obtain ⟨b', hnext', hoff⟩ := hready
  obtain rfl := Option.some.inj (hnext.symm.trans hnext')
  have hroom := C.room
  have hlenoff : (offeredPlaces s.conn.wrecvbuf).length = bufferSize := by
    rcases hoff with ⟨-, hvs⟩ | ⟨-, d, n, -, -, hvs⟩
    · rw [hvs, offeredPlaces_one, length_places]
    · rw [hvs, offeredPlaces_two, List.length_append, length_places, length_places]
      omega
  have hvs : ∀ v ∈ s.conn.wrecvbuf, ∃ e, s.heap.cell v.base.1 = some e ∧
      v.base.2 + v.len ≤ e.body.capacity := by
    obtain ⟨d, hd, -, hdn⟩ := C.filling
    have hcap := C.path.capacity_last hd
    rcases hoff with ⟨-, hvs⟩ | ⟨-, d', n, hd', hn, hvs⟩
    · rw [hvs]
      rintro v hv
      obtain rfl := List.mem_singleton.mp hv
      exact ⟨d, hd, by simp only; omega⟩
    · obtain rfl := Option.some.inj (hd'.symm.trans hd)
      rcases hdn with hnone | ⟨m, e, hm, he, -, -, hec⟩
      · rw [hnone] at hn
        cases hn
      · obtain rfl := Option.some.inj (hm.symm.trans hn)
        rw [hvs]
        rintro v hv
        rcases List.mem_cons.mp hv with rfl | hv
        · exact ⟨d', hd, by simp only; omega⟩
        · obtain rfl := List.mem_singleton.mp hv
          exact ⟨e, he, by simp only; omega⟩
  obtain ⟨h₁, hscatter, S₁, hshape, hback, hother, hnew⟩ :=
    scatter_spec R.sound (hoff.nodup R.sound.toExact) hvs (show xs.length ≤ _ by omega)
  have T₁ := C.scatter hoff hshape hother
  obtain ⟨C₁, hbytes₁⟩ := C.stay (T₁ a) S₁
  have hoff₁ : Offered h₁ b s.conn.nextRecvPos s.conn.wrecvbuf := by
    rcases hoff with h₀ | ⟨hpos, d, n, hd, hn, hvs⟩
    · exact .inl h₀
    · obtain ⟨d', hd', hn', -⟩ := hshape b d hd
      exact .inr ⟨hpos, d', n, hd', hn'.trans hn, hvs⟩
  have S₁' : Sound h₁ (refs (some b) + (refs (some a) + (process.owned s.app + own))) := by
    convert S₁ using 1
    rw [recvOwned, hbuf, hnext]
    abel
  obtain ⟨h₂, b₂, rpos₂, hupdate, S₂, C₂, hbytes₂, P₂⟩ :=
    updateNextRecvPos_spec S₁' hnext rfl C₁ (by simp) hoff₁ hxs
  have P₁ : Spares (process.owned s.app + own) s.heap b h₁ b :=
    ⟨fun x _ => (T₁ x).growsFrom, fun x _ A => A.shape hshape hback⟩
  obtain ⟨pre, hpre, harr⟩ := R.arrived
  have hsize := R.size
  set c₂ : Connection := { s.conn with
    nextRecvBuf := some b₂
    nextRecvPos := rpos₂
    unpackSize := add32 s.conn.unpackSize xs.length } with hc₂
  refine ⟨⟨h₂, c₂, s.app, s.arrived ++ (offeredPlaces s.conn.wrecvbuf).take xs.length, s.handed⟩, _, ?_,
    ⟨?_, ⟨a, b₂, hbuf, rfl, C₂⟩, ?_, ?_, R.pos, ⟨pre, hpre, ?_⟩⟩,
    ⟨rfl, rfl, rfl, b, b₂, hnext, rfl, P₁.trans (P₂.mono (Multiset.le_add_left ..))⟩, rfl⟩
  · rw [Connection.arrive, hscatter, Exec.ok_bind]
    simp only [hupdate, Exec.ok_bind]
    rfl
  · convert S₂ using 1
    rw [recvOwned, hc₂]
    simp only [hbuf]
    abel
  · refine Bytes.congr ?_ hbytes₂
    exact (R.bytes.congr hbytes₁).append hnew
  · change add32 s.conn.unpackSize xs.length = _
    rw [add32, hsize, List.length_append]
    omega
  · change s.arrived ++ _ = _
    rw [harr, List.append_assoc]

theorem arrive_spec (R : Receiving process s own D ps bs) (hready : Ready s) {xs : List UInt8}
    (hxs : xs.length ≤ bufferSize) :
    ∃ s' qs, arrive s xs = .ok s' ∧ Receiving process s' own D (ps ++ qs) (bs ++ xs) ∧
      s'.handed = s.handed ∧ s'.arrived = s.arrived ++ qs := by
  obtain ⟨s', qs, harrive, R', U, harr⟩ := R.buffered.arrive hready hxs
  exact ⟨s', qs, harrive, R'.receiving (U.raw.trans R.raw), U.handed, harr⟩

/-- **Offering memory** to the next read. -/
theorem Buffered.offer (R : Buffered process s own D ps bs) :
    ∃ s', Connection.offer s = .ok s' ∧ Buffered process s' own D ps bs ∧ Ready s' ∧
      Undelivered process s s' own ∧ s'.arrived = s.arrived := by
  obtain ⟨a, b, hbuf, hnext, C⟩ := R.chain
  obtain ⟨d, hd, -⟩ := C.span.finish
  have hcap := C.path.capacity_last hd
  have hroom := C.room
  have hbs : bufferSize = 65536 := rfl
  have hsub : sub32 bufferSize s.conn.nextRecvPos = bufferSize - s.conn.nextRecvPos :=
    sub32_of_le hroom.le (by omega)
  rcases Nat.eq_zero_or_pos s.conn.nextRecvPos with hzero | hpos
  · refine ⟨{ s with conn := { s.conn with wrecvbuf := [⟨(b, 0), bufferSize⟩], recvUsed := true } }, ?_,
      ⟨R.sound, ⟨a, b, hbuf, hnext, C⟩, R.bytes, R.size, R.pos, R.arrived⟩,
      ⟨b, hnext, .inl ⟨hzero, rfl⟩⟩, ⟨rfl, rfl, rfl, b, b, hnext, hnext, .refl ..⟩, rfl⟩
    rw [Connection.offer, hnext, Exec.deref_some, Exec.ok_bind, offerLoop, if_neg (by omega), get_eq hd,
      Exec.ok_bind]
    rw [hzero] at hsub ⊢
    simp only [hcap, hsub, Nat.sub_zero, Nat.min_self, Nat.sub_self, ne_eq, not_true_eq_false,
      false_and, if_false]
    rfl
  · obtain ⟨h₁, n, d₁, e, hnew, S₁, X, hd₁, hn, hbody, he, hfresh, -, hlinks⟩ :=
      nextOrNew_spec R.sound C.filling hd
    obtain ⟨hspan, hsame⟩ := C.span.grow X.growsFrom S₁
    have hsize : d₁.body.size = s.conn.nextRecvPos := by
      obtain ⟨d', hd', hsz, -⟩ := C.filling
      obtain rfl := Option.some.inj (hd'.symm.trans hd)
      rw [hbody, hsz]
    have C₁ : Chain h₁ a s.conn.unpackPos ps b s.conn.nextRecvPos :=
      ⟨hspan, C.path.grow X.growsFrom, C.start, C.room, ⟨d₁, hd₁, hsize,
        .inr ⟨n, e, hn, he, hfresh⟩⟩⟩
    set vs : List Iovec := [⟨(b, s.conn.nextRecvPos), bufferSize - s.conn.nextRecvPos⟩,
      ⟨(n, 0), s.conn.nextRecvPos⟩] with hvs
    refine ⟨{ s with heap := h₁, conn := { s.conn with wrecvbuf := vs, recvUsed := true } }, ?_,
      ⟨S₁, ⟨a, b, hbuf, hnext, C₁⟩, R.bytes.congr hsame, R.size, R.pos, R.arrived⟩,
      ⟨b, hnext, .inr ⟨hpos, d₁, n, hd₁, hn, rfl⟩⟩,
      ⟨rfl, rfl, rfl, b, b, hnext, hnext, fun x _ => X.growsFrom, fun x _ A => A.extend X hlinks⟩, rfl⟩
    have hfree : min (bufferSize - s.conn.nextRecvPos) bufferSize =
        bufferSize - s.conn.nextRecvPos := by omega
    have hrest : bufferSize - (bufferSize - s.conn.nextRecvPos) = s.conn.nextRecvPos := by omega
    have hsecond : offerLoop 1 h₁ n 0 s.conn.nextRecvPos =
        .ok (h₁, [⟨(n, 0), s.conn.nextRecvPos⟩]) := by
      rw [offerLoop, if_neg (by omega), get_eq he, Exec.ok_bind]
      simp only [hfresh.2.2, sub32_of_le (Nat.zero_le bufferSize) (show bufferSize < 0x100000000 by omega),
        show min (bufferSize - 0) s.conn.nextRecvPos = s.conn.nextRecvPos by omega, Nat.sub_self, ne_eq,
        not_true_eq_false, false_and, if_false]
      rfl
    rw [Connection.offer, hnext, Exec.deref_some, Exec.ok_bind, offerLoop, if_neg (by omega),
      get_eq hd, Exec.ok_bind]
    simp only [hcap, hsub, hfree, hrest,
      add32_of_lt (show s.conn.nextRecvPos + (bufferSize - s.conn.nextRecvPos) < 0x100000000 by omega)]
    rw [if_pos ⟨by omega, by omega⟩, hnew, Exec.ok_bind]
    simp only [Exec.pure_eq, Exec.ok_bind, hsecond]
    rfl

theorem offer_spec (R : Receiving process s own D ps bs) :
    ∃ s', offer s = .ok s' ∧ Receiving process s' own D ps bs ∧ Ready s' ∧ s'.handed = s.handed ∧
      s'.arrived = s.arrived := by
  obtain ⟨s', hoffer, R', hready, U, harr⟩ := R.buffered.offer
  exact ⟨s', hoffer, R'.receiving (U.raw.trans R.raw), hready, U.handed, harr⟩

/-- **After `connection_start_recv`** nothing has been received and the first buffer is offered. -/
theorem buffered_start {app : σ} (S : Sound h (process.owned app + own)) (hnone : c.unpackBuf = none) :
    ∃ h' c', connectionStartRecv h c = .ok (h', c') ∧ c'.raw = c.raw ∧
      Buffered process ⟨h', c', app, [], []⟩ own 0 [] [] ∧ Ready (⟨h', c', app, [], []⟩ : Receiver σ) := by
  obtain ⟨h₁, hnew, S₁, hself, hne, hfresh⟩ :=
    bufferCreateAndAcquire_spec S (n := bufferSize) (by decide)
  have S₁' : Sound h₁ (refs none + (h.fresh ::ₘ (process.owned app + own))) := by
    rwa [refs_none, zero_add]
  obtain ⟨h₂, hacq, S₂, K⟩ := bufferAcquire_spec S₁' (p := some h.fresh)
    fun x hx => ⟨_, Option.some.inj hx ▸ hself⟩
  obtain ⟨e, he⟩ := S₂.live (show h.fresh ∈ refs (some h.fresh) + (h.fresh ::ₘ _) by simp)
  obtain ⟨e₁, he₁, hen, heb⟩ := K.cell _ e he
  obtain rfl := Option.some.inj (he₁.symm.trans hself)
  set c' : Connection := { c with
    unpackBuf := some h.fresh
    nextRecvBuf := some h.fresh
    nextRecvPos := 0
    unpackPos := 0
    unpackSize := 0
    wrecvbuf := [⟨(h.fresh, 0), bufferSize⟩]
    recvUsed := true }
  have hstart : connectionStartRecv h c = .ok (h₂, c') := by
    rw [connectionStartRecv, hnone]
    simp only [hnew, Exec.ok_bind, hacq]
    rfl
  refine ⟨h₂, c', hstart, rfl, ⟨?_, ⟨h.fresh, h.fresh, rfl, rfl, ?_⟩, rfl, rfl, rfl, ⟨[], rfl, rfl⟩⟩,
    ⟨h.fresh, rfl, .inl ⟨rfl, rfl⟩⟩⟩
  · convert S₂ using 1
    rw [recvOwned, refs_some, ← Multiset.singleton_add]
    abel
  · have hpos : 0 < bufferSize := by decide
    exact ⟨Span.nil he (Nat.zero_le _), .last he (by rw [heb]), hpos, hpos,
      ⟨e, he, by rw [heb], .inl hen⟩⟩

theorem connectionStartRecv_spec {app : σ} (S : Sound h (process.owned app + own))
    (hraw : c.raw = false) (hnone : c.unpackBuf = none) :
    ∃ h' c', connectionStartRecv h c = .ok (h', c') ∧
      Receiving process ⟨h', c', app, [], []⟩ own 0 [] [] ∧
      Ready (⟨h', c', app, [], []⟩ : Receiver σ) := by
  obtain ⟨h', c', hstart, hsame, R, hready⟩ := buffered_start S hnone
  exact ⟨h', c', hstart, R.receiving (hsame.trans hraw), hready⟩

end Connection

end Kendylib
