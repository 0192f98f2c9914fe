import Kendylib.Foundations.Run
import Kendylib.Net.Writing

/-!
# Packets that are written to

What holds of a packet made by `wpacket_create`, whatever is written to it and in whatever pieces.

* **Writes append** (`writes_append`): the buffers of the packet hold the length and then the bytes
  written, in order, and the five places that keep track of them agree.
* **Writes stay inside the buffers** (`staysInside_iff`), unless the packet is not raw and created
  with a size below 3: its first buffer is then too small for the length.
* **Writes end** (`callsEnd_iff`) exactly as long as there is room in the buffers that the 8-bit
  counter `factor` gives the packet: 256 bytes less the first capacity if that is below 256, and none
  besides the first buffer otherwise. The capacity of the next buffer is then zero, and the loop of
  `wpacket_write` goes on without writing anything.
-/

namespace Kendylib

open RefHeap Buffer RPacket Connection

namespace WPacket

variable {h h' : Heap} {own : Multiset ℕ} {w w' : WPacket} {a b pos pos' n cap k size fuel : ℕ}
  {ps : List (ℕ × ℕ)} {bs payload : List UInt8} {c : Cell Block} {raw : Bool} {ops : List Write}
  {calls : List (List UInt8)}

/-! ## What is written is appended -/

/-- The buffers of a chain and their addresses. -/
inductive ChainOf (h : Heap) : Option ℕ → List (ℕ × Block) → Prop
  | nil : ChainOf h none []
  | cons {a : ℕ} {c : Cell Block} {bufs : List (ℕ × Block)} (hc : h.cell a = some c)
      (rest : ChainOf h c.next bufs) : ChainOf h (some a) ((a, c.body) :: bufs)

/-- The bytes of a buffer that are in use. -/
def contents (b : Block) : List UInt8 := b.buf.take b.size

/-- The packet consists of the buffers `bufs`, and `bs` are the bytes behind its length. -/
structure Appended (h : Heap) (w : WPacket) (bufs : List (ℕ × Block)) (bs : List UInt8) : Prop where
  chain : ChainOf h w.buf bufs
  full : ∀ x ∈ bufs.dropLast, x.2.size = x.2.capacity
  last : ∃ b body, bufs.getLast? = some (b, body) ∧ w.writebuf = some b ∧ w.wpos = body.size
  dataSize : w.dataSize = (bufs.map fun x => x.2.size).sum
  bytes : bufs.flatMap (fun x => contents x.2) =
    (if w.raw then [] else toBytes lenSize (w.dataSize - lenSize)) ++ bs
  header : w.raw = false → ∃ p, w.len = some p ∧ loadWord h p = .ok (w.dataSize - lenSize)

/-- The buffers of a span that goes to the end of a chain. -/
theorem buffers_of_span (S : Sound h own) (hs : Span h a pos ps b pos') (hb : Bytes h ps bs)
    (hc : h.cell b = some c) (hlast : c.next = none) (hsize : c.body.size = pos') :
    ∃ bufs, ChainOf h (some a) bufs ∧ bufs.getLast? = some (b, c.body) ∧
      (∀ x ∈ bufs.dropLast, x.2.size = x.2.capacity) ∧
      (bufs.map fun x => x.2.size).sum = pos + ps.length ∧
      (bufs.flatMap fun x => contents x.2).drop pos = bs := by
  induction hs generalizing bs with
  | @here a pos n d hd hn =>
    obtain rfl := Option.some.inj (hd.symm.trans hc)
    refine ⟨[(a, d.body)], .cons hd (hlast ▸ .nil), rfl, by simp, by simpa using hsize, ?_⟩
    have hload := Span.load S hd hn (show Bytes h (places a pos n ++ []) bs by rwa [List.append_nil])
    have hlen := hb.length
    rw [length_places] at hlen
    rw [Block.load_eq (by rw [(S.wf a d hd).length]; exact hn.trans (S.wf a d hd).size_le),
      Except.ok.injEq, List.take_of_length_le hlen.ge] at hload
    rw [List.flatMap_singleton, contents, hsize, List.drop_take, Nat.add_sub_cancel_left, hload]
  | @cross a pos m b pos' rest d hd hpos hfull hnext hrest ih =>
    obtain ⟨hfirst, hrestb⟩ := Bytes.places_append hb
    obtain ⟨bufs, hchain, hlast', hfull', hsum, hbytes⟩ := ih hrestb hc hsize
    have hne : bufs ≠ [] := by
      rintro rfl
      cases hlast'
    have hwf := S.wf a d hd
    have hload := Span.load S hd (show pos + (d.body.size - pos) ≤ d.body.size by omega)
      (show Bytes h (places a pos (d.body.size - pos) ++ []) _ by rw [List.append_nil]; exact hfirst)
    rw [Block.load_eq (by rw [hwf.length, ← hfull]; omega), Except.ok.injEq,
      List.take_of_length_le (List.length_take_le _ _)] at hload
    have hin : (contents d.body).length = d.body.size :=
      List.length_take_of_le (by rw [hwf.length]; exact hwf.size_le)
    refine ⟨(a, d.body) :: bufs, .cons hd (hnext ▸ hchain), ?_, ?_, ?_, ?_⟩
    · rw [List.getLast?_cons_of_ne_nil hne, hlast']
    · rw [List.dropLast_cons_of_ne_nil hne]
      intro x hx
      obtain rfl | hx := List.mem_cons.mp hx
      · exact hfull
      · exact hfull' x hx
    · rw [List.map_cons, List.sum_cons, hsum, List.length_append, length_places]
      dsimp only
      omega
    · rw [List.drop_zero] at hbytes
      rw [List.flatMap_cons, List.drop_append_of_le_length (by dsimp only; omega), hbytes, contents,
        List.drop_take, hload, List.take_append_drop]

/-- The places of all bytes of a packet. -/
theorem Building.whole (B : Building cap h w a ps b c payload) :
    Span h a 0 (places a 0 (headerLen w.raw) ++ ps) b w.wpos ∧
      Bytes h (places a 0 (headerLen w.raw) ++ ps)
        ((if w.raw then [] else toBytes lenSize payload.length) ++ payload) := by
  obtain ⟨d, hd, hle⟩ := B.span.start
  refine ⟨(Span.here hd (by rwa [zero_add])).append (by rw [zero_add]; exact B.span), ?_⟩
  have hheader := B.header
  unfold Header headerLen at *
  split_ifs at * with hraw
  · exact B.bytes
  · exact hheader.2.append B.bytes

/-- **What is in a packet** while it is written to. -/
theorem Building.appended (S : Sound h own) (B : Building cap h w a ps b c payload) :
    ∃ bufs, Appended h w bufs payload := by
  obtain ⟨hs, hb⟩ := B.whole
  obtain ⟨bufs, hchain, hlast, hfull, hsum, hbytes⟩ := buffers_of_span S hs hb B.cell B.last B.size
  have htotal := B.dataSize
  rw [zero_add, List.length_append, length_places, B.bytes.length, ← htotal] at hsum
  have hlen : w.raw = false → w.dataSize - lenSize = payload.length := by
    intro hraw
    rw [hraw] at htotal
    exact htotal ▸ Nat.add_sub_cancel_left ..
  refine ⟨bufs, B.buf ▸ hchain, hfull, ⟨b, c.body, hlast, B.writebuf, B.size.symm⟩, hsum.symm, ?_,
    fun hraw => ?_⟩
  · rw [List.drop_zero] at hbytes
    rw [hbytes]
    cases hraw : w.raw with
    | true => rfl
    | false => rw [hlen hraw]
  · have hheader := B.header
    rw [Header, hraw, if_neg Bool.false_ne_true] at hheader
    obtain ⟨d, hd, hle⟩ := B.span.start
    rw [hraw] at hle
    have hbound := B.dataSize_le
    refine ⟨(a, 0), hheader.1, ?_⟩
    rw [hlen hraw]
    exact loadWord_spec S hd (by rw [zero_add]; exact hle) hheader.2 (by omega)

/-- **Writes append.** -/
theorem writes_append {h₁ : Heap} {w₁ : WPacket} (S : Sound h own) (hsize : size < 0x100000000)
    (hcreate : wpacketCreate h size raw = .ok (h₁, w₁)) (hrun : writeAll h₁ w₁ ops = .ok (h', w)) :
    w.raw = raw ∧ ∃ bufs, Appended h' w bufs (ops.flatMap (Write.bytes raw)) := by
  obtain ⟨S₁, B₁, hraw₁⟩ := wpacketCreate_ok S hsize hcreate
  obtain ⟨S', ⟨a, ps, b, c, B⟩, hraw⟩ := writeAll_ok S₁ B₁ hrun
  rw [List.nil_append, hraw₁] at B
  exact ⟨hraw.trans hraw₁, B.appended S'⟩

/-- Data that fills two buffers and goes on in a third. -/
theorem writes_append_three_buffers : ∃ h₁ w₁ h' w, wpacketCreate RefHeap.empty 8 false = .ok (h₁, w₁) ∧
    writeAll h₁ w₁ [.uint32 7, .string [104, 105], .binary [1, 2, 3, 4, 5, 6, 7, 8, 9]] = .ok (h', w) ∧
      w.raw = false ∧ ∃ bufs, Appended h' w bufs ([.uint32 7, .string [104, 105],
        .binary [1, 2, 3, 4, 5, 6, 7, 8, 9]].flatMap (Write.bytes false)) := by
  obtain ⟨⟨⟨h₁, w₁⟩, ⟨h', w⟩⟩, hrun⟩ := Exec.exists_ok (x := do
    let s ← wpacketCreate RefHeap.empty 8 false
    let t ← writeAll s.1 s.2 [.uint32 7, .string [104, 105], .binary [1, 2, 3, 4, 5, 6, 7, 8, 9]]
    return (s, t)) (by decide +kernel)
  obtain ⟨s, hcreate, hrun⟩ := Exec.bind_eq_ok.mp hrun
  obtain ⟨t, hwrite, hrun⟩ := Exec.bind_eq_ok.mp hrun
  cases hrun
  exact ⟨h₁, w₁, h', w, hcreate, hwrite, writes_append sound_empty (by decide) hcreate hwrite⟩

/-! ## Writes stay inside the buffers -/

/-- The cursor is inside the buffer that is written to. -/
def Inside (s : Heap × WPacket) : Prop :=
  ∃ a c, s.2.writebuf = some a ∧ s.1.cell a = some c ∧ s.2.wpos ≤ c.body.capacity

/-- A round of `wpacket_write` with the bytes `bs` left to write. -/
def roundStep (s : Heap × WPacket) (bs : List UInt8) : Exec (Heap × WPacket) := do
  let (h, w, _) ← writeRound s.1 s.2 bs
  return (h, w)

/-- The packet is created, and in all rounds of `wpacket_write`, whatever is left to write in each,
the cursor is inside the last buffer and nothing is copied past the end of a buffer. -/
def StaysInside (h : Heap) (size : ℕ) (raw : Bool) : Prop :=
  match wpacketCreate h size raw with
  | .ok s => ∀ rounds : List (List UInt8), Exec.Always roundStep Inside s rounds ∧
    Exec.FaultsOnly roundStep (fun _ _ _ => False) s rounds
  | .error _ => False

theorem Built.inside (S : Sound h own) (B : Built cap h w payload) : Inside (h, w) := by
  obtain ⟨a, ps, b, c, B⟩ := B
  exact ⟨b, c, B.writebuf, B.cell, B.size ▸ (S.wf b c B.cell).size_le⟩

/-- No round writes outside of a buffer. -/
theorem rounds_inside (S : Sound h (w.owned + own)) (B : Built cap h w payload)
    (rounds : List (List UInt8)) : Exec.Always roundStep Inside (h, w) rounds ∧
      Exec.FaultsOnly roundStep (fun _ _ _ => False) (h, w) rounds := by
  induction rounds generalizing h w payload with
  | nil => exact ⟨B.inside S, trivial⟩
  | cons bs rounds ih =>
    obtain ⟨h', w', k, hround, -, S', B', -⟩ := writeRound_spec S B bs
    have hstep : roundStep (h, w) bs = .ok (h', w') := by
      rw [roundStep, hround]
      rfl
    rw [Exec.Always, Exec.FaultsOnly, hstep]
    exact ⟨⟨B.inside S, (ih S' B').1⟩, (ih S' B').2⟩

/-- The first buffer has room for the length exactly for the sizes from 3 on. -/
theorem lenSize_le_getSizeOfPow2_iff (hsize : size ≤ 0x80000000) :
    lenSize ≤ getSizeOfPow2 size ↔ 3 ≤ size := by
  rw [lenSize]
  constructor
  · intro hfits
    by_contra hlt
    obtain rfl | rfl | rfl : size = 0 ∨ size = 1 ∨ size = 2 := by omega
    · exact absurd hfits (by decide)
    · exact absurd hfits (by decide)
    · exact absurd hfits (by decide)
  · intro hge
    rcases getSizeOfPow2_eq (show size < 0x100000000 by omega) with ⟨-, h⟩ | ⟨j, -, heq, hle⟩
    · omega
    · rw [heq]
      have : 2 ≤ j := by
        by_contra hlt
        obtain rfl | rfl : j = 0 ∨ j = 1 := by omega
        · omega
        · omega
      have hpow : 2 ^ 2 ≤ 2 ^ j := Nat.pow_le_pow_right (by decide) this
      exact hpow

/-- **Writes stay inside the buffers** exactly if the first one has room for the length. -/
theorem staysInside_iff (S : Sound h own) (hsize : size ≤ 0x80000000) :
    StaysInside h size raw ↔ raw = true ∨ 3 ≤ size := by
  have hlt : size < 0x100000000 := by omega
  rw [← lenSize_le_getSizeOfPow2_iff hsize, StaysInside]
  constructor
  · intro hinside
    cases hcreate : wpacketCreate h size raw with
    | error f =>
      rw [hcreate] at hinside
      exact hinside.elim
    | ok s => exact wpacketCreate_fits S hlt hcreate
  · intro hfits
    obtain ⟨h', w, hcreate, S', B, -⟩ := wpacketCreate_spec S hlt hfits
    rw [hcreate]
    exact rounds_inside S' B

theorem staysInside_raw : StaysInside RefHeap.empty 1 true :=
  (staysInside_iff sound_empty (by decide)).mpr (.inl rfl)

/-- **The length does not fit** into a buffer of one byte. -/
theorem not_staysInside_one : ¬ StaysInside RefHeap.empty 1 false := by
  have hcreate : wpacketCreate RefHeap.empty 1 false = .error .outOfBounds := rfl
  rw [StaysInside, hcreate]
  exact id

/-! ## Writes end -/

theorem Built.dataSize (B : Built cap h w payload) :
    w.dataSize = headerLen w.raw + payload.length ∧ w.dataSize ≤ roomOf cap := by
  obtain ⟨a, ps, b, c, B⟩ := B
  have := B.room
  exact ⟨B.dataSize, by omega⟩

/-- **The loop of `wpacket_write`** ends if there is room for all bytes. -/
theorem wpacketWriteLoop_ends (S : Sound h (w.owned + own)) (B : Built cap h w payload)
    (hroom : w.dataSize + bs.length ≤ roomOf cap) (hfuel : bs.length < fuel) :
    ∃ x, wpacketWriteLoop fuel h w bs = .ok x := by
  induction fuel generalizing h w payload bs with
  | zero => omega
  | succ fuel ih =>
    rw [wpacketWriteLoop]
    split_ifs with hzero
    · exact ⟨_, rfl⟩
    obtain ⟨h₁, w₁, k, hround, hk, S₁, B₁, hraw₁, hprogress, -⟩ := writeRound_spec S B bs
    have hpos : k ≠ 0 := by
      intro hk0
      have := hprogress hk0 (by rintro rfl; exact hzero rfl)
      omega
    have hdata : w₁.dataSize = w.dataSize + k := by
      rw [B.dataSize.1, B₁.dataSize.1, hraw₁, List.length_append, List.length_take_of_le hk, add_assoc]
    rw [hround, Exec.ok_bind]
    refine ih S₁ B₁ ?_ ?_
    · rw [List.length_drop]
      omega
    · rw [List.length_drop]
      omega

/-- A `wpacket_write` ends, after some number of rounds, exactly if there is room for its bytes. -/
theorem wpacketWriteLoop_ends_iff (S : Sound h (w.owned + own)) (B : Built cap h w payload) :
    (∃ rounds x, wpacketWriteLoop rounds h w bs = .ok x) ↔ w.dataSize + bs.length ≤ roomOf cap := by
  constructor
  · rintro ⟨rounds, ⟨h', w'⟩, hrun⟩
    obtain ⟨-, B', hraw⟩ := wpacketWriteLoop_ok S B hrun
    have hle := B'.dataSize.2
    rw [B'.dataSize.1, List.length_append, hraw] at hle
    rw [B.dataSize.1]
    omega
  · intro hroom
    exact ⟨_, wpacketWriteLoop_ends S B hroom (Nat.lt_succ_self _)⟩

theorem wpacketWrite_ends (S : Sound h (w.owned + own)) (B : Built cap h w payload)
    (hroom : w.dataSize + bs.length ≤ roomOf cap) : ∃ x, wpacketWrite h w bs = .ok x := by
  obtain ⟨x, hrun⟩ := wpacketWriteLoop_ends S B hroom (Nat.lt_succ_self _)
  obtain ⟨a, ps, b, c, B⟩ := B
  exact ⟨x, by rw [wpacketWrite, B.writebuf]; exact hrun⟩

theorem wpacketWriteBinary_ends {value : List UInt8} (S : Sound h (w.owned + own))
    (B : Built cap h w payload) (hroom : w.dataSize + (binaryBytes w.raw value size).length ≤ roomOf cap) :
    ∃ x, wpacketWriteBinary h w value size = .ok x := by
  rw [binaryBytes, List.length_append] at hroom
  rw [wpacketWriteBinary]
  split_ifs at hroom ⊢ with hraw
  · exact wpacketWrite_ends S B (by rwa [List.length_nil, zero_add] at hroom)
  · obtain ⟨⟨h₁, w₁⟩, hlen⟩ := wpacketWrite_ends S B
      (show w.dataSize + (toBytes lenSize size).length ≤ roomOf cap by omega)
    obtain ⟨S₁, B₁, hraw₁⟩ := wpacketWrite_ok S B hlen
    rw [wpacketWriteUint32, wpacketWriteUint, show toBytes 4 size = toBytes lenSize size from rfl, hlen,
      Exec.ok_bind]
    refine wpacketWrite_ends S₁ B₁ ?_
    rw [B₁.dataSize.1, hraw₁, List.length_append, ← add_assoc, ← B.dataSize.1, add_assoc]
    exact hroom

/-- **Every call that writes** ends if there is room for its bytes. -/
theorem write_ends (S : Sound h (w.owned + own)) (B : Built cap h w payload) (op : Write)
    (hroom : w.dataSize + (op.bytes w.raw).length ≤ roomOf cap) : ∃ x, write h w op = .ok x := by
  cases op with
  | uint8 value => exact wpacketWrite_ends S B hroom
  | uint16 value => exact wpacketWrite_ends S B hroom
  | uint32 value => exact wpacketWrite_ends S B hroom
  | uint64 value => exact wpacketWrite_ends S B hroom
  | string value =>
    simp only [Write.bytes] at hroom
    simp only [write, wpacketWriteString]
    split_ifs at hroom ⊢ with hraw
    · exact wpacketWriteBinary_ends S B (by rwa [hraw] at *)
    · exact wpacketWriteBinary_ends S B hroom
  | binary value => exact wpacketWriteBinary_ends S B hroom

/-- **A sequence of writes** ends if there is room for all bytes. -/
theorem writeAll_ends (S : Sound h (w.owned + own)) (B : Built cap h w payload)
    (hroom : w.dataSize + (ops.flatMap (Write.bytes w.raw)).length ≤ roomOf cap) :
    ∃ x, writeAll h w ops = .ok x := by
  induction ops generalizing h w payload with
  | nil => exact ⟨_, rfl⟩
  | cons op ops ih =>
    rw [List.flatMap_cons, List.length_append] at hroom
    obtain ⟨⟨h₁, w₁⟩, hop⟩ := write_ends S B op (by omega)
    obtain ⟨S₁, B₁, hraw₁⟩ := write_ok S B op hop
    rw [writeAll, hop, Exec.ok_bind]
    refine ih S₁ B₁ ?_
    rw [B₁.dataSize.1, hraw₁, List.length_append, ← add_assoc, ← B.dataSize.1, add_assoc]
    exact hroom

/-- The calls of `wpacket_write` that write these bytes, one after the other, all end. -/
def CallsEnd : Heap → WPacket → List (List UInt8) → Prop
  | _, _, [] => True
  | h, w, bs :: calls =>
    ∃ rounds h' w', wpacketWriteLoop rounds h w bs = .ok (h', w') ∧ CallsEnd h' w' calls

theorem callsEnd_of_built (S : Sound h (w.owned + own)) (B : Built cap h w payload)
    (hle : w.dataSize ≤ roomOf cap) :
    CallsEnd h w calls ↔ w.dataSize + calls.flatten.length ≤ roomOf cap := by
  induction calls generalizing h w payload with
  | nil => exact iff_of_true trivial hle
  | cons bs calls ih =>
    have hnext : ∀ rounds h' w', wpacketWriteLoop rounds h w bs = .ok (h', w') →
        (CallsEnd h' w' calls ↔ w.dataSize + (bs :: calls).flatten.length ≤ roomOf cap) := by
      intro rounds h' w' hrun
      obtain ⟨S', B', hraw⟩ := wpacketWriteLoop_ok S B hrun
      rw [ih S' B' B'.dataSize.2, B'.dataSize.1, B.dataSize.1, hraw, List.length_append,
        List.flatten_cons, List.length_append]
      simp only [add_assoc]
    rw [CallsEnd]
    constructor
    · rintro ⟨rounds, h', w', hrun, hend⟩
      exact (hnext rounds h' w' hrun).mp hend
    · intro hroom
      have hfirst : w.dataSize + bs.length ≤ roomOf cap := by
        rw [List.flatten_cons, List.length_append] at hroom
        omega
      obtain ⟨rounds, ⟨h', w'⟩, hrun⟩ := (wpacketWriteLoop_ends_iff S B).mpr hfirst
      exact ⟨rounds, h', w', hrun, (hnext rounds h' w' hrun).mpr hroom⟩

/-- The bytes that a packet created with `size` has room for. -/
def packetRoom (size : ℕ) : ℕ :=
  let cap := getSizeOfPow2 size
  if 0 < cap ∧ cap < 0x100 then 0x100 - cap else cap

theorem roomOf_getSizeOfPow2 (hsize : size < 0x100000000) :
    roomOf (getSizeOfPow2 size) = packetRoom size := by
  have hpow : ∀ j < 32, roomOf (2 ^ j) = if 2 ^ j < 0x100 then 0x100 - 2 ^ j else 2 ^ j := by decide
  rw [packetRoom]
  rcases getSizeOfPow2_eq hsize with ⟨hzero, -⟩ | ⟨j, hj, heq, -⟩
  · rw [hzero]
    rfl
  · rw [heq, hpow j hj]
    have : 0 < 2 ^ j := Nat.two_pow_pos j
    simp only [this, true_and]

/-- **The calls that write to a packet end** exactly if there is room for all bytes. -/
theorem callsEnd_iff (S : Sound h own) (hsize : size < 0x100000000)
    (hcreate : wpacketCreate h size raw = .ok (h', w)) :
    CallsEnd h' w calls ↔ headerLen raw + calls.flatten.length ≤ packetRoom size := by
  obtain ⟨S', B, hraw⟩ := wpacketCreate_ok S hsize hcreate
  rw [callsEnd_of_built S' B B.dataSize.2, B.dataSize.1, hraw, List.length_nil, add_zero,
    roomOf_getSizeOfPow2 hsize]

/-- A packet of size 64 has room for 192 bytes, its length included. -/
theorem callsEnd_size_64 : ∃ h w, wpacketCreate RefHeap.empty 64 false = .ok (h, w) ∧
    CallsEnd h w [List.replicate 100 1, [2, 3], List.replicate 86 4] := by
  obtain ⟨⟨h, w⟩, hcreate⟩ :=
    Exec.exists_ok (x := wpacketCreate RefHeap.empty 64 false) (by decide +kernel)
  refine ⟨h, w, hcreate, (callsEnd_iff sound_empty (by decide) hcreate).mpr ?_⟩
  simp only [List.flatten_cons, List.flatten_nil, List.length_append, List.length_replicate]
  decide

/-- **A write that does not end**: `factor` is zero from the start. -/
theorem not_callsEnd_size_256 : ∃ h w, wpacketCreate RefHeap.empty 256 true = .ok (h, w) ∧
    ¬ CallsEnd h w [List.replicate 257 1] := by
  obtain ⟨h, w, hcreate, S, B, hraw⟩ := wpacketCreate_spec sound_empty
    (show 256 < 0x100000000 by decide) (.inl (rfl : true = true))
  refine ⟨h, w, hcreate, fun hend => ?_⟩
  obtain ⟨rounds, h', w', hrun, -⟩ := hend
  have hroom := (wpacketWriteLoop_ends_iff S B).mp ⟨rounds, _, hrun⟩
  rw [roomOf_getSizeOfPow2 (by decide), show packetRoom 256 = 256 from rfl, List.length_replicate] at hroom
  omega

end WPacket

end Kendylib
