import Kendylib.Net.SharedReads

/-!
# A reader made from a writer is a snapshot

A packet for reading that `rpacket_create_by_wpacket` makes shares the buffers of the packet it is
made from, which may be written to further. Reads consult the sizes and links of these buffers, and
writes change them.

What a read returns depends only on the bytes not read yet and their places (`Readable.read`), and a
write leaves both as they are: it fills buffers behind them, and overwrites the length in front of
them (`Snap.write`). So two runs of the same reads, one with writes between them and one without, see
the same (`snapshot`).
-/

namespace Kendylib

open RefHeap Buffer WPacket Connection

namespace RPacket

/-! ## What is seen -/

/-- What a read returns as its caller sees it: a number, or the bytes at an address and their number
if this is told. -/
inductive Seen
  | number (n : ℕ)
  | data (bytes : Option (List (Option UInt8))) (len : Option ℕ)
  deriving DecidableEq

/-- A value seen in the memory `h`, where the data at an address are `n` bytes. -/
def seen (h : Heap) (n : ℕ) : Value → Seen
  | .number v => .number v
  | .data addr len => .data (addr.map fun p => (places p.1 p.2 n).map (byteAt h)) len

/-- The number of bytes of the data that a read has returned: what it has taken from the packet
without the length in front of a block. -/
def dataLen (r r' : RPacket) : ℕ := r.dataRemain - r'.dataRemain - headerLen r.raw

/-- A read of the packet or a write to the one it was made from. -/
inductive SharedOp
  | read (op : Read)
  | write (op : Write)
  deriving DecidableEq

/-- A run of reads with writes between them, beside a run of the reads alone. After each step the
packets have the same length and the same number of bytes left, and each read returns in both runs
and is seen to return the same. The runs end with a write that does not return. -/
def SameAsWithout : Heap × WPacket × RPacket → Heap × RPacket → List SharedOp → Prop
  | (_, _, r), (_, q), [] => rpacketLen r = rpacketLen q ∧ rpacketDataRemain r = rpacketDataRemain q
  | (h, w, r), (g, q), .write op :: ops =>
    (rpacketLen r = rpacketLen q ∧ rpacketDataRemain r = rpacketDataRemain q) ∧
      match write h w op with
      | .ok (h', w') => SameAsWithout (h', w', r) (g, q) ops
      | .error _ => True
  | (h, w, r), (g, q), .read op :: ops =>
    (rpacketLen r = rpacketLen q ∧ rpacketDataRemain r = rpacketDataRemain q) ∧
      match read h r op, read g q op with
      | .ok (h', r', v), .ok (g', q', u) =>
        seen h' (dataLen r r') v = seen g' (dataLen q q') u ∧ SameAsWithout (h', w, r') (g', q') ops
      | _, _ => False

variable {h h' g : Heap} {own : Multiset ℕ} {r r' q : RPacket} {w w' : WPacket}
  {ps : List (ℕ × ℕ)} {bs payload : List UInt8} {a b cap size : ℕ} {raw : Bool} {c d : Cell Block}

/-- The bytes of data that a read returns. -/
def dataOf (raw : Bool) (bs : List UInt8) : Option (List UInt8) :=
  if raw then if bs = [] then none else some bs else block bs

/-- The number of bytes that are told to be there; `together` if they are all in one buffer. -/
def toldLen (raw : Bool) (bs : List UInt8) (together : Prop) [Decidable together] : ℕ :=
  if raw then if bs ≠ [] ∧ together then bs.length else 0 else blockLen bs

/-- What a read is seen to return, by the bytes not read yet. -/
def outcome (raw : Bool) (bs : List UInt8) (together : Prop) [Decidable together] : Read → Seen
  | .uint8 => .number (ofBytes (bs.take (taken 1 bs)))
  | .uint16 => .number (ofBytes (bs.take (taken 2 bs)))
  | .uint32 => .number (ofBytes (bs.take (taken 4 bs)))
  | .uint64 => .number (ofBytes (bs.take (taken 8 bs)))
  | .string => .data ((dataOf raw bs).map (List.map some)) none
  | .binary => .data ((dataOf raw bs).map (List.map some)) (some (toldLen raw bs together))

/-- The number of bytes that a read takes. -/
def readTaken (raw : Bool) (bs : List UInt8) : Read → ℕ
  | .uint8 => taken 1 bs
  | .uint16 => taken 2 bs
  | .uint32 => taken 4 bs
  | .uint64 => taken 8 bs
  | .string | .binary => if raw then bs.length else blockTaken bs

theorem taken_le (n : ℕ) (bs : List UInt8) : taken n bs ≤ bs.length := by
  rw [taken]
  split_ifs with hfew
  · exact Nat.zero_le _
  · omega

theorem blockTaken_le (bs : List UInt8) : blockTaken bs ≤ bs.length := by
  have htaken := taken_le lenSize bs
  have hafter : (afterLen bs).length = bs.length - taken lenSize bs := List.length_drop
  rw [blockTaken, block]
  split_ifs with hnone
  · exact htaken
  · rw [Option.map_some, Option.getD_some, List.length_take]
    omega

/-- If the length of a block cannot be read, the block is empty. -/
theorem block_length {x : List UInt8} (hx : block bs = some x) :
    taken lenSize bs = lenSize ∨ taken lenSize bs = 0 ∧ x.length = 0 := by
  by_cases hfew : bs.length < lenSize
  · have htaken : taken lenSize bs = 0 := if_pos hfew
    rw [block, afterLen, blockLen, htaken] at hx
    split_ifs at hx
    exact .inr ⟨htaken, by rw [← Option.some.inj hx]; rfl⟩
  · exact .inl (if_neg hfew)

/-- The data at an address are seen. -/
theorem seen_data {addr : Option (ℕ × ℕ)} {data : Option (List UInt8)} {n : ℕ} {len : Option ℕ}
    (hdata : DataAt h addr data) (hn : ∀ x, data = some x → n = x.length) :
    seen h n (.data addr len) = .data (data.map (List.map some)) len := by
  cases addr with
  | none =>
    cases data with
    | none => rfl
    | some x => exact hdata.elim
  | some p =>
    cases data with
    | none => exact hdata.elim
    | some x =>
      rw [seen, hn x rfl]
      exact congrArg (fun l => Seen.data (some l) len) hdata

/-- **Binary data** is read. -/
theorem Readable.rpacketReadBinary (R : Readable raw h r own ps bs) {together : Prop}
    [Decidable together] (htogether : raw = true → bs ≠ [] → (Together h r ↔ together)) :
    ∃ h' r' addr len, rpacketReadBinary h r 0 = .ok (h', r', addr, len) ∧
      Readable raw h' r' own (ps.drop (readTaken raw bs .binary)) (bs.drop (readTaken raw bs .binary)) ∧
      (∀ told, seen h' (dataLen r r') (.data addr told) =
        .data ((dataOf raw bs).map (List.map some)) told) ∧ len = toldLen raw bs together ∧
      (raw = true → Settled h' r') := by
  have hremain := R.unread.remain
  have hraw := R.rawEq
  cases raw with
  | false =>
    obtain ⟨h', r', addr, hread, R', haddr⟩ := R.block 0
    have hremain' := R'.unread.remain
    refine ⟨h', r', addr, _, hread, R', fun told => seen_data haddr fun x hx => ?_, rfl, nofun⟩
    have htaken := blockTaken_le bs
    change RPacket.block bs = some x at hx
    rw [blockTaken, hx, Option.map_some, Option.getD_some] at htaken hremain'
    rw [List.length_drop] at hremain'
    rw [dataLen, hremain, hremain', hraw]
    change _ - _ - lenSize = _
    rcases block_length hx with hlen | ⟨hlen, hempty⟩
    · omega
    · omega
  | true =>
    obtain ⟨h', r', addr, len, hread, R', haddr, htold, hkept⟩ := R.rawBlock 0
    have hremain' := R'.unread.remain
    rw [List.length_drop, Nat.sub_self] at hremain'
    refine ⟨h', r', addr, len, hread, R', fun told => seen_data haddr fun x hx => ?_, ?_,
      fun _ a c _ _ => .inl hremain'⟩
    · change (if bs = [] then none else some bs) = some x at hx
      split_ifs at hx with hnil
      obtain rfl := Option.some.inj hx
      rw [dataLen, hremain, hremain', hraw]
      rfl
    · rw [toldLen, if_pos rfl]
      by_cases hnil : bs = []
      · rw [if_neg fun h => h.1 hnil]
        exact hkept fun h => h.1 hnil
      · rw [htogether rfl hnil] at htold hkept
        split_ifs with hcase
        · exact htold hcase
        · exact hkept hcase

/-- **What a read returns** is determined by the bytes not read yet. -/
theorem Readable.read (R : Readable raw h r own ps bs) (op : Read) {together : Prop}
    [Decidable together] (htogether : raw = true → bs ≠ [] → (Together h r ↔ together)) :
    ∃ h' r' v, read h r op = .ok (h', r', v) ∧
      Readable raw h' r' own (ps.drop (readTaken raw bs op)) (bs.drop (readTaken raw bs op)) ∧
      seen h' (dataLen r r') v = outcome raw bs together op ∧
      (raw = true → Settled h r → Settled h' r') := by
  cases op with
  | uint8 =>
    obtain ⟨h', r', hread, R', T⟩ := R.rpacketReadUint 1
    exact ⟨h', r', _, by rw [RPacket.read, rpacketReadUint8, hread]; rfl, R', rfl, fun _ => T⟩
  | uint16 =>
    obtain ⟨h', r', hread, R', T⟩ := R.rpacketReadUint 2
    exact ⟨h', r', _, by rw [RPacket.read, rpacketReadUint16, hread]; rfl, R', rfl, fun _ => T⟩
  | uint32 =>
    obtain ⟨h', r', hread, R', T⟩ := R.rpacketReadUint 4
    exact ⟨h', r', _, by rw [RPacket.read, rpacketReadUint32, hread]; rfl, R', rfl, fun _ => T⟩
  | uint64 =>
    obtain ⟨h', r', hread, R', T⟩ := R.rpacketReadUint 8
    exact ⟨h', r', _, by rw [RPacket.read, rpacketReadUint64, hread]; rfl, R', rfl, fun _ => T⟩
  | string =>
    obtain ⟨h', r', addr, len, hread, R', hseen, -, T⟩ := R.rpacketReadBinary htogether
    exact ⟨h', r', _, by rw [RPacket.read, rpacketReadString, hread]; rfl, R', hseen none,
      fun h _ => T h⟩
  | binary =>
    obtain ⟨h', r', addr, len, hread, R', hseen, hlen, T⟩ := R.rpacketReadBinary htogether
    refine ⟨h', r', _, by rw [RPacket.read, hread]; rfl, R', ?_, fun h _ => T h⟩
    rw [hseen, hlen, outcome]

/-! ## The reader and the writer -/

/-- All bytes left are in the buffer of the cursor exactly if their places are in one buffer. -/
theorem Readable.together_iff (R : Readable raw h r own ps bs) (hsettled : Settled h r)
    (hbuf : r.buf = some a) (T : Tapers h a b) (hb : h.cell b = some c) (hlast : c.next = none)
    (hne : bs ≠ []) : Together h r ↔ ∀ p ∈ ps, ∀ q ∈ ps, p.1 = q.1 := by
  have hremain := R.unread.remain
  have hlen := R.unread.bytes.length
  have hpos := List.length_pos_iff.mpr hne
  obtain ⟨x, a', pos', hx, hs⟩ := R.unread.span
  obtain ⟨d, hd, hle⟩ := hs.start
  constructor
  · rintro ⟨y, e, hy, he, hin⟩
    obtain rfl := Option.some.inj (hx.symm.trans hy)
    obtain rfl := Option.some.inj (hd.symm.trans he)
    obtain ⟨hcut, -⟩ := hs.advance hd (m := bs.length) (k := bs.length) hlen.ge (by omega)
    rw [List.drop_of_length_le hlen.le, List.append_nil] at hcut
    rw [hcut]
    intro p hp q hq
    rw [(mem_places.mp hp).1, (mem_places.mp hq).1]
  · intro hone
    refine ⟨x, d, hx, hd, ?_⟩
    by_contra hout
    obtain ⟨k, hk⟩ : ∃ k, k = min (d.body.size - r.rpos) bs.length := ⟨_, rfl⟩
    obtain ⟨hcut, -, hnext⟩ := hs.advance hd (m := bs.length) hlen.ge hk
    have hrest : (ps.drop k).length = ps.length - k := List.length_drop
    rcases hnext with hnext | ⟨hnil, -⟩ | ⟨hfull, n, hn, hs'⟩
    · omega
    · rw [hnil, List.length_nil] at hrest
      omega
    have hup := R.sound.up x d n hd hn
    obtain ⟨q, hq⟩ := List.exists_mem_of_length_pos (show 0 < (ps.drop k).length by omega)
    have hqn := (hs'.le_of_mem R.sound.toExact q hq).1
    by_cases hk0 : k = 0
    · -- the cursor would be at the end of a buffer without room
      have hzero : d.body.capacity = 0 := by
        rcases hsettled x d hx hd with h0 | h0 | h0 <;> omega
      obtain ⟨s, hs₀, hreach⟩ := R.first
      obtain rfl := Option.some.inj (hs₀.symm.trans hbuf)
      have hnil := (T.of_reach hb hlast (hreach x hx)).span_nil R.sound hb hlast hd hzero hs
      rw [hnil, List.length_nil] at hlen
      omega
    · have hfirst : (x, r.rpos) ∈ ps := by
        rw [hcut]
        exact List.mem_append_left _ (mem_places.mpr ⟨rfl, le_rfl, by dsimp only; omega⟩)
      have := hone _ hfirst q (List.mem_of_mem_drop hq)
      dsimp only at this
      omega

end RPacket

namespace WPacket

variable {h h' : Heap} {own own' : Multiset ℕ} {w : WPacket} {ps : List (ℕ × ℕ)} {payload : List UInt8}
  {a b cap : ℕ} {c : Cell Block}

/-- What is kept of the buffers keeps the packet. -/
theorem Building.keepsFrom (B : Building cap h w a ps b c payload) (K : KeepsFrom h h' a)
    (S' : Sound h' own') : ∃ c', Building cap h' w a ps b c' payload := by
  have G : GrowsFrom h h' a := .of_keepsFrom K
  obtain ⟨hs', hsame⟩ := B.span.grow G S'
  obtain ⟨c', hc', hn, hbody⟩ := K b c B.span.reach B.cell
  refine ⟨c', B.buf, B.writebuf, B.beginPos, B.dataSize, hs', B.bytes.congr hsame, B.header.grow B.span G,
    hc', hn.trans B.last, by rw [hbody, B.size], fun i hge hlt => ?_, by rw [hbody, B.factor],
    by rw [hbody]; exact B.room, B.cap_le, B.begins.grow G, B.tapers.grow G⟩
  rw [hbody] at hlt
  have hclear := B.clear i hge hlt
  rw [byteAt, B.cell, Option.bind_some] at hclear
  rw [byteAt, hc', Option.bind_some, hbody]
  exact hclear

end WPacket

namespace RPacket

variable {h h' g : Heap} {own own₁ own₂ : Multiset ℕ} {r r' q : RPacket} {w w' w₀ : WPacket}
  {ps : List (ℕ × ℕ)} {bs payload : List UInt8} {a b cap size : ℕ} {raw : Bool} {c d : Cell Block}
  {op : Read}

/-- The packet `r` has been made from `w`, which may have been written to since. The bytes `bs` left
in it lie behind the length in front of `w`, and its own memory is apart from the buffers of `w`. -/
structure Snap (own : Multiset ℕ) (raw : Bool) (ps : List (ℕ × ℕ)) (bs : List UInt8) (h : Heap)
    (w : WPacket) (r : RPacket) : Prop where
  readable : Readable raw h r (w.owned + own) ps bs
  building : ∃ cap a qs b c payload, Building cap h w a qs b c payload ∧
    ∃ d, h.cell a = some d ∧ 0 < d.body.size
  rawEq : w.raw = raw
  same : r.buf = w.buf
  apart : ∀ x, r.binbuf = some x → ∀ b, w.writebuf = some b → Apart h b x
  behind : ∀ p ∈ ps, w.front p.1 ≤ p.2
  settled : raw = true → Settled h r

/-- **A read** returns what the bytes left say, and leaves the packet that is written to. -/
theorem Snap.read (W : Snap own raw ps bs h w r) (op : Read) :
    ∃ h' r' v, read h r op = .ok (h', r', v) ∧
      Snap own raw (ps.drop (readTaken raw bs op)) (bs.drop (readTaken raw bs op)) h' w r' ∧
      seen h' (dataLen r r') v = outcome raw bs (∀ p ∈ ps, ∀ q ∈ ps, p.1 = q.1) op ∧ r'.len = r.len := by
  obtain ⟨cap, a, qs, b, c, payload, B, d, hd, hpos⟩ := W.building
  have R := W.readable
  have hlen := R.len
  have htogether : raw = true → bs ≠ [] → (Together h r ↔ ∀ p ∈ ps, ∀ q ∈ ps, p.1 = q.1) :=
    fun hraw => R.together_iff (W.settled hraw) (W.same.trans B.buf) B.tapers B.cell B.last
  obtain ⟨h', r', v, hread, R', hseen, hsettled⟩ := R.read op htogether
  have hb : b ∈ w.owned + own := by simp [WPacket.owned, B.writebuf]
  have ha : a ∈ refs r.buf + (w.owned + own) := by simp [WPacket.owned, B.buf]
  have L := Leaves.read R.sound hb (by rw [headerSize] at hlen; omega)
    (fun x hx => W.apart x hx b B.writebuf) hread
  obtain ⟨d', hd', hn', hsize, -⟩ := L.stays a ha a d (.refl a) hd
  have hbin : r'.binbuf ≠ some a := fun hbin => by
    obtain ⟨e, he, hempty⟩ := (L.binbuf a hbin).empty
    obtain rfl := Option.some.inj (he.symm.trans hd')
    omega
  obtain ⟨c', B'⟩ := B.keepsFrom (L.keepsFrom ha hbin) R'.sound
  refine ⟨h', r', v, hread, ⟨R', ⟨cap, a, qs, b, c', payload, B', d', hd', by omega⟩, W.rawEq,
    L.fields.1.trans W.same, fun x hx y hy => ?_, fun p hp => W.behind p (List.mem_of_mem_drop hp),
    fun hraw => hsettled hraw (W.settled hraw)⟩, hseen, L.fields.2.2.1⟩
  obtain rfl := Option.some.inj (hy.symm.trans B.writebuf)
  exact L.binbuf x hx

/-- **A write** leaves the bytes left where they are. -/
theorem Snap.write {op : Write} (W : Snap own raw ps bs h w r) (hx : write h w op = .ok (h', w')) :
    Snap own raw ps bs h' w' r := by
  obtain ⟨cap, a, qs, b, c, payload, B, d, hd, hpos⟩ := W.building
  have R := W.readable
  have S : Sound h (w.owned + (r.owned + own)) := by
    rw [add_left_comm]
    exact R.sound
  have hbuilt : Built cap h w payload := ⟨a, qs, b, c, B⟩
  obtain ⟨S', ⟨a', qs', b', c', B'⟩, hraw'⟩ := write_ok S hbuilt op hx
  have A := write_appends S hbuilt op hx
  have hlive : ∀ x ∈ r.owned, ∃ e, h'.cell x = some e := fun x hx => S'.live (by simp [hx])
  obtain ⟨x, y, pos', hreadbuf, hs⟩ := R.unread.span
  have hxlive := hlive x (by simp [owned, hreadbuf])
  obtain ⟨hs', hsame⟩ := A.span S S' hxlive hs
  have hfront := A.front
  obtain rfl : a' = a := Option.some.inj (B'.buf.symm.trans (A.buf.trans B.buf))
  have halive := hlive a' (by simp [owned, W.same, B.buf])
  obtain ⟨d', hd', hg, -⟩ := A.grown S S' halive (.refl a') hd
  refine ⟨⟨?_, ⟨R.unread.remain, R.unread.lt, ⟨x, y, pos', hreadbuf, hs'⟩,
      R.unread.bytes.congr fun p hp => hsame p hp (W.behind p hp)⟩, R.rawEq, ?_, R.len, R.room,
      fun z hz => ?_⟩, ⟨cap, a', qs', b', c', _, B', d', hd', hpos.trans_le hg.size⟩,
    hraw'.trans W.rawEq, W.same.trans A.buf.symm, fun z hz u hu => ?_, fun p hp => ?_,
    fun hraw z e hz he => ?_⟩
  · rw [add_left_comm]
    exact S'
  · obtain ⟨s, hs₀, hreach⟩ := R.first
    exact ⟨s, hs₀, fun z hz => A.reach S S' (hlive s (by simp [owned, hs₀])) (hreach z hz)⟩
  · obtain ⟨e, he, hempty, hcap⟩ := R.binbuf z hz
    obtain ⟨e', he', hge, hsize⟩ := A.grown S S' (hlive z (by simp [owned, hz])) (.refl z) he
    have hne : w.writebuf ≠ some z := fun hlast => (W.apart z hz z hlast).ne rfl
    exact ⟨e', he', (hsize hne).trans hempty, hge.capacity.trans hcap⟩
  · have hapart := W.apart z hz b B.writebuf
    obtain ⟨e, he, hempty⟩ := hapart.empty
    have hbound := S.bound z e he
    obtain ⟨e', he', -, hsize⟩ := A.grown S S' (hlive z (by simp [owned, hz])) (.refl z) he
    have hne : w.writebuf ≠ some z := fun hlast => (W.apart z hz z hlast).ne rfl
    refine ⟨⟨e', he', (hsize hne).trans hempty⟩, ?_, A.unlinked z hbound hapart.unlinked⟩
    rintro rfl
    rcases A.writebuf z hu with hsame | hnew
    · exact hne hsame
    · omega
  · rw [hfront]
    exact W.behind p hp
  · obtain rfl := Option.some.inj (hreadbuf.symm.trans hz)
    obtain ⟨e₀, he₀, -⟩ := hs.start
    obtain ⟨e', he', hge, -⟩ := A.grown S S' hxlive (.refl x) he₀
    obtain rfl := Option.some.inj (he'.symm.trans he)
    have hsize := hge.size
    rcases W.settled hraw x e₀ hreadbuf he₀ with h0 | h0 | h0
    · exact .inl h0
    · exact .inr (.inl h0)
    · exact .inr (.inr (by omega))

/-- **Two runs**, one with writes between the reads, see the same. -/
theorem Snap.sameAsWithout {ops : List SharedOp} (W : Snap own₁ raw ps bs h w r)
    (V : Snap own₂ raw ps bs g w₀ q) (hlen : r.len = q.len) : SameAsWithout (h, w, r) (g, q) ops := by
  induction ops generalizing h w r g q ps bs with
  | nil =>
    exact ⟨hlen, W.readable.unread.remain.trans V.readable.unread.remain.symm⟩
  | cons op ops ih =>
    have hremain := W.readable.unread.remain.trans V.readable.unread.remain.symm
    cases op with
    | write op =>
      refine ⟨⟨hlen, hremain⟩, ?_⟩
      cases hx : WPacket.write h w op with
      | error f => trivial
      | ok x =>
        obtain ⟨h', w'⟩ := x
        exact ih (W.write hx) V hlen
    | read op =>
      obtain ⟨h', r', v, hread, W', hseen, hr⟩ := W.read op
      obtain ⟨g', q', u, hread', V', hseen', hq⟩ := V.read op
      refine ⟨⟨hlen, hremain⟩, ?_⟩
      rw [hread, hread']
      exact ⟨hseen.trans hseen'.symm, ih W' V' (by rw [hr, hq, hlen])⟩

/-- **A reader made from a writer is a snapshot**: writes between its reads change nothing that is
seen. The packet holds at least one byte behind the length, in its first buffer if it is not raw. -/
theorem snapshot {h₁ h₂ : Heap} {w₁ : WPacket} {ops : List Write} (S : Sound h own)
    (hsize : size < 0x100000000) (hcreate : wpacketCreate h size raw = .ok (h₁, w₁))
    (hrun : writeAll h₁ w₁ ops = .ok (h₂, w)) (hbyte : headerLen raw < w.dataSize)
    (hfirst : raw = false → ∀ a c, w.buf = some a → h₂.cell a = some c → lenSize < c.body.size)
    (steps : List SharedOp) :
    ∃ h' r, rpacketCreateByWpacket h₂ w = .ok (h', r) ∧ SameAsWithout (h', w, r) (h', r) steps := by
  obtain ⟨S₁, B₁, hraw₁⟩ := wpacketCreate_ok S hsize hcreate
  obtain ⟨S₂, B₂, hraw₂⟩ := writeAll_ok S₁ B₁ hrun
  obtain ⟨payload, hpayload⟩ : ∃ payload, payload = [] ++ ops.flatMap (Write.bytes w₁.raw) := ⟨_, rfl⟩
  rw [← hpayload] at B₂
  obtain ⟨a, ps, b, c, B⟩ := B₂
  have hraw : w.raw = raw := hraw₂.trans hraw₁
  obtain ⟨d, hd, -⟩ := B.begins
  have htotal := B.dataSize
  have hlen := B.bytes.length
  rw [hraw] at htotal
  obtain ⟨h', r, hcreate', K, hr, R⟩ :=
    readable_of_create S₂ B hd fun hraw' => hfirst (hraw.symm.trans hraw') a d B.buf hd
  have hpos : 0 < d.body.size := by
    cases raw with
    | false => exact Nat.zero_lt_of_lt (hfirst rfl a d B.buf hd)
    | true =>
      have hs := B.span
      rw [hraw] at hs
      refine hs.start_lt hd (Nat.pos_of_ne_zero fun hzero => ?_) (by omega)
      have hnil := B.tapers.span_nil S₂ B.cell B.last hd hzero hs
      rw [hnil, List.length_nil] at hlen
      omega
  have KF : KeepsFrom h₂ h' a := K.from R.sound.toExact (R.sound.live (by simp [hr, owned]))
  obtain ⟨c', B'⟩ := B.keepsFrom KF R.sound
  obtain ⟨d', hd', -, hbody⟩ := KF a d (.refl a) hd
  rw [hraw] at R
  have W : Snap own raw ps payload h' w r := by
    refine ⟨R, ⟨_, a, ps, b, c', payload, B', d', hd', by rw [hbody]; exact hpos⟩, hraw, by rw [hr, B.buf],
      by simp [hr], fun p hp => ?_, fun hraw' x e _ _ => .inr (.inl ?_)⟩
    · rw [front]
      split_ifs with hfront
      · exact (B.span.le_of_mem S₂.toExact p hp).2 (Option.some.inj (B.buf.symm.trans hfront)).symm
      · exact Nat.zero_le _
    · rw [hr, hraw, hraw']
      rfl
  exact ⟨h', r, hcreate', W.sameAsWithout W rfl⟩

/-- Reads across the edges of buffers, with a write that goes on in a new one between them. -/
theorem snapshot_three_buffers : ∃ h₁ w₁ h₂ w, wpacketCreate RefHeap.empty 8 false = .ok (h₁, w₁) ∧
    writeAll h₁ w₁ [.uint32 7, .string [104, 105], .uint64 5] = .ok (h₂, w) ∧
      ∃ h' r, rpacketCreateByWpacket h₂ w = .ok (h', r) ∧ SameAsWithout (h', w, r) (h', r)
        [.read .uint32, .write (.binary [1, 2, 3, 4, 5, 6, 7, 8, 9]), .read .string, .read .uint64] := by
  obtain ⟨⟨⟨h₁, w₁⟩, ⟨h₂, w⟩⟩, hrun⟩ := Exec.exists_ok (x := do
    let s ← wpacketCreate RefHeap.empty 8 false
    let t ← writeAll s.1 s.2 [.uint32 7, .string [104, 105], .uint64 5]
    if headerLen false < t.2.dataSize ∧ ∀ a ∈ t.2.buf, ∀ c ∈ t.1.cell a, lenSize < c.body.size then
      return (s, t)
    else .error .fuel) (by decide +kernel)
  obtain ⟨s, hcreate, hrun⟩ := Exec.bind_eq_ok.mp hrun
  obtain ⟨t, hwrite, hrun⟩ := Exec.bind_eq_ok.mp hrun
  split_ifs at hrun with hcond
  cases hrun
  exact ⟨h₁, w₁, h₂, w, hcreate, hwrite, snapshot sound_empty (by decide) hcreate hwrite hcond.1
    (fun _ a c ha hc => hcond.2 a ha c hc) _⟩

end RPacket

end Kendylib
