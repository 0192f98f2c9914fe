import Kendylib.Net.Writing

/-!
# Reading from a packet

A packet that is not raw is read by numbers and by blocks of bytes with their lengths in front. A
block is returned where it lies if it is inside one buffer, and is else copied to memory of the
packet's own, `binbuf`, behind the blocks copied before (`Readable.data`). What is not read yet, and
where it lies, is all that reads depend on (`Readable`).

The address returned is that of memory which the packet keeps: its first buffer, and the buffers
reached from there, are held until it is destroyed.
-/

namespace Kendylib

open RefHeap Buffer

namespace RPacket

variable {h h' : Heap} {own : Multiset ℕ} {r r' : RPacket} {ps : List (ℕ × ℕ)}
  {bs cs data rest : List UInt8} {a b m n k pos : ℕ} {c : Cell Block}
  {raw : Bool}

/-- `bs` are the bytes not read yet of a packet that is not raw. The buffer of its cursor is reached
from its first one, and there is room for them behind what has been copied. -/
structure Reading (h : Heap) (r : RPacket) (own : Multiset ℕ) (bs : List UInt8) : Prop where
  sound : Sound h (r.owned + own)
  unread : Unread h r bs
  notRaw : r.raw = false
  first : ∃ s, r.buf = some s ∧ ∀ a, r.readbuf = some a → Reach h s a
  len : headerSize + r.len < 0x100000000
  room : r.binbufpos + bs.length ≤ r.len
  binbuf : ∀ b, r.binbuf = some b → ∃ c, h.cell b = some c ∧ c.body.size = 0 ∧ c.body.capacity = r.len

/-- `bs` are the bytes not read yet of a packet, raw or not (`raw`), and `ps` are their places. The
buffer of its cursor is reached from its first one, and there is room for the bytes behind what has
been copied. -/
structure Readable (raw : Bool) (h : Heap) (r : RPacket) (own : Multiset ℕ) (ps : List (ℕ × ℕ))
    (bs : List UInt8) : Prop where
  sound : Sound h (r.owned + own)
  unread : UnreadAt h r ps bs
  rawEq : r.raw = raw
  first : ∃ s, r.buf = some s ∧ ∀ a, r.readbuf = some a → Reach h s a
  len : headerSize + r.len < 0x100000000
  room : r.binbufpos + bs.length ≤ r.len
  binbuf : ∀ b, r.binbuf = some b → ∃ c, h.cell b = some c ∧ c.body.size = 0 ∧ c.body.capacity = r.len

theorem reading_iff : Reading h r own bs ↔ ∃ ps, Readable false h r own ps bs := by
  constructor
  · intro R
    obtain ⟨ps, U⟩ := unread_iff.mp R.unread
    exact ⟨ps, R.sound, U, R.notRaw, R.first, R.len, R.room, R.binbuf⟩
  · rintro ⟨ps, R⟩
    exact ⟨R.sound, unread_iff.mpr ⟨ps, R.unread⟩, R.rawEq, R.first, R.len, R.room, R.binbuf⟩

/-- Memory that is in use keeps its bytes. -/
theorem byteAt_of_keeps (K : Keeps h h') (hlive : ∃ c, h'.cell a = some c) :
    byteAt h' (a, n) = byteAt h (a, n) := by
  obtain ⟨c, hc⟩ := hlive
  exact Connection.Keeps.byteAt_eq K hc

theorem Readable.live (R : Readable raw h r own ps bs) (hb : r.binbuf = some b) :
    ∃ c, h.cell b = some c := by
  obtain ⟨c, hc, -⟩ := R.binbuf b hb
  exact ⟨c, hc⟩

/-- The buffer that the cursor was in is kept. -/
theorem Readable.kept (R : Readable raw h r own ps bs) (ha : r.readbuf = some a) (K : Keeps h h')
    (S' : Sound h' (r'.owned + own)) (F : SameFields r r') : ∃ c, h'.cell a = some c := by
  obtain ⟨s, hs, hreach⟩ := R.first
  have hlive : ∃ c, h'.cell s = some c := S'.live (by rw [owned, F]; simp [hs])
  exact S'.reach hlive ((hreach a ha).keepsFrom (K.from S'.toExact hlive))

/-- **Reading goes on** with the cursor moved. -/
theorem Readable.move (R : Readable raw h r own ps bs) (M : Moved h r h' r')
    (S' : Sound h' (refs r'.readbuf + (refs r.buf + refs r.binbuf + own)))
    (U' : UnreadAt h' r' (ps.drop k) (bs.drop k)) : Readable raw h' r' own (ps.drop k) (bs.drop k) := by
  have F := M.fields
  rw [F.owned] at S'
  have hbuf : r'.buf = r.buf := by rw [F]
  have hbin : r'.binbuf = r.binbuf := by rw [F]
  have hlen : r'.len = r.len := by rw [F]
  have hpos : r'.binbufpos = r.binbufpos := by rw [F]
  obtain ⟨s, hs, hreach⟩ := R.first
  have hlive : ∃ c, h'.cell s = some c := S'.live (by rw [owned, hbuf]; simp [hs])
  refine ⟨S', U', by rw [F]; exact R.rawEq, ⟨s, hbuf.trans hs, fun a ha => ?_⟩, hlen ▸ R.len, ?_,
    fun b hb => ?_⟩
  · obtain ⟨a₀, ha₀, hahead⟩ := M.reach a ha
    exact ((hreach a₀ ha₀).trans hahead).keepsFrom (M.keeps.from S'.toExact hlive)
  · have := R.room
    rw [hpos, hlen, List.length_drop]
    omega
  · obtain ⟨c', hc'⟩ := S'.live (show b ∈ r'.owned + own by simp [owned, hb])
    obtain ⟨c, hc, -, hbody⟩ := M.keeps.cell b c' hc'
    obtain ⟨d, hd, hsize, hcap⟩ := R.binbuf b (hbin ▸ hb)
    obtain rfl := Option.some.inj (hd.symm.trans hc)
    exact ⟨c', hc', by rw [hbody, hsize], by rw [hbody, hcap, hlen]⟩

theorem Readable.sound_readbuf (R : Readable raw h r own ps bs) :
    Sound h (refs r.readbuf + (refs r.buf + refs r.binbuf + own)) := by
  rw [← owned_readbuf]
  exact R.sound

/-- The number of bytes that a fixed-width read takes: none if there are fewer. -/
def taken (n : ℕ) (bs : List UInt8) : ℕ := if bs.length < n then 0 else n

/-- **The next bytes are read** as a number, which is zero if there are fewer. -/
theorem Readable.rpacketReadUint (R : Readable raw h r own ps bs) (n : ℕ) :
    ∃ h' r', rpacketReadUint n h r = .ok (h', r', ofBytes (bs.take (taken n bs))) ∧
      Readable raw h' r' own (ps.drop (taken n bs)) (bs.drop (taken n bs)) ∧
      (Settled h r → Settled h' r') := by
  have hremain := R.unread.remain
  rw [taken]
  split_ifs with hfew
  · refine ⟨h, r, ?_, R, id⟩
    rw [RPacket.rpacketReadUint, rpacketRead, if_pos (by omega)]
    rfl
  · obtain ⟨h', r', hread, S', U', M⟩ := rpacketReadUint_spec R.sound_readbuf R.unread (m := n) (by omega)
    exact ⟨h', r', hread, R.move M S' U', M.settled⟩

/-- **A number** is read back. -/
theorem Reading.number {v : ℕ} (R : Reading h r own (toBytes n v ++ bs)) (hv : v < 256 ^ n) :
    ∃ h' r', rpacketReadUint n h r = .ok (h', r', v) ∧ Reading h' r' own bs := by
  obtain ⟨ps, R⟩ := reading_iff.mp R
  obtain ⟨h', r', hread, R', -⟩ := R.rpacketReadUint n
  have htaken : taken n (toBytes n v ++ bs) = n := if_neg (by simp)
  have htake : (toBytes n v ++ bs).take n = toBytes n v := List.take_left' (length_toBytes n v)
  have hdrop : (toBytes n v ++ bs).drop n = bs := List.drop_left' (length_toBytes n v)
  rw [htaken, hdrop] at R'
  rw [htaken, htake, ofBytes_toBytes hv] at hread
  exact ⟨h', r', hread, reading_iff.mpr ⟨_, R'⟩⟩

/-! ## Copied blocks -/

/-- **The memory to copy to** is there, or is created. -/
theorem Readable.acquireBinbuf (R : Readable raw h r own ps bs) :
    ∃ h' r' b, acquireBinbuf h r = .ok (h', r', b) ∧ Readable raw h' r' own ps bs ∧
      r'.binbuf = some b := by
  cases hbin : r.binbuf with
  | some b => exact ⟨h, r, b, by rw [RPacket.acquireBinbuf, hbin], R, hbin⟩
  | none =>
    obtain ⟨h', hnew, S', hself, hne, -⟩ := bufferCreateAndAcquire_spec R.sound R.len
    have hold : ∀ a c, h.cell a = some c → h'.cell a = some c := fun a c hc => by
      rw [hne a (R.sound.bound a c hc).ne, hc]
    have K : ∀ a, KeepsFrom h h' a := fun a x d _ hd => ⟨d, hold x d hd, rfl, rfl⟩
    obtain ⟨a, a', pos', hbuf, hs⟩ := R.unread.span
    obtain ⟨hs', hsame⟩ := hs.grow (.of_keepsFrom (K a)) S'
    obtain ⟨s, hfirst, hreach⟩ := R.first
    have hroom := R.room
    refine ⟨h', { r with binbuf := some h.fresh, binbufpos := 0 }, h.fresh, ?_, ⟨?_,
      ⟨R.unread.remain, R.unread.lt, ⟨a, a', pos', hbuf, hs'⟩, R.unread.bytes.congr hsame⟩,
      R.rawEq, ⟨s, hfirst, fun x hx => (hreach x hx).keepsFrom (K s)⟩, R.len, ?_, fun b hb => ?_⟩, rfl⟩
    · rw [RPacket.acquireBinbuf, hbin]
      simp only [hnew, Exec.ok_bind]
      rfl
    · rw [owned, hbin, refs_none, add_zero, ← Multiset.singleton_add] at S'
      rw [owned, refs_some]
      convert S' using 1
      abel
    · change 0 + bs.length ≤ r.len
      omega
    · obtain rfl := Option.some.inj hb
      exact ⟨_, hself, rfl, rfl⟩

/-- Bytes are put into the memory to copy to, which no cursor is in. -/
theorem Readable.store (R : Readable raw h r own ps bs) (cs : List UInt8) (hbin : r.binbuf = some b)
    (hroom : r.binbufpos + cs.length + bs.length ≤ r.len) :
    ∃ h', WPacket.storeAt h (b, r.binbufpos) cs = .ok h' ∧
      Readable raw h' { r with binbufpos := r.binbufpos + cs.length } own ps bs ∧
      Bytes h' (places b r.binbufpos cs.length) cs ∧
      (∀ i < r.binbufpos, byteAt h' (b, i) = byteAt h (b, i)) ∧ h'.fresh = h.fresh := by
  obtain ⟨c, hc, hsize, hcap⟩ := R.binbuf b hbin
  obtain ⟨h', buf, hstore, S', hput, hother, hnew⟩ := WPacket.storeAt_spec R.sound hc
    (show r.binbufpos + cs.length ≤ c.body.capacity by omega)
  obtain ⟨d, hd⟩ : ∃ d : Cell Block, d = { c with body := { c.body with buf := buf } } := ⟨_, rfl⟩
  rw [← hd] at hput
  have hgrown : Grown c d := by
    rw [hd]
    exact ⟨fun n hn => hn, rfl, le_rfl, fun p hp => by omega⟩
  have G : ∀ a, GrowsFrom h h' a := fun a => hput ▸ .put hc hgrown
  have hnext : ∀ x e, h.cell x = some e → ∃ e', h'.cell x = some e' ∧ e'.next = e.next := by
    intro x e he
    by_cases hx : x = b
    · subst hx
      obtain rfl := Option.some.inj (he.symm.trans hc)
      exact ⟨d, by rw [hput, put_self], by rw [hd]⟩
    · exact ⟨e, by rw [hput, put_of_ne hx, he], rfl⟩
  obtain ⟨a, a', pos', hbuf, hs⟩ := R.unread.span
  obtain ⟨hs', hsame⟩ := hs.grow (G a) S'
  obtain ⟨s, hfirst, hreach⟩ := R.first
  refine ⟨h', hstore, ⟨S', ⟨R.unread.remain, R.unread.lt, ⟨a, a', pos', hbuf, hs'⟩,
    R.unread.bytes.congr hsame⟩, R.rawEq, ⟨s, hfirst, fun x hx => ?_⟩, R.len, hroom, fun b' hb' => ?_⟩,
    hnew, fun i hi => ?_, by rw [hput, put_fresh]⟩
  · have := hreach x hx
    clear hfirst hreach hx
    induction this with
    | refl x => exact .refl x
    | step he hn rest ih =>
      obtain ⟨e', he', hn'⟩ := hnext _ _ he
      exact .step he' (hn'.trans hn) ih
  · obtain rfl := Option.some.inj (hbin.symm.trans hb')
    exact ⟨d, by rw [hput, put_self], by rw [hd]; exact hsize, by rw [hd]; exact hcap⟩
  · exact hother (b, i) (by rw [mem_places]; dsimp only; omega)

theorem binaryLoop_succ (b fuel : ℕ) (h : Heap) (r : RPacket) (size : ℕ) :
    binaryLoop b (fuel + 1) h r size = if size = 0 then .ok (h, r) else
      copyRound h r size >>= fun x => WPacket.storeAt x.1 (b, x.2.1.binbufpos) x.2.2 >>= fun h =>
        binaryLoop b fuel h { x.2.1 with binbufpos := add32 x.2.1.binbufpos x.2.2.length }
          (size - x.2.2.length) := by
  simp only [binaryLoop, WPacket.storeAt, bind_assoc]

/-- **The copying loop** puts the next bytes behind those copied before, which stay. -/
theorem Readable.binaryLoop {fuel : ℕ} (R : Readable raw h r own ps bs) (hbin : r.binbuf = some b)
    (hm : m ≤ bs.length) (hbuf : r.readbuf = some a) (hfuel : h.fresh - a + m < fuel) :
    ∃ h' r', binaryLoop b fuel h r m = .ok (h', r') ∧ Readable raw h' r' own (ps.drop m) (bs.drop m) ∧
      Bytes h' (places b r.binbufpos m) (bs.take m) ∧
      ∀ i < r.binbufpos, byteAt h' (b, i) = byteAt h (b, i) := by
  induction fuel generalizing h r ps bs m a with
  | zero => omega
  | succ fuel ih =>
    rw [binaryLoop_succ]
    by_cases hm0 : m = 0
    · subst hm0
      exact ⟨h, r, if_pos rfl, R, rfl, fun _ _ => rfl⟩
    obtain ⟨k, a₀, a₁, h₁, r₁, hbuf₀, hround, hkm, hbuf₁, hle, hlt, S₁, U₁, M₁⟩ :=
      copyRound_spec R.sound_readbuf R.unread (by omega) hm
    obtain rfl := Option.some.inj (hbuf.symm.trans hbuf₀)
    have R₁ := R.move M₁ S₁ U₁
    have hbin₁ : r₁.binbuf = some b := by
      rw [M₁.fields]
      exact hbin
    have hpos₁ : r₁.binbufpos = r.binbufpos := by rw [M₁.fields]
    have hlen₁ : r₁.len = r.len := by rw [M₁.fields]
    have hk : (bs.take k).length = k := List.length_take_of_le (by omega)
    have hrest : (bs.drop k).length = bs.length - k := List.length_drop
    have hroom := R.room
    have hlen := R.len
    obtain ⟨c₁, hc₁⟩ := R₁.sound.live (show a₁ ∈ r₁.owned + own by simp [owned, hbuf₁])
    have hbound := R₁.sound.bound a₁ c₁ hc₁
    rw [M₁.keeps.fresh] at hbound
    obtain ⟨h₂, hstore, R₂, hnew, hold, hfresh⟩ := R₁.store (bs.take k) hbin₁ (by omega)
    rw [hk, hpos₁] at R₂ hnew
    rw [hpos₁] at hstore hold
    obtain ⟨h', r', hloop, R', hnew', hold'⟩ := ih (m := m - k) R₂ hbin₁ (by omega) hbuf₁
      (by rw [hfresh, M₁.keeps.fresh]; omega)
    refine ⟨h', r', ?_, ?_, ?_, fun i hi => ?_⟩
    · rw [if_neg hm0, hround, Exec.ok_bind]
      simp only [hk, hpos₁, add32_of_lt (show r.binbufpos + k < 0x100000000 by omega), hstore,
        Exec.ok_bind, hloop]
    · rwa [List.drop_drop, List.drop_drop, Nat.add_sub_cancel' hkm] at R'
    · have hfirst := hnew.congr fun p hp => by
        obtain ⟨hp₁, -, hp₂⟩ := mem_places.mp hp
        obtain ⟨x, i⟩ := p
        obtain rfl : x = b := hp₁
        exact hold' i hp₂
      have := hfirst.append hnew'
      rwa [places_append, Nat.add_sub_cancel' hkm, ← List.take_add, Nat.add_sub_cancel' hkm] at this
    · have hkept := byteAt_of_keeps (n := i) M₁.keeps (R₁.live hbin₁)
      rw [hold' i (by dsimp only; omega), hold i hi, hkept]

/-- **A block is copied** to memory of the packet's own. -/
theorem Readable.copyBinary (R : Readable raw h r own ps bs) (hm : m ≤ bs.length) :
    ∃ h' r' p, copyBinary h r m = .ok (h', r', some p) ∧ Readable raw h' r' own (ps.drop m) (bs.drop m) ∧
      Bytes h' (places p.1 p.2 m) (bs.take m) := by
  obtain ⟨h₁, r₁, b, hacq, R₁, hbin⟩ := R.acquireBinbuf
  obtain ⟨a, a', pos', hbuf, -⟩ := R₁.unread.span
  obtain ⟨h', r', hloop, R', hbytes, -⟩ :=
    R₁.binaryLoop hbin hm hbuf (show h₁.fresh - a + m < h₁.fresh + m + 1 by omega)
  refine ⟨h', r', (b, r₁.binbufpos), ?_, R', hbytes⟩
  rw [RPacket.copyBinary, hacq]
  simp only [Exec.ok_bind, hloop]
  rfl

/-! ## Blocks -/

/-- **Data inside the buffer** of the cursor is left where it is. -/
theorem Readable.inside (R : Readable raw h r own ps bs) (hbuf : r.readbuf = some a)
    (hc : h.cell a = some c) (hm : m ≤ bs.length) (hin : m ≤ c.body.size - r.rpos) :
    ∃ h' r', nextBuffer h
        { r with rpos := add32 r.rpos m, dataRemain := sub32 r.dataRemain m } c = .ok (h', r') ∧
      Readable raw h' r' own (ps.drop m) (bs.drop m) ∧
      Bytes h' (places a r.rpos m) (bs.take m) := by
  obtain ⟨a₂, h', r', hnext, -, -, -, S', U', M, hbytes, hpos⟩ :=
    nextBuffer_spec R.sound_readbuf R.unread hbuf hc hm (k := m) (by omega)
  have hsize := (R.sound.wf a c hc).size_le
  have hcap := (R.sound.wf a c hc).lt
  have hlt := R.unread.lt
  have R' := R.move M S' U'
  refine ⟨h', r', ?_, R', hbytes.congr fun p hp => ?_⟩
  · rw [add32_of_lt (by omega), R.unread.remain, sub32_of_le hm hlt]
    exact hnext
  · obtain ⟨x, i⟩ := p
    obtain rfl : x = a := (mem_places.mp hp).1
    exact byteAt_of_keeps M.keeps (R.kept hbuf M.keeps R'.sound M.fields)

/-- The length that a block starts with. -/
def blockLen (bs : List UInt8) : ℕ := ofBytes (bs.take (taken lenSize bs))

/-- What comes behind the length of a block. -/
def afterLen (bs : List UInt8) : List UInt8 := bs.drop (taken lenSize bs)

/-- The next block, if there is anything behind its length and enough of it. -/
def block (bs : List UInt8) : Option (List UInt8) :=
  if (afterLen bs).length = 0 ∨ (afterLen bs).length < blockLen bs then none
  else some ((afterLen bs).take (blockLen bs))

/-- The number of bytes that reading a block takes. -/
def blockTaken (bs : List UInt8) : ℕ := taken lenSize bs + ((block bs).map List.length).getD 0

/-- The data at an address, if there is any. -/
def DataAt (h : Heap) : Option (ℕ × ℕ) → Option (List UInt8) → Prop
  | some p, some data => Bytes h (places p.1 p.2 data.length) data
  | none, none => True
  | some _, none | none, some _ => False

/-- **A block is read**: its length is told, and the address returned is that of its bytes. -/
theorem Readable.block (R : Readable false h r own ps bs) (len : ℕ) :
    ∃ h' r' addr, rpacketReadBinary h r len = .ok (h', r', addr, blockLen bs) ∧
      Readable false h' r' own (ps.drop (blockTaken bs)) (bs.drop (blockTaken bs)) ∧
      DataAt h' addr (block bs) := by
  obtain ⟨h₁, r₁, hnum, R₁, -⟩ := R.rpacketReadUint lenSize
  have hremain := R₁.unread.remain
  obtain ⟨n, hn⟩ : ∃ n, n = blockLen bs := ⟨_, rfl⟩
  rw [blockTaken, RPacket.block, ← List.drop_drop, ← List.drop_drop, ← hn]
  rw [rpacketReadBinary, R.rawEq, if_neg Bool.false_ne_true, rpacketReadUint32]
  change ∃ h' r' addr, (RPacket.rpacketReadUint lenSize h r >>= _) = _ ∧ _
  rw [hnum, Exec.ok_bind, ← blockLen, ← hn]
  rw [← afterLen] at R₁ hremain ⊢
  dsimp only
  rw [hremain]
  by_cases hnone : (afterLen bs).length = 0 ∨ (afterLen bs).length < n
  · rw [if_pos hnone, if_pos hnone]
    exact ⟨h₁, r₁, none, rfl, R₁, trivial⟩
  have hle : n ≤ (afterLen bs).length := by omega
  have htake : ((afterLen bs).take n).length = n := List.length_take_of_le hle
  rw [if_neg hnone, if_neg hnone, Option.map_some, Option.getD_some, htake]
  obtain ⟨a, a', pos', hbuf, hs⟩ := R₁.unread.span
  obtain ⟨c, hc, hpos⟩ := hs.start
  have hsize := (R₁.sound.wf a c hc).size_le
  have hcap := (R₁.sound.wf a c hc).lt
  have hderef : Exec.deref r₁.readbuf = .ok a := by rw [hbuf, Exec.deref_some]
  rw [hderef, Exec.ok_bind, get_eq hc, Exec.ok_bind, sub32_of_le hpos (by omega)]
  by_cases hinside : c.body.size - r₁.rpos ≥ n
  · -- the block is inside the buffer
    rw [if_pos hinside]
    obtain ⟨h', r', hnext, R', hbytes⟩ := R₁.inside hbuf hc hle hinside
    refine ⟨h', r', some (a, r₁.rpos), ?_, R', ?_⟩
    · rw [← hremain, hnext]
      rfl
    · rw [DataAt, htake]
      exact hbytes
  · -- the block goes over the edge of the buffer
    rw [if_neg hinside]
    obtain ⟨h', r', p, hcopy, R', hbytes⟩ := R₁.copyBinary hle
    refine ⟨h', r', some p, ?_, R', ?_⟩
    · rw [hcopy]
      rfl
    · rw [DataAt, htake]
      exact hbytes

/-- The bytes of the packet not read yet are all in the buffer of the cursor. -/
def Together (h : Heap) (r : RPacket) : Prop :=
  ∃ a c, r.readbuf = some a ∧ h.cell a = some c ∧ r.dataRemain ≤ c.body.size - r.rpos

/-- **A raw packet is read** whole: the address returned is that of the bytes not read yet. Their
number is told if they are all in the buffer of the cursor. -/
theorem Readable.rawBlock (R : Readable true h r own ps bs) (len : ℕ) :
    ∃ h' r' addr len', rpacketReadBinary h r len = .ok (h', r', addr, len') ∧
      Readable true h' r' own (ps.drop bs.length) (bs.drop bs.length) ∧
      DataAt h' addr (if bs = [] then none else some bs) ∧
      (bs ≠ [] ∧ Together h r → len' = bs.length) ∧ (¬ (bs ≠ [] ∧ Together h r) → len' = len) := by
  have hremain := R.unread.remain
  rw [rpacketReadBinary, R.rawEq, if_pos rfl, rpacketRawReadBinary, hremain]
  by_cases hnil : bs = []
  · subst hnil
    rw [if_pos (show ([] : List UInt8).length = 0 from rfl)]
    exact ⟨h, r, none, len, rfl, R, trivial, fun h => absurd rfl h.1, fun _ => rfl⟩
  have hpos := List.length_pos_iff.mpr hnil
  obtain ⟨a, a', pos', hbuf, hs⟩ := R.unread.span
  obtain ⟨c, hc, hle⟩ := hs.start
  have hsize := (R.sound.wf a c hc).size_le
  have hcap := (R.sound.wf a c hc).lt
  have hderef : Exec.deref r.readbuf = .ok a := by rw [hbuf, Exec.deref_some]
  have htogether : Together h r ↔ bs.length ≤ c.body.size - r.rpos := by
    rw [Together, hremain]
    constructor
    · rintro ⟨x, d, hx, hd, hin⟩
      obtain rfl := Option.some.inj (hbuf.symm.trans hx)
      obtain rfl := Option.some.inj (hd.symm.trans hc)
      exact hin
    · exact fun hin => ⟨a, c, hbuf, hc, hin⟩
  rw [if_neg (by omega), hderef, Exec.ok_bind, get_eq hc, Exec.ok_bind, sub32_of_le hle (by omega),
    htogether, if_neg hnil]
  by_cases hin : c.body.size - r.rpos ≥ bs.length
  · rw [if_pos hin]
    obtain ⟨hcut, -⟩ := hs.advance hc (m := bs.length) (k := bs.length) R.unread.bytes.length.ge
      (by omega)
    obtain ⟨hb, -⟩ := Bytes.places_append (hcut ▸ R.unread.bytes)
    rw [List.take_length] at hb
    refine ⟨h, { r with dataRemain := 0 }, some (a, r.rpos), bs.length, rfl, ?_, hb, fun _ => rfl,
      fun hout => absurd ⟨hnil, hin⟩ hout⟩
    rw [List.drop_of_length_le R.unread.bytes.length.le, List.drop_length]
    exact ⟨R.sound, ⟨rfl, Nat.zero_lt_of_lt R.unread.lt, ⟨a, a, r.rpos, hbuf, .nil hc hle⟩, rfl⟩,
      R.rawEq, R.first, R.len, (Nat.le_add_right _ _).trans R.room, R.binbuf⟩
  · rw [if_neg hin]
    obtain ⟨h', r', p, hcopy, R', hbytes⟩ := R.copyBinary le_rfl
    rw [List.take_length] at hbytes
    refine ⟨h', r', some p, len, ?_, R', hbytes, fun hin' => absurd hin'.2 hin, fun _ => rfl⟩
    rw [hcopy]
    rfl

/-- A block that has been written, and what follows it. -/
theorem block_append {bs : List UInt8} (hbs : bs = toBytes lenSize data.length ++ (data ++ rest))
    (hdata : data.length < 0x100000000) :
    blockLen bs = data.length ∧ bs.drop (blockTaken bs) = rest ∧ (data ≠ [] → block bs = some data) := by
  have htaken : taken lenSize bs = lenSize := if_neg (by simp [hbs])
  have hlen : blockLen bs = data.length := by
    rw [blockLen, htaken, hbs, List.take_left' (length_toBytes _ _)]
    exact ofBytes_toBytes (by simpa [lenSize])
  have hafter : afterLen bs = data ++ rest := by
    rw [afterLen, htaken, hbs, List.drop_left' (length_toBytes _ _)]
  rw [blockTaken, ← List.drop_drop, ← afterLen, block, hlen, hafter, List.length_append]
  refine ⟨rfl, ?_, fun hne => ?_⟩
  · split_ifs with hnone
    · -- nothing comes after an empty block
      rw [List.eq_nil_of_length_eq_zero (show data.length = 0 by omega)]
      rfl
    · rw [List.take_left' rfl, Option.map_some, Option.getD_some, List.drop_left' rfl]
  · have hpos := List.length_pos_iff.mpr hne
    rw [if_neg (by omega), List.take_left' rfl]

/-- **A block** is read back: its length is told, and the address returned is that of its bytes. -/
theorem Reading.block (R : Reading h r own (toBytes lenSize data.length ++ (data ++ rest)))
    (hdata : data.length < 0x100000000) (len : ℕ) :
    ∃ h' r' addr, rpacketReadBinary h r len = .ok (h', r', addr, data.length) ∧
      Reading h' r' own rest ∧
      (data ≠ [] → ∃ p, addr = some p ∧ Bytes h' (places p.1 p.2 data.length) data) := by
  obtain ⟨ps, R⟩ := reading_iff.mp R
  obtain ⟨hlen, hrest, hblock⟩ := block_append rfl hdata
  obtain ⟨h', r', addr, hread, R', haddr⟩ := R.block len
  rw [hlen] at hread
  rw [hrest] at R'
  refine ⟨h', r', addr, hread, reading_iff.mpr ⟨_, R'⟩, fun hne => ?_⟩
  rw [hblock hne] at haddr
  cases addr with
  | none => exact haddr.elim
  | some p => exact ⟨p, rfl, haddr⟩

open WPacket

/-! ## The packet for reading -/

variable {w : WPacket} {payload : List UInt8} {cap : ℕ} {d : Cell Block}

/-- **`rpacket_create_by_wpacket`** puts the cursor into the first buffer if there is something behind
the length there, and else into the next one. -/
theorem rpacketCreateByWpacket_spec (S : Sound h (w.owned + own)) (B : Building cap h w a ps b c payload)
    (hraw : w.raw = false) (hd : h.cell a = some d) :
    ∃ h' r, rpacketCreateByWpacket h w = .ok (h', r) ∧ Sound h' (r.owned + (w.owned + own)) ∧
      Keeps h h' ∧ r = ⟨payload.length, lenSize, payload.length, 0, 0, none, some a,
        if d.body.size > lenSize then some a else d.next, false⟩ := by
  obtain ⟨h₁, h₂, hacq₁, hacq₂, S₂, K₂⟩ := acquireTwice_spec (o := w.buf) S fun x hx => by
    rw [B.buf, Option.some.injEq] at hx
    exact hx ▸ ⟨d, hd⟩
  obtain ⟨d₂, hd₂⟩ := S₂.live (show a ∈ refs w.buf + (refs w.buf + (w.owned + own)) by simp [B.buf])
  obtain ⟨d₂', hd₂', hn₂, hb₂⟩ := K₂.cell a d₂ hd₂
  obtain rfl := Option.some.inj (hd₂'.symm.trans hd)
  have hlen : sub32 w.dataSize lenSize = payload.length := by
    have hbound := B.dataSize_le
    have := B.dataSize
    rw [hraw] at this
    change w.dataSize = lenSize + _ at this
    rw [sub32_of_le (by omega) (by omega), this, Nat.add_sub_cancel_left]
  have hsize : sub32 d₂.body.size 0 = d₂.body.size := by
    have := (S₂.wf a d₂ hd₂).size_le
    have := (S₂.wf a d₂ hd₂).lt
    rw [sub32_of_le (Nat.zero_le _) (by omega), Nat.sub_zero]
  have hpos : add32 0 lenSize = lenSize := by rw [add32_of_lt (by rw [lenSize]; omega), zero_add]
  have hderef : Exec.deref w.buf = .ok a := by rw [B.buf, Exec.deref_some]
  have hcreate : rpacketCreateByWpacket h w = if d₂.body.size > lenSize
      then .ok (h₂, ⟨payload.length, lenSize, payload.length, 0, 0, none, w.buf, w.buf, false⟩)
      else do
        let h ← bufferAcquire h₂ w.buf d₂.next
        return (h, ⟨payload.length, lenSize, payload.length, 0, 0, none, w.buf, d₂.next, false⟩) := by
    rw [rpacketCreateByWpacket, hacq₁, Exec.ok_bind, hacq₂, Exec.ok_bind, hraw,
      if_neg Bool.false_ne_true, hderef, Exec.ok_bind, get_eq hd₂, Exec.ok_bind, B.beginPos, hsize, hpos,
      hlen]
    rfl
  rw [hcreate, ← B.buf, ← hb₂, ← hn₂]
  split_ifs with hinside
  · refine ⟨h₂, _, rfl, ?_, K₂, rfl⟩
    rw [owned, refs_none, add_zero, add_assoc]
    exact S₂
  · obtain ⟨h', hacq', S', K'⟩ := bufferAcquire_spec S₂ (p := d₂.next) fun x hx =>
      (S₂.next_live hd₂ hx).2
    refine ⟨h', _, by rw [hacq']; rfl, ?_, K₂.trans K', rfl⟩
    rw [owned, refs_none, add_zero, add_comm (refs w.buf), add_assoc]
    exact S'

/-- A raw packet is read from the start of its first buffer on. -/
theorem rpacketCreateByWpacket_raw (S : Sound h (w.owned + own))
    (B : Building cap h w a ps b c payload) (hraw : w.raw = true) :
    ∃ h' r, rpacketCreateByWpacket h w = .ok (h', r) ∧ Sound h' (r.owned + (w.owned + own)) ∧
      Keeps h h' ∧ r = ⟨payload.length, 0, payload.length, 0, 0, none, some a, some a, true⟩ := by
  obtain ⟨d, hd, -⟩ := B.begins
  obtain ⟨h₁, h₂, hacq₁, hacq₂, S₂, K₂⟩ := acquireTwice_spec (o := w.buf) S fun x hx => by
    rw [B.buf, Option.some.injEq] at hx
    exact hx ▸ ⟨d, hd⟩
  have htotal := B.dataSize
  rw [hraw] at htotal
  change w.dataSize = 0 + _ at htotal
  refine ⟨h₂, _, ?_, ?_, K₂, rfl⟩
  · rw [rpacketCreateByWpacket, hacq₁, Exec.ok_bind, hacq₂, Exec.ok_bind, hraw, if_pos rfl, B.beginPos,
      htotal, zero_add, B.buf]
    rfl
  · rw [owned, refs_none, add_zero, add_assoc, ← B.buf]
    exact S₂

/-- **A packet for reading** from the first byte written on, if there is something behind the length
in the first buffer. -/
theorem readable_of_create (S : Sound h (w.owned + own)) (B : Building cap h w a ps b c payload)
    (hd : h.cell a = some d) (hinside : w.raw = false → lenSize < d.body.size) :
    ∃ h' r, rpacketCreateByWpacket h w = .ok (h', r) ∧ Keeps h h' ∧
      r = ⟨payload.length, headerLen w.raw, payload.length, 0, 0, none, some a, some a, w.raw⟩ ∧
      Readable w.raw h' r (w.owned + own) ps payload := by
  obtain ⟨h', r, hcreate, S', K, hr⟩ : ∃ h' r, rpacketCreateByWpacket h w = .ok (h', r) ∧
      Sound h' (r.owned + (w.owned + own)) ∧ Keeps h h' ∧
      r = ⟨payload.length, headerLen w.raw, payload.length, 0, 0, none, some a, some a, w.raw⟩ := by
    cases hraw : w.raw with
    | true => exact rpacketCreateByWpacket_raw S B hraw
    | false =>
      obtain ⟨h', r, hcreate, S', K, hr⟩ := rpacketCreateByWpacket_spec S B hraw hd
      rw [if_pos (hinside hraw)] at hr
      exact ⟨h', r, hcreate, S', K, hr⟩
  have hlive : ∃ c, h'.cell a = some c := S'.live (by simp [hr, owned])
  obtain ⟨hs', hsame⟩ := B.span.grow (.of_keepsFrom (K.from S'.toExact hlive)) S'
  have hbound := B.dataSize_le
  have htotal := B.dataSize
  refine ⟨h', r, hcreate, K, hr, S', ?_, by rw [hr], ⟨a, by rw [hr], fun x hx => ?_⟩, ?_, ?_, ?_⟩
  · exact ⟨by rw [hr], by omega, ⟨a, b, w.wpos, by rw [hr], hr ▸ hs'⟩, B.bytes.congr hsame⟩
  · rw [hr, Option.some.injEq] at hx
    exact hx ▸ .refl a
  · rw [hr, headerSize]
    dsimp only
    omega
  · rw [hr]
    exact (Nat.zero_add _).le
  · simp [hr]

end RPacket

end Kendylib
