import Kendylib.Net.RPacket

/-!
# Packets for writing

The packets of `src/wpacket.c`. A packet made by `wpacket_create` grows by buffers of its own, whose
capacity doubles in the 8-bit counter `factor`; one made from an `rpacket` shares the buffers of
that packet and has no `writebuf`.

A packet that is not raw starts with its length, which every write adds to through the pointer
`len`. The length is stored in the byte order of the machine, the lowest byte first.
-/

namespace Kendylib

/-- A `struct wpacket`; `len` is the place of the length, and `packetSendFinish` tells whether there
is a callback. -/
structure WPacket where
  len : Option (ℕ × ℕ)
  buf : Option ℕ
  writebuf : Option ℕ
  wpos : ℕ
  factor : ℕ
  beginPos : ℕ
  dataSize : ℕ
  raw : Bool
  packetSendFinish : Bool

/-- A `write_pos`. -/
structure WritePos where
  buf : Option ℕ
  wpos : ℕ

namespace WPacket

open RefHeap Buffer RPacket

/-- `is_pow_of_2`. -/
def isPowOf2 (size : ℕ) : Bool := size &&& sub32 size 1 == 0

/-- The loop of `GetK`, which shifts the size away. -/
def getKLoop : ℕ → ℕ → ℕ
  | 0, _ => 0
  | fuel + 1, size => if size > 1 then getKLoop fuel (size >>> 1) + 1 else 0

/-- `GetK`. A word has 32 bits. -/
def getK (size : ℕ) : ℕ :=
  getKLoop 32 (if isPowOf2 size then size else size <<< 1 % 0x100000000)

/-- `GetSize_of_pow2`. -/
def getSizeOfPow2 (size : ℕ) : ℕ :=
  if isPowOf2 size then size
  else
    let size := sub32 size 1
    let size := size ||| size >>> 1
    let size := size ||| size >>> 2
    let size := size ||| size >>> 4
    let size := size ||| size >>> 8
    let size := size ||| size >>> 16
    add32 size 1

/-- Overwrite bytes of a buffer. -/
def storeAt (h : Heap) (p : ℕ × ℕ) (bs : List UInt8) : Exec Heap := do
  let c ← h.get p.1
  h.setBody p.1 (← c.body.store p.2 bs)

/-- Set the `size` of a buffer. -/
def setSize (h : Heap) (a size : ℕ) : Exec Heap := do
  let c ← h.get a
  h.setBody a { c.body with size := size }

/-- The 32-bit number at a place. -/
def loadWord (h : Heap) (p : ℕ × ℕ) : Exec ℕ := do
  let c ← h.get p.1
  return ofBytes (← c.body.load p.2 lenSize)

/-- `wpacket_create`. -/
def wpacketCreate (h : Heap) (size : ℕ) (isRaw : Bool) : Exec (Heap × WPacket) := do
  let size := getSizeOfPow2 size
  let (h, b) ← bufferCreateAndAcquire h size
  let h ← bufferAcquire h none (some b)
  if isRaw then
    let h ← setSize h b 0
    return (h, ⟨none, some b, some b, 0, size % 0x100, 0, 0, true, false⟩)
  else
    let h ← storeAt h (b, 0) (toBytes lenSize 0)
    let h ← setSize h b lenSize
    return (h, ⟨some (b, 0), some b, some b, lenSize, size % 0x100, 0, lenSize, false, false⟩)

/-- `wpacket_create_by_rpacket`. -/
def wpacketCreateByRpacket (h : Heap) (r : RPacket) : Exec (Heap × WPacket) := do
  let h ← bufferAcquire h none r.buf
  return (h, ⟨none, r.buf, none, 0, 0, r.beginPos, if r.raw then r.len else add32 r.len lenSize, r.raw,
    false⟩)

/-- `rpacket_create_by_wpacket`. The cursor is put behind the length: in the first buffer, or in the
next one if the first ends with the length. -/
def rpacketCreateByWpacket (h : Heap) (w : WPacket) : Exec (Heap × RPacket) := do
  let h ← bufferAcquire h none w.buf
  let h ← bufferAcquire h none w.buf
  if w.raw then
    return (h, ⟨w.dataSize, w.beginPos, w.dataSize, 0, w.beginPos, none, w.buf, w.buf, true⟩)
  else
    let len := sub32 w.dataSize lenSize
    let c ← h.get (← Exec.deref w.buf)
    if sub32 c.body.size w.beginPos > lenSize then
      return (h, ⟨len, add32 w.beginPos lenSize, len, 0, w.beginPos, none, w.buf, w.buf, false⟩)
    else
      let h ← bufferAcquire h w.buf c.next
      return (h, ⟨len, lenSize, len, 0, w.beginPos, none, w.buf, c.next, false⟩)

/-- `wpacket_get_writepos`. -/
def wpacketGetWritepos (w : WPacket) : WritePos := ⟨w.writebuf, w.wpos⟩

/-- `wpacket_destroy`. -/
def wpacketDestroy (h : Heap) (w : WPacket) : Exec Heap := do
  let h ← bufferRelease h w.buf
  bufferRelease h w.writebuf

/-- `wpacket_expand`. -/
def wpacketExpand (h : Heap) (w : WPacket) : Exec (Heap × WPacket) := do
  let factor := w.factor * 2 % 0x100
  let a ← Exec.deref w.writebuf
  let (h, b) ← bufferCreateAndAcquire h factor
  let h ← h.setNext a b
  let h ← bufferAcquire h (some a) (some b)
  return (h, { w with factor := factor, writebuf := some b, wpos := 0 })

/-- The loop of `wpacket_copy`: the buffers of the packet one after the other to the memory at
`(tmp, pos)`. -/
def wpacketCopyLoop (tmp : ℕ) : ℕ → Heap → Option ℕ → ℕ → ℕ → Exec Heap
  | 0, _, _, _, _ => .error .fuel
  | _ + 1, h, none, _, _ => .ok h
  | fuel + 1, h, some a, pos, wpos => do
    let c ← h.get a
    let copySize := sub32 c.body.size wpos
    let h ← storeAt h (tmp, pos) (← c.body.load 0 copySize)
    wpacketCopyLoop tmp fuel h c.next (pos + copySize) 0

/-- The part of `wpacket_write` that gives a packet made from an `rpacket` memory of its own. It
reads through `len`, which is null in such a packet. -/
def copyOnWrite (h : Heap) (w : WPacket) : Exec (Heap × WPacket) := do
  let factor := getSizeOfPow2 (← loadWord h (← Exec.deref w.len)) % 0x100
  let (h, tmp) ← bufferCreateAndAcquire h factor
  let h ← wpacketCopyLoop tmp (h.fresh + 1) h w.buf 0 w.wpos
  let h ← bufferAcquire h w.buf (some tmp)
  let h ← bufferAcquire h none (some tmp)
  return (h, { w with
    factor := factor
    beginPos := 0
    len := if w.raw then w.len else some (tmp, 0)
    wpos := if w.raw then 0 else lenSize
    buf := some tmp
    writebuf := some tmp })

/-- One round of the loop of `wpacket_write`: the number of bytes it copies. -/
def writeRound (h : Heap) (w : WPacket) (bs : List UInt8) : Exec (Heap × WPacket × ℕ) := do
  let a ← Exec.deref w.writebuf
  let (h, w) ← (if sub32 (← h.get a).body.capacity w.wpos = 0 then wpacketExpand h w
    else return (h, w))
  let a ← Exec.deref w.writebuf
  let copySize := min (sub32 (← h.get a).body.capacity w.wpos) bs.length
  let h ← storeAt h (a, w.wpos) (bs.take copySize)
  let h ← setSize h a (add32 (← h.get a).body.size copySize)
  let h ← (match w.len with
    | some p => do storeAt h p (toBytes lenSize (add32 (← loadWord h p) copySize))
    | none => .ok h)
  return (h, { w with wpos := add32 w.wpos copySize, dataSize := add32 w.dataSize copySize }, copySize)

/-- The loop of `wpacket_write`. -/
def wpacketWriteLoop : ℕ → Heap → WPacket → List UInt8 → Exec (Heap × WPacket)
  | 0, _, _, _ => .error .fuel
  | fuel + 1, h, w, bs =>
    if bs.length = 0 then .ok (h, w)
    else do
      let (h, w, copySize) ← writeRound h w bs
      wpacketWriteLoop fuel h w (bs.drop copySize)

/-- `wpacket_write`. A round copies a byte unless the capacity of a new buffer is zero; it is then
zero in all later rounds, and the loop does not end. -/
def wpacketWrite (h : Heap) (w : WPacket) (bs : List UInt8) : Exec (Heap × WPacket) := do
  let (h, w) ← (match w.writebuf with
    | some _ => .ok (h, w)
    | none => copyOnWrite h w)
  wpacketWriteLoop (bs.length + 1) h w bs

/-- `wpacket_write_uint8`, `wpacket_write_uint16`, `wpacket_write_uint32` and
`wpacket_write_uint64` for a value of `n` bytes. -/
def wpacketWriteUint (n : ℕ) (h : Heap) (w : WPacket) (value : ℕ) : Exec (Heap × WPacket) :=
  wpacketWrite h w (toBytes n value)

def wpacketWriteUint8 (h : Heap) (w : WPacket) (value : ℕ) : Exec (Heap × WPacket) :=
  wpacketWriteUint 1 h w value

def wpacketWriteUint16 (h : Heap) (w : WPacket) (value : ℕ) : Exec (Heap × WPacket) :=
  wpacketWriteUint 2 h w value

def wpacketWriteUint32 (h : Heap) (w : WPacket) (value : ℕ) : Exec (Heap × WPacket) :=
  wpacketWriteUint 4 h w value

def wpacketWriteUint64 (h : Heap) (w : WPacket) (value : ℕ) : Exec (Heap × WPacket) :=
  wpacketWriteUint 8 h w value

/-- `wpacket_write_binary` for the first `size` bytes at `value`. -/
def wpacketWriteBinary (h : Heap) (w : WPacket) (value : List UInt8) (size : ℕ) :
    Exec (Heap × WPacket) := do
  let (h, w) ← (if w.raw then .ok (h, w) else wpacketWriteUint32 h w size)
  wpacketWrite h w (value.take size)

/-- `wpacket_write_string` for the string `value`, which has no zero byte; it is followed by one in
memory. The length is passed on as a 32-bit number. -/
def wpacketWriteString (h : Heap) (w : WPacket) (value : List UInt8) : Exec (Heap × WPacket) :=
  if w.raw then wpacketWriteBinary h w (value ++ [0]) (value.length % 0x100000000)
  else wpacketWriteBinary h w (value ++ [0]) ((value.length + 1) % 0x100000000)

/-- The loop of `wpacket_rewrite`, at the position `pos` of the buffer of `wp`. It moves `wp` to
another buffer, but not to another position. -/
def wpacketRewriteLoop : ℕ → Heap → WritePos → ℕ → List UInt8 → Exec (Heap × WritePos)
  | 0, _, _, _, _ => .error .fuel
  | fuel + 1, h, wp, pos, bs =>
    if bs.length = 0 then .ok (h, wp)
    else do
      let a ← Exec.deref wp.buf
      let c ← h.get a
      let copySize := min (sub32 c.body.capacity pos) bs.length
      let h ← storeAt h (a, pos) (bs.take copySize)
      let bs := bs.drop copySize
      let pos := add32 pos copySize
      if bs.length ≠ 0 ∧ pos ≥ c.body.capacity then
        match c.next with
        | some n => wpacketRewriteLoop fuel h { wp with buf := some n } 0 bs
        | none => .error .assertion
      else wpacketRewriteLoop fuel h wp pos bs

/-- `wpacket_rewrite`. Every round copies a byte or goes on to the next buffer. -/
def wpacketRewrite (h : Heap) (wp : WritePos) (bs : List UInt8) : Exec (Heap × WritePos) :=
  wpacketRewriteLoop (h.fresh + bs.length + 1) h wp wp.wpos bs

/-- `wpacket_rewrite_uint8`, `wpacket_rewrite_uint16`, `wpacket_rewrite_uint32` and
`wpacket_rewrite_uint64` for a value of `n` bytes. -/
def wpacketRewriteUint (n : ℕ) (h : Heap) (wp : WritePos) (value : ℕ) : Exec (Heap × WritePos) :=
  wpacketRewrite h wp (toBytes n value)

def wpacketRewriteUint8 (h : Heap) (wp : WritePos) (value : ℕ) : Exec (Heap × WritePos) :=
  wpacketRewriteUint 1 h wp value

def wpacketRewriteUint16 (h : Heap) (wp : WritePos) (value : ℕ) : Exec (Heap × WritePos) :=
  wpacketRewriteUint 2 h wp value

def wpacketRewriteUint32 (h : Heap) (wp : WritePos) (value : ℕ) : Exec (Heap × WritePos) :=
  wpacketRewriteUint 4 h wp value

def wpacketRewriteUint64 (h : Heap) (wp : WritePos) (value : ℕ) : Exec (Heap × WritePos) :=
  wpacketRewriteUint 8 h wp value

/-- The calls that write to a packet. -/
inductive Write
  | uint8 (value : UInt8)
  | uint16 (value : UInt16)
  | uint32 (value : UInt32)
  | uint64 (value : UInt64)
  | string (value : List UInt8)
  | binary (value : List UInt8)
  deriving DecidableEq

def write (h : Heap) (w : WPacket) : Write → Exec (Heap × WPacket)
  | .uint8 value => wpacketWriteUint8 h w value.toNat
  | .uint16 value => wpacketWriteUint16 h w value.toNat
  | .uint32 value => wpacketWriteUint32 h w value.toNat
  | .uint64 value => wpacketWriteUint64 h w value.toNat
  | .string value => wpacketWriteString h w value
  | .binary value => wpacketWriteBinary h w value value.length

/-- The references a packet holds. -/
def owned (w : WPacket) : Multiset ℕ := refs w.buf + refs w.writebuf

/-! ## Writing to memory -/

variable {h h' : Heap} {own : Multiset ℕ} {a pos n : ℕ} {bs : List UInt8} {d : Cell Block}

/-- **Overwriting bytes** of a buffer changes these bytes only. -/
theorem storeAt_spec (S : Sound h own) (hd : h.cell a = some d)
    (hn : pos + bs.length ≤ d.body.capacity) :
    ∃ h' buf, storeAt h (a, pos) bs = .ok h' ∧ Sound h' own ∧
      h' = h.put a { d with body := { d.body with buf := buf } } ∧
      (∀ p ∉ places a pos bs.length, byteAt h' p = byteAt h p) ∧
      Bytes h' (places a pos bs.length) bs := by
  have hwf := S.wf a d hd
  have hlen := hwf.length
  set buf := d.body.buf.take pos ++ bs ++ d.body.buf.drop (pos + bs.length) with hbuf
  have hbuflen : buf.length = d.body.capacity := by
    simp only [hbuf, List.length_append, List.length_take, List.length_drop]
    omega
  obtain ⟨h', hset, E, hput⟩ := setBody_spec S.toExact hd { d.body with buf := buf }
  have hself : h'.cell a = some { d with body := { d.body with buf := buf } } := by rw [hput, put_self]
  refine ⟨h', buf, ?_, ⟨E, fun x e he => ?_⟩, hput, fun p hp => ?_, ?_⟩
  · rw [storeAt, get_eq hd, Exec.ok_bind, Block.store, if_pos (by omega), Exec.ok_bind]
    exact hset
  · by_cases hx : x = a
    · subst hx
      rw [hself, Option.some.injEq] at he
      rw [← he]
      exact ⟨hwf.size_le, hbuflen, hwf.lt⟩
    · exact S.wf x e (by rwa [hput, put_of_ne hx] at he)
  · by_cases hx : p.1 = a
    · rw [mem_places, not_and] at hp
      have hp := hp hx
      rw [byteAt, byteAt, hx, hself, hd]
      simp only [Option.bind_some]
      by_cases hlt : p.2 < pos
      · rw [hbuf, List.append_assoc, List.getElem?_append_left (by rw [List.length_take]; omega),
          List.getElem?_take, if_pos hlt]
      · have hge : pos + bs.length ≤ p.2 := by omega
        have hle : (d.body.buf.take pos ++ bs).length ≤ p.2 := by
          rw [List.length_append, List.length_take]
          omega
        rw [hbuf, List.getElem?_append_right hle, List.getElem?_drop, List.length_append,
          List.length_take]
        congr 1
        omega
    · rw [byteAt, byteAt, hput, put_of_ne hx]
  · rw [Bytes]
    apply List.ext_getElem?
    intro i
    simp only [places, List.map_map, List.getElem?_map, Function.comp_def, byteAt, hself,
      Option.bind_some]
    by_cases hi : i < bs.length
    · rw [List.getElem?_range' hi]
      simp only [Option.map_some, one_mul]
      rw [hbuf, List.getElem?_append_left (by rw [List.length_append, List.length_take]; omega),
        List.getElem?_append_right (by rw [List.length_take]; omega), List.length_take,
        show pos + i - min pos d.body.buf.length = i by omega, List.getElem?_eq_getElem hi]
      rfl
    · rw [List.getElem?_eq_none (by simpa using hi), List.getElem?_eq_none (by simpa using hi)]
      rfl

/-- Bytes that have been put into a buffer fit into it. -/
theorem storeAt_fits (S : Sound h own) (hd : h.cell a = some d)
    (hstore : storeAt h (a, pos) bs = .ok h') :
    pos + bs.length ≤ d.body.capacity := by
  rw [storeAt, get_eq hd, Exec.ok_bind, Block.store, (S.wf a d hd).length] at hstore
  by_contra hgt
  rw [if_neg hgt] at hstore
  cases hstore

/-- What a store that has been made has done: `storeAt_spec` without the room. -/
theorem storeAt_ok (S : Sound h own) (hd : h.cell a = some d)
    (hstore : storeAt h (a, pos) bs = .ok h') :
    ∃ buf, Sound h' own ∧ h' = h.put a { d with body := { d.body with buf := buf } } ∧
      (∀ p ∉ places a pos bs.length, byteAt h' p = byteAt h p) ∧
      Bytes h' (places a pos bs.length) bs := by
  obtain ⟨h₁, buf, hstore₁, hrest⟩ := storeAt_spec S hd (storeAt_fits S hd hstore)
  obtain rfl := Except.ok.inj (hstore₁.symm.trans hstore)
  exact ⟨buf, hrest⟩

/-- **Setting the size** of a buffer. -/
theorem setSize_spec (S : Sound h own) (hd : h.cell a = some d) (hn : n ≤ d.body.capacity) :
    ∃ h', setSize h a n = .ok h' ∧ Sound h' own ∧
      h' = h.put a { d with body := { d.body with size := n } } ∧ ∀ p, byteAt h' p = byteAt h p := by
  have hwf := S.wf a d hd
  obtain ⟨h', hset, E, hput⟩ := setBody_spec S.toExact hd { d.body with size := n }
  have hself : h'.cell a = some { d with body := { d.body with size := n } } := by rw [hput, put_self]
  refine ⟨h', ?_, ⟨E, fun x e he => ?_⟩, hput, fun p => ?_⟩
  · rw [setSize, get_eq hd, Exec.ok_bind]
    exact hset
  · by_cases hx : x = a
    · subst hx
      rw [hself, Option.some.injEq] at he
      rw [← he]
      exact ⟨hn, hwf.length, hwf.lt⟩
    · exact S.wf x e (by rwa [hput, put_of_ne hx] at he)
  · by_cases hx : p.1 = a
    · rw [byteAt, byteAt, hx, hself, hd]
      rfl
    · rw [byteAt, byteAt, hput, put_of_ne hx]

end WPacket

end Kendylib
