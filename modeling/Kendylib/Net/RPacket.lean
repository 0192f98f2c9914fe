import Kendylib.Net.Buffer

/-!
# Packets for reading

The packets of `src/rpacket.c`: a cursor (`readbuf`, `rpos`) into a chain of buffers and the number
of bytes not read yet.

A read copies the bytes from the cursor on (`rpacketRead_spec`), wherever the edges of the buffers
are, as long as the cursor is at the packet's first unread byte (`Unread`).
-/

namespace Kendylib

/-- A `struct rpacket`. -/
structure RPacket where
  len : ℕ
  rpos : ℕ
  dataRemain : ℕ
  binbufpos : ℕ
  beginPos : ℕ
  binbuf : Option ℕ
  buf : Option ℕ
  readbuf : Option ℕ
  raw : Bool

namespace RPacket

open RefHeap Buffer

/-- `sizeof(r->len)`. -/
def lenSize : ℕ := 4

/-- `rpacket_create`. -/
def rpacketCreate (h : Heap) (b : Option ℕ) (pos pkLen : ℕ) (isRaw : Bool) :
    Exec (Heap × RPacket) := do
  let h ← bufferAcquire h none b
  let h ← bufferAcquire h none b
  return (h, {
    len := pkLen
    rpos := if isRaw then pos else add32 pos lenSize
    dataRemain := pkLen
    binbufpos := 0
    beginPos := pos
    binbuf := none
    buf := b
    readbuf := b
    raw := isRaw })

/-- `rpacket_destroy`. -/
def rpacketDestroy (h : Heap) (r : RPacket) : Exec Heap := do
  let h ← bufferRelease h r.buf
  let h ← bufferRelease h r.readbuf
  bufferRelease h r.binbuf

def rpacketLen (r : RPacket) : ℕ := r.len

def rpacketDataRemain (r : RPacket) : ℕ := r.dataRemain

/-- Go on to the next buffer when the current one has been read and data remains. -/
def nextBuffer (h : Heap) (r : RPacket) (c : Cell Block) : Exec (Heap × RPacket) :=
  if r.rpos ≥ c.body.size ∧ r.dataRemain ≠ 0 then do
    let h ← bufferAcquire h r.readbuf c.next
    return (h, { r with rpos := 0, readbuf := c.next })
  else .ok (h, r)

/-- One round of the copying loops of `rpacket_read` and `rpacket_read_binary`, for `size` bytes at
most. -/
def copyRound (h : Heap) (r : RPacket) (size : ℕ) : Exec (Heap × RPacket × List UInt8) := do
  let c ← h.get (← Exec.deref r.readbuf)
  let copySize := min (sub32 c.body.size r.rpos) size
  let bytes ← c.body.load r.rpos copySize
  let r := { r with rpos := add32 r.rpos copySize, dataRemain := sub32 r.dataRemain copySize }
  let (h, r) ← nextBuffer h r c
  return (h, r, bytes)

/-- The loop of `rpacket_read`. -/
def rpacketReadLoop : ℕ → Heap → RPacket → ℕ → Exec (Heap × RPacket × List UInt8)
  | 0, _, _, _ => .error .fuel
  | fuel + 1, h, r, size =>
    if size = 0 then .ok (h, r, [])
    else do
      let (h, r, bytes) ← copyRound h r size
      let (h, r, out) ← rpacketReadLoop fuel h r (size - bytes.length)
      return (h, r, bytes ++ out)

/-- `rpacket_read`: nothing is copied if fewer bytes remain. Every round but the last copies a byte
or goes on to the next buffer. -/
def rpacketRead (h : Heap) (r : RPacket) (size : ℕ) : Exec (Heap × RPacket × List UInt8) :=
  if r.dataRemain < size then .ok (h, r, [])
  else rpacketReadLoop (h.fresh + size + 1) h r size

/-- `rpacket_read_uint8`, `rpacket_read_uint16`, `rpacket_read_uint32` and `rpacket_read_uint64`
for a value of `w` bytes, which is `0` if the read fails. -/
def rpacketReadUint (w : ℕ) (h : Heap) (r : RPacket) : Exec (Heap × RPacket × ℕ) := do
  let (h, r, out) ← rpacketRead h r w
  return (h, r, ofBytes out)

def rpacketReadUint8 (h : Heap) (r : RPacket) : Exec (Heap × RPacket × ℕ) := rpacketReadUint 1 h r

def rpacketReadUint16 (h : Heap) (r : RPacket) : Exec (Heap × RPacket × ℕ) := rpacketReadUint 2 h r

def rpacketReadUint32 (h : Heap) (r : RPacket) : Exec (Heap × RPacket × ℕ) := rpacketReadUint 4 h r

def rpacketReadUint64 (h : Heap) (r : RPacket) : Exec (Heap × RPacket × ℕ) := rpacketReadUint 8 h r

/-- The memory that data across the edge of a buffer is copied to; it is created for the whole
packet. -/
def acquireBinbuf (h : Heap) (r : RPacket) : Exec (Heap × RPacket × ℕ) :=
  match r.binbuf with
  | some b => .ok (h, r, b)
  | none => do
    let (h, b) ← bufferCreateAndAcquire h r.len
    return (h, { r with binbuf := some b, binbufpos := 0 }, b)

/-- The copying loop of `rpacket_read_binary` and `rpacket_raw_read_binary`, to the buffer `b`. -/
def binaryLoop (b : ℕ) : ℕ → Heap → RPacket → ℕ → Exec (Heap × RPacket)
  | 0, _, _, _ => .error .fuel
  | fuel + 1, h, r, size =>
    if size = 0 then .ok (h, r)
    else do
      let (h, r, bytes) ← copyRound h r size
      let c ← h.get b
      let h ← h.setBody b (← c.body.store r.binbufpos bytes)
      let r := { r with binbufpos := add32 r.binbufpos bytes.length }
      binaryLoop b fuel h r (size - bytes.length)

/-- Copy the next `size` bytes to `binbuf`: the place they are copied to. -/
def copyBinary (h : Heap) (r : RPacket) (size : ℕ) : Exec (Heap × RPacket × Option (ℕ × ℕ)) := do
  let (h, r, b) ← acquireBinbuf h r
  let addr := (b, r.binbufpos)
  let (h, r) ← binaryLoop b (h.fresh + size + 1) h r size
  return (h, r, some addr)

/-- `rpacket_raw_read_binary`: the address returned and `*len`, which was `len` before. It is left as
it was if the data is copied, and `rpos` is moved by `data_remain` when this is `0` already. -/
def rpacketRawReadBinary (h : Heap) (r : RPacket) (len : ℕ) :
    Exec (Heap × RPacket × Option (ℕ × ℕ) × ℕ) :=
  if r.dataRemain = 0 then .ok (h, r, none, len)
  else do
    let a ← Exec.deref r.readbuf
    let c ← h.get a
    if sub32 c.body.size r.rpos ≥ r.dataRemain then
      return (h, { r with dataRemain := 0 }, some (a, r.rpos), r.dataRemain)
    else
      let (h, r, addr) ← copyBinary h r r.dataRemain
      return (h, r, addr, len)

/-- `rpacket_read_binary`: the address returned and `*len`, which was `len` before. -/
def rpacketReadBinary (h : Heap) (r : RPacket) (len : ℕ) :
    Exec (Heap × RPacket × Option (ℕ × ℕ) × ℕ) :=
  if r.raw then rpacketRawReadBinary h r len
  else do
    let (h, r, size) ← rpacketReadUint32 h r
    if r.dataRemain = 0 ∨ r.dataRemain < size then return (h, r, none, size)
    else
      let a ← Exec.deref r.readbuf
      let c ← h.get a
      if sub32 c.body.size r.rpos ≥ size then
        let addr := (a, r.rpos)
        let r := { r with rpos := add32 r.rpos size, dataRemain := sub32 r.dataRemain size }
        let (h, r) ← nextBuffer h r c
        return (h, r, some addr, size)
      else
        let (h, r, addr) ← copyBinary h r size
        return (h, r, addr, size)

/-- `rpacket_read_string`. -/
def rpacketReadString (h : Heap) (r : RPacket) : Exec (Heap × RPacket × Option (ℕ × ℕ)) := do
  let (h, r, addr, _) ← rpacketReadBinary h r 0
  return (h, r, addr)

/-- The calls that read from a packet. -/
inductive Read
  | uint8
  | uint16
  | uint32
  | uint64
  | string
  | binary
  deriving DecidableEq

/-- What a read returns: a number, or the address of data and its length if this is told. -/
inductive Value
  | number (n : ℕ)
  | data (addr : Option (ℕ × ℕ)) (len : Option ℕ)
  deriving DecidableEq

def read (h : Heap) (r : RPacket) : Read → Exec (Heap × RPacket × Value)
  | .uint8 => do
    let (h, r, n) ← rpacketReadUint8 h r
    return (h, r, .number n)
  | .uint16 => do
    let (h, r, n) ← rpacketReadUint16 h r
    return (h, r, .number n)
  | .uint32 => do
    let (h, r, n) ← rpacketReadUint32 h r
    return (h, r, .number n)
  | .uint64 => do
    let (h, r, n) ← rpacketReadUint64 h r
    return (h, r, .number n)
  | .string => do
    let (h, r, addr) ← rpacketReadString h r
    return (h, r, .data addr none)
  | .binary => do
    let (h, r, addr, len) ← rpacketReadBinary h r 0
    return (h, r, .data addr (some len))

variable {h h' : Heap} {own : Multiset ℕ} {r r' : RPacket} {ps : List (ℕ × ℕ)} {bs : List UInt8}
  {a pos n m : ℕ}

/-- The references a packet holds. -/
def owned (r : RPacket) : Multiset ℕ := refs r.buf + refs r.readbuf + refs r.binbuf

theorem owned_readbuf (r : RPacket) (own : Multiset ℕ) :
    r.owned + own = refs r.readbuf + (refs r.buf + refs r.binbuf + own) := by
  rw [owned]
  abel

/-- `bs` are the bytes of the packet not read yet. -/
structure Unread (h : Heap) (r : RPacket) (bs : List UInt8) : Prop where
  remain : r.dataRemain = bs.length
  lt : bs.length < 0x100000000
  span : ∃ a ps a' pos', r.readbuf = some a ∧ Span h a r.rpos ps a' pos' ∧ Bytes h ps bs

/-- `bs` are the bytes of the packet not read yet, and `ps` are their places. -/
structure UnreadAt (h : Heap) (r : RPacket) (ps : List (ℕ × ℕ)) (bs : List UInt8) : Prop where
  remain : r.dataRemain = bs.length
  lt : bs.length < 0x100000000
  span : ∃ a a' pos', r.readbuf = some a ∧ Span h a r.rpos ps a' pos'
  bytes : Bytes h ps bs

theorem unread_iff : Unread h r bs ↔ ∃ ps, UnreadAt h r ps bs := by
  constructor
  · rintro ⟨hremain, hlt, a, ps, a', pos', hbuf, hs, hb⟩
    exact ⟨ps, hremain, hlt, ⟨a, a', pos', hbuf, hs⟩, hb⟩
  · rintro ⟨ps, hremain, hlt, ⟨a, a', pos', hbuf, hs⟩, hb⟩
    exact ⟨hremain, hlt, a, ps, a', pos', hbuf, hs, hb⟩

/-- The packet with its cursor moved. -/
def SameFields (r r' : RPacket) : Prop :=
  r' = { r with readbuf := r'.readbuf, rpos := r'.rpos, dataRemain := r'.dataRemain }

theorem SameFields.refl (r : RPacket) : SameFields r r := rfl

theorem SameFields.trans {r₁ r₂ r₃ : RPacket} (h₁₂ : SameFields r₁ r₂) (h₂₃ : SameFields r₂ r₃) :
    SameFields r₁ r₃ := by
  rw [SameFields, h₂₃, h₁₂]

theorem SameFields.owned (F : SameFields r r') (own : Multiset ℕ) :
    refs r'.readbuf + (refs r.buf + refs r.binbuf + own) = r'.owned + own := by
  rw [owned_readbuf, F]

/-- While data remains the cursor is not at the end of its buffer, unless it is at the start too. -/
def Settled (h : Heap) (r : RPacket) : Prop :=
  ∀ a c, r.readbuf = some a → h.cell a = some c →
    r.dataRemain = 0 ∨ r.rpos = 0 ∨ r.rpos < c.body.size

/-- The cursor has been moved along the chain. -/
structure Moved (h : Heap) (r : RPacket) (h' : Heap) (r' : RPacket) : Prop where
  keeps : Keeps h h'
  fields : SameFields r r'
  reach : ∀ a', r'.readbuf = some a' → ∃ a, r.readbuf = some a ∧ Reach h a a'
  settled : Settled h r → Settled h' r'

theorem Moved.refl (h : Heap) (r : RPacket) : Moved h r h r :=
  ⟨.refl h, .refl r, fun a ha => ⟨a, ha, .refl a⟩, id⟩

theorem Moved.trans {h₁ h₂ h₃ : Heap} {r₁ r₂ r₃ : RPacket} (M₁₂ : Moved h₁ r₁ h₂ r₂)
    (M₂₃ : Moved h₂ r₂ h₃ r₃) : Moved h₁ r₁ h₃ r₃ := by
  refine ⟨M₁₂.keeps.trans M₂₃.keeps, M₁₂.fields.trans M₂₃.fields, fun a₃ ha₃ => ?_,
    fun h => M₂₃.settled (M₁₂.settled h)⟩
  obtain ⟨a₂, ha₂, hreach₂₃⟩ := M₂₃.reach a₃ ha₃
  obtain ⟨a₁, ha₁, hreach₁₂⟩ := M₁₂.reach a₂ ha₂
  exact ⟨a₁, ha₁, hreach₁₂.trans (hreach₂₃.of_keeps M₁₂.keeps)⟩

/-- **Moving the cursor** past the next `k` bytes, which are in its buffer. -/
theorem nextBuffer_spec {c : Cell Block} {k : ℕ} (S : Sound h (refs r.readbuf + own))
    (U : UnreadAt h r ps bs) (hbuf : r.readbuf = some a) (hc : h.cell a = some c) (hlen : m ≤ bs.length)
    (hk : k = min (c.body.size - r.rpos) m) :
    ∃ a' h' r', nextBuffer h { r with rpos := r.rpos + k, dataRemain := bs.length - k } c =
        .ok (h', r') ∧
      r'.readbuf = some a' ∧ a ≤ a' ∧ (k = 0 → 0 < m → a < a') ∧
      Sound h' (refs r'.readbuf + own) ∧ UnreadAt h' r' (ps.drop k) (bs.drop k) ∧ Moved h r h' r' ∧
      Bytes h (places a r.rpos k) (bs.take k) ∧ r.rpos ≤ c.body.size := by
  obtain ⟨hremain, hlt, ⟨b, a', pos', hbuf', hs⟩, hb⟩ := U
  obtain rfl := Option.some.inj (hbuf'.symm.trans hbuf)
  obtain ⟨d, hd, hpos⟩ := hs.start
  obtain rfl := Option.some.inj (hd.symm.trans hc)
  have hps := hb.length
  obtain ⟨hcut, hs', hnext⟩ := hs.advance hc (by omega) hk
  obtain ⟨hfirst, hb'⟩ := Bytes.places_append (hcut ▸ hb)
  have hrest : (bs.drop k).length = bs.length - k := List.length_drop
  set r₁ : RPacket := { r with rpos := r.rpos + k, dataRemain := bs.length - k } with hr₁
  rw [nextBuffer]
  by_cases hmove : r₁.rpos ≥ d.body.size ∧ r₁.dataRemain ≠ 0
  · obtain ⟨hend, hmore⟩ := hmove
    rcases hnext with hnext | ⟨hnil, -⟩ | ⟨-, n, hn, hs''⟩
    · have : r.rpos + k ≥ d.body.size := hend
      omega
    · have hzero := hb'.length
      rw [hnil, hrest] at hzero
      exact absurd hzero.symm hmore
    · obtain ⟨hup, hlive⟩ := S.next_live hc hn
      obtain ⟨h', hacq, S', K⟩ := bufferAcquire_spec S (p := d.next) fun b hb => by
        rw [hn, Option.some.injEq] at hb
        exact hb ▸ hlive
      rw [if_pos ⟨hend, hmore⟩]
      refine ⟨n, h', { r₁ with rpos := 0, readbuf := d.next }, ?_, hn, hup.le, fun _ _ => hup, S', ?_,
        ⟨K, rfl, fun x hx => ⟨b, hbuf, .step hc hx (.refl x)⟩, fun _ _ _ _ _ => .inr (.inl rfl)⟩,
        hfirst, hpos⟩
      · rw [show r₁.readbuf = r.readbuf from rfl, hacq]
        rfl
      · have hlive' : ∃ e, h'.cell n = some e := S'.live (by rw [hn]; simp)
        obtain ⟨hs₃, hsame⟩ := hs''.grow (.of_keepsFrom (K.from S'.toExact hlive')) S'
        exact ⟨hrest.symm, by omega, ⟨n, a', pos', hn, hs₃⟩, hb'.congr hsame⟩
  · rw [if_neg hmove]
    refine ⟨b, h, r₁, rfl, hbuf, le_rfl, fun hk0 hm => ?_, S, ?_,
      ⟨.refl h, rfl, fun x hx => ⟨x, hx, .refl x⟩, fun _ x e hx he => ?_⟩, hfirst, hpos⟩
    · refine absurd ⟨?_, ?_⟩ hmove
      · change r.rpos + k ≥ _
        omega
      · change bs.length - k ≠ 0
        omega
    · exact ⟨hrest.symm, by omega, ⟨b, a', pos', hbuf, hs'⟩, hb'⟩
    · obtain rfl := Option.some.inj (hbuf.symm.trans hx)
      obtain rfl := Option.some.inj (hd.symm.trans he)
      rw [not_and_or, not_not] at hmove
      omega

/-- **One round of copying.** A round that copies nothing goes on to the next buffer. -/
theorem copyRound_spec (S : Sound h (refs r.readbuf + own)) (U : UnreadAt h r ps bs) (hm : 0 < m)
    (hlen : m ≤ bs.length) :
    ∃ k a a' h' r', r.readbuf = some a ∧ copyRound h r m = .ok (h', r', bs.take k) ∧ k ≤ m ∧
      r'.readbuf = some a' ∧ a ≤ a' ∧ (k = 0 → a < a') ∧
      Sound h' (refs r'.readbuf + own) ∧ UnreadAt h' r' (ps.drop k) (bs.drop k) ∧ Moved h r h' r' := by
  obtain ⟨a, b, pos', hbuf, hs⟩ := U.span
  obtain ⟨c, hc, -⟩ := hs.start
  have hremain := U.remain
  have hlt := U.lt
  have hwf := S.wf a c hc
  have hsize := hwf.size_le
  have hcap := hwf.lt
  obtain ⟨k, hk⟩ : ∃ k, k = min (c.body.size - r.rpos) m := ⟨_, rfl⟩
  obtain ⟨a', h', r', hnext, hbuf', hle, hup, S', U', M, hfirst, hpos⟩ :=
    nextBuffer_spec S U hbuf hc hlen hk
  have hload := Span.load S hc (show r.rpos + k ≤ c.body.size by omega)
    (show Bytes h (places a r.rpos k ++ []) (bs.take k) by rwa [List.append_nil])
  rw [List.take_of_length_le (List.length_take_le _ _)] at hload
  have hderef : Exec.deref r.readbuf = .ok a := by rw [hbuf, Exec.deref_some]
  refine ⟨k, a, a', h', r', hbuf, ?_, by omega, hbuf', hle, fun hk0 => hup hk0 hm, S', U', M⟩
  rw [copyRound]
  simp only [hderef, Exec.ok_bind, get_eq hc, sub32_of_le hpos (by omega), ← hk, hload,
    hremain, add32_of_lt (show r.rpos + k < 0x100000000 by omega),
    sub32_of_le (show k ≤ bs.length by omega) hlt, hnext]
  rfl

/-- **The loop of `rpacket_read`** copies the next bytes. -/
theorem rpacketReadLoop_spec {fuel : ℕ} (S : Sound h (refs r.readbuf + own)) (U : UnreadAt h r ps bs)
    (hlen : m ≤ bs.length) (hbuf : r.readbuf = some a) (hfuel : h.fresh - a + m < fuel) :
    ∃ h' r', rpacketReadLoop fuel h r m = .ok (h', r', bs.take m) ∧
      Sound h' (refs r'.readbuf + own) ∧ UnreadAt h' r' (ps.drop m) (bs.drop m) ∧ Moved h r h' r' := by
  induction fuel generalizing h r ps bs m a with
  | zero => omega
  | succ fuel ih =>
    rw [rpacketReadLoop]
    by_cases hm : m = 0
    · subst hm
      exact ⟨h, r, rfl, S, U, .refl h r⟩
    · obtain ⟨k, b, b', h₁, r₁, hbuf', hround, hkm, hbuf₁, hle, hlt, S₁, U₁, M₁⟩ :=
        copyRound_spec S U (by omega) hlen
      obtain rfl : a = b := Option.some.inj (hbuf.symm.trans hbuf')
      have hk : (bs.take k).length = k := by
        rw [List.length_take]
        omega
      obtain ⟨c, hc⟩ := S₁.live (show b' ∈ refs r₁.readbuf + own by rw [hbuf₁]; simp)
      have hbound := S₁.bound b' c hc
      rw [M₁.keeps.fresh] at hbound
      obtain ⟨h', r', hloop, S', U', M'⟩ := ih (m := m - k) S₁ U₁
        (by rw [List.length_drop]; omega) hbuf₁ (by rw [M₁.keeps.fresh]; omega)
      refine ⟨h', r', ?_, S', ?_, M₁.trans M'⟩
      · rw [if_neg hm, hround, Exec.ok_bind]
        simp only [hk, hloop, Exec.ok_bind]
        rw [← List.take_add, Nat.add_sub_cancel' hkm]
        rfl
      · rwa [List.drop_drop, List.drop_drop, Nat.add_sub_cancel' hkm] at U'

/-- **`rpacket_read`** copies the next bytes of a packet. -/
theorem rpacketRead_spec (S : Sound h (refs r.readbuf + own)) (U : UnreadAt h r ps bs)
    (hlen : m ≤ bs.length) :
    ∃ h' r', rpacketRead h r m = .ok (h', r', bs.take m) ∧ Sound h' (refs r'.readbuf + own) ∧
      UnreadAt h' r' (ps.drop m) (bs.drop m) ∧ Moved h r h' r' := by
  obtain ⟨a, -, -, hbuf, -⟩ := U.span
  have hremain := U.remain
  rw [rpacketRead, if_neg (by omega)]
  exact rpacketReadLoop_spec S U hlen hbuf (by omega)

/-- **The fixed-width reads.** -/
theorem rpacketReadUint_spec (S : Sound h (refs r.readbuf + own)) (U : UnreadAt h r ps bs)
    (hlen : m ≤ bs.length) :
    ∃ h' r', rpacketReadUint m h r = .ok (h', r', ofBytes (bs.take m)) ∧
      Sound h' (refs r'.readbuf + own) ∧ UnreadAt h' r' (ps.drop m) (bs.drop m) ∧ Moved h r h' r' := by
  obtain ⟨h', r', hread, S', U', M⟩ := rpacketRead_spec S U hlen
  exact ⟨h', r', by rw [rpacketReadUint, hread]; rfl, S', U', M⟩

/-- A packet takes two references to its first buffer. -/
theorem acquireTwice_spec {o : Option ℕ} (S : Sound h own)
    (hlive : ∀ a, o = some a → ∃ c, h.cell a = some c) :
    ∃ h₁ h', bufferAcquire h none o = .ok h₁ ∧ bufferAcquire h₁ none o = .ok h' ∧
      Sound h' (refs o + (refs o + own)) ∧ Keeps h h' := by
  obtain ⟨h₁, hacq₁, S₁, K₁⟩ := bufferAcquire_spec (o := none)
    (show Sound h (refs none + own) by simpa using S) hlive
  obtain ⟨h', hacq, S', K⟩ := bufferAcquire_spec (o := none) (p := o)
    (show Sound h₁ (refs none + (refs o + own)) by simpa using S₁) fun a ha => S₁.live (by simp [ha])
  exact ⟨h₁, h', hacq₁, hacq, S', K₁.trans K⟩

/-- **`rpacket_create`** takes two references to the buffer of the packet. -/
theorem rpacketCreate_spec {c : Cell Block} (S : Sound h own) (hc : h.cell a = some c)
    (pos pkLen : ℕ) (isRaw : Bool) :
    ∃ h' r, rpacketCreate h (some a) pos pkLen isRaw = .ok (h', r) ∧ Sound h' (r.owned + own) ∧
      Keeps h h' ∧ r = ⟨pkLen, if isRaw then pos else add32 pos lenSize, pkLen, 0, pos, none, some a,
        some a, isRaw⟩ := by
  obtain ⟨h₁, h', hacq₁, hacq, S', K⟩ := acquireTwice_spec (o := some a) S fun b hb =>
    Option.some.inj hb ▸ ⟨c, hc⟩
  refine ⟨h', _, ?_, ?_, K, rfl⟩
  · rw [rpacketCreate, hacq₁, Exec.ok_bind, hacq]
    rfl
  · rw [owned, refs_none, add_zero, add_assoc]
    exact S'

/-- **`rpacket_destroy`** gives the references of the packet back. -/
theorem rpacketDestroy_spec (S : Sound h (r.owned + own)) :
    ∃ h', rpacketDestroy h r = .ok h' ∧ Sound h' own ∧ Keeps h h' := by
  rw [owned, add_assoc, add_assoc] at S
  obtain ⟨h₁, hrel₁, S₁, K₁⟩ := bufferRelease_spec S
  obtain ⟨h₂, hrel₂, S₂, K₂⟩ := bufferRelease_spec S₁
  obtain ⟨h₃, hrel₃, S₃, K₃⟩ := bufferRelease_spec S₂
  refine ⟨h₃, ?_, S₃, (K₁.trans K₂).trans K₃⟩
  rw [rpacketDestroy, hrel₁, Exec.ok_bind, hrel₂, Exec.ok_bind, hrel₃]

end RPacket

end Kendylib
