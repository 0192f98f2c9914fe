import Kendylib.Foundations.Run
import Kendylib.Net.Reading
import Kendylib.Net.WritingRuns

/-!
# Reading whatever a packet holds

Nothing is assumed of the bytes of a packet here; the lengths of the blocks in it may be any. All
that is known of its chain is that the whole content is there (`Ahead`).

The invariant of all reads (`Within`) is that the bytes not read yet lie between the cursor and the
end of the packet, and that there is room for them behind what has been copied to `binbuf`. It is
kept because every byte is copied at most once, so `binbuf`, which is as large as the packet, is
never full (`reads_safe`).

The one fault left is the creation of `binbuf` for a packet of nearly 4 GB, where the size of the
buffer with its header wraps.
-/

namespace Kendylib

open RefHeap Buffer

namespace RPacket

variable {h h' : Heap} {own : Multiset ℕ} {r r' r₁ r₂ : RPacket} {a b m n k j pos len fuel : ℕ}
  {c : Cell Block} {last : ℕ × ℕ}

/-! ## What lies ahead of the cursor -/

/-- `n` bytes lie between the cursor `(a, pos)` and the place `last`. -/
inductive Ahead (h : Heap) (last : ℕ × ℕ) : ℕ → ℕ → ℕ → Prop
  | here {a pos n : ℕ} {c : Cell Block} (hc : h.cell a = some c) (hn : pos + n ≤ c.body.size)
      (hlast : last = (a, pos + n)) : Ahead h last a pos n
  | cross {a pos m n : ℕ} {c : Cell Block} (hc : h.cell a = some c) (hpos : pos ≤ c.body.size)
      (hnext : c.next = some m) (rest : Ahead h last m 0 n) :
      Ahead h last a pos (c.body.size - pos + n)

theorem Ahead.start (A : Ahead h last a pos n) : ∃ c, h.cell a = some c ∧ pos ≤ c.body.size := by
  cases A with
  | here hc hn hlast => exact ⟨_, hc, by omega⟩
  | cross hc hpos hnext rest => exact ⟨_, hc, hpos⟩

/-- The places of a span lie ahead of its start. -/
theorem ahead_of_span {ps : List (ℕ × ℕ)} (hs : Span h a pos ps b n) : Ahead h (b, n) a pos ps.length := by
  induction hs with
  | here hc hn => exact .here hc (by rwa [length_places]) (by rw [length_places])
  | cross hc hpos hfull hnext rest ih =>
    rw [List.length_append, length_places]
    exact .cross hc hpos hnext ih

/-- **One step of the cursor.** At the end of a buffer the rest lies in the next one. -/
theorem Ahead.advance (A : Ahead h last a pos n) (hc : h.cell a = some c) (hm : m ≤ n)
    (hk : k = min (c.body.size - pos) m) :
    Ahead h last a (pos + k) (n - k) ∧ (pos + k < c.body.size ∨ n - k = 0 ∨
      ∃ b, c.next = some b ∧ Ahead h last b 0 (n - k)) := by
  cases A with
  | @here _ _ _ d hd hn hlast =>
    obtain rfl := Option.some.inj (hd.symm.trans hc)
    refine ⟨.here hd (by omega) (by rw [hlast, show pos + n = pos + k + (n - k) by omega]), ?_⟩
    omega
  | @cross _ _ b n d hd hpos hnext rest =>
    obtain rfl := Option.some.inj (hd.symm.trans hc)
    have hrest : d.body.size - pos + n - k = d.body.size - (pos + k) + n := by omega
    rw [hrest]
    refine ⟨.cross hd (by omega) hnext rest, ?_⟩
    by_cases hlt : pos + k < d.body.size
    · exact .inl hlt
    · refine .inr (.inr ⟨b, hnext, ?_⟩)
      rwa [show d.body.size - (pos + k) = 0 by omega, zero_add]

theorem Ahead.keepsFrom (A : Ahead h last a pos n) (K : KeepsFrom h h' a) : Ahead h' last a pos n := by
  induction A with
  | here hc hn hlast =>
    obtain ⟨c', hc', -, hbody⟩ := K _ _ (.refl _) hc
    exact .here hc' (by rwa [hbody]) hlast
  | cross hc hpos hnext rest ih =>
    obtain ⟨c', hc', hnext', hbody⟩ := K _ _ (.refl _) hc
    rw [← hbody] at hpos ⊢
    exact .cross hc' hpos (hnext'.trans hnext) (ih fun b d hb hd => K b d (.step hc hnext hb) hd)

theorem Ahead.shape (A : Ahead h last a pos n) (hshape : Connection.Shape h h') :
    Ahead h' last a pos n := by
  induction A with
  | here hc hn hlast =>
    obtain ⟨c', hc', -, -, hsize⟩ := hshape _ _ hc
    exact .here hc' (by rwa [hsize]) hlast
  | cross hc hpos hnext rest ih =>
    obtain ⟨c', hc', hnext', -, hsize⟩ := hshape _ _ hc
    rw [← hsize] at hpos ⊢
    exact .cross hc' hpos (hnext'.trans hnext) ih

/-! ## The invariant -/

/-- The bytes not read yet of a packet of `len` bytes lie before `last`, and there is room for them
in `binbuf`. -/
structure Within (own : Multiset ℕ) (len : ℕ) (last : ℕ × ℕ) (h : Heap) (r : RPacket) : Prop where
  sound : Sound h (r.owned + own)
  ahead : ∃ a n, r.readbuf = some a ∧ Ahead h last a r.rpos n ∧ r.dataRemain ≤ n
  room : r.binbufpos + r.dataRemain ≤ len
  lenEq : r.len = len
  lt : len < 0x100000000
  binbuf : ∀ b, r.binbuf = some b → ∃ c, h.cell b = some c ∧ c.body.capacity = len

/-- The packet with the cursor moved over `k` bytes. -/
structure Advanced (own : Multiset ℕ) (len : ℕ) (last : ℕ × ℕ) (h : Heap) (r : RPacket) (k : ℕ)
    (h' : Heap) (r' : RPacket) : Prop where
  within : Within own len last h' r'
  remain : r'.dataRemain = r.dataRemain - k
  fields : SameFields r r'
  fresh : h'.fresh = h.fresh

theorem Advanced.trans {h₁ h₂ : Heap} (A₁ : Advanced own len last h r k h₁ r₁)
    (A₂ : Advanced own len last h₁ r₁ j h₂ r₂) : Advanced own len last h r (k + j) h₂ r₂ :=
  ⟨A₂.within, by rw [A₂.remain, A₁.remain, Nat.sub_sub], A₁.fields.trans A₂.fields,
    A₂.fresh.trans A₁.fresh⟩

/-- **Moving the cursor** past `k` bytes in its buffer. -/
theorem Within.nextBuffer (W : Within own len last h r) (hbuf : r.readbuf = some a)
    (hc : h.cell a = some c) (hm : m ≤ r.dataRemain) (hk : k = min (c.body.size - r.rpos) m) :
    ∃ a' h' r', nextBuffer h { r with rpos := r.rpos + k, dataRemain := r.dataRemain - k } c =
        .ok (h', r') ∧
      r'.readbuf = some a' ∧ a ≤ a' ∧ (k = 0 → 0 < m → a < a') ∧ Advanced own len last h r k h' r' := by
  obtain ⟨a₀, n, hbuf₀, hahead, hn⟩ := W.ahead
  obtain rfl := Option.some.inj (hbuf₀.symm.trans hbuf)
  obtain ⟨hahead', hnext⟩ := hahead.advance hc (hm.trans hn) hk
  have S := W.sound
  have hroom := W.room
  rw [owned_readbuf] at S
  set r₁ : RPacket := { r with rpos := r.rpos + k, dataRemain := r.dataRemain - k } with hr₁
  rw [RPacket.nextBuffer]
  by_cases hmove : r₁.rpos ≥ c.body.size ∧ r₁.dataRemain ≠ 0
  · obtain ⟨hend, hmore⟩ := hmove
    change r.rpos + k ≥ _ at hend
    change r.dataRemain - k ≠ 0 at hmore
    obtain ⟨b, hb, hahead''⟩ := (hnext.resolve_left (by omega)).resolve_left (by omega)
    obtain ⟨hup, hlive⟩ := S.next_live hc hb
    obtain ⟨h', hacq, S', K⟩ := bufferAcquire_spec S (p := c.next) fun x hx => by
      rw [hb, Option.some.injEq] at hx
      exact hx ▸ hlive
    have hlive' : ∃ e, h'.cell b = some e := S'.live (by rw [hb]; simp)
    rw [if_pos ⟨hend, hmore⟩]
    refine ⟨b, h', { r₁ with rpos := 0, readbuf := c.next }, ?_, hb, hup.le, fun _ _ => hup,
      ⟨⟨?_, ⟨b, n - k, hb, hahead''.keepsFrom (K.from S'.toExact hlive'), ?_⟩, ?_, W.lenEq, W.lt,
        fun x hx => ?_⟩, rfl, rfl, K.fresh⟩⟩
    · rw [show r₁.readbuf = r.readbuf from rfl, hacq]
      rfl
    · rw [owned_readbuf]
      exact S'
    · change r.dataRemain - k ≤ n - k
      omega
    · change r.binbufpos + (r.dataRemain - k) ≤ len
      omega
    · obtain ⟨d', hd'⟩ := S'.live (show x ∈ refs c.next + (refs r.buf + refs r.binbuf + own) by
        rw [show r.binbuf = some x from hx]
        simp)
      obtain ⟨d, hd, -, hbody⟩ := K.cell x d' hd'
      obtain ⟨e, he, hcap⟩ := W.binbuf x hx
      obtain rfl := Option.some.inj (he.symm.trans hd)
      exact ⟨d', hd', by rw [hbody, hcap]⟩
  · rw [if_neg hmove]
    refine ⟨a₀, h, r₁, rfl, hbuf, le_rfl, fun hk0 hm0 => ?_,
      ⟨⟨W.sound, ⟨a₀, n - k, hbuf, hahead', ?_⟩, ?_, W.lenEq, W.lt, W.binbuf⟩, rfl, rfl, rfl⟩⟩
    · refine absurd ⟨?_, ?_⟩ hmove
      · change r.rpos + k ≥ _
        omega
      · change r.dataRemain - k ≠ 0
        omega
    · change r.dataRemain - k ≤ n - k
      omega
    · change r.binbufpos + (r.dataRemain - k) ≤ len
      omega

/-- The buffer of the cursor. -/
theorem Within.buffer (W : Within own len last h r) :
    ∃ a c, r.readbuf = some a ∧ h.cell a = some c ∧ r.rpos ≤ c.body.size ∧ c.body.size < 0x100000000 ∧
      c.body.buf.length = c.body.capacity ∧ c.body.size ≤ c.body.capacity := by
  obtain ⟨a, n, hbuf, hahead, -⟩ := W.ahead
  obtain ⟨c, hc, hpos⟩ := hahead.start
  have hwf := W.sound.wf a c hc
  exact ⟨a, c, hbuf, hc, hpos, hwf.size_le.trans_lt hwf.lt, hwf.length, hwf.size_le⟩

/-- **One round of copying.** A round that copies nothing goes on to the next buffer. -/
theorem Within.copyRound (W : Within own len last h r) (hm : 0 < m) (hle : m ≤ r.dataRemain) :
    ∃ a a' h' r' bytes, r.readbuf = some a ∧ copyRound h r m = .ok (h', r', bytes) ∧
      bytes.length ≤ m ∧ r'.readbuf = some a' ∧ a ≤ a' ∧ (bytes.length = 0 → a < a') ∧
      Advanced own len last h r bytes.length h' r' := by
  obtain ⟨a, c, hbuf, hc, hpos, hsize, hlength, hcap⟩ := W.buffer
  have hroom := W.room
  have hlt := W.lt
  obtain ⟨k, hk⟩ : ∃ k, k = min (c.body.size - r.rpos) m := ⟨_, rfl⟩
  obtain ⟨a', h', r', hnext, hbuf', hle', hup, A⟩ := W.nextBuffer hbuf hc hle hk
  obtain ⟨bytes, hload, hbytes⟩ := load_spec hc (show r.rpos + k ≤ c.body.buf.length by omega)
  have hlen : bytes.length = k := by rw [← hbytes.length, length_places]
  have hderef : Exec.deref r.readbuf = .ok a := by rw [hbuf, Exec.deref_some]
  rw [← hlen] at A hup
  refine ⟨a, a', h', r', bytes, hbuf, ?_, by omega, hbuf', hle', fun h0 => hup h0 hm, A⟩
  rw [RPacket.copyRound]
  simp only [hderef, Exec.ok_bind, get_eq hc, sub32_of_le hpos (by omega), ← hk, hload,
    add32_of_lt (show r.rpos + k < 0x100000000 by omega),
    sub32_of_le (show k ≤ r.dataRemain by omega) (by omega), hnext]
  rfl

/-! ## Numbers -/

/-- **The loop of `rpacket_read`.** -/
theorem Within.rpacketReadLoop (W : Within own len last h r) (hle : m ≤ r.dataRemain)
    (hbuf : r.readbuf = some a) (hfuel : h.fresh - a + m < fuel) :
    ∃ h' r' out, rpacketReadLoop fuel h r m = .ok (h', r', out) ∧ Advanced own len last h r m h' r' := by
  induction fuel generalizing h r m a with
  | zero => omega
  | succ fuel ih =>
    rw [RPacket.rpacketReadLoop]
    by_cases hm : m = 0
    · subst hm
      exact ⟨h, r, [], rfl, W, rfl, .refl r, rfl⟩
    obtain ⟨a₀, a₁, h₁, r₁, bytes, hbuf₀, hround, hk, hbuf₁, hle₁, hlt, A₁⟩ :=
      W.copyRound (Nat.pos_of_ne_zero hm) hle
    obtain rfl := Option.some.inj (hbuf.symm.trans hbuf₀)
    obtain ⟨c, hc⟩ := A₁.within.sound.live (show a₁ ∈ r₁.owned + own by simp [owned, hbuf₁])
    have hbound := A₁.within.sound.bound a₁ c hc
    have hfresh := A₁.fresh
    obtain ⟨h', r', out, hloop, A'⟩ := ih (m := m - bytes.length) A₁.within
      (by rw [A₁.remain]; omega) hbuf₁ (by omega)
    have A := A₁.trans A'
    rw [Nat.add_sub_cancel' hk] at A
    refine ⟨h', r', bytes ++ out, ?_, A⟩
    rw [if_neg hm, hround, Exec.ok_bind]
    simp only [hloop, Exec.ok_bind]
    rfl

/-- **The fixed-width reads.** -/
theorem Within.rpacketReadUint (W : Within own len last h r) (w : ℕ) :
    ∃ h' r' n k, rpacketReadUint w h r = .ok (h', r', n) ∧ Advanced own len last h r k h' r' := by
  rw [RPacket.rpacketReadUint, rpacketRead]
  split_ifs with hfew
  · exact ⟨h, r, ofBytes [], 0, rfl, W, rfl, .refl r, rfl⟩
  · obtain ⟨a, -, hbuf, -⟩ := W.ahead
    obtain ⟨h', r', out, hloop, A⟩ := W.rpacketReadLoop (m := w) (by omega) hbuf
      (show h.fresh - a + w < h.fresh + w + 1 by omega)
    exact ⟨h', r', ofBytes out, w, by rw [hloop]; rfl, A⟩

/-! ## Blocks -/

/-- The memory to copy to cannot be created: its size with the header is no 32-bit number. -/
def BinbufWraps (r : RPacket) (f : Fault) : Prop :=
  f = .outOfBounds ∧ r.binbuf = none ∧ 0x100000000 ≤ headerSize + r.len

/-- **The memory to copy to** is there, or is created, or is too large. -/
theorem Within.acquireBinbuf (W : Within own len last h r) :
    (∃ h' r' b, acquireBinbuf h r = .ok (h', r', b) ∧ Within own len last h' r' ∧ r'.binbuf = some b ∧
      r'.dataRemain = r.dataRemain) ∨ ∃ f, acquireBinbuf h r = .error f ∧ BinbufWraps r f := by
  cases hbin : r.binbuf with
  | some b => exact .inl ⟨h, r, b, by rw [RPacket.acquireBinbuf, hbin], W, hbin, rfl⟩
  | none =>
    by_cases hwrap : headerSize + r.len < 0x100000000
    · obtain ⟨h', hnew, S', hself, hne, -⟩ := bufferCreateAndAcquire_spec W.sound hwrap
      have K : ∀ a, KeepsFrom h h' a := fun a x d _ hd =>
        ⟨d, by rw [hne x (W.sound.bound x d hd).ne, hd], rfl, rfl⟩
      obtain ⟨a, n, hbuf, hahead, hn⟩ := W.ahead
      have hroom := W.room
      refine .inl ⟨h', { r with binbuf := some h.fresh, binbufpos := 0 }, h.fresh, ?_, ⟨?_,
        ⟨a, n, hbuf, hahead.keepsFrom (K a), hn⟩, ?_, W.lenEq, W.lt, fun b hb => ?_⟩, rfl, rfl⟩
      · rw [RPacket.acquireBinbuf, hbin]
        simp only [hnew, Exec.ok_bind]
        rfl
      · rw [owned, hbin, refs_none, add_zero, ← Multiset.singleton_add] at S'
        rw [owned, refs_some]
        convert S' using 1
        abel
      · change 0 + r.dataRemain ≤ len
        omega
      · obtain rfl := Option.some.inj hb
        exact ⟨_, hself, W.lenEq⟩
    · refine .inr ⟨.outOfBounds, ?_, rfl, hbin, by omega⟩
      have hlen := W.lenEq
      have hlt := W.lt
      have hsmall : add32 headerSize r.len < headerSize := by
        rw [add32, headerSize] at *
        omega
      rw [RPacket.acquireBinbuf, hbin]
      simp only [bufferCreateAndAcquire, if_pos hsmall]
      rfl

/-- The cursor stays where it is when bytes are put into `binbuf`. -/
theorem Within.store (W : Within own len last h r) (bytes : List UInt8) (hbin : r.binbuf = some b)
    (hroom : r.binbufpos + bytes.length + r.dataRemain ≤ len) :
    ∃ h', WPacket.storeAt h (b, r.binbufpos) bytes = .ok h' ∧
      Within own len last h' { r with binbufpos := r.binbufpos + bytes.length } ∧ h'.fresh = h.fresh := by
  obtain ⟨c, hc, hcap⟩ := W.binbuf b hbin
  obtain ⟨h', buf, hstore, S', hput, -⟩ := WPacket.storeAt_spec W.sound hc
    (show r.binbufpos + bytes.length ≤ c.body.capacity by omega)
  have hshape : Connection.Shape h h' := hput ▸ .put hc buf
  obtain ⟨a, n, hbuf, hahead, hn⟩ := W.ahead
  refine ⟨h', hstore, ⟨S', ⟨a, n, hbuf, hahead.shape hshape, hn⟩, hroom, W.lenEq, W.lt,
    fun b' hb' => ?_⟩, by rw [hput, put_fresh]⟩
  obtain ⟨d, hd, hcap'⟩ := W.binbuf b' hb'
  obtain ⟨d', hd', -, hcapacity, -⟩ := hshape b' d hd
  exact ⟨d', hd', hcapacity.trans hcap'⟩

/-- **The copying loop.** -/
theorem Within.binaryLoop (W : Within own len last h r) (hbin : r.binbuf = some b)
    (hle : m ≤ r.dataRemain) (hbuf : r.readbuf = some a) (hfuel : h.fresh - a + m < fuel) :
    ∃ h' r', binaryLoop b fuel h r m = .ok (h', r') ∧ Within own len last h' r' ∧
      r'.dataRemain ≤ r.dataRemain := by
  induction fuel generalizing h r m a with
  | zero => omega
  | succ fuel ih =>
    rw [binaryLoop_succ]
    by_cases hm : m = 0
    · exact ⟨h, r, if_pos hm, W, le_rfl⟩
    obtain ⟨a₀, a₁, h₁, r₁, bytes, hbuf₀, hround, hk, hbuf₁, hle₁, hlt, A₁⟩ :=
      W.copyRound (Nat.pos_of_ne_zero hm) hle
    obtain rfl := Option.some.inj (hbuf.symm.trans hbuf₀)
    have hpos₁ : r₁.binbufpos = r.binbufpos := by rw [A₁.fields]
    have hbin₁ : r₁.binbuf = some b := by
      rw [A₁.fields]
      exact hbin
    have hremain := A₁.remain
    have hroom := W.room
    have hlen := W.lt
    have hfresh := A₁.fresh
    obtain ⟨c, hc⟩ := A₁.within.sound.live (show a₁ ∈ r₁.owned + own by simp [owned, hbuf₁])
    have hbound := A₁.within.sound.bound a₁ c hc
    obtain ⟨h₂, hstore, W₂, hfresh₂⟩ := A₁.within.store bytes hbin₁ (by omega)
    obtain ⟨h', r', hloop, W', hremain'⟩ := ih (m := m - bytes.length) W₂ hbin₁
      (show m - bytes.length ≤ r₁.dataRemain by omega) hbuf₁ (by omega)
    refine ⟨h', r', ?_, W', hremain'.trans ?_⟩
    · rw [if_neg hm, hround, Exec.ok_bind]
      simp only [add32_of_lt (show r₁.binbufpos + bytes.length < 0x100000000 by omega), hstore,
        Exec.ok_bind, hloop]
    · change r₁.dataRemain ≤ r.dataRemain
      omega

/-- What a read leaves: the invariant, with no more to read than before, or the one fault. -/
def Keeping (own : Multiset ℕ) (len : ℕ) (last : ℕ × ℕ) (r : RPacket) {α : Type}
    (x : Exec (Heap × RPacket × α)) : Prop :=
  match x with
  | .ok (h', r', _) => Within own len last h' r' ∧ r'.dataRemain ≤ r.dataRemain
  | .error f => BinbufWraps r f

theorem Keeping.of_ok {α : Type} {x : Exec (Heap × RPacket × α)} {v : α} (hx : x = .ok (h', r', v))
    (W' : Within own len last h' r') (hremain : r'.dataRemain ≤ r.dataRemain) :
    Keeping own len last r x := hx ▸ ⟨W', hremain⟩

/-- The cursor may have been moved before. -/
theorem Keeping.of_advanced {α : Type} {x : Exec (Heap × RPacket × α)} {h₁ : Heap}
    (hx : Keeping own len last r₁ x) (A : Advanced own len last h r k h₁ r₁) :
    Keeping own len last r x := by
  cases x with
  | ok v =>
    have := A.remain
    exact ⟨hx.1, by have := hx.2; omega⟩
  | error f =>
    obtain ⟨hf, hbin, hlen⟩ := hx
    rw [A.fields] at hbin hlen
    exact ⟨hf, hbin, hlen⟩

/-- What is returned may be changed. -/
theorem Keeping.map {α β : Type} {x : Exec (Heap × RPacket × α)} (hx : Keeping own len last r x)
    (f : Heap × RPacket × α → Exec (Heap × RPacket × β))
    (hf : ∀ y, ∃ v, f y = .ok (y.1, y.2.1, v)) : Keeping own len last r (x >>= f) := by
  cases x with
  | ok y =>
    obtain ⟨v, hv⟩ := hf y
    rw [Exec.ok_bind, hv]
    exact hx
  | error e => exact hx

theorem Within.copyBinary (W : Within own len last h r) (hle : m ≤ r.dataRemain) :
    Keeping own len last r (copyBinary h r m) := by
  rw [RPacket.copyBinary]
  rcases W.acquireBinbuf with ⟨h₁, r₁, b, hacq, W₁, hbin, hremain⟩ | ⟨f, hacq, hwraps⟩
  · obtain ⟨a, -, hbuf, -⟩ := W₁.ahead
    obtain ⟨h', r', hloop, W', hremain'⟩ := W₁.binaryLoop hbin (hremain ▸ hle) hbuf
      (show h₁.fresh - a + m < h₁.fresh + m + 1 by omega)
    rw [hacq]
    simp only [Exec.ok_bind, hloop]
    exact ⟨W', hremain ▸ hremain'⟩
  · rw [hacq]
    exact hwraps

/-- **`rpacket_raw_read_binary`**: the cursor stays before the data it returns in place. -/
theorem Within.rpacketRawReadBinary (W : Within own len last h r) (n : ℕ) :
    Keeping own len last r (rpacketRawReadBinary h r n) := by
  rw [RPacket.rpacketRawReadBinary]
  split_ifs with hzero
  · exact ⟨W, le_rfl⟩
  obtain ⟨a, c, hbuf, hc, -⟩ := W.buffer
  have hderef : Exec.deref r.readbuf = .ok a := by rw [hbuf, Exec.deref_some]
  rw [hderef, Exec.ok_bind, get_eq hc, Exec.ok_bind]
  split_ifs with hinside
  · obtain ⟨a, n, hbuf, hahead, hn⟩ := W.ahead
    have hroom := W.room
    refine ⟨⟨W.sound, ⟨a, n, hbuf, hahead, Nat.zero_le _⟩, ?_, W.lenEq, W.lt, W.binbuf⟩, Nat.zero_le _⟩
    change r.binbufpos + 0 ≤ len
    omega
  · exact (W.copyBinary le_rfl).map _ fun y => ⟨_, rfl⟩

/-- **`rpacket_read_binary`**, whatever the length of the block is. -/
theorem Within.rpacketReadBinary (W : Within own len last h r) (n : ℕ) :
    Keeping own len last r (rpacketReadBinary h r n) := by
  rw [RPacket.rpacketReadBinary]
  split_ifs with hraw
  · exact W.rpacketRawReadBinary n
  obtain ⟨h₁, r₁, size, k, hread, A₁⟩ := W.rpacketReadUint 4
  have W₁ := A₁.within
  rw [rpacketReadUint32, hread, Exec.ok_bind]
  dsimp only
  refine Keeping.of_advanced ?_ A₁
  split_ifs with hnone
  · exact ⟨W₁, le_rfl⟩
  obtain ⟨a, c, hbuf, hc, hpos, hsize, -⟩ := W₁.buffer
  have hroom := W₁.room
  have hlt := W₁.lt
  have hderef : Exec.deref r₁.readbuf = .ok a := by rw [hbuf, Exec.deref_some]
  rw [hderef, Exec.ok_bind, get_eq hc, Exec.ok_bind, sub32_of_le hpos (by omega)]
  split_ifs with hinside
  · -- the block is inside the buffer
    obtain ⟨a', h', r', hnext, -, -, -, A'⟩ :=
      W₁.nextBuffer (m := size) (k := size) hbuf hc (by omega) (by omega)
    rw [add32_of_lt (by omega), sub32_of_le (show size ≤ r₁.dataRemain by omega) (by omega), hnext]
    exact ⟨A'.within, by rw [A'.remain]; exact Nat.sub_le ..⟩
  · exact (W₁.copyBinary (by omega)).map _ fun y => ⟨_, rfl⟩

/-- **Every read** keeps the invariant. -/
theorem Within.read (W : Within own len last h r) (op : Read) : Keeping own len last r (read h r op) := by
  have hnumber : ∀ w, Keeping own len last r (RPacket.rpacketReadUint w h r) := by
    intro w
    obtain ⟨h', r', n, k, hread, A⟩ := W.rpacketReadUint w
    exact .of_ok hread A.within (by rw [A.remain]; exact Nat.sub_le ..)
  cases op with
  | uint8 => exact (hnumber 1).map _ fun y => ⟨_, rfl⟩
  | uint16 => exact (hnumber 2).map _ fun y => ⟨_, rfl⟩
  | uint32 => exact (hnumber 4).map _ fun y => ⟨_, rfl⟩
  | uint64 => exact (hnumber 8).map _ fun y => ⟨_, rfl⟩
  | string => exact ((W.rpacketReadBinary 0).map _ fun y => ⟨_, rfl⟩).map _ fun y => ⟨_, rfl⟩
  | binary => exact (W.rpacketReadBinary 0).map _ fun y => ⟨_, rfl⟩

/-! ## All reads -/

/-- A read, without what it returns. -/
def readStep (s : Heap × RPacket) (op : Read) : Exec (Heap × RPacket) := do
  let (h, r, _) ← read s.1 s.2 op
  return (h, r)

/-- The cursor is before the end of the packet, with at least `data_remain` bytes between them; what
has been copied to `binbuf`, and all that may still be, fits into it. -/
structure Safe (len : ℕ) (last : ℕ × ℕ) (s : Heap × RPacket) : Prop where
  cursor : ∃ a n, s.2.readbuf = some a ∧ Ahead s.1 last a s.2.rpos n ∧ s.2.dataRemain ≤ n
  room : s.2.binbufpos + s.2.dataRemain ≤ len
  binbuf : ∀ b, s.2.binbuf = some b → ∃ c, s.1.cell b = some c ∧ c.body.capacity = len

/-- The read does not raise `data_remain`, as it would by taking more from it than there is. -/
def NoUnderflow (s : Heap × RPacket) (op : Read) : Prop :=
  ∀ s', readStep s op = .ok s' → s'.2.dataRemain ≤ s.2.dataRemain

theorem Within.reads (W : Within own len last h r) (ops : List Read) :
    Exec.Always readStep (Safe len last) (h, r) ops ∧ Exec.EachStep readStep NoUnderflow (h, r) ops ∧
      Exec.FaultsOnly readStep (fun s _ f => BinbufWraps s.2 f) (h, r) ops := by
  have hsafe : ∀ {h r}, Within own len last h r → Safe len last (h, r) := fun W =>
    ⟨W.ahead, W.room, W.binbuf⟩
  induction ops generalizing h r with
  | nil => exact ⟨hsafe W, trivial, trivial⟩
  | cons op ops ih =>
    have hop := W.read op
    rw [Exec.Always, Exec.EachStep, Exec.FaultsOnly]
    cases hread : RPacket.read h r op with
    | error f =>
      have hstep : readStep (h, r) op = .error f := by simp [readStep, hread]
      rw [hread] at hop
      rw [hstep]
      exact ⟨⟨hsafe W, trivial⟩, trivial, hop⟩
    | ok x =>
      obtain ⟨h', r', v⟩ := x
      have hstep : readStep (h, r) op = .ok (h', r') := by simp [readStep, hread]
      rw [hread] at hop
      obtain ⟨W', hremain⟩ := hop
      obtain ⟨halways, heach, hfaults⟩ := ih W'
      rw [hstep]
      refine ⟨⟨hsafe W, halways⟩, ⟨fun s' hs' => ?_, heach⟩, hfaults⟩
      obtain rfl := Except.ok.inj (hstep.symm.trans hs')
      exact hremain

/-- **All reads are safe** in a packet whose whole content, of `len` bytes, lies in its chain, behind
the length in the first buffer if it is not raw. -/
theorem reads_safe {raw : Bool} (S : Sound h own) (hlt : len < 0x100000000)
    (hcontent : Ahead h last a (pos + WPacket.headerLen raw) len) :
    ∃ s, rpacketCreate h (some a) pos len raw = .ok s ∧ ∀ ops,
      Exec.Always readStep (Safe len last) s ops ∧ Exec.EachStep readStep NoUnderflow s ops ∧
        Exec.FaultsOnly readStep (fun s _ f => BinbufWraps s.2 f) s ops := by
  obtain ⟨c, hc, hpos⟩ := hcontent.start
  have hsize := (S.wf a c hc).size_le
  have hcap := (S.wf a c hc).lt
  obtain ⟨h', r, hcreate, S', K, hr⟩ := rpacketCreate_spec S hc pos len raw
  have hlive : ∃ d, h'.cell a = some d := S'.live (by rw [hr]; simp [owned])
  have hrpos : (if raw then pos else add32 pos lenSize) = pos + WPacket.headerLen raw := by
    cases raw with
    | true => rfl
    | false => exact add32_of_lt (show pos + WPacket.headerLen false < 0x100000000 by omega)
  rw [hrpos] at hr
  have W : Within own len last h' r := by
    refine ⟨S', ⟨a, len, by rw [hr], ?_, by rw [hr]⟩, by rw [hr, zero_add], by rw [hr], hlt, ?_⟩
    · rw [hr]
      exact hcontent.keepsFrom (K.from S'.toExact hlive)
    · simp [hr]
  exact ⟨(h', r), hcreate, W.reads⟩

/-- A packet whose first block tells a length of nearly 4 GB, across two buffers. -/
theorem reads_safe_hostile_length : ∃ h₁ w₁ h w a last s,
    WPacket.wpacketCreate RefHeap.empty 8 false = .ok (h₁, w₁) ∧
      WPacket.writeAll h₁ w₁ [.uint32 0xFFFFFFF0, .uint64 1] = .ok (h, w) ∧ w.buf = some a ∧
        rpacketCreate h (some a) 0 12 false = .ok s ∧ ∀ ops,
          Exec.Always readStep (Safe 12 last) s ops ∧ Exec.EachStep readStep NoUnderflow s ops ∧
            Exec.FaultsOnly readStep (fun s _ f => BinbufWraps s.2 f) s ops := by
  obtain ⟨h₁, w₁, hcreate, S₁, B₁, hraw₁⟩ := WPacket.wpacketCreate_spec sound_empty
    (show 8 < 0x100000000 by decide) (show false = true ∨ lenSize ≤ WPacket.getSizeOfPow2 8 by decide)
  obtain ⟨⟨h, w⟩, hwrite⟩ := WPacket.writeAll_ends S₁ B₁
    (show w₁.dataSize + ([WPacket.Write.uint32 0xFFFFFFF0, .uint64 1].flatMap
      (WPacket.Write.bytes w₁.raw)).length ≤ _ by
      rw [B₁.dataSize.1, hraw₁]
      decide)
  obtain ⟨S, ⟨a, ps, b, c, B⟩, hraw⟩ := WPacket.writeAll_ok S₁ B₁ hwrite
  rw [hraw₁] at B hraw
  have hahead := ahead_of_span B.span
  rw [B.bytes.length, hraw, ← zero_add (WPacket.headerLen false)] at hahead
  obtain ⟨s, hpacket, hsafe⟩ := reads_safe S (by decide) hahead
  exact ⟨h₁, w₁, h, w, a, _, s, hcreate, hwrite, B.buf, hpacket, hsafe⟩

end RPacket

end Kendylib
