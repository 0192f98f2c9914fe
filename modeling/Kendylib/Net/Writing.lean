import Kendylib.Net.Receive
import Kendylib.Net.Rounding

/-!
# Writing to a packet

A packet made by `wpacket_create` is a span of buffers of its own, from the start of its first
buffer to the place of the next write (`Building`). A write extends the span (`wpacketWrite_spec`),
over as many new buffers as it takes, and the length in front of a packet that is not raw is the
number of bytes behind it.

The capacity of the first buffer is a power of two and at most `2 ^ 31` (`getSizeOfPow2_eq`), and the
8-bit counter `factor` is zero after eight doublings. No packet comes to `2 ^ 32` bytes.
-/

namespace Kendylib

open RefHeap Buffer RPacket Connection

namespace Buffer

variable {h h' : Heap} {own : Multiset ℕ} {a b pos pos' : ℕ} {ps : List (ℕ × ℕ)}

/-- The places of a span come after its start. -/
theorem Span.le_of_mem (E : Exact h own) (hs : Span h a pos ps b pos') :
    ∀ p ∈ ps, a ≤ p.1 ∧ (p.1 = a → pos ≤ p.2) := by
  induction hs with
  | here hc hn =>
    intro p hp
    obtain ⟨hp₁, hp₂, -⟩ := mem_places.mp hp
    exact ⟨hp₁.ge, fun _ => hp₂⟩
  | cross hc hpos hfull hnext rest ih =>
    intro p hp
    rcases List.mem_append.mp hp with hp | hp
    · obtain ⟨hp₁, hp₂, -⟩ := mem_places.mp hp
      exact ⟨hp₁.ge, fun _ => hp₂⟩
    · have hup := E.up _ _ _ hc hnext
      have hle := (ih p hp).1
      exact ⟨by omega, fun h => by omega⟩

theorem Span.start_le (E : Exact h own) (hs : Span h a pos ps a pos') : pos ≤ pos' := by
  cases hs with
  | here hc hn => exact Nat.le_add_right _ _
  | cross hc hpos hfull hnext rest =>
    have := E.up _ _ _ hc hnext
    have := E.le_of_reach rest.reach
    omega

/-- The first byte of a span is at its start, unless the buffer there is full. -/
theorem Span.start_lt {c : Cell Block} (hs : Span h a pos ps b pos') (hc : h.cell a = some c)
    (hpos : pos < c.body.capacity) (hps : 0 < ps.length) : pos < c.body.size := by
  cases hs with
  | here hd hn =>
    obtain rfl := Option.some.inj (hd.symm.trans hc)
    rw [length_places] at hps
    omega
  | cross hd _ hfull _ _ =>
    obtain rfl := Option.some.inj (hd.symm.trans hc)
    omega

/-- A span that is shorter than what is left of its first buffer ends there. -/
theorem Span.finish_of_lt {c : Cell Block} (hs : Span h a pos ps b pos') (hc : h.cell a = some c)
    (hlt : ps.length < c.body.capacity - pos) : b = a ∧ pos' = pos + ps.length := by
  cases hs with
  | here hd hn => exact ⟨rfl, by rw [length_places]⟩
  | cross hd _ hfull _ _ =>
    obtain rfl := Option.some.inj (hd.symm.trans hc)
    rw [List.length_append, length_places] at hlt
    omega

/-- What is left in the buffer belongs to a span that goes to the end of its last buffer. -/
theorem Span.rest_le {c d : Cell Block} (hs : Span h a pos ps b pos') (hc : h.cell a = some c)
    (hd : h.cell b = some d) (hsize : d.body.size = pos') : c.body.size - pos ≤ ps.length := by
  cases hs with
  | here he hn =>
    obtain rfl := Option.some.inj (hc.symm.trans hd)
    rw [length_places]
    omega
  | cross he _ _ _ _ =>
    obtain rfl := Option.some.inj (he.symm.trans hc)
    rw [List.length_append, length_places]
    omega

/-- A span stays where it is if the buffers keep their links and sizes. -/
theorem Span.shape (hs : Span h a pos ps b pos') (hshape : Shape h h') : Span h' a pos ps b pos' := by
  induction hs with
  | here hc hn =>
    obtain ⟨e, he, -, -, hsize⟩ := hshape _ _ hc
    exact Span.here he (by omega)
  | cross hc hpos hfull hnext rest ih =>
    obtain ⟨e, he, hnext', hcap, hsize⟩ := hshape _ _ hc
    rw [← hsize]
    exact Span.cross he (by omega) (by omega) (hnext'.trans hnext) ih

end Buffer

namespace WPacket

/-! ## The packet so far -/

variable {h h' : Heap} {own own' : Multiset ℕ} {w w' : WPacket} {a b pos pos' n cap k : ℕ}
  {ps : List (ℕ × ℕ)} {bs payload : List UInt8} {c d : Cell Block}

/-- The number of bytes in front of what is written to a packet. -/
def headerLen (raw : Bool) : ℕ := if raw then 0 else lenSize

/-- The packet keeps the number of bytes written to it, at the start of its first buffer `a`, unless
it is raw. -/
def Header (h : Heap) (w : WPacket) (a n : ℕ) : Prop :=
  if w.raw then w.len = none
  else w.len = some (a, 0) ∧ Bytes h (places a 0 lenSize) (toBytes lenSize n)

/-- The bytes that `k` more buffers will have. -/
def laterRoom : ℕ → ℕ → ℕ
  | 0, _ => 0
  | k + 1, factor => factor * 2 % 0x100 + laterRoom k (factor * 2 % 0x100)

/-- The bytes that all buffers together will have of a packet whose first buffer has `cap`; after
eight doublings there are none. -/
def roomOf (cap : ℕ) : ℕ := cap + laterRoom 8 (cap % 0x100)

theorem laterRoom_succ (h : n * 2 ^ (k + 1) % 0x100 = 0) : laterRoom (k + 1) n = laterRoom k n := by
  induction k generalizing n with
  | zero =>
    rw [zero_add, pow_one] at h
    rw [laterRoom, laterRoom, laterRoom, h]
  | succ k ih =>
    have hrest : n * 2 % 0x100 * 2 ^ (k + 1) % 0x100 = 0 := by
      rw [Nat.mod_mul_mod, mul_assoc, ← pow_succ', h]
    rw [laterRoom, ih hrest, ← laterRoom]

theorem laterRoom_eq : laterRoom 8 n = n * 2 % 0x100 + laterRoom 8 (n * 2 % 0x100) := by
  rw [laterRoom_succ (k := 7) (n := n * 2 % 0x100) (by omega), laterRoom]

theorem laterRoom_le : laterRoom k n ≤ 0x100 * k := by
  induction k generalizing n with
  | zero => exact le_rfl
  | succ k ih =>
    have := ih (n := n * 2 % 0x100)
    rw [laterRoom]
    omega

/-- The first buffer, at `a`, has `cap` bytes, and the second one twice as many in 8 bits. -/
def Begins (h : Heap) (cap a b : ℕ) : Prop :=
  ∃ e, h.cell a = some e ∧ e.body.capacity = cap ∧
    (a = b ∨ ∃ m f, e.next = some m ∧ h.cell m = some f ∧ f.body.capacity = cap * 2 % 0x100)

theorem Begins.grow (H : Begins h cap a b) (G : GrowsFrom h h' a) : Begins h' cap a b := by
  obtain ⟨e, he, hcap, hsecond⟩ := H
  obtain ⟨e', he', hg⟩ := G a e (.refl a) he
  refine ⟨e', he', hg.capacity.trans hcap, hsecond.imp_right ?_⟩
  rintro ⟨m, f, hm, hf, hfcap⟩
  obtain ⟨f', hf', hgf⟩ := G m f (.step he hm (.refl m)) hf
  exact ⟨m, f', hg.next m hm, hf', hgf.capacity.trans hfcap⟩

theorem Begins.shape (H : Begins h cap a b) (hshape : Shape h h') : Begins h' cap a b := by
  obtain ⟨e, he, hcap, hsecond⟩ := H
  obtain ⟨e', he', hn, hc, -⟩ := hshape a e he
  refine ⟨e', he', hc.trans hcap, hsecond.imp_right ?_⟩
  rintro ⟨m, f, hm, hf, hfcap⟩
  obtain ⟨f', hf', -, hfc, -⟩ := hshape m f hf
  exact ⟨m, f', hn.trans hm, hf', hfc.trans hfcap⟩

/-- The buffers from `a` to `b`; one without room is followed by such buffers only. -/
inductive Tapers (h : Heap) : ℕ → ℕ → Prop
  | last {b : ℕ} {c : Cell Block} (hc : h.cell b = some c) : Tapers h b b
  | step {a n b : ℕ} {c d : Cell Block} (hc : h.cell a = some c) (hn : c.next = some n)
      (hd : h.cell n = some d) (hcap : c.body.capacity = 0 → d.body.capacity = 0)
      (rest : Tapers h n b) : Tapers h a b

theorem Tapers.grow (T : Tapers h a b) (G : GrowsFrom h h' a) : Tapers h' a b := by
  induction T with
  | last hc =>
    obtain ⟨c', hc', -⟩ := G _ _ (.refl _) hc
    exact .last hc'
  | step hc hn hd hcap rest ih =>
    obtain ⟨c', hc', hg⟩ := G _ _ (.refl _) hc
    obtain ⟨d', hd', hgd⟩ := G _ _ (.step hc hn (.refl _)) hd
    exact .step hc' (hg.next _ hn) hd' (by rwa [hg.capacity, hgd.capacity]) (ih (G.next hc hn))

theorem Tapers.shape (T : Tapers h a b) (hshape : Shape h h') : Tapers h' a b := by
  induction T with
  | last hc =>
    obtain ⟨c', hc', -⟩ := hshape _ _ hc
    exact .last hc'
  | step hc hn hd hcap rest ih =>
    obtain ⟨c', hc', hn', hcap', -⟩ := hshape _ _ hc
    obtain ⟨d', hd', -, hcapd, -⟩ := hshape _ _ hd
    exact .step hc' (hn'.trans hn) hd' (by rwa [hcap', hcapd]) ih

/-- One more buffer. -/
theorem Tapers.snoc (T : Tapers h a b) (hc : h.cell b = some c) (hn : c.next = some n)
    (hd : h.cell n = some d) (hcap : c.body.capacity = 0 → d.body.capacity = 0) : Tapers h a n := by
  induction T with
  | last hb =>
    obtain rfl := Option.some.inj (hb.symm.trans hc)
    exact .step hb hn hd hcap (.last hd)
  | step hc₀ hn₀ hd₀ hcap₀ rest ih => exact .step hc₀ hn₀ hd₀ hcap₀ (ih hc)

theorem Tapers.of_reach (T : Tapers h a b) (hc : h.cell b = some c) (hlast : c.next = none)
    (hreach : Reach h a n) : Tapers h n b := by
  induction hreach with
  | refl => exact T
  | step hc₀ hn₀ _ ih =>
    cases T with
    | last hb =>
      obtain rfl := Option.some.inj (hc₀.symm.trans hc)
      rw [hlast] at hn₀
      cases hn₀
    | step hc₁ hn₁ hd hcap rest =>
      obtain rfl := Option.some.inj (hc₀.symm.trans hc₁)
      obtain rfl := Option.some.inj (hn₀.symm.trans hn₁)
      exact ih rest

/-- There is nothing from a buffer without room on. -/
theorem Tapers.span_nil {b' : ℕ} {e : Cell Block} (S : Sound h own) (T : Tapers h a b)
    (hc : h.cell b = some c) (hlast : c.next = none) (he : h.cell a = some e)
    (hcap : e.body.capacity = 0) (hs : Span h a pos ps b' pos') : ps = [] := by
  induction hs generalizing e with
  | @here a pos n d hd hn =>
    obtain rfl := Option.some.inj (hd.symm.trans he)
    have := (S.wf a d hd).size_le
    rw [places, show n = 0 by omega]
    rfl
  | @cross a pos m b' pos' rest d hd hpos hfull hnext hrest ih =>
    obtain rfl := Option.some.inj (hd.symm.trans he)
    cases T with
    | last hb =>
      obtain rfl := Option.some.inj (hd.symm.trans hc)
      rw [hlast] at hnext
      cases hnext
    | step hd₁ hn₁ hf hcap₁ rest₁ =>
      obtain rfl := Option.some.inj (hd.symm.trans hd₁)
      obtain rfl := Option.some.inj (hnext.symm.trans hn₁)
      rw [ih rest₁ hf (hcap₁ hcap), places, show d.body.size - pos = 0 by omega]
      rfl

/-- `payload` has been written to the packet, at the places `ps`. Its first buffer is at `a` and has
`cap` bytes, its last one is the cell `c` at `b`. -/
structure Building (cap : ℕ) (h : Heap) (w : WPacket) (a : ℕ) (ps : List (ℕ × ℕ)) (b : ℕ)
    (c : Cell Block) (payload : List UInt8) : Prop where
  buf : w.buf = some a
  writebuf : w.writebuf = some b
  beginPos : w.beginPos = 0
  dataSize : w.dataSize = headerLen w.raw + payload.length
  span : Span h a (headerLen w.raw) ps b w.wpos
  bytes : Bytes h ps payload
  header : Header h w a payload.length
  cell : h.cell b = some c
  last : c.next = none
  size : c.body.size = w.wpos
  clear : ∀ i, w.wpos ≤ i → i < c.body.capacity → byteAt h (b, i) = some 0
  factor : w.factor = c.body.capacity % 0x100
  room : w.dataSize + (c.body.capacity - w.wpos) + laterRoom 8 w.factor = roomOf cap
  cap_le : cap ≤ 0x80000000
  begins : Begins h cap a b
  tapers : Tapers h a b

theorem Building.dataSize_le (B : Building cap h w a ps b c payload) :
    w.dataSize + (c.body.capacity - w.wpos) ≤ 0x80000800 := by
  have hroom := B.room
  have hcap := B.cap_le
  have hle : laterRoom 8 (cap % 0x100) ≤ 0x100 * 8 := laterRoom_le
  rw [roomOf] at hroom
  omega

/-- `payload` has been written to a packet whose first buffer has `cap` bytes. -/
def Built (cap : ℕ) (h : Heap) (w : WPacket) (payload : List UInt8) : Prop :=
  ∃ a ps b c, Building cap h w a ps b c payload

/-- What has been written stays where it is in buffers that are filled further. -/
theorem Header.grow (H : Header h w a n) (hs : Span h a (headerLen w.raw) ps b pos')
    (G : GrowsFrom h h' a) : Header h' w a n := by
  unfold Header headerLen at *
  split_ifs at * with hraw
  · exact H
  · obtain ⟨hlen, hb⟩ := H
    obtain ⟨e, he, hle⟩ := hs.start
    obtain ⟨e', he', hg⟩ := G a e (.refl a) he
    refine ⟨hlen, hb.congr fun p hp => ?_⟩
    obtain ⟨hp₁, -, hp₂⟩ := mem_places.mp hp
    rw [byteAt, byteAt, hp₁, he, he']
    exact hg.bytes p.2 (by omega)

theorem Header.congr (H : Header h w a n) (hlen : w'.len = w.len) (hraw : w'.raw = w.raw) :
    Header h w' a n := by
  unfold Header at *
  rwa [hlen, hraw]

/-! ## What a write leaves -/

/-- A buffer filled further, whose first `k` bytes may be overwritten. -/
structure GrownBehind (k : ℕ) (c c' : Cell Block) : Prop where
  next : ∀ n, c.next = some n → c'.next = some n
  capacity : c'.body.capacity = c.body.capacity
  size : c.body.size ≤ c'.body.size
  bytes : ∀ p, k ≤ p → p < c.body.size → c'.body.buf[p]? = c.body.buf[p]?

theorem GrownBehind.of_eq (hn : c'.next = c.next) (hb : c'.body = c.body) : GrownBehind k c c' :=
  ⟨fun n h => hn.trans h, by rw [hb], by rw [hb], fun p _ _ => by rw [hb]⟩

theorem GrownBehind.trans {c₁ c₂ : Cell Block} (hg₁ : GrownBehind k c c₁) (hg₂ : GrownBehind k c₁ c₂) :
    GrownBehind k c c₂ :=
  ⟨fun n hn => hg₂.next n (hg₁.next n hn), hg₂.capacity.trans hg₁.capacity, hg₁.size.trans hg₂.size,
    fun p hk hp => by rw [hg₂.bytes p hk (hp.trans_le hg₁.size), hg₁.bytes p hk hp]⟩

/-- The number of bytes at the start of a buffer that belong to the length of the packet. -/
def front (w : WPacket) (x : ℕ) : ℕ := if w.buf = some x then headerLen w.raw else 0

/-- What a write leaves, also of the buffers that are not the packet's: they keep their bytes, but for
the length in front of the packet, and their links, and only the last one of the packet is filled
further. -/
structure Appends (h : Heap) (w : WPacket) (h' : Heap) (w' : WPacket) : Prop where
  fresh : h.fresh ≤ h'.fresh
  cell : ∀ x c', x < h.fresh → h'.cell x = some c' → ∃ c, h.cell x = some c ∧
    GrownBehind (w.front x) c c' ∧ (w.writebuf ≠ some x → c'.body.size = c.body.size)
  unlinked : ∀ x < h.fresh, Unlinked h x → Unlinked h' x
  buf : w'.buf = w.buf
  raw : w'.raw = w.raw
  writebuf : ∀ x, w'.writebuf = some x → w.writebuf = some x ∨ h.fresh ≤ x

theorem Appends.front (A : Appends h w h' w') : w'.front = w.front := by
  unfold WPacket.front
  rw [A.buf, A.raw]

theorem Appends.refl (h : Heap) (w : WPacket) : Appends h w h w :=
  ⟨le_rfl, fun _ c _ hc => ⟨c, hc, .of_eq rfl rfl, fun _ => rfl⟩, fun _ _ => id, rfl, rfl, fun _ => .inl⟩

theorem Appends.of_keeps (K : Keeps h h') : Appends h w h' w :=
  ⟨K.fresh.ge, fun x c' _ hc' => by
    obtain ⟨c, hc, hn, hb⟩ := K.cell x c' hc'
    exact ⟨c, hc, .of_eq hn hb, fun _ => by rw [hb]⟩, fun x _ U => U.of_keeps K, rfl, rfl,
    fun x => .inl⟩

theorem Appends.trans {h₁ h₂ : Heap} {w₁ w₂ : WPacket} (A₁ : Appends h w h₁ w₁)
    (A₂ : Appends h₁ w₁ h₂ w₂) : Appends h w h₂ w₂ := by
  refine ⟨A₁.fresh.trans A₂.fresh, fun x c₂ hx hc₂ => ?_,
    fun x hx U => A₂.unlinked x (hx.trans_le A₁.fresh) (A₁.unlinked x hx U),
    A₂.buf.trans A₁.buf, A₂.raw.trans A₁.raw, fun x hx => ?_⟩
  · obtain ⟨c₁, hc₁, hg₂, hsize₂⟩ := A₂.cell x c₂ (hx.trans_le A₁.fresh) hc₂
    obtain ⟨c, hc, hg₁, hsize₁⟩ := A₁.cell x c₁ hx hc₁
    refine ⟨c, hc, hg₁.trans (A₁.front ▸ hg₂), fun hne => ?_⟩
    have hne₁ : w₁.writebuf ≠ some x := fun hlast => by
      rcases A₁.writebuf x hlast with hsame | hnew
      · exact hne hsame
      · omega
    exact (hsize₂ hne₁).trans (hsize₁ hne)
  · rcases A₂.writebuf x hx with hsame | hnew
    · exact A₁.writebuf x hsame
    · exact .inr (A₁.fresh.trans hnew)

/-- A buffer is overwritten. -/
theorem Appends.put (hd : h.cell a = some d) (hg : GrownBehind (w.front a) d c')
    (hsize : w.writebuf ≠ some a → c'.body.size = d.body.size) (hlink : c'.next = d.next) :
    Appends h w (h.put a c') w := by
  refine ⟨le_rfl, fun x e _ he => ?_, fun x _ U y e he => ?_, rfl, rfl, fun x => .inl⟩
  · by_cases hx : x = a
    · subst hx
      rw [put_self, Option.some.injEq] at he
      exact ⟨d, hd, he ▸ hg, he ▸ hsize⟩
    · exact ⟨e, by rwa [put_of_ne hx] at he, .of_eq rfl rfl, fun _ => rfl⟩
  · by_cases hy : y = a
    · subst hy
      rw [put_self, Option.some.injEq] at he
      rw [← he, hlink]
      exact U y d hd
    · exact U y e (by rwa [put_of_ne hy] at he)

/-- The length in front of the packet is overwritten. -/
theorem Appends.shape (hback : Shape h' h) (hfresh : h'.fresh = h.fresh)
    (hbytes : ∀ p : ℕ × ℕ, w.front p.1 ≤ p.2 → byteAt h' p = byteAt h p) : Appends h w h' w := by
  refine ⟨hfresh.ge, fun x c' _ hc' => ?_, fun x _ U y e he => ?_, rfl, rfl, fun x => .inl⟩
  · obtain ⟨c, hc, hn, hcap, hsize⟩ := hback x c' hc'
    refine ⟨c, hc, ⟨fun n h => hn ▸ h, hcap.symm, hsize.le, fun p hp _ => ?_⟩, fun _ => hsize.symm⟩
    have := hbytes (x, p) hp
    rwa [byteAt, byteAt, hc', hc, Option.bind_some, Option.bind_some] at this
  · obtain ⟨e', he', hn, -⟩ := hback y e he
    rw [← hn]
    exact U y e' he'

/-- The buffers that are held are still in memory, and filled further. -/
theorem Appends.grown {x y : ℕ} (A : Appends h w h' w') (S : Sound h own) (S' : Sound h' own')
    (hx : ∃ c', h'.cell x = some c') (hxy : Reach h x y) (hc : h.cell y = some c) :
    ∃ c', h'.cell y = some c' ∧ GrownBehind (w.front y) c c' ∧
      (w.writebuf ≠ some y → c'.body.size = c.body.size) := by
  induction hxy with
  | refl y =>
    obtain ⟨c', hc'⟩ := hx
    obtain ⟨d, hd, hg⟩ := A.cell y c' (S.bound y c hc) hc'
    obtain rfl := Option.some.inj (hd.symm.trans hc)
    exact ⟨c', hc', hg⟩
  | step hd hn rest ih =>
    obtain ⟨d', hd'⟩ := hx
    obtain ⟨d₀, hd₀, hg, -⟩ := A.cell _ d' (S.bound _ _ hd) hd'
    obtain rfl := Option.some.inj (hd₀.symm.trans hd)
    exact ih (S'.next_live hd' (hg.next _ hn)).2 hc

theorem Appends.reach {x y : ℕ} (A : Appends h w h' w') (S : Sound h own) (S' : Sound h' own')
    (hx : ∃ c', h'.cell x = some c') (hxy : Reach h x y) : Reach h' x y := by
  induction hxy with
  | refl y => exact .refl y
  | step hd hn rest ih =>
    obtain ⟨d', hd', hg, -⟩ := A.grown S S' hx (.refl _) hd
    exact .step hd' (hg.next _ hn) (ih (S'.next_live hd' (hg.next _ hn)).2)

/-- **A span stays where it is**, and so do its bytes behind the length of the packet. -/
theorem Appends.span (A : Appends h w h' w') (S : Sound h own) (S' : Sound h' own')
    (hx : ∃ c', h'.cell a = some c') (hs : Span h a pos ps b pos') :
    Span h' a pos ps b pos' ∧ ∀ p ∈ ps, w.front p.1 ≤ p.2 → byteAt h' p = byteAt h p := by
  induction hs with
  | @here a pos n c hc hn =>
    obtain ⟨c', hc', hg, -⟩ := A.grown S S' hx (.refl a) hc
    have hsize := hg.size
    refine ⟨Span.here hc' (by omega), fun p hp hfront => ?_⟩
    obtain ⟨hp₁, -, hp₂⟩ := mem_places.mp hp
    rw [hp₁] at hfront
    rw [byteAt, byteAt, hp₁, hc, hc']
    exact hg.bytes p.2 hfront (by omega)
  | @cross a pos m a' pos' rest c hc hpos hfull hnext hrest ih =>
    obtain ⟨c', hc', hg, -⟩ := A.grown S S' hx (.refl a) hc
    obtain ⟨hrest', hbytes⟩ := ih (S'.next_live hc' (hg.next m hnext)).2
    have hsize' := (S'.wf a c' hc').size_le
    have hsize := hg.size
    have hcap := hg.capacity
    have heq : c'.body.size = c.body.size := by omega
    refine ⟨?_, fun p hp hfront => ?_⟩
    · rw [← heq]
      exact Span.cross hc' (by omega) (by omega) (hg.next m hnext) hrest'
    · rcases List.mem_append.mp hp with hp | hp
      · obtain ⟨hp₁, -, hp₂⟩ := mem_places.mp hp
        rw [hp₁] at hfront
        rw [byteAt, byteAt, hp₁, hc, hc']
        exact hg.bytes p.2 hfront (by omega)
      · exact hbytes p hp hfront

/-! ## A new buffer -/

/-- **`wpacket_expand`** goes on in a new buffer. -/
theorem wpacketExpand_spec (S : Sound h (w.owned + own)) (B : Building cap h w a ps b c payload)
    (hfull : w.wpos = c.body.capacity) :
    ∃ h' w' d, wpacketExpand h w = .ok (h', w') ∧ Sound h' (w'.owned + own) ∧
      Building cap h' w' a ps h.fresh d payload ∧ w'.raw = w.raw ∧ w'.wpos = 0 ∧
      Appends h w h' w' := by
  have hfactor : w.factor * 2 % 0x100 < 0x100 := Nat.mod_lt _ (by decide)
  obtain ⟨h₁, h₂, hnew, hlink, S₂, X, hb₂, hfresh, hup, -, hother, hbound⟩ :=
    linkNew_spec S (n := w.factor * 2 % 0x100) B.cell B.last (by rw [headerSize]; omega)
  have S₂' : Sound h₂ (refs (some b) + (refs w.buf + own)) := by
    rw [← B.writebuf, ← add_assoc, add_comm (refs w.writebuf)]
    exact S₂
  obtain ⟨h', hacq, S', K⟩ := bufferAcquire_spec S₂' (p := some h.fresh)
    (fun x hx => Option.some.inj hx ▸ ⟨_, hfresh⟩)
  -- the old buffers are as they were, but for the link to the new one
  obtain ⟨hs₂, hsame₂⟩ := B.span.grow X.growsFrom S₂
  have hh₂ := B.header.grow B.span X.growsFrom
  have hcross : Span h₂ b w.wpos [] h.fresh 0 := by
    have := Span.cross hb₂ (show w.wpos ≤ _ from B.size.ge) (B.size.trans hfull) rfl
      (.nil hfresh le_rfl)
    rwa [List.append_nil, show ({ c with next := some h.fresh } : Cell Block).body = c.body from rfl,
      B.size, Nat.sub_self, places, List.range'_zero, List.map_nil] at this
  have hs₃ := hs₂.append hcross
  rw [List.append_nil] at hs₃
  have hlive : ∃ e, h'.cell a = some e := S'.live (by simp [B.buf])
  have G : GrowsFrom h₂ h' a := .of_keepsFrom (K.from S'.toExact hlive)
  obtain ⟨hs', hsame'⟩ := hs₃.grow G S'
  obtain ⟨d, hd⟩ := S'.live (show h.fresh ∈ refs (some h.fresh) + (refs w.buf + own) by simp)
  obtain ⟨d₂, hd₂, hdn, hdb⟩ := K.cell _ d hd
  obtain rfl := Option.some.inj (hd₂.symm.trans hfresh)
  have hcap : d.body.capacity = w.factor * 2 % 0x100 := by rw [hdb]
  refine ⟨h', { w with factor := w.factor * 2 % 0x100, writebuf := some h.fresh, wpos := 0 }, d, ?_, ?_,
    ⟨B.buf, rfl, B.beginPos, B.dataSize, hs', (B.bytes.congr hsame₂).congr hsame',
      (hh₂.grow hs₂ G).congr rfl rfl, hd, hdn, by rw [hdb], fun i _ hi => ?_, ?_, ?_,
      B.cap_le, ?_, ?_⟩, rfl, rfl, ?_⟩
  · rw [wpacketExpand, B.writebuf]
    simp only [Exec.deref_some, Exec.ok_bind, hnew, hlink, hacq]
    rfl
  · rw [owned, add_comm (refs w.buf), add_assoc]
    exact S'
  · rw [byteAt, hd, Option.bind_some, hdb]
    exact List.getElem?_replicate_of_lt (hcap ▸ hi)
  · rw [hcap, Nat.mod_mod]
  · have hroom := B.room
    rw [hcap]
    change w.dataSize + (w.factor * 2 % 0x100 - 0) + laterRoom 8 (w.factor * 2 % 0x100) = _
    rw [laterRoom_eq] at hroom
    omega
  · obtain ⟨e', he', hecap, hsecond⟩ := (B.begins.grow X.growsFrom).grow G
    refine ⟨e', he', hecap, .inr ?_⟩
    rcases hsecond with rfl | hsecond
    · -- the new buffer is the second one
      obtain ⟨e₂, he₂, hn₂, hbody₂⟩ := K.cell a e' he'
      obtain rfl := Option.some.inj (hb₂.symm.trans he₂)
      refine ⟨h.fresh, d, hn₂, hd, ?_⟩
      rw [hcap, B.factor, ← hecap, hbody₂, Nat.mod_mul_mod]
    · exact hsecond
  · refine ((B.tapers.grow X.growsFrom).snoc hb₂ rfl hfresh fun hzero => ?_).grow G
    change w.factor * 2 % 0x100 = 0
    rw [B.factor, show c.body.capacity = 0 from hzero]
  · have A₂ : Appends h w h₂
        { w with factor := w.factor * 2 % 0x100, writebuf := some h.fresh, wpos := 0 } := by
      refine ⟨by omega, fun x e hx he => ?_, fun x hx U y e he => ?_, rfl, rfl,
        fun x hx => .inr (Option.some.inj hx).le⟩
      · by_cases hxb : x = b
        · subst hxb
          rw [hb₂, Option.some.injEq] at he
          refine ⟨c, B.cell, ⟨fun n hn => ?_, by rw [← he], by rw [← he], fun p _ _ => by rw [← he]⟩,
            fun _ => by rw [← he]⟩
          rw [B.last] at hn
          cases hn
        · exact ⟨e, by rwa [hother x hxb hx.ne] at he, .of_eq rfl rfl, fun _ => rfl⟩
      · by_cases hyb : y = b
        · rw [hyb, hb₂, Option.some.injEq] at he
          rw [← he]
          exact fun heq => hx.ne (Option.some.inj heq).symm
        · by_cases hyf : y = h.fresh
          · rw [hyf, hfresh, Option.some.injEq] at he
            rw [← he]
            simp
          · exact U y e (by rwa [hother y hyb hyf] at he)
    exact A₂.trans (.of_keeps K)

/-! ## Filling the last buffer -/

/-- The first part of a round of `wpacket_write`: a new buffer if the last one is full. -/
def expandIfFull (h : Heap) (w : WPacket) : Exec (Heap × WPacket) := do
  let a ← Exec.deref w.writebuf
  if sub32 (← h.get a).body.capacity w.wpos = 0 then wpacketExpand h w else return (h, w)

/-- The length in front of the packet after `n` more bytes. -/
def addLen (h : Heap) (w : WPacket) (n : ℕ) : Exec Heap :=
  match w.len with
  | some p => do storeAt h p (toBytes lenSize (add32 (← loadWord h p) n))
  | none => .ok h

/-- The second part of a round of `wpacket_write`: as many bytes as there is room for. -/
def fillLast (h : Heap) (w : WPacket) (bs : List UInt8) : Exec (Heap × WPacket × ℕ) := do
  let a ← Exec.deref w.writebuf
  let copySize := min (sub32 (← h.get a).body.capacity w.wpos) bs.length
  let h ← storeAt h (a, w.wpos) (bs.take copySize)
  let h ← setSize h a (add32 (← h.get a).body.size copySize)
  let h ← addLen h w copySize
  return (h, { w with wpos := add32 w.wpos copySize, dataSize := add32 w.dataSize copySize }, copySize)

theorem writeRound_eq (h : Heap) (w : WPacket) (bs : List UInt8) :
    writeRound h w bs = (expandIfFull h w >>= fun x => fillLast x.1 x.2 bs) := by
  unfold writeRound expandIfFull
  cases w.writebuf with
  | none => rfl
  | some a =>
    simp only [Exec.deref_some, Exec.ok_bind]
    cases h.get a with
    | error f => rfl
    | ok c =>
      simp only [Exec.ok_bind]
      split_ifs <;> rfl

/-- The number at a place. -/
theorem loadWord_spec (S : Sound h own) (hc : h.cell a = some c) (hsize : pos + lenSize ≤ c.body.size)
    (hb : Bytes h (places a pos lenSize) (toBytes lenSize n)) (hn : n < 0x100000000) :
    loadWord h (a, pos) = .ok n := by
  have hload := Span.load S hc hsize
    (show Bytes h (places a pos lenSize ++ []) (toBytes lenSize n) by rwa [List.append_nil])
  rw [List.take_of_length_le (by rw [length_toBytes])] at hload
  rw [loadWord, get_eq hc, Exec.ok_bind, hload, Exec.ok_bind, ofBytes_toBytes (by simpa [lenSize])]
  rfl

/-- **The length** in front of the packet is kept right, and the rest of the packet is not touched. -/
theorem addLen_spec (S : Sound h own) (hs : Span h a (headerLen w.raw) ps b pos')
    (hb : Bytes h ps bs) (H : Header h w a n) (hn : n + k < 0x100000000) :
    ∃ h', addLen h w k = .ok h' ∧ Sound h' own ∧ Span h' a (headerLen w.raw) ps b pos' ∧
      Bytes h' ps bs ∧ Header h' w a (n + k) ∧ Shape h h' ∧ Shape h' h ∧
      h'.fresh = h.fresh ∧ ∀ p ∉ places a 0 (headerLen w.raw), byteAt h' p = byteAt h p := by
  unfold Header headerLen at *
  split_ifs at * with hraw
  · exact ⟨h, by rw [addLen, H], S, hs, hb, H, fun x e he => ⟨e, he, rfl, rfl, rfl⟩,
      fun x e he => ⟨e, he, rfl, rfl, rfl⟩, rfl, fun _ _ => rfl⟩
  · obtain ⟨hlen, hbytes⟩ := H
    obtain ⟨c, hc, hsize⟩ := hs.start
    have hcap := (S.wf a c hc).size_le
    have hword := loadWord_spec S hc (by rwa [zero_add]) hbytes (by omega)
    obtain ⟨h', buf, hstore, S', hput, hother, hnew⟩ := storeAt_spec S hc
      (show 0 + (toBytes lenSize (n + k)).length ≤ _ by rw [length_toBytes]; omega)
    rw [length_toBytes] at hother hnew
    have hshape : Shape h h' := hput ▸ Shape.put hc buf
    refine ⟨h', ?_, S', hs.shape hshape, hb.congr fun p hp => hother p fun hm => ?_, ⟨hlen, hnew⟩,
      hshape, hput ▸ Shape.of_put hc buf, by rw [hput, put_fresh], hother⟩
    · rw [addLen, hlen]
      simp only [hword, Exec.ok_bind, add32_of_lt hn, hstore]
    · obtain ⟨hp₁, -, hp₂⟩ := mem_places.mp hm
      have := (hs.le_of_mem S.toExact p hp).2 hp₁
      omega

/-- **Filling the last buffer** with the bytes there is room for. -/
theorem fillLast_spec (S : Sound h (w.owned + own)) (B : Building cap h w a ps b c payload)
    (hk : k = min (c.body.capacity - w.wpos) bs.length) :
    ∃ h' w' d, fillLast h w bs = .ok (h', w', k) ∧ Sound h' (w'.owned + own) ∧
      Building cap h' w' a (ps ++ places b w.wpos k) b d (payload ++ bs.take k) ∧ w'.raw = w.raw ∧
      Appends h w h' w' := by
  have hwf := S.wf b c B.cell
  have hle := hwf.size_le
  have hsize := B.size
  have hlt := hwf.lt
  have hroom := B.room
  have htotal := B.dataSize
  have hbound := B.dataSize_le
  have hlen : (bs.take k).length = k := by
    rw [List.length_take]
    omega
  obtain ⟨h₁, buf, hstore, S₁, hput₁, hother, hnew⟩ := storeAt_spec S B.cell
    (show w.wpos + (bs.take k).length ≤ _ by omega)
  rw [hlen] at hother hnew
  obtain ⟨c₁, hc₁⟩ : ∃ c₁ : Cell Block, c₁ = { c with body := { c.body with buf := buf } } := ⟨_, rfl⟩
  rw [← hc₁] at hput₁
  have hcell₁ : h₁.cell b = some c₁ := by rw [hput₁, put_self]
  have G₁ : GrowsFrom h h₁ a := by
    rw [hput₁]
    refine .put B.cell ⟨fun n hn => by rw [hc₁]; exact hn, by rw [hc₁], by rw [hc₁], fun p hp => ?_⟩
    have := hother (b, p) (by rw [mem_places]; omega)
    rwa [byteAt, byteAt, hcell₁, B.cell, Option.bind_some, Option.bind_some] at this
  have hsize₁ : c₁.body.size = w.wpos := by rw [hc₁, ← hsize]
  have hcap₁ : c₁.body.capacity = c.body.capacity := by rw [hc₁]
  obtain ⟨h₂, hset, S₂, hput₂, hsame₂⟩ := setSize_spec (n := w.wpos + k) S₁ hcell₁ (by omega)
  obtain ⟨c₂, hc₂⟩ : ∃ c₂ : Cell Block, c₂ = { c₁ with body := { c₁.body with size := w.wpos + k } } :=
    ⟨_, rfl⟩
  rw [← hc₂] at hput₂
  have hcell₂ : h₂.cell b = some c₂ := by rw [hput₂, put_self]
  have G₂ : GrowsFrom h₁ h₂ a := by
    rw [hput₂]
    refine .put hcell₁ ⟨fun n hn => by rw [hc₂]; exact hn, by rw [hc₂], ?_, fun p hp => by rw [hc₂]⟩
    rw [hc₂, hsize₁]
    exact Nat.le_add_right _ _
  -- what was there is still there, and the bytes written come after it
  obtain ⟨hs₁, hsame₁⟩ := B.span.grow G₁ S₁
  obtain ⟨hs₂, -⟩ := hs₁.grow G₂ S₂
  have hs := hs₂.append (Span.here (n := k) hcell₂ (by rw [hc₂]))
  have hb := ((B.bytes.congr hsame₁).append hnew).congr fun p _ => hsame₂ p
  have hh := (B.header.grow B.span G₁).grow hs₁ G₂
  obtain ⟨h', hadd, S', hs', hb', hh', hshape, hback, hfresh', hother'⟩ :=
    addLen_spec (k := k) S₂ hs hb hh (by omega)
  obtain ⟨d, hd, hdn, hdc, hds⟩ := hshape b c₂ hcell₂
  have hcap : d.body.capacity = c.body.capacity := by rw [hdc, hc₂, hc₁]
  refine ⟨h', { w with wpos := w.wpos + k, dataSize := w.dataSize + k }, d, ?_, S', ⟨B.buf, B.writebuf,
    B.beginPos, ?_, hs', hb', ?_, hd, ?_, ?_, ?_, ?_, ?_, B.cap_le, ?_, ?_⟩, rfl, ?_⟩
  · rw [fillLast, B.writebuf]
    simp only [Exec.deref_some, Exec.ok_bind, get_eq B.cell,
      sub32_of_le (show w.wpos ≤ c.body.capacity by omega) hlt, ← hk, hstore, get_eq hcell₁, hsize₁,
      add32_of_lt (show w.wpos + k < 0x100000000 by omega), hset, hadd,
      add32_of_lt (show w.dataSize + k < 0x100000000 by omega)]
    rfl
  · change w.dataSize + k = headerLen w.raw + _
    rw [List.length_append, hlen]
    omega
  · rw [List.length_append, hlen]
    exact hh'.congr rfl rfl
  · rw [hdn, hc₂, hc₁]
    exact B.last
  · rw [hds, hc₂]
  · intro i hge hlt
    change w.wpos + k ≤ i at hge
    rw [hother' (b, i) fun hm => ?_, hsame₂, hother (b, i) (by rw [mem_places]; omega)]
    · exact B.clear i (by omega) (by omega)
    · obtain ⟨rfl, -, hhead⟩ := mem_places.mp hm
      have := B.span.start_le S.toExact
      change i < _ at hhead
      omega
  · exact hcap ▸ B.factor
  · change w.dataSize + k + (d.body.capacity - (w.wpos + k)) + laterRoom 8 w.factor = _
    rw [hcap]
    omega
  · exact ((B.begins.grow G₁).grow G₂).shape hshape
  · exact ((B.tapers.grow G₁).grow G₂).shape hshape
  · have hstored : ∀ p, w.front b ≤ p → p < c.body.size → c₁.body.buf[p]? = c.body.buf[p]? := by
      intro p _ hp
      have := hother (b, p) (by rw [mem_places]; omega)
      rwa [byteAt, byteAt, hcell₁, B.cell, Option.bind_some, Option.bind_some] at this
    have A₁ : Appends h w h₁ w := hput₁ ▸ .put B.cell
      ⟨fun n hn => by rw [hc₁]; exact hn, hcap₁, by rw [hc₁], hstored⟩ (fun _ => by rw [hc₁]) (by rw [hc₁])
    have A₂ : Appends h₁ w h₂ w := hput₂ ▸ .put hcell₁
      ⟨fun n hn => by rw [hc₂]; exact hn, by rw [hc₂], by rw [hc₂]; dsimp only; omega,
        fun p _ _ => by rw [hc₂]⟩ (fun hne => absurd B.writebuf hne) (by rw [hc₂])
    have A₃ : Appends h₂ w h' w := .shape hback hfresh' fun p hp => hother' p fun hm => by
      obtain ⟨hp₁, -, hp₂⟩ := mem_places.mp hm
      rw [WPacket.front, hp₁, if_pos B.buf] at hp
      omega
    exact (A₁.trans A₂).trans ⟨A₃.fresh, A₃.cell, A₃.unlinked, rfl, rfl, A₃.writebuf⟩

/-! ## Writing -/

/-- **A round of `wpacket_write`** writes the first bytes, at least one of them unless all the room
there will ever be is used up. -/
theorem writeRound_spec (S : Sound h (w.owned + own)) (B : Built cap h w payload) (bs : List UInt8) :
    ∃ h' w' k, writeRound h w bs = .ok (h', w', k) ∧ k ≤ bs.length ∧ Sound h' (w'.owned + own) ∧
      Built cap h' w' (payload ++ bs.take k) ∧ w'.raw = w.raw ∧
      (k = 0 → bs ≠ [] → w.dataSize = roomOf cap) ∧ Appends h w h' w' := by
  obtain ⟨a, ps, b, c, B⟩ := B
  have hle := (S.wf b c B.cell).size_le
  have hlt := (S.wf b c B.cell).lt
  have hsize := B.size
  have hfull : expandIfFull h w =
      if c.body.capacity - w.wpos = 0 then wpacketExpand h w else .ok (h, w) := by
    rw [expandIfFull, B.writebuf]
    simp only [Exec.deref_some, Exec.ok_bind, get_eq B.cell, sub32_of_le (hsize ▸ hle) hlt]
    rfl
  rw [writeRound_eq, hfull]
  split_ifs with hzero
  · obtain ⟨h₁, w₁, d, hexp, S₁, B₁, hraw₁, hpos₁, A₁⟩ := wpacketExpand_spec S B (by omega)
    obtain ⟨h', w', d', hfill, S', B', hraw, A'⟩ := fillLast_spec S₁ B₁
      (show _ = min (d.body.capacity - w₁.wpos) bs.length from rfl)
    rw [hexp, Exec.ok_bind]
    refine ⟨h', w', _, hfill, Nat.min_le_right _ _, S', ⟨_, _, _, _, B'⟩, hraw.trans hraw₁,
      fun hk hbs => ?_, A₁.trans A'⟩
    -- the new buffer has no room, and later ones will have none
    have hlen := List.length_pos_iff.mpr hbs
    have hempty : d.body.capacity = 0 := by omega
    have hroom := B₁.room
    have hnone : laterRoom 8 0 = 0 := rfl
    rw [B₁.factor, hempty, Nat.zero_mod, hnone, B₁.dataSize, hraw₁] at hroom
    rw [B.dataSize]
    omega
  · obtain ⟨h', w', d', hfill, S', B', hraw, A'⟩ := fillLast_spec S B
      (show _ = min (c.body.capacity - w.wpos) bs.length from rfl)
    rw [Exec.ok_bind]
    refine ⟨h', w', _, hfill, Nat.min_le_right _ _, S', ⟨_, _, _, _, B'⟩, hraw, fun hk hbs => ?_, A'⟩
    have hlen := List.length_pos_iff.mpr hbs
    omega

/-- **The loop of `wpacket_write`**, if it ends, has written all bytes. -/
theorem wpacketWriteLoop_ok {fuel : ℕ} (S : Sound h (w.owned + own)) (B : Built cap h w payload)
    (hrun : wpacketWriteLoop fuel h w bs = .ok (h', w')) :
    Sound h' (w'.owned + own) ∧ Built cap h' w' (payload ++ bs) ∧ w'.raw = w.raw := by
  induction fuel generalizing h w payload bs with
  | zero => cases hrun
  | succ fuel ih =>
    rw [wpacketWriteLoop] at hrun
    split_ifs at hrun with hzero
    · obtain ⟨rfl, rfl⟩ := Prod.mk.inj (Except.ok.inj hrun)
      rw [List.eq_nil_of_length_eq_zero hzero, List.append_nil]
      exact ⟨S, B, rfl⟩
    · obtain ⟨h₁, w₁, k, hround, -, S₁, B₁, hraw₁, -⟩ := writeRound_spec S B bs
      rw [hround, Exec.ok_bind] at hrun
      obtain ⟨S', B', hraw⟩ := ih S₁ B₁ hrun
      rw [List.append_assoc, List.take_append_drop] at B'
      exact ⟨S', B', hraw.trans hraw₁⟩

/-- **`wpacket_write`** on a packet with buffers of its own. -/
theorem wpacketWrite_ok (S : Sound h (w.owned + own)) (B : Built cap h w payload)
    (hrun : wpacketWrite h w bs = .ok (h', w')) :
    Sound h' (w'.owned + own) ∧ Built cap h' w' (payload ++ bs) ∧ w'.raw = w.raw := by
  obtain ⟨a, ps, b, c, B⟩ := B
  rw [wpacketWrite, B.writebuf] at hrun
  exact wpacketWriteLoop_ok S ⟨a, ps, b, c, B⟩ hrun

/-- The bytes that `wpacket_write_binary` writes. -/
def binaryBytes (raw : Bool) (value : List UInt8) (size : ℕ) : List UInt8 :=
  (if raw then [] else toBytes lenSize size) ++ value.take size

/-- The bytes that a call writes. -/
def Write.bytes (raw : Bool) : Write → List UInt8
  | .uint8 value => toBytes 1 value.toNat
  | .uint16 value => toBytes 2 value.toNat
  | .uint32 value => toBytes 4 value.toNat
  | .uint64 value => toBytes 8 value.toNat
  | .string value =>
    binaryBytes raw (value ++ [0]) ((value.length + if raw then 0 else 1) % 0x100000000)
  | .binary value => binaryBytes raw value value.length

theorem wpacketWriteBinary_ok {value : List UInt8} {size : ℕ} (S : Sound h (w.owned + own))
    (B : Built cap h w payload) (hrun : wpacketWriteBinary h w value size = .ok (h', w')) :
    Sound h' (w'.owned + own) ∧ Built cap h' w' (payload ++ binaryBytes w.raw value size) ∧
      w'.raw = w.raw := by
  obtain ⟨⟨h₁, w₁⟩, hlen, hrun⟩ := Exec.bind_eq_ok.mp hrun
  rw [binaryBytes]
  split_ifs at hlen ⊢ with hraw
  · obtain ⟨rfl, rfl⟩ := Prod.mk.inj (Except.ok.inj hlen)
    exact wpacketWrite_ok S B hrun
  · obtain ⟨S₁, B₁, hraw₁⟩ := wpacketWrite_ok S B hlen
    obtain ⟨S', B', hraw'⟩ := wpacketWrite_ok S₁ B₁ hrun
    rw [List.append_assoc] at B'
    exact ⟨S', B', hraw'.trans hraw₁⟩

/-- **Every call that writes**, if it returns, has written its bytes. -/
theorem write_ok (S : Sound h (w.owned + own)) (B : Built cap h w payload) (op : Write)
    (hrun : write h w op = .ok (h', w')) :
    Sound h' (w'.owned + own) ∧ Built cap h' w' (payload ++ op.bytes w.raw) ∧ w'.raw = w.raw := by
  cases op with
  | uint8 value => exact wpacketWrite_ok S B hrun
  | uint16 value => exact wpacketWrite_ok S B hrun
  | uint32 value => exact wpacketWrite_ok S B hrun
  | uint64 value => exact wpacketWrite_ok S B hrun
  | string value =>
    simp only [write, wpacketWriteString] at hrun
    simp only [Write.bytes]
    split_ifs at hrun ⊢ with hraw
    · exact wpacketWriteBinary_ok S B hrun
    · exact wpacketWriteBinary_ok S B hrun
  | binary value => exact wpacketWriteBinary_ok S B hrun

/-- **What every call that writes leaves.** -/
theorem wpacketWriteLoop_appends {fuel : ℕ} (S : Sound h (w.owned + own)) (B : Built cap h w payload)
    (hrun : wpacketWriteLoop fuel h w bs = .ok (h', w')) : Appends h w h' w' := by
  induction fuel generalizing h w payload bs with
  | zero => cases hrun
  | succ fuel ih =>
    rw [wpacketWriteLoop] at hrun
    split_ifs at hrun with hzero
    · cases Except.ok.inj hrun
      exact .refl _ _
    · obtain ⟨h₁, w₁, k, hround, -, S₁, B₁, -, -, A₁⟩ := writeRound_spec S B bs
      rw [hround, Exec.ok_bind] at hrun
      exact A₁.trans (ih S₁ B₁ hrun)

theorem wpacketWrite_appends (S : Sound h (w.owned + own)) (B : Built cap h w payload)
    (hrun : wpacketWrite h w bs = .ok (h', w')) : Appends h w h' w' := by
  obtain ⟨a, ps, b, c, B⟩ := B
  rw [wpacketWrite, B.writebuf] at hrun
  exact wpacketWriteLoop_appends S ⟨a, ps, b, c, B⟩ hrun

theorem wpacketWriteBinary_appends {value : List UInt8} {size : ℕ} (S : Sound h (w.owned + own))
    (B : Built cap h w payload) (hrun : wpacketWriteBinary h w value size = .ok (h', w')) :
    Appends h w h' w' := by
  obtain ⟨⟨h₁, w₁⟩, hlen, hrun⟩ := Exec.bind_eq_ok.mp hrun
  split_ifs at hlen with hraw
  · cases Except.ok.inj hlen
    exact wpacketWrite_appends S B hrun
  · obtain ⟨S₁, B₁, -⟩ := wpacketWrite_ok S B hlen
    exact (wpacketWrite_appends S B hlen).trans (wpacketWrite_appends S₁ B₁ hrun)

theorem write_appends (S : Sound h (w.owned + own)) (B : Built cap h w payload) (op : Write)
    (hrun : write h w op = .ok (h', w')) : Appends h w h' w' := by
  cases op with
  | uint8 value => exact wpacketWrite_appends S B hrun
  | uint16 value => exact wpacketWrite_appends S B hrun
  | uint32 value => exact wpacketWrite_appends S B hrun
  | uint64 value => exact wpacketWrite_appends S B hrun
  | string value =>
    simp only [write, wpacketWriteString] at hrun
    split_ifs at hrun
    · exact wpacketWriteBinary_appends S B hrun
    · exact wpacketWriteBinary_appends S B hrun
  | binary value => exact wpacketWriteBinary_appends S B hrun

/-- Writes one after the other. -/
def writeAll : Heap → WPacket → List Write → Exec (Heap × WPacket)
  | h, w, [] => .ok (h, w)
  | h, w, op :: ops => do
    let (h, w) ← write h w op
    writeAll h w ops

/-- **A sequence of writes** that runs to its end. -/
theorem writeAll_ok {ops : List Write} (S : Sound h (w.owned + own)) (B : Built cap h w payload)
    (hrun : writeAll h w ops = .ok (h', w')) :
    Sound h' (w'.owned + own) ∧ Built cap h' w' (payload ++ ops.flatMap (Write.bytes w.raw)) ∧
      w'.raw = w.raw := by
  induction ops generalizing h w payload with
  | nil =>
    obtain ⟨rfl, rfl⟩ := Prod.mk.inj (Except.ok.inj hrun)
    rw [List.flatMap_nil, List.append_nil]
    exact ⟨S, B, rfl⟩
  | cons op ops ih =>
    obtain ⟨⟨h₁, w₁⟩, hop, hrun⟩ := Exec.bind_eq_ok.mp hrun
    obtain ⟨S₁, B₁, hraw₁⟩ := write_ok S B op hop
    obtain ⟨S', B', hraw⟩ := ih S₁ B₁ hrun
    rw [hraw₁, List.append_assoc] at B'
    exact ⟨S', B', hraw.trans hraw₁⟩

/-! ## Creation -/

/-- The first state of a packet. -/
theorem building_first (S : Sound h own) (hcap : cap ≤ 0x80000000) (hbuf : w.buf = some a)
    (hwritebuf : w.writebuf = some a) (hbegin : w.beginPos = 0) (hpos : w.wpos = headerLen w.raw)
    (hdata : w.dataSize = headerLen w.raw) (hfactor : w.factor = cap % 0x100)
    (hc : h.cell a = some c) (hlast : c.next = none) (hsize : c.body.size = headerLen w.raw)
    (hc_cap : c.body.capacity = cap) (hheader : Header h w a 0)
    (hclear : ∀ i, headerLen w.raw ≤ i → i < cap → byteAt h (a, i) = some 0) :
    Built cap h w [] := by
  have hle := (S.wf a c hc).size_le
  refine ⟨a, [], a, c, hbuf, hwritebuf, hbegin, hdata, ?_, rfl, hheader, hc, hlast,
    hsize.trans hpos.symm, ?_, ?_, ?_, hcap, ⟨c, hc, hc_cap, .inl rfl⟩, .last hc⟩
  · rw [hpos]
    exact .nil hc hsize.ge
  · rwa [hpos, hc_cap]
  · rw [hfactor, hc_cap]
  · rw [hfactor, roomOf]
    omega

/-- **`wpacket_create`**, if the length fits into the first buffer. -/
theorem wpacketCreate_spec {size : ℕ} {raw : Bool} (S : Sound h own) (hsize : size < 0x100000000)
    (hfits : raw = true ∨ lenSize ≤ getSizeOfPow2 size) :
    ∃ h' w, wpacketCreate h size raw = .ok (h', w) ∧ Sound h' (w.owned + own) ∧
      Built (getSizeOfPow2 size) h' w [] ∧ w.raw = raw := by
  obtain ⟨cap, hcap⟩ : ∃ cap, cap = getSizeOfPow2 size := ⟨_, rfl⟩
  rw [← hcap] at hfits
  have hbound : cap ≤ 0x80000000 := by
    rcases getSizeOfPow2_bounds hsize with hzero | ⟨-, hle⟩
    · omega
    · omega
  obtain ⟨h₁, hnew, S₁, hcell₁, -, -⟩ :=
    bufferCreateAndAcquire_spec S (n := cap) (by rw [headerSize]; omega)
  obtain ⟨h₂, hacq, S₂, K₂⟩ := bufferAcquire_spec (o := none) (p := some h.fresh)
    (show Sound h₁ (refs none + (h.fresh ::ₘ own)) by simpa using S₁)
    (fun x hx => Option.some.inj hx ▸ ⟨_, hcell₁⟩)
  rw [← Multiset.singleton_add, ← refs_some, ← add_assoc] at S₂
  obtain ⟨c, hc⟩ := S₂.live (show h.fresh ∈ refs (some h.fresh) + refs (some h.fresh) + own by simp)
  obtain ⟨c₁, hc₁, hlast, hbody⟩ := K₂.cell _ c hc
  obtain rfl := Option.some.inj (hc₁.symm.trans hcell₁)
  have hclear : ∀ i, i < cap → byteAt h₂ (h.fresh, i) = some 0 := by
    intro i hi
    rw [byteAt, hc, Option.bind_some, hbody]
    exact List.getElem?_replicate_of_lt hi
  simp only [wpacketCreate, ← hcap, hnew, Exec.ok_bind, hacq]
  cases raw with
  | true =>
    obtain ⟨h₃, hset, S₃, hput, hsame⟩ := setSize_spec (n := 0) S₂ hc (Nat.zero_le _)
    rw [if_pos rfl, hset]
    refine ⟨h₃, _, rfl, S₃, building_first (c := { c with body := { c.body with size := 0 } }) S₃ hbound
      rfl rfl rfl rfl rfl rfl (by rw [hput, put_self]) hlast rfl (by dsimp only; rw [hbody]) rfl
      fun i _ hi => ?_, rfl⟩
    rw [hsame, hclear i hi]
  | false =>
    replace hfits := hfits.resolve_left (by decide)
    have hcapacity : c.body.capacity = cap := by rw [hbody]
    obtain ⟨h₃, buf, hstore, S₃, hput₃, hother, hnew₃⟩ := storeAt_spec S₂ hc
      (show 0 + (toBytes lenSize 0).length ≤ c.body.capacity by rw [length_toBytes]; omega)
    obtain ⟨c₃, hc₃⟩ : ∃ c₃ : Cell Block, c₃ = { c with body := { c.body with buf := buf } } := ⟨_, rfl⟩
    rw [← hc₃] at hput₃
    rw [length_toBytes] at hother hnew₃
    obtain ⟨h₄, hset, S₄, hput₄, hsame⟩ := setSize_spec (n := lenSize) S₃
      (show h₃.cell h.fresh = some c₃ by rw [hput₃, put_self]) (by rw [hc₃]; dsimp only; omega)
    rw [if_neg (by decide), hstore, Exec.ok_bind, hset]
    refine ⟨h₄, _, rfl, S₄, building_first
      (c := { c₃ with body := { c₃.body with size := lenSize } }) S₄ hbound rfl rfl rfl rfl rfl rfl
      (by rw [hput₄, put_self]) (by rw [hc₃]; exact hlast) rfl (by rw [hc₃]; exact hcapacity)
      ⟨rfl, hnew₃.congr fun p _ => hsame p⟩ fun i hge hi => ?_, rfl⟩
    change lenSize ≤ i at hge
    rw [hsame, hother _ (by rw [mem_places]; dsimp only; omega), hclear i hi]

/-- The length in front of a packet that has been created fits into the first buffer. -/
theorem wpacketCreate_fits {size : ℕ} {raw : Bool} (S : Sound h own) (hsize : size < 0x100000000)
    (hrun : wpacketCreate h size raw = .ok (h', w)) :
    raw = true ∨ lenSize ≤ getSizeOfPow2 size := by
  cases raw with
  | true => exact .inl rfl
  | false =>
    have hbound := getSizeOfPow2_bounds hsize
    obtain ⟨⟨h₁, b⟩, hnew, hrun⟩ := Exec.bind_eq_ok.mp hrun
    obtain ⟨h₂, hacq, hrun⟩ := Exec.bind_eq_ok.mp hrun
    obtain ⟨h₃, hstore, -⟩ := Exec.bind_eq_ok.mp hrun
    obtain ⟨h₁', hnew', S₁, hcell₁, -, -⟩ :=
      bufferCreateAndAcquire_spec S (n := getSizeOfPow2 size) (by rw [headerSize]; omega)
    obtain ⟨rfl, rfl⟩ := Prod.mk.inj (Except.ok.inj (hnew'.symm.trans hnew))
    obtain ⟨h₂', hacq', S₂, K₂⟩ := bufferAcquire_spec (o := none) (p := some h.fresh)
      (show Sound h₁' (refs none + (h.fresh ::ₘ own)) by simpa using S₁)
      (fun x hx => Option.some.inj hx ▸ ⟨_, hcell₁⟩)
    obtain rfl := Except.ok.inj (hacq'.symm.trans hacq)
    obtain ⟨c, hc⟩ := S₂.live (show h.fresh ∈ refs (some h.fresh) + (h.fresh ::ₘ own) by simp)
    obtain ⟨c₁, hc₁, -, hbody⟩ := K₂.cell _ c hc
    obtain rfl := Option.some.inj (hc₁.symm.trans hcell₁)
    have hfits := storeAt_fits S₂ hc hstore
    rw [length_toBytes, zero_add, hbody] at hfits
    exact .inr hfits

theorem wpacketCreate_ok {size : ℕ} {raw : Bool} (S : Sound h own) (hsize : size < 0x100000000)
    (hrun : wpacketCreate h size raw = .ok (h', w)) :
    Sound h' (w.owned + own) ∧ Built (getSizeOfPow2 size) h' w [] ∧ w.raw = raw := by
  obtain ⟨h₁, w₁, hcreate, S₁, B₁, hraw₁⟩ :=
    wpacketCreate_spec S hsize (wpacketCreate_fits S hsize hrun)
  obtain ⟨rfl, rfl⟩ := Prod.mk.inj (Except.ok.inj (hcreate.symm.trans hrun))
  exact ⟨S₁, B₁, hraw₁⟩

end WPacket

end Kendylib
