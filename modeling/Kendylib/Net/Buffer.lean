import Kendylib.Foundations.RefHeap
import Kendylib.Foundations.Word

/-!
# Buffers

The buffers of `src/buffer.c`: memory blocks with a reference count, linked to chains. A pointer to
a buffer is the address of a cell of a `RefHeap`, or null.

The bytes of a packet or of a stream lie at successive places of a chain. `Span` describes the
places from one cursor (a buffer and a position in it) to another: a run inside one buffer, or the
rest of a full buffer and then a run from the start of the next one. All functions that walk along a
chain do so by `Span.advance`.
-/

namespace Kendylib

/-- A `struct buffer` besides its reference count and its link; `buf` is the memory behind the
header. -/
structure Block where
  capacity : ℕ
  size : ℕ
  buf : List UInt8

namespace Block

/-- `memcpy` from a buffer. -/
def load (b : Block) (pos n : ℕ) : Exec (List UInt8) :=
  if pos + n ≤ b.buf.length then .ok ((b.buf.drop pos).take n) else .error .outOfBounds

/-- `memcpy` to a buffer. -/
def store (b : Block) (pos : ℕ) (bs : List UInt8) : Exec Block :=
  if pos + bs.length ≤ b.buf.length then
    .ok { b with buf := b.buf.take pos ++ bs ++ b.buf.drop (pos + bs.length) }
  else .error .outOfBounds

/-- The size is within the capacity, and the capacity is that of the memory. -/
structure WF (b : Block) : Prop where
  size_le : b.size ≤ b.capacity
  length : b.buf.length = b.capacity
  lt : b.capacity < 0x100000000

theorem load_eq {b : Block} {pos n : ℕ} (h : pos + n ≤ b.buf.length) :
    b.load pos n = .ok ((b.buf.drop pos).take n) := if_pos h

end Block

/-- The memory of all buffers. -/
abbrev Heap := RefHeap Block

namespace Buffer

/-- `sizeof(struct buffer)`. -/
def headerSize : ℕ := 32

/-- `buffer_create_and_acquire` with no buffer to give up. The memory is cleared; its size is a
32-bit sum. -/
def bufferCreateAndAcquire (h : Heap) (capacity : ℕ) : Exec (Heap × ℕ) :=
  let size := add32 headerSize capacity
  if size < headerSize then .error .outOfBounds
  else .ok (h.alloc ⟨capacity, 0, List.replicate (size - headerSize) 0⟩)

/-- `buffer_release`. -/
def bufferRelease (h : Heap) : Option ℕ → Exec Heap
  | some a => h.release a
  | none => .ok h

/-- `buffer_acquire`; the pointer it returns is `b₂`. -/
def bufferAcquire (h : Heap) (b₁ b₂ : Option ℕ) : Exec Heap :=
  if b₁ = b₂ then .ok h
  else do
    let h ← (match b₂ with
      | some a => h.retain a
      | none => .ok h)
    bufferRelease h b₁

/-- The loop of `buffer_read`: the code it returns, and the bytes copied. -/
def bufferReadLoop (h : Heap) : ℕ → Option ℕ → ℕ → ℕ → Exec (Int × List UInt8)
  | 0, _, _, _ => .error .fuel
  | fuel + 1, b, pos, size =>
    if size = 0 then .ok (0, [])
    else match b with
      | none => .ok (-1, [])
      | some a => do
        let c ← h.get a
        let copySize := min (sub32 c.body.size pos) size
        let bytes ← c.body.load pos copySize
        let pos := add32 pos copySize
        let (code, out) ← (if pos ≥ c.body.size
          then bufferReadLoop h fuel c.next 0 (size - copySize)
          else bufferReadLoop h fuel b pos (size - copySize))
        return (code, bytes ++ out)

/-- `buffer_read`: every round but the last copies a byte or goes on to the next buffer. -/
def bufferRead (h : Heap) (b : Option ℕ) (pos size : ℕ) : Exec (Int × List UInt8) :=
  bufferReadLoop h (h.fresh + size + 1) b pos size

open RefHeap

variable {h h' : Heap} {own : Multiset ℕ} {a a' b pos pos' n m k : ℕ} {c c' : Cell Block}

/-! ## The state of the memory -/

/-- The reference counts are exact and the buffers well formed. -/
structure Sound (h : Heap) (own : Multiset ℕ) : Prop extends Exact h own where
  wf : ∀ a c, h.cell a = some c → c.body.WF

theorem sound_empty : Sound RefHeap.empty 0 := ⟨exact_empty, fun a c hc => by cases hc⟩

theorem Sound.of_keeps {own' : Multiset ℕ} (S : Sound h own) (E : Exact h' own') (K : Keeps h h') :
    Sound h' own' := by
  refine ⟨E, fun a c hc => ?_⟩
  obtain ⟨d, hd, -, hbody⟩ := K.cell a c hc
  rw [hbody]
  exact S.wf a d hd

/-! ## Creating, acquiring and releasing -/

theorem bufferCreateAndAcquire_spec (S : Sound h own) (hn : headerSize + n < 0x100000000) :
    ∃ h', bufferCreateAndAcquire h n = .ok (h', h.fresh) ∧ Sound h' (h.fresh ::ₘ own) ∧
      h'.cell h.fresh = some ⟨1, none, n, 0, List.replicate n 0⟩ ∧
      (∀ b, b ≠ h.fresh → h'.cell b = h.cell b) ∧ h'.fresh = h.fresh + 1 := by
  obtain ⟨E, hself, hne⟩ := alloc_spec S.toExact (⟨n, 0, List.replicate n 0⟩ : Block)
  refine ⟨(h.alloc ⟨n, 0, List.replicate n 0⟩).1, ?_, ⟨E, fun b d hd => ?_⟩, hself, hne, rfl⟩
  · rw [bufferCreateAndAcquire]
    simp only [add32_of_lt hn]
    rw [if_neg (by omega), Nat.add_sub_cancel_left]
    rfl
  · by_cases hb : b = h.fresh
    · subst hb
      rw [hself, Option.some.injEq] at hd
      rw [← hd]
      exact ⟨Nat.zero_le _, List.length_replicate, by simp only; omega⟩
    · exact S.wf b d (by rwa [hne b hb] at hd)

theorem bufferRelease_spec {o : Option ℕ} (S : Sound h (refs o + own)) :
    ∃ h', bufferRelease h o = .ok h' ∧ Sound h' own ∧ Keeps h h' := by
  cases o with
  | none =>
    rw [refs_none, zero_add] at S
    exact ⟨h, rfl, S, .refl h⟩
  | some a =>
    rw [refs_some, Multiset.singleton_add] at S
    obtain ⟨h', hrel, E, K⟩ := release_spec S.toExact
    exact ⟨h', hrel, S.of_keeps E K, K⟩

theorem bufferAcquire_spec {o p : Option ℕ} (S : Sound h (refs o + own))
    (hlive : ∀ a, p = some a → ∃ c, h.cell a = some c) :
    ∃ h', bufferAcquire h o p = .ok h' ∧ Sound h' (refs p + own) ∧ Keeps h h' := by
  unfold bufferAcquire
  split_ifs with heq
  · exact ⟨h, rfl, heq ▸ S, .refl h⟩
  · cases p with
    | none =>
      obtain ⟨h', hrel, S', K⟩ := bufferRelease_spec S
      rw [refs_none, zero_add]
      exact ⟨h', hrel, S', K⟩
    | some a =>
      obtain ⟨c, hc⟩ := hlive a rfl
      obtain ⟨h₁, hret, E₁, K₁⟩ := retain_spec S.toExact hc
      have S₁ : Sound h₁ (refs o + (a ::ₘ own)) := by
        rw [Multiset.add_cons]
        exact S.of_keeps E₁ K₁
      obtain ⟨h', hrel, S', K'⟩ := bufferRelease_spec S₁
      refine ⟨h', ?_, S', K₁.trans K'⟩
      simp only [hret, Exec.ok_bind]
      exact hrel

/-! ## Places -/

/-- The places of `n` bytes from a position of a buffer on. -/
def places (a pos n : ℕ) : List (ℕ × ℕ) := (List.range' pos n).map (Prod.mk a)

@[simp] theorem length_places : (places a pos n).length = n := by simp [places]

theorem places_append : places a pos n ++ places a (pos + n) m = places a pos (n + m) := by
  rw [places, places, places, ← List.map_append, List.range'_append_1]

theorem places_take (hk : k ≤ n) : (places a pos n).take k = places a pos k := by
  obtain ⟨m, rfl⟩ := Nat.exists_eq_add_of_le hk
  rw [← places_append, List.take_left' length_places]

theorem places_drop (hk : k ≤ n) : (places a pos n).drop k = places a (pos + k) (n - k) := by
  obtain ⟨m, rfl⟩ := Nat.exists_eq_add_of_le hk
  rw [← places_append, List.drop_left' length_places, Nat.add_sub_cancel_left]

theorem mem_places {p : ℕ × ℕ} : p ∈ places a pos n ↔ p.1 = a ∧ pos ≤ p.2 ∧ p.2 < pos + n := by
  simp only [places, List.mem_map, List.mem_range'_1]
  constructor
  · rintro ⟨i, hi, rfl⟩
    exact ⟨rfl, hi⟩
  · rintro ⟨rfl, hi⟩
    exact ⟨p.2, hi, rfl⟩

/-- The byte at a place. -/
def byteAt (h : Heap) (p : ℕ × ℕ) : Option UInt8 := (h.cell p.1).bind fun c => c.body.buf[p.2]?

/-- The bytes at these places. -/
def Bytes (h : Heap) (ps : List (ℕ × ℕ)) (bs : List UInt8) : Prop := ps.map (byteAt h) = bs.map some

theorem Bytes.length {ps : List (ℕ × ℕ)} {bs : List UInt8} (hb : Bytes h ps bs) :
    ps.length = bs.length := by
  simpa using congrArg List.length hb

theorem Bytes.append {ps qs : List (ℕ × ℕ)} {bs cs : List UInt8} (hb : Bytes h ps bs)
    (hc : Bytes h qs cs) : Bytes h (ps ++ qs) (bs ++ cs) := by
  rw [Bytes, List.map_append, List.map_append, hb, hc]

theorem Bytes.take {ps : List (ℕ × ℕ)} {bs : List UInt8} (hb : Bytes h ps bs) (k : ℕ) :
    Bytes h (ps.take k) (bs.take k) := by
  rw [Bytes, List.map_take, List.map_take, hb]

theorem Bytes.drop {ps : List (ℕ × ℕ)} {bs : List UInt8} (hb : Bytes h ps bs) (k : ℕ) :
    Bytes h (ps.drop k) (bs.drop k) := by
  rw [Bytes, List.map_drop, List.map_drop, hb]

theorem Bytes.front {ps qs : List (ℕ × ℕ)} {bs : List UInt8} (hb : Bytes h ps bs) (hq : qs <+: ps) :
    Bytes h qs (bs.take qs.length) := by
  have := hb.take qs.length
  rwa [← List.prefix_iff_eq_take.mp hq] at this

theorem Bytes.unique {ps : List (ℕ × ℕ)} {bs cs : List UInt8} (hb : Bytes h ps bs)
    (hc : Bytes h ps cs) : bs = cs :=
  (List.map_injective_iff.mpr (Option.some_injective _)) (hb.symm.trans hc)

theorem Bytes.congr {ps : List (ℕ × ℕ)} {bs : List UInt8} (hb : Bytes h ps bs)
    (heq : ∀ p ∈ ps, byteAt h' p = byteAt h p) : Bytes h' ps bs := by
  rw [Bytes, List.map_congr_left heq]
  exact hb

/-- The place of a byte is in a buffer in memory. -/
theorem Bytes.live {ps : List (ℕ × ℕ)} {bs : List UInt8} {p : ℕ × ℕ} (hb : Bytes h ps bs)
    (hp : p ∈ ps) : ∃ c, h.cell p.1 = some c ∧ p.2 < c.body.buf.length := by
  have hmem : byteAt h p ∈ bs.map some := hb ▸ List.mem_map_of_mem hp
  obtain ⟨x, -, hx⟩ := List.mem_map.mp hmem
  obtain ⟨c, hc, hget⟩ := Option.bind_eq_some_iff.mp hx.symm
  exact ⟨c, hc, (List.getElem?_eq_some_iff.mp hget).1⟩

/-- `memcpy` copies the bytes of its places. -/
theorem load_spec (hc : h.cell a = some c) (hn : pos + n ≤ c.body.buf.length) :
    ∃ bs, c.body.load pos n = .ok bs ∧ Bytes h (places a pos n) bs := by
  refine ⟨_, Block.load_eq hn, ?_⟩
  rw [Bytes]
  apply List.ext_getElem?
  intro i
  simp only [places, List.map_map, List.getElem?_map, Function.comp_def, byteAt, hc,
    Option.bind_some, List.getElem?_take, List.getElem?_drop]
  by_cases hi : i < n
  · rw [List.getElem?_range' hi, if_pos hi]
    simp only [one_mul, Option.map_some]
    have hlt : pos + i < c.body.buf.length := by omega
    rw [List.getElem?_eq_getElem hlt]
    rfl
  · rw [if_neg hi, List.getElem?_eq_none (by simpa using hi)]
    rfl

/-! ## Spans -/

/-- The places from the cursor `(a, pos)` to the cursor `(a', pos')`. -/
inductive Span (h : Heap) : ℕ → ℕ → List (ℕ × ℕ) → ℕ → ℕ → Prop
  | here {a pos n : ℕ} {c : Cell Block} (hc : h.cell a = some c) (hn : pos + n ≤ c.body.size) :
      Span h a pos (places a pos n) a (pos + n)
  | cross {a pos m a' pos' : ℕ} {ps : List (ℕ × ℕ)} {c : Cell Block} (hc : h.cell a = some c)
      (hpos : pos ≤ c.body.size) (hfull : c.body.size = c.body.capacity) (hnext : c.next = some m)
      (rest : Span h m 0 ps a' pos') :
      Span h a pos (places a pos (c.body.size - pos) ++ ps) a' pos'

section Span

variable {ps qs : List (ℕ × ℕ)}

theorem Span.start (hs : Span h a pos ps a' pos') : ∃ c, h.cell a = some c ∧ pos ≤ c.body.size := by
  cases hs with
  | here hc hn => exact ⟨_, hc, by omega⟩
  | cross hc hpos hfull hnext rest => exact ⟨_, hc, hpos⟩

theorem Span.finish (hs : Span h a pos ps a' pos') : ∃ c, h.cell a' = some c ∧ pos' ≤ c.body.size := by
  induction hs with
  | here hc hn => exact ⟨_, hc, hn⟩
  | cross hc hpos hfull hnext rest ih => exact ih

theorem Span.nil (hc : h.cell a = some c) (hpos : pos ≤ c.body.size) : Span h a pos [] a pos :=
  Span.here (n := 0) hc hpos

/-- **One step along a chain.** Of `m` bytes that are wanted, those up to the end of the buffer are
taken. At the end of the buffer the span goes on in the next one, unless this was its last byte. -/
theorem Span.advance (hs : Span h a pos ps a' pos') (hc : h.cell a = some c) (hm : m ≤ ps.length)
    (hk : k = min (c.body.size - pos) m) :
    ps = places a pos k ++ ps.drop k ∧ Span h a (pos + k) (ps.drop k) a' pos' ∧
      (pos + k < c.body.size ∨ (ps.drop k = [] ∧ a' = a ∧ pos' = pos + k) ∨
        c.body.size = c.body.capacity ∧ ∃ n, c.next = some n ∧ Span h n 0 (ps.drop k) a' pos') := by
  cases hs with
  | @here a pos n d hd hn =>
    obtain rfl : d = c := Option.some.inj (hd.symm.trans hc)
    rw [length_places] at hm
    have hkn : k ≤ n := by omega
    have hend : pos + k + (n - k) = pos + n := by omega
    rw [places_drop hkn, places_append, Nat.add_sub_cancel' hkn]
    refine ⟨rfl, hend ▸ Span.here hd (by omega), ?_⟩
    by_cases hlt : pos + k < d.body.size
    · exact .inl hlt
    · obtain rfl : k = n := by omega
      exact .inr (.inl ⟨by simp [places], rfl, rfl⟩)
  | @cross a pos m' a' pos' rest d hd hpos hfull hnext hrest =>
    obtain rfl : d = c := Option.some.inj (hd.symm.trans hc)
    have hkl : k ≤ d.body.size - pos := by omega
    have hdrop : (places a pos (d.body.size - pos) ++ rest).drop k =
        places a (pos + k) (d.body.size - (pos + k)) ++ rest := by
      rw [List.drop_append_of_le_length (by simpa using hkl), places_drop hkl, Nat.sub_sub]
    rw [hdrop]
    refine ⟨?_, Span.cross hd (by omega) hfull hnext hrest, ?_⟩
    · rw [← List.append_assoc, places_append]
      congr 2
      omega
    · by_cases hlt : pos + k < d.body.size
      · exact .inl hlt
      · refine .inr (.inr ⟨hfull, m', hnext, ?_⟩)
        rwa [show d.body.size - (pos + k) = 0 by omega, places, List.range'_zero, List.map_nil,
          List.nil_append]

theorem Span.append (hs : Span h a pos ps b n) (ht : Span h b n qs a' pos') :
    Span h a pos (ps ++ qs) a' pos' := by
  induction hs with
  | @here a pos n c hc hn =>
    cases ht with
    | @here _ _ m d hd hm =>
      rw [places_append, Nat.add_assoc]
      exact Span.here hd (by omega)
    | @cross _ _ m _ _ rest d hd hpos hfull hnext hrest =>
      rw [← List.append_assoc, places_append, show n + (d.body.size - (pos + n)) = d.body.size - pos by
        omega]
      exact Span.cross hd (by omega) hfull hnext hrest
  | cross hc hpos hfull hnext rest ih =>
    rw [List.append_assoc]
    exact Span.cross hc hpos hfull hnext (ih ht)

theorem Span.split (hs : Span h a pos ps a' pos') (hk : k ≤ ps.length) :
    ∃ b n, Span h a pos (ps.take k) b n ∧ Span h b n (ps.drop k) a' pos' := by
  induction hs generalizing k with
  | @here a pos n c hc hn =>
    rw [length_places] at hk
    have hend : pos + k + (n - k) = pos + n := by omega
    rw [places_take hk, places_drop hk]
    exact ⟨a, pos + k, Span.here hc (by omega), hend ▸ Span.here hc (by omega)⟩
  | @cross a pos m a' pos' rest c hc hpos hfull hnext hrest ih =>
    rcases Nat.le_total k (c.body.size - pos) with hle | hle
    · refine ⟨a, pos + k, ?_, ?_⟩
      · rw [List.take_append_of_le_length (by simpa using hle), places_take hle]
        exact Span.here hc (by omega)
      · rw [List.drop_append_of_le_length (by simpa using hle), places_drop hle, Nat.sub_sub]
        exact Span.cross hc (by omega) hfull hnext hrest
    · obtain ⟨j, rfl⟩ := Nat.exists_eq_add_of_le hle
      rw [List.length_append, length_places] at hk
      obtain ⟨b, n, h₁, h₂⟩ := ih (k := j) (by omega)
      refine ⟨b, n, ?_, ?_⟩
      · rw [List.take_append, List.take_of_length_le (by simp), length_places,
          Nat.add_sub_cancel_left]
        exact Span.cross hc hpos hfull hnext h₁
      · rwa [List.drop_append, List.drop_of_length_le (by simp), length_places,
          Nat.add_sub_cancel_left]

/-! ## Growing chains -/

/-- A buffer filled further: its link and the bytes stored stay. -/
structure Grown (c c' : Cell Block) : Prop where
  next : ∀ n, c.next = some n → c'.next = some n
  capacity : c'.body.capacity = c.body.capacity
  size : c.body.size ≤ c'.body.size
  bytes : ∀ p < c.body.size, c'.body.buf[p]? = c.body.buf[p]?

theorem Grown.of_eq (hn : c'.next = c.next) (hb : c'.body = c.body) : Grown c c' :=
  ⟨fun n h => hn.trans h, by rw [hb], by rw [hb], fun p _ => by rw [hb]⟩

theorem Grown.trans {c₁ c₂ : Cell Block} (hg₁ : Grown c c₁) (hg₂ : Grown c₁ c₂) : Grown c c₂ :=
  ⟨fun n hn => hg₂.next n (hg₁.next n hn), hg₂.capacity.trans hg₁.capacity,
    hg₁.size.trans hg₂.size, fun p hp => by
      rw [hg₂.bytes p (hp.trans_le hg₁.size), hg₁.bytes p hp]⟩

/-- The buffers of the chain from `a` on are in memory and may have been filled further. -/
def GrowsFrom (h h' : Heap) (a : ℕ) : Prop :=
  ∀ b c, Reach h a b → h.cell b = some c → ∃ c', h'.cell b = some c' ∧ Grown c c'

theorem GrowsFrom.of_keepsFrom (K : KeepsFrom h h' a) : GrowsFrom h h' a := by
  intro b c hab hc
  obtain ⟨c', hc', hn, hb⟩ := K b c hab hc
  exact ⟨c', hc', .of_eq hn hb⟩

theorem GrowsFrom.next (G : GrowsFrom h h' a) (hc : h.cell a = some c) (hn : c.next = some n) :
    GrowsFrom h h' n :=
  fun b d hnb hd => G b d (.step hc hn hnb) hd

/-- A buffer overwritten by one that is filled further. -/
theorem GrowsFrom.put (hc : h.cell b = some c) (hg : Grown c c') : GrowsFrom h (h.put b c') a := by
  intro x d _ hd
  by_cases hx : x = b
  · subst hx
    obtain rfl : d = c := Option.some.inj (hd.symm.trans hc)
    exact ⟨c', put_self, hg⟩
  · exact ⟨d, by rw [put_of_ne hx, hd], .of_eq rfl rfl⟩

/-- **A span stays where it is**, and so do its bytes. -/
theorem Span.grow {own' : Multiset ℕ} (hs : Span h a pos ps a' pos') (G : GrowsFrom h h' a)
    (S' : Sound h' own') :
    Span h' a pos ps a' pos' ∧ ∀ p ∈ ps, byteAt h' p = byteAt h p := by
  induction hs with
  | @here a pos n c hc hn =>
    obtain ⟨c', hc', hg⟩ := G a c (.refl a) hc
    have hsize := hg.size
    refine ⟨Span.here hc' (by omega), fun p hp => ?_⟩
    obtain ⟨hp₁, -, hp₂⟩ := mem_places.mp hp
    rw [byteAt, byteAt, hp₁, hc, hc']
    exact hg.bytes p.2 (by omega)
  | @cross a pos m a' pos' rest c hc hpos hfull hnext hrest ih =>
    obtain ⟨c', hc', hg⟩ := G a c (.refl a) hc
    obtain ⟨hrest', hbytes⟩ := ih (G.next hc hnext)
    have hsize' := (S'.wf a c' hc').size_le
    have hsize := hg.size
    have hcap := hg.capacity
    have heq : c'.body.size = c.body.size := by omega
    refine ⟨?_, fun p hp => ?_⟩
    · rw [← heq]
      exact Span.cross hc' (by omega) (by omega) (hg.next m hnext) hrest'
    · rcases List.mem_append.mp hp with hp | hp
      · obtain ⟨hp₁, -, hp₂⟩ := mem_places.mp hp
        rw [byteAt, byteAt, hp₁, hc, hc']
        exact hg.bytes p.2 (by omega)
      · exact hbytes p hp

theorem Span.reach (hs : Span h a pos ps a' pos') : Reach h a a' := by
  induction hs with
  | here hc hn => exact .refl _
  | cross hc hpos hfull hnext rest ih => exact .step hc hnext ih

theorem Reach.grow (hab : Reach h a b) (G : GrowsFrom h h' a) : Reach h' a b := by
  induction hab with
  | refl => exact .refl _
  | step hc hn _ ih =>
    obtain ⟨c', hc', hg⟩ := G _ _ (.refl _) hc
    exact .step hc' (hg.next _ hn) (ih (G.next hc hn))

theorem GrowsFrom.refl (h : Heap) (a : ℕ) : GrowsFrom h h a :=
  fun _ c _ hc => ⟨c, hc, .of_eq rfl rfl⟩

theorem GrowsFrom.trans {h₁ h₂ : Heap} (G₁ : GrowsFrom h h₁ a) (G₂ : GrowsFrom h₁ h₂ a) :
    GrowsFrom h h₂ a := by
  intro b c hab hc
  obtain ⟨c₁, hc₁, hg₁⟩ := G₁ b c hab hc
  obtain ⟨c₂, hc₂, hg₂⟩ := G₂ b c₁ (Reach.grow hab G₁) hc₁
  exact ⟨c₂, hc₂, hg₁.trans hg₂⟩

/-- The buffers of the chain from `a` on keep their links, their sizes and the bytes stored. -/
def StaysFrom (h h' : Heap) (a : ℕ) : Prop :=
  ∀ b c, Reach h a b → h.cell b = some c →
    ∃ c', h'.cell b = some c' ∧ c'.next = c.next ∧ c'.body.size = c.body.size ∧ Grown c c'

theorem StaysFrom.growsFrom (T : StaysFrom h h' a) : GrowsFrom h h' a := by
  intro b c hab hc
  obtain ⟨c', hc', -, -, hg⟩ := T b c hab hc
  exact ⟨c', hc', hg⟩

theorem StaysFrom.of_keepsFrom (K : KeepsFrom h h' a) : StaysFrom h h' a := by
  intro b c hab hc
  obtain ⟨c', hc', hn, hb⟩ := K b c hab hc
  exact ⟨c', hc', hn, by rw [hb], .of_eq hn hb⟩

theorem StaysFrom.trans {h₁ h₂ : Heap} (T₁ : StaysFrom h h₁ a) (T₂ : StaysFrom h₁ h₂ a) :
    StaysFrom h h₂ a := by
  intro b c hab hc
  obtain ⟨c₁, hc₁, hn₁, hs₁, hg₁⟩ := T₁ b c hab hc
  obtain ⟨c₂, hc₂, hn₂, hs₂, hg₂⟩ := T₂ b c₁ (Reach.grow hab T₁.growsFrom) hc₁
  exact ⟨c₂, hc₂, hn₂.trans hn₁, hs₂.trans hs₁, hg₁.trans hg₂⟩

/-- A place of the chain from `a` on, in the part of its buffer that is filled. -/
def InUse (h : Heap) (a : ℕ) (p : ℕ × ℕ) : Prop :=
  Reach h a p.1 ∧ ∃ c, h.cell p.1 = some c ∧ p.2 < c.body.size

theorem Span.inUse {p : ℕ × ℕ} (hs : Span h a pos ps a' pos') (hp : p ∈ ps) : InUse h a p := by
  induction hs with
  | here hc hn =>
    obtain ⟨hp₁, -, hp₂⟩ := mem_places.mp hp
    exact ⟨hp₁ ▸ .refl _, _, hp₁ ▸ hc, by omega⟩
  | cross hc hpos hfull hnext rest ih =>
    rcases List.mem_append.mp hp with hp | hp
    · obtain ⟨hp₁, -, hp₂⟩ := mem_places.mp hp
      exact ⟨hp₁ ▸ .refl _, _, hp₁ ▸ hc, by omega⟩
    · exact (ih hp).imp_left (.step hc hnext)

/-- A place in use stays in use, with its byte, when the chain is filled further. -/
theorem InUse.grow {p : ℕ × ℕ} (U : InUse h a p) (G : GrowsFrom h h' a) :
    InUse h' a p ∧ byteAt h' p = byteAt h p := by
  obtain ⟨hreach, c, hc, hlt⟩ := U
  obtain ⟨c', hc', hg⟩ := G p.1 c hreach hc
  refine ⟨⟨Reach.grow hreach G, c', hc', hlt.trans_le hg.size⟩, ?_⟩
  rw [byteAt, byteAt, hc, hc', Option.bind_some, Option.bind_some]
  exact hg.bytes p.2 hlt

/-! ## Reading -/

theorem Bytes.places_append {bs : List UInt8} (hb : Bytes h (places a pos k ++ ps) bs) :
    Bytes h (places a pos k) (bs.take k) ∧ Bytes h ps (bs.drop k) := by
  refine ⟨?_, ?_⟩
  · have := hb.take k
    rwa [List.take_left' length_places] at this
  · have := hb.drop k
    rwa [List.drop_left' length_places] at this

/-- What a walk copies from the buffer of its cursor. -/
theorem Span.load {bs : List UInt8} (S : Sound h own) (hc : h.cell a = some c)
    (hk : pos + k ≤ c.body.size) (hb : Bytes h (places a pos k ++ qs) bs) :
    c.body.load pos k = .ok (bs.take k) := by
  have hwf := S.wf a c hc
  have hlen : pos + k ≤ c.body.buf.length := by
    rw [hwf.length]
    exact hk.trans hwf.size_le
  obtain ⟨out, hload, hout⟩ := load_spec hc hlen
  rw [hload, hout.unique hb.places_append.1]

/-- **The loop of `buffer_read`** copies the bytes of a span. -/
theorem bufferReadLoop_spec {fuel : ℕ} {bs : List UInt8} (S : Sound h own)
    (hs : Span h a pos ps a' pos') (hb : Bytes h ps bs) (hm : m ≤ ps.length)
    (hfuel : h.fresh - a + m < fuel) :
    bufferReadLoop h fuel (some a) pos m = .ok (0, bs.take m) := by
  induction fuel generalizing a pos ps bs m with
  | zero => omega
  | succ fuel ih =>
    rw [bufferReadLoop]
    by_cases hm0 : m = 0
    · rw [if_pos hm0, hm0, List.take_zero]
    · obtain ⟨c, hc, hpos⟩ := hs.start
      have hwf := S.wf a c hc
      have hsize := hwf.size_le
      have hcap := hwf.lt
      have hbound := S.bound a c hc
      obtain ⟨k, hk⟩ : ∃ k, k = min (c.body.size - pos) m := ⟨_, rfl⟩
      obtain ⟨hps, hs', hnext⟩ := hs.advance hc hm hk
      have hload := Span.load S hc (show pos + k ≤ c.body.size by omega) (hps ▸ hb)
      have hb' := (Bytes.places_append (hps ▸ hb)).2
      have hlen : m - k ≤ (ps.drop k).length := by
        rw [List.length_drop]
        omega
      have htake : bs.take k ++ (bs.drop k).take (m - k) = bs.take m := by
        rw [← List.take_add, Nat.add_sub_cancel' (by omega)]
      rw [if_neg hm0]
      simp only [get_eq hc, Exec.ok_bind, sub32_of_le hpos (by omega), ← hk, hload,
        add32_of_lt (show pos + k < 0x100000000 by omega)]
      by_cases hlt : pos + k < c.body.size
      · rw [if_neg (by omega), ih hs' hb' hlen (by omega), Exec.ok_bind, ← htake]
        rfl
      · rw [if_pos (by omega)]
        have hrest : bufferReadLoop h fuel c.next 0 (m - k) = .ok (0, (bs.drop k).take (m - k)) := by
          rcases hnext with hnext | ⟨hnil, -⟩ | ⟨-, n, hn, hs''⟩
          · omega
          · obtain ⟨f, rfl⟩ : ∃ f, fuel = f + 1 := ⟨fuel - 1, by omega⟩
            rw [hnil, List.length_nil] at hlen
            have hzero : m - k = 0 := by omega
            rw [hzero, List.take_zero]
            cases c.next <;> rfl
          · have hup := S.up a c n hc hn
            rw [hn]
            exact ih hs'' hb' hlen (by omega)
        rw [hrest, Exec.ok_bind, ← htake]
        rfl

/-- **`buffer_read`** copies the bytes of a span. -/
theorem bufferRead_spec {bs : List UInt8} (S : Sound h own) (hs : Span h a pos ps a' pos')
    (hb : Bytes h ps bs) (hm : m ≤ ps.length) :
    bufferRead h (some a) pos m = .ok (0, bs.take m) :=
  bufferReadLoop_spec S hs hb hm (by omega)

end Span

end Buffer

end Kendylib
