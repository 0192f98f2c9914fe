import Kendylib.Net.WritingRuns

/-!
# Rewriting a field

`wpacket_rewrite` overwrites a number in a packet, through a position taken before the number was
written. The number may lie in one buffer, straddle two, or start in the buffer after the one of the
position if that is full.

A first rewrite puts its value into the field and changes no other byte (`Field.rewrite`). It leaves
the position at the buffer the field ends in, but at the old offset: if the field does not lie in
the buffer of the position, later rewrites go somewhere behind its first byte
(`Field.first_kept`). So rewriting works exactly if it is done once or the field lies in one
buffer (`replaces_iff`).
-/

namespace Kendylib

open RefHeap Buffer RPacket Connection

namespace Buffer

variable {h h' : Heap} {own : Multiset ℕ} {a b b' pos pos' pos₂ : ℕ} {ps qs : List (ℕ × ℕ)}

/-- The places of a span are different. -/
theorem Span.nodup (E : Exact h own) (hs : Span h a pos ps b pos') : ps.Nodup := by
  have hplaces : ∀ a pos n, (places a pos n).Nodup := fun a pos n =>
    List.Nodup.map (Prod.mk_right_injective a) List.nodup_range'
  induction hs with
  | here hc hn => exact hplaces _ _ _
  | cross hc hpos hfull hnext rest ih =>
    refine (hplaces _ _ _).append ih fun p hp hq => ?_
    have hup := E.up _ _ _ hc hnext
    have hle := (rest.le_of_mem E p hq).1
    have heq := (mem_places.mp hp).1
    omega

/-- The first place of a span is its start, or the start of a later buffer if there is nothing at
its start. -/
theorem Span.head {c : Cell Block} {p : ℕ × ℕ} (hs : Span h a pos ps b pos') (hc : h.cell a = some c)
    (hp : ps.head? = some p) : p = (a, pos) ∨ c.body.size ≤ pos ∧ p.2 = 0 := by
  induction hs generalizing c with
  | @here a pos n d hd hn =>
    cases n with
    | zero => cases hp
    | succ n => exact .inl (Option.some.inj hp).symm
  | @cross a pos m a' pos' rest d hd hpos hfull hnext hrest ih =>
    obtain rfl := Option.some.inj (hd.symm.trans hc)
    cases hk : d.body.size - pos with
    | zero =>
      rw [hk] at hp
      obtain ⟨e, he, -⟩ := hrest.start
      refine .inr ⟨by omega, ?_⟩
      rcases ih he hp with rfl | ⟨-, hzero⟩
      · rfl
      · exact hzero
    | succ n =>
      rw [hk] at hp
      exact .inl (Option.some.inj hp).symm

/-- There are bytes at the places of a span. -/
theorem Span.exists_bytes (S : Sound h own) (hs : Span h a pos ps b pos') : ∃ bs, Bytes h ps bs := by
  refine ⟨ps.map fun p => (byteAt h p).getD 0, ?_⟩
  rw [Bytes, List.map_map]
  refine List.map_congr_left fun p hp => ?_
  obtain ⟨-, c, hc, hlt⟩ := hs.inUse hp
  have hwf := S.wf _ c hc
  have hsize := hwf.size_le
  have hlen := hwf.length
  rw [Function.comp_apply, byteAt, hc, Option.bind_some, List.getElem?_eq_getElem (by omega),
    Option.getD_some]

theorem Bytes.byteAt_eq {bs : List UInt8} {i : ℕ} {p : ℕ × ℕ} (hb : Bytes h ps bs)
    (hp : ps[i]? = some p) : byteAt h p = bs[i]? := by
  have hlen := hb.length
  have hi : i < bs.length := hlen ▸ (List.getElem?_eq_some_iff.mp hp).1
  have heq := congrArg (·[i]?) hb
  simp only [List.getElem?_map, hp, List.getElem?_eq_getElem hi, Option.map_some,
    Option.some.injEq] at heq
  rw [heq, List.getElem?_eq_getElem hi]

/-- The rest of a longer span. -/
theorem Span.rest (hs : Span h a pos ps b pos') (ht : Span h a pos qs b' pos₂)
    (hlt : ps.length < qs.length) :
    qs.take ps.length = ps ∧ Span h b pos' (qs.drop ps.length) b' pos₂ := by
  induction hs generalizing qs with
  | @here a pos n c hc hn =>
    rw [length_places] at hlt ⊢
    obtain ⟨hcut, hrest, -⟩ := ht.advance hc (m := n) (k := n) hlt.le (by omega)
    refine ⟨?_, hrest⟩
    rw [hcut, List.take_left' length_places]
  | @cross a pos m a' pos' rest c hc hpos hfull hnext hrest ih =>
    obtain ⟨k, hk⟩ : ∃ k, k = c.body.size - pos := ⟨_, rfl⟩
    rw [← hk, List.length_append, length_places] at hlt ⊢
    obtain ⟨hcut, -, hcase⟩ := ht.advance hc (m := k) (k := k) (by omega) (by omega)
    have hlen : (qs.drop k).length = qs.length - k := List.length_drop
    rcases hcase with hcase | ⟨hnil, -⟩ | ⟨-, n, hn, hs'⟩
    · omega
    · rw [hnil, List.length_nil] at hlen
      omega
    · obtain rfl := Option.some.inj (hnext.symm.trans hn)
      obtain ⟨htake, hspan⟩ := ih hs' (by omega)
      rw [← List.drop_drop]
      refine ⟨?_, hspan⟩
      rw [hcut, List.take_append, length_places, Nat.add_sub_cancel_left, List.take_of_length_le (by simp),
        htake]

end Buffer

namespace WPacket

variable {h h' : Heap} {own : Multiset ℕ} {w w' : WPacket} {wp wp' : WritePos}
  {a b pos pos' n off k fuel : ℕ} {ps : List (ℕ × ℕ)} {bs new : List UInt8} {c : Cell Block}

/-! ## The bytes of a packet -/

/-- `bs` are the bytes of the packet: what is in use of its buffers, one after the other. -/
def Content (h : Heap) (w : WPacket) (bs : List UInt8) : Prop :=
  ∃ bufs, ChainOf h w.buf bufs ∧ bufs.flatMap (fun x => contents x.2) = bs

theorem ChainOf.unique {o : Option ℕ} {l l' : List (ℕ × Block)} (hl : ChainOf h o l)
    (hl' : ChainOf h o l') : l = l' := by
  induction hl generalizing l' with
  | nil =>
    cases hl'
    rfl
  | cons hc rest ih =>
    cases hl' with
    | cons hc' rest' =>
      obtain rfl := Option.some.inj (hc.symm.trans hc')
      rw [ih rest']

/-- The bytes of a packet are those of a span over all its buffers. -/
theorem content_iff (S : Sound h own) (hbuf : w.buf = some a) (hs : Span h a 0 ps b pos')
    (hb : Bytes h ps bs) (hc : h.cell b = some c) (hlast : c.next = none) (hsize : c.body.size = pos')
    {bs' : List UInt8} : Content h w bs' ↔ bs' = bs := by
  obtain ⟨bufs, hchain, -, -, -, hbytes⟩ := buffers_of_span S hs hb hc hlast hsize
  rw [← hbuf] at hchain
  rw [List.drop_zero] at hbytes
  constructor
  · rintro ⟨bufs', hchain', rfl⟩
    rw [hchain'.unique hchain, hbytes]
  · rintro rfl
    exact ⟨bufs, hchain, hbytes⟩

/-- Bytes from the offset `off` on are replaced. -/
def patch (off : ℕ) (new bs : List UInt8) : List UInt8 :=
  bs.take off ++ new ++ bs.drop (off + new.length)

theorem patch_patch {new' : List UInt8} (hlen : new.length = new'.length)
    (hoff : off + new.length ≤ bs.length) : patch off new' (patch off new bs) = patch off new' bs := by
  have htake : (bs.take off).length = off := List.length_take_of_le (by omega)
  have hfront : (bs.take off ++ new).length = off + new'.length := by rw [List.length_append, htake, hlen]
  rw [patch, patch, patch, List.append_assoc (bs.take off), List.take_left' htake, ← List.append_assoc,
    List.drop_left' hfront, hlen]

theorem patch_getElem? (hoff : off ≤ bs.length) (hnew : 0 < new.length) :
    (patch off new bs)[off]? = new[0]? := by
  have htake : (bs.take off).length = off := List.length_take_of_le hoff
  rw [patch, List.append_assoc, List.getElem?_append_right htake.le, htake, Nat.sub_self,
    List.getElem?_append_left hnew]

/-- Bytes are replaced at their places. -/
theorem bytes_patch (hnodup : ps.Nodup) (hb : Bytes h ps bs) (hn : new.length = n)
    (hnew : Bytes h' ((ps.drop off).take n) new)
    (hother : ∀ p ∉ (ps.drop off).take n, byteAt h' p = byteAt h p) :
    Bytes h' ps (patch off new bs) := by
  subst hn
  have hsplit : ps = ps.take off ++ ((ps.drop off).take new.length ++ ps.drop (off + new.length)) := by
    rw [← List.drop_drop, List.take_append_drop, List.take_append_drop]
  have hdisjoint := hsplit ▸ hnodup
  rw [List.nodup_append, List.nodup_append] at hdisjoint
  obtain ⟨-, ⟨-, -, hback⟩, hfront⟩ := hdisjoint
  have h₁ := (hb.take off).congr fun p hp => hother p fun hq =>
    hfront p hp p (List.mem_append_left _ hq) rfl
  have h₃ := (hb.drop (off + new.length)).congr fun p hp => hother p fun hq => hback p hq p hp rfl
  have := h₁.append (hnew.append h₃)
  rwa [← hsplit, ← List.append_assoc] at this

/-! ## Rewriting -/

/-- **The loop of `wpacket_rewrite`** overwrites the bytes of a span. It leaves the position in the
buffer that the span ends in. -/
theorem wpacketRewriteLoop_spec (S : Sound h own) (hs : Span h a pos ps b pos')
    (hlen : bs.length = ps.length) (hbuf : wp.buf = some a) (hfuel : h.fresh - a + bs.length < fuel) :
    ∃ h' y, wpacketRewriteLoop fuel h wp pos bs = .ok (h', ⟨some y, wp.wpos⟩) ∧ Sound h' own ∧
      Shape h h' ∧ Bytes h' ps bs ∧ (∀ p ∉ ps, byteAt h' p = byteAt h p) ∧ a ≤ y ∧
      (∀ p ∈ ps, p.1 ≤ y) ∧ ∀ c, h.cell a = some c → (y = a ↔ pos + bs.length ≤ c.body.capacity) := by
  induction fuel generalizing h wp a pos ps bs with
  | zero => omega
  | succ fuel ih =>
    obtain ⟨c, hc, hpos⟩ := hs.start
    have hsize := (S.wf a c hc).size_le
    have hcap := (S.wf a c hc).lt
    rw [wpacketRewriteLoop]
    by_cases hzero : bs.length = 0
    · rw [if_pos hzero]
      rw [hzero] at hlen
      obtain rfl := List.eq_nil_of_length_eq_zero hlen.symm
      obtain rfl := List.eq_nil_of_length_eq_zero hzero
      refine ⟨h, a, by rw [← hbuf], S, .refl h, rfl, fun _ _ => rfl, le_rfl, by simp, fun d hd => ?_⟩
      obtain rfl := Option.some.inj (hd.symm.trans hc)
      exact iff_of_true rfl (by simp only [List.length_nil]; omega)
    obtain ⟨k, hk⟩ : ∃ k, k = min (c.body.capacity - pos) bs.length := ⟨_, rfl⟩
    have hksize : k = min (c.body.size - pos) bs.length := by
      cases hs with
      | here hd hn =>
        obtain rfl := Option.some.inj (hd.symm.trans hc)
        rw [length_places] at hlen
        omega
      | cross hd _ hfull _ _ =>
        obtain rfl := Option.some.inj (hd.symm.trans hc)
        omega
    have htake : (bs.take k).length = k := List.length_take_of_le (by omega)
    have hdrop : (bs.drop k).length = bs.length - k := List.length_drop
    have hrest : (ps.drop k).length = ps.length - k := List.length_drop
    have hsame : (bs.drop k).length = (ps.drop k).length := by rw [hdrop, hrest, hlen]
    obtain ⟨h₁, buf, hstore, S₁, hput, hother, hnew⟩ := storeAt_spec S hc
      (show pos + (bs.take k).length ≤ c.body.capacity by omega)
    rw [htake] at hother hnew
    have hshape : Shape h h₁ := hput ▸ .put hc buf
    have hfresh : h₁.fresh = h.fresh := by rw [hput, put_fresh]
    obtain ⟨hcut, hs', hnext⟩ := hs.advance hc (m := bs.length) hlen.le hksize
    have hnodup := hs.nodup S.toExact
    rw [hcut, List.nodup_append] at hnodup
    -- the loop goes on with the rest of the bytes
    have hjoin : ∀ h₂ y, Sound h₂ own → Shape h₁ h₂ → Bytes h₂ (ps.drop k) (bs.drop k) →
        (∀ p ∉ ps.drop k, byteAt h₂ p = byteAt h₁ p) → a ≤ y → (∀ p ∈ ps.drop k, p.1 ≤ y) →
        Sound h₂ own ∧ Shape h h₂ ∧ Bytes h₂ ps bs ∧ (∀ p ∉ ps, byteAt h₂ p = byteAt h p) ∧ a ≤ y ∧
          ∀ p ∈ ps, p.1 ≤ y := by
      intro h₂ y S₂ hshape₂ hb₂ hother₂ hle hys
      refine ⟨S₂, hshape.trans hshape₂, ?_, fun p hp => ?_, hle, fun p hp => ?_⟩
      · have hfirst := hnew.congr fun p hp => hother₂ p fun hq => hnodup.2.2 p hp p hq rfl
        have := hfirst.append hb₂
        rwa [← hcut, List.take_append_drop] at this
      · rw [hcut, List.mem_append, not_or] at hp
        rw [hother₂ p hp.2, hother p hp.1]
      · rw [hcut, List.mem_append] at hp
        rcases hp with hp | hp
        · exact (mem_places.mp hp).1.le.trans hle
        · exact hys p hp
    rw [if_neg hzero, hbuf]
    simp only [Exec.deref_some, Exec.ok_bind, get_eq hc, sub32_of_le (hpos.trans hsize) hcap, ← hk, hstore,
      add32_of_lt (show pos + k < 0x100000000 by omega), hdrop]
    by_cases hcross : bs.length - k ≠ 0 ∧ pos + k ≥ c.body.capacity
    · rw [if_pos hcross]
      rcases hnext with hnext | ⟨hnil, -⟩ | ⟨-, n, hn, hs''⟩
      · omega
      · rw [hnil, List.length_nil] at hrest
        omega
      · have hup := S.up a c n hc hn
        have hbound := S.bound a c hc
        have hless : h.fresh - n + (bs.length - k) < fuel := by
          clear hk hksize
          omega
        obtain ⟨h₂, y, hloop, S₂, hshape₂, hb₂, hother₂, hle, hys, -⟩ :=
          ih S₁ (hs''.shape hshape) hsame
            (show (WritePos.mk (some n) wp.wpos).buf = some n from rfl) (by rwa [hfresh, hdrop])
        obtain ⟨S', hshape', hb', hother', hle', hys'⟩ :=
          hjoin h₂ y S₂ hshape₂ hb₂ hother₂ (hup.le.trans hle) hys
        rw [hn]
        refine ⟨h₂, y, hloop, S', hshape', hb', hother', hle', hys', fun d hd => ?_⟩
        obtain rfl := Option.some.inj (hd.symm.trans hc)
        constructor <;> intro _ <;> omega
    · rw [if_neg hcross]
      have hkpos : 0 < k := by
        clear hksize hfuel
        rcases not_and_or.mp hcross with hdone | hroom
        · clear hk
          omega
        · rw [hk, Nat.lt_min]
          clear hk
          omega
      have hless : h.fresh - a + (bs.length - k) < fuel := by
        clear hk hksize hcross
        omega
      obtain ⟨h₂, y, hloop, S₂, hshape₂, hb₂, hother₂, hle, hys, hfit⟩ :=
        ih S₁ (hs'.shape hshape) hsame hbuf (by rwa [hfresh, hdrop])
      obtain ⟨S', hshape', hb', hother', hle', hys'⟩ := hjoin h₂ y S₂ hshape₂ hb₂ hother₂ hle hys
      refine ⟨h₂, y, hloop, S', hshape', hb', hother', hle', hys', fun d hd => ?_⟩
      obtain rfl := Option.some.inj (hd.symm.trans hc)
      obtain ⟨e, he, -, hcape, -⟩ := hshape a d hc
      rw [hfit e he, hcape, hdrop]
      constructor <;> intro _ <;> omega

/-- **A rewrite that returns**, wherever its position is, overwrites nothing in front of it. -/
theorem wpacketRewriteLoop_frame (S : Sound h own) (hbuf : wp.buf = some a)
    (hrun : wpacketRewriteLoop fuel h wp pos bs = .ok (h', wp')) :
    Sound h' own ∧ Shape h h' ∧ ∃ y, wp' = ⟨some y, wp.wpos⟩ ∧ a ≤ y ∧
      ∀ p : ℕ × ℕ, p.1 < a ∨ p.1 = a ∧ p.2 < pos → byteAt h' p = byteAt h p := by
  induction fuel generalizing h wp a pos bs with
  | zero => cases hrun
  | succ fuel ih =>
    rw [wpacketRewriteLoop] at hrun
    split_ifs at hrun with hzero
    · cases Except.ok.inj hrun
      exact ⟨S, .refl _, a, by rw [← hbuf], le_rfl, fun _ _ => rfl⟩
    obtain ⟨x, hx, hrun⟩ := Exec.bind_eq_ok.mp hrun
    obtain rfl := Option.some.inj (hbuf.symm.trans (Exec.deref_eq_ok.mp hx))
    obtain ⟨c, hc, hrun⟩ := Exec.bind_eq_ok.mp hrun
    have hc := get_eq_ok.mp hc
    obtain ⟨h₁, hstore, hrun⟩ := Exec.bind_eq_ok.mp hrun
    obtain ⟨k, hk⟩ : ∃ k, k = min (sub32 c.body.capacity pos) bs.length := ⟨_, rfl⟩
    rw [← hk] at hstore hrun
    have hfits := storeAt_fits S hc hstore
    obtain ⟨buf, S₁, hput, hother, -⟩ := storeAt_ok S hc hstore
    have hshape : Shape h h₁ := hput ▸ .put hc buf
    have hcap := (S.wf a c hc).lt
    rw [List.length_take_of_le (show k ≤ bs.length by omega)] at hfits hother
    simp only [add32_of_lt (show pos + k < 0x100000000 by omega)] at hrun
    have hsame : ∀ p : ℕ × ℕ, p.1 < a ∨ p.1 = a ∧ p.2 < pos → byteAt h₁ p = byteAt h p :=
      fun p hp => hother p fun hm => by
        have := mem_places.mp hm
        omega
    split_ifs at hrun with hcross
    · cases hn : c.next with
      | none =>
        rw [hn] at hrun
        cases hrun
      | some n =>
        rw [hn] at hrun
        have hup := S.up a c n hc hn
        obtain ⟨S', hshape', y, hwp, hle, hrest⟩ :=
          ih S₁ (show (WritePos.mk (some n) wp.wpos).buf = some n from rfl) hrun
        refine ⟨S', hshape.trans hshape', y, hwp, by omega, fun p hp => ?_⟩
        rw [hrest p (.inl (by omega)), hsame p hp]
    · obtain ⟨S', hshape', y, hwp, hle, hrest⟩ := ih S₁ hbuf hrun
      refine ⟨S', hshape.trans hshape', y, hwp, hle, fun p hp => ?_⟩
      rw [hrest p (by omega), hsame p hp]

/-- Rewrites of a number of `n` bytes, one after the other. -/
def rewriteAll (n : ℕ) : Heap → WritePos → List ℕ → Exec (Heap × WritePos)
  | h, wp, [] => .ok (h, wp)
  | h, wp, v :: vs => do
    let (h, wp) ← wpacketRewriteUint n h wp v
    rewriteAll n h wp vs

/-- Rewriting with the values `vs` replaces the `n` bytes at the offset `off` of the packet by the
last of them, and no other byte. -/
def Replaces (h : Heap) (w : WPacket) (wp : WritePos) (n off : ℕ) (vs : List ℕ) : Prop :=
  ∃ h' wp' bs, rewriteAll n h wp vs = .ok (h', wp') ∧ Content h w bs ∧
    Content h' w (patch off (toBytes n (vs.getLastD 0)) bs)

/-- The `n` bytes from the position on are in its buffer. -/
def InBuffer (h : Heap) (wp : WritePos) (n : ℕ) : Prop :=
  ∃ a c, wp.buf = some a ∧ h.cell a = some c ∧ wp.wpos + n ≤ c.body.capacity

/-- The `n` bytes at the offset `off` of the packet start at the position `wp`; the bytes of the packet
are at `ps`. -/
structure Field (own : Multiset ℕ) (w : WPacket) (ps : List (ℕ × ℕ)) (n off : ℕ) (h : Heap)
    (wp : WritePos) : Prop where
  sound : Sound h own
  whole : ∃ a b c pos', w.buf = some a ∧ Span h a 0 ps b pos' ∧ h.cell b = some c ∧ c.next = none ∧
    c.body.size = pos'
  start : ∃ x y z, wp.buf = some x ∧ Span h x wp.wpos ((ps.drop off).take n) y z
  room : ∀ x c, wp.buf = some x → h.cell x = some c → 0 < c.body.capacity
  long : off + n ≤ ps.length
  pos : 0 < n

theorem Field.content_iff (F : Field own w ps n off h wp) (hb : Bytes h ps bs) {bs' : List UInt8} :
    Content h w bs' ↔ bs' = bs := by
  obtain ⟨a, b, c, pos', hbuf, hs, hc, hlast, hsize⟩ := F.whole
  exact WPacket.content_iff F.sound hbuf hs hb hc hlast hsize

theorem Field.nodup (F : Field own w ps n off h wp) : ps.Nodup := by
  obtain ⟨a, b, c, pos', -, hs, -⟩ := F.whole
  exact hs.nodup F.sound.toExact

/-- The field stays where it is. -/
theorem Field.shape (F : Field own w ps n off h wp) (S' : Sound h' own) (hshape : Shape h h') :
    Field own w ps n off h' wp := by
  obtain ⟨a, b, c, pos', hbuf, hs, hc, hlast, hsize⟩ := F.whole
  obtain ⟨x, y, z, hx, hfield⟩ := F.start
  obtain ⟨c', hc', hn, -, hsize'⟩ := hshape b c hc
  refine ⟨S', ⟨a, b, c', pos', hbuf, hs.shape hshape, hc', hn.trans hlast, hsize'.trans hsize⟩,
    ⟨x, y, z, hx, hfield.shape hshape⟩, fun u d hu hd => ?_, F.long, F.pos⟩
  obtain rfl := Option.some.inj (hx.symm.trans hu)
  obtain ⟨e, he, -⟩ := hfield.start
  obtain ⟨e', he', -, hcap, -⟩ := hshape x e he
  obtain rfl := Option.some.inj (he'.symm.trans hd)
  exact hcap ▸ F.room x e hx he

/-- **The first rewrite** puts its value into the field. It leaves the position in the buffer that the
field ends in. -/
theorem Field.rewrite (F : Field own w ps n off h wp) (hb : Bytes h ps bs) (v : ℕ) :
    ∃ h' x y, wpacketRewriteUint n h wp v = .ok (h', ⟨some y, wp.wpos⟩) ∧ Shape h h' ∧
      Field own w ps n off h' wp ∧ Bytes h' ps (patch off (toBytes n v) bs) ∧ wp.buf = some x ∧ x ≤ y ∧
      (∀ p ∈ (ps.drop off).take n, p.1 ≤ y) ∧ (y = x ↔ InBuffer h wp n) := by
  obtain ⟨x, b, z, hx, hs⟩ := F.start
  have hlong := F.long
  have hlen : ((ps.drop off).take n).length = n :=
    List.length_take_of_le (by rw [List.length_drop]; omega)
  obtain ⟨h', y, hloop, S', hshape, hnew, hother, hle, hys, hfit⟩ :=
    wpacketRewriteLoop_spec F.sound hs
      (show (toBytes n v).length = ((ps.drop off).take n).length by rw [length_toBytes, hlen]) hx
      (show h.fresh - x + (toBytes n v).length < h.fresh + (toBytes n v).length + 1 by omega)
  refine ⟨h', x, y, hloop, hshape, F.shape S' hshape, ?_, hx, hle, hys, ?_⟩
  · exact bytes_patch F.nodup hb (length_toBytes n v) hnew hother
  · obtain ⟨c, hc, -⟩ := hs.start
    rw [hfit c hc, length_toBytes]
    constructor
    · exact fun hin => ⟨x, c, hx, hc, hin⟩
    · rintro ⟨x', c', hx', hc', hin⟩
      obtain rfl := Option.some.inj (hx.symm.trans hx')
      obtain rfl := Option.some.inj (hc.symm.trans hc')
      exact hin

theorem InBuffer.shape (hin : InBuffer h wp n) (hshape : Shape h h') : InBuffer h' wp n := by
  obtain ⟨a, c, ha, hc, hfit⟩ := hin
  obtain ⟨d, hd, -, hcap, -⟩ := hshape a c hc
  exact ⟨a, d, ha, hd, hcap ▸ hfit⟩

/-- **Rewriting in one buffer** works as often as wanted. -/
theorem Field.rewriteAll_in (F : Field own w ps n off h wp) (hb : Bytes h ps bs)
    (hin : InBuffer h wp n) (v : ℕ) (vs : List ℕ) : ∃ h', rewriteAll n h wp (v :: vs) = .ok (h', wp) ∧
      Field own w ps n off h' wp ∧ Bytes h' ps (patch off (toBytes n ((v :: vs).getLastD 0)) bs) := by
  induction vs generalizing h bs v with
  | nil =>
    obtain ⟨h', x, y, hrun, -, F', hb', hx, -, -, hy⟩ := F.rewrite hb v
    rw [hy.mpr hin, ← hx] at hrun
    exact ⟨h', by rw [rewriteAll, hrun]; rfl, F', hb'⟩
  | cons v' vs ih =>
    obtain ⟨h₁, x, y, hrun, hshape, F₁, hb₁, hx, -, -, hy⟩ := F.rewrite hb v
    rw [hy.mpr hin, ← hx] at hrun
    obtain ⟨h', hrest, F', hb'⟩ := ih F₁ hb₁ (hin.shape hshape) v'
    have hlong := F.long
    have hlen := hb.length
    rw [patch_patch (by rw [length_toBytes, length_toBytes]) (by rw [length_toBytes]; omega)] at hb'
    exact ⟨h', by rw [rewriteAll, hrun]; exact hrest, F', hb'⟩

/-- Rewrites that return, wherever their position is, overwrite nothing in front of it. -/
theorem rewriteAll_frame {vs : List ℕ} (S : Sound h own) (hbuf : wp.buf = some a)
    (hrun : rewriteAll n h wp vs = .ok (h', wp')) :
    Sound h' own ∧ Shape h h' ∧
      ∀ p : ℕ × ℕ, p.1 < a ∨ p.1 = a ∧ p.2 < wp.wpos → byteAt h' p = byteAt h p := by
  induction vs generalizing h wp a with
  | nil =>
    cases Except.ok.inj hrun
    exact ⟨S, .refl _, fun _ _ => rfl⟩
  | cons v vs ih =>
    obtain ⟨⟨h₁, wp₁⟩, hfirst, hrun⟩ := Exec.bind_eq_ok.mp hrun
    obtain ⟨S₁, hshape₁, y, rfl, hle, hsame⟩ := wpacketRewriteLoop_frame S hbuf hfirst
    obtain ⟨S', hshape', hsame'⟩ := ih S₁ rfl hrun
    refine ⟨S', hshape₁.trans hshape', fun p hp => ?_⟩
    rw [hsame' p (by dsimp only; omega), hsame p hp]

/-- The first byte of a field that does not lie in the buffer of its position comes before all that
later rewrites overwrite. -/
theorem Field.first_kept (F : Field own w ps n off h wp) (hb : Bytes h ps bs) (hin : ¬ InBuffer h wp n)
    {v : ℕ} {vs : List ℕ} (hrun : rewriteAll n h wp (v :: vs) = .ok (h', wp')) :
    Field own w ps n off h' wp ∧ ∃ p, ps[off]? = some p ∧ byteAt h' p = (toBytes n v)[0]? := by
  have hlong := F.long
  have hpos := F.pos
  have hlen := hb.length
  obtain ⟨⟨h₁, wp₁⟩, hfirst, hrest⟩ := Exec.bind_eq_ok.mp hrun
  obtain ⟨h₁', x, y, hrun₁, -, F₁, hb₁, hx, hle, hys, hy⟩ := F.rewrite hb v
  obtain ⟨rfl, rfl⟩ := Prod.mk.inj (Except.ok.inj (hrun₁.symm.trans hfirst))
  obtain ⟨x', z, pos', hx', hs⟩ := F.start
  obtain rfl := Option.some.inj (hx.symm.trans hx')
  obtain ⟨c, hc, hstart⟩ := hs.start
  have hlater : y ≠ x := fun heq => hin (hy.mp heq)
  obtain ⟨p, hp⟩ : ∃ p, ps[off]? = some p := ⟨_, List.getElem?_eq_getElem (by omega)⟩
  have hhead : ((ps.drop off).take n).head? = some p := by
    rw [List.head?_take, if_neg (by omega), List.head?_drop, hp]
  -- the first byte is in front of the position that the first rewrite leaves
  have hfront : p.1 < y ∨ p.1 = y ∧ p.2 < wp.wpos := by
    have hmem : p.1 ≤ y := hys p (List.mem_of_head? hhead)
    rcases hs.head hc hhead with rfl | ⟨hfull, hzero⟩
    · dsimp only
      omega
    · have hroom := F.room x c hx hc
      have hfull' : c.body.capacity ≤ wp.wpos := by
        by_contra hlt
        have := hs.start_lt hc (by omega) (by rw [List.length_take, List.length_drop]; omega)
        omega
      omega
  obtain ⟨S', hshape, hsame⟩ := rewriteAll_frame F₁.sound rfl hrest
  refine ⟨F₁.shape S' hshape, p, hp, ?_⟩
  rw [hsame p hfront, hb₁.byteAt_eq hp,
    patch_getElem? (by omega) (by rw [length_toBytes]; omega)]

/-- So several rewrites do not put the last value into such a field. -/
theorem Field.not_replaces (F : Field own w ps n off h wp) (hb : Bytes h ps bs)
    (hin : ¬ InBuffer h wp n) (k : ℕ) : ¬ Replaces h w wp n off (0 :: List.replicate (k + 1) 1) := by
  rintro ⟨h', wp', cs, hrun, hcs, hcs'⟩
  obtain ⟨F', p, hp, hbyte⟩ := F.first_kept hb hin hrun
  obtain ⟨a, b, c, pos', -, hs, -⟩ := F'.whole
  obtain ⟨bs', hb'⟩ := hs.exists_bytes F'.sound
  obtain rfl := (F.content_iff hb).mp hcs
  obtain rfl := (F'.content_iff hb').mp hcs'
  have hlong := F.long
  have hlen := hb.length
  have hpos := F.pos
  rw [hb'.byteAt_eq hp, patch_getElem? (by omega) (by rw [length_toBytes]; omega),
    List.getLastD_cons, List.getLastD_eq_getLast?, List.getLast?_replicate, if_neg k.succ_ne_zero,
    Option.getD_some] at hbyte
  obtain ⟨n, rfl⟩ : ∃ m, n = m + 1 := ⟨n - 1, by omega⟩
  exact absurd hbyte (by simp [toBytes])

/-! ## Fields of a packet -/

theorem writeAll_appends {cap : ℕ} {payload : List UInt8} {ops : List Write} (S : Sound h (w.owned + own))
    (B : Built cap h w payload) (hrun : writeAll h w ops = .ok (h', w')) : Appends h w h' w' := by
  induction ops generalizing h w payload with
  | nil =>
    cases Except.ok.inj hrun
    exact .refl _ _
  | cons op ops ih =>
    obtain ⟨⟨h₁, w₁⟩, hop, hrun⟩ := Exec.bind_eq_ok.mp hrun
    obtain ⟨S₁, B₁, -⟩ := write_ok S B op hop
    exact (write_appends S B op hop).trans (ih S₁ B₁ hrun)

/-- **A number is written** at the position that has been taken before, and stays there when more is
written. -/
theorem field_of_writes {h₁ : Heap} {w₁ : WPacket} {cap : ℕ} {payload : List UInt8} {ops : List Write}
    {v : ℕ} (S : Sound h (w.owned + own)) (B : Built cap h w payload) (hn : 0 < n)
    (hfield : wpacketWriteUint n h w v = .ok (h₁, w₁)) (hlater : writeAll h₁ w₁ ops = .ok (h', w')) :
    ∃ ps bs, Field (w'.owned + own) w' ps n w.dataSize h' (wpacketGetWritepos w) ∧ Bytes h' ps bs := by
  obtain ⟨S₁, B₁, hraw₁⟩ := wpacketWrite_ok S B hfield
  obtain ⟨S', B', hraw'⟩ := writeAll_ok S₁ B₁ hlater
  have A := (wpacketWrite_appends S B hfield).trans (writeAll_appends S₁ B₁ hlater)
  obtain ⟨rest, hrest⟩ : ∃ rest, rest = ops.flatMap (Write.bytes w₁.raw) := ⟨_, rfl⟩
  rw [← hrest, List.append_assoc] at B'
  obtain ⟨a, qs, b, c, B⟩ := B
  obtain ⟨a', qs', b', c', B'⟩ := B'
  obtain rfl : a = a' := Option.some.inj (B.buf.symm.trans (A.buf.symm.trans B'.buf))
  obtain ⟨hs, hb⟩ := B.whole
  obtain ⟨hs', hb'⟩ := B'.whole
  obtain ⟨d', hd', -⟩ := hs'.start
  obtain ⟨hs, -⟩ := A.span S S' ⟨d', hd'⟩ hs
  rw [A.raw] at hs' hb'
  obtain ⟨ps, hps⟩ : ∃ ps, ps = places a 0 (headerLen w.raw) ++ qs := ⟨_, rfl⟩
  obtain ⟨ps', hps'⟩ : ∃ ps', ps' = places a 0 (headerLen w.raw) ++ qs' := ⟨_, rfl⟩
  rw [← hps] at hs
  rw [← hps'] at hs' hb'
  have hlen : ps.length = w.dataSize := by
    rw [hps, List.length_append, length_places, B.bytes.length, B.dataSize]
  have hlen' : w.dataSize + n ≤ ps'.length := by
    rw [hps', List.length_append, length_places, B'.bytes.length, List.length_append, List.length_append,
      length_toBytes, B.dataSize]
    omega
  obtain ⟨-, hfield⟩ := hs.rest hs' (by omega)
  rw [hlen] at hfield
  obtain ⟨y, z, hfirst, -⟩ := hfield.split (k := n) (by rw [List.length_drop]; omega)
  refine ⟨ps', _, ⟨S', ⟨a, b', c', _, B'.buf, hs', B'.cell, B'.last, B'.size⟩,
    ⟨b, y, z, B.writebuf, hfirst⟩, fun x d hx hd => ?_, hlen', hn⟩, hb'⟩
  obtain rfl := Option.some.inj (B.writebuf.symm.trans hx)
  -- nothing would come after a buffer without room
  refine Nat.pos_of_ne_zero fun hzero => ?_
  have hnil := (B'.tapers.of_reach B'.cell B'.last hs.reach).span_nil S' B'.cell B'.last hd hzero hfield
  have := congrArg List.length hnil
  rw [List.length_drop, List.length_nil] at this
  omega

/-- **Rewriting a field** `k` times puts the last value into it, whatever the values are, if and only
if it is done once or the field lies in the buffer of its position. -/
theorem replaces_iff {h₁ h₂ h₃ h₄ : Heap} {w₁ w₂ w₃ w₄ : WPacket} {size v : ℕ} {raw : Bool}
    {ops₁ ops₂ : List Write} (S : Sound h own) (hsize : size < 0x100000000)
    (hcreate : wpacketCreate h size raw = .ok (h₁, w₁)) (hbefore : writeAll h₁ w₁ ops₁ = .ok (h₂, w₂))
    (hn : 0 < n) (hfield : wpacketWriteUint n h₂ w₂ v = .ok (h₃, w₃))
    (hlater : writeAll h₃ w₃ ops₂ = .ok (h₄, w₄)) (hk : 0 < k) :
    (∀ vs : List ℕ, vs.length = k → Replaces h₄ w₄ (wpacketGetWritepos w₂) n w₂.dataSize vs) ↔
      k = 1 ∨ InBuffer h₄ (wpacketGetWritepos w₂) n := by
  obtain ⟨S₁, B₁, -⟩ := wpacketCreate_ok S hsize hcreate
  obtain ⟨S₂, B₂, -⟩ := writeAll_ok S₁ B₁ hbefore
  obtain ⟨ps, bs, F, hb⟩ := field_of_writes S₂ B₂ hn hfield hlater
  constructor
  · intro hall
    by_contra! hnot
    obtain ⟨m, rfl⟩ : ∃ m, k = m + 2 := ⟨k - 2, by omega⟩
    exact F.not_replaces hb hnot.2 m (hall (0 :: List.replicate (m + 1) 1) (by simp))
  · rintro hcond vs hvs
    obtain ⟨v₀, vs, rfl⟩ := List.exists_cons_of_length_pos (show 0 < vs.length by omega)
    rcases hcond with rfl | hin
    · obtain rfl := List.eq_nil_of_length_eq_zero (show vs.length = 0 by simpa using hvs)
      obtain ⟨h', x, y, hrun, -, F', hb', -⟩ := F.rewrite hb v₀
      exact ⟨h', _, bs, by rw [rewriteAll, hrun]; rfl, (F.content_iff hb).mpr rfl,
        (F'.content_iff hb').mpr rfl⟩
    · obtain ⟨h', hrun, F', hb'⟩ := F.rewriteAll_in hb hin v₀ vs
      exact ⟨h', _, bs, hrun, (F.content_iff hb).mpr rfl, (F'.content_iff hb').mpr rfl⟩

/-- A number in the first buffer, which more is written behind. -/
theorem replaces_first_buffer : ∃ h₁ w₁ h₃ w₃ h₄ w₄,
    wpacketCreate RefHeap.empty 8 false = .ok (h₁, w₁) ∧
    wpacketWriteUint32 h₁ w₁ 0 = .ok (h₃, w₃) ∧ writeAll h₃ w₃ [.uint64 5] = .ok (h₄, w₄) ∧
      ∀ vs : List ℕ, vs.length = 3 → Replaces h₄ w₄ (wpacketGetWritepos w₁) 4 w₁.dataSize vs := by
  obtain ⟨⟨⟨h₁, w₁⟩, ⟨h₃, w₃⟩, ⟨h₄, w₄⟩⟩, hrun⟩ := Exec.exists_ok (x := do
    let s ← wpacketCreate RefHeap.empty 8 false
    let t ← wpacketWriteUint32 s.1 s.2 0
    let u ← writeAll t.1 t.2 [.uint64 5]
    if ∃ a ∈ s.2.writebuf, ∃ c ∈ u.1.cell a, s.2.wpos + 4 ≤ c.body.capacity then return (s, t, u)
    else .error .fuel) (by decide +kernel)
  obtain ⟨s, hcreate, hrun⟩ := Exec.bind_eq_ok.mp hrun
  obtain ⟨t, hfield, hrun⟩ := Exec.bind_eq_ok.mp hrun
  obtain ⟨u, hlater, hrun⟩ := Exec.bind_eq_ok.mp hrun
  split_ifs at hrun with hcond
  cases hrun
  obtain ⟨a, ha, c, hc, hfit⟩ := hcond
  exact ⟨h₁, w₁, h₃, w₃, h₄, w₄, hcreate, hfield, hlater,
    (replaces_iff sound_empty (by decide) hcreate (show writeAll h₁ w₁ [] = _ from rfl) (by decide)
      hfield hlater (by decide)).mpr
      (.inr ⟨a, c, ha, hc, hfit⟩)⟩

/-- Two rewrites of a number that goes on in the next buffer: the second one leaves its first byte. -/
theorem not_replaces_across : ∃ h₁ w₁ h₂ w₂ h₃ w₃,
    wpacketCreate RefHeap.empty 4 true = .ok (h₁, w₁) ∧
    writeAll h₁ w₁ [.binary [1, 2, 3]] = .ok (h₂, w₂) ∧ wpacketWriteUint16 h₂ w₂ 7 = .ok (h₃, w₃) ∧
      ¬ Replaces h₃ w₃ (wpacketGetWritepos w₂) 2 w₂.dataSize [0, 1] := by
  obtain ⟨⟨⟨h₁, w₁⟩, ⟨h₂, w₂⟩, ⟨h₃, w₃⟩⟩, hrun⟩ := Exec.exists_ok (x := do
    let s ← wpacketCreate RefHeap.empty 4 true
    let t ← writeAll s.1 s.2 [.binary [1, 2, 3]]
    let u ← wpacketWriteUint16 t.1 t.2 7
    if ∀ a ∈ t.2.writebuf, ∀ c ∈ u.1.cell a, c.body.capacity < t.2.wpos + 2 then return (s, t, u)
    else .error .fuel) (by decide +kernel)
  obtain ⟨s, hcreate, hrun⟩ := Exec.bind_eq_ok.mp hrun
  obtain ⟨t, hbefore, hrun⟩ := Exec.bind_eq_ok.mp hrun
  obtain ⟨u, hfield, hrun⟩ := Exec.bind_eq_ok.mp hrun
  split_ifs at hrun with hcond
  cases hrun
  obtain ⟨S₁, B₁, -⟩ := wpacketCreate_ok sound_empty (by decide) hcreate
  obtain ⟨S₂, B₂, -⟩ := writeAll_ok S₁ B₁ hbefore
  obtain ⟨ps, bs, F, hb⟩ := field_of_writes S₂ B₂ (by decide) hfield (show writeAll h₃ w₃ [] = _ from rfl)
  refine ⟨h₁, w₁, h₂, w₂, h₃, w₃, hcreate, hbefore, hfield, F.not_replaces hb ?_ 0⟩
  rintro ⟨a, c, ha, hc, hfit⟩
  exact absurd (hcond a ha c hc) (Nat.not_lt.mpr hfit)

end WPacket

end Kendylib
