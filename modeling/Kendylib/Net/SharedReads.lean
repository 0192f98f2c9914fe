import Kendylib.Net.Reading

/-!
# Reading a packet whose buffers are shared

What a read leaves alone, whatever the packet holds: a read that returns has moved the cursor, and
has written to the memory of the packet's own only, which nothing else refers to (`Leaves.read`). So
the bytes stored in the buffers that others share stay.
-/

namespace Kendylib

open RefHeap Buffer WPacket Connection

namespace RPacket

variable {h₀ h h' : Heap} {r₀ r r' : RPacket} {own : Multiset ℕ} {a b n m fuel : ℕ} {c : Cell Block}
  {bytes : List UInt8}

/-- What reads of a packet leave, from `r₀` in the memory `h₀` on: the packet and what others hold.
The buffer `b` is the one that is being filled. -/
structure Leaves (own : Multiset ℕ) (b : ℕ) (h₀ : Heap) (r₀ : RPacket) (h : Heap) (r : RPacket) :
    Prop where
  sound : Sound h (r.owned + own)
  binbuf : ∀ x, r.binbuf = some x → Apart h b x
  stays : ∀ x ∈ refs r₀.buf + own, StaysFrom h₀ h x
  apart : ∀ x ∈ own, Apart h₀ b x → Apart h b x
  fields : r.buf = r₀.buf ∧ r.beginPos = r₀.beginPos ∧ r.len = r₀.len ∧ r.raw = r₀.raw
  others : ∀ x c, h.cell x = some c → r.binbuf ≠ some x →
    ∃ c₀, h₀.cell x = some c₀ ∧ c.next = c₀.next ∧ c.body = c₀.body

theorem Leaves.refl (S : Sound h (r.owned + own)) (hbin : ∀ x, r.binbuf = some x → Apart h b x) :
    Leaves own b h r h r :=
  ⟨S, hbin, fun _ _ => .of_keepsFrom fun _ c _ hc => ⟨c, hc, rfl, rfl⟩, fun _ _ A => A,
    ⟨rfl, rfl, rfl, rfl⟩, fun _ c hc _ => ⟨c, hc, rfl, rfl⟩⟩

/-- The memory is kept, and the cursor moved. -/
theorem Leaves.move (L : Leaves own b h₀ r₀ h r) (K : Keeps h h') (S' : Sound h' (r'.owned + own))
    (hr : r' = { r with
      readbuf := r'.readbuf, rpos := r'.rpos, dataRemain := r'.dataRemain }) :
    Leaves own b h₀ r₀ h' r' := by
  have hbuf : r'.buf = r.buf := by rw [hr]
  have hbin : r'.binbuf = r.binbuf := by rw [hr]
  refine ⟨S', fun x hx => ?_, fun x hx => ?_, fun x hx A => ?_, by rw [hr]; exact L.fields,
    fun x c' hc' hx => ?_⟩
  · exact (L.binbuf x (hbin ▸ hx)).keep K (S'.live (by simp [owned, hx]))
  · refine (L.stays x hx).trans (.of_keepsFrom (K.from S'.toExact (S'.live ?_)))
    rw [← L.fields.1, ← hbuf] at hx
    rw [owned, add_assoc, add_assoc]
    refine Multiset.mem_of_le ?_ hx
    exact add_le_add_right ((Multiset.le_add_left ..).trans (Multiset.le_add_left ..)) _
  · exact (L.apart x hx A).keep K (S'.live (Multiset.mem_add.mpr (.inr hx)))
  · obtain ⟨c, hc, hn, hbody⟩ := K.cell x c' hc'
    obtain ⟨c₀, hc₀, hn₀, hbody₀⟩ := L.others x c hc (hbin ▸ hx)
    exact ⟨c₀, hc₀, hn.trans hn₀, hbody.trans hbody₀⟩

theorem Leaves.nextBuffer (L : Leaves own b h₀ r₀ h r) (hbuf : r.readbuf = some a)
    (hc : h.cell a = some c) (hx : nextBuffer h r c = .ok (h', r')) :
    Leaves own b h₀ r₀ h' r' ∧ r'.binbuf = r.binbuf := by
  rw [RPacket.nextBuffer] at hx
  split_ifs at hx with hmove
  · have S := L.sound
    rw [owned_readbuf] at S
    obtain ⟨h₁, hacq, S', K⟩ := bufferAcquire_spec S (p := c.next) fun n hn => by
      rw [hbuf] at S
      exact (S.next_live hc hn).2
    rw [hacq, Exec.ok_bind] at hx
    obtain ⟨rfl, rfl⟩ := Prod.mk.inj (Except.ok.inj hx)
    refine ⟨L.move K ?_ rfl, rfl⟩
    rw [owned_readbuf]
    exact S'
  · obtain ⟨rfl, rfl⟩ := Prod.mk.inj (Except.ok.inj hx)
    exact ⟨L, rfl⟩

theorem Leaves.copyRound (L : Leaves own b h₀ r₀ h r)
    (hx : copyRound h r m = .ok (h', r', bytes)) :
    Leaves own b h₀ r₀ h' r' ∧ r'.binbuf = r.binbuf := by
  obtain ⟨a, hbuf, hx⟩ := Exec.bind_eq_ok.mp hx
  obtain ⟨c, hc, hx⟩ := Exec.bind_eq_ok.mp hx
  obtain ⟨out, -, hx⟩ := Exec.bind_eq_ok.mp hx
  obtain ⟨⟨h₁, r₁⟩, hnext, hx⟩ := Exec.bind_eq_ok.mp hx
  cases Except.ok.inj hx
  have L₁ : Leaves own b h₀ r₀ h { r with
      rpos := add32 r.rpos (min (sub32 c.body.size r.rpos) m)
      dataRemain := sub32 r.dataRemain (min (sub32 c.body.size r.rpos) m) } :=
    L.move (.refl h) L.sound rfl
  exact L₁.nextBuffer (Exec.deref_eq_ok.mp hbuf) (get_eq_ok.mp hc) hnext

theorem Leaves.rpacketRead (L : Leaves own b h₀ r₀ h r)
    (hx : rpacketRead h r m = .ok (h', r', bytes)) : Leaves own b h₀ r₀ h' r' := by
  have hloop : ∀ fuel h r m bytes, Leaves own b h₀ r₀ h r →
      rpacketReadLoop fuel h r m = .ok (h', r', bytes) → Leaves own b h₀ r₀ h' r' := by
    intro fuel
    induction fuel with
    | zero => nofun
    | succ fuel ih =>
      intro h r m bytes L hx
      rw [rpacketReadLoop] at hx
      split_ifs at hx with hm
      · cases Except.ok.inj hx
        exact L
      · obtain ⟨⟨h₁, r₁, out⟩, hround, hx⟩ := Exec.bind_eq_ok.mp hx
        obtain ⟨⟨h₂, r₂, out'⟩, hrest, hx⟩ := Exec.bind_eq_ok.mp hx
        cases Except.ok.inj hx
        exact ih _ _ _ _ (L.copyRound hround).1 hrest
  rw [RPacket.rpacketRead] at hx
  split_ifs at hx with hfew
  · cases Except.ok.inj hx
    exact L
  · exact hloop _ _ _ _ _ L hx

theorem Leaves.rpacketReadUint (L : Leaves own b h₀ r₀ h r)
    (hx : rpacketReadUint m h r = .ok (h', r', n)) : Leaves own b h₀ r₀ h' r' := by
  obtain ⟨⟨h₁, r₁, out⟩, hread, hx⟩ := Exec.bind_eq_ok.mp hx
  cases Except.ok.inj hx
  exact L.rpacketRead hread

/-- **The buffers that others hold** are kept as they are. -/
theorem Leaves.keepsFrom {x : ℕ} (L : Leaves own b h₀ r₀ h r) (hx : x ∈ refs r₀.buf + own)
    (hbin : r.binbuf ≠ some x) : KeepsFrom h₀ h x := by
  intro y c hxy hc
  have hother : r.binbuf ≠ some y := by
    intro hy
    have hreach := Reach.grow hxy (L.stays x hx).growsFrom
    rcases hreach.cases_tail with rfl | ⟨z, d, hd, hn⟩
    · exact hbin hy
    · exact (L.binbuf y hy).unlinked z d hd hn
  obtain ⟨c', hc', -⟩ := L.stays x hx y c hxy hc
  obtain ⟨c₀, hc₀, hn, hbody⟩ := L.others y c' hc' hother
  obtain rfl := Option.some.inj (hc₀.symm.trans hc)
  exact ⟨c', hc', hn, hbody⟩

/-! ## Memory of the packet's own -/

/-- **Bytes put into `binbuf`** change no byte that is counted. -/
theorem Leaves.store (L : Leaves own b h₀ r₀ h r) (hbin : r.binbuf = some a)
    (hx : storeAt h (a, m) bytes = .ok h') : Leaves own b h₀ r₀ h' r := by
  obtain ⟨c, hc, hsize⟩ := (L.binbuf a hbin).empty
  obtain ⟨buf, S', hput, -⟩ := storeAt_ok L.sound hc hx
  have hshape : Shape h h' := hput ▸ .put hc buf
  have hback : Shape h' h := hput ▸ .of_put hc buf
  have hstays : ∀ x, StaysFrom h h' x := by
    intro x y e _ he
    by_cases hy : y = a
    · subst hy
      obtain rfl := Option.some.inj (he.symm.trans hc)
      refine ⟨{ e with body := { e.body with buf := buf } }, by rw [hput, put_self], rfl, rfl,
        fun _ h => h, rfl, le_rfl, fun p hp => by omega⟩
    · exact ⟨e, by rw [hput, put_of_ne hy, he], rfl, rfl, .of_eq rfl rfl⟩
  refine ⟨S', fun x hx => (L.binbuf x hx).shape hshape hback, fun x hx => (L.stays x hx).trans (hstays x),
    fun x hx A => (L.apart x hx A).shape hshape hback, L.fields, fun x e he hne => ?_⟩
  have hxa : x ≠ a := by
    rintro rfl
    exact hne hbin
  exact L.others x e (by rwa [hput, put_of_ne hxa] at he) hne

theorem Leaves.binaryLoop (L : Leaves own b h₀ r₀ h r) (hbin : r.binbuf = some a)
    (hx : binaryLoop a fuel h r m = .ok (h', r')) : Leaves own b h₀ r₀ h' r' := by
  induction fuel generalizing h r m with
  | zero => cases hx
  | succ fuel ih =>
    rw [binaryLoop_succ] at hx
    split_ifs at hx with hm
    · cases Except.ok.inj hx
      exact L
    · obtain ⟨⟨h₁, r₁, out⟩, hround, hx⟩ := Exec.bind_eq_ok.mp hx
      obtain ⟨h₂, hstore, hx⟩ := Exec.bind_eq_ok.mp hx
      obtain ⟨L₁, hbin₁⟩ := L.copyRound hround
      have L₂ := L₁.store (hbin₁.trans hbin) hstore
      have L₃ : Leaves own b h₀ r₀ h₂ { r₁ with binbufpos := add32 r₁.binbufpos out.length } :=
        ⟨L₂.sound, L₂.binbuf, L₂.stays, L₂.apart, L₂.fields, L₂.others⟩
      exact ih L₃ (hbin₁.trans hbin) hx

/-- **`binbuf` is created** apart from all buffers there are. -/
theorem Leaves.acquireBinbuf (L : Leaves own b h₀ r₀ h r) (hb : b ∈ own) (hlen : r₀.len < 0x100000000)
    (hx : acquireBinbuf h r = .ok (h', r', a)) :
    Leaves own b h₀ r₀ h' r' ∧ r'.binbuf = some a := by
  rw [RPacket.acquireBinbuf] at hx
  cases hbin : r.binbuf with
  | some x =>
    rw [hbin] at hx
    cases Except.ok.inj hx
    exact ⟨L, hbin⟩
  | none =>
    rw [hbin] at hx
    have hlen : r.len < 0x100000000 := L.fields.2.2.1 ▸ hlen
    by_cases hwrap : headerSize + r.len < 0x100000000
    · obtain ⟨h₁, hnew, S', hself, hne, -⟩ := bufferCreateAndAcquire_spec L.sound hwrap
      simp only [hnew, Exec.ok_bind] at hx
      cases Except.ok.inj hx
      have hold : ∀ x e, h.cell x = some e → h'.cell x = some e := fun x e he => by
        rw [hne x (L.sound.bound x e he).ne, he]
      have K : ∀ x, StaysFrom h h' x := fun x y e _ he => ⟨e, hold y e he, rfl, rfl, .of_eq rfl rfl⟩
      have hunlinked : ∀ x, (x = h.fresh ∨ Unlinked h x) → Unlinked h' x := by
        intro x hx y e he
        by_cases hy : y = h.fresh
        · rw [hy, hself, Option.some.injEq] at he
          rw [← he]
          simp
        · rw [hne y hy] at he
          rcases hx with rfl | hx
          · intro hn
            obtain ⟨c, hc⟩ := (L.sound.next_live he hn).2
            exact (L.sound.bound _ c hc).ne rfl
          · exact hx y e he
      refine ⟨⟨?_, fun x hx => ?_, fun x hx => (L.stays x hx).trans (K x), fun x hx A => ?_, L.fields,
        fun x e he hx => ?_⟩, rfl⟩
      · rw [owned, hbin, refs_none, add_zero, ← Multiset.singleton_add] at S'
        rw [owned, refs_some]
        convert S' using 1
        abel
      · obtain rfl := Option.some.inj hx
        obtain ⟨c, hc⟩ := L.sound.live (Multiset.mem_add.mpr (.inr hb))
        exact ⟨⟨_, hself, rfl⟩, (L.sound.bound b c hc).ne', hunlinked _ (.inl rfl)⟩
      · obtain ⟨⟨c, hc, hsize⟩, hxb, U⟩ := L.apart x hx A
        exact ⟨⟨c, hold x c hc, hsize⟩, hxb, hunlinked x (.inr U)⟩
      · have hxf : x ≠ h.fresh := by
          rintro rfl
          exact hx rfl
        exact L.others x e (by rwa [hne x hxf] at he) (by simp [hbin])
    · have hsmall : add32 headerSize r.len < headerSize := by
        rw [add32, headerSize] at *
        omega
      simp only [bufferCreateAndAcquire, if_pos hsmall] at hx
      cases hx

theorem Leaves.copyBinary {addr : Option (ℕ × ℕ)} (L : Leaves own b h₀ r₀ h r) (hb : b ∈ own)
    (hlen : r₀.len < 0x100000000) (hx : copyBinary h r m = .ok (h', r', addr)) :
    Leaves own b h₀ r₀ h' r' := by
  obtain ⟨⟨h₁, r₁, a⟩, hacq, hx⟩ := Exec.bind_eq_ok.mp hx
  obtain ⟨⟨h₂, r₂⟩, hloop, hx⟩ := Exec.bind_eq_ok.mp hx
  cases Except.ok.inj hx
  obtain ⟨L₁, hbin⟩ := L.acquireBinbuf hb hlen hacq
  exact L₁.binaryLoop hbin hloop

/-! ## The reads -/

theorem Leaves.rpacketReadBinary {addr : Option (ℕ × ℕ)} {len : ℕ} (L : Leaves own b h₀ r₀ h r)
    (hb : b ∈ own) (hlen : r₀.len < 0x100000000)
    (hx : rpacketReadBinary h r m = .ok (h', r', addr, len)) : Leaves own b h₀ r₀ h' r' := by
  rw [RPacket.rpacketReadBinary] at hx
  split_ifs at hx with hraw
  · rw [rpacketRawReadBinary] at hx
    split_ifs at hx with hzero
    · cases Except.ok.inj hx
      exact L
    obtain ⟨a, -, hx⟩ := Exec.bind_eq_ok.mp hx
    obtain ⟨c, -, hx⟩ := Exec.bind_eq_ok.mp hx
    split_ifs at hx with hinside
    · cases Except.ok.inj hx
      exact L.move (.refl h) L.sound rfl
    · obtain ⟨⟨h₁, r₁, p⟩, hcopy, hx⟩ := Exec.bind_eq_ok.mp hx
      cases Except.ok.inj hx
      exact L.copyBinary hb hlen hcopy
  obtain ⟨⟨h₁, r₁, size⟩, hsize, hx⟩ := Exec.bind_eq_ok.mp hx
  have L₁ := L.rpacketReadUint hsize
  dsimp only at hx
  split_ifs at hx with hnone
  · cases Except.ok.inj hx
    exact L₁
  obtain ⟨a, hbuf, hx⟩ := Exec.bind_eq_ok.mp hx
  obtain ⟨c, hc, hx⟩ := Exec.bind_eq_ok.mp hx
  split_ifs at hx with hinside
  · obtain ⟨⟨h₂, r₂⟩, hnext, hx⟩ := Exec.bind_eq_ok.mp hx
    have L₂ : Leaves own b h₀ r₀ h₁ { r₁ with
        rpos := add32 r₁.rpos size, dataRemain := sub32 r₁.dataRemain size } :=
      L₁.move (.refl h₁) L₁.sound rfl
    cases Except.ok.inj hx
    exact (L₂.nextBuffer (Exec.deref_eq_ok.mp hbuf) (get_eq_ok.mp hc) hnext).1
  · obtain ⟨⟨h₂, r₂, p⟩, hcopy, hx⟩ := Exec.bind_eq_ok.mp hx
    cases Except.ok.inj hx
    exact L₁.copyBinary hb hlen hcopy

/-- **A read that returns** leaves what others share. -/
theorem Leaves.read {op : Read} {v : Value} (S : Sound h (r.owned + own)) (hb : b ∈ own)
    (hlen : r.len < 0x100000000) (hbin : ∀ x, r.binbuf = some x → Apart h b x)
    (hx : read h r op = .ok (h', r', v)) : Leaves own b h r h' r' := by
  have L : Leaves own b h r h r := .refl S hbin
  cases op with
  | uint8 | uint16 | uint32 | uint64 =>
    obtain ⟨⟨h₁, r₁, n⟩, hread, hx⟩ := Exec.bind_eq_ok.mp hx
    cases Except.ok.inj hx
    exact L.rpacketReadUint hread
  | string =>
    obtain ⟨⟨h₁, r₁, addr⟩, hread, hx⟩ := Exec.bind_eq_ok.mp hx
    cases Except.ok.inj hx
    obtain ⟨⟨h₂, r₂, p, len⟩, hread, hx⟩ := Exec.bind_eq_ok.mp hread
    cases Except.ok.inj hx
    exact L.rpacketReadBinary hb hlen hread
  | binary =>
    obtain ⟨⟨h₁, r₁, addr, len⟩, hread, hx⟩ := Exec.bind_eq_ok.mp hx
    cases Except.ok.inj hx
    exact L.rpacketReadBinary hb hlen hread

end RPacket

end Kendylib
