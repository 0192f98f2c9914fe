import Kendylib.Net.Connection

/-!
# References to buffers

What the functions of `Kendylib.Net` do to the references to buffers, whatever the buffers hold and
whether or not a call comes to its end. The counts of a heap are exact for the references `own` held
outside of it, and some of these references are followed besides (`Roles`): those through which
chains are extended, and those through which memory is offered to the kernel.

Every function is specified by `Exec.Ensures`: it accesses no buffer that has been destroyed, and if
it returns, the counts are exact for the references held then.
-/

namespace Kendylib

open RefHeap Buffer RPacket WPacket Connection

/-- What some of the references are for.

* `tails` are the `writebuf` of packets. Each is the last buffer of its chain and has one packet that
  writes to it, so `wpacket_expand` never overwrites a link.
* `heads` are the `next_recv_buf` of connections. A chain is extended by packets or by connections,
  never by both.
* `offers` are the links from a `next_recv_buf` to the buffer offered to a read besides. -/
@[ext]
structure Roles where
  tails : Multiset ℕ
  heads : Multiset ℕ
  offers : Multiset (ℕ × ℕ)

namespace Roles

variable {R R₁ R₂ : Roles} {own : Multiset ℕ} {b : ℕ}

instance : Zero Roles := ⟨⟨0, 0, 0⟩⟩

instance : Add Roles := ⟨fun R₁ R₂ => ⟨R₁.tails + R₂.tails, R₁.heads + R₂.heads, R₁.offers + R₂.offers⟩⟩

@[simp] theorem zero_tails : (0 : Roles).tails = 0 := rfl

@[simp] theorem zero_heads : (0 : Roles).heads = 0 := rfl

@[simp] theorem zero_offers : (0 : Roles).offers = 0 := rfl

@[simp] theorem add_tails : (R₁ + R₂).tails = R₁.tails + R₂.tails := rfl

@[simp] theorem add_heads : (R₁ + R₂).heads = R₁.heads + R₂.heads := rfl

@[simp] theorem add_offers : (R₁ + R₂).offers = R₁.offers + R₂.offers := rfl

instance : AddCommMonoid Roles where
  add_assoc R₁ R₂ R₃ := by ext1 <;> simp [add_assoc]
  zero_add R := by ext1 <;> simp
  add_zero R := by ext1 <;> simp
  add_comm R₁ R₂ := by ext1 <;> simp [add_comm]
  nsmul := nsmulRec

/-- The role of a last buffer. -/
def tail (b : ℕ) : Roles := ⟨{b}, 0, 0⟩

/-- The role of a buffer to receive into. -/
def head (b : ℕ) : Roles := ⟨0, {b}, 0⟩

/-- The role of a link to a buffer that is offered. -/
def offer (x : ℕ × ℕ) : Roles := ⟨0, 0, {x}⟩

theorem tail_add : tail b + R = { R with tails := b ::ₘ R.tails } := by
  ext1 <;> simp [tail]

theorem head_add : head b + R = { R with heads := b ::ₘ R.heads } := by
  ext1 <;> simp [head]

theorem offer_add {x : ℕ × ℕ} : offer x + R = { R with offers := x ::ₘ R.offers } := by
  ext1 <;> simp [offer]

/-- References to the buffers with a role are held. -/
structure Within (R : Roles) (own : Multiset ℕ) : Prop where
  tails : ∀ a ∈ R.tails, a ∈ own
  heads : ∀ a ∈ R.heads, a ∈ own
  offers : ∀ x ∈ R.offers, x.1 ∈ own

theorem Within.add (W : R.Within own) (x : Multiset ℕ) : R.Within (x + own) :=
  ⟨fun a ha => Multiset.mem_add.mpr (.inr (W.tails a ha)),
    fun a ha => Multiset.mem_add.mpr (.inr (W.heads a ha)),
    fun a ha => Multiset.mem_add.mpr (.inr (W.offers a ha))⟩

theorem Within.add_right (W : R.Within own) (x : Multiset ℕ) : R.Within (own + x) :=
  add_comm x own ▸ W.add x

theorem within_zero : (0 : Roles).Within own :=
  ⟨fun a ha => absurd ha (Multiset.notMem_zero a), fun a ha => absurd ha (Multiset.notMem_zero a),
    fun a ha => absurd ha (Multiset.notMem_zero a)⟩

theorem Within.plus (W₁ : R₁.Within own) (W₂ : R₂.Within own) : (R₁ + R₂).Within own :=
  ⟨fun a ha => (Multiset.mem_add.mp ha).elim (W₁.tails a) (W₂.tails a),
    fun a ha => (Multiset.mem_add.mp ha).elim (W₁.heads a) (W₂.heads a),
    fun a ha => (Multiset.mem_add.mp ha).elim (W₁.offers a) (W₂.offers a)⟩

theorem within_tails {tails : Multiset ℕ} (h : ∀ a ∈ tails, a ∈ own) :
    (⟨tails, 0, 0⟩ : Roles).Within own :=
  ⟨h, fun a ha => absurd ha (Multiset.notMem_zero a), fun a ha => absurd ha (Multiset.notMem_zero a)⟩

theorem within_tail (hb : b ∈ own) : (tail b).Within own :=
  within_tails fun _ ha => Multiset.mem_singleton.mp ha ▸ hb

theorem within_head (hb : b ∈ own) : (head b).Within own :=
  ⟨fun a ha => absurd ha (Multiset.notMem_zero a), fun _ ha => Multiset.mem_singleton.mp ha ▸ hb,
    fun a ha => absurd ha (Multiset.notMem_zero a)⟩

end Roles

/-- The roles of the references of a packet. -/
def WPacket.roles (w : WPacket) : Roles := ⟨refs w.writebuf, 0, 0⟩

theorem WPacket.roles_some {w : WPacket} {b : ℕ} (hw : w.writebuf = some b) :
    w.roles = Roles.tail b := by
  rw [WPacket.roles, hw, refs_some, Roles.tail]

theorem WPacket.roles_none {w : WPacket} (hw : w.writebuf = none) : w.roles = 0 := by
  rw [WPacket.roles, hw, refs_none]
  rfl

/-- The buffers fall into those of packets and those received into, chain by chain. -/
structure Kinds (h : Heap) (R : Roles) (recv : ℕ → Prop) : Prop where
  closed : ∀ a c n, h.cell a = some c → c.next = some n → (recv n ↔ recv a)
  heads : ∀ a ∈ R.heads, recv a
  tails : ∀ a ∈ R.tails, ¬ recv a

/-- The counts are exact for the references `own`, and the buffers with a role are in memory and fit
for it. -/
structure Held (h : Heap) (own : Multiset ℕ) (R : Roles) : Prop where
  exact : Exact h own
  tails : ∀ a ∈ R.tails, ∃ c, h.cell a = some c ∧ c.next = none
  nodup : R.tails.Nodup
  heads : ∀ a ∈ R.heads, ∃ c, h.cell a = some c
  offers : ∀ x ∈ R.offers, ∃ c, h.cell x.1 = some c ∧ c.next = some x.2
  kinds : ∃ recv, Kinds h R recv

variable {h h' : Heap} {own own' : Multiset ℕ} {R : Roles} {a b n pos : ℕ} {c c' : Cell Block}
  {o p : Option ℕ} {bs : List UInt8}

namespace Held

theorem of_eq {R' : Roles} (H : Held h own R) (howned : own = own') (hroles : R = R') :
    Held h own' R' := howned ▸ hroles ▸ H

/-- Roles may be given up. -/
theorem fewer {R₁ : Roles} (H : Held h own (R₁ + R)) : Held h own R := by
  obtain ⟨recv, hclosed, hheads, htails⟩ := H.kinds
  exact ⟨H.exact, fun a ha => H.tails a (Multiset.mem_add.mpr (.inr ha)),
    Multiset.nodup_of_le (Multiset.le_add_left _ _) H.nodup,
    fun a ha => H.heads a (Multiset.mem_add.mpr (.inr ha)),
    fun a ha => H.offers a (Multiset.mem_add.mpr (.inr ha)), recv, hclosed,
    fun a ha => hheads a (Multiset.mem_add.mpr (.inr ha)),
    fun a ha => htails a (Multiset.mem_add.mpr (.inr ha))⟩

/-- The buffer behind a head is a head. -/
theorem next_head (H : Held h own R) (ha : a ∈ R.heads) (hc : h.cell a = some c)
    (hn : c.next = some n) : Held h own (.head n + R) := by
  rw [Roles.head_add]
  obtain ⟨recv, hclosed, hheads, htails⟩ := H.kinds
  refine ⟨H.exact, H.tails, H.nodup, fun b hb => ?_, H.offers, recv, hclosed, fun b hb => ?_, htails⟩
  · obtain rfl | hb := Multiset.mem_cons.mp hb
    · exact (H.exact.next_live hc hn).2
    · exact H.heads b hb
  · obtain rfl | hb := Multiset.mem_cons.mp hb
    · exact (hclosed a c b hc hn).mpr (hheads a ha)
    · exact hheads b hb

/-- A link may be offered. -/
theorem add_offer (H : Held h own R) (hc : h.cell a = some c) (hn : c.next = some n) :
    Held h own (.offer (a, n) + R) := by
  rw [Roles.offer_add]
  obtain ⟨recv, K⟩ := H.kinds
  refine ⟨H.exact, H.tails, H.nodup, H.heads, fun x hx => ?_, recv, K.closed, K.heads, K.tails⟩
  obtain rfl | hx := Multiset.mem_cons.mp hx
  · exact ⟨c, hc, hn⟩
  · exact H.offers x hx

/-- Some of the links that may be offered. -/
theorem offers_of_mem {R₁ : Roles} {offers : Multiset (ℕ × ℕ)} (H : Held h own (R₁ + R))
    (hle : ∀ x ∈ offers, x ∈ R₁.offers) : Held h own (⟨0, 0, offers⟩ + R) := by
  have H' := H.fewer
  obtain ⟨recv, K⟩ := H'.kinds
  refine ⟨H.exact, ?_, ?_, ?_, fun x hx => ?_, recv, K.closed, ?_, ?_⟩
  · simpa using H'.tails
  · simpa using H'.nodup
  · simpa using H'.heads
  · obtain hx | hx := Multiset.mem_add.mp hx
    · exact H.offers x (Multiset.mem_add.mpr (.inl (hle x hx)))
    · exact H'.offers x hx
  · simpa using K.heads
  · simpa using K.tails

/-- References are taken and dropped, and buffers freed, but none that has a role. -/
theorem keep (H : Held h own R) (K : Keeps h h') (E : Exact h' own') (W : R.Within own') :
    Held h' own' R := by
  obtain ⟨recv, hclosed, hheads, htails⟩ := H.kinds
  have hcell : ∀ a ∈ own', ∀ c, h.cell a = some c → ∃ c', h'.cell a = some c' ∧ c'.next = c.next := by
    intro a ha c hc
    obtain ⟨d, hd⟩ := E.live ha
    obtain ⟨e, he, hn, -⟩ := K.cell a d hd
    obtain rfl := Option.some.inj (he.symm.trans hc)
    exact ⟨d, hd, hn⟩
  refine ⟨E, fun a ha => ?_, H.nodup, fun a ha => E.live (W.heads a ha), fun x hx => ?_, recv,
    fun a d n hd hn => ?_, hheads, htails⟩
  · obtain ⟨c, hc, hn⟩ := H.tails a ha
    obtain ⟨c', hc', hn'⟩ := hcell a (W.tails a ha) c hc
    exact ⟨c', hc', hn'.trans hn⟩
  · obtain ⟨c, hc, hn⟩ := H.offers x hx
    obtain ⟨c', hc', hn'⟩ := hcell x.1 (W.offers x hx) c hc
    exact ⟨c', hc', hn'.trans hn⟩
  · obtain ⟨e, he, hn', -⟩ := K.cell a d hd
    exact hclosed a e n he (hn' ▸ hn)

/-- A buffer is overwritten with its link as it was. -/
theorem put (H : Held h own R) (hc : h.cell a = some c) (hn : c'.next = c.next)
    (E : Exact (h.put a c') own') : Held (h.put a c') own' R := by
  obtain ⟨recv, hclosed, hheads, htails⟩ := H.kinds
  have hcell : ∀ b d, h.cell b = some d → ∃ e, (h.put a c').cell b = some e ∧ e.next = d.next := by
    intro b d hd
    by_cases hb : b = a
    · subst hb
      obtain rfl := Option.some.inj (hc.symm.trans hd)
      exact ⟨c', put_self, hn⟩
    · exact ⟨d, by rw [put_of_ne hb, hd], rfl⟩
  refine ⟨E, fun b hb => ?_, H.nodup, fun b hb => ?_, fun x hx => ?_, recv, fun b d n hd hm => ?_,
    hheads, htails⟩
  · obtain ⟨d, hd, hlast⟩ := H.tails b hb
    obtain ⟨e, he, hnext⟩ := hcell b d hd
    exact ⟨e, he, hnext.trans hlast⟩
  · obtain ⟨d, hd⟩ := H.heads b hb
    obtain ⟨e, he, -⟩ := hcell b d hd
    exact ⟨e, he⟩
  · obtain ⟨d, hd, hoffer⟩ := H.offers x hx
    obtain ⟨e, he, hnext⟩ := hcell x.1 d hd
    exact ⟨e, he, hnext.trans hoffer⟩
  · by_cases hb : b = a
    · subst hb
      rw [put_self, Option.some.injEq] at hd
      exact hclosed b c n hc (by rw [← hn, hd, hm])
    · exact hclosed b d n (by rwa [put_of_ne hb] at hd) hm

/-! ## Buffers -/

theorem alloc_cell (H : Held h own R) (body : Block) (hc : h.cell a = some c) :
    (h.alloc body).1.cell a = some c := by
  rw [(alloc_spec H.exact body).2.2 a (H.exact.bound a c hc).ne, hc]

/-- A new buffer, which is of either kind. -/
theorem alloc (H : Held h own R) (body : Block) (new : Prop) :
    Held (h.alloc body).1 (h.fresh ::ₘ own) R ∧ h.fresh ∉ R.tails ∧
      ∃ recv, Kinds (h.alloc body).1 R recv ∧ (recv h.fresh ↔ new) := by
  obtain ⟨recv, hclosed, hheads, htails⟩ := H.kinds
  obtain ⟨E, hself, hne⟩ := alloc_spec H.exact body
  have hold : ∀ a c, h.cell a = some c → (Function.update recv h.fresh new a ↔ recv a) :=
    fun a c hc => by rw [Function.update_of_ne (H.exact.bound a c hc).ne]
  have hkinds : Kinds (h.alloc body).1 R (Function.update recv h.fresh new) := by
    refine ⟨fun a c n hc hn => ?_, fun a ha => ?_, fun a ha => ?_⟩
    · by_cases ha : a = h.fresh
      · rw [ha, hself, Option.some.injEq] at hc
        rw [← hc] at hn
        cases hn
      · rw [hne a ha] at hc
        obtain ⟨-, d, hd⟩ := H.exact.next_live hc hn
        rw [hold a c hc, hold n d hd]
        exact hclosed a c n hc hn
    · obtain ⟨c, hc⟩ := H.heads a ha
      exact (hold a c hc).mpr (hheads a ha)
    · obtain ⟨c, hc, -⟩ := H.tails a ha
      exact (hold a c hc).not.mpr (htails a ha)
  refine ⟨⟨E, fun a ha => ?_, H.nodup, fun a ha => ?_, fun x hx => ?_, _, hkinds⟩, fun ha => ?_, _,
    hkinds, by rw [Function.update_self]⟩
  · obtain ⟨c, hc, hn⟩ := H.tails a ha
    exact ⟨c, H.alloc_cell body hc, hn⟩
  · obtain ⟨c, hc⟩ := H.heads a ha
    exact ⟨c, H.alloc_cell body hc⟩
  · obtain ⟨c, hc, hn⟩ := H.offers x hx
    exact ⟨c, H.alloc_cell body hc, hn⟩
  · obtain ⟨c, hc, -⟩ := H.tails _ ha
    exact (H.exact.bound _ c hc).ne rfl

/-- A new buffer as the last one of a chain of its own. -/
theorem alloc_tail (H : Held h own R) (body : Block) :
    Held (h.alloc body).1 (h.fresh ::ₘ own) (.tail h.fresh + R) := by
  rw [Roles.tail_add]
  obtain ⟨-, hself, -⟩ := alloc_spec H.exact body
  obtain ⟨H', hnew, recv, ⟨hclosed, hheads, htails⟩, hkind⟩ := H.alloc body False
  refine ⟨H'.exact, fun a ha => ?_, Multiset.nodup_cons.mpr ⟨hnew, H.nodup⟩, H'.heads, H'.offers,
    recv, hclosed, hheads, fun a ha => ?_⟩
  · obtain rfl | ha := Multiset.mem_cons.mp ha
    · exact ⟨_, hself, rfl⟩
    · exact H'.tails a ha
  · obtain rfl | ha := Multiset.mem_cons.mp ha
    · exact hkind.mp
    · exact htails a ha

/-- A new buffer to receive into. -/
theorem alloc_head (H : Held h own R) (body : Block) :
    Held (h.alloc body).1 (h.fresh ::ₘ own) (.head h.fresh + R) := by
  rw [Roles.head_add]
  obtain ⟨-, hself, -⟩ := alloc_spec H.exact body
  obtain ⟨H', -, recv, ⟨hclosed, hheads, htails⟩, hkind⟩ := H.alloc body True
  refine ⟨H'.exact, H'.tails, H'.nodup, fun a ha => ?_, H'.offers, recv, hclosed, fun a ha => ?_,
    htails⟩
  · obtain rfl | ha := Multiset.mem_cons.mp ha
    · exact ⟨_, hself⟩
    · exact H'.heads a ha
  · obtain rfl | ha := Multiset.mem_cons.mp ha
    · exact hkind.mpr trivial
    · exact hheads a ha

theorem bufferCreateAndAcquire_cases (h : Heap) (n : ℕ) :
    (∃ f, f ≠ .freed ∧ bufferCreateAndAcquire h n = .error f) ∨
      ∃ body, bufferCreateAndAcquire h n = .ok (h.alloc body) := by
  unfold bufferCreateAndAcquire
  dsimp only
  split_ifs
  · exact .inl ⟨.outOfBounds, nofun, rfl⟩
  · exact .inr ⟨_, rfl⟩

/-- A reference is stored in the link of a buffer that had none, of the same kind. -/
theorem link (H : Held h (n ::ₘ own) R) (hc : h.cell a = some c) (hnone : c.next = none)
    (hup : a < n) (ha : a ∉ R.tails) (hkind : ∃ recv, Kinds h R recv ∧ (recv n ↔ recv a)) :
    ∃ h', h.setNext a n = .ok h' ∧ Held h' own R ∧ h' = h.put a { c with next := some n } := by
  obtain ⟨h', hset, E, rfl⟩ := setNext_spec H.exact hc hnone hup
  obtain ⟨recv, ⟨hclosed, hheads, htails⟩, hsame⟩ := hkind
  refine ⟨_, hset, ⟨E, fun b hb => ?_, H.nodup, fun b hb => ?_, fun x hx => ?_, recv,
    fun b d m hd hm => ?_, hheads, htails⟩, rfl⟩
  · obtain ⟨d, hd, hn⟩ := H.tails b hb
    have hne : b ≠ a := by
      rintro rfl
      exact ha hb
    exact ⟨d, by rw [put_of_ne hne, hd], hn⟩
  · obtain ⟨d, hd⟩ := H.heads b hb
    by_cases hb : b = a
    · exact ⟨_, by rw [hb, put_self]⟩
    · exact ⟨d, by rw [put_of_ne hb, hd]⟩
  · obtain ⟨d, hd, hn⟩ := H.offers x hx
    have hne : x.1 ≠ a := by
      rintro rfl
      rw [← Option.some.inj (hc.symm.trans hd), hnone] at hn
      cases hn
    exact ⟨d, by rw [put_of_ne hne, hd], hn⟩
  · by_cases hb : b = a
    · subst hb
      rw [put_self, Option.some.injEq] at hd
      rw [← hd, Option.some.injEq] at hm
      exact hm ▸ hsame
    · exact hclosed b d m (by rwa [put_of_ne hb] at hd) hm

/-- A packet links a new buffer behind its last one. -/
theorem link_tail (H : Held h (n ::ₘ own) (.tail a + (.tail n + R))) (hup : a < n) :
    ∃ h', h.setNext a n = .ok h' ∧ Held h' own (.tail n + R) := by
  obtain ⟨recv, K⟩ := H.kinds
  have H' := H.fewer
  have hnodup := H.nodup
  rw [Roles.tail_add] at H hnodup K
  obtain ⟨c, hc, hnone⟩ := H.tails a (Multiset.mem_cons_self a _)
  have hn : n ∈ (Roles.tail n + R).tails := by
    rw [Roles.tail_add]
    exact Multiset.mem_cons_self n _
  obtain ⟨h', hset, H', -⟩ := H'.link hc hnone hup (Multiset.nodup_cons.mp hnodup).1
    ⟨recv, ⟨K.closed, K.heads, fun b hb => K.tails b (Multiset.mem_cons_of_mem hb)⟩,
      iff_of_false (K.tails n (Multiset.mem_cons_of_mem hn)) (K.tails a (Multiset.mem_cons_self a _))⟩
  exact ⟨h', hset, H'⟩

/-- A connection links a new buffer behind the one it receives into. -/
theorem link_head (H : Held h (n ::ₘ own) (.head n + R)) (ha : a ∈ R.heads) (hc : h.cell a = some c)
    (hnone : c.next = none) (hup : a < n) :
    ∃ h', h.setNext a n = .ok h' ∧ Held h' own (.head n + R) ∧
      h' = h.put a { c with next := some n } := by
  obtain ⟨recv, K⟩ := H.kinds
  have hrecv := K.heads a (Multiset.mem_add.mpr (.inr ha))
  have hn := K.heads n (Multiset.mem_add.mpr (.inl (Multiset.mem_singleton_self n)))
  exact H.link hc hnone hup (fun hm => K.tails a hm hrecv) ⟨recv, K, iff_of_true hn hrecv⟩

theorem bufferRelease (H : Held h (refs o + own) R) (W : R.Within own) :
    ∃ h', bufferRelease h o = .ok h' ∧ Held h' own R ∧ Keeps h h' := by
  cases o with
  | none =>
    rw [refs_none, zero_add] at H
    exact ⟨h, rfl, H, .refl h⟩
  | some a =>
    have E := H.exact
    rw [refs_some, Multiset.singleton_add] at E
    obtain ⟨h', hrel, E', K⟩ := release_spec E
    exact ⟨h', hrel, H.keep K E' W, K⟩

theorem bufferAcquire (H : Held h (refs o + own) R)
    (hlive : ∀ a, p = some a → ∃ c, h.cell a = some c) (W : R.Within (refs p + own)) :
    ∃ h', bufferAcquire h o p = .ok h' ∧ Held h' (refs p + own) R ∧ Keeps h h' := by
  unfold Buffer.bufferAcquire
  split_ifs with heq
  · exact ⟨h, rfl, heq ▸ H, .refl h⟩
  · cases p with
    | none =>
      rw [refs_none, zero_add] at W ⊢
      exact H.bufferRelease W
    | some a =>
      obtain ⟨c, hc⟩ := hlive a rfl
      obtain ⟨h₁, hret, E₁, K₁⟩ := retain_spec H.exact hc
      rw [← Multiset.add_cons, ← Multiset.singleton_add, ← refs_some] at E₁
      have H₁ := H.keep K₁ E₁ (W.add (refs o))
      obtain ⟨h', hrel, H', K'⟩ := H₁.bufferRelease W
      refine ⟨h', ?_, H', K₁.trans K'⟩
      simp only [hret, Exec.ok_bind]
      exact hrel

theorem setBody (H : Held h own R) (hc : h.cell a = some c) (body : Block) :
    ∃ h', h.setBody a body = .ok h' ∧ Held h' own R ∧ h' = h.put a { c with body := body } := by
  obtain ⟨h', hset, E, rfl⟩ := setBody_spec H.exact hc body
  exact ⟨_, hset, H.put hc rfl E, rfl⟩

theorem get (hc : h.cell a = some c) : (h.get a).Ensures fun d => d = c := .of_eq (get_eq hc) rfl

theorem get_own (H : Held h own R) (ha : a ∈ own) : (h.get a).Ensures fun c => h.cell a = some c := by
  obtain ⟨c, hc⟩ := H.exact.live ha
  exact .of_eq (get_eq hc) hc

theorem load (b : Block) (pos n : ℕ) : (b.load pos n).Ensures fun _ => True := by
  unfold Block.load
  split_ifs
  · trivial
  · exact Exec.ensures_error nofun

theorem store (b : Block) (pos : ℕ) (bs : List UInt8) : (b.store pos bs).Ensures fun _ => True := by
  unfold Block.store
  split_ifs
  · trivial
  · exact Exec.ensures_error nofun

/-- Memory is written to. -/
theorem storeAt (H : Held h own R) (hc : h.cell a = some c) (bs : List UInt8) :
    (storeAt h (a, pos) bs).Ensures fun h' => Held h' own R ∧
      ∃ body, h' = h.put a { c with body := body } := by
  refine (get hc).bind fun d hd => ?_
  subst hd
  refine (store _ _ _).bind fun body _ => ?_
  obtain ⟨h', hset, H', hput⟩ := H.setBody hc body
  exact .of_eq hset ⟨H', body, hput⟩

theorem setSize (H : Held h own R) (hc : h.cell a = some c) (n : ℕ) :
    (setSize h a n).Ensures fun h' => Held h' own R := by
  refine (get hc).bind fun d hd => ?_
  subst hd
  obtain ⟨h', hset, H', -⟩ := H.setBody hc _
  exact .of_eq hset H'

theorem loadWord (hc : h.cell a = some c) : (loadWord h (a, pos)).Ensures fun _ => True := by
  refine (get hc).bind fun d _ => ?_
  exact (load _ _ _).bind fun _ _ => trivial

/-! ## Packets for reading -/

variable {r : RPacket} {w : WPacket} {conn : Connection} {size : ℕ}

theorem next_live (H : Held h own R) (hc : h.cell a = some c) :
    ∀ n, c.next = some n → ∃ d, h.cell n = some d :=
  fun _ hn => (H.exact.next_live hc hn).2

/-- The cursor goes on to the next buffer. -/
theorem nextBuffer (H : Held h (refs r.readbuf + own) R) (W : R.Within own)
    (hc : h.cell a = some c) :
    (nextBuffer h r c).Ensures fun x => Held x.1 (refs x.2.readbuf + own) R ∧
      x.2.buf = r.buf ∧ x.2.binbuf = r.binbuf := by
  unfold RPacket.nextBuffer
  split_ifs
  · obtain ⟨h', hacq, H', -⟩ := H.bufferAcquire (H.next_live hc) (W.add _)
    rw [hacq]
    exact ⟨H', rfl, rfl⟩
  · exact ⟨H, rfl, rfl⟩

theorem copyRound (H : Held h (refs r.readbuf + own) R) (W : R.Within own) (size : ℕ) :
    (copyRound h r size).Ensures fun x => Held x.1 (refs x.2.1.readbuf + own) R ∧
      x.2.1.buf = r.buf ∧ x.2.1.binbuf = r.binbuf := by
  refine (Exec.ensures_deref (Q := fun a => r.readbuf = some a) fun a ha => ha).bind fun a ha => ?_
  refine (H.get_own (show a ∈ refs r.readbuf + own by simp [ha])).bind fun c hc => ?_
  refine (load _ _ _).bind fun bytes _ => ?_
  refine Exec.EnsuresUnless.bind (nextBuffer (r := { r with rpos := _, dataRemain := _ }) H W hc) ?_
  rintro ⟨h', r'⟩ H'
  exact H'

theorem rpacketReadLoop {fuel : ℕ} (H : Held h (refs r.readbuf + own) R) (W : R.Within own) :
    (rpacketReadLoop fuel h r size).Ensures fun x => Held x.1 (refs x.2.1.readbuf + own) R ∧
      x.2.1.buf = r.buf ∧ x.2.1.binbuf = r.binbuf := by
  induction fuel generalizing h r size with
  | zero => exact Exec.ensures_error nofun
  | succ fuel ih =>
    unfold RPacket.rpacketReadLoop
    split_ifs
    · exact ⟨H, rfl, rfl⟩
    · refine (copyRound H W size).bind ?_
      rintro ⟨h₁, r₁, bytes⟩ ⟨H₁, hbuf₁, hbin₁⟩
      refine (ih H₁).bind ?_
      rintro ⟨h₂, r₂, out⟩ ⟨H₂, hbuf₂, hbin₂⟩
      exact ⟨H₂, hbuf₂.trans hbuf₁, hbin₂.trans hbin₁⟩

theorem rpacketRead (H : Held h (r.owned + own) R) (W : R.Within own) (size : ℕ) :
    (rpacketRead h r size).Ensures fun x => Held x.1 (x.2.1.owned + own) R := by
  unfold RPacket.rpacketRead
  split_ifs
  · exact H
  · rw [owned_readbuf] at H
    refine (rpacketReadLoop H (W.add _)).mono ?_
    rintro ⟨h', r', out⟩ ⟨H', hbuf, hbin⟩
    rwa [owned_readbuf, hbuf, hbin]

theorem rpacketReadUint (H : Held h (r.owned + own) R) (W : R.Within own) (n : ℕ) :
    (rpacketReadUint n h r).Ensures fun x => Held x.1 (x.2.1.owned + own) R :=
  (rpacketRead H W n).bind fun _ H' => H'

theorem acquireBinbuf (H : Held h (r.owned + own) R) :
    (acquireBinbuf h r).Ensures fun x => Held x.1 (x.2.1.owned + own) R ∧
      x.2.1.binbuf = some x.2.2 := by
  unfold RPacket.acquireBinbuf
  split
  · rename_i b hb
    exact ⟨H, hb⟩
  · rename_i hb
    obtain ⟨f, hf, hcreate⟩ | ⟨body, hcreate⟩ := bufferCreateAndAcquire_cases h r.len
    · rw [hcreate]
      exact Exec.ensures_error hf
    · rw [hcreate]
      have howned : ({ r with binbuf := some h.fresh, binbufpos := 0 } : RPacket).owned + own =
          h.fresh ::ₘ (r.owned + own) := by
        simp only [RPacket.owned, hb, refs_none, refs_some, ← Multiset.singleton_add]
        abel
      refine ⟨?_, rfl⟩
      change Held (h.alloc body).1 (({ r with binbuf := some h.fresh, binbufpos := 0 } :
        RPacket).owned + own) R
      rw [howned]
      exact (H.alloc body True).1

theorem binaryLoop {fuel : ℕ} (H : Held h (r.owned + own) R) (W : R.Within own)
    (hb : r.binbuf = some b) :
    (binaryLoop b fuel h r size).Ensures fun x => Held x.1 (x.2.owned + own) R := by
  induction fuel generalizing h r size with
  | zero => exact Exec.ensures_error nofun
  | succ fuel ih =>
    unfold RPacket.binaryLoop
    split_ifs
    · exact H
    · rw [owned_readbuf] at H
      refine (copyRound H (W.add _) size).bind ?_
      rintro ⟨h₁, r₁, bytes⟩ ⟨H₁, hbuf₁, hbin₁⟩
      refine (H₁.get_own (by simp [hb])).bind fun c hc => ?_
      refine (store _ _ _).bind fun body _ => ?_
      obtain ⟨h₂, hset, H₂, -⟩ := H₁.setBody hc body
      rw [hset]
      refine ih ?_ (hbin₁.trans hb)
      rw [owned_readbuf]
      change Held h₂ (refs r₁.readbuf + (refs r₁.buf + refs r₁.binbuf + own)) R
      rwa [hbuf₁, hbin₁]

theorem copyBinary (H : Held h (r.owned + own) R) (W : R.Within own) (size : ℕ) :
    (copyBinary h r size).Ensures fun x => Held x.1 (x.2.1.owned + own) R := by
  refine (acquireBinbuf H).bind ?_
  rintro ⟨h₁, r₁, b⟩ ⟨H₁, hb⟩
  exact (binaryLoop H₁ W hb).bind fun _ H₂ => H₂

theorem rpacketRawReadBinary (H : Held h (r.owned + own) R) (W : R.Within own) (len : ℕ) :
    (rpacketRawReadBinary h r len).Ensures fun x => Held x.1 (x.2.1.owned + own) R := by
  unfold RPacket.rpacketRawReadBinary
  split_ifs
  · exact H
  · refine (Exec.ensures_deref (Q := fun a => r.readbuf = some a) fun a ha => ha).bind fun a ha => ?_
    refine (H.get_own (by simp [RPacket.owned, ha])).bind fun c hc => ?_
    split_ifs
    · exact H
    · exact (copyBinary H W _).bind fun _ H' => H'

theorem rpacketReadBinary (H : Held h (r.owned + own) R) (W : R.Within own) (len : ℕ) :
    (rpacketReadBinary h r len).Ensures fun x => Held x.1 (x.2.1.owned + own) R := by
  unfold RPacket.rpacketReadBinary
  split_ifs
  · exact rpacketRawReadBinary H W len
  · refine (rpacketReadUint H W 4).bind ?_
    rintro ⟨h₁, r₁, size⟩ H₁
    dsimp only
    split_ifs
    · exact H₁
    · refine (Exec.ensures_deref (Q := fun a => r₁.readbuf = some a) fun a ha => ha).bind
        fun a ha => ?_
      refine (H₁.get_own (by simp [RPacket.owned, ha])).bind fun c hc => ?_
      split_ifs
      · rw [owned_readbuf] at H₁
        refine Exec.EnsuresUnless.bind
          (nextBuffer (r := { r₁ with rpos := _, dataRemain := _ }) H₁ (W.add _) hc) ?_
        rintro ⟨h₂, r₂⟩ ⟨H₂, hbuf, hbin⟩
        change Held h₂ (r₂.owned + own) R
        rw [owned_readbuf, hbuf, hbin]
        exact H₂
      · exact (copyBinary H₁ W size).bind fun _ H' => H'

theorem rpacketReadString (H : Held h (r.owned + own) R) (W : R.Within own) :
    (rpacketReadString h r).Ensures fun x => Held x.1 (x.2.1.owned + own) R :=
  (rpacketReadBinary H W 0).bind fun _ H' => H'

/-- **Every call that reads** from a packet. -/
theorem read (H : Held h (r.owned + own) R) (W : R.Within own) (op : Read) :
    (RPacket.read h r op).Ensures fun x => Held x.1 (x.2.1.owned + own) R := by
  cases op with
  | uint8 => exact (rpacketReadUint H W 1).bind fun _ H' => H'
  | uint16 => exact (rpacketReadUint H W 2).bind fun _ H' => H'
  | uint32 => exact (rpacketReadUint H W 4).bind fun _ H' => H'
  | uint64 => exact (rpacketReadUint H W 8).bind fun _ H' => H'
  | string => exact (rpacketReadString H W).bind fun _ H' => H'
  | binary => exact (rpacketReadBinary H W 0).bind fun _ H' => H'

/-- Two references to a buffer are taken. -/
theorem acquireTwice (H : Held h own R) (W : R.Within own)
    (hlive : ∀ a, o = some a → ∃ c, h.cell a = some c) :
    ∃ h₁ h₂, Buffer.bufferAcquire h none o = .ok h₁ ∧ Buffer.bufferAcquire h₁ none o = .ok h₂ ∧
      Held h₂ (refs o + (refs o + own)) R ∧ Keeps h h₂ := by
  have H₀ : Held h (refs none + own) R := by simpa using H
  obtain ⟨h₁, hacq₁, H₁, K₁⟩ := H₀.bufferAcquire hlive (W.add _)
  have H₁' : Held h₁ (refs none + (refs o + own)) R := by simpa using H₁
  obtain ⟨h₂, hacq₂, H₂, K₂⟩ := H₁'.bufferAcquire (p := o)
    (fun a ha => H₁.exact.live (by simp [ha])) ((W.add _).add _)
  exact ⟨h₁, h₂, hacq₁, hacq₂, H₂, K₁.trans K₂⟩

theorem rpacketCreate (H : Held h own R) (W : R.Within own)
    (hlive : ∀ a, o = some a → ∃ c, h.cell a = some c) (pos len : ℕ) (isRaw : Bool) :
    (rpacketCreate h o pos len isRaw).Ensures fun x => Held x.1 (x.2.owned + own) R ∧ Keeps h x.1 := by
  obtain ⟨h₁, h₂, hacq₁, hacq₂, H₂, K⟩ := acquireTwice H W hlive
  rw [RPacket.rpacketCreate, hacq₁, Exec.ok_bind, hacq₂]
  refine ⟨?_, K⟩
  change Held h₂ (refs o + refs o + refs none + own) R
  rwa [refs_none, add_zero, add_assoc]

theorem rpacketDestroy (H : Held h (r.owned + own) R) (W : R.Within own) :
    (rpacketDestroy h r).Ensures fun h' => Held h' own R := by
  rw [RPacket.owned, add_assoc, add_assoc] at H
  obtain ⟨h₁, hrel₁, H₁, -⟩ := H.bufferRelease ((W.add _).add _)
  obtain ⟨h₂, hrel₂, H₂, -⟩ := H₁.bufferRelease (W.add _)
  obtain ⟨h₃, hrel₃, H₃, -⟩ := H₂.bufferRelease W
  rw [RPacket.rpacketDestroy, hrel₁, Exec.ok_bind, hrel₂, Exec.ok_bind, hrel₃]
  exact H₃

/-! ## Packets for writing -/

theorem wpacketCreate (H : Held h own R) (W : R.Within own) (size : ℕ) (isRaw : Bool) :
    (wpacketCreate h size isRaw).Ensures fun x => Held x.1 (x.2.owned + own) (x.2.roles + R) := by
  unfold WPacket.wpacketCreate
  dsimp only
  obtain ⟨f, hf, hcreate⟩ | ⟨body, hcreate⟩ := bufferCreateAndAcquire_cases h (getSizeOfPow2 size)
  · rw [hcreate]
    exact Exec.ensures_error hf
  · have H₀ : Held (h.alloc body).1 (refs none + h.fresh ::ₘ own) (.tail h.fresh + R) := by
      simpa using H.alloc_tail body
    have W₀ : (.tail h.fresh + R).Within (refs (some h.fresh) + h.fresh ::ₘ own) := by
      rw [← Multiset.singleton_add]
      exact (Roles.within_tail (by simp)).plus ((W.add _).add _)
    obtain ⟨h₁, hacq, H₁, -⟩ := H₀.bufferAcquire (p := some h.fresh)
      (fun a ha => H₀.exact.live (by simp [Option.some.inj ha])) W₀
    have hpacket : ∀ (h' : Heap) (w : WPacket), w.buf = some h.fresh → w.writebuf = some h.fresh →
        Held h' (refs (some h.fresh) + h.fresh ::ₘ own) (.tail h.fresh + R) →
        Held h' (w.owned + own) (w.roles + R) := by
      intro h' w hbuf hwrite H'
      rw [WPacket.roles_some hwrite, WPacket.owned, hbuf, hwrite, add_assoc]
      simpa using H'
    have hfresh : (h.alloc body).2 = h.fresh := rfl
    obtain ⟨c, hc⟩ := H₁.exact.live (show h.fresh ∈ _ by simp)
    rw [hcreate, Exec.ok_bind, hfresh, hacq, Exec.ok_bind]
    split_ifs
    · exact (H₁.setSize hc 0).bind fun h₂ H₂ => hpacket h₂ _ rfl rfl H₂
    · refine (H₁.storeAt hc _).bind fun h₂ H₂ => ?_
      obtain ⟨c₂, hc₂⟩ := H₂.1.exact.live (show h.fresh ∈ _ by simp)
      exact (H₂.1.setSize hc₂ _).bind fun h₃ H₃ => hpacket h₃ _ rfl rfl H₃

theorem wpacketCreateByRpacket (H : Held h own R) (W : R.Within own) (hr : r.owned ≤ own) :
    (wpacketCreateByRpacket h r).Ensures fun x => Held x.1 (x.2.owned + own) (x.2.roles + R) := by
  have hbuf : ∀ a, r.buf = some a → ∃ c, h.cell a = some c := fun a ha =>
    H.exact.live (Multiset.mem_of_le hr (by simp [RPacket.owned, ha]))
  have H₀ : Held h (refs none + own) R := by simpa using H
  obtain ⟨h₁, hacq, H₁, -⟩ := H₀.bufferAcquire hbuf (W.add _)
  rw [WPacket.wpacketCreateByRpacket, hacq]
  change Held h₁ (refs r.buf + refs none + own) (WPacket.roles _ + R)
  rwa [refs_none, add_zero, WPacket.roles_none rfl, zero_add]

theorem rpacketCreateByWpacket (H : Held h own R) (W : R.Within own) (hw : w.owned ≤ own) :
    (rpacketCreateByWpacket h w).Ensures fun x => Held x.1 (x.2.owned + own) R := by
  have hbuf : ∀ a, w.buf = some a → ∃ c, h.cell a = some c := fun a ha =>
    H.exact.live (Multiset.mem_of_le hw (by simp [WPacket.owned, ha]))
  obtain ⟨h₁, h₂, hacq₁, hacq₂, H₂, -⟩ := acquireTwice H W hbuf
  rw [WPacket.rpacketCreateByWpacket, hacq₁, Exec.ok_bind, hacq₂, Exec.ok_bind]
  split_ifs
  · change Held h₂ (refs w.buf + refs w.buf + refs none + own) R
    rwa [refs_none, add_zero, add_assoc]
  · refine (Exec.ensures_deref (Q := fun a => w.buf = some a) fun a ha => ha).bind fun a ha => ?_
    refine (H₂.get_own (by simp [ha])).bind fun c hc => ?_
    split_ifs
    · change Held h₂ (refs w.buf + refs w.buf + refs none + own) R
      rwa [refs_none, add_zero, add_assoc]
    · obtain ⟨h₃, hacq₃, H₃, -⟩ := H₂.bufferAcquire (H₂.next_live hc) ((W.add _).add _)
      rw [hacq₃]
      change Held h₃ (refs w.buf + refs c.next + refs none + own) R
      rwa [refs_none, add_zero, add_comm (refs w.buf), add_assoc]

theorem wpacketDestroy (H : Held h (w.owned + own) R) (W : R.Within own) :
    (wpacketDestroy h w).Ensures fun h' => Held h' own R := by
  rw [WPacket.owned, add_assoc] at H
  obtain ⟨h₁, hrel₁, H₁, -⟩ := H.bufferRelease (W.add _)
  obtain ⟨h₂, hrel₂, H₂, -⟩ := H₁.bufferRelease W
  rw [WPacket.wpacketDestroy, hrel₁, Exec.ok_bind, hrel₂]
  exact H₂

/-- `wpacket_expand` links a new buffer behind the last one, and the packet goes on to it. -/
theorem wpacketExpand (H : Held h (w.owned + own) (w.roles + R)) (W : R.Within own)
    (ha : w.writebuf = some a) :
    (wpacketExpand h w).Ensures fun x => Held x.1 (x.2.owned + own) (x.2.roles + R) ∧
      x.2.len = w.len ∧ x.2.buf = w.buf ∧ ∃ b, x.2.writebuf = some b := by
  rw [WPacket.roles_some ha] at H
  unfold WPacket.wpacketExpand
  dsimp only
  rw [ha, Exec.deref_some, Exec.ok_bind]
  obtain ⟨f, hf, hcreate⟩ | ⟨body, hcreate⟩ := bufferCreateAndAcquire_cases h (w.factor * 2 % 0x100)
  · rw [hcreate]
    exact Exec.ensures_error hf
  · obtain ⟨c, hc, -⟩ := H.tails a (by simp [Roles.tail])
    have H₀ := H.alloc_tail body
    rw [add_left_comm] at H₀
    obtain ⟨h₁, hset, H₁⟩ := H₀.link_tail (H.exact.bound a c hc)
    have howned : w.owned + own = refs (some a) + (refs w.buf + own) := by
      rw [WPacket.owned, ha]
      abel
    rw [howned] at H₁
    obtain ⟨d, hd, -⟩ := H₁.tails h.fresh (by simp [Roles.tail])
    obtain ⟨h₂, hacq, H₂, -⟩ := H₁.bufferAcquire (p := some h.fresh)
      (fun b hb => Option.some.inj hb ▸ ⟨d, hd⟩)
      ((Roles.within_tail (by simp)).plus ((W.add _).add _))
    have hfresh : (h.alloc body).2 = h.fresh := rfl
    rw [hcreate, Exec.ok_bind, hfresh, hset, Exec.ok_bind, hacq]
    refine ⟨?_, rfl, rfl, h.fresh, rfl⟩
    change Held h₂ (refs w.buf + refs (some h.fresh) + own) (WPacket.roles _ + R)
    rw [WPacket.roles_some rfl, add_comm (refs w.buf), add_assoc]
    exact H₂

/-- The packet holds the buffer that its length is in. -/
def LenHeld (w : WPacket) : Prop := ∀ p, w.len = some p → w.buf = some p.1

/-- The length is added to. The packet need not hold the buffer it is in: this is the only access to
a buffer that may have been destroyed. -/
theorem addLen (H : Held h (w.owned + own) R) (n : ℕ) :
    (match w.len with
      | some p => do WPacket.storeAt h p (toBytes lenSize (add32 (← WPacket.loadWord h p) n))
      | none => .ok h : Exec Heap).EnsuresUnless (¬ LenHeld w) fun h' => Held h' (w.owned + own) R := by
  cases hp : w.len with
  | none => exact H
  | some p =>
    obtain ⟨q, pos⟩ := p
    dsimp only
    cases hc : h.cell q with
    | none =>
      have hlost : ¬ LenHeld w := by
        intro hlen
        obtain ⟨c, hc'⟩ := H.exact.live (show q ∈ _ by simp [WPacket.owned, hlen _ hp])
        rw [hc] at hc'
        cases hc'
      rw [WPacket.loadWord, RefHeap.get, hc]
      exact fun _ => hlost
    | some c =>
      refine (loadWord hc).unless.bind fun word _ => ?_
      exact ((H.storeAt hc _).mono fun h' H' => H'.1).unless

theorem writeRound (H : Held h (w.owned + own) (w.roles + R)) (W : R.Within own)
    (ha : w.writebuf = some a) :
    (writeRound h w bs).EnsuresUnless (¬ LenHeld w) fun x =>
      Held x.1 (x.2.1.owned + own) (x.2.1.roles + R) ∧ x.2.1.len = w.len ∧ x.2.1.buf = w.buf ∧
        ∃ b, x.2.1.writebuf = some b := by
  unfold WPacket.writeRound
  rw [ha, Exec.deref_some, Exec.ok_bind]
  refine (H.get_own (by simp [WPacket.owned, ha])).unless.bind fun c hc => ?_
  have hexpand : (if sub32 c.body.capacity w.wpos = 0 then WPacket.wpacketExpand h w
      else .ok (h, w) : Exec (Heap × WPacket)).Ensures fun x =>
        Held x.1 (x.2.owned + own) (x.2.roles + R) ∧ x.2.len = w.len ∧ x.2.buf = w.buf ∧
          ∃ b, x.2.writebuf = some b := by
    split_ifs
    · exact wpacketExpand H W ha
    · exact ⟨H, rfl, rfl, a, ha⟩
  refine hexpand.unless.bind ?_
  rintro ⟨h₁, w₁⟩ ⟨H₁, hlen₁, hbuf₁, b, hb⟩
  dsimp only at hlen₁ hbuf₁ hb ⊢
  have hmem : b ∈ w₁.owned + own := by simp [WPacket.owned, hb]
  have hderef : Exec.deref w₁.writebuf = .ok b := by rw [hb, Exec.deref_some]
  rw [hderef, Exec.ok_bind]
  refine (H₁.get_own hmem).unless.bind fun c₁ hc₁ => ?_
  refine (H₁.storeAt hc₁ _).unless.bind fun h₂ H₂ => ?_
  refine (H₂.1.get_own hmem).unless.bind fun c₂ hc₂ => ?_
  refine (H₂.1.setSize hc₂ _).unless.bind fun h₃ H₃ => ?_
  have hsame : LenHeld w₁ ↔ LenHeld w := by rw [LenHeld, LenHeld, hlen₁, hbuf₁]
  rw [← hsame]
  refine (addLen H₃ _).bind fun h₄ H₄ => ?_
  exact ⟨H₄, hlen₁, hbuf₁, b, hb⟩

/-- What writing to a packet leaves as it was. -/
structure Written (w w' : WPacket) : Prop where
  len : w'.len = w.len
  buf : w'.buf = w.buf
  writebuf : ∃ b, w'.writebuf = some b

theorem Written.lenHeld {w' : WPacket} (h : Written w w') : LenHeld w' ↔ LenHeld w := by
  rw [LenHeld, LenHeld, h.len, h.buf]

theorem Written.trans {w₁ w₂ w₃ : WPacket} (h₁₂ : Written w₁ w₂) (h₂₃ : Written w₂ w₃) :
    Written w₁ w₃ :=
  ⟨h₂₃.len.trans h₁₂.len, h₂₃.buf.trans h₁₂.buf, h₂₃.writebuf⟩

theorem wpacketWriteLoop {fuel : ℕ} (H : Held h (w.owned + own) (w.roles + R)) (W : R.Within own)
    (ha : w.writebuf = some a) :
    (wpacketWriteLoop fuel h w bs).EnsuresUnless (¬ LenHeld w) fun x =>
      Held x.1 (x.2.owned + own) (x.2.roles + R) ∧ Written w x.2 := by
  induction fuel generalizing h w bs a with
  | zero => exact Exec.ensures_error nofun
  | succ fuel ih =>
    unfold WPacket.wpacketWriteLoop
    split_ifs
    · exact ⟨H, rfl, rfl, a, ha⟩
    · refine (writeRound H W ha).bind ?_
      rintro ⟨h₁, w₁, size⟩ ⟨H₁, hlen, hbuf, b, hb⟩
      have hw : Written w w₁ := ⟨hlen, hbuf, b, hb⟩
      rw [← hw.lenHeld]
      exact (ih H₁ hb).mono fun x ⟨H₂, hw₂⟩ => ⟨H₂, hw.trans hw₂⟩

/-- `wpacket_write` for a packet that has a buffer of its own. -/
theorem wpacketWrite (H : Held h (w.owned + own) (w.roles + R)) (W : R.Within own)
    (ha : w.writebuf = some a) (bs : List UInt8) :
    (wpacketWrite h w bs).EnsuresUnless (¬ LenHeld w) fun x =>
      Held x.1 (x.2.owned + own) (x.2.roles + R) ∧ Written w x.2 := by
  rw [WPacket.wpacketWrite, ha]
  exact wpacketWriteLoop H W ha

theorem wpacketWriteBinary (H : Held h (w.owned + own) (w.roles + R)) (W : R.Within own)
    (ha : w.writebuf = some a) (value : List UInt8) (size : ℕ) :
    (wpacketWriteBinary h w value size).EnsuresUnless (¬ LenHeld w) fun x =>
      Held x.1 (x.2.owned + own) (x.2.roles + R) ∧ Written w x.2 := by
  have hprefix : (if w.raw then .ok (h, w) else wpacketWriteUint32 h w size :
      Exec (Heap × WPacket)).EnsuresUnless (¬ LenHeld w) fun x =>
        Held x.1 (x.2.owned + own) (x.2.roles + R) ∧ Written w x.2 := by
    split_ifs
    · exact ⟨H, rfl, rfl, a, ha⟩
    · exact wpacketWrite H W ha _
  refine hprefix.bind ?_
  rintro ⟨h₁, w₁⟩ ⟨H₁, hw⟩
  obtain ⟨b, hb⟩ := hw.writebuf
  rw [← hw.lenHeld]
  exact (wpacketWrite H₁ W hb _).mono fun x ⟨H₂, hw₂⟩ => ⟨H₂, hw.trans hw₂⟩

/-- **Every call that writes** to a packet with a buffer of its own. -/
theorem write (H : Held h (w.owned + own) (w.roles + R)) (W : R.Within own)
    (ha : w.writebuf = some a) (op : Write) :
    (WPacket.write h w op).EnsuresUnless (¬ LenHeld w) fun x =>
      Held x.1 (x.2.owned + own) (x.2.roles + R) ∧ Written w x.2 := by
  cases op with
  | uint8 value => exact wpacketWrite H W ha _
  | uint16 value => exact wpacketWrite H W ha _
  | uint32 value => exact wpacketWrite H W ha _
  | uint64 value => exact wpacketWrite H W ha _
  | string value =>
    change (if w.raw then _ else _ : Exec _).EnsuresUnless _ _
    split_ifs
    · exact wpacketWriteBinary H W ha _ _
    · exact wpacketWriteBinary H W ha _ _
  | binary value => exact wpacketWriteBinary H W ha _ _

/-! ## Receiving -/

/-- The next buffer of a chain that is received into. -/
theorem nextOrNew (H : Held h own R) (ha : a ∈ R.heads) :
    (nextOrNew h a).Ensures fun x => Held x.1 own (.head x.2 + R) ∧
      ∃ c, x.1.cell a = some c ∧ c.next = some x.2 := by
  obtain ⟨c, hc⟩ := H.heads a ha
  refine (get hc).bind fun d hd => ?_
  subst hd
  cases hn : d.next with
  | some n => exact ⟨H.next_head ha hc hn, d, hc, hn⟩
  | none =>
    obtain ⟨f, hf, hcreate⟩ | ⟨body, hcreate⟩ := bufferCreateAndAcquire_cases h bufferSize
    · simp only [hcreate]
      exact Exec.ensures_error hf
    · obtain ⟨h', hset, H', hput⟩ := (H.alloc_head body).link_head ha (H.alloc_cell body hc) hn
        (H.exact.bound a d hc)
      have hfresh : (h.alloc body).2 = h.fresh := rfl
      simp only [hcreate, Exec.ok_bind, hfresh, hset]
      exact ⟨H', { d with next := some h.fresh }, by rw [hput, put_self], rfl⟩

/-- What counting received bytes leaves of a connection. -/
def Filled (conn conn' : Connection) : Prop :=
  (∃ b, conn'.nextRecvBuf = some b) ∧
    conn' = { conn with nextRecvBuf := conn'.nextRecvBuf, nextRecvPos := conn'.nextRecvPos }

/-- The role of `next_recv_buf`. -/
def headRole (o : Option ℕ) : Roles := ⟨0, refs o, 0⟩

theorem fillRound (H : Held h (refs conn.nextRecvBuf + own) (headRole conn.nextRecvBuf + R))
    (W : R.Within own) (ha : conn.nextRecvBuf = some a) (bytes : ℕ) :
    (fillRound h conn bytes).Ensures fun x =>
      Held x.1 (refs x.2.1.nextRecvBuf + own) (headRole x.2.1.nextRecvBuf + R) ∧
        Filled conn x.2.1 := by
  unfold Connection.fillRound
  have hderef : Exec.deref conn.nextRecvBuf = .ok a := by rw [ha, Exec.deref_some]
  rw [hderef, Exec.ok_bind]
  refine (H.get_own (by simp [ha])).bind fun c hc => ?_
  refine (H.setSize hc _).bind fun h₁ H₁ => ?_
  dsimp only
  split_ifs
  · have hmem : a ∈ (headRole conn.nextRecvBuf + R).heads := by simp [headRole, ha]
    refine (nextOrNew H₁ hmem).bind ?_
    rintro ⟨h₂, n⟩ ⟨H₂, d, hd, hn⟩
    dsimp only at H₂ hd hn ⊢
    rw [add_left_comm, ha] at H₂
    have H₂' : Held h₂ (refs (some a) + own) (.head n + R) := H₂.fewer
    have hn_live := H₂'.heads n (by simp [Roles.head])
    obtain ⟨h₃, hacq, H₃, -⟩ := H₂'.bufferAcquire (p := some n)
      (fun b hb => Option.some.inj hb ▸ hn_live)
      ((Roles.within_head (by simp)).plus (W.add _))
    rw [hacq]
    exact ⟨H₃, ⟨n, rfl⟩, rfl⟩
  · exact ⟨H₁, ⟨a, ha⟩, rfl⟩

theorem updateNextRecvPosLoop {fuel bytes : ℕ}
    (H : Held h (refs conn.nextRecvBuf + own) (headRole conn.nextRecvBuf + R)) (W : R.Within own)
    (ha : conn.nextRecvBuf = some a) :
    (updateNextRecvPosLoop fuel h conn bytes).Ensures fun x =>
      Held x.1 (refs x.2.nextRecvBuf + own) (headRole x.2.nextRecvBuf + R) ∧ Filled conn x.2 := by
  induction fuel generalizing h conn bytes a with
  | zero => exact Exec.ensures_error nofun
  | succ fuel ih =>
    unfold Connection.updateNextRecvPosLoop
    split_ifs
    · exact ⟨H, ⟨a, ha⟩, rfl⟩
    · refine (fillRound H W ha bytes).bind ?_
      rintro ⟨h₁, conn₁, size⟩ ⟨H₁, ⟨b, hb⟩, hconn₁⟩
      refine (ih H₁ hb).mono ?_
      rintro ⟨h₂, conn₂⟩ ⟨H₂, hsome, hconn₂⟩
      refine ⟨H₂, hsome, ?_⟩
      dsimp only at hconn₁ hconn₂ ⊢
      rw [hconn₂, hconn₁]

/-- A read puts bytes into memory that is offered to it. -/
theorem scatter {vs : List Iovec} (H : Held h own R)
    (hvs : ∀ v ∈ vs, v.base.1 ∈ R.heads ∨ ∃ a, (a, v.base.1) ∈ R.offers) :
    (scatter h vs bs).Ensures fun h' => Held h' own R := by
  induction vs generalizing h bs with
  | nil =>
    cases bs with
    | nil => exact H
    | cons b bs => exact Exec.ensures_error nofun
  | cons v vs ih =>
    cases bs with
    | nil => exact H
    | cons b bs =>
      obtain ⟨c, hc⟩ : ∃ c, h.cell v.base.1 = some c := by
        obtain hv | ⟨a, hv⟩ := hvs v List.mem_cons_self
        · exact H.heads _ hv
        · obtain ⟨d, hd, hn⟩ := H.offers _ hv
          exact (H.exact.next_live hd hn).2
      refine (H.storeAt hc _).bind fun h₁ H₁ => ?_
      exact ih H₁.1 fun v' hv' => hvs v' (List.mem_cons_of_mem v hv')

theorem offerLoop_zero (H : Held h own R) :
    (offerLoop 0 h a pos size).Ensures fun x => Held x.1 own R ∧ x.2 = [] := by
  unfold Connection.offerLoop
  split_ifs
  · exact ⟨H, rfl⟩
  · exact Exec.ensures_error nofun

/-- With room for one piece only, nothing is offered behind the buffer. -/
theorem offerLoop_one (H : Held h own R) (ha : a ∈ R.heads) :
    (offerLoop 1 h a pos size).Ensures fun x => Held x.1 own R ∧ ∀ v ∈ x.2, v.base.1 = a := by
  unfold Connection.offerLoop
  split_ifs
  · exact ⟨H, by simp⟩
  · obtain ⟨c, hc⟩ := H.heads a ha
    refine (get hc).bind fun d _ => ?_
    have hlast : ∀ (h' : Heap) (a' pos' : ℕ), Held h' own R →
        (do let q ← Connection.offerLoop 0 h' a' pos' (size - min (sub32 d.body.capacity pos) size)
            return (q.1, ⟨(a, pos), min (sub32 d.body.capacity pos) size⟩ :: q.2) :
          Exec (Heap × List Iovec)).Ensures fun x => Held x.1 own R ∧ ∀ v ∈ x.2, v.base.1 = a := by
      intro h' a' pos' H'
      refine (offerLoop_zero H').bind ?_
      rintro ⟨h₂, vs⟩ ⟨H₂, rfl⟩
      exact ⟨H₂, by simp⟩
    dsimp only
    split_ifs
    · simp only [bind_assoc]
      refine (nextOrNew H ha).bind ?_
      rintro ⟨h₁, n⟩ ⟨H₁, -⟩
      exact hlast h₁ n 0 H₁.fewer
    · exact hlast h a _ H

/-- **The buffers offered** are the one received into and, if it has not room enough, the one behind
it. -/
theorem offerLoop_two (H : Held h own R) (ha : a ∈ R.heads) :
    (offerLoop 2 h a pos size).Ensures fun x => ∃ R', Held x.1 own (R' + R) ∧
      (R' = 0 ∨ ∃ n, R' = .offer (a, n)) ∧
      ∀ v ∈ x.2, v.base.1 = a ∨ (a, v.base.1) ∈ R'.offers := by
  unfold Connection.offerLoop
  split_ifs
  · exact ⟨0, by rwa [zero_add], .inl rfl, nofun⟩
  · obtain ⟨c, hc⟩ := H.heads a ha
    refine (get hc).bind fun d _ => ?_
    dsimp only
    split_ifs
    · simp only [bind_assoc]
      refine (nextOrNew H ha).bind ?_
      rintro ⟨h₁, n⟩ ⟨H₁, e, he, hn⟩
      dsimp only [Exec.pure_eq, Exec.ok_bind] at he hn ⊢
      have H₂ := H₁.add_offer he hn
      refine (offerLoop_one H₂ (by simp [Roles.head])).bind ?_
      rintro ⟨h₂, vs⟩ ⟨H₃, hvs⟩
      rw [add_left_comm] at H₃
      refine ⟨.offer (a, n), H₃.fewer, .inr ⟨n, rfl⟩, fun v hv => ?_⟩
      obtain rfl | hv := List.mem_cons.mp hv
      · exact .inl rfl
      · exact .inr (by simp [Roles.offer, hvs v hv])
    · refine (offerLoop_one H ha).bind ?_
      rintro ⟨h₂, vs⟩ ⟨H₂, hvs⟩
      refine ⟨0, by rwa [zero_add], .inl rfl, fun v hv => .inl ?_⟩
      obtain rfl | hv := List.mem_cons.mp hv
      · rfl
      · exact hvs v hv

/-- The unpacking cursor goes on to the next buffer. -/
theorem nextUnpackBuf (conn : Connection) (H : Held h (refs conn.unpackBuf + own) R)
    (W : R.Within own) (hlive : ∀ n, c.next = some n → ∃ d, h.cell n = some d)
    (ha : conn.unpackBuf = some a) :
    (nextUnpackBuf h conn c).Ensures fun x => Held x.1 (refs x.2.unpackBuf + own) R ∧
      (∃ b, x.2.unpackBuf = some b) ∧
      x.2 = { conn with unpackBuf := x.2.unpackBuf, unpackPos := x.2.unpackPos } := by
  unfold Connection.nextUnpackBuf
  split_ifs
  · cases hn : c.next with
    | none => exact Exec.ensures_error nofun
    | some n =>
      obtain ⟨h', hacq, H', -⟩ := H.bufferAcquire (p := some n)
        (fun b hb => hlive b (hn.trans hb)) (W.add _)
      simp only [hacq]
      exact ⟨H', ⟨n, rfl⟩, rfl⟩
  · exact ⟨H, ⟨a, ha⟩, rfl⟩

/-- What unpacking leaves of a connection. -/
def Unpacked (conn conn' : Connection) : Prop :=
  (∃ b, conn'.unpackBuf = some b) ∧
    conn' = { conn with
      unpackBuf := conn'.unpackBuf, unpackPos := conn'.unpackPos, unpackSize := conn'.unpackSize }

theorem skipLoop {fuel total : ℕ} (H : Held h (refs conn.unpackBuf + own) R) (W : R.Within own)
    (ha : conn.unpackBuf = some a) :
    (skipLoop fuel h conn total).Ensures fun x => Held x.1 (refs x.2.unpackBuf + own) R ∧
      Unpacked conn x.2 := by
  induction fuel generalizing h conn total a with
  | zero => exact Exec.ensures_error nofun
  | succ fuel ih =>
    unfold Connection.skipLoop
    split_ifs
    · exact ⟨H, ⟨a, ha⟩, rfl⟩
    · have hderef : Exec.deref conn.unpackBuf = .ok a := by rw [ha, Exec.deref_some]
      rw [hderef, Exec.ok_bind]
      refine (H.get_own (by simp [ha])).bind fun c hc => ?_
      refine Exec.EnsuresUnless.bind (nextUnpackBuf (consume conn _) H W (H.next_live hc) ha) ?_
      rintro ⟨h₁, conn₁⟩ ⟨H₁, ⟨b, hb⟩, hconn₁⟩
      refine (ih H₁ hb).mono ?_
      rintro ⟨h₂, conn₂⟩ ⟨H₂, hsome, hconn₂⟩
      refine ⟨H₂, hsome, ?_⟩
      dsimp only at hconn₁ hconn₂ ⊢
      rw [hconn₂, hconn₁]
      rfl

theorem bufferReadLoop {fuel : ℕ} (H : Held h own R) (hlive : ∀ a, o = some a → ∃ c, h.cell a = some c) :
    (bufferReadLoop h fuel o pos size).Ensures fun _ => True := by
  induction fuel generalizing o pos size with
  | zero => exact Exec.ensures_error nofun
  | succ fuel ih =>
    unfold Buffer.bufferReadLoop
    split_ifs
    · trivial
    · cases o with
      | none => trivial
      | some a =>
        obtain ⟨c, hc⟩ := hlive a rfl
        refine (get hc).bind fun d hd => ?_
        subst hd
        refine (load _ _ _).bind fun bytes _ => ?_
        dsimp only
        split_ifs
        · exact (ih (H.next_live hc)).bind fun _ _ => trivial
        · exact (ih hlive).bind fun _ _ => trivial

/-- What a packet received adds to the references of a connection and of the application. -/
def Handed (s s' : Receiver (List RPacket)) (own : Multiset ℕ) (R : Roles) : Prop :=
  Held s'.heap (refs s'.conn.unpackBuf + (keepPackets.owned s'.app + own)) R ∧
    Unpacked s.conn s'.conn

theorem handOver {s : Receiver (List RPacket)}
    (H : Held h (refs conn.unpackBuf + (r.owned + (keepPackets.owned s.app + own))) R)
    (hconn : Unpacked s.conn conn) :
    (handOver keepPackets s h conn r).Ensures fun s' => Handed s s' own R := by
  refine ⟨?_, hconn⟩
  have howned : keepPackets.owned (s.app ++ [r]) = r.owned + keepPackets.owned s.app := by
    simp [keepPackets, add_comm]
  change Held h (refs conn.unpackBuf + (keepPackets.owned (s.app ++ [r]) + own)) R
  rwa [howned, add_assoc]

theorem unpackRound {s : Receiver (List RPacket)}
    (H : Held s.heap (refs s.conn.unpackBuf + (keepPackets.owned s.app + own)) R)
    (W : R.Within own) (ha : s.conn.unpackBuf = some a) (pkLen : ℕ) :
    (unpackRound keepPackets pkLen s).Ensures fun x => ∀ s' len, x = some (s', len) →
      Handed s s' own R := by
  have hlive : ∀ b, s.conn.unpackBuf = some b → ∃ c, s.heap.cell b = some c := fun b hb =>
    H.exact.live (by simp [hb])
  unfold Connection.unpackRound
  split_ifs
  · exact nofun
  · refine (bufferReadLoop H hlive).bind ?_
    rintro ⟨code, out⟩ -
    dsimp only
    split_ifs
    · exact nofun
    · refine (rpacketCreate H ((W.add _).add _) hlive _ _ _).bind ?_
      rintro ⟨h₁, r⟩ ⟨H₁, -⟩
      rw [add_left_comm] at H₁
      refine (skipLoop H₁ ((W.add _).add _) ha).bind ?_
      rintro ⟨h₂, conn₂⟩ ⟨H₂, hconn₂⟩
      refine (handOver H₂ hconn₂).bind fun s₁ hs₁ => ?_
      rintro s' len ⟨⟩
      exact hs₁

theorem unpackRoundRaw {s : Receiver (List RPacket)}
    (H : Held s.heap (refs s.conn.unpackBuf + (keepPackets.owned s.app + own)) R)
    (W : R.Within own) (ha : s.conn.unpackBuf = some a) :
    (unpackRoundRaw keepPackets s).Ensures fun x => ∀ s' len, x = some (s', len) →
      Handed s s' own R := by
  have hlive : ∀ b, s.conn.unpackBuf = some b → ∃ c, s.heap.cell b = some c := fun b hb =>
    H.exact.live (by simp [hb])
  have hderef : Exec.deref s.conn.unpackBuf = .ok a := by rw [ha, Exec.deref_some]
  unfold Connection.unpackRoundRaw
  rw [hderef, Exec.ok_bind]
  refine (H.get_own (by simp [ha])).bind fun c hc => ?_
  dsimp only
  split_ifs
  · exact nofun
  · refine (rpacketCreate H ((W.add _).add _) hlive _ _ _).bind ?_
    rintro ⟨h₁, r⟩ ⟨H₁, K₁⟩
    rw [add_left_comm] at H₁
    obtain ⟨d, hd⟩ := H₁.exact.live (show a ∈ _ by simp [ha])
    obtain ⟨e, he, hn, -⟩ := K₁.cell a d hd
    obtain rfl := Option.some.inj (he.symm.trans hc)
    refine Exec.EnsuresUnless.bind (nextUnpackBuf (consume s.conn _) H₁ ((W.add _).add _)
      (hn ▸ H₁.next_live hd) ha) ?_
    rintro ⟨h₂, conn₂⟩ ⟨H₂, hsome, hconn₂⟩
    refine (handOver H₂ ⟨hsome, ?_⟩).bind fun s₁ hs₁ => ?_
    · dsimp only at hconn₂ ⊢
      rw [hconn₂]
      rfl
    · rintro s' len ⟨⟩
      exact hs₁

/-- **A round of `unpack`.** -/
theorem unpackStep {s : Receiver (List RPacket)}
    (H : Held s.heap (refs s.conn.unpackBuf + (keepPackets.owned s.app + own)) R)
    (W : R.Within own) (ha : s.conn.unpackBuf = some a) (pkLen : ℕ) :
    (unpackStep keepPackets pkLen s).Ensures fun x => ∀ s' len, x = some (s', len) →
      Handed s s' own R := by
  unfold Connection.unpackStep
  split_ifs
  · exact unpackRoundRaw H W ha
  · exact unpackRound H W ha pkLen

/-! ## Sending -/

theorem prepareBuffers {room : ℕ} (H : Held h own R)
    (hlive : ∀ a, o = some a → ∃ c, h.cell a = some c) :
    (prepareBuffers h room o pos size).Ensures fun _ => True := by
  induction room generalizing o pos size with
  | zero => trivial
  | succ room ih =>
    cases o with
    | none => trivial
    | some a =>
      unfold Connection.prepareBuffers
      split_ifs
      · trivial
      · obtain ⟨c, hc⟩ := hlive a rfl
        refine (get hc).bind fun d hd => ?_
        subst hd
        exact (ih (H.next_live hc)).bind fun _ _ => trivial

theorem preparePackets {room : ℕ} {ws : List WPacket} (H : Held h own R)
    (hlive : ∀ w ∈ ws, ∀ a, w.buf = some a → a ∈ own) :
    (preparePackets h room ws).Ensures fun _ => True := by
  induction ws generalizing room with
  | nil => trivial
  | cons w ws ih =>
    unfold Connection.preparePackets
    split_ifs
    · trivial
    · refine (prepareBuffers H fun a ha => H.exact.live (hlive w List.mem_cons_self a ha)).bind
        fun vs _ => ?_
      exact (ih fun w' hw' => hlive w' (List.mem_cons_of_mem w hw')).bind fun _ _ => trivial

/-- The references of packets that wait. -/
def ownedAll (ws : List WPacket) : Multiset ℕ := (ws.map WPacket.owned).sum

/-- The roles of packets that wait. -/
def rolesAll (ws : List WPacket) : Roles := (ws.map WPacket.roles).sum

@[simp] theorem ownedAll_cons (w : WPacket) (ws : List WPacket) :
    ownedAll (w :: ws) = w.owned + ownedAll ws := by simp [ownedAll]

@[simp] theorem rolesAll_cons (w : WPacket) (ws : List WPacket) :
    rolesAll (w :: ws) = w.roles + rolesAll ws := by simp [rolesAll]

@[simp] theorem ownedAll_nil : ownedAll [] = 0 := rfl

@[simp] theorem rolesAll_nil : rolesAll [] = 0 := rfl

theorem mem_ownedAll {ws : List WPacket} (hw : w ∈ ws) (ha : a ∈ w.owned) : a ∈ ownedAll ws := by
  induction ws with
  | nil => cases hw
  | cons w' ws ih =>
    rw [ownedAll_cons, Multiset.mem_add]
    obtain rfl | hw := List.mem_cons.mp hw
    · exact .inl ha
    · exact .inr (ih hw)

theorem within_owned (w : WPacket) : w.roles.Within w.owned :=
  Roles.within_tails fun _ ha => Multiset.mem_add.mpr (.inr ha)

theorem within_ownedAll (ws : List WPacket) : (rolesAll ws).Within (ownedAll ws) := by
  induction ws with
  | nil => exact Roles.within_zero
  | cons w ws ih =>
    rw [rolesAll_cons, ownedAll_cons]
    exact ((within_owned w).add_right _).plus (ih.add _)

theorem prepareSend (conn : Connection) (H : Held h (ownedAll conn.sendList + own) R) :
    (prepareSend h conn).Ensures fun x => x.2 = { conn with wsendbuf := x.2.wsendbuf } := by
  have hlive : ∀ w ∈ conn.sendList, ∀ a, w.buf = some a → a ∈ ownedAll conn.sendList + own :=
    fun w hw a ha => Multiset.mem_add.mpr (.inl (mem_ownedAll hw (by simp [WPacket.owned, ha])))
  refine (preparePackets H hlive).bind fun vs _ => ?_
  change (if vs.isEmpty then _ else _ : Bool × Connection).2 =
    { conn with wsendbuf := (if vs.isEmpty then _ else _ : Bool × Connection).2.wsendbuf }
  split_ifs <;> rfl

theorem consumeLoop {fuel bytes : ℕ} (H : Held h (refs w.buf + own) R) (W : R.Within own) :
    (consumeLoop fuel h w bytes).Ensures fun x => Held x.1 (refs x.2.buf + own) R ∧
      x.2.writebuf = w.writebuf := by
  induction fuel generalizing h w bytes with
  | zero => exact Exec.ensures_error nofun
  | succ fuel ih =>
    unfold Connection.consumeLoop
    split_ifs
    · exact ⟨H, rfl⟩
    · refine (Exec.ensures_deref (Q := fun a => w.buf = some a) fun a ha => ha).bind fun a ha => ?_
      refine (H.get_own (show a ∈ refs w.buf + own by simp [ha])).bind fun c hc => ?_
      dsimp only
      split_ifs
      · obtain ⟨h₁, hacq, H₁, -⟩ := H.bufferAcquire (H.next_live hc) (W.add _)
        rw [hacq, Exec.ok_bind]
        exact ih H₁
      · exact ih H

/-- **A round of `update_send_list`**: a packet that is handed back keeps its references. -/
theorem updateSendRound {bytes : ℕ}
    (H : Held h (ownedAll conn.sendList + own) (rolesAll conn.sendList + R)) (W : R.Within own) :
    (updateSendRound h conn bytes).Ensures fun x =>
      Held x.1 (ownedAll x.2.1.sendList + (ownedAll x.2.2.2.toList + own))
        (rolesAll x.2.1.sendList + (rolesAll x.2.2.2.toList + R)) ∧
      x.2.1 = { conn with sendList := x.2.1.sendList } := by
  unfold Connection.updateSendRound
  cases hlist : conn.sendList with
  | nil => exact Exec.ensures_error nofun
  | cons w ws =>
    rw [hlist, ownedAll_cons, rolesAll_cons, add_assoc, add_assoc] at H
    have W' : (rolesAll ws + R).Within (ownedAll ws + own) := by
      exact ((within_ownedAll ws).add_right _).plus (W.add _)
    dsimp only
    split_ifs
    · refine ⟨?_, rfl⟩
      change Held h (ownedAll ws + (ownedAll [w] + own)) (rolesAll ws + (rolesAll [w] + R))
      rw [ownedAll_cons, rolesAll_cons, ownedAll_nil, rolesAll_nil, add_zero, add_zero,
        add_left_comm, add_left_comm (rolesAll ws)]
      exact H
    · refine (wpacketDestroy H.fewer W').bind fun h₁ H₁ => ?_
      refine ⟨?_, rfl⟩
      change Held h₁ (ownedAll ws + (ownedAll [] + own)) (rolesAll ws + (rolesAll [] + R))
      rwa [ownedAll_nil, rolesAll_nil, zero_add, zero_add]
    · have H' : Held h (refs w.buf + (refs w.writebuf + (ownedAll ws + own)))
          (w.roles + (rolesAll ws + R)) := by
        rw [← add_assoc]
        exact H
      have Wr : w.roles.Within (refs w.writebuf + (ownedAll ws + own)) :=
        Roles.within_tails fun _ ha => Multiset.mem_add.mpr (.inl ha)
      refine (consumeLoop H' (Wr.plus (W'.add _))).bind ?_
      rintro ⟨h₁, w₁⟩ ⟨H₁, hwrite⟩
      refine ⟨?_, rfl⟩
      change Held h₁ (ownedAll (w₁ :: ws) + (ownedAll [] + own))
        (rolesAll (w₁ :: ws) + (rolesAll [] + R))
      dsimp only at H₁ hwrite
      rw [ownedAll_nil, rolesAll_nil, zero_add, zero_add, ownedAll_cons, rolesAll_cons, WPacket.owned,
        WPacket.roles, hwrite]
      simp only [add_assoc]
      exact H₁

theorem destroyPackets {ws : List WPacket} (H : Held h (ownedAll ws + own) R) (W : R.Within own) :
    (destroyPackets h ws).Ensures fun h' => Held h' own R := by
  induction ws generalizing h with
  | nil =>
    rw [ownedAll_nil, zero_add] at H
    exact H
  | cons w ws ih =>
    rw [ownedAll_cons, add_assoc] at H
    exact (wpacketDestroy H (W.add _)).bind fun h₁ H₁ => ih H₁

theorem connectionDestroy
    (H : Held h (ownedAll conn.sendList + (refs conn.unpackBuf + (refs conn.nextRecvBuf + own))) R)
    (W : R.Within own) :
    (connectionDestroy h conn).Ensures fun x =>
      x.2 = true ∧ Held x.1 own R ∨ x.2 = false ∧ x.1 = h := by
  unfold Connection.connectionDestroy
  split_ifs
  · exact .inr ⟨rfl, rfl⟩
  · refine (destroyPackets H ((W.add _).add _)).bind fun h₁ H₁ => ?_
    obtain ⟨h₂, hrel₂, H₂, -⟩ := H₁.bufferRelease (W.add _)
    obtain ⟨h₃, hrel₃, H₃, -⟩ := H₂.bufferRelease W
    rw [hrel₂, Exec.ok_bind, hrel₃]
    exact .inl ⟨rfl, H₃⟩

/-- **`connection_start_recv`** on a connection that has not been started. -/
theorem connectionStartRecv (H : Held h own R) (W : R.Within own) (hnone : conn.unpackBuf = none) :
    (connectionStartRecv h conn).Ensures fun x => ∃ b,
      Held x.1 (refs (some b) + (refs (some b) + own)) (headRole (some b) + R) ∧
        x.2 = { conn with
          unpackBuf := some b
          nextRecvBuf := some b
          nextRecvPos := 0
          unpackPos := 0
          unpackSize := 0
          wrecvbuf := [⟨(b, 0), bufferSize⟩]
          recvUsed := true } := by
  unfold Connection.connectionStartRecv
  rw [hnone]
  dsimp only
  obtain ⟨f, hf, hcreate⟩ | ⟨body, hcreate⟩ := bufferCreateAndAcquire_cases h bufferSize
  · rw [hcreate]
    exact Exec.ensures_error hf
  · have H₀ : Held (h.alloc body).1 (refs none + (refs (some h.fresh) + own))
        (headRole (some h.fresh) + R) := by
      rw [refs_none, zero_add, refs_some, Multiset.singleton_add]
      exact H.alloc_head body
    obtain ⟨h₁, hacq, H₁, -⟩ := H₀.bufferAcquire (p := some h.fresh)
      (fun a ha => H₀.exact.live (by simp [Option.some.inj ha]))
      ((Roles.within_head (by simp)).plus ((W.add _).add _))
    have hfresh : (h.alloc body).2 = h.fresh := rfl
    rw [hcreate, Exec.ok_bind, hfresh, hacq]
    exact ⟨h.fresh, H₁, rfl⟩

end Held

end Kendylib
