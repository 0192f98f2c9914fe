import Kendylib.Alloc.ThreadAllocators
import Kendylib.Alloc.BlockObjAllocatorRuns
import Kendylib.Foundations.Run
import Mathlib.Data.Fintype.Sum
import Mathlib.Data.Fintype.Option

/-!
# Runs of the block allocator of several threads

A run is a series of calls of any number of threads, each call one step. An object may be freed by
another thread than the one that has allocated it; every outstanding object is freed at most once.

* A thread that frees before it has allocated has no thread allocator, and the assertion in
  `block_obj_al_dealloc` fails.
* A thread that has allocated keeps at least one free list for ever: lists go back to the central
  allocator only while it counts two blocks of free objects. Its first list may then grow beyond the
  size of a block.

So if every thread that frees has allocated, and no counter of free objects overflows, no assertion
fails and no object is lost (`sharedSafe_of_ready`).
-/

namespace Kendylib.BlockObjAllocator

open Lists WPacket

variable {T : Type} {t u : T} {a b : Allocator} {f g n size : ℕ} {x : Obj} {l : List Obj}
  {out : Finset Obj} {os : ℕ → List Obj} {fr rc ce fs : List ℕ} {xs : SharedPlace T → List ℕ}

/-! ## What a thread sees -/

theorem Place.of_injective : Function.Injective (Place.of t) := by
  intro p q h
  cases p <;> cases q <;> first | rfl | cases h

variable [DecidableEq T]

/-- The lists of an allocator, where those that the thread `t` can reach are replaced. -/
def own (xs : SharedPlace T → List ℕ) (t : T) (fr rc ce : List ℕ) : SharedPlace T → List ℕ
  | .free u => if u = t then fr else xs (.free u)
  | .recover u => if u = t then rc else xs (.recover u)
  | .central => ce

@[simp] theorem own_of (xs : SharedPlace T → List ℕ) (t : T) (p : Place) :
    own xs t fr rc ce (p.of t) = places fr rc ce p := by
  cases p <;> simp [own, Place.of, places]

theorem own_self : own xs t (xs (.free t)) (xs (.recover t)) (xs .central) = xs := by
  funext p
  cases p <;> simp +contextual [own]

/-- A change of a list that the thread can reach. -/
theorem update_own {p : Place} {fr' rc' ce' : List ℕ}
    (h : Function.update (places fr rc ce) p fs = places fr' rc' ce') :
    Function.update (own xs t fr rc ce) (p.of t) fs = own xs t fr' rc' ce' := by
  have hq : ∀ q, Function.update (places fr rc ce) p fs q = places fr' rc' ce' q := fun q => by rw [h]
  funext q
  by_cases hqt : ∃ r, q = Place.of t r
  · obtain ⟨r, rfl⟩ := hqt
    rw [own_of, ← hq r]
    by_cases hrp : r = p
    · subst hrp
      rw [Function.update_self, Function.update_self]
    · rw [Function.update_of_ne hrp, Function.update_of_ne fun h => hrp (Place.of_injective h), own_of]
  · rw [Function.update_of_ne fun h => hqt ⟨p, h⟩]
    cases q with
    | free u =>
      have hut : u ≠ t := fun h => hqt ⟨.free, by rw [h]; rfl⟩
      simp [own, hut]
    | recover u =>
      have hut : u ≠ t := fun h => hqt ⟨.recover, by rw [h]; rfl⟩
      simp [own, hut]
    | central => exact absurd ⟨.central, rfl⟩ hqt

/-- The lists of the allocator that the thread `t` sees as `a`. -/
structure Sees (t : T) (a : Allocator) (xs : SharedPlace T → List ℕ) (fr rc ce : List ℕ) : Prop where
  rep : ∃ m : Lists (SharedPlace T) ℕ, a.lists = m.comap (Place.of t) ∧
    m.Represents (own xs t fr rc ce)
  mem : ∀ f, f < a.blocks ↔ ∃ p, f ∈ own xs t fr rc ce p
  fresh : ∀ f, a.blocks ≤ f → a.lists.next f = none

/-- The lists that the thread reaches. -/
theorem Sees.list (Q : Sees t a xs fr rc ce) (p : Place) : a.lists.list p =
    ⟨(places fr rc ce p).length, (places fr rc ce p).head?, (places fr rc ce p).getLast?⟩ := by
  obtain ⟨m, hm, r⟩ := Q.rep
  rw [hm, ← own_of xs t]
  exact r.list _

/-- The blocks are those of the free lists. -/
theorem Sees.lt (Q : Sees t a xs fr rc ce) {p : Place} (h : f ∈ places fr rc ce p) : f < a.blocks :=
  (Q.mem f).mpr ⟨p.of t, by rwa [own_of]⟩

theorem Sees.notMem (Q : Sees t a xs fr rc ce) {p : Place} (hp : places fr rc ce p = f :: fs)
    {q : SharedPlace T} (hq : q ≠ p.of t) : f ∉ own xs t fr rc ce q := by
  obtain ⟨m, -, r⟩ := Q.rep
  refine fun hf => r.disjoint q (p.of t) hq hf ?_
  rw [own_of, hp]
  exact List.mem_cons_self

theorem places_eta (F : Place → List ℕ) : places (F .free) (F .recover) (F .central) = F := by
  funext p
  cases p <;> rfl

/-- A free list goes from one list of the thread to another. -/
theorem move_own {p q : Place} {fr' rc' ce' : List ℕ}
    (hxs : Function.update (Function.update (places fr rc ce) p fs) q (places fr rc ce q ++ [f]) =
      places fr' rc' ce') :
    Function.update (Function.update (own xs t fr rc ce) (p.of t) fs) (q.of t)
        (own xs t fr rc ce (q.of t) ++ [f]) = own xs t fr' rc' ce' := by
  set F := Function.update (places fr rc ce) p fs with hF
  rw [update_own (places_eta F).symm, own_of]
  exact update_own (by rw [places_eta]; exact hxs)

/-- **A free list goes from the front of one list to the end of another.** -/
theorem Sees.move (p q : Place) (fr' rc' ce' : List ℕ) (Q : Sees t a xs fr rc ce)
    (hp : places fr rc ce p = f :: fs) (hpq : q ≠ p)
    (hxs : Function.update (Function.update (places fr rc ce) p fs) q (places fr rc ce q ++ [f]) =
      places fr' rc' ce') :
    ∃ lists₁ lists, pop a p = .ok (some f, { a with lists := lists₁ }) ∧
      (∀ b : Allocator, b.lists = lists₁ → pushBack b q f = .ok { b with lists := lists }) ∧
      ∀ b : Allocator, b.lists = lists → b.blocks = a.blocks → Sees t b xs fr' rc' ce' := by
  obtain ⟨m, hm, r⟩ := Q.rep
  have hown : own xs t fr rc ce (p.of t) = f :: fs := (own_of ..).trans hp
  have hqp : q.of t ≠ p.of t := fun h => hpq (Place.of_injective h)
  obtain ⟨m₁, hpop, r₁, hnext₁, hother₁⟩ := r.pop hown
  have hout : ∀ q, f ∉ Function.update (own xs t fr rc ce) (p.of t) fs q := by
    intro q hq
    by_cases hqp : q = p.of t
    · subst hqp
      rw [Function.update_self] at hq
      have := r.nodup (p.of t)
      rw [hown, List.nodup_cons] at this
      exact this.1 hq
    · rw [Function.update_of_ne hqp] at hq
      exact Q.notMem hp hqp hq
  obtain ⟨m₂, hpush, r₂, hother₂⟩ := r₁.pushBack (q.of t) hout hnext₁
  rw [Function.update_of_ne hqp, move_own hxs] at r₂
  refine ⟨m₁.comap (Place.of t), m₂.comap (Place.of t), ?_, ?_, ?_⟩
  · rw [BlockObjAllocator.pop, hm, comap_linkListPop Place.of_injective, hpop]
    rfl
  · rintro b hb
    rw [BlockObjAllocator.pushBack, hb, comap_linkListPushBack Place.of_injective, hpush]
    rfl
  · rintro b hb hblocks
    refine ⟨⟨m₂, hb, r₂⟩, fun g => ?_, fun g hg => ?_⟩
    · rw [hblocks, Q.mem, ← move_own hxs, exists_move hown hqp]
    · rw [hblocks] at hg
      have hg' : ∀ p, g ∉ own xs t fr rc ce p := fun p hgp =>
        Nat.not_lt.mpr hg ((Q.mem g).mpr ⟨p, hgp⟩)
      have hgf : g ≠ f := by
        rintro rfl
        exact hg' (p.of t) (by rw [hown]; exact List.mem_cons_self)
      have hold := Q.fresh g hg
      rw [hm] at hold
      rw [hb]
      refine (hother₂ g fun q hq => ?_).trans ((hother₁ g hgf).trans hold)
      by_cases hqp : q = p.of t
      · subst hqp
        rw [Function.update_self] at hq
        exact hg' (p.of t) (by rw [hown]; exact List.mem_cons_of_mem _ hq)
      · rw [Function.update_of_ne hqp] at hq
        exact hg' q hq

/-- A new free list becomes the only one with free objects of its thread. -/
theorem Sees.pushNew (Q : Sees t a xs [] rc ce) (hlists : b.lists = a.lists)
    (hblocks : b.blocks = a.blocks + 1) :
    ∃ lists, pushBack b .free a.blocks = .ok { b with lists := lists } ∧
      Sees t { b with lists := lists } xs [a.blocks] rc ce := by
  obtain ⟨m, hm, r⟩ := Q.rep
  have hold : ∀ g, a.blocks ≤ g → ∀ p, g ∉ own xs t [] rc ce p := fun g hg p hp =>
    Nat.not_lt.mpr hg ((Q.mem g).mpr ⟨p, hp⟩)
  have hnext := Q.fresh a.blocks le_rfl
  rw [hm] at hnext
  obtain ⟨m₁, hpush, r₁, hother⟩ := r.pushBack (SharedPlace.free t) (hold _ le_rfl) hnext
  have hown : Function.update (own xs t [] rc ce) (SharedPlace.free t)
      (own xs t [] rc ce (SharedPlace.free t) ++ [a.blocks]) = own xs t [a.blocks] rc ce := by
    rw [show SharedPlace.free t = Place.of t .free from rfl, own_of]
    exact update_own (by funext p; cases p <;> rfl)
  rw [hown] at r₁
  refine ⟨m₁.comap (Place.of t), ?_, ⟨⟨m₁, rfl, r₁⟩, fun g => ?_, fun g hg => ?_⟩⟩
  · rw [BlockObjAllocator.pushBack, hlists, hm, comap_linkListPushBack Place.of_injective]
    change (Except.map _ (m.linkListPushBack (SharedPlace.free t) a.blocks) >>= _) = _
    rw [hpush]
    rfl
  · have hmem := Q.mem g
    change g < b.blocks ↔ _
    rw [hblocks, Nat.lt_succ_iff_lt_or_eq, hmem, ← hown]
    constructor
    · rintro (⟨p, hp⟩ | rfl)
      · by_cases hpt : p = .free t
        · subst hpt
          exact ⟨.free t, by rw [Function.update_self]; exact List.mem_append_left _ hp⟩
        · exact ⟨p, by rwa [Function.update_of_ne hpt]⟩
      · exact ⟨.free t, by rw [Function.update_self]; simp⟩
    · rintro ⟨p, hp⟩
      by_cases hpt : p = .free t
      · subst hpt
        rw [Function.update_self] at hp
        rcases List.mem_append.mp hp with hp | hp
        · exact .inl ⟨_, hp⟩
        · exact .inr (List.mem_singleton.mp hp)
      · exact .inl ⟨p, by rwa [Function.update_of_ne hpt] at hp⟩
  · have hg' : a.blocks ≤ g := by
      have : b.blocks ≤ g := hg
      omega
    have hfresh := Q.fresh g hg'
    rw [hm] at hfresh
    exact (hother g (hold g hg')).trans hfresh

/-! ## Calls of one thread -/

theorem Sees.congr (Q : Sees t a xs fr rc ce) (hlists : b.lists = a.lists)
    (hblocks : b.blocks = a.blocks) : Sees t b xs fr rc ce :=
  ⟨hlists ▸ Q.rep, fun f => hblocks ▸ Q.mem f, fun f hf => by
    rw [hlists]
    exact Q.fresh f (hblocks ▸ hf)⟩

theorem Sees.nodup (Q : Sees t a xs fr rc ce) : (fr ++ (rc ++ ce)).Nodup := by
  obtain ⟨m, -, r⟩ := Q.rep
  have hn : ∀ p : Place, (places fr rc ce p).Nodup := fun p => by
    rw [← own_of xs t]
    exact r.nodup _
  have hd : ∀ p q : Place, p ≠ q → List.Disjoint (places fr rc ce p) (places fr rc ce q) := by
    intro p q hpq
    rw [← own_of xs t, ← own_of xs t q]
    exact r.disjoint _ _ fun h => hpq (Place.of_injective h)
  refine List.nodup_append'.mpr ⟨hn .free, List.nodup_append'.mpr
    ⟨hn .recover, hn .central, hd .recover .central (by decide)⟩, ?_⟩
  intro f hf hf'
  rcases List.mem_append.mp hf' with h | h
  · exact hd .free .recover (by decide) hf h
  · exact hd .free .central (by decide) hf h

/-- A free list of the thread `t` is in no list of another thread. -/
theorem Sees.apart (Q : Sees t a xs fr rc ce) (hut : u ≠ t) (hg : g ∈ xs (.free u) ∨ g ∈ xs (.recover u))
    {p : Place} (hf : f ∈ places fr rc ce p) : g ≠ f := by
  rintro rfl
  obtain ⟨m, -, r⟩ := Q.rep
  rw [← own_of xs t] at hf
  rcases hg with hg | hg
  · refine r.disjoint (.free u) (p.of t) ?_ ?_ hf
    · cases p <;> simp [Place.of, hut]
    · simpa [own, hut] using hg
  · refine r.disjoint (.recover u) (p.of t) ?_ ?_ hf
    · cases p <;> simp [Place.of, hut]
    · simpa [own, hut] using hg

/-- The free lists of the other threads keep their objects. -/
def Apart (xs : SharedPlace T → List ℕ) (t : T) (os os' : ℕ → List Obj) : Prop :=
  ∀ u ≠ t, ∀ g, g ∈ xs (.free u) ∨ g ∈ xs (.recover u) → os' g = os g

theorem Sees.apart_update (Q : Sees t a xs fr rc ce) {p : Place} (hf : f ∈ places fr rc ce p) :
    Apart xs t os (Function.update os f l) :=
  fun _ hut _ hg => Function.update_of_ne (Q.apart hut hg hf) ..

/-- An allocator in a run, as the thread `t` sees it, which counts `size` free objects. -/
structure Good (t : T) (a : Allocator) (n size : ℕ) (out : Finset Obj) (xs : SharedPlace T → List ℕ)
    (fr rc ce : List ℕ) (os : ℕ → List Obj) : Prop where
  sees : Sees t a xs fr rc ce
  stock : Stock a n out os
  counted : Counted n size fr rc os
  lt : size < 0x100000000
  central_full : ∀ f ∈ ce, (os f).length = n

theorem Good.length_lt (G : Good t a n size out xs fr rc ce os) (hf : f ∈ fr ∨ f ∈ rc) :
    (os f).length ≤ size := by
  have hcount := G.counted.count
  have hle : ∀ {fs : List ℕ}, f ∈ fs → (os f).length ≤ countIn os fs := fun h =>
    List.le_sum_of_mem (List.mem_map_of_mem h)
  rcases hf with hf | hf
  · have := hle hf
    omega
  · have := hle hf
    omega

/-- **Picking a list** with a free object. -/
theorem Good.pickList {v : ThreadAllocator} (G : Good t a n v.freeSize out xs fr rc ce os) :
    ∃ f b w fr' rc' ce' os', BlockObjAllocator.pickList a v = .ok (f, b, w) ∧
      w.collectFactor = v.collectFactor ∧ Good t b n w.freeSize out xs (f :: fr') rc' ce' os' ∧
      Apart xs t os os' := by
  have hn := G.stock.pos
  have hsmall := G.stock.small
  have C := G.counted
  by_cases hzero : v.freeSize = 0
  · rw [hzero] at C
    obtain ⟨rfl, hrc⟩ := C.free_eq_nil
    have hsize : add32 v.freeSize n = n := by
      rw [hzero, add32_of_lt (by omega), Nat.zero_add]
    cases ce with
    | cons f ce =>
      -- a list of the central allocator
      obtain ⟨lists₁, lists, hpop, hpush, hsees⟩ := G.sees.move .central .free [f] rc ce rfl
        (by decide) (by funext q; cases q <;> rfl)
      have hf : f < a.blocks := G.sees.lt (p := .central) List.mem_cons_self
      have hfull := G.central_full f List.mem_cons_self
      have hget : centralGetFreelist a = .ok (f, { a with lists := lists₁ }) := by
        rw [centralGetFreelist, hpop]
        rfl
      have hflist : (a.flist f).size = n := (G.stock.chain f hf).2.1.trans hfull
      refine ⟨f, { a with lists := lists }, { v with freeSize := n }, [], rc, ce, os, ?_, rfl,
        ⟨hsees _ rfl rfl, G.stock.congr rfl rfl rfl rfl, C.refill hn hfull, by simp only; omega,
          fun g hg => G.central_full g (List.mem_cons_of_mem _ hg)⟩, fun _ _ _ _ => rfl⟩
      rw [BlockObjAllocator.pickList, if_pos hzero, hget, Exec.ok_bind]
      simp only [hpush { a with lists := lists₁ } rfl, Exec.ok_bind, hflist, hsize]
      rfl
    | nil =>
      -- a new block
      obtain ⟨b, hnew, Sb, hlists, hblocks, hflist⟩ := G.stock.creatNewFreelist
      have hget : centralGetFreelist a = .ok (a.blocks, b) := by
        have hpop : pop a .central = .ok (none, a) := by
          have hsize : (a.lists.list .central).size = 0 := by
            rw [G.sees.list]
            rfl
          rw [pop, linkListPop]
          simp only [hsize, if_true]
          rfl
        rw [centralGetFreelist, hpop, Exec.ok_bind]
        exact hnew
      obtain ⟨lists, hpush, hsees⟩ := G.sees.pushNew hlists hblocks
      have hkeep : ∀ p, ∀ g ∈ own xs t [] rc [] p,
          Function.update os a.blocks (newObjs a.blocks n) g = os g := by
        intro p g hg
        refine Function.update_of_ne ?_ ..
        rintro rfl
        exact absurd ((G.sees.mem _).mpr ⟨p, hg⟩) (lt_irrefl _)
      have hrec : ∀ g ∈ rc, Function.update os a.blocks (newObjs a.blocks n) g = [] := fun g hg =>
        (hkeep (.recover t) g (by simpa [own] using hg)).trans (hrc g hg)
      have Cnew : Counted n 0 [] rc (Function.update os a.blocks (newObjs a.blocks n)) := by
        refine ⟨?_, by simp, fun g hg => ?_, fun g hg => hrec g (List.mem_of_mem_tail hg)⟩
        · rw [countIn_nil, Nat.zero_add, countIn_eq_zero hrec]
        · rw [hrec g (List.mem_of_mem_head? hg)]
          exact hn
      refine ⟨a.blocks, { b with lists := lists }, { v with freeSize := n }, [], rc, [], _, ?_, rfl,
        ⟨hsees, Sb.congr rfl rfl rfl rfl, Cnew.refill hn ?_, by simp only; omega, by simp⟩,
        fun u hut g hg => ?_⟩
      · rw [BlockObjAllocator.pickList, if_pos hzero, hget, Exec.ok_bind]
        simp only [hpush, Exec.ok_bind, hflist, hsize]
        rfl
      · rw [Function.update_self, newObjs, List.length_map, List.length_range]
      · rcases hg with hg | hg
        · exact hkeep (.free u) g (by simpa [own, hut] using hg)
        · exact hkeep (.recover u) g (by simpa [own, hut] using hg)
  · cases fr with
    | cons f fr =>
      -- the first list of the thread
      refine ⟨f, a, v, fr, rc, ce, os, ?_, rfl, G, fun _ _ _ _ => rfl⟩
      have hhead : (a.lists.list .free).head = some f := by
        rw [G.sees.list]
        rfl
      rw [BlockObjAllocator.pickList, if_neg hzero, hhead]
    | nil =>
      -- the first list of those that take objects back
      cases rc with
      | nil => exact absurd C.count hzero
      | cons f rc =>
        obtain ⟨lists₁, lists, hpop, hpush, hsees⟩ := G.sees.move .recover .free [f] rc ce rfl
          (by decide) (by funext q; cases q <;> rfl)
        refine ⟨f, { a with lists := lists }, v, [], rc, ce, os, ?_, rfl,
          ⟨hsees _ rfl rfl, G.stock.congr rfl rfl rfl rfl, C.reuse hzero hn, G.lt, G.central_full⟩,
          fun _ _ _ _ => rfl⟩
        have hhead : (a.lists.list .free).head = none := by
          rw [G.sees.list]
          rfl
        rw [BlockObjAllocator.pickList, if_neg hzero, hhead]
        simp only [hpop, Exec.ok_bind, Exec.deref_some, hpush { a with lists := lists₁ } rfl]
        rfl

/-- What a call of the thread `t` leaves: its counters are stored, it has a free list, and the other
threads are not affected. -/
def Leaves (t : T) (b : Allocator) (n : ℕ) (out : Finset Obj) (xs : SharedPlace T → List ℕ)
    (os : ℕ → List Obj) : Prop :=
  ∃ size fr rc ce os', b.thread = some ⟨size, 2 * n⟩ ∧ Good t b n size out xs fr rc ce os' ∧
    (fr ≠ [] ∨ rc ≠ []) ∧ Apart xs t os os'

omit [DecidableEq T] in
theorem Apart.trans {os₁ os₂ : ℕ → List Obj} (h : Apart xs t os os₁) (h' : Apart xs t os₁ os₂) :
    Apart xs t os os₂ :=
  fun u hut g hg => (h' u hut g hg).trans (h u hut g hg)

/-- **`thread_allocator_alloc`** returns an object that is not outstanding. -/
theorem Good.threadAllocatorAlloc {v : ThreadAllocator} (G : Good t a n v.freeSize out xs fr rc ce os)
    (hv : v.collectFactor = 2 * n) :
    ∃ x b, BlockObjAllocator.threadAllocatorAlloc a v = .ok (x, b) ∧ x ∉ out ∧
      Leaves t b n (insert x out) xs os := by
  obtain ⟨f, b, w, fr', rc', ce', os', hpick, hw, G', hapart⟩ := G.pickList
  obtain ⟨x, l, hos⟩ := List.exists_cons_of_ne_nil (G'.counted.free_pos f List.mem_cons_self)
  have hfree : f ∈ places (f :: fr') rc' ce' .free := List.mem_cons_self
  have hf : f < b.blocks := G'.sees.lt hfree
  have hle := G'.length_lt (.inl List.mem_cons_self)
  have hlt := G'.lt
  rw [hos, List.length_cons] at hle
  obtain ⟨c, hget, hx, Sc, hlists, hblocks, hsize⟩ := G'.stock.get hf hos (by omega)
  have hnodup := G'.sees.nodup
  rw [List.cons_append, List.nodup_cons] at hnodup
  obtain ⟨hfr, hrc, hce⟩ : f ∉ fr' ∧ f ∉ rc' ∧ f ∉ ce' := by
    simpa only [List.mem_append, not_or] using hnodup.1
  obtain ⟨hmore, hlast⟩ := G'.counted.take hos hfr hrc G'.stock.pos
  have hcentral : ∀ g ∈ ce', (Function.update os' f l g).length = n := by
    intro g hg
    rw [update_keep hce hg]
    exact G'.central_full g hg
  have hapart' : Apart xs t os (Function.update os' f l) :=
    hapart.trans (G'.sees.apart_update hfree)
  have hdec : sub32 w.freeSize 1 = w.freeSize - 1 := sub32_of_le (by omega) hlt
  have hrun : BlockObjAllocator.threadAllocatorAlloc a v = (do
      let a := { c with thread := some ⟨w.freeSize - 1, 2 * n⟩ }
      if l.length = 0 then
        let q ← pop a .free
        let a ← pushBack q.2 .recover f
        return (x, a)
      else return (x, a)) := by
    rw [BlockObjAllocator.threadAllocatorAlloc, hpick, Exec.ok_bind]
    simp only [hget, Exec.ok_bind, hdec, hw.trans hv, hsize]
  have Qc : Sees t { c with thread := some ⟨w.freeSize - 1, 2 * n⟩ } xs (f :: fr') rc' ce' :=
    G'.sees.congr hlists hblocks
  by_cases hl : l = []
  · obtain ⟨lists₁, lists, hpop, hpush, hsees⟩ := Qc.move .free .recover fr' (rc' ++ [f]) ce' rfl
      (by decide) (by funext q; cases q <;> rfl)
    refine ⟨x, { c with thread := some ⟨w.freeSize - 1, 2 * n⟩, lists := lists }, ?_, hx,
      w.freeSize - 1, fr', rc' ++ [f], ce', _, rfl, ⟨hsees _ rfl rfl, Sc.congr rfl rfl rfl rfl,
        hlast hl, by omega, hcentral⟩, .inr (by simp), hapart'⟩
    rw [hrun]
    simp only [hl, List.length_nil, if_true, hpop, Exec.ok_bind]
    rw [hpush { c with thread := some ⟨w.freeSize - 1, 2 * n⟩, lists := lists₁ } rfl]
    rfl
  · refine ⟨x, { c with thread := some ⟨w.freeSize - 1, 2 * n⟩ }, ?_, hx, w.freeSize - 1, f :: fr', rc',
      ce', _, rfl, ⟨Qc, Sc.congr rfl rfl rfl rfl, hmore hl, by omega, hcentral⟩, .inl (by simp),
      hapart'⟩
    rw [hrun]
    simp only [List.length_eq_zero_iff, hl, if_false]
    rfl

/-- **`thread_allocator_dealloc`** takes an outstanding object back. -/
theorem Good.threadAllocatorDealloc {v : ThreadAllocator}
    (G : Good t a n v.freeSize out xs fr rc ce os) (hv : v.collectFactor = 2 * n)
    (hlt : v.freeSize + 1 < 0x100000000) (hne : fr ≠ [] ∨ rc ≠ []) (hx : x ∈ out) :
    ∃ b, BlockObjAllocator.threadAllocatorDealloc a v x = .ok b ∧
      Leaves t b n (out.erase x) xs os := by
  have hn := G.stock.pos
  have hinc : add32 v.freeSize 1 = v.freeSize + 1 := add32_of_lt hlt
  have hnodup := G.sees.nodup
  cases rc with
  | cons f rc =>
    have hrecover : f ∈ places fr (f :: rc) ce .recover := List.mem_cons_self
    have hf : f < a.blocks := G.sees.lt hrecover
    have hle := G.length_lt (.inr List.mem_cons_self)
    have S' := G.stock.put hf hx (by omega)
    obtain ⟨hlists, hblocks, -, -, -⟩ := freeListPut_fields (a := a) (f := f) (x := x)
    have hhead : (a.lists.list .recover).head = some f := by
      rw [G.sees.list]
      rfl
    have hsizes : ((freeListPut a f x).flist f).size = (os f).length + 1 ∧
        ((freeListPut a f x).flist f).initSize = n := by
      obtain ⟨-, h₁, h₂⟩ := S'.chain f (by rwa [hblocks])
      rw [length_put] at h₁
      exact ⟨h₁, h₂⟩
    obtain ⟨hfr, hrc, hce⟩ : f ∉ fr ∧ f ∉ rc ∧ f ∉ ce := by
      rw [List.cons_append, List.nodup_middle, List.nodup_cons] at hnodup
      simpa only [List.mem_append, not_or] using hnodup.1
    obtain ⟨hstay, hlast⟩ := G.counted.putRecover (x := x) hfr hrc hn
    have Q' : Sees t (freeListPut a f x) xs fr (f :: rc) ce := G.sees.congr hlists hblocks
    have hapart : Apart xs t os (Function.update os f (os f ++ [x])) := G.sees.apart_update hrecover
    have hcentral : ∀ g ∈ ce, (Function.update os f (os f ++ [x]) g).length = n := by
      intro g hg
      rw [update_keep hce hg]
      exact G.central_full g hg
    rw [BlockObjAllocator.threadAllocatorDealloc, hhead]
    simp only [hinc, hsizes.1, hsizes.2, hv]
    by_cases hfull : (os f).length + 1 = n
    · obtain ⟨hle', hback, hkeep⟩ := hlast hfull
      rw [if_pos hfull]
      by_cases hcollect : v.freeSize + 1 ≥ 2 * n
      · -- the list goes back, and the thread counts another block of free objects
        obtain ⟨lists₁, lists, hpop, hpush, hsees⟩ := Q'.move .recover .central fr rc (ce ++ [f])
          rfl (by decide) (by funext q; cases q <;> rfl)
        have hsub : sub32 (v.freeSize + 1) n = v.freeSize + 1 - n := sub32_of_le hle' hlt
        refine ⟨{ freeListPut a f x with
            lists := lists
            thread := some ⟨v.freeSize + 1 - n, 2 * n⟩ }, ?_, _, fr, rc, ce ++ [f], _, rfl,
          ⟨hsees _ rfl rfl, S'.congr rfl rfl rfl rfl, hback, by omega, fun g hg => ?_⟩, ?_, hapart⟩
        · simp only [hpop, Exec.ok_bind, if_pos hcollect]
          rw [hpush { freeListPut a f x with lists := lists₁ } rfl, Exec.ok_bind]
          simp only [hsizes.1, hfull, hsub]
          rfl
        · rcases List.mem_append.mp hg with hg | hg
          · exact hcentral g hg
          · rw [List.mem_singleton.mp hg, length_put, hfull]
        · by_contra hnone
          obtain ⟨rfl, rfl⟩ : fr = [] ∧ rc = [] := by simpa using hnone
          have := hback.count
          simp only [countIn_nil] at this
          omega
      · obtain ⟨lists₁, lists, hpop, hpush, hsees⟩ := Q'.move .recover .free (fr ++ [f]) rc ce
          rfl (by decide) (by funext q; cases q <;> rfl)
        refine ⟨{ freeListPut a f x with
            lists := lists
            thread := some ⟨v.freeSize + 1, 2 * n⟩ }, ?_, _, fr ++ [f], rc, ce, _, rfl,
          ⟨hsees _ rfl rfl, S'.congr rfl rfl rfl rfl, hkeep, hlt, hcentral⟩, .inl (by simp), hapart⟩
        simp only [hpop, Exec.ok_bind, if_neg hcollect]
        rw [hpush { freeListPut a f x with lists := lists₁ } rfl, Exec.ok_bind]
        rfl
    · have hless := G.counted.recover_lt f rfl
      rw [if_neg hfull]
      exact ⟨_, rfl, _, fr, f :: rc, ce, _, rfl, ⟨Q'.congr rfl rfl, S'.congr rfl rfl rfl rfl,
        hstay (by omega), hlt, hcentral⟩, .inr (by simp), hapart⟩
  | nil =>
    have hhead : (a.lists.list .recover).head = none := by
      rw [G.sees.list]
      rfl
    cases fr with
    | nil => exact absurd hne (by simp)
    | cons f fr =>
      have hfree : f ∈ places (f :: fr) [] ce .free := List.mem_cons_self
      have hf : f < a.blocks := G.sees.lt hfree
      have hle := G.length_lt (.inl List.mem_cons_self)
      have S' := G.stock.put hf hx (by omega)
      obtain ⟨hlists, hblocks, -, -, -⟩ := freeListPut_fields (a := a) (f := f) (x := x)
      rw [List.cons_append, List.nodup_cons] at hnodup
      obtain ⟨hfr, hce⟩ : f ∉ fr ∧ f ∉ ce := by
        simpa only [List.mem_append, List.nil_append, not_or] using hnodup.1
      have hfirst : (a.lists.list .free).head = some f := by
        rw [G.sees.list]
        rfl
      refine ⟨{ freeListPut a f x with thread := some ⟨v.freeSize + 1, 2 * n⟩ }, ?_, _, f :: fr, [], ce, _,
        rfl, ⟨G.sees.congr hlists hblocks, S'.congr rfl rfl rfl rfl, G.counted.putFirst hfr, hlt,
          fun g hg => ?_⟩, .inl (by simp), G.sees.apart_update hfree⟩
      · rw [BlockObjAllocator.threadAllocatorDealloc, hhead]
        simp only [hfirst, hinc, hv]
      · rw [update_keep hce hg]
        exact G.central_full g hg

/-! ## Runs -/

instance [Fintype T] : Fintype (SharedPlace T) :=
  .ofEquiv (Option (T ⊕ T))
    { toFun := fun
        | none => .central
        | some (.inl t) => .free t
        | some (.inr t) => .recover t
      invFun := fun
        | .central => none
        | .free t => some (.inl t)
        | .recover t => some (.inr t)
      left_inv := fun p => by rcases p with - | p | p <;> rfl
      right_inv := fun p => by cases p <;> rfl }

/-- The objects of a free list. -/
def SharedAllocator.objects (s : SharedAllocator T) (f : ℕ) : List Obj :=
  walk s.objNext (s.flist f).size (s.flist f).head

/-- The outstanding objects and those on the lists of all threads and of the central allocator are the
objects of all blocks, each once. -/
def SharedAllocator.Exact [Fintype T] (s : SharedAllocator T) (out : Finset Obj) : Prop :=
  out.val + ∑ p : SharedPlace T, ((s.lists.nodes p).flatMap s.objects : Multiset Obj) =
    (blockObjs s.blocks (defaultBlockSize / s.objSize)).val

/-- An allocator and the record of the outstanding objects. -/
structure SharedState (T : Type) where
  alloc : SharedAllocator T
  out : Finset Obj

/-- A call of a thread. -/
def sharedStep (s : SharedState T) : T × Op → Exec (SharedState T)
  | (t, .alloc) => do
    let (x, a) ← s.alloc.blockObjAlAlloc t
    return ⟨a, insert x s.out⟩
  | (t, .dealloc x) => do
    let a ← s.alloc.blockObjAlDealloc t x
    return ⟨a, s.out.erase x⟩
  | (_, .write x v) =>
    .ok ⟨{ s.alloc with objNext := Function.update s.alloc.objNext x v }, s.out⟩

/-- Only objects that are outstanding are freed or written to, by whatever thread. -/
def Outstanding (s : SharedState T) : T × Op → Prop
  | (_, .alloc) => True
  | (_, .dealloc x) | (_, .write x _) => x ∈ s.out

/-- A thread that frees an object has allocated one before. -/
def HasAllocator (s : SharedState T) : T × Op → Prop
  | (t, .dealloc _) => (s.alloc.thread t).isSome
  | _ => True

/-- A thread that frees an object has allocated one before, and can count one more free object. -/
def Ready (s : SharedState T) : T × Op → Prop
  | (t, .dealloc _) => ∃ v, s.alloc.thread t = some v ∧ v.freeSize + 1 < 0x100000000
  | _ => True

instance (s : SharedState T) (op : T × Op) : Decidable (Outstanding s op) :=
  match op with
  | (_, .alloc) => inferInstanceAs (Decidable True)
  | (_, .dealloc _) => inferInstanceAs (Decidable (_ ∈ _))
  | (_, .write _ _) => inferInstanceAs (Decidable (_ ∈ _))

instance (s : SharedState T) (op : T × Op) : Decidable (Ready s op) :=
  match op with
  | (_, .alloc) => inferInstanceAs (Decidable True)
  | (t, .dealloc _) =>
    match h : s.alloc.thread t with
    | none => isFalse fun ⟨v, hv, _⟩ => by rw [h] at hv; cases hv
    | some v => decidable_of_iff (v.freeSize + 1 < 0x100000000)
        ⟨fun hlt => ⟨v, h, hlt⟩, fun ⟨w, hw, hlt⟩ => by
          obtain rfl := Option.some.inj (h.symm.trans hw)
          exact hlt⟩
  | (_, .write _ _) => inferInstanceAs (Decidable True)

instance (s : SharedState T) (op : T × Op) : Decidable (HasAllocator s op) :=
  match op with
  | (_, .alloc) => inferInstanceAs (Decidable True)
  | (t, .dealloc _) => inferInstanceAs (Decidable ((s.alloc.thread t).isSome = true))
  | (_, .write _ _) => inferInstanceAs (Decidable True)

/-- No assertion of the run fails, nor is there any other fault, and the objects are where they should
be in every state. -/
def SharedSafe [Fintype T] (s : SharedState T) (ops : List (T × Op)) : Prop :=
  Exec.Always sharedStep (fun s => s.alloc.Exact s.out) s ops ∧
    Exec.FaultsOnly sharedStep (fun _ _ _ => False) s ops

/-- The free lists and the objects, without the lists they are in. -/
def SharedAllocator.pool (s : SharedAllocator T) : Allocator where
  objSize := s.objSize
  thread := none
  lists := ⟨fun _ => .empty, fun _ => none⟩
  flist := s.flist
  objNext := s.objNext
  blocks := s.blocks

/-- A thread allocator and its lists. A thread that has one has a free list. -/
def Cache (n : ℕ) (fr rc : List ℕ) (os : ℕ → List Obj) : Option ThreadAllocator → Prop
  | none => fr = [] ∧ rc = []
  | some v => v.collectFactor = 2 * n ∧ v.freeSize < 0x100000000 ∧ Counted n v.freeSize fr rc os ∧
    (fr ≠ [] ∨ rc ≠ [])

/-- An allocator in a run, with its lists of free lists and their objects. -/
structure SharedInv (s : SharedAllocator T) (n : ℕ) (out : Finset Obj) (xs : SharedPlace T → List ℕ)
    (os : ℕ → List Obj) : Prop where
  rep : s.lists.Represents xs
  mem : ∀ f, f < s.blocks ↔ ∃ p, f ∈ xs p
  fresh : ∀ f, s.blocks ≤ f → s.lists.next f = none
  stock : Stock s.pool n out os
  central_full : ∀ f ∈ xs .central, (os f).length = n
  cache : ∀ t, Cache n (xs (.free t)) (xs (.recover t)) os (s.thread t)

variable {s : SharedAllocator T}

/-- What a thread sees in a run. -/
theorem SharedInv.good (I : SharedInv s n out xs os) (t : T)
    (C : Counted n size (xs (.free t)) (xs (.recover t)) os) (hlt : size < 0x100000000) :
    Good t (s.view t) n size out xs (xs (.free t)) (xs (.recover t)) (xs .central) os := by
  refine ⟨⟨⟨s.lists, rfl, ?_⟩, fun f => ?_, I.fresh⟩, I.stock.congr rfl rfl rfl rfl, C, hlt,
    I.central_full⟩
  · rw [own_self]
    exact I.rep
  · rw [own_self]
    exact I.mem f

/-- **A call of a thread** keeps the invariant. -/
theorem SharedInv.store (I : SharedInv s n out xs os) {out' : Finset Obj}
    (h : Leaves t b n out' xs os) : ∃ xs' os', SharedInv (s.store t b) n out' xs' os' := by
  obtain ⟨size, fr, rc, ce, os', hthread, G, hne, hapart⟩ := h
  obtain ⟨m, hm, r⟩ := G.sees.rep
  have hlists : (s.store t b).lists = m := by
    have hlist : ∀ p, (s.store t b).lists.list p = m.list p := by
      intro p
      have hother : ∀ u ≠ t, own xs t fr rc ce (.free u) = xs (.free u) ∧
          own xs t fr rc ce (.recover u) = xs (.recover u) := by
        intro u hut
        simp [own, hut]
      cases p with
      | free u =>
        by_cases hut : u = t
        · simp only [SharedAllocator.store, hut, if_true, hm]
          rfl
        · simp only [SharedAllocator.store, hut, if_false]
          rw [I.rep.list, r.list, (hother u hut).1]
      | recover u =>
        by_cases hut : u = t
        · simp only [SharedAllocator.store, hut, if_true, hm]
          rfl
        · simp only [SharedAllocator.store, hut, if_false]
          rw [I.rep.list, r.list, (hother u hut).2]
      | central =>
        simp only [SharedAllocator.store, hm]
        rfl
    have hnext : (s.store t b).lists.next = m.next := by
      change b.lists.next = _
      rw [hm]
      rfl
    cases hs : (s.store t b).lists with
    | mk list next =>
      rw [hs] at hlist hnext
      cases m with
      | mk list' next' =>
        obtain rfl : list = list' := funext hlist
        obtain rfl : next = next' := hnext
        rfl
  refine ⟨own xs t fr rc ce, os', by rw [hlists]; exact r, G.sees.mem, fun f hf => ?_,
    G.stock.congr rfl rfl rfl rfl, G.central_full, fun u => ?_⟩
  · exact G.sees.fresh f hf
  · by_cases hut : u = t
    · subst hut
      simp only [SharedAllocator.store, Function.update_self, hthread, own, if_true]
      exact ⟨rfl, G.lt, G.counted, hne⟩
    · have hcache := I.cache u
      simp only [SharedAllocator.store, Function.update_of_ne hut, own, hut, if_false]
      cases hu : s.thread u with
      | none =>
        rw [hu] at hcache
        exact hcache
      | some v =>
        rw [hu] at hcache
        obtain ⟨hfactor, hlt, C, hsome⟩ := hcache
        have hfree : ∀ g ∈ xs (.free u), os' g = os g := fun g hg => hapart u hut g (.inl hg)
        have hrec : ∀ g ∈ xs (.recover u), os' g = os g := fun g hg => hapart u hut g (.inr hg)
        exact ⟨hfactor, hlt, C.congr hfree hrec, hsome⟩

/-- The objects on the lists, by the blocks their free lists were made with. -/
theorem coe_flatMap_nodup {fs : List ℕ} (h : fs.Nodup) :
    (fs.flatMap os : Multiset Obj) = ∑ f ∈ fs.toFinset, (os f : Multiset Obj) := by
  induction fs with
  | nil => rfl
  | cons f fs ih =>
    obtain ⟨hf, hfs⟩ := List.nodup_cons.mp h
    rw [List.flatMap_cons, ← Multiset.coe_add, ih hfs, List.toFinset_cons,
      Finset.sum_insert (by simpa using hf)]

omit [DecidableEq T] in
theorem SharedInv.exact [Fintype T] (I : SharedInv s n out xs os) : s.Exact out := by
  have hobj : ∀ {p f}, f ∈ xs p → s.objects f = os f := by
    intro p f hf
    exact I.stock.objects_eq ((I.mem f).mpr ⟨p, hf⟩)
  have hlist : ∀ p : SharedPlace T, ((s.lists.nodes p).flatMap s.objects : Multiset Obj) =
      ∑ f ∈ (xs p).toFinset, (os f : Multiset Obj) := by
    intro p
    rw [I.rep.nodes, List.flatMap_congr fun f hf => hobj hf, coe_flatMap_nodup (I.rep.nodup p)]
  have hdisj : Set.PairwiseDisjoint (Finset.univ : Finset (SharedPlace T)) fun p => (xs p).toFinset := by
    intro p _ q _ hpq
    exact List.disjoint_toFinset_iff_disjoint.mpr (I.rep.disjoint p q hpq)
  have hall : Finset.univ.biUnion (fun p => (xs p).toFinset) = Finset.range s.blocks := by
    ext f
    simp [I.mem f]
  rw [SharedAllocator.Exact, Finset.sum_congr rfl fun p _ => hlist p, ← Finset.sum_biUnion hdisj, hall,
    show defaultBlockSize / s.objSize = n from I.stock.objSize.2.1]
  exact I.stock.split

/-- **A call** in a run: it returns and keeps the invariant if the thread is ready. -/
theorem sharedStep_inv {s : SharedState T} {op : T × Op}
    (I : ∃ xs os, SharedInv s.alloc n s.out xs os) (hop : Outstanding s op) (hready : Ready s op) :
    ∃ s', sharedStep s op = .ok s' ∧ ∃ xs os, SharedInv s'.alloc n s'.out xs os := by
  obtain ⟨xs, os, I⟩ := I
  obtain ⟨t, op⟩ := op
  have hcache := I.cache t
  cases op with
  | alloc =>
    obtain ⟨x, b, halloc, h⟩ : ∃ x b, blockObjAlAlloc (s.alloc.view t) = .ok (x, b) ∧
        Leaves t b n (insert x s.out) xs os := by
      cases hthread : s.alloc.thread t with
      | none =>
        rw [hthread] at hcache
        have C : Counted n 0 (xs (.free t)) (xs (.recover t)) os := by
          rw [hcache.1, hcache.2]
          exact ⟨rfl, by simp, by simp, by simp⟩
        obtain ⟨x, b, h, -, hleaves⟩ :=
          Good.threadAllocatorAlloc (v := ⟨0, 2 * n⟩)
            (I.good t C (show (0 : ℕ) < 0x100000000 by decide)) rfl
        refine ⟨x, b, ?_, hleaves⟩
        have hsize : (s.alloc.view t).objSize = s.alloc.pool.objSize := rfl
        have hnone : (s.alloc.view t).thread = none := hthread
        rw [blockObjAlAlloc, hnone, createThreadAllocator, hsize, if_neg I.stock.objSize.1,
          I.stock.objSize.2.2]
        exact h
      | some v =>
        rw [hthread] at hcache
        obtain ⟨x, b, h, -, hleaves⟩ :=
          Good.threadAllocatorAlloc (I.good t hcache.2.2.1 hcache.2.1) hcache.1
        refine ⟨x, b, ?_, hleaves⟩
        rw [blockObjAlAlloc, show (s.alloc.view t).thread = some v from hthread]
        exact h
    refine ⟨⟨s.alloc.store t b, insert x s.out⟩, ?_, I.store h⟩
    rw [sharedStep, SharedAllocator.blockObjAlAlloc, halloc]
    rfl
  | dealloc x =>
    obtain ⟨v, hthread, hlt⟩ := hready
    rw [hthread] at hcache
    obtain ⟨hfactor, hsize, C, hsome⟩ := hcache
    obtain ⟨b, hdealloc, h⟩ := (I.good t C hsize).threadAllocatorDealloc hfactor hlt hsome hop
    refine ⟨⟨s.alloc.store t b, s.out.erase x⟩, ?_, I.store h⟩
    rw [sharedStep, SharedAllocator.blockObjAlDealloc, BlockObjAllocator.blockObjAlDealloc,
      show (s.alloc.view t).thread = some v from hthread]
    simp only [hdealloc, Exec.ok_bind]
    rfl
  | write x v =>
    have hx : x ∈ s.out := hop
    refine ⟨_, rfl, xs, os, I.rep, I.mem, I.fresh, ⟨I.stock.pos, I.stock.small, I.stock.objSize,
      fun f hf => ?_, I.stock.split⟩, I.central_full, I.cache⟩
    obtain ⟨C, h⟩ := I.stock.chain f hf
    refine ⟨⟨C.head, C.tail, C.linked.congr fun y hy => Function.update_of_ne ?_ ..⟩, h⟩
    rintro rfl
    exact split_out I.stock.split hf hx hy

omit [DecidableEq T] in
/-- A new allocator for objects of at most one megabyte. -/
theorem createShared_inv {objSize : ℕ} (objNext : Obj → Option Obj) (hmax : objSize ≤ 0x100000) :
    ∃ n xs os, SharedInv (createSharedAllocator T objSize objNext) n ∅ xs os := by
  obtain ⟨n, fr, rc, ce, os, size, -, S, -, -⟩ := @create_inv objSize objNext hmax
  refine ⟨n, fun _ => [], os, ⟨fun _ => trivial, fun _ => rfl, fun _ => List.nodup_nil,
    fun _ _ _ => by simp⟩, fun f => ?_, fun _ _ => rfl, S.stock.congr rfl rfl rfl rfl, by simp,
    fun t => ⟨rfl, rfl⟩⟩
  simp [createSharedAllocator]

/-- A thread that frees without a thread allocator makes the assertion fail. -/
theorem sharedStep_assertion {s : SharedState T} {op : T × Op} (h : ¬ HasAllocator s op) :
    ∃ f, sharedStep s op = .error f ∧ ¬ False := by
  obtain ⟨t, op⟩ := op
  cases op with
  | alloc => exact absurd trivial h
  | dealloc x =>
    have hnone : (s.alloc.view t).thread = none := Option.not_isSome_iff_eq_none.mp h
    refine ⟨.assertion, ?_, id⟩
    rw [sharedStep, SharedAllocator.blockObjAlDealloc, BlockObjAllocator.blockObjAlDealloc, hnone]
    rfl
  | write x v => exact absurd trivial h

/-- **Objects freed by other threads.** For objects of at most one megabyte, in every run that frees
only outstanding objects: if every thread that frees an object has allocated one before, and can count
one more free object, no assertion fails and no object is lost. If a thread frees an object and has
allocated none before, the assertion fails. -/
theorem sharedSafe_of_ready [Fintype T] {objSize : ℕ} {objNext : Obj → Option Obj} {ops : List (T × Op)}
    (hsize : 1 ≤ objSize ∧ objSize ≤ 0x100000)
    (hproper : Exec.BeforeEach sharedStep Outstanding ⟨createSharedAllocator T objSize objNext, ∅⟩ ops) :
    (Exec.BeforeEach sharedStep Ready ⟨createSharedAllocator T objSize objNext, ∅⟩ ops →
      SharedSafe ⟨createSharedAllocator T objSize objNext, ∅⟩ ops) ∧
    (SharedSafe ⟨createSharedAllocator T objSize objNext, ∅⟩ ops →
      Exec.BeforeEach sharedStep HasAllocator ⟨createSharedAllocator T objSize objNext, ∅⟩ ops) := by
  constructor
  · intro hready
    obtain ⟨n, I⟩ := createShared_inv (T := T) objNext hsize.2
    refine Exec.always_of_beforeEach (I := fun s => ∃ xs os, SharedInv s.alloc n s.out xs os) ?_ ?_ I
      (hproper.and hready)
    · rintro s ⟨xs, os, I⟩
      exact I.exact
    · rintro s op I ⟨hop, hready⟩
      exact sharedStep_inv I hop hready
  · intro hsafe
    exact Exec.beforeEach_of_faultsOnly (fun s op => sharedStep_assertion) hsafe.2

/-- Objects of half a megabyte: the second thread frees three objects of the first one, which makes
its first list longer than a block. -/
theorem sharedSafe_three_objects :
    SharedSafe ⟨createSharedAllocator (Fin 2) 0x80000 (fun _ => none), ∅⟩
      [(0, .alloc), (0, .alloc), (0, .alloc), (1, .alloc), (1, .dealloc (0, 0)), (1, .dealloc (0, 1)),
        (1, .dealloc (1, 0)), (0, .dealloc (2, 0)), (1, .alloc)] :=
  (sharedSafe_of_ready (T := Fin 2) (by decide) (by decide +kernel)).1 (by decide +kernel)

/-- An object of one thread is freed by another that has allocated none. -/
theorem not_sharedSafe_first_call :
    Exec.BeforeEach sharedStep Outstanding
        ⟨createSharedAllocator (Fin 2) 0x80000 (fun _ => none), ∅⟩ [(0, .alloc), (1, .dealloc (0, 0))] ∧
      ¬ SharedSafe ⟨createSharedAllocator (Fin 2) 0x80000 (fun _ => none), ∅⟩
        [(0, .alloc), (1, .dealloc (0, 0))] := by
  refine ⟨by decide +kernel, fun hsafe => ?_⟩
  have hhas := Exec.beforeEach_of_faultsOnly (fun s op => sharedStep_assertion) hsafe.2
  exact absurd hhas (by decide +kernel)

end Kendylib.BlockObjAllocator
