import Kendylib.Alloc.ThreadAllocatorsRuns
import Kendylib.Foundations.Freeing
import Mathlib.Data.List.Pairwise

/-!
# Destroying the block allocator

`destroy_block_obj_al` of `src/block_obj_allocator.c`, for an allocator of several threads (`mt = 1`).
It goes along `_thread_allocators`, where `create_thread_allocator` has put every thread allocator, and
along the free lists of each, and then along the list of the central allocator. The nodes of these lists
are themselves what is freed, so that `next` has to be read before.

An allocator can be destroyed after any run: each block of objects, each free list and each thread
allocator is freed once, nothing that has been freed is read, and nothing is left (`destroysOnce_of_ready`).
Objects that are still handed out lie in the blocks and are gone with them.
-/

namespace Kendylib.BlockObjAllocator

open Lists Freeing

variable {T : Type}

/-- A piece of memory that the allocator has from `malloc` or `calloc`. -/
inductive Piece (T : Type)
  /-- `mem`, a block of objects. -/
  | mem (f : ℕ)
  /-- A `struct free_list`. -/
  | flist (f : ℕ)
  /-- A `struct link_list` of free lists. -/
  | list (p : SharedPlace T)
  /-- A `struct thread_allocator`. -/
  | thread (t : T)
  /-- The `struct link_list` of thread allocators. -/
  | threads
  /-- The mutex of the lock. -/
  | mutex
  /-- The lock around the central list. -/
  | lock
  /-- The `struct block_obj_allocator`. -/
  | allocator
  deriving DecidableEq

/-- A run with `_thread_allocators`. -/
structure Listed (T : Type) where
  run : SharedState T
  threads : Lists Unit T

section Code

variable [DecidableEq T]

/-- `create_thread_allocator` puts a new thread allocator on the list. -/
def register (s : Listed T) : T × Op → Exec (Lists Unit T)
  | (t, .alloc) =>
    match s.run.alloc.thread t with
    | none => s.threads.linkListPushBack () t
    | some _ => .ok s.threads
  | _ => .ok s.threads

/-- A call of a thread. -/
def listedStep (s : Listed T) (call : T × Op) : Exec (Listed T) := do
  let threads ← register s call
  return ⟨← sharedStep s.run call, threads⟩

/-- `create_block_obj_allocator` with `mt = 1`. -/
def createListed (T : Type) (objSize : ℕ) (objNext : Obj → Option Obj) : Listed T :=
  ⟨⟨createSharedAllocator T objSize objNext, ∅⟩, ⟨fun _ => .empty, fun _ => none⟩⟩

/-- `release_freelist`. -/
def releaseFreelist (s : Listed T) (fuel : ℕ) (p : SharedPlace T) (freed : List (Piece T)) :
    Exec (List (Piece T)) := do
  get freed (.list p)
  drain s.run.alloc.lists.next .flist (fun f freed => do free (.flist f) (← free (.mem f) freed))
    fuel (s.run.alloc.lists.list p).head freed

/-- `destroy_thread_allocator`. -/
def destroyThreadAllocator (s : Listed T) (fuel : ℕ) (t : T) (freed : List (Piece T)) :
    Exec (List (Piece T)) := do
  get freed (.thread t)
  let freed ← releaseFreelist s fuel (.free t) freed
  get freed (.thread t)
  let freed ← releaseFreelist s fuel (.recover t) freed
  get freed (.thread t)
  let freed ← free (.list (.free t)) freed
  get freed (.thread t)
  let freed ← free (.list (.recover t)) freed
  free (.thread t) freed

/-- `destroy_block_obj_al`: the pieces that are freed. -/
def destroyBlockObjAl (s : Listed T) (fuel : ℕ) (freed : List (Piece T)) : Exec (List (Piece T)) := do
  get freed .allocator
  get freed .threads
  let freed ← drain s.threads.next .thread (destroyThreadAllocator s fuel) fuel
    (s.threads.list ()).head freed
  get freed .allocator
  let freed ← free .threads freed
  get freed .allocator
  let freed ← releaseFreelist s fuel .central freed
  get freed .allocator
  let freed ← free (.list .central) freed
  get freed .allocator
  get freed .lock
  let freed ← free .mutex freed
  let freed ← free .lock freed
  free .allocator freed

end Code

/-- The pieces of memory that an allocator has. -/
def Listed.Has (s : Listed T) : Piece T → Prop
  | .mem f | .flist f => f < s.run.alloc.blocks
  | .list (.free t) | .list (.recover t) | .thread t => (s.run.alloc.thread t).isSome
  | .list .central | .threads | .mutex | .lock | .allocator => True

/-- The destructor returns, reads nothing that it has freed, and frees every piece of the allocator once
and nothing else. -/
def DestroysOnce [DecidableEq T] (s : Listed T) : Prop :=
  ∃ (fuel : ℕ) (pieces : List (Piece T)), destroyBlockObjAl s fuel [] = .ok pieces ∧ pieces.Nodup ∧
    ∀ p, p ∈ pieces ↔ s.Has p

/-! ## The pieces, in the order they are freed -/

variable {s : Listed T} {xs : SharedPlace T → List ℕ} {ts : List T} {fuel : ℕ}

/-- The pieces of a free list. -/
def flistPieces (f : ℕ) : List (Piece T) := [.mem f, .flist f]

/-- The pieces of a thread allocator. -/
def threadPieces (xs : SharedPlace T → List ℕ) (t : T) : List (Piece T) :=
  (xs (.free t)).flatMap flistPieces ++ ((xs (.recover t)).flatMap flistPieces ++
    [.list (.free t), .list (.recover t), .thread t])

/-- The pieces of an allocator. -/
def allPieces (xs : SharedPlace T → List ℕ) (ts : List T) : List (Piece T) :=
  ts.flatMap (threadPieces xs) ++ (.threads :: ((xs .central).flatMap flistPieces ++
    [.list .central, .mutex, .lock, .allocator]))

theorem Linked.follows {N : Type} {next : N → Option N} {ns : List N} (h : Linked next ns) :
    Follows next ns.head? ns := by
  induction ns with
  | nil => rfl
  | cons n ns ih =>
    refine ⟨rfl, ?_⟩
    rw [h.1]
    exact ih h.2

variable [DecidableEq T]

/-- A list is released while the `link_list` is still to be freed. -/
theorem frees_releaseFreelist {p : SharedPlace T} {ps : List (Piece T)}
    {rest : List (Piece T) → Exec (List (Piece T))} (r : s.run.alloc.lists.Represents xs)
    (hfuel : (xs p).length ≤ fuel) (hp : .list p ∈ ps) (hrest : Frees rest ps) :
    Frees (fun freed => releaseFreelist s fuel p freed >>= rest)
      ((xs p).flatMap flistPieces ++ ps) := by
  have hdispose : ∀ f : ℕ, Frees
      (fun freed => do free (Piece.flist (T := T) f) (← free (.mem f) freed)) (flistPieces f) :=
    fun f => (Frees.free _).seq (Frees.free _)
  have hdrain := Frees.drain (Linked.follows (r.linked p))
    (fun f => (by simp [flistPieces] : Piece.flist f ∈ flistPieces f)) (fun f _ => hdispose f) hfuel
  intro freed hnodup
  simp only [releaseFreelist, r.list, bind_assoc]
  exact (hdrain.seq hrest).get (List.mem_append_right _ hp) freed hnodup

/-- A piece is freed while another, which is freed later, is read first. -/
theorem frees_cons {p q : Piece T} {ps : List (Piece T)}
    {rest : List (Piece T) → Exec (List (Piece T))} (hq : q ∈ ps) (hrest : Frees rest ps) :
    Frees (fun freed => do get freed q; rest (← free p freed)) (p :: ps) :=
  ((Frees.free p).seq hrest).get (List.mem_cons_of_mem p hq)

theorem frees_destroyThreadAllocator (r : s.run.alloc.lists.Represents xs)
    (hfuel : ∀ p, (xs p).length ≤ fuel) (t : T) :
    Frees (destroyThreadAllocator s fuel t) (threadPieces xs t) := by
  have hlists : Frees (fun freed => do
      get freed (.thread t)
      let freed ← free (.list (.free t)) freed
      get freed (.thread t)
      let freed ← free (.list (.recover t)) freed
      free (.thread t) freed) [Piece.list (.free t), .list (.recover t), .thread t] :=
    frees_cons (by simp) (frees_cons (by simp) (Frees.free _))
  have hrecover := frees_releaseFreelist r (hfuel (.recover t)) (by simp) hlists
  have hrest := hrecover.get (p := Piece.thread t) (by simp)
  exact (frees_releaseFreelist r (hfuel (.free t)) (by simp) hrest).get (by simp)

theorem frees_destroyBlockObjAl (r : s.run.alloc.lists.Represents xs)
    (hthreads : s.threads.Represents fun _ => ts) (hfuel : ∀ p, (xs p).length ≤ fuel)
    (hts : ts.length ≤ fuel) : Frees (destroyBlockObjAl s fuel) (allPieces xs ts) := by
  have hlock : Frees (fun freed => do
      get freed .allocator
      let freed ← free (.list .central) freed
      get freed .allocator
      get freed .lock
      let freed ← free .mutex freed
      let freed ← free .lock freed
      free .allocator freed) [Piece.list (.central : SharedPlace T), .mutex, .lock, .allocator] :=
    frees_cons (by simp) ((frees_cons (by simp)
      ((Frees.free _).seq (Frees.free _))).get (by simp))
  have hcentral := frees_releaseFreelist r (hfuel .central) (by simp) hlock
  have hrest := frees_cons (p := .threads) (q := .allocator) (by simp)
    (hcentral.get (p := .allocator) (by simp))
  have hdrain : Frees (drain s.threads.next Piece.thread (destroyThreadAllocator s fuel) fuel
      (s.threads.list ()).head) (ts.flatMap (threadPieces xs)) := by
    rw [hthreads.list]
    exact Frees.drain (Linked.follows (hthreads.linked ())) (fun t => by simp [threadPieces])
      (fun t _ => frees_destroyThreadAllocator r hfuel t) hts
  exact ((hdrain.seq hrest).get (by simp)).get (by simp)

/-! ## Each piece once -/

variable {n : ℕ} {out : Finset Obj} {os : ℕ → List Obj}

omit [DecidableEq T] in
@[simp] theorem mem_flistPieces {p : Piece T} {f : ℕ} :
    p ∈ flistPieces f ↔ p = .mem f ∨ p = .flist f := by
  simp [flistPieces]

omit [DecidableEq T] in
theorem nodup_flatMap_flistPieces {fs : List ℕ} (h : fs.Nodup) :
    (fs.flatMap (flistPieces (T := T))).Nodup := by
  refine List.nodup_flatMap.mpr ⟨fun f _ => by simp [flistPieces], ?_⟩
  refine h.pairwise_of_forall_ne fun f _ g _ hfg p hf hg => ?_
  rw [mem_flistPieces] at hf hg
  rcases hf with rfl | rfl <;> rcases hg with hg | hg <;> cases hg <;> exact hfg rfl

omit [DecidableEq T] in
theorem mem_threadPieces {p : Piece T} {t : T} : p ∈ threadPieces xs t ↔ match p with
    | .mem f | .flist f => f ∈ xs (.free t) ∨ f ∈ xs (.recover t)
    | .list (.free u) | .list (.recover u) | .thread u => u = t
    | _ => False := by
  cases p with
  | list p => cases p <;> simp [threadPieces]
  | _ => simp [threadPieces]

omit [DecidableEq T] in
theorem mem_allPieces {p : Piece T} : p ∈ allPieces xs ts ↔ match p with
    | .mem f | .flist f => (∃ t ∈ ts, f ∈ xs (.free t) ∨ f ∈ xs (.recover t)) ∨ f ∈ xs .central
    | .list (.free t) | .list (.recover t) | .thread t => t ∈ ts
    | _ => True := by
  cases p with
  | list p => cases p <;> simp [allPieces, mem_threadPieces]
  | _ => simp [allPieces, mem_threadPieces]

omit [DecidableEq T] in
theorem nodup_threadPieces (r : s.run.alloc.lists.Represents xs) (t : T) :
    (threadPieces xs t).Nodup := by
  have hlists : [Piece.list (.free t), .list (.recover t), .thread t].Nodup := by simp
  refine List.nodup_append'.mpr ⟨nodup_flatMap_flistPieces (r.nodup _),
    List.nodup_append'.mpr ⟨nodup_flatMap_flistPieces (r.nodup _), hlists, ?_⟩, ?_⟩
  · intro p hp
    obtain ⟨f, -, rfl | rfl⟩ := by simpa using hp
    all_goals simp
  · intro p hp hq
    have hdisj := r.disjoint (.free t) (.recover t) (by simp)
    obtain ⟨f, hf, rfl | rfl⟩ := by simpa using hp
    all_goals exact hdisj hf (by simpa using hq)

omit [DecidableEq T] in
theorem disjoint_threadPieces (r : s.run.alloc.lists.Represents xs) {t u : T} (htu : t ≠ u) :
    List.Disjoint (threadPieces xs t) (threadPieces xs u) := by
  have hdisj : ∀ f, f ∈ xs (.free t) ∨ f ∈ xs (.recover t) →
      ¬ (f ∈ xs (.free u) ∨ f ∈ xs (.recover u)) := by
    intro f hf hg
    rcases hf with hf | hf <;> rcases hg with hg | hg <;>
      exact r.disjoint _ _ (by simp [htu]) hf hg
  intro p hp hq
  rw [mem_threadPieces] at hp hq
  cases p with
  | mem f => exact hdisj f hp hq
  | flist f => exact hdisj f hp hq
  | thread v => exact htu (hp.symm.trans hq)
  | list p =>
    cases p with
    | central => exact hp
    | _ v => exact htu (hp.symm.trans hq)
  | _ => exact hp

omit [DecidableEq T] in
theorem nodup_allPieces (r : s.run.alloc.lists.Represents xs) (hts : ts.Nodup) :
    (allPieces xs ts).Nodup := by
  have hthreads : (ts.flatMap (threadPieces xs)).Nodup :=
    List.nodup_flatMap.mpr ⟨fun t _ => nodup_threadPieces r t,
      hts.pairwise_of_forall_ne fun t _ u _ htu => disjoint_threadPieces r htu⟩
  have hcentral : ((xs .central).flatMap flistPieces ++
      [Piece.list (.central : SharedPlace T), .mutex, .lock, .allocator]).Nodup := by
    refine List.nodup_append'.mpr ⟨nodup_flatMap_flistPieces (r.nodup _), by simp, ?_⟩
    intro p hp
    obtain ⟨f, -, rfl | rfl⟩ := by simpa using hp
    all_goals simp
  refine List.nodup_append'.mpr ⟨hthreads, List.nodup_cons.mpr ⟨by simp, hcentral⟩, ?_⟩
  intro p hp hq
  obtain ⟨t, -, hp⟩ := List.mem_flatMap.mp hp
  rw [mem_threadPieces] at hp
  have hdisj : ∀ f, f ∈ xs (.free t) ∨ f ∈ xs (.recover t) → f ∉ xs .central := by
    intro f hf hg
    rcases hf with hf | hf <;> exact r.disjoint _ _ (by simp) hf hg
  cases p with
  | mem f => exact hdisj f hp (by simpa using hq)
  | flist f => exact hdisj f hp (by simpa using hq)
  | list p =>
    cases p with
    | central => exact hp
    | _ v => simp at hq
  | thread v => simp at hq
  | _ => exact hp

/-! ## Runs -/

/-- The list of thread allocators in a run. -/
structure Registered (s : Listed T) (ts : List T) : Prop where
  rep : s.threads.Represents fun _ => ts
  fresh : ∀ t, t ∉ ts → s.threads.next t = none
  mem : ∀ t, t ∈ ts ↔ (s.run.alloc.thread t).isSome

theorem SharedInv.destroysOnce (I : SharedInv s.run.alloc n out xs os) (R : Registered s ts) :
    DestroysOnce s := by
  have hlength : ∀ p, (xs p).length ≤ s.run.alloc.blocks := by
    intro p
    have hsub : (xs p).toFinset ⊆ Finset.range s.run.alloc.blocks := fun f hf =>
      Finset.mem_range.mpr ((I.mem f).mpr ⟨p, List.mem_toFinset.mp hf⟩)
    rw [← List.toFinset_card_of_nodup (I.rep.nodup p), ← Finset.card_range s.run.alloc.blocks]
    exact Finset.card_le_card hsub
  have hfrees := frees_destroyBlockObjAl I.rep R.rep
    (fun p => (hlength p).trans (Nat.le_add_right _ ts.length)) (Nat.le_add_left _ _)
  have hnodup := nodup_allPieces I.rep (R.rep.nodup ())
  refine ⟨_, allPieces xs ts, hfrees.all hnodup, hnodup, fun p => ?_⟩
  -- A thread without an allocator has no free list.
  have hblock : ∀ f, (∃ t ∈ ts, f ∈ xs (.free t) ∨ f ∈ xs (.recover t)) ∨ f ∈ xs .central ↔
      f < s.run.alloc.blocks := by
    intro f
    rw [I.mem]
    constructor
    · rintro (⟨t, -, hf | hf⟩ | hf)
      all_goals exact ⟨_, hf⟩
    · have hthread : ∀ t, f ∈ xs (.free t) ∨ f ∈ xs (.recover t) → t ∈ ts := by
        intro t hf
        have hcache := I.cache t
        rw [R.mem]
        cases h : s.run.alloc.thread t with
        | some v => rfl
        | none =>
          rw [h] at hcache
          rw [hcache.1, hcache.2] at hf
          simp at hf
      rintro ⟨p, hf⟩
      cases p with
      | free t => exact .inl ⟨t, hthread t (.inl hf), .inl hf⟩
      | recover t => exact .inl ⟨t, hthread t (.inr hf), .inr hf⟩
      | central => exact .inr hf
  rw [mem_allPieces]
  cases p with
  | mem f => exact hblock f
  | flist f => exact hblock f
  | thread t => exact R.mem t
  | list p =>
    cases p with
    | central => exact Iff.rfl
    | _ t => exact R.mem t
  | _ => exact Iff.rfl

/-! ## The list of thread allocators -/

variable {a b : Allocator} {v : ThreadAllocator} {x : Obj} {f : ℕ} {p : Place} {t : T}

theorem pop_thread {o : Option ℕ} (h : pop a p = .ok (o, b)) : b.thread = a.thread := by
  obtain ⟨⟨o', lists⟩, -, h⟩ := Exec.bind_eq_ok.mp h
  cases h
  rfl

theorem pushBack_thread (h : pushBack a p f = .ok b) : b.thread = a.thread := by
  obtain ⟨lists, -, h⟩ := Exec.bind_eq_ok.mp h
  cases h
  rfl

theorem threadAllocatorAlloc_thread (h : threadAllocatorAlloc a v = .ok (x, b)) :
    b.thread.isSome := by
  obtain ⟨⟨f, a₁, v₁⟩, -, h⟩ := Exec.bind_eq_ok.mp h
  obtain ⟨⟨y, a₂⟩, -, h⟩ := Exec.bind_eq_ok.mp h
  dsimp only at h
  split at h
  · obtain ⟨⟨o, a₃⟩, hpop, h⟩ := Exec.bind_eq_ok.mp h
    obtain ⟨a₄, hpush, h⟩ := Exec.bind_eq_ok.mp h
    cases h
    rw [pushBack_thread hpush, pop_thread hpop]
    rfl
  · cases h
    rfl

theorem threadAllocatorDealloc_thread (h : threadAllocatorDealloc a v x = .ok b) :
    b.thread.isSome := by
  rw [threadAllocatorDealloc] at h
  split at h
  · dsimp only at h
    split at h
    · obtain ⟨⟨o, a₁⟩, -, h⟩ := Exec.bind_eq_ok.mp h
      dsimp only at h
      split at h
      all_goals
        obtain ⟨a₂, -, h⟩ := Exec.bind_eq_ok.mp h
        cases h
        rfl
    · cases h
      rfl
  · split at h
    · cases h
    · cases h
      rfl

/-- The threads that have an allocator after a call. -/
theorem sharedStep_thread {s s' : SharedState T} {op : Op} (h : sharedStep s (t, op) = .ok s') (u : T) :
    (s'.alloc.thread u).isSome ↔ (s.alloc.thread u).isSome ∨ (u = t ∧ op = .alloc) := by
  cases op with
  | alloc =>
    obtain ⟨⟨x, a⟩, halloc, h⟩ := Exec.bind_eq_ok.mp h
    obtain ⟨⟨y, b⟩, hb, ha⟩ := Exec.bind_eq_ok.mp halloc
    cases h
    cases ha
    have hsome : b.thread.isSome := by
      rw [BlockObjAllocator.blockObjAlAlloc] at hb
      split at hb
      · exact threadAllocatorAlloc_thread hb
      · obtain ⟨v, -, hb⟩ := Exec.bind_eq_ok.mp hb
        exact threadAllocatorAlloc_thread hb
    by_cases hut : u = t <;> simp [SharedAllocator.store, hut, hsome]
  | dealloc x =>
    obtain ⟨a, hdealloc, h⟩ := Exec.bind_eq_ok.mp h
    obtain ⟨b, hb, ha⟩ := Exec.bind_eq_ok.mp hdealloc
    cases h
    cases ha
    rw [BlockObjAllocator.blockObjAlDealloc] at hb
    split at hb
    · rename_i v hv
      have hsome := threadAllocatorDealloc_thread hb
      have hold : (s.alloc.thread t).isSome := by
        rw [show s.alloc.thread t = some v from hv]
        rfl
      by_cases hut : u = t
      · subst hut
        simp [SharedAllocator.store, hsome, hold]
      · simp [SharedAllocator.store, hut]
    · cases hb
  | write x v =>
    cases h
    simp

/-- **A new thread allocator** is put at the end of the list, and no other call changes it. -/
theorem Registered.register {op : Op} {s' : SharedState T} (R : Registered s ts)
    (h : sharedStep s.run (t, op) = .ok s') :
    ∃ threads ts', BlockObjAllocator.register s (t, op) = .ok threads ∧ Registered ⟨s', threads⟩ ts' := by
  have hthread := sharedStep_thread h
  by_cases hnew : op = .alloc ∧ s.run.alloc.thread t = none
  · obtain ⟨rfl, hnone⟩ := hnew
    have ht : t ∉ ts := by simp [R.mem, hnone]
    obtain ⟨threads, hpush, hrep, hother⟩ := R.rep.pushBack () (fun _ => ht) (R.fresh t ht)
    have hlist : Function.update (fun _ => ts) () (ts ++ [t]) = fun _ => ts ++ [t] := by
      funext i
      exact Function.update_self ..
    refine ⟨threads, ts ++ [t], ?_, hlist ▸ hrep, fun u hu => ?_, fun u => ?_⟩
    · simp only [BlockObjAllocator.register, hnone]
      exact hpush
    · rw [List.mem_append, not_or] at hu
      exact (hother u fun _ => hu.1).trans (R.fresh u hu.1)
    · rw [hthread u, List.mem_append, List.mem_singleton, R.mem]
      simp
  · refine ⟨s.threads, ts, ?_, R.rep, R.fresh, fun u => ?_⟩
    · cases op with
      | alloc =>
        obtain ⟨v, hv⟩ := Option.ne_none_iff_exists'.mp fun h => hnew ⟨rfl, h⟩
        simp only [BlockObjAllocator.register, hv]
      | _ => rfl
    · rw [hthread u, R.mem]
      refine ⟨.inl, fun h => h.elim id ?_⟩
      rintro ⟨rfl, rfl⟩
      exact Option.isSome_iff_ne_none.mpr fun h => hnew ⟨rfl, h⟩

/-- Only objects that are outstanding are freed or written to. -/
def Listed.Outstanding (s : Listed T) : T × Op → Prop := BlockObjAllocator.Outstanding s.run

/-- A thread that frees an object has allocated one before, and can count one more free object. -/
def Listed.Ready (s : Listed T) : T × Op → Prop := BlockObjAllocator.Ready s.run

instance (s : Listed T) (call : T × Op) : Decidable (s.Outstanding call) :=
  inferInstanceAs (Decidable (BlockObjAllocator.Outstanding s.run call))

instance (s : Listed T) (call : T × Op) : Decidable (s.Ready call) :=
  inferInstanceAs (Decidable (BlockObjAllocator.Ready s.run call))

/-- An allocator in a run. -/
def Listed.Inv (n : ℕ) (s : Listed T) : Prop :=
  (∃ xs os, SharedInv s.run.alloc n s.run.out xs os) ∧ ∃ ts, Registered s ts

theorem listedStep_inv {call : T × Op} (I : s.Inv n) (hout : s.Outstanding call)
    (hready : s.Ready call) : ∃ s', listedStep s call = .ok s' ∧ s'.Inv n := by
  obtain ⟨hinv, ts, R⟩ := I
  obtain ⟨run, hrun, hinv'⟩ := sharedStep_inv hinv hout hready
  obtain ⟨t, op⟩ := call
  obtain ⟨threads, ts', hregister, R'⟩ := R.register hrun
  refine ⟨⟨run, threads⟩, ?_, hinv', ts', R'⟩
  rw [listedStep, hregister, hrun]
  rfl

/-- **Destroying the allocator.** For objects of at most one megabyte, in every run of the threads that
frees only outstanding objects, and where every thread that frees has allocated and can count one more
free object: no call fails, and the allocator can be destroyed in every state of the run, with every
piece of memory that it has freed once, nothing else freed, and nothing read that has been freed. -/
theorem destroysOnce_of_ready {objSize : ℕ} {objNext : Obj → Option Obj} {calls : List (T × Op)}
    (hsize : objSize ≤ 0x100000)
    (hproper : Exec.BeforeEach listedStep Listed.Outstanding (createListed T objSize objNext) calls)
    (hready : Exec.BeforeEach listedStep Listed.Ready (createListed T objSize objNext) calls) :
    Exec.Always listedStep DestroysOnce (createListed T objSize objNext) calls ∧
      Exec.FaultsOnly listedStep (fun _ _ _ => False) (createListed T objSize objNext) calls := by
  obtain ⟨n, hinv⟩ := createShared_inv (T := T) objNext hsize
  have R : Registered (createListed T objSize objNext) [] :=
    ⟨⟨fun _ => trivial, fun _ => rfl, fun _ => List.nodup_nil, fun i j hij => absurd rfl hij⟩,
      fun _ _ => rfl, fun t => by simp [createListed, createSharedAllocator]⟩
  refine Exec.always_of_beforeEach (I := Listed.Inv n) ?_ ?_ ⟨hinv, [], R⟩ (hproper.and hready)
  · rintro s ⟨⟨xs, os, I⟩, ts, R⟩
    exact I.destroysOnce R
  · rintro s call I ⟨hout, hready⟩
    exact listedStep_inv I hout hready

/-- Objects of half a megabyte, of two threads, some of which are freed by the other. -/
theorem destroysOnce_of_ready_two_threads :
    Exec.Always listedStep DestroysOnce (createListed (Fin 2) 0x80000 fun _ => none)
        [(0, .alloc), (1, .alloc), (0, .alloc), (1, .dealloc (0, 0)), (0, .dealloc (1, 0))] ∧
      Exec.FaultsOnly listedStep (fun _ _ _ => False) (createListed (Fin 2) 0x80000 fun _ => none)
        [(0, .alloc), (1, .alloc), (0, .alloc), (1, .dealloc (0, 0)), (0, .dealloc (1, 0))] :=
  destroysOnce_of_ready (by decide) (by decide +kernel) (by decide +kernel)

end Kendylib.BlockObjAllocator
