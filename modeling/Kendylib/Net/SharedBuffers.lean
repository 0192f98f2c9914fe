import Kendylib.Foundations.Run
import Kendylib.Net.Buffer
import Mathlib.Algebra.BigOperators.Group.Finset.Basic
import Mathlib.Data.Fintype.Basic

/-!
# Buffers shared by threads

The reference counts of `src/refbase.c` on the buffers of `src/buffer.c` that are made with `mt`, for
any number of threads. `ATOMIC_INCREASE` and `ATOMIC_DECREASE` are one step each, and so is every other
access to a buffer that another thread can reach: between the `ATOMIC_DECREASE` that drops the last
reference and the `FREE` of the buffer the thread looks at the value, reads `next`, and drops that
reference in the same way, and the other threads go on meanwhile. What a thread has still to do is its
list of `Task`s, the innermost call first.

A thread holds references. It makes buffers, links a new one behind a buffer that has none, takes a
reference to a buffer that it can reach, passes a reference on to another thread, and releases one
(`Allowed`). A buffer that is held is then in memory with all that is behind it, no buffer is accessed
or freed behind its `FREE`, and when no thread holds or releases any, all are freed
(`shared_of_allowed`).

Behind each atomic decrement that finds the last reference, the buffer is out of the heap that the
threads see, and the reference of its link is owned by the thread that destroys it. What is left is a
heap whose counts are exact for what the threads own.
-/

namespace Kendylib.SharedBuffers

open RefHeap Buffer

/-- A 32-bit sum as a signed number. -/
def addInt32 (x y : ℤ) : ℤ := Int.bmod (x + y) 0x100000000

theorem addInt32_eq {x y : ℤ} (h : -0x80000000 ≤ x + y) (h' : x + y < 0x80000000) :
    addInt32 x y = x + y := by
  unfold addInt32
  rw [Int.bmod_def]
  split_ifs <;> omega

/-! ## The calls -/

/-- What a thread does next in a `buffer_release`. -/
inductive Task
  /-- `ref_decrease`, before `ATOMIC_DECREASE`. -/
  | decrease (a : ℕ)
  /-- `ref_decrease`, with what `ATOMIC_DECREASE` has returned. -/
  | test (a : ℕ) (v : ℤ)
  /-- `buffer_destroy`, behind the `buffer_release` of `next`, which has cleared it. -/
  | free (a : ℕ)
  deriving DecidableEq

/-- `ref_increase`. -/
def refIncrease (h : Heap) (a : ℕ) : Exec Heap := do
  let c ← h.get a
  return h.put a { c with refcount := addInt32 c.refcount 1 }

/-- `ATOMIC_DECREASE`, and the value that it returns. -/
def atomicDecrease (h : Heap) (a : ℕ) : Exec (Heap × ℤ) := do
  let c ← h.get a
  let v := addInt32 c.refcount (-1)
  return (h.put a { c with refcount := v }, v)

/-- What `buffer_destroy` has to do. -/
def bufferDestroy (h : Heap) (a : ℕ) : Exec (List Task) := do
  let c ← h.get a
  return match c.next with
    | some n => [.decrease n, .free a]
    | none => [.free a]

/-- A thread goes on with what it has to do. -/
def act (h : Heap) : List Task → Exec (Heap × List Task)
  | [] => .ok (h, [])
  | .decrease a :: ts => do
    let (h, v) ← atomicDecrease h a
    return (h, .test a v :: ts)
  | .test a v :: ts => if v ≤ 0 then do return (h, (← bufferDestroy h a) ++ ts) else .ok (h, ts)
  | .free a :: ts => do return (← h.free a, ts)

/-! ## Threads -/

/-- The memory, the references that the threads hold and what they have to do. -/
structure State (T : Type) where
  heap : Heap
  held : T → Multiset ℕ
  tasks : T → List Task

inductive Event (T : Type)
  /-- `buffer_create_and_acquire`. -/
  | create (t : T) (capacity : ℕ)
  /-- `a->next = buffer_create_and_acquire(mt,NULL,capacity)`. -/
  | extend (t : T) (a capacity : ℕ)
  /-- `ref_increase`, as `buffer_acquire` calls it. -/
  | acquire (t : T) (a : ℕ)
  /-- `buffer_release` is called. -/
  | release (t : T) (a : ℕ)
  /-- A reference is passed on. -/
  | pass (t u : T) (a : ℕ)
  /-- The thread goes on in `buffer_release`. -/
  | act (t : T)

variable {T : Type}

def step [DecidableEq T] (s : State T) : Event T → Exec (State T)
  | .create t capacity => do
    let (h, a) ← bufferCreateAndAcquire s.heap capacity
    return { s with heap := h, held := Function.update s.held t (a ::ₘ s.held t) }
  | .extend _ a capacity => do
    let (h, n) ← bufferCreateAndAcquire s.heap capacity
    return { s with heap := ← h.setNext a n }
  | .acquire t a => do
    let h ← refIncrease s.heap a
    return { s with heap := h, held := Function.update s.held t (a ::ₘ s.held t) }
  | .release t a => .ok { s with
      held := Function.update s.held t ((s.held t).erase a)
      tasks := Function.update s.tasks t [.decrease a] }
  | .pass t u a =>
    let held := Function.update s.held t ((s.held t).erase a)
    .ok { s with held := Function.update held u (a ::ₘ held u) }
  | .act t => do
    let (h, ts) ← act s.heap (s.tasks t)
    return { s with heap := h, tasks := Function.update s.tasks t ts }

/-- No memory and no references. -/
def start : State T := ⟨RefHeap.empty, fun _ => 0, fun _ => []⟩

/-- The buffers that a walk along the links finds, from `a` on. -/
def chain (h : Heap) : ℕ → ℕ → List ℕ
  | 0, _ => []
  | fuel + 1, a => a :: ((h.next a).map (chain h fuel)).getD []

/-- The thread holds a buffer from which it can walk to `a`. -/
def Finds (s : State T) (t : T) (a : ℕ) : Prop := ∃ b ∈ s.held t, a ∈ chain s.heap s.heap.fresh b

/-- What a thread may do outside of `buffer_release`. A new buffer is linked behind one that has none
behind it, and no count goes beyond 32 bits. -/
def Allowed (s : State T) : Event T → Prop
  | .create t capacity => s.tasks t = [] ∧ headerSize + capacity < 0x100000000
  | .extend t a capacity => s.tasks t = [] ∧ Finds s t a ∧ s.heap.next a = none ∧
    headerSize + capacity < 0x100000000
  | .acquire t a => s.tasks t = [] ∧ Finds s t a ∧
    ∀ c ∈ s.heap.cell a, c.refcount + 1 < 0x80000000
  | .release t a => s.tasks t = [] ∧ a ∈ s.held t
  | .pass t _ a => a ∈ s.held t
  | .act _ => True

/-- What a thread holds is in memory with all that is behind it, and nothing is left when nothing is
held and no thread is in a `buffer_release`. -/
structure Shared (s : State T) : Prop where
  held : ∀ t, ∀ a ∈ s.held t, ∀ b, Reach s.heap a b → ∃ c, s.heap.cell b = some c
  freed : (∀ t, s.held t = 0 ∧ s.tasks t = []) → ∀ a, s.heap.cell a = none

/-! ## What the threads own -/

/-- The references that a thread owns by what it has to do. -/
def Task.owned (h : Heap) : Task → Multiset ℕ
  | .decrease a => {a}
  | .test a v => if v ≤ 0 then refs (h.next a) else 0
  | .free _ => 0

/-- The buffers to which there are no references any more. -/
def Task.doomed : Task → Multiset ℕ
  | .decrease _ => 0
  | .test a v => if v ≤ 0 then {a} else 0
  | .free a => {a}

def ownedBy (h : Heap) (ts : List Task) : Multiset ℕ := (ts.map (Task.owned h)).sum

def doomedBy (ts : List Task) : Multiset ℕ := (ts.map Task.doomed).sum

theorem ownedBy_cons (h : Heap) (k : Task) (ts : List Task) :
    ownedBy h (k :: ts) = k.owned h + ownedBy h ts := by simp [ownedBy]

theorem doomedBy_cons (k : Task) (ts : List Task) :
    doomedBy (k :: ts) = k.doomed + doomedBy ts := by simp [doomedBy]

/-- The references depend on the links of the doomed buffers only. -/
theorem ownedBy_congr {h h' : Heap} {ts : List Task}
    (hnext : ∀ a ∈ doomedBy ts, h'.next a = h.next a) : ownedBy h' ts = ownedBy h ts := by
  induction ts with
  | nil => rfl
  | cons k ts ih =>
    rw [doomedBy_cons] at hnext
    rw [ownedBy_cons, ownedBy_cons, ih fun a ha => hnext a (Multiset.mem_add.mpr (.inr ha))]
    congr 1
    cases k with
    | decrease a => rfl
    | test a v =>
      rw [Task.owned, Task.owned]
      split_ifs with hv
      · rw [hnext a (Multiset.mem_add.mpr (.inl (by simp [Task.doomed, hv])))]
      · rfl
    | free a => rfl

/-- The links are the same when only a count has changed. -/
theorem next_put {g : Heap} {a : ℕ} {c d : Cell Block} (hc : g.cell a = some c) (hn : d.next = c.next)
    (x : ℕ) : (g.put a d).next x = g.next x := by
  by_cases hx : x = a
  · rw [hx, next, put_self, next_eq hc]
    exact hn
  · rw [next, put_of_ne hx, next]

variable [Fintype T]

/-- The references that the threads own. -/
def owned (s : State T) : Multiset ℕ := ∑ t, (s.held t + ownedBy s.heap (s.tasks t))

def doomed (s : State T) : Multiset ℕ := ∑ t, doomedBy (s.tasks t)

variable {s s' : State T} {t : T} {a : ℕ} {h : Heap}

theorem mem_owned (ha : a ∈ s.held t + ownedBy s.heap (s.tasks t)) : a ∈ owned s :=
  Multiset.mem_sum.mpr ⟨t, Finset.mem_univ t, ha⟩

theorem mem_doomed (ha : a ∈ doomedBy (s.tasks t)) : a ∈ doomed s :=
  Multiset.mem_sum.mpr ⟨t, Finset.mem_univ t, ha⟩

/-! ## The invariant -/

/-- The heap `h` is the memory without the doomed buffers. Its counts are exact for the references that
the threads own. -/
structure Inv (s : State T) (h : Heap) : Prop where
  exact : Exact h (owned s)
  fresh : s.heap.fresh = h.fresh
  same : ∀ a, a ∉ doomed s → s.heap.cell a = h.cell a
  gone : ∀ a ∈ doomed s, h.cell a = none
  there : ∀ a ∈ doomed s, a < h.fresh ∧ ∃ c, s.heap.cell a = some c
  nodup : (doomed s).Nodup
  small : ∀ a c, h.cell a = some c → c.refcount < 0x80000000

variable {c d : Cell Block} {m b n : ℕ}

/-- A buffer with references is not doomed. -/
theorem Inv.live (I : Inv s h) (hc : h.cell a = some c) : a ∉ doomed s ∧ s.heap.cell a = some c := by
  have hnot : a ∉ doomed s := by
    intro ha
    rw [I.gone a ha] at hc
    cases hc
  exact ⟨hnot, (I.same a hnot).trans hc⟩

theorem Inv.bound (I : Inv s h) (hc : s.heap.cell a = some c) (ha : a ∉ doomed s) : h.cell a = some c :=
  (I.same a ha).symm.trans hc

/-- What is behind a buffer with references has references. -/
theorem Inv.reach (I : Inv s h) (hab : Reach s.heap a b) (ha : ∃ c, h.cell a = some c) :
    ∃ c, h.cell b = some c := by
  induction hab with
  | refl a => exact ha
  | step hc hn _ ih =>
    obtain ⟨d, hd⟩ := ha
    obtain rfl := Option.some.inj (hc.symm.trans (I.live hd).2)
    exact ih (I.exact.next_live hd hn).2

theorem Inv.held (I : Inv s h) (ha : a ∈ s.held t) : ∃ c, h.cell a = some c :=
  I.exact.live (mem_owned (Multiset.mem_add.mpr (.inl ha)))

theorem reach_of_mem_chain {fuel : ℕ} {g : Heap} (hb : b ∈ chain g fuel a)
    (hlive : ∀ x, Reach g a x → ∃ c, g.cell x = some c) : Reach g a b := by
  induction fuel generalizing a with
  | zero => cases hb
  | succ fuel ih =>
    rw [chain] at hb
    obtain rfl | hb := List.mem_cons.mp hb
    · exact .refl b
    · obtain ⟨c, hc⟩ := hlive a (.refl a)
      cases hn : c.next with
      | none =>
        rw [next_eq hc, hn] at hb
        cases hb
      | some n =>
        rw [next_eq hc, hn] at hb
        exact .step hc hn (ih hb fun x hx => hlive x (.step hc hn hx))

/-- **A thread finds** only buffers that have references. -/
theorem Inv.finds (I : Inv s h) (hf : Finds s t a) : ∃ c, h.cell a = some c := by
  obtain ⟨b, hb, hab⟩ := hf
  have hlive : ∀ x, Reach s.heap b x → ∃ c, h.cell x = some c := fun x hx => I.reach hx (I.held hb)
  refine hlive a (reach_of_mem_chain hab fun x hx => ?_)
  obtain ⟨c, hc⟩ := hlive x hx
  exact ⟨c, (I.live hc).2⟩

/-- A buffer with references has another count or another link. -/
theorem Inv.put (I : Inv s h) (hc : h.cell a = some c) (d : Cell Block) {own : Multiset ℕ}
    (E : Exact (h.put a d) own) (hsmall : d.refcount < 0x80000000) (hheap : s'.heap = s.heap.put a d)
    (hdoomed : doomed s' = doomed s) (howned : owned s' = own) : Inv s' (h.put a d) := by
  have ha := (I.live hc).1
  have hsame : ∀ x, x ∉ doomed s → (s.heap.put a d).cell x = (h.put a d).cell x := by
    intro x hx
    by_cases hxa : x = a
    · rw [hxa, put_self, put_self]
    · rw [put_of_ne hxa, put_of_ne hxa, I.same x hx]
  refine ⟨howned ▸ E, by rw [hheap]; exact I.fresh, by rw [hheap, hdoomed]; exact hsame, ?_, ?_,
    by rw [hdoomed]; exact I.nodup, ?_⟩
  · intro x hx
    rw [hdoomed] at hx
    rw [put_of_ne (by rintro rfl; exact ha hx), I.gone x hx]
  · intro x hx
    rw [hdoomed] at hx
    rw [hheap, put_of_ne (by rintro rfl; exact ha hx)]
    exact I.there x hx
  · intro x e he
    by_cases hxa : x = a
    · subst hxa
      rw [put_self, Option.some.injEq] at he
      exact he ▸ hsmall
    · exact I.small x e (by rwa [put_of_ne hxa] at he)

/-- The threads have exchanged references or tasks. -/
theorem Inv.congr (I : Inv s h) (hheap : s'.heap = s.heap) (hdoomed : doomed s' = doomed s)
    (howned : owned s' = owned s) : Inv s' h := by
  refine ⟨howned ▸ I.exact, hheap ▸ I.fresh, ?_, ?_, ?_, hdoomed ▸ I.nodup, I.small⟩
  · rw [hheap, hdoomed]
    exact I.same
  · rw [hdoomed]
    exact I.gone
  · rw [hheap, hdoomed]
    exact I.there

theorem inv_start : Inv (start : State T) RefHeap.empty := by
  have howned : owned (start : State T) = 0 := by simp [owned, start, ownedBy]
  have hdoomed : doomed (start : State T) = 0 := by simp [doomed, start, doomedBy]
  refine ⟨howned ▸ exact_empty, rfl, fun _ _ => rfl, ?_, ?_, ?_, fun a c hc => ?_⟩
  · simp [hdoomed]
  · simp [hdoomed]
  · simp [hdoomed]
  · cases hc

/-- A link of a buffer leads there. -/
theorem exists_of_mem_links {g : Heap} (ha : a ∈ g.links) :
    ∃ b c, g.cell b = some c ∧ c.next = some a := by
  obtain ⟨m, hm, ham⟩ := Multiset.mem_join.mp ha
  obtain ⟨b, -, rfl⟩ := Multiset.mem_map.mp hm
  obtain ⟨c, hc, hn⟩ : ∃ c, g.cell b = some c ∧ c.next = some a := by
    cases hc : g.cell b with
    | none =>
      rw [next, hc] at ham
      cases ham
    | some c =>
      rw [next_eq hc] at ham
      cases hn : c.next with
      | none =>
        rw [hn] at ham
        cases ham
      | some x =>
        rw [hn] at ham
        exact ⟨c, rfl, hn.trans (congrArg some (Multiset.mem_singleton.mp ham).symm)⟩
  exact ⟨b, c, hc, hn⟩

theorem Inv.shared (I : Inv s h) : Shared s := by
  refine ⟨fun t a ha b hab => ?_, fun hquiet => ?_⟩
  · obtain ⟨c, hc⟩ := I.reach hab (I.held ha)
    exact ⟨c, (I.live hc).2⟩
  · have howned : owned s = 0 := Finset.sum_eq_zero fun t _ => by
      rw [(hquiet t).1, (hquiet t).2]
      rfl
    have hdoomed : doomed s = 0 := Finset.sum_eq_zero fun t _ => by
      rw [(hquiet t).2]
      rfl
    have E := I.exact
    rw [howned] at E
    intro a
    rw [I.same a (by simp [hdoomed])]
    -- a reference to the oldest buffer would be the link of an older one
    induction a using Nat.strong_induction_on with
    | _ a ih =>
      by_contra hne
      obtain ⟨c, hc⟩ := Option.ne_none_iff_exists'.mp hne
      have hpos := E.pos a c hc
      rw [zero_add, Multiset.count_pos] at hpos
      obtain ⟨b, d, hd, hn⟩ := exists_of_mem_links hpos
      rw [ih b (E.up b d a hd hn)] at hd
      cases hd

/-! ## What a thread changes -/

variable [DecidableEq T]

/-- The sums after one thread has changed. -/
theorem sum_change {f g : T → Multiset ℕ} (t : T) (hfg : ∀ u, u ≠ t → g u = f u) :
    ∑ u, g u + f t = ∑ u, f u + g t := by
  rw [← Finset.sum_erase_add _ g (Finset.mem_univ t), ← Finset.sum_erase_add _ f (Finset.mem_univ t),
    Finset.sum_congr rfl fun u hu => hfg u (Finset.ne_of_mem_erase hu)]
  abel

theorem owned_change (s s' : State T) (t : T) (hheld : ∀ u, u ≠ t → s'.held u = s.held u)
    (htasks : ∀ u, u ≠ t → s'.tasks u = s.tasks u)
    (hnext : ∀ u, u ≠ t → ∀ a ∈ doomedBy (s.tasks u), s'.heap.next a = s.heap.next a) :
    owned s' + (s.held t + ownedBy s.heap (s.tasks t)) =
      owned s + (s'.held t + ownedBy s'.heap (s'.tasks t)) :=
  sum_change (f := fun u => s.held u + ownedBy s.heap (s.tasks u))
    (g := fun u => s'.held u + ownedBy s'.heap (s'.tasks u)) t fun u hu => by
      simp only [hheld u hu, htasks u hu, ownedBy_congr (hnext u hu)]

theorem doomed_change (s s' : State T) (t : T) (htasks : ∀ u, u ≠ t → s'.tasks u = s.tasks u) :
    doomed s' + doomedBy (s.tasks t) = doomed s + doomedBy (s'.tasks t) :=
  sum_change (f := fun u => doomedBy (s.tasks u)) (g := fun u => doomedBy (s'.tasks u)) t
    fun u hu => by simp only [htasks u hu]

/-! ## Going on in `buffer_release` -/

/-- **`ATOMIC_DECREASE`.** -/
theorem Inv.decrease (I : Inv s h) {ts : List Task} (hts : s.tasks t = .decrease a :: ts) :
    ∃ g v h', act s.heap (s.tasks t) = .ok (g, .test a v :: ts) ∧
      Inv { s with heap := g, tasks := Function.update s.tasks t (.test a v :: ts) } h' := by
  have hmem : a ∈ owned s := mem_owned (t := t) (by
    rw [hts, ownedBy_cons]
    exact Multiset.mem_add.mpr (.inr (Multiset.mem_add.mpr (.inl (Multiset.mem_singleton_self a)))))
  obtain ⟨own, hown⟩ := Multiset.exists_cons_of_mem hmem
  obtain ⟨c, hc⟩ := I.exact.live hmem
  obtain ⟨hnot, hmc⟩ := I.live hc
  have hcount := I.exact.count a c hc
  have hpos := I.exact.pos a c hc
  have hsmall := I.small a c hc
  have hv : addInt32 c.refcount (-1) = c.refcount - 1 := addInt32_eq (by omega) (by omega)
  have hact : act s.heap (s.tasks t) = .ok (s.heap.put a { c with refcount := c.refcount - 1 },
      .test a (c.refcount - 1) :: ts) := by
    rw [hts, act, atomicDecrease, get_eq hmc, Exec.ok_bind, hv]
    rfl
  generalize hd : ({ c with refcount := c.refcount - 1 } : Cell Block) = d at hact
  have hdn : d.next = c.next := by rw [← hd]
  refine ⟨s.heap.put a d, c.refcount - 1, ?_⟩
  obtain ⟨s', hs'⟩ : ∃ s' : State T, s' = { s with
      heap := s.heap.put a d
      tasks := Function.update s.tasks t (.test a (c.refcount - 1) :: ts) } := ⟨_, rfl⟩
  have htasks : ∀ u, u ≠ t → s'.tasks u = s.tasks u := fun u hu => by
    rw [hs']
    exact Function.update_of_ne hu ..
  have htask : s'.tasks t = .test a (c.refcount - 1) :: ts := by
    rw [hs']
    exact Function.update_self ..
  have hnext : ∀ x, s'.heap.next x = s.heap.next x := fun x => by rw [hs', next_put hmc hdn]
  have hheld : s'.held = s.held := by rw [hs']
  -- the reference that is dropped is replaced by that of the link if it was the last one
  have howned : owned s' = Task.owned s'.heap (.test a (c.refcount - 1)) + own := by
    have hch := owned_change s s' t (fun u _ => by rw [hheld]) htasks
      fun u _ x _ => hnext x
    rw [hts, htask, ownedBy_cons, ownedBy_cons, hown, hheld,
      ownedBy_congr (h := s.heap) (fun x _ => hnext x)] at hch
    refine add_right_cancel (b := {a} + (s.held t + ownedBy s.heap ts)) ?_
    rw [← Multiset.singleton_add] at hch
    calc owned s' + ({a} + (s.held t + ownedBy s.heap ts))
        = owned s' + (s.held t + ({a} + ownedBy s.heap ts)) := by abel
      _ = {a} + own + (s.held t + (Task.owned s'.heap (.test a (c.refcount - 1)) +
            ownedBy s.heap ts)) := hch
      _ = _ := by abel
  have hdoomed : doomed s' = Task.doomed (.test a (c.refcount - 1)) + doomed s := by
    have hch := doomed_change s s' t htasks
    rw [hts, htask, doomedBy_cons, doomedBy_cons, Task.doomed, zero_add] at hch
    refine add_right_cancel (b := doomedBy ts) ?_
    rw [hch]
    abel
  rw [← hs']
  by_cases hlast : c.refcount = 1
  · -- the last reference: the buffer is doomed
    have E := (hown ▸ I.exact).erase hc hlast
    have hnext' : s'.heap.next a = c.next := (hnext a).trans (next_eq hmc)
    rw [Task.owned, if_pos (by omega), hnext'] at howned
    rw [Task.doomed, if_pos (by omega), Multiset.singleton_add] at hdoomed
    have hsame : ∀ x, x ≠ a → s'.heap.cell x = s.heap.cell x := fun x hx => by
      rw [hs']
      exact put_of_ne hx
    refine ⟨h.withCell a none, hact, howned ▸ E, by rw [hs']; exact I.fresh, ?_, ?_, ?_, ?_, ?_⟩
    · intro x hx
      rw [hdoomed, Multiset.mem_cons, not_or] at hx
      rw [hsame x hx.1, withCell_of_ne hx.1, I.same x hx.2]
    · intro x hx
      by_cases hxa : x = a
      · simp [hxa, withCell]
      · rw [withCell_of_ne hxa]
        exact I.gone x ((Multiset.mem_cons.mp (hdoomed ▸ hx)).resolve_left hxa)
    · intro x hx
      by_cases hxa : x = a
      · rw [hxa, hs']
        exact ⟨I.exact.bound a c hc, d, put_self⟩
      · rw [hsame x hxa]
        exact I.there x ((Multiset.mem_cons.mp (hdoomed ▸ hx)).resolve_left hxa)
    · rw [hdoomed]
      exact Multiset.nodup_cons.mpr ⟨hnot, I.nodup⟩
    · intro x e he
      by_cases hxa : x = a
      · simp [hxa, withCell] at he
      · exact I.small x e (by rwa [withCell_of_ne hxa] at he)
  · rw [Task.owned, if_neg (by omega), zero_add] at howned
    rw [Task.doomed, if_neg (by omega), zero_add] at hdoomed
    have hlinks : (h.put a d).links = h.links := links_put_of_next (I.exact.bound a c hc) hc hdn
    have hdr : d.refcount = c.refcount - 1 := by rw [← hd]
    have E : Exact (h.put a d) own := by
      refine I.exact.put hc (fun x hx => ?_) ?_ (by omega) fun n hn => I.exact.up a c n hc (hdn ▸ hn)
      · rw [hlinks, hown, Multiset.cons_add, Multiset.count_cons_of_ne hx]
      · rw [hown, Multiset.cons_add, Multiset.count_cons_self] at hcount
        rw [hlinks, hdr]
        omega
    exact ⟨h.put a d, hact, I.put hc d E (by omega) (by rw [hs']) hdoomed howned⟩

/-- A thread has exchanged references for tasks, and nothing else. -/
theorem Inv.exchange (I : Inv s h) (hheap : s'.heap = s.heap)
    (hheld : ∀ u, u ≠ t → s'.held u = s.held u) (htasks : ∀ u, u ≠ t → s'.tasks u = s.tasks u)
    (howned : s'.held t + ownedBy s.heap (s'.tasks t) = s.held t + ownedBy s.heap (s.tasks t))
    (hdoomed : doomedBy (s'.tasks t) = doomedBy (s.tasks t)) : Inv s' h := by
  refine I.congr hheap ?_ ?_
  · have hch := doomed_change s s' t htasks
    rw [hdoomed] at hch
    exact add_right_cancel hch
  · have hch := owned_change s s' t hheld htasks fun u _ x _ => by rw [hheap]
    rw [hheap, howned] at hch
    exact add_right_cancel hch

/-- **The test**, and the beginning of `buffer_destroy`. -/
theorem Inv.test (I : Inv s h) {v : ℤ} {ts : List Task} (hts : s.tasks t = .test a v :: ts) :
    ∃ ts', act s.heap (s.tasks t) = .ok (s.heap, ts') ∧
      Inv { s with tasks := Function.update s.tasks t ts' } h := by
  have hinv : ∀ ts' : List Task, ownedBy s.heap ts' = ownedBy s.heap (s.tasks t) →
      doomedBy ts' = doomedBy (s.tasks t) →
        Inv { s with tasks := Function.update s.tasks t ts' } h := by
    intro ts' howned hdoomed
    refine I.exchange (t := t) rfl (fun _ _ => rfl) (fun u hu => Function.update_of_ne hu ..) ?_ ?_
    · simp [howned]
    · simp [hdoomed]
  rw [hts, act]
  split_ifs with hv
  · have hmem : a ∈ doomed s := mem_doomed (t := t) (by simp [hts, doomedBy_cons, Task.doomed, hv])
    obtain ⟨-, c, hc⟩ := I.there a hmem
    cases hn : c.next with
    | none =>
      refine ⟨[.free a] ++ ts, by simp [bufferDestroy, get_eq hc, hn], hinv _ ?_ ?_⟩
      · simp [hts, ownedBy_cons, Task.owned, hv, next_eq hc, hn]
      · simp [hts, doomedBy_cons, Task.doomed, hv]
    | some n =>
      refine ⟨[.decrease n, .free a] ++ ts, by simp [bufferDestroy, get_eq hc, hn], hinv _ ?_ ?_⟩
      · simp [hts, ownedBy_cons, Task.owned, hv, next_eq hc, hn]
      · simp [hts, doomedBy_cons, Task.doomed, hv]
  · refine ⟨ts, rfl, hinv ts ?_ ?_⟩
    · simp [hts, ownedBy_cons, Task.owned, hv]
    · simp [hts, doomedBy_cons, Task.doomed, hv]

/-- **`FREE`.** -/
theorem Inv.free (I : Inv s h) {ts : List Task} (hts : s.tasks t = .free a :: ts) :
    ∃ g, act s.heap (s.tasks t) = .ok (g, ts) ∧
      Inv { s with heap := g, tasks := Function.update s.tasks t ts } h := by
  have hmem : a ∈ doomed s := mem_doomed (t := t) (by simp [hts, doomedBy_cons, Task.doomed])
  obtain ⟨hlt, c, hc⟩ := I.there a hmem
  have hfree : s.heap.free a = .ok (s.heap.withCell a none) := by
    rw [RefHeap.free, get_eq hc]
    rfl
  refine ⟨s.heap.withCell a none, by rw [hts, act, hfree]; rfl, ?_⟩
  obtain ⟨s', hs'⟩ : ∃ s' : State T, s' = { s with
      heap := s.heap.withCell a none
      tasks := Function.update s.tasks t ts } := ⟨_, rfl⟩
  have htasks : ∀ u, u ≠ t → s'.tasks u = s.tasks u := fun u hu => by
    rw [hs']
    exact Function.update_of_ne hu ..
  have htask : s'.tasks t = ts := by
    rw [hs']
    exact Function.update_self ..
  have hdoomed : doomed s = a ::ₘ doomed s' := by
    have hch := doomed_change s s' t htasks
    rw [hts, htask, doomedBy_cons, Task.doomed] at hch
    refine add_right_cancel (b := doomedBy ts) ?_
    rw [← hch, ← Multiset.singleton_add]
    abel
  have hnodup := I.nodup
  rw [hdoomed, Multiset.nodup_cons] at hnodup
  have hcell : ∀ x, x ≠ a → s'.heap.cell x = s.heap.cell x := fun x hx => by
    rw [hs']
    exact withCell_of_ne hx
  -- no other doomed buffer is this one, so their links are there
  have hnext : ∀ x ∈ doomed s', s'.heap.next x = s.heap.next x := fun x hx => by
    rw [next, hcell x (by rintro rfl; exact hnodup.1 hx), next]
  have howned : owned s' = owned s := by
    have hch := owned_change s s' t (fun u _ => by rw [hs']) htasks
      fun u hu x hx => hnext x (mem_doomed (t := u) (by rwa [htasks u hu]))
    rw [hts, htask, ownedBy_cons, Task.owned, zero_add,
      ownedBy_congr fun x hx => hnext x (mem_doomed (t := t) (by rwa [htask]))] at hch
    have hheld : s'.held t = s.held t := by rw [hs']
    rw [hheld] at hch
    exact add_right_cancel hch
  rw [← hs']
  refine ⟨howned ▸ I.exact, by rw [hs']; exact I.fresh, fun x hx => ?_, fun x hx => ?_, fun x hx => ?_,
    hnodup.2, I.small⟩
  · by_cases hxa : x = a
    · rw [hxa, I.gone a hmem, hs']
      simp [withCell]
    · rw [hcell x hxa]
      exact I.same x (by rw [hdoomed, Multiset.mem_cons, not_or]; exact ⟨hxa, hx⟩)
  · exact I.gone x (by rw [hdoomed]; exact Multiset.mem_cons_of_mem hx)
  · rw [hcell x (by rintro rfl; exact hnodup.1 hx)]
    exact I.there x (by rw [hdoomed]; exact Multiset.mem_cons_of_mem hx)

/-! ## The calls -/

theorem bufferCreateAndAcquire_eq (g : Heap) (hn : headerSize + n < 0x100000000) :
    bufferCreateAndAcquire g n = .ok (g.alloc ⟨n, 0, List.replicate n 0⟩) := by
  simp only [bufferCreateAndAcquire, add32_of_lt hn]
  rw [if_neg (by omega), Nat.add_sub_cancel_left]

/-- **A new buffer**, held by the thread. -/
theorem Inv.create (I : Inv s h) (t : T) (b : Block) :
    Inv { s with
      heap := (s.heap.alloc b).1
      held := Function.update s.held t (s.heap.fresh ::ₘ s.held t) } (h.alloc b).1 ∧
    owned { s with
      heap := (s.heap.alloc b).1
      held := Function.update s.held t (s.heap.fresh ::ₘ s.held t) } = s.heap.fresh ::ₘ owned s := by
  obtain ⟨s', hs'⟩ : ∃ s' : State T, s' = { s with
      heap := (s.heap.alloc b).1
      held := Function.update s.held t (s.heap.fresh ::ₘ s.held t) } := ⟨_, rfl⟩
  rw [← hs']
  obtain ⟨E, hself, hne⟩ := alloc_spec I.exact b
  have hnone : h.cell h.fresh = none := by
    by_contra hsome
    obtain ⟨c, hc⟩ := Option.ne_none_iff_exists'.mp hsome
    exact (I.exact.bound _ c hc).ne rfl
  have hnot : s.heap.fresh ∉ doomed s := fun hmem => by
    have := (I.there _ hmem).1
    rw [I.fresh] at this
    omega
  have hself' : s'.heap.cell s.heap.fresh = some ⟨1, none, b⟩ := by
    rw [hs']
    exact Function.update_self ..
  have hne' : ∀ x, x ≠ s.heap.fresh → s'.heap.cell x = s.heap.cell x := fun x hx => by
    rw [hs']
    exact Function.update_of_ne hx ..
  have hnext : ∀ x, s'.heap.next x = s.heap.next x := fun x => by
    by_cases hx : x = s.heap.fresh
    · rw [hx, next, hself', next, I.same _ hnot, I.fresh, hnone]
      rfl
    · rw [next, hne' x hx, next]
  have hdoomed : doomed s' = doomed s := by rw [hs']; rfl
  have howned : owned s' = s.heap.fresh ::ₘ owned s := by
    have htasks : s'.tasks = s.tasks := by rw [hs']
    have hch := owned_change s s' t
      (fun u hu => by rw [hs']; exact Function.update_of_ne hu ..) (fun u _ => by rw [htasks])
      fun u _ x _ => hnext x
    have hheld : s'.held t = s.heap.fresh ::ₘ s.held t := by
      rw [hs']
      exact Function.update_self ..
    rw [hheld, htasks, ownedBy_congr (h := s.heap) (fun x _ => hnext x),
      Multiset.cons_add, Multiset.add_cons, ← Multiset.cons_add] at hch
    exact add_right_cancel hch
  refine ⟨⟨?_, ?_, fun x hx => ?_, fun x hx => ?_, fun x hx => ?_, hdoomed ▸ I.nodup, fun x c hc => ?_⟩,
    howned⟩
  · rw [howned, I.fresh]
    exact E
  · rw [hs']
    exact congrArg (· + 1) I.fresh
  · by_cases hxf : x = s.heap.fresh
    · rw [hxf, hself', I.fresh, hself]
    · rw [hne' x hxf, hne x (I.fresh ▸ hxf), I.same x (hdoomed ▸ hx)]
  · have hxf : x ≠ s.heap.fresh := by
      rintro rfl
      exact hnot (hdoomed ▸ hx)
    rw [hne x (I.fresh ▸ hxf), I.gone x (hdoomed ▸ hx)]
  · have hxf : x ≠ s.heap.fresh := by
      rintro rfl
      exact hnot (hdoomed ▸ hx)
    obtain ⟨hlt, c, hc⟩ := I.there x (hdoomed ▸ hx)
    exact ⟨Nat.lt_succ_of_lt hlt, c, by rw [hne' x hxf, hc]⟩
  · by_cases hxf : x = h.fresh
    · rw [hxf, hself, Option.some.injEq] at hc
      rw [← hc]
      change (1 : ℤ) < 0x80000000
      omega
    · exact I.small x c (by rwa [hne x hxf] at hc)

/-- **A new buffer behind another one.** -/
theorem Inv.extend (I : Inv s h) (hf : Finds s t a) (hnone : s.heap.next a = none) (b : Block) :
    ∃ g h', (s.heap.alloc b).1.setNext a s.heap.fresh = .ok g ∧ Inv { s with heap := g } h' := by
  obtain ⟨c, hc⟩ := I.finds hf
  obtain ⟨hnot, hmc⟩ := I.live hc
  obtain ⟨I₁, howned⟩ := I.create t b
  obtain ⟨s₁, hs₁⟩ : ∃ s₁ : State T, s₁ = { s with
      heap := (s.heap.alloc b).1
      held := Function.update s.held t (s.heap.fresh ::ₘ s.held t) } := ⟨_, rfl⟩
  rw [← hs₁] at I₁ howned
  have ha : a ≠ s.heap.fresh := by
    rw [I.fresh]
    exact (I.exact.bound a c hc).ne
  have hc₁ : (h.alloc b).1.cell a = some c := by
    rw [← hc]
    exact Function.update_of_ne (I.fresh ▸ ha) ..
  have hmc₁ : s₁.heap.cell a = some c := (I₁.live hc₁).2
  have hn : c.next = none := by rwa [next_eq hmc] at hnone
  obtain ⟨h', hset, E, rfl⟩ := setNext_spec (howned ▸ I₁.exact) hc₁ hn
    (show a < s.heap.fresh by rw [I.fresh]; exact I.exact.bound a c hc)
  refine ⟨s₁.heap.put a { c with next := some s.heap.fresh }, _, ?_,
    I₁.put hc₁ _ E (I.small a c hc) rfl (by rw [hs₁]; rfl) ?_⟩
  · have hget : (s.heap.alloc b).1.get a = .ok c := get_eq (by rw [hs₁] at hmc₁; exact hmc₁)
    rw [setNext, hget, hs₁]
    rfl
  · -- the reference that the thread held is that of the link
    have hch := owned_change { s with heap := s₁.heap.put a { c with next := some s.heap.fresh } }
      s₁ t (fun u hu => by rw [hs₁]; exact Function.update_of_ne hu ..)
      (fun u _ => by rw [hs₁]) fun u _ x hx => by
        have hxa : x ≠ a := by
          rintro rfl
          exact hnot (mem_doomed hx)
        rw [next, next]
        exact congrArg (Option.bind · _) (put_of_ne hxa).symm
    have htasks : s₁.tasks t = s.tasks t := by rw [hs₁]
    have hheld : s₁.held t = s.heap.fresh ::ₘ s.held t := by
      rw [hs₁]
      exact Function.update_self ..
    have hby : ownedBy s₁.heap (s.tasks t) =
        ownedBy (s₁.heap.put a { c with next := some s.heap.fresh }) (s.tasks t) :=
      ownedBy_congr fun x hx => by
        have hxa : x ≠ a := by
          rintro rfl
          exact hnot (mem_doomed hx)
        rw [next, next, put_of_ne hxa]
    rw [htasks, hheld, hby, howned, Multiset.cons_add, Multiset.cons_add, Multiset.add_cons,
      Multiset.cons_inj_right] at hch
    exact (add_right_cancel hch).symm

/-- **`ref_increase`.** -/
theorem Inv.acquire (I : Inv s h) (hf : Finds s t a)
    (hsmall : ∀ c ∈ s.heap.cell a, c.refcount + 1 < 0x80000000) :
    ∃ g h', refIncrease s.heap a = .ok g ∧
      Inv { s with heap := g, held := Function.update s.held t (a ::ₘ s.held t) } h' := by
  obtain ⟨c, hc⟩ := I.finds hf
  obtain ⟨-, hmc⟩ := I.live hc
  have hlt := hsmall c hmc
  have hcount := I.exact.count a c hc
  have hv : addInt32 c.refcount 1 = c.refcount + 1 := addInt32_eq (by omega) hlt
  obtain ⟨h', hret, E, -⟩ := retain_spec I.exact hc
  rw [retain, get_eq hc] at hret
  obtain rfl := Except.ok.inj hret
  refine ⟨s.heap.put a { c with refcount := c.refcount + 1 }, _, ?_,
    I.put hc _ E hlt rfl rfl ?_⟩
  · rw [refIncrease, get_eq hmc, Exec.ok_bind, hv]
    rfl
  · have hnext : ∀ x, (s.heap.put a { c with refcount := c.refcount + 1 }).next x = s.heap.next x :=
      next_put hmc rfl
    have hch := owned_change s { s with
        heap := s.heap.put a { c with refcount := c.refcount + 1 }
        held := Function.update s.held t (a ::ₘ s.held t) } t
      (fun u hu => Function.update_of_ne hu ..) (fun _ _ => rfl) fun u _ x _ => hnext x
    simp only [Function.update_self, ownedBy_congr (h := s.heap) (fun x _ => hnext x)] at hch
    rw [Multiset.cons_add, Multiset.add_cons, ← Multiset.cons_add] at hch
    exact add_right_cancel hch

/-- **`buffer_release` is called.** -/
theorem Inv.release (I : Inv s h) (htasks : s.tasks t = []) (ha : a ∈ s.held t) :
    Inv { s with
      held := Function.update s.held t ((s.held t).erase a)
      tasks := Function.update s.tasks t [.decrease a] } h := by
  refine I.exchange (t := t) rfl (fun u hu => Function.update_of_ne hu ..)
    (fun u hu => Function.update_of_ne hu ..) ?_ ?_
  · simp only [Function.update_self, htasks, ownedBy_cons, Task.owned]
    rw [← add_assoc, add_comm _ ({a} : Multiset ℕ), Multiset.singleton_add, Multiset.cons_erase ha]
  · simp [htasks, doomedBy, Task.doomed]

/-- **A reference is passed on.** -/
theorem Inv.pass (I : Inv s h) (u : T) (ha : a ∈ s.held t) :
    Inv { s with
      held := Function.update (Function.update s.held t ((s.held t).erase a)) u
        (a ::ₘ Function.update s.held t ((s.held t).erase a) u) } h := by
  refine I.congr rfl rfl ?_
  have h₁ := owned_change s { s with held := Function.update s.held t ((s.held t).erase a) } t
    (fun v hv => Function.update_of_ne hv ..) (fun _ _ => rfl) fun _ _ _ _ => rfl
  have h₂ := owned_change { s with held := Function.update s.held t ((s.held t).erase a) }
    { s with
      held := Function.update (Function.update s.held t ((s.held t).erase a)) u
        (a ::ₘ Function.update s.held t ((s.held t).erase a) u) } u
    (fun v hv => Function.update_of_ne hv ..) (fun _ _ => rfl) fun _ _ _ _ => rfl
  obtain ⟨m, hm⟩ := Multiset.exists_cons_of_mem ha
  simp only [Function.update_self] at h₁ h₂
  rw [hm, Multiset.erase_cons_head, Multiset.cons_add, Multiset.add_cons, ← Multiset.cons_add] at h₁
  rw [Multiset.cons_add, Multiset.add_cons, ← Multiset.cons_add] at h₂
  rw [hm, Multiset.erase_cons_head] at h₂ ⊢
  exact (add_right_cancel h₂).trans (add_right_cancel h₁)

/-! ## Runs -/

/-- **One event.** -/
theorem step_spec (I : Inv s h) {e : Event T} (hA : Allowed s e) :
    ∃ s' h', step s e = .ok s' ∧ Inv s' h' := by
  cases e with
  | create t capacity =>
    refine ⟨_, _, ?_, (I.create t ⟨capacity, 0, List.replicate capacity 0⟩).1⟩
    rw [step, bufferCreateAndAcquire_eq s.heap hA.2]
    rfl
  | extend t a capacity =>
    obtain ⟨-, hf, hnone, hn⟩ := hA
    obtain ⟨g, h', hg, I'⟩ := I.extend hf hnone ⟨capacity, 0, List.replicate capacity 0⟩
    refine ⟨_, h', ?_, I'⟩
    rw [step, bufferCreateAndAcquire_eq s.heap hn]
    change ((s.heap.alloc _).1.setNext a s.heap.fresh >>= fun g => pure { s with heap := g }) = _
    rw [hg]
    rfl
  | acquire t a =>
    obtain ⟨g, h', hg, I'⟩ := I.acquire hA.2.1 hA.2.2
    exact ⟨_, h', by rw [step, hg]; rfl, I'⟩
  | release t a => exact ⟨_, h, rfl, I.release hA.1 hA.2⟩
  | pass t u a => exact ⟨_, h, rfl, I.pass u hA⟩
  | act t =>
    rw [step]
    cases hts : s.tasks t with
    | nil =>
      refine ⟨_, h, rfl, ?_⟩
      rw [← hts, Function.update_eq_self]
      exact I
    | cons k ts =>
      cases k with
      | decrease a =>
        obtain ⟨g, v, h', hact, I'⟩ := I.decrease hts
        exact ⟨_, h', by rw [← hts, hact]; rfl, I'⟩
      | test a v =>
        obtain ⟨ts', hact, I'⟩ := I.test hts
        exact ⟨_, h, by rw [← hts, hact]; rfl, I'⟩
      | free a =>
        obtain ⟨g, hact, I'⟩ := I.free hts
        exact ⟨_, h, by rw [← hts, hact]; rfl, I'⟩

/-- **Buffers shared by threads.** For any number of threads and every interleaving of what they do, in
which each uses the references that it holds: what a thread holds is in memory with all that is behind
it, nothing that has been freed is accessed or freed again, and all is freed when the threads hold
nothing and have come back from their calls. -/
theorem shared_of_allowed (es : List (Event T)) (hA : Exec.BeforeEach step Allowed start es) :
    Exec.Always step Shared start es ∧ Exec.FaultsOnly step (fun _ _ _ => False) start es := by
  refine Exec.always_of_beforeEach (I := fun s => ∃ h, Inv s h) (fun s I => ?_) (fun s e I hA => ?_)
    ⟨_, inv_start⟩ hA
  · obtain ⟨h, I⟩ := I
    exact I.shared
  · obtain ⟨h, I⟩ := I
    obtain ⟨s', h', hs', I'⟩ := step_spec I hA
    exact ⟨s', hs', h', I'⟩

instance decidableFinds (s : State T) (t : T) (a : ℕ) : Decidable (Finds s t a) :=
  Multiset.decidableExistsMultiset

instance (s : State T) (e : Event T) : Decidable (Allowed s e) := by
  cases e <;> unfold Allowed <;> infer_instance

/-- Two buffers in a chain, held by two threads that release them at the same time. -/
def chainRun : List (Event Bool) :=
  [.create false 4, .extend false 0 4, .acquire false 1, .acquire false 0, .pass false true 1,
    .pass false true 0, .release false 0, .release true 0, .act true, .act false, .act true, .act false,
    .act false, .release true 1, .act true, .act false, .act false, .act true, .act true, .act false]

theorem shared_of_allowed_chain : Exec.BeforeEach step Allowed start chainRun ∧
    Exec.Always step Shared start chainRun ∧
    Exec.FaultsOnly step (fun _ _ _ => False) start chainRun :=
  have hA : Exec.BeforeEach step Allowed start chainRun := by decide
  ⟨hA, shared_of_allowed chainRun hA⟩

end Kendylib.SharedBuffers
