import Kendylib.Foundations.Exec
import Mathlib.Algebra.BigOperators.Group.Multiset.Basic
import Mathlib.Data.Multiset.Range
import Mathlib.Logic.Function.Basic
import Mathlib.Tactic.Abel

/-!
# Chained cells with reference counts

A heap of cells, each with a reference count, a link to a next cell and a body. Dropping the last
reference to a cell drops the reference its link is, and so on down the chain, and frees the cells.

The references held outside the heap are a multiset of addresses. `Exact` says that every count is
the number of references there are, that links lead from older cells to newer ones, and that no
cell is left without a reference. Every operation keeps `Exact`, with the references it creates and
takes over (`alloc_spec`, `retain_spec`, `setNext_spec`, `release_spec`); what is reachable from the
references that are left stays as it was (`Keeps`).
-/

namespace Kendylib

/-- A cell. -/
structure Cell (β : Type) where
  refcount : ℤ
  next : Option ℕ
  body : β

/-- The cells in memory; addresses from `fresh` on have not been used. -/
structure RefHeap (β : Type) where
  cell : ℕ → Option (Cell β)
  fresh : ℕ

namespace RefHeap

variable {β : Type} {h h' : RefHeap β} {a b n : ℕ} {c c' : Cell β} {own : Multiset ℕ}

def empty : RefHeap β := ⟨fun _ => none, 0⟩

def get (h : RefHeap β) (a : ℕ) : Exec (Cell β) :=
  match h.cell a with
  | some c => .ok c
  | none => .error .freed

/-- Overwrite a cell. -/
def put (h : RefHeap β) (a : ℕ) (c : Cell β) : RefHeap β :=
  { h with cell := Function.update h.cell a (some c) }

/-- Free a cell. -/
def free (h : RefHeap β) (a : ℕ) : Exec (RefHeap β) := do
  let _ ← h.get a
  return { h with cell := Function.update h.cell a none }

/-- A new cell without a link, and the first reference to it. -/
def alloc (h : RefHeap β) (body : β) : RefHeap β × ℕ :=
  (⟨Function.update h.cell h.fresh (some ⟨1, none, body⟩), h.fresh + 1⟩, h.fresh)

/-- One more reference. -/
def retain (h : RefHeap β) (a : ℕ) : Exec (RefHeap β) := do
  let c ← h.get a
  return h.put a { c with refcount := c.refcount + 1 }

/-- One reference less. The last one drops the reference of the link first and then frees the
cell. -/
def releaseLoop : ℕ → RefHeap β → ℕ → Exec (RefHeap β)
  | 0, _, _ => .error .fuel
  | fuel + 1, h, a => do
    let c ← h.get a
    let h := h.put a { c with refcount := c.refcount - 1 }
    if c.refcount - 1 ≤ 0 then
      let h ← (match c.next with
        | some n => releaseLoop fuel h n
        | none => .ok h)
      h.free a
    else return h

/-- A chain of links is no longer than the number of cells there have been. -/
def release (h : RefHeap β) (a : ℕ) : Exec (RefHeap β) := releaseLoop h.fresh h a

/-- Store a reference in the link of a cell. -/
def setNext (h : RefHeap β) (a n : ℕ) : Exec (RefHeap β) := do
  let c ← h.get a
  return h.put a { c with next := some n }

def setBody (h : RefHeap β) (a : ℕ) (body : β) : Exec (RefHeap β) := do
  let c ← h.get a
  return h.put a { c with body := body }

theorem get_eq (hc : h.cell a = some c) : h.get a = .ok c := by
  rw [get, hc]

theorem get_eq_ok : h.get a = .ok c ↔ h.cell a = some c := by
  rw [get]
  cases h.cell a <;> simp

@[simp] theorem put_fresh : (h.put a c).fresh = h.fresh := rfl

@[simp] theorem put_self : (h.put a c).cell a = some c := Function.update_self ..

theorem put_of_ne (hb : b ≠ a) : (h.put a c).cell b = h.cell b := Function.update_of_ne hb ..

/-! ## Counting references -/

/-- A reference that may be null. -/
def refs : Option ℕ → Multiset ℕ
  | some a => {a}
  | none => 0

@[simp] theorem refs_some : refs (some a) = {a} := rfl

@[simp] theorem refs_none : refs none = 0 := rfl

/-- The link of a cell. -/
def next (h : RefHeap β) (a : ℕ) : Option ℕ := (h.cell a).bind Cell.next

theorem next_eq (hc : h.cell a = some c) : h.next a = c.next := by simp [next, hc]

/-- The references that are links. -/
def links (h : RefHeap β) : Multiset ℕ := ((Multiset.range h.fresh).map fun a => refs (h.next a)).sum

/-- The links after one cell has been changed. -/
theorem links_update {f : ℕ → Option (Cell β)} (ha : a < h.fresh)
    (hf : ∀ b, b ≠ a → f b = h.cell b) :
    (⟨f, h.fresh⟩ : RefHeap β).links + refs (h.next a) =
      h.links + refs ((f a).bind Cell.next) := by
  obtain ⟨s, hs⟩ := Multiset.exists_cons_of_mem (Multiset.mem_range.mpr ha)
  have hnodup := Multiset.nodup_range h.fresh
  rw [hs, Multiset.nodup_cons] at hnodup
  have hrest : (s.map fun b => refs ((⟨f, h.fresh⟩ : RefHeap β).next b)) =
      s.map fun b => refs (h.next b) := by
    refine Multiset.map_congr rfl fun b hb => ?_
    have hba : b ≠ a := by
      rintro rfl
      exact hnodup.1 hb
    simp only [next, hf b hba]
  rw [links, links]
  simp only [hs, Multiset.map_cons, Multiset.sum_cons, hrest]
  simp only [next]
  abel

theorem links_put (ha : a < h.fresh) :
    (h.put a c).links + refs (h.next a) = h.links + refs c.next := by
  have := links_update (h := h) ha (f := (h.put a c).cell) fun b hb => put_of_ne hb
  rwa [put_self, Option.bind_some] at this

/-- The counts are exact for the references `own` held outside the heap. -/
structure Exact (h : RefHeap β) (own : Multiset ℕ) : Prop where
  count : ∀ a c, h.cell a = some c → c.refcount = (own + h.links).count a
  pos : ∀ a c, h.cell a = some c → 0 < (own + h.links).count a
  held : ∀ a ∈ own + h.links, ∃ c, h.cell a = some c
  up : ∀ a c n, h.cell a = some c → c.next = some n → a < n
  bound : ∀ a c, h.cell a = some c → a < h.fresh

theorem mem_links (ha : a < h.fresh) (hn : h.next a = some n) : n ∈ h.links := by
  obtain ⟨s, hs⟩ := Multiset.exists_cons_of_mem (Multiset.mem_range.mpr ha)
  rw [links, hs, Multiset.map_cons, Multiset.sum_cons, hn, refs_some]
  exact Multiset.mem_add.mpr (.inl (Multiset.mem_singleton_self n))

/-- The cell behind a link is in memory. -/
theorem Exact.next_live (E : Exact h own) (hc : h.cell a = some c) (hn : c.next = some n) :
    a < n ∧ ∃ c', h.cell n = some c' := by
  refine ⟨E.up a c n hc hn, E.held n (Multiset.mem_add.mpr (.inr ?_))⟩
  exact mem_links (E.bound a c hc) (by rw [next_eq hc, hn])

theorem Exact.live (E : Exact h own) (ha : a ∈ own) : ∃ c, h.cell a = some c :=
  E.held a (Multiset.mem_add.mpr (.inl ha))

theorem exact_empty : Exact (empty : RefHeap β) 0 where
  count a c hc := by cases hc
  pos a c hc := by cases hc
  held a ha := by simp [links, empty] at ha
  up a c n hc := by cases hc
  bound a c hc := by cases hc

/-- Cells may be freed; what is still in memory has the link and the body it had. -/
structure Keeps (h h' : RefHeap β) : Prop where
  fresh : h'.fresh = h.fresh
  cell : ∀ a c', h'.cell a = some c' → ∃ c, h.cell a = some c ∧ c'.next = c.next ∧ c'.body = c.body

theorem Keeps.refl (h : RefHeap β) : Keeps h h := ⟨rfl, fun _ c hc => ⟨c, hc, rfl, rfl⟩⟩

theorem Keeps.trans {h₁ h₂ h₃ : RefHeap β} (h₁₂ : Keeps h₁ h₂) (h₂₃ : Keeps h₂ h₃) :
    Keeps h₁ h₃ := by
  refine ⟨h₂₃.fresh.trans h₁₂.fresh, fun a c₃ hc₃ => ?_⟩
  obtain ⟨c₂, hc₂, hn₃, hb₃⟩ := h₂₃.cell a c₃ hc₃
  obtain ⟨c₁, hc₁, hn₂, hb₂⟩ := h₁₂.cell a c₂ hc₂
  exact ⟨c₁, hc₁, hn₃.trans hn₂, hb₃.trans hb₂⟩

/-! ## The operations -/

/-- Changing a count, with the link and the body as they were. -/
theorem keeps_put (hc : h.cell a = some c) (hn : c'.next = c.next) (hb : c'.body = c.body) :
    Keeps h (h.put a c') := by
  refine ⟨rfl, fun b d hd => ?_⟩
  by_cases hba : b = a
  · subst hba
    rw [put_self, Option.some.injEq] at hd
    exact ⟨c, hc, by rw [← hd, hn], by rw [← hd, hb]⟩
  · rw [put_of_ne hba] at hd
    exact ⟨d, hd, rfl, rfl⟩

/-- Overwriting a cell: the references that there are afterwards. -/
theorem Exact.put (E : Exact h own) {own' : Multiset ℕ} (hc : h.cell a = some c)
    (htotal : ∀ b, b ≠ a → (own' + (h.put a c').links).count b = (own + h.links).count b)
    (hcount : c'.refcount = (own' + (h.put a c').links).count a) (hpos : 0 < c'.refcount)
    (hup : ∀ n, c'.next = some n → a < n) : Exact (h.put a c') own' := by
  have hself : 0 < (own' + (h.put a c').links).count a := by omega
  refine ⟨fun b d hd => ?_, fun b d hd => ?_, fun b hb => ?_, fun b d n hd hn => ?_, fun b d hd => ?_⟩
  · by_cases hba : b = a
    · subst hba
      rw [put_self, Option.some.injEq] at hd
      rw [← hd, hcount]
    · rw [htotal b hba]
      exact E.count b d (by rwa [put_of_ne hba] at hd)
  · by_cases hba : b = a
    · rwa [hba]
    · rw [htotal b hba]
      exact E.pos b d (by rwa [put_of_ne hba] at hd)
  · by_cases hba : b = a
    · exact ⟨c', by rw [hba, put_self]⟩
    · rw [put_of_ne hba]
      rw [← Multiset.count_pos, htotal b hba, Multiset.count_pos] at hb
      exact E.held b hb
  · by_cases hba : b = a
    · subst hba
      rw [put_self, Option.some.injEq] at hd
      exact hup n (hd ▸ hn)
    · exact E.up b d n (by rwa [put_of_ne hba] at hd) hn
  · by_cases hba : b = a
    · exact hba ▸ E.bound a c hc
    · exact E.bound b d (by rwa [put_of_ne hba] at hd)

theorem links_put_of_next {d : Cell β} (ha : a < h.fresh) (hc : h.cell a = some c)
    (hn : d.next = c.next) : (h.put a d).links = h.links := by
  have := links_put (c := d) ha
  rwa [next_eq hc, hn, add_right_cancel_iff] at this

/-- **One more reference.** -/
theorem retain_spec (E : Exact h own) (hc : h.cell a = some c) :
    ∃ h', h.retain a = .ok h' ∧ Exact h' (a ::ₘ own) ∧ Keeps h h' := by
  have hlinks := links_put_of_next (d := { c with refcount := c.refcount + 1 }) (E.bound a c hc) hc rfl
  refine ⟨h.put a { c with refcount := c.refcount + 1 }, by rw [retain, get_eq hc]; rfl,
    E.put hc ?_ ?_ ?_ fun n => E.up a c n hc, keeps_put hc rfl rfl⟩
  · intro b hb
    rw [hlinks, Multiset.cons_add, Multiset.count_cons_of_ne hb]
  · rw [hlinks, Multiset.cons_add, Multiset.count_cons_self, Nat.cast_add_one, E.count a c hc]
  · have := E.count a c hc
    have : 0 < c.refcount + 1 := by omega
    exact this

/-- **Storing a reference** in the link of a cell that had none. -/
theorem setNext_spec (E : Exact h (n ::ₘ own)) (hc : h.cell a = some c) (hnone : c.next = none)
    (hup : a < n) :
    ∃ h', h.setNext a n = .ok h' ∧ Exact h' own ∧ h' = h.put a { c with next := some n } := by
  refine ⟨_, by rw [setNext, get_eq hc]; rfl, ?_, rfl⟩
  have hlinks := links_put (c := { c with next := some n }) (E.bound a c hc)
  rw [next_eq hc, hnone, refs_none, add_zero, refs_some, add_comm, Multiset.singleton_add] at hlinks
  have htotal : own + (h.put a { c with next := some n }).links = n ::ₘ own + h.links := by
    rw [hlinks, Multiset.add_cons, Multiset.cons_add]
  refine E.put hc (fun b _ => by rw [htotal]) (by rw [htotal]; exact E.count a c hc) ?_ ?_
  · have := E.count a c hc
    have := E.pos a c hc
    change 0 < c.refcount
    omega
  · intro m hm
    exact Option.some.inj hm ▸ hup

/-- **Changing a body.** -/
theorem setBody_spec (E : Exact h own) (hc : h.cell a = some c) (body : β) :
    ∃ h', h.setBody a body = .ok h' ∧ Exact h' own ∧ h' = h.put a { c with body := body } := by
  have hlinks := links_put_of_next (d := { c with body := body }) (E.bound a c hc) hc rfl
  refine ⟨h.put a { c with body := body }, by rw [setBody, get_eq hc]; rfl,
    E.put hc (fun b _ => by rw [hlinks]) ?_ ?_ fun n => E.up a c n hc, rfl⟩
  · rw [hlinks]
    exact E.count a c hc
  · have := E.count a c hc
    have := E.pos a c hc
    change 0 < c.refcount
    omega

/-- **A new cell.** -/
theorem alloc_spec (E : Exact h own) (body : β) :
    Exact (h.alloc body).1 (h.fresh ::ₘ own) ∧
      (h.alloc body).1.cell h.fresh = some ⟨1, none, body⟩ ∧
      ∀ b, b ≠ h.fresh → (h.alloc body).1.cell b = h.cell b := by
  have hnone : h.cell h.fresh = none := by
    by_contra hne
    obtain ⟨c, hc⟩ := Option.ne_none_iff_exists'.mp hne
    exact (E.bound _ c hc).ne rfl
  have hself : (h.alloc body).1.cell h.fresh = some ⟨1, none, body⟩ := Function.update_self ..
  have hne : ∀ b, b ≠ h.fresh → (h.alloc body).1.cell b = h.cell b := fun b hb =>
    Function.update_of_ne hb ..
  have hlinks : (h.alloc body).1.links = h.links := by
    have hfresh : (h.alloc body).1.fresh = h.fresh + 1 := rfl
    rw [links, links, hfresh, Multiset.range_succ, Multiset.map_cons, Multiset.sum_cons,
      next_eq hself, refs_none, zero_add]
    refine congrArg Multiset.sum (Multiset.map_congr rfl fun b hb => ?_)
    rw [next, next, hne b (Multiset.mem_range.mp hb).ne]
  have hout : h.fresh ∉ own + h.links := by
    intro hm
    obtain ⟨c, hc⟩ := E.held _ hm
    rw [hnone] at hc
    cases hc
  have htotal : h.fresh ::ₘ own + (h.alloc body).1.links = h.fresh ::ₘ (own + h.links) := by
    rw [hlinks, Multiset.cons_add]
  refine ⟨⟨fun b d hd => ?_, fun b d hd => ?_, fun b hb => ?_, fun b d n hd hn => ?_, fun b d hd => ?_⟩,
    hself, hne⟩
  · rw [htotal]
    by_cases hba : b = h.fresh
    · subst hba
      rw [hself, Option.some.injEq] at hd
      rw [← hd, Multiset.count_cons_self, Multiset.count_eq_zero_of_notMem hout]
      rfl
    · rw [Multiset.count_cons_of_ne hba]
      exact E.count b d (by rwa [hne b hba] at hd)
  · rw [htotal]
    by_cases hba : b = h.fresh
    · rw [hba, Multiset.count_cons_self]
      omega
    · rw [Multiset.count_cons_of_ne hba]
      exact E.pos b d (by rwa [hne b hba] at hd)
  · rw [htotal] at hb
    rcases Multiset.mem_cons.mp hb with rfl | hb
    · exact ⟨_, hself⟩
    · obtain ⟨d, hd⟩ := E.held b hb
      exact ⟨d, by rw [hne b (E.bound b d hd).ne, hd]⟩
  · by_cases hba : b = h.fresh
    · subst hba
      rw [hself, Option.some.injEq] at hd
      rw [← hd] at hn
      cases hn
    · exact E.up b d n (by rwa [hne b hba] at hd) hn
  · by_cases hba : b = h.fresh
    · rw [hba]
      exact Nat.lt_succ_self _
    · exact Nat.lt_succ_of_lt (E.bound b d (by rwa [hne b hba] at hd))

/-! ## Dropping references -/

/-- Links lead from older cells to newer ones. -/
def Upward (h : RefHeap β) : Prop := ∀ a c n, h.cell a = some c → c.next = some n → a < n

theorem Upward.put (hup : Upward h) (hc : h.cell a = some c) (hn : c'.next = c.next) :
    Upward (h.put a c') := by
  intro b d n hd hnext
  by_cases hba : b = a
  · subst hba
    rw [put_self, Option.some.injEq] at hd
    exact hup b c n hc (by rw [← hn, hd, hnext])
  · exact hup b d n (by rwa [put_of_ne hba] at hd) hnext

/-- The heap with something else at one address. -/
def withCell (h : RefHeap β) (b : ℕ) (o : Option (Cell β)) : RefHeap β :=
  ⟨Function.update h.cell b o, h.fresh⟩

section WithCell

variable {o : Option (Cell β)}

theorem withCell_of_ne (hab : a ≠ b) : (h.withCell b o).cell a = h.cell a :=
  Function.update_of_ne hab ..

theorem withCell_put (hab : a ≠ b) : (h.withCell b o).put a c = (h.put a c).withCell b o := by
  rw [put, withCell, withCell, put, Function.update_comm hab.symm]

theorem withCell_free (hab : a ≠ b) (hf : h.free a = .ok h') :
    (h.withCell b o).free a = .ok (h'.withCell b o) ∧ h'.cell b = h.cell b := by
  rw [free, get] at hf ⊢
  rw [withCell_of_ne hab]
  cases hc : h.cell a with
  | none =>
    rw [hc] at hf
    cases hf
  | some c =>
    rw [hc] at hf
    obtain rfl := Except.ok.inj hf
    refine ⟨?_, Function.update_of_ne hab.symm ..⟩
    change Except.ok _ = Except.ok _
    rw [withCell, withCell, Function.update_comm hab.symm]

/-- Dropping a reference does not touch the older cells, whatever they hold. -/
theorem withCell_releaseLoop {fuel : ℕ} (hup : Upward h) (hb : b < a)
    (hr : releaseLoop fuel h a = .ok h') :
    releaseLoop fuel (h.withCell b o) a = .ok (h'.withCell b o) ∧ h'.cell b = h.cell b := by
  induction fuel generalizing h h' a with
  | zero => cases hr
  | succ fuel ih =>
    have hab : a ≠ b := hb.ne'
    cases hc : h.cell a with
    | none =>
      rw [releaseLoop, get, hc] at hr
      cases hr
    | some c =>
      rw [releaseLoop, get_eq hc, Exec.ok_bind] at hr
      rw [releaseLoop, get_eq ((withCell_of_ne hab).trans hc), Exec.ok_bind, withCell_put hab]
      have hput : Upward (h.put a { c with refcount := c.refcount - 1 }) := hup.put hc rfl
      generalize ({ c with refcount := c.refcount - 1 } : Cell β) = d at hr hput ⊢
      split_ifs at hr ⊢ with hlast
      · cases hn : c.next with
        | none =>
          rw [hn] at hr
          obtain ⟨hfree, hcell⟩ := withCell_free (o := o) hab hr
          exact ⟨hfree, hcell.trans (put_of_ne hab.symm)⟩
        | some n =>
          rw [hn] at hr
          obtain ⟨h₂, hrec, hfree⟩ := Exec.bind_eq_ok.mp hr
          obtain ⟨hrec', hcell₂⟩ := ih hput (hb.trans (hup a c n hc hn)) hrec
          obtain ⟨hfree', hcell⟩ := withCell_free (o := o) hab hfree
          refine ⟨?_, hcell.trans (hcell₂.trans (put_of_ne hab.symm))⟩
          change (releaseLoop fuel _ n >>= fun h => h.free a) = _
          rw [hrec', Exec.ok_bind, hfree']
      · obtain rfl := Except.ok.inj hr
        exact ⟨rfl, put_of_ne hab.symm⟩

end WithCell

/-- The heap without a cell to which no reference is left; its link is a reference to be dropped. -/
theorem Exact.erase (E : Exact h (a ::ₘ own)) (hc : h.cell a = some c) (hlast : c.refcount = 1) :
    Exact (h.withCell a none) (refs c.next + own) := by
  have ha := E.bound a c hc
  have hcount := E.count a c hc
  rw [hlast, Multiset.cons_add, Multiset.count_cons_self] at hcount
  have hzero : (own + h.links).count a = 0 := by omega
  have hlinks : (h.withCell a none).links + refs c.next = h.links := by
    have := links_update (h := h) ha (f := (h.withCell a none).cell) fun b hb => withCell_of_ne hb
    rw [next_eq hc] at this
    rw [show (h.withCell a none) = ⟨(h.withCell a none).cell, h.fresh⟩ from rfl, this]
    simp [withCell]
  have htotal : refs c.next + own + (h.withCell a none).links = own + h.links := by
    rw [← hlinks]
    abel
  have hcell : ∀ b d, (h.withCell a none).cell b = some d → b ≠ a ∧ h.cell b = some d := by
    intro b d hd
    by_cases hba : b = a
    · subst hba
      simp [withCell] at hd
    · exact ⟨hba, by rwa [withCell_of_ne hba] at hd⟩
  refine ⟨fun b d hd => ?_, fun b d hd => ?_, fun b hb => ?_, fun b d n hd hn => ?_, fun b d hd => ?_⟩
  · obtain ⟨hba, hd⟩ := hcell b d hd
    rw [htotal, E.count b d hd, Multiset.cons_add, Multiset.count_cons_of_ne hba]
  · obtain ⟨hba, hd⟩ := hcell b d hd
    have := E.pos b d hd
    rwa [Multiset.cons_add, Multiset.count_cons_of_ne hba, ← htotal] at this
  · rw [htotal] at hb
    have hba : b ≠ a := by
      rintro rfl
      exact (Multiset.count_pos.mpr hb).ne' hzero
    obtain ⟨d, hd⟩ := E.held b (by rw [Multiset.cons_add]; exact Multiset.mem_cons_of_mem hb)
    exact ⟨d, by rw [withCell_of_ne hba, hd]⟩
  · exact E.up b d n (hcell b d hd).2 hn
  · exact E.bound b d (hcell b d hd).2

/-- **One reference less.** -/
theorem releaseLoop_spec {fuel : ℕ} (E : Exact h (a ::ₘ own)) (hfuel : h.fresh - a ≤ fuel) :
    ∃ h', releaseLoop fuel h a = .ok h' ∧ Exact h' own ∧ Keeps h h' := by
  induction fuel generalizing h a with
  | zero =>
    obtain ⟨c, hc⟩ := E.live (Multiset.mem_cons_self a own)
    have := E.bound a c hc
    omega
  | succ fuel ih =>
    obtain ⟨c, hc⟩ := E.live (Multiset.mem_cons_self a own)
    have ha := E.bound a c hc
    have hcount := E.count a c hc
    rw [Multiset.cons_add, Multiset.count_cons_self] at hcount
    rw [releaseLoop, get_eq hc, Exec.ok_bind]
    split_ifs with hlast
    · -- the last reference: the cell goes, and the reference of its link is dropped
      generalize ({ c with refcount := c.refcount - 1 } : Cell β) = d
      have E₁ := E.erase hc (by omega)
      have hkeeps : Keeps h (h.withCell a none) := by
        refine ⟨rfl, fun b d hd => ⟨d, ?_, rfl, rfl⟩⟩
        by_cases hba : b = a
        · subst hba
          simp [withCell] at hd
        · rwa [withCell_of_ne hba] at hd
      have hput : ∀ d, h.put a d = (h.withCell a none).withCell a (some d) := by
        intro d
        simp [put, withCell]
      have hfree : ∀ (g : RefHeap β) d, g.cell a = none → (g.withCell a (some d)).free a = .ok g := by
        intro g d hg
        rw [free, get_eq (c := d) (by simp [withCell])]
        refine congrArg Except.ok ?_
        simp only [withCell, Function.update_idem]
        rw [← hg, Function.update_eq_self]
      cases hn : c.next with
      | none =>
        rw [hn, refs_none, zero_add] at E₁
        refine ⟨h.withCell a none, ?_, E₁, hkeeps⟩
        rw [Exec.ok_bind, hput]
        exact hfree _ _ (by simp [withCell])
      | some n =>
        rw [hn, refs_some, Multiset.singleton_add] at E₁
        have hup := E.up a c n hc hn
        obtain ⟨h', hrec, E', hkeeps'⟩ := ih E₁ (show h.fresh - n ≤ fuel by omega)
        obtain ⟨hrec', hcell⟩ := withCell_releaseLoop (o := some d) E₁.up hup hrec
        refine ⟨h', ?_, E', hkeeps.trans hkeeps'⟩
        rw [hput]
        change (releaseLoop fuel _ n >>= fun h => h.free a) = _
        rw [hrec', Exec.ok_bind]
        exact hfree _ _ (hcell.trans (by simp [withCell]))
    · have hlinks := links_put_of_next (d := { c with refcount := c.refcount - 1 }) ha hc rfl
      refine ⟨h.put a { c with refcount := c.refcount - 1 }, rfl,
        E.put hc (fun b hb => ?_) ?_ (by simpa using hlast) fun n => E.up a c n hc,
        keeps_put hc rfl rfl⟩
      · rw [hlinks, Multiset.cons_add, Multiset.count_cons_of_ne hb]
      · rw [hlinks]
        change c.refcount - 1 = _
        omega

/-- **One reference less.** -/
theorem release_spec (E : Exact h (a ::ₘ own)) :
    ∃ h', h.release a = .ok h' ∧ Exact h' own ∧ Keeps h h' :=
  releaseLoop_spec E (Nat.sub_le ..)

/-! ## Reachable cells -/

/-- The cell at `b` is reached from the one at `a` along links. -/
inductive Reach (h : RefHeap β) : ℕ → ℕ → Prop
  | refl (a : ℕ) : Reach h a a
  | step {a n b : ℕ} {c : Cell β} (hc : h.cell a = some c) (hn : c.next = some n)
      (rest : Reach h n b) : Reach h a b

theorem Reach.trans {d : ℕ} (hab : Reach h a b) (hbd : Reach h b d) : Reach h a d := by
  induction hab with
  | refl a => exact hbd
  | step hc hn rest ih => exact .step hc hn (ih hbd)

theorem Reach.next (hab : Reach h a b) (hc : h.cell b = some c) (hn : c.next = some n) : Reach h a n :=
  hab.trans (.step hc hn (.refl n))

/-- A cell that is reached is the first one, or a link leads there. -/
theorem Reach.cases_tail (hab : Reach h a b) : a = b ∨ ∃ x c, h.cell x = some c ∧ c.next = some b := by
  induction hab with
  | refl a => exact .inl rfl
  | step hc hn _ ih =>
    rcases ih with rfl | hlink
    · exact .inr ⟨_, _, hc, hn⟩
    · exact .inr hlink

/-- Freeing cells makes no new chains. -/
theorem Reach.of_keeps (hab : Reach h' a b) (K : Keeps h h') : Reach h a b := by
  induction hab with
  | refl a => exact .refl a
  | step hc hn rest ih =>
    obtain ⟨d, hd, hnext, -⟩ := K.cell _ _ hc
    exact .step hd (hnext ▸ hn) ih

/-- The chain from `a` on is as it was, apart from the counts. -/
def KeepsFrom (h h' : RefHeap β) (a : ℕ) : Prop :=
  ∀ b c, Reach h a b → h.cell b = some c → ∃ c', h'.cell b = some c' ∧ c'.next = c.next ∧ c'.body = c.body

/-- What is reached from a cell in memory is in memory. -/
theorem Exact.reach (E : Exact h own) (ha : ∃ c, h.cell a = some c) (hab : Reach h a b) :
    ∃ c, h.cell b = some c := by
  induction hab with
  | refl a => exact ha
  | step hc hn rest ih => exact ih (E.next_live hc hn).2

theorem Exact.le_of_reach (E : Exact h own) (hab : Reach h a b) : a ≤ b := by
  induction hab with
  | refl a => exact le_rfl
  | step hc hn rest ih => exact (E.up _ _ _ hc hn).le.trans ih

/-- Freeing cells leaves the chains of the cells that are in memory. -/
theorem Keeps.from (K : Keeps h h') (E : Exact h' own) (ha : ∃ c, h'.cell a = some c) :
    KeepsFrom h h' a := by
  intro b c hab hc
  induction hab with
  | refl a =>
    obtain ⟨c', hc'⟩ := ha
    obtain ⟨d, hd, hn, hb⟩ := K.cell a c' hc'
    obtain rfl : d = c := Option.some.inj (hd.symm.trans hc)
    exact ⟨c', hc', hn, hb⟩
  | step hd hn rest ih =>
    obtain ⟨c', hc'⟩ := ha
    obtain ⟨d, hd', hn', -⟩ := K.cell _ c' hc'
    obtain rfl := Option.some.inj (hd'.symm.trans hd)
    exact ih (E.next_live hc' (hn'.trans hn)).2 hc

/-- No link leads to the cell. -/
def Unlinked (h : RefHeap β) (a : ℕ) : Prop := ∀ b c, h.cell b = some c → c.next ≠ some a

/-- Freeing cells makes no new links. -/
theorem Unlinked.of_keeps (U : Unlinked h a) (K : Keeps h h') : Unlinked h' a := by
  intro b c' hc'
  obtain ⟨c, hc, hn, -⟩ := K.cell b c' hc'
  rw [hn]
  exact U b c hc

theorem Reach.keepsFrom (hab : Reach h a b) (K : KeepsFrom h h' a) : Reach h' a b := by
  induction hab with
  | refl a => exact .refl a
  | step hc hn rest ih =>
    obtain ⟨c', hc', hn', -⟩ := K _ _ (.refl _) hc
    exact .step hc' (hn'.trans hn) (ih fun b d hb hd => K b d (.step hc hn hb) hd)

end RefHeap

end Kendylib
