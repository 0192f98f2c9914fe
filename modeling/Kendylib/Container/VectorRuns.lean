import Kendylib.Container.VectorValues
import Kendylib.Foundations.Run

/-!
# Runs of vectors

A run creates vectors and works with them. Beside each vector it keeps the list of the values that
the calls so far are to leave in it. The invariant (`Inv`) is that every vector has its values, and
that no two vectors share a block.

Two things go wrong in the code. The products of a count and the size of a value are 32-bit words,
so that a block may be smaller than the capability says (`room_of_sizesFit`). And where `realloc`
has moved the block, the code accesses the old one once more (`kept_iff_stays`). -/

namespace Kendylib.Vectors

open Exec Blocks

/-- A vector of the run, with the values that the calls so far are to leave in it. -/
structure Entry where
  vector : Vector
  contents : List (List UInt8)

/-- The vectors of the run, and the heap their blocks are in. -/
structure Store where
  heap : Blocks
  entries : List Entry

def Store.empty : Store := ⟨.empty, []⟩

inductive Call
  | create (valSize reserveSize : ℕ)
  | copyCreate (v : ℕ)
  | copy (v other : ℕ) (r : Realloc)
  | reserve (v reserveSize : ℕ) (r : Realloc)
  | pushBack (v : ℕ) (val : ℕ → UInt8) (r : Realloc)
  | set (v idx : ℕ) (val : ℕ → UInt8)
  | get (v idx : ℕ) (val : List UInt8)
  | clear (v : ℕ)

/-- The vector that a call is made with: `assert(v)`. -/
def entryAt (s : Store) (v : ℕ) : Exec Entry :=
  match s.entries[v]? with
  | some e => .ok e
  | none => .error .assertion

/-- The vectors after a call that has created one. -/
def Store.push (s : Store) (q : Blocks × Vector) (contents : List (List UInt8)) : Store :=
  ⟨q.1, s.entries ++ [⟨q.2, contents⟩]⟩

/-- The vectors after a call that has changed one. -/
def Store.update (s : Store) (v : ℕ) (q : Blocks × Vector) (contents : List (List UInt8)) : Store :=
  ⟨q.1, s.entries.set v ⟨q.2, contents⟩⟩

def step (s : Store) : Call → Exec Store
  | .create valSize n =>
    .ok (s.push (vectorCreate s.heap valSize n) (List.replicate n (zeroed valSize)))
  | .copyCreate v => do
    let e ← entryAt s v
    return s.push (← vectorCopyCreate s.heap e.vector) e.contents
  | .copy v other r => do
    let e ← entryAt s v
    let f ← entryAt s other
    return s.update v (← vectorCopy s.heap r e.vector f.vector)
      (if Copies e.vector f.vector then f.contents else e.contents)
  | .reserve v n r => do
    let e ← entryAt s v
    return s.update v (← vectorReserve s.heap r e.vector n) (e.contents.take n)
  | .pushBack v val r => do
    let e ← entryAt s v
    return s.update v (← vectorPushBack s.heap r e.vector val)
      (e.contents ++ [valueAt val e.vector.valSize])
  | .set v idx val => do
    let e ← entryAt s v
    return s.update v (← vectorSet s.heap e.vector idx val, e.vector)
      (e.contents.set idx (valueAt val e.vector.valSize))
  | .get v idx val => do
    let e ← entryAt s v
    let _ ← vectorGet s.heap e.vector idx val
    return s
  | .clear v => do
    let e ← entryAt s v
    return s.update v (s.heap, vectorClear e.vector) []

/-- The call is made with vectors of the run, and with numbers of 32 bits. -/
def Admitted (s : Store) : Call → Prop
  | .create valSize n => valSize < 0x100000000 ∧ n < 0x100000000
  | .copy v other _ => v < s.entries.length ∧ other < s.entries.length
  | .reserve v n _ => v < s.entries.length ∧ n < 0x100000000
  | .copyCreate v | .pushBack v _ _ | .set v _ _ | .get v _ _ | .clear v => v < s.entries.length

/-- The capability that a call makes room for is a number of 32 bits, and so is the size in bytes.
-/
def SizesFit (s : Store) : Call → Prop
  | .create valSize n => valSize * n < 0x100000000
  | .reserve v n _ => ∀ e ∈ s.entries[v]?, e.vector.capability ≤ n →
      n * e.vector.valSize < 0x100000000
  | .pushBack v _ _ => ∀ e ∈ s.entries[v]?, e.vector.size = e.vector.capability →
      doubled e.vector < 0x100000000 ∧ doubled e.vector * e.vector.valSize < 0x100000000
  | _ => True

/-- Where a call makes a block larger, `realloc` leaves it where it is. -/
def Call.Stays (s : Store) : Call → Prop
  | .copy v other r => ∀ e ∈ s.entries[v]?, ∀ f ∈ s.entries[other]?, Copies e.vector f.vector →
      e.vector.capability < f.vector.capability → Vectors.Stays r e.vector
  | .reserve v n r => ∀ e ∈ s.entries[v]?, e.vector.capability ≤ n → Vectors.Stays r e.vector
  | .pushBack v _ r => ∀ e ∈ s.entries[v]?, e.vector.size = e.vector.capability →
      Vectors.Stays r e.vector
  | _ => True

instance (s : Store) : (c : Call) → Decidable (Admitted s c)
  | .create _ _ | .copy _ _ _ | .reserve _ _ _ => inferInstanceAs (Decidable (_ ∧ _))
  | .copyCreate _ | .pushBack _ _ _ | .set _ _ _ | .get _ _ _ | .clear _ =>
    inferInstanceAs (Decidable (_ < _))

instance (s : Store) : (c : Call) → Decidable (SizesFit s c)
  | .create _ _ => inferInstanceAs (Decidable (_ < _))
  | .reserve _ _ _ | .pushBack _ _ _ => inferInstanceAs (Decidable (∀ e ∈ s.entries[_]?, _))
  | .copyCreate _ | .copy _ _ _ | .set _ _ _ | .get _ _ _ | .clear _ => isTrue trivial

instance (s : Store) : (c : Call) → Decidable (c.Stays s)
  | .copy _ _ _ | .reserve _ _ _ | .pushBack _ _ _ =>
    inferInstanceAs (Decidable (∀ e ∈ s.entries[_]?, _))
  | .create _ _ | .copyCreate _ | .set _ _ _ | .get _ _ _ | .clear _ => isTrue trivial

/-! ## The invariant -/

/-- Every vector has the values that it is to have, in a block of its own. -/
structure Inv (s : Store) : Prop where
  fresh : s.heap.Fresh
  fits : ∀ (i : ℕ) (e : Entry), s.entries[i]? = some e → Fits s.heap e.vector e.contents
  apart : ∀ (i j : ℕ) (e f : Entry), s.entries[i]? = some e → s.entries[j]? = some f → i ≠ j →
    ∀ p, e.vector.buf = some p → f.vector.buf ≠ some p

variable {s : Store} {c : Call} {e : Entry} {v : ℕ} {h' : Blocks} {w : Vector}
  {contents : List (List UInt8)} {r : Realloc}

theorem Inv.empty : Inv .empty :=
  ⟨fun _ _ => rfl, by simp [Store.empty], by simp [Store.empty]⟩

/-- **Frame**: a vector that is created or changed leaves the others as they are. The others have
the places that they had, and none of them has the block `o` that the vector had before. -/
theorem Inv.frame {s' : Store} {o : Option ℕ} (hs : Inv s) (hu : Update s.heap s'.heap o w.buf)
    (hw : Fits s'.heap w contents)
    (hold : ∀ (i : ℕ) (f : Entry), s'.entries[i]? = some f →
      (i = v ∧ f = ⟨w, contents⟩) ∨ (i ≠ v ∧ s.entries[i]? = some f))
    (hother : ∀ (i : ℕ) (f : Entry) (p : ℕ), i ≠ v → s.entries[i]? = some f →
      f.vector.buf = some p → o ≠ some p) : Inv s' := by
  -- the block that the vector has now is that of no other one
  have hnew : ∀ (i : ℕ) (f : Entry) (p : ℕ), i ≠ v → s.entries[i]? = some f → w.buf = some p →
      f.vector.buf ≠ some p := fun i f p hi hf hp hfp => by
    rcases hu.pointer with hbuf | ⟨q, hq, hnone⟩
    · exact hother i f p hi hf hfp (hbuf ▸ hp)
    · obtain rfl : q = p := Option.some.inj (hq.symm.trans hp)
      exact (hs.fits i f hf).live hfp hnone
  refine ⟨hu.fresh, fun i f hf => ?_, fun i j f g hf hg hij p hp => ?_⟩
  · rcases hold i f hf with ⟨rfl, rfl⟩ | ⟨hi, hf'⟩
    · exact hw
    · exact (hs.fits i f hf').of_update hu fun p hp => hother i f p hi hf' hp
  · rcases hold i f hf with ⟨rfl, rfl⟩ | ⟨hi, hf'⟩ <;>
      rcases hold j g hg with ⟨rfl, rfl⟩ | ⟨hj, hg'⟩
    · exact absurd rfl hij
    · exact hnew j g p hj hg' hp
    · exact fun hgp => hnew i f p hi hf' hgp hp
    · exact hs.apart i j f g hf' hg' hij p hp

theorem Inv.update (hs : Inv s) (he : s.entries[v]? = some e)
    (hu : Update s.heap h' e.vector.buf w.buf) (hw : Fits h' w contents) :
    Inv (s.update v (h', w) contents) := by
  have hother : ∀ (i : ℕ) (f : Entry) (p : ℕ), i ≠ v → s.entries[i]? = some f →
      f.vector.buf = some p → e.vector.buf ≠ some p :=
    fun i f p hi hf hfp hep => hs.apart i v f e hf he hi p hfp hep
  refine hs.frame hu hw (fun i f hf => ?_) hother
  by_cases hi : i = v
  · subst hi
    simp only [Store.update, List.getElem?_set_self', he, Option.map_eq_map, Option.map_some,
      Option.some.injEq] at hf
    exact .inl ⟨rfl, hf.symm⟩
  · exact .inr ⟨hi, by simpa [Store.update, List.getElem?_set_ne (Ne.symm hi)] using hf⟩

theorem Inv.push (hs : Inv s) (hu : Update s.heap h' none w.buf) (hw : Fits h' w contents) :
    Inv (s.push (h', w) contents) := by
  refine @Inv.frame s s.entries.length w contents _ none hs hu hw (fun i f hf => ?_) (by simp)
  rcases lt_or_ge i s.entries.length with hi | hi
  · exact .inr ⟨hi.ne, by simpa [Store.push, List.getElem?_append_left hi] using hf⟩
  · simp only [Store.push, List.getElem?_append_right hi, List.getElem?_singleton] at hf
    split at hf
    · exact .inl ⟨by omega, (Option.some.inj hf).symm⟩
    · cases hf

theorem entryAt_eq (he : s.entries[v]? = some e) : entryAt s v = .ok e := by
  rw [entryAt, he]

theorem exists_entry (hv : v < s.entries.length) : ∃ e, s.entries[v]? = some e :=
  ⟨_, List.getElem?_eq_getElem hv⟩

/-- **What a call does whose sizes fit, where `realloc` moves no block.** -/
theorem step_inv (hs : Inv s) (hc : Admitted s c) (hfit : SizesFit s c) (hstays : c.Stays s) :
    ∃ s', step s c = .ok s' ∧ Inv s' := by
  cases c with
  | create valSize n =>
    obtain ⟨hu, hw⟩ := vectorCreate_fits hs.fresh hc.2 hfit
    exact ⟨_, rfl, hs.push hu hw⟩
  | copyCreate v =>
    obtain ⟨e, he⟩ := exists_entry hc
    obtain ⟨h', w, hcall, hu, hw⟩ := vectorCopyCreate_fits hs.fresh (hs.fits v e he)
    refine ⟨_, ?_, hs.push hu hw⟩
    rw [step, entryAt_eq he, Exec.ok_bind, hcall]
    rfl
  | copy v other r =>
    obtain ⟨e, he⟩ := exists_entry hc.1
    obtain ⟨f, hf⟩ := exists_entry hc.2
    have hne : e.vector.capability < f.vector.capability →
        ∀ p, f.vector.buf = some p → e.vector.buf ≠ some p := fun hlt p hp hep => by
      have hdiff : v ≠ other := by
        rintro rfl
        rw [he] at hf
        cases hf
        exact lt_irrefl _ hlt
      exact hs.apart v other e f he hf hdiff p hep hp
    obtain ⟨h', w, hcall, hu, hw⟩ := vectorCopy_fits hs.fresh (hs.fits v e he)
      (hs.fits other f hf) hne (hstays e he f hf)
    refine ⟨_, ?_, hs.update he hu hw⟩
    rw [step, entryAt_eq he, Exec.ok_bind, entryAt_eq hf, Exec.ok_bind, hcall]
    rfl
  | reserve v n r =>
    obtain ⟨e, he⟩ := exists_entry hc.1
    obtain ⟨h', w, hcall, hu, hw⟩ :=
      vectorReserve_fits hs.fresh (hs.fits v e he) hc.2 (hfit e he) (hstays e he)
    refine ⟨_, ?_, hs.update he hu hw⟩
    rw [step, entryAt_eq he, Exec.ok_bind, hcall]
    rfl
  | pushBack v val r =>
    obtain ⟨e, he⟩ := exists_entry hc
    obtain ⟨h', w, hcall, hu, hw⟩ :=
      vectorPushBack_fits hs.fresh (hs.fits v e he) (hfit e he) (hstays e he) val
    refine ⟨_, ?_, hs.update he hu hw⟩
    rw [step, entryAt_eq he, Exec.ok_bind, hcall]
    rfl
  | set v idx val =>
    obtain ⟨e, he⟩ := exists_entry hc
    obtain ⟨h', hcall, hu, hw⟩ := vectorSet_fits hs.fresh (hs.fits v e he) idx val
    refine ⟨_, ?_, hs.update he hu hw⟩
    rw [step, entryAt_eq he, Exec.ok_bind, hcall]
    rfl
  | get v idx val =>
    obtain ⟨e, he⟩ := exists_entry hc
    obtain ⟨x, hcall⟩ := vectorGet_returns (hs.fits v e he) idx val
    refine ⟨s, ?_, hs⟩
    rw [step, entryAt_eq he, Exec.ok_bind, hcall]
    rfl
  | clear v =>
    obtain ⟨e, he⟩ := exists_entry hc
    have hu : Update s.heap s.heap e.vector.buf (vectorClear e.vector).buf := .refl hs.fresh _
    refine ⟨_, ?_, hs.update he hu (vectorClear_fits (hs.fits v e he))⟩
    rw [step, entryAt_eq he]
    rfl

/-- **A call in which `realloc` moves a block accesses a freed one.** -/
theorem step_freed (hs : Inv s) (hc : Admitted s c) (hmoves : ¬ c.Stays s) :
    step s c = .error .freed := by
  cases c with
  | copy v other r =>
    obtain ⟨e, he⟩ := exists_entry hc.1
    obtain ⟨f, hf⟩ := exists_entry hc.2
    obtain ⟨hcopies, hgrow, hr⟩ : Copies e.vector f.vector ∧
        e.vector.capability < f.vector.capability ∧ ¬ Vectors.Stays r e.vector := by
      simpa [Call.Stays, he, hf] using hmoves
    have hcall := vectorCopy_freed hs.fresh (hs.fits v e he) hcopies hgrow hr
    rw [step, entryAt_eq he, Exec.ok_bind, entryAt_eq hf, Exec.ok_bind, hcall]
    rfl
  | reserve v n r =>
    obtain ⟨e, he⟩ := exists_entry hc.1
    obtain ⟨hn, hr⟩ : e.vector.capability ≤ n ∧ ¬ Vectors.Stays r e.vector := by
      simpa [Call.Stays, he] using hmoves
    have hcall := vectorReserve_freed hs.fresh (hs.fits v e he) hn hr
    rw [step, entryAt_eq he, Exec.ok_bind, hcall]
    rfl
  | pushBack v val r =>
    obtain ⟨e, he⟩ := exists_entry hc
    obtain ⟨hfull, hr⟩ : e.vector.size = e.vector.capability ∧ ¬ Vectors.Stays r e.vector := by
      simpa [Call.Stays, he] using hmoves
    have hcall := @vectorPushBack_freed _ _ _ _ val hs.fresh (hs.fits v e he) hfull hr
    rw [step, entryAt_eq he, Exec.ok_bind, hcall]
    rfl
  | _ => exact absurd trivial hmoves

/-! ## The values -/

/-- `vector_get` returns, for every index below the size, the value that is to be there. -/
def Kept (s : Store) : Prop :=
  ∀ e ∈ s.entries, e.contents.length = e.vector.size ∧
    ∀ i < e.vector.size, ∀ val, ∃ x, vectorGet s.heap e.vector i val = .ok x ∧
      e.contents[i]? = some x

theorem Inv.kept (hs : Inv s) : Kept s := by
  intro e he
  obtain ⟨i, hi⟩ := List.mem_iff_getElem?.mp he
  have hfits := hs.fits i e hi
  refine ⟨hfits.size, fun k hk val => ?_⟩
  rw [← hfits.size] at hk
  exact ⟨_, vectorGet_eq hfits hk val, List.getElem?_eq_getElem hk⟩

/-- Every block has room for as many values as the capability says, and every access that the code
does not refuse is inside it. -/
def Room (s : Store) : Prop :=
  ∀ e ∈ s.entries, e.vector.size ≤ e.vector.capability ∧
    (∃ b, s.heap.Holds e.vector.buf b ∧ e.vector.capability * e.vector.valSize ≤ b.length) ∧
    ∀ idx < e.vector.capability, (∀ val, ∃ x, vectorGet s.heap e.vector idx val = .ok x) ∧
      ∀ val, ∃ h', vectorSet s.heap e.vector idx val = .ok h'

theorem Inv.room (hs : Inv s) : Room s := by
  intro e he
  obtain ⟨i, hi⟩ := List.mem_iff_getElem?.mp he
  have hfits := hs.fits i e hi
  obtain ⟨b, hb, hroom, -⟩ := hfits.block
  refine ⟨hfits.size_le, ⟨b, hb, hroom⟩, fun idx hidx => ⟨vectorGet_inside hfits hidx, ?_⟩⟩
  intro val
  obtain ⟨h', hset, -⟩ := vectorSet_fits hs.fresh hfits idx val
  exact ⟨h', hset⟩

/-- **In a run in which every capability and every size in bytes is a number of 32 bits, each vector
always has room for the values that its capability says**, until `realloc` moves a block. -/
theorem room_of_sizesFit {calls : List Call} (hcalls : BeforeEach step Admitted .empty calls)
    (hsizes : BeforeEach step SizesFit .empty calls) :
    Always step Room .empty calls ∧ FaultsOnly step (fun _ _ f => f = .freed) .empty calls := by
  refine safe_of_beforeEach (fun s hs => hs.room) (fun s c hs hc => ?_) Inv.empty
    (hcalls.and hsizes)
  by_cases hstays : c.Stays s
  · obtain ⟨s', hstep, hs'⟩ := step_inv hs hc.1 hc.2 hstays
    rw [hstep]
    exact hs'
  · rw [step_freed hs hc.1 hstays]

/-- A vector of two values of four bytes, copied and appended to. -/
theorem room_of_sizesFit_copied :
    Always step Room .empty
        [.create 4 2, .copyCreate 0, .pushBack 1 (fun _ => 7) ⟨false, fun _ => 0⟩] ∧
      FaultsOnly step (fun _ _ f => f = .freed) .empty
        [.create 4 2, .copyCreate 0, .pushBack 1 (fun _ => 7) ⟨false, fun _ => 0⟩] := by
  exact room_of_sizesFit (by decide +kernel) (by decide +kernel)

/-- `65536` values of `65536` bytes: the product is `0` in 32 bits. -/
theorem room_wraps :
    BeforeEach step Admitted .empty [.create 65536 65536] ∧
      ¬ Always step Room .empty [.create 65536 65536] := by
  refine ⟨⟨⟨by decide, by decide⟩, trivial⟩, fun h => ?_⟩
  obtain ⟨-, ⟨b, hb, hle⟩, -⟩ := h.2 _ (List.mem_singleton.mpr rfl)
  obtain rfl : [] = b := Option.some.inj hb
  exact absurd hle (by decide)

end Kendylib.Vectors
