import Kendylib.Foundations.Run
import Kendylib.Net.LinkList
import Mathlib.Data.Fintype.Basic

/-!
# Runs of the intrusive lists

A run pushes nodes on the lists, pops them and appends one list to another. Beside the lists it
keeps a sequence for each of them, and every call does to the lists what it does to the sequences.

- `act`: what a call does to the sequences, and what it answers.
- `Allowed`: a node that is pushed is in no list and has a null `next`, and two different lists are
  swapped.
- `follows_sequences`: in a run from empty lists the lists are the sequences all along.
-/

namespace Kendylib.Lists

variable {ι N : Type} [DecidableEq ι] [DecidableEq N]

inductive Op (ι N : Type)
  | pushBack (l : ι) (n : N)
  | pushFront (l : ι) (n : N)
  | pop (l : ι)
  | swap (dst src : ι)

/-- A call, with the node that it answers. -/
def call (m : Lists ι N) : Op ι N → Exec (Option N × Lists ι N)
  | .pushBack l n => do return (none, ← m.linkListPushBack l n)
  | .pushFront l n => do return (none, ← m.linkListPushFront l n)
  | .pop l => m.linkListPop l
  | .swap dst src => return (none, m.linkListSwap dst src)

def step (m : Lists ι N) (op : Op ι N) : Exec (Lists ι N) := (m.call op).map Prod.snd

omit [DecidableEq N] in
/-- What a call does to the sequences. -/
def act (xs : ι → List N) : Op ι N → Option N × (ι → List N)
  | .pushBack l n => (none, Function.update xs l (xs l ++ [n]))
  | .pushFront l n => (none, Function.update xs l (n :: xs l))
  | .pop l => ((xs l).head?, Function.update xs l (xs l).tail)
  | .swap dst src => (none, Function.update (Function.update xs src []) dst (xs dst ++ xs src))

omit [DecidableEq ι] [DecidableEq N] in
/-- A node that is pushed is in no list, and its `next` is null. -/
def Allowed (m : Lists ι N) : Op ι N → Prop
  | .pushBack _ n | .pushFront _ n => (∀ i, n ∉ m.nodes i) ∧ m.next n = none
  | .pop _ => True
  | .swap dst src => dst ≠ src

instance [Fintype ι] (m : Lists ι N) : (op : Op ι N) → Decidable (Allowed m op)
  | .pushBack _ _ | .pushFront _ _ => inferInstanceAs (Decidable (_ ∧ _))
  | .pop _ => isTrue trivial
  | .swap _ _ => inferInstanceAs (Decidable (_ ≠ _))

/-- The lists are the sequences all along the run, every call returns with the answer that the
sequences give, and a node that is popped has a null `next`. -/
def Follows (m : Lists ι N) (xs : ι → List N) : List (Op ι N) → Prop
  | [] => m.Represents xs
  | op :: ops => m.Represents xs ∧
    ∃ m', m.call op = .ok ((act xs op).1, m') ∧ (∀ n ∈ (act xs op).1, m'.next n = none) ∧
      Follows m' (act xs op).2 ops

variable {m : Lists ι N} {xs : ι → List N}

/-- One call does to the lists what it does to the sequences. -/
theorem Represents.call (r : m.Represents xs) {op : Op ι N} (hop : Allowed m op) :
    ∃ m', m.call op = .ok ((act xs op).1, m') ∧ m'.Represents (act xs op).2 ∧
      ∀ n ∈ (act xs op).1, m'.next n = none := by
  cases op with
  | pushBack l n =>
    obtain ⟨m', hm, r', -⟩ := r.pushBack l (fun i => r.nodes i ▸ hop.1 i) hop.2
    exact ⟨m', by simp [Lists.call, hm, act], r', by simp [act]⟩
  | pushFront l n =>
    obtain ⟨m', hm, r', -⟩ := r.pushFront l (fun i => r.nodes i ▸ hop.1 i) hop.2
    exact ⟨m', by simp [Lists.call, hm, act], r', by simp [act]⟩
  | pop l =>
    rw [Lists.call]
    cases hl : xs l with
    | nil =>
      have hxs : (act xs (.pop l)).2 = xs := by
        rw [act, hl, List.tail_nil, ← hl, Function.update_eq_self]
      exact ⟨m, by simp [r.pop_nil hl, act, hl], by rwa [hxs], by simp [act, hl]⟩
    | cons n ys =>
      obtain ⟨m', hm, r', hn, -⟩ := r.pop hl
      exact ⟨m', by simp [hm, act, hl], by simpa [act, hl] using r', by simp [act, hl, hn]⟩
  | swap dst src => exact ⟨_, rfl, r.swap hop, by simp [act]⟩

theorem Represents.follows (r : m.Represents xs) {ops : List (Op ι N)}
    (hops : Exec.BeforeEach step Allowed m ops) : Follows m xs ops := by
  induction ops generalizing m xs with
  | nil => exact r
  | cons op ops ih =>
    obtain ⟨hop, hrest⟩ := hops
    obtain ⟨m', hm, r', hnext⟩ := r.call hop
    have hstep : m.step op = .ok m' := by rw [step, hm, Except.map]
    rw [hstep] at hrest
    exact ⟨r, m', hm, hnext, ih r' hrest⟩

omit [DecidableEq ι] [DecidableEq N] in
theorem represents_empty (next : N → Option N) :
    (⟨fun _ => .empty, next⟩ : Lists ι N).Represents fun _ => [] :=
  ⟨fun _ => trivial, fun _ => rfl, fun _ => List.nodup_nil, fun _ _ _ _ h => by simp at h⟩

/-- **The lists are sequences of nodes** in every run from empty lists, and the calls append, put
first, take off and join as they do for sequences. -/
theorem follows_sequences (next : N → Option N) (ops : List (Op ι N))
    (hops : Exec.BeforeEach step Allowed ⟨fun _ => .empty, next⟩ ops) :
    Follows ⟨fun _ => .empty, next⟩ (fun _ => []) ops :=
  (represents_empty next).follows hops

/-- Two lists: three nodes are pushed, one list is appended to the other, and a node is popped and
pushed once more. -/
theorem follows_sequences_swap :
    Exec.BeforeEach step Allowed (⟨fun _ => .empty, fun _ => none⟩ : Lists Bool ℕ)
        [.pushBack true 1, .pushBack false 2, .pushFront false 3, .swap true false, .pop true,
          .pop false, .pushBack false 1] ∧
      Follows (⟨fun _ => .empty, fun _ => none⟩ : Lists Bool ℕ) (fun _ => [])
        [.pushBack true 1, .pushBack false 2, .pushFront false 3, .swap true false, .pop true,
          .pop false, .pushBack false 1] :=
  have h : Exec.BeforeEach step Allowed (⟨fun _ => .empty, fun _ => none⟩ : Lists Bool ℕ)
      [.pushBack true 1, .pushBack false 2, .pushFront false 3, .swap true false, .pop true,
        .pop false, .pushBack false 1] := by decide
  ⟨h, follows_sequences _ _ h⟩

end Kendylib.Lists
