import Kendylib.Foundations.Exec
import Mathlib.Data.List.Nodup
import Mathlib.Logic.Function.Basic

/-!
# The intrusive list

The `link_list` of `src/link_list.c`: a `size`, a `head` and a `tail`, threaded through the `next`
field that every `list_node` begins with. `Lists ι N` is a collection of such lists, one for each
index in `ι`, over one memory of nodes `N`.

`Lists.Represents m xs` says that the list `i` of `m` is the sequence `xs i`, with no node in two
lists. The operations then act on the sequences: `link_list_push_back` appends a node that is in no
list, `link_list_push_front` puts it first, `link_list_pop` takes the first node off, and
`link_list_swap` appends one list to another. The counter `size` is a natural number: a list has
fewer than `2 ^ 31` nodes.
-/

namespace Kendylib

variable {ι N : Type}

/-- A `link_list`. -/
structure LinkList (N : Type) where
  size : ℕ
  head : Option N
  tail : Option N

/-- A `link_list` as `create_link_list` and `link_list_clear` leave it. -/
def LinkList.empty : LinkList N := ⟨0, none, none⟩

/-- The lists of a program and the `next` fields of their nodes. -/
structure Lists (ι N : Type) where
  list : ι → LinkList N
  next : N → Option N

namespace Lists

section Code

variable [DecidableEq ι] [DecidableEq N]

def setList (m : Lists ι N) (l : ι) (s : LinkList N) : Lists ι N :=
  { m with list := Function.update m.list l s }

def setNext (m : Lists ι N) (n : N) (x : Option N) : Lists ι N :=
  { m with next := Function.update m.next n x }

/-- `link_list_push_back`. -/
def linkListPushBack (m : Lists ι N) (l : ι) (n : N) : Exec (Lists ι N) :=
  if (m.next n).isSome then .ok m
  else
    let m := m.setNext n none
    let s := m.list l
    if s.size = 0 then .ok (m.setList l ⟨s.size + 1, some n, some n⟩)
    else do
      let t ← Exec.deref s.tail
      return (m.setNext t (some n)).setList l ⟨s.size + 1, s.head, some n⟩

/-- `link_list_push_front`. -/
def linkListPushFront (m : Lists ι N) (l : ι) (n : N) : Exec (Lists ι N) :=
  if (m.next n).isSome then .ok m
  else
    let m := m.setNext n none
    let s := m.list l
    if s.size = 0 then .ok (m.setList l ⟨s.size + 1, some n, some n⟩)
    else .ok ((m.setNext n s.head).setList l ⟨s.size + 1, some n, s.tail⟩)

/-- `link_list_swap`: the nodes of `src` are moved to the end of `dst`. -/
def linkListSwap (m : Lists ι N) (dst src : ι) : Lists ι N :=
  if (m.list src).head.isSome && (m.list src).tail.isSome then
    let m := match (m.list dst).tail with
      | some t => m.setNext t (m.list src).head
      | none => m.setList dst { m.list dst with head := (m.list src).head }
    let m := m.setList dst { m.list dst with tail := (m.list src).tail }
    let m := m.setList src { m.list src with head := none, tail := none }
    let m := m.setList dst { m.list dst with size := (m.list dst).size + (m.list src).size }
    m.setList src { m.list src with size := 0 }
  else m

/-- `link_list_pop`. -/
def linkListPop (m : Lists ι N) (l : ι) : Exec (Option N × Lists ι N) :=
  let s := m.list l
  if s.size = 0 then .ok (none, m)
  else do
    let ret ← Exec.deref s.head
    let head := m.next ret
    let tail := if head = none then none else s.tail
    return (some ret, (m.setList l ⟨s.size - 1, head, tail⟩).setNext ret none)

omit [DecidableEq ι] [DecidableEq N] in
/-- `link_list_is_empty`. -/
def linkListIsEmpty (m : Lists ι N) (l : ι) : Bool := (m.list l).size == 0

end Code

/-- The nodes met in so many steps along `next`. -/
def walk (next : N → Option N) : ℕ → Option N → List N
  | 0, _ | _, none => []
  | k + 1, some n => n :: walk next k (next n)

/-- The nodes of a list, from its head on. -/
def nodes (m : Lists ι N) (l : ι) : List N := walk m.next (m.list l).size (m.list l).head

/-- The lists at some of the places. -/
def comap {κ : Type} (e : ι → κ) (m : Lists κ N) : Lists ι N := ⟨fun i => m.list (e i), m.next⟩

section Comap

variable {κ : Type} [DecidableEq ι] [DecidableEq κ] [DecidableEq N] {e : ι → κ} {m : Lists κ N}

omit [DecidableEq N] in
theorem comap_setList (he : Function.Injective e) (i : ι) (s : LinkList N) :
    (m.comap e).setList i s = (m.setList (e i) s).comap e := by
  rw [setList, setList, comap, comap]
  congr 1
  exact (Function.update_comp_eq_of_injective m.list he i s).symm

theorem comap_linkListPushBack (he : Function.Injective e) (i : ι) (n : N) :
    (m.comap e).linkListPushBack i n = (m.linkListPushBack (e i) n).map (comap e) := by
  rw [linkListPushBack, linkListPushBack]
  by_cases hnext : (m.next n).isSome
  · rw [if_pos hnext, if_pos (show ((m.comap e).next n).isSome = true from hnext)]
    rfl
  · rw [if_neg hnext, if_neg (show ¬ ((m.comap e).next n).isSome = true from hnext)]
    by_cases hsize : (m.list (e i)).size = 0
    · have h := comap_setList (m := m.setNext n none) he i
        ⟨(m.list (e i)).size + 1, some n, some n⟩
      simp only [setNext, comap, hsize, if_true] at h ⊢
      rw [h]
      rfl
    · simp only [setNext, comap, hsize, if_false]
      cases (m.list (e i)).tail with
      | none => rfl
      | some t =>
        exact congrArg Except.ok (comap_setList (m := (m.setNext n none).setNext t (some n)) he i
          ⟨(m.list (e i)).size + 1, (m.list (e i)).head, some n⟩)

theorem comap_linkListPop (he : Function.Injective e) (i : ι) :
    (m.comap e).linkListPop i = (m.linkListPop (e i)).map fun r => (r.1, r.2.comap e) := by
  rw [linkListPop, linkListPop]
  by_cases hsize : (m.list (e i)).size = 0
  · simp only [comap, hsize, if_true]
    rfl
  · have h := fun l => comap_setList (m := m) he i l
    simp only [comap, hsize, if_false] at h ⊢
    cases (m.list (e i)).head with
    | none => rfl
    | some ret =>
      simp only [Exec.deref_some, Exec.ok_bind, Exec.pure_eq, Except.map, h]
      rfl

end Comap

/-! ## The sequence of a list -/

/-- The `next` fields run through the sequence and end it. -/
def Linked (next : N → Option N) : List N → Prop
  | [] => True
  | a :: xs => next a = xs.head? ∧ Linked next xs

theorem Linked.congr {next next' : N → Option N} {xs : List N} (h : Linked next xs)
    (heq : ∀ a ∈ xs, next' a = next a) : Linked next' xs := by
  induction xs with
  | nil => trivial
  | cons a xs ih =>
    refine ⟨?_, ih h.2 fun b hb => heq b (by simp [hb])⟩
    rw [heq a (by simp), h.1]

/-- Two sequences are joined by the `next` field of the last node of the first. -/
theorem Linked.append {next next' : N → Option N} {xs ys : List N} {t : N} (h : Linked next xs)
    (hys : Linked next' ys) (hnodup : xs.Nodup) (ht : xs.getLast? = some t)
    (htn : next' t = ys.head?) (heq : ∀ a ∈ xs, a ≠ t → next' a = next a) :
    Linked next' (xs ++ ys) := by
  induction xs with
  | nil => simp at ht
  | cons a xs ih =>
    cases xs with
    | nil =>
      obtain rfl : a = t := by simpa using ht
      exact ⟨htn, hys⟩
    | cons b xs =>
      have ht' : (b :: xs).getLast? = some t := by simpa [List.getLast?_cons_cons] using ht
      have hat : a ≠ t := by
        rintro rfl
        exact (List.nodup_cons.mp hnodup).1 (List.mem_of_getLast? ht')
      refine ⟨?_, ih h.2 (List.nodup_cons.mp hnodup).2 ht' fun c hc => heq c (by simp [hc])⟩
      rw [heq a (by simp) hat, h.1]
      rfl

theorem Linked.append_singleton {next next' : N → Option N} {xs : List N} {t n : N}
    (h : Linked next xs) (hnodup : xs.Nodup) (ht : xs.getLast? = some t) (hn : next' n = none)
    (htn : next' t = some n) (heq : ∀ a ∈ xs, a ≠ t → next' a = next a) :
    Linked next' (xs ++ [n]) :=
  h.append ⟨hn, trivial⟩ hnodup ht htn heq

theorem Linked.walk {next : N → Option N} {xs : List N} (h : Linked next xs) :
    Lists.walk next xs.length xs.head? = xs := by
  induction xs with
  | nil => rfl
  | cons a xs ih => rw [List.length_cons, List.head?_cons, Lists.walk, h.1, ih h.2]

/-- The lists of `m` are the sequences `xs`, and no node is in two places. -/
structure Represents (m : Lists ι N) (xs : ι → List N) : Prop where
  linked : ∀ i, Linked m.next (xs i)
  list : ∀ i, m.list i = ⟨(xs i).length, (xs i).head?, (xs i).getLast?⟩
  nodup : ∀ i, (xs i).Nodup
  disjoint : ∀ i j, i ≠ j → List.Disjoint (xs i) (xs j)

namespace Represents

variable {m : Lists ι N} {xs : ι → List N}

theorem isEmpty (r : m.Represents xs) (l : ι) : m.linkListIsEmpty l = (xs l).isEmpty := by
  rw [linkListIsEmpty, r.list]
  cases xs l <;> rfl

theorem nodes (r : m.Represents xs) (l : ι) : m.nodes l = xs l := by
  rw [Lists.nodes, r.list]
  exact (r.linked l).walk

variable [DecidableEq ι]

/-- Replacing one sequence: what an operation on the list `l` has to establish. -/
theorem update (r : m.Represents xs) {l : ι} {ys : List N} {s : LinkList N} {next : N → Option N}
    (hlinked : Linked next ys) (hs : s = ⟨ys.length, ys.head?, ys.getLast?⟩) (hnodup : ys.Nodup)
    (hframe : ∀ i, i ≠ l → ∀ a ∈ xs i, a ∉ ys ∧ next a = m.next a) :
    (⟨Function.update m.list l s, next⟩ : Lists ι N).Represents (Function.update xs l ys) := by
  refine ⟨fun i => ?_, fun i => ?_, fun i => ?_, fun i j hij => ?_⟩
  · rcases eq_or_ne i l with rfl | hi
    · simpa using hlinked
    · rw [Function.update_of_ne hi]
      exact (r.linked i).congr fun a ha => (hframe i hi a ha).2
  · rcases eq_or_ne i l with rfl | hi
    · simpa using hs
    · simpa [Function.update_of_ne hi] using r.list i
  · rcases eq_or_ne i l with rfl | hi
    · simpa using hnodup
    · simpa [Function.update_of_ne hi] using r.nodup i
  · rcases eq_or_ne i l with rfl | hi
    · rw [Function.update_self, Function.update_of_ne hij.symm]
      exact fun a ha haj => (hframe j hij.symm a haj).1 ha
    · rw [Function.update_of_ne hi]
      rcases eq_or_ne j l with rfl | hj
      · rw [Function.update_self]
        exact fun a ha haj => (hframe i hi a ha).1 haj
      · rw [Function.update_of_ne hj]
        exact r.disjoint i j hij

variable [DecidableEq N]

/-- **`link_list_push_back` appends** a node that is in no list. -/
theorem pushBack (r : m.Represents xs) (l : ι) {n : N} (hn : ∀ i, n ∉ xs i)
    (hnext : m.next n = none) :
    ∃ m', m.linkListPushBack l n = .ok m' ∧
      m'.Represents (Function.update xs l (xs l ++ [n])) ∧
      ∀ a, (∀ i, a ∉ xs i) → m'.next a = m.next a := by
  have hset : Function.update m.next n none = m.next := by
    rw [← hnext, Function.update_eq_self]
  have hnodup : (xs l ++ [n]).Nodup := by
    rw [List.nodup_append]
    refine ⟨r.nodup l, List.nodup_singleton n, fun a ha b hb => ?_⟩
    rintro rfl
    exact hn l (by rwa [List.mem_singleton.mp hb] at ha)
  simp only [linkListPushBack, hnext, Option.isSome_none, Bool.false_eq_true, if_false, setNext,
    hset, r.list l]
  cases hl : (xs l).getLast? with
  | none =>
    have hnil : xs l = [] := List.getLast?_eq_none_iff.mp hl
    rw [hnil]
    refine ⟨_, rfl, r.update ⟨hnext, trivial⟩ rfl (List.nodup_singleton n) fun i hi a ha => ?_,
      fun a _ => rfl⟩
    · refine ⟨?_, rfl⟩
      rintro hmem
      rw [List.nil_append, List.mem_singleton] at hmem
      exact hn i (hmem ▸ ha)
  | some t =>
    have hmem : t ∈ xs l := List.mem_of_getLast? hl
    have hne : xs l ≠ [] := List.ne_nil_of_mem hmem
    have htn : n ≠ t := by rintro rfl; exact hn l hmem
    rw [if_neg (by simp [hne])]
    refine ⟨_, rfl, r.update ?_ ?_ hnodup fun i hi a ha => ⟨?_, ?_⟩, fun a ha => ?_⟩
    · refine (r.linked l).append_singleton (r.nodup l) hl ?_ (Function.update_self ..)
        fun a _ hat => Function.update_of_ne hat ..
      exact (Function.update_of_ne htn ..).trans hnext
    · have hhead : (xs l ++ [n]).head? = (xs l).head? := by
        obtain ⟨b, ys, hb⟩ := List.exists_cons_of_ne_nil hne
        rw [hb]
        rfl
      rw [List.getLast?_concat, hhead, List.length_append]
      rfl
    · rw [List.mem_append, List.mem_singleton, not_or]
      exact ⟨fun hal => r.disjoint i l hi ha hal, fun han => hn i (han ▸ ha)⟩
    · refine Function.update_of_ne ?_ ..
      rintro rfl
      exact r.disjoint i l hi ha hmem
    · refine Function.update_of_ne ?_ ..
      rintro rfl
      exact ha l hmem

/-- **`link_list_push_front` puts first** a node that is in no list. -/
theorem pushFront (r : m.Represents xs) (l : ι) {n : N} (hn : ∀ i, n ∉ xs i)
    (hnext : m.next n = none) :
    ∃ m', m.linkListPushFront l n = .ok m' ∧ m'.Represents (Function.update xs l (n :: xs l)) ∧
      ∀ a, (∀ i, a ∉ xs i) → a ≠ n → m'.next a = m.next a := by
  have hset : Function.update m.next n none = m.next := by
    rw [← hnext, Function.update_eq_self]
  have hnodup : (n :: xs l).Nodup := List.nodup_cons.mpr ⟨hn l, r.nodup l⟩
  have hout : ∀ i, i ≠ l → ∀ a ∈ xs i, a ∉ n :: xs l := by
    intro i hi a ha
    rw [List.mem_cons, not_or]
    exact ⟨fun han => hn i (han ▸ ha), fun hal => r.disjoint i l hi ha hal⟩
  simp only [linkListPushFront, hnext, Option.isSome_none, Bool.false_eq_true, if_false, setNext,
    hset, r.list l]
  cases hl : xs l with
  | nil =>
    rw [hl] at hnodup hout
    exact ⟨_, rfl, r.update ⟨hnext, trivial⟩ rfl hnodup fun i hi a ha => ⟨hout i hi a ha, rfl⟩,
      fun a _ _ => rfl⟩
  | cons b ys =>
    rw [hl] at hnodup hout
    refine ⟨_, rfl, r.update ⟨Function.update_self .., ?_⟩ ?_ hnodup fun i hi a ha =>
      ⟨hout i hi a ha, ?_⟩, fun a _ han => Function.update_of_ne han ..⟩
    · refine (hl ▸ r.linked l).congr fun a ha => Function.update_of_ne ?_ ..
      rintro rfl
      exact (List.nodup_cons.mp hnodup).1 ha
    · simp [List.getLast?_cons_cons]
    · refine Function.update_of_ne ?_ ..
      rintro rfl
      exact hn i ha

/-- **`link_list_pop` takes the first node off** and resets its `next`. -/
theorem pop (r : m.Represents xs) {l : ι} {n : N} {ys : List N} (hl : xs l = n :: ys) :
    ∃ m', m.linkListPop l = .ok (some n, m') ∧ m'.Represents (Function.update xs l ys) ∧
      m'.next n = none ∧ ∀ a, a ≠ n → m'.next a = m.next a := by
  have hlinked := r.linked l
  have hnodup := r.nodup l
  rw [hl] at hlinked hnodup
  obtain ⟨hny, hnodup⟩ := List.nodup_cons.mp hnodup
  simp only [linkListPop, r.list l, hl, List.length_cons, Nat.add_eq_zero_iff, one_ne_zero,
    and_false, if_false, List.head?_cons, Exec.deref, Exec.ok_bind, Exec.pure_eq]
  refine ⟨_, rfl, r.update ?_ ?_ hnodup fun i hi a ha => ⟨fun hal => ?_, ?_⟩,
    Function.update_self .., fun a han => Function.update_of_ne han ..⟩
  · refine hlinked.2.congr fun a ha => Function.update_of_ne ?_ ..
    rintro rfl
    exact hny ha
  · rw [hlinked.1]
    cases ys with
    | nil => simp
    | cons b ys => simp [List.getLast?_cons_cons]
  · exact r.disjoint i l hi ha (by rw [hl]; exact List.mem_cons_of_mem _ hal)
  · refine Function.update_of_ne ?_ ..
    rintro rfl
    exact r.disjoint i l hi ha (by rw [hl]; exact List.mem_cons_self)

/-- What `link_list_swap` leaves: the last node of `dst` leads on to the head of `src`. -/
theorem linkListSwap_eq (r : m.Represents xs) {dst src : ι} (hne : dst ≠ src) (hsrc : xs src ≠ []) :
    m.linkListSwap dst src = ⟨Function.update (Function.update m.list src .empty) dst
      ⟨(xs dst ++ xs src).length, (xs dst ++ xs src).head?, (xs dst ++ xs src).getLast?⟩,
      match (xs dst).getLast? with
        | some t => Function.update m.next t (xs src).head?
        | none => m.next⟩ := by
  obtain ⟨b, ys, hb⟩ := List.exists_cons_of_ne_nil hsrc
  have hlast : ∀ zs : List N, (zs ++ b :: ys).getLast? = some ((b :: ys).getLast (by simp)) :=
    fun zs => by rw [List.getLast?_append, List.getLast?_eq_some_getLast (by simp), Option.some_or]
  have hown := hlast []
  rw [List.nil_append] at hown
  have hhas : ((m.list src).head.isSome && (m.list src).tail.isSome) = true := by
    simp [r.list src, hb, hown]
  rw [linkListSwap, if_pos hhas]
  cases hd : (xs dst).getLast? with
  | none =>
    have hnil : xs dst = [] := List.getLast?_eq_none_iff.mp hd
    simp only [r.list, hb, hnil, setList, List.getLast?_nil]
    congr 1
    funext i
    rcases eq_or_ne i src with rfl | hi
    · simp [hne, hne.symm, LinkList.empty]
    · rcases eq_or_ne i dst with rfl | hj
      · simp [hne, hne.symm, r.list, hb]
      · simp [hi, hj]
  | some t =>
    have hdst : xs dst ≠ [] := List.ne_nil_of_mem (List.mem_of_getLast? hd)
    obtain ⟨c, zs, hc⟩ := List.exists_cons_of_ne_nil hdst
    simp only [r.list, hb, hd, setList, setNext]
    congr 1
    funext i
    rcases eq_or_ne i src with rfl | hi
    · simp [hne, hne.symm, LinkList.empty]
    · rcases eq_or_ne i dst with rfl | hj
      · have hjoined := hlast (c :: zs)
        rw [List.cons_append] at hjoined
        simp [hne, hne.symm, r.list, hb, hc, hjoined, hown]
        omega
      · simp [hi, hj]

/-- **`link_list_swap` appends** a list to another one and leaves it empty. -/
theorem swap (r : m.Represents xs) {dst src : ι} (hne : dst ≠ src) :
    (m.linkListSwap dst src).Represents
      (Function.update (Function.update xs src []) dst (xs dst ++ xs src)) := by
  by_cases hsrc : xs src = []
  · -- nothing is moved
    have hm : m.linkListSwap dst src = m := by simp [linkListSwap, r.list src, hsrc]
    rw [hm, hsrc, List.append_nil, ← hsrc, Function.update_eq_self, Function.update_eq_self]
    exact r
  have hemptied : (⟨Function.update m.list src .empty, m.next⟩ : Lists ι N).Represents
      (Function.update xs src []) :=
    r.update trivial rfl List.nodup_nil fun i _ a _ => ⟨List.not_mem_nil, rfl⟩
  have hnodup : (xs dst ++ xs src).Nodup :=
    (r.nodup dst).append (r.nodup src) (r.disjoint dst src hne)
  have hother : ∀ i, i ≠ dst → ∀ a ∈ Function.update xs src [] i, a ∉ xs dst ∧ a ∉ xs src := by
    intro i hi a ha
    rcases eq_or_ne i src with rfl | his
    · simp at ha
    · rw [Function.update_of_ne his] at ha
      exact ⟨fun h => r.disjoint i dst hi ha h, fun h => r.disjoint i src his ha h⟩
  rw [r.linkListSwap_eq hne hsrc]
  cases hd : (xs dst).getLast? with
  | none =>
    have hnil : xs dst = [] := List.getLast?_eq_none_iff.mp hd
    rw [hnil] at hother ⊢
    exact hemptied.update (r.linked src) rfl (r.nodup src) fun i hi a ha =>
      ⟨(hother i hi a ha).2, rfl⟩
  | some t =>
    have htmem : t ∈ xs dst := List.mem_of_getLast? hd
    have hsrclinked : Linked (Function.update m.next t (xs src).head?) (xs src) := by
      refine (r.linked src).congr fun a ha => Function.update_of_ne ?_ ..
      rintro rfl
      exact r.disjoint dst src hne htmem ha
    have hlinked := (r.linked dst).append hsrclinked (r.nodup dst) hd (Function.update_self ..)
      fun a _ hat => Function.update_of_ne hat ..
    refine hemptied.update hlinked rfl hnodup fun i hi a ha => ⟨?_, ?_⟩
    · rw [List.mem_append, not_or]
      exact hother i hi a ha
    · refine Function.update_of_ne ?_ ..
      rintro rfl
      exact (hother i hi a ha).1 htmem

theorem pop_nil (r : m.Represents xs) {l : ι} (hl : xs l = []) :
    m.linkListPop l = .ok (none, m) := by
  simp [linkListPop, r.list l, hl]

end Represents

end Lists

end Kendylib
