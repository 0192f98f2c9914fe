import Kendylib.Container.RBtreeMap

/-!
# Walking through the tree

The iterators of `src/RBtree.c`. An iterator is the address of its node, and the end is the
sentinel. `successor` goes down to the first node of the right subtree or climbs the parents until
it comes from the left; both are the first of the entries that follow the node (`successor_spec`).
So the iterator that `RBtree_begin` returns passes over the entries of the tree from left to right
(`visits_of_inv`).
-/

namespace Kendylib.RBtree

open Tree

variable {K V : Type} {rb : RBtree K V} {ctx : List (Frame (Entry K V))}
  {t : Tree (Entry K V)} {x : Entry K V} {c : Color} {compare : K → K → Int}

/-! ## The iterator -/

/-- `RBtree_begin`; no node has the address 0 that is tested for. -/
def RBtreeBegin (rb : RBtree K V) : Exec Addr := rb.minimum rb.root

/-- `RBtree_end`. -/
def RBtreeEnd (_rb : RBtree K V) : Addr := nil

/-- `RB_iter_next`; the field `tree` of every node, and of the sentinel, leads to `rb`. -/
def RBIterNext (rb : RBtree K V) (it : Addr) : Exec Addr :=
  if it = nil then .ok it else rb.successor it

/-- `map_iter_equal`. -/
def mapIterEqual (a b : Addr) : Bool := a == b

/-- Read the key and the value of an iterator that is not the end. -/
def readIter (rb : RBtree K V) (it : Addr) : Exec (Option (K × V)) :=
  if it = nil then .ok none else do return some (← rb.iterGetFirst it, ← rb.iterGetSecond it)

/-- `RB_iter_next` visits these keys and values in turn, reaches the end and stays there. -/
def Visits (rb : RBtree K V) : Addr → List (K × V) → Prop
  | it, [] => mapIterEqual it rb.RBtreeEnd ∧ rb.RBIterNext it = .ok it
  | it, kv :: kvs => ¬ mapIterEqual it rb.RBtreeEnd ∧ rb.readIter it = .ok (some kv) ∧
    ∃ it', rb.RBIterNext it = .ok it' ∧ Visits rb it' kvs

/-! ## Neighbours -/

theorem before_of_left (h : ∀ f ∈ ctx, f.side = .left) : before ctx = [] := by
  induction ctx with
  | nil => rfl
  | cons f ctx ih =>
    obtain ⟨s, c, x, u⟩ := f
    obtain rfl : s = .left := h _ List.mem_cons_self
    exact ih fun g hg => h g (List.mem_cons_of_mem _ hg)

theorem after_of_right (h : ∀ f ∈ ctx, f.side = .right) : after ctx = [] := by
  induction ctx with
  | nil => rfl
  | cons f ctx ih =>
    obtain ⟨s, c, x, u⟩ := f
    obtain rfl : s = .right := h _ List.mem_cons_self
    exact ih fun g hg => h g (List.mem_cons_of_mem _ hg)

/-- The node of the first entry of a list, the sentinel if there is none. -/
def headAddr : List (Entry K V) → Addr
  | [] => nil
  | x :: _ => x.addr

@[simp] theorem headAddr_nil : headAddr ([] : List (Entry K V)) = nil := rfl

@[simp] theorem headAddr_cons (xs : List (Entry K V)) : headAddr (x :: xs) = x.addr := rfl

/-- **The loop of `minimum` and `maxmum`** goes down one side to the last node. -/
theorem extremeLoop_spec {fuel : ℕ} (s : Side) (h : Holds rb (plug ctx t)) (ht : t ≠ .leaf)
    (hfuel : t.toList.length ≤ fuel) :
    ∃ path c y u, extremeLoop s rb fuel (addr t) = .ok y.addr ∧
      t = plug path (join s c .leaf y u) ∧ ∀ f ∈ path, f.side = s := by
  induction fuel generalizing ctx t with
  | zero =>
    cases t with
    | leaf => exact absurd rfl ht
    | node c l x r => simp [toList] at hfuel
  | succ fuel ih =>
    obtain ⟨c, l, x, r, rfl⟩ := exists_join s ht
    have hlen : l.toList.length ≤ fuel := by
      cases s <;> simp [join, toList] at hfuel <;> omega
    simp only [addr_join, extremeLoop, h.get_join, Exec.ok_bind, cell_child]
    by_cases hl : l = .leaf
    · subst hl
      exact ⟨[], c, x, r, rfl, rfl, by simp⟩
    · obtain ⟨path, c', y, u, hloop, hpath, hside⟩ := ih h.down hl hlen
      refine ⟨path ++ [⟨s, c, x, r⟩], c', y, u, ?_, ?_, ?_⟩
      · have hne : addr l ≠ nil := fun hnil => hl (h.down.repFocus.addr_eq_nil.mp hnil)
        rw [if_pos hne, hloop]
      · rw [plug_append, ← hpath]
        rfl
      · intro f hf
        rcases List.mem_append.mp hf with hf | hf
        · exact hside f hf
        · rw [List.mem_singleton.mp hf]

/-- **`minimum`** is the node of the first entry of a subtree. -/
theorem minimum_spec (h : Holds rb (plug ctx t)) (ht : t ≠ .leaf) :
    rb.minimum (addr t) = .ok (headAddr t.toList) := by
  have hlen := length_ctx_le ctx t
  have hsize := h.size
  obtain ⟨path, c, y, u, hloop, rfl, hside⟩ :=
    extremeLoop_spec .left h ht (show t.toList.length ≤ rb.size + 1 by omega)
  rw [minimum, hloop, toList_plug, before_of_left hside]
  rfl

/-- The loop of `successor` climbs to the first entry on the right of the subtree in focus. -/
theorem successorLoop_spec {fuel : ℕ} (h : Holds rb (plug ctx t)) (ht : t ≠ .leaf)
    (hfuel : ctx.length < fuel) :
    successorLoop rb fuel (addr t) (parentAddr ctx) = .ok (headAddr (after ctx)) := by
  induction ctx generalizing t fuel with
  | nil =>
    cases fuel with
    | zero => omega
    | succ fuel => rfl
  | cons f ctx ih =>
    obtain ⟨s, c, x, u⟩ := f
    cases fuel with
    | zero => omega
    | succ fuel =>
      have hup : Holds rb (plug ctx (join s c t x u)) := h
      have hne := hup.children_ne (.inl ht)
      rw [parentAddr, successorLoop, if_neg hup.ne_nil, hup.get_join]
      simp only [Exec.ok_bind, cell_parent]
      cases s with
      | left => rw [show (cell .left (parentAddr ctx) (addr t) (addr u) c x).right = addr u from rfl,
          if_neg hne]; rfl
      | right =>
        have hloop := ih hup (join_ne_leaf _ _ _ _ _) (Nat.lt_of_succ_lt_succ hfuel)
        rw [addr_join] at hloop
        rwa [show (cell .right (parentAddr ctx) (addr t) (addr u) c x).right = addr t from rfl,
          if_pos rfl]

/-- **`successor`** is the node of the first of the entries that follow. -/
theorem successor_spec {l r : Tree (Entry K V)} (h : Holds rb (plug ctx (join .left c l x r))) :
    rb.successor x.addr = .ok (headAddr (r.toList ++ after ctx)) := by
  have hlen := length_ctx_le ctx (join .left c l x r)
  have hlist : (join .left c l x r).toList = l.toList ++ x :: r.toList := rfl
  rw [hlist, List.length_append, List.length_cons] at hlen
  have hsize := h.size
  have hr : addr r = nil ↔ r = .leaf := h.down_other.repFocus.addr_eq_nil
  simp only [successor, h.get_join, Exec.ok_bind, cell_parent]
  change (if addr r ≠ nil then rb.minimum (addr r) else _) = _
  by_cases hrl : r = .leaf
  · subst hrl
    have hloop := successorLoop_spec h (join_ne_leaf _ _ _ _ _)
      (show ctx.length < rb.size + 1 by omega)
    rw [addr_join] at hloop
    exact hloop
  · rw [if_pos (fun hnil => hrl (hr.mp hnil)), minimum_spec h.down_other hrl]
    cases hrt : r.toList with
    | nil => cases r <;> simp [toList] at hrl hrt
    | cons y ys => rfl

/-! ## Iteration -/

theorem mapIterEqual_iff {a b : Addr} : mapIterEqual a b = true ↔ a = b := beq_iff_eq

theorem readIter_of_mem (I : Inv compare rb t) (hx : x ∈ t.toList) :
    x.addr ≠ nil ∧ rb.readIter x.addr = .ok (some (x.key, x.val)) := by
  obtain ⟨hn, n, hnode, hkey, hval⟩ := I.holds.rep.node_of_mem hx
  refine ⟨hn, ?_⟩
  rw [readIter, if_neg hn, iterGetFirst, iterGetSecond, get_eq hnode]
  simp only [Exec.ok_bind, Exec.pure_eq, hkey, hval]

/-- The iterator at the first of the last entries visits these entries. -/
theorem visits_suffix (I : Inv compare rb t) {P Q : List (Entry K V)} (hlist : t.toList = P ++ Q) :
    Visits rb (headAddr Q) (data Q) := by
  induction Q generalizing P with
  | nil => exact ⟨mapIterEqual_iff.mpr rfl, rfl⟩
  | cons x Q ih =>
    have hx : x ∈ t.toList := hlist ▸ List.mem_append_right _ List.mem_cons_self
    obtain ⟨hn, hread⟩ := readIter_of_mem I hx
    obtain ⟨ctx, c, l, r, rfl, -, hQ⟩ := exists_plug_of_append hlist
    have h : Holds rb (plug ctx (join .left c l x r)) := I.holds
    refine ⟨fun heq => hn (mapIterEqual_iff.mp heq), hread, headAddr Q, ?_,
      ih (P := P ++ [x]) (by rw [hlist, List.append_assoc]; rfl)⟩
    rw [headAddr_cons, RBIterNext, if_neg hn, successor_spec h, hQ]

/-- **Iteration** from `RBtree_begin` visits the entries from left to right. -/
theorem visits_of_inv (I : Inv compare rb t) (hne : rb.RBtreeEmpty = false) :
    ∃ it, rb.RBtreeBegin = .ok it ∧ Visits rb it (data t.toList) := by
  have h : Holds rb (plug [] t) := I.holds
  have ht : t ≠ .leaf := by
    rintro rfl
    have hsize : rb.size = 0 := I.size
    rw [RBtreeEmpty, hsize] at hne
    cases hne
  refine ⟨headAddr t.toList, ?_, visits_suffix (P := []) I rfl⟩
  rw [RBtreeBegin, I.holds.root, minimum_spec h ht]

end Kendylib.RBtree
