import Kendylib.Container.ListT
import Kendylib.Container.RBtreeRuns

/-!
# Destroying a red-black tree

`RBtree_destroy` keeps the nodes still to be visited on a stack, a list of `src/list.c`. In each
round it reads the node on top, pushes the children of it and cuts the links to them. Here links may
be null: the sentinel holds what `malloc` or an erase has left there, and a cut link is null. All
allocations of the stack succeed.

- `RBtreeDestroy`: the pointers that are passed to `free`, in their order. A node that has been freed
  is not read, and the sentinel, which is no block of its own, is not freed.
- `DestroysOnce`: it frees each node of the tree once, and then the tree.
- `destroysOnce_iff`: it does so exactly if the tree is empty. Both links of a node are null once
  they have been cut, so that each round frees its node and pops whatever is on top: the left child,
  which is lost with everything below it. The rounds go down on the right until the sentinel is
  freed.
-/

namespace Kendylib.RBtree

open Tree

variable {K V : Type}

/-- The child links of a node in memory. -/
structure Links where
  left : Option Addr
  right : Option Addr

def Links.child (n : Links) : Side → Option Addr
  | .left => n.left
  | .right => n.right

def Links.cut (n : Links) : Side → Links
  | .left => { n with left := none }
  | .right => { n with right := none }

theorem Links.cut_eq_self (n : Links) {s : Side} (h : n.child s = none) : n.cut s = n := by
  cases s with
  | left => rw [Links.cut, ← show n.left = none from h]
  | right => rw [Links.cut, ← show n.right = none from h]

/-- A pointer that is passed to `free`. -/
inductive Freed
  | node (a : Addr)
  | tree
  deriving DecidableEq

/-- A state of the loop: the nodes in memory, the stack, and what has been freed. -/
structure Destroying where
  node : Addr → Option Links
  stack : ListT Addr
  freed : List Freed

namespace Destroying

def get (st : Destroying) (a : Addr) : Exec Links :=
  match st.node a with
  | some n => .ok n
  | none => .error .freed

/-- Push a child of `cur`, if there is one, and cut the link to it. -/
def pushChild (s : Side) (st : Destroying) (cur : Addr) : Exec Destroying := do
  let n ← st.get cur
  match n.child s with
  | none => return st
  | some a => do
    let stack ← st.stack.listPushFront a true
    return { st with node := Function.update st.node cur (some (n.cut s)), stack := stack }

/-- `free` of a node. The sentinel lies inside the tree structure. -/
def free (st : Destroying) (a : Addr) : Exec Destroying :=
  if a = nil then .error .outOfBounds
  else do
    let _ ← st.get a
    return { st with node := Function.update st.node a none, freed := st.freed ++ [.node a] }

/-- A round of the loop of `RBtree_destroy`. -/
def round (st : Destroying) : Exec Destroying := do
  let cur ← Exec.deref (← st.stack.listFront)
  let st ← st.pushChild .right cur
  let st ← st.pushChild .left cur
  let n ← st.get cur
  if n.left = none ∧ n.right = none then
    let (_, stack) ← st.stack.listPopFront
    { st with stack := stack }.free cur
  else return st

/-- The loop of `RBtree_destroy`. -/
def loop : ℕ → Destroying → Exec Destroying
  | 0, _ => .error .fuel
  | fuel + 1, st =>
    if st.stack.listIsEmpty then .ok st else do loop fuel (← st.round)

end Destroying

/-- The nodes in memory before anything is cut; `sentinel` is what the sentinel holds. -/
def links (rb : RBtree K V) (sentinel : Links) (a : Addr) : Option Links :=
  if a = nil then some sentinel else (rb.node a).map fun n => ⟨some n.left, some n.right⟩

/-- `RBtree_destroy`: the pointers that are passed to `free`. -/
def RBtreeDestroy (rb : RBtree K V) (sentinel : Links) (fuel : ℕ) : Exec (List Freed) :=
  if rb.size ≠ 0 then do
    let stack ← ListT.listCreate.listPushFront rb.root true
    let st ← Destroying.loop fuel ⟨rb.links sentinel, stack, []⟩
    let _ ← st.stack.listDestroy
    return st.freed ++ [.tree]
  else .ok [.tree]

/-! ## Exactness -/

/-- The nodes that the links lead to from the root on. -/
inductive InTree (rb : RBtree K V) : Addr → Prop
  | root : rb.root ≠ nil → InTree rb rb.root
  | child {a : Addr} {n : RBnode K V} (s : Side) :
    InTree rb a → rb.node a = some n → n.child s ≠ nil → InTree rb (n.child s)

/-- `RBtree_destroy` returns, reading no node that it has freed, and what it frees is every node of
the tree once, and then the tree. -/
def DestroysOnce (rb : RBtree K V) (sentinel : Links) : Prop :=
  ∃ (fuel : ℕ) (nodes : List Addr),
    rb.RBtreeDestroy sentinel fuel = .ok (nodes.map .node ++ [.tree]) ∧ nodes.Nodup ∧
      ∀ a, a ∈ nodes ↔ rb.InTree a

/-- The rounds from the root of `t` on meet the nodes on the right of it, and then the sentinel. -/
def Spine (node : Addr → Option Links) : Tree (Entry K V) → Prop
  | .leaf => (node nil).isSome
  | .node _ l x r => x.addr ≠ nil ∧ x.addr ∉ addrs r ∧
    node x.addr = some ⟨some (addr l), some (addr r)⟩ ∧ Spine node r

variable {node node' : Addr → Option Links} {t : Tree (Entry K V)} {rb : RBtree K V} {p : Addr}

theorem Spine.congr (h : Spine node t) (hnil : node' nil = node nil)
    (heq : ∀ a ∈ addrs t, node' a = node a) : Spine node' t := by
  induction t with
  | leaf => rwa [Spine, hnil]
  | node c l x r ihl ihr =>
    obtain ⟨hx, hr, hcell, hspine⟩ := h
    have hmem := @mem_addrs_join K V l r x .left c
    exact ⟨hx, hr, by rw [heq _ (hmem.mpr (.inl rfl)), hcell],
      ihr hspine fun a ha => heq a (hmem.mpr (.inr (.inr ha)))⟩

/-- A tree in memory has its nodes on the right. -/
theorem spine_of_rep (h : Rep rb.node p t) (hnodup : (addrs t).Nodup) (sentinel : Links) :
    Spine (rb.links sentinel) t := by
  induction t generalizing p with
  | leaf => simp [Spine, links]
  | node c l x r ihl ihr =>
    obtain ⟨hx, hcell, hl, hr⟩ := h
    rw [addrs, toList, List.map_append, List.map_cons] at hnodup
    obtain ⟨-, hnodup, -⟩ := List.nodup_append.mp hnodup
    obtain ⟨hxr, hnodup⟩ := List.nodup_cons.mp hnodup
    refine ⟨hx, hxr, ?_, ihr hr hnodup⟩
    simp [links, hx, hcell, cell]

namespace Destroying

open ListT

variable {st : Destroying} {cur : Addr} {n : Links} {xs : List (ℕ × Addr)} {rest : List Addr}

/-- A child that is there is on top of the stack afterwards, and the link to it is null. -/
theorem pushChild_spec (s : Side) (hcur : st.node cur = some n) (hstack : Represents st.stack xs) :
    ∃ stack k, st.pushChild s cur =
      .ok ⟨Function.update st.node cur (some (n.cut s)), stack, st.freed⟩ ∧
        Represents stack ((n.child s).toList.map (k, ·) ++ xs) := by
  cases hs : n.child s with
  | none =>
    rw [n.cut_eq_self hs, ← hcur, Function.update_eq_self]
    exact ⟨st.stack, 0, by simp [pushChild, get, hcur, hs], hstack⟩
  | some a =>
    obtain ⟨stack, hpush, hstack'⟩ := listPushFront_spec hstack a
    exact ⟨stack, st.stack.fresh, by simp [pushChild, get, hcur, hs, hpush], hstack'⟩

theorem not_isEmpty (hstack : Represents st.stack xs) (htop : xs.map Prod.snd = cur :: rest) :
    st.stack.listIsEmpty = false := by
  rw [listIsEmpty_spec hstack]
  cases xs with
  | nil => simp at htop
  | cons x xs => rfl

/-- A round frees the node that is on top, and pops what is on top once the children are pushed. -/
theorem round_spec (hcur : st.node cur = some n) (hstack : Represents st.stack xs)
    (htop : xs.map Prod.snd = cur :: rest) :
    ∃ stack ys, st.round =
      (⟨Function.update st.node cur (some ⟨none, none⟩), stack, st.freed⟩ : Destroying).free cur ∧
        Represents stack ys ∧
          ys.map Prod.snd = (n.left.toList ++ (n.right.toList ++ cur :: rest)).tail := by
  obtain ⟨a, xs, rfl⟩ : ∃ a xs', xs = (a, cur) :: xs' := by
    cases xs with
    | nil => simp at htop
    | cons x xs => exact ⟨x.1, xs, by rw [← (List.cons.inj htop).1]⟩
  obtain ⟨stack₁, k₁, hright, hstack₁⟩ := pushChild_spec .right hcur hstack
  let st₁ : Destroying := ⟨Function.update st.node cur (some (n.cut .right)), stack₁, st.freed⟩
  have hcur₁ : st₁.node cur = some (n.cut .right) := Function.update_self ..
  obtain ⟨stack₂, k₂, hleft, hstack₂⟩ := pushChild_spec .left hcur₁ hstack₁
  generalize hys : (((n.cut .right).child .left).toList.map (k₂, ·) ++
    ((n.child .right).toList.map (k₁, ·) ++ (a, cur) :: xs)) = ys at hstack₂
  have hvals : ys.map Prod.snd = n.left.toList ++ (n.right.toList ++ cur :: rest) := by
    rw [← hys, ← htop]
    simp [Links.child, Links.cut, Function.comp_def]
  cases ys with
  | nil => simp at hvals
  | cons y ys =>
    obtain ⟨stack, hpop, hstack'⟩ := listPopFront_spec hstack₂
    refine ⟨stack, ys, ?_, hstack', by rw [← hvals]; rfl⟩
    rw [round, listFront_spec hstack, Exec.ok_bind, Exec.deref_some, Exec.ok_bind, hright,
      Exec.ok_bind, hleft]
    simp [st₁, get, hpop, Links.cut]

/-- The rounds go down on the right and free the sentinel in the end. -/
theorem loop_fails {t : Tree (Entry K V)} (hspine : Spine st.node t)
    (hstack : Represents st.stack xs) (htop : xs.map Prod.snd = addr t :: rest) (fuel : ℕ) :
    loop fuel st = .error .fuel ∨ loop fuel st = .error .outOfBounds := by
  induction t generalizing st xs rest fuel with
  | leaf =>
    cases fuel with
    | zero => exact .inl rfl
    | succ fuel =>
      obtain ⟨n, hn⟩ := Option.isSome_iff_exists.mp hspine
      obtain ⟨stack, ys, hround, -, -⟩ := round_spec hn hstack htop
      have hfree : st.round = .error .outOfBounds := by rw [hround, free, if_pos rfl]
      exact .inr (by simp [loop, not_isEmpty hstack htop, hfree])
  | node c l x r ihl ihr =>
    obtain ⟨hx, hxr, hcell, hspine⟩ := hspine
    cases fuel with
    | zero => exact .inl rfl
    | succ fuel =>
      obtain ⟨stack, ys, hround, hstack', hys⟩ := round_spec hcell hstack htop
      have hfree : st.round = .ok ⟨Function.update st.node x.addr none, stack,
          st.freed ++ [.node x.addr]⟩ := by
        simp [hround, free, hx, get]
      have hloop : loop (fuel + 1) st = loop fuel ⟨Function.update st.node x.addr none, stack,
          st.freed ++ [.node x.addr]⟩ := by
        simp [loop, not_isEmpty hstack htop, hfree]
      rw [hloop]
      -- the left child has been popped, and the right one is on top
      refine ihr (hspine.congr ?_ fun a ha => ?_) hstack' hys fuel
      · exact Function.update_of_ne hx.symm ..
      · refine Function.update_of_ne ?_ ..
        rintro rfl
        exact hxr ha

end Destroying

theorem destroy_fails (h : Holds rb t) (hsize : rb.size ≠ 0) (sentinel : Links) (fuel : ℕ) :
    rb.RBtreeDestroy sentinel fuel = .error .fuel ∨
      rb.RBtreeDestroy sentinel fuel = .error .outOfBounds := by
  obtain ⟨stack, hpush, hstack⟩ := ListT.listPushFront_spec ListT.represents_listCreate rb.root
  let st : Destroying := ⟨rb.links sentinel, stack, []⟩
  have hspine : Spine st.node t := spine_of_rep h.rep h.nodup sentinel
  rw [RBtreeDestroy, if_pos hsize, hpush, Exec.ok_bind]
  rcases Destroying.loop_fails hspine hstack (congrArg (fun a => [a]) h.root) fuel with
    hloop | hloop
  · exact .inl (by rw [hloop, Exec.error_bind])
  · exact .inr (by rw [hloop, Exec.error_bind])

theorem Inv.destroysOnce_iff_empty {compare : K → K → Int} (I : Inv compare rb t) (sentinel : Links) :
    DestroysOnce rb sentinel ↔ rb.size = 0 := by
  constructor
  · rintro ⟨fuel, nodes, hdestroy, -⟩
    by_contra hsize
    rcases destroy_fails I.holds hsize sentinel fuel with hfail | hfail
    · cases hdestroy.symm.trans hfail
    · cases hdestroy.symm.trans hfail
  · intro hsize
    have hroot : rb.root = nil := by
      cases t with
      | leaf => exact I.holds.root
      | node c l x r =>
        have hcount := I.size
        simp [toList, hsize] at hcount
    refine ⟨0, [], by simp [RBtreeDestroy, hsize], List.nodup_nil, fun a => ?_⟩
    refine iff_of_false (List.not_mem_nil) fun ha => ?_
    induction ha with
    | root hne => exact hne hroot
    | child s _ _ _ ih => exact ih

theorem Always.mono {compare : K → K → Int} {P Q : RBtree K V → Prop} {ops : List (Op K V)}
    (h : Always compare P rb ops) (hPQ : ∀ rb, P rb → Q rb) : Always compare Q rb ops := by
  induction ops generalizing rb with
  | nil => exact hPQ rb h
  | cons op ops ih =>
    obtain ⟨hP, a, rb', hstep, hrest⟩ := h
    exact ⟨hPQ rb hP, a, rb', hstep, ih hrest⟩

/-- **Destroying a tree frees each node once exactly if** it has none. -/
theorem destroysOnce_iff {compare : K → K → Int} (ho : StrictOrder compare) (dummy : RBnode K V)
    (ops : List (Op K V)) (h : Proper compare (create dummy) ops) :
    Always compare (fun rb => ∀ sentinel, DestroysOnce rb sentinel ↔ rb.size = 0) (create dummy)
      ops := by
  refine (always_valid_of_inv ho (inv_create compare dummy) maps_nil h).mono ?_
  rintro rb ⟨t, I⟩ sentinel
  exact I.destroysOnce_iff_empty sentinel

/-- Two keys are inserted and deleted again. -/
theorem destroysOnce_two_keys :
    Always compareNat (fun rb => ∀ sentinel, DestroysOnce rb sentinel ↔ rb.size = 0)
      (create ⟨7, 8, 9, .red, 0, 0⟩ : RBtree ℕ ℕ)
      [.insert 5 50, .insert 2 20, .delete 5, .delete 2] :=
  destroysOnce_iff strictOrder_compareNat _ _ (by decide +kernel)

/-- A tree of one node: the sentinel is freed after it. -/
theorem not_destroysOnce_one_key : ∃ rb,
    (create ⟨7, 8, 9, .red, 0, 0⟩ : RBtree ℕ ℕ).RBtreeInsert compareNat 5 50 = .ok (1, rb) ∧
      rb.RBtreeDestroy ⟨none, none⟩ 2 = .error .outOfBounds ∧
        ∀ sentinel, ¬ DestroysOnce rb sentinel := by
  obtain ⟨rb, hinsert, hdestroy, hsize⟩ : ∃ rb,
      (create ⟨7, 8, 9, .red, 0, 0⟩ : RBtree ℕ ℕ).RBtreeInsert compareNat 5 50 = .ok (1, rb) ∧
        rb.RBtreeDestroy ⟨none, none⟩ 2 = .error .outOfBounds ∧ rb.size = 1 :=
    ⟨_, rfl, rfl, rfl⟩
  refine ⟨rb, hinsert, hdestroy, fun sentinel honce => ?_⟩
  rcases RBtreeInsert_spec strictOrder_compareNat (inv_create compareNat ⟨7, 8, 9, .red, 0, 0⟩) 5 50
    with ⟨⟨w, hw⟩, -⟩ | ⟨-, x, rb', t', -, -, hinsert', -, -, -, I, -⟩
  · simp [data, toList] at hw
  · obtain rfl : rb' = rb := (Prod.mk.inj (Except.ok.inj (hinsert'.symm.trans hinsert))).2
    have hempty := (I.destroysOnce_iff_empty sentinel).mp honce
    omega

end Kendylib.RBtree
