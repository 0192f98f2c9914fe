import Kendylib.Container.ListTRuns

/-!
# Iterators of the doubly linked list

A list is a sequence of nodes, and an iterator is a place in it, at a node or at a sentinel, with
the direction in which it goes on.

- `Valid`: the iterator is at a place of the list, and the link field that it has the address of, if
  any, is one of the node there.
- `act`: what an operation does to the sequence, and what it answers. A node goes in before or after
  the place of the iterator, and an erase answers with the iterator at the neighbour of its node in
  the direction of its own.
- `Shows`: what a list shows of its sequence. An iterator goes on to the neighbour of its place, and
  the loops from `list_begin` and from `list_rbegin` visit the sequence forwards and backwards.
- `follows_iterators`: in every run from a new list, with valid iterators, the list is the sequence
  all along.
-/

namespace Kendylib.ListT

variable {V : Type}

/-! ## Places -/

/-- The place beside a place, in a direction. -/
def neighbour (xs : List (ℕ × V)) (p : NodePtr) : Link → Option NodePtr
  | .next => cellAfter (ring xs) p
  | .pre => cellBefore (ring xs) p

/-- The number of the place of an iterator; the head is the place `0`. -/
def place (xs : List (ℕ × V)) (it : ListIter) : ℕ :=
  match it.n with
  | some p => (ring xs).idxOf p
  | none => 0

/-- The iterator at a place that goes in a direction. -/
def iterAt (f : Link) (p : NodePtr) : ListIter := ⟨some (p, f), some p⟩

/-- The iterator that comes next: at the neighbour, with the same direction. An iterator without a
direction stays. -/
def nextIter (xs : List (ℕ × V)) (it : ListIter) : Option ListIter :=
  match it.next with
  | none => some it
  | some (p, f) => (neighbour xs p f).map (iterAt f)

/-- The iterator is at a place of the list, and it has the address of a link field of the node
there. At a sentinel it may have a null address. -/
def Valid (l : ListT V) (it : ListIter) : Prop :=
  it.n ∈ (ring l.entries).map some ∧
    (it.next.map Prod.fst = it.n ∨
      it.next = none ∧ (it.n = some .head ∨ it.n = some .endNode))

instance (l : ListT V) (it : ListIter) : Decidable (Valid l it) :=
  inferInstanceAs (Decidable (_ ∧ _))

/-- The loop that goes on with `list_iter_next` until the iterator is equal to `stop`: the iterators
that it comes to, with the values there. -/
def visits (l : ListT V) (stop : ListIter) : ℕ → ListIter → Exec (List (ListIter × V))
  | 0, _ => .error .fuel
  | fuel + 1, it =>
    if listIterIsEqual it stop then .ok []
    else do
      let v ← l.listIterGetVal it
      let rest ← visits l stop fuel (← l.listIterNext it)
      return (it, v) :: rest

/-! ## Operations -/

/-- What an operation answers. -/
inductive Answer (V : Type)
  | unit
  | value (out : Option V)
  | iter (it : Option ListIter)
  | number (r : Int)

section Operations

variable [DecidableEq V]

/-- A call, with its answer. -/
def call (l : ListT V) : Op V → Exec (Answer V × ListT V)
  | .insertAfter it val calloc => do return (.unit, ← l.listInsertAfter it val calloc)
  | .insertBefore it val calloc => do return (.unit, ← l.listInsertBefore it val calloc)
  | .pushBack val calloc => do return (.unit, ← l.listPushBack val calloc)
  | .pushFront val calloc => do return (.unit, ← l.listPushFront val calloc)
  | .popBack => do
    let (out, l) ← l.listPopBack
    return (.value out, l)
  | .popFront => do
    let (out, l) ← l.listPopFront
    return (.value out, l)
  | .erase it => do
    let (it, l) ← l.listErase it
    return (.iter (some it), l)
  | .remove v => do
    let (r, l) ← l.listRemove v
    return (.number r, l)
  | .setVal it v => do return (.unit, ← l.listIterSetVal it v)

/-- What an operation does to the sequence, where a node that goes in is `new`. -/
def act (xs : List (ℕ × V)) (new : ℕ) : Op V → Answer V × List (ℕ × V)
  | .insertAfter it val calloc =>
    (.unit, if calloc then xs.insertIdx (place xs it) (new, val) else xs)
  | .insertBefore it val calloc =>
    (.unit, if calloc then xs.insertIdx (place xs it - 1) (new, val) else xs)
  | .pushBack val calloc => (.unit, if calloc then xs ++ [(new, val)] else xs)
  | .pushFront val calloc => (.unit, if calloc then (new, val) :: xs else xs)
  | .popBack => (.value (xs.getLast?.map Prod.snd), xs.dropLast)
  | .popFront => (.value (xs.head?.map Prod.snd), xs.tail)
  | .erase it => (.iter (nextIter xs it), xs.eraseIdx (place xs it - 1))
  | .remove v => (.number 1, xs.eraseP fun x => x.2 = v)
  | .setVal it v => (.unit, xs.modify (place xs it - 1) fun x => (x.1, v))

/-- The iterators of a call are valid. Nothing goes in after the end or before the head, only an
element is erased or written, and a value that is removed is in the list. -/
def Allowed (l : ListT V) : Op V → Prop
  | .insertAfter it _ _ => Valid l it ∧ it.n ≠ some .endNode
  | .insertBefore it _ _ => Valid l it ∧ it.n ≠ some .head
  | .erase it | .setVal it _ => Valid l it ∧ it.n ≠ some .head ∧ it.n ≠ some .endNode
  | .remove v => v ∈ l.values
  | _ => True

instance (l : ListT V) : (op : Op V) → Decidable (Allowed l op)
  | .insertAfter _ _ _ | .insertBefore _ _ _ => inferInstanceAs (Decidable (_ ∧ _))
  | .erase _ | .setVal _ _ => inferInstanceAs (Decidable (_ ∧ _ ∧ _))
  | .remove _ => inferInstanceAs (Decidable (_ ∈ _))
  | .pushBack _ _ | .pushFront _ _ | .popBack | .popFront => isTrue trivial

end Operations

/-- What a loop comes to at a node. -/
def met (f : Link) (x : ℕ × V) : ListIter × V := (iterAt f (.node x.1), x.2)

/-- What a list shows of its sequence. -/
structure Shows (l : ListT V) (xs : List (ℕ × V)) : Prop where
  represents : l.Represents xs
  next : ∀ it, l.Valid it → l.listIterNext it = Exec.deref (nextIter xs it)
  forwards : (do l.visits listEnd (l.size + 1) (← l.listBegin)) = .ok (xs.map (met .next))
  backwards : (do l.visits listRend (l.size + 1) (← l.listRbegin)) = .ok (xs.reverse.map (met .pre))
  front : l.listFront = .ok (xs.head?.map Prod.snd)
  back : l.listBack = .ok (xs.getLast?.map Prod.snd)

/-- The list is the sequence all along the run: every call returns with the answer that the sequence
gives, and an iterator that it answers with is valid. -/
def Follows [DecidableEq V] (l : ListT V) (xs : List (ℕ × V)) : List (Op V) → Prop
  | [] => Shows l xs
  | op :: ops => Shows l xs ∧
    ∃ l', l.call op = .ok ((act xs l.fresh op).1, l') ∧
      (∀ it, (act xs l.fresh op).1 = .iter (some it) → l'.Valid it) ∧
      Follows l' (act xs l.fresh op).2 ops

variable {l l' : ListT V} {xs l₁ l₂ : List (ℕ × V)} {x : ℕ × V} {a k : ℕ} {v : V} {p : NodePtr}
  {f : Link} {it stop : ListIter}

/-! ## The next iterator -/

theorem Represents.valid_cases (h : Represents l xs) (hv : Valid l it) :
    ∃ p ∈ ring xs, it.n = some p ∧
      ((∃ f, it.next = some (p, f)) ∨ it.next = none ∧ (p = .head ∨ p = .endNode)) := by
  obtain ⟨hn, hnext⟩ := hv
  rw [h.entries] at hn
  obtain ⟨p, hp, hn⟩ := List.mem_map.mp hn
  refine ⟨p, hp, hn.symm, ?_⟩
  rw [← hn] at hnext
  simpa [Option.map_eq_some_iff] using hnext

theorem Represents.valid_iterAt (h : Represents l xs) (hp : p ∈ ring xs) (f : Link) :
    Valid l (iterAt f p) := by
  refine ⟨?_, .inl rfl⟩
  rw [h.entries]
  exact List.mem_map_of_mem hp

/-- The link fields of a place lead to its neighbours. -/
theorem Represents.link_eq (h : Represents l xs) (hp : p ∈ ring xs) (f : Link) :
    l.link f p = .ok (neighbour xs p f) := by
  have hchain : (ring xs).IsChain (Joined l.next l.pre) := h.chain
  have htouch := h.touch hp l rfl
  cases f with
  | next =>
    have hlast : ∀ z ∈ (ring xs).getLast?, l.next z = none := by
      rw [ring, ← List.cons_append, List.getLast?_concat]
      simp [h.last]
    exact link_next.mpr ⟨htouch, joined_next hchain hlast hp⟩
  | pre =>
    have hfirst : ∀ z ∈ (ring xs).head?, l.pre z = none := by simp [ring, h.first]
    exact link_pre.mpr ⟨htouch, joined_pre hchain hfirst hp⟩

/-- **`list_iter_next`** goes on to the neighbour in the direction of the iterator, and keeps the
direction. -/
theorem listIterNext_spec (h : Represents l xs) (hv : Valid l it) :
    l.listIterNext it = Exec.deref (nextIter xs it) := by
  obtain ⟨p, hp, hn, ⟨f, hf⟩ | ⟨hnone, -⟩⟩ := h.valid_cases hv
  · rw [listIterNext, nextIter, hf]
    dsimp only
    rw [h.link_eq hp f, Exec.ok_bind, if_pos hn]
    cases neighbour xs p f <;> rfl
  · rw [listIterNext, nextIter, hnone]
    rfl

/-- The places beside a node, between the parts of the sequence before it and after it. -/
def beside (l₁ l₂ : List (ℕ × V)) : Link → NodePtr
  | .next => firstPtr l₂
  | .pre => lastPtr l₁

theorem beside_mem (l₁ l₂ : List (ℕ × V)) (f : Link) : beside l₁ l₂ f ∈ ring (l₁ ++ l₂) := by
  cases f with
  | next => exact Represents.firstPtr_mem l₁ l₂
  | pre => exact Represents.lastPtr_mem l₁ l₂

theorem Represents.nextIter_node (h : Represents l (l₁ ++ (a, v) :: l₂)) (f : Link) :
    nextIter (l₁ ++ (a, v) :: l₂) (iterAt f (.node a)) = some (iterAt f (beside l₁ l₂ f)) := by
  have hlink := h.link_eq (p := .node a) (by simp) f
  have hbefore : Joined l.next l.pre (lastPtr l₁) (.node a) := h.joined
  have hneighbour : neighbour (l₁ ++ (a, v) :: l₂) (.node a) f = some (beside l₁ l₂ f) := by
    cases f with
    | next => exact (link_next.mp hlink).2.symm.trans h.joined_node.1
    | pre => exact (link_pre.mp hlink).2.symm.trans hbefore.2
  simp [nextIter, iterAt, hneighbour]

/-! ## Loops over the list -/

/-- A loop comes to a node and goes on to the place beside it. -/
theorem visits_node (h : Represents l (l₁ ++ x :: l₂)) (hstop : stop.n ≠ some (.node x.1))
    {rest : List (ListIter × V)} (hrest : l.visits stop k (iterAt f (beside l₁ l₂ f)) = .ok rest) :
    l.visits stop (k + 1) (iterAt f (.node x.1)) = .ok (met f x :: rest) := by
  have hval : l.listIterGetVal (iterAt f (.node x.1)) = .ok x.2 := valueOf_spec h
  have hvalid : Valid l (iterAt f (.node x.1)) := h.valid_iterAt (by simp) f
  have hequal : listIterIsEqual (iterAt f (.node x.1)) stop = false := by
    simpa [listIterIsEqual, iterAt] using Ne.symm hstop
  rw [visits, hequal, if_neg Bool.false_ne_true, hval, Exec.ok_bind, listIterNext_spec h hvalid,
    h.nextIter_node, Exec.deref_some, Exec.ok_bind, hrest]
  rfl

theorem visits_forwards (h : Represents l (l₁ ++ l₂)) :
    l.visits listEnd (l₂.length + 1) (iterAt .next (firstPtr l₂)) = .ok (l₂.map (met .next)) := by
  induction l₂ generalizing l₁ with
  | nil => rfl
  | cons x l₂ ih =>
    have hrest : Represents l ((l₁ ++ [x]) ++ l₂) := by simpa using h
    exact visits_node h (by simp [listEnd]) (ih hrest)

theorem visits_backwards (h : Represents l (l₁ ++ l₂)) :
    l.visits listRend (l₁.length + 1) (iterAt .pre (lastPtr l₁)) =
      .ok (l₁.reverse.map (met .pre)) := by
  induction l₁ using List.reverseRecOn generalizing l₂ with
  | nil => rfl
  | append_singleton l₁ x ih =>
    have hrest : Represents l (l₁ ++ x :: l₂) := by simpa using h
    rw [lastPtr_concat, List.length_append, List.reverse_append]
    exact visits_node hrest (by simp [listRend]) (ih hrest)

theorem Represents.shows (h : Represents l xs) : Shows l xs where
  represents := h
  next it hv := listIterNext_spec h hv
  forwards := by
    have hcut : Represents l ([] ++ xs) := h
    rw [listBegin_spec h, h.size]
    exact visits_forwards hcut
  backwards := by
    have hcut : Represents l (xs ++ []) := by simpa using h
    rw [listRbegin_spec h, h.size]
    exact visits_backwards hcut
  front := by
    cases xs with
    | nil =>
      rw [listFront, h.size]
      rfl
    | cons x xs => exact listFront_spec h
  back := by
    rcases List.eq_nil_or_concat xs with rfl | ⟨ys, x, rfl⟩
    · rw [listBack, h.size]
      rfl
    · rw [List.concat_eq_append] at h ⊢
      rw [listBack_spec h, List.getLast?_concat]
      rfl

/-! ## What an operation does -/

theorem place_firstPtr (hnodup : ((l₁ ++ l₂).map Prod.fst).Nodup) (hn : it.n = some (firstPtr l₂)) :
    place (l₁ ++ l₂) it = l₁.length + 1 := by
  obtain ⟨r, hr⟩ := cells_endNode l₂
  have hring : ring (l₁ ++ l₂) = (.head :: cells l₁) ++ firstPtr l₂ :: r := by
    rw [ring, cells_append, List.append_assoc, hr]
    rfl
  have hring' := nodup_ring hnodup
  rw [hring] at hring'
  rw [place, hn]
  dsimp only
  rw [hring, idxOf_append_cons hring']
  simp [cells]

theorem place_lastPtr (hnodup : ((l₁ ++ l₂).map Prod.fst).Nodup) (hn : it.n = some (lastPtr l₁)) :
    place (l₁ ++ l₂) it = l₁.length := by
  obtain ⟨c, hc⟩ := head_cells l₁
  have hring : ring (l₁ ++ l₂) = c ++ lastPtr l₁ :: (cells l₂ ++ [.endNode]) := by
    rw [ring, cells_append, List.append_assoc, ← List.cons_append, hc, List.append_assoc]
    rfl
  have hring' := nodup_ring hnodup
  have hlen := congrArg List.length hc
  rw [hring] at hring'
  rw [place, hn]
  dsimp only
  rw [hring, idxOf_append_cons hring']
  simpa [cells] using hlen.symm

theorem insertIdx_append {α : Type} (l r : List α) (x : α) :
    (l ++ r).insertIdx l.length x = l ++ x :: r :=
  List.modifyTailIdx_add _ 0 l r

/-- An iterator at an element of the list. -/
theorem Represents.element (h : Represents l xs) (hv : Valid l it) (hhead : it.n ≠ some .head)
    (hend : it.n ≠ some .endNode) :
    ∃ l₁ a v l₂ f, xs = l₁ ++ (a, v) :: l₂ ∧ it = iterAt f (.node a) := by
  obtain ⟨p, hp, hn, hnext⟩ := h.valid_cases hv
  cases p with
  | head => exact absurd hn hhead
  | endNode => exact absurd hn hend
  | node a =>
    rcases hnext with ⟨f, hf⟩ | ⟨-, hsentinel⟩
    · obtain ⟨x, hx, rfl⟩ := List.mem_map.mp (node_mem_ring.mp hp)
      obtain ⟨l₁, l₂, rfl⟩ := List.append_of_mem hx
      exact ⟨l₁, x.1, x.2, l₂, f, rfl, by rw [iterAt, ← hn, ← hf]⟩
    · simp at hsentinel

theorem Represents.place_node (h : Represents l (l₁ ++ (a, v) :: l₂)) (f : Link) :
    place (l₁ ++ (a, v) :: l₂) (iterAt f (.node a)) - 1 = l₁.length := by
  rw [place_firstPtr h.nodup rfl, Nat.add_sub_cancel]

/-- **`list_erase`** takes the node out, and answers with the iterator at its neighbour in the
direction of the one it is given. -/
theorem listErase_spec (h : Represents l (l₁ ++ (a, v) :: l₂)) (f : Link) :
    l.listErase (iterAt f (.node a)) =
      .ok (iterAt f (beside l₁ l₂ f), l.eraseBetween (lastPtr l₁) (firstPtr l₂) a) := by
  have hvalid : Valid l (iterAt f (.node a)) := h.valid_iterAt (by simp) f
  rw [listErase, listIterNext_spec h hvalid, h.nextIter_node, Exec.deref_some, Exec.ok_bind]
  show (do return (_, ← l.unlink (.node a))) = _
  rw [unlink_spec h]
  rfl

theorem listIterSetVal_spec (h : Represents l (l₁ ++ (a, v) :: l₂)) (f : Link) (w : V) :
    l.listIterSetVal (iterAt f (.node a)) w =
      .ok { l with value := Function.update l.value a (some w) } := by
  simp [listIterSetVal, iterAt, valueOf_spec h]

section Operations

variable [DecidableEq V] {op : Op V} {ops : List (Op V)}

theorem step_eq_call (l : ListT V) (op : Op V) : step l op = (l.call op).map Prod.snd := by
  have hunit : ∀ x : Exec (ListT V),
      x = (do return (.unit, ← x) : Exec (Answer V × ListT V)).map Prod.snd := by
    intro x
    cases x <;> rfl
  cases op with
  | insertAfter it val calloc => exact hunit _
  | insertBefore it val calloc => exact hunit _
  | pushBack val calloc => exact hunit _
  | pushFront val calloc => exact hunit _
  | popBack =>
    rw [step, call]
    cases l.listPopBack <;> rfl
  | popFront =>
    rw [step, call]
    cases l.listPopFront <;> rfl
  | erase it =>
    rw [step, call]
    cases l.listErase it <;> rfl
  | remove v =>
    rw [step, call]
    cases l.listRemove v <;> rfl
  | setVal it v => exact hunit _

/-- The call does to the list what it does to the sequence. -/
def Acts (l : ListT V) (xs : List (ℕ × V)) (op : Op V) : Prop :=
  ∃ l', l.call op = .ok ((act xs l.fresh op).1, l') ∧
    Represents l' (act xs l.fresh op).2 ∧
    ∀ it, (act xs l.fresh op).1 = .iter (some it) → l'.Valid it

theorem Represents.insertAfter (h : Represents l xs) (hv : Valid l it) (hend : it.n ≠ some .endNode)
    (val : V) : Acts l xs (.insertAfter it val true) := by
  obtain ⟨p, hp, hn, -⟩ := h.valid_cases hv
  obtain ⟨l₁, l₂, rfl, rfl⟩ := exists_cut_after hp fun hpe => hend (hpe ▸ hn)
  have hact : (act (l₁ ++ l₂) l.fresh (.insertAfter it val true)).2 =
      l₁ ++ (l.fresh, val) :: l₂ := by
    simp [act, place_lastPtr h.nodup hn, insertIdx_append]
  refine ⟨_, ?_, hact ▸ h.insert val, nofun⟩
  rw [call, listInsertAfter_spec h hn val]
  rfl

theorem Represents.insertBefore (h : Represents l xs) (hv : Valid l it) (hhead : it.n ≠ some .head)
    (val : V) : Acts l xs (.insertBefore it val true) := by
  obtain ⟨p, hp, hn, -⟩ := h.valid_cases hv
  obtain ⟨l₁, l₂, rfl, rfl⟩ := exists_cut_before hp fun hpe => hhead (hpe ▸ hn)
  have hact : (act (l₁ ++ l₂) l.fresh (.insertBefore it val true)).2 =
      l₁ ++ (l.fresh, val) :: l₂ := by
    simp [act, place_firstPtr h.nodup hn, insertIdx_append]
  refine ⟨_, ?_, hact ▸ h.insert val, nofun⟩
  rw [call, listInsertBefore_spec h hn val]
  rfl

theorem Represents.pushBack (h : Represents l xs) (val : V) : Acts l xs (.pushBack val true) := by
  obtain ⟨l', hpush, h'⟩ := listPushBack_spec h val
  exact ⟨l', by rw [call, hpush]; rfl, h', nofun⟩

theorem Represents.pushFront (h : Represents l xs) (val : V) : Acts l xs (.pushFront val true) := by
  obtain ⟨l', hpush, h'⟩ := listPushFront_spec h val
  exact ⟨l', by rw [call, hpush]; rfl, h', nofun⟩

theorem Represents.popBack (h : Represents l xs) : Acts l xs .popBack := by
  rcases List.eq_nil_or_concat xs with rfl | ⟨ys, x, rfl⟩
  · exact ⟨l, by rw [call, listPopBack, h.size]; rfl, h, by simp [act]⟩
  · rw [List.concat_eq_append] at h ⊢
    obtain ⟨l', hpop, h'⟩ := listPopBack_spec h
    exact ⟨l', by simp [call, hpop, act], by simpa [act] using h', by simp [act]⟩

theorem Represents.popFront (h : Represents l xs) : Acts l xs .popFront := by
  cases xs with
  | nil => exact ⟨l, by rw [call, listPopFront, h.size]; rfl, h, by simp [act]⟩
  | cons x xs =>
    obtain ⟨l', hpop, h'⟩ := listPopFront_spec h
    exact ⟨l', by rw [call, hpop]; rfl, h', by simp [act]⟩

theorem Represents.eraseAt (h : Represents l (l₁ ++ (a, v) :: l₂)) (f : Link) :
    Acts l (l₁ ++ (a, v) :: l₂) (.erase (iterAt f (.node a))) := by
  have hact : act (l₁ ++ (a, v) :: l₂) l.fresh (.erase (iterAt f (.node a))) =
      (.iter (some (iterAt f (beside l₁ l₂ f))), l₁ ++ l₂) := by
    rw [act, h.nextIter_node, h.place_node, List.eraseIdx_append_of_length_le le_rfl,
      Nat.sub_self, List.eraseIdx_zero, List.tail_cons]
  rw [Acts, hact]
  refine ⟨_, ?_, h.erase, fun it hit => ?_⟩
  · rw [call, listErase_spec h]
    rfl
  · cases hit
    exact h.erase.valid_iterAt (beside_mem l₁ l₂ f) f

theorem Represents.setValAt (h : Represents l (l₁ ++ (a, v) :: l₂)) (f : Link) (w : V) :
    Acts l (l₁ ++ (a, v) :: l₂) (.setVal (iterAt f (.node a)) w) := by
  have hact : act (l₁ ++ (a, v) :: l₂) l.fresh (.setVal (iterAt f (.node a)) w) =
      (.unit, l₁ ++ (a, w) :: l₂) := by
    rw [act, h.place_node]
    exact congrArg (Prod.mk Answer.unit) (List.modifyTailIdx_add _ 0 l₁ _)
  rw [Acts, hact]
  refine ⟨_, ?_, h.setVal w, nofun⟩
  rw [call, listIterSetVal_spec h]
  rfl

/-- **One call** does to the list what it does to the sequence. -/
theorem Represents.acts (h : Represents l xs) (hop : Allowed l op) : Acts l xs op := by
  cases op with
  | insertAfter it val calloc =>
    cases calloc with
    | false => exact ⟨l, rfl, h, nofun⟩
    | true => exact h.insertAfter hop.1 hop.2 val
  | insertBefore it val calloc =>
    cases calloc with
    | false => exact ⟨l, rfl, h, nofun⟩
    | true => exact h.insertBefore hop.1 hop.2 val
  | pushBack val calloc =>
    cases calloc with
    | false => exact ⟨l, rfl, h, nofun⟩
    | true => exact h.pushBack val
  | pushFront val calloc =>
    cases calloc with
    | false => exact ⟨l, by rw [call, listPushFront, listBegin_spec h]; rfl, h, nofun⟩
    | true => exact h.pushFront val
  | popBack => exact h.popBack
  | popFront => exact h.popFront
  | erase it =>
    obtain ⟨l₁, a, v, l₂, f, rfl, rfl⟩ := h.element hop.1 hop.2.1 hop.2.2
    exact h.eraseAt f
  | remove v =>
    have hv : v ∈ xs.map Prod.snd := by
      have hmem : v ∈ l.values := hop
      rwa [values, h.entries] at hmem
    obtain ⟨l', hremove, h'⟩ := listRemove_mem h hv
    exact ⟨l', by rw [call, hremove]; rfl, h', by simp [act]⟩
  | setVal it w =>
    obtain ⟨l₁, a, v, l₂, f, rfl, rfl⟩ := h.element hop.1 hop.2.1 hop.2.2
    exact h.setValAt f w

/-! ## Runs -/

theorem Represents.follows (h : Represents l xs) (hops : Exec.BeforeEach step Allowed l ops) :
    Follows l xs ops := by
  induction ops generalizing l xs with
  | nil => exact h.shows
  | cons op ops ih =>
    obtain ⟨hop, hrest⟩ := hops
    obtain ⟨l', hcall, h', hvalid⟩ := h.acts hop
    have hstep : step l op = .ok l' := by
      rw [step_eq_call, hcall]
      rfl
    rw [hstep] at hrest
    exact ⟨h.shows, l', hcall, hvalid, ih h' hrest⟩

/-- **The list is a sequence with iterators** in every run from a new list: the operations do to the
list what they do to the sequence, an erase answers with the iterator at the neighbour in its own
direction, and stepping goes along the sequence in both directions. -/
theorem follows_iterators (ops : List (Op V))
    (hops : Exec.BeforeEach step Allowed (listCreate : ListT V) ops) :
    Follows (listCreate : ListT V) [] ops :=
  represents_listCreate.follows hops

/-- Four values go in at the ends and at iterators, and one is erased by an iterator that goes
backwards. -/
def eraseBackwards : List (Op ℕ) :=
  [.pushBack 10 true, .pushFront 20 true, .insertAfter listRend 30 true,
    .insertBefore (iterAt .next (.node 0)) 40 true, .erase (iterAt .pre (.node 1)), .popBack]

theorem follows_iterators_backwards :
    Exec.BeforeEach step Allowed listCreate eraseBackwards ∧
      Follows listCreate [] eraseBackwards :=
  have hops : Exec.BeforeEach step Allowed listCreate eraseBackwards := by decide +kernel
  ⟨hops, follows_iterators _ hops⟩

end Operations

end Kendylib.ListT
