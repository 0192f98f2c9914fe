import Kendylib.Container.HashMapProbing
import Kendylib.Foundations.Run
import Mathlib.Data.Multiset.AddSub
import Mathlib.Tactic.Abel

/-!
# What a hash map hands back

A map is made with a function `_on_remove`. `hash_map_remove` and `hash_map_erase` call it with the key
and the value of the item that they delete, and `hash_map_destroy` calls it with those of every item in
use. So a program can leave to the map what belongs to a pair: what it has put in comes back once, unless
`hash_map_iter_set_val` overwrites it. An iterator may be used, whatever calls have been made since it was
found, as long as the table is the same and there is an item in use in its slot.

A pair is lost if the table is expanded while its key is in two slots, since the new table takes the key
once; nothing else loses a pair or hands one back twice (`handsBack_iff`).
-/

namespace Kendylib.HashMap

variable {K V : Type}

section Code

variable (hash : K → UInt64) (keyCmp : K → K → Int)

/-- What `_on_remove` is called with for the item in a slot. -/
def itemPair (h : HashMap K V) (slot : ℕ) : Exec (K × V) := do
  match ← h.getItem slot with
  | .used _ k v | .delete _ k v => return (k, v)
  | .empty => .error .freed

/-- The loop of `hash_map_destroy`, with `n` slots to go: what `_on_remove` is called with. -/
def destroyLoop (h : HashMap K V) : ℕ → ℕ → Exec (List (K × V))
  | 0, _ => .ok []
  | n + 1, i => do
    match ← h.getItem i with
    | .used _ k v => return (k, v) :: (← destroyLoop h n (i + 1))
    | _ => destroyLoop h n (i + 1)

/-- `hash_map_destroy`. -/
def hashMapDestroy (h : HashMap K V) : Exec (List (K × V)) := destroyLoop h h.slotSize 0

/-- A map, and for the record the pairs that have been put in (`given`), those that `_on_remove` has been
called with (`removed`), and those whose value has been overwritten (`replaced`). -/
structure Watched (K V : Type) where
  map : HashMap K V
  given : Multiset (K × V)
  removed : Multiset (K × V)
  replaced : Multiset (K × V)

/-- The calls that change the map. An iterator is given by its slot. -/
inductive Event (K V : Type)
  | insert (key : K) (val : V) (calloc : Bool)
  | remove (key : K)
  | erase (slot : ℕ)
  | setVal (slot : ℕ) (val : V)

namespace Watched

def start (slotSize : ℕ) : Watched K V := ⟨hashMapCreate slotSize, 0, 0, 0⟩

/-- A call. `hash_map_remove` calls `_on_remove` when it has set the flag, `hash_map_erase` before. -/
def step (w : Watched K V) : Event K V → Exec (Watched K V)
  | .insert k v calloc => do
    let (r, map) ← hashMapInsert hash keyCmp w.map k v calloc
    return { w with map := map, given := if r = 0 then (k, v) ::ₘ w.given else w.given }
  | .remove k => do
    match ← hashMapFind hash keyCmp w.map k with
    | some slot =>
      let map ← deleteItem w.map slot
      return { w with map := map, removed := (← itemPair map slot) ::ₘ w.removed }
    | none => return w
  | .erase slot => do
    let pair ← itemPair w.map slot
    return { w with map := ← deleteItem w.map slot, removed := pair ::ₘ w.removed }
  | .setVal slot v => do
    let pair ← itemPair w.map slot
    return { w with
      map := ← hashMapIterSetVal w.map (some slot) v
      given := (pair.1, v) ::ₘ w.given
      replaced := pair ::ₘ w.replaced }

end Watched

end Code

/-- There is an item in use in the slot. -/
def InUse (h : HashMap K V) (slot : ℕ) : Prop := (h.items[slot]?.bind Slot.inUse).isSome

instance (h : HashMap K V) (slot : ℕ) : Decidable (InUse h slot) :=
  inferInstanceAs (Decidable (_ = true))

namespace Watched

/-- The slots of the table after a call. -/
def slotsAfter (w : Watched K V) : Event K V → ℕ
  | .insert _ _ true => if NeedsExpand w.map then 2 * w.map.slotSize else w.map.slotSize
  | _ => w.map.slotSize

/-- The table stays below `2 ^ 32` bytes, and an iterator that is used has an item in use. -/
def Allowed (itemSize : ℕ) (w : Watched K V) (e : Event K V) : Prop :=
  w.slotsAfter e * itemSize < 2 ^ 32 ∧ match e with
    | .erase slot | .setVal slot _ => InUse w.map slot
    | _ => True

/-- The call expands a table that has a key in two slots. -/
def Merges (w : Watched K V) : Event K V → Prop
  | .insert _ _ calloc => NeedsExpand w.map ∧ calloc = true ∧ ¬ OneSlot w.map
  | _ => False

end Watched

/-! ## The pairs of a table -/

/-- The pairs of the items in use, in the order of the slots. -/
def pairs (t : List (Slot K V)) : List (K × V) := t.filterMap Slot.inUse

variable {hash : K → UInt64} {keyCmp : K → K → Int} {h h' : HashMap K V} {t : List (Slot K V)}

theorem getItem_iff {slot : ℕ} {x : Slot K V} : h.getItem slot = .ok x ↔ h.items[slot]? = some x := by
  rw [getItem]
  cases h.items[slot]? with
  | none => exact iff_of_false (fun h => by cases h) (fun h => by cases h)
  | some y => exact ⟨fun h => congrArg some (Except.ok.inj h), fun h => congrArg _ (Option.some.inj h)⟩

theorem destroyLoop_eq (n i : ℕ) (hn : i + n ≤ h.items.length) :
    destroyLoop h n i = .ok (pairs ((h.items.drop i).take n)) := by
  induction n generalizing i with
  | zero => rw [destroyLoop, List.take_zero]; rfl
  | succ n ih =>
    have hi : i < h.items.length := by omega
    have hget : h.getItem i = .ok h.items[i] := getItem_iff.mpr (List.getElem?_eq_getElem hi)
    rw [destroyLoop, hget, Exec.ok_bind, List.drop_eq_getElem_cons hi, List.take_succ_cons,
      ih (i + 1) (by omega)]
    cases hx : h.items[i] <;> rfl

theorem Sound.destroy (S : Sound hash h) : hashMapDestroy h = .ok (pairs h.items) := by
  rw [hashMapDestroy, destroyLoop_eq _ _ (by rw [Nat.zero_add, S.length]), List.drop_zero,
    List.take_of_length_le S.length.le]

/-- The pairs after a slot has been overwritten. -/
theorem pairs_set {s : ℕ} {y : Slot K V} (hs : t[s]? = some y) (x : Slot K V) :
    (pairs (t.set s x) : Multiset (K × V)) + y.inUse.toList = pairs t + x.inUse.toList := by
  obtain ⟨hlt, rfl⟩ := List.getElem?_eq_some_iff.mp hs
  have hpiece : ∀ z : Slot K V, pairs [z] = z.inUse.toList := fun z => by
    cases z <;> rfl
  have hold : pairs t = pairs (t.take s) ++ (pairs [t[s]] ++ pairs (t.drop (s + 1))) := by
    rw [pairs, pairs, pairs, pairs, ← List.filterMap_append, ← List.filterMap_append,
      List.singleton_append, List.getElem_cons_drop, List.take_append_drop]
  have hnew : pairs (t.set s x) = pairs (t.take s) ++ (pairs [x] ++ pairs (t.drop (s + 1))) := by
    rw [List.set_eq_take_append_cons_drop, if_pos hlt, pairs, pairs, pairs, pairs,
      ← List.filterMap_append, ← List.filterMap_append, List.singleton_append]
  rw [hold, hnew, hpiece, hpiece]
  simp only [← Multiset.coe_add]
  abel

/-- No key is in use in two slots if the keys of the pairs are distinct. -/
theorem oneSlot_iff_nodup : OneSlot h ↔ ((pairs h.items).map Prod.fst).Nodup := by
  rw [OneSlot, pairs, List.Nodup, List.pairwise_map, List.pairwise_filterMap]
  refine List.Pairwise.iff fun x y => ⟨fun hxy a ha b hb heq => ?_, fun hxy k v v' hx hy => ?_⟩
  · exact hxy a.1 a.2 b.2 ha (by rw [heq]; exact hb)
  · exact hxy (k, v) hx (k, v') hy rfl

instance [DecidableEq K] : Decidable (OneSlot h) := decidable_of_iff' _ oneSlot_iff_nodup

/-- Whether a key is in two slots depends on the pairs only. -/
theorem OneSlot.congr (hone : OneSlot h') (hpairs : (pairs h'.items).Perm (pairs h.items)) :
    OneSlot h :=
  oneSlot_iff_nodup.mpr ((hpairs.map Prod.fst).nodup_iff.mp (oneSlot_iff_nodup.mp hone))

/-! ## Inserting -/

/-- A slot that an insert takes is not in use. -/
theorem insertLoop_some {k : K} {c : UInt64} {n slot s : ℕ}
    (hs : insertLoop keyCmp h k c n slot = .ok (some s)) :
    ∃ x, h.items[s]? = some x ∧ x.inUse = none := by
  induction n generalizing slot with
  | zero => cases hs
  | succ n ih =>
    rw [insertLoop] at hs
    obtain ⟨x, hx, hs⟩ := Exec.bind_eq_ok.mp hs
    have hget := getItem_iff.mp hx
    cases x with
    | empty =>
      obtain rfl := Option.some.inj (Except.ok.inj hs)
      exact ⟨_, hget, rfl⟩
    | delete c' k' v' =>
      obtain rfl := Option.some.inj (Except.ok.inj hs)
      exact ⟨_, hget, rfl⟩
    | used c' k' v' =>
      dsimp only at hs
      split_ifs at hs
      · cases hs
      · exact ih hs

/-- `_hash_map_insert` adds the pair or leaves the table as it is. -/
theorem innerHashMapInsert_pairs {k : K} {v : V} {c : UInt64} {r : Int}
    (hi : innerHashMapInsert keyCmp h k v c = .ok (r, h')) :
    (r = 0 ∧ (pairs h'.items : Multiset (K × V)) = (k, v) ::ₘ pairs h.items) ∨
      (r = -1 ∧ h' = h) := by
  rw [innerHashMapInsert] at hi
  obtain ⟨o, ho, hi⟩ := Exec.bind_eq_ok.mp hi
  cases o with
  | none =>
    obtain ⟨rfl, rfl⟩ := Prod.mk.inj (Except.ok.inj hi)
    exact .inr ⟨rfl, rfl⟩
  | some s =>
    obtain ⟨rfl, rfl⟩ := Prod.mk.inj (Except.ok.inj hi)
    obtain ⟨x, hx, hfree⟩ := insertLoop_some ho
    have hset := pairs_set hx (.used c k v)
    rw [hfree, Option.toList_none, Multiset.coe_nil, add_zero] at hset
    refine .inl ⟨rfl, hset.trans ?_⟩
    rw [← Multiset.singleton_add, add_comm]
    rfl

/-! ## Expanding -/

theorem pairs_usedItems (t : List (Slot K V)) : pairs (usedItems t) = pairs t := by
  induction t with
  | nil => rfl
  | cons x t ih =>
    cases x with
    | used c k v => exact congrArg (List.cons (k, v)) ih
    | empty => exact ih
    | delete c k v => exact ih

section Expand

variable (hcmp : ∀ a b, keyCmp a b = 0 ↔ a = b)

include hcmp

/-- An insert of a key that is in use is refused where no item is deleted. -/
theorem innerHashMapInsert_present (hlen : h.items.length = h.slotSize) (p : Probed hash h.items)
    (htomb : ∀ x ∈ h.items, x.deleted = none) {k : K} {v₀ : V} (hk : Present hash h.items k v₀)
    (v : V) : innerHashMapInsert keyCmp h k v (hash k) = .ok (-1, h) := by
  obtain ⟨j, hj, hjk⟩ := hk
  have hskip : ∀ i < j, ∃ k' v', (probe h.items (hash k) i).inUse = some (k', v') ∧ k' ≠ k := by
    intro i hij
    have hne := p.noHole (hash k) j i hij hj (by rw [p.used hj hjk]; rfl)
    have hdel := htomb _ (probe_mem (c := hash k) (j := i) (by omega))
    cases hx : probe h.items (hash k) i with
    | empty => exact absurd hx hne
    | delete c k' v' => simp [hx, Slot.deleted] at hdel
    | used c k' v' =>
      refine ⟨k', v', rfl, ?_⟩
      rintro rfl
      have := p.once k' v₀ v' j i hj (by omega) hjk (by rw [hx]; rfl)
      omega
  rw [innerHashMapInsert, insertLoop_found hcmp hlen p (by omega) hskip hjk]
  rfl

/-- The loop of `_hash_map_expand` for any items makes a table with each key in one slot. -/
theorem expandLoop_probed {old : List (Slot K V)} (hlen : h.items.length = h.slotSize)
    (p : Probed hash h.items) (htomb : ∀ x ∈ h.items, x.deleted = none)
    (hroom : usedCount h.items + usedCount old < h.slotSize) (hcode : ∀ x ∈ old, x.CodeOk hash) :
    ∃ t, expandLoop keyCmp h old = .ok { h with items := t } ∧ Probed hash t := by
  induction old generalizing h with
  | nil => exact ⟨h.items, rfl, p⟩
  | cons y old ih =>
    have hcode' : ∀ x ∈ old, x.CodeOk hash := fun x hx => hcode x (List.mem_cons_of_mem y hx)
    cases y with
    | empty => exact ih hlen p htomb hroom hcode'
    | delete c k v => exact ih hlen p htomb hroom hcode'
    | used c k v =>
      obtain rfl : c = hash k := hcode _ List.mem_cons_self
      have hcount : usedCount (.used (hash k) k v :: old) = usedCount old + 1 := by
        simp [usedCount, Slot.inUse]
      rw [hcount] at hroom
      by_cases hk : ∃ v₀, Present hash h.items k v₀
      · obtain ⟨v₀, hk⟩ := hk
        obtain ⟨t, ht, p'⟩ := ih hlen p htomb (by omega) hcode'
        refine ⟨t, ?_, p'⟩
        rw [expandLoop, innerHashMapInsert_present hcmp hlen p htomb hk v, Exec.ok_bind]
        exact ht
      · obtain ⟨t, ht, hl, hp, hc, -, hd⟩ := innerHashMapInsert_absent hcmp hlen p (by omega)
          (fun v₀ hv => hk ⟨v₀, hv⟩) v
        have htomb' : ∀ x ∈ t, x.deleted = none := by
          intro x hx
          by_contra hne
          exact hne (htomb x (hd x hx (Option.isSome_iff_ne_none.mpr hne)))
        obtain ⟨t', ht', p'⟩ := ih (h := { h with items := t }) hl hp htomb'
          (by change usedCount t + usedCount old < h.slotSize; omega) hcode'
        refine ⟨t', ?_, p'⟩
        rw [expandLoop, ht, Exec.ok_bind]
        exact ht'

/-- **Expanding keeps the pairs** exactly if no key is in two slots. -/
theorem expand_pairs (S : Sound hash h) :
    ∃ h₁, hashMapExpand keyCmp h true = .ok h₁ ∧ Sound hash h₁ ∧
      ((pairs h₁.items).Perm (pairs h.items) ↔ OneSlot h) := by
  have hpos := S.pos
  have hcount : usedCount h.items ≤ h.slotSize := S.length ▸ List.countP_le_length
  have I₀ : Inv hash (hashMapCreate (2 * h.slotSize) : HashMap K V) fun _ => none :=
    inv_hashMapCreate (by omega)
  obtain ⟨h₁, hh₁, S₁⟩ := S.expand keyCmp true
  refine ⟨h₁, hh₁, S₁, fun hperm => ?_, fun hone => ?_⟩
  · obtain ⟨t, ht, p⟩ := expandLoop_probed hcmp (h := { h with
        slotSize := 2 * h.slotSize, items := List.replicate (2 * h.slotSize) .empty })
      I₀.length I₀.probed (fun x hx => by rw [List.eq_of_mem_replicate hx]; rfl)
      (by have := I₀.size; simp only [hashMapCreate] at this ⊢; omega) S.code
    rw [hashMapExpand, if_pos rfl] at hh₁
    simp only [ht, Exec.ok_bind] at hh₁
    obtain rfl := Except.ok.inj hh₁
    have hone : OneSlot { h with items := t } := p.pairwise
    exact hone.congr hperm
  · obtain ⟨t, ht, -, p, -, -, hpres⟩ := hashMapExpand_table hcmp S.length S.pos S.code hone
    obtain rfl := Except.ok.inj (hh₁.symm.trans ht)
    have hitems := (usedItems_perm S hone S₁ p.pairwise hpres).filterMap Slot.inUse
    rwa [← pairs, ← pairs, pairs_usedItems, pairs_usedItems] at hitems

/-- **An insert** adds the pair where it returns `0`. What was there is kept unless the table is expanded
with a key in two slots. -/
theorem Sound.insert_pairs (S : Sound hash h) (k : K) (v : V) (calloc : Bool) :
    ∃ r h' ps, HashMap.hashMapInsert hash keyCmp h k v calloc = .ok (r, h') ∧ Sound hash h' ∧
      (ps = (pairs h.items : Multiset (K × V)) ↔
        ¬ (NeedsExpand h ∧ calloc = true ∧ ¬ OneSlot h)) ∧
      (pairs h'.items : Multiset (K × V)) = if r = 0 then (k, v) ::ₘ ps else ps := by
  obtain ⟨h₁, hh₁, hkept⟩ : ∃ h₁,
      (if NeedsExpand h then hashMapExpand keyCmp h calloc else pure h) = .ok h₁ ∧
        ((pairs h₁.items : Multiset (K × V)) = pairs h.items ↔
          ¬ (NeedsExpand h ∧ calloc = true ∧ ¬ OneSlot h)) := by
    by_cases hne : NeedsExpand h
    · cases calloc with
      | false => exact ⟨h, by rw [if_pos hne]; rfl, iff_of_true rfl fun hm => absurd hm.2.1 (by decide)⟩
      | true =>
        obtain ⟨h₁, hh₁, -, hperm⟩ := expand_pairs hcmp S
        refine ⟨h₁, by rw [if_pos hne, hh₁], Multiset.coe_eq_coe.trans (hperm.trans ?_)⟩
        exact ⟨fun hone hm => hm.2.2 hone, fun hm => not_not.mp fun hone => hm ⟨hne, rfl, hone⟩⟩
    · exact ⟨h, by rw [if_neg hne]; rfl, iff_of_true rfl fun hm => hne hm.1⟩
  obtain ⟨r, h', hi⟩ := S.insert_returns keyCmp k v calloc
  refine ⟨r, h', pairs h₁.items, hi, S.hashMapInsert hi, hkept, ?_⟩
  rw [HashMap.hashMapInsert, hh₁, Exec.ok_bind] at hi
  split_ifs at hi with hfull
  · obtain ⟨rfl, rfl⟩ := Prod.mk.inj (Except.ok.inj hi)
    rfl
  · obtain ⟨⟨r₁, h₂⟩, hi₂, hr⟩ := Exec.bind_eq_ok.mp hi
    rcases innerHashMapInsert_pairs hi₂ with ⟨rfl, hpairs⟩ | ⟨rfl, rfl⟩
    · obtain ⟨rfl, rfl⟩ := Prod.mk.inj (Except.ok.inj hr)
      exact hpairs
    · obtain ⟨rfl, rfl⟩ := Prod.mk.inj (Except.ok.inj hr)
      rfl

end Expand

/-! ## Deleting and overwriting -/

/-- A slot with an item in use. -/
theorem inUse_iff {slot : ℕ} : InUse h slot ↔ ∃ c k v, h.items[slot]? = some (.used c k v) := by
  rw [InUse]
  cases h.items[slot]? with
  | none => simp
  | some x => cases x <;> simp [Slot.inUse]

/-- An item that is deleted takes its pair out of the table. -/
theorem deleteItem_pairs {slot : ℕ} {c : UInt64} {k : K} {v : V}
    (hx : h.items[slot]? = some (.used c k v)) :
    ∃ h', deleteItem h slot = .ok h' ∧ itemPair h' slot = .ok (k, v) ∧
      (pairs h.items : Multiset (K × V)) = (k, v) ::ₘ pairs h'.items := by
  obtain ⟨hlt, -⟩ := List.getElem?_eq_some_iff.mp hx
  refine ⟨_, by rw [deleteItem, getItem_iff.mpr hx]; rfl, ?_, ?_⟩
  · have hself : (h.items.set slot (.delete c k v))[slot]? = some (.delete c k v) :=
      List.getElem?_set_self hlt
    have hget : getItem { h.setItem slot (.delete c k v) with size := h.size - 1 } slot =
        .ok (.delete c k v) := getItem_iff.mpr hself
    rw [itemPair, hget]
    rfl
  · have hset := pairs_set hx (.delete c k v)
    rw [show (Slot.delete c k v).inUse = none from rfl, Option.toList_none, Multiset.coe_nil,
      add_zero] at hset
    rw [← hset, ← Multiset.singleton_add, add_comm]
    rfl

/-- An item whose value is overwritten has the new pair for the old one. -/
theorem setVal_pairs {slot : ℕ} {c : UInt64} {k : K} {v₀ : V} (v : V)
    (hx : h.items[slot]? = some (.used c k v₀)) :
    ∃ h', hashMapIterSetVal h (some slot) v = .ok h' ∧
      (k, v₀) ::ₘ (pairs h'.items : Multiset (K × V)) = (k, v) ::ₘ pairs h.items := by
  refine ⟨h.setItem slot (.used c k v), ?_, ?_⟩
  · rw [hashMapIterSetVal, Exec.deref_some, Exec.ok_bind, getItem_iff.mpr hx]
    rfl
  · have hset := pairs_set hx (.used c k v)
    rw [← Multiset.singleton_add, ← Multiset.singleton_add, add_comm, add_comm {(k, v)}]
    exact hset

/-! ## The runs -/

namespace Watched

variable {w : Watched K V} {e : Event K V} {itemSize : ℕ}

/-- What has been put in has been handed back, has been overwritten, or is in the table. -/
def Balanced (w : Watched K V) : Prop := w.given = w.removed + w.replaced + pairs w.map.items

/-- **A call** returns, and keeps the balance unless it expands a table with a key in two slots. -/
theorem step_spec (hcmp : ∀ a b, keyCmp a b = 0 ↔ a = b) (S : Sound hash w.map)
    (hA : w.Allowed itemSize e) : ∃ w', w.step hash keyCmp e = .ok w' ∧ Sound hash w'.map ∧
      (w.Balanced → (w'.Balanced ↔ ¬ w.Merges e)) := by
  cases e with
  | insert k v calloc =>
    obtain ⟨r, h', ps, hi, S', hkept, hpairs⟩ := S.insert_pairs hcmp k v calloc
    refine ⟨_, by rw [step, hi]; rfl, S', fun hb => ?_⟩
    rw [Merges, ← hkept, Balanced, hpairs]
    split_ifs
    · rw [Multiset.add_cons, Multiset.cons_inj_right, hb, add_right_inj, eq_comm]
    · rw [hb, add_right_inj, eq_comm]
  | remove k =>
    have hkept : ¬ w.Merges (.remove k) := not_false
    rcases S.find_returns keyCmp k with hnone | ⟨slot, c, k', v, hsome, hget⟩
    · exact ⟨w, by rw [step, hnone]; rfl, S, fun hb => iff_of_true hb hkept⟩
    · obtain ⟨h', hd, hpair, hpairs⟩ := deleteItem_pairs (getItem_iff.mp hget)
      have hstep : w.step hash keyCmp (.remove k) =
          .ok { w with map := h', removed := (k', v) ::ₘ w.removed } := by
        rw [step, hsome]
        simp only [Exec.ok_bind, hd, hpair]
        rfl
      refine ⟨_, hstep, S.deleteItem hd, fun hb => iff_of_true ?_ hkept⟩
      rw [Balanced, hb, hpairs]
      simp only [Multiset.add_cons, Multiset.cons_add]
  | erase slot =>
    obtain ⟨c, k, v, hx⟩ := inUse_iff.mp hA.2
    obtain ⟨h', hd, -, hpairs⟩ := deleteItem_pairs hx
    have hpair : itemPair w.map slot = .ok (k, v) := by rw [itemPair, getItem_iff.mpr hx]; rfl
    refine ⟨_, by rw [step, hpair, Exec.ok_bind, hd]; rfl, S.deleteItem hd,
      fun hb => iff_of_true ?_ not_false⟩
    rw [Balanced, hb, hpairs]
    simp only [Multiset.add_cons, Multiset.cons_add]
  | setVal slot v =>
    obtain ⟨c, k, v₀, hx⟩ := inUse_iff.mp hA.2
    obtain ⟨h', hs, hpairs⟩ := setVal_pairs v hx
    have hpair : itemPair w.map slot = .ok (k, v₀) := by rw [itemPair, getItem_iff.mpr hx]; rfl
    refine ⟨_, by rw [step, hpair, Exec.ok_bind, hs]; rfl, S.setVal hs,
      fun hb => iff_of_true ?_ not_false⟩
    rw [Balanced, hb, Multiset.add_cons, Multiset.cons_add, ← Multiset.add_cons, ← Multiset.add_cons,
      hpairs]

/-- The calls of `_on_remove` leave the map alone. -/
theorem step_remove_map (k : K) : (w.step hash keyCmp (.remove k)).map Watched.map =
    (hashMapRemove hash keyCmp w.map k).map Prod.snd := by
  rw [step, hashMapRemove]
  cases hashMapFind hash keyCmp w.map k with
  | error f => rfl
  | ok iter =>
    cases iter with
    | none => rfl
    | some slot =>
      simp only [Exec.ok_bind, deleteItem]
      cases hx : w.map.getItem slot with
      | error f => rfl
      | ok x =>
        obtain ⟨hlt, -⟩ := List.getElem?_eq_some_iff.mp (getItem_iff.mp hx)
        have hself : ∀ y : Slot K V, (w.map.items.set slot y)[slot]? = some y := fun y =>
          List.getElem?_set_self hlt
        cases x <;> simp [setItem, itemPair, getItem, hself, Except.map, pure, Except.pure, bind,
          Except.bind]

theorem step_erase_map (slot : ℕ) : (w.step hash keyCmp (.erase slot)).map Watched.map =
    (hashMapErase w.map (some slot)).map Prod.snd := by
  rw [step, hashMapErase, itemPair, deleteItem]
  cases w.map.getItem slot with
  | error f => rfl
  | ok x => cases x <;> rfl

instance (w : Watched K V) : (e : Event K V) → Decidable (w.Allowed itemSize e)
  | .insert .. | .remove _ => inferInstanceAs (Decidable (_ ∧ True))
  | .erase slot | .setVal slot _ => inferInstanceAs (Decidable (_ ∧ InUse w.map slot))

instance [DecidableEq K] (w : Watched K V) : (e : Event K V) → Decidable (w.Merges e)
  | .insert _ _ calloc =>
    inferInstanceAs (Decidable (NeedsExpand w.map ∧ calloc = true ∧ ¬ OneSlot w.map))
  | .remove _ | .erase _ | .setVal .. => isFalse id

end Watched

end Kendylib.HashMap
