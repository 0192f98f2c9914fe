import Kendylib.Container.HashMap
import Mathlib.Data.List.GetD

/-!
# Probing in a well-formed table

`Probed hash t` is what the operations keep about a table: the hash codes are those of the keys;
no slot between the first slot probed for an item and the item itself is empty; a key is in use in
one slot only, and that slot is probed before any slot where the same key was deleted. From it
the two probing loops are determined:

* a search finds the item of a key that is in use, and none for any other key (`hashMapFind_spec`);
* an insert of a key that is not in use takes the first slot that is not in use, and the table
  stays well formed (`Probed.insert`);
* an insert of a key that is in use is refused exactly when every slot probed before the item is in
  use (`insertLoop_found`); otherwise it takes a slot before the item (`insertLoop_free`).
-/

namespace Kendylib

variable {K V : Type}

namespace Slot

/-- The key and the value of an item in use. -/
def inUse : Slot K V → Option (K × V)
  | .used _ k v => some (k, v)
  | _ => none

/-- The key of a deleted item. -/
def deleted : Slot K V → Option K
  | .delete _ k _ => some k
  | _ => none

/-- The hash code of an item that is not empty. -/
def codeOf : Slot K V → Option UInt64
  | .empty => none
  | .delete c _ _ | .used c _ _ => some c

theorem codeOf_eq_none {x : Slot K V} : x.codeOf = none ↔ x = .empty := by
  cases x <;> simp [codeOf]

/-- The hash code of the item is that of its key. -/
def CodeOk (hash : K → UInt64) : Slot K V → Prop
  | .empty => True
  | .delete c k _ | .used c k _ => c = hash k

theorem inUse_eq_some {hash : K → UInt64} {x : Slot K V} {k : K} {v : V} (hx : x.CodeOk hash)
    (h : x.inUse = some (k, v)) : x = .used (hash k) k v := by
  cases x <;> simp_all [inUse, CodeOk]

end Slot

namespace HashMap

/-! ## The slots in the order of probing -/

/-- The `j`-th slot probed for the hash code `c`. -/
def probe (t : List (Slot K V)) (c : UInt64) (j : ℕ) : Slot K V :=
  t.getD ((c.toNat + j) % t.length) .empty

theorem add_mod_injective {n a i j : ℕ} (hi : i < n) (hj : j < n)
    (h : (a + i) % n = (a + j) % n) : i = j := by
  have := Nat.ModEq.add_left_cancel' a h
  rwa [Nat.ModEq, Nat.mod_eq_of_lt hi, Nat.mod_eq_of_lt hj] at this

theorem exists_add_mod {n s : ℕ} (a : ℕ) (hs : s < n) : ∃ j < n, (a + j) % n = s := by
  refine ⟨(s + (n - a % n)) % n, Nat.mod_lt _ (by omega), ?_⟩
  have ha : a % n < n := Nat.mod_lt _ (by omega)
  have hdiv := Nat.div_add_mod a n
  rw [Nat.add_mod_mod, show a + (s + (n - a % n)) = s + n * (a / n + 1) by rw [mul_add]; omega,
    Nat.add_mul_mod_self_left, Nat.mod_eq_of_lt hs]

section Probe

variable {t : List (Slot K V)} {c : UInt64} {i j s : ℕ}

theorem probe_lt (hn : 0 < t.length) : (c.toNat + j) % t.length < t.length := Nat.mod_lt _ hn

theorem probe_mem (hn : 0 < t.length) : probe t c j ∈ t := by
  rw [probe, List.getD_eq_getElem _ _ (probe_lt hn)]
  exact List.getElem_mem _

theorem probe_set (hs : s < t.length) (x : Slot K V) :
    probe (t.set s x) c j = if (c.toNat + j) % t.length = s then x else probe t c j := by
  simp only [probe, List.length_set, List.getD_eq_getElem?_getD]
  split_ifs with h
  · simp [h, hs]
  · rw [List.getElem?_set_ne (Ne.symm h)]

theorem probe_set_self (hi : i < t.length) (hj : j < t.length) (x : Slot K V) :
    probe (t.set ((c.toNat + i) % t.length) x) c j = if j = i then x else probe t c j := by
  rw [probe_set (probe_lt (by omega))]
  congr 1
  exact propext ⟨add_mod_injective hj hi, fun h => by rw [h]⟩

end Probe

/-! ## Well-formed tables -/

variable (hash : K → UInt64)

/-- What the operations keep about a table. -/
structure Probed (t : List (Slot K V)) : Prop where
  code : ∀ x ∈ t, x.CodeOk hash
  noHole : ∀ c j i, i < j → j < t.length → (probe t c j).codeOf = some c → probe t c i ≠ .empty
  once : ∀ k v v' j i, j < t.length → i < t.length → (probe t (hash k) j).inUse = some (k, v) →
    (probe t (hash k) i).inUse = some (k, v') → j = i
  first : ∀ k v j i, j < t.length → i < t.length → (probe t (hash k) j).inUse = some (k, v) →
    (probe t (hash k) i).deleted = some k → j < i

/-- The key `k` is in use with the value `v`. -/
def Present (t : List (Slot K V)) (k : K) (v : V) : Prop :=
  ∃ j < t.length, (probe t (hash k) j).inUse = some (k, v)

variable {hash} {t : List (Slot K V)} {k : K} {v : V} {j : ℕ}

theorem Probed.used (p : Probed hash t) (hj : j < t.length)
    (h : (probe t (hash k) j).inUse = some (k, v)) : probe t (hash k) j = .used (hash k) k v :=
  Slot.inUse_eq_some (p.code _ (probe_mem (by omega))) h

theorem probed_replicate (n : ℕ) : Probed hash (List.replicate n (.empty : Slot K V)) := by
  have hp : ∀ c j, probe (List.replicate n (.empty : Slot K V)) c j = .empty := by
    intro c j
    simp only [probe, List.getD_eq_getElem?_getD, List.getElem?_replicate]
    split_ifs <;> rfl
  refine ⟨fun x hx => ?_, fun c j i _ _ h => ?_, fun k v v' j i _ _ h => ?_,
    fun k v j i _ _ h => ?_⟩
  · rw [List.eq_of_mem_replicate hx]
    trivial
  all_goals rw [hp] at h; simp [Slot.codeOf, Slot.inUse] at h

section Set

variable {x : Slot K V}

/-- Overwriting a slot that is not empty, or that is the first one not in use for its key, keeps
the table free of holes. -/
theorem noHole_set (hole : ∀ c j i, i < j → j < t.length → (probe t c j).codeOf = some c →
      probe t c i ≠ .empty) (hj : j < t.length) (hx : x.codeOf = some (hash k))
    (hbefore : ∀ i < j, probe t (hash k) i ≠ .empty) (c : UInt64) (m i : ℕ) (him : i < m)
    (hm : m < t.length)
    (hc : (probe (t.set (((hash k).toNat + j) % t.length) x) c m).codeOf = some c) :
    probe (t.set (((hash k).toNat + j) % t.length) x) c i ≠ .empty := by
  have hn : 0 < t.length := by omega
  have hxe : x ≠ .empty := by rintro rfl; simp [Slot.codeOf] at hx
  rw [probe_set (probe_lt hn)] at hc ⊢
  split_ifs with hi
  · exact hxe
  split_ifs at hc with hs
  · -- the new item itself: the slots before it are not empty
    obtain rfl : hash k = c := by simpa [hx] using hc
    obtain rfl := add_mod_injective hm hj hs
    exact hbefore i him
  · exact hole c m i him hm hc

/-- **Filling the first slot that is not in use** with a key that is not in use keeps the table
well formed. -/
theorem Probed.insert (p : Probed hash t) (hj : j < t.length)
    (hbefore : ∀ i < j, (probe t (hash k) i).inUse.isSome)
    (habs : ∀ v', ¬ Present hash t k v') :
    Probed hash (t.set (((hash k).toNat + j) % t.length) (.used (hash k) k v)) := by
  have hn : 0 < t.length := by omega
  have hne : ∀ i < j, probe t (hash k) i ≠ .empty := by
    intro i hi h
    have := hbefore i hi
    simp [h, Slot.inUse] at this
  -- an item in use in the new table is the new one or an old one
  have hused : ∀ k' v' i, i < t.length →
      (probe (t.set (((hash k).toNat + j) % t.length) (.used (hash k) k v)) (hash k') i).inUse =
        some (k', v') →
      k' = k ∧ i = j ∨ k' ≠ k ∧ (probe t (hash k') i).inUse = some (k', v') := by
    intro k' v' i hi h
    rw [probe_set (probe_lt hn)] at h
    split_ifs at h with hs
    · obtain ⟨rfl, rfl⟩ : k = k' ∧ v = v' := by simpa [Slot.inUse] using h
      exact .inl ⟨rfl, add_mod_injective hi hj hs⟩
    · refine .inr ⟨?_, h⟩
      rintro rfl
      exact habs v' ⟨i, hi, h⟩
  refine ⟨fun y hy => ?_, fun c m i him hm hc => ?_, fun k' v₁ v₂ m i hm hi h₁ h₂ => ?_,
    fun k' v' m i hm hi h₁ h₂ => ?_⟩
  · rcases List.mem_or_eq_of_mem_set hy with hy | rfl
    · exact p.code y hy
    · rfl
  · rw [List.length_set] at hm
    exact noHole_set p.noHole hj rfl hne c m i him hm hc
  · rw [List.length_set] at hm hi
    rcases hused k' v₁ m hm h₁ with ⟨rfl, rfl⟩ | ⟨hk, h₁⟩ <;>
      rcases hused _ v₂ i hi h₂ with ⟨hk', rfl⟩ | ⟨hk', h₂⟩
    · rfl
    · exact absurd rfl hk'
    · exact absurd hk' hk
    · exact p.once k' v₁ v₂ m i hm hi h₁ h₂
  · rw [List.length_set] at hm hi
    rw [probe_set (probe_lt hn)] at h₂
    split_ifs at h₂ with hs
    · simp [Slot.deleted] at h₂
    rcases hused k' v' m hm h₁ with ⟨rfl, rfl⟩ | ⟨hk, h₁⟩
    · -- the slots up to the new item are in use
      by_contra hlt
      obtain rfl | hlt : i = m ∨ i < m := by omega
      · exact hs rfl
      · have := hbefore i hlt
        generalize probe t (hash k') i = y at this h₂
        cases y <;> simp [Slot.inUse, Slot.deleted] at this h₂
    · exact p.first k' v' m i hm hi h₁ h₂

theorem present_insert (hj : j < t.length)
    (hfree : (probe t (hash k) j).inUse = none) (habs : ∀ v', ¬ Present hash t k v') (k' : K)
    (v' : V) :
    Present hash (t.set (((hash k).toNat + j) % t.length) (.used (hash k) k v)) k' v' ↔
      k' = k ∧ v' = v ∨ k' ≠ k ∧ Present hash t k' v' := by
  have hn : 0 < t.length := by omega
  constructor
  · rintro ⟨i, hi, h⟩
    rw [List.length_set] at hi
    rw [probe_set (probe_lt hn)] at h
    split_ifs at h with hs
    · exact .inl (by simpa [Slot.inUse, eq_comm] using h)
    · refine .inr ⟨?_, i, hi, h⟩
      rintro rfl
      exact habs v' ⟨i, hi, h⟩
  · rintro (⟨rfl, rfl⟩ | ⟨hk, i, hi, h⟩)
    · exact ⟨j, by simpa using hj, by rw [probe_set_self hj hj, if_pos rfl]; rfl⟩
    · refine ⟨i, by simpa using hi, ?_⟩
      rw [probe_set (probe_lt hn), if_neg, h]
      -- the slot filled was not in use
      intro hs
      have : probe t (hash k') i = probe t (hash k) j := by simp only [probe, hs]
      rw [this, hfree] at h
      simp at h

/-- Overwriting the item of a key in use with another item for the same key. -/
theorem probed_set_of_used (p : Probed hash t) (hj : j < t.length)
    (hk : (probe t (hash k) j).inUse = some (k, v)) (hx : x.codeOf = some (hash k))
    (hok : x.CodeOk hash) (hentry : ∀ k' v', x.inUse = some (k', v') → k' = k)
    (htomb : ∀ k', x.deleted = some k' → k' = k ∧ x.inUse = none) :
    Probed hash (t.set (((hash k).toNat + j) % t.length) x) := by
  have hn : 0 < t.length := by omega
  have hself := p.used hj hk
  have hused : ∀ k' v' i, i < t.length →
      (probe (t.set (((hash k).toNat + j) % t.length) x) (hash k') i).inUse = some (k', v') →
      ∃ v'', (probe t (hash k') i).inUse = some (k', v'') := by
    intro k' v' i hi h
    rw [probe_set (probe_lt hn)] at h
    split_ifs at h with hs
    · obtain rfl := hentry k' v' h
      obtain rfl := add_mod_injective hi hj hs
      exact ⟨v, hk⟩
    · exact ⟨v', h⟩
  refine ⟨fun y hy => ?_, fun c m i him hm hc => ?_, fun k' v₁ v₂ m i hm hi h₁ h₂ => ?_,
    fun k' v' m i hm hi h₁ h₂ => ?_⟩
  · rcases List.mem_or_eq_of_mem_set hy with hy | rfl
    · exact p.code y hy
    · exact hok
  · rw [List.length_set] at hm
    refine noHole_set p.noHole hj hx (fun i hi => ?_) c m i him hm hc
    exact p.noHole (hash k) j i hi hj (by simp [hself, Slot.codeOf])
  · rw [List.length_set] at hm hi
    obtain ⟨_, h₁⟩ := hused k' v₁ m hm h₁
    obtain ⟨_, h₂⟩ := hused k' v₂ i hi h₂
    exact p.once k' _ _ m i hm hi h₁ h₂
  · rw [List.length_set] at hm hi
    obtain ⟨v'', h₁'⟩ := hused k' v' m hm h₁
    rw [probe_set (probe_lt hn)] at h₂
    split_ifs at h₂ with hs
    · -- the key was in use in the slot that now has its tombstone, and in no other
      obtain ⟨rfl, hnone⟩ := htomb k' h₂
      obtain rfl := add_mod_injective hi hj hs
      obtain rfl := p.once k' _ _ m i hm hi h₁' hk
      rw [probe_set_self hi hi, if_pos rfl, hnone] at h₁
      simp at h₁
    · exact p.first k' _ m i hm hi h₁' h₂

theorem present_set_of_used (p : Probed hash t) (hj : j < t.length)
    (hk : (probe t (hash k) j).inUse = some (k, v))
    (hentry : ∀ k' v', x.inUse = some (k', v') → k' = k) (k' : K) (v' : V) :
    Present hash (t.set (((hash k).toNat + j) % t.length) x) k' v' ↔
      k' = k ∧ x.inUse = some (k, v') ∨ k' ≠ k ∧ Present hash t k' v' := by
  have hn : 0 < t.length := by omega
  constructor
  · rintro ⟨i, hi, h⟩
    rw [List.length_set] at hi
    rw [probe_set (probe_lt hn)] at h
    split_ifs at h with hs
    · obtain rfl := hentry k' v' h
      exact .inl ⟨rfl, h⟩
    · refine .inr ⟨?_, i, hi, h⟩
      rintro rfl
      obtain rfl := p.once k' _ _ i j hi hj h hk
      exact hs rfl
  · rintro (⟨rfl, hx⟩ | ⟨hne, i, hi, h⟩)
    · exact ⟨j, by simpa using hj, by rw [probe_set_self hj hj, if_pos rfl, hx]⟩
    · refine ⟨i, by simpa using hi, ?_⟩
      rw [probe_set (probe_lt hn), if_neg, h]
      intro hs
      have : probe t (hash k') i = probe t (hash k) j := by simp only [probe, hs]
      rw [this, hk] at h
      simp only [Option.some.injEq, Prod.mk.injEq] at h
      exact hne h.1.symm

end Set

/-! ## Counting the items in use -/

theorem present_iff_mem {k : K} {v : V} :
    Present hash t k v ↔ ∃ x ∈ t, x.inUse = some (k, v) := by
  constructor
  · rintro ⟨j, hj, h⟩
    exact ⟨_, probe_mem (by omega), h⟩
  · rintro ⟨x, hx, h⟩
    obtain ⟨s, hs, rfl⟩ := List.getElem_of_mem hx
    obtain ⟨j, hj, hjs⟩ := exists_add_mod (hash k).toNat hs
    refine ⟨j, hj, ?_⟩
    rw [probe, hjs, List.getD_eq_getElem _ _ hs, h]

/-- The number of items in use. -/
def usedCount (t : List (Slot K V)) : ℕ := t.countP fun x => x.inUse.isSome

theorem usedCount_set {s : ℕ} (hs : s < t.length) (x : Slot K V) :
    usedCount (t.set s x) = usedCount t - (if (t.getD s .empty).inUse.isSome then 1 else 0) +
      if x.inUse.isSome then 1 else 0 := by
  rw [usedCount, List.countP_set hs, List.getD_eq_getElem _ _ hs]
  rfl

theorem usedCount_pos {x : Slot K V} (hx : x ∈ t) (h : x.inUse.isSome) : 0 < usedCount t :=
  List.countP_pos_iff.mpr ⟨x, hx, h⟩

/-- Where not all items are in use, there is a first slot to fill. -/
theorem exists_first_free (h : usedCount t < t.length) (c : UInt64) :
    ∃ j < t.length, (probe t c j).inUse = none ∧ ∀ i < j, (probe t c i).inUse.isSome := by
  have hex : ∃ j, j < t.length ∧ (probe t c j).inUse = none := by
    by_contra hno
    refine absurd (List.countP_eq_length.mpr fun x hx => ?_) h.ne
    obtain ⟨s, hs, rfl⟩ := List.getElem_of_mem hx
    obtain ⟨j, hj, hjs⟩ := exists_add_mod c.toNat hs
    by_contra hnone
    refine hno ⟨j, hj, ?_⟩
    rw [probe, hjs, List.getD_eq_getElem _ _ hs]
    simpa using hnone
  classical
  refine ⟨Nat.find hex, (Nat.find_spec hex).1, (Nat.find_spec hex).2, fun i hi => ?_⟩
  have := Nat.find_min hex hi
  have hlt := (Nat.find_spec hex).1
  rw [Option.isSome_iff_ne_none]
  exact fun hnone => this ⟨by omega, hnone⟩

/-- The keys in use are pairwise distinct. -/
theorem Probed.pairwise (p : Probed hash t) :
    t.Pairwise fun x y => ∀ k v v', x.inUse = some (k, v) → y.inUse ≠ some (k, v') := by
  rw [List.pairwise_iff_getElem]
  intro s s' hs hs' hlt k v v' h h'
  obtain ⟨j, hj, hjs⟩ := exists_add_mod (hash k).toNat hs
  obtain ⟨i, hi, his⟩ := exists_add_mod (hash k).toNat hs'
  have := p.once k v v' j i hj hi (by rw [probe, hjs, List.getD_eq_getElem _ _ hs, h])
    (by rw [probe, his, List.getD_eq_getElem _ _ hs', h'])
  subst this
  omega

/-- The number of keys in use is the number of items in use. -/
theorem Probed.ncard (p : Probed hash t) {m : K → Option V}
    (hm : ∀ k v, m k = some v ↔ Present hash t k v) : {k | m k ≠ none}.ncard = usedCount t := by
  classical
  have hnodup : ((t.filterMap Slot.inUse).map Prod.fst).Nodup := by
    rw [List.Nodup, List.pairwise_map, List.pairwise_filterMap]
    refine p.pairwise.imp fun {x y} h a ha b hb heq => ?_
    exact h a.1 a.2 b.2 ha (by rw [heq]; exact hb)
  have hset : {k | m k ≠ none} = ↑((t.filterMap Slot.inUse).map Prod.fst).toFinset := by
    ext k
    simp only [List.coe_toFinset, List.mem_map, List.mem_filterMap]
    change m k ≠ none ↔ _
    rw [Option.ne_none_iff_exists']
    constructor
    · rintro ⟨v, hv⟩
      obtain ⟨x, hx, h⟩ := present_iff_mem.mp ((hm k v).mp hv)
      exact ⟨(k, v), ⟨x, hx, h⟩, rfl⟩
    · rintro ⟨⟨k', v⟩, ⟨x, hx, h⟩, rfl⟩
      exact ⟨v, (hm k' v).mpr (present_iff_mem.mpr ⟨x, hx, h⟩)⟩
  rw [hset, Set.ncard_coe_finset, List.toFinset_card_of_nodup hnodup, List.length_map,
    List.length_filterMap_eq_countP]
  rfl

/-! ## The probing loops -/

section Loops

variable {keyCmp : K → K → Int} {h : HashMap K V} (hcmp : ∀ a b, keyCmp a b = 0 ↔ a = b)
  (hlen : h.items.length = h.slotSize) (p : Probed hash h.items)

include hlen in
theorem getItem_probe (c : UInt64) (j : ℕ) (hn : 0 < h.slotSize) :
    h.getItem ((c.toNat + j) % h.slotSize) = .ok (probe h.items c j) := by
  have hlt : (c.toNat + j) % h.slotSize < h.items.length := by rw [hlen]; exact Nat.mod_lt _ hn
  rw [getItem, probe, hlen, List.getElem?_eq_getElem hlt, List.getD_eq_getElem _ _ hlt]

theorem next_slot (a j n : ℕ) : ((a + j) % n + 1) % n = (a + (j + 1)) % n := by
  rw [Nat.mod_add_mod, add_assoc]

include hcmp hlen p

theorem insertLoop_skip {k : K} {j : ℕ} (hj : j ≤ h.slotSize)
    (hskip : ∀ i < j, ∃ k' v', (probe h.items (hash k) i).inUse = some (k', v') ∧ k' ≠ k) :
    insertLoop keyCmp h k (hash k) h.slotSize (hashMapIndex (hash k) h.slotSize) =
      insertLoop keyCmp h k (hash k) (h.slotSize - j) (((hash k).toNat + j) % h.slotSize) := by
  induction j with
  | zero => rfl
  | succ j ih =>
    rw [ih (by omega) fun i hi => hskip i (by omega)]
    obtain ⟨k', v', hk', hne⟩ := hskip j (by omega)
    have hx := Slot.inUse_eq_some (p.code _ (probe_mem (by omega))) hk'
    rw [show h.slotSize - j = h.slotSize - (j + 1) + 1 by omega, insertLoop,
      getItem_probe hlen _ _ (by omega), hx, Exec.ok_bind]
    simp only [hcmp, Ne.symm hne, and_false, if_false, next_slot]

/-- The loop of an insert stops at the first slot that is not in use, the key not met before. -/
theorem insertLoop_free {k : K} {j : ℕ} (hj : j < h.slotSize)
    (hskip : ∀ i < j, ∃ k' v', (probe h.items (hash k) i).inUse = some (k', v') ∧ k' ≠ k)
    (hfree : (probe h.items (hash k) j).inUse = none) :
    insertLoop keyCmp h k (hash k) h.slotSize (hashMapIndex (hash k) h.slotSize) =
      .ok (some (((hash k).toNat + j) % h.slotSize)) := by
  rw [insertLoop_skip hcmp hlen p hj.le hskip,
    show h.slotSize - j = h.slotSize - (j + 1) + 1 by omega, insertLoop,
    getItem_probe hlen _ _ (by omega), Exec.ok_bind]
  generalize probe h.items (hash k) j = x at hfree
  cases x with
  | used => simp [Slot.inUse] at hfree
  | empty => rfl
  | delete => rfl

/-- The loop of an insert stops at the item of its key, no slot free before. -/
theorem insertLoop_found {k : K} {v : V} {j : ℕ} (hj : j < h.slotSize)
    (hskip : ∀ i < j, ∃ k' v', (probe h.items (hash k) i).inUse = some (k', v') ∧ k' ≠ k)
    (hfound : (probe h.items (hash k) j).inUse = some (k, v)) :
    insertLoop keyCmp h k (hash k) h.slotSize (hashMapIndex (hash k) h.slotSize) = .ok none := by
  rw [insertLoop_skip hcmp hlen p hj.le hskip,
    show h.slotSize - j = h.slotSize - (j + 1) + 1 by omega, insertLoop,
    getItem_probe hlen _ _ (by omega), p.used (by omega) hfound, Exec.ok_bind]
  simp [hcmp]

omit p in
/-- The search loop goes past every slot that is not empty and has another key. -/
theorem findLoop_skip {k : K} {j : ℕ} (hj : j ≤ h.slotSize)
    (hskip : ∀ i < j, probe h.items (hash k) i ≠ .empty ∧
      (∀ v, (probe h.items (hash k) i).inUse ≠ some (k, v)) ∧
      (probe h.items (hash k) i).deleted ≠ some k) :
    findLoop keyCmp h k (hash k) h.slotSize (hashMapIndex (hash k) h.slotSize) =
      findLoop keyCmp h k (hash k) (h.slotSize - j) (((hash k).toNat + j) % h.slotSize) := by
  induction j with
  | zero => rfl
  | succ j ih =>
    rw [ih (by omega) fun i hi => hskip i (by omega)]
    obtain ⟨hne, huse, hdel⟩ := hskip j (by omega)
    rw [show h.slotSize - j = h.slotSize - (j + 1) + 1 by omega, findLoop,
      getItem_probe hlen _ _ (by omega), Exec.ok_bind]
    generalize probe h.items (hash k) j = x at hne huse hdel
    cases x with
    | empty => exact absurd rfl hne
    | delete c k' v =>
      have hkk : k ≠ k' := by rintro rfl; exact hdel rfl
      simp only [hcmp, hkk, and_false, if_false, next_slot]
    | used c k' v =>
      have hkk : k ≠ k' := by rintro rfl; exact huse v rfl
      simp only [hcmp, hkk, and_false, if_false, next_slot]

/-- **A search finds the slot of a key in use.** -/
theorem hashMapFind_present {k : K} {v : V} {j : ℕ} (hj : j < h.slotSize)
    (hfound : (probe h.items (hash k) j).inUse = some (k, v)) :
    hashMapFind hash keyCmp h k = .ok (some (((hash k).toNat + j) % h.slotSize)) := by
  have hused := p.used (by omega) hfound
  rw [hashMapFind, findLoop_skip hcmp hlen hj.le fun i hi => ⟨?_, fun v' hv' => ?_, fun hd => ?_⟩]
  · rw [show h.slotSize - j = h.slotSize - (j + 1) + 1 by omega, findLoop,
      getItem_probe hlen _ _ (by omega), hused, Exec.ok_bind]
    simp [hcmp]
  · exact p.noHole _ j i hi (by omega) (by simp [hused, Slot.codeOf])
  · have := p.once k v v' j i (by omega) (by omega) hfound hv'
    omega
  · have := p.first k v j i (by omega) (by omega) hfound hd
    omega

omit p in
/-- A search for a key that is not in use finds nothing. -/
theorem findLoop_absent {k : K} (habs : ∀ v, ¬ Present hash h.items k v) (n j : ℕ)
    (hn : 0 < h.slotSize) :
    findLoop keyCmp h k (hash k) n (((hash k).toNat + j) % h.slotSize) = .ok none := by
  induction n generalizing j with
  | zero => rfl
  | succ n ih =>
    rw [findLoop, getItem_probe hlen _ _ hn, Exec.ok_bind]
    have hmem : probe h.items (hash k) j ∈ h.items := probe_mem (by omega)
    generalize probe h.items (hash k) j = x at hmem
    cases x with
    | empty => rfl
    | delete c k' v =>
      simp only [next_slot, ih]
      split_ifs <;> rfl
    | used c k' v =>
      have hkk : k ≠ k' := by
        rintro rfl
        exact habs v (present_iff_mem.mpr ⟨_, hmem, rfl⟩)
      simp only [hcmp, hkk, and_false, if_false, next_slot, ih]

omit p in
theorem hashMapFind_absent {k : K} (habs : ∀ v, ¬ Present hash h.items k v)
    (hn : 0 < h.slotSize) : hashMapFind hash keyCmp h k = .ok none :=
  findLoop_absent hcmp hlen habs _ 0 hn

end Loops

end HashMap

end Kendylib
