import Kendylib.Container.HashMapTable

/-!
# The hash map along a run

A run is a list of calls on a map made by `hash_map_create`; an iterator is used right after the
search that made it, so erasing and setting a value through an iterator are one call each with the
key searched for. The answers are compared with those of a finite map `m : K → Option V`.

An insert stops at the first slot that is not in use and so does not see its own key behind a
deleted item. `Shadowed h k` says, on the table before the call, that the key `k` is in use behind
such a slot. A run answers like a finite map exactly when no insert, other than one that first
expands the table, is made with a shadowed key (`answers_iff_avoids`).
-/

namespace Kendylib.HashMap

variable {K V : Type} [DecidableEq K] (hash : K → UInt64) (keyCmp : K → K → Int)

/-- The calls a user makes. `calloc` tells whether an allocation made by the insert succeeds. -/
inductive Op (K V : Type)
  | insert (key : K) (val : V) (calloc : Bool)
  | find (key : K)
  | remove (key : K)
  /-- `hash_map_erase` with the iterator that `hash_map_find` returns. -/
  | erase (key : K)
  /-- `hash_map_iter_set_val` with the iterator that `hash_map_find` returns, if it is valid. -/
  | setVal (key : K) (val : V)

/-- The answer of a call. -/
inductive Answer (V : Type)
  | code (r : Int)
  /-- The value that a search found. -/
  | found (v : Option V)
  deriving DecidableEq

/-- One call. -/
def step (h : HashMap K V) : Op K V → Exec (Answer V × HashMap K V)
  | .insert k v calloc => do
    let (r, h) ← hashMapInsert hash keyCmp h k v calloc
    return (.code r, h)
  | .find k => do
    match ← hashMapFind hash keyCmp h k with
    | some slot => return (.found (some (← hashMapIterGetVal h (some slot))), h)
    | none => return (.found none, h)
  | .remove k => do
    let (r, h) ← hashMapRemove hash keyCmp h k
    return (.code r, h)
  | .erase k => do
    let (r, h) ← hashMapErase h (← hashMapFind hash keyCmp h k)
    return (.code r, h)
  | .setVal k v => do
    match ← hashMapFind hash keyCmp h k with
    | some slot => return (.code 0, ← hashMapIterSetVal h (some slot) v)
    | none => return (.code (-1), h)

/-- The answer of a finite map to a call, and the map afterwards. An insert whose allocation failed
may also be refused. -/
def Answers (m : K → Option V) : Op K V → Answer V → (K → Option V) → Prop
  | .insert k v calloc, a, m' =>
    m k = none ∧ a = .code 0 ∧ m' = Function.update m k (some v) ∨
      (m k ≠ none ∨ calloc = false) ∧ a = .code (-1) ∧ m' = m
  | .find k, a, m' => a = .found (m k) ∧ m' = m
  | .remove k, a, m' | .erase k, a, m' =>
    m k ≠ none ∧ a = .code 0 ∧ m' = Function.update m k none ∨
      m k = none ∧ a = .code (-1) ∧ m' = m
  | .setVal k v, a, m' =>
    m k ≠ none ∧ a = .code 0 ∧ m' = Function.update m k (some v) ∨
      m k = none ∧ a = .code (-1) ∧ m' = m

/-- No key is in use in two slots. -/
def OneSlot (h : HashMap K V) : Prop :=
  h.items.Pairwise fun x y => ∀ k v v', x.inUse = some (k, v) → y.inUse ≠ some (k, v')

/-- The run answers like the finite map `m`: every call returns, gives the answer of the map, and
leaves every key in one slot and `size` the number of keys. -/
def Meets : HashMap K V → (K → Option V) → List (Op K V) → Prop
  | _, _, [] => True
  | h, m, op :: ops => ∃ a h' m', step hash keyCmp h op = .ok (a, h') ∧ Answers m op a m' ∧
    OneSlot h' ∧ h'.size = {k | m' k ≠ none}.ncard ∧ Meets h' m' ops

/-- The table stays below `2 ^ 32` bytes along the run. -/
def Fits (itemSize : ℕ) : HashMap K V → List (Op K V) → Prop
  | h, [] => h.slotSize * itemSize < 2 ^ 32
  | h, op :: ops => h.slotSize * itemSize < 2 ^ 32 ∧
    match step hash keyCmp h op with
    | .ok (_, h') => Fits itemSize h' ops
    | .error _ => True

/-- The key is in use, and a slot probed before it is not. -/
def Shadowed (h : HashMap K V) (k : K) : Prop :=
  ∃ j < h.slotSize, ∃ i < j, ((probe h.items (hash k) j).inUse.map Prod.fst) = some k ∧
    (probe h.items (hash k) i).inUse.isNone

/-- An insert of a shadowed key into a table that it does not expand. -/
def Hidden (h : HashMap K V) : Op K V → Prop
  | .insert k _ calloc => ¬ (NeedsExpand h ∧ calloc = true) ∧ Shadowed hash h k
  | _ => False

/-- No call of the run inserts a shadowed key. -/
def Avoids : HashMap K V → List (Op K V) → Prop
  | _, [] => True
  | h, op :: ops => ¬ Hidden hash h op ∧
    match step hash keyCmp h op with
    | .ok (_, h') => Avoids h' ops
    | .error _ => True

instance (h : HashMap K V) (k : K) : Decidable (Shadowed hash h k) := by
  unfold Shadowed
  infer_instance

instance (h : HashMap K V) (op : Op K V) : Decidable (Hidden hash h op) := by
  cases op <;> unfold Hidden <;> infer_instance

instance decidableAvoids : (h : HashMap K V) → (ops : List (Op K V)) →
    Decidable (Avoids hash keyCmp h ops)
  | _, [] => isTrue trivial
  | h, op :: ops => @instDecidableAnd _ _ _ <|
    match step hash keyCmp h op with
    | .ok (_, h') => decidableAvoids h' ops
    | .error _ => isTrue trivial

instance decidableFits (itemSize : ℕ) : (h : HashMap K V) → (ops : List (Op K V)) →
    Decidable (Fits hash keyCmp itemSize h ops)
  | h, [] => inferInstanceAs (Decidable (h.slotSize * itemSize < 2 ^ 32))
  | h, op :: ops => @instDecidableAnd _ _ _ <|
    match step hash keyCmp h op with
    | .ok (_, h') => decidableFits itemSize h' ops
    | .error _ => isTrue trivial

/-! ## The invariant -/

/-- What a run keeps: a well-formed table of the right size that holds the map `m`. -/
structure Inv (h : HashMap K V) (m : K → Option V) : Prop where
  length : h.items.length = h.slotSize
  pos : 0 < h.slotSize
  expand : h.expandSize ≤ h.slotSize
  probed : Probed hash h.items
  size : h.size = usedCount h.items
  map : ∀ k v, m k = some v ↔ Present hash h.items k v

variable {hash keyCmp} {h : HashMap K V} {m : K → Option V}

omit [DecidableEq K] in
theorem inv_hashMapCreate {slotSize : ℕ} (hs : 0 < slotSize) :
    Inv hash (hashMapCreate slotSize : HashMap K V) fun _ => none where
  length := by simp [hashMapCreate]
  pos := hs
  expand := Nat.sub_le _ _
  probed := probed_replicate _
  size := by
    simp [hashMapCreate, usedCount, List.countP_replicate, Slot.inUse]
  map k v := by
    rw [present_iff_mem]
    simp only [reduceCtorEq, false_iff, not_exists, not_and]
    intro x hx
    rw [List.eq_of_mem_replicate hx]
    simp [Slot.inUse]

namespace Inv

omit [DecidableEq K] in
theorem absent (I : Inv hash h m) {k : K} (hk : m k = none) (v : V) :
    ¬ Present hash h.items k v := by
  rw [← I.map, hk]
  simp

omit [DecidableEq K] in
/-- The slots probed before a key in use hold other keys, or are not in use. -/
theorem ne_of_lt (I : Inv hash h m) {k : K} {v : V} {i j : ℕ} (hj : j < h.slotSize)
    (hk : (probe h.items (hash k) j).inUse = some (k, v)) (hij : i < j)
    (hi : (probe h.items (hash k) i).inUse.isSome) :
    ∃ k' v', (probe h.items (hash k) i).inUse = some (k', v') ∧ k' ≠ k := by
  obtain ⟨⟨k', v'⟩, hkv⟩ := Option.isSome_iff_exists.mp hi
  refine ⟨k', v', hkv, ?_⟩
  rintro rfl
  have hl := I.length
  have := I.probed.once k' v v' j i (by omega) (by omega) hk hkv
  omega

end Inv

/-! ## Inserting -/

section Insert

variable (hcmp : ∀ a b, keyCmp a b = 0 ↔ a = b)

include hcmp

omit [DecidableEq K] in
/-- `_hash_map_insert` of a key that is not in use, in a table that is not full. -/
theorem innerHashMapInsert_absent (hlen : h.items.length = h.slotSize) (p : Probed hash h.items)
    (hroom : usedCount h.items < h.slotSize) {k : K} (habs : ∀ v', ¬ Present hash h.items k v')
    (v : V) :
    ∃ t, innerHashMapInsert keyCmp h k v (hash k) = .ok (0, { h with items := t }) ∧
      t.length = h.slotSize ∧ Probed hash t ∧ usedCount t = usedCount h.items + 1 ∧
      (∀ k' v', Present hash t k' v' ↔ k' = k ∧ v' = v ∨ k' ≠ k ∧ Present hash h.items k' v') ∧
      ∀ x ∈ t, x.deleted.isSome → x ∈ h.items := by
  obtain ⟨j, hj, hfree, hbefore⟩ := exists_first_free (hlen ▸ hroom) (hash k)
  have hskip : ∀ i < j, ∃ k' v', (probe h.items (hash k) i).inUse = some (k', v') ∧ k' ≠ k := by
    intro i hi
    obtain ⟨⟨k', v'⟩, hkv⟩ := Option.isSome_iff_exists.mp (hbefore i hi)
    refine ⟨k', v', hkv, ?_⟩
    rintro rfl
    exact habs v' ⟨i, by omega, hkv⟩
  have hs : ((hash k).toNat + j) % h.items.length < h.items.length := probe_lt (by omega)
  refine ⟨h.items.set (((hash k).toNat + j) % h.items.length) (.used (hash k) k v), ?_, ?_,
    p.insert hj hbefore habs, ?_, present_insert hj hfree habs, fun x hx hd => ?_⟩
  · rw [innerHashMapInsert, insertLoop_free hcmp hlen p (by omega) hskip hfree, hlen]
    rfl
  · rw [List.length_set, hlen]
  · rw [probe] at hfree
    rw [usedCount_set hs, hfree]
    rfl
  · rcases List.mem_or_eq_of_mem_set hx with hx | rfl
    · exact hx
    · simp [Slot.deleted] at hd

omit [DecidableEq K] in
/-- The loop of `_hash_map_expand` carries every item in use over to the new table. -/
theorem expandLoop_spec {old : List (Slot K V)} (hlen : h.items.length = h.slotSize)
    (p : Probed hash h.items) (htomb : ∀ x ∈ h.items, x.deleted = none)
    (hroom : usedCount h.items + usedCount old < h.slotSize) (hcode : ∀ x ∈ old, x.CodeOk hash)
    (hdist : old.Pairwise fun x y => ∀ k v v', x.inUse = some (k, v) → y.inUse ≠ some (k, v'))
    (hnew : ∀ x ∈ old, ∀ k v, x.inUse = some (k, v) → ∀ v', ¬ Present hash h.items k v') :
    ∃ t, expandLoop keyCmp h old = .ok { h with items := t } ∧ t.length = h.slotSize ∧
      Probed hash t ∧ (∀ x ∈ t, x.deleted = none) ∧
      usedCount t = usedCount h.items + usedCount old ∧
      ∀ k v, Present hash t k v ↔ Present hash h.items k v ∨ ∃ x ∈ old, x.inUse = some (k, v) := by
  induction old generalizing h with
  | nil => exact ⟨h.items, rfl, hlen, p, htomb, by simp [usedCount], by simp⟩
  | cons y old ih =>
    obtain ⟨hy, hdist'⟩ := List.pairwise_cons.mp hdist
    have hcode' : ∀ x ∈ old, x.CodeOk hash := fun x hx => hcode x (by simp [hx])
    have hnew' : ∀ x ∈ old, ∀ k v, x.inUse = some (k, v) → ∀ v', ¬ Present hash h.items k v' :=
      fun x hx => hnew x (by simp [hx])
    cases hyu : y.inUse with
    | none =>
      have hcount : usedCount (y :: old) = usedCount old := by simp [usedCount, hyu]
      have hskip : expandLoop keyCmp h (y :: old) = expandLoop keyCmp h old := by
        cases y with
        | used => simp [Slot.inUse] at hyu
        | empty => rfl
        | delete => rfl
      rw [hskip, hcount]
      obtain ⟨t, ht, hl, hp, hd, hc, hpres⟩ := ih hlen p htomb (by omega) hcode' hdist' hnew'
      exact ⟨t, ht, hl, hp, hd, hc, fun k v => by simp [hpres, hyu]⟩
    | some kv =>
      obtain ⟨k, v⟩ := kv
      obtain rfl := Slot.inUse_eq_some (hcode y (by simp)) hyu
      have hcount : usedCount (.used (hash k) k v :: old) = usedCount old + 1 := by
        simp [usedCount, Slot.inUse]
      have habs := hnew _ List.mem_cons_self k v rfl
      obtain ⟨t, ht, hl, hp, hc, hpres, hd⟩ :=
        innerHashMapInsert_absent hcmp hlen p (by omega) habs v
      have htomb' : ∀ x ∈ t, x.deleted = none := by
        intro x hx
        by_contra hne
        exact hne (htomb x (hd x hx (Option.isSome_iff_ne_none.mpr hne)))
      obtain ⟨t', ht', hl', hp', hd', hc', hpres'⟩ := ih (h := { h with items := t }) hl hp htomb'
        (by change usedCount t + usedCount old < h.slotSize; omega) hcode' hdist'
        fun x hx k' v' hk' v'' hpr => by
          rcases (hpres k' v'').mp hpr with ⟨rfl, rfl⟩ | ⟨-, hpr⟩
          · exact hy x hx k' v'' v' rfl hk'
          · exact hnew' x hx k' v' hk' v'' hpr
      refine ⟨t', ?_, hl', hp', hd', by rw [hc', hc, hcount]; omega, fun k' v' => ?_⟩
      · rw [expandLoop, ht, Exec.ok_bind]
        exact ht'
      · rw [hpres', hpres]
        simp only [List.mem_cons, exists_eq_or_imp, Slot.inUse, Option.some.injEq, Prod.mk.injEq]
        constructor
        · rintro ((⟨rfl, rfl⟩ | ⟨-, hpr⟩) | hold)
          · exact .inr (.inl ⟨rfl, rfl⟩)
          · exact .inl hpr
          · exact .inr (.inr hold)
        · rintro (hpr | ⟨rfl, rfl⟩ | hold)
          · refine .inl (.inr ⟨?_, hpr⟩)
            rintro rfl
            exact habs v' hpr
          · exact .inl (.inl ⟨rfl, rfl⟩)
          · exact .inr hold

omit [DecidableEq K] in
/-- The table that `_hash_map_expand` makes of one whose keys in use are distinct. -/
theorem hashMapExpand_table (hlen : h.items.length = h.slotSize) (hpos : 0 < h.slotSize)
    (hcode : ∀ x ∈ h.items, x.CodeOk hash) (hone : OneSlot h) :
    ∃ t, hashMapExpand keyCmp h true = .ok { h with
        slotSize := 2 * h.slotSize, items := t
        expandSize := 2 * h.slotSize - 2 * h.slotSize / 4 } ∧
      t.length = 2 * h.slotSize ∧ Probed hash t ∧ (∀ x ∈ t, x.deleted = none) ∧
      usedCount t = usedCount h.items ∧ ∀ k v, Present hash t k v ↔ Present hash h.items k v := by
  have hcount : usedCount h.items ≤ h.slotSize := hlen ▸ List.countP_le_length
  set h₀ : HashMap K V := { h with
    slotSize := 2 * h.slotSize, items := List.replicate (2 * h.slotSize) .empty } with hh₀
  have I₀ : Inv hash (hashMapCreate (2 * h.slotSize) : HashMap K V) fun _ => none :=
    inv_hashMapCreate (by omega)
  have hzero : usedCount h₀.items = 0 := I₀.size.symm
  have hnone : ∀ k v, ¬ Present hash h₀.items k v := fun k v => I₀.absent rfl v
  have hroom : usedCount h₀.items + usedCount h.items < h₀.slotSize := by
    rw [hzero]
    simp only [hh₀]
    omega
  obtain ⟨t, ht, hl, hp, hd, hc, hpres⟩ := expandLoop_spec hcmp (h := h₀)
    I₀.length I₀.probed (fun x hx => by rw [List.eq_of_mem_replicate hx]; rfl) hroom
    hcode hone fun x _ k v _ v' => hnone k v'
  refine ⟨t, ?_, hl, hp, hd, by rw [hc, hzero, Nat.zero_add], fun k v => ?_⟩
  · rw [hashMapExpand, if_pos rfl]
    change (expandLoop keyCmp h₀ h.items >>= _) = _
    rw [ht]
    rfl
  · rw [hpres, present_iff_mem (t := h.items), or_iff_right (hnone k v)]

omit [DecidableEq K] in
/-- **Expanding keeps the map** and leaves no deleted item. -/
theorem hashMapExpand_spec (I : Inv hash h m) :
    ∃ h', hashMapExpand keyCmp h true = .ok h' ∧ Inv hash h' m ∧ h'.slotSize = 2 * h.slotSize ∧
      h'.size = h.size ∧ ∀ x ∈ h'.items, x.deleted = none := by
  obtain ⟨t, ht, hl, hp, hd, hc, hpres⟩ :=
    hashMapExpand_table hcmp I.length I.pos I.probed.code I.probed.pairwise
  have hpos := I.pos
  exact ⟨_, ht, ⟨hl, by simp only; omega, Nat.sub_le _ _, hp, I.size.trans hc.symm,
    fun k v => (I.map k v).trans (hpres k v).symm⟩, rfl, rfl, hd⟩

omit [DecidableEq K] in
/-- `hash_map_insert` after the expansion: a key that is not in use is added. -/
theorem insert_absent [DecidableEq K] (I : Inv hash h m) {k : K} (hk : m k = none)
    (hroom : h.size < h.slotSize) (v : V) :
    ∃ h', innerHashMapInsert keyCmp h k v (hash k) = .ok (0, h') ∧
      Inv hash { h' with size := h'.size + 1 } (Function.update m k (some v)) := by
  obtain ⟨t, ht, hl, hp, hc, hpres, -⟩ := innerHashMapInsert_absent hcmp I.length I.probed
    (I.size ▸ hroom) (I.absent hk) v
  refine ⟨_, ht, hl, I.pos, I.expand, hp, ?_, fun k' v' => ?_⟩
  · simp only [hc, I.size]
  · rw [hpres, ← I.map]
    by_cases hkk : k' = k
    · subst hkk
      simp [eq_comm]
    · simp [hkk]

omit [DecidableEq K] in
/-- `hash_map_insert` after the expansion: a key in use that is not shadowed is refused. -/
theorem insert_present (I : Inv hash h m) {k : K} (hk : m k ≠ none)
    (hsh : ¬ Shadowed hash h k) (v : V) :
    innerHashMapInsert keyCmp h k v (hash k) = .ok (-1, h) := by
  obtain ⟨v₀, hv₀⟩ := Option.ne_none_iff_exists'.mp hk
  obtain ⟨j, hj, hjk⟩ := (I.map k v₀).mp hv₀
  have hl := I.length
  rw [innerHashMapInsert, insertLoop_found hcmp I.length I.probed (by omega) (fun i hi => ?_) hjk]
  · rfl
  · refine I.ne_of_lt (by omega) hjk hi ?_
    by_contra hnone
    exact hsh ⟨j, by omega, i, hi, by simp [hjk], by simpa using hnone⟩

omit [DecidableEq K] in
/-- `hash_map_insert` after the expansion: a shadowed key is added a second time. -/
theorem insert_shadowed (I : Inv hash h m) {k : K} (hsh : Shadowed hash h k) (v : V) :
    m k ≠ none ∧ ∃ h', innerHashMapInsert keyCmp h k v (hash k) = .ok (0, h') := by
  obtain ⟨j, hj, i, hi, hjk, hnone⟩ := hsh
  have hl := I.length
  obtain ⟨⟨k', v₀⟩, hkv, rfl⟩ := Option.map_eq_some_iff.mp hjk
  refine ⟨by simp [(I.map k' v₀).mpr ⟨j, by omega, hkv⟩], ?_⟩
  -- the first slot not in use is before the key
  have hex : ∃ i, (probe h.items (hash k') i).inUse = none := ⟨i, by simpa using hnone⟩
  classical
  have hle : Nat.find hex ≤ i := Nat.find_min' hex (by simpa using hnone)
  refine ⟨h.setItem (((hash k').toNat + Nat.find hex) % h.slotSize) (.used (hash k') k' v), ?_⟩
  rw [innerHashMapInsert, insertLoop_free hcmp I.length I.probed (j := Nat.find hex) (by omega)
    (fun i' hi' => ?_) (Nat.find_spec hex)]
  · rfl
  · refine I.ne_of_lt hj hkv (by omega) ?_
    exact Option.isSome_iff_ne_none.mpr (Nat.find_min hex hi')

omit [DecidableEq K] hcmp in
/-- A table with a shadowed key has a slot that is not in use, and a deleted item. -/
theorem Shadowed.room (I : Inv hash h m) {k : K} (hsh : Shadowed hash h k) :
    h.size < h.slotSize ∧ ∃ x ∈ h.items, x.deleted.isSome := by
  obtain ⟨j, hj, i, hi, hjk, hnone⟩ := hsh
  have hl := I.length
  obtain ⟨⟨k', v₀⟩, hkv, rfl⟩ := Option.map_eq_some_iff.mp hjk
  have hmem : probe h.items (hash k') i ∈ h.items := probe_mem (by omega)
  refine ⟨?_, _, hmem, ?_⟩
  · rw [I.size, ← I.length]
    refine lt_of_le_of_ne List.countP_le_length fun heq => ?_
    have := List.countP_eq_length.mp heq _ hmem
    rw [Option.isNone_iff_eq_none.mp hnone] at this
    simp at this
  · have hne := I.probed.noHole (hash k') j i hi (by omega)
      (by rw [I.probed.used (by omega) hkv]; rfl)
    generalize probe h.items (hash k') i = x at hnone hne
    cases x with
    | empty => exact absurd rfl hne
    | delete => rfl
    | used => simp [Slot.inUse] at hnone

omit [DecidableEq K] in
/-- The first half of `hash_map_insert`: the table is expanded when it is three quarters full and
the allocation succeeds; then there is room and no key is shadowed. -/
theorem expand_spec (I : Inv hash h m) (hfit : h.slotSize < 0x80000000) (calloc : Bool) :
    ∃ h₁, (if NeedsExpand h then hashMapExpand keyCmp h calloc else pure h) = .ok h₁ ∧
      Inv hash h₁ m ∧ (h₁.size < h₁.slotSize ∨ calloc = false) ∧
      ((NeedsExpand h ∧ calloc = true) ∧ (∀ k, ¬ Shadowed hash h₁ k) ∨
        ¬ (NeedsExpand h ∧ calloc = true) ∧ h₁ = h) := by
  by_cases hexp : NeedsExpand h
  · cases calloc with
    | false => exact ⟨h, if_pos hexp, I, .inr rfl, .inr ⟨by simp, rfl⟩⟩
    | true =>
      obtain ⟨h₁, he, I₁, hslot, hsize, hdel⟩ := hashMapExpand_spec hcmp I
      refine ⟨h₁, by rw [if_pos hexp, he], I₁, .inl ?_, .inl ⟨⟨hexp, rfl⟩, fun k hsh => ?_⟩⟩
      · have hpos := I.pos
        have hcount : usedCount h.items ≤ h.slotSize := I.length ▸ List.countP_le_length
        rw [hslot, hsize, I.size]
        omega
      · obtain ⟨-, x, hx, hd⟩ := hsh.room I₁
        simp [hdel x hx] at hd
  · refine ⟨h, if_neg hexp, I, .inl ?_, .inr ⟨fun hn => hexp hn.1, rfl⟩⟩
    have hlt : ¬ h.expandSize ≤ h.size := fun hle => hexp ⟨hfit, hle⟩
    have := I.expand
    omega

/-- **An insert answers like the finite map**, unless its key is shadowed. -/
theorem hashMapInsert_spec (I : Inv hash h m) (hfit : h.slotSize < 0x80000000) (k : K) (v : V)
    (calloc : Bool) (hh : ¬ Hidden hash h (.insert k v calloc)) :
    ∃ r h' m', hashMapInsert hash keyCmp h k v calloc = .ok (r, h') ∧
      Answers m (.insert k v calloc) (.code r) m' ∧ Inv hash h' m' := by
  obtain ⟨h₁, he, I₁, hroom, hcase⟩ := expand_spec hcmp I hfit calloc
  rw [hashMapInsert, he, Exec.ok_bind]
  by_cases hfull : h₁.slotSize ≤ h₁.size
  · rw [if_pos hfull]
    exact ⟨-1, h₁, m, rfl, .inr ⟨.inr (hroom.resolve_left (by omega)), rfl, rfl⟩, I₁⟩
  rw [if_neg hfull]
  by_cases hk : m k = none
  · obtain ⟨h', hins, I'⟩ := insert_absent hcmp I₁ hk (by omega) v
    rw [hins, Exec.ok_bind]
    exact ⟨0, _, _, rfl, .inl ⟨hk, rfl, rfl⟩, I'⟩
  · have hsh : ¬ Shadowed hash h₁ k := by
      rcases hcase with ⟨-, hno⟩ | ⟨hexp, rfl⟩
      · exact hno k
      · exact fun hsh => hh ⟨hexp, hsh⟩
    rw [insert_present hcmp I₁ hk hsh v, Exec.ok_bind]
    exact ⟨-1, h₁, m, rfl, .inr ⟨.inl hk, rfl, rfl⟩, I₁⟩

omit [DecidableEq K] in
/-- An insert of a shadowed key succeeds, although the key is in use. -/
theorem hashMapInsert_hidden (I : Inv hash h m) (hfit : h.slotSize < 0x80000000) (k : K) (v : V)
    (calloc : Bool) (hh : Hidden hash h (.insert k v calloc)) :
    m k ≠ none ∧ ∃ h', hashMapInsert hash keyCmp h k v calloc = .ok (0, h') := by
  obtain ⟨hexp, hsh⟩ := hh
  obtain ⟨hroom, -⟩ := hsh.room I
  obtain ⟨hk, h', hins⟩ := insert_shadowed hcmp I hsh v
  obtain ⟨h₁, he, -, -, ⟨hexp', -⟩ | ⟨-, rfl⟩⟩ := expand_spec hcmp I hfit calloc
  · exact absurd hexp' hexp
  refine ⟨hk, { h' with size := h'.size + 1 }, ?_⟩
  rw [hashMapInsert, he, Exec.ok_bind, if_neg (by omega), hins, Exec.ok_bind]
  rfl

end Insert

/-! ## Searching, removing and setting -/

section Search

variable (hcmp : ∀ a b, keyCmp a b = 0 ↔ a = b)

include hcmp

omit [DecidableEq K] in
/-- A search for a key of the map finds its item, and one for another key nothing. -/
theorem hashMapFind_spec (I : Inv hash h m) (k : K) :
    m k = none ∧ hashMapFind hash keyCmp h k = .ok none ∨
      ∃ v, m k = some v ∧ ∃ j < h.slotSize, (probe h.items (hash k) j).inUse = some (k, v) ∧
        hashMapFind hash keyCmp h k = .ok (some (((hash k).toNat + j) % h.slotSize)) := by
  cases hk : m k with
  | none => exact .inl ⟨rfl, hashMapFind_absent hcmp I.length (I.absent hk) I.pos⟩
  | some v =>
    obtain ⟨j, hj, hjk⟩ := (I.map k v).mp hk
    rw [I.length] at hj
    exact .inr ⟨v, rfl, j, hj, hjk, hashMapFind_present hcmp I.length I.probed hj hjk⟩

omit [DecidableEq K] hcmp in
theorem Inv.getItem_found (I : Inv hash h m) {k : K} {v : V} {j : ℕ} (hj : j < h.slotSize)
    (hk : (probe h.items (hash k) j).inUse = some (k, v)) :
    h.getItem (((hash k).toNat + j) % h.slotSize) = .ok (.used (hash k) k v) := by
  rw [getItem_probe I.length _ _ I.pos, I.probed.used (I.length ▸ hj) hk]

omit hcmp in
/-- Deleting the item of a key. -/
theorem Inv.deleteItem (I : Inv hash h m) {k : K} {v : V} {j : ℕ} (hj : j < h.slotSize)
    (hk : (probe h.items (hash k) j).inUse = some (k, v)) :
    ∃ h', HashMap.deleteItem h (((hash k).toNat + j) % h.slotSize) = .ok h' ∧
      Inv hash h' (Function.update m k none) := by
  have hj' : j < h.items.length := by rw [I.length]; exact hj
  have hs : ((hash k).toNat + j) % h.items.length < h.items.length := probe_lt (by omega)
  rw [HashMap.deleteItem, I.getItem_found hj hk]
  refine ⟨_, rfl, by simp [setItem, I.length], I.pos, I.expand, ?_, ?_, fun k' v' => ?_⟩
  all_goals simp only [setItem, ← I.length]
  · exact probed_set_of_used I.probed hj' hk rfl rfl (fun k' v' h' => by simp [Slot.inUse] at h')
      fun k' h' => ⟨by simpa [Slot.deleted, eq_comm] using h', rfl⟩
  · rw [probe] at hk
    rw [usedCount_set hs, hk, I.size]
    rfl
  · rw [present_set_of_used I.probed hj' hk (fun k' v' h' => by simp [Slot.inUse] at h'), ← I.map]
    by_cases hkk : k' = k
    · subst hkk
      simp [Slot.inUse]
    · simp [hkk]

omit hcmp in
/-- Setting the value of the item of a key. -/
theorem Inv.setVal (I : Inv hash h m) {k : K} {v : V} {j : ℕ} (hj : j < h.slotSize)
    (hk : (probe h.items (hash k) j).inUse = some (k, v)) (data : V) :
    ∃ h', hashMapIterSetVal h (some (((hash k).toNat + j) % h.slotSize)) data = .ok h' ∧
      Inv hash h' (Function.update m k (some data)) := by
  have hj' : j < h.items.length := by rw [I.length]; exact hj
  have hs : ((hash k).toNat + j) % h.items.length < h.items.length := probe_lt (by omega)
  have hentry : ∀ k' v', (Slot.used (hash k) k data).inUse = some (k', v') → k' = k := by
    intro k' v' h'
    simp only [Slot.inUse, Option.some.injEq, Prod.mk.injEq] at h'
    exact h'.1.symm
  have hpos := usedCount_pos (probe_mem (by omega)) (Option.isSome_iff_exists.mpr ⟨_, hk⟩)
  simp only [hashMapIterSetVal, Exec.deref, Exec.ok_bind, I.getItem_found hj hk]
  refine ⟨_, rfl, by simp [setItem, I.length], I.pos, I.expand, ?_, ?_, fun k' v' => ?_⟩
  all_goals simp only [setItem, ← I.length]
  · exact probed_set_of_used I.probed hj' hk rfl rfl hentry
      fun k' h' => by simp [Slot.deleted] at h'
  · rw [probe] at hk
    rw [usedCount_set hs, hk, I.size]
    simp only [Option.isSome_some, Slot.inUse, if_true]
    omega
  · rw [present_set_of_used I.probed hj' hk hentry, ← I.map]
    by_cases hkk : k' = k
    · subst hkk
      simp [Slot.inUse]
    · simp [hkk]

end Search

/-! ## Runs -/

section Runs

variable (hcmp : ∀ a b, keyCmp a b = 0 ↔ a = b)

include hcmp

/-- **One call** that does not insert a shadowed key answers like the finite map. -/
theorem step_spec (I : Inv hash h m) (hfit : h.slotSize < 0x80000000) {op : Op K V}
    (hh : ¬ Hidden hash h op) :
    ∃ a h' m', step hash keyCmp h op = .ok (a, h') ∧ Answers m op a m' ∧ Inv hash h' m' := by
  cases op with
  | insert k v calloc =>
    obtain ⟨r, h', m', hins, hans, I'⟩ := hashMapInsert_spec hcmp I hfit k v calloc hh
    exact ⟨.code r, h', m', by simp [step, hins], hans, I'⟩
  | find k =>
    rcases hashMapFind_spec hcmp I k with ⟨hk, hfind⟩ | ⟨v, hk, j, hj, hjk, hfind⟩
    · exact ⟨.found none, h, m, by simp [step, hfind], ⟨by rw [hk], rfl⟩, I⟩
    · refine ⟨.found (some v), h, m, ?_, ⟨by rw [hk], rfl⟩, I⟩
      simp [step, hfind, hashMapIterGetVal, Exec.deref, I.getItem_found hj hjk]
  | remove k =>
    rcases hashMapFind_spec hcmp I k with ⟨hk, hfind⟩ | ⟨v, hk, j, hj, hjk, hfind⟩
    · exact ⟨.code (-1), h, m, by simp [step, hashMapRemove, hfind], .inr ⟨hk, rfl, rfl⟩, I⟩
    · obtain ⟨h', hdel, I'⟩ := I.deleteItem hj hjk
      exact ⟨.code 0, h', _, by simp [step, hashMapRemove, hfind, hdel],
        .inl ⟨by simp [hk], rfl, rfl⟩, I'⟩
  | erase k =>
    rcases hashMapFind_spec hcmp I k with ⟨hk, hfind⟩ | ⟨v, hk, j, hj, hjk, hfind⟩
    · exact ⟨.code (-1), h, m, by simp [step, hashMapErase, hfind], .inr ⟨hk, rfl, rfl⟩, I⟩
    · obtain ⟨h', hdel, I'⟩ := I.deleteItem hj hjk
      exact ⟨.code 0, h', _, by simp [step, hashMapErase, hfind, hdel],
        .inl ⟨by simp [hk], rfl, rfl⟩, I'⟩
  | setVal k v =>
    rcases hashMapFind_spec hcmp I k with ⟨hk, hfind⟩ | ⟨v₀, hk, j, hj, hjk, hfind⟩
    · exact ⟨.code (-1), h, m, by simp [step, hfind], .inr ⟨hk, rfl, rfl⟩, I⟩
    · obtain ⟨h', hset, I'⟩ := I.setVal hj hjk v
      exact ⟨.code 0, h', _, by simp [step, hfind, hset], .inl ⟨by simp [hk], rfl, rfl⟩, I'⟩

omit hcmp in
/-- The map after a call is determined by its answer. -/
theorem Answers.unique {op : Op K V} {a : Answer V} {m₁ m₂ : K → Option V}
    (h₁ : Answers m op a m₁) (h₂ : Answers m op a m₂) : m₁ = m₂ := by
  cases op with
  | find k => exact h₁.2.trans h₂.2.symm
  | insert k v calloc =>
    rcases h₁ with ⟨-, ha₁, rfl⟩ | ⟨-, ha₁, rfl⟩ <;> rcases h₂ with ⟨-, ha₂, rfl⟩ | ⟨-, ha₂, rfl⟩ <;>
      simp_all
  | remove k | erase k | setVal k v =>
    rcases h₁ with ⟨-, ha₁, rfl⟩ | ⟨-, ha₁, rfl⟩ <;> rcases h₂ with ⟨-, ha₂, rfl⟩ | ⟨-, ha₂, rfl⟩ <;>
      simp_all

theorem not_meets_of_hidden (I : Inv hash h m) (hfit : h.slotSize < 0x80000000) {op : Op K V}
    (hh : Hidden hash h op) (ops : List (Op K V)) : ¬ Meets hash keyCmp h m (op :: ops) := by
  rintro ⟨a, h₂, m₂, hstep, hans, -⟩
  cases op with
  | insert k v calloc =>
    obtain ⟨hk, h', hins⟩ := hashMapInsert_hidden hcmp I hfit k v calloc hh
    have ha : a = .code 0 := by
      simp only [step, hins, Exec.ok_bind, Exec.pure_eq, Except.ok.injEq, Prod.mk.injEq] at hstep
      exact hstep.1.symm
    rcases hans with ⟨hnone, -⟩ | ⟨-, hcode, -⟩
    · exact hk hnone
    · simp [ha] at hcode
  | _ => exact hh

theorem meets_iff_avoids_of_inv {itemSize : ℕ} (hitem : 16 ≤ itemSize) (I : Inv hash h m)
    {ops : List (Op K V)} (hfits : Fits hash keyCmp itemSize h ops) :
    Meets hash keyCmp h m ops ↔ Avoids hash keyCmp h ops := by
  induction ops generalizing h m with
  | nil => simp [Meets, Avoids]
  | cons op ops ih =>
    have hfit : h.slotSize < 0x80000000 := by
      have := hfits.1
      have := Nat.mul_le_mul_left h.slotSize hitem
      omega
    by_cases hh : Hidden hash h op
    · simp [Avoids, hh, not_meets_of_hidden hcmp I hfit hh ops]
    obtain ⟨a, h', m', hstep, hans, I'⟩ := step_spec hcmp I hfit hh
    have hfits' : Fits hash keyCmp itemSize h' ops := by
      have := hfits.2
      rwa [hstep] at this
    simp only [Meets, Avoids, hstep, hh, not_false_eq_true, true_and]
    rw [← ih I' hfits']
    constructor
    · rintro ⟨a₂, h₂, m₂, heq, hans₂, -, -, hrest⟩
      obtain ⟨rfl, rfl⟩ := Prod.mk.inj (Except.ok.inj heq)
      rwa [hans.unique hans₂]
    · intro hrest
      exact ⟨a, h', m', rfl, hans, I'.probed.pairwise, by rw [I'.size, I'.probed.ncard I'.map],
        hrest⟩

/-- **The hash map answers like a finite map exactly when no insert is made with a shadowed key.**
`itemSize` is at least `sizeof(struct hash_item)`. -/
theorem answers_iff_avoids {slotSize itemSize : ℕ} (hs : 1 ≤ slotSize) (hitem : 16 ≤ itemSize)
    (ops : List (Op K V)) (hfits : Fits hash keyCmp itemSize (hashMapCreate slotSize) ops) :
    Meets hash keyCmp (hashMapCreate slotSize : HashMap K V) (fun _ => none) ops ↔
      Avoids hash keyCmp (hashMapCreate slotSize : HashMap K V) ops :=
  meets_iff_avoids_of_inv hcmp hitem (inv_hashMapCreate hs) hfits

end Runs

/-- A run with a deleted item that shadows no key put in again. -/
theorem answers_reinsert : Meets (fun k : ℕ => UInt64.ofNat k) (fun a b => (a : Int) - b)
    (hashMapCreate 4 : HashMap ℕ ℕ) (fun _ => none)
    [.insert 1 10 true, .insert 5 50 true, .remove 1, .insert 1 11 true, .find 1, .erase 5,
      .insert 9 90 true, .setVal 9 91, .insert 2 20 true, .find 9] :=
  (answers_iff_avoids (fun a b => by omega) (by decide) (by decide : 16 ≤ 24) _ (by decide)).2
    (by decide)

/-- Two keys with one hash code: after the first is removed, an insert of the second succeeds. -/
theorem not_answers_second_insert :
    Fits (fun _ : ℕ => (0 : UInt64)) (fun a b => (a : Int) - b) 24 (hashMapCreate 4 : HashMap ℕ ℕ)
        [.insert 1 10 true, .insert 2 20 true, .remove 1, .insert 2 21 true] ∧
      ¬ Meets (fun _ : ℕ => (0 : UInt64)) (fun a b => (a : Int) - b)
        (hashMapCreate 4 : HashMap ℕ ℕ) (fun _ => none)
        [.insert 1 10 true, .insert 2 20 true, .remove 1, .insert 2 21 true] := by
  refine ⟨by decide, ?_⟩
  rw [meets_iff_avoids_of_inv (fun a b => by omega) (by decide : 16 ≤ 24)
    (inv_hashMapCreate (by decide)) (by decide)]
  decide

end Kendylib.HashMap
