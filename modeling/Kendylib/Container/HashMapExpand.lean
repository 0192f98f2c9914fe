import Kendylib.Container.HashMapRuns

/-!
# Expanding a table

`_hash_map_expand` puts the items in use into a new table of twice as many slots. What a caller sees
of the map is compared before and after, in any table that the operations can make, erasing and
setting through iterators that are no longer fresh among them.

* `Reachable` tables are `Sound`: the items have the hash codes of their keys, and no slot before an
  item is empty.
* A search stops at the first slot that has its key, in use or deleted. So a key that is in use
  behind a slot where it was deleted is not found; it is found in the new table. Expanding keeps the
  map exactly if there is no such key (`expandsFaithfully_iff`).
-/

namespace Kendylib.HashMap

variable {K V : Type} {hash : K → UInt64} {keyCmp : K → K → Int}
  {h h' : HashMap K V}

/-! ## The tables that the operations make -/

variable (hash keyCmp) in
/-- A map made by `hash_map_create` and any operations after it. An iterator may be used as long as
the slot it points at is one of an item, whatever has become of the item. -/
inductive Reachable : HashMap K V → Prop
  | create {slotSize : ℕ} : 1 ≤ slotSize → Reachable (hashMapCreate slotSize)
  | step {h h' : HashMap K V} {op : Op K V} {a : Answer V} :
    Reachable h → step hash keyCmp h op = .ok (a, h') → Reachable h'
  | erase {h h' : HashMap K V} {iter : Iter} {r : Int} :
    Reachable h → hashMapErase h iter = .ok (r, h') → Reachable h'
  | setVal {h h' : HashMap K V} {iter : Iter} {v : V} :
    Reachable h → hashMapIterSetVal h iter v = .ok h' → Reachable h'

variable (hash) in
/-- The items have the hash codes of their keys, and no slot between the first one probed for an item
and the item is empty. -/
structure Sound (h : HashMap K V) : Prop where
  length : h.items.length = h.slotSize
  pos : 0 < h.slotSize
  code : ∀ x ∈ h.items, x.CodeOk hash
  noHole : ∀ c j i, i < j → j < h.items.length → (probe h.items c j).codeOf = some c →
    probe h.items c i ≠ .empty

theorem sound_create {slotSize : ℕ} (hs : 1 ≤ slotSize) :
    Sound hash (hashMapCreate slotSize : HashMap K V) :=
  have I : Inv hash (hashMapCreate slotSize : HashMap K V) fun _ => none := inv_hashMapCreate hs
  ⟨I.length, I.pos, I.probed.code, I.probed.noHole⟩

/-- An item may be replaced by another one with its hash code. -/
theorem Sound.replace (S : Sound hash h) {s : ℕ} (hs : s < h.items.length) {x : Slot K V}
    (hx : x.CodeOk hash) (hcode : x.codeOf = (h.items.getD s .empty).codeOf) :
    Sound hash (h.setItem s x) := by
  refine ⟨?_, S.pos, fun y hy => ?_, fun c j i hij hj hc => ?_⟩
  · exact (List.length_set ..).trans S.length
  · rcases List.mem_or_eq_of_mem_set hy with hy | rfl
    · exact S.code y hy
    · exact hx
  · simp only [setItem, List.length_set] at hj hc ⊢
    rw [probe_set hs] at hc ⊢
    have hold : (probe h.items c j).codeOf = some c := by
      split_ifs at hc with hjs
      · rw [probe, hjs, ← hcode, hc]
      · exact hc
    have hbefore := S.noHole c j i hij hj hold
    split_ifs with his
    · rintro rfl
      rw [probe, his] at hbefore
      exact hbefore (Slot.codeOf_eq_none.mp hcode.symm)
    · exact hbefore

variable (keyCmp) in
/-- The probing loop of `_hash_map_insert` finds no slot, or the first one that is not in use. -/
theorem insertLoop_cases (S : Sound hash h) (k : K) {n m : ℕ} (hn : m + n = h.slotSize)
    (hbefore : ∀ i < m, (probe h.items (hash k) i).inUse.isSome) :
    insertLoop keyCmp h k (hash k) n (((hash k).toNat + m) % h.slotSize) = .ok none ∨
      ∃ j < h.slotSize, (probe h.items (hash k) j).inUse = none ∧
        (∀ i < j, (probe h.items (hash k) i).inUse.isSome) ∧
        insertLoop keyCmp h k (hash k) n (((hash k).toNat + m) % h.slotSize) =
          .ok (some (((hash k).toNat + j) % h.slotSize)) := by
  induction n generalizing m with
  | zero => exact .inl rfl
  | succ n ih =>
    rw [insertLoop, getItem_probe S.length _ _ S.pos, Exec.ok_bind]
    cases hm : probe h.items (hash k) m with
    | empty => exact .inr ⟨m, by omega, by rw [hm]; rfl, hbefore, rfl⟩
    | delete c k' v => exact .inr ⟨m, by omega, by rw [hm]; rfl, hbefore, rfl⟩
    | used c k' v =>
      dsimp only
      split_ifs
      · exact .inl rfl
      · rw [next_slot]
        refine ih (by omega) fun i hi => ?_
        rcases Nat.lt_succ_iff_lt_or_eq.mp hi with hi | rfl
        · exact hbefore i hi
        · rw [hm]
          rfl

variable (keyCmp) in
/-- `_hash_map_insert` keeps a table sound, whether it finds a slot or not. -/
theorem Sound.insert (S : Sound hash h) (k : K) (v : V) :
    ∃ r t, innerHashMapInsert keyCmp h k v (hash k) = .ok (r, { h with items := t }) ∧
      Sound hash { h with items := t } := by
  have hzero : hashMapIndex (hash k) h.slotSize = ((hash k).toNat + 0) % h.slotSize := rfl
  rcases insertLoop_cases keyCmp S k (Nat.zero_add _) (fun i hi => by omega) with
    hnone | ⟨j, hj, hfree, hbefore, hsome⟩
  · refine ⟨-1, h.items, ?_, S⟩
    rw [innerHashMapInsert, hzero, hnone]
    rfl
  · have hlt : ((hash k).toNat + j) % h.items.length < h.items.length :=
      probe_lt (by rw [S.length]; exact S.pos)
    refine ⟨0, h.items.set (((hash k).toNat + j) % h.items.length) (.used (hash k) k v), ?_,
      ⟨?_, S.pos, fun y hy => ?_, fun c m i him hm hc => ?_⟩⟩
    · rw [innerHashMapInsert, hzero, hsome, S.length]
      rfl
    · exact (List.length_set ..).trans S.length
    · rcases List.mem_or_eq_of_mem_set hy with hy | rfl
      · exact S.code y hy
      · rfl
    · rw [List.length_set] at hm
      refine noHole_set S.noHole (by rw [S.length]; exact hj) rfl (fun i hi hempty => ?_) c m i him hm
        hc
      have := hbefore i hi
      rw [hempty] at this
      cases this

variable (keyCmp) in
theorem Sound.expandLoop (S : Sound hash h) {old : List (Slot K V)}
    (hcode : ∀ x ∈ old, x.CodeOk hash) :
    ∃ t, expandLoop keyCmp h old = .ok { h with items := t } ∧ Sound hash { h with items := t } := by
  induction old generalizing h with
  | nil => exact ⟨h.items, rfl, S⟩
  | cons x old ih =>
    have hcode' : ∀ x ∈ old, x.CodeOk hash := fun y hy => hcode y (List.mem_cons_of_mem x hy)
    cases x with
    | empty => exact ih S hcode'
    | delete c k v => exact ih S hcode'
    | used c k v =>
      obtain rfl : c = hash k := hcode _ List.mem_cons_self
      obtain ⟨r, t, ht, S'⟩ := S.insert keyCmp k v
      obtain ⟨t', ht', S''⟩ := ih S' hcode'
      refine ⟨t', ?_, S''⟩
      rw [HashMap.expandLoop, ht, Exec.ok_bind]
      exact ht'

variable (keyCmp) in
theorem Sound.expand (S : Sound hash h) (calloc : Bool) :
    ∃ h', hashMapExpand keyCmp h calloc = .ok h' ∧ Sound hash h' := by
  cases calloc with
  | false => exact ⟨h, rfl, S⟩
  | true =>
    have S₀ : Sound hash ({ h with
        slotSize := 2 * h.slotSize
        items := List.replicate (2 * h.slotSize) .empty } : HashMap K V) := by
      have hpos := S.pos
      have hempty : Sound hash (hashMapCreate (2 * h.slotSize) : HashMap K V) :=
        sound_create (by omega)
      exact ⟨hempty.length, hempty.pos, hempty.code, hempty.noHole⟩
    obtain ⟨t, ht, S'⟩ := S₀.expandLoop keyCmp S.code
    refine ⟨_, ?_, (⟨S'.length, S'.pos, S'.code, S'.noHole⟩ : Sound hash { h with
      slotSize := 2 * h.slotSize, items := t
      expandSize := 2 * h.slotSize - 2 * h.slotSize / 4 })⟩
    rw [hashMapExpand, if_pos rfl]
    simp only [ht, Exec.ok_bind]
    rfl

theorem Sound.size (S : Sound hash h) (n : ℕ) : Sound hash { h with size := n } :=
  ⟨S.length, S.pos, S.code, S.noHole⟩

theorem Sound.hashMapInsert (S : Sound hash h) {k : K} {v : V} {calloc : Bool} {r : Int}
    (hi : hashMapInsert hash keyCmp h k v calloc = .ok (r, h')) : Sound hash h' := by
  have hfirst : ∃ h₁, (if NeedsExpand h then hashMapExpand keyCmp h calloc else pure h) = .ok h₁ ∧
      Sound hash h₁ := by
    split
    · exact S.expand keyCmp calloc
    · exact ⟨h, rfl, S⟩
  obtain ⟨h₁, hh₁, S₁⟩ := hfirst
  rw [HashMap.hashMapInsert, hh₁, Exec.ok_bind] at hi
  split at hi
  · obtain ⟨-, rfl⟩ := Prod.mk.inj (Except.ok.inj hi)
    exact S₁
  · obtain ⟨r', t, ht, S'⟩ := S₁.insert keyCmp k v
    rw [ht, Exec.ok_bind] at hi
    dsimp only at hi
    split at hi
    · obtain ⟨-, rfl⟩ := Prod.mk.inj (Except.ok.inj hi)
      exact S'.size _
    · obtain ⟨-, rfl⟩ := Prod.mk.inj (Except.ok.inj hi)
      exact S'

theorem getItem_eq_ok {slot : ℕ} {x : Slot K V} (hx : h.getItem slot = .ok x) :
    slot < h.items.length ∧ h.items.getD slot .empty = x ∧ x ∈ h.items := by
  unfold getItem at hx
  split at hx
  · rename_i y hy
    obtain rfl := Except.ok.inj hx
    obtain ⟨hlt, rfl⟩ := List.getElem?_eq_some_iff.mp hy
    exact ⟨hlt, List.getD_eq_getElem _ _ hlt, List.getElem_mem hlt⟩
  · cases hx

theorem Sound.deleteItem (S : Sound hash h) {slot : ℕ} (hd : deleteItem h slot = .ok h') :
    Sound hash h' := by
  obtain ⟨x, hx, hd⟩ := Exec.bind_eq_ok.mp hd
  obtain ⟨hlt, hget, hmem⟩ := getItem_eq_ok hx
  have hcode := S.code x hmem
  cases x with
  | empty => cases hd
  | delete c k v | used c k v =>
    obtain rfl := Except.ok.inj hd
    have hsame : (Slot.delete c k v).codeOf = (h.items.getD slot .empty).codeOf := hget ▸ rfl
    have hok : (Slot.delete c k v).CodeOk hash := hcode
    exact (S.replace hlt hok hsame).size _

theorem Sound.setVal (S : Sound hash h) {iter : Iter} {data : V}
    (hs : hashMapIterSetVal h iter data = .ok h') : Sound hash h' := by
  obtain ⟨slot, -, hs⟩ := Exec.bind_eq_ok.mp hs
  obtain ⟨x, hx, hs⟩ := Exec.bind_eq_ok.mp hs
  obtain ⟨hlt, hget, hmem⟩ := getItem_eq_ok hx
  have hcode := S.code x hmem
  cases x with
  | empty => cases hs
  | delete c k v =>
    obtain rfl := Except.ok.inj hs
    have hsame : (Slot.delete c k data).codeOf = (h.items.getD slot .empty).codeOf := hget ▸ rfl
    exact S.replace hlt hcode hsame
  | used c k v =>
    obtain rfl := Except.ok.inj hs
    have hsame : (Slot.used c k data).codeOf = (h.items.getD slot .empty).codeOf := hget ▸ rfl
    exact S.replace hlt hcode hsame

theorem Sound.erase (S : Sound hash h) {iter : Iter} {r : Int}
    (he : hashMapErase h iter = .ok (r, h')) : Sound hash h' := by
  cases iter with
  | none =>
    obtain ⟨-, rfl⟩ := Prod.mk.inj (Except.ok.inj he)
    exact S
  | some slot =>
    obtain ⟨h₁, hd, he⟩ := Exec.bind_eq_ok.mp he
    obtain ⟨-, rfl⟩ := Prod.mk.inj (Except.ok.inj he)
    exact S.deleteItem hd

/-- **A step** keeps a table sound. -/
theorem Sound.step (S : Sound hash h) {op : Op K V} {a : Answer V}
    (hstep : step hash keyCmp h op = .ok (a, h')) : Sound hash h' := by
  cases op with
  | insert k v calloc =>
    obtain ⟨⟨r, h₁⟩, hi, he⟩ := Exec.bind_eq_ok.mp hstep
    obtain ⟨-, rfl⟩ := Prod.mk.inj (Except.ok.inj he)
    exact S.hashMapInsert hi
  | find k =>
    obtain ⟨iter, -, he⟩ := Exec.bind_eq_ok.mp hstep
    cases iter with
    | none =>
      obtain ⟨-, rfl⟩ := Prod.mk.inj (Except.ok.inj he)
      exact S
    | some slot =>
      obtain ⟨v, -, he⟩ := Exec.bind_eq_ok.mp he
      obtain ⟨-, rfl⟩ := Prod.mk.inj (Except.ok.inj he)
      exact S
  | remove k =>
    obtain ⟨⟨r, h₁⟩, hr, he⟩ := Exec.bind_eq_ok.mp hstep
    obtain ⟨-, rfl⟩ := Prod.mk.inj (Except.ok.inj he)
    obtain ⟨iter, -, hr⟩ := Exec.bind_eq_ok.mp hr
    cases iter with
    | none => exact S.erase (show hashMapErase h none = .ok (r, h₁) from hr)
    | some slot => exact S.erase (show hashMapErase h (some slot) = .ok (r, h₁) from hr)
  | erase k =>
    obtain ⟨iter, -, he⟩ := Exec.bind_eq_ok.mp hstep
    obtain ⟨⟨r, h₁⟩, hr, he⟩ := Exec.bind_eq_ok.mp he
    obtain ⟨-, rfl⟩ := Prod.mk.inj (Except.ok.inj he)
    exact S.erase hr
  | setVal k v =>
    obtain ⟨iter, -, he⟩ := Exec.bind_eq_ok.mp hstep
    cases iter with
    | none =>
      obtain ⟨-, rfl⟩ := Prod.mk.inj (Except.ok.inj he)
      exact S
    | some slot =>
      obtain ⟨h₁, hs, he⟩ := Exec.bind_eq_ok.mp he
      obtain ⟨-, rfl⟩ := Prod.mk.inj (Except.ok.inj he)
      exact S.setVal hs

/-- **The tables that the operations make are sound.** -/
theorem Reachable.sound (hr : Reachable hash keyCmp h) : Sound hash h := by
  induction hr with
  | create hs => exact sound_create hs
  | step _ hstep ih => exact ih.step hstep
  | erase _ he ih => exact ih.erase he
  | setVal _ hs ih => exact ih.setVal hs

theorem Reachable.run {ops : List (Op K V)} (hr : Reachable hash keyCmp h)
    (hrun : ops.foldlM (fun h op => (HashMap.step hash keyCmp h op).map Prod.snd) h = .ok h') :
    Reachable hash keyCmp h' := by
  induction ops generalizing h with
  | nil =>
    obtain rfl := Except.ok.inj hrun
    exact hr
  | cons op ops ih =>
    rw [List.foldlM_cons] at hrun
    obtain ⟨h₁, hstep, hrest⟩ := Exec.bind_eq_ok.mp hrun
    cases hs : HashMap.step hash keyCmp h op with
    | error f =>
      rw [hs] at hstep
      cases hstep
    | ok r =>
      rw [hs] at hstep
      obtain rfl := Except.ok.inj hstep
      exact ih (.step hr hs) hrest

/-! ## What a caller sees -/

/-- The items in use. -/
def usedItems (t : List (Slot K V)) : List (Slot K V) := t.filter fun x => x.inUse.isSome

variable (hash keyCmp) in
/-- Where the allocation fails the map is as before. Where it succeeds the items in use are the same,
no slot is deleted, a search for any key answers the same, `size` is the same, and `expand_size` is
three quarters of the number of slots. -/
def ExpandsFaithfully (h : HashMap K V) : Prop :=
  hashMapExpand keyCmp h false = .ok h ∧
    ∃ h', hashMapExpand keyCmp h true = .ok h' ∧ (usedItems h'.items).Perm (usedItems h.items) ∧
      (∀ x ∈ h'.items, x.deleted = none) ∧
      (∀ k, (step hash keyCmp h' (.find k)).map Prod.fst =
        (step hash keyCmp h (.find k)).map Prod.fst) ∧
      h'.size = h.size ∧ h'.slotSize = 2 * h.slotSize ∧ h'.expandSize = (3 * h'.slotSize + 3) / 4

variable (hash) in
/-- No item in use has a slot where its own key was deleted before it. -/
def FirstHit (h : HashMap K V) : Prop :=
  ∀ x ∈ h.items, ∀ k ∈ x.inUse.map Prod.fst, ∀ j < h.slotSize, ∀ i < j,
    (probe h.items (hash k) j).inUse.map Prod.fst = some k →
      (probe h.items (hash k) i).deleted ≠ some k

instance [DecidableEq K] : Decidable (FirstHit hash h) :=
  inferInstanceAs (Decidable (∀ x ∈ h.items, ∀ k ∈ x.inUse.map Prod.fst, ∀ j < h.slotSize, ∀ i < j,
    (probe h.items (hash k) j).inUse.map Prod.fst = some k →
      (probe h.items (hash k) i).deleted ≠ some k))

section Expand

variable (hcmp : ∀ a b, keyCmp a b = 0 ↔ a = b)

include hcmp

/-- A search answers with the value of a key in use. -/
theorem find_present (hlen : h.items.length = h.slotSize) (p : Probed hash h.items) {k : K} {v : V}
    (hk : Present hash h.items k v) : step hash keyCmp h (.find k) = .ok (.found (some v), h) := by
  obtain ⟨j, hj, hjk⟩ := hk
  have hget : h.getItem (((hash k).toNat + j) % h.slotSize) = .ok (.used (hash k) k v) := by
    rw [getItem_probe hlen _ _ (by omega), p.used hj hjk]
  simp [step, hashMapFind_present hcmp hlen p (hlen ▸ hj) hjk, hashMapIterGetVal, hget]

theorem find_absent (hlen : h.items.length = h.slotSize) (hpos : 0 < h.slotSize) {k : K}
    (hk : ∀ v, ¬ Present hash h.items k v) :
    step hash keyCmp h (.find k) = .ok (.found none, h) := by
  simp [step, hashMapFind_absent hcmp hlen hk hpos]

omit hcmp in
/-- A key in use is in one slot. -/
theorem OneSlot.once (hone : OneSlot h) {c : UInt64} {k : K} {v v' : V} {i j : ℕ}
    (hj : j < h.items.length) (hi : i < h.items.length)
    (hjk : (probe h.items c j).inUse = some (k, v))
    (hik : (probe h.items c i).inUse = some (k, v')) : j = i := by
  have hlt : ∀ m, (c.toNat + m) % h.items.length < h.items.length := fun m => probe_lt (by omega)
  rw [probe, List.getD_eq_getElem _ _ (hlt _)] at hjk hik
  have hpair := List.pairwise_iff_getElem.mp hone
  by_contra hne
  rcases Nat.lt_trichotomy ((c.toNat + j) % h.items.length) ((c.toNat + i) % h.items.length) with
    hless | heq | hless
  · exact hpair _ _ (hlt j) (hlt i) hless k v v' hjk hik
  · exact hne (add_mod_injective hj hi heq)
  · exact hpair _ _ (hlt i) (hlt j) hless k v' v hik hjk

/-- A search does not find a key in use behind a slot where it was deleted. -/
theorem find_behind (S : Sound hash h) (hone : OneSlot h) {k : K} {v : V} {i j : ℕ}
    (hj : j < h.slotSize) (hij : i < j) (hjk : (probe h.items (hash k) j).inUse = some (k, v))
    (hik : (probe h.items (hash k) i).deleted = some k) :
    step hash keyCmp h (.find k) = .ok (.found none, h) := by
  have hlen := S.length
  have hpos := S.pos
  have hcode : (probe h.items (hash k) j).codeOf = some (hash k) := by
    rw [Slot.inUse_eq_some (S.code _ (probe_mem (by omega))) hjk]
    rfl
  classical
  -- the first slot where the key was deleted
  have hex : ∃ i, (probe h.items (hash k) i).deleted = some k := ⟨i, hik⟩
  obtain ⟨m, hm⟩ : ∃ m, m = Nat.find hex := ⟨_, rfl⟩
  have hmk : (probe h.items (hash k) m).deleted = some k := hm ▸ Nat.find_spec hex
  have hle : m ≤ i := hm ▸ Nat.find_min' hex hik
  have hskip : ∀ i < m, probe h.items (hash k) i ≠ .empty ∧
      (∀ v, (probe h.items (hash k) i).inUse ≠ some (k, v)) ∧
      (probe h.items (hash k) i).deleted ≠ some k := by
    intro i' hi'
    refine ⟨S.noHole _ j i' (by omega) (by omega) hcode, fun v' hv' => ?_,
      Nat.find_min hex (hm ▸ hi')⟩
    have := hone.once (by omega) (by omega) hjk hv'
    omega
  have hfind : hashMapFind hash keyCmp h k = .ok none := by
    rw [hashMapFind, findLoop_skip hcmp hlen (by omega) hskip,
      show h.slotSize - m = h.slotSize - (m + 1) + 1 by omega, findLoop,
      getItem_probe hlen _ _ hpos, Exec.ok_bind]
    have hok := S.code _ (probe_mem (c := hash k) (j := m) (by omega))
    cases hx : probe h.items (hash k) m with
    | empty => simp [hx, Slot.deleted] at hmk
    | used c k' v' => simp [hx, Slot.deleted] at hmk
    | delete c k' v' =>
      obtain rfl : k' = k := by simpa [hx, Slot.deleted] using hmk
      rw [hx] at hok
      obtain rfl : c = hash k' := hok
      simp [hcmp]
  simp [step, hfind]

omit hcmp in
/-- Tables with the same keys and values in use have the same items in use. -/
theorem usedItems_perm (S : Sound hash h) (hone : OneSlot h) (S' : Sound hash h') (hone' : OneSlot h')
    (hpres : ∀ k v, Present hash h'.items k v ↔ Present hash h.items k v) :
    (usedItems h'.items).Perm (usedItems h.items) := by
  have hnodup : ∀ {h : HashMap K V}, OneSlot h → (usedItems h.items).Nodup := by
    intro h hone
    refine List.Pairwise.imp_of_mem ?_ (List.Pairwise.filter _ hone)
    intro x y hx _ hxy heq
    obtain ⟨⟨k, v⟩, hkv⟩ := Option.isSome_iff_exists.mp (List.mem_filter.mp hx).2
    exact hxy k v v hkv (heq ▸ hkv)
  have hmem : ∀ {h : HashMap K V}, Sound hash h → ∀ x, x ∈ usedItems h.items ↔
      ∃ k v, x = .used (hash k) k v ∧ Present hash h.items k v := by
    intro h S x
    rw [usedItems, List.mem_filter]
    constructor
    · rintro ⟨hx, hsome⟩
      obtain ⟨⟨k, v⟩, hkv⟩ := Option.isSome_iff_exists.mp hsome
      exact ⟨k, v, Slot.inUse_eq_some (S.code x hx) hkv, present_iff_mem.mpr ⟨x, hx, hkv⟩⟩
    · rintro ⟨k, v, rfl, hk⟩
      obtain ⟨y, hy, hkv⟩ := present_iff_mem.mp hk
      rw [← Slot.inUse_eq_some (S.code y hy) hkv]
      exact ⟨hy, by rw [hkv]; rfl⟩
  rw [List.perm_ext_iff_of_nodup (hnodup hone') (hnodup hone)]
  intro x
  rw [hmem S', hmem S]
  simp only [hpres]

/-- **Expanding the table preserves the map** exactly if no item in use has a slot where its own key
was deleted before it. -/
theorem expandsFaithfully_iff (hr : Reachable hash keyCmp h) (hone : OneSlot h) :
    ExpandsFaithfully hash keyCmp h ↔ FirstHit hash h := by
  have S := hr.sound
  have hlen := S.length
  have hpos := S.pos
  obtain ⟨t, ht, htlen, p, hdel, -, hpres⟩ := hashMapExpand_table hcmp S.length S.pos S.code hone
  constructor
  · rintro ⟨-, h', hh', -, -, hfind, -⟩
    obtain rfl := Except.ok.inj (hh'.symm.trans ht)
    rintro x hx k hk j hj i hij hjk hik
    obtain ⟨⟨k', v⟩, hkv, rfl⟩ := Option.map_eq_some_iff.mp hjk
    have hsame := hfind k'
    rw [find_behind hcmp S hone hj hij hkv hik, find_present hcmp htlen p
      ((hpres k' v).mpr ⟨j, by omega, hkv⟩)] at hsame
    cases hsame
  · intro hfirst
    have p₀ : Probed hash h.items := by
      refine ⟨S.code, S.noHole, fun k v v' j i hj hi => hone.once hj hi, ?_⟩
      intro k v j i hj hi hjk hik
      have hmem := probe_mem (t := h.items) (c := hash k) (j := j) (by omega)
      by_contra hlt
      refine hfirst _ hmem k (by rw [hjk]; rfl) j (by omega) i ?_ (by rw [hjk]; rfl) hik
      refine lt_of_le_of_ne (Nat.not_lt.mp hlt) ?_
      rintro rfl
      cases hx : probe h.items (hash k) i <;> simp [hx, Slot.inUse, Slot.deleted] at hjk hik
    refine ⟨rfl, _, ht, ?_, hdel, fun k => ?_, rfl, rfl, ?_⟩
    · exact usedItems_perm S hone ⟨htlen, by simp only; omega, p.code, p.noHole⟩ p.pairwise hpres
    · by_cases hk : ∃ v, Present hash h.items k v
      · obtain ⟨v, hv⟩ := hk
        rw [find_present hcmp hlen p₀ hv, find_present hcmp htlen p ((hpres k v).mpr hv)]
        rfl
      · have hnone : ∀ v, ¬ Present hash h.items k v := fun v hv => hk ⟨v, hv⟩
        rw [find_absent hcmp hlen hpos hnone,
          find_absent hcmp htlen (by simp only; omega) fun v hv => hnone v ((hpres k v).mp hv)]
        rfl
    · simp only
      omega

end Expand

/-- A hash function with one value, and a table of it where another key was deleted before a key in
use. -/
def afterRemoval : HashMap ℕ ℕ where
  slotSize := 4
  size := 1
  expandSize := 3
  items := [.delete 0 1 10, .used 0 2 20, .empty, .empty]

theorem expandsFaithfully_afterRemoval :
    ExpandsFaithfully (fun _ : ℕ => (0 : UInt64)) (fun a b => (a : Int) - b) afterRemoval := by
  have hr : Reachable (fun _ : ℕ => (0 : UInt64)) (fun a b => (a : Int) - b) afterRemoval :=
    Reachable.run (.create (by decide : 1 ≤ 4))
      (show [Op.insert 1 10 true, .insert 2 20 true, .remove 1].foldlM _ _ = _ from rfl)
  have hone : OneSlot afterRemoval := by simp [OneSlot, afterRemoval, Slot.inUse]
  exact (expandsFaithfully_iff (fun a b => by omega) hr hone).mpr (by decide)

/-- The key is put in a second time before its item and removed there. -/
def afterSecondInsert : HashMap ℕ ℕ where
  slotSize := 4
  size := 1
  expandSize := 3
  items := [.delete 0 2 21, .used 0 2 20, .empty, .empty]

/-- The key `2` is not found before the table is expanded, and found afterwards. -/
theorem not_expandsFaithfully_afterSecondInsert :
    Reachable (fun _ : ℕ => (0 : UInt64)) (fun a b => (a : Int) - b) afterSecondInsert ∧
      OneSlot afterSecondInsert ∧
      ¬ ExpandsFaithfully (fun _ : ℕ => (0 : UInt64)) (fun a b => (a : Int) - b)
        afterSecondInsert := by
  have hr : Reachable (fun _ : ℕ => (0 : UInt64)) (fun a b => (a : Int) - b) afterSecondInsert :=
    Reachable.run (.create (by decide : 1 ≤ 4))
      (show [Op.insert 1 10 true, .insert 2 20 true, .remove 1, .insert 2 21 true,
        .remove 2].foldlM _ _ = _ from rfl)
  refine ⟨hr, by simp [OneSlot, afterSecondInsert, Slot.inUse], ?_⟩
  rintro ⟨-, h', hh', -, -, hfind, -⟩
  obtain rfl := Except.ok.inj hh'
  cases hfind 2

end Kendylib.HashMap
