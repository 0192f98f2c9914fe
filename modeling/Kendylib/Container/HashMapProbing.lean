import Kendylib.Container.HashMapExpand
import Kendylib.Foundations.Run

/-!
# No holes on the paths of probing

The slots that are probed for an item, from the remainder of its hash code round the table to the
item itself, are never empty, whatever operations have been made on the map (`no_holes`). So an
empty slot ends a search rightly: no item in use is one that the search is for.

`findStop` is the loop of `_hash_map_find` with the reason for which it ends; `_hash_map_find`
answers with the item only (`findLoop_eq`).
-/

namespace Kendylib.HashMap

variable {K V : Type} (hash : K → UInt64) (keyCmp : K → K → Int)

/-- How the probing loop of `_hash_map_find` ends: at an empty slot, at a deleted item with the key,
at the item, or after all slots. -/
inductive Stop
  | empty
  | deleted
  | found (slot : ℕ)
  | all

def Stop.iter : Stop → Iter
  | .found slot => some slot
  | _ => none

/-- The probing loop of `_hash_map_find`, with the reason for which it ends. -/
def findStop (h : HashMap K V) (key : K) (hashCode : UInt64) : ℕ → ℕ → Exec Stop
  | 0, _ => .ok .all
  | n + 1, slot => do
    match ← h.getItem slot with
    | .empty => return .empty
    | .delete c k _ =>
      if c = hashCode ∧ keyCmp key k = 0 then return .deleted
      else findStop h key hashCode n ((slot + 1) % h.slotSize)
    | .used c k _ =>
      if c = hashCode ∧ keyCmp key k = 0 then return .found slot
      else findStop h key hashCode n ((slot + 1) % h.slotSize)

/-- The end of a search for a key. -/
def findEnd (h : HashMap K V) (key : K) : Exec Stop :=
  findStop keyCmp h key (hash key) h.slotSize (hashMapIndex (hash key) h.slotSize)

/-- A call of a run: an operation of the map, or an expansion as `hash_map_insert` makes it. -/
inductive Call (K V : Type)
  | op (op : Op K V)
  | expand (calloc : Bool)

def call (h : HashMap K V) : Call K V → Exec (HashMap K V)
  | .op op => (step hash keyCmp h op).map Prod.snd
  | .expand calloc => if h.slotSize < 0x80000000 then hashMapExpand keyCmp h calloc else .ok h

/-- No slot on the cyclic path from the first one probed for an item up to the item is empty. -/
def NoHoles (h : HashMap K V) : Prop :=
  ∀ (s : ℕ) (x : Slot K V) (c : UInt64), h.items[s]? = some x → x.codeOf = some c →
    ∀ d < h.slotSize, (hashMapIndex c h.slotSize + d) % h.slotSize = s →
      ∀ i < d, h.items[(hashMapIndex c h.slotSize + i) % h.slotSize]? ≠ some .empty

/-- Where a search ends at an empty slot, no item in use has the key: none with its hash code, and
none at all if the comparison finds keys with the same hash code only. -/
def EmptyIsAbsent (h : HashMap K V) : Prop :=
  ∀ key, findEnd hash keyCmp h key = .ok .empty →
    ∀ c k v, .used c k v ∈ h.items →
      (c = hash key → keyCmp key k ≠ 0) ∧
      ((∀ a b, keyCmp a b = 0 → hash a = hash b) → keyCmp key k ≠ 0)

variable {hash keyCmp} {h h' : HashMap K V} {key : K}

/-- `_hash_map_find` answers with the item found. -/
theorem findLoop_eq (h : HashMap K V) (key : K) (c : UInt64) (n slot : ℕ) :
    findLoop keyCmp h key c n slot = (findStop keyCmp h key c n slot).map Stop.iter := by
  induction n generalizing slot with
  | zero => rfl
  | succ n ih =>
    rw [findLoop, findStop]
    cases h.getItem slot with
    | error f => rfl
    | ok x =>
      rw [Exec.ok_bind, Exec.ok_bind]
      cases x with
      | empty => rfl
      | delete c' k v | used c' k v =>
        dsimp only
        split_ifs
        · rfl
        · exact ih _

theorem hashMapFind_eq : hashMapFind hash keyCmp h key = (findEnd hash keyCmp h key).map Stop.iter :=
  findLoop_eq h key _ _ _

/-! ## The end of a search -/

/-- What is known where a search that has come to the `m`-th slot ends. -/
def Ended (hash : K → UInt64) (keyCmp : K → K → Int) (h : HashMap K V) (key : K) (m : ℕ) :
    Stop → Prop
  | .empty => ∃ j < h.slotSize, probe h.items (hash key) j = .empty ∧
      ∀ i < j, m ≤ i → ∀ k v, probe h.items (hash key) i = .used (hash key) k v → keyCmp key k ≠ 0
  | .found slot => ∃ c k v, h.getItem slot = .ok (.used c k v)
  | _ => True

theorem Ended.pass {m : ℕ} {r : Stop} (he : Ended hash keyCmp h key (m + 1) r)
    (hm : ∀ k v, probe h.items (hash key) m = .used (hash key) k v → keyCmp key k ≠ 0) :
    Ended hash keyCmp h key m r := by
  cases r with
  | empty =>
    obtain ⟨j, hj, hempty, hpassed⟩ := he
    refine ⟨j, hj, hempty, fun i hi hmi => ?_⟩
    rcases Nat.eq_or_lt_of_le hmi with rfl | hmi
    · exact hm
    · exact hpassed i hi hmi
  | found slot => exact he
  | deleted => trivial
  | all => trivial

/-- A search of a sound table returns. -/
theorem Sound.findStop (S : Sound hash h) (key : K) {n m : ℕ} (hn : m + n = h.slotSize) :
    ∃ r, findStop keyCmp h key (hash key) n (((hash key).toNat + m) % h.slotSize) = .ok r ∧
      Ended hash keyCmp h key m r := by
  induction n generalizing m with
  | zero => exact ⟨.all, rfl, trivial⟩
  | succ n ih =>
    have hget := getItem_probe S.length (hash key) m S.pos
    rw [HashMap.findStop, hget, Exec.ok_bind]
    obtain ⟨r, hr, hended⟩ := ih (m := m + 1) (by omega)
    cases hx : probe h.items (hash key) m with
    | empty => exact ⟨.empty, rfl, m, by omega, hx, fun i hi hmi => by omega⟩
    | delete c k v =>
      dsimp only
      split_ifs
      · exact ⟨.deleted, rfl, trivial⟩
      · rw [next_slot]
        exact ⟨r, hr, hended.pass fun k' v' hu => by rw [hx] at hu; cases hu⟩
    | used c k v =>
      dsimp only
      split_ifs with hmatch
      · exact ⟨.found _, rfl, c, k, v, hx ▸ hget⟩
      · rw [next_slot]
        refine ⟨r, hr, hended.pass fun k' v' hu hcmp => ?_⟩
        rw [hx] at hu
        cases hu
        exact hmatch ⟨rfl, hcmp⟩

variable (keyCmp) in
theorem Sound.findEnd (S : Sound hash h) (key : K) :
    ∃ r, findEnd hash keyCmp h key = .ok r ∧ Ended hash keyCmp h key 0 r :=
  S.findStop key (Nat.zero_add _)

theorem Sound.noHoles (S : Sound hash h) : NoHoles h := by
  intro s x c hs hc d hd hds i hi hempty
  have hlen := S.length
  have hprobe : ∀ j, h.items.getD ((hashMapIndex c h.slotSize + j) % h.slotSize) .empty =
      probe h.items c j := by
    intro j
    rw [probe, hlen, hashMapIndex, Nat.mod_add_mod]
  have hx : probe h.items c d = x := by
    rw [← hprobe, hds, List.getD_eq_getElem?_getD, hs, Option.getD_some]
  refine S.noHole c d i hi (by omega) (hx ▸ hc) ?_
  rw [← hprobe, List.getD_eq_getElem?_getD, hempty, Option.getD_some]

theorem Sound.emptyIsAbsent (S : Sound hash h) : EmptyIsAbsent hash keyCmp h := by
  intro key hfind c k v hmem
  have hcode : c = hash k := S.code _ hmem
  have hcmp : c = hash key → keyCmp key k ≠ 0 := by
    rintro rfl
    obtain ⟨r, hr, hended⟩ := S.findEnd keyCmp key
    obtain rfl := Except.ok.inj (hfind.symm.trans hr)
    obtain ⟨j, hj, hempty, hpassed⟩ := hended
    -- the item is on the path of the search, and not behind the empty slot
    obtain ⟨s, hs, hsx⟩ := List.getElem_of_mem hmem
    obtain ⟨d, hd, hds⟩ := exists_add_mod (hash key).toNat hs
    have hx : probe h.items (hash key) d = .used (hash key) k v := by
      rw [probe, hds, List.getD_eq_getElem _ _ hs, hsx]
    refine hpassed d ?_ (Nat.zero_le d) k v hx
    by_contra hle
    rcases Nat.eq_or_lt_of_le (Nat.not_lt.mp hle) with rfl | hlt
    · rw [hempty] at hx
      cases hx
    · exact S.noHole (hash key) d j hlt hd (by rw [hx]; rfl) hempty
  exact ⟨hcmp, fun hcompat hzero => hcmp (hcode.trans (hcompat key k hzero).symm) hzero⟩

/-! ## The operations return -/

variable (keyCmp) in
theorem Sound.insert_returns (S : Sound hash h) (k : K) (v : V) (calloc : Bool) :
    ∃ r h', HashMap.hashMapInsert hash keyCmp h k v calloc = .ok (r, h') := by
  have hfirst : ∃ h₁, (if NeedsExpand h then hashMapExpand keyCmp h calloc else pure h) = .ok h₁ ∧
      Sound hash h₁ := by
    split
    · exact S.expand keyCmp calloc
    · exact ⟨h, rfl, S⟩
  obtain ⟨h₁, hh₁, S₁⟩ := hfirst
  rw [HashMap.hashMapInsert]
  simp only [hh₁, Exec.ok_bind]
  split
  · exact ⟨_, _, rfl⟩
  · obtain ⟨r, t, ht, -⟩ := S₁.insert keyCmp k v
    rw [ht, Exec.ok_bind]
    dsimp only
    split <;> exact ⟨_, _, rfl⟩

variable (keyCmp) in
/-- A search finds nothing, or an item in use. -/
theorem Sound.find_returns (S : Sound hash h) (k : K) :
    hashMapFind hash keyCmp h k = .ok none ∨ ∃ slot c k' v,
      hashMapFind hash keyCmp h k = .ok (some slot) ∧ h.getItem slot = .ok (.used c k' v) := by
  obtain ⟨r, hr, hended⟩ := S.findEnd keyCmp k
  rw [hashMapFind_eq, hr]
  cases r with
  | found slot =>
    obtain ⟨c, k', v, hget⟩ := hended
    exact .inr ⟨slot, c, k', v, rfl, hget⟩
  | empty => exact .inl rfl
  | deleted => exact .inl rfl
  | all => exact .inl rfl

variable (keyCmp) in
theorem Sound.step_returns (S : Sound hash h) (op : Op K V) :
    ∃ a h', HashMap.step hash keyCmp h op = .ok (a, h') := by
  cases op with
  | insert k v calloc =>
    obtain ⟨r, h', hi⟩ := S.insert_returns keyCmp k v calloc
    simp [HashMap.step, hi]
  | find k =>
    rcases S.find_returns keyCmp k with hnone | ⟨slot, c, k', v, hsome, hget⟩
    · simp [HashMap.step, hnone]
    · simp [HashMap.step, hsome, hashMapIterGetVal, hget]
  | remove k =>
    rcases S.find_returns keyCmp k with hnone | ⟨slot, c, k', v, hsome, hget⟩
    · simp [HashMap.step, hashMapRemove, hnone]
    · simp [HashMap.step, hashMapRemove, hsome, HashMap.deleteItem, hget]
  | erase k =>
    rcases S.find_returns keyCmp k with hnone | ⟨slot, c, k', v, hsome, hget⟩
    · simp [HashMap.step, hashMapErase, hnone]
    · simp [HashMap.step, hashMapErase, hsome, HashMap.deleteItem, hget]
  | setVal k data =>
    rcases S.find_returns keyCmp k with hnone | ⟨slot, c, k', v, hsome, hget⟩
    · simp [HashMap.step, hnone]
    · simp [HashMap.step, hsome, hashMapIterSetVal, hget]

/-- A call on a sound table returns and leaves it sound. -/
theorem Sound.call (S : Sound hash h) (op : Call K V) :
    ∃ h', call hash keyCmp h op = .ok h' ∧ Sound hash h' := by
  cases op with
  | expand calloc =>
    rw [HashMap.call]
    split
    · exact S.expand keyCmp calloc
    · exact ⟨h, rfl, S⟩
  | op op =>
    obtain ⟨a, h', hstep⟩ := S.step_returns keyCmp op
    exact ⟨h', by rw [HashMap.call, hstep]; rfl, S.step hstep⟩

variable (hash keyCmp) in
/-- **Probe chains have no holes** in any run of calls, all of which return; so where a search ends
at an empty slot, the key is not in the table. -/
theorem no_holes {slotSize : ℕ} (hs : 1 ≤ slotSize) (calls : List (Call K V)) :
    Exec.Always (call hash keyCmp) (fun h => NoHoles h ∧ EmptyIsAbsent hash keyCmp h)
        (hashMapCreate slotSize) calls ∧
      Exec.FaultsOnly (call hash keyCmp) (fun _ _ _ => False) (hashMapCreate slotSize) calls := by
  refine Exec.always_of_beforeEach (I := Sound hash) (C := fun _ _ => True)
    (fun h S => ⟨S.noHoles, S.emptyIsAbsent⟩) (fun h op S _ => S.call op) (sound_create hs)
    (Exec.beforeEach_of_forall fun _ _ => trivial)

/-- All keys begin at the last slot of four, and the second one is behind a deleted item. -/
theorem no_holes_wrapped :
    1 ≤ 4 ∧ Exec.Always (call (fun _ : ℕ => (3 : UInt64)) fun a b : ℕ => (a : Int) - b)
        (fun h => NoHoles h ∧ EmptyIsAbsent (fun _ => 3) (fun a b : ℕ => (a : Int) - b) h)
        (hashMapCreate 4 : HashMap ℕ ℕ)
        [.op (.insert 1 10 true), .op (.insert 2 20 true), .op (.remove 1), .expand true] ∧
      Exec.FaultsOnly (call (fun _ : ℕ => (3 : UInt64)) fun a b : ℕ => (a : Int) - b)
        (fun _ _ _ => False) (hashMapCreate 4 : HashMap ℕ ℕ)
        [.op (.insert 1 10 true), .op (.insert 2 20 true), .op (.remove 1), .expand true] :=
  have hs : 1 ≤ 4 := by decide
  ⟨hs, no_holes _ _ hs _⟩

end Kendylib.HashMap
