import Kendylib.Container.Vector

/-!
# The values of a vector

A vector stands for a list of values. They lie one behind the other from the beginning of its block
on, and the block has room for `capability` of them (`Fits`). Each call is shown to do to the list
what it is for: `vector_push_back` appends a value, `vector_set` replaces one, `vector_reserve`
keeps what there is room for.

This holds as long as `realloc` leaves a block where it is (`Stays`). Where it moves the block, the
code reads or frees the old one once more (`moves_freed`).
-/

namespace Kendylib.Vectors

open Exec Blocks

/-- The vector has its values, each of the right size, in a block with room for `capability` of
them. -/
structure Fits (h : Blocks) (v : Vector) (contents : List (List UInt8)) : Prop where
  size : contents.length = v.size
  size_le : v.size ≤ v.capability
  capability : v.capability < 0x100000000
  values : ∀ x ∈ contents, x.length = v.valSize
  block : ∃ b, h.Holds v.buf b ∧ v.capability * v.valSize ≤ b.length ∧ b.length < 0x100000000 ∧
    contents.flatten <+: b
  null : v.buf = none → v.capability = 0

/-! ## Values in a block -/

section Values

variable {contents : List (List UInt8)} {b x : List UInt8} {n i : ℕ}

theorem length_flatten (hn : ∀ y ∈ contents, y.length = n) :
    contents.flatten.length = n * contents.length := by
  induction contents with
  | nil => simp
  | cons y contents ih =>
    have hy := hn y List.mem_cons_self
    have hrest := ih fun z hz => hn z (List.mem_cons_of_mem y hz)
    rw [List.flatten_cons, List.length_append, hy, hrest, List.length_cons]
    ring

theorem prefix_flatten {l l' : List (List UInt8)} (h : l <+: l') : l.flatten <+: l'.flatten := by
  obtain ⟨rest, rfl⟩ := h
  rw [List.flatten_append]
  exact List.prefix_append _ _

/-- A value among the others. -/
theorem flatten_split (hn : ∀ y ∈ contents, y.length = n) (hi : i < contents.length) :
    ∃ pre post, contents = pre ++ contents[i] :: post ∧ pre.length = i ∧
      pre.flatten.length = n * i ∧ contents[i].length = n := by
  have hlen : (contents.take i).length = i := by
    rw [List.length_take, Nat.min_eq_left hi.le]
  refine ⟨contents.take i, contents.drop (i + 1), ?_, hlen, ?_, hn _ (List.getElem_mem hi)⟩
  · rw [List.getElem_cons_drop, List.take_append_drop]
  · have htake : ∀ y ∈ contents.take i, y.length = n := fun y hy => hn y (List.mem_of_mem_take hy)
    rw [length_flatten htake, hlen]

/-- The value at an index is read where `vector_get` looks for it. -/
theorem take_drop_flatten (hn : ∀ y ∈ contents, y.length = n) (hb : contents.flatten <+: b)
    (hi : i < contents.length) : (b.drop (n * i)).take n = contents[i] := by
  obtain ⟨pre, post, hsplit, -, hpre, hlen⟩ := flatten_split hn hi
  obtain ⟨rest, rfl⟩ := hb
  generalize contents[i] = y at hsplit hlen ⊢
  rw [hsplit, List.flatten_append, List.flatten_cons, List.append_assoc, List.append_assoc,
    ← hpre, List.drop_left, ← hlen, List.take_left]

/-- A value is replaced. -/
theorem flatten_set (hn : ∀ y ∈ contents, y.length = n) (hb : contents.flatten <+: b)
    (hi : i < contents.length) :
    (contents.set i x).flatten <+: b.take (n * i) ++ x ++ b.drop (n * i + n) := by
  obtain ⟨pre, post, hsplit, hprelen, hpre, hlen⟩ := flatten_split hn hi
  obtain ⟨rest, rfl⟩ := hb
  generalize contents[i] = y at hsplit hlen
  have hset : contents.set i x = pre ++ x :: post := by
    rw [hsplit, ← hprelen]
    simp
  rw [hset, hsplit]
  simp only [List.flatten_append, List.flatten_cons, List.append_assoc]
  rw [← hpre, List.take_left, ← List.drop_drop, List.drop_left, ← hlen, List.drop_left]
  exact ⟨rest, by simp⟩

/-- A value is written behind the others, as the next one or somewhere further. -/
theorem flatten_beyond (hn : ∀ y ∈ contents, y.length = n) (hb : contents.flatten <+: b)
    (hi : contents.length ≤ i) (suffix : List UInt8) :
    contents.flatten <+: b.take (n * i) ++ suffix := by
  have hlen := length_flatten hn
  have hle : contents.flatten.length ≤ n * i := hlen ▸ Nat.mul_le_mul_left n hi
  exact (List.prefix_take_iff.mpr ⟨hb, hle⟩).trans (List.prefix_append _ _)

theorem flatten_push (hn : ∀ y ∈ contents, y.length = n) (hb : contents.flatten <+: b)
    (suffix : List UInt8) :
    (contents ++ [x]).flatten <+: b.take (n * contents.length) ++ x ++ suffix := by
  have hlen := length_flatten hn
  obtain ⟨rest, rfl⟩ := hb
  rw [← hlen, List.take_left, List.flatten_append]
  exact ⟨suffix, by simp⟩

end Values

/-! ## Access to a value -/

variable {h h' : Blocks} {v w : Vector} {contents contents' : List (List UInt8)} {r : Realloc}
  {i n : ℕ} {val : ℕ → UInt8} {o : Option ℕ}

theorem length_valueAt (val : ℕ → UInt8) (n : ℕ) : (valueAt val n).length = n := by
  simp [valueAt]

/-- Where the values are looked for: the product does not wrap. -/
theorem Fits.offset (hv : Fits h v contents) (hi : i < v.capability) :
    mul32 v.valSize i = v.valSize * i ∧
      v.valSize * i + v.valSize ≤ v.capability * v.valSize := by
  obtain ⟨b, -, hroom, hsmall, -⟩ := hv.block
  have hle : v.valSize * (i + 1) ≤ v.capability * v.valSize := by
    rw [Nat.mul_comm v.capability]
    exact Nat.mul_le_mul_left v.valSize hi
  rw [Nat.mul_succ] at hle
  exact ⟨mul32_of_lt (by omega), hle⟩

theorem Fits.exists_buf (hv : Fits h v contents) (hi : i < v.capability) :
    ∃ p, v.buf = some p := by
  cases hbuf : v.buf with
  | none =>
    have hnull := hv.null hbuf
    omega
  | some p => exact ⟨p, rfl⟩

theorem Fits.live {p : ℕ} (hv : Fits h v contents) (hp : v.buf = some p) : h.mem p ≠ none := by
  obtain ⟨b, hb, -⟩ := hv.block
  rw [hp] at hb
  simp [show h.mem p = some b from hb]

/-- **Frame**: the block of another vector is changed. -/
theorem Fits.of_update {o' : Option ℕ} (hv : Fits h v contents) (hu : Update h h' o o')
    (hne : ∀ p, v.buf = some p → o ≠ some p) : Fits h' v contents := by
  obtain ⟨b, hb, hrest⟩ := hv.block
  refine ⟨hv.size, hv.size_le, hv.capability, hv.values, ⟨b, ?_, hrest⟩, hv.null⟩
  cases hbuf : v.buf with
  | none =>
    rw [hbuf] at hb
    exact hb
  | some p =>
    have hsame := hu.same p (hne p hbuf) (hv.live hbuf)
    rw [hbuf] at hb
    exact hsame.trans hb

/-- **`vector_get`** reads within the block. -/
theorem vectorGet_inside (hv : Fits h v contents) (hi : i < v.capability) (val : List UInt8) :
    ∃ x, vectorGet h v i val = .ok x := by
  obtain ⟨hoff, hle⟩ := hv.offset hi
  obtain ⟨b, hb, hroom, -⟩ := hv.block
  obtain ⟨p, hbuf⟩ := hv.exists_buf hi
  rw [vectorGet, if_pos ⟨by simp [hbuf], hi⟩, hoff]
  exact ⟨_, load_eq hb (hle.trans hroom)⟩

/-- Behind the capability nothing is read. -/
theorem vectorGet_returns (hv : Fits h v contents) (i : ℕ) (val : List UInt8) :
    ∃ x, vectorGet h v i val = .ok x := by
  by_cases hi : i < v.capability
  · exact vectorGet_inside hv hi val
  · rw [vectorGet, if_neg (fun h => hi h.2)]
    exact ⟨val, rfl⟩

/-- **`vector_get`** returns the value that the vector is to have. -/
theorem vectorGet_eq (hv : Fits h v contents) (hi : i < contents.length) (val : List UInt8) :
    vectorGet h v i val = .ok contents[i] := by
  have hcap : i < v.capability := (hv.size ▸ hi).trans_le hv.size_le
  obtain ⟨hoff, hle⟩ := hv.offset hcap
  obtain ⟨b, hb, hroom, -, hflat⟩ := hv.block
  obtain ⟨p, hbuf⟩ := hv.exists_buf hcap
  rw [vectorGet, if_pos ⟨by simp [hbuf], hcap⟩, hoff, load_eq hb (hle.trans hroom),
    take_drop_flatten hv.values hflat hi]

/-- **A value is written within the block**, which has other values then. -/
theorem storeValue_fits (hf : h.Fresh) (hv : Fits h v contents) (hi : i < v.capability)
    (hnew : ∀ b, contents.flatten <+: b → contents'.flatten <+:
      b.take (v.valSize * i) ++ valueAt val v.valSize ++ b.drop (v.valSize * i + v.valSize)) :
    ∃ h', storeValue h v i val = .ok h' ∧ Update h h' v.buf v.buf ∧ ∃ b', h'.Holds v.buf b' ∧
      v.capability * v.valSize ≤ b'.length ∧ b'.length < 0x100000000 ∧
      contents'.flatten <+: b' := by
  obtain ⟨hoff, hle⟩ := hv.offset hi
  obtain ⟨b, hb, hroom, hsmall, hflat⟩ := hv.block
  obtain ⟨p, hbuf⟩ := hv.exists_buf hi
  rw [hbuf] at hb
  have hb : h.mem p = some b := hb
  have hlen := length_valueAt val v.valSize
  obtain ⟨h', hstore, hmem, hfresh⟩ :=
    @store_eq h p b (valueAt val v.valSize) (v.valSize * i) hb (by omega)
  rw [hlen] at hmem
  have hlen' : (b.take (v.valSize * i) ++ valueAt val v.valSize ++
      b.drop (v.valSize * i + v.valSize)).length = b.length := by
    simp [hlen]
    omega
  rw [storeValue, hoff, hbuf]
  refine ⟨h', hstore, (Update.refl hf (some p)).write (by simp [hb]) hmem hfresh, _, ?_,
    hroom.trans hlen'.ge, hlen'.trans_lt hsmall, hnew b hflat⟩
  exact (congrFun hmem p).trans (Function.update_self ..)

theorem forall_mem_set {x : List UInt8} (hv : ∀ y ∈ contents, y.length = n) (hx : x.length = n)
    (i : ℕ) : ∀ y ∈ contents.set i x, y.length = n := by
  intro y hy
  rcases List.mem_or_eq_of_mem_set hy with hy | rfl
  · exact hv y hy
  · exact hx

/-- **`vector_set`** replaces a value, or changes none if it writes behind the last one. -/
theorem vectorSet_fits (hf : h.Fresh) (hv : Fits h v contents) (i : ℕ) (val : ℕ → UInt8) :
    ∃ h', vectorSet h v i val = .ok h' ∧ Update h h' v.buf v.buf ∧
      Fits h' v (contents.set i (valueAt val v.valSize)) := by
  by_cases hi : i < v.capability
  · obtain ⟨p, hbuf⟩ := hv.exists_buf hi
    have hnew : ∀ b, contents.flatten <+: b → (contents.set i (valueAt val v.valSize)).flatten <+:
        b.take (v.valSize * i) ++ valueAt val v.valSize ++
          b.drop (v.valSize * i + v.valSize) := fun b hb => by
      rcases lt_or_ge i contents.length with hlt | hge
      · exact flatten_set hv.values hb hlt
      · rw [List.set_eq_of_length_le hge, List.append_assoc]
        exact flatten_beyond hv.values hb hge _
    obtain ⟨h', hstore, hupdate, hblock⟩ := storeValue_fits hf hv hi hnew
    rw [vectorSet, if_pos ⟨by simp [hbuf], hi⟩]
    exact ⟨h', hstore, hupdate, (List.length_set).trans hv.size, hv.size_le, hv.capability,
      forall_mem_set hv.values (length_valueAt val _) i, hblock, hv.null⟩
  · have hge : contents.length ≤ i := (hv.size ▸ hv.size_le).trans (not_lt.mp hi)
    rw [vectorSet, if_neg (fun h => hi h.2), List.set_eq_of_length_le hge]
    exact ⟨h, rfl, .refl hf v.buf, hv⟩

/-! ## Creating and clearing -/

/-- **`vector_create`** leaves as many zeros as it reserves room for. -/
theorem vectorCreate_fits {valSize : ℕ} (hf : h.Fresh) (hword : n < 0x100000000)
    (hsmall : valSize * n < 0x100000000) :
    Update h (vectorCreate h valSize n).1 none (vectorCreate h valSize n).2.buf ∧
      Fits (vectorCreate h valSize n).1 (vectorCreate h valSize n).2
        (List.replicate n (zeroed valSize)) := by
  have hvalues : ∀ x ∈ List.replicate n (zeroed valSize), x.length = valSize := fun x hx => by
    rw [List.eq_of_mem_replicate hx, length_zeroed]
  by_cases hn : n = 0
  · obtain rfl := hn
    rw [vectorCreate, if_neg (by simp)]
    exact ⟨.refl hf none, rfl, le_rfl, hword, hvalues, ⟨[], rfl, by simp, by simp, by simp⟩,
      fun _ => rfl⟩
  · rw [vectorCreate, if_pos hn, mul32_of_lt hsmall]
    refine ⟨.alloc hf _, List.length_replicate, le_rfl, hword, hvalues,
      ⟨_, alloc_mem_self, ?_, ?_, ?_⟩, by simp⟩
    · rw [length_zeroed, Nat.mul_comm]
    · rw [length_zeroed]
      exact hsmall
    · simp [zeroed, List.flatten_replicate_replicate, Nat.mul_comm]

/-- **`vector_clear`** leaves no value. -/
theorem vectorClear_fits (hv : Fits h v contents) : Fits h (vectorClear v) [] := by
  obtain ⟨b, hb, hroom, hsmall, -⟩ := hv.block
  exact ⟨rfl, Nat.zero_le _, hv.capability, by simp, ⟨b, hb, hroom, hsmall, List.nil_prefix⟩,
    hv.null⟩

/-! ## Making room -/

/-- `realloc` does not move a block: it leaves it where it is, or there is none. -/
def Stays (r : Realloc) (v : Vector) : Prop := r.moves = false ∨ v.buf = none

instance (r : Realloc) (v : Vector) : Decidable (Stays r v) := inferInstanceAs (Decidable (_ ∨ _))

/-- A vector whose block has been made larger where it is. -/
theorem grow_fits (hf : h.Fresh) (hv : Fits h v contents) (hr : Stays r v) {capability : ℕ}
    (hcap : v.capability ≤ capability) (hword : capability < 0x100000000)
    (hsmall : capability * v.valSize < 0x100000000) :
    ∃ p h', h.realloc r v.buf (capability * v.valSize) = .ok (p, h') ∧
      (v.buf = some p ∨ v.buf = none) ∧ Update h h' v.buf (some p) ∧
      Fits h' { v with capability := capability, buf := some p } contents := by
  obtain ⟨b, hb, hroom, -, hflat⟩ := hv.block
  obtain ⟨p, h', hrealloc, hp, hupdate, hptr⟩ :=
    realloc_stays hf hb hr (capability * v.valSize)
  refine ⟨p, h', hrealloc, hptr, hupdate, hv.size, hv.size_le.trans hcap, hword, hv.values,
    ⟨_, hp, ?_, ?_, prefix_resized r.junk hflat ?_⟩, by simp⟩
  · simp
  · simpa using hsmall
  · rw [length_flatten hv.values, hv.size, Nat.mul_comm]
    exact Nat.mul_le_mul_right v.valSize (hv.size_le.trans hcap)

/-- What follows a `realloc` that has not moved a block: nothing is copied and nothing is freed. -/
theorem moveOld_eq {p : ℕ} (hptr : o = some p ∨ o = none) (hzero : o = none → n = 0) :
    moveOld h p o n = .ok h := by
  rcases hptr with rfl | rfl
  · simp [moveOld]
  · simp [moveOld, hzero, memcpy_zero, free]

theorem freeOld_eq {p : ℕ} (hptr : o = some p ∨ o = none) : freeOld h p o = .ok h := by
  rcases hptr with rfl | rfl
  · simp [freeOld]
  · simp [freeOld, free]

/-- **`vector_reserve`** keeps the values that the new capability has room for. -/
theorem vectorReserve_fits (hf : h.Fresh) (hv : Fits h v contents) (hword : n < 0x100000000)
    (hsmall : v.capability ≤ n → n * v.valSize < 0x100000000)
    (hr : v.capability ≤ n → Stays r v) :
    ∃ h' w, vectorReserve h r v n = .ok (h', w) ∧ Update h h' v.buf w.buf ∧
      Fits h' w (contents.take n) := by
  by_cases hn : v.capability > n
  · obtain ⟨b, hb, hroom, hb32, hflat⟩ := hv.block
    have hsize := hv.size
    have hlen : (contents.take n).length = if v.size > n then n else v.size := by
      rw [List.length_take]
      split <;> omega
    rw [vectorReserve, if_pos hn]
    refine ⟨h, _, rfl, .refl hf v.buf, hlen, ?_, hword,
      fun x hx => hv.values x (List.mem_of_mem_take hx), ⟨b, hb, ?_, hb32, ?_⟩, fun hnull => ?_⟩
    · change (if v.size > n then n else v.size) ≤ n
      split <;> omega
    · exact (Nat.mul_le_mul_right v.valSize hn.le).trans hroom
    · exact (prefix_flatten (List.take_prefix n contents)).trans hflat
    · have hzero := hv.null hnull
      omega
  · have hle := not_lt.mp hn
    obtain ⟨p, h', hrealloc, hptr, hupdate, hfits⟩ :=
      grow_fits hf hv (hr hle) hle hword (hsmall hle)
    have hnew : mul32 v.valSize n = n * v.valSize := by
      rw [mul32, Nat.mul_comm, Nat.mod_eq_of_lt (hsmall hle)]
    have hzero : v.buf = none → mul32 v.valSize v.size = 0 := fun hbuf => by
      have hcap := hv.null hbuf
      have hsize := hv.size_le
      rw [show v.size = 0 by omega]
      rfl
    have htake : contents.take n = contents :=
      List.take_of_length_le (hv.size.le.trans (hv.size_le.trans hle))
    rw [vectorReserve, if_neg hn, hnew, htake]
    refine ⟨h', _, ?_, hupdate, hfits⟩
    simp only [hrealloc, Exec.ok_bind, moveOld_eq hptr hzero, Exec.pure_eq]

/-- The capability that `vector_push_back` doubles to. -/
def doubled (v : Vector) : ℕ := if v.capability > 0 then 2 * v.capability else 32

/-- A full vector grows. -/
theorem vectorGrow_fits (hf : h.Fresh) (hv : Fits h v contents)
    (hsmall : v.size = v.capability →
      doubled v < 0x100000000 ∧ doubled v * v.valSize < 0x100000000)
    (hr : v.size = v.capability → Stays r v) :
    ∃ h' w, vectorGrow h r v = .ok (h', w) ∧ Update h h' v.buf w.buf ∧ Fits h' w contents ∧
      w.size < w.capability ∧ w.valSize = v.valSize := by
  by_cases hfull : v.size = v.capability
  · obtain ⟨hword, hbytes⟩ := hsmall hfull
    have hle : v.capability < doubled v := by
      rw [doubled]
      split <;> omega
    have hcap : (if v.capability > 0 then mul32 2 v.capability else 32) = doubled v := by
      rw [doubled] at hword ⊢
      split
      · rename_i hpos
        rw [if_pos hpos] at hword
        exact mul32_of_lt hword
      · rfl
    obtain ⟨p, h', hrealloc, hptr, hupdate, hfits⟩ :=
      grow_fits hf hv (hr hfull) hle.le hword hbytes
    have hzero : v.buf = none → mul32 v.valSize v.capability = 0 := fun hbuf => by
      rw [hv.null hbuf]
      rfl
    rw [vectorGrow, if_pos hfull, hcap]
    refine ⟨h', _, ?_, hupdate, hfits, hfull ▸ hle, rfl⟩
    simp only [mul32_of_lt hbytes, hrealloc, Exec.ok_bind, moveOld_eq hptr hzero, Exec.pure_eq]
  · rw [vectorGrow, if_neg hfull]
    exact ⟨h, v, rfl, .refl hf v.buf, hv, lt_of_le_of_ne hv.size_le hfull, rfl⟩

/-- **`vector_push_back`** appends a value. -/
theorem vectorPushBack_fits (hf : h.Fresh) (hv : Fits h v contents)
    (hsmall : v.size = v.capability →
      doubled v < 0x100000000 ∧ doubled v * v.valSize < 0x100000000)
    (hr : v.size = v.capability → Stays r v) (val : ℕ → UInt8) :
    ∃ h' w, vectorPushBack h r v val = .ok (h', w) ∧ Update h h' v.buf w.buf ∧
      Fits h' w (contents ++ [valueAt val v.valSize]) := by
  obtain ⟨h₁, u, hgrow, hupdate, hu, hroom, hval⟩ := vectorGrow_fits hf hv hsmall hr
  have hnew : ∀ b, contents.flatten <+: b → (contents ++ [valueAt val v.valSize]).flatten <+:
      b.take (u.valSize * u.size) ++ valueAt val u.valSize ++
        b.drop (u.valSize * u.size + u.valSize) := fun b hb => by
    rw [← hu.size, ← hval]
    exact flatten_push hu.values hb _
  obtain ⟨h₂, hstore, hupdate', hblock⟩ := storeValue_fits hupdate.fresh hu hroom hnew
  have hcap := hu.capability
  have hsize : add32 u.size 1 = u.size + 1 := add32_of_lt (by omega)
  refine ⟨h₂, { u with size := add32 u.size 1 }, ?_, ?_, ?_, ?_, hcap, ?_, hblock, hu.null⟩
  · rw [vectorPushBack, hgrow, Exec.ok_bind, hstore]
    rfl
  · exact hupdate.trans hupdate'
  · simp [hsize, hu.size]
  · exact hsize.trans_le (Nat.succ_le_of_lt hroom)
  · intro x hx
    rcases List.mem_append.mp hx with hx | hx
    · exact hu.values x hx
    · rw [List.mem_singleton.mp hx, length_valueAt]
      exact hval.symm

/-! ## Copying -/

/-- The values of one vector in the block of another, which has room for them. -/
theorem memcpy_fits {u : Vector} {d s : List (List UInt8)} (hf : h.Fresh) (hw : Fits h w d)
    (hu : Fits h u s) (hval : w.valSize = u.valSize) (hroom : u.size ≤ w.capability) :
    ∃ h', h.memcpy w.buf u.buf (mul32 u.size u.valSize) = .ok h' ∧ Update h h' w.buf w.buf ∧
      Fits h' { w with size := u.size } s := by
  obtain ⟨b, hb, hcap, hsmall, -⟩ := hw.block
  obtain ⟨c, hc, hcap', hsmall', hflat⟩ := hu.block
  have hlen := length_flatten hu.values
  rw [hu.size, Nat.mul_comm] at hlen
  have hle : u.size * u.valSize ≤ b.length :=
    (Nat.mul_le_mul_right u.valSize hroom).trans (hval ▸ hcap)
  have hle' : u.size * u.valSize ≤ c.length :=
    (Nat.mul_le_mul_right u.valSize hu.size_le).trans hcap'
  obtain ⟨h', hcopy, hb', hupdate⟩ := memcpy_update hf hb hc hle hle'
  have hlen' : (c.take (u.size * u.valSize) ++ b.drop (u.size * u.valSize)).length = b.length := by
    simp
    omega
  rw [mul32_of_lt (by omega)]
  refine ⟨h', hcopy, hupdate, hu.size, hroom, hw.capability, fun x hx => ?_,
    ⟨_, hb', hcap.trans hlen'.ge, hlen'.trans_lt hsmall, ?_⟩, hw.null⟩
  · exact (hu.values x hx).trans hval.symm
  · exact (List.prefix_take_iff.mpr ⟨hflat, hlen.le⟩).trans (List.prefix_append _ _)

/-- **`vector_copy_create`** makes a vector with the same values. -/
theorem vectorCopyCreate_fits (hf : h.Fresh) (hv : Fits h v contents) :
    ∃ h' w, vectorCopyCreate h v = .ok (h', w) ∧ Update h h' none w.buf ∧ Fits h' w contents := by
  by_cases hbuf : v.buf = none
  · have hcap := hv.null hbuf
    have hle := hv.size_le
    obtain rfl : contents = [] := List.eq_nil_of_length_eq_zero (by rw [hv.size]; omega)
    obtain ⟨hupdate, hfits⟩ :=
      @vectorCreate_fits h 0 v.valSize hf (by decide) (by simp)
    rw [vectorCopyCreate, if_pos hbuf]
    exact ⟨_, _, rfl, hupdate, hfits⟩
  · obtain ⟨b, hb, hroom, hsmall, hflat⟩ := hv.block
    have hcap : v.capability * v.valSize < 0x100000000 := hroom.trans_lt hsmall
    let h₁ := (h.alloc (zeroed (v.capability * v.valSize))).2
    have hupdate : Update h h₁ none (some h.fresh) := .alloc hf _
    have hv₁ : Fits h₁ v contents := hv.of_update hupdate (by simp)
    have hnew : Fits h₁ { v with size := 0, buf := some h.fresh } [] :=
      ⟨rfl, Nat.zero_le _, hv.capability, by simp,
        ⟨_, alloc_mem_self, by simp, by simpa using hcap, List.nil_prefix⟩, by simp⟩
    obtain ⟨h₂, hcopy, hupdate', hfits⟩ :=
      memcpy_fits hupdate.fresh hnew hv₁ rfl hv.size_le
    refine ⟨h₂, ⟨v.size, v.capability, v.valSize, some h.fresh⟩, ?_, hupdate.trans hupdate', hfits⟩
    have hbytes : mul32 v.valSize v.size = mul32 v.size v.valSize := by
      rw [mul32, mul32, Nat.mul_comm]
    have hcopy : (h.alloc (zeroed (v.capability * v.valSize))).2.memcpy (some h.fresh) v.buf
        (mul32 v.size v.valSize) = .ok h₂ := hcopy
    rw [vectorCopyCreate, if_neg hbuf, mul32_of_lt hcap, hbytes]
    simp only [alloc] at hcopy ⊢
    simp only [hcopy, Exec.ok_bind, Exec.pure_eq]

/-- The vector that `vector_copy` copies from has a block, and its values have the same size. -/
def Copies (v u : Vector) : Prop := u.buf ≠ none ∧ v.valSize = u.valSize

instance (v u : Vector) : Decidable (Copies v u) := inferInstanceAs (Decidable (_ ∧ _))

/-- **`vector_copy`** replaces the values by those of the other vector. -/
theorem vectorCopy_fits {u : Vector} (hf : h.Fresh) (hv : Fits h v contents)
    (hu : Fits h u contents')
    (hne : v.capability < u.capability → ∀ p, u.buf = some p → v.buf ≠ some p)
    (hr : Copies v u → v.capability < u.capability → Stays r v) :
    ∃ h' w, vectorCopy h r v u = .ok (h', w) ∧ Update h h' v.buf w.buf ∧
      Fits h' w (if Copies v u then contents' else contents) := by
  by_cases hcopies : Copies v u
  · have hskip : ¬ (u.buf = none ∨ v.valSize ≠ u.valSize) := by
      simpa [Copies] using hcopies
    have hval := hcopies.2
    rw [if_pos hcopies]
    by_cases hgrow : v.capability < u.capability
    · obtain ⟨b, hb, hroom, hsmall, -⟩ := hu.block
      have hcap : u.capability * v.valSize < 0x100000000 := hval ▸ hroom.trans_lt hsmall
      obtain ⟨p, h₁, hrealloc, hptr, hupdate, hfits⟩ :=
        grow_fits hf hv (hr hcopies hgrow) hgrow.le hu.capability hcap
      have hu₁ : Fits h₁ u contents' := hu.of_update hupdate (hne hgrow)
      obtain ⟨h₂, hcopy, hupdate', hfits'⟩ :=
        memcpy_fits hupdate.fresh hfits hu₁ hval hu.size_le
      refine ⟨h₂, ⟨u.size, u.capability, v.valSize, some p⟩, ?_, hupdate.trans hupdate', hfits'⟩
      rw [← hval] at hcopy
      rw [vectorCopy, if_neg hskip, if_pos hgrow, ← hval, mul32_of_lt hcap]
      simp only [hrealloc, Exec.ok_bind, freeOld_eq hptr, hcopy, Exec.pure_eq]
    · obtain ⟨h', hcopy, hupdate, hfits⟩ :=
        memcpy_fits hf hv hu hval (hu.size_le.trans (not_lt.mp hgrow))
      rw [vectorCopy, if_neg hskip, if_neg hgrow, hcopy]
      exact ⟨h', _, rfl, hupdate, hfits⟩
  · have hskip : u.buf = none ∨ v.valSize ≠ u.valSize := by
      rw [Copies, not_and_or, not_not] at hcopies
      exact hcopies
    rw [vectorCopy, if_pos hskip, if_neg hcopies]
    exact ⟨h, v, rfl, .refl hf v.buf, hv⟩

/-! ## A block that moves -/

/-- **Where `realloc` has moved the block, its old place is accessed.** -/
theorem moves_freed (hf : h.Fresh) (hv : Fits h v contents) (hr : ¬ Stays r v) (m : ℕ) :
    ∃ q h', h.realloc r v.buf m = .ok (q, h') ∧ freeOld h' q v.buf = .error .freed ∧
      ∀ n, moveOld h' q v.buf n = .error .freed := by
  rw [Stays, not_or] at hr
  obtain ⟨hmoves, hbuf⟩ := hr
  have hmoves : r.moves = true := by simpa using hmoves
  obtain ⟨b, hb, -⟩ := hv.block
  cases hp : v.buf with
  | none => exact absurd hp hbuf
  | some p =>
    rw [hp] at hb
    obtain ⟨q, h', hrealloc, hgone, hne⟩ := realloc_moves hf hb hmoves m
    have hfree : h'.free (some p) = .error .freed := by rw [free, get_freed hgone, Exec.error_bind]
    have hptr : some q ≠ some p := fun h => hne (Option.some.inj h)
    refine ⟨q, h', hrealloc, ?_, fun n => ?_⟩
    · rw [freeOld, if_pos hptr, hfree]
    · rw [moveOld, if_pos hptr]
      by_cases hn : n = 0
      · rw [hn, memcpy_zero, Exec.ok_bind, hfree]
      · simp [memcpy, load, hn, get_freed hgone]

theorem vectorReserve_freed (hf : h.Fresh) (hv : Fits h v contents) (hn : v.capability ≤ n)
    (hr : ¬ Stays r v) : vectorReserve h r v n = .error .freed := by
  obtain ⟨q, h', hrealloc, -, hmove⟩ := moves_freed hf hv hr (mul32 v.valSize n)
  rw [vectorReserve, if_neg (not_lt.mpr hn)]
  simp only [hrealloc, Exec.ok_bind, hmove, Exec.error_bind]

theorem vectorPushBack_freed (hf : h.Fresh) (hv : Fits h v contents)
    (hfull : v.size = v.capability) (hr : ¬ Stays r v) :
    vectorPushBack h r v val = .error .freed := by
  obtain ⟨q, h', hrealloc, -, hmove⟩ := moves_freed hf hv hr
    (mul32 (if v.capability > 0 then mul32 2 v.capability else 32) v.valSize)
  rw [vectorPushBack, vectorGrow, if_pos hfull]
  simp only [hrealloc, Exec.ok_bind, hmove, Exec.error_bind]

theorem vectorCopy_freed {u : Vector} (hf : h.Fresh) (hv : Fits h v contents) (hu : Copies v u)
    (hgrow : v.capability < u.capability) (hr : ¬ Stays r v) :
    vectorCopy h r v u = .error .freed := by
  have hskip : ¬ (u.buf = none ∨ v.valSize ≠ u.valSize) := by simpa [Copies] using hu
  obtain ⟨q, h', hrealloc, hfree, -⟩ := moves_freed hf hv hr (mul32 u.capability u.valSize)
  rw [vectorCopy, if_neg hskip, if_pos hgrow]
  simp only [hrealloc, Exec.ok_bind, hfree, Exec.error_bind]

end Kendylib.Vectors
