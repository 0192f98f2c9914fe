import Kendylib.Foundations.Run
import Kendylib.Foundations.Word

/-!
# The local pool

The allocator of `src/local_pool.c` hands out one buffer from the front. `local_pool_alloc` sets
`alloc_size` only for a size that is not positive; otherwise it takes what the variable happens to
hold, rounded up (`garbage`).

* `Kept` is what is asked of a pool: the ranges that have been handed out are large enough, apart
  from each other and in the buffer, and a request is refused exactly if it does not fit.
* `kept_iff_meets`: it holds in a run exactly if every request of a positive size finds a value that
  does for it.
-/

namespace Kendylib

/-- A `struct local_pool`. -/
structure LocalPool where
  freeSize : ℕ
  freeBufInDestroy : Bool
  bufPtr : ℕ
  freePtr : ℕ

namespace LocalPool

/-- `local_pool_create`. `lp` tells whether the allocation of the structure succeeds, and `alloc` is
what the allocation of the buffer returns. -/
def localPoolCreate (buf : Option ℕ) (size : ℕ) (lp : Bool) (alloc : Option ℕ) : Option LocalPool :=
  if lp then
    match buf with
    | some buf => some ⟨size, true, buf, buf⟩
    | none => alloc.map fun buf => ⟨size, false, buf, buf⟩
  else none

/-- `alignsize`. -/
def alignsize (objSize : ℕ) : ℕ :=
  if objSize % 4 > 0 then add32 (mul32 (objSize / 4) 4) 4 else objSize

/-- `local_pool_alloc`; `garbage` is what `alloc_size` holds before it is set. -/
def localPoolAlloc (lp : LocalPool) (size : ℤ) (garbage : ℕ) : Option ℕ × LocalPool :=
  let allocSize := if size ≤ 0 then 1 else garbage
  let allocSize := alignsize allocSize
  if lp.freeSize < allocSize then (none, lp)
  else (some lp.freePtr,
    { lp with freeSize := lp.freeSize - allocSize, freePtr := lp.freePtr + allocSize })

/-! ## Runs -/

/-- A call of `local_pool_alloc`. -/
structure Call where
  size : ℤ
  garbage : ℕ

/-- A request, with the pool before and after it and what it returned. -/
structure Request where
  size : ℤ
  before : LocalPool
  after : LocalPool
  ret : Option ℕ

/-- The number of bytes that the pool gave away. -/
def Request.taken (r : Request) : ℕ := r.after.freePtr - r.before.freePtr

/-- A pool and the requests so far. -/
structure Session where
  pool : LocalPool
  log : List Request

def step (s : Session) (c : Call) : Exec Session :=
  let r := localPoolAlloc s.pool c.size c.garbage
  .ok ⟨r.2, s.log ++ [⟨c.size, s.pool, r.2, r.1⟩]⟩

/-- The number of bytes asked for, at least one. -/
def wanted (size : ℤ) : ℕ := (max size 1).toNat

/-- The number of bytes asked for, rounded up to a multiple of 4. -/
def rounded (size : ℤ) : ℕ := (wanted size + 3) / 4 * 4

/-- What is asked of a pool with `size` bytes from `buf` on: the ranges handed out are apart, have
the bytes asked for and are in the buffer; the free bytes are those after `free_ptr`; and a request
is refused, and changes nothing, exactly if its size rounded up exceeds the free bytes. -/
structure Kept (buf size : ℕ) (s : Session) : Prop where
  apart : s.log.Pairwise fun r r' => ∀ p ∈ r.ret, ∀ p' ∈ r'.ret,
    p + r.taken ≤ p' ∨ p' + r'.taken ≤ p
  enough : ∀ r ∈ s.log, ∀ p ∈ r.ret, wanted r.size ≤ r.taken
  inside : ∀ r ∈ s.log, ∀ p ∈ r.ret, buf ≤ p ∧ p + r.taken ≤ buf + size
  balance : s.pool.bufPtr = buf ∧ buf ≤ s.pool.freePtr ∧
    s.pool.freePtr - buf + s.pool.freeSize = size
  refused : ∀ r ∈ s.log,
    (r.ret = none ∧ r.after = r.before) ↔ r.before.freeSize < rounded r.size

/-- A request finds a value in `alloc_size` that does: either both that value and the size exceed
the free bytes, or the value is in between. A size that is not positive needs none. -/
def Meets (s : Session) (c : Call) : Prop :=
  c.size ≤ 0 ∨ if s.pool.freeSize < alignsize c.garbage then s.pool.freeSize < rounded c.size
    else wanted c.size ≤ alignsize c.garbage

instance (s : Session) (c : Call) : Decidable (Meets s c) := inferInstanceAs (Decidable (_ ∨ _))

variable {s s' : Session} {c : Call} {buf size : ℕ} {lp : LocalPool}

theorem alignsize_dvd (n : ℕ) : 4 ∣ alignsize n := by
  unfold alignsize add32 mul32
  split <;> omega

/-- The request that a call makes. -/
def made (s : Session) (c : Call) : Request :=
  let r := localPoolAlloc s.pool c.size c.garbage
  ⟨c.size, s.pool, r.2, r.1⟩

theorem step_eq (s : Session) (c : Call) :
    step s c = .ok ⟨(made s c).after, s.log ++ [made s c]⟩ := rfl

/-- The bytes that a call takes if there are as many. -/
def amount (c : Call) : ℕ := alignsize (if c.size ≤ 0 then 1 else c.garbage)

/-- The pool after it has given bytes away. -/
def give (lp : LocalPool) (n : ℕ) : LocalPool :=
  { lp with freeSize := lp.freeSize - n, freePtr := lp.freePtr + n }

/-- **A request** is refused, or takes bytes from the front of the free ones. -/
theorem made_cases (s : Session) (c : Call) :
    (s.pool.freeSize < amount c ∧ made s c = ⟨c.size, s.pool, s.pool, none⟩) ∨
      amount c ≤ s.pool.freeSize ∧
        made s c = ⟨c.size, s.pool, s.pool.give (amount c), some s.pool.freePtr⟩ := by
  by_cases hfit : s.pool.freeSize < amount c
  · refine .inl ⟨hfit, ?_⟩
    rw [made, localPoolAlloc, ← amount, if_pos hfit]
  · refine .inr ⟨Nat.le_of_not_lt hfit, ?_⟩
    rw [made, localPoolAlloc, ← amount, if_neg hfit, give]

/-- A size that is not positive counts as one byte, rounded up to four. -/
theorem amount_of_nonpos (h : c.size ≤ 0) : amount c = 4 ∧ wanted c.size = 1 := by
  constructor
  · rw [amount, if_pos h]
    rfl
  · unfold wanted
    omega

/-- A request that meets the condition has the bytes asked for, and is refused if it has to be. -/
theorem Meets.amount (h : Meets s c) :
    (s.pool.freeSize < amount c ↔ s.pool.freeSize < rounded c.size) ∧
      (amount c ≤ s.pool.freeSize → wanted c.size ≤ amount c) := by
  by_cases hneg : c.size ≤ 0
  · obtain ⟨hfour, hone⟩ := amount_of_nonpos hneg
    rw [hfour, rounded, hone]
    omega
  · obtain ⟨k, hk⟩ := alignsize_dvd c.garbage
    have hpos := h.resolve_left hneg
    rw [LocalPool.amount, if_neg hneg]
    unfold rounded at hpos ⊢
    split at hpos <;> omega

/-! ## The invariant -/

/-- What a run keeps: besides, the bytes handed out are before the free ones. -/
structure Inv (buf size : ℕ) (s : Session) : Prop extends Kept buf size s where
  before : ∀ r ∈ s.log, ∀ p ∈ r.ret, p + r.taken ≤ s.pool.freePtr

theorem inv_create {b : Option ℕ} {ok : Bool} {alloc : Option ℕ}
    (h : localPoolCreate b size ok alloc = some lp) : Inv lp.bufPtr size ⟨lp, []⟩ := by
  have hfresh : lp.freePtr = lp.bufPtr ∧ lp.freeSize = size := by
    unfold localPoolCreate at h
    split at h
    · split at h
      · obtain rfl := Option.some.inj h
        exact ⟨rfl, rfl⟩
      · obtain ⟨buf, -, rfl⟩ := Option.map_eq_some_iff.mp h
        exact ⟨rfl, rfl⟩
    · cases h
  refine ⟨⟨.nil, nofun, nofun, ⟨rfl, hfresh.1.ge, ?_⟩, nofun⟩, nofun⟩
  rw [hfresh.1, hfresh.2, Nat.sub_self, Nat.zero_add]

/-- What holds of the requests so far and of the new one holds of all. -/
theorem forall_log {log : List Request} {r : Request} {P : Request → Prop}
    (hlog : ∀ x ∈ log, P x) (hr : P r) : ∀ x ∈ log ++ [r], P x :=
  List.forall_mem_append.mpr ⟨hlog, List.forall_mem_singleton.mpr hr⟩

/-- A request is refused that has to be. -/
theorem Inv.refuse (I : Inv buf size s) (hfew : s.pool.freeSize < rounded c.size) :
    Inv buf size ⟨s.pool, s.log ++ [⟨c.size, s.pool, s.pool, none⟩]⟩ where
  apart := List.pairwise_append.mpr
    ⟨I.apart, List.pairwise_singleton .., fun _ _ => List.forall_mem_singleton.mpr fun _ _ => nofun⟩
  enough := forall_log I.enough nofun
  inside := forall_log I.inside nofun
  balance := I.balance
  refused := forall_log I.refused (iff_of_true ⟨rfl, rfl⟩ hfew)
  before := forall_log I.before nofun

/-- A request gets bytes from the front of the free ones, as many as it asks for. -/
theorem Inv.serve (I : Inv buf size s) {n : ℕ} (hfit : n ≤ s.pool.freeSize)
    (hwanted : wanted c.size ≤ n) (hrounded : rounded c.size ≤ s.pool.freeSize) :
    Inv buf size ⟨s.pool.give n,
      s.log ++ [⟨c.size, s.pool, s.pool.give n, some s.pool.freePtr⟩]⟩ := by
  obtain ⟨hbuf, hle, hsum⟩ := I.balance
  have htaken : ∀ ret, Request.taken ⟨c.size, s.pool, s.pool.give n, ret⟩ = n :=
    fun _ => Nat.add_sub_cancel_left ..
  constructor
  · constructor
    · refine List.pairwise_append.mpr ⟨I.apart, List.pairwise_singleton .., fun r hr => ?_⟩
      refine List.forall_mem_singleton.mpr fun p hp p' hp' => ?_
      obtain rfl := Option.some.inj hp'
      exact .inl (I.before r hr p hp)
    · refine forall_log I.enough fun p _ => ?_
      rwa [htaken]
    · refine forall_log I.inside fun p hp => ?_
      obtain rfl := Option.some.inj hp
      rw [htaken]
      exact ⟨hle, by omega⟩
    · exact ⟨hbuf, hle.trans (Nat.le_add_right ..), by dsimp only [give]; omega⟩
    · refine forall_log I.refused (iff_of_false (fun h => nomatch h.1) ?_)
      exact Nat.not_lt.mpr hrounded
  · refine forall_log (fun r hr p hp => ?_) fun p hp => ?_
    · exact (I.before r hr p hp).trans (Nat.le_add_right ..)
    · obtain rfl := Option.some.inj hp
      rw [htaken, give]

/-- **A request that meets the condition** keeps the invariant. -/
theorem Inv.request (I : Inv buf size s) (h : Meets s c) :
    Inv buf size ⟨(made s c).after, s.log ++ [made s c]⟩ := by
  obtain ⟨hrefuse, henough⟩ := h.amount
  rcases made_cases s c with ⟨hfew, hmade⟩ | ⟨hfit, hmade⟩
  · rw [hmade]
    exact I.refuse (hrefuse.mp hfew)
  · rw [hmade]
    exact I.serve hfit (henough hfit) (Nat.not_lt.mp (mt hrefuse.mpr hfit.not_gt))

/-- **A request that does not meet the condition** is refused though it fits, or gets too little. -/
theorem not_kept_of_not_meets (h : ¬ Meets s c) :
    ¬ Kept buf size ⟨(made s c).after, s.log ++ [made s c]⟩ := by
  intro K
  have hmem : made s c ∈ s.log ++ [made s c] := by simp
  have henough := K.enough _ hmem
  have hrefused := K.refused _ hmem
  have hpos : ¬ c.size ≤ 0 := fun hneg => h (.inl hneg)
  have hamount : amount c = alignsize c.garbage := by rw [amount, if_neg hpos]
  have hcond := fun hc => h (.inr hc)
  rcases made_cases s c with ⟨hfew, hmade⟩ | ⟨hfit, hmade⟩
  · rw [hmade] at hrefused
    rw [if_pos (hamount ▸ hfew)] at hcond
    exact hcond (hrefused.mp ⟨rfl, rfl⟩)
  · rw [hmade] at henough
    rw [if_neg (hamount ▸ Nat.not_lt.mpr hfit)] at hcond
    refine hcond ((henough _ rfl).trans_eq ?_)
    rw [← hamount]
    exact Nat.add_sub_cancel_left ..

/-- **The pool does as it should in a run exactly if** every request of a positive size finds a
value in the variable that does for it. -/
theorem kept_iff_meets {b : Option ℕ} {ok : Bool} {alloc : Option ℕ}
    (h : localPoolCreate b size ok alloc = some lp) (calls : List Call) :
    Exec.Always step (Kept lp.bufPtr size) ⟨lp, []⟩ calls ↔
      Exec.EachStep step Meets ⟨lp, []⟩ calls := by
  refine Exec.always_iff_eachStep (I := Inv lp.bufPtr size) (A := fun _ _ => True)
    (fun s I => I.toKept) (fun s c s' I _ hs hc => ?_) (fun s c s' I _ hs hc => ?_) (inv_create h)
    (Exec.eachStep_of_forall fun _ _ _ => trivial)
  · rw [step_eq] at hs
    obtain rfl := Except.ok.inj hs
    exact I.request hc
  · rw [step_eq] at hs
    obtain rfl := Except.ok.inj hs
    exact not_kept_of_not_meets hc

/-- The variable happens to hold the sizes. -/
theorem kept_two_requests :
    localPoolCreate (some 1000) 16 true none = some ⟨16, true, 1000, 1000⟩ ∧
      Exec.Always step (Kept 1000 16) ⟨⟨16, true, 1000, 1000⟩, []⟩
        [⟨7, 7⟩, ⟨-1, 90⟩, ⟨8, 8⟩] := by
  have h : localPoolCreate (some 1000) 16 true none = some ⟨16, true, 1000, 1000⟩ := rfl
  exact ⟨h, (kept_iff_meets h _).mpr (by decide)⟩

/-- The variable holds 4 when 8 bytes are asked for: the second request gets bytes of the first. -/
theorem not_kept_overlapping :
    localPoolCreate (some 1000) 16 true none = some ⟨16, true, 1000, 1000⟩ ∧
      ¬ Exec.Always step (Kept 1000 16) ⟨⟨16, true, 1000, 1000⟩, []⟩ [⟨8, 4⟩, ⟨8, 4⟩] := by
  refine ⟨rfl, fun h => ?_⟩
  have hwant := h.2.2.head.enough ⟨8, ⟨16, true, 1000, 1000⟩, ⟨12, true, 1000, 1004⟩, some 1000⟩
    (by simp [localPoolAlloc, alignsize]) 1000 rfl
  exact absurd hwant (by decide)

end LocalPool

end Kendylib
