import Kendylib.Container.HashMap
import Kendylib.Foundations.Run

/-!
# Thread-local data

The thread-local data of `src/tls.c`: a key of the threads library, under which each thread is to
have a hash map of its own. `init_tls` tests `is_init` and then swaps it, which are two steps of the
thread that calls it; `get_tls_data` and `set_tls_data` touch nothing that another thread changes but
the word `thread_key`, which they read once, and are one step each.

The hash function is the parameter `hash`, and `pointee` is what a pointer leads to. The mutex and
the list that `init_tls` makes are read by `clear_tls` only and are left out with it.

- `step`: a step of a thread; a key holds a null pointer for every thread until one is set.
- `right_iff_nothingSet`: in every run, with any number of threads, `get_tls_data` answers with the
  data that the thread has set last for the key exactly if that is null, or nothing has been set. No
  thread ever sets a pointer under the key, so that each call makes a map of its own and loses it.
-/

namespace Kendylib

/-- A `void *`; a null pointer is `0`. -/
abbrev Data := ℕ

namespace Tls

/-- The place of a thread. -/
inductive Pc
  /-- Not in `init_tls`. -/
  | out
  /-- At the compare-and-swap. -/
  | swap
  /-- At the calls that make the key. -/
  | create
  deriving DecidableEq

/-- What a thread that is not in `init_tls` calls next; `malloc` tells whether a new map gets its
memory, and `calloc` whether a larger table does. -/
inductive Call
  | init
  | get (key : Int32) (malloc : Bool)
  | set (key : Int32) (data : Data) (malloc calloc : Bool)

/-- What a step has completed. -/
inductive Done
  | nothing
  | got (key : Int32) (data : Data)
  | set (key : Int32) (data : Data)

end Tls

/-- The variables of `src/tls.c`, the pointers kept under the keys, the maps in memory, and the
threads. Keys and addresses from `freshKey` and `freshMap` on have not been given out. -/
structure Tls (T : Type) where
  isInit : ℤ
  threadKey : ℕ
  specific : ℕ → T → Option ℕ
  freshKey : ℕ
  map : ℕ → Option (HashMap Int32 Data)
  freshMap : ℕ
  pc : T → Tls.Pc

namespace Tls

section Code

variable {T : Type} (hash : Int32 → UInt64) (pointee : Data → Exec Data)

/-- The variables before any call. -/
def start : Tls T where
  isInit := 0
  threadKey := 0
  specific _ _ := none
  freshKey := 1
  map _ := none
  freshMap := 0
  pc _ := .out

def goto [DecidableEq T] (s : Tls T) (t : T) (p : Pc) : Tls T :=
  { s with pc := Function.update s.pc t p }

/-- `COMPARE_AND_SWAP`: the value before, and the value after. -/
def compareAndSwap (v old new : ℤ) : ℤ × ℤ := (v, if v = old then new else v)

/-- `pthread_key_create`. -/
def pthreadKeyCreate (s : Tls T) : Tls T :=
  { s with
    threadKey := s.freshKey
    specific := Function.update s.specific s.freshKey fun _ => none
    freshKey := s.freshKey + 1 }

/-- `tls_hash_key_eq`: not zero for equal keys. -/
def tlsHashKeyEq (a b : Int32) : Int := if a = b then 1 else 0

/-- `hash_map_create` for thread-local data. -/
def hashMapCreate (s : Tls T) (malloc : Bool) : Option ℕ × Tls T :=
  if malloc then
    (some s.freshMap, { s with
      map := Function.update s.map s.freshMap (some (HashMap.hashMapCreate 128))
      freshMap := s.freshMap + 1 })
  else (none, s)

/-- A map that is used. -/
def mapAt (s : Tls T) (h : ℕ) : Exec (HashMap Int32 Data) :=
  match s.map h with
  | some m => .ok m
  | none => .error .freed

def putMap (s : Tls T) (h : ℕ) (m : HashMap Int32 Data) : Tls T :=
  { s with map := Function.update s.map h (some m) }

/-- `get_tls_data`. -/
def getTlsData (s : Tls T) (t : T) (key : Int32) (malloc : Bool) : Exec (Data × Tls T) :=
  match s.specific s.threadKey t with
  | none => .ok (0, (s.hashMapCreate malloc).2)
  | some h => do
    let m ← s.mapAt h
    let it ← HashMap.hashMapFind hash tlsHashKeyEq m key
    -- the test is for an invalid iterator, which has no value
    if it = none then return (← HashMap.hashMapIterGetVal m it, s) else return (0, s)

/-- `set_tls_data`. -/
def setTlsData (s : Tls T) (t : T) (key : Int32) (data : Data) (malloc calloc : Bool) :
    Exec (Tls T) := do
  let (h, s) := match s.specific s.threadKey t with
    | none => s.hashMapCreate malloc
    | some h => (some h, s)
  let h ← Exec.deref h
  let m ← s.mapAt h
  let it ← HashMap.hashMapFind hash tlsHashKeyEq m key
  if it = none then
    let (_, m) ← HashMap.hashMapInsert hash tlsHashKeyEq m key data calloc
    return s.putMap h m
  else
    -- `hash_map_iter_set_val` copies what `data` points to
    return s.putMap h (← HashMap.hashMapIterSetVal m it (← pointee data))

variable [DecidableEq T]

/-- A step of the thread `t`. -/
def step (s : Tls T) (t : T) (call : Call) : Exec (Done × Tls T) :=
  match s.pc t with
  | .out =>
    match call with
    | .init => .ok (.nothing, if s.isInit = 0 then s.goto t .swap else s)
    | .get key malloc => do
      let (data, s) ← getTlsData hash s t key malloc
      return (.got key data, s)
    | .set key data malloc calloc => do
      return (.set key data, ← setTlsData hash pointee s t key data malloc calloc)
  | .swap =>
    let (old, new) := compareAndSwap s.isInit 0 1
    .ok (.nothing, { s with isInit := new }.goto t (if old ≠ 0 then .create else .out))
  | .create => .ok (.nothing, s.pthreadKeyCreate.goto t .out)

end Code

/-! ## Runs -/

/-- The system along a run: the data that each thread has set last for each key, null if it has set
none, and every answer of `get_tls_data` beside the data set last. -/
structure Traced (T : Type) where
  tls : Tls T
  last : T → Int32 → Data
  answers : List (Data × Data)

section Runs

variable {T : Type} [DecidableEq T] (hash : Int32 → UInt64) (pointee : Data → Exec Data)

def Traced.start : Traced T := ⟨Tls.start, fun _ _ => 0, []⟩

/-- A step of the thread `e.1`, which calls `e.2` if it is not in `init_tls`. -/
def tick (s : Traced T) (e : T × Call) : Exec (Traced T) := do
  let (done, tls) ← s.tls.step hash pointee e.1 e.2
  match done with
  | .nothing => return { s with tls := tls }
  | .got key data => return { s with tls := tls, answers := (data, s.last e.1 key) :: s.answers }
  | .set key data =>
    return { s with
      tls := tls
      last := Function.update s.last e.1 (Function.update (s.last e.1) key data) }

omit [DecidableEq T] in
/-- Every call of `get_tls_data` has answered with the data that its thread had set last. -/
def Right (s : Traced T) : Prop := ∀ x ∈ s.answers, x.1 = x.2

omit [DecidableEq T] in
instance : DecidablePred (Right : Traced T → Prop) :=
  fun s => inferInstanceAs (Decidable (∀ x ∈ s.answers, x.1 = x.2))

omit [DecidableEq T] in
/-- The next step of the thread is the call of `get_tls_data` for the key. -/
def Asks (s : Tls T) (t : T) (call : Call) (key : Int32) : Prop :=
  s.pc t = .out ∧ ∃ malloc, call = .get key malloc

omit [DecidableEq T] in
/-- A thread that asks for the data of a key has set none, or a null pointer last. -/
def NothingSet (s : Traced T) (e : T × Call) : Prop :=
  ∀ key, Asks s.tls e.1 e.2 key → s.last e.1 key = 0

omit [DecidableEq T] in
/-- No thread has a map. -/
def NoMaps (s : Tls T) : Prop := ∀ k t, s.specific k t = none

variable {hash pointee} {s s' : Tls T} {t : T}

omit [DecidableEq T] in
theorem NoMaps.hashMapCreate (h : NoMaps s) (malloc : Bool) :
    NoMaps (s.hashMapCreate malloc).2 := by
  cases malloc <;> exact h

omit [DecidableEq T] in
theorem NoMaps.pthreadKeyCreate (h : NoMaps s) : NoMaps s.pthreadKeyCreate := by
  intro k t
  by_cases hk : k = s.freshKey
  · simp [Tls.pthreadKeyCreate, hk]
  · simpa [Tls.pthreadKeyCreate, hk] using h k t

omit [DecidableEq T] in
/-- Without a map `get_tls_data` answers with a null pointer. -/
theorem NoMaps.getTlsData (h : NoMaps s) (key : Int32) (malloc : Bool) :
    s.getTlsData hash t key malloc = .ok (0, (s.hashMapCreate malloc).2) := by
  rw [Tls.getTlsData, h]

omit [DecidableEq T] in
/-- What `set_tls_data` sets is in a map that no thread has. -/
theorem NoMaps.setTlsData (h : NoMaps s) {key : Int32} {data : Data} {malloc calloc : Bool}
    (hok : s.setTlsData hash pointee t key data malloc calloc = .ok s') : NoMaps s' := by
  rw [Tls.setTlsData, h] at hok
  have hcreated := h.hashMapCreate malloc
  obtain ⟨p, -, hok⟩ := Exec.bind_eq_ok.mp hok
  obtain ⟨m, -, hok⟩ := Exec.bind_eq_ok.mp hok
  obtain ⟨it, -, hok⟩ := Exec.bind_eq_ok.mp hok
  split at hok
  · obtain ⟨r, -, hok⟩ := Exec.bind_eq_ok.mp hok
    cases hok
    exact hcreated
  · obtain ⟨v, -, hok⟩ := Exec.bind_eq_ok.mp hok
    obtain ⟨m', -, hok⟩ := Exec.bind_eq_ok.mp hok
    cases hok
    exact hcreated

/-- One step gives no thread a map, and answers with nothing but null pointers. -/
theorem NoMaps.step (h : NoMaps s) {call : Call} {done : Done}
    (hok : s.step hash pointee t call = .ok (done, s')) :
    NoMaps s' ∧ ∀ key data, done = .got key data ↔ Asks s t call key ∧ data = 0 := by
  unfold Tls.step at hok
  split at hok
  case h_1 hpc =>
    cases call with
    | init =>
      cases hok
      refine ⟨?_, by simp [Asks]⟩
      split <;> exact h
    | get key malloc =>
      simp only [h.getTlsData, Exec.ok_bind, Exec.pure_eq] at hok
      cases hok
      refine ⟨h.hashMapCreate malloc, fun key' data => ?_⟩
      simp [Asks, hpc, eq_comm]
    | set key data malloc calloc =>
      obtain ⟨s₁, hset, hok⟩ := Exec.bind_eq_ok.mp hok
      cases hok
      exact ⟨h.setTlsData hset, by simp [Asks]⟩
  case h_2 hpc =>
    cases hok
    exact ⟨h, by simp [Asks, hpc]⟩
  case h_3 hpc =>
    cases hok
    exact ⟨h.pthreadKeyCreate, by simp [Asks, hpc]⟩

/-- **`get_tls_data` answers rightly in a run exactly if** nothing but null pointers has been set. -/
theorem right_iff_nothingSet (events : List (T × Call)) :
    Exec.Always (tick hash pointee) Right Traced.start events ↔
      Exec.EachStep (tick hash pointee) NothingSet Traced.start events := by
  refine Exec.always_iff_eachStep (I := fun s => NoMaps s.tls ∧ Right s) (A := fun _ _ => True)
    (fun s I => I.2) (fun s e s' I _ hok hset => ?_) (fun s e s' I _ hok hset => ?_)
    ⟨fun _ _ => rfl, by simp [Right, Traced.start]⟩ (Exec.eachStep_of_forall fun _ _ _ => trivial)
  · obtain ⟨⟨done, tls⟩, hstep, hok⟩ := Exec.bind_eq_ok.mp hok
    obtain ⟨hmaps, hdone⟩ := I.1.step hstep
    cases done with
    | nothing =>
      cases hok
      exact ⟨hmaps, I.2⟩
    | got key data =>
      cases hok
      obtain ⟨hasks, rfl⟩ := (hdone key data).mp rfl
      exact ⟨hmaps, List.forall_mem_cons.mpr ⟨(hset key hasks).symm, I.2⟩⟩
    | set key data =>
      cases hok
      exact ⟨hmaps, I.2⟩
  · obtain ⟨⟨done, tls⟩, hstep, hok⟩ := Exec.bind_eq_ok.mp hok
    obtain ⟨hmaps, hdone⟩ := I.1.step hstep
    simp only [NothingSet, not_forall] at hset
    obtain ⟨key, hasks, hset⟩ := hset
    obtain rfl : done = .got key 0 := (hdone key 0).mpr ⟨hasks, rfl⟩
    cases hok
    exact fun hright => hset (hright _ List.mem_cons_self).symm

/-- The thread has set a pointer and is answered with a null pointer. -/
theorem not_right_one_key :
    ¬ Exec.Always (tick (fun _ => 0) fun _ => .error .outOfBounds) Right Traced.start
      [((), .init), ((), .init), ((), .set 1 16 true true), ((), .get 1 true)] := by
  decide +kernel

end Runs

end Tls

end Kendylib
