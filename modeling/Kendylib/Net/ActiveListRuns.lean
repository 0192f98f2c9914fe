import Kendylib.Net.HandleMgr

/-!
# The active list along a run

`InitSocket` writes `isactived` and `next` of a socket object that may still be in the active list:
releasing a handle leaves its socket there. `Reuses` says that a call gives out such a socket again.
The active lists are well formed in every state of a run, with the sockets in them those that have
`isactived` set, exactly when no call of the run reuses a socket that is still active
(`alwaysWellFormed_iff_clear`).
-/

namespace Kendylib

namespace Net

variable {E S R : Type}

/-- The active lists are well formed: each one runs along `next` from its head to its tail in `size`
nodes, no socket occurs twice, and the sockets in them are those with `isactived` set. -/
def WellFormed (st : Net E S R) : Prop :=
  ∃ xs : E → List S, st.actived.Represents xs ∧
    ∀ s, (st.socket s).isactived = true ↔ ∃ e, s ∈ xs e

/-- The active lists are the sequences `xs`, and a socket in none of them has no `next`. -/
structure Listed (st : Net E S R) (xs : E → List S) : Prop where
  represents : st.actived.Represents xs
  member : ∀ s, (st.socket s).isactived = true ↔ ∃ e, s ∈ xs e
  next : ∀ s, (∀ e, s ∉ xs e) → st.actived.next s = none

variable {st st' : Net E S R} {xs : E → List S} {s : S} {e : E} {d : Dir}

theorem Listed.wellFormed (l : Listed st xs) : WellFormed st := ⟨xs, l.represents, l.member⟩

theorem Listed.not_mem (l : Listed st xs) (hs : (st.socket s).isactived = false) (e : E) :
    s ∉ xs e := by
  intro h
  rw [(l.member s).mpr ⟨e, h⟩] at hs
  cases hs

/-- What does not touch the active lists and the flags. -/
theorem Listed.congr (l : Listed st xs) (ha : st'.actived = st.actived)
    (hi : ∀ s, (st'.socket s).isactived = (st.socket s).isactived) : Listed st' xs where
  represents := ha ▸ l.represents
  member s := by rw [hi, l.member]
  next s h := by rw [ha, l.next s h]

/-- `st'` has well formed lists again, and its flags are those of `st`, but for `s`. -/
def Relisted (st st' : Net E S R) (s : S) : Prop :=
  (∃ xs, Listed st' xs) ∧
    ∀ t, t ≠ s → (st'.socket t).isactived = (st.socket t).isactived

theorem Relisted.trans {st'' : Net E S R} (h : Relisted st st' s) (h' : Relisted st' st'' s) :
    Relisted st st'' s := ⟨h'.1, fun t ht => (h'.2 t ht).trans (h.2 t ht)⟩

section Code

variable [DecidableEq E] [DecidableEq S] [DecidableEq R]

omit [DecidableEq E] [DecidableEq R] in
theorem isactived_setSocket {sock : Socket E} (h : sock.isactived = (st.socket s).isactived)
    (t : S) : ((st.setSocket s sock).socket t).isactived = (st.socket t).isactived := by
  rcases eq_or_ne t s with rfl | ht
  · simp [setSocket, h]
  · simp [setSocket, Function.update_of_ne ht]

omit [DecidableEq R] in
/-- **Putting a socket into the active list** sets its flag. -/
theorem Listed.activate (l : Listed st xs) (hs : (st.socket s).isactived = false) (e : E) :
    ∃ st', st.activate e s = .ok st' ∧ Relisted st st' s := by
  have hnot := l.not_mem hs
  obtain ⟨m, hm, r, hnext⟩ := l.represents.pushBack e hnot (l.next s hnot)
  have hmem : ∀ t, (∃ i, t ∈ Function.update xs e (xs e ++ [s]) i) ↔ (∃ i, t ∈ xs i) ∨ t = s := by
    intro t
    constructor
    · rintro ⟨i, hi⟩
      rcases eq_or_ne i e with rfl | hie
      · rw [Function.update_self, List.mem_append, List.mem_singleton] at hi
        exact hi.imp_left fun h => ⟨i, h⟩
      · rw [Function.update_of_ne hie] at hi
        exact .inl ⟨i, hi⟩
    · rintro (⟨i, hi⟩ | rfl)
      · rcases eq_or_ne i e with rfl | hie
        · exact ⟨i, by simp [hi]⟩
        · exact ⟨i, by rwa [Function.update_of_ne hie]⟩
      · exact ⟨e, by simp⟩
  refine ⟨_, by simp [Net.activate, hm]; rfl, ⟨_, r, fun t => ?_, fun t ht => ?_⟩, fun t ht => ?_⟩
  · rw [hmem]
    rcases eq_or_ne t s with rfl | hts
    · simp [setSocket]
    · simp [setSocket, hts, l.member]
  · have h := not_or.mp ((hmem t).not.mp (by simpa using ht))
    have hout : ∀ i, t ∉ xs i := fun i hi => h.1 ⟨i, hi⟩
    exact (hnext t hout).trans (l.next t hout)
  · simp [setSocket, Function.update_of_ne ht]

omit [DecidableEq E] in
/-- Trying a request leaves the active lists alone. -/
theorem rawIo_actived {io : R} {result : IoResult} {a b : ℤ} {c : UInt32}
    (h : rawIo d st s io result = .ok (a, b, c, st')) :
    st'.actived = st.actived ∧ ∀ t, (st'.socket t).isactived = (st.socket t).isactived := by
  unfold rawIo at h
  split at h
  · cases h
    exact ⟨rfl, fun _ => rfl⟩
  · split at h
    · obtain ⟨m, -, h⟩ := Exec.bind_eq_ok.mp h
      cases h
      exact ⟨rfl, isactived_setSocket (by simp)⟩
    · cases h
      exact ⟨rfl, fun _ => rfl⟩

omit [DecidableEq E] in
theorem tryIo_actived {result : IoResult} {a : ℤ} {b : Bool}
    (h : tryIo d st s result = .ok (a, b, st')) :
    st'.actived = st.actived ∧ ∀ t, (st'.socket t).isactived = (st.socket t).isactived := by
  unfold tryIo at h
  split at h
  · obtain ⟨⟨io, m⟩, -, h⟩ := Exec.bind_eq_ok.mp h
    cases io with
    | none =>
      cases h
      exact ⟨rfl, fun _ => rfl⟩
    | some io =>
      obtain ⟨⟨ret, n, err, st₁⟩, hraw, h⟩ := Exec.bind_eq_ok.mp h
      cases h
      have hstill := rawIo_actived hraw
      exact hstill
  · cases h
    exact ⟨rfl, fun _ => rfl⟩

theorem wsaIo_none {io : R} {now : Bool} {result : IoResult} {a : ℤ} {b : UInt32}
    (h : wsaIo d st none io now result = .ok (a, b, st')) : st' = st := by
  cases h
  rfl

/-- `WSARecv` and `WSASend` put a socket into the active list only if its flag is clear. -/
theorem Listed.wsaIo (l : Listed st xs) {io : R} {now : Bool} {result : IoResult} {a : ℤ}
    {b : UInt32} (h : wsaIo d st (some s) io now result = .ok (a, b, st')) : Relisted st st' s := by
  simp only [Net.wsaIo] at h
  split at h
  · obtain ⟨⟨ret, n, err, st₁⟩, hraw, h⟩ := Exec.bind_eq_ok.mp h
    cases h
    obtain ⟨ha, hi⟩ := rawIo_actived hraw
    exact ⟨⟨xs, l.congr ha hi⟩, fun t _ => hi t⟩
  · obtain ⟨m, -, h⟩ := Exec.bind_eq_ok.mp h
    have l₁ : Listed { st with pending := m } xs := l.congr rfl fun _ => rfl
    obtain ⟨st₁, hst₁, h⟩ := Exec.bind_eq_ok.mp h
    cases h
    split at hst₁
    · split at hst₁
      · rename_i e _ hcond
        obtain ⟨-, hfalse⟩ : _ ∧ (st.socket s).isactived = false := by simpa using hcond
        obtain ⟨st₂, hst₂, r⟩ := l₁.activate hfalse e
        obtain rfl := Except.ok.inj (hst₂.symm.trans hst₁)
        exact r
      · cases hst₁
        exact ⟨⟨xs, l₁⟩, fun _ _ => rfl⟩
    · cases hst₁
      exact ⟨⟨xs, l₁⟩, fun _ _ => rfl⟩

omit [DecidableEq R] in
theorem Listed.onActive (l : Listed st xs) (h : onActive d st s = .ok st') : Relisted st st' s := by
  simp only [Net.onActive] at h
  have hi : ∀ t, ((st.setSocket s ((st.socket s).setReady true d)).socket t).isactived =
      (st.socket t).isactived := isactived_setSocket (by simp)
  have l₁ : Listed (st.setSocket s ((st.socket s).setReady true d)) xs := l.congr rfl hi
  split at h
  · rename_i hcond
    obtain ⟨hfalse, -⟩ : ((st.setSocket s ((st.socket s).setReady true d)).socket s).isactived =
      false ∧ _ := by simpa using hcond
    obtain ⟨e, -, h⟩ := Exec.bind_eq_ok.mp h
    obtain ⟨st₂, hst₂, r⟩ := l₁.activate hfalse e
    obtain rfl := Except.ok.inj (hst₂.symm.trans h)
    exact ⟨r.1, fun t ht => (r.2 t ht).trans (hi t)⟩
  · cases h
    exact ⟨⟨xs, l₁⟩, fun t _ => hi t⟩

omit [DecidableEq R] in
/-- Taking the first socket off an active list and clearing its flag. -/
theorem Listed.pop (l : Listed st xs) {o : Option S} {m : Lists E S}
    (h : st.actived.linkListPop e = .ok (o, m)) (ho : o = some s) :
    (st.socket s).isactived = true ∧
      Relisted st { st.setSocket s { st.socket s with isactived := false } with actived := m } s := by
  subst ho
  cases hl : xs e with
  | nil =>
    rw [l.represents.pop_nil hl] at h
    cases h
  | cons n ys =>
    obtain ⟨m', hm', r, hn, hnext⟩ := l.represents.pop hl
    obtain ⟨hns, rfl⟩ := Prod.mk.inj (Except.ok.inj (hm'.symm.trans h))
    obtain rfl := Option.some.inj hns
    have hnodup := l.represents.nodup e
    rw [hl] at hnodup
    have hny := (List.nodup_cons.mp hnodup).1
    have hne : n ∈ xs e := by rw [hl]; exact List.mem_cons_self
    have hmem : ∀ t, (∃ i, t ∈ Function.update xs e ys i) ↔ (∃ i, t ∈ xs i) ∧ t ≠ n := by
      intro t
      constructor
      · rintro ⟨i, hi⟩
        rcases eq_or_ne i e with rfl | hie
        · rw [Function.update_self] at hi
          exact ⟨⟨i, by rw [hl]; exact List.mem_cons_of_mem _ hi⟩, by rintro rfl; exact hny hi⟩
        · rw [Function.update_of_ne hie] at hi
          exact ⟨⟨i, hi⟩, by rintro rfl; exact l.represents.disjoint i e hie hi hne⟩
      · rintro ⟨⟨i, hi⟩, htn⟩
        rcases eq_or_ne i e with rfl | hie
        · rw [hl, List.mem_cons] at hi
          exact ⟨i, by rw [Function.update_self]; exact hi.resolve_left htn⟩
        · exact ⟨i, by rwa [Function.update_of_ne hie]⟩
    refine ⟨(l.member n).mpr ⟨e, hne⟩, ⟨_, r, fun t => ?_, fun t ht => ?_⟩, fun t ht => ?_⟩
    · rw [hmem]
      rcases eq_or_ne t n with rfl | htn
      · simp [setSocket]
      · simp [setSocket, htn, l.member]
    · rcases eq_or_ne t n with rfl | htn
      · exact hn
      · refine (hnext t htn).trans (l.next t fun i hi => ?_)
        obtain ⟨j, hj⟩ := (hmem t).mpr ⟨⟨i, hi⟩, htn⟩
        exact ht j hj
    · simp [setSocket, Function.update_of_ne ht]

/-! ## `InitSocket` -/

omit [DecidableEq E] [DecidableEq S] [DecidableEq R] in
/-- A walk that differs from `xs` only behind `s` still meets `s`. -/
theorem mem_of_linked {next next' : S → Option S} {xs ys : List S} (hx : Lists.Linked next xs)
    (hy : Lists.Linked next' ys) (hhead : ys.head? = xs.head?)
    (heq : ∀ t, t ≠ s → next' t = next t) (hs : s ∈ xs) : s ∈ ys := by
  induction xs generalizing ys with
  | nil => cases hs
  | cons a xs ih =>
    cases ys with
    | nil => cases hhead
    | cons b ys =>
      obtain rfl : b = a := by simpa using hhead
      rcases eq_or_ne s b with rfl | hsb
      · exact List.mem_cons_self
      · refine List.mem_cons_of_mem _ (ih hx.2 hy.2 ?_ ((List.mem_cons.mp hs).resolve_left hsb))
        rw [← hy.1, ← hx.1, heq b hsb.symm]

omit [DecidableEq E] [DecidableEq R] in
/-- Clearing the flag of a socket whose flag is set leaves it in its list. -/
theorem Listed.not_wellFormed (l : Listed st xs) (hs : (st.socket s).isactived = true)
    (ha : st'.actived = st.actived.setNext s none) (hi : (st'.socket s).isactived = false) :
    ¬ WellFormed st' := by
  rintro ⟨ys, r, hmem⟩
  obtain ⟨e, he⟩ := (l.member s).mp hs
  have hhead : (ys e).head? = (xs e).head? := by
    have hy := r.list e
    rw [ha] at hy
    exact congrArg LinkList.head (hy.symm.trans (l.represents.list e))
  have hin : s ∈ ys e := by
    refine mem_of_linked (l.represents.linked e) (r.linked e) hhead (fun t ht => ?_) he
    rw [ha]
    exact Function.update_of_ne ht ..
  rw [(hmem s).mpr ⟨e, hin⟩] at hi
  cases hi

omit [DecidableEq E] [DecidableEq R] in
/-- Clearing the flag and the `next` of a socket whose flag is clear changes nothing. -/
theorem Listed.init (l : Listed st xs) (hs : (st.socket s).isactived = false)
    (ha : st'.actived = st.actived.setNext s none)
    (hi : ∀ t, (st'.socket t).isactived = (st.socket t).isactived) : Listed st' xs := by
  refine l.congr (ha.trans ?_) hi
  have hnext := l.next s (l.not_mem hs)
  rw [Lists.setNext, ← hnext, Function.update_eq_self]

end Code

end Net

namespace Pool

variable {E R : Type}

/-! ## One step -/

/-- The active lists are well formed, and every active socket is in the pool, the one that is being
processed included. -/
structure Inv (p : Pool E R) : Prop where
  listed : ∃ xs, p.net.Listed xs
  lt_count : ∀ s, (p.net.socket s).isactived = true → s < p.count
  phase : match p.phase with
    | .idle => True
    | .recv _ s | .send _ s _ | .finish _ s _ _ => s < p.count

/-- The released socket that a call gives out again. -/
def reused (p : Pool E R) : Call E R → Option ℕ
  | .openSocket (some _) => p.released
  | .accept sock (some _) => if (p.getSocketByHandle sock).isSome then p.released else none
  | _ => none

/-- The step gives out a socket again that is still in an active list. -/
def Reuses (p : Pool E R) : Op E R → Prop
  | .call c => ∃ s ∈ p.reused c, (p.net.socket s).isactived = true
  | _ => False

instance (p : Pool E R) (op : Op E R) : Decidable (Reuses p op) := by
  cases op <;> unfold Reuses <;> infer_instance

variable {p p' : Pool E R} {s fd : ℕ}

theorem getSocketByHandle_lt {h : ℤ} (hs : p.getSocketByHandle h = some s) : s < p.count := by
  unfold getSocketByHandle at hs
  split at hs
  · rename_i hcond
    obtain rfl := Option.some.inj hs
    exact hcond.2.1
  · cases hs

/-- The sockets in the pool: a step that changes the flag of `s` only, a socket of the pool. -/
theorem Inv.of_relisted (i : Inv p) {net : Net E ℕ R} (h : p.net.Relisted net s)
    (hs : s < p.count) {phase : Phase E} (hphase : match phase with
      | .idle => True
      | .recv _ s | .send _ s _ | .finish _ s _ _ => s < p.count) :
    Inv { p with net := net, phase := phase } where
  listed := h.1
  lt_count t ht := by
    rcases eq_or_ne t s with rfl | hts
    · exact hs
    · exact i.lt_count t ((h.2 t hts).symm.trans ht)
  phase := hphase

/-- A step that leaves the active lists and the flags alone. -/
theorem Inv.of_eq (i : Inv p) (ha : p'.net.actived = p.net.actived)
    (hi : ∀ s, (p'.net.socket s).isactived = (p.net.socket s).isactived)
    (hc : p.count ≤ p'.count) (hp : p'.phase = p.phase) : Inv p' where
  listed := by
    obtain ⟨xs, l⟩ := i.listed
    exact ⟨xs, l.congr ha hi⟩
  lt_count s hs := lt_of_lt_of_le (i.lt_count s (by rwa [← hi])) hc
  phase := by
    have hphase := i.phase
    rw [hp]
    cases hph : p.phase <;> simp only [hph] at hphase ⊢ <;> omega

theorem isactived_initSocket {t : ℕ} (ht : t ≠ s) :
    ((p.initSocket s fd).net.socket t).isactived = (p.net.socket t).isactived := by
  simp [initSocket, Net.setSocket, Function.update_of_ne ht]

theorem not_isactived_initSocket : ((p.initSocket s fd).net.socket s).isactived = false := by
  simp [initSocket, Net.setSocket]

theorem Inv.initSocket (i : Inv p) (hs : (p.net.socket s).isactived = false) (fd : ℕ) :
    Inv (p.initSocket s fd) := by
  have hi : ∀ t, ((p.initSocket s fd).net.socket t).isactived = (p.net.socket t).isactived := by
    intro t
    rcases eq_or_ne t s with rfl | ht
    · rw [not_isactived_initSocket, hs]
    · exact isactived_initSocket ht
  obtain ⟨xs, l⟩ := i.listed
  refine ⟨⟨xs, l.init hs rfl hi⟩, fun t ht => i.lt_count t (by rwa [← hi]), i.phase⟩

/-- **Giving out a handle** keeps the lists exactly if the socket is not in one of them. -/
theorem adopt_spec (i : Inv p) (fd : ℕ) :
    ((∃ s ∈ p.released, (p.net.socket s).isactived = true) → ¬ (p.adopt fd).2.net.WellFormed) ∧
    (¬ (∃ s ∈ p.released, (p.net.socket s).isactived = true) → Inv (p.adopt fd).2) := by
  obtain ⟨xs, l⟩ := i.listed
  have hrel : ({ p with opened := Function.update p.opened fd true } : Pool E R).released =
    p.released := rfl
  cases hs : p.released with
  | some s =>
    obtain ⟨q, hq⟩ : ∃ q : Pool E R, q = { p with
      opened := Function.update p.opened fd true
      status := Function.update p.status s true } := ⟨_, rfl⟩
    have hnet : q.net = p.net := by rw [hq]
    have hadopt : (p.adopt fd).2 = q.initSocket s fd := by
      simp [adopt, newSocketWrapper, hrel, hs, hq]
    rw [hadopt]
    constructor
    · rintro ⟨t, ht, hact⟩
      obtain rfl := Option.some.inj ht
      rw [← hnet] at l hact
      exact l.not_wellFormed hact rfl not_isactived_initSocket
    · intro hnot
      have hfalse : (q.net.socket s).isactived = false := by
        rw [hnet]
        by_contra h
        exact hnot ⟨s, rfl, by simpa using h⟩
      have iq : Inv q := by
        rw [hq]
        exact i.of_eq rfl (fun _ => rfl) le_rfl rfl
      exact iq.initSocket hfalse fd
  | none =>
    refine ⟨by simp, fun _ => ?_⟩
    have hfalse : (p.net.socket p.count).isactived = false := by
      by_contra h
      exact absurd (i.lt_count p.count (by simpa using h)) (lt_irrefl _)
    have hcreate : ∀ t, (p.createSocket.net.socket t).isactived = (p.net.socket t).isactived := by
      intro t
      rcases eq_or_ne t p.count with rfl | ht
      · simp [createSocket, Net.setSocket, hfalse]
      · simp [createSocket, Net.setSocket, Function.update_of_ne ht]
    by_cases hroom : p.count < maxSocket
    · obtain ⟨q, hq⟩ : ∃ q : Pool E R, q = { p.createSocket with
        opened := Function.update p.opened fd true
        status := Function.update p.status p.count true
        count := p.count + 1 } := ⟨_, rfl⟩
      have hadopt : (p.adopt fd).2 = q.initSocket p.count fd := by
        simp [adopt, newSocketWrapper, hrel, hs, hroom, createSocket, hq]
      have iq : Inv q := by
        rw [hq]
        exact i.of_eq rfl hcreate (Nat.le_succ _) rfl
      rw [hadopt]
      refine iq.initSocket ?_ fd
      rw [hq]
      exact (hcreate p.count).trans hfalse
    · have hadopt : (p.adopt fd).2 =
          ({ p with opened := Function.update p.opened fd true } : Pool E R).close fd := by
        simp [adopt, newSocketWrapper, hrel, hs, hroom]
      rw [hadopt]
      exact i.of_eq rfl (fun _ => rfl) le_rfl rfl

variable [DecidableEq E] [DecidableEq R]

/-- Every call but one that gives out a socket again. -/
theorem call_inv (i : Inv p) {c : Call E R} (hc : ∀ s ∈ p.reused c, (p.net.socket s).isactived = false)
    (h : p.call c = .ok p') : Inv p' := by
  have hadopt : ∀ fd, (∀ s ∈ p.released, (p.net.socket s).isactived = false) →
      Inv (p.adopt fd).2 := by
    intro fd hrel
    refine (adopt_spec i fd).2 ?_
    rintro ⟨s, hs, hact⟩
    rw [hrel s hs] at hact
    cases hact
  cases c with
  | openSocket fd =>
    obtain rfl := Except.ok.inj h
    cases fd with
    | none => exact i
    | some fd => exact hadopt fd hc
  | accept sock fd =>
    obtain rfl := Except.ok.inj h
    unfold accept
    split
    · exact i
    · rename_i s hs
      cases fd with
      | none => exact i
      | some fd =>
        refine hadopt fd fun t ht => hc t ?_
        simp only [reused, hs, Option.isSome_some, if_true]
        exact ht
  | closeSocket sock =>
    obtain rfl := Except.ok.inj h
    unfold closeSocket
    split
    · exact i
    · exact i.of_eq rfl (fun _ => rfl) le_rfl rfl
  | releaseSocket sock =>
    obtain rfl := Except.ok.inj h
    unfold releaseSocket releaseSocketWrapper
    split
    · exact i
    · exact i.of_eq rfl (fun _ => rfl) le_rfl rfl
  | bind2Engine e sock registered =>
    obtain rfl := Except.ok.inj h
    unfold bind2Engine
    split
    · exact i
    · split
      · exact i.of_eq rfl (Net.isactived_setSocket rfl) le_rfl rfl
      · exact i
  | wsaIo d sock io now result =>
    obtain ⟨⟨a, b, net⟩, hnet, h⟩ := Exec.bind_eq_ok.mp h
    obtain rfl := Except.ok.inj h
    obtain ⟨xs, l⟩ := i.listed
    cases hs : p.getSocketByHandle sock with
    | none =>
      rw [hs] at hnet
      obtain rfl := Net.wsaIo_none hnet
      exact i
    | some s =>
      rw [hs] at hnet
      exact i.of_relisted (l.wsaIo hnet) (getSocketByHandle_lt hs) i.phase

/-- A step of `epoll_loop`. -/
theorem epollLoopStep_inv (i : Inv p) {n : E} {result : IoResult}
    (h : p.epollLoopStep n result = .ok p') : Inv p' := by
  obtain ⟨xs, l⟩ := i.listed
  have hphase := i.phase
  unfold epollLoopStep at h
  split at h
  · split at h
    · obtain rfl := Except.ok.inj h
      exact i
    · obtain ⟨⟨o, m⟩, hpop, h⟩ := Exec.bind_eq_ok.mp h
      cases o with
      | none => cases h
      | some s =>
        obtain rfl := Except.ok.inj h
        obtain ⟨hs, r⟩ := l.pop hpop rfl
        exact i.of_relisted r (i.lt_count s hs) (i.lt_count s hs)
  · rename_i m s hph
    rw [hph] at hphase
    obtain ⟨⟨re, b, net⟩, htry, h⟩ := Exec.bind_eq_ok.mp h
    obtain rfl := Except.ok.inj h
    obtain ⟨ha, hi⟩ := Net.tryIo_actived htry
    exact i.of_relisted ⟨⟨xs, l.congr ha hi⟩, fun t _ => hi t⟩ hphase hphase
  · rename_i m s re hph
    rw [hph] at hphase
    obtain ⟨⟨se, b, net⟩, htry, h⟩ := Exec.bind_eq_ok.mp h
    obtain rfl := Except.ok.inj h
    obtain ⟨ha, hi⟩ := Net.tryIo_actived htry
    exact i.of_relisted ⟨⟨xs, l.congr ha hi⟩, fun t _ => hi t⟩ hphase hphase
  · rename_i m s re se hph
    rw [hph] at hphase
    split at h
    · rename_i hcond
      obtain ⟨-, hfalse⟩ : _ ∧ (p.net.socket s).isactived = false := by simpa using hcond
      obtain ⟨net, hnet, r⟩ := l.activate hfalse m
      rw [hnet] at h
      obtain rfl := Except.ok.inj h
      exact i.of_relisted r hphase trivial
    · obtain rfl := Except.ok.inj h
      exact i.of_relisted ⟨⟨xs, l⟩, fun _ _ => rfl⟩ hphase trivial

/-- **One step** keeps the active lists well formed, exactly if it does not give out again a socket
that is still in one of them. -/
theorem step_spec (i : Inv p) {op : Op E R} (h : p.step op = .ok p') :
    (Reuses p op → ¬ p'.net.WellFormed) ∧ (¬ Reuses p op → Inv p') := by
  cases op with
  | call c =>
    refine ⟨?_, fun hnot => call_inv i (fun s hs => ?_) h⟩
    · rintro ⟨s, hs, hact⟩
      cases c with
      | openSocket fd =>
        cases fd with
        | none => cases hs
        | some fd =>
          obtain rfl := Except.ok.inj h
          exact (adopt_spec i fd).1 ⟨s, hs, hact⟩
      | accept sock fd =>
        cases fd with
        | none => cases hs
        | some fd =>
          obtain rfl := Except.ok.inj h
          simp only [reused] at hs
          split at hs
          · rename_i hsome
            obtain ⟨t, ht⟩ := Option.isSome_iff_exists.mp hsome
            simp only [accept, ht, openSocket]
            exact (adopt_spec i fd).1 ⟨s, hs, hact⟩
          · cases hs
      | closeSocket | releaseSocket | bind2Engine | wsaIo => cases hs
    · by_contra hact
      exact hnot ⟨s, hs, by simpa using hact⟩
  | event d s =>
    refine ⟨fun hr => hr.elim, fun _ => ?_⟩
    simp only [step] at h
    split at h
    · rename_i hs
      obtain ⟨net, hnet, h⟩ := Exec.bind_eq_ok.mp h
      obtain rfl := Except.ok.inj h
      obtain ⟨xs, l⟩ := i.listed
      cases d with
      | recv => exact i.of_relisted (l.onActive hnet) hs i.phase
      | send => exact i.of_relisted (l.onActive hnet) hs i.phase
    · obtain rfl := Except.ok.inj h
      exact i
  | loop n result => exact ⟨fun hr => hr.elim, fun _ => epollLoopStep_inv i h⟩

/-! ## Runs -/

/-- The active lists are well formed in every state of the run. -/
def AlwaysWellFormed : Pool E R → List (Op E R) → Prop
  | p, [] => p.net.WellFormed
  | p, op :: ops => p.net.WellFormed ∧
    match p.step op with
    | .ok p' => AlwaysWellFormed p' ops
    | .error _ => True

/-- No step of the run gives out again a socket that is still in an active list. -/
def Clear : Pool E R → List (Op E R) → Prop
  | _, [] => True
  | p, op :: ops =>
    match p.step op with
    | .ok p' => ¬ Reuses p op ∧ Clear p' ops
    | .error _ => True

instance decidableClear : (p : Pool E R) → (ops : List (Op E R)) → Decidable (Clear p ops)
  | _, [] => isTrue trivial
  | p, op :: ops =>
    show Decidable (match p.step op with
      | .ok p' => ¬ Reuses p op ∧ Clear p' ops
      | .error _ => True) from
    match p.step op with
    | .ok p' => @instDecidableAnd _ _ _ (decidableClear p' ops)
    | .error _ => isTrue trivial

theorem alwaysWellFormed_iff_of_inv (i : Inv p) (ops : List (Op E R)) :
    AlwaysWellFormed p ops ↔ Clear p ops := by
  induction ops generalizing p with
  | nil =>
    obtain ⟨xs, l⟩ := i.listed
    simp [AlwaysWellFormed, Clear, l.wellFormed]
  | cons op ops ih =>
    obtain ⟨xs, l⟩ := i.listed
    simp only [AlwaysWellFormed, Clear, l.wellFormed, true_and]
    cases h : p.step op with
    | error f => simp
    | ok p' =>
      obtain ⟨hbad, hgood⟩ := step_spec i h
      by_cases hr : Reuses p op
      · have hnot : ¬ AlwaysWellFormed p' ops := by
          cases ops with
          | nil => exact hbad hr
          | cons op' ops => exact fun hall => hbad hr hall.1
        simp [hr, hnot]
      · have hrest := ih (hgood hr)
        simp [hr, hrest]

omit [DecidableEq E] [DecidableEq R] in
theorem inv_start (opened : ℕ → Bool) : Inv (start opened : Pool E R) where
  listed := ⟨fun _ => [], ⟨⟨fun _ => trivial, fun _ => rfl, fun _ => List.nodup_nil,
    fun _ _ _ => by simp⟩, fun s => by simp [start], fun _ _ => rfl⟩⟩
  lt_count s hs := nomatch hs
  phase := trivial

/-- **The active lists stay well formed exactly when no active socket is reused.** In every run of
calls, events and steps of `epoll_loop` from an empty pool, the active list of every engine is well
formed in every state, with the sockets in the lists those that have `isactived` set, if and only if
no `OpenSocket` or `Accept` of the run gives out a released socket that is still in an active
list. -/
theorem alwaysWellFormed_iff_clear (opened : ℕ → Bool) (ops : List (Op E R)) :
    AlwaysWellFormed (start opened) ops ↔ Clear (start opened) ops :=
  alwaysWellFormed_iff_of_inv (inv_start opened) ops

/-- A socket with a request in a ready direction is released and its handle given out again, before
`epoll_loop` comes to it. -/
theorem not_alwaysWellFormed_reuse : ¬ AlwaysWellFormed (start fun _ => false : Pool Unit ℕ)
    [.call (.openSocket (some 3)), .call (.bind2Engine () 0 true), .event .recv 0,
      .call (.wsaIo .recv 0 7 false (.error EAGAIN)), .call (.releaseSocket 0),
      .call (.openSocket (some 3))] := by
  rw [alwaysWellFormed_iff_of_inv (inv_start _)]
  decide

end Pool

end Kendylib
