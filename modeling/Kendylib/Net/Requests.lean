import Kendylib.Foundations.Queues
import Kendylib.Foundations.Run
import Kendylib.Net.HandleMgr

/-!
# Requests along a run

What becomes of the requests of `WSARecv` and `WSASend`: with `now = 0` a request is put behind those
that wait, with `now = 1` it is tried at once and put in front of them if it blocks. `epoll_loop`
tries the first one, and calls `OnRead` or `OnWrite` unless it blocks again. `InitSocket` empties the
lists of a socket that is given out again, and what waits there is lost.

The calls, events and steps of `epoll_loop` come in any order, the calls of callbacks included. In
every run a request is answered as often as it is posted at most, none is lost but by `InitSocket`,
and those of a direction of a socket are answered in the order in which they are posted
(`requests_accounted`).

The log of what becomes of the requests is not read by anything.
-/

namespace Kendylib.Pool

variable {E R : Type}

/-! ## The log -/

/-- A pool, and what has become of the requests. -/
structure Logged (E R : Type) where
  pool : Pool E R
  log : List (Deed (Dir × ℕ) R)

section Code

variable [DecidableEq R]

/-- The request that `_recv` or `_send` answers, if the callback is called. -/
def tried (d : Dir) (st : Net E ℕ R) (s : ℕ) (result : IoResult) : List (Deed (Dir × ℕ) R) :=
  match st.tryIo d s result with
  | .ok (_, true, _) => ((st.pending.list (d, s)).head.map (Deed.answer (d, s))).toList
  | _ => []

/-- The requests that wait on a handle when it is given out. -/
def dropped (p : Pool E R) (h : ℤ) : List (Deed (Dir × ℕ) R) :=
  if 0 ≤ h then
    [.recv, .send].flatMap fun d =>
      if p.net.pending.linkListIsEmpty (d, h.toNat) then [] else [.drop (d, h.toNat)]
  else []

/-- What a step does with the requests. -/
def deeds (p : Pool E R) : Op E R → List (Deed (Dir × ℕ) R)
  | .call (.openSocket fd) => p.dropped (p.openSocket fd).1
  | .call (.accept sock fd) => p.dropped (p.accept sock fd).1
  | .call (.wsaIo d sock io now result) =>
    match p.getSocketByHandle sock with
    | none => []
    | some s =>
      if now then
        if result = .error EAGAIN then [.first (d, s) io]
        else [.first (d, s) io, .answer (d, s) io]
      else [.post (d, s) io]
  | .loop _ result =>
    match p.phase with
    | .recv _ s => tried .recv p.net s result
    | .send _ s _ => tried .send p.net s result
    | .idle | .finish .. => []
  | .call _ | .event .. => []

variable [DecidableEq E]

def Logged.step (x : Logged E R) (op : Op E R) : Exec (Logged E R) := do
  return ⟨← x.pool.step op, x.log ++ x.pool.deeds op⟩

end Code

/-- A request that is posted is in no list. -/
def Posts (p : Pool E R) : Op E R → Prop
  | .call (.wsaIo _ _ io _ _) => (∀ l, io ∉ p.net.pending.nodes l) ∧ p.net.pending.next io = none
  | _ => True

/-- **The accounts of the requests**: each is answered or waits as often as it was posted at most, none
is lost where the handle is not given out again with requests waiting, and they are answered in the
order in which they were posted where none of them was tried at once. -/
structure Accounted (x : Logged E R) : Prop where
  once : ∀ l, (answered l x.log ++ x.pool.net.pending.nodes l).Subperm (posted l x.log)
  kept : ∀ l, .drop l ∉ x.log → (answered l x.log ++ x.pool.net.pending.nodes l).Perm (posted l x.log)
  inOrder : ∀ l, (∀ io, .first l io ∉ x.log) →
    (answered l x.log ++ x.pool.net.pending.nodes l).Sublist (posted l x.log)

/-! ## The lists of requests -/

/-- The lists are what the log says. -/
def Logged.Agrees (x : Logged E R) : Prop := ∃ q, Replays x.log q ∧ x.pool.net.pending.Represents q

variable {st st' : Net E ℕ R} {q : Dir × ℕ → List R} {d : Dir} {s : ℕ} {io : R} {result : IoResult}
  {p p' : Pool E R} {log : List (Deed (Dir × ℕ) R)}

theorem represents_clear {ls : Lists (Dir × ℕ) R} (r : ls.Represents q) (l : Dir × ℕ) :
    (ls.setList l .empty).Represents (Function.update q l []) :=
  r.update trivial rfl List.nodup_nil fun _ _ _ _ => ⟨List.not_mem_nil, rfl⟩

section Code

variable [DecidableEq R]

/-- A request is tried: it is put in front if it blocks. -/
theorem rawIo_represents (r : st.pending.Represents q) (hout : ∀ l, io ∉ q l)
    (hnext : st.pending.next io = none) {a b : ℤ} {c : UInt32}
    (hx : st.rawIo d s io result = .ok (a, b, c, st')) :
    (result = .error EAGAIN ∧ a = -1 ∧ c = EAGAIN ∧
      st'.pending.Represents (Function.update q (d, s) (io :: q (d, s)))) ∨
      result ≠ .error EAGAIN ∧ (0 ≤ a ∨ c ≠ EAGAIN) ∧ st' = st := by
  cases result with
  | bytes n =>
    obtain ⟨rfl, -, -, rfl⟩ : _ ∧ _ ∧ _ ∧ _ := by simpa [Net.rawIo] using hx
    exact .inr ⟨by simp, .inl (by simp), rfl⟩
  | error errno =>
    rw [Net.rawIo] at hx
    by_cases herr : errno = EAGAIN
    · obtain ⟨m, hm, r', -⟩ := r.pushFront (d, s) hout hnext
      rw [if_pos herr, hm] at hx
      cases Except.ok.inj hx
      exact .inl ⟨by rw [herr], rfl, herr, r'⟩
    · rw [if_neg herr] at hx
      cases Except.ok.inj hx
      exact .inr ⟨fun h => herr (IoResult.error.inj h), .inr herr, rfl⟩

/-- `_recv` or `_send` answers the first request and calls the callback, or leaves the lists. -/
theorem tryIo_represents (h : Replays log q) (r : st.pending.Represents q) {a : ℤ} {called : Bool}
    (hx : st.tryIo d s result = .ok (a, called, st')) :
    ∃ q', Replays (log ++ tried d st s result) q' ∧ st'.pending.Represents q' := by
  have htried : tried d st s result = if called then
      ((st.pending.list (d, s)).head.map (Deed.answer (d, s))).toList else [] := by
    rw [tried, hx]
    cases called <;> rfl
  rw [Net.tryIo] at hx
  by_cases hready : (st.socket s).ready d = true
  · rw [if_pos hready] at hx
    cases hl : q (d, s) with
    | nil =>
      rw [r.pop_nil hl] at hx
      cases Except.ok.inj hx
      exact ⟨q, by simpa [htried] using h, r⟩
    | cons io ys =>
      obtain ⟨m, hm, r', hnone, -⟩ := r.pop hl
      rw [hm, Exec.ok_bind] at hx
      obtain ⟨⟨ret, n, err, st₁⟩, hraw, hx⟩ := Exec.bind_eq_ok.mp hx
      have hout : ∀ k, io ∉ Function.update q (d, s) ys k := by
        intro k hk
        have hnodup := r.nodup (d, s)
        rw [hl] at hnodup
        rcases eq_or_ne k (d, s) with rfl | hkl
        · rw [Function.update_self] at hk
          exact (List.nodup_cons.mp hnodup).1 hk
        · rw [Function.update_of_ne hkl] at hk
          exact r.disjoint k (d, s) hkl hk (by rw [hl]; exact List.mem_cons_self)
      have hends := Except.ok.inj hx
      rw [Prod.mk.injEq, Prod.mk.injEq] at hends
      obtain ⟨-, hcalled, rfl⟩ := hends
      rcases rawIo_represents r' hout hnone hraw with ⟨-, hret, herr, r''⟩ | ⟨-, hret, rfl⟩
      · rw [Function.update_self, Function.update_idem, ← hl, Function.update_eq_self] at r''
        refine ⟨q, ?_, r''⟩
        rw [htried, ← hcalled, hret, herr]
        simpa using h
      · refine ⟨_, ?_, r'⟩
        have hcall : called = true := by
          rw [← hcalled]
          simpa using hret
        rw [htried, hcall, if_pos rfl, r.list, hl]
        exact h.answer (d, s) hl
  · rw [if_neg hready] at hx
    cases Except.ok.inj hx
    exact ⟨q, by simpa [htried] using h, r⟩

variable [DecidableEq E]

omit [DecidableEq R] in
theorem activate_pending {e : E} (hx : st.activate e s = .ok st') : st'.pending = st.pending := by
  obtain ⟨m, -, hx⟩ := Exec.bind_eq_ok.mp hx
  cases Except.ok.inj hx
  rfl

omit [DecidableEq R] in
theorem onActive_pending (hx : Net.onActive d st s = .ok st') : st'.pending = st.pending := by
  simp only [Net.onActive] at hx
  split at hx
  next =>
    obtain ⟨e, -, hx⟩ := Exec.bind_eq_ok.mp hx
    have hsame := activate_pending hx
    exact hsame
  next =>
    cases Except.ok.inj hx
    rfl

/-- `WSARecv` and `WSASend` on a socket. -/
theorem wsaIo_represents (h : Replays log q) (r : st.pending.Represents q) (hout : ∀ l, io ∉ q l)
    (hnext : st.pending.next io = none) {now : Bool} {a : ℤ} {c : UInt32}
    (hx : st.wsaIo d (some s) io now result = .ok (a, c, st')) :
    ∃ q', Replays (log ++ if now then
        if result = .error EAGAIN then [.first (d, s) io] else [.first (d, s) io, .answer (d, s) io]
      else [.post (d, s) io]) q' ∧ st'.pending.Represents q' := by
  cases now with
  | true =>
    obtain ⟨⟨ret, n, err, st₁⟩, hraw, hx⟩ := Exec.bind_eq_ok.mp hx
    have hends := Except.ok.inj hx
    rw [Prod.mk.injEq, Prod.mk.injEq] at hends
    obtain ⟨-, -, rfl⟩ := hends
    rcases rawIo_represents r hout hnext hraw with ⟨hblocks, -, -, r'⟩ | ⟨hdone, -, rfl⟩
    · exact ⟨_, by rw [if_pos rfl, if_pos hblocks]; exact h.first (d, s) io, r'⟩
    · refine ⟨q, ?_, r⟩
      have hboth := (h.first (d, s) io).answer (d, s) (Function.update_self ..)
      rw [Function.update_idem, Function.update_eq_self] at hboth
      rw [if_pos rfl, if_neg hdone]
      simpa using hboth
  | false =>
    obtain ⟨m, hm, r', -⟩ := r.pushBack (d, s) hout hnext
    simp only [Net.wsaIo, Bool.false_eq_true, if_false, hm, Exec.ok_bind] at hx
    obtain ⟨st₁, hact, hx⟩ := Exec.bind_eq_ok.mp hx
    have hends := Except.ok.inj hx
    rw [Prod.mk.injEq, Prod.mk.injEq] at hends
    obtain ⟨-, -, rfl⟩ := hends
    have hpending : st₁.pending = m := by
      split at hact
      next =>
        split at hact
        next => exact activate_pending hact
        next =>
          cases Except.ok.inj hact
          rfl
      next =>
        cases Except.ok.inj hact
        rfl
    exact ⟨_, h.post (d, s) io, hpending ▸ r'⟩

end Code

/-! ## Giving out a handle -/

/-- The queues of a socket that is given out are empty. -/
def cleared (q : Dir × ℕ → List R) (s : ℕ) : Dir × ℕ → List R :=
  Function.update (Function.update q (.recv, s) []) (.send, s) []

theorem initSocket_represents (r : p.net.pending.Represents q) (s fd : ℕ) :
    (p.initSocket s fd).net.pending.Represents (cleared q s) := by
  have hne : ((.recv, s) : Dir × ℕ) ≠ (.send, s) := by simp
  rw [cleared, Function.update_comm hne]
  exact represents_clear (represents_clear r _) _

theorem cleared_cleared (q : Dir × ℕ → List R) (s : ℕ) : cleared (cleared q s) s = cleared q s := by
  have hne : ((.recv, s) : Dir × ℕ) ≠ (.send, s) := by simp
  rw [cleared, cleared, Function.update_comm hne, Function.update_idem, Function.update_comm hne.symm,
    Function.update_idem]

/-- **A handle is given out**, or none. -/
theorem adopt_represents (r : p.net.pending.Represents q) (fd : ℕ) :
    (p.adopt fd).1 = -1 ∧ (p.adopt fd).2.net.pending = p.net.pending ∨
      ∃ s : ℕ, (p.adopt fd).1 = s ∧ (p.adopt fd).2.net.pending.Represents (cleared q s) := by
  have hrel : ({ p with opened := Function.update p.opened fd true } : Pool E R).released =
    p.released := rfl
  cases hs : p.released with
  | some s =>
    refine .inr ⟨s, by simp [adopt, newSocketWrapper, hrel, hs], ?_⟩
    simp only [adopt, newSocketWrapper, hrel, hs]
    exact initSocket_represents r s fd
  | none =>
    by_cases hroom : p.count < maxSocket
    · refine .inr ⟨p.count, by simp [adopt, newSocketWrapper, hrel, hs, hroom, createSocket], ?_⟩
      simp only [adopt, newSocketWrapper, hrel, hs, hroom, if_true]
      rw [← cleared_cleared]
      exact initSocket_represents (initSocket_represents r p.count fd) p.count fd
    · refine .inl ⟨by simp [adopt, newSocketWrapper, hrel, hs, hroom], ?_⟩
      simp only [adopt, newSocketWrapper, hrel, hs, hroom, if_false]
      rfl

theorem replays_dropped (h : Replays log q) (r : p.net.pending.Represents q) (s : ℕ) :
    Replays (log ++ p.dropped s) (cleared q s) := by
  have hclear : ∀ {log : List (Deed (Dir × ℕ) R)} {q' : Dir × ℕ → List R} (l : Dir × ℕ), q' l = q l →
      Replays log q' → Replays (log ++ if p.net.pending.linkListIsEmpty l then [] else [.drop l])
        (Function.update q' l []) := by
    intro log q' l hl h'
    rw [r.isEmpty]
    cases hq : q l with
    | nil => simpa [← hl.trans hq] using h'
    | cons x xs => simpa using h'.drop l
  have hrecv := hclear (.recv, s) rfl h
  have hsend := hclear (.send, s) (Function.update_of_ne (by simp) ..) hrecv
  rw [dropped, if_pos (Int.natCast_nonneg s), Int.toNat_natCast, cleared]
  simpa using hsend

/-! ## Steps and runs -/

section Code

variable [DecidableEq E] [DecidableEq R]

omit [DecidableEq E] [DecidableEq R] in
theorem adopt_agrees (h : Replays log q) (r : p.net.pending.Represents q) (fd : ℕ) :
    ∃ q', Replays (log ++ p.dropped (p.adopt fd).1) q' ∧
      (p.adopt fd).2.net.pending.Represents q' := by
  rcases adopt_represents r fd with ⟨hnone, hsame⟩ | ⟨s, hs, r'⟩
  · refine ⟨q, ?_, hsame ▸ r⟩
    rw [hnone]
    simpa [dropped] using h
  · exact ⟨_, hs ▸ replays_dropped h r s, r'⟩

/-- **One step.** -/
theorem Logged.Agrees.step {x x' : Logged E R} {op : Op E R} (A : x.Agrees) (hC : x.pool.Posts op)
    (hx : x.step op = .ok x') : x'.Agrees := by
  obtain ⟨q, h, r⟩ := A
  obtain ⟨p', hp, hx⟩ := Exec.bind_eq_ok.mp hx
  obtain rfl := Except.ok.inj hx
  have hsame : x.pool.deeds op = [] → p'.net.pending = x.pool.net.pending →
      ∃ q', Replays (x.log ++ x.pool.deeds op) q' ∧ p'.net.pending.Represents q' := by
    intro hnone hpending
    exact ⟨q, by rwa [hnone, List.append_nil], hpending ▸ r⟩
  cases op with
  | call c =>
    cases c with
    | openSocket fd =>
      cases Except.ok.inj hp
      cases fd with
      | none => exact ⟨q, by simpa [deeds, openSocket, dropped] using h, r⟩
      | some fd => exact adopt_agrees h r fd
    | accept sock fd =>
      cases Except.ok.inj hp
      cases hsock : x.pool.getSocketByHandle sock with
      | none => exact ⟨q, by simpa [deeds, accept, hsock, dropped] using h, by simpa [accept, hsock] using r⟩
      | some s =>
        cases fd with
        | none => exact ⟨q, by simpa [deeds, accept, hsock, openSocket, dropped] using h,
            by simpa [accept, hsock, openSocket] using r⟩
        | some fd => simpa [deeds, accept, hsock, openSocket, Logged.Agrees] using adopt_agrees h r fd
    | closeSocket sock =>
      cases Except.ok.inj hp
      refine hsame rfl ?_
      rw [closeSocket]
      split <;> rfl
    | releaseSocket sock =>
      cases Except.ok.inj hp
      refine hsame rfl ?_
      rw [releaseSocket, releaseSocketWrapper]
      split <;> rfl
    | bind2Engine e sock registered =>
      cases Except.ok.inj hp
      refine hsame rfl ?_
      rw [bind2Engine]
      split
      · rfl
      · split_ifs <;> rfl
    | wsaIo d sock io now result =>
      obtain ⟨⟨a, c, net⟩, hio, hp⟩ := Exec.bind_eq_ok.mp hp
      obtain rfl := Except.ok.inj hp
      obtain ⟨hout, hnext⟩ := hC
      cases hsock : x.pool.getSocketByHandle sock with
      | none =>
        rw [hsock] at hio
        cases Except.ok.inj hio
        exact ⟨q, by simpa [deeds, hsock] using h, r⟩
      | some s =>
        rw [hsock] at hio
        obtain ⟨q', h', r'⟩ := wsaIo_represents h r (fun l => r.nodes l ▸ hout l) hnext hio
        refine ⟨q', ?_, r'⟩
        simpa only [deeds, hsock] using h'
  | event d s =>
    refine hsame rfl ?_
    simp only [Pool.step] at hp
    split_ifs at hp
    · obtain ⟨net, hnet, hp⟩ := Exec.bind_eq_ok.mp hp
      obtain rfl := Except.ok.inj hp
      cases d with
      | recv => exact onActive_pending hnet
      | send => exact onActive_pending hnet
    · rw [Except.ok.inj hp]
  | loop n result =>
    change x.pool.epollLoopStep n result = .ok p' at hp
    rw [epollLoopStep] at hp
    cases hphase : x.pool.phase with
    | idle =>
      rw [hphase] at hp
      refine hsame (by simp [deeds, hphase]) ?_
      dsimp only at hp
      split_ifs at hp
      · rw [Except.ok.inj hp]
      · obtain ⟨⟨s, actived⟩, -, hp⟩ := Exec.bind_eq_ok.mp hp
        obtain ⟨s, -, hp⟩ := Exec.bind_eq_ok.mp hp
        obtain rfl := Except.ok.inj hp
        rfl
    | recv n s =>
      rw [hphase] at hp
      obtain ⟨⟨re, called, net⟩, htry, hp⟩ := Exec.bind_eq_ok.mp hp
      obtain rfl := Except.ok.inj hp
      simpa only [Logged.Agrees, deeds, hphase] using tryIo_represents h r htry
    | send n s re =>
      rw [hphase] at hp
      obtain ⟨⟨se, called, net⟩, htry, hp⟩ := Exec.bind_eq_ok.mp hp
      obtain rfl := Except.ok.inj hp
      simpa only [Logged.Agrees, deeds, hphase] using tryIo_represents h r htry
    | finish n s re se =>
      rw [hphase] at hp
      refine hsame (by simp [deeds, hphase]) ?_
      dsimp only at hp
      split_ifs at hp
      · obtain ⟨net, hnet, hp⟩ := Exec.bind_eq_ok.mp hp
        obtain rfl := Except.ok.inj hp
        exact activate_pending hnet
      · rw [← Except.ok.inj hp]

omit [DecidableEq E] [DecidableEq R] in
theorem Logged.Agrees.accounted {x : Logged E R} (A : x.Agrees) : Accounted x := by
  obtain ⟨q, h, r⟩ := A
  have hq : ∀ l, x.pool.net.pending.nodes l = q l := r.nodes
  refine ⟨fun l => ?_, fun l hdrop => ?_, fun l hfirst => ?_⟩
  · rw [hq]
    exact h.subperm l
  · rw [hq]
    exact h.perm hdrop
  · rw [hq]
    exact h.sublist hfirst

omit [DecidableEq E] [DecidableEq R] in
theorem agrees_start (opened : ℕ → Bool) : Logged.Agrees ⟨(start opened : Pool E R), []⟩ :=
  ⟨fun _ => [], .nil, fun _ => trivial, fun _ => rfl, fun _ => List.nodup_nil,
    fun _ _ _ => List.disjoint_nil_left _⟩

/-- **The requests are accounted for** in every run in which each request posted is in no list. -/
theorem requests_accounted (opened : ℕ → Bool) (ops : List (Op E R))
    (hops : Exec.BeforeEach Logged.step (fun x op => x.pool.Posts op) ⟨start opened, []⟩ ops) :
    Exec.Always Logged.step Accounted ⟨start opened, []⟩ ops := by
  refine (Exec.safe_of_beforeEach (I := Logged.Agrees) (F := fun _ _ _ => True)
    (fun _ A => A.accounted) (fun x op A hC => ?_) (agrees_start opened) hops).1
  cases hx : x.step op with
  | ok x' => exact A.step hC hx
  | error e => trivial

/-- A request blocks once before it is answered. -/
def blocksOnce : List (Op Unit ℕ) :=
  [.call (.openSocket (some 3)), .call (.bind2Engine () 0 true), .event .recv 0,
    .call (.wsaIo .recv 0 7 false (.error EAGAIN)), .loop () (.bytes 0), .loop () (.error EAGAIN),
    .loop () (.bytes 0), .loop () (.bytes 0), .event .recv 0, .loop () (.bytes 0), .loop () (.bytes 4)]

theorem requests_accounted_blocks_once :
    Exec.Always Logged.step Accounted ⟨start fun _ => false, []⟩ blocksOnce := by
  refine requests_accounted _ _ ?_
  refine .cons trivial rfl (.cons trivial rfl (.cons trivial rfl (.cons ⟨fun l => ?_, rfl⟩ rfl ?_)))
  · obtain ⟨_ | _, _ | s⟩ := l <;> exact List.not_mem_nil
  · refine .cons trivial rfl (.cons trivial rfl (.cons trivial rfl (.cons trivial rfl ?_)))
    exact .cons trivial rfl (.cons trivial rfl (.cons trivial rfl trivial))

end Code

end Kendylib.Pool
