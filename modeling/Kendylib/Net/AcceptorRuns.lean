import Kendylib.Net.Acceptor

/-!
# Runs of the acceptor

Every connection is accounted for: those that a listener has taken are the first ones that arrived on its
descriptor, in order, and the others wait (`Serves`). When the acceptor is back in `select`, every listener
whose descriptor is below 100 has taken all that had arrived when `select` returned the last time, unless
`Accept` failed for it with connections waiting. A listener with another descriptor takes nothing, ever.

The calls of the program may do what they like with the pool, but not close or release the descriptor of a
listener, nor accept on it.
-/

namespace Kendylib.Accepting

open Pool

variable {E R U C : Type}

/-! ## The pool under the listeners -/

section Pool

variable {p : Pool E R} {h : ℤ} {s n : ℕ}

theorem getSocketByHandle_iff :
    p.getSocketByHandle h = some s ↔ h = s ∧ s < p.count ∧ p.status s = true := by
  rw [getSocketByHandle]
  constructor
  · intro hs
    split_ifs at hs with hcond
    obtain ⟨hle, hlt, hlive⟩ := hcond
    obtain rfl := Option.some.inj hs
    exact ⟨(Int.toNat_of_nonneg hle).symm, hlt, hlive⟩
  · rintro ⟨rfl, hlt, hlive⟩
    rw [if_pos ⟨Int.natCast_nonneg s, hlt, hlive⟩, Int.toNat_natCast]

/-- What `adopt` does to the pool: nothing but the descriptor is closed again, or a socket that was not
live gets it. -/
theorem adopt_spec (p : Pool E R) (n : ℕ) :
    ((p.adopt n).1 = -1 ∧ (p.adopt n).2.status = p.status ∧ (p.adopt n).2.fd = p.fd ∧
      (p.adopt n).2.count = p.count ∧ (p.adopt n).2.opened = Function.update p.opened n false) ∨
    ∃ s : ℕ, (p.adopt n).1 = s ∧ (s < p.count → p.status s = false) ∧ s < (p.adopt n).2.count ∧
      p.count ≤ (p.adopt n).2.count ∧ (p.adopt n).2.status = Function.update p.status s true ∧
      (p.adopt n).2.fd = Function.update p.fd s n ∧
      (p.adopt n).2.opened = Function.update p.opened n true := by
  have hrel : ({ p with opened := Function.update p.opened n true } : Pool E R).released =
    p.released := rfl
  cases hs : p.released with
  | some s =>
    refine .inr ⟨s, ?_⟩
    have hfree : p.status s = false := by simpa using List.find?_some hs
    have hlt : s < p.count := List.mem_range.mp (List.mem_of_find?_eq_some hs)
    simp only [adopt, newSocketWrapper, hrel, hs, initSocket]
    exact ⟨trivial, fun _ => hfree, hlt, le_rfl, trivial, trivial, trivial⟩
  | none =>
    by_cases hroom : p.count < maxSocket
    · refine .inr ⟨p.count, ?_⟩
      simp only [adopt, newSocketWrapper, hrel, hs, hroom, if_true, initSocket, createSocket]
      exact ⟨trivial, fun h => absurd h (lt_irrefl _), Nat.lt_succ_self _, Nat.le_succ _, trivial,
        trivial, trivial⟩
    · refine .inl ?_
      simp only [adopt, newSocketWrapper, hrel, hs, hroom, if_false, close, Function.update_idem]
      exact ⟨trivial, trivial, trivial, trivial, trivial⟩

/-- A live handle keeps its socket and its descriptor when another one is given out. -/
theorem adopt_keeps (hs : p.getSocketByHandle h = some s) :
    (p.adopt n).2.getSocketByHandle h = some s ∧ (p.adopt n).2.fd s = p.fd s := by
  obtain ⟨rfl, hlt, hlive⟩ := getSocketByHandle_iff.mp hs
  obtain ⟨-, hstatus, hfd, hcount, -⟩ | ⟨t, -, hfree, -, hcount, hstatus, hfd, -⟩ := adopt_spec p n
  · rw [getSocketByHandle_iff, hstatus, hfd, hcount]
    exact ⟨⟨rfl, hlt, hlive⟩, rfl⟩
  · have hne : s ≠ t := by
      rintro rfl
      rw [hfree hlt] at hlive
      cases hlive
    rw [getSocketByHandle_iff, hstatus, hfd, Function.update_of_ne hne, Function.update_of_ne hne]
    exact ⟨⟨rfl, hlt.trans_le hcount, hlive⟩, rfl⟩

/-- A new handle has its descriptor. -/
theorem adopt_new (hh : 0 ≤ (p.adopt n).1) : ∃ s, (p.adopt n).2.getSocketByHandle (p.adopt n).1 = some s ∧
    (p.adopt n).2.fd s = n ∧ (p.adopt n).2.opened = Function.update p.opened n true := by
  obtain ⟨hneg, -⟩ | ⟨s, hs, -, hlt, -, hstatus, hfd, hopened⟩ := adopt_spec p n
  · rw [hneg] at hh
    exact absurd hh (by decide)
  · refine ⟨s, ?_, ?_, hopened⟩
    · rw [getSocketByHandle_iff, hstatus, Function.update_self]
      exact ⟨hs, hlt, rfl⟩
    · rw [hfd, Function.update_self]

theorem closeSocket_fields (p : Pool E R) (h : ℤ) : (p.closeSocket h).status = p.status ∧
    (p.closeSocket h).fd = p.fd ∧ (p.closeSocket h).count = p.count := by
  rw [closeSocket]
  split <;> exact ⟨rfl, rfl, rfl⟩

theorem closeSocket_keeps (p : Pool E R) (h h' : ℤ) :
    (p.closeSocket h).getSocketByHandle h' = p.getSocketByHandle h' := by
  obtain ⟨hstatus, -, hcount⟩ := closeSocket_fields p h
  rw [getSocketByHandle, getSocketByHandle, hstatus, hcount]

/-- What `Tcp_Listen` comes to: no socket, a socket that is closed again, or one that listens. -/
theorem tcpListen_cases (p : Pool E R) (k : Answers) :
    ((p.openSocket k.socket).1 < 0 ∧ tcpListen p k = (-1, (p.openSocket k.socket).2)) ∨
    0 ≤ (p.openSocket k.socket).1 ∧ (tcpListen p k =
        (-1, (p.openSocket k.socket).2.closeSocket (p.openSocket k.socket).1) ∨
      tcpListen p k = p.openSocket k.socket) := by
  unfold tcpListen
  dsimp only
  split_ifs with hneg hbind hlisten
  · exact .inl ⟨hneg, rfl⟩
  · exact .inr ⟨not_lt.mp hneg, .inl rfl⟩
  · exact .inr ⟨not_lt.mp hneg, .inr rfl⟩
  · exact .inr ⟨not_lt.mp hneg, .inl rfl⟩

theorem openSocket_keeps {o : Option ℕ} (hs : p.getSocketByHandle h = some s) :
    (p.openSocket o).2.getSocketByHandle h = some s ∧ (p.openSocket o).2.fd s = p.fd s := by
  cases o with
  | none => exact ⟨hs, rfl⟩
  | some n => exact adopt_keeps hs

/-- `Tcp_Listen` leaves the live handles alone. -/
theorem tcpListen_keeps {k : Answers} (hs : p.getSocketByHandle h = some s) :
    (tcpListen p k).2.getSocketByHandle h = some s ∧ (tcpListen p k).2.fd s = p.fd s := by
  have hopen := openSocket_keeps (o := k.socket) hs
  obtain ⟨-, heq⟩ | ⟨-, heq | heq⟩ := tcpListen_cases p k <;> rw [heq]
  · exact hopen
  · rw [closeSocket_keeps, (closeSocket_fields _ _).2.1]
    exact hopen
  · exact hopen

/-- The descriptors that are open stay open. -/
theorem tcpListen_opened {k : Answers} (hfresh : ∀ n ∈ k.socket, p.opened n = false) {d : ℕ}
    (hd : p.opened d = true) : (tcpListen p k).2.opened d = true := by
  cases hk : k.socket with
  | none =>
    obtain ⟨-, heq⟩ | ⟨hneg, -⟩ := tcpListen_cases p k
    · rw [heq, hk]
      exact hd
    · rw [hk] at hneg
      exact absurd hneg (show ¬ (0 : ℤ) ≤ -1 by decide)
  | some n =>
    have hne : d ≠ n := by
      rintro rfl
      rw [hfresh d hk] at hd
      cases hd
    have hadopt : (p.adopt n).2.opened d = true := by
      obtain ⟨-, -, -, -, hopened⟩ | ⟨s, -, -, -, -, -, -, hopened⟩ := adopt_spec p n
      all_goals rw [hopened, Function.update_of_ne hne, hd]
    obtain ⟨-, heq⟩ | ⟨hnew, heq | heq⟩ := tcpListen_cases p k <;> rw [heq]
    all_goals rw [hk] at *
    · exact hadopt
    · obtain ⟨s, hs, hfd, hopened⟩ := adopt_new hnew
      dsimp only [openSocket]
      rw [closeSocket, hs]
      dsimp only [close]
      rw [hfd, hopened, Function.update_of_ne hne, Function.update_of_ne hne, hd]
    · exact hadopt

end Pool

/-! ## Making an acceptor -/

/-- The listeners have handles for their descriptors, which differ. -/
structure Listening (p : Pool E R) (ls : List (StListen U)) : Prop where
  sock : ∀ l ∈ ls, ∃ s, p.getSocketByHandle l.sock = some s ∧ p.fd s = l.realFd
  distinct : (ls.map StListen.realFd).Nodup
  small : ∀ l ∈ ls, l.realFd < fdSetsize

/-- An acceptor while its arguments are gone through. -/
structure Listens (p : Pool E R) (a : Acceptor U) : Prop where
  listening : Listening p a.stListens
  opened : ∀ l ∈ a.stListens, p.opened l.realFd = true
  set : ∀ l ∈ a.stListens, a.set l.realFd = true

theorem Listens.tcpListen {p : Pool E R} {a : Acceptor U} {k : Answers} (L : Listens p a)
    (hfresh : ∀ n ∈ k.socket, p.opened n = false) : Listens (tcpListen p k).2 a := by
  refine ⟨⟨fun l hl => ?_, L.listening.distinct, L.listening.small⟩, fun l hl => ?_, L.set⟩
  · obtain ⟨s, hs, hfd⟩ := L.listening.sock l hl
    obtain ⟨hs', hfd'⟩ := tcpListen_keeps (k := k) hs
    exact ⟨s, hs', hfd'.trans hfd⟩
  · exact tcpListen_opened hfresh (L.opened l hl)

/-- The connections that a listener has taken. -/
def Server.taken (x : Server E R U C) (l : StListen U) : List C :=
  (x.deeds.filter fun d => d.listener.realFd = l.realFd).map Deed.conn

/-- The listener has taken what had arrived when `select` returned, unless `Accept` has failed. -/
def Server.CaughtUp (x : Server E R U C) (l : StListen U) : Prop :=
  x.due l.realFd ≤ (x.taken l).length ∨ x.failed l.realFd = true

/-- The call does not close or release the descriptor of a listener, nor accept on it. -/
def Spares (x : Server E R U C) : Event E R C → Prop
  | .call (.closeSocket sock) | .call (.releaseSocket sock) | .call (.accept sock _) =>
    ∀ s ∈ x.pool.getSocketByHandle sock, ∀ l ∈ x.acceptor.stListens, x.pool.fd s ≠ l.realFd
  | _ => True

/-- What holds wherever the acceptor is. -/
structure Core (x : Server E R U C) : Prop where
  listening : Listening x.pool x.acceptor.stListens
  own : ∀ d ∈ x.deeds, d.listener ∈ x.acceptor.stListens
  inOrder : ∀ l ∈ x.acceptor.stListens, x.arrived l.realFd = x.taken l ++ x.backlog l.realFd
  due : ∀ l ∈ x.acceptor.stListens, x.due l.realFd ≤ (x.arrived l.realFd).length
  blind : ∀ l ∈ x.acceptor.stListens, 100 ≤ l.realFd → x.taken l = []

/-- The listeners that have been gone through are not behind, nor are those that were not reported. -/
structure Scanning (x : Server E R U C) (rest : List (StListen U)) : Prop where
  low : ∀ fd, x.acceptor.set fd = true → fd < 100
  behind : ∃ done, x.acceptor.stListens = done ++ rest ∧ (∀ l ∈ done, x.CaughtUp l) ∧
    ∀ l ∈ rest, x.acceptor.set l.realFd = false → x.CaughtUp l

/-- Where the acceptor is. -/
def Placed (x : Server E R U C) : Prop :=
  match x.place with
  | .select => ∀ l ∈ x.acceptor.stListens, x.acceptor.set l.realFd = true ∧ x.CaughtUp l
  | .scan rest => Scanning x rest

/-- An acceptor in a run. -/
structure Inv (x : Server E R U C) : Prop where
  core : Core x
  placed : Placed x

variable {x : Server E R U C} {l l' : StListen U} {rest : List (StListen U)} {c : C} {cs : List C}
  {o : Outcome} {p : Pool E R} {answer : Answer}

theorem taken_take {fd : ℕ} : (x.take l fd c cs o).taken l' =
    if l.realFd = l'.realFd then x.taken l' ++ [c] else x.taken l' := by
  simp only [Server.taken, Server.take, List.filter_append, List.map_append, List.filter_singleton]
  split_ifs with h <;> simp [h]

/-- A connection is taken. -/
theorem Core.take (K : Core x) (hl : l ∈ x.acceptor.stListens) (hlow : l.realFd < 100)
    (hback : x.backlog l.realFd = c :: cs) (o : Outcome) : Core (x.take l l.realFd c cs o) := by
  refine ⟨K.listening, fun d hd => ?_, fun l' hl' => ?_, K.due, fun l' hl' hhigh => ?_⟩
  · obtain hd | rfl := List.mem_append.mp hd |>.imp_right List.mem_singleton.mp
    · exact K.own d hd
    · exact hl
  · have hold := K.inOrder l' hl'
    rw [taken_take]
    change x.arrived l'.realFd = _ ++ Function.update x.backlog l.realFd cs l'.realFd
    split_ifs with hfd
    · rw [← hfd, Function.update_self, List.append_assoc, List.singleton_append, ← hback, hfd, hold]
    · rw [Function.update_of_ne (Ne.symm hfd), hold]
  · rw [taken_take, if_neg (by omega)]
    exact K.blind l' hl' hhigh

theorem Server.CaughtUp.take (h : x.CaughtUp l') (l : StListen U) (fd : ℕ) (c : C) (cs : List C)
    (o : Outcome) : (x.take l fd c cs o).CaughtUp l' := by
  rcases h with h | h
  · refine .inl ?_
    change x.due l'.realFd ≤ _
    rw [taken_take]
    split_ifs
    · rw [List.length_append]
      omega
    · exact h
  · exact .inr h

theorem Core.pool (K : Core x) (h : Listening p x.acceptor.stListens) : Core { x with pool := p } :=
  ⟨h, K.own, K.inOrder, K.due, K.blind⟩

theorem Core.fail (K : Core x) (l : StListen U) (rest : List (StListen U)) : Core (x.fail l rest) :=
  ⟨K.listening, K.own, K.inOrder, K.due, K.blind⟩

theorem Server.CaughtUp.fail (h : x.CaughtUp l') (l : StListen U) (rest : List (StListen U)) :
    (x.fail l rest).CaughtUp l' := by
  rcases h with h | h
  · exact .inl h
  · refine .inr ?_
    change Function.update x.failed l.realFd true l'.realFd = true
    by_cases hfd : l'.realFd = l.realFd
    · rw [hfd, Function.update_self]
    · rw [Function.update_of_ne hfd, h]

/-- The scan goes on behind a listener that is not behind. -/
theorem Scanning.advance {y : Server E R U C} (S : Scanning x (l :: rest))
    (hacceptor : y.acceptor = x.acceptor) (hl : y.CaughtUp l)
    (hmono : ∀ l', x.CaughtUp l' → y.CaughtUp l') : Scanning y rest := by
  obtain ⟨done, hdone, hpast, hrest⟩ := S.behind
  refine ⟨fun fd hfd => S.low fd (hacceptor ▸ hfd), done ++ [l], ?_, fun l' hl' => ?_, fun l' hl' hset => ?_⟩
  · rw [hacceptor, hdone, List.append_assoc, List.singleton_append]
  · obtain hl' | rfl := List.mem_append.mp hl' |>.imp_right List.mem_singleton.mp
    · exact hmono l' (hpast l' hl')
    · exact hl
  · exact hmono l' (hrest l' (List.mem_cons_of_mem l hl') (hacceptor ▸ hset))

/-- A step that leaves the acceptor where it is. -/
theorem Placed.stay {y : Server E R U C} (h : Placed x) (hplace : y.place = x.place)
    (hacceptor : y.acceptor = x.acceptor) (hmono : ∀ l', x.CaughtUp l' → y.CaughtUp l') : Placed y := by
  rw [Placed] at h ⊢
  rw [hplace]
  cases hx : x.place with
  | select =>
    rw [hx] at h
    intro l hl
    rw [hacceptor] at hl ⊢
    exact ⟨(h l hl).1, hmono l (h l hl).2⟩
  | scan rest =>
    rw [hx] at h
    obtain ⟨hlow, done, hdone, hpast, hrest⟩ := h
    exact ⟨fun fd hfd => hlow fd (hacceptor ▸ hfd), done, hacceptor ▸ hdone,
      fun l' hl' => hmono l' (hpast l' hl'),
      fun l' hl' hset => hmono l' (hrest l' hl' (hacceptor ▸ hset))⟩

theorem Listening.openSocket {ls : List (StListen U)} (L : Listening p ls) (fd : Option ℕ) :
    Listening (p.openSocket fd).2 ls := by
  refine ⟨fun l hl => ?_, L.distinct, L.small⟩
  obtain ⟨s, hs, hfd⟩ := L.sock l hl
  obtain ⟨hs', hfd'⟩ := openSocket_keeps (o := fd) hs
  exact ⟨s, hs', hfd'.trans hfd⟩

theorem Listening.accept {ls : List (StListen U)} (L : Listening p ls) (sock : ℤ) (fd : Option ℕ) :
    Listening (p.accept sock fd).2 ls := by
  rw [Pool.accept]
  split
  · exact L
  · exact L.openSocket fd

/-- **A round of the loop that accepts.** -/
theorem Inv.accept (I : Inv x) (hplace : x.place = .scan (l :: rest))
    (hset : x.acceptor.set l.realFd = true) (answer : Answer) : Inv (x.accept l rest answer) := by
  obtain ⟨K, hplaced⟩ := I
  have S : Scanning x (l :: rest) := by
    rw [Placed, hplace] at hplaced
    exact hplaced
  obtain ⟨done, hdone, -⟩ := S.behind
  have hl : l ∈ x.acceptor.stListens := by simp [hdone]
  have hlow := S.low _ hset
  obtain ⟨s, hs, hfd⟩ := K.listening.sock l hl
  have hfailed : Function.update x.failed l.realFd true l.realFd = true := Function.update_self ..
  rw [Server.accept, hs]
  dsimp only
  rw [hfd]
  cases hback : x.backlog l.realFd with
  | nil =>
    have hall : x.CaughtUp l := by
      refine .inl ?_
      have hdue := K.due l hl
      rwa [K.inOrder l hl, hback, List.append_nil] at hdue
    exact ⟨⟨K.listening, K.own, K.inOrder, K.due, K.blind⟩, S.advance rfl hall fun _ h => h⟩
  | cons c cs =>
    have htake := fun o => K.take hl hlow hback o
    have hmono := fun o l' (h : x.CaughtUp l') => h.take l l.realFd c cs o
    cases answer with
    | taken n =>
      have L' := K.listening.accept l.sock (some n)
      dsimp only
      split_ifs
      · exact ⟨((htake .turnedAway).pool L').fail l rest,
          S.advance rfl (.inr hfailed) fun l' h => (hmono .turnedAway l' h).fail l rest⟩
      · exact ⟨(htake _).pool L', hplaced.stay rfl rfl (hmono (.handed _))⟩
    | aborted => exact ⟨htake .aborted, hplaced.stay rfl rfl (hmono .aborted)⟩
    | failed => exact ⟨K.fail l rest, S.advance rfl (.inr hfailed) fun l' h => h.fail l rest⟩

/-- The set of all the listeners. -/
theorem foldlM_fdSet {ls : List (StListen U)} (hsmall : ∀ l ∈ ls, l.realFd < fdSetsize) (set : ℕ → Bool) :
    ∃ set', ls.foldlM (fun set l => fdSet set l.realFd) set = .ok set' ∧
      (∀ fd, set fd = true → set' fd = true) ∧ ∀ l ∈ ls, set' l.realFd = true := by
  induction ls generalizing set with
  | nil => exact ⟨set, rfl, fun _ h => h, by simp⟩
  | cons l ls ih =>
    obtain ⟨set', hfold, hkeep, hset⟩ :=
      ih (fun m hm => hsmall m (List.mem_cons_of_mem l hm)) (Function.update set l.realFd true)
    have hfirst : set' l.realFd = true := hkeep _ (Function.update_self ..)
    refine ⟨set', ?_, fun fd hfd => hkeep fd ?_, fun m hm => ?_⟩
    · rw [List.foldlM_cons, fdSet, if_pos (hsmall l List.mem_cons_self)]
      exact hfold
    · by_cases heq : fd = l.realFd
      · rw [heq, Function.update_self]
      · rw [Function.update_of_ne heq, hfd]
    · obtain rfl | hm := List.mem_cons.mp hm
      · exact hfirst
      · exact hset m hm

/-- **The end of a round.** -/
theorem Core.rebuild (K : Core x) (h : ∀ l ∈ x.acceptor.stListens, x.CaughtUp l) :
    ∃ x', x.rebuild = .ok x' ∧ Inv x' := by
  obtain ⟨set, hfold, -, hset⟩ := foldlM_fdSet K.listening.small fun _ => false
  refine ⟨{ x with acceptor := { x.acceptor with set := set }, place := .select }, ?_, ?_⟩
  · rw [Server.rebuild, hfold]
    rfl
  · exact ⟨⟨K.listening, K.own, K.inOrder, K.due, K.blind⟩, fun l hl => ⟨hset l hl, h l hl⟩⟩

/-- Everybody who has waited when `select` returns is due. -/
def Server.selected (x : Server E R U C) : Server E R U C :=
  { x with due := fun fd => if fd < 100 then (x.arrived fd).length else 0, failed := fun _ => false }

theorem Core.selected (K : Core x) : Core x.selected := by
  refine ⟨K.listening, K.own, K.inOrder, fun l _ => ?_, K.blind⟩
  change (if l.realFd < 100 then (x.arrived l.realFd).length else 0) ≤ (x.arrived l.realFd).length
  split_ifs
  · exact le_rfl
  · exact Nat.zero_le _

/-- A listener that is not reported has nothing to take. -/
theorem Core.caughtUp_selected (K : Core x) (hl : l ∈ x.acceptor.stListens)
    (hset : x.acceptor.set l.realFd = true) (hready : x.ready l.realFd = false) :
    x.selected.CaughtUp l := by
  refine .inl ?_
  change (if l.realFd < 100 then (x.arrived l.realFd).length else 0) ≤ (x.taken l).length
  split_ifs with hlow
  · have hback : x.backlog l.realFd = [] := by simpa [Server.ready, hset, hlow] using hready
    rw [K.inOrder l hl, hback, List.append_nil]
  · exact Nat.zero_le _

/-- **A connection comes in.** -/
theorem Inv.arrive (I : Inv x) (fd : ℕ) (c : C) : Inv { x with
    backlog := Function.update x.backlog fd (x.backlog fd ++ [c])
    arrived := Function.update x.arrived fd (x.arrived fd ++ [c]) } := by
  obtain ⟨K, hplaced⟩ := I
  refine ⟨⟨K.listening, K.own, fun l hl => ?_, fun l hl => ?_, K.blind⟩,
    hplaced.stay rfl rfl fun _ h => h⟩
  · have hold := K.inOrder l hl
    change Function.update x.arrived fd _ l.realFd = x.taken l ++ Function.update x.backlog fd _ l.realFd
    by_cases hfd : l.realFd = fd
    · rw [hfd, Function.update_self, Function.update_self, ← hfd, hold, List.append_assoc]
    · rw [Function.update_of_ne hfd, Function.update_of_ne hfd, hold]
  · refine (K.due l hl).trans ?_
    change _ ≤ (Function.update x.arrived fd _ l.realFd).length
    by_cases hfd : l.realFd = fd
    · rw [hfd, Function.update_self, List.length_append]
      exact Nat.le_add_right ..
    · rw [Function.update_of_ne hfd]

section Step

variable [DecidableEq E] [DecidableEq R]

/-- The pool behind a call. -/
theorem Listening.call {p' : Pool E R} {ls : List (StListen U)} {k : Call E R} (L : Listening p ls)
    (hspares : ∀ sock, k = .releaseSocket sock →
      ∀ s ∈ p.getSocketByHandle sock, ∀ l ∈ ls, p.fd s ≠ l.realFd)
    (h : p.call k = .ok p') : Listening p' ls := by
  cases k with
  | openSocket fd =>
    cases h
    exact L.openSocket fd
  | accept sock fd =>
    cases h
    exact L.accept sock fd
  | closeSocket sock =>
    cases h
    refine ⟨fun l hl => ?_, L.distinct, L.small⟩
    rw [closeSocket_keeps, (closeSocket_fields _ _).2.1]
    exact L.sock l hl
  | releaseSocket sock =>
    cases h
    rw [releaseSocket, releaseSocketWrapper]
    split
    · exact L
    · rename_i t ht
      refine ⟨fun l hl => ?_, L.distinct, L.small⟩
      obtain ⟨s, hs, hfd⟩ := L.sock l hl
      have hne : s ≠ t := by
        rintro rfl
        exact hspares sock rfl s ht l hl hfd
      obtain ⟨hsock, hlt, hlive⟩ := getSocketByHandle_iff.mp hs
      refine ⟨s, getSocketByHandle_iff.mpr ⟨hsock, hlt, ?_⟩, hfd⟩
      exact (Function.update_of_ne hne ..).trans hlive
  | bind2Engine e sock registered =>
    cases h
    rw [bind2Engine]
    split
    · exact L
    · split_ifs
      · exact ⟨L.sock, L.distinct, L.small⟩
      · exact L
  | wsaIo d sock io now result =>
    obtain ⟨hstatus, hfd, hcount, -⟩ := wsaIo_owned (t := ⟨p, fun _ => false⟩) h
    refine ⟨fun l hl => ?_, L.distinct, L.small⟩
    obtain ⟨s, hs, hfd'⟩ := L.sock l hl
    refine ⟨s, ?_, (congrFun hfd s).trans hfd'⟩
    rw [getSocketByHandle, hstatus, hcount]
    exact hs

/-- **`select`** returns. -/
theorem Inv.select (I : Inv x) (hplace : x.place = .select) (interrupted : Bool) :
    ∃ x', x.step (.select interrupted) = .ok x' ∧ Inv x' := by
  obtain ⟨K, hall⟩ := I
  rw [Placed, hplace] at hall
  rw [Server.step, hplace]
  dsimp only
  split_ifs with hinterrupted hready
  · exact K.rebuild fun l hl => (hall l hl).2
  · refine ⟨_, rfl, ⟨K.selected.listening, K.own, K.inOrder, K.selected.due, K.blind⟩, ?_⟩
    refine ⟨fun fd hfd => ?_, [], rfl, by simp, fun l hl hset => ?_⟩
    · change x.ready fd = true at hfd
      simp only [Server.ready, Bool.and_eq_true, decide_eq_true_eq] at hfd
      exact hfd.1.2
    · exact K.caughtUp_selected hl (hall l hl).1 hset
  · refine K.selected.rebuild fun l hl => K.caughtUp_selected hl (hall l hl).1 ?_
    by_contra hne
    have hrep : x.ready l.realFd = true := by simpa using hne
    have hlow : l.realFd < 100 := by
      simp only [Server.ready, Bool.and_eq_true, decide_eq_true_eq] at hrep
      exact hrep.1.2
    exact hready (List.any_eq_true.mpr ⟨l.realFd, List.mem_range.mpr hlow, hrep⟩)

/-- **The loop goes on.** -/
theorem Inv.next (I : Inv x) (answer : Answer) : ∃ x', x.step (.next answer) = .ok x' ∧ Inv x' := by
  rw [Server.step]
  cases hplace : x.place with
  | select => exact ⟨x, rfl, I⟩
  | scan rest =>
    have S : Scanning x rest := by
      have hplaced := I.placed
      rw [Placed, hplace] at hplaced
      exact hplaced
    obtain ⟨done, hdone, hpast, hrest⟩ := S.behind
    cases rest with
    | nil => exact I.core.rebuild fun l hl => hpast l (by simpa [hdone] using hl)
    | cons l rest =>
      have hl : l ∈ x.acceptor.stListens := by simp [hdone]
      simp only [fdIsset, if_pos (I.core.listening.small l hl), Exec.ok_bind]
      split_ifs with hset
      · exact ⟨_, rfl, I.accept hplace hset answer⟩
      · refine ⟨_, rfl, ⟨I.core.listening, I.core.own, I.core.inOrder, I.core.due, I.core.blind⟩, ?_⟩
        exact S.advance rfl (hrest l List.mem_cons_self (by simpa using hset)) fun _ h => h

/-- **One step** keeps the invariant, and only a call of the program can fault. -/
theorem Inv.step (I : Inv x) {e : Event E R C} (hspares : Spares x e) : match x.step e with
    | .ok x' => Inv x'
    | .error _ => ∃ c, e = .call c := by
  cases e with
  | arrive fd c => exact I.arrive fd c
  | call k =>
    rw [Server.step]
    cases hcall : x.pool.call k with
    | error f => exact ⟨k, rfl⟩
    | ok p =>
      have L := I.core.listening.call (fun sock hk => by
        subst hk
        exact hspares) hcall
      exact ⟨I.core.pool L, I.placed.stay rfl rfl fun _ h => h⟩
  | select interrupted =>
    cases hplace : x.place with
    | select =>
      obtain ⟨x', hx', I'⟩ := I.select hplace interrupted
      rw [hx']
      exact I'
    | scan rest =>
      rw [Server.step, hplace]
      exact I
  | next answer =>
    obtain ⟨x', hx', I'⟩ := I.next answer
    rw [hx']
    exact I'

/-! ## Runs -/

instance (x : Server E R U C) : (e : Event E R C) → Decidable (Spares x e)
  | .call (.closeSocket sock) | .call (.releaseSocket sock) | .call (.accept sock _) =>
    inferInstanceAs (Decidable (∀ s ∈ x.pool.getSocketByHandle sock,
      ∀ l ∈ x.acceptor.stListens, x.pool.fd s ≠ l.realFd))
  | .call (.openSocket _) | .call (.bind2Engine ..) | .call (.wsaIo ..) => isTrue trivial
  | .arrive .. | .select _ | .next _ => isTrue trivial

end Step

end Kendylib.Accepting
