import Kendylib.Net.Engine

/-!
# Readiness along a run

The descriptors are registered edge-triggered, so a socket that is ready, has a request queued and
is not in the active list of its engine gets no further event: it is stuck. `NoneLost` says that no
socket is. Posts and events keep it. A round of `epoll_loop` asks for the socket to be put back only
if both directions made progress (`re > 0 && se > 0`), and so it loses a socket that still has a
request in a ready direction when they did not, unless a callback posted a request that activates
the socket. `Stalls` states this on the state before the round, and a run keeps every readiness
exactly when none of its rounds stalls (`keeps_iff_noStall`).
-/

namespace Kendylib.Net

variable {E S R : Type} [DecidableEq E] [DecidableEq S] [DecidableEq R]

/-- The steps of a run: a request posted with `now = 0`, an event of the poller, and a round of the
inner loop of `epoll_loop`. -/
inductive Op (E S R : Type)
  | post (p : Post S R)
  | event (d : Dir) (s : S)
  | loop (n : E) (r : Round S R)

def step (st : Net E S R) : Op E S R → Exec (Net E S R)
  | .post p => st.post p
  | .event .recv s => st.onReadActive s
  | .event .send s => st.onWriteActive s
  | .loop n r => st.epollLoopRound n r

/-- The sockets as `InitSocket` leaves them, bound to engines with an empty active list. -/
def start (engine : S → Option E) : Net E S R where
  socket s := ⟨engine s, false, false, false⟩
  actived := ⟨fun _ => .empty, fun _ => none⟩
  pending := ⟨fun _ => .empty, fun _ => none⟩

/-- Every bound socket with a request queued in a ready direction is in the active list. -/
def NoneLost (st : Net E S R) : Prop :=
  ∀ s e, (st.socket s).engine = some e →
    ((st.socket s).readable = true ∧ st.pending.linkListIsEmpty (.recv, s) = false ∨
      (st.socket s).writeable = true ∧ st.pending.linkListIsEmpty (.send, s) = false) →
    (st.socket s).isactived = true ∧ s ∈ st.actived.nodes e

/-- Every step of the run returns, and no readiness is lost in any state it goes through. -/
def Keeps : Net E S R → List (Op E S R) → Prop
  | st, [] => NoneLost st
  | st, op :: ops => NoneLost st ∧ ∃ st', step st op = .ok st' ∧ Keeps st' ops

/-! ## What users and callbacks may do -/

/-- The request posted is in no list. -/
def AllowedPost (st : Net E S R) (p : Post S R) : Prop := ∀ l, p.io ∉ st.pending.nodes l

def AllowedPosts : Net E S R → List (Post S R) → Prop
  | _, [] => True
  | st, p :: ps => AllowedPost st p ∧
    match st.post p with
    | .ok st' => AllowedPosts st' ps
    | .error _ => True

/-- The callback, if it is called, posts requests that are in no list. -/
def AllowedIo (d : Dir) (st : Net E S R) (s : S) (result : IoResult) (ps : List (Post S R)) :
    Prop :=
  match tryIo d st s result with
  | .ok (_, true, st') => AllowedPosts st' ps
  | _ => True

def AllowedProcess (st : Net E S R) (s : S) (r : Round S R) : Prop :=
  AllowedIo .recv st s r.readv r.onRead ∧
    match innerRecv st s r.readv r.onRead with
    | .ok (_, st') => AllowedIo .send st' s r.writev r.onWrite
    | .error _ => True

def AllowedRound (st : Net E S R) (n : E) (r : Round S R) : Prop :=
  match st.actived.linkListPop n with
  | .ok (some s, actived) => AllowedProcess
    { st.setSocket s { st.socket s with isactived := false } with actived := actived } s r
  | _ => True

/-- Requests are posted while they are in no list, and events come for bound sockets. -/
def Allowed (st : Net E S R) : Op E S R → Prop
  | .post p => AllowedPost st p
  | .event _ s => (st.socket s).engine ≠ none
  | .loop n r => AllowedRound st n r

def AllowedRun : Net E S R → List (Op E S R) → Prop
  | _, [] => True
  | st, op :: ops => Allowed st op ∧
    match step st op with
    | .ok st' => AllowedRun st' ops
    | .error _ => True

/-! ## The rounds that lose a socket -/

/-- `Process` tries a request of the direction. -/
def Tries (st : Net E S R) (s : S) (d : Dir) : Prop :=
  (st.socket s).ready d = true ∧ (st.pending.list (d, s)).size ≠ 0

/-- The kernel transfers some bytes. -/
def Positive : IoResult → Prop
  | .bytes n => 0 < n
  | .error _ => False

/-- The direction stays ready with a request queued: there are two and the first does not block. -/
def Leaves (st : Net E S R) (s : S) (d : Dir) (result : IoResult) : Prop :=
  (st.socket s).ready d = true ∧ 2 ≤ (st.pending.list (d, s)).size ∧ result ≠ .error EAGAIN

/-- `OnRead` is called and posts a request to its socket in a ready direction. -/
def WokenByRead (st : Net E S R) (s : S) (r : Round S R) : Prop :=
  Tries st s .recv ∧ r.readv ≠ .error EAGAIN ∧
    ∃ p ∈ r.onRead, p.sock = s ∧ (st.socket s).ready p.dir = true

/-- `OnWrite` is called and posts a request to its socket in a direction that is still ready. -/
def WokenByWrite (st : Net E S R) (s : S) (r : Round S R) : Prop :=
  Tries st s .send ∧ r.writev ≠ .error EAGAIN ∧
    ∃ p ∈ r.onWrite, p.sock = s ∧ (st.socket s).ready p.dir = true ∧
      ¬ (p.dir = .recv ∧ Tries st s .recv ∧ r.readv = .error EAGAIN)

/-- Both directions transfer some bytes. -/
def BothProgress (st : Net E S R) (s : S) (r : Round S R) : Prop :=
  (Tries st s .recv ∧ Positive r.readv) ∧ Tries st s .send ∧ Positive r.writev

/-- The round takes the first socket off the active list and leaves it a request in a ready
direction, with no callback that activates the socket again and not both directions making
progress. -/
def Stalls (st : Net E S R) : Op E S R → Prop
  | .loop n r => ∃ s ∈ (st.actived.nodes n).head?,
    (Leaves st s .recv r.readv ∨ Leaves st s .send r.writev) ∧
      ¬ WokenByRead st s r ∧ ¬ WokenByWrite st s r ∧ ¬ BothProgress st s r
  | _ => False

/-- No step of the run stalls. -/
def NoStall : Net E S R → List (Op E S R) → Prop
  | _, [] => True
  | st, op :: ops => ¬ Stalls st op ∧
    match step st op with
    | .ok st' => NoStall st' ops
    | .error _ => True

set_option linter.unusedSectionVars false

/-! ## The invariant -/

/-- The lists are well formed, `isactived` tells the members of the active lists, and the pending
lists are `xp`. -/
structure Inv (st : Net E S R) (xp : Dir × S → List R) : Prop where
  actived : ∃ xa, st.actived.Represents xa ∧
    ∀ e s, s ∈ xa e ↔ (st.socket s).isactived = true ∧ (st.socket s).engine = some e
  idle : ∀ s, (st.socket s).isactived = false → st.actived.next s = none
  pending : st.pending.Represents xp
  free : ∀ io, (∀ l, io ∉ xp l) → st.pending.next io = none

variable {st : Net E S R} {xp : Dir × S → List R} {s : S} {d : Dir}

theorem inv_start (engine : S → Option E) : Inv (start engine : Net E S R) fun _ => [] where
  actived := ⟨fun _ => [], ⟨fun _ => trivial, fun _ => rfl, fun _ => List.nodup_nil,
    fun _ _ _ => List.disjoint_nil_left _⟩, by simp [start]⟩
  idle _ _ := rfl
  pending := ⟨fun _ => trivial, fun _ => rfl, fun _ => List.nodup_nil,
    fun _ _ _ => List.disjoint_nil_left _⟩
  free _ _ := rfl

namespace Inv

theorem size (I : Inv st xp) (l : Dir × S) : (st.pending.list l).size = (xp l).length := by
  rw [I.pending.list]

theorem mem_nodes (I : Inv st xp) (e : E) (s : S) :
    s ∈ st.actived.nodes e ↔ (st.socket s).isactived = true ∧ (st.socket s).engine = some e := by
  obtain ⟨xa, hxa, hmem⟩ := I.actived
  rw [hxa.nodes, hmem]

/-- Under the invariant only `isactived` matters for a socket not to be lost. -/
theorem noneLost_iff (I : Inv st xp) :
    NoneLost st ↔ ∀ s e, (st.socket s).engine = some e →
      ∀ d, (st.socket s).ready d = true → xp (d, s) ≠ [] → (st.socket s).isactived = true := by
  have hempty : ∀ l, st.pending.linkListIsEmpty l = false ↔ xp l ≠ [] := by
    intro l
    rw [I.pending.isEmpty, List.isEmpty_eq_false_iff]
  simp only [NoneLost, hempty, I.mem_nodes]
  constructor
  · intro h s e he d hd hne
    cases d with
    | recv => exact (h s e he (.inl ⟨hd, hne⟩)).1
    | send => exact (h s e he (.inr ⟨hd, hne⟩)).1
  · rintro h s e he (⟨hd, hne⟩ | ⟨hd, hne⟩)
    · exact ⟨h s e he .recv hd hne, h s e he .recv hd hne, he⟩
    · exact ⟨h s e he .send hd hne, h s e he .send hd hne, he⟩

/-- Changing the ready flags of a socket. -/
theorem setReady (I : Inv st xp) (s : S) (b : Bool) (d : Dir) :
    Inv (st.setSocket s ((st.socket s).setReady b d)) xp := by
  have hact : ∀ t, ((st.setSocket s ((st.socket s).setReady b d)).socket t).isactived =
      (st.socket t).isactived ∧ ((st.setSocket s ((st.socket s).setReady b d)).socket t).engine =
      (st.socket t).engine := by
    intro t
    rcases eq_or_ne t s with rfl | ht
    · simp [setSocket]
    · simp [setSocket, Function.update_of_ne ht]
  obtain ⟨xa, hxa, hmem⟩ := I.actived
  refine ⟨⟨xa, hxa, fun e t => ?_⟩, fun t ht => I.idle t ?_, I.pending, I.free⟩
  · rw [hmem, (hact t).1, (hact t).2]
  · rwa [← (hact t).1]

/-- Putting a socket in the active list of its engine. -/
theorem activate (I : Inv st xp) {e : E} (hs : (st.socket s).isactived = false)
    (he : (st.socket s).engine = some e) :
    ∃ st', st.activate e s = .ok st' ∧ Inv st' xp ∧
      st'.socket = Function.update st.socket s { st.socket s with isactived := true } := by
  obtain ⟨xa, hxa, hmem⟩ := I.actived
  have hout : ∀ e', s ∉ xa e' := by
    intro e' h
    simp [(hmem e' s).mp h] at hs
  obtain ⟨m', hpush, hm', hframe⟩ := hxa.pushBack e hout (I.idle s hs)
  refine ⟨{ st.setSocket s { st.socket s with isactived := true } with actived := m' }, ?_, ?_, rfl⟩
  · rw [Net.activate, hpush]
    rfl
  refine ⟨⟨_, hm', fun e' t => ?_⟩, fun t ht => ?_, I.pending, I.free⟩
  · rcases eq_or_ne t s with rfl | hts
    · rcases eq_or_ne e' e with rfl | hee
      · simp [setSocket, he]
      · simp [setSocket, he, Function.update_of_ne hee, hout, hee.symm]
    · have hmem' : t ∈ Function.update xa e (xa e ++ [s]) e' ↔ t ∈ xa e' := by
        rcases eq_or_ne e' e with rfl | hee
        · simp [hts]
        · rw [Function.update_of_ne hee]
      rw [hmem', hmem]
      simp [setSocket, Function.update_of_ne hts]
  · rcases eq_or_ne t s with rfl | hts
    · simp [setSocket] at ht
    · simp only [setSocket, Function.update_of_ne hts] at ht
      refine (hframe t fun e' h => ?_).trans (I.idle t ht)
      simp [(hmem e' t).mp h] at ht

/-- Taking the first socket off an active list. -/
theorem popActived (I : Inv st xp) (n : E) :
    (st.actived.nodes n).head? = none ∧ st.actived.linkListIsEmpty n = true ∧
        st.actived.linkListPop n = .ok (none, st.actived) ∨
      ∃ s m', (st.actived.nodes n).head? = some s ∧ st.actived.linkListIsEmpty n = false ∧
        st.actived.linkListPop n = .ok (some s, m') ∧ (st.socket s).engine = some n ∧
        Inv { st.setSocket s { st.socket s with isactived := false } with actived := m' } xp := by
  obtain ⟨xa, hxa, hmem⟩ := I.actived
  rw [hxa.nodes, hxa.isEmpty]
  cases hl : xa n with
  | nil => exact .inl ⟨rfl, rfl, hxa.pop_nil hl⟩
  | cons s ys =>
    obtain ⟨m', hpop, hm', hnone, hframe⟩ := hxa.pop hl
    have hsn := (hmem n s).mp (by rw [hl]; exact List.mem_cons_self)
    have hnodup := hxa.nodup n
    rw [hl] at hnodup
    refine .inr ⟨s, m', rfl, rfl, hpop, hsn.2, ⟨_, hm', fun e t => ?_⟩, fun t ht => ?_, I.pending,
      I.free⟩
    · rcases eq_or_ne t s with rfl | hts
      · have hgone : t ∉ Function.update xa n ys e := by
          rcases eq_or_ne e n with rfl | hen
          · simpa using (List.nodup_cons.mp hnodup).1
          · rw [Function.update_of_ne hen, hmem]
            simp [hsn.2, hen.symm]
        simp [setSocket, hgone]
      · have hmem' : t ∈ Function.update xa n ys e ↔ t ∈ xa e := by
          rcases eq_or_ne e n with rfl | hen
          · simp [hl, hts]
          · rw [Function.update_of_ne hen]
        rw [hmem', hmem]
        simp [setSocket, Function.update_of_ne hts]
    · rcases eq_or_ne t s with rfl | hts
      · exact hnone
      · refine (hframe t hts).trans (I.idle t ?_)
        simpa [setSocket, Function.update_of_ne hts] using ht

end Inv

/-! ## Posting requests -/

/-- What posting the requests `ps` does: they are queued, and a bound socket that gets one in a
ready direction is activated. -/
structure Posted (st st' : Net E S R) (xp xp' : Dir × S → List R) (ps : List (Post S R)) :
    Prop where
  engine : ∀ t, (st'.socket t).engine = (st.socket t).engine
  ready : ∀ t d, (st'.socket t).ready d = (st.socket t).ready d
  isactived : ∀ t, (st'.socket t).isactived = true ↔ (st.socket t).isactived = true ∨
    ∃ p ∈ ps, p.sock = t ∧ (st.socket t).engine ≠ none ∧ (st.socket t).ready p.dir = true
  queue : ∀ l, xp' l = xp l ++ (ps.filter fun p => (p.dir, p.sock) = l).map Post.io

theorem Posted.cons {st₁ st₂ : Net E S R} {xp₁ xp₂ : Dir × S → List R} {p : Post S R}
    {ps : List (Post S R)} (h₁ : Posted st st₁ xp xp₁ [p]) (h₂ : Posted st₁ st₂ xp₁ xp₂ ps) :
    Posted st st₂ xp xp₂ (p :: ps) where
  engine t := (h₂.engine t).trans (h₁.engine t)
  ready t d := (h₂.ready t d).trans (h₁.ready t d)
  isactived t := by
    rw [h₂.isactived, h₁.isactived, h₁.engine]
    simp only [h₁.ready, List.mem_cons, exists_eq_or_imp, List.not_mem_nil, false_and,
      exists_false, false_or, or_assoc]
  queue l := by
    rw [h₂.queue, h₁.queue, List.append_assoc, ← List.map_append, ← List.filter_append]
    rfl

/-- **A post** of a request that is in no list. -/
theorem post_spec (I : Inv st xp) {p : Post S R} (hp : AllowedPost st p) :
    ∃ st' xp', st.post p = .ok st' ∧ Inv st' xp' ∧ Posted st st' xp xp' [p] := by
  obtain ⟨d, s, io⟩ := p
  have hout : ∀ l, io ∉ xp l := fun l => I.pending.nodes l ▸ hp l
  obtain ⟨m', hpush, hm', hframe⟩ := I.pending.pushBack (d, s) hout (I.free io hout)
  have I' : Inv { st with pending := m' } (Function.update xp (d, s) (xp (d, s) ++ [io])) := by
    refine ⟨I.actived, I.idle, hm', fun a ha => ?_⟩
    have hold : ∀ l, a ∉ xp l := by
      intro l hl
      refine ha l ?_
      rcases eq_or_ne l (d, s) with rfl | hne
      · simp [hl]
      · rwa [Function.update_of_ne hne]
    exact (hframe a hold).trans (I.free a hold)
  have hqueue : ∀ l, Function.update xp (d, s) (xp (d, s) ++ [io]) l =
      xp l ++ ([(⟨d, s, io⟩ : Post S R)].filter fun p => (p.dir, p.sock) = l).map Post.io := by
    intro l
    rcases eq_or_ne l (d, s) with rfl | hne
    · simp
    · simp [Function.update_of_ne hne, hne.symm]
  have hpost : st.post ⟨d, s, io⟩ = (wsaIo d st (some s) io false (.error EAGAIN) >>=
      fun r => pure r.2.2) := by
    cases d <;> rfl
  rw [hpost]
  simp only [wsaIo, Bool.false_eq_true, if_false, hpush, Exec.ok_bind]
  by_cases hact : (∃ e, (st.socket s).engine = some e) ∧ (st.socket s).ready d = true ∧
      (st.socket s).isactived = false
  · obtain ⟨⟨e, he⟩, hready, hidle⟩ := hact
    obtain ⟨st', hst', I'', hsock⟩ := I'.activate (s := s) hidle he
    refine ⟨st', _, ?_, I'', fun t => ?_, fun t d' => ?_, fun t => ?_, hqueue⟩
    · simp [he, hready, hidle, hst']
    all_goals
      rw [hsock]
      rcases eq_or_ne t s with rfl | hts
    · simp
    · simp [Function.update_of_ne hts]
    · cases d' <;> simp [Socket.ready]
    · simp [Function.update_of_ne hts]
    · simp [he, hready]
    · simp [Function.update_of_ne hts, hts.symm]
  · refine ⟨{ st with pending := m' }, _, ?_, I', fun _ => rfl, fun _ _ => rfl, fun t => ?_, hqueue⟩
    · cases he : (st.socket s).engine with
      | none => simp
      | some e =>
        have hno : ((st.socket s).ready d && !(st.socket s).isactived) = false := by
          by_contra h
          simp only [Bool.not_eq_false, Bool.and_eq_true, Bool.not_eq_true'] at h
          exact hact ⟨⟨e, he⟩, h⟩
        simp [hno]
    · constructor
      · exact .inl
      · rintro (h | ⟨p, hp, rfl, he, hr⟩)
        · exact h
        · obtain rfl := List.mem_singleton.mp hp
          by_contra hidle
          exact hact ⟨Option.ne_none_iff_exists'.mp he, hr, by simpa using hidle⟩

/-- **The posts of a callback.** -/
theorem postAll_spec {ps : List (Post S R)} (I : Inv st xp) (hp : AllowedPosts st ps) :
    ∃ st' xp', st.postAll ps = .ok st' ∧ Inv st' xp' ∧ Posted st st' xp xp' ps := by
  induction ps generalizing st xp with
  | nil => exact ⟨st, xp, rfl, I, fun _ => rfl, fun _ _ => rfl, fun _ => by simp, fun _ => by simp⟩
  | cons p ps ih =>
    obtain ⟨st₁, xp₁, hpost, I₁, h₁⟩ := post_spec I hp.1
    have hrest : AllowedPosts st₁ ps := by
      have := hp.2
      rwa [hpost] at this
    obtain ⟨st₂, xp₂, hall, I₂, h₂⟩ := ih I₁ hrest
    refine ⟨st₂, xp₂, ?_, I₂, h₁.cons h₂⟩
    rw [postAll, hpost, Exec.ok_bind, hall]

/-! ## Trying a request -/

/-- What `_recv` or `_send` does to the sockets: a request that blocks clears the flag, and the
callback's posts activate sockets. The queue of a socket that is ready and not activated has lost
the request tried, and no other has changed. -/
structure Tried (st st' : Net E S R) (xp xp' : Dir × S → List R) (s : S) (d : Dir)
    (result : IoResult) (ps : List (Post S R)) : Prop where
  engine : ∀ t, (st'.socket t).engine = (st.socket t).engine
  ready : ∀ t d', (st'.socket t).ready d' = true ↔ (st.socket t).ready d' = true ∧
    ¬ (t = s ∧ d' = d ∧ Tries st s d ∧ result = .error EAGAIN)
  isactived : ∀ t, (st'.socket t).isactived = true ↔ (st.socket t).isactived = true ∨
    (Tries st s d ∧ result ≠ .error EAGAIN) ∧
      ∃ p ∈ ps, p.sock = t ∧ (st.socket t).engine ≠ none ∧ (st.socket t).ready p.dir = true
  queue : ∀ t d', (st'.socket t).ready d' = true → (st.socket t).engine ≠ none →
    (st'.socket t).isactived = false →
    xp' (d', t) = if (d', t) = (d, s) then (xp (d, s)).tail else xp (d', t)

/-- Taking the first request of a queue. -/
theorem Inv.popPending (I : Inv st xp) {l : Dir × S} {io : R} {ys : List R} (hl : xp l = io :: ys) :
    ∃ m', st.pending.linkListPop l = .ok (some io, m') ∧
      Inv { st with pending := m' } (Function.update xp l ys) ∧
      ∀ k, io ∉ Function.update xp l ys k := by
  obtain ⟨m', hpop, hm', hnone, hframe⟩ := I.pending.pop hl
  have hnodup := I.pending.nodup l
  rw [hl] at hnodup
  refine ⟨m', hpop, ⟨I.actived, I.idle, hm', fun a ha => ?_⟩, fun k => ?_⟩
  · rcases eq_or_ne a io with rfl | haio
    · exact hnone
    · refine (hframe a haio).trans (I.free a fun k hk => ha k ?_)
      rcases eq_or_ne k l with rfl | hkl
      · rw [hl] at hk
        simpa [haio] using hk
      · rwa [Function.update_of_ne hkl]
  · rcases eq_or_ne k l with rfl | hkl
    · simpa using (List.nodup_cons.mp hnodup).1
    · rw [Function.update_of_ne hkl]
      exact fun hk => I.pending.disjoint k l hkl hk (by rw [hl]; exact List.mem_cons_self)

theorem tryIo_idle (I : Inv st xp) (result : IoResult) (htry : ¬ Tries st s d) :
    tryIo d st s result = .ok (-1, false, st) := by
  rw [tryIo]
  split_ifs with hready
  · have hnil : xp (d, s) = [] := by
      by_contra hne
      refine htry ⟨hready, ?_⟩
      rw [I.size]
      simpa using hne
    rw [I.pending.pop_nil hnil]
    rfl
  · rfl

/-- A request that blocks is put to the front of its queue, and the flag is cleared. -/
theorem rawIo_blocked (I : Inv st xp) {io : R} (hout : ∀ l, io ∉ xp l) (d : Dir) (s : S) :
    ∃ st', rawIo d st s io (.error EAGAIN) = .ok (-1, -1, EAGAIN, st') ∧
      Inv st' (Function.update xp (d, s) (io :: xp (d, s))) ∧
      st'.socket = Function.update st.socket s ((st.socket s).setReady false d) := by
  obtain ⟨m', hpush, hm', hframe⟩ := I.pending.pushFront (d, s) hout (I.free io hout)
  have I' := I.setReady s false d
  refine ⟨{ st.setSocket s ((st.socket s).setReady false d) with pending := m' }, ?_,
    ⟨I'.actived, I'.idle, hm', fun a ha => ?_⟩, rfl⟩
  · simp only [rawIo, if_true, hpush, Exec.ok_bind]
    rfl
  · have hself := ha (d, s)
    rw [Function.update_self, List.mem_cons, not_or] at hself
    have hold : ∀ k, a ∉ xp k := by
      intro k
      rcases eq_or_ne k (d, s) with rfl | hk
      · exact hself.2
      · have := ha k
        rwa [Function.update_of_ne hk] at this
    exact (hframe a hold hself.1).trans (I.free a hold)

/-- A request that blocks goes back to the front of its queue, and the flag is cleared. -/
theorem tryIo_blocked (I : Inv st xp) (htry : Tries st s d) :
    ∃ st', tryIo d st s (.error EAGAIN) = .ok (-1, false, st') ∧ Inv st' xp ∧
      st'.socket = Function.update st.socket s ((st.socket s).setReady false d) := by
  obtain ⟨hready, hne⟩ := htry
  rw [I.size] at hne
  obtain ⟨io, ys, hl⟩ := List.exists_cons_of_length_pos (Nat.pos_of_ne_zero hne)
  obtain ⟨m₁, hpop, I₁, hout⟩ := I.popPending hl
  obtain ⟨st', hraw, I', hsocket⟩ := rawIo_blocked I₁ hout d s
  rw [Function.update_self, Function.update_idem, ← hl, Function.update_eq_self] at I'
  refine ⟨st', ?_, I', hsocket⟩
  simp only [tryIo, hready, if_true, hpop, Exec.ok_bind, hraw]
  rfl

/-- Any other answer takes the request off its queue, and the callback is called. -/
theorem tryIo_called (I : Inv st xp) (htry : Tries st s d) {result : IoResult}
    (hres : result ≠ .error EAGAIN) :
    ∃ ret m', tryIo d st s result = .ok (ret, true, { st with pending := m' }) ∧
      Inv { st with pending := m' } (Function.update xp (d, s) (xp (d, s)).tail) ∧
      (0 < ret ↔ Positive result) := by
  obtain ⟨hready, hne⟩ := htry
  rw [I.size] at hne
  obtain ⟨io, ys, hl⟩ := List.exists_cons_of_length_pos (Nat.pos_of_ne_zero hne)
  obtain ⟨m', hpop, I', -⟩ := I.popPending hl
  rw [hl, List.tail_cons]
  cases result with
  | bytes n =>
    refine ⟨n, m', ?_, I', by simp [Positive]⟩
    simp [tryIo, hready, hpop, rawIo]
  | error errno =>
    have herr : errno ≠ EAGAIN := fun h => hres (by rw [h])
    refine ⟨-1, m', ?_, I', by simp [Positive]⟩
    simp [tryIo, hready, hpop, rawIo, herr]

/-- **One request of a direction**, tried if the socket is ready and has one. -/
theorem innerIo_spec (I : Inv st xp) (d : Dir) (s : S) (result : IoResult) {ps : List (Post S R)}
    (hp : AllowedIo d st s result ps) :
    ∃ ret st' xp', innerIo d st s result ps = .ok (ret, st') ∧ Inv st' xp' ∧
      (0 < ret ↔ Tries st s d ∧ Positive result) ∧ Tried st st' xp xp' s d result ps := by
  by_cases htry : Tries st s d
  swap
  · refine ⟨-1, st, xp, ?_, I, by simp [htry], fun _ => rfl, by simp [htry], by simp [htry],
      fun t d' hready he hidle => ?_⟩
    · simp [innerIo, tryIo_idle I result htry]
    · split_ifs with heq
      · obtain ⟨rfl, rfl⟩ := Prod.mk.inj heq
        have hnil : xp (d', t) = [] := by
          by_contra hne
          exact htry ⟨hready, by rw [I.size]; simpa using hne⟩
        rw [hnil]
        rfl
      · rfl
  by_cases hres : result = .error EAGAIN
  · subst hres
    obtain ⟨st', htryIo, I', hsock⟩ := tryIo_blocked I htry
    refine ⟨-1, st', xp, ?_, I', by simp [Positive], fun t => ?_, fun t d' => ?_, fun t => ?_,
      fun t d' hready he hidle => ?_⟩
    · simp [innerIo, htryIo]
    · rw [hsock]
      rcases eq_or_ne t s with rfl | hts
      · simp
      · simp [Function.update_of_ne hts]
    · rw [hsock]
      rcases eq_or_ne t s with rfl | hts
      · by_cases hd : d' = d <;> simp [hd, htry]
      · simp [hts]
    · rw [hsock]
      rcases eq_or_ne t s with rfl | hts
      · simp
      · simp [Function.update_of_ne hts]
    · rw [if_neg]
      rintro heq
      obtain ⟨rfl, rfl⟩ := Prod.mk.inj heq
      simp [hsock] at hready
  · obtain ⟨ret, m', htryIo, I₁, hret⟩ := tryIo_called I htry hres
    have hp' : AllowedPosts { st with pending := m' } ps := by
      rwa [AllowedIo, htryIo] at hp
    obtain ⟨st', xp', hpost, I', hposted⟩ := postAll_spec I₁ hp'
    refine ⟨ret, st', xp', ?_, I', by simp [hret, htry], hposted.engine, fun t d' => ?_,
      fun t => ?_, fun t d' hready he hidle => ?_⟩
    · simp [innerIo, htryIo, hpost]
    · rw [hposted.ready]
      simp [hres]
    · rw [hposted.isactived]
      simp [htry, hres]
    · rw [hposted.ready] at hready
      have hnone : (ps.filter fun p => (p.dir, p.sock) = (d', t)) = [] := by
        rw [List.filter_eq_nil_iff]
        intro p hpmem heq
        obtain ⟨rfl, rfl⟩ := Prod.mk.inj (of_decide_eq_true heq)
        have := (hposted.isactived p.sock).mpr (.inr ⟨p, hpmem, rfl, he, hready⟩)
        simp [this] at hidle
      rw [hposted.queue, hnone, List.map_nil, List.append_nil, Function.update_apply]

/-! ## A round of the loop -/

/-- The socket, if it is bound, is active or has no request in a ready direction. -/
def Fine (st : Net E S R) (xp : Dir × S → List R) (t : S) : Prop :=
  (st.socket t).engine ≠ none → ∀ d, (st.socket t).ready d = true → xp (d, t) ≠ [] →
    (st.socket t).isactived = true

theorem Inv.noneLost_iff_fine (I : Inv st xp) : NoneLost st ↔ ∀ t, Fine st xp t := by
  rw [I.noneLost_iff]
  simp only [Fine, Option.ne_none_iff_exists', forall_exists_index]

theorem Tried.fine {st' : Net E S R} {xp' : Dir × S → List R} {result : IoResult}
    {ps : List (Post S R)} (h : Tried st st' xp xp' s d result ps) {t : S} (ht : t ≠ s)
    (hf : Fine st xp t) : Fine st' xp' t := by
  intro he d' hready hne
  rw [h.engine] at he
  by_contra hidle
  rw [Bool.not_eq_true] at hidle
  rw [h.queue t d' hready he hidle, if_neg (by simp [ht])] at hne
  have hold := hf he d' ((h.ready t d').mp hready).1 hne
  rw [(h.isactived t).mpr (.inl hold)] at hidle
  simp at hidle

theorem tail_ne_nil_iff {xs : List R} : xs.tail ≠ [] ↔ 2 ≤ xs.length := by
  cases xs with
  | nil => simp
  | cons a xs => cases xs <;> simp

/-- What is left of a direction that was tried while the socket was not activated. -/
theorem leaves_iff {st' : Net E S R} {xp' : Dir × S → List R} {result : IoResult}
    (I : Inv st xp)
    (hready : (st'.socket s).ready d = true ↔
      (st.socket s).ready d = true ∧ ¬ (Tries st s d ∧ result = .error EAGAIN))
    (hqueue : (st'.socket s).ready d = true → xp' (d, s) = (xp (d, s)).tail) :
    (st'.socket s).ready d = true ∧ xp' (d, s) ≠ [] ↔ Leaves st s d result := by
  rw [Leaves, I.size]
  constructor
  · rintro ⟨hr, hne⟩
    rw [hqueue hr, tail_ne_nil_iff] at hne
    obtain ⟨hr₀, hno⟩ := hready.mp hr
    exact ⟨hr₀, hne, fun hres => hno ⟨⟨hr₀, by rw [I.size]; omega⟩, hres⟩⟩
  · rintro ⟨hr₀, hlen, hres⟩
    have hr := hready.mpr ⟨hr₀, fun h => hres h.2⟩
    exact ⟨hr, by rw [hqueue hr, tail_ne_nil_iff]; exact hlen⟩

/-- **`Process`** on a socket that is not active: it ends active if a callback woke it, and else has
the requests that the two directions leave. -/
theorem process_spec (I : Inv st xp) (hidle : (st.socket s).isactived = false)
    (he : (st.socket s).engine ≠ none) {r : Round S R} (hp : AllowedProcess st s r) :
    ∃ again st' xp', st.process s r = .ok (again, st') ∧ Inv st' xp' ∧
      (∀ t, (st'.socket t).engine = (st.socket t).engine) ∧
      (∀ t, t ≠ s → Fine st xp t → Fine st' xp' t) ∧
      ((st'.socket s).isactived = true → WokenByRead st s r ∨ WokenByWrite st s r) ∧
      ((st'.socket s).isactived = false → ¬ WokenByRead st s r ∧ ¬ WokenByWrite st s r ∧
        (again = true ↔ BothProgress st s r) ∧
        ((∃ d, (st'.socket s).ready d = true ∧ xp' (d, s) ≠ []) ↔
          Leaves st s .recv r.readv ∨ Leaves st s .send r.writev)) := by
  obtain ⟨re, st₁, xp₁, hrecv, I₁, hre, T₁⟩ := innerIo_spec I .recv s r.readv hp.1
  have hp₂ : AllowedIo .send st₁ s r.writev r.onWrite := by
    have := hp.2
    rwa [innerRecv, hrecv] at this
  obtain ⟨se, st₂, xp₂, hsend, I₂, hse, T₂⟩ := innerIo_spec I₁ .send s r.writev hp₂
  have hread : (st₁.socket s).isactived = true ↔ WokenByRead st s r := by
    rw [T₁.isactived]
    simp [hidle, he, WokenByRead, and_assoc]
  have hready₁ : (st₁.socket s).ready .send = (st.socket s).ready .send := by
    rw [Bool.eq_iff_iff, T₁.ready]
    simp
  -- as long as the socket is not woken, its send queue is the one it began with
  have htries : (st₁.socket s).isactived = false → (Tries st₁ s .send ↔ Tries st s .send) := by
    intro h₁
    rw [Tries, Tries, I₁.size, I.size, hready₁]
    refine and_congr_right fun hr => ?_
    rw [T₁.queue s .send (by rw [hready₁, hr]) he h₁, if_neg (by simp)]
  have hwrite : (st₁.socket s).isactived = false →
      ((st₂.socket s).isactived = true ↔ WokenByWrite st s r) := by
    intro h₁
    rw [T₂.isactived, htries h₁, T₁.engine, h₁]
    simp only [T₁.ready, WokenByWrite, he, and_assoc, Bool.false_eq_true, false_or, ne_eq,
      not_false_eq_true, true_and]
  have hmono : (st₂.socket s).isactived = false → (st₁.socket s).isactived = false := by
    intro h₂
    by_contra h₁
    rw [Bool.not_eq_false] at h₁
    rw [(T₂.isactived s).mpr (.inl h₁)] at h₂
    simp at h₂
  refine ⟨decide (0 < re) && decide (0 < se), st₂, xp₂, ?_, I₂,
    fun t => (T₂.engine t).trans (T₁.engine t), fun t ht hf => T₂.fine ht (T₁.fine ht hf),
    fun h₂ => ?_, fun h₂ => ?_⟩
  · simp only [process, innerRecv, hrecv, Exec.ok_bind, innerSend, hsend]
    rfl
  · cases h₁ : (st₁.socket s).isactived with
    | true => exact .inl (hread.mp h₁)
    | false => exact .inr ((hwrite h₁).mp h₂)
  · have h₁ := hmono h₂
    refine ⟨by rw [← hread, h₁]; simp, by rw [← hwrite h₁, h₂]; simp, ?_, ?_⟩
    · rw [Bool.and_eq_true, decide_eq_true_iff, decide_eq_true_iff, hre, hse, htries h₁]
      rfl
    · have hrecv' : (st₂.socket s).ready .recv = true ∧ xp₂ (.recv, s) ≠ [] ↔
          Leaves st s .recv r.readv := by
        refine leaves_iff I ?_ fun hr => ?_
        · rw [T₂.ready, T₁.ready]
          simp
        · rw [T₂.queue s .recv hr (by rwa [T₁.engine]) h₂, if_neg (by simp),
            T₁.queue s .recv ((T₂.ready s .recv).mp hr).1 he h₁, if_pos rfl]
      have hsend' : (st₂.socket s).ready .send = true ∧ xp₂ (.send, s) ≠ [] ↔
          Leaves st s .send r.writev := by
        refine leaves_iff I ?_ fun hr => ?_
        · rw [T₂.ready, hready₁, htries h₁]
          simp
        · rw [T₂.queue s .send hr (by rwa [T₁.engine]) h₂, if_pos rfl,
            T₁.queue s .send ((T₂.ready s .send).mp hr).1 he h₁, if_neg (by simp)]
      rw [← hrecv', ← hsend']
      constructor
      · rintro ⟨d, hd⟩
        cases d with
        | recv => exact .inl hd
        | send => exact .inr hd
      · rintro (hd | hd)
        · exact ⟨.recv, hd⟩
        · exact ⟨.send, hd⟩

/-- **A round of the loop** returns and keeps every readiness, unless it stalls. -/
theorem epollLoopRound_spec (I : Inv st xp) (hnone : NoneLost st) {n : E} {r : Round S R}
    (ha : Allowed st (.loop n r)) :
    ∃ st' xp', st.epollLoopRound n r = .ok st' ∧ Inv st' xp' ∧
      (NoneLost st' ↔ ¬ Stalls st (.loop n r)) := by
  rcases I.popActived n with ⟨hhead, hempty, -⟩ | ⟨s, m', hhead, hempty, hpop, he, I₀⟩
  · refine ⟨st, xp, ?_, I, by simp [hnone, Stalls, hhead]⟩
    rw [epollLoopRound, hempty, if_pos rfl]
  set st₀ : Net E S R :=
    { st.setSocket s { st.socket s with isactived := false } with actived := m' } with hst₀
  have hsock : st₀.socket s = { st.socket s with isactived := false } := Function.update_self ..
  have hother : ∀ t, t ≠ s → st₀.socket t = st.socket t := fun t ht => Function.update_of_ne ht ..
  have hready : ∀ d, (st₀.socket s).ready d = (st.socket s).ready d := by
    intro d
    rw [hsock]
    cases d <;> rfl
  have hfine : ∀ t, t ≠ s → Fine st₀ xp t := by
    intro t ht
    have := I.noneLost_iff_fine.mp hnone t
    rwa [Fine, ← hother t ht] at this
  have ha₀ : AllowedProcess st₀ s r := by
    rwa [Allowed, AllowedRound, hpop] at ha
  have hidle₀ : (st₀.socket s).isactived = false := by rw [hsock]
  have he₀ : (st₀.socket s).engine = some n := by rw [hsock, he]
  obtain ⟨again, st₁, xp₁, hproc, I₁, heng, hfine₁, hwoken, hleft⟩ :=
    process_spec I₀ hidle₀ (by rw [he₀]; simp) ha₀
  -- the state before the pop gives the same conditions
  have htries : ∀ d, Tries st₀ s d ↔ Tries st s d := by
    intro d
    rw [Tries, hready]
    rfl
  have hstalls : Stalls st (.loop n r) ↔
      (Leaves st₀ s .recv r.readv ∨ Leaves st₀ s .send r.writev) ∧
        ¬ WokenByRead st₀ s r ∧ ¬ WokenByWrite st₀ s r ∧ ¬ BothProgress st₀ s r := by
    simp only [Stalls, hhead, Option.mem_def, Option.some.injEq, exists_eq_left', Leaves,
      WokenByRead, WokenByWrite, BothProgress, htries, hready]
    rfl
  have hround : st.epollLoopRound n r =
      if again && !(st₁.socket s).isactived then st₁.activate n s else .ok st₁ := by
    rw [epollLoopRound, hempty]
    simp only [Bool.false_eq_true, if_false, hpop, Exec.ok_bind, Exec.deref_some]
    change (st₀.process s r >>= _) = _
    rw [hproc, Exec.ok_bind]
    rfl
  have hall : ∀ t, t ≠ s → Fine st₁ xp₁ t := fun t ht => hfine₁ t ht (hfine t ht)
  cases hact : (st₁.socket s).isactived with
  | true =>
    refine ⟨st₁, xp₁, by rw [hround, hact]; simp, I₁, ?_⟩
    rw [I₁.noneLost_iff_fine, hstalls]
    refine iff_of_true (fun t => ?_) fun h => ?_
    · rcases eq_or_ne t s with rfl | ht
      · exact fun _ _ _ _ => hact
      · exact hall t ht
    · rcases hwoken hact with hw | hw
      · exact h.2.1 hw
      · exact h.2.2.1 hw
  | false =>
    obtain ⟨hnr, hnw, hagain, hleaves⟩ := hleft hact
    cases hag : again with
    | true =>
      obtain ⟨st₂, hst₂, I₂, hsock₂⟩ := I₁.activate hact ((heng s).trans he₀)
      refine ⟨st₂, xp₁, by rw [hround, hact, hag]; exact hst₂, I₂, ?_⟩
      rw [I₂.noneLost_iff_fine, hstalls]
      refine iff_of_true (fun t => ?_) fun h => h.2.2.2 (hagain.mp hag)
      rcases eq_or_ne t s with rfl | ht
      · exact fun _ _ _ _ => by rw [hsock₂, Function.update_self]
      · have hf := hall t ht
        rwa [Fine, ← Function.update_of_ne ht { st₁.socket s with isactived := true } st₁.socket,
          ← hsock₂] at hf
    | false =>
      refine ⟨st₁, xp₁, by rw [hround, hact, hag]; rfl, I₁, ?_⟩
      rw [I₁.noneLost_iff_fine, hstalls, ← hleaves]
      have hnot : ¬ BothProgress st₀ s r := by rw [← hagain, hag]; simp
      simp only [hnr, hnw, hnot, not_false_eq_true, and_true, not_exists, not_and, not_not]
      constructor
      · intro hf d hd
        by_contra hne
        have := hf s (by rw [heng, he₀]; simp) d hd hne
        simp [hact] at this
      · intro hno t
        rcases eq_or_ne t s with rfl | ht
        · exact fun _ d hd hne => absurd (hno d hd) hne
        · exact hall t ht

/-! ## Runs -/

/-- A post activates its socket if the socket is ready, and so loses nothing. -/
theorem post_noneLost (I : Inv st xp) (hnone : NoneLost st) {p : Post S R}
    (hp : AllowedPost st p) :
    ∃ st' xp', st.post p = .ok st' ∧ Inv st' xp' ∧ NoneLost st' := by
  obtain ⟨st', xp', hpost, I', h⟩ := post_spec I hp
  refine ⟨st', xp', hpost, I', I'.noneLost_iff_fine.mpr fun t he d hd hne => ?_⟩
  rw [h.engine] at he
  rw [h.ready] at hd
  rw [h.isactived]
  by_cases hold : xp (d, t) = []
  · right
    rw [h.queue, hold, List.nil_append] at hne
    obtain ⟨io, hio⟩ := List.exists_mem_of_ne_nil _ hne
    obtain ⟨q, hq, -⟩ := List.mem_map.mp hio
    obtain ⟨hmem, heq⟩ := List.mem_filter.mp hq
    obtain ⟨rfl, rfl⟩ := Prod.mk.inj (of_decide_eq_true heq)
    exact ⟨q, hmem, rfl, he, hd⟩
  · exact .inl (I.noneLost_iff_fine.mp hnone t he d hd hold)

/-- An event activates its socket if a request waits for it. -/
theorem onActive_noneLost (I : Inv st xp) (hnone : NoneLost st) (d : Dir)
    (he : (st.socket s).engine ≠ none) :
    ∃ st', onActive d st s = .ok st' ∧ Inv st' xp ∧ NoneLost st' := by
  have I₁ := I.setReady s true d
  set st₁ := st.setSocket s ((st.socket s).setReady true d) with hst₁
  have hsock : st₁.socket s = (st.socket s).setReady true d := Function.update_self ..
  have hother : ∀ t, t ≠ s → st₁.socket t = st.socket t := fun t ht => Function.update_of_ne ht ..
  have hold := I.noneLost_iff_fine.mp hnone
  have hfine : ∀ t, t ≠ s → Fine st₁ xp t := by
    intro t ht
    have := hold t
    rwa [Fine, ← hother t ht] at this
  obtain ⟨e, hse⟩ := Option.ne_none_iff_exists'.mp he
  have hse₁ : (st₁.socket s).engine = some e := by rw [hsock, Socket.engine_setReady, hse]
  by_cases hact : (st₁.socket s).isactived = false ∧ xp (d, s) ≠ []
  · obtain ⟨hidle, hne⟩ := hact
    obtain ⟨st₂, hst₂, I₂, hsock₂⟩ := I₁.activate hidle hse₁
    refine ⟨st₂, ?_, I₂, I₂.noneLost_iff_fine.mpr fun t => ?_⟩
    · have hempty : st₁.pending.linkListIsEmpty (d, s) = false := by
        rw [I₁.pending.isEmpty]
        simpa using hne
      rw [onActive, ← hst₁]
      simp [hidle, hempty, hse₁, hst₂]
    · rcases eq_or_ne t s with rfl | ht
      · exact fun _ _ _ _ => by rw [hsock₂, Function.update_self]
      · have hf := hfine t ht
        rwa [Fine, ← Function.update_of_ne ht { st₁.socket s with isactived := true } st₁.socket,
          ← hsock₂] at hf
  · refine ⟨st₁, ?_, I₁, I₁.noneLost_iff_fine.mpr fun t => ?_⟩
    · have hno : (!(st₁.socket s).isactived && !st₁.pending.linkListIsEmpty (d, s)) = false := by
        rw [I₁.pending.isEmpty]
        by_contra h
        simp only [Bool.not_eq_false, Bool.and_eq_true, Bool.not_eq_true',
          List.isEmpty_eq_false_iff] at h
        exact hact h
      rw [onActive, ← hst₁]
      simp [hno]
    · rcases eq_or_ne t s with rfl | ht
      · intro _ d' hd hne
        by_contra hidle
        rw [Bool.not_eq_true] at hidle
        refine hact ⟨hidle, ?_⟩
        rcases eq_or_ne d' d with rfl | hdd
        · exact hne
        · rw [hsock, Socket.ready_setReady, if_neg hdd] at hd
          have := hold t he d' hd hne
          rw [hsock, Socket.isactived_setReady, this] at hidle
          simp at hidle
      · exact hfine t ht

/-- **One step** returns, and it keeps every readiness unless it stalls. -/
theorem step_spec (I : Inv st xp) (hnone : NoneLost st) {op : Op E S R} (ha : Allowed st op) :
    ∃ st' xp', step st op = .ok st' ∧ Inv st' xp' ∧ (NoneLost st' ↔ ¬ Stalls st op) := by
  cases op with
  | post p =>
    obtain ⟨st', xp', hpost, I', h'⟩ := post_noneLost I hnone ha
    exact ⟨st', xp', hpost, I', by simp [h', Stalls]⟩
  | event d s =>
    obtain ⟨st', hevent, I', h'⟩ := onActive_noneLost I hnone d ha
    refine ⟨st', xp, ?_, I', by simp [h', Stalls]⟩
    cases d <;> exact hevent
  | loop n r => exact epollLoopRound_spec I hnone ha

theorem keeps_iff_noStall_of_inv {ops : List (Op E S R)} (I : Inv st xp) (hnone : NoneLost st)
    (ha : AllowedRun st ops) : Keeps st ops ↔ NoStall st ops := by
  induction ops generalizing st xp with
  | nil => simp [Keeps, NoStall, hnone]
  | cons op ops ih =>
    obtain ⟨st', xp', hstep, I', hiff⟩ := step_spec I hnone ha.1
    have ha' : AllowedRun st' ops := by
      have := ha.2
      rwa [hstep] at this
    simp only [Keeps, NoStall, hnone, hstep, true_and]
    constructor
    · rintro ⟨st₂, heq, hrest⟩
      obtain rfl := Except.ok.inj heq
      have hnone' : NoneLost st' := by
        cases ops with
        | nil => exact hrest
        | cons _ _ => exact hrest.1
      exact ⟨hiff.mp hnone', (ih I' hnone' ha').mp hrest⟩
    · rintro ⟨hno, hrest⟩
      exact ⟨st', rfl, (ih I' (hiff.mpr hno) ha').mpr hrest⟩

omit [DecidableEq E] [DecidableEq S] [DecidableEq R] in
theorem noneLost_start (engine : S → Option E) : NoneLost (start engine : Net E S R) := by
  rintro s e - (⟨h, -⟩ | ⟨h, -⟩) <;> simp [start] at h

/-! ## Deciding the conditions -/

section Decide

variable [Fintype S]

instance (st : Net E S R) (p : Post S R) : Decidable (AllowedPost st p) :=
  inferInstanceAs (Decidable (∀ l, p.io ∉ st.pending.nodes l))

instance decidableAllowedPosts : (st : Net E S R) → (ps : List (Post S R)) →
    Decidable (AllowedPosts st ps)
  | _, [] => isTrue trivial
  | st, p :: ps => @instDecidableAnd _ _ _ <|
    match st.post p with
    | .ok st' => decidableAllowedPosts st' ps
    | .error _ => isTrue trivial

instance (st : Net E S R) (result : IoResult) (ps : List (Post S R)) :
    Decidable (AllowedIo d st s result ps) := by
  unfold AllowedIo
  exact match tryIo d st s result with
    | .ok (_, true, _) => inferInstance
    | .ok (_, false, _) | .error _ => isTrue trivial

instance (st : Net E S R) (r : Round S R) : Decidable (AllowedProcess st s r) := by
  unfold AllowedProcess
  exact @instDecidableAnd _ _ _ <|
    match innerRecv st s r.readv r.onRead with
    | .ok (_, _) => inferInstance
    | .error _ => isTrue trivial

instance (st : Net E S R) (n : E) (r : Round S R) : Decidable (AllowedRound st n r) := by
  unfold AllowedRound
  exact match st.actived.linkListPop n with
    | .ok (some _, _) => inferInstance
    | .ok (none, _) | .error _ => isTrue trivial

instance (st : Net E S R) : (op : Op E S R) → Decidable (Allowed st op)
  | .post p => inferInstanceAs (Decidable (AllowedPost st p))
  | .event _ s => inferInstanceAs (Decidable ((st.socket s).engine ≠ none))
  | .loop n r => inferInstanceAs (Decidable (AllowedRound st n r))

instance decidableAllowedRun : (st : Net E S R) → (ops : List (Op E S R)) →
    Decidable (AllowedRun st ops)
  | _, [] => isTrue trivial
  | st, op :: ops => @instDecidableAnd _ _ _ <|
    match step st op with
    | .ok st' => decidableAllowedRun st' ops
    | .error _ => isTrue trivial

end Decide

instance (st : Net E S R) : Decidable (Tries st s d) := inferInstanceAs (Decidable (_ ∧ _))

instance : (result : IoResult) → Decidable (Positive result)
  | .bytes n => inferInstanceAs (Decidable (0 < n))
  | .error _ => isFalse id

instance (st : Net E S R) (op : Op E S R) : Decidable (Stalls st op) := by
  cases op <;> unfold Stalls
  · infer_instance
  · infer_instance
  · unfold Leaves WokenByRead WokenByWrite BothProgress
    infer_instance

instance decidableNoStall : (st : Net E S R) → (ops : List (Op E S R)) →
    Decidable (NoStall st ops)
  | _, [] => isTrue trivial
  | st, op :: ops => @instDecidableAnd _ _ _ <|
    match step st op with
    | .ok st' => decidableNoStall st' ops
    | .error _ => isTrue trivial

/-! ## The result -/

/-- **No readiness is lost along a run exactly when no round of it stalls.** -/
theorem keeps_iff_noStall (engine : S → Option E) (ops : List (Op E S R))
    (ha : AllowedRun (start engine) ops) :
    Keeps (start engine : Net E S R) ops ↔ NoStall (start engine : Net E S R) ops :=
  keeps_iff_noStall_of_inv (inv_start engine) (noneLost_start engine) ha

/-- A run with two requests in each direction in which every round makes progress in both. -/
theorem keeps_two_rounds : Keeps (start fun _ => some () : Net Unit (Fin 2) ℕ)
    [.post ⟨.recv, 0, 0⟩, .post ⟨.recv, 0, 1⟩, .event .recv 0, .post ⟨.send, 0, 2⟩, .event .send 0,
      .loop () ⟨.bytes 4, [⟨.send, 1, 3⟩], .bytes 1, [⟨.send, 0, 2⟩]⟩, .event .send 1,
      .loop () ⟨.error EAGAIN, [], .bytes 7, []⟩, .loop () ⟨.bytes 0, [], .bytes 9, []⟩] :=
  (keeps_iff_noStall _ _ (by decide)).2 (by decide)

/-- Two requests wait for a readable socket that has nothing to send: the round serves the first
and forgets the second. -/
theorem not_keeps_second_recv :
    AllowedRun (start fun _ => some () : Net Unit (Fin 1) ℕ)
        [.post ⟨.recv, 0, 0⟩, .post ⟨.recv, 0, 1⟩, .event .recv 0,
          .loop () ⟨.bytes 4, [], .error EAGAIN, []⟩] ∧
      ¬ Keeps (start fun _ => some () : Net Unit (Fin 1) ℕ)
        [.post ⟨.recv, 0, 0⟩, .post ⟨.recv, 0, 1⟩, .event .recv 0,
          .loop () ⟨.bytes 4, [], .error EAGAIN, []⟩] := by
  refine ⟨by decide, ?_⟩
  rw [keeps_iff_noStall_of_inv (inv_start _) (noneLost_start _) (by decide)]
  decide

end Kendylib.Net
