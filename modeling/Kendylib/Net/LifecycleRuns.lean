import Kendylib.Foundations.Run
import Kendylib.Net.Lifecycle

/-!
# The requests of a connection along a run

A request that waits in a queue of the socket has its flag set, as long as the flags are not cleared
from outside: `connection_active_close` clears both, whatever the engine holds. In every run that
does not close a connection actively while a request waits or `SendFinish` is running, a connection
is freed only when the engine holds none of its requests (`freedUnlinked_of_clear`).

A connection whose stream has ended is reported by the handler that finishes last, unless this is
`SendFinish` with nothing left to send, which clears its flag and returns. Every ended connection is
reported, in every state of a run without active closes, exactly when this does not happen
(`alwaysReported_iff_noSilentEnd`).
-/

namespace Kendylib

namespace Net

variable {E : Type} {st st' : Net E Unit Dir} {L : Dir → Bool} {d : Dir}

/-- The requests that wait in the queues of the socket are those of `L`, each in its own queue. -/
structure Queued (st : Net E Unit Dir) (L : Dir → Bool) : Prop where
  represents : st.pending.Represents fun l => if L l.1 then [l.1] else []
  next : ∀ d, L d = false → st.pending.next d = none

theorem Queued.mem_nodes (q : Queued st L) : d ∈ st.pending.nodes (d, ()) ↔ L d = true := by
  rw [q.represents.nodes]
  by_cases h : L d = true <;> simp [h]

theorem Queued.congr (q : Queued st L) (h : st'.pending = st.pending) : Queued st' L :=
  ⟨h ▸ q.represents, fun d hd => by rw [h, q.next d hd]⟩

theorem not_mem_queue (hd : L d = false) (l : Dir × Unit) : d ∉ if L l.1 then [l.1] else [] := by
  split
  · rename_i hl
    rw [List.mem_singleton]
    rintro rfl
    rw [hd] at hl
    cases hl
  · exact List.not_mem_nil

theorem update_queue (d : Dir) (b : Bool) :
    Function.update (fun l : Dir × Unit => if L l.1 then [l.1] else []) (d, ()) (if b then [d] else []) =
      fun l => if Function.update L d b l.1 then [l.1] else [] := by
  funext ⟨d', u⟩
  by_cases h : d' = d
  · subst h
    simp
  · simp [h]

/-- A request that does not wait is put into its queue, at the end or in front. -/
theorem Queued.push (q : Queued st L) (hd : L d = false) {m : Lists (Dir × Unit) Dir}
    (h : st.pending.linkListPushBack (d, ()) d = .ok m ∨
      st.pending.linkListPushFront (d, ()) d = .ok m) :
    Queued { st with pending := m } (Function.update L d true) := by
  have hnot := not_mem_queue hd
  have hqueue : (if L d then [d] else []) = [] := by simp [hd]
  have hnext : ∀ d', Function.update L d true d' = false → d' ≠ d ∧ L d' = false := by
    intro d' h'
    by_cases heq : d' = d
    · simp [heq] at h'
    · exact ⟨heq, by rwa [Function.update_of_ne heq] at h'⟩
  obtain h | h := h
  · obtain ⟨m', hm', r, hkeep⟩ := q.represents.pushBack (d, ()) hnot (q.next d hd)
    obtain rfl := Except.ok.inj (hm'.symm.trans h)
    rw [show (if L (d, ()).1 then [(d, ()).1] else []) = [] from hqueue, List.nil_append,
      show [d] = if true then [d] else [] from rfl, update_queue] at r
    refine ⟨r, fun d' h' => ?_⟩
    obtain ⟨-, hd'⟩ := hnext d' h'
    exact (hkeep d' (not_mem_queue hd')).trans (q.next d' hd')
  · obtain ⟨m', hm', r, hkeep⟩ := q.represents.pushFront (d, ()) hnot (q.next d hd)
    obtain rfl := Except.ok.inj (hm'.symm.trans h)
    rw [show (if L (d, ()).1 then [(d, ()).1] else []) = [] from hqueue,
      show [d] = if true then [d] else [] from rfl, update_queue] at r
    refine ⟨r, fun d' h' => ?_⟩
    obtain ⟨hne, hd'⟩ := hnext d' h'
    exact (hkeep d' (not_mem_queue hd') hne).trans (q.next d' hd')

theorem Queued.pop_nil (q : Queued st L) (hd : L d = false) :
    st.pending.linkListPop (d, ()) = .ok (none, st.pending) :=
  q.represents.pop_nil (by simp [hd])

theorem Queued.pop (q : Queued st L) (hd : L d = true) :
    ∃ m, st.pending.linkListPop (d, ()) = .ok (some d, m) ∧
      Queued { st with pending := m } (Function.update L d false) := by
  have hqueue : (fun l : Dir × Unit => if L l.1 then [l.1] else []) (d, ()) = d :: [] := by simp [hd]
  obtain ⟨m, hm, r, hn, hkeep⟩ := q.represents.pop hqueue
  have hempty := update_queue (L := L) d false
  rw [if_neg Bool.false_ne_true] at hempty
  rw [hempty] at r
  refine ⟨m, hm, r, fun d' h' => ?_⟩
  by_cases heq : d' = d
  · exact heq ▸ hn
  · rw [Function.update_of_ne heq] at h'
    exact (hkeep d' heq).trans (q.next d' h')

/-- Trying a transfer puts the request back into its queue if it would block. -/
theorem Queued.rawIo (q : Queued st L) (hd : L d = false) {result : IoResult} {a b : ℤ} {c : UInt32}
    (h : rawIo d st () d result = .ok (a, b, c, st')) :
    Queued st' (Function.update L d (result == .error EAGAIN)) ∧
      (decide (0 ≤ a) || c != EAGAIN) = !(result == .error EAGAIN) := by
  have hsame : Function.update L d false = L := by rw [← hd, Function.update_eq_self]
  unfold Net.rawIo at h
  split at h
  · cases h
    exact ⟨by rw [show ((IoResult.bytes _ : IoResult) == .error EAGAIN) = false by simp, hsame]; exact q,
      by simp⟩
  · rename_i errno
    split at h
    · rename_i herr
      obtain ⟨m, hm, h⟩ := Exec.bind_eq_ok.mp h
      cases h
      subst herr
      have q' := q.push hd (.inr hm)
      rw [show ((IoResult.error EAGAIN : IoResult) == .error EAGAIN) = true by simp]
      exact ⟨q'.congr rfl, by simp⟩
    · rename_i herr
      have hne : ((IoResult.error errno : IoResult) == .error EAGAIN) = false := by simp [herr]
      cases h
      rw [hne, hsame]
      exact ⟨q, by simp [herr]⟩

variable [DecidableEq E]

theorem activate_pending {e : E} (h : st.activate e () = .ok st') : st'.pending = st.pending := by
  obtain ⟨m, -, h⟩ := Exec.bind_eq_ok.mp h
  cases h
  rfl

theorem onActive_pending (h : onActive d st () = .ok st') : st'.pending = st.pending := by
  simp only [onActive] at h
  split at h
  · obtain ⟨e, -, h⟩ := Exec.bind_eq_ok.mp h
    rw [activate_pending h]
    rfl
  · cases h
    rfl

/-- `WSARecv` and `WSASend` for a request that does not wait. -/
theorem Queued.wsaIo (q : Queued st L) (hd : L d = false) {now : Bool} {result : IoResult} {a : ℤ}
    {b : UInt32} (h : wsaIo d st (some ()) d now result = .ok (a, b, st')) :
    Queued st' (Function.update L d (!now || result == .error EAGAIN)) := by
  simp only [Net.wsaIo] at h
  split at h
  · rename_i hnow
    obtain ⟨⟨ret, n, err, st₁⟩, hraw, h⟩ := Exec.bind_eq_ok.mp h
    cases h
    simpa [hnow] using (q.rawIo hd hraw).1
  · rename_i hnow
    obtain ⟨m, hm, h⟩ := Exec.bind_eq_ok.mp h
    obtain ⟨st₁, hst₁, h⟩ := Exec.bind_eq_ok.mp h
    cases h
    have q' := q.push hd (.inl hm)
    have hpending : st'.pending = m := by
      split at hst₁
      · split at hst₁
        · exact activate_pending hst₁
        · cases hst₁
          rfl
      · cases hst₁
        rfl
    simpa [hnow] using q'.congr hpending

omit [DecidableEq E] in
/-- `_recv` and `_send` call the handler if they take the request of their direction off its queue
and the transfer would not block. -/
theorem Queued.tryIo (q : Queued st L) {result : IoResult} {a : ℤ} {called : Bool}
    (h : tryIo d st () result = .ok (a, called, st')) :
    (called = true → L d = true ∧ result ≠ .error EAGAIN) ∧
      Queued st' (Function.update L d (L d && !called)) := by
  have hsame : Function.update L d (L d && true) = L := by simp
  unfold Net.tryIo at h
  split at h
  · by_cases hd : L d = true
    · obtain ⟨m, hm, q'⟩ := q.pop hd
      rw [hm] at h
      simp only [Exec.ok_bind] at h
      obtain ⟨⟨ret, n, err, st₁⟩, hraw, h⟩ := Exec.bind_eq_ok.mp h
      cases h
      obtain ⟨q'', hcall⟩ := q'.rawIo (Function.update_self ..) hraw
      rw [Function.update_idem] at q''
      rw [hcall]
      refine ⟨fun hc => ⟨hd, ?_⟩, by simpa [hd] using q''⟩
      rintro rfl
      simp at hc
    · rw [Bool.not_eq_true] at hd
      rw [q.pop_nil hd] at h
      cases h
      exact ⟨nofun, by simpa using q⟩
  · cases h
    exact ⟨nofun, by simpa using q⟩

end Net

namespace Life

variable {E : Type} {s s' : Life E} {L : Dir → Bool} {d : Dir}

/-! ## Flags and queues -/

/-- A handler has the request of a direction: it was taken off its queue and not put back. -/
def Taken (s : Life E) (d : Dir) : Prop :=
  s.handler = .more d ∨ ∃ r, r ≠ .error EAGAIN ∧ s.handler = .finish d r

/-- The flags are in step with the queues, which hold the requests of `L`. -/
structure InStep (s : Life E) (L : Dir → Bool) : Prop where
  queued : s.net.Queued L
  used : ∀ d, L d = true → s.isUsed d = true
  apart : ∀ d, s.Taken d → L d = false
  send : s.Taken .send → s.isUsed .send = true
  started : L .recv = true ∨ s.Taken .recv → s.started = true

theorem not_taken_idle (h : s.handler = .idle) : ¬ s.Taken d := by
  rintro (h' | ⟨r, -, h'⟩) <;> rw [h] at h' <;> cases h'

theorem taken_more (h : s.handler = .more d) : s.Taken d := .inl h

theorem taken_finish {r : IoResult} (hr : r ≠ .error EAGAIN) (h : s.handler = .finish d r) :
    s.Taken d := .inr ⟨r, hr, h⟩

theorem Taken.eq_of_more {d' : Dir} (ht : s.Taken d) (h : s.handler = .more d') : d = d' := by
  obtain h' | ⟨r, -, h'⟩ := ht
  · exact Handler.more.inj (h'.symm.trans h)
  · rw [h] at h'
    cases h'

theorem Taken.of_finish {d' : Dir} {r : IoResult} (ht : s.Taken d) (h : s.handler = .finish d' r) :
    d = d' ∧ r ≠ .error EAGAIN := by
  obtain h' | ⟨r', hr', h'⟩ := ht
  · rw [h] at h'
    cases h'
  · obtain ⟨rfl, rfl⟩ := Handler.finish.inj (h'.symm.trans h)
    exact ⟨rfl, hr'⟩

theorem InStep.linked (i : InStep s L) : s.Linked d ↔ L d = true := i.queued.mem_nodes

/-- A step that changes neither flags nor queues, and goes on with the request it has if any. -/
theorem InStep.keep (i : InStep s L) (hnet : s'.net.pending = s.net.pending)
    (hused : s'.isUsed = s.isUsed) (hstarted : s'.started = s.started)
    (htaken : ∀ d, s'.Taken d → s.Taken d) : InStep s' L where
  queued := i.queued.congr hnet
  used d hd := by rw [hused, i.used d hd]
  apart d ht := i.apart d (htaken d ht)
  send ht := by rw [hused, i.send (htaken _ ht)]
  started h := by
    rw [hstarted]
    exact i.started (h.imp id (htaken _))

/-- A request that does not wait is given up, or its flag is cleared while it is in use nowhere. -/
theorem InStep.clear (i : InStep s L) (hnet : s'.net = s.net)
    (hused : ∀ d, s'.isUsed d = s.isUsed d ∨ L d = false) (hstarted : s'.started = s.started)
    (htaken : ∀ d, s'.Taken d → s.Taken d ∧ (d = .send → s'.isUsed .send = s.isUsed .send)) :
    InStep s' L where
  queued := hnet ▸ i.queued
  used d hd := by
    obtain h | h := hused d
    · rw [h, i.used d hd]
    · rw [h] at hd
      cases hd
  apart d ht := i.apart d (htaken d ht).1
  send ht := by
    obtain ⟨ht, h⟩ := htaken _ ht
    rw [h rfl, i.send ht]
  started h := by
    rw [hstarted]
    exact i.started (h.imp id fun ht => (htaken _ ht).1)

/-- A request that does not wait is posted, or tried at once; then the handler has it unless it
would block. -/
theorem InStep.post (i : InStep s L) (hd : L d = false) {b : Bool}
    (hq : s'.net.Queued (Function.update L d b)) (hused : s'.isUsed = Function.update s.isUsed d true)
    (hstarted : s'.started = true ∨ d = .send ∧ s'.started = s.started)
    (htaken : ∀ d', s'.Taken d' → d' = d ∧ b = false ∨ s.Taken d' ∧ d' ≠ d) :
    InStep s' (Function.update L d b) where
  queued := hq
  used d' hd' := by
    rw [hused]
    by_cases h : d' = d
    · rw [h, Function.update_self]
    · rw [Function.update_of_ne h] at hd' ⊢
      exact i.used d' hd'
  apart d' ht := by
    obtain ⟨rfl, rfl⟩ | ⟨ht, hne⟩ := htaken d' ht
    · exact Function.update_self ..
    · rw [Function.update_of_ne hne]
      exact i.apart d' ht
  send ht := by
    rw [hused]
    obtain ⟨rfl, -⟩ | ⟨ht, hne⟩ := htaken _ ht
    · exact Function.update_self ..
    · rw [Function.update_of_ne hne]
      exact i.send ht
  started h := by
    obtain hs | ⟨rfl, hs⟩ := hstarted
    · exact hs
    · rw [hs]
      refine i.started (h.imp (fun h => ?_) fun h => ?_)
      · rwa [Function.update_of_ne (by decide)] at h
      · obtain ⟨h, -⟩ | ⟨h, -⟩ := htaken _ h
        · cases h
        · exact h

variable [DecidableEq E]

theorem wsaIo_eq (q : s.net.Queued L) (hd : L d = false) {now : Bool} {result : IoResult}
    (h : s.wsaIo d now result = .ok s') :
    ∃ net : Net E Unit Dir, net.Queued (Function.update L d (!now || result == .error EAGAIN)) ∧
      s' = { s with net := net } := by
  obtain ⟨⟨a, b, net⟩, hnet, h⟩ := Exec.bind_eq_ok.mp h
  cases h
  exact ⟨net, q.wsaIo hd hnet, rfl⟩

theorem connectionStartRecv_inStep (i : InStep s L) (h : s.connectionStartRecv = .ok s') :
    ∃ L', InStep s' L' := by
  simp only [connectionStartRecv] at h
  split at h
  · cases h
    exact ⟨L, i⟩
  · rename_i hstarted
    -- before the start the request waits nowhere and no handler has it
    have hL : L .recv = false := by
      by_contra hne
      exact hstarted (i.started (.inl (Bool.not_eq_false _ ▸ hne)))
    obtain ⟨net, hq, rfl⟩ := wsaIo_eq (s := ({ s with started := true } : Life E).setUsed .recv true)
      i.queued hL h
    refine ⟨_, i.post hL hq rfl (.inl rfl) fun d' ht => .inr ⟨ht, ?_⟩⟩
    rintro rfl
    exact hstarted (i.started (.inr ht))

theorem connectionSend_inStep (i : InStep s L) {w : Option ℕ} (h : s.connectionSend w = .ok s') :
    ∃ L', InStep s' L' := by
  simp only [connectionSend] at h
  split at h
  · cases h
    exact ⟨L, i.keep rfl rfl rfl fun _ ht => ht⟩
  · rename_i hused
    have hL : L .send = false := by
      by_contra hne
      exact hused (i.used .send (Bool.not_eq_false _ ▸ hne))
    split at h
    · obtain ⟨net, hq, rfl⟩ := wsaIo_eq (s := (s.pushPacket w).setUsed .send true) i.queued hL h
      refine ⟨_, i.post hL hq rfl (.inr ⟨rfl, rfl⟩) fun d' ht => .inr ⟨ht, ?_⟩⟩
      rintro rfl
      exact hused (i.send ht)
    · cases h

/-- `SendFinish` is running. -/
def Sending (s : Life E) : Prop := s.handler = .more .send ∨ ∃ r, s.handler = .finish .send r

instance (s : Life E) : Decidable s.Sending :=
  match h : s.handler with
  | .more .send => isTrue (.inl h)
  | .finish .send r => isTrue (.inr ⟨r, h⟩)
  | .idle | .more .recv | .finish .recv _ => isFalse (by simp [Sending, h])

omit [DecidableEq E] in
theorem Taken.sending (ht : s.Taken .send) : s.Sending := ht.imp id fun ⟨r, _, h⟩ => ⟨r, h⟩

omit [DecidableEq E] in
theorem connectionActiveClose_inStep (i : InStep s L) (hlinked : ∀ d, ¬ s.Linked d)
    (hsending : ¬ s.Sending) : InStep s.connectionActiveClose L := by
  have hL : ∀ d, L d = false := fun d => by
    by_contra hne
    exact hlinked d (i.linked.mpr (Bool.not_eq_false _ ▸ hne))
  refine i.clear rfl (fun d => .inr (hL d)) rfl fun d ht => ⟨ht, ?_⟩
  rintro rfl
  exact absurd ht.sending hsending

omit [DecidableEq E] in
theorem connectionDestroy_inStep (i : InStep s L) : InStep s.connectionDestroy.2 L := by
  unfold connectionDestroy
  split
  · exact i.keep rfl rfl rfl fun _ ht => ht
  · exact i

omit [DecidableEq E] in
theorem transferFailed_eq {other : Dir} : s.transferFailed d other =
    { s with
      isUsed := Function.update s.isUsed d false
      ended := s.ended || d == .recv
      handler := .idle
      reported := s.reported || !Function.update s.isUsed d false other } := by
  unfold transferFailed setUsed onDisconnect
  dsimp only
  split <;> simp_all

omit [DecidableEq E] in
theorem transferFailed_inStep (i : InStep s L) {other : Dir} (ht : s.Taken d) :
    InStep (s.transferFailed d other) L := by
  rw [transferFailed_eq]
  refine i.clear rfl (fun d' => ?_) rfl fun d' ht' => absurd ht' (not_taken_idle rfl)
  by_cases h : d' = d
  · exact .inr (h ▸ i.apart d ht)
  · exact .inl (Function.update_of_ne h ..)

omit [DecidableEq E] in
theorem recvFinish_inStep (i : InStep s L) {r : IoResult} (hr : s.handler = .finish .recv r)
    (h : s.recvFinish r = .ok s') : InStep s' L := by
  unfold recvFinish at h
  split at h
  · cases h
    exact transferFailed_inStep i (taken_finish (by simp) hr)
  · cases h
    refine i.keep rfl rfl rfl fun d ht => ?_
    rw [ht.eq_of_more rfl]
    exact taken_finish (by simp) hr
  · split at h
    · cases h
      exact i.keep rfl rfl rfl fun d ht => absurd ht (not_taken_idle rfl)
    · rename_i herr
      cases h
      exact transferFailed_inStep i (taken_finish (by simpa using herr) hr)

omit [DecidableEq E] in
theorem sendFinish_inStep (i : InStep s L) {r : IoResult} (hr : s.handler = .finish .send r)
    (h : s.sendFinish r = .ok s') : InStep s' L := by
  unfold sendFinish at h
  split at h
  · cases h
    exact transferFailed_inStep i (taken_finish (by simp) hr)
  · obtain ⟨ws, -, h⟩ := Exec.bind_eq_ok.mp h
    cases h
    refine i.keep rfl rfl rfl fun d ht => ?_
    rw [ht.eq_of_more rfl]
    exact taken_finish (by simp) hr
  · split at h
    · cases h
      exact i.keep rfl rfl rfl fun d ht => absurd ht (not_taken_idle rfl)
    · rename_i herr
      cases h
      exact transferFailed_inStep i (taken_finish (by simpa using herr) hr)

omit [DecidableEq E] in
/-- The next transfer of a handler is tried at once, with the flag of the request set. -/
theorem tryNext_inStep {b : Bool} {result : IoResult} {net : Net E Unit Dir} (i : InStep s L)
    (hmore : s.handler = .more d) (hstarted : d = .recv → s.started = true)
    (hb : b = (result == .error EAGAIN)) (hq : net.Queued (Function.update L d b)) :
    InStep { s.setUsed d true with net := net, handler := .finish d result }
      (Function.update L d b) := by
  refine i.post (i.apart d (taken_more hmore)) hq rfl ?_ fun d' ht => .inl ?_
  · cases d with
    | recv => exact .inl (hstarted rfl)
    | send => exact .inr ⟨rfl, rfl⟩
  · obtain ⟨rfl, hr⟩ := ht.of_finish rfl
    exact ⟨rfl, by simpa [hb] using hr⟩

theorem recvMore_inStep (i : InStep s L) {result : IoResult} (hmore : s.handler = .more .recv)
    (h : s.recvMore result = .ok s') : ∃ L', InStep s' L' := by
  obtain ⟨s₁, hs₁, h⟩ := Exec.bind_eq_ok.mp h
  cases h
  obtain ⟨net, hq, rfl⟩ := wsaIo_eq (s := s.setUsed .recv true) i.queued
    (i.apart .recv (taken_more hmore)) hs₁
  exact ⟨_, tryNext_inStep i hmore (fun _ => i.started (.inr (taken_more hmore))) (by simp) hq⟩

theorem sendMore_inStep (i : InStep s L) {result : IoResult} (hmore : s.handler = .more .send)
    (h : s.sendMore result = .ok s') : ∃ L', InStep s' L' := by
  have hL := i.apart .send (taken_more hmore)
  unfold sendMore at h
  split at h
  · obtain ⟨s₁, hs₁, h⟩ := Exec.bind_eq_ok.mp h
    cases h
    obtain ⟨net, hq, rfl⟩ := wsaIo_eq i.queued hL hs₁
    have hset : s.setUsed .send true = s := by
      rw [setUsed, ← i.send (taken_more hmore), Function.update_eq_self]
    have hnext : InStep { s.setUsed .send true with net := net, handler := .finish .send result } _ :=
      tryNext_inStep i hmore nofun (by simp) hq
    rw [hset] at hnext
    exact ⟨_, hnext⟩
  · cases h
    refine ⟨L, i.clear rfl (fun d => ?_) rfl fun d ht => absurd ht (not_taken_idle rfl)⟩
    by_cases h : d = .send
    · exact .inr (h ▸ hL)
    · exact .inl (Function.update_of_ne h ..)

omit [DecidableEq E] in
theorem ready_inStep (i : InStep s L) {result : IoResult} (h : s.ready d result = .ok s') :
    ∃ L', InStep s' L' := by
  obtain ⟨⟨a, called, net⟩, htry, h⟩ := Exec.bind_eq_ok.mp h
  obtain ⟨hcalled, hq⟩ := i.queued.tryIo htry
  cases h
  -- the handler has the request that was taken off its queue
  have htaken : ∀ d', (({ s with net := net, handler := if called then .finish d result else .idle } :
      Life E).Taken d') → d' = d ∧ called = true := by
    intro d' ht
    cases called with
    | false => exact absurd ht (not_taken_idle rfl)
    | true => exact ⟨(ht.of_finish rfl).1, rfl⟩
  refine ⟨_, hq, fun d' hd' => ?_, fun d' ht => ?_, fun ht => ?_, fun h => ?_⟩
  · by_cases heq : d' = d
    · subst heq
      rw [Function.update_self, Bool.and_eq_true] at hd'
      exact i.used d' hd'.1
    · rw [Function.update_of_ne heq] at hd'
      exact i.used d' hd'
  · obtain ⟨rfl, hc⟩ := htaken d' ht
    simp [hc]
  · obtain ⟨rfl, hc⟩ := htaken _ ht
    exact i.used _ (hcalled hc).1
  · refine i.started (.inl ?_)
    obtain h | h := h
    · by_cases heq : d = .recv
      · subst heq
        rw [Function.update_self, Bool.and_eq_true] at h
        exact h.1
      · rwa [Function.update_of_ne (Ne.symm heq)] at h
    · obtain ⟨rfl, hc⟩ := htaken _ h
      exact (hcalled hc).1

/-- A connection is closed actively only while the engine holds no request of it and `SendFinish`
is not running. -/
def Clear (s : Life E) (op : Op) : Prop :=
  op = .activeClose → (∀ d, ¬ s.Linked d) ∧ ¬ s.Sending

instance (s : Life E) (op : Op) : Decidable (Clear s op) := inferInstanceAs (Decidable (_ → _))

/-- One step keeps the flags in step with the queues. -/
theorem step_inStep (i : InStep s L) {op : Op} (hc : Clear s op) (h : s.step op = .ok s') :
    ∃ L', InStep s' L' := by
  unfold step at h
  split at h
  · cases h
  cases op with
  | startRecv => exact connectionStartRecv_inStep i h
  | push w =>
    cases h
    exact ⟨L, i.keep rfl rfl rfl fun _ ht => ht⟩
  | send w => exact connectionSend_inStep i h
  | activeClose =>
    cases h
    exact ⟨L, connectionActiveClose_inStep i (hc rfl).1 (hc rfl).2⟩
  | destroy =>
    cases h
    exact ⟨L, connectionDestroy_inStep i⟩
  | event d =>
    obtain ⟨net, hnet, h⟩ := Exec.bind_eq_ok.mp h
    cases h
    exact ⟨L, i.keep (Net.onActive_pending hnet) rfl rfl fun _ ht => ht⟩
  | ready d result =>
    dsimp only at h
    split at h
    · exact ready_inStep i h
    · cases h
      exact ⟨L, i⟩
  | resume result =>
    dsimp only [resume] at h
    split at h
    · cases h
      exact ⟨L, i⟩
    · rename_i r hr
      exact ⟨L, recvFinish_inStep i hr h⟩
    · rename_i r hr
      exact ⟨L, sendFinish_inStep i hr h⟩
    · rename_i hmore
      exact recvMore_inStep i hmore h
    · rename_i hmore
      exact sendMore_inStep i hmore h

omit [DecidableEq E] in
theorem connectionCreate_inStep (engine : Option E) :
    InStep (connectionCreate engine) fun _ => false where
  queued := ⟨⟨fun _ => trivial, fun _ => rfl, fun _ => List.nodup_nil,
    fun _ _ _ => List.disjoint_nil_left _⟩, fun _ _ => rfl⟩
  used := nofun
  apart _ ht := absurd ht (not_taken_idle rfl)
  send ht := absurd ht (not_taken_idle rfl)
  started h := by
    obtain h | h := h
    · cases h
    · exact absurd h (not_taken_idle rfl)

/-! ## What a step does -/

/-- What a step does to the connection, whatever happens to the socket. -/
inductive Moves (s : Life E) : Op → Life E → Prop
  | stay {op : Op} (net : Net E Unit Dir) (ws : List ℕ) :
    Moves s op { s with net := net, sendList := ws }
  | startRecv (net : Net E Unit Dir) : s.started = false →
    Moves s .startRecv { s.setUsed .recv true with net := net, started := true }
  | send {w : Option ℕ} (net : Net E Unit Dir) (ws : List ℕ) :
    Moves s (.send w) { s.setUsed .send true with net := net, sendList := ws }
  | activeClose : Moves s .activeClose s.connectionActiveClose
  | destroy : (∀ d, s.isUsed d = false) → Moves s .destroy { s with freed := true }
  | ready {d : Dir} {r : IoResult} (net : Net E Unit Dir) : s.handler = .idle → s.Linked d →
    Moves s (.ready d r) { s with net := net, handler := .finish d r }
  | fail {r : IoResult} (d other : Dir) (result : IoResult) : result ≠ .error EAGAIN → d ≠ other →
    s.handler = .finish d result → Moves s (.resume r) (s.transferFailed d other)
  | block {r : IoResult} (d : Dir) : s.handler = .finish d (.error EAGAIN) →
    Moves s (.resume r) { s with handler := .idle }
  | advance {r : IoResult} (d : Dir) (n : ℕ) (ws : List ℕ) : s.handler = .finish d (.bytes (n + 1)) →
    Moves s (.resume r) { s with handler := .more d, sendList := ws }
  | retry {r : IoResult} (d : Dir) (net : Net E Unit Dir) : s.handler = .more d →
    (d = .send → s.prepareSend = true) →
    Moves s (.resume r)
      { s with
        net := net
        handler := .finish d r
        isUsed := Function.update s.isUsed d (d == .recv || s.isUsed d) }
  | drained {r : IoResult} : s.handler = .more .send → s.prepareSend = false →
    Moves s (.resume r) { s.setUsed .send false with handler := .idle }

theorem wsaIo_net {now : Bool} {result : IoResult} (h : s.wsaIo d now result = .ok s') :
    ∃ net, s' = { s with net := net } := by
  obtain ⟨⟨a, b, net⟩, -, h⟩ := Exec.bind_eq_ok.mp h
  cases h
  exact ⟨net, rfl⟩

theorem resume_moves {r : IoResult} (h : s.resume r = .ok s') : Moves s (.resume r) s' := by
  unfold resume at h
  split at h
  · cases h
    exact .stay s.net s.sendList
  · rename_i result hr
    unfold recvFinish at h
    split at h
    · cases h
      exact .fail .recv .send _ (by simp) (by decide) hr
    · cases h
      exact .advance .recv _ s.sendList hr
    · split at h
      · rename_i herr
        cases h
        exact .block .recv (herr ▸ hr)
      · rename_i herr
        cases h
        exact .fail .recv .send _ (by simpa using herr) (by decide) hr
  · rename_i result hr
    unfold sendFinish at h
    split at h
    · cases h
      exact .fail .send .recv _ (by simp) (by decide) hr
    · obtain ⟨ws, -, h⟩ := Exec.bind_eq_ok.mp h
      cases h
      exact .advance .send _ ws hr
    · split at h
      · rename_i herr
        cases h
        exact .block .send (herr ▸ hr)
      · rename_i herr
        cases h
        exact .fail .send .recv _ (by simpa using herr) (by decide) hr
  · rename_i hmore
    obtain ⟨s₁, hs₁, h⟩ := Exec.bind_eq_ok.mp h
    obtain ⟨net, rfl⟩ := wsaIo_net hs₁
    cases h
    exact .retry .recv net hmore nofun
  · rename_i hmore
    unfold sendMore at h
    split at h
    · rename_i hprepare
      obtain ⟨s₁, hs₁, h⟩ := Exec.bind_eq_ok.mp h
      obtain ⟨net, rfl⟩ := wsaIo_net hs₁
      cases h
      have hmove := Moves.retry (r := r) .send net hmore fun _ => hprepare
      rwa [show (Dir.send == Dir.recv || s.isUsed .send) = s.isUsed .send from rfl,
        Function.update_eq_self] at hmove
    · rename_i hprepare
      cases h
      exact .drained hmore (Bool.not_eq_true _ ▸ hprepare)

theorem step_moves (i : InStep s L) {op : Op} (h : s.step op = .ok s') :
    s.freed = false ∧ Moves s op s' := by
  unfold step at h
  split at h
  · cases h
  rename_i hfreed
  refine ⟨Bool.not_eq_true _ ▸ hfreed, ?_⟩
  cases op with
  | startRecv =>
    simp only [connectionStartRecv] at h
    split at h
    · cases h
      exact .stay s.net s.sendList
    · rename_i hstarted
      obtain ⟨net, rfl⟩ := wsaIo_net h
      exact .startRecv net (Bool.not_eq_true _ ▸ hstarted)
  | push w =>
    cases h
    exact .stay s.net _
  | send w =>
    simp only [connectionSend] at h
    split at h
    · cases h
      exact .stay s.net _
    · split at h
      · obtain ⟨net, rfl⟩ := wsaIo_net h
        exact .send net _
      · cases h
  | activeClose =>
    cases h
    exact .activeClose
  | destroy =>
    cases h
    unfold connectionDestroy
    split
    · rename_i hused
      refine .destroy fun d => ?_
      simp only [Bool.and_eq_true, Bool.not_eq_true'] at hused
      cases d
      · exact hused.1
      · exact hused.2
    · exact .stay s.net s.sendList
  | event d =>
    obtain ⟨net, -, h⟩ := Exec.bind_eq_ok.mp h
    cases h
    exact .stay net s.sendList
  | ready d result =>
    dsimp only at h
    split at h
    · rename_i hidle
      obtain ⟨⟨a, called, net⟩, htry, h⟩ := Exec.bind_eq_ok.mp h
      obtain ⟨hcalled, -⟩ := i.queued.tryIo htry
      cases h
      cases called with
      | false =>
        have hmove : Moves s (.ready d result) { s with net := net, sendList := s.sendList } :=
          .stay net s.sendList
        rw [hidle] at hmove
        exact hmove
      | true => exact .ready net hidle (i.linked.mpr (hcalled rfl).1)
    · cases h
      exact .stay s.net s.sendList
  | resume result => exact resume_moves h

/-! ## Freed connections -/

/-- If the connection has been freed, none of its requests is in a queue of its socket. -/
def FreedUnlinked (s : Life E) : Prop :=
  s.freed = true → ∀ d d' : Dir, d ∉ s.net.pending.nodes (d', ())

instance (s : Life E) : Decidable s.FreedUnlinked := inferInstanceAs (Decidable (_ → _))

/-- The flags are in step with the queues, and cleared if the connection has been freed. -/
def FreedInStep (s : Life E) : Prop :=
  (∃ L, InStep s L) ∧ (s.freed = true → ∀ d, s.isUsed d = false)

omit [DecidableEq E] in
theorem FreedInStep.freedUnlinked (f : FreedInStep s) : FreedUnlinked s := by
  obtain ⟨⟨L, i⟩, hused⟩ := f
  intro hfreed d d' hmem
  rw [i.queued.represents.nodes] at hmem
  split at hmem
  · rename_i hL
    have := i.used d' hL
    rw [hused hfreed d'] at this
    cases this
  · cases hmem

/-- Only `connection_destroy` frees the connection, when both flags are cleared. -/
theorem step_freed (i : InStep s L) {op : Op} (h : s.step op = .ok s') (hfreed : s'.freed = true)
    (d : Dir) : s'.isUsed d = false := by
  obtain ⟨hnot, hmoves⟩ := step_moves i h
  have habsurd : s.freed = true → s'.isUsed d = false := fun h => absurd (h.symm.trans hnot) nofun
  cases hmoves with
  | destroy hused => exact hused d
  | fail d other result hr hother hfinish =>
    rw [transferFailed_eq] at hfreed
    exact habsurd hfreed
  | _ => exact habsurd hfreed

/-- **A connection is freed only when the engine holds no request of it**, in every state of every
run in which it is closed actively only while no request waits and `SendFinish` is not running. -/
theorem freedUnlinked_of_clear (engine : Option E) (ops : List Op)
    (hclear : Exec.EachStep step Clear (connectionCreate engine) ops) :
    Exec.Always step FreedUnlinked (connectionCreate engine) ops := by
  refine Exec.always_of_invariant (I := FreedInStep) (fun s f => f.freedUnlinked) ?_
    ⟨⟨_, connectionCreate_inStep engine⟩, nofun⟩ hclear
  intro s op s' ⟨⟨L, i⟩, _⟩ hc h
  exact ⟨step_inStep i hc h, step_freed i h⟩

/-- A packet is received, the stream ends, and the connection is freed in `_on_disconnect`. -/
theorem freedUnlinked_at_end : Exec.Always step FreedUnlinked (connectionCreate (some ()))
    [.startRecv, .event .recv, .ready .recv (.bytes 8), .resume (.error EAGAIN),
      .resume (.error EAGAIN), .resume (.error EAGAIN), .event .recv, .ready .recv (.bytes 0),
      .resume (.error EAGAIN), .destroy] :=
  freedUnlinked_of_clear _ _ (by decide)

/-- A connection that waits for data is closed actively and freed: its request stays in the queue. -/
theorem not_freedUnlinked_activeClose :
    ¬ Exec.Always step FreedUnlinked (connectionCreate (some ()))
        [.startRecv, .activeClose, .destroy] := by
  decide

/-! ## Ended connections -/

/-- If `RecvFinish` has met the end of the stream or an error, one of the requests is in use or the
connection has been reported. -/
def Reported (s : Life E) : Prop :=
  s.ended = true → s.isUsed .recv = true ∨ s.isUsed .send = true ∨ s.reported = true

/-- `SendFinish` finds nothing left to send when the stream has ended and the connection has not been
reported. -/
def SilentEnd (s : Life E) (op : Op) : Prop :=
  (∃ r, op = .resume r) ∧ s.handler = .more .send ∧ s.prepareSend = false ∧ s.ended = true ∧
    s.reported = false

instance (s : Life E) : Decidable s.Reported := inferInstanceAs (Decidable (_ → _))

instance (s : Life E) (op : Op) : Decidable (SilentEnd s op) :=
  @instDecidableAnd _ _ (match op with
    | .resume r => isTrue ⟨r, rfl⟩
    | .startRecv | .push _ | .send _ | .activeClose | .destroy | .event _ | .ready _ _ =>
      isFalse nofun) inferInstance

/-- Behind the end of the stream nothing is received any more, and the connection is reported or will
be by `SendFinish`. -/
structure EndedInStep (s : Life E) : Prop where
  inStep : ∃ L, InStep s L
  recv : s.ended = true → s.isUsed .recv = false ∧ s.started = true ∧ ¬ s.Taken .recv
  reported : Reported s

omit [DecidableEq E] in
theorem taken_recv_of_finish {r : IoResult} (h : s'.handler = .finish d r) (ht : s'.Taken .recv) :
    d = .recv := (ht.of_finish h).1.symm

theorem step_recv {op : Op} (e : EndedInStep s) (hop : op ≠ .activeClose) (h : s.step op = .ok s')
    (hended : s'.ended = true) :
    s'.isUsed .recv = false ∧ s'.started = true ∧ ¬ s'.Taken .recv := by
  obtain ⟨L, i⟩ := e.inStep
  obtain ⟨-, hmoves⟩ := step_moves i h
  cases hmoves with
  | stay net ws => exact e.recv hended
  | startRecv net hstarted =>
    obtain ⟨-, hs, -⟩ := e.recv hended
    rw [hstarted] at hs
    cases hs
  | send net ws => exact e.recv hended
  | activeClose => exact absurd rfl hop
  | destroy hused => exact e.recv hended
  | @ready d r net hidle hlinked =>
    obtain ⟨hused, hs, -⟩ := e.recv hended
    refine ⟨hused, hs, fun ht => ?_⟩
    obtain rfl := taken_recv_of_finish rfl ht
    have := i.used .recv (i.linked.mp hlinked)
    rw [hused] at this
    cases this
  | fail d other result hr hother hfinish =>
    rw [transferFailed_eq] at hended ⊢
    refine ⟨?_, ?_, not_taken_idle rfl⟩
    · cases d with
      | recv => rfl
      | send => exact (e.recv (by simpa using hended)).1
    · cases d with
      | recv => exact i.started (.inr (taken_finish hr hfinish))
      | send => exact (e.recv (by simpa using hended)).2.1
  | block d hfinish =>
    obtain ⟨hused, hs, -⟩ := e.recv hended
    exact ⟨hused, hs, not_taken_idle rfl⟩
  | advance d n ws hfinish =>
    obtain ⟨hused, hs, htaken⟩ := e.recv hended
    refine ⟨hused, hs, fun ht => htaken ?_⟩
    obtain rfl := ht.eq_of_more rfl
    exact taken_finish (by simp) hfinish
  | retry d net hmore hprepare =>
    obtain ⟨hused, hs, htaken⟩ := e.recv hended
    cases d with
    | recv => exact absurd (taken_more hmore) htaken
    | send => exact ⟨hused, hs, fun ht => nomatch taken_recv_of_finish rfl ht⟩
  | drained hmore hprepare =>
    obtain ⟨hused, hs, -⟩ := e.recv hended
    exact ⟨hused, hs, not_taken_idle rfl⟩

theorem step_reported {op : Op} (e : EndedInStep s) (hop : op ≠ .activeClose)
    (hnot : ¬ SilentEnd s op) (h : s.step op = .ok s') : Reported s' := by
  obtain ⟨L, i⟩ := e.inStep
  obtain ⟨-, hmoves⟩ := step_moves i h
  intro hended
  cases hmoves with
  | startRecv net hstarted => exact .inl rfl
  | send net ws => exact .inr (.inl rfl)
  | activeClose => exact absurd rfl hop
  | fail d other result hr hother hfinish =>
    rw [transferFailed_eq] at hended ⊢
    cases d with
    | recv =>
      obtain rfl : other = .send := by cases other <;> simp_all
      cases hsend : s.isUsed .send <;> simp [hsend]
    | send =>
      obtain rfl : other = .recv := by cases other <;> simp_all
      have hused := (e.recv (by simpa using hended)).1
      simp [hused]
  | retry d net hmore hprepare =>
    cases d with
    | recv => exact .inl rfl
    | send => exact e.reported hended
  | drained hmore hprepare =>
    refine .inr (.inr ?_)
    by_contra hreported
    exact hnot ⟨⟨_, rfl⟩, hmore, hprepare, hended, Bool.not_eq_true _ ▸ hreported⟩
  | _ => exact e.reported hended

theorem step_silentEnd {op : Op} (e : EndedInStep s) (hend : SilentEnd s op)
    (h : s.step op = .ok s') : ¬ Reported s' := by
  obtain ⟨⟨r, rfl⟩, hmore, hprepare, hended, hreported⟩ := hend
  unfold step at h
  split at h
  · cases h
  simp only [resume, hmore, sendMore, hprepare, Bool.false_eq_true, if_false] at h
  cases h
  intro hall
  obtain h | h | h := hall hended
  · exact absurd (h.symm.trans (e.recv hended).1) nofun
  · cases h
  · exact absurd (h.symm.trans hreported) nofun

/-- **A dead connection is reported, exactly if `SendFinish` does not end with nothing left to send
behind it.** In every run without active closes, a connection whose stream has ended has a request in
use or has been reported, in every state, if and only if no round of `SendFinish` finds nothing left
to send when the stream has ended and the connection has not been reported. -/
theorem alwaysReported_iff_noSilentEnd (engine : Option E) (ops : List Op)
    (hclose : Op.activeClose ∉ ops) :
    Exec.Always step Reported (connectionCreate engine) ops ↔
      Exec.EachStep step (fun s op => ¬ SilentEnd s op) (connectionCreate engine) ops := by
  refine Exec.always_iff_eachStep (I := EndedInStep) (A := fun _ op => op ≠ .activeClose)
    (fun s e => e.reported) ?_ ?_ ⟨⟨_, connectionCreate_inStep engine⟩, nofun, nofun⟩
    (Exec.eachStep_of_forall fun op hmem _ heq => hclose (heq ▸ hmem))
  · intro s op s' e hop h hnot
    obtain ⟨L, i⟩ := e.inStep
    exact ⟨step_inStep i (fun heq => absurd heq hop) h, step_recv e hop h,
      step_reported e hop hnot h⟩
  · intro s op s' e _ h hend
    exact step_silentEnd e (not_not.mp hend) h

/-- The stream ends while a packet is being sent, and then the rest of it cannot be sent. -/
theorem alwaysReported_failed_send : Exec.Always step Reported (connectionCreate (some ()))
    [.startRecv, .send (some 8), .event .recv, .ready .recv (.bytes 0), .resume (.error EAGAIN),
      .event .send, .ready .send (.bytes 5), .resume (.error EAGAIN), .resume (.error 32),
      .resume (.error EAGAIN)] :=
  (alwaysReported_iff_noSilentEnd _ _ (by decide)).mpr (by decide)

/-- The stream ends while a packet is being sent, and then all of it is sent. -/
theorem not_alwaysReported_sent : ¬ Exec.Always step Reported (connectionCreate (some ()))
    [.startRecv, .send (some 8), .event .recv, .ready .recv (.bytes 0), .resume (.error EAGAIN),
      .event .send, .ready .send (.bytes 8), .resume (.error EAGAIN), .resume (.error EAGAIN)] := by
  decide

end Life

end Kendylib
