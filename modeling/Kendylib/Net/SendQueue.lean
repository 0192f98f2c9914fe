import Kendylib.Net.Receive
import Kendylib.Net.References

/-!
# Packets that wait to be sent

What `prepare_send` and `update_send_list` do with the packets of a `send_list`. The bytes that a
packet has left to send are on a span of its chain, from `begin_pos` of its first buffer on
(`Waiting`); filling the buffers further does not touch them (`Waiting.grow`).

`prepare_send` collects places at the front of these spans, up to 1024 pieces
(`preparePackets_spec`). The count of a write is taken off the first packet by moving its cursor
(`consumeLoop_spec`), which is the walk that `prepare_send` makes.
-/

namespace Kendylib

open RefHeap Buffer RPacket WPacket
open Held (ownedAll ownedAll_cons mem_ownedAll)

namespace Connection

variable {h h' : Heap} {own own' : Multiset ℕ} {w w' : WPacket} {a b pos pos' n k fuel : ℕ}
  {ps : List (ℕ × ℕ)} {bs : List UInt8} {c : Cell Block} {ws : List WPacket} {vs : List Iovec}
  {rest : List (List UInt8)}

/-- The packet has the bytes `bs` left to send. -/
structure Waiting (h : Heap) (w : WPacket) (bs : List UInt8) : Prop where
  dataSize : w.dataSize = bs.length
  lt : bs.length < 0x100000000
  span : ∃ a ps b pos', w.buf = some a ∧ Span h a w.beginPos ps b pos' ∧ Bytes h ps bs

/-- **The bytes stay** when the buffers of the packet are filled further. -/
theorem Waiting.grow (W : Waiting h w bs) (G : ∀ a, w.buf = some a → GrowsFrom h h' a)
    (S' : Sound h' own') : Waiting h' w bs := by
  obtain ⟨a, ps, b, pos', hbuf, hs, hb⟩ := W.span
  obtain ⟨hs', hsame⟩ := hs.grow (G a hbuf) S'
  exact ⟨W.dataSize, W.lt, a, ps, b, pos', hbuf, hs', hb.congr hsame⟩

theorem Waiting.keep (W : Waiting h w bs) (K : Keeps h h') (S' : Sound h' own')
    (hbuf : ∀ a, w.buf = some a → a ∈ own') : Waiting h' w bs :=
  W.grow (fun a ha => .of_keepsFrom (K.from S'.toExact (S'.live (hbuf a ha)))) S'

/-! ## Preparing a write -/

theorem offeredPlaces_cons {v : Iovec} :
    offeredPlaces (v :: vs) = places v.base.1 v.base.2 v.len ++ offeredPlaces vs := rfl

theorem offeredPlaces_append {us : List Iovec} :
    offeredPlaces (us ++ vs) = offeredPlaces us ++ offeredPlaces vs := List.flatMap_append

theorem prepareBuffers_zero {room : ℕ} {o : Option ℕ} : prepareBuffers h room o pos 0 = .ok [] := by
  cases room with
  | zero => cases o <;> rfl
  | succ room => cases o <;> simp [prepareBuffers]

/-- **The inner loop of `prepare_send`** walks along the span of the packet, to its end or until
there is no room for another piece. -/
theorem prepareBuffers_spec (room : ℕ) (S : Sound h own) (hs : Span h a pos ps b pos') :
    ∃ vs, prepareBuffers h room (some a) pos ps.length = .ok vs ∧ vs.length ≤ room ∧
      offeredPlaces vs <+: ps ∧ (offeredPlaces vs = ps ∨ vs.length = room) ∧
      (0 < room → ps ≠ [] → vs ≠ []) := by
  induction room generalizing a pos ps with
  | zero => exact ⟨[], rfl, le_rfl, List.nil_prefix, .inr rfl, fun h => absurd h (lt_irrefl 0)⟩
  | succ room ih =>
    by_cases hps : ps = []
    · subst hps
      exact ⟨[], prepareBuffers_zero, Nat.zero_le _, List.prefix_rfl, .inl rfl,
        fun _ h => absurd rfl h⟩
    · obtain ⟨c, hc, hpos⟩ := hs.start
      have hwf := S.wf a c hc
      have hsize := hwf.size_le
      have hcap := hwf.lt
      obtain ⟨k, hk⟩ : ∃ k, k = min (c.body.size - pos) ps.length := ⟨_, rfl⟩
      obtain ⟨hcut, -, hnext⟩ := hs.advance hc le_rfl hk
      -- where the span ends with this buffer, nothing is left for the next ones
      have hrest : ∃ vs, prepareBuffers h room c.next 0 (ps.length - k) = .ok vs ∧
          vs.length ≤ room ∧ offeredPlaces vs <+: ps.drop k ∧
          (offeredPlaces vs = ps.drop k ∨ vs.length = room) := by
        have hend : ps.drop k = [] → ∃ vs, prepareBuffers h room c.next 0 (ps.length - k) = .ok vs ∧
            vs.length ≤ room ∧ offeredPlaces vs <+: ps.drop k ∧
            (offeredPlaces vs = ps.drop k ∨ vs.length = room) := by
          intro hnil
          have hzero := congrArg List.length hnil
          rw [List.length_drop, List.length_nil] at hzero
          rw [hzero, hnil]
          exact ⟨[], prepareBuffers_zero, Nat.zero_le _, List.nil_prefix, .inl rfl⟩
        rcases hnext with hlt | ⟨hnil, -⟩ | ⟨-, n, hn, hs'⟩
        · exact hend (List.drop_of_length_le (by omega))
        · exact hend hnil
        · obtain ⟨vs, hvs, hlen, hprefix, hall, -⟩ := ih hs'
          rw [List.length_drop] at hvs
          exact ⟨vs, hn ▸ hvs, hlen, hprefix, hall⟩
      obtain ⟨vs, hvs, hlen, hprefix, hall⟩ := hrest
      refine ⟨⟨(a, pos), k⟩ :: vs, ?_, Nat.succ_le_succ hlen, ?_, ?_, fun _ _ => nofun⟩
      · rw [prepareBuffers, if_neg (by simpa using hps)]
        simp only [get_eq hc, Exec.ok_bind, sub32_of_le hpos (by omega), ← hk, hvs]
        rfl
      · rw [offeredPlaces_cons, hcut]
        exact (List.prefix_append_right_inj _).mpr hprefix
      · refine hall.imp (fun h => ?_) (fun h => by rw [List.length_cons, h])
        rw [offeredPlaces_cons, h]
        exact hcut.symm

/-- The packets have the bytes `rest` left to send. -/
def Queue (h : Heap) : List WPacket → List (List UInt8) → Prop := List.Forall₂ (Waiting h)

/-- The places are in buffers of packets of the queue. -/
def Covers (h : Heap) (ws : List WPacket) (vs : List Iovec) : Prop :=
  ∀ p ∈ offeredPlaces vs, ∃ w ∈ ws, ∃ a, w.buf = some a ∧ InUse h a p

/-- **The outer loop of `prepare_send`** collects bytes from the front of the queue. -/
theorem preparePackets_spec (room : ℕ) (S : Sound h own) (Q : Queue h ws rest) :
    ∃ vs out, preparePackets h room ws = .ok vs ∧ vs.length ≤ room ∧
      Bytes h (offeredPlaces vs) out ∧ out <+: rest.flatten ∧ Covers h ws vs ∧
      (0 < room → (∀ r ∈ rest, r ≠ []) → ws ≠ [] → vs ≠ []) := by
  induction Q generalizing room with
  | nil =>
    exact ⟨[], [], rfl, Nat.zero_le _, rfl, List.prefix_rfl, nofun, fun _ _ h => absurd rfl h⟩
  | @cons w bs ws rest W Q ih =>
    by_cases hroom : room = 0
    · refine ⟨[], [], ?_, Nat.zero_le _, rfl, List.nil_prefix, nofun, fun h => absurd hroom h.ne'⟩
      rw [preparePackets, if_pos hroom]
    · obtain ⟨a, ps, b, pos', hbuf, hs, hb⟩ := W.span
      obtain ⟨us, hus, hlen, hfront, hall, hsome⟩ := prepareBuffers_spec room S hs
      obtain ⟨vs, out, hvs, hlen', hb', hout, hcovers, -⟩ := ih (room - us.length)
      rw [W.dataSize.trans hb.length.symm |>.symm, ← hbuf] at hus
      refine ⟨us ++ vs, bs.take (offeredPlaces us).length ++ out, ?_, ?_, ?_, ?_, ?_, ?_⟩
      · rw [preparePackets, if_neg hroom, hus, Exec.ok_bind, hvs]
        rfl
      · rw [List.length_append]
        omega
      · rw [offeredPlaces_append]
        exact (hb.front hfront).append hb'
      · rw [List.flatten_cons]
        rcases hall with hall | hall
        · rw [hall, hb.length, List.take_length]
          exact (List.prefix_append_right_inj _).mpr hout
        · -- there is no room for pieces of the packets that follow
          rw [hall, Nat.sub_self] at hvs
          have hnone : vs = [] := by
            cases ws with
            | nil => exact (Except.ok.inj hvs).symm
            | cons w ws =>
              rw [preparePackets, if_pos rfl] at hvs
              exact (Except.ok.inj hvs).symm
          rw [hnone] at hb'
          obtain rfl : out = [] := List.eq_nil_of_length_eq_zero hb'.length.symm
          rw [List.append_nil]
          exact (List.take_prefix _ _).trans (List.prefix_append _ _)
      · intro p hp
        rw [offeredPlaces_append, List.mem_append] at hp
        rcases hp with hp | hp
        · exact ⟨w, List.mem_cons_self, a, hbuf, hs.inUse (hfront.mem hp)⟩
        · obtain ⟨w', hw', hused⟩ := hcovers p hp
          exact ⟨w', List.mem_cons_of_mem w hw', hused⟩
      · intro hpos hne _
        have hps : ps ≠ [] := by
          rintro rfl
          exact hne bs List.mem_cons_self (List.eq_nil_of_length_eq_zero hb.length.symm)
        exact List.append_ne_nil_of_left_ne_nil (hsome hpos hps) vs

/-- **`prepare_send`**: there is something to send exactly if a packet waits. -/
theorem prepareSend_spec {conn : Connection} (S : Sound h own) (Q : Queue h conn.sendList rest)
    (hne : ∀ r ∈ rest, r ≠ []) :
    (conn.sendList = [] ∧ prepareSend h conn = .ok (false, conn)) ∨
      ∃ vs out, prepareSend h conn = .ok (true, { conn with wsendbuf := vs }) ∧
        vs.length ≤ maxWbaf ∧ Bytes h (offeredPlaces vs) out ∧ out <+: rest.flatten ∧
        Covers h conn.sendList vs := by
  obtain ⟨vs, out, hvs, hlen, hb, hout, hcovers, hsome⟩ := preparePackets_spec maxWbaf S Q
  rw [prepareSend, hvs, Exec.ok_bind]
  by_cases hnil : conn.sendList = []
  · rw [hnil, preparePackets] at hvs
    obtain rfl := Except.ok.inj hvs
    exact .inl ⟨hnil, rfl⟩
  · obtain ⟨v, us, rfl⟩ := List.exists_cons_of_ne_nil (hsome (by decide) hne hnil)
    exact .inr ⟨v :: us, out, rfl, hlen, hb, hout, hcovers⟩

/-! ## Taking the count of a write off a packet -/

/-- **The inner loop of `update_send_list`** moves the cursor of the packet. -/
theorem consumeLoop_spec (S : Sound h (refs w.buf + own)) (W : Waiting h w bs)
    (hbuf : w.buf = some a) (hn : n < bs.length) (hfuel : h.fresh - a + n < fuel) :
    ∃ h' w', consumeLoop fuel h w n = .ok (h', w') ∧ Sound h' (refs w'.buf + own) ∧
      Waiting h' w' (bs.drop n) ∧ Keeps h h' ∧ w'.writebuf = w.writebuf ∧
      w'.packetSendFinish = w.packetSendFinish := by
  induction fuel generalizing h w bs n a with
  | zero => omega
  | succ fuel ih =>
    rw [consumeLoop]
    by_cases hn0 : n = 0
    · subst hn0
      exact ⟨h, w, rfl, S, W, .refl h, rfl, rfl⟩
    · obtain ⟨x, ps, b, pos', hbuf', hs, hb⟩ := W.span
      obtain rfl : a = x := Option.some.inj (hbuf.symm.trans hbuf')
      obtain ⟨c, hc, hpos⟩ := hs.start
      have hwf := S.wf a c hc
      have hsize := hwf.size_le
      have hcap := hwf.lt
      have hbound := S.bound a c hc
      have hlen := hb.length
      have hdata := W.dataSize
      have hlt := W.lt
      obtain ⟨k, hk⟩ : ∃ k, k = min (c.body.size - w.beginPos) n := ⟨_, rfl⟩
      obtain ⟨hcut, hs', hnext⟩ := hs.advance hc (show n ≤ ps.length by omega) hk
      have hb' := (Bytes.places_append (hcut ▸ hb)).2
      have hrest : (bs.drop k).length = bs.length - k := List.length_drop
      have hdrop : (bs.drop k).drop (n - k) = bs.drop n := by
        rw [List.drop_drop, Nat.add_sub_cancel' (by omega)]
      set w₁ : WPacket := { w with beginPos := w.beginPos + k, dataSize := bs.length - k } with hw₁
      have hderef : Exec.deref w.buf = .ok a := by rw [hbuf, Exec.deref_some]
      rw [if_neg hn0]
      simp only [hderef, Exec.ok_bind, get_eq hc, sub32_of_le hpos (by omega), ← hk, hdata,
        add32_of_lt (show w.beginPos + k < 0x100000000 by omega),
        sub32_of_le (show k ≤ bs.length by omega) hlt]
      by_cases hend : w.beginPos + k < c.body.size
      · rw [if_neg (by omega)]
        have W₁ : Waiting h w₁ (bs.drop k) :=
          ⟨hrest.symm, by omega, a, _, b, pos', hbuf, hs', hb'⟩
        obtain ⟨h', w', hloop, S', W', K', hsame⟩ := ih (n := n - k)
          (show Sound h (refs w₁.buf + own) from S) W₁ hbuf
          (by omega) (by omega)
        exact ⟨h', w', hloop, S', hdrop ▸ W', K', hsame⟩
      · rw [if_pos (by omega)]
        rcases hnext with hnext | ⟨hnil, -⟩ | ⟨-, m, hm, hs''⟩
        · omega
        · have hzero := congrArg List.length hnil
          rw [List.length_drop, List.length_nil] at hzero
          omega
        · obtain ⟨hup, hlive⟩ := S.next_live hc hm
          obtain ⟨h₁, hacq, S₁, K₁⟩ := bufferAcquire_spec S (p := c.next) fun y hy => by
            rw [hm, Option.some.injEq] at hy
            exact hy ▸ hlive
          have hlive₁ : ∃ e, h₁.cell m = some e := S₁.live (by rw [hm]; simp)
          obtain ⟨hs₁, hsame₁⟩ := hs''.grow (.of_keepsFrom (K₁.from S₁.toExact hlive₁)) S₁
          have W₁ : Waiting h₁ { w₁ with beginPos := 0, buf := c.next } (bs.drop k) :=
            ⟨hrest.symm, by omega, m, _, b, pos', hm, hs₁, hb'.congr hsame₁⟩
          have hfresh := K₁.fresh
          obtain ⟨h', w', hloop, S', W', K', hsame⟩ := ih (n := n - k) S₁ W₁ hm
            (by omega) (by omega)
          refine ⟨h', w', ?_, S', hdrop ▸ W', K₁.trans K', hsame⟩
          rw [hacq, Exec.ok_bind]
          exact hloop

/-! ## Rounds -/

theorem Queue.grow (Q : Queue h ws rest) (G : ∀ w ∈ ws, ∀ a, w.buf = some a → GrowsFrom h h' a)
    (S' : Sound h' own') : Queue h' ws rest := by
  induction Q with
  | nil => exact .nil
  | cons W Q ih =>
    exact .cons (W.grow (G _ List.mem_cons_self) S')
      (ih fun w hw => G w (List.mem_cons_of_mem _ hw))

theorem Queue.keep (Q : Queue h ws rest) (K : Keeps h h') (S' : Sound h' (ownedAll ws + own')) :
    Queue h' ws rest := by
  refine Q.grow (fun w hw a ha => .of_keepsFrom (K.from S'.toExact (S'.live ?_))) S'
  exact Multiset.mem_add.mpr (.inl (mem_ownedAll hw (by simp [WPacket.owned, ha])))

theorem Queue.append (Q : Queue h ws rest) (W : Waiting h w bs) :
    Queue h (ws ++ [w]) (rest ++ [bs]) :=
  List.rel_append Q (.cons W .nil)

theorem ownedAll_append_singleton : ownedAll (ws ++ [w]) = ownedAll ws + w.owned := by
  simp [ownedAll]

/-- **`wpacket_destroy`** gives the references of the packet back. -/
theorem wpacketDestroy_spec (S : Sound h (w.owned + own)) :
    ∃ h', wpacketDestroy h w = .ok h' ∧ Sound h' own ∧ Keeps h h' := by
  rw [WPacket.owned, add_assoc] at S
  obtain ⟨h₁, hrel₁, S₁, K₁⟩ := bufferRelease_spec S
  obtain ⟨h₂, hrel₂, S₂, K₂⟩ := bufferRelease_spec S₁
  refine ⟨h₂, ?_, S₂, K₁.trans K₂⟩
  rw [wpacketDestroy, hrel₁, Exec.ok_bind, hrel₂]

variable {conn : Connection}

/-- **A round that completes a packet**, which is handed to its callback or destroyed. -/
theorem updateSendRound_complete (S : Sound h (ownedAll (w :: ws) + own))
    (Q : Queue h (w :: ws) (bs :: rest)) (hlist : conn.sendList = w :: ws) (hn : bs.length ≤ n) :
    ∃ h', updateSendRound h conn n = .ok (h', { conn with sendList := ws }, n - bs.length,
        if w.packetSendFinish then some w else none) ∧
      Sound h' (ownedAll ws + ((if w.packetSendFinish then w.owned else 0) + own)) ∧
      Queue h' ws rest ∧ Keeps h h' := by
  cases Q with
  | cons W Q =>
    have Q : Queue h ws rest := Q
    have hdata := W.dataSize
    rw [ownedAll_cons, add_assoc] at S
    rw [updateSendRound, hlist]
    simp only [ge_iff_le, hdata, hn, if_true]
    by_cases hfinish : w.packetSendFinish = true
    · simp only [hfinish, if_true]
      have S' : Sound h (ownedAll ws + (w.owned + own)) := by
        rwa [add_left_comm]
      exact ⟨h, rfl, S', Q.keep (.refl h) S', .refl h⟩
    · obtain ⟨h', hdestroy, S', K⟩ := wpacketDestroy_spec S
      simp only [hfinish, hdestroy, Exec.ok_bind]
      refine ⟨h', rfl, ?_, Q.keep K S', K⟩
      rwa [if_neg Bool.false_ne_true, zero_add]

/-- **A round that does not** moves the cursor of the packet. -/
theorem updateSendRound_part (S : Sound h (ownedAll (w :: ws) + own))
    (Q : Queue h (w :: ws) (bs :: rest)) (hlist : conn.sendList = w :: ws) (hn : n < bs.length) :
    ∃ h' w', updateSendRound h conn n = .ok (h', { conn with sendList := w' :: ws }, 0, none) ∧
      Sound h' (ownedAll (w' :: ws) + own) ∧ Queue h' (w' :: ws) (bs.drop n :: rest) ∧
      w'.packetSendFinish = w.packetSendFinish ∧ Keeps h h' := by
  cases Q with
  | cons W Q =>
    have Q : Queue h ws rest := Q
    have hdata := W.dataSize
    obtain ⟨a, -, -, -, hbuf, -⟩ := W.span
    have S₁ : Sound h (refs w.buf + (ownedAll ws + (refs w.writebuf + own))) := by
      convert S using 1
      rw [ownedAll_cons, WPacket.owned]
      abel
    obtain ⟨h', w', hloop, S', W', K, hwrite, hfinish⟩ :=
      consumeLoop_spec S₁ W hbuf hn (show h.fresh - a + n < h.fresh + n + 1 by omega)
    rw [updateSendRound, hlist]
    simp only [ge_iff_le, hdata, if_neg (show ¬ bs.length ≤ n by omega), hloop, Exec.ok_bind]
    have S₂ : Sound h' (ownedAll ws + (refs w'.buf + (refs w.writebuf + own))) := by
      convert S' using 1
      abel
    refine ⟨h', w', rfl, ?_, .cons W' (Q.keep K S₂), hfinish, K⟩
    convert S' using 1
    rw [ownedAll_cons, WPacket.owned, hwrite]
    abel

end Connection

end Kendylib
