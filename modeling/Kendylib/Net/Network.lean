import Kendylib.Foundations.Arrivals
import Kendylib.Net.ReceiveRuns
import Kendylib.Net.RelayRuns

/-!
# Connections between processes

Any number of processes, each of which receives on a connection and sends on another one or on the
same. The bytes that `writev` takes in one process are those that `readv` brings in another: process
`i` receives what `peer i` sends. The wiring is arbitrary, so that two processes may talk to each other,
or packets be forwarded along a chain of them.

In every run a process is handed the packets submitted at its peer, in order, each once and unchanged,
and each as soon as all of its bytes have been received (`network_delivers`). A packet that is forwarded
is one of them, so it arrives unchanged on any number of ways.

* `Linked` is what holds between a process and the packets submitted at its peer.
* `Node` is what holds in a process alone.
-/

namespace Kendylib.Network

open RefHeap Buffer RPacket WPacket Connection Exec Relay
open Held (ownedAll)

/-! ## Processes -/

/-- The bytes of a packet that is not raw and has something in it. -/
def Framed (bs : List UInt8) : Prop :=
  ∃ p, bs = encode p ∧ 1 ≤ p.length ∧ p.length + lenSize + bufferSize < 0x100000000

section Processes

variable {ι : Type}

/-- Every process has memory of its own, and a connection that is not raw. -/
def Starts (h : ι → Heap) (n : ι → Relay) : Prop := ∀ i, Relay.start (h i) false false = .ok (n i)

/-- A step of one of the processes. -/
def step [DecidableEq ι] (n : ι → Relay) (x : ι × Relay.Op) : Exec (ι → Relay) := do
  return Function.update n x.1 (← (n x.1).step x.2)

/-- The bytes of a read are the next ones that the peer has sent. -/
def Wired (peer : ι → ι) (n : ι → Relay) (i : ι) : Relay.Op → Prop
  | .received bs => (n i).stream ++ bs <+: (n (peer i)).dest.accepted
  | _ => True

/-- A packet that is sent has something in it. -/
def Sends : Relay.Op → Prop
  | .dest (.push _ bytes _) | .dest (.send _ bytes _) => Framed bytes
  | _ => True

def Allowed (peer : ι → ι) (n : ι → Relay) (x : ι × Relay.Op) : Prop :=
  (n x.1).Allowed x.2 ∧ Wired peer n x.1 x.2 ∧ Sends x.2

end Processes

/-- **What a process gets** of the packets submitted at its peer. -/
structure Delivers (submitted : List Submission) (y : Relay) : Prop where
  /-- The packets handed over are the first ones submitted, in order. -/
  inOrder : ∀ (j : ℕ) r, y.delivered[j]? = some r → ∃ m, submitted[j]? = some m ∧
    m.bytes = y.frame j ∧ IsFrame r (y.frame j)
  /-- A packet that has not been handed over has not been received as a whole. -/
  timely : y.unpacking = none → ∀ m, submitted[y.delivered.length]? = some m →
    y.stream.length <
      ((submitted.take y.delivered.length ++ [m]).flatMap Submission.bytes).length
  /-- The memory of a packet that is kept has its bytes. -/
  kept : ∀ (k j : ℕ) r, y.kept[k]? = some j → y.src.app[k]? = some r → ∃ m, submitted[j]? = some m ∧
    Sender.Carries y.src.heap r m.bytes
  /-- What is submitted for a packet forwarded is what was submitted for it at the peer. -/
  forwarded : ∀ x ∈ y.forwarded, ∃ m m', submitted[x.1]? = some m ∧ y.dest.submitted[x.2]? = some m' ∧
    m'.bytes = m.bytes

/-! ## What holds between a process and its peer -/

variable {y y' : Relay} {subs subs' l : List Submission} {m : Submission} {j n : ℕ} {bs p : List UInt8}
  {op : Relay.Op}

/-- The bytes of the packets submitted. -/
def frames (subs : List Submission) : List (List UInt8) := subs.map Submission.bytes

/-- The packets handed over are as long as the first ones submitted, and less than a packet is left
when `unpack` has ended. -/
structure Linked (subs : List Submission) (y : Relay) : Prop where
  arrives : Arrives (frames subs) y.stream y.delivered.length
  packets : ∀ (j : ℕ) r, y.delivered[j]? = some r → ∃ m, subs[j]? = some m ∧ r.raw = false ∧
    m.bytes.length = lenSize + r.len
  lt : (y.stream.drop (Arrives.offset (frames subs) y.delivered.length)).length < 0x100000000
  short : y.unpacking = none → ∀ m, subs[y.delivered.length]? = some m →
    (y.stream.drop (Arrives.offset (frames subs) y.delivered.length)).length < m.bytes.length

/-- A process by itself. -/
structure Node (y : Relay) : Prop where
  inv : Relay.Inv y
  raw : y.src.conn.raw = false
  framed : ∀ m ∈ y.dest.submitted, Framed m.bytes

theorem Framed.length_lt (h : Framed bs) : bs.length + bufferSize < 0x100000000 := by
  obtain ⟨p, rfl, -, hp⟩ := h
  rw [length_encode]
  omega

theorem Framed.lt_length (h : Framed bs) : lenSize < bs.length := by
  obtain ⟨p, rfl, hp, -⟩ := h
  rw [length_encode]
  omega

theorem getElem?_frames (hm : subs[j]? = some m) : (frames subs)[j]? = some m.bytes := by
  rw [frames, List.getElem?_map, hm]
  rfl

theorem length_frames : (frames subs).length = subs.length := List.length_map _

/-- The bytes that `unpack` has taken off for the first packets. -/
theorem Linked.sum_taken (L : Linked subs y) (hframed : ∀ m ∈ subs, Framed m.bytes)
    (hn : n ≤ y.delivered.length) :
    ((y.delivered.take n).map Relay.taken).sum = Arrives.offset (frames subs) n := by
  induction n with
  | zero => rfl
  | succ n ih =>
    have hlt : n < y.delivered.length := hn
    obtain ⟨m, hm, hraw, hlen⟩ := L.packets n _ (List.getElem?_eq_getElem hlt)
    have hbound := (hframed m (List.mem_of_getElem? hm)).length_lt
    have htaken : Relay.taken y.delivered[n] = m.bytes.length := by
      rw [taken_eq (.inr (by omega)), frameLen, hraw, hlen]
      rfl
    rw [List.take_succ_eq_append_getElem hlt, List.map_append, List.sum_append, ih (Nat.le_of_succ_le hn),
      Arrives.offset_succ (getElem?_frames hm), ← htaken]
    simp

theorem Linked.unpacked (L : Linked subs y) (hframed : ∀ m ∈ subs, Framed m.bytes) :
    y.unpacked = Arrives.offset (frames subs) y.delivered.length := by
  have := L.sum_taken hframed le_rfl
  rwa [List.take_length] at this

/-- **A packet handed over** has the frame of the packet submitted. -/
theorem Linked.frame (L : Linked subs y) (hframed : ∀ m ∈ subs, Framed m.bytes) {r : RPacket}
    (hr : y.delivered[j]? = some r) : ∃ m, subs[j]? = some m ∧ m.bytes = y.frame j ∧
      IsFrame r (y.frame j) := by
  obtain ⟨hj, -⟩ := List.getElem?_eq_some_iff.mp hr
  obtain ⟨m, hm, hraw, hlen⟩ := L.packets j r hr
  have hF := hframed m (List.mem_of_getElem? hm)
  have hframe : y.frame j = m.bytes := by
    rw [Relay.frame, frameAt, hr]
    dsimp only
    rw [L.sum_taken hframed hj.le, frameLen, hraw, if_neg Bool.false_ne_true, ← hlen]
    exact L.arrives.item hj (getElem?_frames hm)
  refine ⟨m, hm, hframe.symm, ?_⟩
  rw [hframe]
  refine ⟨by rw [hlen, frameLen, hraw]; rfl, fun _ => ?_, ?_⟩
  · obtain ⟨p, hp, -, hbound⟩ := hF
    have htake : m.bytes.take lenSize = toBytes lenSize p.length := by
      rw [hp, encode, List.take_left' (length_toBytes ..)]
    rw [hp, length_encode, Nat.add_left_cancel_iff] at hlen
    rw [htake, ofBytes_toBytes, hlen]
    exact Nat.lt_of_le_of_lt (by omega) hbound
  · have := hF.lt_length
    exact List.ne_nil_of_length_pos (by omega)

/-! ## What a step changes -/

/-- More packets are submitted at the peer. -/
theorem Linked.submit (L : Linked subs y) (hframed : ∀ m ∈ l, Framed m.bytes) :
    Linked (subs ++ l) y := by
  have hle : y.delivered.length ≤ subs.length := length_frames ▸ L.arrives.le
  have hframes : frames (subs ++ l) = frames subs ++ frames l := List.map_append
  have hoffset := Arrives.offset_append L.arrives.le (frames l)
  refine ⟨hframes ▸ L.arrives.submit _, fun j r hr => ?_, ?_, fun hnone m hm => ?_⟩
  · obtain ⟨m, hm, hpacket⟩ := L.packets j r hr
    exact ⟨m, by rw [List.getElem?_append_left (List.getElem?_eq_some_iff.mp hm).1, hm], hpacket⟩
  · rw [hframes, hoffset]
    exact L.lt
  · rw [hframes, hoffset]
    by_cases hlt : y.delivered.length < subs.length
    · rw [List.getElem?_append_left hlt] at hm
      exact L.short hnone m hm
    · have hge := Nat.le_of_not_lt hlt
      rw [List.getElem?_append_right hge] at hm
      rw [L.arrives.pending_eq_nil (length_frames ▸ hge)]
      exact Nat.lt_of_le_of_lt (Nat.zero_le _) (hframed m (List.mem_of_getElem? hm)).lt_length

/-- What is between a process and its peer depends on what has been received and unpacked only. -/
theorem Linked.congr (L : Linked subs y) (hstream : y'.stream = y.stream)
    (hdelivered : y'.delivered = y.delivered) (hunpacking : y'.unpacking = y.unpacking) :
    Linked subs y' := by
  obtain ⟨harrives, hpackets, hlt, hshort⟩ := L
  rw [← hstream, ← hdelivered] at harrives hlt
  rw [← hdelivered] at hpackets
  rw [← hstream, ← hdelivered, ← hunpacking] at hshort
  exact ⟨harrives, hpackets, hlt, hshort⟩

/-- **A read** brings the next bytes. -/
theorem Linked.receive (L : Linked subs y) (hframed : ∀ m ∈ subs, Framed m.bytes)
    (hnone : y.unpacking = none) (hbs : bs.length ≤ bufferSize)
    (hwired : y.stream ++ bs <+: (frames subs).flatten) {src : Receiver (List RPacket)} {k : ℕ} :
    Linked subs { y with src := src, unpacking := some k, stream := y.stream ++ bs } := by
  have A := L.arrives.receive hwired
  refine ⟨A, L.packets, ?_, nofun⟩
  change ((y.stream ++ bs).drop (Arrives.offset (frames subs) y.delivered.length)).length < _
  by_cases hnil : (y.stream ++ bs).drop (Arrives.offset (frames subs) y.delivered.length) = []
  · rw [hnil]
    decide
  · obtain ⟨x, hx⟩ := A.exists_next hnil
    rw [frames, List.getElem?_map, Option.map_eq_some_iff] at hx
    obtain ⟨m, hm, rfl⟩ := hx
    have hshort := L.short hnone m hm
    have hbound := (hframed m (List.mem_of_getElem? hm)).length_lt
    rw [List.drop_append_of_le_length L.arrives.offset_le, List.length_append]
    omega

theorem Node.received (I : Node y) (L : Linked subs y) (hframed : ∀ m ∈ subs, Framed m.bytes)
    (hC : y.Allowed (.received bs)) (hwired : y.stream ++ bs <+: (frames subs).flatten)
    (hs : y.step (.received bs) = .ok y') :
    Linked subs y' ∧ y'.src.conn.raw = false ∧ y'.dest.submitted = y.dest.submitted := by
  obtain ⟨own, ps, R⟩ := I.inv.buffered
  obtain ⟨src, qs, harrive, -, U, -⟩ := R.arrive (I.inv.ready hC.1) hC.2
  rw [Relay.step, harrive] at hs
  obtain rfl := Except.ok.inj hs
  exact ⟨L.receive hframed hC.1 hC.2 hwired, U.raw.trans I.raw, rfl⟩

/-- The length field in front of what is left, when this is longer. -/
theorem Linked.header (L : Linked subs y) (hm : subs[y.delivered.length]? = some m)
    (hp : m.bytes = encode p)
    (hmore : lenSize ≤ (y.stream.drop (Arrives.offset (frames subs) y.delivered.length)).length) :
    (y.stream.drop (Arrives.offset (frames subs) y.delivered.length)).take lenSize =
      toBytes lenSize p.length := by
  have htake : m.bytes.take lenSize = toBytes lenSize p.length := by
    rw [hp, encode, List.take_left' (length_toBytes ..)]
  have hle : lenSize ≤ m.bytes.length := by
    rw [hp, length_encode]
    exact Nat.le_add_right _ _
  rw [← htake]
  rcases L.arrives.next_prefix (getElem?_frames hm) with ⟨rest, hrest⟩ | ⟨rest, hrest⟩
  · rw [← hrest, List.take_append_of_le_length hmore]
  · rw [← hrest, List.take_append_of_le_length hle]

/-- **A round of `unpack`** hands over the next packet, if all of it has been received. -/
theorem Node.unpacked (I : Node y) (L : Linked subs y) (hframed : ∀ m ∈ subs, Framed m.bytes)
    (hs : y.step .unpack = .ok y') :
    Linked subs y' ∧ y'.src.conn.raw = false ∧ y'.dest.submitted = y.dest.submitted := by
  change y.unpackNext = .ok y' at hs
  cases hround : y.unpacking with
  | none =>
    rw [Relay.unpackNext, hround] at hs
    obtain rfl := Except.ok.inj hs
    exact ⟨L, I.raw, rfl⟩
  | some pkLen =>
    obtain ⟨own, ps, R⟩ := I.inv.buffered
    obtain ⟨src, hoffer, -, -, U, -⟩ := R.offer
    have hsize := R.size
    rw [L.unpacked hframed] at R hsize
    rw [Nat.mod_eq_of_lt L.lt] at hsize
    have hstep : unpackStep keepPackets pkLen y.src = unpackRound keepPackets pkLen y.src := by
      rw [unpackStep, if_neg (by rw [I.raw]; exact Bool.false_ne_true)]
    have hend : unpackRound keepPackets pkLen y.src = .ok none →
        (∀ m, subs[y.delivered.length]? = some m → y.src.conn.unpackSize < m.bytes.length) →
        Linked subs y' ∧ y'.src.conn.raw = false ∧ y'.dest.submitted = y.dest.submitted := by
      intro hnone hless
      rw [unpackNext_offer hround (hstep.trans hnone) hoffer] at hs
      obtain rfl := Except.ok.inj hs
      exact ⟨⟨L.arrives, L.packets, L.lt, fun _ m hm => hsize ▸ hless m hm⟩, U.raw.trans I.raw, rfl⟩
    by_cases hmore : lenSize < y.src.conn.unpackSize
    · rw [hsize] at hmore
      obtain ⟨x, hx⟩ := L.arrives.exists_next (List.ne_nil_of_length_pos (Nat.zero_lt_of_lt hmore))
      rw [frames, List.getElem?_map, Option.map_eq_some_iff] at hx
      obtain ⟨m, hm, rfl⟩ := hx
      obtain ⟨p, hp, hpos, hbound⟩ := hframed m (List.mem_of_getElem? hm)
      have hlen : p.length = ofBytes
          ((y.stream.drop (Arrives.offset (frames subs) y.delivered.length)).take lenSize) := by
        rw [L.header hm hp hmore.le, ofBytes_toBytes]
        exact Nat.lt_of_le_of_lt (by omega) hbound
      have htotal : m.bytes.length = add32 p.length lenSize := by
        rw [hp, length_encode, add32_of_lt (by omega), Nat.add_comm]
      rcases R.round keepPackets_respects pkLen (hsize ▸ hmore) hlen htotal with
        ⟨hless, hnone⟩ | ⟨hle, src', r, hdeliver, -, H⟩
      · refine hend hnone fun m' hm' => ?_
        obtain rfl := Option.some.inj (hm.symm.trans hm')
        exact hless
      · obtain ⟨a, hr, -⟩ := H.packet
        obtain ⟨a', upos', hconn⟩ := H.conn
        have happ : src'.app = y.src.app ++ [r.2] := (Prod.mk.inj (Except.ok.inj H.call)).1.symm
        rw [unpackNext_round hround (hstep.trans hdeliver)] at hs
        obtain rfl := Except.ok.inj hs
        rw [happ, List.drop_left]
        refine ⟨⟨?_, fun j q hq => ?_, ?_, fun h => by cases h⟩, ?_, rfl⟩
        · rw [List.length_append]
          exact L.arrives.next (getElem?_frames hm) (hsize ▸ hle)
        · by_cases hj : j < y.delivered.length
          · rw [List.getElem?_append_left hj] at hq
            exact L.packets j q hq
          · have hj := Nat.le_of_not_lt hj
            rw [List.getElem?_append_right hj, List.getElem?_singleton] at hq
            split_ifs at hq with hzero
            obtain rfl := Option.some.inj hq
            obtain rfl : j = y.delivered.length := by omega
            refine ⟨m, hm, ?_, ?_⟩
            · rw [hr]
            · rw [hr, hp, length_encode]
        · rw [List.length_append]
          refine Nat.lt_of_le_of_lt ?_ L.lt
          rw [List.length_drop, List.length_drop]
          change y.stream.length - Arrives.offset (frames subs) (y.delivered.length + 1) ≤ _
          rw [Arrives.offset_succ (getElem?_frames hm)]
          omega
        · rw [hconn]
          exact I.raw
    · refine hend ?_ fun m hm => ?_
      · rw [unpackRound, if_pos (Nat.le_of_not_lt hmore)]
      · exact (Nat.le_of_not_lt hmore).trans_lt (hframed m (List.mem_of_getElem? hm)).lt_length

/-- What a step of a connection that is sent on submits. -/
theorem submitted_step {d d' : Sender} {op : Sender.Op} (hs : d.step op = .ok d') :
    d'.submitted = d.submitted ++ op.submissions := by
  cases op with
  | push w bytes callback =>
    cases Except.ok.inj hs
    rfl
  | send w bytes callback =>
    obtain ⟨c, -, hs⟩ := Exec.bind_eq_ok.mp hs
    cases Except.ok.inj hs
    rfl
  | written n =>
    obtain ⟨out, -, hs⟩ := Exec.bind_eq_ok.mp hs
    cases Except.ok.inj hs
    exact (List.append_nil _).symm
  | update =>
    rw [show Sender.Op.update.submissions = [] from rfl, List.append_nil]
    rw [Sender.step, Sender.update] at hs
    cases hsending : d.sending with
    | none =>
      rw [hsending] at hs
      cases Except.ok.inj hs
      rfl
    | some k =>
      rw [hsending] at hs
      cases k with
      | zero =>
        obtain ⟨out, -, hs⟩ := Exec.bind_eq_ok.mp hs
        cases Except.ok.inj hs
        rfl
      | succ n =>
        obtain ⟨out, -, hs⟩ := Exec.bind_eq_ok.mp hs
        cases Except.ok.inj hs
        rfl
  | fail | other h =>
    cases Except.ok.inj hs
    exact (List.append_nil _).symm

/-- A packet that is handed over may be forwarded. -/
theorem Linked.fits (L : Linked subs y) (hframed : ∀ m ∈ subs, Framed m.bytes) {r : RPacket}
    (hr : y.delivered[j]? = some r) : Fits r := by
  obtain ⟨m, hm, -, hlen⟩ := L.packets j r hr
  have := (hframed m (List.mem_of_getElem? hm)).length_lt
  exact .inr (by omega)

theorem Node.forwardable (I : Node y) (L : Linked subs y) (hframed : ∀ m ∈ subs, Framed m.bytes)
    (op : Relay.Op) : y.Forwardable op := by
  cases op with
  | forward k flush callback =>
    intro r hr
    obtain ⟨b, hb⟩ := I.inv.filling
    obtain ⟨hk, -⟩ := List.getElem?_eq_some_iff.mp hr
    obtain ⟨i, hi⟩ : ∃ i, y.kept[k]? = some i :=
      ⟨_, List.getElem?_eq_getElem (I.inv.kept_length ▸ hk)⟩
    obtain ⟨r₀, hr₀, H⟩ := I.inv.kept k i r b hi hr hb
    have hfits := L.fits hframed hr₀
    rwa [Relay.Fits, ← H.len, ← H.raw] at hfits
  | received | unpack | read | destroy | dest => trivial

/-- More packets have been submitted, which have something in them. -/
def Continues (subs subs' : List Submission) : Prop :=
  ∃ l, subs' = subs ++ l ∧ ∀ m ∈ l, Framed m.bytes

theorem continues_refl : Continues subs subs := ⟨[], (List.append_nil _).symm, nofun⟩

theorem Linked.continues (L : Linked subs y) (C : Continues subs subs') : Linked subs' y := by
  obtain ⟨l, rfl, hl⟩ := C
  exact L.submit hl

theorem continues_step {d d' : Sender} {op : Sender.Op} (hop : Sends (.dest op))
    (hs : d.step op = .ok d') : Continues d.submitted d'.submitted := by
  refine ⟨op.submissions, submitted_step hs, ?_⟩
  cases op with
  | push w bytes callback | send w bytes callback =>
    intro m hm
    obtain rfl := List.mem_singleton.mp hm
    exact hop
  | written | update | fail | other => exact fun m hm => absurd hm List.not_mem_nil

/-- **Forwarding** submits what was submitted at the peer. -/
theorem Node.forwarded {k : ℕ} {flush callback : Bool} (I : Node y) (L : Linked subs y)
    (hframed : ∀ m ∈ subs, Framed m.bytes) (hs : y.step (.forward k flush callback) = .ok y') :
    Linked subs y' ∧ y'.src.conn.raw = false ∧ Continues y.dest.submitted y'.dest.submitted := by
  change y.forward k flush callback = .ok y' at hs
  rw [Relay.forward] at hs
  split at hs
  next r i hr hi =>
    obtain ⟨b, hb⟩ := I.inv.filling
    obtain ⟨r₀, hr₀, -⟩ := I.inv.kept k i r b hi hr hb
    obtain ⟨m, hm, hbytes, -⟩ := L.frame hframed hr₀
    obtain ⟨⟨h, w⟩, -, hs⟩ := Exec.bind_eq_ok.mp hs
    obtain ⟨d, hd, hs⟩ := Exec.bind_eq_ok.mp hs
    obtain rfl := Except.ok.inj hs
    have hsends : Framed (y.frame i) := hbytes ▸ hframed m (List.mem_of_getElem? hm)
    refine ⟨L.congr rfl rfl rfl, I.raw, continues_step (d := { y.dest with heap := h }) ?_ hd⟩
    cases flush <;> exact hsends
  next =>
    obtain rfl := Except.ok.inj hs
    exact ⟨L, I.raw, continues_refl⟩

/-- **A step of a process**, where it receives what is sent by its peer. -/
theorem Node.step (I : Node y) (L : Linked subs y) (hframed : ∀ m ∈ subs, Framed m.bytes)
    (hC : y.Allowed op) (hbytes : ∀ bs, op = .received bs → y.stream ++ bs <+: (frames subs).flatten)
    (hop : Sends op) (hs : y.step op = .ok y') :
    Linked subs y' ∧ y'.src.conn.raw = false ∧ Continues y.dest.submitted y'.dest.submitted := by
  cases op with
  | received bs =>
    obtain ⟨L', hraw, hsub⟩ := I.received L hframed hC (hbytes bs rfl) hs
    exact ⟨L', hraw, hsub ▸ continues_refl⟩
  | unpack =>
    obtain ⟨L', hraw, hsub⟩ := I.unpacked L hframed hs
    exact ⟨L', hraw, hsub ▸ continues_refl⟩
  | read k op =>
    rw [Relay.step] at hs
    split at hs
    next =>
      obtain rfl := Except.ok.inj hs
      exact ⟨L, I.raw, continues_refl⟩
    next =>
      obtain ⟨⟨h, r, v⟩, -, hs⟩ := Exec.bind_eq_ok.mp hs
      obtain rfl := Except.ok.inj hs
      exact ⟨L.congr rfl rfl rfl, I.raw, continues_refl⟩
  | destroy k =>
    rw [Relay.step] at hs
    split at hs
    next =>
      obtain rfl := Except.ok.inj hs
      exact ⟨L, I.raw, continues_refl⟩
    next =>
      obtain ⟨h, -, hs⟩ := Exec.bind_eq_ok.mp hs
      obtain rfl := Except.ok.inj hs
      exact ⟨L.congr rfl rfl rfl, I.raw, continues_refl⟩
  | forward k flush callback => exact I.forwarded L hframed hs
  | dest op =>
    obtain ⟨d, hd, hs⟩ := Exec.bind_eq_ok.mp hs
    obtain rfl := Except.ok.inj hs
    exact ⟨L.congr rfl rfl rfl, I.raw, continues_step (d := y.sender) hop hd⟩

/-- What a process gets. -/
theorem Node.delivers (I : Node y) (L : Linked subs y) (hframed : ∀ m ∈ subs, Framed m.bytes) :
    Delivers subs y := by
  refine ⟨fun j r hr => L.frame hframed hr, fun hnone m hm => ?_, fun k j r hi hr => ?_,
    fun x hx => ?_⟩
  · have hshort := L.short hnone m hm
    have hle := L.arrives.offset_le
    rw [List.length_drop] at hshort
    rw [List.flatMap_append, List.length_append, List.flatMap_singleton, List.flatMap_def,
      List.map_take]
    change _ < Arrives.offset (frames subs) y.delivered.length + _
    omega
  · obtain ⟨b, hb⟩ := I.inv.filling
    obtain ⟨r₀, hr₀, H⟩ := I.inv.kept k j r b hi hr hb
    obtain ⟨m, hm, hbytes, -⟩ := L.frame hframed hr₀
    have hfits := L.fits hframed hr₀
    rw [Relay.Fits, ← H.len, ← H.raw] at hfits
    exact ⟨m, hm, hbytes ▸ (H.carried hfits).1⟩
  · obtain ⟨r, m', hr, hm', hbytes', -⟩ := I.inv.forwarded x hx
    obtain ⟨m, hm, hbytes, -⟩ := L.frame hframed hr
    exact ⟨m, m', hm, hm', hbytes'.trans hbytes.symm⟩

/-! ## Any number of processes -/

section Processes

variable {ι : Type} [DecidableEq ι] {peer : ι → ι} {n n' : ι → Relay} {i : ι} {h : ι → Heap}
  {own : ι → Multiset ℕ}

/-- Every process gets the packets submitted at its peer. -/
def Connected (peer : ι → ι) (n : ι → Relay) : Prop :=
  ∀ i, Node (n i) ∧ Linked (n (peer i)).dest.submitted (n i)

theorem frames_flatten (subs : List Submission) :
    (frames subs).flatten = subs.flatMap Submission.bytes := List.flatMap_def.symm

omit [DecidableEq ι] in
/-- The bytes of a read are the next ones of the packets submitted at the peer. -/
theorem Connected.bytes (I : Connected peer n) (hwired : Wired peer n i op) : ∀ bs, op = .received bs →
    (n i).stream ++ bs <+: (frames (n (peer i)).dest.submitted).flatten := by
  rintro bs rfl
  rw [frames_flatten]
  exact hwired.trans (I (peer i)).1.inv.relayed.sent.accepted

theorem continues_update (C : Continues (n i).dest.submitted y'.dest.submitted) (k : ι) :
    Continues (n k).dest.submitted (Function.update n i y' k).dest.submitted := by
  by_cases hk : k = i
  · subst hk
    rwa [Function.update_self]
  · rw [Function.update_of_ne hk]
    exact continues_refl

/-- **One step** of one process. -/
theorem Connected.step (I : Connected peer n) {x : ι × Relay.Op} (hC : Allowed peer n x) :
    match Network.step n x with
    | .ok n' => Connected peer n'
    | .error _ => x.2.isRead := by
  obtain ⟨i, op⟩ := x
  obtain ⟨hallowed, hwired, hsends⟩ := hC
  obtain ⟨N, L⟩ := I i
  have hframed := (I (peer i)).1.framed
  have hstep := Relay.step_inv N.inv ⟨hallowed, N.forwardable L hframed op⟩
  rw [Network.step]
  dsimp only
  cases hs : (n i).step op with
  | error e =>
    rw [hs] at hstep
    exact hstep
  | ok y' =>
    rw [hs] at hstep
    obtain ⟨L', hraw, l, hl, hmore⟩ := N.step L hframed hallowed (I.bytes hwired) hsends hs
    have hnode : Node y' := by
      refine ⟨hstep, hraw, fun m hm => ?_⟩
      rw [hl] at hm
      exact (List.mem_append.mp hm).elim (N.framed m) (hmore m)
    have hcontinues := continues_update (n := n) (i := i) ⟨l, hl, hmore⟩
    intro k
    by_cases hk : k = i
    · subst hk
      refine ⟨by rwa [Function.update_self], Linked.continues ?_ (hcontinues (peer k))⟩
      rwa [Function.update_self]
    · refine ⟨by rw [Function.update_of_ne hk]; exact (I k).1,
        Linked.continues ?_ (hcontinues (peer k))⟩
      rw [Function.update_of_ne hk]
      exact (I k).2

omit [DecidableEq ι] in
theorem Connected.delivers (I : Connected peer n) (i : ι) :
    Delivers (n (peer i)).dest.submitted (n i) :=
  (I i).1.delivers (I i).2 (I (peer i)).1.framed

end Processes

theorem start_node {h : Heap} {own : Multiset ℕ} (S : Sound h own) :
    ∃ y, Relay.start h false false = .ok y ∧ Node y ∧ Linked [] y ∧ y.dest.submitted = [] := by
  obtain ⟨y, hstart, I⟩ : ∃ y, Relay.start h false false = .ok y ∧ y.Inv := Relay.start_inv S
  obtain ⟨h', c, hrecv, hraw, -⟩ := buffered_start (c := connectionCreate false)
    (show Sound h (keepPackets.owned [] + own) from (zero_add own).symm ▸ S) rfl
  refine ⟨y, hstart, ?_⟩
  rw [Relay.start, hrecv] at hstart
  obtain rfl := Except.ok.inj hstart
  refine ⟨⟨I, hraw, fun m hm => ?_⟩, ⟨.start, fun j r hr => ?_, ?_, fun h m hm => ?_⟩, rfl⟩
  · cases hm
  · cases hr
  · exact (by decide : 0 < 0x100000000)
  · cases hm

/-- A process that starts leaves the memory of others. -/
theorem start_grows {h : Heap} {own : Multiset ℕ} (S : Sound h own)
    (hstart : Relay.start h false false = .ok y) :
    Sound y.src.heap (y.owned + own) ∧ ∀ a ∈ own, GrowsFrom h y.src.heap a := by
  obtain ⟨h₁, hnew, S₁, hself, hne, -⟩ := bufferCreateAndAcquire_spec S (n := bufferSize) (by decide)
  have S₁' : Sound h₁ (refs none + (h.fresh ::ₘ own)) := by rwa [refs_none, zero_add]
  obtain ⟨h₂, hacq, S₂, K⟩ := bufferAcquire_spec S₁' (p := some h.fresh)
    fun x hx => ⟨_, Option.some.inj hx ▸ hself⟩
  have hrecv : connectionStartRecv h (connectionCreate false) = .ok (h₂, { connectionCreate false with
      unpackBuf := some h.fresh
      nextRecvBuf := some h.fresh
      nextRecvPos := 0
      unpackPos := 0
      unpackSize := 0
      wrecvbuf := [⟨(h.fresh, 0), bufferSize⟩]
      recvUsed := true }) := by
    rw [connectionStartRecv, show (connectionCreate false).unpackBuf = none from rfl]
    simp only [hnew, Exec.ok_bind, hacq]
    rfl
  rw [Relay.start, hrecv] at hstart
  obtain rfl := Except.ok.inj hstart
  refine ⟨?_, fun a ha b c hab hc => ?_⟩
  · convert S₂ using 1
    change refs (some h.fresh) + refs (some h.fresh) + (0 + 0) + own = _
    rw [refs_some, ← Multiset.singleton_add]
    abel
  · have hsame : ∀ b c, h.cell b = some c → h₁.cell b = some c := fun b c hc => by
      rw [hne b (S.bound b c hc).ne, hc]
    have hreach : h₁.Reach _ _ := hab.keepsFrom fun b c _ hc => ⟨c, hsame b c hc, rfl, rfl⟩
    have hlive := S₂.live (show a ∈ refs (some h.fresh) + (h.fresh ::ₘ own) by simp [ha])
    obtain ⟨c', hc', hnext, hbody⟩ := K.from S₂.toExact hlive b c hreach (hsame b c hc)
    exact ⟨c', hc', .of_eq hnext hbody⟩

/-- A process that has written a packet may send it. -/
theorem ready_to_send {h₀ h : Heap} {w₀ w : WPacket} {size : ℕ} {ops : List Write}
    (hsize : size < 0x100000000) (hcreate : wpacketCreate RefHeap.empty size false = .ok (h₀, w₀))
    (hwrite : writeAll h₀ w₀ ops = .ok (h, w)) (hstart : Relay.start h false false = .ok y) :
    Sound h w.owned ∧ y.Holds y.src.heap w.owned ∧ y.sender.Holds y.src.heap w.owned ∧
      Waiting y.src.heap w (encode (ops.flatMap (Write.bytes false))) := by
  obtain ⟨S₀, B₀, hraw₀⟩ := wpacketCreate_ok sound_empty hsize hcreate
  obtain ⟨S, B, hraw⟩ := writeAll_ok S₀ B₀ hwrite
  rw [add_zero] at S
  rw [hraw₀, List.nil_append] at B
  obtain ⟨S', G⟩ := start_grows S hstart
  have W := Sender.waiting_of_built B
  rw [hraw, hraw₀] at W
  refine ⟨S, ⟨0, by rwa [add_zero]⟩, ?_, W.grow (fun a ha => G a (by simp [WPacket.owned, ha])) S'⟩
  refine ⟨y.src.conn.recvOwned + keepPackets.owned y.src.app, ?_⟩
  convert S' using 1
  change ownedAll y.dest.conn.sendList + _ = y.src.conn.recvOwned + _ + _
  abel

/-- **Processes that send to each other** get the packets that are submitted, in order, each once and
unchanged, in every run in which no empty packets are sent; no step of such a run but a read of a
packet faults. -/
theorem network_delivers {ι : Type} [DecidableEq ι] (peer : ι → ι) {h : ι → Heap}
    {own : ι → Multiset ℕ} (S : ∀ i, Sound (h i) (own i)) : ∃ n, Starts h n ∧
      ∀ ops, BeforeEach Network.step (Allowed peer) n ops →
        Always Network.step (fun n => ∀ i, Delivers (n (peer i)).dest.submitted (n i)) n ops ∧
          FaultsOnly Network.step (fun _ x _ => x.2.isRead) n ops := by
  choose n hstart hnode hlinked hsub using fun i => start_node (S i)
  refine ⟨n, hstart, fun ops hops =>
    safe_of_beforeEach (I := Connected peer) (fun _ I => I.delivers) (fun s x I hC => ?_)
      (fun i => ⟨hnode i, ?_⟩) hops⟩
  · have hop := I.step hC
    cases hs : Network.step s x with
    | ok s' => rwa [hs] at hop
    | error e => rwa [hs] at hop
  · rw [hsub]
    exact hlinked i

/-- A packet is sent by one of two processes, forwarded by the other, and received where it came from. -/
def thereAndBack (w : WPacket) : List (Bool × Relay.Op) :=
  [(true, .dest (.send w [1, 0, 0, 0, 7] true)), (true, .dest (.written 5)),
    (false, .received [1, 0, 0, 0, 7]), (false, .unpack), (false, .unpack),
    (false, .forward 0 true true), (false, .dest (.written 5)), (true, .received [1, 0, 0, 0, 7]),
    (true, .unpack)]

theorem network_delivers_there_and_back : ∃ w n, BeforeEach Network.step (Allowed not) n (thereAndBack w) ∧
    Always Network.step (fun n => ∀ i, Delivers (n (not i)).dest.submitted (n i)) n (thereAndBack w) ∧
      FaultsOnly Network.step (fun _ x _ => x.2.isRead) n (thereAndBack w) := by
  obtain ⟨s, hrun⟩ := Exec.exists_ok (x := do
    let x ← wpacketCreate RefHeap.empty 4 false
    let y ← writeAll x.1 x.2 [.uint8 7]
    let t ← Relay.start y.1 false false
    let f ← Relay.start RefHeap.empty false false
    let n₁ ← Network.step (fun i => if i then t else f) (true, .dest (.send y.2 [1, 0, 0, 0, 7] true))
    let n₂ ← Network.step n₁ (true, .dest (.written 5))
    let n₃ ← Network.step n₂ (false, .received [1, 0, 0, 0, 7])
    let n₄ ← Network.step n₃ (false, .unpack)
    let n₅ ← Network.step n₄ (false, .unpack)
    let n₆ ← Network.step n₅ (false, .forward 0 true true)
    let n₇ ← Network.step n₆ (false, .dest (.written 5))
    let n₈ ← Network.step n₇ (true, .received [1, 0, 0, 0, 7])
    let n₉ ← Network.step n₈ (true, .unpack)
    if ((n₁ true).dest.conn.sendUsed = true ∧ (n₁ true).dest.sending = none ∧
        5 ≤ ((n₁ true).dest.conn.wsendbuf.map Iovec.len).sum) ∧
      ((n₂ false).unpacking = none ∧ (n₂ false).stream = [] ∧
        (n₂ true).dest.accepted = [1, 0, 0, 0, 7]) ∧
      ((n₆ false).dest.conn.sendUsed = true ∧ (n₆ false).dest.sending = none ∧
        5 ≤ ((n₆ false).dest.conn.wsendbuf.map Iovec.len).sum) ∧
      ((n₇ true).unpacking = none ∧ (n₇ true).stream = [] ∧
        (n₇ false).dest.accepted = [1, 0, 0, 0, 7]) then return n₉
    else .error .fuel) (by decide +kernel)
  obtain ⟨⟨h₀, w₀⟩, hcreate, hrun⟩ := Exec.bind_eq_ok.mp hrun
  obtain ⟨⟨h, w⟩, hwrite, hrun⟩ := Exec.bind_eq_ok.mp hrun
  obtain ⟨t, ht, hrun⟩ := Exec.bind_eq_ok.mp hrun
  obtain ⟨f, hf, hrun⟩ := Exec.bind_eq_ok.mp hrun
  obtain ⟨n₁, hn₁, hrun⟩ := Exec.bind_eq_ok.mp hrun
  obtain ⟨n₂, hn₂, hrun⟩ := Exec.bind_eq_ok.mp hrun
  obtain ⟨n₃, hn₃, hrun⟩ := Exec.bind_eq_ok.mp hrun
  obtain ⟨n₄, hn₄, hrun⟩ := Exec.bind_eq_ok.mp hrun
  obtain ⟨n₅, hn₅, hrun⟩ := Exec.bind_eq_ok.mp hrun
  obtain ⟨n₆, hn₆, hrun⟩ := Exec.bind_eq_ok.mp hrun
  obtain ⟨n₇, hn₇, hrun⟩ := Exec.bind_eq_ok.mp hrun
  obtain ⟨n₈, hn₈, hrun⟩ := Exec.bind_eq_ok.mp hrun
  obtain ⟨n₉, hn₉, hrun⟩ := Exec.bind_eq_ok.mp hrun
  split_ifs at hrun with hfacts
  obtain ⟨⟨hused₁, hnone₁, htotal₁⟩, ⟨hfree₂, hstream₂, hsent₂⟩, ⟨hused₆, hnone₆, htotal₆⟩,
    hfree₇, hstream₇, hsent₇⟩ := hfacts
  obtain ⟨S, hholds, hsender, W⟩ := ready_to_send (by decide) hcreate hwrite ht
  have hbytes : Framed [1, 0, 0, 0, 7] := ⟨[7], by decide, by decide, by decide⟩
  have hops : BeforeEach Network.step (Allowed not) (fun i => if i then t else f) (thereAndBack w) := by
    refine .cons ⟨⟨hholds, hsender, W, by decide⟩, trivial, hbytes⟩ hn₁ ?_
    refine .cons ⟨⟨hused₁, hnone₁, by decide, htotal₁, by decide⟩, trivial, trivial⟩ hn₂ ?_
    refine .cons ⟨⟨hfree₂, by decide⟩, ?_, trivial⟩ hn₃ ?_
    · change (n₂ false).stream ++ _ <+: (n₂ true).dest.accepted
      rw [hstream₂, hsent₂]
      exact List.prefix_rfl
    refine .cons ⟨trivial, trivial, trivial⟩ hn₄ (.cons ⟨trivial, trivial, trivial⟩ hn₅ ?_)
    refine .cons ⟨trivial, trivial, trivial⟩ hn₆ ?_
    refine .cons ⟨⟨hused₆, hnone₆, by decide, htotal₆, by decide⟩, trivial, trivial⟩ hn₇ ?_
    refine .cons ⟨⟨hfree₇, by decide⟩, ?_, trivial⟩ hn₈ ?_
    · change (n₇ true).stream ++ _ <+: (n₇ false).dest.accepted
      rw [hstream₇, hsent₇]
      exact List.prefix_rfl
    exact .cons ⟨trivial, trivial, trivial⟩ hn₉ trivial
  obtain ⟨n, hstart, hall⟩ := network_delivers not (h := fun i => if i then h else RefHeap.empty)
    (fun i => show Sound _ (if i then w.owned else 0) by cases i; exacts [sound_empty, S])
  obtain rfl : n = fun i => if i then t else f := by
    funext i
    have hi := hstart i
    cases i
    · exact Except.ok.inj (hi.symm.trans hf)
    · exact Except.ok.inj (hi.symm.trans ht)
  exact ⟨w, _, hops, hall _ hops⟩

end Kendylib.Network
