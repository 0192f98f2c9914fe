import Kendylib.Net.Reading

/-!
# Reading back what has been written

A packet is made by `wpacket_create`, written to, turned into a packet for reading by
`rpacket_create_by_wpacket`, and read by the calls that match the writes (`RoundTrips`).

All values come back (`roundTrips_iff`), unless a string is so long that its length does not fit
into 32 bits, or the packet was created with size 4. The length in front of the packet then fills the
first buffer, and `rpacket_create_by_wpacket`, which goes on to the second one, puts the cursor behind
the first four bytes there. What is behind them is four bytes short of `data_remain`, and no sequence
of reads gets to the end of it (`Short`).
-/

namespace Kendylib

open RefHeap Buffer WPacket Connection

namespace RPacket

/-- The call that reads what a call has written. -/
def matching : Write → Read
  | .uint8 _ => .uint8
  | .uint16 _ => .uint16
  | .uint32 _ => .uint32
  | .uint64 _ => .uint64
  | .string _ => .string
  | .binary _ => .binary

/-- The value returned is the one written: the number; the address of the string, which ends with a
zero byte; the length and the address of the data. -/
def Returned (h : Heap) : Write → Value → Prop
  | .uint8 value, .number n => n = value.toNat
  | .uint16 value, .number n => n = value.toNat
  | .uint32 value, .number n => n = value.toNat
  | .uint64 value, .number n => n = value.toNat
  | .string value, .data (some p) none =>
    Bytes h (places p.1 p.2 (value.length + 1)) (value ++ [0])
  | .binary value, .data (some p) (some len) =>
    len = value.length ∧ Bytes h (places p.1 p.2 value.length) value
  | _, _ => False

instance (h : Heap) (ps : List (ℕ × ℕ)) (bs : List UInt8) : Decidable (Bytes h ps bs) :=
  inferInstanceAs (Decidable (ps.map (byteAt h) = bs.map some))

instance (h : Heap) : (op : Write) → (v : Value) → Decidable (Returned h op v)
  | .uint8 value, .number n => inferInstanceAs (Decidable (n = value.toNat))
  | .uint16 value, .number n => inferInstanceAs (Decidable (n = value.toNat))
  | .uint32 value, .number n => inferInstanceAs (Decidable (n = value.toNat))
  | .uint64 value, .number n => inferInstanceAs (Decidable (n = value.toNat))
  | .string value, .data (some p) none =>
    inferInstanceAs (Decidable (Bytes h (places p.1 p.2 (value.length + 1)) (value ++ [0])))
  | .binary value, .data (some p) (some len) => inferInstanceAs
    (Decidable (len = value.length ∧ Bytes h (places p.1 p.2 value.length) value))
  | .uint8 _, .data _ _ | .uint16 _, .data _ _ | .uint32 _, .data _ _ | .uint64 _, .data _ _ =>
    isFalse id
  | .string _, .number _ | .string _, .data none _ | .string _, .data (some _) (some _) => isFalse id
  | .binary _, .number _ | .binary _, .data none _ | .binary _, .data (some _) none => isFalse id

/-- The matching reads return what has been written, and nothing remains. -/
def ReadsBack : Heap → RPacket → List Write → Prop
  | _, r, [] => rpacketDataRemain r = 0
  | h, r, op :: ops =>
    match read h r (matching op) with
    | .ok (h', r', v) => Returned h' op v ∧ ReadsBack h' r' ops
    | .error _ => False

instance decidableReadsBack :
    (h : Heap) → (r : RPacket) → (ops : List Write) → Decidable (ReadsBack h r ops)
  | _, r, [] => inferInstanceAs (Decidable (rpacketDataRemain r = 0))
  | h, r, op :: ops =>
    show Decidable (match read h r (matching op) with
      | .ok (h', r', v) => Returned h' op v ∧ ReadsBack h' r' ops
      | .error _ => False) from
    match read h r (matching op) with
    | .ok (h', r', _) => @instDecidableAnd _ _ _ (decidableReadsBack h' r' ops)
    | .error _ => isFalse id

/-- A packet to which `ops` have been written is read back. -/
def RoundTrips (h : Heap) (w : WPacket) (ops : List Write) : Prop :=
  match rpacketCreateByWpacket h w with
  | .ok (h', r) =>
    rpacketLen r = (ops.flatMap (Write.bytes false)).length ∧ ReadsBack h' r ops
  | .error _ => False

instance (h : Heap) (w : WPacket) (ops : List Write) : Decidable (RoundTrips h w ops) :=
  show Decidable (match rpacketCreateByWpacket h w with
    | .ok (h', r) => rpacketLen r = (ops.flatMap (Write.bytes false)).length ∧ ReadsBack h' r ops
    | .error _ => False) from
  match rpacketCreateByWpacket h w with
  | .ok _ => inferInstance
  | .error _ => isFalse id

/-- Create a packet that is not raw, and write to it. -/
def createAndWrite (h : Heap) (size : ℕ) (ops : List Write) : Exec (Heap × WPacket) := do
  let (h, w) ← wpacketCreate h size false
  writeAll h w ops

/-- A call that an application may make. The length of binary data is a 32-bit number. -/
def Write.Allowed : Write → Prop
  | .binary value => 0 < value.length ∧ value.length < 0x100000000
  | _ => True

instance : DecidablePred Write.Allowed
  | .binary value => inferInstanceAs (Decidable (0 < value.length ∧ value.length < 0x100000000))
  | .uint8 _ | .uint16 _ | .uint32 _ | .uint64 _ | .string _ => inferInstanceAs (Decidable True)

/-- A call whose length is not cut off. -/
def Write.Fits : Write → Prop
  | .string value => value.length + 1 < 0x100000000
  | _ => True

instance : DecidablePred Write.Fits
  | .string value => inferInstanceAs (Decidable (value.length + 1 < 0x100000000))
  | .uint8 _ | .uint16 _ | .uint32 _ | .uint64 _ | .binary _ => inferInstanceAs (Decidable True)

/-- The writes that are read back from a packet created with `size`. -/
def Fits (size : ℕ) (ops : List Write) : Prop :=
  (∀ op ∈ ops, Write.Fits op) ∧ (size = 4 → ops = [] ∨ ops = [.uint8 0] ∨ ops = [.uint16 0])

variable {h h' : Heap} {own : Multiset ℕ} {w : WPacket} {r r' : RPacket} {ops : List Write}
  {op : Write} {payload bs : List UInt8} {cap size a b m n k : ℕ} {ps : List (ℕ × ℕ)}
  {c d : Cell Block} {v : Value}

/-! ## The packet for reading -/

/-- The cursor is put at the first byte written if there is room for it behind the length. -/
theorem reading_of_create (S : Sound h (w.owned + own)) (B : Built cap h w payload)
    (hraw : w.raw = false) (hcap : lenSize < cap) (hne : payload ≠ []) :
    ∃ h' r, rpacketCreateByWpacket h w = .ok (h', r) ∧ r.len = payload.length ∧
      Reading h' r (w.owned + own) payload := by
  obtain ⟨a, ps, b, c, B⟩ := B
  obtain ⟨d, hd, hdcap, -⟩ := B.begins
  have hs : Span h a lenSize ps b w.wpos := by
    have := B.span
    rwa [hraw] at this
  have hlen := B.bytes.length
  have hpos := List.length_pos_iff.mpr hne
  obtain ⟨h', r, hcreate, -, hr, R⟩ :=
    readable_of_create S B hd fun _ => hs.start_lt hd (by omega) (by omega)
  rw [hraw] at R
  exact ⟨h', r, hcreate, by rw [hr], reading_iff.mpr ⟨ps, R⟩⟩

/-! ## Values that come back -/

/-- A run of bytes in memory is shorter than `2 ^ 32`. -/
theorem length_lt_of_bytes (S : Sound h own) (hb : Bytes h (places a m n) bs) (hn : 0 < n) :
    n < 0x100000000 := by
  have hlast := congrArg (fun l => l[n - 1]?) hb
  have hlen := hb.length
  rw [length_places] at hlen
  simp only [places, List.map_map, List.getElem?_map, List.getElem?_range' (show n - 1 < n by omega),
    List.getElem?_eq_getElem (show n - 1 < bs.length by omega), Option.map_some, Function.comp_apply,
    one_mul, Option.some.injEq] at hlast
  obtain ⟨c, hc, hget⟩ := Option.bind_eq_some_iff.mp hlast
  obtain ⟨hlt, -⟩ := List.getElem?_eq_some_iff.mp hget
  rw [(S.wf a c hc).length] at hlt
  have := (S.wf a c hc).lt
  dsimp only at hlt
  omega

/-- **The matching read** returns what has been written, unless its length has been cut off. -/
theorem read_matching (R : Reading h r own (op.bytes false ++ bs)) (hop : Write.Allowed op) :
    ∃ h' r' v, read h r (matching op) = .ok (h', r', v) ∧ Reading h' r' own bs ∧
      (Returned h' op v ↔ Write.Fits op) := by
  have hnumber : ∀ k v, op.bytes false = toBytes k v → v < 256 ^ k →
      ∃ h' r', rpacketReadUint k h r = .ok (h', r', v) ∧ Reading h' r' own bs := by
    intro k v hbytes hv
    rw [hbytes] at R
    exact R.number hv
  cases op with
  | uint8 value =>
    obtain ⟨h', r', hread, R'⟩ := hnumber 1 _ rfl value.toNat_lt
    refine ⟨h', r', .number value.toNat, ?_, R', iff_of_true rfl trivial⟩
    rw [matching, read, rpacketReadUint8, hread]
    rfl
  | uint16 value =>
    obtain ⟨h', r', hread, R'⟩ := hnumber 2 _ rfl value.toNat_lt
    refine ⟨h', r', .number value.toNat, ?_, R', iff_of_true rfl trivial⟩
    rw [matching, read, rpacketReadUint16, hread]
    rfl
  | uint32 value =>
    obtain ⟨h', r', hread, R'⟩ := hnumber 4 _ rfl value.toNat_lt
    refine ⟨h', r', .number value.toNat, ?_, R', iff_of_true rfl trivial⟩
    rw [matching, read, rpacketReadUint32, hread]
    rfl
  | uint64 value =>
    obtain ⟨h', r', hread, R'⟩ := hnumber 8 _ rfl value.toNat_lt
    refine ⟨h', r', .number value.toNat, ?_, R', iff_of_true rfl trivial⟩
    rw [matching, read, rpacketReadUint64, hread]
    rfl
  | string value =>
    have hlen : (value ++ [0]).length = value.length + 1 := List.length_append
    obtain ⟨n, hn⟩ : ∃ n, n = (value.length + 1) % 0x100000000 := ⟨_, rfl⟩
    have htake : ((value ++ [0]).take n).length = n := List.length_take_of_le (by omega)
    have hbytes : Write.bytes false (.string value) =
        toBytes lenSize ((value ++ [0]).take n).length ++ (value ++ [0]).take n := by
      rw [htake, hn]
      rfl
    rw [hbytes, List.append_assoc] at R
    obtain ⟨h', r', addr, hread, R', haddr⟩ := R.block (by omega) 0
    refine ⟨h', r', .data addr none, ?_, R', ?_⟩
    · rw [matching, read, rpacketReadString, hread]
      rfl
    · constructor
      · intro hret
        cases addr with
        | none => exact hret.elim
        | some p => exact length_lt_of_bytes R'.sound hret (Nat.zero_lt_succ _)
      · intro hfits
        change value.length + 1 < _ at hfits
        rw [List.take_of_length_le (by omega), hlen] at haddr
        obtain ⟨p, rfl, hb⟩ := haddr (by simp)
        exact hb
  | binary value =>
    have hbytes : Write.bytes false (.binary value) = toBytes lenSize value.length ++ value := by
      rw [Write.bytes, binaryBytes, List.take_length]
      rfl
    rw [hbytes, List.append_assoc] at R
    obtain ⟨h', r', addr, hread, R', haddr⟩ := R.block hop.2 0
    obtain ⟨p, rfl, hb⟩ := haddr (List.length_pos_iff.mp hop.1)
    refine ⟨h', r', .data (some p) (some value.length), ?_, R', iff_of_true ⟨rfl, hb⟩ trivial⟩
    rw [matching, read, hread]
    rfl

/-- **A sequence of reads** returns what has been written exactly if no length has been cut off. -/
theorem readsBack_iff (R : Reading h r own (ops.flatMap (Write.bytes false)))
    (hops : ∀ op ∈ ops, Write.Allowed op) : ReadsBack h r ops ↔ ∀ op ∈ ops, Write.Fits op := by
  induction ops generalizing h r with
  | nil => exact iff_of_true R.unread.remain (by simp)
  | cons op ops ih =>
    rw [List.flatMap_cons] at R
    obtain ⟨h', r', v, hread, R', hret⟩ := read_matching R (hops op List.mem_cons_self)
    rw [ReadsBack, hread, List.forall_mem_cons]
    exact and_congr hret (ih R' fun op hop => hops op (List.mem_cons_of_mem _ hop))

/-! ## Packets of size 4 -/

/-- The data from the cursor on is four bytes short of what should remain, or the cursor is at no
buffer any more. -/
structure Short (h : Heap) (r : RPacket) (own : Multiset ℕ) : Prop where
  sound : Sound h (r.owned + own)
  notRaw : r.raw = false
  len : headerSize + r.len < 0x100000000
  remain : lenSize ≤ r.dataRemain
  lt : r.dataRemain < 0x100000000
  span : ∀ a, r.readbuf = some a → ∃ ps b pos d, Span h a r.rpos ps b pos ∧ h.cell b = some d ∧
    d.next = none ∧ d.body.size = pos ∧ r.dataRemain = ps.length + lenSize

namespace Short

/-- **The cursor moves** inside its buffer, to the next one, or to none. -/
theorem nextBuffer (R : Short h r own) (ha : r.readbuf = some a) (hc : h.cell a = some c)
    (hk : k ≤ c.body.size - r.rpos)
    (hrun : nextBuffer h { r with rpos := r.rpos + k, dataRemain := r.dataRemain - k } c = .ok (h', r')) :
    Short h' r' own ∧ SameFields r r' := by
  obtain ⟨ps, b, pos, d, hs, hd, hlast, hsize, hremain⟩ := R.span a ha
  have hle : c.body.size - r.rpos ≤ ps.length := hs.rest_le hc hd hsize
  obtain ⟨hcut, hs', hnext⟩ := hs.advance hc (hk.trans hle) (by omega : k = min (c.body.size - r.rpos) k)
  have hdrop : (ps.drop k).length = ps.length - k := List.length_drop
  have hlt := R.lt
  unfold RPacket.nextBuffer at hrun
  split_ifs at hrun with hmove
  · obtain ⟨hend, -⟩ := hmove
    have S := R.sound
    rw [owned_readbuf] at S
    obtain ⟨h₁, hacq, S₁, K⟩ := bufferAcquire_spec S (p := c.next) fun x hx => (S.next_live hc hx).2
    rw [show ({ r with rpos := r.rpos + k, dataRemain := r.dataRemain - k } : RPacket).readbuf =
      r.readbuf from rfl, hacq] at hrun
    cases hrun
    have F : SameFields r { r with rpos := 0, dataRemain := r.dataRemain - k, readbuf := c.next } := rfl
    refine ⟨⟨F.owned own ▸ S₁, R.notRaw, R.len, ?_, ?_, fun n hn => ?_⟩, F⟩
    · change _ ≤ r.dataRemain - k
      omega
    · change r.dataRemain - k < _
      omega
    · change c.next = some n at hn
      rcases hnext with hin | ⟨-, rfl, -⟩ | ⟨-, n', hn', hs''⟩
      · change r.rpos + k ≥ _ at hend
        omega
      · obtain rfl := Option.some.inj (hc.symm.trans hd)
        rw [hlast] at hn
        cases hn
      · obtain rfl := Option.some.inj (hn'.symm.trans hn)
        have KF := K.from S₁.toExact (S₁.live (show n' ∈ refs c.next + _ by simp [hn]))
        obtain ⟨hs₁, -⟩ := hs''.grow (.of_keepsFrom KF) S₁
        obtain ⟨d', hd', hn₁, hb₁⟩ := KF b d hs''.reach hd
        refine ⟨_, b, pos, d', hs₁, hd', hn₁.trans hlast, by rw [hb₁, hsize], ?_⟩
        change r.dataRemain - k = _
        omega
  · cases hrun
    refine ⟨⟨R.sound, R.notRaw, R.len, ?_, ?_, fun x hx => ?_⟩, rfl⟩
    · change _ ≤ r.dataRemain - k
      omega
    · change r.dataRemain - k < _
      omega
    · obtain rfl := Option.some.inj (hx.symm.trans ha)
      refine ⟨_, b, pos, d, hs', hd, hlast, hsize, ?_⟩
      change r.dataRemain - k = _
      omega

/-- The buffer of the cursor, if there is one. -/
theorem cursor (R : Short h r own) (hderef : Exec.deref r.readbuf = .ok a) :
    r.readbuf = some a ∧ ∃ c, h.cell a = some c ∧ r.rpos ≤ c.body.size ∧
      c.body.size < 0x100000000 ∧ c.body.size - r.rpos ≤ r.dataRemain := by
  have ha : r.readbuf = some a := by
    cases hbuf : r.readbuf with
    | none =>
      rw [hbuf] at hderef
      cases hderef
    | some x =>
      rw [hbuf] at hderef
      rw [Except.ok.inj hderef]
  obtain ⟨ps, b, pos, d, hs, hd, -, hsize, hremain⟩ := R.span a ha
  obtain ⟨c, hc, hpos⟩ := hs.start
  have hle := (R.sound.wf a c hc).size_le
  have hcap := (R.sound.wf a c hc).lt
  have hrest := hs.rest_le hc hd hsize
  exact ⟨ha, c, hc, hpos, by omega, by omega⟩

theorem copyRound (R : Short h r own) (hrun : copyRound h r m = .ok (h', r', bs)) :
    Short h' r' own ∧ SameFields r r' := by
  unfold RPacket.copyRound at hrun
  obtain ⟨a, hderef, hrun⟩ := Exec.bind_eq_ok.mp hrun
  obtain ⟨ha, c, hc, hpos, hlt, hle⟩ := R.cursor hderef
  rw [get_eq hc, Exec.ok_bind] at hrun
  obtain ⟨k, hk⟩ : ∃ k, k = min (c.body.size - r.rpos) m := ⟨_, rfl⟩
  simp only [sub32_of_le hpos (by omega), ← hk, add32_of_lt (show r.rpos + k < 0x100000000 by omega),
    sub32_of_le (show k ≤ r.dataRemain by omega) R.lt] at hrun
  obtain ⟨out, -, hrun⟩ := Exec.bind_eq_ok.mp hrun
  obtain ⟨⟨h₁, r₁⟩, hnext, hrun⟩ := Exec.bind_eq_ok.mp hrun
  cases hrun
  exact R.nextBuffer ha hc (by omega) hnext

theorem rpacketReadLoop {fuel : ℕ} (R : Short h r own)
    (hrun : rpacketReadLoop fuel h r m = .ok (h', r', bs)) : Short h' r' own ∧ SameFields r r' := by
  induction fuel generalizing h r m bs with
  | zero => cases hrun
  | succ fuel ih =>
    rw [RPacket.rpacketReadLoop] at hrun
    split_ifs at hrun
    · cases hrun
      exact ⟨R, .refl _⟩
    · obtain ⟨⟨h₁, r₁, out₁⟩, hround, hrun⟩ := Exec.bind_eq_ok.mp hrun
      obtain ⟨⟨h₂, r₂, out₂⟩, hloop, hrun⟩ := Exec.bind_eq_ok.mp hrun
      cases hrun
      obtain ⟨R₁, F₁⟩ := R.copyRound hround
      obtain ⟨R₂, F₂⟩ := ih R₁ hloop
      exact ⟨R₂, F₁.trans F₂⟩

theorem rpacketReadUint {v : ℕ} (R : Short h r own) (hrun : rpacketReadUint n h r = .ok (h', r', v)) :
    Short h' r' own := by
  obtain ⟨⟨h₁, r₁, out⟩, hread, hrun⟩ := Exec.bind_eq_ok.mp hrun
  cases hrun
  unfold rpacketRead at hread
  split_ifs at hread
  · cases hread
    exact R
  · exact (R.rpacketReadLoop hread).1

/-- New buffers, and what is put into old ones, leave the packet as short as it was. -/
theorem shape (R : Short h r own) (hshape : Shape h h') (hspan : r'.readbuf = r.readbuf)
    (hpos : r'.rpos = r.rpos) (hremain : r'.dataRemain = r.dataRemain) (hlen : r'.len = r.len)
    (hraw : r'.raw = r.raw) (S' : Sound h' (r'.owned + own)) : Short h' r' own := by
  refine ⟨S', hraw.trans R.notRaw, hlen ▸ R.len, hremain ▸ R.remain, hremain ▸ R.lt, fun a ha => ?_⟩
  obtain ⟨ps, b, pos, d, hs, hd, hlast, hsize, hdata⟩ := R.span a (hspan ▸ ha)
  obtain ⟨d', hd', hn, -, hs'⟩ := hshape b d hd
  exact ⟨ps, b, pos, d', hpos ▸ hs.shape hshape, hd', hn.trans hlast, hs'.trans hsize,
    hremain.trans hdata⟩

theorem acquireBinbuf (R : Short h r own) (hrun : acquireBinbuf h r = .ok (h', r', b)) :
    Short h' r' own ∧ r'.binbuf = some b := by
  unfold RPacket.acquireBinbuf at hrun
  cases hbin : r.binbuf with
  | some b₀ =>
    rw [hbin] at hrun
    cases hrun
    exact ⟨R, hbin⟩
  | none =>
    obtain ⟨h₁, hnew, S₁, -, hne, -⟩ := bufferCreateAndAcquire_spec R.sound R.len
    rw [hbin] at hrun
    simp only [hnew, Exec.ok_bind] at hrun
    cases hrun
    refine ⟨R.shape (fun x e he => ⟨e, ?_, rfl, rfl, rfl⟩) rfl rfl rfl rfl rfl ?_, rfl⟩
    · rw [hne x (R.sound.bound x e he).ne, he]
    · rw [owned, hbin, refs_none, add_zero, ← Multiset.singleton_add] at S₁
      rw [owned, refs_some]
      convert S₁ using 1
      abel

theorem binaryLoop {fuel : ℕ} (R : Short h r own) (hbin : r.binbuf = some b)
    (hrun : binaryLoop b fuel h r m = .ok (h', r')) : Short h' r' own := by
  induction fuel generalizing h r m with
  | zero => cases hrun
  | succ fuel ih =>
    rw [binaryLoop_succ] at hrun
    split_ifs at hrun
    · cases hrun
      exact R
    · obtain ⟨⟨h₁, r₁, out⟩, hround, hrun⟩ := Exec.bind_eq_ok.mp hrun
      obtain ⟨h₂, hstore, hrun⟩ := Exec.bind_eq_ok.mp hrun
      obtain ⟨R₁, F₁⟩ := R.copyRound hround
      have hbin₁ : r₁.binbuf = some b := by
        rw [F₁]
        exact hbin
      obtain ⟨c, hc⟩ := R₁.sound.live (show b ∈ r₁.owned + own by simp [owned, hbin₁])
      obtain ⟨buf, S₂, hput, -⟩ := storeAt_ok R₁.sound hc hstore
      refine ih ?_ ?_ hrun
      · exact R₁.shape (hput ▸ .put hc buf) rfl rfl rfl rfl rfl S₂
      · exact hbin₁

theorem rpacketReadBinary {len len' : ℕ} {addr : Option (ℕ × ℕ)} (R : Short h r own)
    (hrun : rpacketReadBinary h r len = .ok (h', r', addr, len')) : Short h' r' own := by
  unfold RPacket.rpacketReadBinary at hrun
  rw [R.notRaw, if_neg Bool.false_ne_true] at hrun
  obtain ⟨⟨h₁, r₁, size⟩, hnum, hrun⟩ := Exec.bind_eq_ok.mp hrun
  have R₁ := R.rpacketReadUint hnum
  dsimp only at hrun
  split_ifs at hrun with hnone
  · cases hrun
    exact R₁
  obtain ⟨a, hderef, hrun⟩ := Exec.bind_eq_ok.mp hrun
  obtain ⟨ha, c, hc, hpos, hlt, hle⟩ := R₁.cursor hderef
  rw [get_eq hc, Exec.ok_bind, sub32_of_le hpos (by omega)] at hrun
  split_ifs at hrun with hinside
  · rw [add32_of_lt (by omega), sub32_of_le (by omega) R₁.lt] at hrun
    obtain ⟨⟨h₂, r₂⟩, hnext, hrun⟩ := Exec.bind_eq_ok.mp hrun
    cases hrun
    exact (R₁.nextBuffer ha hc hinside hnext).1
  · obtain ⟨⟨h₂, r₂, addr₂⟩, hcopy, hrun⟩ := Exec.bind_eq_ok.mp hrun
    cases hrun
    obtain ⟨⟨h₃, r₃, b⟩, hacq, hcopy⟩ := Exec.bind_eq_ok.mp hcopy
    obtain ⟨⟨h₄, r₄⟩, hloop, hcopy⟩ := Exec.bind_eq_ok.mp hcopy
    cases hcopy
    obtain ⟨R₃, hbin⟩ := R₁.acquireBinbuf hacq
    exact R₃.binaryLoop hbin hloop

/-- **No read** that returns makes up for what is missing. -/
theorem read {op : Read} (R : Short h r own) (hrun : read h r op = .ok (h', r', v)) :
    Short h' r' own := by
  cases op with
  | uint8 | uint16 | uint32 | uint64 =>
    obtain ⟨⟨h₁, r₁, n⟩, hnum, hrun⟩ := Exec.bind_eq_ok.mp hrun
    cases hrun
    exact R.rpacketReadUint hnum
  | string =>
    obtain ⟨⟨h₁, r₁, addr⟩, hstring, hrun⟩ := Exec.bind_eq_ok.mp hrun
    cases hrun
    obtain ⟨⟨h₂, r₂, addr₂, len⟩, hbin, hstring⟩ := Exec.bind_eq_ok.mp hstring
    cases hstring
    exact R.rpacketReadBinary hbin
  | binary =>
    obtain ⟨⟨h₁, r₁, addr, len⟩, hbin, hrun⟩ := Exec.bind_eq_ok.mp hrun
    cases hrun
    exact R.rpacketReadBinary hbin

/-- **What has been written is not read back** from a packet that is short. -/
theorem not_readsBack (R : Short h r own) (ops : List Write) : ¬ ReadsBack h r ops := by
  induction ops generalizing h r with
  | nil =>
    intro hzero
    have hremain := R.remain
    rw [ReadsBack, rpacketDataRemain] at hzero
    rw [lenSize] at hremain
    omega
  | cons op ops ih =>
    rw [ReadsBack]
    cases hread : RPacket.read h r (matching op) with
    | error f => exact fun h => h
    | ok x =>
      obtain ⟨h', r', v⟩ := x
      exact fun hback => ih (R.read hread) hback.2

end Short

/-- The second buffer of a packet of size 4, where the data begins. -/
theorem second_of_building (S : Sound h (w.owned + own)) (B : Building 4 h w a ps b c payload)
    (hraw : w.raw = false) (hne : payload ≠ []) :
    ∃ d n f, h.cell a = some d ∧ d.body.size = lenSize ∧ d.next = some n ∧ h.cell n = some f ∧
      f.body.capacity = 8 ∧ Span h n 0 ps b w.wpos := by
  obtain ⟨d, hd, hcap, hsecond⟩ := B.begins
  have hs : Span h a lenSize ps b w.wpos := by
    have := B.span
    rwa [hraw] at this
  obtain ⟨d', hd', hle⟩ := hs.start
  obtain rfl := Option.some.inj (hd'.symm.trans hd)
  have hsize : d'.body.size = lenSize := by
    have := (S.wf a d' hd).size_le
    rw [lenSize] at hle ⊢
    omega
  obtain ⟨-, -, hend⟩ := hs.advance hd (m := 0) (Nat.zero_le _) rfl
  rw [Nat.min_zero, List.drop_zero] at hend
  have hlen := B.bytes.length
  have hpos := List.length_pos_iff.mpr hne
  rcases hend with hlt | ⟨hnil, -⟩ | ⟨-, n, hn, hs'⟩
  · omega
  · rw [hnil, List.length_nil] at hlen
    omega
  rcases hsecond with rfl | ⟨m, f, hm, hf, hfcap⟩
  · obtain rfl := Option.some.inj (hd.symm.trans B.cell)
    rw [B.last] at hn
    cases hn
  · obtain rfl := Option.some.inj (hn.symm.trans hm)
    exact ⟨d', n, f, hd, hsize, hn, hf, hfcap, hs'⟩

/-- The cursor is put behind the first four bytes. -/
theorem short_of_create (S : Sound h (w.owned + own)) (B : Built 4 h w payload) (hraw : w.raw = false)
    (hlong : lenSize ≤ payload.length) :
    ∃ h' r, rpacketCreateByWpacket h w = .ok (h', r) ∧ Short h' r (w.owned + own) := by
  obtain ⟨a, ps, b, c, B⟩ := B
  obtain ⟨d, n, f, hd, hsize, hn, hf, hcap, hs⟩ := second_of_building S B hraw (by
    rintro rfl
    rw [lenSize, List.length_nil] at hlong
    omega)
  obtain ⟨h', r, hcreate, S', K, hr⟩ := rpacketCreateByWpacket_spec S B hraw hd
  rw [hsize, if_neg (Nat.lt_irrefl _), hn] at hr
  have hlen := B.bytes.length
  have hbound := B.dataSize_le
  have htotal := B.dataSize
  rw [lenSize] at hlong
  -- the first four bytes are in the second buffer
  obtain ⟨-, hs₄, hend⟩ := hs.advance hf (m := 4) (by omega) rfl
  have hfour : min (f.body.size - 0) 4 = 4 := by
    rcases hend with hlt | ⟨hnil, -⟩ | ⟨hfull, -⟩
    · omega
    · have := congrArg List.length hnil
      rw [List.length_drop, List.length_nil] at this
      omega
    · omega
  rw [hfour, zero_add] at hs₄
  have hlive : ∃ c, h'.cell n = some c := S'.live (by simp [hr, owned])
  have KF := K.from S'.toExact hlive
  obtain ⟨hs', -⟩ := hs₄.grow (.of_keepsFrom KF) S'
  obtain ⟨c', hc', hlast, hbody⟩ := KF b c hs₄.reach B.cell
  rw [hr] at S' hcreate
  refine ⟨h', _, hcreate, S', rfl, ?_, hlong, ?_, fun x hx => ?_⟩
  · rw [headerSize]
    dsimp only
    omega
  · dsimp only
    omega
  · obtain rfl := Option.some.inj hx
    refine ⟨_, b, w.wpos, c', hs', hc', hlast.trans B.last, by rw [hbody, B.size], ?_⟩
    rw [List.length_drop, lenSize]
    dsimp only
    omega

/-! ## Less than four bytes -/

/-- All `n` bytes, fewer than four, are before the cursor, in a last buffer of eight. -/
structure Passed (h : Heap) (r : RPacket) (own : Multiset ℕ) (b n : ℕ) : Prop where
  sound : Sound h (r.owned + own)
  readbuf : r.readbuf = some b
  rpos : r.rpos = lenSize
  remain : r.dataRemain = n
  small : n < lenSize
  cell : ∃ c, h.cell b = some c ∧ c.next = none ∧ c.body.size = n ∧ c.body.capacity = 8
  clear : ∀ i, n ≤ i → i < 8 → byteAt h (b, i) = some 0

theorem passed_of_create (S : Sound h (w.owned + own)) (B : Built 4 h w payload) (hraw : w.raw = false)
    (hne : payload ≠ []) (hshort : payload.length < lenSize) :
    ∃ h' r b, rpacketCreateByWpacket h w = .ok (h', r) ∧ r.len = payload.length ∧
      Passed h' r (w.owned + own) b payload.length := by
  obtain ⟨a, ps, b, c, B⟩ := B
  obtain ⟨d, n, f, hd, hsize, hn, hf, hcap, hs⟩ := second_of_building S B hraw hne
  obtain ⟨h', r, hcreate, S', K, hr⟩ := rpacketCreateByWpacket_spec S B hraw hd
  rw [hsize, if_neg (Nat.lt_irrefl _), hn] at hr
  have hlen := B.bytes.length
  rw [lenSize] at hshort
  obtain ⟨rfl, hpos⟩ := hs.finish_of_lt hf (by omega)
  obtain rfl := Option.some.inj (hf.symm.trans B.cell)
  have hlive : ∃ c, h'.cell b = some c := S'.live (by simp [hr, owned])
  obtain ⟨c', hc'⟩ := hlive
  obtain ⟨c₀, hc₀, hlast, hbody⟩ := K.cell b c' hc'
  obtain rfl := Option.some.inj (hc₀.symm.trans hf)
  rw [hr] at S' hcreate
  refine ⟨h', _, b, hcreate, rfl, S', rfl, rfl, rfl, hshort,
    ⟨c', hc', hlast.trans B.last, by rw [hbody, B.size, hpos]; omega, by rw [hbody, hcap]⟩,
    fun i hge hlt => ?_⟩
  rw [byteAt_of_keeps K ⟨c', hc'⟩]
  exact B.clear i (by omega) (by omega)

/-- **The first read** returns zero. -/
theorem Passed.read (P : Passed h r own b n) (hm : 0 < m) (hm2 : m ≤ 2) (hle : m ≤ n) :
    ∃ h' r', rpacketReadUint m h r = .ok (h', r', 0) ∧ r'.dataRemain = n - m ∧
      (n - m ≠ 0 → r'.readbuf = none) := by
  obtain ⟨c, hc, hlast, hsize, hcap⟩ := P.cell
  have hsmall := P.small
  have hrpos := P.rpos
  rw [lenSize] at hsmall hrpos
  have hzero : Bytes h (places b r.rpos m) (List.replicate m 0) := by
    rw [Bytes, List.map_replicate, List.eq_replicate_iff]
    refine ⟨by simp, fun x hx => ?_⟩
    obtain ⟨⟨y, i⟩, hp, rfl⟩ := List.mem_map.mp hx
    obtain ⟨rfl, hge, hlt⟩ := mem_places.mp hp
    dsimp only at hge hlt
    exact P.clear i (by omega) (by omega)
  obtain ⟨out, hload, hout⟩ := load_spec hc
    (show r.rpos + m ≤ c.body.buf.length by rw [(P.sound.wf b c hc).length]; omega)
  obtain rfl := hout.unique hzero
  have hderef : Exec.deref r.readbuf = .ok b := by rw [P.readbuf, Exec.deref_some]
  have hmin : min (sub32 c.body.size r.rpos) m = m := by
    rw [hsize, sub32]
    omega
  have S := P.sound
  rw [owned_readbuf] at S
  obtain ⟨h₁, hacq, -⟩ := bufferAcquire_spec S (p := none) (by simp)
  obtain ⟨h', r', hnext, hremain, hbuf⟩ : ∃ h' r',
      nextBuffer h { r with rpos := r.rpos + m, dataRemain := n - m } c = .ok (h', r') ∧
        r'.dataRemain = n - m ∧ (n - m ≠ 0 → r'.readbuf = none) := by
    unfold nextBuffer
    split_ifs with hmove
    · rw [hlast]
      refine ⟨h₁, { r with rpos := 0, dataRemain := n - m, readbuf := none }, ?_, rfl, fun _ => rfl⟩
      rw [show ({ r with rpos := r.rpos + m, dataRemain := n - m } : RPacket).readbuf = r.readbuf from
        rfl, hacq]
      rfl
    · refine ⟨h, _, rfl, rfl, fun hne => absurd ⟨?_, hne⟩ hmove⟩
      change r.rpos + m ≥ _
      omega
  have hround : copyRound h r m = .ok (h', r', List.replicate m 0) := by
    rw [copyRound]
    simp only [hderef, Exec.ok_bind, get_eq hc, hmin, hload, P.remain,
      add32_of_lt (show r.rpos + m < 0x100000000 by omega),
      sub32_of_le hle (by omega), hnext]
    rfl
  refine ⟨h', r', ?_, hremain, hbuf⟩
  have hloop : rpacketReadLoop (h.fresh + m + 1) h r m = .ok (h', r', List.replicate m 0) := by
    obtain ⟨fuel, hfuel⟩ : ∃ fuel, h.fresh + m = fuel + 1 := ⟨h.fresh + m - 1, by omega⟩
    rw [hfuel, rpacketReadLoop, if_neg (by omega), hround, Exec.ok_bind]
    simp only [List.length_replicate, Nat.sub_self, rpacketReadLoop, if_pos, Exec.ok_bind,
      List.append_nil]
    rfl
  have hbytes : ofBytes (List.replicate m 0) = 0 := by
    obtain rfl | rfl : m = 1 ∨ m = 2 := by omega
    · rfl
    · rfl
  rw [rpacketReadUint, rpacketRead, if_neg (by rw [P.remain]; omega), hloop, Exec.ok_bind, ← hbytes]
  rfl

/-- No further bytes can be read. -/
theorem rpacketReadUint_none (hbuf : r.readbuf = none) (hm : 0 < m) (hle : m ≤ r.dataRemain) :
    rpacketReadUint m h r = .error .nullPointer := by
  rw [rpacketReadUint, rpacketRead, if_neg (by omega), rpacketReadLoop, if_neg (by omega), copyRound,
    hbuf]
  rfl

/-- A write of less than four bytes. -/
theorem Write.small (op : Write) (hop : (op.bytes false).length < lenSize) :
    0 < (op.bytes false).length ∧ (op.bytes false).length ≤ 2 ∧
      (∀ h r, RPacket.read h r (matching op) =
        (rpacketReadUint (op.bytes false).length h r >>= fun x => .ok (x.1, x.2.1, .number x.2.2))) ∧
      ∀ h, Returned h op (.number 0) ↔ op = .uint8 0 ∨ op = .uint16 0 := by
  cases op with
  | uint8 value =>
    refine ⟨Nat.one_pos, Nat.le_succ 1, fun _ _ => rfl, fun h => ?_⟩
    simp only [Returned, Write.uint8.injEq, reduceCtorEq, or_false]
    exact eq_comm.trans (UInt8.toNat_inj (b := 0))
  | uint16 value =>
    refine ⟨Nat.two_pos, le_rfl, fun _ _ => rfl, fun h => ?_⟩
    simp only [Returned, Write.uint16.injEq, reduceCtorEq, false_or]
    exact eq_comm.trans (UInt16.toNat_inj (b := 0))
  | uint32 value | uint64 value =>
    rw [Write.bytes, length_toBytes, lenSize] at hop
    omega
  | string value | binary value =>
    rw [Write.bytes, binaryBytes, List.length_append, if_neg Bool.false_ne_true, length_toBytes] at hop
    omega

theorem Write.bytes_pos (op : Write) : 0 < (op.bytes false).length := by
  by_cases hop : (op.bytes false).length < lenSize
  · exact (Write.small op hop).1
  · rw [lenSize] at hop
    omega

/-- Less than four bytes come back if they are a single zero. -/
theorem Passed.readsBack_iff (P : Passed h r own b (ops.flatMap (Write.bytes false)).length)
    (hne : ops ≠ []) : ReadsBack h r ops ↔ ops = [.uint8 0] ∨ ops = [.uint16 0] := by
  obtain ⟨op, rest, rfl⟩ := List.exists_cons_of_ne_nil hne
  have hsmall := P.small
  rw [List.flatMap_cons, List.length_append] at hsmall P
  obtain ⟨hpos, htwo, hmatching, hret⟩ := Write.small op (by omega)
  obtain ⟨h', r', hread, hremain, hbuf⟩ := P.read hpos htwo (Nat.le_add_right _ _)
  rw [Nat.add_sub_cancel_left] at hremain hbuf
  rw [ReadsBack, hmatching, hread, Exec.ok_bind]
  dsimp only
  rw [hret]
  cases rest with
  | nil => simp [ReadsBack, rpacketDataRemain, hremain]
  | cons op' rest =>
    -- the second read has no buffer
    rw [List.flatMap_cons, List.length_append] at hsmall hremain hbuf
    obtain ⟨hpos', -, hmatching', -⟩ := Write.small op' (by omega)
    have hnone := rpacketReadUint_none (h := h') (hbuf (by omega)) hpos' (by omega)
    rw [ReadsBack, hmatching', hnone]
    simp

/-! ## The whole way -/

/-- **Reading back what has been written** to a packet created with size 4 or more succeeds exactly
if no length of a string is cut off, and with size 4 only if nothing, or a single zero of one or two
bytes, has been written. -/
theorem roundTrips_iff (S : Sound h own) (hmin : 4 ≤ size) (hsize : size < 0x100000000)
    (hops : ∀ op ∈ ops, Write.Allowed op) (hrun : createAndWrite h size ops = .ok (h', w)) :
    RoundTrips h' w ops ↔ Fits size ops := by
  obtain ⟨⟨h₁, w₁⟩, hcreate, hwrite⟩ := Exec.bind_eq_ok.mp hrun
  obtain ⟨S₁, B₁, hraw₁⟩ := wpacketCreate_ok S hsize hcreate
  obtain ⟨S', B, hraw⟩ := writeAll_ok S₁ B₁ hwrite
  rw [List.nil_append, hraw₁] at B
  rw [hraw₁] at hraw
  by_cases hnil : ops = []
  · -- nothing has been written
    subst hnil
    obtain ⟨a, ps, b, c, B⟩ := B
    obtain ⟨d, hd, -⟩ := B.begins
    obtain ⟨h₂, r, hcreate₂, -, -, hr⟩ := rpacketCreateByWpacket_spec S' B hraw hd
    refine iff_of_true ?_ ⟨by simp, fun _ => .inl rfl⟩
    rw [RoundTrips, hcreate₂, hr]
    exact ⟨rfl, rfl⟩
  have hne : ops.flatMap (Write.bytes false) ≠ [] := by
    obtain ⟨op, rest, rfl⟩ := List.exists_cons_of_ne_nil hnil
    have := Write.bytes_pos op
    rw [← List.length_pos_iff, List.flatMap_cons, List.length_append]
    omega
  by_cases hfour : size = 4
  · subst hfour
    change Built 4 h' w _ at B
    by_cases hlong : lenSize ≤ (ops.flatMap (Write.bytes false)).length
    · obtain ⟨h₂, r, hcreate₂, R⟩ := short_of_create S' B hraw hlong
      refine iff_of_false ?_ fun hfits => ?_
      · rw [RoundTrips, hcreate₂]
        exact fun hback => R.not_readsBack ops hback.2
      · rw [lenSize] at hlong
        obtain rfl | rfl | rfl := hfits.2 rfl
        · exact hnil rfl
        · exact absurd hlong (by decide)
        · exact absurd hlong (by decide)
    · obtain ⟨h₂, r, b, hcreate₂, hlen, P⟩ := passed_of_create S' B hraw hne (by omega)
      rw [RoundTrips, hcreate₂]
      change (r.len = _ ∧ _) ↔ _
      rw [P.readsBack_iff hnil, Fits]
      constructor
      · rintro ⟨-, rfl | rfl⟩
        · exact ⟨by simp [Write.Fits], fun _ => .inr (.inl rfl)⟩
        · exact ⟨by simp [Write.Fits], fun _ => .inr (.inr rfl)⟩
      · exact fun hfits => ⟨hlen, (hfits.2 rfl).resolve_left hnil⟩
  · -- the first buffer has room behind the length
    have hcap : lenSize < getSizeOfPow2 size := by
      obtain ⟨a, ps, b, c, B⟩ := B
      obtain ⟨d, hd, hcap, -⟩ := B.begins
      have hs := B.span.start
      obtain ⟨d', hd', hle⟩ := hs
      obtain rfl := Option.some.inj (hd'.symm.trans hd)
      have := (S'.wf a d' hd).size_le
      rw [hraw] at hle
      change lenSize ≤ _ at hle
      rw [lenSize] at hle ⊢
      rcases getSizeOfPow2_bounds hsize with hzero | ⟨hge, -⟩
      · omega
      · omega
    obtain ⟨h₂, r, hcreate₂, hlen, R⟩ := reading_of_create S' B hraw hcap hne
    rw [RoundTrips, hcreate₂]
    change (r.len = _ ∧ _) ↔ _
    rw [readsBack_iff R hops, Fits]
    exact ⟨fun hback => ⟨hback.2, fun h => absurd h hfour⟩, fun hfits => ⟨hlen, hfits.1⟩⟩

/-- Numbers, a string and binary data across the edges of three buffers. -/
theorem roundTrips_of_three_buffers : ∃ h w,
    createAndWrite RefHeap.empty 8 [.uint32 7, .string [104, 105], .binary [1, 2, 3, 4, 5, 6, 7, 8, 9],
      .uint64 5] = .ok (h, w) ∧
      RoundTrips h w [.uint32 7, .string [104, 105], .binary [1, 2, 3, 4, 5, 6, 7, 8, 9], .uint64 5] := by
  obtain ⟨⟨h, w⟩, hrun⟩ := Exec.exists_ok (x := createAndWrite RefHeap.empty 8 [.uint32 7,
    .string [104, 105], .binary [1, 2, 3, 4, 5, 6, 7, 8, 9], .uint64 5]) (by decide +kernel)
  exact ⟨h, w, hrun, (roundTrips_iff sound_empty (by decide) (by decide) (by decide) hrun).mpr
    ⟨by decide, by decide⟩⟩

/-- **One byte that does not come back** from a packet of size 4. -/
theorem not_roundTrips_one_byte : ∃ h w,
    createAndWrite RefHeap.empty 4 [.uint8 1] = .ok (h, w) ∧ ¬ RoundTrips h w [.uint8 1] :=
  ⟨_, _, rfl, by decide +kernel⟩

end RPacket

end Kendylib
