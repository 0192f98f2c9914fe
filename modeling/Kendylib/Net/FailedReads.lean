import Kendylib.Net.Reading
import Kendylib.Net.WritingRuns

/-!
# Reads that cannot be satisfied

A read that asks for more bytes than remain should leave the packet as it was. The fixed-width reads
do. A read of a block takes the four bytes of the length first, and puts them back in no case: it
leaves the packet as it was only if these four bytes are not there, and then only if no data is left
or the cursor is not at the end of its buffer, where it goes on to the next one
(`unchangedIfFails_iff`).

Nothing is assumed of what the packet holds, or of where its cursor is.
-/

namespace Kendylib

open RefHeap Buffer

namespace RPacket

variable {h h' : Heap} {r r' : RPacket} {own : Multiset ℕ} {ps : List (ℕ × ℕ)} {bs bytes : List UInt8}
  {a n m w fuel : ℕ} {c : Cell Block} {op : Read}

/-- The bytes that a fixed-width read asks for. -/
def Read.width : Read → Option ℕ
  | .uint8 => some 1
  | .uint16 => some 2
  | .uint32 => some 4
  | .uint64 => some 8
  | .string => none
  | .binary => none

/-- The read asks for more bytes than remain: for its width, or for the four bytes of a length and
the bytes that this announces. A raw packet is asked for what remains only. -/
def AsksTooMuch (h : Heap) (r : RPacket) (op : Read) : Prop :=
  match op.width with
  | some w => r.dataRemain < w
  | none => r.raw = false ∧ (r.dataRemain < lenSize ∨
      ∃ h' r' n, rpacketReadUint32 h r = .ok (h', r', n) ∧ r.dataRemain < lenSize + n)

/-- The read leaves the packet as it was. -/
def ChangesNothing (h : Heap) (r : RPacket) (op : Read) : Prop :=
  ∃ h' v, read h r op = .ok (h', r, v)

/-- A read that asks for too much leaves the packet as it was. -/
def UnchangedIfFails (h : Heap) (r : RPacket) (op : Read) : Prop :=
  AsksTooMuch h r op → ChangesNothing h r op

/-- The cursor is before a byte of its buffer. -/
def InsideBuffer (h : Heap) (r : RPacket) : Prop :=
  ∃ a c, r.readbuf = some a ∧ h.cell a = some c ∧ r.rpos < c.body.size

/-! ## Fixed-width reads -/

theorem rpacketReadUint_few (h : Heap) (hfew : r.dataRemain < w) :
    rpacketReadUint w h r = .ok (h, r, 0) := by
  rw [rpacketReadUint, rpacketRead, if_pos hfew]
  rfl

theorem read_width (hw : op.width = some w) : read h r op =
    (rpacketReadUint w h r >>= fun x => .ok (x.1, x.2.1, .number x.2.2)) := by
  cases op with
  | uint8 | uint16 | uint32 | uint64 =>
    obtain rfl := Option.some.inj hw
    rfl
  | string | binary => cases hw

theorem copyRound_remain (hx : copyRound h r m = .ok (h', r', bytes)) :
    bytes.length ≤ m ∧ r'.dataRemain = sub32 r.dataRemain bytes.length := by
  obtain ⟨a, -, hx⟩ := Exec.bind_eq_ok.mp hx
  obtain ⟨c, -, hx⟩ := Exec.bind_eq_ok.mp hx
  obtain ⟨out, hload, hx⟩ := Exec.bind_eq_ok.mp hx
  obtain ⟨⟨h₁, r₁⟩, hnext, hx⟩ := Exec.bind_eq_ok.mp hx
  obtain ⟨-, hpair⟩ := Prod.mk.inj (Except.ok.inj hx)
  obtain ⟨rfl, rfl⟩ := Prod.mk.inj hpair
  have hlen : out.length = min (sub32 c.body.size r.rpos) m := by
    rw [Block.load] at hload
    split_ifs at hload with hin
    cases Except.ok.inj hload
    rw [List.length_take, List.length_drop]
    omega
  refine ⟨by omega, ?_⟩
  rw [hlen]
  rw [nextBuffer] at hnext
  split_ifs at hnext with hmove
  · obtain ⟨h₂, -, hnext⟩ := Exec.bind_eq_ok.mp hnext
    cases Except.ok.inj hnext
    rfl
  · cases Except.ok.inj hnext
    rfl

/-- **A number that is read** has been taken from what remains. -/
theorem rpacketReadUint_remain (hlt : r.dataRemain < 0x100000000) (hle : w ≤ r.dataRemain)
    (hx : rpacketReadUint w h r = .ok (h', r', n)) : r'.dataRemain = r.dataRemain - w := by
  have hloop : ∀ fuel h r m bytes, m ≤ r.dataRemain → r.dataRemain < 0x100000000 →
      rpacketReadLoop fuel h r m = .ok (h', r', bytes) → r'.dataRemain = r.dataRemain - m := by
    intro fuel
    induction fuel with
    | zero => nofun
    | succ fuel ih =>
      intro h r m bytes hm hr hx
      rw [rpacketReadLoop] at hx
      split_ifs at hx with hzero
      · cases Except.ok.inj hx
        rw [hzero, Nat.sub_zero]
      · obtain ⟨⟨h₁, r₁, out⟩, hround, hx⟩ := Exec.bind_eq_ok.mp hx
        obtain ⟨⟨h₂, r₂, out'⟩, hrest, hx⟩ := Exec.bind_eq_ok.mp hx
        cases Except.ok.inj hx
        obtain ⟨hout, hremain⟩ := copyRound_remain hround
        rw [sub32_of_le (by omega) hr] at hremain
        have := ih h₁ r₁ (m - out.length) out' (by omega) (by omega) hrest
        omega
  obtain ⟨⟨h₁, r₁, out⟩, hread, hx⟩ := Exec.bind_eq_ok.mp hx
  cases Except.ok.inj hx
  rw [rpacketRead, if_neg (by omega)] at hread
  exact hloop _ _ _ _ _ hle hlt hread

/-! ## Blocks -/

/-- A read of a block from a packet that is not raw. -/
theorem read_block (hw : op.width = none) : ∃ f : Option (ℕ × ℕ) × ℕ → Value,
    read h r op = (rpacketReadBinary h r 0 >>= fun x => .ok (x.1, x.2.1, f x.2.2)) := by
  cases op with
  | uint8 | uint16 | uint32 | uint64 => cases hw
  | string =>
    refine ⟨fun x => .data x.1 none, ?_⟩
    rw [read, rpacketReadString, bind_assoc]
    rfl
  | binary => exact ⟨fun x => .data x.1 (some x.2), rfl⟩

theorem changesNothing_block (hw : op.width = none) :
    ChangesNothing h r op ↔ ∃ h' x, rpacketReadBinary h r 0 = .ok (h', r, x) := by
  obtain ⟨f, hread⟩ := read_block (h := h) (r := r) hw
  rw [ChangesNothing, hread]
  constructor
  · rintro ⟨h', v, hx⟩
    obtain ⟨⟨h₁, r₁, x⟩, hblock, hx⟩ := Exec.bind_eq_ok.mp hx
    obtain ⟨-, hpair⟩ := Prod.mk.inj (Except.ok.inj hx)
    obtain ⟨rfl, -⟩ := Prod.mk.inj hpair
    exact ⟨h₁, x, hblock⟩
  · rintro ⟨h', x, hblock⟩
    exact ⟨h', f x, by rw [hblock]; rfl⟩

/-- **A length that announces too much** has been read, and is not put back. -/
theorem rpacketReadBinary_long (hraw : r.raw = false) (len : ℕ)
    (hread : rpacketReadUint32 h r = .ok (h', r', n)) (hlong : r'.dataRemain < n) :
    rpacketReadBinary h r len = .ok (h', r', none, n) := by
  rw [rpacketReadBinary, hraw, if_neg Bool.false_ne_true, hread, Exec.ok_bind]
  dsimp only
  rw [if_pos (.inr hlong)]
  rfl

/-- **A length that is not there** counts as zero: the block is empty, and lies at the cursor. -/
theorem rpacketReadBinary_few (hraw : r.raw = false) (len : ℕ) (hfew : r.dataRemain < lenSize)
    (hpos : r.rpos < 0x100000000) (hsome : r.dataRemain ≠ 0) :
    rpacketReadBinary h r len = (Exec.deref r.readbuf >>= fun a => h.get a >>= fun c =>
      nextBuffer h r c >>= fun x => .ok (x.1, x.2, some (a, r.rpos), 0)) := by
  have hlenSize : lenSize = 4 := rfl
  rw [rpacketReadBinary, hraw, if_neg Bool.false_ne_true, rpacketReadUint32,
    rpacketReadUint_few h (show r.dataRemain < 4 from hfew), Exec.ok_bind]
  dsimp only
  rw [if_neg (by omega)]
  refine congrArg _ (funext fun a => congrArg _ (funext fun c => ?_))
  rw [if_pos (Nat.zero_le _), add32_of_lt (by omega), sub32_of_le (Nat.zero_le _) (by omega),
    Nat.add_zero, Nat.sub_zero]
  rfl

/-- **The cursor stays** exactly if it is before a byte of its buffer. -/
theorem changesNothing_few (S : Sound h (r.owned + own)) (hw : op.width = none)
    (hraw : r.raw = false) (hfew : r.dataRemain < lenSize) (hpos : r.rpos < 0x100000000)
    (hsome : r.dataRemain ≠ 0) : ChangesNothing h r op ↔ InsideBuffer h r := by
  rw [changesNothing_block hw, rpacketReadBinary_few hraw 0 hfew hpos hsome]
  constructor
  · rintro ⟨h', x, hx⟩
    obtain ⟨a, ha, hx⟩ := Exec.bind_eq_ok.mp hx
    obtain ⟨c, hc, hx⟩ := Exec.bind_eq_ok.mp hx
    obtain ⟨⟨h₁, r₁⟩, hnext, hx⟩ := Exec.bind_eq_ok.mp hx
    rw [Exec.deref_eq_ok] at ha
    rw [get_eq_ok] at hc
    refine ⟨a, c, ha, hc, ?_⟩
    by_contra hend
    rw [nextBuffer, if_pos ⟨by omega, hsome⟩] at hnext
    obtain ⟨h₂, -, hnext⟩ := Exec.bind_eq_ok.mp hnext
    cases Except.ok.inj hnext
    obtain ⟨-, hr⟩ := Prod.mk.inj (Except.ok.inj hx)
    -- the cursor would have to be in the buffer after its own
    have hself : c.next = some a := by
      rw [← ha]
      exact congrArg RPacket.readbuf (Prod.mk.inj hr).1
    exact absurd (S.next_live hc hself).1 (lt_irrefl a)
  · rintro ⟨a, c, ha, hc, hlt⟩
    refine ⟨h, (some (a, r.rpos), 0), ?_⟩
    rw [ha, Exec.deref_some, Exec.ok_bind, get_eq hc, Exec.ok_bind, nextBuffer,
      if_neg (by omega)]
    rfl

/-- **A length that is there** stays read. -/
theorem not_changesNothing_long (hw : op.width = none) (hraw : r.raw = false)
    (hlt : r.dataRemain < 0x100000000) (henough : lenSize ≤ r.dataRemain)
    (hread : rpacketReadUint32 h r = .ok (h', r', n)) (hlong : r.dataRemain < lenSize + n) :
    ¬ ChangesNothing h r op := by
  intro hsame
  have hlenSize : lenSize = 4 := rfl
  have htaken := rpacketReadUint_remain hlt (by omega) hread
  obtain ⟨h'', x, hblock⟩ := (changesNothing_block hw).mp hsame
  rw [rpacketReadBinary_long hraw 0 hread (by omega)] at hblock
  obtain ⟨-, hpair⟩ := Prod.mk.inj (Except.ok.inj hblock)
  rw [(Prod.mk.inj hpair).1] at htaken
  omega

/-- What a block asks for, where the bytes not read yet lie at the cursor. -/
theorem asksTooMuch_block (S : Sound h (refs r.readbuf + own)) (U : UnreadAt h r ps bs)
    (hw : op.width = none) : AsksTooMuch h r op ↔
      r.raw = false ∧ (bs.length < lenSize ∨ bs.length < lenSize + ofBytes (bs.take lenSize)) := by
  rw [AsksTooMuch, hw, U.remain]
  refine and_congr_right fun _ => ?_
  by_cases hfew : bs.length < lenSize
  · simp [hfew]
  · obtain ⟨h', r', hread, -⟩ := rpacketReadUint_spec S U (Nat.le_of_not_lt hfew)
    refine or_congr_right ⟨?_, fun hlong => ⟨h', r', _, hread, hlong⟩⟩
    rintro ⟨h'', r'', n, hread', hlong⟩
    obtain ⟨-, hpair⟩ := Prod.mk.inj (Except.ok.inj (hread'.symm.trans hread))
    rwa [(Prod.mk.inj hpair).2] at hlong

/-! ## All reads -/

/-- **A read that cannot be satisfied changes nothing** exactly if it is of fixed width, or nothing
remains, or too little remains for a length and the cursor is not at the end of its buffer. -/
theorem unchangedIfFails_iff (S : Sound h (r.owned + own)) (hpos : r.rpos < 0x100000000)
    (hremain : r.dataRemain < 0x100000000) (op : Read) :
    UnchangedIfFails h r op ↔ (AsksTooMuch h r op → op.width.isSome ∨ r.dataRemain = 0 ∨
      (r.dataRemain < lenSize ∧ InsideBuffer h r)) := by
  rw [UnchangedIfFails]
  refine forall_congr' fun htoo => ?_
  cases hw : op.width with
  | some w =>
    have hfew : r.dataRemain < w := by rwa [AsksTooMuch, hw] at htoo
    refine ⟨fun _ => .inl rfl, fun _ => ⟨h, .number 0, ?_⟩⟩
    rw [read_width hw, rpacketReadUint_few h hfew]
    rfl
  | none =>
    rw [AsksTooMuch, hw] at htoo
    obtain ⟨hraw, htoo⟩ := htoo
    have hlenSize : lenSize = 4 := rfl
    by_cases hzero : r.dataRemain = 0
    · refine ⟨fun _ => .inr (.inl hzero), fun _ => (changesNothing_block hw).mpr ⟨h, (none, 0), ?_⟩⟩
      rw [rpacketReadBinary, hraw, if_neg Bool.false_ne_true, rpacketReadUint32,
        rpacketReadUint_few h (by omega), Exec.ok_bind]
      dsimp only
      rw [if_pos (.inl hzero)]
      rfl
    by_cases hfew : r.dataRemain < lenSize
    · rw [changesNothing_few S hw hraw hfew hpos hzero]
      simp [hzero, hfew]
    · obtain ⟨h', r', n, hread, hlong⟩ := htoo.resolve_left hfew
      refine iff_of_false ?_ (by simp [hzero, hfew])
      exact not_changesNothing_long hw hraw hremain (Nat.le_of_not_lt hfew) hread hlong

/-- A number of two bytes is asked for, and one byte is there. -/
theorem unchangedIfFails_uint16 : ∃ h₁ w₁ h w h' r,
    WPacket.wpacketCreate RefHeap.empty 8 false = .ok (h₁, w₁) ∧
      WPacket.writeAll h₁ w₁ [.uint8 7] = .ok (h, w) ∧ WPacket.rpacketCreateByWpacket h w = .ok (h', r) ∧
      AsksTooMuch h' r .uint16 ∧ UnchangedIfFails h' r .uint16 := by
  obtain ⟨h₁, w₁, hcreate, S₁, B₁, hraw₁⟩ := WPacket.wpacketCreate_spec sound_empty
    (show 8 < 0x100000000 by decide) (show false = true ∨ lenSize ≤ WPacket.getSizeOfPow2 8 by decide)
  obtain ⟨⟨h, w⟩, hwrite⟩ := WPacket.writeAll_ends S₁ B₁
    (show w₁.dataSize + ([WPacket.Write.uint8 7].flatMap
      (WPacket.Write.bytes w₁.raw)).length ≤ _ by
      rw [B₁.dataSize.1, hraw₁]
      decide)
  obtain ⟨S, ⟨a, ps, b, c, B⟩, hraw⟩ := WPacket.writeAll_ok S₁ B₁ hwrite
  obtain ⟨d, hd, -⟩ := B.begins
  obtain ⟨h', r, hpacket, S', -, hr⟩ := rpacketCreateByWpacket_spec S B (hraw.trans hraw₁) hd
  have hone : r.dataRemain = 1 := by
    rw [hr, hraw₁]
    rfl
  have hpos : r.rpos = lenSize := by rw [hr]
  refine ⟨h₁, w₁, h, w, h', r, hcreate, hwrite, hpacket, ?_, ?_⟩
  · rw [AsksTooMuch]
    change r.dataRemain < 2
    omega
  · exact (unchangedIfFails_iff S' (by rw [hpos]; decide) (by omega) .uint16).mpr fun _ => .inl rfl

/-- A block of five bytes is announced, and one byte is there. -/
theorem not_unchangedIfFails_long_block : ∃ h₁ w₁ h w h' r,
    WPacket.wpacketCreate RefHeap.empty 8 false = .ok (h₁, w₁) ∧
      WPacket.writeAll h₁ w₁ [.uint32 5, .uint8 7] = .ok (h, w) ∧
      WPacket.rpacketCreateByWpacket h w = .ok (h', r) ∧ ¬ UnchangedIfFails h' r .binary := by
  obtain ⟨x, hrun⟩ := Exec.exists_ok (x := do
    let y ← WPacket.wpacketCreate RefHeap.empty 8 false
    let z ← WPacket.writeAll y.1 y.2 [.uint32 5, .uint8 7]
    let s ← WPacket.rpacketCreateByWpacket z.1 z.2
    let v ← rpacketReadUint32 s.1 s.2
    if s.2.raw = false ∧ s.2.dataRemain = 5 ∧ v.2.2 = 5 then return s else .error .fuel)
    (by decide +kernel)
  obtain ⟨⟨h₁, w₁⟩, hcreate, hrun⟩ := Exec.bind_eq_ok.mp hrun
  obtain ⟨⟨h, w⟩, hwrite, hrun⟩ := Exec.bind_eq_ok.mp hrun
  obtain ⟨⟨h', r⟩, hpacket, hrun⟩ := Exec.bind_eq_ok.mp hrun
  obtain ⟨⟨h'', r', n⟩, hread, hrun⟩ := Exec.bind_eq_ok.mp hrun
  split_ifs at hrun with hcond
  obtain ⟨hraw, hremain, hlong⟩ : r.raw = false ∧ r.dataRemain = 5 ∧ n = 5 := hcond
  have hlong' : r.dataRemain < lenSize + n := by
    rw [hremain, hlong]
    decide
  refine ⟨h₁, w₁, h, w, h', r, hcreate, hwrite, hpacket, fun hsame => ?_⟩
  refine not_changesNothing_long rfl hraw (by omega) ?_ hread hlong'
    (hsame ⟨hraw, .inr ⟨h'', r', n, hread, hlong'⟩⟩)
  rw [hremain]
  decide

end RPacket

end Kendylib
