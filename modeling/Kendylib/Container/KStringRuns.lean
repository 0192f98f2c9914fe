import Kendylib.Container.KString
import Kendylib.Foundations.Run

/-!
# The room in a string

A run creates strings, assigns texts to them and appends texts to them. Beside each string it keeps
the text that the calls so far are to leave in it.

`string_cat_cstr` needs `len1 + len2 + 1` bytes and asks for `len1 + len2 - 1`, both when it
compares with `buf_size` and when it calls `realloc`. So the texts are in their blocks, with no
write outside one on the way, exactly as long as every text that is appended finds room in the block
that the string has already (`fit_iff_hasRoom`). Two empty texts are the exception: the difference
wraps, and `realloc` is asked for `2 ^ 32 - 1` bytes. -/

namespace Kendylib.Strings

open Exec

/-- The string holds this text, in a block with room for it, and `buf_size` does not say more than
the block has. A string without contents has no block. -/
def KString.Fits (s : KString) : Option CString → Prop
  | none => s.str = none ∧ s.bufSize = 0
  | some t => ∃ mem, s.str = some mem ∧ Text mem t ∧ t.length + 1 ≤ mem.length ∧
      s.bufSize ≤ mem.length

/-! ## Copying texts -/

variable {mem dst src : List UInt8} {t u : CString} {a b : KString}

theorem strncpy_text (hsrc : Text src u) (hroom : u.length + 1 ≤ dst.length) :
    ∃ mem, strncpy dst src (u.length + 1) = .ok mem ∧ Text mem u ∧ mem.length = dst.length := by
  obtain ⟨slack, rfl⟩ := hsrc
  have hcopy : strncpyChars (u.chars ++ 0 :: slack) (u.length + 1) = .ok (u.chars ++ [0]) :=
    strncpyChars_append u.noNul (0 :: slack) 1
  refine ⟨u.chars ++ [0] ++ dst.drop (u.length + 1), ?_, ⟨dst.drop (u.length + 1), by simp⟩, ?_⟩
  · simp [strncpy, hcopy, hroom]
  · simp only [CString.length] at hroom
    simp [CString.length]
    omega

/-- A copy in a block of its own. -/
theorem strncpy_zeroed (hsrc : Text src u) :
    ∃ mem, strncpy (zeroed (u.length + 1)) src (u.length + 1) = .ok mem ∧ Text mem u ∧
      mem.length = u.length + 1 := by
  have hlen' := length_zeroed (u.length + 1)
  obtain ⟨mem, hcopy, hmem, hlen⟩ := strncpy_text hsrc hlen'.ge
  exact ⟨mem, hcopy, hmem, hlen.trans hlen'⟩

theorem strcat_text (hdst : Text dst t) (hsrc : Text src u)
    (hroom : t.length + u.length + 1 ≤ dst.length) :
    ∃ mem, strcat dst src = .ok mem ∧ Text mem (t.append u) ∧ mem.length = dst.length := by
  have hlen1 := hdst.strlen_eq
  have hlen2 := hsrc.strlen_eq
  obtain ⟨slack, hdst⟩ := hdst
  obtain ⟨slack', hsrc⟩ := hsrc
  refine ⟨dst.take t.length ++ src.take (u.length + 1) ++ dst.drop (t.length + u.length + 1), ?_,
    ⟨dst.drop (t.length + u.length + 1), ?_⟩, ?_⟩
  · rw [strcat, hlen1, Exec.ok_bind, hlen2, Exec.ok_bind, if_pos hroom, Exec.pure_eq]
  · have htake : dst.take t.length = t.chars := by simp [hdst, CString.length]
    have htake' : src.take (u.length + 1) = u.chars ++ [0] := by
      simp [hsrc, CString.length, List.take_append, List.take_of_length_le]
    simp [htake, htake']
  · have hsrc' : u.length + 1 ≤ src.length := by simp [hsrc, CString.length]
    simp only [List.length_append, List.length_take, List.length_drop]
    omega

/-- `strlen` does not stop before the first NUL. -/
theorem le_strlen {m k : ℕ} (h : 0 ∉ mem.take m) (hk : strlen mem = .ok k) : m ≤ k := by
  induction mem generalizing m k with
  | nil => cases hk
  | cons c mem ih =>
    cases m with
    | zero => exact Nat.zero_le k
    | succ m =>
      rw [List.take_succ_cons, List.mem_cons, not_or] at h
      rw [strlen, if_neg (Ne.symm h.1)] at hk
      cases hn : strlen mem with
      | error f =>
        rw [hn] at hk
        cases hk
      | ok n =>
        rw [hn] at hk
        have hle := ih h.2 hn
        obtain rfl : n + 1 = k := Except.ok.inj hk
        omega

/-- Without room behind the text that is there, `strcat` does not return. -/
theorem strcat_faults {m : ℕ} (h : 0 ∉ dst.take m) (hsrc : Text src u)
    (hroom : ¬ m + u.length + 1 ≤ dst.length) : ∃ f, strcat dst src = .error f := by
  rw [strcat]
  cases hlen1 : strlen dst with
  | error f => exact ⟨f, rfl⟩
  | ok k =>
    have hle := le_strlen h hlen1
    refine ⟨.outOfBounds, ?_⟩
    rw [Exec.ok_bind, hsrc.strlen_eq, Exec.ok_bind, if_neg (by omega)]

theorem Text.resized {n : ℕ} (h : Text mem t) (junk : ℕ → UInt8) (hn : t.length + 1 ≤ n) :
    Text (resized junk mem n) t := by
  have htake := take_resized junk h.length_lt hn
  obtain ⟨slack, rfl⟩ := h
  have hchars : (t.chars ++ 0 :: slack).take (t.length + 1) = t.chars ++ [0] := by
    simp [CString.length, List.take_append, List.take_of_length_le]
  rw [Nat.succ_eq_add_one, hchars] at htake
  refine ⟨(Kendylib.resized junk (t.chars ++ 0 :: slack) n).drop (t.length + 1), ?_⟩
  conv_lhs => rw [← List.take_append_drop (t.length + 1) (Kendylib.resized junk _ n), htake]
  simp

theorem Text.not_mem_take {m : ℕ} (h : Text mem t) (hm : m ≤ t.length) : 0 ∉ mem.take m := by
  obtain ⟨slack, rfl⟩ := h
  rw [List.take_append_of_le_length hm]
  exact fun h0 => t.noNul (List.mem_of_mem_take h0)

/-! ## The calls -/

/-- The length of the contents, as `string_size` gives it. -/
def textLength (text : Option CString) : ℕ := text.elim 0 CString.length

variable {text : Option CString}

theorem stringSize_fits (h : a.Fits text) (hlen : textLength text < 0x40000000) :
    stringSize a = .ok (textLength text) := by
  cases text with
  | none => rw [stringSize, h.1]; rfl
  | some t =>
    obtain ⟨mem, hstr, hmem, -, -⟩ := h
    have hlen : t.length < 0x40000000 := hlen
    simp [stringSize, hstr, hmem.strlen_eq, textLength]
    omega

theorem stringCreate_fits (hlen : textLength text < 0x40000000) :
    ∃ s, stringCreate (text.map CString.bytes) = .ok s ∧ s.Fits text := by
  cases text with
  | none => exact ⟨⟨0, none⟩, rfl, rfl, rfl⟩
  | some t =>
    have hlen : t.length < 0x40000000 := hlen
    have hsize : add32 t.length 1 = t.length + 1 := add32_of_lt (by omega)
    obtain ⟨mem, hcopy, hmem, hmemlen⟩ := strncpy_zeroed (Text.bytes t)
    refine ⟨⟨t.length + 1, some mem⟩, ?_, mem, rfl, hmem, hmemlen.ge, hmemlen.ge⟩
    simp [stringCreate, (Text.bytes t).strlen_eq, hsize, hcopy]

theorem stringAssignCstr_fits (ha : a.Fits text) (hlen : textLength text < 0x40000000)
    (hsrc : Text src u) (hlen' : u.length < 0x40000000) :
    ∃ s, stringAssignCstr a src = .ok s ∧ s.Fits (some u) := by
  have hlen1 := stringSize_fits ha hlen
  have hlen2 : u.length % 0x100000000 = u.length := Nat.mod_eq_of_lt (by omega)
  have hsize : add32 u.length 1 = u.length + 1 := add32_of_lt (by omega)
  by_cases hnew : a.str = none ∨ textLength text < u.length
  · obtain ⟨mem, hcopy, hmem, hmemlen⟩ := strncpy_zeroed hsrc
    refine ⟨⟨u.length + 1, some mem⟩, ?_, mem, rfl, hmem, hmemlen.ge, hmemlen.ge⟩
    simp [stringAssignCstr, hlen1, hsrc.strlen_eq, hlen2, hnew, hsize, hcopy]
  · cases text with
    | none => exact absurd (.inl ha.1) hnew
    | some t =>
      obtain ⟨str, hstr, -, hroom, hbuf⟩ := ha
      have hle : u.length ≤ t.length := not_lt.mp (not_or.mp hnew).2
      have hroom' : u.length + 1 ≤ str.length := by omega
      obtain ⟨mem, hcopy, hmem, hmemlen⟩ := strncpy_text hsrc hroom'
      refine ⟨{ a with str := some mem }, ?_, mem, rfl, hmem, hroom'.trans hmemlen.ge,
        hbuf.trans hmemlen.ge⟩
      simp only [stringAssignCstr, hlen1, hsrc.strlen_eq, Exec.ok_bind, hlen2, if_neg hnew]
      simp only [hstr, Exec.deref_some, Exec.ok_bind, hsize, hcopy, Exec.pure_eq]

/-- The text can be appended where the string's text ends: the code does not ask for a larger block,
and the block it has is large enough. Two empty texts always fit. -/
def HasRoom (a : KString) (text : Option CString) (len2 : ℕ) : Prop :=
  ∀ str ∈ a.str, textLength text + len2 = 0 ∨
    textLength text + len2 - 1 ≤ a.bufSize ∧ textLength text + len2 + 1 ≤ str.length

/-- The contents after a text has been appended. -/
def catenated (text : Option CString) (u : CString) : CString := text.elim u (·.append u)

/-- The bytes that `string_cat_cstr` asks for. -/
def wanted (t u : CString) : ℕ := sub32 (t.length + u.length) 1

theorem wanted_eq (hlen : t.length + u.length ≠ 0) (ht : t.length < 0x40000000)
    (hu : u.length < 0x40000000) : wanted t u = t.length + u.length - 1 :=
  sub32_of_le (by omega) (by omega)

theorem wanted_empty (hlen : t.length + u.length = 0) : wanted t u = 0xffffffff := by
  simp [wanted, hlen, sub32]

theorem stringCatCstr_eq {str : List UInt8} (junk : ℕ → UInt8) (hstr : a.str = some str)
    (hmem : Text str t) (ht : t.length < 0x40000000) (hsrc : Text src u)
    (hu : u.length < 0x40000000) :
    stringCatCstr junk a src =
      if wanted t u ≤ a.bufSize then (strcat str src).map fun mem => { a with str := some mem }
      else (strcat (resized junk str (wanted t u)) src).map fun mem => ⟨wanted t u, some mem⟩ := by
  have hlen1 : stringSize a = .ok t.length := by
    simp [stringSize, hstr, hmem.strlen_eq]
    omega
  have hlen2 : u.length % 0x100000000 = u.length := Nat.mod_eq_of_lt (by omega)
  have hsum : add32 t.length u.length = t.length + u.length := add32_of_lt (by omega)
  have hwanted : sub32 (t.length + u.length) 1 = wanted t u := by rw [wanted]
  unfold stringCatCstr
  rw [hlen1, Exec.ok_bind, hsrc.strlen_eq, Exec.ok_bind, hlen2, hstr]
  dsimp only
  rw [hsum, hwanted]
  split_ifs
  · cases strcat str src <;> rfl
  · cases strcat (resized junk str (wanted t u)) src <;> rfl

theorem stringCatCstr_fits (junk : ℕ → UInt8) (ha : a.Fits text)
    (hlen : textLength text < 0x40000000) (hsrc : Text src u) (hlen' : u.length < 0x40000000)
    (hroom : HasRoom a text u.length) :
    ∃ s, stringCatCstr junk a src = .ok s ∧ s.Fits (some (catenated text u)) := by
  cases text with
  | none =>
    have hlen1 := stringSize_fits ha hlen
    have hlen2 : u.length % 0x100000000 = u.length := Nat.mod_eq_of_lt (by omega)
    have hsize : add32 u.length 1 = u.length + 1 := add32_of_lt (by omega)
    obtain ⟨hstr, hbuf⟩ := ha
    obtain ⟨mem, hcopy, hmem, hmemlen⟩ := strncpy_zeroed hsrc
    refine ⟨{ a with str := some mem }, ?_, mem, rfl, hmem, hmemlen.ge, by simp [hbuf]⟩
    simp only [stringCatCstr, hlen1, hsrc.strlen_eq, Exec.ok_bind, hlen2, hstr, hsize, hcopy,
      Exec.pure_eq]
  | some t =>
    obtain ⟨str, hstr, hmem, hblock, hbuf⟩ := ha
    have hlen : t.length < 0x40000000 := hlen
    have hroom : t.length + u.length = 0 ∨
      t.length + u.length - 1 ≤ a.bufSize ∧ t.length + u.length + 1 ≤ str.length := hroom str hstr
    have hcode := stringCatCstr_eq junk hstr hmem hlen hsrc hlen'
    by_cases hbuf' : wanted t u ≤ a.bufSize
    · have hfits : t.length + u.length + 1 ≤ str.length := by omega
      obtain ⟨mem, hcat, htext, hmemlen⟩ := strcat_text hmem hsrc hfits
      rw [if_pos hbuf', hcat] at hcode
      refine ⟨_, hcode, mem, rfl, htext, ?_, hbuf.trans hmemlen.ge⟩
      simpa [catenated, hmemlen] using hfits
    · -- only two empty texts come here: the block is as large as a block can be
      have hempty : t.length + u.length = 0 := by
        by_contra hne
        rw [wanted_eq hne hlen hlen'] at hbuf'
        omega
      have hmem' := hmem.resized junk (show t.length + 1 ≤ wanted t u by
        rw [wanted_empty hempty]
        omega)
      have hfits : t.length + u.length + 1 ≤ (resized junk str (wanted t u)).length := by
        rw [length_resized, wanted_empty hempty]
        omega
      obtain ⟨mem, hcat, htext, hmemlen⟩ := strcat_text hmem' hsrc hfits
      rw [if_neg hbuf', hcat] at hcode
      refine ⟨_, hcode, mem, rfl, htext, ?_, ?_⟩
      · simpa [catenated, hmemlen] using hfits
      · exact (hmemlen.trans (length_resized junk str _)).ge

theorem stringCatCstr_faults (junk : ℕ → UInt8) (ha : a.Fits text)
    (hlen : textLength text < 0x40000000) (hsrc : Text src u) (hlen' : u.length < 0x40000000)
    (hroom : ¬ HasRoom a text u.length) : ∃ f, stringCatCstr junk a src = .error f := by
  cases text with
  | none => exact absurd (fun str hstr => by simp [ha.1] at hstr) hroom
  | some t =>
    obtain ⟨str, hstr, hmem, hblock, hbuf⟩ := ha
    have hlen : t.length < 0x40000000 := hlen
    have hroom : ¬ (t.length + u.length = 0 ∨
        t.length + u.length - 1 ≤ a.bufSize ∧ t.length + u.length + 1 ≤ str.length) :=
      fun h => hroom fun str' hstr' => by
        obtain rfl := Option.some.inj (hstr.symm.trans hstr')
        exact h
    have hwanted := wanted_eq (fun h => hroom (.inl h)) hlen hlen'
    rw [stringCatCstr_eq junk hstr hmem hlen hsrc hlen']
    split_ifs with hbuf'
    · obtain ⟨f, hf⟩ := strcat_faults (hmem.not_mem_take le_rfl) hsrc
        (fun h => hroom (.inr ⟨hwanted ▸ hbuf', h⟩))
      exact ⟨f, by rw [hf]; rfl⟩
    · -- the larger block is too small as well, and may not even hold the text that is there
      have hprefix : 0 ∉ (resized junk str (wanted t u)).take (min t.length (wanted t u)) := by
        rw [take_resized junk (by omega) (min_le_right _ _)]
        exact hmem.not_mem_take (min_le_left _ _)
      have hsmall : ¬ min t.length (wanted t u) + u.length + 1 ≤
          (resized junk str (wanted t u)).length := by
        rw [length_resized]
        omega
      obtain ⟨f, hf⟩ := strcat_faults hprefix hsrc hsmall
      exact ⟨f, by rw [hf]; rfl⟩

theorem stringAssign_fits {text' : Option CString} (ha : a.Fits text) (hb : b.Fits text')
    (hlen : textLength text < 0x40000000) (hlen' : textLength text' < 0x40000000) :
    ∃ s, stringAssign a b = .ok s ∧ s.Fits (text'.or text) := by
  cases text' with
  | none => exact ⟨a, by rw [stringAssign, hb.1], ha⟩
  | some u =>
    obtain ⟨src, hsrc, hu, -, -⟩ := hb
    rw [stringAssign, hsrc]
    exact stringAssignCstr_fits ha hlen hu hlen'

theorem stringCat_fits {text' : Option CString} (junk : ℕ → UInt8) (ha : a.Fits text)
    (hb : b.Fits text') (hlen : textLength text < 0x40000000)
    (hlen' : textLength text' < 0x40000000) (hroom : ∀ u ∈ text', HasRoom a text u.length) :
    ∃ s, stringCat junk a b = .ok s ∧ s.Fits ((text'.map (catenated text)).or text) := by
  cases text' with
  | none => exact ⟨a, by rw [stringCat, hb.1], ha⟩
  | some u =>
    obtain ⟨src, hsrc, hu, -, -⟩ := hb
    rw [stringCat, hsrc]
    exact stringCatCstr_fits junk ha hlen hu hlen' (hroom u rfl)

theorem stringCat_faults {text' : Option CString} (junk : ℕ → UInt8) (ha : a.Fits text)
    (hb : b.Fits text') (hlen : textLength text < 0x40000000)
    (hlen' : textLength text' < 0x40000000) (hroom : ¬ ∀ u ∈ text', HasRoom a text u.length) :
    ∃ f, stringCat junk a b = .error f := by
  cases text' with
  | none => exact absurd (by simp) hroom
  | some u =>
    obtain ⟨src, hsrc, hu, -, -⟩ := hb
    rw [stringCat, hsrc]
    exact stringCatCstr_faults junk ha hlen hu hlen' (by simpa using hroom)

/-! ## Runs -/

/-- A string of the run, with the text that the calls so far are to leave in it. -/
structure Entry where
  string : KString
  text : Option CString

/-- The strings of the run. -/
abbrev Store := List Entry

inductive Call
  | create (text : Option CString)
  | assignCstr (a : ℕ) (b : CString)
  | assign (a b : ℕ)
  | catCstr (a : ℕ) (b : CString) (junk : ℕ → UInt8)
  | cat (a b : ℕ) (junk : ℕ → UInt8)

/-- The string that a call is made with: `assert(a)`. -/
def entryAt (s : Store) (a : ℕ) : Exec Entry :=
  match s[a]? with
  | some e => .ok e
  | none => .error .assertion

/-- A source without contents leaves the target as it is. -/
def step (s : Store) : Call → Exec Store
  | .create text => do
    return s ++ [⟨← stringCreate (text.map CString.bytes), text⟩]
  | .assignCstr a b => do
    let e ← entryAt s a
    return s.set a ⟨← stringAssignCstr e.string b.bytes, some b⟩
  | .assign a b => do
    let e ← entryAt s a
    let f ← entryAt s b
    return s.set a ⟨← stringAssign e.string f.string, f.text.or e.text⟩
  | .catCstr a b junk => do
    let e ← entryAt s a
    return s.set a ⟨← stringCatCstr junk e.string b.bytes, some (catenated e.text b)⟩
  | .cat a b junk => do
    let e ← entryAt s a
    let f ← entryAt s b
    return s.set a ⟨← stringCat junk e.string f.string, (f.text.map (catenated e.text)).or e.text⟩

/-- The contents of a string that a call is made with are short. -/
def Short (s : Store) (a : ℕ) : Prop := ∃ e, s[a]? = some e ∧ textLength e.text < 0x40000000

/-- The call is made with distinct strings of the run, and all texts in it are short. -/
def Admitted (s : Store) : Call → Prop
  | .create text => textLength text < 0x40000000
  | .assignCstr a b | .catCstr a b _ => Short s a ∧ b.length < 0x40000000
  | .assign a b | .cat a b _ => a ≠ b ∧ Short s a ∧ Short s b

/-- A text that is appended finds room in the block of the target. -/
def Call.HasRoom (s : Store) : Call → Prop
  | .catCstr a b _ => ∀ e ∈ s[a]?, Strings.HasRoom e.string e.text b.length
  | .cat a b _ => ∀ e ∈ s[a]?, ∀ f ∈ s[b]?, ∀ u ∈ f.text, Strings.HasRoom e.string e.text u.length
  | _ => True

/-- Every string has the text that it is to have, with room for it. -/
def Fit (s : Store) : Prop := ∀ e ∈ s, e.string.Fits e.text

theorem Fit.set {s : Store} {e : Entry} (h : Fit s) (he : e.string.Fits e.text) (a : ℕ) :
    Fit (s.set a e) := by
  intro f hf
  rcases List.mem_or_eq_of_mem_set hf with hf | rfl
  · exact h f hf
  · exact he

theorem entryAt_eq {s : Store} {a : ℕ} {e : Entry} (h : s[a]? = some e) :
    entryAt s a = .ok e := by
  rw [entryAt, h]

/-- What an admitted call does that finds room. -/
theorem step_fit {s : Store} {c : Call} (hs : Fit s) (hc : Admitted s c) (hroom : c.HasRoom s) :
    ∃ s', step s c = .ok s' ∧ Fit s' := by
  cases c with
  | create text =>
    obtain ⟨k, hk, hfits⟩ := stringCreate_fits hc
    refine ⟨s ++ [⟨k, text⟩], by rw [step, hk]; rfl, ?_⟩
    simpa [Fit, or_imp, forall_and] using ⟨hs, hfits⟩
  | assignCstr a b =>
    obtain ⟨⟨e, he, hlen⟩, hb⟩ := hc
    obtain ⟨k, hk, hfits⟩ :=
      stringAssignCstr_fits (hs e (List.mem_of_getElem? he)) hlen (.bytes b) hb
    exact ⟨s.set a ⟨k, some b⟩, by rw [step, entryAt_eq he, Exec.ok_bind, hk]; rfl, hs.set hfits a⟩
  | assign a b =>
    obtain ⟨-, ⟨e, he, hlen⟩, ⟨f, hf, hlen'⟩⟩ := hc
    obtain ⟨k, hk, hfits⟩ :=
      stringAssign_fits (hs e (List.mem_of_getElem? he)) (hs f (List.mem_of_getElem? hf)) hlen hlen'
    refine ⟨s.set a ⟨k, _⟩, ?_, hs.set hfits a⟩
    rw [step, entryAt_eq he, Exec.ok_bind, entryAt_eq hf, Exec.ok_bind, hk]
    rfl
  | catCstr a b junk =>
    obtain ⟨⟨e, he, hlen⟩, hb⟩ := hc
    obtain ⟨k, hk, hfits⟩ :=
      stringCatCstr_fits junk (hs e (List.mem_of_getElem? he)) hlen (.bytes b) hb (hroom e he)
    exact ⟨s.set a ⟨k, _⟩, by rw [step, entryAt_eq he, Exec.ok_bind, hk]; rfl, hs.set hfits a⟩
  | cat a b junk =>
    obtain ⟨-, ⟨e, he, hlen⟩, ⟨f, hf, hlen'⟩⟩ := hc
    obtain ⟨k, hk, hfits⟩ := stringCat_fits junk (hs e (List.mem_of_getElem? he))
      (hs f (List.mem_of_getElem? hf)) hlen hlen' (hroom e he f hf)
    refine ⟨s.set a ⟨k, _⟩, ?_, hs.set hfits a⟩
    rw [step, entryAt_eq he, Exec.ok_bind, entryAt_eq hf, Exec.ok_bind, hk]
    rfl

/-- A text that finds no room ends the run. -/
theorem step_faults {s : Store} {c : Call} (hs : Fit s) (hc : Admitted s c)
    (hroom : ¬ c.HasRoom s) : ∃ f, step s c = .error f := by
  cases c with
  | create text => exact absurd trivial hroom
  | assignCstr a b => exact absurd trivial hroom
  | assign a b => exact absurd trivial hroom
  | catCstr a b junk =>
    obtain ⟨⟨e, he, hlen⟩, hb⟩ := hc
    have hfull : ¬ Strings.HasRoom e.string e.text b.length := by
      simpa [Call.HasRoom, he] using hroom
    obtain ⟨f, hf⟩ :=
      stringCatCstr_faults junk (hs e (List.mem_of_getElem? he)) hlen (.bytes b) hb hfull
    exact ⟨f, by rw [step, entryAt_eq he, Exec.ok_bind, hf]; rfl⟩
  | cat a b junk =>
    obtain ⟨-, ⟨e, he, hlen⟩, ⟨f, hf, hlen'⟩⟩ := hc
    have hfull : ¬ ∀ u ∈ f.text, Strings.HasRoom e.string e.text u.length := by
      simpa [Call.HasRoom, he, hf] using hroom
    obtain ⟨x, hx⟩ := stringCat_faults junk (hs e (List.mem_of_getElem? he))
      (hs f (List.mem_of_getElem? hf)) hlen hlen' hfull
    exact ⟨x, by rw [step, entryAt_eq he, Exec.ok_bind, entryAt_eq hf, Exec.ok_bind, hx]; rfl⟩

/-- **In a run with short texts every string always has the text that it is to have, in a block with
room for it and for `buf_size` bytes, and no call reads or writes outside a block, exactly if each
text that is appended finds room in the block of its target.** -/
theorem strings_fit_iff {calls : List Call} (hcalls : BeforeEach step Admitted [] calls) :
    Always step Fit [] calls ∧ FaultsOnly step (fun _ _ _ => False) [] calls ↔
      BeforeEach step (fun s c => c.HasRoom s) [] calls := by
  have hstart : Fit [] := by simp [Fit]
  refine safe_iff_beforeEach_of (fun s hs => hs) (fun s c hs hc hroom => ?_)
    (fun s c hs hc hroom => ?_) hstart hcalls
  · obtain ⟨s', hstep, hs'⟩ := step_fit hs hc hroom
    rw [hstep]
    exact hs'
  · obtain ⟨f, hstep⟩ := step_faults hs hc hroom
    rw [hstep]
    exact id

/-- The text `b` is appended to a string whose block has room for three characters. -/
theorem strings_fit_iff_reassigned :
    Always step Fit []
        [.create (some ⟨[97, 98, 99], by decide⟩), .assignCstr 0 ⟨[97], by decide⟩,
          .catCstr 0 ⟨[98], by decide⟩ fun _ => 0] ∧
      FaultsOnly step (fun _ _ _ => False) []
        [.create (some ⟨[97, 98, 99], by decide⟩), .assignCstr 0 ⟨[97], by decide⟩,
          .catCstr 0 ⟨[98], by decide⟩ fun _ => 0] := by
  refine (strings_fit_iff ?_).mpr ?_
  · refine .cons (show 3 < 0x40000000 by decide) rfl (.cons ⟨⟨_, rfl, by decide⟩, by decide⟩ rfl
      (.cons ⟨⟨_, rfl, by decide⟩, by decide⟩ rfl trivial))
  · refine .cons trivial rfl (.cons trivial rfl (.cons ?_ rfl trivial))
    rintro e ⟨⟩ str ⟨⟩
    exact .inr (by decide)

/-- The text `b` is appended to the text `a` in the two bytes it has. -/
theorem strings_overflow :
    BeforeEach step Admitted []
        [.create (some ⟨[97], by decide⟩), .catCstr 0 ⟨[98], by decide⟩ fun _ => 0] ∧
      ¬ (Always step Fit []
          [.create (some ⟨[97], by decide⟩), .catCstr 0 ⟨[98], by decide⟩ fun _ => 0] ∧
        FaultsOnly step (fun _ _ _ => False) []
          [.create (some ⟨[97], by decide⟩), .catCstr 0 ⟨[98], by decide⟩ fun _ => 0]) := by
  constructor
  · exact .cons (show 1 < 0x40000000 by decide) rfl ⟨⟨⟨_, rfl, by decide⟩, by decide⟩, trivial⟩
  · exact fun h => h.2

end Kendylib.Strings
