import Mathlib.Data.List.Dedup
import Xlibc.Base.CInt
import Xlibc.Base.Compare
import Xlibc.Base.Strtol
import Xlibc.Xdebug.Model

/-!
# Xlibc.Xdebug.Color

The colour descriptions of `xdebug.c`: `color_parse` reads the words of a description and writes the
escape sequence into a buffer, one byte behind the other. A write past the buffer has no result, and a
description that is not accepted ends the program.

* `colorLoop_words` : the loop over the text is one step for each word.
* `colorParsed_run` : what the words leave in `attr`, `fg` and `bg`.
* `cost_eq` : the length of the sequence, part by part.
* `color_code_fits_iff` : when the sequence fits into the buffer of `color_fprintf`.
-/

namespace Xlibc
namespace Xdebug

/-! ## The code -/

/-- `color_names` -/
def colorNames : List (List Byte) :=
  [chars ['n', 'o', 'r', 'm', 'a', 'l'], chars ['b', 'l', 'a', 'c', 'k'], chars ['r', 'e', 'd'],
    chars ['g', 'r', 'e', 'e', 'n'], chars ['y', 'e', 'l', 'l', 'o', 'w'], chars ['b', 'l', 'u', 'e'],
    chars ['m', 'a', 'g', 'e', 'n', 't', 'a'], chars ['c', 'y', 'a', 'n'], chars ['w', 'h', 'i', 't', 'e']]

/-- `attr_names` and `attr_values` -/
def attrNames : List (List Byte × Nat) :=
  [(chars ['b', 'o', 'l', 'd'], 1), (chars ['d', 'i', 'm'], 2), (chars ['u', 'l'], 4),
    (chars ['b', 'l', 'i', 'n', 'k'], 5), (chars ['r', 'e', 'v', 'e', 'r', 's', 'e'], 7)]

/-- `!strncasecmp(name, str, len) && !str[len]` -/
def isName (name : List Byte) (len : Nat) (str : List Byte) : Bool :=
  strncasecmp len name str = 0 && str.length = len

/-- `parse_color`, of a word that is followed by the rest of the description. `long` has `w` bits. -/
def parseColor (w : Nat) (name : List Byte) (len : Nat) : Int :=
  match colorNames.findIdx? (isName name len) with
  | some i => (i : Int) - 1
  | none =>
    let number := strtol w 10 name
    let i := i32OfNat (u32OfInt number.1)
    if name.length - number.2.length = len ∧ i ≥ -1 ∧ i ≤ 255 then i else -2

def parseAttr (name : List Byte) (len : Nat) : Int :=
  match attrNames.find? fun attr => isName name len attr.1 with
  | some attr => attr.2
  | none => -1

/-- `attr`, `fg` and `bg` of `color_parse` -/
structure ColorState where
  attr : BitVec 32
  fg : Int
  bg : Int
  deriving DecidableEq, Repr

/-- What `color_parse` does with a word. Without a result it goes to `bad`. -/
def colorWord (w : Nat) (st : ColorState) (word : List Byte) (wordlen : Nat) : Option ColorState :=
  let val := parseColor w word wordlen
  if val ≥ -1 then
    if st.fg = -2 then some { st with fg := val }
    else if st.bg = -2 then some { st with bg := val }
    else none
  else
    let val := parseAttr word wordlen
    if 0 ≤ val then some { st with attr := st.attr ||| 1#32 <<< val.toNat } else none

/-- `wordlen` after the inner loop over the word. -/
def wordLen (ptr : List Byte) (len : Nat) : Nat := ((ptr.take len).takeWhile fun c => !isspace c).length

def blankLen (ptr : List Byte) (len : Nat) : Nat := ((ptr.take len).takeWhile isspace).length

/-- The loop of `color_parse`, for at most `fuel` words. -/
def colorLoop (w : Nat) : Nat → List Byte → Nat → ColorState → Option (Option ColorState)
  | 0, _, _, _ => none
  | fuel + 1, word, len, st =>
    if len > 0 then
      let wordlen := wordLen word len
      let ptr := word.drop wordlen
      let blanks := blankLen ptr (len - wordlen)
      match colorWord w st word wordlen with
      | some st => colorLoop w fuel (ptr.drop blanks) (len - wordlen - blanks) st
      | none => some none
    else some (some st)

/-- `dst` and `sep` of `color_parse`: the place in the buffer, and the parts written so far. -/
structure Dst where
  block : List Byte
  pos : Nat
  sep : Nat
  deriving DecidableEq, Repr

/-- `*dst++ = ..` -/
def Dst.put (d : Dst) (bs : List Byte) : Option Dst :=
  (storeBytes d.block d.pos bs).map fun block => { d with block := block, pos := d.pos + bs.length }

/-- `dst += sprintf(dst, ..)`, which writes a zero behind the text. -/
def Dst.sprintf (d : Dst) (bs : List Byte) : Option Dst :=
  (storeBytes d.block d.pos (bs ++ [0])).map fun block =>
    { d with block := block, pos := d.pos + bs.length }

/-- `if (sep++) *dst++ = ';'` -/
def Dst.separate (d : Dst) : Option Dst :=
  (if d.sep ≠ 0 then d.put (chars [';']) else some d).map fun d' => { d' with sep := d.sep + 1 }

def attrLoop : Nat → Nat → BitVec 32 → Dst → Option Dst
  | 0, _, _, _ => none
  | fuel + 1, i, attr, d =>
    if attr = 0 then some d
    else
      let bit := 1#32 <<< i
      if attr &&& bit = 0 then attrLoop fuel (i + 1) attr d
      else do
        let d ← d.separate
        let d ← d.put [UInt8.ofNat ('0'.toNat + i)]
        attrLoop fuel (i + 1) (attr &&& ~~~bit) d

/-- The part of a colour, behind `3` or `4`. -/
def colorPart (layer : Char) (c : Int) (d : Dst) : Option Dst :=
  if c ≥ 0 then do
    let d ← d.separate
    if c < 8 then
      let d ← d.put (chars [layer])
      d.put [UInt8.ofNat ('0'.toNat + c.toNat)]
    else d.sprintf (chars [layer, '8', ';', '5', ';'] ++ decimal c)
  else some d

/-- The end of `color_parse`: the sequence for `attr`, `fg` and `bg`. -/
def colorWrite (dst : List Byte) (st : ColorState) : Option (List Byte) :=
  if st.attr ≠ 0 ∨ st.fg ≥ 0 ∨ st.bg ≥ 0 then do
    let d ← Dst.put { block := dst, pos := 0, sep := 0 } [27]
    let d ← d.put (chars ['['])
    let d ← attrLoop 33 0 st.attr d
    let d ← colorPart '3' st.fg d
    let d ← colorPart '4' st.bg d
    let d ← d.put (chars ['m'])
    storeBytes d.block d.pos [0]
  else storeBytes dst 0 [0]

/-- `value_len` of `color_parse`, an `int`. -/
def valueLen (value : CString) : Int := i32OfNat value.val.length

/-- `!strncasecmp(value, "reset", len)`, for a `size_t` of `w` bits. -/
def isReset (w : Nat) (value : CString) : Bool :=
  strncasecmp (valueLen value % 2 ^ w).toNat value.val (chars ['r', 'e', 's', 'e', 't']) = 0

/-- `COLOR_RESET` -/
def colorReset : List Byte := 27 :: chars ['[', '0', 'm']

def ColorState.init : ColorState := { attr := 0, fg := -2, bg := -2 }

/-- The words of `color_parse`. Without a state it goes to `bad`. -/
def colorWords (w : Nat) (value : CString) : Option (Option ColorState) :=
  colorLoop w ((valueLen value).toNat + 1) value.val (valueLen value).toNat .init

/-- `color_parse`: the buffer at `dst`, or nothing if the description is bad and the program ends. -/
def colorParse (w : Nat) (dst : List Byte) (value : CString) : Option (Option (List Byte)) :=
  if isReset w value then (storeBytes dst 0 (colorReset ++ [0])).map some
  else do
    match ← colorWords w value with
    | some st => (colorWrite dst st).map some
    | none => some none

/-- `color_code` of `color_fprintf`, after `color_parse`. -/
def colorCode (w : Nat) (color : CString) : Option (Option (List Byte)) :=
  colorParse w (List.replicate 16 0) color

/-! ## The words -/

abbrev ColorWord : Type := List Byte × Nat

/-- The words the loop finds: each with what follows it, and its length. -/
def wordsFrom : Nat → List Byte → Nat → List ColorWord
  | 0, _, _ => []
  | fuel + 1, word, len =>
    if len > 0 then
      let wordlen := wordLen word len
      let ptr := word.drop wordlen
      let blanks := blankLen ptr (len - wordlen)
      (word, wordlen) :: wordsFrom fuel (ptr.drop blanks) (len - wordlen - blanks)
    else []

def descriptionWords (value : CString) : List ColorWord :=
  wordsFrom ((valueLen value).toNat + 1) value.val (valueLen value).toNat

def wordsRun (w : Nat) (words : List ColorWord) (st : ColorState) : Option ColorState :=
  words.foldlM (fun st word => colorWord w st word.1 word.2) st

/-- A round passes a word, or the blanks the text starts with. -/
theorem round_pos {c : Byte} {ptr : List Byte} {len : Nat} (hlen : 0 < len) :
    0 < wordLen (c :: ptr) len + blankLen ((c :: ptr).drop (wordLen (c :: ptr) len))
      (len - wordLen (c :: ptr) len) := by
  obtain ⟨n, rfl⟩ : ∃ n, len = n + 1 := ⟨len - 1, by omega⟩
  cases hc : isspace c with
  | false =>
    have hword : 0 < wordLen (c :: ptr) (n + 1) := by simp [wordLen, hc]
    omega
  | true =>
    have hword : wordLen (c :: ptr) (n + 1) = 0 := by simp [wordLen, hc]
    rw [hword]
    simp [blankLen, hc]

theorem wordLen_le (ptr : List Byte) (len : Nat) : wordLen ptr len ≤ min len ptr.length := by
  unfold wordLen
  exact (List.takeWhile_prefix _).length_le.trans_eq List.length_take

theorem blankLen_le (ptr : List Byte) (len : Nat) : blankLen ptr len ≤ min len ptr.length := by
  unfold blankLen
  exact (List.takeWhile_prefix _).length_le.trans_eq List.length_take

theorem colorLoop_words (w : Nat) : ∀ {fuel : Nat} {ptr : List Byte} {len : Nat} (st : ColorState),
    len < fuel → len ≤ ptr.length →
      colorLoop w fuel ptr len st = some (wordsRun w (wordsFrom fuel ptr len) st) := by
  intro fuel
  induction fuel with
  | zero => intro ptr len st hfuel; omega
  | succ fuel ih =>
    intro ptr len st hfuel hptr
    rw [colorLoop, wordsFrom]
    by_cases hlen : len > 0
    · cases ptr with
      | nil =>
        rw [List.length_nil] at hptr
        omega
      | cons c ptr =>
        have hround := @round_pos c ptr len hlen
        have hword := wordLen_le (c :: ptr) len
        have hblank := blankLen_le ((c :: ptr).drop (wordLen (c :: ptr) len)) (len - wordLen (c :: ptr) len)
        rw [List.length_drop] at hblank
        rw [if_pos hlen, if_pos hlen, wordsRun, List.foldlM_cons]
        cases hst : colorWord w st (c :: ptr) (wordLen (c :: ptr) len) with
        | none => simp [hst]
        | some st' =>
          simp only [hst, Option.bind_eq_bind, Option.bind_some]
          exact ih st' (by omega) (by rw [List.length_drop, List.length_drop]; omega)
    · rw [if_neg hlen, if_neg hlen]
      rfl

/-! ## What the words say -/

def colorOf (w : Nat) (word : ColorWord) : Option Int :=
  if parseColor w word.1 word.2 ≥ -1 then some (parseColor w word.1 word.2) else none

/-- The attribute that a word is, if it is no colour. -/
def attrOf (w : Nat) (word : ColorWord) : Option Nat :=
  if parseColor w word.1 word.2 ≥ -1 then none
  else if 0 ≤ parseAttr word.1 word.2 then some (parseAttr word.1 word.2).toNat
  else none

def colors (w : Nat) (words : List ColorWord) : List Int := words.filterMap (colorOf w)

def attributes (w : Nat) (words : List ColorWord) : List Nat := words.filterMap (attrOf w)

theorem parseColor_le (w : Nat) (name : List Byte) (len : Nat) : parseColor w name len ≤ 255 := by
  unfold parseColor
  split
  · next i hi =>
    have hlt : i < 9 := List.findIdx?_eq_some_iff_findIdx_eq.mp hi |>.1
    omega
  · dsimp only
    split <;> omega

theorem parseAttr_lt (name : List Byte) (len : Nat) : parseAttr name len < 32 := by
  unfold parseAttr
  split
  · next attr hattr =>
    have hall : ∀ attr ∈ attrNames, attr.2 < 32 := by decide
    have hlt := hall attr (List.mem_of_find?_eq_some hattr)
    omega
  · omega

/-- `attr`, `fg` and `bg` behind some words. -/
structure ColorParsed (w : Nat) (words : List ColorWord) (st : ColorState) : Prop where
  colors_eq : colors w words = [st.fg, st.bg].filter (· ≠ -2)
  fg_first : st.fg = -2 → st.bg = -2
  attr_bit : ∀ i, st.attr.getLsbD i = decide (i ∈ attributes w words)
  attributes_lt : ∀ i ∈ attributes w words, i < 32
  colors_le : st.fg ≤ 255 ∧ st.bg ≤ 255

theorem colorParsed_init (w : Nat) : ColorParsed w [] .init where
  colors_eq := rfl
  fg_first := fun _ => rfl
  attr_bit := fun i => by simp [ColorState.init, attributes]
  attributes_lt := fun i hi => by cases hi
  colors_le := by decide

/-- A word that is a colour: the first is `fg`, the second `bg`, and a third one is bad. -/
theorem colorParsed_color {w : Nat} {words : List ColorWord} {st st' : ColorState} {word : ColorWord}
    {val : Int} (h : ColorParsed w words st) (hval : val ≥ -1) (hle : val ≤ 255)
    (hof : colorOf w word = some val) (hattr : attrOf w word = none)
    (hst : (if st.fg = -2 then some { st with fg := val }
      else if st.bg = -2 then some { st with bg := val } else none) = some st') :
    ColorParsed w (words ++ [word]) st' := by
  have hcolors : colors w (words ++ [word]) = colors w words ++ [val] := by
    simp [colors, hof]
  have hattrs : attributes w (words ++ [word]) = attributes w words := by
    simp [attributes, hattr]
  have hne : val ≠ -2 := by omega
  by_cases hfg : st.fg = -2
  · have hbg := h.fg_first hfg
    rw [if_pos hfg] at hst
    cases hst
    refine ⟨?_, fun h2 => absurd h2 hne, ?_, ?_, hle, h.colors_le.2⟩
    · simp [hcolors, h.colors_eq, hfg, hbg, hne]
    · rw [hattrs]
      exact h.attr_bit
    · rw [hattrs]
      exact h.attributes_lt
  · rw [if_neg hfg] at hst
    by_cases hbg : st.bg = -2
    · rw [if_pos hbg] at hst
      cases hst
      refine ⟨?_, fun h2 => absurd h2 hfg, ?_, ?_, h.colors_le.1, hle⟩
      · simp [hcolors, h.colors_eq, hfg, hbg, hne]
      · rw [hattrs]
        exact h.attr_bit
      · rw [hattrs]
        exact h.attributes_lt
    · rw [if_neg hbg] at hst
      cases hst

/-- A word that is an attribute sets its bit. -/
theorem colorParsed_attr {w : Nat} {words : List ColorWord} {st : ColorState} {word : ColorWord}
    {val : Nat} (h : ColorParsed w words st) (hlt : val < 32) (hof : colorOf w word = none)
    (hattr : attrOf w word = some val) :
    ColorParsed w (words ++ [word]) { st with attr := st.attr ||| 1#32 <<< val } := by
  have hcolors : colors w (words ++ [word]) = colors w words := by
    simp [colors, hof]
  have hattrs : attributes w (words ++ [word]) = attributes w words ++ [val] := by
    simp [attributes, hattr]
  refine ⟨hcolors.trans h.colors_eq, h.fg_first, fun i => ?_, ?_, h.colors_le⟩
  · have hbit : (1#32 <<< val).getLsbD i = decide (i = val) := by
      rw [BitVec.getLsbD_shiftLeft, BitVec.getLsbD_one]
      grind
    rw [BitVec.getLsbD_or, h.attr_bit, hbit, hattrs]
    simp
  · rw [hattrs]
    intro i hi
    rcases List.mem_append.mp hi with hi | hi
    · exact h.attributes_lt i hi
    · rw [List.mem_singleton.mp hi]
      exact hlt

theorem colorParsed_step {w : Nat} {words : List ColorWord} {st st' : ColorState} {word : ColorWord}
    (h : ColorParsed w words st) (hst : colorWord w st word.1 word.2 = some st') :
    ColorParsed w (words ++ [word]) st' := by
  unfold colorWord at hst
  by_cases hcolor : parseColor w word.1 word.2 ≥ -1
  · rw [if_pos hcolor] at hst
    exact colorParsed_color h hcolor (parseColor_le w _ _) (if_pos hcolor) (if_pos hcolor) hst
  · rw [if_neg hcolor] at hst
    have hlt := parseAttr_lt word.1 word.2
    dsimp only at hst
    split at hst
    · next hattr =>
      cases hst
      exact colorParsed_attr h (by omega) (if_neg hcolor) ((if_neg hcolor).trans (if_pos hattr))
    · cases hst

theorem colorParsed_run {w : Nat} : ∀ {rest words : List ColorWord} {st st' : ColorState},
    ColorParsed w words st → wordsRun w rest st = some st' → ColorParsed w (words ++ rest) st' := by
  intro rest
  induction rest with
  | nil =>
    intro words st st' h hrun
    cases hrun
    rwa [List.append_nil]
  | cons word rest ih =>
    intro words st st' h hrun
    rw [wordsRun, List.foldlM_cons] at hrun
    cases hst : colorWord w st word.1 word.2 with
    | none =>
      rw [hst] at hrun
      cases hrun
    | some st1 =>
      rw [hst, Option.bind_eq_bind, Option.bind_some] at hrun
      rw [List.append_cons]
      exact ih (colorParsed_step h hst) hrun

/-! ## The length of a sequence -/

/-- What a colour takes in the sequence, with the byte in front of it. -/
def colorWidth (c : Int) : Nat :=
  if c < 0 then 0 else if c < 8 then 3 else if c < 10 then 7 else if c < 100 then 8 else 9

/-- `dst` is `pos` bytes into a block of `len`, with `sep` parts written. -/
structure DstAt (len pos sep : Nat) (d : Dst) : Prop where
  length_eq : d.block.length = len
  pos_eq : d.pos = pos
  pos_le : pos ≤ len
  sep_eq : d.sep = sep

/-- Writes that lead to `pos`, if they stay in the block. They write at most one byte further. -/
structure Lands (len pos sep : Nat) (r : Option Dst) : Prop where
  fits : pos < len → ∃ d, r = some d
  lands : ∀ d, r = some d → DstAt len pos sep d

section Writes

variable {len pos sep pos' sep' : Nat} {d : Dst}

theorem Lands.bind {r : Option Dst} {f : Dst → Option Dst} (h : Lands len pos sep r) (hle : pos ≤ pos')
    (hf : ∀ d, DstAt len pos sep d → Lands len pos' sep' (f d)) : Lands len pos' sep' (r.bind f) := by
  constructor
  · intro hlt
    obtain ⟨d, hd⟩ := h.fits (by omega)
    rw [hd]
    exact (hf d (h.lands d hd)).fits hlt
  · intro d' hd'
    obtain ⟨d, hd, hfd⟩ := Option.bind_eq_some_iff.mp hd'
    exact (hf d (h.lands d hd)).lands d' hfd

theorem lands_some (h : DstAt len pos sep d) : Lands len pos sep (some d) where
  fits _ := ⟨d, rfl⟩
  lands d' hd' := by
    cases hd'
    exact h

theorem put_lands (h : DstAt len pos sep d) (bs : List Byte) :
    Lands len (pos + bs.length) sep (d.put bs) := by
  have hlen := h.length_eq
  have hpos := h.pos_eq
  constructor
  · intro hlt
    obtain ⟨block, hstore⟩ := storeBytes_some bs (show d.pos + bs.length ≤ d.block.length by omega)
    exact ⟨_, by rw [Dst.put, hstore]; rfl⟩
  · intro d' hd'
    obtain ⟨block, hstore, rfl⟩ := Option.map_eq_some_iff.mp hd'
    have hfit := storeBytes_fits hstore
    exact ⟨(storeBytes_length hstore).trans hlen, by rw [hpos], by omega, h.sep_eq⟩

theorem sprintf_lands (h : DstAt len pos sep d) (bs : List Byte) :
    Lands len (pos + bs.length) sep (d.sprintf bs) := by
  have hlen := h.length_eq
  have hpos := h.pos_eq
  constructor
  · intro hlt
    obtain ⟨block, hstore⟩ := storeBytes_some (bs ++ [0])
      (show d.pos + (bs ++ [0]).length ≤ d.block.length by rw [List.length_append, List.length_singleton]; omega)
    exact ⟨_, by rw [Dst.sprintf, hstore]; rfl⟩
  · intro d' hd'
    obtain ⟨block, hstore, rfl⟩ := Option.map_eq_some_iff.mp hd'
    have hfit := storeBytes_fits hstore
    rw [List.length_append] at hfit
    exact ⟨(storeBytes_length hstore).trans hlen, by rw [hpos], by omega, h.sep_eq⟩

theorem separate_lands (h : DstAt len pos sep d) :
    Lands len (if sep = 0 then pos else pos + 1) (sep + 1) d.separate := by
  unfold Dst.separate
  rw [h.sep_eq]
  by_cases hsep : sep = 0
  · rw [if_pos hsep, if_neg (not_not.mpr hsep)]
    exact lands_some ⟨h.length_eq, h.pos_eq, h.pos_le, rfl⟩
  · rw [if_pos hsep, if_neg hsep]
    have hput := put_lands h (chars [';'])
    constructor
    · intro hlt
      obtain ⟨d', hd'⟩ := hput.fits hlt
      exact ⟨_, by rw [hd']; rfl⟩
    · intro d' hd'
      obtain ⟨d1, hd1, rfl⟩ := Option.map_eq_some_iff.mp hd'
      have hat := hput.lands d1 hd1
      exact ⟨hat.length_eq, hat.pos_eq, hat.pos_le, rfl⟩

end Writes

/-! ## The parts -/

section Parts

variable {len cost sep : Nat} {d : Dst}

/-- A part of `n` bytes, with the `;` in front of it unless it is the first. -/
theorem part_lands {n : Nat} {f : Dst → Option Dst} (h : DstAt len (max 2 (cost + 1)) sep d)
    (hsep : sep = 0 ↔ cost = 0) (hn : 1 ≤ n)
    (hf : ∀ pos d, DstAt len pos (sep + 1) d → Lands len (pos + n) (sep + 1) (f d)) :
    Lands len (max 2 (cost + (n + 1) + 1)) (sep + 1) (d.separate.bind f) := by
  have hpos : max 2 (cost + (n + 1) + 1) =
      (if sep = 0 then max 2 (cost + 1) else max 2 (cost + 1) + 1) + n := by
    split <;> omega
  rw [hpos]
  exact (separate_lands h).bind (by omega) fun d hd => hf _ d hd

theorem countP_range_tail (p : Nat → Bool) {i n : Nat} :
    (List.range' i (n + 1)).countP p = (if p i then 1 else 0) + (List.range' (i + 1) n).countP p := by
  rw [List.range'_succ, List.countP_cons]
  split <;> omega

theorem getLsbD_bit {i : Nat} (hi : i < 32) (j : Nat) : (1#32 <<< i).getLsbD j = decide (j = i) := by
  rw [BitVec.getLsbD_shiftLeft, BitVec.getLsbD_one]
  grind

theorem and_bit_eq_zero {attr : BitVec 32} {i : Nat} (hi : i < 32) :
    attr &&& 1#32 <<< i = 0 ↔ attr.getLsbD i = false := by
  constructor
  · intro h
    have hbit := congrArg (fun b => b.getLsbD i) h
    simpa [getLsbD_bit hi, hi] using hbit
  · intro h
    refine BitVec.eq_of_getLsbD_eq fun j hj => ?_
    rw [BitVec.getLsbD_and, getLsbD_bit hi]
    by_cases hji : j = i
    · simp [hji, h]
    · simp [hji]

theorem getLsbD_clear {attr : BitVec 32} {i j : Nat} (hi : i < 32) :
    (attr &&& ~~~(1#32 <<< i)).getLsbD j = (attr.getLsbD j && decide (j ≠ i)) := by
  rw [BitVec.getLsbD_and, BitVec.getLsbD_not, getLsbD_bit hi]
  by_cases hj : j < 32
  · simp [hj]
  · simp [BitVec.getLsbD_of_ge attr j (by omega)]

theorem attrLoop_bit {fuel i : Nat} {attr : BitVec 32} (hi : i < 32) (hbit : attr.getLsbD i = true)
    (d : Dst) : attrLoop (fuel + 1) i attr d =
      (d.separate.bind fun d => d.put [UInt8.ofNat ('0'.toNat + i)]).bind
        (attrLoop fuel (i + 1) (attr &&& ~~~(1#32 <<< i))) := by
  have hne : ¬ attr &&& 1#32 <<< i = 0 := by
    rw [and_bit_eq_zero hi, hbit]
    decide
  have hzero : ¬ attr = 0 := by
    rintro rfl
    simp at hne
  rw [attrLoop, if_neg hzero, if_neg hne, Option.bind_assoc]
  rfl

theorem attrLoop_skip {fuel i : Nat} {attr : BitVec 32} (hi : i < 32) (hzero : ¬ attr = 0)
    (hbit : attr.getLsbD i = false) (d : Dst) :
    attrLoop (fuel + 1) i attr d = attrLoop fuel (i + 1) attr d := by
  rw [attrLoop, if_neg hzero, if_pos ((and_bit_eq_zero hi).mpr hbit)]

/-- The bits below a bit, and the bit itself. -/
theorem low_succ {attr : BitVec 32} {i : Nat} (hlow : ∀ j < i, attr.getLsbD j = false)
    (hbit : attr.getLsbD i = false) : ∀ j < i + 1, attr.getLsbD j = false := by
  intro j hj
  rcases Nat.lt_succ_iff_lt_or_eq.mp hj with hj | rfl
  · exact hlow j hj
  · exact hbit

theorem low_clear {attr : BitVec 32} {i : Nat} (hi : i < 32) (hlow : ∀ j < i, attr.getLsbD j = false) :
    ∀ j < i, (attr &&& ~~~(1#32 <<< i)).getLsbD j = false := by
  intro j hj
  rw [getLsbD_clear hi, hlow j hj, Bool.false_and]

theorem getLsbD_clear_self {attr : BitVec 32} {i : Nat} (hi : i < 32) :
    (attr &&& ~~~(1#32 <<< i)).getLsbD i = false := by
  rw [getLsbD_clear hi]
  simp

theorem countP_clear {attr : BitVec 32} {i n : Nat} (hi : i < 32) :
    (List.range' (i + 1) n).countP (attr &&& ~~~(1#32 <<< i)).getLsbD =
      (List.range' (i + 1) n).countP attr.getLsbD := by
  refine List.countP_congr fun j hj => ?_
  have hij := (List.mem_range'_1.mp hj).1
  rw [getLsbD_clear hi, decide_eq_true (by omega), Bool.and_true]

/-- The attributes still to come: two bytes for each. The bits below `i` are cleared. -/
theorem attrLoop_lands : ∀ {fuel n i : Nat} {attr : BitVec 32} {cost sep : Nat} {d : Dst}, n < fuel →
    i + n = 32 → (∀ j < i, attr.getLsbD j = false) → DstAt len (max 2 (cost + 1)) sep d →
    (sep = 0 ↔ cost = 0) →
      Lands len (max 2 (cost + 2 * (List.range' i n).countP attr.getLsbD + 1))
        (sep + (List.range' i n).countP attr.getLsbD) (attrLoop fuel i attr d) := by
  intro fuel
  induction fuel with
  | zero => intro n i attr cost sep d hn; omega
  | succ fuel ih =>
    intro n i attr cost sep d hn hi hlow hd hsep
    by_cases hzero : attr = 0
    · have hcount : (List.range' i n).countP (0 : BitVec 32).getLsbD = 0 :=
        List.countP_eq_zero.mpr fun j _ => by simp
      rw [attrLoop, if_pos hzero, hzero, hcount]
      exact lands_some hd
    · cases n with
      | zero =>
        refine absurd (BitVec.eq_of_getLsbD_eq fun j hj => ?_) hzero
        rw [hlow j (by omega)]
        exact BitVec.getLsbD_zero.symm
      | succ n =>
        rw [countP_range_tail]
        cases hbit : attr.getLsbD i with
        | false =>
          have hskip := low_succ hlow hbit
          rw [attrLoop_skip (by omega) hzero hbit, if_neg Bool.false_ne_true, Nat.zero_add]
          exact ih (show n < fuel by omega) (by omega) hskip hd hsep
        | true =>
          have hclear := low_succ (low_clear (show i < 32 by omega) hlow) (getLsbD_clear_self (by omega))
          have hpart := part_lands hd hsep (Nat.le_refl 1) fun pos d hd =>
            put_lands hd [UInt8.ofNat ('0'.toNat + i)]
          rw [attrLoop_bit (by omega) hbit, if_pos rfl]
          refine hpart.bind (by omega) fun d hd => ?_
          have hrest := ih (show n < fuel by omega) (by omega) hclear hd (by omega)
          rw [countP_clear (by omega)] at hrest
          convert hrest using 1 <;> omega

theorem decimal_natCast (n : Nat) : decimal n = (Nat.toDigits 10 n).map Char.toUInt8 := by
  have hprint : (toString (n : Int)).toList = Nat.toDigits 10 n := String.toList_ofList
  rw [decimal, hprint]

theorem decimal_length {n : Nat} (hn : n < 256) :
    (decimal n).length = if n < 10 then 1 else if n < 100 then 2 else 3 := by
  have hall : ∀ n < 256, (Nat.toDigits 10 n).length = if n < 10 then 1 else if n < 100 then 2 else 3 := by
    decide +kernel
  rw [decimal_natCast, List.length_map, hall n hn]

theorem colorPart_lands {c : Int} (layer : Char) (h : DstAt len (max 2 (cost + 1)) sep d)
    (hsep : sep = 0 ↔ cost = 0) (hc : c ≤ 255) :
    Lands len (max 2 (cost + colorWidth c + 1)) (if c < 0 then sep else sep + 1) (colorPart layer c d) := by
  by_cases h0 : c < 0
  · rw [colorPart, if_neg (Int.not_le.mpr h0), colorWidth, if_pos h0, if_pos h0]
    exact lands_some h
  · obtain ⟨n, rfl⟩ := Int.eq_ofNat_of_zero_le (Int.not_lt.mp h0)
    have hpart : colorPart layer n d = d.separate.bind fun d =>
        if (n : Int) < 8 then (d.put (chars [layer])).bind fun d => d.put [UInt8.ofNat ('0'.toNat + n)]
        else d.sprintf (chars [layer, '8', ';', '5', ';'] ++ decimal n) := if_pos (Int.not_lt.mp h0)
    rw [hpart, if_neg h0]
    by_cases h8 : (n : Int) < 8
    · have hwidth : colorWidth n = 2 + 1 := by rw [colorWidth, if_neg h0, if_pos h8]
      simp only [if_pos h8]
      rw [hwidth]
      exact part_lands h hsep (by omega) fun pos d hd =>
        (put_lands hd (chars [layer])).bind (by simp [chars]) fun d hd =>
          put_lands hd [UInt8.ofNat ('0'.toNat + n)]
    · have hlen : (chars [layer, '8', ';', '5', ';'] ++ decimal n).length = 5 + (decimal n).length := by
        rw [List.length_append]
        rfl
      have hwidth : colorWidth n = (chars [layer, '8', ';', '5', ';'] ++ decimal n).length + 1 := by
        rw [hlen, decimal_length (by omega), colorWidth, if_neg h0, if_neg h8]
        grind
      simp only [if_neg h8]
      rw [hwidth]
      exact part_lands h hsep (by omega) fun pos d hd => sprintf_lands hd _

end Parts

theorem end_fits {len pos sep : Nat} {r : Option Dst} (h : Lands len pos sep r) :
    (∃ block, (r.bind fun d => (d.put (chars ['m'])).bind fun d => storeBytes d.block d.pos [0]) = some block) ↔
      pos + 2 ≤ len := by
  have hm := fun d hd => put_lands (h.lands d hd) (chars ['m'])
  constructor
  · rintro ⟨block, hblock⟩
    obtain ⟨d, hd, hrest⟩ := Option.bind_eq_some_iff.mp hblock
    obtain ⟨d', hd', hstore⟩ := Option.bind_eq_some_iff.mp hrest
    have hat := (hm d hd).lands d' hd'
    have hfit := storeBytes_fits hstore
    rw [hat.length_eq, hat.pos_eq] at hfit
    exact hfit
  · intro hlen
    obtain ⟨d, hd⟩ := h.fits (by omega)
    obtain ⟨d', hd'⟩ := (hm d hd).fits (show pos + 1 < len by omega)
    have hat := (hm d hd).lands d' hd'
    obtain ⟨block, hstore⟩ := storeBytes_some [0] (show d'.pos + 1 ≤ d'.block.length by
      rw [hat.length_eq, hat.pos_eq]
      exact hlen)
    exact ⟨block, by rw [hd, Option.bind_some, hd', Option.bind_some, hstore]⟩

def ColorState.attrCount (st : ColorState) : Nat := (List.range' 0 32).countP st.attr.getLsbD

theorem attrCount_eq_zero {st : ColorState} : st.attrCount = 0 ↔ st.attr = 0 := by
  rw [ColorState.attrCount, List.countP_eq_zero]
  constructor
  · intro h
    refine BitVec.eq_of_getLsbD_eq fun i hi => ?_
    have hbit := h i (List.mem_range'_1.mpr ⟨Nat.zero_le i, by omega⟩)
    simpa using hbit
  · intro h i _
    simp [h]

/-- The bytes of a sequence that are not its frame, the four bytes `ESC`, `[`, `m` and zero. -/
def ColorState.cost (st : ColorState) : Nat := 2 * st.attrCount + colorWidth st.fg + colorWidth st.bg

theorem colorWidth_eq_zero {c : Int} : colorWidth c = 0 ↔ c < 0 := by
  unfold colorWidth
  grind

/-- The parts of a sequence, before its end. -/
def colorParts (dst : List Byte) (st : ColorState) : Option Dst :=
  (((Dst.put { block := dst, pos := 0, sep := 0 } [27]).bind fun d => d.put (chars ['['])).bind fun d =>
    attrLoop 33 0 st.attr d).bind (colorPart '3' st.fg) |>.bind (colorPart '4' st.bg)

theorem colorParts_lands (dst : List Byte) {st : ColorState} (hfg : st.fg ≤ 255) (hbg : st.bg ≤ 255) :
    ∃ sep, Lands dst.length (max 2 (st.cost + 1)) sep (colorParts dst st) := by
  have hstart : DstAt dst.length 0 0 { block := dst, pos := 0, sep := 0 } := ⟨rfl, rfl, Nat.zero_le _, rfl⟩
  have hframe : Lands dst.length 2 0 ((Dst.put { block := dst, pos := 0, sep := 0 } [27]).bind fun d =>
      d.put (chars ['['])) :=
    (put_lands hstart [27]).bind (by simp) fun d hd => put_lands hd (chars ['['])
  have hattrs : ∀ d, DstAt dst.length 2 0 d →
      Lands dst.length (max 2 (2 * st.attrCount + 1)) st.attrCount (attrLoop 33 0 st.attr d) := by
    intro d hd
    have hlow : ∀ j < 0, st.attr.getLsbD j = false := fun j hj => absurd hj (Nat.not_lt_zero j)
    have hcost : max 2 (0 + 1) = 2 := rfl
    have hloop := attrLoop_lands (show 32 < 33 by omega) (Nat.zero_add 32) hlow (hcost ▸ hd) (iff_of_true rfl rfl)
    rwa [Nat.zero_add, Nat.zero_add] at hloop
  have hwidth := colorWidth_eq_zero (c := st.fg)
  have hcolor := ((hframe.bind (Nat.le_max_left _ _) hattrs).bind (by omega) fun d hd =>
    colorPart_lands '3' hd (by omega) hfg).bind (by omega) fun d hd =>
      colorPart_lands '4' hd (by split <;> omega) hbg
  exact ⟨_, hcolor⟩

/-- A buffer of at least two bytes takes a sequence that is three bytes longer than its parts. -/
theorem colorWrite_fits {dst : List Byte} (hdst : 2 ≤ dst.length) {st : ColorState} (hfg : st.fg ≤ 255)
    (hbg : st.bg ≤ 255) :
    (∃ block, colorWrite dst st = some block) ↔ st.cost = 0 ∨ st.cost + 3 ≤ dst.length := by
  have hzero : st.cost = 0 ↔ ¬ (st.attr ≠ 0 ∨ st.fg ≥ 0 ∨ st.bg ≥ 0) := by
    have hattr := @attrCount_eq_zero st
    have h1 := colorWidth_eq_zero (c := st.fg)
    have h2 := colorWidth_eq_zero (c := st.bg)
    unfold ColorState.cost
    grind
  unfold colorWrite
  by_cases hout : st.attr ≠ 0 ∨ st.fg ≥ 0 ∨ st.bg ≥ 0
  · obtain ⟨sep, hparts⟩ := colorParts_lands dst hfg hbg
    have hend := end_fits hparts
    rw [colorParts] at hend
    simp only [Option.bind_assoc] at hend
    rw [if_pos hout]
    refine hend.trans ?_
    have hcost : st.cost ≠ 0 := fun h => hzero.mp h hout
    omega
  · rw [if_neg hout]
    exact iff_of_true (storeBytes_some [0] (by simp; omega)) (.inl (hzero.mpr hout))

/-! ## Descriptions -/

/-- What the words take in the sequence: two bytes for each attribute, however often it is named, and
what the colours take. -/
def descriptionCost (w : Nat) (words : List ColorWord) : Nat :=
  2 * (attributes w words).dedup.length + ((colors w words).map colorWidth).sum

theorem attrCount_eq {w : Nat} {words : List ColorWord} {st : ColorState} (h : ColorParsed w words st) :
    st.attrCount = (attributes w words).dedup.length := by
  have hperm : ((List.range' 0 32).filter st.attr.getLsbD).Perm (attributes w words).dedup := by
    refine (List.perm_ext_iff_of_nodup (List.Nodup.filter _ List.nodup_range') (List.nodup_dedup _)).mpr fun i => ?_
    have hlt := h.attributes_lt i
    rw [List.mem_filter, List.mem_dedup, List.mem_range'_1, h.attr_bit, decide_eq_true_iff]
    constructor
    · exact fun hi => hi.2
    · exact fun hi => ⟨⟨Nat.zero_le i, hlt hi⟩, hi⟩
  rw [ColorState.attrCount, List.countP_eq_length_filter]
  exact hperm.length_eq

theorem cost_eq {w : Nat} {words : List ColorWord} {st : ColorState} (h : ColorParsed w words st) :
    st.cost = descriptionCost w words := by
  have hunset : colorWidth (-2) = 0 := rfl
  rw [ColorState.cost, descriptionCost, attrCount_eq h, h.colors_eq]
  by_cases hfg : st.fg = -2
  · simp [hfg, h.fg_first hfg, hunset]
  · by_cases hbg : st.bg = -2
    · simp [hfg, hbg, hunset]
    · simp [hfg, hbg, Nat.add_assoc]

theorem valueLen_le (value : CString) : (valueLen value).toNat ≤ value.val.length :=
  Int.toNat_le.mpr (i32OfNat_le value.val.length)

theorem colorWords_parsed {w : Nat} {value : CString} {st : ColorState}
    (h : colorWords w value = some (some st)) : ColorParsed w (descriptionWords value) st := by
  rw [colorWords, colorLoop_words w _ (Nat.lt_succ_self _) (valueLen_le value), Option.some.injEq] at h
  exact colorParsed_run (colorParsed_init w) h

/-- `color_parse` does not go to `bad`. -/
def Accepted (w : Nat) (value : CString) : Prop :=
  isReset w value = true ∨ ∃ st, colorWords w value = some (some st)

/-- **Escape sequences.** The sequence of an accepted description fits into the sixteen bytes of
`color_code` if and only if its words take no more than thirteen, or it is a reset. -/
theorem color_code_fits_iff {w : Nat} {color : CString} (h : Accepted w color) :
    (∃ block, colorCode w color = some (some block)) ↔
      isReset w color = true ∨ descriptionCost w (descriptionWords color) ≤ 13 := by
  unfold colorCode colorParse
  by_cases hreset : isReset w color = true
  · rw [if_pos hreset]
    exact iff_of_true ⟨_, rfl⟩ (.inl hreset)
  · obtain ⟨st, hst⟩ := h.resolve_left hreset
    have hparsed := colorWords_parsed hst
    have hdst : 2 ≤ (List.replicate 16 (0 : Byte)).length := by decide
    have hfits := colorWrite_fits hdst hparsed.colors_le.1 hparsed.colors_le.2
    rw [cost_eq hparsed, List.length_replicate] at hfits
    rw [if_neg hreset, hst, Option.bind_eq_bind, Option.bind_some, or_iff_right hreset]
    simp only [Option.map_eq_some_iff, Option.some.injEq, exists_eq_right]
    rw [hfits]
    omega

def boldRed : CString := ⟨chars ['b', 'o', 'l', 'd', ' ', 'r', 'e', 'd'], by decide⟩

theorem color_code_fits_iff_bold_red : (∃ block, colorCode 64 boldRed = some (some block)) ↔
    isReset 64 boldRed = true ∨ descriptionCost 64 (descriptionWords boldRed) ≤ 13 :=
  color_code_fits_iff (.inr ⟨⟨2#32, 1, -2⟩, by decide +kernel⟩)

def twoNumbers : CString := ⟨chars ['1', '0', '0', ' ', '2', '0', '0'], by decide⟩

/-- Two colours by number take 21 bytes. -/
theorem color_code_overflows : ¬ ∀ (w : Nat) (color : CString), 32 ≤ w → Accepted w color →
    ∃ block, colorCode w color = some (some block) := by
  intro h
  have hreset : isReset 64 twoNumbers = false := by decide +kernel
  have hwords : colorWords 64 twoNumbers = some (some ⟨0, 100, 200⟩) := by decide +kernel
  obtain ⟨block, hblock⟩ := h 64 twoNumbers (by decide) (.inr ⟨_, hwords⟩)
  rw [colorCode, colorParse, hreset, if_neg Bool.false_ne_true, hwords, Option.bind_eq_bind,
    Option.bind_some] at hblock
  obtain ⟨block', hwrite, -⟩ := Option.map_eq_some_iff.mp hblock
  have hfits := (colorWrite_fits (by decide) (by decide) (by decide)).mp ⟨block', hwrite⟩
  exact absurd hfits (by decide)

end Xdebug
end Xlibc
