import Xlibc.Base.CInt
import Xlibc.Base.Compare
import Xlibc.Base.Strtol
import Mathlib.Data.Vector.Basic

/-!
# Xlibc.Xfcfg.Parse

The callbacks that read a value: a text and the content of the target go in, the return value and the
new content come out. A callback has no result where the behaviour is undefined, which is an access in
front of the text or a `long` that overflows.

`MeetsContract` is what the caller expects of them: 0 and the value of a text in their syntax, and
otherwise a negative number and the old content.
-/

namespace Xlibc
namespace Xfcfg

def word (cs : List Char) : List Byte := cs.map Char.toUInt8

def xfcfgParseBool (value : CString) (dest : Byte) : Option (Int × Byte) :=
  if strcasecmp value.val (word ['y', 'e', 's']) = 0 ∨ strcasecmp value.val (word ['t', 'r', 'u', 'e']) = 0 ∨
      strcasecmp value.val (word ['1']) = 0 then some (0, 1)
  else if strcasecmp value.val (word ['n', 'o']) = 0 ∨
      strcasecmp value.val (word ['f', 'a', 'l', 's', 'e']) = 0 ∨
      strcasecmp value.val (word ['0']) = 0 then some (0, 0)
  else some (-1, dest)

/-- The target is a `long` of `w` bits, and is written before anything is checked. -/
def xfcfgParseInt (w : Nat) (value : CString) (_ : Int) : Option (Int × Int) :=
  let r := strtol w 0 value.val
  some (if r.2.headD 0 = 0 then 1 else 0, r.1)

abbrev Mac : Type := Vector Byte 6

/-- An `int` stored as `unsigned char`. -/
def byteOfInt (z : Int) : Byte := UInt8.ofNat (z % 256).toNat

/-- `mac[i]`, read from the two characters that `tmp` takes from position `i * stride`. -/
def macBytes (w stride : Nat) (macstr : List Byte) : Mac :=
  Vector.ofFn fun i => byteOfInt (strtol w 16 ((macstr.drop (i * stride)).take 2)).1

/-- The 17 characters that `xstr2mac1` looks at: every third is a colon. -/
def isColonForm (macstr : List Byte) : Bool :=
  (List.range 17).all fun i =>
    if (i + 1) % 3 = 0 then macstr.getD i 0 == ':'.toUInt8 else isxdigit (macstr.getD i 0)

/-- The 12 characters that `xstr2mac2` looks at. -/
def isPlainForm (macstr : List Byte) : Bool := (List.range 12).all fun i => isxdigit (macstr.getD i 0)

/-- Neither pointer is `NULL`. -/
def xstr2mac1 (w : Nat) (mac : Mac) (macstr : CString) : Int × Mac :=
  let len := i32OfNat macstr.val.length
  if len < 17 then (-1, mac)
  else if isColonForm macstr.val = false then (-1, mac)
  else (0, macBytes w 3 macstr.val)

def xstr2mac2 (w : Nat) (mac : Mac) (macstr : CString) : Int × Mac :=
  let len := i32OfNat macstr.val.length
  if len < 12 then (-1, mac)
  else if isPlainForm macstr.val = false then (-1, mac)
  else (0, macBytes w 2 macstr.val)

def xstr2mac (w : Nat) (mac : Mac) (str : CString) : Int × Mac :=
  let ret := xstr2mac1 w mac str
  if ret.1 = 0 then (0, ret.2) else xstr2mac2 w ret.2 str

def xfcfgParseMac (w : Nat) (value : CString) (arg : Mac) : Option (Int × Mac) := some (xstr2mac w arg value)

/-- `s[i]`. In front of the string there is nothing that may be read. -/
def charAt (s : CString) (i : Int) : Option Byte := if 0 ≤ i then (s.val ++ [0])[i.toNat]? else none

/-- `scale`, by the last character. -/
def sizeScale (unit : Byte) : Int :=
  if unit = 'K'.toUInt8 ∨ unit = 'k'.toUInt8 then 1024
  else if unit = 'M'.toUInt8 ∨ unit = 'm'.toUInt8 then 1024 * 1024
  else if unit = 'G'.toUInt8 ∨ unit = 'g'.toUInt8 then 1024 * 1024 * 1024
  else 1

/-- What `strtol` leaves behind, and whether it could read the number at all, is not looked at. -/
def xfcfgParseSize (w : Nat) (value : CString) (_ : Int) : Option (Int × Int) := do
  let unit ← charAt value (i32OfNat value.val.length - 1)
  let val ← mulLong w (strtol w 10 value.val).1 (sizeScale unit)
  some (0, val)

/-! ## The contract -/

/-- A callback on one text, `Denotes v` saying that the text is in the syntax and stands for `v`. -/
def MeetsContract {α : Type} (Denotes : α → Prop) (parse : α → Option (Int × α)) : Prop :=
  ∀ old, (∀ v, Denotes v → parse old = some (0, v)) ∧
    ((¬ ∃ v, Denotes v) → ∃ ret, parse old = some (ret, old) ∧ ret < 0)

/-- The words for a bool, in any case. -/
def BoolText (text : CString) (v : Byte) : Prop :=
  (text.val.map tolower ∈ [word ['y', 'e', 's'], word ['t', 'r', 'u', 'e'], word ['1']] ∧ v = 1) ∨
  (text.val.map tolower ∈ [word ['n', 'o'], word ['f', 'a', 'l', 's', 'e'], word ['0']] ∧ v = 0)

/-- An integer that `strtol` reads to its end. -/
def IntText (text : CString) (v : Int) : Prop := scanNumber 0 text.val = some (v, [])

/-- The value of the two digits at a position. -/
def macDigits (text : List Byte) (i : Nat) : Nat :=
  16 * (hexValue (text.getD i 0)).getD 0 + (hexValue (text.getD (i + 1) 0)).getD 0

/-- Six bytes of two digits each, with colons between them or without. -/
def MacText (text : CString) (mac : Mac) : Prop :=
  (text.val.length = 17 ∧ isColonForm text.val = true ∧
    ∀ i : Fin 6, mac[i].toNat = macDigits text.val (3 * i)) ∨
  (text.val.length = 12 ∧ isPlainForm text.val = true ∧ ∀ i : Fin 6, mac[i].toNat = macDigits text.val (2 * i))

/-- The suffixes of a size, and what they multiply it with. -/
def IsSuffix (suffix : List Byte) (scale : Int) : Prop :=
  (suffix = [] ∧ scale = 1) ∨
  ((suffix = ['K'.toUInt8] ∨ suffix = ['k'.toUInt8]) ∧ scale = 1024) ∨
  ((suffix = ['M'.toUInt8] ∨ suffix = ['m'.toUInt8]) ∧ scale = 1024 ^ 2) ∨
  ((suffix = ['G'.toUInt8] ∨ suffix = ['g'.toUInt8]) ∧ scale = 1024 ^ 3)

/-- A sign, decimal digits of value `n`, and a suffix. -/
def SizeNumeral (sign : List Byte) (text : CString) (n : Nat) (scale : Int) : Prop :=
  ∃ ds suffix, ds ≠ [] ∧ (∀ c ∈ ds, isDigit 10 c = true) ∧ IsSuffix suffix scale ∧
    text.val = sign ++ (ds ++ suffix) ∧ n = number 10 0 ds

/-- Decimal digits and a suffix. -/
def SizeText (text : CString) (v : Int) : Prop :=
  ∃ n scale, SizeNumeral [] text n scale ∧ v = n * scale

/-! ## Bool and int -/

theorem strcasecmp_word (value : CString) {w : List Byte} (hzero : (0 : Byte) ∉ w)
    (hlower : w.map tolower = w) : strcasecmp value.val w = 0 ↔ value.val.map tolower = w := by
  rw [strcasecmp_eq_zero value.property hzero, hlower]

theorem parseBool_meets (value : CString) : MeetsContract (BoolText value) (xfcfgParseBool value) := by
  intro old
  have hyes := strcasecmp_word value (w := word ['y', 'e', 's']) (by decide) rfl
  have htrue := strcasecmp_word value (w := word ['t', 'r', 'u', 'e']) (by decide) rfl
  have hone := strcasecmp_word value (w := word ['1']) (by decide) rfl
  have hno := strcasecmp_word value (w := word ['n', 'o']) (by decide) rfl
  have hfalse := strcasecmp_word value (w := word ['f', 'a', 'l', 's', 'e']) (by decide) rfl
  have hnull := strcasecmp_word value (w := word ['0']) (by decide) rfl
  have hon : value.val.map tolower ∈ [word ['y', 'e', 's'], word ['t', 'r', 'u', 'e'], word ['1']] →
      value.val.map tolower ∉ [word ['n', 'o'], word ['f', 'a', 'l', 's', 'e'], word ['0']] := by
    have hall : ∀ x ∈ [word ['y', 'e', 's'], word ['t', 'r', 'u', 'e'], word ['1']],
        x ∉ [word ['n', 'o'], word ['f', 'a', 'l', 's', 'e'], word ['0']] := by decide
    exact hall _
  simp only [xfcfgParseBool, BoolText, hyes, htrue, hone, hno, hfalse, hnull]
  simp only [List.mem_cons, List.not_mem_nil, or_false] at hon ⊢
  constructor
  · rintro v (⟨h, rfl⟩ | ⟨h, rfl⟩)
    · rw [if_pos h]
    · rw [if_neg fun h' => hon h' h, if_pos h]
  · intro hnone
    refine ⟨-1, ?_, by omega⟩
    rw [if_neg fun h => hnone ⟨1, Or.inl ⟨h, rfl⟩⟩, if_neg fun h => hnone ⟨0, Or.inr ⟨h, rfl⟩⟩]

/-- Its return values are 1 and 0, for a number and for anything else. -/
theorem parseInt_fails (w : Nat) (value : CString) :
    ¬ MeetsContract (IntText value) (xfcfgParseInt w value) := by
  intro h
  obtain ⟨hgood, hbad⟩ := h 0
  by_cases hv : ∃ v, IntText value v
  · obtain ⟨v, hv⟩ := hv
    have hret := hgood v hv
    unfold IntText at hv
    simp [xfcfgParseInt, strtol, hv] at hret
  · obtain ⟨ret, hret, hneg⟩ := hbad hv
    unfold xfcfgParseInt at hret
    have hfst := congrArg Prod.fst (Option.some.inj hret)
    dsimp only at hfst
    split at hfst
    · omega
    · omega

/-! ## Addresses -/

theorem isDigit_sixteen (c : Byte) : isDigit 16 c = isxdigit c := by
  rw [isDigit, digitValue_sixteen]
  rfl

/-- Two digits are read as their value. -/
theorem strtol_pair {w : Nat} (hw : 32 ≤ w) {a b : Byte} (ha : isxdigit a = true) (hb : isxdigit b = true) :
    (strtol w 16 [a, b]).1 = (16 * (hexValue a).getD 0 + (hexValue b).getD 0 : Nat) := by
  obtain ⟨x, hx⟩ := Option.isSome_iff_exists.mp ha
  obtain ⟨y, hy⟩ := Option.isSome_iff_exists.mp hb
  have hdigits : ∀ c ∈ [a, b], isDigit 16 c = true := by
    intro c hc
    rw [isDigit_sixteen]
    rcases List.mem_cons.mp hc with rfl | hc
    · exact ha
    · rw [List.mem_singleton.mp hc]
      exact hb
  have hrest : ∀ c ∈ ([] : List Byte).head?, isDigit 16 c = false := by
    intro c hc
    cases hc
  have hscan := scanNumber_digits (Or.inl ⟨rfl, rfl⟩) (show 16 ≤ 36 by omega) (List.cons_ne_nil a [b])
    hdigits hrest rfl
  have hvalue : number 16 0 [a, b] = 16 * x + y := by
    simp [number, digitValue_sixteen, hx, hy, Nat.mul_comm]
  have hlt : inLong w (16 * x + y : Nat) := by
    have hxlt := hexValue_lt hx
    have hylt := hexValue_lt hy
    have hpow : (2 : Int) ^ 31 ≤ 2 ^ (w - 1) := by
      exact_mod_cast Nat.pow_le_pow_right (show 0 < 2 by omega) (show 31 ≤ w - 1 by omega)
    constructor
    · omega
    · omega
  rw [List.nil_append, List.append_nil] at hscan
  rw [strtol, hscan, hvalue, hx, hy]
  exact clampLong_of_inLong hlt

theorem take_two {text : List Byte} {k : Nat} (hk : k + 1 < text.length) :
    (text.drop k).take 2 = [text.getD k 0, text.getD (k + 1) 0] := by
  have hk' : k < text.length := by omega
  rw [List.drop_eq_getElem_cons hk', List.drop_eq_getElem_cons hk, List.take_succ_cons,
    List.take_succ_cons, List.take_zero]
  simp only [List.getD_eq_getElem?_getD, List.getElem?_eq_getElem hk, List.getElem?_eq_getElem hk',
    Option.getD_some]

/-- The bytes stored are the ones denoted. -/
theorem macBytes_digits {w : Nat} (hw : 32 ≤ w) {stride : Nat} {text : List Byte}
    (hlen : 5 * stride + 1 < text.length)
    (hdigits : ∀ i < 6, isxdigit (text.getD (stride * i) 0) = true ∧
      isxdigit (text.getD (stride * i + 1) 0) = true) (i : Fin 6) :
    (macBytes w stride text)[i].toNat = macDigits text (stride * i) := by
  obtain ⟨ha, hb⟩ := hdigits i i.isLt
  have hi : stride * i ≤ 5 * stride := by
    rw [Nat.mul_comm]
    exact Nat.mul_le_mul_right _ (by omega)
  have hpair := strtol_pair hw ha hb
  obtain ⟨x, hx⟩ := Option.isSome_iff_exists.mp ha
  obtain ⟨y, hy⟩ := Option.isSome_iff_exists.mp hb
  have hxlt := hexValue_lt hx
  have hylt := hexValue_lt hy
  rw [macDigits, hx, hy, Option.getD_some, Option.getD_some]
  rw [hx, hy, Option.getD_some, Option.getD_some] at hpair
  simp only [macBytes, Fin.getElem_fin, Vector.getElem_ofFn, Nat.mul_comm i.val stride,
    take_two (show stride * i + 1 < text.length by omega), hpair, byteOfInt, UInt8.toNat_ofNat']
  omega

theorem colonForm_digits {text : List Byte} (h : isColonForm text = true) :
    ∀ i < 6, isxdigit (text.getD (3 * i) 0) = true ∧ isxdigit (text.getD (3 * i + 1) 0) = true := by
  intro i hi
  have hall := List.all_eq_true.mp h
  have h0 := hall (3 * i) (List.mem_range.mpr (by omega))
  have h1 := hall (3 * i + 1) (List.mem_range.mpr (by omega))
  rw [if_neg (by omega)] at h0 h1
  exact ⟨h0, h1⟩

theorem plainForm_digits {text : List Byte} (h : isPlainForm text = true) :
    ∀ i < 6, isxdigit (text.getD (2 * i) 0) = true ∧ isxdigit (text.getD (2 * i + 1) 0) = true := by
  intro i hi
  have hall := List.all_eq_true.mp h
  exact ⟨hall (2 * i) (List.mem_range.mpr (by omega)), hall (2 * i + 1) (List.mem_range.mpr (by omega))⟩

/-- The third character of one form is a colon, of the other it is a digit. -/
theorem forms_differ {text : List Byte} (hcolon : isColonForm text = true) : isPlainForm text = false := by
  by_contra hplain
  have hc := List.all_eq_true.mp hcolon 2 (List.mem_range.mpr (by omega))
  have hp := List.all_eq_true.mp (Bool.not_eq_false _ ▸ hplain) 2 (List.mem_range.mpr (by omega))
  rw [if_pos rfl] at hc
  rw [beq_iff_eq.mp hc] at hp
  exact absurd hp (by decide)

/-- What `xstr2mac1` and `xstr2mac2` accept, by the length as an `int` and the characters they look at. -/
def AcceptsColon (text : List Byte) : Prop := 17 ≤ i32OfNat text.length ∧ isColonForm text = true

def AcceptsPlain (text : List Byte) : Prop := 12 ≤ i32OfNat text.length ∧ isPlainForm text = true

/-- An accepted text has nothing behind the characters that are looked at. -/
def MacWhole (text : List Byte) : Prop :=
  (AcceptsColon text → text.length = 17) ∧ (AcceptsPlain text → text.length = 12)

section Mac

variable {w : Nat} {mac : Mac} {str : CString}

theorem xstr2mac1_accepts (h : AcceptsColon str.val) : xstr2mac1 w mac str = (0, macBytes w 3 str.val) := by
  have := h.1
  unfold xstr2mac1
  rw [if_neg (by omega), if_neg (by rw [h.2]; exact Bool.true_eq_false_eq_False)]

theorem xstr2mac1_rejects (h : ¬ AcceptsColon str.val) : xstr2mac1 w mac str = (-1, mac) := by
  unfold xstr2mac1
  by_cases hlen : i32OfNat str.val.length < 17
  · rw [if_pos hlen]
  · have hform : isColonForm str.val = false := by
      by_contra hform
      exact h ⟨by omega, Bool.not_eq_false _ ▸ hform⟩
    rw [if_neg hlen, if_pos hform]

theorem xstr2mac2_accepts (h : AcceptsPlain str.val) : xstr2mac2 w mac str = (0, macBytes w 2 str.val) := by
  have := h.1
  unfold xstr2mac2
  rw [if_neg (by omega), if_neg (by rw [h.2]; exact Bool.true_eq_false_eq_False)]

theorem xstr2mac2_rejects (h : ¬ AcceptsPlain str.val) : xstr2mac2 w mac str = (-1, mac) := by
  unfold xstr2mac2
  by_cases hlen : i32OfNat str.val.length < 12
  · rw [if_pos hlen]
  · have hform : isPlainForm str.val = false := by
      by_contra hform
      exact h ⟨by omega, Bool.not_eq_false _ ▸ hform⟩
    rw [if_neg hlen, if_pos hform]

theorem xstr2mac_colon (h : AcceptsColon str.val) : xstr2mac w mac str = (0, macBytes w 3 str.val) := by
  unfold xstr2mac
  rw [xstr2mac1_accepts h]
  rfl

theorem xstr2mac_other (h : ¬ AcceptsColon str.val) : xstr2mac w mac str = xstr2mac2 w mac str := by
  unfold xstr2mac
  rw [xstr2mac1_rejects h]
  rfl

end Mac

theorem macText_colon {text : CString} {mac : Mac} (hlen : text.val.length = 17)
    (h : MacText text mac) : AcceptsColon text.val := by
  rcases h with ⟨-, hform, -⟩ | ⟨hlen', -, -⟩
  · refine ⟨?_, hform⟩
    rw [hlen]
    decide
  · omega

theorem macText_plain {text : CString} {mac : Mac} (hlen : text.val.length = 12)
    (h : MacText text mac) : AcceptsPlain text.val := by
  rcases h with ⟨hlen', -, -⟩ | ⟨-, hform, -⟩
  · omega
  · refine ⟨?_, hform⟩
    rw [hlen]
    decide

theorem macText_length {text : CString} {mac : Mac} (h : MacText text mac) :
    text.val.length = 17 ∨ text.val.length = 12 := by
  rcases h with ⟨hlen, -, -⟩ | ⟨hlen, -, -⟩
  · exact Or.inl hlen
  · exact Or.inr hlen

/-- An address is denoted once. -/
theorem macText_unique {text : CString} {mac mac' : Mac} (h : MacText text mac) (h' : MacText text mac') :
    mac = mac' := by
  apply Vector.ext
  intro i hi
  apply UInt8.toNat_inj.mp
  rcases h with ⟨hlen, -, h⟩ | ⟨hlen, -, h⟩
  · rcases h' with ⟨-, -, h'⟩ | ⟨hlen', -, -⟩
    · exact (h ⟨i, hi⟩).trans (h' ⟨i, hi⟩).symm
    · omega
  · rcases h' with ⟨hlen', -, -⟩ | ⟨-, -, h'⟩
    · omega
    · exact (h ⟨i, hi⟩).trans (h' ⟨i, hi⟩).symm

theorem macText_of_colon {w : Nat} (hw : 32 ≤ w) {text : CString} (h : AcceptsColon text.val)
    (hlen : text.val.length = 17) : MacText text (macBytes w 3 text.val) :=
  Or.inl ⟨hlen, h.2, macBytes_digits hw (by omega) (colonForm_digits h.2)⟩

theorem macText_of_plain {w : Nat} (hw : 32 ≤ w) {text : CString} (h : AcceptsPlain text.val)
    (hlen : text.val.length = 12) : MacText text (macBytes w 2 text.val) :=
  Or.inr ⟨hlen, h.2, macBytes_digits hw (by omega) (plainForm_digits h.2)⟩

/-- An accepted text has one address, and denotes it if nothing follows; a rejected one denotes none. -/
theorem xstr2mac_cases {w : Nat} (hw : 32 ≤ w) (str : CString) :
    (∃ m, (∀ old, xstr2mac w old str = (0, m)) ∧ (∀ v, MacText str v → v = m) ∧
      (MacText str m ↔ MacWhole str.val)) ∨
    ((∀ old, xstr2mac w old str = (-1, old)) ∧ (∀ v, ¬ MacText str v) ∧ MacWhole str.val) := by
  have hle := i32OfNat_le str.val.length
  by_cases hcolon : AcceptsColon str.val
  · have hplain : ¬ AcceptsPlain str.val := fun h => by
      have hno := forms_differ hcolon.2
      rw [h.2] at hno
      cases hno
    have hlength : ∀ v, MacText str v → str.val.length = 17 := by
      intro v hv
      have := hcolon.1
      have := macText_length hv
      omega
    refine .inl ⟨_, fun _ => xstr2mac_colon hcolon, ?_, ?_, ?_⟩
    · exact fun v hv => macText_unique hv (macText_of_colon hw hcolon (hlength v hv))
    · exact fun h => ⟨fun _ => hlength _ h, fun h' => absurd h' hplain⟩
    · exact fun h => macText_of_colon hw hcolon (h.1 hcolon)
  · have hlength : ∀ v, MacText str v → str.val.length = 12 := by
      intro v hv
      rcases macText_length hv with h17 | h12
      · exact absurd (macText_colon h17 hv) hcolon
      · exact h12
    by_cases hplain : AcceptsPlain str.val
    · refine .inl ⟨_, fun _ => by rw [xstr2mac_other hcolon, xstr2mac2_accepts hplain], ?_, ?_, ?_⟩
      · exact fun v hv => macText_unique hv (macText_of_plain hw hplain (hlength v hv))
      · exact fun h => ⟨fun h' => absurd h' hcolon, fun _ => hlength _ h⟩
      · exact fun h => macText_of_plain hw hplain (h.2 hplain)
    · refine .inr ⟨fun _ => by rw [xstr2mac_other hcolon, xstr2mac2_rejects hplain], fun v hv => ?_, ?_⟩
      · exact hplain (macText_plain (hlength v hv) hv)
      · exact ⟨fun h => absurd h hcolon, fun h => absurd h hplain⟩

/-- A callback that takes every content to 0 and `m`, where nothing else is denoted. -/
theorem meetsContract_accept {α : Type} {Denotes : α → Prop} {parse : α → Option (Int × α)} {m : α}
    (hret : ∀ old, parse old = some (0, m)) (hunique : ∀ v, Denotes v → v = m) :
    MeetsContract Denotes parse ↔ Denotes m := by
  constructor
  · intro h
    by_contra hm
    obtain ⟨ret, hrun, hneg⟩ := (h m).2 fun hv => by
      obtain ⟨v, hv⟩ := hv
      exact hm (hunique v hv ▸ hv)
    rw [hret] at hrun
    cases hrun
    omega
  · intro h old
    refine ⟨fun v hv => ?_, fun hnone => absurd ⟨m, h⟩ hnone⟩
    rw [hret, hunique v hv]

/-- The addresses: nothing may follow what is looked at. -/
theorem parseMac_meets_iff {w : Nat} (hw : 32 ≤ w) (value : CString) :
    MeetsContract (MacText value) (xfcfgParseMac w value) ↔ MacWhole value.val := by
  obtain ⟨m, hrun, hunique, hwhole⟩ | ⟨hrun, hnone, hwhole⟩ := xstr2mac_cases hw value
  · rw [meetsContract_accept (fun old => by rw [xfcfgParseMac, hrun]) hunique]
    exact hwhole
  · refine iff_of_true (fun old => ⟨fun v hv => absurd hv (hnone v), fun _ => ⟨-1, ?_, by omega⟩⟩) hwhole
    rw [xfcfgParseMac, hrun]

end Xfcfg
end Xlibc
