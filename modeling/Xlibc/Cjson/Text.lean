import Mathlib.Tactic.IntervalCases
import Xlibc.Base.CInt
import Xlibc.Base.Hex
import Xlibc.Base.Written

/-!
# Xlibc.Cjson.Text

The strings of `cJSON.c`: `parseString` and `printStringPtr`. A pointer into a text is what is left of
the text up to its terminator, behind which nothing is read.

* `parseString`, `printStringPtr` : the code.
* `Piece` : what a string is written with, `decode` what it stands for, with UTF-16 pairs as UTF-8.
* `utf8Bytes_eq` : the bytes that are written for a character are its UTF-8.
* `scanLen_pieces`, `decodeFrom_length` : the length of the first pass is enough for them.
-/

namespace Xlibc
namespace Cjson

/-! ## The code -/

/-- `*p` -/
def deref (p : List Byte) : Byte := p.headD 0

/-- `p + k`, which may not pass the terminator. -/
def advance (p : List Byte) (k : Nat) : Option (List Byte) := if k ≤ p.length then some (p.drop k) else none

/-- A result and the pointer behind it, or `NULL`, with the pointer that is left in `ep`. -/
abbrev Parsed (α : Type) : Type := Except (List Byte) (α × List Byte)

def parseHex4 (str : List Byte) : Nat := ((do
  let a ← hexValue (deref str)
  let b ← hexValue (deref (str.drop 1))
  let c ← hexValue (deref (str.drop 2))
  let d ← hexValue (deref (str.drop 3))
  some ((((((a <<< 4) + b) <<< 4) + c) <<< 4) + d)) : Option Nat).getD 0

def firstByteMark : List Nat := [0x00, 0x00, 0xC0, 0xE0, 0xF0, 0xF8, 0xFC]

/-- `n` times `*--ptr2 = ((uc | 0x80) & 0xBF); uc >>= 6;` in front of `bytes`. -/
def contBytes : Nat → Nat → List Byte → Nat × List Byte
  | 0, uc, bytes => (uc, bytes)
  | n + 1, uc, bytes => contBytes n (uc >>> 6) (UInt8.ofNat ((uc ||| 0x80) &&& 0xBF) :: bytes)

/-- The `len` bytes that a character is written with. -/
def utf8Bytes (uc : Nat) : List Byte :=
  let len := if uc < 0x80 then 1 else if uc < 0x800 then 2 else if uc < 0x10000 then 3 else 4
  let (uc, bytes) := contBytes (len - 1) uc []
  UInt8.ofNat (uc ||| firstByteMark.getD len 0) :: bytes

/-- `while (*ptr != '"' && *ptr && ++len) if (*ptr++ == '\\') ptr++;` -/
def scanLen : List Byte → Nat → Option Nat
  | [], len => some len
  | c :: ptr, len =>
    if c = '"'.toUInt8 then some len
    else if c = '\\'.toUInt8 then
      match ptr with
      | [] => none
      | _ :: ptr => scanLen ptr (len + 1)
    else scanLen ptr (len + 1)

/-- The `case 'u'`: where `ptr` is left, and what is written. -/
def unescapeHex (ptr : List Byte) : Option (List Byte × List Byte) := do
  let uc := parseHex4 (ptr.drop 1)
  let ptr ← advance ptr 4
  if (0xDC00 ≤ uc ∧ uc ≤ 0xDFFF) ∨ uc = 0 then some (ptr, [])
  else if 0xD800 ≤ uc ∧ uc ≤ 0xDBFF then
    if deref (ptr.drop 1) ≠ '\\'.toUInt8 ∨ deref (ptr.drop 2) ≠ 'u'.toUInt8 then some (ptr, [])
    else do
      let uc2 := parseHex4 (ptr.drop 3)
      let ptr ← advance ptr 6
      if uc2 < 0xDC00 ∨ uc2 > 0xDFFF then some (ptr, [])
      else some (ptr, utf8Bytes (0x10000 + (((uc &&& 0x3FF) <<< 10) ||| (uc2 &&& 0x3FF))))
  else some (ptr, utf8Bytes uc)

/-- The `switch` behind a backslash. -/
def unescape (ptr : List Byte) : Option (List Byte × List Byte) :=
  let c := deref ptr
  if c = 'b'.toUInt8 then some (ptr, [8])
  else if c = 'f'.toUInt8 then some (ptr, [12])
  else if c = 'n'.toUInt8 then some (ptr, [10])
  else if c = 'r'.toUInt8 then some (ptr, [13])
  else if c = 't'.toUInt8 then some (ptr, [9])
  else if c = 'u'.toUInt8 then unescapeHex ptr
  else some (ptr, [c])

/-- `while (*ptr != '"' && *ptr)`: `ptr`, the block `out`, and `ptr2` in it. -/
def unescapeLoop : Nat → List Byte → List Byte → Nat → Option (List Byte × List Byte × Nat)
  | 0, _, _, _ => none
  | fuel + 1, ptr, out, ptr2 =>
    if deref ptr = '"'.toUInt8 ∨ deref ptr = 0 then some (ptr, out, ptr2)
    else if deref ptr ≠ '\\'.toUInt8 then do
      let out ← storeBytes out ptr2 [deref ptr]
      let ptr ← advance ptr 1
      unescapeLoop fuel ptr out (ptr2 + 1)
    else do
      let ptr ← advance ptr 1
      let (ptr, bytes) ← unescape ptr
      let out ← storeBytes out ptr2 bytes
      let ptr ← advance ptr 1
      unescapeLoop fuel ptr out (ptr2 + bytes.length)

/-- The length pass of `printStringPtr`. -/
def escapedLen : List Byte → Nat → Nat
  | [], len => len
  | token :: ptr, len =>
    if token ∈ ['"'.toUInt8, '\\'.toUInt8, 8, 12, 10, 13, 9] then escapedLen ptr (len + 2)
    else if token < 32 then escapedLen ptr (len + 6)
    else escapedLen ptr (len + 1)

/-- What is written behind the backslash, and how far `ptr2` goes. -/
def escapeToken (token : Byte) : List Byte × Nat :=
  if token = '\\'.toUInt8 then (['\\'.toUInt8], 1)
  else if token = '"'.toUInt8 then (['"'.toUInt8], 1)
  else if token = 8 then (['b'.toUInt8], 1)
  else if token = 12 then (['f'.toUInt8], 1)
  else if token = 10 then (['n'.toUInt8], 1)
  else if token = 13 then (['r'.toUInt8], 1)
  else if token = 9 then (['t'.toUInt8], 1)
  -- `sprintf` ends its text with a zero
  else ('u'.toUInt8 :: printHex 4 token.toNat ++ [0], 5)

def escapeLoop : List Byte → List Byte → Nat → Option (List Byte × Nat)
  | [], out, ptr2 => some (out, ptr2)
  | c :: ptr, out, ptr2 =>
    if c > 31 ∧ c ≠ '"'.toUInt8 ∧ c ≠ '\\'.toUInt8 then do
      let out ← storeBytes out ptr2 [c]
      escapeLoop ptr out (ptr2 + 1)
    else do
      let out ← storeBytes out ptr2 ['\\'.toUInt8]
      let (text, n) := escapeToken c
      let out ← storeBytes out (ptr2 + 1) text
      escapeLoop ptr out (ptr2 + 1 + n)

section Code

-- what fresh memory holds; `xmalloc` ends the program when there is none
variable (fresh : Nat → Byte)

def xmalloc (n : Nat) : List Byte := (List.range n).map fresh

/-- A text whose length does not fit an `int` has no result. -/
def parseString (str : List Byte) : Option (Parsed CString) :=
  if deref str ≠ '"'.toUInt8 then some (.error str)
  else do
    let len ← scanLen (str.drop 1) 0
    if intMax ≤ len then none
    else
      let (ptr, out, ptr2) ← unescapeLoop str.length (str.drop 1) (xmalloc fresh (len + 1)) 0
      let out ← storeBytes out ptr2 [0]
      let ptr := if deref ptr = '"'.toUInt8 then ptr.drop 1 else ptr
      let valuestring ← cstring out
      some (.ok (valuestring, ptr))

/-- The printed string; `NULL` is printed as an empty text. -/
def printStringPtr : Option CString → Option CString
  | none => some ⟨[], zero_notMem_nil⟩
  | some str => do
    let len := escapedLen str.val 0
    if intMax < len + 3 then none
    else
      let out ← storeBytes (xmalloc fresh (len + 3)) 0 ['"'.toUInt8]
      let (out, ptr2) ← escapeLoop str.val out 1
      let out ← storeBytes out ptr2 ['"'.toUInt8, 0]
      cstring out

end Code

/-! ## What strings are written with -/

abbrev HexDigit : Type := { c : Byte // (hexValue c).isSome = true }

def HexDigit.value (c : HexDigit) : Nat := (hexValue c.val).getD 0

/-- A byte that stands for itself, an escaped byte, or a unit of UTF-16. -/
inductive Piece where
  | raw (c : Byte) (h : c ≠ '"'.toUInt8 ∧ c ≠ '\\'.toUInt8 ∧ c ≠ 0)
  | esc (c : Byte) (h : c ≠ 'u'.toUInt8 ∧ c ≠ 0)
  | unit (a b c d : HexDigit)

def Piece.text : Piece → List Byte
  | .raw c _ => [c]
  | .esc c _ => ['\\'.toUInt8, c]
  | .unit a b c d => ['\\'.toUInt8, 'u'.toUInt8, a.val, b.val, c.val, d.val]

def textOf (pieces : List Piece) : List Byte := pieces.flatMap Piece.text

/-- The byte that an escape stands for. -/
def escaped (c : Byte) : Byte :=
  if c = 'b'.toUInt8 then 8
  else if c = 'f'.toUInt8 then 12
  else if c = 'n'.toUInt8 then 10
  else if c = 'r'.toUInt8 then 13
  else if c = 't'.toUInt8 then 9
  else c

def unitValue (a b c d : HexDigit) : Nat := ((a.value * 16 + b.value) * 16 + c.value) * 16 + d.value

def IsLow (n : Nat) : Prop := 0xDC00 ≤ n ∧ n ≤ 0xDFFF

def IsHigh (n : Nat) : Prop := 0xD800 ≤ n ∧ n ≤ 0xDBFF

instance (n : Nat) : Decidable (IsLow n) := inferInstanceAs (Decidable (_ ∧ _))

instance (n : Nat) : Decidable (IsHigh n) := inferInstanceAs (Decidable (_ ∧ _))

def utf8 (n : Nat) : List Byte := String.utf8EncodeChar (Char.ofNat n)

/-- The character of a surrogate pair. -/
def pair (high low : Nat) : Nat := 0x10000 + (high - 0xD800) * 0x400 + (low - 0xDC00)

/-- What pieces stand for, behind a high surrogate if there is one. A surrogate without its other half stands for
nothing, nor does a zero; a unit behind a high surrogate is lost with it. -/
def decodeFrom : Option Nat → List Piece → List Byte
  | _, [] => []
  | _, .raw c _ :: pieces => c :: decodeFrom none pieces
  | _, .esc c _ :: pieces => escaped c :: decodeFrom none pieces
  | none, .unit a b c d :: pieces =>
    let n := unitValue a b c d
    if IsLow n ∨ n = 0 then decodeFrom none pieces
    else if IsHigh n then decodeFrom (some n) pieces
    else utf8 n ++ decodeFrom none pieces
  | some high, .unit a b c d :: pieces =>
    let n := unitValue a b c d
    (if IsLow n then utf8 (pair high n) else []) ++ decodeFrom none pieces

def decode (pieces : List Piece) : List Byte := decodeFrom none pieces

theorem xmalloc_length (fresh : Nat → Byte) (n : Nat) : (xmalloc fresh n).length = n := by
  rw [xmalloc, List.length_map, List.length_range]

/-! ## UTF-8 -/

theorem contByte_eq (uc : Nat) : (uc ||| 0x80) &&& 0xBF = uc % 64 + 0x80 := by
  have hadd : uc % 64 + 0x80 = 2 ^ 7 * 1 ||| uc % 2 ^ 6 := by
    rw [← Nat.two_pow_add_eq_or_of_lt (show uc % 2 ^ 6 < 2 ^ 7 by omega)]
    omega
  rw [hadd]
  apply Nat.eq_of_testBit_eq
  intro i
  rw [Nat.testBit_and, Nat.testBit_or, Nat.testBit_or, Nat.testBit_mod_two_pow]
  rcases Nat.lt_or_ge i 8 with hi | hi
  · interval_cases i <;> simp [Nat.testBit]
  · have hpow : 2 ^ 8 ≤ 2 ^ i := Nat.pow_le_pow_right (by decide) hi
    rw [Nat.testBit_lt_two_pow (show 0xBF < 2 ^ i by omega), Nat.testBit_lt_two_pow (show 2 ^ 7 * 1 < 2 ^ i by omega)]
    simp [show ¬ i < 6 by omega]

/-- The mark of the first byte is above what is left of the character. -/
theorem firstByte_eq {uc m k : Nat} (huc : uc < 2 ^ k) : uc ||| m * 2 ^ k = uc + m * 2 ^ k := by
  rw [Nat.or_comm, Nat.mul_comm, ← Nat.two_pow_add_eq_or_of_lt huc, Nat.add_comm]

/-- A character of Unicode. -/
def IsScalar (n : Nat) : Prop := n < 0xD800 ∨ (0xDFFF < n ∧ n < 0x110000)

theorem charOfNat_val {n : Nat} (h : IsScalar n) : (Char.ofNat n).val.toNat = n := by
  have hvalid : n.isValidChar := h
  rw [Char.ofNat, dif_pos hvalid]
  rfl

theorem utf8Bytes_eq {n : Nat} (h : IsScalar n) : utf8Bytes n = utf8 n := by
  have hval := charOfNat_val h
  unfold IsScalar at h
  simp only [utf8, String.utf8EncodeChar, hval]
  by_cases h1 : n < 0x80
  · have hbytes : utf8Bytes n = [UInt8.ofNat (n ||| 0)] := by
      simp only [utf8Bytes, if_pos h1]
      rfl
    rw [hbytes, Nat.or_zero, if_pos (by omega)]
  by_cases h2 : n < 0x800
  · have hbytes : utf8Bytes n = [UInt8.ofNat (n >>> 6 ||| 6 * 2 ^ 5), UInt8.ofNat ((n ||| 0x80) &&& 0xBF)] := by
      simp only [utf8Bytes, if_neg h1, if_pos h2]
      rfl
    have hlt : n >>> 6 < 2 ^ 5 := by rw [Nat.shiftRight_eq_div_pow]; omega
    rw [hbytes, firstByte_eq hlt, contByte_eq, if_neg (by omega), if_pos (by omega), Nat.shiftRight_eq_div_pow,
      Nat.mod_eq_of_lt (show n / 64 < 0x20 by omega)]
    rfl
  by_cases h3 : n < 0x10000
  · have hbytes : utf8Bytes n = [UInt8.ofNat (n >>> 6 >>> 6 ||| 14 * 2 ^ 4), UInt8.ofNat ((n >>> 6 ||| 0x80) &&& 0xBF),
        UInt8.ofNat ((n ||| 0x80) &&& 0xBF)] := by
      simp only [utf8Bytes, if_neg h1, if_neg h2, if_pos h3]
      rfl
    have hlt : n >>> 6 >>> 6 < 2 ^ 4 := by rw [← Nat.shiftRight_add, Nat.shiftRight_eq_div_pow]; omega
    rw [hbytes, firstByte_eq hlt, contByte_eq, contByte_eq, if_neg (by omega), if_neg (by omega), if_pos (by omega),
      ← Nat.shiftRight_add, Nat.shiftRight_eq_div_pow, Nat.shiftRight_eq_div_pow,
      Nat.mod_eq_of_lt (show n / 4096 < 0x10 by omega)]
    rfl
  · have hbytes : utf8Bytes n = [UInt8.ofNat (n >>> 6 >>> 6 >>> 6 ||| 30 * 2 ^ 3),
        UInt8.ofNat ((n >>> 6 >>> 6 ||| 0x80) &&& 0xBF), UInt8.ofNat ((n >>> 6 ||| 0x80) &&& 0xBF),
        UInt8.ofNat ((n ||| 0x80) &&& 0xBF)] := by
      simp only [utf8Bytes, if_neg h1, if_neg h2, if_neg h3]
      rfl
    have hlt : n >>> 6 >>> 6 >>> 6 < 2 ^ 3 := by
      rw [← Nat.shiftRight_add, ← Nat.shiftRight_add, Nat.shiftRight_eq_div_pow]
      omega
    rw [hbytes, firstByte_eq hlt, contByte_eq, contByte_eq, contByte_eq, if_neg (by omega), if_neg (by omega),
      if_neg (by omega), ← Nat.shiftRight_add, ← Nat.shiftRight_add, Nat.shiftRight_eq_div_pow,
      Nat.shiftRight_eq_div_pow, Nat.shiftRight_eq_div_pow, Nat.mod_eq_of_lt (show n / 262144 < 0x08 by omega),
      Nat.div_div_eq_div_mul]
    rfl

theorem utf8_length (n : Nat) : (utf8 n).length ≤ 4 := by
  simp only [utf8, String.utf8EncodeChar]
  split
  · simp
  · split
    · simp
    · split <;> simp

theorem utf8_length_bmp {n : Nat} (hn : n < 0x10000) (h : IsScalar n) : (utf8 n).length ≤ 3 := by
  have hval := charOfNat_val h
  simp only [utf8, String.utf8EncodeChar, hval]
  split
  · simp
  · split
    · simp
    · rw [if_pos (by omega)]
      simp

theorem ofNat_ne_zero {n : Nat} (h0 : n ≠ 0) (h : n < 256) : UInt8.ofNat n ≠ 0 := by
  intro heq
  have hnat := congrArg UInt8.toNat heq
  rw [UInt8.toNat_ofNat_of_lt' h] at hnat
  exact h0 hnat

theorem utf8_noNul {n : Nat} (h0 : n ≠ 0) (h : IsScalar n) : (0 : Byte) ∉ utf8 n := by
  have hval := charOfNat_val h
  have hne : ∀ m, m ≠ 0 ∧ m < 256 → (0 : Byte) ≠ UInt8.ofNat m := fun m hm => (ofNat_ne_zero hm.1 hm.2).symm
  simp only [utf8, String.utf8EncodeChar, hval]
  unfold IsScalar at h
  split
  · simp only [List.mem_singleton]
    exact hne n (by omega)
  · split
    · simp only [List.mem_cons, List.not_mem_nil, or_false, not_or]
      exact ⟨hne _ (by omega), hne _ (by omega)⟩
    · split
      · simp only [List.mem_cons, List.not_mem_nil, or_false, not_or]
        exact ⟨hne _ (by omega), hne _ (by omega), hne _ (by omega)⟩
      · simp only [List.mem_cons, List.not_mem_nil, or_false, not_or]
        exact ⟨hne _ (by omega), hne _ (by omega), hne _ (by omega), hne _ (by omega)⟩

/-! ## Units -/

theorem HexDigit.hexValue_eq (c : HexDigit) : hexValue c.val = some c.value := by
  obtain ⟨v, hv⟩ := Option.isSome_iff_exists.mp c.property
  rw [HexDigit.value, hv]
  rfl

theorem HexDigit.value_lt (c : HexDigit) : c.value < 16 := hexValue_lt c.hexValue_eq

theorem HexDigit.plain (c : HexDigit) : c.val ≠ '"'.toUInt8 ∧ c.val ≠ '\\'.toUInt8 ∧ c.val ≠ 0 := by
  have hall : ∀ c : Byte, isxdigit c = true → c ≠ '"'.toUInt8 ∧ c ≠ '\\'.toUInt8 ∧ c ≠ 0 :=
    forall_byte (by decide +kernel)
  exact hall c.val c.property

theorem unitValue_lt (a b c d : HexDigit) : unitValue a b c d < 0x10000 := by
  have ha := a.value_lt
  have hb := b.value_lt
  have hc := c.value_lt
  have hd := d.value_lt
  unfold unitValue
  omega

theorem parseHex4_unit (a b c d : HexDigit) (rest : List Byte) :
    parseHex4 (a.val :: b.val :: c.val :: d.val :: rest) = unitValue a b c d := by
  simp only [parseHex4, deref, List.headD_cons, List.drop_succ_cons, List.drop_zero, HexDigit.hexValue_eq,
    Option.bind_eq_bind, Option.bind_some, Option.getD_some, Nat.shiftLeft_eq, unitValue]

theorem pair_scalar {high low : Nat} (hh : IsHigh high) (hl : IsLow low) :
    IsScalar (pair high low) ∧ 0x10000 ≤ pair high low := by
  unfold IsHigh at hh
  unfold IsLow at hl
  unfold IsScalar pair
  omega

/-- The bits that are put together are the pair's. -/
theorem surrogates_eq {high low : Nat} (hh : IsHigh high) (hl : IsLow low) :
    0x10000 + (((high &&& 0x3FF) <<< 10) ||| (low &&& 0x3FF)) = pair high low := by
  have hmask : ∀ n : Nat, n &&& 0x3FF = n % 1024 := fun n => Nat.and_two_pow_sub_one_eq_mod n 10
  have hlt : low % 1024 < 2 ^ 10 := Nat.mod_lt _ (by decide)
  unfold pair
  unfold IsHigh at hh
  unfold IsLow at hl
  rw [hmask, hmask, Nat.shiftLeft_eq, Nat.mul_comm, ← Nat.two_pow_add_eq_or_of_lt hlt]
  omega

/-! ## What pieces stand for -/

/-- How far a piece is counted by the first pass. -/
def Piece.width : Piece → Nat
  | .raw _ _ => 1
  | .esc _ _ => 1
  | .unit _ _ _ _ => 5

def widthOf (pieces : List Piece) : Nat := (pieces.map Piece.width).sum

theorem widthOf_cons (p : Piece) (pieces : List Piece) : widthOf (p :: pieces) = p.width + widthOf pieces := by
  rw [widthOf, List.map_cons, List.sum_cons, widthOf]

theorem textOf_cons (p : Piece) (pieces : List Piece) : textOf (p :: pieces) = p.text ++ textOf pieces :=
  List.flatMap_cons

theorem widthOf_le (pieces : List Piece) : widthOf pieces ≤ (textOf pieces).length := by
  induction pieces with
  | nil => exact Nat.le_refl _
  | cons p pieces ih =>
    rw [widthOf_cons, textOf_cons, List.length_append]
    have hp : p.width ≤ p.text.length := by cases p <;> simp [Piece.width, Piece.text]
    omega

theorem widthOf_append (first rest : List Piece) : widthOf (first ++ rest) = widthOf first + widthOf rest := by
  rw [widthOf, List.map_append, List.sum_append, widthOf, widthOf]

theorem Piece.text_length_pos (p : Piece) : 0 < p.text.length := by cases p <;> simp [Piece.text]

theorem length_le_textOf (pieces : List Piece) : pieces.length ≤ (textOf pieces).length := by
  induction pieces with
  | nil => exact Nat.le_refl _
  | cons p pieces ih =>
    have hp := p.text_length_pos
    rw [textOf_cons, List.length_append, List.length_cons]
    omega

theorem Piece.text_noNul (p : Piece) : (0 : Byte) ∉ p.text := by
  cases p with
  | raw c h => simpa [Piece.text] using h.2.2.symm
  | esc c h => simpa [Piece.text] using ⟨by decide, h.2.symm⟩
  | unit a b c d =>
    simp only [Piece.text, List.mem_cons, List.not_mem_nil, or_false, not_or]
    exact ⟨by decide, by decide, a.plain.2.2.symm, b.plain.2.2.symm, c.plain.2.2.symm, d.plain.2.2.symm⟩

theorem textOf_noNul (pieces : List Piece) : (0 : Byte) ∉ textOf pieces := by
  intro hmem
  obtain ⟨p, -, hp⟩ := List.mem_flatMap.mp hmem
  exact p.text_noNul hp

/-- Pieces between quotation marks. -/
def quoted (pieces : List Piece) : CString :=
  ⟨'"'.toUInt8 :: textOf pieces ++ ['"'.toUInt8], by simpa using ⟨by decide, textOf_noNul pieces, by decide⟩⟩

/-- A quotation mark or the terminator. -/
def Ends (tail : List Byte) : Prop := deref tail = '"'.toUInt8 ∨ tail = []

theorem scanLen_quote (ptr : List Byte) (n : Nat) : scanLen ('"'.toUInt8 :: ptr) n = some n := by
  cases ptr <;> simp [scanLen]

theorem scanLen_raw {c : Byte} (h : c ≠ '"'.toUInt8) (h' : c ≠ '\\'.toUInt8) (ptr : List Byte) (n : Nat) :
    scanLen (c :: ptr) n = scanLen ptr (n + 1) := by
  cases ptr <;> simp only [scanLen, h, h', if_false]

theorem scanLen_backslash (c : Byte) (ptr : List Byte) (n : Nat) :
    scanLen ('\\'.toUInt8 :: c :: ptr) n = scanLen ptr (n + 1) := rfl

theorem scanLen_pieces (pieces : List Piece) {tail : List Byte} (ht : Ends tail) (n : Nat) :
    scanLen (textOf pieces ++ tail) n = some (n + widthOf pieces) := by
  induction pieces generalizing n with
  | nil =>
    cases tail with
    | nil => rfl
    | cons c tail =>
      rcases ht with ht | ht
      · have hc : c = '"'.toUInt8 := ht
        rw [hc]
        exact scanLen_quote tail n
      · cases ht
  | cons p pieces ih =>
    rw [textOf_cons, List.append_assoc, widthOf_cons, ← Nat.add_assoc]
    cases p with
    | raw c h =>
      rw [Piece.text, List.singleton_append, scanLen_raw h.1 h.2.1]
      exact ih (n + 1)
    | esc c h =>
      rw [Piece.text, List.cons_append, List.singleton_append, scanLen_backslash]
      exact ih (n + 1)
    | unit a b c d =>
      simp only [Piece.text, List.cons_append, List.nil_append, scanLen_backslash]
      rw [scanLen_raw a.plain.1 a.plain.2.1, scanLen_raw b.plain.1 b.plain.2.1, scanLen_raw c.plain.1 c.plain.2.1,
        scanLen_raw d.plain.1 d.plain.2.1]
      exact ih (n + 1 + 1 + 1 + 1 + 1)

theorem decodeFrom_some_none (high : Nat) {pieces : List Piece}
    (h : ∀ a b c d rest, pieces ≠ Piece.unit a b c d :: rest) :
      decodeFrom (some high) pieces = decodeFrom none pieces := by
  cases pieces with
  | nil => rfl
  | cons p pieces =>
    cases p with
    | raw c hc => rfl
    | esc c hc => rfl
    | unit a b c d => exact absurd rfl (h a b c d pieces)

theorem high_not_low {n : Nat} (h : IsHigh n) : ¬ (IsLow n ∨ n = 0) := by
  unfold IsHigh at h
  unfold IsLow
  omega

/-- A unit that stands for itself. -/
theorem unit_scalar {n : Nat} (hn : n < 0x10000) (h : ¬ (IsLow n ∨ n = 0)) (hh : ¬ IsHigh n) : IsScalar n := by
  unfold IsLow at h
  unfold IsHigh at hh
  unfold IsScalar
  omega

theorem decodeFrom_length (pieces : List Piece) (high : Option Nat) :
    (decodeFrom high pieces).length ≤ widthOf pieces := by
  induction pieces generalizing high with
  | nil => cases high <;> exact Nat.le_refl _
  | cons p pieces ih =>
    rw [widthOf_cons]
    cases p with
    | raw c h =>
      have hlen := ih none
      cases high <;> simp only [decodeFrom, List.length_cons, Piece.width] <;> omega
    | esc c h =>
      have hlen := ih none
      cases high <;> simp only [decodeFrom, List.length_cons, Piece.width] <;> omega
    | unit a b c d =>
      simp only [Piece.width]
      have hlen := ih none
      have hlt := unitValue_lt a b c d
      cases high with
      | none =>
        simp only [decodeFrom]
        split
        · omega
        · next hno =>
          split
          · have := ih (some (unitValue a b c d))
            omega
          · next hhigh =>
            have hutf := utf8_length_bmp hlt (unit_scalar hlt hno hhigh)
            rw [List.length_append]
            omega
      | some high =>
        simp only [decodeFrom, List.length_append]
        split
        · have hutf := utf8_length (pair high (unitValue a b c d))
          omega
        · rw [List.length_nil]
          omega

theorem escaped_ne_zero {c : Byte} (h : c ≠ 0) : escaped c ≠ 0 := by
  have hall : ∀ c : Byte, c ≠ 0 → escaped c ≠ 0 := forall_byte (by decide +kernel)
  exact hall c h

/-- Only the high surrogates that were read wait for their other half. -/
theorem decodeFrom_noNul (pieces : List Piece) (high : Option Nat) (hh : ∀ n ∈ high, IsHigh n) :
    (0 : Byte) ∉ decodeFrom high pieces := by
  induction pieces generalizing high with
  | nil => cases high <;> exact List.not_mem_nil
  | cons p pieces ih =>
    have hrest := ih none (by simp)
    cases p with
    | raw c h =>
      cases high <;> exact List.not_mem_cons_of_ne_of_not_mem h.2.2.symm hrest
    | esc c h =>
      cases high <;> exact List.not_mem_cons_of_ne_of_not_mem (escaped_ne_zero h.2).symm hrest
    | unit a b c d =>
      have hlt := unitValue_lt a b c d
      cases high with
      | none =>
        simp only [decodeFrom]
        split
        · exact hrest
        · next hno =>
          split
          · next hhigh => exact ih _ (by simpa using hhigh)
          · next hhigh =>
            rw [List.mem_append, not_or]
            exact ⟨utf8_noNul (fun h0 => hno (Or.inr h0)) (unit_scalar hlt hno hhigh), hrest⟩
      | some high =>
        simp only [decodeFrom, List.mem_append, not_or]
        refine ⟨?_, hrest⟩
        split
        · next hlow =>
          obtain ⟨hscalar, hge⟩ := pair_scalar (hh high rfl) hlow
          exact utf8_noNul (by omega) hscalar
        · exact List.not_mem_nil

/-- What a string stands for. -/
def decoded (pieces : List Piece) : CString := ⟨decode pieces, decodeFrom_noNul pieces none (by simp)⟩

end Cjson
end Xlibc
