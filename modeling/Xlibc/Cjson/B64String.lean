import Xlibc.Base64.RoundTrip
import Xlibc.Xfile.Read

/-!
# Xlibc.Cjson.B64String

`cJSON_CreateB64String` and `cJSON_DecodeB64String` of `cJSON.c`. The terminator of a decoded string is
placed from the length of the text, not from the number of bytes that have been decoded.

* `cjsonDecodeB64String_eq` : what is returned for an accepted text.
* `decodesTo_iff` : when it is the decoded bytes, whatever fresh memory holds.
* `cjson_b64_terminated_iff` : the same, and when a string comes back.
-/

namespace Xlibc
namespace Cjson

open Base64 Xfile

/-! ## The code -/

/-- The type of a `cJSON`, and its string if it is one. -/
structure Item where
  type : Int
  valuestring : Option CString

/-- `cJSON_String` -/
def cjsonStringType : Int := 4

/-- `cJSON_CreateString`, where `xmalloc` returns: it ends the program when there is no memory. -/
def cjsonCreateString (string : CString) : Item := { type := cjsonStringType, valuestring := some string }

/-- `cJSON_GetString` -/
def cjsonGetString (item : Option Item) : Option CString := do
  let item ← item
  if item.type ≠ cjsonStringType then none else item.valuestring

section Code

variable (w : Nat) (grants : Nat → Bool) (fresh : Nat → Byte)

/-- `malloc(n)`, where `grants n` says if there is a block of `n` bytes, and `fresh` is what it holds. -/
def malloc (n : Nat) : Option (List Byte) := if grants n then some ((List.range n).map fresh) else none

/-- `cJSON_CreateB64String` of the `len` bytes of `string`. -/
def cjsonCreateB64String (string : List Byte) : Option (Option Item) :=
  let b64len := base64Enclen w string.length
  match malloc grants fresh ((b64len + 1) % 2 ^ w) with
  | none => some none
  | some b64 =>
    match base64Encode string b64 with
    | none => some none
    | some (ret, b64) =>
      if ret < 0 then some none
      else do
        let b64 ← storeBytes b64 b64len [0]
        let string ← cstring b64
        some (some (cjsonCreateString string))

/-- `cJSON_DecodeB64String`. `strlen(NULL)` has no result, and neither has `len + 1` past `INT_MAX`. -/
def cjsonDecodeB64String (input : Option Item) : Option (Option (List Byte)) := do
  let string ← cjsonGetString input
  let len := i32OfNat (base64Declen w string.val.length)
  if len = intMax then none
  else
    match malloc grants fresh (sizeT w (len + 1)) with
    | none => some none
    | some b64 =>
      match base64Decode string.val b64 with
      | none => some none
      | some (_, b64) => if 0 ≤ len then (storeBytes b64 len.toNat [0]).map some else none

end Code

/-! ## Blocks that are cut off -/

def upToNul (bytes : List Byte) : List Byte := bytes.takeWhile (· ≠ 0)

theorem upToNul_self {bytes : List Byte} (h : (0 : Byte) ∉ bytes) : upToNul bytes = bytes := takeWhile_ne_self h

theorem upToNul_append_zero (bytes rest : List Byte) : upToNul (bytes ++ 0 :: rest) = upToNul bytes := by
  induction bytes with
  | nil => rfl
  | cons b bytes ih =>
    rw [upToNul, upToNul, List.cons_append, List.takeWhile_cons, List.takeWhile_cons]
    split
    · exact congrArg (b :: ·) ih
    · rfl

theorem cstr_cut (block : List Byte) : cstr (block ++ [0]) = some (upToNul block) := by
  rw [cstr, if_pos (by simp)]
  exact congrArg some (upToNul_append_zero block [])

/-- With a zero among the bytes, what is behind them does not matter, even if the last one is cut off. -/
theorem upToNul_take {bytes : List Byte} (hzero : (0 : Byte) ∈ bytes) {k : Nat} (hk : bytes.length ≤ k + 1)
    (rest : List Byte) : upToNul ((bytes ++ rest).take k) = upToNul bytes := by
  obtain ⟨a, c, rfl, ha⟩ := List.eq_append_cons_of_mem hzero
  rw [List.length_append, List.length_cons] at hk
  have htake : (a ++ 0 :: c ++ rest).take k = a ++ (0 :: (c ++ rest)).take (k - a.length) := by
    rw [List.append_assoc, List.take_append, List.take_of_length_le (by omega), List.cons_append]
  rw [htake, upToNul_append_zero]
  cases k - a.length with
  | zero => rw [List.take_zero, List.append_nil]
  | succ m => rw [List.take_succ_cons, upToNul_append_zero]

/-! ## Decoding -/

section Decode

variable {w : Nat} {grants : Nat → Bool}

/-- The requests of these functions are granted, as far as they are sizes of an `int`. -/
def Granted (grants : Nat → Bool) : Prop := ∀ n, 0 < n → n < 2 ^ 32 → grants n = true

theorem cjsonGetString_string {item : Item} {text : CString} (htype : item.type = cjsonStringType)
    (htext : item.valuestring = some text) : cjsonGetString (some item) = some text := by
  rw [cjsonGetString, Option.bind_eq_bind, Option.bind_some, if_neg (by rw [htype]; exact fun h => h rfl), htext]

/-- The length that the code takes from the text. -/
def decodedLen (w : Nat) (text : List Byte) : Int := i32OfNat (base64Declen w text.length)

/-- The block that is returned, if what is decoded has room in it. -/
theorem cjsonDecodeB64String_eq (hw : 32 ≤ w) (hg : Granted grants) (fresh : Nat → Byte) {item : Item}
    {text : CString} (hget : cjsonGetString (some item) = some text) {D : Decoder}
    (hD : decodeText text.val = some D) {k : Nat} (hk : decodedLen w text.val = k) (hmax : k < intMax) :
    cjsonDecodeB64String w grants fresh (some item) = if D.stored.length ≤ k + 1 then
      some (some ((D.stored ++ ((List.range (k + 1)).map fresh).drop D.stored.length).take k ++ [0]))
      else some none := by
  have hpow : 2 ^ 32 ≤ 2 ^ w := Nat.pow_le_pow_right (by omega) hw
  have hsize : sizeT w ((k : Int) + 1) = k + 1 := by
    rw [sizeT, show (k : Int) + 1 = (k + 1 : Nat) from rfl,
      natCast_emod_two_pow (by simp only [intMax] at hmax; omega), Int.toNat_natCast]
  have hgrant : grants (k + 1) = true := hg _ (by omega) (by simp only [intMax] at hmax; omega)
  have hlen : ((List.range (k + 1)).map fresh).length = k + 1 := by rw [List.length_map, List.length_range]
  rw [decodedLen] at hk
  rw [cjsonDecodeB64String, hget, Option.bind_eq_bind, Option.bind_some]
  dsimp only
  rw [hk, if_neg (by omega), hsize, malloc, if_pos hgrant]
  dsimp only
  rw [base64Decode_eq, hD, Option.bind_some, hlen]
  by_cases hroom : D.stored.length ≤ k + 1
  · rw [if_pos hroom, if_pos hroom]
    dsimp only
    rw [if_pos (Int.natCast_nonneg k), Int.toNat_natCast]
    have hblock : (D.stored ++ ((List.range (k + 1)).map fresh).drop D.stored.length).length = k + 1 := by
      rw [List.length_append, List.length_drop, hlen]
      omega
    rw [storeBytes_end hblock, Option.map_some]
  · rw [if_neg hroom, if_neg hroom]

/-- A length that is no `int` from 0 on to `INT_MAX` returns no block. -/
theorem cjsonDecodeB64String_none {item : Item} {text : CString}
    (hget : cjsonGetString (some item) = some text)
    (h : decodedLen w text.val < 0 ∨ intMax ≤ decodedLen w text.val) (fresh : Nat → Byte) (block : List Byte) :
    cjsonDecodeB64String w grants fresh (some item) ≠ some (some block) := by
  have hle : decodedLen w text.val ≤ intMax := by
    unfold decodedLen i32OfNat intMax
    split <;> omega
  rw [cjsonDecodeB64String, hget, Option.bind_eq_bind, Option.bind_some]
  rw [decodedLen] at h hle
  dsimp only
  obtain ⟨k, hk⟩ : ∃ k, i32OfNat (base64Declen w text.val.length) = k := ⟨_, rfl⟩
  rw [hk] at h hle ⊢
  by_cases hmax : k = intMax
  · rw [if_pos hmax]
    exact Option.some_ne_none _ |>.symm
  · rw [if_neg hmax]
    have hneg : ¬ 0 ≤ k := by omega
    cases malloc grants fresh (sizeT w (k + 1)) with
    | none => exact fun h => by cases h
    | some b64 =>
      dsimp only
      cases base64Decode text.val b64 with
      | none => exact fun h => by cases h
      | some r =>
        dsimp only
        rw [if_neg hneg]
        exact fun h => by cases h

/-- Up to its first zero the string that is returned is that of the decoded bytes, whatever fresh memory
has held. -/
def DecodesTo (w : Nat) (grants : Nat → Bool) (item : Item) (bytes : List Byte) : Prop :=
  ∀ fresh, ∃ block, cjsonDecodeB64String w grants fresh (some item) = some (some block) ∧
    cstr block = some (upToNul bytes)

/-- The length taken from the text leaves the terminator behind what has been decoded: the text has a pad,
which stores a zero, or the length is that of the bytes, or they have a zero. -/
def Terminated (w : Nat) (text bytes : List Byte) : Prop :=
  0 ≤ decodedLen w text ∧ decodedLen w text < intMax ∧
    ((pad64 ∈ text ∧ (digits text * 3 / 4 : Nat) ≤ decodedLen w text) ∨
      (pad64 ∉ text ∧ ((digits text * 3 / 4 : Nat) = decodedLen w text ∨
        ((0 : Byte) ∈ bytes ∧ (digits text * 3 / 4 : Nat) ≤ decodedLen w text + 1))))

/-- Memory that holds no zero shows a terminator that is too far behind, or too early. -/
theorem cut_fresh {bytes : List Byte} (hzero : (0 : Byte) ∉ bytes) {k : Nat} (hk : bytes.length ≤ k + 1)
    (h : cstr ((bytes ++ ((List.range (k + 1)).map fun _ => 1).drop bytes.length).take k ++ [0]) =
      some (upToNul bytes)) : bytes.length = k := by
  obtain ⟨rest, hrest⟩ : ∃ rest, ((List.range (k + 1)).map fun _ => (1 : Byte)).drop bytes.length = rest :=
    ⟨_, rfl⟩
  have hfill : (0 : Byte) ∉ rest := by
    rw [← hrest]
    intro hmem
    obtain ⟨i, -, hi⟩ := List.mem_map.mp (List.mem_of_mem_drop hmem)
    exact absurd hi (by decide)
  have hlen : (bytes ++ rest).length = k + 1 := by
    rw [← hrest, List.length_append, List.length_drop, List.length_map, List.length_range]
    omega
  have hnone : (0 : Byte) ∉ (bytes ++ rest).take k := by
    intro hmem
    rcases List.mem_append.mp (List.mem_of_mem_take hmem) with hmem | hmem
    · exact hzero hmem
    · exact hfill hmem
  rw [hrest, cstr_append_zero hnone, upToNul_self hzero, Option.some.injEq] at h
  rw [← h, List.length_take, hlen]
  omega

section Returned

variable {item : Item} {text : CString} {D : Decoder} {k : Nat} (hw : 32 ≤ w) (hg : Granted grants)
  (hget : cjsonGetString (some item) = some text) (hD : decodeText text.val = some D)
  (hk : decodedLen w text.val = k) (hmax : k < intMax)

include hw hg hget hD hk hmax

theorem decodesTo_room (h : DecodesTo w grants item D.bytes) : D.stored.length ≤ k + 1 := by
  obtain ⟨block, hblock, -⟩ := h fun _ => 1
  rw [cjsonDecodeB64String_eq hw hg _ hget hD hk hmax] at hblock
  by_contra hfull
  rw [if_neg hfull] at hblock
  cases hblock

theorem decodesTo_zero (hzero : (0 : Byte) ∈ D.stored) (hroom : D.stored.length ≤ k + 1) :
    DecodesTo w grants item D.bytes := by
  intro fresh
  have hstr : upToNul D.stored = upToNul D.bytes := by
    rw [decodeText_stored hD]
    split
    · exact upToNul_append_zero D.bytes []
    · rfl
  rw [cjsonDecodeB64String_eq hw hg fresh hget hD hk hmax, if_pos hroom]
  refine ⟨_, rfl, ?_⟩
  rw [cstr_cut, upToNul_take hzero hroom, hstr]

theorem decodesTo_exact (hstored : D.stored = D.bytes) (hlen : D.bytes.length = k) :
    DecodesTo w grants item D.bytes := by
  intro fresh
  rw [cjsonDecodeB64String_eq hw hg fresh hget hD hk hmax, hstored, if_pos (by omega)]
  refine ⟨_, rfl, ?_⟩
  rw [cstr_cut, ← hlen, List.take_left]

/-- Without a pad or a zero the terminator has to be behind the bytes. -/
theorem decodesTo_length (hstored : D.stored = D.bytes) (hzero : (0 : Byte) ∉ D.bytes)
    (h : DecodesTo w grants item D.bytes) : D.bytes.length = k := by
  have hroom := decodesTo_room hw hg hget hD hk hmax h
  obtain ⟨block, hblock, hstr⟩ := h fun _ => 1
  rw [cjsonDecodeB64String_eq hw hg _ hget hD hk hmax, if_pos hroom, hstored] at hblock
  cases hblock
  rw [hstored] at hroom
  exact cut_fresh hzero hroom hstr

/-- A pad has stored a zero behind the bytes: it needs room for it. -/
theorem decodesTo_padded (hpad : pad64 ∈ text.val) : DecodesTo w grants item D.bytes ↔ D.bytes.length ≤ k := by
  have hstored := decodeText_stored hD
  rw [if_pos hpad] at hstored
  have hlen : D.stored.length = D.bytes.length + 1 := by rw [hstored, List.length_append]; rfl
  constructor
  · intro h
    have hroom := decodesTo_room hw hg hget hD hk hmax h
    omega
  · intro h
    exact decodesTo_zero hw hg hget hD hk hmax (by rw [hstored]; simp) (by omega)

theorem decodesTo_plain (hpad : pad64 ∉ text.val) : DecodesTo w grants item D.bytes ↔
    D.bytes.length = k ∨ ((0 : Byte) ∈ D.bytes ∧ D.bytes.length ≤ k + 1) := by
  have hstored := decodeText_stored hD
  rw [if_neg hpad] at hstored
  constructor
  · intro h
    have hroom := decodesTo_room hw hg hget hD hk hmax h
    rw [hstored] at hroom
    by_cases hzero : (0 : Byte) ∈ D.bytes
    · exact .inr ⟨hzero, hroom⟩
    · exact .inl (decodesTo_length hw hg hget hD hk hmax hstored hzero h)
  · rintro (h | ⟨hzero, h⟩)
    · exact decodesTo_exact hw hg hget hD hk hmax hstored h
    · exact decodesTo_zero hw hg hget hD hk hmax (by rwa [hstored]) (by rwa [hstored])

end Returned

theorem decodesTo_iff (hw : 32 ≤ w) (hg : Granted grants) {item : Item} {text : CString}
    (hget : cjsonGetString (some item) = some text) {D : Decoder} (hD : decodeText text.val = some D) :
    DecodesTo w grants item D.bytes ↔ Terminated w text.val D.bytes := by
  unfold Terminated
  rw [← decodeText_length hD]
  by_cases hrange : 0 ≤ decodedLen w text.val ∧ decodedLen w text.val < intMax
  · obtain ⟨hpos, hmax⟩ := hrange
    obtain ⟨k, hk⟩ := Int.eq_ofNat_of_zero_le hpos
    rw [hk] at hmax ⊢
    have hlt : k < intMax := by omega
    by_cases hpad : pad64 ∈ text.val
    · rw [decodesTo_padded hw hg hget hD hk hlt hpad]
      constructor
      · intro h
        exact ⟨Int.natCast_nonneg k, hmax, .inl ⟨hpad, by omega⟩⟩
      · rintro ⟨-, -, ⟨-, h⟩ | ⟨h, -⟩⟩
        · omega
        · exact absurd hpad h
    · rw [decodesTo_plain hw hg hget hD hk hlt hpad]
      constructor
      · rintro (h | ⟨hzero, h⟩)
        · exact ⟨Int.natCast_nonneg k, hmax, .inr ⟨hpad, .inl (by omega)⟩⟩
        · exact ⟨Int.natCast_nonneg k, hmax, .inr ⟨hpad, .inr ⟨hzero, by omega⟩⟩⟩
      · rintro ⟨-, -, ⟨h, -⟩ | ⟨-, h | ⟨hzero, h⟩⟩⟩
        · exact absurd h hpad
        · exact .inl (by omega)
        · exact .inr ⟨hzero, by omega⟩
  · constructor
    · intro h
      obtain ⟨block, hblock, -⟩ := h fun _ => 1
      exact absurd hblock (cjsonDecodeB64String_none hget (by omega) _ block)
    · rintro ⟨hpos, hmax, -⟩
      exact absurd ⟨hpos, hmax⟩ hrange

theorem decodedLen_eq {text : List Byte} (hsize : text.length * 3 < 2 ^ w)
    (hmax : text.length * 3 / 4 < intMax) : decodedLen w text = (text.length * 3 / 4 : Nat) := by
  rw [decodedLen, base64Declen, Nat.mod_eq_of_lt hsize, i32OfNat_of_lt (by simp only [intMax] at hmax; omega)]

/-- A `size_t` that wraps makes the length too small. -/
theorem decodedLen_wraps {text : List Byte} (hw : 32 ≤ w) (hsize : 2 ^ w ≤ text.length * 3)
    (hint : text.length < 2 ^ 31) : decodedLen w text + 2 ^ 30 ≤ (text.length * 3 / 4 : Nat) := by
  have hpow : 2 ^ 32 ≤ 2 ^ w := Nat.pow_le_pow_right (by omega) hw
  have hmod : text.length * 3 % 2 ^ w ≤ text.length * 3 - 2 ^ w := by
    rw [Nat.mod_eq_sub_mod hsize]
    exact Nat.mod_le _ _
  rw [decodedLen, base64Declen, i32OfNat_of_lt (by omega)]
  omega

/-- Of a text whose length fits every type, only the blanks count. -/
theorem terminated_iff_blanks {text : List Byte} {D : Decoder} (hD : decodeText text = some D)
    (hsize : text.length * 3 < 2 ^ w) (hmax : text.length * 3 / 4 < intMax) :
    Terminated w text D.bytes ↔ pad64 ∈ text ∨ text.countP isspace ≤ 1 ∨ (0 : Byte) ∈ D.bytes := by
  have hdigits : digits text ≤ text.length := List.countP_le_length
  unfold Terminated
  rw [decodedLen_eq hsize hmax]
  by_cases hpad : pad64 ∈ text
  · exact iff_of_true ⟨Int.natCast_nonneg _, by omega, .inl ⟨hpad, by omega⟩⟩ (.inl hpad)
  · obtain ⟨hblanks, hwhole⟩ := decodeText_unpadded hD hpad
    constructor
    · rintro ⟨-, -, ⟨h, -⟩ | ⟨-, h | ⟨h, -⟩⟩⟩
      · exact absurd h hpad
      · exact .inr (.inl (by omega))
      · exact .inr (.inr h)
    · rintro (h | h | h)
      · exact absurd h hpad
      · exact ⟨Int.natCast_nonneg _, by omega, .inr ⟨hpad, .inl (by omega)⟩⟩
      · exact ⟨Int.natCast_nonneg _, by omega, .inr ⟨hpad, .inr ⟨h, by omega⟩⟩⟩

end Decode

/-! ## Both ways -/

def encoded (string : List Byte) : CString := ⟨encodeText string, zero_notMem_encodeText string⟩

/-- The string comes back, whatever fresh memory has held in both calls. -/
def RoundTrip (w : Nat) (grants : Nat → Bool) (string : List Byte) : Prop :=
  ∀ fresh fresh', ∃ item block, cjsonCreateB64String w grants fresh string = some (some item) ∧
    cjsonDecodeB64String w grants fresh' (some item) = some (some block) ∧ cstr block = some string

section Both

variable {w : Nat} {grants : Nat → Bool} {string : List Byte} (hw : 32 ≤ w) (hg : Granted grants)
  (hlen : string.length ≤ intMax)

include hw hlen

theorem base64Enclen_eq : base64Enclen w string.length = (encodeText string).length := by
  have hpow : 2 ^ 32 ≤ 2 ^ w := Nat.pow_le_pow_right (by omega) hw
  rw [encodeText_length, base64Enclen, Nat.mod_eq_of_lt]
  simp only [intMax] at hlen
  split <;> omega

include hg

/-- The item, if the length of its text is an `int`. -/
theorem cjsonCreateB64String_eq (fresh : Nat → Byte) : cjsonCreateB64String w grants fresh string =
    if (encodeText string).length < 2 ^ 31 then some (some (cjsonCreateString (encoded string)))
    else some none := by
  have hpow : 2 ^ 32 ≤ 2 ^ w := Nat.pow_le_pow_right (by omega) hw
  have hbound : (encodeText string).length + 1 < 2 ^ 32 := by
    rw [encodeText_length]
    simp only [intMax] at hlen
    split <;> omega
  have hfresh : ((List.range ((encodeText string).length + 1)).map fresh).length =
      (encodeText string).length + 1 := by rw [List.length_map, List.length_range]
  rw [cjsonCreateB64String, base64Enclen_eq hw hlen, Nat.mod_eq_of_lt (by omega), malloc,
    if_pos (hg _ (by omega) hbound)]
  dsimp only
  rw [base64Encode_eq hfresh]
  dsimp only
  by_cases hint : (encodeText string).length < 2 ^ 31
  · have hstr : cstring (encodeText string ++ [0]) = some (encoded string) :=
      cstring_append_zero (encoded string) []
    rw [if_pos hint, i32OfNat_of_lt hint, if_neg (by omega),
      storeBytes_singleton (encodeText string) 0 0 [], Option.bind_eq_bind, Option.bind_some, hstr]
    rfl
  · have hneg : i32OfNat (encodeText string).length < 0 := by
      rw [i32OfNat, Nat.mod_eq_of_lt (by omega), if_neg hint]
      omega
    rw [if_neg hint, if_pos hneg]

theorem roundTrip_decodes (hzero : (0 : Byte) ∉ string) : RoundTrip w grants string ↔
    (encodeText string).length < 2 ^ 31 ∧
      DecodesTo w grants (cjsonCreateString (encoded string)) string := by
  have hcreate := cjsonCreateB64String_eq hw hg hlen
  unfold RoundTrip DecodesTo
  rw [upToNul_self hzero]
  constructor
  · intro h
    have hint : (encodeText string).length < 2 ^ 31 := by
      obtain ⟨item, -, hitem, -⟩ := h (fun _ => 0) fun _ => 0
      by_contra hbig
      rw [hcreate, if_neg hbig] at hitem
      cases hitem
    refine ⟨hint, fun fresh' => ?_⟩
    obtain ⟨item, block, hitem, hdecode⟩ := h (fun _ => 0) fresh'
    rw [hcreate, if_pos hint] at hitem
    cases hitem
    exact ⟨block, hdecode⟩
  · rintro ⟨hint, h⟩ fresh fresh'
    obtain ⟨block, hdecode⟩ := h fresh'
    exact ⟨_, block, by rw [hcreate, if_pos hint], hdecode⟩

end Both

theorem terminated_encodeText {w : Nat} {string : List Byte} (hw : 32 ≤ w)
    (hint : (encodeText string).length < 2 ^ 31) :
    Terminated w (encodeText string) string ↔ (encodeText string).length * 3 < 2 ^ w := by
  obtain ⟨D, hD, hbytes⟩ := decodeText_encodeText string
  have hcount := decodeText_length hD
  have hlen := encodeText_length string
  rw [hbytes] at hcount
  unfold Terminated
  rw [← hcount]
  constructor
  · intro h
    by_contra hwrap
    have hshort := decodedLen_wraps hw (by omega) hint
    obtain ⟨-, -, h⟩ := h
    have hle : (string.length : Int) ≤ decodedLen w (encodeText string) + 1 := by omega
    split at hlen <;> omega
  · intro hsize
    have hmax : (encodeText string).length * 3 / 4 < intMax := by
      simp only [intMax]
      omega
    rw [decodedLen_eq hsize hmax]
    refine ⟨Int.natCast_nonneg _, by omega, ?_⟩
    by_cases hpad : pad64 ∈ encodeText string
    · exact .inl ⟨hpad, by split at hlen <;> omega⟩
    · have hwhole := encodeText_unpadded hpad
      exact .inr ⟨hpad, .inl (by split at hlen <;> omega)⟩

/-- The length of the encoded text, as the code computes it from that of the string, has to fit. -/
theorem roundTrip_iff {w : Nat} {grants : Nat → Bool} {string : List Byte} (hw : 32 ≤ w) (hg : Granted grants)
    (hlen : string.length ≤ intMax) (hzero : (0 : Byte) ∉ string) : RoundTrip w grants string ↔
      base64Enclen w string.length < 2 ^ 31 ∧ base64Enclen w string.length * 3 < 2 ^ w := by
  obtain ⟨D, hD, hbytes⟩ := decodeText_encodeText string
  have hget : cjsonGetString (some (cjsonCreateString (encoded string))) = some (encoded string) := rfl
  have hdecode := decodesTo_iff hw hg hget hD
  rw [roundTrip_decodes hw hg hlen hzero, base64Enclen_eq hw hlen]
  rw [hbytes] at hdecode
  exact and_congr_right fun hint => hdecode.trans (terminated_encodeText hw hint)

/-- **Decoded strings.** A string comes back when the length of its encoded text is an `int` and three times
that length fits a `size_t`. An accepted text is returned as the bytes it stands for, whatever fresh memory has
held, when the terminator is put behind them or they have stored a zero. -/
theorem cjson_b64_terminated_iff {w : Nat} {grants : Nat → Bool} (hw : 32 ≤ w) (hg : Granted grants) :
    (∀ string : List Byte, (0 : Byte) ∉ string → string.length ≤ intMax → (RoundTrip w grants string ↔
      base64Enclen w string.length < 2 ^ 31 ∧ base64Enclen w string.length * 3 < 2 ^ w)) ∧
    ∀ (item : Item) (text : CString) (bytes : List Byte), item.type = cjsonStringType →
      item.valuestring = some text → Accepted text.val bytes →
        (DecodesTo w grants item bytes ↔ Terminated w text.val bytes) := by
  refine ⟨fun string hzero hlen => roundTrip_iff hw hg hlen hzero, ?_⟩
  intro item text bytes htype htext haccepted
  obtain ⟨D, hD, rfl⟩ := accepted_iff.mp haccepted
  exact decodesTo_iff hw hg (cjsonGetString_string htype htext) hD

/-- `"AB"` both ways, and `"ABC"` behind a blank. -/
theorem cjson_b64_terminated_ab : RoundTrip 64 (fun _ => true) [65, 66] ∧
    DecodesTo 64 (fun _ => true) ⟨cjsonStringType, some ⟨[32, 81, 85, 74, 68], by decide⟩⟩ [65, 66, 67] := by
  obtain ⟨hboth, hdecode⟩ := @cjson_b64_terminated_iff 64 (fun _ => true) (by decide) fun _ _ _ => rfl
  refine ⟨(hboth _ (by decide) (by decide)).mpr (by decide), ?_⟩
  refine (hdecode _ ⟨[32, 81, 85, 74, 68], by decide⟩ _ rfl rfl ?_).mpr ?_
  · exact accepted_iff.mpr ⟨⟨[65, 66, 67], 0, 0⟩, by decide +kernel, rfl⟩
  · exact ⟨by decide +kernel, by decide +kernel, .inr ⟨by decide, .inl (by decide +kernel)⟩⟩

/-- With a line break behind the text the terminator is one byte too far. -/
theorem cjson_decode_shows_memory : Accepted [81, 85, 74, 68, 13, 10] [65, 66, 67] ∧
    ¬ DecodesTo 64 (fun _ => true) ⟨cjsonStringType, some ⟨[81, 85, 74, 68, 13, 10], by decide⟩⟩
      [65, 66, 67] := by
  refine ⟨accepted_iff.mpr ⟨⟨[65, 66, 67], 0, 0⟩, by decide +kernel, rfl⟩, fun h => ?_⟩
  obtain ⟨block, hblock, hstr⟩ := h fun _ => 1
  have hcode : cjsonDecodeB64String 64 (fun _ => true) (fun _ => 1)
      (some ⟨cjsonStringType, some ⟨[81, 85, 74, 68, 13, 10], by decide⟩⟩) =
      some (some [65, 66, 67, 1, 0]) := by decide +kernel
  rw [hcode] at hblock
  cases hblock
  exact absurd hstr (by decide)

end Cjson
end Xlibc
