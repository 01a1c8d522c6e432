import Xlibc.Base.CStr

/-!
# Xlibc.Base.Hex

Hexadecimal numbers as the C library reads and prints them.

* `hexValue`, `hexNumber` : a digit, and the digits at the start of a string.
* `strtoul`  : base 16, with its blanks, sign and `0x`; the value and the string at `*end`.
* `hexDigits` : a number printed with a fixed count of digits, `printHex` with at least so many.
* `strtoul_digits` : nothing but digits is read to its end.
-/

namespace Xlibc

def hexValue (c : Byte) : Option Nat :=
  if '0'.toUInt8 ≤ c ∧ c ≤ '9'.toUInt8 then some (c.toNat - '0'.toNat)
  else if 'A'.toUInt8 ≤ c ∧ c ≤ 'F'.toUInt8 then some (c.toNat - 'A'.toNat + 10)
  else if 'a'.toUInt8 ≤ c ∧ c ≤ 'f'.toUInt8 then some (c.toNat - 'a'.toNat + 10)
  else none

/-- The digits at the start of a string, behind the value `acc`. -/
def hexNumber (acc : Nat) : List Byte → Nat
  | [] => acc
  | c :: s =>
    match hexValue c with
    | some v => hexNumber (acc * 16 + v) s
    | none => acc

def isxdigit (c : Byte) : Bool := (hexValue c).isSome

/-- The sign of a number: whether it is a minus, and what is behind it. -/
def numberSign : List Byte → Bool × List Byte
  | [] => (false, [])
  | c :: s =>
    if c = '-'.toUInt8 then (true, s) else if c = '+'.toUInt8 then (false, s) else (false, c :: s)

/-- What is behind a `0x`. It is only one if a digit follows. -/
def skip0x : List Byte → List Byte
  | z :: x :: d :: s =>
    if z = '0'.toUInt8 ∧ (x = 'x'.toUInt8 ∨ x = 'X'.toUInt8) ∧ isxdigit d then d :: s
    else z :: x :: d :: s
  | s => s

/-- `strtoul(s, &end, 16)` for an `unsigned long` of `w` bits: the value, and the string at `end`, which
is `s` itself when there is no number. -/
def strtoul (w : Nat) (s : List Byte) : BitVec w × List Byte :=
  let neg := (numberSign (s.dropWhile isspace)).1
  let t := skip0x (numberSign (s.dropWhile isspace)).2
  if t.takeWhile isxdigit = [] then (0#w, s)
  else if 2 ^ w ≤ hexNumber 0 t then (~~~ 0#w, t.dropWhile isxdigit)
  else (if neg then - BitVec.ofNat w (hexNumber 0 t) else BitVec.ofNat w (hexNumber 0 t),
    t.dropWhile isxdigit)

/-- A lower-case hexadecimal digit. -/
def lowerHex (n : Nat) : Byte := UInt8.ofNat (if n < 10 then '0'.toNat + n else 'a'.toNat + (n - 10))

/-- The last `k` hexadecimal digits of a number. -/
def hexDigits : Nat → Nat → List Byte
  | 0, _ => []
  | k + 1, n => hexDigits k (n / 16) ++ [lowerHex (n % 16)]

/-- `"%0*lx"`: at least `width` digits, and as many as the number has. -/
def printHex (width n : Nat) : List Byte := hexDigits (max width (n.log2 / 4 + 1)) n

/-! ## Printing -/

@[simp] theorem hexDigits_length (k n : Nat) : (hexDigits k n).length = k := by
  induction k generalizing n with
  | zero => rfl
  | succ k ih => rw [hexDigits, List.length_append, ih, List.length_singleton]

theorem hexValue_lowerHex : ∀ n < 16, hexValue (lowerHex n) = some n := by decide

theorem isxdigit_hexDigits (k n : Nat) : ∀ c ∈ hexDigits k n, isxdigit c = true := by
  induction k generalizing n with
  | zero =>
    intro c hc
    cases hc
  | succ k ih =>
    intro c hc
    rcases List.mem_append.mp hc with hc | hc
    · exact ih _ c hc
    · rw [List.mem_singleton.mp hc, isxdigit, hexValue_lowerHex _ (Nat.mod_lt _ (by omega))]
      rfl

theorem printHex_length (width n : Nat) : (printHex width n).length = max width (n.log2 / 4 + 1) :=
  hexDigits_length _ _

/-- A number that fits into the width is printed in exactly that width. -/
theorem printHex_eq {width n : Nat} (h1 : 1 ≤ width) (h : n < 16 ^ width) :
    printHex width n = hexDigits width n := by
  have hle : n.log2 / 4 + 1 ≤ width := by
    rcases Nat.eq_zero_or_pos n with rfl | hpos
    · exact h1
    · have hpow : (16 : Nat) ^ width = 2 ^ (4 * width) := by
        rw [show (16 : Nat) = 2 ^ 4 from rfl, ← Nat.pow_mul]
      rw [hpow] at h
      have := (Nat.log2_lt (by omega)).mpr h
      omega
  rw [printHex, Nat.max_eq_left hle]

/-- A larger one takes more. -/
theorem printHex_longer {width n : Nat} (h : 16 ^ width ≤ n) : width < (printHex width n).length := by
  have hpow : (16 : Nat) ^ width = 2 ^ (4 * width) := by
    rw [show (16 : Nat) = 2 ^ 4 from rfl, ← Nat.pow_mul]
  have hn : n ≠ 0 := by have := Nat.pow_pos (n := width) (show 0 < 16 by omega); omega
  rw [hpow] at h
  have : ¬ n.log2 < 4 * width := fun hlt => by
    have := (Nat.log2_lt hn).mp hlt
    omega
  rw [printHex_length]
  omega

/-! ## Reading -/

theorem hexNumber_append {s : List Byte} (hs : ∀ c ∈ s, isxdigit c = true) (acc : Nat) (t : List Byte) :
    hexNumber acc (s ++ t) = hexNumber (hexNumber acc s) t := by
  induction s generalizing acc with
  | nil => rfl
  | cons c s ih =>
    have hc := hs c (by simp)
    unfold isxdigit at hc
    obtain ⟨v, hv⟩ := Option.isSome_iff_exists.mp hc
    simp only [List.cons_append, hexNumber, hv]
    exact ih (fun d hd => hs d (by simp [hd])) _

/-- Printing and reading back, modulo what the width cuts off. -/
theorem hexNumber_hexDigits (k n : Nat) : hexNumber 0 (hexDigits k n) = n % 16 ^ k := by
  induction k generalizing n with
  | zero => rw [Nat.pow_zero, Nat.mod_one]; rfl
  | succ k ih =>
    rw [hexDigits, hexNumber_append (isxdigit_hexDigits _ _), ih]
    simp only [hexNumber, hexValue_lowerHex _ (Nat.mod_lt n (show 0 < 16 by omega))]
    rw [Nat.pow_succ, Nat.mul_comm (16 ^ k), Nat.mod_mul]
    omega

theorem hexValue_lt {c : Byte} {v : Nat} (h : hexValue c = some v) : v < 16 := by
  have hall : ∀ c : Byte, (hexValue c).all (· < 16) = true := forall_byte (by decide +kernel)
  have hc := hall c
  rw [h] at hc
  simpa using hc

theorem hexNumber_lt (s : List Byte) (acc : Nat) : hexNumber acc s < (acc + 1) * 16 ^ s.length := by
  induction s generalizing acc with
  | nil => simp [hexNumber]
  | cons c s ih =>
    have hpos : 0 < 16 ^ s.length := Nat.pow_pos (by omega)
    cases hv : hexValue c with
    | none =>
      simp only [hexNumber, hv, List.length_cons, Nat.pow_succ]
      calc acc < (acc + 1) * 1 := by omega
        _ ≤ (acc + 1) * (16 ^ s.length * 16) := Nat.mul_le_mul_left _ (by omega)
    | some v =>
      have hlt := hexValue_lt hv
      simp only [hexNumber, hv, List.length_cons, Nat.pow_succ]
      calc hexNumber (acc * 16 + v) s < (acc * 16 + v + 1) * 16 ^ s.length := ih _
        _ ≤ ((acc + 1) * 16) * 16 ^ s.length := Nat.mul_le_mul_right _ (by omega)
        _ = (acc + 1) * (16 ^ s.length * 16) := by rw [Nat.mul_assoc, Nat.mul_comm 16]

/-- A digit is no blank, no sign, no `x` and no terminator. -/
theorem isxdigit_plain {c : Byte} (h : isxdigit c = true) : isspace c = false ∧ c ≠ '-'.toUInt8 ∧
    c ≠ '+'.toUInt8 ∧ c ≠ 'x'.toUInt8 ∧ c ≠ 'X'.toUInt8 ∧ c ≠ 0 := by
  have hall : ∀ c : Byte, isxdigit c = true → isspace c = false ∧ c ≠ '-'.toUInt8 ∧ c ≠ '+'.toUInt8 ∧
      c ≠ 'x'.toUInt8 ∧ c ≠ 'X'.toUInt8 ∧ c ≠ 0 := forall_byte (by decide +kernel)
  exact hall c h

theorem skip0x_digits {s : List Byte} (hs : ∀ c ∈ s, isxdigit c = true) : skip0x s = s := by
  unfold skip0x
  split
  · next z x d t =>
    have hx := isxdigit_plain (hs x (by simp))
    rw [if_neg]
    rintro ⟨-, hx', -⟩
    rcases hx' with hx' | hx'
    · exact hx.2.2.2.1 hx'
    · exact hx.2.2.2.2.1 hx'
  · rfl

/-- A string of digits is a number up to its end. -/
theorem strtoul_digits {w : Nat} {s : List Byte} (hne : s ≠ []) (hs : ∀ c ∈ s, isxdigit c = true)
    (hlt : hexNumber 0 s < 2 ^ w) : strtoul w s = (BitVec.ofNat w (hexNumber 0 s), []) := by
  obtain ⟨c, t, rfl⟩ := List.exists_cons_of_ne_nil hne
  obtain ⟨hspace, hminus, hplus, -⟩ := isxdigit_plain (hs c (by simp))
  have hdrop : (c :: t).dropWhile isspace = c :: t := by rw [List.dropWhile_cons, hspace]; rfl
  have hsign : numberSign (c :: t) = (false, c :: t) := by
    simp only [numberSign, hminus, hplus, if_false]
  have htake : (c :: t).takeWhile isxdigit = c :: t := List.takeWhile_eq_self_iff.mpr hs
  have hrest : (c :: t).dropWhile isxdigit = [] := List.dropWhile_eq_nil_iff.mpr hs
  have hnot : ¬ 2 ^ w ≤ hexNumber 0 (c :: t) := by omega
  simp only [strtoul, hdrop, hsign, skip0x_digits hs, htake, hrest, hnot, if_false, reduceCtorEq,
    Bool.false_eq_true]

end Xlibc
