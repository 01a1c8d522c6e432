import Mathlib.Algebra.Ring.Int.Defs
import Xlibc.Base.Hex

/-!
# Xlibc.Base.Strtol

`strtol`, and `long` of `w` bits.

* `scanNumber` : the number at the start of a string, of any size, and what is behind it.
* `strtol`     : the same with the value cut to what a `long` holds.
* `inLong`, `mulLong` : the range of a `long`, and a product that must not leave it.
* `scanNumber_digits` : a sign, digits, and something that is no digit.
-/

namespace Xlibc

def inLong (w : Nat) (z : Int) : Prop := -2 ^ (w - 1) ≤ z ∧ z < 2 ^ (w - 1)

instance (w : Nat) (z : Int) : Decidable (inLong w z) := inferInstanceAs (Decidable (_ ∧ _))

/-- `a * b` on `long` operands. Leaving the range is undefined. -/
def mulLong (w : Nat) (a b : Int) : Option Int := if inLong w (a * b) then some (a * b) else none

/-- `LONG_MIN` or `LONG_MAX` for a number outside of the range. -/
def clampLong (w : Nat) (z : Int) : Int := max (-2 ^ (w - 1)) (min z (2 ^ (w - 1) - 1))

/-- What a digit or a letter stands for, 36 for anything else. -/
def alnumValue (c : Byte) : Nat :=
  if '0'.toUInt8 ≤ c ∧ c ≤ '9'.toUInt8 then c.toNat - '0'.toNat
  else if 'A'.toUInt8 ≤ c ∧ c ≤ 'Z'.toUInt8 then c.toNat - 'A'.toNat + 10
  else if 'a'.toUInt8 ≤ c ∧ c ≤ 'z'.toUInt8 then c.toNat - 'a'.toNat + 10
  else 36

/-- The value of a digit in a base. -/
def digitValue (base : Nat) (c : Byte) : Option Nat :=
  if alnumValue c < base then some (alnumValue c) else none

def isDigit (base : Nat) (c : Byte) : Bool := (digitValue base c).isSome

/-- The digits at the start of a string, behind the value `acc`. -/
def number (base : Nat) (acc : Nat) : List Byte → Nat
  | [] => acc
  | c :: s =>
    match digitValue base c with
    | some v => number base (acc * base + v) s
    | none => acc

/-- The base of a number and its digits: base 0 is told by `0x` or `0`. -/
def numberBase (base : Nat) (s : List Byte) : Nat × List Byte :=
  if base = 0 then
    if skip0x s ≠ s then (16, skip0x s)
    else if s.head? = some '0'.toUInt8 then (8, s)
    else (10, s)
  else if base = 16 then (16, skip0x s)
  else (base, s)

/-- The number at the start of a string, behind blanks and a sign, and what is behind it. -/
def scanNumber (base : Nat) (s : List Byte) : Option (Int × List Byte) :=
  let sign := numberSign (s.dropWhile isspace)
  let digits := numberBase base sign.2
  if digits.2.takeWhile (isDigit digits.1) = [] then none
  else
    some (if sign.1 then -(number digits.1 0 digits.2 : Int) else number digits.1 0 digits.2,
      digits.2.dropWhile (isDigit digits.1))

/-- `strtol(s, &end, base)` for a base of 0, 10 or 16: the value, and the string at `end`, which is `s`
itself when there is no number. -/
def strtol (w base : Nat) (s : List Byte) : Int × List Byte :=
  match scanNumber base s with
  | some r => (clampLong w r.1, r.2)
  | none => (0, s)

/-! ## The range -/

theorem clampLong_of_inLong {w : Nat} {z : Int} (h : inLong w z) : clampLong w z = z := by
  have := h.1
  have := h.2
  unfold clampLong
  omega

/-- A factor of a number in the range is in the range. -/
theorem inLong_of_mul {w : Nat} {a b : Int} (hb : 1 ≤ b) (h : inLong w (a * b)) : inLong w a := by
  have h1 := h.1
  have h2 := h.2
  rcases Int.le_total 0 a with ha | ha
  · have hle : a * 1 ≤ a * b := Int.mul_le_mul_of_nonneg_left hb ha
    constructor
    · omega
    · omega
  · have hle : a * b ≤ a * 1 := Int.mul_le_mul_of_nonpos_left ha hb
    constructor
    · omega
    · omega

/-! ## Digits -/

theorem number_append {base : Nat} {ds : List Byte} (hds : ∀ c ∈ ds, isDigit base c = true)
    {rest : List Byte} (hrest : ∀ c ∈ rest.head?, isDigit base c = false) (acc : Nat) :
    number base acc (ds ++ rest) = number base acc ds := by
  induction ds generalizing acc with
  | nil =>
    cases rest with
    | nil => rfl
    | cons c rest =>
      have hc : digitValue base c = none := Option.isSome_eq_false_iff.mp (hrest c rfl) |> Option.isNone_iff_eq_none.mp
      simp [number, hc]
  | cons c ds ih =>
    have hc : (digitValue base c).isSome = true := hds c List.mem_cons_self
    obtain ⟨v, hv⟩ := Option.isSome_iff_exists.mp hc
    simp only [List.cons_append, number, hv]
    exact ih (fun d hd => hds d (List.mem_cons_of_mem _ hd)) _

theorem dropWhile_digits {base : Nat} {ds : List Byte} (hds : ∀ c ∈ ds, isDigit base c = true)
    {rest : List Byte} (hrest : ∀ c ∈ rest.head?, isDigit base c = false) :
    (ds ++ rest).dropWhile (isDigit base) = rest := by
  rw [List.dropWhile_append_of_pos hds]
  cases rest with
  | nil => rfl
  | cons c rest => rw [List.dropWhile_cons, hrest c rfl]; rfl

/-- A digit of a base is one of every larger base. -/
theorem digitValue_mono {base base' : Nat} {c : Byte} {v : Nat} (hle : base ≤ base')
    (h : digitValue base c = some v) : digitValue base' c = some v := by
  unfold digitValue at h ⊢
  split at h
  · next hlt =>
    cases h
    rw [if_pos (Nat.lt_of_lt_of_le hlt hle)]
  · cases h

/-- A digit is no blank and no sign. -/
theorem isDigit_plain {base : Nat} (hbase : base ≤ 36) {c : Byte} (h : isDigit base c = true) :
    isspace c = false ∧ c ≠ '-'.toUInt8 ∧ c ≠ '+'.toUInt8 := by
  have hall : ∀ c : Byte, isDigit 36 c = true → isspace c = false ∧ c ≠ '-'.toUInt8 ∧ c ≠ '+'.toUInt8 :=
    forall_byte (by decide +kernel)
  unfold isDigit at h
  obtain ⟨v, hv⟩ := Option.isSome_iff_exists.mp h
  exact hall c (by rw [isDigit, digitValue_mono hbase hv]; rfl)

theorem digitValue_sixteen : ∀ c : Byte, digitValue 16 c = hexValue c := forall_byte (by decide +kernel)

/-! ## Numbers -/

/-- The signs in front of a number: none, a plus or a minus. -/
def IsSign (sign : List Byte) (neg : Bool) : Prop :=
  (sign = [] ∧ neg = false) ∨ (sign = ['+'.toUInt8] ∧ neg = false) ∨ (sign = ['-'.toUInt8] ∧ neg = true)

/-- A sign and what starts with a digit. -/
theorem numberSign_digit {sign : List Byte} {neg : Bool} (hsign : IsSign sign neg) {base : Nat}
    (hbase : base ≤ 36) {c : Byte} (hc : isDigit base c = true) (s : List Byte) :
    numberSign ((sign ++ c :: s).dropWhile isspace) = (neg, c :: s) := by
  obtain ⟨hspace, hminus, hplus⟩ := isDigit_plain hbase hc
  rcases hsign with ⟨rfl, rfl⟩ | ⟨rfl, rfl⟩ | ⟨rfl, rfl⟩
  · rw [List.nil_append, List.dropWhile_cons, hspace]
    simp only [Bool.false_eq_true, if_false, numberSign, hminus, hplus]
  · rfl
  · rfl

/-- A sign, digits of a base that has no prefix, and something behind them that is no digit. -/
theorem scanNumber_digits {sign : List Byte} {neg : Bool} (hsign : IsSign sign neg) {base : Nat}
    (hbase : base ≤ 36) {ds rest : List Byte} (hne : ds ≠ []) (hds : ∀ c ∈ ds, isDigit base c = true)
    (hrest : ∀ c ∈ rest.head?, isDigit base c = false)
    (hplain : numberBase base (ds ++ rest) = (base, ds ++ rest)) :
    scanNumber base (sign ++ (ds ++ rest)) =
      some (if neg then -(number base 0 ds : Int) else number base 0 ds, rest) := by
  obtain ⟨c, ds, rfl⟩ := List.exists_cons_of_ne_nil hne
  have hc := hds c List.mem_cons_self
  have hhead := numberSign_digit hsign hbase hc (ds ++ rest)
  have hsome : (c :: ds ++ rest).takeWhile (isDigit base) ≠ [] := by
    rw [List.cons_append, List.takeWhile_cons, if_pos hc]
    exact List.cons_ne_nil _ _
  rw [List.cons_append] at hplain hsome ⊢
  simp only [scanNumber, hhead, hplain, hsome, if_false]
  rw [← List.cons_append, number_append hds hrest, dropWhile_digits hds hrest]

end Xlibc
