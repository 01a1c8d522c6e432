import Mathlib.Tactic.IntervalCases
import Xlibc.Cjson.Text

/-!
# Xlibc.Cjson.Number

The numbers of `cJSON.c`: `parse_number` and `print_number`.

* `Doubles` : what the code does with doubles; `Exact` says that they are exact on integers.
* `printNumber_int`, `parseNumber_int` : an `int` is printed in decimal, and read back.
-/

namespace Xlibc
namespace Cjson

/-! ## The code -/

/-- The formats of numbers that are no `int`. -/
inductive Format where
  | f0
  | e
  | f

/-- The arithmetic of `double`, and the functions of the C library on it. -/
structure Doubles (D : Type) where
  ofInt : Int → D
  DBL_EPSILON : D
  e60 : D
  em6 : D
  e9 : D
  add : D → D → D
  sub : D → D → D
  mul : D → D → D
  pow : D → D → D
  fabs : D → D
  floor : D → D
  le : D → D → Bool
  lt : D → D → Bool
  toInt : D → Int
  sprintf : Format → D → CString

/-- `c >= '0' && c <= '9'` -/
def digit (c : Byte) : Bool := '0'.toUInt8 ≤ c && c ≤ '9'.toUInt8

/-- `c - '0'` -/
def digitOf (c : Byte) : Int := (c.toNat : Int) - '0'.toNat

def exponentLoop : List Byte → Int → Option (Int × List Byte)
  | [], subscale => some (subscale, [])
  | c :: num, subscale =>
    if digit c then
      if intMax < subscale * 10 + digitOf c then none else exponentLoop num (subscale * 10 + digitOf c)
    else some (subscale, c :: num)

/-- `"%d"` -/
def printInt (i : Int) : List Byte :=
  (if i < 0 then ['-'.toUInt8] else []) ++ (Nat.toDigits 10 i.natAbs).map Char.toUInt8

section Code

variable {D : Type} (m : Doubles D)

def wholeLoop : List Byte → D → D × List Byte
  | [], n => (n, [])
  | c :: num, n =>
    if digit c then wholeLoop num (m.add (m.mul n (m.ofInt 10)) (m.ofInt (digitOf c))) else (n, c :: num)

def fractionLoop : List Byte → D → D → D × D × List Byte
  | [], n, scale => (n, scale, [])
  | c :: num, n, scale =>
    if digit c then
      fractionLoop num (m.add (m.mul n (m.ofInt 10)) (m.ofInt (digitOf c))) (m.sub scale (m.ofInt 1))
    else (n, scale, c :: num)

/-- `/* Has sign? */` -/
def signPart (num : List Byte) : D × List Byte :=
  if deref num = '-'.toUInt8 then (m.ofInt (-1), num.drop 1) else (m.ofInt 1, num)

/-- `/* is zero */` and `/* Number? */` -/
def wholePart (num : List Byte) : D × List Byte :=
  let num := if deref num = '0'.toUInt8 then num.drop 1 else num
  if '1'.toUInt8 ≤ deref num ∧ deref num ≤ '9'.toUInt8 then wholeLoop m num (m.ofInt 0) else (m.ofInt 0, num)

/-- `/* Fractional part? */` -/
def fractionPart (n : D) (num : List Byte) : D × D × List Byte :=
  if deref num = '.'.toUInt8 ∧ digit (deref (num.drop 1)) = true then fractionLoop m (num.drop 1) n (m.ofInt 0)
  else (n, m.ofInt 0, num)

/-- `/* Exponent? */`: `subscale` with its sign. An exponent that no `int` holds has no result. -/
def exponentPart (num : List Byte) : Option (Int × List Byte) :=
  if deref num = 'e'.toUInt8 ∨ deref num = 'E'.toUInt8 then do
    let num := num.drop 1
    let (signsubscale, num) :=
      if deref num = '+'.toUInt8 then ((1 : Int), num.drop 1)
      else if deref num = '-'.toUInt8 then (-1, num.drop 1)
      else (1, num)
    let (subscale, num) ← exponentLoop num 0
    some (subscale * signsubscale, num)
  else some (0, num)

/-- `valuedouble`, `valueint`, and the pointer behind the number. -/
def parseNumber (num : List Byte) : Option ((D × Int) × List Byte) := do
  let (sign, num) := signPart m num
  let (n, num) := wholePart m num
  let (n, scale, num) := fractionPart m n num
  let (subscale, num) ← exponentPart num
  let n := m.mul (m.mul sign n) (m.pow (m.ofInt 10) (m.add scale (m.ofInt subscale)))
  some ((n, m.toInt n), num)

variable (fresh : Nat → Byte)

def printNumber (valuedouble : D) (valueint : Int) : Option CString :=
  let d := valuedouble
  if m.le (m.fabs (m.sub (m.ofInt valueint) d)) m.DBL_EPSILON ∧ m.le d (m.ofInt intMax) ∧
      m.le (m.ofInt (-2 ^ 31)) d then do
    let str ← storeBytes (xmalloc fresh 21) 0 (printInt valueint ++ [0])
    cstring str
  else do
    let format :=
      if m.le (m.fabs (m.sub (m.floor d) d)) m.DBL_EPSILON ∧ m.lt (m.fabs d) m.e60 then Format.f0
      else if m.lt (m.fabs d) m.em6 ∨ m.lt m.e9 (m.fabs d) then Format.e
      else Format.f
    let str ← storeBytes (xmalloc fresh 64) 0 ((m.sprintf format d).val ++ [0])
    cstring str

end Code

/-! ## Integers -/

/-- What IEEE doubles do with integers: nothing is rounded up to `2^53`. -/
structure Doubles.Exact {D : Type} (m : Doubles D) : Prop where
  add : ∀ a b : Int, |a| ≤ 2 ^ 53 → |b| ≤ 2 ^ 53 → |a + b| ≤ 2 ^ 53 →
    m.add (m.ofInt a) (m.ofInt b) = m.ofInt (a + b)
  sub : ∀ a : Int, |a| ≤ 2 ^ 53 → m.sub (m.ofInt a) (m.ofInt a) = m.ofInt 0
  -- the product is no negative zero
  mul : ∀ a b : Int, |a| ≤ 2 ^ 53 → |b| ≤ 2 ^ 53 → |a * b| ≤ 2 ^ 53 → (0 ≤ a ∧ 0 ≤ b) ∨
    a * b ≠ 0 →
    m.mul (m.ofInt a) (m.ofInt b) = m.ofInt (a * b)
  pow : m.pow (m.ofInt 10) (m.ofInt 0) = m.ofInt 1
  toInt : ∀ a : Int, -2 ^ 31 ≤ a → a ≤ intMax → m.toInt (m.ofInt a) = a
  fabs : m.le (m.fabs (m.ofInt 0)) m.DBL_EPSILON = true
  le : ∀ a b : Int, |a| ≤ 2 ^ 53 → |b| ≤ 2 ^ 53 → a ≤ b → m.le (m.ofInt a) (m.ofInt b) = true

theorem isDigit_digitChar {c : Char} (h : c.isDigit = true) : ∃ k < 10, c = Nat.digitChar k := by
  have hrange : 48 ≤ c.toNat ∧ c.toNat ≤ 57 := by
    simp only [Char.isDigit, ge_iff_le, Bool.and_eq_true, decide_eq_true_eq] at h
    exact h
  obtain ⟨k, hk⟩ : ∃ k, c.toNat = 48 + k := ⟨c.toNat - 48, by omega⟩
  refine ⟨k, by omega, Char.toNat_inj.mp ?_⟩
  have hlt : k < 10 := by omega
  rw [hk]
  interval_cases k <;> rfl

/-- A decimal digit as a byte. -/
theorem digit_byte {c : Char} (h : c.isDigit = true) : digit c.toUInt8 = true ∧
    digitOf c.toUInt8 = ((c.toNat - '0'.toNat : Nat) : Int) := by
  obtain ⟨k, hk, rfl⟩ := isDigit_digitChar h
  interval_cases k <;> decide

theorem ofDigitChars_le (cs : List Char) (a : Nat) : a ≤ Nat.ofDigitChars 10 cs a := by
  induction cs generalizing a with
  | nil => simp
  | cons c cs ih =>
    rw [Nat.ofDigitChars_cons]
    exact Nat.le_trans (by omega) (ih _)

/-- Behind it no number goes on. -/
def Stops (rest : List Byte) : Prop :=
  digit (deref rest) = false ∧ deref rest ≠ '.'.toUInt8 ∧ deref rest ≠ 'e'.toUInt8 ∧
    deref rest ≠ 'E'.toUInt8

section Exact

variable {D : Type} {m : Doubles D} (hm : m.Exact)
include hm

theorem wholeLoop_digits {cs : List Char} (hcs : ∀ c ∈ cs, c.isDigit = true) (a : Nat) {rest : List Byte}
    (hrest : digit (deref rest) = false) (hfit : Nat.ofDigitChars 10 cs a ≤ 2 ^ 53) :
    wholeLoop m (cs.map Char.toUInt8 ++ rest) (m.ofInt a) = (m.ofInt (Nat.ofDigitChars 10 cs a), rest) := by
  induction cs generalizing a with
  | nil =>
    rw [List.map_nil, List.nil_append, Nat.ofDigitChars_nil]
    cases rest with
    | nil => rfl
    | cons c rest =>
      have hc : digit c = false := hrest
      rw [wholeLoop, hc]
      rfl
  | cons c cs ih =>
    obtain ⟨hdigit, hvalue⟩ := digit_byte (hcs c (by simp))
    rw [Nat.ofDigitChars_cons] at hfit ⊢
    have hle := ofDigitChars_le cs (10 * a + (c.toNat - '0'.toNat))
    have hstep : m.add (m.mul (m.ofInt a) (m.ofInt 10)) (m.ofInt (digitOf c.toUInt8)) =
        m.ofInt ((10 * a + (c.toNat - '0'.toNat) : Nat) : Int) := by
      rw [hvalue, hm.mul a 10 (by rw [abs_le]; omega) (by decide) (by rw [abs_le]; omega) (Or.inl (by omega)),
        hm.add _ _ (by rw [abs_le]; omega) (by rw [abs_le]; omega) (by rw [abs_le]; omega)]
      congr 1
      omega
    rw [List.map_cons, List.cons_append, wholeLoop, hdigit, if_pos rfl, hstep]
    exact ih (fun d hd => hcs d (by simp [hd])) _ hfit

end Exact

/-- A decimal number begins with a zero only if it is one. -/
theorem toDigits_head {n : Nat} (hn : 0 < n) : ∃ k cs, 0 < k ∧ k < 10 ∧
    Nat.toDigits 10 n = Nat.digitChar k :: cs := by
  induction n using Nat.strongRecOn with
  | ind n ih =>
    rcases Nat.lt_or_ge n 10 with hlt | hge
    · exact ⟨n, [], hn, hlt, Nat.toDigits_of_lt_base hlt⟩
    · obtain ⟨k, cs, hk, hk', hcs⟩ := ih (n / 10) (by omega) (by omega)
      exact ⟨k, cs ++ [Nat.digitChar (n % 10)], hk, hk', by rw [Nat.toDigits_of_base_le (by decide) hge, hcs]; rfl⟩

theorem signPart_int {D : Type} (m : Doubles D) (i : Int) (rest : List Byte) :
    signPart m (printInt i ++ rest) =
      (m.ofInt (if i < 0 then -1 else 1), (Nat.toDigits 10 i.natAbs).map Char.toUInt8 ++ rest) := by
  by_cases hneg : i < 0
  · rw [printInt, if_pos hneg, if_pos hneg]
    rfl
  · have hne : deref ((Nat.toDigits 10 i.natAbs).map Char.toUInt8 ++ rest) ≠ '-'.toUInt8 := by
      obtain ⟨c, cs, hcs⟩ := List.exists_cons_of_ne_nil (Nat.toDigits_ne_nil (n := i.natAbs) (b := 10))
      have hc : c ∈ Nat.toDigits 10 i.natAbs := by rw [hcs]; exact List.mem_cons_self
      obtain ⟨k, hk, rfl⟩ := isDigit_digitChar (Nat.isDigit_of_mem_toDigits (by decide) (by decide) hc)
      have hall : ∀ k < 10, (Nat.digitChar k).toUInt8 ≠ '-'.toUInt8 := by decide
      rw [hcs]
      exact hall k hk
    rw [printInt, if_neg hneg, if_neg hneg, List.nil_append, signPart, if_neg hne]

section Read

variable {D : Type} {m : Doubles D} (hm : m.Exact)
include hm

theorem wholePart_digits {n : Nat} (hn : n ≤ 2 ^ 53) {rest : List Byte} (hrest : digit (deref rest) = false) :
    wholePart m ((Nat.toDigits 10 n).map Char.toUInt8 ++ rest) = (m.ofInt n, rest) := by
  rcases Nat.eq_zero_or_pos n with rfl | hpos
  · have hno : ¬ ('1'.toUInt8 ≤ deref rest ∧ deref rest ≤ '9'.toUInt8) := by
      have hall : ∀ c : Byte, digit c = false →
        ¬ ('1'.toUInt8 ≤ c ∧ c ≤ '9'.toUInt8) := forall_byte (by decide +kernel)
      exact hall _ hrest
    rw [Nat.toDigits_zero, wholePart]
    exact if_neg hno
  · obtain ⟨k, cs, hk, hk', hcs⟩ := toDigits_head hpos
    have hall : ∀ k < 10, 0 < k → (Nat.digitChar k).toUInt8 ≠ '0'.toUInt8 ∧
        '1'.toUInt8 ≤ (Nat.digitChar k).toUInt8 ∧ (Nat.digitChar k).toUInt8 ≤ '9'.toUInt8 := by decide
    obtain ⟨hzero, hrange⟩ := hall k hk' hk
    have hdigits : ∀ c ∈ Nat.toDigits 10 n, c.isDigit = true :=
      fun c hc => Nat.isDigit_of_mem_toDigits (by decide) (by decide) hc
    have hloop := wholeLoop_digits hm hdigits 0 hrest
    rw [Nat.ofDigitChars_toDigits (by decide) (by decide)] at hloop
    rw [← hloop hn, hcs]
    simp only [wholePart, List.map_cons, List.cons_append, deref, List.headD_cons, hzero, if_false]
    exact if_pos hrange

/-- An `int` is read back from its decimal text. -/
theorem parseNumber_int {i : Int} (hlow : -2 ^ 31 ≤ i) (hhigh : i ≤ intMax) {rest : List Byte}
    (hrest : Stops rest) :
    parseNumber m (printInt i ++ rest) = some ((m.ofInt i, i), rest) := by
  obtain ⟨hdigit, hpoint, he, hE⟩ := hrest
  have hmax : intMax = 2 ^ 31 - 1 := rfl
  have hwhole := wholePart_digits hm (n := i.natAbs) (by omega) hdigit
  have hfraction : fractionPart m (m.ofInt i.natAbs) rest = (m.ofInt i.natAbs, m.ofInt 0, rest) :=
    if_neg fun h => hpoint h.1
  have hexponent : exponentPart rest = some (0, rest) := if_neg fun h => h.elim he hE
  have hpow : m.pow (m.ofInt 10) (m.add (m.ofInt 0) (m.ofInt 0)) = m.ofInt 1 := by
    rw [hm.add 0 0 (by decide) (by decide) (by decide)]
    exact hm.pow
  have hvalue : m.mul (m.mul (m.ofInt (if i < 0 then -1 else 1)) (m.ofInt i.natAbs)) (m.ofInt 1) = m.ofInt i := by
    have hmul : m.mul (m.ofInt (if i < 0 then -1 else 1)) (m.ofInt i.natAbs) = m.ofInt i := by
      split
      · rw [hm.mul (-1) _ (by decide) (by rw [abs_le]; omega) (by rw [abs_le]; omega) (Or.inr (by omega))]
        congr 1
        omega
      · rw [hm.mul 1 _ (by decide) (by rw [abs_le]; omega) (by rw [abs_le]; omega) (Or.inl (by omega))]
        congr 1
        omega
    rw [hmul, hm.mul i 1 (by rw [abs_le]; omega) (by decide) (by rw [abs_le]; omega) (by omega), Int.mul_one]
  simp only [parseNumber, signPart_int, hwhole, hfraction, hexponent, Option.bind_eq_bind, Option.bind_some, hpow,
    hvalue, hm.toInt i hlow hhigh]

end Read

/-- A number begins with a sign or a digit. -/
theorem printInt_head (i : Int) : ∃ c t, printInt i = c :: t ∧ (c = '-'.toUInt8 ∨ digit c = true) := by
  by_cases hneg : i < 0
  · exact ⟨_, _, by rw [printInt, if_pos hneg]; rfl, Or.inl rfl⟩
  · obtain ⟨c, cs, hcs⟩ := List.exists_cons_of_ne_nil (Nat.toDigits_ne_nil (n := i.natAbs) (b := 10))
    have hc : c ∈ Nat.toDigits 10 i.natAbs := by rw [hcs]; exact List.mem_cons_self
    have hdigit := digit_byte (Nat.isDigit_of_mem_toDigits (by decide) (by decide) hc)
    exact ⟨_, _, by rw [printInt, if_neg hneg, hcs]; rfl, Or.inr hdigit.1⟩

theorem printInt_noNul (i : Int) : (0 : Byte) ∉ printInt i := by
  intro hmem
  rw [printInt, List.mem_append] at hmem
  rcases hmem with hmem | hmem
  · split at hmem
    · exact absurd hmem (by decide)
    · cases hmem
  · obtain ⟨c, hc, hzero⟩ := List.mem_map.mp hmem
    obtain ⟨k, hk, rfl⟩ := isDigit_digitChar (Nat.isDigit_of_mem_toDigits (by decide) (by decide) hc)
    have hall : ∀ k < 10, (Nat.digitChar k).toUInt8 ≠ 0 := by decide
    exact hall k hk hzero

/-- Ten digits and a sign at most. -/
theorem printInt_length {i : Int} (hlow : -2 ^ 31 ≤ i) (hhigh : i ≤ intMax) : (printInt i).length ≤ 11 := by
  have hmax : intMax = 2 ^ 31 - 1 := rfl
  have hdigits : (Nat.toDigits 10 i.natAbs).length ≤ 10 :=
    (Nat.length_toDigits_le_iff (by decide) (by decide)).mpr (by omega)
  rw [printInt, List.length_append, List.length_map]
  split
  · rw [List.length_singleton]
    omega
  · rw [List.length_nil]
    omega

/-- An `int` is printed in decimal. -/
theorem printNumber_int {D : Type} {m : Doubles D} (hm : m.Exact) (fresh : Nat → Byte) {i : Int}
    (hlow : -2 ^ 31 ≤ i)
    (hhigh : i ≤ intMax) : printNumber m fresh (m.ofInt i) i = some ⟨printInt i, printInt_noNul i⟩ := by
  have hmax : intMax = 2 ^ 31 - 1 := rfl
  have hlen := printInt_length hlow hhigh
  have hint : m.le (m.fabs (m.sub (m.ofInt i) (m.ofInt i))) m.DBL_EPSILON ∧ m.le (m.ofInt i) (m.ofInt intMax) ∧
      m.le (m.ofInt (-2 ^ 31)) (m.ofInt i) := by
    rw [hm.sub i (by rw [abs_le]; omega)]
    exact ⟨hm.fabs, hm.le _ _ (by rw [abs_le]; omega) (by decide) hhigh,
      hm.le _ _ (by decide) (by rw [abs_le]; omega) hlow⟩
  obtain ⟨str, hstore, hw⟩ := (Written.start (xmalloc_length fresh 21)).store (printInt i ++ [0])
    (show _ = 0 by rfl)
    (by rw [List.length_append, List.length_singleton]; omega)
  rw [printNumber, if_pos hint, hstore]
  exact hw.string (printInt_noNul i)

/-! ## Doubles that are integers -/

def intDoubles : Doubles Int where
  ofInt := id
  DBL_EPSILON := 0
  e60 := 10 ^ 60
  em6 := 0
  e9 := 10 ^ 9
  add := (· + ·)
  sub := (· - ·)
  mul := (· * ·)
  pow := fun a b => a ^ b.toNat
  fabs := fun a => a.natAbs
  floor := id
  le := fun a b => decide (a ≤ b)
  lt := fun a b => decide (a < b)
  toInt := id
  sprintf := fun _ a => ⟨printInt a, printInt_noNul a⟩

theorem intDoubles_exact : intDoubles.Exact where
  add := fun _ _ _ _ _ => rfl
  sub := fun a _ => Int.sub_self a
  mul := fun _ _ _ _ _ _ => rfl
  pow := rfl
  toInt := fun _ _ _ => rfl
  fabs := rfl
  le := fun _ _ _ _ h => decide_eq_true h

end Cjson
end Xlibc
