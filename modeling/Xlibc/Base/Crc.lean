import Mathlib.Algebra.Field.ZMod
import Mathlib.Algebra.Polynomial.Div
import Mathlib.Tactic.Common

/-!
# Xlibc.Base.Crc

Cyclic redundancy checks with the highest bit first, for a generator `X ^ w + low` of any degree `w`.

* `shiftIn` : one bit of the message into the register, `crcBits` the bits of a message.
* `crcBits_xor` : linearity over exclusive or, `crcBits_zeros` leading zeros.
* `crcBits_word` : a word of the register's size at once, by `w` steps of `register ^ word`.
* `crcBits_mod` : the register is the message times `X ^ w` modulo the generator.
-/

namespace Xlibc
namespace Crc

open Polynomial

variable {w : Nat}

/-- The register is shifted left, and reduced by `low` if the bit that leaves it and the bit that comes in
differ. -/
def shiftIn (low r : BitVec w) (b : Bool) : BitVec w := if r.msb ^^ b then (r <<< 1) ^^^ low else r <<< 1

def crcBits (low r : BitVec w) (bits : List Bool) : BitVec w := bits.foldl (shiftIn low) r

/-- The bits of a word, the highest first. -/
def wordBits (x : BitVec w) : List Bool := (List.range w).map x.getMsbD

/-! ## Linearity -/

theorem shiftIn_xor (low r r' : BitVec w) (b b' : Bool) :
    shiftIn low (r ^^^ r') (b ^^ b') = shiftIn low r b ^^^ shiftIn low r' b' := by
  have hbit : ((r ^^^ r').msb ^^ (b ^^ b')) = ((r.msb ^^ b) ^^ (r'.msb ^^ b')) := by
    rw [BitVec.msb_xor]
    cases r.msb <;> cases r'.msb <;> cases b <;> cases b' <;> rfl
  unfold shiftIn
  rw [hbit, BitVec.shiftLeft_xor_distrib]
  cases r.msb ^^ b with
  | false =>
    cases r'.msb ^^ b' with
    | false => rfl
    | true => exact BitVec.xor_assoc _ _ _
  | true =>
    cases r'.msb ^^ b' with
    | false =>
      show r <<< 1 ^^^ r' <<< 1 ^^^ low = r <<< 1 ^^^ low ^^^ r' <<< 1
      rw [BitVec.xor_assoc, BitVec.xor_comm (r' <<< 1), ← BitVec.xor_assoc]
    | true =>
      show r <<< 1 ^^^ r' <<< 1 = r <<< 1 ^^^ low ^^^ (r' <<< 1 ^^^ low)
      rw [BitVec.xor_comm (r' <<< 1) low, BitVec.xor_assoc (r <<< 1) low, ← BitVec.xor_assoc low low,
        BitVec.xor_self, BitVec.zero_xor]

theorem crcBits_append (low r : BitVec w) (bits bits' : List Bool) :
    crcBits low r (bits ++ bits') = crcBits low (crcBits low r bits) bits' := List.foldl_append

theorem crcBits_xor (low : BitVec w) : ∀ {bits bits' : List Bool} (r r' : BitVec w), bits.length = bits'.length →
    crcBits low (r ^^^ r') (List.zipWith xor bits bits') = crcBits low r bits ^^^ crcBits low r' bits' := by
  intro bits
  induction bits with
  | nil =>
    intro bits' r r' hlen
    obtain rfl := List.eq_nil_of_length_eq_zero hlen.symm
    rfl
  | cons b bits ih =>
    intro bits' r r' hlen
    obtain ⟨b', bits', rfl⟩ := List.exists_cons_of_length_pos (by rw [← hlen, List.length_cons]; omega)
    have hstep := ih (shiftIn low r b) (shiftIn low r' b') (by simpa using hlen)
    rw [← shiftIn_xor] at hstep
    exact hstep

theorem shiftIn_zero (low : BitVec w) : shiftIn low 0#w false = 0#w := by
  rw [shiftIn, BitVec.msb_zero, Bool.xor_false, if_neg Bool.false_ne_true, BitVec.zero_shiftLeft]

theorem crcBits_zeros (low : BitVec w) (n : Nat) : crcBits low 0#w (List.replicate n false) = 0#w := by
  induction n with
  | zero => rfl
  | succ n ih =>
    rw [List.replicate_succ]
    show crcBits low (shiftIn low 0#w false) (List.replicate n false) = 0#w
    rw [shiftIn_zero, ih]

/-! ## A word at once -/

@[simp] theorem wordBits_length (x : BitVec w) : (wordBits x).length = w := by
  rw [wordBits, List.length_map, List.length_range]

/-- Bits that are those that leave the register empty it. -/
theorem crcBits_self (low x : BitVec w) (n : Nat) :
    crcBits low x ((List.range n).map x.getMsbD) = x <<< n := by
  induction n with
  | zero => exact (BitVec.shiftLeft_zero x).symm
  | succ n ih =>
    have hmsb : (x <<< n).msb = x.getMsbD n := by
      rw [BitVec.msb_shiftLeft]
    rw [List.range_succ, List.map_append, crcBits_append, ih]
    show shiftIn low (x <<< n) (x.getMsbD n) = x <<< (n + 1)
    rw [shiftIn, hmsb, Bool.xor_self, if_neg Bool.false_ne_true, BitVec.shiftLeft_add]

/-- The bits of a word can all be added to the register before it is shifted. -/
theorem crcBits_word (low r x : BitVec w) :
    crcBits low r (wordBits x) = crcBits low (r ^^^ x) (List.replicate w false) := by
  have hself : crcBits low x (wordBits x) = 0#w := by
    rw [wordBits, crcBits_self, BitVec.shiftLeft_eq_zero (Nat.le_refl w)]
  have hbits : List.zipWith xor (List.replicate w false) (wordBits x) = wordBits x := by
    apply List.ext_getElem
    · simp
    · intro i h1 h2
      simp
  have hreg : r ^^^ x ^^^ x = r := by rw [BitVec.xor_assoc, BitVec.xor_self, BitVec.xor_zero]
  have hsplit := crcBits_xor low (r ^^^ x) x
    (show (List.replicate w false).length = (wordBits x).length by rw [List.length_replicate, wordBits_length])
  rw [hreg, hbits, hself, BitVec.xor_zero] at hsplit
  exact hsplit

/-! ## Division of polynomials -/

def bit (b : Bool) : ZMod 2 := if b then 1 else 0

/-- The bits of a register, the lowest the constant term. -/
noncomputable def toPoly (r : BitVec w) : (ZMod 2)[X] := ∑ i ∈ Finset.range w, monomial i (bit (r.getLsbD i))

noncomputable def generator (low : BitVec w) : (ZMod 2)[X] := X ^ w + toPoly low

/-- A message, its last bit the constant term. -/
noncomputable def message : List Bool → (ZMod 2)[X]
  | [] => 0
  | b :: bits => C (bit b) * X ^ bits.length + message bits

theorem bit_xor (a b : Bool) : bit (a ^^ b) = bit a + bit b := by
  cases a <;> cases b <;> rfl

theorem toPoly_coeff (r : BitVec w) (i : Nat) : (toPoly r).coeff i = bit (r.getLsbD i) := by
  rw [toPoly, finsetSum_coeff]
  simp only [coeff_monomial, Finset.sum_ite_eq', Finset.mem_range]
  split
  · rfl
  · rw [BitVec.getLsbD_of_ge r i (by omega)]
    rfl

theorem toPoly_zero : toPoly 0#w = 0 := by
  ext i
  rw [toPoly_coeff, BitVec.getLsbD_zero, coeff_zero]
  rfl

theorem toPoly_xor (r r' : BitVec w) : toPoly (r ^^^ r') = toPoly r + toPoly r' := by
  ext i
  rw [coeff_add, toPoly_coeff, toPoly_coeff, toPoly_coeff, BitVec.getLsbD_xor, bit_xor]

theorem toPoly_degree (r : BitVec w) : (toPoly r).degree < w := by
  rw [degree_lt_iff_coeff_zero]
  intro i hi
  rw [toPoly_coeff, BitVec.getLsbD_of_ge r i hi]
  rfl

theorem generator_monic (low : BitVec w) : (generator low).Monic := monic_X_pow_add (toPoly_degree low)

theorem generator_degree (low : BitVec w) : (generator low).degree = w := by
  have hlt : (toPoly low).degree < (X ^ w : (ZMod 2)[X]).degree := by
    rw [degree_X_pow]
    exact toPoly_degree low
  rw [generator, degree_add_eq_left_of_degree_lt hlt, degree_X_pow]

/-- A shift multiplies by `X`, less the bit that is lost. -/
theorem toPoly_shiftLeft (r : BitVec w) : toPoly (r <<< 1) + C (bit r.msb) * X ^ w = X * toPoly r := by
  ext i
  cases i with
  | zero =>
    rw [coeff_add, toPoly_coeff, coeff_C_mul, coeff_X_pow, coeff_X_mul_zero, BitVec.getLsbD_shiftLeft]
    by_cases hw : 0 = w
    · subst hw
      simp [bit, BitVec.msb_eq_getLsbD_last]
    · simp [hw, bit]
  | succ i =>
    rw [coeff_add, toPoly_coeff, coeff_C_mul, coeff_X_pow, coeff_X_mul, toPoly_coeff, BitVec.getLsbD_shiftLeft]
    rcases Nat.lt_trichotomy (i + 1) w with hlt | heq | hgt
    · have hne : i + 1 ≠ w := by omega
      simp [hlt, hne]
    · subst heq
      simp [bit, BitVec.msb_eq_getLsbD_last]
    · have hne : i + 1 ≠ w := by omega
      have hge : ¬ i + 1 < w := by omega
      simp [hge, hne, bit, BitVec.getLsbD_of_ge r i (by omega)]

theorem add_self (p : (ZMod 2)[X]) : p + p = 0 := by
  ext i
  rw [coeff_add, coeff_zero]
  exact CharTwo.add_self_eq_zero _

theorem toPoly_shiftIn (low r : BitVec w) (b : Bool) :
    toPoly (shiftIn low r b) + C (bit (r.msb ^^ b)) * generator low = X * toPoly r + C (bit b) * X ^ w := by
  rw [← toPoly_shiftLeft, add_assoc, ← add_mul, ← C_add, ← bit_xor, shiftIn]
  cases r.msb ^^ b with
  | false =>
    show toPoly (r <<< 1) + C (0 : ZMod 2) * generator low = toPoly (r <<< 1) + C 0 * X ^ w
    rw [C_0, zero_mul, zero_mul]
  | true =>
    show toPoly (r <<< 1 ^^^ low) + C (1 : ZMod 2) * generator low = toPoly (r <<< 1) + C 1 * X ^ w
    rw [C_1, one_mul, one_mul, generator, toPoly_xor, add_comm (X ^ w), add_assoc, ← add_assoc (toPoly low),
      add_self, zero_add]

theorem toPoly_crcBits (low : BitVec w) : ∀ (bits : List Bool) (r : BitVec w), ∃ q,
    toPoly (crcBits low r bits) + q * generator low = toPoly r * X ^ bits.length + message bits * X ^ w := by
  intro bits
  induction bits with
  | nil =>
    intro r
    refine ⟨0, ?_⟩
    rw [message, List.length_nil, pow_zero, mul_one, zero_mul, zero_mul]
    rfl
  | cons b bits ih =>
    intro r
    obtain ⟨q, hq⟩ := ih (shiftIn low r b)
    refine ⟨q + C (bit (r.msb ^^ b)) * X ^ bits.length, ?_⟩
    rw [message, List.length_cons, pow_succ]
    calc toPoly (crcBits low (shiftIn low r b) bits) + (q + C (bit (r.msb ^^ b)) * X ^ bits.length) * generator low
      _ = toPoly (crcBits low (shiftIn low r b) bits) + q * generator low +
          C (bit (r.msb ^^ b)) * generator low * X ^ bits.length := by ring
      _ = (toPoly (shiftIn low r b) + C (bit (r.msb ^^ b)) * generator low) * X ^ bits.length +
          message bits * X ^ w := by rw [hq]; ring
      _ = (X * toPoly r + C (bit b) * X ^ w) * X ^ bits.length + message bits * X ^ w := by rw [toPoly_shiftIn]
      _ = toPoly r * (X ^ bits.length * X) + (C (bit b) * X ^ bits.length + message bits) * X ^ w := by ring

/-- The register of an empty start is the remainder. -/
theorem crcBits_mod (low : BitVec w) (bits : List Bool) :
    toPoly (crcBits low 0#w bits) = (message bits * X ^ w) %ₘ generator low := by
  obtain ⟨q, hq⟩ := toPoly_crcBits low bits 0#w
  rw [toPoly_zero, zero_mul, zero_add, mul_comm q] at hq
  refine ((div_modByMonic_unique q (toPoly (crcBits low 0#w bits)) (generator_monic low) ⟨hq, ?_⟩).2).symm
  rw [generator_degree]
  exact toPoly_degree _

end Crc
end Xlibc
