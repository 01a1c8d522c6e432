import Mathlib.Data.List.GetD
import Xlibc.Base.Crc

/-!
# Xlibc.Base.CrcLow

More of cyclic redundancy checks: registers with the lowest bit first, and errors in a message.

* `shiftOut`, `crcOut` : the register the other way round; `reverse_crcOut` is the check of `Crc` in a mirror.
* `crcOut_low` : the low bits of the register and of a word at once, as a table has them.
* `crcBits_mod_from` : the remainder, for a register that is not empty.
* `crcBits_burst` : an error within `w` bits in a row is noticed.
-/

namespace Xlibc
namespace Crc

variable {w : Nat}

/-! ## The lowest bit first -/

def shiftOut (low r : BitVec w) (b : Bool) : BitVec w :=
  if r.getLsbD 0 ^^ b then (r >>> 1) ^^^ low else r >>> 1

def crcOut (low r : BitVec w) (bits : List Bool) : BitVec w := bits.foldl (shiftOut low) r

theorem reverse_reverse (x : BitVec w) : x.reverse.reverse = x := BitVec.reverse_reverse_eq

theorem reverse_xor (x y : BitVec w) : (x ^^^ y).reverse = x.reverse ^^^ y.reverse := by
  apply BitVec.eq_of_getLsbD_eq
  intro i _
  rw [BitVec.getLsbD_xor, BitVec.getLsbD_reverse, BitVec.getLsbD_reverse, BitVec.getLsbD_reverse, BitVec.getMsbD_xor]

theorem reverse_ushiftRight (x : BitVec w) : (x >>> 1).reverse = x.reverse <<< 1 := by
  apply BitVec.eq_of_getMsbD_eq
  intro i _
  rw [BitVec.getMsbD_reverse, BitVec.getLsbD_ushiftRight, BitVec.getMsbD_shiftLeft, BitVec.getMsbD_reverse,
    Nat.add_comm]

theorem reverse_shiftOut (low r : BitVec w) (b : Bool) :
    (shiftOut low r b).reverse = shiftIn low.reverse r.reverse b := by
  have hmsb : r.reverse.msb = r.getLsbD 0 := by
    rw [BitVec.msb, BitVec.getMsbD_reverse]
  unfold shiftOut shiftIn
  rw [hmsb]
  split
  · rw [reverse_xor, reverse_ushiftRight]
  · rw [reverse_ushiftRight]

/-- The two directions are mirror images. -/
theorem reverse_crcOut (low : BitVec w) (bits : List Bool) (r : BitVec w) :
    (crcOut low r bits).reverse = crcBits low.reverse r.reverse bits := by
  induction bits generalizing r with
  | nil => rfl
  | cons b bits ih =>
    have hstep := ih (shiftOut low r b)
    rw [reverse_shiftOut] at hstep
    exact hstep

theorem crcOut_append (low r : BitVec w) (bits bits' : List Bool) :
    crcOut low r (bits ++ bits') = crcOut low (crcOut low r bits) bits' := List.foldl_append

theorem crcOut_xor (low : BitVec w) {bits bits' : List Bool} (r r' : BitVec w) (h : bits.length = bits'.length) :
    crcOut low (r ^^^ r') (List.zipWith xor bits bits') = crcOut low r bits ^^^ crcOut low r' bits' := by
  rw [← reverse_reverse (crcOut low (r ^^^ r') _), reverse_crcOut, reverse_xor, crcBits_xor low.reverse _ _ h,
    ← reverse_crcOut, ← reverse_crcOut, ← reverse_xor, reverse_reverse]

/-- The low `n` bits of a word, the lowest first. -/
def lowBits (x : BitVec w) (n : Nat) : List Bool := (List.range n).map x.getLsbD

@[simp] theorem lowBits_length (x : BitVec w) (n : Nat) : (lowBits x n).length = n := by
  rw [lowBits, List.length_map, List.length_range]

/-- Bits that are those that leave the register. -/
theorem crcOut_self (low x : BitVec w) (n : Nat) : crcOut low x (lowBits x n) = x >>> n := by
  induction n with
  | zero => exact (BitVec.ushiftRight_zero x).symm
  | succ n ih =>
    have hlsb : (x >>> n).getLsbD 0 = x.getLsbD n := BitVec.getLsbD_ushiftRight ..
    rw [lowBits, List.range_succ, List.map_append, crcOut_append, ← lowBits, ih]
    show shiftOut low (x >>> n) (x.getLsbD n) = x >>> (n + 1)
    rw [shiftOut, hlsb, Bool.xor_self, if_neg Bool.false_ne_true, BitVec.shiftRight_add]

theorem zipWith_self (bits : List Bool) : List.zipWith xor bits bits = List.replicate bits.length false := by
  induction bits with
  | nil => rfl
  | cons b bits ih => rw [List.length_cons, List.replicate_succ, List.zipWith_cons_cons, ih, Bool.xor_self]

/-- A register is its low bits, which a table takes `n` steps further, and the rest, which is only shifted:
`x` is the low part of the register, the next `n` bits of the message added to it. -/
theorem crcOut_low (low r x : BitVec w) {bits : List Bool} {n : Nat} (hbits : bits.length = n)
    (hx : ∀ i < n, (bits.getD i false ^^ r.getLsbD i) = x.getLsbD i) (hhigh : x >>> n = 0#w) :
    crcOut low r bits = r >>> n ^^^ crcOut low x (List.replicate n false) := by
  have hsplit : bits = List.zipWith xor (lowBits r n) (lowBits x n) := by
    apply List.ext_getElem
    · simp [hbits]
    · intro i h1 h2
      have hi := hx i (by omega)
      rw [List.getD_eq_getElem _ _ h1] at hi
      simp only [lowBits, List.getElem_zipWith, List.getElem_map, List.getElem_range, ← hi]
      cases bits[i] <;> cases r.getLsbD i <;> rfl
  have hzero : crcOut low x (List.replicate n false) = crcOut low 0#w (lowBits x n) := by
    have hadd := crcOut_xor low x 0#w (show (lowBits x n).length = (lowBits x n).length from rfl)
    rw [BitVec.xor_zero, zipWith_self, lowBits_length, crcOut_self, hhigh, BitVec.zero_xor] at hadd
    exact hadd
  have hadd := crcOut_xor low r 0#w (show (lowBits r n).length = (lowBits x n).length by simp)
  rw [BitVec.xor_zero, ← hsplit, crcOut_self, ← hzero] at hadd
  exact hadd

/-! ## The remainder -/

section Remainder

open Polynomial

/-- The register of any start: what was in it counts before the message. -/
theorem crcBits_mod_from (low r : BitVec w) (bits : List Bool) :
    toPoly (crcBits low r bits) = (toPoly r * X ^ bits.length + message bits * X ^ w) %ₘ generator low := by
  obtain ⟨q, hq⟩ := toPoly_crcBits low bits r
  rw [mul_comm q] at hq
  refine ((div_modByMonic_unique q (toPoly (crcBits low r bits)) (generator_monic low) ⟨hq, ?_⟩).2).symm
  rw [generator_degree]
  exact toPoly_degree _

end Remainder

/-! ## Errors -/

/-- A message that empties the register has left it bit by bit. -/
theorem crcBits_eq_zero {low : BitVec w} (hlow : low.getLsbD 0 = true) : ∀ (bits : List Bool) (r : BitVec w),
    bits.length ≤ w → crcBits low r bits = 0#w → r <<< bits.length = 0#w ∧
      bits = (List.range bits.length).map r.getMsbD := by
  intro bits
  induction bits with
  | nil => exact fun r _ h => ⟨by rw [List.length_nil, BitVec.shiftLeft_zero]; exact h, rfl⟩
  | cons b bits ih =>
    intro r hlen h
    rw [List.length_cons] at hlen
    obtain ⟨hshift, hbits⟩ := ih (shiftIn low r b) (by omega) h
    have hlsb : (shiftIn low r b).getLsbD 0 = false := by
      have hbit : (shiftIn low r b <<< bits.length).getLsbD bits.length = false := by
        rw [hshift, BitVec.getLsbD_zero]
      rw [BitVec.getLsbD_shiftLeft, decide_eq_true (show bits.length < w by omega), decide_eq_false (Nat.lt_irrefl _),
        Nat.sub_self] at hbit
      exact hbit
    have hmsb : r.msb = b := by
      unfold shiftIn at hlsb
      cases hxor : r.msb ^^ b with
      | false => simpa using hxor
      | true =>
        rw [hxor, if_pos rfl, BitVec.getLsbD_xor, hlow] at hlsb
        simp at hlsb
    have hnext : shiftIn low r b = r <<< 1 := by rw [shiftIn, hmsb, Bool.xor_self, if_neg Bool.false_ne_true]
    rw [hnext, ← BitVec.shiftLeft_add, Nat.add_comm] at hshift
    refine ⟨hshift, ?_⟩
    rw [List.length_cons, List.range_succ_eq_map, List.map_cons, List.map_map, ← BitVec.msb, hmsb]
    congr 1
    rw [hnext] at hbits
    refine hbits.trans (List.map_congr_left fun i _ => ?_)
    rw [Function.comp_apply, BitVec.getMsbD_shiftLeft]

theorem crcBits_zeros_eq_zero {low : BitVec w} (hlow : low.getLsbD 0 = true) (n : Nat) {r : BitVec w}
    (h : crcBits low r (List.replicate n false) = 0#w) : r = 0#w := by
  induction n generalizing r with
  | zero => exact h
  | succ n ih =>
    have hnext := ih h
    rcases Nat.eq_zero_or_pos w with rfl | hw
    · exact BitVec.of_length_zero
    have hone := (crcBits_eq_zero hlow [false] r (by rw [List.length_singleton]; omega) hnext)
    have hmsb : r.msb = false := (List.cons.inj hone.2).1.symm
    have hshift : r <<< 1 = 0#w := hone.1
    apply BitVec.eq_of_getMsbD_eq
    intro i _
    cases i with
    | zero => simpa [BitVec.msb] using hmsb
    | succ i =>
      have hbit := congrArg (fun x => x.getMsbD i) hshift
      simpa [BitVec.getMsbD_shiftLeft] using hbit

/-- Errors within `w` bits in a row are noticed. -/
theorem crcBits_burst {low : BitVec w} (hlow : low.getLsbD 0 = true) {burst : List Bool} (hlen : burst.length ≤ w)
    (hburst : true ∈ burst) (m n : Nat) :
    crcBits low 0#w (List.replicate m false ++ burst ++ List.replicate n false) ≠ 0#w := by
  intro h
  rw [crcBits_append, crcBits_append, crcBits_zeros] at h
  have hall := (crcBits_eq_zero hlow burst 0#w hlen (crcBits_zeros_eq_zero hlow n h)).2
  rw [hall] at hburst
  simp at hburst

theorem eq_replicate_false {e : List Bool} (h : ∀ i < e.length, e[i]? = some false) :
    e = List.replicate e.length false := by
  apply List.eq_replicate_of_mem
  intro b hb
  obtain ⟨i, hi, rfl⟩ := List.mem_iff_getElem.mp hb
  have hbit := h i hi
  rwa [List.getElem?_eq_getElem hi, Option.some.injEq] at hbit

/-- Two messages that are the same but for `k` bits in a row, added. -/
theorem burst_split {bits bits' : List Bool} (hlen : bits.length = bits'.length) (hne : bits ≠ bits') {p k : Nat}
    (hsame : ∀ i, i < p ∨ p + k ≤ i → bits[i]? = bits'[i]?) :
    ∃ m n burst, burst.length ≤ k ∧ true ∈ burst ∧
      List.zipWith xor bits bits' = List.replicate m false ++ burst ++ List.replicate n false := by
  let e := List.zipWith xor bits bits'
  have helen : e.length = bits.length := by simp [e, hlen]
  have hget (i : Nat) (h1 : i < bits.length) (h2 : i < bits'.length) : e[i]? = some (bits[i] ^^ bits'[i]) := by
    simp [e, h1, h2]
  have hzero (i : Nat) (hi : i < bits.length) (h : i < p ∨ p + k ≤ i) : e[i]? = some false := by
    have hbit := hsame i h
    rw [List.getElem?_eq_getElem hi, List.getElem?_eq_getElem (by omega), Option.some.injEq] at hbit
    rw [hget i hi (by omega), hbit, Bool.xor_self]
  have hfront : e.take p = List.replicate (e.take p).length false := by
    apply eq_replicate_false
    intro i hi
    rw [List.length_take] at hi
    rw [List.getElem?_take_of_lt (by omega), hzero i (by omega) (.inl (by omega))]
  have hback : e.drop (p + k) = List.replicate (e.drop (p + k)).length false := by
    apply eq_replicate_false
    intro i hi
    rw [List.length_drop] at hi
    rw [List.getElem?_drop, hzero (p + k + i) (by omega) (.inr (by omega))]
  have hparts : e = List.replicate (e.take p).length false ++ (e.drop p).take k ++
      List.replicate (e.drop (p + k)).length false := by
    rw [← hfront, ← hback, List.append_assoc, ← List.drop_drop, List.take_append_drop, List.take_append_drop]
  refine ⟨_, _, (e.drop p).take k, by rw [List.length_take]; omega, ?_, hparts⟩
  by_contra hno
  have hall : e = List.replicate e.length false := by
    apply List.eq_replicate_of_mem
    intro b hb
    rw [hparts] at hb
    simp only [List.mem_append, List.mem_replicate] at hb
    rcases hb with (h | h) | h
    · exact h.2
    · exact Bool.eq_false_iff.mpr fun htrue => hno (htrue ▸ h)
    · exact h.2
  apply hne
  apply List.ext_getElem hlen
  intro i h1 h2
  have hbit := hget i h1 h2
  rw [hall, List.getElem?_replicate_of_lt (by omega), Option.some.injEq] at hbit
  exact bne_eq_false_iff_eq.mp hbit.symm

end Crc
end Xlibc
