import Mathlib.Data.Nat.Digits.Lemmas
import Xlibc.Xfcfg.Parse

/-!
# Xlibc.Xmac.Step

`xmac_add1` and `xmac_sub1`: a step on the number that the six bytes are, the highest byte first.

* `carryLoop` : both loops, from the last byte on.
* `Carries`   : what the bytes of such a loop do to a number.
* `xmac_steps` : the two functions count modulo `2^48`.
-/

namespace Xlibc
namespace Xmac

open Xfcfg (Mac)

/-! ## The code -/

/-- `for (i = n - 1; i >= 0; i--)`: a byte that is not `stop` takes the step and ends the loop, the others
are set to `wrap`. -/
def carryLoop (stop wrap : Byte) (step : Byte → Byte) (mac : Mac) : (n : Nat) → n ≤ 6 → Mac
  | 0, _ => mac
  | i + 1, h =>
    if mac[i] ≠ stop then mac.set i (step mac[i])
    else carryLoop stop wrap step (mac.set i wrap) i (Nat.le_of_succ_le h)

def xmacAdd1 (mac : Mac) : Mac := carryLoop 0xff 0x00 (· + 1) mac 6 (Nat.le_refl 6)

def xmacSub1 (mac : Mac) : Mac := carryLoop 0x00 0xff (· - 1) mac 6 (Nat.le_refl 6)

/-! ## The number -/

/-- Bytes as a number, the highest first. -/
def value (bs : List Byte) : Nat := Nat.ofDigits 256 (bs.reverse.map UInt8.toNat)

def macValue (mac : Mac) : Nat := value mac.toList

theorem value_append (a b : List Byte) : value (a ++ b) = value a * 256 ^ b.length + value b := by
  rw [value, List.reverse_append, List.map_append, Nat.ofDigits_append, List.length_map, List.length_reverse,
    Nat.add_comm, Nat.mul_comm]
  rfl

theorem value_nil : value [] = 0 := rfl

theorem value_singleton (b : Byte) : value [b] = b.toNat := Nat.ofDigits_singleton

theorem value_cons (b : Byte) (bs : List Byte) : value (b :: bs) = b.toNat * 256 ^ bs.length + value bs := by
  rw [← List.singleton_append, value_append, value_singleton]

theorem digits_lt (bs : List Byte) : ∀ d ∈ bs.reverse.map UInt8.toNat, d < 256 := by
  intro d hd
  obtain ⟨b, -, rfl⟩ := List.mem_map.mp hd
  exact b.toNat_lt

theorem value_lt (bs : List Byte) : value bs < 256 ^ bs.length := by
  have hlt := Nat.ofDigits_lt_base_pow_length (show 1 < 256 by omega) (digits_lt bs)
  rwa [List.length_map, List.length_reverse] at hlt

theorem value_inj {a b : List Byte} (hlen : a.length = b.length) (h : value a = value b) : a = b := by
  have hdigits := Nat.ofDigits_inj_of_len_eq (show 1 < 256 by omega)
    (by rw [List.length_map, List.length_map, List.length_reverse, List.length_reverse, hlen])
    (digits_lt a) (digits_lt b) h
  exact List.reverse_inj.mp (List.map_injective_iff.mpr (fun _ _ => UInt8.toNat_inj.mp) hdigits)

theorem macValue_lt (mac : Mac) : macValue mac < 2 ^ 48 := by
  have hlt := value_lt mac.toList
  rw [Vector.length_toList] at hlt
  exact hlt

theorem macValue_inj {mac mac' : Mac} (h : macValue mac = macValue mac') : mac = mac' :=
  Vector.toList_inj.mp (value_inj (by rw [Vector.length_toList, Vector.length_toList]) h)

/-! ## The loops -/

/-- The loop adds `d n` to a number of `n` bytes: a step adds to the last byte, or leaves it at `wrap` and
goes on with the bytes in front of it. -/
structure Carries (stop wrap : Byte) (step : Byte → Byte) (d : Nat → Nat) : Prop where
  ends : ∀ n p, p < 256 ^ n → ∀ b, b ≠ stop →
    (p * 256 + b.toNat + d (n + 1)) % 256 ^ (n + 1) = p * 256 + (step b).toNat
  carries : ∀ n p, p < 256 ^ n →
    (p * 256 + stop.toNat + d (n + 1)) % 256 ^ (n + 1) = (p + d n) % 256 ^ n * 256 + wrap.toNat

section Loop

variable {stop wrap : Byte} {step : Byte → Byte} {d : Nat → Nat}

theorem set_toList {mac : Mac} {i : Nat} (hi : i < 6) {p s : List Byte} {b : Byte} (h : mac.toList = p ++ b :: s)
    (hp : p.length = i) (x : Byte) : (mac.set i x).toList = p ++ x :: s := by
  rw [Vector.toList_set, h, ← hp, List.set_append_right _ _ (Nat.le_refl _), Nat.sub_self, List.set_cons_zero]

theorem getElem_toList {mac : Mac} {i : Nat} (hi : i < 6) {p s : List Byte} {b : Byte} (h : mac.toList = p ++ b :: s)
    (hp : p.length = i) : mac[i] = b := by
  rw [← Vector.getElem_toList (by rw [Vector.length_toList]; exact hi)]
  simp [h, ← hp]

/-- By induction on the bytes in front, which the loop has not come to. -/
theorem carryLoop_value (hc : Carries stop wrap step d) : ∀ (n : Nat) (hn : n ≤ 6) (mac : Mac) (p s : List Byte),
    mac.toList = p ++ s → p.length = n →
    macValue (carryLoop stop wrap step mac n hn) = (value p + d n) % 256 ^ n * 256 ^ s.length + value s := by
  intro n
  induction n with
  | zero =>
    intro hn mac p s hmac hp
    obtain rfl := List.eq_nil_of_length_eq_zero hp
    rw [carryLoop, macValue, hmac, Nat.pow_zero, Nat.mod_one, Nat.zero_mul, Nat.zero_add]
    rfl
  | succ i ih =>
    intro hn mac p s hmac hp
    obtain ⟨p, b, rfl⟩ : ∃ p' b, p = p' ++ [b] :=
      ⟨p.dropLast, p.getLast (List.ne_nil_of_length_pos (by omega)), (List.dropLast_append_getLast _).symm⟩
    rw [List.append_assoc, List.singleton_append] at hmac
    have hlen : p.length = i := by
      rw [List.length_append, List.length_singleton] at hp
      omega
    have hlt : value p < 256 ^ i := hlen ▸ value_lt p
    rw [carryLoop, getElem_toList hn hmac hlen, value_append, value_singleton, List.length_singleton, Nat.pow_one]
    by_cases hb : b ≠ stop
    · rw [if_pos hb, hc.ends i _ hlt b hb, macValue, set_toList hn hmac hlen, value_append, value_cons,
        List.length_cons, Nat.pow_succ']
      ring
    · have hstop := not_not.mp hb
      rw [if_neg hb, ih _ _ p (wrap :: s) (set_toList hn hmac hlen wrap) hlen, hstop, hc.carries i _ hlt, value_cons,
        List.length_cons, Nat.pow_succ']
      ring

end Loop

theorem add1_carries : Carries 0xff 0x00 (· + 1) fun _ => 1 where
  ends := by
    intro n p hp b hb
    have hb' : b.toNat ≠ 255 := fun h => hb (UInt8.toNat_inj.mp h)
    have hlt := b.toNat_lt
    have hone : (b + 1).toNat = b.toNat + 1 := by
      rw [UInt8.toNat_add, UInt8.toNat_one]
      omega
    rw [hone, Nat.pow_succ, Nat.add_assoc]
    exact Nat.mod_eq_of_lt (by omega)
  carries := by
    intro n p _
    have hstop : (0xff : Byte).toNat = 255 := rfl
    have hwrap : (0x00 : Byte).toNat = 0 := rfl
    rw [hstop, hwrap, show p * 256 + 255 + 1 = (p + 1) * 256 by omega, Nat.pow_succ, Nat.mul_mod_mul_right]
    exact (Nat.add_zero _).symm

theorem sub1_carries : Carries 0x00 0xff (· - 1) fun n => 256 ^ n - 1 where
  ends := by
    intro n p hp b hb
    have hb' : b.toNat ≠ 0 := fun h => hb (UInt8.toNat_inj.mp h)
    have hlt := b.toNat_lt
    have hone : (b - 1).toNat = b.toNat - 1 := by
      rw [UInt8.toNat_sub, UInt8.toNat_one]
      omega
    rw [hone, Nat.pow_succ, show p * 256 + b.toNat + (256 ^ n * 256 - 1) =
      p * 256 + (b.toNat - 1) + 256 ^ n * 256 by omega, Nat.add_mod_right]
    exact Nat.mod_eq_of_lt (by omega)
  carries := by
    intro n p hp
    have hstop : (0x00 : Byte).toNat = 0 := rfl
    have hwrap : (0xff : Byte).toNat = 255 := rfl
    rw [hstop, hwrap, Nat.pow_succ', show p * 256 + 0 + (256 * 256 ^ n - 1) = (p + (256 ^ n - 1)) * 256 + 255 by omega,
      Nat.mod_mul]
    have hdiv : ((p + (256 ^ n - 1)) * 256 + 255) / 256 = p + (256 ^ n - 1) := by omega
    rw [hdiv]
    omega

theorem bytes_bits : (256 : Nat) ^ 6 = 2 ^ 48 := by omega

theorem macValue_add1 (mac : Mac) : macValue (xmacAdd1 mac) = (macValue mac + 1) % 2 ^ 48 := by
  have hrun := carryLoop_value add1_carries 6 (Nat.le_refl 6) mac mac.toList [] (List.append_nil _).symm
    (Vector.length_toList)
  beta_reduce at hrun
  rw [List.length_nil, Nat.pow_zero, Nat.mul_one, bytes_bits, value_nil, Nat.add_zero] at hrun
  exact hrun

theorem macValue_sub1 (mac : Mac) : macValue (xmacSub1 mac) = (macValue mac + (2 ^ 48 - 1)) % 2 ^ 48 := by
  have hrun := carryLoop_value sub1_carries 6 (Nat.le_refl 6) mac mac.toList [] (List.append_nil _).symm
    (Vector.length_toList)
  beta_reduce at hrun
  rw [List.length_nil, Nat.pow_zero, Nat.mul_one, bytes_bits, value_nil, Nat.add_zero] at hrun
  exact hrun

theorem macValue_iterate (n : Nat) (mac : Mac) : macValue (xmacAdd1^[n] mac) = (macValue mac + n) % 2 ^ 48 := by
  induction n with
  | zero => exact (Nat.mod_eq_of_lt (macValue_lt mac)).symm
  | succ n ih =>
    rw [Function.iterate_succ_apply', macValue_add1, ih]
    omega

/-- **Steps of an address.** The two functions add and subtract one modulo `2^48`, undo each other, and `n`
steps add `n`. -/
theorem xmac_steps (mac : Mac) :
    macValue (xmacAdd1 mac) = (macValue mac + 1) % 2 ^ 48 ∧
    (macValue (xmacSub1 mac) : Int) = ((macValue mac : Int) - 1) % 2 ^ 48 ∧
    xmacSub1 (xmacAdd1 mac) = mac ∧ xmacAdd1 (xmacSub1 mac) = mac ∧
    ∀ n, macValue (xmacAdd1^[n] mac) = (macValue mac + n) % 2 ^ 48 := by
  have hlt := macValue_lt mac
  refine ⟨macValue_add1 mac, ?_, macValue_inj ?_, macValue_inj ?_, fun n => macValue_iterate n mac⟩
  · rw [macValue_sub1]
    omega
  · rw [macValue_sub1, macValue_add1]
    omega
  · rw [macValue_add1, macValue_sub1]
    omega

end Xmac
end Xlibc
