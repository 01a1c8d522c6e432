import Mathlib.Data.List.GetD
import Xlibc.Base.Blocks

/-!
# Xlibc.Xsha1.Standard

The secure hash standard, in its own words: what `xsha1.c` is for.

* `schedule`, `schedule_eq` : the 80 words of a block, and their recurrence.
* `compress` : one block.
* `pad` : the text with a one bit, zeros, and its length in bits.
* `sha1` : the digest of a text.
-/

namespace Xlibc
namespace Xsha1

abbrev Word := UInt32

/-- A word turned to the left. -/
def rotl (n : Word) (x : Word) : Word := x <<< n ||| x >>> (32 - n)

/-- Four bytes, the highest first. -/
def word (p q r s : Byte) : Word := p.toUInt32 <<< 24 ||| q.toUInt32 <<< 16 ||| r.toUInt32 <<< 8 ||| s.toUInt32

def beWords : List Byte → List Word
  | p :: q :: r :: s :: rest => word p q r s :: beWords rest
  | _ => []

/-- Five words: a hash value, and the working variables. -/
structure Five where
  a : Word
  b : Word
  c : Word
  d : Word
  e : Word
  deriving DecidableEq, Repr

def Five.add (s t : Five) : Five := ⟨s.a + t.a, s.b + t.b, s.c + t.c, s.d + t.d, s.e + t.e⟩

def Five.words (s : Five) : List Word := [s.a, s.b, s.c, s.d, s.e]

/-! ## One block -/

def f (t : Nat) (x y z : Word) : Word :=
  if t < 20 then (x &&& y) ||| (~~~x &&& z)
  else if t < 40 then x ^^^ y ^^^ z
  else if t < 60 then (x &&& y) ||| (x &&& z) ||| (y &&& z)
  else x ^^^ y ^^^ z

def K (t : Nat) : Word :=
  if t < 20 then 0x5A827999 else if t < 40 then 0x6ED9EBA1 else if t < 60 then 0x8F1BBCDC else 0xCA62C1D6

/-- The words of a block, and `n` more. -/
def schedule (block : List Word) : Nat → List Word
  | 0 => block
  | n + 1 =>
    let W := schedule block n
    W ++ [rotl 1 (W.getD (n + 13) 0 ^^^ W.getD (n + 8) 0 ^^^ W.getD (n + 2) 0 ^^^ W.getD n 0)]

/-- `W t` of the standard. -/
def W (block : List Word) (t : Nat) : Word := (schedule block 64).getD t 0

def step (block : List Word) (s : Five) (t : Nat) : Five :=
  ⟨rotl 5 s.a + f t s.b s.c s.d + s.e + K t + W block t, s.a, rotl 30 s.b, s.c, s.d⟩

def compress (h : Five) (block : List Byte) : Five :=
  h.add ((List.range 80).foldl (step (beWords block)) h)

/-! ## A text -/

def H0 : Five := ⟨0x67452301, 0xEFCDAB89, 0x98BADCFE, 0x10325476, 0xC3D2E1F0⟩

/-- The zeros between the one bit and the length. -/
def zeros (n : Nat) : Nat := (119 - n % 64) % 64

/-- The length in bits, in 64 of them. -/
def bitLength (n : Nat) : List Byte := be32 (8 * n / 2 ^ 32) ++ be32 (8 * n)

def pad (text : List Byte) : List Byte :=
  text ++ [0x80] ++ List.replicate (zeros text.length) 0 ++ bitLength text.length

def digest (h : Five) : List Byte := h.words.flatMap fun w => be32 w.toNat

def sha1 (text : List Byte) : List Byte := digest (absorb 64 compress H0 (pad text))

/-! ## Lemmas -/

theorem beWords_length : ∀ bytes : List Byte, (beWords bytes).length = bytes.length / 4
  | [] | [_] | [_, _] | [_, _, _] => by simp [beWords]
  | _ :: _ :: _ :: _ :: rest => by
    rw [beWords, List.length_cons, beWords_length rest]
    simp only [List.length_cons]
    omega

theorem schedule_length (block : List Word) (n : Nat) : (schedule block n).length = block.length + n := by
  induction n with
  | zero => rfl
  | succ n ih => rw [schedule, List.length_append, ih, List.length_singleton, Nat.add_assoc]

/-- The words that are there stay. -/
theorem schedule_getD {block : List Word} {n m t : Nat} (hm : n ≤ m) (ht : t < block.length + n) :
    (schedule block m).getD t 0 = (schedule block n).getD t 0 := by
  induction m, hm using Nat.le_induction with
  | base => rfl
  | succ m hm ih =>
    rw [schedule, List.getD_append _ _ _ _ (by rw [schedule_length]; omega), ih]

section Schedule

variable {block : List Word} (hb : block.length = 16) {t : Nat}
include hb

theorem W_of_lt (ht : t < 16) : W block t = block.getD t 0 := by
  rw [W, schedule_getD (Nat.zero_le 64) (by omega), schedule]

/-- The recurrence of the standard. -/
theorem schedule_eq (ht : 16 ≤ t) (ht' : t < 80) :
    W block t = rotl 1 (W block (t - 3) ^^^ W block (t - 8) ^^^ W block (t - 14) ^^^ W block (t - 16)) := by
  have hW {i : Nat} (hi : i < t) : W block i = (schedule block (t - 16)).getD i 0 :=
    schedule_getD (by omega) (by omega)
  have hlast : W block t = (schedule block (t - 16 + 1)).getD t 0 := schedule_getD (by omega) (by omega)
  have hlen : (schedule block (t - 16)).length = t := by rw [schedule_length]; omega
  rw [hlast, schedule, List.getD_append_right _ _ _ _ (by omega), hlen, Nat.sub_self, List.getD_cons_zero,
    hW (i := t - 3) (by omega), hW (i := t - 8) (by omega), hW (i := t - 14) (by omega), hW (i := t - 16) (by omega),
    show t - 16 + 13 = t - 3 by omega, show t - 16 + 8 = t - 8 by omega, show t - 16 + 2 = t - 14 by omega]

end Schedule

@[simp] theorem digest_length (h : Five) : (digest h).length = 20 := rfl

@[simp] theorem sha1_length (text : List Byte) : (sha1 text).length = 20 := rfl

end Xsha1
end Xlibc
