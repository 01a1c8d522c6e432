import Mathlib.Tactic.IntervalCases
import Xlibc.Xsha1.Standard

/-!
# Xlibc.Xsha1.Transform

`SHA1Transform`: 80 rounds written out, in five variables that change their places from round to round, over
the 16 words of a block in place.

* `Places` : after `t` rounds, which variable is which of the standard's, and what the 16 words hold.
* `places_step` : one round is one step of the standard.
* `SHA1Transform_eq` : the function is the standard's, on a machine of either byte order.
-/

namespace Xlibc
namespace Xsha1

/-! ## The code -/

def rol (value bits : Word) : Word := value <<< bits ||| value >>> (32 - bits)

inductive Reg where
  | a | b | c | d | e
  deriving DecidableEq

def get (s : Five) : Reg → Word
  | .a => s.a
  | .b => s.b
  | .c => s.c
  | .d => s.d
  | .e => s.e

def set (s : Five) (r : Reg) (x : Word) : Five :=
  match r with
  | .a => { s with a := x }
  | .b => { s with b := x }
  | .c => { s with c := x }
  | .d => { s with d := x }
  | .e => { s with e := x }

/-- The variables, and `block->l`. -/
structure Work where
  regs : Five
  block : List Word

section Code

variable (bigEndian : Bool)

/-- The first byte of `long one = 1`. -/
def firstByteOfOne : Byte := if bigEndian then 0 else 1

def amBigEndian : Bool := firstByteOfOne bigEndian == 0

def blk0Endiansafe (l : Word) : Word :=
  if amBigEndian bigEndian then l else (rol l 24 &&& 0xFF00FF00) ||| (rol l 8 &&& 0x00FF00FF)

/-- The bytes of the block, read as words. -/
def loadWords : List Byte → List Word
  | p :: q :: r :: s :: rest => (if bigEndian then word p q r s else word s r q p) :: loadWords rest
  | _ => []

/-- An assignment to a word of the block: the words, and its value. -/
def blk0 (i : Nat) (block : List Word) : List Word × Word :=
  let m := blk0Endiansafe bigEndian (block.getD i 0)
  (block.set i m, m)

def blk (i : Nat) (block : List Word) : List Word × Word :=
  let m := rol (block.getD ((i + 13) &&& 15) 0 ^^^ block.getD ((i + 8) &&& 15) 0 ^^^
    block.getD ((i + 2) &&& 15) 0 ^^^ block.getD (i &&& 15) 0) 1
  (block.set (i &&& 15) m, m)

/-- `z += f(w, x, y) + blk(i) + k + rol(v, 5); w = rol(w, 30);` -/
def round (f : Word → Word → Word → Word) (blk : Nat → List Word → List Word × Word) (k : Word)
    (v w x y z : Reg) (i : Nat) (s : Work) : Work :=
  let (block, m) := blk i s.block
  let get := get s.regs
  let regs := set s.regs z (get z + (f (get w) (get x) (get y) + m + k + rol (get v) 5))
  ⟨set regs w (rol (get w) 30), block⟩

def R0 := round (fun w x y => (w &&& (x ^^^ y)) ^^^ y) (blk0 bigEndian) 0x5A827999
def R1 := round (fun w x y => (w &&& (x ^^^ y)) ^^^ y) blk 0x5A827999
def R2 := round (fun w x y => w ^^^ x ^^^ y) blk 0x6ED9EBA1
def R3 := round (fun w x y => ((w ||| x) &&& y) ||| (w &&& x)) blk 0x8F1BBCDC
def R4 := round (fun w x y => w ^^^ x ^^^ y) blk 0xCA62C1D6

open Reg in
def rounds : List (Work → Work) :=
  let R0 := R0 bigEndian
  [ R0 a b c d e 0, R0 e a b c d 1, R0 d e a b c 2, R0 c d e a b 3,
    R0 b c d e a 4, R0 a b c d e 5, R0 e a b c d 6, R0 d e a b c 7,
    R0 c d e a b 8, R0 b c d e a 9, R0 a b c d e 10, R0 e a b c d 11,
    R0 d e a b c 12, R0 c d e a b 13, R0 b c d e a 14, R0 a b c d e 15,
    R1 e a b c d 16, R1 d e a b c 17, R1 c d e a b 18, R1 b c d e a 19,
    R2 a b c d e 20, R2 e a b c d 21, R2 d e a b c 22, R2 c d e a b 23,
    R2 b c d e a 24, R2 a b c d e 25, R2 e a b c d 26, R2 d e a b c 27,
    R2 c d e a b 28, R2 b c d e a 29, R2 a b c d e 30, R2 e a b c d 31,
    R2 d e a b c 32, R2 c d e a b 33, R2 b c d e a 34, R2 a b c d e 35,
    R2 e a b c d 36, R2 d e a b c 37, R2 c d e a b 38, R2 b c d e a 39,
    R3 a b c d e 40, R3 e a b c d 41, R3 d e a b c 42, R3 c d e a b 43,
    R3 b c d e a 44, R3 a b c d e 45, R3 e a b c d 46, R3 d e a b c 47,
    R3 c d e a b 48, R3 b c d e a 49, R3 a b c d e 50, R3 e a b c d 51,
    R3 d e a b c 52, R3 c d e a b 53, R3 b c d e a 54, R3 a b c d e 55,
    R3 e a b c d 56, R3 d e a b c 57, R3 c d e a b 58, R3 b c d e a 59,
    R4 a b c d e 60, R4 e a b c d 61, R4 d e a b c 62, R4 c d e a b 63,
    R4 b c d e a 64, R4 a b c d e 65, R4 e a b c d 66, R4 d e a b c 67,
    R4 c d e a b 68, R4 b c d e a 69, R4 a b c d e 70, R4 e a b c d 71,
    R4 d e a b c 72, R4 c d e a b 73, R4 b c d e a 74, R4 a b c d e 75,
    R4 e a b c d 76, R4 d e a b c 77, R4 c d e a b 78, R4 b c d e a 79 ]

def SHA1Transform (state : Five) (buffer : List Byte) : Five :=
  state.add (((rounds bigEndian).foldl (fun (s : Work) r => r s) ⟨state, loadWords bigEndian buffer⟩).regs)

end Code

/-! ## Words -/

/-- Turning a word that was read with its bytes in the other order puts them right. -/
theorem swap_word (p q r s : Byte) :
    (rol (word s r q p) 24 &&& 0xFF00FF00) ||| (rol (word s r q p) 8 &&& 0x00FF00FF) = word p q r s := by
  apply UInt32.eq_of_toBitVec_eq
  apply BitVec.eq_of_getLsbD_eq
  intro i hi
  interval_cases i <;> simp [rol, word]

theorem blk0Endiansafe_load (bigEndian : Bool) : ∀ bytes : List Byte,
    (loadWords bigEndian bytes).map (blk0Endiansafe bigEndian) = beWords bytes
  | [] | [_] | [_, _] | [_, _, _] => by simp [loadWords, beWords]
  | p :: q :: r :: s :: rest => by
    have ih := blk0Endiansafe_load bigEndian rest
    cases bigEndian with
    | true => simpa [loadWords, beWords, blk0Endiansafe, amBigEndian, firstByteOfOne] using ih
    | false => simpa [loadWords, beWords, blk0Endiansafe, amBigEndian, firstByteOfOne, swap_word] using ih

theorem choose_eq (x y z : Word) : (x &&& (y ^^^ z)) ^^^ z = (x &&& y) ||| (~~~x &&& z) := by
  apply UInt32.eq_of_toBitVec_eq
  apply BitVec.eq_of_getLsbD_eq
  intro i hi
  simp only [UInt32.toBitVec_xor, UInt32.toBitVec_and, UInt32.toBitVec_or, UInt32.toBitVec_not, BitVec.getLsbD_xor,
    BitVec.getLsbD_and, BitVec.getLsbD_or, BitVec.getLsbD_not, hi, decide_true, Bool.true_and]
  cases x.toBitVec.getLsbD i <;> simp

theorem majority_eq (x y z : Word) : ((x ||| y) &&& z) ||| (x &&& y) = (x &&& y) ||| (x &&& z) ||| (y &&& z) := by
  apply UInt32.eq_of_toBitVec_eq
  apply BitVec.eq_of_getLsbD_eq
  intro i _
  simp only [UInt32.toBitVec_and, UInt32.toBitVec_or, BitVec.getLsbD_and, BitVec.getLsbD_or]
  cases x.toBitVec.getLsbD i <;> cases y.toBitVec.getLsbD i <;> simp

/-! ## The variables -/

theorem sum_eq (z f m k v : Word) : z + (f + m + k + v) = v + f + z + k + m := by ac_rfl

def reg : Nat → Reg
  | 0 => .a
  | 1 => .b
  | 2 => .c
  | 3 => .d
  | _ => .e

/-- The variable that is the standard's number `k` before round `t`. -/
def place (t k : Nat) : Reg := reg ((k + 4 * t) % 5)

theorem place_succ (t k : Nat) : place (t + 1) (k + 1) = place t k := by
  rw [place, place, show (k + 1 + 4 * (t + 1)) % 5 = (k + 4 * t) % 5 by omega]

theorem place_zero (t : Nat) : place (t + 1) 0 = place t 4 := by
  rw [place, place, show (0 + 4 * (t + 1)) % 5 = (4 + 4 * t) % 5 by omega]

theorem reg_inj : ∀ i < 5, ∀ j < 5, reg i = reg j → i = j := by decide

theorem place_ne (t : Nat) {i j : Nat} (hi : i < 5) (hj : j < 5) (h : i ≠ j) : place t i ≠ place t j := by
  intro heq
  have := reg_inj _ (Nat.mod_lt _ (by omega)) _ (Nat.mod_lt _ (by omega)) heq
  omega

@[simp] theorem get_set_self (s : Five) (r : Reg) (x : Word) : get (set s r x) r = x := by
  cases r <;> rfl

theorem get_set_ne (s : Five) {r r' : Reg} (h : r ≠ r') (x : Word) : get (set s r x) r' = get s r' := by
  cases r <;> cases r' <;> first | rfl | exact absurd rfl h

/-- The variables before round `t`, by their places. -/
def placed (t : Nat) (s : Five) : Five :=
  ⟨get s (place t 0), get s (place t 1), get s (place t 2), get s (place t 3), get s (place t 4)⟩

theorem placed_zero (s : Five) : placed 0 s = s := rfl

theorem placed_eighty (s : Five) : placed 80 s = s := rfl

theorem placed_round {words : List Word} {t : Nat} {f' : Word → Word → Word → Word}
    {blk' : Nat → List Word → List Word × Word} {k : Word} {s : Work} (hf : f' = f t) (hk : k = K t)
    (hm : (blk' t s.block).2 = W words t) :
    placed (t + 1) (round f' blk' k (place t 0) (place t 1) (place t 2) (place t 3) (place t 4) t s).regs =
      step words (placed t s.regs) t := by
  have h (j : Nat) (hj : j < 5) (hne : j ≠ 4) (s : Five) (x : Word) :
      get (set s (place t 4) x) (place t j) = get s (place t j) :=
    get_set_ne s (place_ne t (by omega) hj (Ne.symm hne)) x
  have h' (j : Nat) (hj : j < 5) (hne : j ≠ 1) (s : Five) (x : Word) :
      get (set s (place t 1) x) (place t j) = get s (place t j) :=
    get_set_ne s (place_ne t (by omega) hj (Ne.symm hne)) x
  subst hf hk
  rw [placed, place_zero, place_succ t 0, place_succ t 1, place_succ t 2, place_succ t 3]
  simp only [placed, round, step, Five.mk.injEq, hm]
  refine ⟨?_, ?_, ?_, ?_, ?_⟩
  · rw [h' 4 (by omega) (by omega), get_set_self]
    exact sum_eq _ _ _ _ _
  · rw [h' 0 (by omega) (by omega), h 0 (by omega) (by omega)]
  · rw [get_set_self]
    rfl
  · rw [h' 2 (by omega) (by omega), h 2 (by omega) (by omega)]
  · rw [h' 3 (by omega) (by omega), h 3 (by omega) (by omega)]

/-! ## The words -/

/-- Before round `t` the 16 words hold the last 16 words of the schedule; what has not been read yet is as it
was loaded. -/
structure Expanded (bigEndian : Bool) (words : List Word) (t : Nat) (block : List Word) : Prop where
  length : block.length = 16
  done : ∀ i < t, t ≤ i + 16 → block.getD (i % 16) 0 = W words i
  raw : ∀ i < 16, t ≤ i → blk0Endiansafe bigEndian (block.getD i 0) = words.getD i 0

section Words

variable {bigEndian : Bool} {words block : List Word} {t : Nat}

theorem Expanded.load (bytes : List Byte) (h : bytes.length = 64) :
    Expanded bigEndian (beWords bytes) 0 (loadWords bigEndian bytes) := by
  have hmap := blk0Endiansafe_load bigEndian bytes
  have hlen : (loadWords bigEndian bytes).length = 16 := by
    rw [← List.length_map (blk0Endiansafe bigEndian), hmap, beWords_length, h]
  refine ⟨hlen, fun i hi => absurd hi (Nat.not_lt_zero i), fun i hi _ => ?_⟩
  rw [← hmap, List.getD_eq_getElem _ _ (by omega), List.getD_eq_getElem _ _ (by rw [List.length_map]; omega),
    List.getElem_map]

/-- A word that takes the place of the one 16 before it. -/
theorem Expanded.set (h : Expanded bigEndian words t block) {m : Word} (hm : m = W words t) :
    Expanded bigEndian words (t + 1) (block.set (t % 16) m) where
  length := by rw [List.length_set, h.length]
  done i hi hlast := by
    have hlen := h.length
    by_cases heq : i = t
    · rw [heq, hm, List.getD_eq_getElem _ _ (by rw [List.length_set]; omega), List.getElem_set_self]
    · rw [← h.done i (by omega) (by omega), List.getD_eq_getElem _ _ (by rw [List.length_set]; omega),
        List.getElem_set_ne (by omega), List.getD_eq_getElem]
  raw i hi hlast := by
    have hlen := h.length
    rw [← h.raw i hi (by omega), List.getD_eq_getElem _ _ (by rw [List.length_set]; omega),
      List.getElem_set_ne (by omega), List.getD_eq_getElem]

theorem blk0_spec (hw : words.length = 16) (h : Expanded bigEndian words t block) (ht : t < 16) :
    (blk0 bigEndian t block).2 = W words t ∧ Expanded bigEndian words (t + 1) (blk0 bigEndian t block).1 := by
  have hm : blk0Endiansafe bigEndian (block.getD t 0) = W words t := by
    rw [h.raw t ht (Nat.le_refl t), W_of_lt hw ht]
  have hset := h.set hm
  rw [Nat.mod_eq_of_lt ht] at hset
  exact ⟨hm, hset⟩

theorem and_fifteen (i : Nat) : i &&& 15 = i % 16 := Nat.and_two_pow_sub_one_eq_mod i 4

theorem blk_spec (hw : words.length = 16) (h : Expanded bigEndian words t block) (ht : 16 ≤ t) (ht' : t < 80) :
    (blk t block).2 = W words t ∧ Expanded bigEndian words (t + 1) (blk t block).1 := by
  have hdone (i k : Nat) (hi : i + 16 = t + k) (hk : k < 16) : block.getD ((t + k) &&& 15) 0 = W words i := by
    rw [← h.done i (by omega) (by omega), and_fifteen, ← hi, Nat.add_mod_right]
  have hm : (blk t block).2 = W words t := by
    have hlast := hdone (t - 16) 0 (by omega) (by omega)
    rw [Nat.add_zero] at hlast
    rw [blk, schedule_eq hw ht ht', hdone (t - 3) 13 (by omega) (by omega), hdone (t - 8) 8 (by omega) (by omega),
      hdone (t - 14) 2 (by omega) (by omega), hlast]
    rfl
  have hset := h.set hm
  rw [← and_fifteen] at hset
  exact ⟨hm, hset⟩

end Words

/-! ## Rounds -/

section Rounds

variable (bigEndian : Bool)

/-- The round that the code makes at `t`. -/
def roundAt (t : Nat) : Work → Work :=
  let R := if t < 16 then R0 bigEndian else if t < 20 then R1 else if t < 40 then R2 else if t < 60 then R3 else R4
  R (place t 0) (place t 1) (place t 2) (place t 3) (place t 4) t

theorem rounds_eq : rounds bigEndian = (List.range 80).map (roundAt bigEndian) := rfl

/-- The standard's variables and words, in the places of the code's before round `t`. -/
structure Places (words : List Word) (t : Nat) (s : Five) (work : Work) : Prop where
  regs : placed t work.regs = s
  block : Expanded bigEndian words t work.block

variable {bigEndian}

theorem places_round {words : List Word} {t : Nat} {s : Five} {work : Work} {f' : Word → Word → Word → Word}
    {blk' : Nat → List Word → List Word × Word} {k : Word} (h : Places bigEndian words t s work) (hf : f' = f t)
    (hk : k = K t)
    (hblk : (blk' t work.block).2 = W words t ∧ Expanded bigEndian words (t + 1) (blk' t work.block).1) :
    Places bigEndian words (t + 1) (step words s t)
      (round f' blk' k (place t 0) (place t 1) (place t 2) (place t 3) (place t 4) t work) := by
  refine ⟨?_, hblk.2⟩
  rw [placed_round hf hk hblk.1, h.regs]

theorem places_step {words : List Word} (hw : words.length = 16) {t : Nat} (ht : t < 80) {s : Five} {work : Work}
    (h : Places bigEndian words t s work) :
    Places bigEndian words (t + 1) (step words s t) (roundAt bigEndian t work) := by
  unfold roundAt
  by_cases h16 : t < 16
  · rw [if_pos h16]
    exact places_round h (by funext x y z; rw [f, if_pos (by omega), choose_eq]) (by rw [K, if_pos (by omega)])
      (blk0_spec hw h.block h16)
  have hblk := blk_spec hw h.block (by omega) ht
  by_cases h20 : t < 20
  · rw [if_neg h16, if_pos h20]
    exact places_round h (by funext x y z; rw [f, if_pos h20, choose_eq]) (by rw [K, if_pos h20]) hblk
  by_cases h40 : t < 40
  · rw [if_neg h16, if_neg h20, if_pos h40]
    exact places_round h (by funext x y z; rw [f, if_neg h20, if_pos h40]) (by rw [K, if_neg h20, if_pos h40]) hblk
  by_cases h60 : t < 60
  · rw [if_neg h16, if_neg h20, if_neg h40, if_pos h60]
    exact places_round h (by funext x y z; rw [f, if_neg h20, if_neg h40, if_pos h60, majority_eq])
      (by rw [K, if_neg h20, if_neg h40, if_pos h60]) hblk
  · rw [if_neg h16, if_neg h20, if_neg h40, if_neg h60]
    exact places_round h (by funext x y z; rw [f, if_neg h20, if_neg h40, if_neg h60])
      (by rw [K, if_neg h20, if_neg h40, if_neg h60]) hblk

theorem places_run {words : List Word} (hw : words.length = 16) {s : Five} {work : Work}
    (h : Places bigEndian words 0 s work) {n : Nat} (hn : n ≤ 80) :
    Places bigEndian words n ((List.range n).foldl (step words) s)
      ((List.range n).foldl (fun work t => roundAt bigEndian t work) work) := by
  induction n with
  | zero => exact h
  | succ n ih =>
    simp only [List.range_succ, List.foldl_append, List.foldl_cons, List.foldl_nil]
    exact places_step hw (by omega) (ih (by omega))

/-- The function is the standard's, on a machine of either byte order. -/
theorem SHA1Transform_eq (state : Five) {buffer : List Byte} (h : buffer.length = 64) :
    SHA1Transform bigEndian state buffer = compress state buffer := by
  have hw : (beWords buffer).length = 16 := by rw [beWords_length, h]
  have hstart : Places bigEndian (beWords buffer) 0 state ⟨state, loadWords bigEndian buffer⟩ :=
    ⟨placed_zero state, Expanded.load buffer h⟩
  have hrun := places_run hw hstart (Nat.le_refl 80)
  rw [SHA1Transform, rounds_eq, List.foldl_map, compress, ← hrun.regs, placed_eighty]

end Rounds

end Xsha1
end Xlibc
