import Mathlib.Data.Set.Insert
import Xlibc.Base.Run
import Xlibc.Xbitmap.Bounds

/-!
# Xlibc.Xbitmap.Correct

On a 32-bit `long` a bitmap of `nbits` bits is a set of offsets below `nbits`. `bitAt` reads one bit of
the words, `members` is the set they represent, and every function is specified by `bitAt`; bits from
`nbits` on never matter.

* `bitmapSet_spec`, `bitmapUnset_spec`, `bitmapFill_spec`, … : what a function does to each bit.
* `noneBits_iff`, `noneLongs_spec` : both scans of a bitmap, by the bits below `nbits`.
* `bitmap_refines_set` : every run, from any contents.
-/

namespace Xlibc
namespace Xbitmap

abbrev Word := BitVec 32

def wordAt (ws : List Word) (i : Nat) : Word := ws[i]?.getD 0#32

/-- The bit at an offset, `false` outside the words. -/
def bitAt (ws : List Word) (o : Nat) : Bool := (wordAt ws (o / 32)).getLsbD (o % 32)

variable {ws : List Word} {nbits o p : Nat}

theorem bitsToLongs_lt (h : o < nbits) : o / 32 < bitsToLongs 32 nbits := by
  unfold bitsToLongs
  omega

theorem wordAt_eq {i : Nat} (h : i < ws.length) : wordAt ws i = ws[i] := by simp [wordAt, h]

/-! ## Masks -/

theorem intBit_eq (n : Nat) : intBit 32 n = 1#32 <<< n := by simp [intBit]

theorem intMask_eq (n : Nat) : intMask 32 n = ~~~ (1#32 <<< n) := by simp [intMask]

theorem getLsbD_one_shiftLeft {i j : Nat} (hj : j < 32) :
    (1#32 <<< i).getLsbD j = decide (i = j) := by
  rw [BitVec.getLsbD_shiftLeft, BitVec.getLsbD_one]
  rcases Nat.lt_trichotomy i j with h | h | h
  · have : ¬ i = j := by omega
    simp [this]
    omega
  · subst h
    simp [hj]
  · have : ¬ i = j := by omega
    simp [this, h]

theorem getLsbD_lastWordMask {j : Nat} (hj : j < 32) :
    (lastWordMask 32 nbits).getLsbD j = decide (nbits % 32 = 0 ∨ j < nbits % 32) := by
  by_cases hr : nbits % 32 = 0
  · rw [lastWordMask, bitsPerLong, if_neg (by simp [hr]), BitVec.getLsbD_not, BitVec.getLsbD_zero]
    simp [hj, hr]
  · have hlt : nbits % 32 < 32 := Nat.mod_lt _ (by omega)
    have hpow : 2 ^ (nbits % 32) < 2 ^ 32 := Nat.pow_lt_pow_right (by omega) hlt
    have hpos : 0 < 2 ^ (nbits % 32) := Nat.two_pow_pos _
    have hval : (lastWordMask 32 nbits).toNat = 2 ^ (nbits % 32) - 1 := by
      have hshift : (1#32 <<< (nbits % 32)).toNat = 2 ^ (nbits % 32) := by
        rw [BitVec.toNat_shiftLeft, BitVec.toNat_ofNat, Nat.shiftLeft_eq, Nat.one_mod, Nat.one_mul]
        exact Nat.mod_eq_of_lt hpow
      rw [lastWordMask, bitsPerLong, if_pos hr, BitVec.toNat_sub_of_le]
      · rw [hshift]; rfl
      · rw [BitVec.le_def, hshift]; exact hpos
    rw [BitVec.getLsbD, hval, Nat.testBit_two_pow_sub_one]
    simp [hr]

/-- A word has no bit under the last mask exactly when no bit of the bitmap's last word is set. -/
theorem and_lastWordMask_eq_zero {x : Word} :
    x &&& lastWordMask 32 nbits = 0#32 ↔
      ∀ j < 32, (nbits % 32 = 0 ∨ j < nbits % 32) → x.getLsbD j = false := by
  constructor
  · intro h j hj hmask
    have := congrArg (·.getLsbD j) h
    simpa [getLsbD_lastWordMask hj, hmask] using this
  · intro h
    refine BitVec.eq_of_getLsbD_eq fun j hj => ?_
    rw [BitVec.getLsbD_and, getLsbD_lastWordMask hj, BitVec.getLsbD_zero]
    by_cases hmask : nbits % 32 = 0 ∨ j < nbits % 32
    · simp [h j hj hmask]
    · simp [hmask]

theorem eq_zero_iff {x : Word} : x = 0#32 ↔ ∀ j < 32, x.getLsbD j = false := by
  constructor
  · rintro rfl j -
    simp
  · intro h
    exact BitVec.eq_of_getLsbD_eq fun j hj => by rw [h j hj, BitVec.getLsbD_zero]

/-! ## Single bits -/

theorem modifyWord_eq {f : Word → Word} {i : Nat} (h : i < ws.length) :
    modifyWord ws i f = some (ws.set i (f ws[i])) := by
  simp [modifyWord, h]

theorem bitAt_set_word {i : Nat} (x : Word) (hi : i < ws.length) :
    bitAt (ws.set i x) p = if p / 32 = i then x.getLsbD (p % 32) else bitAt ws p := by
  unfold bitAt wordAt
  split
  · next h => simp [h, hi]
  · next h => rw [List.getElem?_set_ne (fun heq => h heq.symm)]

theorem bitAt_getElem (h : o / 32 < ws.length) : bitAt ws o = (ws[o / 32]).getLsbD (o % 32) := by
  rw [bitAt, wordAt_eq h]

theorem bitmapSet_spec (h : o / 32 < ws.length) :
    ∃ ws', bitmapSet ws o = some ws' ∧ ws'.length = ws.length ∧
      ∀ p, bitAt ws' p = (decide (p = o) || bitAt ws p) := by
  refine ⟨_, by rw [bitmapSet, place_eq, modifyWord_eq h], List.length_set, fun p => ?_⟩
  have hp : p % 32 < 32 := Nat.mod_lt _ (by omega)
  rw [bitAt_set_word _ h]
  split
  · next heq =>
    have hpl : p / 32 < ws.length := by rw [heq]; exact h
    have hpo : (o % 32 = p % 32) ↔ p = o := by omega
    rw [BitVec.getLsbD_or, intBit_eq, getLsbD_one_shiftLeft hp, Bool.or_comm, bitAt_getElem hpl]
    simp only [heq, hpo]
  · next hne =>
    have : p ≠ o := fun heq => hne (by rw [heq])
    simp [this]

theorem bitmapUnset_spec (h : o / 32 < ws.length) :
    ∃ ws', bitmapUnset ws o = some ws' ∧ ws'.length = ws.length ∧
      ∀ p, bitAt ws' p = (!decide (p = o) && bitAt ws p) := by
  refine ⟨_, by rw [bitmapUnset, place_eq, modifyWord_eq h], List.length_set, fun p => ?_⟩
  have hp : p % 32 < 32 := Nat.mod_lt _ (by omega)
  rw [bitAt_set_word _ h]
  split
  · next heq =>
    have hpl : p / 32 < ws.length := by rw [heq]; exact h
    have hpo : (o % 32 = p % 32) ↔ p = o := by omega
    rw [BitVec.getLsbD_and, intMask_eq, BitVec.getLsbD_not, getLsbD_one_shiftLeft hp, Bool.and_comm,
      bitAt_getElem hpl]
    simp only [heq, hpo, hp, decide_true, Bool.true_and]
  · next hne =>
    have : p ≠ o := fun heq => hne (by rw [heq])
    simp [this]

theorem bitmapGet_spec (h : o / 32 < ws.length) :
    bitmapGet ws o = some (if bitAt ws o then 1 else 0) := by
  have ho : o % 32 < 32 := Nat.mod_lt _ (by omega)
  have hbit : ws[o / 32] &&& intBit 32 (o % 32) ≠ 0#32 ↔ bitAt ws o = true := by
    rw [bitAt_getElem h, ne_eq, eq_zero_iff]
    constructor
    · intro hne
      by_contra hf
      refine hne fun j hj => ?_
      rw [BitVec.getLsbD_and, intBit_eq, getLsbD_one_shiftLeft hj]
      by_cases hjo : o % 32 = j
      · subst hjo; simpa using hf
      · simp [hjo]
    · intro ht hall
      have := hall (o % 32) ho
      rw [BitVec.getLsbD_and, intBit_eq, getLsbD_one_shiftLeft ho, ht] at this
      simp at this
  simp only [bitmapGet, place_eq, List.getElem?_eq_getElem h, Option.bind_eq_bind, Option.bind_some, hbit]

/-! ## Scans -/

/-- No bit of the viewed words is set below `nbits`. -/
def Clear (view : Word → Word) (ws : List Word) (nbits : Nat) : Prop :=
  ∀ o < nbits, (view (wordAt ws (o / 32))).getLsbD (o % 32) = false

theorem anyWord_spec (view : Word → Word) {left k : Nat} (h : k + left ≤ ws.length) :
    (anyWord view ws k left = some true ∧ ∃ i, i < k + left ∧ view (wordAt ws i) ≠ 0#32) ∨
    (anyWord view ws k left = some false ∧ ∀ i, k ≤ i → i < k + left → view (wordAt ws i) = 0#32) := by
  induction left generalizing k with
  | zero => exact .inr ⟨rfl, fun i h1 h2 => by omega⟩
  | succ left ih =>
    have hk : k < ws.length := by omega
    by_cases hv : view ws[k] = 0#32
    · have hstep : anyWord view ws k (left + 1) = anyWord view ws (k + 1) left := by
        simp [anyWord, hk, hv]
      rw [hstep]
      rcases ih (k := k + 1) (by omega) with ⟨hrun, i, hi, hne⟩ | ⟨hrun, hall⟩
      · exact .inl ⟨hrun, i, by omega, hne⟩
      · refine .inr ⟨hrun, fun i h1 h2 => ?_⟩
        rcases Nat.eq_or_lt_of_le h1 with rfl | hlt
        · rw [wordAt_eq hk, hv]
        · exact hall i (by omega) (by omega)
    · exact .inl ⟨by simp [anyWord, hk, hv], k, by omega, by rw [wordAt_eq hk]; exact hv⟩

/-- The multi-word scan: full words, then the masked rest. -/
theorem noneLongs_spec (view : Word → Word) (h : ∀ o < nbits, o / 32 < ws.length) :
    (noneLongs view ws nbits = some 1 ∧ Clear view ws nbits) ∨
    (noneLongs view ws nbits = some 0 ∧ ¬ Clear view ws nbits) := by
  rcases anyWord_spec view (full_le h) with ⟨hrun, i, hi, hne⟩ | ⟨hrun, hall⟩
  · -- a full word has a bit
    refine .inr ⟨by simp [noneLongs, bitsPerLong, hrun], fun hc => hne (eq_zero_iff.mpr fun j hj => ?_)⟩
    have := hc (32 * i + j) (by omega)
    rwa [show (32 * i + j) / 32 = i by omega, show (32 * i + j) % 32 = j by omega] at this
  · have hfull : ∀ o, o / 32 < nbits / 32 → (view (wordAt ws (o / 32))).getLsbD (o % 32) = false := by
      intro o ho
      rw [hall (o / 32) (by omega) (by omega), BitVec.getLsbD_zero]
    by_cases hr : nbits % 32 = 0
    · exact .inl ⟨by simp [noneLongs, bitsPerLong, hrun, hr], fun o ho => hfull o (by omega)⟩
    · have hlast : nbits / 32 < ws.length := by
        have := h (nbits - 1) (by omega)
        omega
      have hval : noneLongs view ws nbits =
          if view ws[nbits / 32] &&& lastWordMask 32 nbits ≠ 0#32 then some 0 else some 1 := by
        simp [noneLongs, bitsPerLong, hrun, hr, hlast]
      rw [hval, ← wordAt_eq hlast]
      by_cases hz : view (wordAt ws (nbits / 32)) &&& lastWordMask 32 nbits = 0#32
      · refine .inl ⟨if_neg (by simp [hz]), fun o ho => ?_⟩
        rcases Nat.lt_or_ge (o / 32) (nbits / 32) with hlt | hge
        · exact hfull o hlt
        · have heq : o / 32 = nbits / 32 := by omega
          rw [heq]
          exact and_lastWordMask_eq_zero.mp hz _ (Nat.mod_lt _ (by omega)) (.inr (by omega))
      · refine .inr ⟨if_pos hz, fun hc => hz (and_lastWordMask_eq_zero.mpr fun j hj hmask => ?_)⟩
        have := hc (32 * (nbits / 32) + j) (by omega)
        rwa [show (32 * (nbits / 32) + j) / 32 = nbits / 32 by omega,
          show (32 * (nbits / 32) + j) % 32 = j by omega] at this

/-- The single-word path answers as the multi-word path does. -/
theorem noneBits_eq_noneLongs {view : Word → Word} (h1 : 1 ≤ nbits)
    (h : ∀ o < nbits, o / 32 < ws.length) : noneBits view ws nbits = noneLongs view ws nbits := by
  unfold noneBits bitsPerLong
  split
  · next hle =>
    have h0 : 0 < ws.length := h 0 h1
    have hclear : view (wordAt ws 0) &&& lastWordMask 32 nbits = 0#32 ↔ Clear view ws nbits := by
      rw [and_lastWordMask_eq_zero]
      constructor
      · intro hbit o ho
        rw [show o / 32 = 0 by omega, show o % 32 = o by omega]
        exact hbit o (by omega) (by omega)
      · intro hc j hj hmask
        have := hc j (by omega)
        rwa [show j / 32 = 0 by omega, show j % 32 = j by omega] at this
    rw [wordAt_eq h0] at hclear
    rw [List.getElem?_eq_getElem h0]
    rcases noneLongs_spec view h with ⟨hrun, hc⟩ | ⟨hrun, hc⟩
    · simp [hrun, hclear.mpr hc]
    · simp [hrun, mt hclear.mp hc]
  · rfl

/-! ## Whole bitmaps -/

theorem bitAt_memset {n : Nat} {x : Word} (hp : p / 32 < n) :
    bitAt (List.replicate n x ++ ws.drop n) p = x.getLsbD (p % 32) := by
  rw [bitAt, wordAt, List.getElem?_append_left (by simpa using hp), List.getElem?_replicate, if_pos hp]
  rfl

/-- One word is reserved up to 32 bits. -/
theorem bitsToLongs_one (h1 : 1 ≤ nbits) (h : nbits ≤ 32) : bitsToLongs 32 nbits = 1 := by
  unfold bitsToLongs
  omega

theorem bitmapZero_eq_longs (h1 : 1 ≤ nbits) (hl : ws.length = bitsToLongs 32 nbits) :
    bitmapZero ws nbits = bitmapZeroLongs ws nbits := by
  unfold bitmapZero bitmapZeroLongs bitsPerLong
  split
  · next hle =>
    rw [bitsToLongs_one h1 hle] at hl ⊢
    obtain ⟨x, rfl⟩ := List.length_eq_one_iff.mp hl
    rfl
  · rfl

theorem bitmapCopy_eq_longs {src : List Word} (h1 : 1 ≤ nbits) (hl : ws.length = bitsToLongs 32 nbits)
    (hs : src.length = bitsToLongs 32 nbits) : bitmapCopy ws src nbits = bitmapCopyLongs ws src nbits := by
  unfold bitmapCopy bitmapCopyLongs bitsPerLong
  split
  · next hle =>
    rw [bitsToLongs_one h1 hle] at hl hs ⊢
    obtain ⟨x, rfl⟩ := List.length_eq_one_iff.mp hl
    obtain ⟨y, rfl⟩ := List.length_eq_one_iff.mp hs
    rfl
  · rfl

theorem bitmapZero_spec (h1 : 1 ≤ nbits) (hl : ws.length = bitsToLongs 32 nbits) :
    ∃ ws', bitmapZero ws nbits = some ws' ∧ ws'.length = ws.length ∧
      ∀ p < nbits, bitAt ws' p = false := by
  rw [bitmapZero_eq_longs h1 hl]
  refine ⟨_, if_pos (by rw [hl]), by simp [hl], fun p hp => ?_⟩
  rw [bitAt_memset (bitsToLongs_lt hp), BitVec.getLsbD_zero]

theorem bitmapCopy_spec {src : List Word} (h1 : 1 ≤ nbits) (hl : ws.length = bitsToLongs 32 nbits)
    (hs : src.length = bitsToLongs 32 nbits) :
    ∃ ws', bitmapCopy ws src nbits = some ws' ∧ ws'.length = ws.length ∧
      ∀ p < nbits, bitAt ws' p = bitAt src p := by
  rw [bitmapCopy_eq_longs h1 hl hs]
  refine ⟨src, ?_, by rw [hl, hs], fun p _ => rfl⟩
  simp [bitmapCopyLongs, memcpyWords, ← hl, hs, List.take_of_length_le]

theorem bitmapFill_spec (h1 : 1 ≤ nbits) (hl : ws.length = bitsToLongs 32 nbits) :
    ∃ ws', bitmapFill ws nbits = some ws' ∧ ws'.length = ws.length ∧
      ∀ p < nbits, bitAt ws' p = true := by
  obtain ⟨n, hn⟩ : ∃ n, bitsToLongs 32 nbits = n + 1 :=
    ⟨bitsToLongs 32 nbits - 1, by have := bitsToLongs_lt (o := 0) h1; omega⟩
  rw [hn] at hl
  -- the words before the last, set by `memset` when there are any
  have hfront : (if bitsToLongs 32 nbits > 1 then memsetWords ws (bitsToLongs 32 nbits - 1) (~~~ 0#32)
      else some ws) = some (List.replicate n (~~~ 0#32) ++ ws.drop n) := by
    rw [hn]
    split
    · exact if_pos (by omega)
    · next hle =>
      obtain rfl : n = 0 := by omega
      rfl
  have hlen : (List.replicate n (~~~ 0#32) ++ ws.drop n).length = n + 1 := by simp; omega
  have hlast : n < (List.replicate n (~~~ 0#32) ++ ws.drop n).length := by omega
  refine ⟨(List.replicate n (~~~ 0#32) ++ ws.drop n).set n (lastWordMask 32 nbits), ?_, ?_, ?_⟩
  · simp only [bitmapFill, hfront, Option.bind_eq_bind, Option.bind_some]
    rw [hn, if_neg (by omega), Nat.add_sub_cancel, modifyWord_eq hlast]
  · rw [List.length_set, hlen, hl]
  · intro p hp
    have hp32 : p % 32 < 32 := Nat.mod_lt _ (by omega)
    rw [bitAt_set_word _ hlast]
    split
    · next heq =>
      have hmod : nbits % 32 = 0 ∨ p % 32 < nbits % 32 := by
        have : nbits ≤ 32 * (n + 1) := by unfold bitsToLongs at hn; omega
        omega
      rw [getLsbD_lastWordMask hp32]
      simp [hmod]
    · next hne =>
      have hpn : p / 32 < n := by have := bitsToLongs_lt hp; omega
      rw [bitAt_memset hpn, BitVec.getLsbD_not, BitVec.getLsbD_zero]
      simp [hp32]

/-! ## The set -/

/-- The offsets below `nbits` whose bit is set. -/
def members (nbits : Nat) (ws : List Word) : Set (Fin nbits) := {o | bitAt ws o = true}

inductive BitmapOp (nbits : Nat) where
  | zero
  | fill
  | set (o : Fin nbits)
  | unset (o : Fin nbits)
  | copy (src : { ws : List Word // ws.length = bitsToLongs 32 nbits })

def setOp {nbits : Nat} (S : Set (Fin nbits)) : BitmapOp nbits → Set (Fin nbits)
  | .zero => ∅
  | .fill => Set.univ
  | .set o => insert o S
  | .unset o => S \ {o}
  | .copy src => members nbits src

def bitmapOp {nbits : Nat} (ws : List Word) : BitmapOp nbits → Option (List Word)
  | .zero => bitmapZero ws nbits
  | .fill => bitmapFill ws nbits
  | .set o => bitmapSet ws o
  | .unset o => bitmapUnset ws o
  | .copy src => bitmapCopy ws src nbits

/-- One call on the words is one operation on the set they represent. -/
theorem bitmapOp_spec (h1 : 1 ≤ nbits) (hl : ws.length = bitsToLongs 32 nbits) (op : BitmapOp nbits) :
    ∃ ws', bitmapOp ws op = some ws' ∧ ws'.length = bitsToLongs 32 nbits ∧
      members nbits ws' = setOp (members nbits ws) op := by
  have hin : ∀ o : Fin nbits, (o : Nat) / 32 < ws.length := fun o => by
    rw [hl]; exact bitsToLongs_lt o.isLt
  cases op with
  | zero =>
    obtain ⟨ws', hrun, hlen, hbit⟩ := bitmapZero_spec h1 hl
    refine ⟨ws', hrun, hlen.trans hl, Set.ext fun o => ?_⟩
    simp [members, setOp, hbit o o.isLt]
  | fill =>
    obtain ⟨ws', hrun, hlen, hbit⟩ := bitmapFill_spec h1 hl
    refine ⟨ws', hrun, hlen.trans hl, Set.ext fun o => ?_⟩
    simp [members, setOp, hbit o o.isLt]
  | set p =>
    obtain ⟨ws', hrun, hlen, hbit⟩ := bitmapSet_spec (hin p)
    refine ⟨ws', hrun, hlen.trans hl, Set.ext fun o => ?_⟩
    simp [members, setOp, hbit, Fin.ext_iff]
  | unset p =>
    obtain ⟨ws', hrun, hlen, hbit⟩ := bitmapUnset_spec (hin p)
    refine ⟨ws', hrun, hlen.trans hl, Set.ext fun o => ?_⟩
    simp [members, setOp, hbit, Fin.ext_iff, and_comm]
  | copy src =>
    obtain ⟨ws', hrun, hlen, hbit⟩ := bitmapCopy_spec h1 hl src.property
    refine ⟨ws', hrun, hlen.trans hl, Set.ext fun o => ?_⟩
    simp [members, setOp, hbit o o.isLt]

theorem noneBits_iff (view : Word → Word) (h1 : 1 ≤ nbits) (hl : ws.length = bitsToLongs 32 nbits) :
    (noneBits view ws nbits = some 1 ↔ Clear view ws nbits) ∧
      (noneBits view ws nbits = some 0 ↔ ¬ Clear view ws nbits) := by
  have hin : ∀ o < nbits, o / 32 < ws.length := fun o ho => by rw [hl]; exact bitsToLongs_lt ho
  rw [noneBits_eq_noneLongs h1 hin]
  rcases noneLongs_spec view hin with ⟨hrun, hc⟩ | ⟨hrun, hc⟩ <;> simp [hrun, hc]

theorem clear_id_iff : Clear id ws nbits ↔ members nbits ws = ∅ := by
  rw [Set.eq_empty_iff_forall_notMem]
  constructor
  · intro h o ho
    have hno : bitAt ws o = false := h o o.isLt
    exact absurd (hno.symm.trans ho) (by decide)
  · intro h o ho
    have hno : ¬ bitAt ws o = true := h ⟨o, ho⟩
    exact Bool.eq_false_iff.mpr hno

theorem clear_not_iff : Clear (fun x => ~~~ x) ws nbits ↔ members nbits ws = Set.univ := by
  rw [Set.eq_univ_iff_forall]
  have hnot : ∀ p, (~~~ (wordAt ws (p / 32))).getLsbD (p % 32) = !bitAt ws p := fun p => by
    rw [BitVec.getLsbD_not, bitAt]
    simp [Nat.mod_lt p (by omega : 32 > 0)]
  constructor
  · intro h o
    have := h o o.isLt
    rw [hnot] at this
    simpa [members] using this
  · intro h o ho
    have : bitAt ws o = true := h ⟨o, ho⟩
    rw [hnot, this]
    rfl

/-- **A bitmap is a set.** On a 32-bit `long`, after every run of the operations from any contents of
the reserved words, the words represent the set that the operations build from the initial one;
`bitmap_get`, `bitmap_empty` and `bitmap_full` answer for that set, no call leaves the words, and the
paths for a single word answer as the general ones. -/
theorem bitmap_refines_set {ws₀ : List Word} {ops : List (BitmapOp nbits)} (h1 : 1 ≤ nbits)
    (h0 : ws₀.length = bitsToLongs 32 nbits)
    (hr : Run (fun ws op ws' => bitmapOp ws op = some ws') ws₀ ops ws) :
    ∃ S : Set (Fin nbits), S = ops.foldl setOp (members nbits ws₀) ∧
      (∀ o : Fin nbits, (bitmapGet ws o = some 1 ↔ o ∈ S) ∧ (bitmapGet ws o = some 0 ↔ o ∉ S)) ∧
      (bitmapEmpty ws nbits = some 1 ↔ S = ∅) ∧ (bitmapEmpty ws nbits = some 0 ↔ S ≠ ∅) ∧
      (bitmapFull ws nbits = some 1 ↔ S = Set.univ) ∧
      (bitmapFull ws nbits = some 0 ↔ S ≠ Set.univ) ∧
      (∀ op : BitmapOp nbits, ∃ ws', bitmapOp ws op = some ws') ∧
      (bitmapEmpty ws nbits = bitmapEmptyLongs ws nbits ∧
        bitmapFull ws nbits = bitmapFullLongs ws nbits ∧
        bitmapZero ws nbits = bitmapZeroLongs ws nbits ∧
        (∀ src : List Word, src.length = bitsToLongs 32 nbits →
          bitmapCopy ws src nbits = bitmapCopyLongs ws src nbits) ∧
        ∀ o, place o = placeLongs o) := by
  have hinv : ws.length = bitsToLongs 32 nbits ∧
      members nbits ws = ops.foldl setOp (members nbits ws₀) := by
    induction hr with
    | nil => exact ⟨h0, rfl⟩
    | @snoc ops t t' op _ hstep ih =>
      obtain ⟨hl, hm⟩ := ih
      obtain ⟨ws', hrun, hl', hm'⟩ := bitmapOp_spec h1 hl op
      obtain rfl : ws' = t' := Option.some.inj (hrun.symm.trans hstep)
      exact ⟨hl', by rw [hm', hm, List.foldl_append]; rfl⟩
  obtain ⟨hl, hm⟩ := hinv
  have hin : ∀ o < nbits, o / 32 < ws.length := fun o ho => by rw [hl]; exact bitsToLongs_lt ho
  refine ⟨members nbits ws, hm, fun o => ?_, ?_, ?_, ?_, ?_, fun op => ?_, ?_, ?_, ?_, ?_, fun o => ?_⟩
  · rw [bitmapGet_spec (hin o o.isLt)]
    simp [members]
  · exact (noneBits_iff _ h1 hl).1.trans clear_id_iff
  · exact (noneBits_iff _ h1 hl).2.trans clear_id_iff.not
  · exact (noneBits_iff _ h1 hl).1.trans clear_not_iff
  · exact (noneBits_iff _ h1 hl).2.trans clear_not_iff.not
  · obtain ⟨ws', hrun, -⟩ := bitmapOp_spec h1 hl op
    exact ⟨ws', hrun⟩
  · exact noneBits_eq_noneLongs h1 hin
  · exact noneBits_eq_noneLongs h1 hin
  · exact bitmapZero_eq_longs h1 hl
  · exact fun src hs => bitmapCopy_eq_longs h1 hl hs
  · rw [place_eq]
    exact Prod.ext rfl (show o % 32 = o - o / 32 * 32 by omega)

/-- Bit 31 of a word with stale bits at and above `nbits = 40`. -/
theorem bitmap_refines_set_stale :
    bitmapGet [0x80000000#32, 0xffffff00#32] 31 = some 1 ∧
      (bitmapEmpty [0x80000000#32, 0xffffff00#32] 40 = some 0) := by
  have hrun : Run (fun ws op ws' => bitmapOp ws op = some ws') [0#32, 0xffffff00#32]
      [(.set 31 : BitmapOp 40)] [0x80000000#32, 0xffffff00#32] := .single rfl
  obtain ⟨S, hS, hget, -, hempty, -⟩ := bitmap_refines_set (by decide) (by decide) hrun
  have h31 : (31 : Fin 40) ∈ S := by rw [hS]; exact Set.mem_insert _ _
  exact ⟨(hget 31).1.mpr h31, hempty.mpr fun h => by rw [h] at h31; exact h31⟩

end Xbitmap
end Xlibc
