import Xlibc.Xbitmap.Model

/-!
# Xlibc.Xbitmap.Bounds

Which words the bitmap functions touch. Storage for `nbits` is `bitsToLongs w nbits` words, and
`inBounds_iff` says when the nine functions stay inside it: on a 32-bit `long` always, on a 64-bit
one only for bitmaps of a single `bitsPerLong` word.
-/

namespace Xlibc
namespace Xbitmap

variable {w nbits : Nat}

/-- No function leaves an array of exactly the reserved size, at any contents and any offset. -/
structure InBounds (w nbits : Nat) : Prop where
  set : ∀ ws : List (BitVec w), ws.length = bitsToLongs w nbits → ∀ o < nbits, (bitmapSet ws o).isSome
  unset : ∀ ws : List (BitVec w), ws.length = bitsToLongs w nbits → ∀ o < nbits, (bitmapUnset ws o).isSome
  get : ∀ ws : List (BitVec w), ws.length = bitsToLongs w nbits → ∀ o < nbits, (bitmapGet ws o).isSome
  zero : ∀ ws : List (BitVec w), ws.length = bitsToLongs w nbits → (bitmapZero ws nbits).isSome
  fill : ∀ ws : List (BitVec w), ws.length = bitsToLongs w nbits → (bitmapFill ws nbits).isSome
  copy : ∀ ws src : List (BitVec w), ws.length = bitsToLongs w nbits →
    src.length = bitsToLongs w nbits → (bitmapCopy ws src nbits).isSome
  empty : ∀ ws : List (BitVec w), ws.length = bitsToLongs w nbits → (bitmapEmpty ws nbits).isSome
  full : ∀ ws : List (BitVec w), ws.length = bitsToLongs w nbits → (bitmapFull ws nbits).isSome
  findEmpty : ∀ ws : List (BitVec w), ws.length = bitsToLongs w nbits → (bitmapFindEmpty ws nbits).isSome

theorem place_eq (o : Nat) : place o = (o / 32, o % 32) := by
  unfold place placeLongs bitsPerLong
  split
  · exact Prod.ext (by omega) (by omega)
  · exact Prod.ext rfl (by omega)

/-- The storage reaches as far as the accessors do. -/
def Reaches (w nbits : Nat) : Prop := ∀ o < nbits, o / 32 < bitsToLongs w nbits

theorem reaches_iff (hw : w = 32 ∨ w = 64) (h1 : 1 ≤ nbits) :
    Reaches w nbits ↔ w = 32 ∨ nbits ≤ 32 := by
  unfold Reaches bitsToLongs
  rcases hw with rfl | rfl
  · exact ⟨fun _ => .inl rfl, fun _ o ho => by omega⟩
  · constructor
    · intro h
      have := h (nbits - 1) (by omega)
      omega
    · rintro (h | h) o ho <;> omega

theorem bitsToLongs_pos (hw : w = 32 ∨ w = 64) (h1 : 1 ≤ nbits) : 1 ≤ bitsToLongs w nbits := by
  unfold bitsToLongs
  rcases hw with rfl | rfl <;> omega

/-! ## Each function -/

section Functions

variable {ws : List (BitVec w)}

theorem modifyWord_isSome {i : Nat} {f : BitVec w → BitVec w} :
    (modifyWord ws i f).isSome ↔ i < ws.length := by
  rcases Nat.lt_or_ge i ws.length with h | h
  · simp [modifyWord, h]
  · simp [modifyWord, h]

theorem anyWord_isSome (view : BitVec w → BitVec w) {left k : Nat} (h : k + left ≤ ws.length) :
    (anyWord view ws k left).isSome := by
  induction left generalizing k with
  | zero => rfl
  | succ left ih =>
    have hk : k < ws.length := by omega
    by_cases hv : view ws[k] = 0#w
    · simpa [anyWord, hk, hv] using ih (by omega)
    · simp [anyWord, hk, hv]

/-- Where every bit has its word, so has every full group of bits. -/
theorem full_le (h : ∀ o < nbits, o / 32 < ws.length) : 0 + nbits / 32 ≤ ws.length := by
  rcases Nat.eq_zero_or_pos (nbits / 32) with h0 | hpos
  · omega
  · have := h (32 * (nbits / 32) - 1) (by omega)
    omega

theorem noneLongs_isSome {view : BitVec w → BitVec w} (h : ∀ o < nbits, o / 32 < ws.length) :
    (noneLongs view ws nbits).isSome := by
  obtain ⟨b, hb⟩ := Option.isSome_iff_exists.mp (anyWord_isSome view (full_le h))
  cases b with
  | true => simp [noneLongs, bitsPerLong, hb]
  | false =>
    by_cases hr : nbits % 32 = 0
    · simp [noneLongs, bitsPerLong, hb, hr]
    · have hlast : nbits / 32 < ws.length := by
        have := h (nbits - 1) (by omega)
        omega
      simp only [noneLongs, bitsPerLong, hb, Option.bind_eq_bind, Option.bind_some, ne_eq, hr,
        not_false_eq_true, if_true, List.getElem?_eq_getElem hlast, Bool.false_eq_true, if_false]
      split <;> rfl

theorem noneBits_isSome {view : BitVec w → BitVec w} (h0 : 0 < ws.length)
    (h : ∀ o < nbits, o / 32 < ws.length) : (noneBits view ws nbits).isSome := by
  unfold noneBits
  split
  · simp [h0]
  · exact noneLongs_isSome h

theorem findEmptyFrom_isSome {left i offset : Nat} (h : i + left ≤ ws.length) :
    (findEmptyFrom ws nbits i left offset).isSome := by
  induction left generalizing i offset with
  | zero => rfl
  | succ left ih =>
    have hi : i < ws.length := by omega
    rw [findEmptyFrom, List.getElem?_eq_getElem hi]
    simp only [Option.bind_eq_bind, Option.bind_some]
    split
    · exact ih (by omega)
    · split
      · rfl
      · exact ih (by omega)

end Functions

theorem InBounds.of_reaches (h0 : 1 ≤ bitsToLongs w nbits) (h : Reaches w nbits) : InBounds w nbits where
  set ws hl o ho := modifyWord_isSome.mpr (by rw [place_eq, hl]; exact h o ho)
  unset ws hl o ho := modifyWord_isSome.mpr (by rw [place_eq, hl]; exact h o ho)
  get ws hl o ho := by
    have hlt : o / 32 < ws.length := by rw [hl]; exact h o ho
    simp [bitmapGet, place_eq, hlt]
  zero ws hl := by
    unfold bitmapZero bitmapZeroLongs
    split
    · exact modifyWord_isSome.mpr (by omega)
    · simp [memsetWords, hl]
  fill ws hl := by
    have hz : bitsToLongs w nbits ≠ 0 := by omega
    by_cases hn : bitsToLongs w nbits > 1
    · have hle : bitsToLongs w nbits - 1 ≤ ws.length := by omega
      simp only [bitmapFill, hn, if_true, memsetWords, hle, Option.bind_eq_bind, Option.bind_some, hz,
        if_false]
      exact modifyWord_isSome.mpr (by simp; omega)
    · simp only [bitmapFill, hn, if_false, Option.bind_eq_bind, Option.bind_some, hz]
      exact modifyWord_isSome.mpr (by omega)
  copy ws src hl hs := by
    have hpos : 0 < src.length := by omega
    unfold bitmapCopy bitmapCopyLongs
    split
    · simp only [List.getElem?_eq_getElem hpos, Option.bind_eq_bind, Option.bind_some]
      exact modifyWord_isSome.mpr (by omega)
    · simp [memcpyWords, hl, hs]
  empty ws hl := noneBits_isSome (by omega) fun o ho => by rw [hl]; exact h o ho
  full ws hl := noneBits_isSome (by omega) fun o ho => by rw [hl]; exact h o ho
  findEmpty ws hl := findEmptyFrom_isSome (by omega)

/-- `bitmap_set` at the last offset already leaves storage that is too short. -/
theorem InBounds.reaches (h : InBounds w nbits) : Reaches w nbits := by
  intro o ho
  have hlen : (List.replicate (bitsToLongs w nbits) 0#w).length = bitsToLongs w nbits :=
    List.length_replicate
  have := modifyWord_isSome.mp (h.set _ hlen o ho)
  rwa [place_eq, hlen] at this

/-- **Bounds.** The nine functions stay inside `bitsToLongs w nbits` words at all contents and
offsets exactly when `long` has the 32 bits of `bitsPerLong`, or a single word holds the bitmap. -/
theorem inBounds_iff (hw : w = 32 ∨ w = 64) (h1 : 1 ≤ nbits) :
    InBounds w nbits ↔ w = 32 ∨ nbits ≤ 32 := by
  rw [← reaches_iff hw h1]
  exact ⟨InBounds.reaches, InBounds.of_reaches (bitsToLongs_pos hw h1)⟩

theorem inBounds_iff_32 : InBounds 32 64 :=
  (inBounds_iff (.inl rfl) (by decide)).mpr (.inl rfl)

/-- The bitmap of 64 bits of the test, on a 64-bit `long`: one word is reserved, and offset 32 is
looked for in a second. -/
theorem not_inBounds_64 : bitsToLongs 64 64 = 1 ∧ bitmapSet [0#64] 32 = none ∧ ¬ InBounds 64 64 := by
  refine ⟨by decide, by decide, fun h => ?_⟩
  have := h.set [0#64] (by decide) 32 (by decide)
  revert this
  decide

end Xbitmap
end Xlibc
