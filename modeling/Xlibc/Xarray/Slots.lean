import Mathlib.Data.List.Basic
import Xlibc.Xarray.Model

/-!
# Xlibc.Xarray.Slots

What the array functions do to the slots of any well-formed array, of whatever size. `Slots a xs`: the
first `count` slots are `xs`, every slot from `count` on is `NULL`, and the block has `size` slots.

* `xarrayAppend_alloc`, `xarrayAppend_emptied` : resizing to `n` slots, or to none.
* `storeIndex_eq` : storing below `size` succeeds, and only there.
* `closeGap_eq`, `shrink_eq` : closing the gap erases one position, and then the block may shrink.
-/

namespace Xlibc
namespace Xarray

variable {α : Type}

/-- An allocator that grants every request. -/
def granting : Nat → Bool := fun _ => true

structure Slots (a : XArray α) (xs : List (Option α)) : Prop where
  count : a.count = xs.length
  le : xs.length ≤ a.size
  data : a.data = xs ++ List.replicate (a.size - xs.length) none
  lt : a.size < 2 ^ 32

namespace Slots

variable {a : XArray α} {xs : List (Option α)} {i : Nat}

theorem length (h : Slots a xs) : a.data.length = a.size := by
  have := h.le
  rw [h.data, List.length_append, List.length_replicate]; omega

theorem get (h : Slots a xs) (hi : i < xs.length) : a.data[i]? = xs[i]? := by
  rw [h.data, List.getElem?_append_left hi]

theorem get_null (h : Slots a xs) (hi : xs.length ≤ i) (hs : i < a.size) : a.data[i]? = some none := by
  rw [h.data, List.getElem?_append_right hi, List.getElem?_replicate, if_pos (by omega)]

theorem exists_get (h : Slots a xs) (hs : i < a.size) : ∃ p, a.data[i]? = some p := by
  rw [← h.length] at hs
  exact ⟨a.data[i], List.getElem?_eq_getElem hs⟩

end Slots

/-! ## xarray_append -/

theorem reallocData_length (data : List (Option α)) (n : Nat) : (reallocData data n).length = n := by
  simp [reallocData]; omega

/-- Clearing the slots that `realloc` has just added changes nothing. -/
theorem memsetNull_realloc {data : List (Option α)} {n : Nat} (h : data.length ≤ n) :
    memsetNull (reallocData data n) data.length (n - data.length) = some (reallocData data n) := by
  have hr : reallocData data n = data ++ List.replicate (n - data.length) none := by
    rw [reallocData, List.take_of_length_le h]
  rw [memsetNull, if_pos (by rw [reallocData_length]; omega), hr, List.take_left,
    List.drop_of_length_le (by simp), List.append_nil]

/-- Resizing to `n` slots, when the allocator grants them. -/
theorem xarrayAppend_alloc {alloc : Nat → Bool} {a : XArray α} (hlen : a.data.length = a.size) {n : Nat}
    (hn : 0 < n) (hn' : n < 2 ^ 31) :
    xarrayAppend alloc a ((n : Int) - a.size) =
      if alloc n = false then some (-1, a)
      else some ((n : Int), { a with size := n, data := reallocData a.data n }) := by
  have hnew : i32OfNat (a.size + u32OfInt ((n : Int) - a.size)) = n := by
    unfold i32OfNat u32OfInt; split <;> omega
  have hpos : ¬ (n : Int) ≤ 0 := by omega
  simp only [xarrayAppend, hnew, hpos, if_false, Int.toNat_natCast]
  cases alloc n with
  | false => rfl
  | true =>
    by_cases hg : (n : Int) - a.size > 0
    · have hclear : memsetNull (reallocData a.data n) a.size ((n : Int) - a.size).toNat =
          some (reallocData a.data n) := by
        rw [← hlen, show ((n : Int) - a.data.length).toNat = n - a.data.length by omega]
        exact memsetNull_realloc (by omega)
      simp only [hg, if_true, hclear]
      rfl
    · simp only [hg, if_false]
      rfl

theorem xarrayAppend_eq {a : XArray α} (hlen : a.data.length = a.size) {n : Nat}
    (hn : 0 < n) (hn' : n < 2 ^ 31) :
    xarrayAppend granting a ((n : Int) - a.size) =
      some ((n : Int), { a with size := n, data := reallocData a.data n }) :=
  xarrayAppend_alloc hlen hn hn'

/-- `array->size + extents` is negative or zero as an `int`: the block is freed. -/
theorem xarrayAppend_emptied {alloc : Nat → Bool} {a : XArray α} {extents : Int}
    (h : i32OfNat (a.size + u32OfInt extents) ≤ 0) :
    xarrayAppend alloc a extents = some (0, { a with size := 0, count := 0, data := [] }) := by
  simp [xarrayAppend, h]

/-- Clearing slots behind the old ones, wherever it succeeds, changes nothing. -/
theorem memsetNull_behind {data data' : List (Option α)} {n m : Nat}
    (h : memsetNull (reallocData data n) data.length m = some data') : data' = reallocData data n := by
  unfold memsetNull at h
  split at h
  · rename_i hle
    rw [reallocData_length] at hle
    have hr : reallocData data n = data ++ List.replicate (n - data.length) none := by
      rw [reallocData, List.take_of_length_le (by omega)]
    have hsplit : List.replicate (n - data.length) (none : Option α) =
        List.replicate m none ++ List.replicate (n - data.length - m) none := by
      rw [← List.replicate_add]
      congr 1
      omega
    have hdrop : (data ++ List.replicate (n - data.length) none).drop (data.length + m) =
        List.replicate (n - data.length - m) none := by
      rw [List.drop_append, List.drop_of_length_le (by omega), List.drop_replicate, List.nil_append]
      congr 1
      omega
    cases h
    rw [hr, List.take_left, hdrop, List.append_assoc, ← hsplit]
  · cases h

/-- Whatever the arguments, `xarray_append` fails, resizes or frees. -/
theorem xarrayAppend_cases {alloc : Nat → Bool} {a a' : XArray α} (hlen : a.data.length = a.size)
    {extents r : Int} (h : xarrayAppend alloc a extents = some (r, a')) :
    (r = -1 ∧ a' = a) ∨ (0 ≤ r ∧ (a' = { a with size := 0, count := 0, data := [] } ∨
      ∃ n, n < 2 ^ 31 ∧ a' = { a with size := n, data := reallocData a.data n })) := by
  by_cases hneg : i32OfNat (a.size + u32OfInt extents) ≤ 0
  · rw [xarrayAppend_emptied hneg] at h
    cases h
    exact .inr ⟨Int.le_refl 0, .inl rfl⟩
  · generalize hn : i32OfNat (a.size + u32OfInt extents) = newsize at hneg
    have hlt : newsize.toNat < 2 ^ 31 := by
      unfold i32OfNat at hn
      split at hn <;> omega
    cases hgrant : alloc newsize.toNat with
    | false =>
      simp only [xarrayAppend, hn, hneg, if_false, hgrant, if_true] at h
      cases h
      exact .inl ⟨rfl, rfl⟩
    | true =>
      simp only [xarrayAppend, hn, hneg, if_false, hgrant, Bool.true_eq_false] at h
      split at h
      · obtain ⟨data, hdata, ha'⟩ := Option.bind_eq_some_iff.mp h
        cases ha'
        rw [← hlen] at hdata
        exact .inr ⟨by omega, .inr ⟨_, hlt, by rw [memsetNull_behind hdata]⟩⟩
      · cases h
        exact .inr ⟨by omega, .inr ⟨_, hlt, rfl⟩⟩

/-- Resizing to `count` slots or more keeps the slots in use. -/
theorem Slots.resize {a : XArray α} {xs : List (Option α)} (h : Slots a xs) {n : Nat}
    (hle : xs.length ≤ n) (hlt : n < 2 ^ 32) :
    Slots { a with size := n, data := reallocData a.data n } xs := by
  refine ⟨h.count, hle, ?_, hlt⟩
  have := h.le
  show reallocData a.data n = xs ++ List.replicate (n - xs.length) none
  rw [reallocData, h.length, h.data, List.take_append, List.take_of_length_le hle, List.take_replicate,
    List.append_assoc, ← List.replicate_add]
  congr 2
  omega

theorem Slots.emptied (a : XArray α) :
    Slots ({ a with size := 0, count := 0, data := [] } : XArray α) [] :=
  ⟨rfl, Nat.le_refl _, rfl, show 0 < 2 ^ 32 by decide⟩

/-! ## Storing -/

/-- A slot is stored exactly when it is there. -/
theorem storeIndex_eq {a : XArray α} (hlen : a.data.length = a.size) (hlt : a.size < 2 ^ 32) (i : Nat)
    (p : Option α) :
    storeIndex a i p =
      if i < a.size then some (0, { a with count := max a.count (i + 1), data := a.data.set i p })
      else none := by
  by_cases hi : i < a.size
  · have hu : u32 (i + 1) = i + 1 := u32_of_lt (by omega)
    have hmax : (if u32 (i + 1) > a.count then u32 (i + 1) else a.count) = max a.count (i + 1) := by
      rw [hu]
      split <;> omega
    have hstore : storeSlot a.data i p = some (a.data.set i p) := by
      rw [storeSlot, if_pos (by omega)]
    rw [if_pos hi, storeIndex, hstore, hmax]
    rfl
  · simp [storeIndex, storeSlot, hlen, hi]

theorem Slots.store {a : XArray α} {xs : List (Option α)} (h : Slots a xs) {i : Nat} (hi : i < a.size)
    (p : Option α) :
    Slots { a with count := max a.count (i + 1), data := a.data.set i p }
      ((a.data.set i p).take (max a.count (i + 1))) := by
  have hlen := h.length
  have hle := h.le
  have hcount := h.count
  have htake : ((a.data.set i p).take (max a.count (i + 1))).length = max a.count (i + 1) := by
    rw [List.length_take, List.length_set]
    omega
  refine ⟨htake.symm, ?_, ?_, h.lt⟩
  · rw [htake]
    show max a.count (i + 1) ≤ a.size
    omega
  · -- the slots behind the last one in use are still `NULL`
    have hdrop : (a.data.set i p).drop (max a.count (i + 1)) =
        List.replicate (a.size - max a.count (i + 1)) none := by
      rw [List.drop_set_of_lt (by omega), h.data, List.drop_append,
        List.drop_of_length_le (by omega), List.drop_replicate, List.nil_append]
      congr 1
      omega
    rw [htake]
    show a.data.set i p = _ ++ List.replicate (a.size - max a.count (i + 1)) none
    rw [← hdrop, List.take_append_drop]

/-! ## Closing a gap -/

/-- Moving the tail down over position `i` and clearing the last slot. -/
theorem memmove_spec {xs : List (Option α)} {i m : Nat} (hi : i + 1 < xs.length) :
    ∃ data, memmove (xs ++ List.replicate m none) i (i + 1) (xs.length - i - 1) = some data ∧
      storeSlot data (xs.length - 1) none = some (xs.eraseIdx i ++ List.replicate (m + 1) none) := by
  have hmove : memmove (xs ++ List.replicate m none) i (i + 1) (xs.length - i - 1) =
      some (xs.eraseIdx i ++ xs.drop (xs.length - 1) ++ List.replicate m none) := by
    have hlen : (xs.drop (i + 1)).length = xs.length - i - 1 := by rw [List.length_drop]; omega
    have hsum : i + (xs.length - i - 1) = xs.length - 1 := by omega
    rw [memmove, if_pos (by rw [List.length_append]; omega), hsum,
      List.take_append_of_le_length (by omega), List.drop_append_of_le_length (by omega : i + 1 ≤ _),
      List.take_append_of_le_length (by omega),
      List.take_of_length_le (by omega : (xs.drop (i + 1)).length ≤ xs.length - i - 1),
      List.drop_append_of_le_length (by omega), List.eraseIdx_eq_take_drop_succ]
    simp only [List.append_assoc]
  have herase : (xs.eraseIdx i).length = xs.length - 1 := List.length_eraseIdx_of_lt (by omega)
  refine ⟨_, hmove, ?_⟩
  rw [storeSlot, if_pos (by simp [herase]; omega), List.append_assoc,
    List.set_append_right _ _ (by omega), herase, Nat.sub_self,
    List.drop_eq_getElem_cons (by omega : xs.length - 1 < xs.length),
    List.drop_of_length_le (by omega : xs.length ≤ xs.length - 1 + 1)]
  rfl

/-- The count drops and position `i` goes, whichever branch closes the gap; then comes the shrink. -/
theorem closeGap_eq {alloc : Nat → Bool} {a : XArray α} {xs : List (Option α)} (h : Slots a xs) {i : Nat}
    (hi : i < xs.length) {b : XArray α}
    (hb : b = { a with count := xs.length - 1,
                       data := xs.eraseIdx i ++ List.replicate (a.size - (xs.length - 1)) none }) :
    closeGap alloc a i =
      if b.appendEnable ∧ b.count ≤ b.size / 2 then
        (xarrayAppend alloc b (i32OfNat (u32Sub 0 b.count))).bind fun r => some r.2
      else some b := by
  have hle := h.le
  have hlt := h.lt
  have hlast : u32Sub xs.length 1 = xs.length - 1 := u32Sub_of_le (by omega) (by omega)
  rw [closeGap, h.count, hlast]
  by_cases hil : i = xs.length - 1
  · have hstore : storeSlot a.data i none =
        some (xs.eraseIdx i ++ List.replicate (a.size - (xs.length - 1)) none) := by
      have hsz : a.size - (xs.length - 1) = (a.size - xs.length) + 1 := by omega
      rw [storeSlot, if_pos (by rw [h.length]; omega), h.data, List.set_append_left _ _ hi,
        List.set_eq_take_append_cons_drop, if_pos hi, List.eraseIdx_eq_take_drop_succ, hsz,
        List.drop_of_length_le (by omega : xs.length ≤ i + 1), List.append_assoc, List.append_nil]
      rfl
    simp only [hil, if_true] at hstore ⊢
    rw [hstore]
    simp only [Option.bind_eq_bind, Option.bind_some, hb, hil]
  · obtain ⟨data, hmove, hstore⟩ := memmove_spec (m := a.size - xs.length) (by omega : i + 1 < xs.length)
    have hn : u32Sub (u32Sub xs.length i) 1 = xs.length - i - 1 := by
      have h1 : u32Sub xs.length i = xs.length - i := u32Sub_of_le (by omega) (by omega)
      rw [h1, u32Sub_of_le (by omega) (by omega)]
    rw [← h.data] at hmove
    rw [show a.size - xs.length + 1 = a.size - (xs.length - 1) by omega] at hstore
    simp only [hil, if_false, hn, hmove, hstore, Option.bind_eq_bind, Option.bind_some, hb]

theorem Slots.cut {a : XArray α} {xs : List (Option α)} (h : Slots a xs) {i : Nat} (hi : i < xs.length) :
    Slots { a with count := xs.length - 1,
                   data := xs.eraseIdx i ++ List.replicate (a.size - (xs.length - 1)) none }
      (xs.eraseIdx i) := by
  have herase : (xs.eraseIdx i).length = xs.length - 1 := List.length_eraseIdx_of_lt hi
  have := h.le
  exact ⟨herase.symm, by rw [herase]; show _ ≤ a.size; omega, by rw [herase], h.lt⟩

/-- Shrinking by the count, when at most half of the slots are in use. A block of `2^31` slots or more
is freed instead. -/
theorem shrink_eq {alloc : Nat → Bool} {b : XArray α} {xs : List (Option α)} (h : Slots b xs)
    (hpos : 0 < b.size) (hle : b.count ≤ b.size / 2) :
    xarrayAppend alloc b (i32OfNat (u32Sub 0 b.count)) =
      if b.size - b.count < 2 ^ 31 then
        if alloc (b.size - b.count) = false then some (-1, b)
        else some (((b.size - b.count : Nat) : Int),
          { b with size := b.size - b.count, data := reallocData b.data (b.size - b.count) })
      else some (0, { b with size := 0, count := 0, data := [] }) := by
  have hlt := h.lt
  have hext : i32OfNat (u32Sub 0 b.count) = ((b.size - b.count : Nat) : Int) - b.size := by
    unfold i32OfNat u32Sub; split <;> omega
  rw [hext]
  by_cases hfit : b.size - b.count < 2 ^ 31
  · rw [if_pos hfit, xarrayAppend_alloc h.length (by omega) hfit]
  · rw [if_neg hfit, xarrayAppend_emptied]
    unfold i32OfNat u32OfInt
    split <;> omega

/-- Whether a removal frees the whole block: the size that it shrinks to is no `int`. -/
def Frees (a : XArray α) : Prop :=
  a.appendEnable = true ∧ a.count - 1 ≤ a.size / 2 ∧ 2 ^ 31 ≤ a.size - (a.count - 1)

theorem closeGap_keeps (alloc : Nat → Bool) {a : XArray α} {xs : List (Option α)} (h : Slots a xs)
    {i : Nat} (hi : i < xs.length) (hfit : ¬ Frees a) :
    ∃ a', closeGap alloc a i = some a' ∧ Slots a' (xs.eraseIdx i) ∧
      a'.appendEnable = a.appendEnable ∧ a'.size ≤ a.size := by
  have hcut := h.cut hi
  have hle := h.le
  rw [closeGap_eq h hi rfl]
  split
  · rename_i hshrink
    obtain ⟨hen, hhalf⟩ := hshrink
    rw [shrink_eq hcut (by show 0 < a.size; omega) hhalf]
    have hlt : a.size - (xs.length - 1) < 2 ^ 31 := by
      by_contra hge
      exact hfit ⟨hen, by rw [h.count]; exact hhalf, by rw [h.count]; omega⟩
    rw [if_pos (by exact hlt)]
    split
    · exact ⟨_, rfl, hcut, rfl, Nat.le_refl _⟩
    · have hroom : (xs.eraseIdx i).length ≤ a.size - (xs.length - 1) := by
        rw [List.length_eraseIdx_of_lt hi]
        change xs.length - 1 ≤ a.size / 2 at hhalf
        omega
      exact ⟨_, rfl, hcut.resize hroom (by show a.size - (xs.length - 1) < 2 ^ 32; omega), rfl,
        Nat.sub_le _ _⟩
  · exact ⟨_, rfl, hcut, rfl, Nat.le_refl _⟩

theorem closeGap_frees (alloc : Nat → Bool) {a : XArray α} {xs : List (Option α)} (h : Slots a xs)
    {i : Nat} (hi : i < xs.length) (hfrees : Frees a) :
    closeGap alloc a i = some { a with size := 0, count := 0, data := [] } := by
  have hle := h.le
  obtain ⟨hen, hhalf, hlarge⟩ := hfrees
  rw [h.count] at hhalf hlarge
  rw [closeGap_eq h hi rfl, if_pos ⟨hen, hhalf⟩, shrink_eq (h.cut hi) (by show 0 < a.size; omega) hhalf,
    if_neg (by show ¬ a.size - (xs.length - 1) < 2 ^ 31; omega)]
  rfl

/-- Clearing a slot in use. -/
theorem Slots.clear {a : XArray α} {xs : List (Option α)} {i : Nat} (h : Slots a xs)
    (hi : i < xs.length) :
    Slots { a with data := a.data.set i none } (xs.set i none) := by
  refine ⟨by rw [List.length_set]; exact h.count, by rw [List.length_set]; exact h.le, ?_, h.lt⟩
  show a.data.set i none = _
  rw [h.data, List.set_append_left _ _ hi, List.length_set]

theorem xarrayRemoveIndex_below (alloc : Nat → Bool) {a : XArray α} {xs : List (Option α)} {i : Nat}
    (h : Slots a xs) (hi : i < xs.length) :
    xarrayRemoveIndex alloc a (i : Int) =
      (closeGap alloc { a with data := a.data.set i none } i).map fun a' => (xs[i], a') := by
  have hle := h.le
  have hlt := h.lt
  have hidx : ¬ u32OfInt (i : Int) ≥ a.size := by rw [u32OfInt_ofNat (by omega)]; omega
  have hnn : ¬ (i : Int) < 0 := by omega
  have hget : a.data[i]? = some xs[i] := by rw [h.get hi, List.getElem?_eq_getElem hi]
  have hstore : storeSlot a.data i none = some (a.data.set i none) := by
    rw [storeSlot, if_pos (by rw [h.length]; omega)]
  simp only [xarrayRemoveIndex, hidx, hnn, if_false, Int.toNat_natCast, hget, hstore,
    Option.bind_eq_bind, Option.bind_some]
  cases closeGap alloc { a with data := a.data.set i none } i <;> rfl

end Xarray
end Xlibc
