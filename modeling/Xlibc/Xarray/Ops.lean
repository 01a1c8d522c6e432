import Xlibc.Xarray.Slots

/-!
# Xlibc.Xarray.Ops

What each array function does to the slots. `Holds a xs` is the representation invariant: the first
`count` slots are `xs`, every slot from `count` on is `NULL`, and the block has exactly `size >= 1`
slots. Every function keeps it.

* `closeGap_spec`    : closing the gap erases one position, and the shrink loses nothing.
* `xarraySet_spec`   : storing at `count` appends, or fails on a full array that cannot grow.
-/

namespace Xlibc
namespace Xarray

variable {α : Type}

structure Holds (a : XArray α) (xs : List (Option α)) : Prop where
  count : a.count = xs.length
  le : xs.length ≤ a.size
  data : a.data = xs ++ List.replicate (a.size - xs.length) none
  pos : 1 ≤ a.size
  lt : a.size < 2 ^ 31

theorem Holds.slots {a : XArray α} {xs : List (Option α)} (h : Holds a xs) : Slots a xs := by
  have := h.lt
  exact ⟨h.count, h.le, h.data, by omega⟩

theorem Holds.length {a : XArray α} {xs : List (Option α)} (h : Holds a xs) :
    a.data.length = a.size :=
  h.slots.length

theorem Holds.get {a : XArray α} {xs : List (Option α)} (h : Holds a xs) {i : Nat}
    (hi : i < xs.length) : a.data[i]? = xs[i]? :=
  h.slots.get hi

theorem Holds.get_null {a : XArray α} {xs : List (Option α)} (h : Holds a xs) {i : Nat}
    (hi : xs.length ≤ i) (hs : i < a.size) : a.data[i]? = some none :=
  h.slots.get_null hi hs

theorem xarrayCreate_holds {size : Nat} (h1 : 1 ≤ size) (h2 : size < 2 ^ 31) (en : Bool) :
    ∃ a : XArray α, xarrayCreate size en = some a ∧ Holds a [] ∧ a.size = size ∧
      a.appendEnable = en :=
  ⟨_, if_pos h1, ⟨rfl, Nat.zero_le _, by simp, h1, h2⟩, rfl, rfl⟩

/-! ## xarray_append -/

/-- Resizing keeps the slots in use. -/
theorem Holds.resize {a : XArray α} {xs : List (Option α)} (h : Holds a xs) {n : Nat}
    (hn : 0 < n) (hle : xs.length ≤ n) (hlt : n < 2 ^ 31) :
    Holds { a with size := n, data := reallocData a.data n } xs := by
  have hs := h.slots.resize hle (n := n) (by omega)
  exact ⟨hs.count, hs.le, hs.data, hn, hlt⟩

/-! ## Storing -/

theorem storeIndex_spec {a : XArray α} {xs : List (Option α)} (h : Holds a xs) {i : Nat}
    (hi : i ≤ xs.length) (hs : i < a.size) (p : Option α) :
    ∃ a', storeIndex a i p = some (0, a') ∧ Holds a' (xs.take i ++ p :: xs.drop (i + 1)) ∧
      a'.size = a.size ∧ a'.appendEnable = a.appendEnable := by
  have hlt := h.lt
  have hu : u32 (i + 1) = i + 1 := u32_of_lt (by omega)
  have hlen : (xs.take i ++ p :: xs.drop (i + 1)).length = max (i + 1) xs.length := by
    simp; omega
  refine ⟨{ a with count := max (i + 1) xs.length, data := a.data.set i p }, ?_, ⟨hlen.symm, ?_, ?_,
    h.pos, hlt⟩, rfl, rfl⟩
  · simp only [storeIndex, hu, h.count, storeSlot, h.length, hs, if_true, Option.bind_eq_bind,
      Option.bind_some, Option.some.injEq, Prod.mk.injEq, true_and]
    congr 1
    split <;> omega
  · have := h.le; rw [hlen]; show _ ≤ a.size; omega
  · show a.data.set i p = _
    rw [hlen, h.data]
    rcases Nat.lt_or_ge i xs.length with hlt' | hge
    · rw [List.set_append_left _ _ hlt', List.set_eq_take_append_cons_drop, if_pos hlt',
        show max (i + 1) xs.length = xs.length by omega]
    · have heq : i = xs.length := by omega
      subst heq
      obtain ⟨m, hm⟩ : ∃ m, a.size - xs.length = m + 1 := ⟨a.size - xs.length - 1, by omega⟩
      rw [List.set_append_right _ _ (Nat.le_refl _), hm, List.replicate_succ, Nat.sub_self,
        List.set_cons_zero, List.take_of_length_le (Nat.le_refl _),
        List.drop_of_length_le (by omega : xs.length ≤ xs.length + 1),
        show a.size - max (xs.length + 1) xs.length = m by omega, List.append_assoc]
      rfl

/-- Storing at an index in use replaces it. -/
theorem xarrayFsetIndex_spec {a : XArray α} {xs : List (Option α)} (h : Holds a xs) {i : Nat}
    (hi : i < xs.length) (p : Option α) :
    ∃ a', xarrayFsetIndex granting a i p = some (0, a') ∧ Holds a' (xs.set i p) ∧
      a'.size = a.size ∧ a'.appendEnable = a.appendEnable := by
  have hs : i < a.size := by have := h.le; omega
  obtain ⟨a', hst, hh, hsz, hen⟩ := storeIndex_spec h (by omega) hs p
  have hset : xs.set i p = xs.take i ++ p :: xs.drop (i + 1) := by
    rw [List.set_eq_take_append_cons_drop, if_pos hi]
  rw [← hset] at hh
  obtain ⟨old, hold⟩ : ∃ old, a.data[i]? = some old := by
    rw [h.get hi]; exact ⟨xs[i], List.getElem?_eq_getElem hi⟩
  exact ⟨a', by simp [xarrayFsetIndex, setIndex, hs, hold, hst], hh, hsz, hen⟩

/-- Storing at `count`: an append, with the block doubled when it is full. -/
theorem xarraySet_spec {a : XArray α} {xs : List (Option α)} (h : Holds a xs)
    (hs : xs.length = a.size → a.size < 2 ^ 30) (p : Option α) :
    (a.appendEnable = false ∧ xs.length = a.size ∧ xarraySet granting a p = some (-1, a)) ∨
    (∃ a', (a.appendEnable = false → xs.length < a.size) ∧ xarraySet granting a p = some (0, a') ∧
      Holds a' (xs ++ [p]) ∧ a'.appendEnable = a.appendEnable ∧
      a'.size = if xs.length < a.size then a.size else 2 * a.size) := by
  have hle := h.le
  have hpos := h.pos
  have hend : ∀ b : XArray α, Holds b xs → xs.length < b.size →
      ∃ b', storeIndex b xs.length p = some (0, b') ∧ Holds b' (xs ++ [p]) ∧ b'.size = b.size ∧
        b'.appendEnable = b.appendEnable := by
    intro b hb hlt
    obtain ⟨b', h1, h2, h3⟩ := storeIndex_spec hb (Nat.le_refl _) hlt p
    rw [List.take_of_length_le (Nat.le_refl _), List.drop_of_length_le (by omega)] at h2
    exact ⟨b', h1, h2, h3⟩
  rcases Nat.lt_or_ge xs.length a.size with hroom | hfull
  · -- the slot past the last one is `NULL`
    right
    obtain ⟨a', hst, hh, hsz, hen⟩ := hend a h hroom
    have hnull := h.get_null (Nat.le_refl _) hroom
    exact ⟨a', fun _ => hroom, by simp [xarraySet, xarraySetIndex, setIndex, h.count, hroom, hnull, hst],
      hh, hen, by rw [hsz, if_pos hroom]⟩
  · have hbelow := hs (by omega)
    have hno : ¬ xs.length < a.size := by omega
    cases hen : a.appendEnable with
    | false =>
      left
      exact ⟨rfl, by omega, by simp [xarraySet, xarraySetIndex, setIndex, h.count, hno, hen]⟩
    | true =>
      right
      have h2 : u32 (a.size * 2) = 2 * a.size := by rw [u32_of_lt (by omega)]; omega
      have hnew : i32OfNat (2 * a.size) = ((2 * a.size : Nat) : Int) := i32OfNat_of_lt (by omega)
      have hext : i32OfNat (u32Sub (u32OfInt ((2 * a.size : Nat) : Int)) a.size) =
          ((2 * a.size : Nat) : Int) - a.size := by
        rw [u32OfInt_ofNat (by omega), u32Sub_of_le (by omega) (by omega), i32OfNat_of_lt (by omega)]
        omega
      obtain ⟨a', hst, hh, hsz, hen'⟩ := hend _ (h.resize (n := 2 * a.size) (by omega) (by omega)
        (by omega)) (by show xs.length < 2 * a.size; omega)
      have hcmp : ¬ 2 * a.size < xs.length := by omega
      have hneg : ¬ ((2 * a.size : Nat) : Int) < 0 := by omega
      refine ⟨a', by simp, ?_, hh, by rw [hen', hen], by rw [hsz, if_neg hno]⟩
      simp only [xarraySet, xarraySetIndex, setIndex, h.count, hno, if_false, hen, Bool.true_eq_false,
        h2, hcmp, hnew, hext]
      rw [xarrayAppend_eq h.length (by omega) (by omega)]
      simp only [Option.bind_eq_bind, Option.bind_some, hneg, if_false]
      exact hst

/-! ## Removing -/

/-- The count drops and position `i` goes, whichever branch closes the gap. -/
theorem closeGap_cut {a : XArray α} {xs : List (Option α)} (h : Holds a xs) {i : Nat}
    (hi : i < xs.length) :
    Holds { a with count := xs.length - 1,
                   data := xs.eraseIdx i ++ List.replicate (a.size - (xs.length - 1)) none }
      (xs.eraseIdx i) := by
  have hc := h.slots.cut hi
  exact ⟨hc.count, hc.le, hc.data, h.pos, h.lt⟩

theorem closeGap_spec {a : XArray α} {xs : List (Option α)} (h : Holds a xs) {i : Nat}
    (hi : i < xs.length) :
    ∃ a', closeGap granting a i = some a' ∧ Holds a' (xs.eraseIdx i) ∧
      a'.appendEnable = a.appendEnable ∧ (a.appendEnable = false → a'.size = a.size) := by
  have hle := h.le
  have hcut := closeGap_cut h hi
  have hgap := @closeGap_eq _ granting _ _ h.slots _ hi _ rfl
  generalize hb : ({ a with count := xs.length - 1,
                            data := xs.eraseIdx i ++ List.replicate (a.size - (xs.length - 1)) none } :
    XArray α) = b at hcut hgap
  have hbs : b.size = a.size := by rw [← hb]
  have hbe : b.appendEnable = a.appendEnable := by rw [← hb]
  rw [hgap]
  by_cases hshrink : b.appendEnable = true ∧ b.count ≤ b.size / 2
  · have hbc := hcut.count
    have hlt := hcut.lt
    rw [if_pos hshrink, shrink_eq hcut.slots hcut.pos hshrink.2, if_pos (by omega), if_neg (by simp [granting])]
    refine ⟨_, rfl, hcut.resize (by have := hcut.pos; omega) (by omega) (by have := hcut.lt; omega),
      hbe, fun hoff => ?_⟩
    rw [← hbe, hshrink.1] at hoff
    cases hoff
  · rw [if_neg hshrink]
    exact ⟨b, rfl, hcut, hbe, fun _ => hbs⟩

/-- Removing at an index in use returns the slot and erases the position. -/
theorem xarrayRemoveIndex_spec {a : XArray α} {xs : List (Option α)} (h : Holds a xs) {i : Nat}
    (hi : i < xs.length) :
    ∃ a', xarrayRemoveIndex granting a (i : Int) = some (xs[i], a') ∧ Holds a' (xs.eraseIdx i) ∧
      a'.appendEnable = a.appendEnable ∧ (a.appendEnable = false → a'.size = a.size) := by
  have hclear := h.slots.clear hi
  have hholds : Holds { a with data := a.data.set i none } (xs.set i none) :=
    ⟨hclear.count, hclear.le, hclear.data, h.pos, h.lt⟩
  obtain ⟨a', hgap, hh, hen, hsz⟩ := closeGap_spec hholds (i := i) (by rw [List.length_set]; exact hi)
  rw [List.eraseIdx_set_eq] at hh
  refine ⟨a', ?_, hh, hen, hsz⟩
  rw [xarrayRemoveIndex_below granting h.slots hi, hgap, Option.map_some]

/-- Removing the last element; an empty array gives `NULL` and stays as it is, because the index
`-1` is not below any size. -/
theorem xarrayRemove_spec {a : XArray α} {xs : List (Option α)} (h : Holds a xs) :
    (xs = [] ∧ xarrayRemove granting a = some (none, a)) ∨
    (∃ p a', xs.getLast? = some p ∧ xarrayRemove granting a = some (p, a') ∧ Holds a' xs.dropLast ∧
      a'.appendEnable = a.appendEnable ∧ (a.appendEnable = false → a'.size = a.size)) := by
  have hle := h.le
  have hlt := h.lt
  rcases xs.eq_nil_or_concat' with rfl | ⟨ys, p, rfl⟩
  · left
    have hneg : i32OfNat (u32Sub a.count 1) = -1 := by
      rw [h.count, List.length_nil]; decide
    have hbig : u32OfInt (-1) ≥ a.size := by
      have : u32OfInt (-1) = 2 ^ 32 - 1 := by decide
      omega
    exact ⟨rfl, by rw [xarrayRemove, hneg, xarrayRemoveIndex, if_pos hbig]⟩
  · right
    have hlen : (ys ++ [p]).length = ys.length + 1 := by simp
    have hidx : i32OfNat (u32Sub a.count 1) = (ys.length : Int) := by
      rw [h.count, hlen, u32Sub_of_le (by omega) (by omega), i32OfNat_of_lt (by omega)]
      rfl
    obtain ⟨a', hrem, hh, hen, hsz⟩ := xarrayRemoveIndex_spec h (i := ys.length) (by omega)
    refine ⟨p, a', by simp, ?_, ?_, hen, hsz⟩
    · rw [xarrayRemove, hidx, hrem]
      simp
    · rw [List.eraseIdx_append_of_length_le (Nat.le_refl _)] at hh
      simpa using hh

end Xarray
end Xlibc
