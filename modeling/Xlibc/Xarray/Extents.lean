import Xlibc.Base.Run
import Xlibc.Xarray.Slots

/-!
# Xlibc.Xarray.Extents

Indices and extents that the caller chooses freely, on any well-formed array.

* `xarrayFsetIndex_places_iff` : storing past the end works unless the index is twice the size.
* `xarrayRemoveIndex_iff`      : removing works below `count` and from `size` on, not between the two.
* `xarrayAppend_keeps_iff`     : `xarray_append` keeps the array well formed unless it cuts off elements or
  leaves nothing to double.
-/

namespace Xlibc
namespace Xarray

variable {α : Type} {a : XArray α} {xs : List (Option α)}

/-! ## Storing at any index -/

/-- What storing `ptr` at `index` should make of an array. -/
structure Placed (a : XArray α) (index : Nat) (ptr : Option α) (a' : XArray α) : Prop where
  count : a'.count = max a.count (index + 1)
  le : a'.count ≤ a'.size
  length : a'.data.length = a'.size
  get : xarrayGet a' index = some ptr
  old : ∀ i, i < a.size → i ≠ index → a'.data[i]? = a.data[i]?
  new : ∀ i, a.size ≤ i → i < a'.size → i ≠ index → a'.data[i]? = some none

/-- A call of `xarray_fset_index` or `xarray_set_index` succeeds, and stores `ptr`. -/
def Places (a : XArray α) (index : Nat) (ptr : Option α) (call : Option (Int × XArray α)) : Prop :=
  ∃ a', call = some (0, a') ∧ Placed a index ptr a'

theorem reallocData_get {data : List (Option α)} {n i : Nat} (hle : data.length ≤ n) (hi : i < n) :
    (reallocData data n)[i]? = if i < data.length then data[i]? else some none := by
  rw [reallocData, List.take_of_length_le hle]
  split
  · rw [List.getElem?_append_left (by assumption)]
  · rw [List.getElem?_append_right (by omega), List.getElem?_replicate, if_pos (by omega)]

/-- The array resized to `n` slots, or left as it is, and then stored to. -/
theorem placed_resize (h : Slots a xs) {n index : Nat} (hn : a.size ≤ n) (hi : index < n)
    (hidx : index < 2 ^ 30) (ptr : Option α) :
    Placed a index ptr { a with size := n, count := max a.count (index + 1),
                                data := (reallocData a.data n).set index ptr } := by
  have hlen := h.length
  have hcount := h.count
  have hle := h.le
  refine ⟨rfl, ?_, ?_, ?_, ?_, ?_⟩
  · show max a.count (index + 1) ≤ n
    omega
  · rw [List.length_set, reallocData_length]
  · have hu : ¬ u32OfInt (index : Int) ≥ n := by
      rw [u32OfInt_ofNat (by omega)]
      omega
    have hneg : ¬ (index : Int) < 0 := by omega
    simp only [xarrayGet, hu, hneg, if_false, Int.toNat_natCast]
    rw [List.getElem?_set_self (by rw [reallocData_length]; exact hi)]
  · intro i his hne
    rw [List.getElem?_set_ne (Ne.symm hne), reallocData_get (by omega) (by omega), if_pos (by omega)]
  · intro i his hin hne
    rw [List.getElem?_set_ne (Ne.symm hne), reallocData_get (by omega) hin, if_neg (by omega)]

theorem reallocData_self (data : List (Option α)) : reallocData data data.length = data := by
  simp [reallocData]

/-- A slot of the array that is `NULL`, or that may be overwritten. -/
theorem setIndex_inside (h : Slots a xs) {index : Nat} (hi : index < a.size) (hidx : index < 2 ^ 30)
    (ptr : Option α) {force : Bool} (hfree : force = true ∨ ∀ p, a.data[index]? ≠ some (some p)) :
    Places a index ptr (setIndex granting a index ptr force) := by
  obtain ⟨old, hold⟩ := h.exists_get hi
  have hopen : ¬ (old.isSome = true ∧ force = false) := by
    rintro ⟨hsome, hforce⟩
    obtain ⟨p, rfl⟩ := Option.isSome_iff_exists.mp hsome
    rcases hfree with htrue | hnull
    · rw [hforce] at htrue
      cases htrue
    · exact hnull p hold
  have hplaced := placed_resize h (Nat.le_refl _) hi hidx ptr
  have hself : reallocData a.data a.size = a.data := by
    rw [← h.length]
    exact reallocData_self a.data
  rw [hself] at hplaced
  refine ⟨_, ?_, hplaced⟩
  simp only [setIndex, hi, if_true, hold, Option.bind_eq_bind, Option.bind_some, hopen, if_false]
  rw [storeIndex_eq h.length h.lt, if_pos hi]

/-- A new size that is no positive `int` frees the block, and there is nothing to store to. -/
theorem setIndex_freed (hen : a.appendEnable = true) (hlt : a.size < 2 ^ 32) {index : Nat}
    (hi : a.size ≤ index) {m : Nat}
    (hm : (if u32 (a.size * 2) < index then u32 (index + 1) else u32 (a.size * 2)) = m)
    (hneg : i32OfNat m ≤ 0) (ptr : Option α) (force : Bool) :
    setIndex granting a index ptr force = none := by
  have hno : ¬ index < a.size := by omega
  have hsum : i32OfNat (a.size + u32OfInt (i32OfNat (u32Sub (u32OfInt (i32OfNat m)) a.size))) ≤ 0 := by
    unfold i32OfNat u32OfInt u32Sub at *
    split at hneg <;> split <;> split <;> omega
  simp only [setIndex, hno, if_false, hen, Bool.true_eq_false, hm]
  rw [xarrayAppend_emptied hsum]
  rfl

/-- Past the end the array is resized to `index + 1` slots or doubled, and the doubled block does not
reach the index `2 * size`. -/
theorem setIndex_outside (h : Slots a xs) (hen : a.appendEnable = true) {index : Nat}
    (hi : a.size ≤ index) (hidx : index < 2 ^ 30) (ptr : Option α) (force : Bool) :
    Places a index ptr (setIndex granting a index ptr force) ↔ index ≠ 2 * a.size := by
  have hno : ¬ index < a.size := by omega
  have hdouble : u32 (a.size * 2) = 2 * a.size := by rw [u32_of_lt (by omega)]; omega
  have hsucc : u32 (index + 1) = index + 1 := u32_of_lt (by omega)
  have hgrow : (if u32 (a.size * 2) < index then u32 (index + 1) else u32 (a.size * 2)) =
      if 2 * a.size < index then index + 1 else 2 * a.size := by
    rw [hdouble, hsucc]
  generalize hn : (if 2 * a.size < index then index + 1 else 2 * a.size) = n at hgrow
  have hnlt : n < 2 ^ 31 := by split at hn <;> omega
  have hnle : a.size ≤ n := by split at hn <;> omega
  by_cases hpos : n = 0
  · -- an array without slots stays one
    have hzero : index = 2 * a.size := by split at hn <;> omega
    rw [setIndex_freed hen h.lt hi hgrow (by rw [hpos]; decide)]
    simp [Places, hzero]
  · have hext : i32OfNat (u32Sub (u32OfInt (n : Int)) a.size) = (n : Int) - a.size := by
      rw [u32OfInt_ofNat (by omega), u32Sub_of_le hnle (by omega), i32OfNat_of_lt (by omega)]
      omega
    have hnonneg : ¬ (n : Int) < 0 := by omega
    have hcall : setIndex granting a index ptr force =
        storeIndex { a with size := n, data := reallocData a.data n } index ptr := by
      simp only [setIndex, hno, if_false, hen, Bool.true_eq_false, hgrow, i32OfNat_of_lt hnlt, hext]
      rw [xarrayAppend_eq h.length (by omega) hnlt]
      simp only [Option.bind_eq_bind, Option.bind_some, hnonneg, if_false, hen]
    rw [hcall, storeIndex_eq (by rw [reallocData_length]) (by show n < 2 ^ 32; omega)]
    by_cases htwice : index = 2 * a.size
    · rw [if_neg (by show ¬ index < n; split at hn <;> omega)]
      simp [Places, htwice]
    · have hin : index < n := by split at hn <;> omega
      rw [if_pos hin]
      exact ⟨fun _ => htwice, fun _ => ⟨_, rfl, placed_resize h hnle hin hidx ptr⟩⟩

/-- Without `force` an element is not overwritten. -/
theorem setIndex_occupied {index : Nat} {p : α} (hi : index < a.size)
    (hp : a.data[index]? = some (some p)) (ptr : Option α) :
    setIndex granting a index ptr false = some (-1, a) := by
  simp [setIndex, hi, hp]

theorem setIndex_places_iff (h : Slots a xs) (hen : a.appendEnable = true) {index : Nat}
    (hidx : index < 2 ^ 30) (ptr : Option α) {force : Bool}
    (hfree : force = true ∨ ∀ p, a.data[index]? ≠ some (some p)) :
    Places a index ptr (setIndex granting a index ptr force) ↔ index ≠ 2 * a.size := by
  by_cases hi : index < a.size
  · have hne : index ≠ 2 * a.size := by omega
    exact ⟨fun _ => hne, fun _ => setIndex_inside h hi hidx ptr hfree⟩
  · exact setIndex_outside h hen (by omega) hidx ptr force

/-! ## Every array that can be reached -/

/-- What every call does to a well-formed array: it stays one, and a new size is an `int`. -/
structure Stays (a a' : XArray α) : Prop where
  slots : ∃ xs', Slots a' xs'
  enable : a'.appendEnable = a.appendEnable
  size : a'.size ≤ a.size ∨ a'.size < 2 ^ 31

theorem Slots.stays (h : Slots a xs) : Stays a a := ⟨⟨xs, h⟩, rfl, .inl (Nat.le_refl _)⟩

/-- Storing a slot of a well-formed array leaves one. -/
theorem storeIndex_stays {index : Nat} {r : Int} {a' : XArray α} {ptr : Option α} (h : Slots a xs)
    (hs : storeIndex a index ptr = some (r, a')) : Stays a a' := by
  rw [storeIndex_eq h.length h.lt] at hs
  split at hs
  · cases hs
    exact ⟨⟨_, h.store (by assumption) ptr⟩, rfl, .inl (Nat.le_refl _)⟩
  · cases hs

theorem setIndex_stays {alloc : Nat → Bool} {index : Nat} {force : Bool} {r : Int} {a' : XArray α}
    {ptr : Option α} (h : Slots a xs) (hs : setIndex alloc a index ptr force = some (r, a')) : Stays a a' := by
  by_cases hi : index < a.size
  · obtain ⟨old, hold⟩ := h.exists_get hi
    simp only [setIndex, hi, if_true, hold, Option.bind_eq_bind, Option.bind_some] at hs
    split at hs
    · cases hs
      exact h.stays
    · exact storeIndex_stays h hs
  · simp only [setIndex, hi, if_false] at hs
    split at hs
    · cases hs
      exact h.stays
    · obtain ⟨⟨q, b⟩, happ, hset⟩ := Option.bind_eq_some_iff.mp hs
      rcases xarrayAppend_cases h.length happ with ⟨hq, hb⟩ | ⟨hq, hb⟩
      · simp only [hq, hb] at hset
        cases hset
        exact h.stays
      · have hnonneg : ¬ q < 0 := by omega
        simp only [hnonneg, if_false] at hset
        rcases hb with rfl | ⟨n, hn, rfl⟩
        · cases hset
        · have hstored := hset
          rw [storeIndex_eq (by rw [reallocData_length]) (by show n < 2 ^ 32; omega)] at hset
          split at hset
          · -- the store shows that the block did grow
            rename_i hin
            change index < n at hin
            have hle := h.le
            have hsized := h.resize (n := n) (by omega) (by omega)
            obtain ⟨hslots, hen, hsize⟩ := storeIndex_stays hsized hstored
            refine ⟨hslots, hen, .inr ?_⟩
            rcases hsize with hsize | hsize
            · exact Nat.lt_of_le_of_lt hsize hn
            · exact hsize
          · cases hset

theorem closeGap_stays {alloc : Nat → Bool} {i : Nat} {a' : XArray α} (h : Slots a xs) (hi : i < xs.length)
    (hs : closeGap alloc a i = some a') : Stays a a' := by
  by_cases hfrees : Frees a
  · rw [closeGap_frees alloc h hi hfrees] at hs
    cases hs
    exact ⟨⟨[], Slots.emptied a⟩, rfl, .inl (Nat.zero_le _)⟩
  · obtain ⟨b, hgap, hb, hen, hsize⟩ := closeGap_keeps alloc h hi hfrees
    rw [hgap] at hs
    cases hs
    exact ⟨⟨_, hb⟩, hen, .inl hsize⟩

/-- The calls of a caller who removes below the count only. -/
inductive SlotOp (α : Type) where
  | set (ptr : Option α)
  | setIndex (index : Nat) (ptr : Option α)
  | fsetIndex (index : Nat) (ptr : Option α)
  | remove
  | removeIndex (index : Nat)
  | removeData (key : Option α)

/-- An `unsigned` index, or an `int` one below the count. -/
def SlotOp.Below (a : XArray α) : SlotOp α → Prop
  | .setIndex index _ | .fsetIndex index _ => index < 2 ^ 32
  | .remove => 0 < a.count
  | .removeIndex index => index < a.count ∧ index < 2 ^ 31
  | _ => True

/-- The array after a call. -/
def SlotOp.run (cmpF : Option (Option α → α → Option Int)) (freeF : Bool) (a : XArray α) :
    SlotOp α → Option (XArray α)
  | .set ptr => (xarraySet granting a ptr).map fun r => r.2
  | .setIndex index ptr => (xarraySetIndex granting a index ptr).map fun r => r.2
  | .fsetIndex index ptr => (xarrayFsetIndex granting a index ptr).map fun r => r.2
  | .remove => (xarrayRemove granting a).map fun r => r.2
  | .removeIndex index => (xarrayRemoveIndex granting a index).map fun r => r.2
  | .removeData key => (xarrayRemoveData granting cmpF freeF a key).map fun r => r.2.2

def SlotStep (cmpF : Option (Option α → α → Option Int)) (freeF : Bool) (a : XArray α) (op : SlotOp α)
    (a' : XArray α) : Prop :=
  op.Below a ∧ op.run cmpF freeF a = some a'

variable {cmpF : Option (Option α → α → Option Int)} {freeF : Bool} {a' : XArray α}

theorem removeIndex_stays {alloc : Nat → Bool} {i : Nat} {r : Option α × XArray α} (h : Slots a xs)
    (hi : i < xs.length) (hs : xarrayRemoveIndex alloc a (i : Int) = some r) : Stays a r.2 := by
  rw [xarrayRemoveIndex_below alloc h hi] at hs
  obtain ⟨b, hgap, rfl⟩ := Option.map_eq_some_iff.mp hs
  have hlen : i < (xs.set i none).length := by rw [List.length_set]; exact hi
  obtain ⟨hslots, hen, hsize⟩ := closeGap_stays (h.clear hi) hlen hgap
  exact ⟨hslots, hen, hsize⟩

/-- The last element is at an index only where `count - 1` is an `int`. -/
theorem remove_stays {alloc : Nat → Bool} {r : Option α × XArray α} (h : Slots a xs) (hpos : 0 < a.count)
    (hs : xarrayRemove alloc a = some r) : Stays a r.2 := by
  have hle := h.le
  have hlt := h.lt
  have hcount := h.count
  have hlast : u32Sub a.count 1 = a.count - 1 := u32Sub_of_le (by omega) (by omega)
  rw [xarrayRemove, hlast] at hs
  by_cases hint : a.count - 1 < 2 ^ 31
  · rw [i32OfNat_of_lt hint] at hs
    exact removeIndex_stays h (by omega) hs
  · have hneg : i32OfNat (a.count - 1) < 0 := by unfold i32OfNat; split <;> omega
    have hsame : ¬ u32OfInt (i32OfNat (a.count - 1)) ≥ a.size := by
      unfold u32OfInt i32OfNat; split <;> omega
    rw [xarrayRemoveIndex, if_neg hsame, if_pos hneg] at hs
    cases hs

theorem removeData_stays {alloc : Nat → Bool} {key : Option α} {r : Int × Option α × XArray α}
    (h : Slots a xs) (hs : xarrayRemoveData alloc cmpF freeF a key = some r) : Stays a r.2.2 := by
  cases key with
  | none =>
    cases hs
    exact h.stays
  | some key =>
    simp only [xarrayRemoveData] at hs
    split at hs
    · cases hs
      exact h.stays
    · cases cmpF with
      | none =>
        cases hs
        exact h.stays
      | some cmp =>
        obtain ⟨found, hfound, hs⟩ := Option.bind_eq_some_iff.mp hs
        cases found with
        | none =>
          cases hs
          exact h.stays
        | some index =>
          -- the search ends below the count
          have hi : index < xs.length := by
            have hfind := findInt_lt hfound
            rw [h.count] at hfind
            omega
          obtain ⟨slot, hslot, hs⟩ := Option.bind_eq_some_iff.mp hs
          cases slot with
          | none =>
            cases hs
            exact h.stays
          | some ret =>
            obtain ⟨b, hgap, hs⟩ := Option.bind_eq_some_iff.mp hs
            cases hs
            exact closeGap_stays h hi hgap

theorem slotStep_stays {op : SlotOp α} (h : Slots a xs) (hs : SlotStep cmpF freeF a op a') : Stays a a' := by
  obtain ⟨hbelow, hrun⟩ := hs
  cases op with
  | set ptr =>
    obtain ⟨r, hr, rfl⟩ := Option.map_eq_some_iff.mp hrun
    exact setIndex_stays h hr
  | setIndex index ptr =>
    obtain ⟨r, hr, rfl⟩ := Option.map_eq_some_iff.mp hrun
    exact setIndex_stays h hr
  | fsetIndex index ptr =>
    obtain ⟨r, hr, rfl⟩ := Option.map_eq_some_iff.mp hrun
    exact setIndex_stays h hr
  | remove =>
    obtain ⟨r, hr, rfl⟩ := Option.map_eq_some_iff.mp hrun
    exact remove_stays h hbelow hr
  | removeIndex index =>
    obtain ⟨r, hr, rfl⟩ := Option.map_eq_some_iff.mp hrun
    exact removeIndex_stays h (by rw [← h.count]; exact hbelow.1) hr
  | removeData key =>
    obtain ⟨r, hr, rfl⟩ := Option.map_eq_some_iff.mp hrun
    exact removeData_stays h hr

theorem xarrayCreate_slots {size : Nat} {en : Bool} (hlt : size < 2 ^ 32)
    (hc : xarrayCreate size en = some a) : Slots a [] ∧ a.appendEnable = en := by
  unfold xarrayCreate at hc
  split at hc
  · cases hc
    exact ⟨⟨rfl, Nat.zero_le _, by simp, hlt⟩, rfl⟩
  · cases hc

theorem reachable_slots {size : Nat} {en : Bool} {ops : List (SlotOp α)} (hlt : size < 2 ^ 32)
    (hc : xarrayCreate size en = some a) (hr : Run (SlotStep cmpF freeF) a ops a') :
    (∃ xs, Slots a' xs) ∧ a'.appendEnable = en := by
  obtain ⟨h0, hen0⟩ := xarrayCreate_slots hlt hc
  induction hr with
  | nil => exact ⟨⟨[], h0⟩, hen0⟩
  | snoc _ hs ih =>
    obtain ⟨⟨xs, h⟩, hen⟩ := ih
    have hstays := slotStep_stays h hs
    exact ⟨hstays.slots, by rw [hstays.enable, hen]⟩

/-- **Storing past the end.** In every array that can be reached, storing at an index below `2^30`
succeeds and stores there exactly when the index is not twice the size; a slot in use is not
overwritten without `force`. -/
theorem xarrayFsetIndex_places_iff {size : Nat} {ops : List (SlotOp α)} (hlt : size < 2 ^ 32)
    (hc : xarrayCreate size true = some a) (hr : Run (SlotStep cmpF freeF) a ops a') {index : Nat}
    (hidx : index < 2 ^ 30) (ptr : Option α) :
    (Places a' index ptr (xarrayFsetIndex granting a' index ptr) ↔ index ≠ 2 * a'.size) ∧
    ((∀ p, a'.data[index]? ≠ some (some p)) →
      (Places a' index ptr (xarraySetIndex granting a' index ptr) ↔ index ≠ 2 * a'.size)) ∧
    (∀ p, a'.data[index]? = some (some p) →
      xarraySetIndex granting a' index ptr = some (-1, a')) := by
  obtain ⟨⟨xs, h⟩, hen⟩ := reachable_slots hlt hc hr
  refine ⟨?_, ?_, ?_⟩
  · exact setIndex_places_iff h hen hidx ptr (.inl rfl)
  · intro hnull
    exact setIndex_places_iff h hen hidx ptr (.inr hnull)
  · intro p hp
    have hin : index < a'.size := by
      rw [← h.length]
      exact (List.getElem?_eq_some_iff.mp hp).1
    exact setIndex_occupied hin hp ptr

/-- Index 9 of a fresh array of 4 slots: the array grows to 10 slots. -/
theorem xarrayFsetIndex_places_nine : ∃ a : XArray Nat, xarrayCreate 4 true = some a ∧
    Places a 9 (some 7) (xarrayFsetIndex granting a 9 (some 7)) := by
  refine ⟨⟨4, true, 0, [none, none, none, none]⟩, rfl, ?_⟩
  have hr : Run (SlotStep none false) (⟨4, true, 0, [none, none, none, none]⟩ : XArray Nat) []
    ⟨4, true, 0, [none, none, none, none]⟩ := .nil
  exact (xarrayFsetIndex_places_iff (by omega : 4 < 2 ^ 32) rfl hr (by omega) (some 7)).1.mpr (by omega)

/-- Index 8 of a fresh array of 4 slots: the array grows to 8 slots, and the store is past its end. -/
theorem xarrayFsetIndex_outside_eight : ∃ a : XArray Nat, xarrayCreate 4 true = some a ∧
    ¬ Places a 8 (some 7) (xarrayFsetIndex granting a 8 (some 7)) := by
  refine ⟨_, rfl, ?_⟩
  intro hplaces
  obtain ⟨a', hret, -⟩ := hplaces
  cases hret

/-! ## Removing at any index -/

/-- What `xarray_remove_index` should do: remove one of the elements `xs`, or nothing. -/
def Removes (alloc : Nat → Bool) (a : XArray α) (xs : List (Option α)) (index : Int) : Prop :=
  if 0 ≤ index ∧ index < xs.length then
    ∃ p a', xarrayRemoveIndex alloc a index = some (p, a') ∧ xs[index.toNat]? = some p ∧
      Slots a' (xs.eraseIdx index.toNat)
  else xarrayRemoveIndex alloc a index = some (none, a)

/-- The length of the `memmove` from an index past the elements wraps around. -/
theorem closeGap_outside (alloc : Nat → Bool) {i : Nat} (hlen : a.data.length = a.size)
    (hsize : a.size < 2 ^ 32) (hle : a.count ≤ a.size) (hi : a.count ≤ i) (hlt : i < 2 ^ 31) :
      closeGap alloc a i = none := by
  have hlast : i ≠ u32Sub a.count 1 := by
    unfold u32Sub
    omega
  have hfar : ¬ (i + u32Sub (u32Sub a.count i) 1 ≤ a.data.length ∧
      i + 1 + u32Sub (u32Sub a.count i) 1 ≤ a.data.length) := by
    rw [hlen]
    unfold u32Sub
    omega
  simp only [closeGap, hlast, if_false, memmove, hfar]
  rfl

theorem removes_below (alloc : Nat → Bool) {i : Nat} (h : Slots a xs) (hi : i < xs.length) :
    Removes alloc a xs (i : Int) ↔ (Frees a → a.count = 1) := by
  have hclear := h.clear hi
  have hlen : i < (xs.set i none).length := by rw [List.length_set]; exact hi
  have hin : 0 ≤ (i : Int) ∧ (i : Int) < xs.length := by omega
  rw [Removes, if_pos hin, xarrayRemoveIndex_below alloc h hi, Int.toNat_natCast,
    List.getElem?_eq_getElem hi]
  by_cases hfrees : Frees a
  · rw [closeGap_frees alloc hclear hlen hfrees]
    have hcount := h.count
    constructor
    · intro hrem _
      obtain ⟨p, a', hret, -, hs⟩ := hrem
      cases hret
      have hnone := hs.count
      rw [List.length_eraseIdx_of_lt hi] at hnone
      change 0 = xs.length - 1 at hnone
      omega
    · intro hone
      have hnil : xs.eraseIdx i = [] := by
        have hz : (xs.eraseIdx i).length = 0 := by
          rw [List.length_eraseIdx_of_lt hi, ← hcount, hone hfrees]
        exact List.length_eq_zero_iff.mp hz
      refine ⟨_, _, rfl, rfl, ?_⟩
      rw [hnil]
      exact Slots.emptied a
  · obtain ⟨b, hgap, hb, -⟩ := closeGap_keeps alloc hclear hlen hfrees
    rw [List.eraseIdx_set_eq] at hb
    rw [hgap]
    exact ⟨fun _ hf => absurd hf hfrees, fun _ => ⟨_, _, rfl, rfl, hb⟩⟩

/-- **Removing at any `int` index.** The call removes the element at an index below the count, and
nothing for any other index, exactly when the index is below the count and the removal does not free
the elements that are left, or when the index, as an `unsigned`, is not below the size. -/
theorem xarrayRemoveIndex_iff (alloc : Nat → Bool) (h : Slots a xs) {index : Int} (hlo : -2 ^ 31 ≤ index)
    (hhi : index < 2 ^ 31) :
    Removes alloc a xs index ↔
      (0 ≤ index ∧ index < a.count ∧ (Frees a → a.count = 1)) ∨ a.size ≤ u32OfInt index := by
  have hle := h.le
  have hlt := h.lt
  have hcount := h.count
  by_cases hin : 0 ≤ index ∧ index < xs.length
  · obtain ⟨i, rfl⟩ := Int.eq_ofNat_of_zero_le hin.1
    have hu : u32OfInt (i : Int) = i := u32OfInt_ofNat (by omega)
    rw [removes_below alloc h (by omega), hu]
    constructor
    · intro hfrees
      exact .inl ⟨by omega, by omega, hfrees⟩
    · intro hcase
      cases hcase with
      | inl hbelow => exact hbelow.2.2
      | inr hsize => omega
  · rw [Removes, if_neg hin]
    have hout : ¬ (0 ≤ index ∧ index < a.count ∧ (Frees a → a.count = 1)) := by
      intro hbelow
      exact hin ⟨hbelow.1, by omega⟩
    by_cases hsize : a.size ≤ u32OfInt index
    · rw [xarrayRemoveIndex, if_pos hsize]
      exact ⟨fun _ => .inr hsize, fun _ => rfl⟩
    · -- the slot is read, and the gap cannot be closed
      have hnone : xarrayRemoveIndex alloc a index = none := by
        rw [xarrayRemoveIndex, if_neg hsize]
        by_cases hneg : index < 0
        · rw [if_pos hneg]
        · obtain ⟨i, rfl⟩ := Int.eq_ofNat_of_zero_le (by omega : 0 ≤ index)
          have hu : u32OfInt (i : Int) = i := u32OfInt_ofNat (by omega)
          have hnull := h.get_null (i := i) (by omega) (by omega)
          have hstore : storeSlot a.data i none = some (a.data.set i none) := by
            rw [storeSlot, if_pos (by rw [h.length]; omega)]
          have hgap := closeGap_outside alloc (a := { a with data := a.data.set i none }) (i := i)
            (by rw [List.length_set, h.length]) hlt (by show a.count ≤ a.size; omega)
            (by show a.count ≤ i; omega) (by omega)
          simp only [hneg, if_false, Int.toNat_natCast, hnull, hstore, Option.bind_eq_bind,
            Option.bind_some, hgap, Option.bind_none]
      rw [hnone]
      constructor
      · intro hret
        cases hret
      · intro hcase
        cases hcase with
        | inl hbelow => exact absurd hbelow hout
        | inr hge => exact absurd hge hsize

/-- The middle one of three elements goes, and an index past the size does nothing. -/
theorem xarrayRemoveIndex_three :
    Removes granting (⟨4, true, 3, [some 7, some 8, some 9, none]⟩ : XArray Nat) [some 7, some 8, some 9] 1 ∧
    Removes granting (⟨4, true, 3, [some 7, some 8, some 9, none]⟩ : XArray Nat) [some 7, some 8, some 9] (-1) := by
  have h : Slots (⟨4, true, 3, [some 7, some 8, some 9, none]⟩ : XArray Nat) [some 7, some 8, some 9] :=
    ⟨rfl, show 3 ≤ 4 by omega, rfl, show 4 < 2 ^ 32 by omega⟩
  constructor
  · refine (xarrayRemoveIndex_iff granting h (by decide) (by decide)).mpr (.inl ⟨by decide, by decide, ?_⟩)
    intro hfrees
    exact absurd hfrees.2.2 (by decide)
  · exact (xarrayRemoveIndex_iff granting h (by decide) (by decide)).mpr (.inr (by decide))

/-- The free slot of an array of 4 slots with three elements, and the first slot of an empty array. -/
theorem xarrayRemoveIndex_past_count :
    Slots (⟨4, true, 3, [some 7, some 8, some 9, none]⟩ : XArray Nat) [some 7, some 8, some 9] ∧
    ¬ Removes granting (⟨4, true, 3, [some 7, some 8, some 9, none]⟩ : XArray Nat) [some 7, some 8, some 9] 3 ∧
    xarrayCreate 4 true = some (⟨4, true, 0, [none, none, none, none]⟩ : XArray Nat) ∧
    ¬ Removes granting (⟨4, true, 0, [none, none, none, none]⟩ : XArray Nat) [] 0 := by
  refine ⟨⟨rfl, show 3 ≤ 4 by omega, rfl, show 4 < 2 ^ 32 by omega⟩, ?_, rfl, ?_⟩
  · intro hrem
    cases hrem
  · intro hrem
    cases hrem

/-! ## Any extents -/

/-- What `xarray_append` should do: keep the array well formed and its elements in place, and leave
room for the next element `p` where the array may grow. -/
def Keeps (a : XArray α) (p : α) (call : Option (Int × XArray α)) : Prop :=
  ∃ r a', call = some (r, a') ∧ a'.size = r ∧ a'.data.length = a'.size ∧ a'.count ≤ a'.size ∧
    (∀ i, i < min a.count a'.count → a'.data[i]? = a.data[i]?) ∧
    (∀ i, a'.count ≤ i → i < a'.size → a'.data[i]? = some none) ∧
    (∀ i, a.size ≤ i → i < a'.size → a'.data[i]? = some none) ∧
    (a'.appendEnable = true → ∃ a'', xarraySet granting a' (some p) = some (0, a''))

/-- A full array of at least `2^30` slots cannot be doubled, and neither can one without slots. -/
theorem xarraySet_iff (h : Slots a xs) (hen : a.appendEnable = true) (hlt : a.size < 2 ^ 31) (p : α) :
    (∃ a', xarraySet granting a (some p) = some (0, a')) ↔
      0 < a.size ∧ (a.count = a.size → a.size < 2 ^ 30) := by
  have hle := h.le
  have hcount := h.count
  have hdouble : u32 (a.size * 2) = 2 * a.size := by rw [u32_of_lt (by omega)]; omega
  rw [xarraySet, xarraySetIndex]
  by_cases hroom : a.count < a.size
  · -- the slot behind the last element is `NULL`
    have hnull := h.get_null (i := a.count) (by omega) hroom
    have hstored : ∃ a', setIndex granting a a.count (some p) false = some (0, a') := by
      simp only [setIndex, hroom, if_true, hnull, Option.bind_eq_bind, Option.bind_some,
        Option.isSome_none, Bool.false_eq_true, false_and, if_false]
      rw [storeIndex_eq h.length h.lt, if_pos hroom]
      exact ⟨_, rfl⟩
    exact ⟨fun _ => ⟨by omega, fun hfull => by omega⟩, fun _ => hstored⟩
  · have hfull : a.count = a.size := by omega
    by_cases hok : 0 < a.size ∧ a.size < 2 ^ 30
    · have hout : a.size ≤ a.count := by omega
      obtain ⟨a', hset, -⟩ := (setIndex_outside h hen hout (by omega) (some p) false).mpr (by omega)
      exact ⟨fun _ => ⟨hok.1, fun _ => hok.2⟩, fun _ => ⟨a', hset⟩⟩
    · have hfreed : setIndex granting a a.count (some p) false = none := by
        refine setIndex_freed hen h.lt (by omega) (m := 2 * a.size) ?_ ?_ (some p) false
        · rw [hdouble, if_neg (by omega)]
        · unfold i32OfNat
          split <;> omega
      rw [hfreed]
      constructor
      · intro hset
        obtain ⟨a', ha'⟩ := hset
        cases ha'
      · intro hpos
        exact absurd ⟨hpos.1, hpos.2 hfull⟩ hok

/-- The freed block: fine unless the array may grow, as it can no longer be doubled. -/
theorem keeps_emptied (a : XArray α) (p : α) :
    Keeps a p (some (0, { a with size := 0, count := 0, data := [] })) ↔ a.appendEnable = false := by
  have hset := xarraySet_iff (Slots.emptied a) (p := p)
  constructor
  · rintro ⟨r, a', hret, -, -, -, -, -, -, hnext⟩
    cases hret
    cases hen : a.appendEnable with
    | false => rfl
    | true => exact absurd ((hset hen (show 0 < 2 ^ 31 by omega)).mp (hnext hen)).1 (Nat.lt_irrefl 0)
  · intro hoff
    refine ⟨0, _, rfl, rfl, rfl, Nat.le_refl 0, ?_, ?_, ?_, ?_⟩
    · intro i hi
      exact absurd hi (by show ¬ i < min a.count 0; omega)
    · intro i _ hi
      exact absurd hi (Nat.not_lt_zero i)
    · intro i _ hi
      exact absurd hi (Nat.not_lt_zero i)
    · intro hon
      rw [hoff] at hon
      cases hon

/-- The resized block. -/
theorem keeps_resized (h : Slots a xs) {n : Nat} (hpos : 0 < n) (hlt : n < 2 ^ 31) (p : α) :
    Keeps a p (some ((n : Int), { a with size := n, data := reallocData a.data n })) ↔
      a.count ≤ n ∧ (a.appendEnable = true → a.count = n → n < 2 ^ 30) := by
  have hcount := h.count
  constructor
  · rintro ⟨r, a', hret, -, -, hfit, -, -, -, hnext⟩
    cases hret
    change a.count ≤ n at hfit
    have hsized := h.resize (n := n) (by omega) (by omega)
    exact ⟨hfit, fun hen => ((xarraySet_iff hsized hen (by show n < 2 ^ 31; omega) p).mp (hnext hen)).2⟩
  · rintro ⟨hfit, hlast⟩
    have hsized := h.resize (n := n) (by omega) (by omega)
    refine ⟨n, _, rfl, rfl, reallocData_length _ _, hfit, ?_, ?_, ?_, ?_⟩
    · intro i hi
      change i < min a.count a.count at hi
      rw [hsized.get (by omega), h.get (by omega)]
    · intro i hi hin
      exact hsized.get_null (by change a.count ≤ i at hi; omega) hin
    · intro i hi hin
      have hle := h.le
      exact hsized.get_null (by omega) hin
    · intro hon
      exact (xarraySet_iff hsized hon (by show n < 2 ^ 31; omega) p).mpr ⟨hpos, hlast hon⟩

/-- **Any extents.** Growing or shrinking by `extents` keeps the array well formed exactly when the new
size is not below the count, or frees an array that may not grow; and when an array that may grow
keeps a slot, and does not end up full with `2^30` slots or more. -/
theorem xarrayAppend_keeps_iff (h : Slots a xs) {extents : Int} (hlo : -2 ^ 31 ≤ extents)
    (hhi : extents < 2 ^ 31) (hslo : -2 ^ 31 ≤ a.size + extents) (hshi : a.size + extents < 2 ^ 31)
    (p : α) :
    Keeps a p (xarrayAppend granting a extents) ↔
      (a.appendEnable = false ∧ (a.size + extents ≤ 0 ∨ (a.count : Int) ≤ a.size + extents)) ∨
      (a.appendEnable = true ∧ 0 < a.size + extents ∧ (a.count : Int) ≤ a.size + extents ∧
        ((a.count : Int) = a.size + extents → a.size + extents < 2 ^ 30)) := by
  by_cases hneg : a.size + extents ≤ 0
  · rw [xarrayAppend_emptied (by unfold i32OfNat u32OfInt; split <;> omega), keeps_emptied]
    constructor
    · exact fun hoff => .inl ⟨hoff, .inl hneg⟩
    · rintro (hoff | hon)
      · exact hoff.1
      · omega
  · obtain ⟨n, hn⟩ := Int.eq_ofNat_of_zero_le (by omega : 0 ≤ a.size + extents)
    have hext : extents = (n : Int) - a.size := by omega
    rw [hn, hext, xarrayAppend_eq h.length (by omega) (by omega), keeps_resized h (by omega) (by omega)]
    constructor
    · rintro ⟨hfit, hlast⟩
      cases hen : a.appendEnable with
      | false => exact .inl ⟨rfl, .inr (by omega)⟩
      | true =>
        refine .inr ⟨rfl, by omega, by omega, fun hfull => ?_⟩
        have := hlast hen (by omega)
        omega
    · rintro (⟨hoff, hfit⟩ | ⟨-, -, hfit, hlast⟩)
      · exact ⟨by omega, fun hon => by rw [hoff] at hon; cases hon⟩
      · refine ⟨by omega, fun _ hfull => ?_⟩
        have := hlast (by omega)
        omega

/-- Two slots more than the three elements need, and the fourth element fits. -/
theorem xarrayAppend_keeps_two :
    Keeps (⟨3, true, 3, [some 7, some 8, some 9]⟩ : XArray Nat) 10
      (xarrayAppend granting ⟨3, true, 3, [some 7, some 8, some 9]⟩ 2) := by
  have h : Slots (⟨3, true, 3, [some 7, some 8, some 9]⟩ : XArray Nat) [some 7, some 8, some 9] :=
    ⟨rfl, Nat.le_refl 3, rfl, show 3 < 2 ^ 32 by decide⟩
  exact (xarrayAppend_keeps_iff h (by decide) (by decide) (by decide) (by decide) 10).mpr
    (.inr ⟨rfl, by decide, by decide, by decide⟩)

/-- Shrinking below the count, and shrinking to nothing. -/
theorem xarrayAppend_shrinks :
    Slots (⟨4, true, 3, [some 7, some 8, some 9, none]⟩ : XArray Nat) [some 7, some 8, some 9] ∧
    ¬ Keeps (⟨4, true, 3, [some 7, some 8, some 9, none]⟩ : XArray Nat) 10
      (xarrayAppend granting ⟨4, true, 3, [some 7, some 8, some 9, none]⟩ (-2)) ∧
    ¬ Keeps (⟨4, true, 3, [some 7, some 8, some 9, none]⟩ : XArray Nat) 10
      (xarrayAppend granting ⟨4, true, 3, [some 7, some 8, some 9, none]⟩ (-4)) := by
  refine ⟨⟨rfl, show 3 ≤ 4 by omega, rfl, show 4 < 2 ^ 32 by omega⟩, ?_, ?_⟩
  · intro hkeeps
    obtain ⟨r, a', hret, -, -, hfit, -⟩ := hkeeps
    cases hret
    exact absurd hfit (by decide)
  · intro hkeeps
    obtain ⟨r, a', hret, -, -, -, -, -, -, hnext⟩ := hkeeps
    cases hret
    obtain ⟨a'', hset⟩ := hnext rfl
    cases hset

end Xarray
end Xlibc
