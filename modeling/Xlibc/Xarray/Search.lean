import Mathlib.Data.Nat.Find
import Xlibc.Xarray.Extents

/-!
# Xlibc.Xarray.Search

The searches in an array of strings, whose slots below the count may be `NULL`. The comparison reads
through `NULL`, so a search is right exactly if it ends before it meets one.

* `StrStep`              : the calls that fill such an array and remove from it.
* `searchSlots_ahead`    : a search up to the first slot that ends it.
* `xarray_searches_iff`  : when the three searches are right, and agree.
-/

namespace Xlibc
namespace Xarray

/-! ## Arrays of strings -/

inductive StrOp where
  | add (str : CString)
  | setIndex (index : Nat) (str : CString)
  | fsetIndex (index : Nat) (str : CString)
  | remove
  | removeIndex (index : Nat)
  | removeData (key : CString)

/-- An index not larger than the capacity, or below the count. -/
def StrOp.Allowed (a : XArray CString) : StrOp → Prop
  | .setIndex index _ | .fsetIndex index _ => index ≤ a.size
  | .remove => 0 < a.count
  | .removeIndex index => index < a.count
  | _ => True

/-- The array after a call. -/
def StrOp.run (alloc grant : Nat → Bool) (a : XArray CString) : StrOp → Option (XArray CString)
  | .add str => (xstrarrayadd alloc grant a str).map fun r => r.2
  | .setIndex index str => (xarraySetIndex alloc a index (some str)).map fun r => r.2
  | .fsetIndex index str => (xarrayFsetIndex alloc a index (some str)).map fun r => r.2
  | .remove => (xarrayRemove alloc a).map fun r => r.2
  | .removeIndex index => (xarrayRemoveIndex alloc a index).map fun r => r.2
  | .removeData key => (xarrayRemoveData alloc (some strarrayCmp) true a (some key)).map fun r => r.2.2

/-- A call, whatever memory is granted to it. -/
def StrStep (a : XArray CString) (op : StrOp) (a' : XArray CString) : Prop :=
  op.Allowed a ∧ ∃ alloc grant, op.run alloc grant a = some a'

/-- What holds of the array after any calls. -/
structure StrArray (a : XArray CString) : Prop where
  slots : ∃ xs, Slots a xs
  small : a.size < 2 ^ 31

variable {a a' : XArray CString} {xs : List (Option CString)} {key : CString}

theorem StrArray.of_stays (h : StrArray a) (hstays : Stays a a') : StrArray a' := by
  refine ⟨hstays.slots, ?_⟩
  rcases hstays.size with hsize | hsize
  · exact Nat.lt_of_le_of_lt hsize h.small
  · exact hsize

theorem xstrarrayadd_stays {alloc grant : Nat → Bool} {str : CString} {r : Int × XArray CString}
    (h : Slots a xs) (hs : xstrarrayadd alloc grant a str = some r) : Stays a r.2 := by
  unfold xstrarrayadd at hs
  split at hs
  · cases hs
    exact h.stays
  · obtain ⟨⟨q, b⟩, hvset, hs⟩ := Option.bind_eq_some_iff.mp hs
    cases hs
    unfold xarrayVset vsetLoop at hvset
    obtain ⟨⟨q', b'⟩, hset, hvset⟩ := Option.bind_eq_some_iff.mp hvset
    have hstays := setIndex_stays h hset
    dsimp only at hvset
    split at hvset
    · cases hvset
      exact hstays
    · cases hvset
      exact hstays

theorem strStep_array {op : StrOp} (h : StrArray a) (hs : StrStep a op a') : StrArray a' := by
  obtain ⟨hallowed, alloc, grant, hrun⟩ := hs
  obtain ⟨xs, hslots⟩ := h.slots
  refine h.of_stays ?_
  cases op with
  | add str =>
    obtain ⟨r, hr, rfl⟩ := Option.map_eq_some_iff.mp hrun
    exact xstrarrayadd_stays hslots hr
  | setIndex index str =>
    obtain ⟨r, hr, rfl⟩ := Option.map_eq_some_iff.mp hrun
    exact setIndex_stays hslots hr
  | fsetIndex index str =>
    obtain ⟨r, hr, rfl⟩ := Option.map_eq_some_iff.mp hrun
    exact setIndex_stays hslots hr
  | remove =>
    obtain ⟨r, hr, rfl⟩ := Option.map_eq_some_iff.mp hrun
    exact remove_stays hslots hallowed hr
  | removeIndex index =>
    obtain ⟨r, hr, rfl⟩ := Option.map_eq_some_iff.mp hrun
    exact removeIndex_stays hslots (by rw [← hslots.count]; exact hallowed) hr
  | removeData key =>
    obtain ⟨r, hr, rfl⟩ := Option.map_eq_some_iff.mp hrun
    exact removeData_stays hslots hr

theorem strRun_array {a0 : XArray CString} {ops : List StrOp} (h0 : xstrarray = some a0)
    (hr : Run StrStep a0 ops a) : StrArray a := by
  refine Run.invariant (I := fun _ a => StrArray a) ?_ (fun _ h hs => strStep_array h hs) hr
  unfold xstrarray xarrayCreate at h0
  rw [if_pos (by omega)] at h0
  cases h0
  exact ⟨⟨[], rfl, Nat.zero_le _, rfl, by show 8 < 2 ^ 32; omega⟩, by show 8 < 2 ^ 31; omega⟩

/-! ## A search -/

/-- The slots in use. -/
def XArray.used (a : XArray CString) : List (Option CString) := a.data.take a.count

theorem Slots.used (h : Slots a xs) : a.used = xs := by
  rw [XArray.used, h.data, h.count, List.take_left]

/-- The first slot with the key. -/
def FirstAt (xs : List (Option CString)) (key : CString) (i : Nat) : Prop :=
  xs[i]? = some (some key) ∧ ∀ j < i, xs[j]? ≠ some (some key)

/-- No `NULL` stands in front of the first slot with the key. -/
def NullBehind (xs : List (Option CString)) (key : CString) : Prop :=
  ∀ i : Nat, xs[i]? = some none → ∃ j, j < i ∧ xs[j]? = some (some key)

section Stop

variable {i : Nat} (h : Slots a xs)
include h

theorem stopAt_null (hnull : xs[i]? = some none) : stopAt strarrayCmp a key i = none := by
  have hi : i < xs.length := (List.getElem?_eq_some_iff.mp hnull).1
  rw [stopAt, h.get hi, hnull]
  rfl

theorem stopAt_string {s : CString} (hs : xs[i]? = some (some s)) :
    stopAt strarrayCmp a key i = some (strcmp s.val key.val == 0) := by
  have hi : i < xs.length := (List.getElem?_eq_some_iff.mp hs).1
  rw [stopAt, h.get hi, hs]
  rfl

theorem stopAt_key (hs : xs[i]? = some (some key)) : stopAt strarrayCmp a key i = some true := by
  rw [stopAt_string h hs, beq_iff_eq.mpr ((strcmp_eq_zero key.property key.property).mpr rfl)]

theorem stopAt_other {s : CString} (hs : xs[i]? = some (some s)) (hne : s ≠ key) :
    stopAt strarrayCmp a key i = some false := by
  rw [stopAt_string h hs, beq_eq_false_iff_ne.mpr fun heq => hne ?_]
  exact Subtype.ext ((strcmp_eq_zero s.property key.property).mp heq)

end Stop

/-- Slots with other strings than the key. -/
def Passed (xs : List (Option CString)) (key : CString) (n : Nat) : Prop :=
  ∀ j < n, ∃ s, xs[j]? = some (some s) ∧ s ≠ key

/-- A search goes on to the first slot that may end it. -/
theorem searchSlots_ahead (h : Slots a xs) (hmax : xs.length ≤ intMax) {n : Nat} (hn : n ≤ xs.length)
    (hpass : Passed xs key n) :
    searchSlots strarrayCmp a key = findInt (stopAt strarrayCmp a key) n (xs.length - n) := by
  have hsplit : xs.length = n + (xs.length - n) := by omega
  rw [searchSlots, h.count]
  conv_lhs => rw [hsplit]
  rw [findInt_skip (by omega), Nat.zero_add]
  intro j _ hj
  obtain ⟨s, hs, hne⟩ := hpass j (by omega)
  exact stopAt_other h hs hne

theorem searchSlots_found (h : Slots a xs) (hmax : xs.length ≤ intMax) {n : Nat}
    (hfirst : xs[n]? = some (some key)) (hpass : Passed xs key n) :
    searchSlots strarrayCmp a key = some (some n) := by
  have hn : n < xs.length := (List.getElem?_eq_some_iff.mp hfirst).1
  rw [searchSlots_ahead h hmax (Nat.le_of_lt hn) hpass, show xs.length - n = xs.length - n - 1 + 1 by omega,
    findInt, stopAt_key h hfirst]
  rfl

theorem searchSlots_fault (h : Slots a xs) (hmax : xs.length ≤ intMax) {n : Nat}
    (hnull : xs[n]? = some none) (hpass : Passed xs key n) : searchSlots strarrayCmp a key = none := by
  have hn : n < xs.length := (List.getElem?_eq_some_iff.mp hnull).1
  rw [searchSlots_ahead h hmax (Nat.le_of_lt hn) hpass, show xs.length - n = xs.length - n - 1 + 1 by omega,
    findInt, stopAt_null h hnull]
  rfl

theorem searchSlots_absent (h : Slots a xs) (hmax : xs.length ≤ intMax) (hpass : Passed xs key xs.length) :
    searchSlots strarrayCmp a key = some none := by
  rw [searchSlots_ahead h hmax (Nat.le_refl _) hpass, Nat.sub_self]
  rfl

/-- The first slot that ends a search, if any does: the key or a `NULL`. -/
theorem first_stop (xs : List (Option CString)) (key : CString) :
    Passed xs key xs.length ∨
    ∃ n : Nat, (xs[n]? = some none ∨ xs[n]? = some (some key)) ∧ Passed xs key n := by
  have hpass : ∀ j < xs.length, ¬ (xs[j]? = some none ∨ xs[j]? = some (some key)) →
      ∃ s, xs[j]? = some (some s) ∧ s ≠ key := by
    intro j hj hgo
    rw [not_or, List.getElem?_eq_getElem hj] at hgo
    rw [List.getElem?_eq_getElem hj]
    cases hs : xs[j] with
    | none => exact absurd (congrArg some hs) hgo.1
    | some s =>
      refine ⟨s, rfl, fun heq => hgo.2 ?_⟩
      rw [hs, heq]
  by_cases hex : ∃ n : Nat, xs[n]? = some none ∨ xs[n]? = some (some key)
  · classical
    have hlt : Nat.find hex < xs.length := by
      rcases Nat.find_spec hex with hn | hn
      · exact (List.getElem?_eq_some_iff.mp hn).1
      · exact (List.getElem?_eq_some_iff.mp hn).1
    exact .inr ⟨Nat.find hex, Nat.find_spec hex, fun j hj =>
      hpass j (Nat.lt_trans hj hlt) (Nat.find_min hex hj)⟩
  · exact .inl fun j hj => hpass j hj fun hstop => hex ⟨j, hstop⟩

/-! ## The three searches -/

/-- The searches are right: they agree on the first slot with the key, or on there being none. -/
structure Searches (alloc : Nat → Bool) (a : XArray CString) (key : CString) : Prop where
  found : ∀ i, FirstAt a.used key i → xarrayFind (some strarrayCmp) a (some key) = some (some key) ∧
    xarrayFindIndex (some strarrayCmp) a (some key) = some (i : Int) ∧
    ∃ a', xarrayRemoveData alloc (some strarrayCmp) true a (some key) = some (0, some key, a') ∧
      Slots a' (a.used.eraseIdx i)
  absent : some key ∉ a.used → xarrayFind (some strarrayCmp) a (some key) = some none ∧
    xarrayFindIndex (some strarrayCmp) a (some key) = some (-1) ∧
    xarrayRemoveData alloc (some strarrayCmp) true a (some key) = some (-1, none, a)

/-- None of them has a result. -/
structure Faults (alloc : Nat → Bool) (a : XArray CString) (key : CString) : Prop where
  find : xarrayFind (some strarrayCmp) a (some key) = none
  index : xarrayFindIndex (some strarrayCmp) a (some key) = none
  remove : xarrayRemoveData alloc (some strarrayCmp) true a (some key) = none

section Three

variable (alloc : Nat → Bool) (h : Slots a xs) (hsmall : a.size < 2 ^ 31)
include h hsmall

theorem searches_found {n : Nat} (hfirst : xs[n]? = some (some key)) (hpass : Passed xs key n) :
    Searches alloc a key := by
  have hle := h.le
  have hn : n < xs.length := (List.getElem?_eq_some_iff.mp hfirst).1
  have hsearch := searchSlots_found h (by unfold intMax; omega) hfirst hpass
  have hget : a.data[n]? = some (some key) := by rw [h.get hn, hfirst]
  have hfits : ¬ Frees a := by
    rintro ⟨-, -, hlarge⟩
    omega
  obtain ⟨a', hgap, ha', -⟩ := closeGap_keeps alloc h hn hfits
  have hloop : findInt (fun i => do
      let slot ← a.data[i]?
      let c ← strarrayCmp slot key
      some (c == 0)) 0 a.count = some (some n) := hsearch
  constructor
  · intro i hi
    rw [h.used] at hi ⊢
    have hin : i = n := by
      rcases Nat.lt_trichotomy i n with hlt | heq | hgt
      · obtain ⟨s, hs, hne⟩ := hpass i hlt
        rw [hi.1] at hs
        cases hs
        exact absurd rfl hne
      · exact heq
      · exact absurd hfirst (hi.2 n hgt)
    subst hin
    refine ⟨?_, ?_, a', ?_, ha'⟩
    · rw [xarrayFind, hsearch]
      exact hget
    · rw [xarrayFindIndex, hsearch]
      rfl
    · simp only [xarrayRemoveData]
      rw [if_neg (by omega), hloop, Option.bind_eq_bind, Option.bind_some]
      simp only [hget, Option.bind_eq_bind, Option.bind_some, hgap, if_true]
  · intro habsent
    rw [h.used] at habsent
    exact absurd (List.mem_of_getElem? hfirst) habsent

theorem searches_absent (hpass : Passed xs key xs.length) : Searches alloc a key := by
  have hle := h.le
  have hsearch := searchSlots_absent h (by unfold intMax; omega) hpass
  have hloop : findInt (fun i => do
      let slot ← a.data[i]?
      let c ← strarrayCmp slot key
      some (c == 0)) 0 a.count = some none := hsearch
  constructor
  · intro i hi
    rw [h.used] at hi
    obtain ⟨s, hs, hne⟩ := hpass i (List.getElem?_eq_some_iff.mp hi.1).1
    rw [hi.1] at hs
    cases hs
    exact absurd rfl hne
  · intro _
    refine ⟨?_, ?_, ?_⟩
    · rw [xarrayFind, hsearch]
      rfl
    · rw [xarrayFindIndex, hsearch]
      rfl
    · simp only [xarrayRemoveData]
      by_cases hzero : 0 ≥ a.size
      · rw [if_pos hzero]
      · rw [if_neg hzero, hloop]
        rfl

theorem searches_fault {n : Nat} (hnull : xs[n]? = some none) (hpass : Passed xs key n) :
    Faults alloc a key := by
  have hle := h.le
  have hn : n < xs.length := (List.getElem?_eq_some_iff.mp hnull).1
  have hsearch := searchSlots_fault h (by unfold intMax; omega) hnull hpass
  have hloop : findInt (fun i => do
      let slot ← a.data[i]?
      let c ← strarrayCmp slot key
      some (c == 0)) 0 a.count = none := hsearch
  refine ⟨?_, ?_, ?_⟩
  · rw [xarrayFind, hsearch]
    rfl
  · rw [xarrayFindIndex, hsearch]
    rfl
  · simp only [xarrayRemoveData]
    rw [if_neg (by omega), hloop]
    rfl

end Three

theorem nullBehind_found {n : Nat} (hfirst : xs[n]? = some (some key)) (hpass : Passed xs key n) :
    NullBehind xs key := by
  intro i hnull
  rcases Nat.lt_trichotomy i n with hlt | rfl | hgt
  · obtain ⟨s, hs, -⟩ := hpass i hlt
    rw [hnull] at hs
    cases hs
  · rw [hnull] at hfirst
    cases hfirst
  · exact ⟨n, hgt, hfirst⟩

theorem nullBehind_absent (hpass : Passed xs key xs.length) : NullBehind xs key := by
  intro i hnull
  obtain ⟨s, hs, -⟩ := hpass i (List.getElem?_eq_some_iff.mp hnull).1
  rw [hnull] at hs
  cases hs

theorem not_nullBehind {n : Nat} (hnull : xs[n]? = some none) (hpass : Passed xs key n) :
    ¬ NullBehind xs key := by
  intro h
  obtain ⟨j, hj, hkey⟩ := h n hnull
  obtain ⟨s, hs, hne⟩ := hpass j hj
  rw [hkey] at hs
  cases hs
  exact hne rfl

/-- Searches that are right have a result. -/
theorem not_searches {alloc : Nat → Bool} (hfaults : Faults alloc a key) : ¬ Searches alloc a key := by
  intro h
  have hfind := hfaults.find
  by_cases hex : some key ∈ a.used
  · classical
    have hsome : ∃ n : Nat, a.used[n]? = some (some key) := List.mem_iff_getElem?.mp hex
    rw [(h.found (Nat.find hsome) ⟨Nat.find_spec hsome, fun j hj => Nat.find_min hsome hj⟩).1] at hfind
    cases hfind
  · rw [(h.absent hex).1] at hfind
    cases hfind

/-- **Searching with holes.** In every array of strings that can be reached, the three searches are right
and agree if and only if no `NULL` stands in front of the first slot with the key; otherwise each of them
hands a `NULL` to `strcmp`. -/
theorem xarray_searches_iff {a0 : XArray CString} {ops : List StrOp} (h0 : xstrarray = some a0)
    (hr : Run StrStep a0 ops a) (alloc : Nat → Bool) (key : CString) :
    (Searches alloc a key ↔ NullBehind a.used key) ∧ (¬ NullBehind a.used key → Faults alloc a key) := by
  obtain ⟨⟨xs, h⟩, hsmall⟩ := strRun_array h0 hr
  rw [h.used]
  rcases first_stop xs key with hpass | ⟨n, hnull | hfirst, hpass⟩
  · have hnulls := nullBehind_absent hpass
    exact ⟨iff_of_true (searches_absent alloc h hsmall hpass) hnulls, fun hnot => absurd hnulls hnot⟩
  · have hfaults := searches_fault alloc h hsmall hnull hpass
    exact ⟨iff_of_false (not_searches hfaults) (not_nullBehind hnull hpass), fun _ => hfaults⟩
  · have hnulls := nullBehind_found hfirst hpass
    exact ⟨iff_of_true (searches_found alloc h hsmall hfirst hpass) hnulls, fun hnot => absurd hnulls hnot⟩

def letterA : CString := ⟨['a'.toUInt8], by decide⟩

/-- An array of strings with `"a"` at an index. -/
def stringAt (i : Nat) : XArray CString where
  size := 8
  appendEnable := true
  count := i + 1
  data := (List.replicate 8 none).set i (some letterA)

/-- `"a"` at index 2, behind two holes. -/
theorem xarray_find_hole : ¬ ∀ (a0 a : XArray CString) (ops : List StrOp) (alloc : Nat → Bool) (key : CString),
    xstrarray = some a0 → Run StrStep a0 ops a → Searches alloc a key := by
  intro h
  have hrun : Run StrStep ⟨8, true, 0, List.replicate 8 none⟩ [.setIndex 2 letterA] (stringAt 2) :=
    Run.single ⟨by show 2 ≤ 8; omega, granting, granting, rfl⟩
  have hsearches := h _ _ _ granting letterA rfl hrun
  have hfirst : FirstAt (stringAt 2).used letterA 2 := by
    refine ⟨rfl, fun j hj => ?_⟩
    match j, hj with
    | 0, _ => exact fun heq => nomatch heq
    | 1, _ => exact fun heq => nomatch heq
  obtain ⟨hfind, -⟩ := hsearches.found 2 hfirst
  have hnone : xarrayFind (some strarrayCmp) (stringAt 2) (some letterA) = none := rfl
  rw [hnone] at hfind
  cases hfind

/-- `"a"` at index 0. -/
theorem xarray_searches_first : Searches granting (stringAt 0) letterA := by
  have hrun : Run StrStep ⟨8, true, 0, List.replicate 8 none⟩ [.setIndex 0 letterA] (stringAt 0) :=
    Run.single ⟨by show 0 ≤ 8; omega, granting, granting, rfl⟩
  refine (xarray_searches_iff rfl hrun granting letterA).1.mpr fun i hnull => ?_
  match i with
  | 0 => exact nomatch hnull
  | i + 1 => exact nomatch hnull

end Xarray
end Xlibc
