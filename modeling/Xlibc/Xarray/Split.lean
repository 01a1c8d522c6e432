import Mathlib.Data.Nat.Prime.Basic
import Xlibc.Xarray.Extents
import Xlibc.Xarray.Join
import Xlibc.Xarray.Ops

/-!
# Xlibc.Xarray.Split

`xstr2array` against `List.splitOn`, and with `xarray2str` the round trip. The splitter keeps empty
fields, and the terminator ends the last one; the joiner leaves empty strings out.

* `Strings`   : an array that has grown from `xstrarray` and holds these strings.
* `cut`       : the fields that end in some bytes, `cut_splitOn` for a whole string.
* `Splitting` : the loop behind some fields and a part of the next.
* `xstr2array_cut`, `xarray2str_kept` : the two calls.
* `xstr2array_iff` : when they are inverse to each other.
-/

namespace Xlibc
namespace Xarray

/-! ## The array -/

/-- The size is doubled from 8 on. -/
structure Strings (a : XArray CString) (l : List CString) : Prop where
  holds : Holds a (l.map some)
  enable : a.appendEnable = true
  size : a.size ∣ 2 ^ 30

variable {a : XArray CString} {l : List CString}

theorem double_dvd {n : Nat} (h : n ∣ 2 ^ 30) (hlt : n < 2 ^ 30) : 2 * n ∣ 2 ^ 30 := by
  obtain ⟨m, hm, rfl⟩ := (Nat.dvd_prime_pow Nat.prime_two).mp h
  have hne : m ≠ 30 := fun h30 => by
    rw [h30] at hlt
    omega
  rw [← Nat.pow_succ']
  exact Nat.pow_dvd_pow 2 (by omega)

theorem xstrarray_strings : ∃ a, xstrarray = some a ∧ Strings a [] := by
  obtain ⟨a, hnew, hholds, hsize, hen⟩ :=
    xarrayCreate_holds (α := CString) (Nat.le_add_left 1 7) (by omega) true
  exact ⟨a, hnew, hholds, hen, by rw [hsize]; decide⟩

/-- One string behind the others. -/
theorem Strings.vset (h : Strings a l) (hlt : l.length < 2 ^ 30) (s : CString) :
    ∃ a', xarrayVset granting a [some s, none] = some (1, a') ∧ Strings a' (l ++ [s]) := by
  have hle := h.holds.le
  have hsize := Nat.le_of_dvd (by omega) h.size
  have hlen : (l.map some).length = l.length := List.length_map some
  rcases xarraySet_spec h.holds (fun hfull => by omega) (some s) with ⟨hno, -⟩ | ⟨a', -, hset, hholds, hen, hsz⟩
  · rw [h.enable] at hno
    cases hno
  · refine ⟨a', ?_, by rw [List.map_append]; exact hholds, hen.trans h.enable, ?_⟩
    · simp only [xarrayVset, vsetLoop, hset, Option.bind_eq_bind, Option.bind_some, ne_eq,
        not_true_eq_false, if_false]
      rfl
    · rw [hsz]
      split
      · exact h.size
      · next hfull => exact double_dvd h.size (by omega)

/-- A full array of `2^30` strings has nothing to store the next to. -/
theorem Strings.vset_full (h : Strings a l) (hlt : 2 ^ 30 ≤ l.length) (s : CString) :
    xarrayVset granting a [some s, none] = none := by
  have hle := h.holds.le
  have hcount := h.holds.count
  have hsize := Nat.le_of_dvd (by omega) h.size
  have hlen : (l.map some).length = l.length := List.length_map some
  have hfull : a.size = 2 ^ 30 := by omega
  have hset : xarraySet granting a (some s) = none := by
    refine setIndex_freed h.enable (by omega) (by omega) (m := 2 ^ 31) ?_ (by decide) (some s) false
    rw [hfull, if_neg (by rw [u32_of_lt (by omega)]; omega)]
    rfl
  rw [xarrayVset, vsetLoop, hset]
  rfl

theorem Slots.unique {xs ys : List (Option CString)} (hx : Slots a xs) (hy : Slots a ys) : xs = ys := by
  have hlen : xs.length = ys.length := hx.count.symm.trans hy.count
  have hdata := hx.data.symm.trans hy.data
  exact (List.append_inj hdata hlen).1

theorem map_some_inj {l l' : List CString} (h : l.map some = l'.map some) : l = l' :=
  List.map_injective_iff.mpr (Option.some_injective _) h

/-! ## Fields -/

/-- The fields that end in the bytes, at a `c` or a zero; `cur` is in front of the first. -/
def cut (c : Byte) : List Byte → List Byte → List (List Byte)
  | _, [] => []
  | cur, b :: bs => if b ≠ c ∧ b ≠ 0 then cut c (cur ++ [b]) bs else cur :: cut c [] bs

theorem cut_length (c : Byte) (bs : List Byte) :
    ∀ cur, (cut c cur bs).length = bs.countP fun b => b = c ∨ b = 0 := by
  induction bs with
  | nil => intro cur; rfl
  | cons b bs ih =>
    intro cur
    rw [cut]
    by_cases hb : b ≠ c ∧ b ≠ 0
    · rw [if_pos hb, ih, List.countP_cons_of_neg (by simp; exact hb)]
    · rw [if_neg hb, List.length_cons, ih, List.countP_cons_of_pos (by simp; tauto)]

/-- The terminator ends the last field. -/
theorem cut_splitOn (c : Byte) {s : List Byte} (hs : (0 : Byte) ∉ s) :
    ∀ cur, cut c cur (s ++ [0]) = (s.splitOn c).modifyHead (cur ++ ·) := by
  induction s with
  | nil =>
    intro cur
    simp [cut, List.splitOn_nil]
  | cons b s ih =>
    intro cur
    obtain ⟨hb, hrest⟩ : (0 : Byte) ≠ b ∧ (0 : Byte) ∉ s := by simpa using hs
    have ihs := ih hrest
    rw [List.cons_append, cut, List.splitOn_cons_eq_if_modifyHead]
    by_cases hc : b = c
    · rw [if_neg (fun hne => hne.1 hc), if_pos (by simpa using hc), ihs, List.modifyHead_cons, List.append_nil]
      congr 1
      cases s.splitOn c with
      | nil => rfl
      | cons w ws => rfl
    · rw [if_pos ⟨hc, fun h0 => hb h0.symm⟩, if_neg (by simpa using hc), ihs, List.modifyHead_modifyHead]
      congr 1
      funext w
      simp

theorem count_terminated (c : Byte) {s : List Byte} (hs : (0 : Byte) ∉ s) :
    (s.countP fun b => b = c ∨ b = 0) = s.count c := by
  rw [List.count_eq_countP]
  refine List.countP_congr fun b hb => ?_
  have hne : b ≠ 0 := fun h0 => hs (h0 ▸ hb)
  simp [hne]

theorem splitOn_length (c : Byte) {s : List Byte} (hs : (0 : Byte) ∉ s) :
    (s.splitOn c).length = 1 + s.count c := by
  have hcut := congrArg List.length (cut_splitOn c hs [])
  rw [cut_length, List.countP_append, count_terminated c hs, List.length_modifyHead] at hcut
  rw [← hcut]
  simp [Nat.add_comm]

/-! ## The loop -/

/-- The string of one split character. -/
def sep (c : Byte) (hc : c ≠ 0) : CString := ⟨[c], by simpa using hc.symm⟩

/-- The strings of the fields behind each other, and `cur` at the start of `tmp`, which has `room`
bytes. -/
structure Splitting (room : Nat) (l : List CString) (cur : List Byte) (st : SplitState) : Prop where
  array : Strings st.array l
  length : st.tmp.length = room
  j : st.j = cur.length
  take : st.tmp.take cur.length = cur
  nonzero : (0 : Byte) ∉ cur

variable {c b : Byte} {hc : c ≠ 0} {room : Nat} {cur : List Byte} {st : SplitState}

theorem sep_cond (hc : c ≠ 0) : (b ∉ (sep c hc).val ∧ b ≠ 0) ↔ (b ≠ c ∧ b ≠ 0) := by
  simp [sep]

/-- A byte of the field. -/
theorem splitByte_part (h : Splitting room l cur st) (hroom : cur.length < room) (hc : c ≠ 0)
    (hb : b ≠ c ∧ b ≠ 0) :
    ∃ st', splitByte granting granting (sep c hc) st b = some (some st') ∧
      Splitting room l (cur ++ [b]) st' := by
  have hlen := h.length
  obtain ⟨tmp, hstore⟩ : ∃ tmp, storeBytes st.tmp st.j [b] = some tmp :=
    storeBytes_some [b] (by rw [h.j, List.length_singleton]; omega)
  have htake := take_storeBytes hstore
  rw [h.j, h.take] at htake
  refine ⟨{ st with tmp := tmp, j := st.j + 1 }, ?_, h.array, (storeBytes_length hstore).trans hlen,
    ?_, ?_, ?_⟩
  · rw [splitByte, if_pos ((sep_cond hc).mpr hb), hstore]
    rfl
  · show st.j + 1 = _
    rw [List.length_append, h.j, List.length_singleton]
  · rw [List.length_append]
    exact htake
  · intro hmem
    rcases List.mem_append.mp hmem with hmem | hmem
    · exact h.nonzero hmem
    · exact hb.2 (List.mem_singleton.mp hmem).symm

/-- The end of a field: what is in `tmp` is copied, and the copy is the next string. -/
theorem splitByte_end {s : CString} (h : Splitting room l s.val st) (hroom : s.val.length < room)
    (hc : c ≠ 0) (hb : ¬ (b ≠ c ∧ b ≠ 0)) : ∃ tmp, tmp.length = room ∧
      splitByte granting granting (sep c hc) st b =
        (xarrayVset granting st.array [some s, none]).bind fun r =>
          if r.1 ≠ 1 then some none else some (some { tmp := tmp, j := 0, array := r.2 }) := by
  have hlen := h.length
  obtain ⟨tmp, hstore⟩ : ∃ tmp, storeBytes st.tmp st.j [0] = some tmp :=
    storeBytes_some [0] (by rw [h.j, List.length_singleton]; omega)
  have htake := take_storeBytes hstore
  rw [h.j, h.take] at htake
  have hcopy : cstring tmp = some s := by
    rw [← List.take_append_drop (s.val.length + [(0 : Byte)].length) tmp, htake, List.append_assoc]
    exact cstring_append_zero s _
  refine ⟨tmp, (storeBytes_length hstore).trans hlen, ?_⟩
  rw [splitByte, if_neg (fun hcond => hb ((sep_cond hc).mp hcond)), hstore]
  simp only [Option.bind_eq_bind, Option.bind_some, hcopy]
  rfl

/-- The loop from byte `i` on, by induction on the bytes: it ends with the fields that end in them, if
the array can hold them. -/
theorem split_runs (hc : c ≠ 0) (bs : List Byte) :
    ∀ {i : Nat} {l : List CString} {cur : List Byte} {st : SplitState}, i + bs.length ≤ intMax →
      cur.length + bs.length ≤ room → l.length ≤ 2 ^ 30 → Splitting room l cur st →
      (l.length + (cut c cur bs).length ≤ 2 ^ 30 → ∃ st' l',
        listExit (splitByte granting granting (sep c hc)) i bs st = some (some st') ∧
          Strings st'.array l' ∧ l'.map (·.val) = l.map (·.val) ++ cut c cur bs) ∧
      (2 ^ 30 < l.length + (cut c cur bs).length →
        listExit (splitByte granting granting (sep c hc)) i bs st = none) := by
  induction bs with
  | nil =>
    intro i l cur st _ _ hl h
    refine ⟨fun _ => ⟨st, l, rfl, h.array, by rw [cut, List.append_nil]⟩, fun hlt => ?_⟩
    rw [cut, List.length_nil] at hlt
    omega
  | cons b bs ih =>
    intro i l cur st hi hroom hl h
    rw [List.length_cons] at hi hroom
    have hmax : i ≠ intMax := by omega
    rw [cut]
    by_cases hb : b ≠ c ∧ b ≠ 0
    · obtain ⟨st1, hstep, h1⟩ := splitByte_part h (by omega) hc hb
      rw [if_pos hb, listExit_step hstep hmax]
      exact ih (by omega) (by rw [List.length_append, List.length_singleton]; omega) hl h1
    · obtain ⟨s, rfl⟩ : ∃ s : CString, s.val = cur := ⟨⟨cur, h.nonzero⟩, rfl⟩
      obtain ⟨tmp, htmp, hstep⟩ := splitByte_end h (by omega) hc hb
      rw [if_neg hb, List.length_cons]
      rcases Nat.lt_or_ge l.length (2 ^ 30) with hlt | hfull
      · obtain ⟨a', hset, ha'⟩ := h.array.vset hlt s
        rw [hset, Option.bind_some] at hstep
        have h1 : Splitting room (l ++ [s]) [] { tmp := tmp, j := 0, array := a' } :=
          ⟨ha', htmp, rfl, rfl, List.not_mem_nil⟩
        rw [listExit_step hstep hmax]
        obtain ⟨hyes, hno⟩ := ih (i := i + 1) (by omega) (by rw [List.length_nil]; omega)
          (by rw [List.length_append, List.length_singleton]; omega) h1
        rw [List.length_append, List.length_singleton, List.map_append, List.append_assoc] at hyes
        rw [List.length_append, List.length_singleton] at hno
        exact ⟨fun hle => hyes (by omega), fun hover => hno (by omega)⟩
      · rw [h.array.vset_full hfull] at hstep
        exact ⟨fun hle => by omega, fun _ => listExit_fault hstep⟩

/-! ## xstr2array -/

variable {s : CString} {m : Nat}

/-- The loop runs over the first `m` bytes of the string and its terminator. -/
theorem split_loop (hm : m ≤ s.val.length + 1) (split : CString) (st : SplitState) :
    forExit (fun i st => do
      let c ← (s.val ++ [0])[i]?
      splitByte granting granting split st c) 0 m st =
      listExit (splitByte granting granting split) 0 ((s.val ++ [0]).take m) st := by
  have hlen : ((s.val ++ [0]).take m).length = m := by
    rw [List.length_take, List.length_append, List.length_singleton]
    omega
  have hloop := forExit_list (f := splitByte granting granting split) (fun i st => do
      let c ← (s.val ++ [0])[i]?
      splitByte granting granting split st c) ((s.val ++ [0]).take m) 0 st fun j b hj st => by
    rw [List.getElem?_take] at hj
    split at hj
    · rw [Nat.zero_add, hj, Option.bind_eq_bind, Option.bind_some]
    · cases hj
  rw [hlen] at hloop
  exact hloop

/-- Behind `strlen` there are `m` rounds. -/
theorem xstr2array_loop (hne : i32OfNat s.val.length ≠ 0)
    (hm : (i32OfNat s.val.length + 1).toNat = m) (split : CString) : ∃ a, Strings a [] ∧
      xstr2array granting granting s split =
        (listExit (splitByte granting granting split) 0 ((s.val ++ [0]).take m)
          { tmp := s.val ++ [0], j := 0, array := a }).bind fun r => some (r.map (·.array)) := by
  obtain ⟨a, hnew, ha⟩ := xstrarray_strings
  have hcreate : xarrayCreate 8 true = some a := hnew
  have hle := i32OfNat_le s.val.length
  refine ⟨a, ha, ?_⟩
  rw [xstr2array, if_neg hne, if_neg (by simp [granting]), hcreate, Option.bind_eq_bind, Option.bind_some,
    hm, split_loop (by omega)]
  cases listExit (splitByte granting granting split) 0 ((s.val ++ [0]).take m)
      { tmp := s.val ++ [0], j := 0, array := a } with
  | none => rfl
  | some r => cases r <;> rfl

/-- Where the counter stays an `int`, the array gets the fields that end in the first `m` bytes. -/
theorem xstr2array_cut (hc : c ≠ 0) (hne : i32OfNat s.val.length ≠ 0)
    (hm : (i32OfNat s.val.length + 1).toNat = m) (hmax : m ≤ intMax) :
    ((cut c [] ((s.val ++ [0]).take m)).length ≤ 2 ^ 30 → ∃ b l,
      xstr2array granting granting s (sep c hc) = some (some b) ∧ Strings b l ∧
        l.map (·.val) = cut c [] ((s.val ++ [0]).take m)) ∧
    (2 ^ 30 < (cut c [] ((s.val ++ [0]).take m)).length →
      xstr2array granting granting s (sep c hc) = none) := by
  obtain ⟨a, ha, hloop⟩ := xstr2array_loop hne hm (sep c hc)
  have hle := i32OfNat_le s.val.length
  have hlen : ((s.val ++ [0]).take m).length = m := by
    rw [List.length_take, List.length_append, List.length_singleton]
    omega
  have hstart : Splitting (s.val.length + 1) [] [] { tmp := s.val ++ [0], j := 0, array := a } :=
    ⟨ha, by simp, rfl, rfl, List.not_mem_nil⟩
  obtain ⟨hyes, hno⟩ := split_runs hc ((s.val ++ [0]).take m) (i := 0) (by omega)
    (by rw [List.length_nil]; omega) (by simp) hstart
  rw [List.length_nil, Nat.zero_add] at hyes hno
  rw [hloop]
  constructor
  · intro hfit
    obtain ⟨st, l, hrun, hl, hvals⟩ := hyes hfit
    exact ⟨st.array, l, by rw [hrun]; rfl, hl, hvals⟩
  · intro hover
    rw [hno hover]
    rfl

/-- A string whose length is an `int` that can be counted past, with at most `2^30` fields. -/
theorem xstr2array_splitOn (hc : c ≠ 0) (hs : s.val ≠ []) (hlen : s.val.length < intMax) :
    (s.val.count c < 2 ^ 30 → ∃ b l, xstr2array granting granting s (sep c hc) = some (some b) ∧
      Strings b l ∧ l.map (·.val) = s.val.splitOn c) ∧
    (2 ^ 30 ≤ s.val.count c → xstr2array granting granting s (sep c hc) = none) := by
  have hpos : 0 < s.val.length := List.length_pos_iff.mpr hs
  have hint : i32OfNat s.val.length = s.val.length := i32OfNat_of_lt (by unfold intMax at hlen; omega)
  have hall : (s.val ++ [0]).take (s.val.length + 1) = s.val ++ [0] :=
    List.take_of_length_le (by rw [List.length_append, List.length_singleton])
  have hcut : cut c [] (s.val ++ [0]) = s.val.splitOn c := by
    rw [cut_splitOn c s.property]
    cases s.val.splitOn c with
    | nil => rfl
    | cons w ws => rfl
  obtain ⟨hyes, hno⟩ := xstr2array_cut (s := s) (m := s.val.length + 1) hc (by rw [hint]; omega)
    (by rw [hint]; omega) (by omega)
  rw [hall, hcut, splitOn_length c s.property] at hyes hno
  exact ⟨fun hlt => hyes (by omega), fun hge => hno (by omega)⟩

/-- A string that is as long as `INT_MAX` or longer loses its last field, if there is a result. -/
theorem xstr2array_short (hc : c ≠ 0) (hlen : intMax ≤ s.val.length) {b : XArray CString}
    (hrun : xstr2array granting granting s (sep c hc) = some (some b)) : b.count ≤ s.val.count c := by
  by_cases hne : i32OfNat s.val.length = 0
  · rw [xstr2array, if_pos hne] at hrun
    cases hrun
  · obtain ⟨m, hm⟩ : ∃ m, (i32OfNat s.val.length + 1).toNat = m := ⟨_, rfl⟩
    by_cases hmax : m ≤ intMax
    · -- the terminator is not among the bytes
      have hfront : (s.val ++ [0]).take m = s.val.take m := by
        refine List.take_append_of_le_length ?_
        omega
      obtain ⟨hyes, hno⟩ := xstr2array_cut (s := s) hc hne hm hmax
      have hcount : (cut c [] ((s.val ++ [0]).take m)).length ≤ s.val.count c := by
        have hzero : (0 : Byte) ∉ s.val.take m := fun hmem => s.property (List.mem_of_mem_take hmem)
        rw [hfront, cut_length, count_terminated c hzero]
        exact (List.take_sublist m s.val).count_le c
      rcases Nat.lt_or_ge (2 ^ 30) (cut c [] ((s.val ++ [0]).take m)).length with hover | hfit
      · rw [hno hover] at hrun
        cases hrun
      · obtain ⟨b', l, hrun', hl, hvals⟩ := hyes hfit
        cases hrun.symm.trans hrun'
        have hl' := congrArg List.length hvals
        rw [List.length_map] at hl'
        rw [hl.holds.count, List.length_map]
        omega
    · obtain ⟨a, -, hloop⟩ := xstr2array_loop hne hm (sep c hc)
      have hle := i32OfNat_le s.val.length
      rw [hloop, ← split_loop (by omega)] at hrun
      cases hexit : forExit (fun i st => do
          let b ← (s.val ++ [0])[i]?
          splitByte granting granting (sep c hc) st b) 0 m
          { tmp := s.val ++ [0], j := 0, array := a } with
      | none =>
        rw [hexit] at hrun
        cases hrun
      | some r =>
        cases r with
        | none =>
          rw [hexit] at hrun
          cases hrun
        | some st => exact absurd hexit (forExit_overflow (Nat.zero_le _) (by omega))

/-! ## xarray2str -/

variable {ws : List (List Byte)} {xs : List (Option CString)}

theorem joined_intercalate (c : Byte) (hne : ws ≠ []) : joined c ws = [c].intercalate ws ++ [c] := by
  induction ws with
  | nil => exact absurd rfl hne
  | cons w ws ih =>
    cases ws with
    | nil => simp [joined]
    | cons w' ws =>
      have hcons : joined c (w :: w' :: ws) = w ++ [c] ++ joined c (w' :: ws) := rfl
      rw [hcons, ih (by simp), List.intercalate_cons_cons, List.append_assoc, List.append_assoc,
        List.append_assoc]

theorem two_le_joined (c : Byte) (hne : ∀ w ∈ ws, w ≠ []) : 2 * ws.length ≤ (joined c ws).length := by
  induction ws with
  | nil => exact Nat.zero_le _
  | cons w ws ih =>
    have hw : 0 < w.length := List.length_pos_iff.mpr (hne w List.mem_cons_self)
    have hrest := ih fun w' hw' => hne w' (List.mem_cons_of_mem w hw')
    have hcons : joined c (w :: ws) = w ++ [c] ++ joined c ws := rfl
    rw [hcons, List.length_append, List.length_append, List.length_cons, List.length_singleton]
    omega

theorem zero_notMem_joined (hc : c ≠ 0) (hws : ∀ w ∈ ws, (0 : Byte) ∉ w) : (0 : Byte) ∉ joined c ws := by
  intro hmem
  obtain ⟨v, hv, h0⟩ := List.mem_flatten.mp hmem
  obtain ⟨w, hw, rfl⟩ := List.mem_map.mp hv
  rcases List.mem_append.mp h0 with h0 | h0
  · exact hws w hw h0
  · exact hc (List.mem_singleton.mp h0).symm

theorem zero_notMem_intercalate (hc : c ≠ 0) (hws : ∀ w ∈ ws, (0 : Byte) ∉ w) :
    (0 : Byte) ∉ [c].intercalate ws := by
  intro hmem
  by_cases hne : ws = []
  · rw [hne] at hmem
    cases hmem
  · refine zero_notMem_joined hc hws ?_
    rw [joined_intercalate c hne]
    exact List.mem_append_left _ hmem

theorem length_le_intercalate (c : Byte) {w : List Byte} (hw : w ∈ ws) :
    w.length ≤ ([c].intercalate ws).length := by
  have hne : ws ≠ [] := List.ne_nil_of_mem hw
  have hsub : (w ++ [c]).Sublist (joined c ws) :=
    List.sublist_flatten_of_mem (List.mem_map_of_mem hw)
  have hle := hsub.length_le
  rw [joined_intercalate c hne, List.length_append, List.length_append] at hle
  omega

theorem i32OfNat_eq_zero (n : Nat) : i32OfNat n = 0 ↔ 2 ^ 32 ∣ n := by
  unfold i32OfNat
  split <;> omega

theorem kept_map (l : List CString) :
    kept (l.map some) = (l.filter fun s => ¬ 2 ^ 32 ∣ s.val.length).map (·.val) := by
  induction l with
  | nil => rfl
  | cons s l ih =>
    rw [List.map_cons, kept, ih]
    by_cases hs : 2 ^ 32 ∣ s.val.length
    · rw [if_pos ((i32OfNat_eq_zero _).mpr hs), List.filter_cons_of_neg (by simpa using hs)]
    · rw [if_neg (fun h0 => hs ((i32OfNat_eq_zero _).mp h0)), List.filter_cons_of_pos (by simpa using hs)]
      rfl

theorem zero_notMem_kept (l : List CString) : ∀ w ∈ kept (l.map some), (0 : Byte) ∉ w := by
  intro w hw
  rw [kept_map] at hw
  obtain ⟨s, -, rfl⟩ := List.mem_map.mp hw
  exact s.property

/-- The joined string and its terminator, where all writes are inside the block. -/
theorem xarray2str_kept (h : Slots a xs) (c fill : Byte) (hjoins : Joins granting 0 256 0 (xs.map slotLen)) :
    (joined c (kept xs)).length < intMax ∧ ∃ rest,
      xarray2str granting fill c (some a) = some (some ([c].intercalate (kept xs) ++ 0 :: rest)) := by
  rcases join_cases granting fill xs (Nat.zero_le _) (joined_init c) with ⟨-, hno⟩ |
    ⟨-, ⟨-, g, hg⟩ | ⟨st, n, hlist, hst⟩⟩
  · exact absurd hjoins hno
  · cases hg
  · have hroom := hst.room
    have hint := hst.int
    have htake := hst.take
    rw [List.nil_append] at hst hroom htake
    refine ⟨by omega, ?_⟩
    rw [xarray2str_done h rfl hlist]
    by_cases hne : kept xs = []
    · have hoff : st.offset = 0 := by
        rw [hst.offset, hne]
        rfl
      obtain ⟨rest, hrest⟩ := List.head?_eq_some_iff.mp (hst.empty hne)
      refine ⟨rest, ?_⟩
      rw [if_neg (not_not.mpr hoff), hrest, hne]
      rfl
    · have hbody := joined_intercalate c hne
      have hoff : st.offset = ([c].intercalate (kept xs)).length + 1 := by
        rw [hst.offset, hbody, List.length_append, List.length_singleton]
      obtain ⟨rest, hrest⟩ : ∃ rest, st.str.drop (joined c (kept xs)).length = rest := ⟨_, rfl⟩
      have hblock := List.take_append_drop (joined c (kept xs)).length st.str
      rw [hrest, htake, hbody, List.append_assoc, List.singleton_append] at hblock
      refine ⟨rest, ?_⟩
      rw [if_pos (by omega), hoff, Nat.add_sub_cancel, ← hblock, storeBytes_singleton]
      rfl

/-! ## Both ways -/

/-- Joined and split again, the strings of the array are the strings of the new one. -/
def RoundTrips (c : Byte) (hc : c ≠ 0) (fill : Byte) (l : List CString) (a : XArray CString) : Prop :=
  ∃ str t b, xarray2str granting fill c (some a) = some (some str) ∧ cstring str = some t ∧
    xstr2array granting granting t (sep c hc) = some (some b) ∧ Slots b (l.map some)

/-- The fields of a string, in an array; and if they can be written in turn, joining that array gives
the fields that are not empty. -/
def Splits (c : Byte) (hc : c ≠ 0) (fill : Byte) (s : CString) : Prop :=
  ∃ (b : XArray CString) (fields : List CString),
    xstr2array granting granting s (sep c hc) = some (some b) ∧ Slots b (fields.map some) ∧
    fields.length = 1 + s.val.count c ∧ [c].intercalate (fields.map (·.val)) = s.val ∧
    (Joins granting 0 256 0 (fields.map fun f => f.val.length) → ∃ str t,
      xarray2str granting fill c (some b) = some (some str) ∧ cstring str = some t ∧
        t.val = [c].intercalate ((fields.map (·.val)).filter (· ≠ [])))

theorem map_slotLen (l : List CString) : (l.map some).map slotLen = l.map fun s => s.val.length := by
  rw [List.map_map]
  rfl

/-- The fields of what `xarray2str` has joined, split again. -/
theorem xstr2array_joined (hc : c ≠ 0) (hne : ws ≠ []) (hws : ∀ w ∈ ws, w ≠ [] ∧ c ∉ w)
    (hbound : (joined c ws).length < intMax) {t : CString} (ht : t.val = [c].intercalate ws) :
    ∃ b l, xstr2array granting granting t (sep c hc) = some (some b) ∧ Strings b l ∧
      l.map (·.val) = ws := by
  have hsplit : t.val.splitOn c = ws := by
    rw [ht]
    exact List.splitOn_intercalate c (fun w hw => (hws w hw).2) hne
  have hfields := splitOn_length c t.property
  have htwo := two_le_joined c fun w hw => (hws w hw).1
  have hpos : 0 < ws.length := List.length_pos_iff.mpr hne
  rw [joined_intercalate c hne, ← ht, List.length_append, List.length_singleton] at hbound htwo
  have hnil : t.val ≠ [] := fun h0 => by
    rw [h0, List.length_nil] at htwo
    omega
  rw [hsplit] at hfields
  obtain ⟨hyes, -⟩ := xstr2array_splitOn (s := t) hc hnil (by omega)
  rw [hsplit] at hyes
  refine hyes ?_
  unfold intMax at hbound
  omega

theorem round_trips (hc : c ≠ 0) (fill : Byte) (hl : l ≠ []) (hw : ∀ s ∈ l, s.val ≠ [] ∧ c ∉ s.val)
    (h : Slots a (l.map some)) (hjoins : Joins granting 0 256 0 (l.map fun s => s.val.length)) :
    RoundTrips c hc fill l a ↔ ∀ s ∈ l, ¬ 2 ^ 32 ∣ s.val.length := by
  rw [← map_slotLen] at hjoins
  obtain ⟨hbound, rest, hjoin⟩ := xarray2str_kept h c fill hjoins
  have hzero := zero_notMem_intercalate hc (zero_notMem_kept l)
  obtain ⟨t, ht⟩ : ∃ t : CString, t.val = [c].intercalate (kept (l.map some)) := ⟨⟨_, hzero⟩, rfl⟩
  have hread : cstring ([c].intercalate (kept (l.map some)) ++ 0 :: rest) = some t := by
    rw [← ht]
    exact cstring_append_zero t rest
  have hkeptw : ∀ w ∈ kept (l.map some), w ≠ [] ∧ c ∉ w := by
    intro w hmem
    rw [kept_map] at hmem
    obtain ⟨s, hs, rfl⟩ := List.mem_map.mp hmem
    exact hw s (List.mem_filter.mp hs).1
  have hiff : kept (l.map some) = l.map (·.val) ↔ ∀ s ∈ l, ¬ 2 ^ 32 ∣ s.val.length := by
    rw [kept_map]
    constructor
    · intro heq s hs
      have hlen := congrArg List.length heq
      rw [List.length_map, List.length_map, List.length_filter_eq_length_iff] at hlen
      simpa using hlen s hs
    · intro hall
      rw [List.filter_eq_self.mpr fun s hs => by simpa using hall s hs]
  rw [← hiff]
  constructor
  · rintro ⟨str, t', b, hstr, hcs, hsplit, hb⟩
    cases hjoin.symm.trans hstr
    cases hread.symm.trans hcs
    by_cases hne : kept (l.map some) = []
    · -- nothing has been joined, and the empty string gives `NULL`
      have hnull : xstr2array granting granting t (sep c hc) = some none := by
        rw [xstr2array, if_pos (by rw [ht, hne]; rfl)]
      cases hnull.symm.trans hsplit
    · obtain ⟨b', l', hsplit', hl', hvals⟩ := xstr2array_joined hc hne hkeptw hbound ht
      cases hsplit.symm.trans hsplit'
      have hsame := map_some_inj (hb.unique hl'.holds.slots)
      rw [← hvals, hsame]
  · intro heq
    have hne : kept (l.map some) ≠ [] := by
      rw [heq]
      simpa using hl
    obtain ⟨b, l', hsplit, hl', hvals⟩ := xstr2array_joined hc hne hkeptw hbound ht
    have hsame : l' = l := List.map_injective_iff.mpr Subtype.val_injective (hvals.trans heq)
    rw [hsame] at hl'
    exact ⟨_, t, b, hjoin, hread, hsplit, hl'.holds.slots⟩

theorem splits_iff (hc : c ≠ 0) (fill : Byte) (hs : s.val ≠ []) :
    Splits c hc fill s ↔ s.val.length < intMax ∧ s.val.count c < 2 ^ 30 := by
  constructor
  · rintro ⟨b, fields, hrun, hb, hlen, -, -⟩
    have hcount := hb.count
    rw [List.length_map, hlen] at hcount
    by_cases hmax : s.val.length < intMax
    · refine ⟨hmax, ?_⟩
      by_contra hge
      rw [(xstr2array_splitOn hc hs hmax).2 (by omega)] at hrun
      cases hrun
    · have hshort := xstr2array_short hc (by omega) hrun
      omega
  · rintro ⟨hmax, hcount⟩
    obtain ⟨b, fields, hrun, hb, hvals⟩ := (xstr2array_splitOn hc hs hmax).1 hcount
    have hlen := congrArg List.length hvals
    rw [List.length_map, splitOn_length c s.property] at hlen
    refine ⟨b, fields, hrun, hb.holds.slots, hlen, by rw [hvals, List.intercalate_splitOn], fun hjoins => ?_⟩
    rw [← map_slotLen] at hjoins
    obtain ⟨-, rest, hjoin⟩ := xarray2str_kept hb.holds.slots c fill hjoins
    -- no field is longer than the string, so only the empty ones are skipped
    have hkept : kept (fields.map some) = (fields.map (·.val)).filter (· ≠ []) := by
      rw [kept_map, List.filter_map]
      congr 1
      refine List.filter_congr fun f hf => ?_
      have hle := length_le_intercalate c (List.mem_map_of_mem (f := (·.val)) hf)
      rw [hvals, List.intercalate_splitOn] at hle
      have hiff : 2 ^ 32 ∣ f.val.length ↔ f.val = [] := by
        rw [← List.length_eq_zero_iff]
        unfold intMax at hmax
        omega
      simpa using hiff
    rw [hkept] at hjoin
    have hzero : (0 : Byte) ∉ [c].intercalate ((fields.map (·.val)).filter (· ≠ [])) := by
      rw [← hkept]
      exact zero_notMem_intercalate hc (zero_notMem_kept fields)
    exact ⟨_, ⟨_, hzero⟩, hjoin, cstring_append_zero ⟨_, hzero⟩ rest, rfl⟩

/-- **Joining and splitting.** Strings without the split character, none of them empty, come back from
an array whose strings can be written in turn, exactly when `xarray2str` skips none of them. A string
is split into all its fields, and these are joined again but for the empty ones, exactly when its
length is below `INT_MAX` and it has at most `2^30` fields. -/
theorem xstr2array_iff (hc : c ≠ 0) (fill : Byte) :
    (∀ (l : List CString) (a : XArray CString), l ≠ [] → (∀ s ∈ l, s.val ≠ [] ∧ c ∉ s.val) →
      Slots a (l.map some) → Joins granting 0 256 0 (l.map fun s => s.val.length) →
      (RoundTrips c hc fill l a ↔ ∀ s ∈ l, ¬ 2 ^ 32 ∣ s.val.length)) ∧
    ∀ s : CString, s.val ≠ [] →
      (Splits c hc fill s ↔ s.val.length < intMax ∧ s.val.count c < 2 ^ 30) :=
  ⟨fun _ _ hl hw h hjoins => round_trips hc fill hl hw h hjoins, fun _ hs => splits_iff hc fill hs⟩

/-! ## Strings that are added one by one -/

theorem xstrarrayadd_strings (h : Strings a l) (hlt : l.length < 2 ^ 30) (s : CString) :
    ∃ a', xstrarrayadd granting granting a s = some (0, a') ∧ Strings a' (l ++ [s]) := by
  obtain ⟨a', hset, h'⟩ := h.vset hlt s
  refine ⟨a', ?_, h'⟩
  rw [xstrarrayadd, if_neg (by simp [granting]), hset]
  rfl

/-- `xstrarrayadd` for each string. -/
def addAll (a : XArray CString) (ss : List CString) : Option (XArray CString) :=
  ss.foldlM (fun a s => (xstrarrayadd granting granting a s).map Prod.snd) a

theorem addAll_strings (ss : List CString) : ∀ {a : XArray CString} {l : List CString}, Strings a l →
    l.length + ss.length ≤ 2 ^ 30 → ∃ a', addAll a ss = some a' ∧ Strings a' (l ++ ss) := by
  induction ss with
  | nil =>
    intro a l h _
    exact ⟨a, rfl, by rw [List.append_nil]; exact h⟩
  | cons s ss ih =>
    intro a l h hle
    rw [List.length_cons] at hle
    obtain ⟨a1, hadd, h1⟩ := xstrarrayadd_strings h (by omega) s
    obtain ⟨a', hall, h'⟩ := ih h1 (by rw [List.length_append, List.length_singleton]; omega)
    refine ⟨a', ?_, by rw [List.append_assoc] at h'; exact h'⟩
    rw [addAll, List.foldlM_cons, hadd]
    exact hall

/-- `"-aa--a"` -/
def dashed : CString := ⟨[45, 97, 97, 45, 45, 97], by decide⟩

/-- `"aa"` and `"a"`, added to an `xstrarray()`; and a string with two empty fields. -/
theorem xstr2array_dashed :
    (∃ a₀ a, xstrarray = some a₀ ∧ addAll a₀ [letters 2, letters 1] = some a ∧
      RoundTrips 45 (by decide) 0 [letters 2, letters 1] a) ∧ Splits 45 (by decide) 0 dashed := by
  obtain ⟨hround, hsplit⟩ := xstr2array_iff (c := 45) (by decide) 0
  refine ⟨?_, (hsplit dashed (List.cons_ne_nil _ _)).mpr ⟨by decide, by decide⟩⟩
  obtain ⟨a₀, hnew, h₀⟩ := xstrarray_strings
  obtain ⟨a, hadd, ha⟩ := addAll_strings [letters 2, letters 1] h₀ (by decide)
  refine ⟨a₀, a, hnew, hadd, (hround _ a (List.cons_ne_nil _ _) ?_ ha.holds.slots ?_).mpr ?_⟩
  · intro s hs
    rcases List.mem_pair.mp hs with rfl | rfl <;> decide
  · simp [Joins, letters_length, grown, Misses, i32OfNat, intMax]
  · intro s hs
    rcases List.mem_pair.mp hs with rfl | rfl <;> rw [letters_length] <;> decide

/-- The length of a string of `2^31` letters is negative as an `int`: the array stays empty. -/
theorem xstr2array_not_splits :
    (letters (2 ^ 31)).val ≠ [] ∧ ¬ Splits 45 (by decide) 0 (letters (2 ^ 31)) := by
  have hlen := letters_length (2 ^ 31)
  refine ⟨fun hnil => ?_, ?_⟩
  · rw [hnil] at hlen
    cases hlen
  · rintro ⟨b, fields, hrun, hb, hfields, -, -⟩
    have hshort := xstr2array_short (by decide) (by rw [hlen]; decide) hrun
    have hcount := hb.count
    rw [List.length_map, hfields] at hcount
    omega

end Xarray
end Xlibc
