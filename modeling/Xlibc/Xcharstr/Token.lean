import Mathlib.Data.List.Forall2
import Xlibc.Base.CStr

/-!
# Xlibc.Xcharstr.Token

`xstrtok`: the tokens of a string are terminated where they stand, and pointers to them are stored.

* `segments` : the longest pieces of a string without separators.
* `Reads`    : pointers into a block, and the strings at them.
* `tokLoop_spec` : the scan outside of a token, and inside of one.
* `xstrtok_segments` : as many segments as there are pointers, in order.
-/

namespace Xlibc
namespace Xcharstr

/-! ## The code -/

/-- `tptrs[j] = p`. Pointers are positions in the block. -/
def storePtr (tptrs : List Nat) (j p : Nat) : Option (List Nat) :=
  if j < tptrs.length then some (tptrs.set j p) else none

/-- `while (*str)`, behind `j` tokens. Every round reads further in the block. -/
def tokLoop (sep : List Byte) (nptrs : Nat) :
    Nat → List Byte → Nat → List Nat → Nat → Bool → Option (Nat × List Byte × List Nat)
  | 0, _, _, _, _, _ => none
  | fuel + 1, block, str, tptrs, j, inside => do
    let c ← block[str]?
    if c = 0 then some (j, block, tptrs)
    else
      let i := sep.findIdx (· == c)
      if i = sep.length then
        if inside = false then do
          let tptrs ← storePtr tptrs j str
          tokLoop sep nptrs fuel block (str + 1) tptrs (j + 1) true
        else tokLoop sep nptrs fuel block (str + 1) tptrs j inside
      else
        if inside then do
          let block ← storeBytes block str [0]
          if j = nptrs then some (j, block, tptrs)
          else tokLoop sep nptrs fuel block (str + 1) tptrs j false
        else tokLoop sep nptrs fuel block (str + 1) tptrs j inside

/-- The string is at the start of `block`, and the result is the count, the block and the pointers. -/
def xstrtok (sep : CString) (block : List Byte) (tptrs : List Nat) (nptrs : Nat) :
    Option (Nat × List Byte × List Nat) :=
  tokLoop sep.val nptrs (block.length + 1) block 0 tptrs 0 false

/-! ## Segments -/

def isSep (sep : List Byte) (c : Byte) : Bool := sep.contains c

/-- The pieces between separators that are not empty. -/
def segments (sep s : List Byte) : List (List Byte) := (s.splitOnP (isSep sep)).filter (· ≠ [])

section Segments

variable {sep u : List Byte} {c : Byte}

theorem segments_sep (hc : isSep sep c = true) (t : List Byte) : segments sep (c :: t) = segments sep t := by
  have hnil : ∀ x ∈ ([] : List Byte), isSep sep x = false := fun x hx => by cases hx
  rw [segments, ← List.nil_append (c :: t), List.splitOnP_append_cons_of_forall_mem hnil c hc]
  rfl

theorem segments_open (hu : ∀ x ∈ u, isSep sep x = false) (hne : u ≠ []) : segments sep u = [u] := by
  rw [segments, List.splitOnP_eq_singleton hu, List.filter_cons_of_pos (by simpa using hne)]
  rfl

theorem segments_close (hu : ∀ x ∈ u, isSep sep x = false) (hne : u ≠ []) (hc : isSep sep c = true)
    (t : List Byte) : segments sep (u ++ c :: t) = u :: segments sep t := by
  rw [segments, List.splitOnP_append_cons_of_forall_mem hu c hc, List.filter_cons_of_pos (by simpa using hne)]
  rfl

/-- The inner loop looks for the byte among the separators. -/
theorem findIdx_sep (sep : List Byte) (c : Byte) : sep.findIdx (· == c) = sep.length ↔ isSep sep c = false := by
  rw [List.findIdx_eq_length, isSep, List.contains_eq_mem, decide_eq_false_iff_not]
  simp only [beq_eq_false_iff_ne]
  exact ⟨fun h hmem => h c hmem rfl, fun h x hx hxc => h (hxc ▸ hx)⟩

end Segments

/-! ## The scan -/

/-- The strings at the pointers, each of which ends in the block. -/
def Reads (block : List Byte) (ptrs : List Nat) (segs : List (List Byte)) : Prop :=
  List.Forall₂ (fun p seg => cstr (block.drop p) = some seg) ptrs segs

theorem cstr_append {block t : List Byte} (h : cstr block = some t) (more : List Byte) :
    cstr (block ++ more) = some t := by
  rw [cstr] at h ⊢
  split at h
  · next hmem =>
    rw [if_pos (List.mem_append_left more hmem), ← h, List.takeWhile_append, if_neg]
    intro hall
    have hsame := (List.takeWhile_prefix (· ≠ (0 : Byte))).eq_of_length hall
    rw [List.takeWhile_eq_self_iff] at hsame
    simpa using hsame 0 hmem
  · cases h

theorem Reads.append {block : List Byte} {ptrs : List Nat} {segs : List (List Byte)} (h : Reads block ptrs segs)
    (more : List Byte) : Reads (block ++ more) ptrs segs := by
  refine h.imp fun p seg hp => ?_
  have hle : p ≤ block.length := by
    by_contra hlt
    rw [List.drop_of_length_le (by omega)] at hp
    cases hp
  rw [List.drop_append_of_le_length hle]
  exact cstr_append hp more

theorem Reads.snoc {block u : List Byte} {ptrs : List Nat} {segs : List (List Byte)} (h : Reads block ptrs segs)
    (hu : (0 : Byte) ∉ u) : Reads (block ++ (u ++ [0])) (ptrs ++ [block.length]) (segs ++ [u]) :=
  List.rel_append (h.append _) (.cons (cstr_drop hu block []) .nil)

theorem Reads.map {block : List Byte} {ptrs : List Nat} {segs : List (List Byte)} (h : Reads block ptrs segs) :
    ptrs.map (fun p => cstr (block.drop p)) = segs.map some := by
  induction h with
  | nil => rfl
  | cons hp _ ih => rw [List.map_cons, List.map_cons, hp, ih]

/-- The loop returns the pointers to `segs` with `tail` behind them, and has not touched `rest`. -/
def Ends (len : Nat) (rest : List Byte) (tail : List Nat) (segs : List (List Byte))
    (result : Option (Nat × List Byte × List Nat)) : Prop :=
  ∃ block ptrs, result = some (ptrs.length, block ++ 0 :: rest, ptrs ++ tail) ∧ block.length = len ∧
    Reads (block ++ [0]) ptrs segs

section Scan

variable {sep : List Byte} {nptrs fuel : Nat} {block : List Byte} {str : Nat} {tptrs : List Nat} {j : Nat}
  {inside : Bool} {c : Byte}

theorem tokLoop_end (hc : block[str]? = some 0) :
    tokLoop sep nptrs (fuel + 1) block str tptrs j inside = some (j, block, tptrs) := by
  rw [tokLoop, hc]
  rfl

theorem tokLoop_start (hc : block[str]? = some c) (h0 : c ≠ 0) (hsep : isSep sep c = false) {tptrs' : List Nat}
    (hstore : storePtr tptrs j str = some tptrs') :
    tokLoop sep nptrs (fuel + 1) block str tptrs j false =
      tokLoop sep nptrs fuel block (str + 1) tptrs' (j + 1) true := by
  simp only [tokLoop, hc, Option.bind_eq_bind, Option.bind_some, h0, if_false, (findIdx_sep sep c).mpr hsep,
    if_true, hstore]

theorem tokLoop_inside (hc : block[str]? = some c) (h0 : c ≠ 0) (hsep : isSep sep c = false) :
    tokLoop sep nptrs (fuel + 1) block str tptrs j true = tokLoop sep nptrs fuel block (str + 1) tptrs j true := by
  simp only [tokLoop, hc, Option.bind_eq_bind, Option.bind_some, h0, if_false, (findIdx_sep sep c).mpr hsep,
    if_true, Bool.true_eq_false]

theorem tokLoop_outside (hc : block[str]? = some c) (h0 : c ≠ 0) (hsep : isSep sep c = true) :
    tokLoop sep nptrs (fuel + 1) block str tptrs j false =
      tokLoop sep nptrs fuel block (str + 1) tptrs j false := by
  have hi : ¬ sep.findIdx (· == c) = sep.length := fun h => by
    rw [(findIdx_sep sep c).mp h] at hsep
    cases hsep
  simp only [tokLoop, hc, Option.bind_eq_bind, Option.bind_some, h0, if_false, hi, Bool.false_eq_true]

theorem tokLoop_close (hc : block[str]? = some c) (h0 : c ≠ 0) (hsep : isSep sep c = true) {block' : List Byte}
    (hstore : storeBytes block str [0] = some block') :
    tokLoop sep nptrs (fuel + 1) block str tptrs j true =
      if j = nptrs then some (j, block', tptrs) else tokLoop sep nptrs fuel block' (str + 1) tptrs j false := by
  have hi : ¬ sep.findIdx (· == c) = sep.length := fun h => by
    rw [(findIdx_sep sep c).mp h] at hsep
    cases hsep
  simp only [tokLoop, hc, Option.bind_eq_bind, Option.bind_some, h0, if_false, hi, if_true, hstore]

theorem storePtr_next (ptrs : List Nat) (o : Nat) (old : List Nat) (p : Nat) :
    storePtr (ptrs ++ o :: old) ptrs.length p = some (ptrs ++ [p] ++ old) := by
  rw [storePtr, if_pos (by simp), List.set_append_right _ _ (Nat.le_refl _), Nat.sub_self, List.set_cons_zero]
  simp

end Scan

/-- The scan in front of `t`, outside of a token and with pointers left. -/
def ScansOutside (sep rest t : List Byte) : Prop :=
  ∀ (fuel : Nat) (pre : List Byte) (ptrs old : List Nat) (segs : List (List Byte)), t.length < fuel →
    Reads pre ptrs segs → old ≠ [] →
    Ends (pre.length + t.length) rest (old.drop (segments sep t).length) (segs ++ (segments sep t).take old.length)
      (tokLoop sep (ptrs ++ old).length fuel (pre ++ (t ++ 0 :: rest)) pre.length (ptrs ++ old) ptrs.length false)

/-- The scan in front of `t`, inside of a token `u` whose pointer is stored. -/
def ScansInside (sep rest t : List Byte) : Prop :=
  ∀ (fuel : Nat) (pre u : List Byte) (ptrs old : List Nat) (o : Nat) (segs : List (List Byte)), t.length < fuel →
    Reads pre ptrs segs → (0 : Byte) ∉ u → (∀ x ∈ u, isSep sep x = false) → u ≠ [] →
    Ends (pre.length + u.length + t.length) rest ((o :: old).drop (segments sep (u ++ t)).length)
      (segs ++ (segments sep (u ++ t)).take (o :: old).length)
      (tokLoop sep (ptrs ++ o :: old).length fuel (pre ++ u ++ (t ++ 0 :: rest)) (pre ++ u).length
        (ptrs ++ [pre.length] ++ old) (ptrs.length + 1) true)

section Steps

variable {sep rest t : List Byte} {c : Byte}

theorem scansOutside_nil : ScansOutside sep rest [] := by
  intro fuel pre ptrs old segs hfuel hreads _
  obtain ⟨fuel, rfl⟩ : ∃ f, fuel = f + 1 := ⟨fuel - 1, by omega⟩
  rw [tokLoop_end (by simp)]
  exact ⟨pre, ptrs, rfl, rfl, by simpa [segments] using hreads.append [0]⟩

theorem scansInside_nil : ScansInside sep rest [] := by
  intro fuel pre u ptrs old o segs hfuel hreads hzero hu hne
  obtain ⟨fuel, rfl⟩ : ∃ f, fuel = f + 1 := ⟨fuel - 1, by omega⟩
  rw [tokLoop_end (by simp), List.append_nil, segments_open hu hne]
  refine ⟨pre ++ u, ptrs ++ [pre.length], by simp, by simp, ?_⟩
  rw [List.append_assoc, List.take_of_length_le (by simp)]
  exact hreads.snoc hzero

/-- A separator is skipped, anything else starts a token. -/
theorem scansOutside_cons (h0 : c ≠ 0) (hout : ScansOutside sep rest t) (hin : ScansInside sep rest t) :
    ScansOutside sep rest (c :: t) := by
  intro fuel pre ptrs old segs hfuel hreads hold
  obtain ⟨fuel, rfl⟩ : ∃ f, fuel = f + 1 := ⟨fuel - 1, by omega⟩
  rw [List.length_cons] at hfuel
  have hread : (pre ++ (c :: t ++ 0 :: rest))[pre.length]? = some c := by simp
  have hblock : pre ++ (c :: t ++ 0 :: rest) = pre ++ [c] ++ (t ++ 0 :: rest) := by simp
  have hlen : pre.length + (c :: t).length = pre.length + [c].length + t.length := by
    rw [List.length_cons, List.length_singleton]
    omega
  have hpos : pre.length + 1 = (pre ++ [c]).length := by simp
  cases hsep : isSep sep c with
  | true =>
    rw [tokLoop_outside hread h0 hsep, segments_sep hsep, hblock, hpos, hlen, ← List.length_append]
    exact hout fuel (pre ++ [c]) ptrs old segs (by omega) (hreads.append [c]) hold
  | false =>
    obtain ⟨o, old, rfl⟩ := List.exists_cons_of_ne_nil hold
    rw [tokLoop_start hread h0 hsep (storePtr_next ptrs o old pre.length), hblock, hpos, hlen]
    exact hin fuel pre [c] ptrs old o segs (by omega) hreads
      (fun h => h0 (List.mem_singleton.mp h).symm) (fun x hx => by rwa [List.mem_singleton.mp hx])
      (List.cons_ne_nil _ _)

theorem scansInside_open (h0 : c ≠ 0) (hsep : isSep sep c = false) (hin : ScansInside sep rest t) :
    ScansInside sep rest (c :: t) := by
  intro fuel pre u ptrs old o segs hfuel hreads hzero hu hne
  obtain ⟨fuel, rfl⟩ : ∃ f, fuel = f + 1 := ⟨fuel - 1, by omega⟩
  rw [List.length_cons] at hfuel
  have hread : (pre ++ u ++ (c :: t ++ 0 :: rest))[(pre ++ u).length]? = some c := by simp
  have hblock : pre ++ u ++ (c :: t ++ 0 :: rest) = pre ++ (u ++ [c]) ++ (t ++ 0 :: rest) := by simp
  have hlen : pre.length + u.length + (c :: t).length = pre.length + (u ++ [c]).length + t.length := by
    rw [List.length_cons, List.length_append, List.length_singleton]
    omega
  have hpos : (pre ++ u).length + 1 = (pre ++ (u ++ [c])).length := by
    rw [List.length_append, List.length_append, List.length_append, List.length_singleton, Nat.add_assoc]
  rw [tokLoop_inside hread h0 hsep, hblock, hpos, hlen, List.append_cons u c t]
  refine hin fuel pre (u ++ [c]) ptrs old o segs (by omega) hreads ?_ ?_ (by simp)
  · intro h
    rcases List.mem_append.mp h with h | h
    · exact hzero h
    · exact h0 (List.mem_singleton.mp h).symm
  · intro x hx
    rcases List.mem_append.mp hx with hx | hx
    · exact hu x hx
    · rwa [List.mem_singleton.mp hx]

/-- A token ends: with the last pointer the scan does, else it goes on outside. -/
theorem scansInside_close (h0 : c ≠ 0) (hsep : isSep sep c = true) (hout : ScansOutside sep rest t) :
    ScansInside sep rest (c :: t) := by
  intro fuel pre u ptrs old o segs hfuel hreads hzero hu hne
  obtain ⟨fuel, rfl⟩ : ∃ f, fuel = f + 1 := ⟨fuel - 1, by omega⟩
  rw [List.length_cons] at hfuel
  have hread : (pre ++ u ++ (c :: t ++ 0 :: rest))[(pre ++ u).length]? = some c := by simp
  have hstore : storeBytes (pre ++ u ++ (c :: t ++ 0 :: rest)) (pre ++ u).length [0] =
      some (pre ++ u ++ 0 :: (t ++ 0 :: rest)) := storeBytes_singleton _ _ _ _
  have hreads' : Reads (pre ++ (u ++ [0])) (ptrs ++ [pre.length]) (segs ++ [u]) := hreads.snoc hzero
  have hdrop : (o :: old).drop (u :: segments sep t).length = old.drop (segments sep t).length := rfl
  have htake : (u :: segments sep t).take (o :: old).length = u :: (segments sep t).take old.length := rfl
  rw [tokLoop_close hread h0 hsep hstore, segments_close hu hne hsep, hdrop, htake, List.append_cons segs]
  cases old with
  | nil =>
    rw [if_pos (by simp)]
    refine ⟨pre ++ u ++ 0 :: t, ptrs ++ [pre.length], by simp, ?_, ?_⟩
    · rw [List.length_append, List.length_append, List.length_cons, List.length_cons]
    · have hmore := hreads'.append (t ++ [0])
      simpa using hmore
  | cons o' old =>
    have hblock : pre ++ u ++ 0 :: (t ++ 0 :: rest) = pre ++ (u ++ [0]) ++ (t ++ 0 :: rest) := by simp
    have hlen : pre.length + u.length + (c :: t).length = (pre ++ (u ++ [0])).length + t.length := by
      rw [List.length_cons, List.length_append, List.length_append, List.length_singleton]
      omega
    have hpos : (pre ++ u).length + 1 = (pre ++ (u ++ [0])).length := by
      rw [List.length_append, List.length_append, List.length_append, List.length_singleton, Nat.add_assoc]
    have hcount : ptrs.length + 1 = (ptrs ++ [pre.length]).length := by simp
    have hall : (ptrs ++ o :: o' :: old).length = (ptrs ++ [pre.length] ++ o' :: old).length := by simp
    rw [if_neg (by simp), hblock, hlen, hpos, hcount, hall]
    exact hout fuel (pre ++ (u ++ [0])) (ptrs ++ [pre.length]) (o' :: old) (segs ++ [u]) (by omega) hreads'
      (List.cons_ne_nil _ _)

end Steps

/-- The whole scan. Each of the two goes on in the other. -/
theorem tokLoop_spec (sep : List Byte) {t : List Byte} (rest : List Byte) (ht : (0 : Byte) ∉ t) :
    ScansOutside sep rest t ∧ ScansInside sep rest t := by
  induction t with
  | nil => exact ⟨scansOutside_nil, scansInside_nil⟩
  | cons c t ih =>
    rw [List.mem_cons, not_or] at ht
    have h0 : c ≠ 0 := fun h => ht.1 h.symm
    obtain ⟨hout, hin⟩ := ih ht.2
    refine ⟨scansOutside_cons h0 hout hin, ?_⟩
    cases hsep : isSep sep c with
    | false => exact scansInside_open h0 hsep hin
    | true => exact scansInside_close h0 hsep hout

/-- **Tokens.** As many segments as there are pointers, each terminated in the block, and nothing else is
stored among the pointers or behind the string. -/
theorem xstrtok_segments (sep str : CString) (rest : List Byte) {tptrs : List Nat} (hn : 1 ≤ tptrs.length) :
    ∃ n block ptrs, xstrtok sep (str.val ++ 0 :: rest) tptrs tptrs.length = some (n, block, ptrs) ∧
      n = min tptrs.length (segments sep.val str.val).length ∧
      ptrs.length = tptrs.length ∧ ptrs.drop n = tptrs.drop n ∧
      (ptrs.take n).map (fun p => cstr (block.drop p)) = ((segments sep.val str.val).take n).map some ∧
      block.length = (str.val ++ 0 :: rest).length ∧ block.drop str.val.length = 0 :: rest := by
  obtain ⟨hout, -⟩ := tokLoop_spec sep.val rest str.property
  obtain ⟨block, ptrs, hrun, hlen, hreads⟩ := hout ((str.val ++ 0 :: rest).length + 1) [] [] tptrs []
    (by simp only [List.length_append, List.length_cons]; omega) .nil (List.ne_nil_of_length_pos hn)
  have hcount := hreads.length_eq
  rw [List.nil_append, List.length_take] at hcount
  have htail : tptrs.drop (segments sep.val str.val).length = tptrs.drop ptrs.length := by
    rcases Nat.le_total (segments sep.val str.val).length tptrs.length with hle | hle
    · rw [hcount, Nat.min_eq_right hle]
    · rw [hcount, Nat.min_eq_left hle, List.drop_length, List.drop_of_length_le hle]
  rw [htail] at hrun
  have hfront := hreads.append rest
  rw [List.append_assoc, List.singleton_append] at hfront
  rw [List.length_nil, Nat.zero_add] at hlen
  refine ⟨ptrs.length, block ++ 0 :: rest, ptrs ++ tptrs.drop ptrs.length, hrun, hcount, ?_, ?_, ?_, ?_, ?_⟩
  · rw [List.length_append, List.length_drop]
    omega
  · rw [List.drop_left]
  · rw [List.take_left, hfront.map, List.nil_append, hcount]
    congr 1
    rw [List.take_eq_take_iff]
    omega
  · rw [List.length_append, List.length_append, hlen]
  · rw [← hlen, List.drop_left]

theorem xstrtok_segments_two : ∃ n block ptrs,
    xstrtok ⟨[32], by decide⟩ ([65, 32, 66] ++ 0 :: []) [7, 7] 2 = some (n, block, ptrs) ∧ n = 2 := by
  obtain ⟨n, block, ptrs, hrun, hn, -⟩ :=
    xstrtok_segments ⟨[32], by decide⟩ ⟨[65, 32, 66], by decide⟩ [] (show 1 ≤ [7, 7].length by simp)
  exact ⟨n, block, ptrs, hrun, hn.trans rfl⟩

end Xcharstr
end Xlibc
