import Xlibc.Xbitmap.Bounds

/-!
# Xlibc.Xbitmap.FindEmpty

`bitmap_find_empty` against `bitmap_get`. The scan skips a word of ones as `bitsPerLong` offsets, which
is how many the accessors keep in a word, and looks for a clear bit in the low `bitsPerLong` bits of any
other word. On a 64-bit `long` the high half makes the two disagree: a word with ones in its low half
that is not all ones is passed over without counting its offsets, and `bitmap_get` looks for offset 31
of a word under the sign-extended `1 << 31`, which covers the whole high half.

* `findEmptyFrom_skip`, `findEmptyFrom_stop`, `findEmptyFrom_pass` : the three outcomes at one word.
* `findsLeast_stop`, `findsLeast_ones`, `findsLeast_pass` : the scan, by the first word that is not all ones.
* `findEmpty_least_iff` : when the result is the least clear offset.
-/

namespace Xlibc
namespace Xbitmap

variable {w nbits : Nat} {ws : List (BitVec w)} {x : BitVec w} {i j : Nat}

/-- `bitmap_get` finds place `j` of a word set. -/
def Seen (x : BitVec w) (j : Nat) : Prop := x &&& intBit w j ≠ 0#w

instance (x : BitVec w) (j : Nat) : Decidable (Seen x j) := inferInstanceAs (Decidable (_ ≠ _))

/-- The result is the least offset below `nbits` that `bitmap_get` finds clear, or `-1` when it finds
them all set. -/
def FindsLeast (ws : List (BitVec w)) (nbits : Nat) : Prop :=
  ∃ r, bitmapFindEmpty ws nbits = some r ∧
    ((r = -1 ∧ ∀ o < nbits, bitmapGet ws o = some 1) ∨
      ∃ o : Nat, r = o ∧ o < nbits ∧ bitmapGet ws o = some 0 ∧ ∀ p < o, bitmapGet ws p = some 1)

/-! ## One word -/

/-- The `int` value `1 << 31` has all the high bits, too. -/
theorem getLsbD_intBit {k : Nat} (hj : j < 32) (hk : k < w) :
    (intBit w j).getLsbD k = decide (k = j ∨ (j = 31 ∧ 32 ≤ k)) := by
  have hone : ∀ m : Nat, (1#32 <<< j).getLsbD m = decide (m < 32 ∧ m = j) := by
    intro m
    rw [BitVec.getLsbD_shiftLeft, BitVec.getLsbD_one, Bool.eq_iff_iff]
    simp
    omega
  rw [intBit, BitVec.getLsbD_signExtend]
  simp only [hk, decide_true, Bool.true_and, BitVec.msb_eq_getLsbD_last, hone]
  by_cases h : k < 32
  · rw [if_pos h, decide_eq_decide]
    omega
  · rw [if_neg h, decide_eq_decide]
    omega

theorem seen_iff (hj : j < 32) :
    Seen x j ↔ ∃ k < w, x.getLsbD k = true ∧ (k = j ∨ (j = 31 ∧ 32 ≤ k)) := by
  constructor
  · intro h
    by_contra hnone
    refine h (BitVec.eq_of_getLsbD_eq fun k hk => ?_)
    rw [BitVec.getLsbD_and, BitVec.getLsbD_zero, getLsbD_intBit hj hk]
    cases hb : x.getLsbD k with
    | false => rfl
    | true =>
      have hkj : ¬ (k = j ∨ (j = 31 ∧ 32 ≤ k)) := fun hkj => hnone ⟨k, hk, hb, hkj⟩
      simp [hkj]
  · rintro ⟨k, hk, hb, hkj⟩ hzero
    have := congrArg (·.getLsbD k) hzero
    simp [getLsbD_intBit hj hk, hb, hkj] at this

theorem seen_of_bit (hw : 32 ≤ w) (hj : j < 32) (hb : x.getLsbD j = true) : Seen x j :=
  (seen_iff hj).mpr ⟨j, by omega, hb, .inl rfl⟩

/-- On a 32-bit `long` there is no high half. -/
theorem bit_of_seen_32 {x : BitVec 32} (hj : j < 32) (hs : Seen x j) : x.getLsbD j = true := by
  obtain ⟨k, hk, hb, rfl | ⟨-, hk32⟩⟩ := (seen_iff hj).mp hs
  · exact hb
  · omega

theorem getLsbD_ones (hj : j < w) : (~~~ 0#w).getLsbD j = true := by
  rw [BitVec.getLsbD_not, BitVec.getLsbD_zero]
  simp [hj]

theorem seen_ones (hw : 32 ≤ w) (hj : j < 32) : Seen (~~~ 0#w) j :=
  seen_of_bit hw hj (getLsbD_ones (by omega))

theorem clear_bit (hw : 1 ≤ w) : ((x >>> j) &&& 1#w == 0#w) = !x.getLsbD j := by
  rw [BitVec.and_one_eq_setWidth_ofBool_getLsbD, BitVec.getLsbD_ushiftRight, Nat.add_zero]
  cases x.getLsbD j with
  | false => simp
  | true =>
    rw [Bool.not_true, beq_eq_false_iff_ne]
    intro h
    have := congrArg (·.getLsbD 0) h
    simp at this
    omega

/-- `j` is the first clear bit in the low half of a word. -/
def FirstClear (x : BitVec w) (j : Nat) : Prop :=
  j < 32 ∧ x.getLsbD j = false ∧ ∀ k < j, x.getLsbD k = true

/-- A word has a first clear bit in its low half, or none there. -/
theorem firstClear_or (x : BitVec w) : (∃ j, FirstClear x j) ∨ ∀ j < 32, x.getLsbD j = true := by
  cases h : (List.range 32).find? (fun j => !x.getLsbD j) with
  | some j =>
    obtain ⟨hclear, hmem, hset⟩ := List.find?_range_eq_some.mp h
    exact .inl ⟨j, List.mem_range.mp hmem, by simpa using hclear, fun k hk => by simpa using hset k hk⟩
  | none => exact .inr fun j hj => by simpa using List.find?_range_eq_none.mp h j hj

theorem FirstClear.not_ones (hw : 32 ≤ w) (hc : FirstClear x j) : x ≠ ~~~ 0#w := by
  rintro rfl
  have hclear := hc.2.1
  rw [getLsbD_ones (by have := hc.1; omega)] at hclear
  cases hclear

/-- The places in front of the first clear bit are seen set. -/
theorem FirstClear.seen (hw : 32 ≤ w) (hc : FirstClear x j) {k : Nat} (hk : k < j) : Seen x k :=
  seen_of_bit hw (by have := hc.1; omega) (hc.2.2 k hk)

section Step

variable {left offset : Nat}

theorem findEmptyFrom_skip (hx : ws[i]? = some (~~~ 0#w)) :
    findEmptyFrom ws nbits i (left + 1) offset = findEmptyFrom ws nbits (i + 1) left (offset + 32) := by
  simp [findEmptyFrom, hx, bitsPerLong]

theorem findEmptyFrom_stop (hw : 32 ≤ w) (hx : ws[i]? = some x) (hc : FirstClear x j) :
    findEmptyFrom ws nbits i (left + 1) offset =
      some (if offset + j ≥ nbits then (-1 : Int) else (offset + j : Nat)) := by
  have hfind : (List.range bitsPerLong).find? (fun j => (x >>> j) &&& 1#w == 0#w) = some j := by
    rw [List.find?_range_eq_some]
    refine ⟨by rw [clear_bit (by omega), hc.2.1]; rfl, List.mem_range.mpr hc.1, fun k hk => ?_⟩
    rw [clear_bit (by omega), hc.2.2 k hk]
    rfl
  rw [findEmptyFrom, hx]
  simp only [Option.bind_eq_bind, Option.bind_some, hc.not_ones hw, if_false, hfind]

theorem findEmptyFrom_pass (hw : 32 ≤ w) (hx : ws[i]? = some x) (hne : x ≠ ~~~ 0#w)
    (hlow : ∀ j < 32, x.getLsbD j = true) :
    findEmptyFrom ws nbits i (left + 1) offset = findEmptyFrom ws nbits (i + 1) left offset := by
  have hfind : (List.range bitsPerLong).find? (fun j => (x >>> j) &&& 1#w == 0#w) = none := by
    rw [List.find?_range_eq_none]
    intro j hj
    rw [clear_bit (by omega), hlow j hj]
    rfl
  rw [findEmptyFrom, hx]
  simp only [Option.bind_eq_bind, Option.bind_some, hne, if_false, hfind]

end Step

/-- A word with a place seen clear has a first clear bit, and that place is seen clear, too. -/
theorem firstClear_unseen (hw : 32 ≤ w) (hj : j < 32) (hs : ¬ Seen x j) :
    ∃ k, FirstClear x k ∧ ¬ Seen x k := by
  rcases firstClear_or x with ⟨k, hc⟩ | hlow
  · refine ⟨k, hc, ?_⟩
    have hkj : k ≤ j := by
      by_contra hlt
      exact hs (hc.seen hw (by omega))
    rintro hseen
    obtain ⟨m, -, hm, rfl | ⟨rfl, -⟩⟩ := (seen_iff hc.1).mp hseen
    · rw [hc.2.1] at hm
      cases hm
    · obtain rfl : j = 31 := by omega
      exact hs hseen
  · exact absurd (seen_of_bit hw hj (hlow j hj)) hs

/-! ## The scan -/

/-- The first `i` words are all ones. -/
def Ones (ws : List (BitVec w)) (i : Nat) : Prop := ∀ k < i, ws[k]? = some (~~~ 0#w)

/-- `bitmap_get` finds all offsets of the first `i` words set. -/
def AllSeen (ws : List (BitVec w)) (i : Nat) : Prop :=
  ∀ k < i, ∃ x, ws[k]? = some x ∧ ∀ j < 32, Seen x j

theorem Ones.allSeen (hw : 32 ≤ w) (h : Ones ws i) : AllSeen ws i := fun k hk =>
  ⟨_, h k hk, fun _ hj => seen_ones hw hj⟩

theorem AllSeen.succ (h : AllSeen ws i) (hx : ws[i]? = some x) (hs : ∀ j < 32, Seen x j) :
    AllSeen ws (i + 1) := by
  intro k hk
  rcases Nat.lt_succ_iff_lt_or_eq.mp hk with hlt | rfl
  · exact h k hlt
  · exact ⟨x, hx, hs⟩

theorem bitmapGet_eq {o : Nat} (hx : ws[o / 32]? = some x) :
    bitmapGet ws o = some (if Seen x (o % 32) then 1 else 0) := by
  simp only [bitmapGet, place_eq, hx, Option.bind_eq_bind, Option.bind_some]
  rfl

theorem bitmapGet_none {o : Nat} (h : ws.length ≤ o / 32) : bitmapGet ws o = none := by
  rw [bitmapGet, place_eq, List.getElem?_eq_none h]
  rfl

theorem AllSeen.get (h : AllSeen ws i) {o : Nat} (ho : o / 32 < i) : bitmapGet ws o = some 1 := by
  obtain ⟨x, hx, hs⟩ := h _ ho
  rw [bitmapGet_eq hx, if_pos (hs _ (Nat.mod_lt _ (by omega)))]

/-- The scan over a word of ones after the other. -/
theorem findEmptyFrom_ones (left : Nat) (h : Ones ws i) :
    findEmptyFrom ws nbits 0 (i + left) 0 = findEmptyFrom ws nbits i left (32 * i) := by
  induction i generalizing left with
  | zero => rw [Nat.zero_add]
  | succ i ih =>
    rw [Nat.add_assoc, ih (1 + left) (fun k hk => h k (by omega)), Nat.add_comm 1,
      findEmptyFrom_skip (h i (by omega)), Nat.mul_succ]

/-- The scan stops at the first word that is not all ones. -/
theorem findsLeast_stop (hw : 32 ≤ w) (hl : ws.length = bitsToLongs w nbits) (hones : Ones ws i)
    (hx : ws[i]? = some x) (hc : FirstClear x j) :
    FindsLeast ws nbits ↔ nbits ≤ 32 * i + j ∨ ¬ Seen x j := by
  have hlt := hc.1
  obtain ⟨hi, -⟩ := List.getElem?_eq_some_iff.mp hx
  obtain ⟨left, hleft⟩ : ∃ left, ws.length = i + (left + 1) := ⟨ws.length - i - 1, by omega⟩
  have hrun : bitmapFindEmpty ws nbits =
      some (if 32 * i + j ≥ nbits then (-1 : Int) else (32 * i + j : Nat)) := by
    rw [bitmapFindEmpty, ← hl, hleft, findEmptyFrom_ones _ hones, findEmptyFrom_stop hw hx hc]
  have hbelow : ∀ p < 32 * i + j, bitmapGet ws p = some 1 := by
    intro p hp
    rcases Nat.lt_or_ge (p / 32) i with hword | hword
    · exact (hones.allSeen hw).get hword
    · obtain rfl : i = p / 32 := by omega
      rw [bitmapGet_eq hx, if_pos (hc.seen hw (by omega))]
  have hat : bitmapGet ws (32 * i + j) = some (if Seen x j then 1 else 0) := by
    have hword : (32 * i + j) / 32 = i := by omega
    have hplace : (32 * i + j) % 32 = j := by omega
    have := bitmapGet_eq (o := 32 * i + j) (by rw [hword]; exact hx)
    rwa [hplace] at this
  constructor
  · rintro ⟨r, hr, hres⟩
    rcases Nat.lt_or_ge (32 * i + j) nbits with hin | hout
    · right
      rw [hrun, if_neg (by omega)] at hr
      cases hr
      rcases hres with ⟨hneg, -⟩ | ⟨o, ho, -, hzero, -⟩
      · omega
      · obtain rfl : 32 * i + j = o := by omega
        intro hs
        rw [hat, if_pos hs] at hzero
        cases hzero
    · exact .inl hout
  · intro h
    refine ⟨_, hrun, ?_⟩
    split
    · exact .inl ⟨rfl, fun o ho => hbelow o (by omega)⟩
    · have hs : ¬ Seen x j := h.resolve_left (by omega)
      exact .inr ⟨_, rfl, by omega, by rw [hat, if_neg hs], hbelow⟩

/-- A bitmap of ones is reported full, whether or not `bitmap_get` reaches all its offsets. -/
theorem findsLeast_ones (hw : 32 ≤ w) (hl : ws.length = bitsToLongs w nbits) (hones : Ones ws ws.length) :
    FindsLeast ws nbits ↔ ∀ o < nbits, o / 32 < ws.length := by
  have hrun : bitmapFindEmpty ws nbits = some (-1) := by
    rw [bitmapFindEmpty, ← hl]
    exact findEmptyFrom_ones 0 hones
  constructor
  · rintro ⟨r, hr, hres⟩ o ho
    rw [hrun] at hr
    cases hr
    rcases hres with ⟨-, hall⟩ | ⟨o', ho', -⟩
    · by_contra hout
      have := hall o ho
      rw [bitmapGet_none (by omega)] at this
      cases this
    · omega
  · intro h
    exact ⟨_, hrun, .inl ⟨rfl, fun o ho => (hones.allSeen hw).get (h o ho)⟩⟩

/-- Behind a word that was passed over the count of offsets lags by a word at least, and what the scan
returns is an offset of an earlier word. -/
theorem findEmptyFrom_behind (nbits : Nat) (hw : 32 ≤ w) {left offset : Nat} (hleft : ws.length = i + left)
    (hseen : AllSeen ws i) (hlag : offset + 32 ≤ 32 * i) :
    ∃ r, findEmptyFrom ws nbits i left offset = some r ∧
      ((r = -1 ∧ (AllSeen ws ws.length ∨ ∃ k < ws.length, nbits ≤ 32 * k)) ∨
        ∃ o : Nat, r = o ∧ bitmapGet ws o = some 1) := by
  induction left generalizing i offset with
  | zero => exact ⟨-1, rfl, .inl ⟨rfl, .inl (by rw [hleft]; exact hseen)⟩⟩
  | succ left ih =>
    obtain ⟨x, hx⟩ : ∃ x, ws[i]? = some x := ⟨_, List.getElem?_eq_getElem (by omega)⟩
    by_cases hne : x = ~~~ 0#w
    · subst hne
      rw [findEmptyFrom_skip hx]
      exact ih (by omega) (hseen.succ hx fun j hj => seen_ones hw hj) (by omega)
    · rcases firstClear_or x with ⟨j, hc⟩ | hlow
      · refine ⟨_, findEmptyFrom_stop hw hx hc, ?_⟩
        have hlt := hc.1
        split
        · exact .inl ⟨rfl, .inr ⟨i, by omega, by omega⟩⟩
        · exact .inr ⟨_, rfl, hseen.get (by omega)⟩
      · rw [findEmptyFrom_pass hw hx hne hlow]
        exact ih (by omega) (hseen.succ hx fun j hj => seen_of_bit hw hj (hlow j hj)) (by omega)

/-- Once a word has been passed over, the result is right only if nothing had to be found. -/
theorem findsLeast_pass {ws : List (BitVec 64)} {x : BitVec 64} (hl : ws.length = bitsToLongs 64 nbits)
    (hones : Ones ws i) (hx : ws[i]? = some x) (hne : x ≠ ~~~ 0#64)
    (hlow : ∀ j < 32, x.getLsbD j = true) : FindsLeast ws nbits ↔ nbits ≤ 32 := by
  obtain ⟨hi, -⟩ := List.getElem?_eq_some_iff.mp hx
  obtain ⟨left, hleft⟩ : ∃ left, ws.length = i + (left + 1) := ⟨ws.length - i - 1, by omega⟩
  have hseen : AllSeen ws (i + 1) := (hones.allSeen (by omega)).succ hx fun j hj =>
    seen_of_bit (by omega) hj (hlow j hj)
  have hpass : bitmapFindEmpty ws nbits = findEmptyFrom ws nbits (i + 1) left (32 * i) := by
    rw [bitmapFindEmpty, ← hl, hleft, findEmptyFrom_ones _ hones,
      findEmptyFrom_pass (by omega) hx hne hlow]
  obtain ⟨r, hrun, hres⟩ := findEmptyFrom_behind nbits (by omega)
    (show ws.length = i + 1 + left by omega) hseen (Nat.le_of_eq (Nat.mul_succ 32 i).symm)
  unfold bitsToLongs at hl
  constructor
  · rintro ⟨r', hr', hfinds⟩
    rw [hpass, hrun] at hr'
    cases hr'
    by_contra hbig
    rcases hfinds with ⟨hneg, hall⟩ | ⟨o, rfl, -, hzero, -⟩
    · -- the offset behind the last word is below `nbits`
      have := hall (32 * ws.length) (by omega)
      rw [bitmapGet_none (by omega)] at this
      cases this
    · rcases hres with ⟨hneg, -⟩ | ⟨o', ho', hone⟩
      · omega
      · obtain rfl : o = o' := by omega
        rw [hzero] at hone
        cases hone
  · intro hsmall
    refine ⟨-1, ?_, .inl ⟨rfl, fun o ho => hseen.get (by omega)⟩⟩
    obtain rfl : left = 0 := by omega
    rw [hpass]
    rfl

/-- Either all words are ones, or there is a first one that is not. -/
theorem ones_or (ws : List (BitVec w)) :
    Ones ws ws.length ∨ ∃ i x, Ones ws i ∧ ws[i]? = some x ∧ x ≠ ~~~ 0#w := by
  cases h : (List.range ws.length).find? (fun k => ws[k]? != some (~~~ 0#w)) with
  | none => exact .inl fun k hk => by simpa using List.find?_range_eq_none.mp h k hk
  | some i =>
    obtain ⟨hne, hmem, hbefore⟩ := List.find?_range_eq_some.mp h
    obtain ⟨x, hx⟩ : ∃ x, ws[i]? = some x :=
      ⟨_, List.getElem?_eq_getElem (List.mem_range.mp hmem)⟩
    refine .inr ⟨i, x, fun k hk => by simpa using hbefore k hk, hx, fun heq => ?_⟩
    rw [hx, heq] at hne
    simp at hne

/-- The first word that is not all ones has a place that `bitmap_get` finds clear. -/
def FirstOpen (ws : List (BitVec w)) : Prop :=
  ∃ i x, Ones ws i ∧ ws[i]? = some x ∧ ∃ j < 32, ¬ Seen x j

theorem Ones.not_firstOpen (hw : 32 ≤ w) (h : Ones ws ws.length) : ¬ FirstOpen ws := by
  rintro ⟨i, x, -, hx, j, hj, hs⟩
  obtain ⟨hi, -⟩ := List.getElem?_eq_some_iff.mp hx
  rw [h i hi] at hx
  cases hx
  exact hs (seen_ones hw hj)

theorem firstOpen_iff (hw : 32 ≤ w) (hones : Ones ws i) (hx : ws[i]? = some x) (hne : x ≠ ~~~ 0#w) :
    FirstOpen ws ↔ ∃ j < 32, ¬ Seen x j := by
  constructor
  · rintro ⟨i', x', hones', hx', j, hj, hs⟩
    rcases Nat.lt_trichotomy i i' with hlt | rfl | hlt
    · rw [hones' i hlt] at hx
      exact absurd (Option.some.inj hx).symm hne
    · rw [hx] at hx'
      cases hx'
      exact ⟨j, hj, hs⟩
    · rw [hones i' hlt] at hx'
      cases hx'
      exact absurd (seen_ones hw hj) hs
  · rintro ⟨j, hj, hs⟩
    exact ⟨i, x, hones, hx, j, hj, hs⟩

theorem FirstClear.unique {k : Nat} (hj : FirstClear x j) (hk : FirstClear x k) : j = k := by
  rcases Nat.lt_trichotomy j k with hlt | heq | hlt
  · have := hk.2.2 j hlt
    rw [hj.2.1] at this
    cases this
  · exact heq
  · have := hj.2.2 k hlt
    rw [hk.2.1] at this
    cases this

/-- With the bits of an accessor's word the scan is right at every contents. -/
theorem findsLeast_32 {ws : List (BitVec 32)} (hl : ws.length = bitsToLongs 32 nbits) :
    FindsLeast ws nbits := by
  rcases ones_or ws with hones | ⟨i, x, hones, hx, hne⟩
  · rw [findsLeast_ones (by omega) hl hones]
    intro o ho
    unfold bitsToLongs at hl
    omega
  · rcases firstClear_or x with ⟨j, hc⟩ | hlow
    · refine (findsLeast_stop (by omega) hl hones hx hc).mpr (.inr fun hs => ?_)
      have hset := bit_of_seen_32 hc.1 hs
      rw [hc.2.1] at hset
      cases hset
    · refine absurd (BitVec.eq_of_getLsbD_eq fun j hj => ?_) hne
      rw [hlow j hj, getLsbD_ones hj]

theorem findsLeast_64 {ws : List (BitVec 64)} (hl : ws.length = bitsToLongs 64 nbits) :
    FindsLeast ws nbits ↔ nbits < 32 ∨
      (nbits = 32 ∧ ∃ x, ws[0]? = some x ∧ ∀ j < 32, x.getLsbD j = true) ∨ FirstOpen ws := by
  have hlen := hl
  unfold bitsToLongs at hlen
  rcases ones_or ws with hones | ⟨i, x, hones, hx, hne⟩
  · rw [findsLeast_ones (by omega) hl hones]
    have hnot := hones.not_firstOpen (by omega)
    constructor
    · intro h
      rcases Nat.lt_trichotomy nbits 32 with hlt | heq | hgt
      · exact .inl hlt
      · exact .inr (.inl ⟨heq, _, hones 0 (by omega), fun j hj => getLsbD_ones (by omega)⟩)
      · have := h (32 * ws.length) (by omega)
        omega
    · rintro (hlt | ⟨heq, -⟩ | hopen) o ho
      · omega
      · omega
      · exact absurd hopen hnot
  · obtain ⟨hi, -⟩ := List.getElem?_eq_some_iff.mp hx
    rw [firstOpen_iff (by omega) hones hx hne]
    rcases firstClear_or x with ⟨j, hc⟩ | hlow
    · rw [findsLeast_stop (by omega) hl hones hx hc]
      have hj := hc.1
      constructor
      · rintro (hsmall | hs)
        · exact .inl (by omega)
        · exact .inr (.inr ⟨j, hj, hs⟩)
      · rintro (hlt | ⟨heq, y, hy, hlow⟩ | ⟨j', hj', hs⟩)
        · by_cases hlast : j = 31
          · exact .inl (by omega)
          · -- below offset 31 both sides test the same bit
            refine .inr fun hs => ?_
            obtain ⟨k, -, hk, rfl | ⟨h31, -⟩⟩ := (seen_iff hj).mp hs
            · rw [hc.2.1] at hk
              cases hk
            · exact hlast h31
        · obtain rfl : i = 0 := by omega
          rw [hx] at hy
          cases hy
          have hset := hlow j hj
          rw [hc.2.1] at hset
          cases hset
        · obtain ⟨k, hk, hsk⟩ := firstClear_unseen (by omega) hj' hs
          obtain rfl := hc.unique hk
          exact .inr hsk
    · rw [findsLeast_pass hl hones hx hne hlow]
      constructor
      · intro hsmall
        rcases Nat.lt_or_eq_of_le hsmall with hlt | heq
        · exact .inl hlt
        · obtain rfl : i = 0 := by omega
          exact .inr (.inl ⟨heq, x, hx, hlow⟩)
      · rintro (hlt | ⟨heq, -⟩ | ⟨j, hj, hs⟩)
        · omega
        · omega
        · exact absurd (seen_of_bit (by omega) hj (hlow j hj)) hs

/-- **The first clear offset.** On a 32-bit `long` the result is the least offset that `bitmap_get`
finds clear, and `-1` when there is none, at all contents. On a 64-bit one it is for less than 32 bits;
for 32 bits whose low half of the word is ones; and otherwise exactly when the first word that is not
all ones has a place that `bitmap_get` finds clear. -/
theorem findEmpty_least_iff (hw : w = 32 ∨ w = 64) (hl : ws.length = bitsToLongs w nbits) :
    FindsLeast ws nbits ↔ w = 32 ∨ nbits < 32 ∨
      (nbits = 32 ∧ ∃ x, ws[0]? = some x ∧ ∀ j < 32, x.getLsbD j = true) ∨ FirstOpen ws := by
  rcases hw with rfl | rfl
  · exact ⟨fun _ => .inl rfl, fun _ => findsLeast_32 hl⟩
  · rw [findsLeast_64 hl]
    simp

/-- The first word of ones, the second with its lowest bit clear. -/
theorem findEmpty_least_65 : FindsLeast [~~~ 0#64, ~~~ 1#64] 65 :=
  (findEmpty_least_iff (.inr rfl) (by decide)).mpr (.inr (.inr (.inr ⟨1, ~~~ 1#64, by
    intro k hk
    obtain rfl : k = 0 := by omega
    rfl, rfl, 0, by decide, by decide⟩)))

/-- A word whose low half is full is passed over without its offsets: the clear offset 32, in the second
word, is returned as offset 0, which is set. -/
theorem findEmpty_not_least_64 :
    bitmapFindEmpty [0xffffffff#64, 0#64] 128 = some 0 ∧
      bitmapGet [0xffffffff#64, 0#64] 0 = some 1 ∧ ¬ FindsLeast [0xffffffff#64, 0#64] 128 := by
  refine ⟨by decide, by decide, ?_⟩
  rintro ⟨r, hr, hres⟩
  have hzero : bitmapFindEmpty [0xffffffff#64, 0#64] 128 = some 0 := by decide
  rw [hzero] at hr
  cases hr
  rcases hres with ⟨hneg, -⟩ | ⟨o, ho, -, hclear, -⟩
  · cases hneg
  · obtain rfl : o = 0 := by omega
    exact absurd hclear (by decide)

end Xbitmap
end Xlibc
