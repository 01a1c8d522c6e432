import Xlibc.Base.Compare

/-!
# Xlibc.Xcharstr.Compare

The comparisons that accept `NULL`. Two strings are left to the C library; a `NULL` is compared through
the first `char` of the other string, which may be negative, and without a look at the length.
-/

namespace Xlibc
namespace Xcharstr

/-- A plain `char` as an `int`. -/
def charInt (signed : Bool) (c : Byte) : Int :=
  if signed = true ∧ 128 ≤ c.toNat then (c.toNat : Int) - 256 else c.toNat

/-- `s[0]` -/
def firstChar (signed : Bool) (s : CString) : Int := charInt signed (s.val.headD 0)

/-- What the comparisons have in common, `cmp` being the one of the C library. -/
def nullCompare (signed : Bool) (cmp : List Byte → List Byte → Int) : Option CString → Option CString → Int
  | none, none => 0
  | none, some s2 => -firstChar signed s2
  | some s1, none => firstChar signed s1
  | some s1, some s2 => cmp s1.val s2.val

def xstrcmp (signed : Bool) (s1 s2 : Option CString) : Int := nullCompare signed strcmp s1 s2

def xstrcasecmp (signed : Bool) (s1 s2 : Option CString) : Int := nullCompare signed strcasecmp s1 s2

def xstrncmp (signed : Bool) (s1 s2 : Option CString) (len : Nat) : Int :=
  nullCompare signed (strncmp len) s1 s2

def xstrncasecmp (signed : Bool) (s1 s2 : Option CString) (len : Nat) : Int :=
  nullCompare signed (strncasecmp len) s1 s2

/-! ## Against the empty string -/

/-- `NULL` read as the empty string. -/
def bytesOf : Option CString → List Byte
  | none => []
  | some s => s.val

/-- The comparison has the sign of the one of the C library, with an empty string for `NULL`. -/
def NullIsEmpty (signed : Bool) (cmp : List Byte → List Byte → Int) (s1 s2 : Option CString) : Prop :=
  (nullCompare signed cmp s1 s2).sign = (cmp (bytesOf s1) (bytesOf s2)).sign

/-- The other string is compared by its first `char`, and that has the right sign: the string is empty,
or something of it is compared and the `char` is not negative. -/
def CharRight (signed : Bool) (looks : Prop) (s : CString) : Prop :=
  s.val = [] ∨ (looks ∧ (signed = true → (s.val.headD 0).toNat < 128))

/-- No `NULL` stands against a string whose first `char` has the wrong sign. -/
def NullRight (signed : Bool) (looks : Prop) : Option CString → Option CString → Prop
  | none, some s2 => CharRight signed looks s2
  | some s1, none => CharRight signed looks s1
  | _, _ => True

/-- A comparison that takes any string for larger than the empty one, if it looks at the strings. -/
structure AboveNil (cmp : List Byte → List Byte → Int) (looks : Prop) : Prop where
  nil : cmp [] [] = 0
  left : looks → ∀ s : CString, s.val ≠ [] → 0 < cmp s.val []
  right : looks → ∀ s : CString, s.val ≠ [] → cmp [] s.val < 0
  blind : ¬ looks → ∀ s t, cmp s t = 0

theorem bytesOf_zero (s : Option CString) : (0 : Byte) ∉ bytesOf s := by
  cases s with
  | none => exact List.not_mem_nil
  | some s => exact s.property

theorem compareBytes_nil_right {f : Byte → Nat} (hf : KeepsZero f) {s : List Byte} (hs : (0 : Byte) ∉ s)
    (hne : s ≠ []) : 0 < compareBytes f s [] := by
  rw [compareBytes_pos hf hs List.not_mem_nil]
  obtain ⟨c, t, rfl⟩ := List.exists_cons_of_ne_nil hne
  exact List.nil_lt_cons _ _

theorem compareBytes_nil_left {f : Byte → Nat} (hf : KeepsZero f) {s : List Byte} (hs : (0 : Byte) ∉ s)
    (hne : s ≠ []) : compareBytes f [] s < 0 := by
  rw [compareBytes_swap s []]
  have := compareBytes_nil_right hf hs hne
  omega

theorem aboveNil_compareBytes {f : Byte → Nat} (hf : KeepsZero f) : AboveNil (compareBytes f) True where
  nil := rfl
  left := fun _ s hne => compareBytes_nil_right hf s.property hne
  right := fun _ s hne => compareBytes_nil_left hf s.property hne
  blind := fun h => absurd trivial h

/-- Comparing at most `len` bytes. -/
theorem aboveNil_take {f : Byte → Nat} (hf : KeepsZero f) (len : Nat) :
    AboveNil (fun s t => compareBytes f (s.take len) (t.take len)) (0 < len) where
  nil := by rw [List.take_nil]; rfl
  left := by
    intro hlen s hne
    have hzero : (0 : Byte) ∉ s.val.take len := fun h => s.property (List.mem_of_mem_take h)
    rw [List.take_nil]
    exact compareBytes_nil_right hf hzero fun h => by
      rcases List.take_eq_nil_iff.mp h with h | h
      · omega
      · exact hne h
  right := by
    intro hlen s hne
    have hzero : (0 : Byte) ∉ s.val.take len := fun h => s.property (List.mem_of_mem_take h)
    rw [List.take_nil]
    exact compareBytes_nil_left hf hzero fun h => by
      rcases List.take_eq_nil_iff.mp h with h | h
      · omega
      · exact hne h
  blind := by
    intro hlen s t
    rw [Nat.eq_zero_of_not_pos hlen, List.take_zero, List.take_zero]
    rfl

theorem head_pos {s : CString} {c : Byte} {t : List Byte} (hs : s.val = c :: t) : 0 < c.toNat := by
  have hc : c ≠ 0 := fun h => s.property (by rw [hs, h]; exact List.mem_cons_self)
  exact Nat.pos_of_ne_zero fun h => hc (UInt8.toNat_inj.mp h)

/-- The sign of the first `char`. -/
theorem firstChar_pos (signed : Bool) (s : CString) :
    0 < firstChar signed s ↔ s.val ≠ [] ∧ (signed = true → (s.val.headD 0).toNat < 128) := by
  cases hs : s.val with
  | nil => simp [firstChar, hs, charInt]
  | cons c t =>
    have hpos := head_pos hs
    have hlt := c.toNat_lt
    simp only [firstChar, charInt, hs, List.headD_cons, ne_eq, reduceCtorEq, not_false_eq_true, true_and]
    cases signed with
    | false => simp [hpos]
    | true =>
      simp only [true_and, forall_const]
      split
      · omega
      · omega

theorem firstChar_eq_zero (signed : Bool) (s : CString) : firstChar signed s = 0 ↔ s.val = [] := by
  cases hs : s.val with
  | nil => simp [firstChar, hs, charInt]
  | cons c t =>
    have hpos := head_pos hs
    have hlt := c.toNat_lt
    simp only [firstChar, charInt, hs, List.headD_cons, reduceCtorEq, iff_false]
    split
    · omega
    · omega

section Against

variable {signed : Bool} {cmp : List Byte → List Byte → Int} {looks : Prop} (h : AboveNil cmp looks)
include h

/-- A string against `NULL`. -/
theorem charRight_iff (s : CString) : (firstChar signed s).sign = (cmp s.val []).sign ↔
    CharRight signed looks s := by
  by_cases hnil : s.val = []
  · rw [(firstChar_eq_zero signed s).mpr hnil, hnil, h.nil]
    exact iff_of_true rfl (Or.inl hnil)
  · by_cases hlooks : looks
    · rw [Int.sign_eq_one_of_pos (h.left hlooks s hnil), Int.sign_eq_one_iff_pos, firstChar_pos]
      simp [CharRight, hnil, hlooks]
    · rw [h.blind hlooks, Int.sign_zero, Int.sign_eq_zero_iff_zero, firstChar_eq_zero]
      simp [CharRight, hnil, hlooks]

theorem swap_nil (s : CString) : (cmp [] s.val).sign = -(cmp s.val []).sign := by
  by_cases hnil : s.val = []
  · rw [hnil, h.nil]
    rfl
  · by_cases hlooks : looks
    · rw [Int.sign_eq_one_of_pos (h.left hlooks s hnil), Int.sign_eq_neg_one_of_neg (h.right hlooks s hnil)]
    · rw [h.blind hlooks, h.blind hlooks]
      rfl

/-- `NULL` is compared as the empty string exactly if no wrong sign is met. -/
theorem nullIsEmpty_iff (s1 s2 : Option CString) :
    NullIsEmpty signed cmp s1 s2 ↔ NullRight signed looks s1 s2 := by
  cases s1 with
  | none =>
    cases s2 with
    | none =>
      unfold NullIsEmpty
      exact iff_of_true (congrArg Int.sign h.nil.symm) trivial
    | some s2 =>
      unfold NullIsEmpty
      show (-firstChar signed s2).sign = (cmp [] s2.val).sign ↔ CharRight signed looks s2
      rw [swap_nil h, Int.sign_neg, Int.neg_inj]
      exact charRight_iff h s2
  | some s1 =>
    cases s2 with
    | none => exact charRight_iff h s1
    | some s2 => exact iff_of_true rfl trivial

end Against

/-! ## The order -/

/-- Signs turn around with the operands. -/
theorem nullCompare_swap (signed : Bool) (f : Byte → Nat) (s1 s2 : Option CString) :
    nullCompare signed (compareBytes f) s2 s1 = -nullCompare signed (compareBytes f) s1 s2 := by
  cases s1 with
  | none =>
    cases s2 with
    | none => rfl
    | some s2 => simp [nullCompare]
  | some s1 =>
    cases s2 with
    | none => rfl
    | some s2 => exact compareBytes_swap s1.val s2.val

/-- Where the signs are right, the comparison is transitive. -/
theorem nullCompare_trans {signed : Bool} {f : Byte → Nat} (hf : KeepsZero f) {s t u : Option CString}
    (hst : NullRight signed True s t) (htu : NullRight signed True t u) (hsu : NullRight signed True s u)
    (h1 : nullCompare signed (compareBytes f) s t ≤ 0) (h2 : nullCompare signed (compareBytes f) t u ≤ 0) :
    nullCompare signed (compareBytes f) s u ≤ 0 := by
  have hsign : ∀ {a b}, NullRight signed True a b →
      (nullCompare signed (compareBytes f) a b ≤ 0 ↔ compareBytes f (bytesOf a) (bytesOf b) ≤ 0) := by
    intro a b hab
    have heq := (nullIsEmpty_iff (aboveNil_compareBytes hf) a b).mpr hab
    rw [← Int.not_lt, ← Int.not_lt, ← Int.sign_eq_one_iff_pos, ← Int.sign_eq_one_iff_pos, heq]
  rw [hsign hst] at h1
  rw [hsign htu] at h2
  rw [hsign hsu]
  exact compareBytes_trans hf (bytesOf_zero s) (bytesOf_zero t) (bytesOf_zero u) h1 h2

def emptyString : CString := ⟨[], zero_notMem_nil⟩

/-- What a comparison says of the order of its operands. -/
structure TotalPreorder (cmp : Option CString → Option CString → Int) : Prop where
  swap : ∀ s t, (cmp t s).sign = -(cmp s t).sign
  trans : ∀ s t u, cmp s t ≤ 0 → cmp t u ≤ 0 → cmp s u ≤ 0
  null : cmp none (some emptyString) = 0

theorem nullRight_unsigned (s t : Option CString) : NullRight false True s t := by
  cases s with
  | none =>
    cases t with
    | none => trivial
    | some t => exact Or.inr ⟨trivial, fun h => absurd h Bool.false_ne_true⟩
  | some s =>
    cases t with
    | none => exact Or.inr ⟨trivial, fun h => absurd h Bool.false_ne_true⟩
    | some t => trivial

theorem totalPreorder_unsigned : TotalPreorder (xstrcmp false) where
  swap := by
    intro s t
    exact (congrArg Int.sign (nullCompare_swap false UInt8.toNat s t)).trans (Int.sign_neg _)
  trans := by
    intro s t u
    exact nullCompare_trans keepsZero_toNat (nullRight_unsigned s t) (nullRight_unsigned t u)
      (nullRight_unsigned s u)
  null := rfl

/-- A byte that a signed `char` takes for negative. -/
def highString : CString := ⟨[128], by decide⟩

/-- The string is below `NULL`, which is the empty string, and that is below the string. -/
theorem not_totalPreorder_signed : ¬ TotalPreorder (xstrcmp true) := by
  intro h
  have htrans := h.trans (some highString) none (some emptyString) (by decide) (by decide)
  exact absurd htrans (by decide)

/-- The four comparisons take `NULL` for the empty string exactly where no wrong `char` decides, and
`xstrcmp` is an order of all strings exactly if `char` is unsigned. -/
theorem xstrcmp_exact (signed : Bool) :
    (∀ s1 s2 len,
      ((xstrcmp signed s1 s2).sign = (strcmp (bytesOf s1) (bytesOf s2)).sign ↔
        NullRight signed True s1 s2) ∧
      ((xstrcasecmp signed s1 s2).sign = (strcasecmp (bytesOf s1) (bytesOf s2)).sign ↔
        NullRight signed True s1 s2) ∧
      ((xstrncmp signed s1 s2 len).sign = (strncmp len (bytesOf s1) (bytesOf s2)).sign ↔
        NullRight signed (0 < len) s1 s2) ∧
      ((xstrncasecmp signed s1 s2 len).sign = (strncasecmp len (bytesOf s1) (bytesOf s2)).sign ↔
        NullRight signed (0 < len) s1 s2)) ∧
    (TotalPreorder (xstrcmp signed) ↔ signed = false) := by
  refine ⟨?_, ?_⟩
  · intro s1 s2 len
    exact ⟨nullIsEmpty_iff (aboveNil_compareBytes keepsZero_toNat) s1 s2,
      nullIsEmpty_iff (aboveNil_compareBytes keepsZero_tolower) s1 s2,
      nullIsEmpty_iff (aboveNil_take keepsZero_toNat len) s1 s2,
      nullIsEmpty_iff (aboveNil_take keepsZero_tolower len) s1 s2⟩
  · cases signed with
    | false => exact iff_of_true totalPreorder_unsigned rfl
    | true => exact iff_of_false not_totalPreorder_signed (by simp)

/-- A signed `char`: `NULL` is above a string that is not empty. -/
theorem xstrcmp_null_above : ¬ ∀ signed s1 s2 len,
    (xstrcmp signed s1 s2).sign = (strcmp (bytesOf s1) (bytesOf s2)).sign ∧
    (xstrcasecmp signed s1 s2).sign = (strcasecmp (bytesOf s1) (bytesOf s2)).sign ∧
    (xstrncmp signed s1 s2 len).sign = (strncmp len (bytesOf s1) (bytesOf s2)).sign ∧
    (xstrncasecmp signed s1 s2 len).sign = (strncasecmp len (bytesOf s1) (bytesOf s2)).sign := by
  intro h
  have hsign := (h true none (some highString) 0).1
  exact absurd hsign (by decide)

end Xcharstr
end Xlibc
