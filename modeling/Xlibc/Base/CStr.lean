import Mathlib.Data.List.DropRight
import Xlibc.Base.Bytes

/-!
# Xlibc.Base.CStr

C strings: bytes up to a terminating zero.

* `CString`      : the bytes before the zero, none of them zero.
* `cstr`         : the string at the start of a block, if the block holds its zero.
* `cstring`      : the same string, as a `CString`.
* `strncpy`      : a string copied into a block of `n` bytes, `cstr_strncpy` reads it back.
* `rindexAfter`  : what stands behind the last occurrence of a byte, as `rindex` finds it.
* `strchr`       : the position of the first occurrence of a byte.
* `isspace`      : the blanks of the C locale.
-/

namespace Xlibc

def CString : Type := { s : List Byte // (0 : Byte) ∉ s }

instance : DecidableEq CString := inferInstanceAs (DecidableEq { s : List Byte // (0 : Byte) ∉ s })

/-- The string at the start of a block; without a zero in the block it runs past its end. -/
def cstr (block : List Byte) : Option (List Byte) :=
  if (0 : Byte) ∈ block then some (block.takeWhile (· ≠ 0)) else none

/-- `strncpy` into a block of `n` bytes, padded with zeros. -/
def strncpy (s : List Byte) (n : Nat) : List Byte := s.take n ++ List.replicate (n - s.length) 0

/-- The bytes behind the last `c`, or all of them when there is none. -/
def rindexAfter (s : List Byte) (c : Byte) : List Byte := s.rtakeWhile (· ≠ c)

/-- `strchr` for a byte that is not zero, in the string at position `s` of a block. -/
def strchr (block : List Byte) (s : Nat) (c : Byte) : Option (Option Nat) := do
  let t ← cstr (block.drop s)
  if c ∈ t then some (some (s + (t.takeWhile (· ≠ c)).length)) else some none

/-- `isspace` in the C locale -/
def isspace (c : Byte) : Bool := c == ' '.toUInt8 || ('\t'.toUInt8 ≤ c && c ≤ '\r'.toUInt8)

theorem zero_notMem_nil : (0 : Byte) ∉ ([] : List Byte) := List.not_mem_nil

/-- What is searched for is not in front of it. -/
theorem all_ne {a : List Byte} {c : Byte} (hc : c ∉ a) : ∀ d ∈ a, decide (d ≠ c) = true := by
  intro d hd
  have hne : d ≠ c := fun h => hc (h ▸ hd)
  simpa using hne

theorem takeWhile_ne {a : List Byte} {c : Byte} (hc : c ∉ a) (b : List Byte) :
    (a ++ c :: b).takeWhile (· ≠ c) = a := by
  rw [List.takeWhile_append_of_pos (all_ne hc)]
  simp

theorem dropWhile_ne {a : List Byte} {c : Byte} (hc : c ∉ a) (b : List Byte) :
    (a ++ c :: b).dropWhile (· ≠ c) = c :: b := by
  rw [List.dropWhile_append_of_pos (all_ne hc)]
  simp

theorem takeWhile_ne_self {a : List Byte} {c : Byte} (hc : c ∉ a) : a.takeWhile (· ≠ c) = a :=
  List.takeWhile_eq_self_iff.mpr (all_ne hc)

theorem cstr_append_zero {s rest : List Byte} (hs : (0 : Byte) ∉ s) : cstr (s ++ 0 :: rest) = some s := by
  rw [cstr, if_pos (by simp), takeWhile_ne hs]

/-- The string behind the first `pre.length` bytes. -/
theorem cstr_drop {t : List Byte} (ht : (0 : Byte) ∉ t) (pre rest : List Byte) :
    cstr ((pre ++ (t ++ 0 :: rest)).drop pre.length) = some t := by
  rw [List.drop_left, cstr_append_zero ht]

/-- The first byte of a string, or its terminator. -/
theorem cstr_head {block t : List Byte} {s : Nat} (h : cstr (block.drop s) = some t) :
    block[s]? = some (t.headD 0) := by
  rw [← List.head?_drop]
  rw [cstr] at h
  cases hd : block.drop s with
  | nil =>
    rw [hd, if_neg List.not_mem_nil] at h
    cases h
  | cons c l =>
    rw [hd] at h
    split at h
    · cases h
      by_cases hc : c = 0
      · simp [hc]
      · simp [hc]
    · cases h

theorem cstr_nonzero {block t : List Byte} (h : cstr block = some t) : (0 : Byte) ∉ t := by
  rw [cstr] at h
  split at h
  · cases h
    intro hmem
    simpa using List.mem_takeWhile_imp hmem
  · cases h

/-- What `strdup` copies from a block. -/
def cstring (block : List Byte) : Option CString :=
  if (0 : Byte) ∈ block then
    some ⟨block.takeWhile (· ≠ 0), fun hmem => by simpa using List.mem_takeWhile_imp hmem⟩
  else none

theorem cstring_append_zero (s : CString) (rest : List Byte) : cstring (s.val ++ 0 :: rest) = some s := by
  rw [cstring, if_pos (by simp)]
  exact congrArg some (Subtype.ext (takeWhile_ne s.property rest))

theorem strchr_absent {t : List Byte} (ht : (0 : Byte) ∉ t) {c : Byte} (hc : c ∉ t) (pre rest : List Byte) :
    strchr (pre ++ (t ++ 0 :: rest)) pre.length c = some none := by
  rw [strchr, cstr_drop ht, Option.bind_eq_bind, Option.bind_some, if_neg hc]

theorem strchr_first {a b : List Byte} {c : Byte} (ht : (0 : Byte) ∉ a ++ c :: b) (hc : c ∉ a)
    (pre rest : List Byte) :
    strchr (pre ++ (a ++ c :: b ++ 0 :: rest)) pre.length c = some (some (pre.length + a.length)) := by
  rw [strchr, cstr_drop ht, Option.bind_eq_bind, Option.bind_some, if_pos (by simp), takeWhile_ne hc]

theorem cstr_strncpy {s : List Byte} {n : Nat} (hs : (0 : Byte) ∉ s) (hn : s.length < n) :
    cstr (strncpy s n) = some s := by
  obtain ⟨m, hm⟩ : ∃ m, n - s.length = m + 1 := ⟨n - s.length - 1, by omega⟩
  have hcopy : strncpy s n = s ++ 0 :: List.replicate m 0 := by
    rw [strncpy, hm, List.take_of_length_le (by omega), List.replicate_succ]
  rw [cstr, hcopy, if_pos (by simp), takeWhile_ne hs]

/-- A string that fills the block is copied without its zero. -/
theorem cstr_strncpy_full {s : List Byte} {n : Nat} (hs : (0 : Byte) ∉ s) (hn : n ≤ s.length) :
    cstr (strncpy s n) = none := by
  have hcopy : strncpy s n = s.take n := by
    rw [strncpy, Nat.sub_eq_zero_of_le hn, List.replicate_zero, List.append_nil]
  rw [cstr, hcopy, if_neg]
  exact fun hmem => hs (List.mem_of_mem_take hmem)

theorem zero_notMem_rindexAfter {s : List Byte} {c : Byte} (hs : (0 : Byte) ∉ s) :
    (0 : Byte) ∉ rindexAfter s c := by
  intro h
  refine hs ?_
  unfold rindexAfter List.rtakeWhile at h
  rw [List.mem_reverse] at h
  exact List.mem_reverse.mp ((List.takeWhile_sublist _).subset h)

end Xlibc
