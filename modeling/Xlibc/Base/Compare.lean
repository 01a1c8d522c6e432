import Mathlib.Data.List.Lex
import Xlibc.Base.CStr

/-!
# Xlibc.Base.Compare

String comparison of the C library: the difference of the first two bytes that differ, a string being
followed by a zero. Bytes are compared as `unsigned char`, whatever a plain `char` is.

* `compareBytes` : the comparison of what `f` makes of the bytes.
* `strcmp`, `strcasecmp`, `strncmp`, `strncasecmp` : its four instances, in the C locale.
* `compareBytes_pos`, `compareBytes_eq_zero` : the sign is the lexicographic order.
-/

namespace Xlibc

/-- `tolower` in the C locale -/
def tolower (c : Byte) : Byte := if 'A'.toUInt8 ≤ c ∧ c ≤ 'Z'.toUInt8 then c + 32 else c

def compareBytes (f : Byte → Nat) : List Byte → List Byte → Int
  | [], [] => 0
  | [], d :: _ => -(f d : Int)
  | c :: _, [] => f c
  | c :: s, d :: t => if f c = f d then compareBytes f s t else (f c : Int) - f d

def strcmp (s t : List Byte) : Int := compareBytes UInt8.toNat s t

def strcasecmp (s t : List Byte) : Int := compareBytes (fun c => (tolower c).toNat) s t

def strncmp (n : Nat) (s t : List Byte) : Int := strcmp (s.take n) (t.take n)

def strncasecmp (n : Nat) (s t : List Byte) : Int := strcasecmp (s.take n) (t.take n)

/-- Only a terminator becomes a zero. -/
def KeepsZero (f : Byte → Nat) : Prop := ∀ c, f c = 0 ↔ c = 0

theorem keepsZero_toNat : KeepsZero UInt8.toNat := by
  intro c
  constructor
  · intro h
    exact UInt8.toNat_inj.mp h
  · intro h
    rw [h]
    rfl

theorem keepsZero_tolower : KeepsZero fun c => (tolower c).toNat := forall_byte (by decide +kernel)

section Order

variable {f : Byte → Nat} (hf : KeepsZero f)

theorem compareBytes_swap (s t : List Byte) : compareBytes f t s = -compareBytes f s t := by
  induction s generalizing t with
  | nil =>
    cases t with
    | nil => rfl
    | cons d t => simp [compareBytes]
  | cons c s ih =>
    cases t with
    | nil => rfl
    | cons d t =>
      by_cases h : f c = f d
      · simp [compareBytes, h, ih]
      · have h' : ¬ f d = f c := fun h' => h h'.symm
        simp only [compareBytes, h, h', if_false]
        omega

include hf

/-- The sign of a comparison is the order of the strings. -/
theorem compareBytes_pos {s t : List Byte} (hs : (0 : Byte) ∉ s) (ht : (0 : Byte) ∉ t) :
    0 < compareBytes f s t ↔ t.map f < s.map f := by
  induction s generalizing t with
  | nil =>
    cases t with
    | nil => simp [compareBytes]
    | cons d t => simp [compareBytes]
  | cons c s ih =>
    rw [List.mem_cons, not_or] at hs
    cases t with
    | nil =>
      have hc : f c ≠ 0 := fun h => hs.1 ((hf c).mp h).symm
      simp only [compareBytes, List.map_nil, List.map_cons, List.nil_lt_cons, iff_true]
      omega
    | cons d t =>
      rw [List.mem_cons, not_or] at ht
      rw [List.map_cons, List.map_cons, List.cons_lt_cons_iff]
      by_cases h : f c = f d
      · simp [compareBytes, h, ih hs.2 ht.2]
      · have h' : ¬ f d = f c := fun h' => h h'.symm
        simp only [compareBytes, h, h', if_false, false_and, or_false]
        omega

theorem compareBytes_neg {s t : List Byte} (hs : (0 : Byte) ∉ s) (ht : (0 : Byte) ∉ t) :
    compareBytes f s t < 0 ↔ s.map f < t.map f := by
  rw [← compareBytes_pos hf ht hs, compareBytes_swap s t]
  omega

theorem compareBytes_eq_zero {s t : List Byte} (hs : (0 : Byte) ∉ s) (ht : (0 : Byte) ∉ t) :
    compareBytes f s t = 0 ↔ s.map f = t.map f := by
  have hpos := compareBytes_pos hf hs ht
  have hneg := compareBytes_neg hf hs ht
  constructor
  · intro h
    rcases lt_trichotomy (s.map f) (t.map f) with hlt | heq | hgt
    · exact absurd (hneg.mpr hlt) (by omega)
    · exact heq
    · exact absurd (hpos.mpr hgt) (by omega)
  · intro h
    rw [h] at hpos hneg
    have := hpos.not.mpr (lt_irrefl _)
    have := hneg.not.mpr (lt_irrefl _)
    omega

theorem compareBytes_trans {s t u : List Byte} (hs : (0 : Byte) ∉ s) (ht : (0 : Byte) ∉ t)
    (hu : (0 : Byte) ∉ u) (hst : compareBytes f s t ≤ 0) (htu : compareBytes f t u ≤ 0) :
    compareBytes f s u ≤ 0 := by
  rw [← Int.not_lt, compareBytes_pos hf hs ht, not_lt] at hst
  rw [← Int.not_lt, compareBytes_pos hf ht hu, not_lt] at htu
  rw [← Int.not_lt, compareBytes_pos hf hs hu, not_lt]
  exact le_trans hst htu

end Order

/-- Two strings compare equal if and only if they are the same. -/
theorem strcmp_eq_zero {s t : List Byte} (hs : (0 : Byte) ∉ s) (ht : (0 : Byte) ∉ t) :
    strcmp s t = 0 ↔ s = t := by
  rw [strcmp, compareBytes_eq_zero keepsZero_toNat hs ht]
  exact List.map_inj_right fun _ _ h => UInt8.toNat_inj.mp h

theorem strcasecmp_eq_zero {s t : List Byte} (hs : (0 : Byte) ∉ s) (ht : (0 : Byte) ∉ t) :
    strcasecmp s t = 0 ↔ s.map tolower = t.map tolower := by
  rw [strcasecmp, compareBytes_eq_zero keepsZero_tolower hs ht]
  have hmap : ∀ l : List Byte, l.map (fun c => (tolower c).toNat) = (l.map tolower).map UInt8.toNat := by
    intro l
    rw [List.map_map]
    rfl
  rw [hmap, hmap]
  exact List.map_inj_right fun _ _ h => UInt8.toNat_inj.mp h

end Xlibc
