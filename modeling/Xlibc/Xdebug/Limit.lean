import Xlibc.Xdebug.Model

/-!
# Xlibc.Xdebug.Limit

The limit on the size of a log file, and the level. `xlogfsize` decides by the limit it has stored, not by
the one it is given, so what a call does depends on the calls before it.
-/

namespace Xlibc
namespace Xdebug

/-- `xlogfsize`. The guard looks at `xlogctl.fsize`. -/
def xlogfsize (fsize : Int) (s : Xlog) : Int × Xlog :=
  if s.file.headD 0 ≠ 0 ∧ s.fsize < 512 then (-1, s) else (0, { s with fsize := fsize })

/-- `xloglevel` -/
def xloglevel (level : Int) (s : Xlog) : Int × Xlog :=
  if level < 0 ∨ level > 7 then (-1, s) else (0, { s with level := level })

/-- No limit, or one that is not too short. -/
def ValidLimit (n : Int) : Prop := n = 0 ∨ 512 ≤ n

instance (n : Int) : Decidable (ValidLimit n) := inferInstanceAs (Decidable (_ ∨ _))

/-- A call accepts a valid limit and stores it, and rejects another one and stores nothing. -/
structure Obeys (n : Int) (s : Xlog) : Prop where
  ret : (xlogfsize n s).1 = 0 ↔ ValidLimit n
  state : (xlogfsize n s).2 = if ValidLimit n then { s with fsize := n } else s
  stored : ValidLimit (xlogfsize n s).2.fsize

/-- Every call of a sequence does so, each in the state that the calls before it have left. -/
def EachObeys : List Int → Xlog → Prop
  | [], _ => True
  | n :: ns, s => Obeys n s ∧ EachObeys ns (xlogfsize n s).2

/-- Limits of 512 or more, and behind them at most a 0, which only invalid limits follow. -/
def LimitsFit (ns : List Int) : Prop :=
  ∃ large rest, ns = large ++ rest ∧ (∀ n ∈ large, 512 ≤ n) ∧
    (rest = [] ∨ ∃ bad, rest = 0 :: bad ∧ ∀ n ∈ bad, ¬ ValidLimit n)

theorem xlogfsize_open {n : Int} {s : Xlog} (h : 512 ≤ s.fsize) :
    xlogfsize n s = (0, { s with fsize := n }) := if_neg fun hguard => by omega

theorem xlogfsize_stuck {n : Int} {s : Xlog} (hfile : s.file.headD 0 ≠ 0) (h : s.fsize < 512) :
    xlogfsize n s = (-1, s) := if_pos ⟨hfile, h⟩

/-- Behind a limit that is not too short everything is accepted. -/
theorem obeys_open {n : Int} {s : Xlog} (h : 512 ≤ s.fsize) : Obeys n s ↔ ValidLimit n := by
  constructor
  · intro hobeys
    refine hobeys.ret.mp ?_
    rw [xlogfsize_open h]
  · intro hn
    refine ⟨?_, ?_, ?_⟩
    · rw [xlogfsize_open h]
      exact iff_of_true rfl hn
    · rw [xlogfsize_open h, if_pos hn]
    · rw [xlogfsize_open h]
      exact hn

/-- Behind a 0 nothing is. -/
theorem obeys_stuck {n : Int} {s : Xlog} (hfile : s.file.headD 0 ≠ 0) (h : s.fsize = 0) :
    Obeys n s ↔ ¬ ValidLimit n := by
  have hstuck := xlogfsize_stuck hfile (show s.fsize < 512 by omega) (n := n)
  constructor
  · intro hobeys hn
    have hret := hobeys.ret.mpr hn
    rw [hstuck] at hret
    omega
  · intro hn
    refine ⟨?_, ?_, ?_⟩
    · rw [hstuck]
      exact iff_of_false (by omega) hn
    · rw [hstuck, if_neg hn]
    · rw [hstuck]
      exact Or.inl h

theorem eachObeys_stuck {s : Xlog} (hfile : s.file.headD 0 ≠ 0) (h : s.fsize = 0) (ns : List Int) :
    EachObeys ns s ↔ ∀ n ∈ ns, ¬ ValidLimit n := by
  induction ns with
  | nil => exact iff_of_true trivial fun n hn => absurd hn List.not_mem_nil
  | cons n ns ih =>
    rw [EachObeys, obeys_stuck hfile h, xlogfsize_stuck hfile (by omega), ih, List.forall_mem_cons]

theorem limitsFit_cons (n : Int) (ns : List Int) :
    LimitsFit (n :: ns) ↔ (512 ≤ n ∧ LimitsFit ns) ∨ (n = 0 ∧ ∀ m ∈ ns, ¬ ValidLimit m) := by
  constructor
  · rintro ⟨large, rest, hns, hlarge, hrest⟩
    cases large with
    | nil =>
      rw [List.nil_append] at hns
      rcases hrest with rfl | ⟨bad, rfl, hbad⟩
      · cases hns
      · cases hns
        exact Or.inr ⟨rfl, hbad⟩
    | cons a large =>
      rw [List.cons_append] at hns
      cases hns
      rw [List.forall_mem_cons] at hlarge
      exact Or.inl ⟨hlarge.1, large, rest, rfl, hlarge.2, hrest⟩
  · rintro (⟨hn, large, rest, rfl, hlarge, hrest⟩ | ⟨rfl, hbad⟩)
    · exact ⟨n :: large, rest, rfl, List.forall_mem_cons.mpr ⟨hn, hlarge⟩, hrest⟩
    · exact ⟨[], 0 :: ns, rfl, fun m hm => absurd hm List.not_mem_nil, Or.inr ⟨ns, rfl, hbad⟩⟩

theorem eachObeys_open {s : Xlog} (hfile : s.file.headD 0 ≠ 0) (h : 512 ≤ s.fsize) (ns : List Int) :
    EachObeys ns s ↔ LimitsFit ns := by
  induction ns generalizing s with
  | nil => exact iff_of_true trivial ⟨[], [], rfl, fun m hm => absurd hm List.not_mem_nil, Or.inl rfl⟩
  | cons n ns ih =>
    rw [EachObeys, obeys_open h, xlogfsize_open h, limitsFit_cons]
    constructor
    · rintro ⟨rfl | hn, hrest⟩
      · exact Or.inr ⟨rfl, (eachObeys_stuck (s := { s with fsize := 0 }) hfile rfl ns).mp hrest⟩
      · exact Or.inl ⟨hn, (ih (s := { s with fsize := n }) hfile hn).mp hrest⟩
    · rintro (⟨hn, hrest⟩ | ⟨rfl, hbad⟩)
      · exact ⟨Or.inr hn, (ih (s := { s with fsize := n }) hfile hn).mpr hrest⟩
      · exact ⟨Or.inl rfl, (eachObeys_stuck (s := { s with fsize := 0 }) hfile rfl ns).mpr hbad⟩

/-- Every call of a sequence from the start does what it should exactly for these sequences. -/
theorem xlogfsize_exact (fs : Fs) (errSize : List Byte → Option Nat) (ns : List Int) :
    EachObeys ns (Xlog.init fs errSize) ↔ LimitsFit ns :=
  eachObeys_open (s := Xlog.init fs errSize) (show (115 : Byte) ≠ 0 by decide)
    (show (512 : Int) ≤ 1024 * 64 by omega) ns

/-- A limit that is too short is accepted, and a good one behind it is not. -/
theorem xlogfsize_short : ¬ ∀ fs errSize ns, EachObeys ns (Xlog.init fs errSize) := by
  intro h
  have fs : Fs :=
    { dir := fun _ => none, content := fun _ => [], next := 0, opens := fun _ => true
      fresh := by intro p i hp; cases hp }
  have hshort := (h fs (fun _ => none) [100, 1024]).1
  have hvalid := (obeys_open (s := Xlog.init fs fun _ => none) (show (512 : Int) ≤ 1024 * 64 by omega)).mp hshort
  exact absurd hvalid (by decide)

end Xdebug
end Xlibc
