import Xlibc.Xalloc.Model
import Xlibc.Xtrace2.Returns

/-!
# Xlibc.Xalloc.Hooks

What the two hooks do to the records of the tracker when they return.
-/

namespace Xlibc
namespace Xalloc

open Xtrace2

/-- The call site under which the tracker files a caller. -/
def Caller.site (c : Caller) : Site := (filenameGet c.file.val, c.func.val, c.line)

/-- A caller at line `line` of no file. -/
def atLine (line : Int) : Caller :=
  { file := ⟨[], zero_notMem_nil⟩, line := line, func := ⟨[], zero_notMem_nil⟩ }

variable {t t' : Tracker} {R : List Record}

theorem insertHook_returns {g : Grant} {c : Caller} {size : Nat} {type : AllocType} (h : Represents t R)
    (hc : Counted R) (hp : g.p ∉ R.map fun r => r.2.1) (hf : Fresh t g)
    (hr : insertHook t g c size type = some t') :
    Represents t' ((c.site, g.p, u32 size) :: R) ∧ Counted ((c.site, g.p, u32 size) :: R) := by
  obtain ⟨⟨ret, t''⟩, hrun, rfl⟩ := Option.map_eq_some_iff.mp hr
  have hrec : allocRecord (c.alloc g.p size type) = (c.site, g.p, u32 size) := by
    rw [allocRecord, Caller.alloc, u32OfInt_i32OfNat]
    rfl
  rw [← hrec]
  exact insert_returns h hc hp hf.1 hf.2 hrun

theorem removeHook_returns {ptr : Nat} (h : Represents t R) (hr : removeHook t ptr = some t') :
    Represents t' (without R ptr) := by
  obtain ⟨⟨ret, t''⟩, hrun, rfl⟩ := Option.map_eq_some_iff.mp hr
  rcases remove_returns h hrun with ⟨hno, -, rfl⟩ | ⟨-, -, hrep⟩
  · rw [without_of_notMem hno]
    exact h
  · exact hrep

/-- A removal leaves the records of other addresses. -/
theorem notMem_without {p ptr : Nat} (hp : p ≠ ptr → p ∉ R.map fun r => r.2.1) :
    p ∉ (without R ptr).map fun r => r.2.1 := by
  intro hmem
  obtain ⟨r, hr, heq⟩ := List.mem_map.mp hmem
  obtain ⟨hrR, hne⟩ := List.mem_filter.mp hr
  have hmoved : p ≠ ptr := by
    rw [← heq]
    exact of_decide_eq_true hne
  exact hp hmoved (List.mem_map.mpr ⟨r, hrR, heq⟩)

end Xalloc
end Xlibc
