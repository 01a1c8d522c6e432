import Mathlib.Data.List.Perm.Basic
import Mathlib.Data.List.Nodup
import Mathlib.Logic.Relation
import Xlibc.Base.HoleHeap

/-!
# Xlibc.Base.HeapTree

The tree that the indices `[0, n)` of an implicit binary heap are. The children of `i` are
`2 * i + 1` and `2 * i + 2`, where these are below `n`, so the last row may be incomplete.

* `Under i j` : `j` is in the subtree of `i`.
* `inorder n i` : the in-order list of the subtree of `i`.
* `mem_inorder`, `inorder_nodup` : it lists the subtree, without repetition.
* `inorder_zero_perm` : the subtree of the root is everything below `n`.
-/

namespace Xlibc
namespace HoleHeap

variable {n i j k : Nat}

def IsChild (i c : Nat) : Prop := 0 < c ∧ parent c = i

def Under (i j : Nat) : Prop := Relation.ReflTransGen IsChild i j

theorem isChild_iff : IsChild i j ↔ j = 2 * i + 1 ∨ j = 2 * i + 2 := by
  unfold IsChild parent
  omega

theorem isChild_left (i : Nat) : IsChild i (2 * i + 1) := isChild_iff.mpr (.inl rfl)

theorem isChild_right (i : Nat) : IsChild i (2 * i + 2) := isChild_iff.mpr (.inr rfl)

theorem IsChild.lt (h : IsChild i j) : i < j := by
  rcases isChild_iff.mp h with rfl | rfl <;> omega

theorem Under.refl (i : Nat) : Under i i := Relation.ReflTransGen.refl

theorem Under.le (h : Under i j) : i ≤ j := by
  induction h with
  | refl => exact Nat.le_refl i
  | tail _ hc ih => exact ih.trans (Nat.le_of_lt hc.lt)

/-- Whatever is below a node is the node, or below one of its children. -/
theorem under_iff : Under i j ↔ j = i ∨ Under (2 * i + 1) j ∨ Under (2 * i + 2) j := by
  constructor
  · intro h
    rcases h.cases_head with rfl | ⟨c, hc, hrest⟩
    · exact .inl rfl
    · rcases isChild_iff.mp hc with rfl | rfl
      · exact .inr (.inl hrest)
      · exact .inr (.inr hrest)
  · rintro (rfl | h | h)
    · exact .refl j
    · exact Relation.ReflTransGen.head (isChild_left i) h
    · exact Relation.ReflTransGen.head (isChild_right i) h

/-- A parent has one child on the way to a node: two nodes above a third are above one another. -/
theorem Under.total (h : Under i k) (h' : Under j k) : Under i j ∨ Under j i := by
  have hunique : Relator.RightUnique (Function.swap IsChild) := fun c p q hp hq => hp.2.symm.trans hq.2
  have hup : Relation.ReflTransGen (Function.swap IsChild) j i ∨
      Relation.ReflTransGen (Function.swap IsChild) i j :=
    Relation.ReflTransGen.total_of_right_unique hunique h'.swap h.swap
  exact hup.imp (·.swap) (·.swap)

/-- The subtrees of a node's two children have no node in common. -/
theorem not_under_both (h : Under (2 * i + 1) j) : ¬ Under (2 * i + 2) j := by
  intro h'
  rcases h.total h' with hr | hl
  · -- the way from the left child to the right one ends at the right one's parent
    rcases hr.cases_tail with heq | ⟨p, hp, hc⟩
    · omega
    · have hpi : p = i := by
        rcases isChild_iff.mp hc with heq | heq <;> omega
      have hle : 2 * i + 1 ≤ p := Under.le hp
      omega
  · have hle := hl.le
    omega

/-- Every index is below the root. -/
theorem under_zero (j : Nat) : Under 0 j := by
  induction j using Nat.strongRecOn with
  | ind j ih =>
    rcases Nat.eq_zero_or_pos j with rfl | hj
    · exact .refl 0
    · exact (ih (parent j) (parent_lt hj)).tail ⟨hj, rfl⟩

/-! ## In order -/

def inorder (n i : Nat) : List Nat :=
  if i < n then inorder n (2 * i + 1) ++ i :: inorder n (2 * i + 2) else []
termination_by n - i

theorem inorder_of_lt (h : i < n) :
    inorder n i = inorder n (2 * i + 1) ++ i :: inorder n (2 * i + 2) := by
  rw [inorder, if_pos h]

theorem inorder_of_le (h : n ≤ i) : inorder n i = [] := by
  rw [inorder, if_neg (by omega)]

theorem mem_inorder : j ∈ inorder n i ↔ j < n ∧ Under i j := by
  induction i using inorder.induct n with
  | case1 i hlt ihl ihr =>
    rw [inorder_of_lt hlt, List.mem_append, List.mem_cons, ihl, ihr, under_iff (i := i)]
    constructor
    · rintro (⟨hj, hl⟩ | rfl | ⟨hj, hr⟩)
      · exact ⟨hj, .inr (.inl hl)⟩
      · exact ⟨hlt, .inl rfl⟩
      · exact ⟨hj, .inr (.inr hr)⟩
    · rintro ⟨hj, rfl | hl | hr⟩
      · exact .inr (.inl rfl)
      · exact .inl ⟨hj, hl⟩
      · exact .inr (.inr ⟨hj, hr⟩)
  | case2 i hge =>
    rw [inorder_of_le (by omega)]
    constructor
    · intro h
      cases h
    · rintro ⟨hj, hu⟩
      have hle := hu.le
      omega

theorem inorder_nodup (n i : Nat) : (inorder n i).Nodup := by
  induction i using inorder.induct n with
  | case1 i hlt ihl ihr =>
    have hroot : i ∉ inorder n (2 * i + 2) := by
      intro h
      have hle := (mem_inorder.mp h).2.le
      omega
    rw [inorder_of_lt hlt]
    refine ihl.append (List.nodup_cons.mpr ⟨hroot, ihr⟩) fun j hl hr => ?_
    have hunder := (mem_inorder.mp hl).2
    rcases List.mem_cons.mp hr with rfl | hr
    · have hle := hunder.le
      omega
    · exact not_under_both hunder (mem_inorder.mp hr).2
  | case2 i hge =>
    rw [inorder_of_le (by omega)]
    exact List.nodup_nil

theorem inorder_zero_perm (n : Nat) : (inorder n 0).Perm (List.range n) := by
  refine (List.perm_ext_iff_of_nodup (inorder_nodup n 0) List.nodup_range).mpr fun j => ?_
  rw [mem_inorder, List.mem_range]
  exact and_iff_left (under_zero j)

end HoleHeap
end Xlibc
