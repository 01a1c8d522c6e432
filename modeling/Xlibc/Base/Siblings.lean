import Mathlib.Logic.Relation
import Xlibc.Base.Chain

/-!
# Xlibc.Base.Siblings

Trees in a store of cells, each cell with a link to its first child and one to its next sibling.

* `Linked m p`  : from `p`, every link leads to a live cell, and every path ends.
* `After m a b` : `b` is `a` or a sibling after it.
* `Within m a b` : `b` is `a` or a descendant of it.
* `Reach m a b` : `b` is found by following both links.
* `reach_iff`   : these are the nodes within `a` or within a sibling after it.
-/

namespace Xlibc
namespace Siblings

variable {β : Type} (next child : β → Option Nat)

section Relations

variable (m : Store β)

def NextOf (a b : Nat) : Prop := ∃ n, m.lookup a = some n ∧ next n = some b

def After (a b : Nat) : Prop := Relation.ReflTransGen (NextOf next m) a b

/-- The children of a node are its first child and the siblings after that. -/
def ChildOf (a b : Nat) : Prop := ∃ n c, m.lookup a = some n ∧ child n = some c ∧ After next m c b

def Within (a b : Nat) : Prop := Relation.ReflTransGen (ChildOf next child m) a b

def Link (a b : Nat) : Prop := ∃ n, m.lookup a = some n ∧ (next n = some b ∨ child n = some b)

def Reach (a b : Nat) : Prop := Relation.ReflTransGen (Link next child m) a b

inductive Linked : Option Nat → Prop where
  | null : Linked none
  | node {a : Nat} {n : β} : m.lookup a = some n → Linked (next n) → Linked (child n) → Linked (some a)

end Relations

variable {next child} {m : Store β} {a b c : Nat} {n : β}

/-- Nodes are reached at the start, from its next sibling, or from its first child. -/
theorem reach_of_lookup (ha : m.lookup a = some n) : Reach next child m a b ↔
    b = a ∨ (∃ c, next n = some c ∧ Reach next child m c b) ∨
      ∃ c, child n = some c ∧ Reach next child m c b := by
  constructor
  · intro h
    rcases h.cases_head with rfl | ⟨c, ⟨n', hn', hlink⟩, hrest⟩
    · exact .inl rfl
    · obtain rfl : n = n' := Option.some.inj (ha.symm.trans hn')
      exact hlink.imp (fun hc => ⟨c, hc, hrest⟩) (fun hc => ⟨c, hc, hrest⟩) |> .inr
  · rintro (rfl | ⟨c, hc, h⟩ | ⟨c, hc, h⟩)
    · exact .refl
    · exact .head ⟨n, ha, .inl hc⟩ h
    · exact .head ⟨n, ha, .inr hc⟩ h

theorem After.reach (h : After next m a b) : Reach next child m a b :=
  Relation.ReflTransGen.mono (fun _ _ ⟨n, hn, hb⟩ => ⟨n, hn, .inl hb⟩) _ _ h

theorem ChildOf.reach (h : ChildOf next child m a b) : Reach next child m a b := by
  obtain ⟨n, c, hn, hc, hb⟩ := h
  exact .head ⟨n, hn, .inr hc⟩ hb.reach

theorem Within.reach (h : Within next child m a b) : Reach next child m a b := by
  induction h with
  | refl => exact .refl
  | tail _ hc ih => exact ih.trans hc.reach

theorem Linked.reach (h : Linked next child m (some a)) (hb : Reach next child m a b) :
    Linked next child m (some b) := by
  induction hb with
  | refl => exact h
  | tail _ hlink ih =>
    obtain ⟨n, hn, hc⟩ := hlink
    cases ih with
    | node hn' hnext hchild =>
      obtain rfl := Option.some.inj (hn.symm.trans hn')
      rcases hc with hc | hc
      · exact hc ▸ hnext
      · exact hc ▸ hchild

/-- Following both links covers the trees of a node and of the siblings after it. -/
theorem reach_iff : Reach next child m a b ↔ ∃ s, After next m a s ∧ Within next child m s b := by
  constructor
  · intro h
    induction h using Relation.ReflTransGen.head_induction_on with
    | refl => exact ⟨b, .refl, .refl⟩
    | head hlink _ ih =>
      obtain ⟨n, hn, hc⟩ := hlink
      obtain ⟨s, hs, hb⟩ := ih
      rcases hc with hnext | hchild
      · exact ⟨s, .head ⟨n, hn, hnext⟩ hs, hb⟩
      · exact ⟨_, .refl, .head ⟨n, _, hn, hchild, hs⟩ hb⟩
  · rintro ⟨s, hs, hb⟩
    exact hs.reach.trans hb.reach

/-- The last of its siblings reaches its own tree only. -/
theorem within_of_reach (ha : m.lookup a = some n) (hn : next n = none)
    (h : Reach next child m a b) : Within next child m a b := by
  obtain ⟨s, hs, hb⟩ := reach_iff.mp h
  rcases hs.cases_head with rfl | ⟨c, ⟨n', hn', hc⟩, -⟩
  · exact hb
  · obtain rfl : n = n' := Option.some.inj (ha.symm.trans hn')
    rw [hn] at hc
    cases hc

end Siblings
end Xlibc
