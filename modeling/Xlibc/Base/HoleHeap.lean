import Mathlib.Data.Finset.Erase
import Mathlib.Data.Finset.Range
import Mathlib.Data.Multiset.Range
import Mathlib.Order.Defs.Unbundled
import Mathlib.Logic.Function.Basic
import Mathlib.Tactic.Common

/-!
# Xlibc.Base.HoleHeap

Implicit binary heaps with a hole. A heap is a function `f : Nat → β` read on `[0, n)`, ordered by
a total preorder `r`; index `i > 0` has the parent `(i - 1) / 2`. Sifting does not swap: it keeps a
hole `h`, copies a neighbour into the hole, and makes the neighbour's place the new hole.

* `IsHeap r n f` : no index below `n` is smaller than its parent.
* `Holed r n f h` : the same for every pair off the hole, and the hole's parent is below the
  hole's children.
* `Holed.up` / `Holed.down` : the hole moves to its parent, or to its smaller child.
* `Holed.fill` : a value between the hole's parent and its children makes a heap again.
* `others n f h` : the multiset of values off the hole; `others_move` says a move keeps it.
-/

namespace Xlibc
namespace HoleHeap

universe u

variable {β : Type u} {r : β → β → Prop} {n h : Nat} {f : Nat → β}

def parent (i : Nat) : Nat := (i - 1) / 2

theorem parent_lt {i : Nat} (h : 0 < i) : parent i < i := by unfold parent; omega

theorem parent_eq_iff {c p : Nat} (hc : 0 < c) : parent c = p ↔ c = 2 * p + 1 ∨ c = 2 * p + 2 := by
  unfold parent; omega

def IsHeap (r : β → β → Prop) (n : Nat) (f : Nat → β) : Prop :=
  ∀ i, 0 < i → i < n → r (f (parent i)) (f i)

structure Holed (r : β → β → Prop) (n : Nat) (f : Nat → β) (h : Nat) : Prop where
  off : ∀ i, 0 < i → i < n → i ≠ h → parent i ≠ h → r (f (parent i)) (f i)
  bridge : ∀ i, 0 < i → i < n → parent i = h → 0 < h → r (f (parent h)) (f i)

/-- The root is below every index. -/
theorem IsHeap.root_le [IsTrans β r] [Std.Total r] (hf : IsHeap r n f) : ∀ i, i < n → r (f 0) (f i) := by
  intro i
  induction i using Nat.strongRecOn with
  | ind i ih =>
    intro hi
    by_cases h0 : i = 0
    · subst h0; exact (Std.Total.total (f 0) (f 0)).elim id id
    · have hp := parent_lt (Nat.pos_of_ne_zero h0)
      exact trans_of r (ih (parent i) hp (by omega)) (hf i (by omega) hi)

/-- Taking the value at the root out of a heap leaves a hole there. -/
theorem IsHeap.hole_root (hf : IsHeap r n f) : Holed r n f 0 :=
  ⟨fun i hi hn _ _ => hf i hi hn, fun _ _ _ _ h0 => absurd h0 (Nat.lt_irrefl 0)⟩

/-- A new last index is a hole with no children. -/
theorem IsHeap.hole_last (hf : IsHeap r n f) : Holed r (n + 1) f n := by
  refine ⟨fun i hi hn hne _ => hf i hi (by omega), fun i hi hn hp _ => ?_⟩
  have := parent_lt hi
  omega

theorem IsHeap.mono {m : Nat} (hf : IsHeap r n f) (hm : m ≤ n) : IsHeap r m f :=
  fun i hi hn => hf i hi (by omega)

/-- Filling the hole with a value above its parent and below its children. -/
theorem Holed.fill (hh : Holed r n f h) {x : β} (hup : 0 < h → r (f (parent h)) x)
    (hdn : ∀ i, 0 < i → i < n → parent i = h → r x (f i)) : IsHeap r n (Function.update f h x) := by
  intro i hi hn
  by_cases hih : i = h
  · subst hih
    have := parent_lt hi
    rw [Function.update_self, Function.update_of_ne (by omega)]
    exact hup hi
  · rw [Function.update_of_ne hih]
    by_cases hp : parent i = h
    · rw [hp, Function.update_self]; exact hdn i hi hn hp
    · rw [Function.update_of_ne hp]; exact hh.off i hi hn hih hp

/-- The hole moves up: its parent's value is copied into it. -/
theorem Holed.up [IsTrans β r] (hh : Holed r n f h) (h0 : 0 < h) (hn : h < n) :
    Holed r n (Function.update f h (f (parent h))) (parent h) := by
  have hlt := parent_lt h0
  refine ⟨fun i hi hin hne hpne => ?_, fun i hi hin hp hp0 => ?_⟩
  · have hih : i ≠ h := fun e => hpne (by rw [e])
    rw [Function.update_of_ne hih]
    by_cases hph : parent i = h
    · rw [hph, Function.update_self]; exact hh.bridge i hi hin hph h0
    · rw [Function.update_of_ne hph]; exact hh.off i hi hin hih hph
  · -- a child of the new hole is the old hole or its sibling
    have hgp := parent_lt hp0
    have hgrand : r (f (parent (parent h))) (f (parent h)) :=
      hh.off (parent h) hp0 (by omega) (by omega) (by omega)
    rw [Function.update_of_ne (show parent (parent h) ≠ h by omega)]
    by_cases hih : i = h
    · rw [hih, Function.update_self]; exact hgrand
    · rw [Function.update_of_ne hih]
      have hoff := hh.off i hi hin hih (by omega)
      rw [hp] at hoff
      exact trans_of r hgrand hoff

/-- The hole moves down to a child `c` that is below its sibling. -/
theorem Holed.down (hh : Holed r n f h) {c : Nat} (hc : 0 < c) (hcn : c < n)
    (hpc : parent c = h) (hsib : ∀ i, 0 < i → i < n → parent i = h → i ≠ c → r (f c) (f i)) :
    Holed r n (Function.update f h (f c)) c := by
  have hlt := parent_lt hc
  refine ⟨fun i hi hin hne hpne => ?_, fun i hi hin hp _ => ?_⟩
  · by_cases hih : i = h
    · subst hih
      have := parent_lt hi
      rw [Function.update_self, Function.update_of_ne (by omega)]
      exact hh.bridge c hc hcn hpc hi
    · rw [Function.update_of_ne hih]
      by_cases hph : parent i = h
      · rw [hph, Function.update_self]; exact hsib i hi hin hph hne
      · rw [Function.update_of_ne hph]; exact hh.off i hi hin hih hph
  · have := parent_lt hi
    rw [hpc, Function.update_self, Function.update_of_ne (by omega)]
    have hoff := hh.off i hi hin (by omega) (by omega)
    rwa [hp] at hoff

/-! ## The values off the hole -/

/-- The values at the indices below `n` other than `h`. -/
def others (n : Nat) (f : Nat → β) (h : Nat) : Multiset β := ((Finset.range n).erase h).val.map f

theorem mem_others {i : Nat} (hi : i < n) (hne : i ≠ h) : f i ∈ others n f h :=
  Multiset.mem_map_of_mem f (Finset.mem_erase.mpr ⟨hne, Finset.mem_range.mpr hi⟩)

theorem map_erase_cons {s : Finset Nat} {i : Nat} (hi : i ∈ s) (f : Nat → β) :
    s.val.map f = f i ::ₘ (s.erase i).val.map f := by
  rw [Finset.erase_val, ← Multiset.map_cons, Multiset.cons_erase hi]

theorem map_update_of_notMem {s : Finset Nat} {i : Nat} (hi : i ∉ s) (f : Nat → β) (x : β) :
    s.val.map (Function.update f i x) = s.val.map f := by
  refine Multiset.map_congr rfl fun j hj => Function.update_of_ne ?_ x f
  rintro rfl
  exact hi hj

/-- Putting a value in the hole adds it to the others. -/
theorem map_range_update (hn : h < n) (x : β) :
    (Multiset.range n).map (Function.update f h x) = x ::ₘ others n f h := by
  have := map_erase_cons (Finset.mem_range.mpr hn) (Function.update f h x)
  rw [Function.update_self, map_update_of_notMem (Finset.notMem_erase _ _)] at this
  exact this

theorem map_range_eq (hn : h < n) : (Multiset.range n).map f = f h ::ₘ others n f h :=
  map_erase_cons (Finset.mem_range.mpr hn) f

theorem others_last : others (n + 1) f n = (Multiset.range n).map f := by
  have : (Finset.range (n + 1)).erase n = Finset.range n := by ext i; simp; omega
  rw [others, this]; rfl

/-- Copying the value at `c` into the hole and making `c` the hole keeps the other values. -/
theorem others_move {c : Nat} (hn : h < n) (hcn : c < n) (hne : c ≠ h) :
    others n (Function.update f h (f c)) c = others n f h := by
  have hc : c ∈ (Finset.range n).erase h := by simp [hne, hcn]
  have hh : h ∈ (Finset.range n).erase c := by simp [Ne.symm hne, hn]
  have hnot : h ∉ ((Finset.range n).erase h).erase c := by simp
  rw [others, others, map_erase_cons hc, map_erase_cons hh, Function.update_self,
    Finset.erase_right_comm, map_update_of_notMem hnot]

end HoleHeap
end Xlibc
