import Xlibc.Base.HeapTree
import Xlibc.Xheap.Correct

/-!
# Xlibc.Xheap.Traverse

`xheap_traverse` of `xheap.c`. It gives every element of a subtree to a callback, which is a
function on a state `σ` of the caller's. The index is an `int`, compared with the `unsigned` count of
used slots; an index past `INT_MAX` is undefined.

* `xheapTraverse_inorder` : with enough rounds, the calls are those of the in-order list of slots.
* `xheap_traverse_visits` : each used slot of the subtree once, and nothing else.
-/

namespace Xlibc
namespace Xheap

open HoleHeap

variable {α σ : Type}

/-! ## The code -/

def intResult (z : Int) : Option Int := if -2 ^ 31 ≤ z ∧ z < 2 ^ 31 then some z else none

def leftOf (x : Int) : Option Int := intResult (2 * x + 1)

def rightOf (x : Int) : Option Int := intResult (2 * x + 2)

/-- The element read from `heap->slots[index]`. -/
def slotAt (h : XHeap α) (index : Int) : Option α :=
  if 0 ≤ index then cells h.slots index.toNat else none

/-- `xheap_traverse`, to a depth of at most `fuel` calls. -/
def xheapTraverse (h : XHeap α) (handler : α → σ → σ) : Nat → Int → σ → Option σ
  | 0, _, _ => none
  | fuel + 1, index, s =>
    if u32OfInt index < h.used then do
      let s ← xheapTraverse h handler fuel (← leftOf index) s
      let data ← slotAt h index
      xheapTraverse h handler fuel (← rightOf index) (handler data s)
    else some s

/-! ## The calls -/

/-- The elements of the used slots `l`, in this order. -/
def Elements (h : XHeap α) (l : List Nat) (as : List α) : Prop := l.map (cells h.slots) = as.map some

def Filled (h : XHeap α) : Prop := ∀ i, i < h.used → ∃ a, cells h.slots i = some a

theorem HeapInv.filled {le : α → α → Prop} {h : XHeap α} (hi : HeapInv le h) : Filled h :=
  fun _ hlt => hi.read hlt

theorem Filled.elements {h : XHeap α} (hf : Filled h) : ∀ {l : List Nat}, (∀ i ∈ l, i < h.used) →
    ∃ as, Elements h l as := by
  intro l
  induction l with
  | nil => exact fun _ => ⟨[], rfl⟩
  | cons i l ih =>
    intro hl
    obtain ⟨a, ha⟩ := hf i (hl i List.mem_cons_self)
    obtain ⟨as, has⟩ := ih fun j hj => hl j (List.mem_cons_of_mem i hj)
    refine ⟨a :: as, ?_⟩
    rw [Elements, List.map_cons, List.map_cons, ha, has]

theorem intResult_natCast {n : Nat} (hn : n < 2 ^ 31) : intResult n = some (n : Int) :=
  if_pos (by omega)

theorem leftOf_natCast {i : Nat} (hi : i < 2 ^ 30) : leftOf i = some ((2 * i + 1 : Nat) : Int) := by
  have hleft : 2 * (i : Int) + 1 = ((2 * i + 1 : Nat) : Int) := by omega
  rw [leftOf, hleft, intResult_natCast (by omega)]

theorem rightOf_natCast {i : Nat} (hi : i + 1 < 2 ^ 30) :
    rightOf i = some ((2 * i + 2 : Nat) : Int) := by
  have hright : 2 * (i : Int) + 2 = ((2 * i + 2 : Nat) : Int) := by omega
  rw [rightOf, hright, intResult_natCast (by omega)]

/-- A call below the used slots: the left subtree, the slot, the right subtree. -/
theorem xheapTraverse_slot {h : XHeap α} (handler : α → σ → σ) {fuel i : Nat} {a : α} (s : σ)
    (hused : h.used < 2 ^ 30) (hi : i < h.used) (ha : cells h.slots i = some a) :
    xheapTraverse h handler (fuel + 1) i s =
      (xheapTraverse h handler fuel ((2 * i + 1 : Nat) : Int) s).bind fun s =>
        xheapTraverse h handler fuel ((2 * i + 2 : Nat) : Int) (handler a s) := by
  have hread : slotAt h i = some a := by
    rw [slotAt, if_pos (Int.natCast_nonneg i), Int.toNat_natCast, ha]
  have hlt : u32OfInt i < h.used := by rwa [u32OfInt_ofNat (by omega)]
  rw [xheapTraverse, if_pos hlt, leftOf_natCast (by omega), rightOf_natCast (by omega), hread]
  rfl

theorem xheapTraverse_past {h : XHeap α} (handler : α → σ → σ) {fuel i : Nat} (s : σ)
    (hi : h.used ≤ i) (hlt : i < 2 ^ 32) : xheapTraverse h handler (fuel + 1) i s = some s := by
  have hge : ¬ u32OfInt i < h.used := by rw [u32OfInt_ofNat hlt]; omega
  rw [xheapTraverse, if_neg hge]

/-- The handler's calls are those of the slots in order. An index below `used` is at least doubled at
each call, so `used - i` rounds past the first are enough. -/
theorem xheapTraverse_inorder {h : XHeap α} (hused : h.used < 2 ^ 30) (hf : Filled h)
    (handler : α → σ → σ) : ∀ {fuel i : Nat}, i < 2 ^ 31 → h.used - i < fuel → ∀ {as : List α},
      Elements h (inorder h.used i) as → ∀ s,
        xheapTraverse h handler fuel i s = some (as.foldl (fun s a => handler a s) s) := by
  intro fuel
  induction fuel with
  | zero => intro i _ hfuel; omega
  | succ fuel ih =>
    intro i hi hfuel as has s
    by_cases hlt : i < h.used
    · obtain ⟨a, ha⟩ := hf i hlt
      rw [Elements, inorder_of_lt hlt, List.map_append, List.map_cons, ha] at has
      obtain ⟨ls, rest, rfl, hls, hrest⟩ := List.map_eq_append_iff.mp has.symm
      obtain ⟨b, rs, rfl, hb, hrs⟩ := List.map_eq_cons_iff.mp hrest
      cases hb
      rw [xheapTraverse_slot handler s hused hlt ha, ih (by omega) (by omega) hls.symm,
        Option.bind_some, ih (by omega) (by omega) hrs.symm, List.foldl_append, List.foldl_cons]
    · rw [Elements, inorder_of_le (by omega)] at has
      rw [List.map_eq_nil_iff.mp has.symm, xheapTraverse_past handler s (by omega) (by omega)]
      rfl

/-- **Each used slot once.** From any used slot, the traversal returns, and its calls are one for each used
slot of the subtree, which from slot 0 is every used slot. -/
theorem xheap_traverse_visits {h : XHeap α} (hused : h.used < 2 ^ 30) (hf : Filled h) {index : Nat}
    (hindex : index < h.used) : ∃ slots as, Elements h slots as ∧ slots.Nodup ∧
      (∀ j, j ∈ slots ↔ j < h.used ∧ Under index j) ∧ (index = 0 → slots.Perm (List.range h.used)) ∧
      ∀ (handler : α → σ → σ) (s : σ), ∃ N, ∀ fuel, N ≤ fuel →
        xheapTraverse h handler fuel index s = some (as.foldl (fun s a => handler a s) s) := by
  obtain ⟨as, has⟩ := hf.elements fun j hj => (mem_inorder (i := index).mp hj).1
  refine ⟨inorder h.used index, as, has, inorder_nodup _ _, fun j => mem_inorder, ?_, ?_⟩
  · rintro rfl
    exact inorder_zero_perm h.used
  · intro handler s
    exact ⟨h.used + 1, fun fuel hfuel => xheapTraverse_inorder hused hf handler (by omega) (by omega) has s⟩

theorem xheap_traverse_visits_three : ∃ slots as,
    Elements (XHeap.mk 4 [some 3, some 5, some 4, none] 3) slots as ∧ slots.Nodup ∧
      (∀ j, j ∈ slots ↔ j < 3 ∧ Under 0 j) ∧ ((0 : Nat) = 0 → slots.Perm (List.range 3)) ∧
      ∀ (handler : Nat → List Nat → List Nat) (s : List Nat), ∃ N, ∀ fuel, N ≤ fuel →
        xheapTraverse (XHeap.mk 4 [some 3, some 5, some 4, none] 3) handler fuel (0 : Nat) s =
          some (as.foldl (fun s a => handler a s) s) := by
  refine xheap_traverse_visits (by decide) (fun i hi => Option.isSome_iff_exists.mp ?_) (by decide)
  revert i hi
  decide

end Xheap
end Xlibc
