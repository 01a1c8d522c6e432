import Xlibc.Base.HoleHeap
import Xlibc.Xheap.Model

/-!
# Xlibc.Xheap.Sift

What the two sift loops do to a heap with a hole. `Sifted` is the common postcondition: the hole
has moved to a place where `data` fits between its parent and its children, the values off the hole
are the same, and nothing from index `n` on has changed.

* `shiftUpLoop_spec`   : from a hole whose children are above `data`.
* `shiftDownLoop_spec` : from a hole whose parent is below `data`, with `data` itself still in the
  slot `n` just past the heap, where the loop may read it as a sibling or as a child.
-/

namespace Xlibc
namespace Xheap

open HoleHeap

universe u

variable {α : Type u} {cmp : α → α → Int} {le : α → α → Prop}

/-- `heap_cmp(a, b) > 0` holds exactly when `a` is strictly greater than `b` in the total
preorder `le`. -/
structure CmpOf (cmp : α → α → Int) (le : α → α → Prop) : Prop where
  total : ∀ a b, le a b ∨ le b a
  trans : ∀ {a b c}, le a b → le b c → le a c
  pos_iff : ∀ a b, 0 < cmp a b ↔ le b a ∧ ¬ le a b

theorem CmpOf.le_of_not_pos (hc : CmpOf cmp le) {a b : α} (h : ¬ 0 < cmp a b) : le a b := by
  rw [hc.pos_iff] at h
  by_contra hab
  exact h ⟨(hc.total a b).resolve_left hab, hab⟩

theorem CmpOf.le_of_pos (hc : CmpOf cmp le) {a b : α} (h : 0 < cmp a b) : le b a :=
  ((hc.pos_iff a b).mp h).1

theorem CmpOf.not_pos_self (hc : CmpOf cmp le) (a : α) : ¬ 0 < cmp a a := fun h =>
  ((hc.pos_iff a a).mp h).2 ((hc.pos_iff a a).mp h).1

/-- The order on slots: an empty slot is above every element. -/
def cellLe (le : α → α → Prop) : Option α → Option α → Prop
  | _, none => True
  | none, some _ => False
  | some a, some b => le a b

theorem cellLe_total (hc : CmpOf cmp le) : Std.Total (cellLe le) where
  total a b := by
    cases a <;> cases b <;> simp only [cellLe, or_true, true_or]
    exact hc.total _ _

theorem cellLe_trans (hc : CmpOf cmp le) : IsTrans (Option α) (cellLe le) where
  trans a b c := by
    cases a <;> cases b <;> cases c <;> simp only [cellLe, implies_true, false_implies]
    exact hc.trans

/-! ## Slots -/

theorem setSlot_spec {slots : List (Option α)} {i : Nat} (v : α) (hi : i < slots.length) :
    ∃ slots', setSlot slots i v = some slots' ∧ slots'.length = slots.length ∧
      cells slots' = Function.update (cells slots) i (some v) := by
  refine ⟨slots.set i (some v), by simp [setSlot, hi], by simp, ?_⟩
  funext j
  by_cases hj : j = i
  · subst hj; simp [cells, hi]
  · rw [Function.update_of_ne hj]
    simp [cells, List.getElem?_set_ne (Ne.symm hj)]

/-- The slot past a block is never read. -/
theorem cells_none_of_length_le {slots : List (Option α)} {i : Nat} (hi : slots.length ≤ i) :
    cells slots i = none := by
  simp [cells, List.getElem?_eq_none hi]

/-! ## The loops -/

/-- The hole has moved from `h` in `f` to `h'` in `f'`, where `data` fits. -/
structure Sifted (le : α → α → Prop) (n : Nat) (data : α) (f : Nat → Option α) (h : Nat)
    (f' : Nat → Option α) (h' : Nat) : Prop where
  lt : h' < n
  holed : Holed (cellLe le) n f' h'
  others : others n f' h' = others n f h
  up : 0 < h' → cellLe le (f' (parent h')) (some data)
  dn : ∀ i, 0 < i → i < n → parent i = h' → cellLe le (some data) (f' i)
  frame : ∀ i, n ≤ i → f' i = f i

theorem Sifted.fill {n h h' : Nat} {data : α} {f f' : Nat → Option α}
    (s : Sifted le n data f h f' h') :
    IsHeap (cellLe le) n (Function.update f' h' (some data)) :=
  s.holed.fill s.up s.dn

theorem shiftUpLoop_spec (hc : CmpOf cmp le) (data : α) {n : Nat} (hn : n < 2 ^ 32) :
    ∀ fuel h slots, h < fuel → h < n → n ≤ slots.length →
      Holed (cellLe le) n (cells slots) h → none ∉ HoleHeap.others n (cells slots) h →
      (∀ i, 0 < i → i < n → parent i = h → cellLe le (some data) (cells slots i)) →
      ∃ h' slots', shiftUpLoop cmp data fuel h slots = some (h', slots') ∧
        slots'.length = slots.length ∧ Sifted le n data (cells slots) h (cells slots') h' := by
  have := cellLe_trans hc
  intro fuel
  induction fuel with
  | zero => intro h slots hf; omega
  | succ fuel ih =>
    intro h slots hf hh hlen hhole hfull hdn
    by_cases h0 : h = 0
    · exact ⟨h, slots, by simp [shiftUpLoop, h0], rfl, hh, hhole, rfl, by omega, hdn,
        fun _ _ => rfl⟩
    have hpar : u32Sub h 1 >>> 1 = parent h := by
      rw [u32Sub_of_le (by omega) (by omega), Nat.shiftRight_eq_div_pow]; rfl
    have hplt : parent h < h := parent_lt (by omega)
    obtain ⟨p, hp⟩ : ∃ p, cells slots (parent h) = some p := by
      refine Option.ne_none_iff_exists'.mp fun hnone => hfull ?_
      rw [← hnone]
      exact mem_others (by omega) (by omega)
    by_cases hcmp : cmp p data > 0
    · -- the parent is greater: it moves down, and the hole is its place
      obtain ⟨slots1, hset, hlen1, hcells1⟩ := setSlot_spec p (show h < slots.length by omega)
      have hmove : HoleHeap.others n (cells slots1) (parent h) = HoleHeap.others n (cells slots) h := by
        rw [hcells1, ← hp]; exact others_move hh (by omega) (by omega)
      have hhole1 : Holed (cellLe le) n (cells slots1) (parent h) := by
        rw [hcells1, ← hp]; exact hhole.up (by omega) hh
      have hdata : cellLe le (some data) (some p) := hc.le_of_pos hcmp
      have hdn1 : ∀ i, 0 < i → i < n → parent i = parent h →
          cellLe le (some data) (cells slots1 i) := by
        intro i hi hin hpi
        rw [hcells1]
        by_cases hih : i = h
        · rw [hih, Function.update_self]; exact hdata
        · rw [Function.update_of_ne hih]
          have hoff := hhole.off i hi hin hih (by omega)
          rw [hpi, hp] at hoff
          exact trans_of (cellLe le) hdata hoff
      obtain ⟨h', slots', hrun, hlen', hs⟩ := ih (parent h) slots1 (by omega) (by omega) (by omega)
        hhole1 (by rw [hmove]; exact hfull) hdn1
      refine ⟨h', slots', ?_, by omega, hs.lt, hs.holed, by rw [hs.others, hmove], hs.up, hs.dn, ?_⟩
      · simp [shiftUpLoop, h0, hpar, hp, hcmp, hset, hrun]
      · intro i hi
        rw [hs.frame i hi, hcells1, Function.update_of_ne (by omega)]
    · refine ⟨h, slots, by simp [shiftUpLoop, h0, hpar, hp, hcmp], rfl, hh, hhole, rfl, ?_, hdn,
        fun _ _ => rfl⟩
      intro _
      rw [hp]
      exact hc.le_of_not_pos hcmp

/-- The child the loop picks: below its sibling, where the slot `n` counts as a sibling too. -/
theorem pick_child (hc : CmpOf cmp le) {f : Nat → Option α} {n h : Nat} {a b : α}
    (hn : 2 * (h + 1) ≤ n) (ha : f (2 * (h + 1)) = some a) (hb : f (2 * h + 1) = some b) :
    ∃ c v, (if cmp a b > 0 then 2 * h + 1 else 2 * (h + 1)) = c ∧ f c = some v ∧ 0 < c ∧ c ≤ n ∧
      parent c = h ∧ h < c ∧ ∀ i, 0 < i → parent i = h → i ≠ c → cellLe le (f c) (f i) := by
  by_cases hcmp : cmp a b > 0
  · refine ⟨2 * h + 1, b, by rw [if_pos hcmp], hb, by omega, by omega, by unfold parent; omega,
      by omega, fun i hi hp hne => ?_⟩
    have : i = 2 * (h + 1) := by have := (parent_eq_iff hi).mp hp; omega
    rw [this, ha, hb]
    exact hc.le_of_pos hcmp
  · refine ⟨2 * (h + 1), a, by rw [if_neg hcmp], ha, by omega, by omega, by unfold parent; omega,
      by omega, fun i hi hp hne => ?_⟩
    have : i = 2 * h + 1 := by have := (parent_eq_iff hi).mp hp; omega
    rw [this, ha, hb]
    exact hc.le_of_not_pos hcmp

theorem shiftDownLoop_spec (hc : CmpOf cmp le) (data : α) {n : Nat} (hn : n < 2 ^ 31) :
    ∀ fuel h slots, n < fuel + h → h < n → n < slots.length →
      Holed (cellLe le) n (cells slots) h → none ∉ HoleHeap.others n (cells slots) h →
      cells slots n = some data → (0 < h → cellLe le (cells slots (parent h)) (some data)) →
      ∃ h' slots', shiftDownLoop cmp n data fuel h slots = some (h', slots') ∧
        slots'.length = slots.length ∧ Sifted le n data (cells slots) h (cells slots') h' := by
  have := cellLe_trans hc
  intro fuel
  induction fuel with
  | zero => intro h slots hf; omega
  | succ fuel ih =>
    intro h slots hf hh hlen hhole hfull hlast hup
    have hmin : u32 (2 * u32 (h + 1)) = 2 * (h + 1) := by
      rw [u32_of_lt (show h + 1 < 2 ^ 32 by omega), u32_of_lt (by omega)]
    by_cases hle : 2 * (h + 1) ≤ n
    · have hsib : u32Sub (2 * (h + 1)) 1 = 2 * h + 1 := by
        rw [u32Sub_of_le (by omega) (by omega)]; omega
      have hread : ∀ i, h < i → i ≤ n → ∃ v, cells slots i = some v := by
        intro i hhi hi
        by_cases hin : i = n
        · exact ⟨data, by rw [hin, hlast]⟩
        · refine Option.ne_none_iff_exists'.mp fun hnone => hfull ?_
          rw [← hnone]
          exact mem_others (by omega) (by omega)
      obtain ⟨a, ha⟩ := hread (2 * (h + 1)) (by omega) hle
      obtain ⟨b, hb⟩ := hread (2 * h + 1) (by omega) (by omega)
      obtain ⟨c, v, hpick, hv, hc0, hcn, hpc, hhc, hbelow⟩ := pick_child hc hle ha hb
      by_cases hstop : cmp data v ≤ 0
      · -- `data` is not above the smaller child, hence above neither child
        refine ⟨h, slots, ?_, rfl, hh, hhole, rfl, hup, ?_, fun _ _ => rfl⟩
        · simp [shiftDownLoop, hmin, hle, ha, hb, hsib, hpick, hv, hstop]
        · intro i hi hin hpi
          have hdv : cellLe le (some data) (cells slots c) := by
            rw [hv]; exact hc.le_of_not_pos (by omega)
          by_cases hic : i = c
          · rw [hic]; exact hdv
          · exact trans_of (cellLe le) hdv (hbelow i hi hpi hic)
      · -- the child moves up; it is not the slot `n`, whose element is `data` itself
        have hcne : c ≠ n := by
          rintro rfl
          rw [hlast, Option.some_inj] at hv
          rw [← hv] at hstop
          exact hc.not_pos_self data (by omega)
        obtain ⟨slots1, hset, hlen1, hcells1⟩ := setSlot_spec v (show h < slots.length by omega)
        have hmove : HoleHeap.others n (cells slots1) c = HoleHeap.others n (cells slots) h := by
          rw [hcells1, ← hv]; exact others_move hh (by omega) (by omega)
        have hhole1 : Holed (cellLe le) n (cells slots1) c := by
          rw [hcells1, ← hv]
          exact hhole.down hc0 (by omega) hpc fun i hi _ hpi hne => hbelow i hi hpi hne
        have hup1 : 0 < c → cellLe le (cells slots1 (parent c)) (some data) := by
          intro _
          rw [hpc, hcells1, Function.update_self]
          exact hc.le_of_pos (by omega)
        obtain ⟨h', slots', hrun, hlen', hs⟩ := ih c slots1 (by omega) (by omega) (by omega) hhole1
          (by rw [hmove]; exact hfull) (by rw [hcells1, Function.update_of_ne (by omega), hlast]) hup1
        refine ⟨h', slots', ?_, by omega, hs.lt, hs.holed, by rw [hs.others, hmove], hs.up, hs.dn, ?_⟩
        · simp [shiftDownLoop, hmin, hle, ha, hb, hsib, hpick, hv, hstop, hset, hrun]
        · intro i hi
          rw [hs.frame i hi, hcells1, Function.update_of_ne (by omega)]
    · refine ⟨h, slots, by simp [shiftDownLoop, hmin, hle], rfl, hh, hhole, rfl, hup, ?_,
        fun _ _ => rfl⟩
      -- the right child is past slot `n`, so a left child would be slot `n`
      intro i hi hin hpi
      have := (parent_eq_iff hi).mp hpi
      omega

end Xheap
end Xlibc
