import Mathlib.Data.List.Count
import Mathlib.Data.List.Perm.Basic
import Mathlib.Order.Lattice

/-!
# Xlibc.Base.Agenda

Queues that are kept in the order of a key, where entries of one key stand in the order of their
arrival.

* `Agenda key arrived queue` : `queue` is `arrived` in this order.
* `Agenda.perm` : it has the same entries.
* `Agenda.arrive`, `Agenda.filter` : a new entry before the first one of a later key, entries that leave.
* `enlist_append` : a new entry behind some that are not later.
-/

namespace Xlibc

universe u v

variable {α : Type u} {κ : Type v} [LinearOrder κ] {key : α → κ}

/-- `x` before the first entry of a later key. -/
def enlist (key : α → κ) (x : α) : List α → List α
  | [] => [x]
  | y :: l => if key x < key y then x :: y :: l else y :: enlist key x l

structure Agenda (key : α → κ) (arrived queue : List α) : Prop where
  ordered : queue.Pairwise fun a b => key a ≤ key b
  same : ∀ k, queue.filter (key · = k) = arrived.filter (key · = k)

theorem mem_enlist {x y : α} {l : List α} : y ∈ enlist key x l ↔ y = x ∨ y ∈ l := by
  induction l with
  | nil => simp [enlist]
  | cons z l ih =>
    by_cases hx : key x < key z
    · simp [enlist, hx]
    · simp [enlist, hx, ih, or_left_comm]

theorem enlist_ordered (x : α) {l : List α} (h : l.Pairwise fun a b => key a ≤ key b) :
    (enlist key x l).Pairwise fun a b => key a ≤ key b := by
  induction l with
  | nil => simp [enlist]
  | cons y l ih =>
    obtain ⟨hy, hl⟩ := List.pairwise_cons.mp h
    by_cases hx : key x < key y
    · rw [enlist, if_pos hx]
      refine List.pairwise_cons.mpr ⟨fun z hz => ?_, h⟩
      rcases List.mem_cons.mp hz with rfl | hz
      · exact hx.le
      · exact hx.le.trans (hy z hz)
    · rw [enlist, if_neg hx]
      refine List.pairwise_cons.mpr ⟨fun z hz => ?_, ih hl⟩
      rcases mem_enlist.mp hz with rfl | hz
      · exact not_lt.mp hx
      · exact hy z hz

/-- Among its equals the new entry is the last one. -/
theorem enlist_filter (x : α) (k : κ) {l : List α} (h : l.Pairwise fun a b => key a ≤ key b) :
    (enlist key x l).filter (key · = k) = l.filter (key · = k) ++ [x].filter (key · = k) := by
  induction l with
  | nil => rfl
  | cons y l ih =>
    obtain ⟨hy, hl⟩ := List.pairwise_cons.mp h
    by_cases hx : key x < key y
    · rw [enlist, if_pos hx]
      by_cases hk : key x = k
      · -- no entry from `y` on has this key
        have hnone : (y :: l).filter (key · = k) = [] := by
          refine List.filter_eq_nil_iff.mpr fun z hz => ?_
          have hz' : key x < key z := by
            rcases List.mem_cons.mp hz with rfl | hz
            · exact hx
            · exact hx.trans_le (hy z hz)
          simpa [← hk] using hz'.ne'
        simp [hnone, List.filter_cons_of_pos, hk]
      · simp [hk]
    · rw [enlist, if_neg hx, List.filter_cons, List.filter_cons, ih hl]
      split <;> rfl

/-- Behind entries that are not later, the place of a new entry is among the others. -/
theorem enlist_append {x : α} {l : List α} (r : List α) (hl : ∀ y ∈ l, ¬ key x < key y) :
    enlist key x (l ++ r) = l ++ enlist key x r := by
  induction l with
  | nil => rfl
  | cons y l ih =>
    rw [List.cons_append, enlist, if_neg (hl y (by simp)), ih fun z hz => hl z (List.mem_cons_of_mem _ hz),
      List.cons_append]

theorem enlist_map {β : Type*} (f : β → α) (x : β) (l : List β) :
    (enlist (fun y => key (f y)) x l).map f = enlist key (f x) (l.map f) := by
  induction l with
  | nil => rfl
  | cons y l ih =>
    rw [List.map_cons, enlist, enlist]
    split
    · rfl
    · rw [List.map_cons, ih]

namespace Agenda

variable {arrived queue : List α}

theorem nil : Agenda key ([] : List α) [] := ⟨.nil, fun _ => rfl⟩

theorem mem (h : Agenda key arrived queue) {x : α} : x ∈ queue ↔ x ∈ arrived := by
  have hx := h.same (key x)
  have hmem : ∀ l : List α, x ∈ l ↔ x ∈ l.filter (key · = key x) := fun l => by simp
  rw [hmem queue, hx, ← hmem]

theorem perm (h : Agenda key arrived queue) : queue.Perm arrived := by
  classical
  refine List.perm_iff_count.mpr fun x => ?_
  have hx : ∀ l : List α, (l.filter (key · = key x)).count x = l.count x := fun l =>
    List.count_filter (by simp)
  rw [← hx queue, ← hx arrived, h.same]

theorem arrive (h : Agenda key arrived queue) (x : α) : Agenda key (arrived ++ [x]) (enlist key x queue) :=
  ⟨enlist_ordered x h.ordered, fun k => by rw [enlist_filter x k h.ordered, h.same, List.filter_append]⟩

theorem filter (h : Agenda key arrived queue) (p : α → Bool) : Agenda key (arrived.filter p) (queue.filter p) := by
  refine ⟨h.ordered.filter p, fun k => ?_⟩
  have hcomm : ∀ l : List α, (l.filter p).filter (key · = k) = (l.filter (key · = k)).filter p := fun l => by
    simp [List.filter_filter, Bool.and_comm]
  rw [hcomm, hcomm, h.same]

end Agenda

end Xlibc
