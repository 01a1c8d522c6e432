import Xlibc.Base.RingEdit
import Xlibc.Xqueue.Xlist

/-!
# Xlibc.Eloop.DlList

The circular list of `list.h`. A `struct dl_list` has the fields of an `xlist_head`, and its memory is
modelled alike.

* `dlListAdd_spec`, `dlListAddTail_spec` : a new place before any place of a list, and before the head.
* `dlListDel_spec` : any place but the head taken out.
-/

namespace Xlibc
namespace Eloop

open Xqueue

variable {π : Type} [DecidableEq π]

/-! ## The code -/

/-- `dl_list_init`, which also allocates the head -/
def dlListInit (m : Links π) (list : π) : Links π := m.insert list { next := some list, prev := some list }

def dlListAdd (m : Links π) (list item : π) : Option (Links π) := do
  let m ← setNext m item (some (← nextOf m list))
  let m ← setPrev m item (some list)
  let m ← setPrev m (← nextOf m list) (some item)
  setNext m list (some item)

def dlListAddTail (m : Links π) (list item : π) : Option (Links π) := do
  dlListAdd m (← prevOf m list) item

def dlListDel (m : Links π) (item : π) : Option (Links π) := do
  let m ← setPrev m (← nextOf m item) (some (← prevOf m item))
  let m ← setNext m (← prevOf m item) (some (← nextOf m item))
  let m ← setNext m item none
  setPrev m item none

def dlListEmpty (m : Links π) (list : π) : Option Bool := do
  some ((← nextOf m list) = list)

/-! ## What it does to a list -/

variable {m : Links π} {head x p new : π} {l r : List π}

theorem dlListInit_spec (m : Links π) (head : π) : IsXlist (dlListInit m head) head [] :=
  initXlistHead_spec m head

theorem dlListAdd_spec (h : IsXlist m head (l ++ r)) (hx : (r ++ [head]).head? = some x) (hp : prevOf m x = some p)
    (hnew : new ∈ m) (hfresh : new ∉ head :: (l ++ r)) :
    ∃ m', dlListAdd m p new = some m' ∧ IsXlist m' head (l ++ new :: r) ∧ ∀ q, q ∈ m' ↔ q ∈ m := by
  have hxl : x ∈ head :: (l ++ r) := by
    cases r with
    | nil => simp_all
    | cons y r => simp_all
  obtain ⟨hnext, hpl⟩ := h.next_of_prev hxl hp
  have hpn : p ≠ new := fun heq => hfresh (heq ▸ hpl)
  have hxn : x ≠ new := fun heq => hfresh (heq ▸ hxl)
  obtain ⟨m1, h1, hn1, hp1, hm1⟩ := setNext_spec hnew (some x)
  obtain ⟨m2, h2, hn2, hp2, hm2⟩ := setPrev_spec ((hm1 new).mpr hnew) (some p)
  obtain ⟨m3, h3, hn3, hp3, hm3⟩ := setPrev_spec ((hm2 x).mpr ((hm1 x).mpr (h.mem hxl))) (some new)
  have hpm : p ∈ m3 := (hm3 p).mpr ((hm2 p).mpr ((hm1 p).mpr (h.mem hpl)))
  obtain ⟨m4, h4, hn4, hp4, hm4⟩ := setNext_spec hpm (some new)
  have hnext2 : nextOf m2 p = some x := by rw [hn2, hn1, Function.update_of_ne hpn, hnext]
  refine ⟨m4, by simp [dlListAdd, hnext, h1, h2, hnext2, h3, h4], ?_, fun q => ?_⟩
  · have hring := h.insertBefore hx hfresh hp
    rw [Function.update_comm hxn] at hring
    rw [IsXlist, hn4, hn3, hn2, hn1, hp4, hp3, hp2, hp1]
    exact hring
  · rw [hm4, hm3, hm2, hm1]

theorem dlListAddTail_spec (h : IsXlist m head l) (hnew : new ∈ m) (hfresh : new ∉ head :: l) :
    ∃ m', dlListAddTail m head new = some m' ∧ IsXlist m' head (l ++ [new]) ∧ ∀ q, q ∈ m' ↔ q ∈ m := by
  obtain ⟨-, last, -, hlast⟩ := h.links (p := head) (by simp)
  rw [← List.append_nil l] at h hfresh
  obtain ⟨m', hadd, hrest⟩ := dlListAdd_spec h (x := head) rfl hlast hnew hfresh
  exact ⟨m', by simp [dlListAddTail, hlast, hadd], hrest⟩

theorem dlListDel_spec (h : IsXlist m head (l ++ x :: r)) :
    ∃ m', dlListDel m x = some m' ∧ IsXlist m' head (l ++ r) ∧ ∀ q, q ∈ m' ↔ q ∈ m := by
  have hxl : x ∈ head :: (l ++ x :: r) := by simp
  obtain ⟨⟨b, hbl, hb⟩, c, hcl, hc⟩ := h.links hxl
  obtain ⟨m1, h1, hn1, hp1, hm1⟩ := setPrev_spec (h.mem hbl) (some c)
  -- the place itself is not the one behind it
  have hbx : x ≠ b := by
    rintro rfl
    have hself := h.rotate.segment
    cases r with
    | nil =>
      have hhead : head = x := Option.some.inj (hself.1.1.symm.trans hb)
      exact (List.nodup_cons.mp h.nodup).1 (by simp [hhead])
    | cons y r =>
      have hyx : y = x := Option.some.inj (hself.1.1.symm.trans hb)
      have hnd := (List.nodup_cons.mp h.rotate.nodup).1
      exact hnd (by simp [hyx])
  have hc1 : prevOf m1 x = some c := by rw [hp1, Function.update_of_ne hbx, hc]
  have hb1 : nextOf m1 x = some b := by rw [hn1, hb]
  obtain ⟨m2, h2, hn2, hp2, hm2⟩ := setNext_spec ((hm1 c).mpr (h.mem hcl)) (some b)
  have hxm : x ∈ m2 := (hm2 x).mpr ((hm1 x).mpr (h.mem hxl))
  obtain ⟨m3, h3, hn3, hp3, hm3⟩ := setNext_spec hxm none
  obtain ⟨m4, h4, hn4, hp4, hm4⟩ := setPrev_spec ((hm3 x).mpr hxm) none
  refine ⟨m4, by simp [dlListDel, hb, hc, h1, hc1, hb1, h2, h3, h4], ?_, fun q => ?_⟩
  · have hring := h.remove hb hc
    rw [IsXlist, hn4, hn3, hn2, hn1, hp4, hp3, hp2, hp1]
    exact hring
  · rw [hm4, hm3, hm2, hm1]

end Eloop
end Xlibc
