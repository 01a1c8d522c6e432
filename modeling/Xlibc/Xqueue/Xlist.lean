import Mathlib.Data.List.AList
import Mathlib.Data.List.Perm.Subperm
import Xlibc.Base.Ring

/-!
# Xlibc.Xqueue.Xlist

The circular list of `xlist.h`. `Links` is the memory of the `xlist_head`s that are allocated, at
pointers of any type; `none` is `NULL` for a field, and a function without a result has read or written
through a pointer to no `xlist_head`.

* `xlistAddTail_spec`, `xlistGet_cons` : what the two operations of a queue do to a ring.
* `xlistForEach_spec` : the loop over a list.
-/

namespace Xlibc
namespace Xqueue

structure XlistHead (π : Type) where
  next : Option π
  prev : Option π
  deriving DecidableEq

abbrev Links (π : Type) := AList fun _ : π => XlistHead π

variable {π : Type} [DecidableEq π]

def nextOf (m : Links π) (p : π) : Option π := (m.lookup p).bind (·.next)

def prevOf (m : Links π) (p : π) : Option π := (m.lookup p).bind (·.prev)

/-- `p->next = v` -/
def setNext (m : Links π) (p : π) (v : Option π) : Option (Links π) := do
  let x ← m.lookup p
  some (m.insert p { x with next := v })

/-- `p->prev = v` -/
def setPrev (m : Links π) (p : π) (v : Option π) : Option (Links π) := do
  let x ← m.lookup p
  some (m.insert p { x with prev := v })

/-- `INIT_XLIST_HEAD`, which also allocates the head -/
def initXlistHead (m : Links π) (list : π) : Links π := m.insert list { next := some list, prev := some list }

/-- `__xlist_add` -/
def xlistAddBetween (m : Links π) (new prev next : π) : Option (Links π) := do
  let m ← setPrev m next (some new)
  let m ← setNext m new (some next)
  let m ← setPrev m new (some prev)
  setNext m prev (some new)

def xlistAddTail (m : Links π) (new head : π) : Option (Links π) := do
  xlistAddBetween m new (← prevOf m head) head

/-- `__xlist_del` -/
def xlistDelBetween (m : Links π) (prev next : π) : Option (Links π) := do
  let m ← setPrev m next (some prev)
  setNext m prev (some next)

/-- `xlist_del`; the poison values are `NULL` -/
def xlistDel (m : Links π) (entry : π) : Option (Links π) := do
  let m ← xlistDelBetween m (← prevOf m entry) (← nextOf m entry)
  let m ← setNext m entry none
  setPrev m entry none

/-- `xlist_get`, of a head that is not `NULL` -/
def xlistGet (m : Links π) (head : π) : Option (Option π × Links π) := do
  let node ← nextOf m head
  if node = head then some (none, m)
  else do
    let m ← xlistDel m node
    some (some node, m)

/-- The loop of `xlist_for_each_entry`: the entries it passes, in order. -/
def xlistForEach (m : Links π) (head : π) : Option (List π) := do
  walkRing (nextOf m) head m.entries.length (← nextOf m head)

/-! ## Writing one field -/

variable {m : Links π} {p : π}

theorem mem_of_next {q : π} (h : nextOf m p = some q) : p ∈ m := by
  obtain ⟨x, hx, -⟩ := Option.bind_eq_some_iff.mp h
  exact AList.lookup_isSome.mp (by rw [hx]; rfl)

theorem nextOf_insert (x : XlistHead π) :
    nextOf (m.insert p x) = Function.update (nextOf m) p x.next := by
  funext q
  by_cases hq : q = p
  · subst hq
    simp [nextOf]
  · simp [nextOf, hq]

theorem prevOf_insert (x : XlistHead π) :
    prevOf (m.insert p x) = Function.update (prevOf m) p x.prev := by
  funext q
  by_cases hq : q = p
  · subst hq
    simp [prevOf]
  · simp [prevOf, hq]

/-- A field write changes one link. -/
theorem setNext_spec (hp : p ∈ m) (v : Option π) :
    ∃ m', setNext m p v = some m' ∧ nextOf m' = Function.update (nextOf m) p v ∧ prevOf m' = prevOf m ∧
      ∀ q, q ∈ m' ↔ q ∈ m := by
  obtain ⟨x, hx⟩ := Option.isSome_iff_exists.mp (AList.lookup_isSome.mpr hp)
  refine ⟨m.insert p { x with next := v }, by simp [setNext, hx], nextOf_insert _, ?_, fun q => ?_⟩
  · rw [prevOf_insert, Function.update_eq_self_iff]
    simp [prevOf, hx]
  · rw [AList.mem_insert, or_iff_right_iff_imp]
    rintro rfl
    exact hp

theorem setPrev_spec (hp : p ∈ m) (v : Option π) :
    ∃ m', setPrev m p v = some m' ∧ nextOf m' = nextOf m ∧ prevOf m' = Function.update (prevOf m) p v ∧
      ∀ q, q ∈ m' ↔ q ∈ m := by
  obtain ⟨x, hx⟩ := Option.isSome_iff_exists.mp (AList.lookup_isSome.mpr hp)
  refine ⟨m.insert p { x with prev := v }, by simp [setPrev, hx], ?_, prevOf_insert _, fun q => ?_⟩
  · rw [nextOf_insert, Function.update_eq_self_iff]
    simp [nextOf, hx]
  · rw [AList.mem_insert, or_iff_right_iff_imp]
    rintro rfl
    exact hp

/-! ## The list -/

/-- `l` is the list behind `head`. -/
abbrev IsXlist (m : Links π) (head : π) (l : List π) : Prop := Ring (nextOf m) (prevOf m) head l

variable {head : π} {l : List π}

theorem IsXlist.mem (h : IsXlist m head l) (hp : p ∈ head :: l) : p ∈ m :=
  by
  obtain ⟨⟨q, -, hq⟩, -⟩ := h.links hp
  exact mem_of_next hq

theorem initXlistHead_spec (m : Links π) (head : π) : IsXlist (initXlistHead m head) head [] :=
  Ring.empty (by simp [initXlistHead, nextOf]) (by simp [initXlistHead, prevOf])

theorem xlistAddTail_spec (new : π) (h : IsXlist m head l) (hnew : new ∈ m) (hfresh : new ∉ head :: l) :
    ∃ m', xlistAddTail m new head = some m' ∧ IsXlist m' head (l ++ [new]) ∧ ∀ q, q ∈ m' ↔ q ∈ m := by
  obtain ⟨-, last, hmem, hlast⟩ := h.links (p := head) (by simp)
  obtain ⟨m1, h1, hn1, hp1, hm1⟩ := setPrev_spec (h.mem (p := head) (by simp)) (some new)
  obtain ⟨m2, h2, hn2, hp2, hm2⟩ := setNext_spec ((hm1 new).mpr hnew) (some head)
  obtain ⟨m3, h3, hn3, hp3, hm3⟩ := setPrev_spec ((hm2 new).mpr ((hm1 new).mpr hnew)) (some last)
  have hlm : last ∈ m3 := (hm3 last).mpr ((hm2 last).mpr ((hm1 last).mpr (h.mem hmem)))
  obtain ⟨m4, h4, hn4, hp4, hm4⟩ := setNext_spec hlm (some new)
  refine ⟨m4, by simp [xlistAddTail, xlistAddBetween, hlast, h1, h2, h3, h4], ?_, fun q => ?_⟩
  · have hring := Ring.addTail h hfresh hlast
    rw [IsXlist, hn4, hn3, hn2, hn1, hp4, hp3, hp2, hp1]
    exact hring
  · rw [hm4, hm3, hm2, hm1]

theorem xlistGet_cons {node : π} (h : IsXlist m head (node :: l)) :
    ∃ m', xlistGet m head = some (some node, m') ∧ IsXlist m' head l ∧ ∀ q, q ∈ m' ↔ q ∈ m := by
  have hhead : nextOf m head = some node := h.segment.1.1
  have hne : node ≠ head := fun heq => (List.nodup_cons.mp h.nodup).1 (by simp [heq])
  obtain ⟨⟨b, hbl, hb⟩, c, hcl, hc⟩ := h.links (p := node) (by simp)
  obtain ⟨m1, h1, hn1, hp1, hm1⟩ := setPrev_spec (h.mem hbl) (some c)
  obtain ⟨m2, h2, hn2, hp2, hm2⟩ := setNext_spec ((hm1 c).mpr (h.mem hcl)) (some b)
  have hnode : node ∈ m2 := (hm2 node).mpr ((hm1 node).mpr (h.mem (by simp)))
  obtain ⟨m3, h3, hn3, hp3, hm3⟩ := setNext_spec hnode none
  obtain ⟨m4, h4, hn4, hp4, hm4⟩ := setPrev_spec ((hm3 node).mpr hnode) none
  refine ⟨m4, by simp [xlistGet, xlistDel, xlistDelBetween, hhead, hne, hb, hc, h1, h2, h3, h4], ?_,
    fun q => ?_⟩
  · have hring := Ring.removeHead h hb hc
    rw [IsXlist, hn4, hn3, hn2, hn1, hp4, hp3, hp2, hp1]
    exact hring
  · rw [hm4, hm3, hm2, hm1]

theorem xlistForEach_spec (h : IsXlist m head l) : xlistForEach m head = some l := by
  have hlen : l.length ≤ m.entries.length := by
    have hsub : ∀ p ∈ l, p ∈ m.keys := fun p hp => h.mem (List.mem_cons_of_mem _ hp)
    simpa [AList.keys, List.keys] using ((List.nodup_cons.mp h.nodup).2.subperm hsub).length_le
  obtain ⟨p, hp, hwalk⟩ := h.walk hlen
  simp [xlistForEach, hp, hwalk]

end Xqueue
end Xlibc
