import Xlibc.Base.Run
import Xlibc.Xheap.Sift

/-!
# Xlibc.Xheap.Correct

The heap over whole runs. `HeapInv` is the invariant: the used slots are heap-ordered and hold
elements, they fit the block, and the block's size is a power of two, so that doubling it wraps to
zero before it can wrap to a smaller block.

* `xheapPush_spec` / `xheapPop_spec` : one call from a state with the invariant.
* `drain_spec`       : popping until empty gives the elements in order.
* `xheap_run_sorted` : all of it, for every run from `xheap_create`.
-/

namespace Xlibc
namespace Xheap

open HoleHeap

universe u

variable {α : Type u} {cmp : α → α → Int} {le : α → α → Prop}

/-- The multiset of used slots. -/
def usedSlots (h : XHeap α) : Multiset (Option α) := (Multiset.range h.used).map (cells h.slots)

/-- The slots that hold the elements of `l`. -/
def slotsOf (l : List α) : Multiset (Option α) := (l.map some : List (Option α))

theorem slotsOf_append_singleton (l : List α) (a : α) :
    slotsOf (l ++ [a]) = some a ::ₘ slotsOf l := by
  rw [slotsOf, slotsOf, List.map_append, ← Multiset.coe_add, Multiset.add_comm]
  rfl

theorem slotsOf_add (l l' : List α) : slotsOf l + slotsOf l' = slotsOf (l ++ l') := by
  rw [slotsOf, slotsOf, slotsOf, Multiset.coe_add, List.map_append]

theorem slotsOf_inj {l l' : List α} (h : slotsOf l = slotsOf l') : l.Perm l' :=
  (List.map_perm_map_iff (Option.some_injective α)).mp (Multiset.coe_eq_coe.mp h)

structure HeapInv (le : α → α → Prop) (h : XHeap α) : Prop where
  ordered : IsHeap (cellLe le) h.used (cells h.slots)
  full : none ∉ usedSlots h
  used_le : h.used ≤ h.size
  length : h.slots.length = h.size
  size_pow : ∃ k, k ≤ 31 ∧ h.size = 2 ^ k

theorem HeapInv.size_le {h : XHeap α} (hi : HeapInv le h) : h.size ≤ 2 ^ 31 := by
  obtain ⟨k, hk, hs⟩ := hi.size_pow
  rw [hs]
  exact Nat.pow_le_pow_right (by omega) hk

theorem HeapInv.read {h : XHeap α} (hi : HeapInv le h) {i : Nat} (hlt : i < h.used) :
    ∃ a, cells h.slots i = some a := by
  refine Option.ne_none_iff_exists'.mp fun hnone => hi.full ?_
  rw [← hnone]
  exact Multiset.mem_map_of_mem _ (Multiset.mem_range.mpr hlt)

theorem xheapCreate_inv : HeapInv le (xheapCreate α) where
  ordered := fun i _ hi => absurd hi (Nat.not_lt_zero i)
  full := by simp [usedSlots, xheapCreate]
  used_le := Nat.zero_le _
  length := by simp [xheapCreate]
  size_pow := ⟨4, by omega, rfl⟩

/-! ## xheap_push -/

theorem pushSlot_spec (hc : CmpOf cmp le) {h : XHeap α} (hi : HeapInv le h) (hlt : h.used < h.size)
    (a : α) : ∃ h', pushSlot cmp h a = some (0, h') ∧ HeapInv le h' ∧
      usedSlots h' = some a ::ₘ usedSlots h := by
  have hsize := hi.size_le
  have hfull : none ∉ others (h.used + 1) (cells h.slots) h.used := by
    rw [others_last]; exact hi.full
  obtain ⟨hole, slots, hrun, hlen, hs⟩ := shiftUpLoop_spec hc a (n := h.used + 1) (by omega)
    h.slots.length h.used h.slots (by rw [hi.length]; omega) (by omega) (by rw [hi.length]; omega)
    hi.ordered.hole_last hfull fun i hp hin hpar => by have := parent_lt hp; omega
  obtain ⟨slots', hset, hlen', hcells⟩ := setSlot_spec a (show hole < slots.length by
    have := hs.lt; have := hi.length; omega)
  have hused : u32 (h.used + 1) = h.used + 1 := u32_of_lt (by omega)
  have hslots : usedSlots (⟨h.size, slots', h.used + 1⟩ : XHeap α) = some a ::ₘ usedSlots h := by
    rw [usedSlots, hcells, map_range_update hs.lt, hs.others, others_last]; rfl
  refine ⟨⟨h.size, slots', h.used + 1⟩, ?_, ⟨?_, ?_, ?_, ?_, hi.size_pow⟩, hslots⟩
  · simp [pushSlot, xheapShiftUp, hrun, hset, hused]
  · show IsHeap _ _ (cells slots')
    rw [hcells]; exact hs.fill
  · rw [hslots]; simpa using hi.full
  · show h.used + 1 ≤ h.size; omega
  · show slots'.length = h.size; rw [hlen', hlen, hi.length]

/-- Growing the block keeps the used slots. -/
theorem cells_realloc {slots : List (Option α)} {n i : Nat} (hn : slots.length ≤ n) :
    cells (slots.take n ++ List.replicate (n - slots.length) none) i = cells slots i := by
  rw [List.take_of_length_le hn]
  by_cases hi : i < slots.length
  · simp [cells, List.getElem?_append_left hi]
  · have hi' : slots.length ≤ i := by omega
    rw [cells_none_of_length_le hi', cells, List.getElem?_append_right hi', List.getElem?_replicate]
    split <;> rfl

/-- A push either succeeds, or the full block could not be doubled: the allocator had no memory,
or the doubled size wrapped to zero. -/
theorem xheapPush_spec (hc : CmpOf cmp le) {h : XHeap α} (hi : HeapInv le h) (granted : Bool)
    (a : α) :
    (∃ h', xheapPush cmp granted h a = some (0, h') ∧ HeapInv le h' ∧
      usedSlots h' = some a ::ₘ usedSlots h) ∨
    (∃ h', xheapPush cmp granted h a = some (-1, h') ∧ h.used = h.size ∧
      (granted = false ∨ h.size = 2 ^ 31)) := by
  by_cases hge : h.used ≥ h.size
  · have hused : h.used = h.size := Nat.le_antisymm hi.used_le hge
    obtain ⟨k, hk, hs⟩ := hi.size_pow
    by_cases hgr : granted = true ∧ k ≠ 31
    · -- the doubled block is granted and has the used slots of the old one
      left
      have hdouble : u32 (h.size * 2) = 2 ^ (k + 1) := by
        rw [hs, ← Nat.pow_succ]
        exact u32_of_lt (Nat.pow_lt_pow_right (by omega) (by omega))
      have hgrow : h.slots.length ≤ 2 ^ (k + 1) := by
        rw [hi.length, hs]; exact Nat.pow_le_pow_right (by omega) (by omega)
      let slots := h.slots.take (2 ^ (k + 1)) ++ List.replicate (2 ^ (k + 1) - h.slots.length) none
      have hcells : cells slots = cells h.slots := funext fun i => cells_realloc hgrow
      have hslots : usedSlots (⟨2 ^ (k + 1), slots, h.used⟩ : XHeap α) = usedSlots h := by
        simp only [usedSlots, hcells]
      have hlt : h.used < 2 ^ (k + 1) := by
        rw [hused, hs]; exact Nat.pow_lt_pow_right (by omega) (by omega)
      have hinv : HeapInv le (⟨2 ^ (k + 1), slots, h.used⟩ : XHeap α) := by
        refine ⟨?_, by rw [hslots]; exact hi.full, by show h.used ≤ 2 ^ (k + 1); omega, ?_,
          k + 1, by omega, rfl⟩
        · show IsHeap _ _ (cells slots)
          rw [hcells]; exact hi.ordered
        · show slots.length = 2 ^ (k + 1)
          simp only [slots, List.length_append, List.length_take, List.length_replicate]
          omega
      obtain ⟨h', hpush, hinv', hu⟩ := pushSlot_spec hc hinv hlt a
      refine ⟨h', ?_, hinv', by rw [hu, hslots]⟩
      have hyes : reallocSlots granted h.slots (2 ^ (k + 1)) = some slots :=
        if_pos ⟨hgr.1, Nat.ne_of_gt (Nat.two_pow_pos _)⟩
      simp only [xheapPush, hge, if_true, hdouble, hyes]
      exact hpush
    · right
      refine ⟨{ h with size := u32 (h.size * 2), slots := [] }, ?_, hused, ?_⟩
      · have hno : reallocSlots granted h.slots (u32 (h.size * 2)) = none := by
          rw [reallocSlots, if_neg]
          rintro ⟨hg, hne⟩
          have hk31 : k = 31 := by by_contra hk'; exact hgr ⟨hg, hk'⟩
          rw [hs, hk31] at hne
          exact hne rfl
        simp [xheapPush, hge, hno]
      · cases granted with
        | false => exact .inl rfl
        | true =>
          have hk31 : k = 31 := by by_contra hk'; exact hgr ⟨rfl, hk'⟩
          exact .inr (by rw [hs, hk31])
  · obtain ⟨h', hpush, hinv, hu⟩ := pushSlot_spec hc hi (by omega) a
    exact .inl ⟨h', by simp [xheapPush, hge, hpush], hinv, hu⟩

/-! ## xheap_pop -/

theorem xheapPop_empty {h : XHeap α} (h0 : h.used = 0) : xheapPop cmp h = some (none, h) := by
  simp [xheapPop, h0]

/-- A pop from a non-empty heap returns the root, which is below everything that remains. -/
theorem xheapPop_spec (hc : CmpOf cmp le) {h : XHeap α} (hi : HeapInv le h) (h0 : h.used ≠ 0) :
    ∃ a h', xheapPop cmp h = some (some a, h') ∧ cells h.slots 0 = some a ∧ HeapInv le h' ∧
      usedSlots h = some a ::ₘ usedSlots h' ∧ h'.used + 1 = h.used ∧
      ∀ i, i < h'.used → ∃ b, cells h'.slots i = some b ∧ le a b := by
  have := cellLe_trans hc
  have := cellLe_total hc
  have hsize := hi.size_le
  have hused := hi.used_le
  have hlength := hi.length
  obtain ⟨n, hn⟩ : ∃ n, h.used = n + 1 := Nat.exists_eq_succ_of_ne_zero h0
  have hleft : u32Sub h.used 1 = n := by rw [u32Sub_of_le (by omega) (by omega)]; omega
  obtain ⟨a, ha⟩ := hi.read (i := 0) (by omega)
  obtain ⟨d, hd⟩ := hi.read (i := n) (by omega)
  -- the smallest element is at the root
  have hroot : ∀ x ∈ usedSlots h, cellLe le (some a) x := by
    intro x hx
    obtain ⟨i, hin, rfl⟩ := Multiset.mem_map.mp hx
    rw [← ha]
    exact hi.ordered.root_le i (Multiset.mem_range.mp hin)
  obtain ⟨slots, hrun, hlen, hheap, hvals⟩ :
    ∃ slots, xheapShiftDown cmp h 0 d = some { h with slots := slots } ∧
      slots.length = h.size ∧ IsHeap (cellLe le) n (cells slots) ∧
      usedSlots h = some a ::ₘ (Multiset.range n).map (cells slots) := by
    by_cases hn0 : n = 0
    · -- one element: it is written back over itself
      subst hn0
      obtain ⟨slots, hset, hlen, hcells⟩ := setSlot_spec d (show 0 < h.slots.length by omega)
      refine ⟨slots, ?_, by omega, fun i _ hin => absurd hin (Nat.not_lt_zero i), ?_⟩
      · have hlen0 : h.slots.length = (h.slots.length - 1) + 1 := by omega
        rw [xheapShiftDown, hleft, hlen0]
        simp [shiftDownLoop, u32, hset]
      · simp [usedSlots, hn, ha]
    · have hsub : usedSlots h = some d ::ₘ (Multiset.range n).map (cells h.slots) := by
        rw [usedSlots, hn, map_range_eq (Nat.lt_succ_self n), hd, others_last]
      have hrest : (Multiset.range n).map (cells h.slots) = some a ::ₘ others n (cells h.slots) 0 := by
        rw [map_range_eq (Nat.pos_of_ne_zero hn0), ha]
      have hfull : none ∉ others n (cells h.slots) 0 := by
        intro hmem
        exact hi.full (by rw [hsub, hrest]; simp [hmem])
      obtain ⟨hole, slots, hloop, hlen, hs⟩ := shiftDownLoop_spec hc d (n := n) (by omega)
        h.slots.length 0 h.slots (by omega) (by omega) (by omega) (hi.ordered.mono (by omega)).hole_root hfull hd
        (fun h => absurd h (Nat.lt_irrefl 0))
      obtain ⟨slots', hset, hlen', hcells⟩ := setSlot_spec d (show hole < slots.length by
        have := hs.lt; omega)
      refine ⟨slots', ?_, by omega, by rw [hcells]; exact hs.fill, ?_⟩
      · simp [xheapShiftDown, hleft, hloop, hset]
      · rw [hcells, map_range_update hs.lt, hs.others, hsub, hrest, Multiset.cons_swap]
  have hslots : usedSlots (⟨h.size, slots, n⟩ : XHeap α) = (Multiset.range n).map (cells slots) := rfl
  have hfull' : none ∉ usedSlots (⟨h.size, slots, n⟩ : XHeap α) := by
    intro hmem
    exact hi.full (by rw [hvals, ← hslots]; exact Multiset.mem_cons_of_mem hmem)
  have hinv : HeapInv le (⟨h.size, slots, n⟩ : XHeap α) :=
    ⟨hheap, hfull', by show n ≤ h.size; omega, hlen, hi.size_pow⟩
  refine ⟨a, ⟨h.size, slots, n⟩, ?_, ha, hinv, by rw [hvals, hslots], hn.symm, ?_⟩
  · simp [xheapPop, h0, ha, hleft, hd, hrun]
  · intro i hin
    obtain ⟨b, hb⟩ := hinv.read hin
    refine ⟨b, hb, ?_⟩
    have hmem : some b ∈ usedSlots h := by
      rw [hvals, ← hb]
      exact Multiset.mem_cons_of_mem (Multiset.mem_map_of_mem _ (Multiset.mem_range.mpr hin))
    exact hroot _ hmem

/-- Popping until the heap is empty gives all elements, in non-decreasing order. -/
theorem drain_spec (hc : CmpOf cmp le) : ∀ (n : Nat) (h : XHeap α), HeapInv le h → h.used = n →
    ∃ out h', drain cmp n h = some (out, h') ∧ h'.used = 0 ∧ out.Pairwise le ∧
      usedSlots h = slotsOf out := by
  intro n
  induction n with
  | zero =>
    intro h hi hn
    exact ⟨[], h, rfl, hn, .nil, by simp [usedSlots, slotsOf, hn]⟩
  | succ n ih =>
    intro h hi hn
    obtain ⟨a, h1, hpop, -, hi1, hu, hn1, hmin⟩ := xheapPop_spec hc hi (by omega)
    obtain ⟨out, h', hdrain, h0, hsorted, hout⟩ := ih h1 hi1 (by omega)
    refine ⟨a :: out, h', by simp [drain, hpop, hdrain], h0, List.pairwise_cons.mpr ⟨?_, hsorted⟩, ?_⟩
    · intro b hb
      have hmem : some b ∈ usedSlots h1 := by
        rw [hout]; exact List.mem_map_of_mem hb
      obtain ⟨i, hin, hib⟩ := Multiset.mem_map.mp hmem
      obtain ⟨b', hb', hle⟩ := hmin i (Multiset.mem_range.mp hin)
      rw [hib, Option.some_inj] at hb'
      exact hb' ▸ hle
    · rw [hu, hout]; rfl

/-! ## Runs -/

/-- What a caller sees of a call: the element pushed, or the pointer a pop returned. -/
inductive HeapEvent (α : Type u) where
  | push (a : α)
  | pop (r : Option α)

/-- A push that got its memory, or a pop. -/
inductive HeapStep (cmp : α → α → Int) : XHeap α → HeapEvent α → XHeap α → Prop where
  | push {h h' : XHeap α} {granted : Bool} {a : α} :
      xheapPush cmp granted h a = some (0, h') → HeapStep cmp h (.push a) h'
  | pop {h h' : XHeap α} {r : Option α} : xheapPop cmp h = some (r, h') → HeapStep cmp h (.pop r) h'

def HeapEvent.pushed : HeapEvent α → Option α
  | .push a => some a
  | .pop _ => none

def HeapEvent.popped : HeapEvent α → Option α
  | .push _ => none
  | .pop r => r

/-- The elements a run pushed, and those it popped. -/
def pushed (es : List (HeapEvent α)) : List α := es.filterMap HeapEvent.pushed

def popped (es : List (HeapEvent α)) : List α := es.filterMap HeapEvent.popped

@[simp] theorem pushed_push (es : List (HeapEvent α)) (a : α) :
    pushed (es ++ [.push a]) = pushed es ++ [a] := by
  simp [pushed, HeapEvent.pushed]

@[simp] theorem popped_push (es : List (HeapEvent α)) (a : α) :
    popped (es ++ [.push a]) = popped es := by
  simp [popped, List.filterMap_cons, HeapEvent.popped]

@[simp] theorem pushed_pop (es : List (HeapEvent α)) (r : Option α) :
    pushed (es ++ [.pop r]) = pushed es := by
  simp [pushed, List.filterMap_cons, HeapEvent.pushed]

@[simp] theorem popped_pop (es : List (HeapEvent α)) (r : Option α) :
    popped (es ++ [.pop r]) = popped es ++ r.toList := by
  cases r <;> simp [popped, List.filterMap_cons, HeapEvent.popped]

/-- The used slots are the pushed elements less the popped ones. -/
def Accounted (es : List (HeapEvent α)) (h : XHeap α) : Prop :=
  usedSlots h + slotsOf (popped es) = slotsOf (pushed es)

/-- One step keeps the invariant and the account of the elements. -/
theorem HeapStep.inv (hc : CmpOf cmp le) {es : List (HeapEvent α)} {h h' : XHeap α}
    {e : HeapEvent α} (hi : HeapInv le h) (hu : Accounted es h) (hs : HeapStep cmp h e h') :
    HeapInv le h' ∧ Accounted (es ++ [e]) h' := by
  unfold Accounted at hu ⊢
  cases hs with
  | @push _ granted a hp =>
    rcases xheapPush_spec hc hi granted a with ⟨h1, hp1, hi1, hu1⟩ | ⟨h1, hp1, -⟩
    · obtain rfl : h1 = h' := by rw [hp1] at hp; cases hp; rfl
      refine ⟨hi1, ?_⟩
      rw [hu1, Multiset.cons_add, pushed_push, popped_push, hu, slotsOf_append_singleton]
    · rw [hp1] at hp; cases hp
  | @pop _ r hp =>
    by_cases h0 : h.used = 0
    · rw [xheapPop_empty h0] at hp
      cases hp
      exact ⟨hi, by simpa using hu⟩
    · obtain ⟨a, h1, hp1, -, hi1, hu1, -⟩ := xheapPop_spec hc hi h0
      rw [hp1] at hp
      cases hp
      refine ⟨hi1, ?_⟩
      rw [pushed_pop, popped_pop, ← hu, hu1, Option.toList_some, slotsOf_append_singleton,
        Multiset.add_cons, Multiset.cons_add]

theorem run_inv (hc : CmpOf cmp le) {es : List (HeapEvent α)} {h : XHeap α}
    (hr : Run (HeapStep cmp) (xheapCreate α) es h) : HeapInv le h ∧ Accounted es h := by
  refine Run.invariant (I := fun es h => HeapInv le h ∧ Accounted es h) ?_ ?_ hr
  · exact ⟨xheapCreate_inv, by simp [Accounted, usedSlots, xheapCreate, slotsOf, pushed, popped]⟩
  · exact fun _ ih hs => HeapStep.inv hc ih.1 ih.2 hs

/-- **The heap over every run from `xheap_create`.** No used slot is smaller than its parent; the
used slots are the pushed elements less the popped ones; a pop returns what `xheap_top` shows, and
no remaining element is smaller; popping until empty returns all remaining elements in
non-decreasing order. No call faults, and a push with memory granted succeeds unless the block
already has `2^31` slots. -/
theorem xheap_run_sorted (hc : CmpOf cmp le) {es : List (HeapEvent α)} {h : XHeap α}
    (hr : Run (HeapStep cmp) (xheapCreate α) es h) :
    (∀ i, 0 < i → i < h.used → ∃ p c, cells h.slots ((i - 1) / 2) = some p ∧
      cells h.slots i = some c ∧ le p c) ∧
    usedSlots h + slotsOf (popped es) = slotsOf (pushed es) ∧
    (∃ r h', xheapPop cmp h = some (r, h') ∧ xheapTop h = r ∧ (r = none ↔ h.used = 0) ∧
      ∀ a, r = some a → ∀ i, i < h'.used → ∃ b, cells h'.slots i = some b ∧ le a b) ∧
    (∃ out h', drain cmp h.used h = some (out, h') ∧ h'.used = 0 ∧ out.Pairwise le ∧
      (popped es ++ out).Perm (pushed es)) ∧
    (∀ granted a, ∃ r h', xheapPush cmp granted h a = some (r, h') ∧
      (granted = true → h.used < 2 ^ 31 → r = 0)) := by
  obtain ⟨hi, hu⟩ := run_inv hc hr
  refine ⟨?_, hu, ?_, ?_, ?_⟩
  · intro i hi0 hlt
    obtain ⟨p, hp⟩ := hi.read (i := (i - 1) / 2) (by omega)
    obtain ⟨c, hcell⟩ := hi.read hlt
    have hle := hi.ordered i hi0 hlt
    rw [parent, hp, hcell] at hle
    exact ⟨p, c, hp, hcell, hle⟩
  · by_cases h0 : h.used = 0
    · exact ⟨none, h, xheapPop_empty h0, by simp [xheapTop, h0], by simp [h0], by simp⟩
    · obtain ⟨a, h', hpop, htop, -, -, -, hmin⟩ := xheapPop_spec hc hi h0
      refine ⟨some a, h', hpop, by simp [xheapTop, h0, htop], by simp [h0], ?_⟩
      rintro b hb
      cases hb
      exact hmin
  · obtain ⟨out, h', hdrain, h0, hsorted, hout⟩ := drain_spec hc h.used h hi rfl
    refine ⟨out, h', hdrain, h0, hsorted, ?_⟩
    unfold Accounted at hu
    rw [hout, slotsOf_add] at hu
    exact List.perm_append_comm.trans (slotsOf_inj hu)
  · intro granted a
    rcases xheapPush_spec hc hi granted a with ⟨h', hp, -, -⟩ | ⟨h', hp, hfull, hno⟩
    · exact ⟨0, h', hp, fun _ _ => rfl⟩
    · refine ⟨-1, h', hp, fun hg hlt => ?_⟩
      rcases hno with hno | hno
      · rw [hno] at hg; cases hg
      · omega

/-- `int_cmp` of the test: 1 or 0. -/
def intCmp (a b : Int) : Int := if a > b then 1 else 0

theorem intCmp_cmpOf : CmpOf intCmp (· ≤ ·) where
  total := Int.le_total
  trans := Int.le_trans
  pos_iff a b := by unfold intCmp; split <;> omega

/-- Two pushes in decreasing order, read through the theorem. -/
theorem xheap_run_sorted_two :
    ∃ h, Run (HeapStep intCmp) (xheapCreate Int) [.push 2, .push 1] h ∧ h.used = 2 ∧
      ∃ out h', drain intCmp h.used h = some (out, h') ∧ h'.used = 0 ∧ out.Pairwise (· ≤ ·) ∧
        (popped [.push 2, .push 1] ++ out).Perm (pushed [.push (2 : Int), .push 1]) := by
  have s1 : HeapStep intCmp (xheapCreate Int) (.push 2)
      ⟨16, [some 2] ++ List.replicate 15 none, 1⟩ := by exact .push (show xheapPush intCmp true _ _ = _ by decide)
  have s2 : HeapStep intCmp ⟨16, [some 2] ++ List.replicate 15 none, 1⟩ (.push 1)
      ⟨16, [some 1, some 2] ++ List.replicate 14 none, 2⟩ := by
    exact .push (show xheapPush intCmp true _ _ = _ by decide)
  have hr : Run (HeapStep intCmp) (xheapCreate Int) [.push 2, .push 1] _ := .snoc (.snoc .nil s1) s2
  exact ⟨_, hr, rfl, (xheap_run_sorted intCmp_cmpOf hr).2.2.2.1⟩

end Xheap
end Xlibc
