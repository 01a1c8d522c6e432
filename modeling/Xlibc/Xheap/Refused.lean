import Xlibc.Xheap.Correct

/-!
# Xlibc.Xheap.Refused

A push that has to grow the slot array when the allocator has no memory. By the time `realloc` has
failed, `size` is already doubled, and its `NULL` has replaced the only pointer to the slots.

* `xheapPush_refused`    : what is left behind.
* `xheapPop_lost`, `xheapPush_lost` : no later call finds the elements again.
* `xheap_push_atomic_iff` : when a refused push leaves the heap as it was.
-/

namespace Xlibc
namespace Xheap

universe u

variable {α : Type u} {cmp : α → α → Int} {h h' : XHeap α} {a : α}

/-- A push that is refused the memory it asks for returns `-1` and leaves the heap as it was, so that
the same elements are popped and a later push does the same. -/
def RefusalAtomic (cmp : α → α → Int) (h : XHeap α) (a : α) : Prop :=
  h.used ≥ h.size → ∃ h', xheapPush cmp false h a = some (-1, h') ∧
    h'.slots = h.slots ∧ h'.used = h.used ∧ h'.size = h.size ∧
    drain cmp h.used h' = drain cmp h.used h ∧
    ∀ b, xheapPush cmp true h' b = xheapPush cmp true h b

theorem xheapPush_refused (cmp : α → α → Int) (a : α) (hfull : h.used ≥ h.size) :
    xheapPush cmp false h a = some (-1, { h with size := u32 (h.size * 2), slots := [] }) := by
  have hno : reallocSlots false h.slots (u32 (h.size * 2)) = none := if_neg (by simp)
  simp only [xheapPush, hfull, if_true, hno]

/-- Doubling changes every size but zero. -/
theorem u32_double_eq {n : Nat} (h : u32 (n * 2) = n) : n = 0 := by
  unfold u32 at h
  omega

theorem xheapPop_lost (hs : h.slots = []) (h0 : h.used ≠ 0) : xheapPop cmp h = none := by
  have hcell : cells h.slots 0 = none := by rw [hs]; rfl
  simp [xheapPop, h0, hcell]

/-- Sifting up from a slot other than the root reads the parent's slot. -/
theorem pushSlot_unread (hcells : ∀ i, cells h.slots i = none) (h0 : h.used ≠ 0) :
    pushSlot cmp h a = none := by
  have hloop : shiftUpLoop cmp a h.slots.length h.used h.slots = none := by
    cases h.slots.length with
    | zero => rfl
    | succ n => simp [shiftUpLoop, h0, hcells]
  simp [pushSlot, xheapShiftUp, hloop]

/-- Without its slots the heap takes no element: a push faults, or is refused. -/
theorem xheapPush_lost (hs : h.slots = []) (granted : Bool) :
    xheapPush cmp granted h a ≠ some (0, h') := by
  have hnone : ∀ n i, cells (List.replicate n (none : Option α)) i = none := by
    intro n i
    rw [cells, List.getElem?_replicate]
    split <;> rfl
  by_cases hfull : h.used ≥ h.size
  · cases hr : reallocSlots granted h.slots (u32 (h.size * 2)) with
    | none => simp [xheapPush, hfull, hr]
    | some slots =>
      -- the new block has no element in it either, and it is only asked for when `size` is not zero
      have hsize : u32 (h.size * 2) ≠ 0 := by
        intro hzero
        simp [reallocSlots, hzero] at hr
      have hslots : slots = List.replicate (u32 (h.size * 2)) none := by
        unfold reallocSlots at hr
        split at hr
        · simpa [hs] using hr.symm
        · cases hr
      have hused : h.used ≠ 0 := by
        intro h0
        have hz : h.size = 0 := by omega
        exact hsize (by rw [hz]; rfl)
      have hfault : pushSlot cmp { h with size := u32 (h.size * 2), slots := slots } a = none :=
        pushSlot_unread (by rw [hslots]; exact hnone _) hused
      simp [xheapPush, hfull, hr, hfault]
  · have hempty : pushSlot cmp h a = none := by
      simp [pushSlot, xheapShiftUp, hs, shiftUpLoop]
    simp [xheapPush, hfull, hempty]

/-- **A refused push.** It leaves the heap as it was only where it does not ask for memory at all (or
where there is nothing to lose); otherwise it returns `-1`, and from then on a pop of the elements that
are still counted faults and no push succeeds. -/
theorem xheap_push_atomic_iff (cmp : α → α → Int) (h : XHeap α) (a : α) :
    (RefusalAtomic cmp h a ↔ h.used < h.size ∨ (h.size = 0 ∧ h.slots = [])) ∧
    (h.used ≥ h.size → ∃ h', xheapPush cmp false h a = some (-1, h') ∧ h'.slots = [] ∧
      (h.used ≠ 0 → xheapPop cmp h' = none) ∧
      ∀ granted b h'', xheapPush cmp granted h' b ≠ some (0, h'')) := by
  refine ⟨⟨?_, ?_⟩, ?_⟩
  · intro hatomic
    rcases Nat.lt_or_ge h.used h.size with hlt | hfull
    · exact .inl hlt
    · obtain ⟨h', hrun, hslots, -, hsize, -⟩ := hatomic hfull
      rw [xheapPush_refused cmp a hfull] at hrun
      cases hrun
      exact .inr ⟨u32_double_eq hsize, hslots.symm⟩
  · rintro (hlt | ⟨hsize, hslots⟩) hfull
    · omega
    · have hzero : u32 (h.size * 2) = h.size := by rw [hsize]; rfl
      refine ⟨h, ?_, rfl, rfl, rfl, rfl, fun _ => rfl⟩
      rw [xheapPush_refused cmp a hfull, hzero, ← hslots]
  · intro hfull
    refine ⟨_, xheapPush_refused cmp a hfull, rfl, fun h0 => xheapPop_lost rfl h0, ?_⟩
    intro granted b h''
    exact xheapPush_lost rfl granted

/-- `n` equal elements in the block of `xheap_create`. -/
def zeros (n : Nat) : XHeap Int :=
  { size := 16, slots := List.replicate n (some 0) ++ List.replicate (16 - n) none, used := n }

theorem zeros_push : ∀ n < 16, xheapPush intCmp true (zeros n) 0 = some (0, zeros (n + 1)) := by
  decide

theorem zeros_run {n : Nat} (hn : n ≤ 16) :
    Run (HeapStep intCmp) (xheapCreate Int) (List.replicate n (.push 0)) (zeros n) := by
  induction n with
  | zero => exact .nil
  | succ n ih =>
    rw [List.replicate_succ']
    exact .snoc (ih (by omega)) (.push (zeros_push n (by omega)))

/-- Sixteen pushes fill the first block; the seventeenth is refused. -/
theorem xheap_push_not_atomic :
    ∃ h, Run (HeapStep intCmp) (xheapCreate Int) (List.replicate 16 (.push 0)) h ∧
      ¬ RefusalAtomic intCmp h 0 := by
  refine ⟨zeros 16, zeros_run (Nat.le_refl _), fun hatomic => ?_⟩
  obtain ⟨h', hrun, -, -, hsize, -⟩ := hatomic (by decide)
  rw [xheapPush_refused intCmp 0 (by decide)] at hrun
  cases hrun
  exact absurd hsize (by decide)

end Xheap
end Xlibc
