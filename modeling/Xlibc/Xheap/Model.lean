import Xlibc.Base.CInt

/-!
# Xlibc.Xheap.Model

The binary heap of `xheap.c`. A slot holds a `void *`: `none` is a slot that was never given an
element (zeroed by `xzalloc`, or fresh from `realloc`). Reading such a slot, or any access outside
the block, has no result, and the whole call is then `none`. A `NULL` slot array is the empty
block. The callback `heap_cmp` is the parameter `cmp`.

Slot indices and sizes are `unsigned`: `2 * (hole_index + 1)`, `hole_index - 1` and `size * 2` wrap
at `2^32`. Each round of a sift loop moves the hole to a new slot, so the loops carry the number of
slots as a bound on their rounds; running out of it is `none`, and the specifications show that it
never happens.
-/

namespace Xlibc
namespace Xheap

universe u

variable {α : Type u}

structure XHeap (α : Type u) where
  size : Nat
  slots : List (Option α)
  used : Nat
  deriving DecidableEq, Repr

/-- `XHEAP_DEFAULT_SLOTS` -/
def defaultSlots : Nat := 16

/-- `xheap_create`, with the allocations granted and both required callbacks given. -/
def xheapCreate (α : Type u) : XHeap α :=
  { size := defaultSlots, slots := List.replicate defaultSlots none, used := 0 }

/-- The element read from slot `i`. -/
def cells (slots : List (Option α)) (i : Nat) : Option α := slots[i]?.join

/-- The store `slots[i] = v`. -/
def setSlot (slots : List (Option α)) (i : Nat) (v : α) : Option (List (Option α)) :=
  if i < slots.length then some (slots.set i (some v)) else none

/-- The loop of `xheap_shift_up`: the final hole and the slots. -/
def shiftUpLoop (cmp : α → α → Int) (data : α) :
    Nat → Nat → List (Option α) → Option (Nat × List (Option α))
  | 0, _, _ => none
  | fuel + 1, hole, slots =>
    let parent := u32Sub hole 1 >>> 1
    if hole = 0 then some (hole, slots)
    else do
      let p ← cells slots parent
      if cmp p data > 0 then
        let slots ← setSlot slots hole p
        shiftUpLoop cmp data fuel parent slots
      else some (hole, slots)

def xheapShiftUp (cmp : α → α → Int) (h : XHeap α) (hole : Nat) (data : α) : Option (XHeap α) := do
  let (hole, slots) ← shiftUpLoop cmp data h.slots.length hole h.slots
  let slots ← setSlot slots hole data
  some { h with slots := slots }

/-- The loop of `xheap_shift_down`. `left` is `used - 1`: the last slot, still in use here, is
compared like any other. -/
def shiftDownLoop (cmp : α → α → Int) (left : Nat) (data : α) :
    Nat → Nat → List (Option α) → Option (Nat × List (Option α))
  | 0, _, _ => none
  | fuel + 1, hole, slots =>
    let minChild := u32 (2 * u32 (hole + 1))
    if minChild ≤ left then do
      let a ← cells slots minChild
      let b ← cells slots (u32Sub minChild 1)
      let minChild := if cmp a b > 0 then u32Sub minChild 1 else minChild
      let c ← cells slots minChild
      if cmp data c ≤ 0 then some (hole, slots)
      else
        let slots ← setSlot slots hole c
        shiftDownLoop cmp left data fuel minChild slots
    else some (hole, slots)

def xheapShiftDown (cmp : α → α → Int) (h : XHeap α) (hole : Nat) (data : α) : Option (XHeap α) := do
  let left := u32Sub h.used 1
  let (hole, slots) ← shiftDownLoop cmp left data h.slots.length hole h.slots
  let slots ← setSlot slots hole data
  some { h with slots := slots }

/-- `xheap_pop`: the returned pointer (`none` is `NULL`) and the heap. -/
def xheapPop (cmp : α → α → Int) (h : XHeap α) : Option (Option α × XHeap α) :=
  if h.used ≠ 0 then do
    let data ← cells h.slots 0
    let last ← cells h.slots (u32Sub h.used 1)
    let h' ← xheapShiftDown cmp h 0 last
    some (some data, { h' with used := u32Sub h'.used 1 })
  else some (none, h)

/-- `realloc` to `n` slots, where `granted` says whether the allocator has the memory. A request
for zero bytes frees the block and gives `NULL`. -/
def reallocSlots (granted : Bool) (slots : List (Option α)) (n : Nat) : Option (List (Option α)) :=
  if granted ∧ n ≠ 0 then some (slots.take n ++ List.replicate (n - slots.length) none) else none

/-- The end of `xheap_push`: sift up from the first free slot, then count it. -/
def pushSlot (cmp : α → α → Int) (h : XHeap α) (data : α) : Option (Int × XHeap α) := do
  let h' ← xheapShiftUp cmp h h.used data
  some (0, { h' with used := u32 (h'.used + 1) })

/-- `xheap_push`: the return code and the heap. -/
def xheapPush (cmp : α → α → Int) (granted : Bool) (h : XHeap α) (data : α) :
    Option (Int × XHeap α) :=
  if h.used ≥ h.size then
    let size := u32 (h.size * 2)
    match reallocSlots granted h.slots size with
    | none => some (-1, { h with size := size, slots := [] })
    | some slots => pushSlot cmp { h with size := size, slots := slots } data
  else pushSlot cmp h data

/-- `xheap_top` -/
def xheapTop (h : XHeap α) : Option α := if h.used ≠ 0 then cells h.slots 0 else none

/-- `while((tmp = xheap_pop(heap)) != NULL)` run `n` times: the elements popped, in order. -/
def drain (cmp : α → α → Int) : Nat → XHeap α → Option (List α × XHeap α)
  | 0, h => some ([], h)
  | n + 1, h => do
    match ← xheapPop cmp h with
    | (none, h') => some ([], h')
    | (some a, h') =>
      let (out, h'') ← drain cmp n h'
      some (a :: out, h'')

end Xheap
end Xlibc
