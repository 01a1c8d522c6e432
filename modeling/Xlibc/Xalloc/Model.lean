import Xlibc.Xtrace2.Model

/-!
# Xlibc.Xalloc.Model

The allocating functions of `xalloc.c` with the tracer enabled, so that `alloc_insert_hook` is
`alloc_node_insert2` and `alloc_remove_hook` is `alloc_node_remove2`. A function without a result has
died for want of memory, or the tracker has faulted. What the functions print is left out, and so is
what the blocks contain.
-/

namespace Xlibc
namespace Xalloc

open Xtrace2 (Tracker Alloc AllocType allocNodeInsert2 allocNodeRemove2 xallocHashCreate)

/-- Where a function is called: `__FILE__`, `__LINE__` and `__FUNCTION__`. -/
structure Caller where
  file : CString
  line : Int
  func : CString
  deriving DecidableEq

/-- The addresses granted during a call: the block for the caller, and a node and a bucket for the
tracker. -/
structure Grant where
  p : Nat
  new : Nat
  bucket : Nat

/-- The tracker, and the live blocks with the bytes that have been requested for them. -/
structure Memory where
  tracker : Tracker
  blocks : List (Nat × Nat)

/-- The arguments of `alloc_insert_hook`. The size becomes an `int`. -/
def Caller.alloc (c : Caller) (p size : Nat) (type : AllocType) : Alloc :=
  { file := some c.file, func := some c.func, line := c.line, addr := p, size := i32OfNat size, atype := type }

def insertHook (t : Tracker) (g : Grant) (c : Caller) (size : Nat) (type : AllocType) : Option Tracker :=
  (allocNodeInsert2 t g.new g.bucket (c.alloc g.p size type)).map Prod.snd

def removeHook (t : Tracker) (ptr : Nat) : Option Tracker := (allocNodeRemove2 t ptr).map Prod.snd

/-- The blocks for the tracker are not in use. -/
def Fresh (t : Tracker) (g : Grant) : Prop :=
  t.nodes.lookup g.new = none ∧ t.hash.buckets.lookup g.bucket = none

instance (t : Tracker) (g : Grant) : Decidable (Fresh t g) := inferInstanceAs (Decidable (_ ∧ _))

/-- `free`, which the tracker does not see. -/
def Memory.without (m : Memory) (ptr : Nat) : List (Nat × Nat) := m.blocks.filter fun b => b.1 ≠ ptr

/-- What the functions share that allocate `bytes` bytes and record `size`. -/
def memcheckAlloc (type : AllocType) (bytes size : Nat) (m : Memory) (g : Grant) (c : Caller) :
    Option Memory :=
  if g.p = 0 then none
  else do
    let t ← insertHook m.tracker g c size type
    some { tracker := t, blocks := (g.p, bytes) :: m.blocks }

def memcheckMalloc (m : Memory) (g : Grant) (c : Caller) (size : Nat) : Option Memory :=
  memcheckAlloc .malloc size size m g c

def memcheckZalloc (m : Memory) (g : Grant) (c : Caller) (size : Nat) : Option Memory :=
  memcheckAlloc .zalloc size size m g c

def memcheckCalloc (m : Memory) (g : Grant) (c : Caller) (n size : Nat) : Option Memory :=
  memcheckAlloc .calloc (n * size) size m g c

/-- `memcheck_strdup`. `strdup` allocates the terminating zero too. -/
def memcheckStrdup (m : Memory) (g : Grant) (c : Caller) (str : CString) : Option Memory :=
  memcheckAlloc .strdup (str.val.length + 1) str.val.length m g c

/-- `memcheck_realloc`. Whether the block has moved or not, its record is replaced. -/
def memcheckRealloc (m : Memory) (g : Grant) (c : Caller) (ptr size : Nat) : Option Memory :=
  if g.p = 0 then none
  else do
    let t ← removeHook m.tracker ptr
    let t ← insertHook t g c size .realloc
    some { tracker := t, blocks := (g.p, size) :: m.without ptr }

/-- `memcheck_free`, of a block -/
def memcheckFree (m : Memory) (ptr : Nat) : Option Memory := do
  let t ← removeHook m.tracker ptr
  some { tracker := t, blocks := m.without ptr }

def Memory.init : Memory := { tracker := xallocHashCreate, blocks := [] }

end Xalloc
end Xlibc
