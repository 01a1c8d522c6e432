import Xlibc.Xtrace2.Model

/-!
# Xlibc.Xtrace.Model

The allocation tracker of `xtrace.c`: one node for each recorded address, in the hash table of
`xhash.c`. As in the other tracker, nodes live in a store of their own and the data of the table are
their addresses; the two share `filename_get` and the types of allocation. A function also returns the
nodes that it hands to `free`, and has no result when it has faulted or has failed an assertion.
`malloc` is granted, at the addresses that are passed as arguments.
-/

namespace Xlibc
namespace Xtrace

open Xhash
open Xtrace2 (AllocType Alloc filenameGet copyName)

structure AllocNode where
  addr : Nat
  size : Nat
  file : List Byte
  func : List Byte
  line : Int
  type : AllocType
  deriving DecidableEq

/-! ## The callbacks of the table -/

/-- `alloc_node_hash_key`. The address is cut to an `unsigned int`. -/
def allocNodeHashKey (node : AllocNode) : Nat := u32 node.addr

/-- `alloc_node_hash_cmp_key` -/
def allocNodeHashCmpKey (node1 node2 : AllocNode) : Int := if node1.addr = node2.addr then 1 else 0

/-- The callbacks that `xalloc_hash_create0` gives to the table. -/
def callbacks (nodes : Store AllocNode) : Callbacks Nat where
  hashKey p := do some (allocNodeHashKey (← nodes.lookup p))
  hashCmpKey p q := do some (allocNodeHashCmpKey (← nodes.lookup p) (← nodes.lookup q))
  hashCmpOther _ _ := some 1
  hashFreeData := true
  hashTraverse := true

/-- `alloc_node_find`, the callback of `hash_find` -/
def allocNodeFind (nodes : Store AllocNode) (addr data : Nat) : Option (Option Nat) := do
  let node ← nodes.lookup data
  some (if node.addr = addr then some data else none)

/-! ## Nodes -/

/-- `alloc_node_dump`, what it prints apart: it reads both strings up to their end, and the name of the
type, of which `FREE_TYPE` has none. -/
def allocNodeDump (node : AllocNode) : Option Unit := do
  let _ ← cstr node.file
  let _ ← cstr node.func
  if node.type = .free then none else some ()

/-- `alloc_node_new`, its block apart. The size becomes a `size_t`. -/
def allocNodeNew (file func : Option CString) (line : Int) (addr : Nat) (size : Int) (type : AllocType) :
    AllocNode :=
  { addr := addr
    size := (size % 2 ^ 64).toNat
    file := copyName (file.map fun s => filenameGet s.val) 64
    func := copyName (func.map fun s => s.val) 32
    line := line
    type := type }

/-- `free`, for each of these nodes. -/
def freeNodes (nodes : Store AllocNode) (freed : List Nat) : Store AllocNode :=
  freed.foldl (fun m p => m.erase p) nodes

/-! ## The tracker -/

structure Tracker where
  nodes : Store AllocNode
  hash : Hash Nat
  deriving DecidableEq

/-- `xalloc_hash_create0`, with the tracer enabled -/
def xallocHashCreate0 : Tracker := { nodes := ∅, hash := hashCreate }

/-- `alloc_node_insert`: the node it returns, what it frees, and the tracker. `new` and `bucket` are the
addresses of the blocks it allocates for a node and a bucket. -/
def allocNodeInsert (t : Tracker) (new bucket : Nat) (a : Alloc) :
    Option (Option Nat × List Nat × Tracker) :=
  if a.atype = .free then none
  else do
    let nodes := t.nodes.insert new (allocNodeNew a.file a.func a.line a.addr a.size a.atype)
    match ← hashFind (some (allocNodeFind nodes a.addr)) t.hash with
    | none => do
      let (ret, freed, hash) ← hashSet (callbacks nodes) bucket t.hash (some new)
      some (ret, freed, { nodes := freeNodes nodes freed, hash := hash })
    | some find => do
      allocNodeDump (← nodes.lookup find)
      some (some find, [new], { t with nodes := freeNodes nodes [new] })

/-- `alloc_node_remove`: its result, what it frees, and the tracker. `new` is the block of the node that
it searches with. -/
def allocNodeRemove (t : Tracker) (new addr : Nat) : Option (Int × List Nat × Tracker) := do
  let nodes := t.nodes.insert new (allocNodeNew none none 0 addr 0 .free)
  let (ret, freed, hash) ← hashDelete (callbacks nodes) t.hash new
  some (ret, freed, { nodes := freeNodes nodes freed, hash := hash })

end Xtrace
end Xlibc
