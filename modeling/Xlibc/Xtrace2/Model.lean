import Xlibc.Base.CStr
import Xlibc.Xhash.Model

/-!
# Xlibc.Xtrace2.Model

The allocation tracker of `xtrace2.c`: one node for each call site, holding the addresses allocated
there and their sizes in two parallel arrays, in the hash table of `xhash.c`. Nodes live in a store of
their own, the data of the table are their addresses, and the callbacks of the table read the
nodes. `none` is `NULL` for an array; a function without a result has faulted or has failed an
assertion. Only the one thread that holds `g_alloc_rwlock` runs, so the lock is left out, and `malloc`
and `realloc` are granted, at the addresses that are passed as arguments.
-/

namespace Xlibc
namespace Xtrace2

open Xhash

inductive AllocType where
  | free | malloc | zalloc | calloc | realloc | strdup | fopen | vasprintf | vsprintf | nvram | record
  deriving DecidableEq, Repr

structure AllocNode where
  count : Nat
  file : List Byte
  func : List Byte
  line : Int
  type : AllocType
  addrArray : Option (List Nat)
  sizeArray : Option (List Nat)
  deriving DecidableEq

/-! ## The callbacks of the table -/

/-- A `char`, which is signed. -/
def charVal (c : Byte) : Int := if c.toNat < 128 then c.toNat else c.toNat - 256

def addChars (key : Nat) (s : List Byte) : Nat := s.foldl (fun k c => u32 (k + u32OfInt (charVal c))) key

/-- `alloc_node_hash_key` -/
def allocNodeHashKey (node : AllocNode) : Option Nat := do
  let file ← cstr node.file
  let func ← cstr node.func
  some (u32 (addChars (addChars 0 file) func + u32OfInt node.line))

/-- `alloc_node_hash_cmp_key`. `strcmp` reads both strings up to their end. -/
def allocNodeHashCmpKey (node1 node2 : AllocNode) : Option Int := do
  let file1 ← cstr node1.file
  let file2 ← cstr node2.file
  let func1 ← cstr node1.func
  let func2 ← cstr node2.func
  some (if file1 = file2 ∧ func1 = func2 ∧ node1.line = node2.line then 1 else 0)

/-- The callbacks that `xalloc_hash_create` gives to the table. -/
def callbacks (nodes : Store AllocNode) : Callbacks Nat where
  hashKey p := do allocNodeHashKey (← nodes.lookup p)
  hashCmpKey p q := do allocNodeHashCmpKey (← nodes.lookup p) (← nodes.lookup q)
  hashCmpOther _ _ := some 1
  hashFreeData := true
  hashTraverse := true

/-- `alloc_node_find`, the callback of `hash_find` -/
def allocNodeFind (nodes : Store AllocNode) (pattern data : Nat) : Option (Option Nat) := do
  let r ← allocNodeHashCmpKey (← nodes.lookup data) (← nodes.lookup pattern)
  some (if r = 1 then some data else none)

/-! ## Nodes -/

/-- `for (; i < data->count; i++) if (data->addr_array[i] == addr)` -/
def scanAddr (node : AllocNode) (addr : Nat) : Option (Option Nat) :=
  findInt (fun i => do
    let addrs ← node.addrArray
    let a ← addrs[i]?
    some (a == addr)) 0 node.count

/-- `alloc_node_find_byaddr`, which asserts `count > 0` -/
def allocNodeFindByaddr (nodes : Store AllocNode) (addr data : Nat) : Option (Option Nat) := do
  let node ← nodes.lookup data
  if node.count > 0 then do
    let found ← scanAddr node addr
    some (found.map fun _ => data)
  else none

/-- `array[i] = array[j]` -/
def copyEntry (array : Option (List Nat)) (i j : Nat) : Option (Option (List Nat)) := do
  let xs ← array
  let x ← xs[j]?
  if i < xs.length then some (some (xs.set i x)) else none

/-- The end of `alloc_node_remove_addr`: entry `i` goes, the last one is swapped in unless it is `i`
itself, and empty arrays are freed. -/
def dropEntry (node : AllocNode) (i : Nat) : Option AllocNode := do
  let count := node.count - 1
  let addrs ← (if i ≠ count then copyEntry node.addrArray i count else some node.addrArray)
  let sizes ← (if i ≠ count then copyEntry node.sizeArray i count else some node.sizeArray)
  some (if count = 0 then { node with count := count, addrArray := none, sizeArray := none }
    else { node with count := count, addrArray := addrs, sizeArray := sizes })

/-- `alloc_node_remove_addr`, which asserts `count > 0` and returns early without the address -/
def allocNodeRemoveAddr (node : AllocNode) (addr : Nat) : Option AllocNode :=
  if node.count > 0 then do
    match ← scanAddr node addr with
    | none => some node
    | some i => dropEntry node i
  else none

/-- `filename_get` -/
def filenameGet (path : List Byte) : List Byte := rindexAfter path 47

/-- What `alloc_node_new` stores for a string that may be `NULL`, in an array of `n` zeroed bytes. -/
def copyName (name : Option (List Byte)) (n : Nat) : List Byte :=
  match name with
  | none => List.replicate n 0
  | some s => strncpy s n

/-- `alloc_node_new`, its block apart -/
def allocNodeNew (file func : Option CString) (line : Int) (addr : Nat) (size : Int) (type : AllocType) :
    AllocNode :=
  { count := 1
    file := copyName (file.map fun s => filenameGet s.val) 64
    func := copyName (func.map fun s => s.val) 32
    line := line
    type := type
    addrArray := some [addr]
    sizeArray := some [u32OfInt size] }

/-- `array = realloc(array, count slots); assert(array); array[count - 1] = x;`. A block of no bytes
is `NULL`; a new slot is written before it is read. -/
def growEntry (array : Option (List Nat)) (count : Nat) (x : Nat) : Option (Option (List Nat)) :=
  if count = 0 then none
  else
    let xs := array.getD []
    some (some ((xs.take count ++ List.replicate (count - xs.length) 0).set (count - 1) x))

/-! ## The tracker -/

structure Tracker where
  nodes : Store AllocNode
  hash : Hash Nat
  deriving DecidableEq

/-- `xalloc_hash_create`, with the tracer enabled -/
def xallocHashCreate : Tracker := { nodes := ∅, hash := hashCreate }

/-- What `alloc_node_insert2` is called with. -/
structure Alloc where
  file : Option CString
  func : Option CString
  line : Int
  addr : Nat
  size : Int
  atype : AllocType

/-- `alloc_node_insert2`: the node it returns, and the tracker. `new` and `bucket` are the addresses of
the blocks it allocates for a node and a bucket. -/
def allocNodeInsert2 (t : Tracker) (new bucket : Nat) (a : Alloc) : Option (Option Nat × Tracker) :=
  if a.atype = .free then none
  else do
    let nodes := t.nodes.insert new (allocNodeNew a.file a.func a.line a.addr a.size a.atype)
    match ← hashFind (some (allocNodeFind nodes new)) t.hash with
    | none => do
      let (ret, freed, hash) ← hashSet (callbacks nodes) bucket t.hash (some new)
      some (ret, { nodes := freed.foldl (fun m p => m.erase p) nodes, hash := hash })
    | some find => do
      let node ← nodes.lookup find
      let count := u32 (node.count + 1)
      let addrs ← growEntry node.addrArray count a.addr
      let sizes ← growEntry node.sizeArray count (u32OfInt a.size)
      let node := { node with count := count, addrArray := addrs, sizeArray := sizes }
      some (some find, { t with nodes := (nodes.insert find node).erase new })

/-- `node_hash_find_byaddr`: the loop of `hash_find` with `alloc_node_find_byaddr` in it. -/
def nodeHashFindByaddr (t : Tracker) (addr : Nat) : Option (Option Nat) :=
  hashFind (some (allocNodeFindByaddr t.nodes addr)) t.hash

/-- `alloc_node_remove2` -/
def allocNodeRemove2 (t : Tracker) (addr : Nat) : Option (Int × Tracker) := do
  match ← nodeHashFindByaddr t addr with
  | none => some (-1, t)
  | some find => do
    let node ← t.nodes.lookup find
    let node ← allocNodeRemoveAddr node addr
    let nodes := t.nodes.insert find node
    if node.count = 0 then do
      let (ret, freed, hash) ← hashDelete (callbacks nodes) t.hash find
      some (ret, { nodes := freed.foldl (fun m p => m.erase p) nodes, hash := hash })
    else some (0, { t with nodes := nodes })

end Xtrace2
end Xlibc
