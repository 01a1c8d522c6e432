import Xlibc.Base.Bytes
import Xlibc.Base.CInt
import Xlibc.Base.Chain

/-!
# Xlibc.Xhash.Model

The chained hash table of `xhash.c`. `index` holds the heads of the chains, a bucket lives at an
address of the store `buckets`, and `none` is `NULL`. An access to a bucket that is not allocated has
no result, and neither has a walk longer than the store: such a chain runs in a circle. `count` is an
`unsigned long` over allocated buckets and cannot wrap.

The callbacks are parameters, as the data they look at may live in memory of its own; a callback
without a result has faulted. They do not reenter the table, so its lock is left out. `malloc` is
granted, at the address `fresh`.
-/

namespace Xlibc
namespace Xhash

variable {δ ρ : Type}

structure HashBucket (δ : Type) where
  next : Option Nat
  key : Nat
  data : δ
  deriving DecidableEq, Repr

structure Callbacks (δ : Type) where
  hashKey : δ → Option Nat
  hashCmpKey : δ → δ → Option Int
  hashCmpOther : δ → δ → Option Int
  /-- whether `hash_free_data` is given -/
  hashFreeData : Bool
  /-- whether `hash_traverse` is given -/
  hashTraverse : Bool

structure Hash (δ : Type) where
  index : List (Option Nat)
  size : Nat
  count : Nat
  buckets : Store (HashBucket δ)
  deriving DecidableEq

/-- `hash_create_size`, the callbacks apart -/
def hashCreateSize (size : Nat) : Hash δ :=
  { index := List.replicate size none, size := size, count := 0, buckets := ∅ }

/-- `HASH_TABLE_SIZE` -/
def hashTableSize : Nat := 32

def hashCreate : Hash δ := hashCreateSize hashTableSize

/-! ## Walking one chain -/

/-- `key % hash->size` and the head of that chain. -/
def chainOf (h : Hash δ) (key : Nat) : Option (Nat × Option Nat) := do
  if h.size = 0 then none
  let head ← h.index[key % h.size]?
  some (key % h.size, head)

/-- The walk `for (prev = bucket = head; bucket != NULL; bucket = bucket->next)` up to the first
bucket with this key and datum: `prev` (the head itself at the head), its address and the bucket. -/
def searchChain (cb : Callbacks δ) (m : Store (HashBucket δ)) (key : Nat) (data : δ) :
    Nat → Option Nat → Option Nat → Option (Option (Option Nat × Nat × HashBucket δ))
  | _, _, none => some none
  | 0, _, some _ => none
  | fuel + 1, prev, some p => do
    let b ← m.lookup p
    let hit ← if b.key = key then (cb.hashCmpKey b.data data).map (· != 0) else some false
    if hit then some (some (prev, p, b)) else searchChain cb m key data fuel (some p) b.next

/-- The walk over all buckets of a chain, in order. -/
def walkChain (m : Store (HashBucket δ)) : Nat → Option Nat → Option (List (HashBucket δ))
  | _, none => some []
  | 0, some _ => none
  | fuel + 1, some p => do
    let b ← m.lookup p
    let rest ← walkChain m fuel b.next
    some (b :: rest)

/-- Unlink a bucket and free it: `prev` is the bucket before it, or itself at the head. -/
def unlinkBucket (h : Hash δ) (i : Nat) (prev : Option Nat) (p : Nat) (b : HashBucket δ) :
    Option (Hash δ) :=
  if some p = prev then
    some { h with index := h.index.set i b.next, buckets := h.buckets.erase p, count := h.count - 1 }
  else do
    let q ← prev
    let bq ← h.buckets.lookup q
    let m := h.buckets.insert q { bq with next := b.next }
    some { h with buckets := m.erase p, count := h.count - 1 }

/-! ## The operations

A function that frees data also returns what it hands to `hash_free_data`. -/

def hashGet (cb : Callbacks δ) (h : Hash δ) (data : δ) : Option (Option δ) := do
  let key ← cb.hashKey data
  let (_, head) ← chainOf h key
  let r ← searchChain cb h.buckets key data h.buckets.entries.length head head
  some (r.map fun (_, _, b) => b.data)

def hashDelete (cb : Callbacks δ) (h : Hash δ) (data : δ) : Option (Int × List δ × Hash δ) :=
  if cb.hashFreeData = false then some (-1, [], h)
  else do
    let key ← cb.hashKey data
    let (i, head) ← chainOf h key
    match ← searchChain cb h.buckets key data h.buckets.entries.length head head with
    | none => some (-1, [], h)
    | some (prev, p, b) => do
      let h' ← unlinkBucket h i prev p b
      some (0, [b.data], h')

/-- `hash_set`; the argument is `NULL` for `none`. Freeing without a `hash_free_data` faults. -/
def hashSet (cb : Callbacks δ) (fresh : Nat) (h : Hash δ) (data : Option δ) :
    Option (Option δ × List δ × Hash δ) :=
  match data with
  | none => some (none, [], h)
  | some data => do
    let key ← cb.hashKey data
    let (i, head) ← chainOf h key
    match ← searchChain cb h.buckets key data h.buckets.entries.length head head with
    | some (_, p, b) => do
      let other ← cb.hashCmpOther b.data data
      if cb.hashFreeData = false then none
      else if other ≠ 0 then some (some b.data, [data], h)
      else some (some data, [b.data], { h with buckets := h.buckets.insert p { b with data := data } })
    | none =>
      let bucket : HashBucket δ := { next := head, key := key, data := data }
      some (some data, [], { h with
        index := h.index.set i (some fresh)
        buckets := h.buckets.insert fresh bucket
        count := h.count + 1 })

def hashRelease (cb : Callbacks δ) (h : Hash δ) (data : δ) : Option (Option δ × Hash δ) := do
  let key ← cb.hashKey data
  let (i, head) ← chainOf h key
  match ← searchChain cb h.buckets key data h.buckets.entries.length head head with
  | none => some (none, h)
  | some (prev, p, b) => do
    let h' ← unlinkBucket h i prev p b
    some (some b.data, h')

/-! ## The whole table -/

/-- `hash_iterate`: the buckets handed to `func`, in order. -/
def hashIterate (h : Hash δ) : Option (List (HashBucket δ)) :=
  forInt (fun i seen => do
    let head ← h.index[i]?
    let bs ← walkChain h.buckets h.buckets.entries.length head
    some (seen ++ bs)) 0 h.size []

/-- `hash_traverse`: the data handed to the callback, in order. -/
def hashTraverse (cb : Callbacks δ) (h : Hash δ) : Option (List δ) :=
  if cb.hashTraverse = false then some []
  else forInt (fun i seen => do
    let head ← h.index[i]?
    let bs ← walkChain h.buckets h.buckets.entries.length head
    some (seen ++ bs.map (·.data))) 0 h.size []

/-- The inner loop of `hash_clean`: free the data and the buckets of a chain. -/
def cleanChain : Nat → Option Nat → List δ × Hash δ → Option (List δ × Hash δ)
  | _, none, s => some s
  | 0, some _, _ => none
  | fuel + 1, some p, (freed, h) => do
    let b ← h.buckets.lookup p
    cleanChain fuel b.next
      (freed ++ [b.data], { h with buckets := h.buckets.erase p, count := h.count - 1 })

/-- `hash_clean`: the data handed to `hash_free_data`, and the table. -/
def hashClean (cb : Callbacks δ) (h : Hash δ) : Option (List δ × Hash δ) :=
  if cb.hashFreeData = false then some ([], h)
  else forInt (fun i (freed, h) => do
    let head ← h.index[i]?
    let (freed, h) ← cleanChain h.buckets.entries.length head (freed, h)
    some (freed, { h with index := h.index.set i none })) 0 h.size ([], h)

/-- The walk of `hash_find` over one chain, up to the first datum the callback answers for. -/
def findChain (f : δ → Option (Option ρ)) (m : Store (HashBucket δ)) :
    Nat → Option Nat → Option (Option ρ)
  | _, none => some none
  | 0, some _ => none
  | fuel + 1, some p => do
    let b ← m.lookup p
    match ← f b.data with
    | some r => some (some r)
    | none => findChain f m fuel b.next

/-- `hash_find`, with the callback `hash_find` (given or not) at its pattern. -/
def hashFind (find : Option (δ → Option (Option ρ))) (h : Hash δ) : Option (Option ρ) :=
  match find with
  | none => some none
  | some f => returnInt (fun i => do
      let head ← h.index[i]?
      findChain f h.buckets h.buckets.entries.length head) 0 h.size

/-- `hash_destroy`: what is freed before the table itself goes. -/
def hashDestroy (cb : Callbacks δ) (h : Hash δ) : Option (List δ) := (hashClean cb h).map Prod.fst

/-! ## hash_buffer

Here a bucket's data may be `NULL`, which is `none`. -/

/-- What the callback `hash_buffer` gives for a datum: a length, and a buffer of that length. -/
structure BufferRecord where
  len : Int
  bytes : List Byte
  length_eq : bytes.length = len.toNat
  len_le : len ≤ intMax

/-- The local variables of `hash_buffer` and the block `*data`. -/
structure BufferState where
  block : List Byte
  usedLen : Nat
  emptyLen : Nat
  blocks : Nat
  deriving DecidableEq

/-- `XMALLOC_STEP` -/
def xmallocStep : Nat := 128

/-- `if(len > empty_len)`: one step more, whatever `len` is. The other sums are not larger than this
size, which is an `int`. -/
def extendBuffer (fill : Byte) (len : Nat) (st : BufferState) : Option BufferState :=
  if len > st.emptyLen then
    if xmallocStep * st.blocks > intMax then none
    else some { st with
      block := reallocBytes fill st.block (xmallocStep * st.blocks)
      emptyLen := st.emptyLen + xmallocStep
      blocks := st.blocks + 1 }
  else some st

/-- The body of the loops of `hash_buffer`, at the data of one bucket. -/
def bufferDatum (buf : δ → BufferRecord) (fill : Byte) (st : BufferState) :
    Option δ → Option BufferState
  | none => some st
  | some data =>
    if (buf data).len > 0 then do
      let st ← extendBuffer fill (buf data).len.toNat st
      let block ← storeBytes st.block st.usedLen (buf data).bytes
      some { st with
        block := block
        usedLen := st.usedLen + (buf data).len.toNat
        emptyLen := st.emptyLen - (buf data).len.toNat }
    else some st

/-- `block` is what the call has allocated and not released; `pointerFreed` says that the caller's
pointer variable `*data` has been freed itself. -/
structure BufferResult where
  ret : Int
  block : Option (List Byte)
  pointerFreed : Bool
  deriving DecidableEq

/-- `hash_buffer`, with the callback (given or not). It ends with `free(data)`, where `data` is the
address of the caller's pointer: `onHeap` says whether that has come from `malloc`, and if it has not,
the call faults. -/
def hashBuffer (onHeap : Bool) (buf : Option (δ → BufferRecord)) (fill : Byte) (h : Hash (Option δ)) :
    Option BufferResult :=
  match buf with
  | none => some { ret := -1, block := none, pointerFreed := false }
  | some buf => do
    let st ← forInt (fun i st => do
      let head ← h.index[i]?
      let bs ← walkChain h.buckets h.buckets.entries.length head
      (bs.map (·.data)).foldlM (bufferDatum buf fill) st) 0 h.size
      { block := List.replicate xmallocStep fill, usedLen := 0, emptyLen := xmallocStep, blocks := 2 }
    if st.usedLen = 0 then
      if onHeap then some { ret := -1, block := some st.block, pointerFreed := true } else none
    else some { ret := st.usedLen, block := some st.block, pointerFreed := false }

end Xhash
end Xlibc
