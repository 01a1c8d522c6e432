import Xlibc.Base.CInt
import Xlibc.Base.Compare

/-!
# Xlibc.Xarray.Model

The growable pointer array of `xarray.c`. A slot holds a `void *`, `none` being `NULL`. `data` is the
allocated block: an access outside it has no result, and the call is then `none`. `size`, `count`
and unsigned indices are `Nat` below `2^32`, `int` arguments are `Int`, and every mixed expression is
converted as C does it.

The allocator is the parameter `alloc`: whether `realloc` to so many slots is granted. The
callbacks `cmp_f` (a slot against a key, `none` when it reads through `NULL`) and `free_f` (given or
not) are parameters of the functions that call them.

In an array of strings, `grant` says whether `malloc`, `realloc` and `strdup` give so many bytes, and
`fill` is what the bytes hold that `realloc` adds to a block.
-/

namespace Xlibc
namespace Xarray

variable {α : Type}

structure XArray (α : Type) where
  size : Nat
  appendEnable : Bool
  count : Nat
  data : List (Option α)
  deriving DecidableEq, Repr

/-- `xarray_create`, which asserts `size > 0`; `calloc` zeroes the slots. -/
def xarrayCreate (size : Nat) (appendEnable : Bool) : Option (XArray α) :=
  if size > 0 then
    some { size := size, appendEnable := appendEnable, count := 0, data := List.replicate size none }
  else none

/-! ## Memory -/

/-- `data[i] = p` -/
def storeSlot (data : List (Option α)) (i : Nat) (p : Option α) : Option (List (Option α)) :=
  if i < data.length then some (data.set i p) else none

/-- `realloc` to `n` slots. The slots it adds are `NULL` here: `xarray_append` clears them before
anything reads them. -/
def reallocData (data : List (Option α)) (n : Nat) : List (Option α) :=
  data.take n ++ List.replicate (n - data.length) none

/-- `memset(&data[off], 0, n slots)` -/
def memsetNull (data : List (Option α)) (off n : Nat) : Option (List (Option α)) :=
  if off + n ≤ data.length then some (data.take off ++ List.replicate n none ++ data.drop (off + n))
  else none

/-- `memmove(data + dst, data + src, n slots)` -/
def memmove (data : List (Option α)) (dst src n : Nat) : Option (List (Option α)) :=
  if dst + n ≤ data.length ∧ src + n ≤ data.length then
    some (data.take dst ++ (data.drop src).take n ++ data.drop (dst + n))
  else none

/-! ## Growing and setting -/

/-- `xarray_append`: the return value and the array. -/
def xarrayAppend (alloc : Nat → Bool) (a : XArray α) (extents : Int) : Option (Int × XArray α) :=
  let newsize := i32OfNat (a.size + u32OfInt extents)
  if newsize ≤ 0 then some (0, { a with size := 0, count := 0, data := [] })
  else if alloc newsize.toNat = false then some (-1, a)
  else do
    let data := reallocData a.data newsize.toNat
    let data ← if extents > 0 then memsetNull data a.size extents.toNat else some data
    some (newsize, { a with data := data, size := newsize.toNat })

/-- The common end of `__xarray_set_index`: count the slot, then store. -/
def storeIndex (a : XArray α) (index : Nat) (ptr : Option α) : Option (Int × XArray α) := do
  let count := if u32 (index + 1) > a.count then u32 (index + 1) else a.count
  let data ← storeSlot a.data index ptr
  some (0, { a with count := count, data := data })

/-- `__xarray_set_index` -/
def setIndex (alloc : Nat → Bool) (a : XArray α) (index : Nat) (ptr : Option α) (force : Bool) :
    Option (Int × XArray α) :=
  if index < a.size then do
    let old ← a.data[index]?
    if old.isSome ∧ force = false then some (-1, a) else storeIndex a index ptr
  else if a.appendEnable = false then some (-1, a)
  else do
    let newsize := i32OfNat (if u32 (a.size * 2) < index then u32 (index + 1) else u32 (a.size * 2))
    let (r, a') ← xarrayAppend alloc a (i32OfNat (u32Sub (u32OfInt newsize) a.size))
    if r < 0 then some (-1, a') else storeIndex a' index ptr

def xarrayFsetIndex (alloc : Nat → Bool) (a : XArray α) (index : Nat) (ptr : Option α) :
    Option (Int × XArray α) :=
  setIndex alloc a index ptr true

def xarraySetIndex (alloc : Nat → Bool) (a : XArray α) (index : Nat) (ptr : Option α) :
    Option (Int × XArray α) :=
  setIndex alloc a index ptr false

def xarraySet (alloc : Nat → Bool) (a : XArray α) (ptr : Option α) : Option (Int × XArray α) :=
  xarraySetIndex alloc a a.count ptr

/-- The loop of `xarray_vset` over its variable arguments, `ret` of which are stored. Arguments
without a closing `NULL` are read past their end. -/
def vsetLoop (alloc : Nat → Bool) : Int → XArray α → List (Option α) → Option (Int × XArray α)
  | _, _, [] => none
  | ret, a, none :: _ => some (ret, a)
  | ret, a, some p :: ptrs => do
    let (r, a') ← xarraySet alloc a (some p)
    if r ≠ 0 then some (ret, a') else vsetLoop alloc (ret + 1) a' ptrs

def xarrayVset (alloc : Nat → Bool) (a : XArray α) (ptrs : List (Option α)) : Option (Int × XArray α) :=
  vsetLoop alloc 0 a ptrs

/-! ## Removing -/

/-- The common end of `xarray_remove_index` and `xarray_remove_data`: close the gap at `index`, drop
the count, and shrink by the count when at most half of the slots are used. -/
def closeGap (alloc : Nat → Bool) (a : XArray α) (index : Nat) : Option (XArray α) := do
  let a' ←
    if index = u32Sub a.count 1 then do
      let data ← storeSlot a.data index none
      some { a with data := data, count := u32Sub a.count 1 }
    else do
      let data ← memmove a.data index (index + 1) (u32Sub (u32Sub a.count index) 1)
      let data ← storeSlot data (u32Sub a.count 1) none
      some { a with data := data, count := u32Sub a.count 1 }
  if a'.appendEnable ∧ a'.count ≤ a'.size / 2 then do
    let (_, a'') ← xarrayAppend alloc a' (i32OfNat (u32Sub 0 a'.count))
    some a''
  else some a'

/-- `xarray_remove_index`: the returned pointer and the array. -/
def xarrayRemoveIndex (alloc : Nat → Bool) (a : XArray α) (index : Int) : Option (Option α × XArray α) :=
  if u32OfInt index ≥ a.size then some (none, a)
  else if index < 0 then none
  else do
    let ret ← a.data[index.toNat]?
    let data ← storeSlot a.data index.toNat none
    let a' ← closeGap alloc { a with data := data } index.toNat
    some (ret, a')

def xarrayRemove (alloc : Nat → Bool) (a : XArray α) : Option (Option α × XArray α) :=
  xarrayRemoveIndex alloc a (i32OfNat (u32Sub a.count 1))

/-- `xarray_remove_data`: the return code, the element handed to `free_f`, and the array. -/
def xarrayRemoveData (alloc : Nat → Bool) (cmpF : Option (Option α → α → Option Int)) (freeF : Bool)
    (a : XArray α) (key : Option α) : Option (Int × Option α × XArray α) :=
  match key with
  | none => some (-1, none, a)
  | some key =>
    if 0 ≥ a.size then some (-1, none, a)
    else do
      let found : Option Nat ← match cmpF with
        | none => some none
        | some cmp => findInt (fun i => do
            let slot ← a.data[i]?
            let c ← cmp slot key
            some (c == 0)) 0 a.count
      match found with
      | none => some (-1, none, a)
      | some index =>
        match ← a.data[index]? with
        | none => some (-1, none, a)
        | some ret => do
          let a' ← closeGap alloc a index
          some (0, if freeF then some ret else none, a')

/-! ## Searching -/

/-- `cmp_f(array->data[i], data) == 0` -/
def stopAt (cmp : Option α → α → Option Int) (a : XArray α) (key : α) (i : Nat) : Option Bool := do
  let slot ← a.data[i]?
  let c ← cmp slot key
  some (c == 0)

/-- The loop of `xarray_find` and of `xarray_find_index`: the index at which it stops. -/
def searchSlots (cmp : Option α → α → Option Int) (a : XArray α) (key : α) : Option (Option Nat) :=
  findInt (stopAt cmp a key) 0 a.count

/-- `xarray_find` -/
def xarrayFind (cmpF : Option (Option α → α → Option Int)) (a : XArray α) (key : Option α) :
    Option (Option α) :=
  match key with
  | none => some none
  | some key =>
    match cmpF with
    | none => some none
    | some cmp => do
      match ← searchSlots cmp a key with
      | none => some none
      | some i => a.data[i]?

/-- `xarray_find_index` -/
def xarrayFindIndex (cmpF : Option (Option α → α → Option Int)) (a : XArray α) (key : Option α) :
    Option Int :=
  match key with
  | none => some (-1)
  | some key =>
    match cmpF with
    | none => some (-1)
    | some cmp => do
      match ← searchSlots cmp a key with
      | none => some (-1)
      | some i => some i

/-- `xarray_get` -/
def xarrayGet (a : XArray α) (index : Int) : Option (Option α) :=
  if u32OfInt index ≥ a.size then some none
  else if index < 0 then none
  else a.data[index.toNat]?

/-! ## Arrays of strings -/

def xstrarray : Option (XArray CString) := xarrayCreate 8 true

/-- `strarray_cmp`, which reads both strings. -/
def strarrayCmp : Option CString → CString → Option Int
  | none, _ => none
  | some a, b => some (strcmp a.val b.val)

/-- `xstrarrayadd`, for a string and an array -/
def xstrarrayadd (alloc grant : Nat → Bool) (a : XArray CString) (str : CString) :
    Option (Int × XArray CString) :=
  if grant (str.val.length + 1) = false then some (-1, a)
  else do
    let (r, a') ← xarrayVset alloc a [some str, none]
    some (if r = 1 then 0 else -1, a')

/-- The local variables of `xarray2str`. -/
structure JoinState where
  str : List Byte
  size : Nat
  offset : Nat
  deriving DecidableEq

/-- The new `size` of the block. -/
def joinSize (size : Nat) (len : Int) : Nat :=
  if (size : Int) ≤ len - 1 then size + len.toNat + 1 else size * 2

/-- `if(size - offset <= len - 1)`: a larger block, or nothing when `realloc` gives none. -/
def joinGrow (grant : Nat → Bool) (fill : Byte) (len : Int) (st : JoinState) :
    Option (Option JoinState) :=
  if (st.size : Int) - st.offset ≤ len - 1 then
    if joinSize st.size len > intMax then none
    else if grant (joinSize st.size len) = false then some none
    else some (some { st with
      str := reallocBytes fill st.str (joinSize st.size len), size := joinSize st.size len })
  else some (some st)

/-- The body of the loop of `xarray2str`. `sprintf` writes the whole string, whatever `len` is; for the
one length for which `len - 1` overflows it does not fit any block. -/
def joinSlot (grant : Nat → Bool) (fill split : Byte) (st : JoinState) :
    Option CString → Option (Option JoinState)
  | none => some (some st)
  | some tmp =>
    if i32OfNat tmp.val.length = 0 then some (some st)
    else do
      match ← joinGrow grant fill (i32OfNat tmp.val.length) st with
      | none => some none
      | some st => do
        let str ← storeBytes st.str st.offset (tmp.val ++ [split, 0])
        some (some { st with
          str := str, offset := (st.offset + i32OfNat tmp.val.length + 1).toNat })

/-- `xarray2str`, which clears its first block before it looks whether there is one. The result is the
block it returns, or nothing for `NULL`. -/
def xarray2str (grant : Nat → Bool) (fill split : Byte) :
    Option (XArray CString) → Option (Option (List Byte))
  | none => some none
  | some a =>
    if grant 256 = false then none
    else do
      match ← forExit (fun i st => do
          let slot ← a.data[i]?
          joinSlot grant fill split st slot) 0 a.count
          { str := List.replicate 256 0, size := 256, offset := 0 } with
      | none => some none
      | some st =>
        if st.offset ≠ 0 then do
          let str ← storeBytes st.str (st.offset - 1) [0]
          some (some str)
        else some (some st.str)

/-- The local variables of `xstr2array`. -/
structure SplitState where
  tmp : List Byte
  j : Nat
  array : XArray CString

/-- The body of the loop of `xstr2array`, at the byte `instr[i]`; it gives up at `goto err`. -/
def splitByte (alloc grant : Nat → Bool) (split : CString) (st : SplitState) (c : Byte) :
    Option (Option SplitState) :=
  if c ∉ split.val ∧ c ≠ 0 then do
    let tmp ← storeBytes st.tmp st.j [c]
    some (some { st with tmp := tmp, j := st.j + 1 })
  else do
    let tmp ← storeBytes st.tmp st.j [0]
    let newstr ← cstring tmp
    if grant (newstr.val.length + 1) = false then some none
    else do
      let (r, array) ← xarrayVset alloc st.array [some newstr, none]
      if r ≠ 1 then some none else some (some { tmp := tmp, j := 0, array := array })

/-- `xstr2array`, nothing being `NULL`. -/
def xstr2array (alloc grant : Nat → Bool) (instr split : CString) : Option (Option (XArray CString)) :=
  if i32OfNat instr.val.length = 0 then some none
  else if grant (instr.val.length + 1) = false then some none
  else do
    let array ← xarrayCreate 8 true
    match ← forExit (fun i st => do
        let c ← (instr.val ++ [0])[i]?
        splitByte alloc grant split st c) 0 (i32OfNat instr.val.length + 1).toNat
        { tmp := instr.val ++ [0], j := 0, array := array } with
    | none => some none
    | some st => some (some st.array)

end Xarray
end Xlibc
