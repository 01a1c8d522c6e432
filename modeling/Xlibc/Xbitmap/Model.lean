import Xlibc.Base.CInt
import Xlibc.Base.Hex

/-!
# Xlibc.Xbitmap.Model

The bitmaps of `xbitmap.c`, for a `long` of `w` bits: a bitmap is the list of its words, and an access
outside it has no result. `nbits` and `offset` are non-negative `int`s. Word counts stay far below
`INT_MAX`.

Storage is counted in words of `w` bits (`bitsToLongs`), every accessor divides by `bitsPerLong`.
-/

namespace Xlibc
namespace Xbitmap

variable {w : Nat}

/-- `BITS_PER_LONG` -/
def bitsPerLong : Nat := 32

/-- `BITS_TO_LONGS(nr)`, with `BITS_PER_BYTE * sizeof(long) = w` -/
def bitsToLongs (w nr : Nat) : Nat := (nr + w - 1) / w

/-- `BITMAP_LAST_WORD_MASK(nbits)` -/
def lastWordMask (w nbits : Nat) : BitVec w :=
  if nbits % bitsPerLong ≠ 0 then (1#w <<< (nbits % bitsPerLong)) - 1#w else ~~~ 0#w

/-- The `int` value `1 << n`, converted to `unsigned long`. -/
def intBit (w n : Nat) : BitVec w := (1#32 <<< n).signExtend w

/-- The `int` value `~(1 << n)`, converted to `unsigned long`. -/
def intMask (w n : Nat) : BitVec w := (~~~ (1#32 <<< n)).signExtend w

/-! ## Memory -/

/-- `bitmap[i] = f(bitmap[i])` -/
def modifyWord (ws : List (BitVec w)) (i : Nat) (f : BitVec w → BitVec w) : Option (List (BitVec w)) := do
  let x ← ws[i]?
  some (ws.set i (f x))

/-- `memset(dst, byte, n words)`, for the word `x` made of that byte. -/
def memsetWords (ws : List (BitVec w)) (n : Nat) (x : BitVec w) : Option (List (BitVec w)) :=
  if n ≤ ws.length then some (List.replicate n x ++ ws.drop n) else none

/-- `memcpy(dst, src, n words)` -/
def memcpyWords (ws src : List (BitVec w)) (n : Nat) : Option (List (BitVec w)) :=
  if n ≤ ws.length ∧ n ≤ src.length then some (src.take n ++ ws.drop n) else none

/-! ## Whole bitmaps -/

def bitmapZeroLongs (dst : List (BitVec w)) (nbits : Nat) : Option (List (BitVec w)) :=
  memsetWords dst (bitsToLongs w nbits) 0#w

def bitmapZero (dst : List (BitVec w)) (nbits : Nat) : Option (List (BitVec w)) :=
  if nbits ≤ bitsPerLong then modifyWord dst 0 fun _ => 0#w else bitmapZeroLongs dst nbits

/-- `bitmap_fill`; the index of the last word wraps when there is none. -/
def bitmapFill (dst : List (BitVec w)) (nbits : Nat) : Option (List (BitVec w)) := do
  let nlongs := bitsToLongs w nbits
  let dst ← (if nlongs > 1 then memsetWords dst (nlongs - 1) (~~~ 0#w) else some dst)
  if nlongs = 0 then none else modifyWord dst (nlongs - 1) fun _ => lastWordMask w nbits

def bitmapCopyLongs (dst src : List (BitVec w)) (nbits : Nat) : Option (List (BitVec w)) :=
  memcpyWords dst src (bitsToLongs w nbits)

def bitmapCopy (dst src : List (BitVec w)) (nbits : Nat) : Option (List (BitVec w)) :=
  if nbits ≤ bitsPerLong then do
    let x ← src[0]?
    modifyWord dst 0 fun _ => x
  else bitmapCopyLongs dst src nbits

/-- `for (k = ..; k < lim; ++k) if (view(bitmap[k])) return 0;`, with `lim - k` rounds left: whether
it returns. -/
def anyWord (view : BitVec w → BitVec w) (ws : List (BitVec w)) : Nat → Nat → Option Bool
  | _, 0 => some false
  | k, left + 1 => do
    let x ← ws[k]?
    if view x ≠ 0#w then some true else anyWord view ws (k + 1) left

/-- The common shape of `__bitmap_empty` and `__bitmap_full`: no bit of `view` is set below `bits`. -/
def noneLongs (view : BitVec w → BitVec w) (bitmap : List (BitVec w)) (bits : Nat) : Option Int := do
  let lim := bits / bitsPerLong
  if ← anyWord view bitmap 0 lim then some 0
  else if bits % bitsPerLong ≠ 0 then do
    let x ← bitmap[lim]?
    if view x &&& lastWordMask w bits ≠ 0#w then some 0 else some 1
  else some 1

/-- The common shape of `bitmap_empty` and `bitmap_full`. -/
def noneBits (view : BitVec w → BitVec w) (src : List (BitVec w)) (nbits : Nat) : Option Int :=
  if nbits ≤ bitsPerLong then do
    let x ← src[0]?
    some (if view x &&& lastWordMask w nbits = 0#w then 1 else 0)
  else noneLongs view src nbits

/-- `__bitmap_empty` -/
def bitmapEmptyLongs (bitmap : List (BitVec w)) (bits : Nat) : Option Int := noneLongs id bitmap bits

def bitmapEmpty (src : List (BitVec w)) (nbits : Nat) : Option Int := noneBits id src nbits

/-- `__bitmap_full` -/
def bitmapFullLongs (bitmap : List (BitVec w)) (bits : Nat) : Option Int :=
  noneLongs (fun x => ~~~ x) bitmap bits

def bitmapFull (src : List (BitVec w)) (nbits : Nat) : Option Int := noneBits (fun x => ~~~ x) src nbits

/-- The loop of `bitmap_find_empty` from word `i`, with `left` words to go. A sum past `INT_MAX` can
only follow the last word, and is not used. -/
def findEmptyFrom (bitmap : List (BitVec w)) (nbits : Nat) : Nat → Nat → Nat → Option Int
  | _, 0, _ => some (-1)
  | i, left + 1, offset => do
    let x ← bitmap[i]?
    if x = ~~~ 0#w then findEmptyFrom bitmap nbits (i + 1) left (offset + bitsPerLong)
    else match (List.range bitsPerLong).find? fun j => (x >>> j) &&& 1#w == 0#w with
      | some j => some (if offset + j ≥ nbits then -1 else (offset + j : Nat))
      | none => findEmptyFrom bitmap nbits (i + 1) left offset

def bitmapFindEmpty (bitmap : List (BitVec w)) (nbits : Nat) : Option Int :=
  findEmptyFrom bitmap nbits 0 (bitsToLongs w nbits) 0

/-! ## Text

A text has the digits of the last word first. -/

/-- `"%08lx"` -/
def hex08 (x : BitVec w) : List Byte := printHex 8 x.toNat

/-- The loop of `bitmap_map2str` over the words below `i`, from the last one on: `out_len` and the
buffer. `sprintf` writes the terminator, too. -/
def map2strFrom (bitmap : List (BitVec w)) : Nat → Nat → List Byte → Option (Nat × List Byte)
  | 0, outLen, str => some (outLen, str)
  | i + 1, outLen, str => do
    let x ← bitmap[i]?
    let str ← storeBytes str outLen (hex08 x ++ [0])
    map2strFrom bitmap i (outLen + (hex08 x).length) str

/-- `bitmap_map2str`: the return value and the buffer. -/
def bitmapMap2str (str : List Byte) (bitmap : List (BitVec w)) (nbits : Nat) :
    Option (Nat × List Byte) :=
  if nbits ≤ bitsPerLong then do
    let x ← bitmap[0]?
    let str ← storeBytes str 0 (hex08 x ++ [0])
    some ((hex08 x).length, str)
  else do
    let (outLen, str) ← map2strFrom bitmap (bitsToLongs w nbits) 0 str
    let str ← storeBytes str outLen [0]
    some (outLen, str)

/-- What `strncpy(tmp, str + 8 * g, 8)` leaves in `tmp`, whose ninth byte is zero. -/
def group (s : List Byte) (g : Nat) : List Byte := (s.drop (8 * g)).take 8

/-- The loop of `bitmap_str2map` at group `g`, with `left` rounds to go: the return code and the bitmap.
The word is stored before the group is checked, and behind the last word its index is negative. -/
def str2mapFrom (s : List Byte) (size : Nat) :
    Nat → Nat → List (BitVec w) → Option (Int × List (BitVec w))
  | _, 0, bitmap => some (0, bitmap)
  | g, left + 1, bitmap => do
    if size < g + 1 then none
    let bitmap ← modifyWord bitmap (size - g - 1) fun _ => (strtoul w (group s g)).1
    if (strtoul w (group s g)).2 ≠ [] then some (-1, bitmap)
    else str2mapFrom s size (g + 1) left bitmap

/-- `bitmap_str2map`, for the string at the start of the block `str`. The length is an `int`. -/
def bitmapStr2map (bitmap : List (BitVec w)) (nbits : Nat) (str : List Byte) :
    Option (Int × List (BitVec w)) := do
  let s ← cstr str
  let len := i32OfNat s.length
  let size := bitsToLongs w nbits
  if len.tdiv 8 ≠ size then some (-1, bitmap) else str2mapFrom s size 0 ((len.toNat + 7) / 8) bitmap

/-! ## Single bits -/

/-- The word and the bit of an offset past the first word. -/
def placeLongs (offset : Nat) : Nat × Nat :=
  (offset / bitsPerLong, offset - offset / bitsPerLong * bitsPerLong)

/-- The word and the bit of an offset, with the branch for the first word. -/
def place (offset : Nat) : Nat × Nat := if offset < bitsPerLong then (0, offset) else placeLongs offset

def bitmapSet (bitmap : List (BitVec w)) (offset : Nat) : Option (List (BitVec w)) :=
  modifyWord bitmap (place offset).1 fun x => x ||| intBit w (place offset).2

def bitmapUnset (bitmap : List (BitVec w)) (offset : Nat) : Option (List (BitVec w)) :=
  modifyWord bitmap (place offset).1 fun x => x &&& intMask w (place offset).2

def bitmapGet (bitmap : List (BitVec w)) (offset : Nat) : Option Int := do
  let x ← bitmap[(place offset).1]?
  some (if x &&& intBit w (place offset).2 ≠ 0#w then 1 else 0)

end Xbitmap
end Xlibc
