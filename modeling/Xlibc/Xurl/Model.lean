import Xlibc.Base.CInt
import Xlibc.Base.Hex

/-!
# Xlibc.Xurl.Model

`xurl_escape` and `xurl_unescape`. A block of memory is the list of its bytes, and an access outside of
it has no result. An `input` is what is readable from the pointer on. Blocks come from `malloc` and
`realloc`: `grant` says which sizes are granted, and `fill` is what new memory holds. A result `none`
is `NULL`.

The sizes of the escape buffer are at most twice the size of a block that has been granted, so they are
`Nat`s that never wrap.
-/

namespace Xlibc
namespace Xurl

/-- `url_is_unreserved` -/
def urlIsUnreserved (c : Byte) : Bool :=
  ('0'.toUInt8 ≤ c && c ≤ '9'.toUInt8) || ('a'.toUInt8 ≤ c && c ≤ 'z'.toUInt8) ||
    ('A'.toUInt8 ≤ c && c ≤ 'Z'.toUInt8) ||
    c == '-'.toUInt8 || c == '.'.toUInt8 || c == '_'.toUInt8 || c == '~'.toUInt8

/-- An upper-case hexadecimal digit. -/
def upperHex (n : Nat) : Byte := UInt8.ofNat (if n < 10 then '0'.toNat + n else 'A'.toNat + (n - 10))

/-- `"%%%02X"` -/
def percentTriple (c : Byte) : List Byte :=
  ['%'.toUInt8, upperHex (c.toNat / 16), upperHex (c.toNat % 16)]

/-- The loop of `xurl_escape` with `length` bytes left, the first of them at `pos`: the final `strindex`
and the block, or `NULL`. `snprintf` writes the terminator too. -/
def escapeLoop (grant : Nat → Bool) (fill : Byte) (input : List Byte) :
    Nat → Nat → Nat → Nat → Nat → List Byte → Option (Option (Nat × List Byte))
  | 0, _, _, _, strindex, ns => some (some (strindex, ns))
  | length + 1, pos, alloc, newlen, strindex, ns => do
    let c ← input[pos]?
    if urlIsUnreserved c then do
      let ns ← storeBytes ns strindex [c]
      escapeLoop grant fill input length (pos + 1) alloc newlen (strindex + 1) ns
    else if newlen + 2 > alloc then
      if grant (alloc * 2) = false then some none
      else do
        let ns ← storeBytes (reallocBytes fill ns (alloc * 2)) strindex (percentTriple c ++ [0])
        escapeLoop grant fill input length (pos + 1) (alloc * 2) (newlen + 2) (strindex + 3) ns
    else do
      let ns ← storeBytes ns strindex (percentTriple c ++ [0])
      escapeLoop grant fill input length (pos + 1) alloc (newlen + 2) (strindex + 3) ns

/-- `(inlen ? (size_t) inlen : strlen(input)) + 1` -/
def escapeSize (input : List Byte) (inlen : Int) : Option Nat :=
  if inlen ≠ 0 then some (((inlen % 2 ^ 64).toNat + 1) % 2 ^ 64)
  else (cstr input).map fun s => s.length + 1

/-- `xurl_escape` -/
def xurlEscape (grant : Nat → Bool) (fill : Byte) (input : List Byte) (inlen : Int) :
    Option (Option (List Byte)) := do
  let alloc ← escapeSize input inlen
  if grant alloc = false then some none
  else do
    let length := if alloc = 0 then 2 ^ 64 - 1 else alloc - 1
    match ← escapeLoop grant fill input length 0 alloc alloc 0 (List.replicate alloc fill) with
    | none => some none
    | some (strindex, ns) => do
      let ns ← storeBytes ns strindex [0]
      some (some ns)

/-! ## xurl_unescape -/

/-- `strtoul(s, NULL, 16)` of at most two characters: no digit can follow a `0x`, and nothing is out
of range. A value with a minus sign is negated in `unsigned long`. -/
def strtoul16 (s : List Byte) : Nat :=
  match s.dropWhile isspace with
  | [] => 0
  | c :: t =>
    if c = '-'.toUInt8 then (2 ^ 64 - hexNumber 0 t) % 2 ^ 64
    else if c = '+'.toUInt8 then hexNumber 0 t
    else hexNumber 0 (c :: t)

/-- The loop of `xurl_unescape`: `base` is how far `input` has been moved, and `count` is an `int`. Every
round reads further, so the rounds are bounded by the bytes that can be read. -/
def unescapeLoop (input : List Byte) : Nat → Nat → Nat → List Byte → Option (List Byte)
  | 0, _, _, _ => none
  | fuel + 1, base, count, result => do
    let c ← input[base + count]?
    if c = 0 then storeBytes result count [0]
    else if c = '%'.toUInt8 then do
      if count + 2 > intMax then none
      let h ← input[base + (count + 1)]?
      let l ← input[base + (count + 2)]?
      let result ← storeBytes result count [UInt8.ofNat (strtoul16 [h, l])]
      unescapeLoop input fuel (base + 2) (count + 1) result
    else do
      let result ← storeBytes result count [c]
      if count = intMax then none
      unescapeLoop input fuel base (count + 1) result

/-- `xurl_unescape` -/
def xurlUnescape (grant : Nat → Bool) (fill : Byte) (input : List Byte) : Option (Option (List Byte)) := do
  let s ← cstr input
  if grant (s.length + 1) = false then some none
  else do
    let result ← unescapeLoop input (input.length + 1) 0 0 (List.replicate (s.length + 1) fill)
    some (some result)

end Xurl
end Xlibc
