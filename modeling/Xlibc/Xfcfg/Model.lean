import Mathlib.Logic.Function.Basic
import Xlibc.Base.CInt
import Xlibc.Xcharstr.Strip

/-!
# Xlibc.Xfcfg.Model

`xfcfg_from_file`: defaults, and then assignments read line by line into one buffer of 1024 bytes. A
pointer into the buffer is a position, and an access outside of the buffer has no result.

Variables are named by `ν` and hold an `α`. `calls` are the calls of `parse` so far; `out` is what has
been printed. `line` is only printed.
-/

namespace Xlibc
namespace Xfcfg

open Xcharstr

/-- `xfcfg_option_t`. `parse` reads a text into the content of a variable, and returns a negative number
if it could not. A table is the entries in front of the one without a `parse`. -/
structure XfcfgOption (ν α : Type) where
  name : CString
  parse : List Byte → α → Int × α
  value : ν
  default : CString

abbrev Call (ν α : Type) : Type := XfcfgOption ν α × List Byte

inductive Message where
  | unableToOpen (path : List Byte)
  | defaultError (name : List Byte)
  | cantAnalyse (line : Int) (text : List Byte)
  | read (name val : List Byte)
  | valueError (name : List Byte)
deriving DecidableEq, Repr

structure Cfg (ν α : Type) where
  vars : ν → α
  calls : List (Call ν α)
  out : List Message

variable {ν α : Type}

def Cfg.print (s : Cfg ν α) (m : Message) : Cfg ν α := { s with out := s.out ++ [m] }

variable [DecidableEq ν]

/-- `ret = parse(text, value)`, and `error` if it is negative. -/
def Cfg.parse (s : Cfg ν α) (o : XfcfgOption ν α) (text : List Byte) (error : Message) : Cfg ν α :=
  { vars := Function.update s.vars o.value (o.parse text (s.vars o.value)).2
    calls := s.calls ++ [(o, text)]
    out := if (o.parse text (s.vars o.value)).1 < 0 then s.out ++ [error] else s.out }

/-- `load default value` -/
def loadDefaults : List (XfcfgOption ν α) → Cfg ν α → Cfg ν α
  | [], s => s
  | o :: os, s =>
    if o.default.val.length = 0 then loadDefaults os s
    else loadDefaults os (s.parse o o.default.val (.defaultError o.name.val))

/-- The search for the option called `name`. -/
def assign (name val : List Byte) : List (XfcfgOption ν α) → Cfg ν α → Cfg ν α
  | [], s => s
  | o :: os, s =>
    if o.name.val ≠ name then assign name val os s
    else s.parse o val (.valueError o.name.val)

/-- The comment of a line is cut off at its first `#`. -/
def cutComment (buf : List Byte) : Option (List Byte) := do
  match ← strchr buf 0 '#'.toUInt8 with
  | some comment => storeBytes buf comment [0]
  | none => some buf

/-- The loop body behind the search for `=`, which is at `val`. -/
def splitLine (table : List (XfcfgOption ν α)) (buf : List Byte) (val : Nat) (s : Cfg ν α) :
    Option (List Byte × Cfg ν α) := do
  let buf ← storeBytes buf val [0]
  let name ← xstrstrip buf 0
  let val ← xstrstrip name.1 (val + 1)
  let c ← val.1[val.2]?
  if c = 0 then some (val.1, s)
  else do
    let nameText ← cstr (val.1.drop name.2)
    let valText ← cstr (val.1.drop val.2)
    some (val.1, assign nameText valText table (s.print (.read nameText valText)))

/-- The loop body on the stripped line, which starts at `name`. -/
def nameLine (table : List (XfcfgOption ν α)) (line : Nat) (buf : List Byte) (name : Nat) (s : Cfg ν α) :
    Option (List Byte × Cfg ν α) := do
  let text ← cstr (buf.drop name)
  if text.length = 0 then some (buf, s)
  else
    match ← strchr buf name '='.toUInt8 with
    | some val => splitLine table buf val s
    | none => do
      let text ← cstr buf
      some (buf, s.print (.cantAnalyse (i32OfNat line) text))

/-- One line in the buffer. -/
def lineStep (table : List (XfcfgOption ν α)) (line : Nat) (buf : List Byte) (s : Cfg ν α) :
    Option (List Byte × Cfg ν α) := do
  let c ← buf[0]?
  if c = '#'.toUInt8 then some (buf, s)
  else do
    let buf ← cutComment buf
    let name ← xstrstrip buf 0
    nameLine table line name.1 name.2 s

/-- `while(fgets(read_buf, 1024, fp) != 0)`. Every round reads something, so the rounds are bounded by
the bytes of the file. -/
def readLoop (table : List (XfcfgOption ν α)) :
    Nat → List Byte → Nat → List Byte → Cfg ν α → Option (Cfg ν α)
  | 0, _, _, _, _ => none
  | fuel + 1, file, line, buf, s =>
    if file = [] then some s
    else do
      let buf ← storeBytes buf 0 (piece '\n'.toUInt8 1023 file ++ [0])
      let r ← lineStep table (line + 1) buf s
      readLoop table fuel (file.drop (piece '\n'.toUInt8 1023 file).length) (line + 1) r.1 r.2

/-- `xfcfg_from_file` on a file with content `file`, or one that cannot be opened. -/
def xfcfgFromFile (table : List (XfcfgOption ν α)) (path : List Byte) (file : Option (List Byte))
    (vars : ν → α) : Option (Int × Cfg ν α) :=
  let s : Cfg ν α := { vars := vars, calls := [], out := [] }
  match file with
  | none => some (-1, s.print (.unableToOpen path))
  | some file => do
    let s ← readLoop table (file.length + 1) file 0 (List.replicate 1024 0) (loadDefaults table s)
    some (0, s)

end Xfcfg
end Xlibc
