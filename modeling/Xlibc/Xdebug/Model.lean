import Mathlib.Data.List.Infix
import Xlibc.Base.CStr
import Xlibc.Base.Fs

/-!
# Xlibc.Xdebug.Model

The log of `xdebug.c`: its destination, and writing to it.

The state is `xlogctl` and what it writes to. `stdout` and `stderr` are what has been written to these
streams, and `errSize` is the size that `fstat` finds for `stderr` then: of a file if it has been redirected,
of nothing if `fstat` fails. What `xerror` prints, and `atexit`, are left out.
-/

namespace Xlibc
namespace Xdebug

def chars (cs : List Char) : List Byte := cs.map Char.toUInt8

def pathMax : Nat := 4096

/-- `snprintf(block, size, "%s", ..)`: the string in the block. -/
def snprintf (size : Nat) (s : List Byte) : List Byte := s.take (size - 1)

inductive Stream where
  | stdout
  | stderr
  | file (i : Nat)
deriving DecidableEq, Repr

structure Xlog where
  file : List Byte
  fp : Option Stream
  fsize : Int
  level : Int
  syslog : Bool
  fs : Fs
  errSize : List Byte → Option Nat
  stdout : List Byte
  stderr : List Byte
  syslogd : List (Int × List Byte)

/-- `xlogctl` at the start of a program. -/
def Xlog.init (fs : Fs) (errSize : List Byte → Option Nat) : Xlog where
  file := chars ['s', 'y', 's', 'l', 'o', 'g']
  fp := none
  fsize := 1024 * 64
  level := 7
  syslog := true
  fs := fs
  errSize := errSize
  stdout := []
  stderr := []
  syslogd := []

/-- `close old fp` -/
def Xlog.closeOld (s : Xlog) : Xlog :=
  if s.fp ≠ none ∧ s.fp ≠ some .stdout ∧ s.fp ≠ some .stderr then { s with fp := none } else s

/-- The path that `xlogfile` puts together: with the suffix `.log` and in `/var/log`. -/
def logPath (logfile : List Byte) : List Byte :=
  let file :=
    if chars ['.', 'l', 'o', 'g'] <:+: logfile then snprintf pathMax logfile
    else snprintf pathMax (logfile ++ chars ['.', 'l', 'o', 'g'])
  if logfile.head? ≠ some '/'.toUInt8 then
    snprintf pathMax (snprintf pathMax
      (chars ['/', 'v', 'a', 'r', '/', 'l', 'o', 'g'] ++ '/'.toUInt8 :: file))
  else file

/-- `xlogctl.fp = fopen(xlogctl.file, "a+")` -/
def Xlog.openFile (s : Xlog) : Int × Xlog :=
  match s.fs.fopen s.file with
  | some r => (0, { s with fp := some (.file r.2), fs := r.1 })
  | none => (-1, { s with fp := none })

/-- `xlogfile` -/
def xlogfile (newfile : Option (List Byte)) (s : Xlog) : Int × Xlog :=
  let s := s.closeOld
  match newfile with
  | none => (-1, s)
  | some newfile =>
    let logfile := snprintf pathMax newfile
    let s := { s with syslog := false }
    if logfile = chars ['s', 'y', 's', 'l', 'o', 'g'] then (0, { s with syslog := true })
    else if logfile = chars ['s', 't', 'd', 'o', 'u', 't'] then (0, { s with fp := some .stdout })
    else if logfile = chars ['s', 't', 'd', 'e', 'r', 'r'] then (0, { s with fp := some .stderr })
    else { s with file := logPath logfile }.openFile

/-- `stat.st_size` -/
def Xlog.statSize (s : Xlog) : Stream → Option Nat
  | .stdout => none
  | .stderr => s.errSize s.stderr
  | .file i => some (s.fs.content i).length

/-- `unlink(swap)`, `rename(xlogctl.file, swap)` -/
def Xlog.moveFile (s : Xlog) : Xlog :=
  let swap := snprintf pathMax (s.file ++ chars ['.', 's', 'w', 'a', 'p'])
  { s with fs := (s.fs.unlink swap).rename s.file swap }

/-- `xlogswap`. `stdout` is tested twice, and `stderr` is not. -/
def xlogswap (s : Xlog) : Int × Xlog :=
  if s.fsize = 0 ∨ s.fp = none ∨ s.fp = some .stdout ∨ s.fp = some .stdout then (0, s)
  else
    match s.fp.bind s.statSize with
    | none => (-1, s)
    | some size => if (size : Int) ≥ s.fsize then xlogfile (some s.file) s.moveFile else (0, s)

/-! ## Messages -/

/-- A call of `_xsyslog`: `errno` is `strerror(errno)`, `msg` is what `vasprintf` makes of `fmt`, if there is
memory for it, and `tstr` is the text of the time. -/
structure Message where
  priority : Int
  filename : Option (List Byte)
  line : Int
  funcname : Option (List Byte)
  errno : List Byte
  msg : Option (List Byte)
  tstr : List Byte

/-- `"%d"` -/
def decimal (n : Int) : List Byte := (toString n).toList.map Char.toUInt8

/-- `mark`: where the call stands in the source, and for errors also `errno`. -/
def Message.mark (m : Message) : List Byte :=
  match m.filename, m.funcname with
  | some filename, some funcname =>
    snprintf 1024 (chars ['='] ++ rindexAfter filename '/'.toUInt8 ++ chars ['/'] ++ funcname ++ chars ['('] ++
      decimal m.line ++ (if m.priority ≤ 3 then chars [','] ++ m.errno else []) ++ chars [')', '=', ' '])
  | _, _ => []

/-- `xlogtimestamp`: what it prints in front of a record in a file. The newline of `tstr` is left out. -/
def Message.timestamp (m : Message) : List Byte :=
  if m.tstr.length ≤ 0 then [] else chars ['['] ++ m.tstr.dropLast ++ chars [']', ' ']

/-- Where a record goes. -/
inductive Sink where
  | syslog
  | stream (fp : Stream)
deriving DecidableEq, Repr

/-- The output of one record to an open stream. -/
def Xlog.output (s : Xlog) (m : Message) (msg : List Byte) : Stream → Xlog
  | .stdout => { s with stdout := s.stdout ++ (m.mark ++ msg) }
  | .stderr => { s with stderr := s.stderr ++ (m.mark ++ msg) }
  | .file i => { s with fs := s.fs.append i (m.timestamp ++ (m.mark ++ msg)) }

/-- The copy on `stderr`, with `XLOG_WITH_PRINT`. -/
def Xlog.printCopy (s : Xlog) (m : Message) (msg : List Byte) : Xlog :=
  if s.fp ≠ some .stdout ∧ s.fp ≠ some .stderr then { s with stderr := s.stderr ++ (m.mark ++ msg) } else s

/-- The part of `_xsyslog` that writes. If `xlogswap` could not open the log file again, `fprintf` is
called without a stream. -/
def Xlog.emit (s : Xlog) (m : Message) (msg : List Byte) : Option (Sink × Xlog) :=
  if s.fp ≠ none then do
    let s := (xlogswap s).2
    let fp ← s.fp
    some (.stream fp, (s.output m msg fp).printCopy m msg)
  else
    some (.syslog, { s with syslogd := s.syslogd ++ [(m.priority, m.mark ++ msg)] }.printCopy m msg)

def memoryExhausted : List Byte :=
  chars ['M', 'e', 'm', 'o', 'r', 'y', ' ', 'e', 'x', 'h', 'a', 'u', 's', 't', 'e', 'd', '!', '\n']

/-- `_xsyslog`: where the record goes, if anywhere. -/
def xsyslog (m : Message) (s : Xlog) : Option (Option Sink × Xlog) :=
  if m.priority > s.level then some (none, s)
  else if s.syslog = false ∧ s.fp = none then some (none, s)
  else
    match m.msg with
    | none => some (none, { s with stderr := s.stderr ++ memoryExhausted })
    | some msg => (s.emit m msg).map fun r => (some r.1, r.2)

end Xdebug
end Xlibc
