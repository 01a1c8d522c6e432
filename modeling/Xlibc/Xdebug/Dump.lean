import Mathlib.Data.List.Forall2
import Xlibc.Base.CInt
import Xlibc.Base.Hex

/-!
# Xlibc.Xdebug.Dump

`xdumphex` of `xdebug.c`. A dump is the list of what it does, in order: the bytes it reads, each by its
place behind `addr`, and its prints, one for each call of `fprintf`. `mem` is the memory at `addr`, which
goes on behind the buffer.

* `xdumpline_hexes`, `xdumpline_texts` : the two columns of a line.
* `xdumphex_lines` : the lines of a dump, whatever is behind the buffer.
* `xdumphex_dumps_iff` : a dump stays in the buffer if and only if its last line is a full one.
-/

namespace Xlibc
namespace Xdebug

/-! ## The code -/

inductive Print where
  | lineno (n : Nat)
  | hex (b : Byte)
  | noHex
  | split
  | middle
  | text (c : Byte)
  | noText
  | newline
  deriving DecidableEq, Repr

def Print.bytes : Print → List Byte
  | .lineno n => '['.toUInt8 :: printHex 4 n ++ [']'.toUInt8, ' '.toUInt8]
  | .hex b => ' '.toUInt8 :: printHex 2 b.toNat
  | .noHex => [' '.toUInt8, ' '.toUInt8, ' '.toUInt8]
  | .split => [' '.toUInt8]
  | .middle => [' '.toUInt8, ' '.toUInt8]
  | .text c => [c]
  | .noText => [' '.toUInt8]
  | .newline => ['\n'.toUInt8]

inductive Act where
  | read (k : Nat)
  | print (p : Print)
  deriving DecidableEq, Repr

/-- `isprint` in the C locale -/
def isprint (c : Byte) : Bool := ' '.toUInt8 ≤ c && c ≤ '~'.toUInt8

/-- `XDUMP_LINE_LEN` -/
def xdumpLineLen : Nat := 16

/-- `split` of `xdumpline` -/
def xdumpSplit : Nat := (xdumpLineLen + 1) / 2

/-- A round of the first loop of `xdumpline`. -/
def hexColumn (mem : Nat → Byte) (addr len i : Nat) : List Act :=
  (if i < len then [.read (addr + i), .print (.hex (mem (addr + i)))] else [.print .noHex]) ++
    if (i + 1) % xdumpSplit = 0 then [.print .split] else []

/-- A round of the second loop, which reads the byte of every column. -/
def textColumn (mem : Nat → Byte) (addr len i : Nat) : List Act :=
  let c := 0x7f &&& mem (addr + i)
  .read (addr + i) ::
    if i < len then [.print (.text (if isprint c then c else '.'.toUInt8))] else [.print .noText]

def xdumpline (mem : Nat → Byte) (lineno addr len : Nat) : List Act :=
  .print (.lineno lineno) :: (List.range xdumpLineLen).flatMap (hexColumn mem addr len) ++
    .print .middle :: (List.range xdumpLineLen).flatMap (textColumn mem addr len)

/-- A round of the loop of `xdumphex`, which steps `i`, an `int`, by the length of a line. -/
def dumpRound (mem : Nat → Byte) (j : Nat) : Nat × List Act → Option (Nat × List Act)
  | (i, out) =>
    if i + xdumpLineLen ≤ intMax then
      some (i + xdumpLineLen, out ++ xdumpline mem j i xdumpLineLen ++ [.print .newline])
    else none

/-- `xdumphex`, with `stdout` open. -/
def xdumphex (mem : Nat → Byte) (len : Nat) : Option (List Act) := do
  let tail := len % xdumpLineLen
  let lineno := len / xdumpLineLen
  let (i, out) ← forInt (dumpRound mem) 0 lineno (0, [])
  if tail ≠ 0 then some (out ++ xdumpline mem lineno i tail ++ [.print .newline]) else some out

/-! ## What a dump shows -/

def Act.hex? : Act → Option Byte
  | .print (.hex b) => some b
  | _ => none

def Act.bytes : Act → List Byte
  | .read _ => []
  | .print p => p.bytes

def Act.text? : Act → Option Byte
  | .print (.text c) => some c
  | _ => none

def printed (acts : List Act) : List Byte := acts.flatMap Act.bytes

def hexes (acts : List Act) : List Byte := acts.filterMap Act.hex?

def texts (acts : List Act) : List Byte := acts.filterMap Act.text?

/-- The character that stands for a byte. -/
def shown (b : Byte) : Byte := if isprint (0x7f &&& b) then 0x7f &&& b else '.'.toUInt8

def endLine (line : List Act) : List Act := line ++ [.print .newline]

def bufferLine (buffer : List Byte) (j : Nat) : List Byte := (buffer.drop (16 * j)).take 16

/-- A line shows the bytes `bs`: the hex value of each, and one character for each. -/
def Shows (acts : List Act) (bs : List Byte) : Prop :=
  .print .newline ∉ acts ∧ hexes acts = bs ∧ texts acts = bs.map shown

/-- A dump reads the buffer only, and shows it line by line. -/
def Dumps (mem : Nat → Byte) (buffer : List Byte) : Prop :=
  ∃ acts lines, xdumphex mem buffer.length = some acts ∧
    (∀ k, .read k ∈ acts → k < buffer.length) ∧ hexes acts = buffer ∧
    acts = lines.flatMap endLine ∧
    List.Forall₂ Shows lines ((List.range ((buffer.length + 15) / 16)).map (bufferLine buffer))

def HoldsBuffer (mem : Nat → Byte) (buffer : List Byte) : Prop := ∀ k b, buffer[k]? = some b → mem k = b

/-! ## A line -/

theorem range_flatMap_if (f : Nat → Byte) (n m : Nat) :
    ((List.range m).flatMap fun i => if i < n then [f i] else []) = (List.range (min n m)).map f := by
  induction m with
  | zero => simp
  | succ m ih =>
    rw [List.range_succ, List.flatMap_append, ih, List.flatMap_singleton]
    by_cases h : m < n
    · rw [if_pos h, Nat.min_eq_right (by omega), Nat.min_eq_right (by omega), List.range_succ,
        List.map_append, List.map_singleton]
    · rw [if_neg h, Nat.min_eq_left (by omega), Nat.min_eq_left (by omega), List.append_nil]

section Line

variable (mem : Nat → Byte) (lineno addr : Nat) {len : Nat} (i : Nat)

@[simp] theorem hexColumn_hexes : (hexColumn mem addr len i).filterMap Act.hex? =
    if i < len then [mem (addr + i)] else [] := by
  unfold hexColumn
  split <;> split <;> rfl

@[simp] theorem hexColumn_texts : (hexColumn mem addr len i).filterMap Act.text? = [] := by
  unfold hexColumn
  split <;> split <;> rfl

@[simp] theorem textColumn_hexes : (textColumn mem addr len i).filterMap Act.hex? = [] := by
  unfold textColumn
  split <;> rfl

@[simp] theorem textColumn_texts : (textColumn mem addr len i).filterMap Act.text? =
    if i < len then [shown (mem (addr + i))] else [] := by
  unfold textColumn
  split <;> rfl

/-- What a projection finds in the columns of a line. -/
theorem xdumpline_filterMap {f : Act → Option Byte} (hl : f (.print (.lineno lineno)) = none)
    (hm : f (.print .middle) = none) : (xdumpline mem lineno addr len).filterMap f =
      ((List.range 16).flatMap fun i => (hexColumn mem addr len i).filterMap f) ++
        (List.range 16).flatMap fun i => (textColumn mem addr len i).filterMap f := by
  rw [xdumpline, List.cons_append, List.filterMap_cons_none hl, List.filterMap_append,
    List.filterMap_cons_none hm, List.filterMap_flatMap, List.filterMap_flatMap, xdumpLineLen]

theorem xdumpline_hexes (hlen : len ≤ 16) :
    hexes (xdumpline mem lineno addr len) = (List.range len).map fun i => mem (addr + i) := by
  rw [hexes, xdumpline_filterMap mem lineno addr rfl rfl]
  simp only [hexColumn_hexes, textColumn_hexes]
  rw [range_flatMap_if, Nat.min_eq_left hlen]
  simp

theorem xdumpline_texts (hlen : len ≤ 16) :
    texts (xdumpline mem lineno addr len) = (List.range len).map fun i => shown (mem (addr + i)) := by
  rw [texts, xdumpline_filterMap mem lineno addr rfl rfl]
  simp only [hexColumn_texts, textColumn_texts]
  rw [range_flatMap_if, Nat.min_eq_left hlen]
  simp

theorem mem_xdumpline {a : Act} : a ∈ xdumpline mem lineno addr len ↔ a = .print (.lineno lineno) ∨
    a = .print .middle ∨ ∃ i < 16, a ∈ hexColumn mem addr len i ∨ a ∈ textColumn mem addr len i := by
  simp only [xdumpline, xdumpLineLen, List.cons_append, List.mem_cons, List.mem_append,
    List.mem_flatMap, List.mem_range]
  grind

theorem newline_notMem_xdumpline : .print .newline ∉ xdumpline mem lineno addr len := by
  rw [mem_xdumpline]
  rintro (h | h | ⟨i, -, h | h⟩)
  · cases h
  · cases h
  · unfold hexColumn at h
    split at h <;> split at h <;> simp at h
  · unfold textColumn at h
    split at h <;> simp at h

/-- The second loop reads all sixteen columns, and the first one nothing more. -/
theorem read_mem_xdumpline {k : Nat} :
    .read k ∈ xdumpline mem lineno addr len ↔ addr ≤ k ∧ k < addr + 16 := by
  rw [mem_xdumpline]
  constructor
  · rintro (h | h | ⟨i, hi, h | h⟩)
    · cases h
    · cases h
    · unfold hexColumn at h
      split at h <;> split at h <;> simp at h <;> omega
    · unfold textColumn at h
      split at h <;> simp at h <;> omega
  · rintro ⟨hlo, hhi⟩
    refine .inr (.inr ⟨k - addr, by omega, .inr ?_⟩)
    rw [textColumn, show addr + (k - addr) = k by omega]
    exact List.mem_cons_self

theorem hexColumn_width : (printed (hexColumn mem addr len i)).length =
    3 + if (i + 1) % 8 = 0 then 1 else 0 := by
  have hhex : (Print.hex (mem (addr + i))).bytes.length = 3 := by
    have hlt : (mem (addr + i)).toNat < 16 ^ 2 := (mem (addr + i)).toNat_lt
    rw [Print.bytes, List.length_cons, printHex_eq (by omega) hlt, hexDigits_length]
  unfold hexColumn printed
  rw [show xdumpSplit = 8 from rfl]
  split <;> split <;> simp [Act.bytes, hhex] <;> rfl

theorem textColumn_width : (printed (textColumn mem addr len i)).length = 1 := by
  unfold textColumn
  split <;> rfl

/-- Every line is printed in the same width, up to the number of lines that `%04x` allows for. -/
theorem xdumpline_width (hline : lineno < 16 ^ 4) :
    (printed (xdumpline mem lineno addr len)).length = 75 := by
  have hhead : (Print.lineno lineno).bytes.length = 7 := by
    rw [Print.bytes, printHex_eq (by omega) hline]
    simp
  have hcols : ∀ f : Nat → List Act, (printed ((List.range 16).flatMap f)).length =
      ((List.range 16).map fun i => (printed (f i)).length).sum := by
    intro f
    rw [printed, List.flatMap_assoc, List.length_flatMap]
    rfl
  have hparts : printed (xdumpline mem lineno addr len) = (Print.lineno lineno).bytes ++
      (printed ((List.range 16).flatMap (hexColumn mem addr len)) ++ (Print.middle.bytes ++
        printed ((List.range 16).flatMap (textColumn mem addr len)))) := by
    simp [printed, xdumpline, xdumpLineLen, Act.bytes]
  rw [hparts, List.length_append, List.length_append, List.length_append, hhead, hcols, hcols]
  simp only [hexColumn_width, textColumn_width]
  rfl

end Line

/-! ## A dump -/

section Dump

variable {mem : Nat → Byte} {buffer : List Byte}

def dumpLine (mem : Nat → Byte) (len j : Nat) : List Act :=
  xdumpline mem j (16 * j) (min 16 (len - 16 * j))

def dumpLines (mem : Nat → Byte) (len n : Nat) : List (List Act) := (List.range n).map (dumpLine mem len)

theorem dumpLines_succ (mem : Nat → Byte) (len n : Nat) :
    (dumpLines mem len (n + 1)).flatMap endLine =
      (dumpLines mem len n).flatMap endLine ++ dumpLine mem len n ++ [.print .newline] := by
  rw [dumpLines, List.range_succ, List.map_append, List.flatMap_append, List.map_singleton,
    List.flatMap_singleton, endLine, ← List.append_assoc]
  rfl

/-- What the loop has printed before round `j`. -/
def Dumped (mem : Nat → Byte) (len j : Nat) (s : Nat × List Act) : Prop :=
  s = (16 * j, (dumpLines mem len j).flatMap endLine)

theorem dumpRound_spec {len j : Nat} (hlen : len < 2 ^ 31) (hj : j < len / 16) {s : Nat × List Act}
    (hs : Dumped mem len j s) : ∃ s', dumpRound mem j s = some s' ∧ Dumped mem len (j + 1) s' := by
  have hmin : min 16 (len - 16 * j) = 16 := by omega
  rw [Dumped] at hs
  subst hs
  refine ⟨_, if_pos (by unfold intMax xdumpLineLen; omega), ?_⟩
  rw [Dumped, dumpLines_succ, dumpLine, hmin]
  rfl

/-- The lines of a dump: as many as the buffer has, the last one shorter. -/
theorem xdumphex_lines (mem : Nat → Byte) {len : Nat} (hlen : len < 2 ^ 31) :
    xdumphex mem len = some ((dumpLines mem len ((len + 15) / 16)).flatMap endLine) := by
  obtain ⟨s, hrun, hs⟩ := forInt_invariant (dumpRound mem) (Dumped mem len) 0 (len / 16) (s := (0, []))
    (by unfold intMax; omega) rfl fun j s _ hj hs => dumpRound_spec hlen (by omega) hs
  rw [Dumped] at hs
  subst hs
  rw [Nat.zero_add] at hrun
  rw [xdumphex, show xdumpLineLen = 16 from rfl, hrun, Option.bind_eq_bind, Option.bind_some]
  by_cases htail : len % 16 = 0
  · have hn : (len + 15) / 16 = len / 16 := by omega
    simp [htail, hn]
  · have hn : (len + 15) / 16 = len / 16 + 1 := by omega
    have hmin : min 16 (len - 16 * (len / 16)) = len % 16 := by omega
    simp [htail, hn, dumpLines_succ, dumpLine, hmin]

theorem bufferLine_eq (hmem : HoldsBuffer mem buffer) (j : Nat) :
    ((List.range (min 16 (buffer.length - 16 * j))).map fun i => mem (16 * j + i)) =
      bufferLine buffer j := by
  refine List.ext_getElem? fun i => ?_
  rw [bufferLine, List.getElem?_map]
  by_cases hi : i < min 16 (buffer.length - 16 * j)
  · have hlt : 16 * j + i < buffer.length := by omega
    rw [List.getElem?_range hi, Option.map_some, hmem _ _ (List.getElem?_eq_getElem hlt),
      List.getElem?_take_of_lt (by omega), List.getElem?_drop, List.getElem?_eq_getElem hlt]
  · rw [List.getElem?_eq_none (by rw [List.length_range]; omega), Option.map_none, List.getElem?_eq_none]
    rw [List.length_take, List.length_drop]
    omega

theorem dumpLine_shows (hmem : HoldsBuffer mem buffer) (j : Nat) :
    Shows (dumpLine mem buffer.length j) (bufferLine buffer j) := by
  have hline := bufferLine_eq hmem j
  refine ⟨newline_notMem_xdumpline _ _ _, ?_, ?_⟩
  · rw [dumpLine, xdumpline_hexes _ _ _ (Nat.min_le_left _ _), hline]
  · rw [dumpLine, xdumpline_texts _ _ _ (Nat.min_le_left _ _), ← hline, List.map_map]
    rfl

theorem bufferLine_flatMap (buffer : List Byte) (n : Nat) :
    (List.range n).flatMap (bufferLine buffer) = buffer.take (16 * n) := by
  induction n with
  | zero => rfl
  | succ n ih =>
    rw [List.range_succ, List.flatMap_append, ih, List.flatMap_singleton, bufferLine, Nat.mul_succ,
      List.take_add]

theorem dumpLines_hexes (hmem : HoldsBuffer mem buffer) (n : Nat) :
    hexes ((dumpLines mem buffer.length n).flatMap endLine) = buffer.take (16 * n) := by
  rw [← bufferLine_flatMap, hexes, List.filterMap_flatMap, dumpLines, List.flatMap_map]
  congr 1
  funext j
  rw [endLine, List.filterMap_append]
  exact (List.append_nil _).trans (dumpLine_shows hmem j).2.1

theorem read_mem_dumpLines {len n k : Nat} :
    .read k ∈ (dumpLines mem len n).flatMap endLine ↔ k < 16 * n := by
  simp only [dumpLines, List.flatMap_map, List.mem_flatMap, List.mem_range, endLine, List.mem_append,
    dumpLine, read_mem_xdumpline, List.mem_singleton, reduceCtorEq, or_false]
  constructor
  · rintro ⟨j, hj, hlo, hhi⟩
    omega
  · intro hk
    exact ⟨k / 16, by omega, by omega, by omega⟩

/-- **Dumps of a buffer.** Whatever is behind the buffer, its bytes are printed in order, and one
character for each. The buffer is all that is read if and only if its last line is a full one. -/
theorem xdumphex_dumps_iff (hlen : buffer.length < 2 ^ 31) (hmem : HoldsBuffer mem buffer) :
    Dumps mem buffer ↔ buffer.length % 16 = 0 := by
  have hrun := xdumphex_lines mem hlen
  constructor
  · rintro ⟨acts, -, hacts, hread, -⟩
    rw [hrun, Option.some.injEq] at hacts
    subst hacts
    by_contra hmod
    have hlast := hread buffer.length (read_mem_dumpLines.mpr (by omega))
    omega
  · intro hmod
    refine ⟨_, dumpLines mem buffer.length ((buffer.length + 15) / 16), hrun, fun k hk => ?_, ?_, rfl, ?_⟩
    · have hlt := read_mem_dumpLines.mp hk
      omega
    · rw [dumpLines_hexes hmem, List.take_of_length_le (by omega)]
    · rw [dumpLines, List.forall₂_map_left_iff, List.forall₂_map_right_iff, List.forall₂_same]
      exact fun j _ => dumpLine_shows hmem j

end Dump

theorem xdumphex_dumps_full : Dumps (fun _ => 65) (List.replicate 16 65) :=
  (xdumphex_dumps_iff (by decide) fun _ _ h => (List.eq_of_mem_replicate (List.mem_of_getElem? h)).symm).mpr
    (by decide)

def text123 : List Byte := ['1'.toUInt8, '2'.toUInt8, '3'.toUInt8]

/-- Three bytes: the text column reads the thirteen behind them. -/
theorem xdumphex_reads_behind : ¬ ∀ (mem : Nat → Byte) (buffer : List Byte), buffer.length < 2 ^ 31 →
    HoldsBuffer mem buffer → Dumps mem buffer := by
  intro h
  have hmem : HoldsBuffer (fun k => text123[k]?.getD 0) text123 := by
    intro k b hb
    simp [hb]
  obtain ⟨acts, -, hacts, hread, -⟩ := h _ text123 (by decide) hmem
  rw [xdumphex_lines _ (by decide), Option.some.injEq] at hacts
  subst hacts
  have hlast := hread 15 (read_mem_dumpLines.mpr (by decide))
  exact absurd hlast (by decide)

end Xdebug
end Xlibc
