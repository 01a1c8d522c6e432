import Xlibc.Xfcfg.Correct

/-!
# Xlibc.Xfcfg.Comment

Lines that start with `#`. `fgets` cuts a long line into pieces, and only the first one starts with the
`#`.

* `HashLine`      : such a line in a file.
* `hash_line_iff` : it has no effect if and only if no later piece of it is an assignment.
-/

namespace Xlibc
namespace Xfcfg

variable {ν α : Type}

/-- A file with a line that starts with `#`, up to its newline or to the end of the file. -/
structure HashLine where
  before : List Byte
  line : List Byte
  after : List Byte
  fresh : before = [] ∨ before.getLast? = some newline
  hash : line.head? = some '#'.toUInt8
  whole : (∃ t, newline ∉ t ∧ line = t ++ [newline]) ∨ (newline ∉ line ∧ after = [])

def HashLine.file (f : HashLine) : List Byte := f.before ++ f.line ++ f.after

/-- The file without the line. -/
def HashLine.deleted (f : HashLine) : List Byte := f.before ++ f.after

/-- The line has no effect for options with these names, whatever their parsers and defaults are: without
it all variables end with the same values. -/
def HashLine.Ignored (f : HashLine) (names : List CString) : Prop :=
  ∀ (ν α : Type) [DecidableEq ν] (table : List (XfcfgOption ν α)) (path : List Byte) (vars : ν → α),
    table.map (fun o => o.name) = names →
    ∃ s s', xfcfgFromFile table path (some f.file) vars = some (0, s) ∧
      xfcfgFromFile table path (some f.deleted) vars = some (0, s') ∧ s.vars = s'.vars

/-- No piece of the line behind the first is an assignment to one of the options. -/
def HashLine.Harmless (f : HashLine) (names : List CString) : Prop :=
  ∀ p ∈ (pieces newline 1023 f.line).tail, ∀ a, assignment (p.takeWhile (· ≠ 0)) = some a →
    ∀ n ∈ names, n.val ≠ a.1

theorem lineCalls_eq_nil_iff {table : List (XfcfgOption ν α)} {line : List Byte} :
    lineCalls table line = [] ↔
      ∀ a, assignment line = some a → ∀ n ∈ table.map (fun o => o.name), n.val ≠ a.1 := by
  rw [lineCalls]
  cases assignment line with
  | none => simp
  | some a =>
    have hfind : assignCalls table a.1 a.2 = [] ↔ ∀ o ∈ table, o.name.val ≠ a.1 := by
      simp [assignCalls]
    rw [Option.toList_some, List.flatMap_singleton, hfind]
    constructor
    · intro h b hb n hn
      cases hb
      obtain ⟨o, ho, rfl⟩ := List.mem_map.mp hn
      exact h o ho
    · intro h o ho
      exact h a rfl o.name (List.mem_map.mpr ⟨o, ho, rfl⟩)

/-- The calls that the line adds to those of the rest of the file. -/
def HashLine.calls (f : HashLine) (table : List (XfcfgOption ν α)) : List (Call ν α) :=
  (pieces newline 1023 f.line).tail.flatMap (pieceCalls table)

theorem HashLine.calls_eq_nil_iff (f : HashLine) (table : List (XfcfgOption ν α)) :
    f.calls table = [] ↔ f.Harmless (table.map fun o => o.name) := by
  rw [HashLine.calls, List.flatMap_eq_nil_iff, HashLine.Harmless]
  exact forall₂_congr fun p _ => lineCalls_eq_nil_iff

/-- The piece with the `#` is skipped. -/
theorem HashLine.flatMap_pieces (f : HashLine) (table : List (XfcfgOption ν α)) :
    (pieces newline 1023 f.line).flatMap (pieceCalls table) = f.calls table := by
  rw [HashLine.calls]
  cases hline : f.line with
  | nil =>
    have hhash := f.hash
    rw [hline] at hhash
    cases hhash
  | cons c l =>
    have hhash := f.hash
    rw [hline, List.head?_cons, Option.some.injEq] at hhash
    subst hhash
    have hfirst : pieceCalls table (piece newline 1023 ('#'.toUInt8 :: l)) = [] := by
      rw [piece, if_neg (by decide), pieceCalls]
      refine lineCalls_none table _ ?_
      rw [List.takeWhile_cons_of_pos (by decide), uncommented, List.takeWhile_cons_of_neg (by decide)]
      simp
    rw [pieces_cons newline (by omega) (List.cons_ne_nil _ _), List.flatMap_cons, hfirst, List.tail_cons,
      List.nil_append]

theorem HashLine.fileCalls_deleted (f : HashLine) (table : List (XfcfgOption ν α)) :
    fileCalls table f.deleted = defaultCalls table ++
      ((pieces newline 1023 f.before).flatMap (pieceCalls table) ++
        (pieces newline 1023 f.after).flatMap (pieceCalls table)) := by
  rw [fileCalls, HashLine.deleted, pieces_append (by omega) f.fresh, List.flatMap_append]

theorem HashLine.fileCalls_file (f : HashLine) (table : List (XfcfgOption ν α)) :
    fileCalls table f.file = defaultCalls table ++
      ((pieces newline 1023 f.before).flatMap (pieceCalls table) ++ (f.calls table ++
        (pieces newline 1023 f.after).flatMap (pieceCalls table))) := by
  have hline : pieces newline 1023 (f.line ++ f.after) =
      pieces newline 1023 f.line ++ pieces newline 1023 f.after := by
    cases f.whole with
    | inl hend =>
      obtain ⟨t, -, ht⟩ := hend
      refine pieces_append (by omega) (.inr ?_) f.after
      rw [ht, List.getLast?_concat]
    | inr hlast => rw [hlast.2, List.append_nil, pieces_nil, List.append_nil]
  rw [fileCalls, HashLine.file, List.append_assoc, pieces_append (by omega) f.fresh, hline,
    List.flatMap_append, List.flatMap_append, f.flatMap_pieces]

theorem HashLine.Harmless.ignored {f : HashLine} {names : List CString} (h : f.Harmless names) :
    f.Ignored names := by
  intro ν α _ table path vars hnames
  obtain ⟨s, hrun, -, hvars⟩ := xfcfgFromFile_spec table path f.file vars
  obtain ⟨s', hrun', -, hvars'⟩ := xfcfgFromFile_spec table path f.deleted vars
  have hnil : f.calls table = [] := by
    rw [f.calls_eq_nil_iff, hnames]
    exact h
  refine ⟨s, s', hrun, hrun', ?_⟩
  rw [hvars, hvars', f.fileCalls_file, hnil, f.fileCalls_deleted, List.nil_append]

/-- Options that count in one variable how often they are parsed. -/
def countTable (names : List CString) : List (XfcfgOption Unit Nat) :=
  names.map fun n => { name := n, parse := fun _ k => (0, k + 1), value := (), default := ⟨[], List.not_mem_nil⟩ }

theorem countTable_names (names : List CString) : (countTable names).map (fun o => o.name) = names := by
  rw [countTable, List.map_map]
  exact List.map_id names

theorem runCalls_count (names : List CString) {cs : List (Call Unit Nat)}
    (hcs : ∀ c ∈ cs, c.1 ∈ countTable names) (vars : Unit → Nat) :
    runCalls vars cs () = vars () + cs.length := by
  induction cs generalizing vars with
  | nil => rfl
  | cons c cs ih =>
    have hc := hcs c List.mem_cons_self
    obtain ⟨n, -, hn⟩ := List.mem_map.mp hc
    have hcount : applyCall vars c () = vars () + 1 := by
      rw [applyCall, ← hn]
      rfl
    rw [runCalls, List.foldl_cons, ← runCalls, ih (fun d hd => hcs d (List.mem_cons_of_mem c hd)), hcount,
      List.length_cons]
    omega

theorem HashLine.Ignored.harmless {f : HashLine} {names : List CString} (h : f.Ignored names) :
    f.Harmless names := by
  obtain ⟨s, s', hrun, hrun', hsame⟩ := h Unit Nat (countTable names) [] (fun _ => 0) (countTable_names names)
  obtain ⟨t, ht, -, hvars⟩ := xfcfgFromFile_spec (countTable names) [] f.file (fun _ => 0)
  obtain ⟨t', ht', -, hvars'⟩ := xfcfgFromFile_spec (countTable names) [] f.deleted (fun _ => 0)
  rw [hrun] at ht
  rw [hrun'] at ht'
  cases ht
  cases ht'
  rw [hvars, hvars'] at hsame
  have hcount := congrFun hsame ()
  rw [runCalls_count names (fun c hc => mem_fileCalls hc), runCalls_count names (fun c hc => mem_fileCalls hc),
    f.fileCalls_file, f.fileCalls_deleted] at hcount
  have hlen : (f.calls (countTable names)).length = 0 := by
    simp only [List.length_append] at hcount
    omega
  rw [List.length_eq_zero_iff, f.calls_eq_nil_iff, countTable_names] at hlen
  exact hlen

/-- **Comment lines.** A line that starts with `#` has no effect if and only if no piece of 1023 bytes
behind its first is an assignment. -/
theorem hash_line_iff (f : HashLine) (names : List CString) : f.Ignored names ↔ f.Harmless names :=
  ⟨fun h => h.harmless, fun h => h.ignored⟩

theorem newline_notMem_long : newline ∉ List.replicate 1023 '#'.toUInt8 := fun h =>
  absurd (List.eq_of_mem_replicate h) (by decide)

/-- 1023 times `#`, and then `a=1`. -/
def longHashLine : HashLine where
  before := []
  line := List.replicate 1023 '#'.toUInt8 ++ ['a'.toUInt8, '='.toUInt8, '1'.toUInt8, newline]
  after := []
  fresh := .inl rfl
  hash := by rw [List.replicate_succ]; rfl
  whole := by
    refine .inl ⟨List.replicate 1023 '#'.toUInt8 ++ ['a'.toUInt8, '='.toUInt8, '1'.toUInt8], ?_, ?_⟩
    · rw [List.mem_append, not_or]
      exact ⟨newline_notMem_long, by decide⟩
    · rw [List.append_assoc]
      rfl

theorem longHashLine_tail : (pieces newline 1023 longHashLine.line).tail =
    [['a'.toUInt8, '='.toUInt8, '1'.toUInt8, newline]] := by
  have hlen : (List.replicate 1023 '#'.toUInt8).length = 1023 := List.length_replicate
  have htake : (List.replicate 1023 '#'.toUInt8 ++ ['a'.toUInt8, '='.toUInt8, '1'.toUInt8, newline]).take 1023 =
      List.replicate 1023 '#'.toUInt8 := List.take_left' hlen
  have hfirst := piece_take 1023 (by rw [htake]; exact newline_notMem_long)
  rw [longHashLine, pieces_cons newline (by omega)
    (List.append_ne_nil_of_right_ne_nil _ (List.cons_ne_nil _ _)), List.tail_cons, hfirst, htake, List.drop_left]
  decide

/-- In `longHashLine` the variable of an option `a` is set. -/
theorem longHashLine_not_ignored : ¬ longHashLine.Ignored [⟨['a'.toUInt8], by decide⟩] := by
  intro h
  have hpiece : ['a'.toUInt8, '='.toUInt8, '1'.toUInt8, newline] ∈
      (pieces newline 1023 longHashLine.line).tail := by
    rw [longHashLine_tail]
    exact List.mem_cons_self
  exact h.harmless _ hpiece (['a'.toUInt8], ['1'.toUInt8]) (by decide) _ List.mem_cons_self rfl

end Xfcfg
end Xlibc
