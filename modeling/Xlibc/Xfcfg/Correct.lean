import Xlibc.Xfcfg.Line

/-!
# Xlibc.Xfcfg.Correct

Whole configuration files.

* `readLoop_spec`  : the calls made for a file are those of its pieces of 1023 bytes.
* `xfcfg_calls`    : for short lines they are those of its lines, behind the defaults.
* `hash_line_iff`  : when a line that starts with `#` can be deleted.
-/

namespace Xlibc
namespace Xfcfg

variable {ν α : Type}

def newline : Byte := '\n'.toUInt8

/-- The calls for the defaults. -/
def defaultCalls (table : List (XfcfgOption ν α)) : List (Call ν α) :=
  (table.filter fun o => o.default.val ≠ []).map fun o => (o, o.default.val)

/-- The calls for what one `fgets` reads: a string ends at its first zero. -/
def pieceCalls (table : List (XfcfgOption ν α)) (p : List Byte) : List (Call ν α) :=
  lineCalls table (p.takeWhile (· ≠ 0))

/-- The calls for a file, piece by piece. -/
def fileCalls (table : List (XfcfgOption ν α)) (file : List Byte) : List (Call ν α) :=
  defaultCalls table ++ (pieces newline 1023 file).flatMap (pieceCalls table)

/-- The calls for a file, line by line. -/
def configCalls (table : List (XfcfgOption ν α)) (file : List Byte) : List (Call ν α) :=
  defaultCalls table ++ (file.splitOn newline).flatMap (lineCalls table)

section
variable [DecidableEq ν]

theorem loadDefaults_did (table : List (XfcfgOption ν α)) (s : Cfg ν α) :
    Did (defaultCalls table) s (loadDefaults table s) := by
  induction table generalizing s with
  | nil => exact .none rfl rfl
  | cons o os ih =>
    rw [loadDefaults, defaultCalls]
    by_cases hdefault : o.default.val = []
    · rw [if_pos (by rw [hdefault, List.length_nil]), List.filter_cons_of_neg (by simp [hdefault])]
      exact ih s
    · rw [if_neg (fun h => hdefault (List.length_eq_zero_iff.mp h)),
        List.filter_cons_of_pos (by simp [hdefault]), List.map_cons]
      exact (Did.parse s o o.default.val _).append (ih _)

/-- A piece in the buffer is a string, and a zero behind it. -/
theorem piece_buffer (p : List Byte) (old : List Byte) :
    ∃ rest, p ++ 0 :: old = p.takeWhile (· ≠ 0) ++ 0 :: rest := by
  by_cases hzero : (0 : Byte) ∈ p
  · obtain ⟨a, b, rfl, ha⟩ := List.eq_append_cons_of_mem hzero
    rw [takeWhile_ne ha]
    exact ⟨b ++ 0 :: old, by simp⟩
  · exact ⟨old, by rw [takeWhile_ne_self hzero]⟩

/-- The loop makes the calls of what is left of the file. -/
theorem readLoop_spec (table : List (XfcfgOption ν α)) {fuel : Nat} {file : List Byte} (line : Nat)
    {buf : List Byte} (s : Cfg ν α) (hbuf : buf.length = 1024) (hfuel : file.length < fuel) :
    ∃ s', readLoop table fuel file line buf s = some s' ∧
      Did ((pieces newline 1023 file).flatMap (pieceCalls table)) s s' := by
  induction fuel generalizing file line buf s with
  | zero => exact absurd hfuel (Nat.not_lt_zero _)
  | succ fuel ih =>
    by_cases hnil : file = []
    · rw [readLoop, if_pos hnil, hnil]
      exact ⟨s, rfl, .none rfl rfl⟩
    · have hle := piece_length_le newline 1023 file
      have hpos := piece_length_pos newline (by omega : 0 < 1023) hnil
      have hlen := (piece_initial newline 1023 file).length_le
      rw [pieces_cons newline (by omega) hnil, List.flatMap_cons]
      generalize hp : piece newline 1023 file = p at hle hpos hlen
      have hstore : storeBytes buf 0 (p ++ [0]) = some (p ++ 0 :: buf.drop (p.length + 1)) := by
        rw [storeBytes, if_pos (by rw [List.length_append, List.length_singleton]; omega)]
        simp
      obtain ⟨rest, hrest⟩ := piece_buffer p (buf.drop (p.length + 1))
      have hz : (0 : Byte) ∉ p.takeWhile (· ≠ 0) := fun h => by simpa using List.mem_takeWhile_imp h
      obtain ⟨buf', s', hstep, hbuf', hdid⟩ := lineStep_spec table (line + 1) hz rest s
      rw [← hrest] at hstep hbuf'
      have hlen' : buf'.length = 1024 := by
        rw [hbuf', List.length_append, List.length_cons, List.length_drop]
        omega
      have hfuel' : (file.drop p.length).length < fuel := by
        rw [List.length_drop]
        omega
      obtain ⟨s'', hrun, hdid'⟩ := ih (line + 1) s' hlen' hfuel'
      refine ⟨s'', ?_, hdid.append hdid'⟩
      unfold newline at hp
      rw [readLoop, if_neg hnil, hp, hstore, Option.bind_eq_bind, Option.bind_some, hstep,
        Option.bind_eq_bind, Option.bind_some]
      exact hrun

/-- `xfcfg_from_file` returns, and has made the calls of its file. -/
theorem xfcfgFromFile_spec (table : List (XfcfgOption ν α)) (path file : List Byte) (vars : ν → α) :
    ∃ s, xfcfgFromFile table path (some file) vars = some (0, s) ∧ s.calls = fileCalls table file ∧
      s.vars = runCalls vars (fileCalls table file) := by
  have hdefaults := loadDefaults_did table { vars := vars, calls := [], out := [] }
  obtain ⟨s, hrun, hdid⟩ := readLoop_spec table 0
    (loadDefaults table { vars := vars, calls := [], out := [] })
    (List.length_replicate (n := 1024) (a := (0 : Byte))) (Nat.lt_succ_self file.length)
  have hall := hdefaults.append hdid
  refine ⟨s, ?_, hall.calls, hall.vars⟩
  simp only [xfcfgFromFile]
  rw [hrun]
  rfl

end

/-! ## Short lines -/

theorem lineCalls_nil (table : List (XfcfgOption ν α)) : lineCalls table [] = [] := by
  refine lineCalls_none table [] ?_
  simp [uncommented]

/-- The newline at the end of a line is trimmed, or belongs to its comment. -/
theorem lineCalls_newline (table : List (XfcfgOption ν α)) (line : List Byte) :
    lineCalls table (line ++ [newline]) = lineCalls table line := by
  have htrim : trim isspace (uncommented (line ++ [newline])) = trim isspace (uncommented line) := by
    by_cases hhash : '#'.toUInt8 ∈ line
    · obtain ⟨a, b, rfl, ha⟩ := List.eq_append_cons_of_mem hhash
      rw [uncommented, uncommented, takeWhile_ne ha, List.append_assoc, List.cons_append, takeWhile_ne ha]
    · rw [uncommented, uncommented, List.takeWhile_append_of_pos (all_ne hhash), takeWhile_ne_self hhash]
      exact trim_concat (by decide) line
  rw [lineCalls, lineCalls, assignment, assignment, htrim]

/-- With lines that fit the buffer, the pieces are the lines. -/
theorem fileCalls_lines (table : List (XfcfgOption ν α)) {file : List Byte} (hzero : (0 : Byte) ∉ file)
    (hshort : ∀ l ∈ file.splitOn newline, l.length ≤ 1022) : fileCalls table file = configCalls table file := by
  have hpieces : (pieces newline 1023 file).flatMap (pieceCalls table) =
      (pieces newline 1023 file).flatMap (lineCalls table) := by
    refine List.flatMap_congr fun p hp => ?_
    have hp0 : (0 : Byte) ∉ p := fun h => hzero (mem_of_mem_pieces (by omega) hp 0 h)
    rw [pieceCalls, takeWhile_ne_self hp0]
  rw [fileCalls, configCalls, hpieces]
  congr 1
  exact flatMap_pieces (lineCalls_nil table) (lineCalls_newline table)
    (fun l hl => Nat.lt_succ_of_le (hshort l hl))

theorem mem_lineCalls {table : List (XfcfgOption ν α)} {line : List Byte} {c : Call ν α}
    (hc : c ∈ lineCalls table line) : c.1 ∈ table := by
  obtain ⟨a, -, ha⟩ := List.mem_flatMap.mp hc
  rw [assignCalls, Option.mem_toList, Option.map_eq_some_iff] at ha
  obtain ⟨o, ho, rfl⟩ := ha
  exact List.mem_of_find?_eq_some ho

theorem mem_fileCalls {table : List (XfcfgOption ν α)} {file : List Byte} {c : Call ν α}
    (hc : c ∈ fileCalls table file) : c.1 ∈ table := by
  cases List.mem_append.mp hc with
  | inl hdefault =>
    obtain ⟨o, ho, rfl⟩ := List.mem_map.mp hdefault
    exact (List.mem_filter.mp ho).1
  | inr hpiece =>
    obtain ⟨p, -, hp⟩ := List.mem_flatMap.mp hpiece
    exact mem_lineCalls hp

/-! ## What the variables hold -/

/-- A parse that fails leaves its variable alone. -/
def LeavesAlone (o : XfcfgOption ν α) : Prop := ∀ text w, (o.parse text w).1 < 0 → (o.parse text w).2 = w

def Succeeds (vars : ν → α) (c : Call ν α) : Prop := 0 ≤ (c.1.parse c.2 (vars c.1.value)).1

section
variable [DecidableEq ν]

/-- No call for `x` succeeds. -/
def Unparsed (vars : ν → α) (cs : List (Call ν α)) (x : ν) : Prop :=
  ∀ before c after, cs = before ++ c :: after → c.1.value = x → ¬ Succeeds (runCalls vars before) c

/-- `w` is what the last call for `x` that succeeds leaves behind, or what `x` held at the start. -/
def LastParsed (vars : ν → α) (cs : List (Call ν α)) (x : ν) (w : α) : Prop :=
  (Unparsed vars cs x ∧ w = vars x) ∨
  ∃ before c after, cs = before ++ c :: after ∧ c.1.value = x ∧ Succeeds (runCalls vars before) c ∧
    Unparsed (runCalls vars (before ++ [c])) after x ∧ w = (c.1.parse c.2 (runCalls vars before x)).2

theorem runCalls_append (vars : ν → α) (cs cs' : List (Call ν α)) :
    runCalls vars (cs ++ cs') = runCalls (runCalls vars cs) cs' := List.foldl_append

theorem runCalls_singleton (vars : ν → α) (c : Call ν α) : runCalls vars [c] = applyCall vars c := rfl

theorem Unparsed.concat {vars : ν → α} {cs : List (Call ν α)} {x : ν} {c : Call ν α}
    (h : Unparsed vars cs x) (hc : c.1.value = x → ¬ Succeeds (runCalls vars cs) c) :
    Unparsed vars (cs ++ [c]) x := by
  intro before d after hsplit hd
  cases List.eq_nil_or_concat after with
  | inl hnil =>
    rw [hnil] at hsplit
    obtain ⟨rfl, hcd⟩ := List.append_inj' hsplit rfl
    cases hcd
    exact hc hd
  | inr hcons =>
    obtain ⟨after', d', rfl⟩ := hcons
    rw [List.concat_eq_append, ← List.cons_append, ← List.append_assoc] at hsplit
    obtain ⟨rfl, -⟩ := List.append_inj' hsplit rfl
    exact h before d after' rfl hd

theorem runCalls_lastParsed (vars : ν → α) {cs : List (Call ν α)} (halone : ∀ c ∈ cs, LeavesAlone c.1)
    (x : ν) : LastParsed vars cs x (runCalls vars cs x) := by
  induction cs using List.reverseRecOn with
  | nil =>
    refine .inl ⟨?_, rfl⟩
    intro before c after hsplit
    exact absurd hsplit (by simp)
  | append_singleton cs c ih =>
    have ih := ih fun d hd => halone d (List.mem_append_left _ hd)
    rw [runCalls_append, runCalls_singleton]
    by_cases hdone : c.1.value = x ∧ Succeeds (runCalls vars cs) c
    · obtain ⟨rfl, hsucc⟩ := hdone
      refine .inr ⟨cs, c, [], rfl, rfl, hsucc, ?_, ?_⟩
      · intro before d after hsplit
        exact absurd hsplit (by simp)
      · rw [applyCall, Function.update_self]
    · -- a call for another variable, or one that fails
      have hfail : c.1.value = x → ¬ Succeeds (runCalls vars cs) c := fun hx hsucc => hdone ⟨hx, hsucc⟩
      have hkeep : applyCall (runCalls vars cs) c x = runCalls vars cs x := by
        rw [applyCall]
        by_cases hx : c.1.value = x
        · rw [hx, Function.update_self]
          have hneg : (c.1.parse c.2 (runCalls vars cs c.1.value)).1 < 0 := Int.not_le.mp (hfail hx)
          rw [hx] at hneg
          exact halone c (by simp) _ _ hneg
        · rw [Function.update_of_ne (fun h => hx h.symm)]
      rw [hkeep]
      cases ih with
      | inl hun => exact .inl ⟨hun.1.concat hfail, hun.2⟩
      | inr hlast =>
        obtain ⟨before, d, after, hcs, hd, hsucc, hun, hw⟩ := hlast
        refine .inr ⟨before, d, after ++ [c], ?_, hd, hsucc, ?_, hw⟩
        · rw [hcs, List.append_assoc, List.cons_append]
        · refine hun.concat ?_
          rw [← runCalls_append, List.append_assoc, List.singleton_append, ← hcs]
          exact hfail

/-- **The calls of `xfcfg_from_file`.** With lines of at most 1022 bytes it returns and has called
`parse` for each default, and then for each line that assigns something to an option. -/
theorem xfcfg_calls (table : List (XfcfgOption ν α)) (path file : List Byte) (vars : ν → α)
    (hzero : (0 : Byte) ∉ file) (hshort : ∀ l ∈ file.splitOn newline, l.length ≤ 1022) :
    ∃ s, xfcfgFromFile table path (some file) vars = some (0, s) ∧ s.calls = configCalls table file ∧
      s.vars = runCalls vars (configCalls table file) ∧
      ((∀ o ∈ table, LeavesAlone o) → ∀ x, LastParsed vars (configCalls table file) x (s.vars x)) := by
  obtain ⟨s, hrun, hcalls, hvars⟩ := xfcfgFromFile_spec table path file vars
  have hlines := fileCalls_lines table hzero hshort
  rw [← hlines]
  refine ⟨s, hrun, hcalls, hvars, ?_⟩
  intro halone x
  rw [hvars]
  exact runCalls_lastParsed vars (fun c hc => halone c.1 (mem_fileCalls hc)) x

/-- An option `a` with default `0`, and a file with one assignment. -/
theorem xfcfg_calls_one :
    ∃ s : Cfg Unit Nat, xfcfgFromFile
        [{ name := ⟨['a'.toUInt8], by decide⟩, parse := fun t _ => (0, t.length), value := (),
           default := ⟨['0'.toUInt8], by decide⟩ }]
        [] (some ['#'.toUInt8, newline, 'a'.toUInt8, '='.toUInt8, ' '.toUInt8, '1'.toUInt8, '='.toUInt8, newline])
        (fun _ => 0) = some (0, s) ∧
      s.calls.map (fun c => c.2) = [['0'.toUInt8], ['1'.toUInt8, '='.toUInt8]] := by
  obtain ⟨s, hrun, hcalls, -⟩ := xfcfg_calls
    [{ name := ⟨['a'.toUInt8], by decide⟩, parse := fun t _ => (0, t.length), value := (),
       default := ⟨['0'.toUInt8], by decide⟩ }] []
    ['#'.toUInt8, newline, 'a'.toUInt8, '='.toUInt8, ' '.toUInt8, '1'.toUInt8, '='.toUInt8, newline]
    (fun _ : Unit => 0) (by decide) (by decide)
  refine ⟨s, hrun, ?_⟩
  rw [hcalls]
  decide

end

end Xfcfg
end Xlibc
