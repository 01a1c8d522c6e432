import Xlibc.Xdebug.Model

/-!
# Xlibc.Xdebug.Sink

Where the log goes.

* `logPath_idem`      : a path that has been put together is kept.
* `Sel`               : what holds after any calls of `xlogfile`.
* `xlogfile_last_iff` : when the last call of `xlogfile` alone decides.
-/

namespace Xlibc
namespace Xdebug

def syslogName : List Byte := chars ['s', 'y', 's', 'l', 'o', 'g']
def stdoutName : List Byte := chars ['s', 't', 'd', 'o', 'u', 't']
def stderrName : List Byte := chars ['s', 't', 'd', 'e', 'r', 'r']

/-! ## Paths -/

theorem snprintf_length (s : List Byte) : (snprintf pathMax s).length ≤ 4095 := by
  rw [snprintf, List.length_take]
  exact Nat.min_le_left _ _

theorem snprintf_short {s : List Byte} (hs : s.length ≤ 4095) : snprintf pathMax s = s :=
  List.take_of_length_le hs

@[simp] theorem snprintf_snprintf (s : List Byte) : snprintf pathMax (snprintf pathMax s) = snprintf pathMax s :=
  snprintf_short (snprintf_length s)

/-- A name that fits is not the cut form of another one. -/
theorem snprintf_eq_iff {s w : List Byte} (hw : w.length < 4095) : snprintf pathMax s = w ↔ s = w := by
  constructor
  · intro h
    by_cases hs : s.length ≤ 4095
    · rwa [snprintf_short hs] at h
    · have hlen : (snprintf pathMax s).length = 4095 := by
        rw [snprintf, List.length_take]
        exact Nat.min_eq_left (by simp only [pathMax]; omega)
      rw [h] at hlen
      omega
  · rintro rfl
    exact snprintf_short (Nat.le_of_lt hw)

theorem logPath_length (x : List Byte) : (logPath x).length ≤ 4095 := by
  unfold logPath
  simp only
  split
  · exact snprintf_length _
  · split
    · exact snprintf_length _
    · exact snprintf_length _

theorem logPath_head (x : List Byte) : (logPath x).head? = some '/'.toUInt8 := by
  unfold logPath
  simp only
  split
  · rfl
  · next hslash =>
    have hx : x.head? = some '/'.toUInt8 := by simpa using hslash
    cases x with
    | nil => cases hx
    | cons c x =>
      cases hx
      split
      · rfl
      · rfl

theorem snprintf_infix {w s : List Byte} (h : w <:+: s) :
    w <:+: snprintf pathMax s ∨ (snprintf pathMax s).length = 4095 := by
  by_cases hs : s.length ≤ 4095
  · exact .inl (by rwa [snprintf_short hs])
  · right
    rw [snprintf, List.length_take]
    exact Nat.min_eq_left (by simp only [pathMax]; omega)

/-- It has the suffix, or there was no room for it. -/
theorem logPath_suffix (x : List Byte) :
    chars ['.', 'l', 'o', 'g'] <:+: logPath x ∨ (logPath x).length = 4095 := by
  have hfile : ∀ pre : List Byte, ∀ y : List Byte, chars ['.', 'l', 'o', 'g'] <:+: y →
      chars ['.', 'l', 'o', 'g'] <:+: snprintf pathMax (pre ++ '/'.toUInt8 :: snprintf pathMax y) ∨
        (snprintf pathMax (pre ++ '/'.toUInt8 :: snprintf pathMax y)).length = 4095 := by
    intro pre y hy
    cases snprintf_infix hy with
    | inl hfound =>
      have hwhole := (hfound.trans (List.suffix_cons '/'.toUInt8 _).isInfix).trans
        (List.suffix_append pre _).isInfix
      exact snprintf_infix hwhole
    | inr hfull =>
      right
      rw [snprintf, List.length_take, List.length_append, List.length_cons, hfull]
      exact Nat.min_eq_left (by simp only [pathMax]; omega)
  unfold logPath
  simp only [snprintf_snprintf]
  by_cases hsuffix : chars ['.', 'l', 'o', 'g'] <:+: x
  · rw [if_pos hsuffix]
    split
    · exact hfile _ x hsuffix
    · exact snprintf_infix hsuffix
  · have hadded := (List.suffix_append x (chars ['.', 'l', 'o', 'g'])).isInfix
    rw [if_neg hsuffix]
    split
    · exact hfile _ _ hadded
    · exact snprintf_infix hadded

/-- Putting a path together again does not change it. -/
theorem logPath_idem (x : List Byte) : logPath (logPath x) = logPath x := by
  have hhead := logPath_head x
  have hlen := logPath_length x
  rw [logPath, if_neg (by rw [hhead]; simp)]
  cases logPath_suffix x with
  | inl hsuffix => rw [if_pos hsuffix, snprintf_short hlen]
  | inr hfull =>
    split
    · exact snprintf_short hlen
    · rw [snprintf]
      exact List.take_left' (by rw [hfull]; rfl)

theorem logPath_ne {x w : List Byte} (hw : w.head? ≠ some '/'.toUInt8) : logPath x ≠ w := fun h =>
  hw (h ▸ logPath_head x)

/-! ## Selecting -/

/-- A destination, as a caller thinks of it. -/
inductive Dest where
  | syslog
  | stdout
  | stderr
  | path (p : List Byte)
deriving DecidableEq, Repr

/-- The destination that a call of `xlogfile` stands for. -/
def selected : Option (List Byte) → Option Dest
  | none => none
  | some name =>
    if name = syslogName then some .syslog
    else if name = stdoutName then some .stdout
    else if name = stderrName then some .stderr
    else some (.path (logPath (snprintf pathMax name)))

/-- The record has gone to this destination: a path is the file that has this name now. -/
inductive Went (s : Xlog) : Option Sink → Option Dest → Prop where
  | nowhere : Went s none none
  | syslog : Went s (some .syslog) (some .syslog)
  | stdout : Went s (some (.stream .stdout)) (some .stdout)
  | stderr : Went s (some (.stream .stderr)) (some .stderr)
  | file {i : Nat} {p : List Byte} :
      s.fs.dir p = some i → Went s (some (.stream (.file i))) (some (.path p))

/-- The next message `m` goes to `d`. -/
def NextGoes (s : Xlog) (m : Message) (d : Option Dest) : Prop :=
  ∃ sink s', xsyslog m s = some (sink, s') ∧ Went s' sink d

def xlogfiles (calls : List (Option (List Byte))) (s : Xlog) : Xlog :=
  calls.foldl (fun s c => (xlogfile c s).2) s

theorem xlogfile_syslog (s : Xlog) : xlogfile (some syslogName) s = (0, { s.closeOld with syslog := true }) := rfl

theorem xlogfile_stdout (s : Xlog) :
    xlogfile (some stdoutName) s = (0, { s.closeOld with syslog := false, fp := some .stdout }) := rfl

theorem xlogfile_stderr (s : Xlog) :
    xlogfile (some stderrName) s = (0, { s.closeOld with syslog := false, fp := some .stderr }) := rfl

/-- Closing changes `fp` only. -/
theorem closeOld_eq (s : Xlog) : ∃ fp, s.closeOld = { s with fp := fp } := by
  unfold Xlog.closeOld
  split
  · exact ⟨none, rfl⟩
  · exact ⟨s.fp, rfl⟩

theorem closeOld_fs (s : Xlog) : s.closeOld.fs = s.fs := by
  obtain ⟨fp, hclose⟩ := closeOld_eq s
  rw [hclose]

/-- A name that is none of the three. -/
def IsPath (name : List Byte) : Prop := name ≠ syslogName ∧ name ≠ stdoutName ∧ name ≠ stderrName

theorem selected_path {name : List Byte} (h : IsPath name) :
    selected (some name) = some (.path (logPath (snprintf pathMax name))) := by
  rw [selected, if_neg h.1, if_neg h.2.1, if_neg h.2.2]

theorem isPath_logPath (x : List Byte) : IsPath (logPath x) :=
  ⟨logPath_ne (by decide), logPath_ne (by decide), logPath_ne (by decide)⟩

/-- The state with the file `i` opened under the path `p`. -/
def Xlog.opened (s : Xlog) (p : List Byte) (fs : Fs) (i : Nat) : Xlog :=
  { s.closeOld with syslog := false, file := p, fp := some (.file i), fs := fs }

theorem xlogfile_path {s : Xlog} (name : List Byte) (h : IsPath name) {fs : Fs} {i : Nat}
    (hopen : s.fs.fopen (logPath (snprintf pathMax name)) = some (fs, i)) :
    xlogfile (some name) s = (0, s.opened (logPath (snprintf pathMax name)) fs i) := by
  have hsyslog : snprintf pathMax name ≠ chars ['s', 'y', 's', 'l', 'o', 'g'] := fun hn =>
    h.1 ((snprintf_eq_iff (by decide)).mp hn)
  have hstdout : snprintf pathMax name ≠ chars ['s', 't', 'd', 'o', 'u', 't'] := fun hn =>
    h.2.1 ((snprintf_eq_iff (by decide)).mp hn)
  have hstderr : snprintf pathMax name ≠ chars ['s', 't', 'd', 'e', 'r', 'r'] := fun hn =>
    h.2.2 ((snprintf_eq_iff (by decide)).mp hn)
  simp only [xlogfile]
  rw [if_neg hsyslog, if_neg hstdout, if_neg hstderr, Xlog.openFile, closeOld_fs, hopen]
  rfl

/-- A path that has been put together is opened again as it is. -/
theorem xlogfile_logPath {s : Xlog} {x : List Byte} {fs : Fs} {i : Nat}
    (hopen : s.fs.fopen (logPath x) = some (fs, i)) :
    xlogfile (some (logPath x)) s = (0, s.opened (logPath x) fs i) := by
  have hpath : logPath (snprintf pathMax (logPath x)) = logPath x := by
    rw [snprintf_short (logPath_length x), logPath_idem]
  have hrun := xlogfile_path (logPath x) (isPath_logPath x) (by rw [hpath]; exact hopen)
  rwa [hpath] at hrun

/-- What a call of `xlogfile` can do, if every file can be opened. -/
theorem xlogfile_cases {s : Xlog} (hopens : ∀ p, s.fs.opens p = true) (call : Option (List Byte)) :
    (call = none ∧ (xlogfile call s).2 = s.closeOld) ∨
    (call = some syslogName ∧ (xlogfile call s).2 = { s.closeOld with syslog := true }) ∨
    (call = some stdoutName ∧ (xlogfile call s).2 = { s.closeOld with syslog := false, fp := some .stdout }) ∨
    (call = some stderrName ∧ (xlogfile call s).2 = { s.closeOld with syslog := false, fp := some .stderr }) ∨
    ∃ name fs i, call = some name ∧ IsPath name ∧
      s.fs.fopen (logPath (snprintf pathMax name)) = some (fs, i) ∧
      (xlogfile call s).2 = s.opened (logPath (snprintf pathMax name)) fs i := by
  cases call with
  | none => exact .inl ⟨rfl, rfl⟩
  | some name =>
    right
    by_cases hsyslog : name = syslogName
    · rw [hsyslog]
      exact .inl ⟨rfl, by rw [xlogfile_syslog]⟩
    · by_cases hstdout : name = stdoutName
      · rw [hstdout]
        exact .inr (.inl ⟨rfl, by rw [xlogfile_stdout]⟩)
      · by_cases hstderr : name = stderrName
        · rw [hstderr]
          exact .inr (.inr (.inl ⟨rfl, by rw [xlogfile_stderr]⟩))
        · obtain ⟨fs, i, hopen⟩ := Fs.fopen_some (hopens (logPath (snprintf pathMax name)))
          have hpath : IsPath name := ⟨hsyslog, hstdout, hstderr⟩
          exact .inr (.inr (.inr ⟨name, fs, i, rfl, hpath, hopen, by rw [xlogfile_path name hpath hopen]⟩))

/-- What holds after any calls of `xlogfile`. -/
structure Sel (s : Xlog) : Prop where
  opens : ∀ p, s.fs.opens p = true
  fsize : s.fsize = 65536
  level : s.level = 7
  file : s.file = syslogName ∨ ∃ x, s.file = logPath x
  opened : ∀ i, s.fp = some (.file i) → s.syslog = false ∧ s.fs.dir s.file = some i ∧ ∃ x, s.file = logPath x

theorem init_sel {fs : Fs} (hopens : ∀ p, fs.opens p = true) (errSize : List Byte → Option Nat) :
    Sel (Xlog.init fs errSize) where
  opens := hopens
  fsize := rfl
  level := rfl
  file := .inl rfl
  opened := by
    intro i hfp
    cases hfp

theorem closeOld_cases (s : Xlog) :
    (s.fp = some .stdout ∧ s.closeOld = s) ∨ (s.fp = some .stderr ∧ s.closeOld = s) ∨
    (s.fp ≠ some .stdout ∧ s.fp ≠ some .stderr ∧ s.closeOld = { s with fp := none }) := by
  unfold Xlog.closeOld
  cases hfp : s.fp with
  | none =>
    refine .inr (.inr ⟨by simp, by simp, ?_⟩)
    rw [if_neg fun h => h.1 rfl, ← hfp]
  | some st =>
    cases st with
    | stdout => exact .inl ⟨rfl, if_neg fun h => h.2.1 rfl⟩
    | stderr => exact .inr (.inl ⟨rfl, if_neg fun h => h.2.2 rfl⟩)
    | file i => exact .inr (.inr ⟨by simp, by simp, if_pos ⟨by simp, by simp, by simp⟩⟩)

theorem Sel.closeOld {s : Xlog} (h : Sel s) : Sel s.closeOld := by
  rcases closeOld_cases s with ⟨-, hc⟩ | ⟨-, hc⟩ | ⟨-, -, hc⟩
  · rw [hc]
    exact h
  · rw [hc]
    exact h
  · rw [hc]
    exact ⟨h.opens, h.fsize, h.level, h.file, by intro i hi; cases hi⟩

theorem xlogfile_sel {s : Xlog} (h : Sel s) (call : Option (List Byte)) : Sel (xlogfile call s).2 := by
  have hclose := h.closeOld
  rcases xlogfile_cases h.opens call with ⟨-, hr⟩ | ⟨-, hr⟩ | ⟨-, hr⟩ | ⟨-, hr⟩ |
    ⟨name, fs, i, -, -, hopen, hr⟩
  · rw [hr]
    exact hclose
  · rw [hr]
    refine ⟨hclose.opens, hclose.fsize, hclose.level, hclose.file, ?_⟩
    intro i hi
    have hi : s.closeOld.fp = some (.file i) := hi
    rcases closeOld_cases s with ⟨hfp, hc⟩ | ⟨hfp, hc⟩ | ⟨-, -, hc⟩
    · rw [hc, hfp] at hi
      cases hi
    · rw [hc, hfp] at hi
      cases hi
    · rw [hc] at hi
      cases hi
  · rw [hr]
    exact ⟨hclose.opens, hclose.fsize, hclose.level, hclose.file, by intro i hi; cases hi⟩
  · rw [hr]
    exact ⟨hclose.opens, hclose.fsize, hclose.level, hclose.file, by intro i hi; cases hi⟩
  · rw [hr]
    refine ⟨?_, hclose.fsize, hclose.level, .inr ⟨_, rfl⟩, ?_⟩
    · intro p
      show fs.opens p = true
      rw [Fs.fopen_opens hopen]
      exact h.opens p
    · intro j hj
      cases hj
      exact ⟨rfl, Fs.fopen_dir hopen, _, rfl⟩

theorem xlogfiles_sel {s : Xlog} (h : Sel s) (calls : List (Option (List Byte))) : Sel (xlogfiles calls s) := by
  induction calls generalizing s with
  | nil => exact h
  | cons call calls ih => exact ih (xlogfile_sel h call)

/-! ## The next message -/

/-- `xlogswap` moves the log file away. -/
def Xlog.Full (s : Xlog) : Prop :=
  s.fsize ≠ 0 ∧ s.fp ≠ some .stdout ∧ ∃ size : Nat, s.fp.bind s.statSize = some size ∧ s.fsize ≤ size

theorem xlogswap_full {s : Xlog} (h : s.Full) : xlogswap s = xlogfile (some s.file) s.moveFile := by
  obtain ⟨hsize, hstdout, size, hstat, hle⟩ := h
  have hopen : s.fp ≠ none := by
    intro hnone
    rw [hnone] at hstat
    cases hstat
  unfold xlogswap
  rw [if_neg (by simp [hsize, hstdout, hopen]), hstat]
  simp only
  rw [if_pos hle]

theorem xlogswap_keeps {s : Xlog} (h : ¬ s.Full) : (xlogswap s).2 = s := by
  unfold xlogswap
  split
  · rfl
  · next hguard =>
    simp only [not_or] at hguard
    split
    · rfl
    · next size hstat =>
      rw [if_neg fun hle => h ⟨hguard.1, hguard.2.2.1, size, hstat, hle⟩]

/-- A message that is not held back and for which there is memory. -/
structure Emitted (m : Message) (s : Xlog) (text : List Byte) : Prop where
  priority : m.priority ≤ s.level
  msg : m.msg = some text

theorem xsyslog_stream {s : Xlog} {m : Message} {text : List Byte} (hm : Emitted m s text) {fp : Stream}
    (hopen : s.fp ≠ none) (hfp : (xlogswap s).2.fp = some fp) :
    xsyslog m s = some (some (.stream fp), ((xlogswap s).2.output m text fp).printCopy m text) := by
  rw [xsyslog, if_neg (Int.not_lt.mpr hm.priority), if_neg fun h => hopen h.2, hm.msg]
  simp only
  rw [Xlog.emit, if_pos hopen]
  simp only [hfp, Option.bind_eq_bind, Option.bind_some, Option.map_some]

theorem xsyslog_syslog {s : Xlog} {m : Message} {text : List Byte} (hm : Emitted m s text)
    (hopen : s.fp = none) (hsyslog : s.syslog = true) : ∃ s', xsyslog m s = some (some .syslog, s') := by
  rw [xsyslog, if_neg (Int.not_lt.mpr hm.priority), if_neg (by rw [hsyslog]; simp), hm.msg]
  simp only
  rw [Xlog.emit, if_neg (by rw [hopen]; simp)]
  exact ⟨_, rfl⟩

theorem xsyslog_nowhere {s : Xlog} {m : Message} {text : List Byte} (hm : Emitted m s text)
    (hopen : s.fp = none) (hsyslog : s.syslog = false) : xsyslog m s = some (none, s) := by
  rw [xsyslog, if_neg (Int.not_lt.mpr hm.priority), if_pos ⟨hsyslog, hopen⟩]

/-- Writing changes no names. -/
theorem written_dir (s : Xlog) (m : Message) (text : List Byte) (fp : Stream) :
    ((s.output m text fp).printCopy m text).fs.dir = s.fs.dir := by
  unfold Xlog.printCopy
  split <;> cases fp <;> rfl

theorem nextGoes_iff {s s' : Xlog} {m : Message} {sink : Option Sink} (h : xsyslog m s = some (sink, s'))
    (d : Option Dest) : NextGoes s m d ↔ Went s' sink d := by
  constructor
  · rintro ⟨sink', s'', hrun, hwent⟩
    rw [h] at hrun
    cases hrun
    exact hwent
  · intro hwent
    exact ⟨sink, s', h, hwent⟩

/-- A log file that is moved away is opened again under its path. -/
theorem reopen {s : Xlog} (hopens : ∀ p, s.fs.opens p = true) {x : List Byte} (hx : s.file = logPath x)
    (hfull : s.Full) :
    ∃ fs i, xlogswap s = (0, s.moveFile.opened s.file fs i) ∧ fs.dir s.file = some i ∧
      fs.opens = s.fs.opens := by
  have hmoved : s.moveFile.fs.opens = s.fs.opens := by
    rw [Xlog.moveFile]
    simp only [Fs.rename_opens]
    rfl
  obtain ⟨fs, i, hopen⟩ := Fs.fopen_some (show s.moveFile.fs.opens s.file = true by rw [hmoved, hopens])
  refine ⟨fs, i, ?_, Fs.fopen_dir hopen, (Fs.fopen_opens hopen).trans hmoved⟩
  rw [hx] at hopen
  rw [xlogswap_full hfull, hx]
  exact xlogfile_logPath hopen

/-- With a file open, the message goes to the file of its path, a new one if the old one is full. -/
theorem nextGoes_file {s : Xlog} (h : Sel s) {m : Message} {text : List Byte} (hm : Emitted m s text) {i : Nat}
    (hfp : s.fp = some (.file i)) : NextGoes s m (some (.path s.file)) := by
  have hopen : s.fp ≠ none := by rw [hfp]; simp
  obtain ⟨-, hdir, x, hx⟩ := h.opened i hfp
  by_cases hfull : s.Full
  · obtain ⟨fs, j, hswap, hnew, -⟩ := reopen h.opens hx hfull
    have hrun := xsyslog_stream hm hopen (by rw [hswap]; rfl)
    rw [nextGoes_iff hrun]
    refine .file ?_
    rw [written_dir, hswap]
    exact hnew
  · have hswap := xlogswap_keeps hfull
    have hrun := xsyslog_stream hm hopen (by rw [hswap]; exact hfp)
    rw [nextGoes_iff hrun]
    refine .file ?_
    rw [written_dir, hswap]
    exact hdir

theorem nextGoes_stdout {s : Xlog} {m : Message} {text : List Byte} (hm : Emitted m s text)
    (hfp : s.fp = some .stdout) (d : Option Dest) : NextGoes s m d ↔ d = some .stdout := by
  have hopen : s.fp ≠ none := by rw [hfp]; simp
  have hswap := xlogswap_keeps (s := s) fun hfull => hfull.2.1 hfp
  have hrun := xsyslog_stream hm hopen (by rw [hswap]; exact hfp)
  rw [nextGoes_iff hrun]
  constructor
  · intro hwent
    cases hwent
    rfl
  · rintro rfl
    exact .stdout

/-- With `stderr`, the log file is moved away too if `stderr` is a large file, and `xlogfile` called again. -/
theorem swap_stderr {s : Xlog} (h : Sel s) (hfp : s.fp = some .stderr) :
    ((s.file = syslogName ∨ ∀ size, s.errSize s.stderr = some size → size < 65536) ∧
      (xlogswap s).2.fp = some .stderr) ∨
    (¬ (s.file = syslogName ∨ ∀ size, s.errSize s.stderr = some size → size < 65536) ∧
      ∃ i, (xlogswap s).2.fp = some (.file i)) := by
  by_cases hfull : s.Full
  · have hlarge : ¬ ∀ size, s.errSize s.stderr = some size → size < 65536 := by
      intro hsmall
      obtain ⟨-, -, size, hstat, hle⟩ := hfull
      rw [hfp] at hstat
      have := hsmall size hstat
      rw [h.fsize] at hle
      omega
    have hclose : s.moveFile.closeOld = s.moveFile := by
      rw [Xlog.closeOld, if_neg]
      intro hc
      exact hc.2.2 hfp
    cases h.file with
    | inl hname =>
      refine .inl ⟨.inl hname, ?_⟩
      rw [xlogswap_full hfull, hname, xlogfile_syslog, hclose]
      exact hfp
    | inr hpath =>
      obtain ⟨x, hx⟩ := hpath
      obtain ⟨fs, j, hswap, -⟩ := reopen h.opens hx hfull
      refine .inr ⟨?_, j, ?_⟩
      · rintro (hname | hsmall)
        · exact (isPath_logPath x).1 (hx.symm.trans hname)
        · exact hlarge hsmall
      · rw [hswap]
        rfl
  · refine .inl ⟨.inr ?_, by rw [xlogswap_keeps hfull]; exact hfp⟩
    intro size hstat
    by_contra hle
    refine hfull ⟨by rw [h.fsize]; decide, by rw [hfp]; simp, size, by rw [hfp]; exact hstat, ?_⟩
    rw [h.fsize]
    omega

theorem nextGoes_stderr {s : Xlog} (h : Sel s) {m : Message} {text : List Byte} (hm : Emitted m s text)
    (hfp : s.fp = some .stderr) :
    ¬ NextGoes s m none ∧ ¬ NextGoes s m (some .syslog) ∧ (NextGoes s m (some .stderr) ↔
      s.file = syslogName ∨ ∀ size, s.errSize s.stderr = some size → size < 65536) := by
  have hopen : s.fp ≠ none := by rw [hfp]; simp
  cases swap_stderr h hfp with
  | inl hstays =>
    have hrun := xsyslog_stream hm hopen hstays.2
    rw [nextGoes_iff hrun, nextGoes_iff hrun, nextGoes_iff hrun]
    refine ⟨?_, ?_, fun _ => hstays.1, fun _ => .stderr⟩
    · intro hwent
      cases hwent
    · intro hwent
      cases hwent
  | inr hmoved =>
    obtain ⟨hnot, i, hswap⟩ := hmoved
    have hrun := xsyslog_stream hm hopen hswap
    rw [nextGoes_iff hrun, nextGoes_iff hrun, nextGoes_iff hrun]
    refine ⟨?_, ?_, ?_, fun h => absurd h hnot⟩
    · intro hwent
      cases hwent
    · intro hwent
      cases hwent
    · intro hwent
      cases hwent

theorem nextGoes_closed {s : Xlog} {m : Message} {text : List Byte} (hm : Emitted m s text)
    (hfp : s.fp = none) (d : Option Dest) :
    NextGoes s m d ↔ d = if s.syslog = true then some .syslog else none := by
  cases hsyslog : s.syslog with
  | true =>
    obtain ⟨s', hrun⟩ := xsyslog_syslog hm hfp hsyslog
    rw [nextGoes_iff hrun, if_pos rfl]
    constructor
    · intro hwent
      cases hwent
      rfl
    · rintro rfl
      exact .syslog
  | false =>
    rw [nextGoes_iff (xsyslog_nowhere hm hfp hsyslog), if_neg Bool.false_ne_true]
    constructor
    · intro hwent
      cases hwent
      rfl
    · rintro rfl
      exact .nowhere

/-- The state before a call whose effect does not depend on the destination before. -/
structure Forgets (s : Xlog) (call : Option (List Byte)) : Prop where
  off : call = none → s.syslog = false ∧ s.fp ≠ some .stdout ∧ s.fp ≠ some .stderr
  syslog : call = some syslogName → s.fp ≠ some .stdout ∧ s.fp ≠ some .stderr
  stderr : call = some stderrName →
    s.file = syslogName ∨ ∀ size, s.errSize s.stderr = some size → size < 65536

theorem forgets_of_path {s : Xlog} {name : List Byte} (h : IsPath name) : Forgets s (some name) where
  off := by
    intro hcall
    cases hcall
  syslog := by
    intro hcall
    cases hcall
    exact absurd rfl h.1
  stderr := by
    intro hcall
    cases hcall
    exact absurd rfl h.2.2

theorem forgets_stdout (s : Xlog) : Forgets s (some stdoutName) where
  off := by
    intro hcall
    cases hcall
  syslog := fun hcall => absurd hcall (by decide)
  stderr := fun hcall => absurd hcall (by decide)

theorem forgets_stderr_iff (s : Xlog) : Forgets s (some stderrName) ↔
    s.file = syslogName ∨ ∀ size, s.errSize s.stderr = some size → size < 65536 := by
  constructor
  · intro h
    exact h.stderr rfl
  · intro h
    exact ⟨fun hcall => absurd hcall (by decide), fun hcall => absurd hcall (by decide), fun _ => h⟩

theorem forgets_syslog_iff (s : Xlog) : Forgets s (some syslogName) ↔
    s.fp ≠ some .stdout ∧ s.fp ≠ some .stderr := by
  constructor
  · intro h
    exact h.syslog rfl
  · intro h
    exact ⟨fun hcall => absurd hcall (by decide), fun _ => h, fun hcall => absurd hcall (by decide)⟩

theorem forgets_none_iff (s : Xlog) : Forgets s none ↔
    s.syslog = false ∧ s.fp ≠ some .stdout ∧ s.fp ≠ some .stderr := by
  constructor
  · intro h
    exact h.off rfl
  · intro h
    exact ⟨fun _ => h, fun hcall => absurd hcall (by decide), fun hcall => absurd hcall (by decide)⟩

/-- One call, in a state that other calls have led to. -/
theorem xlogfile_next_iff {s : Xlog} (h : Sel s) (call : Option (List Byte)) {m : Message} {text : List Byte}
    (hprio : m.priority ≤ 7) (hmsg : m.msg = some text) :
    NextGoes (xlogfile call s).2 m (selected call) ↔ Forgets s call := by
  have hsel := xlogfile_sel h call
  have hm : Emitted m (xlogfile call s).2 text := ⟨by rw [hsel.level]; exact hprio, hmsg⟩
  rcases xlogfile_cases h.opens call with ⟨hcall, hr⟩ | ⟨hcall, hr⟩ | ⟨hcall, hr⟩ | ⟨hcall, hr⟩ |
    ⟨name, fs, i, hcall, hpath, -, hr⟩
  · rw [hcall] at hr hm hsel ⊢
    rw [hr] at hm hsel ⊢
    rw [forgets_none_iff]
    rcases closeOld_cases s with ⟨hfp, hc⟩ | ⟨hfp, hc⟩ | ⟨hout, herr, hc⟩
    · rw [hc] at hm ⊢
      rw [nextGoes_stdout hm hfp]
      exact ⟨fun hd => absurd hd (by decide), fun hf => absurd hfp hf.2.1⟩
    · rw [hc] at hm hsel ⊢
      exact ⟨fun hgoes => absurd hgoes (nextGoes_stderr hsel hm hfp).1, fun hf => absurd hfp hf.2.2⟩
    · rw [hc] at hm ⊢
      rw [nextGoes_closed hm rfl]
      cases hsyslog : s.syslog with
      | true => simp [selected]
      | false => simp [selected, hout, herr]
  · rw [hcall] at hr hm hsel ⊢
    rw [hr] at hm hsel ⊢
    rw [forgets_syslog_iff]
    have hselected : selected (some syslogName) = some .syslog := rfl
    rw [hselected]
    rcases closeOld_cases s with ⟨hfp, hc⟩ | ⟨hfp, hc⟩ | ⟨hout, herr, hc⟩
    · rw [hc] at hm ⊢
      rw [nextGoes_stdout hm hfp]
      exact ⟨fun hd => absurd hd (by decide), fun hf => absurd hfp hf.1⟩
    · rw [hc] at hm hsel ⊢
      exact ⟨fun hgoes => absurd hgoes (nextGoes_stderr hsel hm hfp).2.1, fun hf => absurd hfp hf.2⟩
    · rw [hc] at hm ⊢
      rw [nextGoes_closed hm rfl]
      exact ⟨fun _ => ⟨hout, herr⟩, fun _ => rfl⟩
  · rw [hcall] at hr hm ⊢
    rw [nextGoes_stdout hm (by rw [hr])]
    exact ⟨fun _ => forgets_stdout s, fun _ => rfl⟩
  · rw [hcall] at hr hm hsel ⊢
    have hselected : selected (some stderrName) = some .stderr := rfl
    have hgoes := (nextGoes_stderr hsel hm (by rw [hr])).2.2
    obtain ⟨fp, hclose⟩ := closeOld_eq s
    rw [hselected, hgoes, forgets_stderr_iff, hr, hclose]
  · rw [hcall] at hr hm hsel ⊢
    have hgoes := nextGoes_file hsel hm (by rw [hr]; rfl)
    rw [selected_path hpath]
    rw [hr] at hgoes ⊢
    exact ⟨fun _ => forgets_of_path hpath, fun _ => hgoes⟩

/-- **Selecting the destination.** After any calls of `xlogfile` the next message goes where the last
call says, if and only if the state before this call is one that it forgets. -/
theorem xlogfile_last_iff {fs : Fs} (hopens : ∀ p, fs.opens p = true) (errSize : List Byte → Option Nat)
    (calls : List (Option (List Byte))) (last : Option (List Byte)) {m : Message} {text : List Byte}
    (hprio : m.priority ≤ 7) (hmsg : m.msg = some text) :
    NextGoes (xlogfiles (calls ++ [last]) (Xlog.init fs errSize)) m (selected last) ↔
      Forgets (xlogfiles calls (Xlog.init fs errSize)) last := by
  have hsel := xlogfiles_sel (init_sel hopens errSize) calls
  have hlast : xlogfiles (calls ++ [last]) (Xlog.init fs errSize) =
      (xlogfile last (xlogfiles calls (Xlog.init fs errSize))).2 := by
    rw [xlogfiles, List.foldl_append]
    rfl
  rw [hlast]
  exact xlogfile_next_iff hsel last hprio hmsg

/-- A file system without files. -/
def emptyFs : Fs where
  dir := fun _ => none
  content := fun _ => []
  next := 0
  opens := fun _ => true
  fresh := by
    intro p i hp
    cases hp

/-- A message at the level `LOG_INFO`. -/
def infoMessage : Message where
  priority := 6
  filename := some (chars ['a', '.', 'c'])
  line := 1
  funcname := some (chars ['f'])
  errno := []
  msg := some (chars ['m'])
  tstr := chars ['t', '\n']

/-- A path after `stdout`. -/
theorem xlogfile_last_path :
    NextGoes (xlogfiles ([some stdoutName] ++ [some (chars ['a'])]) (Xlog.init emptyFs fun _ => none)) infoMessage
      (some (.path (chars ['/', 'v', 'a', 'r', '/', 'l', 'o', 'g', '/', 'a', '.', 'l', 'o', 'g']))) :=
  (xlogfile_last_iff (fun _ => rfl) (fun _ => none) [some stdoutName] (some (chars ['a'])) (by decide) rfl).mpr
    (forgets_of_path ⟨by decide, by decide, by decide⟩)

/-- Logging is not switched off from `stdout`. -/
theorem xlogfile_off_stdout :
    ¬ NextGoes (xlogfiles ([some stdoutName] ++ [none]) (Xlog.init emptyFs fun _ => none)) infoMessage
      (selected none) := by
  intro hgoes
  have hm : Emitted infoMessage (xlogfiles ([some stdoutName] ++ [none]) (Xlog.init emptyFs fun _ => none))
      (chars ['m']) := ⟨by decide, rfl⟩
  rw [nextGoes_stdout hm rfl] at hgoes
  cases hgoes

end Xdebug
end Xlibc
