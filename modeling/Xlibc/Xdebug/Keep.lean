import Xlibc.Base.Run
import Xlibc.Xdebug.Limit
import Xlibc.Xdebug.Sink

/-!
# Xlibc.Xdebug.Keep

What a message does to the destination of later ones. The rotation that it may start is kept away from
`stdout`, but not from `stderr`.

* `Xlog.call`, `Xlog.sink` : the calls that change the log, and where it goes.
* `LogState`               : what holds after any calls.
* `xsyslog_keeps_iff`      : when a message leaves the destination as it is.
-/

namespace Xlibc
namespace Xdebug

inductive LogCall where
  | file (newfile : Option (List Byte))
  | size (fsize : Int)
  | level (level : Int)
  | message (m : Message)

def Xlog.call : LogCall → Xlog → Option Xlog
  | .file newfile, s => some (xlogfile newfile s).2
  | .size fsize, s => some (xlogfsize fsize s).2
  | .level level, s => some (xloglevel level s).2
  | .message m, s => (xsyslog m s).map Prod.snd

/-- Where the next message is to go. -/
def Xlog.sink (s : Xlog) : Option Dest :=
  match s.fp with
  | none => if s.syslog = true then some .syslog else none
  | some .stdout => some .stdout
  | some .stderr => some .stderr
  | some (.file _) => some (.path s.file)

/-- What holds after any calls, if every file can be opened: a file in use is the one of the path. -/
structure LogState (s : Xlog) : Prop where
  opens : ∀ p, s.fs.opens p = true
  file : s.file = syslogName ∨ ∃ x, s.file = logPath x
  opened : ∀ i, s.fp = some (.file i) → s.fs.dir s.file = some i ∧ ∃ x, s.file = logPath x

theorem init_logState {fs : Fs} (hopens : ∀ p, fs.opens p = true) (errSize : List Byte → Option Nat) :
    LogState (Xlog.init fs errSize) where
  opens := hopens
  file := .inl rfl
  opened := by
    intro i hfp
    cases hfp

theorem LogState.closeOld {s : Xlog} (h : LogState s) : LogState s.closeOld := by
  rcases closeOld_cases s with ⟨-, hc⟩ | ⟨-, hc⟩ | ⟨-, -, hc⟩
  · rw [hc]
    exact h
  · rw [hc]
    exact h
  · rw [hc]
    exact ⟨h.opens, h.file, by intro i hi; cases hi⟩

/-- A path that has been opened. -/
theorem opened_logState {s : Xlog} {x : List Byte} {fs : Fs} {i : Nat} (hopens : ∀ p, fs.opens p = true)
    (hdir : fs.dir (logPath x) = some i) : LogState (s.opened (logPath x) fs i) where
  opens := hopens
  file := .inr ⟨x, rfl⟩
  opened := by
    intro j hj
    cases hj
    exact ⟨hdir, x, rfl⟩

theorem xlogfile_logState {s : Xlog} (h : LogState s) (newfile : Option (List Byte)) :
    LogState (xlogfile newfile s).2 := by
  have hclose := h.closeOld
  rcases xlogfile_cases h.opens newfile with ⟨-, hr⟩ | ⟨-, hr⟩ | ⟨-, hr⟩ | ⟨-, hr⟩ |
    ⟨name, fs, i, -, -, hopen, hr⟩
  · rw [hr]
    exact hclose
  · rw [hr]
    exact ⟨hclose.opens, hclose.file, hclose.opened⟩
  · rw [hr]
    exact ⟨hclose.opens, hclose.file, by intro i hi; cases hi⟩
  · rw [hr]
    exact ⟨hclose.opens, hclose.file, by intro i hi; cases hi⟩
  · rw [hr]
    refine opened_logState ?_ (Fs.fopen_dir hopen)
    intro p
    rw [Fs.fopen_opens hopen]
    exact h.opens p

theorem xlogfsize_logState {s : Xlog} (h : LogState s) (fsize : Int) : LogState (xlogfsize fsize s).2 := by
  unfold xlogfsize
  split
  · exact h
  · exact ⟨h.opens, h.file, h.opened⟩

theorem xloglevel_logState {s : Xlog} (h : LogState s) (level : Int) : LogState (xloglevel level s).2 := by
  unfold xloglevel
  split
  · exact h
  · exact ⟨h.opens, h.file, h.opened⟩

/-! ## A message -/

/-- A message that does not turn a large `stderr` into the log file that was chosen before. -/
def Unmoved (s : Xlog) (m : Message) : Prop :=
  s.fp = some .stderr → m.priority ≤ s.level → m.msg ≠ none →
    s.file = syslogName ∨ s.fsize = 0 ∨ ∀ size, s.errSize s.stderr = some size → (size : Int) < s.fsize

/-- Writing changes neither the destination nor a name. -/
theorem written_sink (s : Xlog) (m : Message) (text : List Byte) (fp : Stream) :
    ((s.output m text fp).printCopy m text).sink = s.sink := by
  unfold Xlog.printCopy
  split <;> cases fp <;> rfl

theorem written_logState {s : Xlog} (h : LogState s) (m : Message) (text : List Byte) (fp : Stream) :
    LogState ((s.output m text fp).printCopy m text) := by
  unfold Xlog.printCopy
  split <;> cases fp <;> exact ⟨h.opens, h.file, h.opened⟩

theorem sink_of_fp {s s' : Xlog} {fp : Stream} (hs : s.fp = some fp) (hs' : s'.fp = some fp)
    (hfile : s'.file = s.file) : s'.sink = s.sink := by
  unfold Xlog.sink
  rw [hs, hs', hfile]
  cases fp <;> rfl

theorem full_stderr {s : Xlog} (hfp : s.fp = some .stderr) : s.Full ↔
    ¬ (s.fsize = 0 ∨ ∀ size, s.errSize s.stderr = some size → (size : Int) < s.fsize) := by
  constructor
  · rintro ⟨hzero, -, size, hstat, hle⟩ (h | h)
    · exact hzero h
    · rw [hfp] at hstat
      have := h size hstat
      omega
  · intro h
    rw [not_or] at h
    by_contra hfull
    refine h.2 fun size hstat => ?_
    by_contra hle
    exact hfull ⟨h.1, by rw [hfp]; simp, size, by rw [hfp]; exact hstat, by omega⟩

/-- A rotation opens the path again. -/
theorem rotated_path {s : Xlog} (h : LogState s) (hfull : s.Full) {x : List Byte} (hx : s.file = logPath x) :
    ∃ fs i, (xlogswap s).2 = s.moveFile.opened s.file fs i ∧ LogState (s.moveFile.opened s.file fs i) := by
  obtain ⟨fs, i, hswap, hdir, hopens⟩ := reopen h.opens hx hfull
  refine ⟨fs, i, by rw [hswap], ?_⟩
  rw [hx] at hdir ⊢
  exact opened_logState (fun p => by rw [hopens]; exact h.opens p) hdir

/-- With the initial path, `xlogfile("syslog")` is called, which does not touch a stream. -/
theorem rotated_initial {s : Xlog} (h : LogState s) (hfull : s.Full) (hfp : s.fp = some .stderr)
    (hname : s.file = syslogName) :
    (xlogswap s).2 = { s.moveFile with syslog := true } ∧ LogState { s.moveFile with syslog := true } := by
  have hclose : s.moveFile.closeOld = s.moveFile := if_neg fun hc => hc.2.2 hfp
  refine ⟨by rw [xlogswap_full hfull, hname, xlogfile_syslog, hclose], ?_, .inl hname, ?_⟩
  · intro p
    show s.moveFile.fs.opens p = true
    rw [Xlog.moveFile]
    simp only [Fs.rename_opens]
    exact h.opens p
  · intro i hi
    have hi : s.fp = some (.file i) := hi
    rw [hfp] at hi
    cases hi

/-- The test for rotation: the log goes where it went, unless `stderr` is rotated. -/
theorem xlogswap_sink {s : Xlog} (h : LogState s) (hopen : s.fp ≠ none) :
    ∃ fp, (xlogswap s).2.fp = some fp ∧ LogState (xlogswap s).2 ∧
      ((xlogswap s).2.sink = s.sink ↔ (s.fp = some .stderr → s.file = syslogName ∨ s.fsize = 0 ∨
        ∀ size, s.errSize s.stderr = some size → (size : Int) < s.fsize)) := by
  by_cases hfull : s.Full
  · cases hfp : s.fp with
    | none => exact absurd hfp hopen
    | some fp =>
      cases fp with
      | stdout => exact absurd hfp hfull.2.1
      | stderr =>
        rcases h.file with hname | ⟨x, hx⟩
        · obtain ⟨hrun, hstate⟩ := rotated_initial h hfull hfp hname
          rw [hrun]
          exact ⟨.stderr, hfp, hstate, iff_of_true (sink_of_fp hfp hfp rfl) fun _ => .inl hname⟩
        · obtain ⟨fs, i, hrun, hstate⟩ := rotated_path h hfull hx
          rw [hrun]
          refine ⟨.file i, rfl, hstate, iff_of_false ?_ ?_⟩
          · unfold Xlog.sink
            rw [hfp]
            exact fun heq => nomatch heq
          · intro hkeeps
            rcases hkeeps rfl with hname | hsmall
            · exact (isPath_logPath x).1 (hx.symm.trans hname)
            · exact (full_stderr hfp).mp hfull hsmall
      | file i =>
        obtain ⟨-, x, hx⟩ := h.opened i hfp
        obtain ⟨fs, j, hrun, hstate⟩ := rotated_path h hfull hx
        rw [hrun]
        refine ⟨.file j, rfl, hstate, iff_of_true ?_ fun hne => nomatch hne⟩
        unfold Xlog.sink
        rw [hfp]
        rfl
  · obtain ⟨fp, hfp⟩ := Option.ne_none_iff_exists'.mp hopen
    rw [xlogswap_keeps hfull]
    refine ⟨fp, hfp, h, iff_of_true rfl fun herr => .inr ?_⟩
    by_contra hlarge
    exact hfull ((full_stderr herr).mpr hlarge)

/-- A message for the system log. -/
theorem syslog_sink {s : Xlog} (h : LogState s) {m : Message} {text : List Byte} (hm : Emitted m s text)
    (hfp : s.fp = none) (hsyslog : s.syslog = true) :
    ∃ s', xsyslog m s = some (some .syslog, s') ∧ LogState s' ∧ s'.sink = s.sink := by
  have hrun : xsyslog m s = some (some .syslog,
      { s with syslogd := s.syslogd ++ [(m.priority, m.mark ++ text)] }.printCopy m text) := by
    rw [xsyslog, if_neg (Int.not_lt.mpr hm.priority), if_neg (by rw [hsyslog]; simp), hm.msg]
    simp only
    rw [Xlog.emit, if_neg (not_not_intro hfp)]
    rfl
  refine ⟨_, hrun, ?_, ?_⟩
  · unfold Xlog.printCopy
    split
    · exact ⟨h.opens, h.file, h.opened⟩
    · exact ⟨h.opens, h.file, h.opened⟩
  · unfold Xlog.printCopy
    split
    · rfl
    · rfl

/-- A message that is written. -/
theorem emitted_sink {s : Xlog} (h : LogState s) {m : Message} {text : List Byte} (hm : Emitted m s text) :
    ∃ sink s', xsyslog m s = some (sink, s') ∧ LogState s' ∧ (s'.sink = s.sink ↔ Unmoved s m) := by
  by_cases hfp : s.fp = none
  · have hunmoved : Unmoved s m := by
      intro herr
      rw [hfp] at herr
      cases herr
    by_cases hsyslog : s.syslog = true
    · obtain ⟨s', hrun, hstate, hsink⟩ := syslog_sink h hm hfp hsyslog
      exact ⟨_, s', hrun, hstate, iff_of_true hsink hunmoved⟩
    · exact ⟨none, s, xsyslog_nowhere hm hfp (Bool.not_eq_true _ ▸ hsyslog), h, iff_of_true rfl hunmoved⟩
  · obtain ⟨fp, hswap, hstate, hsink⟩ := xlogswap_sink h hfp
    refine ⟨_, _, xsyslog_stream hm hfp hswap, written_logState hstate m text fp, ?_⟩
    rw [written_sink, hsink]
    constructor
    · intro hkeeps herr _ _
      exact hkeeps herr
    · intro hunmoved herr
      exact hunmoved herr hm.priority (by rw [hm.msg]; exact Option.some_ne_none _)

/-- One message. -/
theorem xsyslog_sink {s : Xlog} (h : LogState s) (m : Message) :
    ∃ sink s', xsyslog m s = some (sink, s') ∧ LogState s' ∧ (s'.sink = s.sink ↔ Unmoved s m) := by
  by_cases hprio : m.priority ≤ s.level
  · cases hmsg : m.msg with
    | none =>
      have hunmoved : Unmoved s m := fun _ _ hsome => absurd hmsg hsome
      by_cases hoff : s.syslog = false ∧ s.fp = none
      · exact ⟨none, s, by rw [xsyslog, if_neg (by omega), if_pos hoff], h, iff_of_true rfl hunmoved⟩
      · refine ⟨none, { s with stderr := s.stderr ++ memoryExhausted }, ?_, ⟨h.opens, h.file, h.opened⟩,
          iff_of_true rfl hunmoved⟩
        rw [xsyslog, if_neg (by omega), if_neg hoff, hmsg]
    | some text => exact emitted_sink h ⟨hprio, hmsg⟩
  · exact ⟨none, s, by rw [xsyslog, if_pos (by omega)], h, iff_of_true rfl fun _ hle => absurd hle hprio⟩

/-! ## Any calls -/

theorem call_logState {s s' : Xlog} (h : LogState s) {c : LogCall} (hcall : s.call c = some s') :
    LogState s' := by
  cases c with
  | file newfile =>
    cases hcall
    exact xlogfile_logState h newfile
  | size fsize =>
    cases hcall
    exact xlogfsize_logState h fsize
  | level level =>
    cases hcall
    exact xloglevel_logState h level
  | message m =>
    obtain ⟨sink, t, hrun, hstate, -⟩ := xsyslog_sink h m
    rw [Xlog.call, hrun] at hcall
    cases hcall
    exact hstate

/-- The states that calls lead to. -/
def Calls (fs : Fs) (errSize : List Byte → Option Nat) (calls : List LogCall) (s : Xlog) : Prop :=
  Run (fun s c s' => s.call c = some s') (Xlog.init fs errSize) calls s

theorem calls_logState {fs : Fs} (hopens : ∀ p, fs.opens p = true) {errSize : List Byte → Option Nat}
    {calls : List LogCall} {s : Xlog} (h : Calls fs errSize calls s) : LogState s :=
  Run.invariant (I := fun _ s => LogState s) (init_logState hopens errSize)
    (fun _ hstate hcall => call_logState hstate hcall) h

/-- **The destination.** After any calls, a message leaves the destination of later ones as it is, and a
file in use as the one of its path, if and only if it does not rotate `stderr`. -/
theorem xsyslog_keeps_iff {fs : Fs} (hopens : ∀ p, fs.opens p = true) {errSize : List Byte → Option Nat}
    {calls : List LogCall} {s : Xlog} (h : Calls fs errSize calls s) (m : Message) :
    (∃ sink s', xsyslog m s = some (sink, s') ∧ s'.sink = s.sink ∧
      ∀ i, s'.fp = some (.file i) → s'.fs.dir s'.file = some i) ↔ Unmoved s m := by
  obtain ⟨sink, s', hrun, hstate, hsink⟩ := xsyslog_sink (calls_logState hopens h) m
  rw [← hsink]
  constructor
  · rintro ⟨sink', t, hrun', heq, -⟩
    rw [hrun] at hrun'
    cases hrun'
    exact heq
  · intro heq
    exact ⟨sink, s', hrun, heq, fun i hi => (hstate.opened i hi).1⟩

/-- The calls that choose a file and then `stderr`. -/
def stderrCalls : List LogCall := [.file (some (chars ['a'])), .file (some stderrName)]

/-- The state behind them, where `stderr` is a file of 70000 bytes. -/
def stderrLog : Xlog := xlogfiles [some (chars ['a']), some stderrName] (Xlog.init emptyFs fun _ => some 70000)

theorem stderrLog_calls : Calls emptyFs (fun _ => some 70000) stderrCalls stderrLog :=
  .snoc (.snoc .nil rfl) rfl

/-- A message on its way to the file that has been chosen first. -/
theorem xsyslog_moves_stderr : ¬ ∀ fs errSize calls s m, (∀ p, fs.opens p = true) → Calls fs errSize calls s →
    ∃ sink s', xsyslog m s = some (sink, s') ∧ s'.sink = s.sink ∧
      ∀ i, s'.fp = some (.file i) → s'.fs.dir s'.file = some i := by
  intro h
  obtain ⟨sink, s', hrun, hsink, -⟩ := h emptyFs _ stderrCalls stderrLog infoMessage (fun _ => rfl) stderrLog_calls
  obtain ⟨sink', t, hrun', -, hiff⟩ := xsyslog_sink (calls_logState (fun _ => rfl) stderrLog_calls) infoMessage
  rw [hrun] at hrun'
  cases hrun'
  have hkeeps := hiff.mp hsink rfl (by decide) (by decide)
  rcases hkeeps with hname | hzero | hsmall
  · exact absurd hname (by decide)
  · exact absurd hzero (by decide)
  · exact absurd (hsmall 70000 rfl) (by decide)

/-- Behind the first call a message goes to the file. -/
theorem xsyslog_keeps_iff_file :
    ∃ sink s', xsyslog infoMessage (xlogfiles [some (chars ['a'])] (Xlog.init emptyFs fun _ => none)) =
        some (sink, s') ∧
      s'.sink = (xlogfiles [some (chars ['a'])] (Xlog.init emptyFs fun _ => none)).sink ∧
      ∀ i, s'.fp = some (.file i) → s'.fs.dir s'.file = some i := by
  have hcalls : Calls emptyFs (fun _ => none) [.file (some (chars ['a']))]
      (xlogfiles [some (chars ['a'])] (Xlog.init emptyFs fun _ => none)) := .snoc .nil rfl
  exact (xsyslog_keeps_iff (fun _ => rfl) hcalls infoMessage).mpr fun herr => nomatch herr

end Xdebug
end Xlibc
