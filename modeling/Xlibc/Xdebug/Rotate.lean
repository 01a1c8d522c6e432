import Xlibc.Xdebug.Sink

/-!
# Xlibc.Xdebug.Rotate

A log file and its swap file.

* `Archive`       : what is kept of a list of records, as records.
* `Holds`         : the two files hold an archive.
* `xlog_rotation` : after any messages they do.
-/

namespace Xlibc
namespace Xdebug

/-- The records that have been given up, those in the swap file and those in the log file. -/
structure Archive where
  old : List (List Byte)
  swapped : List (List Byte)
  live : List (List Byte)

def Archive.empty : Archive := ⟨[], [], []⟩

/-- A log of `limit` bytes or more is swapped. -/
def Archive.rotate (limit : Int) (a : Archive) : Archive :=
  if limit ≤ a.live.flatten.length then ⟨a.old ++ a.swapped, a.live, []⟩ else a

def Archive.add (limit : Int) (a : Archive) (r : List Byte) : Archive :=
  { a.rotate limit with live := (a.rotate limit).live ++ [r] }

/-- The archive of a list of records. -/
def archive (limit : Int) (rs : List (List Byte)) : Archive := rs.foldl (Archive.add limit) .empty

theorem archive_concat (limit : Int) (rs : List (List Byte)) (r : List Byte) :
    archive limit (rs ++ [r]) = (archive limit rs).add limit r := by
  rw [archive, archive, List.foldl_append]
  rfl

/-- No record is lost from the end, split or kept twice; what is swapped is large. -/
structure Archive.Sound (limit : Int) (a : Archive) (rs : List (List Byte)) : Prop where
  all : rs = a.old ++ a.swapped ++ a.live
  old : a.swapped = [] → a.old = []
  large : a.swapped ≠ [] → limit ≤ a.swapped.flatten.length

theorem Archive.Sound.rotate {limit : Int} {a : Archive} {rs : List (List Byte)} (hl : 0 < limit)
    (h : a.Sound limit rs) : (a.rotate limit).Sound limit rs := by
  unfold Archive.rotate
  split
  · next hle =>
    refine ⟨?_, ?_, fun _ => hle⟩
    · rw [List.append_nil]
      exact h.all
    · intro hnil
      have hnil : a.live = [] := hnil
      rw [hnil, List.flatten_nil, List.length_nil] at hle
      omega
  · exact h

theorem archive_sound {limit : Int} (hl : 0 < limit) (rs : List (List Byte)) :
    (archive limit rs).Sound limit rs := by
  induction rs using List.reverseRecOn with
  | nil => exact ⟨rfl, fun _ => rfl, fun h => absurd rfl h⟩
  | append_singleton rs r ih =>
    have hrot := ih.rotate hl
    rw [archive_concat]
    refine ⟨?_, hrot.old, hrot.large⟩
    conv_lhs => rw [hrot.all]
    exact List.append_assoc _ _ _

/-- There is room in the log file after the test. -/
theorem Archive.rotate_room {limit : Int} (hl : 0 < limit) (a : Archive) :
    ((a.rotate limit).live.flatten.length : Int) < limit := by
  unfold Archive.rotate
  split
  · exact hl
  · next hlt => exact Int.not_le.mp hlt

/-! ## The files -/

def swapPath (p : List Byte) : List Byte := p ++ chars ['.', 's', 'w', 'a', 'p']

theorem swapPath_ne (p : List Byte) : swapPath p ≠ p := by
  intro h
  have hlen := congrArg List.length h
  rw [swapPath, List.length_append] at hlen
  simp [chars] at hlen

/-- The path of a log file, with room for the suffix of its swap file. -/
structure LogPath (p : List Byte) : Prop where
  path : ∃ x, p = logPath x
  short : (swapPath p).length ≤ 4095

/-- The log file `i` of path `p` and its swap file hold the archive. -/
structure Holds (p : List Byte) (limit level : Int) (s : Xlog) (i : Nat) (a : Archive) : Prop where
  file : s.file = p
  fsize : s.fsize = limit
  level : s.level = level
  opens : ∀ q, s.fs.opens q = true
  fp : s.fp = some (.file i)
  dir : s.fs.dir p = some i
  live : s.fs.content i = a.live.flatten
  swap : (a.swapped = [] ∧ s.fs.dir (swapPath p) = none) ∨
    (a.swapped ≠ [] ∧ ∃ j, s.fs.dir (swapPath p) = some j ∧ j ≠ i ∧ s.fs.content j = a.swapped.flatten)

variable {p : List Byte} {limit level : Int}

/-- The file system with the log file moved away and a new one. -/
theorem moveFile_fopen (hp : LogPath p) {s : Xlog} {i : Nat} (hfile : s.file = p)
    (hopens : ∀ q, s.fs.opens q = true) (hdir : s.fs.dir p = some i) :
    ∃ fs : Fs, s.moveFile.fs.fopen p = some (fs.create p, fs.next) ∧ fs.content = s.fs.content ∧
      fs.dir (swapPath p) = some i ∧ fs.opens = s.fs.opens := by
  have hswap : snprintf pathMax (s.file ++ chars ['.', 's', 'w', 'a', 'p']) = swapPath p := by
    rw [hfile]
    exact snprintf_short hp.short
  have hdir' : (s.fs.unlink (swapPath p)).dir p = some i := by
    rw [Fs.unlink_dir_ne (swapPath_ne p).symm]
    exact hdir
  have hmove : s.moveFile.fs = (s.fs.unlink (swapPath p)).renamed p (swapPath p) i hdir' := by
    rw [Xlog.moveFile]
    simp only [hswap]
    rw [hfile, Fs.rename_of_some hdir']
  refine ⟨(s.fs.unlink (swapPath p)).renamed p (swapPath p) i hdir', ?_, rfl, Fs.renamed_dir_new hdir' _, rfl⟩
  rw [hmove]
  exact Fs.fopen_create (hopens p) (Fs.renamed_dir_old hdir' (swapPath_ne p).symm)

theorem Holds.full_iff {s : Xlog} {i : Nat} {a : Archive} (hl : 0 < limit) (h : Holds p limit level s i a) :
    s.Full ↔ limit ≤ a.live.flatten.length := by
  have hstat : s.fp.bind s.statSize = some a.live.flatten.length := by
    rw [h.fp, ← h.live]
    rfl
  constructor
  · rintro ⟨-, -, size, hsize, hle⟩
    rw [hstat] at hsize
    cases hsize
    rwa [h.fsize] at hle
  · intro hle
    refine ⟨?_, by rw [h.fp]; simp, _, hstat, by rwa [h.fsize]⟩
    rw [h.fsize]
    omega

/-- The test in front of a record: the log file is swapped if it is large. -/
theorem Holds.rotate (hp : LogPath p) (hl : 0 < limit) {s : Xlog} {i : Nat} {a : Archive}
    (h : Holds p limit level s i a) : ∃ i', Holds p limit level (xlogswap s).2 i' (a.rotate limit) := by
  by_cases hfull : s.Full
  · have hle := (h.full_iff hl).mp hfull
    obtain ⟨x, hx⟩ := hp.path
    obtain ⟨fs, hopen, hcontent, hswap, hopens⟩ := moveFile_fopen hp h.file h.opens h.dir
    have hrun : xlogswap s = (0, s.moveFile.opened p (fs.create p) fs.next) := by
      rw [xlogswap_full hfull, h.file, hx]
      rw [hx] at hopen
      exact xlogfile_logPath hopen
    have hclose : s.moveFile.closeOld = { s.moveFile with fp := none } := by
      rw [Xlog.closeOld, if_pos]
      have hfp : s.moveFile.fp = some (.file i) := h.fp
      rw [hfp]
      exact ⟨by simp, by simp, by simp⟩
    have hne : a.live ≠ [] := by
      intro hnil
      rw [hnil, List.flatten_nil, List.length_nil] at hle
      omega
    have hrotate : a.rotate limit = ⟨a.old ++ a.swapped, a.live, []⟩ := if_pos hle
    rw [hrun, hrotate, Xlog.opened, hclose]
    refine ⟨fs.next, rfl, h.fsize, h.level, ?_, rfl, Fs.create_dir_self fs p, Fs.create_content_new fs p, ?_⟩
    · intro q
      show fs.opens q = true
      rw [hopens]
      exact h.opens q
    · refine .inr ⟨hne, i, ?_, ?_, ?_⟩
      · exact (Fs.create_dir_ne (swapPath_ne p)).trans hswap
      · exact Nat.ne_of_lt (fs.fresh _ i hswap)
      · exact (Fs.create_content_old hswap p).trans ((congrFun hcontent i).trans h.live)
  · have hlt : ¬ limit ≤ a.live.flatten.length := fun hle => hfull ((h.full_iff hl).mpr hle)
    have hrotate : a.rotate limit = a := if_neg hlt
    rw [xlogswap_keeps hfull, hrotate]
    exact ⟨i, h⟩

/-- A record is appended to the log file. -/
theorem Holds.output {s : Xlog} {i : Nat} {a : Archive} (h : Holds p limit level s i a) (m : Message)
    (text : List Byte) :
    Holds p limit level ((s.output m text (.file i)).printCopy m text) i
      { a with live := a.live ++ [m.timestamp ++ (m.mark ++ text)] } := by
  have hprint : (s.output m text (.file i)).printCopy m text =
      { s with
        fs := s.fs.append i (m.timestamp ++ (m.mark ++ text))
        stderr := s.stderr ++ (m.mark ++ text) } := by
    rw [Xlog.printCopy, if_pos]
    · rfl
    · have hfp : (s.output m text (.file i)).fp = some (.file i) := h.fp
      rw [hfp]
      exact ⟨by simp, by simp⟩
  rw [hprint]
  refine ⟨h.file, h.fsize, h.level, h.opens, h.fp, h.dir, ?_, ?_⟩
  · rw [Fs.append_content_self, h.live, List.flatten_append, List.flatten_singleton]
  · cases h.swap with
    | inl hnone => exact .inl hnone
    | inr hsome =>
      obtain ⟨hne, j, hdir, hj, hcontent⟩ := hsome
      exact .inr ⟨hne, j, hdir, hj, (Fs.append_content_ne hj _).trans hcontent⟩

/-! ## Messages -/

/-- What a message adds to a log file, unless it is held back. -/
def Message.record (level : Int) (m : Message) : Option (List Byte) :=
  if m.priority ≤ level then m.msg.map fun text => m.timestamp ++ (m.mark ++ text) else none

def records (level : Int) (ms : List Message) : List (List Byte) := ms.filterMap (Message.record level)

/-- Messages one after the other. -/
def logs : List Message → Xlog → Option Xlog
  | [], s => some s
  | m :: ms, s => do
    let r ← xsyslog m s
    logs ms r.2

theorem logs_concat (ms : List Message) (m : Message) (s : Xlog) :
    logs (ms ++ [m]) s = (logs ms s).bind fun t => (xsyslog m t).map fun r => r.2 := by
  induction ms generalizing s with
  | nil =>
    rw [List.nil_append, logs, logs, Option.bind_some]
    cases xsyslog m s <;> rfl
  | cons m' ms ih =>
    rw [List.cons_append, logs, logs]
    cases xsyslog m' s with
    | none => rfl
    | some r => exact ih r.2

theorem Holds.read {s : Xlog} {i : Nat} {a : Archive} (h : Holds p limit level s i a) :
    s.fs.read p = some a.live.flatten := by
  rw [Fs.read, h.dir, Option.map_some, h.live]

/-- A message that is recorded. -/
theorem Holds.recorded (hp : LogPath p) (hl : 0 < limit) {s : Xlog} {i : Nat} {a : Archive}
    (h : Holds p limit level s i a) {m : Message} {r : List Byte} (hr : m.record level = some r) :
    ∃ sink s' i', xsyslog m s = some (sink, s') ∧ Holds p limit level s' i' (a.add limit r) ∧
      ∃ before, (xlogswap s).2.fs.read p = some before ∧ (before.length : Int) < limit ∧
        s'.fs.read p = some (before ++ r) := by
  unfold Message.record at hr
  split at hr
  · next hprio =>
    obtain ⟨text, hmsg, rfl⟩ := Option.map_eq_some_iff.mp hr
    obtain ⟨i', hrot⟩ := h.rotate hp hl
    have hm : Emitted m s text := ⟨by rwa [h.level], hmsg⟩
    have hrun := xsyslog_stream hm (by rw [h.fp]; simp) hrot.fp
    have hout := hrot.output m text
    refine ⟨_, _, i', hrun, hout, (a.rotate limit).live.flatten, hrot.read, a.rotate_room hl, ?_⟩
    rw [hout.read, List.flatten_append, List.flatten_singleton]
  · cases hr

/-- A message that is not recorded. -/
theorem Holds.unrecorded {s : Xlog} {i : Nat} {a : Archive} (h : Holds p limit level s i a) {m : Message}
    (hr : m.record level = none) :
    ∃ sink s', xsyslog m s = some (sink, s') ∧ Holds p limit level s' i a := by
  unfold Message.record at hr
  unfold xsyslog
  by_cases hprio : m.priority ≤ level
  · rw [if_pos hprio, Option.map_eq_none_iff] at hr
    rw [if_neg (by rw [h.level]; exact Int.not_lt.mpr hprio), if_neg (by rw [h.fp]; simp), hr]
    exact ⟨_, _, rfl, h.file, h.fsize, h.level, h.opens, h.fp, h.dir, h.live, h.swap⟩
  · rw [if_pos (by rw [h.level]; exact Int.not_le.mp hprio)]
    exact ⟨_, _, rfl, h⟩

/-- The files after the messages `ms`, from a state `s` where they are new. -/
structure Kept (p : List Byte) (limit level : Int) (s : Xlog) (ms : List Message) (s' : Xlog) : Prop where
  /-- The files are whole records, and the swap file has been the log file. -/
  parts : ∃ old swapped live, records level ms = old ++ swapped ++ live ∧ s'.fs.read p = some live.flatten ∧
    ((old = [] ∧ swapped = [] ∧ s'.fs.read (swapPath p) = none) ∨
      (s'.fs.read (swapPath p) = some swapped.flatten ∧ limit ≤ swapped.flatten.length ∧
        ∃ ms' t, ms' <+: ms ∧ logs ms' s = some t ∧ t.fs.read p = some swapped.flatten))
  /-- Together they are the last records. -/
  suffix : ∃ log, s'.fs.read p = some log ∧
    (s'.fs.read (swapPath p)).getD [] ++ log <:+ (records level ms).flatten
  /-- The last record has been written behind a log file with room for it. -/
  last : ∀ ms' m r, ms = ms' ++ [m] → m.record level = some r →
    ∃ t before, logs ms' s = some t ∧ (xlogswap t).2.fs.read p = some before ∧ (before.length : Int) < limit ∧
      s'.fs.read p = some (before ++ r)

/-- The swap file is a log file of before. -/
def Swapped (p : List Byte) (s : Xlog) (ms : List Message) (a : Archive) : Prop :=
  a.swapped ≠ [] → ∃ ms' t, ms' <+: ms ∧ logs ms' s = some t ∧ t.fs.read p = some a.swapped.flatten

/-- The run: after each message the files hold the archive of the records. -/
theorem logs_holds (hp : LogPath p) (hl : 0 < limit) {s : Xlog} {i : Nat}
    (h : Holds p limit level s i .empty) (ms : List Message) :
    ∃ s' i', logs ms s = some s' ∧ Holds p limit level s' i' (archive limit (records level ms)) ∧
      Swapped p s ms (archive limit (records level ms)) := by
  induction ms using List.reverseRecOn with
  | nil => exact ⟨s, i, rfl, h, fun hne => absurd rfl hne⟩
  | append_singleton ms m ih =>
    obtain ⟨t, j, hrun, ht, hswapped⟩ := ih
    have hsnoc : ∀ {sink s'}, xsyslog m t = some (sink, s') → logs (ms ++ [m]) s = some s' := by
      intro sink s' hm
      rw [logs_concat, hrun, Option.bind_some, hm]
      rfl
    cases hr : m.record level with
    | none =>
      have hrecords : records level (ms ++ [m]) = records level ms := by
        rw [records, records, List.filterMap_append, List.filterMap_cons_none hr, List.filterMap_nil,
          List.append_nil]
      obtain ⟨sink, s', hm, hs'⟩ := ht.unrecorded hr
      rw [hrecords]
      refine ⟨s', j, hsnoc hm, hs', fun hne => ?_⟩
      obtain ⟨ms', t', hpre, hrun', hread⟩ := hswapped hne
      exact ⟨ms', t', hpre.trans (List.prefix_append ms [m]), hrun', hread⟩
    | some r =>
      have hrecords : records level (ms ++ [m]) = records level ms ++ [r] := by
        rw [records, records, List.filterMap_append, List.filterMap_cons_some hr, List.filterMap_nil]
      obtain ⟨sink, s', i', hm, hs', -⟩ := ht.recorded hp hl hr
      rw [hrecords, archive_concat]
      refine ⟨s', i', hsnoc hm, hs', fun hne => ?_⟩
      -- the swap file is the log file of just before, or the same as before
      by_cases hle : limit ≤ (archive limit (records level ms)).live.flatten.length
      · refine ⟨ms, t, List.prefix_append ms [m], hrun, ?_⟩
        rw [ht.read, Archive.add, Archive.rotate, if_pos hle]
      · rw [Archive.add, Archive.rotate, if_neg hle] at hne ⊢
        obtain ⟨ms', t', hpre, hrun', hread⟩ := hswapped hne
        exact ⟨ms', t', hpre.trans (List.prefix_append ms [m]), hrun', hread⟩

theorem logs_kept (hp : LogPath p) (hl : 0 < limit) {s : Xlog} {i : Nat}
    (h : Holds p limit level s i .empty) (ms : List Message) :
    ∃ s', logs ms s = some s' ∧ Kept p limit level s ms s' := by
  obtain ⟨s', i', hrun, hs', hswapped⟩ := logs_holds hp hl h ms
  have hsound := archive_sound hl (records level ms)
  have hswap : ((archive limit (records level ms)).swapped = [] ∧ s'.fs.read (swapPath p) = none) ∨
      ((archive limit (records level ms)).swapped ≠ [] ∧
        s'.fs.read (swapPath p) = some (archive limit (records level ms)).swapped.flatten) := by
    cases hs'.swap with
    | inl hnone => exact .inl ⟨hnone.1, by rw [Fs.read, hnone.2]; rfl⟩
    | inr hsome =>
      obtain ⟨hne, j, hdir, -, hcontent⟩ := hsome
      exact .inr ⟨hne, by rw [Fs.read, hdir, Option.map_some, hcontent]⟩
  refine ⟨s', hrun, ⟨_, _, _, hsound.all, hs'.read, ?_⟩, ⟨_, hs'.read, ?_⟩, ?_⟩
  · cases hswap with
    | inl hnone => exact .inl ⟨hsound.old hnone.1, hnone.1, hnone.2⟩
    | inr hsome => exact .inr ⟨hsome.2, hsound.large hsome.1, hswapped hsome.1⟩
  · refine ⟨(archive limit (records level ms)).old.flatten, ?_⟩
    conv_rhs => rw [hsound.all, List.flatten_append, List.flatten_append, List.append_assoc]
    cases hswap with
    | inl hnone => rw [hnone.1, hnone.2, Option.getD_none, List.flatten_nil]
    | inr hsome => rw [hsome.2, Option.getD_some]
  · rintro ms' m r rfl hr
    obtain ⟨t, j, hrun', ht, -⟩ := logs_holds hp hl h ms'
    obtain ⟨sink, t', j', hm, -, before, hbefore, hroom, hread⟩ := ht.recorded hp hl hr
    rw [logs_concat, hrun', Option.bind_some, hm, Option.map_some, Option.some.injEq] at hrun
    rw [← hrun]
    exact ⟨t, before, hrun', hbefore, hroom, hread⟩

/-- **Log rotation.** From the selection of a new log file on, the swap file and the log file are at all
times the last records, in order and whole. -/
theorem xlog_rotation {s : Xlog} (hopens : ∀ q, s.fs.opens q = true) (hlimit : 0 < s.fsize) {name : List Byte}
    (hname : IsPath name) (hshort : (swapPath (logPath (snprintf pathMax name))).length ≤ 4095)
    (hlog : s.fs.dir (logPath (snprintf pathMax name)) = none)
    (hswap : s.fs.dir (swapPath (logPath (snprintf pathMax name))) = none) (ms : List Message) :
    ∃ s', logs ms (xlogfile (some name) s).2 = some s' ∧
      Kept (logPath (snprintf pathMax name)) s.fsize s.level (xlogfile (some name) s).2 ms s' := by
  obtain ⟨fp, hclose⟩ := closeOld_eq s
  rw [xlogfile_path name hname (Fs.fopen_create (hopens _) hlog)]
  refine logs_kept ⟨⟨_, rfl⟩, hshort⟩ hlimit ?_ ms (i := s.fs.next)
  exact {
    file := rfl
    fsize := by rw [Xlog.opened, hclose]
    level := by rw [Xlog.opened, hclose]
    opens := hopens
    fp := rfl
    dir := Fs.create_dir_self _ _
    live := Fs.create_content_new _ _
    swap := .inl ⟨rfl, (Fs.create_dir_ne (swapPath_ne _)).trans hswap⟩ }

/-- Two messages with a limit of one byte. -/
theorem xlog_rotation_two :
    ∃ s', logs [infoMessage, infoMessage]
        (xlogfile (some (chars ['a'])) { Xlog.init emptyFs fun _ => none with fsize := 1 }).2 = some s' ∧
      Kept (logPath (snprintf pathMax (chars ['a']))) 1 7
        (xlogfile (some (chars ['a'])) { Xlog.init emptyFs fun _ => none with fsize := 1 }).2
        [infoMessage, infoMessage] s' :=
  xlog_rotation (s := { Xlog.init emptyFs fun _ => none with fsize := 1 }) (fun _ => rfl) (by decide)
    ⟨by decide, by decide, by decide⟩ (by decide) rfl rfl [infoMessage, infoMessage]

end Xdebug
end Xlibc
