import Xlibc.Base.Stdio
import Xlibc.Xsha1.Update

/-!
# Xlibc.Xsha1.Stream

The digests of a buffer and of a file.

* `xsha1buf_eq` : the length of a buffer goes through a `uint32_t`.
* `fillLoop_reads` : one block of the file, in any number of reads.
* `xsha1file_digest` : the digest of the whole file, or a failed read among those that were made.
-/

namespace Xlibc
namespace Xsha1

open Xfile (memcpy)

/-! ## The code -/

def BLOCKSIZE : Nat := 32768

/-- How the inner loop is left. -/
inductive Fill where
  | whole
  | rest
  | failed
  deriving DecidableEq

/-- The inner `while (1)`: how it is left, the buffer, `sum` and the file. -/
def fillLoop (buffer : List Byte) (sum : Nat) (file : FILE) :
    List Fread → Option (Fill × List Byte × Nat × FILE × List Fread)
  | [] => none
  | event :: schedule => do
    let (got, file) := fread file (BLOCKSIZE - sum) event
    let buffer ← storeBytes buffer sum got
    let n := got.length
    let sum := sum + n
    if sum = BLOCKSIZE then some (.whole, buffer, sum, file, schedule)
    else if n = 0 then
      if file.ferror then some (.failed, buffer, sum, file, schedule)
      else some (.rest, buffer, sum, file, schedule)
    else if file.feof then some (.rest, buffer, sum, file, schedule)
    else fillLoop buffer sum file schedule

section Code

variable (bigEndian : Bool) (junk : SHA1_CTX)

/-- The outer `while (1)`, every round of which reads; the result, `resblock`, and the events that no read has
come upon. -/
def streamLoop : Nat → SHA1_CTX → List Byte → FILE → List Fread →
    Option (Int × Option (List Byte) × List Fread)
  | 0, _, _, _, _ => none
  | fuel + 1, ctx, buffer, file, schedule => do
    let (fill, buffer, sum, file, schedule) ← fillLoop buffer 0 file schedule
    match fill with
    | .whole =>
      let ctx ← SHA1Update bigEndian ctx buffer BLOCKSIZE
      streamLoop fuel ctx buffer file schedule
    | .rest =>
      let ctx ← if sum > 0 then SHA1Update bigEndian ctx buffer sum else some ctx
      let (resblock, _) ← SHA1Final bigEndian ctx
      some (0, some resblock, schedule)
    | .failed => some (1, none, schedule)

/-- `buffer` is what `malloc` returns. -/
def sha1Stream (buffer : Option (List Byte)) (file : FILE) (schedule : List Fread) :
    Option (Int × Option (List Byte) × List Fread) :=
  match buffer with
  | none => some (1, none, schedule)
  | some buffer => streamLoop bigEndian (schedule.length + 1) (SHA1Init junk) buffer file schedule

/-- `contents` is the file, if `fopen` opens it. -/
def xsha1file (buffer contents : Option (List Byte)) (schedule : List Fread) :
    Option (Option (List Byte) × List Fread) :=
  match contents with
  | none => some (none, schedule)
  | some contents => do
    let (ret, digest, schedule) ← sha1Stream bigEndian junk buffer ⟨contents, false, false⟩ schedule
    some (if ret ≠ 0 then none else digest, schedule)

def sha1Buffer (buffer : List Byte) : Option (List Byte) := do
  let ctx ← SHA1Update bigEndian (SHA1Init junk) buffer (u32 buffer.length)
  let (resblock, _) ← SHA1Final bigEndian ctx
  some resblock

def xsha1buf (buffer : List Byte) : Option (List Byte) := sha1Buffer bigEndian junk buffer

end Code

/-! ## Buffers -/

section Stream

variable (bigEndian : Bool) {junk : SHA1_CTX}

/-- A buffer from 2^32 bytes on is hashed as if the multiple of 2^32 were not there. -/
theorem xsha1buf_eq (hjunk : junk.buffer.length = 64) (buffer : List Byte) :
    xsha1buf bigEndian junk buffer = some (sha1 (buffer.take (u32 buffer.length))) := by
  have hlt : u32 buffer.length < 2 ^ 32 := Nat.mod_lt _ (Nat.two_pow_pos 32)
  obtain ⟨ctx, hupdate, h⟩ := SHA1Update_holds bigEndian (SHA1Init_holds hjunk) buffer _
    (Nat.mod_le buffer.length (2 ^ 32)) (by rw [List.length_nil, Nat.zero_mod, Nat.zero_add]; exact hlt)
  rw [List.nil_append] at h
  simp only [xsha1buf, sha1Buffer, u32, hupdate, SHA1Final_digest bigEndian h, Option.bind_eq_bind, Option.bind_some]

/-! ## Files -/

/-- The reads made by a call that has left `schedule'` of `schedule`: an error that the file now shows was there
before, or is one of theirs. -/
def Failed (file file' : FILE) (schedule schedule' : List Fread) : Prop :=
  ∃ made, schedule = made ++ schedule' ∧
    (file'.ferror = true → file.ferror = true ∨ ∃ n, Fread.error n ∈ made)

theorem Failed.trans {file file1 file' : FILE} {schedule schedule1 schedule' : List Fread}
    (h : Failed file file1 schedule schedule1) (h' : Failed file1 file' schedule1 schedule') :
    Failed file file' schedule schedule' := by
  obtain ⟨made, rfl, hbad⟩ := h
  obtain ⟨made', rfl, hbad'⟩ := h'
  refine ⟨made ++ made', (List.append_assoc made made' schedule').symm, fun hflag => ?_⟩
  rcases hbad' hflag with h1 | ⟨n, hn⟩
  · exact (hbad h1).imp_right fun ⟨n, hn⟩ => ⟨n, List.mem_append_left _ hn⟩
  · exact .inr ⟨n, List.mem_append_right _ hn⟩

/-- What is known when the inner loop has read `got`. -/
structure Reads (file : FILE) (schedule : List Fread) (buffer : List Byte) (sum : Nat) (got : List Byte)
    (fill : Fill) (buffer' : List Byte) (sum' : Nat) (file' : FILE) (schedule' : List Fread) : Prop where
  left : file.left = got ++ file'.left
  length : buffer'.length = buffer.length
  total : sum' = sum + got.length
  bound : sum' ≤ BLOCKSIZE
  buffer : buffer'.take sum' = buffer.take sum ++ got
  whole : fill = .whole → sum' = BLOCKSIZE ∧ schedule.length ≤ schedule'.length + got.length
  rest : fill = .rest → file'.left = []
  failed : fill = .failed → file'.ferror = true
  made : Failed file file' schedule schedule'
  feof : file'.feof = true → file'.left = []
  shorter : schedule'.length < schedule.length

theorem fillLoop_reads {schedule : List Fread} : ∀ (buffer : List Byte) (sum : Nat) (file : FILE),
    buffer.length = BLOCKSIZE + 72 → sum < BLOCKSIZE → (file.feof = true → file.left = []) →
    file.left.length < schedule.length →
    ∃ got fill buffer' sum' file' schedule',
      fillLoop buffer sum file schedule = some (fill, buffer', sum', file', schedule') ∧
      Reads file schedule buffer sum got fill buffer' sum' file' schedule' := by
  induction schedule with
  | nil => exact fun _ _ _ _ _ _ h => absurd h (Nat.not_lt_zero _)
  | cons event schedule ih =>
    intro buffer sum file hbuffer hsum hfeof hlen
    obtain ⟨hleft, hsize⟩ := fread_parts file (BLOCKSIZE - sum) event
    have heof := fread_feof (BLOCKSIZE - sum) event hfeof
    have herror := fread_ferror file (BLOCKSIZE - sum) event
    have hnothing := fread_nothing file event (show 0 < BLOCKSIZE - sum by omega)
    rw [fillLoop]
    generalize hread : fread file (BLOCKSIZE - sum) event = result at *
    obtain ⟨got, file1⟩ := result
    simp only at hleft hsize heof herror hnothing
    obtain ⟨buffer1, hstore⟩ := storeBytes_some got (show sum + got.length ≤ buffer.length by omega)
    have hlen1 := storeBytes_length hstore
    have htake1 := take_storeBytes hstore
    have hmade : Failed file file1 (event :: schedule) schedule :=
      ⟨[event], rfl, fun h => (herror h).imp_right fun ⟨n, hn⟩ => ⟨n, by rw [hn]; exact List.mem_cons_self⟩⟩
    have hdone (fill : Fill) (hwhole : fill = .whole → sum + got.length = BLOCKSIZE ∧
        (event :: schedule).length ≤ schedule.length + got.length) (hrest : fill = .rest → file1.left = [])
        (hfailed : fill = .failed → file1.ferror = true) :
        Reads file (event :: schedule) buffer sum got fill buffer1 (sum + got.length) file1 schedule :=
      ⟨hleft, hlen1, rfl, by omega, htake1, hwhole, hrest, hfailed, hmade, heof, Nat.lt_succ_self _⟩
    simp only [hstore, Option.bind_eq_bind, Option.bind_some]
    by_cases hwhole : sum + got.length = BLOCKSIZE
    · rw [if_pos hwhole]
      exact ⟨got, _, _, _, _, _, rfl,
        hdone .whole (fun _ => ⟨hwhole, by rw [List.length_cons]; omega⟩) nofun nofun⟩
    rw [if_neg hwhole]
    by_cases hzero : got.length = 0
    · rw [if_pos hzero]
      cases hflag : file1.ferror with
      | true => exact ⟨got, _, _, _, _, _, rfl, hdone .failed nofun nofun (fun _ => hflag)⟩
      | false => exact ⟨got, _, _, _, _, _, rfl, hdone .rest nofun (fun _ => hnothing hzero hflag) nofun⟩
    rw [if_neg hzero]
    cases hflag : file1.feof with
    | true => exact ⟨got, _, _, _, _, _, rfl, hdone .rest nofun (fun _ => heof hflag) nofun⟩
    | false =>
      have hshort : file1.left.length < schedule.length := by
        have := congrArg List.length hleft
        rw [List.length_append] at this
        rw [List.length_cons] at hlen
        omega
      obtain ⟨more, fill, buffer', sum', file', schedule', hloop, h⟩ :=
        ih buffer1 (sum + got.length) file1 (by omega) (by omega) heof hshort
      refine ⟨got ++ more, fill, buffer', sum', file', schedule', hloop, ?_⟩
      refine ⟨by rw [List.append_assoc, ← h.left, hleft], by rw [h.length, hlen1],
        by rw [h.total, List.length_append, Nat.add_assoc], h.bound, by rw [h.buffer, htake1, List.append_assoc],
        fun hf => ⟨(h.whole hf).1, ?_⟩, h.rest, h.failed, hmade.trans h.made, h.feof, Nat.lt_succ_of_lt h.shorter⟩
      have := (h.whole hf).2
      rw [List.length_cons, List.length_append]
      omega

theorem streamLoop_digest : ∀ (fuel : Nat) (file : FILE) {ctx : SHA1_CTX} {text buffer : List Byte}
    {schedule : List Fread}, Holds ctx text → buffer.length = BLOCKSIZE + 72 →
      (file.feof = true → file.left = []) →
    file.left.length < schedule.length → schedule.length < fuel →
    ∃ rest, streamLoop bigEndian fuel ctx buffer file schedule = some (0, some (sha1 (text ++ file.left)), rest) ∨
      streamLoop bigEndian fuel ctx buffer file schedule = some (1, none, rest) ∧
        ∃ file' : FILE, file'.ferror = true ∧ Failed file file' schedule rest := by
  intro fuel
  induction fuel with
  | zero =>
    intro _ _ _ _ _ _ _ _ _ h
    exact absurd h (Nat.not_lt_zero _)
  | succ fuel ih =>
    intro file ctx text buffer schedule h hbuffer hfeof hlen hfuel
    obtain ⟨got, fill, buffer', sum', file', schedule', hfill, hreads⟩ :=
      fillLoop_reads buffer 0 file hbuffer (by decide) hfeof hlen
    have hsum : sum' = got.length := by rw [hreads.total, Nat.zero_add]
    have htake : buffer'.take sum' = got := by rw [hreads.buffer, List.take_zero, List.nil_append]
    have hfits : sum' ≤ buffer'.length := by
      rw [hreads.length, hbuffer]
      exact Nat.le_trans hreads.bound (Nat.le_add_right _ _)
    have hbound : sum' ≤ 32768 := hreads.bound
    simp only [streamLoop, hfill, Option.bind_eq_bind, Option.bind_some]
    cases fill with
    | whole =>
      obtain ⟨hwhole, hschedule⟩ := hreads.whole rfl
      obtain ⟨ctx', hupdate, h'⟩ := SHA1Update_holds bigEndian h buffer' sum' hfits (by omega)
      rw [htake] at h'
      rw [hwhole] at hupdate
      have hlen' := congrArg List.length hreads.left
      rw [List.length_append] at hlen'
      have hshorter := hreads.shorter
      have hlen1 : file'.left.length < schedule'.length := by omega
      simp only [hupdate, Option.bind_some]
      rw [hreads.left, ← List.append_assoc]
      obtain ⟨rest, hrun⟩ := ih file' h' (by rw [hreads.length, hbuffer]) hreads.feof hlen1 (by omega)
      exact ⟨rest, hrun.imp_right fun ⟨hfail, last, hflag, hmade⟩ =>
        ⟨hfail, last, hflag, hreads.made.trans hmade⟩⟩
    | rest =>
      have hall : file.left = got := by rw [hreads.left, hreads.rest rfl, List.append_nil]
      rw [hall]
      refine ⟨schedule', .inl ?_⟩
      by_cases hpos : sum' > 0
      · obtain ⟨ctx', hupdate, h'⟩ := SHA1Update_holds bigEndian h buffer' sum' hfits (by omega)
        rw [htake] at h'
        simp only [if_pos hpos, hupdate, Option.bind_some, SHA1Final_digest bigEndian h']
      · have hnil : got = [] := List.length_eq_zero_iff.mp (by omega)
        simp only [if_neg hpos, Option.bind_some, SHA1Final_digest bigEndian h, hnil, List.append_nil]
    | failed => exact ⟨schedule', .inr ⟨rfl, file', hreads.failed rfl, hreads.made⟩⟩

/-- **Files in any reads.** However `fread` cuts the file up, `xsha1file` returns; what it returns is the digest of
the whole file, or `NULL` when one of the reads that it has made has failed. -/
theorem xsha1file_digest (hjunk : junk.buffer.length = 64) {buffer : List Byte}
    (hbuffer : buffer.length = BLOCKSIZE + 72)
    {contents : List Byte} {schedule : List Fread} (hlen : contents.length < schedule.length) :
    ∃ rest, xsha1file bigEndian junk (some buffer) (some contents) schedule = some (some (sha1 contents), rest) ∨
      xsha1file bigEndian junk (some buffer) (some contents) schedule = some (none, rest) ∧
        ∃ made, schedule = made ++ rest ∧ ∃ n, Fread.error n ∈ made := by
  obtain ⟨rest, hrun⟩ := streamLoop_digest bigEndian (schedule.length + 1) ⟨contents, false, false⟩
    (SHA1Init_holds hjunk) hbuffer nofun hlen (Nat.lt_succ_self _)
  rw [List.nil_append] at hrun
  refine ⟨rest, ?_⟩
  rcases hrun with hdone | ⟨hfail, file', hflag, made, hmade, hbad⟩
  · left
    simp only [xsha1file, sha1Stream, hdone, Option.bind_eq_bind, Option.bind_some]
    rfl
  · refine .inr ⟨?_, made, hmade, (hbad hflag).resolve_left nofun⟩
    simp only [xsha1file, sha1Stream, hfail, Option.bind_eq_bind, Option.bind_some]
    rfl

/-- The text `abc` in two reads, the second of which comes to the end. -/
theorem xsha1file_abc : ∃ rest,
    xsha1file false ⟨H0, 0, 0, List.replicate 64 0⟩ (some (List.replicate (BLOCKSIZE + 72) 0))
      (some [0x61, 0x62, 0x63])
      [.upTo 0 false, .upTo 7 true, .upTo 0 true, .upTo 0 true] = some (some (sha1 [0x61, 0x62, 0x63]), rest) := by
  obtain ⟨rest, hdone | ⟨-, made, hmade, n, hn⟩⟩ := @xsha1file_digest false
    ⟨H0, 0, 0, List.replicate 64 0⟩ rfl (List.replicate (BLOCKSIZE + 72) 0) List.length_replicate [0x61, 0x62, 0x63]
    [.upTo 0 false, .upTo 7 true, .upTo 0 true, .upTo 0 true] (by simp)
  · exact ⟨rest, hdone⟩
  · -- none of the reads fails
    have hmem : Fread.error n ∈ made ++ rest := List.mem_append_left _ hn
    rw [← hmade] at hmem
    simp at hmem

end Stream

end Xsha1
end Xlibc
