import Xlibc.Base.CStr
import Xlibc.Xfile.Read

/-!
# Xlibc.Xexccmd.Pipe

`xspipe_cmd` of `xexccmd.c`, on the side of the parent: the pipe is read to its end, in the chunks the
kernel makes of the stream, and each chunk is appended to the output with `strncpy`.

* `copied` : what `strncpy` makes of a chunk, `copied_eq_iff` when it is the chunk.
* `xspipeLoop_chunks` : the loop leaves the copies in the output, with room for one byte more.
* `xspipe_cmd_captures_iff` : when the stream is captured.
-/

namespace Xlibc
namespace Xexccmd

/-! ## The code -/

/-- What is returned, and `*output`, if that is a block. -/
structure CmdResult where
  ret : Nat
  output : Option (List Byte)
  deriving DecidableEq, Repr

/-- `PIPE_BUF` -/
def pipeBuf : Nat := 4096

/-- Behind the loop. With nothing read the output is freed. -/
def xspipeEnd (output : List Byte) (len : Nat) : Option CmdResult :=
  if len = 0 then some ⟨len, none⟩
  else do
    let last ← output[len - 1]?
    let place := if last = '\r'.toUInt8 ∨ last = '\n'.toUInt8 then len - 1 else len
    let output ← storeBytes output place [0]
    some ⟨len, some output⟩

section Code

variable (w : Nat) (grants : Nat → Bool) (fill : Byte)

/-- The loop of `xspipe_cmd`. `strncpy` reads at most `tmpLen` bytes of `buf`. -/
def xspipeLoop : List Outcome → List Byte → List Byte → List Byte → Nat → Option CmdResult
  | [], _, _, _, _ => none
  | outcome :: schedule, buf, stream, output, len =>
    match Xfile.read (buf, stream) 0 pipeBuf outcome with
    | none => none
    | some (tmpLen, _, buf, stream) =>
      if tmpLen > 0 then
        let len := (len + tmpLen.toNat) % 2 ^ w
        match Xfile.realloc grants fill (some output) ((len + 1) % 2 ^ w) with
        | none => some ⟨len, none⟩
        | some output =>
          let src := (buf.take tmpLen.toNat).takeWhile (· ≠ 0)
          if len < tmpLen.toNat then none
          else do
            let output ← storeBytes output (len - tmpLen.toNat) (strncpy src tmpLen.toNat)
            xspipeLoop schedule buf stream output len
      else xspipeEnd output len

/-- `xspipe_cmd`, with `pipe`, `fork` and `malloc` successful, for a child that writes `stream`. A `size_t`
has `w` bits, `grants n` says if `realloc` has a block of `n` bytes, and `fill` is what fresh memory holds. -/
def xspipeCmd (stream : List Byte) (schedule : List Outcome) : Option CmdResult := do
  let output ← storeBytes [fill] 0 [0]
  xspipeLoop w grants fill schedule (List.replicate pipeBuf fill) stream output 0

end Code

/-! ## strncpy of a chunk -/

/-- A chunk as `strncpy` copies it: nothing but zeros behind its first zero. -/
def copied (c : List Byte) : List Byte := strncpy (c.takeWhile (· ≠ 0)) c.length

/-- Only zeros stand behind the first zero of a chunk. -/
def Clean (c : List Byte) : Prop := ∀ b ∈ c.dropWhile (· ≠ 0), b = 0

instance (c : List Byte) : Decidable (Clean c) := List.decidableBAll (· = 0) _

theorem copied_eq (c : List Byte) :
    copied c = c.takeWhile (· ≠ 0) ++ List.replicate (c.dropWhile (· ≠ 0)).length 0 := by
  have hlen : (c.takeWhile (· ≠ 0)).length + (c.dropWhile (· ≠ 0)).length = c.length := by
    rw [← List.length_append, List.takeWhile_append_dropWhile]
  rw [copied, strncpy, List.take_of_length_le (by omega)]
  congr 2
  omega

@[simp] theorem copied_length (c : List Byte) : (copied c).length = c.length := by
  rw [copied_eq, List.length_append, List.length_replicate, ← List.length_append,
    List.takeWhile_append_dropWhile]

theorem copied_eq_iff (c : List Byte) : copied c = c ↔ Clean c := by
  have hself := List.takeWhile_append_dropWhile (p := fun b : Byte => decide (b ≠ 0)) (l := c)
  rw [copied_eq, Clean]
  constructor
  · intro h
    have hzeros := List.append_cancel_left (h.trans hself.symm)
    exact fun b hb => List.eq_of_mem_replicate (hzeros ▸ hb)
  · intro h
    rw [← List.eq_replicate_of_mem h]
    exact hself

theorem copied_nil : copied [] = [] := rfl

theorem copied_cons (b : Byte) (c : List Byte) :
    copied (b :: c) = if b = 0 then List.replicate (c.length + 1) 0 else b :: copied c := by
  by_cases hb : b = 0
  · rw [if_pos hb, copied_eq]
    simp [hb]
  · rw [if_neg hb, copied_eq, copied_eq]
    simp [hb]

theorem copied_take (c : List Byte) (k : Nat) : (copied c).take k = copied (c.take k) := by
  induction c generalizing k with
  | nil => simp [copied_nil]
  | cons b c ih =>
    cases k with
    | zero => rfl
    | succ k =>
      rw [List.take_succ_cons, copied_cons, copied_cons]
      by_cases hb : b = 0
      · simp [hb]
      · simp [hb, ih]

/-- The last byte of a chunk is copied, or it becomes a zero. -/
theorem copied_getLast (c : List Byte) : (copied c).getLast? = c.getLast? ∨ (copied c).getLast? = some 0 := by
  rcases Nat.eq_zero_or_pos (c.dropWhile (· ≠ 0)).length with hzero | hpos
  · left
    rw [(copied_eq_iff c).mpr]
    intro b hb
    rw [List.length_eq_zero_iff.mp hzero] at hb
    cases hb
  · right
    obtain ⟨n, hn⟩ := Nat.exists_eq_add_of_le' hpos
    rw [copied_eq, hn, List.replicate_succ', ← List.append_assoc, List.getLast?_concat]

/-! ## The loop -/

/-- What the chunks leave in the output. -/
def stored (chunks : List (List Byte)) : List Byte := chunks.flatMap copied

theorem stored_length (chunks : List (List Byte)) : (stored chunks).length = chunks.flatten.length := by
  induction chunks with
  | nil => rfl
  | cons c chunks ih =>
    rw [stored, List.flatMap_cons, List.length_append, copied_length, List.flatten_cons, List.length_append]
    exact congrArg _ ih

section Loop

variable {w : Nat} {grants : Nat → Bool} (fill : Byte)

theorem realloc_some (hg : ∀ n, 0 < n → grants n = true) {acc : List Byte} {b : Byte} {n : Nat}
    (hn : acc.length < n) : ∃ block, Xfile.realloc grants fill (some (acc ++ [b])) n = some block ∧
      block.length = n ∧ block.take acc.length = acc := by
  have hblock : Xfile.realloc grants fill (some (acc ++ [b])) n =
      some (reallocBytes fill ((acc ++ [b]).take n) n) := if_pos (hg n (by omega))
  have hkept : (acc ++ [b]).take n = acc ++ [b] := by
    apply List.take_of_length_le
    rw [List.length_append, List.length_singleton]
    omega
  refine ⟨_, hblock, Xfile.realloc_length hblock, ?_⟩
  rw [hkept, reallocBytes, List.append_assoc, List.take_left]

/-- A chunk behind what has been stored. -/
theorem xspipeLoop_chunk (hw : 16 ≤ w) (hg : ∀ n, 0 < n → grants n = true) {acc c buf : List Byte} {b : Byte}
    (hc : 1 ≤ c.length ∧ c.length ≤ 4096) (hfit : acc.length + c.length + 1 < 2 ^ w)
    (hbuf : buf.length = 4096) (schedule : List Outcome) (stream : List Byte) :
    ∃ buf' b', buf'.length = 4096 ∧
      xspipeLoop w grants fill (.count c.length :: schedule) buf (c ++ stream) (acc ++ [b]) acc.length =
        xspipeLoop w grants fill schedule buf' stream (acc ++ copied c ++ [b'])
          (acc ++ copied c).length := by
  obtain ⟨buf', hread, hbuf', htake⟩ := Xfile.read_chunk hbuf hc.2 stream
  obtain ⟨block, hblock, hlen, hkept⟩ := realloc_some fill hg (b := b)
    (show acc.length < acc.length + c.length + 1 by omega)
  obtain ⟨block', hstore⟩ := storeBytes_some (copied c)
    (show acc.length + (copied c).length ≤ block.length by rw [copied_length]; omega)
  obtain ⟨b', hb'⟩ : ∃ b', block' = acc ++ copied c ++ [b'] := by
    apply Xfile.eq_append_byte
    · rw [storeBytes_length hstore, hlen, List.length_append, copied_length]
    · rw [List.length_append, take_storeBytes hstore, hkept]
  refine ⟨buf', b', hbuf', ?_⟩
  have hpow : 2 ^ 16 ≤ 2 ^ w := Nat.pow_le_pow_right (by omega) hw
  have hmod : (acc.length + c.length) % 2 ^ w = acc.length + c.length := Nat.mod_eq_of_lt (by omega)
  have hmod' : (acc.length + c.length + 1) % 2 ^ w = acc.length + c.length + 1 := Nat.mod_eq_of_lt hfit
  have hcopy : strncpy ((buf'.take c.length).takeWhile (· ≠ 0)) c.length = copied c := by
    rw [htake, copied]
  rw [xspipeLoop, show pipeBuf = 4096 from rfl, hread]
  simp only [Int.toNat_natCast, hmod, hmod', hblock, hcopy, Nat.add_sub_cancel]
  rw [if_pos (by omega), if_neg (by omega), hstore, Option.bind_eq_bind, Option.bind_some, hb',
    List.length_append, copied_length]

theorem xspipeLoop_chunks (hw : 16 ≤ w) (hg : ∀ n, 0 < n → grants n = true) {chunks : List (List Byte)}
    (hchunks : ∀ c ∈ chunks, 1 ≤ c.length ∧ c.length ≤ 4096) (schedule : List Outcome)
    (stream : List Byte) {acc buf : List Byte} {b : Byte}
    (hfit : acc.length + chunks.flatten.length + 1 < 2 ^ w) (hbuf : buf.length = 4096) :
    ∃ buf' b', buf'.length = 4096 ∧
      xspipeLoop w grants fill (chunks.map (fun c => .count c.length) ++ schedule) buf
          (chunks.flatten ++ stream) (acc ++ [b]) acc.length =
        xspipeLoop w grants fill schedule buf' stream (acc ++ stored chunks ++ [b'])
          (acc ++ stored chunks).length := by
  induction chunks generalizing acc buf b with
  | nil => exact ⟨buf, b, hbuf, by simp [stored]⟩
  | cons c chunks ih =>
    rw [List.flatten_cons, List.length_append] at hfit
    obtain ⟨buf1, b1, hbuf1, hround⟩ := xspipeLoop_chunk fill (b := b) hw hg
      (hchunks c List.mem_cons_self) (show acc.length + c.length + 1 < 2 ^ w by omega) hbuf
      (chunks.map (fun c => .count c.length) ++ schedule) (chunks.flatten ++ stream)
    have hfit' : (acc ++ copied c).length + chunks.flatten.length + 1 < 2 ^ w := by
      rw [List.length_append, copied_length]
      omega
    obtain ⟨buf2, b2, hbuf2, hrest⟩ :=
      ih (b := b1) (fun d hd => hchunks d (List.mem_cons_of_mem c hd)) hfit' hbuf1
    refine ⟨buf2, b2, hbuf2, ?_⟩
    rw [List.map_cons, List.cons_append, List.flatten_cons, List.append_assoc, hround, hrest]
    simp only [stored, List.flatMap_cons, List.append_assoc]

/-- Where the address space ends, the block is too small for what is behind it. -/
theorem xspipeLoop_wraps (hw : 16 ≤ w) {acc c buf : List Byte} {b : Byte}
    (hc : 1 ≤ c.length ∧ c.length ≤ 4096) (hfit : acc.length + 1 < 2 ^ w)
    (hwrap : 2 ^ w ≤ acc.length + c.length + 1) (hbuf : buf.length = 4096) (schedule : List Outcome)
    (stream : List Byte) {r : CmdResult}
    (hrun : xspipeLoop w grants fill (.count c.length :: schedule) buf (c ++ stream) (acc ++ [b])
      acc.length = some r) : r.output = none := by
  obtain ⟨buf', hread, -, -⟩ := Xfile.read_chunk hbuf hc.2 stream
  have hpow : 2 ^ 16 ≤ 2 ^ w := Nat.pow_le_pow_right (by omega) hw
  obtain ⟨len, hlen⟩ : ∃ len, (acc.length + c.length) % 2 ^ w = len := ⟨_, rfl⟩
  rw [xspipeLoop, show pipeBuf = 4096 from rfl, hread] at hrun
  simp only [Int.toNat_natCast, hlen] at hrun
  rw [if_pos (by omega)] at hrun
  cases hblock : Xfile.realloc grants fill (some (acc ++ [b])) ((len + 1) % 2 ^ w) with
  | none =>
    rw [hblock] at hrun
    cases hrun
    rfl
  | some block =>
    rw [hblock] at hrun
    dsimp only at hrun
    by_cases hlt : len < c.length
    · rw [if_pos hlt] at hrun
      cases hrun
    · -- the size asked for is 0
      have hmax : acc.length + c.length + 1 = 2 ^ w := by
        by_contra hne
        rw [Nat.mod_eq_sub_mod (by omega), Nat.mod_eq_of_lt (by omega)] at hlen
        omega
      have hwant : (len + 1) % 2 ^ w = 0 := by
        rw [Nat.mod_eq_of_lt (by omega)] at hlen
        rw [← hlen, hmax, Nat.mod_self]
      have hblen := Xfile.realloc_length hblock
      have hstore : storeBytes block (len - c.length)
          (strncpy ((buf'.take c.length).takeWhile (· ≠ 0)) c.length) = none := by
        have hcopy : c.length ≤ (strncpy ((buf'.take c.length).takeWhile (· ≠ 0)) c.length).length := by
          rw [strncpy, List.length_append, List.length_take, List.length_replicate]
          omega
        exact if_neg (by omega)
      rw [if_neg hlt, hstore] at hrun
      cases hrun

/-- The first chunk without room is the one that wraps. -/
theorem xspipeLoop_long (hw : 16 ≤ w) (hg : ∀ n, 0 < n → grants n = true) {chunks : List (List Byte)}
    (hchunks : ∀ c ∈ chunks, 1 ≤ c.length ∧ c.length ≤ 4096) (schedule : List Outcome)
    (stream : List Byte) {acc buf : List Byte} {b : Byte} (hfit : acc.length + 1 < 2 ^ w)
    (hlong : 2 ^ w ≤ acc.length + chunks.flatten.length + 1) (hbuf : buf.length = 4096) {r : CmdResult}
    (hrun : xspipeLoop w grants fill (chunks.map (fun c => .count c.length) ++ schedule) buf
      (chunks.flatten ++ stream) (acc ++ [b]) acc.length = some r) : r.output = none := by
  induction chunks generalizing acc buf b with
  | nil =>
    rw [List.flatten_nil, List.length_nil] at hlong
    omega
  | cons c chunks ih =>
    have hc := hchunks c List.mem_cons_self
    rw [List.flatten_cons, List.length_append] at hlong
    rw [List.map_cons, List.cons_append, List.flatten_cons, List.append_assoc] at hrun
    by_cases hroom : acc.length + c.length + 1 < 2 ^ w
    · obtain ⟨buf1, b1, hbuf1, hround⟩ := xspipeLoop_chunk fill (b := b) hw hg hc hroom hbuf
        (chunks.map (fun c => .count c.length) ++ schedule) (chunks.flatten ++ stream)
      rw [hround] at hrun
      have hlen : (acc ++ copied c).length = acc.length + c.length := by
        rw [List.length_append, copied_length]
      exact ih (fun d hd => hchunks d (List.mem_cons_of_mem c hd)) (by omega) (by omega) hbuf1 hrun
    · exact xspipeLoop_wraps fill hw hc hfit (by omega) hbuf _ _ hrun

end Loop

/-! ## The end of the output -/

/-- A stream without the line end that it may have. -/
def stripEnd (s : List Byte) : List Byte :=
  if s.getLast? = some '\r'.toUInt8 ∨ s.getLast? = some '\n'.toUInt8 then s.dropLast else s

theorem stripEnd_concat (s : List Byte) (x : Byte) : stripEnd (s ++ [x]) =
    if x = '\r'.toUInt8 ∨ x = '\n'.toUInt8 then s else s ++ [x] := by
  rw [stripEnd, List.getLast?_concat, List.dropLast_concat]
  simp only [Option.some.injEq]

theorem stored_getLast (chunks : List (List Byte)) (hne : ∀ c ∈ chunks, c ≠ []) :
    (stored chunks).getLast? = chunks.flatten.getLast? ∨ (stored chunks).getLast? = some 0 := by
  induction chunks with
  | nil => exact .inl rfl
  | cons c chunks ih =>
    have hrest := ih fun d hd => hne d (List.mem_cons_of_mem c hd)
    have hsplit : stored (c :: chunks) = copied c ++ stored chunks := List.flatMap_cons
    rw [hsplit, List.flatten_cons, List.getLast?_append, List.getLast?_append]
    cases chunks with
    | nil => simpa [stored] using copied_getLast c
    | cons d chunks =>
      have hd : (d :: chunks).flatten ≠ [] := by
        simp [hne d (by simp)]
      obtain ⟨x, hx⟩ := Option.ne_none_iff_exists'.mp fun h => hd (List.getLast?_eq_none_iff.mp h)
      rcases hrest with heq | hzero
      · left
        rw [heq, hx]
        rfl
      · right
        rw [hzero]
        rfl

theorem xspipeEnd_concat (t : List Byte) (y b : Byte) : xspipeEnd (t ++ [y] ++ [b]) (t ++ [y]).length =
    some ⟨(t ++ [y]).length,
      some (if y = '\r'.toUInt8 ∨ y = '\n'.toUInt8 then t ++ 0 :: [b] else t ++ [y] ++ 0 :: [])⟩ := by
  have hlast : (t ++ [y] ++ [b])[(t ++ [y]).length - 1]? = some y := by simp
  rw [xspipeEnd, if_neg (by simp), hlast, Option.bind_eq_bind, Option.bind_some]
  by_cases hy : y = '\r'.toUInt8 ∨ y = '\n'.toUInt8
  · have hstore : storeBytes (t ++ [y] ++ [b]) ((t ++ [y]).length - 1) [0] = some (t ++ 0 :: [b]) := by
      rw [List.append_assoc, List.length_append, List.length_singleton, Nat.add_sub_cancel]
      exact storeBytes_singleton t y 0 [b]
    simp only [if_pos hy, hstore, Option.bind_eq_bind, Option.bind_some]
  · have hstore : storeBytes (t ++ [y] ++ [b]) (t ++ [y]).length [0] = some (t ++ [y] ++ 0 :: []) :=
      storeBytes_singleton (t ++ [y]) b 0 []
    simp only [if_neg hy, hstore, Option.bind_eq_bind, Option.bind_some]

/-- The zero at the end stands where the stream has its line end, or behind the stream. -/
theorem xspipeEnd_stored {s t : List Byte} (hlen : t.length = s.length) (hne : s ≠ [])
    (hlast : t.getLast? = s.getLast? ∨ t.getLast? = some 0) (b : Byte) :
    ∃ rest, xspipeEnd (t ++ [b]) t.length =
      some ⟨s.length, some (t.take (stripEnd s).length ++ 0 :: rest)⟩ := by
  obtain rfl | ⟨s, x, rfl⟩ := List.eq_nil_or_concat s
  · exact absurd rfl hne
  obtain rfl | ⟨t, y, rfl⟩ := List.eq_nil_or_concat t
  · simp at hlen
  rw [List.concat_eq_append, List.concat_eq_append] at *
  rw [List.getLast?_concat, List.getLast?_concat, Option.some.injEq, Option.some.injEq] at hlast
  have hts : t.length = s.length := by simpa using hlen
  rw [xspipeEnd_concat, hlen, stripEnd_concat]
  by_cases hx : x = '\r'.toUInt8 ∨ x = '\n'.toUInt8
  · rw [if_pos hx, ← hts, List.take_left]
    rcases hlast with rfl | rfl
    · exact ⟨[b], by rw [if_pos hx]⟩
    · -- the line end has become a zero
      exact ⟨[0], by rw [if_neg (by decide), List.append_assoc]; rfl⟩
  · have hy : ¬ (y = '\r'.toUInt8 ∨ y = '\n'.toUInt8) := by
      rcases hlast with rfl | rfl
      · exact hx
      · decide
    rw [if_neg hx, if_neg hy, ← hlen, List.take_length]
    exact ⟨[], rfl⟩

/-! ## What is captured -/

/-- The chunks are clean, the last one but for the line end of the stream. -/
def Kept : List (List Byte) → Prop
  | [] => True
  | [c] => Clean (stripEnd c)
  | c :: d :: chunks => Clean c ∧ Kept (d :: chunks)

theorem stripEnd_append (c : List Byte) {s : List Byte} (hs : s ≠ []) :
    stripEnd (c ++ s) = c ++ stripEnd s := by
  obtain rfl | ⟨s, x, rfl⟩ := List.eq_nil_or_concat s
  · exact absurd rfl hs
  · rw [List.concat_eq_append, ← List.append_assoc, stripEnd_concat, stripEnd_concat]
    split
    · rfl
    · rw [List.append_assoc]

theorem stripEnd_starts (s : List Byte) : s.take (stripEnd s).length = stripEnd s := by
  unfold stripEnd
  split
  · rw [List.length_dropLast, List.dropLast_eq_take]
  · exact List.take_length

/-- The copies agree with the stream up to its line end if and only if the chunks are clean there. -/
theorem stored_take_iff {chunks : List (List Byte)} (hne : ∀ c ∈ chunks, c ≠ []) :
    (stored chunks).take (stripEnd chunks.flatten).length = stripEnd chunks.flatten ↔ Kept chunks := by
  induction chunks with
  | nil => exact iff_of_true rfl trivial
  | cons c chunks ih =>
    have hsplit : stored (c :: chunks) = copied c ++ stored chunks := List.flatMap_cons
    cases chunks with
    | nil =>
      have hone : stored [c] = copied c := List.append_nil _
      have hflat : [c].flatten = c := List.append_nil _
      rw [hone, hflat, copied_take, stripEnd_starts, copied_eq_iff]
      rfl
    | cons d chunks =>
      have hd : (d :: chunks).flatten ≠ [] := by
        simp [hne d (by simp)]
      rw [hsplit, List.flatten_cons, stripEnd_append c hd, List.length_append, ← copied_length c,
        List.take_length_add_append]
      have hrest := ih fun e he => hne e (List.mem_cons_of_mem c he)
      rw [Kept, ← copied_eq_iff, ← hrest]
      constructor
      · exact fun h => List.append_inj h (copied_length c)
      · rintro ⟨hc, htake⟩
        rw [hc, htake]

/-- What the caller can use: the bytes in front of the length that is returned. -/
def CmdResult.bytes (r : CmdResult) : List Byte := (r.output.getD []).take r.ret

/-- The stream's length is returned, and the stream is in the output, with a zero in the place of its
line end or behind it. -/
def Captured (stream : List Byte) (run : Option CmdResult) : Prop :=
  ∃ output, run = some ⟨stream.length, output⟩ ∧ (stream ≠ [] → ∃ block, output = some block ∧
    block.take ((stripEnd stream).length + 1) = stripEnd stream ++ [0])

section Pipe

variable {w : Nat} {grants : Nat → Bool} {chunks : List (List Byte)}

/-- A run of `xspipe_cmd` that reads `chunks` and then the end of the pipe. -/
def chunkRun (w : Nat) (grants : Nat → Bool) (fill : Byte) (chunks : List (List Byte)) : Option CmdResult :=
  xspipeCmd w grants fill chunks.flatten (chunks.map (fun c => .count c.length) ++ [.count 0])

theorem xspipeLoop_eof {buf output : List Byte} (hbuf : buf.length = 4096) (fill : Byte) (len : Nat) :
    xspipeLoop w grants fill [.count 0] buf [] output len = xspipeEnd output len := by
  obtain ⟨buf', hread, -, -⟩ := Xfile.read_chunk hbuf (show ([] : List Byte).length ≤ 4096 by simp) []
  rw [List.append_nil, List.length_nil] at hread
  rw [xspipeLoop, show pipeBuf = 4096 from rfl, hread]
  exact if_neg (by simp)

/-- The output of a run, if the address space holds it. -/
theorem chunkRun_fits (hw : 16 ≤ w) (hg : ∀ n, 0 < n → grants n = true) (fill : Byte)
    (hchunks : ∀ c ∈ chunks, 1 ≤ c.length ∧ c.length ≤ 4096) (hfit : chunks.flatten.length + 1 < 2 ^ w) :
    ∃ b, chunkRun w grants fill chunks = xspipeEnd (stored chunks ++ [b]) (stored chunks).length := by
  have hfit' : ([] : List Byte).length + chunks.flatten.length + 1 < 2 ^ w := by
    rwa [List.length_nil, Nat.zero_add]
  obtain ⟨buf', b', hbuf', hloop⟩ := xspipeLoop_chunks fill (b := 0) hw hg hchunks [.count 0] [] hfit'
    (List.length_replicate (n := 4096) (a := fill))
  rw [xspipeLoop_eof hbuf', List.append_nil, List.nil_append, List.nil_append] at hloop
  exact ⟨b', hloop⟩

theorem chunkRun_long (hw : 16 ≤ w) (hg : ∀ n, 0 < n → grants n = true) (fill : Byte)
    (hchunks : ∀ c ∈ chunks, 1 ≤ c.length ∧ c.length ≤ 4096) (hlong : 2 ^ w ≤ chunks.flatten.length + 1)
    {r : CmdResult} (hrun : chunkRun w grants fill chunks = some r) : r.output = none := by
  have hpow : 2 ^ 16 ≤ 2 ^ w := Nat.pow_le_pow_right (by omega) hw
  have hfit : ([] : List Byte).length + 1 < 2 ^ w := by
    rw [List.length_nil]
    omega
  refine xspipeLoop_long fill (b := 0) hw hg hchunks [.count 0] [] hfit ?_
    (List.length_replicate (n := 4096) (a := fill)) ?_
  · rwa [List.length_nil, Nat.zero_add]
  · rwa [List.append_nil]

theorem ne_nil_of_sizes (hchunks : ∀ c ∈ chunks, 1 ≤ c.length ∧ c.length ≤ 4096) :
    ∀ c ∈ chunks, c ≠ [] := by
  rintro c hc rfl
  exact absurd (hchunks [] hc).1 (by decide)

theorem captured_fits_iff (hw : 16 ≤ w) (hg : ∀ n, 0 < n → grants n = true) (fill : Byte)
    (hchunks : ∀ c ∈ chunks, 1 ≤ c.length ∧ c.length ≤ 4096) (hfit : chunks.flatten.length + 1 < 2 ^ w) :
    Captured chunks.flatten (chunkRun w grants fill chunks) ↔ Kept chunks := by
  have hne := ne_nil_of_sizes hchunks
  obtain ⟨b, hrun⟩ := chunkRun_fits hw hg fill hchunks hfit
  have hlen := stored_length chunks
  rw [← stored_take_iff hne, hrun]
  by_cases hnil : chunks.flatten = []
  · have htake : (stored chunks).take (stripEnd chunks.flatten).length = stripEnd chunks.flatten := by
      rw [hnil]
      rfl
    refine iff_of_true ⟨none, ?_, fun h => absurd hnil h⟩ htake
    rw [hlen, hnil]
    rfl
  · obtain ⟨rest, hend⟩ := xspipeEnd_stored hlen hnil (stored_getLast chunks hne) b
    have hk : (stripEnd chunks.flatten).length ≤ (stored chunks).length := by
      have hprefix := congrArg List.length (stripEnd_starts chunks.flatten)
      rw [List.length_take] at hprefix
      omega
    have htake : ((stored chunks).take (stripEnd chunks.flatten).length ++ 0 :: rest).take
        ((stripEnd chunks.flatten).length + 1) =
          (stored chunks).take (stripEnd chunks.flatten).length ++ [0] := by
      rw [List.take_append, List.length_take, Nat.min_eq_left hk, List.take_take]
      simp
    rw [hend]
    constructor
    · rintro ⟨output, hout, hblock⟩
      obtain ⟨block, rfl, hbytes⟩ := hblock hnil
      cases hout
      rw [htake] at hbytes
      exact List.append_cancel_right hbytes
    · intro h
      exact ⟨_, rfl, fun _ => ⟨_, rfl, htake.trans (by rw [h])⟩⟩

theorem captured_iff (hw : 16 ≤ w) (hg : ∀ n, 0 < n → grants n = true) (fill : Byte)
    (hchunks : ∀ c ∈ chunks, 1 ≤ c.length ∧ c.length ≤ 4096) :
    Captured chunks.flatten (chunkRun w grants fill chunks) ↔
      Kept chunks ∧ chunks.flatten.length + 1 < 2 ^ w := by
  have hpow : 2 ^ 16 ≤ 2 ^ w := Nat.pow_le_pow_right (by omega) hw
  by_cases hfit : chunks.flatten.length + 1 < 2 ^ w
  · rw [captured_fits_iff hw hg fill hchunks hfit]
    exact (and_iff_left hfit).symm
  · refine iff_of_false (fun h => ?_) fun h => hfit h.2
    obtain ⟨output, hrun, hblock⟩ := h
    have hnil : chunks.flatten ≠ [] := by
      intro hnil
      rw [hnil, List.length_nil] at hfit
      omega
    obtain ⟨block, rfl, -⟩ := hblock hnil
    cases chunkRun_long hw hg fill hchunks (by omega) hrun

/-- The bytes of a stream that has been captured. -/
theorem captured_bytes {stream : List Byte} {run : Option CmdResult} (h : Captured stream run) :
    ∃ r, run = some r ∧ r.ret = stream.length ∧ r.bytes = (stripEnd stream ++ [0]).take stream.length := by
  obtain ⟨output, rfl, hblock⟩ := h
  refine ⟨_, rfl, rfl, ?_⟩
  by_cases hnil : stream = []
  · rw [CmdResult.bytes, hnil]
    rfl
  · obtain ⟨block, rfl, hbytes⟩ := hblock hnil
    have hlen : stream.length ≤ (stripEnd stream).length + 1 := by
      unfold stripEnd
      split
      · rw [List.length_dropLast]
        omega
      · omega
    rw [← hbytes, List.take_take, Nat.min_eq_left hlen]
    rfl

/-- **Captured streams.** `xspipe_cmd` captures a stream if and only if the address space holds it and, but
for its line end, no chunk of it has a byte that is not zero behind a zero. Runs with such chunks return the
same bytes, however they cut the stream. -/
theorem xspipe_cmd_captures_iff (hw : 16 ≤ w) (hg : ∀ n, 0 < n → grants n = true) (fill : Byte)
    (hchunks : ∀ c ∈ chunks, 1 ≤ c.length ∧ c.length ≤ 4096) :
    (Captured chunks.flatten (chunkRun w grants fill chunks) ↔
      Kept chunks ∧ chunks.flatten.length + 1 < 2 ^ w) ∧
    ∀ chunks', (∀ c ∈ chunks', 1 ≤ c.length ∧ c.length ≤ 4096) → chunks'.flatten = chunks.flatten →
      Kept chunks → Kept chunks' → chunks.flatten.length + 1 < 2 ^ w →
        ∃ r r', chunkRun w grants fill chunks = some r ∧ chunkRun w grants fill chunks' = some r' ∧
          r.ret = r'.ret ∧ r.bytes = r'.bytes := by
  refine ⟨captured_iff hw hg fill hchunks, fun chunks' hchunks' hsame hkept hkept' hfit => ?_⟩
  have hcap := (captured_iff hw hg fill hchunks).mpr ⟨hkept, hfit⟩
  have hcap' := (captured_iff hw hg fill hchunks').mpr ⟨hkept', by rwa [hsame]⟩
  rw [hsame] at hcap'
  obtain ⟨r, hr, hret, hbytes⟩ := captured_bytes hcap
  obtain ⟨r', hr', hret', hbytes'⟩ := captured_bytes hcap'
  exact ⟨r, r', hr, hr', hret.trans hret'.symm, hbytes.trans hbytes'.symm⟩

end Pipe

theorem xspipe_cmd_captures_line :
    Captured [[104], [105, 10]].flatten (chunkRun 64 (fun _ => true) 0 [[104], [105, 10]]) :=
  (xspipe_cmd_captures_iff (by decide) (fun _ _ => rfl) 0 (by decide)).1.mpr
    ⟨⟨by decide, show Clean (stripEnd [105, 10]) by decide⟩, by decide⟩

/-- A letter behind a zero is lost. -/
theorem xspipe_cmd_loses : ¬ ∀ (w : Nat) (grants : Nat → Bool) (fill : Byte) (chunks : List (List Byte)),
    16 ≤ w → (∀ n, 0 < n → grants n = true) → (∀ c ∈ chunks, 1 ≤ c.length ∧ c.length ≤ 4096) →
      chunks.flatten.length + 1 < 2 ^ w → Captured chunks.flatten (chunkRun w grants fill chunks) := by
  intro h
  have hcap := h 64 (fun _ => true) 0 [[65, 0, 66]] (by decide) (fun _ _ => rfl) (by decide) (by decide)
  have hkept := ((captured_iff (by decide) (fun _ _ => rfl) 0 (by decide)).mp hcap).1
  exact absurd (hkept 66 (by decide)) (by decide)

end Xexccmd
end Xlibc
