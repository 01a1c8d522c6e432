import Xlibc.Base.CInt
import Xlibc.Xfile.Transfer

/-!
# Xlibc.Xfile.Read

`xfile_read`, whose count is a `size_t`: the -1 of a failed `read` is the largest of them.

* `xfileReadLoop_chunks` : what has been delivered is in the block, with room for one byte more.
* `xfileReadLoop_wraps`, `xfileReadLoop_fail` : how it goes wrong.
* `xfileRead_exact_iff` : it reads to the end of a file, and not up to an error.
-/

namespace Xlibc
namespace Xfile

/-! ## The code -/

/-- A conversion to a `size_t` of `w` bits. -/
def sizeT (w : Nat) (z : Int) : Nat := (z % 2 ^ w).toNat

/-- The count of a `memcpy`, and of the `read` before it. -/
structure Copy where
  delivered : Nat
  copied : Nat

/-- The result and `*size`, if the function returns, and the calls of `memcpy`. -/
structure FileRead where
  ret : Option (Option (List Byte) × Option Nat)
  copies : List Copy

/-- `memcpy(block + off, buf, len)` -/
def memcpy (block : List Byte) (off : Nat) (buf : List Byte) (len : Nat) : Option (List Byte) :=
  if buf.length < len then none else storeBytes block off (buf.take len)

section Code

variable (w : Nat) (grants : Nat → Bool) (fill : Byte) (size : Option Nat)

/-- `realloc(old, n)`, where `grants n` says if there is a block of `n` bytes. -/
def realloc (old : Option (List Byte)) (n : Nat) : Option (List Byte) :=
  if grants n then some (reallocBytes fill ((old.getD []).take n) n) else none

/-- Behind the loop. -/
def xfileReadEnd (result : Option (List Byte)) (total : Nat) : Option (Option (List Byte) × Option Nat) :=
  if total ≠ 0 then do
    let block ← result
    let block ← storeBytes block total [0]
    some (some block, size.map fun _ => total)
  else some (result, size)

/-- Where `realloc` is `NULL` for size 0 it has freed `old`, and `free(old)` behind it is undefined. -/
def xfileReadLoop : List Outcome → List Byte → List Byte → Option (List Byte) → Nat → List Copy → FileRead
  | [], _, _, _, _, copies => ⟨none, copies⟩
  | outcome :: schedule, buf, stream, result, total, copies =>
    match read (buf, stream) 0 256 outcome with
    | none => ⟨none, copies⟩
    | some (n, _, buf, stream) =>
      let len := sizeT w n
      if len ≤ 0 then ⟨xfileReadEnd size result total, copies⟩
      else
        let want := (total + len + 1) % 2 ^ w
        match realloc grants fill result want with
        -- `free(old)` and `return NULL`
        | none => ⟨if result.isSome ∧ want = 0 then none else some (none, size), copies⟩
        | some block =>
          let copies := copies ++ [⟨n.toNat, len⟩]
          match memcpy block total buf len with
          | none => ⟨none, copies⟩
          | some block =>
            let total := (total + len) % 2 ^ w
            if len > 0 then xfileReadLoop schedule buf stream (some block) total copies
            else ⟨xfileReadEnd size (some block) total, copies⟩

/-- `size` is what `*size` holds, if it is not `NULL`. -/
def xfileRead (stream : List Byte) (schedule : List Outcome) : FileRead :=
  xfileReadLoop w grants fill size schedule (List.replicate 256 0) stream none 0 []

end Code

/-! ## The loop -/

/-- The bytes `acc` have been read. -/
def Holds (acc : List Byte) (result : Option (List Byte)) : Prop :=
  (acc = [] ∧ result = none) ∨ (acc ≠ [] ∧ ∃ b, result = some (acc ++ [b]))

section Loop

variable {w : Nat} {grants : Nat → Bool} (fill : Byte) (size : Option Nat)

theorem sizeT_natCast {n : Nat} (h : n < 2 ^ w) : sizeT w n = n := by
  rw [sizeT, natCast_emod_two_pow h, Int.toNat_natCast]

theorem sizeT_neg_one : sizeT w (-1) = 2 ^ w - 1 := by
  have hpos : 0 < 2 ^ w := Nat.two_pow_pos w
  have hmod : (-1 : Int) % 2 ^ w = ((2 ^ w - 1 : Nat) : Int) := by
    have hcast : ((2 ^ w - 1 : Nat) : Int) = -1 + 2 ^ w := by
      rw [Nat.cast_sub hpos]
      push_cast
      omega
    rw [← Int.add_emod_right, ← hcast]
    exact natCast_emod_two_pow (by omega)
  rw [sizeT, hmod, Int.toNat_natCast]

theorem eq_append_byte {block acc : List Byte} (hlen : block.length = acc.length + 1)
    (htake : block.take acc.length = acc) : ∃ b, block = acc ++ [b] := by
  have hdrop : (block.drop acc.length).length = 1 := by
    rw [List.length_drop]
    omega
  obtain ⟨b, hb⟩ := List.length_eq_one_iff.mp hdrop
  exact ⟨b, by rw [← hb, ← List.take_append_drop acc.length block, htake]; simp⟩

theorem read_chunk {buf c : List Byte} {size : Nat} (hbuf : buf.length = size) (hc : c.length ≤ size)
    (stream : List Byte) : ∃ buf' : List Byte, read (buf, c ++ stream) 0 size (.count c.length) =
        some ((c.length : Int), 0, buf', stream) ∧
      buf'.length = size ∧ buf'.take c.length = c := by
  obtain ⟨buf', hstore⟩ := storeBytes_some c (show 0 + c.length ≤ buf.length by omega)
  have htake := take_storeBytes hstore
  rw [Nat.zero_add, List.take_zero, List.nil_append] at htake
  refine ⟨buf', ?_, by rw [storeBytes_length hstore, hbuf], htake⟩
  rw [read, if_neg (by omega)]
  simp only [Nat.min_eq_left hc, List.take_left, hstore, Option.bind_eq_bind, Option.bind_some, List.drop_left]

theorem realloc_length {fill : Byte} {old : Option (List Byte)} {n : Nat} {block : List Byte}
    (h : realloc grants fill old n = some block) : block.length = n := by
  unfold realloc at h
  split at h
  · cases h
    rw [reallocBytes, List.length_append, List.length_replicate, List.length_take]
    omega
  · cases h

theorem xfileReadLoop_chunk (hg : ∀ n, 0 < n → grants n = true) {acc c buf : List Byte}
    {result : Option (List Byte)} (hacc : Holds acc result) (hc : 1 ≤ c.length ∧ c.length ≤ 256)
    (hfit : acc.length + c.length + 1 < 2 ^ w) (hbuf : buf.length = 256) (schedule : List Outcome)
    (stream : List Byte) (copies : List Copy) : ∃ buf' result', buf'.length = 256 ∧ Holds (acc ++ c) result' ∧
      xfileReadLoop w grants fill size (.count c.length :: schedule) buf (c ++ stream) result acc.length copies =
        xfileReadLoop w grants fill size schedule buf' stream result' (acc ++ c).length
          (copies ++ [⟨c.length, c.length⟩]) := by
  obtain ⟨buf', hread, hbuf', htake⟩ := read_chunk hbuf hc.2 stream
  obtain ⟨hc1, hc2⟩ := hc
  -- the block keeps what it has
  have hold : ((result.getD []).take (acc.length + c.length + 1)).take acc.length = acc := by
    obtain ⟨rfl, rfl⟩ | ⟨-, b, rfl⟩ := hacc
    · rfl
    · rw [List.take_take, Nat.min_eq_left (by omega)]
      exact List.take_left
  have hroom : acc.length ≤ ((result.getD []).take (acc.length + c.length + 1)).length := by
    have hlen := congrArg List.length hold
    rw [List.length_take] at hlen
    omega
  obtain ⟨block, hblock⟩ : ∃ block, realloc grants fill result (acc.length + c.length + 1) = some block :=
    ⟨_, if_pos (hg _ (Nat.succ_pos _))⟩
  have hlen := realloc_length hblock
  have hkept : block.take acc.length = acc := by
    rw [realloc, if_pos (hg _ (Nat.succ_pos _))] at hblock
    cases hblock
    rw [reallocBytes, List.take_append_of_le_length hroom, hold]
  obtain ⟨block', hstore⟩ := storeBytes_some c (show acc.length + c.length ≤ block.length by omega)
  have hcopy : memcpy block acc.length buf' c.length = some block' := by
    rw [memcpy, if_neg (by omega), htake, hstore]
  obtain ⟨b, hb⟩ : ∃ b, block' = (acc ++ c) ++ [b] := by
    apply eq_append_byte
    · rw [storeBytes_length hstore, hlen, List.length_append]
    · rw [List.length_append, take_storeBytes hstore, hkept]
  have hne : acc ++ c ≠ [] := by
    intro h
    rw [(List.append_eq_nil_iff.mp h).2, List.length_nil] at hc1
    omega
  refine ⟨buf', some block', hbuf', .inr ⟨hne, b, by rw [hb]⟩, ?_⟩
  have hmod : (acc.length + c.length + 1) % 2 ^ w = acc.length + c.length + 1 := Nat.mod_eq_of_lt hfit
  have hmod' : (acc.length + c.length) % 2 ^ w = acc.length + c.length := Nat.mod_eq_of_lt (by omega)
  rw [xfileReadLoop, hread]
  simp only [sizeT_natCast (show c.length < 2 ^ w by omega), Int.toNat_natCast, hmod, hmod', hblock, hcopy,
    List.length_append]
  rw [if_neg (by omega), if_pos (by omega)]

theorem xfileReadLoop_chunks (hg : ∀ n, 0 < n → grants n = true) {chunks : List (List Byte)}
    (hchunks : ∀ c ∈ chunks, 1 ≤ c.length ∧ c.length ≤ 256) (schedule : List Outcome) (stream : List Byte)
    {acc buf : List Byte} {result : Option (List Byte)} (hacc : Holds acc result)
    (hfit : acc.length + chunks.flatten.length + 1 < 2 ^ w) (hbuf : buf.length = 256) (copies : List Copy) :
    ∃ buf' result', buf'.length = 256 ∧ Holds (acc ++ chunks.flatten) result' ∧
      xfileReadLoop w grants fill size (chunks.map (fun c => .count c.length) ++ schedule) buf
          (chunks.flatten ++ stream) result acc.length copies =
        xfileReadLoop w grants fill size schedule buf' stream result' (acc ++ chunks.flatten).length
          (copies ++ chunks.map fun c => ⟨c.length, c.length⟩) := by
  induction chunks generalizing acc buf result copies with
  | nil => exact ⟨buf, result, hbuf, by simpa using hacc, by simp⟩
  | cons c chunks ih =>
    rw [List.flatten_cons, List.length_append] at hfit
    obtain ⟨buf1, result1, hbuf1, hacc1, hround⟩ := xfileReadLoop_chunk fill size hg hacc
      (hchunks c List.mem_cons_self) (show acc.length + c.length + 1 < 2 ^ w by omega) hbuf
      (chunks.map (fun c => .count c.length) ++ schedule) (chunks.flatten ++ stream) copies
    obtain ⟨buf2, result2, hbuf2, hacc2, hrest⟩ := ih (fun d hd => hchunks d (List.mem_cons_of_mem c hd))
      hacc1 (by rw [List.length_append]; omega) hbuf1 (copies ++ [⟨c.length, c.length⟩])
    refine ⟨buf2, result2, hbuf2, by rwa [List.flatten_cons, ← List.append_assoc], ?_⟩
    rw [List.map_cons, List.cons_append, List.flatten_cons, List.append_assoc, hround, hrest]
    simp only [List.append_assoc, List.map_cons, List.singleton_append]

/-- A size of 0 or a few bytes is asked for where the address space ends. -/
theorem xfileReadLoop_wraps (hw : 16 ≤ w) (hg : ∀ n, 0 < n → grants n = true) {acc c buf : List Byte}
    {result : Option (List Byte)} (hacc : Holds acc result) (hc : 1 ≤ c.length ∧ c.length ≤ 256)
    (hfit : acc.length + 1 < 2 ^ w) (hwrap : 2 ^ w ≤ acc.length + c.length + 1) (hbuf : buf.length = 256)
    (schedule : List Outcome) (stream : List Byte) (copies : List Copy) :
    (xfileReadLoop w grants fill size (.count c.length :: schedule) buf (c ++ stream) result acc.length
      copies).ret = none := by
  obtain ⟨buf', hread, hbuf', -⟩ := read_chunk hbuf hc.2 stream
  obtain ⟨hc1, hc2⟩ := hc
  have hpow : 2 ^ 16 ≤ 2 ^ w := Nat.pow_le_pow_right (by omega) hw
  obtain ⟨want, hwant⟩ : ∃ want, (acc.length + c.length + 1) % 2 ^ w = want := ⟨_, rfl⟩
  have hsmall : want ≤ 255 := by
    rw [Nat.mod_eq_sub_mod hwrap, Nat.mod_eq_of_lt (by omega)] at hwant
    omega
  rw [xfileReadLoop, hread]
  simp only [sizeT_natCast (show c.length < 2 ^ w by omega), hwant]
  rw [if_neg (by omega)]
  cases hblock : realloc grants fill result want with
  | none =>
    have hzero : want = 0 := by
      by_contra hpos
      rw [realloc, if_pos (hg want (by omega))] at hblock
      cases hblock
    obtain ⟨rfl, -⟩ | ⟨-, b, rfl⟩ := hacc
    · rw [List.length_nil] at hwrap
      omega
    · exact if_pos ⟨rfl, hzero⟩
  | some block =>
    have hlen := realloc_length hblock
    have hcopy : memcpy block acc.length buf' c.length = none := by
      rw [memcpy, if_neg (by omega), storeBytes, if_neg (by rw [List.length_take]; omega)]
    simp only [hcopy]

/-- A failed `read` ends the loop if not even its first block is to be had. -/
theorem xfileReadLoop_fail (hw : 16 ≤ w) (hg : ∀ n, 0 < n → grants n = true) {acc buf : List Byte}
    {result : Option (List Byte)} (hacc : Holds acc result) (hfit : acc.length + 1 < 2 ^ w)
    (hbuf : buf.length = 256) (errno : Int) (schedule : List Outcome) (stream : List Byte) (copies : List Copy) :
    xfileReadLoop w grants fill size (.fail errno :: schedule) buf stream result acc.length copies =
      if acc = [] ∧ grants 0 = false then ⟨some (none, size), copies⟩
      else ⟨none, copies ++ [⟨0, 2 ^ w - 1⟩]⟩ := by
  have hpow : 2 ^ 16 ≤ 2 ^ w := Nat.pow_le_pow_right (by omega) hw
  have hread : read (buf, stream) 0 256 (.fail errno) = some (-1, errno, buf, stream) := by
    rw [read, if_neg (by omega)]
  have hwant : (acc.length + (2 ^ w - 1) + 1) % 2 ^ w = acc.length := by
    rw [show acc.length + (2 ^ w - 1) + 1 = acc.length + 2 ^ w by omega, Nat.add_mod_right,
      Nat.mod_eq_of_lt (by omega)]
  have hcopy (block : List Byte) : memcpy block acc.length buf (2 ^ w - 1) = none := if_pos (by omega)
  rw [xfileReadLoop, hread]
  simp only [sizeT_neg_one, hwant, hcopy]
  rw [if_neg (by omega)]
  by_cases h : acc = [] ∧ grants 0 = false
  · obtain ⟨rfl, hnone⟩ := h
    obtain ⟨-, rfl⟩ | ⟨hne, -⟩ := hacc
    · simp [realloc, hnone]
    · exact absurd rfl hne
  · have hgrant : grants acc.length = true := by
      by_cases hnil : acc = []
      · simpa [hnil] using h
      · exact hg _ (List.length_pos_iff.mpr hnil)
    rw [if_neg h, realloc, if_pos hgrant]
    rfl

theorem xfileReadEnd_holds {acc : List Byte} {result : Option (List Byte)} (hacc : Holds acc result) :
    xfileReadEnd size result acc.length =
      some (if acc = [] then (none, size) else (some (acc ++ [0]), size.map fun _ => acc.length)) := by
  obtain ⟨rfl, rfl⟩ | ⟨hne, b, rfl⟩ := hacc
  · rfl
  · have hlen : acc.length ≠ 0 := fun h => hne (List.length_eq_zero_iff.mp h)
    rw [xfileReadEnd, if_pos hlen, if_neg hne]
    simp only [storeBytes_singleton, Option.bind_eq_bind, Option.bind_some]

theorem xfileReadLoop_eof {buf : List Byte} (hbuf : buf.length = 256) (schedule : List Outcome)
    (stream : List Byte) (result : Option (List Byte)) (total : Nat) (copies : List Copy) :
    xfileReadLoop w grants fill size (.count 0 :: schedule) buf stream result total copies =
      ⟨xfileReadEnd size result total, copies⟩ := by
  obtain ⟨buf', hread, -, -⟩ := read_chunk hbuf (show ([] : List Byte).length ≤ 256 by simp) stream
  rw [List.nil_append, List.length_nil] at hread
  rw [xfileReadLoop, hread]
  simp [sizeT]

/-- The first chunk without room is the one that wraps. -/
theorem xfileReadLoop_long (hw : 16 ≤ w) (hg : ∀ n, 0 < n → grants n = true) {chunks : List (List Byte)}
    (hchunks : ∀ c ∈ chunks, 1 ≤ c.length ∧ c.length ≤ 256) (schedule : List Outcome) (stream : List Byte)
    {acc buf : List Byte} {result : Option (List Byte)} (hacc : Holds acc result) (hfit : acc.length + 1 < 2 ^ w)
    (hlong : 2 ^ w ≤ acc.length + chunks.flatten.length + 1) (hbuf : buf.length = 256) (copies : List Copy) :
    (xfileReadLoop w grants fill size (chunks.map (fun c => .count c.length) ++ schedule) buf
      (chunks.flatten ++ stream) result acc.length copies).ret = none := by
  induction chunks generalizing acc buf result copies with
  | nil =>
    rw [List.flatten_nil, List.length_nil] at hlong
    omega
  | cons c chunks ih =>
    have hc := hchunks c List.mem_cons_self
    rw [List.flatten_cons, List.length_append] at hlong
    rw [List.map_cons, List.cons_append, List.flatten_cons, List.append_assoc]
    by_cases hroom : acc.length + c.length + 1 < 2 ^ w
    · obtain ⟨buf1, result1, hbuf1, hacc1, hround⟩ := xfileReadLoop_chunk fill size hg hacc hc
        hroom hbuf (chunks.map (fun c => .count c.length) ++ schedule) (chunks.flatten ++ stream) copies
      rw [hround]
      exact ih (fun d hd => hchunks d (List.mem_cons_of_mem c hd)) hacc1
        (by rw [List.length_append]; exact hroom) (by rw [List.length_append]; omega) hbuf1 _
    · exact xfileReadLoop_wraps fill size hw hg hacc hc hfit (by omega) hbuf _ _ _

end Loop

/-! ## The whole file -/

/-- What a reader of `chunks` expects: no `memcpy` beyond what has been delivered, and all that has been
delivered with a NUL and its size, or `NULL`. -/
structure ReadsAll (chunks : List (List Byte)) (size : Option Nat) (run : FileRead) : Prop where
  copies : ∀ c ∈ run.copies, c.copied ≤ c.delivered
  all : chunks.flatten ≠ [] →
    run.ret = some (some (chunks.flatten ++ [0]), size.map fun _ => chunks.flatten.length)
  nothing : chunks.flatten = [] → ∃ size', run.ret = some (none, size')

theorem flatten_eq_nil {chunks : List (List Byte)} (hchunks : ∀ c ∈ chunks, 1 ≤ c.length ∧ c.length ≤ 256) :
    chunks.flatten = [] ↔ chunks = [] := by
  constructor
  · intro h
    cases chunks with
    | nil => rfl
    | cons c chunks =>
      have hc := (hchunks c List.mem_cons_self).1
      rw [List.flatten_cons, List.append_eq_nil_iff] at h
      rw [h.1, List.length_nil] at hc
      omega
  · rintro rfl
    rfl

section File

variable {w : Nat} {grants : Nat → Bool} {chunks : List (List Byte)}

theorem chunks_copies (chunks : List (List Byte)) :
    ∀ c ∈ chunks.map (fun c => (⟨c.length, c.length⟩ : Copy)), c.copied ≤ c.delivered := by
  intro c hc
  obtain ⟨d, -, rfl⟩ := List.mem_map.mp hc
  exact Nat.le_refl _

theorem xfileRead_chunks (hg : ∀ n, 0 < n → grants n = true) (fill : Byte) (size : Option Nat)
    (hchunks : ∀ c ∈ chunks, 1 ≤ c.length ∧ c.length ≤ 256) (hfit : chunks.flatten.length + 1 < 2 ^ w)
    (later : List Byte) (schedule : List Outcome) :
    ∃ buf' result', buf'.length = 256 ∧ Holds chunks.flatten result' ∧
      xfileRead w grants fill size (chunks.flatten ++ later) (chunks.map (fun c => .count c.length) ++ schedule) =
        xfileReadLoop w grants fill size schedule buf' later result' chunks.flatten.length
          (chunks.map fun c => ⟨c.length, c.length⟩) :=
  xfileReadLoop_chunks fill size hg hchunks schedule later (.inl ⟨rfl, rfl⟩)
    (by rwa [List.length_nil, Nat.zero_add]) (List.length_replicate (n := 256) (a := (0 : Byte))) []

theorem xfileRead_eof (hg : ∀ n, 0 < n → grants n = true) (fill : Byte) (size : Option Nat)
    (hchunks : ∀ c ∈ chunks, 1 ≤ c.length ∧ c.length ≤ 256) (hfit : chunks.flatten.length + 1 < 2 ^ w)
    (later : List Byte) (schedule : List Outcome) :
    ReadsAll chunks size (xfileRead w grants fill size (chunks.flatten ++ later)
      (chunks.map (fun c => .count c.length) ++ .count 0 :: schedule)) := by
  obtain ⟨buf', result', hbuf', hholds, hrun⟩ :=
    xfileRead_chunks hg fill size hchunks hfit later (.count 0 :: schedule)
  rw [hrun, xfileReadLoop_eof fill size hbuf', xfileReadEnd_holds size hholds]
  refine ⟨chunks_copies chunks, fun hne => ?_, fun h => ?_⟩
  · rw [if_neg hne]
  · exact ⟨size, by rw [if_pos h]⟩

theorem xfileRead_error_iff (hw : 16 ≤ w) (hg : ∀ n, 0 < n → grants n = true) (fill : Byte) (size : Option Nat)
    (hchunks : ∀ c ∈ chunks, 1 ≤ c.length ∧ c.length ≤ 256) (hfit : chunks.flatten.length + 1 < 2 ^ w)
    (errno : Int) (later : List Byte) (schedule : List Outcome) :
    ReadsAll chunks size (xfileRead w grants fill size (chunks.flatten ++ later)
      (chunks.map (fun c => .count c.length) ++ .fail errno :: schedule)) ↔
        chunks.flatten = [] ∧ grants 0 = false := by
  have hpow : 2 ^ 16 ≤ 2 ^ w := Nat.pow_le_pow_right (by omega) hw
  obtain ⟨buf', result', hbuf', hholds, hrun⟩ :=
    xfileRead_chunks hg fill size hchunks hfit later (.fail errno :: schedule)
  rw [hrun, xfileReadLoop_fail fill size hw hg hholds hfit hbuf']
  by_cases h : chunks.flatten = [] ∧ grants 0 = false
  · rw [if_pos h]
    exact iff_of_true ⟨chunks_copies chunks, fun hne => absurd h.1 hne, fun _ => ⟨size, rfl⟩⟩ h
  · rw [if_neg h]
    refine iff_of_false (fun hall => ?_) h
    have hle := hall.copies ⟨0, 2 ^ w - 1⟩ (List.mem_append_right _ (List.mem_singleton.mpr rfl))
    change 2 ^ w - 1 ≤ 0 at hle
    omega

theorem xfileRead_long (hw : 16 ≤ w) (hg : ∀ n, 0 < n → grants n = true) (fill : Byte) (size : Option Nat)
    (hchunks : ∀ c ∈ chunks, 1 ≤ c.length ∧ c.length ≤ 256) (hlong : 2 ^ w ≤ chunks.flatten.length + 1)
    (later : List Byte) (schedule : List Outcome) :
    ¬ ReadsAll chunks size (xfileRead w grants fill size (chunks.flatten ++ later)
      (chunks.map (fun c => .count c.length) ++ schedule)) := by
  have hpow : 2 ^ 16 ≤ 2 ^ w := Nat.pow_le_pow_right (by omega) hw
  have hret := xfileReadLoop_long fill size hw hg hchunks schedule later (.inl ⟨rfl, rfl⟩)
    (by rw [List.length_nil]; omega) (by rw [List.length_nil]; omega)
    (List.length_replicate (n := 256) (a := (0 : Byte))) []
  have hne : chunks.flatten ≠ [] := by
    intro h
    rw [h, List.length_nil] at hlong
    omega
  intro hall
  exact absurd (hret.symm.trans (hall.all hne)) (by simp)

/-- **Reading a file.** `xfile_read` reads it up to its end, if the address space holds it. Up to an error it reads
nothing at all, and only if `malloc(0)` is `NULL`. -/
theorem xfileRead_exact_iff (hw : 16 ≤ w) (hg : ∀ n, 0 < n → grants n = true) (fill : Byte) (size : Option Nat)
    (hchunks : ∀ c ∈ chunks, 1 ≤ c.length ∧ c.length ≤ 256) {ending : Outcome}
    (hending : ending = .count 0 ∨ ∃ errno, ending = .fail errno) (later : List Byte) (schedule : List Outcome) :
    ReadsAll chunks size (xfileRead w grants fill size (chunks.flatten ++ later)
        (chunks.map (fun c => .count c.length) ++ ending :: schedule)) ↔
      (ending = .count 0 ∧ chunks.flatten.length + 1 < 2 ^ w) ∨
        (ending ≠ .count 0 ∧ chunks = [] ∧ grants 0 = false) := by
  have hpow : 2 ^ 16 ≤ 2 ^ w := Nat.pow_le_pow_right (by omega) hw
  by_cases hfit : chunks.flatten.length + 1 < 2 ^ w
  · obtain rfl | ⟨errno, rfl⟩ := hending
    · exact iff_of_true (xfileRead_eof hg fill size hchunks hfit later schedule) (.inl ⟨rfl, hfit⟩)
    · rw [xfileRead_error_iff hw hg fill size hchunks hfit errno later schedule, flatten_eq_nil hchunks]
      constructor
      · exact fun h => .inr ⟨Outcome.noConfusion, h⟩
      · rintro (⟨hend, -⟩ | ⟨-, h⟩)
        · cases hend
        · exact h
  · refine iff_of_false (xfileRead_long hw hg fill size hchunks (by omega) later (ending :: schedule)) ?_
    rintro (⟨-, h⟩ | ⟨-, rfl, -⟩)
    · exact hfit h
    · rw [List.flatten_nil, List.length_nil] at hfit
      omega

end File

theorem xfileRead_exact_two : ReadsAll [[104], [105]] (some 0) (xfileRead 64 (fun _ => true) 0 (some 0)
    ([[104], [105]].flatten ++ []) ([[104], [105]].map (fun c : List Byte => .count c.length) ++ .count 0 :: [])) :=
  (xfileRead_exact_iff (show 16 ≤ 64 by omega) (fun _ _ => rfl) 0 (some 0) (by simp) (.inl rfl) [] []).mpr
    (.inl ⟨rfl, by simp⟩)

/-- Behind two bytes and an error, 2^64 - 1 bytes are copied. -/
theorem xfileRead_copies : ¬ ReadsAll [[104, 105]] (some 0)
    (xfileRead 64 (fun _ => true) 0 (some 0) [104, 105] [.count 2, .fail 5]) := by
  intro h
  obtain ⟨buf', result', hbuf', hacc', hloop⟩ := xfileReadLoop_chunk 0 (some 0) (fun _ _ => rfl)
    (.inl ⟨rfl, rfl⟩) (show 1 ≤ [104, 105].length ∧ [104, 105].length ≤ 256 by simp)
    (show 0 + 2 + 1 < 2 ^ 64 by simp) (List.length_replicate (n := 256) (a := 0)) [.fail 5] [] []
  rw [xfileReadLoop_fail 0 (some 0) (by omega) (fun _ _ => rfl) hacc' (by simp) hbuf'] at hloop
  have hrun : xfileRead 64 (fun _ => true) 0 (some 0) [104, 105] [.count 2, .fail 5] = _ := hloop
  rw [hrun] at h
  have hle := h.copies ⟨0, 2 ^ 64 - 1⟩ (by simp)
  change 2 ^ 64 - 1 ≤ 0 at hle
  omega

end Xfile
end Xlibc
