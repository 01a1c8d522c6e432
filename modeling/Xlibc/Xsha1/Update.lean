import Xlibc.Xfile.Read
import Xlibc.Xsha1.Transform

/-!
# Xlibc.Xsha1.Update

The hash of a text that comes in pieces. `SHA1Update` adds 32-bit numbers: `j + len` and `i + 63` wrap.

* `Holds` : a context after a text.
* `SHA1Update_holds` : a piece more; `SHA1Update_wraps` for a piece that is too long.
* `SHA1Final_digest` : the padding, and the digest.
* `digest_pieces_iff` : what comes out of a whole run, and when anything does.
-/

namespace Xlibc
namespace Xsha1

open Xfile (memcpy)

/-! ## The code -/

structure SHA1_CTX where
  state : Five
  count0 : Nat
  count1 : Nat
  buffer : List Byte

def SHA1Init (ctx : SHA1_CTX) : SHA1_CTX :=
  { ctx with state := ⟨0x67452301, 0xEFCDAB89, 0x98BADCFE, 0x10325476, 0xC3D2E1F0⟩, count0 := 0, count1 := 0 }

/-- The 64 bytes that `SHA1Transform` reads at `&data[i]`. -/
def blockAt (data : List Byte) (i : Nat) : Option (List Byte) :=
  if i + 64 ≤ data.length then some ((data.drop i).take 64) else none

section Code

variable (bigEndian : Bool)

/-- `for ( ; i + 63 < len; i += 64)` -/
def transformLoop (data : List Byte) (len : Nat) : Nat → Nat → Five → Option (Nat × Five)
  | 0, _, _ => none
  | fuel + 1, i, state =>
    if u32 (i + 63) < len then do
      let block ← blockAt data i
      transformLoop data len fuel (u32 (i + 64)) (SHA1Transform bigEndian state block)
    else some (i, state)

/-- `len` is a `uint32_t`; there is no result if memory outside `buffer` or `data` is used. -/
def SHA1Update (ctx : SHA1_CTX) (data : List Byte) (len : Nat) : Option SHA1_CTX := do
  let j := ctx.count0 >>> 3 &&& 63
  let count0 := u32 (ctx.count0 + u32 (len <<< 3))
  let count1 := if count0 < u32 (len <<< 3) then u32 (ctx.count1 + 1) else ctx.count1
  let count1 := u32 (count1 + len >>> 29)
  if 63 < u32 (j + len) then
    let buffer ← memcpy ctx.buffer j data (64 - j)
    let state := SHA1Transform bigEndian ctx.state buffer
    let (i, state) ← transformLoop bigEndian data len (len + 1) (64 - j) state
    let buffer ← memcpy buffer 0 (data.drop i) (len - i)
    some ⟨state, count0, count1, buffer⟩
  else
    let buffer ← memcpy ctx.buffer j data len
    some ⟨ctx.state, count0, count1, buffer⟩

/-- `while ((count[0] & 504) != 448) SHA1Update(ctx, "\0", 1)` -/
def padLoop : Nat → SHA1_CTX → Option SHA1_CTX
  | 0, _ => none
  | fuel + 1, ctx =>
    if ctx.count0 &&& 504 ≠ 448 then do
      let ctx ← SHA1Update bigEndian ctx [0, 0] 1
      padLoop fuel ctx
    else some ctx

/-- `finalcount` -/
def finalcount (ctx : SHA1_CTX) : List Byte :=
  (List.range 8).map fun i =>
    UInt8.ofNat ((if i ≥ 4 then ctx.count0 else ctx.count1) >>> ((3 - (i &&& 3)) * 8) &&& 255)

/-- `digest` -/
def finaldigest (state : Five) : List Byte :=
  (List.range 20).map fun i =>
    UInt8.ofNat ((state.words.getD (i >>> 2) 0).toNat >>> ((3 - (i &&& 3)) * 8) &&& 255)

/-- The digest, and the context, which is wiped. -/
def SHA1Final (ctx : SHA1_CTX) : Option (List Byte × SHA1_CTX) := do
  let finalcount := finalcount ctx
  let ctx ← SHA1Update bigEndian ctx [0x80, 0] 1
  let ctx ← padLoop bigEndian 64 ctx
  let ctx ← SHA1Update bigEndian ctx finalcount 8
  let digest := finaldigest ctx.state
  some (digest, ⟨⟨0, 0, 0, 0, 0⟩, 0, 0, List.replicate ctx.buffer.length 0⟩)

/-- A text in pieces. -/
def updates (pieces : List (List Byte)) (ctx : SHA1_CTX) : Option SHA1_CTX :=
  pieces.foldlM (fun ctx piece => SHA1Update bigEndian ctx piece piece.length) ctx

end Code

/-! ## A piece -/

/-- The context after `text`. -/
structure Holds (ctx : SHA1_CTX) (text : List Byte) : Prop where
  state : ctx.state = absorb 64 compress H0 text
  count0 : ctx.count0 = u32 (8 * text.length)
  count1 : ctx.count1 = u32 (8 * text.length / 2 ^ 32)
  length : ctx.buffer.length = 64
  buffer : ctx.buffer.take (text.length % 64) = leftover 64 text

theorem SHA1Init_holds {ctx : SHA1_CTX} (h : ctx.buffer.length = 64) : Holds (SHA1Init ctx) [] :=
  ⟨rfl, rfl, rfl, h, rfl⟩

section Update

variable {ctx : SHA1_CTX} {text : List Byte}

theorem Holds.index (h : Holds ctx text) : ctx.count0 >>> 3 &&& 63 = text.length % 64 := by
  have hmask : ctx.count0 >>> 3 &&& 63 = ctx.count0 >>> 3 % 64 := Nat.and_two_pow_sub_one_eq_mod _ 6
  rw [hmask, h.count0, Nat.shiftRight_eq_div_pow, u32]
  omega

/-- The 64-bit count, in two words. -/
theorem count0_add (n len : Nat) : u32 (u32 (8 * n) + u32 (len <<< 3)) = u32 (8 * (n + len)) := by
  simp only [u32, Nat.shiftLeft_eq]
  omega

theorem count1_add (n len : Nat) :
    u32 ((if u32 (8 * (n + len)) < u32 (len <<< 3) then u32 (u32 (8 * n / 2 ^ 32) + 1)
      else u32 (8 * n / 2 ^ 32)) + len >>> 29) = u32 (8 * (n + len) / 2 ^ 32) := by
  simp only [u32, Nat.shiftLeft_eq, Nat.shiftRight_eq_div_pow]
  split <;> omega

theorem memcpy_take (block data : List Byte) (off len : Nat) (hdata : len ≤ data.length)
    (hblock : off + len ≤ block.length) : ∃ block', memcpy block off data len = some block' ∧
      block'.length = block.length ∧ block'.take (off + len) = block.take off ++ data.take len := by
  have hlen : (data.take len).length = len := List.length_take_of_le hdata
  obtain ⟨block', hstore⟩ := storeBytes_some (data.take len)
    (show off + (data.take len).length ≤ block.length by omega)
  have htake := take_storeBytes hstore
  rw [hlen] at htake
  exact ⟨block', by rw [memcpy, if_neg (by omega), hstore], storeBytes_length hstore, htake⟩

variable (bigEndian : Bool)

/-- The loop takes the whole blocks; `i + 63` does not wrap because `i` and `j` fill whole blocks. -/
theorem transformLoop_blocks {j : Nat} (hj : j < 64) (rest tail : List Byte) : ∀ (pre : List Byte) (state : Five)
    (fuel : Nat), (pre.length + j) % 64 = 0 → j + (pre.length + rest.length) < 2 ^ 32 → rest.length < fuel →
    transformLoop bigEndian (pre ++ rest ++ tail) (pre.length + rest.length) fuel pre.length state =
      some (pre.length + 64 * (rest.length / 64), absorb 64 compress state rest) := by
  induction rest using blocks_induction (b := 64) (by omega) with
  | short rest hlt =>
    intro pre state fuel hmod hfit hfuel
    obtain ⟨fuel, rfl⟩ : ∃ k, fuel = k + 1 := ⟨fuel - 1, by omega⟩
    have hwrap : u32 (pre.length + 63) = pre.length + 63 := u32_of_lt (by omega)
    rw [transformLoop, if_neg (by omega), absorb_of_lt hlt, Nat.div_eq_of_lt hlt, Nat.mul_zero, Nat.add_zero]
  | block x xs hx ih =>
    intro pre state fuel hmod hfit hfuel
    rw [List.length_append, hx] at hfit hfuel
    obtain ⟨fuel, rfl⟩ : ∃ k, fuel = k + 1 := ⟨fuel - 1, by omega⟩
    have hwrap : u32 (pre.length + 63) = pre.length + 63 := u32_of_lt (by omega)
    have hnext : u32 (pre.length + 64) = (pre ++ x).length := by
      rw [List.length_append, hx, u32_of_lt (by omega)]
    have hread : blockAt (pre ++ (x ++ xs) ++ tail) pre.length = some x := by
      rw [blockAt, if_pos (by simp only [List.length_append, hx]; omega), List.append_assoc, List.drop_left,
        List.append_assoc, List.take_left' hx]
    have hrest := ih (pre ++ x) (compress state x) fuel (by rw [List.length_append, hx]; omega)
      (by rw [List.length_append, hx]; omega) (by omega)
    have htotal : pre.length + (x ++ xs).length = (pre ++ x).length + xs.length := by
      simp only [List.length_append]
      omega
    rw [transformLoop, hwrap, if_pos (by rw [List.length_append, hx]; omega), hread, Option.bind_eq_bind,
      Option.bind_some, hnext, SHA1Transform_eq state hx, htotal, ← List.append_assoc pre x xs, hrest,
      absorb_cons (by omega) hx, div_length_block (by omega) hx, List.length_append, hx]
    congr 2
    omega

theorem SHA1Update_holds (h : Holds ctx text) (data : List Byte) (len : Nat) (hdata : len ≤ data.length)
    (hfit : text.length % 64 + len < 2 ^ 32) :
    ∃ ctx', SHA1Update bigEndian ctx data len = some ctx' ∧ Holds ctx' (text ++ data.take len) := by
  have htake : (data.take len).length = len := List.length_take_of_le hdata
  have hj : text.length % 64 < 64 := Nat.mod_lt _ (by omega)
  have hsum : u32 (text.length % 64 + len) = text.length % 64 + len := u32_of_lt hfit
  have hlength : (text ++ data.take len).length = text.length + len := by rw [List.length_append, htake]
  simp only [SHA1Update, h.index, hsum, Option.bind_eq_bind]
  simp only [h.count0, h.count1, count0_add, count1_add]
  by_cases hfull : 63 < text.length % 64 + len
  · -- the buffer is filled up to a block; then come the blocks of `data`, and what is left of it
    obtain ⟨buffer, hcopy, hlen, hbuffer⟩ := memcpy_take ctx.buffer data (text.length % 64)
      (64 - text.length % 64) (by omega) (by rw [h.length]; omega)
    have hblock : leftover 64 text ++ data.take (64 - text.length % 64) = buffer := by
      rw [← h.buffer, ← hbuffer, List.take_of_length_le]
      rw [hlen, h.length]
      omega
    have hbuffer64 : buffer.length = 64 := by rw [hlen, h.length]
    let rest := (data.take len).drop (64 - text.length % 64)
    have hpre : (data.take (64 - text.length % 64)).length = 64 - text.length % 64 :=
      List.length_take_of_le (by omega)
    have hrest : rest.length = len - (64 - text.length % 64) := by rw [List.length_drop, htake]
    have hparts : data.take len = data.take (64 - text.length % 64) ++ rest := by
      rw [← List.take_append_drop (64 - text.length % 64) (data.take len), List.take_take,
        Nat.min_eq_left (by omega)]
    have hloop := transformLoop_blocks bigEndian hj rest (data.drop len)
      (data.take (64 - text.length % 64)) (compress ctx.state buffer) (len + 1) (by rw [hpre]; omega)
      (by rw [hpre, hrest]; omega) (by omega)
    rw [← hparts, List.take_append_drop, hpre, hrest, Nat.add_sub_cancel' (by omega)] at hloop
    obtain ⟨buffer', hcopy', hlen', hbuffer'⟩ := memcpy_take buffer
      (data.drop (64 - text.length % 64 + 64 * ((len - (64 - text.length % 64)) / 64))) 0
      (len - (64 - text.length % 64 + 64 * ((len - (64 - text.length % 64)) / 64)))
      (by rw [List.length_drop]; omega) (by omega)
    have hunits : leftover 64 text ++ data.take len = buffer ++ rest := by
      rw [hparts, ← List.append_assoc, hblock]
    rw [if_pos hfull, hcopy, Option.bind_some, SHA1Transform_eq _ hbuffer64, hloop, Option.bind_some, hcopy']
    refine ⟨_, rfl, ?_, by rw [hlength], by rw [hlength], by rw [hlen', hbuffer64], ?_⟩
    · rw [absorb_append (by omega), ← h.state, hunits, absorb_cons (by omega) hbuffer64]
    · rw [leftover_append (by omega), hunits, leftover_cons (by omega) hbuffer64, leftover, hrest, hlength,
        List.drop_drop, List.drop_take]
      rw [Nat.zero_add, List.take_zero, List.nil_append] at hbuffer'
      rw [← hbuffer']
      congr 1
      omega
  · obtain ⟨buffer, hcopy, hlen, hbuffer⟩ :=
      memcpy_take ctx.buffer data (text.length % 64) len hdata (by rw [h.length]; omega)
    have hshort : (leftover 64 text ++ data.take len).length < 64 := by
      rw [List.length_append, leftover_length, htake]
      omega
    rw [if_neg hfull, hcopy]
    refine ⟨_, rfl, ?_, by rw [hlength], by rw [hlength], by rw [hlen, h.length], ?_⟩
    · rw [absorb_append (by omega), absorb_of_lt hshort, h.state]
    · rw [leftover_append (by omega), leftover_of_lt hshort, ← h.buffer, ← hbuffer, hlength]
      congr 1
      omega

/-- `j + len` wraps to a number below 64, and `len` bytes are copied into the buffer. -/
theorem SHA1Update_wraps (h : Holds ctx text) {data : List Byte} {len : Nat} (hlen : len < 2 ^ 32)
    (hwraps : 2 ^ 32 ≤ text.length % 64 + len) : SHA1Update bigEndian ctx data len = none := by
  have hj : text.length % 64 < 64 := Nat.mod_lt _ (by omega)
  have hcopy : memcpy ctx.buffer (text.length % 64) data len = none := by
    unfold memcpy
    split
    · rfl
    · rw [storeBytes, if_neg]
      rw [List.length_take, h.length]
      omega
  simp only [SHA1Update, h.index, u32, Option.bind_eq_bind]
  rw [if_neg (by omega), hcopy, Option.bind_none]

end Update

/-! ## The padding -/

section Final

variable {ctx : SHA1_CTX} {text : List Byte}

theorem byte_and : ∀ b : Byte, b &&& 255 = b := forall_byte (by decide +kernel)

theorem be32_u32 (n : Nat) : be32 (u32 n) = be32 n := by
  have h (k : Nat) (hk : k ≤ 24) : UInt8.ofNat (n % 2 ^ 32 / 2 ^ k) = UInt8.ofNat (n / 2 ^ k) := by
    apply UInt8.toNat_inj.mp
    rw [UInt8.toNat_ofNat', UInt8.toNat_ofNat', ← Nat.mod_mul_right_div_self, ← Nat.mod_mul_right_div_self,
      ← Nat.pow_add, Nat.mod_mod_of_dvd _ (Nat.pow_dvd_pow 2 (by omega))]
  have h0 := h 0 (by omega)
  rw [Nat.pow_zero, Nat.div_one, Nat.div_one] at h0
  rw [be32, be32, u32, h 24 (by omega), h 16 (by omega), h 8 (by omega), h0]

theorem finalcount_eq (h : Holds ctx text) : finalcount ctx = bitLength text.length := by
  have hbytes : finalcount ctx = be32 ctx.count1 ++ be32 ctx.count0 := by
    simp [finalcount, List.range, List.range.loop, be32, byte_and, Nat.shiftRight_eq_div_pow]
  rw [hbytes, h.count0, h.count1, be32_u32, be32_u32, bitLength]

theorem finaldigest_eq (state : Five) : finaldigest state = digest state := by
  simp [finaldigest, digest, Five.words, List.range, List.range.loop, be32, byte_and, Nat.shiftRight_eq_div_pow]

theorem Holds.padded (h : Holds ctx text) : ctx.count0 &&& 504 = 448 ↔ text.length % 64 = 56 := by
  have hmask : ctx.count0 &&& 504 = 8 * (ctx.count0 >>> 3 &&& 63) := by
    have hlow : ctx.count0 = 8 * (ctx.count0 >>> 3) := by
      rw [h.count0, u32, Nat.shiftRight_eq_div_pow]
      omega
    have hand := Nat.shiftLeft_and_distrib (i := 3) (a := ctx.count0 >>> 3) (b := 63)
    rw [Nat.shiftLeft_eq, Nat.shiftLeft_eq, Nat.mul_comm, Nat.mul_comm (ctx.count0 >>> 3), ← hlow] at hand
    exact hand.symm
  rw [hmask, h.index]
  omega

variable (bigEndian : Bool)

theorem padLoop_zeros : ∀ (n : Nat) {ctx : SHA1_CTX} {text : List Byte}, Holds ctx text → n < 64 →
    (text.length + n) % 64 = 56 → ∀ fuel, n < fuel →
    ∃ ctx', padLoop bigEndian fuel ctx = some ctx' ∧ Holds ctx' (text ++ List.replicate n 0) := by
  intro n
  induction n with
  | zero =>
    intro ctx text h _ hmod fuel hfuel
    obtain ⟨fuel, rfl⟩ : ∃ k, fuel = k + 1 := ⟨fuel - 1, by omega⟩
    refine ⟨ctx, ?_, by rwa [List.replicate_zero, List.append_nil]⟩
    rw [padLoop, if_neg (fun hne => hne (h.padded.mpr hmod))]
  | succ n ih =>
    intro ctx text h hn hmod fuel hfuel
    obtain ⟨fuel, rfl⟩ : ∃ k, fuel = k + 1 := ⟨fuel - 1, by omega⟩
    obtain ⟨ctx', hupdate, hnext⟩ := SHA1Update_holds bigEndian h [0, 0] 1 (by simp)
      (by omega)
    obtain ⟨ctx'', hloop, hend⟩ := ih hnext (by omega) (by simp; omega) fuel (by omega)
    refine ⟨ctx'', ?_, ?_⟩
    · rw [padLoop, if_pos (fun heq => by have := h.padded.mp heq; omega), hupdate, Option.bind_eq_bind,
        Option.bind_some, hloop]
    · rw [List.replicate_succ]
      simpa using hend

/-- The digest of what has been hashed, and a context of zeros. -/
theorem SHA1Final_digest (h : Holds ctx text) : SHA1Final bigEndian ctx =
    some (sha1 text, ⟨⟨0, 0, 0, 0, 0⟩, 0, 0, List.replicate 64 0⟩) := by
  obtain ⟨ctx1, hone, h1⟩ := SHA1Update_holds bigEndian h [0x80, 0] 1 (by simp)
    (by omega)
  obtain ⟨ctx2, hloop, h2⟩ := padLoop_zeros bigEndian (zeros text.length) h1
    (by rw [zeros]; omega) (by rw [zeros]; simp; omega) 64 (by rw [zeros]; omega)
  obtain ⟨ctx3, hlast, h3⟩ := SHA1Update_holds bigEndian h2 (finalcount ctx) 8
    (by rw [finalcount_eq h]; simp [bitLength]) (by omega)
  have hpad : text ++ [0x80, 0].take 1 ++ List.replicate (zeros text.length) 0 ++ (finalcount ctx).take 8 =
    pad text := by
    have hwhole : (bitLength text.length).take 8 = bitLength text.length := rfl
    rw [finalcount_eq h, pad, hwhole]
    rfl
  rw [hpad] at h3
  simp only [SHA1Final, hone, hloop, hlast, Option.bind_eq_bind, Option.bind_some, finaldigest_eq, h3.state, h3.length,
    sha1]

end Final

/-! ## Whole runs -/

/-- No piece wraps `j + len`, after `n` bytes. -/
def Fits : Nat → List (List Byte) → Prop
  | _, [] => True
  | n, piece :: pieces => n % 64 + piece.length < 2 ^ 32 ∧ Fits (n + piece.length) pieces

section Runs

variable (bigEndian : Bool)

theorem updates_holds {pieces : List (List Byte)} : ∀ {ctx : SHA1_CTX} {text : List Byte}, Holds ctx text →
    Fits text.length pieces →
    ∃ ctx', updates bigEndian pieces ctx = some ctx' ∧ Holds ctx' (text ++ pieces.flatten) := by
  induction pieces with
  | nil => exact fun h _ => ⟨_, rfl, by rwa [List.flatten_nil, List.append_nil]⟩
  | cons piece pieces ih =>
    intro ctx text h hfits
    obtain ⟨ctx1, hupdate, h1⟩ := SHA1Update_holds bigEndian h piece piece.length (Nat.le_refl _) hfits.1
    rw [List.take_length] at h1
    obtain ⟨ctx', hrest, h'⟩ := ih h1 (by rw [List.length_append]; exact hfits.2)
    refine ⟨ctx', ?_, by rwa [List.flatten_cons, ← List.append_assoc]⟩
    rw [updates, List.foldlM_cons, hupdate]
    exact hrest

theorem updates_wraps {pieces : List (List Byte)} (hlen : ∀ piece ∈ pieces, piece.length < 2 ^ 32) :
    ∀ {ctx : SHA1_CTX} {text : List Byte}, Holds ctx text → ¬ Fits text.length pieces →
    updates bigEndian pieces ctx = none := by
  induction pieces with
  | nil => exact fun _ hfits => absurd trivial hfits
  | cons piece pieces ih =>
    intro ctx text h hfits
    have hpiece := hlen piece List.mem_cons_self
    rw [updates, List.foldlM_cons]
    by_cases hfit : text.length % 64 + piece.length < 2 ^ 32
    · obtain ⟨ctx1, hupdate, h1⟩ := SHA1Update_holds bigEndian h piece piece.length (Nat.le_refl _) hfit
      rw [List.take_length] at h1
      rw [hupdate]
      exact ih (fun p hp => hlen p (List.mem_cons_of_mem _ hp)) h1
        (fun hrest => hfits ⟨hfit, by rwa [List.length_append] at hrest⟩)
    · rw [SHA1Update_wraps bigEndian h hpiece (by omega)]
      rfl

/-- **Texts in pieces.** Whatever the context held before, `SHA1Init`, any calls of `SHA1Update` and `SHA1Final`
give the digest of all the pieces together, if no call wraps `j + len`; a call that does writes outside of the
buffer. -/
theorem digest_pieces_iff {ctx : SHA1_CTX} (hctx : ctx.buffer.length = 64) {pieces : List (List Byte)}
    (hlen : ∀ piece ∈ pieces, piece.length < 2 ^ 32) (result : List Byte × SHA1_CTX) :
    (do SHA1Final bigEndian (← updates bigEndian pieces (SHA1Init ctx))) = some result ↔
      Fits 0 pieces ∧ result = (sha1 pieces.flatten, ⟨⟨0, 0, 0, 0, 0⟩, 0, 0, List.replicate 64 0⟩) := by
  have hinit := SHA1Init_holds hctx
  by_cases hfits : Fits 0 pieces
  · obtain ⟨ctx', hrun, h'⟩ := updates_holds bigEndian hinit hfits
    rw [List.nil_append] at h'
    rw [hrun, Option.bind_eq_bind, Option.bind_some, SHA1Final_digest bigEndian h', Option.some.injEq]
    exact ⟨fun h => ⟨hfits, h.symm⟩, fun h => h.2.symm⟩
  · rw [updates_wraps bigEndian hlen hinit hfits, Option.bind_eq_bind, Option.bind_none]
    exact ⟨nofun, fun h => absurd h.1 hfits⟩

/-- The text `abc`, in two pieces. -/
theorem digest_pieces_abc :
    (do SHA1Final false (← updates false [[0x61], [0x62, 0x63]]
      (SHA1Init ⟨H0, 5, 7, List.replicate 64 0xff⟩))) =
        some (sha1 [0x61, 0x62, 0x63], ⟨⟨0, 0, 0, 0, 0⟩, 0, 0, List.replicate 64 0⟩) :=
  (digest_pieces_iff false rfl (by simp) _).mpr ⟨by simp [Fits], rfl⟩

end Runs

/-- The digest that the comment of the source has for `abc`. -/
example : sha1 [0x61, 0x62, 0x63] =
    be32 0xA9993E36 ++ be32 0x4706816A ++ be32 0xBA3E2571 ++ be32 0x7850C26C ++ be32 0x9CD0D89D := by
  decide +kernel

end Xsha1
end Xlibc
