import Xlibc.Base.CStr
import Xlibc.Xsha1.Update

/-!
# Xlibc.Xsha1.Hmac

Keyed hashes over SHA-1, and the pseudo-random function made of them.

* `hmac_pieces` : `HMACInit`, `HMACUpdate` and `HMACFinal` compute what `hmac_sha1_vector` computes, which is
  the keyed hash of all the pieces.
* `sha1_prf_stream` : the pseudo-random bytes, for a buffer of any length.
-/

namespace Xlibc
namespace Xsha1

open Xfile (memcpy)

/-! ## The code -/

structure HMAC_CTX where
  context : SHA1_CTX
  key : List Byte
  keyLen : Nat

section Code

-- `junk` is what a context on the stack holds before it is initialised
variable (bigEndian : Bool) (junk : SHA1_CTX)

/-- `if (key_len > 64)`: the key that is used, and `sha1_ctx` behind it. -/
def shortKey (key : List Byte) : Option (List Byte × SHA1_CTX) :=
  if key.length > 64 then do
    let sha1Ctx ← SHA1Update bigEndian (SHA1Init junk) key (u32 key.length)
    let (tk, sha1Ctx) ← SHA1Final bigEndian sha1Ctx
    some (tk, sha1Ctx)
  else some (key, junk)

/-- 64 zeros, the key copied over them, every byte changed by `x`. -/
def xorPad (key : List Byte) (keyLen : Nat) (x : Byte) : Option (List Byte) := do
  let pad ← memcpy (List.replicate 64 0) 0 key keyLen
  some (pad.map (· ^^^ x))

def HMACInit (ctx : HMAC_CTX) (key : List Byte) : Option HMAC_CTX := do
  let (key, _) ← shortKey bigEndian junk key
  let ipad ← xorPad key key.length 0x36
  let stored ← memcpy ctx.key 0 key key.length
  let context ← SHA1Update bigEndian (SHA1Init ctx.context) ipad 64
  some ⟨context, stored, key.length⟩

def HMACUpdate (ctx : HMAC_CTX) (data : List Byte) (len : Nat) : Option HMAC_CTX := do
  let context ← SHA1Update bigEndian ctx.context data len
  some { ctx with context }

def HMACFinal (ctx : HMAC_CTX) : Option (List Byte × HMAC_CTX) := do
  let (sha1_digest, context) ← SHA1Final bigEndian ctx.context
  let opad ← xorPad ctx.key ctx.keyLen 0x5c
  let outer ← SHA1Update bigEndian (SHA1Init junk) opad 64
  let outer ← SHA1Update bigEndian outer sha1_digest 20
  let (digest, _) ← SHA1Final bigEndian outer
  some (digest, { ctx with context })

/-- `mac` -/
def hmacSha1Vector (key : List Byte) (elems : List (List Byte)) : Option (List Byte) := do
  let (key, sha1Ctx) ← shortKey bigEndian junk key
  let kPad ← xorPad key key.length 0x36
  let sha1Ctx ← SHA1Update bigEndian (SHA1Init sha1Ctx) kPad 64
  let sha1Ctx ← elems.foldlM (fun ctx elem => SHA1Update bigEndian ctx elem (u32 elem.length)) sha1Ctx
  let (mac, sha1Ctx) ← SHA1Final bigEndian sha1Ctx
  let kPad ← xorPad key key.length 0x5c
  let sha1Ctx ← SHA1Update bigEndian (SHA1Init sha1Ctx) kPad 64
  let sha1Ctx ← SHA1Update bigEndian sha1Ctx mac 20
  let (mac, _) ← SHA1Final bigEndian sha1Ctx
  some mac

def hmacSha1 (key data : List Byte) : Option (List Byte) := hmacSha1Vector bigEndian junk key [data]

/-- `while (pos < buf_len)` -/
def prfLoop (key label data : List Byte) (bufLen : Nat) : Nat → Nat → Byte → List Byte → Option (List Byte)
  | 0, _, _, _ => none
  | fuel + 1, pos, counter, buf =>
    if pos < bufLen then do
      let hash ← hmacSha1Vector bigEndian junk key [label ++ [0], data, [counter]]
      if bufLen - pos ≥ 20 then
        let buf ← storeBytes buf pos hash
        prfLoop key label data bufLen fuel (pos + 20) (counter + 1) buf
      else memcpy buf pos hash (bufLen - pos)
    else some buf

/-- The block `buf`, of which `buf_len` bytes are filled. -/
def sha1Prf (key : List Byte) (label : CString) (data buf : List Byte) (bufLen : Nat) : Option (List Byte) :=
  prfLoop bigEndian junk key label.val data bufLen (bufLen + 1) 0 0 buf

end Code

/-! ## Keyed hashes -/

section Hmac

variable (bigEndian : Bool) {junk : SHA1_CTX}

/-- A context that has just been initialised, after two pieces. -/
theorem hash_two (ctx : SHA1_CTX) (hctx : ctx.buffer.length = 64) {p q : List Byte} {m n : Nat} (hp : p.length = m)
    (hq : q.length = n) (hm : m < 2 ^ 32) (hn : m % 64 + n < 2 ^ 32) :
    ∃ ctx1 ctx2, SHA1Update bigEndian (SHA1Init ctx) p m = some ctx1 ∧ SHA1Update bigEndian ctx1 q n = some ctx2 ∧
      ∃ wiped, SHA1Final bigEndian ctx2 = some (sha1 (p ++ q), wiped) := by
  subst hp hq
  obtain ⟨ctx1, hupdate1, h1⟩ := SHA1Update_holds bigEndian (SHA1Init_holds hctx) p p.length
    (Nat.le_refl _) (by simpa using hm)
  rw [List.take_length, List.nil_append] at h1
  obtain ⟨ctx2, hupdate2, h2⟩ := SHA1Update_holds bigEndian h1 q q.length (Nat.le_refl _) hn
  rw [List.take_length] at h2
  exact ⟨ctx1, ctx2, hupdate1, hupdate2, _, SHA1Final_digest bigEndian h2⟩

theorem shortKey_eq (hjunk : junk.buffer.length = 64) {key : List Byte} (hkey : key.length < 2 ^ 32) :
    ∃ ctx, shortKey bigEndian junk key = some (hmacKey 64 sha1 key, ctx) ∧ ctx.buffer.length = 64 := by
  unfold shortKey hmacKey
  by_cases hlong : 64 < key.length
  · obtain ⟨ctx, hupdate, h⟩ := SHA1Update_holds bigEndian (SHA1Init_holds hjunk) key key.length
      (Nat.le_refl _) (by simpa using hkey)
    rw [List.take_length, List.nil_append] at h
    rw [if_pos hlong, if_pos hlong, u32_of_lt hkey]
    simp only [hupdate, SHA1Final_digest bigEndian h, Option.bind_eq_bind, Option.bind_some]
    exact ⟨_, rfl, List.length_replicate⟩
  · rw [if_neg hlong, if_neg hlong]
    exact ⟨junk, rfl, hjunk⟩

theorem hmacKey_sha1_length (key : List Byte) : (hmacKey 64 sha1 key).length ≤ 64 :=
  hmacKey_length (fun text => by rw [sha1_length]; omega) key

theorem xorPad_eq {key : List Byte} {len : Nat} (hlen : len ≤ key.length) (h64 : len ≤ 64) (x : Byte) :
    xorPad key len x = some (hmacPad 64 x (key.take len)) := by
  have htake : (key.take len).length = len := List.length_take_of_le hlen
  have hcopy : memcpy (List.replicate 64 0) 0 key len = some (key.take len ++ List.replicate (64 - len) 0) := by
    have hstore : storeBytes ([] ++ List.replicate 64 0) 0 (key.take len) =
        some ([] ++ key.take len ++ (List.replicate 64 0).drop (key.take len).length) :=
      storeBytes_append (by rw [htake, List.length_replicate]; exact h64)
    rw [List.nil_append, List.nil_append, htake, List.drop_replicate] at hstore
    rw [memcpy, if_neg (by omega)]
    exact hstore
  rw [xorPad, hcopy, hmacPad, htake]
  rfl

theorem xorPad_key {key : List Byte} (h : key.length ≤ 64) (x : Byte) :
    xorPad key key.length x = some (hmacPad 64 x key) := by
  rw [xorPad_eq (Nat.le_refl _) h, List.take_length]

theorem fits_ipad {pad : List Byte} (hpad : pad.length = 64) : ∀ {pieces : List (List Byte)},
    Fits 0 pieces → Fits pad.length pieces := by
  have hmod (n : Nat) (pieces : List (List Byte)) (h : Fits n pieces) : Fits (64 + n) pieces := by
    induction pieces generalizing n with
    | nil => exact trivial
    | cons piece pieces ih => exact ⟨by have := h.1; omega, by have := ih _ h.2; rwa [← Nat.add_assoc] at this⟩
  intro pieces h
  rw [hpad]
  exact hmod 0 pieces h

theorem fits_lt {pieces : List (List Byte)} {n : Nat} (h : Fits n pieces) :
    ∀ piece ∈ pieces, piece.length < 2 ^ 32 := by
  induction pieces generalizing n with
  | nil => nofun
  | cons piece pieces ih =>
    intro p hp
    rcases List.mem_cons.mp hp with rfl | hp
    · have := h.1
      omega
    · exact ih h.2 p hp

/-- The inner hash. -/
theorem inner_holds {ctx : SHA1_CTX} (hctx : ctx.buffer.length = 64) {pad : List Byte} (hpad : pad.length = 64)
    {pieces : List (List Byte)} (hfits : Fits 0 pieces) :
    ∃ ctx1 ctx2, SHA1Update bigEndian (SHA1Init ctx) pad 64 = some ctx1 ∧
      updates bigEndian pieces ctx1 = some ctx2 ∧
      Holds ctx2 (pad ++ pieces.flatten) := by
  obtain ⟨ctx1, hupdate, h1⟩ := SHA1Update_holds bigEndian (SHA1Init_holds hctx) pad 64 (by omega)
    (by simp)
  rw [← hpad, List.take_length, List.nil_append] at h1
  obtain ⟨ctx2, hrun, h2⟩ := updates_holds bigEndian h1 (fits_ipad hpad hfits)
  exact ⟨ctx1, ctx2, hupdate, hrun, h2⟩

theorem updates_u32 {pieces : List (List Byte)} (h : ∀ piece ∈ pieces, piece.length < 2 ^ 32) (ctx : SHA1_CTX) :
    pieces.foldlM (fun ctx piece => SHA1Update bigEndian ctx piece (u32 piece.length)) ctx =
      updates bigEndian pieces ctx := by
  induction pieces generalizing ctx with
  | nil => rfl
  | cons piece pieces ih =>
    rw [updates, List.foldlM_cons, List.foldlM_cons, u32_of_lt (h piece List.mem_cons_self)]
    exact Option.bind_congr fun ctx' _ => ih (fun p hp => h p (List.mem_cons_of_mem _ hp)) ctx'

theorem hmacUpdates_context {pieces : List (List Byte)} (ctx : HMAC_CTX) {context : SHA1_CTX}
    (h : updates bigEndian pieces ctx.context = some context) :
    pieces.foldlM (fun ctx piece => HMACUpdate bigEndian ctx piece piece.length) ctx =
      some { ctx with context } := by
  induction pieces generalizing ctx with
  | nil =>
    cases h
    rfl
  | cons piece pieces ih =>
    rw [updates, List.foldlM_cons] at h
    obtain ⟨context1, hupdate, hrest⟩ := Option.bind_eq_some_iff.mp h
    have hstep : HMACUpdate bigEndian ctx piece piece.length = some { ctx with context := context1 } := by
      rw [HMACUpdate, hupdate]
      rfl
    rw [List.foldlM_cons, hstep]
    exact ih { ctx with context := context1 } hrest

theorem hmacSha1Vector_eq (hjunk : junk.buffer.length = 64) {key : List Byte} (hkey : key.length < 2 ^ 32)
    {pieces : List (List Byte)} (hfits : Fits 0 pieces) :
    hmacSha1Vector bigEndian junk key pieces = some (hmac 64 sha1 key pieces.flatten) := by
  obtain ⟨ctx, hshort, hctx⟩ := shortKey_eq bigEndian hjunk hkey
  have hlen := hmacKey_sha1_length key
  obtain ⟨ctx1, ctx2, hpad, hrun, hinner⟩ := inner_holds bigEndian hctx (hmacPad_length hlen 0x36) hfits
  obtain ⟨ctx3, ctx4, hpad', hmac', wiped, hdigest⟩ := hash_two bigEndian
    ⟨⟨0, 0, 0, 0, 0⟩, 0, 0, List.replicate 64 0⟩ List.length_replicate (hmacPad_length hlen 0x5c)
    (sha1_length (hmacPad 64 0x36 (hmacKey 64 sha1 key) ++ pieces.flatten)) (by omega) (by omega)
  simp only [hmacSha1Vector, hshort, xorPad_key hlen, hpad, updates_u32 bigEndian (fits_lt hfits), hrun,
    SHA1Final_digest bigEndian hinner, hpad', hmac', hdigest, Option.bind_eq_bind, Option.bind_some]
  rfl

/-- A text in one piece. -/
theorem hmacSha1_eq (hjunk : junk.buffer.length = 64) {key data : List Byte} (hkey : key.length < 2 ^ 32)
    (hdata : data.length < 2 ^ 32) : hmacSha1 bigEndian junk key data = some (hmac 64 sha1 key data) := by
  have hfits : Fits 0 [data] := ⟨by omega, trivial⟩
  rw [hmacSha1, hmacSha1Vector_eq bigEndian hjunk hkey hfits, List.flatten_cons, List.flatten_nil, List.append_nil]

/-- **Keyed hashes.** For a key of any length below 2^32 and a text in any pieces, `HMACInit`, `HMACUpdate` for
each of them and `HMACFinal` give what `hmac_sha1_vector` gives: the keyed hash of the pieces together. -/
theorem hmac_pieces (hjunk : junk.buffer.length = 64) {ctx : HMAC_CTX} (hctx : ctx.context.buffer.length = 64)
    (hblock : ctx.key.length = 64) {key : List Byte} (hkey : key.length < 2 ^ 32) {pieces : List (List Byte)}
    (hfits : Fits 0 pieces) :
    (∃ ctx', (do
      let ctx ← HMACInit bigEndian junk ctx key
      let ctx ← pieces.foldlM (fun ctx piece => HMACUpdate bigEndian ctx piece piece.length) ctx
      HMACFinal bigEndian junk ctx) = some (hmac 64 sha1 key pieces.flatten, ctx')) ∧
    hmacSha1Vector bigEndian junk key pieces = some (hmac 64 sha1 key pieces.flatten) := by
  refine ⟨?_, hmacSha1Vector_eq bigEndian hjunk hkey hfits⟩
  obtain ⟨_, hshort, _⟩ := shortKey_eq bigEndian hjunk hkey
  have hlen := hmacKey_sha1_length key
  obtain ⟨stored, hcopy, _, hstored⟩ := memcpy_take ctx.key (hmacKey 64 sha1 key) 0 _
    (Nat.le_refl _) (by omega)
  rw [Nat.zero_add, List.take_zero, List.nil_append, List.take_length] at hstored
  have hstored' : (hmacKey 64 sha1 key).length ≤ stored.length := by
    have := congrArg List.length hstored
    rw [List.length_take] at this
    omega
  obtain ⟨ctx1, ctx2, hpad, hrun, hinner⟩ := inner_holds bigEndian hctx (hmacPad_length hlen 0x36) hfits
  obtain ⟨ctx3, ctx4, hpad', hmac', wiped, hdigest⟩ := hash_two bigEndian junk hjunk
    (hmacPad_length hlen 0x5c) (sha1_length (hmacPad 64 0x36 (hmacKey 64 sha1 key) ++ pieces.flatten))
    (by omega) (by omega)
  have hupdates := hmacUpdates_context bigEndian ⟨ctx1, stored, (hmacKey 64 sha1 key).length⟩ hrun
  simp only [HMACInit, hshort, xorPad_key hlen, hcopy, hpad, hupdates, HMACFinal, SHA1Final_digest bigEndian hinner,
    xorPad_eq hstored' hlen, hstored, hpad', hmac', hdigest, Option.bind_eq_bind, Option.bind_some]
  exact ⟨_, rfl⟩

/-- The key `k`, and the text `abc` in two pieces. -/
theorem hmac_pieces_abc :
    (∃ ctx', (do
      let ctx ← HMACInit false ⟨H0, 0, 0, List.replicate 64 0⟩
        ⟨⟨H0, 0, 0, List.replicate 64 0⟩, List.replicate 64 0, 0⟩ [0x6b]
      let ctx ← [[0x61], [0x62, 0x63]].foldlM (fun ctx piece => HMACUpdate false ctx piece piece.length) ctx
      HMACFinal false ⟨H0, 0, 0, List.replicate 64 0⟩ ctx) =
        some (hmac 64 sha1 [0x6b] [[0x61], [0x62, 0x63]].flatten, ctx')) ∧
    hmacSha1Vector false ⟨H0, 0, 0, List.replicate 64 0⟩ [0x6b] [[0x61], [0x62, 0x63]] =
      some (hmac 64 sha1 [0x6b] [[0x61], [0x62, 0x63]].flatten) :=
  hmac_pieces false rfl rfl rfl (by simp) ⟨by simp, by simp, trivial⟩

/-! ## The pseudo-random function -/

/-- The first `n` blocks: the text `label`, a zero, `data` and a counter of one byte. -/
def prfBlocks (key label data : List Byte) (n : Nat) : List Byte :=
  (List.range n).flatMap fun i => hmac 64 sha1 key (label ++ [0] ++ data ++ [UInt8.ofNat i])

theorem hmacSha1_length (key text : List Byte) : (hmac 64 sha1 key text).length = 20 := by
  rw [hmac, sha1_length]

theorem prfBlocks_succ (key label data : List Byte) (n : Nat) : prfBlocks key label data (n + 1) =
    prfBlocks key label data n ++ hmac 64 sha1 key (label ++ [0] ++ data ++ [UInt8.ofNat n]) := by
  simp [prfBlocks, List.range_succ]

theorem prfBlocks_length (key label data : List Byte) (n : Nat) : (prfBlocks key label data n).length = 20 * n := by
  induction n with
  | zero => rfl
  | succ n ih => rw [prfBlocks_succ, List.length_append, ih, hmacSha1_length, Nat.mul_succ]

section Prf

variable {key label data : List Byte} {bufLen : Nat} (hjunk : junk.buffer.length = 64) (hkey : key.length < 2 ^ 32)
  (hlabel : label.length + 1 < 2 ^ 32) (hdata : data.length < 2 ^ 32 - 63)
include hjunk hkey hlabel hdata

theorem prf_block (counter : Byte) : hmacSha1Vector bigEndian junk key [label ++ [0], data, [counter]] =
    some (hmac 64 sha1 key (label ++ [0] ++ data ++ [counter])) := by
  have hfits : Fits 0 [label ++ [0], data, [counter]] := by
    refine ⟨?_, by omega, ?_, trivial⟩
    · simp only [List.length_append, List.length_singleton]
      omega
    · rw [List.length_singleton]
      omega
  rw [hmacSha1Vector_eq bigEndian hjunk hkey hfits]
  simp

theorem prfLoop_blocks : ∀ (r k fuel : Nat) (rest : List Byte), 20 * k ≤ bufLen →
    (bufLen - 20 * k + 19) / 20 = r →
    r < fuel → bufLen - 20 * k ≤ rest.length →
    prfLoop bigEndian junk key label data bufLen fuel (20 * k) (UInt8.ofNat k) (prfBlocks key label data k ++ rest) =
      some ((prfBlocks key label data (k + r)).take bufLen ++ rest.drop (bufLen - 20 * k)) := by
  intro r
  induction r with
  | zero =>
    intro k fuel rest hk hr hfuel hrest
    obtain ⟨fuel, rfl⟩ : ∃ m, fuel = m + 1 := ⟨fuel - 1, by omega⟩
    rw [prfLoop, if_neg (by omega), Nat.add_zero, List.take_of_length_le (by rw [prfBlocks_length]; omega),
      show bufLen - 20 * k = 0 by omega, List.drop_zero]
  | succ r ih =>
    intro k fuel rest hk hr hfuel hrest
    obtain ⟨fuel, rfl⟩ : ∃ m, fuel = m + 1 := ⟨fuel - 1, by omega⟩
    have hlen := prfBlocks_length key label data k
    have hblock := prf_block bigEndian hjunk hkey hlabel hdata (UInt8.ofNat k)
    have hhash := hmacSha1_length key (label ++ [0] ++ data ++ [UInt8.ofNat k])
    rw [prfLoop, if_pos (by omega), hblock, Option.bind_eq_bind, Option.bind_some]
    by_cases hwhole : bufLen - 20 * k ≥ 20
    · have hstore : storeBytes (prfBlocks key label data k ++ rest) _ _ =
          some (prfBlocks key label data k ++ hmac 64 sha1 key (label ++ [0] ++ data ++ [UInt8.ofNat k]) ++ _) :=
        storeBytes_append (by omega)
      rw [hlen, hhash, ← prfBlocks_succ] at hstore
      have hnext := ih (k + 1) fuel (rest.drop 20) (by omega) (by omega) (by omega) (by rw [List.length_drop]; omega)
      rw [List.drop_drop, show 20 + (bufLen - 20 * (k + 1)) = bufLen - 20 * k by omega, Nat.add_right_comm,
        Nat.mul_succ, UInt8.ofNat_add] at hnext
      rw [if_pos hwhole, hstore, Option.bind_some]
      exact hnext
    · have hpart : ((hmac 64 sha1 key (label ++ [0] ++ data ++ [UInt8.ofNat k])).take (bufLen - 20 * k)).length =
          bufLen - 20 * k := List.length_take_of_le (by omega)
      have hstore : storeBytes (prfBlocks key label data k ++ rest) _ _ = some (prfBlocks key label data k ++ _ ++ _) :=
        storeBytes_append (by rw [hpart]; exact hrest)
      rw [hlen, hpart] at hstore
      have hall : (prfBlocks key label data k).take bufLen = prfBlocks key label data k :=
        List.take_of_length_le (by omega)
      obtain rfl : r = 0 := by omega
      rw [if_neg hwhole, memcpy, if_neg (by omega), hstore, Nat.zero_add, prfBlocks_succ, List.take_append, hlen, hall]

end Prf

/-- **Keys from a key.** For a buffer that holds `buf_len` bytes these become the first `buf_len` bytes of the
keyed hashes of label, data and counter, one behind the other; what is behind them in the buffer stays. -/
theorem sha1_prf_stream (hjunk : junk.buffer.length = 64) {key data buf : List Byte} {label : CString} {bufLen : Nat}
    (hkey : key.length < 2 ^ 32) (hlabel : label.val.length + 1 < 2 ^ 32) (hdata : data.length < 2 ^ 32 - 63)
    (hbuf : bufLen ≤ buf.length) :
    sha1Prf bigEndian junk key label data buf bufLen =
      some ((prfBlocks key label.val data ((bufLen + 19) / 20)).take bufLen ++ buf.drop bufLen) := by
  have hloop := prfLoop_blocks bigEndian hjunk hkey hlabel hdata
    ((bufLen + 19) / 20) 0 (bufLen + 1) buf (Nat.zero_le _) rfl (by omega) hbuf
  rw [Nat.zero_add] at hloop
  exact hloop

theorem sha1_prf_stream_short :
    sha1Prf false ⟨H0, 0, 0, List.replicate 64 0⟩ [0x6b] ⟨[0x70], by decide⟩ [] (List.replicate 30 0) 25 =
      some ((prfBlocks [0x6b] [0x70] [] ((25 + 19) / 20)).take 25 ++ (List.replicate 30 0).drop 25) :=
  sha1_prf_stream false rfl (by simp) (by simp) (by simp) (by simp)

end Hmac

end Xsha1
end Xlibc
