import Xlibc.Base.Bytes
import Xlibc.Base.CInt
import Xlibc.Base.Crc

/-!
# Xlibc.Xcrc8.Table

`crc8_buf`, a byte at a time from its table.

* `table_steps` : an entry is eight steps of its index.
* `crc8Buf_bits` : the result is the register behind all the bits of the buffer.
* `crc8Buf_remainder` : the buffer times `X ^ 8` modulo `X ^ 8 + X ^ 2 + X + 1`.
-/

namespace Xlibc
namespace Xcrc8

def u8CRC8Table : List Byte :=
  [ 0x00, 0x07, 0x0e, 0x09, 0x1c, 0x1b, 0x12, 0x15,
    0x38, 0x3f, 0x36, 0x31, 0x24, 0x23, 0x2a, 0x2d,
    0x70, 0x77, 0x7e, 0x79, 0x6c, 0x6b, 0x62, 0x65,
    0x48, 0x4f, 0x46, 0x41, 0x54, 0x53, 0x5a, 0x5d,
    0xe0, 0xe7, 0xee, 0xe9, 0xfc, 0xfb, 0xf2, 0xf5,
    0xd8, 0xdf, 0xd6, 0xd1, 0xc4, 0xc3, 0xca, 0xcd,
    0x90, 0x97, 0x9e, 0x99, 0x8c, 0x8b, 0x82, 0x85,
    0xa8, 0xaf, 0xa6, 0xa1, 0xb4, 0xb3, 0xba, 0xbd,
    0xc7, 0xc0, 0xc9, 0xce, 0xdb, 0xdc, 0xd5, 0xd2,
    0xff, 0xf8, 0xf1, 0xf6, 0xe3, 0xe4, 0xed, 0xea,
    0xb7, 0xb0, 0xb9, 0xbe, 0xab, 0xac, 0xa5, 0xa2,
    0x8f, 0x88, 0x81, 0x86, 0x93, 0x94, 0x9d, 0x9a,
    0x27, 0x20, 0x29, 0x2e, 0x3b, 0x3c, 0x35, 0x32,
    0x1f, 0x18, 0x11, 0x16, 0x03, 0x04, 0x0d, 0x0a,
    0x57, 0x50, 0x59, 0x5e, 0x4b, 0x4c, 0x45, 0x42,
    0x6f, 0x68, 0x61, 0x66, 0x73, 0x74, 0x7d, 0x7a,
    0x89, 0x8e, 0x87, 0x80, 0x95, 0x92, 0x9b, 0x9c,
    0xb1, 0xb6, 0xbf, 0xb8, 0xad, 0xaa, 0xa3, 0xa4,
    0xf9, 0xfe, 0xf7, 0xf0, 0xe5, 0xe2, 0xeb, 0xec,
    0xc1, 0xc6, 0xcf, 0xc8, 0xdd, 0xda, 0xd3, 0xd4,
    0x69, 0x6e, 0x67, 0x60, 0x75, 0x72, 0x7b, 0x7c,
    0x51, 0x56, 0x5f, 0x58, 0x4d, 0x4a, 0x43, 0x44,
    0x19, 0x1e, 0x17, 0x10, 0x05, 0x02, 0x0b, 0x0c,
    0x21, 0x26, 0x2f, 0x28, 0x3d, 0x3a, 0x33, 0x34,
    0x4e, 0x49, 0x40, 0x47, 0x52, 0x55, 0x5c, 0x5b,
    0x76, 0x71, 0x78, 0x7f, 0x6A, 0x6d, 0x64, 0x63,
    0x3e, 0x39, 0x30, 0x37, 0x22, 0x25, 0x2c, 0x2b,
    0x06, 0x01, 0x08, 0x0f, 0x1a, 0x1d, 0x14, 0x13,
    0xae, 0xa9, 0xa0, 0xa7, 0xb2, 0xb5, 0xbc, 0xbb,
    0x96, 0x91, 0x98, 0x9f, 0x8a, 0x8D, 0x84, 0x83,
    0xde, 0xd9, 0xd0, 0xd7, 0xc2, 0xc5, 0xcc, 0xcb,
    0xe6, 0xe1, 0xe8, 0xef, 0xfa, 0xfd, 0xf4, 0xf3]

/-- `for (; i < bytes; i++) crc8 = u8CRC8Table[crc8 ^ buf[i]]` -/
def crc8Buf (data : List Byte) (bytes : Nat) : Option Byte :=
  forInt (fun i crc8 => do
    let b ← data[i]?
    u8CRC8Table[(crc8 ^^^ b).toNat]?) 0 bytes 0

/-! ## The polynomial -/

/-- `X ^ 2 + X + 1`, below `X ^ 8`. -/
def low : BitVec 8 := 0x07#8

/-- The bits of a buffer, each byte with its highest bit first. -/
def bufBits (buf : List Byte) : List Bool := buf.flatMap fun b => Crc.wordBits b.toBitVec

/-- The CRC-8 of a buffer, bit by bit. -/
def crc8Bits (buf : List Byte) : Byte := ⟨Crc.crcBits low 0#8 (bufBits buf)⟩

/-- Every entry of the table is eight steps of its index. -/
theorem table_steps (k : Byte) :
    u8CRC8Table[k.toNat]? = some ⟨Crc.crcBits low k.toBitVec (List.replicate 8 false)⟩ := by
  have hall : ∀ n < 256, u8CRC8Table[n]? =
      some ⟨Crc.crcBits low (BitVec.ofNat 8 n) (List.replicate 8 false)⟩ := by decide +kernel
  have hk := hall k.toNat k.toNat_lt
  rwa [UInt8.toNat, BitVec.ofNat_toNat, BitVec.setWidth_eq] at hk

theorem bufBits_append (a b : List Byte) : bufBits (a ++ b) = bufBits a ++ bufBits b := List.flatMap_append

theorem crc8Bits_snoc (buf : List Byte) (b : Byte) :
    u8CRC8Table[(crc8Bits buf ^^^ b).toNat]? = some (crc8Bits (buf ++ [b])) := by
  have hbits : bufBits [b] = Crc.wordBits b.toBitVec := List.append_nil _
  rw [table_steps, crc8Bits, crc8Bits, bufBits_append, Crc.crcBits_append, hbits, Crc.crcBits_word]
  rfl

theorem crc8Buf_bits {data : List Byte} (h : data.length < 2 ^ 31) :
    crc8Buf data data.length = some (crc8Bits data) := by
  have hmax : 0 + data.length ≤ intMax := by
    unfold intMax
    omega
  obtain ⟨crc8, hrun, hcrc⟩ := forInt_invariant (fun i crc8 => do
    let b ← data[i]?
    u8CRC8Table[(crc8 ^^^ b).toNat]?) (fun i crc8 => crc8 = crc8Bits (data.take i)) 0 data.length hmax rfl (by
      rintro j crc8 - hlt rfl
      rw [Nat.zero_add] at hlt
      refine ⟨_, ?_, rfl⟩
      rw [List.getElem?_eq_getElem hlt, Option.bind_eq_bind, Option.bind_some, crc8Bits_snoc,
        List.take_append_getElem hlt])
  rw [Nat.zero_add, List.take_length] at hcrc
  rw [← hcrc]
  exact hrun

/-! ## What follows for the bits -/

theorem bufBits_zeros (n : Nat) : bufBits (List.replicate n 0) = List.replicate (8 * n) false := by
  induction n with
  | zero => rfl
  | succ n ih =>
    have hzero : Crc.wordBits (0 : Byte).toBitVec = List.replicate 8 false := rfl
    rw [List.replicate_succ, bufBits, List.flatMap_cons, hzero, Nat.mul_succ, Nat.add_comm, List.replicate_add]
    exact congrArg _ ih

theorem crc8Bits_zeros (n : Nat) (buf : List Byte) : crc8Bits (List.replicate n 0 ++ buf) = crc8Bits buf := by
  rw [crc8Bits, bufBits_append, Crc.crcBits_append, bufBits_zeros, Crc.crcBits_zeros]
  rfl

theorem bufBits_length (buf : List Byte) : (bufBits buf).length = 8 * buf.length := by
  induction buf with
  | nil => rfl
  | cons b buf ih =>
    rw [bufBits, List.flatMap_cons, List.length_append, Crc.wordBits_length, List.length_cons]
    have htail : (buf.flatMap fun b => Crc.wordBits b.toBitVec).length = 8 * buf.length := ih
    omega

theorem wordBits_xor (x y : Byte) :
    Crc.wordBits (x ^^^ y).toBitVec = List.zipWith xor (Crc.wordBits x.toBitVec) (Crc.wordBits y.toBitVec) := by
  apply List.ext_getElem
  · simp
  · intro i h1 h2
    simp [Crc.wordBits]

theorem bufBits_xor : ∀ {a b : List Byte}, a.length = b.length →
    bufBits (List.zipWith (· ^^^ ·) a b) = List.zipWith xor (bufBits a) (bufBits b) := by
  intro a
  induction a with
  | nil => intro b _; rfl
  | cons x a ih =>
    intro b hlen
    obtain ⟨y, b, rfl⟩ := List.exists_cons_of_length_pos (by rw [← hlen, List.length_cons]; omega)
    have hrest := ih (b := b) (by simpa using hlen)
    rw [List.zipWith_cons_cons, bufBits, bufBits, bufBits, List.flatMap_cons, List.flatMap_cons, List.flatMap_cons,
      List.zipWith_append (by rw [Crc.wordBits_length, Crc.wordBits_length]), wordBits_xor]
    exact congrArg _ hrest

theorem crc8Bits_xor {a b : List Byte} (h : a.length = b.length) :
    crc8Bits (List.zipWith (· ^^^ ·) a b) = crc8Bits a ^^^ crc8Bits b := by
  have hlen : (bufBits a).length = (bufBits b).length := by rw [bufBits_length, bufBits_length, h]
  have hlin := Crc.crcBits_xor low 0#8 0#8 hlen
  rw [BitVec.xor_zero] at hlin
  rw [crc8Bits, bufBits_xor h, hlin]
  rfl

/-! ## The remainder -/

section Remainder

open Polynomial

theorem generator_low : Crc.generator low = X ^ 8 + X ^ 2 + X + 1 := by
  have hlow : Crc.toPoly low = X ^ 2 + X + 1 := by
    have hbits : ∀ i, Crc.bit (low.getLsbD i) = if i < 3 then 1 else 0 := by
      intro i
      by_cases hi : i < 8
      · revert i
        decide
      · rw [BitVec.getLsbD_of_ge low i (by omega), if_neg (by omega)]
        rfl
    ext i
    rw [Crc.toPoly_coeff, hbits]
    simp only [coeff_add, coeff_X_pow, coeff_X, coeff_one]
    rcases i with _ | _ | _ | i <;> simp
  rw [Crc.generator, hlow, ← add_assoc, ← add_assoc]

/-- The buffer as a polynomial, times `X ^ 8`, leaves its check. -/
theorem crc8Buf_remainder {data : List Byte} (h : data.length < 2 ^ 31) :
    ∃ crc8, crc8Buf data data.length = some crc8 ∧
      Crc.toPoly crc8.toBitVec = (Crc.message (bufBits data) * X ^ 8) %ₘ (X ^ 8 + X ^ 2 + X + 1) := by
  refine ⟨_, crc8Buf_bits h, ?_⟩
  rw [← generator_low]
  exact Crc.crcBits_mod low (bufBits data)

end Remainder

/-- **The check of a buffer.** The table computes the CRC-8 bit by bit; zeros in front of a buffer do not
count, and the checks of two buffers add up. -/
theorem crc8Buf_exact {data : List Byte} (h : data.length < 2 ^ 31) :
    crc8Buf data data.length = some (crc8Bits data) ∧
    (∀ n, n + data.length < 2 ^ 31 →
      crc8Buf (List.replicate n 0 ++ data) (n + data.length) = crc8Buf data data.length) ∧
    ∀ data' : List Byte, data'.length = data.length →
      crc8Buf (List.zipWith (· ^^^ ·) data data') data.length =
        (crc8Buf data data.length).bind fun x => (crc8Buf data' data.length).map fun y => x ^^^ y := by
  refine ⟨crc8Buf_bits h, fun n hn => ?_, fun data' hlen => ?_⟩
  · have hall : (List.replicate n (0 : Byte) ++ data).length = n + data.length := by
      rw [List.length_append, List.length_replicate]
    have hrun := crc8Buf_bits (hall ▸ hn : (List.replicate n (0 : Byte) ++ data).length < 2 ^ 31)
    rw [hall, crc8Bits_zeros] at hrun
    rw [hrun, crc8Buf_bits h]
  · have hzip : (List.zipWith (· ^^^ ·) data data').length = data.length := by
      rw [List.length_zipWith, hlen, Nat.min_self]
    have hrun := crc8Buf_bits (hzip ▸ h : (List.zipWith (· ^^^ ·) data data').length < 2 ^ 31)
    have hother := crc8Buf_bits (hlen ▸ h : data'.length < 2 ^ 31)
    rw [hzip, crc8Bits_xor hlen.symm] at hrun
    rw [hlen] at hother
    rw [hrun, crc8Buf_bits h, hother]
    rfl

theorem crc8Buf_exact_digits : crc8Buf ['1'.toUInt8, '2'.toUInt8] 2 = some (crc8Bits ['1'.toUInt8, '2'.toUInt8]) :=
  (crc8Buf_exact (by simp : ['1'.toUInt8, '2'.toUInt8].length < 2 ^ 31)).1

end Xcrc8
end Xlibc
