import Xlibc.Base.CrcLow
import Xlibc.Base.Stdio
import Xlibc.Xfile.Read

/-!
# Xlibc.Xcrc32.Table

`crc32_buf`, a byte at a time from its table and with what was accumulated before, and `crc32_file`.

* `crcTable_steps` : an entry is eight steps of its index.
* `crc32Buf_append` : a buffer more.
* `crc32_pieces` : a text in any pieces, and its remainder.
* `crc32_burst` : errors within 32 bits in a row are noticed.
* `crc32_file_digest` : a file in any reads.
-/

namespace Xlibc
namespace Xcrc32

open Xfile (sizeT)

/-! ## The code -/

def crcTable : List Nat :=
  [ 0x00000000, 0x77073096, 0xEE0E612C, 0x990951BA, 0x076DC419, 0x706AF48F, 0xE963A535, 0x9E6495A3,
    0x0EDB8832, 0x79DCB8A4, 0xE0D5E91E, 0x97D2D988, 0x09B64C2B, 0x7EB17CBD, 0xE7B82D07, 0x90BF1D91,
    0x1DB71064, 0x6AB020F2, 0xF3B97148, 0x84BE41DE, 0x1ADAD47D, 0x6DDDE4EB, 0xF4D4B551, 0x83D385C7,
    0x136C9856, 0x646BA8C0, 0xFD62F97A, 0x8A65C9EC, 0x14015C4F, 0x63066CD9, 0xFA0F3D63, 0x8D080DF5,
    0x3B6E20C8, 0x4C69105E, 0xD56041E4, 0xA2677172, 0x3C03E4D1, 0x4B04D447, 0xD20D85FD, 0xA50AB56B,
    0x35B5A8FA, 0x42B2986C, 0xDBBBC9D6, 0xACBCF940, 0x32D86CE3, 0x45DF5C75, 0xDCD60DCF, 0xABD13D59,
    0x26D930AC, 0x51DE003A, 0xC8D75180, 0xBFD06116, 0x21B4F4B5, 0x56B3C423, 0xCFBA9599, 0xB8BDA50F,
    0x2802B89E, 0x5F058808, 0xC60CD9B2, 0xB10BE924, 0x2F6F7C87, 0x58684C11, 0xC1611DAB, 0xB6662D3D,
    0x76DC4190, 0x01DB7106, 0x98D220BC, 0xEFD5102A, 0x71B18589, 0x06B6B51F, 0x9FBFE4A5, 0xE8B8D433,
    0x7807C9A2, 0x0F00F934, 0x9609A88E, 0xE10E9818, 0x7F6A0DBB, 0x086D3D2D, 0x91646C97, 0xE6635C01,
    0x6B6B51F4, 0x1C6C6162, 0x856530D8, 0xF262004E, 0x6C0695ED, 0x1B01A57B, 0x8208F4C1, 0xF50FC457,
    0x65B0D9C6, 0x12B7E950, 0x8BBEB8EA, 0xFCB9887C, 0x62DD1DDF, 0x15DA2D49, 0x8CD37CF3, 0xFBD44C65,
    0x4DB26158, 0x3AB551CE, 0xA3BC0074, 0xD4BB30E2, 0x4ADFA541, 0x3DD895D7, 0xA4D1C46D, 0xD3D6F4FB,
    0x4369E96A, 0x346ED9FC, 0xAD678846, 0xDA60B8D0, 0x44042D73, 0x33031DE5, 0xAA0A4C5F, 0xDD0D7CC9,
    0x5005713C, 0x270241AA, 0xBE0B1010, 0xC90C2086, 0x5768B525, 0x206F85B3, 0xB966D409, 0xCE61E49F,
    0x5EDEF90E, 0x29D9C998, 0xB0D09822, 0xC7D7A8B4, 0x59B33D17, 0x2EB40D81, 0xB7BD5C3B, 0xC0BA6CAD,
    0xEDB88320, 0x9ABFB3B6, 0x03B6E20C, 0x74B1D29A, 0xEAD54739, 0x9DD277AF, 0x04DB2615, 0x73DC1683,
    0xE3630B12, 0x94643B84, 0x0D6D6A3E, 0x7A6A5AA8, 0xE40ECF0B, 0x9309FF9D, 0x0A00AE27, 0x7D079EB1,
    0xF00F9344, 0x8708A3D2, 0x1E01F268, 0x6906C2FE, 0xF762575D, 0x806567CB, 0x196C3671, 0x6E6B06E7,
    0xFED41B76, 0x89D32BE0, 0x10DA7A5A, 0x67DD4ACC, 0xF9B9DF6F, 0x8EBEEFF9, 0x17B7BE43, 0x60B08ED5,
    0xD6D6A3E8, 0xA1D1937E, 0x38D8C2C4, 0x4FDFF252, 0xD1BB67F1, 0xA6BC5767, 0x3FB506DD, 0x48B2364B,
    0xD80D2BDA, 0xAF0A1B4C, 0x36034AF6, 0x41047A60, 0xDF60EFC3, 0xA867DF55, 0x316E8EEF, 0x4669BE79,
    0xCB61B38C, 0xBC66831A, 0x256FD2A0, 0x5268E236, 0xCC0C7795, 0xBB0B4703, 0x220216B9, 0x5505262F,
    0xC5BA3BBE, 0xB2BD0B28, 0x2BB45A92, 0x5CB36A04, 0xC2D7FFA7, 0xB5D0CF31, 0x2CD99E8B, 0x5BDEAE1D,
    0x9B64C2B0, 0xEC63F226, 0x756AA39C, 0x026D930A, 0x9C0906A9, 0xEB0E363F, 0x72076785, 0x05005713,
    0x95BF4A82, 0xE2B87A14, 0x7BB12BAE, 0x0CB61B38, 0x92D28E9B, 0xE5D5BE0D, 0x7CDCEFB7, 0x0BDBDF21,
    0x86D3D2D4, 0xF1D4E242, 0x68DDB3F8, 0x1FDA836E, 0x81BE16CD, 0xF6B9265B, 0x6FB077E1, 0x18B74777,
    0x88085AE6, 0xFF0F6A70, 0x66063BCA, 0x11010B5C, 0x8F659EFF, 0xF862AE69, 0x616BFFD3, 0x166CCF45,
    0xA00AE278, 0xD70DD2EE, 0x4E048354, 0x3903B3C2, 0xA7672661, 0xD06016F7, 0x4969474D, 0x3E6E77DB,
    0xAED16A4A, 0xD9D65ADC, 0x40DF0B66, 0x37D83BF0, 0xA9BCAE53, 0xDEBB9EC5, 0x47B2CF7F, 0x30B5FFE9,
    0xBDBDF21C, 0xCABAC28A, 0x53B39330, 0x24B4A3A6, 0xBAD03605, 0xCDD70693, 0x54DE5729, 0x23D967BF,
    0xB3667A2E, 0xC4614AB8, 0x5D681B02, 0x2A6F2B94, 0xB40BBE37, 0xC30C8EA1, 0x5A05DF1B, 0x2D02EF8D ]

/-- `for (i=0; i < buf_len; i++)`, with `left` bytes left. -/
def crcLoop (byteBuf : List Byte) : Nat → Nat → Nat → Option Nat
  | _, 0, crc32 => some crc32
  | i, left + 1, crc32 => do
    let b ← byteBuf[i]?
    let entry ← crcTable[(crc32 ^^^ b.toNat) &&& 0xFF]?
    crcLoop byteBuf (i + 1) left ((crc32 >>> 8) ^^^ entry)

section Code

-- the bits of a `size_t`, which `buf_len` is compared with
variable (w : Nat)

def crc32Buf (incrc32 : Nat) (buf : List Byte) (bufLen : Int) : Option Nat := do
  let crc32 ← crcLoop buf 0 (sizeT w bufLen) (incrc32 ^^^ 0xFFFFFFFF)
  some (crc32 ^^^ 0xFFFFFFFF)

/-- The loop of `crc32_file`: the result, `*outcrc32`, and the events that no read has come upon. -/
def fileLoop (buf : List Byte) (file : FILE) (outcrc32 : Nat) : List Fread → Option (Int × Nat × List Fread)
  | [] => none
  | event :: schedule => do
    let (got, file) := fread file 8192 event
    let buf ← storeBytes buf 0 got
    if got.length = 0 then
      if file.ferror then some (-1, outcrc32, schedule) else some (0, outcrc32, schedule)
    else do
      let outcrc32 ← crc32Buf w outcrc32 buf got.length
      fileLoop buf file outcrc32 schedule

/-- `buf` is what the buffer holds at first. -/
def crc32File (buf : List Byte) (file : FILE) (schedule : List Fread) : Option (Int × Nat × List Fread) :=
  fileLoop w buf file 0 schedule

end Code

/-! ## The check -/

/-- `X ^ 26 + .. + 1`, below `X ^ 32`. -/
def low : BitVec 32 := 0x04C11DB7#32

/-- The same, the lowest bit first. -/
def reflected : BitVec 32 := 0xEDB88320#32

theorem reverse_reflected : reflected.reverse = low := by decide +kernel

/-- The bits of a buffer, each byte with its lowest bit first. -/
def bufBits (buf : List Byte) : List Bool := buf.flatMap fun b => Crc.lowBits b.toBitVec 8

/-- The CRC-32 of a buffer, bit by bit. -/
def crc32 (buf : List Byte) : BitVec 32 := ~~~ Crc.crcOut reflected (BitVec.allOnes 32) (bufBits buf)

theorem crcTable_steps : ∀ n < 256,
    crcTable[n]? = some (Crc.crcOut reflected (BitVec.ofNat 32 n) (List.replicate 8 false)).toNat := by
  decide +kernel

theorem bufBits_append (a b : List Byte) : bufBits (a ++ b) = bufBits a ++ bufBits b := List.flatMap_append

theorem bufBits_cons (b : Byte) (buf : List Byte) : bufBits (b :: buf) = Crc.lowBits b.toBitVec 8 ++ bufBits buf := rfl

theorem bufBits_length (buf : List Byte) : (bufBits buf).length = 8 * buf.length := by
  induction buf with
  | nil => rfl
  | cons b buf ih =>
    rw [bufBits_cons, List.length_append, Crc.lowBits_length, ih, List.length_cons]
    omega

theorem and_byte (n : Nat) : n &&& 0xFF = n % 2 ^ 8 := Nat.and_two_pow_sub_one_eq_mod n 8

/-- One byte, by the table. -/
theorem crcTable_byte (r : BitVec 32) (b : Byte) : ∃ entry, crcTable[(r.toNat ^^^ b.toNat) &&& 0xFF]? = some entry ∧
    (r.toNat >>> 8) ^^^ entry = (Crc.crcOut reflected r (Crc.lowBits b.toBitVec 8)).toNat := by
  let k := (r.toNat ^^^ b.toNat) &&& 0xFF
  have hk : k < 256 := by
    rw [show k = _ from and_byte _]
    omega
  have hlow : ∀ i < 8, ((Crc.lowBits b.toBitVec 8).getD i false ^^ r.getLsbD i) = (BitVec.ofNat 32 k).getLsbD i := by
    intro i hi
    have hget : (Crc.lowBits b.toBitVec 8).getD i false = b.toBitVec.getLsbD i := by
      rw [List.getD_eq_getElem _ _ (by rw [Crc.lowBits_length]; exact hi)]
      simp [Crc.lowBits]
    have hbit : k.testBit i = (r.toNat.testBit i ^^ b.toNat.testBit i) := by
      rw [show k = _ from and_byte _, Nat.testBit_mod_two_pow, decide_eq_true hi, Bool.true_and, Nat.testBit_xor]
    rw [hget, BitVec.getLsbD_ofNat, decide_eq_true (show i < 32 by omega), Bool.true_and, hbit, Bool.xor_comm]
    rfl
  have hhigh : BitVec.ofNat 32 k >>> 8 = 0#32 := by
    apply BitVec.eq_of_toNat_eq
    rw [BitVec.toNat_ushiftRight, BitVec.toNat_ofNat, Nat.mod_eq_of_lt (by omega), Nat.shiftRight_eq_div_pow]
    exact Nat.div_eq_of_lt hk
  refine ⟨_, crcTable_steps k hk, ?_⟩
  rw [Crc.crcOut_low reflected r (BitVec.ofNat 32 k) (Crc.lowBits_length _ _) hlow hhigh, BitVec.toNat_xor,
    BitVec.toNat_ushiftRight]

theorem crcLoop_bits : ∀ (data pre tail : List Byte) (r : BitVec 32),
    crcLoop (pre ++ data ++ tail) pre.length data.length r.toNat =
      some (Crc.crcOut reflected r (bufBits data)).toNat := by
  intro data
  induction data with
  | nil => exact fun _ _ _ => rfl
  | cons b data ih =>
    intro pre tail r
    obtain ⟨entry, hentry, hstep⟩ := crcTable_byte r b
    have hbyte : (pre ++ b :: data ++ tail)[pre.length]? = some b := by simp
    have hnext := ih (pre ++ [b]) tail (Crc.crcOut reflected r (Crc.lowBits b.toBitVec 8))
    rw [List.append_assoc pre, List.singleton_append, List.length_append, List.length_singleton] at hnext
    rw [List.length_cons, crcLoop, hbyte, Option.bind_eq_bind, Option.bind_some, hentry, Option.bind_eq_bind,
      Option.bind_some, hstep, hnext, bufBits_cons, Crc.crcOut_append]

theorem xor_ones (r : BitVec 32) : r.toNat ^^^ 0xFFFFFFFF = (~~~ r).toNat := by
  rw [← BitVec.xor_allOnes, BitVec.toNat_xor]
  rfl

/-- The first `n` bytes of a buffer, from any register. -/
theorem crc32Buf_bits {w : Nat} (hw : 31 ≤ w) (c : BitVec 32) {buf : List Byte} {n : Nat} (hn : n ≤ buf.length)
    (hint : n < 2 ^ 31) : crc32Buf w c.toNat buf n =
      some (~~~ Crc.crcOut reflected (~~~ c) (bufBits (buf.take n))).toNat := by
  have hlen : (buf.take n).length = n := List.length_take_of_le hn
  have hsize : sizeT w n = n := Xfile.sizeT_natCast (Nat.lt_of_lt_of_le hint (Nat.pow_le_pow_right (by omega) hw))
  have hloop := crcLoop_bits (buf.take n) [] (buf.drop n) (~~~ c)
  rw [List.nil_append, List.take_append_drop, hlen] at hloop
  rw [crc32Buf, hsize, xor_ones, ← List.length_nil (α := Byte), hloop, Option.bind_eq_bind, Option.bind_some,
    xor_ones]

/-- A buffer more. -/
theorem crc32Buf_append {w : Nat} (hw : 31 ≤ w) (text : List Byte) {buf : List Byte} {n : Nat} (hn : n ≤ buf.length)
    (hint : n < 2 ^ 31) : crc32Buf w (crc32 text).toNat buf n = some (crc32 (text ++ buf.take n)).toNat := by
  rw [crc32Buf_bits hw _ hn hint, crc32, crc32, BitVec.not_not, bufBits_append, Crc.crcOut_append]

/-! ## The remainder -/

section Remainder

open Polynomial

theorem generator_low :
    Crc.generator low = X ^ 32 + (X ^ 26 + X ^ 23 + X ^ 22 + X ^ 16 + X ^ 12 + X ^ 11 + X ^ 10 + X ^ 8 +
    X ^ 7 + X ^ 5 + X ^ 4 + X ^ 2 + X + 1) := by
  have hlow : Crc.toPoly low = X ^ 26 + X ^ 23 + X ^ 22 + X ^ 16 + X ^ 12 + X ^ 11 + X ^ 10 + X ^ 8 + X ^ 7 + X ^ 5 +
      X ^ 4 + X ^ 2 + X + 1 := by
    simp [Crc.toPoly, Finset.sum_range_succ, low, Crc.bit, ← X_pow_eq_monomial]
    ring
  rw [Crc.generator, hlow]

/-- The complement of a check, the other way round, is the remainder of the text behind 32 ones. -/
theorem crc32_remainder (text : List Byte) : Crc.toPoly (~~~ crc32 text).reverse =
    (Crc.toPoly (BitVec.allOnes 32) * X ^ (8 * text.length) + Crc.message (bufBits text) * X ^ 32) %ₘ
      (X ^ 32 + (X ^ 26 + X ^ 23 + X ^ 22 + X ^ 16 + X ^ 12 + X ^ 11 + X ^ 10 + X ^ 8 + X ^ 7 + X ^ 5 + X ^ 4 + X ^ 2 +
        X + 1)) := by
  have hones : (BitVec.allOnes 32).reverse = BitVec.allOnes 32 := by decide +kernel
  rw [crc32, BitVec.not_not, Crc.reverse_crcOut, reverse_reflected, hones, Crc.crcBits_mod_from, generator_low,
    bufBits_length]

end Remainder

/-- **A text in pieces.** The check that is accumulated over any pieces is that of the text they make, and its
complement the remainder of the text modulo the polynomial of CRC-32. -/
theorem crc32_pieces {w : Nat} (hw : 31 ≤ w) {pieces : List (List Byte)}
    (h : ∀ piece ∈ pieces, piece.length < 2 ^ 31) :
    ∃ crc : BitVec 32, pieces.foldlM (fun incrc32 piece => crc32Buf w incrc32 piece piece.length) 0 =
      some crc.toNat ∧
      Crc.toPoly (~~~ crc).reverse =
        (Crc.toPoly (BitVec.allOnes 32) * Polynomial.X ^ (8 * pieces.flatten.length) +
          Crc.message (bufBits pieces.flatten) * Polynomial.X ^ 32) %ₘ Crc.generator low := by
  have hrun : ∀ {pieces : List (List Byte)}, (∀ piece ∈ pieces, piece.length < 2 ^ 31) → ∀ text,
      pieces.foldlM (fun incrc32 piece => crc32Buf w incrc32 piece piece.length) (crc32 text).toNat =
        some (crc32 (text ++ pieces.flatten)).toNat := by
    intro pieces
    induction pieces with
    | nil => exact fun _ text => by rw [List.flatten_nil, List.append_nil]; rfl
    | cons piece pieces ih =>
      intro h text
      have hpiece := crc32Buf_append hw text (Nat.le_refl piece.length) (h piece List.mem_cons_self)
      rw [List.take_length] at hpiece
      rw [List.foldlM_cons, hpiece, Option.bind_eq_bind, Option.bind_some,
        ih (fun p hp => h p (List.mem_cons_of_mem _ hp)), List.flatten_cons, List.append_assoc]
  have hzero : (crc32 []).toNat = 0 := by decide +kernel
  have hall := hrun h []
  rw [hzero, List.nil_append] at hall
  exact ⟨crc32 pieces.flatten, hall, by rw [crc32_remainder, generator_low]⟩

/-- The text `123`, in two pieces. -/
theorem crc32_pieces_digits :
    ∃ crc : BitVec 32, [['1'.toUInt8], ['2'.toUInt8, '3'.toUInt8]].foldlM
        (fun incrc32 piece => crc32Buf 64 incrc32 piece piece.length) 0 = some crc.toNat ∧
      Crc.toPoly (~~~ crc).reverse =
        (Crc.toPoly (BitVec.allOnes 32) *
            Polynomial.X ^ (8 * [['1'.toUInt8], ['2'.toUInt8, '3'.toUInt8]].flatten.length) +
          Crc.message (bufBits [['1'.toUInt8], ['2'.toUInt8, '3'.toUInt8]].flatten) * Polynomial.X ^ 32) %ₘ
          Crc.generator low :=
  crc32_pieces (by omega) (by simp)

example : crc32Buf 64 0 ['1'.toUInt8, '2'.toUInt8, '3'.toUInt8] 3 = some 0x884863D2 := by decide +kernel

/-! ## Errors -/

theorem lowBits_byte_inj {a b : Byte} (h : Crc.lowBits a.toBitVec 8 = Crc.lowBits b.toBitVec 8) : a = b := by
  apply UInt8.eq_of_toBitVec_eq
  apply BitVec.eq_of_getLsbD_eq
  intro i hi
  have hbit := congrArg (fun bits => bits.getD i false) h
  simpa [Crc.lowBits, List.getD_eq_getElem?_getD, hi] using hbit

theorem bufBits_inj : ∀ {a b : List Byte}, bufBits a = bufBits b → a = b := by
  intro a
  induction a with
  | nil =>
    intro b h
    have hlen := congrArg List.length h
    rw [bufBits_length, bufBits_length, List.length_nil] at hlen
    exact (List.eq_nil_of_length_eq_zero (by omega)).symm
  | cons x a ih =>
    intro b h
    cases b with
    | nil =>
      have hlen := congrArg List.length h
      rw [bufBits_length, bufBits_length, List.length_nil, List.length_cons] at hlen
      omega
    | cons y b =>
      rw [bufBits_cons, bufBits_cons] at h
      obtain ⟨hbyte, hrest⟩ := List.append_inj h (by rw [Crc.lowBits_length, Crc.lowBits_length])
      rw [lowBits_byte_inj hbyte, ih hrest]

/-- **Errors in a row.** Whatever has been accumulated before, two buffers of one length that differ, but only
within 32 bits in a row, have different checks. -/
theorem crc32_burst {w : Nat} (hw : 31 ≤ w) (c : BitVec 32) {a b : List Byte} (hlen : a.length = b.length)
    (hint : a.length < 2 ^ 31) (hne : a ≠ b) {p : Nat}
    (hsame : ∀ i, i < p ∨ p + 32 ≤ i → (bufBits a)[i]? = (bufBits b)[i]?) :
    crc32Buf w c.toNat a a.length ≠ crc32Buf w c.toNat b b.length := by
  have hbits : (bufBits a).length = (bufBits b).length := by rw [bufBits_length, bufBits_length, hlen]
  obtain ⟨m, n, burst, hburst, htrue, herror⟩ := Crc.burst_split hbits (fun h => hne (bufBits_inj h)) hsame
  have hadd := Crc.crcOut_xor reflected (~~~ c) (~~~ c) hbits
  rw [BitVec.xor_self, herror] at hadd
  rw [crc32Buf_bits hw c (Nat.le_refl _) hint, crc32Buf_bits hw c (Nat.le_refl _) (hlen ▸ hint), List.take_length,
    List.take_length]
  intro heq
  have hcrc := BitVec.not_inj.mp (BitVec.eq_of_toNat_eq (Option.some.inj heq))
  rw [hcrc, BitVec.xor_self] at hadd
  have hzero := congrArg BitVec.reverse hadd
  have hrev : (0#32).reverse = 0#32 := by decide +kernel
  rw [Crc.reverse_crcOut, reverse_reflected, hrev] at hzero
  exact Crc.crcBits_burst (by decide +kernel : low.getLsbD 0 = true) hburst htrue m n hzero

/-- `a1` and `a2`, which differ in the first two bits of the second byte. -/
theorem crc32_burst_digit :
    crc32Buf 64 (0#32).toNat ['a'.toUInt8, '1'.toUInt8] (['a'.toUInt8, '1'.toUInt8] : List Byte).length ≠
      crc32Buf 64 (0#32).toNat ['a'.toUInt8, '2'.toUInt8] (['a'.toUInt8, '2'.toUInt8] : List Byte).length :=
  crc32_burst (w := 64) (by omega) 0#32 (a := ['a'.toUInt8, '1'.toUInt8])
    (b := ['a'.toUInt8, '2'.toUInt8]) rfl (by simp)
    (by decide) (p := 8) (by
      intro i hi
      rcases hi with hi | hi
      · revert i
        decide
      · rw [List.getElem?_eq_none (by rw [bufBits_length]; exact Nat.le_trans (by decide) hi),
          List.getElem?_eq_none (by rw [bufBits_length]; exact Nat.le_trans (by decide) hi)])

/-! ## Files -/

theorem fileLoop_digest {w : Nat} (hw : 31 ≤ w) {schedule : List Fread} : ∀ {buf : List Byte} (text : List Byte)
    (file : FILE), buf.length = 8192 → file.left.length < schedule.length → ∃ rest,
      fileLoop w buf file (crc32 text).toNat schedule = some (0, (crc32 (text ++ file.left)).toNat, rest) ∨
        (∃ outcrc32, fileLoop w buf file (crc32 text).toNat schedule = some (-1, outcrc32, rest)) ∧
          ∃ made, schedule = made ++ rest ∧ (file.ferror = true ∨ ∃ n, Fread.error n ∈ made) := by
  induction schedule with
  | nil =>
    intro _ _ _ _ h
    exact absurd h (Nat.not_lt_zero _)
  | cons event schedule ih =>
    intro buf text file hbuf hlen
    obtain ⟨hleft, hsize⟩ := fread_parts file 8192 event
    have herror := fread_ferror file 8192 event
    have hnothing := fread_nothing file event (show 0 < 8192 by omega)
    rw [fileLoop]
    generalize hread : fread file 8192 event = result at *
    obtain ⟨got, file1⟩ := result
    simp only at hleft hsize herror hnothing
    obtain ⟨buf1, hstore⟩ := storeBytes_some got (show 0 + got.length ≤ buf.length by omega)
    have hbuf1 := storeBytes_length hstore
    have htake := take_storeBytes hstore
    rw [Nat.zero_add, List.take_zero, List.nil_append] at htake
    have hferror1 (made : List Fread) (h : file1.ferror = true) :
        file.ferror = true ∨ ∃ n, Fread.error n ∈ event :: made :=
      (herror h).imp_right fun ⟨n, hn⟩ => ⟨n, by rw [hn]; exact List.mem_cons_self⟩
    simp only [hstore, Option.bind_eq_bind, Option.bind_some]
    by_cases hzero : got.length = 0
    · rw [if_pos hzero]
      refine ⟨schedule, ?_⟩
      cases hflag : file1.ferror with
      | true => exact .inr ⟨⟨_, rfl⟩, [event], rfl, hferror1 [] hflag⟩
      | false =>
        rw [hleft, List.length_eq_zero_iff.mp hzero, hnothing hzero hflag, List.append_nil, List.append_nil]
        exact .inl rfl
    · have happend := crc32Buf_append hw text (show got.length ≤ buf1.length by omega) (by omega)
      have hlen1 := congrArg List.length hleft
      rw [List.length_append] at hlen1
      rw [List.length_cons] at hlen
      rw [if_neg hzero, happend, Option.bind_some, htake, hleft, ← List.append_assoc]
      obtain ⟨rest, hrun⟩ := ih (text ++ got) file1 (show buf1.length = 8192 by omega) (by omega)
      refine ⟨rest, hrun.imp_right fun
        ⟨hfail, made, hmade, hbad⟩ => ⟨hfail, event :: made, by rw [hmade]; rfl, ?_⟩⟩
      rcases hbad with hflag | ⟨n, hn⟩
      · exact hferror1 made hflag
      · exact .inr ⟨n, List.mem_cons_of_mem _ hn⟩

/-- **Files in any reads.** However `fread` cuts the file up, `crc32_file` returns, with the check of the whole file,
or with -1 when one of the reads that it has made has failed. -/
theorem crc32_file_digest {w : Nat} (hw : 31 ≤ w) {buf : List Byte} (hbuf : buf.length = 8192) {contents : List Byte}
    {schedule : List Fread} (hlen : contents.length < schedule.length) : ∃ rest,
      crc32File w buf ⟨contents, false, false⟩ schedule = some (0, (crc32 contents).toNat, rest) ∨
        (∃ outcrc32, crc32File w buf ⟨contents, false, false⟩ schedule = some (-1, outcrc32, rest)) ∧
          ∃ made, schedule = made ++ rest ∧ ∃ n, Fread.error n ∈ made := by
  have hzero : (crc32 []).toNat = 0 := by decide +kernel
  obtain ⟨rest, hrun⟩ := fileLoop_digest hw [] ⟨contents, false, false⟩ hbuf hlen
  rw [hzero, List.nil_append] at hrun
  exact ⟨rest, hrun.imp_right fun
    ⟨hfail, made, hmade, hbad⟩ => ⟨hfail, made, hmade, hbad.resolve_left nofun⟩⟩

/-- Two digits in two reads, and a read at the end. -/
theorem crc32_file_digits : ∃ rest,
    crc32File 64 (List.replicate 8192 0) ⟨['1'.toUInt8, '2'.toUInt8], false, false⟩
      [.upTo 0 false, .upTo 0 false, .upTo 0 true] = some (0, (crc32 ['1'.toUInt8, '2'.toUInt8]).toNat, rest) := by
  obtain ⟨rest, hdone | ⟨-, made, hmade, n, hn⟩⟩ := @crc32_file_digest 64 (by omega) (List.replicate 8192 0)
    List.length_replicate ['1'.toUInt8, '2'.toUInt8] [.upTo 0 false, .upTo 0 false, .upTo 0 true] (by simp)
  · exact ⟨rest, hdone⟩
  · have hmem : Fread.error n ∈ made ++ rest := List.mem_append_left _ hn
    rw [← hmade] at hmem
    simp at hmem

end Xcrc32
end Xlibc
