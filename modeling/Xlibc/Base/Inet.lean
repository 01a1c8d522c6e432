import Xlibc.Base.Strtol

/-!
# Xlibc.Base.Inet

Byte orders, and IPv4 addresses as the C library reads and prints them.

* `wordOfBytes` : four bytes in memory as a number of the host.
* `htonl`, `ntohl` : host and network order. They undo each other and keep the bitwise operations.
* `inetAton` : one to four numbers with dots between them, decimal, octal or hexadecimal.
* `inetNtoa` : the dotted quad of an address, `inetAton_inetNtoa` reads it back.
-/

namespace Xlibc

inductive ByteOrder where
  | little
  | big

/-! ## Byte orders -/

/-- The number whose bytes in memory are these. -/
def wordOfBytes (e : ByteOrder) (b0 b1 b2 b3 : BitVec 8) : BitVec 32 :=
  match e with
  | .little => b3 ++ b2 ++ b1 ++ b0
  | .big => b0 ++ b1 ++ b2 ++ b3

/-- The bytes in the other order. -/
def bswap (x : BitVec 32) : BitVec 32 :=
  x.extractLsb' 0 8 ++ x.extractLsb' 8 8 ++ x.extractLsb' 16 8 ++ x.extractLsb' 24 8

def htonl (e : ByteOrder) (x : BitVec 32) : BitVec 32 :=
  match e with
  | .little => bswap x
  | .big => x

def ntohl (e : ByteOrder) (x : BitVec 32) : BitVec 32 := htonl e x

theorem getLsbD_bswap (x : BitVec 32) {i : Nat} (hi : i < 32) :
    (bswap x).getLsbD i = x.getLsbD (24 - i / 8 * 8 + i % 8) := by
  simp only [bswap, BitVec.getLsbD_append, BitVec.getLsbD_extractLsb']
  rcases (by omega : i < 8 ∨ (8 ≤ i ∧ i < 16) ∨ (16 ≤ i ∧ i < 24) ∨ 24 ≤ i) with h | h | h | h
  · rw [show 24 - i / 8 * 8 + i % 8 = 24 + i by omega]
    simp [h]
  · rw [show 24 - i / 8 * 8 + i % 8 = 16 + (i - 8) by omega]
    simp [show ¬ i < 8 by omega, show i - 8 < 8 by omega]
  · rw [show 24 - i / 8 * 8 + i % 8 = 8 + (i - 8 - 8) by omega]
    simp [show ¬ i < 8 by omega, show ¬ i - 8 < 8 by omega, show i - 8 - 8 < 8 by omega]
  · rw [show 24 - i / 8 * 8 + i % 8 = 0 + (i - 8 - 8 - 8) by omega]
    simp [show ¬ i < 8 by omega, show ¬ i - 8 < 8 by omega, show ¬ i - 8 - 8 < 8 by omega,
      show i - 8 - 8 - 8 < 8 by omega]

theorem bswap_and (x y : BitVec 32) : bswap (x &&& y) = bswap x &&& bswap y := by
  apply BitVec.eq_of_getLsbD_eq
  intro i hi
  rw [BitVec.getLsbD_and, getLsbD_bswap _ hi, getLsbD_bswap _ hi, getLsbD_bswap _ hi, BitVec.getLsbD_and]

theorem bswap_not (x : BitVec 32) : bswap (~~~ x) = ~~~ bswap x := by
  apply BitVec.eq_of_getLsbD_eq
  intro i hi
  have hplace : 24 - i / 8 * 8 + i % 8 < 32 := by omega
  rw [BitVec.getLsbD_not, getLsbD_bswap _ hi, getLsbD_bswap _ hi, BitVec.getLsbD_not, decide_eq_true hi,
    decide_eq_true hplace]

theorem bswap_bswap (x : BitVec 32) : bswap (bswap x) = x := by
  apply BitVec.eq_of_getLsbD_eq
  intro i hi
  rw [getLsbD_bswap _ hi, getLsbD_bswap _ (by omega)]
  congr 1
  omega

section Order

variable (e : ByteOrder) (x y : BitVec 32)

@[simp] theorem ntohl_htonl : ntohl e (htonl e x) = x := by
  cases e with
  | little => exact bswap_bswap x
  | big => rfl

@[simp] theorem htonl_ntohl : htonl e (ntohl e x) = x := ntohl_htonl e x

theorem htonl_and : htonl e (x &&& y) = htonl e x &&& htonl e y := by
  cases e with
  | little => exact bswap_and x y
  | big => rfl

theorem htonl_not : htonl e (~~~ x) = ~~~ htonl e x := by
  cases e with
  | little => exact bswap_not x
  | big => rfl

end Order

/-! ## Addresses -/

/-- One number of an address, which starts with a decimal digit and fits in 32 bits. -/
def inetPart (s : List Byte) : Option (Nat × List Byte) :=
  if s.head?.any (isDigit 10) then
    match scanNumber 0 s with
    | some (val, rest) => if val.toNat ≤ 0xffffffff then some (val.toNat, rest) else none
    | none => none
  else none

/-- A number, and `left` more at most. All but the last are bytes. -/
def inetParts : Nat → List Byte → Option (List Nat × List Byte)
  | 0, s => do
    let (val, rest) ← inetPart s
    if rest.head? = some '.'.toUInt8 then none else some ([val], rest)
  | left + 1, s => do
    let (val, rest) ← inetPart s
    if rest.head? = some '.'.toUInt8 then
      if val ≤ 0xff then do
        let (vals, rest) ← inetParts left rest.tail
        some (val :: vals, rest)
      else none
    else some ([val], rest)

/-- The last number fills the bytes that are left. -/
def inetWord : List Nat → Option (BitVec 32)
  | [v] => if v ≤ 0xffffffff then some (BitVec.ofNat 32 v) else none
  | [a, v] => if v ≤ 0xffffff then some (BitVec.ofNat 32 (a * 2 ^ 24 + v)) else none
  | [a, b, v] => if v ≤ 0xffff then some (BitVec.ofNat 32 (a * 2 ^ 24 + b * 2 ^ 16 + v)) else none
  | [a, b, c, v] =>
    if v ≤ 0xff then some (BitVec.ofNat 32 (a * 2 ^ 24 + b * 2 ^ 16 + c * 2 ^ 8 + v)) else none
  | _ => none

/-- `inet_aton`: the address in network order. Blanks may follow. -/
def inetAton (e : ByteOrder) (cp : List Byte) : Option (BitVec 32) := do
  let (vals, rest) ← inetParts 3 cp
  if rest.head?.all (fun c => c == 0 || isspace c) then do
    let addr ← inetWord vals
    some (htonl e addr)
  else none

/-- `"%d"` of a byte -/
def decimalByte (b : Byte) : List Byte := (Nat.toDigits 10 b.toNat).map Char.toUInt8

def dottedQuad (b0 b1 b2 b3 : Byte) : List Byte :=
  decimalByte b0 ++ '.'.toUInt8 :: (decimalByte b1 ++ '.'.toUInt8 :: (decimalByte b2 ++ '.'.toUInt8 ::
    decimalByte b3))

/-- `inet_ntoa` of an address in network order. -/
def inetNtoa (e : ByteOrder) (addr : BitVec 32) : List Byte :=
  dottedQuad ⟨(ntohl e addr).extractLsb' 24 8⟩ ⟨(ntohl e addr).extractLsb' 16 8⟩
    ⟨(ntohl e addr).extractLsb' 8 8⟩ ⟨(ntohl e addr).extractLsb' 0 8⟩

/-- The digits of a byte: a single zero, or no zero in front. -/
theorem decimalByte_digits (b : Byte) : ∃ c ds, decimalByte b = c :: ds ∧ isDigit 10 c = true ∧
    (∀ d ∈ ds, isDigit 10 d = true) ∧ number 10 0 (c :: ds) = b.toNat ∧ (c = '0'.toUInt8 → ds = []) := by
  have hall : ∀ b : Byte, ((decimalByte b).all (isDigit 10) = true ∧ decimalByte b ≠ []) ∧
      number 10 0 (decimalByte b) = b.toNat ∧
      ((decimalByte b).head? = some '0'.toUInt8 → (decimalByte b).tail = []) :=
    forall_byte (by decide +kernel)
  obtain ⟨⟨hdigits, hne⟩, hvalue, hzero⟩ := hall b
  obtain ⟨c, ds, heq⟩ := List.exists_cons_of_ne_nil hne
  rw [heq] at hdigits hvalue hzero
  rw [List.all_cons, Bool.and_eq_true] at hdigits
  exact ⟨c, ds, heq, hdigits.1, List.all_eq_true.mp hdigits.2, hvalue, fun hc => hzero (by rw [hc]; rfl)⟩

theorem scanNumber_base {base : Nat} (hbase : base ≤ 36) {c : Byte} {s : List Byte} (hc : isDigit base c = true)
    (htold : numberBase 0 (c :: s) = (base, c :: s)) (hplain : numberBase base (c :: s) = (base, c :: s)) :
    scanNumber 0 (c :: s) = scanNumber base (c :: s) := by
  have hsign := numberSign_digit (.inl ⟨rfl, rfl⟩) hbase hc s
  rw [List.nil_append] at hsign
  simp only [scanNumber, hsign, htold, hplain]

/-- There is no prefix where no `x` follows a first zero. -/
theorem skip0x_none {c : Byte} {s : List Byte}
    (h : c = '0'.toUInt8 → s.head? ≠ some 'x'.toUInt8 ∧ s.head? ≠ some 'X'.toUInt8) :
      skip0x (c :: s) = c :: s := by
  rcases s with _ | ⟨x, _ | ⟨d, s⟩⟩
  · rfl
  · rfl
  · rw [skip0x, if_neg]
    rintro ⟨hc, hx, -⟩
    obtain ⟨hlow, hup⟩ := h hc
    rcases hx with rfl | rfl
    · exact hlow rfl
    · exact hup rfl

/-- What may follow a number in a dotted quad. -/
def Stops (rest : List Byte) : Prop := rest = [] ∨ rest.head? = some '.'.toUInt8

theorem Stops.head {rest : List Byte} (h : Stops rest) {base : Nat} (hbase : base ≤ 36) :
    (∀ c ∈ rest.head?, isDigit base c = false) ∧ rest.head? ≠ some 'x'.toUInt8 ∧
      rest.head? ≠ some 'X'.toUInt8 := by
  rcases h with rfl | h
  · exact ⟨fun c hc => (by cases hc), nofun, nofun⟩
  · rw [h]
    refine ⟨fun c hc => ?_, by decide, by decide⟩
    cases hc
    rw [isDigit, digitValue, if_neg]
    · rfl
    · exact fun hlt => absurd (Nat.lt_of_lt_of_le hlt hbase) (by decide)

theorem scanNumber_decimal (b : Byte) {rest : List Byte} (h : Stops rest) :
    scanNumber 0 (decimalByte b ++ rest) = some ((b.toNat : Int), rest) := by
  obtain ⟨c, ds, heq, hc, hds, hvalue, hzero⟩ := decimalByte_digits b
  rw [heq]
  by_cases h0 : c = '0'.toUInt8
  · -- a zero is an octal number
    obtain rfl := hzero h0
    subst h0
    obtain ⟨hstop, hx, hX⟩ := h.head (show 8 ≤ 36 by omega)
    have hskip : skip0x ('0'.toUInt8 :: rest) = '0'.toUInt8 :: rest := skip0x_none fun _ => ⟨hx, hX⟩
    have htold : numberBase 0 ('0'.toUInt8 :: rest) = (8, '0'.toUInt8 :: rest) := by
      simp [numberBase, hskip]
    have hscan := scanNumber_digits (.inl ⟨rfl, rfl⟩) (show 8 ≤ 36 by omega) (List.cons_ne_nil '0'.toUInt8 [])
      (fun d hd => by rw [List.mem_singleton.mp hd]; rfl) hstop rfl
    rw [List.singleton_append, scanNumber_base (by omega) rfl htold rfl]
    rw [← hvalue]
    exact hscan
  · obtain ⟨hstop, -, -⟩ := h.head (show 10 ≤ 36 by omega)
    have hskip : skip0x (c :: (ds ++ rest)) = c :: (ds ++ rest) := skip0x_none fun hc => absurd hc h0
    have htold : numberBase 0 (c :: (ds ++ rest)) = (10, c :: (ds ++ rest)) := by
      simp [numberBase, hskip, h0]
    have hscan := scanNumber_digits (.inl ⟨rfl, rfl⟩) (show 10 ≤ 36 by omega) (List.cons_ne_nil c ds)
      (fun d hd => by
        rcases List.mem_cons.mp hd with rfl | hd
        · exact hc
        · exact hds d hd) hstop rfl
    rw [List.cons_append, scanNumber_base (by omega) hc htold rfl, ← hvalue]
    exact hscan

theorem inetPart_decimal (b : Byte) {rest : List Byte} (h : Stops rest) :
    inetPart (decimalByte b ++ rest) = some (b.toNat, rest) := by
  have hscan := scanNumber_decimal b h
  obtain ⟨c, ds, heq, hc, -⟩ := decimalByte_digits b
  have hlt := b.toNat_lt
  have hhead : (decimalByte b ++ rest).head?.any (isDigit 10) = true := by
    rw [heq]
    exact hc
  rw [inetPart, if_pos hhead, hscan]
  exact if_pos (by rw [Int.toNat_natCast]; omega)

theorem inetParts_dot (left : Nat) (b : Byte) {s rest : List Byte} {vals : List Nat}
    (h : inetParts left s = some (vals, rest)) :
    inetParts (left + 1) (decimalByte b ++ '.'.toUInt8 :: s) = some (b.toNat :: vals, rest) := by
  have hlt := b.toNat_lt
  rw [inetParts, inetPart_decimal b (.inr rfl), Option.bind_eq_bind, Option.bind_some]
  show (if some '.'.toUInt8 = some '.'.toUInt8 then _ else _) = _
  rw [if_pos rfl, if_pos (by omega : b.toNat ≤ 0xff), List.tail_cons, h]
  rfl

theorem inetParts_last (b : Byte) : inetParts 0 (decimalByte b) = some ([b.toNat], []) := by
  have hpart := inetPart_decimal b (.inl rfl)
  rw [List.append_nil] at hpart
  rw [inetParts, hpart]
  rfl

theorem toNat_append {m n : Nat} (x : BitVec m) (y : BitVec n) : (x ++ y).toNat = x.toNat * 2 ^ n + y.toNat := by
  rw [BitVec.toNat_append, ← Nat.shiftLeft_add_eq_or_of_lt y.isLt, Nat.shiftLeft_eq]

theorem inetAton_dottedQuad (e : ByteOrder) (b0 b1 b2 b3 : Byte) :
    inetAton e (dottedQuad b0 b1 b2 b3) =
      some (htonl e (b0.toBitVec ++ b1.toBitVec ++ b2.toBitVec ++ b3.toBitVec)) := by
  have hparts := inetParts_dot 2 b0 (inetParts_dot 1 b1 (inetParts_dot 0 b2 (inetParts_last b3)))
  have hlt := b3.toNat_lt
  have hword : inetWord [b0.toNat, b1.toNat, b2.toNat, b3.toNat] =
      some (b0.toBitVec ++ b1.toBitVec ++ b2.toBitVec ++ b3.toBitVec) := by
    rw [inetWord, if_pos (by omega)]
    congr 1
    apply BitVec.eq_of_toNat_eq
    rw [BitVec.toNat_ofNat, toNat_append, toNat_append, toNat_append]
    have h0 := b0.toNat_lt
    have h1 := b1.toNat_lt
    have h2 := b2.toNat_lt
    simp only [UInt8.toNat_toBitVec]
    omega
  rw [inetAton, dottedQuad, hparts, Option.bind_eq_bind, Option.bind_some]
  show (if true = true then (inetWord [b0.toNat, b1.toNat, b2.toNat, b3.toNat]).bind _ else _) = _
  rw [if_pos rfl, hword]
  rfl

theorem word_bytes (x : BitVec 32) :
    x.extractLsb' 24 8 ++ x.extractLsb' 16 8 ++ x.extractLsb' 8 8 ++ x.extractLsb' 0 8 = x := by
  apply BitVec.eq_of_toNat_eq
  rw [toNat_append, toNat_append, toNat_append]
  simp only [BitVec.extractLsb'_toNat, Nat.shiftRight_eq_div_pow]
  have hlt := x.isLt
  omega

theorem inetAton_inetNtoa (e : ByteOrder) (addr : BitVec 32) : inetAton e (inetNtoa e addr) = some addr := by
  rw [inetNtoa, inetAton_dottedQuad, word_bytes, htonl_ntohl]

/-- A dotted quad is what is printed of its address. -/
theorem inetNtoa_dottedQuad (e : ByteOrder) (b0 b1 b2 b3 : Byte) :
    inetNtoa e (htonl e (b0.toBitVec ++ b1.toBitVec ++ b2.toBitVec ++ b3.toBitVec)) = dottedQuad b0 b1 b2 b3 := by
  have hbytes : ∀ x : BitVec 32, x = b0.toBitVec ++ b1.toBitVec ++ b2.toBitVec ++ b3.toBitVec →
      x.extractLsb' 24 8 = b0.toBitVec ∧ x.extractLsb' 16 8 = b1.toBitVec ∧ x.extractLsb' 8 8 = b2.toBitVec ∧
      x.extractLsb' 0 8 = b3.toBitVec := by
    rintro x rfl
    have h0 := b0.toBitVec.isLt
    have h1 := b1.toBitVec.isLt
    have h2 := b2.toBitVec.isLt
    have h3 := b3.toBitVec.isLt
    refine ⟨?_, ?_, ?_, ?_⟩
    all_goals
      apply BitVec.eq_of_toNat_eq
      rw [BitVec.extractLsb'_toNat, Nat.shiftRight_eq_div_pow, toNat_append, toNat_append, toNat_append]
      omega
  obtain ⟨h0, h1, h2, h3⟩ := hbytes _ rfl
  rw [inetNtoa, ntohl_htonl, h0, h1, h2, h3]

end Xlibc
