import Xlibc.Base64.Codec

/-!
# Xlibc.Base64.RoundTrip

What `base64_encode` writes, what `base64_decode` makes of it, and how many bytes a text decodes to.

* `base64Encode_eq` : the encoder, into a target that is large enough.
* `decodeText_encodeText` : the way back.
* `decodeText_length` : the number of bytes, from the digits of the text.
* `accepted_iff` : the texts that are accepted.
-/

namespace Xlibc
namespace Base64

/-! ## Encoding -/

/-- The digits of some bytes, and the pads behind them. -/
def encodeText : List Byte → List Byte
  | a :: b :: c :: src =>
    [base64At (output0 a), base64At (output1 a b), base64At (output2 b c), base64At (output3 c)] ++
      encodeText src
  | [a, b] => [base64At (output0 a), base64At (output1 a b), base64At (output2 b 0), pad64]
  | [a] => [base64At (output0 a), base64At (output1 a 0), pad64, pad64]
  | [] => []

theorem encodeText_length (src : List Byte) :
    (encodeText src).length = (src.length / 3 + if src.length % 3 ≠ 0 then 1 else 0) * 4 := by
  induction src using encodeText.induct with
  | case1 a b c src ih =>
    have hdiv : (src.length + 3) / 3 = src.length / 3 + 1 := by omega
    have hmod : (src.length + 3) % 3 = src.length % 3 := by omega
    rw [encodeText, List.length_append, ih]
    simp only [List.length_cons, List.length_nil, hdiv, hmod]
    omega
  | case2 a b => simp [encodeText]
  | case3 a => simp [encodeText]
  | case4 => rfl

theorem putQuad_eq (acc : List Byte) {rest quad : List Byte} (hquad : quad.length = 4)
    (h : 4 ≤ rest.length) : putQuad (acc ++ rest) acc.length quad = some (acc ++ quad ++ rest.drop 4) := by
  rw [putQuad, if_neg (by rw [List.length_append]; omega), storeBytes_append (by omega), hquad]

/-- The loop of the encoder, behind what has been written. -/
theorem encodeLoop_eq (src : List Byte) {acc rest : List Byte} (h : (encodeText src).length ≤ rest.length) :
    encodeLoop src (acc ++ rest) acc.length =
      some (acc ++ encodeText src ++ rest.drop (encodeText src).length, (acc ++ encodeText src).length) := by
  induction src using encodeText.induct generalizing acc rest with
  | case1 a b c src ih =>
    obtain ⟨quad, hquad⟩ : ∃ quad, [base64At (output0 a), base64At (output1 a b), base64At (output2 b c),
      base64At (output3 c)] = quad := ⟨_, rfl⟩
    have hlen : quad.length = 4 := by
      rw [← hquad]
      rfl
    have hnext : (acc ++ quad).length = acc.length + 4 := by
      rw [List.length_append, hlen]
    rw [encodeText, hquad, List.length_append, hlen] at h
    have hroom : (encodeText src).length ≤ (rest.drop 4).length := by
      rw [List.length_drop]
      omega
    rw [encodeLoop, encodeText, hquad, putQuad_eq acc hlen (by omega), Option.bind_eq_bind, Option.bind_some,
      ← hnext, ih hroom, List.drop_drop]
    simp only [List.append_assoc, List.length_append, hlen]
  | case2 a b =>
    have hlen : (encodeText [a, b]).length = 4 := by simp [encodeText]
    have htail : encodeLoop [a, b] (acc ++ rest) acc.length = (putQuad (acc ++ rest) acc.length
        (encodeText [a, b])).map fun target => (target, acc.length + 4) := by
      simp [encodeLoop, encodeTail, encodeText]
    rw [htail, putQuad_eq acc hlen (by omega), Option.map_some, List.length_append, hlen]
  | case3 a =>
    have hlen : (encodeText [a]).length = 4 := by simp [encodeText]
    have htail : encodeLoop [a] (acc ++ rest) acc.length = (putQuad (acc ++ rest) acc.length
        (encodeText [a])).map fun target => (target, acc.length + 4) := by
      simp [encodeLoop, encodeTail, encodeText]
    rw [htail, putQuad_eq acc hlen (by omega), Option.map_some, List.length_append, hlen]
  | case4 => simp [encodeLoop, encodeTail, encodeText]

/-- `base64_encode`, into a target that holds the text and a zero. -/
theorem base64Encode_eq {src target : List Byte} (h : target.length = (encodeText src).length + 1) :
    base64Encode src target = some (i32OfNat (encodeText src).length, encodeText src ++ [0]) := by
  have hloop := @encodeLoop_eq src [] target (by omega)
  obtain ⟨b, hb⟩ : ∃ b, target.drop (encodeText src).length = [b] := by
    apply List.length_eq_one_iff.mp
    rw [List.length_drop]
    omega
  rw [List.nil_append, List.nil_append, List.length_nil, hb] at hloop
  have hlen : (encodeText src ++ [b]).length = (encodeText src).length + 1 := List.length_append
  rw [base64Encode, hloop, Option.bind_eq_bind, Option.bind_some]
  dsimp only
  rw [if_neg (by omega), storeBytes_append (by simp)]
  simp

/-! ## The way back -/

theorem byte_eq {b : Byte} {k : Nat} (hb : b.toNat < k) : ∃ n < k, b = UInt8.ofNat n :=
  ⟨b.toNat, hb, UInt8.ofNat_toNat.symm⟩

/-- A digit is read as it has been printed. -/
theorem base64At_read : ∀ v : Byte, v < 64 → isspace (base64At v) = false ∧ base64At v ≠ pad64 ∧
    base64Index (base64At v) = some v :=
  forall_byte (by decide +kernel)

/-- The digit between two bytes: below 64, and its bits are the last two of the one and the first four of
the other. -/
theorem output1_bits (a b : Byte) :
    output1 a b < 64 ∧ output1 a b >>> 4 = a &&& (0x03 : Byte) ∧ output1 a b &&& (0x0f : Byte) = b >>> 4 := by
  have hall : ∀ m < 4, ∀ n < 16, (UInt8.ofNat m <<< 4) + UInt8.ofNat n < 64 ∧
      ((UInt8.ofNat m <<< 4) + UInt8.ofNat n) >>> 4 = UInt8.ofNat m ∧
      (((UInt8.ofNat m <<< 4) + UInt8.ofNat n) &&& (0x0f : Byte)) = UInt8.ofNat n := by decide +kernel
  have hlow : ∀ a : Byte, (a &&& 0x03).toNat < 4 := forall_byte (by decide +kernel)
  have hhigh : ∀ b : Byte, (b >>> 4).toNat < 16 := forall_byte (by decide +kernel)
  obtain ⟨m, hm, ha⟩ := byte_eq (hlow a)
  obtain ⟨n, hn, hb⟩ := byte_eq (hhigh b)
  rw [output1, ha, hb]
  exact hall m hm n hn

/-- The same, with the last four of the one and the first two of the other. -/
theorem output2_bits (b c : Byte) :
    output2 b c < 64 ∧ output2 b c >>> 2 = b &&& (0x0f : Byte) ∧ output2 b c &&& (0x03 : Byte) = c >>> 6 := by
  have hall : ∀ m < 16, ∀ n < 4, (UInt8.ofNat m <<< 2) + UInt8.ofNat n < 64 ∧
      ((UInt8.ofNat m <<< 2) + UInt8.ofNat n) >>> 2 = UInt8.ofNat m ∧
      (((UInt8.ofNat m <<< 2) + UInt8.ofNat n) &&& (0x03 : Byte)) = UInt8.ofNat n := by decide +kernel
  have hlow : ∀ b : Byte, (b &&& 0x0f).toNat < 16 := forall_byte (by decide +kernel)
  have hhigh : ∀ c : Byte, (c >>> 6).toNat < 4 := forall_byte (by decide +kernel)
  obtain ⟨m, hm, hb⟩ := byte_eq (hlow b)
  obtain ⟨n, hn, hc⟩ := byte_eq (hhigh c)
  rw [output2, hb, hc]
  exact hall m hm n hn

theorem output0_lt : ∀ a : Byte, output0 a < 64 := forall_byte (by decide +kernel)

theorem output3_lt : ∀ c : Byte, output3 c < 64 := forall_byte (by decide +kernel)

/-- Three bytes, from the bits of their four digits. -/
theorem output_join (a b c : Byte) :
    output0 a <<< 2 ||| output1 a b >>> 4 = a ∧
    (output1 a b &&& 0x0f) <<< 4 ||| output2 b c >>> 2 = b ∧
    (output2 b c &&& 0x03) <<< 6 ||| output3 c = c := by
  have h0 : ∀ a : Byte, output0 a <<< 2 ||| a &&& 0x03 = a := forall_byte (by decide +kernel)
  have h1 : ∀ b : Byte, (b >>> 4) <<< 4 ||| b &&& 0x0f = b := forall_byte (by decide +kernel)
  have h2 : ∀ c : Byte, (c >>> 6) <<< 6 ||| output3 c = c := forall_byte (by decide +kernel)
  obtain ⟨-, hhigh1, hlow1⟩ := output1_bits a b
  obtain ⟨-, hhigh2, hlow2⟩ := output2_bits b c
  rw [hhigh1, hlow1, hhigh2, hlow2]
  exact ⟨h0 a, h1 b, h2 c⟩

/-- No bits are left over where the input has ended. -/
theorem output_left (a b : Byte) : (output1 a 0 &&& 0x0f) <<< 4 = 0 ∧ (output2 b 0 &&& 0x03) <<< 6 = 0 := by
  rw [(output1_bits a 0).2.2, (output2_bits b 0).2.2]
  decide

theorem scan_digit {v : Byte} (hv : v < 64) (src : List Byte) :
    scan (base64At v :: src) = (scan src).map fun r => (v :: r.1, r.2) := by
  obtain ⟨hblank, hpad, hindex⟩ := base64At_read v hv
  rw [scan, if_neg (by rw [hblank]; exact Bool.false_ne_true), if_neg hpad, hindex]
  cases scan src <;> rfl

/-- A decoder that has scanned a text and goes on with its digits. -/
def Decoder.resume (D : Decoder) (src : List Byte) : Option Decoder :=
  (scan src).bind fun r => (r.1.foldl Decoder.push D).finish r.2

theorem resume_digit (D : Decoder) {v : Byte} (hv : v < 64) (src : List Byte) :
    D.resume (base64At v :: src) = (D.push v).resume src := by
  rw [Decoder.resume, scan_digit hv, Decoder.resume]
  cases scan src <;> rfl

/-- A machine with complete bytes decodes what has been encoded. -/
theorem resume_encodeText (src : List Byte) (bytes : List Byte) : ∃ D,
    Decoder.resume ⟨bytes, 0, 0⟩ (encodeText src) = some D ∧ D.bytes = bytes ++ src := by
  induction src using encodeText.induct generalizing bytes with
  | case1 a b c src ih =>
    obtain ⟨h0, h1, h2⟩ := output_join a b c
    obtain ⟨D, hD, hbytes⟩ := ih (bytes ++ [a, b, c])
    refine ⟨D, ?_, by simpa using hbytes⟩
    rw [encodeText]
    simp only [List.cons_append, List.nil_append]
    rw [resume_digit _ (output0_lt a), resume_digit _ (output1_bits a b).1, resume_digit _ (output2_bits b c).1,
      resume_digit _ (output3_lt c)]
    simp only [Decoder.push, h0, h1, h2]
    simpa using hD
  | case2 a b =>
    obtain ⟨h0, h1, -⟩ := output_join a b 0
    refine ⟨⟨bytes ++ [a, b], 3, 0⟩, ?_, rfl⟩
    rw [encodeText, resume_digit _ (output0_lt a), resume_digit _ (output1_bits a b).1,
      resume_digit _ (output2_bits b 0).1]
    simp only [Decoder.push, h0, h1, (output_left a b).2, List.append_assoc, List.cons_append, List.nil_append]
    rfl
  | case3 a =>
    obtain ⟨h0, -, -⟩ := output_join a 0 0
    refine ⟨⟨bytes ++ [a], 2, 0⟩, ?_, rfl⟩
    rw [encodeText, resume_digit _ (output0_lt a), resume_digit _ (output1_bits a 0).1]
    simp only [Decoder.push, h0, (output_left a 0).1]
    rfl
  | case4 => exact ⟨⟨bytes, 0, 0⟩, rfl, (List.append_nil bytes).symm⟩

theorem decodeText_encodeText (src : List Byte) : ∃ D, decodeText (encodeText src) = some D ∧ D.bytes = src := by
  obtain ⟨D, hD, hbytes⟩ := resume_encodeText src []
  exact ⟨D, hD, hbytes⟩

/-- Every byte that is printed is a digit or a pad. -/
theorem mem_encodeText {src : List Byte} {ch : Byte} (h : ch ∈ encodeText src) :
    (∃ v < 64, ch = base64At v) ∨ (ch = pad64 ∧ src.length % 3 ≠ 0) := by
  induction src using encodeText.induct with
  | case1 a b c src ih =>
    rw [encodeText] at h
    simp only [List.cons_append, List.nil_append, List.mem_cons] at h
    rcases h with h | h | h | h | h
    · exact .inl ⟨_, output0_lt a, h⟩
    · exact .inl ⟨_, (output1_bits a b).1, h⟩
    · exact .inl ⟨_, (output2_bits b c).1, h⟩
    · exact .inl ⟨_, output3_lt c, h⟩
    · have hmod : (a :: b :: c :: src).length % 3 = src.length % 3 := by
        simp only [List.length_cons]
        omega
      rw [hmod]
      exact ih h
  | case2 a b =>
    rw [encodeText] at h
    simp only [List.mem_cons, List.not_mem_nil, or_false] at h
    rcases h with h | h | h | h
    · exact .inl ⟨_, output0_lt a, h⟩
    · exact .inl ⟨_, (output1_bits a b).1, h⟩
    · exact .inl ⟨_, (output2_bits b 0).1, h⟩
    · exact .inr ⟨h, by simp⟩
  | case3 a =>
    rw [encodeText] at h
    simp only [List.mem_cons, List.not_mem_nil, or_false, or_self] at h
    rcases h with h | h | h
    · exact .inl ⟨_, output0_lt a, h⟩
    · exact .inl ⟨_, (output1_bits a 0).1, h⟩
    · exact .inr ⟨h, by simp⟩
  | case4 => cases h

theorem zero_notMem_encodeText (src : List Byte) : (0 : Byte) ∉ encodeText src := by
  have hdigit : ∀ v : Byte, v < 64 → base64At v ≠ 0 := forall_byte (by decide +kernel)
  intro h
  rcases mem_encodeText h with ⟨v, hv, h⟩ | ⟨h, -⟩
  · exact hdigit v hv h.symm
  · exact absurd h (by decide)

/-- A text without a pad is that of whole groups. -/
theorem encodeText_unpadded {src : List Byte} (h : pad64 ∉ encodeText src) : src.length % 3 = 0 := by
  induction src using encodeText.induct with
  | case1 a b c src ih =>
    rw [encodeText] at h
    have hrest := ih fun hmem => h (List.mem_append_right _ hmem)
    simp only [List.length_cons]
    omega
  | case2 a b => exact absurd (by simp [encodeText]) h
  | case3 a => exact absurd (by simp [encodeText]) h
  | case4 => rfl

/-! ## How much is decoded -/

def digits (text : List Byte) : Nat := text.countP fun ch => (base64Index ch).isSome

theorem blank_index : ∀ ch : Byte, isspace ch = true → base64Index ch = none := forall_byte (by decide +kernel)

theorem digits_skip {ch : Byte} (h : base64Index ch = none) (src : List Byte) :
    digits (ch :: src) = digits src :=
  List.countP_cons_of_neg (by rw [h]; exact Bool.false_ne_true)

theorem digits_digit {ch v : Byte} (h : base64Index ch = some v) (src : List Byte) :
    digits (ch :: src) = digits src + 1 :=
  List.countP_cons_of_pos (by rw [h]; rfl)

theorem pad_index : base64Index pad64 = none := by decide

theorem digits_blank {src : List Byte} (h : src.all isspace = true) : digits src = 0 := by
  rw [digits, List.countP_eq_zero]
  intro ch hch
  rw [blank_index ch (List.all_eq_true.mp h ch hch)]
  exact Bool.false_ne_true

theorem digits_scan {src vs : List Byte} {pad : Option (List Byte)} (h : scan src = some (vs, pad)) :
    digits src = vs.length + digits (pad.getD []) := by
  induction src generalizing vs with
  | nil =>
    cases h
    rfl
  | cons ch src ih =>
    rw [scan] at h
    by_cases hblank : isspace ch
    · rw [if_pos hblank] at h
      rw [digits_skip (blank_index ch hblank)]
      exact ih h
    · rw [if_neg hblank] at h
      by_cases hpad : ch = pad64
      · rw [if_pos hpad] at h
        cases h
        rw [hpad, digits_skip pad_index, List.length_nil, Nat.zero_add]
        rfl
      · rw [if_neg hpad] at h
        obtain ⟨v, hv, h⟩ := Option.bind_eq_some_iff.mp h
        obtain ⟨⟨vs, pad⟩, hs, h⟩ := Option.bind_eq_some_iff.mp h
        cases h
        rw [digits_digit hv, List.length_cons, ih hs]
        omega

theorem digits_last {D D' : Decoder} {src : List Byte} (h : D.last src = some D') : digits src = 0 := by
  unfold Decoder.last at h
  split at h
  · next hlast => exact digits_blank hlast.1
  · cases h

/-- Nothing but blanks and pads is accepted behind a pad. -/
theorem digits_finish {D D' : Decoder} {pad : Option (List Byte)} (h : D.finish pad = some D') :
    digits (pad.getD []) = 0 := by
  unfold Decoder.finish at h
  split at h
  · rfl
  · next src _ =>
    have hblank : digits (src.takeWhile isspace) = 0 := digits_blank List.all_takeWhile
    have hsplit : digits src = digits (src.takeWhile isspace) + digits (src.dropWhile isspace) := by
      rw [digits, digits, digits, ← List.countP_append, List.takeWhile_append_dropWhile]
    rw [Option.getD_some, hsplit, hblank, Nat.zero_add]
    split at h
    · cases h
    · next ch rest hdrop =>
      split at h
      · next hpad =>
        rw [hdrop, hpad, digits_skip pad_index]
        exact digits_last h
      · cases h
  · exact digits_last h
  · cases h

/-- After `n` digits. -/
structure Decoder.After (D : Decoder) (n : Nat) : Prop where
  bytes : D.bytes.length = n * 3 / 4
  state : D.state = n % 4

theorem after_push {D : Decoder} {n : Nat} (h : D.After n) (v : Byte) : (D.push v).After (n + 1) := by
  obtain ⟨bytes, k, p⟩ := D
  obtain ⟨hbytes, hk⟩ := h
  dsimp only at hbytes hk
  have hlt : k < 4 := by omega
  match k with
  | 0 => exact ⟨by simp only [Decoder.push]; omega, by simp only [Decoder.push]; omega⟩
  | 1 =>
    exact ⟨by simp only [Decoder.push, List.length_append, List.length_singleton]; omega,
      by simp only [Decoder.push]; omega⟩
  | 2 =>
    exact ⟨by simp only [Decoder.push, List.length_append, List.length_singleton]; omega,
      by simp only [Decoder.push]; omega⟩
  | 3 =>
    exact ⟨by simp only [Decoder.push, List.length_append, List.length_singleton]; omega,
      by simp only [Decoder.push]; omega⟩

theorem after_foldl {D : Decoder} {n : Nat} (h : D.After n) (vs : List Byte) :
    (vs.foldl Decoder.push D).After (n + vs.length) := by
  induction vs generalizing D n with
  | nil => exact h
  | cons v vs ih =>
    rw [List.foldl_cons, List.length_cons, Nat.add_comm vs.length, ← Nat.add_assoc]
    exact ih (after_push h v)

/-- Four digits are three bytes, and what is left over is rounded down. -/
theorem decodeText_length {src : List Byte} {D : Decoder} (h : decodeText src = some D) :
    D.bytes.length = digits src * 3 / 4 := by
  obtain ⟨⟨vs, pad⟩, hscan, hfinish⟩ := Option.bind_eq_some_iff.mp h
  have hafter : (vs.foldl Decoder.push .init).After (0 + vs.length) := after_foldl ⟨rfl, rfl⟩ vs
  rw [digits_scan hscan, digits_finish hfinish, (finish_stored hfinish).1, hafter.bytes, Nat.zero_add,
    Nat.add_zero]

theorem digits_unpadded {src vs : List Byte} {pad : Option (List Byte)} (h : scan src = some (vs, pad))
    (hpad : pad64 ∉ src) : digits src + src.countP isspace = src.length := by
  induction src generalizing vs with
  | nil => rfl
  | cons ch src ih =>
    obtain ⟨hne, hsrc⟩ := not_or.mp (List.mem_cons.not.mp hpad)
    rw [scan] at h
    by_cases hblank : isspace ch
    · rw [if_pos hblank] at h
      rw [digits_skip (blank_index ch hblank), List.countP_cons_of_pos hblank, List.length_cons, ← ih h hsrc]
      omega
    · rw [if_neg hblank, if_neg (Ne.symm hne)] at h
      obtain ⟨v, hv, h⟩ := Option.bind_eq_some_iff.mp h
      obtain ⟨⟨vs, pad⟩, hs, h⟩ := Option.bind_eq_some_iff.mp h
      cases h
      rw [digits_digit hv, List.countP_cons_of_neg hblank, List.length_cons, ← ih hs hsrc]
      omega

theorem finish_none {D D' : Decoder} (h : D.finish none = some D') : D.state = 0 := by
  obtain ⟨bytes, k, p⟩ := D
  match k with
  | 0 => rfl
  | k + 1 => cases h

/-- Without a pad an accepted text has whole groups of digits, and blanks. -/
theorem decodeText_unpadded {src : List Byte} {D : Decoder} (h : decodeText src = some D)
    (hpad : pad64 ∉ src) : digits src + src.countP isspace = src.length ∧ digits src % 4 = 0 := by
  obtain ⟨⟨vs, pad⟩, hscan, hfinish⟩ := Option.bind_eq_some_iff.mp h
  have hafter : (vs.foldl Decoder.push .init).After (0 + vs.length) := after_foldl ⟨rfl, rfl⟩ vs
  have hnone : pad = none := by
    have hsome := scan_pad hscan
    rwa [decide_eq_false hpad, Option.isSome_eq_false_iff, Option.isNone_iff_eq_none] at hsome
  subst hnone
  have hstate : (vs.foldl Decoder.push .init).state = 0 := finish_none hfinish
  refine ⟨digits_unpadded hscan hpad, ?_⟩
  rw [digits_scan hscan, digits_finish hfinish, Nat.add_zero, ← Nat.zero_add vs.length, ← hafter.state, hstate]

/-! ## Accepted texts -/

/-- `base64_decode` accepts the text, in any block that is as long: these are the bytes. -/
def Accepted (text bytes : List Byte) : Prop :=
  ∀ target, text.length ≤ target.length →
    ∃ target', base64Decode text target = some (bytes.length, target') ∧ target'.take bytes.length = bytes

/-- There is room for what is stored in a block as long as the text. -/
theorem stored_le {src : List Byte} {D : Decoder} (h : decodeText src = some D) :
    D.stored.length ≤ src.length := by
  have hlen := decodeText_length h
  have hdigits : digits src ≤ src.length := List.countP_le_length
  rw [decodeText_stored h]
  by_cases hpad : pad64 ∈ src
  · have hlt : digits src < src.length := by
      refine Nat.lt_of_le_of_ne hdigits fun heq => ?_
      exact absurd (List.countP_eq_length.mp heq pad64 hpad) (by decide)
    rw [if_pos hpad, List.length_append, List.length_singleton]
    omega
  · rw [if_neg hpad]
    omega

theorem stored_bytes {src : List Byte} {D : Decoder} (h : decodeText src = some D) (rest : List Byte) :
    (D.stored ++ rest).take D.bytes.length = D.bytes := by
  rw [decodeText_stored h]
  split
  · rw [List.append_assoc, List.take_left]
  · rw [List.take_left]

theorem accepted_iff {text bytes : List Byte} :
    Accepted text bytes ↔ ∃ D, decodeText text = some D ∧ D.bytes = bytes := by
  constructor
  · intro h
    obtain ⟨target, hdecode, htake⟩ := h text (Nat.le_refl _)
    rw [base64Decode_eq] at hdecode
    obtain ⟨D, hD, hdecode⟩ := Option.bind_eq_some_iff.mp hdecode
    rw [if_pos (stored_le hD)] at hdecode
    obtain ⟨hlen, rfl⟩ := Prod.mk.inj (Option.some.inj hdecode)
    rw [← hlen, stored_bytes hD] at htake
    exact ⟨D, hD, htake⟩
  · rintro ⟨D, hD, rfl⟩ target hroom
    have hfit := (stored_le hD).trans hroom
    refine ⟨D.stored ++ target.drop D.stored.length, ?_, stored_bytes hD _⟩
    rw [base64Decode_eq, hD, Option.bind_some, if_pos hfit]

end Base64
end Xlibc
