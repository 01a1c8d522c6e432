import Xlibc.Base.CInt
import Xlibc.Base.CStr

/-!
# Xlibc.Base64.Codec

`base64_encode` and `base64_decode` of `base64.c`.

The decoder writes into a block of bytes, keeping the bits of a byte that is not complete in the block
itself. `Decoder` is the same machine without a block: the bytes that are complete, how far the next one
is, and its bits.

* `Decoder.push` : one digit; `Sim` ties the machine to the block.
* `decodeLoop_scan` : the loop is the machine on the digits of the text, as long as the block has room.
* `base64Decode_eq` : the decoder, with all that it leaves in the block.
-/

namespace Xlibc
namespace Base64

/-! ## The code -/

/-- `Base64` -/
def base64 : List Byte :=
  ['A', 'B', 'C', 'D', 'E', 'F', 'G', 'H', 'I', 'J', 'K', 'L', 'M', 'N', 'O', 'P', 'Q', 'R', 'S', 'T', 'U',
    'V', 'W', 'X', 'Y', 'Z', 'a', 'b', 'c', 'd', 'e', 'f', 'g', 'h', 'i', 'j', 'k', 'l', 'm', 'n', 'o', 'p',
    'q', 'r', 's', 't', 'u', 'v', 'w', 'x', 'y', 'z', '0', '1', '2', '3', '4', '5', '6', '7', '8', '9', '+',
    '/'].map Char.toUInt8

/-- `Pad64` -/
def pad64 : Byte := '='.toUInt8

/-- `Base64[v]` -/
def base64At (v : Byte) : Byte := base64.getD v.toNat 0

/-- `strchr(Base64, ch) - Base64` -/
def base64Index (ch : Byte) : Option Byte := (base64.findIdx? (· == ch)).map UInt8.ofNat

/-- The four digits of `output`, from the three bytes of `input`. -/
def output0 (a : Byte) : Byte := a >>> 2
def output1 (a b : Byte) : Byte := ((a &&& 0x03) <<< 4) + (b >>> 4)
def output2 (b c : Byte) : Byte := ((b &&& 0x0f) <<< 2) + (c >>> 6)
def output3 (c : Byte) : Byte := c &&& 0x3f

/-- `target[datalength++] = ..`, four times, unless the target is full. -/
def putQuad (target : List Byte) (datalength : Nat) (quad : List Byte) : Option (List Byte) :=
  if datalength + 4 > target.length then none else storeBytes target datalength quad

/-- `base64_encode` behind its loop, with at most two bytes left. -/
def encodeTail (src : List Byte) (target : List Byte) (datalength : Nat) : Option (List Byte × Nat) :=
  match src with
  | [] => some (target, datalength)
  | [a] => (putQuad target datalength [base64At (output0 a), base64At (output1 a 0), pad64, pad64]).map
      fun target => (target, datalength + 4)
  | a :: b :: _ => (putQuad target datalength
      [base64At (output0 a), base64At (output1 a b), base64At (output2 b 0), pad64]).map
      fun target => (target, datalength + 4)

/-- `base64_encode`, with the loop over three bytes at a time. -/
def encodeLoop : List Byte → List Byte → Nat → Option (List Byte × Nat)
  | a :: b :: c :: src, target, datalength => do
    let target ← putQuad target datalength
      [base64At (output0 a), base64At (output1 a b), base64At (output2 b c), base64At (output3 c)]
    encodeLoop src target (datalength + 4)
  | src, target, datalength => encodeTail src target datalength

/-- `base64_encode`, into a target of `targsize` bytes: the length as an `int`, and the target. Without a
result it returns -1. -/
def base64Encode (src target : List Byte) : Option (Int × List Byte) := do
  let (target, datalength) ← encodeLoop src target 0
  if datalength ≥ target.length then none
  else (storeBytes target datalength [0]).map fun target => (i32OfNat datalength, target)

/-- `target`, `tarindex` and `state` of `base64_decode`. -/
structure DecodeState where
  target : List Byte
  tarindex : Nat
  state : Nat
  deriving DecidableEq, Repr

/-- A round of `base64_decode` for the digit `v`. `targsize` is the size of the target. -/
def decodeDigit (d : DecodeState) (v : Byte) : Option DecodeState :=
  match d.state with
  | 0 =>
    if d.tarindex ≥ d.target.length then none
    else some { d with target := d.target.set d.tarindex (v <<< 2), state := 1 }
  | 1 =>
    if d.tarindex + 1 ≥ d.target.length then none
    else some
      { target := (d.target.modify d.tarindex (· ||| v >>> 4)).set (d.tarindex + 1) ((v &&& 0x0f) <<< 4),
        tarindex := d.tarindex + 1, state := 2 }
  | 2 =>
    if d.tarindex + 1 ≥ d.target.length then none
    else some
      { target := (d.target.modify d.tarindex (· ||| v >>> 2)).set (d.tarindex + 1) ((v &&& 0x03) <<< 6),
        tarindex := d.tarindex + 1, state := 3 }
  | _ =>
    if d.tarindex ≥ d.target.length then none
    else some { target := d.target.modify d.tarindex (· ||| v), tarindex := d.tarindex + 1, state := 0 }

/-- The loop of `base64_decode`: the state, and what is behind a pad that has ended it. -/
def decodeLoop : List Byte → DecodeState → Option (DecodeState × Option (List Byte))
  | [], d => some (d, none)
  | ch :: src, d =>
    if isspace ch then decodeLoop src d
    else if ch = pad64 then some (d, some src)
    else do
      let v ← base64Index ch
      let d ← decodeDigit d v
      decodeLoop src d

/-- Behind the last pad: only blanks, and no bits left over. -/
def decodeEnd (src : List Byte) (d : DecodeState) : Option (Nat × List Byte) :=
  if src.all isspace ∧ d.target[d.tarindex]? = some 0 then some (d.tarindex, d.target) else none

/-- `base64_decode` behind its loop. -/
def decodeRest (d : DecodeState) (pad : Option (List Byte)) : Option (Nat × List Byte) :=
  match pad, d.state with
  | none, 0 => some (d.tarindex, d.target)
  | some src, 2 =>
    match src.dropWhile isspace with
    | [] => none
    | ch :: src => if ch = pad64 then decodeEnd src d else none
  | some src, 3 => decodeEnd src d
  | _, _ => none

/-- `base64_decode`: the number of bytes and the target. Without a result it returns -1. -/
def base64Decode (src target : List Byte) : Option (Nat × List Byte) := do
  let (d, pad) ← decodeLoop src { target := target, tarindex := 0, state := 0 }
  decodeRest d pad

/-- `base64_enclen`, for a `size_t` of `w` bits. -/
def base64Enclen (w origLen : Nat) : Nat := (origLen / 3 + if origLen % 3 ≠ 0 then 1 else 0) * 4 % 2 ^ w

/-- `base64_declen` -/
def base64Declen (w origLen : Nat) : Nat := origLen * 3 % 2 ^ w / 4

/-! ## The machine of the decoder -/

/-- Complete bytes, and how many digits the next one has seen, with its bits. -/
structure Decoder where
  bytes : List Byte
  state : Nat
  part : Byte
  deriving DecidableEq, Repr

def Decoder.push (D : Decoder) (v : Byte) : Decoder :=
  match D.state with
  | 0 => { D with state := 1, part := v <<< 2 }
  | 1 => { bytes := D.bytes ++ [D.part ||| v >>> 4], state := 2, part := (v &&& 0x0f) <<< 4 }
  | 2 => { bytes := D.bytes ++ [D.part ||| v >>> 2], state := 3, part := (v &&& 0x03) <<< 6 }
  | _ => { bytes := D.bytes ++ [D.part ||| v], state := 0, part := 0 }

/-- What a decoder keeps in its block: the bits of the next byte as well. -/
def Decoder.stored (D : Decoder) : List Byte := if D.state = 0 then D.bytes else D.bytes ++ [D.part]

def Decoder.last (D : Decoder) (src : List Byte) : Option Decoder :=
  if src.all isspace ∧ D.part = 0 then some D else none

def Decoder.finish (D : Decoder) (pad : Option (List Byte)) : Option Decoder :=
  match pad, D.state with
  | none, 0 => some D
  | some src, 2 =>
    match src.dropWhile isspace with
    | [] => none
    | ch :: src => if ch = pad64 then D.last src else none
  | some src, 3 => D.last src
  | _, _ => none

/-- The digits of a text, up to a pad or its end, and what is behind the pad. -/
def scan : List Byte → Option (List Byte × Option (List Byte))
  | [] => some ([], none)
  | ch :: src =>
    if isspace ch then scan src
    else if ch = pad64 then some ([], some src)
    else do
      let v ← base64Index ch
      let (vs, pad) ← scan src
      some (v :: vs, pad)

def Decoder.init : Decoder := { bytes := [], state := 0, part := 0 }

def decodeText (src : List Byte) : Option Decoder := do
  let (vs, pad) ← scan src
  (vs.foldl Decoder.push .init).finish pad

/-! ## The block of the decoder -/

/-- The block holds what the machine has stored, and behind that what it held before. -/
structure Sim (fresh : List Byte) (D : Decoder) (d : DecodeState) : Prop where
  room : D.stored.length ≤ fresh.length
  target : d.target = D.stored ++ fresh.drop D.stored.length
  tarindex : d.tarindex = D.bytes.length
  state : d.state = D.state

theorem set_fresh {l fresh : List Byte} (h : l.length < fresh.length) (b : Byte) :
    (l ++ fresh.drop l.length).set l.length b = l ++ [b] ++ fresh.drop (l.length + 1) := by
  rw [List.set_append_right _ _ (Nat.le_refl _), Nat.sub_self, List.drop_eq_getElem_cons h,
    List.set_cons_zero, List.append_assoc, List.singleton_append]

theorem modify_append (l : List Byte) (p : Byte) (rest : List Byte) (f : Byte → Byte) :
    (l ++ p :: rest).modify l.length f = l ++ f p :: rest := by
  induction l with
  | nil => rfl
  | cons c l ih => rw [List.cons_append, List.length_cons, List.modify_succ_cons, ih, List.cons_append]

theorem modify_part {bytes rest : List Byte} (p : Byte) (f : Byte → Byte) :
    (bytes ++ [p] ++ rest).modify bytes.length f = bytes ++ [f p] ++ rest := by
  rw [List.append_assoc, List.singleton_append, modify_append, List.append_assoc, List.singleton_append]

theorem Sim.target_length {fresh : List Byte} {D : Decoder} {d : DecodeState} (h : Sim fresh D d) :
    d.target.length = fresh.length := by
  have hroom := h.room
  rw [h.target, List.length_append, List.length_drop]
  omega

section Digit

variable {fresh bytes : List Byte} {p : Byte} {k : Nat} {d : DecodeState}

theorem stored_zero : Decoder.stored ⟨bytes, 0, p⟩ = bytes := rfl

theorem stored_part (hk : k ≠ 0) : Decoder.stored ⟨bytes, k, p⟩ = bytes ++ [p] := if_neg hk

theorem sim_start (h : Sim fresh ⟨bytes, 0, p⟩ d) (b : Byte) (hroom : bytes.length < fresh.length) :
    Sim fresh ⟨bytes, 1, b⟩ { d with target := d.target.set d.tarindex b, state := 1 } := by
  obtain ⟨-, htarget, htar, -⟩ := h
  rw [stored_zero] at htarget
  have hstored : Decoder.stored ⟨bytes, 1, b⟩ = bytes ++ [b] := stored_part (by omega)
  have hlen : (bytes ++ [b]).length = bytes.length + 1 := List.length_append
  refine ⟨?_, ?_, htar, rfl⟩
  · rw [hstored, hlen]
    exact hroom
  · rw [hstored, hlen]
    dsimp only at htar ⊢
    rw [htarget, htar, set_fresh hroom]

theorem target_part (h : Sim fresh ⟨bytes, k, p⟩ d) (hk : k ≠ 0) (q : Byte) :
    d.target.modify d.tarindex (· ||| q) = bytes ++ [p ||| q] ++ fresh.drop (bytes.length + 1) := by
  obtain ⟨-, htarget, htar, -⟩ := h
  have hlen : (bytes ++ [p]).length = bytes.length + 1 := List.length_append
  rw [stored_part hk, hlen] at htarget
  dsimp only at htar
  rw [htarget, htar, modify_part]

/-- A digit that completes a byte and starts another one. -/
theorem sim_next (h : Sim fresh ⟨bytes, k, p⟩ d) (hk : k ≠ 0) (q b : Byte) {k' : Nat} (hk' : k' ≠ 0)
    (hroom : bytes.length + 1 < fresh.length) : Sim fresh ⟨bytes ++ [p ||| q], k', b⟩
      { target := (d.target.modify d.tarindex (· ||| q)).set (d.tarindex + 1) b,
        tarindex := d.tarindex + 1, state := k' } := by
  have htar : d.tarindex = bytes.length := h.tarindex
  have hlen : (bytes ++ [p ||| q]).length = bytes.length + 1 := List.length_append
  have hlen' : (bytes ++ [p ||| q] ++ [b]).length = (bytes ++ [p ||| q]).length + 1 := List.length_append
  refine ⟨?_, ?_, ?_, rfl⟩
  · rw [stored_part hk', hlen', hlen]
    exact hroom
  · rw [stored_part hk', hlen', target_part h hk, htar, ← hlen]
    exact set_fresh (by rwa [hlen]) b
  · rw [htar, hlen]

theorem sim_last (h : Sim fresh ⟨bytes, k, p⟩ d) (hk : k ≠ 0) (q : Byte) :
    Sim fresh ⟨bytes ++ [p ||| q], 0, 0⟩
      { target := d.target.modify d.tarindex (· ||| q), tarindex := d.tarindex + 1, state := 0 } := by
  have hroom := h.room
  have htar : d.tarindex = bytes.length := h.tarindex
  have hlen : (bytes ++ [p ||| q]).length = bytes.length + 1 := List.length_append
  rw [stored_part hk, List.length_append] at hroom
  refine ⟨?_, ?_, ?_, rfl⟩
  · rw [stored_zero, hlen]
    exact hroom
  · rw [stored_zero, target_part h hk, hlen]
  · rw [htar, hlen]

end Digit

/-- A digit, if there is room for what it leaves. -/
theorem decodeDigit_sim {fresh : List Byte} {D : Decoder} {d : DecodeState} (h : Sim fresh D d) (v : Byte) :
    ((D.push v).stored.length ≤ fresh.length →
      ∃ d', decodeDigit d v = some d' ∧ Sim fresh (D.push v) d') ∧
    (fresh.length < (D.push v).stored.length → decodeDigit d v = none) := by
  have hlen := h.target_length
  have htar := h.tarindex
  have hstate := h.state
  have hroom := h.room
  obtain ⟨bytes, k, p⟩ := D
  dsimp only at htar hstate
  unfold decodeDigit
  rw [hstate]
  match k with
  | 0 =>
    have hstored : (Decoder.push ⟨bytes, 0, p⟩ v).stored.length = bytes.length + 1 := List.length_append
    rw [hstored]
    exact ⟨fun hfit => ⟨_, if_neg (by omega), sim_start h _ (by omega)⟩, fun hfull => if_pos (by omega)⟩
  | 1 =>
    have hstored : (Decoder.push ⟨bytes, 1, p⟩ v).stored.length = bytes.length + 1 + 1 := by
      simp [Decoder.push, Decoder.stored]
    rw [hstored]
    exact ⟨fun hfit => ⟨_, if_neg (by omega), sim_next h (by omega) _ _ (by omega) (by omega)⟩,
      fun hfull => if_pos (by omega)⟩
  | 2 =>
    have hstored : (Decoder.push ⟨bytes, 2, p⟩ v).stored.length = bytes.length + 1 + 1 := by
      simp [Decoder.push, Decoder.stored]
    rw [hstored]
    exact ⟨fun hfit => ⟨_, if_neg (by omega), sim_next h (by omega) _ _ (by omega) (by omega)⟩,
      fun hfull => if_pos (by omega)⟩
  | k + 3 =>
    have hstored : (Decoder.push ⟨bytes, k + 3, p⟩ v).stored.length = bytes.length + 1 := List.length_append
    rw [hstored]
    exact ⟨fun hfit => ⟨_, if_neg (by omega), sim_last h (by omega) _⟩, fun hfull => if_pos (by omega)⟩

theorem stored_push_le (D : Decoder) (v : Byte) : D.stored.length ≤ (D.push v).stored.length := by
  obtain ⟨bytes, k, p⟩ := D
  match k with
  | 0 => simp [Decoder.push, Decoder.stored]
  | 1 => simp [Decoder.push, Decoder.stored]
  | 2 => simp [Decoder.push, Decoder.stored]
  | k + 3 => simp [Decoder.push, Decoder.stored]

theorem stored_foldl_le (D : Decoder) (vs : List Byte) :
    D.stored.length ≤ (vs.foldl Decoder.push D).stored.length := by
  induction vs generalizing D with
  | nil => exact Nat.le_refl _
  | cons v vs ih => exact (stored_push_le D v).trans (ih (D.push v))

/-- The loop on a text that has something else than digits, blanks and pads. -/
theorem decodeLoop_bad {src : List Byte} (h : scan src = none) (d : DecodeState) : decodeLoop src d = none := by
  induction src generalizing d with
  | nil => cases h
  | cons ch src ih =>
    rw [scan] at h
    rw [decodeLoop]
    by_cases hblank : isspace ch
    · rw [if_pos hblank] at h ⊢
      exact ih h d
    · rw [if_neg hblank] at h ⊢
      by_cases hpad : ch = pad64
      · rw [if_pos hpad] at h
        cases h
      · rw [if_neg hpad] at h ⊢
        cases hv : base64Index ch with
        | none => rfl
        | some v =>
          rw [hv, Option.bind_eq_bind, Option.bind_some] at h
          have hrest : scan src = none := by
            cases hs : scan src with
            | none => rfl
            | some r =>
              rw [hs] at h
              cases h
          rw [Option.bind_eq_bind, Option.bind_some]
          cases decodeDigit d v with
          | none => rfl
          | some d' => exact ih hrest d'

/-- The loop on any other text, by induction on it: the machine runs on the digits, in the block. -/
theorem decodeLoop_scan {fresh src vs : List Byte} {pad : Option (List Byte)} (h : scan src = some (vs, pad))
    {D : Decoder} {d : DecodeState} (hsim : Sim fresh D d) :
    ((vs.foldl Decoder.push D).stored.length ≤ fresh.length →
      ∃ d', decodeLoop src d = some (d', pad) ∧ Sim fresh (vs.foldl Decoder.push D) d') ∧
    (fresh.length < (vs.foldl Decoder.push D).stored.length → decodeLoop src d = none) := by
  induction src generalizing vs D d with
  | nil =>
    cases h
    exact ⟨fun _ => ⟨d, rfl, hsim⟩, fun hfull => absurd hsim.room (Nat.not_le.mpr hfull)⟩
  | cons ch src ih =>
    rw [scan] at h
    rw [decodeLoop]
    by_cases hblank : isspace ch
    · rw [if_pos hblank] at h ⊢
      exact ih h hsim
    · rw [if_neg hblank] at h ⊢
      by_cases hpad : ch = pad64
      · rw [if_pos hpad] at h ⊢
        cases h
        exact ⟨fun _ => ⟨d, rfl, hsim⟩, fun hfull => absurd hsim.room (Nat.not_le.mpr hfull)⟩
      · rw [if_neg hpad] at h ⊢
        obtain ⟨v, hv, h⟩ := Option.bind_eq_some_iff.mp h
        obtain ⟨⟨vs, pad⟩, hs, h⟩ := Option.bind_eq_some_iff.mp h
        cases h
        rw [hv, Option.bind_eq_bind, Option.bind_some, List.foldl_cons]
        have hle := stored_foldl_le (D.push v) vs
        obtain ⟨hfits, hfull⟩ := decodeDigit_sim hsim v
        by_cases hroom : (D.push v).stored.length ≤ fresh.length
        · obtain ⟨d', hd', hsim'⟩ := hfits hroom
          rw [hd', Option.bind_eq_bind, Option.bind_some]
          exact ih hs hsim'
        · rw [hfull (by omega)]
          exact ⟨fun hfit => by omega, fun _ => rfl⟩

/-! ## Whole texts -/

theorem decoder_last {D D' : Decoder} {src : List Byte} (h : D.last src = some D') :
    D' = D ∧ D.part = 0 := by
  unfold Decoder.last at h
  split at h
  · next hlast =>
    cases h
    exact ⟨rfl, hlast.2⟩
  · cases h

/-- An accepted text leaves complete bytes, or behind a pad a zero for the byte that is not. -/
theorem finish_stored {D D' : Decoder} {pad : Option (List Byte)} (h : D.finish pad = some D') :
    D' = D ∧ D.stored = if pad.isSome then D.bytes ++ [0] else D.bytes := by
  obtain ⟨bytes, k, p⟩ := D
  unfold Decoder.finish at h
  split at h
  · next hk =>
    cases h
    have hk' : k = 0 := hk
    subst hk'
    exact ⟨rfl, rfl⟩
  · next src hk =>
    have hk' : k = 2 := hk
    subst hk'
    split at h
    · cases h
    · split at h
      · obtain ⟨rfl, hpart⟩ := decoder_last h
        have hp : p = 0 := hpart
        subst hp
        exact ⟨rfl, rfl⟩
      · cases h
  · next src hk =>
    have hk' : k = 3 := hk
    subst hk'
    obtain ⟨rfl, hpart⟩ := decoder_last h
    have hp : p = 0 := hpart
    subst hp
    exact ⟨rfl, rfl⟩
  · cases h

/-- `decodeEnd` looks at the bits that are left over in the block. -/
theorem decodeEnd_eq {fresh : List Byte} {D : Decoder} {d : DecodeState} (h : Sim fresh D d)
    (hstate : D.state ≠ 0) (src : List Byte) : decodeEnd src d =
      (D.last src).map fun D => (D.bytes.length, D.stored ++ fresh.drop D.stored.length) := by
  have hpart : d.target[d.tarindex]? = some D.part := by
    rw [h.target, h.tarindex, Decoder.stored, if_neg hstate]
    simp
  have hlast : (src.all isspace ∧ d.target[d.tarindex]? = some 0) ↔ (src.all isspace ∧ D.part = 0) := by
    rw [hpart, Option.some.injEq]
  unfold decodeEnd Decoder.last
  by_cases hzero : src.all isspace ∧ D.part = 0
  · rw [if_pos (hlast.mpr hzero), if_pos hzero, Option.map_some, h.tarindex, h.target]
  · rw [if_neg (hlast.not.mpr hzero), if_neg hzero]
    rfl

theorem base64Decode_rest (src target : List Byte) : base64Decode src target =
    (decodeLoop src { target := target, tarindex := 0, state := 0 }).bind fun r => decodeRest r.1 r.2 := rfl

theorem decodeRest_eq {fresh : List Byte} {D : Decoder} {d : DecodeState} (h : Sim fresh D d)
    (pad : Option (List Byte)) : decodeRest d pad =
      (D.finish pad).map fun D => (D.bytes.length, D.stored ++ fresh.drop D.stored.length) := by
  unfold decodeRest Decoder.finish
  rw [h.state]
  obtain ⟨bytes, k, p⟩ := D
  cases pad with
  | none =>
    match k with
    | 0 => exact congrArg some (Prod.ext h.tarindex h.target)
    | k + 1 => rfl
  | some src =>
    match k with
    | 0 => rfl
    | 1 => rfl
    | 2 =>
      cases hsrc : src.dropWhile isspace with
      | nil => simp [hsrc]
      | cons ch src =>
        by_cases hch : ch = pad64
        · simp only [hsrc, if_pos hch]
          exact decodeEnd_eq h (Nat.succ_ne_zero 1) src
        · simp [hsrc, hch]
    | 3 => exact decodeEnd_eq h (Nat.succ_ne_zero 2) src
    | k + 4 => rfl

/-- `base64_decode`: what it returns, and the block that it leaves. -/
theorem base64Decode_eq (src fresh : List Byte) : base64Decode src fresh =
    (decodeText src).bind fun D => if D.stored.length ≤ fresh.length then
      some (D.bytes.length, D.stored ++ fresh.drop D.stored.length) else none := by
  have hstart : Sim fresh .init { target := fresh, tarindex := 0, state := 0 } :=
    ⟨Nat.zero_le _, rfl, rfl, rfl⟩
  rw [base64Decode_rest]
  unfold decodeText
  cases hscan : scan src with
  | none =>
    rw [decodeLoop_bad hscan]
    rfl
  | some r =>
    obtain ⟨vs, pad⟩ := r
    obtain ⟨hfits, hfull⟩ := decodeLoop_scan hscan hstart
    obtain ⟨D, hD⟩ : ∃ D, vs.foldl Decoder.push .init = D := ⟨_, rfl⟩
    rw [hD] at hfits hfull
    simp only [Option.bind_eq_bind, Option.bind_some, hD]
    by_cases hroom : D.stored.length ≤ fresh.length
    · obtain ⟨d, hd, hsim⟩ := hfits hroom
      rw [hd, Option.bind_some, decodeRest_eq hsim]
      cases hfinish : D.finish pad with
      | none => rfl
      | some D' =>
        obtain ⟨rfl, -⟩ := finish_stored hfinish
        rw [Option.map_some, Option.bind_some, if_pos hroom]
    · rw [hfull (by omega), Option.bind_none]
      cases hfinish : D.finish pad with
      | none => rfl
      | some D' =>
        obtain ⟨rfl, -⟩ := finish_stored hfinish
        rw [Option.bind_some, if_neg hroom]

theorem scan_pad {src vs : List Byte} {pad : Option (List Byte)} (h : scan src = some (vs, pad)) :
    pad.isSome = decide (pad64 ∈ src) := by
  induction src generalizing vs with
  | nil =>
    cases h
    rfl
  | cons ch src ih =>
    rw [scan] at h
    by_cases hblank : isspace ch
    · have hne : ch ≠ pad64 := by
        rintro rfl
        exact absurd hblank (by decide)
      rw [if_pos hblank] at h
      simp [ih h, hne.symm]
    · rw [if_neg hblank] at h
      by_cases hpad : ch = pad64
      · rw [if_pos hpad] at h
        cases h
        simp [hpad]
      · rw [if_neg hpad] at h
        obtain ⟨v, -, h⟩ := Option.bind_eq_some_iff.mp h
        obtain ⟨⟨vs, pad⟩, hs, h⟩ := Option.bind_eq_some_iff.mp h
        cases h
        simp [ih hs, Ne.symm hpad]

/-- What the decoder has stored for an accepted text: with a pad, a zero behind the bytes. -/
theorem decodeText_stored {src : List Byte} {D : Decoder} (h : decodeText src = some D) :
    D.stored = if pad64 ∈ src then D.bytes ++ [0] else D.bytes := by
  obtain ⟨⟨vs, pad⟩, hscan, hfinish⟩ := Option.bind_eq_some_iff.mp h
  obtain ⟨rfl, hstored⟩ := finish_stored hfinish
  rw [hstored, scan_pad hscan]
  simp

end Base64
end Xlibc
