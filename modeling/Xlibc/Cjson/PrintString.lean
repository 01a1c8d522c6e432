import Xlibc.Cjson.Text

/-!
# Xlibc.Cjson.PrintString

`printStringPtr`: the text of a string.

* `pieceOf` : how a byte is printed, `escape` how a string is.
* `decoded_escape` : what is printed stands for the string.
* `printStringPtr_pieces` : the text, in a block of just its length.
-/

namespace Xlibc
namespace Cjson

/-! ## Printing a string -/

def hexDigit (n : Nat) : HexDigit :=
  ⟨lowerHex (n % 16), by rw [hexValue_lowerHex _ (Nat.mod_lt _ (by decide))]; rfl⟩

/-- The piece that a byte is printed as. -/
def pieceOf (c : Byte) (hc : c ≠ 0) : Piece :=
  if c = '\\'.toUInt8 then .esc '\\'.toUInt8 (by decide)
  else if c = '"'.toUInt8 then .esc '"'.toUInt8 (by decide)
  else if c = 8 then .esc 'b'.toUInt8 (by decide)
  else if c = 12 then .esc 'f'.toUInt8 (by decide)
  else if c = 10 then .esc 'n'.toUInt8 (by decide)
  else if c = 13 then .esc 'r'.toUInt8 (by decide)
  else if c = 9 then .esc 't'.toUInt8 (by decide)
  else if c ≤ 31 then .unit (hexDigit 0) (hexDigit 0) (hexDigit (c.toNat / 16)) (hexDigit c.toNat)
  else if h : c ≠ '"'.toUInt8 ∧ c ≠ '\\'.toUInt8 then .raw c ⟨h.1, h.2, hc⟩
  else .esc '"'.toUInt8 (by decide)

def piecesOf : (s : List Byte) → (0 : Byte) ∉ s → List Piece
  | [], _ => []
  | c :: s, h => pieceOf c (fun hc => h (by simp [hc])) :: piecesOf s (fun hs => h (List.mem_cons_of_mem _ hs))

theorem pieceOf_raw {c : Byte} (h : c ≠ 0) (hraw : c > 31 ∧ c ≠ '"'.toUInt8 ∧ c ≠ '\\'.toUInt8) :
    (pieceOf c h).text = [c] := by
  have hall : ∀ c : Byte, (h : c ≠ 0) → c > 31 ∧
    c ≠ '"'.toUInt8 ∧ c ≠ '\\'.toUInt8 → (pieceOf c h).text = [c] :=
    forall_byte (by decide +kernel)
  exact hall c h hraw

/-- The `switch` writes the piece behind its backslash, at times with a terminator. -/
theorem pieceOf_escaped {c : Byte} (h : c ≠ 0) (hraw : ¬ (c > 31 ∧ c ≠ '"'.toUInt8 ∧ c ≠ '\\'.toUInt8)) :
    (pieceOf c h).text = '\\'.toUInt8 :: (pieceOf c h).text.tail ∧
      (escapeToken c = ((pieceOf c h).text.tail, (pieceOf c h).text.tail.length) ∨
        escapeToken c = ((pieceOf c h).text.tail ++ [0], (pieceOf c h).text.tail.length)) := by
  have hall : ∀ c : Byte, (h : c ≠ 0) → ¬ (c > 31 ∧ c ≠ '"'.toUInt8 ∧ c ≠ '\\'.toUInt8) →
      (pieceOf c h).text = '\\'.toUInt8 :: (pieceOf c h).text.tail ∧
        (escapeToken c = ((pieceOf c h).text.tail, (pieceOf c h).text.tail.length) ∨
          escapeToken c = ((pieceOf c h).text.tail ++ [0], (pieceOf c h).text.tail.length)) :=
    forall_byte (by decide +kernel)
  exact hall c h hraw

theorem escapedLen_cons {c : Byte} (h : c ≠ 0) (s : List Byte) (n : Nat) :
    escapedLen (c :: s) n = escapedLen s (n + (pieceOf c h).text.length) := by
  have hall : ∀ c : Byte, (h : c ≠ 0) → (pieceOf c h).text.length =
      if c ∈ ['"'.toUInt8, '\\'.toUInt8, 8, 12, 10, 13, 9] then 2 else if c < 32 then 6 else 1 :=
    forall_byte (by decide +kernel)
  rw [hall c h, escapedLen]
  split_ifs <;> rfl

theorem decode_pieceOf {c : Byte} (h : c ≠ 0) : decode [pieceOf c h] = [c] := by
  have hall : ∀ c : Byte, (h : c ≠ 0) → decode [pieceOf c h] = [c] := forall_byte (by decide +kernel)
  exact hall c h

/-- A printed byte does not wait for another half. -/
theorem decode_pieceOf_cons {c : Byte} (h : c ≠ 0) (pieces : List Piece) :
    decode (pieceOf c h :: pieces) = c :: decode pieces := by
  have hone := decode_pieceOf h
  cases hp : pieceOf c h with
  | raw d hd =>
    rw [hp] at hone
    exact congrArg (· ++ decode pieces) hone
  | esc d hd =>
    rw [hp] at hone
    exact congrArg (· ++ decode pieces) hone
  | unit d e f g =>
    rw [hp] at hone
    by_cases hhigh : IsHigh (unitValue d e f g)
    · rw [decode, decodeFrom, if_neg (high_not_low hhigh), if_pos hhigh, decodeFrom] at hone
      cases hone
    · rw [decode, decodeFrom, if_neg hhigh] at hone ⊢
      split_ifs at hone ⊢ with hno
      · cases hone
      · rw [show decodeFrom none [] = [] by rfl, List.append_nil] at hone
        rw [hone]
        rfl

theorem escapedLen_pieces (s : List Byte) (hs : (0 : Byte) ∉ s) (n : Nat) :
    escapedLen s n = n + (textOf (piecesOf s hs)).length := by
  induction s generalizing n with
  | nil => rfl
  | cons c s ih =>
    rw [escapedLen_cons (fun hc => hs (by simp [hc])), ih, piecesOf, textOf_cons, List.length_append, Nat.add_assoc]

theorem decode_piecesOf (s : List Byte) (hs : (0 : Byte) ∉ s) : decode (piecesOf s hs) = s := by
  induction s with
  | nil => rfl
  | cons c s ih => rw [piecesOf, decode_pieceOf_cons, ih]

theorem escapeLoop_pieces {size : Nat} (s : List Byte) (hs : (0 : Byte) ∉ s) {n : Nat} {out text : List Byte}
    (hw : Written size out text) (hn : text.length = n) (hfit : n + (textOf (piecesOf s hs)).length + 1 ≤ size) :
    ∃ out', escapeLoop s out n = some (out', n + (textOf (piecesOf s hs)).length) ∧
      Written size out' (text ++ textOf (piecesOf s hs)) := by
  induction s generalizing n out text with
  | nil => exact ⟨out, rfl, by rwa [piecesOf, textOf, List.flatMap_nil, List.append_nil]⟩
  | cons c s ih =>
    have hc : c ≠ 0 := fun hc => hs (by simp [hc])
    have hs' : (0 : Byte) ∉ s := fun h => hs (List.mem_cons_of_mem _ h)
    rw [piecesOf, textOf_cons, List.length_append] at hfit ⊢
    -- one byte is written as its piece
    have hbyte : ∃ out1, escapeLoop (c :: s) out n = escapeLoop s out1 (n + (pieceOf c hc).text.length) ∧
        Written size out1 (text ++ (pieceOf c hc).text) := by
      by_cases hraw : c > 31 ∧ c ≠ '"'.toUInt8 ∧ c ≠ '\\'.toUInt8
      · have htext := pieceOf_raw hc hraw
        rw [htext] at hfit ⊢
        obtain ⟨out1, hstore, hw1⟩ := hw.store [c] hn (by omega)
        exact ⟨out1, by rw [escapeLoop, if_pos hraw, hstore]; rfl, hw1⟩
      · obtain ⟨htext, htoken⟩ := pieceOf_escaped hc hraw
        rw [htext] at hfit ⊢
        rw [List.length_cons] at hfit
        obtain ⟨out0, hstore0, hw0⟩ := hw.store ['\\'.toUInt8] hn (by rw [List.length_singleton]; omega)
        have hn0 : (text ++ ['\\'.toUInt8]).length = n + 1 := by rw [List.length_append, hn]; rfl
        have hround : escapeLoop (c :: s) out n = (storeBytes out0 (n + 1) (escapeToken c).1).bind fun out =>
            escapeLoop s out (n + 1 + (escapeToken c).2) := by
          rw [escapeLoop, if_neg hraw, hstore0]
          rfl
        rw [hround, List.append_cons, List.length_cons, Nat.add_comm (List.length _), ← Nat.add_assoc]
        rcases htoken with htoken | htoken
        · obtain ⟨out1, hstore, hw1⟩ := hw0.store ((pieceOf c hc).text.tail) hn0 (by omega)
          exact ⟨out1, by rw [htoken, hstore]; rfl, hw1⟩
        · obtain ⟨out1, hstore, hw1⟩ := hw0.strcpy (pieceOf c hc).text.tail hn0 (by omega)
          exact ⟨out1, by rw [htoken, hstore]; rfl, hw1⟩
    obtain ⟨out1, hstep, hw1⟩ := hbyte
    obtain ⟨out2, hloop, hw2⟩ := ih hs' hw1 (by rw [List.length_append, hn]) (by omega)
    rw [List.append_assoc] at hw2
    exact ⟨out2, by rw [hstep, hloop, Nat.add_assoc], hw2⟩

/-- The pieces that a string is printed with. -/
def escape (s : CString) : List Piece := piecesOf s.val s.property

theorem decoded_escape (s : CString) : decoded (escape s) = s := Subtype.ext (decode_piecesOf s.val s.property)

/-- **A string is printed with pieces that stand for it**, in a block that is just as long. -/
theorem printStringPtr_pieces (fresh : Nat → Byte) (s : CString) (hlen : (textOf (escape s)).length + 3 ≤ intMax) :
    printStringPtr fresh (some s) = some (quoted (escape s)) := by
  have hescaped := escapedLen_pieces s.val s.property 0
  rw [Nat.zero_add] at hescaped
  have hno : ¬ intMax < escapedLen s.val 0 + 3 := by rw [hescaped]; unfold escape at hlen; omega
  obtain ⟨out0, hstore0, hw0⟩ := (Written.start (xmalloc_length fresh (escapedLen s.val 0 + 3))).store
    ['"'.toUInt8] (show _ = 0 by rfl) (by simp)
  obtain ⟨out1, hloop, hw1⟩ := escapeLoop_pieces s.val s.property hw0 (show _ = 1 by rfl) (by rw [hescaped]; omega)
  obtain ⟨out2, hstore2, hw2⟩ := hw1.store ['"'.toUInt8, 0]
    (show _ = 1 + (textOf (piecesOf s.val s.property)).length by simp [Nat.add_comm])
    (by rw [hescaped, List.length_cons, List.length_singleton]; omega)
  have hw : Written (escapedLen s.val 0 + 3) out2 ((quoted (escape s)).val ++ [0]) := by
    simpa [quoted, escape] using hw2
  have hstr := hw.string (quoted (escape s)).property
  simp only [printStringPtr, hno, if_false, hstore0, Option.bind_eq_bind, Option.bind_some]
  simp only [hloop, Option.bind_some, hstore2, hstr]
  rfl

end Cjson
end Xlibc
