import Xlibc.Cjson.Text

/-!
# Xlibc.Cjson.ReadString

`parseString` on the text of a string.

* `unescapeLoop_round` : one round of the loop, a surrogate with its other half at once.
* `parseString_pieces` : every string is read as what it stands for, inside its memory.
-/

namespace Xlibc
namespace Cjson

/-! ## Reading a string -/

theorem unescape_esc {c : Byte} (h : c ≠ 'u'.toUInt8) (rest : List Byte) :
    unescape (c :: rest) = some (c :: rest, [escaped c]) := by
  simp only [unescape, deref, List.headD_cons, escaped, h, if_false]
  split_ifs <;> rfl

theorem unescapeHex_eq (ptr : List Byte) :
    unescapeHex ptr = (advance ptr 4).bind fun after =>
      if IsLow (parseHex4 (ptr.drop 1)) ∨ parseHex4 (ptr.drop 1) = 0 then some (after, [])
      else if IsHigh (parseHex4 (ptr.drop 1)) then
        if deref (after.drop 1) ≠ '\\'.toUInt8 ∨ deref (after.drop 2) ≠ 'u'.toUInt8 then some (after, [])
        else (advance after 6).bind fun last =>
          if parseHex4 (after.drop 3) < 0xDC00 ∨ parseHex4 (after.drop 3) > 0xDFFF then some (last, [])
          else some (last, utf8Bytes (0x10000 + (((parseHex4 (ptr.drop 1) &&& 0x3FF) <<< 10) |||
            (parseHex4 (after.drop 3) &&& 0x3FF))))
      else some (after, utf8Bytes (parseHex4 (ptr.drop 1))) := rfl

theorem advance_unit (a b c d e : Byte) (rest : List Byte) :
    advance (a :: b :: c :: d :: e :: rest) 4 = some (e :: rest) := by
  simp [advance]

/-- A unit that is no high surrogate. -/
theorem unescape_unit {a b c d : HexDigit} (h : ¬ IsHigh (unitValue a b c d)) (rest : List Byte) :
    unescape ('u'.toUInt8 :: a.val :: b.val :: c.val :: d.val :: rest) =
      some (d.val :: rest, decodeFrom none [Piece.unit a b c d]) := by
  have hlt := unitValue_lt a b c d
  have hhex : unescape ('u'.toUInt8 :: a.val :: b.val :: c.val :: d.val :: rest) =
      unescapeHex ('u'.toUInt8 :: a.val :: b.val :: c.val :: d.val :: rest) := rfl
  rw [hhex, unescapeHex_eq, advance_unit]
  simp only [List.drop_succ_cons, List.drop_zero, parseHex4_unit, Option.bind_some, decodeFrom, h, if_false,
    List.append_nil]
  by_cases hno : IsLow (unitValue a b c d) ∨ unitValue a b c d = 0
  · rw [if_pos hno, if_pos hno]
  · rw [if_neg hno, if_neg hno, utf8Bytes_eq (unit_scalar hlt hno h)]

/-- A high surrogate and no unit behind it. -/
theorem unescape_high {a b c d : HexDigit} (h : IsHigh (unitValue a b c d)) {rest : List Byte}
    (hrest : deref rest ≠ '\\'.toUInt8 ∨ deref (rest.drop 1) ≠ 'u'.toUInt8) :
    unescape ('u'.toUInt8 :: a.val :: b.val :: c.val :: d.val :: rest) = some (d.val :: rest, []) := by
  have hhex : unescape ('u'.toUInt8 :: a.val :: b.val :: c.val :: d.val :: rest) =
      unescapeHex ('u'.toUInt8 :: a.val :: b.val :: c.val :: d.val :: rest) := rfl
  rw [hhex, unescapeHex_eq, advance_unit]
  simp only [List.drop_succ_cons, List.drop_zero, parseHex4_unit, Option.bind_some]
  rw [if_neg (high_not_low h), if_pos h, if_pos hrest]

/-- A high surrogate takes the unit behind it, whatever it is. -/
theorem unescape_pair {a b c d e f g i : HexDigit} (h : IsHigh (unitValue a b c d)) (rest : List Byte) :
    unescape ('u'.toUInt8 :: a.val :: b.val :: c.val :: d.val :: '\\'.toUInt8 :: 'u'.toUInt8 :: e.val :: f.val ::
        g.val :: i.val :: rest) =
      some (i.val :: rest, if IsLow (unitValue e f g i) then utf8 (pair (unitValue a b c d) (unitValue e f g i))
        else []) := by
  have hhex : unescape ('u'.toUInt8 :: a.val :: b.val :: c.val :: d.val :: '\\'.toUInt8 :: 'u'.toUInt8 :: e.val ::
      f.val :: g.val :: i.val :: rest) = unescapeHex ('u'.toUInt8 :: a.val :: b.val :: c.val :: d.val ::
        '\\'.toUInt8 :: 'u'.toUInt8 :: e.val :: f.val :: g.val :: i.val :: rest) := rfl
  have hadv : advance (d.val :: '\\'.toUInt8 :: 'u'.toUInt8 :: e.val :: f.val :: g.val :: i.val :: rest) 6 =
      some (i.val :: rest) := by
    simp [advance]
  rw [hhex, unescapeHex_eq, advance_unit]
  simp only [List.drop_succ_cons, List.drop_zero, parseHex4_unit, Option.bind_some]
  rw [if_neg (high_not_low h), if_pos h, if_neg (by simp [deref]), hadv, Option.bind_some]
  by_cases hlow : IsLow (unitValue e f g i)
  · obtain ⟨hscalar, -⟩ := pair_scalar h hlow
    rw [if_pos hlow, surrogates_eq h hlow, utf8Bytes_eq hscalar]
    unfold IsLow at hlow
    rw [if_neg (by omega)]
  · rw [if_neg hlow]
    unfold IsLow at hlow
    rw [if_pos (by omega)]

/-- A byte that stands for itself. -/
theorem unescapeLoop_raw {c : Byte}
    (h : c ≠ '"'.toUInt8 ∧ c ≠ '\\'.toUInt8 ∧ c ≠ 0) (fuel : Nat) (ptr out : List Byte)
    (n : Nat) : unescapeLoop (fuel + 1) (c :: ptr) out n =
      (storeBytes out n [c]).bind fun out => unescapeLoop fuel ptr out (n + 1) := by
  obtain ⟨hquote, hback, hzero⟩ := h
  have hadv : advance (c :: ptr) 1 = some ptr := by simp [advance]
  simp only [unescapeLoop, deref, List.headD_cons, hquote, hzero, or_self, if_false, ne_eq, hback, not_false_eq_true,
    if_true, hadv, Option.bind_eq_bind, Option.bind_some]

/-- A backslash and what is behind it. -/
theorem unescapeLoop_backslash {ptr ptr' bytes : List Byte} {last : Byte}
    (h : unescape ptr = some (last :: ptr', bytes))
    (fuel : Nat) (out : List Byte) (n : Nat) : unescapeLoop (fuel + 1) ('\\'.toUInt8 :: ptr) out n =
      (storeBytes out n bytes).bind fun out => unescapeLoop fuel ptr' out (n + bytes.length) := by
  have hadv : advance ('\\'.toUInt8 :: ptr) 1 = some ptr := by simp [advance]
  have hlast : advance (last :: ptr') 1 = some ptr' := by simp [advance]
  have hno : ¬ ('\\'.toUInt8 = '"'.toUInt8 ∨ '\\'.toUInt8 = 0) := by decide
  simp only [unescapeLoop, deref, List.headD_cons, hno, if_false, ne_eq, not_true_eq_false, hadv, h, hlast,
    Option.bind_eq_bind, Option.bind_some]

/-- One round of the loop reads some of the pieces, and writes what they stand for. -/
theorem unescapeLoop_round (p : Piece) (pieces : List Piece) {tail : List Byte} (ht : Ends tail) :
    ∃ first rest, p :: pieces = first ++ rest ∧ first ≠ [] ∧
      decode (p :: pieces) = decode first ++ decode rest ∧
      ∀ fuel out n, unescapeLoop (fuel + 1) (textOf (p :: pieces) ++ tail) out n =
        (storeBytes out n (decode first)).bind fun out =>
          unescapeLoop fuel (textOf rest ++ tail) out (n + (decode first).length) := by
  cases p with
  | raw c h =>
    exact ⟨[.raw c h], pieces, rfl, by simp, rfl, fun fuel out n => unescapeLoop_raw h fuel _ out n⟩
  | esc c h =>
    exact ⟨[.esc c h], pieces, rfl, by simp, rfl,
      fun fuel out n => unescapeLoop_backslash (unescape_esc h.1 (textOf pieces ++ tail)) fuel out n⟩
  | unit a b c d =>
    by_cases hhigh : IsHigh (unitValue a b c d)
    · have hcont : decode (.unit a b c d :: pieces) = decodeFrom (some (unitValue a b c d)) pieces := by
        rw [decode, decodeFrom, if_neg (high_not_low hhigh), if_pos hhigh]
      have hlone : decode [.unit a b c d] = [] := by
        rw [decode, decodeFrom, if_neg (high_not_low hhigh), if_pos hhigh, decodeFrom]
      -- whether the next piece is a unit too
      have hcases : (∃ e f g i rest, pieces = .unit e f g i :: rest) ∨
          ((∀ e f g i rest, pieces ≠ .unit e f g i :: rest) ∧ (deref (textOf pieces ++ tail) ≠ '\\'.toUInt8 ∨
            deref ((textOf pieces ++ tail).drop 1) ≠ 'u'.toUInt8)) := by
        cases pieces with
        | nil =>
          refine Or.inr ⟨by simp, Or.inl ?_⟩
          rcases ht with ht | ht
          · rw [textOf, List.flatMap_nil, List.nil_append, ht]
            decide
          · rw [ht]
            decide
        | cons q pieces =>
          cases q with
          | raw c h => exact Or.inr ⟨by simp, Or.inl h.2.1⟩
          | esc c h => exact Or.inr ⟨by simp, Or.inr h.1⟩
          | unit e f g i => exact Or.inl ⟨e, f, g, i, pieces, rfl⟩
      rcases hcases with ⟨e, f, g, i, rest, rfl⟩ | ⟨hno, hderef⟩
      · have hpair : decode [.unit a b c d, .unit e f g i] =
            if IsLow (unitValue e f g i) then utf8 (pair (unitValue a b c d) (unitValue e f g i)) else [] := by
          rw [decode, decodeFrom, if_neg (high_not_low hhigh), if_pos hhigh, decodeFrom, decodeFrom, List.append_nil]
        refine ⟨[.unit a b c d, .unit e f g i], rest, rfl, by simp, ?_, fun fuel out n => ?_⟩
        · rw [hcont, hpair, decodeFrom]
          rfl
        · rw [hpair]
          exact unescapeLoop_backslash (unescape_pair hhigh (textOf rest ++ tail)) fuel out n
      · refine ⟨[.unit a b c d], pieces, rfl, by simp, ?_, fun fuel out n => ?_⟩
        · rw [hcont, hlone, List.nil_append, decodeFrom_some_none _ hno]
          rfl
        · rw [hlone]
          exact unescapeLoop_backslash (unescape_high hhigh hderef) fuel out n
    · refine ⟨[.unit a b c d], pieces, rfl, by simp, ?_,
        fun fuel out n => unescapeLoop_backslash (unescape_unit hhigh (textOf pieces ++ tail)) fuel out n⟩
      simp only [decode, decodeFrom, hhigh, if_false]
      split
      · rfl
      · rw [List.append_nil]

theorem unescapeLoop_pieces {tail : List Byte} (ht : Ends tail) {size : Nat} (pieces : List Piece) {fuel n : Nat}
    {out text : List Byte} (hfuel : pieces.length < fuel) (hw : Written size out text) (hn : text.length = n)
    (hfit : n + widthOf pieces ≤ size) :
    ∃ out', unescapeLoop fuel (textOf pieces ++ tail) out n = some (tail, out', n + (decode pieces).length) ∧
      Written size out' (text ++ decode pieces) := by
  induction fuel generalizing pieces n out text with
  | zero => omega
  | succ fuel ih =>
    cases pieces with
    | nil =>
      refine ⟨out, ?_, by rwa [show decode [] = [] by rfl, List.append_nil]⟩
      have hend : deref tail = '"'.toUInt8 ∨ deref tail = 0 := ht.imp_right fun h => by rw [h]; rfl
      simp only [textOf, List.flatMap_nil, List.nil_append, unescapeLoop, hend, if_true]
      rfl
    | cons p pieces =>
      obtain ⟨first, rest, hsplit, hne, hdecode, hround⟩ := unescapeLoop_round p pieces ht
      have hlen : first.length + rest.length = (p :: pieces).length := by rw [hsplit, List.length_append]
      have hpos := List.length_pos_iff.mpr hne
      have hwidth := decodeFrom_length first none
      rw [hsplit, widthOf_append] at hfit
      obtain ⟨out', hstore, hw'⟩ := hw.store (decode first) hn (by unfold decode; omega)
      obtain ⟨out'', hloop, hw''⟩ := ih rest (by omega) hw' (by rw [List.length_append, hn])
        (by unfold decode; omega)
      refine ⟨out'', ?_, by rwa [hdecode, ← List.append_assoc]⟩
      rw [hround, hstore, Option.bind_some, hloop, hdecode, List.length_append, Nat.add_assoc]

/-- **Every string is read as what it stands for.** Whatever was in the memory, nothing is written behind its end, and
the pointer that is returned is behind the closing quotation mark, or at the end of a text without one. -/
theorem parseString_pieces (fresh : Nat → Byte) (pieces : List Piece) {tail : List Byte} (ht : Ends tail)
    (hlen : (textOf pieces).length < intMax) :
    parseString fresh ('"'.toUInt8 :: textOf pieces ++ tail) = some (.ok (decoded pieces, tail.drop 1)) := by
  have hwidth := widthOf_le pieces
  have hsize := decodeFrom_length pieces none
  have hscan := scanLen_pieces pieces ht 0
  rw [Nat.zero_add] at hscan
  obtain ⟨out, hloop, hw⟩ := unescapeLoop_pieces ht pieces
    (show pieces.length < ('"'.toUInt8 :: textOf pieces ++ tail).length by
      have := length_le_textOf pieces
      simp only [List.cons_append, List.length_cons, List.length_append]
      omega)
    (Written.start (xmalloc_length fresh (widthOf pieces + 1))) rfl (by simp)
  rw [List.nil_append] at hw
  obtain ⟨out', hstore, hw'⟩ := hw.store [0] rfl (by simp only [List.length_singleton, decode]; omega)
  have hstr := hw'.string (decodeFrom_noNul pieces none (by simp))
  have hptr : (if deref tail = '"'.toUInt8 then tail.drop 1 else tail) = tail.drop 1 := by
    rcases ht with ht | ht
    · rw [if_pos ht]
    · rw [ht]
      rfl
  have hno : ¬ intMax ≤ widthOf pieces := by omega
  rw [List.length_nil, Nat.zero_add] at hloop
  rw [List.cons_append] at hloop ⊢
  have hquote : deref ('"'.toUInt8 :: (textOf pieces ++ tail)) = '"'.toUInt8 := rfl
  have hdrop : ('"'.toUInt8 :: (textOf pieces ++ tail)).drop 1 = textOf pieces ++ tail := rfl
  rw [← hptr]
  simp only [parseString, hquote, hdrop, ne_eq, not_true_eq_false, if_false, hscan, Option.bind_eq_bind,
    Option.bind_some, hno, hloop, hstore, hstr]
  rfl

end Cjson
end Xlibc
