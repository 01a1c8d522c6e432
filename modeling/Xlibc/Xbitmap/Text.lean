import Xlibc.Xbitmap.Bounds

/-!
# Xlibc.Xbitmap.Text

Bitmaps as text. A word is eight hexadecimal digits, the last word first.

* `str2mapFrom_accepted`, `str2mapFrom_rejected`, `str2mapFrom_overrun` : the three ends of the loop of
  `bitmap_str2map`; `filled` is the bitmap on the way.
* `str2map_exact_iff` : for which strings exactly eight digits a word are accepted, and any other string
  changes nothing.
* `bitmapMap2str_spec` : the text of a bitmap.
* `text_round_trip_iff` : when it is read back.
-/

namespace Xlibc
namespace Xbitmap

variable {w nbits : Nat} {ws old : List (BitVec w)} {s : List Byte} {g : Nat}

/-- The word that group `g` is read as, whether or not the group is accepted. -/
def groupWord (w : Nat) (s : List Byte) (g : Nat) : BitVec w := (strtoul w (group s g)).1

/-- `strtoul` reads group `g` to its end. -/
def Accepted (w : Nat) (s : List Byte) (g : Nat) : Prop := (strtoul w (group s g)).2 = []

instance (w : Nat) (s : List Byte) (g : Nat) : Decidable (Accepted w s g) :=
  inferInstanceAs (Decidable (_ = _))

/-- Exactly eight hexadecimal digits for each of `size` words. -/
def IsHexText (size : Nat) (s : List Byte) : Prop := s.length = 8 * size ∧ ∀ c ∈ s, isxdigit c = true

/-- Hexadecimal digits for all words are read into the words, the last group into the first word; any
other string is refused and changes nothing. -/
def ReadsExactly (old : List (BitVec w)) (nbits : Nat) (s rest : List Byte) : Prop :=
  ∃ r bitmap, bitmapStr2map old nbits (s ++ 0 :: rest) = some (r, bitmap) ∧
    (r = 0 ↔ IsHexText (bitsToLongs w nbits) s) ∧
    (IsHexText (bitsToLongs w nbits) s → bitmap.length = bitsToLongs w nbits ∧
      ∀ k < bitsToLongs w nbits, ∃ x, bitmap[k]? = some x ∧
        x.toNat = hexNumber 0 (group s (bitsToLongs w nbits - 1 - k))) ∧
    (¬ IsHexText (bitsToLongs w nbits) s → r = -1 ∧ bitmap = old)

/-! ## Reading -/

/-- The bitmap when `g` groups have been stored, from its end on. -/
def filled (old : List (BitVec w)) (s : List Byte) (g : Nat) : List (BitVec w) :=
  old.take (old.length - g) ++ ((List.range g).map (groupWord w s)).reverse

theorem filled_zero (old : List (BitVec w)) (s : List Byte) : filled old s 0 = old := by simp [filled]

theorem filled_length (hg : g ≤ old.length) : (filled old s g).length = old.length := by
  simp [filled]
  omega

theorem filled_stored {t : Nat} (hg : g ≤ old.length) (ht : t < g) :
    (filled old s g)[old.length - t - 1]? = some (groupWord w s t) := by
  have htake : (old.take (old.length - g)).length = old.length - g := by rw [List.length_take]; omega
  have hrev : g - 1 - (g - 1 - t) = t := by omega
  rw [filled, List.getElem?_append_right (by omega), htake,
    show old.length - t - 1 - (old.length - g) = g - 1 - t by omega,
    List.getElem?_reverse (by simp; omega)]
  simp [hrev, ht]

theorem filled_step (hg : g < old.length) :
    modifyWord (filled old s g) (old.length - g - 1) (fun _ => groupWord w s g) =
      some (filled old s (g + 1)) := by
  have hlen := filled_length (s := s) (Nat.le_of_lt hg)
  have hlt : old.length - g - 1 < (filled old s g).length := by omega
  have htake : (old.take (old.length - g - 1)).length = old.length - g - 1 := by
    rw [List.length_take]
    omega
  have hsplit : old.take (old.length - g) =
      old.take (old.length - g - 1) ++ [old[old.length - g - 1]] := by
    rw [← List.take_succ_eq_append_getElem (by omega), show old.length - g - 1 + 1 = old.length - g by omega]
  rw [modifyWord, List.getElem?_eq_getElem hlt, Option.bind_eq_bind, Option.bind_some]
  congr 1
  rw [filled, filled, hsplit, List.append_assoc, List.set_append_right _ _ (by omega), htake, Nat.sub_self,
    List.range_succ, List.map_append, List.reverse_append, Nat.sub_add_eq]
  rfl

/-- The words that were there before are kept only by storing them again. -/
theorem filled_eq_old (hg : g ≤ old.length)
    (h : ∀ t < g, old[old.length - t - 1]? = some (groupWord w s t)) : filled old s g = old := by
  induction g with
  | zero => exact filled_zero old s
  | succ g ih =>
    have hsame := ih (by omega) fun t ht => h t (by omega)
    have hstep := filled_step (s := s) (show g < old.length by omega)
    obtain ⟨hi, hword⟩ := List.getElem?_eq_some_iff.mp (h g (by omega))
    rw [hsame, modifyWord, h g (by omega), Option.bind_eq_bind, Option.bind_some, ← hword,
      List.set_getElem_self] at hstep
    exact (Option.some.inj hstep).symm

section Loop

variable {left : Nat}

theorem str2mapFrom_step (hg : g < old.length) :
    str2mapFrom s old.length g (left + 1) (filled old s g) =
      if Accepted w s g then str2mapFrom s old.length (g + 1) left (filled old s (g + 1))
      else some (-1, filled old s (g + 1)) := by
  have hin : ¬ old.length < g + 1 := by omega
  have hstep := filled_step (s := s) hg
  unfold groupWord at hstep
  by_cases hacc : Accepted w s g
  · have hend : ¬ (strtoul w (group s g)).2 ≠ [] := not_not.mpr hacc
    rw [if_pos hacc, str2mapFrom, if_neg hin, hstep, Option.bind_eq_bind, Option.bind_some, if_neg hend]
  · have hend : (strtoul w (group s g)).2 ≠ [] := hacc
    rw [if_neg hacc, str2mapFrom, if_neg hin, hstep, Option.bind_eq_bind, Option.bind_some, if_pos hend]

theorem str2mapFrom_accepted (hle : g + left ≤ old.length)
    (hacc : ∀ t, g ≤ t → t < g + left → Accepted w s t) :
    str2mapFrom s old.length g left (filled old s g) = some (0, filled old s (g + left)) := by
  induction left generalizing g with
  | zero => rfl
  | succ left ih =>
    rw [str2mapFrom_step (by omega), if_pos (hacc g (by omega) (by omega)),
      ih (by omega) fun t h1 h2 => hacc t (by omega) (by omega), Nat.add_right_comm, Nat.add_assoc]

theorem str2mapFrom_rejected {m : Nat} (hgm : g ≤ m) (hm : m < old.length) (hleft : m < g + left)
    (hacc : ∀ t, g ≤ t → t < m → Accepted w s t) (hrej : ¬ Accepted w s m) :
    str2mapFrom s old.length g left (filled old s g) = some (-1, filled old s (m + 1)) := by
  induction left generalizing g with
  | zero => omega
  | succ left ih =>
    rw [str2mapFrom_step (by omega)]
    rcases Nat.eq_or_lt_of_le hgm with rfl | hlt
    · rw [if_neg hrej]
    · rw [if_pos (hacc g (by omega) hlt)]
      exact ih (by omega) (by omega) fun t h1 h2 => hacc t (by omega) h2

/-- One group too many: the word in front of the bitmap is written. -/
theorem str2mapFrom_overrun (hg : g ≤ old.length) (hleft : old.length < g + left)
    (hacc : ∀ t, g ≤ t → t < old.length → Accepted w s t) :
    str2mapFrom s old.length g left (filled old s g) = none := by
  induction left generalizing g with
  | zero => omega
  | succ left ih =>
    rcases Nat.eq_or_lt_of_le hg with heq | hlt
    · rw [str2mapFrom, if_pos (by omega)]
      rfl
    · rw [str2mapFrom_step hlt, if_pos (hacc g (by omega) hlt)]
      exact ih (by omega) (by omega) fun t h1 h2 => hacc t (by omega) h2

/-- No run over more groups than words ends well. -/
theorem str2mapFrom_ok {size : Nat} {bitmap bitmap' : List (BitVec w)}
    (h : str2mapFrom s size g left bitmap = some (0, bitmap')) : left = 0 ∨ g + left ≤ size := by
  induction left generalizing g bitmap with
  | zero => exact .inl rfl
  | succ left ih =>
    right
    rw [str2mapFrom] at h
    by_cases hsize : size < g + 1
    · simp [hsize] at h
    · rw [if_neg hsize] at h
      cases hm : modifyWord bitmap (size - g - 1) fun _ => (strtoul w (group s g)).1 with
      | none => simp [hm] at h
      | some bitmap1 =>
        simp only [hm, Option.bind_eq_bind, Option.bind_some] at h
        split at h
        · cases h
        · rcases ih h with h0 | hle <;> omega

end Loop

/-- Either every group of a word is accepted, or there is a first one that is not. -/
theorem accepted_or (w : Nat) (s : List Byte) (size : Nat) :
    (∀ t < size, Accepted w s t) ∨ ∃ m < size, (∀ t < m, Accepted w s t) ∧ ¬ Accepted w s m := by
  cases h : (List.range size).find? (fun t => decide ¬ Accepted w s t) with
  | none => exact .inl fun t ht => by simpa using List.find?_range_eq_none.mp h t ht
  | some m =>
    obtain ⟨hrej, hmem, hacc⟩ := List.find?_range_eq_some.mp h
    exact .inr ⟨m, List.mem_range.mp hmem, fun t ht => by simpa using hacc t ht, by simpa using hrej⟩

/-- Eight digits are accepted and are below `2^32`. -/
theorem IsHexText.group {size : Nat} (hw : 32 ≤ w) (h : IsHexText size s) {t : Nat} (ht : t < size) :
    Accepted w s t ∧ (groupWord w s t).toNat = hexNumber 0 (group s t) := by
  have hlen : (Xbitmap.group s t).length = 8 := by
    rw [Xbitmap.group, List.length_take, List.length_drop, h.1]
    omega
  have hne : Xbitmap.group s t ≠ [] := fun hnil => by
    rw [hnil] at hlen
    cases hlen
  have hdigits : ∀ c ∈ Xbitmap.group s t, isxdigit c = true := fun c hc =>
    h.2 c (List.mem_of_mem_drop (List.mem_of_mem_take hc))
  have hlt : hexNumber 0 (Xbitmap.group s t) < 2 ^ w := by
    have hbound := hexNumber_lt (Xbitmap.group s t) 0
    rw [hlen] at hbound
    have hpow : 2 ^ 32 ≤ 2 ^ w := Nat.pow_le_pow_right (by omega) hw
    omega
  rw [Accepted, groupWord, strtoul_digits hne hdigits hlt]
  exact ⟨rfl, by rw [BitVec.toNat_ofNat, Nat.mod_eq_of_lt hlt]⟩

theorem bitmapStr2map_eq (old : List (BitVec w)) (nbits : Nat) (hs : (0 : Byte) ∉ s) (rest : List Byte) :
    bitmapStr2map old nbits (s ++ 0 :: rest) =
      if (i32OfNat s.length).tdiv 8 ≠ bitsToLongs w nbits then some (-1, old)
      else str2mapFrom s (bitsToLongs w nbits) 0 (((i32OfNat s.length).toNat + 7) / 8) old := by
  rw [bitmapStr2map, cstr_append_zero hs, Option.bind_eq_bind, Option.bind_some]

/-- A text of exactly the digits is read whole. -/
theorem bitmapStr2map_text (hw : 32 ≤ w) (hl : old.length = bitsToLongs w nbits)
    (hsmall : 8 * bitsToLongs w nbits < 2 ^ 31) (h : IsHexText (bitsToLongs w nbits) s)
    (hs : (0 : Byte) ∉ s) (rest : List Byte) :
    bitmapStr2map old nbits (s ++ 0 :: rest) = some (0, filled old s old.length) := by
  have hlen : i32OfNat s.length = (8 * bitsToLongs w nbits : Nat) := by
    rw [h.1, i32OfNat_of_lt hsmall]
  have hdiv : ¬ (i32OfNat s.length).tdiv 8 ≠ bitsToLongs w nbits := by
    rw [hlen, Int.tdiv_eq_ediv_of_nonneg (by omega)]
    omega
  have hrounds : ((i32OfNat s.length).toNat + 7) / 8 = old.length := by
    rw [hlen, Int.toNat_natCast]
    omega
  have hrun : str2mapFrom s old.length 0 old.length (filled old s 0) =
      some (0, filled old s (0 + old.length)) :=
    str2mapFrom_accepted (by omega) fun t _ ht => (h.group hw (by omega)).1
  rw [filled_zero, Nat.zero_add] at hrun
  rw [bitmapStr2map_eq old nbits hs, if_neg hdiv, hrounds, ← hl, hrun]

/-- A text of exactly the digits leaves in every word the number its digits stand for. -/
theorem readsExactly_text (hw : 32 ≤ w) (hl : old.length = bitsToLongs w nbits)
    (hsmall : 8 * bitsToLongs w nbits < 2 ^ 31) (htext : IsHexText (bitsToLongs w nbits) s)
    (hs : (0 : Byte) ∉ s) (rest : List Byte) : ReadsExactly old nbits s rest := by
  have hread := bitmapStr2map_text hw hl hsmall htext hs rest
  refine ⟨0, _, hread, by simp [htext], fun _ => ⟨by rw [filled_length (Nat.le_refl _), hl], fun k hk => ?_⟩,
    fun hnot => absurd htext hnot⟩
  have hstored := filled_stored (s := s) (Nat.le_refl old.length) (show old.length - 1 - k < old.length by omega)
  rw [show old.length - (old.length - 1 - k) - 1 = k by omega] at hstored
  refine ⟨_, hstored, ?_⟩
  rw [hl]
  exact (htext.group hw (by omega)).2

/-- Where no group is refused the call is not refused: it succeeds, or leaves the bitmap. -/
theorem str2mapFrom_all {rounds : Nat} {r : Int} {bitmap : List (BitVec w)} (hle : old.length ≤ rounds)
    (hacc : ∀ t < old.length, Accepted w s t) (hrun : str2mapFrom s old.length 0 rounds old = some (r, bitmap)) :
    r = 0 := by
  have hall : ∀ t, 0 ≤ t → t < old.length → Accepted w s t := fun t _ ht => hacc t ht
  rcases Nat.eq_or_lt_of_le hle with rfl | hlt
  · have hok := str2mapFrom_accepted (s := s) (show 0 + old.length ≤ old.length by omega) fun t h0 ht =>
      hall t h0 (by omega)
    rw [filled_zero, hrun] at hok
    cases hok
    rfl
  · have hfault := str2mapFrom_overrun (Nat.zero_le _) (show old.length < 0 + rounds by omega) hall
    rw [filled_zero, hrun] at hfault
    cases hfault

/-- There is only one first group that is refused. -/
theorem first_refused_unique {m m' : Nat} (hacc : ∀ t < m, Accepted w s t) (hrej : ¬ Accepted w s m)
    (hacc' : ∀ t < m', Accepted w s t) (hrej' : ¬ Accepted w s m') : m = m' := by
  rcases Nat.lt_trichotomy m m' with hlt | he | hlt
  · exact absurd (hacc' m hlt) hrej
  · exact he
  · exact absurd (hacc m' hlt) hrej'

/-- **What `bitmap_str2map` accepts.** It does as it should with eight digits for each word, with a
string whose length does not belong to that many words, and with a string whose first refused group is
preceded by what the words hold already, the refused group included. Any other string is accepted though
it is no text (`strtoul` takes blanks, a sign and `0x`), changes words before it is refused, or has one
to seven characters too many, which are stored in front of the bitmap. -/
theorem str2map_exact_iff (hw : w = 32 ∨ w = 64) (h1 : 1 ≤ nbits) (hn : nbits ≤ intMax)
    (hl : old.length = bitsToLongs w nbits) (hs : (0 : Byte) ∉ s) (rest : List Byte) :
    ReadsExactly old nbits s rest ↔
      IsHexText (bitsToLongs w nbits) s ∨
      (i32OfNat s.length).tdiv 8 ≠ bitsToLongs w nbits ∨
      ∃ m < bitsToLongs w nbits, (∀ t < m, Accepted w s t) ∧ ¬ Accepted w s m ∧
        ∀ t ≤ m, old[bitsToLongs w nbits - t - 1]? = some (groupWord w s t) := by
  have hw32 : 32 ≤ w := by omega
  have hpos := bitsToLongs_pos hw h1
  have hsmall : 8 * bitsToLongs w nbits < 2 ^ 31 := by
    unfold bitsToLongs
    unfold intMax at hn
    rcases hw with rfl | rfl <;> omega
  have heq := bitmapStr2map_eq old nbits hs rest
  by_cases htext : IsHexText (bitsToLongs w nbits) s
  · exact iff_of_true (readsExactly_text hw32 hl hsmall htext hs rest) (.inl htext)
  · by_cases hdiv : (i32OfNat s.length).tdiv 8 ≠ bitsToLongs w nbits
    · refine iff_of_true ?_ (.inr (.inl hdiv))
      rw [if_pos hdiv] at heq
      exact ⟨-1, old, heq, by simp [htext], fun h => absurd h htext, fun _ => ⟨rfl, rfl⟩⟩
    · rw [if_neg hdiv] at heq
      have hlen : old.length ≤ ((i32OfNat s.length).toNat + 7) / 8 := by
        have hsign : Int.sign 8 = 1 := rfl
        rw [Int.tdiv_eq_ediv, hsign] at hdiv
        split at hdiv <;> omega
      generalize ((i32OfNat s.length).toNat + 7) / 8 = rounds at heq hlen
      have hzero := filled_zero old s
      rcases accepted_or w s old.length with hacc | ⟨m, hm, hacc, hrej⟩
      · -- nothing is refused: the call succeeds or leaves the bitmap
        refine iff_of_false ?_ ?_
        · rintro ⟨r, bitmap, hrun, hr, -, -⟩
          rw [heq, ← hl] at hrun
          exact htext (hr.mp (str2mapFrom_all hlen hacc hrun))
        · rintro (h | h | ⟨m, hm, -, hrej, -⟩)
          · exact htext h
          · exact hdiv h
          · exact hrej (hacc m (by omega))
      · have hrun : str2mapFrom s old.length 0 rounds (filled old s 0) = some (-1, filled old s (m + 1)) :=
          str2mapFrom_rejected (Nat.zero_le m) hm (by omega) (fun t _ ht => hacc t ht) hrej
        rw [hzero, hl] at hrun
        constructor
        · rintro ⟨r, bitmap, hcall, -, -, hkeep⟩
          rw [heq, hrun] at hcall
          cases hcall
          have hsame := (hkeep htext).2
          refine .inr (.inr ⟨m, by omega, hacc, hrej, fun t ht => ?_⟩)
          have hstored := filled_stored (s := s) (show m + 1 ≤ old.length by omega) (show t < m + 1 by omega)
          rwa [hsame, hl] at hstored
        · rintro (h | h | ⟨m', hm', hacc', hrej', hwords⟩)
          · exact absurd h htext
          · exact absurd h hdiv
          · obtain rfl := first_refused_unique hacc hrej hacc' hrej'
            have hkeep : filled old s (m + 1) = old := filled_eq_old (by omega) fun t ht => by
              rw [hl]
              exact hwords t (by omega)
            rw [hkeep] at hrun
            exact ⟨-1, old, by rw [heq, hrun], by simp [htext], fun h => absurd h htext,
              fun _ => ⟨rfl, rfl⟩⟩

/-- Seven zeros and an `a`. -/
theorem str2map_exact_ten :
    ReadsExactly [5#32] 32 (List.replicate 7 '0'.toUInt8 ++ ['a'.toUInt8]) [] := by
  refine (str2map_exact_iff (.inl rfl) (Nat.le_add_left 1 31) (by decide) rfl (by decide) []).mpr
    (.inl ⟨rfl, fun c hc => ?_⟩)
  rcases List.mem_append.mp hc with hc | hc
  · rw [List.eq_of_mem_replicate hc]
    rfl
  · rw [List.mem_singleton.mp hc]
    rfl

/-- A blank and seven digits are accepted; seven digits and a `g` are refused, and the word is lost. -/
theorem str2map_not_exact :
    bitmapStr2map [5#32] 32 (' '.toUInt8 :: List.replicate 7 '1'.toUInt8 ++ [0]) =
        some (0, [0x1111111#32]) ∧
      bitmapStr2map [5#32] 32 (List.replicate 7 '0'.toUInt8 ++ ['g'.toUInt8] ++ [0]) = some (-1, [0#32]) ∧
      ¬ ReadsExactly [5#32] 32 (List.replicate 7 '0'.toUInt8 ++ ['g'.toUInt8]) [] := by
  have hlost : bitmapStr2map [5#32] 32 (List.replicate 7 '0'.toUInt8 ++ ['g'.toUInt8] ++ [0]) =
      some (-1, [0#32]) := by decide
  refine ⟨by decide, hlost, ?_⟩
  rintro ⟨r, bitmap, hrun, -, -, hkeep⟩
  rw [hlost] at hrun
  cases hrun
  have hnot : ¬ IsHexText (bitsToLongs 32 32) (List.replicate 7 '0'.toUInt8 ++ ['g'.toUInt8]) := fun h =>
    absurd (h.2 'g'.toUInt8 (by decide)) (by decide)
  exact absurd (hkeep hnot).2 (by decide)

/-! ## Writing -/

/-- The text of a bitmap. -/
def mapText (ws : List (BitVec w)) : List Byte := ws.reverse.flatMap hex08

/-- The text in a buffer that is long enough reads back as the words, whatever the other bitmap held. -/
def TextRoundTrips (ws : List (BitVec w)) (nbits : Nat) : Prop :=
  ∀ (str : List Byte) (old : List (BitVec w)), (mapText ws).length < str.length →
    old.length = ws.length →
    ∃ len str', bitmapMap2str str ws nbits = some (len, str') ∧
      bitmapStr2map old nbits str' = some (0, ws)

theorem isxdigit_hex08 (x : BitVec w) : ∀ c ∈ hex08 x, isxdigit c = true :=
  isxdigit_hexDigits _ _

theorem isxdigit_mapText : ∀ c ∈ mapText ws, isxdigit c = true := by
  intro c hc
  obtain ⟨x, -, hx⟩ := List.mem_flatMap.mp hc
  exact isxdigit_hex08 x c hx

theorem zero_notMem_mapText : (0 : Byte) ∉ mapText ws := fun h =>
  (isxdigit_plain (isxdigit_mapText 0 h)).2.2.2.2.2 rfl

theorem map2strFrom_spec (ws : List (BitVec w)) : ∀ (i outLen : Nat) (str : List Byte), i ≤ ws.length →
    outLen ≤ str.length →
    outLen + (mapText (ws.take i)).length < str.length →
    ∃ str', map2strFrom ws i outLen str = some (outLen + (mapText (ws.take i)).length, str') ∧
      str'.length = str.length ∧
      str'.take (outLen + (mapText (ws.take i)).length) = str.take outLen ++ mapText (ws.take i) := by
  intro i
  induction i with
  | zero =>
    intro outLen str _ _ _
    exact ⟨str, by simp [map2strFrom, mapText], rfl, by simp [mapText]⟩
  | succ i ih =>
    intro outLen str hi hout hroom
    have hword : ws[i]? = some ws[i] := List.getElem?_eq_getElem (by omega)
    have htext : mapText (ws.take (i + 1)) = hex08 ws[i] ++ mapText (ws.take i) := by
      rw [mapText, List.take_succ_eq_append_getElem (by omega), List.reverse_append]
      rfl
    rw [htext, List.length_append] at hroom
    obtain ⟨str1, hstore⟩ : ∃ str1, storeBytes str outLen (hex08 ws[i] ++ [0]) = some str1 :=
      storeBytes_some (hex08 ws[i] ++ [0]) (by rw [List.length_append, List.length_singleton]; omega)
    have hlen1 := storeBytes_length hstore
    obtain ⟨str', hrun, hlen', htake⟩ := ih (outLen + (hex08 ws[i]).length) str1 (by omega) (by omega)
      (by omega)
    rw [take_storeBytes_append hstore] at htake
    refine ⟨str', ?_, by rw [hlen', hlen1], ?_⟩
    · rw [map2strFrom, hword, Option.bind_eq_bind, Option.bind_some, hstore, Option.bind_eq_bind,
        Option.bind_some, hrun, htext, List.length_append, Nat.add_assoc]
    · rw [htext, List.length_append, ← Nat.add_assoc, htake, List.append_assoc]

/-- A buffer that begins with a string and its terminator. -/
theorem string_at_start {str t : List Byte} (h : str.take (t.length + 1) = t ++ [0]) :
    ∃ rest, str = t ++ 0 :: rest :=
  ⟨str.drop (t.length + 1), by
    rw [← List.singleton_append, ← List.append_assoc, ← h, List.take_append_drop]⟩

theorem bitmapMap2str_spec (hw : w = 32 ∨ w = 64) (h1 : 1 ≤ nbits) (hl : ws.length = bitsToLongs w nbits)
    {str : List Byte} (hroom : (mapText ws).length < str.length) :
    ∃ rest, bitmapMap2str str ws nbits = some ((mapText ws).length, mapText ws ++ 0 :: rest) := by
  have hpos := bitsToLongs_pos hw h1
  by_cases hn : nbits ≤ 32
  · have hone : ws.length = 1 := by
      rw [hl, bitsToLongs]
      rcases hw with rfl | rfl <;> omega
    obtain ⟨x, rfl⟩ := List.length_eq_one_iff.mp hone
    have htext : mapText [x] = hex08 x := by simp [mapText]
    rw [htext] at hroom ⊢
    obtain ⟨str', hstore⟩ : ∃ str', storeBytes str 0 (hex08 x ++ [0]) = some str' :=
      storeBytes_some _ (by rw [List.length_append, List.length_singleton]; omega)
    have htake := take_storeBytes hstore
    rw [Nat.zero_add, List.length_append, List.length_singleton, List.take_zero, List.nil_append] at htake
    obtain ⟨rest, rfl⟩ := string_at_start htake
    refine ⟨rest, ?_⟩
    rw [bitmapMap2str, bitsPerLong, if_pos hn, List.getElem?_cons_zero, Option.bind_eq_bind,
      Option.bind_some, hstore, Option.bind_eq_bind, Option.bind_some]
  · obtain ⟨str1, hrun, hlen1, htake1⟩ := map2strFrom_spec ws ws.length 0 str (Nat.le_refl _)
      (Nat.zero_le _) (by rw [List.take_length]; omega)
    rw [List.take_length, Nat.zero_add] at hrun
    rw [List.take_length, Nat.zero_add, List.take_zero, List.nil_append] at htake1
    obtain ⟨str', hstore⟩ : ∃ str', storeBytes str1 (mapText ws).length [0] = some str' :=
      storeBytes_some _ (by rw [List.length_singleton]; omega)
    have htake := take_storeBytes hstore
    rw [List.length_singleton, htake1] at htake
    obtain ⟨rest, rfl⟩ := string_at_start htake
    refine ⟨rest, ?_⟩
    rw [bitmapMap2str, bitsPerLong, if_neg hn, ← hl, hrun, Option.bind_eq_bind, Option.bind_some]
    simp only [hstore, Option.bind_eq_bind, Option.bind_some]

/-! ## The round trip -/

theorem hex08_length_eq {x : BitVec w} (h : x.toNat < 2 ^ 32) : (hex08 x).length = 8 := by
  rw [hex08, printHex_eq (by omega) h, hexDigits_length]

theorem hex08_length_le (hw : w = 32 ∨ w = 64) (x : BitVec w) : (hex08 x).length ≤ 16 := by
  have hx : x.toNat < 2 ^ 64 := Nat.lt_of_lt_of_le x.isLt (Nat.pow_le_pow_right (by omega) (by omega))
  rw [hex08, printHex_length]
  rcases Nat.eq_zero_or_pos x.toNat with h0 | hpos
  · rw [h0]
    decide
  · have := (Nat.log2_lt (by omega)).mpr hx
    omega

theorem hex08_length_ge (x : BitVec w) : 8 ≤ (hex08 x).length := by
  rw [hex08, printHex_length]
  omega

theorem mapText_length_le (hw : w = 32 ∨ w = 64) (ws : List (BitVec w)) : (mapText ws).length ≤ 16 * ws.length := by
  induction ws with
  | nil => simp [mapText]
  | cons x ws ih =>
    have hx := hex08_length_le hw x
    unfold mapText at ih ⊢
    rw [List.reverse_cons, List.flatMap_append, List.length_append, List.flatMap_singleton,
      List.length_cons]
    omega

/-- Every word takes at least eight digits, and one that does not fit them takes more. -/
theorem mapText_length_ge (ws : List (BitVec w)) : 8 * ws.length ≤ (mapText ws).length ∧
    ((mapText ws).length = 8 * ws.length → ∀ x ∈ ws, x.toNat < 2 ^ 32) := by
  induction ws with
  | nil => exact ⟨Nat.zero_le _, fun _ x hx => absurd hx List.not_mem_nil⟩
  | cons x ws ih =>
    obtain ⟨hge, hall⟩ := ih
    have hx := hex08_length_ge x
    have hlen : (mapText (x :: ws)).length = (mapText ws).length + (hex08 x).length := by
      rw [mapText, List.reverse_cons, List.flatMap_append, List.length_append, List.flatMap_singleton]
      rfl
    rw [hlen, List.length_cons]
    refine ⟨by omega, fun heq y hy => ?_⟩
    rcases List.mem_cons.mp hy with rfl | hy
    · by_contra hbig
      have : 8 < (hex08 y).length := printHex_longer (Nat.le_of_not_lt hbig)
      omega
    · exact hall (by omega) y hy

/-- Group `g` of words of eight digits is the text of word `g`. -/
theorem group_flatMap {l : List (BitVec w)} (hl : ∀ x ∈ l, (hex08 x).length = 8) {x : BitVec w}
    (hx : l[g]? = some x) : group (l.flatMap hex08) g = hex08 x := by
  induction l generalizing g with
  | nil => cases hx
  | cons y l ih =>
    have hy := hl y (by simp)
    rw [group, List.flatMap_cons]
    cases g with
    | zero =>
      cases hx
      rw [Nat.mul_zero, List.drop_zero]
      exact List.take_left' hy
    | succ g =>
      rw [show 8 * (g + 1) = (hex08 y).length + 8 * g by omega, ← List.drop_drop, List.drop_left]
      exact ih (fun z hz => hl z (by simp [hz])) (by simpa using hx)

/-- The words that are read from the text of a bitmap are its own. -/
theorem filled_mapText (hl : old.length = ws.length) (h : ∀ x ∈ ws, x.toNat < 2 ^ 32) :
    filled old (mapText ws) old.length = ws := by
  have hwords : (List.range ws.length).map (groupWord w (mapText ws)) = ws.reverse := by
    refine List.ext_getElem (by simp) fun g h1 h2 => ?_
    have hg : g < ws.length := by simpa using h1
    have hx : ws.reverse[g] ∈ ws := List.mem_reverse.mp (List.getElem_mem _)
    have hgroup : group (mapText ws) g = hex08 ws.reverse[g] :=
      group_flatMap (fun y hy => hex08_length_eq (h y (List.mem_reverse.mp hy)))
        (List.getElem?_eq_getElem h2)
    have hvalue : hexNumber 0 (hex08 ws.reverse[g]) = (ws.reverse[g]).toNat := by
      rw [hex08, printHex_eq (by omega) (h _ hx), hexNumber_hexDigits]
      exact Nat.mod_eq_of_lt (h _ hx)
    have hne : hex08 ws.reverse[g] ≠ [] := fun hnil => by
      have := hex08_length_ge ws.reverse[g]
      rw [hnil] at this
      cases this
    rw [List.getElem_map, List.getElem_range, groupWord, hgroup,
      strtoul_digits hne (isxdigit_hex08 _) (by rw [hvalue]; exact BitVec.isLt _), hvalue,
      BitVec.ofNat_toNat, BitVec.setWidth_eq]
  rw [filled, Nat.sub_self, List.take_zero, List.nil_append, hl, hwords, List.reverse_reverse]

/-- **The round trip through text** succeeds exactly when every word fits into eight digits. -/
theorem text_round_trip_iff (hw : w = 32 ∨ w = 64) (h1 : 1 ≤ nbits) (hn : nbits ≤ intMax)
    (hl : ws.length = bitsToLongs w nbits) :
    TextRoundTrips ws nbits ↔ ∀ x ∈ ws, x.toNat < 2 ^ 32 := by
  have hge := mapText_length_ge ws
  have hle := mapText_length_le hw ws
  have hsmall : 16 * ws.length < 2 ^ 31 := by
    rw [hl]
    unfold bitsToLongs
    unfold intMax at hn
    rcases hw with rfl | rfl <;> omega
  constructor
  · intro htrip
    obtain ⟨len, str', hprint, hread⟩ := htrip (List.replicate ((mapText ws).length + 1) 0) ws
      (by rw [List.length_replicate]; omega) rfl
    obtain ⟨rest, hspec⟩ : ∃ rest, bitmapMap2str (List.replicate ((mapText ws).length + 1) 0) ws nbits =
        some ((mapText ws).length, mapText ws ++ 0 :: rest) :=
      bitmapMap2str_spec hw h1 hl (by rw [List.length_replicate]; omega)
    rw [hspec] at hprint
    cases hprint
    rw [bitmapStr2map_eq ws nbits zero_notMem_mapText, i32OfNat_of_lt (by omega), ← hl] at hread
    split at hread
    · cases hread
    · refine hge.2 ?_
      rw [Int.toNat_natCast] at hread
      rcases str2mapFrom_ok hread with hzero | hfit <;> omega
  · intro hfit str old hroom hold
    obtain ⟨rest, hprint⟩ := bitmapMap2str_spec hw h1 hl hroom
    refine ⟨_, _, hprint, ?_⟩
    have hdigits : IsHexText (bitsToLongs w nbits) (mapText ws) := by
      refine ⟨?_, isxdigit_mapText⟩
      rw [← hl]
      unfold mapText
      rw [List.length_flatMap, List.map_congr_left (g := fun _ => 8) fun x hx =>
        hex08_length_eq (hfit x (List.mem_reverse.mp hx)), List.map_const', List.sum_replicate_nat,
        List.length_reverse, Nat.mul_comm]
    rw [bitmapStr2map_text (by omega) (by rw [hold, hl]) (by omega) hdigits zero_notMem_mapText,
      filled_mapText hold hfit]

/-- The bitmap of the test on a 32-bit `long`. -/
theorem text_round_trips_40 : TextRoundTrips [0xf0000001#32, 0x12#32] 40 :=
  (text_round_trip_iff (.inl rfl) (by decide) (by decide) rfl).mpr fun x _ => x.isLt

/-- A 64-bit word with a bit in its high half takes more than one group. -/
theorem not_text_round_trips_64 :
    bitmapMap2str (List.replicate 17 0) [0xf00000000#64] 64 =
        some (9, 'f'.toUInt8 :: List.replicate 8 '0'.toUInt8 ++ List.replicate 8 0) ∧
      bitmapStr2map [0#64] 64 ('f'.toUInt8 :: List.replicate 8 '0'.toUInt8 ++ [0]) = none ∧
      ¬ TextRoundTrips [0xf00000000#64] 64 := by
  refine ⟨by decide, by decide, fun htrip => ?_⟩
  obtain ⟨len, str', hprint, hread⟩ := htrip (List.replicate 17 0) [0#64] (by decide) rfl
  have hrun : bitmapMap2str (List.replicate 17 0) [0xf00000000#64] 64 =
      some (9, 'f'.toUInt8 :: List.replicate 8 '0'.toUInt8 ++ List.replicate 8 0) := by decide
  rw [hrun] at hprint
  cases hprint
  revert hread
  decide

end Xbitmap
end Xlibc
