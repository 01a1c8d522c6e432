import Xlibc.Xfcfg.Model
import Xlibc.Xfcfg.Parse

/-!
# Xlibc.Xfcfg.Size

`xfcfg_parse_size` on a number and a suffix: what it stores is right exactly if the product fits into a
`long` and the character taken for the last one multiplies like it. It never returns a negative number.
-/

namespace Xlibc
namespace Xfcfg

/-- A number with its sign. -/
def signedValue (neg : Bool) (n : Nat) : Int := if neg then -(n : Int) else n

/-- The character in front of the length, as an `int`, multiplies like the suffix, or nothing is to be
multiplied. A text below 2^31 characters has it. -/
def UnitRead (text : CString) (n scale : Int) : Prop :=
  ∃ c, charAt text (i32OfNat text.val.length - 1) = some c ∧ (n = 0 ∨ sizeScale c = scale)

/-- A size is stored exactly, or refused and the old content kept. -/
def StoresOrRejects (w : Nat) (product : Int) (parse : Int → Option (Int × Int)) : Prop :=
  ∀ old, ∃ ret val, parse old = some (ret, val) ∧
    ((0 ≤ ret ∧ inLong w product ∧ val = product) ∨ (ret < 0 ∧ val = old))

theorem isSuffix_pos {suffix : List Byte} {scale : Int} (h : IsSuffix suffix scale) : 1 ≤ scale := by
  rcases h with ⟨-, rfl⟩ | ⟨-, rfl⟩ | ⟨-, rfl⟩ | ⟨-, rfl⟩
  · omega
  · omega
  · omega
  · omega

theorem isSuffix_head {suffix : List Byte} {scale : Int} (h : IsSuffix suffix scale) :
    ∀ c ∈ suffix.head?, isDigit 10 c = false := by
  intro c hc
  rcases h with ⟨rfl, -⟩ | ⟨rfl | rfl, -⟩ | ⟨rfl | rfl, -⟩ | ⟨rfl | rfl, -⟩
  · cases hc
  all_goals
    cases hc
    rfl

/-- The scale is the one of the last character, a digit counting as no suffix. -/
theorem isSuffix_last {suffix : List Byte} {scale : Int} (h : IsSuffix suffix scale) {c : Byte}
    (hc : isDigit 10 c = true) (pre : List Byte) :
    sizeScale ((pre ++ c :: suffix).getLast (by simp)) = scale := by
  have hplain : ∀ c : Byte, isDigit 10 c = true → sizeScale c = 1 := forall_byte (by decide +kernel)
  have hlast : ∀ u, (pre ++ c :: [u]).getLast (by simp) = u := by
    intro u
    simp
  rcases h with ⟨rfl, rfl⟩ | ⟨rfl | rfl, rfl⟩ | ⟨rfl | rfl, rfl⟩ | ⟨rfl | rfl, rfl⟩
  · simpa using hplain c hc
  · rw [hlast]; rfl
  · rw [hlast]; rfl
  · rw [hlast]; rfl
  · rw [hlast]; rfl
  · rw [hlast]; rfl
  · rw [hlast]; rfl

/-- The suffix tells the scale. -/
theorem isSuffix_unique {suffix : List Byte} {scale scale' : Int} (h : IsSuffix suffix scale)
    (h' : IsSuffix suffix scale') : scale = scale' := by
  have hc : isDigit 10 '0'.toUInt8 = true := by decide
  exact (isSuffix_last h hc []).symm.trans (isSuffix_last h' hc [])

section Numeral

variable {sign : List Byte} {text : CString} {n : Nat} {scale : Int}

theorem scanNumber_size {neg : Bool} (hsign : IsSign sign neg) (h : SizeNumeral sign text n scale) :
    ∃ rest, scanNumber 10 text.val = some (signedValue neg n, rest) := by
  obtain ⟨ds, suffix, hne, hds, hsuffix, htext, hn⟩ := h
  refine ⟨suffix, ?_⟩
  rw [htext, hn, signedValue]
  exact scanNumber_digits hsign (by omega) hne hds (isSuffix_head hsuffix) rfl

theorem sizeNumeral_scale (h : SizeNumeral sign text n scale) : 1 ≤ scale := by
  obtain ⟨ds, suffix, -, -, hsuffix, -, -⟩ := h
  exact isSuffix_pos hsuffix

/-- A text has one number and one suffix. -/
theorem sizeNumeral_unique {n' : Nat} {scale' : Int} (h : SizeNumeral sign text n scale)
    (h' : SizeNumeral sign text n' scale') : n = n' ∧ scale = scale' := by
  obtain ⟨ds, suffix, -, hds, hsuffix, htext, hn⟩ := h
  obtain ⟨ds', suffix', -, hds', hsuffix', htext', hn'⟩ := h'
  rw [htext] at htext'
  have hbody : ds ++ suffix = ds' ++ suffix' := List.append_cancel_left htext'
  have hrest : suffix = suffix' := by
    rw [← dropWhile_digits hds (isSuffix_head hsuffix), hbody, dropWhile_digits hds' (isSuffix_head hsuffix')]
  subst hrest
  rw [hn, hn', List.append_cancel_right hbody]
  exact ⟨rfl, isSuffix_unique hsuffix hsuffix'⟩

/-- Below 2^31 characters the last one is looked at. -/
theorem unitRead_short (h : SizeNumeral sign text n scale) (hlen : text.val.length < 2 ^ 31) (z : Int) :
    UnitRead text z scale := by
  obtain ⟨ds, suffix, hne, hds, hsuffix, htext, hn⟩ := h
  obtain ⟨init, c, hlast⟩ : ∃ init c, ds = init ++ [c] := ⟨_, _, (List.dropLast_append_getLast hne).symm⟩
  have hwhole : text.val = (sign ++ init) ++ c :: suffix := by
    rw [htext, hlast]
    simp
  have hc : isDigit 10 c = true := hds c (by rw [hlast]; simp)
  have hpos : text.val ≠ [] := by
    rw [hwhole]
    simp
  refine ⟨text.val.getLast hpos, ?_, Or.inr ?_⟩
  · have hlength : 0 < text.val.length := List.length_pos_of_ne_nil hpos
    rw [i32OfNat_of_lt hlen, charAt, if_pos (by omega), List.getElem?_append_left (by omega),
      List.getLast_eq_getElem, List.getElem?_eq_getElem (by omega)]
    congr 2
    omega
  · have hget := isSuffix_last hsuffix hc (sign ++ init)
    simp only [hwhole]
    exact hget

end Numeral

/-! ## What is stored -/

/-- It returns 0 whenever it returns. -/
theorem parseSize_ret {w : Nat} {value : CString} {old : Int} {r : Int × Int}
    (h : xfcfgParseSize w value old = some r) : r.1 = 0 := by
  unfold xfcfgParseSize at h
  obtain ⟨unit, -, h⟩ := Option.bind_eq_some_iff.mp h
  obtain ⟨val, -, h⟩ := Option.bind_eq_some_iff.mp h
  cases h
  rfl

/-- A number and a suffix are stored as their product. -/
theorem parseSize_exact {w : Nat} {sign : List Byte} {neg : Bool} {text : CString} {n : Nat} {scale : Int}
    (hsign : IsSign sign neg) (h : SizeNumeral sign text n scale) (old : Int) :
    xfcfgParseSize w text old = some (0, signedValue neg n * scale) ↔
      inLong w (signedValue neg n * scale) ∧ UnitRead text (signedValue neg n) scale := by
  obtain ⟨rest, hscan⟩ := scanNumber_size hsign h
  have hscale := sizeNumeral_scale h
  have hstrtol : (strtol w 10 text.val).1 = clampLong w (signedValue neg n) := by
    rw [strtol, hscan]
  constructor
  · intro hrun
    unfold xfcfgParseSize at hrun
    rw [hstrtol] at hrun
    obtain ⟨unit, hunit, hrun⟩ := Option.bind_eq_some_iff.mp hrun
    obtain ⟨val, hval, hrun⟩ := Option.bind_eq_some_iff.mp hrun
    cases hrun
    unfold mulLong at hval
    split at hval
    · next hin =>
      have hprod := Option.some.inj hval
      rw [hprod] at hin
      rw [clampLong_of_inLong (inLong_of_mul hscale hin)] at hprod
      refine ⟨hin, unit, hunit, ?_⟩
      by_cases hzero : signedValue neg n = 0
      · exact Or.inl hzero
      · exact Or.inr (Int.eq_of_mul_eq_mul_left hzero hprod)
    · cases hval
  · rintro ⟨hin, unit, hunit, hscales⟩
    have hprod : signedValue neg n * sizeScale unit = signedValue neg n * scale := by
      rcases hscales with hzero | heq
      · rw [hzero, Int.zero_mul, Int.zero_mul]
      · rw [heq]
    unfold xfcfgParseSize
    rw [hunit, hstrtol, clampLong_of_inLong (inLong_of_mul hscale hin), Option.bind_eq_bind, Option.bind_some,
      mulLong, hprod, if_pos hin]
    rfl

/-- Something in the syntax, of a value that a `long` holds. -/
def SizeFits (w : Nat) (text : CString) : Prop :=
  ∃ n scale, SizeNumeral [] text n scale ∧ inLong w (n * scale) ∧ UnitRead text n scale

/-- A size without a sign. -/
theorem parseSize_meets_iff (w : Nat) (value : CString) :
    MeetsContract (SizeText value) (xfcfgParseSize w value) ↔ SizeFits w value := by
  have hsign : IsSign [] false := Or.inl ⟨rfl, rfl⟩
  constructor
  · intro h
    obtain ⟨hgood, hbad⟩ := h 0
    by_cases hv : ∃ v, SizeText value v
    · obtain ⟨v, n, scale, hnumeral, rfl⟩ := hv
      have hexact := (parseSize_exact hsign hnumeral 0).mp (hgood _ ⟨n, scale, hnumeral, rfl⟩)
      exact ⟨n, scale, hnumeral, hexact⟩
    · obtain ⟨ret, hrun, hneg⟩ := hbad hv
      have hret : ret = 0 := parseSize_ret hrun
      omega
  · rintro ⟨n, scale, hnumeral, hexact⟩ old
    refine ⟨?_, fun hnone => absurd ⟨_, n, scale, hnumeral, rfl⟩ hnone⟩
    rintro v ⟨n', scale', hnumeral', rfl⟩
    obtain ⟨rfl, rfl⟩ := sizeNumeral_unique hnumeral' hnumeral
    exact (parseSize_exact hsign hnumeral old).mpr hexact

/-- A callback that meets its contract: the caller reports what is not in the syntax, and the target
keeps what it had. -/
theorem Cfg.parse_reports {ν α : Type} [DecidableEq ν] {Denotes : α → Prop} {callback : α → Option (Int × α)}
    (hmeets : MeetsContract Denotes callback) (hbad : ¬ ∃ v, Denotes v) (s : Cfg ν α)
    (o : XfcfgOption ν α) (text : List Byte) (error : Message)
    (hcall : callback (s.vars o.value) = some (o.parse text (s.vars o.value))) :
    (s.parse o text error).vars = s.vars ∧ (s.parse o text error).out = s.out ++ [error] := by
  obtain ⟨ret, hret, hneg⟩ := (hmeets (s.vars o.value)).2 hbad
  rw [hcall] at hret
  have hparse : o.parse text (s.vars o.value) = (ret, s.vars o.value) := Option.some.inj hret
  constructor
  · show Function.update s.vars o.value (o.parse text (s.vars o.value)).2 = s.vars
    rw [hparse]
    exact Function.update_eq_self _ _
  · show (if (o.parse text (s.vars o.value)).1 < 0 then s.out ++ [error] else s.out) = s.out ++ [error]
    rw [hparse]
    exact if_pos hneg

/-- The four callbacks: the bool always meets its contract, the integer never does, the address if
nothing follows it, the size if it is one and fits. Where the contract is met, the caller reports a bad
value and the target keeps its content. -/
theorem xfcfg_callbacks_contract {w : Nat} (hw : 32 ≤ w) (value : CString) :
    (MeetsContract (BoolText value) (xfcfgParseBool value) ∧
      ¬ MeetsContract (IntText value) (xfcfgParseInt w value) ∧
      (MeetsContract (MacText value) (xfcfgParseMac w value) ↔ MacWhole value.val) ∧
      (MeetsContract (SizeText value) (xfcfgParseSize w value) ↔ SizeFits w value)) ∧
    ∀ {ν α : Type} [DecidableEq ν] {Denotes : α → Prop} {callback : α → Option (Int × α)},
      MeetsContract Denotes callback → (¬ ∃ v, Denotes v) → ∀ (s : Cfg ν α)
        (o : XfcfgOption ν α) text error,
        callback (s.vars o.value) = some (o.parse text (s.vars o.value)) →
          (s.parse o text error).vars = s.vars ∧ (s.parse o text error).out = s.out ++ [error] := by
  refine ⟨⟨parseBool_meets value, parseInt_fails w value, parseMac_meets_iff hw value,
    parseSize_meets_iff w value⟩, ?_⟩
  intro ν α _ Denotes callback hmeets hbad s o text error hcall
  exact Cfg.parse_reports hmeets hbad s o text error hcall

/-- `"5"` -/
def digitText : CString := ⟨word ['5'], by decide⟩

/-- An option that is a bool, and a target that holds 7. -/
def flagOption : XfcfgOption Unit Byte where
  name := ⟨word ['f', 'l', 'a', 'g'], by decide⟩
  parse := fun text old =>
    if h : (0 : Byte) ∉ text then (xfcfgParseBool ⟨text, h⟩ old).getD (0, old) else (-1, old)
  value := ()
  default := ⟨[], zero_notMem_nil⟩

def flagCfg : Cfg Unit Byte := { vars := fun _ => 7, calls := [], out := [] }

/-- A number is no bool. -/
theorem xfcfg_callbacks_contract_digit :
    (flagCfg.parse flagOption digitText.val (.valueError flagOption.name.val)).vars = flagCfg.vars ∧
    (flagCfg.parse flagOption digitText.val (.valueError flagOption.name.val)).out =
      [.valueError flagOption.name.val] := by
  have h := xfcfg_callbacks_contract (show 32 ≤ 64 by omega) digitText
  have hbad : ¬ ∃ v, BoolText digitText v := by
    rintro ⟨v, ⟨hv, -⟩ | ⟨hv, -⟩⟩
    · exact absurd hv (by decide)
    · exact absurd hv (by decide)
  exact h.2 h.1.1 hbad flagCfg flagOption digitText.val _ rfl

/-- A number makes the callback for integers return 1. -/
theorem xfcfg_parse_int_returns_one : ¬ ∀ (w : Nat) (value : CString), 32 ≤ w → value.val ≠ [] →
    MeetsContract (BoolText value) (xfcfgParseBool value) ∧
    MeetsContract (IntText value) (xfcfgParseInt w value) ∧
    MeetsContract (MacText value) (xfcfgParseMac w value) ∧
    MeetsContract (SizeText value) (xfcfgParseSize w value) := by
  intro h
  have hfive := (h 64 digitText (by omega) (by decide)).2.1 0
  have hstored := hfive.1 5 (show scanNumber 0 digitText.val = some (5, []) by decide +kernel)
  exact absurd hstored (by decide +kernel)

/-- A size is stored exactly, and never refused, if it fits and its last character is looked at. -/
theorem xfcfg_parse_size_exact {sign : List Byte} {neg : Bool} {text : CString} {n : Nat} {scale : Int}
    (hsign : IsSign sign neg) (h : SizeNumeral sign text n scale) (w : Nat) :
    StoresOrRejects w (signedValue neg n * scale) (xfcfgParseSize w text) ↔
      inLong w (signedValue neg n * scale) ∧ UnitRead text (signedValue neg n) scale := by
  constructor
  · intro hstores
    obtain ⟨ret, val, hrun, hcase⟩ := hstores 0
    have hret : ret = 0 := parseSize_ret hrun
    rcases hcase with ⟨-, -, rfl⟩ | ⟨hneg, -⟩
    · rw [hret] at hrun
      exact (parseSize_exact hsign h 0).mp hrun
    · omega
  · intro hexact old
    exact ⟨0, _, (parseSize_exact hsign h old).mpr hexact, Or.inl ⟨Int.le_refl 0, hexact.1, rfl⟩⟩

/-- `"2K"` -/
def twoKText : CString := ⟨word ['2', 'K'], by decide⟩

theorem xfcfg_parse_size_exact_2k : StoresOrRejects 64 (2 * 1024) (xfcfgParseSize 64 twoKText) := by
  have hnumeral : SizeNumeral [] twoKText 2 1024 :=
    ⟨word ['2'], word ['K'], by simp [word], List.all_eq_true.mp rfl,
      Or.inr (Or.inl ⟨Or.inl rfl, rfl⟩), rfl, by decide⟩
  have hsign : IsSign [] false := Or.inl ⟨rfl, rfl⟩
  exact (xfcfg_parse_size_exact hsign hnumeral 64).mpr
    ⟨by decide, unitRead_short hnumeral (by decide) _⟩

/-- 2^63, which a `long` of 64 bits does not hold. -/
def tooLongText : CString := ⟨(toString (2 ^ 63 : Nat)).toList.map Char.toUInt8, by decide⟩

/-- A number that is too long is stored as the largest `long`. -/
theorem xfcfg_parse_size_saturates : ¬ ∀ (sign : List Byte) (neg : Bool) (text : CString) (n : Nat)
    (scale : Int) (w : Nat), IsSign sign neg → SizeNumeral sign text n scale →
      StoresOrRejects w (signedValue neg n * scale) (xfcfgParseSize w text) := by
  intro h
  have hnumeral : SizeNumeral [] tooLongText (2 ^ 63) 1 :=
    ⟨tooLongText.val, [], by decide, List.all_eq_true.mp (by decide), Or.inl ⟨rfl, rfl⟩, by simp,
      by decide +kernel⟩
  obtain ⟨ret, val, hrun, hcase⟩ := h [] false tooLongText (2 ^ 63) 1 64 (Or.inl ⟨rfl, rfl⟩) hnumeral 0
  have hret : ret = 0 := parseSize_ret hrun
  rcases hcase with ⟨-, hin, -⟩ | ⟨hneg, -⟩
  · exact absurd hin (by decide)
  · omega

end Xfcfg
end Xlibc
