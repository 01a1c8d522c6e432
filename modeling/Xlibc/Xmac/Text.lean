import Mathlib.Tactic.IntervalCases
import Xlibc.Xfcfg.Parse

/-!
# Xlibc.Xmac.Text

Addresses as texts: `xstr2mac` on every string, and back from what `xmac2str` and `xmac2str2` print.

* `Exact` : what a parser of the two forms is to do with one string and one old content.
* `exact_iff` : it does so unless something follows the characters it looks at.
* `xstr2mac_exact` : that, and the two round trips.
-/

namespace Xlibc
namespace Xmac

open Xfcfg

/-! ## Printing -/

/-- `"%02x"` -/
def hexByte (b : Byte) : List Byte := printHex 2 b.toNat

/-- `"%02x:%02x:%02x:%02x:%02x:%02x"` -/
def colonText (mac : Mac) : List Byte :=
  hexByte mac[0] ++ ':'.toUInt8 :: (hexByte mac[1] ++ ':'.toUInt8 :: (hexByte mac[2] ++ ':'.toUInt8 ::
    (hexByte mac[3] ++ ':'.toUInt8 :: (hexByte mac[4] ++ ':'.toUInt8 :: hexByte mac[5]))))

/-- `"%02x%02x%02x%02x%02x%02x"` -/
def plainText (mac : Mac) : List Byte :=
  hexByte mac[0] ++ (hexByte mac[1] ++ (hexByte mac[2] ++ (hexByte mac[3] ++ (hexByte mac[4] ++ hexByte mac[5]))))

/-- Neither pointer is `NULL`. -/
def xmac2str (macstr : List Byte) (mac : Mac) : Option (Int × List Byte) := do
  let macstr ← storeBytes macstr 0 (colonText mac ++ [0])
  some (0, macstr)

def xmac2str2 (macstr : List Byte) (mac : Mac) : Option (Int × List Byte) := do
  let macstr ← storeBytes macstr 0 (plainText mac ++ [0])
  some (0, macstr)

/-! ## Reading -/

/-- 0 and the address of a text in one of the forms, otherwise -1 and the old content. -/
def Exact (w : Nat) (mac : Mac) (str : CString) : Prop :=
  (∀ m, MacText str m → xstr2mac w mac str = (0, m)) ∧
  ((¬ ∃ m, MacText str m) → xstr2mac w mac str = (-1, mac))

section Reading

variable {w : Nat} {mac m : Mac} {str : CString}

/-- A string that is accepted must be a text of what is stored. -/
theorem exact_accepted (hret : xstr2mac w mac str = (0, m)) (hunique : ∀ v, MacText str v → v = m) :
    Exact w mac str ↔ MacText str m := by
  constructor
  · intro h
    by_contra hm
    have hbad := h.2 fun hv => by
      obtain ⟨v, hv⟩ := hv
      exact hm (hunique v hv ▸ hv)
    rw [hret] at hbad
    cases hbad
  · intro h
    refine ⟨fun v hv => ?_, fun hnone => absurd ⟨m, h⟩ hnone⟩
    rw [hret, hunique v hv]

theorem exact_iff (hw : 32 ≤ w) : Exact w mac str ↔ MacWhole str.val := by
  obtain ⟨m, hrun, hunique, hwhole⟩ | ⟨hrun, hnone, hwhole⟩ := xstr2mac_cases hw str
  · rw [exact_accepted (hrun mac) hunique]
    exact hwhole
  · exact iff_of_true ⟨fun v hv => absurd hv (hnone v), fun _ => hrun mac⟩ hwhole

theorem xstr2mac_text (hw : 32 ≤ w) (h : MacText str m) : xstr2mac w mac str = (0, m) := by
  obtain ⟨m', hrun, hunique, -⟩ | ⟨-, hnone, -⟩ := xstr2mac_cases hw str
  · rw [hrun, hunique m h]
  · exact absurd h (hnone m)

end Reading

/-! ## The round trips -/

theorem hexByte_eq (b : Byte) : hexByte b = [lowerHex (b.toNat / 16), lowerHex (b.toNat % 16)] := by
  have hlt := b.toNat_lt
  rw [hexByte, printHex_eq (by omega) (by omega)]
  simp only [hexDigits, List.nil_append, List.cons_append]
  rw [Nat.mod_eq_of_lt (by omega : b.toNat / 16 < 16)]

section Digits

variable (b : Byte)

theorem hexValue_high : hexValue (lowerHex (b.toNat / 16)) = some (b.toNat / 16) :=
  hexValue_lowerHex _ (by have := b.toNat_lt; omega)

theorem hexValue_low : hexValue (lowerHex (b.toNat % 16)) = some (b.toNat % 16) :=
  hexValue_lowerHex _ (Nat.mod_lt _ (by omega))

theorem isxdigit_high : isxdigit (lowerHex (b.toNat / 16)) = true := by rw [isxdigit, hexValue_high]; rfl

theorem isxdigit_low : isxdigit (lowerHex (b.toNat % 16)) = true := by rw [isxdigit, hexValue_low]; rfl

theorem high_ne : (0 : Byte) ≠ lowerHex (b.toNat / 16) := (isxdigit_plain (isxdigit_high b)).2.2.2.2.2.symm

theorem low_ne : (0 : Byte) ≠ lowerHex (b.toNat % 16) := (isxdigit_plain (isxdigit_low b)).2.2.2.2.2.symm

theorem digits_value : b.toNat =
    16 * (hexValue (lowerHex (b.toNat / 16))).getD 0 + (hexValue (lowerHex (b.toNat % 16))).getD 0 := by
  rw [hexValue_high, hexValue_low, Option.getD_some, Option.getD_some]
  omega

end Digits

section Texts

variable (mac : Mac)

theorem colonText_eq : colonText mac =
    [lowerHex (mac[0].toNat / 16), lowerHex (mac[0].toNat % 16), ':'.toUInt8,
      lowerHex (mac[1].toNat / 16), lowerHex (mac[1].toNat % 16), ':'.toUInt8,
      lowerHex (mac[2].toNat / 16), lowerHex (mac[2].toNat % 16), ':'.toUInt8,
      lowerHex (mac[3].toNat / 16), lowerHex (mac[3].toNat % 16), ':'.toUInt8,
      lowerHex (mac[4].toNat / 16), lowerHex (mac[4].toNat % 16), ':'.toUInt8,
      lowerHex (mac[5].toNat / 16), lowerHex (mac[5].toNat % 16)] := by
  simp only [colonText, hexByte_eq, List.cons_append, List.nil_append]

theorem plainText_eq : plainText mac =
    [lowerHex (mac[0].toNat / 16), lowerHex (mac[0].toNat % 16),
      lowerHex (mac[1].toNat / 16), lowerHex (mac[1].toNat % 16),
      lowerHex (mac[2].toNat / 16), lowerHex (mac[2].toNat % 16),
      lowerHex (mac[3].toNat / 16), lowerHex (mac[3].toNat % 16),
      lowerHex (mac[4].toNat / 16), lowerHex (mac[4].toNat % 16),
      lowerHex (mac[5].toNat / 16), lowerHex (mac[5].toNat % 16)] := by
  simp only [plainText, hexByte_eq, List.cons_append, List.nil_append]

theorem zero_notMem_colonText : (0 : Byte) ∉ colonText mac := by
  have hcolon : (0 : Byte) ≠ ':'.toUInt8 := by decide
  rw [colonText_eq]
  simp only [List.mem_cons, List.not_mem_nil, high_ne, low_ne, hcolon, or_false, not_false_eq_true]

theorem zero_notMem_plainText : (0 : Byte) ∉ plainText mac := by
  rw [plainText_eq]
  simp only [List.mem_cons, List.not_mem_nil, high_ne, low_ne, or_false, not_false_eq_true]

theorem macText_colonText : MacText ⟨colonText mac, zero_notMem_colonText mac⟩ mac := by
  refine .inl ⟨?_, ?_, ?_⟩
  · show (colonText mac).length = 17
    rw [colonText_eq]
    rfl
  · show isColonForm (colonText mac) = true
    rw [colonText_eq]
    simp [isColonForm, List.range_succ, isxdigit_high, isxdigit_low]
  · intro i
    show mac[i].toNat = macDigits (colonText mac) (3 * i)
    rw [colonText_eq]
    rcases i with ⟨i, hi⟩
    interval_cases i
    all_goals exact digits_value _

theorem macText_plainText : MacText ⟨plainText mac, zero_notMem_plainText mac⟩ mac := by
  refine .inr ⟨?_, ?_, ?_⟩
  · show (plainText mac).length = 12
    rw [plainText_eq]
    rfl
  · show isPlainForm (plainText mac) = true
    rw [plainText_eq]
    simp [isPlainForm, List.range_succ, isxdigit_high, isxdigit_low]
  · intro i
    show mac[i].toNat = macDigits (plainText mac) (2 * i)
    rw [plainText_eq]
    rcases i with ⟨i, hi⟩
    interval_cases i
    all_goals exact digits_value _

end Texts

theorem print_text (macstr : List Byte) {text : List Byte} (hzero : (0 : Byte) ∉ text)
    (hroom : text.length < macstr.length) :
    ∃ macstr', storeBytes macstr 0 (text ++ [0]) = some macstr' ∧ cstring macstr' = some ⟨text, hzero⟩ := by
  refine ⟨_, if_pos ?_, ?_⟩
  · rw [List.length_append, List.length_singleton, Nat.zero_add]
    exact hroom
  · rw [List.take_zero, List.nil_append, List.append_assoc]
    exact cstring_append_zero ⟨text, hzero⟩ _

/-- **Reading addresses.** A string is read as it should if nothing follows the characters that are looked at,
and only then; what the two printers make of an address is read as that address. -/
theorem xstr2mac_exact {w : Nat} (hw : 32 ≤ w) :
    (∀ mac str, Exact w mac str ↔ MacWhole str.val) ∧
    (∀ mac m macstr, 18 ≤ macstr.length → ∃ macstr' str, xmac2str macstr m = some (0, macstr') ∧
      cstring macstr' = some str ∧ xstr2mac w mac str = (0, m)) ∧
    ∀ mac m macstr, 13 ≤ macstr.length → ∃ macstr' str, xmac2str2 macstr m = some (0, macstr') ∧
      cstring macstr' = some str ∧ xstr2mac w mac str = (0, m) := by
  refine ⟨fun mac str => exact_iff hw, fun mac m macstr hroom => ?_, fun mac m macstr hroom => ?_⟩
  · obtain ⟨macstr', hstore, hstr⟩ := print_text macstr (zero_notMem_colonText m)
      (by rw [colonText_eq]; exact hroom)
    exact ⟨macstr', _, by rw [xmac2str, hstore]; rfl, hstr, xstr2mac_text hw (macText_colonText m)⟩
  · obtain ⟨macstr', hstore, hstr⟩ := print_text macstr (zero_notMem_plainText m)
      (by rw [plainText_eq]; exact hroom)
    exact ⟨macstr', _, by rw [xmac2str2, hstore]; rfl, hstr, xstr2mac_text hw (macText_plainText m)⟩

/-- `"001122334455"` is the plain form of an address, to its end. -/
theorem xstr2mac_exact_plain : Exact 64 (Vector.replicate 6 7)
    ⟨['0', '0', '1', '1', '2', '2', '3', '3', '4', '4', '5', '5'].map Char.toUInt8, by decide⟩ :=
  ((xstr2mac_exact (show 32 ≤ 64 by omega)).1 _ _).mpr ⟨fun h => absurd h.2 (by decide), fun _ => rfl⟩

/-- `"00:11:22:33:44:55zz"` is read as an address. -/
theorem xstr2mac_takes_more : ¬ Exact 64 (Vector.replicate 6 7)
    ⟨['0', '0', ':', '1', '1', ':', '2', '2', ':', '3', '3', ':', '4', '4', ':', '5', '5', 'z', 'z'].map Char.toUInt8,
      by decide⟩ := by
  intro h
  have hbad := h.2 fun htext => by
    obtain ⟨m, hm⟩ := htext
    rcases macText_length hm with hlen | hlen
    · cases hlen
    · cases hlen
  have hret := (xstr2mac_colon ⟨by decide, by decide⟩).symm.trans hbad
  cases hret

end Xmac
end Xlibc
