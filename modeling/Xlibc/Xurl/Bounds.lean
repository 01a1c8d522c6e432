import Xlibc.Xurl.Correct

/-!
# Xlibc.Xurl.Bounds

`xurl_unescape` on any string. The loop ends at the terminator, and a `%` moves `input` past the two
bytes behind it without looking at them: one byte before the end that is past the terminator.

* `Unescapable`           : the strings in which every `%` that is met has its two bytes.
* `unescapeLoop_inBounds` : the loop, from any place in the string.
* `unescape_inBounds_iff` : when all accesses are inside the two blocks.
-/

namespace Xlibc
namespace Xurl

/-- Scanned from the left, every `%` has two bytes behind it, which are skipped; and the count of the
bytes decoded so far stays an `int`, with two to spare at a `%`. -/
inductive Unescapable : Nat → List Byte → Prop where
  | nil {count : Nat} : Unescapable count []
  | plain {count : Nat} {c : Byte} {t : List Byte} :
      c ≠ '%'.toUInt8 → count < intMax → Unescapable (count + 1) t → Unescapable count (c :: t)
  | triple {count : Nat} {h l : Byte} {t : List Byte} :
      count + 2 ≤ intMax → Unescapable (count + 1) t → Unescapable count ('%'.toUInt8 :: h :: l :: t)

/-- On blocks of exactly the string with its terminator and as many bytes for the result: the call
returns, and the result is written up to a `NUL`. Outside the blocks every access faults. -/
def UnescapeInBounds (grant : Nat → Bool) (fill : Byte) (s : List Byte) : Prop :=
  ∃ r, xurlUnescape grant fill (s ++ [0]) = some r ∧ ∀ result, r = some result →
    result.length = s.length + 1 ∧
      ∃ out, out.length ≤ s.length ∧ result.take (out.length + 1) = out ++ [0]

theorem unescapable_plain {count : Nat} {c : Byte} {t : List Byte} (hc : c ≠ '%'.toUInt8) :
    Unescapable count (c :: t) ↔ count < intMax ∧ Unescapable (count + 1) t := by
  constructor
  · intro h
    cases h with
    | plain _ hlt ht => exact ⟨hlt, ht⟩
    | triple _ _ => exact absurd rfl hc
  · rintro ⟨hlt, ht⟩
    exact .plain hc hlt ht

theorem unescapable_triple {count : Nat} {h l : Byte} {t : List Byte} :
    Unescapable count ('%'.toUInt8 :: h :: l :: t) ↔ count + 2 ≤ intMax ∧ Unescapable (count + 1) t := by
  constructor
  · intro hu
    cases hu with
    | plain hne _ _ => exact absurd rfl hne
    | triple hlt ht => exact ⟨hlt, ht⟩
  · rintro ⟨hlt, ht⟩
    exact .triple hlt ht

/-- A `%` that is one of the last two bytes. -/
theorem not_unescapable_short {count : Nat} {t : List Byte} (ht : t.length < 2) :
    ¬ Unescapable count ('%'.toUInt8 :: t) := by
  intro hu
  cases hu with
  | plain hne _ _ => exact hne rfl
  | triple _ _ =>
    rw [List.length_cons, List.length_cons] at ht
    omega

/-- Past the terminator nothing can be read. -/
theorem unescapeLoop_past {input result : List Byte} {fuel base count : Nat}
    (h : input.length ≤ base + count) : unescapeLoop input fuel base count result = none := by
  cases fuel with
  | zero => rfl
  | succ fuel =>
    rw [unescapeLoop, List.getElem?_eq_none h]
    rfl

/-- The bytes that can be read, from a place in the string on. -/
theorem read_at {input s : List Byte} {base count : Nat} (hin : input.drop (base + count) = s) (i : Nat) :
    input[base + (count + i)]? = s[i]? := by
  rw [← hin, List.getElem?_drop, Nat.add_assoc]

/-- At the largest counts the places behind a `%` cannot be computed. -/
theorem unescapeLoop_overflow {input result : List Byte} {fuel base count : Nat}
    (hc : input[base + count]? = some '%'.toUInt8) (h : count + 2 > intMax) :
    unescapeLoop input fuel base count result = none := by
  have hne : '%'.toUInt8 ≠ 0 := by decide
  cases fuel with
  | zero => rfl
  | succ fuel =>
    simp only [unescapeLoop, hc, Option.bind_eq_bind, Option.bind_some, hne, if_false, if_true, h]
    rfl

/-- A `%` with less than two bytes behind it: either the second one is read past the terminator, or it
is the terminator, and the next round reads past it. -/
theorem unescapeLoop_short {input result t : List Byte} {fuel base count : Nat}
    (hin : input.drop (base + count) = '%'.toUInt8 :: t ++ [0]) (ht : t.length < 2) :
    unescapeLoop input fuel base count result = none := by
  have hread := read_at hin
  have hc : input[base + count]? = some '%'.toUInt8 := hread 0
  have hne : '%'.toUInt8 ≠ 0 := by decide
  cases fuel with
  | zero => rfl
  | succ fuel =>
    cases t with
    | nil =>
      have hh : input[base + (count + 1)]? = some 0 := hread 1
      have hl : input[base + (count + 2)]? = none := hread 2
      simp only [unescapeLoop, hc, Option.bind_eq_bind, Option.bind_some, hne, if_false, if_true, hh, hl,
        Option.bind_none]
      split <;> rfl
    | cons h t =>
      obtain rfl : t = [] := List.eq_nil_of_length_eq_zero (by rw [List.length_cons] at ht; omega)
      have hh : input[base + (count + 1)]? = some h := hread 1
      have hl : input[base + (count + 2)]? = some 0 := hread 2
      have hlast := congrArg List.length hin
      rw [List.length_drop] at hlast
      simp only [List.length_cons, List.length_append, List.length_nil] at hlast
      cases hs : storeBytes result count [UInt8.ofNat (strtoul16 [h, 0])] with
      | none =>
        simp only [unescapeLoop, hc, Option.bind_eq_bind, Option.bind_some, hne, if_false, if_true, hh, hl,
          hs, Option.bind_none]
        split <;> rfl
      | some r =>
        rw [unescapeLoop_triple hc hh hl hs, unescapeLoop_past (by omega)]
        split <;> rfl

/-- The loop with the bytes `t` of the string still to come, by induction on the rounds left. -/
theorem unescapeLoop_inBounds {input : List Byte} : ∀ (fuel : Nat) (t : List Byte) (base count : Nat)
    (result : List Byte), input.drop (base + count) = t ++ [0] → (0 : Byte) ∉ t → t.length < fuel →
    count ≤ intMax → count + t.length < result.length →
    (Unescapable count t → ∃ r, unescapeLoop input fuel base count result = some r ∧
      r.length = result.length ∧ ∃ out, out.length ≤ t.length ∧
        r.take (count + out.length + 1) = result.take count ++ out ++ [0]) ∧
    (¬ Unescapable count t → unescapeLoop input fuel base count result = none) := by
  intro fuel
  induction fuel with
  | zero => intro t _ _ _ _ _ hfuel; exact absurd hfuel (Nat.not_lt_zero _)
  | succ fuel ih =>
    intro t base count result hin hzero hfuel hmax hroom
    have hread := read_at hin
    cases t with
    | nil =>
      have hend : input[base + count]? = some 0 := hread 0
      obtain ⟨r, hrun, hlen, htake⟩ := unescapeLoop_end hend hroom
      exact ⟨fun _ => ⟨r, hrun, hlen, [], Nat.le_refl _, by rwa [List.append_nil]⟩, fun h => absurd .nil h⟩
    | cons c t =>
      have hc : input[base + count]? = some c := hread 0
      have hc0 : c ≠ 0 := fun h => hzero (by rw [h]; exact List.mem_cons_self)
      have ht0 : (0 : Byte) ∉ t := fun h => hzero (List.mem_cons_of_mem _ h)
      rw [List.length_cons] at hfuel hroom
      -- one byte `b` is stored, and `u` is what is left behind `base' + (count + 1)`
      have hnext : ∀ (b : Byte) (u : List Byte) (base' : Nat),
          input.drop (base' + (count + 1)) = u ++ [0] → (0 : Byte) ∉ u → u.length ≤ t.length →
          count + 1 ≤ intMax →
          ∃ r, storeBytes result count [b] = some r ∧ r.length = result.length ∧
            (Unescapable (count + 1) u → ∃ r', unescapeLoop input fuel base' (count + 1) r = some r' ∧
              r'.length = result.length ∧ ∃ out, out.length ≤ t.length + 1 ∧
                r'.take (count + out.length + 1) = result.take count ++ out ++ [0]) ∧
            (¬ Unescapable (count + 1) u → unescapeLoop input fuel base' (count + 1) r = none) := by
        intro b u base' hdrop hu hle hcount
        obtain ⟨r, hstore, hlen, htake⟩ := storeBytes_byte b (show count < result.length by omega)
        obtain ⟨hyes, hno⟩ := ih u base' (count + 1) r hdrop hu (by omega) hcount (by omega)
        refine ⟨r, hstore, hlen, fun hun => ?_, hno⟩
        obtain ⟨r', hrun, hlen', out, hout, htake'⟩ := hyes hun
        exact ⟨r', hrun, by rw [hlen', hlen], b :: out, Nat.succ_le_succ (hout.trans hle), take_behind htake htake'⟩
      by_cases hp : c = '%'.toUInt8
      · subst hp
        by_cases hint : count + 2 > intMax
        · refine ⟨fun hu => ?_, fun _ => unescapeLoop_overflow hc hint⟩
          cases hu with
          | plain hne _ _ => exact absurd rfl hne
          | triple hle _ => omega
        · rcases Nat.lt_or_ge t.length 2 with hshort | hlong
          · exact ⟨fun hu => absurd hu (not_unescapable_short hshort), fun _ => unescapeLoop_short hin hshort⟩
          · obtain ⟨h, t, rfl⟩ := List.exists_cons_of_length_pos (show 0 < t.length by omega)
            obtain ⟨l, t, rfl⟩ := List.exists_cons_of_length_pos (show 0 < t.length by
              rw [List.length_cons] at hlong
              omega)
            have hh : input[base + (count + 1)]? = some h := hread 1
            have hl : input[base + (count + 2)]? = some l := hread 2
            have hdrop : input.drop (base + 2 + (count + 1)) = t ++ [0] := by
              rw [show base + 2 + (count + 1) = base + count + 3 by omega, ← List.drop_drop, hin]
              rfl
            have ht : (0 : Byte) ∉ t := fun h0 => ht0 (by simp [h0])
            obtain ⟨r, hstore, -, hyes, hno⟩ := hnext (UInt8.ofNat (strtoul16 [h, l])) t (base + 2) hdrop ht
              (by rw [List.length_cons, List.length_cons]; omega) (by omega)
            rw [unescapeLoop_triple hc hh hl hstore, if_neg hint, unescapable_triple]
            exact ⟨fun hu => hyes hu.2, fun hu => hno fun h => hu ⟨by omega, h⟩⟩
      · by_cases hlast : count = intMax
        · refine ⟨fun hu => ?_, fun _ => ?_⟩
          · have := ((unescapable_plain hp).mp hu).1
            omega
          · obtain ⟨r, hstore, -, -⟩ := storeBytes_byte c (show count < result.length by omega)
            rw [unescapeLoop_plain hc hc0 hp hstore, if_pos hlast]
        · have hdrop : input.drop (base + (count + 1)) = t ++ [0] := by
            rw [← Nat.add_assoc, ← List.drop_drop, hin]
            rfl
          obtain ⟨r, hstore, -, hyes, hno⟩ := hnext c t base hdrop ht0 (Nat.le_refl _) (by omega)
          rw [unescapeLoop_plain hc hc0 hp hstore, if_neg hlast, unescapable_plain hp]
          exact ⟨fun hu => hyes hu.2, fun hu => hno fun h => hu ⟨by omega, h⟩⟩

/-- **Unescaping any string.** All accesses are inside the string with its terminator and the result, and
the result ends in a `NUL`, exactly when the string is `Unescapable` (or memory is refused). -/
theorem unescape_inBounds_iff (grant : Nat → Bool) (fill : Byte) {s : List Byte} (hs : (0 : Byte) ∉ s) :
    UnescapeInBounds grant fill s ↔ grant (s.length + 1) = false ∨ Unescapable 0 s := by
  have hcstr : cstr (s ++ [0]) = some s := cstr_append_zero hs
  obtain ⟨hyes, hno⟩ := @unescapeLoop_inBounds (s ++ [0]) ((s ++ [0]).length + 1) s 0 0
    (List.replicate (s.length + 1) fill) rfl hs (by rw [List.length_append]; omega) (Nat.zero_le _)
    (by rw [List.length_replicate, Nat.zero_add]; exact Nat.lt_succ_self _)
  cases hg : grant (s.length + 1) with
  | false =>
    refine iff_of_true ⟨none, ?_, fun result h => ?_⟩ (.inl rfl)
    · rw [xurlUnescape, hcstr, Option.bind_eq_bind, Option.bind_some, if_pos hg]
    · cases h
  | true =>
    have hcall : xurlUnescape grant fill (s ++ [0]) =
        (unescapeLoop (s ++ [0]) ((s ++ [0]).length + 1) 0 0 (List.replicate (s.length + 1) fill)).map some := by
      rw [xurlUnescape, hcstr, Option.bind_eq_bind, Option.bind_some, if_neg (by rw [hg]; decide)]
      cases unescapeLoop (s ++ [0]) ((s ++ [0]).length + 1) 0 0 (List.replicate (s.length + 1) fill) <;> rfl
    constructor
    · rintro ⟨r, hrun, -⟩
      right
      by_contra hu
      rw [hcall, hno hu] at hrun
      cases hrun
    · rintro (h | hu)
      · cases h
      · obtain ⟨r, hrun, hlen, out, hout, htake⟩ := hyes hu
        refine ⟨some r, by rw [hcall, hrun]; rfl, fun result h => ?_⟩
        cases h
        exact ⟨by rw [hlen, List.length_replicate], out, hout, by simpa using htake⟩

theorem unescape_inBounds_three : UnescapeInBounds (fun _ => true) 0 ['%'.toUInt8, '4'.toUInt8, '1'.toUInt8] :=
  (unescape_inBounds_iff _ 0 (by decide)).mpr (.inr (.triple (by decide) .nil))

/-- The string `%`: the terminator is read as the first digit, and the byte behind it as the second. -/
theorem unescape_not_inBounds_percent :
    xurlUnescape (fun _ => true) 0 ['%'.toUInt8, 0] = none ∧
      ¬ UnescapeInBounds (fun _ => true) 0 ['%'.toUInt8] := by
  have hfault : xurlUnescape (fun _ => true) 0 ['%'.toUInt8, 0] = none := by decide
  refine ⟨hfault, fun h => ?_⟩
  obtain ⟨r, hrun, -⟩ := h
  rw [List.singleton_append, hfault] at hrun
  cases hrun

end Xurl
end Xlibc
