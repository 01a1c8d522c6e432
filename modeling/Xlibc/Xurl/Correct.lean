import Xlibc.Xurl.Model

/-!
# Xlibc.Xurl.Correct

Escaping and unescaping again.

* `escapeLoop_spec`   : `newlen` is what the output will need, and the buffer always has it.
* `unescapeLoop_spec` : byte `count` of the result comes from position `base + count` of the input.
* `round_trip_iff`    : unescaping gives the string back as far as an `int` can count its bytes.
-/

namespace Xlibc
namespace Xurl

/-- What one byte is escaped to. -/
def escapeByte (c : Byte) : List Byte := if urlIsUnreserved c then [c] else percentTriple c

def escaped (s : List Byte) : List Byte := s.flatMap escapeByte

/-- Unreserved characters and `%XX` triples. -/
inductive Escaped : List Byte → Prop where
  | nil : Escaped []
  | plain {c : Byte} {l : List Byte} : urlIsUnreserved c = true → Escaped l → Escaped (c :: l)
  | triple {m n : Nat} {l : List Byte} :
      m < 16 → n < 16 → Escaped l → Escaped ('%'.toUInt8 :: upperHex m :: upperHex n :: l)

theorem escapeByte_pos (c : Byte) : 0 < (escapeByte c).length := by
  rw [escapeByte]
  split <;> simp [percentTriple]

theorem escaped_cons (c : Byte) (s : List Byte) : escaped (c :: s) = escapeByte c ++ escaped s := by
  simp [escaped]

theorem escaped_escaped (s : List Byte) : Escaped (escaped s) := by
  induction s with
  | nil => exact .nil
  | cons c s ih =>
    rw [escaped_cons, escapeByte]
    split
    · exact .plain (by assumption) ih
    · have hc := c.toNat_lt
      exact .triple (by omega) (by omega) ih

/-! ## Digits -/

theorem upperHex_value : ∀ n < 16, hexValue (upperHex n) = some n := by decide

theorem upperHex_start : ∀ n < 16, isspace (upperHex n) = false ∧ upperHex n ≠ '-'.toUInt8 ∧
    upperHex n ≠ '+'.toUInt8 ∧ upperHex n ≠ 0 := by decide

/-- The two digits of a byte are read as the byte. -/
theorem strtoul16_byte (c : Byte) :
    UInt8.ofNat (strtoul16 [upperHex (c.toNat / 16), upperHex (c.toNat % 16)]) = c := by
  have hc := c.toNat_lt
  have hhi := upperHex_value (c.toNat / 16) (by omega)
  have hlo := upperHex_value (c.toNat % 16) (by omega)
  obtain ⟨hspace, hminus, hplus, -⟩ := upperHex_start (c.toNat / 16) (by omega)
  have hnum : hexNumber 0 [upperHex (c.toNat / 16), upperHex (c.toNat % 16)] = c.toNat := by
    simp only [hexNumber, hhi, hlo]
    omega
  rw [strtoul16, List.dropWhile_cons, hspace]
  simp only [Bool.false_eq_true, if_false, hminus, hplus, hnum, UInt8.ofNat_toNat]

theorem unreserved_ne {c : Byte} (h : urlIsUnreserved c = true) : c ≠ 0 ∧ c ≠ '%'.toUInt8 := by
  constructor
  · rintro rfl
    exact absurd h (by decide)
  · rintro rfl
    exact absurd h (by decide)

theorem zero_notMem_escaped (s : List Byte) : (0 : Byte) ∉ escaped s := by
  induction s with
  | nil => simp [escaped]
  | cons c s ih =>
    rw [escaped_cons, List.mem_append, not_or]
    refine ⟨?_, ih⟩
    rw [escapeByte]
    split
    · rename_i hc
      simpa using (unreserved_ne hc).1.symm
    · have hc := c.toNat_lt
      have hhi := (upperHex_start (c.toNat / 16) (by omega)).2.2.2
      have hlo := (upperHex_start (c.toNat % 16) (by omega)).2.2.2
      simp only [percentTriple, List.mem_cons, List.not_mem_nil, or_false, not_or]
      exact ⟨by decide, hhi.symm, hlo.symm⟩

/-! ## Escaping -/

/-- Writing the escaped form of one byte behind what has been written. -/
theorem store_escaped (ns : List Byte) (strindex : Nat) (c : Byte) (bs : List Byte)
    (hfit : strindex + (escapeByte c ++ bs).length ≤ ns.length) :
    ∃ ns', storeBytes ns strindex (escapeByte c ++ bs) = some ns' ∧ ns'.length = ns.length ∧
      ns'.take (strindex + (escapeByte c).length) = ns.take strindex ++ escapeByte c := by
  obtain ⟨ns', hstore⟩ := storeBytes_some _ hfit
  exact ⟨ns', hstore, storeBytes_length hstore, take_storeBytes_append hstore⟩

/-- A round at an unreserved byte. -/
theorem escapeLoop_plain (grant : Nat → Bool) (fill : Byte) {input ns : List Byte} {c : Byte}
    {pos : Nat} (left alloc newlen strindex : Nat) (hc : input[pos]? = some c) (hun : urlIsUnreserved c = true)
    (hroom : strindex + 1 ≤ ns.length) :
    ∃ ns', ns'.length = ns.length ∧
      ns'.take (strindex + (escapeByte c).length) = ns.take strindex ++ escapeByte c ∧
      escapeLoop grant fill input (left + 1) pos alloc newlen strindex ns =
        escapeLoop grant fill input left (pos + 1) alloc newlen (strindex + (escapeByte c).length) ns' := by
  have hesc : escapeByte c = [c] := by simp [escapeByte, hun]
  obtain ⟨ns', hstore, hlen, htake⟩ := store_escaped ns strindex c [] (by rw [hesc]; exact hroom)
  refine ⟨ns', hlen, htake, ?_⟩
  rw [hesc] at hstore ⊢
  have hstore' : storeBytes ns strindex [c] = some ns' := hstore
  simp only [escapeLoop, hc, hun, if_true, hstore', Option.bind_eq_bind, Option.bind_some]
  rfl

/-- A round at any other byte: one doubling is enough, as there was room for two bytes. -/
theorem escapeLoop_percent (grant : Nat → Bool) (fill : Byte) {input ns : List Byte} {c : Byte}
    {pos alloc newlen : Nat} (left strindex : Nat) (hc : input[pos]? = some c) (hun : urlIsUnreserved c = false)
    (hnew : strindex + 2 ≤ newlen) (hle : newlen ≤ alloc) (hlen : ns.length = alloc) :
    ((∃ n, grant n = false) ∧
      escapeLoop grant fill input (left + 1) pos alloc newlen strindex ns = some none) ∨
    ∃ alloc' ns', newlen + 2 ≤ alloc' ∧ ns'.length = alloc' ∧
      ns'.take (strindex + (escapeByte c).length) = ns.take strindex ++ escapeByte c ∧
      escapeLoop grant fill input (left + 1) pos alloc newlen strindex ns =
        escapeLoop grant fill input left (pos + 1) alloc' (newlen + 2)
          (strindex + (escapeByte c).length) ns' := by
  have hesc : escapeByte c = percentTriple c := by simp [escapeByte, hun]
  have hthree : (escapeByte c ++ [0]).length = 4 := by rw [hesc]; rfl
  simp only [escapeLoop, hc, hun, Bool.false_eq_true, if_false, Option.bind_eq_bind, Option.bind_some]
  by_cases hgrow : newlen + 2 > alloc
  · rw [if_pos hgrow]
    by_cases hgrant : grant (alloc * 2) = false
    · rw [if_pos hgrant]
      exact .inl ⟨⟨_, hgrant⟩, rfl⟩
    · have hblock : (reallocBytes fill ns (alloc * 2)).length = alloc * 2 := by
        rw [reallocBytes, List.length_append, List.length_replicate]
        omega
      have hkeep : (reallocBytes fill ns (alloc * 2)).take strindex = ns.take strindex := by
        rw [reallocBytes, List.take_append_of_le_length (by omega)]
      obtain ⟨ns', hstore, hlen', htake⟩ :=
        store_escaped (reallocBytes fill ns (alloc * 2)) strindex c [0] (by rw [hthree, hblock]; omega)
      rw [hkeep] at htake
      rw [hesc] at hstore
      rw [if_neg hgrant, hstore, Option.bind_some]
      exact .inr ⟨alloc * 2, ns', by omega, hlen'.trans hblock, htake, by rw [hesc]; rfl⟩
  · rw [if_neg hgrow]
    obtain ⟨ns', hstore, hlen', htake⟩ := store_escaped ns strindex c [0] (by rw [hthree]; omega)
    rw [hesc] at hstore
    rw [hstore, Option.bind_some]
    exact .inr ⟨alloc, ns', by omega, hlen'.trans hlen, htake, by rw [hesc]; rfl⟩

/-- What the loop does with the bytes `t` that are left: an allocation is refused, or their escaped form
is behind what has been written. -/
def EscapeDone (grant : Nat → Bool) (strindex : Nat) (ns t : List Byte)
    (r : Option (Option (Nat × List Byte))) : Prop :=
  (∃ n, grant n = false) ∧ r = some none ∨
    ∃ ns', r = some (some (strindex + (escaped t).length, ns')) ∧
      strindex + (escaped t).length + 1 ≤ ns'.length ∧
      ns'.take (strindex + (escaped t).length) = ns.take strindex ++ escaped t

/-- One byte more in front of them. -/
theorem EscapeDone.cons {grant : Nat → Bool} {strindex : Nat} {ns ns' t : List Byte} {c : Byte}
    {r : Option (Option (Nat × List Byte))}
    (htake : ns'.take (strindex + (escapeByte c).length) = ns.take strindex ++ escapeByte c)
    (h : EscapeDone grant (strindex + (escapeByte c).length) ns' t r) :
    EscapeDone grant strindex ns (c :: t) r := by
  have hsum : strindex + (escapeByte c).length + (escaped t).length =
      strindex + (escaped (c :: t)).length := by
    rw [escaped_cons, List.length_append]
    omega
  cases h with
  | inl hrefused => exact .inl hrefused
  | inr hdone =>
    obtain ⟨ns'', hrun, hfit, htake'⟩ := hdone
    rw [hsum] at hrun hfit htake'
    refine .inr ⟨ns'', hrun, hfit, ?_⟩
    rw [htake', htake, escaped_cons, List.append_assoc]

/-- The loop writes the escaped form of the bytes `t` that are left, or an allocation is refused.
`newlen` is the length of the output with its terminator, `t` counted as unreserved. -/
theorem escapeLoop_spec (grant : Nat → Bool) (fill : Byte) {input : List Byte} (t : List Byte) :
    ∀ {pos alloc newlen strindex : Nat} {ns : List Byte},
      (∀ i, i < t.length → input[pos + i]? = t[i]?) →
      newlen = strindex + t.length + 1 → newlen ≤ alloc → ns.length = alloc →
      EscapeDone grant strindex ns t
        (escapeLoop grant fill input t.length pos alloc newlen strindex ns) := by
  induction t with
  | nil =>
    intro pos alloc newlen strindex ns _ hnew hle hlen
    refine .inr ⟨ns, rfl, ?_, ?_⟩
    · simp only [escaped, List.flatMap_nil, List.length_nil] at hnew ⊢
      omega
    · simp [escaped]
  | cons c t ih =>
    intro pos alloc newlen strindex ns hread hnew hle hlen
    rw [List.length_cons] at hnew
    have hc : input[pos]? = some c := hread 0 (by simp)
    have hread' : ∀ i, i < t.length → input[pos + 1 + i]? = t[i]? := by
      intro i hi
      have := hread (i + 1) (by rw [List.length_cons]; omega)
      rwa [List.getElem?_cons_succ, show pos + (i + 1) = pos + 1 + i by omega] at this
    rw [List.length_cons]
    cases hun : urlIsUnreserved c with
    | true =>
      have hone : (escapeByte c).length = 1 := by simp [escapeByte, hun]
      obtain ⟨ns', hlen', htake, hround⟩ := escapeLoop_plain grant fill t.length alloc newlen
        strindex hc hun (by omega : strindex + 1 ≤ ns.length)
      rw [hround]
      exact .cons htake (ih hread' (by omega) hle (hlen'.trans hlen))
    | false =>
      have hthree : (escapeByte c).length = 3 := by simp [escapeByte, hun, percentTriple]
      rcases escapeLoop_percent grant fill t.length strindex hc hun (by omega) hle hlen with
        ⟨hrefused, hround⟩ | ⟨alloc', ns', hle', hlen', htake, hround⟩
      · exact .inl ⟨hrefused, hround⟩
      · rw [hround]
        exact .cons htake (ih hread' (by omega) hle' hlen')

/-- The ways to hand `s` to `xurl_escape`: terminated with `inlen = 0`, or with its length. -/
def Given (s : CString) (input : List Byte) (inlen : Int) : Prop :=
  (inlen = 0 ∧ ∃ rest, input = s.val ++ 0 :: rest) ∨
  (inlen = s.val.length ∧ 0 < inlen ∧ inlen ≤ intMax ∧ ∃ rest, input = s.val ++ rest)

theorem Given.read {s : CString} {input : List Byte} {inlen : Int} (h : Given s input inlen) :
    ∀ i, i < s.val.length → input[i]? = s.val[i]? := by
  intro i hi
  cases h with
  | inl hzero =>
    obtain ⟨-, rest, rfl⟩ := hzero
    exact List.getElem?_append_left hi
  | inr hlen =>
    obtain ⟨-, -, -, rest, rfl⟩ := hlen
    exact List.getElem?_append_left hi

/-- The size of the first block. -/
theorem Given.alloc {s : CString} {input : List Byte} {inlen : Int} (h : Given s input inlen) :
    escapeSize input inlen = some (s.val.length + 1) := by
  rw [escapeSize]
  cases h with
  | inl hzero =>
    obtain ⟨rfl, rest, rfl⟩ := hzero
    rw [if_neg (by simp), cstr_append_zero s.property]
    rfl
  | inr hlen =>
    obtain ⟨hlen, hpos, hmax, -⟩ := hlen
    have hmax' : inlen ≤ 2 ^ 31 - 1 := by simpa [intMax] using hmax
    rw [if_pos (by omega)]
    congr 1
    omega

/-- `xurl_escape` gives the escaped string, terminated, unless an allocation is refused. -/
theorem xurlEscape_spec (grant : Nat → Bool) (fill : Byte) {s : CString} {input : List Byte} {inlen : Int}
    (h : Given s input inlen) :
    (∃ n, grant n = false) ∧ xurlEscape grant fill input inlen = some none ∨
    ∃ rest, xurlEscape grant fill input inlen = some (some (escaped s.val ++ 0 :: rest)) := by
  have halloc := h.alloc
  have hread : ∀ i, i < s.val.length → input[0 + i]? = s.val[i]? := by
    intro i hi
    rw [Nat.zero_add]
    exact h.read i hi
  unfold xurlEscape
  rw [halloc]
  simp only [Option.bind_eq_bind, Option.bind_some]
  by_cases hgrant : grant (s.val.length + 1) = false
  · rw [if_pos hgrant]
    exact .inl ⟨⟨_, hgrant⟩, rfl⟩
  · rw [if_neg hgrant, if_neg (Nat.succ_ne_zero _), Nat.add_sub_cancel]
    have hnew : s.val.length + 1 = 0 + s.val.length + 1 := by omega
    cases escapeLoop_spec grant fill s.val hread hnew (Nat.le_refl _)
      (List.length_replicate (n := s.val.length + 1) (a := fill)) with
    | inl hrefused =>
      rw [hrefused.2]
      exact .inl ⟨hrefused.1, rfl⟩
    | inr hdone =>
      obtain ⟨ns, hrun, hfit, htake⟩ := hdone
      rw [hrun, Option.bind_some]
      rw [Nat.zero_add] at hfit htake ⊢
      obtain ⟨block, hstore⟩ := storeBytes_some [0] hfit
      have hend := take_storeBytes hstore
      rw [htake, List.take_zero, List.nil_append, List.length_singleton] at hend
      refine .inr ⟨block.drop ((escaped s.val).length + 1), ?_⟩
      have hblock : block = escaped s.val ++ 0 :: block.drop ((escaped s.val).length + 1) := by
        conv_lhs => rw [← List.take_append_drop ((escaped s.val).length + 1) block, hend]
        simp
      show (storeBytes ns (escaped s.val).length [0]).bind _ = _
      rw [hstore, Option.bind_some, ← hblock]

/-! ## Unescaping -/

/-- `count++` and, at a triple, `count + 2` stay within `int` while `t` is decoded from `count` on. -/
def Counts (count : Nat) : List Byte → Prop
  | [] => True
  | c :: t => count + (if urlIsUnreserved c then 1 else 2) ≤ intMax ∧ Counts (count + 1) t

theorem counts_iff (t : List Byte) : ∀ count, Counts count t ↔
    t = [] ∨ count + t.length < intMax ∨
      (count + t.length = intMax ∧ ∃ c, t.getLast? = some c ∧ urlIsUnreserved c = true) := by
  induction t with
  | nil =>
    intro count
    simp [Counts]
  | cons c t ih =>
    intro count
    rw [Counts, ih]
    cases t with
    | nil =>
      cases hc : urlIsUnreserved c <;> simp [hc] <;> omega
    | cons b t =>
      have hstep : (if urlIsUnreserved c then 1 else 2) ≤ 2 := by split <;> omega
      rw [List.getLast?_cons_cons]
      simp only [List.length_cons, reduceCtorEq, false_or]
      constructor
      · intro h
        cases h.2 with
        | inl hlt => exact .inl (by omega)
        | inr heq => exact .inr ⟨by omega, heq.2⟩
      · intro h
        cases h with
        | inl hlt => exact ⟨by omega, .inl (by omega)⟩
        | inr heq => exact ⟨by omega, .inr ⟨by omega, heq.2⟩⟩

section Step

variable {input result r : List Byte} {fuel base count : Nat}

theorem unescapeLoop_plain {c : Byte} (hc : input[base + count]? = some c) (hzero : c ≠ 0)
    (hpercent : c ≠ '%'.toUInt8) (hstore : storeBytes result count [c] = some r) :
    unescapeLoop input (fuel + 1) base count result =
      if count = intMax then none else unescapeLoop input fuel base (count + 1) r := by
  simp only [unescapeLoop, hc, Option.bind_eq_bind, Option.bind_some, hzero, hpercent, if_false, hstore]
  split <;> rfl

theorem unescapeLoop_triple {h l : Byte} (hc : input[base + count]? = some '%'.toUInt8)
    (hh : input[base + (count + 1)]? = some h) (hl : input[base + (count + 2)]? = some l)
    (hstore : storeBytes result count [UInt8.ofNat (strtoul16 [h, l])] = some r) :
    unescapeLoop input (fuel + 1) base count result =
      if count + 2 > intMax then none else unescapeLoop input fuel (base + 2) (count + 1) r := by
  have hne : '%'.toUInt8 ≠ 0 := by decide
  simp only [unescapeLoop, hc, Option.bind_eq_bind, Option.bind_some, hne, if_false, if_true, hh, hl,
    hstore]
  split <;> rfl

/-- The round at the terminator. -/
theorem unescapeLoop_end (hend : input[base + count]? = some 0) (hroom : count < result.length) :
    ∃ r, unescapeLoop input (fuel + 1) base count result = some r ∧ r.length = result.length ∧
      r.take (count + 1) = result.take count ++ [0] := by
  obtain ⟨r, hstore, hlen, htake⟩ := storeBytes_byte 0 hroom
  exact ⟨r, by simp [unescapeLoop, hend, hstore], hlen, htake⟩

/-- What the rounds behind a byte `b` write stands behind `b`. -/
theorem take_behind {r' out : List Byte} {b : Byte} {n : Nat} (htake : r.take (count + 1) = result.take count ++ [b])
    (hrest : r'.take (count + 1 + n + 1) = r.take (count + 1) ++ out ++ [0]) :
    r'.take (count + (n + 1) + 1) = result.take count ++ b :: out ++ [0] := by
  rw [show count + (n + 1) + 1 = count + 1 + n + 1 by omega, hrest, htake]
  simp

end Step

/-- The loop decodes the escaped form of `t` byte by byte, as long as it can count. -/
theorem unescapeLoop_spec {input rest : List Byte} (t : List Byte) :
    ∀ {fuel base count : Nat} {result : List Byte},
      input.drop (base + count) = escaped t ++ 0 :: rest → (escaped t).length < fuel →
      count ≤ intMax → count + t.length < result.length →
      (Counts count t → ∃ r, unescapeLoop input fuel base count result = some r ∧
        r.take (count + t.length + 1) = result.take count ++ t ++ [0]) ∧
      (¬ Counts count t → unescapeLoop input fuel base count result = none) := by
  induction t with
  | nil =>
    intro fuel base count result hin hfuel hmax hroom
    obtain ⟨fuel, rfl⟩ : ∃ f, fuel = f + 1 := ⟨fuel - 1, by omega⟩
    have hend : input[base + count]? = some 0 := by
      rw [← Nat.add_zero (base + count), ← List.getElem?_drop, hin]
      rfl
    obtain ⟨r, hrun, -, htake⟩ := unescapeLoop_end hend hroom
    exact ⟨fun _ => ⟨r, hrun, by rwa [List.append_nil]⟩, fun hno => absurd trivial hno⟩
  | cons c t ih =>
    intro fuel base count result hin hfuel hmax hroom
    obtain ⟨fuel, rfl⟩ : ∃ f, fuel = f + 1 := ⟨fuel - 1, by omega⟩
    rw [List.length_cons] at hroom
    rw [escaped_cons, List.append_assoc] at hin
    rw [escaped_cons, List.length_append] at hfuel
    have hread : ∀ i, i < (escapeByte c).length → input[base + (count + i)]? = (escapeByte c)[i]? := by
      intro i hi
      rw [← Nat.add_assoc, ← List.getElem?_drop, hin, List.getElem?_append_left hi]
    have hdrop : input.drop (base + count + (escapeByte c).length) = escaped t ++ 0 :: rest := by
      rw [← List.drop_drop, hin, List.drop_left]
    obtain ⟨r, hstore, hlen, htake⟩ := storeBytes_byte c (show count < result.length by omega)
    -- the rounds behind this one, wherever the base is now
    have hrest : ∀ base', base' + (count + 1) = base + count + (escapeByte c).length → count + 1 ≤ intMax →
        (Counts (count + 1) t → ∃ r', unescapeLoop input fuel base' (count + 1) r = some r' ∧
          r'.take (count + (t.length + 1) + 1) = result.take count ++ c :: t ++ [0]) ∧
        (¬ Counts (count + 1) t → unescapeLoop input fuel base' (count + 1) r = none) := by
      intro base' hbase hmax'
      have hpos := escapeByte_pos c
      have hin' : input.drop (base' + (count + 1)) = escaped t ++ 0 :: rest := by rw [hbase]; exact hdrop
      have hroom' : count + 1 + t.length < r.length := by omega
      obtain ⟨hyes, hno⟩ := ih hin' (by omega : (escaped t).length < fuel) hmax' hroom'
      refine ⟨fun hcounts => ?_, hno⟩
      obtain ⟨r', hrun, hr'⟩ := hyes hcounts
      exact ⟨r', hrun, take_behind htake hr'⟩
    cases hun : urlIsUnreserved c with
    | true =>
      have hesc : escapeByte c = [c] := by simp [escapeByte, hun]
      rw [hesc] at hread hrest
      obtain ⟨hzero, hpercent⟩ := unreserved_ne hun
      have hc : input[base + count]? = some c := hread 0 (by simp)
      rw [unescapeLoop_plain hc hzero hpercent hstore]
      have hcounts : Counts count (c :: t) ↔ count + 1 ≤ intMax ∧ Counts (count + 1) t := by
        rw [Counts, hun, if_pos rfl]
      rw [hcounts]
      by_cases hlast : count = intMax
      · rw [if_pos hlast]
        exact ⟨fun hc => by omega, fun _ => rfl⟩
      · obtain ⟨hyes, hno⟩ := hrest base (by rw [List.length_singleton]; omega) (by omega)
        rw [if_neg hlast]
        exact ⟨fun hc => hyes hc.2, fun hc => hno fun h => hc ⟨by omega, h⟩⟩
    | false =>
      have hesc : escapeByte c = percentTriple c := by simp [escapeByte, hun]
      rw [hesc] at hread hrest
      have hthree : (percentTriple c).length = 3 := rfl
      have hc : input[base + count]? = some '%'.toUInt8 := hread 0 (by simp [percentTriple])
      have hhi := hread 1 (by simp [percentTriple])
      have hlo := hread 2 (by simp [percentTriple])
      rw [← strtoul16_byte c] at hstore
      rw [unescapeLoop_triple hc hhi hlo hstore]
      have hcounts : Counts count (c :: t) ↔ count + 2 ≤ intMax ∧ Counts (count + 1) t := by
        rw [Counts, hun, if_neg Bool.false_ne_true]
      rw [hcounts]
      by_cases hlast : count + 2 > intMax
      · rw [if_pos hlast]
        exact ⟨fun hc => by omega, fun _ => rfl⟩
      · obtain ⟨hyes, hno⟩ := hrest (base + 2) (by rw [hthree]; omega) (by omega)
        rw [if_neg hlast]
        exact ⟨fun hc => hyes hc.2, fun hc => hno fun h => hc ⟨by omega, h⟩⟩

theorem escaped_length (s : List Byte) : s.length ≤ (escaped s).length := by
  induction s with
  | nil => exact Nat.le_refl 0
  | cons c s ih =>
    have hpos := escapeByte_pos c
    rw [escaped_cons, List.length_append, List.length_cons]
    omega

/-- `xurl_unescape` on what `xurl_escape` has made of `s`. -/
theorem xurlUnescape_spec (grant : Nat → Bool) (fill : Byte) (s : CString) (rest : List Byte) :
    (∃ n, grant n = false) ∧
      xurlUnescape grant fill (escaped s.val ++ 0 :: rest) = some none ∨
    (Counts 0 s.val ∧ ∃ result, xurlUnescape grant fill (escaped s.val ++ 0 :: rest) = some (some result) ∧
      cstr result = some s.val) ∨
    (¬ Counts 0 s.val ∧ xurlUnescape grant fill (escaped s.val ++ 0 :: rest) = none) := by
  have hin : cstr (escaped s.val ++ 0 :: rest) = some (escaped s.val) :=
    cstr_append_zero (zero_notMem_escaped s.val)
  have hlong := escaped_length s.val
  have hfuel : (escaped s.val).length < (escaped s.val ++ 0 :: rest).length + 1 := by
    rw [List.length_append]
    omega
  have hroom : 0 + s.val.length < (List.replicate ((escaped s.val).length + 1) fill).length := by
    rw [List.length_replicate]
    omega
  have hstart : (escaped s.val ++ 0 :: rest).drop (0 + 0) = escaped s.val ++ 0 :: rest := rfl
  obtain ⟨hyes, hno⟩ := unescapeLoop_spec s.val hstart hfuel (Nat.zero_le intMax) hroom
  unfold xurlUnescape
  rw [hin]
  simp only [Option.bind_eq_bind, Option.bind_some]
  by_cases hgrant : grant ((escaped s.val).length + 1) = false
  · rw [if_pos hgrant]
    exact .inl ⟨⟨_, hgrant⟩, rfl⟩
  · rw [if_neg hgrant]
    by_cases hcounts : Counts 0 s.val
    · obtain ⟨r, hrun, hr⟩ := hyes hcounts
      rw [Nat.zero_add, List.take_zero, List.nil_append] at hr
      have hblock : r = s.val ++ 0 :: r.drop (s.val.length + 1) := by
        conv_lhs => rw [← List.take_append_drop (s.val.length + 1) r, hr]
        simp
      rw [hrun]
      refine .inr (.inl ⟨hcounts, r, rfl, ?_⟩)
      rw [hblock]
      exact cstr_append_zero s.property
    · rw [hno hcounts]
      exact .inr (.inr ⟨hcounts, rfl⟩)

/-! ## There and back -/

/-- For every way to hand `s` over, and unless an allocation is refused: the output of `xurl_escape` is
well formed, `xurl_unescape` makes `s` of it, and no access is outside of a block. -/
def RoundTrips (s : CString) : Prop :=
  ∀ (grant grant' : Nat → Bool) (fill fill' : Byte) (input : List Byte) (inlen : Int),
    Given s input inlen →
    ((∃ n, grant n = false) ∧ xurlEscape grant fill input inlen = some none) ∨
    ∃ block out, xurlEscape grant fill input inlen = some (some block) ∧ cstr block = some out ∧
      Escaped out ∧
      (((∃ n, grant' n = false) ∧ xurlUnescape grant' fill' block = some none) ∨
       ∃ result, xurlUnescape grant' fill' block = some (some result) ∧ cstr result = some s.val)

theorem round_trips {s : CString} (hcounts : Counts 0 s.val) : RoundTrips s := by
  intro grant grant' fill fill' input inlen hgiven
  cases xurlEscape_spec grant fill hgiven with
  | inl hrefused => exact .inl hrefused
  | inr hspec =>
    obtain ⟨rest, hspec⟩ := hspec
    refine .inr ⟨_, escaped s.val, hspec, cstr_append_zero (zero_notMem_escaped s.val),
      escaped_escaped s.val, ?_⟩
    rcases xurlUnescape_spec grant' fill' s rest with hrefused | hyes | hno
    · exact .inl hrefused
    · exact .inr hyes.2
    · exact absurd hcounts hno.1

/-- Where counting fails, nothing is decoded even if all memory is granted. -/
theorem not_round_trips {s : CString} (hcounts : ¬ Counts 0 s.val) : ¬ RoundTrips s := by
  intro htrip
  have hgiven : Given s (s.val ++ [0]) 0 := .inl ⟨rfl, [], rfl⟩
  have hgrant : ¬ ∃ n, (fun _ : Nat => true) n = false := by simp
  cases htrip (fun _ => true) (fun _ => true) 0 0 _ 0 hgiven with
  | inl hrefused => exact hgrant hrefused.1
  | inr hdone =>
    obtain ⟨block, out, hesc, -, -, hun⟩ := hdone
    cases xurlEscape_spec (fun _ => true) 0 hgiven with
    | inl hrefused => exact hgrant hrefused.1
    | inr hspec =>
      obtain ⟨rest, hspec⟩ := hspec
      rw [hspec] at hesc
      cases hesc
      rcases xurlUnescape_spec (fun _ => true) 0 s rest with hrefused | hyes | hno
      · exact hgrant hrefused.1
      · exact hcounts hyes.1
      · rw [hno.2] at hun
        simp at hun

/-- **There and back.** Escaping and unescaping gives every string back whose length is an `int` and,
if it has the largest length, ends with an unreserved character. -/
theorem round_trip_iff (s : CString) :
    RoundTrips s ↔ s.val.length < intMax ∨
      (s.val.length = intMax ∧ ∃ c, s.val.getLast? = some c ∧ urlIsUnreserved c = true) := by
  constructor
  · intro htrip
    by_contra hlong
    refine not_round_trips (fun hcounts => ?_) htrip
    rw [counts_iff, Nat.zero_add] at hcounts
    cases hcounts with
    | inl hnil => exact hlong (.inl (by rw [hnil]; decide))
    | inr hshort => exact hlong hshort
  · intro hshort
    refine round_trips ?_
    rw [counts_iff, Nat.zero_add]
    exact .inr hshort

/-- `count++` overflows on every string of more than `INT_MAX` bytes. -/
theorem not_counts_long {s : List Byte} (hlong : intMax < s.length) : ¬ Counts 0 s := by
  intro hcounts
  rw [counts_iff, Nat.zero_add] at hcounts
  rcases hcounts with hnil | hlt | heq
  · rw [hnil] at hlong
    exact absurd hlong (Nat.not_lt_zero _)
  · omega
  · omega

/-- `2^31` bytes of `a`: they are escaped, and not read back. -/
theorem not_round_trip_large : ∃ s : CString, s.val = List.replicate (2 ^ 31) 'a'.toUInt8 ∧
    ¬ RoundTrips s := by
  have hzero : (0 : Byte) ∉ List.replicate (2 ^ 31) 'a'.toUInt8 := by
    intro hmem
    exact absurd (List.eq_of_mem_replicate hmem) (by decide)
  refine ⟨⟨_, hzero⟩, rfl, not_round_trips (not_counts_long ?_)⟩
  rw [List.length_replicate]
  unfold intMax
  omega

end Xurl
end Xlibc
