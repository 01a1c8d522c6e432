import Xlibc.Base.CStr
import Xlibc.Base.Lines

/-!
# Xlibc.Xcharstr.Strip

`xstrstrip`, which trims a string in its block. The bytes in front of the string and behind its
terminator stay what they were.
-/

namespace Xlibc
namespace Xcharstr

/-- `while (end >= s && isspace(*end)) end--`, with `n` bytes from `s` up to `end`: how many stay. -/
def stripEnd (block : List Byte) (s : Nat) : Nat → Option Nat
  | 0 => some 0
  | n + 1 => do
    let c ← block[s + n]?
    if isspace c then stripEnd block s n else some (n + 1)

/-- `while (*s && isspace(*s)) s++`. Every round reads further in the block. -/
def stripStart (block : List Byte) : Nat → Nat → Option Nat
  | 0, _ => none
  | fuel + 1, s => do
    let c ← block[s]?
    if c ≠ 0 ∧ isspace c = true then stripStart block fuel (s + 1) else some s

/-- `xstrstrip`: the block, and where the trimmed string starts. -/
def xstrstrip (block : List Byte) (s : Nat) : Option (List Byte × Nat) := do
  let t ← cstr (block.drop s)
  if t.length = 0 then some (block, s)
  else do
    let n ← stripEnd block s t.length
    let block ← storeBytes block (s + n) [0]
    let s ← stripStart block (block.length + 1) s
    some (block, s)

theorem stripEnd_spec (pre : List Byte) (t : List Byte) : ∀ rest,
    stripEnd (pre ++ (t ++ rest)) pre.length t.length = some (t.rdropWhile isspace).length := by
  induction t using List.reverseRecOn with
  | nil =>
    intro rest
    rw [List.rdropWhile_nil]
    rfl
  | append_singleton t c ih =>
    intro rest
    have hread : (pre ++ (t ++ [c] ++ rest))[pre.length + t.length]? = some c := by simp
    rw [List.length_append, List.length_singleton, stripEnd, hread, Option.bind_eq_bind, Option.bind_some]
    by_cases hc : isspace c = true
    · rw [if_pos hc, List.rdropWhile_concat_pos _ _ _ hc, List.append_assoc, ih]
    · rw [if_neg hc, List.rdropWhile_concat_neg _ _ _ hc, List.length_append, List.length_singleton]

theorem stripStart_spec (t : List Byte) (ht : (0 : Byte) ∉ t) (rest : List Byte) :
    ∀ (fuel : Nat) (pre : List Byte), t.length < fuel →
      stripStart (pre ++ (t ++ 0 :: rest)) fuel pre.length =
        some (pre.length + (t.takeWhile isspace).length) := by
  induction t with
  | nil =>
    intro fuel pre hfuel
    cases fuel with
    | zero => exact absurd hfuel (Nat.not_lt_zero _)
    | succ fuel =>
      have hread : (pre ++ ([] ++ 0 :: rest))[pre.length]? = some 0 := by simp
      rw [stripStart, hread, Option.bind_eq_bind, Option.bind_some, if_neg (fun h => h.1 rfl)]
      rfl
  | cons c t ih =>
    intro fuel pre hfuel
    rw [List.mem_cons, not_or] at ht
    have hc : c ≠ 0 := fun h => ht.1 h.symm
    cases fuel with
    | zero => exact absurd hfuel (Nat.not_lt_zero _)
    | succ fuel =>
      have hread : (pre ++ (c :: t ++ 0 :: rest))[pre.length]? = some c := by simp
      rw [stripStart, hread, Option.bind_eq_bind, Option.bind_some]
      by_cases hspace : isspace c = true
      · have hblock : pre ++ (c :: t ++ 0 :: rest) = pre ++ [c] ++ (t ++ 0 :: rest) := by simp
        have hlen : pre.length + 1 = (pre ++ [c]).length := by simp
        rw [if_pos ⟨hc, hspace⟩, hblock, hlen, ih ht.2 fuel _ (Nat.lt_of_succ_lt_succ hfuel),
          List.takeWhile_cons_of_pos hspace, List.length_append, List.length_singleton, List.length_cons,
          Nat.add_assoc, Nat.add_comm 1]
      · rw [if_neg (fun h => hspace h.2), List.takeWhile_cons_of_neg hspace]
        rfl

/-- The string is trimmed: the blanks `lead` in front of it are skipped, and `mid` is what stands
between its new and its old terminator. -/
theorem xstrstrip_spec (pre : List Byte) {t : List Byte} (ht : (0 : Byte) ∉ t) (rest : List Byte) :
    ∃ lead mid, (∀ c ∈ lead, isspace c = true) ∧
      lead.length + (trim isspace t).length + mid.length = t.length ∧
      xstrstrip (pre ++ (t ++ 0 :: rest)) pre.length =
        some (pre ++ (lead ++ trim isspace t ++ 0 :: (mid ++ rest)), pre.length + lead.length) := by
  have hblank : ∀ c ∈ (t.rdropWhile isspace).takeWhile isspace, isspace c = true := fun c hc =>
    List.mem_takeWhile_imp hc
  have hlead : (t.rdropWhile isspace).takeWhile isspace ++ trim isspace t = t.rdropWhile isspace :=
    List.takeWhile_append_dropWhile
  have htail : t.rdropWhile isspace ++ t.rtakeWhile isspace = t := List.rdropWhile_append_rtakeWhile
  refine ⟨(t.rdropWhile isspace).takeWhile isspace, (t.rtakeWhile isspace ++ [0]).tail, hblank, ?_, ?_⟩
  · have hlen := congrArg List.length htail
    rw [← hlead] at hlen
    simp only [List.length_append] at hlen
    rw [List.length_tail, List.length_append, List.length_singleton, Nat.add_sub_cancel]
    exact hlen
  · rw [xstrstrip, cstr_drop ht, Option.bind_eq_bind, Option.bind_some, hlead]
    by_cases hnil : t.length = 0
    · rw [if_pos hnil]
      cases List.length_eq_zero_iff.mp hnil
      simp
    · have hzero : (0 : Byte) ∉ t.rdropWhile isspace := fun h => ht ((List.rdropWhile_prefix isspace t).subset h)
      -- the byte that is overwritten: a blank, or the old terminator
      obtain ⟨b, hb⟩ : ∃ b, t ++ 0 :: rest =
          t.rdropWhile isspace ++ b :: ((t.rtakeWhile isspace ++ [0]).tail ++ rest) := by
        cases hw : t.rtakeWhile isspace with
        | nil =>
          rw [hw, List.append_nil] at htail
          exact ⟨0, by rw [htail]; rfl⟩
        | cons b w =>
          refine ⟨b, ?_⟩
          conv_lhs => rw [← htail, hw]
          simp
      have hstore : storeBytes (pre ++ (t ++ 0 :: rest)) (pre.length + (t.rdropWhile isspace).length) [0] =
          some (pre ++ (t.rdropWhile isspace ++ 0 :: ((t.rtakeWhile isspace ++ [0]).tail ++ rest))) := by
        rw [hb, ← List.append_assoc, ← List.length_append, storeBytes_singleton, List.append_assoc]
      have hfuel : ∀ s : List Byte, (t.rdropWhile isspace).length <
          (pre ++ (t.rdropWhile isspace ++ s)).length + 1 := by
        intro s
        simp only [List.length_append]
        omega
      rw [if_neg hnil, stripEnd_spec, Option.bind_eq_bind, Option.bind_some, hstore, Option.bind_some,
        stripStart_spec _ hzero _ _ _ (hfuel _), Option.bind_some]

end Xcharstr
end Xlibc
