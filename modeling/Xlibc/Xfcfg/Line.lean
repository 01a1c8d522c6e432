import Xlibc.Xfcfg.Model

/-!
# Xlibc.Xfcfg.Line

What one line does.

* `assignment`, `lineCalls` : what a line assigns, and the calls of `parse` that it stands for.
* `Did`                     : a state after some calls.
* `lineStep_spec`           : the loop body makes the calls of the string in the buffer.
-/

namespace Xlibc
namespace Xfcfg

open Xcharstr

variable {ν α : Type}

/-- A line without its comment. -/
def uncommented (line : List Byte) : List Byte := line.takeWhile (· ≠ '#'.toUInt8)

/-- The name and the value of an assignment: of a line without its comment, with an `=` and with
something behind it. -/
def assignment (line : List Byte) : Option (List Byte × List Byte) :=
  let text := trim isspace (uncommented line)
  if '='.toUInt8 ∈ text then
    let val := trim isspace (text.dropWhile (· ≠ '='.toUInt8)).tail
    if val = [] then none else some (trim isspace (text.takeWhile (· ≠ '='.toUInt8)), val)
  else none

/-- The call for the value `val` of the first option called `name`. -/
def assignCalls (table : List (XfcfgOption ν α)) (name val : List Byte) : List (Call ν α) :=
  ((table.find? fun o => o.name.val = name).map fun o => (o, val)).toList

/-- The calls of `parse` for a line. -/
def lineCalls (table : List (XfcfgOption ν α)) (line : List Byte) : List (Call ν α) :=
  (assignment line).toList.flatMap fun a => assignCalls table a.1 a.2

theorem lineCalls_none (table : List (XfcfgOption ν α)) (line : List Byte)
    (h : '='.toUInt8 ∉ trim isspace (uncommented line)) : lineCalls table line = [] := by
  rw [lineCalls, assignment]
  simp only
  rw [if_neg h]
  rfl

theorem lineCalls_split (table : List (XfcfgOption ν α)) (line : List Byte) {a b : List Byte}
    (h : trim isspace (uncommented line) = a ++ '='.toUInt8 :: b) (ha : '='.toUInt8 ∉ a) :
    lineCalls table line =
      if trim isspace b = [] then [] else assignCalls table (trim isspace a) (trim isspace b) := by
  rw [lineCalls, assignment]
  simp only [h, takeWhile_ne ha, dropWhile_ne ha, List.tail_cons]
  rw [if_pos (by simp)]
  split <;> simp

variable [DecidableEq ν]

def applyCall (vars : ν → α) (c : Call ν α) : ν → α :=
  Function.update vars c.1.value (c.1.parse c.2 (vars c.1.value)).2

/-- The variables after some calls. -/
def runCalls (vars : ν → α) (cs : List (Call ν α)) : ν → α := cs.foldl applyCall vars

/-- `s'` is `s` after the calls `cs`. -/
structure Did (cs : List (Call ν α)) (s s' : Cfg ν α) : Prop where
  calls : s'.calls = s.calls ++ cs
  vars : s'.vars = runCalls s.vars cs

theorem Did.none {s s' : Cfg ν α} (hcalls : s'.calls = s.calls) (hvars : s'.vars = s.vars) :
    Did [] s s' := ⟨by rw [hcalls, List.append_nil], hvars⟩

theorem Did.append {cs cs' : List (Call ν α)} {s s' s'' : Cfg ν α} (h : Did cs s s')
    (h' : Did cs' s' s'') : Did (cs ++ cs') s s'' := by
  refine ⟨?_, ?_⟩
  · rw [h'.calls, h.calls, List.append_assoc]
  · rw [h'.vars, h.vars, runCalls, runCalls, runCalls, List.foldl_append]

theorem Did.parse (s : Cfg ν α) (o : XfcfgOption ν α) (text : List Byte) (error : Message) :
    Did [(o, text)] s (s.parse o text error) := ⟨rfl, rfl⟩

theorem assign_did (name val : List Byte) (table : List (XfcfgOption ν α)) (s : Cfg ν α) :
    Did (assignCalls table name val) s (assign name val table s) := by
  induction table with
  | nil => exact .none rfl rfl
  | cons o os ih =>
    rw [assign, assignCalls, List.find?_cons]
    by_cases hname : o.name.val = name
    · rw [if_neg (fun h => h hname), decide_eq_true hname]
      exact .parse s o val _
    · rw [if_pos hname, decide_eq_false hname]
      exact ih

/-! ## The buffer -/

theorem cutComment_spec {t : List Byte} (ht : (0 : Byte) ∉ t) (rest : List Byte) :
    ∃ rest', cutComment (t ++ 0 :: rest) = some (uncommented t ++ 0 :: rest') ∧
      (uncommented t).length + rest'.length = t.length + rest.length := by
  by_cases hmem : '#'.toUInt8 ∈ t
  · obtain ⟨a, b, rfl, ha⟩ := List.eq_append_cons_of_mem hmem
    have hchr := strchr_first ht ha [] rest
    rw [List.nil_append, List.length_nil, Nat.zero_add] at hchr
    have hstore := storeBytes_singleton a '#'.toUInt8 0 (b ++ 0 :: rest)
    rw [uncommented, takeWhile_ne ha]
    refine ⟨b ++ 0 :: rest, ?_, by simp only [List.length_append, List.length_cons]; omega⟩
    rw [cutComment, hchr, ← hstore, List.append_assoc, List.cons_append]
    rfl
  · have hchr := strchr_absent ht hmem [] rest
    rw [List.nil_append, List.length_nil] at hchr
    have hall : uncommented t = t := takeWhile_ne_self hmem
    rw [hall]
    refine ⟨rest, ?_, rfl⟩
    rw [cutComment, hchr]
    rfl

theorem splitLine_eq (table : List (XfcfgOption ν α)) (s : Cfg ν α)
    {buf buf1 buf2 buf3 nameText valText : List Byte} {val name val' : Nat}
      (hstore : storeBytes buf val [0] = some buf1)
    (hname : xstrstrip buf1 0 = some (buf2, name)) (hval : xstrstrip buf2 (val + 1) = some (buf3, val'))
    (hnameText : cstr (buf3.drop name) = some nameText) (hvalText : cstr (buf3.drop val') = some valText) :
    ∃ s', splitLine table buf val s = some (buf3, s') ∧
      Did (if valText = [] then [] else assignCalls table nameText valText) s s' := by
  have hhead := cstr_head hvalText
  have hzero := cstr_nonzero hvalText
  cases valText with
  | nil =>
    refine ⟨s, ?_, .none rfl rfl⟩
    simp [splitLine, hstore, hname, hval, hhead]
  | cons c v =>
    have hc : c ≠ 0 := fun h => hzero (h ▸ List.mem_cons_self)
    refine ⟨assign nameText (c :: v) table (s.print (.read nameText (c :: v))), ?_, ?_⟩
    · simp [splitLine, hstore, hname, hval, hhead, hc, hnameText, hvalText]
    · rw [if_neg (List.cons_ne_nil c v)]
      have hprint : Did [] s (s.print (.read nameText (c :: v))) := .none rfl rfl
      exact hprint.append (assign_did nameText (c :: v) table _)

/-- The line is split at its first `=`, in front of which there may be blanks still. -/
theorem splitLine_spec (table : List (XfcfgOption ν α)) {lead a b : List Byte}
    (hlead : ∀ c ∈ lead, isspace c = true) (ht : (0 : Byte) ∉ lead ++ a ++ '='.toUInt8 :: b)
    (rest : List Byte) (s : Cfg ν α) :
    ∃ buf' s', splitLine table (lead ++ a ++ '='.toUInt8 :: (b ++ 0 :: rest)) (lead ++ a).length s =
        some (buf', s') ∧
      buf'.length = (lead ++ a ++ '='.toUInt8 :: (b ++ 0 :: rest)).length ∧
      Did (if trim isspace b = [] then [] else assignCalls table (trim isspace a) (trim isspace b)) s s' := by
  rw [List.mem_append, List.mem_cons, not_or, not_or] at ht
  obtain ⟨hta, -, htb⟩ := ht
  have hstore := storeBytes_singleton (lead ++ a) '='.toUInt8 0 (b ++ 0 :: rest)
  -- the name, at the start of the buffer
  obtain ⟨lead', mid, -, hlen, hname⟩ := xstrstrip_spec [] hta (b ++ 0 :: rest)
  rw [trim_append_left hlead] at hlen hname
  rw [List.nil_append, List.nil_append, List.length_nil, Nat.zero_add] at hname
  -- the value, behind the old place of the `=`
  have hpre : (lead' ++ trim isspace a ++ 0 :: mid).length = (lead ++ a).length + 1 := by
    simp only [List.length_append, List.length_cons] at hlen ⊢
    omega
  have hblock : lead' ++ trim isspace a ++ 0 :: (mid ++ (b ++ 0 :: rest)) =
      lead' ++ trim isspace a ++ 0 :: mid ++ (b ++ 0 :: rest) := by simp
  obtain ⟨lead'', mid', -, hlen', hval⟩ := xstrstrip_spec (lead' ++ trim isspace a ++ 0 :: mid) htb rest
  rw [hblock] at hname
  rw [hpre] at hval
  have hnameText : cstr ((lead' ++ trim isspace a ++ 0 :: mid ++
      (lead'' ++ trim isspace b ++ 0 :: (mid' ++ rest))).drop lead'.length) = some (trim isspace a) := by
    have hza : (0 : Byte) ∉ trim isspace a := fun h => hta (List.mem_append_right lead (trim_subset a h))
    simpa using cstr_drop hza lead' (mid ++ (lead'' ++ trim isspace b ++ 0 :: (mid' ++ rest)))
  have hvalText : cstr ((lead' ++ trim isspace a ++ 0 :: mid ++
      (lead'' ++ trim isspace b ++ 0 :: (mid' ++ rest))).drop ((lead ++ a).length + 1 + lead''.length)) =
      some (trim isspace b) := by
    have hzb : (0 : Byte) ∉ trim isspace b := fun h => htb (trim_subset b h)
    rw [← hpre, ← List.length_append, List.append_assoc lead'' (trim isspace b), ← List.append_assoc _ lead'']
    exact cstr_drop hzb _ _
  obtain ⟨s', hrun, hdid⟩ := splitLine_eq table s hstore hname hval hnameText hvalText
  refine ⟨_, s', hrun, ?_, hdid⟩
  rw [List.length_append, hpre]
  simp only [List.length_append, List.length_cons] at hlen' ⊢
  omega

/-- The stripped line `text`, with the blanks `lead` in front of it. -/
theorem nameLine_spec (table : List (XfcfgOption ν α)) (line : Nat) {lead text : List Byte}
    (hlead : ∀ c ∈ lead, isspace c = true) (ht : (0 : Byte) ∉ text) (rest : List Byte) (s : Cfg ν α)
    {cs : List (Call ν α)} (hnone : '='.toUInt8 ∉ text → cs = [])
    (hsplit : ∀ a b, text = a ++ '='.toUInt8 :: b → '='.toUInt8 ∉ a →
      cs = if trim isspace b = [] then [] else assignCalls table (trim isspace a) (trim isspace b)) :
    ∃ buf' s', nameLine table line (lead ++ (text ++ 0 :: rest)) lead.length s = some (buf', s') ∧
      buf'.length = (lead ++ (text ++ 0 :: rest)).length ∧ Did cs s s' := by
  have hstr := cstr_drop ht lead rest
  have hzl : (0 : Byte) ∉ lead := fun h => absurd (hlead 0 h) (by decide)
  by_cases heq : '='.toUInt8 ∈ text
  · obtain ⟨a, b, rfl, ha⟩ := List.eq_append_cons_of_mem heq
    have hchr := strchr_first ht ha lead rest
    have hblock : lead ++ (a ++ '='.toUInt8 :: b ++ 0 :: rest) =
        lead ++ a ++ '='.toUInt8 :: (b ++ 0 :: rest) := by simp
    have hzs : (0 : Byte) ∉ lead ++ a ++ '='.toUInt8 :: b := by
      rw [List.append_assoc, List.mem_append, not_or]
      exact ⟨hzl, ht⟩
    obtain ⟨buf', s', hrun, hbuf, hdid⟩ := splitLine_spec table hlead hzs rest s
    rw [← hblock, List.length_append] at hrun
    rw [← hblock] at hbuf
    rw [hsplit a b rfl ha]
    refine ⟨buf', s', ?_, hbuf, hdid⟩
    rw [nameLine, hstr, Option.bind_eq_bind, Option.bind_some, if_neg (by simp), hchr]
    exact hrun
  · rw [hnone heq]
    by_cases hnil : text.length = 0
    · refine ⟨_, s, ?_, rfl, .none rfl rfl⟩
      rw [nameLine, hstr, Option.bind_eq_bind, Option.bind_some, if_pos hnil]
    · have hchr := strchr_absent ht heq lead rest
      have hall : cstr (lead ++ (text ++ 0 :: rest)) = some (lead ++ text) := by
        rw [← List.append_assoc]
        refine cstr_append_zero ?_
        rw [List.mem_append, not_or]
        exact ⟨hzl, ht⟩
      refine ⟨_, s.print (.cantAnalyse (i32OfNat line) (lead ++ text)), ?_, rfl, .none rfl rfl⟩
      rw [nameLine, hstr, Option.bind_eq_bind, Option.bind_some, if_neg hnil, hchr, Option.bind_eq_bind,
        Option.bind_some, hall]
      rfl

/-- The loop body on the string `t` in the buffer. -/
theorem lineStep_spec (table : List (XfcfgOption ν α)) (line : Nat) {t : List Byte} (ht : (0 : Byte) ∉ t)
    (rest : List Byte) (s : Cfg ν α) :
    ∃ buf' s', lineStep table line (t ++ 0 :: rest) s = some (buf', s') ∧
      buf'.length = (t ++ 0 :: rest).length ∧ Did (lineCalls table t) s s' := by
  have hread : (t ++ 0 :: rest)[0]? = some (t.headD 0) := by cases t <;> rfl
  by_cases hhash : t.headD 0 = '#'.toUInt8
  · have hcalls : lineCalls table t = [] := by
      refine lineCalls_none table t ?_
      cases t with
      | nil => simp [uncommented]
      | cons c t =>
        rw [List.headD_cons] at hhash
        simp [uncommented, hhash]
    rw [hcalls]
    refine ⟨t ++ 0 :: rest, s, ?_, rfl, .none rfl rfl⟩
    rw [lineStep, hread, Option.bind_eq_bind, Option.bind_some, if_pos hhash]
  · obtain ⟨rest', hcut, hlen⟩ := cutComment_spec ht rest
    have hz : (0 : Byte) ∉ uncommented t := fun h => ht (List.takeWhile_subset _ h)
    obtain ⟨lead, mid, hlead, hlen', hname⟩ := xstrstrip_spec [] hz rest'
    rw [List.nil_append, List.nil_append, List.length_nil, Nat.zero_add, List.append_assoc] at hname
    have hzt : (0 : Byte) ∉ trim isspace (uncommented t) := fun h => hz (trim_subset _ h)
    obtain ⟨buf', s', hrun, hbuf, hdid⟩ := nameLine_spec table line hlead hzt (mid ++ rest') s
      (lineCalls_none table t) (fun a b => lineCalls_split table t)
    refine ⟨buf', s', ?_, ?_, hdid⟩
    · rw [lineStep, hread, Option.bind_eq_bind, Option.bind_some, if_neg hhash, hcut, Option.bind_eq_bind,
        Option.bind_some, hname, Option.bind_eq_bind, Option.bind_some]
      exact hrun
    · rw [hbuf]
      simp only [List.length_append, List.length_cons] at hlen hlen' ⊢
      omega

end Xfcfg
end Xlibc
