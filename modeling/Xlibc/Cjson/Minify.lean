import Xlibc.Base.Written
import Xlibc.Cjson.RoundTrip

/-!
# Xlibc.Cjson.Minify

`cJSON_Minify` of `cJSON.c`, which takes blanks and comments out of a text where it stands.

* `Minified` : what is left of a text whose strings and comments are closed.
* `cjsonMinify_iff` : the code stays inside the text if and only if they are, and leaves just that.
* `cjsonMinify_print` : of a formatted text it leaves the unformatted one.
-/

namespace Xlibc
namespace Cjson

/-! ## The code -/

/-- `*into++=*json++` -/
def copyByte (block : List Byte) (json into : Nat) : Option (List Byte × Nat × Nat) := do
  let c ← block[json]?
  let block ← storeBytes block into [c]
  some (block, json + 1, into + 1)

/-- `while (*json && *json!='\n') json++;` from here on, or the end of the block is passed. -/
def lineEnd : List Byte → Option Nat
  | [] => none
  | c :: s => if c = 0 ∨ c = '\n'.toUInt8 then some 0 else (lineEnd s).map (· + 1)

/-- `while (*json && !(*json=='*' && json[1]=='/')) json++;` -/
def commentEnd : List Byte → Option Nat
  | [] => none
  | c :: s =>
    if c = 0 then some 0
    else if c = '*'.toUInt8 ∧ s.head? = some '/'.toUInt8 then some 0
    else (commentEnd s).map (· + 1)

/-- `while (*json && *json!='\"'){if (*json=='\\') *into++=*json++;*into++=*json++;}` -/
def copyString : Nat → List Byte → Nat → Nat → Option (List Byte × Nat × Nat)
  | 0, _, _, _ => none
  | fuel + 1, block, json, into => do
    let c ← block[json]?
    if c = 0 ∨ c = '"'.toUInt8 then some (block, json, into)
    else if c = '\\'.toUInt8 then do
      let (block, json, into) ← copyByte block json into
      let (block, json, into) ← copyByte block json into
      copyString fuel block json into
    else do
      let (block, json, into) ← copyByte block json into
      copyString fuel block json into

def IsBlank (c : Byte) : Prop := c = ' '.toUInt8 ∨ c = '\t'.toUInt8 ∨ c = '\r'.toUInt8 ∨ c = '\n'.toUInt8

instance (c : Byte) : Decidable (IsBlank c) := inferInstanceAs (Decidable (_ ∨ _))

/-- `while (*json)`, and the terminator behind it. -/
def minifyLoop : Nat → List Byte → Nat → Nat → Option (List Byte)
  | 0, _, _, _ => none
  | fuel + 1, block, json, into => do
    let c ← block[json]?
    if c = 0 then storeBytes block into [0]
    else if IsBlank c then minifyLoop fuel block (json + 1) into
    else if c = '/'.toUInt8 ∧ block[json + 1]? = some '/'.toUInt8 then do
      let n ← lineEnd (block.drop json)
      minifyLoop fuel block (json + n) into
    else if c = '/'.toUInt8 ∧ block[json + 1]? = some '*'.toUInt8 then do
      let n ← commentEnd (block.drop json)
      minifyLoop fuel block (json + n + 2) into
    else if c = '"'.toUInt8 then do
      let (block, json, into) ← copyByte block json into
      let (block, json, into) ← copyString block.length block json into
      let (block, json, into) ← copyByte block json into
      minifyLoop fuel block json into
    else do
      let (block, json, into) ← copyByte block json into
      minifyLoop fuel block json into

/-- The block behind the call; there is no result if the code leaves it. -/
def cjsonMinify (json : List Byte) : Option (List Byte) := minifyLoop (json.length + 1) json 0 0

/-! ## What is left of a text -/

/-- The inside of a string, as far as it matters where it ends. -/
inductive Body : List Byte → Prop where
  | nil : Body []
  | raw {c : Byte} {s : List Byte} : c ≠ '"'.toUInt8 → c ≠ '\\'.toUInt8 → Body s → Body (c :: s)
  | esc {c : Byte} {s : List Byte} : Body s → Body ('\\'.toUInt8 :: c :: s)

/-- No comment is closed in here. -/
def Open (w : List Byte) : Prop := ∀ a b, w ≠ a ++ '*'.toUInt8 :: '/'.toUInt8 :: b

/-- The text, and what is left of it. A comment ends with its line or with the text, or where it is closed, which may be
at the star that it begins with. -/
inductive Minified : List Byte → List Byte → Prop where
  | done : Minified [] []
  | blank {c : Byte} {s t : List Byte} : IsBlank c → Minified s t → Minified (c :: s) t
  | line {w s t : List Byte} : '\n'.toUInt8 ∉ w → s = [] ∨ deref s = '\n'.toUInt8 → Minified s t →
    Minified ('/'.toUInt8 :: '/'.toUInt8 :: (w ++ s)) t
  | comment {w s t : List Byte} : deref (w ++ ['*'.toUInt8]) = '*'.toUInt8 → Open (w ++ ['*'.toUInt8]) →
    Minified s t →
    Minified ('/'.toUInt8 :: (w ++ '*'.toUInt8 :: '/'.toUInt8 :: s)) t
  | string {w s t : List Byte} : Body w → Minified s t →
    Minified ('"'.toUInt8 :: (w ++ '"'.toUInt8 :: s)) ('"'.toUInt8 :: (w ++ '"'.toUInt8 :: t))
  | other {c : Byte} {s t : List Byte} : ¬ IsBlank c → c ≠ '"'.toUInt8 →
    (c = '/'.toUInt8 → deref s ≠ '/'.toUInt8 ∧ deref s ≠ '*'.toUInt8) → Minified s t →
      Minified (c :: s) (c :: t)

theorem minified_sublist {s t : List Byte} (h : Minified s t) : t.Sublist s := by
  induction h with
  | done => exact .slnil
  | blank _ _ ih => exact ih.cons _
  | line _ _ _ ih => exact ((ih.trans (List.sublist_append_right _ _)).cons _).cons _
  | comment _ _ _ ih => exact (((ih.cons _).cons _).trans (List.sublist_append_right _ _)).cons _
  | string _ _ ih => exact ((List.Sublist.refl _).append (ih.cons_cons _)).cons_cons _
  | other _ _ _ _ ih => exact ih.cons_cons _

/-! ## Strings -/

theorem copyByte_rewriting {block out left : List Byte} {json into : Nat} {c : Byte}
    (h : Rewriting block into json out (c :: left)) :
    ∃ block', copyByte block json into = some (block', json + 1, into + 1) ∧ block'.length = block.length ∧
      Rewriting block' (into + 1) (json + 1) (out ++ [c]) left := by
  obtain ⟨block', hstore, hlen, h'⟩ := h.store c
  exact ⟨block', by simp only [copyByte, h.read, hstore, Option.bind_eq_bind, Option.bind_some], hlen, h'⟩

/-- A string is copied to its end. -/
theorem copyString_body {w : List Byte} (hw : Body w) (hzero : (0 : Byte) ∉ w) {fuel : Nat}
    {block out left : List Byte}
    {json into : Nat} (hfuel : w.length < fuel) (h : Rewriting block into json out (w ++ '"'.toUInt8 :: left)) :
    ∃ block', copyString fuel block json into = some (block', json + w.length, into + w.length) ∧
      block'.length = block.length ∧
      Rewriting block' (into + w.length) (json + w.length) (out ++ w) ('"'.toUInt8 :: left) := by
  induction hw generalizing fuel block out json into with
  | nil =>
    obtain ⟨fuel, rfl⟩ := Nat.exists_eq_add_of_le' hfuel
    rw [List.nil_append] at h
    refine ⟨block, ?_, rfl, by rwa [List.append_nil]⟩
    simp only [copyString, h.read, Option.bind_eq_bind, Option.bind_some, or_true, if_true, List.length_nil,
      Nat.add_zero]
  | @raw c w hquote hback hw ih =>
    obtain ⟨fuel, rfl⟩ := Nat.exists_eq_add_of_le' (show 1 ≤ fuel by omega)
    rw [List.mem_cons, not_or] at hzero
    rw [List.length_cons] at hfuel
    rw [List.cons_append] at h
    have hstop : ¬ (c = 0 ∨ c = '"'.toUInt8) := fun hc => hc.elim (fun hc => hzero.1 hc.symm) hquote
    obtain ⟨block1, hcopy, hlen1, h1⟩ := copyByte_rewriting h
    obtain ⟨block2, hloop, hlen2, h2⟩ := ih hzero.2 (show w.length < fuel by omega) h1
    refine ⟨block2, ?_, hlen2.trans hlen1, ?_⟩
    · simp only [copyString, h.read, Option.bind_eq_bind, Option.bind_some, hstop, hback, if_false, hcopy, hloop,
        List.length_cons, Nat.add_assoc, Nat.add_comm 1]
    · simpa only [List.length_cons, List.append_assoc, List.singleton_append, Nat.add_assoc, Nat.add_comm 1] using h2
  | @esc c w hw ih =>
    obtain ⟨fuel, rfl⟩ := Nat.exists_eq_add_of_le' (show 1 ≤ fuel by omega)
    rw [List.mem_cons, List.mem_cons, not_or, not_or] at hzero
    rw [List.length_cons, List.length_cons] at hfuel
    rw [List.cons_append, List.cons_append] at h
    have hstop : ¬ ('\\'.toUInt8 = 0 ∨ '\\'.toUInt8 = '"'.toUInt8) := by decide
    obtain ⟨block1, hcopy1, hlen1, h1⟩ := copyByte_rewriting h
    obtain ⟨block2, hcopy2, hlen2, h2⟩ := copyByte_rewriting h1
    obtain ⟨block3, hloop, hlen3, h3⟩ := ih hzero.2.2 (show w.length < fuel by omega) h2
    refine ⟨block3, ?_, hlen3.trans (hlen2.trans hlen1), ?_⟩
    · simp only [copyString, h.read, Option.bind_eq_bind, Option.bind_some, hstop, if_false, if_true, hcopy1, hcopy2,
        hloop,
        List.length_cons, Nat.add_assoc, Nat.add_comm 1]
    · simpa only [List.length_cons, List.append_assoc, List.singleton_append, List.cons_append, List.nil_append,
        Nat.add_assoc, Nat.add_comm 1] using h3

/-! ## Comments -/

theorem lineEnd_line {w : List Byte} (hw : '\n'.toUInt8 ∉ w) (hzero : (0 : Byte) ∉ w) {c : Byte}
    (hc : c = 0 ∨ c = '\n'.toUInt8) (rest : List Byte) : lineEnd (w ++ c :: rest) = some w.length := by
  induction w with
  | nil => rw [List.nil_append, lineEnd, if_pos hc]; rfl
  | cons d w ih =>
    rw [List.mem_cons, not_or] at hw hzero
    have hd : ¬ (d = 0 ∨ d = '\n'.toUInt8) := fun h => h.elim (fun h => hzero.1 h.symm) (fun h => hw.1 h.symm)
    rw [List.cons_append, lineEnd, if_neg hd, ih hw.2 hzero.2]
    rfl

theorem open_cons {c : Byte} {w : List Byte} :
    Open (c :: w) ↔ Open w ∧ ¬ (c = '*'.toUInt8 ∧ w.head? = some '/'.toUInt8) := by
  constructor
  · intro h
    constructor
    · rintro a b rfl
      exact h (c :: a) b rfl
    · rintro ⟨rfl, hhead⟩
      obtain ⟨b, rfl⟩ := List.head?_eq_some_iff.mp hhead
      exact h [] b rfl
  · rintro ⟨hw, hc⟩ a b heq
    cases a with
    | nil =>
      rw [List.nil_append, List.cons.injEq] at heq
      exact hc ⟨heq.1, by rw [heq.2]; rfl⟩
    | cons d a =>
      rw [List.cons_append, List.cons.injEq] at heq
      exact hw a b heq.2

theorem open_star : Open ['*'.toUInt8] := by
  rw [open_cons]
  exact ⟨fun a b h => (by cases a <;> cases h), by decide⟩

theorem commentEnd_comment {w : List Byte} (hw : Open (w ++ ['*'.toUInt8])) (hzero : (0 : Byte) ∉ w)
    (rest : List Byte) :
    commentEnd (w ++ '*'.toUInt8 :: '/'.toUInt8 :: rest) = some w.length := by
  induction w with
  | nil => rfl
  | cons c w ih =>
    rw [List.mem_cons, not_or] at hzero
    rw [List.cons_append, open_cons] at hw
    have hhead : (w ++ '*'.toUInt8 :: '/'.toUInt8 :: rest).head? = (w ++ ['*'.toUInt8]).head? := by
      cases w <;> rfl
    rw [List.cons_append, commentEnd, if_neg (fun h => hzero.1 h.symm), hhead, if_neg hw.2, ih hw.1 hzero.2]
    rfl

/-- Without the end of a comment, the terminator is found. -/
theorem commentEnd_open {s : List Byte} (hs : Open s) (hzero : (0 : Byte) ∉ s) :
    commentEnd (s ++ [0]) = some s.length := by
  induction s with
  | nil => rfl
  | cons c s ih =>
    rw [List.mem_cons, not_or] at hzero
    rw [open_cons] at hs
    have hhead : ¬ (c = '*'.toUInt8 ∧ (s ++ [0]).head? = some '/'.toUInt8) := by
      cases s with
      | nil => exact fun h => absurd h.2 (by decide)
      | cons d s => exact hs.2
    rw [List.cons_append, commentEnd, if_neg (fun h => hzero.1 h.symm), if_neg hhead, ih hs.1 hzero.2]
    rfl

theorem open_or_closed (s : List Byte) :
    Open s ∨ ∃ w rest, s = w ++ '*'.toUInt8 :: '/'.toUInt8 :: rest ∧ Open (w ++ ['*'.toUInt8]) := by
  induction s with
  | nil => exact .inl fun a b h => by cases a <;> cases h
  | cons c s ih =>
    by_cases hc : c = '*'.toUInt8 ∧ s.head? = some '/'.toUInt8
    · obtain ⟨rfl, hhead⟩ := hc
      obtain ⟨rest, rfl⟩ := List.head?_eq_some_iff.mp hhead
      exact .inr ⟨[], rest, rfl, open_star⟩
    · rcases ih with h | ⟨w, rest, rfl, h⟩
      · exact .inl (open_cons.mpr ⟨h, hc⟩)
      · refine .inr ⟨c :: w, rest, rfl, open_cons.mpr ⟨h, ?_⟩⟩
        have hhead : (w ++ '*'.toUInt8 :: '/'.toUInt8 :: rest).head? = (w ++ ['*'.toUInt8]).head? := by
          cases w <;> rfl
        rw [hhead] at hc
        exact hc

/-! ## One round of the loop -/

section Round

variable {block out left : List Byte} {json into : Nat}

theorem minifyLoop_blank {c : Byte} (hr : Rewriting block into json out (c :: left)) (hne : c ≠ 0) (hc : IsBlank c)
    (fuel : Nat) : minifyLoop (fuel + 1) block json into = minifyLoop fuel block (json + 1) into := by
  simp only [minifyLoop, hr.read, Option.bind_eq_bind, Option.bind_some, hne, if_false, hc, if_true]

theorem minifyLoop_line (hr : Rewriting block into json out ('/'.toUInt8 :: '/'.toUInt8 :: left)) {n : Nat}
    (hend : lineEnd ('/'.toUInt8 :: '/'.toUInt8 :: left) = some n) (fuel : Nat) :
    minifyLoop (fuel + 1) block json into = minifyLoop fuel block (json + n) into := by
  have hnext : block[json + 1]? = some '/'.toUInt8 := hr.readNext
  have hno : ¬ '/'.toUInt8 = 0 ∧ ¬ IsBlank '/'.toUInt8 := by decide
  simp only [minifyLoop, hr.read, hr.back, Option.bind_eq_bind, Option.bind_some, hno.1, hno.2, if_false, hnext,
    and_self, if_true, hend]

theorem minifyLoop_comment (hr : Rewriting block into json out ('/'.toUInt8 :: '*'.toUInt8 :: left)) {n : Nat}
    (hend : commentEnd ('/'.toUInt8 :: '*'.toUInt8 :: left) = some n) (fuel : Nat) :
    minifyLoop (fuel + 1) block json into = minifyLoop fuel block (json + n + 2) into := by
  have hnext : block[json + 1]? = some '*'.toUInt8 := hr.readNext
  have hno : ¬ '/'.toUInt8 = 0 ∧ ¬ IsBlank '/'.toUInt8 := by decide
  have hstar : ¬ some '*'.toUInt8 = some '/'.toUInt8 := by decide
  simp only [minifyLoop, hr.read, hr.back, Option.bind_eq_bind, Option.bind_some, hno.1, hno.2, if_false, hnext, hstar,
    and_false, and_self, if_true, hend]

/-- A quotation mark is copied, then the string, then what is behind it. -/
theorem minifyLoop_string (hr : Rewriting block into json out ('"'.toUInt8 :: left)) (fuel : Nat) :
    ∃ block', block'.length = block.length ∧
      Rewriting block' (into + 1) (json + 1) (out ++ ['"'.toUInt8]) left ∧
      minifyLoop (fuel + 1) block json into =
        (copyString block.length block' (json + 1) (into + 1)).bind fun r =>
          (copyByte r.1 r.2.1 r.2.2).bind fun r => minifyLoop fuel r.1 r.2.1 r.2.2 := by
  obtain ⟨block', hcopy, hlen, hr'⟩ := copyByte_rewriting hr
  have hno : ¬ '"'.toUInt8 = 0 ∧ ¬ IsBlank '"'.toUInt8 ∧ ¬ '"'.toUInt8 = '/'.toUInt8 := by decide
  refine ⟨block', hlen, hr', ?_⟩
  simp only [minifyLoop, hr.read, Option.bind_eq_bind, Option.bind_some, hno.1, hno.2.1, hno.2.2, false_and, if_false,
    if_true, hcopy, hlen]

theorem minifyLoop_other {c : Byte} (hr : Rewriting block into json out (c :: left)) (hne : c ≠ 0)
    (hblank : ¬ IsBlank c)
    (hquote : c ≠ '"'.toUInt8)
    (hslash : c = '/'.toUInt8 → left.head? ≠ some '/'.toUInt8 ∧ left.head? ≠ some '*'.toUInt8) (fuel : Nat) :
    ∃ block', block'.length = block.length ∧ Rewriting block' (into + 1) (json + 1) (out ++ [c]) left ∧
      minifyLoop (fuel + 1) block json into = minifyLoop fuel block' (json + 1) (into + 1) := by
  obtain ⟨block', hcopy, hlen, hr'⟩ := copyByte_rewriting hr
  have hline : ¬ (c = '/'.toUInt8 ∧ block[json + 1]? = some '/'.toUInt8) := by
    rw [hr.readNext]
    exact fun h => (hslash h.1).1 h.2
  have hcomment : ¬ (c = '/'.toUInt8 ∧ block[json + 1]? = some '*'.toUInt8) := by
    rw [hr.readNext]
    exact fun h => (hslash h.1).2 h.2
  refine ⟨block', hlen, hr', ?_⟩
  simp only [minifyLoop, hr.read, Option.bind_eq_bind, Option.bind_some, hne, hblank, hline, hcomment, hquote, if_false,
    hcopy]

/-- A comment to the end of its line. -/
theorem minifyLoop_lineComment {w s : List Byte} (hw : '\n'.toUInt8 ∉ w) (hs : s = [] ∨ deref s = '\n'.toUInt8)
    (hzero : (0 : Byte) ∉ w) (hr : Rewriting block into json out ('/'.toUInt8 :: '/'.toUInt8 :: (w ++ s) ++ [0])) :
    Rewriting block into (json + (w.length + 2)) out (s ++ [0]) ∧ ∀ fuel,
      minifyLoop (fuel + 1) block json into = minifyLoop fuel block (json + (w.length + 2)) into := by
  have htext : '/'.toUInt8 :: '/'.toUInt8 :: (w ++ s ++ [0]) = ('/'.toUInt8 :: '/'.toUInt8 :: w) ++ (s ++ [0]) := by
    simp
  have hend : lineEnd ('/'.toUInt8 :: '/'.toUInt8 :: (w ++ s ++ [0])) = some (w.length + 2) := by
    obtain ⟨c, rest, hc, hsc⟩ : ∃ c rest, (c = 0 ∨ c = '\n'.toUInt8) ∧ s ++ [0] = c :: rest := by
      cases s with
      | nil => exact ⟨0, [], .inl rfl, rfl⟩
      | cons c s => exact ⟨c, s ++ [0], .inr (hs.resolve_left (by simp)), rfl⟩
    rw [htext, hsc]
    exact lineEnd_line (by simpa using ⟨by decide, hw⟩) (by simpa using ⟨by decide, hzero⟩) hc rest
  exact ⟨Rewriting.skip ('/'.toUInt8 :: '/'.toUInt8 :: w) (htext ▸ hr), minifyLoop_line hr hend⟩

/-- A comment that is closed. -/
theorem minifyLoop_closedComment {w s : List Byte} (hstar : deref (w ++ ['*'.toUInt8]) = '*'.toUInt8)
    (hopen : Open (w ++ ['*'.toUInt8])) (hzero : (0 : Byte) ∉ w)
    (hr : Rewriting block into json out ('/'.toUInt8 :: (w ++ '*'.toUInt8 :: '/'.toUInt8 :: s) ++ [0])) :
    Rewriting block into (json + (w.length + 1) + 2) out (s ++ [0]) ∧ ∀ fuel,
      minifyLoop (fuel + 1) block json into = minifyLoop fuel block (json + (w.length + 1) + 2) into := by
  have hend : commentEnd ('/'.toUInt8 :: (w ++ '*'.toUInt8 :: '/'.toUInt8 :: s ++ [0])) = some (w.length + 1) := by
    have hopen' : Open ('/'.toUInt8 :: w ++ ['*'.toUInt8]) := open_cons.mpr ⟨hopen, fun h => absurd h.1 (by decide)⟩
    have hzero' : (0 : Byte) ∉ '/'.toUInt8 :: w := by simpa using ⟨by decide, hzero⟩
    have hcomment := commentEnd_comment hopen' hzero' (s ++ [0])
    simpa only [List.cons_append, List.append_assoc, List.length_cons] using hcomment
  obtain ⟨left, hleft⟩ : ∃ left, w ++ '*'.toUInt8 :: '/'.toUInt8 :: s ++ [0] = '*'.toUInt8 :: left := by
    cases w with
    | nil => exact ⟨_, rfl⟩
    | cons c w =>
      have hc : c = '*'.toUInt8 := hstar
      exact ⟨_, by rw [hc]; rfl⟩
  constructor
  · have htext : '/'.toUInt8 :: (w ++ '*'.toUInt8 :: '/'.toUInt8 :: s) ++ [0] =
        ('/'.toUInt8 :: (w ++ ['*'.toUInt8, '/'.toUInt8])) ++ (s ++ [0]) := by simp
    rw [htext] at hr
    simpa [Nat.add_assoc] using hr.skip _
  · rw [List.cons_append, hleft] at hr
    rw [hleft] at hend
    exact minifyLoop_comment hr hend

end Round

/-! ## The loop -/

/-- The text that is left is minified behind what has been written. -/
def Leaves (fuel : Nat) (block : List Byte) (json into : Nat) (text : List Byte) : Prop :=
  ∃ block', minifyLoop fuel block json into = some block' ∧ Written block.length block' (text ++ [0])

theorem Leaves.of_eq {fuel fuel' json json' into into' : Nat} {block block' text text' : List Byte}
    (h : Leaves fuel block json into text) (hlen : block.length = block'.length) (htext : text = text')
    (heq : minifyLoop fuel' block' json' into' = minifyLoop fuel block json into) :
    Leaves fuel' block' json' into' text' := by
  obtain ⟨b, hloop, hw⟩ := h
  exact ⟨b, heq.trans hloop, by rwa [← hlen, ← htext]⟩

theorem head_append_zero (s : List Byte) : (s ++ [0]).head? = some (deref s) := by cases s <;> rfl

/-- By induction on what is left of the text. -/
theorem minifyLoop_minified {s t : List Byte} (h : Minified s t) (hzero : (0 : Byte) ∉ s) {fuel : Nat}
    {block out : List Byte} {json into : Nat} (hfuel : s.length < fuel)
    (hr : Rewriting block into json out (s ++ [0])) : Leaves fuel block json into (out ++ t) := by
  induction h generalizing fuel block out json into with
  | done =>
    obtain ⟨fuel, rfl⟩ := Nat.exists_eq_add_of_le' hfuel
    obtain ⟨block', hstore, hlen, hr'⟩ := hr.store 0
    refine ⟨block', ?_, by rw [List.append_nil, ← hlen]; exact hr'.written⟩
    simp only [minifyLoop, hr.read, Option.bind_eq_bind, Option.bind_some, if_true, hstore]
  | @blank c s t hc hm ih =>
    obtain ⟨fuel, rfl⟩ := Nat.exists_eq_add_of_le' (show 1 ≤ fuel by omega)
    rw [List.length_cons] at hfuel
    rw [List.mem_cons, not_or] at hzero
    exact (ih hzero.2 (show s.length < fuel by omega) (hr.skip [c])).of_eq rfl rfl
      (minifyLoop_blank hr (fun h => hzero.1 h.symm) hc fuel)
  | @line w s t hw hs hm ih =>
    obtain ⟨fuel, rfl⟩ := Nat.exists_eq_add_of_le' (show 1 ≤ fuel by omega)
    simp only [List.length_cons, List.length_append] at hfuel
    simp only [List.mem_cons, List.mem_append, not_or] at hzero
    obtain ⟨hskip, hround⟩ := minifyLoop_lineComment hw hs hzero.2.2.1 hr
    exact (ih hzero.2.2.2 (show s.length < fuel by omega) hskip).of_eq rfl rfl (hround fuel)
  | @comment w s t hstar hopen hm ih =>
    obtain ⟨fuel, rfl⟩ := Nat.exists_eq_add_of_le' (show 1 ≤ fuel by omega)
    simp only [List.length_cons, List.length_append] at hfuel
    simp only [List.mem_cons, List.mem_append, not_or] at hzero
    obtain ⟨hskip, hround⟩ := minifyLoop_closedComment hstar hopen hzero.2.1 hr
    exact (ih hzero.2.2.2.2 (show s.length < fuel by omega) hskip).of_eq rfl rfl (hround fuel)
  | @string w s t hw hm ih =>
    obtain ⟨fuel, rfl⟩ := Nat.exists_eq_add_of_le' (show 1 ≤ fuel by omega)
    simp only [List.length_cons, List.length_append] at hfuel
    simp only [List.mem_cons, List.mem_append, not_or] at hzero
    obtain ⟨-, hzw, -, hzs⟩ := hzero
    rw [List.cons_append, List.append_assoc, List.cons_append] at hr
    obtain ⟨block1, hlen1, hr1, hround⟩ := minifyLoop_string hr fuel
    have hroom : w.length < block.length := by
      have := congrArg List.length hr.back
      simp only [List.length_drop, List.length_cons, List.length_append] at this
      omega
    obtain ⟨block2, hcopy2, hlen2, hr2⟩ := copyString_body hw hzw hroom hr1
    obtain ⟨block3, hcopy3, hlen3, hr3⟩ := copyByte_rewriting hr2
    refine (ih hzs (show s.length < fuel by omega) hr3).of_eq (by rw [hlen3, hlen2, hlen1]) (by simp) ?_
    rw [hround, hcopy2, Option.bind_some, hcopy3, Option.bind_some]
  | @other c s t hblank hquote hslash hm ih =>
    obtain ⟨fuel, rfl⟩ := Nat.exists_eq_add_of_le' (show 1 ≤ fuel by omega)
    rw [List.length_cons] at hfuel
    rw [List.mem_cons, not_or] at hzero
    have hnext : c = '/'.toUInt8 → (s ++ [0]).head? ≠ some '/'.toUInt8 ∧
      (s ++ [0]).head? ≠ some '*'.toUInt8 := by
      rw [head_append_zero]
      exact fun hc => ⟨fun h => (hslash hc).1 (Option.some.inj h), fun h => (hslash hc).2 (Option.some.inj h)⟩
    obtain ⟨block1, hlen1, hr1, hround⟩ := minifyLoop_other hr (fun h => hzero.1 h.symm) hblank hquote hnext fuel
    exact (ih hzero.2 (show s.length < fuel by omega) hr1).of_eq hlen1 (by simp) hround

/-! ## Texts that are left -/

theorem copyByte_some {block out left : List Byte} {json into : Nat} {r : List Byte × Nat × Nat}
    (h : copyByte block json into = some r) (hr : Rewriting block into json out left) :
    ∃ c left', left = c :: left' ∧ r.1.length = block.length ∧ Rewriting r.1 r.2.2 r.2.1 (out ++ [c]) left' := by
  cases left with
  | nil =>
    rw [copyByte, hr.readEnd] at h
    cases h
  | cons c left =>
    obtain ⟨block', hcopy, hlen, hr'⟩ := copyByte_rewriting hr
    rw [hcopy] at h
    cases h
    exact ⟨c, left, rfl, hlen, hr'⟩

/-- A string that has been copied ends at a quotation mark or a terminator. -/
theorem copyString_some {fuel : Nat} {block out left : List Byte} {json into : Nat} {r : List Byte × Nat × Nat}
    (h : copyString fuel block json into = some r) (hr : Rewriting block into json out left) :
    ∃ w c rest, left = w ++ c :: rest ∧ Body w ∧ (c = 0 ∨ c = '"'.toUInt8) ∧ r.1.length = block.length ∧
      Rewriting r.1 r.2.2 r.2.1 (out ++ w) (c :: rest) := by
  induction fuel generalizing block out left json into with
  | zero => cases h
  | succ fuel ih =>
    cases left with
    | nil =>
      rw [copyString, hr.readEnd] at h
      cases h
    | cons c left =>
      simp only [copyString, hr.read, Option.bind_eq_bind, Option.bind_some] at h
      split_ifs at h with hstop hback
      · cases h
        exact ⟨[], c, left, rfl, .nil, hstop, rfl, by rwa [List.append_nil]⟩
      · obtain ⟨r1, hcopy1, h⟩ := Option.bind_eq_some_iff.mp h
        obtain ⟨r2, hcopy2, h⟩ := Option.bind_eq_some_iff.mp h
        obtain ⟨_, _, heq, hlen1, hr1⟩ := copyByte_some hcopy1 hr
        cases heq
        obtain ⟨d, left', rfl, hlen2, hr2⟩ := copyByte_some hcopy2 hr1
        obtain ⟨w, e, rest, rfl, hw, he, hlen3, hr3⟩ := ih h hr2
        subst hback
        exact ⟨_ :: d :: w, e, rest, rfl, .esc hw, he, hlen3.trans (hlen2.trans hlen1), by simpa using hr3⟩
      · obtain ⟨r1, hcopy1, h⟩ := Option.bind_eq_some_iff.mp h
        obtain ⟨_, _, heq, hlen1, hr1⟩ := copyByte_some hcopy1 hr
        cases heq
        obtain ⟨w, e, rest, rfl, hw, he, hlen2, hr2⟩ := ih h hr1
        rw [not_or] at hstop
        exact ⟨c :: w, e, rest, rfl, .raw hstop.2 hback hw, he, hlen2.trans hlen1, by simpa using hr2⟩

/-- Where a terminated text is split. -/
theorem split_zero {s w rest : List Byte} {c : Byte} (h : s ++ [0] = w ++ c :: rest) :
    (c = 0 ∧ rest = []) ∨ ∃ s', rest = s' ++ [0] ∧ s = w ++ c :: s' := by
  rcases List.eq_nil_or_concat rest with rfl | ⟨s', d, rfl⟩
  · obtain ⟨-, hc⟩ := List.append_inj' h rfl
    exact .inl ⟨(List.cons.inj hc).1.symm, rfl⟩
  · right
    rw [List.concat_eq_append] at h ⊢
    have h' : s ++ [0] = (w ++ c :: s') ++ [d] := by rw [h, List.append_assoc, List.cons_append]
    obtain ⟨hs, hd⟩ := List.append_inj' h' rfl
    exact ⟨s', by rw [(List.cons.inj hd).1], hs⟩

theorem minifyLoop_end {fuel : Nat} {block out : List Byte} {json into : Nat} (hr : Rewriting block into json out []) :
    minifyLoop fuel block json into = none := by
  cases fuel with
  | zero => rfl
  | succ fuel => simp only [minifyLoop, hr.readEnd, Option.bind_eq_bind, Option.bind_none]

/-- By induction on the rounds: what has been left was a text with closed strings and comments. -/
theorem minifyLoop_some {fuel : Nat} {s block block' out : List Byte} {json into : Nat}
    (h : minifyLoop fuel block json into = some block') (hzero : (0 : Byte) ∉ s)
    (hr : Rewriting block into json out (s ++ [0])) : ∃ t, Minified s t := by
  induction fuel generalizing s block out json into with
  | zero => cases h
  | succ fuel ih =>
    cases s with
    | nil => exact ⟨[], .done⟩
    | cons c s =>
      have hmem := hzero
      rw [List.mem_cons, not_or] at hzero
      have hne : c ≠ 0 := fun h => hzero.1 h.symm
      by_cases hblank : IsBlank c
      · rw [minifyLoop_blank hr hne hblank] at h
        obtain ⟨t, ht⟩ := ih h hzero.2 (hr.skip [c])
        exact ⟨t, .blank hblank ht⟩
      by_cases hquote : c = '"'.toUInt8
      · subst hquote
        obtain ⟨block1, hlen1, hr1, hround⟩ := minifyLoop_string hr fuel
        rw [hround] at h
        obtain ⟨r1, hcopy1, h⟩ := Option.bind_eq_some_iff.mp h
        obtain ⟨r2, hcopy2, h⟩ := Option.bind_eq_some_iff.mp h
        obtain ⟨w, d, rest, heq, hw, hd, -, hr2⟩ := copyString_some hcopy1 hr1
        obtain ⟨_, _, hcons, -, hr3⟩ := copyByte_some hcopy2 hr2
        cases hcons
        rcases split_zero heq with ⟨-, rfl⟩ | ⟨s', rfl, rfl⟩
        · rw [minifyLoop_end hr3] at h
          cases h
        · rw [List.mem_append, List.mem_cons, not_or, not_or] at hzero
          obtain rfl : d = '"'.toUInt8 := hd.resolve_left fun h => hzero.2.2.1 h.symm
          obtain ⟨t, ht⟩ := ih h hzero.2.2.2 hr3
          exact ⟨_, .string hw ht⟩
      by_cases hline : c = '/'.toUInt8 ∧ s.head? = some '/'.toUInt8
      · obtain ⟨rfl, hhead⟩ := hline
        obtain ⟨s, rfl⟩ := List.head?_eq_some_iff.mp hhead
        obtain ⟨w, s', rfl, hw, hs'⟩ : ∃ w s', s = w ++ s' ∧ '\n'.toUInt8 ∉ w ∧
          (s' = [] ∨ deref s' = '\n'.toUInt8) := by
          refine ⟨s.takeWhile (· ≠ '\n'.toUInt8), s.dropWhile (· ≠ '\n'.toUInt8),
            List.takeWhile_append_dropWhile.symm,
            fun hmem => by simpa using List.mem_takeWhile_imp hmem, ?_⟩
          cases hdrop : s.dropWhile (· ≠ '\n'.toUInt8) with
          | nil => exact .inl rfl
          | cons d rest =>
            have hd := List.head?_dropWhile_not (· ≠ '\n'.toUInt8) s
            rw [hdrop] at hd
            exact .inr (by simpa [deref] using hd)
        simp only [List.mem_cons, List.mem_append, not_or] at hzero
        obtain ⟨hskip, hround⟩ := minifyLoop_lineComment hw hs' hzero.2.2.1 hr
        rw [hround] at h
        obtain ⟨t, ht⟩ := ih h hzero.2.2.2 hskip
        exact ⟨t, .line hw hs' ht⟩
      by_cases hcomment : c = '/'.toUInt8 ∧ s.head? = some '*'.toUInt8
      · obtain ⟨rfl, hhead⟩ := hcomment
        rcases open_or_closed s with hopen | ⟨w, s', rfl, hopen⟩
        · -- no end is found, and the terminator is passed
          obtain ⟨s, rfl⟩ := List.head?_eq_some_iff.mp hhead
          have hend := commentEnd_open (open_cons.mpr ⟨hopen, fun h => absurd h.1 (by decide)⟩) hmem
          rw [minifyLoop_comment hr hend] at h
          have hpast : Rewriting block into (json + ('/'.toUInt8 :: '*'.toUInt8 :: s).length + 2) out [] := by
            refine ⟨hr.front, ?_, hr.length, Nat.le_trans hr.order (by omega)⟩
            rw [Nat.add_assoc, ← List.drop_drop, hr.back]
            exact List.drop_eq_nil_of_le (by simp)
          rw [minifyLoop_end hpast] at h
          cases h
        · have hstar : deref (w ++ ['*'.toUInt8]) = '*'.toUInt8 := by
            cases w with
            | nil => rfl
            | cons d w => exact Option.some.inj hhead
          simp only [List.mem_append, List.mem_cons, not_or] at hzero
          obtain ⟨hskip, hround⟩ := minifyLoop_closedComment hstar hopen hzero.2.1 hr
          rw [hround] at h
          obtain ⟨t, ht⟩ := ih h hzero.2.2.2.2 hskip
          exact ⟨t, .comment hstar hopen ht⟩
      · have hnext : c = '/'.toUInt8 → (s ++ [0]).head? ≠ some '/'.toUInt8 ∧
          (s ++ [0]).head? ≠ some '*'.toUInt8 := by
          intro hc
          cases s with
          | nil => exact ⟨by decide, by decide⟩
          | cons d s => exact ⟨fun h => hline ⟨hc, h⟩, fun h => hcomment ⟨hc, h⟩⟩
        obtain ⟨block1, -, hr1, hround⟩ := minifyLoop_other hr hne hblank hquote hnext fuel
        rw [hround] at h
        obtain ⟨t, ht⟩ := ih h hzero.2 hr1
        rw [head_append_zero] at hnext
        exact ⟨_, .other hblank hquote
          (fun hc => ⟨fun h => (hnext hc).1 (congrArg some h), fun h => (hnext hc).2 (congrArg some h)⟩) ht⟩

theorem cjsonMinify_minified {text : CString} {t : List Byte} (ht : Minified text.val t) :
    ∃ block', cjsonMinify (text.val ++ [0]) = some block' ∧
      ∃ h : (0 : Byte) ∉ t, cstring block' = some ⟨t, h⟩ := by
  have hfuel : text.val.length < (text.val ++ [0]).length + 1 := by rw [List.length_append]; omega
  obtain ⟨block', hloop, hw⟩ := minifyLoop_minified ht text.property hfuel (Rewriting.start _)
  have hzero : (0 : Byte) ∉ t := fun hmem => text.property ((minified_sublist ht).subset hmem)
  exact ⟨block', hloop, hzero, hw.string hzero⟩

/-- Wherever the first text stands, the second is left of it. -/
def MinifiesTo (a b : List Byte) : Prop := ∀ s t, Minified s t → Minified (a ++ s) (b ++ t)

theorem minifiesTo_nil : MinifiesTo [] [] := fun _ _ h => h

theorem MinifiesTo.append {a b a' b' : List Byte} (h : MinifiesTo a b) (h' : MinifiesTo a' b') :
    MinifiesTo (a ++ a') (b ++ b') := by
  intro s t hst
  rw [List.append_assoc, List.append_assoc]
  exact h _ _ (h' _ _ hst)

/-- A byte of a token. -/
def PlainByte (c : Byte) : Prop := ¬ IsBlank c ∧ c ≠ '"'.toUInt8 ∧ c ≠ '/'.toUInt8

instance (c : Byte) : Decidable (PlainByte c) := inferInstanceAs (Decidable (_ ∧ _))

theorem minifiesTo_plain {a : List Byte} (h : ∀ c ∈ a, PlainByte c) : MinifiesTo a a := by
  induction a with
  | nil => exact minifiesTo_nil
  | cons c a ih =>
    obtain ⟨hblank, hquote, hslash⟩ := h c (by simp)
    exact fun s t hst => .other hblank hquote (fun hc => absurd hc hslash) (ih (fun d hd => h d (by simp [hd])) s t hst)

theorem minifiesTo_blank {a : List Byte} (h : ∀ c ∈ a, IsBlank c) : MinifiesTo a [] := by
  induction a with
  | nil => exact minifiesTo_nil
  | cons c a ih => exact fun s t hst => .blank (h c (by simp)) (ih (fun d hd => h d (by simp [hd])) s t hst)

theorem minifiesTo_if {c : Byte} (h : IsBlank c) : MinifiesTo (if true then [c] else []) (if false then [c] else []) :=
  minifiesTo_blank fun d hd => by rwa [List.mem_singleton.mp hd]

theorem minifiesTo_tabs (n n' : Nat) : MinifiesTo (tabs true n) (tabs false n') :=
  minifiesTo_blank fun c hc => by rw [List.eq_of_mem_replicate hc]; decide

theorem body_textOf (pieces : List Piece) : Body (textOf pieces) := by
  induction pieces with
  | nil => exact .nil
  | cons p pieces ih =>
    rw [textOf_cons]
    cases p with
    | raw c h => exact .raw h.1 h.2.1 ih
    | esc c h => exact .esc ih
    | unit a b c d =>
      exact .esc (.raw a.plain.1 a.plain.2.1 (.raw b.plain.1 b.plain.2.1 (.raw c.plain.1 c.plain.2.1
        (.raw d.plain.1 d.plain.2.1 ih))))

theorem minifiesTo_string (s : Option CString) : MinifiesTo (stringText s) (stringText s) := by
  cases s with
  | none => exact minifiesTo_nil
  | some s =>
    intro u v huv
    have hstring := Minified.string (body_textOf (escape s)) huv
    simpa [stringText, quoted] using hstring

theorem minifiesTo_number (i : Int) : MinifiesTo (printInt i) (printInt i) := by
  refine minifiesTo_plain fun c hc => ?_
  rw [printInt, List.mem_append] at hc
  rcases hc with hc | hc
  · split at hc
    · rw [List.mem_singleton.mp hc]
      decide
    · cases hc
  · obtain ⟨d, hd, rfl⟩ := List.mem_map.mp hc
    obtain ⟨k, hk, rfl⟩ := isDigit_digitChar (Nat.isDigit_of_mem_toDigits (by decide) (by decide) hd)
    have hall : ∀ k < 10, PlainByte (Nat.digitChar k).toUInt8 := by decide
    exact hall k hk

theorem forall₂_isEmpty {texts texts' : List (List Byte)} (h : List.Forall₂ MinifiesTo texts texts') :
    texts.isEmpty = texts'.isEmpty := by cases h <;> rfl

theorem minifiesTo_elements {texts texts' : List (List Byte)} (h : List.Forall₂ MinifiesTo texts texts') :
    MinifiesTo (elementsText true texts) (elementsText false texts') := by
  induction h with
  | nil => exact minifiesTo_nil
  | @cons text text' texts texts' htext hrest ih =>
    rw [elementsText, elementsText, forall₂_isEmpty hrest]
    refine (htext.append ?_).append ih
    cases texts'.isEmpty with
    | true => exact minifiesTo_nil
    | false =>
      have hcomma : MinifiesTo [','.toUInt8] [','.toUInt8] := minifiesTo_plain (by decide +kernel)
      exact hcomma.append (minifiesTo_if (by decide))

theorem minifiesTo_members (names : List (Option CString)) {texts texts' : List (List Byte)}
    (h : List.Forall₂ MinifiesTo texts texts') (depth depth' : Nat) :
    MinifiesTo (membersText true depth ((names.map stringText).zip texts))
      (membersText false depth' ((names.map stringText).zip texts')) := by
  induction h generalizing names with
  | nil =>
    rw [List.zip_nil_right]
    exact minifiesTo_nil
  | @cons text text' texts texts' htext hrest ih =>
    cases names with
    | nil => exact minifiesTo_nil
    | cons name names =>
      have hempty : ((names.map stringText).zip texts).isEmpty = ((names.map stringText).zip texts').isEmpty := by
        cases names with
        | nil => rfl
        | cons name names => cases hrest <;> rfl
      have hcolon : MinifiesTo [':'.toUInt8] [':'.toUInt8] := minifiesTo_plain (by decide +kernel)
      have hcomma : ∀ last : Bool, MinifiesTo (if last then [] else [','.toUInt8])
        (if last then [] else [','.toUInt8]) := by
        intro last
        exact minifiesTo_plain (by cases last <;> decide +kernel)
      simp only [List.map_cons, List.zip_cons_cons, membersText, hempty, objectComma]
      exact ((((((minifiesTo_tabs depth depth').append (minifiesTo_string name)).append
        (hcolon.append (minifiesTo_if (by decide)))).append htext).append
          ((hcomma _).append (minifiesTo_if (by decide)))).append (ih names))

section Text

variable {D : Type}

def nodeStrings : Node D → List (Option CString)
  | .NULL => []
  | .item fields _ next => fields.string :: nodeStrings next

theorem nodeNames_eq (node : Node D) : nodeNames node = (nodeStrings node).map stringText := by
  induction node with
  | NULL => rfl
  | item fields child next _ ih => rw [nodeNames, nodeStrings, ih, List.map_cons]

theorem minifiesTo_item (fields : Fields D) (strings : List (Option CString)) {texts texts' : List (List Byte)}
    (h : List.Forall₂ MinifiesTo texts texts') (depth depth' : Nat) :
    MinifiesTo (itemText true depth fields (strings.map stringText) texts)
      (itemText false depth' fields (strings.map stringText) texts') := by
  unfold itemText
  split
  · exact minifiesTo_plain (by decide +kernel)
  · exact minifiesTo_plain (by decide +kernel)
  · exact minifiesTo_plain (by decide +kernel)
  · exact minifiesTo_number _
  · exact minifiesTo_string _
  · have hopen : MinifiesTo ['['.toUInt8] ['['.toUInt8] := minifiesTo_plain (by decide +kernel)
    have hclose : MinifiesTo [']'.toUInt8] [']'.toUInt8] := minifiesTo_plain (by decide +kernel)
    exact (hopen.append (minifiesTo_elements h)).append hclose
  · have hopen : MinifiesTo ['{'.toUInt8] ['{'.toUInt8] := minifiesTo_plain (by decide +kernel)
    have hclose : MinifiesTo ['}'.toUInt8] ['}'.toUInt8] := minifiesTo_plain (by decide +kernel)
    exact (((hopen.append (minifiesTo_if (by decide))).append (minifiesTo_members strings h _ _)).append
      (minifiesTo_tabs _ _)).append hclose
  · exact minifiesTo_nil

theorem minifiesTo_texts (node : Node D) (depth depth' : Nat) :
    List.Forall₂ MinifiesTo (nodeTexts true depth node) (nodeTexts false depth' node) := by
  induction node generalizing depth depth' with
  | NULL => exact .nil
  | item fields child next ihchild ihnext =>
    rw [nodeTexts, nodeTexts, nodeNames_eq]
    exact .cons (minifiesTo_item fields _ (ihchild _ _) depth depth') (ihnext depth depth')

variable {m : Doubles D} (fresh : Nat → Byte)

/-- **Minifying a printed text.** Of the text from `cJSON_Print`, the one from `cJSON_PrintUnformatted` is left. -/
theorem cjsonMinify_print (hm : m.Exact) {fields : Fields D} {child : Node D}
    (hs : Sound m false (.item fields child .NULL)) (next : Node D)
    (hfits : Fits (nodeText true 0 (.item fields child next))) :
    ∃ text unformatted, cjsonPrint m fresh (.item fields child next) = some (some text) ∧
      cjsonPrintUnformatted m fresh (.item fields child next) = some (some unformatted) ∧
      (cjsonMinify (text.val ++ [0])).bind cstring = some unformatted := by
  have hitem : MinifiesTo (nodeText true 0 (.item fields child next)) (nodeText false 0 (.item fields child next)) := by
    have htexts := minifiesTo_texts (.item fields child next) 0 0
    rw [nodeTexts, nodeTexts, List.forall₂_cons] at htexts
    exact htexts.1
  have hminified := hitem [] [] .done
  rw [List.append_nil, List.append_nil] at hminified
  have hlen := (minified_sublist hminified).length_le
  obtain ⟨text, htext, hprint⟩ := printValue_text fresh hm true 0 hs next hfits
  obtain ⟨unformatted, htext', hprint'⟩ :=
    printValue_text fresh hm false 0 hs next (by unfold Fits at hfits ⊢; omega)
  rw [← htext, ← htext'] at hminified
  obtain ⟨block', hblock, hzero, hcstring⟩ := cjsonMinify_minified hminified
  refine ⟨text, unformatted, hprint, hprint', ?_⟩
  rw [hblock, Option.bind_some, hcstring]
  rfl

theorem cjsonMinify_print_member : ∃ text unformatted,
    cjsonPrint intDoubles (fun _ => 7) (.item handMade handMember .NULL) = some (some text) ∧
      cjsonPrintUnformatted intDoubles (fun _ => 7) (.item handMade handMember .NULL) = some (some unformatted) ∧
      (cjsonMinify (text.val ++ [0])).bind cstring = some unformatted :=
  cjsonMinify_print (fun _ => 7) intDoubles_exact handMade_sound .NULL (by unfold Fits; decide)

end Text

end Cjson
end Xlibc
