import Xlibc.Base.Compare
import Xlibc.Cjson.Print
import Xlibc.Cjson.ReadString

/-!
# Xlibc.Cjson.Parse

`parse_value` of `cJSON.c`, with `parse_array` and `parse_object`.

* `parseValue`, `cjsonParseWithOpts`, `cjsonParse` : the code, to a bounded depth that is enough for the text.
* `Spells` : how a tree is written, with blanks between the tokens and escapes as the writer likes them.
* `parse_spells` : what spells a tree is read as that tree.
-/

namespace Xlibc
namespace Cjson

/-! ## The code -/

/-- `while (in && *in && (unsigned char)*in<=32) in++;` -/
def skip (text : List Byte) : List Byte := text.dropWhile (· ≤ 32)

section Code

variable {D : Type} (m : Doubles D) (fresh : Nat → Byte)

/-- `cJSON_New_Item`, with all its bytes zero. -/
def cjsonNewItem : Fields D := ⟨0, none, 0, m.ofInt 0, none⟩

mutual

/-- The item, its `child`, and the pointer behind the value. Both words are there, so `xstrncmp` is `strncmp`. -/
def parseValue : Nat → Fields D → List Byte → Option (Parsed (Fields D × Node D))
  | 0, _, _ => none
  | fuel + 1, item, value =>
    if strncmp 4 value nullWord.val = 0 then some (.ok (({ item with type := 2 }, .NULL), value.drop 4))
    else if strncmp 5 value falseWord.val = 0 then some (.ok (({ item with type := 0 }, .NULL), value.drop 5))
    else if strncmp 4 value trueWord.val = 0 then
      some (.ok (({ item with type := 1, valueint := 1 }, .NULL), value.drop 4))
    else if deref value = '"'.toUInt8 then do
      match ← parseString fresh value with
      | .error ep => some (.error ep)
      | .ok (valuestring, value) =>
        some (.ok (({ item with valuestring := some valuestring, type := 4 }, .NULL), value))
    else if deref value = '-'.toUInt8 ∨ digit (deref value) = true then do
      let ((valuedouble, valueint), value) ← parseNumber m value
      some (.ok (({ item with valuedouble := valuedouble, valueint := valueint, type := 3 }, .NULL), value))
    else if deref value = '['.toUInt8 then parseArray fuel item value
    else if deref value = '{'.toUInt8 then parseObject fuel item value
    else some (.error value)

def parseArray : Nat → Fields D → List Byte → Option (Parsed (Fields D × Node D))
  | 0, _, _ => none
  | fuel + 1, item, value => do
    let value := skip (value.drop 1)
    if deref value = ']'.toUInt8 then some (.ok (({ item with type := 5 }, .NULL), value.drop 1))
    else
      match ← parseElements fuel value with
      | .error ep => some (.error ep)
      | .ok (child, value) =>
        if deref value = ']'.toUInt8 then some (.ok (({ item with type := 5 }, child), value.drop 1))
        else some (.error value)

/-- An element, and those behind its comma. -/
def parseElements : Nat → List Byte → Option (Parsed (Node D))
  | 0, _ => none
  | fuel + 1, value => do
    match ← parseValue fuel (cjsonNewItem m) (skip value) with
    | .error ep => some (.error ep)
    | .ok ((item, child), value) =>
      let value := skip value
      if deref value = ','.toUInt8 then do
        match ← parseElements fuel (value.drop 1) with
        | .error ep => some (.error ep)
        | .ok (next, value) => some (.ok (.item item child next, value))
      else some (.ok (.item item child .NULL, value))

def parseObject : Nat → Fields D → List Byte → Option (Parsed (Fields D × Node D))
  | 0, _, _ => none
  | fuel + 1, item, value => do
    let value := skip (value.drop 1)
    if deref value = '}'.toUInt8 then some (.ok (({ item with type := 6 }, .NULL), value.drop 1))
    else
      match ← parseMembers fuel value with
      | .error ep => some (.error ep)
      | .ok (child, value) =>
        if deref value = '}'.toUInt8 then some (.ok (({ item with type := 6 }, child), value.drop 1))
        else some (.error value)

/-- A member, and those behind its comma. Its name is read as a string, which leaves the type of one. -/
def parseMembers : Nat → List Byte → Option (Parsed (Node D))
  | 0, _ => none
  | fuel + 1, value => do
    match ← parseString fresh (skip value) with
    | .error ep => some (.error ep)
    | .ok (name, value) =>
      let value := skip value
      if deref value ≠ ':'.toUInt8 then some (.error value)
      else
        match ← parseValue fuel { cjsonNewItem m with type := 4, string := some name } (skip (value.drop 1)) with
        | .error ep => some (.error ep)
        | .ok ((item, child), value) =>
          let value := skip value
          if deref value = ','.toUInt8 then do
            match ← parseMembers fuel (value.drop 1) with
            | .error ep => some (.error ep)
            | .ok (next, value) => some (.ok (.item item child next, value))
          else some (.ok (.item item child .NULL, value))

end

/-- The root and `*return_parse_end`, or `NULL` and `ep`. -/
def cjsonParseWithOpts (value : CString) (requireNullTerminated : Bool) : Option (Parsed (Node D)) := do
  match ← parseValue m fresh (3 * value.val.length + 3) (cjsonNewItem m) (skip value.val) with
  | .error ep => some (.error ep)
  | .ok ((c, child), last) =>
    if requireNullTerminated then
      let last := skip last
      if deref last ≠ 0 then some (.error last) else some (.ok (.item c child .NULL, last))
    else some (.ok (.item c child .NULL, last))

/-- `cJSON_Parse`: the root, or `NULL`. -/
def cjsonParse (value : CString) : Option (Node D) := do
  match ← cjsonParseWithOpts m fresh value false with
  | .error _ => some .NULL
  | .ok (c, _) => some c

end Code

/-! ## How a tree is written -/

def Blank (ws : List Byte) : Prop := ∀ c ∈ ws, c ≤ 32 ∧ c ≠ 0

/-- The members of an item that has been read. -/
def readFields {D : Type} (m : Doubles D) (type : Nat) (string : Option CString) : Fields D :=
  { cjsonNewItem m with type := type, string := string }

/-- A value, the elements of an array, or the members of an object. -/
inductive Part (D : Type) where
  | value (fields : Fields D) (child : Node D)
  | elements (child : Node D)
  | members (child : Node D)

inductive Spells {D : Type} (m : Doubles D) : Part D → List Byte → Prop where
  | null (string : Option CString) : Spells m (.value (readFields m 2 string) .NULL) nullWord.val
  | false (string : Option CString) : Spells m (.value (readFields m 0 string) .NULL) falseWord.val
  | true (string : Option CString) :
    Spells m (.value { readFields m 1 string with valueint := 1 } .NULL) trueWord.val
  | number (string : Option CString) (i : Int) : -2 ^ 31 ≤ i → i ≤ intMax →
    Spells m (.value { readFields m 3 string with valueint := i, valuedouble := m.ofInt i } .NULL) (printInt i)
  | string (string : Option CString) (pieces : List Piece) :
    Spells m (.value { readFields m 4 string with valuestring := some (decoded pieces) } .NULL) (quoted pieces).val
  | emptyArray (string : Option CString) {ws : List Byte} : Blank ws →
    Spells m (.value (readFields m 5 string) .NULL) ('['.toUInt8 :: ws ++ [']'.toUInt8])
  | array (string : Option CString) {child : Node D} {s : List Byte} : Spells m (.elements child) s →
    Spells m (.value (readFields m 5 string) child) ('['.toUInt8 :: s ++ [']'.toUInt8])
  | emptyObject (string : Option CString) {ws : List Byte} : Blank ws →
    Spells m (.value (readFields m 6 string) .NULL) ('{'.toUInt8 :: ws ++ ['}'.toUInt8])
  | object (string : Option CString) {child : Node D} {s : List Byte} : Spells m (.members child) s →
    Spells m (.value (readFields m 6 string) child) ('{'.toUInt8 :: s ++ ['}'.toUInt8])
  | lastElement {fields : Fields D} {child : Node D} {s ws ws' : List Byte} : Spells m (.value fields child) s →
    fields.string = none → Blank ws → Blank ws' → Spells m (.elements (.item fields child .NULL)) (ws ++ s ++ ws')
  | element {fields : Fields D} {child next : Node D} {s rest ws ws' : List Byte} : Spells m (.value fields child) s →
    fields.string = none → Blank ws → Blank ws' → Spells m (.elements next) rest →
    Spells m (.elements (.item fields child next)) (ws ++ s ++ ws' ++ ','.toUInt8 :: rest)
  | lastMember {fields : Fields D} {child : Node D} {pieces : List Piece} {s w x y z : List Byte} :
    Spells m (.value fields child) s → fields.string = some (decoded pieces) →
    Blank w → Blank x → Blank y → Blank z →
    Spells m (.members (.item fields child .NULL)) (w ++ (quoted pieces).val ++ x ++ ':'.toUInt8 :: y ++ s ++ z)
  | member {fields : Fields D} {child next : Node D} {pieces : List Piece} {s rest w x y z : List Byte} :
    Spells m (.value fields child) s → fields.string = some (decoded pieces) →
    Blank w → Blank x → Blank y → Blank z → Spells m (.members next) rest →
    Spells m (.members (.item fields child next))
      (w ++ (quoted pieces).val ++ x ++ ':'.toUInt8 :: y ++ s ++ z ++ ','.toUInt8 :: rest)

/-! ## Tokens -/

theorem skip_blank {ws : List Byte} (h : Blank ws) (rest : List Byte) : skip (ws ++ rest) = skip rest := by
  induction ws with
  | nil => rfl
  | cons c ws ih =>
    have hc := (h c (by simp)).1
    rw [List.cons_append, skip, List.dropWhile_cons, if_pos (by simpa using hc)]
    exact ih fun d hd => h d (by simp [hd])

theorem skip_token {c : Byte} (h : ¬ c ≤ 32) (rest : List Byte) : skip (c :: rest) = c :: rest := by
  rw [skip, List.dropWhile_cons, if_neg (by simpa using h)]

/-- Blanks before a token. -/
theorem skip_stop {ws rest : List Byte} (hws : Blank ws) {c : Byte} (hrest : deref rest = c) (hc : ¬ c ≤ 32) :
    skip (ws ++ rest) = rest := by
  rw [skip_blank hws]
  cases rest with
  | nil => rfl
  | cons d rest =>
    obtain rfl : d = c := hrest
    exact skip_token hc rest

theorem enclosed (a b : Byte) (s rest : List Byte) : a :: s ++ [b] ++ rest = a :: (s ++ b :: rest) := by
  rw [List.append_assoc]
  rfl

theorem skip_skip (text : List Byte) : skip (skip text) = skip text := List.dropWhile_idempotent _ _

theorem strncmp_head {c d : Byte} (h : c ≠ d) (n : Nat) (s t : List Byte) :
    strncmp (n + 1) (c :: s) (d :: t) ≠ 0 := by
  have hne : ¬ c.toNat = d.toNat := fun h' => h (UInt8.toNat_inj.mp h')
  rw [strncmp, strcmp, List.take_succ_cons, List.take_succ_cons, compareBytes, if_neg hne]
  omega

theorem strncmp_prefix (s rest : List Byte) : strncmp s.length (s ++ rest) s = 0 := by
  rw [strncmp, strcmp, List.take_left, List.take_length]
  induction s with
  | nil => rfl
  | cons c s ih => rw [compareBytes, if_pos rfl, ih]

/-- A value begins with a token that is neither a closing bracket nor a blank. -/
theorem spells_head {D : Type} {m : Doubles D} {fields : Fields D} {child : Node D} {s : List Byte}
    (h : Spells m (.value fields child) s) :
    ∃ c t, s = c :: t ∧ ¬ c ≤ 32 ∧ c ≠ ']'.toUInt8 := by
  cases h with
  | null => exact ⟨_, _, rfl, by decide, by decide⟩
  | false => exact ⟨_, _, rfl, by decide, by decide⟩
  | true => exact ⟨_, _, rfl, by decide, by decide⟩
  | number string i =>
    obtain ⟨c, t, heq, hc⟩ := printInt_head i
    have hall : ∀ c : Byte, c = '-'.toUInt8 ∨ digit c = true → ¬ c ≤ 32 ∧ c ≠ ']'.toUInt8 :=
      forall_byte (by decide +kernel)
    exact ⟨c, t, heq, hall c hc⟩
  | string => exact ⟨_, _, rfl, by decide, by decide⟩
  | emptyArray => exact ⟨_, _, rfl, by decide, by decide⟩
  | array => exact ⟨_, _, rfl, by decide, by decide⟩
  | emptyObject => exact ⟨_, _, rfl, by decide, by decide⟩
  | object => exact ⟨_, _, rfl, by decide, by decide⟩

theorem spells_elements_head {D : Type} {m : Doubles D} {child : Node D} {s : List Byte}
    (h : Spells m (.elements child) s) :
    ∃ ws c t, s = ws ++ c :: t ∧ Blank ws ∧ ¬ c ≤ 32 ∧ c ≠ ']'.toUInt8 := by
  cases h with
  | @lastElement _ _ _ ws _ hv _ hws _ =>
    obtain ⟨c, t, rfl, hc, hne⟩ := spells_head hv
    exact ⟨ws, c, _, by rw [List.append_assoc, List.cons_append], hws, hc, hne⟩
  | @element _ _ _ _ _ ws _ hv _ hws _ _ =>
    obtain ⟨c, t, rfl, hc, hne⟩ := spells_head hv
    exact ⟨ws, c, _, by rw [List.append_assoc, List.append_assoc, List.cons_append], hws, hc, hne⟩

theorem spells_members_head {D : Type} {m : Doubles D} {child : Node D} {s : List Byte}
    (h : Spells m (.members child) s) :
    ∃ ws t, s = ws ++ '"'.toUInt8 :: t ∧ Blank ws := by
  cases h with
  | @lastMember _ _ _ _ w _ _ _ _ _ hw =>
    exact ⟨w, _, by simp only [quoted, List.append_assoc, List.cons_append]; rfl, hw⟩
  | @member _ _ _ _ _ _ w _ _ _ _ _ hw =>
    exact ⟨w, _, by simp only [quoted, List.append_assoc, List.cons_append]; rfl, hw⟩

/-- Behind blanks, a closing bracket or a comma, no number goes on. -/
theorem stops_of_blank {ws rest : List Byte} (h : Blank ws) (hrest : Stops rest) : Stops (ws ++ rest) := by
  cases ws with
  | nil => exact hrest
  | cons c ws =>
    have hall : ∀ c : Byte, c ≤ 32 → Stops [c] := forall_byte (by unfold Stops; decide +kernel)
    exact hall c (h c (by simp)).1

theorem stops_deref {rest : List Byte} {c : Byte} (h : deref rest = c) (hc : Stops [c]) : Stops rest := by
  have hhead : deref [c] = c := rfl
  unfold Stops at hc ⊢
  rwa [hhead, ← h] at hc

/-! ## Reading -/

section Read

variable {D : Type} (m : Doubles D) (fresh : Nat → Byte)

/-- What is read from the text of a part, by a call that is deep enough. -/
def Reads : Part D → List Byte → Prop
  | .value fields child, s => ∀ fuel type rest, 3 * s.length ≤ fuel → s.length ≤ intMax → Stops rest →
    parseValue m fresh fuel (readFields m type fields.string) (s ++ rest) = some (.ok ((fields, child), rest))
  | .elements child, s =>
    ∀ fuel rest, 3 * s.length + 1 ≤ fuel → s.length ≤ intMax → deref rest = ']'.toUInt8 →
    parseElements m fresh fuel (s ++ rest) = some (.ok (child, rest))
  | .members child, s =>
    ∀ fuel rest, 3 * s.length + 1 ≤ fuel → s.length ≤ intMax → deref rest = '}'.toUInt8 →
    parseMembers m fresh fuel (s ++ rest) = some (.ok (child, rest))

variable {m fresh}

theorem parseValue_null (fuel : Nat) (item : Fields D) (rest : List Byte) :
    parseValue m fresh (fuel + 1) item (nullWord.val ++ rest) =
      some (.ok (({ item with type := 2 }, .NULL), rest)) := by
  have hnull : strncmp 4 (nullWord.val ++ rest) nullWord.val = 0 := strncmp_prefix nullWord.val rest
  rw [parseValue, if_pos hnull]
  rfl

theorem parseValue_false (fuel : Nat) (item : Fields D) (rest : List Byte) :
    parseValue m fresh (fuel + 1) item (falseWord.val ++ rest) =
      some (.ok (({ item with type := 0 }, .NULL), rest)) := by
  have hnull : ¬ strncmp 4 (falseWord.val ++ rest) nullWord.val = 0 := strncmp_head (by decide) 3 _ _
  have hfalse : strncmp 5 (falseWord.val ++ rest) falseWord.val = 0 := strncmp_prefix falseWord.val rest
  rw [parseValue, if_neg hnull, if_pos hfalse]
  rfl

theorem parseValue_true (fuel : Nat) (item : Fields D) (rest : List Byte) :
    parseValue m fresh (fuel + 1) item (trueWord.val ++ rest) =
      some (.ok (({ item with type := 1, valueint := 1 }, .NULL), rest)) := by
  have hnull : ¬ strncmp 4 (trueWord.val ++ rest) nullWord.val = 0 := strncmp_head (by decide) 3 _ _
  have hfalse : ¬ strncmp 5 (trueWord.val ++ rest) falseWord.val = 0 := strncmp_head (by decide) 4 _ _
  have htrue : strncmp 4 (trueWord.val ++ rest) trueWord.val = 0 := strncmp_prefix trueWord.val rest
  rw [parseValue, if_neg hnull, if_neg hfalse, if_pos htrue]
  rfl

/-- No word begins with this byte. -/
def NoWord (c : Byte) : Prop := c ≠ 'n'.toUInt8 ∧ c ≠ 'f'.toUInt8 ∧ c ≠ 't'.toUInt8

theorem noWord {c : Byte} (h : NoWord c) (s : List Byte) : ¬ strncmp 4 (c :: s) nullWord.val = 0 ∧
    ¬ strncmp 5 (c :: s) falseWord.val = 0 ∧ ¬ strncmp 4 (c :: s) trueWord.val = 0 :=
  ⟨strncmp_head h.1 3 _ _, strncmp_head h.2.1 4 _ _, strncmp_head h.2.2 3 _ _⟩

theorem parseValue_string (fuel : Nat) (item : Fields D) {s rest : List Byte} {valuestring : CString}
    (h : parseString fresh ('"'.toUInt8 :: s) = some (.ok (valuestring, rest))) :
    parseValue m fresh (fuel + 1) item ('"'.toUInt8 :: s) =
      some (.ok (({ item with valuestring := some valuestring, type := 4 }, .NULL), rest)) := by
  obtain ⟨hnull, hfalse, htrue⟩ := noWord (c := '"'.toUInt8) (by unfold NoWord; decide) s
  rw [parseValue, if_neg hnull, if_neg hfalse, if_neg htrue, if_pos (show deref ('"'.toUInt8 :: s) = _ by rfl), h]
  rfl

theorem parseValue_number (fuel : Nat) (item : Fields D) {c : Byte} (hc : c = '-'.toUInt8 ∨ digit c = true)
    {s rest : List Byte} {valuedouble : D} {valueint : Int}
    (h : parseNumber m (c :: s) = some ((valuedouble, valueint), rest)) :
    parseValue m fresh (fuel + 1) item (c :: s) =
      some (.ok (({ item with valuedouble := valuedouble, valueint := valueint, type := 3 }, .NULL), rest)) := by
  have hall : ∀ c : Byte, c = '-'.toUInt8 ∨ digit c = true → NoWord c ∧ c ≠ '"'.toUInt8 :=
    forall_byte (by unfold NoWord; decide +kernel)
  obtain ⟨hword, hquote⟩ := hall c hc
  obtain ⟨hnull, hfalse, htrue⟩ := noWord hword s
  have hderef : deref (c :: s) = c := rfl
  rw [parseValue, if_neg hnull, if_neg hfalse, if_neg htrue, hderef, if_neg hquote, if_pos hc, h]
  rfl

theorem parseValue_bracket (fuel : Nat) (item : Fields D) (s : List Byte) :
    parseValue m fresh (fuel + 1) item ('['.toUInt8 :: s) = parseArray m fresh fuel item ('['.toUInt8 :: s) := by
  obtain ⟨hnull, hfalse, htrue⟩ := noWord (c := '['.toUInt8) (by unfold NoWord; decide) s
  have hderef : deref ('['.toUInt8 :: s) = '['.toUInt8 := rfl
  rw [parseValue, if_neg hnull, if_neg hfalse, if_neg htrue, hderef, if_neg (by decide), if_neg (by decide), if_pos rfl]

theorem parseValue_brace (fuel : Nat) (item : Fields D) (s : List Byte) :
    parseValue m fresh (fuel + 1) item ('{'.toUInt8 :: s) = parseObject m fresh fuel item ('{'.toUInt8 :: s) := by
  obtain ⟨hnull, hfalse, htrue⟩ := noWord (c := '{'.toUInt8) (by unfold NoWord; decide) s
  have hderef : deref ('{'.toUInt8 :: s) = '{'.toUInt8 := rfl
  rw [parseValue, if_neg hnull, if_neg hfalse, if_neg htrue, hderef, if_neg (by decide), if_neg (by decide),
    if_neg (by decide), if_pos rfl]

theorem parseElements_skip (fuel : Nat) (value : List Byte) :
    parseElements m fresh fuel (skip value) = parseElements m fresh fuel value := by
  cases fuel with
  | zero => rfl
  | succ fuel => rw [parseElements, parseElements, skip_skip]

theorem parseMembers_skip (fuel : Nat) (value : List Byte) :
    parseMembers m fresh fuel (skip value) = parseMembers m fresh fuel value := by
  cases fuel with
  | zero => rfl
  | succ fuel => rw [parseMembers, parseMembers, skip_skip]

theorem parseArray_empty (fuel : Nat) (item : Fields D) {ws : List Byte} (hws : Blank ws) (rest : List Byte) :
    parseArray m fresh (fuel + 1) item ('['.toUInt8 :: (ws ++ ']'.toUInt8 :: rest)) =
      some (.ok (({ item with type := 5 }, .NULL), rest)) := by
  have hskip : skip (ws ++ ']'.toUInt8 :: rest) = ']'.toUInt8 :: rest := by
    rw [skip_blank hws, skip_token (by decide)]
  simp only [parseArray, List.drop_succ_cons, List.drop_zero, hskip, deref, List.headD_cons, if_true]

theorem parseObject_empty (fuel : Nat) (item : Fields D) {ws : List Byte} (hws : Blank ws) (rest : List Byte) :
    parseObject m fresh (fuel + 1) item ('{'.toUInt8 :: (ws ++ '}'.toUInt8 :: rest)) =
      some (.ok (({ item with type := 6 }, .NULL), rest)) := by
  have hskip : skip (ws ++ '}'.toUInt8 :: rest) = '}'.toUInt8 :: rest := by
    rw [skip_blank hws, skip_token (by decide)]
  simp only [parseObject, List.drop_succ_cons, List.drop_zero, hskip, deref, List.headD_cons, if_true]

theorem parseArray_elements (fuel : Nat) (item : Fields D) {child : Node D} {s : List Byte}
    (hs : Spells m (.elements child) s) {rest : List Byte}
    (h : parseElements m fresh fuel (s ++ ']'.toUInt8 :: rest) = some (.ok (child, ']'.toUInt8 :: rest))) :
    parseArray m fresh (fuel + 1) item ('['.toUInt8 :: (s ++ ']'.toUInt8 :: rest)) =
      some (.ok (({ item with type := 5 }, child), rest)) := by
  obtain ⟨ws, c, t, rfl, hws, hc, hne⟩ := spells_elements_head hs
  rw [← parseElements_skip] at h
  have hskip : skip (ws ++ c :: t ++ ']'.toUInt8 :: rest) = c :: (t ++ ']'.toUInt8 :: rest) := by
    rw [List.append_assoc, skip_blank hws, List.cons_append, skip_token hc]
  rw [hskip] at h
  simp only [parseArray, List.drop_succ_cons, List.drop_zero, hskip, deref, List.headD_cons, hne, if_false, h,
    Option.bind_eq_bind, Option.bind_some, if_true]

theorem parseObject_members (fuel : Nat) (item : Fields D) {child : Node D} {s : List Byte}
    (hs : Spells m (.members child) s) {rest : List Byte}
    (h : parseMembers m fresh fuel (s ++ '}'.toUInt8 :: rest) = some (.ok (child, '}'.toUInt8 :: rest))) :
    parseObject m fresh (fuel + 1) item ('{'.toUInt8 :: (s ++ '}'.toUInt8 :: rest)) =
      some (.ok (({ item with type := 6 }, child), rest)) := by
  obtain ⟨ws, t, rfl, hws⟩ := spells_members_head hs
  rw [← parseMembers_skip] at h
  have hskip : skip (ws ++ '"'.toUInt8 :: t ++ '}'.toUInt8 :: rest) = '"'.toUInt8 :: (t ++ '}'.toUInt8 :: rest) := by
    rw [List.append_assoc, skip_blank hws, List.cons_append, skip_token (by decide)]
  have hne : ¬ '"'.toUInt8 = '}'.toUInt8 := by decide
  rw [hskip] at h
  simp only [parseObject, List.drop_succ_cons, List.drop_zero, hskip, deref, List.headD_cons, hne, if_false, h,
    Option.bind_eq_bind, Option.bind_some, if_true]

/-- An element and the text behind it, up to the comma. -/
theorem parseElements_value (fuel : Nat) {fields : Fields D} {child : Node D} {value after : List Byte}
    (h : parseValue m fresh fuel (cjsonNewItem m) (skip value) = some (.ok ((fields, child), after))) :
    (deref (skip after) ≠ ','.toUInt8 → parseElements m fresh (fuel + 1) value =
      some (.ok (.item fields child .NULL, skip after))) ∧
    ∀ next rest rest', skip after = ','.toUInt8 :: rest' →
      parseElements m fresh fuel rest' = some (.ok (next, rest)) →
      parseElements m fresh (fuel + 1) value = some (.ok (.item fields child next, rest)) := by
  constructor
  · intro hne
    simp only [parseElements, h, Option.bind_eq_bind, Option.bind_some, hne, if_false]
  · intro next rest rest' hcomma hrest
    simp only [parseElements, h, Option.bind_eq_bind, Option.bind_some, hcomma, deref, List.headD_cons, if_true,
      List.drop_succ_cons, List.drop_zero, hrest]

/-- A member and the text behind it, up to the comma. -/
theorem parseMembers_value (fuel : Nat) {pieces : List Piece} (hlen : (textOf pieces).length < intMax)
    {w x y : List Byte} (hw : Blank w) (hx : Blank x) (hy : Blank y) {fields : Fields D} {child : Node D}
    {value after : List Byte}
    (h : parseValue m fresh fuel (readFields m 4 (some (decoded pieces))) (skip value) =
      some (.ok ((fields, child), after))) :
    (deref (skip after) ≠ ','.toUInt8 →
      parseMembers m fresh (fuel + 1) (w ++ ((quoted pieces).val ++ (x ++ ':'.toUInt8 :: (y ++ value)))) =
        some (.ok (.item fields child .NULL, skip after))) ∧
    ∀ next rest rest', skip after = ','.toUInt8 :: rest' →
      parseMembers m fresh fuel rest' = some (.ok (next, rest)) →
      parseMembers m fresh (fuel + 1) (w ++ ((quoted pieces).val ++ (x ++ ':'.toUInt8 :: (y ++ value)))) =
        some (.ok (.item fields child next, rest)) := by
  have hquoted : (quoted pieces).val ++ (x ++ ':'.toUInt8 :: (y ++ value)) =
      '"'.toUInt8 :: textOf pieces ++ '"'.toUInt8 :: (x ++ ':'.toUInt8 :: (y ++ value)) := by simp [quoted]
  have hname : parseString fresh (skip (w ++ ((quoted pieces).val ++ (x ++ ':'.toUInt8 :: (y ++ value))))) =
      some (.ok (decoded pieces, x ++ ':'.toUInt8 :: (y ++ value))) := by
    rw [hquoted, skip_blank hw, List.cons_append, skip_token (by decide), ← List.cons_append]
    exact parseString_pieces fresh pieces (Or.inl rfl) hlen
  have hcolon : skip (x ++ ':'.toUInt8 :: (y ++ value)) = ':'.toUInt8 :: (y ++ value) := by
    rw [skip_blank hx, skip_token (by decide)]
  have hvalue : parseValue m fresh fuel { cjsonNewItem m with type := 4, string := some (decoded pieces) }
      (skip (y ++ value)) = some (.ok ((fields, child), after)) := by
    rw [skip_blank hy]
    exact h
  constructor
  · intro hne
    simp only [parseMembers, hname, hcolon, hvalue, Option.bind_eq_bind, Option.bind_some, deref, List.headD_cons,
      ne_eq, not_true_eq_false, if_false, List.drop_succ_cons, List.drop_zero]
    exact if_neg hne
  · intro next rest rest' hcomma hrest
    simp only [parseMembers, hname, hcolon, hvalue, Option.bind_eq_bind, Option.bind_some, hcomma, deref,
      List.headD_cons, if_true, List.drop_succ_cons, List.drop_zero, hrest, ne_eq, not_true_eq_false, if_false]

/-- **What spells a part of a tree is read as it.** By induction on how it is written. -/
theorem parse_spells (hm : m.Exact) {part : Part D} {s : List Byte} (h : Spells m part s) : Reads m fresh part s := by
  have hbracket : Stops [']'.toUInt8] := by unfold Stops; decide
  have hbrace : Stops ['}'.toUInt8] := by unfold Stops; decide
  have hcomma : Stops [','.toUInt8] := by unfold Stops; decide
  induction h with
  | null string =>
    intro fuel type rest hfuel _ _
    obtain ⟨fuel, rfl⟩ := Nat.exists_eq_add_of_le' (show 1 ≤ fuel from Nat.le_trans (by decide) hfuel)
    exact parseValue_null fuel _ rest
  | false string =>
    intro fuel type rest hfuel _ _
    obtain ⟨fuel, rfl⟩ := Nat.exists_eq_add_of_le' (show 1 ≤ fuel from Nat.le_trans (by decide) hfuel)
    exact parseValue_false fuel _ rest
  | true string =>
    intro fuel type rest hfuel _ _
    obtain ⟨fuel, rfl⟩ := Nat.exists_eq_add_of_le' (show 1 ≤ fuel from Nat.le_trans (by decide) hfuel)
    exact parseValue_true fuel _ rest
  | number string i hlow hhigh =>
    intro fuel type rest hfuel _ hrest
    obtain ⟨c, t, heq, hc⟩ := printInt_head i
    rw [heq, List.length_cons] at hfuel
    obtain ⟨fuel, rfl⟩ := Nat.exists_eq_add_of_le' (show 1 ≤ fuel by omega)
    have hnumber := parseNumber_int hm hlow hhigh hrest
    rw [heq, List.cons_append] at hnumber ⊢
    exact parseValue_number fuel _ hc hnumber
  | string string pieces =>
    intro fuel type rest hfuel hlen _
    simp only [quoted, List.length_append, List.length_cons, List.length_nil] at hfuel hlen
    obtain ⟨fuel, rfl⟩ := Nat.exists_eq_add_of_le' (show 1 ≤ fuel by omega)
    have hends : Ends ('"'.toUInt8 :: rest) := Or.inl rfl
    have hstring := parseString_pieces fresh pieces hends (by omega)
    have heq : (quoted pieces).val ++ rest = '"'.toUInt8 :: (textOf pieces ++ '"'.toUInt8 :: rest) := by
      simp [quoted]
    rw [heq]
    exact parseValue_string fuel _ hstring
  | emptyArray string hws =>
    intro fuel type rest hfuel _ _
    simp only [List.length_append, List.length_cons, List.length_nil] at hfuel
    obtain ⟨fuel, rfl⟩ := Nat.exists_eq_add_of_le' (show 2 ≤ fuel by omega)
    rw [enclosed, parseValue_bracket]
    exact parseArray_empty fuel _ hws rest
  | @array string child s hs ih =>
    intro fuel type rest hfuel hlen _
    simp only [List.length_append, List.length_cons, List.length_nil] at hfuel hlen
    obtain ⟨fuel, rfl⟩ := Nat.exists_eq_add_of_le' (show 2 ≤ fuel by omega)
    have helements := ih fuel (']'.toUInt8 :: rest) (by omega) (by omega) rfl
    rw [enclosed, parseValue_bracket]
    exact parseArray_elements fuel _ hs helements
  | emptyObject string hws =>
    intro fuel type rest hfuel _ _
    simp only [List.length_append, List.length_cons, List.length_nil] at hfuel
    obtain ⟨fuel, rfl⟩ := Nat.exists_eq_add_of_le' (show 2 ≤ fuel by omega)
    rw [enclosed, parseValue_brace]
    exact parseObject_empty fuel _ hws rest
  | @object string child s hs ih =>
    intro fuel type rest hfuel hlen _
    simp only [List.length_append, List.length_cons, List.length_nil] at hfuel hlen
    obtain ⟨fuel, rfl⟩ := Nat.exists_eq_add_of_le' (show 2 ≤ fuel by omega)
    have hmembers := ih fuel ('}'.toUInt8 :: rest) (by omega) (by omega) rfl
    rw [enclosed, parseValue_brace]
    exact parseObject_members fuel _ hs hmembers
  | @lastElement fields child s ws ws' hv hstring hw hw' ihv =>
    intro fuel rest hfuel hlen hrest
    simp only [List.length_append] at hfuel hlen
    obtain ⟨fuel, rfl⟩ := Nat.exists_eq_add_of_le' (show 1 ≤ fuel by omega)
    obtain ⟨c, t, heq, hc, -⟩ := spells_head hv
    have hvalue := ihv fuel 0 (ws' ++ rest) (by omega) (by omega) (stops_of_blank hw' (stops_deref hrest hbracket))
    have hskip : skip (ws ++ s ++ ws' ++ rest) = s ++ (ws' ++ rest) := by
      rw [List.append_assoc, List.append_assoc, skip_blank hw, heq, List.cons_append, skip_token hc]
    have hafter : skip (ws' ++ rest) = rest := skip_stop hw' hrest (by decide)
    rw [hstring, ← hskip] at hvalue
    rw [(parseElements_value fuel hvalue).1 (by rw [hafter, hrest]; decide), hafter]
  | @element fields child next s tail ws ws' hv hstring hw hw' hnext ihv ihnext =>
    intro fuel rest hfuel hlen hrest
    simp only [List.length_append, List.length_cons] at hfuel hlen
    obtain ⟨fuel, rfl⟩ := Nat.exists_eq_add_of_le' (show 1 ≤ fuel by omega)
    obtain ⟨c, t, heq, hc, -⟩ := spells_head hv
    have hvalue := ihv fuel 0 (ws' ++ ','.toUInt8 :: (tail ++ rest)) (by omega) (by omega)
      (stops_of_blank hw' (stops_deref rfl hcomma))
    have htail := ihnext fuel rest (by omega) (by omega) hrest
    have hskip : skip (ws ++ s ++ ws' ++ ','.toUInt8 :: tail ++ rest) = s ++
      (ws' ++ ','.toUInt8 :: (tail ++ rest)) := by
      simp only [List.append_assoc, List.cons_append]
      rw [skip_blank hw, heq, List.cons_append, skip_token hc]
    have hafter : skip (ws' ++ ','.toUInt8 :: (tail ++ rest)) = ','.toUInt8 :: (tail ++ rest) :=
      skip_stop hw' (show deref _ = ','.toUInt8 by rfl) (by decide)
    rw [hstring, ← hskip] at hvalue
    exact (parseElements_value fuel hvalue).2 _ _ _ hafter htail
  | @lastMember fields child pieces s w x y z hv hstring hw hx hy hz ihv =>
    intro fuel rest hfuel hlen hrest
    simp only [quoted, List.length_append, List.length_cons, List.length_nil] at hfuel hlen
    obtain ⟨fuel, rfl⟩ := Nat.exists_eq_add_of_le' (show 1 ≤ fuel by omega)
    obtain ⟨c, t, heq, hc, -⟩ := spells_head hv
    have hvalue := ihv fuel 4 (z ++ rest) (by omega) (by omega) (stops_of_blank hz (stops_deref hrest hbrace))
    have hskip : skip (s ++ (z ++ rest)) = s ++ (z ++ rest) := by rw [heq, List.cons_append, skip_token hc]
    have hafter : skip (z ++ rest) = rest := skip_stop hz hrest (by decide)
    rw [hstring, ← hskip] at hvalue
    have hmember := (parseMembers_value fuel (by omega) hw hx hy hvalue).1 (by rw [hafter, hrest]; decide)
    rw [hafter] at hmember
    simpa only [List.append_assoc, List.cons_append] using hmember
  | @member fields child next pieces s tail w x y z hv hstring hw hx hy hz hnext ihv ihnext =>
    intro fuel rest hfuel hlen hrest
    simp only [quoted, List.length_append, List.length_cons, List.length_nil] at hfuel hlen
    obtain ⟨fuel, rfl⟩ := Nat.exists_eq_add_of_le' (show 1 ≤ fuel by omega)
    obtain ⟨c, t, heq, hc, -⟩ := spells_head hv
    have hvalue := ihv fuel 4 (z ++ ','.toUInt8 :: (tail ++ rest)) (by omega) (by omega)
      (stops_of_blank hz (stops_deref rfl hcomma))
    have htail := ihnext fuel rest (by omega) (by omega) hrest
    have hskip : skip (s ++ (z ++ ','.toUInt8 :: (tail ++ rest))) = s ++ (z ++ ','.toUInt8 :: (tail ++ rest)) := by
      rw [heq, List.cons_append, skip_token hc]
    have hafter : skip (z ++ ','.toUInt8 :: (tail ++ rest)) = ','.toUInt8 :: (tail ++ rest) :=
      skip_stop hz (show deref _ = ','.toUInt8 by rfl) (by decide)
    rw [hstring, ← hskip] at hvalue
    have hmember := (parseMembers_value fuel (by omega) hw hx hy hvalue).2 _ _ _ hafter htail
    simpa only [List.append_assoc, List.cons_append] using hmember

/-- What the root has been read from, and what stands behind it. -/
theorem cjsonParseWithOpts_value {fields : Fields D} {child : Node D} {value : CString} {rest : List Byte}
    (h : parseValue m fresh (3 * value.val.length + 3) (cjsonNewItem m) (skip value.val) =
      some (.ok ((fields, child), rest)))
    (hrest : (0 : Byte) ∉ rest) (requireNullTerminated : Bool) :
    cjsonParseWithOpts m fresh value requireNullTerminated =
      some (if requireNullTerminated = true ∧ skip rest ≠ [] then .error (skip rest)
        else .ok (.item fields child .NULL, if requireNullTerminated then skip rest else rest)) := by
  have hzero : deref (skip rest) = 0 ↔ skip rest = [] := by
    constructor
    · intro hderef
      cases hlast : skip rest with
      | nil => rfl
      | cons d last =>
        have hd : d = 0 := by rw [hlast] at hderef; exact hderef
        have hmem : d ∈ rest :=
          (List.dropWhile_sublist _).subset (show d ∈ skip rest by rw [hlast]; exact List.mem_cons_self)
        exact absurd (hd ▸ hmem) hrest
    · intro hnil
      rw [hnil]
      rfl
  cases requireNullTerminated with
  | false =>
    simp only [cjsonParseWithOpts, h, Option.bind_eq_bind, Option.bind_some, Bool.false_eq_true, false_and, if_false]
  | true =>
    simp only [cjsonParseWithOpts, h, Option.bind_eq_bind, Option.bind_some, if_true, ne_eq, hzero, true_and]
    split_ifs <;> rfl

/-- The root is read from a text that spells it, with blanks before it. -/
theorem parseValue_spells (hm : m.Exact) {fields : Fields D} {child : Node D} {s : List Byte}
    (h : Spells m (.value fields child) s) (hroot : fields.string = none) {ws rest : List Byte} (hws : Blank ws)
    (hrest : Stops rest) {value : CString} (hvalue : value.val = ws ++ s ++ rest) (hlen : s.length ≤ intMax) :
    parseValue m fresh (3 * value.val.length + 3) (cjsonNewItem m) (skip value.val) =
      some (.ok ((fields, child), rest)) := by
  obtain ⟨c, t, heq, hc, -⟩ := spells_head h
  have hread : Reads m fresh (.value fields child) s := parse_spells hm h
  have hskip : skip value.val = s ++ rest := by
    rw [hvalue, List.append_assoc, skip_blank hws, heq, List.cons_append, skip_token hc]
  have hfuel : 3 * s.length ≤ 3 * value.val.length + 3 := by
    rw [hvalue, List.length_append, List.length_append]
    omega
  have hparse := hread _ 0 rest hfuel hlen hrest
  rwa [hroot, ← hskip] at hparse

/-- **Every text that spells a tree is parsed to it**, wherever it has blanks and escapes, and up to what stands behind
it. That is refused only if it has to be nothing but blanks. -/
theorem cjsonParseWithOpts_spells (hm : m.Exact) {fields : Fields D} {child : Node D} {s : List Byte}
    (h : Spells m (.value fields child) s) (hroot : fields.string = none) {ws rest : List Byte} (hws : Blank ws)
    (hrest : Stops rest) {value : CString} (hvalue : value.val = ws ++ s ++ rest) (hlen : s.length ≤ intMax)
    (requireNullTerminated : Bool) :
    cjsonParseWithOpts m fresh value requireNullTerminated =
      some (if requireNullTerminated = true ∧ skip rest ≠ [] then .error (skip rest)
        else .ok (.item fields child .NULL, if requireNullTerminated then skip rest else rest)) := by
  refine cjsonParseWithOpts_value (parseValue_spells hm h hroot hws hrest hvalue hlen) (fun hzero => ?_) _
  exact value.property (by rw [hvalue]; exact List.mem_append_right _ hzero)

end Read

/-- `[1]` with a blank behind it. -/
def oneElement : CString := ⟨['['.toUInt8, '1'.toUInt8, ']'.toUInt8, ' '.toUInt8], by decide⟩

theorem oneElement_spells : Spells intDoubles (.value (readFields intDoubles 5 none)
    (.item { readFields intDoubles 3 none with valueint := 1, valuedouble := 1 } .NULL .NULL))
    ['['.toUInt8, '1'.toUInt8, ']'.toUInt8] :=
  .array none (.lastElement (.number none 1 (by decide) (by decide)) rfl (fun _ h => absurd h List.not_mem_nil)
    (fun _ h => absurd h List.not_mem_nil))

theorem cjsonParseWithOpts_spells_one : ∃ root, cjsonParseWithOpts intDoubles (fun _ => 7) oneElement true =
    some (.ok (root, [])) :=
  ⟨_, cjsonParseWithOpts_spells intDoubles_exact oneElement_spells rfl
    (show Blank [] from fun _ h => absurd h List.not_mem_nil)
    (show Stops [' '.toUInt8] by unfold Stops; decide) rfl (by decide) true⟩

end Cjson
end Xlibc
