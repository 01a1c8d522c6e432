import Xlibc.Cjson.Number
import Xlibc.Cjson.PrintString

/-!
# Xlibc.Cjson.Print

`print_value` of `cJSON.c`, with `print_array` and `print_object`.

* `Node` : a pointer to an item, with its children and the items behind it.
* `printValue`, `cjsonPrint`, `cjsonPrintUnformatted` : the code. An array or object is composed in a block of its own.
* `Sound` : what the items of a tree have to hold to be printed, `nodeText` the text.
* `printValue_text` : a sound tree is printed as its text, and no block is too short.
-/

namespace Xlibc
namespace Cjson

/-- The members of a `cJSON` that are no links. -/
structure Fields (D : Type) where
  type : Nat
  valuestring : Option CString
  valueint : Int
  valuedouble : D
  string : Option CString

/-- A pointer to a `cJSON`: `NULL`, or an item, its `child` and its `next`. -/
inductive Node (D : Type) where
  | NULL
  | item (fields : Fields D) (child next : Node D)

/-! ## The code -/

def nullWord : CString := ⟨['n'.toUInt8, 'u'.toUInt8, 'l'.toUInt8, 'l'.toUInt8], by decide⟩

def falseWord : CString := ⟨['f'.toUInt8, 'a'.toUInt8, 'l'.toUInt8, 's'.toUInt8, 'e'.toUInt8], by decide⟩

def trueWord : CString := ⟨['t'.toUInt8, 'r'.toUInt8, 'u'.toUInt8, 'e'.toUInt8], by decide⟩

/-- `n` tabs, if the text is formatted. -/
def tabs (fmt : Bool) (n : Nat) : List Byte := if fmt then List.replicate n '\t'.toUInt8 else []

/-- What stands behind an entry of an array. -/
def arrayComma (fmt : Bool) (last : Bool) : List Byte :=
  if last then [] else ','.toUInt8 :: (if fmt then [' '.toUInt8] else [])

/-- What stands behind a name. -/
def colon (fmt : Bool) : List Byte := ':'.toUInt8 :: (if fmt then ['\t'.toUInt8] else [])

/-- What stands behind a member of an object. -/
def objectComma (fmt : Bool) (last : Bool) : List Byte :=
  (if last then [] else [','.toUInt8]) ++ (if fmt then ['\n'.toUInt8] else [])

/-- What an object begins with. -/
def brace (fmt : Bool) : List Byte := '{'.toUInt8 :: (if fmt then ['\n'.toUInt8] else [])

section Code

variable {D : Type} (m : Doubles D) (fresh : Nat → Byte)

def cjsonStrdup (str : CString) : Option CString := do
  let copy ← storeBytes (xmalloc fresh (str.val.length + 1)) 0 (str.val ++ [0])
  cstring copy

/-- `if (i!=numentries-1) {*ptr++=',';if(fmt)*ptr++=' ';*ptr=0;}` -/
def putComma (fmt last : Bool) (out : List Byte) (ptr : Nat) : Option (List Byte) :=
  if last then some out else storeBytes out ptr (arrayComma fmt false ++ [0])

/-- `for (i=0;i<numentries;i++)` in `print_array` -/
def composeArray (fmt : Bool) : List CString → List Byte → Nat → Option (List Byte × Nat)
  | [], out, ptr => some (out, ptr)
  | entry :: entries, out, ptr => do
    let out ← storeBytes out ptr (entry.val ++ [0])
    let ptr := ptr + entry.val.length
    let out ← putComma fmt entries.isEmpty out ptr
    composeArray fmt entries out (ptr + (arrayComma fmt entries.isEmpty).length)

/-- `for (i=0;i<numentries;i++)` in `print_object` -/
def composeObject (fmt : Bool) (depth : Nat) :
    List (CString × CString) → List Byte → Nat → Option (List Byte × Nat)
  | [], out, ptr => some (out, ptr)
  | (name, entry) :: members, out, ptr => do
    let out ← storeBytes out ptr (tabs fmt depth)
    let ptr := ptr + (tabs fmt depth).length
    let out ← storeBytes out ptr (name.val ++ [0])
    let ptr := ptr + name.val.length
    let out ← storeBytes out ptr (colon fmt)
    let ptr := ptr + (colon fmt).length
    let out ← storeBytes out ptr (entry.val ++ [0])
    let ptr := ptr + entry.val.length
    let out ← storeBytes out ptr (objectComma fmt members.isEmpty ++ [0])
    composeObject fmt depth members out (ptr + (objectComma fmt members.isEmpty).length)

/-- The block of `print_array`, of `len` bytes. -/
def arrayBlock (fmt : Bool) (entries : List CString) (len : Nat) : Option CString := do
  let out ← storeBytes (xmalloc fresh len) 0 ['['.toUInt8, 0]
  let (out, ptr) ← composeArray fmt entries out 1
  let out ← storeBytes out ptr [']'.toUInt8, 0]
  cstring out

/-- The block of `print_object`, of `len` bytes. -/
def objectBlock (fmt : Bool) (depth : Nat) (members : List (CString × CString)) (len : Nat) : Option CString := do
  let out ← storeBytes (xmalloc fresh len) 0 (brace fmt ++ [0])
  let (out, ptr) ← composeObject fmt depth members out (brace fmt).length
  let out ← storeBytes out ptr (tabs fmt (depth - 1) ++ ['}'.toUInt8, 0])
  cstring out

/-- `/* Explicitly handle empty object case */` -/
def emptyObject (fmt : Bool) (depth : Nat) : Option CString :=
  if fmt = true ∧ intMax < depth + 4 then none
  else do
    let text := brace fmt ++ tabs fmt (depth - 1) ++ ['}'.toUInt8, 0]
    let out ← storeBytes (xmalloc fresh (if fmt then depth + 4 else 3)) 0 text
    cstring out

mutual

/-- `none` is no result, `some none` is `NULL`. -/
def printValue (item : Node D) (depth : Nat) (fmt : Bool) : Option (Option CString) :=
  match item with
  | .NULL => some none
  | .item fields child _ =>
    match fields.type % 256 with
    | 2 => (cjsonStrdup fresh nullWord).map some
    | 0 => (cjsonStrdup fresh falseWord).map some
    | 1 => (cjsonStrdup fresh trueWord).map some
    | 3 => (printNumber m fresh fields.valuedouble fields.valueint).map some
    | 4 => (printStringPtr fresh fields.valuestring).map some
    | 5 => printArray child depth fmt
    | 6 => printObject child depth fmt
    | _ => some none
termination_by (sizeOf item, 0)

def printArray (child : Node D) (depth : Nat) (fmt : Bool) : Option (Option CString) :=
  match child with
  | .NULL => (do
    let out ← storeBytes (xmalloc fresh 3) 0 ['['.toUInt8, ']'.toUInt8, 0]
    cstring out).map some
  | .item fields grandchild next => do
    match ← arrayEntries (.item fields grandchild next) (depth + 1) fmt 5 with
    | none => some none
    | some (entries, len) => (arrayBlock fresh fmt entries len).map some
termination_by (sizeOf child, 2)

/-- `while (child && !fail)` in `print_array`: the entries and `len`, or `fail`. -/
def arrayEntries (child : Node D) (depth : Nat) (fmt : Bool) (len : Nat) : Option (Option (List CString × Nat)) :=
  match child with
  | .NULL => some (some ([], len))
  | .item fields grandchild next => do
    match ← printValue (.item fields grandchild next) depth fmt with
    | none => some none
    | some ret =>
      let len := len + ret.val.length + 2 + (if fmt then 1 else 0)
      if intMax < len then none
      else do
        let rest ← arrayEntries next depth fmt len
        some (rest.map fun (entries, len) => (ret :: entries, len))
termination_by (sizeOf child, 1)

def printObject (child : Node D) (depth : Nat) (fmt : Bool) : Option (Option CString) :=
  match child with
  | .NULL => (emptyObject fresh fmt depth).map some
  | .item fields grandchild next => do
    let depth := depth + 1
    let len := 7 + (if fmt then depth else 0)
    if intMax < len then none
    else
      match ← objectEntries (.item fields grandchild next) depth fmt len with
      | none => some none
      | some (members, len) => (objectBlock fresh fmt depth members len).map some
termination_by (sizeOf child, 2)

/-- `while (child)` in `print_object`: the names with the entries and `len`, or `fail`. -/
def objectEntries (child : Node D) (depth : Nat) (fmt : Bool) (len : Nat) :
    Option (Option (List (CString × CString) × Nat)) :=
  match child with
  | .NULL => some (some ([], len))
  | .item fields grandchild next => do
    let str ← printStringPtr fresh fields.string
    match ← printValue (.item fields grandchild next) depth fmt with
    | none => do
      let _ ← objectEntries next depth fmt len
      some none
    | some ret =>
      let len := len + ret.val.length + str.val.length + 2 + (if fmt then 2 + depth else 0)
      if intMax < len then none
      else do
        let rest ← objectEntries next depth fmt len
        some (rest.map fun (members, len) => ((str, ret) :: members, len))
termination_by (sizeOf child, 1)

end

def cjsonPrint (item : Node D) : Option (Option CString) := printValue m fresh item 0 true

def cjsonPrintUnformatted (item : Node D) : Option (Option CString) := printValue m fresh item 0 false

end Code

/-! ## The text of a tree -/

def elementsText (fmt : Bool) : List (List Byte) → List Byte
  | [] => []
  | text :: texts => text ++ arrayComma fmt texts.isEmpty ++ elementsText fmt texts

def membersText (fmt : Bool) (depth : Nat) : List (List Byte × List Byte) → List Byte
  | [] => []
  | (name, text) :: members =>
    tabs fmt depth ++ name ++ colon fmt ++ text ++ objectComma fmt members.isEmpty ++ membersText fmt depth members

def arrayText (fmt : Bool) (texts : List (List Byte)) : List Byte :=
  '['.toUInt8 :: elementsText fmt texts ++ [']'.toUInt8]

/-- The braces of an empty object enclose a line that is not as deep. -/
def objectText (fmt : Bool) (depth : Nat) (members : List (List Byte × List Byte)) : List Byte :=
  brace fmt ++ membersText fmt (depth + 1) members ++
    tabs fmt (if members.isEmpty then depth - 1 else depth) ++ ['}'.toUInt8]

def stringText : Option CString → List Byte
  | none => []
  | some s => (quoted (escape s)).val

section Text

variable {D : Type}

/-- The text of an item, from the names and the texts of its children. -/
def itemText (fmt : Bool) (depth : Nat) (fields : Fields D) (names : List (List Byte)) (texts : List (List Byte)) :
    List Byte :=
  match fields.type % 256 with
  | 2 => nullWord.val
  | 0 => falseWord.val
  | 1 => trueWord.val
  | 3 => printInt fields.valueint
  | 4 => stringText fields.valuestring
  | 5 => arrayText fmt texts
  | 6 => objectText fmt depth (names.zip texts)
  | _ => []

def nodeNames : Node D → List (List Byte)
  | .NULL => []
  | .item fields _ next => stringText fields.string :: nodeNames next

/-- The texts of an item and of those behind it. -/
def nodeTexts (fmt : Bool) : Nat → Node D → List (List Byte)
  | _, .NULL => []
  | depth, .item fields child next =>
    itemText fmt depth fields (nodeNames child) (nodeTexts fmt (depth + 1) child) :: nodeTexts fmt depth next

def nodeText (fmt : Bool) (depth : Nat) (item : Node D) : List Byte := (nodeTexts fmt depth item).headD []

/-- An item of one of the seven types, with the value that its type asks for; a number is an `int`. -/
structure SoundItem (m : Doubles D) (fields : Fields D) : Prop where
  type : fields.type % 256 ≤ 6
  low : fields.type % 256 = 3 → -2 ^ 31 ≤ fields.valueint
  high : fields.type % 256 = 3 → fields.valueint ≤ intMax
  double : fields.type % 256 = 3 → fields.valuedouble = m.ofInt fields.valueint
  valuestring : fields.type % 256 = 4 → fields.valuestring.isSome = true

/-- All items are sound, and the members of objects have names. -/
def Sound (m : Doubles D) : Bool → Node D → Prop
  | _, .NULL => True
  | named, .item fields child next =>
    (named = true → fields.string.isSome = true) ∧ SoundItem m fields ∧
      (fields.type % 256 = 5 → Sound m false child) ∧ (fields.type % 256 = 6 → Sound m true child) ∧
        Sound m named next

end Text

/-! ## No text holds a zero -/

theorem tabs_noNul (fmt : Bool) (n : Nat) : (0 : Byte) ∉ tabs fmt n := by
  intro hmem
  rw [tabs] at hmem
  split at hmem
  · exact absurd (List.eq_of_mem_replicate hmem) (by decide)
  · cases hmem

theorem arrayComma_noNul (fmt last : Bool) : (0 : Byte) ∉ arrayComma fmt last := by
  cases fmt <;> cases last <;> decide

theorem objectComma_noNul (fmt last : Bool) : (0 : Byte) ∉ objectComma fmt last := by
  cases fmt <;> cases last <;> decide

theorem elementsText_noNul (fmt : Bool) (entries : List CString) :
    (0 : Byte) ∉ elementsText fmt (entries.map fun s => s.val) := by
  induction entries with
  | nil => exact List.not_mem_nil
  | cons entry entries ih =>
    simp only [List.map_cons, elementsText, List.mem_append, not_or]
    exact ⟨⟨entry.property, arrayComma_noNul _ _⟩, ih⟩

theorem membersText_noNul (fmt : Bool) (depth : Nat) (members : List (CString × CString)) :
    (0 : Byte) ∉ membersText fmt depth (members.map fun p => (p.1.val, p.2.val)) := by
  induction members with
  | nil => exact List.not_mem_nil
  | cons p members ih =>
    have hcolon : (0 : Byte) ∉ colon fmt := by cases fmt <;> decide
    simp only [List.map_cons, membersText, List.mem_append, not_or]
    exact ⟨⟨⟨⟨⟨tabs_noNul _ _, p.1.property⟩, hcolon⟩, p.2.property⟩, objectComma_noNul _ _⟩, ih⟩

theorem arrayText_noNul (fmt : Bool) (entries : List CString) :
    (0 : Byte) ∉ arrayText fmt (entries.map fun s => s.val) := by
  simp only [arrayText, List.cons_append, List.mem_cons, List.mem_append, List.not_mem_nil, or_false, not_or]
  exact ⟨by decide, elementsText_noNul fmt entries, by decide⟩

theorem objectText_noNul (fmt : Bool) (depth : Nat) (members : List (CString × CString)) :
    (0 : Byte) ∉ objectText fmt depth (members.map fun p => (p.1.val, p.2.val)) := by
  have hbrace : (0 : Byte) ∉ brace fmt := by cases fmt <;> decide
  simp only [objectText, List.mem_append, List.mem_singleton, not_or]
  exact ⟨⟨⟨hbrace, membersText_noNul _ _ _⟩, tabs_noNul _ _⟩, by decide⟩

/-! ## The blocks -/

theorem isEmpty_map {α β : Type} (f : α → β) (xs : List α) :
    (xs.map f).isEmpty = xs.isEmpty := by cases xs <;> rfl

theorem composeArray_text {size : Nat} (fmt : Bool) (entries : List CString) {n : Nat} {out text : List Byte}
    (hw : Written size out text) (hn : text.length = n)
    (hfit : n + (elementsText fmt (entries.map fun s => s.val)).length + 1 ≤ size) :
    ∃ out', composeArray fmt entries out n =
        some (out', n + (elementsText fmt (entries.map fun s => s.val)).length) ∧
      Written size out' (text ++ elementsText fmt (entries.map fun s => s.val)) := by
  induction entries generalizing n out text with
  | nil => exact ⟨out, rfl, by rwa [List.map_nil, elementsText, List.append_nil]⟩
  | cons entry entries ih =>
    simp only [List.map_cons, elementsText, isEmpty_map, List.length_append] at hfit ⊢
    obtain ⟨out1, hstore1, hw1⟩ := hw.strcpy entry.val hn (by omega)
    have hn1 : (text ++ entry.val).length = n + entry.val.length := by rw [List.length_append, hn]
    -- the last entry is followed by nothing
    obtain ⟨out2, hstore2, hw2⟩ : ∃ out2, putComma fmt entries.isEmpty out1 (n + entry.val.length) = some out2 ∧
        Written size out2 (text ++ entry.val ++ arrayComma fmt entries.isEmpty) := by
      cases hempty : entries.isEmpty with
      | true =>
        rw [show arrayComma fmt true = [] by rfl, List.append_nil]
        exact ⟨out1, rfl, hw1⟩
      | false =>
        rw [hempty] at hfit
        exact hw1.strcpy (arrayComma fmt false) hn1 (by omega)
    obtain ⟨out3, hloop, hw3⟩ := ih hw2 (by rw [List.length_append, hn1]) (by omega)
    refine ⟨out3, ?_, by simpa only [List.append_assoc] using hw3⟩
    simp only [composeArray, hstore1, hstore2, Option.bind_eq_bind, Option.bind_some, hloop]
    simp only [Nat.add_assoc]

theorem composeObject_text {size : Nat} (fmt : Bool) (depth : Nat) (members : List (CString × CString)) {n : Nat}
    {out text : List Byte} (hw : Written size out text) (hn : text.length = n)
    (hfit : n + (membersText fmt depth (members.map fun p => (p.1.val, p.2.val))).length + 1 ≤ size) :
    ∃ out', composeObject fmt depth members out n =
        some (out', n + (membersText fmt depth (members.map fun p => (p.1.val, p.2.val))).length) ∧
      Written size out' (text ++ membersText fmt depth (members.map fun p => (p.1.val, p.2.val))) := by
  induction members generalizing n out text with
  | nil => exact ⟨out, rfl, by rwa [List.map_nil, membersText, List.append_nil]⟩
  | cons p members ih =>
    obtain ⟨name, entry⟩ := p
    simp only [List.map_cons, membersText, isEmpty_map, List.length_append] at hfit ⊢
    obtain ⟨out1, hstore1, hw1⟩ := hw.store (tabs fmt depth) hn (by omega)
    have hn1 : (text ++ tabs fmt depth).length = n + (tabs fmt depth).length := by rw [List.length_append, hn]
    obtain ⟨out2, hstore2, hw2⟩ := hw1.strcpy name.val hn1 (by omega)
    have hn2 : (text ++ tabs fmt depth ++ name.val).length = n + (tabs fmt depth).length + name.val.length := by
      rw [List.length_append, hn1]
    obtain ⟨out3, hstore3, hw3⟩ := hw2.store (colon fmt) hn2 (by omega)
    have hn3 : (text ++ tabs fmt depth ++ name.val ++ colon fmt).length =
        n + (tabs fmt depth).length + name.val.length + (colon fmt).length := by rw [List.length_append, hn2]
    obtain ⟨out4, hstore4, hw4⟩ := hw3.strcpy entry.val hn3 (by omega)
    have hn4 : (text ++ tabs fmt depth ++ name.val ++ colon fmt ++ entry.val).length =
        n + (tabs fmt depth).length + name.val.length + (colon fmt).length + entry.val.length := by
      rw [List.length_append, hn3]
    obtain ⟨out5, hstore5, hw5⟩ := hw4.strcpy (objectComma fmt members.isEmpty) hn4 (by omega)
    obtain ⟨out6, hloop, hw6⟩ := ih hw5 (by rw [List.length_append, hn4]) (by omega)
    refine ⟨out6, ?_, by simpa only [List.append_assoc] using hw6⟩
    simp only [composeObject, hstore1, hstore2, hstore3, hstore4, hstore5, Option.bind_eq_bind, Option.bind_some, hloop]
    simp only [Nat.add_assoc]

section Blocks

variable (fresh : Nat → Byte)

theorem cjsonStrdup_self (str : CString) : cjsonStrdup fresh str = some str := by
  obtain ⟨out, hstore, hw⟩ := (Written.start (xmalloc_length fresh (str.val.length + 1))).store (str.val ++ [0])
    (show _ = 0 by rfl) (by simp)
  rw [cjsonStrdup, hstore]
  exact hw.string str.property

theorem arrayBlock_text (fmt : Bool) (entries : List CString) {len : Nat}
    (hlen : (arrayText fmt (entries.map fun s => s.val)).length + 1 ≤ len) :
    arrayBlock fresh fmt entries len = some ⟨_, arrayText_noNul fmt entries⟩ := by
  simp only [arrayText, List.length_cons, List.length_append, List.length_nil] at hlen
  obtain ⟨out1, hstore1, hw1⟩ := (Written.start (xmalloc_length fresh len)).strcpy ['['.toUInt8] (show _ = 0 by rfl)
    (by simp only [List.length_singleton]; omega)
  obtain ⟨out2, hloop, hw2⟩ := composeArray_text fmt entries hw1 (show _ = 1 by rfl) (by omega)
  obtain ⟨out3, hstore3, hw3⟩ := hw2.store [']'.toUInt8, 0]
    (show _ = 1 + (elementsText fmt (entries.map fun s => s.val)).length by rw [List.length_append]; rfl)
    (by simp only [List.length_cons, List.length_nil]; omega)
  have hw : Written len out3 (arrayText fmt (entries.map fun s => s.val) ++ [0]) := by
    simpa [arrayText] using hw3
  rw [arrayBlock, show storeBytes (xmalloc fresh len) 0 ['['.toUInt8, 0] = some out1 from hstore1]
  simp only [Option.bind_eq_bind, Option.bind_some, hloop, hstore3]
  exact hw.string (arrayText_noNul fmt entries)

theorem objectBlock_text (fmt : Bool) (depth : Nat) {members : List (CString × CString)} (hne : members ≠ [])
    {len : Nat}
    (hlen : (objectText fmt depth (members.map fun p => (p.1.val, p.2.val))).length + 1 ≤ len) :
    objectBlock fresh fmt (depth + 1) members len = some ⟨_, objectText_noNul fmt depth members⟩ := by
  have hempty : members.isEmpty = false := List.isEmpty_eq_false_iff.mpr hne
  have htext : objectText fmt depth (members.map fun p => (p.1.val, p.2.val)) =
      brace fmt ++ membersText fmt (depth + 1) (members.map fun p => (p.1.val, p.2.val)) ++ tabs fmt depth ++
        ['}'.toUInt8] := by
    rw [objectText, isEmpty_map, hempty]
    rfl
  rw [htext] at hlen
  simp only [List.length_append, List.length_singleton] at hlen
  obtain ⟨out1, hstore1, hw1⟩ := (Written.start (xmalloc_length fresh len)).strcpy (brace fmt) (show _ = 0 by rfl)
    (by omega)
  obtain ⟨out2, hloop, hw2⟩ := composeObject_text fmt (depth + 1) members hw1 (show _ = (brace fmt).length by rfl)
    (by omega)
  obtain ⟨out3, hstore3, hw3⟩ := hw2.store (tabs fmt (depth + 1 - 1) ++ ['}'.toUInt8, 0])
    (show _ = (brace fmt).length + (membersText fmt (depth + 1) (members.map fun p => (p.1.val, p.2.val))).length by
      rw [List.length_append]; rfl)
    (by simp only [List.length_append, List.length_cons, List.length_nil, Nat.add_sub_cancel]; omega)
  have hw : Written len out3 (objectText fmt depth (members.map fun p => (p.1.val, p.2.val)) ++ [0]) := by
    rw [htext]
    simpa [List.append_assoc] using hw3
  simp only [objectBlock, hstore1, Option.bind_eq_bind, Option.bind_some, hloop, hstore3]
  exact hw.string (objectText_noNul fmt depth members)

end Blocks

/-! ## The lengths of the blocks -/

/-- `len` behind the entries of an array. -/
def arrayLen (fmt : Bool) : Nat → List (List Byte) → Nat
  | len, [] => len
  | len, text :: texts => arrayLen fmt (len + text.length + 2 + (if fmt then 1 else 0)) texts

/-- `len` behind the members of an object. -/
def objectLen (fmt : Bool) (depth : Nat) : Nat → List (List Byte × List Byte) → Nat
  | len, [] => len
  | len, (name, text) :: members =>
    objectLen fmt depth (len + text.length + name.length + 2 + (if fmt then 2 + depth else 0)) members

theorem le_arrayLen (fmt : Bool) (texts : List (List Byte)) (len : Nat) : len ≤ arrayLen fmt len texts := by
  induction texts generalizing len with
  | nil => exact Nat.le_refl _
  | cons text texts ih => exact Nat.le_trans (by omega) (ih _)

theorem le_objectLen (fmt : Bool) (depth : Nat) (members : List (List Byte × List Byte)) (len : Nat) :
    len ≤ objectLen fmt depth len members := by
  induction members generalizing len with
  | nil => exact Nat.le_refl _
  | cons p members ih => exact Nat.le_trans (by omega) (ih _)

theorem tabs_length (fmt : Bool) (n : Nat) : (tabs fmt n).length = if fmt then n else 0 := by
  cases fmt <;> simp [tabs]

theorem elementsText_cons (fmt : Bool) (text text' : List Byte) (texts : List (List Byte)) :
    elementsText fmt (text :: text' :: texts) = text ++ arrayComma fmt false ++ elementsText fmt (text' :: texts) := rfl

theorem membersText_cons (fmt : Bool) (depth : Nat) (name text : List Byte) (p : List Byte × List Byte)
    (members : List (List Byte × List Byte)) : membersText fmt depth ((name, text) :: p :: members) =
      tabs fmt depth ++ name ++ colon fmt ++ text ++ objectComma fmt false ++ membersText fmt depth (p :: members) :=
        rfl

theorem arrayLen_eq (fmt : Bool) {texts : List (List Byte)} (hne : texts ≠ []) (len : Nat) :
    arrayLen fmt len texts = len + (elementsText fmt texts).length + texts.length + (if fmt then 2 else 1) := by
  induction texts generalizing len with
  | nil => exact absurd rfl hne
  | cons text texts ih =>
    cases texts with
    | nil => cases fmt <;> simp [arrayLen, elementsText, arrayComma]
    | cons text' texts =>
      rw [arrayLen, ih (List.cons_ne_nil _ _), elementsText_cons]
      simp only [List.length_append, List.length_cons]
      cases fmt <;> simp [arrayComma] <;> omega

theorem objectLen_eq (fmt : Bool) (depth : Nat) {members : List (List Byte × List Byte)} (hne : members ≠ [])
    (len : Nat) :
    objectLen fmt depth len members = len + (membersText fmt depth members).length + 1 := by
  induction members generalizing len with
  | nil => exact absurd rfl hne
  | cons p members ih =>
    obtain ⟨name, text⟩ := p
    cases members with
    | nil => cases fmt <;> simp [objectLen, membersText, tabs, colon, objectComma] <;> omega
    | cons p' members =>
      rw [objectLen, ih (List.cons_ne_nil _ _), membersText_cons]
      simp only [List.length_append]
      cases fmt <;> simp [tabs, colon, objectComma] <;> omega

theorem length_le_elementsText (fmt : Bool) (texts : List (List Byte)) :
    texts.length ≤ (elementsText fmt texts).length + 1 := by
  induction texts with
  | nil => exact Nat.zero_le _
  | cons text texts ih =>
    cases texts with
    | nil => simp
    | cons text' texts =>
      rw [elementsText_cons]
      simp only [List.length_append, List.length_cons] at ih ⊢
      have hcomma : 0 < (arrayComma fmt false).length := by cases fmt <;> decide
      omega

theorem mem_elementsText (fmt : Bool) {texts : List (List Byte)} {t : List Byte} (h : t ∈ texts) :
    t.length ≤ (elementsText fmt texts).length := by
  induction texts with
  | nil => cases h
  | cons text texts ih =>
    rw [elementsText, List.length_append, List.length_append]
    rcases List.mem_cons.mp h with rfl | h
    · omega
    · have := ih h
      omega

theorem mem_membersText (fmt : Bool) (depth : Nat) {members : List (List Byte × List Byte)}
    {p : List Byte × List Byte}
    (h : p ∈ members) : p.1.length ≤ (membersText fmt depth members).length ∧
      p.2.length ≤ (membersText fmt depth members).length := by
  induction members with
  | nil => cases h
  | cons q members ih =>
    obtain ⟨name, text⟩ := q
    simp only [membersText, List.length_append]
    rcases List.mem_cons.mp h with rfl | h
    · constructor
      · show name.length ≤ _
        omega
      · show text.length ≤ _
        omega
    · have := ih h
      omega

/-- What a text may be as long as, for its block to have a length. -/
def Fits (text : List Byte) : Prop := 2 * text.length + 8 ≤ intMax

theorem arrayLen_fits {fmt : Bool} {texts : List (List Byte)} (hne : texts ≠ []) (h : Fits (arrayText fmt texts)) :
    arrayLen fmt 5 texts ≤ intMax ∧ (arrayText fmt texts).length + 1 ≤ arrayLen fmt 5 texts ∧
      ∀ t ∈ texts, Fits t := by
  have hlen := arrayLen_eq fmt hne 5
  have hcount := length_le_elementsText fmt texts
  have htext : (arrayText fmt texts).length = (elementsText fmt texts).length + 2 := by
    simp [arrayText]
  unfold Fits at h
  rw [htext] at h ⊢
  refine ⟨?_, by omega, fun t ht => ?_⟩
  · split at hlen <;> omega
  · have := mem_elementsText fmt ht
    unfold Fits
    omega

theorem objectLen_fits {fmt : Bool} {depth : Nat} {members : List (List Byte × List Byte)} (hne : members ≠ [])
    (h : Fits (objectText fmt depth members)) :
    objectLen fmt (depth + 1) (7 + (if fmt then depth + 1 else 0)) members ≤ intMax ∧
      (objectText fmt depth members).length + 1 ≤
        objectLen fmt (depth + 1) (7 + (if fmt then depth + 1 else 0)) members ∧
      ∀ p ∈ members, Fits p.1 ∧ Fits p.2 := by
  have hlen := objectLen_eq fmt (depth + 1) hne (7 + (if fmt then depth + 1 else 0))
  have htext : (objectText fmt depth members).length + 6 = objectLen fmt (depth + 1)
    (7 + (if fmt then depth + 1 else 0))
      members := by
    rw [hlen, objectText, List.isEmpty_eq_false_iff.mpr hne]
    cases fmt <;> simp [brace, tabs] <;> omega
  have hmembers : (membersText fmt (depth + 1) members).length ≤ (objectText fmt depth members).length := by
    simp only [objectText, List.length_append]
    omega
  unfold Fits at h
  refine ⟨by omega, by omega, fun p hp => ?_⟩
  have := mem_membersText fmt (depth + 1) hp
  unfold Fits
  omega

/-! ## Printing -/

theorem emptyObject_text (fresh : Nat → Byte) (fmt : Bool) (depth : Nat) (hfits : Fits (objectText fmt depth [])) :
    emptyObject fresh fmt depth = some ⟨_, objectText_noNul fmt depth []⟩ := by
  have htext : objectText fmt depth [] = brace fmt ++ tabs fmt (depth - 1) ++ ['}'.toUInt8] := by
    simp [objectText, membersText]
  have hlen : (objectText fmt depth []).length + 1 ≤ (if fmt then depth + 4 else 3) ∧
      ¬ (fmt = true ∧ intMax < depth + 4) := by
    unfold Fits at hfits
    rw [htext] at hfits ⊢
    simp only [List.length_append, tabs_length, List.length_singleton] at hfits ⊢
    cases fmt
    · simp [brace]
    · simp [brace] at hfits ⊢
      omega
  obtain ⟨out, hstore, hw⟩ := (Written.start (xmalloc_length fresh (if fmt then depth + 4 else 3))).store
    (objectText fmt depth [] ++ [0]) (show _ = 0 by rfl)
    (by rw [List.length_append, List.length_singleton, Nat.zero_add]; exact hlen.1)
  have hsplit : brace fmt ++ tabs fmt (depth - 1) ++ ['}'.toUInt8, 0] = objectText fmt depth [] ++ [0] := by
    rw [htext, List.append_assoc _ ['}'.toUInt8]]
    rfl
  simp only [emptyObject, hlen.2, if_false, hsplit, hstore, Option.bind_eq_bind, Option.bind_some]
  exact hw.string (objectText_noNul fmt depth [])

section Print

variable {D : Type} (m : Doubles D) (fresh : Nat → Byte)

/-- The item is printed as its text. -/
def PrintsValue (fmt : Bool) (depth : Nat) (item : Node D) : Prop :=
  Fits (nodeText fmt depth item) →
    ∃ s : CString, s.val = nodeText fmt depth item ∧ printValue m fresh item depth fmt = some (some s)

/-- The items are printed as entries of an array. -/
def PrintsEntries (fmt : Bool) (depth : Nat) (child : Node D) : Prop :=
  ∀ len, (∀ t ∈ nodeTexts fmt depth child, Fits t) → arrayLen fmt len (nodeTexts fmt depth child) ≤ intMax →
    ∃ entries : List CString, entries.map (fun s => s.val) = nodeTexts fmt depth child ∧
      arrayEntries m fresh child depth fmt len = some (some (entries, arrayLen fmt len (nodeTexts fmt depth child)))

def nodeMembers (fmt : Bool) (depth : Nat) (child : Node D) : List (List Byte × List Byte) :=
  (nodeNames child).zip (nodeTexts fmt depth child)

/-- The items are printed as members of an object. -/
def PrintsMembers (fmt : Bool) (depth : Nat) (child : Node D) : Prop :=
  ∀ len, (∀ p ∈ nodeMembers fmt depth child, Fits p.1 ∧ Fits p.2) →
    objectLen fmt depth len (nodeMembers fmt depth child) ≤ intMax →
    ∃ members : List (CString × CString), members.map (fun p => (p.1.val, p.2.val)) = nodeMembers fmt depth child ∧
      objectEntries m fresh child depth fmt len =
        some (some (members, objectLen fmt depth len (nodeMembers fmt depth child)))

variable {m fresh}

theorem printStringPtr_text (fresh : Nat → Byte) {string : Option CString} (hfits : Fits (stringText string)) :
    ∃ s : CString, s.val = stringText string ∧ printStringPtr fresh string = some s := by
  cases string with
  | none => exact ⟨_, rfl, rfl⟩
  | some s =>
    refine ⟨quoted (escape s), rfl, printStringPtr_pieces fresh s ?_⟩
    simp only [Fits, stringText, quoted, List.length_append, List.length_cons, List.length_nil] at hfits
    omega

theorem printsValue_array {fmt : Bool} {depth : Nat} {fields : Fields D} {child next : Node D}
    (htype : fields.type % 256 = 5) (hchild : PrintsEntries m fresh fmt (depth + 1) child) :
    PrintsValue m fresh fmt depth (.item fields child next) := by
  have htext : nodeText fmt depth (.item fields child next) = arrayText fmt (nodeTexts fmt (depth + 1) child) := by
    simp only [nodeText, nodeTexts, List.headD_cons, itemText, htype]
  have hprint : printValue m fresh (.item fields child next) depth fmt = printArray m fresh child depth fmt := by
    simp only [printValue, htype]
  intro hfits
  rw [htext] at hfits ⊢
  rw [hprint]
  cases child with
  | NULL =>
    obtain ⟨out, hstore, hw⟩ := (Written.start (xmalloc_length fresh 3)).store ['['.toUInt8, ']'.toUInt8, 0]
      (show _ = 0 by rfl) (by decide)
    refine ⟨⟨['['.toUInt8, ']'.toUInt8], by decide⟩, rfl, ?_⟩
    rw [printArray, hstore]
    exact congrArg (Option.map some) (hw.string (show (0 : Byte) ∉ ['['.toUInt8, ']'.toUInt8] by decide))
  | item f c n =>
    have hne : nodeTexts fmt (depth + 1) (.item f c n) ≠ [] := List.cons_ne_nil _ _
    obtain ⟨hlen, hroom, hall⟩ := arrayLen_fits hne hfits
    obtain ⟨entries, hentries, hcollect⟩ := hchild 5 hall hlen
    rw [← hentries] at hroom hcollect ⊢
    have hblock := arrayBlock_text fresh fmt entries hroom
    refine ⟨⟨_, arrayText_noNul fmt entries⟩, rfl, ?_⟩
    simp only [printArray, hcollect, Option.bind_eq_bind, Option.bind_some, hblock]
    rfl

theorem printsValue_object {fmt : Bool} {depth : Nat} {fields : Fields D} {child next : Node D}
    (htype : fields.type % 256 = 6) (hchild : PrintsMembers m fresh fmt (depth + 1) child) :
    PrintsValue m fresh fmt depth (.item fields child next) := by
  have htext : nodeText fmt depth (.item fields child next) =
    objectText fmt depth (nodeMembers fmt (depth + 1) child) := by
    simp only [nodeText, nodeTexts, List.headD_cons, itemText, htype, nodeMembers]
  have hprint : printValue m fresh (.item fields child next) depth fmt = printObject m fresh child depth fmt := by
    simp only [printValue, htype]
  intro hfits
  rw [htext] at hfits ⊢
  rw [hprint]
  cases child with
  | NULL => exact ⟨_, rfl, by rw [printObject, emptyObject_text fresh fmt depth hfits]; rfl⟩
  | item f c n =>
    have hne : nodeMembers fmt (depth + 1) (.item f c n) ≠ [] := by simp [nodeMembers, nodeNames, nodeTexts]
    obtain ⟨hlen, hroom, hall⟩ := objectLen_fits hne hfits
    obtain ⟨members, hmembers, hcollect⟩ := hchild _ hall hlen
    have hstart := le_objectLen fmt (depth + 1) (nodeMembers fmt (depth + 1) (.item f c n))
      (7 + (if fmt then depth + 1 else 0))
    have hno : ¬ intMax < 7 + (if fmt then depth + 1 else 0) := by omega
    rw [← hmembers] at hroom hcollect ⊢
    have hblock := objectBlock_text fresh fmt depth (by rintro rfl; exact hne hmembers.symm) hroom
    refine ⟨⟨_, objectText_noNul fmt depth members⟩, rfl, ?_⟩
    simp only [printObject, hno, if_false, hcollect, Option.bind_eq_bind, Option.bind_some, hblock]
    rfl

theorem printsEntries_item {fmt : Bool} {depth : Nat} {fields : Fields D} {child next : Node D}
    (hitem : PrintsValue m fresh fmt depth (.item fields child next)) (hnext : PrintsEntries m fresh fmt depth next) :
    PrintsEntries m fresh fmt depth (.item fields child next) := by
  intro len hall hlen
  obtain ⟨ret, hret, hprint⟩ := hitem (hall _ List.mem_cons_self)
  have hcons : nodeTexts fmt depth (.item fields child next) = ret.val :: nodeTexts fmt depth next := by rw [hret]; rfl
  rw [hcons] at hall hlen ⊢
  rw [arrayLen] at hlen ⊢
  have hle := le_arrayLen fmt (nodeTexts fmt depth next) (len + ret.val.length + 2 + if fmt then 1 else 0)
  obtain ⟨entries, hentries, hrest⟩ := hnext _ (fun t ht => hall t (List.mem_cons_of_mem _ ht)) hlen
  have hno : ¬ intMax < len + ret.val.length + 2 + (if fmt then 1 else 0) := by omega
  refine ⟨ret :: entries, by rw [List.map_cons, hentries], ?_⟩
  simp only [arrayEntries, hprint, Option.bind_eq_bind, Option.bind_some, hno, if_false, hrest]
  rfl

theorem printsMembers_item {fmt : Bool} {depth : Nat} {fields : Fields D} {child next : Node D}
    (hitem : PrintsValue m fresh fmt depth (.item fields child next)) (hnext : PrintsMembers m fresh fmt depth next) :
    PrintsMembers m fresh fmt depth (.item fields child next) := by
  intro len hall hlen
  obtain ⟨hname, htext⟩ := hall _ List.mem_cons_self
  obtain ⟨str, hstr, hprintName⟩ := printStringPtr_text fresh hname
  obtain ⟨ret, hret, hprint⟩ := hitem htext
  have hcons : nodeMembers fmt depth (.item fields child next) =
      (str.val, ret.val) :: nodeMembers fmt depth next := by rw [hstr, hret]; rfl
  rw [hcons] at hall hlen ⊢
  rw [objectLen] at hlen ⊢
  have hle := le_objectLen fmt depth (nodeMembers fmt depth next)
    (len + ret.val.length + str.val.length + 2 + if fmt then 2 + depth else 0)
  obtain ⟨members, hmembers, hrest⟩ := hnext _ (fun p hp => hall p (List.mem_cons_of_mem _ hp)) hlen
  have hno : ¬ intMax < len + ret.val.length + str.val.length + 2 + (if fmt then 2 + depth else 0) := by omega
  refine ⟨(str, ret) :: members, by rw [List.map_cons, hmembers], ?_⟩
  simp only [objectEntries, hprintName, hprint, Option.bind_eq_bind, Option.bind_some, hno, if_false, hrest]
  rfl

/-- An item without children. -/
theorem printsValue_leaf (hm : m.Exact) {fmt : Bool} {depth : Nat} {fields : Fields D} (hitem : SoundItem m fields)
    (hleaf : fields.type % 256 ≤ 4) (child next : Node D) :
      PrintsValue m fresh fmt depth (.item fields child next) := by
  have hword : ∀ s : CString, nodeText fmt depth (.item fields child next) = s.val →
      printValue m fresh (.item fields child next) depth fmt = some (some s) →
      PrintsValue m fresh fmt depth (.item fields child next) :=
    fun s htext hprint _ => ⟨s, htext.symm, hprint⟩
  interval_cases hk : fields.type % 256
  · refine hword falseWord ?_ ?_
    · simp only [nodeText, nodeTexts, List.headD_cons, itemText, hk]
    · simp only [printValue, hk, cjsonStrdup_self, Option.map_some]
  · refine hword trueWord ?_ ?_
    · simp only [nodeText, nodeTexts, List.headD_cons, itemText, hk]
    · simp only [printValue, hk, cjsonStrdup_self, Option.map_some]
  · refine hword nullWord ?_ ?_
    · simp only [nodeText, nodeTexts, List.headD_cons, itemText, hk]
    · simp only [printValue, hk, cjsonStrdup_self, Option.map_some]
  · refine hword ⟨printInt fields.valueint, printInt_noNul _⟩ ?_ ?_
    · simp only [nodeText, nodeTexts, List.headD_cons, itemText, hk]
    · simp only [printValue, hk, hitem.double hk, printNumber_int hm fresh (hitem.low hk) (hitem.high hk)]
      rfl
  · intro hfits
    have htext : nodeText fmt depth (.item fields child next) = stringText fields.valuestring := by
      simp only [nodeText, nodeTexts, List.headD_cons, itemText, hk]
    rw [htext] at hfits ⊢
    obtain ⟨s, hs, hprint⟩ := printStringPtr_text fresh hfits
    exact ⟨s, hs, by simp only [printValue, hk, hprint, Option.map_some]⟩

theorem printsValue_item (hm : m.Exact) {fmt : Bool} {depth : Nat} {fields : Fields D} {child : Node D}
    (hitem : SoundItem m fields) (harray : fields.type % 256 = 5 → PrintsEntries m fresh fmt (depth + 1) child)
    (hobject : fields.type % 256 = 6 → PrintsMembers m fresh fmt (depth + 1) child) (next : Node D) :
    PrintsValue m fresh fmt depth (.item fields child next) := by
  have htype := hitem.type
  rcases (by omega : fields.type % 256 ≤ 4 ∨ fields.type % 256 = 5 ∨ fields.type % 256 = 6) with hk | hk | hk
  · exact printsValue_leaf hm hitem hk child next
  · exact printsValue_array hk (harray hk)
  · exact printsValue_object hk (hobject hk)

/-- By induction on the links: the children of an item, then the items behind it. -/
theorem prints_chain (hm : m.Exact) (fmt : Bool) (child : Node D) {named : Bool} (hs : Sound m named child)
    (depth : Nat) :
    PrintsEntries m fresh fmt depth child ∧ PrintsMembers m fresh fmt depth child := by
  induction child generalizing named depth with
  | NULL =>
    refine ⟨fun len _ _ => ⟨[], rfl, ?_⟩, fun len _ _ => ⟨[], rfl, ?_⟩⟩
    · rw [arrayEntries]
      rfl
    · rw [objectEntries]
      rfl
  | item fields child next ihchild ihnext =>
    obtain ⟨-, hitem, harray, hobject, hnext⟩ := hs
    have hvalue : PrintsValue m fresh fmt depth (.item fields child next) :=
      printsValue_item hm hitem (fun hk => (ihchild (harray hk) (depth + 1)).1)
        (fun hk => (ihchild (hobject hk) (depth + 1)).2) next
    obtain ⟨hentries, hmembers⟩ := ihnext hnext depth
    exact ⟨printsEntries_item hvalue hentries, printsMembers_item hvalue hmembers⟩

variable (fresh) in
/-- A sound item is printed as its text, whatever was in the memory of the blocks and whatever is behind the item. -/
theorem printValue_text (hm : m.Exact) (fmt : Bool) (depth : Nat) {fields : Fields D} {child : Node D}
    (hs : Sound m false (.item fields child .NULL)) (next : Node D)
    (hfits : Fits (nodeText fmt depth (.item fields child next))) :
    ∃ s : CString, s.val = nodeText fmt depth (.item fields child next) ∧
      printValue m fresh (.item fields child next) depth fmt = some (some s) := by
  obtain ⟨-, hitem, harray, hobject, -⟩ := hs
  exact printsValue_item hm hitem (fun hk => (prints_chain hm fmt child (harray hk) (depth + 1)).1)
    (fun hk => (prints_chain hm fmt child (hobject hk) (depth + 1)).2) next hfits

end Print

end Cjson
end Xlibc
