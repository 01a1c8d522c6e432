import Xlibc.Cjson.Parse
import Xlibc.Xcharstr.Compare

/-!
# Xlibc.Cjson.RoundTrip

Printing a tree and parsing the text.

* `normal` : what of a tree can be read from its text.
* `spells_text` : the text of a tree, formatted or not, spells its normal form.
* `cjson_roundTrip` : it is parsed to the normal form.
* `parse_print_parse` : the trees from the parser are in normal form.
* `cjsonCmp_eq_zero` : two trees compare equal if and only if their normal forms are the same.
-/

namespace Xlibc
namespace Cjson

/-! ## Normal forms -/

section Normal

variable {D : Type} (m : Doubles D)

def normalFields (named : Bool) (fields : Fields D) : Fields D where
  type := fields.type % 256
  valuestring := if fields.type % 256 = 4 then fields.valuestring else none
  valueint := if fields.type % 256 = 3 then fields.valueint else if fields.type % 256 = 1 then 1 else 0
  valuedouble := if fields.type % 256 = 3 then fields.valuedouble else m.ofInt 0
  string := if named then fields.string else none

/-- A tree with nothing but what is printed. The flag says if the items have names. -/
def normal : Bool → Node D → Node D
  | _, .NULL => .NULL
  | named, .item fields child next =>
    .item (normalFields m named fields)
      (if fields.type % 256 = 5 then normal false child else if fields.type % 256 = 6 then normal true child else .NULL)
      (normal named next)

/-- The children of a normal item. -/
def normalChild (fields : Fields D) (child : Node D) : Node D :=
  if fields.type % 256 = 5 then normal m false child else if fields.type % 256 = 6 then normal m true child else .NULL

@[simp] theorem normal_NULL (named : Bool) : normal m named .NULL = .NULL := rfl

theorem normal_item (named : Bool) (fields : Fields D) (child next : Node D) :
    normal m named (.item fields child next) =
    .item (normalFields m named fields) (normalChild m fields child) (normal m named next) := rfl

end Normal

/-! ## The text spells it -/

section Spell

variable {D : Type} {m : Doubles D}

theorem blank_nil : Blank [] := fun _ h => absurd h List.not_mem_nil

theorem blank_append {ws ws' : List Byte} (h : Blank ws) (h' : Blank ws') : Blank (ws ++ ws') := by
  intro c hc
  rcases List.mem_append.mp hc with hc | hc
  · exact h c hc
  · exact h' c hc

theorem blank_tabs (fmt : Bool) (n : Nat) : Blank (tabs fmt n) := by
  intro c hc
  rw [tabs] at hc
  split at hc
  · rw [List.eq_of_mem_replicate hc]
    decide
  · cases hc

/-- What a formatted text has between its tokens. -/
theorem blank_if (fmt : Bool) {c : Byte} (h : c ≤ 32 ∧ c ≠ 0) : Blank (if fmt then [c] else []) := by
  intro d hd
  cases fmt with
  | false => cases hd
  | true =>
    rw [List.mem_singleton.mp hd]
    exact h

/-- What the children of an item spell in its text. -/
structure SpellsChild (m : Doubles D) (fmt : Bool) (depth : Nat) (fields : Fields D) (child : Node D) : Prop where
  elements : fields.type % 256 = 5 → child ≠ .NULL → ∀ ws ws', Blank ws → Blank ws' →
    Spells m (.elements (normal m false child)) (ws ++ elementsText fmt (nodeTexts fmt depth child) ++ ws')
  members : fields.type % 256 = 6 → child ≠ .NULL → ∀ ws ws', Blank ws → Blank ws' →
    Spells m (.members (normal m true child)) (ws ++ membersText fmt depth (nodeMembers fmt depth child) ++ ws')

theorem spells_item {fmt named : Bool} {depth : Nat} {fields : Fields D} {child : Node D} (hitem : SoundItem m fields)
    (hchild : SpellsChild m fmt (depth + 1) fields child) :
    Spells m (.value (normalFields m named fields) (normalChild m fields child))
      (itemText fmt depth fields (nodeNames child) (nodeTexts fmt (depth + 1) child)) := by
  have htype := hitem.type
  interval_cases hk : fields.type % 256
  · simp only [normalFields, normalChild, itemText, hk]
    exact .false _
  · simp only [normalFields, normalChild, itemText, hk]
    exact .true _
  · simp only [normalFields, normalChild, itemText, hk]
    exact .null _
  · have hdouble := hitem.double hk
    simp only [normalFields, normalChild, itemText, hk, hdouble]
    exact .number _ _ (hitem.low hk) (hitem.high hk)
  · obtain ⟨s, hs⟩ := Option.isSome_iff_exists.mp (hitem.valuestring hk)
    simp only [normalFields, normalChild, itemText, hk, hs, stringText]
    have hspells := Spells.string (m := m) (if named then fields.string else none) (escape s)
    rw [decoded_escape] at hspells
    exact hspells
  · simp only [normalFields, normalChild, itemText, hk, arrayText]
    cases child with
    | NULL => exact .emptyArray _ blank_nil
    | item f c n =>
      have hspells := hchild.elements hk (by simp) [] [] blank_nil blank_nil
      rw [List.nil_append, List.append_nil] at hspells
      exact .array _ hspells
  · have hline := blank_if fmt (show '\n'.toUInt8 ≤ 32 ∧ '\n'.toUInt8 ≠ 0 by decide)
    simp only [normalFields, normalChild, itemText, hk]
    cases child with
    | NULL =>
      have hspells := Spells.emptyObject (m := m) (if named then fields.string else none)
        (blank_append hline (blank_tabs fmt (depth - 1)))
      have htext : objectText fmt depth [] = '{'.toUInt8 :: ((if fmt then ['\n'.toUInt8] else []) ++
          tabs fmt (depth - 1)) ++ ['}'.toUInt8] := by
        simp [objectText, membersText, brace]
      rw [← htext] at hspells
      exact hspells
    | item f c n =>
      have hspells := hchild.members hk (by simp) _ _ hline (blank_tabs fmt depth)
      have htext : objectText fmt depth (nodeMembers fmt (depth + 1) (.item f c n)) =
          '{'.toUInt8 :: ((if fmt then ['\n'.toUInt8] else []) ++
            membersText fmt (depth + 1) (nodeMembers fmt (depth + 1) (.item f c n)) ++ tabs fmt depth) ++
            ['}'.toUInt8] := by
        have hempty : (nodeMembers fmt (depth + 1) (.item f c n)).isEmpty = false := rfl
        simp only [objectText, hempty, brace, List.cons_append, Bool.false_eq_true, if_false]
      have hobject := Spells.object (if named then fields.string else none) hspells
      rw [← htext] at hobject
      exact hobject

/-- By induction on the links: the items of an array, or of an object. -/
theorem spells_chain (fmt : Bool) (child : Node D) {named : Bool} (hs : Sound m named child) (hne : child ≠ .NULL)
    (depth : Nat) {ws ws' : List Byte} (hws : Blank ws) (hws' : Blank ws') :
    (named = false →
      Spells m (.elements (normal m false child)) (ws ++ elementsText fmt (nodeTexts fmt depth child) ++ ws')) ∧
    (named = true →
      Spells m (.members (normal m true child))
        (ws ++ membersText fmt depth (nodeMembers fmt depth child) ++ ws')) := by
  induction child generalizing named depth ws ws' with
  | NULL => exact absurd rfl hne
  | item fields child next ihchild ihnext =>
    obtain ⟨hname, hitem, harray, hobject, hnext⟩ := hs
    have hchild : SpellsChild m fmt (depth + 1) fields child :=
      ⟨fun hk hne ws ws' hws hws' => (ihchild (harray hk) hne (depth + 1) hws hws').1 rfl,
        fun hk hne ws ws' hws hws' => (ihchild (hobject hk) hne (depth + 1) hws hws').2 rfl⟩
    have hblank := blank_if fmt (show ' '.toUInt8 ≤ 32 ∧ ' '.toUInt8 ≠ 0 by decide)
    have htab := blank_if fmt (show '\t'.toUInt8 ≤ 32 ∧ '\t'.toUInt8 ≠ 0 by decide)
    have hline := blank_if fmt (show '\n'.toUInt8 ≤ 32 ∧ '\n'.toUInt8 ≠ 0 by decide)
    rw [normal_item, normal_item]
    constructor
    · rintro rfl
      have hvalue : Spells m (.value (normalFields m false fields) (normalChild m fields child)) _ :=
        spells_item hitem hchild
      cases next with
      | NULL =>
        have hspells := Spells.lastElement hvalue rfl hws hws'
        have htext : elementsText fmt (nodeTexts fmt depth (.item fields child .NULL)) =
            itemText fmt depth fields (nodeNames child) (nodeTexts fmt (depth + 1) child) := by
          simp [nodeTexts, elementsText, arrayComma]
        rw [htext]
        exact hspells
      | item f c n =>
        have hrest := (ihnext hnext (by simp) depth hblank hws').1 rfl
        have hspells := Spells.element hvalue rfl hws blank_nil hrest
        have htext : elementsText fmt (nodeTexts fmt depth (.item fields child (.item f c n))) =
            itemText fmt depth fields (nodeNames child) (nodeTexts fmt (depth + 1) child) ++
              ','.toUInt8 :: ((if fmt then [' '.toUInt8] else []) ++
                elementsText fmt (nodeTexts fmt depth (.item f c n))) := by
          rw [nodeTexts, elementsText]
          simp [nodeTexts, arrayComma]
        rw [htext]
        simpa only [List.append_assoc, List.cons_append, List.append_nil] using hspells
    · rintro rfl
      have hvalue : Spells m (.value (normalFields m true fields) (normalChild m fields child)) _ :=
        spells_item hitem hchild
      obtain ⟨name, hstring⟩ := Option.isSome_iff_exists.mp (hname rfl)
      have hfield : (normalFields m true fields).string = some (decoded (escape name)) := by
        rw [decoded_escape]
        exact hstring
      have hw := blank_append hws (blank_tabs fmt depth)
      have hmembers : nodeMembers fmt depth (.item fields child next) = ((quoted (escape name)).val,
          itemText fmt depth fields (nodeNames child) (nodeTexts fmt (depth + 1) child)) ::
            nodeMembers fmt depth next := by
        simp only [nodeMembers, nodeNames, nodeTexts, hstring, stringText, List.zip_cons_cons]
      rw [hmembers]
      cases next with
      | NULL =>
        have hspells := Spells.lastMember hvalue hfield hw blank_nil htab (blank_append hline hws')
        have hnil : nodeMembers fmt depth (Node.NULL : Node D) = [] := rfl
        rw [hnil, membersText]
        simpa [List.append_assoc, colon, objectComma, membersText] using hspells
      | item f c n =>
        have hrest := (ihnext hnext (by simp) depth hline hws').2 rfl
        have hspells := Spells.member hvalue hfield hw blank_nil htab blank_nil hrest
        have hcons : (nodeMembers fmt depth (.item f c n)).isEmpty = false := rfl
        rw [membersText, hcons]
        simpa [List.append_assoc, colon, objectComma] using hspells

/-- The text of an item spells its normal form. -/
theorem spells_text (fmt : Bool) (depth : Nat) {fields : Fields D} {child : Node D}
    (hs : Sound m false (.item fields child .NULL)) (next : Node D) :
    Spells m (.value (normalFields m false fields) (normalChild m fields child))
      (nodeText fmt depth (.item fields child next)) := by
  obtain ⟨-, hitem, harray, hobject, -⟩ := hs
  exact spells_item hitem
    ⟨fun hk hne ws ws' hws hws' => (spells_chain fmt child (harray hk) hne (depth + 1) hws hws').1 rfl,
      fun hk hne ws ws' hws hws' => (spells_chain fmt child (hobject hk) hne (depth + 1) hws hws').2 rfl⟩

end Spell

/-! ## The round trip -/

section RoundTrip

variable {D : Type} {m : Doubles D} (fresh fresh' : Nat → Byte)

/-- A sound tree is printed, formatted or not, and the text is parsed to its normal form. -/
theorem parse_print (hm : m.Exact) (fmt : Bool) (depth : Nat) {fields : Fields D} {child : Node D}
    (hs : Sound m false (.item fields child .NULL)) (next : Node D)
    (hfits : Fits (nodeText fmt depth (.item fields child next))) (requireNullTerminated : Bool) :
    ∃ text : CString, text.val = nodeText fmt depth (.item fields child next) ∧
      printValue m fresh (.item fields child next) depth fmt = some (some text) ∧
      cjsonParseWithOpts m fresh' text requireNullTerminated =
        some (.ok (normal m false (.item fields child .NULL), [])) := by
  obtain ⟨text, htext, hprint⟩ := printValue_text fresh hm fmt depth hs next hfits
  have hspells := spells_text fmt depth hs next
  have hvalue : text.val = [] ++ nodeText fmt depth (.item fields child next) ++ [] := by
    rw [List.append_nil, List.nil_append, htext]
  have hlen : (nodeText fmt depth (.item fields child next)).length ≤ intMax := by
    unfold Fits at hfits
    omega
  have hparse : parseValue m fresh' _ _ _ = _ :=
    parseValue_spells hm hspells rfl blank_nil (by unfold Stops; decide) hvalue hlen
  refine ⟨text, htext, hprint, ?_⟩
  rw [cjsonParseWithOpts_value hparse List.not_mem_nil]
  cases requireNullTerminated <;> rfl

/-- `cJSON_Parse` gives back the normal form of what has been printed. -/
def RoundTrips (m : Doubles D) (fresh' : Nat → Byte) (printed : Option (Option CString)) (root : Node D) : Prop :=
  ∃ text, printed = some (some text) ∧ cjsonParse m fresh' text = some (normal m false root)

/-- **Printing and parsing.** The text of a sound tree is parsed to its normal form, whether it has been
formatted or not, and whatever was in the memory that the two take. -/
theorem cjson_roundTrip (hm : m.Exact) {fields : Fields D} {child : Node D}
    (hs : Sound m false (.item fields child .NULL)) (next : Node D) :
    (Fits (nodeText true 0 (.item fields child next)) →
      RoundTrips m fresh' (cjsonPrint m fresh (.item fields child next)) (.item fields child .NULL)) ∧
    (Fits (nodeText false 0 (.item fields child next)) →
      RoundTrips m fresh' (cjsonPrintUnformatted m fresh (.item fields child next)) (.item fields child .NULL)) := by
  constructor
  · intro hfits
    obtain ⟨text, -, hprint, hparse⟩ := parse_print fresh fresh' hm true 0 hs next hfits false
    exact ⟨text, hprint, by rw [cjsonParse, hparse]; rfl⟩
  · intro hfits
    obtain ⟨text, -, hprint, hparse⟩ := parse_print fresh fresh' hm false 0 hs next hfits false
    exact ⟨text, hprint, by rw [cjsonParse, hparse]; rfl⟩

/-- An object as it is built by hand: the root has a name, and the number is a reference. -/
def handMade : Fields Int := ⟨6, none, 5, 0, some nullWord⟩

def handMember : Node Int := .item ⟨256 + 3, none, 1, 1, some trueWord⟩ .NULL .NULL

theorem handMade_sound : Sound intDoubles false (.item handMade handMember .NULL) :=
  ⟨by decide, ⟨by decide, by decide, by decide, by decide, by decide⟩, fun hk => absurd hk (by decide),
    fun _ => ⟨by decide, ⟨by decide, by decide, by decide, by decide, by decide⟩, fun _ => trivial,
      fun _ => trivial,
      trivial⟩, trivial⟩

theorem cjson_roundTrip_member :
    RoundTrips intDoubles (fun _ => 9) (cjsonPrint intDoubles (fun _ => 7) (.item handMade handMember .NULL))
      (.item handMade handMember .NULL) :=
  (cjson_roundTrip (fun _ => 7) (fun _ => 9) intDoubles_exact handMade_sound .NULL).1 (by unfold Fits; decide)

end RoundTrip

/-! ## What the parser makes -/

section Built

variable {D : Type} {m : Doubles D} {fresh : Nat → Byte}

theorem parseValue_cases {fuel : Nat} {item fields : Fields D} {child : Node D} {value rest : List Byte}
    (h : parseValue m fresh (fuel + 1) item value = some (.ok ((fields, child), rest))) :
    ((fields = { item with type := 2 } ∨ fields = { item with type := 0 } ∨
        fields = { item with type := 1, valueint := 1 } ∨
        (∃ s, fields = { item with valuestring := some s, type := 4 }) ∨
        ∃ d i, fields = { item with valuedouble := d, valueint := i, type := 3 }) ∧ child = .NULL) ∨
      parseArray m fresh fuel item value = some (.ok ((fields, child), rest)) ∨
      parseObject m fresh fuel item value = some (.ok ((fields, child), rest)) := by
  rw [parseValue] at h
  split_ifs at h
  · cases h
    exact .inl ⟨.inl rfl, rfl⟩
  · cases h
    exact .inl ⟨.inr (.inl rfl), rfl⟩
  · cases h
    exact .inl ⟨.inr (.inr (.inl rfl)), rfl⟩
  · obtain ⟨r, -, h⟩ := Option.bind_eq_some_iff.mp h
    cases r with
    | error ep => cases h
    | ok r =>
      cases h
      exact .inl ⟨.inr (.inr (.inr (.inl ⟨_, rfl⟩))), rfl⟩
  · obtain ⟨r, -, h⟩ := Option.bind_eq_some_iff.mp h
    cases h
    exact .inl ⟨.inr (.inr (.inr (.inr ⟨_, _, rfl⟩))), rfl⟩
  · exact .inr (.inl h)
  · exact .inr (.inr h)
  · cases h

theorem parseArray_cases {fuel : Nat} {item fields : Fields D} {child : Node D} {value rest : List Byte}
    (h : parseArray m fresh (fuel + 1) item value = some (.ok ((fields, child), rest))) :
    fields = { item with type := 5 } ∧
      (child = .NULL ∨ ∃ value' rest', parseElements m fresh fuel value' = some (.ok (child, rest'))) := by
  simp only [parseArray] at h
  split_ifs at h
  · cases h
    exact ⟨rfl, .inl rfl⟩
  · obtain ⟨r, hr, h⟩ := Option.bind_eq_some_iff.mp h
    cases r with
    | error ep => cases h
    | ok r =>
      simp only at h
      split_ifs at h
      · cases h
        exact ⟨rfl, .inr ⟨_, _, hr⟩⟩
      · cases h

theorem parseObject_cases {fuel : Nat} {item fields : Fields D} {child : Node D} {value rest : List Byte}
    (h : parseObject m fresh (fuel + 1) item value = some (.ok ((fields, child), rest))) :
    fields = { item with type := 6 } ∧
      (child = .NULL ∨ ∃ value' rest', parseMembers m fresh fuel value' = some (.ok (child, rest'))) := by
  simp only [parseObject] at h
  split_ifs at h
  · cases h
    exact ⟨rfl, .inl rfl⟩
  · obtain ⟨r, hr, h⟩ := Option.bind_eq_some_iff.mp h
    cases r with
    | error ep => cases h
    | ok r =>
      simp only at h
      split_ifs at h
      · cases h
        exact ⟨rfl, .inr ⟨_, _, hr⟩⟩
      · cases h

theorem parseElements_cases {fuel : Nat} {node : Node D} {value rest : List Byte}
    (h : parseElements m fresh (fuel + 1) value = some (.ok (node, rest))) :
    ∃ fields child value' rest', parseValue m fresh fuel (cjsonNewItem m) value' =
      some (.ok ((fields, child), rest')) ∧
      (node = .item fields child .NULL ∨
        ∃ next value'' rest'', parseElements m fresh fuel value'' = some (.ok (next, rest'')) ∧
          node = .item fields child next) := by
  simp only [parseElements] at h
  obtain ⟨r, hr, h⟩ := Option.bind_eq_some_iff.mp h
  cases r with
  | error ep => cases h
  | ok r =>
    refine ⟨_, _, _, _, hr, ?_⟩
    simp only at h
    split_ifs at h
    · obtain ⟨r', hr', h⟩ := Option.bind_eq_some_iff.mp h
      cases r' with
      | error ep => cases h
      | ok r' =>
        cases h
        exact .inr ⟨_, _, _, hr', rfl⟩
    · cases h
      exact .inl rfl

theorem parseMembers_cases {fuel : Nat} {node : Node D} {value rest : List Byte}
    (h : parseMembers m fresh (fuel + 1) value = some (.ok (node, rest))) :
    ∃ name fields child value' rest',
      parseValue m fresh fuel (readFields m 4 (some name)) value' = some (.ok ((fields, child), rest')) ∧
      (node = .item fields child .NULL ∨
        ∃ next value'' rest'', parseMembers m fresh fuel value'' = some (.ok (next, rest'')) ∧
          node = .item fields child next) := by
  simp only [parseMembers] at h
  obtain ⟨r, -, h⟩ := Option.bind_eq_some_iff.mp h
  cases r with
  | error ep => cases h
  | ok r =>
    simp only at h
    split_ifs at h
    · cases h
    · obtain ⟨r', hr', h⟩ := Option.bind_eq_some_iff.mp h
      cases r' with
      | error ep => cases h
      | ok r' =>
        refine ⟨_, _, _, _, _, hr', ?_⟩
        simp only at h
        split_ifs at h
        · obtain ⟨r'', hr'', h⟩ := Option.bind_eq_some_iff.mp h
          cases r'' with
          | error ep => cases h
          | ok r'' =>
            cases h
            exact .inr ⟨_, _, _, hr'', rfl⟩
        · cases h
          exact .inl rfl

/-- The numbers of a tree are of type `int`. -/
def Ints (m : Doubles D) : Node D → Prop
  | .NULL => True
  | .item fields child next =>
    (fields.type % 256 = 3 →
      -2 ^ 31 ≤ fields.valueint ∧ fields.valueint ≤ intMax ∧ fields.valuedouble = m.ofInt fields.valueint) ∧
      Ints m child ∧ Ints m next

/-- A chain from the parser: it is normal, and sound if its numbers are. -/
def Built (m : Doubles D) (named : Bool) (node : Node D) : Prop :=
  normal m named node = node ∧ (Ints m node → Sound m named node)

/-- An item from the parser, with this name. -/
structure BuiltItem (m : Doubles D) (string : Option CString) (fields : Fields D) (child : Node D) : Prop where
  name : fields.string = string
  item : normalFields m true fields = fields
  children : normalChild m fields child = child
  sound : Ints m (.item fields child .NULL) → SoundItem m fields ∧
    (fields.type % 256 = 5 → Sound m false child) ∧
    (fields.type % 256 = 6 → Sound m true child)

theorem built_NULL (named : Bool) : Built m named (.NULL : Node D) := ⟨rfl, fun _ => trivial⟩

theorem builtItem_array (string : Option CString) {child : Node D} (h : Built m false child) :
    BuiltItem m string (readFields m 5 string) child where
  name := rfl
  item := rfl
  children := h.1
  sound := by
    intro hints
    have htype : (readFields m 5 string).type = 5 := rfl
    exact ⟨⟨by omega, by omega, by omega, by omega, by omega⟩, fun _ => h.2 hints.2.1, by omega⟩

theorem builtItem_object (string : Option CString) {child : Node D} (h : Built m true child) :
    BuiltItem m string (readFields m 6 string) child where
  name := rfl
  item := rfl
  children := h.1
  sound := by
    intro hints
    have htype : (readFields m 6 string).type = 6 := rfl
    exact ⟨⟨by omega, by omega, by omega, by omega, by omega⟩, by omega, fun _ => h.2 hints.2.1⟩

theorem builtItem_leaf {type : Nat} (hle : type ≤ 4) {string : Option CString} {fields : Fields D}
    (htype : fields.type = type) (hname : fields.string = string) (hitem : normalFields m true fields = fields)
    (hstring : type = 4 → fields.valuestring.isSome = true) : BuiltItem m string fields .NULL where
  name := hname
  item := hitem
  children := by rw [normalChild, if_neg (by omega), if_neg (by omega)]
  sound := fun hints =>
    ⟨⟨by omega, fun hk => (hints.1 hk).1, fun hk => (hints.1 hk).2.1, fun hk => (hints.1 hk).2.2,
      fun hk => hstring (by omega)⟩, fun _ => trivial, fun _ => trivial⟩

theorem built_item {named : Bool} {string : Option CString} {fields : Fields D} {child next : Node D}
    (hname : string.isSome = named) (h : BuiltItem m string fields child) (hnext : Built m named next) :
    Built m named (.item fields child next) := by
  constructor
  · have hfields : normalFields m named fields = fields := by
      cases named with
      | true => exact h.item
      | false =>
        have hnone : fields.string = none := by
          rw [h.name]
          exact Option.isNone_iff_eq_none.mp (Option.isSome_eq_false_iff.mp hname)
        have hfalse : normalFields m false fields = { normalFields m true fields with string := none } := rfl
        rw [hfalse, h.item, ← hnone]
    rw [normal_item, hfields, h.children, hnext.1]
  · intro hints
    obtain ⟨hitem, harray, hobject⟩ := h.sound ⟨hints.1, hints.2.1, trivial⟩
    exact ⟨fun hnamed => by rw [h.name, hname, hnamed], hitem, harray, hobject, hnext.2 hints.2.2⟩

/-- What the five functions of the parser make of a text, to a depth of `fuel`. -/
structure Parses (m : Doubles D) (fresh : Nat → Byte) (fuel : Nat) : Prop where
  value : ∀ type string value fields child rest,
    parseValue m fresh fuel (readFields m type string) value = some (.ok ((fields, child), rest)) →
      BuiltItem m string fields child
  array : ∀ type string value fields child rest,
    parseArray m fresh fuel (readFields m type string) value = some (.ok ((fields, child), rest)) →
      BuiltItem m string fields child
  elements : ∀ value child rest, parseElements m fresh fuel value = some (.ok (child, rest)) → Built m false child
  object : ∀ type string value fields child rest,
    parseObject m fresh fuel (readFields m type string) value = some (.ok ((fields, child), rest)) →
      BuiltItem m string fields child
  members : ∀ value child rest, parseMembers m fresh fuel value = some (.ok (child, rest)) → Built m true child

theorem parses (fuel : Nat) : Parses m fresh fuel := by
  induction fuel with
  | zero =>
    refine ⟨?_, ?_, ?_, ?_, ?_⟩
    · intro _ _ _ _ _ _ h
      cases h
    · intro _ _ _ _ _ _ h
      cases h
    · intro _ _ _ h
      cases h
    · intro _ _ _ _ _ _ h
      cases h
    · intro _ _ _ h
      cases h
  | succ fuel ih =>
    refine ⟨?_, ?_, ?_, ?_, ?_⟩
    · intro type string value fields child rest h
      rcases parseValue_cases h with ⟨hleaf, rfl⟩ | h | h
      · rcases hleaf with rfl | rfl | rfl | ⟨s, rfl⟩ | ⟨d, i, rfl⟩
        · exact builtItem_leaf (show 2 ≤ 4 by decide) rfl rfl rfl (by omega)
        · exact builtItem_leaf (show 0 ≤ 4 by decide) rfl rfl rfl (by omega)
        · exact builtItem_leaf (show 1 ≤ 4 by decide) rfl rfl rfl (by omega)
        · exact builtItem_leaf (show 4 ≤ 4 by decide) rfl rfl rfl (fun _ => rfl)
        · exact builtItem_leaf (show 3 ≤ 4 by decide) rfl rfl rfl (by omega)
      · exact ih.array _ _ _ _ _ _ h
      · exact ih.object _ _ _ _ _ _ h
    · intro type string value fields child rest h
      obtain ⟨rfl, rfl | ⟨_, _, h⟩⟩ := parseArray_cases h
      · exact builtItem_array string (built_NULL false)
      · exact builtItem_array string (ih.elements _ _ _ h)
    · intro value child rest h
      obtain ⟨fields, child, _, _, hvalue, rfl | ⟨next, _, _, hnext, rfl⟩⟩ := parseElements_cases h
      · exact built_item rfl (ih.value 0 none _ _ _ _ hvalue) (built_NULL false)
      · exact built_item rfl (ih.value 0 none _ _ _ _ hvalue) (ih.elements _ _ _ hnext)
    · intro type string value fields child rest h
      obtain ⟨rfl, rfl | ⟨_, _, h⟩⟩ := parseObject_cases h
      · exact builtItem_object string (built_NULL true)
      · exact builtItem_object string (ih.members _ _ _ h)
    · intro value child rest h
      obtain ⟨name, fields, child, _, _, hvalue, rfl | ⟨next, _, _, hnext, rfl⟩⟩ := parseMembers_cases h
      · exact built_item rfl (ih.value 4 (some name) _ _ _ _ hvalue) (built_NULL true)
      · exact built_item rfl (ih.value 4 (some name) _ _ _ _ hvalue) (ih.members _ _ _ hnext)

/-- **What is accepted survives.** A tree from the parser whose numbers are of type `int` is printed as a text that is
parsed to the same tree again. -/
theorem parse_print_parse (hm : m.Exact) (fresh' : Nat → Byte) {value : CString} {requireNullTerminated : Bool}
    {root : Node D} {last : List Byte}
    (h : cjsonParseWithOpts m fresh value requireNullTerminated = some (.ok (root, last))) (hints : Ints m root)
    (fmt : Bool) (hfits : Fits (nodeText fmt 0 root)) :
    ∃ text : CString, printValue m fresh root 0 fmt = some (some text) ∧
      cjsonParseWithOpts m fresh' text requireNullTerminated = some (.ok (root, [])) := by
  obtain ⟨r, hr, h⟩ := Option.bind_eq_some_iff.mp h
  cases r with
  | error ep => cases h
  | ok r =>
    obtain ⟨⟨c, child⟩, l⟩ := r
    obtain rfl : root = .item c child .NULL := by
      simp only at h
      split_ifs at h
      · cases h
      · cases h
        rfl
      · cases h
        rfl
    have hitem := (parses (3 * value.val.length + 3)).value 0 none _ _ _ _ hr
    obtain ⟨hnormal, hsound⟩ : Built m false (.item c child .NULL) := built_item rfl hitem (built_NULL false)
    obtain ⟨text, -, hprint, hparse⟩ :=
      parse_print fresh fresh' hm fmt 0 (hsound hints) .NULL hfits requireNullTerminated
    rw [hnormal] at hparse
    exact ⟨text, hprint, hparse⟩

/-- `[1]` as it is parsed. -/
def oneNode : Node Int := .item (readFields intDoubles 5 none)
  (.item { readFields intDoubles 3 none with valueint := 1, valuedouble := 1 } .NULL .NULL) .NULL

theorem parse_print_parse_one : ∃ text : CString,
    printValue intDoubles (fun _ => 7) oneNode 0 true = some (some text) ∧
      cjsonParseWithOpts intDoubles (fun _ => 9) text true = some (.ok (oneNode, [])) :=
  parse_print_parse intDoubles_exact (fun _ => 9)
    (show cjsonParseWithOpts intDoubles (fun _ => 7) oneElement true = some (.ok (oneNode, [])) by rfl)
    ⟨fun hk => absurd hk (by decide), ⟨fun _ => by decide, trivial, trivial⟩, trivial⟩ true
      (by unfold Fits; decide)

end Built

/-! ## Comparing -/

section Cmp

variable {D : Type} (m : Doubles D) (fresh : Nat → Byte) (signed : Bool)

/-- `cJSON_Cmp` -/
def cjsonCmp (a b : Node D) : Option Int := do
  let stra ← cjsonPrint m fresh a
  let strb ← cjsonPrint m fresh b
  some (Xcharstr.xstrcmp signed stra strb)

variable {m}

theorem nodeNames_normal (node : Node D) : nodeNames (normal m true node) = nodeNames node := by
  induction node with
  | NULL => rfl
  | item fields child next _ ih =>
    rw [normal_item, nodeNames, nodeNames, ih]
    rfl

/-- The text is that of the normal form. -/
theorem nodeTexts_normal (fmt : Bool) (node : Node D) (named : Bool) (depth : Nat) :
    nodeTexts fmt depth (normal m named node) = nodeTexts fmt depth node := by
  induction node generalizing named depth with
  | NULL => rfl
  | item fields child next ihchild ihnext =>
    rw [normal_item, nodeTexts, nodeTexts, ihnext]
    congr 1
    have htype : (normalFields m named fields).type % 256 = fields.type % 256 := Nat.mod_mod _ _
    unfold itemText
    rw [htype]
    split
    · rfl
    · rfl
    · rfl
    · next hk => simp only [normalFields, hk, if_true]
    · next hk => simp only [normalFields, hk, if_true]
    · next hk => simp only [normalChild, hk, if_true, ihchild]
    · next hk =>
      have hne : ¬ (6 = 5) := by decide
      simp only [normalChild, hk, hne, if_false, if_true, ihchild, nodeNames_normal]
    · rfl

/-- **Two trees compare equal if and only if their normal forms are the same.** -/
theorem cjsonCmp_eq_zero (hm : m.Exact) {fa fb : Fields D} {ca cb : Node D} (ha : Sound m false (.item fa ca .NULL))
    (hb : Sound m false (.item fb cb .NULL)) (na nb : Node D) (hfa : Fits (nodeText true 0 (.item fa ca na)))
    (hfb : Fits (nodeText true 0 (.item fb cb nb))) :
    ∃ ret, cjsonCmp m fresh signed (.item fa ca na) (.item fb cb nb) = some ret ∧
      (ret = 0 ↔ normal m false (.item fa ca .NULL) = normal m false (.item fb cb .NULL)) := by
  obtain ⟨sa, hsa, hprinta, hparsea⟩ := parse_print fresh fresh hm true 0 ha na hfa true
  obtain ⟨sb, hsb, hprintb, hparseb⟩ := parse_print fresh fresh hm true 0 hb nb hfb true
  refine ⟨strcmp sa.val sb.val, ?_, ?_⟩
  · simp only [cjsonCmp, cjsonPrint, hprinta, hprintb, Option.bind_eq_bind, Option.bind_some]
    rfl
  · rw [strcmp_eq_zero sa.property sb.property]
    constructor
    · intro h
      rw [show sa = sb from Subtype.ext h, hparseb] at hparsea
      simpa only [Option.some.injEq, Except.ok.injEq, Prod.mk.injEq, and_true] using hparsea.symm
    · intro h
      have htexts := congrArg (nodeTexts true 0) h
      rw [nodeTexts_normal, nodeTexts_normal] at htexts
      rw [hsa, hsb]
      exact congrArg (·.headD []) htexts

theorem oneNode_sound : Sound intDoubles false oneNode :=
  ⟨by decide, ⟨by decide, by decide, by decide, by decide, by decide⟩,
    fun _ => ⟨by decide, ⟨by decide, by decide, by decide, by decide, by decide⟩, fun _ => trivial,
      fun _ => trivial,
      trivial⟩, fun hk => absurd hk (by decide), trivial⟩

theorem cjsonCmp_eq_zero_one : ∃ ret,
    cjsonCmp intDoubles (fun _ => 7) true (.item handMade handMember .NULL) oneNode = some ret ∧
      (ret = 0 ↔ normal intDoubles false (.item handMade handMember .NULL) = normal intDoubles false oneNode) :=
  cjsonCmp_eq_zero (fun _ => 7) true intDoubles_exact handMade_sound oneNode_sound .NULL .NULL
    (by unfold Fits; decide) (by unfold Fits; decide)

end Cmp

end Cjson
end Xlibc
