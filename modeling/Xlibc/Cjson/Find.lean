import Xlibc.Base.Compare
import Xlibc.Base.Siblings

/-!
# Xlibc.Cjson.Find

`cJSON_Find` of `cJSON.c`, over the nodes of a store. It looks at a node, then at the siblings after
it with all that is below them, and last at the node's own children.

* `cjsonFind_reach` : the search returns, and covers what both links reach.
* `cjson_find_scope` : that is the trees of the node and of the siblings after it.
-/

namespace Xlibc
namespace Cjson

open Siblings

/-! ## The code -/

/-- The links of a `cJSON` and its name, which the items of an array do not have. -/
structure CJSON where
  next : Option Nat
  child : Option Nat
  string : Option CString

/-- `cJSON_strcasecmp` -/
def cjsonStrcasecmp (s1 s2 : Option CString) : Int :=
  match s1, s2 with
  | none, none => 0
  | none, some _ => 1
  | some _, none => 1
  | some s, some t => strcasecmp s.val t.val

/-- `cJSON_Find`, to a depth of at most `fuel` calls: the node found (`none` is `NULL`). -/
def cjsonFind (m : Store CJSON) (name : Option CString) : Nat → Option Nat → Option (Option Nat)
  | 0, _ => none
  | _ + 1, none => some none
  | fuel + 1, some root => do
    let node ← m.lookup root
    if cjsonStrcasecmp node.string name = 0 then some (some root)
    else
      match ← cjsonFind m name fuel node.next with
      | some find => some (some find)
      | none => cjsonFind m name fuel node.child

/-! ## The search -/

def Named (m : Store CJSON) (name : CString) (a : Nat) : Prop :=
  ∃ node s, m.lookup a = some node ∧ node.string = some s ∧ s.val.map tolower = name.val.map tolower

abbrev Tree (m : Store CJSON) (p : Option Nat) : Prop := Siblings.Linked CJSON.next CJSON.child m p

abbrev Reached (m : Store CJSON) (a b : Nat) : Prop := Reach CJSON.next CJSON.child m a b

abbrev Sibling (m : Store CJSON) (a b : Nat) : Prop := After CJSON.next m a b

abbrev Descendant (m : Store CJSON) (a b : Nat) : Prop := Within CJSON.next CJSON.child m a b

def Answer (m : Store CJSON) (name : CString) (p : Option Nat) (r : Option Nat) : Prop :=
  (∀ b, r = some b → (∃ a, p = some a ∧ Reached m a b) ∧ Named m name b) ∧
    (r = none → ∀ a b, p = some a → Reached m a b → ¬ Named m name b)

theorem cjsonStrcasecmp_eq_zero {m : Store CJSON} {a : Nat} {node : CJSON}
    (ha : m.lookup a = some node) (name : CString) :
    cjsonStrcasecmp node.string (some name) = 0 ↔ Named m name a := by
  cases hs : node.string with
  | none =>
    constructor
    · intro h
      cases h
    · rintro ⟨n, s, hn, hns, -⟩
      obtain rfl : node = n := Option.some.inj (ha.symm.trans hn)
      rw [hs] at hns
      cases hns
  | some s =>
    rw [cjsonStrcasecmp, strcasecmp_eq_zero s.property name.property]
    constructor
    · exact fun h => ⟨node, s, ha, hs, h⟩
    · rintro ⟨n, t, hn, ht, h⟩
      obtain rfl : node = n := Option.some.inj (ha.symm.trans hn)
      obtain rfl : s = t := Option.some.inj (hs.symm.trans ht)
      exact h

theorem answer_null (m : Store CJSON) (name : CString) : Answer m name none none := by
  constructor
  · intro b hb
    cases hb
  · intro _ a b ha
    cases ha

theorem answer_here {m : Store CJSON} {name : CString} {a : Nat} (h : Named m name a) :
    Answer m name (some a) (some a) := by
  constructor
  · rintro b ⟨⟩
    exact ⟨⟨a, rfl, .refl⟩, h⟩
  · intro hnone
    cases hnone

section Node

variable {m : Store CJSON} {name : CString} {a : Nat} {node : CJSON} (ha : m.lookup a = some node)
include ha

/-- What the siblings after a node answer is the node's answer. -/
theorem answer_next {b : Nat} (h : Answer m name node.next (some b)) :
    Answer m name (some a) (some b) := by
  obtain ⟨⟨c, hc, hreach⟩, hb⟩ := h.1 b rfl
  constructor
  · rintro _ ⟨⟩
    exact ⟨⟨a, rfl, (reach_of_lookup ha).mpr (.inr (.inl ⟨c, hc, hreach⟩))⟩, hb⟩
  · intro hnone
    cases hnone

/-- Without an answer there, it is the answer of the children. -/
theorem answer_child {r : Option Nat} (hne : ¬ Named m name a) (hnext : Answer m name node.next none)
    (h : Answer m name node.child r) : Answer m name (some a) r := by
  constructor
  · intro b hb
    obtain ⟨⟨c, hc, hreach⟩, hnamed⟩ := h.1 b hb
    exact ⟨⟨a, rfl, (reach_of_lookup ha).mpr (.inr (.inr ⟨c, hc, hreach⟩))⟩, hnamed⟩
  · rintro hr _ b ⟨⟩ hreach
    rcases (reach_of_lookup ha).mp hreach with rfl | ⟨c, hc, hreach⟩ | ⟨c, hc, hreach⟩
    · exact hne
    · exact hnext.2 rfl c b hc hreach
    · exact h.2 hr c b hc hreach

end Node

/-- A search that has returned does not change with a deeper bound. -/
def Finds (m : Store CJSON) (name : CString) (p r : Option Nat) : Prop :=
  ∃ N, ∀ fuel, N ≤ fuel → cjsonFind m (some name) fuel p = some r

/-- By induction on the links: the siblings after a node, then its children. -/
theorem cjsonFind_reach {m : Store CJSON} {p : Option Nat} (h : Tree m p) (name : CString) :
    ∃ r, Finds m name p r ∧ Answer m name p r := by
  induction h with
  | null =>
    refine ⟨none, ⟨1, fun fuel hfuel => ?_⟩, answer_null m name⟩
    obtain ⟨k, rfl⟩ := Nat.exists_eq_add_of_le' hfuel
    rfl
  | @node a node ha _ _ ihnext ihchild =>
    obtain ⟨rn, ⟨N, hN⟩, hrn⟩ := ihnext
    obtain ⟨rc, ⟨C, hC⟩, hrc⟩ := ihchild
    have hstep : ∀ fuel, cjsonFind m (some name) (fuel + 1) (some a) =
        if cjsonStrcasecmp node.string (some name) = 0 then some (some a)
        else (cjsonFind m (some name) fuel node.next).bind fun r =>
          match r with
          | some find => some (some find)
          | none => cjsonFind m (some name) fuel node.child := by
      intro fuel
      rw [cjsonFind, ha]
      rfl
    by_cases hnamed : Named m name a
    · refine ⟨some a, ⟨1, fun fuel hfuel => ?_⟩, answer_here hnamed⟩
      obtain ⟨k, rfl⟩ := Nat.exists_eq_add_of_le' hfuel
      rw [hstep, if_pos ((cjsonStrcasecmp_eq_zero ha name).mpr hnamed)]
    · have hne := (cjsonStrcasecmp_eq_zero ha name).not.mpr hnamed
      cases rn with
      | some b =>
        refine ⟨some b, ⟨N + 1, fun fuel hfuel => ?_⟩, answer_next ha hrn⟩
        obtain ⟨k, rfl⟩ := Nat.exists_eq_add_of_le' (show 1 ≤ fuel by omega)
        rw [hstep, if_neg hne, hN k (by omega)]
        rfl
      | none =>
        refine ⟨rc, ⟨max N C + 1, fun fuel hfuel => ?_⟩, answer_child ha hnamed hrn hrc⟩
        obtain ⟨k, rfl⟩ := Nat.exists_eq_add_of_le' (show 1 ≤ fuel by omega)
        rw [hstep, if_neg hne, hN k (by omega)]
        exact hC k (by omega)

/-- A node, a sibling after it, or a descendant of one of these. -/
def InScope (m : Store CJSON) (a b : Nat) : Prop := ∃ s, Sibling m a s ∧ Descendant m s b

/-- **The scope of a search.** `cJSON_Find` returns, and finds a node if and only if one in its scope has
the name. For a node without a sibling after it, as the root of a document is, the scope is its own
tree. -/
theorem cjson_find_scope {m : Store CJSON} {document root : Nat} (h : Tree m (some document))
    (hroot : Descendant m document root) (name : CString) :
    (∃ find, Finds m name (some root) find ∧
      (find.isSome ↔ ∃ b, InScope m root b ∧ Named m name b) ∧
      ∀ b, find = some b → InScope m root b ∧ Named m name b) ∧
    ∀ node, m.lookup root = some node → node.next = none →
      ∀ b, InScope m root b ↔ Descendant m root b := by
  constructor
  · obtain ⟨find, hfinds, hfound, hnone⟩ := cjsonFind_reach (h.reach hroot.reach) name
    have hsome : ∀ b, find = some b → InScope m root b ∧ Named m name b := by
      intro b hb
      obtain ⟨⟨a, ⟨⟩, hreach⟩, hnamed⟩ := hfound b hb
      exact ⟨reach_iff.mp hreach, hnamed⟩
    refine ⟨find, hfinds, ⟨fun hb => ?_, ?_⟩, hsome⟩
    · obtain ⟨b, hb⟩ := Option.isSome_iff_exists.mp hb
      exact ⟨b, hsome b hb⟩
    · rintro ⟨b, hscope, hnamed⟩
      refine Option.isSome_iff_ne_none.mpr fun hempty => ?_
      exact hnone hempty root b rfl (reach_iff.mpr hscope) hnamed
  · intro node hnode hlast b
    exact ⟨fun hb => within_of_reach hnode hlast (reach_iff.mpr hb), fun hb => ⟨root, .refl, hb⟩⟩

def twoMembers : Store CJSON :=
  ((AList.singleton 2 ⟨none, none, some ⟨['y'.toUInt8], by decide⟩⟩).insert 1
    ⟨some 2, none, some ⟨['x'.toUInt8], by decide⟩⟩).insert 0 ⟨none, some 1, none⟩

theorem twoMembers_tree : Tree twoMembers (some 0) := by
  have h2 : Tree twoMembers (some 2) := .node rfl .null .null
  have h1 : Tree twoMembers (some 1) := .node rfl h2 .null
  exact .node rfl .null h1

theorem twoMembers_first : Descendant twoMembers 0 1 := .single ⟨_, 1, rfl, rfl, .refl⟩

def upperY : CString := ⟨['Y'.toUInt8], by decide⟩

theorem cjson_find_scope_member : ∃ find, Finds twoMembers upperY (some 1) find ∧
    (find.isSome ↔ ∃ b, InScope twoMembers 1 b ∧ Named twoMembers upperY b) ∧
    ∀ b, find = some b → InScope twoMembers 1 b ∧ Named twoMembers upperY b :=
  (cjson_find_scope twoMembers_tree twoMembers_first upperY).1

/-- A search from the first member for the second one's name leaves the tree it started from. -/
theorem cjson_find_leaves_tree : ¬ ∀ (m : Store CJSON) (document root : Nat) (name : CString),
    Tree m (some document) → Descendant m document root →
      ∃ find, Finds m name (some root) find ∧
        (find.isSome ↔ ∃ b, Descendant m root b ∧ Named m name b) ∧
        ∀ b, find = some b → Descendant m root b := by
  intro h
  obtain ⟨find, ⟨N, hN⟩, -, hfound⟩ := h twoMembers 0 1 upperY twoMembers_tree twoMembers_first
  have hrun : cjsonFind twoMembers (some upperY) (N + 2) (some 1) = some (some 2) := rfl
  rw [hN (N + 2) (by omega)] at hrun
  have hwithin := hfound 2 (Option.some.inj hrun)
  -- the first member has no children
  rcases hwithin.cases_head with heq | ⟨c, ⟨node, d, hnode, hchild, -⟩, -⟩
  · exact absurd heq (by decide)
  · cases hnode
    cases hchild

end Cjson
end Xlibc
