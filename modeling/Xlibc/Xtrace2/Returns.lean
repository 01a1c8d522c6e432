import Xlibc.Xhash.Ownership
import Xlibc.Xtrace2.Tracker

/-!
# Xlibc.Xtrace2.Returns

Calls of the tracker that return. Nothing is asked of the names or of how many addresses a call site
holds: a name that fills its array and a count that wraps leave a call without a result, and so does a
search past `INT_MAX`, unless it ends before.

* `insert_returns` : an insertion that returns adds its record.
* `remove_returns` : a removal that returns has taken the record of the address out, or there was none.
* `held` : the records in the table, which are those that the tracker represents.
-/

namespace Xlibc
namespace Xtrace2

open Xhash

section Returns

variable {t t' : Tracker} {R : List Record} {node : AllocNode} {a : Alloc} {addr new bucket : Nat}

/-! ## alloc_node_remove2 -/

theorem scanAddr_some (h : Sound node) {r : Option Nat} (hr : scanAddr node addr = some r) :
    r = (nodePairs node).findIdx? fun e => e.1 == addr := by
  rw [scanAddr, ← h.length] at hr
  have hlist := findInt_list_some (q := fun e : Nat × Nat => e.1 == addr) (nodePairs node) 0
    (fun j e he => by
      obtain ⟨as, ha, hj⟩ := h.read he
      simp [ha, hj]) hr
  simpa using hlist

/-- What the callback of the search answers for a node. -/
theorem allocNodeFindByaddr_some {nodes : Store AllocNode} {p : Nat} {r : Option Nat}
    (hp : nodes.lookup p = some node) (h : Sound node) (hr : allocNodeFindByaddr nodes addr p = some r) :
    scanAddr node addr = some ((nodePairs node).findIdx? fun e => e.1 == addr) ∧
      (r = some p ∧ addr ∈ (nodePairs node).map Prod.fst ∨
        r = none ∧ addr ∉ (nodePairs node).map Prod.fst) := by
  have hpos : node.count > 0 := h.pos
  rw [allocNodeFindByaddr, hp, Option.bind_eq_bind, Option.bind_some, if_pos hpos] at hr
  obtain ⟨found, hscan, hr⟩ := Option.bind_eq_some_iff.mp hr
  have hfound := scanAddr_some h hscan
  rw [← hfound]
  refine ⟨hscan, ?_⟩
  cases hr
  by_cases hmem : addr ∈ (nodePairs node).map Prod.fst
  · obtain ⟨i, hi⟩ := findIdx_addr hmem
    rw [hfound, hi]
    exact .inl ⟨rfl, hmem⟩
  · rw [hfound, findIdx_no_addr hmem]
    exact .inr ⟨rfl, hmem⟩

theorem remove_returns (h : Represents t R) {ret : Int} (hr : allocNodeRemove2 t addr = some (ret, t')) :
    (addr ∉ (R.map fun r => r.2.1) ∧ ret = -1 ∧ t' = t) ∨
    (addr ∈ (R.map fun r => r.2.1) ∧ ret = 0 ∧ Represents t' (without R addr)) := by
  obtain ⟨cs, hi, hR, hnd⟩ := h
  obtain ⟨found, hfind, -⟩ := Option.bind_eq_some_iff.mp hr
  have hfirst : firstAnswer (allocNodeFindByaddr t.nodes addr) (stored cs) = some found := by
    rw [← hashFind_eq _ hi.table (by rw [hi.size]; decide)]
    exact hfind
  rcases firstAnswer_some hfirst with ⟨rfl, hall⟩ | ⟨q, hq, v, rfl, hv⟩
  · refine .inl ⟨?_, ?_⟩
    · intro hmem
      obtain ⟨p, hp, node, hnode, haddr⟩ := (hi.mem_addr hR).mp hmem
      obtain ⟨n, hn, hs⟩ := hi.sound p hp
      obtain rfl : node = n := Option.some.inj (hnode.symm.trans hn)
      rcases (allocNodeFindByaddr_some hnode hs (hall p hp)).2 with ⟨heq, -⟩ | ⟨-, hno⟩
      · cases heq
      · exact hno haddr
    · rw [allocNodeRemove2, hfind] at hr
      cases hr
      exact ⟨rfl, rfl⟩
  · obtain ⟨node, hnode, hs⟩ := hi.sound q hq
    obtain ⟨hscan, ⟨heq, haddr⟩ | ⟨heq, -⟩⟩ := allocNodeFindByaddr_some hnode hs hv
    · obtain rfl : v = q := Option.some.inj heq
      obtain ⟨t'', hrem, hrep⟩ := remove_found hi hR hnd hq hnode hscan haddr hfind
      rw [hrem] at hr
      cases hr
      exact .inr ⟨(hi.mem_addr hR).mpr ⟨_, hq, node, hnode, haddr⟩, rfl, hrep⟩
    · cases heq

/-! ## alloc_node_insert2 -/

/-- A name that fills its array leaves a node without a call site. -/
theorem nodeSite_unnamed (hno : ¬ NamesFit a) : nodeSite (newNode a) = none := by
  rw [NamesFit, not_and_or] at hno
  rcases hno with hno | hno
  · simp only [not_forall] at hno
    obtain ⟨f, hf, hlen⟩ := hno
    have hfile : cstr (newNode a).file = none := by
      have hcopy : (newNode a).file = strncpy (filenameGet f.val) 64 := by
        rw [newNode, allocNodeNew, Option.mem_def.mp hf]
        rfl
      rw [hcopy]
      exact cstr_strncpy_full (zero_notMem_rindexAfter f.property) (Nat.le_of_not_lt hlen)
    simp [nodeSite, hfile]
  · simp only [not_forall] at hno
    obtain ⟨f, hf, hlen⟩ := hno
    have hfunc : cstr (newNode a).func = none := by
      have hcopy : (newNode a).func = strncpy f.val 32 := by
        rw [newNode, allocNodeNew, Option.mem_def.mp hf]
        rfl
      rw [hcopy]
      exact cstr_strncpy_full f.property (Nat.le_of_not_lt hlen)
    simp [nodeSite, hfunc]

/-- The callbacks read past the end of such a node. -/
theorem callbacks_unnamed (hno : nodeSite node = none) :
    allocNodeHashKey node = none ∧ ∀ n, allocNodeHashCmpKey n node = none := by
  cases hfile : cstr node.file with
  | none => simp [allocNodeHashKey, allocNodeHashCmpKey, hfile]
  | some file =>
    have hfunc : cstr node.func = none := by
      cases hfunc : cstr node.func with
      | none => rfl
      | some func => simp [nodeSite, hfile, hfunc] at hno
    simp [allocNodeHashKey, allocNodeHashCmpKey, hfile, hfunc]

theorem insert_unnamed (h : Represents t R) (hno : ¬ NamesFit a) : allocNodeInsert2 t new bucket a = none := by
  obtain ⟨cs, hi, -, -⟩ := h
  obtain ⟨hkey, hcmp⟩ := callbacks_unnamed (nodeSite_unnamed hno)
  have hlnew : (t.nodes.insert new (newNode a)).lookup new = some (newNode a) := AList.lookup_insert _
  have hsearch := hashFind_eq (allocNodeFind (t.nodes.insert new (newNode a)) new) hi.table
    (by rw [hi.size]; decide)
  rw [newNode] at hlnew hsearch hkey
  by_cases hnil : stored cs = []
  · rw [hnil, firstAnswer] at hsearch
    simp [allocNodeInsert2, hsearch, hashSet, callbacks, hlnew, hkey]
  · rw [firstAnswer_fault hnil] at hsearch
    · simp [allocNodeInsert2, hsearch]
    · intro p hp
      rw [newNode] at hcmp
      cases hlook : (t.nodes.insert new (allocNodeNew a.file a.func a.line a.addr a.size a.atype)).lookup p with
      | none => simp [allocNodeFind, hlook]
      | some n => simp [allocNodeFind, hlook, hlnew, hcmp]

/-- A count of `2^32` wraps to 0: a block of no bytes is `NULL`, and the assertion fails. -/
theorem insert_full (h : Represents t R) (hnames : NamesFit a) (hnew : t.nodes.lookup new = none)
    (hfull : (R.countP fun r => r.1 = allocSite a) + 1 = 2 ^ 32) : allocNodeInsert2 t new bucket a = none := by
  have hcount : ∀ p node, t.nodes.lookup p = some node → nodeSite node = some (allocSite a) →
      node.count = R.countP fun r => r.1 = allocSite a := fun p node hnode hsite => h.count_eq hnode hsite
  obtain ⟨cs, hi, hR, -⟩ := h
  have he := hi.entered hnames hnew
  have hfind := hi.find_site hnames he
  cases hfs : (stored cs).findSome? fun p =>
      if siteAt (t.nodes.insert new (newNode a)) p = some (allocSite a) then some p else none with
  | none =>
    -- a call site that holds so many addresses has a node
    exfalso
    have hpos : 0 < R.countP fun r => r.1 = allocSite a := by omega
    obtain ⟨r, hr, hx⟩ := List.countP_pos_iff.mp hpos
    obtain ⟨p, hp, node, hnode, hsite, -⟩ := mem_records.mp (hR.mem_iff.mpr hr)
    have hno := List.findSome?_eq_none_iff.mp hfs p hp
    have hat : siteAt (t.nodes.insert new (newNode a)) p = some (allocSite a) := by
      rw [siteAt_congr (he.look p hp), siteAt_of_lookup hnode, hsite, of_decide_eq_true hx]
    simp [hat] at hno
  | some p =>
    rw [hfs] at hfind
    obtain ⟨q, hq, hqp⟩ := List.exists_of_findSome?_eq_some hfs
    have hsite : siteAt (t.nodes.insert new (newNode a)) q = some (allocSite a) := by
      by_contra hne
      simp [hne] at hqp
    obtain rfl : q = p := by simpa [hsite] using hqp
    obtain ⟨node, hnode, -⟩ := hi.sound q hq
    have hlook := (he.look q hq).trans hnode
    have hnsite : nodeSite node = some (allocSite a) := by
      rw [← hsite, siteAt_of_lookup hlook]
    have hzero : u32 (node.count + 1) = 0 := by
      rw [hcount q node hnode hnsite, hfull]
      rfl
    rw [newNode] at hlook hfind
    simp [allocNodeInsert2, hfind, hlook, hzero, growEntry]

/-- No count of a call site has wrapped. -/
def Counted (R : List Record) : Prop := ∀ x, (R.countP fun r => r.1 = x) < 2 ^ 32

theorem Counted.sublist {S : List Record} (h : Counted R) (hs : S.Sublist R) : Counted S :=
  fun x => Nat.lt_of_le_of_lt (hs.countP_le) (h x)

theorem insert_returns {p : Option Nat} (h : Represents t R) (hcount : Counted R)
    (haddr : a.addr ∉ R.map fun r => r.2.1) (hnew : t.nodes.lookup new = none)
    (hbucket : t.hash.buckets.lookup bucket = none)
    (hr : allocNodeInsert2 t new bucket a = some (p, t')) :
    Represents t' (allocRecord a :: R) ∧ Counted (allocRecord a :: R) := by
  have htype : a.atype ≠ .free := by
    intro hfree
    rw [allocNodeInsert2, if_pos hfree] at hr
    cases hr
  have hnames : NamesFit a := by
    by_contra hno
    rw [insert_unnamed h hno] at hr
    cases hr
  have hfit : (R.countP fun r => r.1 = allocSite a) + 1 < 2 ^ 32 := by
    by_contra hge
    have hlt := hcount (allocSite a)
    rw [insert_full h hnames hnew (by omega)] at hr
    cases hr
  obtain ⟨q, t'', hrun, -, hrep⟩ := insert_spec h hnames htype haddr hnew hbucket fun q node hnode hsite => by
    rw [h.count_eq hnode hsite]
    exact hfit
  rw [hrun] at hr
  cases hr
  refine ⟨hrep, fun x => ?_⟩
  rw [List.countP_cons]
  by_cases hx : (allocRecord a).1 = x
  · rw [← hx, decide_eq_true rfl, if_pos rfl]
    exact hfit
  · rw [decide_eq_false hx]
    exact hcount x

/-! ## What the table holds -/

def held (t : Tracker) : List Record := records t.nodes (t.hash.buckets.entries.map fun e => e.2.data)

theorem Represents.held_perm (h : Represents t R) : (held t).Perm R := by
  obtain ⟨cs, hi, hR, -⟩ := h
  exact (hi.table.stored_perm.flatMap_right _).trans hR

end Returns

end Xtrace2
end Xlibc
