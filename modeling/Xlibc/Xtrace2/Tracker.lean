import Xlibc.Xhash.Walk
import Xlibc.Xtrace2.Node

/-!
# Xlibc.Xtrace2.Tracker

The tracker holds records: call site, address, size. `Inv` ties the table, the nodes and their arrays;
`Represents t R` says that the nodes of `t` hold exactly the records `R`, no address twice.

* `insert_spec`  : `alloc_node_insert2` adds one record.
* `remove_spec`  : `alloc_node_remove2` takes the record of the address out, or reports that there is
  none and changes nothing.
* `remove_overflow` : where the search for an address has no result.
-/

namespace Xlibc
namespace Xtrace2

open Xhash

/-! ## What the callbacks compute -/

def siteAt (nodes : Store AllocNode) (p : Nat) : Option Site := (nodes.lookup p).bind nodeSite

def siteKey (site : Site) : Nat :=
  u32 (addChars (addChars 0 site.1) site.2.1 + u32OfInt site.2.2)

def keyAt (nodes : Store AllocNode) (p : Nat) : Nat := ((siteAt nodes p).map siteKey).getD 0

/-- Nodes of the same call site. -/
def sameSite (nodes : Store AllocNode) : Setoid Nat := Setoid.ker (siteAt nodes)

def Live (nodes : Store AllocNode) (p : Nat) : Prop := ∃ site, siteAt nodes p = some site

theorem Live.node {nodes : Store AllocNode} {p : Nat} {site : Site} (h : siteAt nodes p = some site) :
    ∃ node, nodes.lookup p = some node ∧ nodeSite node = some site :=
  Option.bind_eq_some_iff.mp h

theorem siteAt_congr {nodes nodes' : Store AllocNode} {p : Nat} (h : nodes'.lookup p = nodes.lookup p) :
    siteAt nodes' p = siteAt nodes p := by
  rw [siteAt, siteAt, h]

theorem siteAt_of_lookup {nodes : Store AllocNode} {p : Nat} {node : AllocNode}
    (h : nodes.lookup p = some node) : siteAt nodes p = nodeSite node := by
  rw [siteAt, h]
  rfl

theorem allocNodeHashKey_site {node : AllocNode} {site : Site} (h : nodeSite node = some site) :
    allocNodeHashKey node = some (siteKey site) := by
  obtain ⟨file, hfile, h⟩ := Option.bind_eq_some_iff.mp h
  obtain ⟨func, hfunc, h⟩ := Option.bind_eq_some_iff.mp h
  cases h
  simp [allocNodeHashKey, hfile, hfunc, siteKey]

theorem allocNodeHashCmpKey_site {a b : AllocNode} {x y : Site} (ha : nodeSite a = some x)
    (hb : nodeSite b = some y) : allocNodeHashCmpKey a b = some (if x = y then 1 else 0) := by
  obtain ⟨file, hfile, ha⟩ := Option.bind_eq_some_iff.mp ha
  obtain ⟨func, hfunc, ha⟩ := Option.bind_eq_some_iff.mp ha
  obtain ⟨file', hfile', hb⟩ := Option.bind_eq_some_iff.mp hb
  obtain ⟨func', hfunc', hb⟩ := Option.bind_eq_some_iff.mp hb
  cases ha
  cases hb
  simp [allocNodeHashCmpKey, hfile, hfunc, hfile', hfunc', Prod.ext_iff]

theorem callbacks_reads (nodes : Store AllocNode) :
    Reads (callbacks nodes) (keyAt nodes) (sameSite nodes) (Live nodes) := by
  refine reads_ident ?_ ?_
  · intro p site hsite
    obtain ⟨node, hnode, hns⟩ := Live.node hsite
    simp [callbacks, hnode, allocNodeHashKey_site hns]
  · intro p q x y hx hy
    obtain ⟨a, ha, hax⟩ := Live.node hx
    obtain ⟨b, hb, hby⟩ := Live.node hy
    refine ⟨_, by simp [callbacks, ha, hb, allocNodeHashCmpKey_site hax hby]; rfl, ?_⟩
    by_cases hxy : x = y <;> simp [hxy]

/-! ## Records -/

/-- A recorded allocation: call site, address, size. -/
abbrev Record := Site × Nat × Nat

def nodeRecords (node : AllocNode) : List Record :=
  match nodeSite node with
  | some site => (nodePairs node).map fun e => (site, e.1, e.2)
  | none => []

def recordsAt (nodes : Store AllocNode) (p : Nat) : List Record :=
  match nodes.lookup p with
  | some node => nodeRecords node
  | none => []

def records (nodes : Store AllocNode) (ps : List Nat) : List Record := ps.flatMap (recordsAt nodes)

theorem recordsAt_of_lookup {nodes : Store AllocNode} {p : Nat} {node : AllocNode}
    (h : nodes.lookup p = some node) : recordsAt nodes p = nodeRecords node := by
  rw [recordsAt, h]

theorem records_congr {nodes nodes' : Store AllocNode} {ps : List Nat}
    (h : ∀ p ∈ ps, nodes'.lookup p = nodes.lookup p) : records nodes' ps = records nodes ps := by
  unfold records
  refine List.flatMap_congr fun p hp => ?_
  rw [recordsAt, recordsAt, h p hp]

theorem nodeRecords_of_site {node : AllocNode} {site : Site} (h : nodeSite node = some site) :
    nodeRecords node = (nodePairs node).map fun e => (site, e.1, e.2) := by
  rw [nodeRecords, h]

/-! ## The invariant -/

structure Inv (t : Tracker) (cs : List (List (Cell Nat))) : Prop where
  table : Table (keyAt t.nodes) t.hash cs
  size : t.hash.size = hashTableSize
  sites : (stored cs).Pairwise fun p q => siteAt t.nodes p ≠ siteAt t.nodes q
  nodes : t.nodes.keys.Perm (stored cs)
  sound : ∀ p ∈ stored cs, ∃ node, t.nodes.lookup p = some node ∧ Sound node

def Represents (t : Tracker) (R : List Record) : Prop :=
  ∃ cs, Inv t cs ∧ (records t.nodes (stored cs)).Perm R ∧ (R.map fun r => r.2.1).Nodup

section Tracker

variable {t : Tracker} {cs : List (List (Cell Nat))} {nodes' : Store AllocNode} {R : List Record}

theorem Inv.nodup (hi : Inv t cs) : (stored cs).Nodup := hi.nodes.nodup_iff.mp t.nodes.keys_nodup

theorem Inv.mem_iff (hi : Inv t cs) {p : Nat} : p ∈ stored cs ↔ ∃ node, t.nodes.lookup p = some node := by
  rw [← hi.nodes.mem_iff, ← Option.isSome_iff_exists]
  exact AList.lookup_isSome.symm

theorem Inv.live (hi : Inv t cs) {p : Nat} (hp : p ∈ stored cs) :
    ∃ node site, t.nodes.lookup p = some node ∧ Sound node ∧ nodeSite node = some site ∧
      siteAt t.nodes p = some site := by
  obtain ⟨node, hnode, hs⟩ := hi.sound p hp
  obtain ⟨site, hsite⟩ := hs.site
  exact ⟨node, site, hnode, hs, hsite, by rw [siteAt_of_lookup hnode, hsite]⟩

/-- The table as a map from call sites to nodes, through any store that has the same sites. -/
theorem Inv.holds (hi : Inv t cs) (hsame : ∀ p ∈ stored cs, siteAt nodes' p = siteAt t.nodes p) :
    ∃ m, Holds (keyAt nodes') (sameSite nodes') (Live nodes') t.hash cs m := by
  have ht : Table (keyAt nodes') t.hash cs := hi.table.congr fun p hp => by rw [keyAt, keyAt, hsame p hp]
  refine ht.holds_ident ?_ ?_
  · refine hi.sites.imp_of_mem fun hp hq hne hpq => hne ?_
    rw [← hsame _ hp, ← hsame _ hq]
    exact hpq
  · intro p hp
    obtain ⟨-, site, -, -, -, hsite⟩ := hi.live hp
    exact ⟨site, by rw [hsame p hp, hsite]⟩

/-- Writing one node whose site stays the same. -/
theorem Inv.replace (hi : Inv t cs) {p : Nat} {node node' : AllocNode} (hp : p ∈ stored cs)
    (hnode : t.nodes.lookup p = some node) (hnode' : nodes'.lookup p = some node')
    (hother : ∀ q ∈ stored cs, q ≠ p → nodes'.lookup q = t.nodes.lookup q)
    (hkeys : nodes'.keys.Perm t.nodes.keys) (hsite : nodeSite node' = nodeSite node)
    (hsound : Sound node') :
    Inv { t with nodes := nodes' } cs ∧ ∃ rest,
      (records t.nodes (stored cs)).Perm (nodeRecords node ++ rest) ∧
      (records nodes' (stored cs)).Perm (nodeRecords node' ++ rest) := by
  have hsame : ∀ q ∈ stored cs, siteAt nodes' q = siteAt t.nodes q := by
    intro q hq
    by_cases hqp : q = p
    · subst hqp
      rw [siteAt_of_lookup hnode', siteAt_of_lookup hnode, hsite]
    · exact siteAt_congr (hother q hq hqp)
  refine ⟨⟨hi.table.congr fun q hq => by rw [keyAt, keyAt, hsame q hq], hi.size, ?_,
    hkeys.trans hi.nodes, fun q hq => ?_⟩, ?_⟩
  · refine hi.sites.imp_of_mem fun hq hq' hne => ?_
    show siteAt nodes' _ ≠ siteAt nodes' _
    rw [hsame _ hq, hsame _ hq']
    exact hne
  · by_cases hqp : q = p
    · subst hqp
      exact ⟨node', hnode', hsound⟩
    · obtain ⟨n, hn, hs⟩ := hi.sound q hq
      exact ⟨n, (hother q hq hqp).trans hn, hs⟩
  · obtain ⟨l₁, l₂, hl⟩ := List.append_of_mem hp
    have hperm : (stored cs).Perm (p :: (l₁ ++ l₂)) := by rw [hl]; exact List.perm_middle
    have hnot : ∀ q ∈ l₁ ++ l₂, q ≠ p := by
      have hnd := hperm.nodup_iff.mp hi.nodup
      rintro q hq rfl
      exact (List.nodup_cons.mp hnd).1 hq
    have hrest : records nodes' (l₁ ++ l₂) = records t.nodes (l₁ ++ l₂) :=
      records_congr fun q hq => hother q (hperm.mem_iff.mpr (List.mem_cons_of_mem _ hq)) (hnot q hq)
    refine ⟨records t.nodes (l₁ ++ l₂), ?_, ?_⟩
    · rw [← recordsAt_of_lookup hnode]
      exact hperm.flatMap_right _
    · rw [← recordsAt_of_lookup hnode', ← hrest]
      exact hperm.flatMap_right _

theorem mem_records {nodes : Store AllocNode} {ps : List Nat} {r : Record} :
    r ∈ records nodes ps ↔ ∃ p ∈ ps, ∃ node, nodes.lookup p = some node ∧
      nodeSite node = some r.1 ∧ r.2 ∈ nodePairs node := by
  unfold records
  rw [List.mem_flatMap]
  refine exists_congr fun p => and_congr_right fun _ => ?_
  cases hnode : nodes.lookup p with
  | none => simp [recordsAt, hnode]
  | some node =>
    rw [recordsAt_of_lookup hnode]
    cases hsite : nodeSite node with
    | none => simp [nodeRecords, hsite]
    | some site =>
      rw [nodeRecords_of_site hsite]
      constructor
      · intro hr
        obtain ⟨e, he, rfl⟩ := List.mem_map.mp hr
        exact ⟨node, rfl, hsite, he⟩
      · rintro ⟨node', hn, hs, he⟩
        cases hn
        obtain rfl : site = r.1 := Option.some.inj (hsite.symm.trans hs)
        exact List.mem_map.mpr ⟨r.2, he, rfl⟩

/-- One node holds the records of its call site. -/
theorem Represents.count_eq (h : Represents t R) {p : Nat} {node : AllocNode} {x : Site}
    (hnode : t.nodes.lookup p = some node) (hsite : nodeSite node = some x) :
    node.count = R.countP fun r => r.1 = x := by
  obtain ⟨cs, hi, hR, -⟩ := h
  have hp : p ∈ stored cs := hi.mem_iff.mpr ⟨node, hnode⟩
  obtain ⟨node', hnode', hsound⟩ := hi.sound p hp
  obtain rfl : node = node' := Option.some.inj (hnode.symm.trans hnode')
  obtain ⟨l₁, l₂, hl⟩ := List.append_of_mem hp
  have hperm : (stored cs).Perm (p :: (l₁ ++ l₂)) := by rw [hl]; exact List.perm_middle
  have hsymm : ∀ a b : Nat, siteAt t.nodes a ≠ siteAt t.nodes b → siteAt t.nodes b ≠ siteAt t.nodes a :=
    fun _ _ hne => hne.symm
  have hpw := (hperm.pairwise_iff (fun {a b} => hsymm a b)).mp hi.sites
  have hother : (records t.nodes (l₁ ++ l₂)).countP (fun r => r.1 = x) = 0 := by
    rw [List.countP_eq_zero]
    intro r hr hx
    obtain ⟨q, hq, n, hn, hns, -⟩ := mem_records.mp hr
    refine (List.pairwise_cons.mp hpw).1 q hq ?_
    rw [siteAt_of_lookup hnode, siteAt_of_lookup hn, hsite, hns, of_decide_eq_true hx]
  have hown : (nodeRecords node).countP (fun r => r.1 = x) = node.count := by
    rw [nodeRecords_of_site hsite, List.countP_map, ← hsound.length, List.countP_eq_length]
    intro e _
    simp
  have hall := (hperm.flatMap_right (recordsAt t.nodes)).symm.trans hR
  rw [← hall.countP_eq, List.flatMap_cons, List.countP_append, recordsAt_of_lookup hnode, hown]
  exact (Nat.add_eq_left.mpr hother).symm

theorem Represents.sound (h : Represents t R) {p : Nat} {node : AllocNode}
    (hnode : t.nodes.lookup p = some node) : Sound node := by
  obtain ⟨cs, hi, -, -⟩ := h
  obtain ⟨node', hnode', hs⟩ := hi.sound p (hi.mem_iff.mpr ⟨node, hnode⟩)
  obtain rfl : node = node' := Option.some.inj (hnode.symm.trans hnode')
  exact hs

/-- No two nodes share a call site. -/
theorem Represents.unique (h : Represents t R) {p q : Nat} {a b : AllocNode}
    (ha : t.nodes.lookup p = some a) (hb : t.nodes.lookup q = some b) (hab : nodeSite a = nodeSite b) :
    p = q := by
  obtain ⟨cs, hi, -, -⟩ := h
  by_contra hne
  have hsymm : Std.Symm fun p q => siteAt t.nodes p ≠ siteAt t.nodes q := ⟨fun _ _ hne => hne.symm⟩
  refine hi.sites.forall (hi.mem_iff.mpr ⟨a, ha⟩) (hi.mem_iff.mpr ⟨b, hb⟩) hne ?_
  rw [siteAt_of_lookup ha, siteAt_of_lookup hb, hab]

/-! ## alloc_node_insert2 -/

/-- The record that an insertion makes. -/
def allocRecord (a : Alloc) : Record := (allocSite a, a.addr, u32OfInt a.size)

/-- The store while the table is searched: the new node is in it, and the nodes of the table are as
they were. -/
structure Entered (t : Tracker) (cs : List (List (Cell Nat))) (a : Alloc) (new : Nat)
    (nodes : Store AllocNode) : Prop where
  eq : t.nodes.insert new (newNode a) = nodes
  out : new ∉ stored cs
  look : ∀ p ∈ stored cs, nodes.lookup p = t.nodes.lookup p
  lookNew : nodes.lookup new = some (newNode a)
  site : siteAt nodes new = some (allocSite a)
  keys : nodes.keys = new :: t.nodes.keys

variable {a : Alloc} {new bucket : Nat}

theorem Inv.entered (hi : Inv t cs) (hnames : NamesFit a) (hnew : t.nodes.lookup new = none) :
    Entered t cs a new (t.nodes.insert new (newNode a)) := by
  have hout : new ∉ stored cs := fun hmem => by
    obtain ⟨node, hnode⟩ := hi.mem_iff.mp hmem
    rw [hnew] at hnode
    cases hnode
  have hlnew : (t.nodes.insert new (newNode a)).lookup new = some (newNode a) := AList.lookup_insert _
  refine ⟨rfl, hout, fun p hp => ?_, hlnew, ?_, keys_insert_fresh hnew⟩
  · exact AList.lookup_insert_ne fun heq => hout (heq ▸ hp)
  · rw [siteAt_of_lookup hlnew, nodeSite_newNode hnames]

/-- The search finds the node of the call site, if there is one. -/
theorem Inv.find_site (hi : Inv t cs) (hnames : NamesFit a) (he : Entered t cs a new nodes') :
    hashFind (some (allocNodeFind nodes' new)) t.hash =
      some ((stored cs).findSome? fun p => if siteAt nodes' p = some (allocSite a) then some p else none) := by
  refine hashFind_spec hi.table (by rw [hi.size]; decide) fun p hp => ?_
  obtain ⟨node, site, hnode, -, hsite, -⟩ := hi.live hp
  rw [← he.look p hp] at hnode
  have hcmp := allocNodeHashCmpKey_site hsite (nodeSite_newNode hnames)
  rw [siteAt_of_lookup hnode, hsite]
  by_cases hx : site = allocSite a <;> simp [allocNodeFind, hnode, he.lookNew, hcmp, hx]

/-- No node of this call site: the new one goes into the table. -/
theorem insert_new (hi : Inv t cs) (hR : (records t.nodes (stored cs)).Perm R) (hnames : NamesFit a)
    (htype : a.atype ≠ .free) (he : Entered t cs a new nodes')
    (hbucket : t.hash.buckets.lookup bucket = none)
    (hfs : ((stored cs).findSome? fun p =>
      if siteAt nodes' p = some (allocSite a) then some p else none) = none) :
    ∃ t' cs', allocNodeInsert2 t new bucket a = some (some new, t') ∧
      siteAt t'.nodes new = some (allocSite a) ∧ Inv t' cs' ∧
      (records t'.nodes (stored cs')).Perm (allocRecord a :: R) := by
  have hfind := hi.find_site hnames he
  rw [hfs] at hfind
  obtain ⟨m, hh⟩ := hi.holds fun p hp => siteAt_congr (he.look p hp)
  have hno : ∀ p ∈ stored cs, ¬ sameSite nodes' p new := fun p hp hpn => by
    have hsite : siteAt nodes' p = some (allocSite a) := by rw [← he.site]; exact hpn
    have := List.findSome?_eq_none_iff.mp hfs p hp
    simp [hsite] at this
  obtain ⟨hash', cs', hset, hsize, hh', hperm⟩ := hashSet_new (callbacks_reads nodes') hh ⟨_, he.site⟩
    hbucket (hh.enum.find_none hno)
  refine ⟨{ nodes := nodes', hash := hash' }, cs', ?_, he.site, ⟨hh'.table, hsize.trans hi.size, ?_,
    ?_, ?_⟩, ?_⟩
  · have hnodes := he.eq
    rw [newNode] at hnodes
    simp [allocNodeInsert2, htype, hnodes, hfind, hset]
  · exact hh'.enum.pairwise
  · rw [he.keys]
    exact (hi.nodes.cons new).trans hperm.symm
  · intro p hp
    rcases List.mem_cons.mp (hperm.mem_iff.mp hp) with rfl | hp
    · exact ⟨_, he.lookNew, newNode_sound hnames⟩
    · obtain ⟨node, hnode, hs⟩ := hi.sound p hp
      exact ⟨node, (he.look p hp).trans hnode, hs⟩
  · have hrec : recordsAt nodes' new = [allocRecord a] := by
      rw [recordsAt_of_lookup he.lookNew, nodeRecords_of_site (nodeSite_newNode hnames), nodePairs_newNode]
      rfl
    refine (hperm.flatMap_right _).trans ?_
    rw [List.flatMap_cons, hrec]
    exact ((List.Perm.of_eq (records_congr he.look)).trans hR).cons _

/-- The node `p` of this call site gets one more entry, and the new node is freed. -/
theorem insert_more {p : Nat} (hi : Inv t cs) (hR : (records t.nodes (stored cs)).Perm R)
    (hnames : NamesFit a) (htype : a.atype ≠ .free) (he : Entered t cs a new nodes')
    (hfit : ∀ p node, t.nodes.lookup p = some node → nodeSite node = some (allocSite a) →
      node.count + 1 < 2 ^ 32)
    (hfs : ((stored cs).findSome? fun p =>
      if siteAt nodes' p = some (allocSite a) then some p else none) = some p) :
    ∃ t', allocNodeInsert2 t new bucket a = some (some p, t') ∧
      siteAt t'.nodes p = some (allocSite a) ∧ Inv t' cs ∧
      (records t'.nodes (stored cs)).Perm (allocRecord a :: R) := by
  have hfind := hi.find_site hnames he
  rw [hfs] at hfind
  obtain ⟨q, hp, hpq⟩ := List.exists_of_findSome?_eq_some hfs
  have hsite : siteAt nodes' q = some (allocSite a) := by
    by_contra hne
    simp [hne] at hpq
  obtain rfl : q = p := by simpa [hsite] using hpq
  obtain ⟨node, hnode, hs⟩ := hi.sound q hp
  have hnsite : nodeSite node = some (allocSite a) := by
    rw [← hsite, siteAt_congr (he.look q hp), siteAt_of_lookup hnode]
  obtain ⟨addrs, sizes, hga, hgs, hsound', hpairs⟩ :=
    grow_spec a.addr (u32OfInt a.size) hs (hfit q node hnode hnsite)
  have hcount : u32 (node.count + 1) = node.count + 1 := u32_of_lt (hfit q node hnode hnsite)
  have hqnew : q ≠ new := fun heq => he.out (heq ▸ hp)
  have hlq : nodes'.lookup q = some node := (he.look q hp).trans hnode
  generalize hnode' : { node with count := node.count + 1, addrArray := addrs, sizeArray := sizes } =
    node' at hsound' hpairs
  have hkeys : ((nodes'.insert q node').erase new).keys.Perm t.nodes.keys :=
    keys_erase_perm ((keys_insert_perm hlq).trans (List.Perm.of_eq he.keys))
  have hlq' : ((nodes'.insert q node').erase new).lookup q = some node' := by
    rw [AList.lookup_erase_ne hqnew, AList.lookup_insert]
  obtain ⟨hi', rest, hrec, hrec'⟩ := hi.replace hp hnode hlq'
    (fun r hr hrq => by
      have hrnew : r ≠ new := fun heq => he.out (heq ▸ hr)
      rw [AList.lookup_erase_ne hrnew, AList.lookup_insert_ne hrq, he.look r hr])
    hkeys (by rw [← hnode']; rfl) hsound'
  have hnsite' : nodeSite node' = some (allocSite a) := by rw [← hnode']; exact hnsite
  refine ⟨{ t with nodes := (nodes'.insert q node').erase new }, ?_, ?_, hi', ?_⟩
  · have hnodes := he.eq
    rw [newNode] at hnodes
    rw [hcount] at hga hgs
    simp [allocNodeInsert2, htype, hnodes, hfind, hlq, hcount, hga, hgs, hnode']
  · rw [siteAt_of_lookup hlq', hnsite']
  · have hmore : nodeRecords node' = nodeRecords node ++ [allocRecord a] := by
      rw [nodeRecords_of_site hnsite', nodeRecords_of_site hnsite, hpairs, List.map_append]
      rfl
    rw [hmore, List.append_assoc, List.singleton_append] at hrec'
    exact hrec'.trans (List.perm_middle.trans ((hrec.symm.trans hR).cons _))

theorem insert_spec {a : Alloc} {new bucket : Nat} (h : Represents t R) (hnames : NamesFit a)
    (htype : a.atype ≠ .free) (haddr : a.addr ∉ R.map fun r => r.2.1)
    (hnew : t.nodes.lookup new = none) (hbucket : t.hash.buckets.lookup bucket = none)
    (hfit : ∀ p node, t.nodes.lookup p = some node → nodeSite node = some (allocSite a) →
      node.count + 1 < 2 ^ 32) :
    ∃ p t', allocNodeInsert2 t new bucket a = some (some p, t') ∧
      siteAt t'.nodes p = some (allocSite a) ∧ Represents t' (allocRecord a :: R) := by
  obtain ⟨cs, hi, hR, hnd⟩ := h
  have hnd' : ((allocRecord a :: R).map fun r => r.2.1).Nodup := List.nodup_cons.mpr ⟨haddr, hnd⟩
  have he := hi.entered hnames hnew
  cases hfs : (stored cs).findSome? fun p =>
      if siteAt (t.nodes.insert new (newNode a)) p = some (allocSite a) then some p else none with
  | none =>
    obtain ⟨t', cs', hrun, hsite, hi', hR'⟩ := insert_new hi hR hnames htype he hbucket hfs
    exact ⟨new, t', hrun, hsite, cs', hi', hR', hnd'⟩
  | some p =>
    obtain ⟨t', hrun, hsite, hi', hR'⟩ := insert_more hi hR hnames htype he hfit hfs
    exact ⟨p, t', hrun, hsite, cs, hi', hR', hnd'⟩

/-! ## alloc_node_remove2 -/

/-- The records of other addresses. -/
def without (R : List Record) (addr : Nat) : List Record := R.filter fun r => r.2.1 ≠ addr

theorem without_of_notMem {addr : Nat} (hno : addr ∉ R.map fun r => r.2.1) : without R addr = R := by
  refine List.filter_eq_self.mpr fun r hr => ?_
  have hne : r.2.1 ≠ addr := fun heq => hno (List.mem_map.mpr ⟨r, hr, heq⟩)
  simpa using hne

/-- Taking out the one record of an address. -/
theorem perm_without {r : Record} {S : List Record} (h : R.Perm (r :: S))
    (hnd : (R.map fun r => r.2.1).Nodup) :
    S.Perm (without R r.2.1) ∧ ((without R r.2.1).map fun r => r.2.1).Nodup := by
  have hnd' := ((h.map fun r => r.2.1).nodup_iff).mp hnd
  have hself : without (r :: S) r.2.1 = S := by
    have hS : ∀ x ∈ S, x.2.1 ≠ r.2.1 := fun x hx heq =>
      (List.nodup_cons.mp hnd').1 (List.mem_map.mpr ⟨x, hx, heq⟩)
    simpa [without] using hS
  refine ⟨?_, hnd.sublist (List.Sublist.map _ (List.filter_sublist))⟩
  rw [← hself]
  exact (h.filter _).symm

theorem Inv.mem_addr (hi : Inv t cs) (hR : (records t.nodes (stored cs)).Perm R) {addr : Nat} :
    addr ∈ (R.map fun r => r.2.1) ↔
      ∃ p ∈ stored cs, ∃ node, t.nodes.lookup p = some node ∧ addr ∈ (nodePairs node).map Prod.fst := by
  constructor
  · intro h
    obtain ⟨r, hr, rfl⟩ := List.mem_map.mp h
    obtain ⟨p, hp, node, hnode, -, he⟩ := mem_records.mp (hR.mem_iff.mpr hr)
    exact ⟨p, hp, node, hnode, List.mem_map_of_mem he⟩
  · rintro ⟨p, hp, node, hnode, haddr⟩
    obtain ⟨e, he, rfl⟩ := List.mem_map.mp haddr
    obtain ⟨node', site, hnode', -, hsite, -⟩ := hi.live hp
    obtain rfl : node = node' := Option.some.inj (hnode.symm.trans hnode')
    exact List.mem_map.mpr ⟨(site, e), hR.mem_iff.mp (mem_records.mpr ⟨p, hp, node, hnode, hsite, he⟩), rfl⟩

/-- The last entry of a node goes: the node leaves the table and is freed. -/
theorem Inv.delete (hi : Inv t cs) {p : Nat} {node node' : AllocNode} {r : Record} (hp : p ∈ stored cs)
    (hnode : t.nodes.lookup p = some node) (hsite : nodeSite node' = nodeSite node)
    (hrec : nodeRecords node = [r]) :
    ∃ hash' cs', hashDelete (callbacks (t.nodes.insert p node')) t.hash p = some (0, [p], hash') ∧
      Inv { nodes := (t.nodes.insert p node').erase p, hash := hash' } cs' ∧
      (records t.nodes (stored cs)).Perm
        (r :: records ((t.nodes.insert p node').erase p) (stored cs')) := by
  generalize hnodes : t.nodes.insert p node' = nodes
  have hlp : nodes.lookup p = some node' := by rw [← hnodes]; exact AList.lookup_insert _
  have hlook : ∀ q, q ≠ p → nodes.lookup q = t.nodes.lookup q := fun q hq => by
    rw [← hnodes]; exact AList.lookup_insert_ne hq
  have hsame : ∀ q ∈ stored cs, siteAt nodes q = siteAt t.nodes q := by
    intro q _
    by_cases hqp : q = p
    · subst hqp
      rw [siteAt_of_lookup hlp, siteAt_of_lookup hnode, hsite]
    · exact siteAt_congr (hlook q hqp)
  obtain ⟨m, hh⟩ := hi.holds hsame
  obtain ⟨-, site, -, -, -, hps⟩ := hi.live hp
  have hlive : Live nodes p := ⟨site, by rw [hsame p hp, hps]⟩
  have hself : m.find (Quotient.mk _ p) = some p := hh.enum.find_some hp ((sameSite nodes).refl p)
  rcases hashDelete_spec (callbacks_reads nodes) hh hlive rfl with
    ⟨hnone, -⟩ | ⟨x, hash', cs', hfind, hdel, hsize, hh', hperm⟩
  · rw [hself] at hnone
    cases hnone
  · obtain rfl : p = x := Option.some.inj (hself.symm.trans hfind)
    have hnd := hperm.nodup_iff.mp hi.nodup
    have hne : ∀ q ∈ stored cs', q ≠ p := fun q hq heq => (List.nodup_cons.mp hnd).1 (heq ▸ hq)
    have hsub : ∀ q ∈ stored cs', q ∈ stored cs := fun q hq => hperm.mem_iff.mpr (List.mem_cons_of_mem _ hq)
    have hback : ∀ q ∈ stored cs', (nodes.erase p).lookup q = t.nodes.lookup q := fun q hq => by
      rw [AList.lookup_erase_ne (hne q hq), hlook q (hne q hq)]
    have hsiteb : ∀ q ∈ stored cs', siteAt (nodes.erase p) q = siteAt nodes q := fun q hq =>
      siteAt_congr (AList.lookup_erase_ne (hne q hq))
    refine ⟨hash', cs', hdel, ⟨hh'.table.congr fun q hq => by rw [keyAt, keyAt, hsiteb q hq],
      hsize.trans hi.size, ?_, ?_, fun q hq => ?_⟩, ?_⟩
    · refine hh'.enum.pairwise.imp_of_mem fun {a b} ha hb hab => ?_
      show siteAt (nodes.erase p) a ≠ siteAt (nodes.erase p) b
      rw [hsiteb a ha, hsiteb b hb]
      exact hab
    · have hkeys : nodes.keys.Perm t.nodes.keys := by rw [← hnodes]; exact keys_insert_perm hnode
      exact keys_erase_perm ((hkeys.trans hi.nodes).trans hperm)
    · obtain ⟨n, hn, hs⟩ := hi.sound q (hsub q hq)
      exact ⟨n, (hback q hq).trans hn, hs⟩
    · rw [records_congr hback]
      refine (hperm.flatMap_right _).trans ?_
      rw [List.flatMap_cons, recordsAt_of_lookup hnode, hrec]
      exact List.Perm.refl _

/-- The node that the search has found loses the address, and goes when it was the last one. -/
theorem remove_found {addr q : Nat} {node : AllocNode} (hi : Inv t cs)
    (hR : (records t.nodes (stored cs)).Perm R) (hnd : (R.map fun r => r.2.1).Nodup)
    (hp : q ∈ stored cs) (hnode : t.nodes.lookup q = some node)
    (hscan : scanAddr node addr = some ((nodePairs node).findIdx? fun e => e.1 == addr))
    (haddr : addr ∈ (nodePairs node).map Prod.fst) (hfind : nodeHashFindByaddr t addr = some (some q)) :
    ∃ t', allocNodeRemove2 t addr = some (0, t') ∧ Represents t' (without R addr) := by
  obtain ⟨n, site, hn, hs, hsite, -⟩ := hi.live hp
  obtain rfl : node = n := Option.some.inj (hnode.symm.trans hn)
  obtain ⟨node', size, hrem, hcount, hsite', hpairs, hsound'⟩ := allocNodeRemoveAddr_spec hs hscan haddr
  have hnrec : (nodeRecords node).Perm ((site, addr, size) :: nodeRecords node') := by
    rw [nodeRecords_of_site hsite, nodeRecords_of_site (hsite'.trans hsite)]
    exact hpairs.map _
  by_cases hz : node'.count = 0
  · have hempty : nodeRecords node' = [] := by
      rw [nodeRecords_of_site (hsite'.trans hsite)]
      simp [nodePairs, hz]
    have hone : nodeRecords node = [(site, addr, size)] := by
      rw [hempty] at hnrec
      exact List.perm_singleton.mp hnrec
    obtain ⟨hash', cs', hdel, hi', hrec⟩ := hi.delete hp hnode hsite' hone
    obtain ⟨hperm, hnd'⟩ := perm_without (hR.symm.trans hrec) hnd
    exact ⟨_, by simp [allocNodeRemove2, hfind, hnode, hrem, hz, hdel], cs', hi', hperm, hnd'⟩
  · have hother : ∀ r ∈ stored cs, r ≠ q → (t.nodes.insert q node').lookup r = t.nodes.lookup r :=
      fun r _ hr => AList.lookup_insert_ne hr
    obtain ⟨hi', rest, hrec, hrec'⟩ := hi.replace hp hnode (AList.lookup_insert _) hother
      (keys_insert_perm hnode) hsite' (hsound' hz)
    have hall : R.Perm ((site, addr, size) :: records (t.nodes.insert q node') (stored cs)) :=
      hR.symm.trans (hrec.trans ((hnrec.append_right rest).trans (hrec'.symm.cons _)))
    obtain ⟨hperm, hnd'⟩ := perm_without hall hnd
    exact ⟨_, by simp [allocNodeRemove2, hfind, hnode, hrem, hz], cs, hi', hperm, hnd'⟩

theorem remove_spec (h : Represents t R)
    (hmax : ∀ p node, t.nodes.lookup p = some node → node.count ≤ intMax) (addr : Nat) :
    (addr ∉ (R.map fun r => r.2.1) ∧ allocNodeRemove2 t addr = some (-1, t)) ∨
    (addr ∈ (R.map fun r => r.2.1) ∧ ∃ t', allocNodeRemove2 t addr = some (0, t') ∧
      Represents t' (without R addr)) := by
  obtain ⟨cs, hi, hR, hnd⟩ := h
  generalize hg : (fun p => (t.nodes.lookup p).bind fun node =>
    if addr ∈ (nodePairs node).map Prod.fst then some p else none) = g
  have hfind : nodeHashFindByaddr t addr = some ((stored cs).findSome? g) :=
    hashFind_spec hi.table (by rw [hi.size]; decide) fun p hp => by
      obtain ⟨node, hnode, hs⟩ := hi.sound p hp
      rw [allocNodeFindByaddr_spec hnode hs (hmax p node hnode), ← hg]
      simp [hnode]
  cases hfs : (stored cs).findSome? g with
  | none =>
    rw [hfs] at hfind
    refine .inl ⟨fun hmem => ?_, by simp [allocNodeRemove2, hfind]⟩
    obtain ⟨p, hp, node, hnode, haddr⟩ := (hi.mem_addr hR).mp hmem
    have := List.findSome?_eq_none_iff.mp hfs p hp
    rw [← hg] at this
    simp only [hnode, Option.bind_some, haddr, if_true] at this
    cases this
  | some q =>
    rw [hfs] at hfind
    obtain ⟨p, hp, hpq⟩ := List.exists_of_findSome?_eq_some hfs
    obtain ⟨node, site, hnode, hs, -⟩ := hi.live hp
    rw [← hg] at hpq
    simp only [hnode, Option.bind_some] at hpq
    split at hpq
    · next haddr =>
      obtain rfl : q = p := (Option.some.inj hpq).symm
      exact .inr ⟨(hi.mem_addr hR).mpr ⟨q, hp, node, hnode, haddr⟩,
        remove_found hi hR hnd hp hnode (scanAddr_spec addr hs (hmax q node hnode)) haddr hfind⟩
    · cases hpq

/-- Where every call site holds too many addresses, the search for another one has no result. -/
theorem remove_overflow (h : Represents t R) (hne : R ≠ [])
    (hmax : ∀ p node, t.nodes.lookup p = some node → intMax < node.count) {addr : Nat}
    (haddr : addr ∉ R.map fun r => r.2.1) : allocNodeRemove2 t addr = none := by
  obtain ⟨cs, hi, hR, -⟩ := h
  have hstored : stored cs ≠ [] := by
    intro hnil
    rw [hnil] at hR
    exact hne hR.nil_eq.symm
  have hfind : nodeHashFindByaddr t addr = none := by
    refine (hashFind_eq _ hi.table (by rw [hi.size]; decide)).trans (firstAnswer_fault hstored ?_)
    intro p hp
    obtain ⟨node, hnode, hs⟩ := hi.sound p hp
    have hno : addr ∉ (nodePairs node).map Prod.fst := fun hmem =>
      haddr ((hi.mem_addr hR).mpr ⟨p, hp, node, hnode, hmem⟩)
    have hpos : node.count > 0 := hs.pos
    simp [allocNodeFindByaddr, hnode, hpos, scanAddr_overflow hs (hmax p node hnode) hno]
  simp [allocNodeRemove2, hfind]

end Tracker

end Xtrace2
end Xlibc
