import Xlibc.Base.Run
import Xlibc.Xhash.Ownership
import Xlibc.Xtrace.Model

/-!
# Xlibc.Xtrace.Correct

Who owns the nodes of the tracker, over whole runs. A `Ledger` is a tracker with the nodes that its
calls have made and freed, and the addresses that are recorded.

* `insert_spec` : an insertion stores its node, or frees it where the address is recorded.
* `remove_spec` : a removal frees the stored node, and not the one that it has searched with.
* `tracker_accounts_iff` : the table is keyed by the recorded addresses in every run; the unfreed nodes
  are those in the table exactly as long as nothing has been removed.
-/

namespace Xlibc
namespace Xtrace

open Xhash
open Xtrace2 (AllocType Alloc)

inductive AllocOp where
  | insert (new bucket : Nat) (a : Alloc)
  | remove (new addr : Nat)

/-- Whether a call is one of `alloc_node_insert`. -/
def AllocOp.Inserts : AllocOp → Prop
  | .insert _ _ _ => True
  | .remove _ _ => False

/-- The address that a node is for. -/
def addrAt (nodes : Store AllocNode) (p : Nat) : Option Nat := (nodes.lookup p).map (·.addr)

/-- A tracker, the nodes that `alloc_node_new` has returned, those that have been freed, and the
addresses that have been inserted and not removed. -/
structure Ledger where
  tracker : Tracker
  made : List Nat
  freed : List Nat
  recorded : List Nat

namespace Ledger

def init : Ledger := { tracker := xallocHashCreate0, made := [], freed := [], recorded := [] }

/-- The nodes in the table. -/
def inTable (s : Ledger) : List Nat := s.tracker.hash.buckets.entries.map fun e => e.2.data

def step (s : Ledger) : AllocOp → Option Ledger
  | .insert new bucket a => (allocNodeInsert s.tracker new bucket a).map fun (_, freed, t) =>
    { tracker := t, made := new :: s.made, freed := freed ++ s.freed,
      recorded := if a.addr ∈ s.recorded then s.recorded else a.addr :: s.recorded }
  | .remove new addr => (allocNodeRemove s.tracker new addr).map fun (_, freed, t) =>
    { tracker := t, made := new :: s.made, freed := freed ++ s.freed,
      recorded := s.recorded.erase addr }

/-- `malloc` returns blocks that are not in use. -/
def Permitted (s : Ledger) : AllocOp → Prop
  | .insert new bucket _ =>
    s.tracker.nodes.lookup new = none ∧ s.tracker.hash.buckets.lookup bucket = none
  | .remove new _ => s.tracker.nodes.lookup new = none

instance (s : Ledger) : DecidablePred s.Permitted
  | .insert _ _ _ => inferInstanceAs (Decidable (_ ∧ _))
  | .remove _ _ => inferInstanceAs (Decidable (_ = _))

/-- Every node has been freed once or is in the table, and for no address there are two. -/
structure Accounted (s : Ledger) : Prop where
  once : (s.freed ++ s.inTable).Perm s.made
  unfreed : s.tracker.nodes.entries.length = s.tracker.hash.count
  unique : ∀ p q a b, s.tracker.nodes.lookup p = some a → s.tracker.nodes.lookup q = some b →
    a.addr = b.addr → p = q

/-- The table holds one node for each recorded address, and a removal finds exactly these. -/
structure Keyed (s : Ledger) : Prop where
  nodes : (s.inTable.map (addrAt s.tracker.nodes)).Perm (s.recorded.map some)
  once : s.recorded.Nodup
  count : s.tracker.hash.count = s.recorded.length
  remove : ∀ new addr, s.tracker.nodes.lookup new = none → ∃ ret freed t,
    allocNodeRemove s.tracker new addr = some (ret, freed, t) ∧ (ret = 0 ↔ addr ∈ s.recorded)

end Ledger

/-! ## What the callbacks compute -/

variable {t : Tracker} {cs : List (List (Cell Nat))} {nodes' : Store AllocNode} {R : List Nat}

theorem addrAt_of_lookup {nodes : Store AllocNode} {p : Nat} {node : AllocNode}
    (h : nodes.lookup p = some node) : addrAt nodes p = some node.addr := by
  rw [addrAt, h]
  rfl

theorem addrAt_congr {nodes : Store AllocNode} {p : Nat} (h : nodes'.lookup p = nodes.lookup p) :
    addrAt nodes' p = addrAt nodes p := by
  rw [addrAt, addrAt, h]

theorem lookup_of_addrAt {nodes : Store AllocNode} {p addr : Nat} (h : addrAt nodes p = some addr) :
    ∃ node, nodes.lookup p = some node ∧ node.addr = addr := Option.map_eq_some_iff.mp h

theorem callbacks_reads (nodes : Store AllocNode) : Reads (callbacks nodes) (keyBy (addrAt nodes) u32)
    (Setoid.ker (addrAt nodes)) (Points (addrAt nodes)) := by
  refine reads_ident ?_ ?_
  · intro p x hx
    obtain ⟨node, hnode, rfl⟩ := lookup_of_addrAt hx
    simp [callbacks, hnode, allocNodeHashKey]
  · intro p q x y hx hy
    obtain ⟨a, ha, rfl⟩ := lookup_of_addrAt hx
    obtain ⟨b, hb, rfl⟩ := lookup_of_addrAt hy
    refine ⟨allocNodeHashCmpKey a b, by simp [callbacks, ha, hb], ?_⟩
    by_cases hab : a.addr = b.addr <;> simp [allocNodeHashCmpKey, hab]

/-! ## The invariant -/

/-- The table holds the nodes of the addresses `R`, and `lost` are the other nodes. -/
structure Inv (t : Tracker) (cs : List (List (Cell Nat))) (R lost : List Nat) : Prop where
  table : Table (keyBy (addrAt t.nodes) u32) t.hash cs
  size : t.hash.size = hashTableSize
  nodes : t.nodes.keys.Perm (stored cs ++ lost)
  addrs : ((stored cs).map (addrAt t.nodes)).Perm (R.map some)
  once : R.Nodup

variable {lost : List Nat}

theorem Inv.pairwise (hi : Inv t cs R lost) :
    (stored cs).Pairwise fun p q => addrAt t.nodes p ≠ addrAt t.nodes q := by
  have hnd : (R.map some).Nodup := hi.once.map (Option.some_injective Nat)
  exact List.pairwise_map.mp (hi.addrs.nodup_iff.mpr hnd)

theorem Inv.points (hi : Inv t cs R lost) {p : Nat} (hp : p ∈ stored cs) :
    ∃ addr ∈ R, addrAt t.nodes p = some addr := by
  have hmem := hi.addrs.mem_iff.mp (List.mem_map_of_mem hp)
  obtain ⟨addr, haddr, heq⟩ := List.mem_map.mp hmem
  exact ⟨addr, haddr, heq.symm⟩

theorem Inv.found (hi : Inv t cs R lost) {addr : Nat} :
    addr ∈ R ↔ ∃ p ∈ stored cs, addrAt t.nodes p = some addr := by
  rw [← List.mem_map, hi.addrs.mem_iff, List.mem_map]
  simp

/-- The table as a map from addresses to nodes, through any store in which its nodes are the same. -/
theorem Inv.holds (hi : Inv t cs R lost) (hsame : ∀ p ∈ stored cs, nodes'.lookup p = t.nodes.lookup p) :
    ∃ m, Holds (keyBy (addrAt nodes') u32) (Setoid.ker (addrAt nodes')) (Points (addrAt nodes')) t.hash
      cs m := by
  have haddr : ∀ p ∈ stored cs, addrAt nodes' p = addrAt t.nodes p := fun p hp => addrAt_congr (hsame p hp)
  have ht : Table (keyBy (addrAt nodes') u32) t.hash cs := by
    refine hi.table.congr fun p hp => ?_
    rw [keyBy, keyBy, haddr p hp]
  refine ht.holds_ident ?_ ?_
  · refine hi.pairwise.imp_of_mem fun hp hq hne => ?_
    rw [haddr _ hp, haddr _ hq]
    exact hne
  · intro p hp
    obtain ⟨addr, -, hpa⟩ := hi.points hp
    exact ⟨addr, by rw [haddr p hp, hpa]⟩

/-- A new block is none of the nodes there are. -/
theorem Inv.fresh (hi : Inv t cs R lost) {new : Nat} (hnew : t.nodes.lookup new = none) :
    new ∉ stored cs := by
  intro hmem
  refine AList.lookup_eq_none.mp hnew ?_
  exact hi.nodes.mem_iff.mpr (List.mem_append_left _ hmem)

/-- What the table says of the nodes in it is kept by a store that agrees on them. -/
theorem Inv.frame (hi : Inv t cs R lost) {lost' : List Nat}
    (hsame : ∀ p ∈ stored cs, nodes'.lookup p = t.nodes.lookup p)
    (hkeys : nodes'.keys.Perm (stored cs ++ lost')) : Inv { t with nodes := nodes' } cs R lost' := by
  have haddr : ∀ p ∈ stored cs, addrAt nodes' p = addrAt t.nodes p := fun p hp => addrAt_congr (hsame p hp)
  refine ⟨hi.table.congr fun p hp => ?_, hi.size, hkeys, ?_, hi.once⟩
  · rw [keyBy, keyBy, haddr p hp]
  · rw [List.map_congr_left haddr]
    exact hi.addrs

/-! ## The calls -/

section Calls

variable {new bucket : Nat}

theorem lookup_enter (hi : Inv t cs R lost) (hnew : t.nodes.lookup new = none) (node : AllocNode) :
    ∀ p ∈ stored cs, (t.nodes.insert new node).lookup p = t.nodes.lookup p := by
  intro p hp
  refine AList.lookup_insert_ne ?_
  rintro rfl
  exact hi.fresh hnew hp

/-- The search of an insertion. -/
theorem find_spec (hi : Inv t cs R lost) (hnew : t.nodes.lookup new = none) (node : AllocNode) (addr : Nat) :
    (addr ∉ R ∧ hashFind (some (allocNodeFind (t.nodes.insert new node) addr)) t.hash = some none) ∨
    (addr ∈ R ∧ ∃ p, hashFind (some (allocNodeFind (t.nodes.insert new node) addr)) t.hash =
      some (some p)) := by
  have hsearch : hashFind (some (allocNodeFind (t.nodes.insert new node) addr)) t.hash =
      some ((stored cs).findSome? fun p => if addrAt t.nodes p = some addr then some p else none) := by
    refine hashFind_spec hi.table (by rw [hi.size]; decide) fun p hp => ?_
    obtain ⟨x, -, hx⟩ := hi.points hp
    obtain ⟨n, hn, rfl⟩ := lookup_of_addrAt hx
    have hlook : (t.nodes.insert new node).lookup p = some n := by rw [lookup_enter hi hnew node p hp, hn]
    simp [allocNodeFind, hlook, hx]
  rw [hsearch]
  cases hfs : (stored cs).findSome? fun p => if addrAt t.nodes p = some addr then some p else none with
  | none =>
    refine .inl ⟨?_, rfl⟩
    intro hmem
    obtain ⟨p, hp, hpa⟩ := hi.found.mp hmem
    have hno := List.findSome?_eq_none_iff.mp hfs p hp
    simp [hpa] at hno
  | some p =>
    obtain ⟨q, hq, hqp⟩ := List.exists_of_findSome?_eq_some hfs
    refine .inr ⟨hi.found.mpr ⟨q, hq, ?_⟩, p, rfl⟩
    by_contra hne
    simp [hne] at hqp

/-- `alloc_node_insert` keeps the table as it is and frees its node, or stores it. -/
theorem insert_spec (hi : Inv t cs R lost) {a : Alloc} {ret : Option Nat} {freed : List Nat} {t' : Tracker}
    (hnew : t.nodes.lookup new = none) (hbucket : t.hash.buckets.lookup bucket = none)
    (h : allocNodeInsert t new bucket a = some (ret, freed, t')) :
    (freed ++ t'.nodes.keys).Perm (new :: t.nodes.keys) ∧
      ∃ cs', Inv t' cs' (if a.addr ∈ R then R else a.addr :: R) lost := by
  generalize hnode : allocNodeNew a.file a.func a.line a.addr a.size a.atype = node at *
  have hkeys : (t.nodes.insert new node).keys = new :: t.nodes.keys := keys_insert_fresh hnew
  have hlnew : (t.nodes.insert new node).lookup new = some node := AList.lookup_insert _
  have hanew : addrAt (t.nodes.insert new node) new = some a.addr := by
    rw [addrAt_of_lookup hlnew, ← hnode]
    rfl
  rw [allocNodeInsert] at h
  split at h
  · cases h
  rw [hnode] at h
  rcases find_spec hi hnew node a.addr with ⟨hno, hfind⟩ | ⟨hmem, p, hfind⟩
  · obtain ⟨m, hh⟩ := hi.holds (lookup_enter hi hnew node)
    have hnone : m.find (Quotient.mk _ new) = none := by
      refine hh.enum.find_none fun p hp hpn => hno ?_
      have hsame : addrAt (t.nodes.insert new node) p = addrAt (t.nodes.insert new node) new := hpn
      rw [hanew, addrAt, lookup_enter hi hnew node p hp] at hsame
      exact hi.found.mpr ⟨p, hp, hsame⟩
    obtain ⟨hash', cs', hset, hsize, hh', hperm⟩ :=
      hashSet_new (callbacks_reads _) hh ⟨_, hanew⟩ hbucket hnone
    simp only [hfind, hset, Option.bind_eq_bind, Option.bind_some, Option.some.injEq,
      Prod.mk.injEq] at h
    obtain ⟨-, rfl, rfl⟩ := h
    rw [if_neg hno]
    refine ⟨by simp [freeNodes, hkeys], cs', hh'.table, hsize.trans hi.size, ?_, ?_,
      List.nodup_cons.mpr ⟨hno, hi.once⟩⟩
    · show (t.nodes.insert new node).keys.Perm _
      rw [hkeys]
      exact (hi.nodes.cons new).trans (hperm.append_right lost).symm
    · have hold : (stored cs).map (addrAt (t.nodes.insert new node)) = (stored cs).map (addrAt t.nodes) := by
        exact List.map_congr_left fun p hp => addrAt_congr (lookup_enter hi hnew node p hp)
      show ((stored cs').map (addrAt (t.nodes.insert new node))).Perm _
      refine (hperm.map _).trans ?_
      rw [List.map_cons, hanew, hold]
      exact hi.addrs.cons _
  · simp only [hfind, Option.bind_eq_bind, Option.bind_some] at h
    obtain ⟨n, -, h⟩ := Option.bind_eq_some_iff.mp h
    obtain ⟨-, -, h⟩ := Option.bind_eq_some_iff.mp h
    cases h
    have hback : (freeNodes (t.nodes.insert new node) [new]).keys.Perm t.nodes.keys :=
      keys_erase_perm (by rw [hkeys])
    rw [if_pos hmem]
    refine ⟨hback.cons new, cs, hi.frame ?_ (hback.trans hi.nodes)⟩
    intro q hq
    have hne : q ≠ new := fun heq => hi.fresh hnew (heq ▸ hq)
    exact (AList.lookup_erase_ne hne).trans (lookup_enter hi hnew node q hq)

/-- The node `x` of an address leaves the table and is freed. -/
theorem Inv.delete (hi : Inv t cs R lost) (hnew : t.nodes.lookup new = none) (node : AllocNode) {addr x : Nat}
    {hash' : Hash Nat} {cs' : List (List (Cell Nat))} (hxa : addrAt t.nodes x = some addr)
    (hmem : addr ∈ R) (hperm : (stored cs).Perm (x :: stored cs')) (hnd : (x :: stored cs').Nodup)
    (htab : Table (keyBy (addrAt (t.nodes.insert new node)) u32) hash' cs')
    (hsize : hash'.size = t.hash.size) :
    (x :: ((t.nodes.insert new node).erase x).keys).Perm (new :: t.nodes.keys) ∧
      Inv { nodes := (t.nodes.insert new node).erase x, hash := hash' } cs' (R.erase addr) (new :: lost) := by
  have hne : ∀ p ∈ stored cs', p ≠ x := by
    rintro p hp rfl
    exact (List.nodup_cons.mp hnd).1 hp
  have hall : (new :: t.nodes.keys).Perm (x :: (stored cs' ++ new :: lost)) :=
    calc (new :: t.nodes.keys).Perm (new :: x :: (stored cs' ++ lost)) :=
          (hi.nodes.trans (hperm.append_right lost)).cons new
      _ |>.Perm (x :: new :: (stored cs' ++ lost)) := .swap _ _ _
      _ |>.Perm (x :: (stored cs' ++ new :: lost)) := List.perm_middle.symm.cons x
  have hleft : ((t.nodes.insert new node).erase x).keys.Perm (stored cs' ++ new :: lost) := by
    refine keys_erase_perm ?_
    rw [keys_insert_fresh hnew]
    exact hall
  have hold : (stored cs').map (addrAt ((t.nodes.insert new node).erase x)) =
      (stored cs').map (addrAt t.nodes) := by
    refine List.map_congr_left fun p hp => ?_
    rw [addrAt, addrAt, AList.lookup_erase_ne (hne p hp),
      lookup_enter hi hnew node p (hperm.mem_iff.mpr (List.mem_cons_of_mem _ hp))]
  refine ⟨(hleft.cons x).trans hall.symm, htab.congr ?_, hsize.trans hi.size, hleft, ?_, hi.once.erase addr⟩
  · intro p hp
    rw [keyBy, keyBy, addrAt, addrAt, AList.lookup_erase_ne (hne p hp)]
  · have hfirst : ((stored cs).map (addrAt t.nodes)).Perm (some addr :: (stored cs').map (addrAt t.nodes)) := by
      rw [← hxa]
      exact hperm.map _
    have hrest : (R.map some).Perm (some addr :: (R.erase addr).map some) :=
      (List.perm_cons_erase hmem).map some
    show ((stored cs').map (addrAt ((t.nodes.insert new node).erase x))).Perm _
    rw [hold]
    exact (hfirst.symm.trans (hi.addrs.trans hrest)).cons_inv

/-- `alloc_node_remove` frees the node of the address, if there is one, and leaves the node that it has
searched with. -/
theorem remove_spec (hi : Inv t cs R lost) (hnew : t.nodes.lookup new = none) (addr : Nat) :
    ∃ ret freed t', allocNodeRemove t new addr = some (ret, freed, t') ∧ (ret = 0 ↔ addr ∈ R) ∧
      (freed ++ t'.nodes.keys).Perm (new :: t.nodes.keys) ∧
      ∃ cs', Inv t' cs' (R.erase addr) (new :: lost) := by
  generalize hnode : allocNodeNew none none 0 addr 0 .free = node
  have hkeys : (t.nodes.insert new node).keys = new :: t.nodes.keys := keys_insert_fresh hnew
  have hanew : addrAt (t.nodes.insert new node) new = some addr := by
    rw [addrAt_of_lookup (AList.lookup_insert _), ← hnode]
    rfl
  have hsame := lookup_enter hi hnew node
  have haddr : ∀ p ∈ stored cs, addrAt (t.nodes.insert new node) p = addrAt t.nodes p :=
    fun p hp => addrAt_congr (hsame p hp)
  obtain ⟨m, hh⟩ := hi.holds hsame
  rcases hashDelete_spec (callbacks_reads _) hh ⟨_, hanew⟩ rfl with
    ⟨hnone, hdel⟩ | ⟨x, hash', cs', hfind, hdel, hsize, hh', hperm⟩
  · have hno : addr ∉ R := by
      intro hmem
      obtain ⟨p, hp, hpa⟩ := hi.found.mp hmem
      have hpn : addrAt (t.nodes.insert new node) p = addrAt (t.nodes.insert new node) new := by
        rw [hanew, haddr p hp, hpa]
      rw [hh.enum.find_some hp hpn] at hnone
      cases hnone
    refine ⟨-1, [], { t with nodes := t.nodes.insert new node }, ?_, ?_, by simp [hkeys], cs, ?_⟩
    · simp [allocNodeRemove, hnode, hdel, freeNodes]
    · simp [hno]
    · rw [List.erase_of_not_mem hno]
      refine hi.frame hsame ?_
      rw [hkeys]
      exact (hi.nodes.cons new).trans List.perm_middle.symm
  · obtain ⟨hx, hxn⟩ := (hh.enum.find_iff _ _).mp hfind
    have hxa : addrAt t.nodes x = some addr := by
      rw [← haddr x hx, ← hanew]
      exact Quotient.exact hxn
    have hmem : addr ∈ R := hi.found.mpr ⟨x, hx, hxa⟩
    obtain ⟨hnodes, hi'⟩ :=
      hi.delete hnew node hxa hmem hperm (hperm.nodup_iff.mp hh.enum.nodup) hh'.table hsize
    refine ⟨0, [x], { nodes := (t.nodes.insert new node).erase x, hash := hash' }, ?_, ?_, hnodes, cs', hi'⟩
    · simp [allocNodeRemove, hnode, hdel, freeNodes]
    · simp [hmem]

end Calls

/-! ## Runs -/

namespace Ledger

variable {s s' : Ledger} {es : List AllocOp}

def Step (s : Ledger) (e : AllocOp) (s' : Ledger) : Prop := s.Permitted e ∧ s.step e = some s'

/-- After the calls `es`: the nodes made are those freed and those in use, and those in use and not in
the table are the ones that removals have searched with. -/
def Kept (es : List AllocOp) (s : Ledger) : Prop :=
  (s.freed ++ s.tracker.nodes.keys).Perm s.made ∧
    ∃ cs lost, Inv s.tracker cs s.recorded lost ∧ (lost = [] ↔ ∀ e ∈ es, e.Inserts)

theorem init_kept : Kept [] init := by
  have hnil : stored (List.replicate hashTableSize ([] : List (Cell Nat))) = [] := by simp [stored]
  refine ⟨.nil, List.replicate hashTableSize [], [], ⟨hashCreateSize_table _ (by decide), rfl, ?_, ?_,
    List.nodup_nil⟩, by simp⟩
  · rw [hnil]
    exact .nil
  · rw [hnil]
    exact .nil

/-- What a call frees goes to the log. -/
theorem perm_log {freed keys keys' made F : List Nat} {new : Nat} (hcall : (F ++ keys').Perm (new :: keys))
    (h : (freed ++ keys).Perm made) : (F ++ freed ++ keys').Perm (new :: made) := by
  rw [List.perm_iff_count] at hcall h ⊢
  intro p
  have h1 := hcall p
  have h2 := h p
  simp only [List.count_append, List.count_cons] at h1 h2 ⊢
  omega

theorem step_kept {e : AllocOp} (h : Kept es s) (hs : s.Step e s') : Kept (es ++ [e]) s' := by
  obtain ⟨hmade, cs, lost, hi, hlost⟩ := h
  obtain ⟨hp, hs⟩ := hs
  cases e with
  | insert new bucket a =>
    obtain ⟨⟨ret, freed, t⟩, hrun, rfl⟩ := Option.map_eq_some_iff.mp hs
    obtain ⟨hnodes, cs', hi'⟩ := insert_spec hi hp.1 hp.2 hrun
    refine ⟨perm_log hnodes hmade, cs', lost, hi', ?_⟩
    have hins : (AllocOp.insert new bucket a).Inserts := trivial
    simp [hlost, or_imp, forall_and, hins]
  | remove new addr =>
    obtain ⟨ret, freed, t, hrun, -, hnodes, cs', hi'⟩ := remove_spec hi hp addr
    rw [step, hrun] at hs
    cases hs
    refine ⟨perm_log hnodes hmade, cs', new :: lost, hi', ?_⟩
    simp [AllocOp.Inserts]

theorem kept_of_run (h : Run Step init es s) : Kept es s :=
  h.invariant init_kept fun _ hk hs => step_kept hk hs

theorem stored_count {t : Tracker} {cs : List (List (Cell Nat))} {R lost : List Nat}
    (hi : Inv t cs R lost) : t.hash.count = (stored cs).length := by
  rw [hi.table.count, stored, List.length_map]

theorem Kept.keyed (h : Kept es s) : s.Keyed := by
  obtain ⟨-, cs, lost, hi, -⟩ := h
  refine ⟨(hi.table.stored_perm.map _).trans hi.addrs, hi.once, ?_, ?_⟩
  · rw [stored_count hi]
    simpa using hi.addrs.length_eq
  · intro new addr hnew
    obtain ⟨ret, freed, t, hrun, hret, -⟩ := remove_spec hi hnew addr
    exact ⟨ret, freed, t, hrun, hret⟩

theorem Kept.accounted_iff (h : Kept es s) : s.Accounted ↔ ∀ e ∈ es, e.Inserts := by
  obtain ⟨hmade, cs, lost, hi, hlost⟩ := h
  rw [← hlost]
  have hlen : s.tracker.nodes.entries.length = s.tracker.hash.count + lost.length := by
    have := hi.nodes.length_eq
    rw [List.length_append, ← stored_count hi] at this
    rw [← this]
    exact (List.length_map _).symm
  constructor
  · intro ha
    have := ha.unfreed
    exact List.length_eq_zero_iff.mp (by omega)
  · rintro rfl
    have hkeys : s.tracker.nodes.keys.Perm (stored cs) := by simpa using hi.nodes
    refine ⟨?_, by simpa using hlen, ?_⟩
    · exact ((hi.table.stored_perm.trans hkeys.symm).append_left s.freed).trans hmade
    · intro p q a b ha hb hab
      by_contra hne
      have hp : p ∈ stored cs := hkeys.mem_iff.mp (AList.lookup_isSome.mp (by rw [ha]; rfl))
      have hq : q ∈ stored cs := hkeys.mem_iff.mp (AList.lookup_isSome.mp (by rw [hb]; rfl))
      have hsymm : Std.Symm fun p q => addrAt s.tracker.nodes p ≠ addrAt s.tracker.nodes q :=
        ⟨fun _ _ hne => hne.symm⟩
      refine hi.pairwise.forall hp hq hne ?_
      rw [addrAt_of_lookup ha, addrAt_of_lookup hb, hab]

end Ledger

open Ledger

/-- **Removing leaks.** In every run the table holds one node for each recorded address, and removals
return 0 for exactly these. Every node is freed once or in the table, and none else is unfreed, exactly
in the runs without a removal. -/
theorem tracker_accounts_iff {es : List AllocOp} {s : Ledger} (hr : Run Ledger.Step Ledger.init es s) :
    s.Keyed ∧ (s.Accounted ↔ ∀ e ∈ es, e.Inserts) :=
  ⟨(kept_of_run hr).keyed, (kept_of_run hr).accounted_iff⟩

/-- The allocation of `size` bytes at `addr`, at line 1 of no file. -/
def allocOf (addr : Nat) (size : Int) : Alloc :=
  { file := none, func := none, line := 1, addr := addr, size := size, atype := .malloc }

theorem tracker_accounts_twice : ∃ s : Ledger, s.recorded = [70, 38] ∧ s.freed = [3] ∧ s.Accounted := by
  have hfold : (List.foldlM (fun s e => if Permitted s e then step s e else none) Ledger.init
      [.insert 1 1 (allocOf 38 5), .insert 2 2 (allocOf 70 3), .insert 3 3 (allocOf 38 8)]).map
      (fun s => (s.recorded, s.freed)) = some ([70, 38], [3]) := by decide
  obtain ⟨s, hs, hrec⟩ := Option.map_eq_some_iff.mp hfold
  simp only [Prod.mk.injEq] at hrec
  refine ⟨s, hrec.1, hrec.2, (tracker_accounts_iff (Run.ofFold _ _ _ _ hs)).2.mpr ?_⟩
  simp [AllocOp.Inserts]

/-- One address is recorded and removed: the node of the search is neither in the table nor freed. -/
theorem tracker_remove_leaks : ∃ es s, Run Ledger.Step Ledger.init es s ∧ s.inTable = [] ∧
    s.made = [2, 1] ∧ s.freed = [1] ∧ s.tracker.nodes.keys = [2] ∧ ¬ s.Accounted := by
  have hfold : (List.foldlM (fun s e => if Permitted s e then step s e else none) Ledger.init
      [.insert 1 1 (allocOf 38 5), .remove 2 38]).map
      (fun s => (s.inTable, s.made, s.freed, s.tracker.nodes.keys, s.tracker.hash.count)) =
      some ([], [2, 1], [1], [2], 0) := by decide
  obtain ⟨s, hs, hrec⟩ := Option.map_eq_some_iff.mp hfold
  simp only [Prod.mk.injEq] at hrec
  obtain ⟨htable, hmade, hfreed, hkeys, hcount⟩ := hrec
  refine ⟨_, s, Run.ofFold _ _ _ _ hs, htable, hmade, hfreed, hkeys, ?_⟩
  intro ha
  have hlen := ha.once.length_eq
  rw [htable, hmade, hfreed] at hlen
  cases hlen

end Xtrace
end Xlibc
