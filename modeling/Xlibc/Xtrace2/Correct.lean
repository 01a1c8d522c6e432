import Xlibc.Base.Run
import Xlibc.Xtrace2.Tracker

/-!
# Xlibc.Xtrace2.Correct

The tracker over whole runs. A `Session` is a tracker together with the records of the calls it has
had, and `Tracks` is what has to hold in it. `tracker_tracks` proves it for every run in which no
search meets a call site of `2^31` addresses: the searches count with an `int` up to an `unsigned`.
`tracker_remove_faults` fills one call site beyond: the counter of a search for an address that is not
recorded goes past `INT_MAX` there with an entry still to be read.
-/

namespace Xlibc
namespace Xtrace2

open Xhash

/-- A call. `new` and `bucket` are the blocks that `malloc` grants to an insertion. -/
inductive AllocOp where
  | insert (new bucket : Nat) (a : Alloc)
  | remove (addr : Nat)

/-- A tracker, and what its calls have recorded and not removed. -/
structure Session where
  tracker : Tracker
  recorded : List Record

namespace Session

def init : Session := { tracker := xallocHashCreate, recorded := [] }

def addresses (s : Session) : List Nat := s.recorded.map fun r => r.2.1

/-- How many addresses a call site holds. -/
def siteCount (s : Session) (x : Site) : Nat := s.recorded.countP fun r => r.1 = x

def step (s : Session) : AllocOp → Option Session
  | .insert new bucket a => (allocNodeInsert2 s.tracker new bucket a).map fun (_, t) =>
    { tracker := t, recorded := allocRecord a :: s.recorded }
  | .remove addr => (allocNodeRemove2 s.tracker addr).map fun (_, t) =>
    { tracker := t, recorded := without s.recorded addr }

/-- What the callers keep to, and `malloc`. -/
def Permitted (s : Session) : AllocOp → Prop
  | .insert new bucket a => NamesFit a ∧ a.atype ≠ .free ∧ a.addr ∉ s.addresses ∧
    s.tracker.nodes.lookup new = none ∧ s.tracker.hash.buckets.lookup bucket = none
  | .remove _ => True

/-- The count of an insertion does not wrap, and a removal does not search past `INT_MAX`. -/
def Fits (s : Session) : AllocOp → Prop
  | .insert _ _ a => s.siteCount (allocSite a) + 1 < 2 ^ 32
  | .remove _ => ∀ r ∈ s.recorded, s.siteCount r.1 < 2 ^ 31

instance (s : Session) : DecidablePred s.Permitted
  | .insert _ _ _ => inferInstanceAs (Decidable (((∀ _ ∈ _, _) ∧ ∀ _ ∈ _, _) ∧ _))
  | .remove _ => .isTrue trivial

instance (s : Session) : DecidablePred s.Fits
  | .insert _ _ _ => inferInstanceAs (Decidable (_ < _))
  | .remove _ => inferInstanceAs (Decidable (∀ _ ∈ _, _))

/-- What has to hold of a tracker. -/
structure Tracks (s : Session) : Prop where
  /-- The nodes are those in the table, and together they hold what is recorded. -/
  nodes : ∃ ps, hashTraverse (callbacks s.tracker.nodes) s.tracker.hash = some ps ∧
    ps.Perm s.tracker.nodes.keys ∧ (records s.tracker.nodes ps).Perm s.recorded
  count : ∀ p node, s.tracker.nodes.lookup p = some node →
    1 ≤ node.count ∧ (nodePairs node).length = node.count ∧ ∃ x, nodeSite node = some x
  unique : ∀ p q a b, s.tracker.nodes.lookup p = some a → s.tracker.nodes.lookup q = some b →
    nodeSite a = nodeSite b → p = q
  insert : ∀ new bucket a, s.Permitted (.insert new bucket a) → s.Fits (.insert new bucket a) →
    ∃ p t, allocNodeInsert2 s.tracker new bucket a = some (some p, t) ∧
      siteAt t.nodes p = some (allocSite a)
  remove : ∀ addr, s.Fits (.remove addr) →
    (addr ∈ s.addresses → ∃ t, allocNodeRemove2 s.tracker addr = some (0, t)) ∧
    (addr ∉ s.addresses → allocNodeRemove2 s.tracker addr = some (-1, s.tracker))

variable {s s' : Session}

theorem represents_init : Represents init.tracker init.recorded := by
  have hnil : stored (List.replicate hashTableSize ([] : List (Cell Nat))) = [] := by simp [stored]
  refine ⟨List.replicate hashTableSize [], ⟨hashCreateSize_table _ (by decide), rfl, ?_, ?_, ?_⟩, ?_, ?_⟩
  · rw [hnil]; exact .nil
  · rw [hnil]; exact .nil
  · rw [hnil]; simp
  · rw [hnil]; exact .nil
  · exact List.nodup_nil

/-- A call site that fits an insertion. -/
theorem Fits.insert {new bucket : Nat} {a : Alloc} (hf : s.Fits (.insert new bucket a))
    (h : Represents s.tracker s.recorded) (p : Nat) (node : AllocNode)
    (hnode : s.tracker.nodes.lookup p = some node) (hsite : nodeSite node = some (allocSite a)) :
    node.count + 1 < 2 ^ 32 := by
  rw [h.count_eq hnode hsite]
  exact hf

/-- Nodes that fit a removal. -/
theorem Fits.remove {addr : Nat} (hf : s.Fits (.remove addr)) (h : Represents s.tracker s.recorded)
    (p : Nat) (node : AllocNode) (hnode : s.tracker.nodes.lookup p = some node) :
    node.count ≤ intMax := by
  obtain ⟨x, hsite⟩ := (h.sound hnode).site
  have hcount := h.count_eq hnode hsite
  have hpos := (h.sound hnode).pos
  obtain ⟨r, hr, hrx⟩ := List.countP_pos_iff.mp (hcount ▸ hpos)
  have hlt := hf r hr
  rw [of_decide_eq_true hrx] at hlt
  have : s.siteCount x = node.count := hcount.symm
  unfold intMax
  omega

/-- One call has a result and keeps the records represented. -/
theorem step_spec {op : AllocOp} (h : Represents s.tracker s.recorded) (hp : s.Permitted op)
    (hf : s.Fits op) : ∃ s', s.step op = some s' ∧ Represents s'.tracker s'.recorded := by
  cases op with
  | insert new bucket a =>
    obtain ⟨hnames, htype, haddr, hnew, hbucket⟩ := hp
    obtain ⟨p, t', hins, -, h'⟩ := insert_spec h hnames htype haddr hnew hbucket (hf.insert h)
    exact ⟨{ tracker := t', recorded := allocRecord a :: s.recorded }, by simp [step, hins], h'⟩
  | remove addr =>
    rcases remove_spec h (hf.remove h) addr with ⟨hno, hrem⟩ | ⟨-, t', hrem, h'⟩
    · exact ⟨s, by simp [step, hrem, without_of_notMem hno], h⟩
    · exact ⟨{ tracker := t', recorded := without s.recorded addr }, by simp [step, hrem], h'⟩

theorem tracks_of_represents (h : Represents s.tracker s.recorded) : s.Tracks where
  nodes := by
    obtain ⟨cs, hi, hR, -⟩ := h
    exact ⟨stored cs, hashTraverse_spec hi.table (by rw [hi.size]; decide) rfl, hi.nodes.symm, hR⟩
  count p node hnode := ⟨(h.sound hnode).pos, (h.sound hnode).length, (h.sound hnode).site⟩
  unique p q a b ha hb hab := h.unique ha hb hab
  insert new bucket a hp hf := by
    obtain ⟨hnames, htype, haddr, hnew, hbucket⟩ := hp
    obtain ⟨p, t', hins, hsite, -⟩ := insert_spec h hnames htype haddr hnew hbucket (hf.insert h)
    exact ⟨p, t', hins, hsite⟩
  remove addr hf := by
    rcases remove_spec h (hf.remove h) addr with ⟨hno, hrem⟩ | ⟨hmem, t', hrem, -⟩
    · exact ⟨fun hmem => absurd hmem hno, fun _ => hrem⟩
    · exact ⟨fun _ => ⟨t', hrem⟩, fun hno => absurd hmem hno⟩

end Session

open Session

/-- **The tracker holds what was inserted and not removed.** In every run in which no search meets a
call site with `2^31` addresses, the nodes hold exactly the recorded addresses, each with its size at
its call site; removals find exactly these, and no call faults or fails an assertion. -/
theorem tracker_tracks {es : List AllocOp} {s : Session}
    (hr : Run (fun s e s' => (s.Permitted e ∧ s.Fits e) ∧ s.step e = some s') Session.init es s) :
    s.Tracks := by
  have hrep : Represents s.tracker s.recorded := by
    induction hr with
    | nil => exact represents_init
    | snoc _ hstep ih =>
      obtain ⟨s', hs', h'⟩ := step_spec ih hstep.1.1 hstep.1.2
      obtain rfl := Option.some.inj (hstep.2.symm.trans hs')
      exact h'
  exact tracks_of_represents hrep

/-- The allocation of `size` bytes at `addr`, at line `line` of no file. -/
def allocAt (line : Int) (addr : Nat) (size : Int) : Alloc :=
  { file := none, func := none, line := line, addr := addr, size := size, atype := .malloc }

/-- Two call sites, one of which loses an address. -/
theorem tracker_tracks_two : ∃ s : Session, s.recorded = [(([], [], 8), 40, 5), (([], [], 7), 20, 3)] ∧
    s.Tracks := by
  have hfold : (List.foldlM (fun s e => if Permitted s e ∧ Fits s e then step s e else none)
      Session.init [.insert 1 1 (allocAt 7 10 4), .insert 2 2 (allocAt 7 20 3),
        .insert 3 3 (allocAt 8 40 5), .remove 10]).map (fun s => s.recorded) =
      some [(([], [], 8), 40, 5), (([], [], 7), 20, 3)] := by decide
  obtain ⟨s, hs, hrec⟩ := Option.map_eq_some_iff.mp hfold
  exact ⟨s, hrec, tracker_tracks (Run.ofFold _ _ _ _ hs)⟩

/-! ## A call site of `2^31 + 1` addresses -/

/-- One call site can be filled, since insertions do not search for addresses. -/
theorem fill_site {n : Nat} (hn : n ≤ 2 ^ 31 + 1) : ∃ es s,
    Run (fun s e s' => s.Permitted e ∧ s.step e = some s') Session.init es s ∧
      Represents s.tracker s.recorded ∧ s.recorded.length = n ∧
      ∀ r ∈ s.recorded, r.1 = ([], [], 7) ∧ 0 < r.2.1 ∧ r.2.1 ≤ n := by
  induction n with
  | zero => exact ⟨[], _, .nil, represents_init, rfl, fun r hr => (nomatch hr)⟩
  | succ n ih =>
    obtain ⟨es, s, hrun, h, hlen, hall⟩ := ih (by omega)
    obtain ⟨new, hnew⟩ := exists_fresh s.tracker.nodes
    obtain ⟨bucket, hbucket⟩ := exists_fresh s.tracker.hash.buckets
    have hp : s.Permitted (.insert new bucket (allocAt 7 (n + 1) 1)) := by
      refine ⟨⟨fun f hf => (nomatch hf), fun f hf => (nomatch hf)⟩, (nomatch ·), fun hmem => ?_, hnew, hbucket⟩
      obtain ⟨r, hr, heq⟩ := List.mem_map.mp hmem
      have hle := (hall r hr).2.2
      have haddr : r.2.1 = n + 1 := heq
      omega
    have hf : s.Fits (.insert new bucket (allocAt 7 (n + 1) 1)) := by
      have hle : s.siteCount (allocSite (allocAt 7 (n + 1) 1)) ≤ s.recorded.length := List.countP_le_length
      show _ + 1 < 2 ^ 32
      omega
    obtain ⟨s', hstep, h'⟩ := step_spec h hp hf
    have hrec : s'.recorded = (([], [], 7), n + 1, 1) :: s.recorded := by
      obtain ⟨r, -, hr⟩ := Option.map_eq_some_iff.mp hstep
      rw [← hr]
      rfl
    refine ⟨_, s', hrun.snoc ⟨hp, hstep⟩, h', by rw [hrec, List.length_cons, hlen], ?_⟩
    rw [hrec]
    rintro r (_ | ⟨_, hr⟩)
    · exact ⟨rfl, Nat.succ_pos n, Nat.le_refl _⟩
    · obtain ⟨hsite, hpos, hle⟩ := hall r hr
      exact ⟨hsite, hpos, by omega⟩

/-- After `2^31 + 1` insertions at one call site, removing an address that is not recorded has no result:
the search counts past `INT_MAX` before it has read the last entry. -/
theorem tracker_remove_faults : ∃ es s,
    Run (fun s e s' => s.Permitted e ∧ s.step e = some s') Session.init es s ∧
      s.recorded.length = 2 ^ 31 + 1 ∧ 0 ∉ s.addresses ∧ allocNodeRemove2 s.tracker 0 = none := by
  obtain ⟨es, s, hrun, h, hlen, hall⟩ := fill_site (Nat.le_refl (2 ^ 31 + 1))
  have hno : 0 ∉ s.addresses := fun hmem => by
    obtain ⟨r, hr, heq⟩ := List.mem_map.mp hmem
    have hpos := (hall r hr).2.1
    have hzero : r.2.1 = 0 := heq
    omega
  have hne : s.recorded ≠ [] := fun hnil => by
    rw [hnil] at hlen
    exact absurd hlen (by decide)
  refine ⟨es, s, hrun, hlen, hno, remove_overflow h hne (fun p node hnode => ?_) hno⟩
  -- every node is that of the one call site
  obtain ⟨x, hsite⟩ := (h.sound hnode).site
  have hcount := h.count_eq hnode hsite
  obtain ⟨r, hr, hrx⟩ := List.countP_pos_iff.mp (hcount ▸ (h.sound hnode).pos)
  have hx : x = ([], [], 7) := (of_decide_eq_true hrx).symm.trans (hall r hr).1
  have hfull : s.recorded.countP (fun r => r.1 = x) = s.recorded.length :=
    List.countP_eq_length.mpr fun r hr => decide_eq_true ((hall r hr).1.trans hx.symm)
  rw [hcount, hfull, hlen]
  decide

end Xtrace2
end Xlibc
