import Xlibc.Base.Run
import Xlibc.Xalloc.Hooks
import Xlibc.Xtrace2.Correct

/-!
# Xlibc.Xalloc.Threads

`xmalloc` and `xfree` in any number of threads. Each is two atomic steps: `memcheck_malloc` allocates
and then inserts, `memcheck_free` frees and then removes, and the tracker's lock makes the second step
of each one step. `inside` holds what a thread that is between the two steps still has to do.

* `step_inv` : while no address is granted whose removal is pending, every address has one holder, and
  the records are those of the live blocks and of the pending removals.
* `tracker_exact` : in such a run the records are those of the live blocks whenever no thread is inside.
* `tracker_misfiles` : otherwise a removal may take out the record of another thread's block.
-/

namespace Xlibc
namespace Xalloc

open Xtrace2

/-- A thread inside an operation: `memcheck_malloc` has got the block `p`, or `memcheck_free` has freed
it. -/
inductive Phase where
  | inserting (c : Caller) (p size : Nat)
  | removing (p : Nat)
  deriving DecidableEq

def Phase.addr : Phase → Nat
  | .inserting _ p _ => p
  | .removing p => p

/-- The tracker, the allocated blocks, those of them that an `xmalloc` has returned, with its call
site, and the threads inside an operation. -/
structure Threads where
  tracker : Tracker
  blocks : List Nat
  live : List (Nat × Site)
  inside : Store Phase

inductive Action where
  | malloc (tid : Nat) (c : Caller) (p size : Nat)
  | insert (tid new bucket : Nat)
  | free (tid p : Nat)
  | remove (tid : Nat)

namespace Threads

def init : Threads := { tracker := xallocHashCreate, blocks := [], live := [], inside := ∅ }

def addresses (s : Threads) : List Nat := s.live.map Prod.fst

/-- `alloc_node_insert2` and the return of `memcheck_malloc` -/
def finishMalloc (s : Threads) (tid new bucket : Nat) : Phase → Option Threads
  | .inserting c p size => do
    let t ← insertHook s.tracker { p := p, new := new, bucket := bucket } c size .malloc
    some { s with tracker := t, live := (p, c.site) :: s.live, inside := s.inside.erase tid }
  | .removing _ => none

/-- `alloc_node_remove2` and the return of `memcheck_free` -/
def finishFree (s : Threads) (tid : Nat) : Phase → Option Threads
  | .inserting _ _ _ => none
  | .removing p => do
    let t ← removeHook s.tracker p
    some { s with tracker := t, inside := s.inside.erase tid }

def step (s : Threads) : Action → Option Threads
  | .malloc tid c p size =>
    some { s with blocks := p :: s.blocks, inside := s.inside.insert tid (.inserting c p size) }
  | .insert tid new bucket => (s.inside.lookup tid).bind (s.finishMalloc tid new bucket)
  | .free tid p =>
    some { s with
      blocks := s.blocks.erase p
      live := s.live.filter fun b => b.1 ≠ p
      inside := s.inside.insert tid (.removing p) }
  | .remove tid => (s.inside.lookup tid).bind (s.finishFree tid)

/-- A thread starts an operation when it is in none. `malloc` may return any address that is not
allocated, and only live blocks are freed. -/
def Permitted (s : Threads) : Action → Prop
  | .malloc tid _ p _ => s.inside.lookup tid = none ∧ p ≠ 0 ∧ p ∉ s.blocks
  | .insert _ new bucket => s.tracker.nodes.lookup new = none ∧ s.tracker.hash.buckets.lookup bucket = none
  | .free tid p => s.inside.lookup tid = none ∧ p ∈ s.addresses
  | .remove _ => True

instance (s : Threads) : DecidablePred s.Permitted
  | .malloc _ _ _ _ => inferInstanceAs (Decidable (_ ∧ _ ∧ _))
  | .insert _ _ _ => inferInstanceAs (Decidable (_ ∧ _))
  | .free _ _ => inferInstanceAs (Decidable (_ ∧ _))
  | .remove _ => .isTrue trivial

def Step (s : Threads) (a : Action) (s' : Threads) : Prop := s.Permitted a ∧ s.step a = some s'

/-- `malloc` does not return an address that a thread has freed and still has to remove. -/
def Waits (s : Threads) : Action → Prop
  | .malloc _ _ p _ => ∀ tid, s.inside.lookup tid ≠ some (.removing p)
  | _ => True

instance (s : Threads) : DecidablePred s.Waits
  | .malloc _ _ p _ =>
    decidable_of_iff (∀ tid ∈ s.inside.keys, s.inside.lookup tid ≠ some (.removing p))
      ⟨fun h tid hl => h tid (AList.lookup_isSome.mp (by rw [hl]; rfl)) hl, fun h tid _ => h tid⟩
  | .insert _ _ _ | .free _ _ | .remove _ => .isTrue trivial

/-- No thread is inside an operation. -/
def Quiet (s : Threads) : Prop := ∀ tid, s.inside.lookup tid = none

/-- The table holds one record for each live block, at the call site that has allocated it. -/
structure Exact (s : Threads) : Prop where
  records : ((held s.tracker).map fun r => (r.2.1, r.1)).Perm s.live
  once : s.addresses.Nodup
  blocks : s.addresses.Perm s.blocks

end Threads

/-! ## Threads entering and leaving -/

/-- Each address has at most one holder: it is one of `live`, or one thread is inside an operation on
it. -/
def Apart (m : Store Phase) (live : List Nat) : Prop :=
  ∀ tid ph, m.lookup tid = some ph → ph.addr ∉ live ∧
    ∀ tid' ph', m.lookup tid' = some ph' → ph'.addr = ph.addr → tid' = tid

section Inside

variable {m : Store Phase} {tid tid' : Nat} {ph ph' : Phase} {live live' : List Nat}

theorem lookup_enter (h : (m.insert tid ph).lookup tid' = some ph') :
    tid' = tid ∧ ph' = ph ∨ m.lookup tid' = some ph' := by
  by_cases heq : tid' = tid
  · subst heq
    rw [AList.lookup_insert] at h
    exact .inl ⟨rfl, (Option.some.inj h).symm⟩
  · rw [AList.lookup_insert_ne heq] at h
    exact .inr h

theorem lookup_leave (h : (m.erase tid).lookup tid' = some ph') :
    tid' ≠ tid ∧ m.lookup tid' = some ph' := by
  by_cases heq : tid' = tid
  · subst heq
    rw [AList.lookup_erase] at h
    cases h
  · rw [AList.lookup_erase_ne heq] at h
    exact ⟨heq, h⟩

theorem keep_enter (hidle : m.lookup tid = none) (h : m.lookup tid' = some ph') :
    (m.insert tid ph).lookup tid' = some ph' := by
  have hne : tid' ≠ tid := by
    rintro rfl
    rw [hidle] at h
    cases h
  rw [AList.lookup_insert_ne hne]
  exact h

theorem keep_leave (hl : m.lookup tid = some ph) (hne : ph' ≠ ph) (h : m.lookup tid' = some ph') :
    (m.erase tid).lookup tid' = some ph' := by
  have htid : tid' ≠ tid := by
    rintro rfl
    exact hne (Option.some.inj (h.symm.trans hl))
  rw [AList.lookup_erase_ne htid]
  exact h

theorem Apart.mono (h : Apart m live) (hsub : live' ⊆ live) : Apart m live' := by
  intro tid ph hl
  obtain ⟨hout, hone⟩ := h tid ph hl
  exact ⟨fun hmem => hout (hsub hmem), hone⟩

/-- A thread takes an address that nobody holds. -/
theorem Apart.enter (h : Apart m live) (hout : ph.addr ∉ live)
    (hfree : ∀ tid' ph', m.lookup tid' = some ph' → ph'.addr ≠ ph.addr) :
    Apart (m.insert tid ph) live := by
  intro tid₁ ph₁ h₁
  rcases lookup_enter h₁ with ⟨rfl, rfl⟩ | hold
  · refine ⟨hout, fun tid₂ ph₂ h₂ heq => ?_⟩
    rcases lookup_enter h₂ with ⟨rfl, -⟩ | hold₂
    · rfl
    · exact absurd heq (hfree tid₂ ph₂ hold₂)
  · obtain ⟨hout₁, hone⟩ := h tid₁ ph₁ hold
    refine ⟨hout₁, fun tid₂ ph₂ h₂ heq => ?_⟩
    rcases lookup_enter h₂ with ⟨-, rfl⟩ | hold₂
    · exact absurd heq.symm (hfree tid₁ ph₁ hold)
    · exact hone tid₂ ph₂ hold₂ heq

/-- A thread leaves, and its address may become live. -/
theorem Apart.leave (h : Apart m live) (hl : m.lookup tid = some ph) :
    Apart (m.erase tid) (ph.addr :: live) := by
  intro tid₁ ph₁ h₁
  obtain ⟨hne, h₁⟩ := lookup_leave h₁
  obtain ⟨hout, hone⟩ := h tid₁ ph₁ h₁
  refine ⟨?_, fun tid₂ ph₂ h₂ heq => hone tid₂ ph₂ (lookup_leave h₂).2 heq⟩
  intro hmem
  rcases List.mem_cons.mp hmem with heq | hmem
  · exact hne (hone tid ph hl heq.symm).symm
  · exact hout hmem

end Inside

/-! ## The invariant -/

/-- The tracker represents `R`: the records of the live blocks, and those that threads still have to
remove. The allocated blocks are the live ones, and those that threads still have to insert. -/
structure Inv (s : Threads) (R : List Record) : Prop where
  represents : Represents s.tracker R
  counted : Counted R
  recorded : ∀ b ∈ s.live, ∃ size, (b.2, b.1, size) ∈ R
  only : ∀ r ∈ R, (r.2.1, r.1) ∈ s.live ∨ ∃ tid, s.inside.lookup tid = some (.removing r.2.1)
  once : s.addresses.Nodup
  nodup : s.blocks.Nodup
  allocated : ∀ p, p ∈ s.blocks ↔
    p ∈ s.addresses ∨ ∃ tid c size, s.inside.lookup tid = some (.inserting c p size)
  apart : Apart s.inside s.addresses

section Steps

variable {s s' : Threads} {R : List Record} {tid : Nat}

theorem init_inv : Inv Threads.init [] where
  represents := Session.represents_init
  counted x := by simp
  recorded b hb := nomatch hb
  only r hr := nomatch hr
  once := List.nodup_nil
  nodup := List.nodup_nil
  allocated p := by simp [Threads.init, Threads.addresses]
  apart tid ph h := by simp [Threads.init] at h

theorem malloc_inv (h : Inv s R) {c : Caller} {p size : Nat} (hidle : s.inside.lookup tid = none)
    (hp : p ∉ s.blocks) (hw : s.Waits (.malloc tid c p size)) :
    Inv { s with blocks := p :: s.blocks, inside := s.inside.insert tid (.inserting c p size) } R := by
  have hout : p ∉ s.addresses := fun hmem => hp ((h.allocated p).mpr (.inl hmem))
  have hfree : ∀ tid' ph, s.inside.lookup tid' = some ph → ph.addr ≠ p := by
    rintro tid' (⟨c', q, size'⟩ | q) hl rfl
    · exact hp ((h.allocated q).mpr (.inr ⟨tid', c', size', hl⟩))
    · exact hw tid' hl
  refine ⟨h.represents, h.counted, h.recorded, fun r hr => ?_, h.once,
    List.nodup_cons.mpr ⟨hp, h.nodup⟩, fun q => ?_, h.apart.enter hout hfree⟩
  · rcases h.only r hr with hlive | ⟨tid', hl⟩
    · exact .inl hlive
    · exact .inr ⟨tid', keep_enter hidle hl⟩
  · show q ∈ p :: s.blocks ↔ q ∈ s.addresses ∨ _
    rw [List.mem_cons, h.allocated]
    constructor
    · rintro (rfl | hq | ⟨tid', c', size', hl⟩)
      · exact .inr ⟨tid, c, size, AList.lookup_insert _⟩
      · exact .inl hq
      · exact .inr ⟨tid', c', size', keep_enter hidle hl⟩
    · rintro (hq | ⟨tid', c', size', hl⟩)
      · exact .inr (.inl hq)
      · rcases lookup_enter hl with ⟨-, heq⟩ | hl
        · cases heq
          exact .inl rfl
        · exact .inr (.inr ⟨tid', c', size', hl⟩)

theorem free_inv (h : Inv s R) {p : Nat} (hidle : s.inside.lookup tid = none) (hp : p ∈ s.addresses) :
    Inv { s with
      blocks := s.blocks.erase p
      live := s.live.filter fun b => b.1 ≠ p
      inside := s.inside.insert tid (.removing p) } R := by
  have hlive : (s.live.filter fun b => b.1 ≠ p).map Prod.fst = s.addresses.filter fun q => q ≠ p := by
    rw [Threads.addresses, List.filter_map]
    rfl
  have hfree : ∀ tid' ph, s.inside.lookup tid' = some ph → ph.addr ≠ p := by
    rintro tid' ph hl rfl
    exact (h.apart tid' ph hl).1 hp
  refine ⟨h.represents, h.counted, fun b hb => ?_, fun r hr => ?_, ?_, h.nodup.erase p, fun q => ?_, ?_⟩
  · exact h.recorded b (List.mem_filter.mp hb).1
  · rcases h.only r hr with hmem | ⟨tid', hl⟩
    · by_cases heq : r.2.1 = p
      · refine .inr ⟨tid, ?_⟩
        rw [heq]
        exact AList.lookup_insert _
      · exact .inl (List.mem_filter.mpr ⟨hmem, decide_eq_true heq⟩)
    · exact .inr ⟨tid', keep_enter hidle hl⟩
  · exact h.once.sublist (List.filter_sublist.map Prod.fst)
  · show q ∈ s.blocks.erase p ↔ q ∈ (s.live.filter fun b => b.1 ≠ p).map Prod.fst ∨ _
    rw [h.nodup.mem_erase_iff, hlive, List.mem_filter, decide_eq_true_iff, h.allocated]
    constructor
    · rintro ⟨hne, hq | ⟨tid', c, size, hl⟩⟩
      · exact .inl ⟨hq, hne⟩
      · exact .inr ⟨tid', c, size, keep_enter hidle hl⟩
    · rintro (⟨hq, hne⟩ | ⟨tid', c, size, hl⟩)
      · exact ⟨hne, .inl hq⟩
      · rcases lookup_enter hl with ⟨-, heq⟩ | hl
        · cases heq
        · exact ⟨hfree tid' _ hl, .inr ⟨tid', c, size, hl⟩⟩
  · show Apart _ ((s.live.filter fun b => b.1 ≠ p).map Prod.fst)
    rw [hlive]
    refine (h.apart.mono List.filter_sublist.subset).enter ?_ hfree
    simp [Phase.addr]

/-- What is inserted is not recorded yet. -/
theorem Inv.new_record (h : Inv s R) {c : Caller} {p size : Nat}
    (hl : s.inside.lookup tid = some (.inserting c p size)) : p ∉ R.map fun r => r.2.1 := by
  intro hmem
  obtain ⟨r, hr, rfl⟩ := List.mem_map.mp hmem
  obtain ⟨hout, hone⟩ := h.apart tid _ hl
  rcases h.only r hr with hlive | ⟨tid', hl'⟩
  · exact hout (List.mem_map_of_mem (f := Prod.fst) hlive)
  · obtain rfl := hone tid' _ hl' rfl
    rw [hl] at hl'
    cases hl'

theorem finishMalloc_inv (h : Inv s R) {new bucket : Nat} {ph : Phase}
    (hp : s.Permitted (.insert tid new bucket)) (hl : s.inside.lookup tid = some ph)
    (hr : s.finishMalloc tid new bucket ph = some s') : ∃ R', Inv s' R' := by
  cases ph with
  | removing p => cases hr
  | inserting c p size =>
    obtain ⟨t, hins, hr⟩ := Option.bind_eq_some_iff.mp hr
    cases hr
    have hfresh : Fresh s.tracker { p := p, new := new, bucket := bucket } := hp
    obtain ⟨hrep, hcount⟩ := insertHook_returns h.represents h.counted (h.new_record hl) hfresh hins
    refine ⟨_, hrep, hcount, fun b hb => ?_, fun r hr => ?_,
      List.nodup_cons.mpr ⟨(h.apart tid _ hl).1, h.once⟩, h.nodup, fun q => ?_, h.apart.leave hl⟩
    · rcases List.mem_cons.mp hb with rfl | hb
      · exact ⟨u32 size, List.mem_cons_self⟩
      · obtain ⟨n, hmem⟩ := h.recorded b hb
        exact ⟨n, List.mem_cons_of_mem _ hmem⟩
    · rcases List.mem_cons.mp hr with rfl | hr
      · exact .inl List.mem_cons_self
      · rcases h.only r hr with hmem | ⟨tid', hl'⟩
        · exact .inl (List.mem_cons_of_mem _ hmem)
        · exact .inr ⟨tid', keep_leave hl (by simp) hl'⟩
    · show q ∈ s.blocks ↔ q ∈ p :: s.addresses ∨ _
      rw [List.mem_cons, h.allocated]
      constructor
      · rintro (hq | ⟨tid', c', size', hl'⟩)
        · exact .inl (.inr hq)
        · by_cases heq : q = p
          · exact .inl (.inl heq)
          · exact .inr ⟨tid', c', size', keep_leave hl (by simp [heq]) hl'⟩
      · rintro ((rfl | hq) | ⟨tid', c', size', hl'⟩)
        · exact .inr ⟨tid, c, size, hl⟩
        · exact .inl hq
        · exact .inr ⟨tid', c', size', (lookup_leave hl').2⟩

theorem finishFree_inv (h : Inv s R) {ph : Phase} (hl : s.inside.lookup tid = some ph)
    (hr : s.finishFree tid ph = some s') : ∃ R', Inv s' R' := by
  cases ph with
  | inserting c p size => cases hr
  | removing p =>
    obtain ⟨t, hrem, hr⟩ := Option.bind_eq_some_iff.mp hr
    cases hr
    refine ⟨_, removeHook_returns h.represents hrem, h.counted.sublist List.filter_sublist, fun b hb => ?_,
      fun r hr => ?_, h.once, h.nodup, fun q => ?_, (h.apart.leave hl).mono (List.subset_cons_self _ _)⟩
    · obtain ⟨n, hmem⟩ := h.recorded b hb
      have hne : b.1 ≠ p := by
        rintro rfl
        exact (h.apart tid _ hl).1 (List.mem_map_of_mem (f := Prod.fst) hb)
      exact ⟨n, List.mem_filter.mpr ⟨hmem, decide_eq_true hne⟩⟩
    · obtain ⟨hr, hne⟩ := List.mem_filter.mp hr
      rcases h.only r hr with hmem | ⟨tid', hl'⟩
      · exact .inl hmem
      · have hph : Phase.removing r.2.1 ≠ .removing p := by simpa using hne
        exact .inr ⟨tid', keep_leave hl hph hl'⟩
    · show q ∈ s.blocks ↔ q ∈ s.addresses ∨ _
      rw [h.allocated]
      refine or_congr_right (exists_congr fun tid' => exists_congr fun c => exists_congr fun size => ?_)
      exact ⟨keep_leave hl (by simp), fun hl' => (lookup_leave hl').2⟩

theorem step_inv {a : Action} (h : Inv s R) (hs : s.Step a s') (hw : s.Waits a) : ∃ R', Inv s' R' := by
  obtain ⟨hp, hr⟩ := hs
  cases a with
  | malloc tid c p size =>
    cases hr
    exact ⟨R, malloc_inv h hp.1 hp.2.2 hw⟩
  | insert tid new bucket =>
    obtain ⟨ph, hl, hr⟩ := Option.bind_eq_some_iff.mp hr
    exact finishMalloc_inv h hp hl hr
  | free tid p =>
    cases hr
    exact ⟨R, free_inv h hp.1 hp.2⟩
  | remove tid =>
    obtain ⟨ph, hl, hr⟩ := Option.bind_eq_some_iff.mp hr
    exact finishFree_inv h hl hr

theorem Inv.exact_of_quiet (h : Inv s R) (hq : s.Quiet) : s.Exact := by
  have haddrs : (R.map fun r => r.2.1).Nodup := by
    obtain ⟨-, -, -, hnd⟩ := h.represents
    exact hnd
  have hR : (R.map fun r => (r.2.1, r.1)).Nodup := by
    refine List.Nodup.of_map Prod.fst ?_
    rw [List.map_map]
    exact haddrs
  refine ⟨(h.represents.held_perm.map _).trans ?_, h.once, ?_⟩
  · refine (List.perm_ext_iff_of_nodup hR (List.Nodup.of_map Prod.fst h.once)).mpr ?_
    rintro ⟨p, x⟩
    constructor
    · intro hmem
      obtain ⟨r, hr, heq⟩ := List.mem_map.mp hmem
      rcases h.only r hr with hlive | ⟨tid, hl⟩
      · rw [← heq]
        exact hlive
      · rw [hq tid] at hl
        cases hl
    · intro hmem
      obtain ⟨size, hr⟩ := h.recorded _ hmem
      exact List.mem_map.mpr ⟨_, hr, rfl⟩
  · refine (List.perm_ext_iff_of_nodup h.once h.nodup).mpr fun p => ?_
    rw [h.allocated]
    refine ⟨.inl, ?_⟩
    rintro (hp | ⟨tid, c, size, hl⟩)
    · exact hp
    · rw [hq tid] at hl
      cases hl

end Steps

/-- **No address is reused before its removal.** In every run of any number of threads in which
`malloc` never returns an address that a thread has freed and still has to remove from the tracker,
whenever no thread is inside an operation the table holds exactly one record for each live address, at
the call site whose `xmalloc` has returned it, and none for any other. -/
theorem tracker_exact {as : List Action} {s : Threads}
    (hr : Run (fun s a s' => (s.Permitted a ∧ s.Waits a) ∧ s.step a = some s') Threads.init as s)
    (hq : s.Quiet) : s.Exact := by
  have hinv : ∃ R, Inv s R := by
    clear hq
    induction hr with
    | nil => exact ⟨[], init_inv⟩
    | snoc _ hs ih =>
      obtain ⟨R, h⟩ := ih
      exact step_inv h ⟨hs.1.1, hs.2⟩ hs.1.2
  obtain ⟨R, h⟩ := hinv
  exact h.exact_of_quiet hq

/-- Nobody is inside where no thread is listed. -/
theorem quiet_of_keys {s : Threads} (h : s.inside.keys = []) : s.Quiet := by
  intro tid
  refine AList.lookup_eq_none.mpr ?_
  intro hmem
  have hmem' : tid ∈ s.inside.keys := hmem
  rw [h] at hmem'
  cases hmem'

/-- Two threads at once, and an address that is granted again. -/
theorem tracker_exact_two : ∃ s : Threads, s.live = [(64, ([], [], 9)), (80, ([], [], 7))] ∧ s.Exact := by
  have hfold : (List.foldlM (fun s a => if Threads.Permitted s a ∧ Threads.Waits s a then Threads.step s a else none)
      Threads.init [.malloc 1 (atLine 8) 64 10, .malloc 2 (atLine 7) 80 5, .insert 1 1 1, .free 1 64,
        .insert 2 2 2, .remove 1, .malloc 2 (atLine 9) 64 20, .insert 2 1 1]).map
      (fun s => (s.live, s.inside.keys)) = some ([(64, ([], [], 9)), (80, ([], [], 7))], []) := by decide
  obtain ⟨s, hs, hrec⟩ := Option.map_eq_some_iff.mp hfold
  simp only [Prod.mk.injEq] at hrec
  exact ⟨s, hrec.1, tracker_exact (Run.ofFold _ _ _ _ hs) (quiet_of_keys hrec.2)⟩

/-- Thread 1 frees a block, thread 2 gets its address and inserts it, and then thread 1 removes the
record of thread 2. -/
theorem tracker_misfiles : ∃ as s, Run Threads.Step Threads.init as s ∧ s.Quiet ∧
    s.live = [(64, ([], [], 7))] ∧ held s.tracker = [(([], [], 8), 64, 10)] ∧ ¬ s.Exact := by
  have hfold : (List.foldlM (fun s a => if Threads.Permitted s a then Threads.step s a else none) Threads.init
      [.malloc 1 (atLine 8) 64 10, .insert 1 1 1, .free 1 64, .malloc 2 (atLine 7) 64 20, .insert 2 2 2,
        .remove 1]).map (fun s => (s.live, s.inside.keys, held s.tracker)) =
      some ([(64, ([], [], 7))], [], [(([], [], 8), 64, 10)]) := by decide
  obtain ⟨s, hs, hrec⟩ := Option.map_eq_some_iff.mp hfold
  simp only [Prod.mk.injEq] at hrec
  obtain ⟨hlive, hkeys, hheld⟩ := hrec
  refine ⟨_, s, Run.ofFold _ _ _ _ hs, quiet_of_keys hkeys, hlive, hheld, ?_⟩
  intro hex
  have hperm := hex.records
  rw [hheld, hlive] at hperm
  have heq := List.singleton_perm_singleton.mp hperm
  simp at heq

end Xalloc
end Xlibc
