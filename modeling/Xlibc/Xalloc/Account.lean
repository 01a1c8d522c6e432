import Xlibc.Base.Run
import Xlibc.Xalloc.Hooks
import Xlibc.Xtrace2.Correct

/-!
# Xlibc.Xalloc.Account

The bytes that the tracker reports against those that are allocated, over whole runs of calls. What a
call records and what it requests are its `entry`; the two differ in `memcheck_calloc`, which records
the size of one element, and in `memcheck_strdup`, which leaves out the terminating zero.

* `call_effect` : a call that returns does the same to the records and to the blocks, but for its entry.
* `tracker_balanced_iff` : the sums agree all along a run exactly if every call records what it requests.
-/

namespace Xlibc
namespace Xalloc

open Xtrace2

inductive Call where
  | malloc (g : Grant) (c : Caller) (size : Nat)
  | zalloc (g : Grant) (c : Caller) (size : Nat)
  | calloc (g : Grant) (c : Caller) (n size : Nat)
  | realloc (g : Grant) (c : Caller) (ptr size : Nat)
  | strdup (g : Grant) (c : Caller) (str : CString)
  | free (ptr : Nat)

namespace Memory

def addresses (m : Memory) : List Nat := m.blocks.map Prod.fst

def step (m : Memory) : Call → Option Memory
  | .malloc g c size => memcheckMalloc m g c size
  | .zalloc g c size => memcheckZalloc m g c size
  | .calloc g c n size => memcheckCalloc m g c n size
  | .realloc g c ptr size => memcheckRealloc m g c ptr size
  | .strdup g c str => memcheckStrdup m g c str
  | .free ptr => memcheckFree m ptr

/-- Requests are below `2^31` bytes, and only live blocks are reallocated and freed. A block may be
reallocated in its place, and the tracker may get the blocks that it has just freed. -/
def Permitted (m : Memory) : Call → Prop
  | .malloc g _ size | .zalloc g _ size => g.p ∉ m.addresses ∧ Fresh m.tracker g ∧ size < 2 ^ 31
  | .calloc g _ n size => g.p ∉ m.addresses ∧ Fresh m.tracker g ∧ n * size < 2 ^ 31
  | .strdup g _ str => g.p ∉ m.addresses ∧ Fresh m.tracker g ∧ str.val.length + 1 < 2 ^ 31
  | .realloc g _ ptr size => ptr ∈ m.addresses ∧ (g.p ≠ ptr → g.p ∉ m.addresses) ∧
    (∀ t ∈ removeHook m.tracker ptr, Fresh t g) ∧ size < 2 ^ 31
  | .free ptr => ptr ∈ m.addresses

instance (m : Memory) : DecidablePred m.Permitted
  | .malloc _ _ _ | .zalloc _ _ _ | .calloc _ _ _ _ | .strdup _ _ _ =>
    inferInstanceAs (Decidable (_ ∧ _ ∧ _))
  | .realloc _ _ _ _ => inferInstanceAs (Decidable (_ ∧ (_ → _) ∧ (∀ _ ∈ _, _) ∧ _))
  | .free _ => inferInstanceAs (Decidable (_ ∈ _))

def Step (m : Memory) (e : Call) (m' : Memory) : Prop := m.Permitted e ∧ m.step e = some m'

/-- The sum of the sizes in the table is the number of bytes requested for the live blocks. -/
def Balanced (m : Memory) : Prop :=
  ((held m.tracker).map fun r => r.2.2).sum = (m.blocks.map Prod.snd).sum

end Memory

namespace Call

/-- A call that records what it requests: no `xstrdup`, and for several elements only such as have no
bytes. -/
def Agrees : Call → Prop
  | .calloc _ _ n size => n * size = u32 size
  | .strdup _ _ _ => False
  | _ => True

/-- The block that a call allocates, the size that it records and the bytes that it requests. -/
def entry : Call → Option (Nat × Nat × Nat)
  | .malloc g _ size | .zalloc g _ size | .realloc g _ _ size => some (g.p, u32 size, size)
  | .calloc g _ n size => some (g.p, u32 size, n * size)
  | .strdup g _ str => some (g.p, u32 str.val.length, str.val.length + 1)
  | .free _ => none

def recorded (e : Call) : List (Nat × Nat) := (e.entry.map fun x => (x.1, x.2.1)).toList

def requested (e : Call) : List (Nat × Nat) := (e.entry.map fun x => (x.1, x.2.2)).toList

/-- What a call leaves of the entries there are. -/
def kept : Call → List (Nat × Nat) → List (Nat × Nat)
  | .realloc _ _ ptr _, l | .free ptr, l => l.filter fun b => b.1 ≠ ptr
  | .malloc _ _ _, l | .zalloc _ _ _, l | .calloc _ _ _ _, l | .strdup _ _ _, l => l

variable {e : Call} {l l' : List (Nat × Nat)}

theorem kept_perm (h : l.Perm l') : (e.kept l).Perm (e.kept l') := by
  cases e with
  | realloc g c ptr size => exact h.filter _
  | free ptr => exact h.filter _
  | malloc | zalloc | calloc | strdup => exact h

theorem kept_fst (h : (l.map Prod.fst).Perm (l'.map Prod.fst)) :
    ((e.kept l).map Prod.fst).Perm ((e.kept l').map Prod.fst) := by
  have hfilter : ∀ (ptr : Nat) (xs : List (Nat × Nat)),
      (xs.filter fun b => b.1 ≠ ptr).map Prod.fst = (xs.map Prod.fst).filter fun a => a ≠ ptr := by
    intro ptr xs
    rw [List.filter_map]
    rfl
  cases e with
  | realloc g c ptr size =>
    rw [kept, kept, hfilter, hfilter]
    exact h.filter _
  | free ptr =>
    rw [kept, kept, hfilter, hfilter]
    exact h.filter _
  | malloc | zalloc | calloc | strdup => exact h

/-- A call agrees if its entry does. -/
theorem agrees_iff {m : Memory} (hp : m.Permitted e) : e.Agrees ↔ ∀ x ∈ e.entry, x.2.1 = x.2.2 := by
  have hself : ∀ size, size < 2 ^ 31 → u32 size = size := fun size h => u32_of_lt (by omega)
  cases e with
  | malloc g c size => simp [Agrees, entry, hself size hp.2.2]
  | zalloc g c size => simp [Agrees, entry, hself size hp.2.2]
  | realloc g c ptr size => simp [Agrees, entry, hself size hp.2.2.2]
  | calloc g c n size => simp [Agrees, entry, eq_comm]
  | strdup g c str =>
    have hlen : str.val.length < 2 ^ 31 := by
      have := hp.2.2
      omega
    simp [Agrees, entry, hself _ hlen]
  | free ptr => simp [Agrees, entry]

end Call

/-! ## One call -/

section Effect

variable {R : List Record} {m m' : Memory} {e : Call}

theorem without_snd (R : List Record) (ptr : Nat) :
    (without R ptr).map Prod.snd = (R.map Prod.snd).filter fun b => b.1 ≠ ptr := by
  rw [List.filter_map]
  rfl

/-- The tracker represents `R`, whose addresses are those of the live blocks. -/
structure Kept (m : Memory) (R : List Record) : Prop where
  represents : Represents m.tracker R
  counted : Counted R
  addresses : ((R.map Prod.snd).map Prod.fst).Perm m.addresses

/-- The records of the tracker and the live blocks change alike, but for what the call records and
requests. -/
structure Effect (m m' : Memory) (R R' : List Record) (e : Call) : Prop where
  represents : Represents m'.tracker R'
  counted : Counted R'
  records : R'.map Prod.snd = e.recorded ++ e.kept (R.map Prod.snd)
  blocks : m'.blocks = e.requested ++ e.kept m.blocks

theorem Kept.notMem (h : Kept m R) {p : Nat} (hp : p ∉ m.addresses) : p ∉ R.map fun r => r.2.1 := by
  intro hmem
  refine hp (h.addresses.mem_iff.mp ?_)
  rw [List.map_map]
  exact hmem

theorem memcheckAlloc_effect {g : Grant} {c : Caller} {type : AllocType} {bytes size : Nat} (h : Kept m R)
    (hp : g.p ∉ m.addresses) (hf : Fresh m.tracker g)
    (hr : memcheckAlloc type bytes size m g c = some m') :
    ∃ R', Represents m'.tracker R' ∧ Counted R' ∧ R'.map Prod.snd = (g.p, u32 size) :: R.map Prod.snd ∧
      m'.blocks = (g.p, bytes) :: m.blocks := by
  rw [memcheckAlloc] at hr
  split at hr
  · cases hr
  obtain ⟨t, hins, hr⟩ := Option.bind_eq_some_iff.mp hr
  cases hr
  obtain ⟨hrep, hcount⟩ := insertHook_returns h.represents h.counted (h.notMem hp) hf hins
  exact ⟨_, hrep, hcount, rfl, rfl⟩

theorem memcheckRealloc_effect {g : Grant} {c : Caller} {ptr size : Nat} (h : Kept m R)
    (hp : m.Permitted (.realloc g c ptr size)) (hr : memcheckRealloc m g c ptr size = some m') :
    ∃ R', Effect m m' R R' (.realloc g c ptr size) := by
  obtain ⟨-, hpos, hfresh, -⟩ := hp
  rw [memcheckRealloc] at hr
  split at hr
  · cases hr
  obtain ⟨t, hrem, hr⟩ := Option.bind_eq_some_iff.mp hr
  obtain ⟨t', hins, hr⟩ := Option.bind_eq_some_iff.mp hr
  cases hr
  have hcount := h.counted.sublist (List.filter_sublist (p := fun r => r.2.1 ≠ ptr))
  have hout := notMem_without fun hmoved => h.notMem (hpos hmoved)
  obtain ⟨hrep, hcount'⟩ :=
    insertHook_returns (removeHook_returns h.represents hrem) hcount hout (hfresh t hrem) hins
  refine ⟨_, hrep, hcount', ?_, rfl⟩
  rw [List.map_cons, without_snd]
  rfl

/-- A call that returns does the same to the records and to the blocks, but for its entry. -/
theorem call_effect (h : Kept m R) (hs : m.Step e m') : ∃ R', Effect m m' R R' e := by
  obtain ⟨hp, hr⟩ := hs
  cases e with
  | malloc g c size =>
    obtain ⟨R', hrep, hcount, hrec, hblocks⟩ := memcheckAlloc_effect h hp.1 hp.2.1 hr
    exact ⟨R', hrep, hcount, hrec, hblocks⟩
  | zalloc g c size =>
    obtain ⟨R', hrep, hcount, hrec, hblocks⟩ := memcheckAlloc_effect h hp.1 hp.2.1 hr
    exact ⟨R', hrep, hcount, hrec, hblocks⟩
  | calloc g c n size =>
    obtain ⟨R', hrep, hcount, hrec, hblocks⟩ := memcheckAlloc_effect h hp.1 hp.2.1 hr
    exact ⟨R', hrep, hcount, hrec, hblocks⟩
  | strdup g c str =>
    obtain ⟨R', hrep, hcount, hrec, hblocks⟩ := memcheckAlloc_effect h hp.1 hp.2.1 hr
    exact ⟨R', hrep, hcount, hrec, hblocks⟩
  | realloc g c ptr size => exact memcheckRealloc_effect h hp hr
  | free ptr =>
    obtain ⟨t, hrem, hr⟩ := Option.bind_eq_some_iff.mp hr
    cases hr
    exact ⟨_, removeHook_returns h.represents hrem, h.counted.sublist List.filter_sublist,
      without_snd R ptr, rfl⟩

variable {R' : List Record}

theorem Effect.kept (h : Kept m R) (he : Effect m m' R R' e) : Kept m' R' := by
  refine ⟨he.represents, he.counted, ?_⟩
  have hentry : e.recorded.map Prod.fst = e.requested.map Prod.fst := by
    rw [Call.recorded, Call.requested]
    cases e.entry <;> rfl
  rw [he.records, Memory.addresses, he.blocks, List.map_append, List.map_append, hentry]
  exact (Call.kept_fst h.addresses).append_left _

theorem balanced_iff (h : Represents m.tracker R) :
    m.Balanced ↔ ((R.map Prod.snd).map Prod.snd).sum = (m.blocks.map Prod.snd).sum := by
  have hsum : ((held m.tracker).map fun r => r.2.2).sum = ((R.map Prod.snd).map Prod.snd).sum := by
    rw [List.map_map]
    exact (h.held_perm.map _).sum_nat
  rw [Memory.Balanced, hsum]

/-- Where each block is recorded with its size, that stays so after a call that agrees. -/
theorem Effect.perm (he : Effect m m' R R' e) (hperm : (R.map Prod.snd).Perm m.blocks)
    (hentry : ∀ x ∈ e.entry, x.2.1 = x.2.2) : (R'.map Prod.snd).Perm m'.blocks := by
  have hsame : e.recorded = e.requested := by
    rw [Call.recorded, Call.requested]
    cases hx : e.entry with
    | none => rfl
    | some x => simp [hentry x hx]
  rw [he.records, he.blocks, hsame]
  exact (Call.kept_perm hperm).append_left _

/-- And the sums differ after one that does not. -/
theorem Effect.entry_of_balanced (he : Effect m m' R R' e) (hperm : (R.map Prod.snd).Perm m.blocks)
    (hb : m'.Balanced) : ∀ x ∈ e.entry, x.2.1 = x.2.2 := by
  intro x hx
  have hkept := ((Call.kept_perm (e := e) hperm).map Prod.snd).sum_nat
  rw [balanced_iff he.represents, he.records, he.blocks, Call.recorded, Call.requested,
    Option.mem_def.mp hx] at hb
  simp only [Option.map_some, Option.toList_some, List.singleton_append, List.map_cons,
    List.sum_cons] at hb
  omega

end Effect

/-! ## Runs -/

section Runs

variable {m : Memory} {es : List Call}

theorem init_kept : Kept Memory.init [] :=
  ⟨Session.represents_init, fun _ => by simp, .nil⟩

/-- After calls that agree, each block is recorded with its size. -/
theorem kept_of_run (hr : Run Memory.Step Memory.init es m) :
    ∃ R, Kept m R ∧ ((∀ e ∈ es, e.Agrees) → (R.map Prod.snd).Perm m.blocks) := by
  induction hr with
  | nil => exact ⟨[], init_kept, fun _ => .nil⟩
  | snoc _ hs ih =>
    obtain ⟨R, hk, hperm⟩ := ih
    obtain ⟨R', he⟩ := call_effect hk hs
    refine ⟨R', he.kept hk, ?_⟩
    intro hall
    refine he.perm (hperm fun e hmem => hall e (by simp [hmem])) ?_
    exact (Call.agrees_iff hs.1).mp (hall _ (by simp))

theorem balanced_of_run (hr : Run Memory.Step Memory.init es m) (hall : ∀ e ∈ es, e.Agrees) :
    m.Balanced := by
  obtain ⟨R, hk, hperm⟩ := kept_of_run hr
  exact (balanced_iff hk.represents).mpr ((hperm hall).map _).sum_nat

end Runs

/-- **The sums agree exactly where no call records another size than it requests.** In a run of any
calls: all along it the sizes in the table add up to the bytes requested for the live blocks if and
only if it has no `xstrdup`, and no `memcheck_calloc` with `n * size` bytes other than `size`. -/
theorem tracker_balanced_iff {es : List Call} {m : Memory} (hr : Run Memory.Step Memory.init es m) :
    (∀ es' m', es' <+: es → Run Memory.Step Memory.init es' m' → m'.Balanced) ↔ ∀ e ∈ es, e.Agrees := by
  constructor
  · intro hall
    induction hr with
    | nil => simp
    | snoc hr hs ih =>
      have hbefore := ih fun es' m' hpre => hall es' m' (hpre.trans (List.prefix_append _ _))
      obtain ⟨R, hk, hperm⟩ := kept_of_run hr
      obtain ⟨R', he⟩ := call_effect hk hs
      have hb := hall _ _ (List.prefix_refl _) (hr.snoc hs)
      have hlast := (Call.agrees_iff hs.1).mpr (he.entry_of_balanced (hperm hbefore) hb)
      intro e hmem
      rcases List.mem_append.mp hmem with hmem | hmem
      · exact hbefore e hmem
      · rw [List.mem_singleton.mp hmem]
        exact hlast
  · intro hall es' m' hpre hr'
    exact balanced_of_run hr' fun e hmem => hall e (hpre.subset hmem)

theorem tracker_balanced_realloc : ∃ m : Memory, m.blocks = [(80, 8), (64, 20)] ∧ m.Balanced := by
  have hfold : (List.foldlM (fun m e => if Memory.Permitted m e then Memory.step m e else none) Memory.init
      [.malloc ⟨64, 1, 1⟩ (atLine 7) 10, .zalloc ⟨72, 2, 2⟩ (atLine 8) 5,
        .realloc ⟨64, 1, 1⟩ (atLine 9) 64 20, .free 72, .calloc ⟨80, 2, 2⟩ (atLine 9) 1 8]).map
      (fun m => m.blocks) = some [(80, 8), (64, 20)] := by decide
  obtain ⟨m, hm, hblocks⟩ := Option.map_eq_some_iff.mp hfold
  have hr : Run Memory.Step Memory.init _ m := Run.ofFold _ _ _ _ hm
  exact ⟨m, hblocks, (tracker_balanced_iff hr).mpr (by simp [Call.Agrees, u32]) _ m (List.prefix_refl _) hr⟩

/-- Four elements of 8 bytes are recorded as 8 bytes. -/
theorem tracker_calloc_short : ∃ m, Run Memory.Step Memory.init [.calloc ⟨64, 1, 1⟩ (atLine 7) 4 8] m ∧
    m.blocks = [(64, 32)] ∧ (held m.tracker).map (fun r => r.2) = [(64, 8)] ∧ ¬ m.Balanced := by
  have hfold : (List.foldlM (fun m e => if Memory.Permitted m e then Memory.step m e else none) Memory.init
      [.calloc ⟨64, 1, 1⟩ (atLine 7) 4 8]).map
      (fun m => (m.blocks, (held m.tracker).map fun r => r.2)) = some ([(64, 32)], [(64, 8)]) := by decide
  obtain ⟨m, hm, hrec⟩ := Option.map_eq_some_iff.mp hfold
  simp only [Prod.mk.injEq] at hrec
  obtain ⟨hblocks, hheld⟩ := hrec
  refine ⟨m, Run.ofFold _ _ _ _ hm, hblocks, hheld, ?_⟩
  intro hb
  have hsum : ((held m.tracker).map fun r => r.2.2) = [8] := by
    have hsnd := congrArg (List.map Prod.snd) hheld
    rw [List.map_map] at hsnd
    exact hsnd
  rw [Memory.Balanced, hsum, hblocks] at hb
  simp at hb

end Xalloc
end Xlibc
