import Xlibc.Xqueue.Correct

/-!
# Xlibc.Xqueue.Lock

The mutex of the queue. Each operation is given by what it does, in order, with `xqueue_rwlock`, with the
list and with its callback. `Guarded` is the discipline: starting with the mutex free, the list is
touched only while it is held, nothing is unlocked that is not locked, and it is free at the end.

`xqueue_enqueue` and `xqueue_dequeue` keep it. `xqueue_dump` and `xqueue_traverse` never do: their
`NULL` test ends in a `return` without a semicolon, so `xqueue_lock` is called for a `NULL` callback, just
before returning, and not called for a given one.
-/

namespace Xlibc
namespace Xqueue

variable {δ : Type}

inductive Action (δ : Type) where
  | lock
  | unlock
  | list
  | call (data : δ)
  deriving DecidableEq, Repr

/-- What becomes of the mutex, `held` or not. Locking it twice never returns; unlocking it while it
is free leaves it free. -/
def Action.mutex (held : Bool) : Action δ → Option Bool
  | .lock => if held then none else some true
  | .unlock => some false
  | .list => some held
  | .call _ => some held

/-- The same for a thread that keeps to the discipline. -/
def Action.guard (held : Bool) : Action δ → Option Bool
  | .lock => if held then none else some true
  | .unlock => if held then some false else none
  | .list => if held then some true else none
  | .call _ => some held

def Guarded (acts : List (Action δ)) : Prop := acts.foldlM Action.guard false = some false

instance (acts : List (Action δ)) : Decidable (Guarded acts) := inferInstanceAs (Decidable (_ = _))

/-! ## The operations -/

/-- `xqueue_enqueue`; `block` is what `malloc` returns. -/
def xqueueEnqueue (q : XQueue δ) (data : δ) (block : Option Nat) :
    Option (List (Action δ) × Int × XQueue δ) :=
  if q.isFull then some ([], -1, q)
  else match block with
  | none => some ([], -1, q)
  | some a => do
    let (num, q) ← (q.newQnode a data).enqueueLocked a
    some ([.lock, .list, .unlock], i32OfNat num, q.semPost)

/-- What `xqueue_dequeue` does with the mutex and the list. -/
def dequeueActions (q : XQueue δ) : List (Action δ) :=
  if q.qnodeNum = 0 then [.lock, .unlock] else [.lock, .list, .unlock]

/-- `xlist_for_each_entry` with a callback as its body. -/
def walkActions (l : List (Nat × δ)) : List (Action δ) :=
  .list :: l.flatMap fun e => [.call e.2, .list]

/-- The body of `xqueue_dump` and `xqueue_traverse`; `given` when the callback is not `NULL`. The call
behind `return` is its operand. -/
def walkBody (q : XQueue δ) (given : Bool) : Option (List (Action δ)) :=
  if given = false then some [.lock]
  else do
    let l ← q.nodes
    some (walkActions l ++ [.unlock])

/-- The queue with its mutex, and which callbacks it has. -/
structure Monitor (δ : Type) where
  queue : XQueue δ
  dump : Bool
  traverse : Bool
  held : Bool

inductive Op (δ : Type) where
  | enqueue (data : δ) (block : Option Nat)
  | dequeue
  | dump
  | traverse

/-- `xqueue_enqueue` and `xqueue_dequeue`. -/
def Op.managed : Op δ → Bool
  | .enqueue _ _ => true
  | .dequeue => true
  | .dump => false
  | .traverse => false

/-- `malloc` returns memory that is not in use. -/
def Op.Fresh (q : XQueue δ) : Op δ → Prop
  | .enqueue _ (some a) => q.data.lookup a = none
  | _ => True

instance (q : XQueue δ) : DecidablePred (Op.Fresh q)
  | .enqueue _ (some _) => inferInstanceAs (Decidable (_ = none))
  | .enqueue _ none => .isTrue trivial
  | .dequeue => .isTrue trivial
  | .dump => .isTrue trivial
  | .traverse => .isTrue trivial

namespace Monitor

/-- `xqueue_init` -/
def init (size : Int) (dump traverse : Bool) : Monitor δ :=
  { queue := xqueueInit size, dump := dump, traverse := traverse, held := false }

def xqueueDump (m : Monitor δ) : Option (List (Action δ)) := walkBody m.queue m.dump

def xqueueTraverse (m : Monitor δ) : Option (List (Action δ)) := walkBody m.queue m.traverse

/-- What an operation does, and the queue after it. -/
def perform (m : Monitor δ) : Op δ → Option (List (Action δ) × XQueue δ)
  | .enqueue data block => do
    let (acts, _, q) ← xqueueEnqueue m.queue data block
    some (acts, q)
  | .dequeue => do
    let (_, q) ← m.queue.xqueueDequeue
    some (dequeueActions m.queue, q)
  | .dump => do some (← m.xqueueDump, m.queue)
  | .traverse => do some (← m.xqueueTraverse, m.queue)

/-- An operation on the mutex as it is found. It has no result when it blocks. -/
def call (m : Monitor δ) (op : Op δ) : Option (Monitor δ) := do
  let (acts, q) ← m.perform op
  let held ← acts.foldlM Action.mutex m.held
  some { m with queue := q, held := held }

def Step (m : Monitor δ) (op : Op δ) (m' : Monitor δ) : Prop :=
  op.Fresh m.queue ∧ m.call op = some m'

end Monitor

/-! ## The discipline -/

theorem guard_mutex {held held' : Bool} {x : Action δ} (h : x.guard held = some held') :
    x.mutex held = some held' := by
  cases x with
  | lock => exact h
  | unlock => cases held <;> simp_all [Action.guard, Action.mutex]
  | list => cases held <;> simp_all [Action.guard, Action.mutex]
  | call data => exact h

/-- A disciplined thread sees the mutex as it expects it. -/
theorem guard_foldlM {acts : List (Action δ)} :
    ∀ {held held' : Bool}, acts.foldlM Action.guard held = some held' →
      acts.foldlM Action.mutex held = some held' := by
  induction acts with
  | nil => intro held held' h; exact h
  | cons x acts ih =>
    intro held held' h
    rw [List.foldlM_cons] at h ⊢
    cases hx : x.guard held with
    | none => rw [hx] at h; cases h
    | some mid =>
      rw [hx] at h
      rw [guard_mutex hx]
      exact ih h

/-- Whatever the callback and the list are, the walk is outside of the lock. -/
theorem walkBody_unguarded {q : XQueue δ} {given : Bool} {acts : List (Action δ)}
    (h : walkBody q given = some acts) : ¬ Guarded acts := by
  intro hg
  cases given with
  | false =>
    cases h
    cases hg
  | true =>
    obtain ⟨l, -, hl⟩ := Option.bind_eq_some_iff.mp h
    cases hl
    -- its first action reads the head
    cases hg

theorem walkBody_spec {q : XQueue δ} {l : List (Nat × δ)} (h : Holds q l) (given : Bool) :
    ∃ acts, walkBody q given = some acts := by
  cases given with
  | false => exact ⟨_, rfl⟩
  | true => exact ⟨_, by simp [walkBody, nodes_spec h]; rfl⟩

variable {m m' : Monitor δ} {l : List (Nat × δ)}

theorem semPost_holds {q : XQueue δ} (h : Holds q l) : Holds q.semPost l :=
  ⟨h.ring, h.num, h.data, h.links⟩

/-- Every operation leaves a well-formed queue, and the discipline is kept by the two that manage the
mutex, exactly. -/
theorem perform_spec (h : Holds m.queue l) {op : Op δ} (hf : op.Fresh m.queue) :
    ∃ acts q l', m.perform op = some (acts, q) ∧ Holds q l' ∧ (Guarded acts ↔ op.managed = true) := by
  cases op with
  | enqueue data block =>
    cases hfull : m.queue.isFull with
    | true =>
      exact ⟨[], m.queue, l, by simp [Monitor.perform, xqueueEnqueue, hfull], h,
        by simp [Guarded, Op.managed]⟩
    | false =>
      cases block with
      | none =>
        exact ⟨[], m.queue, l, by simp [Monitor.perform, xqueueEnqueue, hfull], h,
          by simp [Guarded, Op.managed]⟩
      | some a =>
        obtain ⟨num, q, henq, hq, -, -⟩ := enqueue_spec (d := data) h hf
        exact ⟨[.lock, .list, .unlock], q.semPost, _,
          by simp [Monitor.perform, xqueueEnqueue, hfull, henq], semPost_holds hq,
          by simp [Guarded, Op.managed]; rfl⟩
  | dequeue =>
    by_cases hnum : m.queue.qnodeNum = 0
    · exact ⟨[.lock, .unlock], m.queue, l,
        by simp [Monitor.perform, XQueue.xqueueDequeue, dequeueActions, hnum], h,
        by simp [Guarded, Op.managed]; rfl⟩
    · obtain ⟨a, d, l', q, -, hdeq, hq, -, -⟩ := dequeue_spec h hnum
      exact ⟨[.lock, .list, .unlock], q, l',
        by simp [Monitor.perform, hdeq, dequeueActions, hnum], hq,
        by simp [Guarded, Op.managed]; rfl⟩
  | dump =>
    obtain ⟨acts, hacts⟩ := walkBody_spec h m.dump
    exact ⟨acts, m.queue, l, by simp [Monitor.perform, Monitor.xqueueDump, hacts], h,
      by simp [walkBody_unguarded hacts, Op.managed]⟩
  | traverse =>
    obtain ⟨acts, hacts⟩ := walkBody_spec h m.traverse
    exact ⟨acts, m.queue, l, by simp [Monitor.perform, Monitor.xqueueTraverse, hacts], h,
      by simp [walkBody_unguarded hacts, Op.managed]⟩

theorem step_holds {op : Op δ} (h : Holds m.queue l) (hs : m.Step op m') : ∃ l', Holds m'.queue l' := by
  obtain ⟨acts, q, l', hperf, hq, -⟩ := perform_spec h hs.1
  have hcall := hs.2
  simp only [Monitor.call, hperf, Option.bind_eq_bind, Option.bind_some] at hcall
  obtain ⟨held, -, hm⟩ := Option.bind_eq_some_iff.mp hcall
  cases hm
  exact ⟨l', hq⟩

/-- An operation that manages the mutex returns, and gives it back. -/
theorem managed_call {op : Op δ} (h : Holds m.queue l) (hf : op.Fresh m.queue) (hop : op.managed = true)
    (hfree : m.held = false) : ∃ m', m.call op = some m' ∧ m'.held = false := by
  obtain ⟨acts, q, l', hperf, -, hg⟩ := perform_spec h hf
  have hmutex := guard_foldlM (hg.mpr hop)
  refine ⟨{ m with queue := q, held := false }, ?_, rfl⟩
  simp [Monitor.call, hperf, hfree, hmutex]

/-! ## Runs -/

theorem run_holds {ops : List (Op δ)} (h : Holds m.queue l) (hr : Run Monitor.Step m ops m') :
    ∃ l', Holds m'.queue l' := by
  refine hr.invariant (I := fun _ m' => ∃ l', Holds m'.queue l') ⟨l, h⟩ ?_
  intro _ _ _ _ _ ih hs
  obtain ⟨l', h'⟩ := ih
  exact step_holds h' hs

theorem run_free {ops : List (Op δ)} (h : Holds m.queue l) (hfree : m.held = false)
    (hr : Run Monitor.Step m ops m') (hops : ∀ op ∈ ops, op.managed = true) : m'.held = false := by
  induction hr with
  | nil => exact hfree
  | snoc hr hs ih =>
    obtain ⟨l', h'⟩ := run_holds h hr
    have hmid := ih fun op hop => hops op (List.mem_append_left _ hop)
    obtain ⟨m'', hcall, hheld⟩ := managed_call h' hs.1 (hops _ (by simp)) hmid
    have hcall' := hs.2
    rw [hcall] at hcall'
    cases hcall'
    exact hheld

/-- **The lock discipline.** After any run of the four operations on a well-formed queue, an operation
that finds the mutex free keeps to the discipline exactly when it is `xqueue_enqueue` or
`xqueue_dequeue`. A run of these two leaves the mutex free, and no later `xqueue_enqueue` blocks. -/
theorem xqueue_lock_discipline {ops : List (Op δ)} (h : ∃ l, Holds m.queue l) (hfree : m.held = false)
    (hr : Run Monitor.Step m ops m') :
    (∀ op : Op δ, op.Fresh m'.queue →
      ∃ acts q, m'.perform op = some (acts, q) ∧ (Guarded acts ↔ op.managed = true)) ∧
    ((∀ op ∈ ops, op.managed = true) → m'.held = false ∧
      ∀ data block, (Op.enqueue data block).Fresh m'.queue →
        ∃ m'', m'.Step (.enqueue data block) m'' ∧ m''.held = false) := by
  obtain ⟨l, hl⟩ := h
  obtain ⟨l', hl'⟩ := run_holds hl hr
  constructor
  · intro op hf
    obtain ⟨acts, q, -, hperf, -, hg⟩ := perform_spec hl' hf
    exact ⟨acts, q, hperf, hg⟩
  · intro hops
    have hheld := run_free hl hfree hr hops
    refine ⟨hheld, ?_⟩
    intro data block hf
    obtain ⟨m'', hcall, hback⟩ := managed_call hl' hf rfl hheld
    exact ⟨m'', ⟨hf, hcall⟩, hback⟩

/-- Two nodes go in, one comes out, and the mutex is free. -/
theorem xqueue_lock_discipline_two : ∃ m : Monitor Nat,
    Run Monitor.Step (Monitor.init 4 true true)
      [.enqueue 70 (some 1), .enqueue 80 (some 2), .dequeue] m ∧ m.held = false := by
  have hfold : (List.foldlM (fun (m : Monitor Nat) op => if Op.Fresh m.queue op then m.call op else none)
      (Monitor.init 4 true true) [.enqueue 70 (some 1), .enqueue 80 (some 2), .dequeue]).isSome := by
    decide
  obtain ⟨m, hm⟩ := Option.isSome_iff_exists.mp hfold
  have hr := Run.ofFold _ _ _ _ hm
  exact ⟨m, hr, ((xqueue_lock_discipline ⟨[], xqueueInit_holds 4⟩ rfl hr).2 (by decide)).1⟩

/-- `xqueue_dump` without a callback returns with the mutex locked, and the next `xqueue_enqueue` blocks;
with one, it walks the list and unlocks a mutex that it never locked. -/
theorem xqueue_dump_unguarded :
    ((Monitor.init 0 false true : Monitor Nat).perform .dump).map Prod.fst = some [.lock] ∧
    ¬ Guarded ([.lock] : List (Action Nat)) ∧
    (∃ m : Monitor Nat, Run Monitor.Step (Monitor.init 0 false true) [.dump] m ∧ m.held = true ∧
      m.call (.enqueue 70 (some 1)) = none) ∧
    ((Monitor.init 0 true true : Monitor Nat).perform .dump).map Prod.fst = some [.list, .unlock] ∧
    ¬ Guarded ([.list, .unlock] : List (Action Nat)) := by
  refine ⟨rfl, by decide, ⟨_, .single ⟨trivial, rfl⟩, rfl, rfl⟩, rfl, by decide⟩

end Xqueue
end Xlibc
