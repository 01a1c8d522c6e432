import Mathlib.Logic.Function.Basic
import Xlibc.Base.CInt
import Xlibc.Base.Chain
import Xlibc.Xqueue.Xlist

/-!
# Xlibc.Xqueue.Model

The asynchronous queue of `xqueue.c` and the threads that use it. Any number of producers call
`xqueue_enqueue`, any number of handlers are in `xqueue_handle`; each locked section, each `sem_post`,
each `sem_wait` and the size test outside the lock is one step. The memory of a node is its
`xlist_head` in `links` and its `data`. `linked` and `dequeued` record what has happened, and no thread
reads them.
-/

namespace Xlibc
namespace Xqueue

/-- An `xlist_head`: that of the queue, or that of the node at an address. -/
inductive Ptr where
  | head
  | qnode (a : Nat)
  deriving DecidableEq, Repr

structure XQueue (δ : Type) where
  links : Links Ptr
  data : Store δ
  sem : Nat
  qnodeNum : Nat
  maxQnodeNum : Nat

/-- `AQUEUE_MAX_NODES` -/
def aqueueMaxNodes : Nat := 1024

/-- `SEM_VALUE_MAX` -/
def semValueMax : Nat := intMax

variable {δ : Type}

/-- `xqueue_init`, the callbacks apart -/
def xqueueInit (size : Int) : XQueue δ :=
  { links := initXlistHead ∅ .head
    data := ∅
    sem := 0
    qnodeNum := 0
    maxQnodeNum := if size < 0 then aqueueMaxNodes else u32OfInt size }

namespace XQueue

/-- The size test of `xqueue_enqueue`. -/
def isFull (q : XQueue δ) : Bool := q.maxQnodeNum ≠ 0 && q.qnodeNum ≥ q.maxQnodeNum

/-- `malloc` of a node at `a`, cleared, and `qnode->data = data`. -/
def newQnode (q : XQueue δ) (a : Nat) (data : δ) : XQueue δ :=
  { q with links := q.links.insert (.qnode a) { next := none, prev := none }, data := q.data.insert a data }

/-- `free(node)` -/
def freeQnode (q : XQueue δ) (a : Nat) : XQueue δ :=
  { q with links := q.links.erase (.qnode a), data := q.data.erase a }

/-- `_xqueue_enqueue` -/
def enqueueLocked (q : XQueue δ) (a : Nat) : Option (Nat × XQueue δ) := do
  let links ← xlistAddTail q.links (.qnode a) .head
  let currentNum := u32 (q.qnodeNum + 1)
  some (currentNum, { q with links := links, qnodeNum := currentNum })

/-- `xqueue_dequeue` -/
def xqueueDequeue (q : XQueue δ) : Option (Option Nat × XQueue δ) :=
  if q.qnodeNum = 0 then some (none, q)
  else do
    let (node, links) ← xlistGet q.links .head
    match node with
    | none => some (none, { q with links := links })
    | some (.qnode a) => some (some a, { q with links := links, qnodeNum := u32Sub q.qnodeNum 1 })
    -- `xlist_get` never returns the head
    | some .head => none

/-- `sem_post`, which fails at `SEM_VALUE_MAX`; its result is not looked at. -/
def semPost (q : XQueue δ) : XQueue δ := { q with sem := if q.sem < semValueMax then q.sem + 1 else q.sem }

/-- `xlist_entry`, and what the node holds. -/
def entry (q : XQueue δ) : Ptr → Option (Nat × δ)
  | .head => none
  | .qnode a => (q.data.lookup a).map fun d => (a, d)

/-- The nodes of the list with their data, as `xlist_for_each_entry` passes them. -/
def nodes (q : XQueue δ) : Option (List (Nat × δ)) := do
  let ps ← xlistForEach q.links .head
  ps.mapM q.entry

end XQueue

/-! ## The threads -/

/-- A producer: outside of `xqueue_enqueue`, behind the size test, or with its node linked and
`sem_post` ahead. -/
inductive Producer (δ : Type) where
  | idle
  | tested (data : δ)
  | linked (num : Nat)
  deriving DecidableEq

/-- A handler: at `sem_wait`, at `xqueue_dequeue`, or with a node to handle. -/
inductive Handler where
  | waiting
  | draining
  | handling (node : Nat)
  deriving DecidableEq

/-- Producers `π`, handlers `η`, the queue they share, and the nodes that have been linked and dequeued. -/
structure System (π η δ : Type) where
  queue : XQueue δ
  producer : π → Producer δ
  handler : η → Handler
  linked : List (Nat × δ)
  dequeued : List (Nat × δ)

/-- A step of one thread. `link` carries what `malloc` returns; `sem_wait` may be interrupted. -/
inductive Event (π η δ : Type) where
  | test (i : π) (data : δ)
  | link (i : π) (block : Option Nat)
  | post (i : π)
  | wait (j : η) (interrupted : Bool)
  | dequeue (j : η)
  | finish (j : η)

namespace System

variable {π η : Type} [DecidableEq π] [DecidableEq η]

def init (size : Int) : System π η δ :=
  { queue := xqueueInit size
    producer := fun _ => .idle
    handler := fun _ => .waiting
    linked := []
    dequeued := [] }

def setProducer (s : System π η δ) (i : π) (p : Producer δ) : System π η δ :=
  { s with producer := Function.update s.producer i p }

def setHandler (s : System π η δ) (j : η) (h : Handler) : System π η δ :=
  { s with handler := Function.update s.handler j h }

omit [DecidableEq η] in
@[simp] theorem setProducer_self (s : System π η δ) (i : π) (p : Producer δ) :
    (s.setProducer i p).producer i = p := by simp [setProducer]

omit [DecidableEq η] in
theorem setProducer_of_ne (s : System π η δ) {i k : π} (hk : k ≠ i) (p : Producer δ) :
    (s.setProducer i p).producer k = s.producer k := by simp [setProducer, hk]

omit [DecidableEq π] in
@[simp] theorem setHandler_self (s : System π η δ) (j : η) (h : Handler) :
    (s.setHandler j h).handler j = h := by simp [setHandler]

omit [DecidableEq π] in
theorem setHandler_of_ne (s : System π η δ) {j k : η} (hk : k ≠ j) (h : Handler) :
    (s.setHandler j h).handler k = s.handler k := by simp [setHandler, hk]

/-- `xqueue_enqueue` up to its size test. -/
def test (s : System π η δ) (i : π) (data : δ) : Option (System π η δ) :=
  match s.producer i with
  | .idle => some (if s.queue.isFull then s else s.setProducer i (.tested data))
  | _ => none

/-- `xqueue_enqueue` from `malloc` through `_xqueue_enqueue`. -/
def link (s : System π η δ) (i : π) (block : Option Nat) : Option (System π η δ) :=
  match s.producer i, block with
  | .tested _, none => some (s.setProducer i .idle)
  | .tested data, some a => do
    let (num, queue) ← (s.queue.newQnode a data).enqueueLocked a
    some { s.setProducer i (.linked num) with queue := queue, linked := s.linked ++ [(a, data)] }
  | _, _ => none

/-- `sem_post`, and `xqueue_enqueue` returns. -/
def post (s : System π η δ) (i : π) : Option (System π η δ) :=
  match s.producer i with
  | .linked _ => some { s.setProducer i .idle with queue := s.queue.semPost }
  | _ => none

/-- `sem_wait`, which blocks at 0. -/
def wait (s : System π η δ) (j : η) (interrupted : Bool) : Option (System π η δ) :=
  match s.handler j with
  | .waiting =>
    if interrupted then some (s.setHandler j .draining)
    else if s.queue.sem = 0 then none
    else some { s.setHandler j .draining with queue := { s.queue with sem := s.queue.sem - 1 } }
  | _ => none

/-- `xqueue_dequeue` in the loop of `xqueue_handle`. -/
def dequeue (s : System π η δ) (j : η) : Option (System π η δ) :=
  match s.handler j with
  | .draining => do
    let (node, queue) ← s.queue.xqueueDequeue
    match node with
    | none => some { s.setHandler j .waiting with queue := queue }
    | some a => do
      let data ← queue.data.lookup a
      some { s.setHandler j (.handling a) with queue := queue, dequeued := s.dequeued ++ [(a, data)] }
  | _ => none

/-- The body of that loop: the callbacks read `node->data`, and the node is freed. -/
def finish (s : System π η δ) (j : η) : Option (System π η δ) :=
  match s.handler j with
  | .handling a => do
    let _ ← s.queue.data.lookup a
    some { s.setHandler j .draining with queue := s.queue.freeQnode a }
  | _ => none

def step (s : System π η δ) : Event π η δ → Option (System π η δ)
  | .test i data => s.test i data
  | .link i block => s.link i block
  | .post i => s.post i
  | .wait j interrupted => s.wait j interrupted
  | .dequeue j => s.dequeue j
  | .finish j => s.finish j

end System

end Xqueue
end Xlibc
