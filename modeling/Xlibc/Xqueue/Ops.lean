import Xlibc.Xqueue.Model

/-!
# Xlibc.Xqueue.Ops

What the locked sections do to the list. `Holds q l` says that the nodes of `l` are linked in this
order and carry these data, and that `qnode_num` is their number, as far as it can be counted.

* `enqueue_spec`, `dequeue_spec` : linking behind the last node, taking the first one out.
* `free_spec`  : freeing a node that is not linked.
* `nodes_spec` : the loop over the list passes `l`.
-/

namespace Xlibc
namespace Xqueue

variable {δ : Type}

structure Holds (q : XQueue δ) (l : List (Nat × δ)) : Prop where
  ring : IsXlist q.links .head (l.map fun e => .qnode e.1)
  num : q.qnodeNum = u32 l.length
  data : ∀ e ∈ l, q.data.lookup e.1 = some e.2
  links : ∀ a, Ptr.qnode a ∈ q.links ↔ a ∈ q.data

variable {q : XQueue δ} {l : List (Nat × δ)} {a : Nat} {d : δ}

theorem xqueueInit_holds (size : Int) : Holds (xqueueInit size : XQueue δ) [] where
  ring := initXlistHead_spec _ _
  num := rfl
  data e he := (nomatch he)
  links a := by simp [xqueueInit, initXlistHead, -AList.insert_empty]

theorem mem_ring : Ptr.qnode a ∈ Ptr.head :: (l.map fun e => .qnode e.1) ↔ a ∈ l.map Prod.fst := by
  simp

theorem Holds.mem_data (h : Holds q l) (ha : a ∈ l.map Prod.fst) : a ∈ q.data := by
  obtain ⟨e, he, rfl⟩ := List.mem_map.mp ha
  exact AList.lookup_isSome.mp (by rw [h.data e he]; rfl)

theorem enqueue_spec (h : Holds q l) (ha : q.data.lookup a = none) :
    ∃ num q', (q.newQnode a d).enqueueLocked a = some (num, q') ∧ Holds q' (l ++ [(a, d)]) ∧
      q'.data = q.data.insert a d ∧ q'.maxQnodeNum = q.maxQnodeNum := by
  have hal : a ∉ l.map Prod.fst := fun hmem =>
    AList.lookup_eq_none.mp ha (h.mem_data hmem)
  have hfresh : Ptr.qnode a ∉ Ptr.head :: (l.map fun e => Ptr.qnode e.1) := fun hmem => hal (mem_ring.mp hmem)
  -- the new node is not linked yet
  have hring : IsXlist (q.newQnode a d).links .head (l.map fun e => Ptr.qnode e.1) := by
    refine h.ring.frame (fun p hp => ?_) fun p hp => ?_
    · have hne : p ≠ .qnode a := fun heq => hfresh (heq ▸ hp)
      rw [XQueue.newQnode, nextOf_insert, Function.update_of_ne hne]
    · have hne : p ≠ .qnode a := fun heq => hfresh (heq ▸ hp)
      rw [XQueue.newQnode, prevOf_insert, Function.update_of_ne hne]
  obtain ⟨links, hadd, hring', hmem⟩ := xlistAddTail_spec (.qnode a) hring
    (by simp [XQueue.newQnode]) hfresh
  have hnum : (q.newQnode a d).qnodeNum = u32 l.length := h.num
  refine ⟨_, { q.newQnode a d with links := links, qnodeNum := u32 ((q.newQnode a d).qnodeNum + 1) },
    by simp [XQueue.enqueueLocked, hadd]; rfl, ⟨?_, ?_, ?_, ?_⟩, rfl, rfl⟩
  · rw [List.map_append]
    exact hring'
  · show u32 ((q.newQnode a d).qnodeNum + 1) = u32 (l ++ [(a, d)]).length
    rw [hnum, List.length_append]
    simp [u32]
  · intro e he
    show (q.data.insert a d).lookup e.1 = some e.2
    rcases List.mem_append.mp he with he | he
    · have hne : e.1 ≠ a := fun heq => hal (List.mem_map.mpr ⟨e, he, heq⟩)
      rw [AList.lookup_insert_ne hne, h.data e he]
    · rw [List.mem_singleton.mp he, AList.lookup_insert]
  · intro b
    show Ptr.qnode b ∈ links ↔ b ∈ q.data.insert a d
    rw [hmem]
    simp [XQueue.newQnode, h.links]

/-- Taking the first node out of a list that is not counted as empty. -/
theorem dequeue_spec (h : Holds q l) (hnum : q.qnodeNum ≠ 0) :
    ∃ a d l' q', l = (a, d) :: l' ∧ q.xqueueDequeue = some (some a, q') ∧ Holds q' l' ∧
      q'.data = q.data ∧ a ∉ l'.map Prod.fst := by
  cases l with
  | nil => exact absurd h.num hnum
  | cons e l =>
    obtain ⟨a, d⟩ := e
    obtain ⟨links, hget, hring, hmem⟩ := xlistGet_cons h.ring
    have hal : a ∉ l.map Prod.fst := by
      have hnd := (List.nodup_cons.mp h.ring.nodup).2
      exact fun hmem' => (List.nodup_cons.mp hnd).1 (by simpa using hmem')
    have hsub : u32Sub q.qnodeNum 1 = u32 l.length := by
      have hlen := h.num
      rw [List.length_cons] at hlen
      unfold u32 at hlen ⊢
      unfold u32Sub
      omega
    refine ⟨a, d, l, { q with links := links, qnodeNum := u32Sub q.qnodeNum 1 }, rfl, ?_,
      ⟨hring, hsub, fun e he => h.data e (List.mem_cons_of_mem _ he), fun b => ?_⟩, rfl, hal⟩
    · simp [XQueue.xqueueDequeue, hnum, hget]
    · exact (hmem _).trans (h.links b)

theorem free_spec (h : Holds q l) (ha : a ∉ l.map Prod.fst) : Holds (q.freeQnode a) l where
  ring := by
    have hne : ∀ p ∈ Ptr.head :: (l.map fun e => Ptr.qnode e.1), p ≠ .qnode a := by
      rintro p hp rfl
      exact ha (mem_ring.mp hp)
    refine h.ring.frame (fun p hp => ?_) fun p hp => ?_
    · rw [nextOf, XQueue.freeQnode, AList.lookup_erase_ne (hne p hp), nextOf]
    · rw [prevOf, XQueue.freeQnode, AList.lookup_erase_ne (hne p hp), prevOf]
  num := h.num
  data e he := by
    have hne : e.1 ≠ a := fun heq => ha (List.mem_map.mpr ⟨e, he, heq⟩)
    rw [XQueue.freeQnode, AList.lookup_erase_ne hne, h.data e he]
  links b := by simp [XQueue.freeQnode, h.links]

theorem nodes_spec (h : Holds q l) : q.nodes = some l := by
  have hdata : ∀ l' : List (Nat × δ), (∀ e ∈ l', e ∈ l) →
      (l'.map fun e => Ptr.qnode e.1).mapM q.entry = some l' := by
    intro l' hsub
    induction l' with
    | nil => rfl
    | cons e l' ih =>
      have he := h.data e (hsub e (by simp))
      have hrest := ih fun x hx => hsub x (by simp [hx])
      simp [List.mapM_cons, XQueue.entry, he, hrest]
  rw [XQueue.nodes, xlistForEach_spec h.ring]
  exact hdata l fun _ he => he

end Xqueue
end Xlibc
