import Xlibc.Base.Run
import Xlibc.Xqueue.Ops

/-!
# Xlibc.Xqueue.Correct

The queue under any interleaving of its producers and handlers. `Inv s l` ties the list, the logs, the
nodes that handlers hold and the threads that are awake; `Inv.step` keeps it in every step. What it says
about `qnode_num` is modulo `2^32`, so `xqueue_sound_iff` finds the queue sound exactly in the states
with fewer than `2^32` nodes.
-/

namespace Xlibc
namespace Xqueue

variable {π η δ : Type} {s s' : System π η δ} {l : List (Nat × δ)}

/-- `malloc` returns memory that is not in use. -/
def Permitted (s : System π η δ) : Event π η δ → Prop
  | .link _ (some a) => s.queue.data.lookup a = none
  | _ => True

instance (s : System π η δ) : DecidablePred (Permitted s)
  | .link _ (some _) => inferInstanceAs (Decidable (_ = none))
  | .link _ none => .isTrue trivial
  | .test _ _ => .isTrue trivial
  | .post _ => .isTrue trivial
  | .wait _ _ => .isTrue trivial
  | .dequeue _ => .isTrue trivial
  | .finish _ => .isTrue trivial

/-- What has to hold of a queue and its threads. -/
structure Sound [DecidableEq π] [DecidableEq η] (s : System π η δ) : Prop where
  /-- `qnode_num` is the length of the list, and what was linked has been dequeued, in this order, or
  is in the list. -/
  list : ∃ l, s.queue.nodes = some l ∧ s.queue.qnodeNum = l.length ∧ s.linked = s.dequeued ++ l
  wake : (∀ i num, s.producer i ≠ .linked num) → (∀ j, s.handler j = .waiting) → s.queue.sem = 0 →
    s.queue.nodes = some []
  /-- No thread faults in its next step. -/
  link : ∀ i data a, s.producer i = .tested data → s.queue.data.lookup a = none →
    ∃ s', s.step (.link i (some a)) = some s'
  dequeue : ∀ j, s.handler j = .draining → ∃ s', s.step (.dequeue j) = some s'
  finish : ∀ j a, s.handler j = .handling a → ∃ s', s.step (.finish j) = some s'

/-- Someone is going to look at the queue. -/
def Awake (s : System π η δ) : Prop :=
  0 < s.queue.sem ∨ (∃ i num, s.producer i = .linked num) ∨ ∃ j, s.handler j ≠ .waiting

structure Inv (s : System π η δ) (l : List (Nat × δ)) : Prop where
  queue : Holds s.queue l
  log : s.linked = s.dequeued ++ l
  /-- A handler's node is allocated and not linked. -/
  holds : ∀ j a, s.handler j = .handling a → a ∈ s.queue.data ∧ a ∉ l.map Prod.fst
  apart : ∀ j k a, s.handler j = .handling a → s.handler k = .handling a → j = k
  wake : s.queue.qnodeNum ≠ 0 → Awake s

theorem init_inv (size : Int) : Inv (System.init size : System π η δ) [] where
  queue := xqueueInit_holds size
  log := rfl
  holds _ _ h := (nomatch h)
  apart _ _ _ h := (nomatch h)
  wake h := absurd rfl h

/-! ## One step -/

section Producers

variable [DecidableEq π]

/-- A producer that is not about to post wakes nobody. -/
theorem awake_setProducer {i : π} (p : Producer δ) (hi : ∀ num, s.producer i ≠ .linked num)
    (h : Awake s) : Awake (s.setProducer i p) := by
  rcases h with h | ⟨k, num, hk⟩ | h
  · exact .inl h
  · have hne : k ≠ i := fun heq => hi num (heq ▸ hk)
    exact .inr (.inl ⟨k, num, (System.setProducer_of_ne s hne p).trans hk⟩)
  · exact .inr (.inr h)

theorem Inv.test {i : π} {data : δ} (h : Inv s l) (hs : s.test i data = some s') : Inv s' l := by
  unfold System.test at hs
  split at hs
  · next hidle =>
    cases hs
    split
    · exact h
    · have hi : ∀ num, s.producer i ≠ .linked num := fun num heq => by rw [hidle] at heq; cases heq
      exact ⟨h.queue, h.log, h.holds, h.apart, fun hnum => awake_setProducer _ hi (h.wake hnum)⟩
  · cases hs

theorem Inv.linkNone {i : π} (h : Inv s l) (hs : s.link i none = some s') : Inv s' l := by
  unfold System.link at hs
  split at hs
  · next htested _ =>
    cases hs
    have hi : ∀ num, s.producer i ≠ .linked num := fun num heq => by rw [htested] at heq; cases heq
    exact ⟨h.queue, h.log, h.holds, h.apart, fun hnum => awake_setProducer _ hi (h.wake hnum)⟩
  · next heq => cases heq
  · cases hs

/-- Behind the size test a node can be linked, and its data are those of the call. -/
theorem Inv.linkSome {i : π} {data : δ} {a : Nat} (h : Inv s l) (hi : s.producer i = .tested data)
    (ha : s.queue.data.lookup a = none) :
    ∃ num s', s.link i (some a) = some s' ∧ s'.producer i = .linked num ∧
      s'.queue.maxQnodeNum = s.queue.maxQnodeNum ∧ Inv s' (l ++ [(a, data)]) := by
  obtain ⟨num, q, henq, hq, hdata, hmax⟩ := enqueue_spec h.queue (d := data) ha
  refine ⟨num, { s.setProducer i (.linked num) with queue := q, linked := s.linked ++ [(a, data)] },
    by simp [System.link, hi, henq], System.setProducer_self s i _, hmax, hq, ?_,
    fun j b hj => ?_, h.apart, fun _ => ?_⟩
  · show s.linked ++ [(a, data)] = s.dequeued ++ (l ++ [(a, data)])
    rw [h.log, List.append_assoc]
  · obtain ⟨hb, hbl⟩ := h.holds j b hj
    have hne : b ≠ a := fun heq => AList.lookup_eq_none.mp ha (heq ▸ hb)
    show b ∈ q.data ∧ _
    rw [hdata]
    exact ⟨(AList.mem_insert _).mpr (.inr hb), by simpa [hne] using hbl⟩
  · exact .inr (.inl ⟨i, num, System.setProducer_self _ _ _⟩)

theorem Inv.post {i : π} (h : Inv s l) (hs : s.post i = some s') : Inv s' l := by
  unfold System.post at hs
  split at hs
  · cases hs
    refine ⟨⟨h.queue.ring, h.queue.num, h.queue.data, h.queue.links⟩, h.log, h.holds, h.apart,
      fun _ => .inl ?_⟩
    -- the value is positive even where `sem_post` fails
    show 0 < if s.queue.sem < semValueMax then s.queue.sem + 1 else s.queue.sem
    have : 0 < semValueMax := by decide
    split <;> omega
  · cases hs

end Producers

section Handlers

variable [DecidableEq η]

theorem handling_of_set {j k : η} {h : Handler} {a : Nat} (hne : ∀ a, h ≠ .handling a)
    (hk : (s.setHandler j h).handler k = .handling a) : k ≠ j ∧ s.handler k = .handling a := by
  by_cases hkj : k = j
  · subst hkj
    rw [System.setHandler_self] at hk
    exact absurd hk (hne a)
  · rw [System.setHandler_of_ne s hkj] at hk
    exact ⟨hkj, hk⟩

theorem Inv.wait {j : η} {interrupted : Bool} (h : Inv s l) (hs : s.wait j interrupted = some s') :
    Inv s' l := by
  have hawake : ∀ q : XQueue δ, Awake { s.setHandler j .draining with queue := q } := fun q =>
    .inr (.inr ⟨j, by simp⟩)
  have hne : ∀ a, Handler.draining ≠ .handling a := fun a heq => (nomatch heq)
  have hholds : ∀ k a, (s.setHandler j .draining).handler k = .handling a →
      a ∈ s.queue.data ∧ a ∉ l.map Prod.fst := fun k a hk => h.holds k a (handling_of_set hne hk).2
  have hapart : ∀ k m a, (s.setHandler j .draining).handler k = .handling a →
      (s.setHandler j .draining).handler m = .handling a → k = m := fun k m a hk hm =>
    h.apart k m a (handling_of_set hne hk).2 (handling_of_set hne hm).2
  unfold System.wait at hs
  split at hs
  · split at hs
    · cases hs
      exact ⟨h.queue, h.log, hholds, hapart, fun _ => hawake _⟩
    · split at hs
      · cases hs
      · cases hs
        exact ⟨⟨h.queue.ring, h.queue.num, h.queue.data, h.queue.links⟩, h.log, hholds, hapart,
          fun _ => hawake _⟩
  · cases hs

/-- A handler that finds the queue counted as empty goes back to `sem_wait`, any other one takes the
first node. -/
theorem Inv.dequeue {j : η} (h : Inv s l) (hj : s.handler j = .draining) :
    ∃ s' l', s.dequeue j = some s' ∧ Inv s' l' := by
  by_cases hnum : s.queue.qnodeNum = 0
  · have hne : ∀ a, Handler.waiting ≠ .handling a := fun a heq => (nomatch heq)
    refine ⟨s.setHandler j .waiting, l, by simp [System.dequeue, hj, XQueue.xqueueDequeue, hnum]; rfl,
      h.queue, h.log, fun k a hk => ?_, fun k m a hk hm => ?_, fun hpos => absurd hnum hpos⟩
    · exact h.holds k a (handling_of_set hne hk).2
    · exact h.apart k m a (handling_of_set hne hk).2 (handling_of_set hne hm).2
  · obtain ⟨a, d, l', q, rfl, hdeq, hq, hdata, hal⟩ := dequeue_spec h.queue hnum
    have had : s.queue.data.lookup a = some d := h.queue.data (a, d) (by simp)
    have hold : ∀ k b, s.handler k = .handling b → b ≠ a ∧ b ∈ s.queue.data ∧ b ∉ l'.map Prod.fst := by
      intro k b hk
      obtain ⟨hb, hbl⟩ := h.holds k b hk
      rw [List.map_cons, List.mem_cons, not_or] at hbl
      exact ⟨hbl.1, hb, hbl.2⟩
    have hcases : ∀ k b, (s.setHandler j (.handling a)).handler k = .handling b →
        (k = j ∧ b = a) ∨ (k ≠ j ∧ s.handler k = .handling b) := by
      intro k b hk
      by_cases hkj : k = j
      · subst hkj
        have : Handler.handling a = .handling b := by simpa using hk
        exact .inl ⟨rfl, by cases this; rfl⟩
      · exact .inr ⟨hkj, (System.setHandler_of_ne s hkj _).symm.trans hk⟩
    refine ⟨{ s.setHandler j (.handling a) with queue := q, dequeued := s.dequeued ++ [(a, d)] }, l',
      by simp [System.dequeue, hj, hdeq, hdata, had], hq, ?_, fun k b hk => ?_, fun k m b hk hm => ?_,
      fun _ => .inr (.inr ⟨j, by simp⟩)⟩
    · show s.linked = s.dequeued ++ [(a, d)] ++ l'
      rw [h.log, List.append_assoc]
      rfl
    · show b ∈ q.data ∧ _
      rw [hdata]
      rcases hcases k b hk with ⟨-, rfl⟩ | ⟨-, hk'⟩
      · exact ⟨AList.lookup_isSome.mp (by rw [had]; rfl), hal⟩
      · exact (hold k b hk').2
    · rcases hcases k b hk with ⟨hkj, hba⟩ | ⟨-, hk'⟩
      · rcases hcases m b hm with ⟨hmj, -⟩ | ⟨-, hm'⟩
        · rw [hkj, hmj]
        · exact absurd hba (hold m b hm').1
      · rcases hcases m b hm with ⟨-, hba⟩ | ⟨-, hm'⟩
        · exact absurd hba (hold k b hk').1
        · exact h.apart k m b hk' hm'

/-- A handler frees its own node. -/
theorem Inv.finish {j : η} {a : Nat} (h : Inv s l) (hj : s.handler j = .handling a) :
    ∃ s', s.finish j = some s' ∧ Inv s' l := by
  obtain ⟨ha, hal⟩ := h.holds j a hj
  obtain ⟨d, hd⟩ := Option.isSome_iff_exists.mp (AList.lookup_isSome.mpr ha)
  have hne : ∀ a, Handler.draining ≠ .handling a := fun a heq => (nomatch heq)
  refine ⟨{ s.setHandler j .draining with queue := s.queue.freeQnode a },
    by simp [System.finish, hj, hd], free_spec h.queue hal, h.log, fun k b hk => ?_, fun k m b hk hm => ?_,
    fun _ => .inr (.inr ⟨j, by simp⟩)⟩
  · obtain ⟨hkj, hk⟩ := handling_of_set hne hk
    obtain ⟨hb, hbl⟩ := h.holds k b hk
    have hba : b ≠ a := fun heq => hkj (h.apart k j a (heq ▸ hk) hj)
    exact ⟨AList.mem_erase.mpr ⟨hba, hb⟩, hbl⟩
  · exact h.apart k m b (handling_of_set hne hk).2 (handling_of_set hne hm).2

end Handlers

namespace Inv

variable [DecidableEq π] [DecidableEq η]

theorem step {e : Event π η δ} (h : Inv s l) (hp : Permitted s e) (hs : s.step e = some s') :
    ∃ l', Inv s' l' := by
  cases e with
  | test i data => exact ⟨l, h.test hs⟩
  | link i block =>
    cases block with
    | none => exact ⟨l, h.linkNone hs⟩
    | some a =>
      cases hi : s.producer i with
      | tested data =>
        obtain ⟨num, s₁, hs₁, -, -, h₁⟩ := h.linkSome hi hp
        obtain rfl := Option.some.inj (hs.symm.trans hs₁)
        exact ⟨_, h₁⟩
      | idle => simp [System.step, System.link, hi] at hs
      | linked num => simp [System.step, System.link, hi] at hs
  | post i => exact ⟨l, h.post hs⟩
  | wait j interrupted => exact ⟨l, h.wait hs⟩
  | dequeue j =>
    cases hj : s.handler j with
    | draining =>
      obtain ⟨s₁, l', hs₁, h₁⟩ := h.dequeue hj
      obtain rfl := Option.some.inj (hs.symm.trans hs₁)
      exact ⟨l', h₁⟩
    | waiting => simp [System.step, System.dequeue, hj] at hs
    | handling a => simp [System.step, System.dequeue, hj] at hs
  | finish j =>
    cases hj : s.handler j with
    | handling a =>
      obtain ⟨s₁, hs₁, h₁⟩ := h.finish hj
      obtain rfl := Option.some.inj (hs.symm.trans hs₁)
      exact ⟨l, h₁⟩
    | waiting => simp [System.step, System.finish, hj] at hs
    | draining => simp [System.step, System.finish, hj] at hs

theorem run {size : Int} {es : List (Event π η δ)}
    (hr : Run (fun s e s' => Permitted s e ∧ s.step e = some s') (System.init size) es s) :
    ∃ l, Inv s l := by
  induction hr with
  | nil => exact ⟨[], init_inv size⟩
  | snoc _ hstep ih =>
    obtain ⟨l, h⟩ := ih
    exact h.step hstep.1 hstep.2

omit [DecidableEq π] [DecidableEq η] in
theorem length (h : Inv s l) : s.linked.length = s.dequeued.length + l.length := by
  rw [h.log, List.length_append]

/-- A list that can be counted is a sound queue. -/
theorem sound (h : Inv s l) (hlt : l.length < 2 ^ 32) : Sound s where
  list := ⟨l, nodes_spec h.queue, h.queue.num.trans (u32_of_lt hlt), h.log⟩
  wake hpost hwait hsem := by
    have hnum : s.queue.qnodeNum = 0 := by
      by_contra hne
      rcases h.wake hne with hpos | ⟨i, num, hi⟩ | ⟨j, hj⟩
      · omega
      · exact hpost i num hi
      · exact hj (hwait j)
    have hlen : l.length = 0 := by rw [← u32_of_lt hlt, ← h.queue.num, hnum]
    rw [nodes_spec h.queue, List.length_eq_zero_iff.mp hlen]
  link i data a hi ha := by
    obtain ⟨num, s', hs', -⟩ := h.linkSome hi ha
    exact ⟨s', hs'⟩
  dequeue j hj := by
    obtain ⟨s', -, hs', -⟩ := h.dequeue hj
    exact ⟨s', hs'⟩
  finish j a hj := by
    obtain ⟨s', hs', -⟩ := h.finish hj
    exact ⟨s', hs'⟩

/-- A list that is sound can be counted. -/
theorem sound_iff (h : Inv s l) : Sound s ↔ l.length < 2 ^ 32 := by
  refine ⟨fun hsound => ?_, h.sound⟩
  obtain ⟨l', hnodes, hnum, -⟩ := hsound.list
  obtain rfl : l = l' := Option.some.inj ((nodes_spec h.queue).symm.trans hnodes)
  have hmod : l.length = u32 l.length := hnum.symm.trans h.queue.num
  have hlt : u32 l.length < 2 ^ 32 := Nat.mod_lt _ (by decide)
  omega

end Inv

/-- **The queue is sound while it can be counted.** In every state that any interleaving reaches,
`qnode_num` is the length of the list, the nodes leave it in the order in which they were linked, none
twice and none lost, no wake-up is lost and no thread faults, exactly when fewer than `2^32` nodes are
linked and not dequeued. -/
theorem xqueue_sound_iff [DecidableEq π] [DecidableEq η] {size : Int} {es : List (Event π η δ)}
    (hr : Run (fun s e s' => Permitted s e ∧ s.step e = some s') (System.init size) es s) :
    Sound s ↔ s.linked.length < s.dequeued.length + 2 ^ 32 := by
  obtain ⟨l, h⟩ := Inv.run hr
  rw [h.sound_iff, h.length]
  omega

/-- Two producers link a node each; the handler wakes up once, and has taken the first of them. -/
theorem xqueue_sound_two : ∃ s : System (Fin 2) (Fin 1) Nat, s.linked = [(1, 70), (2, 80)] ∧
    s.dequeued = [(1, 70)] ∧ Sound s := by
  have hfold : (List.foldlM (fun s e => if Permitted s e then System.step s e else none)
      (System.init 4 : System (Fin 2) (Fin 1) Nat) [.test 0 70, .test 1 80, .link 0 (some 1), .post 0,
        .wait 0 false, .link 1 (some 2), .dequeue 0]).map (fun s => (s.linked, s.dequeued)) =
      some ([(1, 70), (2, 80)], [(1, 70)]) := by decide
  obtain ⟨s, hs, hlogs⟩ := Option.map_eq_some_iff.mp hfold
  obtain ⟨hlinked, hdequeued⟩ := Prod.mk.inj hlogs
  refine ⟨s, hlinked, hdequeued, (xqueue_sound_iff (Run.ofFold _ _ _ _ hs)).mpr ?_⟩
  rw [hlinked, hdequeued]
  decide

/-! ## A queue of `2^32` nodes -/

/-- Without a limit one producer can link any number of nodes while the handler is not scheduled. -/
theorem fill_queue (n : Nat) : ∃ (es : List (Event Unit Unit Unit)) (s : System Unit Unit Unit)
    (l : List (Nat × Unit)),
    Run (fun s e s' => Permitted s e ∧ s.step e = some s') (System.init 0) es s ∧ Inv s l ∧
      l.length = n ∧ s.producer () = .idle ∧ s.queue.maxQnodeNum = 0 := by
  induction n with
  | zero => exact ⟨[], _, [], .nil, init_inv 0, rfl, rfl, rfl⟩
  | succ n ih =>
    obtain ⟨es, s, l, hrun, h, hlen, hidle, hmax⟩ := ih
    obtain ⟨a, hfree⟩ := exists_fresh s.queue.data
    have htest : s.step (.test () ()) = some (s.setProducer () (.tested ())) := by
      simp [System.step, System.test, hidle, XQueue.isFull, hmax]
    obtain ⟨num, s₂, hlink, hlinked, hmax', h₂⟩ :=
      (h.test htest).linkSome (System.setProducer_self s () (.tested ())) hfree
    obtain ⟨s₃, hs₃⟩ : ∃ s₃, s₃ = { s₂.setProducer () .idle with queue := s₂.queue.semPost } :=
      ⟨_, rfl⟩
    have hpost : s₂.step (.post ()) = some s₃ := by simp [System.step, System.post, hlinked, hs₃]
    have hidle' : s₃.producer () = .idle := by rw [hs₃]; exact System.setProducer_self s₂ () .idle
    have hmax₃ : s₃.queue.maxQnodeNum = 0 := by rw [hs₃]; exact hmax'.trans hmax
    have hp₁ : Permitted s (.test () ()) := trivial
    have hp₂ : Permitted (s.setProducer () (.tested ())) (.link () (some a)) := hfree
    have hp₃ : Permitted s₂ (.post ()) := trivial
    exact ⟨_, s₃, _, ((hrun.snoc ⟨hp₁, htest⟩).snoc ⟨hp₂, hlink⟩).snoc ⟨hp₃, hpost⟩,
      h₂.post hpost, by rw [List.length_append, hlen]; rfl, hidle', hmax₃⟩

/-- With `2^32` nodes in the list `qnode_num` is 0. -/
theorem xqueue_count_wraps : ∃ (es : List (Event Unit Unit Unit)) (s : System Unit Unit Unit)
    (l : List (Nat × Unit)),
    Run (fun s e s' => Permitted s e ∧ s.step e = some s') (System.init 0) es s ∧
      s.queue.nodes = some l ∧ l.length = 2 ^ 32 ∧ s.queue.qnodeNum = 0 ∧ ¬ Sound s := by
  obtain ⟨es, s, l, hrun, h, hlen, -⟩ := fill_queue (2 ^ 32)
  refine ⟨es, s, l, hrun, nodes_spec h.queue, hlen, ?_, fun hsound => ?_⟩
  · rw [h.queue.num, hlen]
    decide
  · have hlt := h.sound_iff.mp hsound
    omega

end Xqueue
end Xlibc
