import Mathlib.Algebra.BigOperators.Fin
import Xlibc.Xqueue.Correct

/-!
# Xlibc.Xqueue.Capacity

The limit of a queue. `xqueue_enqueue` tests the size outside the lock, so the producers that have
passed the test and not yet linked their node count as well: `xqueue_capacity` proves the limit for the
runs in which a test passes only while there is room for all of them, `crowded_overfull` shows that any
other passing test can be followed by insertions past the limit, and `xqueue_overfull` is the shortest
such run.
-/

namespace Xlibc
namespace Xqueue

open Finset

variable {π η δ : Type} {s s' : System π η δ}

/-- Whether a producer is between its size test and its insertion. -/
def Producer.isTested : Producer δ → Bool
  | .tested _ => true
  | _ => false

/-- The producers that will insert without looking at the size again. -/
def tested [Fintype π] (s : System π η δ) : Finset π := univ.filter fun i => (s.producer i).isTested

def testedCount [Fintype π] (s : System π η δ) : Nat := (tested s).card

/-- A size test passes only while there is room for everyone behind it. -/
def Roomy [Fintype π] (s : System π η δ) : Event π η δ → Prop
  | .test _ _ => s.queue.isFull = false → s.queue.qnodeNum + testedCount s < s.queue.maxQnodeNum
  | _ => True

instance [Fintype π] (s : System π η δ) : DecidablePred (Roomy s)
  | .test _ _ => inferInstanceAs (Decidable (_ → _))
  | .link _ _ => .isTrue trivial
  | .post _ => .isTrue trivial
  | .wait _ _ => .isTrue trivial
  | .dequeue _ => .isTrue trivial
  | .finish _ => .isTrue trivial

/-! ## Counting producers -/

section Count

variable [Fintype π] [DecidableEq π]

omit [DecidableEq π] in
@[simp] theorem mem_tested {i : π} : i ∈ tested s ↔ (s.producer i).isTested = true := by simp [tested]

theorem tested_enter {i : π} {p : Producer δ} (hp : p.isTested = true) :
    tested (s.setProducer i p) = insert i (tested s) := by
  ext k
  by_cases hk : k = i
  · subst hk
    simp [hp]
  · simp [System.setProducer_of_ne s hk, hk]

theorem tested_leave {i : π} {p : Producer δ} (hp : p.isTested = false) :
    tested (s.setProducer i p) = (tested s).erase i := by
  ext k
  by_cases hk : k = i
  · subst hk
    simp [hp]
  · simp [System.setProducer_of_ne s hk, hk]

end Count

/-! ## One step -/

/-- Linking a node counts it, as far as it can be counted. -/
theorem enqueueLocked_num {q q' : XQueue δ} {a num : Nat} (h : q.enqueueLocked a = some (num, q')) :
    q'.qnodeNum = u32 (q.qnodeNum + 1) ∧ q'.maxQnodeNum = q.maxQnodeNum := by
  obtain ⟨links, -, h⟩ := Option.bind_eq_some_iff.mp h
  cases h
  exact ⟨rfl, rfl⟩

theorem xqueueDequeue_num {q q' : XQueue δ} {node : Option Nat} (h : q.xqueueDequeue = some (node, q')) :
    q'.qnodeNum ≤ q.qnodeNum ∧ q'.maxQnodeNum = q.maxQnodeNum := by
  unfold XQueue.xqueueDequeue at h
  split at h
  · cases h
    exact ⟨Nat.le_refl _, rfl⟩
  · next hnum =>
    obtain ⟨⟨p, links⟩, -, h⟩ := Option.bind_eq_some_iff.mp h
    cases p with
    | none =>
      cases h
      exact ⟨Nat.le_refl _, rfl⟩
    | some p =>
      cases p with
      | head => cases h
      | qnode a =>
        cases h
        refine ⟨?_, rfl⟩
        show u32Sub q.qnodeNum 1 ≤ q.qnodeNum
        unfold u32Sub
        omega

/-- A node that is linked was counted behind the test before. -/
theorem link_count [Fintype π] [DecidableEq π] {i : π} {a : Nat} (hs : s.link i (some a) = some s') :
    s'.queue.maxQnodeNum = s.queue.maxQnodeNum ∧ s'.queue.qnodeNum = u32 (s.queue.qnodeNum + 1) ∧
      testedCount s' + 1 = testedCount s := by
  cases hi : s.producer i with
  | tested data =>
    simp only [System.link, hi] at hs
    obtain ⟨⟨num, q⟩, henq, hs⟩ := Option.bind_eq_some_iff.mp hs
    cases hs
    obtain ⟨hnum, hmax⟩ := enqueueLocked_num henq
    refine ⟨hmax, hnum, ?_⟩
    have hmem : i ∈ tested s := by simp [hi, Producer.isTested]
    show (tested (s.setProducer i (.linked num))).card + 1 = _
    rw [tested_leave rfl]
    exact card_erase_add_one hmem
  | idle => simp [System.link, hi] at hs
  | linked num => simp [System.link, hi] at hs

/-- What one step does to the number of nodes and to the producers behind the test: only a passing
test adds to their sum. -/
theorem step_count [Fintype π] [DecidableEq π] [DecidableEq η] {e : Event π η δ}
    (hs : s.step e = some s') :
    s'.queue.maxQnodeNum = s.queue.maxQnodeNum ∧
      (s'.queue.qnodeNum + testedCount s' ≤ s.queue.qnodeNum + testedCount s ∨
        (∃ i data, e = .test i data) ∧ s.queue.isFull = false ∧ s'.queue.qnodeNum = s.queue.qnodeNum ∧
          testedCount s' ≤ testedCount s + 1) := by
  cases e with
  | test i data =>
    simp only [System.step, System.test] at hs
    split at hs
    · cases hs
      cases hfull : s.queue.isFull with
      | true => exact ⟨rfl, .inl (Nat.le_refl _)⟩
      | false =>
        refine ⟨rfl, .inr ⟨⟨i, data, rfl⟩, rfl, rfl, ?_⟩⟩
        show (tested (s.setProducer i (.tested data))).card ≤ _
        rw [tested_enter rfl]
        exact card_insert_le _ _
    · cases hs
  | link i block =>
    cases block with
    | none =>
      simp only [System.step, System.link] at hs
      split at hs
      · cases hs
        refine ⟨rfl, .inl (Nat.add_le_add_left ?_ _)⟩
        rw [testedCount, tested_leave rfl]
        exact card_le_card (erase_subset _ _)
      · next heq => cases heq
      · cases hs
    | some a =>
      obtain ⟨hmax, hnum, hcount⟩ := link_count hs
      have hle : s'.queue.qnodeNum ≤ s.queue.qnodeNum + 1 := hnum ▸ Nat.mod_le _ _
      exact ⟨hmax, .inl (by omega)⟩
  | post i =>
    simp only [System.step, System.post] at hs
    split at hs
    · cases hs
      refine ⟨rfl, .inl (Nat.add_le_add_left ?_ _)⟩
      show (tested (s.setProducer i .idle)).card ≤ _
      rw [tested_leave rfl]
      exact card_le_card (erase_subset _ _)
    · cases hs
  | wait j interrupted =>
    simp only [System.step, System.wait] at hs
    split at hs
    · split at hs
      · cases hs
        exact ⟨rfl, .inl (Nat.le_refl _)⟩
      · split at hs
        · cases hs
        · cases hs
          exact ⟨rfl, .inl (Nat.le_refl _)⟩
    · cases hs
  | dequeue j =>
    simp only [System.step, System.dequeue] at hs
    split at hs
    · obtain ⟨⟨node, q⟩, hdeq, hs⟩ := Option.bind_eq_some_iff.mp hs
      obtain ⟨hnum, hmax⟩ := xqueueDequeue_num hdeq
      cases node with
      | none =>
        cases hs
        exact ⟨hmax, .inl (Nat.add_le_add_right hnum _)⟩
      | some a =>
        obtain ⟨d, -, hs⟩ := Option.bind_eq_some_iff.mp hs
        cases hs
        exact ⟨hmax, .inl (Nat.add_le_add_right hnum _)⟩
    · cases hs
  | finish j =>
    simp only [System.step, System.finish] at hs
    split at hs
    · obtain ⟨d, -, hs⟩ := Option.bind_eq_some_iff.mp hs
      cases hs
      exact ⟨rfl, .inl (Nat.le_refl _)⟩
    · cases hs

/-! ## Whole runs -/

section Runs

variable [Fintype π] [DecidableEq π] [DecidableEq η]

theorem run_max {P : System π η δ → Event π η δ → Prop} {s₀ : System π η δ} {es : List (Event π η δ)}
    (hr : Run (fun s e s' => P s e ∧ s.step e = some s') s₀ es s) :
    s.queue.maxQnodeNum = s₀.queue.maxQnodeNum := by
  induction hr with
  | nil => rfl
  | snoc _ hstep ih => exact (step_count hstep.2).1.trans ih

/-- **The limit holds while every test counts the producers behind it.** In every run in which a size
test passes only while there is room for its node and for those of all producers that have passed it
before and not inserted yet, `qnode_num` never exceeds `max_qnode_num`. -/
theorem xqueue_capacity {size : Int} {es : List (Event π η δ)}
    (hr : Run (fun s e s' => Roomy s e ∧ s.step e = some s') (System.init size) es s) :
    s.queue.qnodeNum ≤ (xqueueInit size : XQueue δ).maxQnodeNum := by
  suffices h : s.queue.qnodeNum + testedCount s ≤ s.queue.maxQnodeNum by
    rw [run_max hr] at h
    exact (Nat.le_add_right _ _).trans h
  induction hr with
  | nil =>
    have hnone : tested (System.init size : System π η δ) = ∅ := by
      ext i
      simp [System.init, Producer.isTested]
    show 0 + (tested (System.init size : System π η δ)).card ≤ _
    rw [hnone]
    exact Nat.zero_le _
  | snoc _ hstep ih =>
    obtain ⟨hroomy, hs⟩ := hstep
    obtain ⟨hmax, hcount | ⟨⟨i, data, rfl⟩, hfull, hnum, hcount⟩⟩ := step_count hs
    · omega
    · have := hroomy hfull
      omega

end Runs

/-- Two producers in a queue of two, one of them behind the test while the other links. -/
theorem xqueue_capacity_two : ∃ s : System (Fin 2) (Fin 1) Nat, s.linked = [(1, 70), (2, 80)] ∧
    s.queue.qnodeNum ≤ (xqueueInit 2 : XQueue Nat).maxQnodeNum := by
  have hfold : (List.foldlM (fun s e => if Roomy s e then System.step s e else none)
      (System.init 2 : System (Fin 2) (Fin 1) Nat) [.test 0 70, .test 1 80, .link 0 (some 1),
        .link 1 (some 2), .post 1, .test 1 90]).map (fun s => s.linked) =
      some [(1, 70), (2, 80)] := by decide
  obtain ⟨s, hs, hlinked⟩ := Option.map_eq_some_iff.mp hfold
  exact ⟨s, hlinked, xqueue_capacity (Run.ofFold _ _ _ _ hs)⟩

/-- Two producers pass the test of an empty queue of one, and both insert. -/
theorem xqueue_overfull : ∃ (es : List (Event (Fin 2) (Fin 1) Nat)) (s : System (Fin 2) (Fin 1) Nat),
    Run (fun s e s' => Permitted s e ∧ s.step e = some s') (System.init 1) es s ∧
      (xqueueInit 1 : XQueue Nat).maxQnodeNum = 1 ∧ s.queue.qnodeNum = 2 := by
  have hfold : (List.foldlM (fun s e => if Permitted s e then System.step s e else none)
      (System.init 1 : System (Fin 2) (Fin 1) Nat) [.test 0 70, .test 1 80, .link 0 (some 1),
        .link 1 (some 2)]).map (fun s => s.queue.qnodeNum) = some 2 := by decide
  obtain ⟨s, hs, hnum⟩ := Option.map_eq_some_iff.mp hfold
  exact ⟨_, s, Run.ofFold _ _ _ _ hs, rfl, hnum⟩

/-! ## The condition is needed -/

section Crowded

variable [Fintype π] [DecidableEq π] [DecidableEq η] {l : List (Nat × δ)}

/-- With more producers behind the test than there is room for, insertions alone exceed the limit. -/
theorem crowded_overfull (n : Nat) (h : Inv s l) (hn : s.queue.maxQnodeNum < s.queue.qnodeNum + n)
    (hcrowd : s.queue.maxQnodeNum < s.queue.qnodeNum + testedCount s)
    (hmax : s.queue.maxQnodeNum + 1 < 2 ^ 32) : ∃ (es : List (Event π η δ)) (s' : System π η δ),
      Run (fun s e s' => Permitted s e ∧ s.step e = some s') s es s' ∧
        s.queue.maxQnodeNum < s'.queue.qnodeNum := by
  induction n generalizing s l with
  | zero => exact ⟨[], s, .nil, hn⟩
  | succ n ih =>
    by_cases hover : s.queue.maxQnodeNum < s.queue.qnodeNum
    · exact ⟨[], s, .nil, hover⟩
    · have hpos : 0 < (tested s).card := by
        show 0 < testedCount s
        omega
      obtain ⟨i, hi⟩ := card_pos.mp hpos
      obtain ⟨data, hdata⟩ : ∃ data, s.producer i = .tested data := by
        cases hp : s.producer i with
        | tested data => exact ⟨data, rfl⟩
        | idle => simp [hp, Producer.isTested] at hi
        | linked num => simp [hp, Producer.isTested] at hi
      obtain ⟨a, ha⟩ := exists_fresh s.queue.data
      obtain ⟨num, s₁, hs₁, -, -, h₁⟩ := h.linkSome hdata ha
      obtain ⟨hmax₁, hnum₁, hcount₁⟩ := link_count hs₁
      rw [u32_of_lt (by omega)] at hnum₁
      obtain ⟨es, s', hrun, hover'⟩ := ih h₁ (by omega) (by omega) (by omega)
      have hp : Permitted s (.link i (some a)) := ha
      have hfirst : Run (fun s e s' => Permitted s e ∧ s.step e = some s') s [.link i (some a)] s₁ :=
        .single ⟨hp, hs₁⟩
      exact ⟨_, s', hfirst.trans hrun, by omega⟩

/-- A test that passes without room for everyone behind it can be followed by insertions past the
limit. -/
theorem not_roomy_overfull {size : Int} (hsize : size < 2 ^ 31) {es : List (Event π η δ)}
    (hr : Run (fun s e s' => Permitted s e ∧ s.step e = some s') (System.init size) es s) {i : π}
    (data : δ) (hidle : s.producer i = .idle) (hnot : ¬ Roomy s (.test i data)) :
    ∃ (es' : List (Event π η δ)) (s' : System π η δ),
      Run (fun s e s' => Permitted s e ∧ s.step e = some s') (System.init size)
        (es ++ .test i data :: es') s' ∧ s.queue.maxQnodeNum < s'.queue.qnodeNum := by
  obtain ⟨hfull, hcrowd⟩ : s.queue.isFull = false ∧
      ¬ s.queue.qnodeNum + testedCount s < s.queue.maxQnodeNum := by
    simpa [Roomy] using hnot
  obtain ⟨l, h⟩ := Inv.run hr
  have htest : s.step (.test i data) = some (s.setProducer i (.tested data)) := by
    simp [System.step, System.test, hidle, hfull]
  have hcount : testedCount (s.setProducer i (.tested data)) = testedCount s + 1 := by
    have hno : i ∉ tested s := by simp [hidle, Producer.isTested]
    rw [testedCount, tested_enter rfl, card_insert_of_notMem hno, testedCount]
  have hmax : s.queue.maxQnodeNum + 1 < 2 ^ 32 := by
    rw [run_max hr]
    show (if size < 0 then aqueueMaxNodes else u32OfInt size) + 1 < 2 ^ 32
    unfold aqueueMaxNodes u32OfInt
    split <;> omega
  have hq : (s.setProducer i (.tested data)).queue = s.queue := rfl
  obtain ⟨es', s', hrun, hover⟩ := crowded_overfull (s.queue.maxQnodeNum + 1) (h.test htest)
    (by rw [hq]; omega) (by rw [hq, hcount]; omega) hmax
  have hp : Permitted s (.test i data) := trivial
  have hall := (hr.snoc ⟨hp, htest⟩).trans hrun
  rw [List.append_assoc] at hall
  exact ⟨es', s', hall, hover⟩

end Crowded

end Xqueue
end Xlibc
