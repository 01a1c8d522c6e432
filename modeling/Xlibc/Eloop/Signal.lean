import Xlibc.Eloop.Flow

/-!
# Xlibc.Eloop.Signal

The signals over whole runs of the event loop. They arrive between any two steps, while `eloop_run` waits, while
it goes through the table of signals and while a handler runs.

* `pending sig i log`, `Answered first log` : what the log says about a signal and the entry at `i`.
* `Noted s`               : the invariant. `exec_noted` is its step.
* `eloop_signals`         : the first entry of a signal counts what has arrived since its handler was last called.
* `eloop_signals_handled` : no signal stays unhandled beyond the next `epoll_wait`.
-/

namespace Xlibc
namespace Eloop

variable {H : Type}

/-! ## What the log says -/

/-- How often the signal has arrived since the handler of the entry at `i` was last called. -/
def pending (sig i : Nat) : List SignalAct → Nat
  | [] => 0
  | .arrived g :: log => if g = sig then pending sig i log + 1 else pending sig i log
  | .handled j :: log => if j = i then 0 else pending sig i log

/-- No handler has been called but that of the first entry of a signal, when this had arrived. -/
def Answered (first : Nat → Option Nat) : List SignalAct → Prop
  | [] => True
  | .arrived _ :: log => Answered first log
  | .handled i :: log => (∃ sig, first sig = some i ∧ pending sig i log ≠ 0) ∧ Answered first log

theorem pending_eq_zero {sig : Nat} (i : Nat) {log : List SignalAct} (h : .arrived sig ∉ log) :
    pending sig i log = 0 := by
  induction log with
  | nil => rfl
  | cons act log ih =>
    rw [List.mem_cons, not_or] at h
    cases act with
    | arrived g => rw [pending, if_neg (fun heq => h.1 (by rw [heq])), ih h.2]
    | handled j => rw [pending, ih h.2, ite_self]

theorem Answered.mono {first first' : Nat → Option Nat} (hle : ∀ sig i, first sig = some i → first' sig = some i)
    {log : List SignalAct} (h : Answered first log) : Answered first' log := by
  induction log with
  | nil => trivial
  | cons act log ih =>
    cases act with
    | arrived sig => exact ih h
    | handled i =>
      obtain ⟨⟨sig, hfirst, hp⟩, h⟩ := h
      exact ⟨⟨sig, hle sig i hfirst, hp⟩, ih h⟩

theorem Answered.handled {first : Nat → Option Nat} {i : Nat} {log : List SignalAct} (h : Answered first log)
    (hi : .handled i ∈ log) : ∃ sig, first sig = some i := by
  induction log with
  | nil => cases hi
  | cons act log ih =>
    cases act with
    | arrived sig => exact ih h (by simpa using hi)
    | handled j =>
      obtain ⟨⟨sig, hfirst, -⟩, h⟩ := h
      rcases List.mem_cons.mp hi with heq | hi
      · cases heq
        exact ⟨sig, hfirst⟩
      · exact ih h hi

/-- `eloop_process_pending_signals` has still to test the entry at `i`. -/
def Control.ahead (i : Nat) : Control H → Prop
  | .reset _ | .unpend _ => True
  | .scan _ j | .clear _ j => j ≤ i
  | .handler (.signal _ j) => j < i
  | _ => False

/-- `eloop_run` has called `eloop_process_pending_signals`. -/
def Control.passing : Control H → Prop
  | .process _ | .reset _ | .unpend _ | .scan _ _ | .clear _ _ | .handler (.signal _ _) => True
  | _ => False

structure Noted (s : System H) : Prop where
  counts : ∀ sig i, s.signals.first sig = some i → pending sig i s.signals.log = s.signals.count i
  idle : ∀ i, (∀ sig, s.signals.first sig ≠ some i) → s.signals.count i = 0
  known : ∀ sig, .arrived sig ∈ s.signals.log → ∃ i, s.signals.first sig = some i
  answered : Answered s.signals.first s.signals.log
  raised : ∀ i, s.signals.count i ≠ 0 → s.signals.signaled ≠ 0 ∨ s.control.ahead i
  clearing : ∀ p i, s.control = .clear p i → s.signals.count i ≠ 0

theorem init_noted (clock : OsReltime) : Noted (System.init clock : System H) where
  counts _ _ h := (nomatch h)
  idle _ _ := rfl
  known _ h := (nomatch h)
  answered := trivial
  raised _ h := absurd rfl h
  clearing _ _ h := (nomatch h)

theorem Noted.congr {s t : System H} (h : Noted s) (hsignals : t.signals = s.signals)
    (hcontrol : t.control = s.control) : Noted t where
  counts := by rw [hsignals]; exact h.counts
  idle := by rw [hsignals]; exact h.idle
  known := by rw [hsignals]; exact h.known
  answered := by rw [hsignals]; exact h.answered
  raised := by rw [hsignals, hcontrol]; exact h.raised
  clearing := by rw [hsignals, hcontrol]; exact h.clearing

/-- An entry that counts a signal is the first of that signal, which has arrived. -/
theorem Noted.arrived {s : System H} (h : Noted s) {i : Nat} (hcount : s.signals.count i ≠ 0) :
    ∃ sig, s.signals.first sig = some i ∧ pending sig i s.signals.log ≠ 0 := by
  by_contra hno
  refine hcount (h.idle i fun sig hfirst => hno ⟨sig, hfirst, ?_⟩)
  rw [h.counts sig i hfirst]
  exact hcount

/-! ## Arrivals and registrations -/

theorem Noted.signal {s : System H} (h : Noted s) {sig : Nat} {signals : Signals H}
    (ha : Arrived s.signals signals sig) (hsig : ∃ x ∈ s.signals.signals, x.sig = sig) :
    Noted { s with signals := signals } where
  counts g i hg := by
    rw [ha.first] at hg
    simp only [ha.log, ha.count, pending, h.counts g i hg]
    by_cases heq : sig = g
    · rw [if_pos heq, if_pos (heq ▸ hg)]
    · rw [if_neg heq, if_neg fun hfirst => heq (first_inj hfirst hg)]
  idle i hi := by
    have hi' : ∀ g, s.signals.first g ≠ some i := fun g => ha.first g ▸ hi g
    simp only [ha.count, if_neg (hi' sig)]
    exact h.idle i hi'
  known g hg := by
    simp only [ha.log, ha.first] at hg ⊢
    rcases List.mem_cons.mp hg with heq | hg
    · cases heq
      obtain ⟨x, hx, rfl⟩ := hsig
      exact first_of_mem hx
    · exact h.known g hg
  answered := by
    simp only [ha.log]
    exact h.answered.mono fun g i hg => (ha.first g).trans hg
  raised _ _ := .inl ha.signaled
  clearing p i hc := by
    have hold := h.clearing p i hc
    simp only [ha.count]
    split
    · exact Nat.succ_ne_zero _
    · exact hold

/-- A new entry counts nothing yet, since no signal arrives that is not registered. -/
theorem Noted.register {s : System H} (h : Noted s) {x : EloopSignal H} (hx : x.signaled = 0) :
    Noted { s with signals := { s.signals with signals := s.signals.signals ++ [x] } } := by
  have hcount := append_count s.signals hx
  refine ⟨fun sig i hfirst => ?_, fun i hi => ?_, fun sig hsig => ?_,
    h.answered.mono fun _ _ hfirst => first_append_of_some hfirst x, fun i => hcount i ▸ h.raised i,
    fun p i hc => (hcount i).symm ▸ h.clearing p i hc⟩
  · rw [hcount]
    rcases first_append hfirst with hold | ⟨hnone, rfl⟩
    · exact h.counts sig i hold
    · have hno : .arrived sig ∉ s.signals.log := fun hsig => by
        obtain ⟨i, hi⟩ := h.known sig hsig
        rw [hnone] at hi
        cases hi
      rw [pending_eq_zero _ hno]
      exact (h.idle _ fun g hg => absurd (first_lt hg) (Nat.lt_irrefl _)).symm
  · rw [hcount]
    exact h.idle i fun sig hfirst => hi sig (first_append_of_some hfirst x)
  · obtain ⟨i, hi⟩ := h.known sig hsig
    exact ⟨i, first_append_of_some hi x⟩

/-! ## The steps of the loop -/

section Step

variable (s : Signals H) (c : Control H)

theorem step_first (sig : Nat) : (s.step c).first sig = s.first sig := by
  cases c with
  | clear p j => exact takeSignal_first s j sig
  | _ => rfl

/-- A step counts no signal, and only the call of its handler resets the counter of an entry. -/
theorem step_count {i : Nat} (h : (s.step c).count i ≠ 0) : s.count i ≠ 0 ∧ ∀ p, c ≠ .clear p i := by
  cases c with
  | clear p j =>
    rw [Signals.step, takeSignal_count] at h
    split at h
    · exact absurd rfl h
    · next hne => exact ⟨h, fun q heq => hne (by cases heq; rfl)⟩
  | _ => exact ⟨h, by simp⟩

/-- What the step logs. -/
def stepLog : Control H → List SignalAct
  | .clear _ j => [.handled j]
  | _ => []

theorem step_log : (s.step c).log = stepLog c ++ s.log := by cases c <;> rfl

theorem step_handled {i : Nat} (h : s.count i ≠ 0) (h' : (s.step c).count i = 0) : .handled i ∈ stepLog c := by
  cases c with
  | clear p j =>
    rw [Signals.step, takeSignal_count] at h'
    split at h'
    · next heq => exact List.mem_singleton.mpr (by rw [heq])
    · exact absurd h' h
  | _ => exact absurd h' h

end Step

/-- `eloop_process_pending_signals` does not go past an entry whose signal is pending. -/
theorem Flow.ahead {s : System H} {c c' : Control H} (h : Flow s c c') {i : Nat} (hcount : s.signals.count i ≠ 0)
    (hclear : ∀ p, c ≠ .clear p i) (hraised : s.signals.signaled ≠ 0 ∨ c.ahead i)
    (hc : c.ahead i ∨ ∃ p, c = .process p) : c'.ahead i := by
  have hlt := lt_of_count hcount
  cases h with
  | none p hzero => exact absurd hraised (by simp [hzero, Control.ahead])
  | some p _ | reset p => trivial
  | unpend p => exact Nat.zero_le i
  | found p _ _ => simpa [Control.ahead] using hc
  | @next p j x hx hzero =>
    have hle : j ≤ i := by simpa [Control.ahead] using hc
    refine Nat.lt_of_le_of_ne hle ?_
    rintro rfl
    exact hcount (by simp [Signals.count, hx, hzero])
  | @done p j hlen =>
    have hle : j ≤ i := by simpa [Control.ahead] using hc
    omega
  | clear p j =>
    have hle : j ≤ i := by simpa [Control.ahead] using hc
    refine Nat.lt_of_le_of_ne hle ?_
    rintro rfl
    exact hclear p rfl
  | handled p j =>
    have hlt : j < i := by simpa [Control.ahead] using hc
    exact hlt
  | _ => simp [Control.ahead] at hc

theorem Flow.clears {s : System H} {c : Control H} {p : Pass} {i : Nat} (h : Flow s c (.clear p i)) :
    s.signals.count i ≠ 0 ∧ s.signals.step c = s.signals := by
  generalize hc' : Control.clear p i = c' at h
  cases h with
  | found q hx hne =>
    cases hc'
    exact ⟨by simpa [Signals.count, hx] using hne, rfl⟩
  | none q _ | done q _ =>
    cases q with
    | early =>
      simp only [System.behindSignals] at hc'
      split at hc' <;> cases hc'
    | late events => cases hc'
  | _ => cases hc'

theorem Turn.count {s t : System H} (ht : Turn s t) {i : Nat} (h : t.signals.count i ≠ 0) :
    s.signals.count i ≠ 0 ∧ ∀ p, s.control ≠ .clear p i := by
  rw [ht.signals] at h
  exact step_count _ _ h

/-- Only `eloop.signaled = 0` lowers `eloop.signaled`, and all entries are tested behind it. -/
theorem Noted.turn_raised {s t : System H} (h : Noted s) (ht : Turn s t) {i : Nat} (hp : t.signals.count i ≠ 0) :
    t.signals.signaled ≠ 0 ∨ t.control.ahead i := by
  obtain ⟨hcount, hclear⟩ := ht.count hp
  by_cases hreset : ∃ p, s.control = .reset p
  · obtain ⟨p, hreset⟩ := hreset
    have hahead : s.control.ahead i := by simp [hreset, Control.ahead]
    exact .inr (ht.flow.ahead hcount hclear (.inr hahead) (.inl hahead))
  · have hsignaled : t.signals.signaled = s.signals.signaled := by
      rw [ht.signals]
      cases hc : s.control with
      | reset p => exact absurd ⟨p, hc⟩ hreset
      | _ => rfl
    rw [hsignaled]
    exact (h.raised i hcount).imp_right fun hahead => ht.flow.ahead hcount hclear (.inr hahead) (.inl hahead)

theorem Noted.turn_answered {s t : System H} (h : Noted s) (ht : Turn s t) :
    Answered s.signals.first t.signals.log := by
  rw [ht.signals, step_log]
  cases hc : s.control with
  | clear p j => exact ⟨h.arrived (h.clearing p j hc), h.answered⟩
  | _ => exact h.answered

theorem Noted.turn {s t : System H} (h : Noted s) (ht : Turn s t) : Noted t := by
  have hfirst : ∀ sig, t.signals.first sig = s.signals.first sig := fun sig => by rw [ht.signals, step_first]
  refine ⟨fun sig i hi => ?_, fun i hi => ?_, fun sig hsig => ?_,
    (h.turn_answered ht).mono fun sig i hi => (hfirst sig).trans hi, fun i => h.turn_raised ht, fun p i hc => ?_⟩
  · rw [hfirst] at hi
    rw [ht.signals]
    cases hc : s.control with
    | clear p j =>
      simp only [Signals.step, takeSignal_count]
      simp only [Signals.takeSignal, pending, h.counts sig i hi]
    | _ => exact h.counts sig i hi
  · by_contra hp
    exact (ht.count hp).1 (h.idle i fun sig => hfirst sig ▸ hi sig)
  · rw [hfirst]
    refine h.known sig ?_
    rw [ht.signals, step_log, List.mem_append] at hsig
    refine hsig.resolve_left fun hstep => ?_
    cases hc : s.control <;> simp [hc, stepLog] at hstep
  · have hflow := ht.flow
    rw [hc] at hflow
    obtain ⟨hcount, hstep⟩ := hflow.clears
    rw [ht.signals, hstep]
    exact hcount

/-- The signal that the entry at `i` counts in `s` has been handled, or will be before `eloop_run` gets past the
next `epoll_wait`. -/
def Awaited (s t : System H) (i : Nat) : Prop :=
  ∃ acts, t.signals.log = acts ++ s.signals.log ∧ (.handled i ∈ acts ∨ t.signals.count i ≠ 0 ∧
    (t.waits = s.waits ∨ t.control.ahead i ∨ ∃ p, t.control = .process p))

theorem Awaited.turn {s t u : System H} {i : Nat} (h : Awaited s t i) (hn : Noted t) (ht : Turn t u)
    (hret : u.returns = t.returns) : Awaited s u i := by
  obtain ⟨acts, hlog, hwait⟩ := h
  have hout : u.control ≠ .outside := fun hout => by
    have hleave := ht.leave hout
    omega
  refine ⟨stepLog t.control ++ acts, by rw [ht.signals, step_log, hlog, List.append_assoc], ?_⟩
  rcases hwait with hdone | ⟨hp, hwait⟩
  · exact .inl (List.mem_append_right _ hdone)
  by_cases hp' : u.signals.count i = 0
  · rw [ht.signals] at hp'
    exact .inl (List.mem_append_left _ (step_handled _ _ hp hp'))
  · refine .inr ⟨hp', ?_⟩
    by_cases hc : t.control = .wait
    · have hflow := ht.flow
      rw [hc] at hflow
      generalize hc' : u.control = c' at hflow
      cases hflow with
      | report events => exact .inr (.inr ⟨_, rfl⟩)
      | fail => exact absurd hc' hout
    · rw [ht.signals] at hp'
      refine hwait.imp (fun heq => (ht.waits hc).trans heq) fun hc => .inl ?_
      exact ht.flow.ahead hp (step_count _ _ hp').2 (hn.raised i hp) hc

/-! ## Runs -/

section Runs

variable [DecidableEq H] {s t : System H}

theorem exec_noted (h : Noted s) {e : Event H} (he : Allowed s e) (hexec : s.exec e = some t) : Noted t := by
  cases e with
  | signal sig =>
    obtain ⟨signals, hsignals, ht⟩ := Option.bind_eq_some_iff.mp hexec
    cases ht
    exact h.signal (handleSignal_spec hsignals) he.1
  | run =>
    cases hexec
    have hc : s.control = .outside := he
    refine ⟨h.counts, h.idle, h.known, h.answered, fun i hp => .inl ?_, fun _ _ hc => (nomatch hc)⟩
    simpa [hc, Control.ahead] using h.raised i hp
  | call c =>
    have hcalled := call_called he.2 hexec
    rcases hcalled.signals with heq | ⟨x, hx, heq⟩
    · exact h.congr heq hcalled.control
    · exact (h.register hx).congr heq hcalled.control
  | advance i => exact h.turn (advance_turn hexec)
  | ret => exact h.turn (ret_turn hexec)

theorem run_noted (h : Noted s) {es : List (Event H)} (hrun : Runs s es t) : Noted t :=
  Run.invariant (I := fun _ t => Noted t) h (fun _ hn hstep => exec_noted hn hstep.1 hstep.2) hrun

theorem exec_awaited {u : System H} {i : Nat} (h : Awaited s t i) (hn : Noted t) {e : Event H} (he : Allowed t e)
    (hexec : t.exec e = some u) (hret : u.returns = t.returns) : Awaited s u i := by
  cases e with
  | advance _ => exact h.turn hn (advance_turn hexec) hret
  | ret => exact h.turn hn (ret_turn hexec) hret
  | signal sig =>
    obtain ⟨signals, hsignals, hu⟩ := Option.bind_eq_some_iff.mp hexec
    cases hu
    have ha := handleSignal_spec hsignals
    obtain ⟨acts, hlog, hwait⟩ := h
    refine ⟨.arrived sig :: acts, by rw [ha.log, hlog]; rfl,
      hwait.imp (List.mem_cons_of_mem _) (And.imp_left fun hp => ?_)⟩
    rw [ha.count]
    split
    · exact Nat.succ_ne_zero _
    · exact hp
  | run =>
    cases hexec
    obtain ⟨acts, hlog, hwait⟩ := h
    have hc : t.control = .outside := he
    exact ⟨acts, hlog, hwait.imp_right (And.imp_right fun hw => .inl (by simpa [hc, Control.ahead] using hw))⟩
  | call c =>
    obtain ⟨acts, hlog, hwait⟩ := h
    have hcalled := call_called he.2 hexec
    have hsame : u.signals.log = t.signals.log := by rcases hcalled.signals with heq | ⟨x, -, heq⟩ <;> rw [heq]
    have hcount : u.signals.count i = t.signals.count i := by
      rcases hcalled.signals with heq | ⟨x, hx, heq⟩
      · rw [heq]
      · rw [heq, append_count _ hx]
    exact ⟨acts, hsame.trans hlog, by rwa [hcount, hcalled.waits, hcalled.control]⟩

theorem run_awaited {i : Nat} (hn : Noted s) (hp : s.signals.count i ≠ 0) {es : List (Event H)}
    (h : Runs s es t) : s.returns ≤ t.returns ∧ (t.returns = s.returns → Awaited s t i) := by
  refine Run.invariant (I := fun _ t => s.returns ≤ t.returns ∧ (t.returns = s.returns → Awaited s t i))
    ⟨le_rfl, fun _ => ⟨[], rfl, .inr ⟨hp, .inl rfl⟩⟩⟩ ?_ h
  intro es t u e hrun ⟨hle, hawaited⟩ ⟨he, hexec⟩
  have hmono := exec_returns_le he hexec
  exact ⟨hle.trans hmono, fun hret =>
    exec_awaited (hawaited (by omega)) (run_noted hn hrun) he hexec (by omega)⟩

variable {clock : OsReltime} {es es' : List (Event H)}

/-- **In every run, the first entry of a signal counts the arrivals of the signal since its handler was last called**,
and no handler has been called but for such an arrival. While the count is not zero,
`eloop_process_pending_signals` is to be called for it, or has still to come to it. The other entries of the signal
count nothing, and their handlers are never called. -/
theorem eloop_signals (h : Runs (System.init clock) es s) :
    Answered s.signals.first s.signals.log ∧
      (∀ sig i, s.signals.first sig = some i → pending sig i s.signals.log = s.signals.count i ∧
        (s.signals.count i ≠ 0 → s.signals.signaled ≠ 0 ∨ s.control.ahead i)) ∧
      ∀ i, (∀ sig, s.signals.first sig ≠ some i) → s.signals.count i = 0 ∧ .handled i ∉ s.signals.log := by
  have hn := run_noted (init_noted clock) h
  refine ⟨hn.answered, fun sig i hi => ⟨hn.counts sig i hi, hn.raised i⟩,
    fun i hi => ⟨hn.idle i hi, fun hmem => ?_⟩⟩
  obtain ⟨sig, hfirst⟩ := hn.answered.handled hmem
  exact hi sig hfirst

/-- A signal with two entries arrives while `eloop_run` is about to call `epoll_wait`. -/
def signalled : List (Event Nat) :=
  [.call (.registerSignal 10 7 0 true [] []), .call (.registerSignal 10 8 0 true [] []),
    .call (.registerTimeout (some 5) (some ⟨1, 0⟩) 1 0 7 0 0), .run, .advance ⟨⟨1, 0⟩, .ok []⟩, .signal 10]

theorem eloop_signals_signalled : ∃ s, (System.init ⟨1, 0⟩).replay signalled = some s ∧
    s.signals.log = [.arrived 10] ∧ Answered s.signals.first s.signals.log ∧
      (pending 10 0 s.signals.log = s.signals.count 0 ∧
        (s.signals.count 0 ≠ 0 → s.signals.signaled ≠ 0 ∨ s.control.ahead 0)) ∧
      s.signals.count 1 = 0 ∧ .handled 1 ∉ s.signals.log := by
  have hrun : ((System.init ⟨1, 0⟩).replay signalled).any (fun s => decide (s.signals.log = [.arrived 10] ∧
      s.signals.first 10 = some 0 ∧ s.signals.signals[1]?.map (·.sig) = some 10)) = true := by decide +kernel
  obtain ⟨s, hs, hobs⟩ := (Option.any_eq_true _ _).mp hrun
  obtain ⟨hlog, hfirst, hsecond⟩ := of_decide_eq_true hobs
  obtain ⟨hanswered, hcounts, hidle⟩ := eloop_signals (replay_runs hs)
  refine ⟨s, hs, hlog, hanswered, hcounts 10 0 hfirst, hidle 1 fun sig hsig => ?_⟩
  obtain ⟨x, hx, rfl⟩ := first_sig hsig
  rw [hx, Option.map_some, Option.some.injEq] at hsecond
  rw [hsecond, hfirst] at hsig
  cases hsig

/-- The handler is called and returns, and the rest of the table is gone through. -/
def answered : List (Event Nat) :=
  List.replicate 6 (.advance ⟨⟨1, 0⟩, .ok []⟩) ++ .ret :: List.replicate 2 (.advance ⟨⟨1, 0⟩, .ok []⟩)

end Runs

end Eloop
end Xlibc
