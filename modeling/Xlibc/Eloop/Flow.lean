import Xlibc.Eloop.Correct

/-!
# Xlibc.Eloop.Flow

The control flow of `eloop_run`, apart from what its steps do to the timeouts and the sockets.

* `Flow s`   : the places to which `eloop_run` may go.
* `Turn s t` : a step of `eloop_run`, or the return of a handler, as far as the signals and the end of the
  loop depend on it. `advance_turn` and `ret_turn` are the steps of the model.
* `Called s t` : the same for a call of the application, which `call_called` shows.
-/

namespace Xlibc
namespace Eloop

variable {H : Type}

/-! ## The graph -/

/-- Where `eloop_process_pending_signals` returns to. -/
def System.behindSignals (s : System H) : Pass → Control H
  | .early => if s.terminate then .outside else .wait
  | .late events => .timers events

inductive Flow (s : System H) : Control H → Control H → Prop where
  | stop : Flow s .top .outside
  | early (h : s.terminate = false) : Flow s .top (.process .early)
  | wait (h : s.terminate = false) : Flow s .top .wait
  | report (events : List Nat) : Flow s .wait (.process (.late events))
  | fail : Flow s .wait .outside
  | none (p : Pass) (h : s.signals.signaled = 0) : Flow s (.process p) (s.behindSignals p)
  | some (p : Pass) (h : s.signals.signaled ≠ 0) : Flow s (.process p) (.reset p)
  | reset (p : Pass) : Flow s (.reset p) (.unpend p)
  | unpend (p : Pass) : Flow s (.unpend p) (.scan p 0)
  | found (p : Pass) {i : Nat} {x : EloopSignal H} (hx : s.signals.signals[i]? = .some x) (h : x.signaled ≠ 0) :
    Flow s (.scan p i) (.clear p i)
  | next (p : Pass) {i : Nat} {x : EloopSignal H} (hx : s.signals.signals[i]? = .some x) (h : x.signaled = 0) :
    Flow s (.scan p i) (.scan p (i + 1))
  | done (p : Pass) {i : Nat} (h : s.signals.signals.length ≤ i) : Flow s (.scan p i) (s.behindSignals p)
  | clear (p : Pass) (i : Nat) : Flow s (.clear p i) (.handler (.signal p i))
  | handled (p : Pass) (i : Nat) : Flow s (.handler (.signal p i)) (.scan p (i + 1))
  | expired (x : EloopTimeout H) (events : List Nat) : Flow s (.timers events) (.handler (.timeout x events))
  | again (events : List Nat) : Flow s (.timers events) .top
  | events (events : List Nat) : Flow s (.timers events) (.dispatch events)
  | firedAgain (x : EloopTimeout H) (events : List Nat) : Flow s (.handler (.timeout x events)) .top
  | firedEvents (x : EloopTimeout H) (events : List Nat) : Flow s (.handler (.timeout x events)) (.dispatch events)
  | over : Flow s (.dispatch []) .top
  | skip (fd : Nat) (events : List Nat) : Flow s (.dispatch (fd :: events)) (.dispatch events)
  | sock (x : EloopSock H) (fd : Nat) (events : List Nat) : Flow s (.dispatch (fd :: events))
    (.handler (.sock x events))
  | changed (x : EloopSock H) (events : List Nat) : Flow s (.handler (.sock x events)) .top
  | rest (x : EloopSock H) (events : List Nat) : Flow s (.handler (.sock x events)) (.dispatch events)

/-- What the step of `eloop_run` from a place does to the signals. -/
def Signals.step (s : Signals H) : Control H → Signals H
  | .reset _ => { s with signaled := 0 }
  | .unpend _ => { s with pendingTerminate := false }
  | .clear _ j => s.takeSignal j
  | _ => s

structure Turn (s t : System H) : Prop where
  flow : Flow s s.control t.control
  signals : t.signals = s.signals.step s.control
  waits : s.control ≠ .wait → t.waits = s.waits
  stay : t.control ≠ .outside → t.returns = s.returns ∧ t.terminate = s.terminate
  leave : t.control = .outside → t.returns = s.returns + 1

/-! ## The steps of the model -/

variable {s t : System H}

/-- A step that goes to `control`, where `eloop_run` does not end, and leaves the rest as it is. -/
theorem Turn.goto {control : Control H} (hflow : Flow s s.control control) (hout : control ≠ .outside)
    (hsignals : s.signals.step s.control = s.signals) :
    Turn s { s with control := control } where
  flow := hflow
  signals := hsignals.symm
  waits _ := rfl
  stay _ := ⟨rfl, rfl⟩
  leave h := absurd h hout

theorem processed_turn {p : Pass} (hflow : Flow s s.control (s.behindSignals p))
    (hsignals : s.signals.step s.control = s.signals) : Turn s (s.processed p) := by
  cases p with
  | late events => exact .goto hflow (by simp) hsignals
  | early =>
    by_cases hterm : s.terminate = true
    · rw [System.behindSignals, if_pos hterm] at hflow
      rw [System.processed, if_pos hterm]
      exact ⟨hflow, hsignals.symm, fun _ => rfl, fun h => absurd rfl h, fun _ => rfl⟩
    · rw [System.behindSignals, if_neg hterm] at hflow
      rw [System.processed, if_neg hterm]
      exact .goto hflow (by simp) hsignals

theorem behindTimers_turn {events : List Nat} (htop : Flow s s.control .top)
    (hdispatch : Flow s s.control (.dispatch events))
    (hsignals : s.signals.step s.control = s.signals) : Turn s (s.behindTimers events) := by
  unfold System.behindTimers
  split
  · exact .goto htop (by simp) hsignals
  · exact .goto hdispatch (by simp) hsignals

theorem wait_turn {i : Input} (hc : s.control = .wait) (h : s.wait i = some t) : Turn s t := by
  unfold System.wait at h
  cases hms : s.nextTimeoutMs i.now with
  | none => simp [hms] at h
  | some ms =>
    simp only [hms, Option.bind_eq_bind, Option.bind_some, Option.some.injEq] at h
    subst h
    unfold System.poll
    have hreport : ∀ events, Turn s (System.reported
        { s with timeoutMs := ms, clock := i.now, waits := s.waits + 1 } events) := fun events =>
      ⟨by rw [hc]; exact .report events, by rw [hc]; rfl, fun hne => absurd hc hne, fun _ => ⟨rfl, rfl⟩,
        fun h => (nomatch h)⟩
    split
    · exact hreport []
    · cases i.epoll with
      | ok events => exact hreport events
      | error errno =>
        simp only []
        split
        · exact ⟨by rw [hc]; exact .fail, by rw [hc]; rfl, fun hne => absurd hc hne, fun h => absurd rfl h,
            fun _ => rfl⟩
        · exact hreport []

theorem top_turn (hc : s.control = .top) (h : s.top = some t) : Turn s t := by
  unfold System.top at h
  cases hempty : dlListEmpty s.timeouts.links .head with
  | none => simp [hempty] at h
  | some empty =>
    simp only [hempty, Option.bind_eq_bind, Option.bind_some] at h
    split at h
    · next hgo =>
      have hterm : s.terminate = false := by
        simp only [Bool.and_eq_true, Bool.not_eq_true'] at hgo
        exact hgo.1
      split at h <;> cases h
      · exact .goto (by rw [hc]; exact .early hterm) (by simp) (by rw [hc]; rfl)
      · exact .goto (by rw [hc]; exact .wait hterm) (by simp) (by rw [hc]; rfl)
    · cases h
      exact ⟨by rw [hc]; exact .stop, by rw [hc]; rfl, fun _ => rfl, fun h => absurd rfl h, fun _ => rfl⟩

theorem timers_turn {events : List Nat} (hc : s.control = .timers events) {i : Input}
    (h : s.timers events i = some t) : Turn s t := by
  unfold System.timers at h
  cases htake : s.timeouts.takeExpired i.now with
  | none => simp [htake] at h
  | some r =>
    obtain ⟨x, timeouts⟩ := r
    simp only [htake, Option.bind_eq_bind, Option.bind_some] at h
    cases x with
    | none =>
      cases h
      unfold System.behindTimers
      simp only []
      split
      · exact ⟨by rw [hc]; exact .again events, by rw [hc]; rfl, fun _ => rfl, fun _ => ⟨rfl, rfl⟩,
          fun h => (nomatch h)⟩
      · exact ⟨by rw [hc]; exact .events events, by rw [hc]; rfl, fun _ => rfl, fun _ => ⟨rfl, rfl⟩,
          fun h => (nomatch h)⟩
    | some x =>
      cases h
      exact ⟨by rw [hc]; exact .expired x events, by rw [hc]; rfl, fun _ => rfl, fun _ => ⟨rfl, rfl⟩,
        fun h => (nomatch h)⟩

theorem scan_turn {p : Pass} {i : Nat} (hc : s.control = .scan p i) : Turn s (s.scan p i) := by
  have hsignals : s.signals.step s.control = s.signals := by rw [hc]; rfl
  unfold System.scan
  cases hx : s.signals.signals[i]? with
  | none =>
    have hdone : Flow s s.control (s.behindSignals p) := by
      rw [hc]
      exact .done p (List.getElem?_eq_none_iff.mp hx)
    exact processed_turn hdone hsignals
  | some x =>
    simp only []
    split
    · next hne => exact .goto (by rw [hc]; exact .found p hx hne) (by simp) hsignals
    · next hzero =>
      exact .goto (by rw [hc]; exact .next p hx (by simpa using hzero)) (by simp) hsignals

theorem dispatch_turn {events : List Nat} (hc : s.control = .dispatch events) (h : s.dispatch events = some t) :
    Turn s t := by
  have hsignals : s.signals.step s.control = s.signals := by rw [hc]; rfl
  cases events with
  | nil =>
    cases h
    exact .goto (by rw [hc]; exact .over) (by simp) hsignals
  | cons fd events =>
    unfold System.dispatch at h
    cases hfd : s.socks.fdTable[fd]? with
    | none => simp [hfd] at h
    | some entry =>
      cases entry with
      | none => simp [hfd] at h
      | some x =>
        simp only [hfd, Option.bind_eq_bind, Option.bind_some] at h
        split at h <;> cases h
        · exact .goto (by rw [hc]; exact .skip fd events) (by simp) hsignals
        · exact .goto (by rw [hc]; exact .sock x fd events) (by simp) hsignals

theorem advance_turn {i : Input} (h : s.advance i = some t) : Turn s t := by
  unfold System.advance at h
  cases hc : s.control with
  | outside => simp [hc] at h
  | handler back => simp [hc] at h
  | top => exact top_turn hc (by simpa [hc] using h)
  | wait => exact wait_turn hc (by simpa [hc] using h)
  | process p =>
    have hsignals : s.signals.step s.control = s.signals := by rw [hc]; rfl
    simp only [hc, Option.some.injEq] at h
    subst h
    split
    · next hzero => exact processed_turn (by rw [hc]; exact .none p hzero) hsignals
    · next hne => exact .goto (by rw [hc]; exact .some p hne) (by simp) hsignals
  | reset p =>
    simp only [hc, Option.some.injEq] at h
    subst h
    exact ⟨by rw [hc]; exact .reset p, by rw [hc]; rfl, fun _ => rfl, fun _ => ⟨rfl, rfl⟩, fun h => (nomatch h)⟩
  | unpend p =>
    simp only [hc, Option.some.injEq] at h
    subst h
    exact ⟨by rw [hc]; exact .unpend p, by rw [hc]; rfl, fun _ => rfl, fun _ => ⟨rfl, rfl⟩,
      fun h => (nomatch h)⟩
  | scan p j =>
    simp only [hc, Option.some.injEq] at h
    subst h
    exact scan_turn hc
  | clear p j =>
    simp only [hc, Option.some.injEq] at h
    subst h
    exact ⟨by rw [hc]; exact .clear p j, by rw [hc]; rfl, fun _ => rfl, fun _ => ⟨rfl, rfl⟩,
      fun h => (nomatch h)⟩
  | timers events => exact timers_turn hc (by simpa [hc] using h)
  | dispatch events => exact dispatch_turn hc (by simpa [hc] using h)

theorem ret_turn (h : s.ret = some t) : Turn s t := by
  unfold System.ret at h
  split at h
  · next p i hc =>
    cases h
    exact .goto (by rw [hc]; exact .handled p i) (by simp) (by rw [hc]; rfl)
  · next x events hc =>
    cases h
    exact behindTimers_turn (by rw [hc]; exact .firedAgain x events) (by rw [hc]; exact .firedEvents x events)
      (by rw [hc]; rfl)
  · next x events hc =>
    cases h
    split
    · exact .goto (by rw [hc]; exact .changed x events) (by simp) (by rw [hc]; rfl)
    · exact .goto (by rw [hc]; exact .rest x events) (by simp) (by rw [hc]; rfl)
  · cases h

theorem Turn.returns_le (h : Turn s t) : s.returns ≤ t.returns := by
  by_cases hout : t.control = .outside
  · rw [h.leave hout]
    exact Nat.le_succ _
  · exact le_of_eq (h.stay hout).1.symm

/-! ## Calls -/

structure Called (s t : System H) : Prop where
  control : t.control = s.control
  signals : t.signals = s.signals ∨
    ∃ x, x.signaled = 0 ∧ t.signals = { s.signals with signals := s.signals.signals ++ [x] }
  waits : t.waits = s.waits
  returns : t.returns = s.returns
  terminate : s.terminate = true → t.terminate = true

theorem call_called [DecidableEq H] {c : Call H} (hc : CallAllowed s c) (h : s.call c = some t) : Called s t := by
  have hsame : ∀ (timeouts : Timeouts H) (socks : Socks H) (clock : OsReltime),
      Called s { s with timeouts := timeouts, socks := socks, clock := clock } := fun _ _ _ =>
    ⟨rfl, .inl rfl, rfl, rfl, fun hterm => hterm⟩
  cases c with
  | registerTimeout block clock secs usecs handler eloopData userData =>
    obtain ⟨⟨n, timeouts⟩, -, ht⟩ := Option.bind_eq_some_iff.mp h
    cases ht
    exact hsame _ _ _
  | cancelTimeout handler eloopData userData =>
    obtain ⟨⟨n, timeouts⟩, -, ht⟩ := Option.bind_eq_some_iff.mp h
    cases ht
    exact hsame _ _ _
  | cancelTimeoutOne now handler eloopData userData =>
    obtain ⟨⟨n, timeouts⟩, -, ht⟩ := Option.bind_eq_some_iff.mp h
    cases ht
    exact hsame _ _ _
  | depleteTimeout now block clock reqSecs reqUsecs handler eloopData userData =>
    obtain ⟨⟨n, timeouts⟩, -, ht⟩ := Option.bind_eq_some_iff.mp h
    cases ht
    exact hsame _ _ _
  | replenishTimeout now block clock reqSecs reqUsecs handler eloopData userData =>
    obtain ⟨⟨n, timeouts⟩, -, ht⟩ := Option.bind_eq_some_iff.mp h
    cases ht
    exact hsame _ _ _
  | registerSock sock type handler eloopData userData env =>
    obtain ⟨⟨n, socks⟩, -, ht⟩ := Option.bind_eq_some_iff.mp h
    cases ht
    exact hsame _ _ _
  | unregisterSock sock type ctl =>
    obtain ⟨socks, -, ht⟩ := Option.bind_eq_some_iff.mp h
    cases ht
    exact hsame _ _ _
  | close sock =>
    cases h
    exact hsame _ _ _
  | registerSignal sig handler userData success early late =>
    obtain ⟨rfl, rfl, hroom⟩ := hc
    simp only [System.call, registerSignal_quiet _ _ _ _ hroom, Option.bind_eq_bind, Option.bind_some,
      Option.some.injEq] at h
    subst h
    refine ⟨rfl, ?_, rfl, rfl, fun hterm => hterm⟩
    cases success with
    | true => exact .inr ⟨⟨sig, userData, handler, 0⟩, rfl, rfl⟩
    | false => exact .inl rfl
  | terminate =>
    cases h
    exact ⟨rfl, .inl rfl, rfl, rfl, fun _ => rfl⟩

theorem exec_returns_le [DecidableEq H] {e : Event H} (he : Allowed s e) (h : s.exec e = some t) :
    s.returns ≤ t.returns := by
  cases e with
  | signal sig =>
    obtain ⟨signals, -, ht⟩ := Option.bind_eq_some_iff.mp h
    cases ht
    exact le_rfl
  | run =>
    cases h
    exact le_rfl
  | call c => exact (call_called he.2 h).returns.ge
  | advance i => exact (advance_turn h).returns_le
  | ret => exact (ret_turn h).returns_le

end Eloop
end Xlibc
