import Xlibc.Eloop.Flow

/-!
# Xlibc.Eloop.Loop

How `eloop_run` calls the handlers of sockets, and how it ends.

* `eloop_dispatch`        : a reported event leads to a socket that is registered, and was when it was reported.
* `eloop_terminate_stops` : after `eloop_terminate`, `eloop_run` returns without waiting again.
-/

namespace Xlibc
namespace Eloop

variable {H : Type}

/-! ## What is left of a round -/

/-- A step of `eloop_run`, or of a handler that it has called. -/
def Event.own : Event H → Bool
  | .advance _ | .ret => true
  | .signal _ | .call _ | .run => false

def Pass.left : Pass → Nat
  | .early => 0
  | .late events => 2 * events.length + 4

/-- How many steps `eloop_run` takes at most, with `n` signals registered, until it tests `eloop.terminate` and
ends. -/
def Control.left (n : Nat) : Control H → Nat
  | .outside | .top => 1
  | .wait => 0
  | .process p => 3 * n + 4 + p.left
  | .reset p => 3 * n + 3 + p.left
  | .unpend p => 3 * n + 2 + p.left
  | .scan p i => 3 * (n - i) + 1 + p.left
  | .clear p i => 3 * (n - (i + 1)) + 3 + p.left
  | .handler (.signal p i) => 3 * (n - (i + 1)) + 2 + p.left
  | .timers events => 2 * events.length + 4
  | .handler (.timeout _ events) | .handler (.sock _ events) => 2 * events.length + 3
  | .dispatch events => 2 * events.length + 2

theorem left_le (n : Nat) (c : Control H) : c.left n ≤ 3 * n + 2 * (c.events.getD []).length + 8 := by
  have hpass : ∀ p : Pass, p.left ≤ 2 * (p.events.getD []).length + 4 := by
    rintro (_ | events) <;> simp [Pass.left, Pass.events]
  cases c with
  | outside | top | wait | timers events | dispatch events => simp [Control.left, Control.events]; try omega
  | process p | reset p | unpend p | scan p i | clear p i =>
    have hp := hpass p
    simp only [Control.left, Control.events]
    omega
  | handler back =>
    cases back with
    | signal p i =>
      have hp := hpass p
      simp only [Control.left, Control.events]
      omega
    | timeout x events | sock x events => simp [Control.left, Control.events]; omega

theorem left_behindSignals {s : System H} (hterm : s.terminate = true) (n : Nat) {p : Pass}
    (hout : s.behindSignals p ≠ .outside) : (s.behindSignals p).left n = p.left := by
  cases p with
  | early => simp [System.behindSignals, hterm] at hout
  | late events => rfl

theorem Flow.left {s : System H} {c c' : Control H} (h : Flow s c c') (hterm : s.terminate = true) (hwait : c ≠ .wait)
    (hout : c' ≠ .outside) {n : Nat} (hn : s.signals.signals.length ≤ n) : c'.left n + 1 ≤ c.left n := by
  cases h with
  | stop => exact absurd rfl hout
  | early hgo | wait hgo => rw [hterm] at hgo; cases hgo
  | report events | fail => exact absurd rfl hwait
  | none p _ =>
    rw [left_behindSignals hterm n hout, Control.left]
    omega
  | done p _ =>
    rw [left_behindSignals hterm n hout, Control.left]
    omega
  | found p hx _ | next p hx _ =>
    have hlt := (List.getElem?_eq_some_iff.mp hx).1
    simp only [Control.left]
    omega
  | some p _ | reset p | unpend p | clear p i => simp only [Control.left]; omega
  | handled p i => simp only [Control.left]; omega
  | _ => simp only [Control.left, List.length_cons, List.length_nil]; omega

/-! ## The end of the loop -/

theorem step_length (s : Signals H) (c : Control H) : (s.step c).signals.length = s.signals.length := by
  cases c with
  | clear p j => exact setSignaled_length s j 0
  | _ => rfl

/-- `eloop_run`, which is to end, has not, and has taken `own` of the steps that are left. -/
structure Ending (s t : System H) (own : Nat) : Prop where
  terminate : t.terminate = true
  waits : t.waits = s.waits
  length : s.signals.signals.length ≤ t.signals.signals.length
  left : ∀ n, t.signals.signals.length ≤ n → own + t.control.left n ≤ s.control.left n

namespace Ending

variable {s t u : System H} {m n : Nat}

theorem refl (hterm : s.terminate = true) : Ending s s 0 := ⟨hterm, rfl, le_rfl, fun _ _ => by omega⟩

theorem trans (h : Ending s t m) (h' : Ending t u n) : Ending s u (m + n) where
  terminate := h'.terminate
  waits := h'.waits.trans h.waits
  length := h.length.trans h'.length
  left k hk := by
    have hst := h.left k (h'.length.trans hk)
    have htu := h'.left k hk
    omega

end Ending

variable {s t : System H}

theorem Turn.ending (h : Turn s t) (hterm : s.terminate = true) (hwait : s.control ≠ .wait)
    (hret : t.returns = s.returns) : Ending s t 1 := by
  have hout : t.control ≠ .outside := fun hout => by
    have hleave := h.leave hout
    omega
  have hlength : t.signals.signals.length = s.signals.signals.length := by rw [h.signals, step_length]
  refine ⟨(h.stay hout).2.trans hterm, h.waits hwait, hlength.ge, fun n hn => ?_⟩
  have hleft := h.flow.left hterm hwait hout (n := n) (by omega)
  omega

section Runs

variable [DecidableEq H]

theorem exec_ending {p₀ : Plan H} (hsane : Sane p₀ s) (hterm : s.terminate = true) {e : Event H} (he : Allowed s e)
    (h : s.exec e = some t) (hret : t.returns = s.returns) : Ending s t (if e.own then 1 else 0) := by
  have hwait : s.control ≠ .wait := fun hc => by
    have hgo := hsane.going hc
    rw [hterm] at hgo
    cases hgo
  cases e with
  | signal sig =>
    obtain ⟨signals, hsignals, ht⟩ := Option.bind_eq_some_iff.mp h
    cases ht
    exact ⟨hterm, rfl, (handleSignal_spec hsignals).length.ge, fun _ _ => by simp [Event.own]⟩
  | run =>
    cases h
    have hc : s.control = .outside := he
    exact ⟨hterm, rfl, le_rfl, fun _ _ => by simp [Event.own, hc, Control.left]⟩
  | call c =>
    have hcalled := call_called he.2 h
    refine ⟨hcalled.terminate hterm, hcalled.waits, ?_, fun _ _ => by simp [Event.own, hcalled.control]⟩
    rcases hcalled.signals with heq | ⟨x, -, heq⟩ <;> simp [heq]
  | advance i => exact (advance_turn h).ending hterm hwait hret
  | ret => exact (ret_turn h).ending hterm hwait hret

theorem run_ending {p₀ : Plan H} (hsane : Sane p₀ s) (hterm : s.terminate = true) {es : List (Event H)}
    (h : Runs s es t) : s.returns ≤ t.returns ∧
      (t.returns = s.returns → Ending s t (es.filter Event.own).length) := by
  refine Run.invariant (I := fun es u => s.returns ≤ u.returns ∧
    (u.returns = s.returns → Ending s u (es.filter Event.own).length)) ⟨le_rfl, fun _ => .refl hterm⟩ ?_ h
  intro es u v e hrun ⟨hle, hending⟩ ⟨he, hexec⟩
  have hmono := exec_returns_le he hexec
  refine ⟨hle.trans hmono, fun hret => ?_⟩
  have hu := hending (by omega)
  have hstep := exec_ending (run_sane hsane hrun) hu.terminate he hexec (by omega)
  rw [List.filter_append, List.length_append]
  cases hown : e.own <;> simpa [hown] using hu.trans hstep

variable {clock : OsReltime} {es es' : List (Event H)}

/-- **Once `eloop_terminate` has been called, `eloop_run` does not call `epoll_wait` again**, and takes a bounded number
of steps before it returns, whatever the handlers do that it still calls and whichever signals
arrive. -/
theorem eloop_terminate_stops (h : Runs (System.init clock) es s) (hterm : s.terminate = true) (h' : Runs s es' t)
    (hret : t.returns = s.returns) :
    t.waits = s.waits ∧ (es'.filter Event.own).length ≤
      3 * t.signals.signals.length + 2 * (s.control.events.getD []).length + 8 := by
  have hending := (run_ending (run_sane (init_sane clock) h) hterm h').2 hret
  have hleft := hending.left _ le_rfl
  have hle := left_le t.signals.signals.length s.control
  exact ⟨hending.waits, by omega⟩

/-- A socket is registered, and its handler calls `eloop_terminate`. -/
def served : List (Event Nat) :=
  [.call (.registerSock 3 .read 7 0 0 ⟨true, true, true, true⟩), .run, .advance ⟨⟨1, 0⟩, .ok []⟩,
    .advance ⟨⟨1, 0⟩, .ok [3]⟩, .advance ⟨⟨1, 0⟩, .ok []⟩, .advance ⟨⟨1, 0⟩, .ok []⟩]

theorem eloop_terminate_stops_served : ∃ s t,
    (System.init ⟨1, 0⟩).replay (served ++ [.advance ⟨⟨1, 0⟩, .ok []⟩, .call .terminate]) = some s ∧
    s.replay [.ret, .advance ⟨⟨1, 0⟩, .ok []⟩] = some t ∧ t.waits = s.waits ∧
      ([.ret, .advance ⟨⟨1, 0⟩, .ok []⟩].filter (Event.own (H := Nat))).length ≤
        3 * t.signals.signals.length + 2 * (s.control.events.getD []).length + 8 := by
  have hrun : ((System.init ⟨1, 0⟩).replay (served ++ [.advance ⟨⟨1, 0⟩, .ok []⟩, .call .terminate])).any
    (fun s =>
      s.terminate && (s.replay [.ret, .advance ⟨⟨1, 0⟩, .ok []⟩]).any fun t => t.returns == s.returns) =
        true := by
    decide +kernel
  obtain ⟨s, hs, hobs⟩ := (Option.any_eq_true _ _).mp hrun
  obtain ⟨hterm, hstep⟩ := (Bool.and_eq_true _ _).mp hobs
  obtain ⟨t, ht, hret⟩ := (Option.any_eq_true _ _).mp hstep
  exact ⟨s, t, hs, ht, eloop_terminate_stops (replay_runs hs) hterm (replay_runs ht) (beq_iff_eq.mp hret)⟩

/-- **The handler that `eloop_run` calls for a reported event is that of a socket registered for the descriptor, and
the registered sockets are those of the time when `epoll_wait` returned**, even though handlers of signals, timeouts
and other sockets may have registered and unregistered sockets in between. -/
theorem eloop_dispatch (h : Runs (System.init clock) es s) {fd : Nat} {events : List Nat}
    (hc : s.control = .dispatch (fd :: events)) :
    s.socks.all = s.seen ∧ ∃ x, Leads s.socks fd x ∧
      ∀ i, s.exec (.advance i) = some { s with control := .handler (.sock x events) } := by
  have hsane := run_sane (init_sane clock) h
  obtain ⟨x, hx⟩ := hsane.lead hc
  refine ⟨(hsane.batch (fd :: events) (by rw [hc]; rfl) (hsane.quiet _ hc)).1, x, hx, fun i => ?_⟩
  simp [System.exec, System.advance, hc, System.dispatch, hx.entry, hx.handler]

end Runs

theorem eloop_dispatch_served : ∃ s, (System.init ⟨1, 0⟩).replay served = some s ∧ s.socks.all = s.seen ∧
    ∃ x, Leads s.socks 3 x ∧
      ∀ i, s.exec (.advance i) = some { s with control := .handler (.sock x []) } := by
  have hrun : ((System.init ⟨1, 0⟩).replay served).any (fun s => decide (s.control = .dispatch [3])) = true := by
    decide +kernel
  obtain ⟨s, hs, hc⟩ := (Option.any_eq_true _ _).mp hrun
  exact ⟨s, hs, eloop_dispatch (replay_runs hs) (of_decide_eq_true hc)⟩

end Eloop
end Xlibc
