/-!
# Xlibc.Base.Run

Runs of a labelled transition system.

* `Run step s es t` : from `s`, the events `es` lead to `t`, in this order.
* `Run.invariant`   : what holds at the start and is kept by every step holds after every run.
* `Run.simulates`   : a step-by-step simulation lifts to whole runs.
* `Run.ofFold`      : a run of a step function, found by computing it.

Events are listed oldest first, and a run grows at its end, so an invariant may speak about the
whole history of the run.
-/

namespace Xlibc

universe u v w

inductive Run {σ : Type u} {ε : Type v} (step : σ → ε → σ → Prop) (s : σ) : List ε → σ → Prop where
  | nil : Run step s [] s
  | snoc {es : List ε} {t t' : σ} {e : ε} : Run step s es t → step t e t' → Run step s (es ++ [e]) t'

namespace Run

variable {σ : Type u} {ε : Type v} {step : σ → ε → σ → Prop} {s t : σ} {es : List ε}

theorem single {e : ε} (h : step s e t) : Run step s [e] t := .snoc .nil h

theorem trans {es' : List ε} {t' : σ} (h : Run step s es t) (h' : Run step t es' t') :
    Run step s (es ++ es') t' := by
  induction h' with
  | nil => simpa using h
  | snoc _ hs ih => rw [← List.append_assoc]; exact .snoc ih hs

/-- A run is empty, or starts with a step. -/
theorem head (h : Run step s es t) : t = s ∨ ∃ e es' s', step s e s' ∧ Run step s' es' t := by
  induction h with
  | nil => exact .inl rfl
  | snoc _ hs ih =>
    rcases ih with rfl | ⟨e, es', s', he, hr⟩
    · exact .inr ⟨_, [], _, hs, .nil⟩
    · exact .inr ⟨e, _, s', he, .snoc hr hs⟩

/-- What holds of every state that can be reached holds at the start, and of what the first steps lead to. -/
theorem forall_iff {P : σ → Prop} : (∀ es t, Run step s es t → P t) ↔
    P s ∧ ∀ e s', step s e s' → ∀ es t, Run step s' es t → P t := by
  constructor
  · intro h
    exact ⟨h [] s .nil, fun e s' he es t hr => h ([e] ++ es) t ((single he).trans hr)⟩
  · rintro ⟨h0, hstep⟩ es t hr
    rcases hr.head with rfl | ⟨e, es', s', he, hr'⟩
    · exact h0
    · exact hstep e s' he es' t hr'

/-- An invariant of the history and the state, kept by every step, holds after every run. -/
theorem invariant {I : List ε → σ → Prop} (h0 : I [] s)
    (hs : ∀ {es t t' e}, Run step s es t → I es t → step t e t' → I (es ++ [e]) t')
    (h : Run step s es t) : I es t := by
  induction h with
  | nil => exact h0
  | snoc hr he ih => exact hs hr ih he

/-- If every step of the first system is matched by a step of the second under the same event,
every run is matched by a run with the same events. -/
theorem simulates {τ : Type w} {step' : τ → ε → τ → Prop} {R : σ → τ → Prop} {a : τ} (h0 : R s a)
    (hs : ∀ t t' b e, R t b → step t e t' → ∃ b', step' b e b' ∧ R t' b')
    (h : Run step s es t) : ∃ b, Run step' a es b ∧ R t b := by
  induction h with
  | nil => exact ⟨a, .nil, h0⟩
  | snoc _ he ih =>
    obtain ⟨b, hb, hR⟩ := ih
    obtain ⟨b', he', hR'⟩ := hs _ _ _ _ hR he
    exact ⟨b', .snoc hb he', hR'⟩

/-- A run of a partial function under a guard, from the fold that computes it. -/
theorem ofFold (P : σ → ε → Prop) [∀ s e, Decidable (P s e)] (f : σ → ε → Option σ) (s : σ)
    (es : List ε)
    {t : σ} (h : es.foldlM (fun s e => if P s e then f s e else none) s = some t) :
    Run (fun s e t => P s e ∧ f s e = some t) s es t := by
  suffices hgen : ∀ (es' es : List ε) (s' : σ), Run (fun s e t => P s e ∧ f s e = some t) s es s' →
      es'.foldlM (fun s e => if P s e then f s e else none) s' = some t →
      Run (fun s e t => P s e ∧ f s e = some t) s (es ++ es') t from hgen es [] s .nil h
  intro es'
  induction es' with
  | nil =>
    intro es s' hr hfold
    cases hfold
    simpa using hr
  | cons e es' ih =>
    intro es s' hr hfold
    rw [List.foldlM_cons] at hfold
    by_cases hP : P s' e
    · cases hf : f s' e with
      | none => simp [hP, hf] at hfold
      | some s'' =>
        have hrest := ih (es ++ [e]) s'' (hr.snoc ⟨hP, hf⟩) (by simpa [hP, hf] using hfold)
        simpa using hrest
    · simp [hP] at hfold

end Run

end Xlibc
