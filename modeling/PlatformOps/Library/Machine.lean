import Mathlib

/-!
# Machines and Their Runs

A machine is a partial step function over labelled events. A `Run` takes a list
of events one after the other, each meeting a condition on the state before it.

- `Run.invariant`: what every step that meets the condition preserves, every run
  preserves.
- `always_iff_run`: a property holds all along exactly when every step meets the
  condition it asks for.
- `check`: runs the machine, stopping at the first event that is not possible or
  does not meet the condition.
- `visits`: the states the events of a run meet.
- `Run.simulate`: if another machine can follow every step, it can follow every run.
-/

namespace Machine

variable {σ ε : Type*}

/-- A run of a machine: every event is possible and meets the condition `ok`. -/
inductive Run (step : σ → ε → Option σ) (ok : σ → ε → Prop) : σ → List ε → σ → Prop where
  | nil (s : σ) : Run step ok s [] s
  | cons {s s' s'' : σ} {e : ε} {es : List ε} :
      ok s e → step s e = some s' → Run step ok s' es s'' → Run step ok s (e :: es) s''

variable {step : σ → ε → Option σ} {ok : σ → ε → Prop}

theorem Run.append {s s' s'' : σ} {es es' : List ε} (h : Run step ok s es s')
    (h' : Run step ok s' es' s'') : Run step ok s (es ++ es') s'' := by
  induction h with
  | nil s => exact h'
  | cons hok hs _ ih => exact .cons hok hs (ih h')

/-- **The run rule**: an invariant of the steps is an invariant of the runs. -/
theorem Run.invariant {I : σ → Prop} {s s' : σ} {es : List ε} (hrun : Run step ok s es s')
    (hinit : I s) (hstep : ∀ s e s', I s → ok s e → step s e = some s' → I s') :
    I s' := by
  induction hrun with
  | nil s => exact hinit
  | cons hok hs _ ih => exact ih (hstep _ _ _ hinit hok hs)

/-- The run rule for a condition that speaks about the rest of the run only. -/
theorem Run.invariant_of_forall {I : σ → Prop} {p : ε → Prop} {s s' : σ} {es : List ε}
    (hrun : Run step ok s es s') (hp : ∀ e ∈ es, p e) (hinit : I s)
    (hstep : ∀ s e s', I s → ok s e → p e → step s e = some s' → I s') : I s' := by
  induction hrun with
  | nil s => exact hinit
  | cons hok hs _ ih =>
    exact ih (fun e he => hp e (List.mem_cons_of_mem _ he))
      (hstep _ _ _ hinit hok (hp _ (List.mem_cons_self ..)) hs)

/-- **The rule for an exact condition**: if a step from a state with a property keeps it exactly when
it meets the condition, then the property holds in every state on the way exactly when every step
meets the condition. -/
theorem always_iff_run {f : σ → ε → σ} {I P : σ → Prop} {es : List ε}
    (hI : ∀ s, ∀ e ∈ es, I s → I (f s e))
    (hstep : ∀ s, ∀ e ∈ es, I s → P s → (P (f s e) ↔ ok s e)) {s : σ} (hs : I s) (hP : P s) :
    (∀ done, done <+: es → P (done.foldl f s)) ↔
      Run (fun s e => some (f s e)) ok s es (es.foldl f s) := by
  induction es generalizing s with
  | nil =>
    refine iff_of_true (fun done hdone => ?_) (.nil s)
    rw [List.prefix_nil.mp hdone]
    exact hP
  | cons e es ih =>
    have he : e ∈ e :: es := List.mem_cons_self ..
    have ih := @ih (fun s e' he' => hI s e' (List.mem_cons_of_mem e he'))
      fun s e' he' => hstep s e' (List.mem_cons_of_mem e he')
    constructor
    · intro h
      have hfirst : P (f s e) := h [e] (List.prefix_append [e] es)
      refine .cons ((hstep s e he hs hP).mp hfirst) rfl ((ih (hI s e he hs) hfirst).mp ?_)
      intro done hdone
      exact h (e :: done) (List.cons_prefix_cons.mpr ⟨rfl, hdone⟩)
    · intro hrun done hdone
      cases hrun with
      | cons hok hnext hrest =>
        obtain rfl := Option.some.inj hnext
        cases done with
        | nil => exact hP
        | cons e' done =>
          obtain ⟨rfl, hdone'⟩ := List.cons_prefix_cons.mp hdone
          exact (ih (hI s e' he hs) ((hstep s e' he hs hP).mpr hok)).mpr hrest done hdone'

/-! ## Simulation -/

/-- **The simulation rule**: if a step between related states is followed by a run of the other
machine to related states, whole runs are. An event may stand for no event, or several. -/
theorem Run.simulate {τ δ : Type*} {step' : τ → δ → Option τ} {ok' : τ → δ → Prop}
    {R : σ → τ → Prop} {events : ε → List δ}
    (hstep : ∀ s e s' t, R s t → ok s e → step s e = some s' →
      ∃ t', Run step' ok' t (events e) t' ∧ R s' t')
    {s s' : σ} {es : List ε} (hrun : Run step ok s es s') {t : τ} (ht : R s t) :
    ∃ t', Run step' ok' t (es.flatMap events) t' ∧ R s' t' := by
  induction hrun generalizing t with
  | nil s => exact ⟨t, .nil t, ht⟩
  | cons hok hs _ ih =>
    obtain ⟨t₁, hfirst, ht₁⟩ := hstep _ _ _ t ht hok hs
    obtain ⟨t', hrest, ht'⟩ := ih ht₁
    rw [List.flatMap_cons]
    exact ⟨t', hfirst.append hrest, ht'⟩

/-! ## Running a machine -/

/-- Take the events one after the other, if each is possible and meets the condition. -/
def check (step : σ → ε → Option σ) (ok : σ → ε → Prop) [∀ s e, Decidable (ok s e)] :
    σ → List ε → Option σ
  | s, [] => some s
  | s, e :: es => if ok s e then (step s e).bind fun s' => check step ok s' es else none

theorem Run.of_check [∀ s e, Decidable (ok s e)] {s s' : σ} {es : List ε}
    (h : check step ok s es = some s') : Run step ok s es s' := by
  induction es generalizing s with
  | nil =>
    cases h
    exact .nil _
  | cons e es ih =>
    rw [check, Option.ite_none_right_eq_some, Option.bind_eq_some_iff] at h
    obtain ⟨hok, s₁, hs, hrest⟩ := h
    exact .cons hok hs (ih hrest)

/-- The events of a run, each with the state it meets. -/
def visits (step : σ → ε → Option σ) : σ → List ε → List (σ × ε)
  | _, [] => []
  | s, e :: es => (s, e) :: (step s e).elim [] fun s' => visits step s' es

end Machine
