import PlatformOps.Incidents.Effects

/-!
# One Open Incident Per Root

The unique index on the root of the open incidents refuses a statement that would
open a second one. A regrouping that only opens an incident where none is open and
only reopens one where no other is never meets it; `Clear` says so before the
first statement. It fails in two ways:

- an artifact ingested late: an incident of the root that was opened after the
  artifact's time is no candidate for its groups, so a second one is opened;
- an incident that a run resolved and then fails on, when another run has opened
  one on the same root in between.
-/

namespace PlatformOps.Incidents

open Fallible Machine

/-- An ingest nothing stands in the way of. -/
def IngestCall.Clear (call : IngestCall) (s : Store) : Prop :=
  call.fresh s = [] ∨ Ends (call.regrouping s) (fun _ => True) Regrouping.Clear

instance (call : IngestCall) (s : Store) : Decidable (call.Clear s) :=
  inferInstanceAs (Decidable (_ ∨ _))

theorem IngestCall.Clear.of_regrouping {call : IngestCall} {s : Store} (h : call.Clear s)
    (hfresh : call.fresh s ≠ []) {r : Regrouping} (hr : call.regrouping s = .ok r) : r.Clear :=
  (h.resolve_left hfresh).returned hr

/-- A clear ingest does not meet the index. -/
private theorem ingest_ne_oneOpen {call : IngestCall} {s : Store} (hsound : s.Sound)
    (hclear : call.Clear s) : call.ingest s ≠ .error oneOpenPerRoot := by
  intro herror
  obtain ⟨hfresh, hstumbles⟩ :=
    (IngestCall.ingest_ends hsound.numbered hsound.oneOpen).raised herror
  generalize he : oneOpenPerRoot = e at hstumbles
  cases hstumbles with
  | invocation _ => simp [oneOpenPerRoot] at he
  | lineage _ => simp [oneOpenPerRoot] at he
  | oneOpen hr hnot => exact hnot (hclear.of_regrouping hfresh hr)
  | rootless _ _ => simp [oneOpenPerRoot] at he
  | escalation => simp [oneOpenPerRoot] at he

/-- An ingest that returns was clear. -/
private theorem clear_of_ingest_eq_ok {call : IngestCall} {s : Store} (hsound : s.Sound)
    {p : Store × Regrouped} (hok : call.ingest s = .ok p) : call.Clear s := by
  rcases (IngestCall.ingest_ends hsound.numbered hsound.oneOpen).returned hok with
    ⟨hfresh, -⟩ | ⟨-, r, news, assignment, hingested⟩
  · exact Or.inl hfresh
  · refine Or.inr ?_
    rw [hingested.reaches]
    exact hingested.clear

/-- **No ingest meets the index while all are clear**: in every run of clear ingests from the
empty store, each root has one open incident at most and no clear ingest is rolled back by the
index. Only clear ingests return. -/
theorem oneOpenPerRoot_of_clear {calls : List IngestCall} {s : Store}
    (hrun : Run deskStep (fun s call => call.Clear s) {} calls s) :
    OneOpenPerRoot s.incidents ∧
      (∀ call : IngestCall, call.Clear s → call.ingest s ≠ .error oneOpenPerRoot) ∧
      ∀ (call : IngestCall) (p : Store × Regrouped), call.ingest s = .ok p → call.Clear s := by
  have hsound := sound_of_run hrun Store.sound_empty
  exact ⟨hsound.oneOpen, fun _ hclear => ingest_ne_oneOpen hsound hclear,
    fun _ _ hok => clear_of_ingest_eq_ok hsound hok⟩

/-- A model fails and is healthy again the next night; then both models fail. -/
def clearNights : List IngestCall :=
  [invocationOf "night 1" "1" 10 [("model.b", "error")],
    invocationOf "night 2" "2" 20 [("model.a", "success"), ("model.b", "success")],
    invocationOf "night 3" "3" 30 [("model.a", "error"), ("model.b", "error")]]

theorem oneOpenPerRoot_of_clear_nights :
    OneOpenPerRoot (storeAfter clearNights).incidents ∧
      (∀ call : IngestCall, call.Clear (storeAfter clearNights) →
        call.ingest (storeAfter clearNights) ≠ .error oneOpenPerRoot) ∧
      ∀ (call : IngestCall) (p : Store × Regrouped),
        call.ingest (storeAfter clearNights) = .ok p → call.Clear (storeAfter clearNights) := by
  have hrun : Run deskStep (fun s call => call.Clear s) {} clearNights (storeAfter clearNights) :=
    Run.of_check (by decide +kernel)
  exact oneOpenPerRoot_of_clear hrun

/-- Two ingests the index rolls back: one that is late, and one of a run that had resolved the
incident it now fails on, after another run opened one. -/
theorem ingest_meets_oneOpenPerRoot :
    (invocationOf "night 1" "late" 5 [("model.b", "error")]).ingest
        (storeAfter [invocationOf "night 2" "2" 10 [("model.b", "error")]]) =
      .error oneOpenPerRoot ∧
    (invocationOf "night 2" "4" 40 [("model.b", "error")]).ingest
        (storeAfter [invocationOf "night 1" "1" 10 [("model.b", "error")],
          invocationOf "night 2" "2" 20 [("model.b", "success")],
          invocationOf "night 3" "3" 30 [("model.b", "error")]]) =
      .error oneOpenPerRoot := by
  decide +kernel

end PlatformOps.Incidents
