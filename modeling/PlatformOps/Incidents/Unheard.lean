import PlatformOps.Incidents.Effects

/-!
# Failures Nobody Hears Of

dbt reports four statuses that are failures, of models, seeds, snapshots and tests.
The desk makes failing checks of some of these combinations only: a model's `error`,
and a test's `fail` or `error`. Of any other failure it knows nothing, and the nodes
skipped below it are no failures either.

- `heard_iff`: every failure of an invocation is heard of exactly when all of them are
  of these three kinds.
-/

namespace PlatformOps.Incidents

open Metadata Listing Machine Fallible

/-- The statuses dbt reports of a failure. -/
def failureStatuses : List String := ["error", "fail", "runtime error", "partial success"]

/-- The nodes an invocation runs. -/
def runTypes : List ResourceType := [.model, .seed, .snapshot, .test]

/-- A failure of a node of the manifest. -/
def IsFailure (nodes : Manifest) (entry : ResultEntry) : Prop :=
  entry.status ∈ failureStatuses ∧
    ∃ node ∈ nodes.get entry.uniqueId, node.resourceType ∈ runTypes

/-- The failures that become failing checks. -/
def Reported (nodes : Manifest) (entry : ResultEntry) : Prop :=
  ∃ node ∈ nodes.get entry.uniqueId,
    (node.resourceType = .model ∧ entry.status = "error") ∨
      (node.resourceType = .test ∧ entry.status ∈ failedTestStatuses)

/-- An entry becomes a failing check exactly if it is one of these. -/
theorem isSome_failureOf_iff {nodes : Manifest} {runId : String} {detected : Timestamp}
    {entry : ResultEntry} :
    (failureOf nodes runId detected entry).isSome = true ↔ Reported nodes entry := by
  unfold failureOf Reported
  cases hget : nodes.get entry.uniqueId with
  | none => simp
  | some node =>
    rw [Option.bind_some]
    split
    · rename_i hskipped
      simp [hskipped, failedTestStatuses]
    · split
      · rename_i hmodel
        simp [hmodel]
      · rename_i hmodel
        split
        · rename_i htest
          simp [htest]
        · rename_i htest
          simp only [Option.isSome_none, Bool.false_eq_true, Option.mem_def, Option.some.injEq,
            exists_eq_left', false_iff, not_or]
          exact ⟨hmodel, htest⟩

instance (nodes : Manifest) (entry : ResultEntry) : Decidable (IsFailure nodes entry) :=
  inferInstanceAs (Decidable (_ ∧ _))

instance (nodes : Manifest) (entry : ResultEntry) : Decidable (Reported nodes entry) :=
  inferInstanceAs (Decidable (∃ node ∈ nodes.get entry.uniqueId, _))

/-- The run has an incident: one that is not merged, with failing checks of the run. -/
def Store.HasIncident (s : Store) (runId : String) : Prop :=
  ∃ x ∈ s.incidents, x.mergedInto = none ∧
    ∃ link ∈ s.runLinks, link.runId = runId ∧ link.incident = x.seq ∧ 0 < link.checks

/-- A regrouping with a failing check leaves its run an incident. -/
theorem IngestCall.Ingested.hasIncident {call : IngestCall} {s : Store} {r : Regrouping}
    {news : List Incident} {assignment : List (String × ℕ)} {s' : Store} {out : Regrouped}
    (h : call.Ingested s r news assignment s' out) {e : CheckEvent} (he : e ∈ r.facts.events) :
    s'.HasIncident call.runId := by
  obtain ⟨g, hg, i, -, hi, hown⟩ := h.exists_incidentOf he
  obtain ⟨x, hx, hsame, hmerged⟩ := h.exists_of_place hg hi
  refine ⟨x, hx, hmerged, ?_⟩
  obtain ⟨own, hmap, hlinks⟩ := h.runLinks
  obtain ⟨seq, hseq, hown'⟩ := exists_image_of_mem hmap he
  have heq : seq = i.seq := Except.ok.inj (hown'.symm.trans hown)
  refine ⟨⟨i.seq, r.runId, r.now, own.count i.seq⟩, ?_, h.reached.runId, hsame.seq.symm, ?_⟩
  · rw [hlinks]
    apply List.mem_append_right
    exact List.mem_map_of_mem (mem_sortedSet.mpr (heq ▸ hseq))
  · exact List.count_pos_iff.mpr (heq ▸ hseq)

/-- Every failure of an invocation is heard of. -/
structure Heard (nodes : Manifest) (results : List ResultEntry) : Prop where
  /-- It becomes a failing check. -/
  events : ∀ (runId : String) (detected : Timestamp), ∀ entry ∈ results, IsFailure nodes entry →
    ∃ e ∈ (parseRunResults results nodes runId detected).events,
      e.checkId = entry.uniqueId ∧ e.status = entry.status
  /-- And whatever was ingested before, an ingest that returns leaves the run an incident. -/
  incident : ∀ (calls : List IngestCall) (s : Store),
    Run deskStep (fun _ _ => True) {} calls s → ∀ (call : IngestCall) (a : Artifact),
      call.ctx.nodes = nodes → a ∈ call.fresh s → a.kind = .runResults → a.results = results →
        (∃ entry ∈ results, IsFailure nodes entry) → ∀ (s' : Store) (out : Regrouped),
          call.ingest s = .ok (s', out) → s'.HasIncident call.runId

/-- **No failure is silent** exactly when every failure is a model's error, or a failing test or one
in error. -/
theorem heard_iff (nodes : Manifest) (results : List ResultEntry) :
    Heard nodes results ↔ ∀ entry ∈ results, IsFailure nodes entry → Reported nodes entry := by
  constructor
  · intro h entry hentry hfails
    obtain ⟨e, he, hcheck, hstatus⟩ := h.events "" 0 entry hentry hfails
    obtain ⟨entry', -, hentry'⟩ := List.mem_filterMap.mp ((perm_sortEvents _).mem_iff.mp he)
    obtain ⟨-, hcheck', hstatus', -, -⟩ := failureOf_eq_some hentry'
    have hreported : Reported nodes entry' :=
      isSome_failureOf_iff.mp (Option.isSome_iff_exists.mpr ⟨e, hentry'⟩)
    -- the entry it comes from is one of the same node, with the same status
    unfold Reported at hreported ⊢
    rwa [← hcheck', hcheck, ← hstatus', hstatus] at hreported
  · intro h
    have hevent : ∀ (runId : String) (detected : Timestamp), ∀ entry ∈ results,
        IsFailure nodes entry → ∃ e ∈ (parseRunResults results nodes runId detected).events,
          e.checkId = entry.uniqueId ∧ e.status = entry.status := by
      intro runId detected entry hentry hfails
      have hsome : (failureOf nodes runId detected entry).isSome = true :=
        isSome_failureOf_iff.mpr (h entry hentry hfails)
      obtain ⟨e, he⟩ := Option.isSome_iff_exists.mp hsome
      obtain ⟨-, hcheck, hstatus, -, -⟩ := failureOf_eq_some he
      refine ⟨e, (perm_sortEvents _).mem_iff.mpr ?_, hcheck, hstatus⟩
      exact List.mem_filterMap.mpr ⟨entry, hentry, he⟩
    refine ⟨hevent, ?_⟩
    rintro calls s hrun call a rfl ha hkind rfl ⟨entry, hentry, hfails⟩ s' out hok
    have hsound := sound_of_run hrun Store.sound_empty
    rcases (IngestCall.ingest_ends hsound.numbered hsound.oneOpen).returned hok with
      ⟨hfresh, -⟩ | ⟨-, r, news, assignment, hingested⟩
    · rw [hfresh] at ha
      cases ha
    · obtain ⟨e, he, -⟩ := hevent call.runId (timeOf call.detected a) entry hentry hfails
      have hin : e ∈ eventsIn call.ctx.nodes call.runId call.detected a := by
        unfold eventsIn parse
        rw [hkind]
        exact he
      obtain ⟨rows, hrows, -, hall⟩ := hingested.reached.recorded.checkEvents
      obtain ⟨row, hrow, hrowRun, -⟩ := hall a ha e hin
      rw [← hrows] at hrow
      exact hingested.hasIncident
        (hingested.mem_events hrow (hrowRun.trans hingested.reached.runId.symm))

/-- A snapshot, and a model on it. -/
def snapshotted : Manifest where
  nodes := [⟨"snapshot.s", .snapshot, "s", [], none, [], "", "", none, "", ""⟩,
    ⟨"model.a", .model, "a", ["snapshot.s"], none, [], "", "", none, "", ""⟩]
  unique := by decide
  kinds := by decide

/-- The snapshot errors, and the model below it is skipped. -/
def brokenNight : IngestCall :=
  { invocationOf "night 1" "1" 10 [("snapshot.s", "error"), ("model.a", "skipped")] with
    ctx := { twoModelsContext with nodes := snapshotted } }

theorem snapshot_not_heard :
    Ends (brokenNight.ingest {}) (fun _ => False) (fun p => p.1.incidents = []) ∧
      ¬ Heard snapshotted (brokenNight.artifacts.flatMap Artifact.results) := by
  refine ⟨by decide +kernel, ?_⟩
  intro h
  obtain ⟨e, he, -⟩ := h.events "night 1" 10 ⟨"snapshot.s", "error", "", ""⟩
    (by decide +kernel) (by decide +kernel)
  have hnone : (parseRunResults (brokenNight.artifacts.flatMap Artifact.results) snapshotted
      "night 1" 10).events = [] := by decide +kernel
  rw [hnone] at he
  cases he

end PlatformOps.Incidents
