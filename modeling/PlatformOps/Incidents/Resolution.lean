import PlatformOps.Incidents.Effects

/-!
# Resolutions Are Sound

A run that resolves an incident has recorded its root as healthy, and none of its
failing checks is on the incident. Later invocations of the run may break that: then
the regrouping reopens the incident. So of every incident a run has resolved it holds
at all times, on everything the store has of the run (`SoundlyResolved`).

- `statusesOf_spec`: what the statuses of a run say of its results.
- `resolution_sound`: the invariant, over any ingests on one manifest whose
  detection times do not decrease.
-/

namespace PlatformOps.Incidents

open Metadata Listing Machine Fallible

/-! ## The statuses of a run -/

/-- What the statuses built from some results say of them. -/
structure StatusesFrom (rows : List ResultRow) (statuses : List (String × String)) : Prop where
  /-- A status is one that was reported, and not a skip. -/
  reported : ∀ uniqueId status, statuses.lookup uniqueId = some status →
    ∃ row ∈ rows, row.uniqueId = uniqueId ∧ row.status = status ∧ status ≠ "skipped"
  /-- A node that failed once counts as failed. -/
  worst : ∀ row ∈ rows, row.status ∈ badStatuses →
    ∃ status ∈ badStatuses, statuses.lookup row.uniqueId = some status

private theorem skipped_not_bad : "skipped" ∉ badStatuses := by decide

/-- One more result. -/
private theorem StatusesFrom.step {rows : List ResultRow} {statuses : List (String × String)}
    (h : StatusesFrom rows statuses) (row : ResultRow) :
    StatusesFrom (rows ++ [row]) (statusStep statuses row) := by
  have hkeep : ∀ uniqueId status, statuses.lookup uniqueId = some status →
      ∃ row' ∈ rows ++ [row], row'.uniqueId = uniqueId ∧ row'.status = status ∧
        status ≠ "skipped" := by
    intro uniqueId status hlook
    obtain ⟨row', hrow', hsame⟩ := h.reported uniqueId status hlook
    exact ⟨row', List.mem_append_left _ hrow', hsame⟩
  -- the results so far, if the new one is no failure or its node has failed before
  have hstay : (row.status ∈ badStatuses →
      ∃ status ∈ badStatuses, statuses.lookup row.uniqueId = some status) →
      StatusesFrom (rows ++ [row]) statuses := by
    intro hbad
    refine ⟨hkeep, fun row' hrow' hfail => ?_⟩
    rcases List.mem_append.mp hrow' with hrow' | hrow'
    · exact h.worst row' hrow' hfail
    · rw [List.mem_singleton] at hrow'
      exact hrow' ▸ hbad (hrow' ▸ hfail)
  -- or the new one first, if its node has not failed before
  have hnew : row.status ≠ "skipped" →
      (∀ status, statuses.lookup row.uniqueId = some status → status ∉ badStatuses) →
      StatusesFrom (rows ++ [row]) ((row.uniqueId, row.status) :: statuses) := by
    intro hrun hok
    refine ⟨fun uniqueId status hlook => ?_, fun row' hrow' hfail => ?_⟩
    · by_cases hid : uniqueId = row.uniqueId
      · subst hid
        rw [List.lookup_cons_self, Option.some.injEq] at hlook
        exact ⟨row, by simp, rfl, hlook, hlook ▸ hrun⟩
      · rw [List.lookup_cons, beq_eq_false_iff_ne.mpr hid] at hlook
        exact hkeep uniqueId status hlook
    · by_cases hid : row'.uniqueId = row.uniqueId
      · rw [hid, List.lookup_cons_self]
        rcases List.mem_append.mp hrow' with hrow' | hrow'
        · obtain ⟨status, hbad, hlook⟩ := h.worst row' hrow' hfail
          exact absurd hbad (hok status (hid ▸ hlook))
        · rw [List.mem_singleton] at hrow'
          exact ⟨row.status, hrow' ▸ hfail, rfl⟩
      · rw [List.lookup_cons, beq_eq_false_iff_ne.mpr hid]
        refine h.worst row' ((List.mem_append.mp hrow').resolve_right fun hrow' => hid ?_) hfail
        rw [List.mem_singleton.mp hrow']
  rw [statusStep]
  split
  · rename_i hskip
    exact hstay fun hbad => absurd (hskip ▸ hbad) skipped_not_bad
  · rename_i hskip
    cases hlook : statuses.lookup row.uniqueId with
    | none => exact hnew hskip fun _ h => nomatch hlook.symm.trans h
    | some status =>
      by_cases hbad : status ∈ badStatuses
      · simp only [hbad, if_true]
        exact hstay fun _ => ⟨status, hbad, hlook⟩
      · simp only [hbad, if_false]
        exact hnew hskip fun status' h => by
          obtain rfl := Option.some.inj (hlook.symm.trans h)
          exact hbad

theorem statusesFrom_foldl (rows : List ResultRow) :
    StatusesFrom rows (rows.foldl statusStep []) := by
  induction rows using List.reverseRecOn with
  | nil => exact ⟨by simp, by simp⟩
  | append_singleton rows row ih =>
    rw [List.foldl_append]
    exact ih.step row

theorem mem_resultsOf {s : Store} {runId : String} {row : ResultRow} :
    row ∈ s.resultsOf runId ↔ row ∈ s.results ∧ row.runId = runId := by
  simp [Store.resultsOf]

/-- **The statuses of a run** are those of its results. -/
theorem statusesOf_spec (s : Store) (runId : String) :
    StatusesFrom (s.resultsOf runId) (s.statusesOf runId) :=
  statusesFrom_foldl _

/-! ## What a resolution rests on -/

/-- What a run has to report of a root for it to be healthy: a model, seed or snapshot
succeeded, a source is fresh, a test passed. -/
def healthyStatuses (root : String) : List String :=
  if startsWith root "source." then healthyFreshness
  else if startsWith root "test." then ["pass"]
  else ["success"]

/-- The nodes whose results count for a root: itself and, unless it is a test, its tests. -/
def CountsFor (ctx : Context) (root uniqueId : String) : Prop :=
  uniqueId = root ∨ (startsWith root "test." = false ∧ uniqueId ∈ ctx.testsOf root)

/-- An incident rightly resolved by a run, on everything the store holds for the run. -/
structure SoundlyResolved (ctx : Context) (s : Store) (runId : String) (i : Incident) : Prop where
  /-- The run recorded the root as healthy. -/
  recorded : ∃ row ∈ s.results, row.runId = runId ∧ row.uniqueId = i.root ∧
    row.status ∈ healthyStatuses i.root
  /-- It reports no failure of the root or of its tests. -/
  noFailure : ∀ row ∈ s.results, row.runId = runId → CountsFor ctx i.root row.uniqueId →
    row.status ∉ badStatuses
  /-- At least one of the root's tests ran, if it has any. -/
  testsRan : startsWith i.root "test." = false → ctx.testsOf i.root ≠ [] →
    ∃ row ∈ s.results, row.runId = runId ∧ row.uniqueId ∈ ctx.testsOf i.root ∧
      row.status ≠ "skipped"
  /-- None of its failing checks is on the incident. -/
  unattributed : ∀ row ∈ s.checkEvents, row.event.runId = runId → row.incident ≠ some i.seq

section Healthy

variable {ctx : Context}

/-- The desk's health rule only reads the manifest. -/
theorem healthy_congr {ctx' : Context} (h : ctx'.nodes = ctx.nodes) :
    healthy ctx' = healthy ctx := by
  funext statuses root
  simp only [healthy, Context.testsOf, h]

private theorem startsWith_source_test {root : String} (h : startsWith root "source." = true) :
    startsWith root "test." = false := by
  rw [startsWith, List.isPrefixOf_iff_prefix] at h
  obtain ⟨rest, h⟩ := h
  rw [startsWith, ← h]
  rfl

/-- What the tests attached to a root have to say: one ran, if there are any, and all that ran
passed. -/
private theorem testsPass_iff {tests : List String} {statuses : List (String × String)} :
    ((tests.isEmpty || !(tests.filterMap fun t => statuses.lookup t).isEmpty) &&
      (tests.filterMap fun t => statuses.lookup t).all fun status => status = "pass") = true ↔
    (tests ≠ [] → ∃ t ∈ tests, (statuses.lookup t).isSome) ∧
      ∀ t ∈ tests, ∀ status, statuses.lookup t = some status → status = "pass" := by
  simp only [Bool.and_eq_true, Bool.or_eq_true, List.isEmpty_iff, Bool.not_eq_true',
    List.all_eq_true, List.mem_filterMap, decide_eq_true_eq, List.isEmpty_eq_false_iff_exists_mem]
  -- some test ran, and every test that ran passed
  apply and_congr
  · rw [or_iff_not_imp_left]
    refine imp_congr_right fun _ => ?_
    constructor
    · rintro ⟨status, t, ht, hlook⟩
      exact ⟨t, ht, by rw [hlook]; rfl⟩
    · rintro ⟨t, ht, hsome⟩
      obtain ⟨status, hlook⟩ := Option.isSome_iff_exists.mp hsome
      exact ⟨status, t, ht, hlook⟩
  · constructor
    · intro hall t ht status hlook
      exact hall status ⟨t, ht, hlook⟩
    · rintro hall status ⟨t, ht, hlook⟩
      exact hall t ht status hlook

/-- **The health rule**: a root is healthy if it was recorded so, and the tests attached to it,
unless it is a test itself, have passed. -/
theorem healthy_iff {statuses : List (String × String)} {root : String} :
    healthy ctx statuses root = true ↔
    (∃ status ∈ healthyStatuses root, statuses.lookup root = some status) ∧
      (startsWith root "test." = false →
        (ctx.testsOf root ≠ [] → ∃ t ∈ ctx.testsOf root, (statuses.lookup t).isSome) ∧
        ∀ t ∈ ctx.testsOf root, ∀ status, statuses.lookup t = some status → status = "pass") := by
  unfold healthy healthyStatuses
  -- a source, a test on its own, or a dataset
  by_cases hsource : startsWith root "source." = true
  · have hnot := startsWith_source_test hsource
    rw [if_pos hsource, if_pos hsource, datasetOf_of_not_test hnot, imp_iff_right hnot,
      ← testsPass_iff]
    cases statuses.lookup root <;> simp
  · rw [if_neg hsource, if_neg hsource]
    by_cases htest : startsWith root "test." = true
    · rw [if_pos htest, if_pos htest, htest]
      simp
    · have hnot : startsWith root "test." = false := by simpa using htest
      rw [if_neg htest, if_neg htest, datasetOf_of_not_test hnot, imp_iff_right hnot,
        Bool.and_eq_true, testsPass_iff]
      simp

private theorem healthyStatuses_not_bad {root status : String}
    (h : status ∈ healthyStatuses root) : status ∉ badStatuses := by
  rw [healthyStatuses] at h
  split at h
  · exact (show ∀ status ∈ healthyFreshness, status ∉ badStatuses by decide) status h
  · split at h
    · exact (show ∀ status ∈ ["pass"], status ∉ badStatuses by decide) status h
    · exact (show ∀ status ∈ ["success"], status ∉ badStatuses by decide) status h

/-- An incident whose root the run's results show healthy, and no failing check of the run is on,
is rightly resolved by it. -/
private theorem soundlyResolved_of_healthy {s : Store} {runId : String} {i : Incident}
    (hhealthy : healthy ctx (s.statusesOf runId) i.root = true)
    (hnone : ∀ row ∈ s.checkEvents, row.event.runId = runId → row.incident ≠ some i.seq) :
    SoundlyResolved ctx s runId i := by
  obtain ⟨⟨status, hstatus, hlook⟩, htests⟩ := healthy_iff.mp hhealthy
  have hspec := statusesOf_spec s runId
  refine ⟨?_, fun row hrow hrun hcounts hbad => ?_, fun hnot hne => ?_, hnone⟩
  · obtain ⟨row, hrow, hid, rfl, -⟩ := hspec.reported _ _ hlook
    obtain ⟨hrow, hrun⟩ := mem_resultsOf.mp hrow
    exact ⟨row, hrow, hrun, hid, hstatus⟩
  · obtain ⟨worst, hworst, hlook'⟩ := hspec.worst row (mem_resultsOf.mpr ⟨hrow, hrun⟩) hbad
    -- the worst report of a node is its status: a bad one would show
    rcases hcounts with hroot | ⟨hnot, htest⟩
    · rw [hroot, hlook] at hlook'
      obtain rfl := Option.some.inj hlook'
      exact healthyStatuses_not_bad hstatus hworst
    · obtain rfl := (htests hnot).2 row.uniqueId htest worst hlook'
      exact absurd hworst (by decide)
  · obtain ⟨t, ht, hsome⟩ := (htests hnot).1 hne
    obtain ⟨status', hlook'⟩ := Option.isSome_iff_exists.mp hsome
    obtain ⟨row, hrow, rfl, rfl, hran⟩ := hspec.reported _ _ hlook'
    obtain ⟨hrow, hrun⟩ := mem_resultsOf.mp hrow
    exact ⟨row, hrow, hrun, ht, hran⟩

end Healthy

/-! ## Ingests in the order of their detection times -/

/-- The desk and the detection time of its last ingest. -/
def clockedStep (state : Timestamp × Store) (call : IngestCall) : Option (Timestamp × Store) :=
  some (if call.fresh state.2 = [] then state.1 else call.now state.2, call.after state.2)

/-- An ingest on this manifest, not detected before the last one. -/
def InOrderOn (nodes : Manifest) (state : Timestamp × Store) (call : IngestCall) : Prop :=
  call.ctx.nodes = nodes ∧ (call.fresh state.2 = [] ∨ state.1 ≤ call.now state.2)

/-- The invariant: no incident is opened after the last detection time, and what a run resolved
another run opened, the run's results show healthy, and none of its failing checks is on. -/
structure ResolvedWell (ctx : Context) (clock : Timestamp) (s : Store) : Prop where
  opened : ∀ i ∈ s.incidents, i.openedAt ≤ clock
  resolved : ∀ i ∈ s.incidents, i.mergedInto = none → ∀ runId, i.resolvedByRun = some runId →
    i.openedByRun ≠ runId ∧ healthy ctx (s.statusesOf runId) i.root = true ∧
      ∀ row ∈ s.checkEvents, row.event.runId = runId → row.incident ≠ some i.seq

section Step

variable {call : IngestCall} {s s' : Store} {r : Regrouping} {news : List Incident}
  {assignment : List (String × ℕ)} {out : Regrouped}
  (h : call.Ingested s r news assignment s' out)

include h

/-- What the run has resolved after the ingest it found healthy, and did not fail on. -/
private theorem resolved_own (hsound : s.Sound) {ctx : Context} {clock : Timestamp}
    (hnodes : call.ctx.nodes = ctx.nodes) (hclock : clock ≤ call.now s)
    (hwell : ResolvedWell ctx clock s) {i : Incident} (hi : i ∈ s.incidents)
    (hfate : (r.fate (r.into assignment) i).resolvedByRun = some r.runId)
    (hnone : (r.fate (r.into assignment) i).mergedInto = none) :
    i.openedByRun ≠ r.runId ∧ healthy ctx (s'.statusesOf r.runId) i.root = true ∧
      ∀ row ∈ s'.checkEvents, row.event.runId = r.runId → row.incident ≠ some i.seq := by
  obtain ⟨hunmerged, hkept⟩ := Regrouping.fate_mergedInto.mp hnone
  have hi' : i ∈ r.store.incidents := h.incidents_eq ▸ hi
  -- it is one of the earlier incidents
  have hbefore : i ∈ r.before := by
    by_contra hnot
    have hjoined : r.isJoined i = false := Bool.eq_false_iff.mpr fun hjoined => by
      obtain ⟨g, -, hg⟩ := Regrouping.isJoined_eq_true.mp hjoined
      exact hnot (Regrouping.mem_before_of_joins hg)
    rw [Regrouping.fate_of_not_mem_before hnot hkept] at hfate
    have hopened := (hwell.resolved i hi hunmerged _ hfate).1
    refine hnot (Regrouping.mem_before.mpr ⟨hi', hunmerged, hopened, ?_, Or.inr hfate⟩)
    rw [h.reached.now]
    exact (hwell.opened i hi).trans hclock
  obtain ⟨hjoined, hhealthy⟩ := (Regrouping.resolvedByRun_fate_iff hbefore).mp hfate
  refine ⟨(Regrouping.mem_before.mp hbefore).2.2.1, ?_, fun row hrow hrun heq => ?_⟩
  · rw [← healthy_congr hnodes, ← h.reached.ctx, ← h.statuses]
    exact hhealthy
  · rw [h.checkEvents] at hrow
    obtain ⟨row', hrow', rfl⟩ := List.mem_map.mp hrow
    by_cases hrun' : row'.event.runId = r.runId
    · obtain ⟨g, hg, j, -, hplace, hincident⟩ := h.exists_incidentOf (h.mem_events hrow' hrun')
      rw [Regrouping.attributed, if_pos hrun', hincident] at heq
      -- the check is on an incident some group joins
      have hjoins := h.joins_of_place hsound hplace hbefore (Option.some.inj heq)
      rw [Regrouping.isJoined_eq_true.mpr ⟨g, hg, hjoins⟩] at hjoined
      cases hjoined
    · rw [Regrouping.attributed, if_neg hrun'] at hrun
      exact hrun' hrun

/-- **One ingest keeps the resolutions sound.** -/
private theorem resolvedWell_step (hsound : s.Sound) {ctx : Context} {clock : Timestamp}
    (hnodes : call.ctx.nodes = ctx.nodes) (hclock : clock ≤ call.now s)
    (hwell : ResolvedWell ctx clock s) : ResolvedWell ctx (call.now s) s' := by
  refine ⟨fun x hx => ?_, fun x hx hnone runId hres => ?_⟩
  · obtain ⟨y, hy, halike⟩ := h.exists_before hx
    rw [halike.openedAt]
    rcases List.mem_append.mp hy with hy | hy
    · obtain ⟨i, hi, rfl⟩ := List.mem_map.mp hy
      rw [Regrouping.fate_same.openedAt]
      exact (hwell.opened i hi).trans hclock
    · rw [(h.isNew y hy).openedAt, h.reached.now]
  · obtain ⟨y, hy, halike⟩ := h.exists_before hx
    rw [Incident.resolvedByRun, halike.resolved] at hres
    rw [halike.mergedInto] at hnone
    rcases List.mem_append.mp hy with hy | hy
    · obtain ⟨i, hi, rfl⟩ := List.mem_map.mp hy
      have hsame := halike.toSame.trans Regrouping.fate_same
      rw [hsame.openedByRun, hsame.root, hsame.seq]
      -- resolved by this run, or by one before it and untouched since
      by_cases hrun : runId = r.runId
      · subst hrun
        exact resolved_own h hsound hnodes hclock hwell hi hres hnone
      · obtain ⟨hunmerged, hkept⟩ := Regrouping.fate_mergedInto.mp hnone
        have hres' : i.resolvedByRun = some runId := by
          rw [← Regrouping.resolvedByRun_fate_of_ne hrun hres hkept]
          exact hres
        obtain ⟨hopened, hhealthy, hnone⟩ := hwell.resolved i hi hunmerged runId hres'
        refine ⟨hopened, by rwa [h.statusesOf_of_ne hrun], fun row hrow hrow' => ?_⟩
        exact hnone row ((h.mem_checkEvents_of_ne (hrow' ▸ hrun)).mp hrow) hrow'
    · rw [(h.isNew y hy).resolved] at hres
      cases hres

end Step

/-! ## The main result -/

/-- **Resolutions are sound**: after any ingests on one manifest whose detection times do not
decrease, every incident that is not merged and that a run resolved is one the run recorded as
healthy: its root reported healthy, no failure of it or its tests, one of its tests at least run
if it has any, and none of the run's failing checks on it. -/
theorem resolution_sound (ctx : Context) {calls : List IngestCall} {start : Timestamp}
    {final : Timestamp × Store}
    (hrun : Run clockedStep (InOrderOn ctx.nodes) (start, {}) calls final) :
    ∀ i ∈ final.2.incidents, i.mergedInto = none → ∀ runId, i.resolvedByRun = some runId →
      SoundlyResolved ctx final.2 runId i := by
  have hinv : final.2.Sound ∧ ResolvedWell ctx final.1 final.2 := by
    refine hrun.invariant (I := fun state => state.2.Sound ∧ ResolvedWell ctx state.1 state.2)
      ⟨Store.sound_empty, by simp, by simp⟩ ?_
    rintro ⟨clock, s⟩ call _ ⟨hsound, hwell⟩ ⟨hnodes, horder⟩ hstep
    obtain rfl := Option.some.inj hstep
    refine ⟨call.sound_after hsound, ?_⟩
    -- nothing fresh: the store is as it was
    by_cases hfresh : call.fresh s = []
    · simpa [IngestCall.after, IngestCall.ingest, hfresh] using hwell
    have hclock := horder.resolve_left hfresh
    simp only [if_neg hfresh, IngestCall.after]
    split
    · rename_i s' out hok
      rcases (IngestCall.ingest_ends hsound.numbered hsound.oneOpen).returned hok with
        ⟨hnone, -⟩ | ⟨-, r, news, assignment, hingested⟩
      · exact absurd hnone hfresh
      · exact resolvedWell_step hingested hsound hnodes hclock hwell
    · exact ⟨fun i hi => (hwell.opened i hi).trans hclock, hwell.resolved⟩
  intro i hi hnone runId hres
  obtain ⟨-, hhealthy, hunattributed⟩ := hinv.2.resolved i hi hnone runId hres
  exact soundlyResolved_of_healthy hhealthy hunattributed

/-- A model fails, and both are healthy the next night. -/
def resolvingNights : List IngestCall :=
  [invocationOf "night 1" "1" 10 [("model.b", "error")],
    invocationOf "night 2" "2" 20 [("model.a", "success"), ("model.b", "success")]]

theorem resolution_sound_nights :
    (∃ i ∈ (storeAfter resolvingNights).incidents, i.mergedInto = none ∧
      i.resolvedByRun = some "night 2") ∧
    ∀ i ∈ (storeAfter resolvingNights).incidents, i.mergedInto = none →
      ∀ runId, i.resolvedByRun = some runId →
        SoundlyResolved twoModelsContext (storeAfter resolvingNights) runId i := by
  have hrun : Run clockedStep (InOrderOn twoModelsContext.nodes) (0, {}) resolvingNights
      (20, storeAfter resolvingNights) :=
    .cons ⟨rfl, by decide +kernel⟩ rfl (.cons ⟨rfl, by decide +kernel⟩ rfl (.nil _))
  exact ⟨by decide +kernel, resolution_sound twoModelsContext hrun⟩

end PlatformOps.Incidents
