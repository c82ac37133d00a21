import PlatformOps.Incidents.GroupingCorrect
import PlatformOps.Incidents.Settling
import PlatformOps.Library.Machine

/-!
# What an Ingest Does

An ingest that returns has recorded the fresh artifacts, settled the regrouping of
its run on the recorded store, and raised severities: `Ingested` says what each
table holds after it, and `ingest_ends` that nothing else can come out, and what
an ingest that raises stumbled over.
-/

namespace PlatformOps.Incidents

open Metadata Listing Fallible

/-! ## Recording -/

/-- When a call's artifact counts as detected. -/
def timeOf (detected : Option Timestamp) (artifact : Artifact) : Timestamp :=
  detected.getD artifact.generatedAt

/-- The result rows an artifact adds. -/
def resultRows (nodes : Manifest) (runId : String) (artifact : Artifact) : List ResultRow :=
  (resultsOf artifact nodes).map fun row =>
    ⟨artifact.invocationId, runId, row.1, row.2.1, row.2.2⟩

/-- The failing checks an artifact reports. -/
def eventsIn (nodes : Manifest) (runId : String) (detected : Option Timestamp)
    (artifact : Artifact) : List CheckEvent :=
  (parse artifact nodes runId (timeOf detected artifact)).events

theorem runId_of_mem_eventsIn {nodes : Manifest} {runId : String} {detected : Option Timestamp}
    {artifact : Artifact} {e : CheckEvent} (h : e ∈ eventsIn nodes runId detected artifact) :
    e.runId = runId := by
  rw [eventsIn, parse] at h
  split at h
  · obtain ⟨r, -, rfl⟩ := List.mem_map.mp ((perm_sortEvents _).mem_iff.mp h)
    rfl
  · obtain ⟨r, -, hr⟩ := List.mem_filterMap.mp ((perm_sortEvents _).mem_iff.mp h)
    exact (failureOf_eq_some hr).1

/-- The ids of a run's failing checks. -/
def checkIdsOf (runId : String) (rows : List EventRow) : List String :=
  (rows.filter fun row => row.event.runId = runId).map fun row => row.event.checkId

/-- What recording these artifacts of a run does to a store. -/
structure Recorded (nodes : Manifest) (runId : String) (detected : Option Timestamp)
    (artifacts : List Artifact) (s s' : Store) : Prop where
  invocations : s'.invocations.map InvocationRow.invocationId =
    s.invocations.map InvocationRow.invocationId ++ artifacts.map Artifact.invocationId
  results : s'.results = s.results ++ artifacts.flatMap (resultRows nodes runId)
  /-- The new failing checks, each once. -/
  checkEvents : ∃ rows, s'.checkEvents = s.checkEvents ++ rows ∧
    (∀ row ∈ rows, row.incident = none ∧
      ∃ a ∈ artifacts, row.event ∈ eventsIn nodes runId detected a) ∧
    ∀ a ∈ artifacts, ∀ e ∈ eventsIn nodes runId detected a,
      ∃ row ∈ s.checkEvents ++ rows, row.event.runId = runId ∧ row.event.checkId = e.checkId
  once : (checkIdsOf runId s.checkEvents).Nodup → (checkIdsOf runId s'.checkEvents).Nodup
  incidents : s'.incidents = s.incidents
  runLinks : s'.runLinks = s.runLinks
  sharedNodes : s'.sharedNodes = s.sharedNodes
  escalations : s'.escalations = s.escalations
  notifications : s'.notifications = s.notifications

/-- `INSERT INTO incident_check_events … ON CONFLICT (run_id, check_id) DO NOTHING`. -/
private theorem foldl_insertEvent (invocationId runId : String) (events : List CheckEvent)
    (hrun : ∀ e ∈ events, e.runId = runId) (start : List EventRow) :
    ∃ rows, events.foldl (fun rows event =>
        if rows.any fun row => row.event.runId = runId && row.event.checkId = event.checkId then rows
        else rows ++ [⟨invocationId, event, none⟩]) start = start ++ rows ∧
      (∀ row ∈ rows, row.incident = none ∧ row.event ∈ events) ∧
      (∀ e ∈ events, ∃ row ∈ start ++ rows, row.event.runId = runId ∧
        row.event.checkId = e.checkId) ∧
      ((checkIdsOf runId start).Nodup → (checkIdsOf runId (start ++ rows)).Nodup) := by
  induction events generalizing start with
  | nil => exact ⟨[], by simp, by simp, by simp, by simp⟩
  | cons e rest ih =>
    have hrest : ∀ e' ∈ rest, e'.runId = runId := fun e' he' => hrun e' (List.mem_cons_of_mem _ he')
    by_cases hany : start.any fun row => row.event.runId = runId && row.event.checkId = e.checkId
    · obtain ⟨rows, hfold, hrows, hall, honce⟩ := ih hrest start
      refine ⟨rows, by rw [List.foldl_cons, if_pos hany, hfold],
        fun row hrow => ⟨(hrows row hrow).1, List.mem_cons_of_mem _ (hrows row hrow).2⟩, ?_, honce⟩
      refine List.forall_mem_cons.mpr ⟨?_, hall⟩
      simp only [List.any_eq_true, Bool.and_eq_true, decide_eq_true_eq] at hany
      obtain ⟨row, hrow, hsame⟩ := hany
      exact ⟨row, List.mem_append_left _ hrow, hsame⟩
    · obtain ⟨rows, hfold, hrows, hall, honce⟩ := ih hrest (start ++ [⟨invocationId, e, none⟩])
      refine ⟨⟨invocationId, e, none⟩ :: rows, ?_, ?_, ?_, fun hstart => ?_⟩
      · rw [List.foldl_cons, if_neg hany, hfold, List.append_assoc, List.singleton_append]
      · refine List.forall_mem_cons.mpr ⟨⟨rfl, List.mem_cons_self ..⟩, fun row hrow => ?_⟩
        exact ⟨(hrows row hrow).1, List.mem_cons_of_mem _ (hrows row hrow).2⟩
      · rw [List.append_assoc, List.singleton_append] at hall
        refine List.forall_mem_cons.mpr ⟨?_, hall⟩
        exact ⟨⟨invocationId, e, none⟩, by simp, hrun e (List.mem_cons_self ..), rfl⟩
      · rw [← List.singleton_append, ← List.append_assoc]
        refine honce ?_
        -- the conflict would be with a row of the same run and check
        simp only [List.any_eq_true, Bool.and_eq_true, decide_eq_true_eq, not_exists, not_and]
          at hany
        rw [checkIdsOf, List.filter_append, List.map_append, List.nodup_append]
        refine ⟨hstart, by simp [hrun e (List.mem_cons_self ..)], ?_⟩
        intro a ha b hb heq
        obtain ⟨row, hrow, rfl⟩ := List.mem_map.mp ha
        obtain ⟨hrow, hrun'⟩ := List.mem_filter.mp hrow
        obtain ⟨row', hrow', rfl⟩ := List.mem_map.mp hb
        rw [List.mem_singleton.mp (List.mem_filter.mp hrow').1] at heq
        exact hany row hrow (by simpa using hrun') heq

/-- **Recording**: the artifacts' rows are added, unless two share an invocation id. -/
theorem record_ends (ctx : Context) (runId : String) (detected : Option Timestamp)
    (artifacts : List Artifact) (s : Store) :
    Ends (artifacts.foldlM (record ctx runId detected) s)
      (fun e => e = .uniqueViolation "incident_invocations_pkey" ∧
        ¬ (s.invocations.map InvocationRow.invocationId ++
          artifacts.map Artifact.invocationId).Nodup)
      fun s' => Recorded ctx.nodes runId detected artifacts s s' := by
  -- over the artifacts recorded so far
  refine Ends.foldlM (I := fun done s' => Recorded ctx.nodes runId detected done s s') ?_ ?_
  · exact ⟨by simp, by simp, ⟨[], by simp, by simp, by simp⟩, id, rfl, rfl, rfl, rfl, rfl⟩
  · intro done a rest s' hl h
    rw [record]
    by_cases hknown : a.invocationId ∈ s'.invocations.map InvocationRow.invocationId
    · rw [if_pos hknown]
      refine ⟨rfl, fun hnodup => ?_⟩
      rw [hl, List.map_append, ← List.append_assoc, ← h.invocations, List.nodup_append] at hnodup
      exact hnodup.2.2 _ hknown a.invocationId (by simp) rfl
    · rw [if_neg hknown]
      obtain ⟨rows, hrows, hnew, hall⟩ := h.checkEvents
      obtain ⟨rows', hfold, hnew', hall', honce⟩ := foldl_insertEvent a.invocationId runId
        (eventsIn ctx.nodes runId detected a) (fun e he => runId_of_mem_eventsIn he) s'.checkEvents
      refine ⟨by simp [h.invocations], ?_, ⟨rows ++ rows', ?_, ?_, ?_⟩, fun hstart => ?_,
        h.incidents, h.runLinks, h.sharedNodes, h.escalations, h.notifications⟩
      · simp [h.results, resultRows]
      · rw [← List.append_assoc, ← hrows]
        exact hfold
      · intro row hrow
        rcases List.mem_append.mp hrow with hrow | hrow
        · obtain ⟨hnone, a', ha', he⟩ := hnew row hrow
          exact ⟨hnone, a', List.mem_append_left _ ha', he⟩
        · exact ⟨(hnew' row hrow).1, a, by simp, (hnew' row hrow).2⟩
      · intro a' ha' e he
        rw [← List.append_assoc, ← hrows]
        rcases List.mem_append.mp ha' with ha' | ha'
        · obtain ⟨row, hrow, hsame⟩ := hall a' ha' e he
          exact ⟨row, List.mem_append_left _ (hrows ▸ hrow), hsame⟩
        · rw [List.mem_singleton] at ha'
          exact hall' e (ha' ▸ he)
      · have hadded := honce (h.once hstart)
        rw [← hfold] at hadded
        exact hadded

/-! ## What the recorded rows say -/

/-- What a regrouping knows of its run, and where it has it from. -/
structure FactsOf (ctx : Context) (s : Store) (runId : String) (facts : RunFacts) : Prop where
  events : facts.events = s.eventsOf runId
  statuses : facts.statuses = s.statusesOf runId
  rootOf : rootsByNode ctx.graph (facts.events.map CheckEvent.subject) = some facts.rootOf
  groups : ∃ groups, groupFailures ctx.graph facts.events
      (sortedSet (((s.resultsOf runId).filter fun row => row.status = "skipped").map
        ResultRow.uniqueId)) = some groups ∧ facts.groups = sortBy Group.root groups

theorem factsOf_ends (ctx : Context) (s : Store) (runId : String) :
    Ends (factsOf ctx s runId) (fun e => e = .recursionError ∧ ¬ ctx.graph.Acyclic)
      (FactsOf ctx s runId) := by
  simp only [factsOf]
  split
  · rename_i groups rootOf hgroups hroots
    exact ⟨rfl, rfl, hroots, groups, hgroups, rfl⟩
  · rename_i hnot
    refine ⟨rfl, fun hacyclic => ?_⟩
    obtain ⟨groups, hgroups, -⟩ := groupFailures_correct hacyclic (s.eventsOf runId)
      (sortedSet (((s.resultsOf runId).filter fun row => row.status = "skipped").map
        ResultRow.uniqueId))
    obtain ⟨rootOf, hroots, -⟩ :=
      rootsByNode_spec hacyclic ((s.eventsOf runId).map CheckEvent.subject)
    exact hnot groups rootOf hgroups hroots

namespace FactsOf

variable {ctx : Context} {s : Store} {runId : String} {facts : RunFacts}
  (h : FactsOf ctx s runId facts)

include h

/-- The groups are those of the roots of the failing checks. -/
theorem perm_groups : ∃ skipped, facts.groups.Perm
    ((rootsFrom facts.rootOf facts.events).map
      (groupAt ctx.graph facts.rootOf facts.events skipped)) := by
  obtain ⟨groups, hgroups, hsorted⟩ := h.groups
  obtain ⟨rootOf, hroots, -, rfl⟩ := groupFailures_eq_some.mp hgroups
  obtain rfl := Option.some.inj (hroots.symm.trans h.rootOf)
  exact ⟨_, hsorted ▸ perm_sortBy _ _⟩

theorem perm_roots : (facts.groups.map Group.root).Perm (rootsFrom facts.rootOf facts.events) := by
  obtain ⟨skipped, hperm⟩ := h.perm_groups
  have hmap := hperm.map Group.root
  rwa [map_root_groupAt] at hmap

theorem distinct : (facts.groups.map Group.root).Nodup :=
  h.perm_roots.nodup_iff.mpr (nodup_sortedSet _)

/-- Every failing check has a root, and the root a group. -/
theorem exists_root {e : CheckEvent} (he : e ∈ facts.events) :
    ∃ root ∈ facts.groups.map Group.root, facts.rootOf.lookup e.subject = some root := by
  obtain ⟨groups, hgroups, -⟩ := h.groups
  obtain ⟨rootOf, hroots, hall, -⟩ := groupFailures_eq_some.mp hgroups
  obtain rfl := Option.some.inj (hroots.symm.trans h.rootOf)
  obtain ⟨root, hroot⟩ := Option.isSome_iff_exists.mp (hall e he)
  refine ⟨root, h.perm_roots.mem_iff.mpr ?_, hroot⟩
  exact mem_sortedSet.mpr (List.mem_filterMap.mpr ⟨e, he, hroot⟩)

/-- In an acyclic lineage the memo holds the roots. -/
theorem memoOf (hacyclic : ctx.graph.Acyclic) : MemoOf ctx.graph facts.events facts.rootOf := by
  obtain ⟨rootOf, hroots, hspec⟩ :=
    rootsByNode_spec hacyclic (facts.events.map CheckEvent.subject)
  obtain rfl := Option.some.inj (hroots.symm.trans h.rootOf)
  exact { toRootsOf := hspec, acyclic := hacyclic }

/-- Then a group's root is the subject of a failing check. -/
theorem failed_root (hacyclic : ctx.graph.Acyclic) {g : Group} (hg : g ∈ facts.groups) :
    ∃ e ∈ facts.events, e.subject = g.root := by
  have hroot : g.root ∈ rootsFrom facts.rootOf facts.events :=
    h.perm_roots.mem_iff.mp (List.mem_map_of_mem hg)
  exact ((h.memoOf hacyclic).mem_rootsFrom.mp hroot).1

end FactsOf

theorem mem_eventsOf {s : Store} {runId : String} {e : CheckEvent} :
    e ∈ s.eventsOf runId ↔ ∃ row ∈ s.checkEvents, row.event.runId = runId ∧ row.event = e := by
  simp [Store.eventsOf, and_assoc]

/-! ## Raises -/

/-- The table with other severities. -/
def reseverity (severityOf : Incident → Severity) (incidents : List Incident) : List Incident :=
  incidents.map fun i => { i with severity := severityOf i }

/-- **The raises** write severities and their own table. -/
theorem escalate_ends (ctx : Context) (runId : String) (now : Timestamp) (s : Store) :
    Ends (escalate ctx runId now s)
      (fun e => e = .uniqueViolation "incident_escalations_pkey")
      fun s' => ∃ severityOf escalations, s' = { s with
        incidents := reseverity severityOf s.incidents
        escalations := escalations } := by
  -- a raise can only clash with a reason that is on record
  have hloop : ∀ incident reasons severity rows,
      Ends (raiseLoop incident runId now reasons severity rows)
        (fun e => e = .uniqueViolation "incident_escalations_pkey") fun _ => True := by
    intro incident reasons
    induction reasons with
    | nil => exact fun _ _ => trivial
    | cons reason rest ih =>
      intro severity rows
      rw [raiseLoop]
      split
      · trivial
      · split
        · exact rfl
        · exact ih _ _
  refine Ends.foldlM (I := fun _ s' => ∃ severityOf escalations, s' = { s with
      incidents := reseverity severityOf s.incidents, escalations := escalations }) ?_ ?_
  · exact ⟨Incident.severity, s.escalations, by simp [reseverity]⟩
  · rintro _ i _ _ - ⟨severityOf, escalations, rfl⟩
    rw [escalateIncident]
    refine (hloop _ _ _ _).bind fun p _ => ?_
    rw [ends_pure]
    refine ⟨fun j => if j.seq = i.seq then p.1 else severityOf j, p.2, ?_⟩
    congr 1
    simp only [reseverity, List.map_map]
    refine List.map_congr_left fun j _ => ?_
    by_cases hj : j.seq = i.seq <;> simp [hj]

/-- Queueing a message writes the messages only. -/
private theorem foldl_queue {α : Type*} (f : Store → α → Store)
    (hf : ∀ s a, ∃ notifications, f s a = { s with notifications := notifications })
    (l : List α) (s : Store) :
    ∃ notifications, l.foldl f s = { s with notifications := notifications } := by
  induction l generalizing s with
  | nil => exact ⟨s.notifications, rfl⟩
  | cons a rest ih =>
    obtain ⟨_, ha⟩ := hf s a
    obtain ⟨notifications, hrest⟩ := ih (f s a)
    exact ⟨notifications, by rw [List.foldl_cons, hrest, ha]⟩

private theorem queue_eq (s : Store) (incident : ℕ) (kind : NotificationKind)
    (runId text : String) (time : Timestamp) :
    ∃ notifications, s.queue incident kind runId text time =
      { s with notifications := notifications } := by
  rw [Store.queue]
  split
  · exact ⟨_, rfl⟩
  · split
    · exact ⟨_, rfl⟩
    · exact ⟨_, rfl⟩

theorem queueMessages_eq (runId : String) (now : Timestamp) (out : Regrouped)
    (raises : List Escalation) (s : Store) :
    ∃ notifications, queueMessages runId now out raises s =
      { s with notifications := notifications } := by
  obtain ⟨_, h₁⟩ := foldl_queue _ (fun s i => queue_eq s i .page runId _ now) out.opened s
  obtain ⟨_, h₂⟩ := foldl_queue _ (fun s i => queue_eq s i .update runId _ now) out.appended _
  obtain ⟨_, h₃⟩ := foldl_queue _ (fun s i => queue_eq s i .resolved runId _ now) out.resolved _
  obtain ⟨notifications, h₄⟩ := foldl_queue _
    (fun s (row : Escalation) => queue_eq s row.incident .escalation runId _ now) raises _
  refine ⟨notifications, ?_⟩
  rw [queueMessages, h₁, h₂, h₃, h₄]

/-! ## An ingest -/

namespace IngestCall

variable (call : IngestCall) (s : Store)

/-- The regrouping an ingest gets to: its artifacts recorded, its run's facts read. -/
def regrouping : Except DeskError Regrouping := do
  let recorded ← (call.fresh s).foldlM (record call.ctx call.runId call.detected) s
  let facts ← factsOf call.ctx recorded call.runId
  return ⟨call.ctx, call.runId, call.now s, facts, recorded⟩

/-- The regrouping of a call, as its tables were recorded. -/
structure Reaches (r : Regrouping) : Prop where
  ctx : r.ctx = call.ctx
  runId : r.runId = call.runId
  now : r.now = call.now s
  recorded : Recorded call.ctx.nodes call.runId call.detected (call.fresh s) s r.store
  facts : FactsOf call.ctx r.store call.runId r.facts

/-- What an ingest did when it returns. -/
structure Ingested (r : Regrouping) (news : List Incident) (assignment : List (String × ℕ))
    (s' : Store) (out : Regrouped) : Prop where
  reaches : call.regrouping s = .ok r
  clear : r.Clear
  settled : ∃ settled severityOf escalations notifications,
    r.Settled news assignment settled out ∧ s' = { settled with
      incidents := reseverity severityOf settled.incidents
      escalations := escalations
      notifications := notifications }

/-- Why an ingest raises. -/
inductive Stumbles : DeskError → Prop
  /-- Two of its artifacts are of one invocation. -/
  | invocation : ¬ (s.invocations.map InvocationRow.invocationId ++
      (call.fresh s).map Artifact.invocationId).Nodup →
      Stumbles (.uniqueViolation "incident_invocations_pkey")
  | lineage : ¬ call.ctx.graph.Acyclic → Stumbles .recursionError
  /-- An incident stands in the way of one it opens or reopens. -/
  | oneOpen {r : Regrouping} : call.regrouping s = .ok r → ¬ r.Clear → Stumbles oneOpenPerRoot
  /-- An incident of the run's own has a root that no longer fails. -/
  | rootless {r : Regrouping} {key : String} : call.regrouping s = .ok r → ¬ r.Rooted →
      Stumbles (.keyError key)
  | escalation : Stumbles (.uniqueViolation "incident_escalations_pkey")

variable {call s}

theorem regrouping_ends : Ends (call.regrouping s)
    (fun e => call.Stumbles s e) (call.Reaches s) := by
  refine Ends.bind ((record_ends _ _ _ _ _).mono ?_ fun _ h => h) fun recorded hrecorded => ?_
  · rintro _ ⟨rfl, hnodup⟩
    exact .invocation hnodup
  · refine Ends.bind ((factsOf_ends _ _ _).mono ?_ fun _ h => h) fun facts hfacts => ?_
    · rintro _ ⟨rfl, hcyclic⟩
      exact .lineage hcyclic
    · exact ⟨rfl, rfl, rfl, hrecorded, hfacts⟩

/-- An ingest with something fresh runs its regrouping. -/
theorem ingest_eq (hfresh : call.fresh s ≠ []) : call.ingest s = (do
    let r ← call.regrouping s
    let (settled, out) ← settle r.ctx r.runId r.now r.facts r.store
    let raisedStore ← escalate r.ctx r.runId r.now settled
    let raises := raisedStore.escalations.drop settled.escalations.length
    return (queueMessages r.runId r.now out raises raisedStore, out)) := by
  rw [ingest, if_neg hfresh, regrouping]
  simp only [regroup, bind_assoc, pure_bind]

/-- **How an ingest ends**: with nothing fresh it changes nothing; else it returns the store with
its artifacts recorded and its run regrouped, or stumbles. -/
theorem ingest_ends (hnumbered : Numbered s.incidents) (hone : OneOpenPerRoot s.incidents) :
    Ends (call.ingest s) (fun e => call.fresh s ≠ [] ∧ call.Stumbles s e)
      fun p => (call.fresh s = [] ∧ p.1 = s) ∨
        (call.fresh s ≠ [] ∧ ∃ r news assignment, call.Ingested s r news assignment p.1 p.2) := by
  by_cases hfresh : call.fresh s = []
  · rw [ingest, if_pos hfresh]
    exact Or.inl ⟨hfresh, rfl⟩
  rw [ingest_eq hfresh]
  refine Ends.bind ((ends_self (call.regrouping s)).mono
    (fun e he => ⟨hfresh, regrouping_ends.raised he⟩) fun _ h => h) fun r hr => ?_
  have hreaches := regrouping_ends.returned hr
  have hdistinct := hreaches.facts.distinct
  have hsettle := r.settle_ends (hreaches.recorded.incidents ▸ hnumbered)
    (hreaches.recorded.incidents ▸ hone) hdistinct
  -- an open incident of the root, or a root without a group
  refine Ends.bind (hsettle.mono ?_ fun _ h => h) ?_
  · rintro _ (⟨rfl, hclear⟩ | ⟨⟨key, rfl⟩, hrooted⟩)
    · exact ⟨hfresh, .oneOpen hr hclear⟩
    · exact ⟨hfresh, .rootless hr hrooted⟩
  rintro ⟨settled, out⟩ ⟨hclear, news, assignment, hsettled⟩
  refine Ends.bind ((escalate_ends _ _ _ _).mono ?_ fun _ h => h) ?_
  · rintro _ rfl
    exact ⟨hfresh, .escalation⟩
  rintro _ ⟨severityOf, escalations, rfl⟩
  rw [ends_pure]
  refine Or.inr ⟨hfresh, r, news, assignment, hr, hclear, ?_⟩
  obtain ⟨notifications, hqueue⟩ := queueMessages_eq r.runId r.now out
    (escalations.drop settled.escalations.length) { settled with
      incidents := reseverity severityOf settled.incidents
      escalations := escalations }
  exact ⟨settled, severityOf, escalations, notifications, hsettled, hqueue⟩

end IngestCall

/-! ## What every store has -/

/-- A store as its constraints keep it: incident numbers apart, one open incident per root. -/
structure Store.Sound (s : Store) : Prop where
  numbered : Numbered s.incidents
  oneOpen : OneOpenPerRoot s.incidents

theorem Store.sound_empty : Store.Sound {} := ⟨List.nodup_nil, List.nodup_nil⟩

@[simp] theorem seq_reseverity {severityOf : Incident → Severity} {incidents : List Incident} :
    (reseverity severityOf incidents).map Incident.seq = incidents.map Incident.seq := by
  simp [reseverity, Function.comp_def]

/-- Severities do not concern the index. -/
theorem OneOpenPerRoot.reseverity {severityOf : Incident → Severity} {incidents : List Incident}
    (h : OneOpenPerRoot incidents) : OneOpenPerRoot (reseverity severityOf incidents) :=
  h.map (fun _ => rfl) fun _ _ hopen => hopen

namespace IngestCall

variable {call : IngestCall} {s : Store}

theorem Ingested.sound (hsound : s.Sound) {r : Regrouping} {news : List Incident}
    {assignment : List (String × ℕ)} {s' : Store} {out : Regrouped}
    (h : call.Ingested s r news assignment s' out) : s'.Sound := by
  obtain ⟨settled, _, _, _, hsettled, rfl⟩ := h.settled
  have hrecorded := (regrouping_ends.returned h.reaches).recorded.incidents
  refine ⟨?_, hsettled.oneOpen.reseverity⟩
  rw [Numbered, seq_reseverity, hsettled.incidents]
  exact Regrouping.numbered_map_append (hrecorded ▸ hsound.numbered)
    (fun _ => Regrouping.afterResolution_seq) hsettled.isNew hsettled.numbers

section Ingested

variable {r : Regrouping} {news : List Incident} {assignment : List (String × ℕ)} {s' : Store}
  {out : Regrouped} (h : call.Ingested s r news assignment s' out)

include h

/-- The incidents before the regrouping are the store's: recording adds none. -/
theorem Ingested.incidents_eq : r.store.incidents = s.incidents :=
  (regrouping_ends.returned h.reaches).recorded.incidents

/-- Every incident of the store is there after the ingest, as its fate has it, and so is every
new one. -/
theorem Ingested.exists_after {i : Incident}
    (hi : i ∈ s.incidents.map (r.fate (r.into assignment)) ++ news) :
    ∃ x ∈ s'.incidents, x.Alike i := by
  obtain ⟨settled, severityOf, _, _, hsettled, rfl⟩ := h.settled
  rw [← h.incidents_eq, ← hsettled.incidents] at hi
  exact ⟨_, List.mem_map_of_mem hi, ⟨⟨rfl, rfl, rfl, rfl⟩, rfl, rfl⟩⟩

/-- And there is no other incident after it. -/
theorem Ingested.exists_before {x : Incident} (hx : x ∈ s'.incidents) :
    ∃ i ∈ s.incidents.map (r.fate (r.into assignment)) ++ news, x.Alike i := by
  obtain ⟨settled, severityOf, _, _, hsettled, rfl⟩ := h.settled
  obtain ⟨i, hi, rfl⟩ := List.mem_map.mp hx
  rw [← h.incidents_eq, ← hsettled.incidents]
  exact ⟨i, hi, ⟨⟨rfl, rfl, rfl, rfl⟩, rfl, rfl⟩⟩

/-- The table after the ingest: every incident with its fate, the new ones after them, and the
severities set anew. -/
theorem Ingested.incidents : ∃ severityOf, s'.incidents =
    reseverity severityOf (s.incidents.map (r.fate (r.into assignment)) ++ news) := by
  obtain ⟨settled, severityOf, _, _, hsettled, rfl⟩ := h.settled
  rw [← h.incidents_eq, ← hsettled.incidents]
  exact ⟨severityOf, rfl⟩

theorem Ingested.reached : call.Reaches s r := regrouping_ends.returned h.reaches

theorem Ingested.checkEvents :
    s'.checkEvents = r.store.checkEvents.map (r.attributed assignment) := by
  obtain ⟨settled, _, _, _, hsettled, rfl⟩ := h.settled
  exact hsettled.checkEvents

theorem Ingested.runLinks : ∃ own,
    r.facts.events.mapM (incidentOf r.facts.rootOf assignment) = .ok own ∧
      s'.runLinks = (s.runLinks.filter fun link => link.runId ≠ r.runId) ++ r.linksOf own := by
  obtain ⟨settled, _, _, _, hsettled, rfl⟩ := h.settled
  rw [← h.reached.recorded.runLinks]
  exact hsettled.runLinks

theorem Ingested.found : ∀ g ∈ r.facts.groups, ∃ i, r.place news g = some i ∧
    assignment.lookup g.root = some i.seq := by
  obtain ⟨settled, _, _, _, hsettled, rfl⟩ := h.settled
  exact hsettled.found

theorem Ingested.sharedNodes : ∀ row, row ∈ s'.sharedNodes ↔
    (row ∈ s.sharedNodes ∧ row.runId ≠ r.runId) ∨ r.IsShared assignment row := by
  obtain ⟨settled, _, _, _, hsettled, rfl⟩ := h.settled
  rw [← h.reached.recorded.sharedNodes]
  exact hsettled.sharedNodes

theorem Ingested.roots :
    news.map Incident.root = (r.facts.groups.filter r.opens).map Group.root := by
  obtain ⟨settled, _, _, _, hsettled, rfl⟩ := h.settled
  exact hsettled.roots

theorem Ingested.isNew : ∀ n ∈ news, r.IsNew n := by
  obtain ⟨settled, _, _, _, hsettled, rfl⟩ := h.settled
  exact hsettled.isNew

/-- The incident of a group is there after the ingest, and not merged. -/
theorem Ingested.exists_of_place {g : Group} {i : Incident} (hg : g ∈ r.facts.groups)
    (hi : r.place news g = some i) : ∃ x ∈ s'.incidents, x.Same i ∧ x.mergedInto = none := by
  have hstore : ∀ {i : Incident}, i ∈ r.store.incidents → i.mergedInto = none →
      ¬ (i ∈ r.mine ∧ r.isReused i = false) → ∃ x ∈ s'.incidents, x.Same i ∧ x.mergedInto = none := by
    intro i hi hnone hkept
    obtain ⟨x, hx, halike⟩ := h.exists_after
      (List.mem_append_left _ (List.mem_map_of_mem (h.incidents_eq ▸ hi)))
    refine ⟨x, hx, halike.toSame.trans Regrouping.fate_same, halike.mergedInto.trans ?_⟩
    exact Regrouping.fate_mergedInto.mpr ⟨hnone, hkept⟩
  rw [Regrouping.place, Option.or_eq_some_iff] at hi
  -- joined, opened by the run before, or opened just now
  rcases hi with hjoins | ⟨hjoins, hfind⟩
  · have hbefore := Regrouping.mem_before_of_joins hjoins
    have hmem := Regrouping.mem_before.mp hbefore
    exact hstore hmem.1 hmem.2.1 fun hmine =>
      Regrouping.not_mem_mine_of_mem_before hbefore hmine.1
  · rw [List.find?_append, Option.or_eq_some_iff] at hfind
    rcases hfind with hmine | ⟨-, hnew⟩
    · have hmem := Regrouping.mem_mine.mp (List.mem_of_find?_eq_some hmine)
      refine hstore hmem.1 hmem.2.1 fun hkept => ?_
      rw [Regrouping.isReused_eq_true.mpr ⟨g, hg, Regrouping.reuses_eq_some.mpr ⟨hjoins, hmine⟩⟩]
        at hkept
      cases hkept.2
    · have hn := List.mem_of_find?_eq_some hnew
      obtain ⟨x, hx, halike⟩ := h.exists_after (List.mem_append_right _ hn)
      exact ⟨x, hx, halike.toSame, halike.mergedInto.trans (h.isNew i hn).mergedInto⟩

/-- Every failing check of the run gets the incident of the group of its root. -/
theorem Ingested.exists_incidentOf {e : CheckEvent} (he : e ∈ r.facts.events) :
    ∃ g ∈ r.facts.groups, ∃ i, r.facts.rootOf.lookup e.subject = some g.root ∧
      r.place news g = some i ∧ incidentOf r.facts.rootOf assignment e = .ok i.seq := by
  obtain ⟨root, hroot, hlook⟩ := h.reached.facts.exists_root he
  obtain ⟨g, hg, rfl⟩ := List.mem_map.mp hroot
  obtain ⟨i, hi, hassigned⟩ := h.found g hg
  exact ⟨g, hg, i, hlook, hi, by rw [incidentOf, hlook]; simp [assigned, hassigned]⟩

/-- The rows of the run are its failing checks. -/
theorem Ingested.mem_events {row : EventRow} (hrow : row ∈ r.store.checkEvents)
    (hrun : row.event.runId = r.runId) : row.event ∈ r.facts.events := by
  rw [h.reached.facts.events, ← h.reached.runId]
  exact mem_eventsOf.mpr ⟨row, hrow, hrun, rfl⟩

/-- The rows of other runs stay as they are. -/
theorem Ingested.filter_checkEvents {p : EventRow → Bool}
    (hp : ∀ row, p row = true → row.event.runId ≠ r.runId) :
    s'.checkEvents.filter p = s.checkEvents.filter p := by
  obtain ⟨rows, hrows, hnew, -⟩ := h.reached.recorded.checkEvents
  have hpp : p ∘ r.attributed assignment = p := by
    funext row
    by_cases hrun : row.event.runId = r.runId
    · have hfalse : ∀ row : EventRow, row.event.runId = r.runId → p row = false :=
        fun row hrun => Bool.eq_false_iff.mpr fun htrue => hp row htrue hrun
      rw [Function.comp_apply, hfalse row hrun]
      exact hfalse _ (by rw [Regrouping.attributed, if_pos hrun]; exact hrun)
    · rw [Function.comp_apply, Regrouping.attributed, if_neg hrun]
  -- the rows that came in are of the run
  have hnone : rows.filter p = [] := by
    refine List.filter_eq_nil_iff.mpr fun row hrow htrue => hp row htrue ?_
    obtain ⟨-, a, -, he⟩ := hnew row hrow
    exact (runId_of_mem_eventsIn he).trans h.reached.runId.symm
  rw [h.checkEvents, List.filter_map, hpp, hrows, List.filter_append, hnone, List.append_nil]
  refine (List.map_congr_left fun row hrow => ?_).trans (List.map_id _)
  rw [Regrouping.attributed, if_neg (hp row (List.mem_filter.mp hrow).2)]
  rfl

theorem Ingested.mem_checkEvents_of_ne {row : EventRow} (hrun : row.event.runId ≠ r.runId) :
    row ∈ s'.checkEvents ↔ row ∈ s.checkEvents := by
  have hfilter := @Ingested.filter_checkEvents _ _ _ _ _ _ _ h
    (fun row => row.event.runId ≠ r.runId) (by simp)
  have hmem := congrArg (row ∈ ·) hfilter
  simpa [hrun] using hmem

/-- A group whose incident has the number of an earlier one joins it. -/
theorem Ingested.joins_of_place (hsound : s.Sound) {g : Group} {i j : Incident}
    (hj : r.place news g = some j) (hi : i ∈ r.before) (hseq : j.seq = i.seq) :
    r.joins g = some i := by
  have hi' := (Regrouping.mem_before.mp hi).1
  have hnew : ∀ n ∈ news, n.seq ≠ i.seq := fun n hn heq =>
    (h.isNew n hn).unused (heq ▸ List.mem_map_of_mem hi')
  have hold : ∀ k ∈ r.store.incidents, k.seq = i.seq → k = i := fun k hk heq =>
    (h.incidents_eq ▸ hsound.numbered : Numbered r.store.incidents).eq_of_seq hk hi' heq
  rw [Regrouping.place, Option.or_eq_some_iff] at hj
  rcases hj with hjoins | ⟨-, hfind⟩
  · rw [hjoins, hold j (Regrouping.mem_before.mp (Regrouping.mem_before_of_joins hjoins)).1 hseq]
  · rcases List.mem_append.mp (List.mem_of_find?_eq_some hfind) with hmine | hn
    · obtain rfl := hold j (Regrouping.mem_mine.mp hmine).1 hseq
      exact absurd hmine (Regrouping.not_mem_mine_of_mem_before hi)
    · exact absurd hseq (hnew j hn)

theorem Ingested.results : s'.results = r.store.results := by
  obtain ⟨settled, _, _, _, hsettled, rfl⟩ := h.settled
  exact hsettled.results

theorem Ingested.invocations : s'.invocations = r.store.invocations := by
  obtain ⟨settled, _, _, _, hsettled, rfl⟩ := h.settled
  exact hsettled.invocations

/-- The run's statuses are those of everything recorded of it. -/
theorem Ingested.statuses : r.facts.statuses = s'.statusesOf r.runId := by
  rw [h.reached.facts.statuses, h.reached.runId, Store.statusesOf, Store.statusesOf,
    Store.resultsOf, Store.resultsOf, h.results]

/-- The statuses of other runs stay as they are. -/
theorem Ingested.statusesOf_of_ne {runId : String} (hrun : runId ≠ r.runId) :
    s'.statusesOf runId = s.statusesOf runId := by
  have hnone : ((call.fresh s).flatMap (resultRows call.ctx.nodes call.runId)).filter
      (fun row => row.runId = runId) = [] := by
    refine List.filter_eq_nil_iff.mpr fun row hrow => ?_
    obtain ⟨a, -, hrow⟩ := List.mem_flatMap.mp hrow
    obtain ⟨_, -, rfl⟩ := List.mem_map.mp hrow
    simpa [h.reached.runId] using hrun.symm
  rw [Store.statusesOf, Store.statusesOf, Store.resultsOf, Store.resultsOf, h.results,
    h.reached.recorded.results, List.filter_append, hnone, List.append_nil]

theorem Ingested.mem_recorded {row : EventRow} (hrow : row ∈ s.checkEvents) :
    row ∈ r.store.checkEvents := by
  obtain ⟨rows, hrows, -, -⟩ := h.reached.recorded.checkEvents
  exact hrows ▸ List.mem_append_left _ hrow

/-- What carries an incident's number after the ingest is that incident, as its fate has it. -/
theorem Ingested.alike_of_seq (hsound : s.Sound) {i x : Incident} (hi : i ∈ s.incidents)
    (hx : x ∈ s'.incidents) (hseq : x.seq = i.seq) : x.Alike (r.fate (r.into assignment) i) := by
  obtain ⟨y, hy, halike⟩ := h.exists_before hx
  rcases List.mem_append.mp hy with hy | hy
  · obtain ⟨j, hj, rfl⟩ := List.mem_map.mp hy
    have hji : j.seq = i.seq :=
      (halike.toSame.trans Regrouping.fate_same).seq.symm.trans hseq
    rwa [hsound.numbered.eq_of_seq hj hi hji] at halike
  · refine absurd ?_ (h.isNew y hy).unused
    rw [h.incidents_eq, ← halike.seq, hseq]
    exact List.mem_map_of_mem hi

end Ingested

/-- Whatever an ingest does, the constraints hold after it. -/
theorem sound_after (h : s.Sound) : (call.after s).Sound := by
  rw [after]
  have hends : Ends (call.ingest s) _ _ := ingest_ends h.numbered h.oneOpen
  split
  · rename_i s' out hok
    rcases hends.returned hok with ⟨-, rfl⟩ | ⟨-, _, _, _, hingested⟩
    · exact h
    · exact hingested.sound h
  · exact h

end IngestCall

/-! ## Runs of the desk -/

/-- One ingest after another, each in its own transaction. -/
def deskStep (s : Store) (call : IngestCall) : Option Store := some (call.after s)

theorem sound_of_run {ok : Store → IngestCall → Prop} {calls : List IngestCall} {s s' : Store}
    (hrun : Machine.Run deskStep ok s calls s') (h : s.Sound) : s'.Sound :=
  hrun.invariant h fun _ call _ hs _ hstep => Option.some.inj hstep ▸ call.sound_after hs

/-- The ingest has something fresh, gets to this regrouping, and returns. -/
structure IngestCall.Completes (call : IngestCall) (s : Store) (r : Regrouping) : Prop where
  fresh : call.fresh s ≠ []
  regrouping : call.regrouping s = .ok r
  returns : ∃ p, call.ingest s = .ok p

/-- An ingest completes its regrouping, or changes nothing. -/
theorem IngestCall.completes_or_same {call : IngestCall} {s : Store} (hsound : s.Sound) :
    (call.after s = s ∧ ∀ r, ¬ call.Completes s r) ∨
      ∃ r news assignment out, call.Completes s r ∧
        call.Ingested s r news assignment (call.after s) out := by
  have hends : Ends (call.ingest s) _ _ := ingest_ends hsound.numbered hsound.oneOpen
  cases hingest : call.ingest s with
  | error e =>
    refine Or.inl ⟨by rw [after, hingest], fun r h => ?_⟩
    obtain ⟨p, hp⟩ := h.returns
    rw [hp] at hingest
    cases hingest
  | ok p =>
    have hafter : call.after s = p.1 := by rw [after, hingest]
    rw [hafter]
    rcases hends.returned hingest with ⟨hfresh, hsame⟩ | ⟨hfresh, r, news, assignment, h⟩
    · exact Or.inl ⟨hsame, fun r h => h.fresh hfresh⟩
    · exact Or.inr ⟨r, news, assignment, p.2, ⟨hfresh, h.reaches, p, hingest⟩, h⟩

/-- **The rule for what a regrouping can break**: it holds after every ingest exactly when every
regrouping that completes meets the condition. -/
theorem always_iff_of_ingested {J P : Store → Prop} {Q : Store → Regrouping → Prop}
    {calls : List IngestCall} (hempty : J {} ∧ P {})
    (hafter : ∀ {call : IngestCall} {s s' : Store} {r : Regrouping} {news : List Incident}
      {assignment : List (String × ℕ)} {out : Regrouped}, call ∈ calls → s.Sound → J s →
      call.fresh s ≠ [] → call.Ingested s r news assignment s' out → J s')
    (hstep : ∀ {call : IngestCall} {s s' : Store} {r : Regrouping} {news : List Incident}
      {assignment : List (String × ℕ)} {out : Regrouped}, call ∈ calls → s.Sound → J s → P s →
      call.fresh s ≠ [] → call.Ingested s r news assignment s' out → (P s' ↔ Q s r)) :
    (∀ done, done <+: calls → P (done.foldl (fun s call => call.after s) {})) ↔
      Machine.Run deskStep (fun s call => ∀ r, call.Completes s r → Q s r) {} calls
        (calls.foldl (fun s call => call.after s) {}) := by
  apply Machine.always_iff_run (I := fun s => s.Sound ∧ J s)
  · rintro s call hcall ⟨hsound, hJ⟩
    refine ⟨call.sound_after hsound, ?_⟩
    rcases call.completes_or_same hsound with ⟨hsame, -⟩ | ⟨r, news, assignment, out, hr, h⟩
    · rw [hsame]
      exact hJ
    · exact hafter hcall hsound hJ hr.fresh h
  · rintro s call hcall ⟨hsound, hJ⟩ hP
    rcases call.completes_or_same hsound with ⟨hsame, hnone⟩ | ⟨r, news, assignment, out, hr, h⟩
    · rw [hsame]
      exact iff_of_true hP fun r hr => absurd hr (hnone r)
    · rw [hstep hcall hsound hJ hP hr.fresh h]
      refine ⟨fun hQ r' hr' => ?_, fun hQ => hQ r hr⟩
      -- a call has one regrouping
      obtain rfl : r = r' := Except.ok.inj (hr.regrouping.symm.trans hr'.regrouping)
      exact hQ
  · exact ⟨Store.sound_empty, hempty.1⟩
  · exact hempty.2

/-! ## A small project -/

/-- Two models, the second built on the first. -/
def twoModels : Manifest where
  nodes := [⟨"model.a", .model, "a", [], none, [], "", "", none, "", ""⟩,
    ⟨"model.b", .model, "b", ["model.a"], none, [], "", "", none, "", ""⟩]
  unique := by decide
  kinds := by decide

def twoModelsContext : Context where
  nodes := twoModels
  registry := ⟨[], []⟩
  policy := ⟨⟨1, 10, 5, by decide⟩, ⟨4, 2, 1⟩, fun _ => none, []⟩
  maxOpenPerPerson := 3

/-- One invocation of a run on the two models: what became of which node, at what time. -/
def invocationOf (runId id : String) (time : Timestamp) (results : List (String × String)) :
    IngestCall where
  ctx := twoModelsContext
  artifacts := [⟨id, .runResults, time, results.map fun r => ⟨r.1, r.2, "", ""⟩⟩]
  runId := runId

/-- The store after these ingests, from the empty one. -/
def storeAfter (calls : List IngestCall) : Store :=
  calls.foldl (fun s call => call.after s) {}

end PlatformOps.Incidents
