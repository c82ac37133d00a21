import PlatformOps.Incidents.Notify
import PlatformOps.Library.Ordered

/-!
# The Store Read Back

The report reads the incident store back as a history: every incident that is not
merged with its runs, checks and raises, and every run with what it opened, joined
and resolved. The tables are read in an order, and where a query's key leaves the
order of two rows open the history may come out either way (`Answers`).

The history does not read which run opened or resolved an incident. Its run table
takes the first run linked to an incident for the one that opened it, and the runs
first detected when it was resolved for those that resolved it.
-/

namespace PlatformOps.Incidents

open Metadata Listing Ordered Notify

/-! ## Queries -/

namespace Store

variable (s : Store)

/-- The runs of the invocations: `GROUP BY run_id`. -/
def runIds : List String := (s.invocations.map InvocationRow.runId).dedup

def invocationsOf (run : String) : List InvocationRow :=
  s.invocations.filter fun row => row.runId = run

/-- `min(detected_at)` of a run's invocations. -/
def runAt (run : String) : Timestamp :=
  (((s.invocationsOf run).map InvocationRow.detectedAt).min?).getD 0

/-- `skipped_by_run[run]`. -/
def skippedIn (run : String) : List String :=
  (s.results.filter fun row => row.runId = run && row.status = "skipped").map ResultRow.uniqueId

end Store

section Keys

variable {κ : Type*} [LinearOrder κ] (collate : String → κ)

/-- `ORDER BY at, incident_id`. -/
def linkKey (link : RunLink) : Timestamp ×ₗ κ :=
  toLex (link.time, collate (incidentIdOf link.incident))

/-- `ORDER BY detected_at, run_id, check_id`. -/
def eventKey (row : EventRow) : Timestamp ×ₗ κ ×ₗ κ :=
  toLex (row.event.detectedAt, toLex (collate row.event.runId, collate row.event.checkId))

/-- `ORDER BY min(detected_at), run_id`. -/
def runKey (s : Store) (run : String) : Timestamp ×ₗ κ :=
  toLex (s.runAt run, collate run)

/-- `ORDER BY at, incident_id, reason`. -/
def raiseKey (row : Escalation) : Timestamp ×ₗ κ ×ₗ κ :=
  toLex (row.time, toLex (collate (incidentIdOf row.incident), collate row.reason.text))

/-- `ORDER BY sent_at, incident_id, kind`. -/
def notificationKey (n : NotificationRow) : Timestamp ×ₗ κ ×ₗ κ :=
  toLex (n.sentAt, toLex (collate (incidentIdOf n.incident), collate (kindText n.kind)))

/-- What the queries answer, each in an order its key allows. Texts are ordered by the database's
collation. -/
structure Answers (s : Store) where
  links : List RunLink
  events : List EventRow
  runs : List String
  raises : List Escalation
  notifications : List NotificationRow
  orderedLinks : OrderedBy (linkKey collate) s.runLinks links
  orderedEvents : OrderedBy (eventKey collate) s.checkEvents events
  orderedRuns : OrderedBy (runKey collate s) s.runIds runs
  orderedRaises : OrderedBy (raiseKey collate) s.escalations raises
  orderedNotifications : OrderedBy (notificationKey collate) s.notifications notifications

/-- Every query answers. -/
def sortedAnswers (s : Store) : Answers collate s where
  links := sortBy (linkKey collate) s.runLinks
  events := sortBy (eventKey collate) s.checkEvents
  runs := sortBy (runKey collate s) s.runIds
  raises := sortBy (raiseKey collate) s.escalations
  notifications := sortBy (notificationKey collate) s.notifications
  orderedLinks := orderedBy_sortBy ..
  orderedEvents := orderedBy_sortBy ..
  orderedRuns := orderedBy_sortBy ..
  orderedRaises := orderedBy_sortBy ..
  orderedNotifications := orderedBy_sortBy ..

end Keys

/-! ## Incidents -/

/-- An incident of the history. -/
structure HistoryIncident where
  incidentId : String
  root : String
  dataset : String
  severity : Severity
  score : ℕ
  rootTier : Tier
  owner : String
  team : String
  naiveOwner : String
  naiveTeam : String
  routedVia : String
  openedAt : Timestamp
  resolvedAt : Option Timestamp
  previousIncidentId : Option String
  consumers : List Consumer
  runIds : List String
  checks : ℕ
  skipped : List String
  /-- Failed nodes this incident shares with another incident's root above them. -/
  sharedNodes : List String
  /-- Who was paged: the owner, or the rule's backup when the owner was busy. -/
  paged : String
  /-- Each raise: (at, from severity, to severity, reason), in order. -/
  escalations : List (Timestamp × Severity × Severity × String)
deriving DecidableEq, Repr

section History

variable {κ : Type*} [LinearOrder κ] {collate : String → κ} {s : Store}
  (answers : Answers collate s)

namespace Answers

/-- The links of an incident. -/
def linksOf (i : Incident) : List RunLink :=
  answers.links.filter fun link => link.incident = i.seq

/-- `run_ids`: the runs linked to an incident. -/
def runIdsOf (i : Incident) : List String :=
  (answers.linksOf i).map RunLink.runId

/-- `escalations`: the raises of an incident. -/
def escalationsOf (i : Incident) : List (Timestamp × Severity × Severity × String) :=
  (answers.raises.filter fun row => row.incident = i.seq).map fun row =>
    (row.time, row.fromSeverity, row.toSeverity, row.reason.text)

end Answers

/-- What is below a dataset, and the dataset. `nx.descendants` raises for a node that is not in the
lineage. -/
def below (ctx : Context) (dataset : String) : Option (List String) :=
  if dataset ∈ ctx.graph.nodes then some (dataset :: downstream ctx.graph dataset) else none

/-- What an incident's runs skipped below it. Only its links look there. -/
def skippedBelow (ctx : Context) (s : Store) (dataset : String) :
    List RunLink → Option (List String)
  | [] => some []
  | links => (below ctx dataset).map fun nodes =>
      sortedSet ((links.flatMap fun link => s.skippedIn link.runId).filter fun id => id ∈ nodes)

/-- An incident as the history shows it. -/
def shown (ctx : Context) (i : Incident) : Option HistoryIncident :=
  (skippedBelow ctx s i.dataset (answers.linksOf i)).map fun skipped =>
    { incidentId := incidentIdOf i.seq
      root := i.root
      dataset := i.dataset
      severity := i.severity
      score := i.score
      rootTier := i.rootTier
      owner := i.owner
      team := i.team
      naiveOwner := i.naiveOwner
      naiveTeam := i.naiveTeam
      routedVia := i.routedVia
      openedAt := i.openedAt
      resolvedAt := i.resolved.map Resolution.time
      previousIncidentId := i.previousIncident.map incidentIdOf
      consumers := (scoreIncident ctx.graph i.root ctx.nodes ctx.tierOf ctx.policy).consumers
      runIds := answers.runIdsOf i
      checks := ((answers.linksOf i).map RunLink.checks).sum
      skipped := skipped
      sharedNodes := sortedSet ((s.sharedNodes.filter fun row => row.incident = i.seq).map
        SharedNode.node)
      paged := i.handler
      escalations := answers.escalationsOf i }

/-! ## Runs -/

structure RunRecord where
  runId : String
  runAt : Timestamp
  invocations : ℕ
  checksRun : ℕ
  failures : ℕ
  opened : ℕ
  appended : ℕ
  resolved : ℕ
deriving DecidableEq, Repr

/-- `run in i.run_ids and i.run_ids[0] == run`. -/
def openedIn (run : String) (runIds : List String) : Bool :=
  run ∈ runIds && runIds.head? = some run

/-- `run in i.run_ids and i.run_ids[0] != run`. -/
def appendedIn (run : String) (runIds : List String) : Bool :=
  run ∈ runIds && runIds.head? ≠ some run

/-- `i.resolved_at is not None and i.resolved_at == run_at`. -/
def resolvedWhen (runAt : Timestamp) (resolvedAt : Option Timestamp) : Bool :=
  resolvedAt = some runAt

/-- A line of the run table. -/
def runRecord (s : Store) (incidents : List HistoryIncident) (run : String) : RunRecord where
  runId := run
  runAt := s.runAt run
  invocations := (s.invocationsOf run).length
  checksRun := ((s.invocationsOf run).map InvocationRow.checksRun).sum
  failures := s.checkEvents.countP fun row => row.event.runId = run
  opened := incidents.countP fun i => openedIn run i.runIds
  -- counted by what the incident shows, not by what the run reported
  appended := incidents.countP fun i => appendedIn run i.runIds
  resolved := incidents.countP fun i => resolvedWhen (s.runAt run) i.resolvedAt

/-! ## The history -/

structure History where
  incidents : List HistoryIncident
  merged : List String
  /-- (event, incident id) for every failing check. -/
  events : List (CheckEvent × String)
  runs : List RunRecord
  notifications : List NotificationRow
deriving DecidableEq, Repr

/-- The incidents that are not merged, by number. -/
def Store.unmerged (s : Store) : List Incident :=
  s.bySeq.filter fun i => i.mergedInto = none

/-- `load_history`, unless the dataset of a linked incident is not in the lineage. -/
def loadHistory (ctx : Context) : Option History :=
  (s.unmerged.mapM (shown answers ctx)).map fun incidents =>
    { incidents := incidents
      merged := (s.bySeq.filter fun i => i.mergedInto ≠ none).map fun i => incidentIdOf i.seq
      events := answers.events.map fun row =>
        (row.event, (row.incident.map incidentIdOf).getD "None")
      runs := answers.runs.map (runRecord s incidents)
      notifications := answers.notifications }

end History

/-! ## First facts -/

theorem Store.mem_unmerged {s : Store} {i : Incident} :
    i ∈ s.unmerged ↔ i ∈ s.incidents ∧ i.mergedInto = none := by
  rw [unmerged, List.mem_filter, bySeq, mem_sortBy, decide_eq_true_eq]

theorem Store.mem_runIds {s : Store} {run : String} :
    run ∈ s.runIds ↔ ∃ row ∈ s.invocations, row.runId = run := by
  rw [runIds, List.mem_dedup, List.mem_map]

section Facts

variable {κ : Type*} [LinearOrder κ] {collate : String → κ} {s : Store}
  {answers : Answers collate s} {ctx : Context} {i : Incident}

/-- What the history shows of an incident. -/
theorem shown_eq_some {h : HistoryIncident} (hshown : shown answers ctx i = some h) :
    h.incidentId = incidentIdOf i.seq ∧ h.severity = i.severity ∧
      h.runIds = answers.runIdsOf i ∧ h.resolvedAt = i.resolved.map Resolution.time ∧
      h.escalations = answers.escalationsOf i := by
  unfold shown at hshown
  obtain ⟨skipped, -, rfl⟩ := Option.map_eq_some_iff.mp hshown
  exact ⟨rfl, rfl, rfl, rfl, rfl⟩

/-- **The incidents of a history** are those that are not merged. -/
theorem loadHistory_incidents {history : History} (hload : loadHistory answers ctx = some history) :
    (∀ i ∈ s.unmerged, (shown answers ctx i).isSome) ∧
      history.incidents = s.unmerged.filterMap (shown answers ctx) := by
  unfold loadHistory at hload
  obtain ⟨incidents, hincidents, rfl⟩ := Option.map_eq_some_iff.mp hload
  exact mapM_eq_some_iff.mp hincidents

/-- Its runs are those of the invocations, each with its counts. -/
theorem loadHistory_runs {history : History} (hload : loadHistory answers ctx = some history) :
    history.runs = answers.runs.map (runRecord s history.incidents) := by
  unfold loadHistory at hload
  obtain ⟨incidents, -, rfl⟩ := Option.map_eq_some_iff.mp hload
  rfl

/-- An incident of the history is one of the store. -/
theorem exists_incident_of_history {history : History}
    (hload : loadHistory answers ctx = some history) {h : HistoryIncident}
    (hh : h ∈ history.incidents) :
    ∃ i ∈ s.incidents, i.mergedInto = none ∧ shown answers ctx i = some h := by
  rw [(loadHistory_incidents hload).2] at hh
  obtain ⟨i, hi, hshown⟩ := List.mem_filterMap.mp hh
  obtain ⟨hmem, hunmerged⟩ := Store.mem_unmerged.mp hi
  exact ⟨i, hmem, hunmerged, hshown⟩

end Facts

end PlatformOps.Incidents
