import PlatformOps.Incidents.Grouping
import PlatformOps.Incidents.Routing
import PlatformOps.Incidents.Store
import PlatformOps.Library.Fallible

/-!
# The Incident Desk

dbt's artifacts in, incidents out, one ingest at a time. An ingest records the
invocations the store has not seen, then regroups the whole run from everything
the store holds of it:

1. each root-cause group joins an earlier incident, or reuses or opens one of the
   run's own;
2. the run's own incidents no group is assigned to are merged;
3. the run's failing checks are attributed, and linked to the incidents;
4. the earlier incidents the run did not fail on are resolved if their root is
   healthy, and reopened if it no longer is;
5. incidents open too long are raised, and messages queued.

All of it is one transaction: an ingest that raises leaves the store as it was.
-/

namespace PlatformOps.Incidents

open Metadata Listing Fallible

/-- What the desk needs to know about the project: lineage, owners, policy. -/
structure Context where
  nodes : Manifest
  registry : Registry
  policy : IncidentPolicy
  maxOpenPerPerson : ℕ
  lineage : Option ColumnLineage := none

namespace Context

variable (ctx : Context)

def graph : FinDigraph String := ctx.nodes.buildGraph

/-- `tier_of.get(unique_id)`. -/
def tierOf (uniqueId : String) : Option Tier :=
  (ctx.nodes.get uniqueId).bind fun _ => (ctx.registry.resolve uniqueId).map DatasetRule.tier

/-- `node.attached_node or test_subject(node)`. -/
def subjectOf (test : Node) : String :=
  (truthy test.attachedNode).getD (testSubject test)

/-- `tests_of.get(dataset, frozenset())`: the tests attached to a node, or of a source. -/
def testsOf (dataset : String) : List String :=
  (ctx.nodes.nodes.filter fun n => n.resourceType = .test && subjectOf n ≠ n.uniqueId &&
    subjectOf n = dataset).map Node.uniqueId

/-- `_above`. -/
def above (node : String) : List String :=
  if node ∈ ctx.graph.nodes then upstream ctx.graph node else []

end Context

/-! ## What a run shows -/

def badStatuses : List String := ["error", "fail", "runtime error"]
def healthyFreshness : List String := ["pass", "warn"]

/-- A node's status in the run so far. A node reported twice counts by its worst status. -/
def statusStep (statuses : List (String × String)) (row : ResultRow) : List (String × String) :=
  -- a skipped node was not checked: it has no status
  if row.status = "skipped" then statuses
  else
    match statuses.lookup row.uniqueId with
    -- a bad status stays, whatever a retry says after it
    | some status => if status ∈ badStatuses then statuses else (row.uniqueId, row.status) :: statuses
    | none => (row.uniqueId, row.status) :: statuses

/-- Everything the store holds about a run. -/
structure RunFacts where
  events : List CheckEvent
  statuses : List (String × String)
  groups : List Group
  rootOf : List (String × String)

/-- The failing checks of a run. -/
def Store.eventsOf (s : Store) (runId : String) : List CheckEvent :=
  sortBy CheckEvent.checkId
    ((s.checkEvents.filter fun row => row.event.runId = runId).map EventRow.event)

/-- The results of a run, in the order they are read. -/
def Store.resultsOf (s : Store) (runId : String) : List ResultRow :=
  sortBy (fun row => toLex (row.uniqueId, row.status))
    (s.results.filter fun row => row.runId = runId)

def Store.statusesOf (s : Store) (runId : String) : List (String × String) :=
  (s.resultsOf runId).foldl statusStep []

/-- The first half of `_regroup`: the run's failing checks in groups, and each node's status. -/
def factsOf (ctx : Context) (s : Store) (runId : String) : Except DeskError RunFacts :=
  let events := s.eventsOf runId
  let skipped := sortedSet (((s.resultsOf runId).filter fun row => row.status = "skipped").map
    ResultRow.uniqueId)
  match groupFailures ctx.graph events skipped, rootsByNode ctx.graph (events.map CheckEvent.subject)
    with
  | some groups, some rootOf =>
    .ok ⟨events, s.statusesOf runId, sortBy Group.root groups, rootOf⟩
  -- groups and roots come from recursive walks, which fail on a cycle
  | _, _ => .error .recursionError

/-- `_healthy`: did this run cover `root` and find it healthy? -/
def healthy (ctx : Context) (statuses : List (String × String)) (root : String) : Bool :=
  let dataset := datasetOf root ctx.nodes
  let tests := ctx.testsOf dataset
  let ran := tests.filterMap fun t => statuses.lookup t
  -- a dataset with tests is healthy only if one of them ran
  let testsPass := (tests.isEmpty || !ran.isEmpty) && ran.all fun status => status = "pass"
  -- fresh again, and its own tests pass when they ran
  if startsWith root "source." then
    match statuses.lookup root with
    | some status => status ∈ healthyFreshness && testsPass
    | none => false
  else if startsWith root "test." then statuses.lookup root = some "pass"
  else statuses.lookup dataset = some "success" && testsPass

/-- `_covered`: did this run check `root` at all, whatever it found? -/
def covered (ctx : Context) (statuses : List (String × String)) (root : String) : Bool :=
  (statuses.lookup root).isSome || (statuses.lookup (datasetOf root ctx.nodes)).isSome

/-! ## Incidents of a run -/

/-- `before`: the earlier incidents a run can join or resolve. -/
def Store.before (s : Store) (runId : String) (now : Timestamp) : List Incident :=
  s.bySeq.filter fun i => i.mergedInto = none && i.openedByRun ≠ runId && i.openedAt ≤ now &&
    (i.resolved.isNone || i.resolvedByRun = some runId)

/-- `mine`: the incidents the run opened. -/
def Store.mine (s : Store) (runId : String) : List Incident :=
  s.bySeq.filter fun i => i.mergedInto = none && i.openedByRun = runId

/-- The earlier incident a group joins: of the same root, of a root that fails in the group, of a
root below the group's, or of a root above it that the run did not check. -/
def joined (ctx : Context) (statuses : List (String × String)) (before : List Incident)
    (group : Group) : Option Incident :=
  (before.find? fun i => i.root = group.root) <|>
  (before.find? fun i => i.root ∈ group.failedNodes) <|>
  -- the failure moved up, or what is above was not looked at
  (before.find? fun i => group.root ∈ ctx.above i.root) <|>
  before.find? fun i => i.root ∈ ctx.above group.root && !covered ctx statuses i.root

/-- What the assignment of groups has done so far. -/
structure Assigned where
  store : Store
  mine : List Incident
  opened : List ℕ := []
  appended : List ℕ := []
  /-- The incident of each group's root. -/
  assignment : List (String × ℕ) := []

/-- How many incidents someone already handles. -/
def busy (incidents : List Incident) (now : Timestamp) (person : String) : ℕ :=
  incidents.countP fun i => i.mergedInto = none && i.handler = person &&
    match i.resolved with
    | none => true
    -- resolved later than now: still open at the time of the page
    | some resolution => now < resolution.time

/-- The incident `_open` inserts for a group. -/
def newIncident (ctx : Context) (group : Group) (runId : String) (now : Timestamp)
    (incidents : List Incident) : Incident :=
  let scored := scoreIncident ctx.graph group.root ctx.nodes ctx.tierOf ctx.policy
  let page := route group.root ctx.nodes ctx.registry group.events ctx.lineage
  let naive := naiveRoute group.root ctx.nodes ctx.registry
  { seq := (incidents.map Incident.seq).foldl max 0 + 1
    root := group.root
    dataset := datasetOf group.root ctx.nodes
    severity := scored.severity
    score := scored.score
    rootTier := scored.rootTier
    owner := page.owner
    team := page.team
    naiveOwner := naive.owner
    naiveTeam := naive.team
    routedVia := page.routedVia
    openedAt := now
    openedByRun := runId
    -- the latest incident of the same root, resolved or merged as it may be
    previousIncident := ((sortBy Incident.seq incidents).filter fun i => i.root = group.root).getLast?
      |>.map Incident.seq
    paged := some (paged page (busy incidents now) ctx.maxOpenPerPerson) }

/-- `if incident.resolved_by_run == run_id: _set_resolution(…, None, None)`. -/
def Store.reopen (s : Store) (seq : ℕ) (runId : String) : Except DeskError Store :=
  if s.incidents.any fun i => i.seq = seq && i.resolvedByRun = some runId then
    s.setResolution seq none
  else .ok s

/-- One group finds its incident, or opens one. -/
def assignGroup (ctx : Context) (runId : String) (now : Timestamp)
    (statuses : List (String × String)) (before : List Incident) (a : Assigned) (group : Group) :
    Except DeskError Assigned :=
  match joined ctx statuses before group with
  | some i => do
    -- healthy after one invocation of this run, failing after another
    let store ← a.store.reopen i.seq runId
    return { a with
      store := store
      appended := a.appended ++ [i.seq]
      assignment := (group.root, i.seq) :: a.assignment }
  | none =>
    match a.mine.find? fun i => i.root = group.root with
    -- opened by an earlier invocation of this run: neither opened nor appended
    | some i => .ok { a with assignment := (group.root, i.seq) :: a.assignment }
    | none => do
      let i := newIncident ctx group runId now a.store.incidents
      let store ← a.store.insertIncident i
      return { a with
        store := store
        mine := a.mine ++ [i]
        opened := a.opened ++ [i.seq]
        assignment := (group.root, i.seq) :: a.assignment }

/-- `assignment[root]`. -/
def assigned (assignment : List (String × ℕ)) (root : String) : Except DeskError ℕ :=
  match assignment.lookup root with
  | some seq => .ok seq
  | none => .error (.keyError root)

/-- An incident of the run that no group is assigned to is merged: a later invocation found a
failure above its root. -/
def mergeIncident (rootOf : List (String × String)) (assignment : List (String × ℕ)) (s : Store)
    (i : Incident) : Except DeskError Store := do
  if i.seq ∈ assignment.map Prod.snd then return s
  -- a root that no longer fails is looked up under its own name
  let into ← assigned assignment ((rootOf.lookup i.root).getD i.root)
  s.updateIncident i.seq fun i => { i with mergedInto := some into }

/-- `assignment[root_of[event.subject]]`. -/
def incidentOf (rootOf : List (String × String)) (assignment : List (String × ℕ))
    (event : CheckEvent) : Except DeskError ℕ :=
  match rootOf.lookup event.subject with
  | some root => assigned assignment root
  | none => .error (.keyError event.subject)

/-- Each failing check gets its incident, and each of these incidents a link to the run. -/
def attributeChecks (runId : String) (now : Timestamp) (facts : RunFacts)
    (assignment : List (String × ℕ)) (s : Store) : Except DeskError Store := do
  let own ← facts.events.mapM (incidentOf facts.rootOf assignment)
  let links := (sortedSet own).map fun seq => ⟨seq, runId, now, own.count seq⟩
  return { s with
    checkEvents := s.checkEvents.map fun row =>
      if row.event.runId = runId then
        { row with incident := (incidentOf facts.rootOf assignment row.event).toOption }
      else row
    -- the links of the run are written afresh at every regrouping
    runLinks := (s.runLinks.filter fun link => link.runId ≠ runId) ++ links }

/-- A failed node below several roots is shown under each of their incidents. -/
def share (runId : String) (groups : List Group) (assignment : List (String × ℕ)) (s : Store) :
    Except DeskError Store := do
  let rows ← groups.mapM fun group => do
    let seq ← assigned assignment group.root
    return group.shared.map fun node => (⟨seq, runId, node⟩ : SharedNode)
  return rows.flatten.foldl Store.insertShared
    { s with sharedNodes := s.sharedNodes.filter fun row => row.runId ≠ runId }

/-- An earlier incident the run did not fail on is resolved if its root is healthy, and reopened
if the run had resolved it and it no longer is. -/
def resolveIncident (ctx : Context) (runId : String) (now : Timestamp)
    (statuses : List (String × String)) (taken : List ℕ) (state : Store × List ℕ) (i : Incident) :
    Except DeskError (Store × List ℕ) := do
  -- a group joined it: the run still fails there
  if i.seq ∈ taken then return state
  if healthy ctx statuses i.root then
    -- this run has already resolved it, and said so
    if i.resolvedByRun = some runId then return state
    let store ← state.1.setResolution i.seq (some ⟨now, runId⟩)
    return (store, state.2 ++ [i.seq])
  -- this run resolved it and a later invocation found it unhealthy
  else if i.resolvedByRun = some runId then
    let store ← state.1.setResolution i.seq none
    return (store, state.2)
  else return state

/-! ## Raises -/

/-- The raises of one incident, one level a reason, until it is at the top. -/
def raiseLoop (incident : ℕ) (runId : String) (now : Timestamp) :
    List Reason → Severity → List Escalation → Except DeskError (Severity × List Escalation)
  | [], current, rows => .ok (current, rows)
  | reason :: rest, current, rows =>
    -- at the top there is no level to raise to: the other reasons are dropped
    if raised current = current then .ok (current, rows)
    -- the table holds a reason once for each incident
    else if rows.any fun row => row.incident = incident && row.reason = reason then
      .error (.uniqueViolation "incident_escalations_pkey")
    else raiseLoop incident runId now rest (raised current)
      (rows ++ [⟨incident, runId, now, current, raised current, reason⟩])

/-- Why an incident is to be raised now. -/
def reasonsFor (ctx : Context) (now : Timestamp) (escalations : List Escalation) (i : Incident) :
    List Reason :=
  let done := escalations.filter fun row => row.incident = i.seq
  -- a raise starts the clock of the next one
  let since := (done.map Escalation.time).foldl max i.openedAt
  let late :=
    if overdue i.severity since now ctx.policy then
      [Reason.overdue ((now - since) / Duration.hours 1) i.severity]
    else []
  let consumers := (scoreIncident ctx.graph i.root ctx.nodes ctx.tierOf ctx.policy).consumers
  let windows := (openWindows consumers now ctx.policy ctx.registry.teamOfDataset).map fun w =>
    Reason.window w.name now.date.year now.date.month
  -- only a window is checked against the reasons already used
  late ++ windows.filter fun reason => reason ∉ done.map Escalation.reason

/-- One incident of `_escalate`. -/
def escalateIncident (ctx : Context) (runId : String) (now : Timestamp) (s : Store) (i : Incident) :
    Except DeskError Store := do
  let (severity, escalations) ←
    raiseLoop i.seq runId now (reasonsFor ctx now s.escalations i) i.severity s.escalations
  return { s with
    escalations := escalations
    incidents := s.incidents.map fun j => if j.seq = i.seq then { j with severity := severity } else j }

/-- `_escalate`: raise every open incident that stayed too long, or that a window now covers. -/
def escalate (ctx : Context) (runId : String) (now : Timestamp) (s : Store) : Except DeskError Store :=
  (s.bySeq.filter fun i => i.isOpen && i.openedAt ≤ now).foldlM (escalateIncident ctx runId now) s

/-! ## Regrouping -/

/-- What a regrouping reports. -/
structure Regrouped where
  opened : List ℕ
  appended : List ℕ
  resolved : List ℕ
  failing : ℕ
deriving DecidableEq, Repr

/-- `_checks`. -/
def checksText (n : ℕ) : String := counted n "check"

def linkedChecks (s : Store) (runId : String) (incident : ℕ) : ℕ :=
  ((s.runLinks.find? fun link => link.incident = incident && link.runId = runId).map
    RunLink.checks).getD 0

def rootOfIncident (s : Store) (incident : ℕ) : String :=
  ((s.incidents.find? fun i => i.seq = incident).map Incident.root).getD ""

/-- The messages at the end of `_regroup`: pages, updates, resolutions, raises. -/
def queueMessages (runId : String) (now : Timestamp) (regrouped : Regrouped)
    (raises : List Escalation) (s : Store) : Store :=
  let s := regrouped.opened.foldl (fun s i => s.queue i .page runId
    (checksText (linkedChecks s runId i) ++ " failing, rooted at " ++ rootOfIncident s i) now) s
  let s := regrouped.appended.foldl (fun s i => s.queue i .update runId
    ("still failing: " ++ checksText (linkedChecks s runId i) ++ " in " ++ runId) now) s
  let s := regrouped.resolved.foldl (fun s i => s.queue i .resolved runId
    ("resolved: " ++ rootOfIncident s i ++ " healthy in " ++ runId) now) s
  raises.foldl (fun s row => s.queue row.incident .escalation runId
    ("raised to " ++ row.toSeverity.text ++ ": " ++ row.reason.text) now) s

/-- The statements of `_regroup` about incidents, up to the raises. -/
def settle (ctx : Context) (runId : String) (now : Timestamp) (facts : RunFacts) (s : Store) :
    Except DeskError (Store × Regrouped) := do
  let before := s.before runId now
  let a ← facts.groups.foldlM (assignGroup ctx runId now facts.statuses before)
    { store := s, mine := s.mine runId }
  let store ← a.mine.foldlM (mergeIncident facts.rootOf a.assignment) a.store
  let store ← attributeChecks runId now facts a.assignment store
  let store ← share runId facts.groups a.assignment store
  -- the incidents of earlier runs, as they were before this regrouping
  let (store, resolved) ← before.foldlM
    (resolveIncident ctx runId now facts.statuses (a.assignment.map Prod.snd)) (store, [])
  return (store, ⟨a.opened, a.appended, resolved, facts.events.length⟩)

/-- `_regroup`. -/
def regroup (ctx : Context) (runId : String) (now : Timestamp) (s : Store) :
    Except DeskError (Store × Regrouped) := do
  let facts ← factsOf ctx s runId
  let (settled, regrouped) ← settle ctx runId now facts s
  let raisedStore ← escalate ctx runId now settled
  -- the rows `_escalate` inserted are the ones behind those it found
  let raises := raisedStore.escalations.drop settled.escalations.length
  return (queueMessages runId now regrouped raises raisedStore, regrouped)

/-! ## An ingest -/

/-- `_record`: an invocation, every node it reported on, and every failing check. -/
def record (ctx : Context) (runId : String) (detected : Option Timestamp) (s : Store)
    (artifact : Artifact) : Except DeskError Store :=
  let time := detected.getD artifact.generatedAt
  let outcome := parse artifact ctx.nodes runId time
  if artifact.invocationId ∈ s.invocations.map InvocationRow.invocationId then
    .error (.uniqueViolation "incident_invocations_pkey")
  else
    .ok { s with
      invocations := s.invocations ++
        [⟨artifact.invocationId, runId, artifact.kind, time, outcome.checksRun⟩]
      results := s.results ++ (resultsOf artifact ctx.nodes).map fun row =>
        ⟨artifact.invocationId, runId, row.1, row.2.1, row.2.2⟩
      checkEvents := outcome.events.foldl (fun rows event =>
        -- `ON CONFLICT (run_id, check_id) DO NOTHING`: the first report is kept
        if rows.any fun row => row.event.runId = runId && row.event.checkId = event.checkId then rows
        else rows ++ [⟨artifact.invocationId, event, none⟩]) s.checkEvents }

/-- One call of the desk: a target folder's artifacts, as part of a run. -/
structure IngestCall where
  ctx : Context
  artifacts : List Artifact
  runId : String
  /-- When the run detected its failures; none takes the files' own times. -/
  detected : Option Timestamp := none

namespace IngestCall

variable (call : IngestCall) (s : Store)

/-- The artifacts the store has not seen. -/
def fresh : List Artifact :=
  call.artifacts.filter fun a => a.invocationId ∉ s.invocations.map InvocationRow.invocationId

/-- When the run's failures count as detected. -/
def now : Timestamp :=
  call.detected.getD (((call.fresh s).map Artifact.generatedAt).max?.getD 0)

/-- `ingest_target`, up to the delivery of what it queued. -/
def ingest : Except DeskError (Store × Regrouped) :=
  if call.fresh s = [] then .ok (s, ⟨[], [], [], 0⟩)
  else do
    let recorded ← (call.fresh s).foldlM (record call.ctx call.runId call.detected) s
    regroup call.ctx call.runId (call.now s) recorded

/-- The store after the call: one transaction, rolled back if it raises. -/
def after : Store :=
  match call.ingest s with
  | .ok (s', _) => s'
  | .error _ => s

end IngestCall

end PlatformOps.Incidents
