import PlatformOps.Common.Clock
import PlatformOps.Metadata.Lineage

/-!
# From dbt's Result Files to Check Events

dbt reports three kinds of failure in two files: a model that errors and a test
that fails or errors (`run_results.json`), and a source that is too stale
(`sources.json`). They become `CheckEvent`s, one per failing check, each tied to
the node it is about. A freshness `warn` and a skipped model are no failure.
-/

namespace PlatformOps.Incidents

open Metadata Listing

/-! ## Check events -/

inductive CheckType
  | model | test | freshness
deriving DecidableEq, Repr

def CheckType.text : CheckType → String
  | .model => "model"
  | .test => "test"
  | .freshness => "freshness"

theorem CheckType.text_injective : Function.Injective CheckType.text := by
  intro a b h
  cases a <;> cases b <;> first | rfl | exact absurd h (by decide)

/-- One failing check in one run. -/
structure CheckEvent where
  runId : String
  checkId : String
  checkType : CheckType
  /-- The node the failure is about: the model that errored, the stale source, the
  model a test is attached to, or the test itself when it spans several models. -/
  subject : String
  status : String
  message : String
  detectedAt : Timestamp
deriving DecidableEq, Repr

/-- The order of `CheckEvent`s (`dataclass(order=True)`): field by field. -/
def CheckEvent.sortKey (e : CheckEvent) :
    String ×ₗ String ×ₗ String ×ₗ String ×ₗ String ×ₗ String ×ₗ Timestamp :=
  toLex (e.runId, toLex (e.checkId, toLex (e.checkType.text, toLex (e.subject,
    toLex (e.status, toLex (e.message, e.detectedAt))))))

theorem CheckEvent.sortKey_injective : Function.Injective CheckEvent.sortKey := by
  rintro ⟨r, c, t, s, st, m, d⟩ ⟨r', c', t', s', st', m', d'⟩ h
  simp only [CheckEvent.sortKey, EmbeddingLike.apply_eq_iff_eq, Prod.mk.injEq] at h
  obtain ⟨rfl, rfl, ht, rfl, rfl, rfl, rfl⟩ := h
  rw [CheckType.text_injective ht]

/-- `sorted(events)`. -/
def sortEvents (events : List CheckEvent) : List CheckEvent :=
  sortBy CheckEvent.sortKey events

theorem perm_sortEvents (events : List CheckEvent) : (sortEvents events).Perm events :=
  perm_sortBy _ events

theorem sortEvents_eq_of_perm {events events' : List CheckEvent} (h : events.Perm events') :
    sortEvents events = sortEvents events' :=
  sortBy_eq_of_perm h fun _ _ _ _ hkey => CheckEvent.sortKey_injective hkey

/-! ## Result files -/

/-- One entry of a result file: what the desk reads of it. -/
structure ResultEntry where
  uniqueId : String
  status : String
  /-- dbt's message, empty when there is none. -/
  message : String := ""
  /-- For a freshness result: its newest row's time and its age, as the desk words them. -/
  freshness : String := ""
deriving DecidableEq, Repr

inductive ArtifactKind
  | runResults | sources
deriving DecidableEq, Repr

/-- One dbt invocation's result file, as found in a target folder. -/
structure Artifact where
  invocationId : String
  kind : ArtifactKind
  generatedAt : Timestamp
  results : List ResultEntry
deriving DecidableEq, Repr

/-- Everything one invocation said: failures, and nodes it skipped. -/
structure RunOutcome where
  events : List CheckEvent
  skipped : List String
  checksRun : ℕ
deriving DecidableEq, Repr

def failedTestStatuses : List String := ["fail", "error"]
def failedFreshnessStatuses : List String := ["error", "runtime error"]
def messageLimit : ℕ := 300

/-- `_message`: runs of white space become one space, cut to the limit. -/
def messageOf (raw : String) : String :=
  let words := (raw.toList.splitOnP isSpace).filter (· ≠ [])
  String.ofList ((List.intercalate [' '] words).take messageLimit)

/-- `test_subject`: the node a failing test is about. A test with one parent is about
the model it is attached to, or the source it reads; one with several is about itself. -/
def testSubject (test : Node) : String :=
  let parents := test.dependsOn.filter fun p => !startsWith p "macro."
  match truthy test.attachedNode with
  | some attached =>
    -- a relationship test reads two models and stands for itself
    if parents.length ≤ 1 then attached else test.uniqueId
  | none =>
    match parents with
    -- dbt attaches no node to the test of a source
    | [parent] => if startsWith parent "source." then parent else test.uniqueId
    | _ => test.uniqueId

/-- The failing check one entry of `run_results.json` reports, if it is one. -/
def failureOf (nodes : Manifest) (runId : String) (detectedAt : Timestamp) (entry : ResultEntry) :
    Option CheckEvent :=
  (nodes.get entry.uniqueId).bind fun node =>
    -- a skipped node did not fail: something above it did
    if entry.status = "skipped" then none
    else if node.resourceType = .model ∧ entry.status = "error" then
      some ⟨runId, entry.uniqueId, .model, entry.uniqueId, entry.status,
        messageOf entry.message, detectedAt⟩
    else if node.resourceType = .test ∧ entry.status ∈ failedTestStatuses then
      some ⟨runId, entry.uniqueId, .test, testSubject node, entry.status,
        messageOf entry.message, detectedAt⟩
    else none

/-- `parse_run_results`: failures and skips from one `run_results.json`. -/
def parseRunResults (results : List ResultEntry) (nodes : Manifest) (runId : String)
    (detectedAt : Timestamp) : RunOutcome where
  events := sortEvents (results.filterMap (failureOf nodes runId detectedAt))
  skipped :=
    ((results.filter fun r => (nodes.get r.uniqueId).isSome && r.status = "skipped").map
      ResultEntry.uniqueId).insertionSort (· ≤ ·)
  checksRun := results.length

/-- `parse_freshness`: failures from one `sources.json`. Only an error counts, `warn` does not. -/
def parseFreshness (results : List ResultEntry) (runId : String) (detectedAt : Timestamp) :
    RunOutcome where
  events := sortEvents <|
    (results.filter fun r => r.status ∈ failedFreshnessStatuses).map fun r =>
      ⟨runId, "freshness:" ++ r.uniqueId, .freshness, r.uniqueId, r.status,
        messageOf r.freshness, detectedAt⟩
  skipped := []
  checksRun := results.length

/-- `parse`. -/
def parse (artifact : Artifact) (nodes : Manifest) (runId : String) (detectedAt : Timestamp) :
    RunOutcome :=
  match artifact.kind with
  | .sources => parseFreshness artifact.results runId detectedAt
  | .runResults => parseRunResults artifact.results nodes runId detectedAt

/-- `results`: every node an invocation reported on, as (unique id, resource type, status). -/
def resultsOf (artifact : Artifact) (nodes : Manifest) : List (String × String × String) :=
  let rows := artifact.results.map fun r =>
    let kind := match nodes.get r.uniqueId with
      | some node => node.resourceType.text
      | none => String.ofList (r.uniqueId.toList.takeWhile (· ≠ '.'))
    (r.uniqueId, kind, r.status)
  sortBy (fun row => toLex (row.1, toLex (row.2.1, row.2.2))) rows

/-! ## What an event says depends on its check alone -/

/-- The subject and type of a run's failing check, from its id. -/
theorem failureOf_eq_some {nodes : Manifest} {runId : String} {detected : Timestamp}
    {entry : ResultEntry} {e : CheckEvent} (h : failureOf nodes runId detected entry = some e) :
    e.runId = runId ∧ e.checkId = entry.uniqueId ∧ e.status = entry.status ∧
      e.detectedAt = detected ∧ ∃ node, nodes.get entry.uniqueId = some node ∧
        (node.resourceType = .model ∧ e.checkType = .model ∧ e.subject = entry.uniqueId ∨
          node.resourceType = .test ∧ e.checkType = .test ∧ e.subject = testSubject node) := by
  rw [failureOf, Option.bind_eq_some_iff] at h
  obtain ⟨node, hnode, h⟩ := h
  split at h
  · cases h
  · split at h
    · rename_i hmodel
      cases h
      exact ⟨rfl, rfl, rfl, rfl, node, hnode, Or.inl ⟨hmodel.1, rfl, rfl⟩⟩
    · split at h
      · rename_i htest
        cases h
        exact ⟨rfl, rfl, rfl, rfl, node, hnode, Or.inr ⟨htest.1, rfl, rfl⟩⟩
      · cases h

/-- The node a check is about: a test's subject, a model itself, a source by the name of its
freshness check. -/
def subjectOfCheck (nodes : Manifest) (checkId : String) : String :=
  match nodes.get checkId with
  | some node => if node.resourceType = .test then testSubject node else checkId
  | none => String.ofList (checkId.toList.drop "freshness:".length)

/-- No node has the id of a freshness check. -/
private theorem get_freshness (nodes : Manifest) (uniqueId : String) :
    nodes.get ("freshness:" ++ uniqueId) = none := by
  cases hget : nodes.get ("freshness:" ++ uniqueId) with
  | none => rfl
  | some node =>
    obtain ⟨hmem, hid⟩ := Manifest.get_eq_some hget
    have hkind := nodes.kinds node hmem
    rw [hid, startsWith, String.toList_append] at hkind
    cases hres : node.resourceType <;> rw [hres] at hkind <;>
      simp [ResourceType.text, String.toList_append, List.isPrefixOf] at hkind

/-- **The subject of a failing check is that of its id**, whichever invocation reports it. -/
theorem subject_of_mem_parse {artifact : Artifact} {nodes : Manifest} {runId : String}
    {detectedAt : Timestamp} {e : CheckEvent}
    (h : e ∈ (parse artifact nodes runId detectedAt).events) :
    e.subject = subjectOfCheck nodes e.checkId := by
  rw [parse] at h
  split at h
  · obtain ⟨r, -, rfl⟩ := List.mem_map.mp ((perm_sortEvents _).mem_iff.mp h)
    have hlength : "freshness:".length = 10 := rfl
    simp [subjectOfCheck, get_freshness, String.toList_append, hlength]
  · obtain ⟨r, -, hr⟩ := List.mem_filterMap.mp ((perm_sortEvents _).mem_iff.mp h)
    obtain ⟨-, hid, -, -, node, hnode, hkind⟩ := failureOf_eq_some hr
    rw [subjectOfCheck, hid, hnode]
    rcases hkind with ⟨hmodel, -, hsubject⟩ | ⟨htest, -, hsubject⟩
    · simp [hmodel, hsubject]
    · simp [htest, hsubject]

/-- The type of a check: that of its node, or that of a source's freshness. -/
def typeOfCheck (nodes : Manifest) (checkId : String) : CheckType :=
  match nodes.get checkId with
  | some node => if node.resourceType = .test then .test else .model
  | none => .freshness

/-- **The type of a failing check is that of its id**, too. -/
theorem type_of_mem_parse {artifact : Artifact} {nodes : Manifest} {runId : String}
    {detectedAt : Timestamp} {e : CheckEvent}
    (h : e ∈ (parse artifact nodes runId detectedAt).events) :
    e.checkType = typeOfCheck nodes e.checkId := by
  rw [parse] at h
  split at h
  · obtain ⟨r, -, rfl⟩ := List.mem_map.mp ((perm_sortEvents _).mem_iff.mp h)
    simp [typeOfCheck, get_freshness]
  · obtain ⟨r, -, hr⟩ := List.mem_filterMap.mp ((perm_sortEvents _).mem_iff.mp h)
    obtain ⟨-, hid, -, -, node, hnode, hkind⟩ := failureOf_eq_some hr
    rw [typeOfCheck, hid, hnode]
    rcases hkind with ⟨hmodel, htype, -⟩ | ⟨htest, htype, -⟩
    · simp [hmodel, htype]
    · simp [htest, htype]

end PlatformOps.Incidents
