import PlatformOps.Incidents.Effects
import PlatformOps.Incidents.Recovery
import PlatformOps.Library.Floats
import PlatformOps.Simulation.CompanyDays

/-!
# The Company's Own Desk

Who watches the company's production: every dbt invocation of a night or a rerun is
ingested, and for each incident it opens the desk plays the owner. The owner answers and
fixes on the modelled schedule, which stretches with how many incidents they already have
open; the fix covers every source at or above the incident's root, and says what to rerun.

- `respond`: when an owner acknowledges, and when the fix lands.
- `CompanyDesk.ingest`: one invocation, and a response and a fix for each incident it opens.
- `Watch.replay`: the desk after everything the company has done so far.
-/

namespace PlatformOps.Simulation

open Listing Metadata Incidents Reconcile Decimals Floats

/-! ## The response -/

/-- `LifecycleSettings`, with the simulation's seed. -/
structure LifecycleSettings where
  ackMinutes : Severity → ℕ
  resolveHours : Severity → ℕ
  loadFactor : ℚ
  seed : ℕ
  ackMinutes_pos : ∀ severity, 0 < ackMinutes severity
  resolveHours_pos : ∀ severity, 0 < resolveHours severity
  loadFactor_nonneg : 0 ≤ loadFactor

/-- `Response`. -/
structure Response where
  acknowledgedAt : Timestamp
  fixedAt : Timestamp
deriving DecidableEq, Repr

/-- A row of `incident_responses`. -/
structure ResponseRow extends Response where
  incident : ℕ
deriving DecidableEq, Repr

/-- `stable_hash`: 64 bits of a digest of the seed, the incident and the step. -/
abbrev StableHash := ℕ → String → String → ℕ

/-- `_spread`: a factor between a half and one and a half. -/
def spread (stableHash : StableHash) (seed : ℕ) (incidentId step : String) : ℚ :=
  toFloat (1 / 2 + toFloat ((stableHash seed incidentId step : ℚ) / 2 ^ 64))

/-- `respond`. -/
def respond (stableHash : StableHash) (incidentId : String) (severity : Severity)
    (openedAt : Timestamp) (ownerOpenIncidents : ℕ) (settings : LifecycleSettings) : Response :=
  let load := toFloat (1 + toFloat (settings.loadFactor * ownerOpenIncidents))
  let ackMinutes := toFloat (toFloat (settings.ackMinutes severity * load) *
    spread stableHash settings.seed incidentId "ack")
  let fixHours := toFloat (toFloat (settings.resolveHours severity * load) *
    spread stableHash settings.seed incidentId "resolve")
  let acknowledgedAt := openedAt + Duration.seconds (halfEven (toFloat (ackMinutes * 60)))
  ⟨acknowledgedAt, acknowledgedAt + Duration.seconds (halfEven (toFloat (fixHours * 3600)))⟩

/-- **Nobody answers before they are paged**, and nothing is fixed before it is answered. -/
theorem respond_le (stableHash : StableHash) (incidentId : String) (severity : Severity)
    (openedAt : Timestamp) (ownerOpenIncidents : ℕ) (settings : LifecycleSettings) :
    let response := respond stableHash incidentId severity openedAt ownerOpenIncidents settings
    openedAt ≤ response.acknowledgedAt ∧ response.acknowledgedAt ≤ response.fixedAt := by
  have hspread : ∀ step, 0 ≤ spread stableHash settings.seed incidentId step := by
    intro step
    apply toFloat_nonneg
    have := toFloat_nonneg (x := (stableHash settings.seed incidentId step : ℚ) / 2 ^ 64)
      (by positivity)
    linarith
  have hload : 0 ≤ toFloat (1 + toFloat (settings.loadFactor * ownerOpenIncidents)) := by
    apply toFloat_nonneg
    have := toFloat_nonneg (mul_nonneg settings.loadFactor_nonneg
      (Nat.cast_nonneg (α := ℚ) ownerOpenIncidents))
    linarith
  -- a base time, stretched by the load and the spread, in seconds
  have hwait : ∀ (base : ℕ) (unit : ℚ) (step : String), 0 ≤ unit →
      0 ≤ Duration.seconds (halfEven (toFloat (toFloat (toFloat (base * toFloat (1 +
        toFloat (settings.loadFactor * ownerOpenIncidents))) *
          spread stableHash settings.seed incidentId step) * unit))) := by
    intro base unit step hunit
    apply mul_nonneg _ (by decide)
    apply halfEven_nonneg
    apply toFloat_nonneg
    apply mul_nonneg _ hunit
    apply toFloat_nonneg
    apply mul_nonneg _ (hspread step)
    apply toFloat_nonneg
    exact mul_nonneg (Nat.cast_nonneg base) hload
  exact ⟨le_add_of_nonneg_right (hwait _ 60 "ack" (by norm_num)),
    le_add_of_nonneg_right (hwait _ 3600 "resolve" (by norm_num))⟩

/-! ## What to rerun -/

/-- What stops the desk: an ingest that raises, an incident without a row, a root that is
not in the lineage, and an id that does not have four parts. -/
inductive WatchError
  | desk (error : DeskError)
  | assertionError (incident : ℕ)
  | networkXError (root : String)
  | valueError (root : String)
deriving DecidableEq, Repr

/-- `RERUN_EXCLUDE`: a rerun must not add a version to a snapshot. -/
def rerunExclude : List String := ["--exclude", "resource_type:snapshot"]

/-- `_, _, source, table = root.split(".", 3)`, as a selector. -/
def sourceSelector (root : String) : Except WatchError String :=
  match root.toList.splitOn '.' with
  | _ :: _ :: source :: table :: rest => .ok ("source:" ++ String.ofList source ++ "." ++
      String.intercalate "." ((table :: rest).map String.ofList))
  | _ => .error (.valueError root)

/-- `rerun_commands`: what checks a root again, and rebuilds what it feeds. -/
def rerunCommands (nodes : Manifest) (root : String) : Except WatchError (List (List String)) :=
  let build (selector : String) : List String := ["build", "--select", selector] ++ rerunExclude
  match nodes.get root with
  | none => .ok []
  | some node =>
    match node.resourceType with
    | .source => do
      let selector ← sourceSelector root
      return [["source", "freshness", "--select", selector], build (selector ++ "+")]
    | .test =>
      match nodes.get ((truthy node.attachedNode).getD "") with
      -- it spans several models
      | none => .ok [build node.name]
      | some attached => .ok [build (attached.name ++ "+")]
    | _ => .ok [build (node.name ++ "+")]

/-- A root that is a node is rerun. -/
theorem rerunCommands_ne_nil {nodes : Manifest} {root : String} {node : Node}
    (hnode : nodes.get root = some node) {commands : List (List String)}
    (hok : rerunCommands nodes root = .ok commands) : commands ≠ [] := by
  simp only [rerunCommands, hnode] at hok
  split at hok
  · obtain ⟨selector, -, h⟩ := Fallible.bind_eq_ok.mp hok
    rw [← Fallible.pure_eq_ok.mp h]
    exact List.cons_ne_nil _ _
  · split at hok <;>
    · rw [← Except.ok.inj hok]
      exact List.cons_ne_nil _ _
  · rw [← Except.ok.inj hok]
    exact List.cons_ne_nil _ _

/-! ## The desk -/

/-- `CompanyDesk`: the store it writes, and the fixes not asked for yet. -/
structure CompanyDesk where
  store : Store := {}
  responses : List ResponseRow := []
  fixes : List Fix := []
deriving DecidableEq, Repr

/-- What the desk is given: the project, parsed once, the owners' pace, and the result
files that an invocation leaves. -/
structure Watch where
  ctx : Context
  lifecycle : LifecycleSettings
  stableHash : StableHash
  /-- After all that was done, and as many invocations of its run, this command leaves: -/
  results : Log → ℕ → List String → List Artifact

/-- `f"night-{at:%Y-%m-%d}"`. -/
def nightRun (time : Timestamp) : String := "night-" ++ String.ofList (dateText time.date)

/-- `f"rerun-{fix.incident_id}"`. -/
def rerunRun (fix : Fix) : String := "rerun-" ++ fix.incidentId

/-- An invocation that is handed to the desk. -/
structure Invocation where
  runId : String
  time : Timestamp
  command : List String
deriving DecidableEq, Repr

/-- The invocations of `production_night` and of `rerun`. -/
def Op.invocations : Op → List Invocation
  | .production time => nightlyCommands.map fun command => ⟨nightRun time, time, command⟩
  | .rerun fix => fix.commands.map fun command => ⟨rerunRun fix, fix.time, command⟩
  | _ => []

namespace Watch

variable (w : Watch)

/-- The sources that an incident's root is built from, itself included. -/
def sourcesOf (root : String) : List String :=
  let reach := root :: upstream w.ctx.graph root
  sortBy id ((w.ctx.nodes.nodes.filter fun n =>
    n.uniqueId ∈ reach ∧ n.resourceType = .source).map Node.name)

/-- How many other incidents a person had open when one was opened. -/
def busyWith (incidents : List Incident) (i : Incident) : ℕ :=
  incidents.countP fun j => j.handler = i.handler && j.seq ≠ i.seq && j.mergedInto = none &&
    j.openedAt ≤ i.openedAt &&
    match j.resolved with
    | none => true
    | some resolution => i.openedAt < resolution.time

/-- `_respond`. -/
def respondTo (d : CompanyDesk) (incident : ℕ) : Except WatchError CompanyDesk :=
  match d.store.incidents.find? fun i => i.seq = incident with
  | none => .error (.assertionError incident)
  | some i => do
    let response := respond w.stableHash i.incidentId i.severity i.openedAt
      (busyWith d.store.incidents i) w.lifecycle
    -- `ON CONFLICT DO NOTHING`
    let responses := if incident ∈ d.responses.map ResponseRow.incident then d.responses
      else d.responses ++ [⟨response, incident⟩]
    -- an unknown root has no ancestors to ask for
    Fallible.raiseIf (i.root ∉ w.ctx.graph.nodes) (.networkXError i.root)
    let commands ← rerunCommands w.ctx.nodes i.root
    return { d with
      responses := responses
      fixes := d.fixes ++ [⟨i.incidentId, w.sourcesOf i.root, response.fixedAt, commands⟩] }

/-- `CompanyDesk.ingest`. -/
def ingest (d : CompanyDesk) (call : IngestCall) : Except WatchError CompanyDesk :=
  match call.ingest d.store with
  | .error error => .error (.desk error)
  | .ok (store, result) => result.opened.foldlM w.respondTo { d with store := store }

/-- The calls of the desk that an operation makes. -/
def callsOf (log : Log) (op : Op) : List IngestCall :=
  op.invocations.zipIdx.map fun (invocation, n) =>
    ⟨w.ctx, w.results log n invocation.command, invocation.runId, some invocation.time⟩

/-- What an operation of the company does at the desk. -/
def handle (log : Log) (d : CompanyDesk) : Op → Except WatchError CompanyDesk
  -- `fixes()` hands them out once
  | .fixes _ => .ok { d with fixes := [] }
  | op => (w.callsOf log op).foldlM w.ingest d

/-- The desk, from the state it is in after `before`. -/
def replayFrom (before : Log) (d : CompanyDesk) : Log → Except WatchError CompanyDesk
  | [] => .ok d
  | entry :: rest => do
    let d ← w.handle before d entry.2
    replayFrom (before ++ [entry]) d rest

/-- The desk after all that was done. -/
def replay (log : Log) : Except WatchError CompanyDesk := w.replayFrom [] {} log

/-- All calls of the desk, in order. -/
def callsFrom (before : Log) : Log → List IngestCall
  | [] => []
  | entry :: rest => w.callsOf before entry.2 ++ callsFrom (before ++ [entry]) rest

def calls (log : Log) : List IngestCall := w.callsFrom [] log

/-- `CompanyDesk.fixes`; a desk that has raised has ended the run. -/
def fixes (log : Log) : List Fix :=
  match w.replay log with
  | .ok d => d.fixes
  | .error _ => []

end Watch

/-- The company, watched by its own desk. -/
def Company.watchedBy (c : Company) (w : Watch) : Company :=
  { c with surroundings := { c.surroundings with desk := some w.fixes } }

end PlatformOps.Simulation
