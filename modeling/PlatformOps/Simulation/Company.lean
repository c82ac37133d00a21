import PlatformOps.Library.Fallible
import PlatformOps.Reconcile.Parallel
import PlatformOps.Simulation.Faults

/-!
# The Company's Run

`run_company`: the days of the window, one after the other. A day's rows reach the
legacy database; yesterday's faults and the fixes that have landed since happen in the
order of their times; the copy reads; the night is built, reconciled, or run as
production. What a day does to the databases, to dbt and to whoever watches is its
entries in the log.

What the servers and the watchers answer is given: the rows a one-off fault hits, the
cells the delivered job gets wrong, and the fixes the incident desk schedules. Each may
depend on everything that was done before.
-/

namespace PlatformOps.Simulation

open Listing

/-- `Fix`: an owner's fix for an incident, and the raw tables it covers. -/
structure Fix where
  incidentId : String
  tables : List String
  /-- `at`: when it lands. -/
  time : Timestamp
  /-- The dbt invocations to run then. -/
  commands : List (List String)
deriving DecidableEq, Repr

/-- `Night`: what the reconciliation is told of a night of the parallel run. -/
structure Company.Night extends Reconcile.Night where
  delivered : Bool
  backfilled : Bool
  planted : String
  repaired : String

/-- `Day`: a day after its build and workload. -/
structure Day where
  index : ℕ
  runAt : Timestamp
  lastOfMonth : Bool
  last : Bool

/-- What the run does. -/
inductive Op
  /-- `start_over`, before its first load. -/
  | startOver
  /-- `legacy.arrive`: new rows stamped in `(after, upTo]`, and the day's changes in place. -/
  | arrive (after upTo changesAt : Timestamp)
  /-- `migration.repair`. -/
  | repair (planted : Planted) (loadedAt : Timestamp)
  /-- `faults.plant`, with its row of the ground truth. -/
  | plantFault (fault : Fault) (time : Timestamp)
  /-- `faults.repaired`. -/
  | repaired (fault : Fault) (time : Timestamp)
  /-- A call of the ingestion. -/
  | ingest (call : Call)
  /-- `rerun`, each invocation handed to the desk. -/
  | rerun (fix : Fix)
  /-- `nightly.freeze`. -/
  | freeze (time : Timestamp)
  /-- `migration.plant`. -/
  | plantOneOff (planted : Planted)
  /-- `optimize_raw`. -/
  | optimize (time : Timestamp)
  /-- `legacy.arrive_new`. -/
  | arriveNew (after upTo : Timestamp)
  /-- The project parsed once for the production weeks. -/
  | parse
  /-- `production_night`, each invocation handed to the desk. -/
  | production (time : Timestamp)
  /-- What `desk.fixes()` returns. -/
  | fixes (found : List Fix)
  | build (fullRefresh : Bool) (time : Timestamp)
  /-- The dashboards and people of a day, and who opened what. -/
  | workload (day : ℕ)
  | night (night : Company.Night)
  | endOfDay (day : Day)

/-- What was done, each with the index of the day. -/
abbrev Log := List (ℕ × Op)

/-- What was done on one day. -/
def dated (day : ℕ) (ops : List Op) : Log := ops.map fun op => (day, op)

/-- What the servers and the watchers answer, after all that was done so far. -/
structure Surroundings where
  /-- The keys of the rows a one-off fault picks. -/
  keys : Log → OneOffFault → List ℤ
  /-- `delivered_truth`. -/
  deliveredTruth : Log → Timestamp → List Reconcile.TruthCell
  /-- `desk.fixes()`, if somebody watches production. -/
  desk : Option (Log → List Fix)
  /-- Is there a `nightly`? -/
  reconciles : Bool

/-- A run: the settings, its length and its surroundings. -/
structure Company where
  settings : CompanySettings
  totalDays : ℕ
  surroundings : Surroundings

/-- `CompanySummary`, without the counts that the servers return. -/
structure CompanySummary where
  days : ℕ := 0
  builds : List Timestamp := []
  productionNights : ℕ := 0
  reruns : ℕ := 0
  faults : List String := []
deriving DecidableEq, Repr

/-- The variables of `run_company`. -/
structure RunState where
  summary : CompanySummary
  planted : Option Planted
  /-- `ingestion.delivered`. -/
  delivered : Bool
  loadedUntil : Timestamp
  /-- The fault of every faulted table. -/
  active : List (Table × Fault)
  pending : List Fix
  /-- Is `manifest` set? -/
  parsed : Bool
  log : Log

/-- `RuntimeError`: raw.table is already faulted. -/
inductive CompanyError
  | alreadyFaulted (faultId : String) (table : Table)
deriving DecidableEq, Repr

/-! ## Watermarks -/

/-- The rows of `ingestion_loads` that a call records. -/
def Call.recorded : Call → List (Table × Timestamp)
  | .load upTo _ skip _ => (tables.filter (· ∉ skip)).map fun t => (t, upTo)
  | .backfill upTo => tables.map fun t => (t, upTo)
  | .resync table upTo => [(table, upTo)]

def Op.recorded : Op → List (Table × Timestamp)
  | .ingest call => call.recorded
  | _ => []

/-- `ingestion.watermarks()`. -/
def watermarks (log : Log) : List (String × Timestamp) :=
  let loads := log.flatMap fun entry => entry.2.recorded
  tables.filterMap fun t =>
    (((loads.filter fun l => l.1 = t).map Prod.snd).max?).map fun upTo => (t.text, upTo)

/-! ## Yesterday's faults, and the fixes that landed -/

/-- What happens between two runs. -/
inductive Happening
  | fault (fault : Fault) (time : Timestamp)
  | fix (fix : Fix)
deriving DecidableEq, Repr

/-- `h[:3]`: at one time, fixes come before faults. -/
def Happening.key : Happening → Timestamp ×ₗ ℕ ×ₗ String
  | .fault f time => toLex (time, toLex (1, f.faultId))
  | .fix f => toLex (f.time, toLex (0, f.incidentId))

namespace RunState

variable (s : RunState)

def emit (day : ℕ) (ops : List Op) : RunState :=
  { s with log := s.log ++ dated day ops }

/-- One round of `for table in item.tables`. -/
def fixTable (day : ℕ) (lastLoad time : Timestamp) (name : String) : RunState :=
  match s.active.find? fun entry => entry.1.text = name with
  | none => s
  | some (table, fault) =>
    { s with active := s.active.filter fun entry => entry.1 ≠ table }.emit day
      [.ingest (.resync table lastLoad), .repaired fault time]

/-- What a fix does to the faulted tables it covers. -/
def fixTables (day : ℕ) (lastLoad : Timestamp) (fix : Fix) : RunState :=
  fix.tables.foldl (fun s name => s.fixTable day lastLoad fix.time name) s

end RunState

namespace Company

variable (c : Company)

def timeline : Timeline := Timeline.of c.settings c.totalDays

/-- Midnight of a day of the window. -/
def day (index : ℕ) : Timestamp := c.settings.start + Duration.hours (24 * index)

def runAt (index : ℕ) : Timestamp := c.day index + Duration.hours c.settings.dailyRunHour

/-- How long the application keeps writing after the copy. -/
def late : Duration := Duration.minutes c.settings.writesAfterIngestMinutes

/-- The faults of the day before. -/
def faultsBefore (index : ℕ) : List Fault :=
  if index = 0 then [] else (c.timeline.incidents.lookup (index - 1)).getD []

/-- The faults of the day before, and the fixes that landed up to the run, in time order. -/
def happened (index : ℕ) (pending : List Fix) : List Happening :=
  let time := c.day index - Duration.hours 24 + Duration.hours c.settings.faultHour
  sortBy Happening.key
    ((c.faultsBefore index).map (Happening.fault · time) ++
      (pending.filter fun fix => fix.time ≤ c.runAt index).map Happening.fix)

/-- One round of the loop over what happened. -/
def happen (index : ℕ) (lastLoad : Timestamp) (s : RunState) :
    Happening → Except CompanyError RunState
  | .fault fault time =>
    if fault.table ∈ s.active.map Prod.fst then .error (.alreadyFaulted fault.faultId fault.table)
    else .ok { s with
      active := s.active ++ [(fault.table, fault)]
      summary := { s.summary with faults := s.summary.faults ++ [fault.faultId] }
      log := s.log ++ [(index, .plantFault fault time)] }
  | .fix fix =>
    let s := s.fixTables index lastLoad fix
    -- a desk that gave no commands reruns nothing
    if c.surroundings.desk.isSome ∧ fix.commands ≠ [] then
      .ok { s with
        summary := { s.summary with reruns := s.summary.reruns + 1 }
        log := s.log ++ [(index, .rerun fix)] }
    else .ok s

/-! ## A day -/

/-- Up to what happened: the day's rows arrive, and yesterday's one-off fault is repaired. -/
def morning (index : ℕ) (s : RunState) : RunState :=
  let runAt := c.runAt index
  { s with
    loadedUntil := runAt
    planted := none
    pending := s.pending.filter fun fix => ¬ fix.time ≤ runAt }.emit index
      (.arrive s.loadedUntil runAt (runAt - Duration.hours 1) ::
        (s.planted.map fun p => Op.repair p runAt).toList)

/-- Freeze, if the night is reconciled: just before the copy reads. -/
def freeze (index : ℕ) (s : RunState) : RunState :=
  if c.timeline.parallel index ∧ c.surroundings.reconciles then
    s.emit index [.freeze (c.runAt index)]
  else s

/-- The load of a night: no table whose loader has stopped, and `NULL` where it writes so. -/
def nightlyLoad (index : ℕ) (active : List (Table × Fault)) : Call :=
  .load (c.runAt index) false
    ((active.filter fun entry => entry.2.stopsLoader).map Prod.fst)
    (active.filterMap fun entry =>
      if entry.2.loadsNulls then
        (entry.2.column.filter (· ≠ "")).map fun column => (entry.1, column)
      else none)

/-- The copy: the fixed job reloads raw in full when it ships. -/
def copy (index : ℕ) (backfill : Bool) (s : RunState) : RunState :=
  if backfill then
    { s with delivered := false }.emit index [.ingest (.backfill (c.runAt index))]
  else s.emit index [.ingest (c.nightlyLoad index s.active)]

/-- The one-off fault of the night, if any. -/
def plantTonight (index : ℕ) (s : RunState) : RunState :=
  match c.timeline.faults.lookup index with
  | none => s
  | some fault =>
    let planted : Planted := ⟨fault, c.surroundings.keys s.log fault⟩
    { s with planted := some planted }.emit index [.plantOneOff planted]

/-- The next day's first writes, after the copy has read. -/
def writesAfter (index : ℕ) (s : RunState) : RunState :=
  if c.timeline.parallel index ∧ c.late ≠ 0 then
    { s with loadedUntil := c.runAt index + c.late }.emit index
      [.arriveNew (c.runAt index) (c.runAt index + c.late)]
  else s

/-- A night of production, or a build on its cadence. -/
def buildTonight (index : ℕ) (backfill : Bool) (s : RunState) : RunState :=
  let built (s : RunState) : RunState :=
    { s with summary := { s.summary with builds := s.summary.builds ++ [c.runAt index] } }
  if c.timeline.production index then
    let s := { s with parsed := true }.emit index
      ((if s.parsed then [] else [Op.parse]) ++ [Op.production (c.runAt index)])
    let s := built { s with
      summary := { s.summary with productionNights := s.summary.productionNights + 1 } }
    match c.surroundings.desk with
    | none => s
    | some desk => { s with pending := s.pending ++ desk s.log }.emit index [.fixes (desk s.log)]
  else if c.timeline.parallel index ∨ index % c.settings.buildEveryDays = 0 ∨
      index + 1 = c.totalDays then
    built (s.emit index [.build (s.summary.builds.isEmpty || backfill) (c.runAt index)])
  else s

/-- What the reconciliation is told of a night. -/
def nightOf (index : ℕ) (backfill : Bool) (repaired : String) (s : RunState) : Company.Night where
  index := index
  runAt := c.runAt index
  delivered := s.delivered
  backfilled := backfill
  planted := (c.timeline.faults.lookup index).elim "" OneOffFault.faultId
  repaired := repaired
  truth := (if s.delivered then c.surroundings.deliveredTruth s.log (c.runAt index) else []) ++
    s.planted.elim [] Planted.truth
  watermarks := watermarks s.log
  frozenAt := some (c.runAt index)

def reconcileTonight (index : ℕ) (backfill : Bool) (repaired : String) (s : RunState) : RunState :=
  if c.timeline.parallel index ∧ c.surroundings.reconciles then
    s.emit index [.night (c.nightOf index backfill repaired s)]
  else s

/-- What `daily` is told of a day. -/
def dayOf (index : ℕ) : Day where
  index := index
  runAt := c.runAt index
  lastOfMonth := (c.day (index + 1)).date.month ≠ (c.day index).date.month
  last := index + 1 = c.totalDays

def endOfDay (index : ℕ) (s : RunState) : RunState :=
  { s with summary := { s.summary with days := s.summary.days + 1 } }.emit index
    [.endOfDay (c.dayOf index)]

/-- From the freeze to the end of the day. -/
def evening (index : ℕ) (backfill : Bool) (repaired : String) (s : RunState) : RunState :=
  let s := c.plantTonight index (c.copy index backfill (c.freeze index s))
  let s := c.writesAfter index (s.emit index [.optimize (c.runAt index)])
  let s := (c.buildTonight index backfill s).emit index [.workload index]
  c.endOfDay index (c.reconcileTonight index backfill repaired s)

/-- One day of the run. -/
def runDay (s : RunState) (index : ℕ) : Except CompanyError RunState := do
  let backfill := s.delivered && !c.timeline.delivered index
  let repaired := s.planted.elim "" fun p => p.fault.faultId
  let s ← (c.happened index s.pending).foldlM (c.happen index s.loadedUntil) (c.morning index s)
  return c.evening index backfill repaired s

/-! ## The window -/

/-- Users, history and an empty raw layer, then the first load. -/
def begin : RunState where
  summary := {}
  planted := none
  delivered := c.timeline.delivered 0
  loadedUntil := c.settings.start
  active := []
  pending := []
  parsed := false
  log := [(0, .startOver), (0, .ingest (.load c.settings.start false [] []))]

/-- The run up to the end of its first `days` days. -/
def after (days : ℕ) : Except CompanyError RunState :=
  (List.range days).foldlM c.runDay c.begin

/-- `run_company`. -/
def run : Except CompanyError RunState := c.after c.totalDays

end Company

end PlatformOps.Simulation
