import PlatformOps.Reconcile.Classify
import PlatformOps.Reconcile.Explain
import PlatformOps.Reconcile.Specs

/-!
# A Night of the Parallel Run

Every night both catalogues are read again, every pair that lines up is compared
and judged, and a pair that drifted fails with its reason. The tables' differences
are graded against what was planted, and explain the reports'. The night is one
more result of the run.

What the databases hold is the `World`: the rows behind each relation, with the
writes that commit while a pair is compared, and the column lineage of each mart.
-/

namespace PlatformOps.Reconcile

open Listing

structure Night where
  index : ℕ
  runAt : Timestamp
  truth : List TruthCell
  /-- Each legacy table's watermark after tonight's copy. -/
  watermarks : List (String × Timestamp)
  frozenAt : Option Timestamp

structure PairResult where
  spec : TableSpec
  diff : TableDiff
  discrepancies : List Discrepancy
  verdict : TableVerdict

structure NightResult where
  night : Night
  pairs : List PairResult
  grade : Grade
  unexplained : List String
  explanations : List (String × Explanation)

/-- `NightResult.clean`. -/
def NightResult.clean (r : NightResult) : Bool :=
  r.pairs.all (fun p => p.verdict.passed) && r.unexplained.isEmpty

/-- What of the settings a night reads. -/
structure NightSettings where
  config : ReconcileConfig
  schemas : Schemas
  canonical : CanonicalSettings
  thresholds : Thresholds
  leafWidth : ℕ

/-- What a night finds in the databases and the dbt project. -/
structure World (R T : Type) where
  catalogues : Catalogues
  engine : PostgresEngine R
  targetEngine : Engine T
  md5 : Md5
  ceilLog : ℕ → ℕ → ℤ
  /-- The tolerance and the time zones of the settings, with the zones' database. -/
  classes : ClassSettings
  /-- The rows of a legacy relation, and what commits while its pair is compared. -/
  legacy : String → Legacy R
  /-- The rows of a relation of the copy, with or without `FINAL`. -/
  copy : String → Bool → List T
  /-- The column lineage of a mart, none if it cannot be traced. -/
  traced : String → Option ColumnLineage

structure ParallelRun where
  specs : List TableSpec := []
  drifted : List Drift := []
  lineage : List (String × Option ColumnLineage) := []
  rules : List (String × List (String × Rule)) := []
  started : Bool := false
  results : List NightResult := []

section Night

variable {R T : Type} (settings : NightSettings) (world : World R T) (night : Night)

/-- `_load_specs`. -/
def ParallelRun.loadSpecs (run : ParallelRun) : Except String ParallelRun := do
  let (specs, drifted) ← loadPairs settings.config settings.schemas world.catalogues
  return { run with
    specs := specs
    drifted := drifted
    lineage := settings.config.reports.map fun p => (p.name, world.traced p.target)
    rules := specs.map fun s => (s.name, rulesFor s settings.canonical) }

/-- `_as_of`: a table as of the copy, a report as frozen. -/
def asOfTonight (spec : TableSpec) : TableSpec :=
  match spec.level with
  | .report => { spec with watermark := night.frozenAt }
  | .table => { spec with watermark := dictGet night.watermarks spec.name }

/-- What `_compare` does with the pair's rules: one pair, compared and judged. -/
def compareWith (rules : List (String × Rule)) (spec : TableSpec) : Except String PairResult := do
  let (diff, _) ← diffTable world.engine world.targetEngine world.md5 world.ceilLog spec rules
    settings.leafWidth ⟨world.legacy spec.source, none⟩ ⟨world.copy spec.target spec.final⟩
  let found ← discrepanciesOf spec diff (classify world.classes)
  return ⟨spec, diff, found, verdict spec diff found settings.thresholds (some night.runAt)⟩

/-- `_compare`. -/
def compare (rules : List (String × List (String × Rule))) (spec : TableSpec) :
    Except String PairResult := do
  let own ← dictItem rules spec.name
  compareWith settings world night own spec

/-- `_drifted`: a pair that cannot be compared tonight fails, with the reason. -/
def driftedResult (drift : Drift) : PairResult where
  spec := drift.spec
  diff := { table := drift.spec.name }
  discrepancies := []
  verdict :=
    { table := drift.spec.name
      sourceRows := 0
      targetRows := 0
      rowMatchRate := 0
      columnMatchRates := []
      byClass := fun _ => 0
      failures := [.schema drift.reason] }

/-- The grade of a night: the rules of every table, drifted or not, are looked up first. -/
def gradeTables (rules : List (String × List (String × Rule))) (truth : List TruthCell)
    (tables : List PairResult) : Except String Grade := do
  let specs := tables.map fun p => (p.spec.name, p.spec)
  let own ← (specs.map Prod.fst).mapM fun name => do
    let rules ← dictItem rules name
    return (name, rules)
  grade truth (tables.flatMap PairResult.discrepancies) specs own

/-- The raw columns that differ tonight. -/
def differingCells (tables : List PairResult) : Except String (List RawColumn) := do
  let cells ← tables.mapM fun p => p.diff.cells.mapM fun c => do
    let column ← columnNamed p.spec c.column
    return (p.spec.name, column.target)
  return cells.flatten

/-- The raw tables that differ by row, or could not be compared. -/
def differingRows (tables : List PairResult) (drifted : List Drift) : List String :=
  (tables.filter fun p => p.diff.missing ≠ [] ∨ p.diff.extra ≠ [] ∨ p.diff.duplicates ≠ []).map
      (fun p => p.spec.name) ++
    (drifted.filter fun d => d.spec.level = .table).map fun d => d.spec.name

/-- `ParallelRun.__call__`: the run after one more night. -/
def ParallelRun.call (run : ParallelRun) : Except String ParallelRun := do
  -- the schemas are read again every night
  let run ← ParallelRun.loadSpecs settings world { run with started := true }
  let compared ← (run.specs.map (asOfTonight night)).mapM (compare settings world night run.rules)
  -- the pairs that drifted come last, and fail
  let pairs := compared ++ run.drifted.map driftedResult
  let tables := pairs.filter fun p => p.spec.level = .table
  let grade ← gradeTables run.rules night.truth tables
  let cells ← differingCells tables
  let rows := differingRows tables run.drifted
  -- reports are explained by what differs in the tables
  let explanations ← (pairs.filter fun p => p.spec.level = .report).mapM fun p => do
    let why ← explain p.spec p.diff (dictGet run.lineage p.spec.name).join cells rows
    return (p.spec.name, why)
  let result : NightResult :=
    { night := night
      pairs := pairs
      grade := grade
      unexplained := (explanations.filter fun e => !e.2.explained).map Prod.fst
      explanations := explanations }
  return { run with results := run.results ++ [result] }

end Night

/-! ## The cutover -/

structure Cutover where
  recommended : Bool
  night : Option ℕ
  runAt : Option Timestamp
  cleanNights : ℕ
  required : ℕ
  parallelNights : ℕ
deriving DecidableEq, Repr

/-- The loop of `decide`: the nights that are left, with the streak so far. -/
def Cutover.decideFrom (required parallelNights : ℕ) : ℕ → List NightResult → Cutover
  | streak, [] => ⟨false, none, none, streak, required, parallelNights⟩
  | streak, result :: rest =>
    -- one unclean night starts the count again
    let streak := if result.clean then streak + 1 else 0
    -- the first such night decides: later nights are not looked at
    if streak = required then
      ⟨true, some result.night.index, some result.night.runAt, streak, required, parallelNights⟩
    else decideFrom required parallelNights streak rest

/-- `decide`: the first night that completes `required` consecutive clean nights, if any. -/
def Cutover.decide (results : List NightResult) (required : ℕ) : Cutover :=
  decideFrom required results.length 0 results

end PlatformOps.Reconcile
