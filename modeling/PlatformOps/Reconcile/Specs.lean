import PlatformOps.Metadata.Lineage
import PlatformOps.Reconcile.Canonical

/-!
# The Pairs of a Night

Both catalogues are read again every night. A pair whose two sides no longer line
up has drifted: it becomes a `Drift` with the reason, and the other pairs are
compared as usual.
-/

namespace PlatformOps.Reconcile

open Listing Fallible Metadata

/-- What the two catalogues answer, and dbt's lineage. -/
structure Catalogues where
  /-- `_postgres_columns`: name, type and numeric scale of each column, in order. -/
  postgres : String → String → List (String × String × Option ℕ)
  /-- `_clickhouse_columns`: the type of each column, by name. -/
  clickhouse : String → String → List (String × String)
  /-- Every column has a name. -/
  named : ∀ database table, "" ∉ (clickhouse database table).map Prod.fst
  graph : FinDigraph String

/-- The schemas and databases of the company, with their namespace. -/
structure Schemas where
  legacy : String
  reporting : String
  raw : String
  marts : String

/-- A pair as the configuration wants it compared. -/
structure Wanted where
  pair : PairConfig
  level : Level
  sourceSchema : String
  targetDatabase : String
  upstream : List String

/-- A pair that cannot be compared tonight, and why. -/
structure Drift where
  spec : TableSpec
  reason : String

namespace Wanted

variable (w : Wanted)

/-- `_stub`: a pair as the configuration names it, without its columns. -/
def stub : TableSpec where
  name := w.pair.name
  level := w.level
  key := w.pair.key
  columns := []
  source := "\"" ++ w.sourceSchema ++ "\".\"" ++ w.pair.source ++ "\""
  target := "`" ++ w.targetDatabase ++ "`.`" ++ w.pair.target ++ "`"
  final := w.level = .table
  upstream := w.upstream
  changedAt := w.pair.changedAt

/-- `pair.rename.get(name, name)`. -/
def targetName (name : String) : String :=
  (dictGet w.pair.rename name).getD name

/-- The scale of a decimal column; a scale of 0 in a catalogue counts as none. -/
def decimalScale (name : String) (scale : Option ℕ) (targetType : String) : ℕ :=
  (dictGet w.pair.scale name).getD
    (((scale.filter (· ≠ 0)).or ((targetScale targetType).filter (· ≠ 0))).getD defaultDecimalScale)

/-- One legacy column, as it is compared. -/
def column (new : List (String × String)) (legacy : String × String × Option ℕ) :
    Except String Column :=
  let (name, dataType, scale) := legacy
  let target := w.targetName name
  match dictGet new target with
  | none => .error (w.pair.name ++ ": column " ++ name ++ " has no counterpart " ++ target ++
      " in ClickHouse")
  | some targetType =>
    let kind := kindFromPostgres dataType
    .ok { name := name
          kind := kind
          scale := if kind = .decimal then w.decimalScale name scale targetType else 0
          -- the empty name stands for the column's own
          targetName := if target = name then "" else target
          targetType := targetType }

/-- `_spec`; the error is the reason of a `SchemaDrift`. -/
def spec (catalogues : Catalogues) : Except String TableSpec := do
  let legacy := catalogues.postgres w.sourceSchema w.pair.source
  raiseIf (legacy = []) (w.sourceSchema ++ "." ++ w.pair.source ++ " does not exist in Postgres")
  let new := catalogues.clickhouse w.targetDatabase w.pair.target
  raiseIf (new = []) (w.targetDatabase ++ "." ++ w.pair.target ++ " does not exist in ClickHouse")
  -- every column that is not skipped needs a counterpart
  let columns ← (legacy.filter fun c => c.1 ∉ w.pair.skip).mapM (w.column new)
  -- a key column that is skipped leaves nothing to match rows by
  let missing := w.pair.key.filter fun k => k ∉ columns.map Column.name
  raiseIf (missing ≠ [])
    (w.pair.name ++ ": key columns " ++ pyList missing ++ " are not compared")
  let timestamps := (columns.filter fun c => c.kind = .ts).map Column.name
  raiseIf (w.pair.changedAt ≠ "" ∧ w.pair.changedAt ∉ timestamps)
    (w.pair.name ++ ": changed_at " ++ w.pair.changedAt ++ " is not a compared timestamp")
  return { w.stub with columns := columns }

end Wanted

/-- `n.split(".")[-1]`. -/
def lastPart (id : String) : String :=
  String.ofList (id.toList.reverse.takeWhile (· ≠ '.')).reverse

/-- `_raw_upstream`: the raw tables a mart is built from; the error is a model the graph does
not have. -/
def rawUpstream (graph : FinDigraph String) (mart : String) : Except String (List String) :=
  let model := "model.company." ++ mart
  if model ∈ graph.nodes then
    .ok (sortBy id (((upstream graph model).filter fun n => startsWith n "source.company.raw.").map
      lastPart))
  else .error model

/-- A table pair, as it is wanted. -/
def wantedTable (schemas : Schemas) (p : PairConfig) : Wanted :=
  ⟨p, .table, schemas.legacy, schemas.raw, []⟩

/-- A report pair, as it is wanted: with the raw tables its mart is built from. -/
def wantedReport (schemas : Schemas) (graph : FinDigraph String) (p : PairConfig) :
    Except String Wanted := do
  let upstream ← rawUpstream graph p.target
  return ⟨p, .report, schemas.reporting, schemas.marts, upstream⟩

/-- The pairs of the configuration, tables first. -/
def wantedPairs (config : ReconcileConfig) (schemas : Schemas) (graph : FinDigraph String) :
    Except String (List Wanted) := do
  let reports ← config.reports.mapM (wantedReport schemas graph)
  return config.tables.map (wantedTable schemas) ++ reports

/-- The pairs that line up. -/
def linedUp (catalogues : Catalogues) (wanted : List Wanted) : List TableSpec :=
  wanted.filterMap fun w => (w.spec catalogues).toOption

/-- The pairs that drifted, with the reasons. -/
def driftedOf (catalogues : Catalogues) (wanted : List Wanted) : List Drift :=
  wanted.filterMap fun w =>
    match w.spec catalogues with
    | .ok _ => none
    | .error reason => some ⟨w.stub, reason⟩

/-- `load_pairs`: every pair to reconcile tonight, and the ones that drifted. -/
def loadPairs (config : ReconcileConfig) (schemas : Schemas) (catalogues : Catalogues) :
    Except String (List TableSpec × List Drift) := do
  let wanted ← wantedPairs config schemas catalogues.graph
  return (linedUp catalogues wanted, driftedOf catalogues wanted)

end PlatformOps.Reconcile
