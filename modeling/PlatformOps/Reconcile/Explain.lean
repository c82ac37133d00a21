import PlatformOps.Reconcile.Metrics

/-!
# Why a Report Differs

A report that differs is explained if each of its columns that differs depends on
a raw column that differs upstream tonight, or reads a table with row-level
differences. A report whose mart could not be traced column by column falls back
to its tables.
-/

namespace PlatformOps.Reconcile

open Listing

/-- A column of the raw layer: its table and name. -/
abbrev RawColumn := String × String

/-- Each mart column, and the raw columns it depends on. -/
abbrev ColumnLineage := List (String × List RawColumn)

structure Explanation where
  explained : Bool
  causes : List String
  /-- Traced column by column, or by table. -/
  traced : Bool
deriving DecidableEq, Repr

/-- What explains one column: the raw columns that differ, and the tables that do by row. -/
def causesOf (depends cells : List RawColumn) (rows : List String) : List String :=
  ((depends.filter (· ∈ cells)).map fun c => c.1 ++ "." ++ c.2) ++
    ((depends.map Prod.fst).filter (· ∈ rows)).map fun table => table ++ " (rows)"

/-- The mart columns that differ: of the cells, and of the key if rows differ. -/
def neededColumns (report : TableSpec) (diff : TableDiff) : Except String (List String) := do
  let ofCells ← diff.cells.mapM fun c => columnNamed report c.column
  let byRow := diff.missing ≠ [] ∨ diff.extra ≠ [] ∨ diff.duplicates ≠ []
  let ofRows ← (if byRow then report.key else []).mapM (columnNamed report)
  return sortedSet ((ofCells ++ ofRows).map Column.target)

/-- `explain`; the error is a column the report, or its lineage, does not have. -/
def explain (report : TableSpec) (diff : TableDiff) (lineage : Option ColumnLineage)
    (cells : List RawColumn) (rows : List String) : Except String Explanation :=
  if diff.clean then .ok ⟨true, [], lineage.isSome⟩
  else
    match lineage with
    -- the columns are not known: any upstream table that differs explains it
    | none =>
      let hit := sortedSet ((rows ++ cells.map Prod.fst).filter (· ∈ report.upstream))
      .ok ⟨hit ≠ [], hit, false⟩
    -- every column that differs needs a cause of its own
    | some lineage => do
      let needed ← neededColumns report diff
      let found ← needed.mapM fun column => do
        let depends ← dictItem lineage column
        return causesOf depends cells rows
      return ⟨found.all fun causes => causes ≠ [], sortedSet found.flatten, true⟩

end PlatformOps.Reconcile
