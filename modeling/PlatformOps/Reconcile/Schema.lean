import PlatformOps.Common.Clock
import PlatformOps.Common.Text

/-!
# What Is Reconciled

Pairs of relations, their key, and each column's kind. The configuration names
the pairs; the columns are read from both catalogues every night (`Specs`). A
pair always has a key column, as the configuration's schema demands.
-/

namespace PlatformOps.Reconcile

inductive Kind
  | int | decimal | text | bool | ts | date
deriving DecidableEq, Repr

inductive Level
  | table | report
deriving DecidableEq, Repr

structure Column where
  name : String
  kind : Kind
  scale : ℕ := 0
  /-- The column's name on the ClickHouse side, when it differs. -/
  targetName : String := ""
  /-- The column's physical type on the ClickHouse side. -/
  targetType : String := ""
deriving DecidableEq, Repr

/-- `Column.target`. -/
def Column.target (c : Column) : String :=
  if c.targetName = "" then c.name else c.targetName

structure TableSpec where
  name : String
  level : Level
  key : List String
  columns : List Column
  source : String
  target : String
  /-- Read the target with `FINAL`. -/
  final : Bool := false
  /-- For a report: the operational tables its mart is built from. -/
  upstream : List String := []
  /-- The legacy column that records when a row last changed. -/
  changedAt : String := ""
  /-- What the legacy side is as of tonight; none compares it as it is. -/
  watermark : Option Timestamp := none
deriving DecidableEq, Repr

namespace TableSpec

/-- Every column except the key, in table order. -/
def valueColumns (table : TableSpec) : List Column :=
  table.columns.filter fun c => c.name ∉ table.key

def column (table : TableSpec) (name : String) : Option Column :=
  table.columns.find? fun c => c.name = name

end TableSpec

/-- The logical kind of a Postgres column type. -/
def kindFromPostgres (dataType : String) : Kind :=
  if dataType ∈ ["bigint", "integer", "smallint"] then .int
  else if dataType ∈ ["numeric", "double precision", "real"] then .decimal
  else if dataType = "boolean" then .bool
  else if startsWith dataType "timestamp" then .ts
  else if dataType = "date" then .date
  else .text

/-- One pair of the configuration; relation names without their schema. -/
structure PairConfig where
  name : String
  source : String
  target : String
  key : List String
  keyed : key ≠ []
  rename : List (String × String) := []
  scale : List (String × ℕ) := []
  skip : List String := []
  changedAt : String := ""

structure ReconcileConfig where
  tables : List PairConfig
  reports : List PairConfig

def defaultDecimalScale : ℕ := 2

/-- Decimal digits at the start of a text, and what follows. -/
def spanDigits (text : List Char) : List Char × List Char :=
  text.span Char.isDigit

/-- The digits of a number, read as a number. -/
def readNat (digits : List Char) : ℕ :=
  digits.foldl (fun n c => 10 * n + (c.toNat - '0'.toNat)) 0

/-- `Decimal\(\d+,\s*(\d+)\)` at the very start of a text. -/
def matchDecimal (text : List Char) : Option ℕ :=
  if "Decimal(".toList.isPrefixOf text then
    match spanDigits (text.drop 8) with
    | ([], _) => none
    | (_, ',' :: rest) =>
      match spanDigits (rest.dropWhile isSpace) with
      | ([], _) => none
      | (scale, ')' :: _) => some (readNat scale)
      | _ => none
    | _ => none
  else none

/-- `target_scale`: the scale of the first decimal type a ClickHouse type names. -/
def targetScale (clickhouseType : String) : Option ℕ :=
  clickhouseType.toList.tails.findSome? matchDecimal

example : targetScale "Nullable(Decimal(18, 4))" = some 4 := by decide

end PlatformOps.Reconcile
