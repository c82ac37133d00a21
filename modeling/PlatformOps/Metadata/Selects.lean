import PlatformOps.Library.Bags
import PlatformOps.Library.Listing

/-!
# Column Lineage

A qualified SELECT by the columns each of its clauses reads, how the columns that shape
its rows are folded into its select expressions, and which raw columns an output column
is traced to, through the models of a project. What a clause makes of the columns it
reads is no part of a SELECT: it is a `Reading`, and the rows that a SELECT returns from
a database depend on it; so do the tables that the models of a project are built as.
-/

namespace PlatformOps.Metadata.ColumnLineage

open Bags (Side)

/-! ## A SELECT -/

/-- A relation of the warehouse: a raw source, by its name, a model of the project, by its unique
id, or neither. -/
inductive Relation
  | raw (name : String)
  | model (uid : String)
  | other (name : String)
deriving DecidableEq, Repr

/-- A qualified column: the alias it is read from, and its name. -/
structure Column where
  table : String
  name : String
deriving DecidableEq, Repr

structure Source where
  /-- `alias_or_name`. -/
  aliasOrName : String
  relation : Relation
deriving DecidableEq, Repr

/-- `side JOIN source ON ...`, with the columns its condition reads; none without `ON`. -/
structure Join where
  side : Side
  source : Source
  on : List Column
deriving DecidableEq, Repr

/-- No grouping; aggregates without `GROUP BY`, over all rows; `GROUP BY`. -/
inductive Grouping
  | rows
  | whole
  | keys (columns : List Column)
deriving DecidableEq, Repr

def Grouping.columns : Grouping → List Column
  | .keys columns => columns
  | _ => []

/-- A select expression: its name, and the columns it reads; `count(*)` reads none. -/
structure Projection where
  name : String
  value : List Column
deriving DecidableEq, Repr

structure Select where
  source : Source
  joins : List Join := []
  /-- The columns `WHERE` reads. -/
  condition : List Column := []
  grouping : Grouping := .rows
  having : List Column := []
  distinct : Bool := false
  selects : List Projection
  /-- The columns `ORDER BY` reads. -/
  order : List Column := []
  limit : Option ℕ := none
deriving DecidableEq, Repr

namespace Select

def sources (q : Select) : List Source :=
  q.source :: q.joins.map Join.source

/-- The relation an alias stands for. -/
def relationOf (q : Select) (side : String) : Option Relation :=
  (q.sources.find? fun s => s.aliasOrName = side).map Source.relation

end Select

/-! ## Tracing -/

/-- The columns that decide the rows of every expression (`every`). -/
def every (q : Select) : List Column :=
  q.condition ++ q.grouping.columns ++ q.having ++
    (q.joins.filter fun j => j.side ≠ .left).flatMap Join.on ++
    if q.distinct then q.selects.flatMap Projection.value else []

/-- The `ON` columns of the left joins whose side an expression reads. -/
def joinedSides (q : Select) (p : Projection) : List Column :=
  (q.joins.filter fun j =>
    j.side = .left ∧ j.source.aliasOrName ∈ p.value.map Column.table).flatMap Join.on

/-- An expression `e` becomes `tuple(e, c1, c2, ...)`. -/
def folded (q : Select) (p : Projection) : Projection :=
  { p with value := p.value ++ every q ++ joinedSides q p }

/-- `_fold_row_shaping`. -/
def foldRowShaping (q : Select) : Select :=
  { q with selects := q.selects.map (folded q) }

/-- `_leaves` of an expression: the relation columns it is computed from. -/
def leaves (q : Select) (p : Projection) : List (Relation × String) :=
  p.value.filterMap fun c => (q.relationOf c.table).map fun relation => (relation, c.name)

/-- A raw column: its source table, and its name. -/
abbrev RawColumn := String × String

/-- What is known of a model: each column, and the raw columns it depends on. -/
abbrev Upstream := String → Except String (List (String × List RawColumn))

/-- A column of a relation, down to raw columns. -/
def resolveColumn (model : Upstream) : Relation × String → Except String (List RawColumn)
  | (.raw name, column) => .ok [(name, column)]
  | (.model uid, column) => do
    let upstream ← model uid
    match upstream.lookup column with
    | some columns => .ok columns
    | none => .error (uid ++ ": no column " ++ column ++ " to trace")
  -- seeds and snapshots explain nothing, and what is not part of the project does not
  | (.other _, _) => .ok []

/-- `_resolve`; a set, as a list. -/
def resolve (model : Upstream) (columns : List (Relation × String)) :
    Except String (List RawColumn) := do
  let found ← columns.mapM (resolveColumn model)
  return found.flatten

/-- `_trace`: each output column, and the raw columns it depends on. -/
def trace (model : Upstream) (q : Select) : Except String (List (String × List RawColumn)) :=
  -- traced after the clauses are folded into every expression
  (foldRowShaping q).selects.mapM fun p => do
    return (p.name, ← resolve model (leaves (foldRowShaping q) p))

/-- The models of a project by their unique ids, each before those that it reads: the graph of a
dbt project has no cycles. -/
abbrev Project := List (String × Select)

/-- `model`: each column of a model, and the raw columns it depends on. -/
def model : Project → Upstream
  | [], uid => .error (uid ++ ": no compiled SQL")
  | (name, q) :: upstream, uid =>
    if uid = name then trace (model upstream) q else model upstream uid

/-- `SELECT s.amount AS amount, s.status AS status FROM orders AS s WHERE s.test ...`. -/
def stagedOrders : Select where
  source := ⟨"s", .raw "orders"⟩
  condition := [⟨"s", "test"⟩]
  selects := [⟨"amount", [⟨"s", "amount"⟩]⟩, ⟨"status", [⟨"s", "status"⟩]⟩]

example : trace (model [("model.company.stg_orders", stagedOrders)])
    { source := ⟨"o", .model "model.company.stg_orders"⟩
      grouping := .keys [⟨"o", "status"⟩]
      selects := [⟨"orders", []⟩] } =
    .ok [("orders", [("orders", "status"), ("orders", "test")])] := by
  rfl

/-! ## What a SELECT returns -/

/-- What the clauses make of the columns they read: conditions of a row, the key of a group,
and functions of the values in a group. A strict order tells which group comes first. -/
structure Reading (V : Type) where
  condition : List V → Bool
  on : String → List V → Bool
  key : List V → List V
  having : Multiset (List V) → Bool
  value : String → Multiset (List V) → V
  before : Multiset (List V) → Multiset (List V) → Bool
  before_irrefl : ∀ x, before x x = false
  before_trans : ∀ x y z, before x y = true → before y z = true → before x z = true

/-- A row of one relation, by column. -/
abbrev Row (V : Type) := String → V

/-- A joined row: a row for each alias. -/
abbrev Joined (V : Type) := String → Row V

abbrev Database (V : Type) := Relation → Multiset (Row V)

section Returns

variable {V : Type} (null : V)

/-- The columns of a clause, on a joined row. -/
def readColumns (columns : List Column) (e : Joined V) : List V :=
  columns.map fun c => e c.table c.name

def nullRow : Row V := fun _ => null

/-- A row joined to a joined row; a side without a match is all NULL. -/
def extend (side : String) (x : Option (Joined V) × Option (Row V)) : Joined V :=
  -- a side without a match reads as NULL in every column
  Function.update (x.1.getD fun _ => nullRow null) side (x.2.getD (nullRow null))

variable (reading : Reading V) (db : Database V)

/-- The condition of a join, on the rows of its sides. -/
def onHolds (j : Join) (e : Joined V) (r : Row V) : Bool :=
  reading.on j.source.aliasOrName (readColumns j.on (Function.update e j.source.aliasOrName r))

def joinStep (rows : Multiset (Joined V)) (j : Join) : Multiset (Joined V) :=
  (Bags.join j.side (onHolds reading j) rows (db j.source.relation)).map
    (extend null j.source.aliasOrName)

/-- `FROM ...`. -/
def firstRows (q : Select) : Multiset (Joined V) :=
  (db q.source.relation).map fun r => extend null q.source.aliasOrName (none, some r)

/-- `FROM ... JOIN ...`. -/
def joinedRows (q : Select) : Multiset (Joined V) :=
  q.joins.foldl (joinStep null reading db) (firstRows null db q)

/-- The columns of a clause, on each row of a group. -/
def readAll (columns : List Column) (group : Multiset (Joined V)) : Multiset (List V) :=
  group.map (readColumns columns)

variable [DecidableEq V]

/-- The groups the select expressions are evaluated on. -/
def groupsOf (rows : Multiset (Joined V)) : Grouping → Multiset (Multiset (Joined V))
  | .rows => rows.map fun e => {e}
  -- an aggregate without GROUP BY: one group, even of no rows
  | .whole => {rows}
  | .keys columns => Bags.groups (fun e => reading.key (readColumns columns e)) rows

/-- `WHERE`, `GROUP BY` and `HAVING`. -/
def keptGroups (q : Select) : Multiset (Multiset (Joined V)) :=
  (groupsOf reading ((joinedRows null reading db q).filter fun e =>
      reading.condition (readColumns q.condition e)) q.grouping).filter fun group =>
    reading.having (readAll q.having group)

/-- The value of each select expression on a group. -/
def outputRow (q : Select) (group : Multiset (Joined V)) : List (String × V) :=
  q.selects.map fun p => (p.name, reading.value p.name (readAll p.value group))

/-- The rows, each with what it is sorted by. -/
def evaluated (q : Select) : Multiset (List (String × V) × Multiset (List V)) :=
  (keptGroups null reading db q).map fun group => (outputRow reading q group, readAll q.order group)

/-- The rows before `LIMIT`: `DISTINCT` comes before `ORDER BY`, which may sort by columns that
are not selected, and keeps any one of the rows that are alike. -/
def Sorted (q : Select) (sorted : Multiset (List (String × V) × Multiset (List V))) : Prop :=
  if q.distinct then Bags.Representatives Prod.fst (evaluated null reading db q) sorted
  else sorted = evaluated null reading db q

/-- What a SELECT may return: with `LIMIT`, the first rows in its order. -/
def Returns (q : Select) (rows : Multiset (List (String × V))) : Prop :=
  ∃ sorted kept, Sorted null reading db q sorted ∧ rows = kept.map Prod.fst ∧ match q.limit with
    | none => kept = sorted
    | some n => Bags.Cut n (fun x y => reading.before x.2 y.2) sorted kept

/-- The values of an output column. -/
def columnValues (p : Projection) (rows : Multiset (List (String × V))) : Multiset V :=
  rows.map fun row => (row.lookup p.name).getD null

/-! ## What a project is built as -/

/-- A row of a table that was built from a SELECT. -/
def tableRow (row : List (String × V)) : Row V :=
  fun column => (row.lookup column).getD null

/-- The databases that a project may be built as, from one with its raw tables: the table of a
model is what its SELECT may return once those before it are built. -/
def Builds (readings : String → Reading V) (db : Database V) : Project → Database V → Prop
  | [], built => built = db
  | (uid, q) :: upstream, built => ∃ below, Builds readings db upstream below ∧
      ∃ rows, Returns null (readings uid) below q rows ∧
        built = Function.update below (.model uid) (rows.map (tableRow null))

end Returns

end PlatformOps.Metadata.ColumnLineage
