import PlatformOps.Common.Clock
import PlatformOps.Library.Machine
import PlatformOps.Library.Versions

/-!
# Incremental Ingestion

The loads from the legacy Postgres into the raw layer on ClickHouse, by a
watermark on `updated_at`. A load reads every table's rows stamped in
`(watermark - overlap, until]` and records the load; the latest `loaded_until`
recorded for a table is its watermark. `backfill` and `resync` re-create tables,
empty, and read them in full.

Each call is a list of statements that run one by one, with no transaction
around them: between any two of them the legacy application commits rows,
ClickHouse merges parts, or the call raises. Raw tables are
`ReplacingMergeTree`s: rows are only appended, a read with `FINAL` keeps per key
the row with the largest `updated_at` (the last inserted of equals), and a merge
may drop any other row.
-/

namespace PlatformOps.Simulation

/-! ## Tables and rows -/

/-- The operational tables (`raw_data.TABLES`). -/
inductive Table
  | customers | products | orders | orderItems | payments | webSessions
  | marketingCampaigns | marketingSpend | supportTickets
deriving DecidableEq, Repr

/-- `raw_data.TABLES`, in its order. -/
def tables : List Table :=
  [.customers, .products, .orders, .orderItems, .payments, .webSessions, .marketingCampaigns,
    .marketingSpend, .supportTickets]

theorem mem_tables (t : Table) : t ∈ tables := by
  cases t <;> decide

/-- A row: its primary key, its `updated_at`, and its other columns by name. -/
structure Row (V : Type) where
  key : ℤ
  updatedAt : Timestamp
  cells : List (String × V)
deriving DecidableEq, Repr

/-- A row of a raw table: when it was loaded is a column of its own (`_loaded_at`). -/
structure RawRow (V : Type) where
  row : Row V
  loadedAt : Timestamp
deriving DecidableEq, Repr

/-- One row of `ingestion_loads`. -/
structure LoadRecord where
  table : Table
  loadedFrom : Option Timestamp
  loadedUntil : Timestamp
  rowsRead : ℕ
  loadedAt : Timestamp
deriving DecidableEq, Repr

/-! ## The job -/

/-- What ClickHouse's expressions do to a value: `NULL`, and the three defects of the
delivered job. -/
structure Engine (V : Type) where
  null : V
  /-- `toDateTime64(toString(x), 6, zone)`. -/
  readAsLocal : String → V → V
  /-- `toDecimal64(toFloat64(x), 2)`. -/
  throughFloat : V → V
  /-- `trimRight(x)`. -/
  trimRight : V → V

/-- The job's defects as the migration team first delivered it (`company.delivered_job`).
They are set on columns other than a key or `updated_at`. -/
structure DeliveredJob where
  timezoneTable : Table := .payments
  timezoneColumn : String := "created_at"
  timezone : String := "America/New_York"
  floatTable : Table := .payments
  floatColumn : String := "amount"
  trimTable : Table := .customers
  trimColumn : String := "email"
  batchTable : Table := .webSessions
  batchRows : ℕ := 25000

/-- `Ingestion`: the settings its statements use. -/
structure Job (V : Type) where
  engine : Engine V
  /-- `ingest_overlap_minutes`. -/
  overlapMinutes : ℕ
  deliveredJob : DeliveredJob
  /-- The job as first delivered, defects included. -/
  delivered : Bool

/-- A table and one of its columns, written as `NULL` for a night. -/
abbrev NulledColumn := Table × String

namespace Job

variable {V : Type} (job : Job V)

def overlap : Duration := Duration.minutes job.overlapMinutes

/-- `_ts`: a time as the loads write it into their SQL, cut to whole seconds. -/
def ts (value : Timestamp) : Timestamp :=
  Duration.seconds (value / Duration.seconds 1)

/-- `_expression`: how the job reads one column, as it is or with a delivered defect. -/
def expression (table : Table) (column : String) (value : V) : V :=
  if job.delivered then
    -- one defect a column, tried in this order
    if (table, column) = (job.deliveredJob.timezoneTable, job.deliveredJob.timezoneColumn) then
      job.engine.readAsLocal job.deliveredJob.timezone value
    else if (table, column) = (job.deliveredJob.floatTable, job.deliveredJob.floatColumn) then
      job.engine.throughFloat value
    else if (table, column) = (job.deliveredJob.trimTable, job.deliveredJob.trimColumn) then
      job.engine.trimRight value
    else value
  else value

/-- `_dropped`: the delivered job loses the last key of every page of the paged table. -/
def dropped (table : Table) (row : Row V) : Bool :=
  job.delivered && table = job.deliveredJob.batchTable &&
    row.key % (job.deliveredJob.batchRows : ℤ) = 0

/-- The columns `_pull` reads of one row. -/
def read (table : Table) (nulled : List NulledColumn) (row : Row V) : Row V :=
  { row with
    cells := row.cells.map fun cell =>
      (cell.1, if (table, cell.1) ∈ nulled then job.engine.null
        else job.expression table cell.1 cell.2) }

/-- The `WHERE` of `_pull`: stamped after `since` (if there is a watermark) up to `until`. -/
def selected (table : Table) (since : Option Timestamp) (upTo : Timestamp) (row : Row V) : Bool :=
  since.all (fun s => ts s < row.updatedAt) && row.updatedAt ≤ ts upTo && !job.dropped table row

/-- What `_pull` inserts into one raw table. -/
def pulled (table : Table) (since : Option Timestamp) (upTo : Timestamp)
    (nulled : List NulledColumn) (legacy : List (Row V)) : List (RawRow V) :=
  -- `ORDER BY` the key; every row carries the load's bound
  ((legacy.filter (job.selected table since upTo)).insertionSort fun a b => a.key ≤ b.key).map
    fun row => ⟨job.read table nulled row, ts upTo⟩

end Job

/-! ## Raw tables -/

section Final

variable {V : Type}

def RawRow.key (x : RawRow V) : ℤ := x.row.key
def RawRow.updatedAt (x : RawRow V) : Timestamp := x.row.updatedAt

/-- The row of a key that a read with `FINAL` keeps. -/
def final (rows : List (RawRow V)) (key : ℤ) : Option (RawRow V) :=
  Versions.latest RawRow.key RawRow.updatedAt rows key

/-- `SELECT ... FROM raw FINAL`: one row per key, without `_loaded_at`. -/
def readFinal (rows : List (RawRow V)) : List (Row V) :=
  (Versions.readLatest RawRow.key RawRow.updatedAt rows).map RawRow.row

end Final

/-! ## Calls and their statements -/

/-- A call of the ingestion. -/
inductive Call
  | load (upTo : Timestamp) (full : Bool) (skip : List Table) (nulled : List NulledColumn)
  | backfill (upTo : Timestamp)
  | resync (table : Table) (upTo : Timestamp)
deriving DecidableEq, Repr

def Call.until : Call → Timestamp
  | .load u _ _ _ => u
  | .backfill u => u
  | .resync _ u => u

def Call.nulled : Call → List NulledColumn
  | .load _ _ _ n => n
  | _ => []

/-- What a call sends to one of the two databases. -/
inductive Statement
  /-- `_create`: `CREATE OR REPLACE TABLE`. -/
  | create (table : Table)
  /-- `watermarks`. -/
  | watermarks
  /-- One round of `_pull`. -/
  | pull (table : Table)
  /-- `_record`: one `COPY`, one transaction. -/
  | record
deriving DecidableEq, Repr

/-- The statements of a call, in order. -/
def Call.statements : Call → List Statement
  | .load _ full skip _ =>
    (if full then [] else [.watermarks]) ++ ((tables.filter (· ∉ skip)).map .pull ++ [.record])
  | .backfill _ => tables.map .create ++ (tables.map .pull ++ [.record])
  | .resync table _ => [.create table, .pull table, .record]

/-- A call under way. -/
structure Frame where
  call : Call
  todo : List Statement
  /-- `marks`: empty until the watermarks are read, and for a full read. -/
  marks : Table → Option Timestamp
  /-- The tables re-created so far. -/
  emptied : List Table
  /-- `records`: the loads made so far, not yet recorded. -/
  records : List LoadRecord

/-! ## The system -/

/-- The legacy tables, the raw tables, the recorded loads, and the call under way. -/
structure World (V : Type) where
  legacy : Table → List (Row V)
  raw : Table → List (RawRow V)
  loads : List LoadRecord
  running : Option Frame

namespace World

variable {V : Type}

/-- `watermarks()`: the latest `loaded_until` recorded for a table. -/
def watermark (w : World V) (table : Table) : Option Timestamp :=
  ((w.loads.filter fun l => l.table = table).map LoadRecord.loadedUntil).max?

/-- Right after `recreate`: raw tables empty, no load recorded. -/
def init (legacy : Table → List (Row V)) : World V :=
  ⟨legacy, fun _ => [], [], none⟩

end World

/-- `rows` with one row inserted, or changed in place. -/
def upsert {V : Type} (row : Row V) (rows : List (Row V)) : List (Row V) :=
  if row.key ∈ rows.map Row.key then rows.map fun r => if r.key = row.key then row else r
  else rows ++ [row]

/-- One entry of a table-indexed state replaced. -/
def setTable {A : Type} (f : Table → A) (table : Table) (a : A) : Table → A :=
  fun t => if t = table then a else f t

section Step

variable {V : Type} (job : Job V)

/-- What happens to the system, one event at a time. -/
inductive Event (V : Type)
  /-- The legacy application commits a row. -/
  | commit (table : Table) (row : Row V)
  /-- ClickHouse merges parts: some superseded rows are gone. -/
  | merge (table : Table) (rows : List (RawRow V))
  | call (c : Call)
  /-- The next statement of the call under way. -/
  | statement
  /-- The call under way raises; a raising `INSERT` may leave some of its rows. -/
  | raise (rows : List (RawRow V))

/-- The loads of `_pull`'s `since`: a table's watermark minus the overlap. -/
def Frame.since (f : Frame) (table : Table) : Option Timestamp :=
  (f.marks table).map fun mark => mark - job.overlap

/-- What the frame's next statement would insert, and where. -/
def Frame.inserts (f : Frame) (w : World V) (table : Table) : List (RawRow V) :=
  job.pulled table (f.since job table) f.call.until f.call.nulled (w.legacy table)

/-- One statement of the call under way. The call returns with its last one. -/
def execute (w : World V) (f : Frame) : Statement → List Statement → World V
  -- `CREATE OR REPLACE`: what the raw table held is gone
  | .create table, rest =>
    { w with
      raw := setTable w.raw table []
      running := some { f with todo := rest, emptied := f.emptied ++ [table] } }
  -- the watermarks are read once, before the first pull
  | .watermarks, rest => { w with running := some { f with todo := rest, marks := w.watermark } }
  | .pull table, rest =>
    let rows := f.inserts job w table
    { w with
      raw := setTable w.raw table (w.raw table ++ rows)
      running := some { f with
        todo := rest
        records := f.records ++ [⟨table, f.since job table, f.call.until, rows.length,
          f.call.until⟩] } }
  -- the loads are recorded together, when every table is in
  | .record, _ => { w with loads := w.loads ++ f.records, running := none }

variable [DecidableEq V]

/-- Can ClickHouse have merged `rows` into `rows'`? -/
def mergesTo (rows rows' : List (RawRow V)) : Bool :=
  rows'.Sublist rows && rows.all fun x => final rows' x.key = final rows x.key

def step (w : World V) : Event V → Option (World V)
  | .commit table row =>
    some { w with legacy := setTable w.legacy table (upsert row (w.legacy table)) }
  | .merge table rows =>
    if mergesTo (w.raw table) rows then some { w with raw := setTable w.raw table rows } else none
  -- calls do not overlap
  | .call c =>
    match w.running with
    | none => some { w with running := some ⟨c, c.statements, fun _ => none, [], []⟩ }
    | some _ => none
  | .statement =>
    match w.running with
    | none => none
    | some f =>
      match f.todo with
      | [] => none
      | s :: rest => some (execute job w f s rest)
  | .raise rows =>
    match w.running with
    | none => none
    | some f =>
      match f.todo with
      | .pull table :: _ =>
        -- an INSERT that fails halfway leaves some of the blocks it wrote
        if rows.Sublist (f.inserts job w table) then
          some { w with raw := setTable w.raw table (w.raw table ++ rows), running := none }
        else none
      -- any other statement fails as a whole
      | _ => if rows = [] then some { w with running := none } else none

end Step

end PlatformOps.Simulation
