import PlatformOps.Library.Listing
import PlatformOps.Reconcile.Canonical

/-!
# The Two Sides of a Reconciliation

A connector answers the questions of the segmented diff inside its engine: row
counts and hash sums per segment of the key's MD5, and the canonical rows of a
few segments. Postgres hashes each row once into a temporary table, and answers
as of a watermark: a row changed after it is left out, and counted.

The legacy database is live. `Legacy` holds its rows and what other sessions
will commit; every statement of the connector first sees the next batch of
those commits, so a list of batches is one interleaving. The copy does not
change while it is compared.
-/

namespace PlatformOps.Reconcile

open Listing

/-! ## Hashes and segments -/

/-- The first two 32-bit words of the MD5 of a text. -/
abbrev Md5 := String → BitVec 32 × BitVec 32

structure Summary where
  rows : ℕ
  h1 : ℕ
  h2 : ℕ
deriving DecidableEq, Repr

/-- One hashed row: the first word of its key's MD5, and two words of its own. -/
structure HashRow where
  bucket : BitVec 32
  h1 : BitVec 32
  h2 : BitVec 32
deriving DecidableEq, Repr

/-- `_shift`. -/
def shift (depth : ℕ) : ℕ := 32 - 4 * depth

/-- The segment of a bucket at a depth: its first hex digits. -/
def segmentOf (depth : ℕ) (bucket : BitVec 32) : ℕ :=
  bucket.toNat >>> shift depth

/-- The bucket of a canonical key. -/
def bucketOf (md5 : Md5) (key : String) : BitVec 32 := (md5 key).1

/-- A row as both engines hash it. -/
def hashRow {R : Type} (md5 : Md5) (rendered : RenderedTable R) (r : R) : HashRow :=
  ⟨bucketOf md5 (rendered.key r), (md5 (rendered.row r)).1, (md5 (rendered.row r)).2⟩

/-- A row as both connectors fetch it: its canonical key and values. Of a table with no value
column the engines are asked for one empty text. -/
def canonicalRow {R : Type} (rendered : RenderedTable R) (r : R) : String × List String :=
  (rendered.key r, if rendered.values = [] then [""] else rendered.values.map fun value => value r)

/-- The rows of the segments asked for: all of them at the first depth. -/
def inParents (depth : ℕ) (parents : List ℕ) (rows : List HashRow) : List HashRow :=
  if 1 < depth then rows.filter fun r => segmentOf (depth - 1) r.bucket ∈ parents else rows

/-- `GROUP BY`: a summary per segment, with an engine's way to sum. -/
def summaries (sum : List ℕ → ℕ) (depth : ℕ) (rows : List HashRow) : List (ℕ × Summary) :=
  (groupBy (fun r => segmentOf depth r.bucket) rows).map fun group =>
    (group.1, ⟨group.2.length, sum (group.2.map fun r => r.h1.toNat),
      sum (group.2.map fun r => r.h2.toNat)⟩)

/-- Postgres sums 64-bit integers as `numeric`, exactly. -/
def postgresSum (words : List ℕ) : ℕ := words.sum

/-- ClickHouse sums `UInt64`s in 64 bits. -/
def clickhouseSum (words : List ℕ) : ℕ := words.sum % 2 ^ 64

/-! ## The legacy database -/

/-- What the legacy application commits: a new row, or a row changed in place. -/
inductive Write (R : Type)
  | insert (row : R)
  | update (position : ℕ) (row : R)
deriving DecidableEq, Repr

def Write.apply {R : Type} (rows : List R) : Write R → List R
  | .insert row => rows ++ [row]
  | .update position row => rows.set position row

/-- The rows of one legacy relation, and the batches of writes that commit before each of the
next statements. -/
structure Legacy (R : Type) where
  rows : List R
  pending : List (List (Write R))
deriving DecidableEq, Repr

namespace Legacy

variable {R : Type}

/-- What a statement sees: the next batch has committed. -/
def next (legacy : Legacy R) : Legacy R :=
  match legacy.pending with
  | [] => legacy
  | batch :: pending => ⟨batch.foldl Write.apply legacy.rows, pending⟩

/-- What the `n`-th statement from now sees. -/
def after (legacy : Legacy R) (n : ℕ) : Legacy R :=
  next^[n] legacy

end Legacy

/-! ## The connectors -/

/-- The legacy side: the engine, and the time in a row's `changed_at` column. -/
structure PostgresEngine (R : Type) extends Engine R where
  changedAt : String → R → Option Timestamp

/-- `as_of`: is the legacy side compared as of a watermark? -/
def asOf (table : TableSpec) : Bool :=
  table.changedAt ≠ "" && table.watermark.isSome

section Postgres

variable {R : Type} (engine : PostgresEngine R) (md5 : Md5) (table : TableSpec)
  (rendered : RenderedTable R)

/-- `_after`: the row was changed after the watermark. A row that never recorded a change
was not. -/
def changedAfter (r : R) : Bool :=
  match table.watermark, engine.changedAt table.changedAt r with
  | some mark, some time => mark < time
  | _, _ => false

/-- `_relation`: the rows tonight compares. -/
def relation (rows : List R) : List R :=
  if asOf table then rows.filter fun r => !changedAfter engine table r else rows

/-- `PostgresConnector`, serving one pair: its database, and the hashed rows once prepared. -/
structure PostgresConnector (R : Type) where
  legacy : Legacy R
  prepared : Option (List HashRow)

namespace PostgresConnector

variable (connector : PostgresConnector R)

/-- `_hashes`: drop and create the temporary table, unless it is prepared. -/
def hashes : List HashRow × PostgresConnector R :=
  match connector.prepared with
  | some rows => (rows, connector)
  | none =>
    let legacy := connector.legacy.next.next
    let rows := (relation engine table legacy.rows).map (hashRow md5 rendered)
    (rows, ⟨legacy, some rows⟩)

def summarize (depth : ℕ) (parents : List ℕ) : List (ℕ × Summary) × PostgresConnector R :=
  let (rows, connector) := connector.hashes engine md5 table rendered
  (summaries postgresSum depth (inParents depth parents rows),
    { connector with legacy := connector.legacy.next })

def fetch (depth : ℕ) (buckets : List ℕ) :
    List (String × List String) × PostgresConnector R :=
  let legacy := connector.legacy.next
  let rows := (relation engine table legacy.rows).filter fun r =>
    segmentOf depth (bucketOf md5 (rendered.key r)) ∈ buckets
  (rows.map (canonicalRow rendered), { connector with legacy := legacy })

def countAfter : ℕ × PostgresConnector R :=
  if asOf table then
    let legacy := connector.legacy.next
    ((legacy.rows.filter (changedAfter engine table)).length, { connector with legacy := legacy })
  else (0, connector)

def keysAfter (depth : ℕ) (buckets : List ℕ) : List String × PostgresConnector R :=
  if asOf table then
    let legacy := connector.legacy.next
    let rows := legacy.rows.filter fun r => changedAfter engine table r &&
      segmentOf depth (bucketOf md5 (rendered.key r)) ∈ buckets
    (rows.map rendered.key, { connector with legacy := legacy })
  else ([], connector)

end PostgresConnector

end Postgres

section ClickHouse

variable {T : Type} (md5 : Md5) (rendered : RenderedTable T)

/-- `ClickHouseConnector`: the copy's rows, as its relation reads them. -/
structure ClickHouseConnector (T : Type) where
  rows : List T

namespace ClickHouseConnector

variable (connector : ClickHouseConnector T)

def summarize (depth : ℕ) (parents : List ℕ) : List (ℕ × Summary) :=
  summaries clickhouseSum depth (inParents depth parents (connector.rows.map (hashRow md5 rendered)))

def fetch (depth : ℕ) (buckets : List ℕ) : List (String × List String) :=
  (connector.rows.filter fun r =>
    segmentOf depth (bucketOf md5 (rendered.key r)) ∈ buckets).map (canonicalRow rendered)

end ClickHouseConnector

end ClickHouse

end PlatformOps.Reconcile
