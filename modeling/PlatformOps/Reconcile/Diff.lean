import PlatformOps.Reconcile.Connectors

/-!
# The Segmented Diff

Both sides are split into segments by the MD5 of each row's canonical key. Only
segments whose summaries differ are split again, down to the depth at which a
segment holds about `leafWidth` rows; only the rows of differing leaves are
fetched and compared, key by key. A key found more than once on either side is a
duplicate. A key only the copy has is in flight if its legacy row changed after
the watermark, and extra otherwise.
-/

namespace PlatformOps.Reconcile

open Listing

def fanout : ℕ := 16
def maxDepth : ℕ := 8

structure CellDiff where
  key : String
  column : String
  source : String
  target : String
deriving DecidableEq, Repr

structure DuplicateKey where
  key : String
  source : ℕ
  target : ℕ
deriving DecidableEq, Repr

structure TableDiff where
  table : String
  sourceRows : ℕ := 0
  targetRows : ℕ := 0
  missing : List String := []
  extra : List String := []
  cells : List CellDiff := []
  duplicates : List DuplicateKey := []
  /-- Keys only the copy has whose legacy row changed after the watermark. -/
  inFlight : List String := []
  /-- Legacy rows changed after the watermark, left for the next night. -/
  afterWatermark : ℕ := 0
  /-- Depth, segments compared, segments differing, per level. -/
  levels : List (ℕ × ℕ × ℕ) := []
  summaryRows : ℕ := 0
  fetchedRows : ℕ := 0
  queries : ℕ := 0
deriving DecidableEq, Repr

/-- `TableDiff.clean`. -/
def TableDiff.clean (d : TableDiff) : Bool :=
  d.missing.isEmpty && d.extra.isEmpty && d.cells.isEmpty && d.duplicates.isEmpty

/-- `leaf_depth`. `ceilLog rows width` stands for `math.ceil(math.log(rows / width, 16))`, a
computation in floating point. -/
def leafDepth (ceilLog : ℕ → ℕ → ℤ) (rows leafWidth : ℕ) : ℕ :=
  if rows ≤ leafWidth then 1 else min maxDepth (max 1 (ceilLog rows leafWidth)).toNat

/-- `_differing`. -/
def differing (source target : List (ℕ × Summary)) : List ℕ :=
  sortedSet ((source.map Prod.fst ++ target.map Prod.fst).filter fun b =>
    source.lookup b ≠ target.lookup b)

/-- `_by_key`: a key's rows, every copy kept. -/
def byKey (rows : List (String × List String)) : List (String × List (List String)) :=
  (groupBy Prod.fst rows).map fun group => (group.1, group.2.map Prod.snd)

/-- What one round of the descent leaves: the connector, the depth it reached, the
segments that differ there, and the tally so far. -/
structure Descent (R : Type) where
  connector : PostgresConnector R
  depth : ℕ
  differing : List ℕ
  levels : List (ℕ × ℕ × ℕ)
  summaryRows : ℕ
  queries : ℕ

section Diff

variable {R T : Type} (engine : PostgresEngine R) (md5 : Md5) (table : TableSpec)
  (renderedSource : RenderedTable R) (renderedTarget : RenderedTable T)
  (target : ClickHouseConnector T)

/-- One round of the loop: both sides' summaries of the children of `parents`. -/
def round (connector : PostgresConnector R) (depth : ℕ) (parents : List ℕ)
    (levels : List (ℕ × ℕ × ℕ)) (summaryRows queries : ℕ) :
    List (ℕ × Summary) × List (ℕ × Summary) × Descent R :=
  let (left, connector) := connector.summarize engine md5 table renderedSource depth parents
  let right := target.summarize md5 renderedTarget depth parents
  let found := differing left right
  let segments := (sortedSet (left.map Prod.fst ++ right.map Prod.fst)).length
  (left, right,
    { connector := connector
      depth := depth
      differing := found
      levels := levels ++ [(depth, segments, found.length)]
      summaryRows := summaryRows + (left.length + right.length)
      queries := queries + 2 })

/-- The rest of the loop, `left` levels from its last: split what differs, until nothing does. -/
def descend : ℕ → Descent R → Descent R
  | 0, d => d
  | left + 1, d =>
    if d.differing = [] then d
    else descend left (round engine md5 table renderedSource renderedTarget target d.connector
      (d.depth + 1) d.differing d.levels d.summaryRows d.queries).2.2

/-- The cells of one key that differ. -/
def cellDiffs (names : List String) (key : String) (a b : List String) : List CellDiff :=
  (names.zip (a.zip b)).filterMap fun cell =>
    if cell.2.1 ≠ cell.2.2 then some ⟨key, cell.1, cell.2.1, cell.2.2⟩ else none

/-- What the comparison of one key adds to the result. -/
def compareKey (names : List String) (changed : List String) (result : TableDiff) (key : String)
    (a b : List (List String)) : TableDiff :=
  -- a key held twice is reported as such, and its cells are not compared
  if 1 < a.length ∨ 1 < b.length then
    { result with duplicates := result.duplicates ++ [⟨key, a.length, b.length⟩] }
  else
    match a, b with
    | _, [] => { result with missing := result.missing ++ [key] }
    | [], _ =>
      -- its legacy row changed after the watermark: in flight, not extra
      if key ∈ changed then { result with inFlight := result.inFlight ++ [key] }
      else { result with extra := result.extra ++ [key] }
    | x :: _, y :: _ =>
      if x ≠ y then { result with cells := result.cells ++ cellDiffs names key x y } else result

/-- Compare the rows of the differing leaves, key by key. -/
def compareLeaves (names : List String) (changed : List String)
    (sourceByKey targetByKey : List (String × List (List String))) (result : TableDiff) :
    TableDiff :=
  (sortedSet (sourceByKey.map Prod.fst ++ targetByKey.map Prod.fst)).foldl (fun result key =>
    compareKey names changed result key ((sourceByKey.lookup key).getD [])
      ((targetByKey.lookup key).getD [])) result

/-- The end of `diff_table`: fetch the differing leaves and compare them. -/
def diffLeaves (d : Descent R) (result : TableDiff) : TableDiff × PostgresConnector R :=
  let (leftRows, connector) :=
    d.connector.fetch engine md5 table renderedSource d.depth d.differing
  let rightRows := target.fetch md5 renderedTarget d.depth d.differing
  let sourceByKey := byKey leftRows
  let targetByKey := byKey rightRows
  let result := { result with
    queries := result.queries + 2
    fetchedRows := leftRows.length + rightRows.length }
  let onlyTarget := (targetByKey.map Prod.fst).filter (· ∉ sourceByKey.map Prod.fst)
  let (changed, result, connector) :=
    -- asked only when the copy alone has a key and legacy rows changed late
    if result.afterWatermark ≠ 0 ∧ onlyTarget ≠ [] then
      let (keys, connector) :=
        connector.keysAfter engine md5 table renderedSource d.depth d.differing
      let changed := sortedSet keys
      (changed,
        { result with
          queries := result.queries + 1
          fetchedRows := result.fetchedRows + changed.length },
        connector)
    else ([], result, connector)
  (compareLeaves (table.valueColumns.map Column.name) changed sourceByKey targetByKey result,
    connector)

end Diff

/-- `diff_table`; the error is a column without a rule, or a key column that is none. -/
def diffTable {R T : Type} (sourceEngine : PostgresEngine R) (targetEngine : Engine T) (md5 : Md5)
    (ceilLog : ℕ → ℕ → ℤ) (table : TableSpec) (rules : List (String × Rule)) (leafWidth : ℕ)
    (source : PostgresConnector R) (target : ClickHouseConnector T) :
    Except String (TableDiff × PostgresConnector R) := do
  let (afterWatermark, source) := source.countAfter sourceEngine table
  let renderedSource ← render sourceEngine.toEngine table rules
  let renderedTarget ← render targetEngine table rules
  let (left, right, first) :=
    round sourceEngine md5 table renderedSource renderedTarget target source 1 [] [] 0 0
  let sourceRows := (left.map fun entry => entry.2.rows).sum
  let targetRows := (right.map fun entry => entry.2.rows).sum
  -- the depth at which a segment should hold a leaf's rows
  let last := leafDepth ceilLog (max sourceRows targetRows) leafWidth
  let d := descend sourceEngine md5 table renderedSource renderedTarget target (last - 1) first
  let result : TableDiff :=
    { table := table.name, sourceRows := sourceRows, targetRows := targetRows,
      afterWatermark := afterWatermark, levels := d.levels, summaryRows := d.summaryRows,
      queries := d.queries }
  -- equal summaries all along: no row is fetched
  return if d.differing = [] then (result, d.connector)
    else diffLeaves sourceEngine md5 table renderedSource renderedTarget target d result

end PlatformOps.Reconcile
