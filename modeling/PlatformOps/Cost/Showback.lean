import PlatformOps.Cost.Attribution
import PlatformOps.Cost.Cluster
import PlatformOps.Cost.Pricing

/-!
# The Showback

What `gather` collects of a run's costs, and the showback table written from it: by
month, team, model, kind and actor, what each team pays. A query is charged to its
one team, or a dashboard refresh to its viewers' teams; storage to the tables' owners.
-/

namespace PlatformOps.Cost

open Listing Decimals Fallible Metadata

/-- What of the settings the costs depend on. -/
structure CostSettings where
  throughputBytesPerSecond : ℕ
  perQueryOverheadMs : ℕ
  clickhouse : StatedCost
  scan : ScanRates
  compute : ComputeRates

/-- `_estimated`: bytes read are spread over the tables, the remainder on the first. -/
def estimated (settings : CostSettings) (record : QueryRecord) : EstimatedQuery :=
  let read := record.bytesScanned.getD 0
  let tables := if record.tables = [] then [""] else record.tables
  let part := read / tables.length
  let extra := read % tables.length
  { queryId := record.queryId
    actorType := record.actorType
    startedAt := record.startedAt
    modeledMs := settings.perQueryOverheadMs + read * 1000 / settings.throughputBytesPerSecond
    -- what does not divide goes to the first table
    tableBytes := tables.mapIdx fun i _ => part + (if i = 0 then extra else 0) }

/-- One collected run, but for the dashboard views. -/
structure CollectedRun where
  settings : CostSettings
  records : List QueryRecord
  windowStart : Timestamp
  windowDays : ℕ
  owners : Owners
  /-- Each table's node, by `database.table`. -/
  relations : List (String × String)
  /-- Month, `database.table` and bytes, as the storage snapshots hold them. -/
  snapshots : List (Month × String × ℕ)

/-- `CostData`, as far as the showback reads it. -/
structure CostData where
  records : List QueryRecord
  costs : List (CostModel × List (String × ℚ))
  attributions : List (String × Attribution)
  /-- A dashboard refresh's viewers that month. -/
  viewers : List (String × List (String × ℕ))
  storage : List ((Month × String) × ℚ)
  storageOwner : List (String × (String × String))
  pools : List MonthPool

namespace CollectedRun

variable (run : CollectedRun)

def billable : List QueryRecord :=
  run.records.filter fun r => r.billable

def estimates : List EstimatedQuery :=
  run.billable.map (estimated run.settings)

/-- `gather`: what the showback reads of it. -/
def gather (views : List View) : Except String CostData := do
  let scan ← run.settings.scan.price run.estimates
  let compute ← run.settings.compute.price run.estimates
  let monthPools ← pools run.settings.clickhouse (windowMonths run.windowStart run.windowDays)
  let byMonth := dictOf (monthPools.map fun p => (p.month, p))
  let cluster ← computeShares byMonth
    (run.billable.map fun r => (r.queryId, monthOf r.startedAt, r.bytesScanned.getD 0))
  let storage ← storageShares byMonth run.snapshots
  return {
    records := run.records
    costs := [(.cluster, cluster), (.scan, dictOf (scan.map fun p => (p.queryId, p.usd))),
      (.compute, dictOf (compute.map fun p => (p.queryId, p.usd)))]
    attributions := attributed run.records run.owners
    viewers := viewerWeights run.records views run.owners.registry
    storage := storage
    storageOwner := dictOf (storage.map fun s =>
      (s.1.2, run.owners.of (run.relations.lookup s.1.2)))
    pools := monthPools }

end CollectedRun

/-- Who a row of the showback is about: the actor of a query, or the storage. -/
inductive Payer
  | actor (kind : ActorType)
  | storage
deriving DecidableEq, Repr

structure ShowbackKey where
  month : Month
  team : String
  model : CostModel
  costKind : CostKind
  payer : Payer
deriving DecidableEq, Repr

/-- `d[key]`. -/
def item {A : Type} (d : List (String × A)) (key : String) : Except String A :=
  match d.lookup key with
  | some value => .ok value
  | none => .error key

namespace CostData

variable (data : CostData)

/-- `by_id`. -/
def byId : List (String × QueryRecord) :=
  dictOf (data.records.map fun r => (r.queryId, r))

/-- `CostData.shares`: who pays for a query, its viewers by views, else its one team. -/
def shares (queryId : String) (usd : ℚ) : Except String (List (String × ℚ)) :=
  match (data.viewers.lookup queryId).getD [] with
  -- no viewers, or not a dashboard: the whole to one team
  | [] => do
    let a ← item data.attributions queryId
    return [(a.team, usd)]
  | weights => split usd weights

/-- Each query's cost in each model. -/
def charges : List (CostModel × String × ℚ) :=
  data.costs.flatMap fun costs => costs.2.map fun cost => (costs.1, cost)

/-- What one query's cost adds to the showback. -/
def queryParts (charge : CostModel × String × ℚ) : Except String (List (ShowbackKey × ℚ)) := do
  let (model, queryId, usd) := charge
  let record ← item data.byId queryId
  let a ← item data.attributions queryId
  let parts ← data.shares queryId usd
  return parts.map fun part =>
    -- billed in the month of the query, whatever its cost model
    (⟨monthOf record.startedAt, part.1, model, a.costKind, .actor record.actorType⟩, part.2)

/-- What one table's storage adds to the showback. -/
def storagePart (cost : (Month × String) × ℚ) : Except String (ShowbackKey × ℚ) := do
  let owner ← item data.storageOwner cost.1.2
  return (⟨cost.1.1, owner.1, .cluster, .storage, .storage⟩, cost.2)

/-- The amounts added to the showback, in order. -/
def parts : Except String (List (ShowbackKey × ℚ)) := do
  let queries ← data.charges.mapM data.queryParts
  let storage ← data.storage.mapM data.storagePart
  return queries.flatten ++ storage

/-- `_persist`: the showback, each cell the amounts added to it. -/
def showback : Except String (List (ShowbackKey × ℚ)) := do
  let parts ← data.parts
  return (groupBy Prod.fst parts).map fun cell => (cell.1, sumUsd (cell.2.map Prod.snd))

end CostData

/-- The cells of some keys, added up. -/
def billed (p : ShowbackKey → Bool) (showback : List (ShowbackKey × ℚ)) : ℚ :=
  ((showback.filter fun cell => p cell.1).map Prod.snd).sum

/-! ## What the cells add up to -/

section Cells

variable {parts : List (ShowbackKey × ℚ)}

/-- The amounts under some keys. -/
def amountsOf (p : ShowbackKey → Bool) (parts : List (ShowbackKey × ℚ)) : List ℚ :=
  (parts.filter fun part => p part.1).map Prod.snd

theorem amountsOf_append (p : ShowbackKey → Bool) (parts more : List (ShowbackKey × ℚ)) :
    amountsOf p (parts ++ more) = amountsOf p parts ++ amountsOf p more := by
  simp [amountsOf]

/-- Amounts that are never under a key. -/
theorem amountsOf_eq_nil {p : ShowbackKey → Bool} (h : ∀ part ∈ parts, p part.1 = false) :
    amountsOf p parts = [] := by
  unfold amountsOf
  rw [List.map_eq_nil_iff, List.filter_eq_nil_iff]
  intro part hpart
  rw [h part hpart]
  decide

/-- Fewer keys, smaller amounts. -/
theorem size_amountsOf_le {p q : ShowbackKey → Bool}
    (h : ∀ part ∈ parts, p part.1 = true → q part.1 = true) :
    size (amountsOf p parts) ≤ size (amountsOf q parts) := by
  apply size_le_of_sublist
  apply List.Sublist.map
  have hfilter : parts.filter (fun part => p part.1) =
      (parts.filter fun part => q part.1).filter fun part => p part.1 := by
    rw [List.filter_filter]
    refine List.filter_congr fun part hpart => ?_
    cases hp : p part.1 with
    | false => rfl
    | true => rw [h part hpart hp]; rfl
  rw [hfilter]
  exact List.filter_sublist

/-- **The cells add up to the amounts**, if no cell's amounts add up to `10 ^ 16` dollars. -/
theorem billed_cells (hkept : ∀ part ∈ parts, Kept part.2)
    (hsize : ∀ key, size (amountsOf (fun k => k = key) parts) < 10 ^ 16) (p : ShowbackKey → Bool) :
    billed p ((groupBy Prod.fst parts).map fun cell => (cell.1, sumUsd (cell.2.map Prod.snd))) =
      (amountsOf p parts).sum := by
  -- A cell's sum is exact.
  have hcell : ∀ cell ∈ groupBy Prod.fst parts,
      sumUsd (cell.2.map Prod.snd) = (cell.2.map Prod.snd).sum := by
    intro cell hmem
    rw [of_mem_groupBy hmem]
    apply sumUsd_eq
    · intro a ha
      obtain ⟨part, hpart, rfl⟩ := List.mem_map.mp ha
      exact hkept part (List.mem_of_mem_filter hpart)
    · exact hsize cell.1
  -- The cells of the keys hold the parts under them.
  have hcells : (((groupBy Prod.fst parts).filter fun cell => p cell.1).flatMap Prod.snd).Perm
      (parts.filter fun part => p part.1) := by
    have hkeep : ∀ cell ∈ groupBy Prod.fst parts, cell.2.filter (fun part => p part.1) =
        if p cell.1 then cell.2 else [] := by
      intro cell hmem
      have hkey : ∀ part ∈ cell.2, part.1 = cell.1 := by
        intro part hpart
        rw [of_mem_groupBy hmem] at hpart
        exact of_decide_eq_true (List.mem_filter.mp hpart).2
      split
      · rename_i hp
        refine List.filter_eq_self.mpr fun part hpart => ?_
        rw [hkey part hpart]
        exact hp
      · rename_i hp
        refine List.filter_eq_nil_iff.mpr fun part hpart => ?_
        rw [hkey part hpart]
        exact hp
    have hperm := (flatMap_groupBy_perm Prod.fst parts).filter fun part => p part.1
    rw [List.filter_flatMap, List.flatMap_congr hkeep] at hperm
    refine List.Perm.trans (List.Perm.of_eq ?_) hperm
    induction groupBy Prod.fst parts with
    | nil => rfl
    | cons cell rest ih =>
      rw [List.filter_cons, List.flatMap_cons]
      split
      · rename_i hp
        rw [List.flatMap_cons, ih]
      · rw [ih, List.nil_append]
  unfold billed
  rw [List.filter_map, List.map_map]
  have hsums : (((groupBy Prod.fst parts).filter fun cell => p cell.1).map fun cell =>
      sumUsd (cell.2.map Prod.snd)).sum =
        ((((groupBy Prod.fst parts).filter fun cell => p cell.1).flatMap Prod.snd).map
          Prod.snd).sum := by
    rw [List.map_congr_left fun cell hmem => hcell cell (List.mem_of_mem_filter hmem),
      List.map_flatMap, List.flatMap_def, List.sum_flatten, List.map_map]
    rfl
  exact hsums.trans (hcells.map Prod.snd).sum_eq

end Cells

end PlatformOps.Cost
