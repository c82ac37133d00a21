import PlatformOps.Cost.Money
import PlatformOps.Cost.Records

/-!
# Pricing

Two pricing models turn what queries did into money. On demand, a query pays for the
bytes it scanned, with a minimum for each table. By compute time, queries queue on
their workload's warehouse, and a burst, one stretch of time a warehouse was running,
is paid by its queries in proportion to their modelled duration.

Each query is priced once, by an amount kept at 12 decimals that is not negative.
-/

namespace PlatformOps.Cost

open Listing Decimals Fallible

structure EstimatedQuery where
  queryId : String
  actorType : ActorType
  startedAt : Timestamp
  modeledMs : ℕ
  tableBytes : List ℕ
deriving DecidableEq, Repr

structure PricedQuery where
  queryId : String
  model : CostModel
  usd : ℚ
  billedBytes : ℕ := 0
  billedMs : ℤ := 0
  warehouse : Option String := none
  burst : Option String := none
deriving DecidableEq, Repr

/-- `TIB`. -/
def tib : ℕ := 2 ^ 40

/-! ## On demand -/

structure ScanRates where
  usdPerTib : ℚ
  minimumBilledBytesPerTable : ℕ
  positive : 0 < usdPerTib

namespace ScanRates

variable (rates : ScanRates)

/-- `ScanPricing.billed_bytes`. -/
def billedBytes (query : EstimatedQuery) : ℕ :=
  (query.tableBytes.map fun bytes => max bytes rates.minimumBilledBytesPerTable).sum

/-- What one query pays. -/
def priceOf (query : EstimatedQuery) : Except String PricedQuery := do
  let billed := rates.billedBytes query
  let usd ← toMicro (dividedBy (times billed rates.usdPerTib) tib)
  return { queryId := query.queryId, model := .scan, usd := usd, billedBytes := billed }

/-- `ScanPricing.price`. -/
def price (queries : List EstimatedQuery) : Except String (List PricedQuery) :=
  (sortBy EstimatedQuery.queryId queries).mapM rates.priceOf

end ScanRates

/-! ## By compute time -/

structure ComputeRates where
  usdPerCredit : ℚ
  creditsPerHour : ℚ
  minimumBilledSeconds : ℕ
  idleTimeoutSeconds : ℕ
  /-- Every workload has a warehouse. -/
  warehouses : ActorType → String
  positive : 0 < usdPerCredit ∧ 0 < creditsPerHour

/-- One stretch of time a warehouse was running. -/
structure Burst where
  warehouse : String
  startedMs : ℤ
  lastEndMs : ℤ
  /-- Each query's id and modelled milliseconds. -/
  queries : List (String × ℕ)
deriving DecidableEq, Repr

/-- `_ms`: milliseconds since the epoch. -/
def ms (moment : Timestamp) : ℤ := moment / 1000

/-- A warehouse while its queries are laid out. -/
structure Layout where
  bursts : List Burst := []
  current : List (String × ℕ) := []
  burstStart : ℤ := 0
  lastEnd : ℤ := 0

namespace Layout

variable (warehouse : String) (idleMs : ℤ) (layout : Layout)

/-- The current burst ends. -/
def cut : Layout :=
  { layout with
    bursts := layout.bursts ++
      [⟨warehouse, layout.burstStart, layout.lastEnd, layout.current⟩]
    current := [] }

/-- A burst starts at that time. -/
def start (submitted : ℤ) : Layout :=
  { layout with burstStart := submitted, lastEnd := submitted }

/-- One query at a time: it runs when it is submitted and the one before it has ended. -/
def run (submitted : ℤ) (query : EstimatedQuery) : Layout :=
  { layout with
    lastEnd := max submitted layout.lastEnd + query.modeledMs
    current := layout.current ++ [(query.queryId, query.modeledMs)] }

/-- One query is laid out: a warehouse that was idle for the timeout has stopped. -/
def add (query : EstimatedQuery) : Layout :=
  let submitted := ms query.startedAt
  -- submitted after the idle tail: the warehouse had stopped
  let layout := if layout.current ≠ [] ∧ submitted > layout.lastEnd + idleMs then
    layout.cut warehouse else layout
  let layout := if layout.current = [] then layout.start submitted else layout
  layout.run submitted query

/-- The bursts once every query is laid out. -/
def close : List Burst :=
  -- no query, no burst
  if layout.current = [] then layout.bursts else (layout.cut warehouse).bursts

/-- The queries laid out so far. -/
def queries : List (String × ℕ) :=
  layout.bursts.flatMap Burst.queries ++ layout.current

end Layout

namespace ComputeRates

variable (rates : ComputeRates)

/-- The bursts of one warehouse. -/
def burstsOf (warehouse : String) (queries : List EstimatedQuery) : List Burst :=
  ((sortBy (fun q : EstimatedQuery => toLex (q.startedAt, q.queryId)) queries).foldl
    (Layout.add warehouse (rates.idleTimeoutSeconds * 1000)) {}).close warehouse

/-- `ComputePricing.bursts`. -/
def bursts (queries : List EstimatedQuery) : List Burst :=
  -- one layout for each warehouse, in the order of their names
  (sortBy Prod.fst (groupBy (fun q => rates.warehouses q.actorType) queries)).flatMap fun group =>
    rates.burstsOf group.1 group.2

/-- `ComputePricing.burst_seconds`: running time plus the idle tail, at least the minimum. -/
def burstSeconds (burst : Burst) : ℤ :=
  let runningMs := burst.lastEndMs - burst.startedMs + rates.idleTimeoutSeconds * 1000
  -- seconds are billed whole, rounded up
  max rates.minimumBilledSeconds (-(-runningMs / 1000))

def perSecond : ℚ :=
  dividedBy (times rates.creditsPerHour rates.usdPerCredit) 3600

/-- What one query of a burst pays. -/
def priceOf (burst : Burst) (query : String × ℕ) : Except String PricedQuery := do
  let seconds := rates.burstSeconds burst
  let cost := times seconds rates.perSecond
  let totalMs := (burst.queries.map Prod.snd).sum
  let share := if totalMs = 0 then 0 else dividedBy (times cost query.2) totalMs
  let usd ← toMicro share
  return {
    queryId := query.1
    model := .compute
    usd := usd
    billedMs := if totalMs = 0 then 0 else seconds * 1000 * query.2 / totalMs
    warehouse := some burst.warehouse
    burst := some (burst.warehouse ++ "@" ++ toString burst.startedMs) }

/-- `ComputePricing.price`. -/
def price (queries : List EstimatedQuery) : Except String (List PricedQuery) := do
  let priced ← (rates.bursts queries).mapM fun burst => burst.queries.mapM (rates.priceOf burst)
  return sortBy PricedQuery.queryId priced.flatten

end ComputeRates

/-! ## Each query is priced once -/

/-- What a pricing model returns: a price for each query, kept at 12 decimals and not negative. -/
structure Priced (queries : List EstimatedQuery) (priced : List PricedQuery) : Prop where
  ids : (priced.map PricedQuery.queryId).Perm (queries.map EstimatedQuery.queryId)
  kept : ∀ p ∈ priced, Kept p.usd
  nonneg : ∀ p ∈ priced, 0 ≤ p.usd

/-- **On demand each query is priced once.** -/
theorem ScanRates.price_spec (rates : ScanRates) {queries : List EstimatedQuery}
    {priced : List PricedQuery} (h : rates.price queries = .ok priced) : Priced queries priced := by
  have hone : ∀ query p, rates.priceOf query = .ok p →
      p.queryId = query.queryId ∧ Kept p.usd ∧ 0 ≤ p.usd := by
    intro query p hp
    obtain ⟨usd, husd, hpure⟩ := bind_eq_ok.mp hp
    obtain rfl := pure_eq_ok.mp hpure
    have hpaid : 0 ≤ dividedBy (times (rates.billedBytes query) rates.usdPerTib) tib :=
      dividedBy_nonneg (times_nonneg (Nat.cast_nonneg _) rates.positive.le) (Nat.cast_nonneg _)
    exact ⟨rfl, toMicro_spec husd hpaid⟩
  have hids : priced.map PricedQuery.queryId =
      (sortBy EstimatedQuery.queryId queries).map EstimatedQuery.queryId :=
    map_eq_of_mapM_eq_ok _ _ h fun query p hp => (hone query p hp).1
  constructor
  · rw [hids]
    exact (perm_sortBy _ _).map _
  · intro p hp
    obtain ⟨query, -, hquery⟩ := exists_preimage_of_mem h hp
    exact (hone query p hquery).2.1
  · intro p hp
    obtain ⟨query, -, hquery⟩ := exists_preimage_of_mem h hp
    exact (hone query p hquery).2.2

@[simp] theorem Layout.queries_cut (warehouse : String) (layout : Layout) :
    (layout.cut warehouse).queries = layout.queries := by
  simp [cut, queries]

@[simp] theorem Layout.queries_start (submitted : ℤ) (layout : Layout) :
    (layout.start submitted).queries = layout.queries := rfl

@[simp] theorem Layout.queries_run (submitted : ℤ) (layout : Layout) (query : EstimatedQuery) :
    (layout.run submitted query).queries = layout.queries ++ [(query.queryId, query.modeledMs)] := by
  simp [run, queries]

/-- Laying out a query adds it, and keeps the others. -/
theorem Layout.queries_add (warehouse : String) (idleMs : ℤ) (layout : Layout)
    (query : EstimatedQuery) :
    (layout.add warehouse idleMs query).queries =
      layout.queries ++ [(query.queryId, query.modeledMs)] := by
  simp only [add, queries_run, apply_ite Layout.queries, queries_start, queries_cut, ite_self]

theorem Layout.queries_close (warehouse : String) (layout : Layout) :
    (layout.close warehouse).flatMap Burst.queries = layout.queries := by
  unfold close
  split
  · rename_i hnone
    simp [queries, hnone]
  · simp [queries, cut]

/-- The bursts of a warehouse hold its queries, in the order they are laid out. -/
theorem ComputeRates.queries_burstsOf (rates : ComputeRates) (warehouse : String)
    (queries : List EstimatedQuery) :
    ((rates.burstsOf warehouse queries).flatMap Burst.queries).Perm
      (queries.map fun q => (q.queryId, q.modeledMs)) := by
  have hfold : ∀ (l : List EstimatedQuery) (layout : Layout),
      (l.foldl (Layout.add warehouse (rates.idleTimeoutSeconds * 1000)) layout).queries =
        layout.queries ++ l.map fun q => (q.queryId, q.modeledMs) := by
    intro l
    induction l with
    | nil => simp
    | cons query rest ih =>
      intro layout
      rw [List.foldl_cons, ih, Layout.queries_add, List.map_cons, List.append_assoc]
      rfl
  unfold burstsOf
  rw [Layout.queries_close, hfold]
  exact (perm_sortBy _ _).map _

/-- Every query is in one burst. -/
theorem ComputeRates.queries_bursts (rates : ComputeRates) (queries : List EstimatedQuery) :
    ((rates.bursts queries).flatMap Burst.queries).Perm
      (queries.map fun q => (q.queryId, q.modeledMs)) := by
  have hgroups : ((sortBy Prod.fst
      (groupBy (fun q => rates.warehouses q.actorType) queries)).flatMap Prod.snd).Perm queries :=
    ((perm_sortBy _ _).flatMap_right _).trans (flatMap_groupBy_perm _ _)
  unfold bursts
  rw [List.flatMap_assoc]
  refine List.Perm.trans ?_ (hgroups.map _)
  rw [List.map_flatMap]
  exact List.Perm.flatMap_left _ fun group _ => rates.queries_burstsOf group.1 group.2

/-- **By compute time each query is priced once.** -/
theorem ComputeRates.price_spec (rates : ComputeRates) {queries : List EstimatedQuery}
    {priced : List PricedQuery} (h : rates.price queries = .ok priced) : Priced queries priced := by
  obtain ⟨parts, hparts, hpure⟩ := bind_eq_ok.mp h
  obtain rfl := pure_eq_ok.mp hpure
  have hone : ∀ burst query p, rates.priceOf burst query = .ok p →
      p.queryId = query.1 ∧ Kept p.usd ∧ 0 ≤ p.usd := by
    intro burst query p hp
    obtain ⟨usd, husd, hpure⟩ := bind_eq_ok.mp hp
    obtain rfl := pure_eq_ok.mp hpure
    have hseconds : (0 : ℤ) ≤ rates.burstSeconds burst :=
      le_max_of_le_left (Int.natCast_nonneg _)
    have hcost : 0 ≤ times (rates.burstSeconds burst) rates.perSecond :=
      times_nonneg (by exact_mod_cast hseconds)
        (dividedBy_nonneg (times_nonneg rates.positive.2.le rates.positive.1.le) (by norm_num))
    refine ⟨rfl, toMicro_spec husd ?_⟩
    split
    · exact le_rfl
    · exact dividedBy_nonneg (times_nonneg hcost (Nat.cast_nonneg _)) (Nat.cast_nonneg _)
  have hids : parts.flatten.map PricedQuery.queryId =
      ((rates.bursts queries).flatMap Burst.queries).map Prod.fst := by
    have hmap := map_eq_of_mapM_eq_ok (fun burst : Burst => burst.queries.map Prod.fst)
      (fun part : List PricedQuery => part.map PricedQuery.queryId) hparts fun burst part hpart =>
        map_eq_of_mapM_eq_ok _ _ hpart fun query p hp => (hone burst query p hp).1
    rw [List.map_flatten, hmap, List.map_flatMap, List.flatMap_def]
  have hmem : ∀ p ∈ sortBy PricedQuery.queryId parts.flatten, Kept p.usd ∧ 0 ≤ p.usd := by
    intro p hp
    obtain ⟨part, hpart, hp⟩ := List.mem_flatten.mp (mem_sortBy.mp hp)
    obtain ⟨burst, -, hburst⟩ := exists_preimage_of_mem hparts hpart
    obtain ⟨query, -, hquery⟩ := exists_preimage_of_mem hburst hp
    exact (hone burst query p hquery).2
  constructor
  · refine ((perm_sortBy _ _).map _).trans ?_
    rw [hids]
    have hqueries := (rates.queries_bursts queries).map Prod.fst
    rwa [List.map_map] at hqueries
  · exact fun p hp => (hmem p hp).1
  · exact fun p hp => (hmem p hp).2

end PlatformOps.Cost
