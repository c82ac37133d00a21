import PlatformOps.Library.Listing
import PlatformOps.Reconcile.Metrics
import PlatformOps.Simulation.Ingestion

/-!
# What Breaks, and When

The faults that happen in production, in raw data on ClickHouse, and the one-off
faults of the parallel run, which are repaired the next day. Both come from a
catalogue, in its order; the timeline says on which day of the window each one
happens, when the parallel run and production start, and when the fixed job ships.
-/

namespace PlatformOps.Simulation

open Listing Reconcile

/-- A table's name, as the statements and the lineage write it. -/
def Table.text : Table → String
  | .customers => "customers"
  | .products => "products"
  | .orders => "orders"
  | .orderItems => "order_items"
  | .payments => "payments"
  | .webSessions => "web_sessions"
  | .marketingCampaigns => "marketing_campaigns"
  | .marketingSpend => "marketing_spend"
  | .supportTickets => "support_tickets"

theorem Table.text_injective : Function.Injective Table.text := by
  intro t t'
  cases t <;> cases t' <;> decide

/-! ## Faults in production -/

inductive FaultType
  | nullSpike | invalidCategory | orphanKeys | staleSource | schemaDrop | schemaRename
  | volumeDrop | loaderNulls
deriving DecidableEq, Repr

structure Fault where
  faultId : String
  faultType : FaultType
  table : Table
  column : Option String
  badValue : Option String
  expectedCheck : String
deriving DecidableEq, Repr

/-- `STOPS_LOADER`: a stale feed, and a raw table whose columns changed. -/
def Fault.stopsLoader (f : Fault) : Bool :=
  f.faultType ∈ [FaultType.staleSource, .schemaDrop, .schemaRename]

/-- `LOADS_NULLS`: the loader writes the column as `NULL` until the fix. -/
def Fault.loadsNulls (f : Fault) : Bool :=
  f.faultType ∈ [FaultType.loaderNulls]

/-- `faults.CATALOGUE`. -/
def catalogue : List Fault :=
  [⟨"F1", .nullSpike, .orders, some "customer_id", none, "not_null on stg_orders.customer_id"⟩,
    ⟨"F2", .invalidCategory, .supportTickets, some "priority", some "p0",
      "accepted_values on stg_support_tickets.priority"⟩,
    ⟨"F3", .orphanKeys, .payments, none, none,
      "relationships from stg_payments.order_id to stg_orders"⟩,
    ⟨"F4", .staleSource, .webSessions, none, none, "source freshness on raw.web_sessions"⟩,
    ⟨"F5", .schemaDrop, .marketingSpend, some "clicks", none,
      "model error on stg_marketing_spend"⟩,
    ⟨"F6", .volumeDrop, .orders, none, none, "row_count_in_range on stg_orders"⟩,
    ⟨"F7", .schemaRename, .marketingCampaigns, some "channel", none,
      "model error on stg_marketing_campaigns"⟩,
    ⟨"F8", .invalidCategory, .payments, some "status", some "chargeback",
      "accepted_values on stg_payments.payment_status"⟩,
    -- a column that no dbt test checks
    ⟨"F9", .loaderNulls, .webSessions, some "device", none,
      "column_profile on raw.web_sessions (device NULLs)"⟩]

/-- `faults.schedule`: two faults a listed day, in the catalogue's order; a day too late
to be caught and fixed inside the window is dropped. -/
def schedule (faultDays : List ℕ) (productionDays : ℕ) : List (ℕ × List Fault) :=
  dictOf (faultDays.zipIdx.filterMap fun (day, n) =>
    let pair := (catalogue.drop (2 * n)).take 2
    if pair ≠ [] ∧ day + 1 < productionDays then some (day, pair) else none)

/-! ## One-off faults of the parallel run -/

structure OneOffFault where
  faultId : String
  table : Table
  klass : DiscrepancyClass
  column : String
  rows : ℕ
  /-- The new value, in ClickHouse. -/
  change : String
  label : String
deriving DecidableEq, Repr

/-- `migration.CATALOGUE`. -/
def oneOffCatalogue : List OneOffFault :=
  [⟨"M1", .orders, .extraInTarget, "", 5, "", "M1 invented orders"⟩,
    ⟨"M2", .customers, .missingInTarget, "", 6, "", "M2 customers deleted"⟩,
    ⟨"M3", .payments, .valueMismatch, "payment_method", 8, "'crypto'",
      "M3 payment method overwritten"⟩,
    ⟨"M4", .customers, .caseOnly, "email", 8, "upper(\x7bc\x7d)", "M4 emails upper-cased"⟩,
    ⟨"M5", .products, .whitespace, "product_name", 6, "concat(\x7bc\x7d, ' ')",
      "M5 product names padded"⟩,
    -- neither a rounding nor a time zone: the comparison must not excuse them
    ⟨"M6", .payments, .valueMismatch, "amount", 6, "\x7bc\x7d + 0.01", "M6 amounts off by a cent"⟩,
    ⟨"M7", .supportTickets, .valueMismatch, "created_at", 5, "\x7bc\x7d + INTERVAL 2 HOUR",
      "M7 ticket times shifted"⟩]

/-- The loop of `fault_nights` over the faults that are left. -/
def nightsFrom (lastNight : ℕ) : ℕ → List OneOffFault → List (ℕ × OneOffFault)
  | _, [] => []
  | night, fault :: rest =>
    if lastNight ≤ night then [] else (night, fault) :: nightsFrom lastNight (night + 2) rest

/-- `fault_nights`: every other night, and none on the last night of the window. -/
def faultNights (firstNight lastNight : ℕ) : List (ℕ × OneOffFault) :=
  nightsFrom lastNight firstNight oneOffCatalogue

/-- A planted one-off fault, and the keys of the rows it hit. -/
structure Planted where
  fault : OneOffFault
  keys : List ℤ
deriving DecidableEq, Repr

/-- `Planted.truth`: one cell a row, or one whole row. -/
def Planted.truth (p : Planted) : List TruthCell :=
  (sortBy id p.keys).map fun key =>
    ⟨p.fault.table.text, toString key, p.fault.column, p.fault.klass, "injected", p.fault.label⟩

/-! ## The timeline -/

/-- What of the settings decides when things happen. -/
structure CompanySettings where
  /-- `simulation.start`. -/
  start : Timestamp
  dailyRunHour : ℕ
  buildEveryDays : ℕ
  parallelRunWeeks : ℕ
  productionWeeks : ℕ
  fixAfterNights : ℕ
  writesAfterIngestMinutes : ℕ
  faultDays : List ℕ
  faultHour : ℕ
  dailyRunHour_le : dailyRunHour ≤ 23
  faultHour_le : faultHour ≤ 23
  one_le_buildEveryDays : 1 ≤ buildEveryDays
  one_le_fixAfterNights : 1 ≤ fixAfterNights

/-- `Timeline`: dictionaries from the index of a day. -/
structure Timeline where
  parallelStart : ℕ
  productionStart : ℕ
  fixNight : ℕ
  faults : List (ℕ × OneOffFault)
  incidents : List (ℕ × List Fault)

/-- `Timeline.of`. -/
def Timeline.of (settings : CompanySettings) (totalDays : ℕ) : Timeline :=
  let production := min totalDays (settings.productionWeeks * 7)
  let productionStart := totalDays - production
  let nights := min productionStart (settings.parallelRunWeeks * 7)
  let start := productionStart - nights
  let fix := if nights ≠ 0 then min (start + settings.fixAfterNights) productionStart else start
  let planted := if production ≠ 0 then schedule settings.faultDays production else []
  { parallelStart := start
    productionStart := productionStart
    fixNight := fix
    faults := if nights ≠ 0 then faultNights (fix + 2) (productionStart - 1) else []
    incidents := planted.map fun entry => (productionStart + entry.1, entry.2) }

theorem Timeline.fixNight_le (settings : CompanySettings) (totalDays : ℕ) :
    (Timeline.of settings totalDays).fixNight ≤ (Timeline.of settings totalDays).productionStart := by
  simp only [Timeline.of]
  split
  · exact min_le_right _ _
  · exact Nat.sub_le _ _

namespace Timeline

variable (t : Timeline)

def parallel (night : ℕ) : Bool := t.parallelStart ≤ night && night < t.productionStart

def production (night : ℕ) : Bool := t.productionStart ≤ night

/-- `Timeline.delivered`: the job runs as delivered until the fix ships. -/
def delivered (night : ℕ) : Bool := t.parallelStart < t.fixNight && night < t.fixNight

end Timeline

end PlatformOps.Simulation
