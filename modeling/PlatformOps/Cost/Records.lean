import PlatformOps.Common.Clock

/-!
# Query Records

One executed statement as the cost layer keeps it: who ran it and for what, when it
started, and what the engine measured.
-/

namespace PlatformOps.Cost

/-- What kind of actor ran a query (`ACTOR_TYPES`). -/
inductive ActorType
  | dbt | ingestion | maintenance | reconcile | dashboard | adhoc
deriving DecidableEq, Repr

/-- The cost models: the cluster's bill shared out, and two modelled warehouses (`MODELS`). -/
inductive CostModel
  | cluster | scan | compute
deriving DecidableEq, Repr

/-- What a cost is for. -/
inductive CostKind
  | production | consumption | migration | storage
deriving DecidableEq, Repr

structure QueryRecord where
  queryId : String
  actor : String
  actorType : ActorType
  nodeId : Option String
  startedAt : Timestamp
  /-- Bytes read as the engine measured them. -/
  bytesScanned : Option ℕ := none
  /-- Tables the engine reports reading. -/
  tables : List String := []
  billable : Bool := true
  /-- What kind of statement the engine says it was. -/
  queryKind : String := ""
deriving DecidableEq, Repr

/-- A calendar month: `f"{time:%Y-%m}"`. -/
structure Month where
  year : ℤ
  number : ℕ
deriving DecidableEq, Repr

def monthOf (time : Timestamp) : Month :=
  ⟨time.date.year, time.date.month⟩

example : monthOf (Duration.hours (24 * 20514)) = ⟨2026, 3⟩ := by decide

end PlatformOps.Cost
