import PlatformOps.Common.Clock
import PlatformOps.Metadata.Registry

/-!
# Severity and Escalation Policy

`score = root_tier_multiplier * weight(root tier) + the weights of the consumers
below`. Two thresholds turn the score into a severity, and two things raise it a
level later: staying at a severity too long, and reaching a team's datasets
while one of the team's calendar windows is open. Severity only goes up.
-/

namespace PlatformOps.Incidents

open Metadata

/-! ## Severities -/

inductive Severity
  | sev1 | sev2 | sev3
deriving DecidableEq, Repr

def Severity.text : Severity → String
  | .sev1 => "SEV1"
  | .sev2 => "SEV2"
  | .sev3 => "SEV3"

/-- `raised`: one level up, SEV1 staying SEV1. -/
def raised : Severity → Severity
  | .sev1 => .sev1
  | .sev2 => .sev1
  | .sev3 => .sev2

/-- The thresholds, the SEV2 one not above the SEV1 one (the settings check it). -/
structure SeveritySettings where
  rootTierMultiplier : ℕ
  sev1MinScore : ℕ
  sev2MinScore : ℕ
  ordered : sev2MinScore ≤ sev1MinScore

/-! ## The policy -/

/-- A stretch of every month when a team's data matters more: the month's last
`lastDays` and first `firstDays`. -/
structure Window where
  name : String
  team : String
  lastDays : ℕ := 0
  firstDays : ℕ := 0
deriving DecidableEq, Repr

def Window.openOn (w : Window) (day : Date) : Bool :=
  day.day ≤ w.firstDays || (day.day : ℤ) > (Date.daysInMonth day.year day.month : ℤ) - w.lastDays

structure IncidentPolicy where
  severity : SeveritySettings
  tierWeights : TierWeights
  /-- `escalation.after_hours`: how long an incident may stay at a severity. -/
  afterHours : Severity → Option ℕ
  windows : List Window

/-! ## Scoring -/

structure Scored where
  score : ℕ
  severity : Severity
  rootTier : Tier
  consumers : List Consumer
deriving DecidableEq, Repr

/-- `DEFAULT_TIER`: the tier of a dataset no ownership rule matches. -/
def defaultTier : Tier := .bestEffort

/-- `dataset_of`: a root stands for itself, a test for the model it is attached to. -/
def datasetOf (root : String) (nodes : Manifest) : String :=
  match nodes.get root with
  | some node =>
    if node.resourceType = .test then (truthy node.attachedNode).getD root else root
  | none => root

theorem datasetOf_of_not_test {root : String} {nodes : Manifest}
    (h : startsWith root "test." = false) : datasetOf root nodes = root := by
  rw [datasetOf]
  cases hget : nodes.get root with
  | none => rfl
  | some node => simp [Manifest.not_test_of_get hget h]

def severityFor (score : ℕ) (policy : IncidentPolicy) : Severity :=
  if policy.severity.sev1MinScore ≤ score then .sev1
  else if policy.severity.sev2MinScore ≤ score then .sev2
  else .sev3

def scoreIncident (graph : FinDigraph String) (root : String) (nodes : Manifest)
    (tierOf : String → Option Tier) (policy : IncidentPolicy) : Scored :=
  let dataset := datasetOf root nodes
  let weights := policy.tierWeights
  let rootTier := (tierOf dataset).getD defaultTier
  let consumers :=
    -- a dataset that left the manifest has no consumers
    if dataset ∈ graph.nodes then
      downstreamConsumers nodes graph dataset tierOf weights defaultTier
    else []
  let score := policy.severity.rootTierMultiplier * weights.weight rootTier +
    consumerWeight consumers
  ⟨score, severityFor score policy, rootTier, consumers⟩

/-! ## Raises -/

/-- `overdue`: has an incident stayed at its severity longer than the policy allows? -/
def overdue (severity : Severity) (since now : Timestamp) (policy : IncidentPolicy) : Bool :=
  match policy.afterHours severity with
  | some hours => now - since ≥ Duration.hours hours
  | none => false

/-- `open_windows`: the windows open now for a team whose datasets the incident reaches. -/
def openWindows (consumers : List Consumer) (now : Timestamp) (policy : IncidentPolicy)
    (teamOf : String → Option String) : List Window :=
  policy.windows.filter fun w =>
    (consumers.map fun c => teamOf c.uniqueId).contains (some w.team) && w.openOn now.date

end PlatformOps.Incidents
