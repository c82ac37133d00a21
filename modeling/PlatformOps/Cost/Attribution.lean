import PlatformOps.Cost.Money
import PlatformOps.Cost.Records
import PlatformOps.Metadata.Registry

/-!
# Who Pays

Production cost goes to the owner of what was built or loaded, consumption cost to
the reader, migration cost to the platform team. A dashboard refresh is paid by the
teams that opened the dashboard that month, in proportion to their views.
-/

namespace PlatformOps.Cost

open Listing Decimals Metadata

def unattributed : String := "unattributed"
def platform : String := "platform"

structure Attribution where
  queryId : String
  costKind : CostKind
  team : String
  owner : String
  /-- The model, source or dashboard the cost belongs to. -/
  subject : Option String
deriving DecidableEq, Repr

structure Owners where
  nodes : Manifest
  registry : Registry

/-- `Registry.team_of`: the team a person belongs to. -/
def teamOf (registry : Registry) (person : String) : Option String :=
  (registry.teams.find? fun team => person ∈ team.members).map Team.id

namespace Owners

variable (owners : Owners)

/-- `Owners.of`: the team and the owner of a node. -/
def of (uniqueId : Option String) : String × String :=
  match (truthy uniqueId).bind owners.registry.resolve with
  | none => (unattributed, unattributed)
  | some rule => (rule.team, rule.owner)

/-- `Owners.subject`: the model a test checks, else the node. -/
def subject (nodeId : Option String) : Option String :=
  match owners.nodes.get (nodeId.getD "") with
  | some node => if node.resourceType = .test then node.attachedNode else nodeId
  | none => nodeId

/-- `Owners.platform_lead`. -/
def platformLead : String :=
  ((owners.registry.teams.find? fun team => team.id = platform).bind
    fun team => team.members.head?).getD unattributed

end Owners

/-- Whom one query is charged to. -/
def attributionOf (owners : Owners) (r : QueryRecord) : Attribution :=
  match r.actorType with
  | .dbt =>
    match owners.subject r.nodeId with
    -- a dbt statement of no node is the platform's
    | none => ⟨r.queryId, .production, platform, owners.platformLead, none⟩
    | some subject =>
      let (team, owner) := owners.of (some subject)
      ⟨r.queryId, .production, team, owner, some subject⟩
  | .ingestion | .maintenance =>
    let (team, owner) := owners.of r.nodeId
    ⟨r.queryId, .production, team, owner, r.nodeId⟩
  | .reconcile => ⟨r.queryId, .migration, platform, owners.platformLead, r.nodeId⟩
  | .dashboard =>
    let (team, owner) := owners.of r.nodeId
    ⟨r.queryId, .consumption, team, owner, r.nodeId⟩
  | .adhoc =>
    -- a person outside the registry pays as nobody's team
    ⟨r.queryId, .consumption, (teamOf owners.registry r.actor).getD unattributed, r.actor, none⟩

/-- `attribute`. -/
def attributed (records : List QueryRecord) (owners : Owners) : List (String × Attribution) :=
  dictOf (records.map fun r => (r.queryId, attributionOf owners r))

/-- One row of a BI tool's view log: when, which exposure, and who. -/
abbrev View := Timestamp × String × String

/-- The views of each exposure in each month, by the viewer's team; a person outside the registry
counts for nobody. -/
def viewsByMonth (views : List View) (registry : Registry) :
    List ((String × Month) × List String) :=
  let seen := views.filterMap fun v =>
    (teamOf registry v.2.2).map fun team => ((v.2.1, monthOf v.1), team)
  (groupBy Prod.fst seen).map fun group => (group.1, group.2.map Prod.snd)

/-- `tuple(sorted(Counter(teams).items()))`. -/
def tally (teams : List String) : List (String × ℕ) :=
  sortBy Prod.fst ((groupBy id teams).map fun group => (group.1, group.2.length))

/-- `viewer_weights`: each dashboard refresh's viewers, the teams that opened it that month with
their views. -/
def viewerWeights (records : List QueryRecord) (views : List View) (registry : Registry) :
    List (String × List (String × ℕ)) :=
  dictOf ((records.filter fun r => r.actorType = .dashboard).filterMap fun r =>
    -- a refresh nobody opened that month has no viewers
    ((viewsByMonth views registry).lookup (r.nodeId.getD "", monthOf r.startedAt)).map
      fun teams => (r.queryId, tally teams))

/-- `split`: each share is cut down to 12 decimals, and what is left goes to the team with the
most views. -/
def split (usd : ℚ) (weights : List (String × ℕ)) : Except String (List (String × ℚ)) :=
  apportion down usd weights

/-! ## The viewers of a refresh -/

/-- Each team that opened the dashboard is tallied once, with at least one view. -/
theorem tally_spec (teams : List String) :
    ((tally teams).map Prod.fst).Nodup ∧ ∀ w ∈ tally teams, 0 < w.2 := by
  have hperm := perm_sortBy Prod.fst ((groupBy id teams).map fun group => (group.1, group.2.length))
  constructor
  · refine ((hperm.map Prod.fst).nodup_iff).mpr ?_
    rw [List.map_map]
    exact nodup_keys_groupBy id teams
  · intro w hw
    obtain ⟨group, hgroup, rfl⟩ := List.mem_map.mp (mem_sortBy.mp hw)
    obtain ⟨team, hteam, hkey⟩ := mem_keys_groupBy.mp (List.mem_map_of_mem hgroup)
    refine List.length_pos_of_mem (a := team) ?_
    rw [of_mem_groupBy hgroup]
    exact List.mem_filter.mpr ⟨hteam, decide_eq_true hkey⟩

/-- What a refresh's viewers are weighed by. -/
theorem viewerWeights_spec {records : List QueryRecord} {views : List View} {registry : Registry}
    {queryId : String} {weights : List (String × ℕ)}
    (h : (viewerWeights records views registry).lookup queryId = some weights) :
    (weights.map Prod.fst).Nodup ∧ ∀ w ∈ weights, 0 < w.2 := by
  have hmem := mem_dictOf (mem_of_lookup_eq_some h)
  obtain ⟨r, -, hr⟩ := List.mem_filterMap.mp hmem
  obtain ⟨teams, -, heq⟩ := Option.map_eq_some_iff.mp hr
  obtain ⟨-, rfl⟩ := Prod.mk.inj heq
  exact tally_spec teams

/-- **A split adds up to what is split**, below `10 ^ 16` dollars. -/
theorem split_settled {usd : ℚ} {weights : List (String × ℕ)} (hne : weights ≠ [])
    (hnodup : (weights.map Prod.fst).Nodup) (hpos : ∀ w ∈ weights, 0 < w.2) (hkept : Kept usd)
    (hlimit : |usd| * (1 + drift) < 10 ^ 16) :
    ∃ parts, split usd weights = .ok parts ∧
      Settled usd (2 * (|usd| * drift)) (weights.map Prod.fst) parts := by
  have hexcess : excessOf 0 usd weights.length = |usd| * drift := by
    unfold excessOf
    ring
  have hwhole : (weights.map Prod.snd).sum ≠ 0 := by
    obtain ⟨w, hw⟩ := List.exists_mem_of_ne_nil _ hne
    have hle := List.single_le_sum (fun _ _ => Nat.zero_le _) _
      (List.mem_map_of_mem (f := Prod.snd) hw)
    have hw' := hpos w hw
    omega
  have hsettled := apportion_settled mode_down hnodup hwhole hkept
    (by rw [hexcess]; linarith)
  rwa [hexcess] at hsettled

end PlatformOps.Cost
