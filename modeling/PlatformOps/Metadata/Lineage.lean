import PlatformOps.Library.Listing
import PlatformOps.Metadata.Manifest

/-!
# Lineage

The lineage graph, parent to child, and the two questions the incident desk
asks of it: the nearest failed ancestor of a node, and the weighted consumers
below one. Both give answers that are identical from run to run, so ties go to
the smallest unique id.
-/

namespace PlatformOps.Metadata

open Listing

/-! ## Criticality tiers -/

inductive Tier
  | critical | important | bestEffort
deriving DecidableEq, Repr

structure TierWeights where
  critical : ℕ
  important : ℕ
  bestEffort : ℕ
deriving DecidableEq, Repr

def TierWeights.weight (w : TierWeights) : Tier → ℕ
  | .critical => w.critical
  | .important => w.important
  | .bestEffort => w.bestEffort

/-! ## Above and below a node -/

section Graph

variable {α : Type*} [LinearOrder α] (graph : FinDigraph α)

/-- `upstream`: every ancestor of a node (`nx.ancestors`). -/
def upstream (node : α) : List α :=
  graph.ancestors node

/-- The graph with every edge turned around. -/
def reversed : FinDigraph α where
  nodes := graph.nodes
  edges := graph.edges.map Prod.swap
  closed := by
    intro e he
    obtain ⟨e', he', rfl⟩ := List.mem_map.mp he
    exact (graph.closed e' he').symm

/-- `downstream`: every descendant of a node (`nx.descendants`). -/
def downstream (node : α) : List α :=
  (reversed graph).ancestors node

/-! ## The nearest failed ancestor -/

/-- The loop of `nearest_failed_ancestor`: look at the parents of the frontier
not seen yet; stop at the first round that hits a failed node. -/
def nearestLoop (failed : List α) : ℕ → List α → List α → Option α
  | 0, _, _ => none
  | fuel + 1, frontier, seen =>
    if frontier.isEmpty then none
    else
      let parents := graph.expand frontier seen
      -- the least name of the nearest level
      match (parents.filter (· ∈ failed)).min? with
      | some hit => some hit
      | none => nearestLoop failed fuel parents (seen ++ parents)

/-- The closest failed ancestor of `node`, or `none` if none failed. Each round
sees a new node, so the rounds are bounded by the number of nodes. -/
def nearestFailedAncestor (node : α) (failed : List α) : Option α :=
  nearestLoop graph failed (graph.nodes.length + 2) [node] [node]

/-- `p` is the nearest failed ancestor of `node`: fewest edges, then smallest id. -/
structure NearestFailed (failed : List α) (node p : α) : Prop where
  mem : p ∈ failed
  nearest : ∃ n, graph.AtLayer node (n + 1) p ∧
    ∀ q ∈ failed, ∀ m, graph.AtLayer node (m + 1) q → n < m ∨ (n = m ∧ p ≤ q)

variable {graph}

theorem NearestFailed.above {failed : List α} {node p : α}
    (h : NearestFailed graph failed node p) : graph.Above p node := by
  obtain ⟨n, hlayer, -⟩ := h.nearest
  exact hlayer.above

theorem NearestFailed.unique {failed : List α} {node p q : α}
    (hp : NearestFailed graph failed node p) (hq : NearestFailed graph failed node q) : p = q := by
  obtain ⟨n, hn, hpmin⟩ := hp.nearest
  obtain ⟨m, hm, hqmin⟩ := hq.nearest
  rcases hpmin q hq.mem m hm with h | ⟨heq, hle⟩ <;>
    rcases hqmin p hp.mem n hn with h' | ⟨heq', hge⟩
  · omega
  · omega
  · omega
  · exact le_antisymm hle hge

/-- The loop rule: with enough fuel, and nothing failed in the layers searched so
far, the loop finds the nearest failed node of the layers that are left, or
there is none. -/
private theorem nearestLoop_spec {failed : List α} {node : α} (fuel k : ℕ)
    (frontier seen : List α)
    (hfrontier : ∀ a, a ∈ frontier ↔ graph.AtLayer node k a)
    (hseen : ∀ a, a ∈ seen ↔ ∃ m ≤ k, graph.AtLayer node m a)
    (hclear : ∀ q ∈ failed, ∀ m < k, ¬ graph.AtLayer node (m + 1) q)
    (hfuel : (graph.nodes.filter (· ∉ seen)).length + (if frontier.isEmpty then 0 else 1) < fuel) :
    match nearestLoop graph failed fuel frontier seen with
    | some p => NearestFailed graph failed node p
    | none => ∀ q ∈ failed, ∀ m, ¬ graph.AtLayer node (m + 1) q := by
  induction fuel generalizing k frontier seen with
  | zero => omega
  | succ fuel ih =>
    have hnext := FinDigraph.mem_expand hfrontier hseen
    by_cases hempty : frontier.isEmpty = true
    · -- an empty layer has none above it
      rw [List.isEmpty_iff] at hempty
      simp only [nearestLoop, hempty, List.isEmpty_nil, ↓reduceIte]
      intro q hq m hm
      rcases Nat.lt_or_ge m k with hlt | hge
      · exact hclear q hq m hlt hm
      · obtain ⟨c, hc⟩ := hm.exists_lower (m := k) (by omega)
        have hmem := (hfrontier c).mpr hc
        simp [hempty] at hmem
    · simp only [nearestLoop, if_neg hempty]
      cases hhit : (graph.expand frontier seen |>.filter (· ∈ failed)).min? with
      | some p =>
        obtain ⟨hmem, hmin⟩ := List.min?_eq_some_iff.mp hhit
        rw [List.mem_filter, hnext, decide_eq_true_eq] at hmem
        refine ⟨hmem.2, k, hmem.1, fun q hq m hm => ?_⟩
        rcases lt_trichotomy m k with hlt | heq | hgt
        · exact absurd hm (hclear q hq m hlt)
        · subst heq
          refine Or.inr ⟨rfl, hmin q ?_⟩
          rw [List.mem_filter, hnext, decide_eq_true_eq]
          exact ⟨hm, hq⟩
        · exact Or.inl hgt
      | none =>
        have hnone : (graph.expand frontier seen).filter (· ∈ failed) = [] :=
          List.min?_eq_none_iff.mp hhit
        refine ih (k + 1) _ _ hnext (FinDigraph.mem_append_expand hfrontier hseen) ?_ ?_
        · intro q hq m hm hlayer
          rcases Nat.lt_or_ge m k with hlt | hge
          · exact hclear q hq m hlt hlayer
          · have hk : m = k := by omega
            subst hk
            have : q ∈ (graph.expand frontier seen).filter (· ∈ failed) := by
              rw [List.mem_filter, hnext, decide_eq_true_eq]
              exact ⟨hlayer, hq⟩
            simp [hnone] at this
        · rw [if_neg hempty] at hfuel
          by_cases hne : graph.expand frontier seen = []
          · simp only [hne, List.append_nil, List.isEmpty_nil, ↓reduceIte]
            omega
          · have hlt := FinDigraph.unseen_lt hne
            have hif : (if (graph.expand frontier seen).isEmpty = true then 0 else 1) ≤ 1 := by
              split <;> omega
            omega

private theorem nearestFailedAncestor_spec (node : α) (failed : List α) :
    match nearestFailedAncestor graph node failed with
    | some p => NearestFailed graph failed node p
    | none => ∀ q ∈ failed, ∀ m, ¬ graph.AtLayer node (m + 1) q := by
  have hlen : (graph.nodes.filter (· ∉ [node])).length ≤ graph.nodes.length :=
    List.length_filter_le _ _
  refine nearestLoop_spec (graph.nodes.length + 2) 0 [node] [node] ?_ ?_ ?_ ?_
  · intro a; simp [FinDigraph.atLayer_zero]
  · intro a; simp [FinDigraph.atLayer_zero]
  · intro q _ m hm; omega
  · simp only [List.isEmpty_cons, Bool.false_eq_true, ↓reduceIte]
    omega

/-- **`nearest_failed_ancestor` is correct**: it returns exactly the nearest failed ancestor. -/
theorem nearestFailedAncestor_eq_some {node p : α} {failed : List α} :
    nearestFailedAncestor graph node failed = some p ↔ NearestFailed graph failed node p := by
  have hspec := @nearestFailedAncestor_spec _ _ graph node failed
  constructor
  · intro h
    rw [h] at hspec
    exact hspec
  · intro h
    cases hres : nearestFailedAncestor graph node failed with
    | some q =>
      rw [hres] at hspec
      exact congrArg some (hspec.unique h)
    | none =>
      rw [hres] at hspec
      obtain ⟨n, hn, -⟩ := h.nearest
      exact absurd hn (hspec p h.mem n)

/-- In an acyclic graph it returns `none` exactly when no ancestor failed. -/
theorem nearestFailedAncestor_eq_none (hacyclic : graph.Acyclic) {node : α} {failed : List α} :
    nearestFailedAncestor graph node failed = none ↔ ∀ q ∈ failed, ¬ graph.Above q node := by
  have hspec := @nearestFailedAncestor_spec _ _ graph node failed
  constructor
  · intro h q hq habove
    rw [h] at hspec
    obtain ⟨n, hn⟩ := habove.exists_walk
    obtain ⟨m, -, hm⟩ := hn.exists_atLayer
    cases m with
    | zero =>
      rw [FinDigraph.atLayer_zero] at hm
      exact hacyclic q (by rw [hm]; exact hm ▸ habove)
    | succ m => exact hspec q hq m hm
  · intro h
    cases hres : nearestFailedAncestor graph node failed with
    | none => rfl
    | some p =>
      have hp := nearestFailedAncestor_eq_some.mp hres
      exact absurd hp.above (h p hp.mem)

/-- Which list of failed nodes is given does not matter, only which nodes are in it. -/
theorem NearestFailed.congr {failed failed' : List α} (h : ∀ a, a ∈ failed ↔ a ∈ failed')
    {node p : α} (hp : NearestFailed graph failed node p) :
    NearestFailed graph failed' node p := by
  obtain ⟨n, hn, hmin⟩ := hp.nearest
  exact ⟨(h p).mp hp.mem, n, hn, fun q hq => hmin q ((h q).mpr hq)⟩

end Graph

/-! ## Consumers below a node -/

/-- A model or an exposure downstream of a node, weighted by its tier. -/
structure Consumer where
  uniqueId : String
  resourceType : ResourceType
  tier : Tier
  weight : ℕ
deriving DecidableEq, Repr

/-- `downstream_consumers`: tests, sources and seeds are not consumers (`CONSUMER_TYPES`);
a consumer missing from `tierOf` counts as `defaultTier`. -/
def downstreamConsumers (m : Manifest) (graph : FinDigraph String) (node : String)
    (tierOf : String → Option Tier) (weights : TierWeights) (defaultTier : Tier) :
    List Consumer :=
  (sortedSet (downstream graph node)).filterMap fun id =>
    (m.get id).bind fun n =>
      if n.resourceType = .model ∨ n.resourceType = .exposure then
        let tier := (tierOf id).getD defaultTier
        some ⟨id, n.resourceType, tier, weights.weight tier⟩
      else none

def consumerWeight (consumers : List Consumer) : ℕ :=
  (consumers.map Consumer.weight).sum

end PlatformOps.Metadata
