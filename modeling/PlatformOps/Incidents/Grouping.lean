import PlatformOps.Incidents.Ingest

/-!
# Root-Cause Grouping

Groups one run's failing checks into root-cause incidents:

1. A node has failed in a run if any check about it failed.
2. A failed node is a root if none of its ancestors failed. Every other failed
   node belongs to the root reached by following nearest failed ancestors.
3. One group per root.
4. A skipped node is impact of the root above it.

`rootsByNode` resolves every failed node with a memo, as the source does; its
meaning is the relation `RootOf`, and `rootsByNode_spec` connects the two.
-/

namespace PlatformOps.Incidents

open Metadata Listing

/-- The failures in one run that share a root cause. -/
structure Group where
  root : String
  events : List CheckEvent
  failedNodes : List String
  skipped : List String
  /-- Failed nodes below this root and below another root too, wherever counted. -/
  shared : List String
deriving DecidableEq, Repr

/-! ## The grouping as the desk computes it -/

section Model

variable (graph : FinDigraph String)

/-- `resolve` inside `roots_by_node`: find the root of one failed node, remembering every
answer on the way. `none` when `fuel` runs out, as a chain that never ends would. -/
def resolve (failed : List String) : ℕ → String → List (String × String) →
    Option (List (String × String))
  | 0, _, _ => none
  | fuel + 1, node, rootOf =>
    -- found on the way up from another node
    if (rootOf.lookup node).isSome then some rootOf
    else
      let parent := if node ∈ graph.nodes then nearestFailedAncestor graph node failed else none
      match parent with
      -- no failure above: the node is its own root
      | none => some ((node, node) :: rootOf)
      | some parent => do
        -- the root of the nearest failure above
        let rootOf ← resolve failed fuel parent rootOf
        let root ← rootOf.lookup parent
        some ((node, root) :: rootOf)

/-- `roots_by_node`: map every failed node to its root. -/
def rootsByNode (failed : List String) : Option (List (String × String)) :=
  let failedSet := sortedSet failed
  failedSet.foldlM (fun rootOf node => resolve graph failedSet (failedSet.length + 1) node rootOf) []

/-- `shared_failures`: failed nodes below more than one root, and every root above each. -/
def sharedFailures (rootOf : List (String × String)) : List (String × List String) :=
  let roots := sortedSet (rootOf.map Prod.snd)
  (sortedSet (rootOf.map Prod.fst)).filterMap fun node =>
    if node ∈ roots ∨ node ∉ graph.nodes then none
    else
      let above := roots.filter (· ∈ upstream graph node)
      if 1 < above.length then some (node, above) else none

/-- The root a skipped node is impact of, if a node above it failed. -/
def rootOfSkipped (rootOf : List (String × String)) (node : String) : Option String :=
  let failed := rootOf.map Prod.fst
  if node ∈ failed ∨ node ∉ graph.nodes then none
  else (nearestFailedAncestor graph node failed).bind fun parent => rootOf.lookup parent

/-- `group_failures`: one group per root, ordered by root id. -/
def groupFailures (events : List CheckEvent) (skipped : List String) : Option (List Group) := do
  let events := sortEvents events
  let rootOf ← rootsByNode graph (events.map CheckEvent.subject)
  let keyed ← events.mapM fun event => (rootOf.lookup event.subject).map fun root => (root, event)
  let eventsByRoot := groupBy Prod.fst keyed
  let shared := sharedFailures graph rootOf
  -- one group for each root with a failing check, in the order of the roots
  some <| (sortedSet (eventsByRoot.map Prod.fst)).map fun root =>
    let own := ((eventsByRoot.lookup root).getD []).map Prod.snd
    { root := root
      events := own
      failedNodes := sortedSet (own.map CheckEvent.subject)
      skipped := sortedSet (skipped.filter fun node => rootOfSkipped graph rootOf node = some root)
      shared := sortedSet ((shared.filter fun entry => root ∈ entry.2).map Prod.fst) }

end Model

/-! ## What a root is -/

section Meaning

variable {graph : FinDigraph String} {failed : List String}

/-- `r` is the root reached from `n` by following nearest failed ancestors to the end. -/
inductive RootOf (graph : FinDigraph String) (failed : List String) : String → String → Prop where
  | top {n : String} : (∀ p, ¬ NearestFailed graph failed n p) → RootOf graph failed n n
  | up {n p r : String} :
      NearestFailed graph failed n p → RootOf graph failed p r → RootOf graph failed n r

theorem RootOf.unique {n r r' : String} (h : RootOf graph failed n r)
    (h' : RootOf graph failed n r') : r = r' := by
  induction h with
  | top hnone =>
    cases h' with
    | top _ => rfl
    | up hp _ => exact absurd hp (hnone _)
  | up hp _ ih =>
    cases h' with
    | top hnone => exact absurd hp (hnone _)
    | up hp' hr' => exact ih (hp.unique hp' ▸ hr')

/-- The chain of nearest failed ancestors that leads to the root. -/
theorem RootOf.chain {n r : String} (h : RootOf graph failed n r) :
    Relation.ReflTransGen (NearestFailed graph failed) n r := by
  induction h with
  | top _ => exact .refl
  | up hp _ ih => exact .head hp ih

/-- A root is the node itself or one of its ancestors. -/
theorem RootOf.eq_or_above {n r : String} (h : RootOf graph failed n r) :
    n = r ∨ graph.Above r n := by
  induction h with
  | top _ => exact Or.inl rfl
  | up hp _ ih =>
    rcases ih with rfl | hr
    · exact Or.inr hp.above
    · exact Or.inr (hr.trans hp.above)

theorem RootOf.mem {n r : String} (h : RootOf graph failed n r) (hn : n ∈ failed) :
    r ∈ failed := by
  induction h with
  | top _ => exact hn
  | up hp _ ih => exact ih hp.mem

/-- Nothing above a root failed. -/
theorem RootOf.no_failed_above (hacyclic : graph.Acyclic) {n r : String}
    (h : RootOf graph failed n r) : ∀ a ∈ failed, ¬ graph.Above a r := by
  induction h with
  | top hnone =>
    refine (nearestFailedAncestor_eq_none hacyclic).mp ?_
    cases hres : nearestFailedAncestor graph _ failed with
    | none => rfl
    | some p => exact absurd (nearestFailedAncestor_eq_some.mp hres) (hnone p)
  | up _ _ ih => exact ih

/-- A failed node with no failed ancestor is its own root. -/
theorem rootOf_self {r : String} (h : ∀ a ∈ failed, ¬ graph.Above a r) :
    RootOf graph failed r r :=
  .top fun p hp => h p hp.mem hp.above

theorem RootOf.congr {failed' : List String} (hset : ∀ a, a ∈ failed ↔ a ∈ failed')
    {n r : String} (h : RootOf graph failed n r) : RootOf graph failed' n r := by
  induction h with
  | top hnone => exact .top fun p hp => hnone p (hp.congr fun a => (hset a).symm)
  | up hp _ ih => exact .up (hp.congr hset) ih

/-! ## The memo holds the roots -/

/-- A memo is right: each entry is a failed node with its root. -/
def MemoRight (graph : FinDigraph String) (failed : List String)
    (rootOf : List (String × String)) : Prop :=
  ∀ n r, (n, r) ∈ rootOf → n ∈ failed ∧ RootOf graph failed n r

theorem MemoRight.cons {rootOf : List (String × String)} (h : MemoRight graph failed rootOf)
    {n r : String} (hn : n ∈ failed) (hr : RootOf graph failed n r) :
    MemoRight graph failed ((n, r) :: rootOf) := by
  intro n' r' hmem
  rcases List.mem_cons.mp hmem with heq | hmem
  · obtain ⟨rfl, rfl⟩ := Prod.mk.inj heq
    exact ⟨hn, hr⟩
  · exact h n' r' hmem

private theorem lookup_cons_isSome {rootOf : List (String × String)} {n m r : String}
    (h : (rootOf.lookup n).isSome) : (List.lookup n ((m, r) :: rootOf)).isSome := by
  rw [List.lookup_cons]
  split
  · rfl
  · exact h

open Classical in
/-- Resolving a node succeeds with fuel for the failed nodes above it, and leaves a
memo that is still right, holds the node, and has lost nothing. -/
private theorem resolve_spec (hacyclic : graph.Acyclic) (fuel : ℕ) (node : String)
    (rootOf : List (String × String)) (hnode : node ∈ failed)
    (hmemo : MemoRight graph failed rootOf)
    (hfuel : (failed.filter fun x => graph.Above x node).length < fuel) :
    ∃ rootOf', resolve graph failed fuel node rootOf = some rootOf' ∧
      MemoRight graph failed rootOf' ∧ (rootOf'.lookup node).isSome ∧
      ∀ n, (rootOf.lookup n).isSome → (rootOf'.lookup n).isSome := by
  induction fuel generalizing node rootOf with
  | zero => omega
  | succ fuel ih =>
    by_cases hknown : (rootOf.lookup node).isSome
    · exact ⟨rootOf, by simp [resolve, hknown], hmemo, hknown, fun _ h => h⟩
    · have hparent : (if node ∈ graph.nodes then nearestFailedAncestor graph node failed else none) =
          nearestFailedAncestor graph node failed := by
        split
        · rfl
        · rename_i hout
          refine ((nearestFailedAncestor_eq_none hacyclic).mpr fun q _ habove => ?_).symm
          exact hout habove.right_mem
      cases hres : nearestFailedAncestor graph node failed with
      | none =>
        have hroot : RootOf graph failed node node :=
          rootOf_self ((nearestFailedAncestor_eq_none hacyclic).mp hres)
        refine ⟨(node, node) :: rootOf, ?_, hmemo.cons hnode hroot, ?_, fun n hn =>
          lookup_cons_isSome hn⟩
        · simp [resolve, hknown, hres]
        · simp
      | some parent =>
        rw [hres] at hparent
        have hp := nearestFailedAncestor_eq_some.mp hres
        have hless := hacyclic.above_filter_lt hp.above hp.mem
        obtain ⟨rootOf', hrun, hmemo', hhas, hkeep⟩ :=
          ih parent rootOf hp.mem hmemo (by omega)
        obtain ⟨root, hroot⟩ := Option.isSome_iff_exists.mp hhas
        have hright := (hmemo' parent root (mem_of_lookup_eq_some hroot)).2
        refine ⟨(node, root) :: rootOf', ?_, hmemo'.cons hnode (.up hp hright), ?_, fun n hn =>
          lookup_cons_isSome (hkeep n hn)⟩
        · simp [resolve, hknown, hparent, hres, hrun, hroot]
        · simp

private theorem foldlM_resolve_spec (hacyclic : graph.Acyclic) (todo : List String)
    (rootOf : List (String × String)) (htodo : ∀ n ∈ todo, n ∈ failed)
    (hmemo : MemoRight graph failed rootOf) :
    ∃ rootOf', todo.foldlM (fun rootOf node =>
        resolve graph failed (failed.length + 1) node rootOf) rootOf = some rootOf' ∧
      MemoRight graph failed rootOf' ∧ (∀ n ∈ todo, (rootOf'.lookup n).isSome) ∧
      ∀ n, (rootOf.lookup n).isSome → (rootOf'.lookup n).isSome := by
  classical
  induction todo generalizing rootOf with
  | nil => exact ⟨rootOf, rfl, hmemo, by simp, fun _ h => h⟩
  | cons node rest ih =>
    obtain ⟨mid, hrun, hmid, hhas, hkeep⟩ :=
      resolve_spec hacyclic (failed.length + 1) node rootOf (htodo node (List.mem_cons_self ..)) hmemo
        (Nat.lt_succ_of_le (List.length_filter_le _ _))
    obtain ⟨rootOf', hrest, hright, hall, hkeep'⟩ :=
      ih mid (fun n hn => htodo n (List.mem_cons_of_mem _ hn)) hmid
    refine ⟨rootOf', ?_, hright, ?_, fun n hn => hkeep' n (hkeep n hn)⟩
    · simp [List.foldlM_cons, hrun, hrest]
    · intro n hn
      rcases List.mem_cons.mp hn with rfl | hn
      · exact hkeep' _ hhas
      · exact hall n hn

/-- A dictionary that maps exactly the failed nodes, each to its root. -/
structure RootsOf (graph : FinDigraph String) (failed : List String)
    (rootOf : List (String × String)) : Prop where
  lookup : ∀ n r, rootOf.lookup n = some r ↔ n ∈ failed ∧ RootOf graph failed n r
  mem : ∀ n r, (n, r) ∈ rootOf ↔ n ∈ failed ∧ RootOf graph failed n r

/-- **`roots_by_node` is correct**: in an acyclic graph it maps exactly the failed
nodes, each to its root. -/
theorem rootsByNode_spec (hacyclic : graph.Acyclic) (failed : List String) :
    ∃ rootOf, rootsByNode graph failed = some rootOf ∧ RootsOf graph failed rootOf := by
  obtain ⟨rootOf, hrun, hright, hall, -⟩ :=
    @foldlM_resolve_spec graph (sortedSet failed) hacyclic (sortedSet failed) []
      (fun _ h => h) (by intro n r h; simp at h)
  have hmem : ∀ n r, (n, r) ∈ rootOf → n ∈ failed ∧ RootOf graph failed n r := by
    intro n r h
    obtain ⟨hn, hroot⟩ := hright n r h
    exact ⟨mem_sortedSet.mp hn, hroot.congr fun a => mem_sortedSet⟩
  have hlookup : ∀ n r, n ∈ failed ∧ RootOf graph failed n r → rootOf.lookup n = some r := by
    rintro n r ⟨hn, hr⟩
    obtain ⟨r', hr'⟩ := Option.isSome_iff_exists.mp (hall n (mem_sortedSet.mpr hn))
    rw [hr', (hmem n r' (mem_of_lookup_eq_some hr')).2.unique hr]
  exact ⟨rootOf, hrun, fun n r => ⟨fun h => hmem n r (mem_of_lookup_eq_some h), hlookup n r⟩,
    fun n r => ⟨hmem n r, fun h => mem_of_lookup_eq_some (hlookup n r h)⟩⟩

theorem mem_keys_of_lookup_isSome {rootOf : List (String × String)} {n : String} :
    n ∈ rootOf.map Prod.fst ↔ (rootOf.lookup n).isSome := by
  induction rootOf with
  | nil => simp
  | cons entry rest ih =>
    obtain ⟨k, v⟩ := entry
    rw [List.map_cons, List.mem_cons, ih, List.lookup_cons]
    by_cases hk : n = k
    · simp [hk]
    · simp [hk, beq_eq_false_iff_ne.mpr hk]

end Meaning

end PlatformOps.Incidents
