import PlatformOps.Incidents.Ingest
import PlatformOps.Incidents.Severity

/-!
# Routing

Who gets paged: the owner of the incident's root, except for data that arrived
broken. When every failing check on a model is a test on columns traced to one
source, the page goes to that source's owner; so does the page for a staging
model that reads a single source.
-/

namespace PlatformOps.Incidents

open Metadata Listing

def unowned : String := "unowned"
def stagingPrefix : String := "stg_"

/-- Column lineage as the desk uses it: each column of a model and the raw columns it
depends on (table, column), or `none` where the model's SQL cannot be traced. -/
structure ColumnLineage where
  rawSource : String
  model : String → Option (List (String × List (String × String)))

structure Route where
  owner : String
  team : String
  /-- The node whose ownership rule decided the page. -/
  routedVia : String
  backup : Option String := none
deriving DecidableEq, Repr

/-- `_route_to`. -/
def routeTo (dataset : String) (registry : Registry) : Route :=
  match registry.resolve dataset with
  | none => ⟨unowned, unowned, dataset, none⟩
  | some rule => ⟨rule.owner, rule.team, dataset, rule.backup⟩

/-- `paged`: the owner, or the rule's backup when the owner is already busy. -/
def paged (page : Route) (openByPerson : String → ℕ) (maxOpenPerPerson : ℕ) : String :=
  match truthy page.backup with
  | some backup => if maxOpenPerPerson ≤ openByPerson page.owner then backup else page.owner
  | none => page.owner

def naiveRoute (root : String) (nodes : Manifest) (registry : Registry) : Route :=
  routeTo (datasetOf root nodes) registry

/-- The columns of the failing tests on a dataset, or `none` if one of its failures is not a
test on columns. -/
def failingColumns (nodes : Manifest) (own : List CheckEvent) : Option (List String) :=
  own.foldlM (fun columns event =>
    (nodes.get event.checkId).bind fun test =>
      if event.checkType ≠ .test ∨ test.testColumns = [] then none
      else some (columns ++ test.testColumns)) []

/-- The sources a set of columns reads, or `none` if one of them reads nothing. -/
def sourcesRead (rawSource : String) (traced : List (String × List (String × String)))
    (columns : List String) : Option (List String) :=
  columns.foldlM (fun sources column =>
    match traced.lookup column with
    | none => none
    | some [] => none
    | some reads => some (sources ++ reads.map fun r => rawSource ++ r.1)) []

/-- `source_of_failing_columns`: the one source every failing column on a dataset is traced to. -/
def sourceOfFailingColumns (dataset : String) (nodes : Manifest) (events : List CheckEvent)
    (lineage : Option ColumnLineage) : Option String := do
  let lineage ← lineage
  let node ← nodes.get dataset
  let own := events.filter fun e => e.subject = dataset
  if node.resourceType ≠ .model ∨ own = [] then none
  else
    let columns ← failingColumns nodes own
    let traced ← lineage.model dataset
    let sources ← sourcesRead lineage.rawSource traced columns
    -- the columns of one source, and of no other
    match sources.dedup with
    | [source] => some source
    | _ => none

/-- `route`: who is paged for `root`, given the checks that failed on it. -/
def route (root : String) (nodes : Manifest) (registry : Registry) (events : List CheckEvent)
    (lineage : Option ColumnLineage) : Route :=
  let dataset := datasetOf root nodes
  match sourceOfFailingColumns dataset nodes events lineage with
  | some source => routeTo source registry
  | none =>
    match nodes.get dataset with
    | some node =>
      -- a staging model over one source is the source's
      if node.resourceType = .model ∧ startsWith node.name stagingPrefix then
        match node.dependsOn.filter fun p => startsWith p "source." with
        | [source] => routeTo source registry
        | _ => routeTo dataset registry
      else routeTo dataset registry
    | none => routeTo dataset registry

/-! ## What a route depends on -/

/-- What routing reads of a failing check. -/
def CheckEvent.routed (e : CheckEvent) : String × CheckType × String :=
  (e.checkId, e.checkType, e.subject)

/-- The columns of one failing test, or `none` if the failure is not one of a test on columns. -/
private def columnsOf (nodes : Manifest) (check : String × CheckType × String) :
    Option (List String) :=
  (nodes.get check.1).bind fun test =>
    if check.2.1 ≠ .test ∨ test.testColumns = [] then none else some test.testColumns

private theorem failingColumns_eq (nodes : Manifest) (own : List CheckEvent) :
    failingColumns nodes own = collect (columnsOf nodes) (own.map CheckEvent.routed) := by
  rw [failingColumns, collect, List.foldlM_map]
  congr 1
  funext columns event
  simp only [columnsOf, CheckEvent.routed]
  cases nodes.get event.checkId with
  | none => rfl
  | some test =>
    by_cases hbad : event.checkType ≠ .test ∨ test.testColumns = []
    · simp [hbad]
    · simp [hbad]

/-- The sources that one column reads, or `none` if it reads nothing. -/
private def readsOf (rawSource : String) (traced : List (String × List (String × String)))
    (column : String) : Option (List String) :=
  match traced.lookup column with
  | none => none
  | some [] => none
  | some reads => some (reads.map fun r => rawSource ++ r.1)

private theorem sourcesRead_eq (rawSource : String)
    (traced : List (String × List (String × String))) (columns : List String) :
    sourcesRead rawSource traced columns = collect (readsOf rawSource traced) columns := by
  rw [sourcesRead, collect]
  congr 1
  funext sources column
  rw [readsOf]
  cases traced.lookup column with
  | none => rfl
  | some reads => cases reads <;> rfl

/-- **The source of the failing columns**: the failures on the model are of tests on columns, each
column is traced to something, and all to this one source. -/
theorem sourceOfFailingColumns_eq_some {dataset : String} {nodes : Manifest}
    {events : List CheckEvent} {lineage : Option ColumnLineage} {source : String} :
    sourceOfFailingColumns dataset nodes events lineage = some source ↔
      ∃ columnLineage, lineage = some columnLineage ∧ ∃ node, nodes.get dataset = some node ∧
        node.resourceType = .model ∧ (events.filter fun e => e.subject = dataset) ≠ [] ∧
        ∃ columns, failingColumns nodes (events.filter fun e => e.subject = dataset) =
            some columns ∧ ∃ traced, columnLineage.model dataset = some traced ∧
          ∃ sources, sourcesRead columnLineage.rawSource traced columns = some sources ∧
            ∀ a, a ∈ sources ↔ a = source := by
  have honly : ∀ sources : List String,
      (match sources.dedup with | [a] => some a | _ => none) = some source ↔
        ∀ a, a ∈ sources ↔ a = source := by
    intro sources
    have hsingle : (match sources.dedup with | [a] => some a | _ => none) = some source ↔
        sources.dedup = [source] := by
      split
      · rename_i a heq
        simp [heq]
      · rename_i hnot
        exact iff_of_false (by simp) fun heq => hnot source heq
    rw [hsingle, ← List.perm_singleton,
      List.perm_ext_iff_of_nodup (List.nodup_dedup _) (List.nodup_singleton _)]
    simp only [List.mem_dedup, List.mem_singleton]
  rw [sourceOfFailingColumns]
  simp only [Option.bind_eq_bind, Option.bind_eq_some_iff]
  refine exists_congr fun columnLineage => and_congr_right fun _ => exists_congr fun node =>
    and_congr_right fun _ => ?_
  split
  · rename_i hnone
    exact iff_of_false (by simp) fun h => hnone.elim (absurd h.1) (absurd · h.2.1)
  · rename_i hown
    obtain ⟨hmodel, hown⟩ := not_or.mp hown
    simp only [Option.bind_eq_some_iff, honly, not_not.mp hmodel, true_and, ne_eq, hown,
      not_false_eq_true]

/-- What is routed by is a matter of which checks failed. -/
private theorem mem_routed_filter {events events' : List CheckEvent} {dataset : String}
    (h : ∀ k, k ∈ events.map CheckEvent.routed ↔ k ∈ events'.map CheckEvent.routed)
    (k : String × CheckType × String) :
    k ∈ (events.filter fun e => e.subject = dataset).map CheckEvent.routed ↔
      k ∈ (events'.filter fun e => e.subject = dataset).map CheckEvent.routed := by
  have hfilter : ∀ events : List CheckEvent,
      (events.filter fun e => e.subject = dataset).map CheckEvent.routed =
        (events.map CheckEvent.routed).filter fun k => k.2.2 = dataset := by
    intro events
    rw [List.filter_map]
    rfl
  rw [hfilter, hfilter, List.mem_filter, List.mem_filter, h]

private theorem sourceOfFailingColumns_of_congr {dataset source : String} {nodes : Manifest}
    {events events' : List CheckEvent} {lineage : Option ColumnLineage}
    (h : ∀ k, k ∈ events.map CheckEvent.routed ↔ k ∈ events'.map CheckEvent.routed)
    (hsource : sourceOfFailingColumns dataset nodes events lineage = some source) :
    sourceOfFailingColumns dataset nodes events' lineage = some source := by
  obtain ⟨columnLineage, hlineage, node, hnode, hmodel, hown, columns, hcolumns, traced, htraced,
    sources, hsources, honly⟩ := sourceOfFailingColumns_eq_some.mp hsource
  have hrouted : ∀ k, k ∈ (events.filter fun e => e.subject = dataset).map CheckEvent.routed ↔
      k ∈ (events'.filter fun e => e.subject = dataset).map CheckEvent.routed := mem_routed_filter h
  have hown' : (events'.filter fun e => e.subject = dataset) ≠ [] := by
    obtain ⟨e, he⟩ := List.exists_mem_of_ne_nil _ hown
    have hin := (hrouted e.routed).mp (List.mem_map_of_mem he)
    exact List.ne_nil_of_mem (List.mem_map.mp hin).choose_spec.1
  -- the same columns, hence the same sources
  have hcollect := collect_congr (f := columnsOf nodes) hrouted
  rw [← failingColumns_eq, ← failingColumns_eq, hcolumns] at hcollect
  generalize hcolumns' : failingColumns nodes (events'.filter fun e => e.subject = dataset) = out
    at hcollect
  cases hcollect with
  | some hsame =>
    rename_i columns'
    have hcollect' := collect_congr (f := readsOf columnLineage.rawSource traced) hsame
    rw [← sourcesRead_eq, ← sourcesRead_eq, hsources] at hcollect'
    generalize hsources' : sourcesRead columnLineage.rawSource traced columns' = out
      at hcollect'
    cases hcollect' with
    | some hsame' =>
      rename_i sources'
      exact sourceOfFailingColumns_eq_some.mpr ⟨columnLineage, hlineage, node, hnode, hmodel, hown',
        columns', hcolumns', traced, htraced, sources', hsources',
        fun a => (hsame' a).symm.trans (honly a)⟩

/-- **A route is a matter of which checks failed.** -/
theorem route_congr {root : String} {nodes : Manifest} {registry : Registry}
    {events events' : List CheckEvent} {lineage : Option ColumnLineage}
    (h : ∀ k, k ∈ events.map CheckEvent.routed ↔ k ∈ events'.map CheckEvent.routed) :
    route root nodes registry events lineage = route root nodes registry events' lineage := by
  have hsource : sourceOfFailingColumns (datasetOf root nodes) nodes events lineage =
      sourceOfFailingColumns (datasetOf root nodes) nodes events' lineage := by
    apply Option.ext
    intro source
    exact ⟨sourceOfFailingColumns_of_congr h,
      sourceOfFailingColumns_of_congr fun k => (h k).symm⟩
  rw [route, route, hsource]

end PlatformOps.Incidents
