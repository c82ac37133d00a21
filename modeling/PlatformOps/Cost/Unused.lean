import PlatformOps.Cost.Attribution
import PlatformOps.Metadata.Lineage

/-!
# Unused Tables

A model is unused when neither it nor anything downstream of it was read by a
dashboard or a person within a lookback. What a query read are relations, and
`by_relation` has one node for each: the last one stored there. A source declared
over a model's relation comes after the model, so the model's reads count as the
source's, and the model is listed as unused while it is read.

`KeepsUse` says when that hides no use, and `unused_tables_in_use` that it is
exactly then that no table in use is listed.
-/

namespace PlatformOps.Cost

open Listing Decimals Fallible Metadata

/-- `CONSUMERS`: whose reads are a use. -/
def ActorType.IsConsumer (actor : ActorType) : Prop := actor = .dashboard ∨ actor = .adhoc

instance (actor : ActorType) : Decidable actor.IsConsumer := inferInstanceAs (Decidable (_ ∨ _))

structure UnusedTable where
  lookbackDays : ℕ
  uniqueId : String
  relation : String
  team : String
  owner : String
  monthlySaving : List (String × ℚ)
deriving DecidableEq, Repr

/-- `_monthly`: what a cost of the window comes to in 30 days. -/
def monthly (total : ℚ) (windowDays : ℕ) : Except String ℚ := do
  raiseIf (windowDays = 0)
    (if total = 0 then "decimal.InvalidOperation" else "decimal.DivisionByZero")
  quantize precision 4 halfEven (dividedBy (times total 30) windowDays)

/-- The types of nodes that are stored in a table. -/
def stored (node : Node) : Bool :=
  node.resourceType = .model || node.resourceType = .seed || node.resourceType = .snapshot ||
    node.resourceType = .source

/-- `Owners.by_relation`: `database.table` to the unique id of the node stored there. -/
def Owners.byRelation (owners : Owners) : List (String × String) :=
  dictOf ((owners.nodes.nodes.filter stored).map fun n => (n.relation, n.uniqueId))

section UnusedTables

variable (records : List QueryRecord) (owners : Owners)

/-- The models that dbt wrote. -/
def writtenModels : List String :=
  let written := (records.filter fun r =>
    r.actorType = .dbt ∧ r.queryKind = "Insert" ∧ (truthy r.nodeId).isSome).filterMap fun r =>
      owners.subject r.nodeId
  -- a subject that left the manifest is not a model any more
  (sortedSet written).filter fun uid =>
    match owners.nodes.get uid with
    | some node => uid ≠ "" ∧ node.resourceType = .model
    | none => false

/-- The nodes whose tables were read since then. -/
def readSince (since : Timestamp) : List String :=
  (records.filter fun r => r.actorType.IsConsumer ∧ since ≤ r.startedAt).flatMap fun r =>
    -- two nodes of one relation: the later one alone has it
    r.tables.filterMap fun t => owners.byRelation.lookup t

/-- When a lookback starts. -/
def lookbackStart (windowEnd : Timestamp) (days : ℕ) : Timestamp :=
  windowEnd - Duration.hours (24 * days)

/-- What is listed for one model. -/
def unusedTable (production : List (String × List (String × ℚ))) (windowDays : ℕ)
    (listed : ℕ × String) : Except String UnusedTable := do
  let (team, owner) := owners.of (some listed.2)
  let saving ← (sortBy Prod.fst ((production.lookup listed.2).getD [])).mapM fun cost => do
    let usd ← monthly cost.2 windowDays
    return (cost.1, usd)
  return {
    lookbackDays := listed.1
    uniqueId := listed.2
    relation := ((owners.nodes.get listed.2).map Node.relation).getD ""
    team := team
    owner := owner
    monthlySaving := saving }

/-- `unused_tables`. -/
def unusedTables (graph : FinDigraph String) (production : List (String × List (String × ℚ)))
    (windowEnd : Timestamp) (windowDays : ℕ) (lookbacks : List ℕ) :
    Except String (List UnusedTable) :=
  let listed := (sortBy id lookbacks).flatMap fun days =>
    let read := readSince records owners (lookbackStart windowEnd days)
    -- kept by a read of its own table, or of one built from it
    ((writtenModels records owners).filter fun uid =>
      ¬ (uid ∈ read ∨ ∃ below ∈ downstream graph uid, below ∈ read)).map fun uid => (days, uid)
  listed.mapM (unusedTable owners production windowDays)

end UnusedTables

/-! ## What is in use -/

section Use

variable (records : List QueryRecord) (owners : Owners)

/-- A dashboard or a person read a relation since then. -/
def ReadSince (since : Timestamp) (relation : String) : Prop :=
  ∃ r ∈ records, r.actorType.IsConsumer ∧ since ≤ r.startedAt ∧ relation ∈ r.tables

/-- A node is a model or downstream of it. -/
def DependsOn (uid nodeId : String) : Prop := nodeId = uid ∨ owners.nodes.buildGraph.Above uid nodeId

/-- A model is in use: its relation, or that of a node downstream of it, was read since then. -/
def InUse (since : Timestamp) (uid : String) : Prop :=
  ∃ node ∈ owners.nodes.nodes, DependsOn owners uid node.uniqueId ∧
    ReadSince records since node.relation

/-- The last of the nodes that are stored under a relation. -/
def LastStored (relation nodeId : String) : Prop :=
  ((owners.nodes.nodes.filter fun n => stored n ∧ n.relation = relation).getLast?.map
    Node.uniqueId) = some nodeId

/-- A use is kept: some relation was read since then whose last node is the model or downstream of
it. -/
def KeepsUse (since : Timestamp) (uid : String) : Prop :=
  ∃ relation, ReadSince records since relation ∧
    ∃ nodeId, LastStored owners relation nodeId ∧ DependsOn owners uid nodeId

variable {records owners}

/-- The code's names of the nodes read are the last nodes stored. -/
theorem mem_readSince {since : Timestamp} {nodeId : String} :
    nodeId ∈ readSince records owners since ↔
      ∃ relation, ReadSince records since relation ∧ LastStored owners relation nodeId := by
  have hlookup : ∀ relation, owners.byRelation.lookup relation = some nodeId ↔
      LastStored owners relation nodeId := by
    intro relation
    have hfilter : (((owners.nodes.nodes.filter stored).map fun n =>
        (n.relation, n.uniqueId)).filter fun e => e.1 = relation) =
        (owners.nodes.nodes.filter fun n => stored n ∧ n.relation = relation).map fun n =>
          (n.relation, n.uniqueId) := by
      rw [List.filter_map, List.filter_filter]
      congr 1
      apply List.filter_congr
      intro n _
      simp [Bool.and_comm]
    unfold Owners.byRelation LastStored
    rw [lookup_dictOf, hfilter, List.getLast?_map, Option.map_map]
    rfl
  simp only [readSince, List.mem_flatMap, List.mem_filterMap, List.mem_filter, decide_eq_true_eq,
    hlookup]
  constructor
  · rintro ⟨r, ⟨hr, hconsumer, hsince⟩, relation, hrelation, hlast⟩
    exact ⟨relation, ⟨r, hr, hconsumer, hsince, hrelation⟩, hlast⟩
  · rintro ⟨relation, ⟨r, hr, hconsumer, hsince, hrelation⟩, hlast⟩
    exact ⟨r, ⟨hr, hconsumer, hsince⟩, relation, hrelation, hlast⟩

/-- What is downstream of a node is what it is an ancestor of. -/
theorem mem_downstream {graph : FinDigraph String} {a v : String} :
    a ∈ downstream graph v ↔ a ≠ v ∧ graph.Above v a := by
  have hadj : (reversed graph).Adj = Function.swap graph.Adj := by
    funext x y
    simp [FinDigraph.Adj, reversed, Function.swap]
  unfold downstream
  rw [FinDigraph.mem_ancestors, FinDigraph.Above, hadj, Relation.transGen_swap]
  rfl

/-- The check that keeps a model off the list. -/
private theorem kept_iff {since : Timestamp} {uid : String} :
    (uid ∈ readSince records owners since ∨
        ∃ below ∈ downstream owners.nodes.buildGraph uid, below ∈ readSince records owners since) ↔
      KeepsUse records owners since uid := by
  simp only [mem_readSince, mem_downstream]
  constructor
  · rintro (⟨relation, hread, hlast⟩ | ⟨below, ⟨-, habove⟩, relation, hread, hlast⟩)
    · exact ⟨relation, hread, uid, hlast, Or.inl rfl⟩
    · exact ⟨relation, hread, below, hlast, Or.inr habove⟩
  · rintro ⟨relation, hread, nodeId, hlast, hdepends⟩
    by_cases heq : nodeId = uid
    · exact Or.inl ⟨relation, hread, heq ▸ hlast⟩
    · exact Or.inr ⟨nodeId, ⟨heq, hdepends.resolve_left heq⟩, relation, hread, hlast⟩

/-- **What is listed**: for each lookback the written models whose use is not kept. -/
private theorem listed_iff {production : List (String × List (String × ℚ))} {windowEnd : Timestamp}
    {windowDays : ℕ} {lookbacks : List ℕ} {tables : List UnusedTable}
    (h : unusedTables records owners owners.nodes.buildGraph production windowEnd windowDays
      lookbacks = .ok tables) (days : ℕ) (uid : String) :
    (∃ t ∈ tables, t.lookbackDays = days ∧ t.uniqueId = uid) ↔
      days ∈ lookbacks ∧ uid ∈ writtenModels records owners ∧
        ¬ KeepsUse records owners (lookbackStart windowEnd days) uid := by
  have hone : ∀ listed t, unusedTable owners production windowDays listed = .ok t →
      t.lookbackDays = listed.1 ∧ t.uniqueId = listed.2 := by
    intro listed t ht
    obtain ⟨saving, -, hpure⟩ := bind_eq_ok.mp ht
    obtain rfl := pure_eq_ok.mp hpure
    exact ⟨rfl, rfl⟩
  simp only [← kept_iff]
  constructor
  · rintro ⟨t, ht, rfl, rfl⟩
    obtain ⟨listed, hlisted, htable⟩ := exists_preimage_of_mem h ht
    obtain ⟨hdays, huid⟩ := hone listed t htable
    obtain ⟨days, hdays', hmodel⟩ := List.mem_flatMap.mp hlisted
    obtain ⟨uid, huid', rfl⟩ := List.mem_map.mp hmodel
    obtain ⟨hwritten, hkept⟩ := List.mem_filter.mp huid'
    rw [hdays, huid]
    exact ⟨mem_sortBy.mp hdays', hwritten, of_decide_eq_true hkept⟩
  · rintro ⟨hdays, hwritten, hkept⟩
    have hlisted : (days, uid) ∈ (sortBy id lookbacks).flatMap fun days =>
        ((writtenModels records owners).filter fun uid =>
          ¬ (uid ∈ readSince records owners (lookbackStart windowEnd days) ∨
            ∃ below ∈ downstream owners.nodes.buildGraph uid,
              below ∈ readSince records owners (lookbackStart windowEnd days))).map
          fun uid => (days, uid) := by
      refine List.mem_flatMap.mpr ⟨days, mem_sortBy.mpr hdays, List.mem_map.mpr ⟨uid, ?_, rfl⟩⟩
      exact List.mem_filter.mpr ⟨hwritten, decide_eq_true hkept⟩
    obtain ⟨t, ht, htable⟩ := exists_image_of_mem h hlisted
    exact ⟨t, ht, hone _ t htable⟩

end Use

/-- **No table in use is listed as unused** exactly if, in every lookback, each use of a written
model is kept: some relation is read whose last node is the model or downstream of it. -/
theorem unused_tables_in_use {records : List QueryRecord} {owners : Owners}
    {production : List (String × List (String × ℚ))} {windowEnd : Timestamp} {windowDays : ℕ}
    {lookbacks : List ℕ} {tables : List UnusedTable}
    (h : unusedTables records owners owners.nodes.buildGraph production windowEnd windowDays
      lookbacks = .ok tables) :
    (∀ t ∈ tables, ¬ InUse records owners (lookbackStart windowEnd t.lookbackDays) t.uniqueId) ↔
      ∀ days ∈ lookbacks, ∀ uid ∈ writtenModels records owners,
        InUse records owners (lookbackStart windowEnd days) uid →
          KeepsUse records owners (lookbackStart windowEnd days) uid := by
  constructor
  · intro hnone days hdays uid hwritten huse
    by_contra hkept
    obtain ⟨t, ht, rfl, rfl⟩ := (listed_iff h days uid).mpr ⟨hdays, hwritten, hkept⟩
    exact hnone t ht huse
  · intro hkeeps t ht huse
    obtain ⟨hdays, hwritten, hkept⟩ := (listed_iff h _ _).mp ⟨t, ht, rfl, rfl⟩
    exact hkept (hkeeps _ hdays _ hwritten huse)

/-- Where no two stored nodes share a relation and only stored nodes' relations are read, a use is
kept. -/
theorem keepsUse_of_apart {records : List QueryRecord} {owners : Owners} {since : Timestamp}
    {uid : String}
    (hapart : ((owners.nodes.nodes.filter stored).map Node.relation).Nodup)
    (hstored : ∀ node ∈ owners.nodes.nodes, ReadSince records since node.relation → stored node)
    (huse : InUse records owners since uid) : KeepsUse records owners since uid := by
  obtain ⟨node, hnode, hdepends, hread⟩ := huse
  refine ⟨node.relation, hread, node.uniqueId, ?_, hdepends⟩
  have hmem : node ∈ owners.nodes.nodes.filter fun n => stored n ∧ n.relation = node.relation := by
    refine List.mem_filter.mpr ⟨hnode, ?_⟩
    simp [hstored node hnode hread]
  have honly : ∀ n ∈ owners.nodes.nodes.filter fun n => stored n ∧ n.relation = node.relation,
      n = node := by
    intro n hn
    obtain ⟨hn, hsame⟩ := List.mem_filter.mp hn
    obtain ⟨hnStored, hrelation⟩ := of_decide_eq_true hsame
    exact List.inj_on_of_nodup_map hapart (List.mem_filter.mpr ⟨hn, hnStored⟩)
      (List.mem_filter.mpr ⟨hnode, hstored node hnode hread⟩) hrelation
  obtain ⟨last, hlast⟩ := Option.ne_none_iff_exists'.mp
    (fun hnone => List.ne_nil_of_mem hmem (List.getLast?_eq_none_iff.mp hnone))
  unfold LastStored
  rw [hlast, honly last (List.mem_of_getLast? hlast)]
  rfl

/-- A model, and a source another project declares over its table. -/
def sharedRelation : Owners where
  nodes :=
    { nodes := [⟨"model.a.orders", .model, "orders", [], none, [], "", "a", none, "marts", ""⟩,
        ⟨"source.b.orders", .source, "orders", [], none, [], "", "b", none, "marts", ""⟩]
      unique := by decide
      kinds := by decide }
  registry := ⟨[], []⟩

/-- dbt builds the model, and a dashboard reads it a day before the window ends. -/
def readYesterday : List QueryRecord :=
  [⟨"q1", "dbt", .dbt, some "model.a.orders", 0, none, [], true, "Insert"⟩,
    ⟨"q2", "metabase", .dashboard, none, Duration.hours (24 * 90), none, ["marts.orders"], true,
      "Select"⟩]

/-- The dashboard's table is listed as unused. -/
theorem listed_in_use :
    ∃ t, unusedTables readYesterday sharedRelation sharedRelation.nodes.buildGraph []
        (Duration.hours (24 * 91)) 91 [30] = .ok [t] ∧
      InUse readYesterday sharedRelation
        (lookbackStart (Duration.hours (24 * 91)) t.lookbackDays) t.uniqueId := by
  refine ⟨⟨30, "model.a.orders", "marts.orders", "unattributed", "unattributed", []⟩,
    by decide +kernel, ?_⟩
  refine ⟨_, List.mem_cons_self .., Or.inl rfl, _, List.mem_cons_of_mem _ (List.mem_cons_self ..),
    ?_, ?_, ?_⟩ <;> decide +kernel

/-- Two models with tables of their own, one of them never read. -/
def ownRelations : Owners where
  nodes :=
    { nodes := [⟨"model.a.orders", .model, "orders", [], none, [], "", "a", none, "marts", ""⟩,
        ⟨"model.a.stale", .model, "stale", [], none, [], "", "a", none, "marts", ""⟩]
      unique := by decide
      kinds := by decide }
  registry := ⟨[], []⟩

/-- dbt builds both. -/
def bothBuilt : List QueryRecord :=
  ⟨"q3", "dbt", .dbt, some "model.a.stale", 0, none, [], true, "Insert"⟩ :: readYesterday

theorem unused_tables_in_use_own :
    ¬ InUse bothBuilt ownRelations (lookbackStart (Duration.hours (24 * 91)) 30)
      "model.a.stale" := by
  have hlisted : unusedTables bothBuilt ownRelations ownRelations.nodes.buildGraph []
      (Duration.hours (24 * 91)) 91 [30] =
        .ok [⟨30, "model.a.stale", "marts.stale", "unattributed", "unattributed", []⟩] := by
    decide +kernel
  have hapart : ((ownRelations.nodes.nodes.filter stored).map Node.relation).Nodup := by
    decide +kernel
  have hstored : ∀ node ∈ ownRelations.nodes.nodes, stored node := by decide
  apply (unused_tables_in_use hlisted).mpr _ _ (List.mem_singleton_self _)
  intro days _ uid _ huse
  exact keepsUse_of_apart hapart (fun node hnode _ => hstored node hnode) huse

end PlatformOps.Cost
