import PlatformOps.Common.Text
import PlatformOps.Library.Layers

/-!
# The Manifest

What the metadata layer takes from dbt's `manifest.json`: one `Node` per source,
seed, snapshot, model, test and exposure, by unique id. A unique id starts with
its node's resource type, which is how dbt builds them; a `Manifest` carries
that, and that no two nodes share an id (`load_manifest` returns a dictionary).
-/

namespace PlatformOps.Metadata

/-- The resource types the metadata layer reasons about (`GRAPH_TYPES`). -/
inductive ResourceType
  | source | seed | snapshot | model | test | exposure
deriving DecidableEq, Repr

def ResourceType.text : ResourceType → String
  | .source => "source"
  | .seed => "seed"
  | .snapshot => "snapshot"
  | .model => "model"
  | .test => "test"
  | .exposure => "exposure"

/-- One node of the manifest. -/
structure Node where
  uniqueId : String
  resourceType : ResourceType
  name : String
  dependsOn : List String := []
  /-- For tests: the model the test belongs to. -/
  attachedNode : Option String := none
  /-- For tests: the columns it checks, none for a test on the whole table. -/
  testColumns : List String := []
  path : String := ""
  package : String := ""
  /-- For exposures: who dbt says owns it. -/
  ownerName : Option String := none
  schema : String := ""
  /-- `alias`: the name of its table, if it is not its own. -/
  tableAlias : String := ""
deriving DecidableEq, Repr

/-- `Node.relation`: `schema.table` for a model or source, as queries refer to it. -/
def Node.relation (node : Node) : String :=
  node.schema ++ "." ++ if node.tableAlias = "" then node.name else node.tableAlias

/-- A loaded manifest: `dict[str, Node]`. -/
structure Manifest where
  nodes : List Node
  unique : (nodes.map Node.uniqueId).Nodup
  kinds : ∀ n ∈ nodes, startsWith n.uniqueId (n.resourceType.text ++ ".") = true

namespace Manifest

/-- `nodes.get(unique_id)`. -/
def get (m : Manifest) (uniqueId : String) : Option Node :=
  m.nodes.find? fun n => n.uniqueId = uniqueId

def ids (m : Manifest) : List String :=
  m.nodes.map Node.uniqueId

theorem get_eq_some {m : Manifest} {id : String} {n : Node} (h : m.get id = some n) :
    n ∈ m.nodes ∧ n.uniqueId = id :=
  ⟨List.mem_of_find?_eq_some h, by simpa using List.find?_some h⟩

/-- A node found under an id that does not start as a test's is not a test. -/
theorem not_test_of_get {m : Manifest} {id : String} {n : Node} (h : m.get id = some n)
    (hid : startsWith id "test." = false) : n.resourceType ≠ .test := by
  intro htest
  obtain ⟨hmem, rfl⟩ := get_eq_some h
  have hkind := m.kinds n hmem
  rw [htest] at hkind
  exact Bool.false_ne_true (hid.symm.trans hkind)

/-- An id starts with the resource type of its node and with no other one. -/
theorem resourceType_of_startsWith {m : Manifest} {n : Node} (hn : n ∈ m.nodes) {kind : ResourceType}
    (h : startsWith n.uniqueId (kind.text ++ ".") = true) : n.resourceType = kind := by
  have hown := m.kinds n hn
  unfold startsWith at h hown
  rw [List.isPrefixOf_iff_prefix] at h hown
  have hapart : ∀ a b : ResourceType, (a.text ++ ".").toList <+: (b.text ++ ".").toList → a = b := by
    intro a b hprefix
    rw [← List.isPrefixOf_iff_prefix] at hprefix
    cases a <;> cases b <;> first | rfl | exact absurd hprefix (by decide)
  rcases List.prefix_or_prefix_of_prefix hown h with hprefix | hprefix
  · exact hapart _ _ hprefix
  · exact (hapart _ _ hprefix).symm

/-- `build_graph`: an edge from each parent to each child. Parents that are not
in the manifest (a macro, a disabled node) are ignored. -/
def buildGraph (m : Manifest) : FinDigraph String where
  nodes := m.ids
  edges := m.nodes.flatMap fun n =>
    (n.dependsOn.filter (· ∈ m.ids)).map fun parent => (parent, n.uniqueId)
  closed := by
    intro e he
    obtain ⟨n, hn, he⟩ := List.mem_flatMap.mp he
    obtain ⟨parent, hparent, rfl⟩ := List.mem_map.mp he
    exact ⟨by simpa using (List.mem_filter.mp hparent).2, List.mem_map_of_mem hn⟩

end Manifest

end PlatformOps.Metadata
