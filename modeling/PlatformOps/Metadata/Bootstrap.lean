import PlatformOps.Library.Fallible
import PlatformOps.Library.Prefixes
import PlatformOps.Metadata.Registry

/-!
# A Starter Ownership Registry

`platform-ops metadata init-registry` writes one rule per natural group of
datasets: a source system, a folder of models, an installed package, the seeds,
the snapshots, each exposure. A folder becomes name prefixes that match no model
outside it (`cover`), which looks for them by one more name token at a time.

The search recurses without a bound of its own: `fuel` is how deep it may go, and
running out of it is Python's `RecursionError`.
-/

namespace PlatformOps.Metadata

open Listing Prefixes

/-- `OWNED_TYPES`. -/
def ownedTypes : List ResourceType := [.source, .model, .exposure, .seed, .snapshot]

def todo : String := "TODO"

structure StarterRule where
  pattern : String
  comment : String
  owner : String := todo
deriving DecidableEq, Repr

/-! ## The patterns of a folder -/

/-- A name without the underscores it starts with. -/
def bareName (name : String) : List Char :=
  name.toList.dropWhile (· = '_')

/-- `re.findall(r"[^_]+_*", name)`: the bare name, cut before every character other than an
underscore that comes after one. -/
def nameTokens (name : String) : List (List Char) :=
  (bareName name).splitBy fun a b => a ≠ '_' || b = '_'

/-- `_token_prefix`. -/
def tokenPrefix (name : String) (tokens : ℕ) : String :=
  String.ofList ((nameTokens name).take tokens).flatten

/-- `f"model.{root_project}.{name}"`. -/
def modelId (root name : String) : String :=
  "model." ++ root ++ "." ++ name

/-- `os.path.commonprefix(names)`. -/
def commonPrefixOf (names : List String) : String :=
  String.ofList (commonPrefix (names.map String.toList))

section Cover

variable (root : String) (allIds : List String)

/-- The shared prefix of a group would match a model outside it, or is empty. -/
def rejected (names : List String) : Bool :=
  let start := commonPrefixOf names
  start = "" || allIds.any fun i =>
    i ∉ names.map (modelId root) && fnmatchcase i (modelId root start ++ "*")

/-- `_cover`: patterns that match exactly `names` among `allIds`. -/
def cover : ℕ → List String → ℕ → Except String (List String)
  -- the walk of the source ends by its own recursion limit
  | 0, _, _ => .error "RecursionError"
  | fuel + 1, names, depth =>
    if names.length = 1 then
      .ok (names.map (modelId root))
    -- the common prefix takes in no other node
    else if rejected root allIds names = false then
      .ok [modelId root (commonPrefixOf names) ++ "*"]
    else
      -- one token more splits the names
      let groups := sortedSet (names.map fun n => tokenPrefix n (depth + 1))
      -- no token is left to split by: each name is listed
      if groups.length = 1 ∧ ∀ n ∈ names, tokenPrefix n (depth + 1) = n then
        .ok (sortedSet (names.map (modelId root)))
      else do
        let patterns ← groups.mapM fun key =>
          cover fuel (names.filter fun n => tokenPrefix n (depth + 1) = key) (depth + 1)
        return patterns.flatten

end Cover

/-- `str(PurePosixPath(path).parent)`. -/
def folderOf (path : String) : String :=
  let parts := ((path.toList.splitOn '/').map String.ofList).filter fun p => p ≠ "" ∧ p ≠ "."
  let anchor := if startsWith path "//" ∧ ¬ startsWith path "///" then "//"
    else if startsWith path "/" then "/" else ""
  let parent := anchor ++ "/".intercalate parts.dropLast
  if parent = "" then "." else parent

/-! ## The rules -/

namespace Manifest

variable (m : Manifest) (root : String)

def ofType (kind : ResourceType) : List Node :=
  m.nodes.filter fun n => n.resourceType = kind

/-- The models of the root project. -/
def rootModels : List Node :=
  (m.ofType .model).filter fun n => n.package = root

/-- The names of the root project's models in a folder. -/
def namesIn (folder : String) : List String :=
  sortBy id (((m.rootModels root).filter fun n => folderOf n.path = folder).map Node.name)

/-- The unique ids of the root project's models. -/
def rootIds : List String :=
  sortBy id ((m.rootModels root).map Node.uniqueId)

/-- The patterns of one folder. -/
def folderPatterns (fuel : ℕ) (folder : String) : Except String (List String) :=
  cover root (m.rootIds root) fuel (m.namesIn root folder) 0

/-- The rules of one folder: the first one has its label. -/
def folderRules (fuel : ℕ) (folder : String) : Except String (List StarterRule) := do
  let patterns ← m.folderPatterns root fuel folder
  let label := folder ++ " (" ++ counted (m.namesIn root folder).length "model" ++ ")"
  return patterns.mapIdx fun i p => { pattern := p, comment := if i = 0 then label else "" }

/-- `_model_rules`. -/
def modelRules (fuel : ℕ) : Except String (List StarterRule) := do
  let folders := sortedSet ((m.rootModels root).map fun n => folderOf n.path)
  let rules ← folders.mapM (m.folderRules root fuel)
  return rules.flatten

/-- `_, package, source_name, _table = unique_id.split(".", 3)`. -/
def sourceGroup (id : String) : Except String (String ×ₗ String) :=
  match id.toList.splitOn '.' with
  | _ :: package :: source :: _ :: _ => .ok (toLex (String.ofList package, String.ofList source))
  | _ => .error "ValueError"

/-- One rule per source system. -/
def sourceRules : Except String (List StarterRule) := do
  let groups ← (m.ofType .source).mapM fun n => sourceGroup n.uniqueId
  return (sortedSet groups).map fun group =>
    let (package, source) := ofLex group
    { pattern := "source." ++ package ++ "." ++ source ++ ".*"
      comment := "source " ++ source ++ " (" ++ counted (groups.count group) "table" ++ ")" }

/-- One rule per package, for the nodes of one type. -/
def packageRules (nodes : List Node) (kind : ResourceType) (comment : String → String) :
    List StarterRule :=
  (sortedSet (nodes.map Node.package)).map fun package =>
    { pattern := kind.text ++ "." ++ package ++ ".*", comment := comment package }

/-- One rule per exposure, under the owner dbt knows. -/
def exposureRules : List StarterRule :=
  (sortBy Node.uniqueId (m.ofType .exposure)).map fun n =>
    { pattern := n.uniqueId
      comment := "exposure " ++ n.name
      owner := (truthy n.ownerName).getD todo }

/-- `starter_rules`: one rule per group of owned datasets, in a stable order. -/
def starterRules (fuel : ℕ) : Except String (List StarterRule) := do
  let sources ← m.sourceRules
  let models ← m.modelRules root fuel
  return sources ++
    packageRules (m.ofType .seed) .seed ("seeds of " ++ ·) ++
    packageRules (m.ofType .snapshot) .snapshot ("snapshots of " ++ ·) ++
    models ++
    packageRules ((m.ofType .model).filter fun n => n.package ≠ root) .model
      ("models from the installed package " ++ ·) ++
    m.exposureRules

end Manifest

example : nameTokens "_stg__shop_orders" = ["stg__".toList, "shop_".toList, "orders".toList] := by
  decide +kernel

end PlatformOps.Metadata
