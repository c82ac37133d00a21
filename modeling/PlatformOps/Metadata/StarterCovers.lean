import PlatformOps.Metadata.Starter

/-!
# The Starter Registry and a Project

How dbt names things (`Node.NamedByDbt`), what each family of rules matches, and
when every owned dataset has exactly one rule (`starterCovers_iff`): exactly if
no model of the root project is versioned, and the names of each folder can be
told apart.
-/

namespace PlatformOps.Metadata

open Listing Fallible Prefixes

/-! ## The ids dbt builds -/

/-- A name without dots or wildcards. -/
def Plain (text : String) : Prop :=
  ∀ c ∈ text.toList, c ≠ '.' ∧ isGlob c = false

theorem Plain.globFree {text : String} (h : Plain text) : GlobFree text.toList :=
  fun c hc => (h c hc).2

theorem Plain.no_dot {text : String} (h : Plain text) : '.' ∉ text.toList :=
  fun hc => (h '.' hc).1 rfl

/-- `<type>.<package>.<the rest>`. -/
def idUnder (kind : ResourceType) (package rest : String) : String :=
  kind.text ++ "." ++ package ++ "." ++ rest

/-- **How dbt builds unique ids**: from the resource type, the package, and a name; that of a
source table has its source in front, that of a versioned model its version behind. Packages,
source systems and models are named without dots or wildcards, exposures without wildcards. -/
def Node.NamedByDbt (n : Node) : Prop :=
  Plain n.package ∧
    match n.resourceType with
    | .source => ∃ source table, Plain source ∧
        n.uniqueId = idUnder .source n.package (source ++ "." ++ table)
    | .seed => ∃ name, n.uniqueId = idUnder .seed n.package name
    | .snapshot => ∃ name, n.uniqueId = idUnder .snapshot n.package name
    | .model => Plain n.name ∧
        -- a versioned model has its version behind the name
        (n.uniqueId = modelId n.package n.name ∨
          ∃ version, n.uniqueId = modelId n.package n.name ++ ".v" ++ version)
    | .exposure => GlobFree n.uniqueId.toList
    | .test => True

section Ids

variable {kind kind' : ResourceType} {package package' rest root name : String}

theorem globFree_text (kind : ResourceType) : GlobFree kind.text.toList := by
  cases kind <;> simp [ResourceType.text, GlobFree, isGlob]

theorem text_injective : Function.Injective ResourceType.text := by
  intro a b h
  cases a <;> cases b <;> first | rfl | exact absurd h (by decide)

theorem no_dot_text (kind : ResourceType) : '.' ∉ kind.text.toList := by
  cases kind <;> simp [ResourceType.text]

theorem toList_idUnder (kind : ResourceType) (package rest : String) :
    (idUnder kind package rest).toList =
      kind.text.toList ++ '.' :: (package.toList ++ '.' :: rest.toList) := by
  simp [idUnder]

theorem modelId_eq (root name : String) : modelId root name = idUnder .model root name := by
  rw [← String.toList_inj, toList_modelId, toList_idUnder]
  simp [ResourceType.text]

theorem globFree_idUnder (hpackage : Plain package) (hrest : GlobFree rest.toList) :
    GlobFree (idUnder kind package rest).toList := by
  rw [toList_idUnder]
  have hdot : GlobFree ['.'] := by simp [GlobFree, isGlob]
  exact (globFree_text kind).append (hdot.append (hpackage.globFree.append (hdot.append hrest)))

/-- A list is split at the first occurrence of an element in one way. -/
private theorem cons_inj_of_first {a b s t : List Char} (ha : '.' ∉ a) (hb : '.' ∉ b)
    (h : a ++ '.' :: s = b ++ '.' :: t) : a = b ∧ s = t := by
  have hsplit := congrArg (List.splitOn '.') h
  rw [List.splitOn_append_cons_self_of_not_mem ha, List.splitOn_append_cons_self_of_not_mem hb]
    at hsplit
  obtain rfl := (List.cons.inj hsplit).1
  exact ⟨rfl, by simpa using h⟩

/-- What starts with a dotted name has that name in front. -/
private theorem dotted_prefix_iff {a b s t : List Char} (ha : '.' ∉ a) (hb : '.' ∉ b) :
    a ++ '.' :: s <+: b ++ '.' :: t ↔ a = b ∧ s <+: t := by
  constructor
  · rintro ⟨u, hu⟩
    rw [List.append_assoc, List.cons_append] at hu
    obtain ⟨rfl, rfl⟩ := cons_inj_of_first ha hb hu
    exact ⟨rfl, List.prefix_append _ _⟩
  · rintro ⟨rfl, hs⟩
    rw [List.prefix_append_right_inj, List.cons_prefix_cons]
    exact ⟨rfl, hs⟩

theorem idUnder_prefix_iff (hpackage : Plain package) (hpackage' : Plain package')
    {start : String} :
    (idUnder kind package start).toList <+: (idUnder kind' package' rest).toList ↔
      kind = kind' ∧ package = package' ∧ start.toList <+: rest.toList := by
  rw [toList_idUnder, toList_idUnder, dotted_prefix_iff (no_dot_text _) (no_dot_text _),
    dotted_prefix_iff hpackage.no_dot hpackage'.no_dot, String.toList_inj, String.toList_inj,
    text_injective.eq_iff]

end Ids

/-! ## What the rules of each family match -/

/-- How many of the rules match an id. -/
def hits (id : String) (rules : List StarterRule) : ℕ :=
  (rules.map StarterRule.pattern).countP fun p => fnmatchcase id p

section Families

variable {m : Manifest} {root id : String} {rules rules' : List StarterRule} {n : Node}
  {kind : ResourceType} {fuel : ℕ}

@[simp] theorem hits_nil (id : String) : hits id [] = 0 := rfl

@[simp] theorem hits_append (id : String) (rules rules' : List StarterRule) :
    hits id (rules ++ rules') = hits id rules + hits id rules' := by
  rw [hits, List.map_append, List.countP_append]
  rfl

/-- The patterns that are made for one type of node. -/
def RulesOf (kind : ResourceType) (rules : List StarterRule) : Prop :=
  ∀ r ∈ rules, ∃ rest, r.pattern = kind.text ++ "." ++ rest

theorem hits_of_other (hrules : RulesOf kind rules) (hn : n ∈ m.nodes)
    (hkind : n.resourceType ≠ kind) : hits n.uniqueId rules = 0 := by
  rw [hits, List.countP_eq_zero]
  intro pattern hpattern hmatch
  obtain ⟨r, hr, rfl⟩ := List.mem_map.mp hpattern
  obtain ⟨rest, hrest⟩ := hrules r hr
  have hfree : GlobFree (kind.text ++ ".").toList := by
    rw [String.toList_append]
    exact (globFree_text kind).append (by simp [GlobFree, isGlob])
  have hlead : (kind.text ++ ".").toList <+: r.pattern.toList :=
    ⟨rest.toList, by rw [hrest, String.toList_append (s := kind.text ++ ".")]⟩
  have hstart := prefix_of_fnmatchcase hfree hlead hmatch
  exact hkind (m.resourceType_of_startsWith hn (List.isPrefixOf_iff_prefix.mpr hstart))

/-- One pattern of a list without repetition matches. -/
private theorem countP_eq_one {κ : Type} [DecidableEq κ] {keys : List κ} {p : κ → Bool} {k : κ}
    (hnodup : keys.Nodup) (hk : k ∈ keys) (hp : ∀ key ∈ keys, p key = true ↔ key = k) :
    keys.countP p = 1 := by
  have hcount := List.count_eq_one_of_mem hnodup hk
  rw [List.count] at hcount
  rw [← hcount]
  refine List.countP_congr fun key hkey => ?_
  rw [hp key hkey, beq_iff_eq]

/-! ### Sources -/

theorem sourceGroup_named {package source table : String} (hpackage : Plain package)
    (hsource : Plain source) :
    Manifest.sourceGroup (idUnder .source package (source ++ "." ++ table)) =
      .ok (toLex (package, source)) := by
  have hsplit : (idUnder .source package (source ++ "." ++ table)).toList.splitOn '.' =
      "source".toList :: package.toList :: source.toList :: table.toList.splitOn '.' := by
    rw [toList_idUnder, List.splitOn_append_cons_self_of_not_mem (no_dot_text _),
      List.splitOn_append_cons_self_of_not_mem hpackage.no_dot, String.toList_append,
      String.toList_append, List.append_assoc]
    exact congrArg (fun l => _ :: _ :: l) (List.splitOn_append_cons_self_of_not_mem hsource.no_dot _)
  rw [Manifest.sourceGroup, hsplit]
  obtain ⟨first, rest, hrest⟩ := List.exists_cons_of_ne_nil
    (List.splitOn_ne_nil '.' table.toList)
  rw [hrest]
  simp

theorem exists_sourceGroup (hnamed : n.NamedByDbt) (hkind : n.resourceType = .source) :
    ∃ source table, Plain source ∧ Plain n.package ∧
      n.uniqueId = idUnder .source n.package (source ++ "." ++ table) ∧
      Manifest.sourceGroup n.uniqueId = .ok (toLex (n.package, source)) := by
  obtain ⟨hpackage, hid⟩ := hnamed
  rw [hkind] at hid
  obtain ⟨source, table, hsource, hid⟩ := hid
  exact ⟨source, table, hsource, hpackage, hid, hid ▸ sourceGroup_named hpackage hsource⟩

theorem sourceRules_ok (hnamed : ∀ n ∈ m.nodes, n.NamedByDbt) :
    ∃ rules, m.sourceRules = .ok rules := by
  obtain ⟨groups, hgroups⟩ := exists_mapM_eq_ok (l := m.ofType .source)
      (f := fun n => Manifest.sourceGroup n.uniqueId) fun n hn => by
    obtain ⟨hn, hkind⟩ := List.mem_filter.mp hn
    obtain ⟨source, table, -, -, -, hgroup⟩ := exists_sourceGroup (hnamed n hn)
      (of_decide_eq_true hkind)
    exact ⟨_, hgroup⟩
  exact ⟨_, bind_eq_ok.mpr ⟨groups, hgroups, rfl⟩⟩

theorem rulesOf_sources (h : m.sourceRules = .ok rules) : RulesOf .source rules := by
  obtain ⟨groups, -, heq⟩ := bind_eq_ok.mp h
  obtain rfl := pure_eq_ok.mp heq
  intro r hr
  obtain ⟨group, -, rfl⟩ := List.mem_map.mp hr
  refine ⟨(ofLex group).1 ++ "." ++ (ofLex group).2 ++ ".*", ?_⟩
  simp [ResourceType.text, String.append_assoc]

/-- **A source table is matched by the rule of its source**, and by no other. -/
theorem hits_sources (hnamed : ∀ n ∈ m.nodes, n.NamedByDbt) (h : m.sourceRules = .ok rules)
    (hn : n ∈ m.nodes) (hkind : n.resourceType = .source) : hits n.uniqueId rules = 1 := by
  obtain ⟨groups, hgroups, heq⟩ := bind_eq_ok.mp h
  obtain rfl := pure_eq_ok.mp heq
  obtain ⟨source, table, hsource, hpackage, hid, hgroup⟩ := exists_sourceGroup (hnamed n hn) hkind
  -- The rules are a pattern for each group: the source's own matches, and no other does.
  have hmem : toLex (n.package, source) ∈ groups := by
    obtain ⟨group, hmem, hown⟩ := exists_image_of_mem hgroups
      (List.mem_filter.mpr ⟨hn, decide_eq_true hkind⟩)
    obtain rfl := Except.ok.inj (hgroup.symm.trans hown)
    exact hmem
  rw [hits, List.map_map, List.countP_map]
  apply countP_eq_one (nodup_sortedSet _) (mem_sortedSet.mpr hmem)
  intro group hgroupMem
  obtain ⟨n', hn', hgroup'⟩ := exists_preimage_of_mem hgroups (mem_sortedSet.mp hgroupMem)
  obtain ⟨hn', hkind'⟩ := List.mem_filter.mp hn'
  obtain ⟨source', table', hsource', hpackage', -, hown⟩ := exists_sourceGroup (hnamed n' hn')
    (of_decide_eq_true hkind')
  obtain rfl := Except.ok.inj (hown.symm.trans hgroup')
  have hpattern : "source." ++ n'.package ++ "." ++ source' ++ ".*" =
      idUnder .source n'.package (source' ++ ".") ++ "*" := by
    simp [idUnder, ResourceType.text, String.append_assoc]
  -- No name has a star or a dot: a pattern matches by its start, up to the dot behind the name.
  have hfree : GlobFree (idUnder .source n'.package (source' ++ ".")).toList := by
    refine globFree_idUnder hpackage' ?_
    rw [String.toList_append]
    exact hsource'.globFree.append (by simp [GlobFree, isGlob])
  show fnmatchcase n.uniqueId ("source." ++ n'.package ++ "." ++ source' ++ ".*") = true ↔ _
  rw [hpattern, fnmatchcase_star hfree, hid, idUnder_prefix_iff hpackage' hpackage]
  have hdotted :
      (source' ++ ".").toList <+: (source ++ "." ++ table).toList ↔ source' = source := by
    have hrest := dotted_prefix_iff (s := []) (t := table.toList) hsource'.no_dot hsource.no_dot
    simpa [String.toList_inj] using hrest
  rw [hdotted, toLex_inj, Prod.mk.injEq]
  simp

/-! ### Packages -/

section Packages

variable {nodes : List Node} {comment : String → String} {package rest : String}

theorem rulesOf_packages (nodes : List Node) (kind : ResourceType) (comment : String → String) :
    RulesOf kind (Manifest.packageRules nodes kind comment) := by
  intro r hr
  obtain ⟨package, -, rfl⟩ := List.mem_map.mp hr
  exact ⟨package ++ ".*", by simp [String.append_assoc]⟩

private theorem matches_package {package' : String} (hpackage : Plain package)
    (hpackage' : Plain package') :
    fnmatchcase (idUnder kind package rest) (kind.text ++ "." ++ package' ++ ".*") = true ↔
      package' = package := by
  have hpattern : kind.text ++ "." ++ package' ++ ".*" = idUnder kind package' "" ++ "*" := by
    simp [idUnder, String.append_assoc]
  rw [hpattern, fnmatchcase_star (globFree_idUnder hpackage' (by simp [GlobFree])),
    idUnder_prefix_iff hpackage' hpackage]
  simp

theorem hits_packages (hpackages : ∀ n ∈ nodes, Plain n.package) (hpackage : Plain package)
    (hmem : package ∈ nodes.map Node.package) :
    hits (idUnder kind package rest) (Manifest.packageRules nodes kind comment) = 1 := by
  rw [hits, Manifest.packageRules, List.map_map, List.countP_map]
  apply countP_eq_one (nodup_sortedSet _) (mem_sortedSet.mpr hmem)
  intro package' hpackage'
  obtain ⟨n, hn, rfl⟩ := List.mem_map.mp (mem_sortedSet.mp hpackage')
  exact matches_package hpackage (hpackages n hn)

theorem no_hits_packages (hpackages : ∀ n ∈ nodes, Plain n.package) (hpackage : Plain package)
    (hmem : package ∉ nodes.map Node.package) :
    hits (idUnder kind package rest) (Manifest.packageRules nodes kind comment) = 0 := by
  rw [hits, Manifest.packageRules, List.map_map, List.countP_map, List.countP_eq_zero]
  intro package' hpackage' hmatch
  obtain ⟨n, hn, rfl⟩ := List.mem_map.mp (mem_sortedSet.mp hpackage')
  rw [Function.comp_apply, Function.comp_apply, matches_package hpackage (hpackages n hn)] at hmatch
  exact hmem (hmatch ▸ List.mem_map_of_mem hn)

end Packages

/-! ### Exposures -/

theorem rulesOf_exposures (m : Manifest) : RulesOf .exposure m.exposureRules := by
  intro r hr
  obtain ⟨n, hn, rfl⟩ := List.mem_map.mp hr
  obtain ⟨hn, hkind⟩ := List.mem_filter.mp (mem_sortBy.mp hn)
  have hstart := m.kinds n hn
  rw [of_decide_eq_true hkind, startsWith, List.isPrefixOf_iff_prefix] at hstart
  obtain ⟨rest, hrest⟩ := hstart
  refine ⟨String.ofList rest, ?_⟩
  rw [← String.toList_inj, String.toList_append, String.toList_ofList]
  exact hrest.symm

theorem nodup_nodes (m : Manifest) : m.nodes.Nodup :=
  m.unique.of_map

theorem hits_exposures (hnamed : ∀ n ∈ m.nodes, n.NamedByDbt) (hn : n ∈ m.nodes)
    (hkind : n.resourceType = .exposure) : hits n.uniqueId m.exposureRules = 1 := by
  rw [hits, Manifest.exposureRules, List.map_map, List.countP_map]
  have hnodup : (sortBy Node.uniqueId (m.ofType .exposure)).Nodup :=
    (perm_sortBy _ _).nodup_iff.mpr ((nodup_nodes m).filter _)
  apply countP_eq_one hnodup
    (mem_sortBy.mpr (List.mem_filter.mpr ⟨hn, decide_eq_true hkind⟩))
  intro n' hn'
  obtain ⟨hn', hkind'⟩ := List.mem_filter.mp (mem_sortBy.mp hn')
  -- An exposure's pattern is its id.
  have hfree := (hnamed n' hn').2
  rw [of_decide_eq_true hkind'] at hfree
  show fnmatchcase n.uniqueId n'.uniqueId = true ↔ _
  rw [fnmatchcase_exact hfree]
  constructor
  · intro heq
    exact (List.inj_on_of_nodup_map m.unique hn hn' heq).symm
  · rintro rfl
    rfl

end Families

/-! ## The models of the root project -/

section Models

variable {m : Manifest} {root folder pattern : String} {n n' : Node} {fuel : ℕ}
  {rules : List StarterRule} {patterns : List String}

theorem mem_ofType {kind : ResourceType} :
    n ∈ m.ofType kind ↔ n ∈ m.nodes ∧ n.resourceType = kind := by
  rw [Manifest.ofType, List.mem_filter, decide_eq_true_eq]

theorem mem_rootModels : n ∈ m.rootModels root ↔
    n ∈ m.nodes ∧ n.resourceType = .model ∧ n.package = root := by
  rw [Manifest.rootModels, List.mem_filter, mem_ofType, decide_eq_true_eq, and_assoc]

theorem mem_namesIn {name : String} : name ∈ m.namesIn root folder ↔
    ∃ n ∈ m.rootModels root, folderOf n.path = folder ∧ n.name = name := by
  rw [Manifest.namesIn, mem_sortBy, List.mem_map]
  simp only [List.mem_filter, decide_eq_true_eq, and_assoc]

theorem mem_rootIds {id : String} : id ∈ m.rootIds root ↔
    ∃ n ∈ m.rootModels root, n.uniqueId = id := by
  rw [Manifest.rootIds, mem_sortBy, List.mem_map]

theorem plain_model (hnamed : ∀ n ∈ m.nodes, n.NamedByDbt) (hn : n ∈ m.rootModels root) :
    Plain root ∧ Plain n.name := by
  obtain ⟨hnode, hkind, rfl⟩ := mem_rootModels.mp hn
  obtain ⟨hpackage, hid⟩ := hnamed n hnode
  rw [hkind] at hid
  exact ⟨hpackage, hid.1⟩

theorem globFree_namesIn (hnamed : ∀ n ∈ m.nodes, n.NamedByDbt) :
    ∀ name ∈ m.namesIn root folder, GlobFree name.toList := by
  intro name hname
  obtain ⟨n, hn, -, rfl⟩ := mem_namesIn.mp hname
  exact (plain_model hnamed hn).2.globFree

theorem exists_rest_of_model (h : n.uniqueId = modelId n.package n.name ∨
    ∃ version, n.uniqueId = modelId n.package n.name ++ ".v" ++ version) :
    ∃ rest, n.uniqueId = idUnder .model n.package rest := by
  rcases h with hid | ⟨version, hid⟩
  · exact ⟨n.name, hid.trans (modelId_eq _ _)⟩
  · refine ⟨n.name ++ ".v" ++ version, hid.trans ?_⟩
    simp [modelId_eq, idUnder, String.append_assoc]

/-- A pattern of a folder matches models of the root project only. -/
theorem package_of_match (hnamed : ∀ n ∈ m.nodes, n.NamedByDbt) (hn : n ∈ m.ofType .model)
    (hpatterns : m.folderPatterns root fuel folder = .ok patterns) (hp : pattern ∈ patterns)
    (hroot : Plain root) (hmatch : fnmatchcase n.uniqueId pattern = true) : n.package = root := by
  obtain ⟨rest, rfl⟩ := modelId_of_cover hpatterns hp
  obtain ⟨hn, hkind⟩ := mem_ofType.mp hn
  obtain ⟨hpackage, hid⟩ := hnamed n hn
  rw [hkind] at hid
  have hlead : (idUnder .model root "").toList <+: (modelId root rest).toList := by
    rw [modelId_eq, idUnder_prefix_iff hroot hroot]
    simp
  have hstart := prefix_of_fnmatchcase (globFree_idUnder hroot (by simp [GlobFree])) hlead hmatch
  obtain ⟨rest', hrest'⟩ := exists_rest_of_model hid.2
  rw [hrest', idUnder_prefix_iff hroot hpackage] at hstart
  exact hstart.2.1.symm

/-- The rules of a folder are its patterns, the first one labelled. -/
theorem modelRules_patterns (h : m.modelRules root fuel = .ok rules) :
    ∃ groups, (sortedSet ((m.rootModels root).map fun n => folderOf n.path)).mapM
        (m.folderPatterns root fuel) = .ok groups ∧
      rules.map StarterRule.pattern = groups.flatten := by
  obtain ⟨ruleGroups, hgroups, heq⟩ := bind_eq_ok.mp h
  obtain rfl := pure_eq_ok.mp heq
  clear h heq
  rw [mapM_eq_ok_iff] at hgroups
  simp only [mapM_eq_ok_iff]
  generalize sortedSet ((m.rootModels root).map fun n => folderOf n.path) = folders at hgroups ⊢
  induction hgroups with
  | nil => exact ⟨[], .nil, rfl⟩
  | cons hone _ ih =>
    obtain ⟨groups, hrest, hflatten⟩ := ih
    obtain ⟨patterns, hpatterns, heq⟩ := bind_eq_ok.mp hone
    obtain rfl := pure_eq_ok.mp heq
    refine ⟨patterns :: groups, .cons hpatterns hrest, ?_⟩
    rw [List.flatten_cons, List.map_append, hflatten, List.flatten_cons]
    congr 1
    -- The first pattern of a folder is labelled with it; the patterns stay.
    apply List.ext_getElem?
    intro i
    simp only [List.getElem?_map, List.getElem?_mapIdx, Option.map_map]
    cases patterns[i]? <;> rfl

/-- No rule of a folder is about anything but models. -/
theorem rulesOf_models (h : m.modelRules root fuel = .ok rules) : RulesOf .model rules := by
  obtain ⟨groups, hgroups, hflatten⟩ := modelRules_patterns h
  intro r hr
  have hmem : r.pattern ∈ groups.flatten := hflatten ▸ List.mem_map_of_mem hr
  obtain ⟨group, hgroup, hpattern⟩ := List.mem_flatten.mp hmem
  obtain ⟨folder, -, hpatterns⟩ := exists_preimage_of_mem hgroups hgroup
  obtain ⟨rest, hrest⟩ := modelId_of_cover hpatterns hpattern
  refine ⟨root ++ "." ++ rest, ?_⟩
  rw [hrest, modelId_eq, idUnder]
  simp [String.append_assoc]

/-- Models of installed packages are left alone. -/
theorem no_hits_models (hnamed : ∀ n ∈ m.nodes, n.NamedByDbt) (hn : n ∈ m.ofType .model)
    (hpackage : n.package ≠ root) (h : m.modelRules root fuel = .ok rules) :
    hits n.uniqueId rules = 0 := by
  obtain ⟨groups, hgroups, hflatten⟩ := modelRules_patterns h
  rw [hits, hflatten, List.countP_eq_zero]
  intro pattern hpattern hmatch
  obtain ⟨group, hgroup, hpattern⟩ := List.mem_flatten.mp hpattern
  obtain ⟨folder, hfolder, hpatterns⟩ := exists_preimage_of_mem hgroups hgroup
  obtain ⟨first, hfirst, -⟩ := List.mem_map.mp (mem_sortedSet.mp hfolder)
  have hroot := (plain_model hnamed hfirst).1
  exact hpackage (package_of_match hnamed hn hpatterns hpattern hroot hmatch)

/-- No model of the root project is versioned. -/
def Unversioned (m : Manifest) (root : String) : Prop :=
  ∀ n ∈ m.rootModels root, n.uniqueId = modelId root n.name

theorem eq_of_name (hunversioned : Unversioned m root) (hn : n ∈ m.rootModels root)
    (hn' : n' ∈ m.rootModels root) (h : n.name = n'.name) : n = n' := by
  apply List.inj_on_of_nodup_map m.unique (mem_rootModels.mp hn).1 (mem_rootModels.mp hn').1
  rw [hunversioned n hn, hunversioned n' hn', h]

theorem nodup_namesIn (hunversioned : Unversioned m root) (folder : String) :
    (m.namesIn root folder).Nodup := by
  refine (perm_sortBy _ _).nodup_iff.mpr (List.Nodup.map_on ?_ ?_)
  · intro n hn n' hn' heq
    exact eq_of_name hunversioned (List.mem_of_mem_filter hn) (List.mem_of_mem_filter hn') heq
  · exact (((nodup_nodes m).filter _).filter _).filter _

/-- **A model of the root project is matched by one pattern of its folder**, and by none of
another. -/
theorem hits_models (hnamed : ∀ n ∈ m.nodes, n.NamedByDbt) (hunversioned : Unversioned m root)
    (hn : n ∈ m.rootModels root) (h : m.modelRules root fuel = .ok rules) :
    hits n.uniqueId rules = 1 := by
  obtain ⟨groups, hgroups, hflatten⟩ := modelRules_patterns h
  have hroot := (plain_model hnamed hn).1.globFree
  have hid : modelId root n.name ∈ m.rootIds root :=
    mem_rootIds.mpr ⟨n, hn, hunversioned n hn⟩
  have hfolder : folderOf n.path ∈ sortedSet ((m.rootModels root).map fun n => folderOf n.path) :=
    mem_sortedSet.mpr (List.mem_map_of_mem hn)
  rw [hits, hflatten, countP_flatten_of_groups (nodup_sortedSet _) hgroups (k := folderOf n.path),
    if_pos hfolder]
  intro folder _ patterns hpatterns
  rw [hunversioned n hn]
  split
  · rename_i heq
    -- Its own folder: the search covers the name once.
    apply hits_cover hroot (globFree_namesIn hnamed) (nodup_namesIn hunversioned folder) _ hid
      hpatterns
    exact mem_namesIn.mpr ⟨n, hn, heq.symm, rfl⟩
  · rename_i hne
    -- Another folder: a name there with the same id would be the same model.
    apply no_hits_cover hroot (globFree_namesIn hnamed) hid _ hpatterns
    intro hmem
    obtain ⟨name, hname, heq⟩ := List.mem_map.mp hmem
    obtain rfl := modelId_inj.mp heq
    obtain ⟨n', hn', hfolder', hname'⟩ := mem_namesIn.mp hname
    obtain rfl := eq_of_name hunversioned hn' hn hname'
    exact hne hfolder'.symm

/-- A pattern of a folder matches models of that folder only. -/
theorem folder_of_match (hnamed : ∀ n ∈ m.nodes, n.NamedByDbt) (hunversioned : Unversioned m root)
    (hn : n ∈ m.ofType .model) (hpatterns : m.folderPatterns root fuel folder = .ok patterns)
    (hp : pattern ∈ patterns) (hmatch : fnmatchcase n.uniqueId pattern = true) :
    n.package = root ∧ folderOf n.path = folder := by
  -- A folder with a pattern has a model, whose package is the root project.
  have hroot : Plain root := by
    by_contra hnot
    have hempty : m.namesIn root folder = [] := by
      by_contra hne
      obtain ⟨name, hname⟩ := List.exists_mem_of_ne_nil _ hne
      obtain ⟨n', hn', -⟩ := mem_namesIn.mp hname
      exact hnot (plain_model hnamed hn').1
    rw [Manifest.folderPatterns, hempty] at hpatterns
    rw [cover_nil hpatterns] at hp
    cases hp
  have hpackage := package_of_match hnamed hn hpatterns hp hroot hmatch
  refine ⟨hpackage, ?_⟩
  obtain ⟨hnode, hkind⟩ := mem_ofType.mp hn
  have hmodel : n ∈ m.rootModels root := mem_rootModels.mpr ⟨hnode, hkind, hpackage⟩
  have hmem := mem_of_cover hroot.globFree (globFree_namesIn hnamed) hpatterns hp
    (mem_rootIds.mpr ⟨n, hmodel, rfl⟩) hmatch
  obtain ⟨name, hname, heq⟩ := List.mem_map.mp hmem
  rw [hunversioned n hmodel] at heq
  obtain rfl := modelId_inj.mp heq
  obtain ⟨n', hn', hfolder', hname'⟩ := mem_namesIn.mp hname
  obtain rfl := eq_of_name hunversioned hn' hmodel hname'
  exact hfolder'

/-- A versioned model is matched by no rule of a folder. -/
theorem no_hits_versioned (hnamed : ∀ n ∈ m.nodes, n.NamedByDbt) (hn : n ∈ m.rootModels root)
    (hversioned : n.uniqueId ≠ modelId root n.name) (h : m.modelRules root fuel = .ok rules) :
    hits n.uniqueId rules = 0 := by
  obtain ⟨groups, hgroups, hflatten⟩ := modelRules_patterns h
  rw [hits, hflatten, List.countP_eq_zero]
  intro pattern hpattern hmatch
  obtain ⟨group, hgroup, hpattern⟩ := List.mem_flatten.mp hpattern
  obtain ⟨folder, -, hpatterns⟩ := exists_preimage_of_mem hgroups hgroup
  have hmem := mem_of_cover (plain_model hnamed hn).1.globFree (globFree_namesIn hnamed) hpatterns
    hpattern (mem_rootIds.mpr ⟨n, hn, rfl⟩) hmatch
  obtain ⟨name, hname, heq⟩ := List.mem_map.mp hmem
  obtain ⟨n', hn', -, rfl⟩ := mem_namesIn.mp hname
  obtain ⟨hnode, hkind, rfl⟩ := mem_rootModels.mp hn
  have hid := (hnamed n hnode).2
  rw [hkind] at hid
  obtain ⟨version, hid⟩ := hid.2.resolve_left hversioned
  -- Its id has a dot behind the name, which no name has.
  have hname' : n'.name = n.name ++ ".v" ++ version := by
    rw [hid] at heq
    apply (@modelId_inj n.package _ _).mp
    rw [heq]
    simp [modelId, String.append_assoc]
  have hplain := (plain_model hnamed hn').2
  rw [hname'] at hplain
  exact hplain.no_dot (by simp)

/-- A group's names share a prefix that no other model of the root project starts with. -/
def OwnPrefix (m : Manifest) (root : String) (group : List String) : Prop :=
  commonPrefixOf group ≠ "" ∧ ∀ n ∈ m.rootModels root,
    (commonPrefixOf group).toList <+: n.name.toList → n.name ∈ group

/-- Two models of a folder whose names differ only in the underscores they start with share some
number of name tokens with a group that has a prefix of its own. -/
def ToldApart (m : Manifest) (root : String) : Prop :=
  ∀ n ∈ m.rootModels root, ∀ n' ∈ m.rootModels root, folderOf n.path = folderOf n'.path →
    n.name ≠ n'.name → bareName n.name = bareName n'.name →
    ∃ depth, OwnPrefix m root (agreeing (m.namesIn root (folderOf n.path)) n.name depth)

theorem rejected_iff_ownPrefix (hnamed : ∀ n ∈ m.nodes, n.NamedByDbt)
    (hunversioned : Unversioned m root) (hn : n ∈ m.rootModels root) {group : List String}
    (hgroup : n.name ∈ group) :
    rejected root (m.rootIds root) group = false ↔ OwnPrefix m root group := by
  obtain ⟨hroot, hname⟩ := plain_model hnamed hn
  have hfree := globFree_modelId hroot.globFree
    (hname.globFree.of_isPrefix (commonPrefixOf_isPrefix hgroup))
  rw [rejected_eq_false_iff, OwnPrefix]
  refine and_congr_right fun _ => ?_
  constructor
  · intro hinside n' hn' hprefix
    -- An id starts with the pattern's prefix exactly if the model's name does.
    have hid := hinside n'.uniqueId (mem_rootIds.mpr ⟨n', hn', rfl⟩)
    rw [fnmatchcase_star hfree, hunversioned n' hn', modelId_prefix_iff] at hid
    obtain ⟨name, hname, heq⟩ := List.mem_map.mp (hid hprefix)
    exact modelId_inj.mp heq ▸ hname
  · intro hinside id hid hmatch
    obtain ⟨n', hn', rfl⟩ := mem_rootIds.mp hid
    rw [fnmatchcase_star hfree, hunversioned n' hn', modelId_prefix_iff] at hmatch
    rw [hunversioned n' hn']
    exact List.mem_map_of_mem (hinside n' hn' hmatch)

theorem mem_agreeing_self {names : List String} {name : String} (h : name ∈ names) (depth : ℕ) :
    name ∈ agreeing names name depth :=
  List.mem_filter.mpr ⟨h, decide_eq_true fun _ _ => rfl⟩

theorem separable_of_toldApart (hnamed : ∀ n ∈ m.nodes, n.NamedByDbt)
    (hunversioned : Unversioned m root) (happart : ToldApart m root) (folder : String) :
    Separable root (m.rootIds root) (m.namesIn root folder) := by
  intro name hname name' hname' hne hbare
  have hmem := hname
  obtain ⟨n, hn, rfl, rfl⟩ := mem_namesIn.mp hname
  obtain ⟨n', hn', hfolder, rfl⟩ := mem_namesIn.mp hname'
  obtain ⟨depth, hown⟩ := happart n hn n' hn' hfolder.symm hne hbare
  exact ⟨depth, (rejected_iff_ownPrefix hnamed hunversioned hn (mem_agreeing_self hmem _)).mpr hown⟩

theorem modelRules_ok (hnamed : ∀ n ∈ m.nodes, n.NamedByDbt) (hunversioned : Unversioned m root)
    (happart : ToldApart m root) :
    ∃ bound, ∀ fuel ≥ bound, ∃ rules, m.modelRules root fuel = .ok rules := by
  -- The longest name bounds the search.
  set longest := (m.nodes.map fun n => n.name.toList.length).foldr max 0 with hlongest
  refine ⟨longest + 2, fun fuel hfuel => ?_⟩
  obtain ⟨ruleGroups, hgroups⟩ := exists_mapM_eq_ok
      (l := sortedSet ((m.rootModels root).map fun n => folderOf n.path))
      (f := m.folderRules root fuel) fun folder _ => by
    have hnames : ∀ name ∈ m.namesIn root folder, name.toList.length ≤ longest := by
      intro name hname
      obtain ⟨n, hn, -, rfl⟩ := mem_namesIn.mp hname
      have hlength : n.name.toList.length ∈ m.nodes.map fun n => n.name.toList.length :=
        List.mem_map_of_mem (mem_rootModels.mp hn).1
      exact List.le_max_of_le hlength le_rfl
    obtain ⟨patterns, hpatterns⟩ : ∃ patterns,
        cover root (m.rootIds root) fuel (m.namesIn root folder) 0 = .ok patterns :=
      cover_ok hnames (nodup_namesIn hunversioned folder)
        (separableFrom_zero.mpr (separable_of_toldApart hnamed hunversioned happart folder))
        (by omega) (by omega)
    exact ⟨_, bind_eq_ok.mpr ⟨patterns, hpatterns, rfl⟩⟩
  exact ⟨_, bind_eq_ok.mpr ⟨ruleGroups, hgroups, rfl⟩⟩

theorem toldApart_of_modelRules (hnamed : ∀ n ∈ m.nodes, n.NamedByDbt)
    (hunversioned : Unversioned m root) (h : m.modelRules root fuel = .ok rules) :
    ToldApart m root := by
  intro n hn n' hn' hfolder hne hbare
  obtain ⟨groups, hgroups, -⟩ := modelRules_patterns h
  have hfolders : folderOf n.path ∈ sortedSet ((m.rootModels root).map fun n => folderOf n.path) :=
    mem_sortedSet.mpr (List.mem_map_of_mem hn)
  obtain ⟨patterns, -, hpatterns⟩ := exists_image_of_mem hgroups hfolders
  have hname : n.name ∈ m.namesIn root (folderOf n.path) := mem_namesIn.mpr ⟨n, hn, rfl, rfl⟩
  have hname' : n'.name ∈ m.namesIn root (folderOf n.path) :=
    mem_namesIn.mpr ⟨n', hn', hfolder.symm, rfl⟩
  rw [Manifest.folderPatterns] at hpatterns
  obtain ⟨depth, hdepth⟩ :=
    separableFrom_zero.mp (separableFrom_of_cover hpatterns) _ hname _ hname' hne hbare
  exact ⟨depth,
    (rejected_iff_ownPrefix hnamed hunversioned hn (mem_agreeing_self hname _)).mp hdepth⟩

end Models

/-! ## The starter registry -/

section Starter

variable {m : Manifest} {root : String} {fuel : ℕ} {rules : List StarterRule} {n : Node}

/-- Every owned dataset has exactly one rule, and the patterns of a folder are about its own
models. -/
structure CoversOnce (m : Manifest) (root : String) (fuel : ℕ) (rules : List StarterRule) : Prop
    where
  once : ∀ n ∈ m.nodes, n.resourceType ∈ ownedTypes → hits n.uniqueId rules = 1
  own : ∀ folder patterns, m.folderPatterns root fuel folder = .ok patterns →
    ∀ pattern ∈ patterns, ∀ n ∈ m.ofType .model, fnmatchcase n.uniqueId pattern = true →
      n.package = root ∧ folderOf n.path = folder

/-- **The starter registry covers every dataset exactly once**: given enough stack, the search
comes to an end, with rules that do. -/
def StarterCovers (m : Manifest) (root : String) : Prop :=
  ∃ bound, ∀ fuel ≥ bound, ∃ rules, m.starterRules root fuel = .ok rules ∧
    CoversOnce m root fuel rules

theorem starterRules_ok_iff : m.starterRules root fuel = .ok rules ↔
    ∃ sources models, m.sourceRules = .ok sources ∧ m.modelRules root fuel = .ok models ∧
      rules = sources ++
        Manifest.packageRules (m.ofType .seed) .seed ("seeds of " ++ ·) ++
        Manifest.packageRules (m.ofType .snapshot) .snapshot ("snapshots of " ++ ·) ++
        models ++
        Manifest.packageRules ((m.ofType .model).filter fun n => n.package ≠ root) .model
          ("models from the installed package " ++ ·) ++
        m.exposureRules := by
  simp only [Manifest.starterRules, bind_eq_ok, pure_eq_ok]
  constructor
  · rintro ⟨sources, hsources, models, hmodels, rfl⟩
    exact ⟨sources, models, hsources, hmodels, rfl⟩
  · rintro ⟨sources, models, hsources, hmodels, rfl⟩
    exact ⟨sources, hsources, models, hmodels, rfl⟩

/-- The rules about one type of node. -/
private def familyOf (m : Manifest) (root : String) (sources models : List StarterRule) :
    ResourceType → List StarterRule
  | .source => sources
  | .seed => Manifest.packageRules (m.ofType .seed) .seed ("seeds of " ++ ·)
  | .snapshot => Manifest.packageRules (m.ofType .snapshot) .snapshot ("snapshots of " ++ ·)
  | .model => models ++ Manifest.packageRules
      ((m.ofType .model).filter fun n => n.package ≠ root) .model
      ("models from the installed package " ++ ·)
  | .exposure => m.exposureRules
  | .test => []

/-- Of a dataset, only the rules about its type count. -/
theorem hits_familyOf (h : m.starterRules root fuel = .ok rules) (hn : n ∈ m.nodes) :
    ∃ sources models, m.sourceRules = .ok sources ∧ m.modelRules root fuel = .ok models ∧
      hits n.uniqueId rules = hits n.uniqueId (familyOf m root sources models n.resourceType) := by
  obtain ⟨sources, models, hsources, hmodels, rfl⟩ := starterRules_ok_iff.mp h
  refine ⟨sources, models, hsources, hmodels, ?_⟩
  have hother : ∀ {kind rules}, RulesOf kind rules → n.resourceType ≠ kind →
      hits n.uniqueId rules = 0 := fun hrules => hits_of_other hrules hn
  have hnoSource := hother (rulesOf_sources hsources)
  have hnoModel := hother (rulesOf_models hmodels)
  have hnoExposure := hother (rulesOf_exposures m)
  have hnoPackage := fun nodes kind comment => hother (rulesOf_packages nodes kind comment)
  cases hkind : n.resourceType <;> rw [hkind] at hnoSource hnoModel hnoExposure hnoPackage <;>
    simp [familyOf, hnoSource, hnoModel, hnoExposure, hnoPackage]

/-- A seed or a snapshot has the rule of its package. -/
private theorem hits_ofType (hnamed : ∀ n ∈ m.nodes, n.NamedByDbt) {kind : ResourceType}
    (hn : n ∈ m.ofType kind) (hid : ∃ name, n.uniqueId = idUnder kind n.package name)
    (comment : String → String) :
    hits n.uniqueId (Manifest.packageRules (m.ofType kind) kind comment) = 1 := by
  have hplain : ∀ n ∈ m.ofType kind, Plain n.package :=
    fun n hn => (hnamed n (mem_ofType.mp hn).1).1
  obtain ⟨name, hid⟩ := hid
  rw [hid]
  apply hits_packages hplain (hplain n hn)
  exact List.mem_map_of_mem hn

/-- A model has the rule of its package, if that is an installed one. -/
private theorem hits_installed (hnamed : ∀ n ∈ m.nodes, n.NamedByDbt) (hn : n ∈ m.ofType .model)
    (comment : String → String) : hits n.uniqueId (Manifest.packageRules
      ((m.ofType .model).filter fun n' => n'.package ≠ root) .model comment) =
        if n.package = root then 0 else 1 := by
  have hpackages : ∀ n' ∈ (m.ofType .model).filter fun n' => n'.package ≠ root, Plain n'.package :=
    fun n' hn' => (hnamed n' (mem_ofType.mp (List.mem_of_mem_filter hn')).1).1
  obtain ⟨hnode, hkind⟩ := mem_ofType.mp hn
  obtain ⟨hpackage, hid⟩ := hnamed n hnode
  rw [hkind] at hid
  obtain ⟨rest, hrest⟩ := exists_rest_of_model hid.2
  rw [hrest]
  split
  · rename_i heq
    -- The root project is left out of the installed packages.
    apply no_hits_packages hpackages hpackage
    intro hin
    obtain ⟨n', hn', hsame⟩ := List.mem_map.mp hin
    exact of_decide_eq_true (List.mem_filter.mp hn').2 (hsame.trans heq)
  · rename_i hne
    apply hits_packages hpackages hpackage
    exact List.mem_map_of_mem (List.mem_filter.mpr ⟨hn, decide_eq_true hne⟩)

/-- **An owned dataset has one rule**, a model of the root project what its folder's rules are. -/
theorem hits_starterRules (hnamed : ∀ n ∈ m.nodes, n.NamedByDbt)
    (h : m.starterRules root fuel = .ok rules) (hn : n ∈ m.nodes)
    (howned : n.resourceType ∈ ownedTypes) :
    (n ∉ m.rootModels root → hits n.uniqueId rules = 1) ∧
      (n ∈ m.rootModels root → ∃ models, m.modelRules root fuel = .ok models ∧
        hits n.uniqueId rules = hits n.uniqueId models) := by
  obtain ⟨sources, models, hsources, hmodels, hfamily⟩ := hits_familyOf h hn
  rw [hfamily]
  have hid := (hnamed n hn).2
  by_cases hmodel : n.resourceType = .model
  · -- Models of the root project have the rules of their folders, others of their package.
    have hmem : n ∈ m.ofType .model := mem_ofType.mpr ⟨hn, hmodel⟩
    rw [hmodel, familyOf, hits_append, hits_installed hnamed hmem]
    constructor
    · intro hroot
      have hne : n.package ≠ root := fun heq => hroot (mem_rootModels.mpr ⟨hn, hmodel, heq⟩)
      rw [no_hits_models hnamed hmem hne hmodels, if_neg hne]
    · intro hroot
      rw [if_pos (mem_rootModels.mp hroot).2.2]
      exact ⟨models, hmodels, rfl⟩
  · refine ⟨fun _ => ?_, fun hroot => absurd (mem_rootModels.mp hroot).2.1 hmodel⟩
    cases hkind : n.resourceType with
    | source => exact hits_sources hnamed hsources hn hkind
    | seed =>
      rw [hkind] at hid
      exact hits_ofType hnamed (mem_ofType.mpr ⟨hn, hkind⟩) hid _
    | snapshot =>
      rw [hkind] at hid
      exact hits_ofType hnamed (mem_ofType.mpr ⟨hn, hkind⟩) hid _
    | model => exact absurd hkind hmodel
    | test => simp [hkind, ownedTypes] at howned
    | exposure => exact hits_exposures hnamed hn hkind

/-- **When the starter registry covers every dataset exactly once**: exactly if no model of the
root project is versioned, and names that differ only in the underscores they start with can be
told apart by a prefix. -/
theorem starterCovers_iff (hnamed : ∀ n ∈ m.nodes, n.NamedByDbt) :
    StarterCovers m root ↔ Unversioned m root ∧ ToldApart m root := by
  constructor
  · rintro ⟨bound, hcovers⟩
    obtain ⟨rules, hrules, honce, -⟩ := hcovers bound le_rfl
    -- A versioned model is matched by no rule, so none is covered once.
    have hunversioned : Unversioned m root := by
      intro n hn
      by_contra hversioned
      obtain ⟨hnode, hkind, -⟩ := mem_rootModels.mp hn
      have howned : n.resourceType ∈ ownedTypes := by simp [hkind, ownedTypes]
      obtain ⟨models, hmodels, hhits⟩ := (hits_starterRules hnamed hrules hnode howned).2 hn
      rw [no_hits_versioned hnamed hn hversioned hmodels, honce n hnode howned] at hhits
      cases hhits
    obtain ⟨sources, models, -, hmodels, -⟩ := starterRules_ok_iff.mp hrules
    exact ⟨hunversioned, toldApart_of_modelRules hnamed hunversioned hmodels⟩
  · rintro ⟨hunversioned, happart⟩
    obtain ⟨sources, hsources⟩ := sourceRules_ok hnamed
    -- The search ends, with rules for all.
    obtain ⟨bound, hbound⟩ := modelRules_ok hnamed hunversioned happart
    refine ⟨bound, fun fuel hfuel => ?_⟩
    obtain ⟨models, hmodels⟩ := hbound fuel hfuel
    have hrules := starterRules_ok_iff.mpr ⟨sources, models, hsources, hmodels, rfl⟩
    refine ⟨_, hrules, ?_, ?_⟩
    · intro n hn howned
      obtain ⟨hrest, hroot⟩ := hits_starterRules hnamed hrules hn howned
      by_cases hmem : n ∈ m.rootModels root
      · obtain ⟨models', hmodels', hhits⟩ := hroot hmem
        rw [hhits]
        exact hits_models hnamed hunversioned hmem hmodels'
      · exact hrest hmem
    · intro folder patterns hpatterns pattern hpattern n hn hmatch
      exact folder_of_match hnamed hunversioned hn hpatterns hpattern hmatch

end Starter

/-! ### Small projects -/

private def nodeOf (kind : ResourceType) (id name path : String) : Node where
  uniqueId := id
  resourceType := kind
  name := name
  path := path
  package := "acme"

private def stagingProject : Manifest where
  nodes := [nodeOf .source "source.acme.shop.orders" "orders" "models/sources.yml",
    nodeOf .model "model.acme.stg_orders" "stg_orders" "models/staging/stg_orders.sql",
    nodeOf .model "model.acme.stg_items" "stg_items" "models/staging/stg_items.sql"]
  unique := by simp [nodeOf]
  kinds := by decide

/-- A source and a folder of two models, each with its rule. -/
theorem starterCovers_iff_staging :
    (∀ n ∈ stagingProject.nodes, n.NamedByDbt) ∧ StarterCovers stagingProject "acme" := by
  have hplain : Plain "acme" := by simp [Plain, isGlob]
  have hnamed : ∀ n ∈ stagingProject.nodes, n.NamedByDbt := by
    intro n hn
    simp only [stagingProject, List.mem_cons, List.not_mem_nil, or_false] at hn
    rcases hn with rfl | rfl | rfl
    · exact ⟨hplain, "shop", "orders", by simp [Plain, isGlob], by decide⟩
    · exact ⟨hplain, by simp [nodeOf, Plain, isGlob], Or.inl (by decide)⟩
    · exact ⟨hplain, by simp [nodeOf, Plain, isGlob], Or.inl (by decide)⟩
  have hmodels : ∀ n ∈ stagingProject.rootModels "acme",
      n.uniqueId = modelId "acme" n.name ∧ n.name ∈ ["stg_orders", "stg_items"] := by
    intro n hn
    obtain ⟨hmem, hkind, -⟩ := mem_rootModels.mp hn
    simp only [stagingProject, List.mem_cons, List.not_mem_nil, or_false] at hmem
    rcases hmem with rfl | rfl | rfl
    · cases hkind
    · exact ⟨by decide, by simp [nodeOf]⟩
    · exact ⟨by decide, by simp [nodeOf]⟩
  refine ⟨hnamed, (starterCovers_iff hnamed).mpr ⟨fun n hn => (hmodels n hn).1, ?_⟩⟩
  intro n hn n' hn' _ hne hbare
  -- Neither name starts with an underscore.
  have hbares : ∀ name ∈ ["stg_orders", "stg_items"], bareName name = name.toList := by
    simp [bareName]
  rw [hbares _ (hmodels n hn).2, hbares _ (hmodels n' hn').2, String.toList_inj] at hbare
  exact absurd hbare hne

private def versionedProject : Manifest where
  nodes := [nodeOf .model "model.acme.orders.v1" "orders" "models/core/orders.sql"]
  unique := by simp
  kinds := by decide

/-- A versioned model is matched by no rule: its id is not `model.acme.orders`. -/
theorem versioned_uncovered : ¬ StarterCovers versionedProject "acme" := by
  rintro ⟨bound, hcovers⟩
  obtain ⟨rules, hrules, honce, -⟩ := hcovers (bound + 1) (by omega)
  have hrules' : versionedProject.starterRules "acme" (bound + 1) =
      .ok [{ pattern := "model.acme.orders", comment := "models/core (1 model)" }] := rfl
  obtain rfl := Except.ok.inj (hrules.symm.trans hrules')
  have hhits := honce (nodeOf .model "model.acme.orders.v1" "orders" "models/core/orders.sql")
    (by simp [versionedProject]) (by decide)
  revert hhits
  decide +kernel

private def underscoredProject : Manifest where
  nodes := [nodeOf .model "model.acme._orders" "_orders" "models/core/_orders.sql",
    nodeOf .model "model.acme.orders" "orders" "models/core/orders.sql"]
  unique := by simp [nodeOf]
  kinds := by decide

/-- Names that differ by a leading underscore only: the search never ends. -/
theorem underscored_uncovered : ¬ StarterCovers underscoredProject "acme" := by
  have hplain : Plain "acme" := by simp [Plain, isGlob]
  have hnamed : ∀ n ∈ underscoredProject.nodes, n.NamedByDbt := by
    intro n hn
    simp only [underscoredProject, List.mem_cons, List.not_mem_nil, or_false] at hn
    rcases hn with rfl | rfl
    · exact ⟨hplain, by simp [nodeOf, Plain, isGlob], Or.inl (by decide)⟩
    · exact ⟨hplain, by simp [nodeOf, Plain, isGlob], Or.inl (by decide)⟩
  have hunversioned : Unversioned underscoredProject "acme" := by
    intro n hn
    have hmem := (mem_rootModels.mp hn).1
    simp only [underscoredProject, List.mem_cons, List.not_mem_nil, or_false] at hmem
    rcases hmem with rfl | rfl <;> decide
  rintro ⟨bound, hcovers⟩
  obtain ⟨rules, hrules, -, -⟩ := hcovers bound le_rfl
  obtain ⟨sources, models, -, hmodels, -⟩ := starterRules_ok_iff.mp hrules
  obtain ⟨depth, hprefix, -⟩ := toldApart_of_modelRules hnamed hunversioned hmodels
    (nodeOf .model "model.acme._orders" "_orders" "models/core/_orders.sql")
    (mem_rootModels.mpr ⟨by simp [underscoredProject], rfl, rfl⟩)
    (nodeOf .model "model.acme.orders" "orders" "models/core/orders.sql")
    (mem_rootModels.mpr ⟨by simp [underscoredProject], rfl, rfl⟩)
    (by decide +kernel) (by simp [nodeOf]) (by decide +kernel)
  -- Both names are in every group, and they share no prefix.
  have hgroup : ∀ name ∈ ["_orders", "orders"],
      name ∈ agreeing (underscoredProject.namesIn "acme" "models/core") "_orders" depth := by
    intro name hname
    refine List.mem_filter.mpr ⟨?_, decide_eq_true fun i _ => tokenPrefix_congr ?_ i⟩
    · revert name
      decide +kernel
    · simp only [List.mem_cons, List.not_mem_nil, or_false] at hname
      rcases hname with rfl | rfl <;> decide +kernel
  have hfirst := commonPrefixOf_isPrefix (hgroup "_orders" (by simp))
  have hsecond := commonPrefixOf_isPrefix (hgroup "orders" (by simp))
  have hfolder : folderOf "models/core/_orders.sql" = "models/core" := by decide +kernel
  apply hprefix
  show commonPrefixOf (agreeing (underscoredProject.namesIn "acme"
    (folderOf "models/core/_orders.sql")) "_orders" depth) = ""
  rw [hfolder, ← String.toList_inj]
  cases hcommon : (commonPrefixOf (agreeing (underscoredProject.namesIn "acme" "models/core")
      "_orders" depth)).toList with
  | nil => simp
  | cons c rest =>
    rw [hcommon] at hfirst hsecond
    have hc : c = '_' := (List.cons_prefix_cons.mp hfirst).1
    have hc' : c = 'o' := (List.cons_prefix_cons.mp hsecond).1
    rw [hc] at hc'
    exact absurd hc' (by decide)

/-- The starter registry does not cover every project. -/
theorem starter_uncovered :
    ¬ StarterCovers versionedProject "acme" ∧ ¬ StarterCovers underscoredProject "acme" :=
  ⟨versioned_uncovered, underscored_uncovered⟩

end PlatformOps.Metadata
