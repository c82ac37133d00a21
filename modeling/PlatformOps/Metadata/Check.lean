import PlatformOps.Library.Ranking
import PlatformOps.Metadata.Bootstrap

/-!
# The Ownership Check

`platform-ops metadata check`: every dataset has exactly one owner. `run_check`
collects findings in two loops, over the rules and over the datasets of an owned
type, and a report passes when there is none.

- `passed_iff`: a report passes exactly if every rule is accountable and every
  dataset is owned.
- `runCheck_perm`: no order of rules, teams or nodes changes what it says.
-/

namespace PlatformOps.Metadata

open Listing Fallible Ranking

/-! ## The registry as it is loaded -/

/-- No value is there twice. -/
def checkUnique (message : String) (values : List String) : Except String Unit :=
  let duplicated := sortedSet (values.filter fun v => 1 < values.count v)
  raiseIf (duplicated ≠ []) (message ++ ", ".intercalate duplicated)

/-- `TeamsFile._unique_ids`. -/
def uniqueIds (teams : List Team) : Except String Unit :=
  checkUnique "duplicate team ids: " (teams.map Team.id)

/-- `OwnershipFile._unique_patterns`. -/
def uniquePatterns (datasets : List DatasetRule) : Except String Unit :=
  checkUnique "duplicate ownership patterns: " (datasets.map DatasetRule.pattern)

/-- What the loader checks of a whole registry. -/
structure Registry.Loaded (r : Registry) : Prop where
  ids : (r.teams.map Team.id).Nodup
  patterns : (r.rules.map DatasetRule.pattern).Nodup

/-- `Registry.load`, from the rows of its two files. -/
def Registry.load (teams : List Team) (datasets : List DatasetRule) : Except String Registry := do
  uniqueIds teams
  uniquePatterns datasets
  return { teams := teams, rules := datasets }

/-! ## Rules and datasets -/

/-- `_rank`. -/
def DatasetRule.specificityRank (rule : DatasetRule) : ℤ ×ₗ ℕ :=
  let (literal, wildcards) := specificity rule.pattern
  toLex (-(literal : ℤ), wildcards)

structure Resolution where
  uniqueId : String
  rule : Option DatasetRule
  candidates : List DatasetRule
deriving DecidableEq, Repr

namespace Resolution

/-- `Resolution.ambiguous`: the two best candidates are equally specific. -/
def ambiguous (res : Resolution) : Bool :=
  tied DatasetRule.specificityRank res.candidates

/-- `Resolution.owned`. -/
def owned (res : Resolution) : Bool :=
  res.rule.isSome && !res.ambiguous

/-- `_valid`. -/
def valid (res : Resolution) (broken : List String) : Bool :=
  res.owned && res.rule.any fun rule => rule.pattern ∉ broken

end Resolution

namespace Registry

variable (r : Registry)

/-- `resolve`. -/
def resolution (uniqueId : String) : Resolution where
  uniqueId := uniqueId
  rule := r.resolve uniqueId
  candidates := r.candidates uniqueId

/-- `self.teams.get(team)`. -/
def team (id : String) : Option Team :=
  r.teams.find? fun team => team.id = id

/-- One round of `rule_problems`: the problem of a rule, if it has one. -/
def ruleProblem (rule : DatasetRule) : Option String :=
  match r.team rule.team with
  | none => some ("rule '" ++ rule.pattern ++ "' names unknown team '" ++ rule.team ++ "'")
  | some team =>
    if rule.owner ∉ team.members then
      some ("rule '" ++ rule.pattern ++ "' names owner '" ++ rule.owner ++
        "', who is not a member of team '" ++ rule.team ++ "'")
    else match rule.backup with
      | none => none
      | some backup =>
        -- someone else on the same team
        if backup ∉ team.members ∨ backup = rule.owner then
          some ("rule '" ++ rule.pattern ++ "' names backup '" ++ backup ++
            "', who is not another member of team '" ++ rule.team ++ "'")
        else none

/-- `rule_problems`. -/
def ruleProblems : List (DatasetRule × String) :=
  r.rules.filterMap fun rule => (r.ruleProblem rule).map fun message => (rule, message)

end Registry

/-! ## The report -/

structure Finding where
  message : String
  node : Option String := none
  rule : Option String := none
  fix : String := ""
deriving DecidableEq, Repr

structure CheckReport where
  errorFindings : List Finding
  warningFindings : List Finding
  resolutions : List (String × Resolution)
  coverage : List (ResourceType × ℕ × ℕ)
deriving DecidableEq, Repr

def CheckReport.passed (report : CheckReport) : Bool :=
  report.errorFindings.isEmpty

/-- `_suggested_rule`. -/
def suggestedRule (n : Node) : String :=
  "add a rule to ownership.yaml, for example: - \x7bmatch: \"" ++ n.uniqueId ++
    "\", owner: <owner>, team: <team>, tier: best_effort\x7d"

/-- One round of `run_check`: the finding about a dataset, if there is one. -/
def Registry.nodeFinding (r : Registry) (n : Node) : Option Finding :=
  let res := r.resolution n.uniqueId
  match res.rule with
  | none => some
      { message := n.uniqueId ++ " has no owner", node := n.uniqueId, fix := suggestedRule n }
  | some rule =>
    if res.ambiguous then
      let tied := ", ".intercalate ((res.candidates.take 2).map fun rule => "'" ++ rule.pattern ++ "'")
      some
        { message := n.uniqueId ++ " has ambiguous ownership: " ++ tied ++ " are equally specific"
          node := n.uniqueId
          rule := rule.pattern
          fix := "make one rule more specific, or remove one of them" }
    else if n.resourceType = .exposure ∧ n.ownerName ≠ some rule.owner then
      some
        { message := n.uniqueId ++ " declares owner '" ++ n.ownerName.getD "None" ++
            "' in dbt but the registry says '" ++ rule.owner ++ "'"
          node := n.uniqueId
          rule := rule.pattern
          fix := "change the exposure's owner in dbt or the rule's owner, so they agree" }
    else none

/-- The datasets someone has to own, by unique id. -/
def ownedNodes (nodes : List Node) : List Node :=
  sortBy Node.uniqueId (nodes.filter fun n => n.resourceType ∈ ownedTypes)

/-- `run_check`. -/
def runCheck (r : Registry) (nodes : List Node) : CheckReport :=
  let problems := r.ruleProblems
  let broken := problems.map fun problem => problem.1.pattern
  let owned := ownedNodes nodes
  let matched := owned.flatMap fun n => (r.candidates n.uniqueId).map DatasetRule.pattern
  let resolutions := dictOf (owned.map fun n => (n.uniqueId, r.resolution n.uniqueId))
  { errorFindings :=
      problems.map (fun problem =>
        { message := problem.2
          rule := problem.1.pattern
          fix := "fix the rule, or the team in teams.yaml" }) ++
      owned.filterMap r.nodeFinding
    -- a rule that matches nothing is only a warning
    warningFindings :=
      (r.rules.filter fun rule => rule.pattern ∉ matched).map fun rule =>
        { message := "rule '" ++ rule.pattern ++ "' matches no dataset"
          rule := rule.pattern
          fix := "remove the rule, or fix its pattern" }
    resolutions := resolutions
    coverage := ownedTypes.map fun kind =>
      let ofType := owned.filter fun n => n.resourceType = kind
      (kind, ofType.countP fun n => (resolutions.lookup n.uniqueId).any (·.valid broken),
        ofType.length) }

/-! ## What the loader promises -/

section Loading

variable {teams : List Team} {datasets : List DatasetRule} {r : Registry}

/-- The check lets values through exactly if none is there twice. -/
theorem checkUnique_eq_ok {message : String} {values : List String} {u : Unit} :
    checkUnique message values = .ok u ↔ values.Nodup := by
  rw [checkUnique, raiseIf_eq_ok, not_not, List.nodup_iff_count_le_one]
  constructor
  · intro h v
    by_contra hcount
    -- a value that is there twice would be listed
    have hv : v ∈ values := List.count_pos_iff.mp (by omega)
    have hmem : v ∈ sortedSet (values.filter fun v => 1 < values.count v) := by
      rw [mem_sortedSet, List.mem_filter, decide_eq_true_eq]
      exact ⟨hv, by omega⟩
    rw [h] at hmem
    cases hmem
  · intro h
    rw [List.eq_nil_iff_forall_not_mem]
    intro v hv
    rw [mem_sortedSet, List.mem_filter, decide_eq_true_eq] at hv
    have hcount := h v
    omega

/-- The loader lets a registry through exactly if its ids and its patterns are unique. -/
theorem load_eq_ok : Registry.load teams datasets = .ok r ↔
    r = { teams := teams, rules := datasets } ∧ r.Loaded := by
  simp only [Registry.load, bind_eq_ok, pure_eq_ok, uniqueIds, uniquePatterns, checkUnique_eq_ok]
  constructor
  · rintro ⟨-, hids, -, hpatterns, rfl⟩
    exact ⟨rfl, hids, hpatterns⟩
  · rintro ⟨rfl, hids, hpatterns⟩
    exact ⟨(), hids, (), hpatterns, rfl⟩

end Loading

/-! ## Which rule wins -/

section Rank

variable {r : Registry} {rule rule' : DatasetRule} {id : String}

/-- More literal characters rank first, then fewer wildcard tokens. -/
theorem specificityRank_le_iff : rule.specificityRank ≤ rule'.specificityRank ↔
    (specificity rule'.pattern).1 < (specificity rule.pattern).1 ∨
    ((specificity rule'.pattern).1 = (specificity rule.pattern).1 ∧
      (specificity rule.pattern).2 ≤ (specificity rule'.pattern).2) := by
  simp only [DatasetRule.specificityRank, Prod.Lex.toLex_le_toLex]
  omega

/-- The order candidates are listed in refines the rank. -/
theorem specificityRank_le_of_rank_le (h : rule.rank ≤ rule'.rank) :
    rule.specificityRank ≤ rule'.specificityRank := by
  simp only [DatasetRule.rank, Prod.Lex.toLex_le_toLex] at h
  simp only [DatasetRule.specificityRank, Prod.Lex.toLex_le_toLex]
  rcases h with hless | ⟨heq, hless | ⟨hwild, -⟩⟩
  · exact Or.inl hless
  · exact Or.inr ⟨heq, hless.le⟩
  · exact Or.inr ⟨heq, hwild.le⟩

theorem pattern_of_rank (h : rule.rank = rule'.rank) : rule.pattern = rule'.pattern := by
  simp only [DatasetRule.rank, toLex_inj, Prod.mk.injEq] at h
  exact h.2.2

/-- The rules that match an id. -/
def Registry.matching (r : Registry) (id : String) : List DatasetRule :=
  r.rules.filter fun rule => fnmatchcase id rule.pattern

theorem mem_matching : rule ∈ r.matching id ↔ rule ∈ r.rules ∧ fnmatchcase id rule.pattern = true :=
  List.mem_filter

theorem candidates_eq (r : Registry) (id : String) :
    r.candidates id = sortBy DatasetRule.rank (r.matching id) :=
  rfl

theorem Registry.Loaded.nodup_rules (h : r.Loaded) : r.rules.Nodup :=
  h.patterns.of_map

theorem Registry.Loaded.eq_of_pattern (h : r.Loaded) (hrule : rule ∈ r.rules)
    (hrule' : rule' ∈ r.rules) (heq : rule.pattern = rule'.pattern) : rule = rule' :=
  List.inj_on_of_nodup_map h.patterns hrule hrule' heq

theorem resolve_eq_none_iff : r.resolve id = none ↔ r.matching id = [] := by
  rw [Registry.resolve, candidates_eq, List.head?_eq_none_iff]
  exact ⟨fun h => (h ▸ perm_sortBy DatasetRule.rank (r.matching id)).nil_eq.symm,
    fun h => by rw [h]; rfl⟩

/-- The rule of a resolution is a most specific one. -/
theorem best_of_resolve (h : r.resolve id = some rule) :
    Best DatasetRule.specificityRank (r.matching id) rule :=
  best_of_head? (fun _ _ => specificityRank_le_of_rank_le) h

/-- A resolution is not ambiguous exactly if its rule is the only most specific one. -/
theorem not_ambiguous_iff (hloaded : r.Loaded) (h : r.resolve id = some rule) :
    (r.resolution id).ambiguous = false ↔
      SoleBest DatasetRule.specificityRank (r.matching id) rule :=
  tied_eq_false_iff (fun _ _ => specificityRank_le_of_rank_le) (hloaded.nodup_rules.filter _) h

end Rank

/-! ## What each finding is about -/

section Findings

variable {r : Registry} {rule : DatasetRule} {n : Node} {nodes : List Node}

/-- A rule names a team that exists, an owner on it, and another one of it as the backup. -/
def Registry.Accountable (r : Registry) (rule : DatasetRule) : Prop :=
  ∃ team ∈ r.teams, team.id = rule.team ∧ rule.owner ∈ team.members ∧
    ∀ backup ∈ rule.backup, backup ∈ team.members ∧ backup ≠ rule.owner

/-- A dataset has one most specific rule, whose owner is on its team and, for an exposure, the one
dbt knows. -/
structure OwnedBy (r : Registry) (n : Node) (rule : DatasetRule) : Prop where
  sole : SoleBest DatasetRule.specificityRank (r.matching n.uniqueId) rule
  accountable : ∃ team ∈ r.teams, team.id = rule.team ∧ rule.owner ∈ team.members
  agreed : n.resourceType = .exposure → n.ownerName = some rule.owner

theorem team_eq_some_iff (hids : (r.teams.map Team.id).Nodup) {id : String} {team : Team} :
    r.team id = some team ↔ team ∈ r.teams ∧ team.id = id := by
  constructor
  · intro h
    exact ⟨List.mem_of_find?_eq_some h, by simpa using List.find?_some h⟩
  · rintro ⟨hmem, rfl⟩
    cases hfind : r.team team.id with
    | none => exact absurd (decide_eq_true rfl) (List.find?_eq_none.mp hfind team hmem)
    | some found =>
      have hid : found.id = team.id := by simpa using List.find?_some hfind
      rw [List.inj_on_of_nodup_map hids (List.mem_of_find?_eq_some hfind) hmem hid]

/-- **A rule has no problem exactly if it is accountable.** -/
theorem ruleProblem_eq_none_iff (hids : (r.teams.map Team.id).Nodup) :
    r.ruleProblem rule = none ↔ r.Accountable rule := by
  rw [Registry.ruleProblem]
  split
  · rename_i hnone
    -- no team of that name
    constructor
    · rintro ⟨⟩
    · rintro ⟨team, hteam, hid, -⟩
      rw [(team_eq_some_iff hids).mpr ⟨hteam, hid⟩] at hnone
      cases hnone
  · rename_i team hsome
    obtain ⟨hteam, hid⟩ := (team_eq_some_iff hids).mp hsome
    have hone : r.Accountable rule ↔ rule.owner ∈ team.members ∧
        ∀ backup ∈ rule.backup, backup ∈ team.members ∧ backup ≠ rule.owner := by
      constructor
      · rintro ⟨team', hteam', hid', hmembers⟩
        rwa [← List.inj_on_of_nodup_map hids hteam' hteam (hid'.trans hid.symm)]
      · exact fun hmembers => ⟨team, hteam, hid, hmembers⟩
    rw [hone]
    split
    · rename_i howner
      simp [howner]
    · rename_i howner
      rw [not_not] at howner
      cases hbackup : rule.backup with
      | none => simp [howner]
      | some backup => simp [howner]

/-- **A dataset has no finding exactly if** one rule is its most specific, and dbt agrees. -/
theorem nodeFinding_eq_none_iff (hloaded : r.Loaded) : r.nodeFinding n = none ↔
    ∃ rule, SoleBest DatasetRule.specificityRank (r.matching n.uniqueId) rule ∧
      (n.resourceType = .exposure → n.ownerName = some rule.owner) := by
  simp only [Registry.nodeFinding]
  split
  · rename_i hnone
    -- unowned: no rule matches at all
    constructor
    · rintro ⟨⟩
    · rintro ⟨rule, hsole, -⟩
      have hmem := hsole.mem
      rw [resolve_eq_none_iff.mp hnone] at hmem
      cases hmem
  · rename_i rule hsome
    have hbest := best_of_resolve hsome
    split
    · rename_i hambiguous
      -- doubly owned: the only best rule would be the first one
      constructor
      · rintro ⟨⟩
      · rintro ⟨rule', hsole, -⟩
        rw [← hsole.only rule hbest] at hsole
        rw [(not_ambiguous_iff hloaded hsome).mpr hsole] at hambiguous
        cases hambiguous
    · rename_i hclear
      have hsole := (not_ambiguous_iff hloaded hsome).mp ((Bool.not_eq_true _).mp hclear)
      split
      · rename_i hwrong
        -- wrongly owned: dbt says otherwise
        constructor
        · rintro ⟨⟩
        · rintro ⟨rule', hsole', hagreed⟩
          rw [hsole.only rule' hsole'.toBest] at hagreed
          exact absurd (hagreed hwrong.1) hwrong.2
      · rename_i hright
        have hagreed : n.resourceType = .exposure → n.ownerName = some rule.owner := by
          intro hkind
          by_contra hne
          exact hright ⟨hkind, hne⟩
        exact ⟨fun _ => ⟨rule, hsole, hagreed⟩, fun _ => rfl⟩

theorem mem_ownedNodes : n ∈ ownedNodes nodes ↔ n ∈ nodes ∧ n.resourceType ∈ ownedTypes := by
  simp [ownedNodes]

/-- A report passes when neither of its loops has a finding. -/
theorem passed_iff_no_finding : (runCheck r nodes).passed = true ↔
    (∀ rule ∈ r.rules, r.ruleProblem rule = none) ∧
    ∀ n ∈ nodes, n.resourceType ∈ ownedTypes → r.nodeFinding n = none := by
  simp only [CheckReport.passed, runCheck, List.isEmpty_iff, List.append_eq_nil_iff,
    List.map_eq_nil_iff, Registry.ruleProblems, List.filterMap_eq_nil_iff, Option.map_eq_none_iff,
    mem_ownedNodes, and_imp]

/-- **A report passes exactly if** every rule is accountable and every dataset is owned. -/
theorem passed_iff (hloaded : r.Loaded) : (runCheck r nodes).passed = true ↔
    (∀ rule ∈ r.rules, r.Accountable rule) ∧
    ∀ n ∈ nodes, n.resourceType ∈ ownedTypes → ∃ rule, OwnedBy r n rule := by
  simp only [passed_iff_no_finding, ruleProblem_eq_none_iff hloaded.ids,
    nodeFinding_eq_none_iff hloaded]
  refine and_congr_right fun haccountable => forall₃_congr fun n _ _ => exists_congr fun rule => ?_
  constructor
  · rintro ⟨hsole, hagreed⟩
    -- the rule is one of the registry, so it has no problem either
    obtain ⟨team, hteam, hid, howner, -⟩ := haccountable rule (mem_matching.mp hsole.mem).1
    exact ⟨hsole, ⟨team, hteam, hid, howner⟩, hagreed⟩
  · exact fun h => ⟨h.sole, h.agreed⟩

end Findings

/-! ## The order of rules, teams and nodes -/

section Order

variable {r r' : Registry} {nodes nodes' : List Node}

theorem team_of_perm (hloaded : r.Loaded) (hteams : r.teams.Perm r'.teams) (id : String) :
    r'.team id = r.team id := by
  have hids : (r'.teams.map Team.id).Nodup := (hteams.map Team.id).nodup_iff.mp hloaded.ids
  apply Option.ext
  intro team
  rw [team_eq_some_iff hids, team_eq_some_iff hloaded.ids, hteams.mem_iff]

theorem ruleProblem_of_perm (hloaded : r.Loaded) (hteams : r.teams.Perm r'.teams)
    (rule : DatasetRule) : r'.ruleProblem rule = r.ruleProblem rule := by
  rw [Registry.ruleProblem, Registry.ruleProblem, team_of_perm hloaded hteams]

theorem ruleProblems_perm (hloaded : r.Loaded) (hteams : r.teams.Perm r'.teams)
    (hrules : r.rules.Perm r'.rules) : r.ruleProblems.Perm r'.ruleProblems := by
  rw [Registry.ruleProblems, Registry.ruleProblems]
  simp only [ruleProblem_of_perm hloaded hteams]
  exact hrules.filterMap _

/-- Unique patterns leave one order to list the candidates in. -/
theorem candidates_of_perm (hloaded : r.Loaded) (hrules : r.rules.Perm r'.rules) (id : String) :
    r'.candidates id = r.candidates id := by
  apply Eq.symm
  apply sortBy_eq_of_perm (hrules.filter _)
  intro rule hrule rule' hrule' heq
  exact hloaded.eq_of_pattern (List.mem_of_mem_filter hrule) (List.mem_of_mem_filter hrule')
    (pattern_of_rank heq)

theorem resolution_of_perm (hloaded : r.Loaded) (hrules : r.rules.Perm r'.rules) (id : String) :
    r'.resolution id = r.resolution id := by
  simp only [Registry.resolution, Registry.resolve, candidates_of_perm hloaded hrules]

theorem nodeFinding_of_perm (hloaded : r.Loaded) (hrules : r.rules.Perm r'.rules) (n : Node) :
    r'.nodeFinding n = r.nodeFinding n := by
  simp only [Registry.nodeFinding, resolution_of_perm hloaded hrules]

theorem ownedNodes_perm (hnodes : nodes.Perm nodes') :
    (ownedNodes nodes).Perm (ownedNodes nodes') :=
  ((perm_sortBy _ _).trans (hnodes.filter _)).trans (perm_sortBy _ _).symm

/-- The resolutions come by unique id. -/
theorem resolutions_of_perm (hloaded : r.Loaded) (hrules : r.rules.Perm r'.rules)
    (hnodes : nodes.Perm nodes') :
    (runCheck r' nodes').resolutions = (runCheck r nodes).resolutions := by
  have hentries : ∀ nodes : List Node,
      (ownedNodes nodes).map (fun n => (n.uniqueId, r.resolution n.uniqueId)) =
        ((ownedNodes nodes).map Node.uniqueId).map fun id => (id, r.resolution id) := by
    simp
  have hids : (ownedNodes nodes').map Node.uniqueId = (ownedNodes nodes).map Node.uniqueId :=
    map_sortBy_eq_of_perm ((hnodes.symm.filter _).map _)
  simp only [runCheck, resolution_of_perm hloaded hrules, hentries, hids]

/-- **The order of rules, teams and nodes is the order of the findings only.** -/
theorem runCheck_perm (hloaded : r.Loaded) (hteams : r.teams.Perm r'.teams)
    (hrules : r.rules.Perm r'.rules) (hnodes : nodes.Perm nodes') :
    (runCheck r nodes).errorFindings.Perm (runCheck r' nodes').errorFindings ∧
    (runCheck r nodes).warningFindings.Perm (runCheck r' nodes').warningFindings ∧
    (runCheck r' nodes').coverage = (runCheck r nodes).coverage := by
  have hproblems := ruleProblems_perm hloaded hteams hrules
  have howned := ownedNodes_perm hnodes
  have hresolutions := resolutions_of_perm hloaded hrules hnodes
  refine ⟨?_, ?_, ?_⟩
  · simp only [runCheck, nodeFinding_of_perm hloaded hrules]
    exact (hproblems.map _).append (howned.filterMap _)
  · -- a pattern has matched in either order, or in neither
    simp only [runCheck, candidates_of_perm hloaded hrules]
    have hmatched := howned.flatMap_right fun n => (r.candidates n.uniqueId).map DatasetRule.pattern
    simp only [hmatched.mem_iff]
    exact (hrules.filter _).map _
  · -- of each type the same nodes, and the same rules are broken
    simp only [runCheck] at hresolutions ⊢
    simp only [hresolutions]
    refine List.map_congr_left fun kind _ => ?_
    have hkind := howned.filter fun n => n.resourceType = kind
    have hbroken := hproblems.map fun problem => problem.1.pattern
    simp only [Resolution.valid, hbroken.mem_iff, hkind.countP_eq, hkind.length_eq]

end Order

/-! ## The check is sound -/

section Sound

variable {r : Registry} {nodes : List Node}

/-- Every finding that fails a report names a rule of the registry or one of the nodes. -/
theorem named_of_mem_errors {f : Finding} (h : f ∈ (runCheck r nodes).errorFindings) :
    (∃ rule ∈ r.rules, f.rule = some rule.pattern) ∨ ∃ n ∈ nodes, f.node = some n.uniqueId := by
  rcases List.mem_append.mp h with h | h
  · obtain ⟨problem, hproblem, rfl⟩ := List.mem_map.mp h
    obtain ⟨rule, hrule, hmessage⟩ := List.mem_filterMap.mp hproblem
    obtain ⟨message, -, rfl⟩ := Option.map_eq_some_iff.mp hmessage
    exact Or.inl ⟨rule, hrule, rfl⟩
  · obtain ⟨n, hn, hfinding⟩ := List.mem_filterMap.mp h
    refine Or.inr ⟨n, (mem_ownedNodes.mp hn).1, ?_⟩
    simp only [Registry.nodeFinding] at hfinding
    -- unowned, ambiguous or in disagreement: each names the node
    split at hfinding
    · obtain rfl := Option.some.inj hfinding
      rfl
    · split at hfinding
      · obtain rfl := Option.some.inj hfinding
        rfl
      · split at hfinding
        · obtain rfl := Option.some.inj hfinding
          rfl
        · cases hfinding

/-- What the report says of a dataset is what the registry resolves it to. -/
theorem lookup_resolutions {n : Node} (hn : n ∈ nodes) (howned : n.resourceType ∈ ownedTypes) :
    (runCheck r nodes).resolutions.lookup n.uniqueId = some (r.resolution n.uniqueId) := by
  have hentry : (n.uniqueId, r.resolution n.uniqueId) ∈
      (ownedNodes nodes).map fun n => (n.uniqueId, r.resolution n.uniqueId) :=
    List.mem_map_of_mem (mem_ownedNodes.mpr ⟨hn, howned⟩)
  obtain ⟨res, hres⟩ := exists_lookup_dictOf (List.mem_map_of_mem hentry)
  have hmem := mem_dictOf (mem_of_lookup_eq_some hres)
  obtain ⟨n', -, heq⟩ := List.mem_map.mp hmem
  obtain ⟨hid, rfl⟩ := Prod.mk.inj heq
  rw [hid] at hres
  exact hres

/-- A dataset that is owned is owned by the rule it resolves to. -/
theorem OwnedBy.resolve_eq {n : Node} {rule : DatasetRule} (h : OwnedBy r n rule) :
    r.resolve n.uniqueId = some rule := by
  cases hresolve : r.resolve n.uniqueId with
  | none =>
    have hmem := h.sole.mem
    rw [resolve_eq_none_iff.mp hresolve] at hmem
    cases hmem
  | some first => rw [h.sole.only first (best_of_resolve hresolve)]

/-- A report that passes counts every dataset of a type as owned. -/
theorem coverage_of_passed (hloaded : r.Loaded) (hpassed : (runCheck r nodes).passed = true)
    {entry : ResourceType × ℕ × ℕ} (hentry : entry ∈ (runCheck r nodes).coverage) :
    entry.2.1 = entry.2.2 := by
  obtain ⟨kind, -, rfl⟩ := List.mem_map.mp hentry
  rw [List.countP_eq_length]
  intro n hn
  obtain ⟨hnode, howned⟩ := mem_ownedNodes.mp (List.mem_of_mem_filter hn)
  obtain ⟨rule, hrule⟩ := ((passed_iff hloaded).mp hpassed).2 n hnode howned
  have hclear := (not_ambiguous_iff hloaded hrule.resolve_eq).mpr hrule.sole
  -- no rule is broken
  have hproblems : r.ruleProblems = [] := by
    simpa [Registry.ruleProblems] using (passed_iff_no_finding.mp hpassed).1
  have hvalid : (r.resolution n.uniqueId).valid [] = true := by
    rw [Resolution.valid, Resolution.owned, hclear]
    simp [Registry.resolution, hrule.resolve_eq]
  have hlookup := lookup_resolutions (r := r) hnode howned
  simp only [runCheck] at hlookup
  simp only [hlookup, hproblems, List.map_nil, Option.any_some, hvalid]

/-- **A report that passes has every dataset owned**, and the order of rules, teams and nodes
matters neither to that nor to who owns what. -/
theorem runCheck_sound (hloaded : r.Loaded) (nodes : List Node) :
    ((runCheck r nodes).passed = true → ∀ n ∈ nodes, n.resourceType ∈ ownedTypes →
      ∃ rule, OwnedBy r n rule ∧ r.resolve n.uniqueId = some rule) ∧
    ∀ r' nodes', r.teams.Perm r'.teams → r.rules.Perm r'.rules → nodes.Perm nodes' →
      (runCheck r' nodes').resolutions = (runCheck r nodes).resolutions ∧
      (runCheck r' nodes').passed = (runCheck r nodes).passed := by
  constructor
  · intro hpassed n hn howned
    obtain ⟨rule, hrule⟩ := ((passed_iff hloaded).mp hpassed).2 n hn howned
    exact ⟨rule, hrule, hrule.resolve_eq⟩
  · intro r' nodes' hteams hrules hnodes
    refine ⟨resolutions_of_perm hloaded hrules hnodes, ?_⟩
    rw [CheckReport.passed, CheckReport.passed,
      (runCheck_perm hloaded hteams hrules hnodes).1.isEmpty_eq]

private def revenueRegistry : Registry where
  teams := [
    { id := "finance", name := "Finance", channel := "#f", members := ["alice", "bruno"] },
    { id := "platform", name := "Platform", channel := "#p", members := ["priya"] }]
  rules := [
    { pattern := "exposure.company.*", owner := "priya", team := "platform", tier := .important },
    { pattern := "exposure.company.revenue*", owner := "alice", team := "finance",
      tier := .critical }]

private def revenueExposure : Node where
  uniqueId := "exposure.company.revenue_weekly"
  resourceType := .exposure
  name := "revenue_weekly"
  ownerName := some "alice"

/-- Two rules match, and the longer one's owner is the one dbt names. -/
theorem runCheck_sound_revenue :
    (∃ rule, OwnedBy revenueRegistry revenueExposure rule ∧
      revenueRegistry.resolve "exposure.company.revenue_weekly" = some rule) ∧
    (runCheck { revenueRegistry with rules := revenueRegistry.rules.reverse }
      [revenueExposure]).passed = true := by
  have hloaded : revenueRegistry.Loaded := ⟨by decide, by decide⟩
  have hpassed : (runCheck revenueRegistry [revenueExposure]).passed = true := by decide +kernel
  obtain ⟨hsound, hperm⟩ := runCheck_sound hloaded [revenueExposure]
  refine ⟨hsound hpassed revenueExposure (by simp) (by decide), ?_⟩
  have hreversed := hperm { revenueRegistry with rules := revenueRegistry.rules.reverse }
    [revenueExposure] (List.Perm.refl _) (List.reverse_perm _).symm (List.Perm.refl _)
  exact hreversed.2.trans hpassed

end Sound

end PlatformOps.Metadata
