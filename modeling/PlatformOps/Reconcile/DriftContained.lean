import PlatformOps.Reconcile.Descent
import PlatformOps.Reconcile.Parallel

/-!
# What a Drifted Pair Does to Its Night

A pair that drifted has a failing result of its own, and every other pair is
compared with its own columns and rules, which the drift does not change. But the
grade looks up the rules of every table, and a drifted table has none: its night
raises, and is not recorded. So does a night on which some difference has no class. A
night goes through exactly if no table drifted, every report's mart is a model of the
project, what was planted is in configured tables, and every cell that differs has a
class (`driftContained_iff`).
-/

namespace PlatformOps.Reconcile

open Listing Fallible

/-! ## Dictionaries with distinct keys -/

section Dict

variable {A : Type} {entries : List (String × A)} {key : String} {value : A}

theorem dictItem_ok_iff : (∃ v, dictItem entries key = .ok v) ↔ key ∈ entries.map Prod.fst := by
  rw [← exists_dictGet, dictItem]
  cases dictGet entries key <;> simp

theorem dictItem_of_mem (hnodup : (entries.map Prod.fst).Nodup) (hmem : (key, value) ∈ entries) :
    dictItem entries key = .ok value := by
  have hget : dictGet entries key = some value := by
    rw [dictGet, List.lookup_eq_some_iff]
    obtain ⟨before, after, hsplit⟩ := List.append_of_mem (List.mem_reverse.mpr hmem)
    refine ⟨before, after, hsplit, fun entry hentry => ?_⟩
    have hkeys : ((before ++ (key, value) :: after).map Prod.fst).Nodup := by
      rw [← hsplit, List.map_reverse]
      exact List.nodup_reverse.mpr hnodup
    rw [List.map_append, List.map_cons, List.nodup_append] at hkeys
    exact bne_iff_ne.mpr fun heq => hkeys.2.2 _ (List.mem_map_of_mem hentry) key
      (List.mem_cons_self ..) heq.symm
  rw [dictItem, hget]

/-- What a dictionary over some items holds is one of theirs. -/
theorem exists_of_dictGet {B : Type} {items : List B} {name : B → String} {get : B → A}
    (h : dictGet (items.map fun b => (name b, get b)) key = some value) :
    ∃ b ∈ items, name b = key ∧ get b = value := by
  obtain ⟨_, _, hsplit, -⟩ := List.lookup_eq_some_iff.mp h
  have hmem : (key, value) ∈ items.map fun b => (name b, get b) := by
    rw [← List.mem_reverse, hsplit]
    simp
  obtain ⟨b, hb, heq⟩ := List.mem_map.mp hmem
  exact ⟨b, hb, Prod.mk.inj heq⟩

end Dict

/-! ## The pairs of a night -/

section Pairs

variable {config : ReconcileConfig} {schemas : Schemas} {catalogues : Catalogues}
  {graph : FinDigraph String} {wanted : List Wanted} {w : Wanted} {spec : TableSpec}

/-- A pair that lines up: its columns cover its key, and the rest is as configured. -/
theorem spec_ok (h : w.spec catalogues = .ok spec) :
    (∃ columns, spec = { w.stub with columns := columns }) ∧
      ∀ k ∈ spec.key, k ∈ spec.columns.map Column.name := by
  simp only [Wanted.spec, bind_eq_ok, pure_eq_ok, raiseIf_eq_ok] at h
  obtain ⟨_, -, _, -, columns, -, _, hkey, _, -, rfl⟩ := h
  refine ⟨⟨columns, rfl⟩, fun k hk => ?_⟩
  by_contra hnot
  exact hkey (List.ne_nil_of_mem (List.mem_filter.mpr ⟨hk, decide_eq_true hnot⟩))

/-- A column that is compared has its counterpart in ClickHouse. -/
private theorem target_mem_of_column_ok {new : List (String × String)} (hnew : "" ∉ new.map Prod.fst)
    {legacy : String × String × Option ℕ} {c : Column} (h : w.column new legacy = .ok c) :
    c.target ∈ new.map Prod.fst := by
  obtain ⟨name, dataType, scale⟩ := legacy
  simp only [Wanted.column] at h
  split at h
  · cases h
  · rename_i targetType htype
    have hmem : w.targetName name ∈ new.map Prod.fst := exists_dictGet.mp ⟨targetType, htype⟩
    have hne : w.targetName name ≠ "" := fun hempty => hnew (hempty ▸ hmem)
    obtain rfl := Except.ok.inj h
    rw [Column.target]
    by_cases heq : w.targetName name = name
    · rwa [if_pos heq, if_pos rfl, ← heq]
    · rwa [if_neg heq, if_neg hne]

theorem target_mem_of_spec_ok (h : w.spec catalogues = .ok spec) :
    ∀ c ∈ spec.columns, c.target ∈ (catalogues.clickhouse w.targetDatabase w.pair.target).map
      Prod.fst := by
  simp only [Wanted.spec, bind_eq_ok, pure_eq_ok] at h
  obtain ⟨_, -, _, -, columns, hcolumns, _, -, _, -, rfl⟩ := h
  intro c hc
  obtain ⟨_, -, hcolumn⟩ := exists_preimage_of_mem hcolumns hc
  exact target_mem_of_column_ok (catalogues.named _ _) hcolumn

theorem wantedReport_ok_iff (schemas : Schemas) {p : PairConfig} :
    (∃ w, wantedReport schemas graph p = .ok w) ↔ "model.company." ++ p.target ∈ graph.nodes := by
  simp only [wantedReport, rawUpstream, bind_eq_ok, pure_eq_ok]
  split
  · rename_i hmem
    simp [hmem]
  · rename_i hmem
    simp [hmem]

theorem wantedReport_ok {p : PairConfig} (h : wantedReport schemas graph p = .ok w) :
    w.pair = p ∧ w.level = .report ∧ w.targetDatabase = schemas.marts := by
  simp only [wantedReport, bind_eq_ok, pure_eq_ok] at h
  obtain ⟨_, -, rfl⟩ := h
  exact ⟨rfl, rfl, rfl⟩

/-- The wanted pairs are those of the configuration, if every mart is a model. -/
theorem wantedPairs_ok_iff (schemas : Schemas) :
    (∃ wanted, wantedPairs config schemas graph = .ok wanted) ↔
    ∀ p ∈ config.reports, "model.company." ++ p.target ∈ graph.nodes := by
  simp only [wantedPairs, bind_eq_ok, pure_eq_ok]
  constructor
  · rintro ⟨_, reports, hreports, -⟩ p hp
    obtain ⟨w, -, hw⟩ := exists_image_of_mem hreports hp
    exact (wantedReport_ok_iff schemas).mp ⟨w, hw⟩
  · intro h
    obtain ⟨reports, hreports⟩ := exists_mapM_eq_ok fun p hp =>
      (wantedReport_ok_iff schemas).mpr (h p hp)
    exact ⟨_, reports, hreports, rfl⟩

theorem wantedPairs_ok (h : wantedPairs config schemas graph = .ok wanted) :
    (∀ p ∈ config.tables, wantedTable schemas p ∈ wanted) ∧
      (wanted.map fun w => (w.level, w.pair)) =
        (config.tables.map fun p => (Level.table, p)) ++
          config.reports.map fun p => (Level.report, p) := by
  simp only [wantedPairs, bind_eq_ok, pure_eq_ok] at h
  obtain ⟨reports, hreports, rfl⟩ := h
  have hpairs := map_eq_of_mapM_eq_ok (fun p => (Level.report, p))
    (fun w : Wanted => (w.level, w.pair)) hreports fun p w hw => by
      rw [(wantedReport_ok hw).1, (wantedReport_ok hw).2.1]
  refine ⟨fun p hp => List.mem_append_left _ (List.mem_map_of_mem hp), ?_⟩
  rw [List.map_append, hpairs, List.map_map]
  rfl

theorem exists_wantedReport (h : wantedPairs config schemas graph = .ok wanted) {p : PairConfig}
    (hp : p ∈ config.reports) : ∃ w ∈ wanted, wantedReport schemas graph p = .ok w := by
  simp only [wantedPairs, bind_eq_ok, pure_eq_ok] at h
  obtain ⟨reports, hreports, rfl⟩ := h
  obtain ⟨w, hw, hreport⟩ := exists_image_of_mem hreports hp
  exact ⟨w, List.mem_append_right _ hw, hreport⟩

theorem mem_wanted (h : wantedPairs config schemas graph = .ok wanted) (hw : w ∈ wanted) :
    (∃ p ∈ config.tables, w = wantedTable schemas p) ∨
      ∃ p ∈ config.reports, wantedReport schemas graph p = .ok w := by
  simp only [wantedPairs, bind_eq_ok, pure_eq_ok] at h
  obtain ⟨reports, hreports, rfl⟩ := h
  rcases List.mem_append.mp hw with hw | hw
  · obtain ⟨p, hp, rfl⟩ := List.mem_map.mp hw
    exact Or.inl ⟨p, hp, rfl⟩
  · exact Or.inr (exists_preimage_of_mem hreports hw)

theorem mem_linedUp : spec ∈ linedUp catalogues wanted ↔
    ∃ w ∈ wanted, w.spec catalogues = .ok spec := by
  rw [linedUp, List.mem_filterMap]
  refine exists_congr fun w => and_congr_right fun _ => ?_
  cases w.spec catalogues <;> simp [Except.toOption]

theorem mem_driftedOf {drift : Drift} : drift ∈ driftedOf catalogues wanted ↔
    ∃ w ∈ wanted, ∃ reason, w.spec catalogues = .error reason ∧ drift = ⟨w.stub, reason⟩ := by
  rw [driftedOf, List.mem_filterMap]
  refine exists_congr fun w => and_congr_right fun _ => ?_
  cases w.spec catalogues <;> simp [eq_comm]

/-- Every pair lines up or drifted, under its own name. -/
theorem linedUp_append_driftedOf (catalogues : Catalogues) (wanted : List Wanted) :
    ((linedUp catalogues wanted).map (fun s => (s.level, s.name)) ++
      (driftedOf catalogues wanted).map fun d => (d.spec.level, d.spec.name)).Perm
        (wanted.map fun w => (w.level, w.pair.name)) := by
  induction wanted with
  | nil => exact List.Perm.refl _
  | cons w rest ih =>
    cases h : w.spec catalogues with
    | ok spec =>
      obtain ⟨⟨columns, rfl⟩, -⟩ := spec_ok h
      simpa [linedUp, driftedOf, h, Except.toOption, Wanted.stub] using ih
    | error reason =>
      refine List.Perm.trans ?_ (ih.cons (w.level, w.pair.name))
      simp [linedUp, driftedOf, h, Except.toOption, Wanted.stub]

end Pairs

/-! ## One pair -/

section OnePair

variable {R T : Type} {settings : NightSettings} {world : World R T} {night : Night}
  {spec : TableSpec}

variable (settings world spec) in
/-- A cell in which the two sides of a pair differ when they are compared. -/
def DiffersIn (c : CellDiff) : Prop :=
  ∃ source target,
    render world.engine.toEngine spec (rulesFor spec settings.canonical) = .ok source ∧
    render world.targetEngine spec (rulesFor spec settings.canonical) = .ok target ∧
    CellDiffers world.engine world.md5 world.ceilLog spec settings.leafWidth source target
      ⟨world.copy spec.target spec.final⟩ (world.legacy spec.source) c

variable (settings world night spec) in
/-- A pair whose key columns are columns can be compared exactly if every cell that differs has a
class. -/
theorem compareWith_ok_iff (hkey : ∀ k ∈ spec.key, k ∈ spec.columns.map Column.name) :
    (∃ r, compareWith settings world night (rulesFor spec settings.canonical) spec = .ok r) ↔
      ∀ c, DiffersIn settings world spec c → Classed spec (classify world.classes) c := by
  obtain ⟨source, hsource, -⟩ := render_ok world.engine.toEngine settings.canonical hkey
  obtain ⟨target, htarget, -⟩ := render_ok world.targetEngine settings.canonical hkey
  obtain ⟨diff, connector, hdiff, houtcome⟩ := diffTable_outcome world.md5 world.ceilLog
    settings.leafWidth ⟨world.copy spec.target spec.final⟩ hsource htarget (world.legacy spec.source)
  have hdiffers : ∀ c, DiffersIn settings world spec c ↔ c ∈ diff.cells := by
    intro c
    rw [houtcome.mem_cells]
    constructor
    · rintro ⟨source', target', hsource', htarget', hcell⟩
      obtain rfl := Except.ok.inj (hsource.symm.trans hsource')
      obtain rfl := Except.ok.inj (htarget.symm.trans htarget')
      exact hcell
    · intro hcell
      exact ⟨source, target, hsource, htarget, hcell⟩
  -- the pair is compared, and what is found is classified
  simp only [hdiffers, ← exists_discrepanciesOf_iff, compareWith, bind_eq_ok, pure_eq_ok, hdiff]
  constructor
  · rintro ⟨_, _, hdiff', found, hfound, -⟩
    cases hdiff'
    exact ⟨found, hfound⟩
  · rintro ⟨found, hfound⟩
    exact ⟨_, _, rfl, found, hfound, rfl⟩

/-- The cells of a comparison that went through are in the pair's columns. -/
theorem compareWith_cells {rules : List (String × Rule)} {r : PairResult}
    (h : compareWith settings world night rules spec = .ok r) :
    ∀ c ∈ r.diff.cells, c.column ∈ spec.columns.map Column.name := by
  simp only [compareWith, bind_eq_ok, pure_eq_ok] at h
  obtain ⟨_, -, found, hfound, rfl⟩ := h
  intro c hc
  obtain ⟨column, _, hcolumn, -⟩ := exists_discrepanciesOf_iff.mp ⟨found, hfound⟩ c hc
  exact name_mem_of_columnNamed hcolumn

theorem compareWith_spec {rules : List (String × Rule)} {r : PairResult}
    (h : compareWith settings world night rules spec = .ok r) : r.spec = spec := by
  simp only [compareWith, bind_eq_ok, pure_eq_ok] at h
  obtain ⟨_, -, _, -, rfl⟩ := h
  rfl

/-- Columns named by some items, each in the columns. -/
private theorem mapM_columnNamed_ok {A : Type} (items : List A) (name : A → String)
    (hnames : ∀ a ∈ items, name a ∈ spec.columns.map Column.name) :
    ∃ columns, (items.mapM fun a => columnNamed spec (name a)) = .ok columns ∧
      ∀ c ∈ columns, c ∈ spec.columns := by
  obtain ⟨columns, hcolumns⟩ := exists_mapM_eq_ok (f := fun a => columnNamed spec (name a))
    (l := items) fun a ha => (columnNamed_ok (hnames a ha)).imp fun _ => And.right
  refine ⟨columns, hcolumns, fun c hc => ?_⟩
  obtain ⟨a, ha, hnamed⟩ := exists_preimage_of_mem hcolumns hc
  obtain ⟨c', hc', heq⟩ := columnNamed_ok (hnames a ha)
  exact Except.ok.inj (heq.symm.trans hnamed) ▸ hc'

private theorem neededColumns_ok {diff : TableDiff}
    (hkey : ∀ k ∈ spec.key, k ∈ spec.columns.map Column.name)
    (hcells : ∀ c ∈ diff.cells, c.column ∈ spec.columns.map Column.name) :
    ∃ needed, neededColumns spec diff = .ok needed ∧
      ∀ n ∈ needed, ∃ c ∈ spec.columns, c.target = n := by
  obtain ⟨ofCells, hofCells, hinCells⟩ := mapM_columnNamed_ok _ _ hcells
  obtain ⟨ofRows, hofRows, hinRows⟩ := mapM_columnNamed_ok
    (if diff.missing ≠ [] ∨ diff.extra ≠ [] ∨ diff.duplicates ≠ [] then spec.key else []) id
    fun k hk => by
      split at hk
      · exact hkey k hk
      · cases hk
  refine ⟨_, bind_eq_ok.mpr ⟨ofCells, hofCells, bind_eq_ok.mpr ⟨ofRows, hofRows, rfl⟩⟩, fun n hn => ?_⟩
  obtain ⟨c, hc, hname⟩ := List.mem_map.mp (mem_sortedSet.mp hn)
  exact ⟨c, (List.mem_append.mp hc).elim (hinCells c) (hinRows c), hname⟩

/-- A report is explained, or not, if its lineage has every column. -/
theorem explain_ok {diff : TableDiff} (lineage : Option ColumnLineage) (cells : List RawColumn)
    (rows : List String) (hkey : ∀ k ∈ spec.key, k ∈ spec.columns.map Column.name)
    (hcells : ∀ c ∈ diff.cells, c.column ∈ spec.columns.map Column.name)
    (hlineage : ∀ l, lineage = some l → ∀ c ∈ spec.columns, c.target ∈ l.map Prod.fst) :
    ∃ why, explain spec diff lineage cells rows = .ok why := by
  unfold explain
  split
  · exact ⟨_, rfl⟩
  · cases lineage with
    | none => exact ⟨_, rfl⟩
    | some l =>
      -- every column it needs is one the lineage covers
      obtain ⟨needed, hneeded, htargets⟩ := neededColumns_ok hkey hcells
      obtain ⟨found, hfound⟩ := exists_mapM_eq_ok (l := needed) (f := fun column => do
          let depends ← dictItem l column
          return causesOf depends cells rows) fun n hn => by
        obtain ⟨c, hc, rfl⟩ := htargets n hn
        obtain ⟨depends, hdepends⟩ := dictItem_ok_iff.mpr (hlineage l rfl c hc)
        exact ⟨_, bind_eq_ok.mpr ⟨depends, hdepends, rfl⟩⟩
      exact ⟨_, bind_eq_ok.mpr ⟨needed, hneeded, bind_eq_ok.mpr ⟨found, hfound, rfl⟩⟩⟩

/-- A pair that drifted has nothing to explain. -/
theorem explain_drifted (drift : Drift) (lineage : Option ColumnLineage) (cells : List RawColumn)
    (rows : List String) : ∃ why, explain (driftedResult drift).spec (driftedResult drift).diff
      lineage cells rows = .ok why :=
  ⟨_, rfl⟩

end OnePair

/-! ## The grade -/

theorem grade_ok_iff (truth : List TruthCell) (found : List Discrepancy)
    (specs : List (String × TableSpec)) (rules : List (String × List (String × Rule))) :
    (∃ g, grade truth found specs rules = .ok g) ↔
      ∀ cell ∈ truth, cell.table ∈ specs.map Prod.fst ∧ cell.table ∈ rules.map Prod.fst := by
  simp only [grade, bind_eq_ok, pure_eq_ok, neutralized]
  constructor
  -- each planted cell looked its table up in both
  · rintro ⟨_, planted, hplanted, -⟩ cell hcell
    obtain ⟨_, -, hone⟩ := exists_image_of_mem hplanted hcell
    simp only [bind_eq_ok] at hone
    obtain ⟨spec, hspec, own, hown, -⟩ := hone
    exact ⟨dictItem_ok_iff.mp ⟨spec, hspec⟩, dictItem_ok_iff.mp ⟨own, hown⟩⟩
  · intro h
    obtain ⟨planted, hplanted⟩ := exists_mapM_eq_ok (l := truth) (f := fun cell => do
        let _ ← dictItem specs cell.table
        let own ← dictItem rules cell.table
        return (cell, neutralizedByPolicy cell own)) fun cell hcell => by
      obtain ⟨hspec, hrules⟩ := h cell hcell
      obtain ⟨spec, hspec⟩ := dictItem_ok_iff.mpr hspec
      obtain ⟨own, hown⟩ := dictItem_ok_iff.mpr hrules
      exact ⟨_, bind_eq_ok.mpr ⟨spec, hspec, bind_eq_ok.mpr ⟨own, hown, rfl⟩⟩⟩
    exact ⟨_, planted, hplanted, rfl⟩

/-- The tables are graded if each has rules, and what was planted is in one of them. -/
theorem gradeTables_ok_iff {truth : List TruthCell} {tables : List PairResult}
    {rules : List (String × List (String × Rule))} :
    (∃ g, gradeTables rules truth tables = .ok g) ↔
      (∀ p ∈ tables, p.spec.name ∈ rules.map Prod.fst) ∧
        ∀ cell ∈ truth, cell.table ∈ tables.map fun p => p.spec.name := by
  have hnames : (tables.map fun p => (p.spec.name, p.spec)).map Prod.fst =
      tables.map fun p => p.spec.name := by
    simp
  simp only [gradeTables, bind_eq_ok, hnames]
  constructor
  · rintro ⟨g, own, hown, hgrade⟩
    have hcells := (grade_ok_iff _ _ _ _).mp ⟨g, hgrade⟩
    refine ⟨fun p hp => ?_, fun cell hcell => hnames ▸ (hcells cell hcell).1⟩
    obtain ⟨_, -, hone⟩ := exists_image_of_mem hown (List.mem_map_of_mem hp)
    simp only [bind_eq_ok] at hone
    obtain ⟨rules', hrules', -⟩ := hone
    exact dictItem_ok_iff.mp ⟨rules', hrules'⟩
  · rintro ⟨hrules, hcells⟩
    obtain ⟨own, hown⟩ := exists_mapM_eq_ok (l := tables.map fun p => p.spec.name)
        (f := fun name => do
          let rules ← dictItem rules name
          return (name, rules)) fun name hname => by
      obtain ⟨p, hp, rfl⟩ := List.mem_map.mp hname
      obtain ⟨rules', hrules'⟩ := dictItem_ok_iff.mpr (hrules p hp)
      exact ⟨_, bind_eq_ok.mpr ⟨rules', hrules', rfl⟩⟩
    -- the rules are handed on under the names they were looked up by
    have hkeys : own.map Prod.fst = tables.map fun p => p.spec.name := by
      refine (map_eq_of_mapM_eq_ok id _ hown fun name entry hentry => ?_).trans (List.map_id _)
      simp only [bind_eq_ok, pure_eq_ok] at hentry
      obtain ⟨_, -, rfl⟩ := hentry
      rfl
    obtain ⟨g, hgrade⟩ := (grade_ok_iff truth (tables.flatMap PairResult.discrepancies)
      (tables.map fun p => (p.spec.name, p.spec)) own).mpr fun cell hcell => by
      rw [hnames, hkeys]
      exact ⟨hcells cell hcell, hcells cell hcell⟩
    exact ⟨g, own, hown, hgrade⟩

/-! ## The night -/

section Night

variable {R T : Type} {settings : NightSettings} {world : World R T} {night : Night}
  {run run' : ParallelRun} {wanted : List Wanted} {spec : TableSpec}

/-- The rules of the pairs that line up. -/
def rulesOf (settings : NightSettings) (world : World R T) (wanted : List Wanted) :
    List (String × List (String × Rule)) :=
  (linedUp world.catalogues wanted).map fun s => (s.name, rulesFor s settings.canonical)

/-- The lineage of the reports. -/
def lineageOf (settings : NightSettings) (world : World R T) :
    List (String × Option ColumnLineage) :=
  settings.config.reports.map fun p => (p.name, world.traced p.target)

theorem asOfTonight_eq (night : Night) (spec : TableSpec) :
    ∃ watermark, asOfTonight night spec = { spec with watermark := watermark } := by
  unfold asOfTonight
  split
  · exact ⟨_, rfl⟩
  · exact ⟨_, rfl⟩

/-- What one pair's result is when it is compared with its own columns and rules. -/
def comparedAlone (settings : NightSettings) (world : World R T) (night : Night)
    (spec : TableSpec) : Except String PairResult :=
  compareWith settings world night (rulesFor spec settings.canonical) (asOfTonight night spec)

/-- Names tell the pairs of a configuration apart. -/
def NamesDistinct (config : ReconcileConfig) : Prop :=
  ((config.tables ++ config.reports).map PairConfig.name).Nodup

instance (config : ReconcileConfig) : Decidable (NamesDistinct config) :=
  inferInstanceAs (Decidable (List.Nodup _))

private theorem nodup_names (hnames : NamesDistinct settings.config)
    (hwanted : wantedPairs settings.config settings.schemas world.catalogues.graph = .ok wanted) :
    (wanted.map fun w => w.pair.name).Nodup := by
  have hpairs := congrArg (List.map fun p : Level × PairConfig => p.2.name) (wantedPairs_ok hwanted).2
  rw [List.map_map, List.map_append, List.map_map, List.map_map] at hpairs
  rw [NamesDistinct, List.map_append] at hnames
  exact hpairs ▸ hnames

private theorem nodup_linedUp (hnodup : (wanted.map fun w => w.pair.name).Nodup) :
    ((linedUp world.catalogues wanted).map TableSpec.name ++
      (driftedOf world.catalogues wanted).map fun d => d.spec.name).Nodup := by
  have hperm := (linedUp_append_driftedOf world.catalogues wanted).map Prod.snd
  rw [List.map_append, List.map_map, List.map_map, List.map_map] at hperm
  exact hperm.nodup_iff.mpr hnodup

/-- A pair that lines up is compared with its own rules. -/
private theorem compare_linedUp (hnodup : (wanted.map fun w => w.pair.name).Nodup)
    (hspec : spec ∈ linedUp world.catalogues wanted) :
    compare settings world night (rulesOf settings world wanted) (asOfTonight night spec) =
      comparedAlone settings world night spec := by
  obtain ⟨watermark, heq⟩ := asOfTonight_eq night spec
  have hname : (asOfTonight night spec).name = spec.name := by rw [heq]
  have hrules : dictItem (rulesOf settings world wanted) spec.name =
      .ok (rulesFor spec settings.canonical) := by
    refine dictItem_of_mem ?_ (List.mem_map_of_mem hspec)
    rw [rulesOf, List.map_map]
    exact (List.nodup_append.mp (nodup_linedUp hnodup)).1
  rw [compare, hname, hrules]
  rfl

/-- Every cell in which a pair's two sides differ tonight has a class: `classify` does not raise. -/
def ClassedTonight (settings : NightSettings) (world : World R T) (night : Night)
    (spec : TableSpec) : Prop :=
  ∀ c, DiffersIn settings world (asOfTonight night spec) c → Classed spec (classify world.classes) c

/-- A pair that lines up can be compared exactly if its differences have a class. -/
private theorem comparedAlone_ok_iff (settings : NightSettings) (world : World R T) (night : Night)
    {w : Wanted} (hspec : w.spec world.catalogues = .ok spec) :
    (∃ r, comparedAlone settings world night spec = .ok r) ↔
      ClassedTonight settings world night spec := by
  -- tonight only the watermark of the spec changes
  obtain ⟨watermark, heq⟩ := asOfTonight_eq night spec
  rw [ClassedTonight, comparedAlone, heq]
  exact compareWith_ok_iff settings world night { spec with watermark := watermark }
    (spec_ok hspec).2

/-- The result's columns cover its key and its cells. -/
private theorem comparedAlone_spec {w : Wanted} (hspec : w.spec world.catalogues = .ok spec)
    {r : PairResult} (hr : comparedAlone settings world night spec = .ok r) :
    (∃ watermark, r.spec = { spec with watermark := watermark }) ∧
      (∀ k ∈ r.spec.key, k ∈ r.spec.columns.map Column.name) ∧
      ∀ c ∈ r.diff.cells, c.column ∈ r.spec.columns.map Column.name := by
  obtain ⟨watermark, heq⟩ := asOfTonight_eq night spec
  have hcells := compareWith_cells hr
  have hrspec := compareWith_spec hr
  rw [heq] at hcells hrspec
  refine ⟨⟨watermark, hrspec⟩, ?_, ?_⟩
  · rw [hrspec]
    exact (spec_ok hspec).2
  · rw [hrspec]
    exact hcells

/-- The results of a night that went through. -/
structure Recorded (settings : NightSettings) (world : World R T) (night : Night)
    (run run' : ParallelRun) (wanted : List Wanted) (result : NightResult) : Prop where
  results : run'.results = run.results ++ [result]
  /-- A result for each pair. -/
  each : (result.pairs.map fun p => (p.spec.level, p.spec.name)).Perm
    (wanted.map fun w => (w.level, w.pair.name))
  /-- A drifted pair fails with its reason. -/
  drifted : ∀ drift ∈ driftedOf world.catalogues wanted, driftedResult drift ∈ result.pairs
  /-- A pair that lines up is compared as it would be alone. -/
  alone : ∀ spec ∈ linedUp world.catalogues wanted,
    ∃ r ∈ result.pairs, comparedAlone settings world night spec = .ok r

/-- The pairs that line up, then those that drifted, have a result each. -/
private theorem each_pair {compared : List PairResult}
    {rules : List (String × List (String × Rule))}
    (hcompared : ((linedUp world.catalogues wanted).map (asOfTonight night)).mapM
      (compare settings world night rules) = .ok compared) :
    ((compared ++ (driftedOf world.catalogues wanted).map driftedResult).map fun p =>
      (p.spec.level, p.spec.name)).Perm (wanted.map fun w => (w.level, w.pair.name)) := by
  -- a comparison returns the spec it was given
  have hspecs : compared.map PairResult.spec =
      (linedUp world.catalogues wanted).map (asOfTonight night) := by
    refine (map_eq_of_mapM_eq_ok id _ hcompared fun spec r hr => ?_).trans (List.map_id _)
    obtain ⟨_, -, hwith⟩ := bind_eq_ok.mp hr
    exact compareWith_spec hwith
  have hnamed : compared.map (fun p => (p.spec.level, p.spec.name)) =
      (linedUp world.catalogues wanted).map fun s => (s.level, s.name) := by
    have hmap := congrArg (List.map fun s : TableSpec => (s.level, s.name)) hspecs
    rw [List.map_map, List.map_map] at hmap
    refine hmap.trans (List.map_congr_left fun s _ => ?_)
    obtain ⟨watermark, heq⟩ := asOfTonight_eq night s
    simp only [Function.comp_apply, heq]
  rw [List.map_append, hnamed, List.map_map]
  exact linedUp_append_driftedOf world.catalogues wanted

/-- **What a night that goes through has shown**: its result, that no table drifted, and that
what was planted is in tables. -/
theorem recorded_of_call (hnames : NamesDistinct settings.config)
    (h : run.call settings world night = .ok run') :
    ∃ wanted result,
      wantedPairs settings.config settings.schemas world.catalogues.graph = .ok wanted ∧
      Recorded settings world night run run' wanted result ∧
      (∀ w ∈ wanted, w.level = .table → ∃ spec, w.spec world.catalogues = .ok spec) ∧
      ∀ cell ∈ night.truth, ∃ w ∈ wanted, w.level = .table ∧ w.pair.name = cell.table := by
  simp only [ParallelRun.call, ParallelRun.loadSpecs, loadPairs, bind_eq_ok, pure_eq_ok] at h
  obtain ⟨_, ⟨_, ⟨wanted, hwanted, rfl⟩, rfl⟩, compared, hcompared, grade, hgrade, cells, -,
    explanations, -, rfl⟩ := h
  have hnodup := nodup_names hnames hwanted
  obtain ⟨hrules, htruth⟩ := gradeTables_ok_iff.mp ⟨grade, hgrade⟩
  have heach := each_pair hcompared
  refine ⟨wanted, _, hwanted, ⟨rfl, heach, fun drift hdrift => ?_, fun spec hspec => ?_⟩,
    fun w hw hlevel => ?_, fun cell hcell => ?_⟩
  · exact List.mem_append_right _ (List.mem_map_of_mem hdrift)
  · obtain ⟨r, hr, hcompare⟩ := exists_image_of_mem hcompared (List.mem_map_of_mem hspec)
    exact ⟨r, List.mem_append_left _ hr, compare_linedUp hnodup hspec ▸ hcompare⟩
  · cases hspec : w.spec world.catalogues with
    | ok spec => exact ⟨spec, rfl⟩
    | error reason =>
      -- The grade looks up the rules of the drifted table.
      have hdrift : (⟨w.stub, reason⟩ : Drift) ∈ driftedOf world.catalogues wanted :=
        mem_driftedOf.mpr ⟨w, hw, reason, hspec, rfl⟩
      have htable := hrules (driftedResult ⟨w.stub, reason⟩) (List.mem_filter.mpr
        ⟨List.mem_append_right _ (List.mem_map_of_mem hdrift), decide_eq_true hlevel⟩)
      rw [List.map_map] at htable
      exact absurd rfl ((List.nodup_append.mp (nodup_linedUp hnodup)).2.2 _ htable _
        (List.mem_map_of_mem hdrift))
  · obtain ⟨p, hp, hname⟩ := List.mem_map.mp (htruth cell hcell)
    obtain ⟨hp, hlevel⟩ := List.mem_filter.mp hp
    obtain ⟨w, hw, heq⟩ := List.mem_map.mp (heach.mem_iff.mp (List.mem_map_of_mem hp))
    obtain ⟨hlevel', hname'⟩ := Prod.mk.inj heq
    exact ⟨w, hw, hlevel'.trans (of_decide_eq_true hlevel), hname'.trans hname⟩

theorem differingCells_ok (tables : List PairResult) (hcells : ∀ p ∈ tables,
    ∀ c ∈ p.diff.cells, c.column ∈ p.spec.columns.map Column.name) :
    ∃ cells, differingCells tables = .ok cells := by
  obtain ⟨cells, hmap⟩ := exists_mapM_eq_ok (l := tables)
    (f := fun p => p.diff.cells.mapM fun c => do
      let column ← columnNamed p.spec c.column
      return (p.spec.name, column.target)) fun p hp => exists_mapM_eq_ok fun c hc => by
    obtain ⟨column, -, hcolumn⟩ := columnNamed_ok (hcells p hp c hc)
    exact ⟨_, bind_eq_ok.mpr ⟨column, hcolumn, rfl⟩⟩
  exact ⟨_, bind_eq_ok.mpr ⟨cells, hmap, rfl⟩⟩

/-- What a result is of: a pair that lines up, or a drifted one, with nothing found. -/
private inductive ResultOf (catalogues : Catalogues) (wanted : List Wanted) : PairResult → Prop
  | compared {p : PairResult} {spec : TableSpec} {watermark : Option Timestamp}
      (hspec : spec ∈ linedUp catalogues wanted) (heq : p.spec = { spec with watermark := watermark })
      (hkey : ∀ k ∈ p.spec.key, k ∈ p.spec.columns.map Column.name)
      (hcells : ∀ c ∈ p.diff.cells, c.column ∈ p.spec.columns.map Column.name) :
      ResultOf catalogues wanted p
  | drifted {drift : Drift} (hdrift : drift ∈ driftedOf catalogues wanted) :
      ResultOf catalogues wanted (driftedResult drift)

/-- Every pair that lines up can be compared, if its differences have a class. -/
private theorem exists_compared (settings : NightSettings) (world : World R T) (night : Night)
    (hnodup : (wanted.map fun w => w.pair.name).Nodup)
    (hclassed : ∀ spec ∈ linedUp world.catalogues wanted, ClassedTonight settings world night spec) :
    ∃ compared, ((linedUp world.catalogues wanted).map (asOfTonight night)).mapM
        (compare settings world night (rulesOf settings world wanted)) = .ok compared ∧
      ∀ p ∈ compared ++ (driftedOf world.catalogues wanted).map driftedResult,
        ResultOf world.catalogues wanted p := by
  obtain ⟨compared, hcompared⟩ := exists_mapM_eq_ok
      (l := (linedUp world.catalogues wanted).map (asOfTonight night))
      (f := compare settings world night (rulesOf settings world wanted)) fun tonight htonight => by
    obtain ⟨spec, hspec, rfl⟩ := List.mem_map.mp htonight
    obtain ⟨w, -, hw⟩ := mem_linedUp.mp hspec
    rw [compare_linedUp hnodup hspec]
    exact (comparedAlone_ok_iff settings world night hw).mpr (hclassed spec hspec)
  -- a result is that of a compared pair, or of a drifted one
  refine ⟨compared, hcompared, fun p hp => ?_⟩
  rcases List.mem_append.mp hp with hp | hp
  · obtain ⟨_, htonight, hcompare⟩ := exists_preimage_of_mem hcompared hp
    obtain ⟨spec, hspec, rfl⟩ := List.mem_map.mp htonight
    obtain ⟨w, -, hw⟩ := mem_linedUp.mp hspec
    rw [compare_linedUp hnodup hspec] at hcompare
    obtain ⟨⟨watermark, heq⟩, hkey, hcells⟩ := comparedAlone_spec hw hcompare
    exact .compared hspec heq hkey hcells
  · obtain ⟨drift, hdrift, rfl⟩ := List.mem_map.mp hp
    exact .drifted hdrift

/-- The grade goes through if no table drifted, and what was planted is in tables. -/
private theorem exists_grade (settings : NightSettings) {pairs : List PairResult}
    (hpairs : ∀ p ∈ pairs, ResultOf world.catalogues wanted p)
    (heach : (pairs.map fun p => (p.spec.level, p.spec.name)).Perm
      (wanted.map fun w => (w.level, w.pair.name)))
    (htables : ∀ w ∈ wanted, w.level = .table → ∃ spec, w.spec world.catalogues = .ok spec)
    (htruth : ∀ cell ∈ night.truth, ∃ w ∈ wanted, w.level = .table ∧ w.pair.name = cell.table) :
    ∃ grade, gradeTables (rulesOf settings world wanted) night.truth
      (pairs.filter fun p => p.spec.level = .table) = .ok grade := by
  refine gradeTables_ok_iff.mpr ⟨fun p hp => ?_, fun cell hcell => ?_⟩
  · obtain ⟨hp, hlevel⟩ := List.mem_filter.mp hp
    rw [rulesOf, List.map_map]
    cases hpairs p hp with
    | compared hspec heq =>
      rw [heq]
      exact List.mem_map_of_mem hspec
    | drifted hdrift =>
      -- The rules are those of the pairs that line up.
      obtain ⟨w, hw, reason, hreason, rfl⟩ := mem_driftedOf.mp hdrift
      obtain ⟨spec, hspec⟩ := htables w hw (of_decide_eq_true hlevel)
      rw [hspec] at hreason
      cases hreason
  · obtain ⟨w, hw, hlevel, hname⟩ := htruth cell hcell
    obtain ⟨p, hp, heq⟩ := List.mem_map.mp (heach.mem_iff.mpr (List.mem_map_of_mem hw))
    obtain ⟨hlevel', hname'⟩ := Prod.mk.inj heq
    exact List.mem_map.mpr ⟨p, List.mem_filter.mpr ⟨hp, decide_eq_true (hlevel'.trans hlevel)⟩,
      hname'.trans hname⟩

/-- A result is explained if its report's lineage has its columns. -/
private theorem ResultOf.exists_why {p : PairResult} (h : ResultOf world.catalogues wanted p)
    (hlineage : ∀ p ∈ settings.config.reports, ∀ l, world.traced p.target = some l →
      ∀ spec ∈ linedUp world.catalogues wanted, spec.name = p.name →
        ∀ c ∈ spec.columns, c.target ∈ l.map Prod.fst)
    (cells : List RawColumn) (rows : List String) :
    ∃ why, explain p.spec p.diff (dictGet (lineageOf settings world) p.spec.name).join cells rows =
      .ok why := by
  cases h with
  | compared hspec heq hkey hcells =>
    apply explain_ok _ _ _ hkey hcells
    intro l hl c hc
    obtain ⟨report, hreport, hname, htraced⟩ := exists_of_dictGet (Option.join_eq_some_iff.mp hl)
    rw [heq] at hname hc
    exact hlineage report hreport l htraced _ hspec hname.symm c hc
  | drifted hdrift => exact explain_drifted _ _ _ _

variable (run) in
/-- **A night goes through** if no table drifted, what was planted is in tables, the traced reports'
lineage has their columns, and every difference has a class. -/
theorem call_of_linedUp (hnames : NamesDistinct settings.config)
    (hwanted : wantedPairs settings.config settings.schemas world.catalogues.graph = .ok wanted)
    (htables : ∀ w ∈ wanted, w.level = .table → ∃ spec, w.spec world.catalogues = .ok spec)
    (htruth : ∀ cell ∈ night.truth, ∃ w ∈ wanted, w.level = .table ∧ w.pair.name = cell.table)
    (hlineage : ∀ p ∈ settings.config.reports, ∀ l, world.traced p.target = some l →
      ∀ spec ∈ linedUp world.catalogues wanted, spec.name = p.name →
        ∀ c ∈ spec.columns, c.target ∈ l.map Prod.fst)
    (hclassed : ∀ spec ∈ linedUp world.catalogues wanted, ClassedTonight settings world night spec) :
    ∃ run', run.call settings world night = .ok run' := by
  -- each step of the night returns, in the order of the code
  obtain ⟨compared, hcompared, hpairs⟩ :=
    exists_compared settings world night (nodup_names hnames hwanted) hclassed
  have heach := each_pair hcompared
  set pairs := compared ++ (driftedOf world.catalogues wanted).map driftedResult
  obtain ⟨grade, hgrade⟩ := exists_grade settings hpairs heach htables htruth
  obtain ⟨cells, hcells⟩ := differingCells_ok
    (pairs.filter fun p => p.spec.level = .table) fun p hp => by
      cases hpairs p (List.mem_of_mem_filter hp) with
      | compared _ _ _ hcells => exact hcells
      | drifted _ => exact nofun
  obtain ⟨explanations, hexplain⟩ := exists_mapM_eq_ok
      (l := pairs.filter fun p => p.spec.level = .report) (f := fun p => do
        let why ← explain p.spec p.diff (dictGet (lineageOf settings world) p.spec.name).join cells
          (differingRows (pairs.filter fun p => p.spec.level = .table)
            (driftedOf world.catalogues wanted))
        return (p.spec.name, why)) fun p hp => by
    obtain ⟨why, hwhy⟩ := (hpairs p (List.mem_of_mem_filter hp)).exists_why hlineage cells _
    exact ⟨_, bind_eq_ok.mpr ⟨why, hwhy, rfl⟩⟩
  let result : NightResult := ⟨night, pairs, grade,
    (explanations.filter fun e => !e.2.explained).map Prod.fst, explanations⟩
  refine ⟨⟨linedUp world.catalogues wanted, driftedOf world.catalogues wanted,
    lineageOf settings world, rulesOf settings world wanted, true, run.results ++ [result]⟩, ?_⟩
  simp only [ParallelRun.call, ParallelRun.loadSpecs, loadPairs, bind_eq_ok, pure_eq_ok]
  exact ⟨_, ⟨_, ⟨wanted, hwanted, rfl⟩, rfl⟩, compared, hcompared, grade, hgrade, cells, hcells,
    explanations, hexplain, rfl⟩

/-- The column lineage of a mart names every column ClickHouse has of it. -/
def LineageCovers (settings : NightSettings) (world : World R T) : Prop :=
  ∀ p ∈ settings.config.reports, ∀ lineage, world.traced p.target = some lineage →
    ∀ column ∈ (world.catalogues.clickhouse settings.schemas.marts p.target).map Prod.fst,
      column ∈ lineage.map Prod.fst

private theorem lineage_of_covers (hnames : NamesDistinct settings.config)
    (hlineage : LineageCovers settings world)
    (hwanted : wantedPairs settings.config settings.schemas world.catalogues.graph = .ok wanted) :
    ∀ p ∈ settings.config.reports, ∀ l, world.traced p.target = some l →
      ∀ spec ∈ linedUp world.catalogues wanted, spec.name = p.name →
        ∀ c ∈ spec.columns, c.target ∈ l.map Prod.fst := by
  intro p hp l htraced spec hspec hname c hc
  obtain ⟨w, hw, hwspec⟩ := mem_linedUp.mp hspec
  obtain ⟨⟨columns, rfl⟩, -⟩ := spec_ok hwspec
  have htarget := target_mem_of_spec_ok hwspec c hc
  have hinj := List.inj_on_of_nodup_map hnames
  -- the name is of a report: no table has it
  rcases mem_wanted hwanted hw with ⟨p', hp', rfl⟩ | ⟨p', hp', hreport⟩
  · rw [NamesDistinct, List.map_append] at hnames
    exact absurd hname ((List.nodup_append.mp hnames).2.2 _ (List.mem_map_of_mem hp') _
      (List.mem_map_of_mem hp))
  · obtain ⟨rfl, -, hmarts⟩ := wantedReport_ok hreport
    obtain rfl := hinj (List.mem_append_right _ hp') (List.mem_append_right _ hp) hname
    exact hlineage _ hp l htraced _ (hmarts ▸ htarget)

/-- **Schema drift fails only its own pair**: the night goes through and is recorded with one
result per pair; each drifted pair fails with its reason; and every other pair's result is what
it is alone, and what it would be on a night whose catalogues show it the same and no drift. -/
def DriftContained (settings : NightSettings) (world : World R T) (night : Night)
    (run : ParallelRun) : Prop :=
  ∃ wanted run' result,
    wantedPairs settings.config settings.schemas world.catalogues.graph = .ok wanted ∧
    run.call settings world night = .ok run' ∧ run'.results = run.results ++ [result] ∧
    (result.pairs.map fun p => (p.spec.level, p.spec.name)).Perm
      ((settings.config.tables.map fun p => (Level.table, p.name)) ++
        settings.config.reports.map fun p => (Level.report, p.name)) ∧
    (∀ w ∈ wanted, ∀ reason, w.spec world.catalogues = .error reason →
      ∃ r ∈ result.pairs, r.spec = w.stub ∧ r.verdict.failures = [.schema reason]) ∧
    ∀ w ∈ wanted, ∀ spec, w.spec world.catalogues = .ok spec →
      ∃ r ∈ result.pairs, comparedAlone settings world night spec = .ok r ∧
        ∀ catalogues : Catalogues, catalogues.graph = world.catalogues.graph →
          (∀ w' ∈ wanted, ∃ spec', w'.spec catalogues = .ok spec') →
          w.spec catalogues = .ok spec → ∀ run'' result',
            run.call settings { world with catalogues := catalogues } night = .ok run'' →
            run''.results = run.results ++ [result'] → r ∈ result'.pairs

end Night

/-! ### One table and one report -/

private def ordersPair : PairConfig where
  name := "orders"
  source := "orders"
  target := "orders"
  key := ["order_id"]
  keyed := by decide

private def salesPair : PairConfig where
  name := "sales_daily"
  source := "sales_daily"
  target := "sales_fct_daily_sales"
  key := ["order_date"]
  keyed := by decide

private def nightSettings : NightSettings where
  config := ⟨[ordersPair], [salesPair]⟩
  schemas := ⟨"app", "reporting", "raw", "marts"⟩
  canonical := {}
  thresholds := default
  leafWidth := 1

/-- Both relations have their key column in Postgres; in ClickHouse, those of `there`. -/
private def nightWorld (there : List String) : World (List (String × String)) (List (String × String))
    where
  catalogues :=
    { postgres := fun _ table =>
        [(if table = "orders" then "order_id" else "order_date", "text", none)]
      clickhouse := fun _ table =>
        if table ∈ there then [(if table = "orders" then "order_id" else "order_date", "String")]
        else []
      named := by
        intro database table
        split
        · split <;> simp
        · simp
      graph := ⟨["model.company.sales_fct_daily_sales"], [], by simp⟩ }
  engine := ⟨⟨fun c _ row => row.lookup c.name⟩, fun _ _ => none⟩
  targetEngine := ⟨fun c _ row => row.lookup c.name⟩
  md5 _ := (0, 0)
  ceilLog _ _ := 1
  classes := ⟨1 / 100, [], fun _ _ t => some t, id⟩
  legacy _ := ⟨[], []⟩
  copy _ _ := []
  traced _ := none

private def nightTonight : Night := ⟨0, 0, [], [], none⟩

private theorem lineageCovers (there : List String) :
    LineageCovers nightSettings (nightWorld there) := nofun

end PlatformOps.Reconcile
