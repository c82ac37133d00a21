import PlatformOps.Reconcile.Graded
import PlatformOps.Simulation.DeliveredTruth

/-!
# The Grade of a Delivered Night

A night of the delivered job compares every table with its copy and grades what it
finds against the night's truth. The grade is complete: everything the truth names is
found, but for what the canonical policy calls equal, and nothing else; and classified
correctly, if each value a defect moves is. A value that has no class fails the night.

- `NightComparison`: a comparison as `_compare` makes it.
- `delivered_night_graded`: the main result.
-/

namespace PlatformOps.Simulation

open Machine Reconcile Fallible

/-! ## One pair -/

/-- A comparison is the one a night makes, of what it finds in the databases. -/
structure NightComparison {R T : Type} (settings : NightSettings) (world : Reconcile.World R T)
    (c : Comparison R T) : Prop where
  engine : c.engine = world.engine
  targetEngine : c.targetEngine = world.targetEngine
  md5 : c.md5 = world.md5
  ceilLog : c.ceilLog = world.ceilLog
  leafWidth : c.leafWidth = settings.leafWidth
  legacy : c.legacy = world.legacy c.table.source
  copy : c.copy = ⟨world.copy c.table.target c.table.final⟩

section Pair

variable {R T : Type} {settings : NightSettings} {world : Reconcile.World R T}
  {c : Comparison R T} {night : Night} {rules : List (String × List (String × Rule))}

/-- What `_compare` makes of a comparison that returns. -/
theorem NightComparison.compare_eq (h : NightComparison settings world c)
    (hrules : dictGet rules c.table.name = some c.rules) {diff : TableDiff}
    {connector : PostgresConnector R} (hrun : c.run = .ok (diff, connector))
    {found : List Discrepancy}
    (hfound : discrepanciesOf c.table diff (classify world.classes) = .ok found) :
    compare settings world night rules c.table = .ok ⟨c.table, diff, found,
      verdict c.table diff found settings.thresholds (some night.runAt)⟩ := by
  have hown : dictItem rules c.table.name = .ok c.rules := dictItem_eq_ok.mpr hrules
  rw [Comparison.run, h.engine, h.targetEngine, h.md5, h.ceilLog, h.leafWidth, h.legacy, h.copy]
    at hrun
  exact bind_eq_ok.mpr ⟨_, hown, bind_eq_ok.mpr ⟨_, hrun, bind_eq_ok.mpr ⟨_, hfound, rfl⟩⟩⟩

end Pair

/-! ## Every table -/

section Night

variable {V : Type} {driver : Driver V} {zones : ZoneInfo} {job : Job V} {mark : Timestamp}
  {legacy : Table → List (Row V)} {truth : List TruthCell}

theorem exists_table_of_mem_truth
    (htruth : deliveredTruth driver zones job mark legacy = .ok truth) {cell : TruthCell}
    (h : cell ∈ truth) : ∃ t : Table, cell.table = t.text := by
  rcases (mem_deliveredTruth htruth).mp h with ⟨d, -, r, -, -, -, rfl⟩ | ⟨r, -, -, -, rfl⟩
  · exact ⟨d.table, rfl⟩
  · exact ⟨job.deliveredJob.batchTable, rfl⟩

theorem nodup_table_texts : (tables.map Table.text).Nodup := by
  decide

/-- The rules the grade looks up for the tables. -/
theorem dictGet_own {rules own : List (String × List (String × Rule))}
    {ruled : Table → List (String × Rule)}
    (hrules : ∀ t : Table, dictGet rules t.text = some (ruled t))
    (hown : ((tables.map Table.text).mapM fun name => do
      let rules ← dictItem rules name
      return (name, rules)) = .ok own) (t : Table) : dictGet own t.text = some (ruled t) := by
  have hsame : own = tables.map fun t => (t.text, ruled t) := by
    have hall : ((tables.map Table.text).mapM fun name => do
        let rules ← dictItem rules name
        return (name, rules)) = Except.ok (tables.map fun t => (t.text, ruled t)) := by
      apply mapM_eq_ok_iff.mpr
      rw [List.forall₂_map_left_iff, List.forall₂_map_right_iff, List.forall₂_same]
      intro t _
      exact bind_eq_ok.mpr ⟨ruled t, by rw [dictItem, hrules], rfl⟩
    exact Except.ok.inj (hown.symm.trans hall)
  have hitem := @dictItem_of_mem _ own t.text (ruled t) (by
    rw [hsame, List.map_map]
    exact nodup_table_texts) (by
    rw [hsame]
    exact List.mem_map_of_mem (f := fun t => (Table.text t, ruled t)) (mem_tables t))
  exact dictItem_eq_ok.mp hitem

/-- The two texts of a value that a defect moves in a row copied, where they differ. -/
def MovedTexts (job : Job V) (t : Table) (mark : Timestamp) (rows : List (Row V))
    (sourceText targetText : String → Option V → String) (d : Defect V)
    (source target : String) : Prop :=
  ∃ r ∈ rows, r.updatedAt ≤ mark ∧ ∃ v, r.cells.lookup d.column = some v ∧
    d.moved v = some (.ok true) ∧ source = sourceText d.column (some v) ∧
    target = targetText d.column (some (job.expression t d.column v)) ∧ source ≠ target

/-- Each value a defect moves has a class, one that is right for the defect. -/
def MovedClassed (driver : Driver V) (zones : ZoneInfo) (job : Job V) (t : Table)
    (mark : Timestamp) (rows : List (Row V)) (table : TableSpec)
    (sourceText targetText : String → Option V → String) (classify : Classify)
    (right : Defect V → DiscrepancyClass → Prop) : Prop :=
  ∀ d ∈ defects driver zones job, d.table = t → ∀ column, columnNamed table d.column = .ok column →
    ∀ source target, MovedTexts job t mark rows sourceText targetText d source target →
      ∃ klass, classify column source target = .ok klass ∧ right d klass

theorem MovedClassed.mono {t : Table} {rows : List (Row V)} {table : TableSpec}
    {sourceText targetText : String → Option V → String} {classify : Classify}
    {right right' : Defect V → DiscrepancyClass → Prop}
    (h : MovedClassed driver zones job t mark rows table sourceText targetText classify right)
    (hright : ∀ d klass, right d klass → right' d klass) :
    MovedClassed driver zones job t mark rows table sourceText targetText classify right' := by
  intro d hd htable column hcolumn source target hmoved
  obtain ⟨klass, hklass, hr⟩ := h d hd htable column hcolumn source target hmoved
  exact ⟨klass, hklass, hright d klass hr⟩

section Found

variable {t : Table} {c : Comparison (Row V) (Row V)}
  {sourceText targetText : String → Option V → String} {classify : Classify}
  {copy : List (Row V)} {diff : TableDiff}

/-- A cell found is of a value that a defect moves. -/
theorem Job.DefectsFound.movedTexts
    (hagree : TextsAgree driver zones job t c sourceText targetText)
    (htruth : deliveredTruth driver zones job mark legacy = .ok truth)
    (h : job.DefectsFound t mark toString (c.table.valueColumns.map Column.name) c.source c.target
      (legacy t) copy diff.findings) {cell : CellDiff} (hcell : cell ∈ diff.cells) :
    ∃ d ∈ defects driver zones job, d.table = t ∧ d.column = cell.column ∧
      MovedTexts job t mark (legacy t) sourceText targetText d cell.source cell.target := by
  obtain ⟨r, hr, -, hle, -, hzip, hne⟩ := (h.cells _).mp hcell
  rw [hagree.source, hagree.target] at hzip
  obtain ⟨hcompared, hsource, htarget⟩ := mem_zip_texts.mp hzip
  have hdiffers := hne
  rw [hsource, htarget] at hdiffers
  obtain ⟨d, hd, htable, hcolumn, ⟨v, hv, hmoved⟩, -⟩ :=
    (hagree.differs_iff htruth hr hle).mp ⟨hcompared, hdiffers⟩
  rw [← hcolumn, hv] at hsource
  rw [← hcolumn, lookup_read, hv] at htarget
  exact ⟨d, hd, htable, hcolumn, r, hr, hle, v, hv, hmoved, hsource, htarget, hne⟩

/-- What is found at a place of the truth has the truth's class. -/
theorem Job.DefectsFound.klass_eq
    (hapart : ∀ d ∈ defects driver zones job, d.table ≠ job.deliveredJob.batchTable)
    (hkeys : ((legacy t).map Row.key).Nodup) (hname : c.table.name = t.text)
    (hagree : TextsAgree driver zones job t c sourceText targetText)
    (hclasses : MovedClassed driver zones job t mark (legacy t) c.table sourceText targetText
      classify fun d klass => klass = d.klass)
    (htruth : deliveredTruth driver zones job mark legacy = .ok truth)
    (h : job.DefectsFound t mark toString (c.table.valueColumns.map Column.name) c.source c.target
      (legacy t) copy diff.findings) {found : List Discrepancy}
    (hfound : discrepanciesOf c.table diff classify = .ok found) {d : Discrepancy} (hd : d ∈ found)
    {cell : TruthCell} (hcell : cell ∈ truth) (hplace : d.cell = cell.cell) :
    d.klass = cell.klass := by
  rcases cases_of_mem_discrepanciesOf hfound h.extra h.duplicates hd with
    ⟨hdcell, hklass, hmissing⟩ | ⟨diffCell, hdiff, hdcell, column, hcolumn, hklass⟩
  · rcases (mem_deliveredTruth htruth).mp hcell with ⟨d', hd', r, -, -, -, rfl⟩ | ⟨r, -, -, -, rfl⟩
    -- a table read wrong loses no rows
    · obtain ⟨r', -, -, -, hlost⟩ := (h.missing _).mp hmissing
      have htable := congrArg Prod.fst (hdcell.symm.trans hplace)
      obtain rfl := Table.text_injective (hname.symm.trans htable)
      simp [Job.dropped, hapart d' hd'] at hlost
    · exact hklass
  · rcases (mem_deliveredTruth htruth).mp hcell with
      ⟨d', hd', r, hr, -, ⟨v, hv, hmoved⟩, rfl⟩ | ⟨r, -, -, -, rfl⟩
    · obtain ⟨r', hr', hkey', hle, -, hzip, hne⟩ := (h.cells _).mp hdiff
      rw [hagree.source, hagree.target] at hzip
      obtain ⟨-, hsource, htarget⟩ := mem_zip_texts.mp hzip
      simp only [hdcell, hname, TruthCell.cell, Defect.cell, Prod.mk.injEq] at hplace
      obtain ⟨htable, hkey, hname'⟩ := hplace
      obtain rfl := Table.text_injective htable
      obtain rfl := List.inj_on_of_nodup_map hkeys hr' hr (Int.repr_injective (hkey'.trans hkey))
      rw [hname'] at hsource htarget hcolumn
      rw [hv] at hsource
      rw [lookup_read, hv] at htarget
      obtain ⟨klass, hclass, rfl⟩ := hclasses d' hd' rfl column hcolumn _ _
        ⟨r', hr', hle, v, hv, hmoved, hsource, htarget, hne⟩
      exact Except.ok.inj (hklass.symm.trans hclass)
    -- a table that loses rows is read right
    · obtain ⟨d', hd', hd'table, -⟩ := h.movedTexts hagree htruth hdiff
      have htable := congrArg Prod.fst (hdcell.symm.trans hplace)
      exact absurd (hd'table.trans (Table.text_injective (hname.symm.trans htable)))
        (hapart d' hd')

end Found

variable [DecidableEq V] {w : World V} {es : List (Event V)} {settings : NightSettings}
  {world : Reconcile.World (Row V) (Row V)} {night : Night}
  {rules : List (String × List (String × Rule))}

/-- One table is compared, and the places found are the truth's, with its classes. -/
theorem exists_pair {t : Table} {spec : TableSpec} {c : Comparison (Row V) (Row V)}
    {sourceText targetText : String → Option V → String} (hdelivered : job.delivered = true)
    (hapart : ∀ d ∈ defects driver zones job, d.table ≠ job.deliveredJob.batchTable)
    (hkeys : ∀ t, ((legacy t).map Row.key).Nodup)
    (hrun : Run (step job) (Punctual job) (World.init legacy) es w) (hidle : w.running = none)
    (hmark : w.watermark t = some mark) (hname : c.table.name = t.text)
    (hrules : dictGet rules t.text = some c.rules) (hnight : NightComparison settings world c)
    (hc : ComparesCopy w t night spec toString c)
    (hagree : TextsAgree driver zones job t c sourceText targetText) (hcollide : Uncollided w t c)
    (htruth : deliveredTruth driver zones job mark w.legacy = .ok truth)
    (hclassed : MovedClassed driver zones job t mark (w.legacy t) c.table sourceText targetText
      (classify world.classes) fun _ _ => True) :
    ∃ pair : PairResult, compare settings world night rules c.table = .ok pair ∧
      pair.spec = c.table ∧ (∀ table key name,
        (table, key, name) ∈ pair.discrepancies.map Discrepancy.cell ↔ t.text = table ∧
          ∃ cell ∈ truth, cell.cell = (t.text, key, name) ∧
            neutralizedByPolicy cell c.rules = false) ∧
      (MovedClassed driver zones job t mark (w.legacy t) c.table sourceText targetText
          (classify world.classes) (fun d klass => klass = d.klass) →
        ∀ d ∈ pair.discrepancies, ∀ cell ∈ truth, d.cell = cell.cell → d.klass = cell.klass) := by
  obtain ⟨diff, connector, hresult, hfound⟩ :=
    defectsFound_of_run hkeys hrun hidle hmark hc hcollide
  have hcells : ∀ cell ∈ diff.cells, Classed c.table (classify world.classes) cell := by
    intro cell hcell
    obtain ⟨d, hd, htable, hcolumn, hmoved⟩ := hfound.movedTexts hagree htruth hcell
    obtain ⟨compared, hcompared, hcomparedName⟩ :=
      List.mem_map.mp (hagree.compared d hd htable)
    obtain ⟨column, -, hnamed⟩ := columnNamed_ok (List.mem_map_of_mem (f := Column.name)
      (List.mem_of_mem_filter hcompared))
    rw [hcomparedName] at hnamed
    obtain ⟨klass, hklass, -⟩ := hclassed d hd htable column hnamed _ _ hmoved
    exact ⟨column, klass, hcolumn ▸ hnamed, hklass⟩
  obtain ⟨found, hdiscrepancies⟩ := exists_discrepanciesOf_iff.mpr hcells
  refine ⟨_, hnight.compare_eq (hname ▸ hrules) hresult hdiscrepancies, rfl,
    fun table key name => ?_, fun hclasses d hd cell hcell hplace =>
    hfound.klass_eq hapart (nodup_keys_legacy hkeys hrun t) hname hagree hclasses htruth
      hdiscrepancies hd hcell hplace⟩
  rw [mem_places_discrepanciesOf hdiscrepancies hfound.extra hfound.duplicates, hname,
    hfound.truth_iff hdelivered hapart hagree htruth]
  exact Iff.rfl

omit [DecidableEq V] in
/-- The places found in all tables are those the truth names. -/
theorem mem_places_pairs (htruth : deliveredTruth driver zones job mark legacy = .ok truth)
    {pairs : Table → PairResult}
    {own : List (String × List (String × Rule))} {ruled : Table → List (String × Rule)}
    (hown : ∀ t : Table, dictGet own t.text = some (ruled t))
    (hplaces : ∀ t table key name,
      (table, key, name) ∈ (pairs t).discrepancies.map Discrepancy.cell ↔ t.text = table ∧
        ∃ cell ∈ truth, cell.cell = (t.text, key, name) ∧
          neutralizedByPolicy cell (ruled t) = false) (place : String × String × String) :
    place ∈ ((tables.map pairs).flatMap PairResult.discrepancies).map Discrepancy.cell ↔
      ∃ cell ∈ truth, Counted own cell ∧ cell.cell = place := by
  obtain ⟨table, key, name⟩ := place
  constructor
  · intro hplace
    obtain ⟨d, hd, hdplace⟩ := List.mem_map.mp hplace
    obtain ⟨p, hp, hmem⟩ := List.mem_flatMap.mp hd
    obtain ⟨t, -, rfl⟩ := List.mem_map.mp hp
    obtain ⟨rfl, cell, hcell, hcellPlace, hpolicy⟩ :=
      (hplaces t table key name).mp (hdplace ▸ List.mem_map_of_mem hmem)
    have htable : cell.table = t.text := congrArg Prod.fst hcellPlace
    exact ⟨cell, hcell, ⟨_, htable ▸ hown t, hpolicy⟩, hcellPlace⟩
  · rintro ⟨cell, hcell, ⟨cellRules, hget, hpolicy⟩, hcellPlace⟩
    obtain ⟨t, ht⟩ := exists_table_of_mem_truth htruth hcell
    have htable : t.text = table := ht.symm.trans (congrArg Prod.fst hcellPlace)
    rw [ht, hown t] at hget
    cases hget
    subst htable
    have hfound := (hplaces t t.text key name).mpr ⟨rfl, cell, hcell, hcellPlace, hpolicy⟩
    obtain ⟨d, hd, hdplace⟩ := List.mem_map.mp hfound
    have hmem : d ∈ (tables.map pairs).flatMap PairResult.discrepancies :=
      List.mem_flatMap.mpr ⟨pairs t, List.mem_map_of_mem (mem_tables t), hd⟩
    exact hdplace ▸ List.mem_map_of_mem hmem

/-- **The grade of a delivered night is complete**: in every run from empty raw tables whose calls
succeed and whose commits are stamped after what was loaded, once every table is loaded up to
`mark`, if each value a defect moves has a class, the night compares every table and grades it, and
what it finds are the places the truth names, but for what the canonical policy calls equal. -/
theorem delivered_night_graded {spec : Table → TableSpec}
    {c : Table → Comparison (Row V) (Row V)}
    {sourceText targetText : Table → String → Option V → String}
    (hdelivered : job.delivered = true)
    (hapart : ∀ d ∈ defects driver zones job, d.table ≠ job.deliveredJob.batchTable)
    (hkeys : ∀ t, ((legacy t).map Row.key).Nodup)
    (hrun : Run (step job) (Punctual job) (World.init legacy) es w) (hidle : w.running = none)
    (hmark : ∀ t, w.watermark t = some mark)
    (hname : ∀ t, (c t).table.name = t.text)
    (hrules : ∀ t : Table, dictGet rules t.text = some (c t).rules)
    (hnight : ∀ t, NightComparison settings world (c t))
    (hc : ∀ t, ComparesCopy w t night (spec t) toString (c t))
    (hagree : ∀ t, TextsAgree driver zones job t (c t) (sourceText t) (targetText t))
    (hcollide : ∀ t, Uncollided w t (c t))
    (htruth : deliveredTruth driver zones job mark w.legacy = .ok truth)
    (hclassed : ∀ t, MovedClassed driver zones job t mark (w.legacy t) (c t).table (sourceText t)
      (targetText t) (classify world.classes) fun _ _ => True) :
    ∃ pairs : Table → PairResult,
      (∀ t, compare settings world night rules (asOfTonight night (spec t)) = .ok (pairs t)) ∧
      ∃ g, gradeTables rules truth (tables.map pairs) = .ok g ∧
        g.Complete ∧
        -- and all in the truth's classes, if each value moved is classified so
        ((∀ t, MovedClassed driver zones job t mark (w.legacy t) (c t).table (sourceText t)
            (targetText t) (classify world.classes) fun d klass => klass = d.klass) →
          g.correctlyClassified = g.expected) := by
  have hpair := fun t => exists_pair hdelivered hapart hkeys hrun hidle (hmark t) (hname t)
    (hrules t) (hnight t) (hc t) (hagree t) (hcollide t) htruth (hclassed t)
  choose pairs hcompare hspec hplaces hklass using hpair
  have hnames : (tables.map pairs).map (fun p => p.spec.name) = tables.map Table.text := by
    rw [List.map_map]
    apply List.map_congr_left
    intro t _
    rw [Function.comp_apply, hspec, hname]
  obtain ⟨g, hgraded⟩ : ∃ g, gradeTables rules truth (tables.map pairs) = .ok g := by
    apply gradeTables_ok_iff.mpr
    constructor
    · intro p hp
      obtain ⟨t, -, rfl⟩ := List.mem_map.mp hp
      rw [hspec, hname]
      exact dictItem_ok_iff.mp ⟨_, dictItem_eq_ok.mpr (hrules t)⟩
    · intro cell hcell
      obtain ⟨t, htable⟩ := exists_table_of_mem_truth htruth hcell
      rw [hnames, htable]
      exact List.mem_map_of_mem (mem_tables t)
  refine ⟨pairs, fun t => (hc t).table ▸ hcompare t, g, hgraded, ?_⟩
  simp only [gradeTables, bind_eq_ok] at hgraded
  obtain ⟨own, hown, hgrade⟩ := hgraded
  have hnamed : ((tables.map pairs).map fun p => (p.spec.name, p.spec)).map Prod.fst =
      tables.map Table.text := by
    rw [List.map_map]
    exact hnames
  rw [hnamed] at hown
  have hall := mem_places_pairs htruth (dictGet_own hrules hown) hplaces
  refine ⟨complete_of_places hall hgrade, fun hclasses => ?_⟩
  apply classified_of_places hall hgrade
  intro d hd cell hcell _ hplace
  obtain ⟨p, hp, hmem⟩ := List.mem_flatMap.mp hd
  obtain ⟨t, -, rfl⟩ := List.mem_map.mp hp
  exact hklass t (hclasses t) d hmem cell hcell hplace

end Night

/-! ### The night of the run -/

def tableNamed (name : String) : Option Table :=
  tables.find? fun t => t.text = name

theorem tableNamed_text (t : Table) : tableNamed t.text = some t := by
  cases t <;> decide

/-- What a night finds; there are no reports. -/
def runWorld (w : World String) : Reconcile.World (Row String) (Row String) where
  catalogues := ⟨fun _ _ => [], fun _ _ => [], by simp, ⟨[], [], by simp⟩⟩
  engine := textEngine
  targetEngine := textEngine.toEngine
  md5 := digest
  ceilLog _ _ := 1
  classes := ⟨0, [], runZones, id⟩
  legacy name := ⟨((tableNamed name).map w.legacy).getD [], []⟩
  copy name _ := ((tableNamed name).map fun t => readFinal (w.raw t)).getD []
  traced _ := none

def runSettings : NightSettings :=
  ⟨⟨[], []⟩, ⟨"legacy", "reporting", "raw", "marts"⟩, {}, default, 1⟩

def runRules : List (String × List (String × Rule)) :=
  tables.map fun t => (t.text, rulesFor (runSpec t) {})

theorem nightComparison_run (w : World String) (t : Table) :
    NightComparison runSettings (runWorld w) (runComparison w t) where
  engine := rfl
  targetEngine := rfl
  md5 := rfl
  ceilLog := rfl
  leafWidth := rfl
  legacy := by simp [runWorld, runComparison, runSpec, tableNamed_text]
  copy := by simp [runWorld, runComparison, runSpec, tableNamed_text]

/-- A trimmed text differs by whitespace. -/
theorem movedClassed_run (t : Table) : MovedClassed runDriver runZones deliveredJob t
    (Duration.hours 30) (copiedTwice.legacy t) (runComparison copiedTwice t).table
    (fun _ v => v.getD null) (fun _ v => v.getD null) (classify (runWorld copiedTwice).classes)
    fun d klass => klass = d.klass := by
  rw [MovedClassed, forall_mem_defects]
  refine ⟨?_, ?_, ?_⟩
  · rintro rfl column - source target ⟨r, -, -, v, -, hmoved, -⟩
    simp [timezoneDefect, runDriver] at hmoved
  · rintro rfl column - source target ⟨r, -, -, v, -, hmoved, -⟩
    simp [floatDefect, runDriver] at hmoved
  · rintro rfl column hcolumn source target ⟨r, hr, -, v, hv, -, rfl, rfl, -⟩
    have hrows : copiedTwice.legacy .customers =
        [⟨1, Duration.hours 12, [("email", "ann@new.test ")]⟩] := by
      decide +kernel
    obtain rfl := List.mem_singleton.mp (hrows ▸ hr)
    obtain rfl := Option.some.inj hv
    obtain rfl := Except.ok.inj hcolumn
    exact ⟨.whitespace, by decide +kernel, rfl⟩

theorem dictGet_runRules (t : Table) :
    dictGet runRules t.text = some (rulesFor (runSpec t) {}) := by
  cases t <;> rfl

theorem delivered_night_graded_trimmed_email :
    ∃ pairs : Table → PairResult,
      (∀ t, compare runSettings (runWorld copiedTwice) runNight runRules
        (asOfTonight runNight (runSpec t)) = .ok (pairs t)) ∧
      ∃ g, gradeTables runRules
          [(trimDefect runDriver deliveredJob).cell 1, lostCell deliveredJob 25000]
          (tables.map pairs) = .ok g ∧ g.Complete ∧ g.correctlyClassified = g.expected := by
  obtain ⟨pairs, hcompare, g, hgraded, hcomplete, hclassified⟩ := delivered_night_graded rfl
    apart_run nodup_keys_oneCustomer run_copiedTwice rfl watermark_copiedTwice (fun _ => rfl)
    dictGet_runRules (nightComparison_run copiedTwice)
    (fun t => comparesRun (watermark_copiedTwice t)) (textsAgree_run copiedTwice) uncollided_run
    truth_copiedTwice fun t => (movedClassed_run t).mono fun _ _ _ => trivial
  exact ⟨pairs, hcompare, g, hgraded, hcomplete, hclassified movedClassed_run⟩

end PlatformOps.Simulation
