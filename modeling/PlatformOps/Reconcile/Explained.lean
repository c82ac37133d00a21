import PlatformOps.Reconcile.DiffExact
import PlatformOps.Reconcile.DriftContained

/-!
# When a Copy Defect Explains a Report

A report whose mart computes what the legacy report computes differs only if an
upstream table does. On a night nothing moves, with a sound column lineage or
none, `explain` finds the cause of every cell that differs. Of a row only one side
has it asks a cause of each key column, where one that changed is enough to move
the row: the report is explained exactly if every key column has a cause, whenever
rows differ (`explained_iff_keyCauses`). With one key column and no key held more
than once that is always so (`keyCauses_of_single`).
-/

namespace PlatformOps.Reconcile

open Listing Fallible

/-! ## A pair compared on a night nothing moves -/

/-- A pair whose two sides hold still: what its diff lists is what differs between them, and
equal sides compare clean. -/
structure PairResult.ComparedExactly (p : PairResult) (legacy copy : List (String × List String)) :
    Prop where
  legacyShaped : WellShaped (p.spec.valueColumns.map Column.name) legacy
  copyShaped : WellShaped (p.spec.valueColumns.map Column.name) copy
  exact : ∃ changed,
    p.diff.findings.Exact (p.spec.valueColumns.map Column.name) changed legacy copy
  /-- No key is in flight. -/
  settled : p.diff.inFlight = []
  clean : legacy.Perm copy → p.diff.clean = true

/-- Rows are missing, extra or duplicated. -/
def TableDiff.ByRow (d : TableDiff) : Prop :=
  d.missing ≠ [] ∨ d.extra ≠ [] ∨ d.duplicates ≠ []

instance (d : TableDiff) : Decidable d.ByRow :=
  inferInstanceAs (Decidable (_ ∨ _ ∨ _))

theorem not_clean_iff {d : TableDiff} : d.clean = false ↔ d.cells ≠ [] ∨ d.ByRow := by
  simp only [TableDiff.clean, TableDiff.ByRow, Bool.and_eq_false_iff, List.isEmpty_eq_false_iff]
  tauto

/-- Lists of rows with the same rows of every key are the same, up to order. -/
theorem perm_of_rowsOf {a b : List (String × List String)}
    (h : ∀ k, (rowsOf a k).Perm (rowsOf b k)) : a.Perm b := by
  -- a row counts as often as its values do among the rows of its key
  have hcount : ∀ (rows : List (String × List String)) (row : String × List String),
      rows.count row = (rowsOf rows row.1).count row.2 := by
    intro rows row
    induction rows with
    | nil => rfl
    | cons other rows ih =>
      rw [List.count_cons, ih]
      obtain ⟨k, values⟩ := row
      obtain ⟨k', values'⟩ := other
      by_cases hk : k' = k
      · subst hk
        simp [rowsOf, List.count_cons]
      · simp [rowsOf, hk]
  apply List.perm_iff_count.mpr
  intro row
  rw [hcount, hcount]
  exact (h row.1).count_eq row.2

section Compared

variable {p : PairResult} {legacy copy : List (String × List String)}

/-- Sides that are not the same are reported to differ. -/
theorem PairResult.ComparedExactly.differs (h : p.ComparedExactly legacy copy)
    (hdiffer : ¬ legacy.Perm copy) : p.diff.cells ≠ [] ∨ p.diff.ByRow := by
  obtain ⟨changed, hexact⟩ := h.exact
  obtain ⟨k, hk⟩ := not_forall.mp (mt perm_of_rowsOf hdiffer)
  obtain ⟨list, hlist, -⟩ := hexact.once h.legacyShaped h.copyShaped hk
  cases list with
  | missing => exact Or.inr (Or.inl (List.ne_nil_of_mem hlist))
  | extra => exact Or.inr (Or.inr (Or.inl (List.ne_nil_of_mem hlist)))
  | inFlight =>
    have hnone := h.settled
    exact absurd hnone (List.ne_nil_of_mem hlist)
  | duplicates =>
    obtain ⟨d, hd, -⟩ := hlist
    exact Or.inr (Or.inr (Or.inr (List.ne_nil_of_mem hd)))
  | cells =>
    obtain ⟨c, hc, -⟩ := hlist
    exact Or.inl (List.ne_nil_of_mem hc)

/-- The cells are in value columns of the pair. -/
theorem PairResult.ComparedExactly.cell_named (h : p.ComparedExactly legacy copy) {c : CellDiff}
    (hc : c ∈ p.diff.cells) : c.column ∈ p.spec.columns.map Column.name := by
  obtain ⟨changed, hexact⟩ := h.exact
  obtain ⟨a, b, -, -, hzip, -⟩ := (hexact.cells c).mp hc
  obtain ⟨column, hcolumn, hname⟩ := List.mem_map.mp (List.of_mem_zip hzip).1
  rw [← hname]
  exact List.mem_map_of_mem (List.mem_of_mem_filter hcolumn)

end Compared

/-- **A comparison of static relations is exact**, if different contents have different summaries
and equal contents equal ones. -/
theorem comparedExactly_of_static {R T : Type} {settings : NightSettings} {world : World R T}
    {night : Night} {spec : TableSpec} {p : PairResult} {rows : List R}
    {renderedSource : RenderedTable R} {renderedTarget : RenderedTable T}
    (hkey : ∀ k ∈ spec.key, k ∈ spec.columns.map Column.name)
    (hstatic : world.legacy spec.source = ⟨rows, []⟩)
    (hsource : render world.engine.toEngine spec (rulesFor spec settings.canonical) =
      .ok renderedSource)
    (htarget : render world.targetEngine spec (rulesFor spec settings.canonical) =
      .ok renderedTarget)
    (hcollide : NoCollision world.md5 (sourceHashes world.engine world.md5 spec renderedSource rows)
      (targetHashes world.md5 renderedTarget ⟨world.copy spec.target spec.final⟩)
      (sourceRows world.engine spec renderedSource rows)
      (targetRows renderedTarget ⟨world.copy spec.target spec.final⟩))
    (hagree : (sourceRows world.engine spec renderedSource rows).Perm
        (targetRows renderedTarget ⟨world.copy spec.target spec.final⟩) →
      ∀ depth b, ¬ Disagree (sourceHashes world.engine world.md5 spec renderedSource rows)
        (targetHashes world.md5 renderedTarget ⟨world.copy spec.target spec.final⟩) depth b)
    (h : compareWith settings world night (rulesFor spec settings.canonical) spec = .ok p)
    (hsettled : p.diff.inFlight = []) :
    p.ComparedExactly (sourceRows world.engine spec renderedSource rows)
      (targetRows renderedTarget ⟨world.copy spec.target spec.final⟩) := by
  obtain ⟨_, hrender, hshapeSource⟩ := render_ok world.engine.toEngine settings.canonical hkey
  obtain rfl := Except.ok.inj (hsource.symm.trans hrender)
  obtain ⟨_, hrender', hshapeTarget⟩ := render_ok world.targetEngine settings.canonical hkey
  obtain rfl := Except.ok.inj (htarget.symm.trans hrender')
  obtain ⟨diff, connector, hrun, houtcome⟩ := diffTable_outcome world.md5 world.ceilLog
    settings.leafWidth ⟨world.copy spec.target spec.final⟩ hsource htarget
    (world.legacy spec.source)
  -- nothing changes while it runs, so the outcome is about these rows
  rw [hstatic] at hrun houtcome
  simp only [compareWith, bind_eq_ok, pure_eq_ok, hstatic, hrun] at h
  obtain ⟨_, hdiff, found, -, rfl⟩ := h
  cases hdiff
  refine ⟨wellShaped_map hshapeSource _, wellShaped_map hshapeTarget _,
    ⟨_, exact_of_outcome houtcome hcollide⟩, hsettled, ?_⟩
  intro hsame
  exact clean_of_outcome houtcome (hagree hsame)

/-! ## Causes -/

section Causes

variable {tables : List PairResult} {drifted : List Drift} {cells : List RawColumn}
  {rows : List String}

/-- The cells that differ upstream are those of the compared tables. -/
theorem mem_differingCells (h : differingCells tables = .ok cells) {raw : RawColumn} :
    raw ∈ cells ↔ ∃ p ∈ tables, ∃ c ∈ p.diff.cells, ∃ column,
      columnNamed p.spec c.column = .ok column ∧ raw = (p.spec.name, column.target) := by
  obtain ⟨each, hmap, hflat⟩ := bind_eq_ok.mp h
  obtain rfl := pure_eq_ok.mp hflat
  rw [List.mem_flatten]
  constructor
  · rintro ⟨own, hown, hraw⟩
    obtain ⟨p, hp, hcells⟩ := exists_preimage_of_mem hmap hown
    obtain ⟨c, hc, hcolumn⟩ := exists_preimage_of_mem hcells hraw
    obtain ⟨column, hnamed, hpure⟩ := bind_eq_ok.mp hcolumn
    exact ⟨p, hp, c, hc, column, hnamed, (pure_eq_ok.mp hpure).symm⟩
  · rintro ⟨p, hp, c, hc, column, hnamed, rfl⟩
    obtain ⟨own, hown, hcells⟩ := exists_image_of_mem hmap hp
    obtain ⟨raw, hraw, hcolumn⟩ := exists_image_of_mem hcells hc
    obtain ⟨column', hnamed', hpure⟩ := bind_eq_ok.mp hcolumn
    obtain rfl := Except.ok.inj (hnamed.symm.trans hnamed')
    obtain rfl := pure_eq_ok.mp hpure
    exact ⟨own, hown, hraw⟩

theorem mem_differingRows {table : String} :
    table ∈ differingRows tables drifted ↔ (∃ p ∈ tables, p.diff.ByRow ∧ p.spec.name = table) ∨
      ∃ d ∈ drifted, d.spec.level = .table ∧ d.spec.name = table := by
  simp [differingRows, TableDiff.ByRow, and_assoc]

/-- A mart column has a cause tonight: it is traced to a raw column that differs, or to one of a
table that differs by row. -/
def HasCause (lineage : ColumnLineage) (cells : List RawColumn) (rows : List String)
    (column : String) : Prop :=
  ∃ depends, dictItem lineage column = .ok depends ∧ ∃ raw ∈ depends, raw ∈ cells ∨ raw.1 ∈ rows

theorem causesOf_ne_nil {depends : List RawColumn} :
    causesOf depends cells rows ≠ [] ↔ ∃ raw ∈ depends, raw ∈ cells ∨ raw.1 ∈ rows := by
  rw [causesOf, ne_eq, List.append_eq_nil_iff, not_and_or]
  simp only [List.map_eq_nil_iff, List.filter_eq_nil_iff, decide_eq_true_eq, not_forall, not_not,
    exists_prop, List.mem_map]
  constructor
  · rintro (⟨raw, hraw, hcell⟩ | ⟨_, ⟨raw, hraw, rfl⟩, hrow⟩)
    · exact ⟨raw, hraw, Or.inl hcell⟩
    · exact ⟨raw, hraw, Or.inr hrow⟩
  · rintro ⟨raw, hraw, hcell | hrow⟩
    · exact Or.inl ⟨raw, hraw, hcell⟩
    · exact Or.inr ⟨raw.1, ⟨raw, hraw, rfl⟩, hrow⟩

variable {report : TableSpec} {diff : TableDiff}

/-- The columns needed: of each cell, and of the key if rows differ. -/
theorem mem_neededColumns {needed : List String} (h : neededColumns report diff = .ok needed)
    {name : String} :
    name ∈ needed ↔
      (∃ c ∈ diff.cells, ∃ column, columnNamed report c.column = .ok column ∧ column.target = name) ∨
      (diff.ByRow ∧ ∃ k ∈ report.key, ∃ column,
        columnNamed report k = .ok column ∧ column.target = name) := by
  simp only [neededColumns, bind_eq_ok, pure_eq_ok] at h
  obtain ⟨ofCells, hcells, ofRows, hrows, rfl⟩ := h
  rw [mem_sortedSet, List.map_append, List.mem_append, List.mem_map, List.mem_map]
  -- the columns that differ, and for a difference by row the key
  apply or_congr
  · constructor
    · rintro ⟨column, hcolumn, hname⟩
      obtain ⟨c, hc, hnamed⟩ := exists_preimage_of_mem hcells hcolumn
      exact ⟨c, hc, column, hnamed, hname⟩
    · rintro ⟨c, hc, column, hnamed, hname⟩
      obtain ⟨column', hcolumn, hnamed'⟩ := exists_image_of_mem hcells hc
      obtain rfl := Except.ok.inj (hnamed.symm.trans hnamed')
      exact ⟨column, hcolumn, hname⟩
  · constructor
    · rintro ⟨column, hcolumn, hname⟩
      obtain ⟨k, hk, hnamed⟩ := exists_preimage_of_mem hrows hcolumn
      split at hk
      · rename_i hbyRow
        exact ⟨hbyRow, k, hk, column, hnamed, hname⟩
      · cases hk
    · rintro ⟨hbyRow, k, hk, column, hnamed, hname⟩
      unfold TableDiff.ByRow at hbyRow
      rw [if_pos hbyRow] at hrows
      obtain ⟨column', hcolumn, hnamed'⟩ := exists_image_of_mem hrows hk
      obtain rfl := Except.ok.inj (hnamed.symm.trans hnamed')
      exact ⟨column, hcolumn, hname⟩

/-- **A traced report that differs is explained** exactly if every column needed has a cause. -/
theorem explain_traced {lineage : ColumnLineage} {why : Explanation} (hclean : diff.clean = false)
    (h : explain report diff (some lineage) cells rows = .ok why) :
    why.explained = true ↔
      (∀ c ∈ diff.cells, ∀ column, columnNamed report c.column = .ok column →
        HasCause lineage cells rows column.target) ∧
      (diff.ByRow → ∀ k ∈ report.key, ∀ column, columnNamed report k = .ok column →
        HasCause lineage cells rows column.target) := by
  simp only [explain, hclean, Bool.false_eq_true, if_false, bind_eq_ok, pure_eq_ok] at h
  obtain ⟨needed, hneeded, found, hfound, rfl⟩ := h
  -- explained is that no column is left without a cause
  have hall : (found.all fun causes => causes ≠ []) = true ↔
      ∀ name ∈ needed, HasCause lineage cells rows name := by
    rw [List.all_eq_true]
    simp only [decide_eq_true_eq]
    constructor
    · intro hcauses name hname
      obtain ⟨causes, hmem, hof⟩ := exists_image_of_mem hfound hname
      obtain ⟨depends, hdepends, hcausesOf⟩ := bind_eq_ok.mp hof
      obtain rfl := pure_eq_ok.mp hcausesOf
      exact ⟨depends, hdepends, causesOf_ne_nil.mp (hcauses _ hmem)⟩
    · intro hcause causes hmem
      obtain ⟨name, hname, hof⟩ := exists_preimage_of_mem hfound hmem
      obtain ⟨depends, hdepends, hcausesOf⟩ := bind_eq_ok.mp hof
      obtain rfl := pure_eq_ok.mp hcausesOf
      obtain ⟨depends', hdepends', hsome⟩ := hcause name hname
      obtain rfl := Except.ok.inj (hdepends.symm.trans hdepends')
      exact causesOf_ne_nil.mpr hsome
  rw [hall]
  constructor
  · intro hcause
    constructor
    · intro c hc column hnamed
      exact hcause _ ((mem_neededColumns hneeded).mpr (Or.inl ⟨c, hc, column, hnamed, rfl⟩))
    · intro hbyRow k hk column hnamed
      exact hcause _ ((mem_neededColumns hneeded).mpr (Or.inr ⟨hbyRow, k, hk, column, hnamed, rfl⟩))
  · rintro ⟨hcells, hrows⟩ name hname
    rcases (mem_neededColumns hneeded).mp hname with
      ⟨c, hc, column, hnamed, rfl⟩ | ⟨hbyRow, k, hk, column, hnamed, rfl⟩
    · exact hcells c hc column hnamed
    · exact hrows hbyRow k hk column hnamed

/-- **An untraced report that differs is explained** exactly if a table it is built from does. -/
theorem explain_untraced {why : Explanation} (hclean : diff.clean = false)
    (h : explain report diff none cells rows = .ok why) :
    why.explained = true ↔
      ∃ table ∈ report.upstream, table ∈ rows ∨ ∃ raw ∈ cells, raw.1 = table := by
  simp only [explain, hclean, Bool.false_eq_true, if_false] at h
  obtain rfl := Except.ok.inj h
  rw [decide_eq_true_eq]
  constructor
  · intro hsome
    obtain ⟨table, htable⟩ := List.exists_mem_of_ne_nil _ hsome
    rw [mem_sortedSet, List.mem_filter, List.mem_append, List.mem_map, decide_eq_true_eq] at htable
    exact ⟨table, htable.2, htable.1⟩
  · rintro ⟨table, hupstream, hdiffers⟩
    apply List.ne_nil_of_mem (a := table)
    rw [mem_sortedSet, List.mem_filter, List.mem_append, List.mem_map, decide_eq_true_eq]
    exact ⟨hdiffers, hupstream⟩

end Causes

/-! ## A mart with the report's logic -/

/-- The rows of every table of one side. -/
abbrev Contents := String → List (String × List String)

/-- The legacy report and the mart compute the same, each from its own side's upstream tables. -/
def SameLogic (upstream : List String) (legacy copy : Contents)
    (left right : List (String × List String)) : Prop :=
  ∃ compute : Contents → List (String × List String),
    (∀ a b : Contents, (∀ t ∈ upstream, (a t).Perm (b t)) → (compute a).Perm (compute b)) ∧
      left.Perm (compute legacy) ∧ right.Perm (compute copy)

/-- The report and its mart agree on some output columns: on their values in every row both
hold, and on which keys there are, if all the key columns are among them. -/
structure AgreeOn (report : TableSpec) (left right : List (String × List String))
    (columns : Set String) : Prop where
  values : ∀ k a b, rowsOf left k = [a] → rowsOf right k = [b] →
    ∀ name x y, (name, x, y) ∈ (report.valueColumns.map Column.name).zip (a.zip b) →
      ∀ column, columnNamed report name = .ok column → column.target ∈ columns → x = y
  keys : (∀ k ∈ report.key, ∀ column, columnNamed report k = .ok column →
      column.target ∈ columns) →
    ∀ k, rowsOf left k = [] ↔ rowsOf right k = []

/-- A sound column lineage: output columns without a cause agree. -/
structure SoundLineage (report : TableSpec) (left right : List (String × List String))
    (cells : List RawColumn) (rows : List String) (lineage : ColumnLineage) : Prop where
  covers : ∀ column ∈ report.columns, column.target ∈ lineage.map Prod.fst
  agree : ∀ columns : Set String, (∀ name ∈ columns, ¬ HasCause lineage cells rows name) →
    AgreeOn report left right columns

/-- Every table of the night is compared exactly, and every table upstream compared or drifted. -/
structure StillNight (tables : List PairResult) (drifted : List Drift) (legacy copy : Contents)
    (upstream : List String) : Prop where
  exact : ∀ p ∈ tables, p.ComparedExactly (legacy p.spec.name) (copy p.spec.name)
  seen : ∀ t ∈ upstream, (∃ p ∈ tables, p.spec.name = t) ∨
    ∃ d ∈ drifted, d.spec.level = .table ∧ d.spec.name = t

/-- Every key column of a traced report has a cause, if rows differ. -/
def KeyCauses (report : PairResult) (lineage : Option ColumnLineage) (cells : List RawColumn)
    (rows : List String) : Prop :=
  ∀ l, lineage = some l → report.diff.ByRow →
    ∀ k ∈ report.spec.key, ∀ column, columnNamed report.spec k = .ok column →
      HasCause l cells rows column.target

section Explained

variable {tables : List PairResult} {drifted : List Drift} {legacy copy : Contents}
  {report : PairResult} {left right : List (String × List String)} {lineage : ColumnLineage}
  {cells : List RawColumn} {rows : List String}

/-- A cell that differs has a cause, if the lineage is sound. -/
theorem SoundLineage.cell_cause (hsound : SoundLineage report.spec left right cells rows lineage)
    (hreport : report.ComparedExactly left right) {c : CellDiff} (hc : c ∈ report.diff.cells)
    {column : Column} (hnamed : columnNamed report.spec c.column = .ok column) :
    HasCause lineage cells rows column.target := by
  by_contra hnone
  obtain ⟨changed, hexact⟩ := hreport.exact
  obtain ⟨a, b, ha, hb, hzip, hne⟩ := (hexact.cells c).mp hc
  have hagree := hsound.agree {column.target} fun name hname => by
    rw [Set.mem_singleton_iff.mp hname]
    exact hnone
  exact hne (hagree.values _ a b ha hb _ _ _ hzip column hnamed rfl)

/-- A row only one side has has a cause in some key column, if the lineage is sound. -/
theorem SoundLineage.key_cause (hsound : SoundLineage report.spec left right cells rows lineage)
    (hreport : report.ComparedExactly left right)
    (honesided : report.diff.missing ≠ [] ∨ report.diff.extra ≠ []) :
    ∃ k ∈ report.spec.key, ∃ column, columnNamed report.spec k = .ok column ∧
      HasCause lineage cells rows column.target := by
  by_contra hnone
  obtain ⟨changed, hexact⟩ := hreport.exact
  -- The key columns, all of them without a cause.
  have hagree := hsound.agree {name | ∃ k ∈ report.spec.key, ∃ column,
      columnNamed report.spec k = .ok column ∧ column.target = name} fun name hname hcause => by
    obtain ⟨k, hk, column, hnamed, rfl⟩ := hname
    exact hnone ⟨k, hk, column, hnamed, hcause⟩
  have hkeys := hagree.keys fun k hk column hnamed => ⟨k, hk, column, hnamed, rfl⟩
  rcases honesided with hmissing | hextra
  · obtain ⟨k, hk⟩ := List.exists_mem_of_ne_nil _ hmissing
    obtain ⟨hsource, htarget⟩ := (hexact.missing k).mp hk
    have hnil := (hkeys k).mpr htarget
    simp [hnil] at hsource
  · obtain ⟨k, hk⟩ := List.exists_mem_of_ne_nil _ hextra
    obtain ⟨hsource, htarget, -⟩ := (hexact.extra k).mp hk
    have hnil := (hkeys k).mp hsource
    simp [hnil] at htarget

/-- **One key column** has the cause of any row only one side has. -/
theorem keyCauses_of_single
    (hsound : SoundLineage report.spec left right cells rows lineage)
    (hreport : report.ComparedExactly left right) {k : String} (hkey : report.spec.key = [k])
    (honce : report.diff.duplicates = []) : KeyCauses report (some lineage) cells rows := by
  intro l hl hbyRow k' hk' column hnamed
  obtain rfl := Option.some.inj hl
  have honesided : report.diff.missing ≠ [] ∨ report.diff.extra ≠ [] := by
    rcases hbyRow with hmissing | hextra | hduplicates
    · exact Or.inl hmissing
    · exact Or.inr hextra
    · exact absurd honce hduplicates
  obtain ⟨k'', hk'', column', hnamed', hcause⟩ := hsound.key_cause hreport honesided
  rw [hkey, List.mem_singleton] at hk' hk''
  subst hk' hk''
  obtain rfl := Except.ok.inj (hnamed.symm.trans hnamed')
  exact hcause

/-- A report that differs has an upstream table that does. -/
theorem StillNight.exists_upstream {upstream : List String}
    (hstill : StillNight tables drifted legacy copy upstream)
    (hcells : differingCells tables = .ok cells)
    (hlogic : SameLogic upstream legacy copy left right) (hdiffer : ¬ left.Perm right) :
    ∃ table ∈ upstream, table ∈ differingRows tables drifted ∨ ∃ raw ∈ cells, raw.1 = table := by
  obtain ⟨compute, hcompute, hleft, hright⟩ := hlogic
  -- Same tables would make the same report.
  obtain ⟨t, ht⟩ := not_forall.mp fun hsame =>
    hdiffer (hleft.trans ((hcompute legacy copy hsame).trans hright.symm))
  obtain ⟨hupstream, htable⟩ := Classical.not_imp.mp ht
  refine ⟨t, hupstream, ?_⟩
  rcases hstill.seen t hupstream with ⟨p, hp, rfl⟩ | ⟨d, hd, hlevel, rfl⟩
  · rcases (hstill.exact p hp).differs htable with hcell | hbyRow
    · obtain ⟨c, hc⟩ := List.exists_mem_of_ne_nil _ hcell
      obtain ⟨column, -, hnamed⟩ := columnNamed_ok ((hstill.exact p hp).cell_named hc)
      exact Or.inr ⟨_, (mem_differingCells hcells).mpr ⟨p, hp, c, hc, column, hnamed, rfl⟩, rfl⟩
    · exact Or.inl (mem_differingRows.mpr (Or.inl ⟨p, hp, hbyRow, rfl⟩))
  · exact Or.inl (mem_differingRows.mpr (Or.inr ⟨d, hd, hlevel, rfl⟩))

/-- **A copy defect is never taken for a logic difference** exactly if, whenever rows of the
report differ, each of its key columns has a cause. -/
theorem explained_iff_keyCauses {tables : List PairResult} {drifted : List Drift}
    {legacy copy : Contents} {report : PairResult} {left right : List (String × List String)}
    {lineage : Option ColumnLineage}
    (hstill : StillNight tables drifted legacy copy report.spec.upstream)
    (hreport : report.ComparedExactly left right)
    (hkey : ∀ k ∈ report.spec.key, k ∈ report.spec.columns.map Column.name)
    (hlogic : SameLogic report.spec.upstream legacy copy left right)
    (hlineage : ∀ l cells, lineage = some l → differingCells tables = .ok cells →
      SoundLineage report.spec left right cells (differingRows tables drifted) l) :
    ∃ cells why, differingCells tables = .ok cells ∧
      explain report.spec report.diff lineage cells (differingRows tables drifted) = .ok why ∧
      (why.explained = true ↔ KeyCauses report lineage cells (differingRows tables drifted)) := by
  obtain ⟨cells, hcells⟩ :=
    differingCells_ok tables fun p hp c hc => (hstill.exact p hp).cell_named hc
  obtain ⟨why, hwhy⟩ := explain_ok lineage cells (differingRows tables drifted) hkey
    (fun c hc => hreport.cell_named hc) fun l hl => (hlineage l cells hl hcells).covers
  refine ⟨cells, why, hcells, hwhy, ?_⟩
  cases hclean : report.diff.clean with
  | true =>
    -- nothing differs: explained, and no key needs a cause
    have hnone : ¬ report.diff.ByRow := fun hbyRow =>
      absurd (not_clean_iff.mpr (Or.inr hbyRow)) (by rw [hclean]; decide)
    unfold explain at hwhy
    rw [if_pos hclean] at hwhy
    obtain rfl := Except.ok.inj hwhy
    exact iff_of_true rfl fun _ _ hbyRow => absurd hbyRow hnone
  | false =>
    cases lineage with
    | none =>
      -- without lineage it is enough that something upstream differs
      have hdiffer : ¬ left.Perm right := fun hsame =>
        absurd (hreport.clean hsame) (by rw [hclean]; decide)
      have hupstream := hstill.exists_upstream hcells hlogic hdiffer
      exact iff_of_true ((explain_untraced hclean hwhy).mpr hupstream) nofun
    | some l =>
      have hsound := hlineage l cells rfl hcells
      -- a sound lineage has a cause for every cell: only the keys are open
      rw [explain_traced hclean hwhy]
      constructor
      · rintro ⟨-, hrows⟩ l' hl
        obtain rfl := Option.some.inj hl
        exact hrows
      · intro hcauses
        exact ⟨fun c hc column hnamed => hsound.cell_cause hreport hc hnamed, hcauses l rfl⟩

end Explained

/-! ### Orders of a region in a month -/

/-- One order, of the EU in January on the legacy side, of the US in the copy. -/
private def orderIn (region : String) : Contents := fun table =>
  if table = "orders" then [("1", [region, "Jan"])] else []

private def regionOrders : PairResult where
  spec :=
    { name := "orders"
      level := .table
      key := ["id"]
      columns := [{ name := "id", kind := .int }, { name := "region", kind := .text },
        { name := "month", kind := .text }]
      source := "public.orders"
      target := "raw.orders" }
  diff := { table := "orders", cells := [⟨"1", "region", "EU", "US"⟩] }
  discrepancies := []
  verdict := (driftedResult ⟨Wanted.stub ⟨⟨"orders", "", "", ["id"], by decide, [], [], [], ""⟩, .table,
    "", "", []⟩, ""⟩).verdict

/-- The number of orders, by the columns of the key. -/
private def ordersBy (key : List String) (missing extra : String) : PairResult where
  spec :=
    { name := "orders_by"
      level := .report
      key := key
      columns := key.map (fun name => { name := name, kind := .text }) ++
        [{ name := "orders", kind := .int }]
      source := "reporting.orders_by"
      target := "marts.orders_by"
      upstream := ["orders"] }
  diff := { table := "orders_by", missing := [missing], extra := [extra] }
  discrepancies := []
  verdict := regionOrders.verdict

/-- How often each text is there. -/
private def countTexts (texts : List String) : List (String × List String) :=
  (sortedSet texts).map fun text => (text, [toString (texts.count text)])

/-- What the report and the mart compute: the orders of each choice of values. -/
private def countBy (pick : List String → List String) (contents : Contents) :
    List (String × List String) :=
  countTexts ((contents "orders").map fun row => separator.intercalate (pick row.2))

private def regionLineage : ColumnLineage :=
  [("region", [("orders", "region")]), ("month", [("orders", "month")]),
    ("orders", [("orders", "id"), ("orders", "region"), ("orders", "month")])]

private theorem countBy_perm (pick : List String → List String) {a b : Contents}
    (h : ∀ t ∈ ["orders"], (a t).Perm (b t)) : (countBy pick a).Perm (countBy pick b) := by
  have htexts := (h "orders" (List.mem_singleton.mpr rfl)).map fun row =>
    separator.intercalate (pick row.2)
  unfold countBy countTexts
  rw [sortedSet_congr fun text => htexts.mem_iff]
  apply List.Perm.of_eq
  refine List.map_congr_left fun text _ => ?_
  rw [htexts.count_eq]

/-- The order's region differs, and nothing else. -/
private theorem regionNight :
    StillNight [regionOrders] [] (orderIn "EU") (orderIn "US") ["orders"] where
  exact := by
    intro p hp
    obtain rfl := List.mem_singleton.mp hp
    exact
      { legacyShaped := by decide
        copyShaped := by decide
        exact := ⟨[], @exact_fullFindings ["region", "month"] [("1", ["EU", "Jan"])]
          [("1", ["US", "Jan"])] []⟩
        settled := rfl
        clean := by decide }
  seen := by
    intro t ht
    exact Or.inl ⟨regionOrders, List.mem_singleton.mpr rfl, (List.mem_singleton.mp ht).symm⟩

/-- The one row of the report has a key of its own on each side. -/
private theorem ordersBy_exact {key : List String} {a b : String} (hne : a ≠ b)
    (hvalues : (ordersBy key a b).spec.valueColumns.map Column.name = ["orders"])
    (hfull : (ordersBy key a b).diff.findings =
      fullFindings ["orders"] [] [(a, ["1"])] [(b, ["1"])]) :
    (ordersBy key a b).ComparedExactly [(a, ["1"])] [(b, ["1"])] where
  legacyShaped := by
    rw [hvalues]
    simp [WellShaped]
  copyShaped := by
    rw [hvalues]
    simp [WellShaped]
  exact := ⟨[], by
    rw [hvalues, hfull]
    exact exact_fullFindings⟩
  settled := rfl
  clean := by
    intro hsame
    simp [hne] at hsame

/-- The lineage is sound: what the region does not reach is the same. -/
private theorem regionLineage_sound {key : List String} {a b : String} (hne : a ≠ b)
    (hcovers : ∀ column ∈ (ordersBy key a b).spec.columns,
      column.target ∈ regionLineage.map Prod.fst)
    (hregion : "region" ∈ key)
    (hcolumn : ∃ column, columnNamed (ordersBy key a b).spec "region" = .ok column ∧
      column.target = "region") :
    SoundLineage (ordersBy key a b).spec [(a, ["1"])] [(b, ["1"])] [("orders", "region")] []
      regionLineage where
  covers := hcovers
  agree columns hnone :=
    { values := by
        intro k x y hx hy
        have ha : a = k := by
          by_contra hka
          simp [rowsOf, hka] at hx
        have hb : b = k := by
          by_contra hkb
          simp [rowsOf, hkb] at hy
        exact absurd (ha.trans hb.symm) hne
      keys := by
        intro hkeys
        obtain ⟨column, hnamed, htarget⟩ := hcolumn
        have hmem := hkeys "region" hregion column hnamed
        rw [htarget] at hmem
        exact absurd ⟨_, rfl, ("orders", "region"), by decide, Or.inl (by decide)⟩
          (hnone _ hmem) }

/-- The region of an order is wrong in the copy. The report counts the orders of a region in a
month: the EU's row is missing and the US's extra, and no month differs. -/
theorem region_unexplained :
    let report := ordersBy ["region", "month"] "EU|Jan" "US|Jan"
    let left := [("EU|Jan", ["1"])]
    let right := [("US|Jan", ["1"])]
    StillNight [regionOrders] [] (orderIn "EU") (orderIn "US") report.spec.upstream ∧
      report.ComparedExactly left right ∧
      (∀ k ∈ report.spec.key, k ∈ report.spec.columns.map Column.name) ∧
      SameLogic report.spec.upstream (orderIn "EU") (orderIn "US") left right ∧
      differingCells [regionOrders] = .ok [("orders", "region")] ∧
      differingRows [regionOrders] [] = [] ∧
      SoundLineage report.spec left right [("orders", "region")] [] regionLineage ∧
      explain report.spec report.diff (some regionLineage) [("orders", "region")] [] =
        .ok ⟨false, ["orders.region"], true⟩ := by
  refine ⟨regionNight, ordersBy_exact (by decide) rfl rfl, by decide, ?_, rfl, rfl, ?_, rfl⟩
  · exact ⟨countBy id, fun a b h => countBy_perm id h, by decide +kernel, by decide +kernel⟩
  · exact regionLineage_sound (by decide) (by decide) (by decide) ⟨_, rfl, rfl⟩

/-- Counted by region alone, the same two rows are explained. -/
theorem explained_iff_keyCauses_region :
    ∃ cells why, differingCells [regionOrders] = .ok cells ∧
      explain (ordersBy ["region"] "EU" "US").spec (ordersBy ["region"] "EU" "US").diff
        (some regionLineage) cells (differingRows [regionOrders] []) = .ok why ∧
      why.explained = true := by
  have hreport : (ordersBy ["region"] "EU" "US").ComparedExactly [("EU", ["1"])] [("US", ["1"])] :=
    ordersBy_exact (by decide) rfl rfl
  have hsound : SoundLineage (ordersBy ["region"] "EU" "US").spec [("EU", ["1"])] [("US", ["1"])]
      [("orders", "region")] [] regionLineage :=
    regionLineage_sound (by decide) (by decide) (by decide) ⟨_, rfl, rfl⟩
  obtain ⟨cells, why, hcells, hwhy, hiff⟩ := @explained_iff_keyCauses _ _ _ _
    (ordersBy ["region"] "EU" "US") _ _ (some regionLineage) regionNight hreport (by decide)
    ⟨countBy (List.take 1), fun a b h => countBy_perm (List.take 1) h, by decide +kernel,
      by decide +kernel⟩
    fun l cells hl hcells => by
      obtain rfl := Option.some.inj hl
      obtain rfl := Except.ok.inj hcells
      exact hsound
  obtain rfl := Except.ok.inj hcells
  exact ⟨_, why, rfl, hwhy, hiff.mpr (keyCauses_of_single hsound hreport rfl rfl)⟩

end PlatformOps.Reconcile
