import PlatformOps.Reconcile.Diff

/-!
# Discrepancies, the Verdict, and the Grade

The verdict uses only what the diff found, judged against the thresholds. Ground
truth is used only to grade the diff. A failure is the reason the code writes
down, with the figures it names; rates are exact fractions.
-/

namespace PlatformOps.Reconcile

open Listing

/-! ## Discrepancies -/

inductive DiscrepancyClass
  | missingInTarget | extraInTarget | duplicateKey | rounding | timezoneShift | whitespace
  | caseOnly | valueMismatch
deriving DecidableEq, Repr

/-- `DISCREPANCY_CLASSES`. -/
def discrepancyClasses : List DiscrepancyClass :=
  [.missingInTarget, .extraInTarget, .duplicateKey, .rounding, .timezoneShift, .whitespace,
    .caseOnly, .valueMismatch]

structure Discrepancy where
  table : String
  key : String
  /-- Empty for a whole missing or extra row. -/
  column : String
  klass : DiscrepancyClass
  sourceValue : String
  targetValue : String
deriving DecidableEq, Repr

/-- `classify`, with the tolerance and the time zones it is given: why two values differ, or what
it raises. -/
abbrev Classify := Column → String → String → Except String DiscrepancyClass

/-- `TableSpec.column`; the error is the name no column has. -/
def columnNamed (spec : TableSpec) (name : String) : Except String Column :=
  match spec.column name with
  | some column => .ok column
  | none => .error name

/-- `_rows`. -/
def rowsText (n : ℕ) : String :=
  PlatformOps.counted n "row"

/-- A cell that differs, classified. -/
def discrepancyOf (spec : TableSpec) (classify : Classify) (c : CellDiff) :
    Except String Discrepancy := do
  let column ← columnNamed spec c.column
  let klass ← classify column c.source c.target
  return ⟨spec.name, c.key, c.column, klass, c.source, c.target⟩

/-- `discrepancies_of`. -/
def discrepanciesOf (spec : TableSpec) (diff : TableDiff) (classify : Classify) :
    Except String (List Discrepancy) := do
  let cells ← diff.cells.mapM (discrepancyOf spec classify)
  let missing := diff.missing.map fun k => ⟨spec.name, k, "", .missingInTarget, "", ""⟩
  let extra := diff.extra.map fun k => ⟨spec.name, k, "", .extraInTarget, "", ""⟩
  let duplicates := diff.duplicates.map fun d =>
    ⟨spec.name, d.key, "", .duplicateKey, rowsText d.source, rowsText d.target⟩
  return sortBy (fun d : Discrepancy => toLex (d.key, d.column))
    (missing ++ extra ++ duplicates ++ cells)

theorem columnNamed_ok {spec : TableSpec} {name : String}
    (h : name ∈ spec.columns.map Column.name) :
    ∃ c ∈ spec.columns, columnNamed spec name = .ok c := by
  obtain ⟨c, hc, rfl⟩ := List.mem_map.mp h
  have hsome : (spec.column c.name).isSome := List.find?_isSome.mpr ⟨c, hc, decide_eq_true rfl⟩
  obtain ⟨c', hc'⟩ := Option.isSome_iff_exists.mp hsome
  exact ⟨c', List.mem_of_find?_eq_some hc', by rw [columnNamed, hc']⟩

theorem name_mem_of_columnNamed {spec : TableSpec} {name : String} {column : Column}
    (h : columnNamed spec name = .ok column) : name ∈ spec.columns.map Column.name := by
  rw [columnNamed] at h
  split at h
  · rename_i found hfind
    have hname := List.find?_some hfind
    exact List.mem_map.mpr ⟨found, List.mem_of_find?_eq_some hfind, of_decide_eq_true hname⟩
  · cases h

theorem discrepancyOf_eq_ok {spec : TableSpec} {classify : Classify} {c : CellDiff}
    {d : Discrepancy} : discrepancyOf spec classify c = .ok d ↔
      ∃ column klass, columnNamed spec c.column = .ok column ∧
        classify column c.source c.target = .ok klass ∧
        ⟨spec.name, c.key, c.column, klass, c.source, c.target⟩ = d := by
  simp only [discrepancyOf, Fallible.bind_eq_ok, Fallible.pure_eq_ok]
  constructor
  · rintro ⟨column, hcolumn, klass, hklass, hd⟩
    exact ⟨column, klass, hcolumn, hklass, hd⟩
  · rintro ⟨column, klass, hcolumn, hklass, hd⟩
    exact ⟨column, hcolumn, klass, hklass, hd⟩

/-- A cell of one of the pair's columns, whose difference has a class. -/
def Classed (spec : TableSpec) (classify : Classify) (c : CellDiff) : Prop :=
  ∃ column klass, columnNamed spec c.column = .ok column ∧
    classify column c.source c.target = .ok klass

/-- The discrepancies are listed exactly if every cell that differs has a class. -/
theorem exists_discrepanciesOf_iff {spec : TableSpec} {diff : TableDiff} {classify : Classify} :
    (∃ found, discrepanciesOf spec diff classify = .ok found) ↔
      ∀ c ∈ diff.cells, Classed spec classify c := by
  simp only [discrepanciesOf, Fallible.bind_eq_ok, Fallible.pure_eq_ok]
  constructor
  · rintro ⟨_, cells, hcells, -⟩ c hc
    obtain ⟨_, -, hone⟩ := Fallible.exists_image_of_mem hcells hc
    obtain ⟨column, klass, hcolumn, hklass, -⟩ := discrepancyOf_eq_ok.mp hone
    exact ⟨column, klass, hcolumn, hklass⟩
  · intro h
    obtain ⟨cells, hcells⟩ := Fallible.exists_mapM_eq_ok fun c hc => by
      obtain ⟨column, klass, hcolumn, hklass⟩ := h c hc
      exact ⟨_, discrepancyOf_eq_ok.mpr ⟨column, klass, hcolumn, hklass, rfl⟩⟩
    exact ⟨_, cells, hcells, rfl⟩

/-! ## The verdict -/

structure Thresholds where
  minRowMatchRate : ℚ
  minColumnMatchRate : ℚ
  /-- Every class has one, as the settings demand. -/
  maxDiscrepancies : DiscrepancyClass → ℕ
  maxWatermarkLagHours : ℚ
deriving Inhabited

/-- Why a pair fails its night. -/
inductive Failure
  | rowCounts (sourceRows targetRows : ℕ)
  | watermarkLag (asOf : Timestamp) (lagHours limit : ℚ)
  | rowMatchRate (rate limit : ℚ)
  | columnMatchRate (column : String) (rate limit : ℚ)
  | discrepancies (klass : DiscrepancyClass) (count limit : ℕ)
  | schema (reason : String)
deriving DecidableEq, Repr

structure TableVerdict where
  table : String
  sourceRows : ℕ
  targetRows : ℕ
  rowMatchRate : ℚ
  columnMatchRates : List (String × ℚ)
  byClass : DiscrepancyClass → ℕ
  failures : List Failure := []

/-- `TableVerdict.passed`. -/
def TableVerdict.passed (v : TableVerdict) : Bool :=
  v.failures.isEmpty

/-- How far the copy's row count exceeds the legacy side's by the rows found. -/
def accounted (diff : TableDiff) : ℤ :=
  diff.extra.length + diff.inFlight.length - diff.missing.length +
    (diff.duplicates.map fun d => (d.target : ℤ) - d.source).sum

/-- `verdict`: judge one pair, compared at `time`. -/
def verdict (spec : TableSpec) (diff : TableDiff) (discrepancies : List Discrepancy)
    (thresholds : Thresholds) (time : Option Timestamp) : TableVerdict :=
  let mine := discrepancies.filter fun d => d.table = spec.name
  let byClass klass := mine.countP fun d => d.klass = klass
  let duplicated := (diff.duplicates.map DuplicateKey.source).sum
  -- rows of a duplicated key are not compared cell by cell, so none of them matches
  let inBoth : ℤ := diff.sourceRows - diff.missing.length - duplicated
  -- a finding about a whole row names no column
  let inCells := mine.filter fun d => d.column ≠ ""
  let matched : ℤ := inBoth - (inCells.map Discrepancy.key).dedup.length
  let rowRate : ℚ := if diff.sourceRows ≠ 0 then matched / diff.sourceRows else 1
  let columnRates : List (String × ℚ) := spec.valueColumns.map fun c =>
    (c.name, if inBoth ≠ 0 then 1 - inCells.countP (fun d => d.column = c.name) / inBoth else 1)
  let rowCounts :=
    -- the difference in rows is what the findings account for
    if (diff.targetRows : ℤ) - diff.sourceRows ≠ accounted diff then
      [Failure.rowCounts diff.sourceRows diff.targetRows]
    else []
  let watermark :=
    match time, spec.watermark with
    -- the lag is checked only for a pair with a watermark
    | some time, some mark =>
      let lag : ℚ := ((time - mark : ℤ) : ℚ) / (Duration.hours 1 : ℤ)
      if thresholds.maxWatermarkLagHours < lag then
        [Failure.watermarkLag mark lag thresholds.maxWatermarkLagHours]
      else []
    | _, _ => []
  let rows :=
    if rowRate < thresholds.minRowMatchRate then
      [Failure.rowMatchRate rowRate thresholds.minRowMatchRate]
    else []
  let columns := columnRates.filterMap fun rate =>
    if rate.2 < thresholds.minColumnMatchRate then
      some (Failure.columnMatchRate rate.1 rate.2 thresholds.minColumnMatchRate)
    else none
  let classes := discrepancyClasses.filterMap fun klass =>
    let limit := thresholds.maxDiscrepancies klass
    if limit < byClass klass then some (Failure.discrepancies klass (byClass klass) limit) else none
  { table := spec.name
    sourceRows := diff.sourceRows
    targetRows := diff.targetRows
    rowMatchRate := rowRate
    columnMatchRates := columnRates
    byClass := byClass
    failures := rowCounts ++ watermark ++ rows ++ columns ++ classes }

/-- The verdict adds a row-count failure. -/
def TableVerdict.RowCountsDiffer (v : TableVerdict) : Prop :=
  ∃ source target, .rowCounts source target ∈ v.failures

/-- The row-count failure is about the counts and what the diff found, whatever the thresholds. -/
theorem rowCountsDiffer_verdict {spec : TableSpec} {diff : TableDiff}
    {discrepancies : List Discrepancy} {thresholds : Thresholds} {time : Option Timestamp} :
    (verdict spec diff discrepancies thresholds time).RowCountsDiffer ↔
      (diff.targetRows : ℤ) - diff.sourceRows ≠ accounted diff := by
  simp only [TableVerdict.RowCountsDiffer, verdict, List.mem_append, List.mem_filterMap,
    Option.ite_none_right_eq_some, Option.some.injEq, reduceCtorEq, and_false, exists_false,
    or_false]
  constructor
  · rintro ⟨source, target, (h | h) | h⟩
    · by_contra heq
      rw [if_neg (not_not_intro heq)] at h
      cases h
    · split at h
      · split at h <;> simp at h
      · cases h
    · split at h <;> simp at h
  · intro h
    exact ⟨diff.sourceRows, diff.targetRows, Or.inl (Or.inl (by rw [if_pos h]; simp))⟩

/-! ## The grade -/

/-- What was planted: a cell, or with no column a whole row, that should differ. -/
structure TruthCell where
  table : String
  key : String
  column : String
  klass : DiscrepancyClass
  cause : String
  label : String
deriving DecidableEq, Repr

structure Grade where
  expected : ℕ
  detected : ℕ
  truePositives : ℕ
  correctlyClassified : ℕ
  equivalentUnderPolicy : ℕ
  /-- Per label, how many were planted and how many found. -/
  byLabel : List (String × ℕ × ℕ)
deriving DecidableEq, Repr

/-- `neutralized_by_policy`: the canonical policy says this planted difference is not one. -/
def neutralizedByPolicy (cell : TruthCell) (rules : List (String × Rule)) : Bool :=
  match dictGet rules cell.column with
  | none => false
  | some rule =>
    (cell.klass = .caseOnly && rule.casefold) || (cell.klass = .whitespace && rule.rtrim)

/-- A dictionary's value, or the key it does not have. -/
def dictItem {A : Type} (entries : List (String × A)) (key : String) : Except String A :=
  match dictGet entries key with
  | some value => .ok value
  | none => .error key

/-- Does the policy call each planted cell equal? The error is a table without a spec, or
without rules. -/
def neutralized (truth : List TruthCell) (specs : List (String × TableSpec))
    (rules : List (String × List (String × Rule))) : Except String (List (TruthCell × Bool)) :=
  truth.mapM fun cell => do
    let _ ← dictItem specs cell.table
    let own ← dictItem rules cell.table
    return (cell, neutralizedByPolicy cell own)

/-- Where a planted cell is. -/
def TruthCell.cell (c : TruthCell) : String × String × String := (c.table, c.key, c.column)

/-- `Discrepancy.cell`. -/
def Discrepancy.cell (d : Discrepancy) : String × String × String := (d.table, d.key, d.column)

/-- The last element at each place: what a dictionary built in order holds, in the order of the
places' first elements. -/
def lastAt {A : Type} (place : A → String × String × String) (items : List A) : List A :=
  (groupBy place items).filterMap fun group => group.2.getLast?

/-- `grade`. -/
def grade (truth : List TruthCell) (discrepancies : List Discrepancy)
    (specs : List (String × TableSpec)) (rules : List (String × List (String × Rule))) :
    Except String Grade := do
  let planted ← neutralized truth specs rules
  -- planted, but equal under the rules of the night
  let equivalent := planted.filter fun cell => cell.2
  let expected := lastAt TruthCell.cell ((planted.filter fun cell => !cell.2).map Prod.fst)
  let found := lastAt Discrepancy.cell discrepancies
  let hits := expected.filter fun cell => cell.cell ∈ found.map Discrepancy.cell
  let correct := hits.filter fun cell => found.any fun d => d.cell = cell.cell && d.klass = cell.klass
  let byLabel := (groupBy TruthCell.label expected).map fun group =>
    (group.1, group.2.length, group.2.countP fun cell => cell.cell ∈ found.map Discrepancy.cell)
  return {
    expected := expected.length
    detected := found.length
    truePositives := hits.length
    correctlyClassified := correct.length
    equivalentUnderPolicy := equivalent.length
    byLabel := sortBy Prod.fst byLabel }

end PlatformOps.Reconcile
