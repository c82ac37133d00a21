import PlatformOps.Simulation.DefectsFound

/-!
# The Truth of the Delivered Job

Every night of the delivered job comes with its truth, computed from the legacy rows
without a look at the copy: the values each faulty expression moves, and the rows
lost. It is exactly what the night finds of each table, but for what the canonical
policy calls equal.

- `deliveredTruth`: the source's `delivered_truth`; the error is what it raises.
- `TextsAgree`: what the truth relies on, that the two engines' texts differ where
  its own computation says so.
- `truth_is_found`: the main result.
-/

namespace PlatformOps.Simulation

open Machine Reconcile Fallible Decimals

variable {V : Type}

/-! ## The truth -/

/-- What Postgres' driver returns of a value, by the type of its column; `none` is `NULL`. A
`numeric(p, s)` has no infinities. -/
structure Driver (V : Type) where
  timestamp : V → Option Timestamp
  numeric : V → Option Reading
  text : V → Option (List Char)

/-- `_shifted`: whether reading a UTC wall clock as local time in a zone moves it. -/
def shifted (zones : ZoneInfo) (value : Timestamp) (zone : String) : Except String Bool :=
  match zones zone false value with
  | some utc => .ok (utc ≠ value)
  | none => .error "OverflowError"

/-- `_through_float`: what `toDecimal64(toFloat64(x), 2)` leaves of `x`. -/
def throughFloat : Reading → Except String ℚ
  | .finite x => do
    let scaled ← scaledFloat 2 x
    quantize 28 2 halfEven (inContext 28 ((down scaled : ℚ) / 10 ^ 2))
  -- `math.trunc` of a float that is no number
  | .nan => .error "ValueError"

example : throughFloat (.finite (435 / 100)) = .ok (434 / 100) := by
  decide +kernel

/-- One defect of the job: the column it reads wrong, and which of its values it moves. -/
structure Defect (V : Type) where
  table : Table
  column : String
  klass : DiscrepancyClass
  label : String
  /-- Nothing for a `NULL`; the error is what the computation raises. -/
  moved : V → Option (Except String Bool)

/-- A cell of the truth. -/
def Defect.cell (d : Defect V) (key : ℤ) : TruthCell :=
  ⟨d.table.text, toString key, d.column, d.klass, "job_defect", d.label⟩

/-- A defect moves the value of a row. -/
def Defect.Moves (d : Defect V) (r : Row V) : Prop :=
  ∃ v, r.cells.lookup d.column = some v ∧ d.moved v = some (.ok true)

section Truth

variable (driver : Driver V) (zones : ZoneInfo) (job : Job V)

def timezoneDefect : Defect V where
  table := job.deliveredJob.timezoneTable
  column := job.deliveredJob.timezoneColumn
  klass := .timezoneShift
  label := "D1 local time read as UTC"
  moved v := (driver.timestamp v).map fun value => shifted zones value job.deliveredJob.timezone

def floatDefect : Defect V where
  table := job.deliveredJob.floatTable
  column := job.deliveredJob.floatColumn
  klass := .rounding
  label := "D2 decimal through a float"
  moved v := (driver.numeric v).map fun value => do
    let through ← throughFloat value
    return Reading.finite through ≠ value

def trimDefect : Defect V where
  table := job.deliveredJob.trimTable
  column := job.deliveredJob.trimColumn
  klass := .whitespace
  label := "D3 trailing spaces trimmed"
  moved v := (driver.text v).map fun value => .ok (value ≠ rstrip ' ' value)

/-- The three columns the delivered job reads wrong. -/
def defects : List (Defect V) :=
  [timezoneDefect driver zones job, floatDefect driver job, trimDefect driver job]

variable {driver zones job} in
theorem forall_mem_defects {p : Defect V → Prop} : (∀ d ∈ defects driver zones job, p d) ↔
    p (timezoneDefect driver zones job) ∧ p (floatDefect driver job) ∧
      p (trimDefect driver job) := by
  simp [defects]

/-- `rows`: a column's values that are not `NULL`, of the rows changed up to `as_of`, by key. -/
def truthRows {A : Type} (fetch : V → Option A) (asOf : Timestamp) (column : String)
    (rows : List (Row V)) : List (ℤ × A) :=
  ((rows.filter fun r => r.updatedAt ≤ asOf).insertionSort fun a b => a.key ≤ b.key).filterMap
    fun r => ((r.cells.lookup column).bind fetch).map fun a => (r.key, a)

/-- The cells of one defect. -/
def Defect.truth (d : Defect V) (asOf : Timestamp) (rows : List (Row V)) :
    Except String (List TruthCell) := do
  let cells ← (truthRows d.moved asOf d.column rows).mapM fun row => do
    return if ← row.2 then [d.cell row.1] else []
  return cells.flatten

/-- A row the job loses, in the truth. -/
def lostCell (key : ℤ) : TruthCell :=
  ⟨job.deliveredJob.batchTable.text, toString key, "", .missingInTarget, "job_defect",
    "D4 last key of every page lost"⟩

/-- The keys of the rows lost. -/
def lostRows (asOf : Timestamp) (rows : List (Row V)) : List (Row V) :=
  (rows.filter fun r => r.key % (job.deliveredJob.batchRows : ℤ) = 0 && r.updatedAt ≤ asOf)
    |>.insertionSort fun a b => a.key ≤ b.key

/-- `delivered_truth`: every discrepancy the delivered job puts in raw, from the legacy rows. -/
def deliveredTruth (asOf : Timestamp) (legacy : Table → List (Row V)) :
    Except String (List TruthCell) := do
  let moved ← (defects driver zones job).mapM fun d => d.truth asOf (legacy d.table)
  let lost := lostRows job asOf (legacy job.deliveredJob.batchTable)
  return moved.flatten ++ lost.map fun r => lostCell job r.key

end Truth

section Members

variable {driver : Driver V} {zones : ZoneInfo} {job : Job V} {asOf : Timestamp}

theorem mem_truthRows {A : Type} {fetch : V → Option A} {column : String} {rows : List (Row V)}
    {key : ℤ} {a : A} : (key, a) ∈ truthRows fetch asOf column rows ↔ ∃ r ∈ rows, r.key = key ∧
      r.updatedAt ≤ asOf ∧ ∃ v, r.cells.lookup column = some v ∧ fetch v = some a := by
  simp only [truthRows, List.mem_filterMap, List.mem_insertionSort, List.mem_filter,
    decide_eq_true_eq, Option.map_eq_some_iff, Option.bind_eq_some_iff, Prod.mk.injEq]
  constructor
  · rintro ⟨r, ⟨hr, hle⟩, a', hfetch, rfl, rfl⟩
    exact ⟨r, hr, rfl, hle, hfetch⟩
  · rintro ⟨r, hr, rfl, hle, hfetch⟩
    exact ⟨r, ⟨hr, hle⟩, a, hfetch, rfl, rfl⟩

theorem mem_lostRows {rows : List (Row V)} {r : Row V} : r ∈ lostRows job asOf rows ↔
    r ∈ rows ∧ r.key % (job.deliveredJob.batchRows : ℤ) = 0 ∧ r.updatedAt ≤ asOf := by
  simp [lostRows, List.mem_insertionSort]

section Defects

variable {d : Defect V} {rows : List (Row V)} {cells : List TruthCell}

/-- Where the cells are returned, no value of a row read raises. -/
theorem Defect.computed_of_truth (h : d.truth asOf rows = .ok cells) {r : Row V} (hr : r ∈ rows)
    (hle : r.updatedAt ≤ asOf) {v : V} (hv : r.cells.lookup d.column = some v)
    {computed : Except String Bool} (hmoved : d.moved v = some computed) :
    ∃ moves, computed = .ok moves := by
  obtain ⟨found, hfound, -⟩ := bind_eq_ok.mp h
  obtain ⟨_, -, hone⟩ :=
    exists_image_of_mem hfound (mem_truthRows.mpr ⟨r, hr, rfl, hle, v, hv, hmoved⟩)
  obtain ⟨moves, hmoves, -⟩ := bind_eq_ok.mp hone
  exact ⟨moves, hmoves⟩

theorem Defect.mem_truth (h : d.truth asOf rows = .ok cells) {cell : TruthCell} :
    cell ∈ cells ↔ ∃ r ∈ rows, r.updatedAt ≤ asOf ∧ d.Moves r ∧ d.cell r.key = cell := by
  obtain ⟨found, hfound, hcells⟩ := bind_eq_ok.mp h
  obtain rfl := pure_eq_ok.mp hcells
  rw [List.mem_flatten]
  constructor
  · rintro ⟨own, hown, hcell⟩
    obtain ⟨⟨key, computed⟩, hrow, hone⟩ := exists_preimage_of_mem hfound hown
    obtain ⟨r, hr, rfl, hle, v, hv, hmoved⟩ := mem_truthRows.mp hrow
    obtain ⟨moves, rfl, hone⟩ := bind_eq_ok.mp hone
    obtain rfl := pure_eq_ok.mp hone
    -- only a value that is moved leaves a cell
    cases moves with
    | false => cases hcell
    | true => exact ⟨r, hr, hle, ⟨v, hv, hmoved⟩, (List.mem_singleton.mp hcell).symm⟩
  · rintro ⟨r, hr, hle, ⟨v, hv, hmoved⟩, rfl⟩
    obtain ⟨own, hown, hone⟩ :=
      exists_image_of_mem hfound (mem_truthRows.mpr ⟨r, hr, rfl, hle, v, hv, hmoved⟩)
    obtain rfl := pure_eq_ok.mp hone
    exact ⟨_, hown, List.mem_singleton_self _⟩

end Defects

section All

variable {legacy : Table → List (Row V)} {truth : List TruthCell}

theorem mem_deliveredTruth (h : deliveredTruth driver zones job asOf legacy = .ok truth)
    {cell : TruthCell} : cell ∈ truth ↔
      (∃ d ∈ defects driver zones job, ∃ r ∈ legacy d.table, r.updatedAt ≤ asOf ∧ d.Moves r ∧
        d.cell r.key = cell) ∨
      ∃ r ∈ legacy job.deliveredJob.batchTable, r.key % (job.deliveredJob.batchRows : ℤ) = 0 ∧
        r.updatedAt ≤ asOf ∧ lostCell job r.key = cell := by
  obtain ⟨moved, hmoved, htruth⟩ := bind_eq_ok.mp h
  obtain rfl := pure_eq_ok.mp htruth
  rw [List.mem_append, List.mem_flatten]
  apply or_congr
  · constructor
    · rintro ⟨cells, hcells, hcell⟩
      obtain ⟨d, hd, hone⟩ := exists_preimage_of_mem hmoved hcells
      exact ⟨d, hd, (Defect.mem_truth hone).mp hcell⟩
    · rintro ⟨d, hd, hcell⟩
      obtain ⟨cells, hcells, hone⟩ := exists_image_of_mem hmoved hd
      exact ⟨cells, hcells, (Defect.mem_truth hone).mpr hcell⟩
  · simp only [List.mem_map, mem_lostRows, and_assoc]

/-- Where the truth is returned, no value of a row copied raises. -/
theorem computed_of_deliveredTruth (h : deliveredTruth driver zones job asOf legacy = .ok truth)
    {d : Defect V} (hd : d ∈ defects driver zones job) {r : Row V} (hr : r ∈ legacy d.table)
    (hle : r.updatedAt ≤ asOf) {v : V} (hv : r.cells.lookup d.column = some v)
    {computed : Except String Bool} (hmoved : d.moved v = some computed) :
    ∃ moves, computed = .ok moves := by
  obtain ⟨moved, hall, -⟩ := bind_eq_ok.mp h
  obtain ⟨cells, -, hone⟩ := exists_image_of_mem hall hd
  exact d.computed_of_truth hone hr hle hv hmoved

end All

end Members

/-! ## What the truth relies on -/

/-- Each side writes a column from its value, and the two texts differ, for a value as the job
reads it, where the truth says so and the policy does not call them equal. -/
structure TextsAgree (driver : Driver V) (zones : ZoneInfo) (job : Job V) (t : Table)
    (c : Comparison (Row V) (Row V)) (sourceText targetText : String → Option V → String) :
    Prop where
  source : ∀ r, (canonicalRow c.source r).2 =
    (c.table.valueColumns.map Column.name).map fun name => sourceText name (r.cells.lookup name)
  target : ∀ r, (canonicalRow c.target r).2 =
    (c.table.valueColumns.map Column.name).map fun name => targetText name (r.cells.lookup name)
  absent : ∀ name, sourceText name none = targetText name none
  alike : ∀ name, (∀ d ∈ defects driver zones job, d.table = t → d.column ≠ name) → ∀ v,
    sourceText name v = targetText name v
  compared : ∀ d ∈ defects driver zones job, d.table = t →
    d.column ∈ c.table.valueColumns.map Column.name
  null : ∀ d ∈ defects driver zones job, d.table = t → ∀ v, d.moved v = none →
    sourceText d.column (some v) = targetText d.column (some (job.expression t d.column v))
  moved : ∀ d ∈ defects driver zones job, d.table = t → ∀ v moves, d.moved v = some (.ok moves) →
    ∀ key, (sourceText d.column (some v) ≠
        targetText d.column (some (job.expression t d.column v)) ↔
      moves = true ∧ neutralizedByPolicy (d.cell key) c.rules = false)

section Texts

variable {driver : Driver V} {zones : ZoneInfo} {job : Job V} {t : Table}
  {c : Comparison (Row V) (Row V)} {sourceText targetText : String → Option V → String}

/-- A column without a defect is read as it is. -/
theorem expression_eq_self {name : String}
    (h : ∀ d ∈ defects driver zones job, d.table = t → d.column ≠ name) (v : V) :
    job.expression t name v = v := by
  obtain ⟨htimezone, hfloat, htrim⟩ := forall_mem_defects.mp h
  simp only [timezoneDefect, floatDefect, trimDefect] at htimezone hfloat htrim
  rw [Job.expression]
  split
  · rw [if_neg, if_neg, if_neg]
    · exact fun heq => htrim (Prod.mk.inj heq).1.symm (Prod.mk.inj heq).2.symm
    · exact fun heq => hfloat (Prod.mk.inj heq).1.symm (Prod.mk.inj heq).2.symm
    · exact fun heq => htimezone (Prod.mk.inj heq).1.symm (Prod.mk.inj heq).2.symm
  · rfl

theorem lookup_read {name : String} {r : Row V} :
    (job.read t [] r).cells.lookup name = (r.cells.lookup name).map (job.expression t name) := by
  simp only [Job.read, List.not_mem_nil, if_false]
  induction r.cells with
  | nil => rfl
  | cons cell cells ih =>
    rw [List.map_cons, List.lookup_cons, List.lookup_cons]
    by_cases hname : name = cell.1
    · simp [hname]
    · simp [beq_false_of_ne hname, ih]

theorem mem_zip_texts {names : List String} {f g : String → String} {name x y : String} :
    (name, x, y) ∈ names.zip ((names.map f).zip (names.map g)) ↔
      name ∈ names ∧ x = f name ∧ y = g name := by
  have hzip : names.zip ((names.map f).zip (names.map g)) = names.map fun a => (a, f a, g a) := by
    induction names with
    | nil => rfl
    | cons a names ih => simp [ih]
  rw [hzip, List.mem_map]
  constructor
  · rintro ⟨a, ha, heq⟩
    cases heq
    exact ⟨ha, rfl, rfl⟩
  · rintro ⟨ha, rfl, rfl⟩
    exact ⟨name, ha, rfl⟩

/-- A compared column of a row copied differs where a defect moves its value. -/
theorem TextsAgree.differs_iff (h : TextsAgree driver zones job t c sourceText targetText)
    {asOf : Timestamp} {legacy : Table → List (Row V)} {truth : List TruthCell}
    (htruth : deliveredTruth driver zones job asOf legacy = .ok truth) {name : String}
    {r : Row V} (hr : r ∈ legacy t) (hle : r.updatedAt ≤ asOf) :
    (name ∈ c.table.valueColumns.map Column.name ∧
      sourceText name (r.cells.lookup name) ≠
        targetText name ((job.read t [] r).cells.lookup name)) ↔
    ∃ d ∈ defects driver zones job, d.table = t ∧ d.column = name ∧ d.Moves r ∧
      neutralizedByPolicy (d.cell r.key) c.rules = false := by
  rw [lookup_read]
  constructor
  · rintro ⟨-, hne⟩
    cases hv : r.cells.lookup name with
    | none =>
      rw [hv] at hne
      exact absurd (h.absent name) hne
    | some v =>
      rw [hv] at hne
      by_cases hdefect : ∀ d ∈ defects driver zones job, d.table = t → d.column ≠ name
      · rw [Option.map_some, expression_eq_self hdefect] at hne
        exact absurd (h.alike name hdefect (some v)) hne
      · simp only [not_forall, not_not] at hdefect
        obtain ⟨d, hd, rfl, rfl⟩ := hdefect
        cases hmoved : d.moved v with
        | none => exact absurd (h.null d hd rfl v hmoved) hne
        | some computed =>
          obtain ⟨moves, rfl⟩ := computed_of_deliveredTruth htruth hd hr hle hv hmoved
          obtain ⟨rfl, hpolicy⟩ := (h.moved d hd rfl v moves hmoved r.key).mp hne
          exact ⟨d, hd, rfl, rfl, ⟨v, hv, hmoved⟩, hpolicy⟩
  · rintro ⟨d, hd, htable, rfl, ⟨v, hv, hmoved⟩, hpolicy⟩
    refine ⟨h.compared d hd htable, ?_⟩
    rw [hv]
    exact (h.moved d hd htable v true hmoved r.key).mpr ⟨rfl, hpolicy⟩

end Texts

/-! ## The main result -/

section Night

variable {driver : Driver V} {zones : ZoneInfo} {job : Job V} {w : World V} {t : Table}
  {night : Night} {spec : TableSpec} {c : Comparison (Row V) (Row V)} {mark : Timestamp}
  {sourceText targetText : String → Option V → String} {truth : List TruthCell}

theorem not_neutralized_lostCell (key : ℤ) (rules : List (String × Rule)) :
    neutralizedByPolicy (lostCell job key) rules = false := by
  rw [neutralizedByPolicy]
  split <;> simp [lostCell]

/-- The truth of a table and the findings name the same places. -/
theorem Job.DefectsFound.truth_iff [DecidableEq V] (hdelivered : job.delivered = true)
    (hapart : ∀ d ∈ defects driver zones job, d.table ≠ job.deliveredJob.batchTable)
    (hagree : TextsAgree driver zones job t c sourceText targetText) {copy : List (Row V)}
    {f : Findings} {legacy : Table → List (Row V)}
    (htruth : deliveredTruth driver zones job mark legacy = .ok truth)
    (h : job.DefectsFound t mark toString (c.table.valueColumns.map Column.name) c.source c.target
      (legacy t) copy f) (key name : String) :
    (∃ cell ∈ truth, cell.cell = (t.text, key, name) ∧
      neutralizedByPolicy cell c.rules = false) ↔
    (name = "" ∧ key ∈ f.missing) ∨ ∃ d ∈ f.cells, d.key = key ∧ d.column = name := by
  constructor
  · rintro ⟨cell, hcell, hplace, hpolicy⟩
    rcases (mem_deliveredTruth htruth).mp hcell with
      ⟨d, hd, r, hr, hle, hmoved, rfl⟩ | ⟨r, hr, hlost, hle, rfl⟩
    · simp only [TruthCell.cell, Defect.cell, Prod.mk.injEq] at hplace
      obtain ⟨htable, rfl, rfl⟩ := hplace
      obtain rfl := Table.text_injective htable
      obtain ⟨hcompared, hne⟩ :=
        (hagree.differs_iff htruth hr hle).mpr ⟨d, hd, rfl, rfl, hmoved, hpolicy⟩
      -- a table read wrong loses no rows
      have hkept : job.dropped d.table r = false := by simp [Job.dropped, hapart d hd]
      refine Or.inr ⟨⟨toString r.key, d.column, _, _⟩,
        (h.cells _).mpr ⟨r, hr, rfl, hle, hkept, ?_, hne⟩, rfl, rfl⟩
      rw [hagree.source, hagree.target]
      exact mem_zip_texts.mpr ⟨hcompared, rfl, rfl⟩
    · simp only [TruthCell.cell, lostCell, Prod.mk.injEq] at hplace
      obtain ⟨htable, rfl, rfl⟩ := hplace
      obtain rfl := Table.text_injective htable
      refine Or.inl ⟨rfl, (h.missing _).mpr ⟨r, hr, rfl, hle, ?_⟩⟩
      simp [Job.dropped, hdelivered, hlost]
  · rintro (⟨rfl, hmissing⟩ | ⟨d, hd, rfl, rfl⟩)
    · obtain ⟨r, hr, rfl, hle, hlost⟩ := (h.missing _).mp hmissing
      simp only [Job.dropped, Bool.and_eq_true, decide_eq_true_eq] at hlost
      obtain ⟨⟨-, rfl⟩, hpage⟩ := hlost
      exact ⟨lostCell job r.key, (mem_deliveredTruth htruth).mpr (Or.inr ⟨r, hr, hpage, hle, rfl⟩),
        rfl, not_neutralized_lostCell r.key c.rules⟩
    · obtain ⟨r, hr, hkey, hle, -, hcell, hne⟩ := (h.cells _).mp hd
      rw [hagree.source, hagree.target] at hcell
      obtain ⟨hcompared, hsource, htarget⟩ := mem_zip_texts.mp hcell
      rw [hsource, htarget] at hne
      obtain ⟨d', hd', rfl, hcolumn, hmoved, hpolicy⟩ :=
        (hagree.differs_iff htruth hr hle).mp ⟨hcompared, hne⟩
      refine ⟨d'.cell r.key, (mem_deliveredTruth htruth).mpr
        (Or.inl ⟨d', hd', r, hr, hle, hmoved, rfl⟩), ?_, hpolicy⟩
      simp [TruthCell.cell, Defect.cell, ← hkey, hcolumn]

/-- **The night finds the truth of the delivered job, and nothing else**: the places where a table
and its copy differ are those the truth names, but for what the canonical policy calls equal. -/
theorem truth_is_found [DecidableEq V] (hdelivered : job.delivered = true)
    (hapart : ∀ d ∈ defects driver zones job, d.table ≠ job.deliveredJob.batchTable)
    {legacy : Table → List (Row V)} (hkeys : ∀ t, ((legacy t).map Row.key).Nodup)
    {es : List (Event V)} (hrun : Run (step job) (Punctual job) (World.init legacy) es w)
    (hidle : w.running = none) (hmark : w.watermark t = some mark)
    (hc : ComparesCopy w t night spec toString c)
    (hagree : TextsAgree driver zones job t c sourceText targetText)
    (hcollide : Uncollided w t c)
    (htruth : deliveredTruth driver zones job mark w.legacy = .ok truth) :
    ∃ result connector, c.run = .ok (result, connector) ∧
      result.extra = [] ∧ result.duplicates = [] ∧
      ∀ key name, (∃ cell ∈ truth,
          cell.cell = (t.text, key, name) ∧ neutralizedByPolicy cell c.rules = false) ↔
        (name = "" ∧ key ∈ result.missing) ∨ ∃ d ∈ result.cells, d.key = key ∧ d.column = name := by
  obtain ⟨result, connector, hresult, hfound⟩ :=
    defectsFound_of_run hkeys hrun hidle hmark hc hcollide
  exact ⟨result, connector, hresult, hfound.extra, hfound.duplicates,
    hfound.truth_iff hdelivered hapart hagree htruth⟩

end Night

/-! ### The truth of the run -/

/-- Every value of the run is a text, and an empty one is `NULL`. -/
def runDriver : Driver String where
  timestamp _ := none
  numeric _ := none
  text v := if v = "" then none else some v.toList

def runZones : ZoneInfo :=
  fun _ _ value => some value

theorem apart_run : ∀ d ∈ defects runDriver runZones deliveredJob,
    d.table ≠ deliveredJob.deliveredJob.batchTable := by
  simp [defects, timezoneDefect, floatDefect, trimDefect, deliveredJob]

theorem valueColumns_run (w : World String) (t : Table) :
    (runComparison w t).table.valueColumns.map Column.name =
      ["email", "created_at", "amount", "channel"] := rfl

/-- A value of the run is written as it is. -/
theorem textsAgree_run (w : World String) (t : Table) : TextsAgree runDriver runZones deliveredJob t
    (runComparison w t) (fun _ v => v.getD null) (fun _ v => v.getD null) where
  source _ := rfl
  target _ := rfl
  absent _ := rfl
  alike _ _ _ := rfl
  compared := by
    rw [valueColumns_run, forall_mem_defects]
    exact ⟨fun _ => by decide, fun _ => by decide, fun _ => by decide⟩
  null := by
    rw [forall_mem_defects]
    refine ⟨?_, ?_, ?_⟩
    · rintro rfl v -
      rfl
    · rintro rfl v -
      rfl
    · rintro rfl v hnull
      have hempty : v = "" := by
        by_contra hne
        simp [trimDefect, runDriver, hne] at hnull
      subst hempty
      decide
  moved := by
    rw [forall_mem_defects]
    refine ⟨?_, ?_, ?_⟩
    · rintro rfl v moves hmoved
      simp [timezoneDefect, runDriver] at hmoved
    · rintro rfl v moves hmoved
      simp [floatDefect, runDriver] at hmoved
    · rintro rfl v moves hmoved key
      -- no rule of the run trims
      have hpolicy : neutralizedByPolicy ((trimDefect runDriver deliveredJob).cell key)
          (runComparison w (trimDefect runDriver deliveredJob).table).rules = false := rfl
      rw [and_iff_left hpolicy]
      by_cases hempty : v = ""
      · simp [trimDefect, runDriver, hempty] at hmoved
      · simp only [trimDefect, runDriver, if_neg hempty, Option.map_some, Option.some.injEq,
          Except.ok.injEq] at hmoved
        subst hmoved
        rw [decide_eq_true_iff]
        show v ≠ String.ofList (rstrip ' ' v.toList) ↔ _
        rw [ne_eq, ← String.toList_inj, String.toList_ofList]

/-- The truth after the second load: an email that ends in a space, and a session lost. -/
theorem truth_copiedTwice :
    deliveredTruth runDriver runZones deliveredJob (Duration.hours 30) copiedTwice.legacy =
      .ok [(trimDefect runDriver deliveredJob).cell 1, lostCell deliveredJob 25000] := by
  decide +kernel

theorem truth_is_found_trimmed_email :
    ∃ result connector, (runComparison copiedTwice .customers).run = .ok (result, connector) ∧
      ∃ d ∈ result.cells, d.key = "1" ∧ d.column = "email" := by
  obtain ⟨result, connector, hresult, -, -, hplaces⟩ :=
    truth_is_found rfl apart_run nodup_keys_oneCustomer run_copiedTwice rfl
      (watermark_copiedTwice .customers) (comparesRun (watermark_copiedTwice .customers))
      (textsAgree_run copiedTwice .customers) (uncollided_run .customers) truth_copiedTwice
  refine ⟨result, connector, hresult, ?_⟩
  rcases (hplaces "1" "email").mp ⟨_, List.mem_cons_self .., rfl, rfl⟩ with ⟨hname, -⟩ | hfound
  · exact absurd hname (by decide)
  · exact hfound

end PlatformOps.Simulation
