import PlatformOps.Simulation.AsOfWatermark
import PlatformOps.Simulation.BetweenLoads
import PlatformOps.Simulation.Faults

/-!
# What a Night Finds of a Copy

A night compares a legacy table with its copy as of the copy's recorded watermark.
Between loads the copy holds what the job makes of the rows up to it
(`copied_at_watermark`), and a diff of static tables is exact: so what is found are
the job's defects, all of them and nothing else. The rows changed since are in
flight, never a discrepancy.

- `Job.DefectsFound`: what each list of the result holds.
- `defectsFound_of_exact`: from the diff's exactness.
- `night_finds_defects`: the main result, for either job.
-/

namespace PlatformOps.Simulation

open Machine Reconcile

variable {V : Type} {job : Job V} {w : World V} {t : Table}

/-! ## Rows by key -/

/-- Both sides write a row's key from the key alone, different keys differently. -/
structure KeyedAlike (keyText : ℤ → String) (source target : RenderedTable (Row V)) : Prop where
  legacyKey : ∀ r, source.key r = keyText r.key
  copyKey : ∀ r, target.key r = keyText r.key
  injective : keyText.Injective

section Keys

variable {keyText : ℤ → String} {rendered : RenderedTable (Row V)} {rows : List (Row V)}

theorem filter_key_of_nodup (hnodup : (rows.map Row.key).Nodup) {r : Row V} (hr : r ∈ rows) :
    rows.filter (fun x => x.key = r.key) = [r] := by
  induction rows with
  | nil => cases hr
  | cons x rows ih =>
    obtain ⟨hnew, hrest⟩ := List.nodup_cons.mp hnodup
    rcases List.mem_cons.mp hr with rfl | hr
    · have hnone : rows.filter (fun x => x.key = r.key) = [] := by
        apply List.filter_eq_nil_iff.mpr
        intro y hy hkey
        exact hnew (List.mem_map.mpr ⟨y, hy, of_decide_eq_true hkey⟩)
      simp [hnone]
    · have hne : x.key ≠ r.key := fun hkey => hnew (hkey ▸ List.mem_map_of_mem hr)
      simp [hne, ih hrest hr]

/-- A row with a key of its own is the only one its key text has. -/
theorem rowsOf_of_mem (hkey : ∀ r, rendered.key r = keyText r.key) (hinj : keyText.Injective)
    (hnodup : (rows.map Row.key).Nodup) {r : Row V} (hr : r ∈ rows) :
    rowsOf (rows.map (canonicalRow rendered)) (keyText r.key) = [(canonicalRow rendered r).2] := by
  have hfilter : rows.filter
      ((fun row : String × List String => decide (row.1 = keyText r.key)) ∘ canonicalRow rendered) =
        rows.filter fun x => x.key = r.key := by
    apply List.filter_congr
    intro x _
    simp [canonicalRow, hkey, hinj.eq_iff]
  rw [rowsOf, List.filter_map, hfilter, filter_key_of_nodup hnodup hr]
  rfl

theorem rowsOf_eq_nil_iff (hkey : ∀ r, rendered.key r = keyText r.key) {k : String} :
    rowsOf (rows.map (canonicalRow rendered)) k = [] ↔ ∀ r ∈ rows, keyText r.key ≠ k := by
  rw [← not_iff_not]
  simp [rowsOf_ne_nil, canonicalRow, hkey]

/-- A key text has no row, or the one row of its key. -/
theorem rowsOf_cases (hkey : ∀ r, rendered.key r = keyText r.key) (hinj : keyText.Injective)
    (hnodup : (rows.map Row.key).Nodup) (k : String) :
    rowsOf (rows.map (canonicalRow rendered)) k = [] ∨
      ∃ r ∈ rows, keyText r.key = k ∧
        rowsOf (rows.map (canonicalRow rendered)) k = [(canonicalRow rendered r).2] := by
  by_cases hnone : rowsOf (rows.map (canonicalRow rendered)) k = []
  · exact Or.inl hnone
  · rw [rowsOf_eq_nil_iff hkey] at hnone
    simp only [not_forall, not_not] at hnone
    obtain ⟨r, hr, rfl⟩ := hnone
    exact Or.inr ⟨r, hr, rfl, rowsOf_of_mem hkey hinj hnodup hr⟩

end Keys

/-! ## The findings -/

/-- The findings of a table compared with its copy as of `mark` are the job's defects. -/
structure Job.DefectsFound (job : Job V) (t : Table) (mark : Timestamp) (keyText : ℤ → String)
    (names : List String) (source target : RenderedTable (Row V)) (legacy copy : List (Row V))
    (f : Findings) : Prop where
  /-- The rows the job loses are missing. -/
  missing : ∀ k, k ∈ f.missing ↔
    ∃ r ∈ legacy, keyText r.key = k ∧ r.updatedAt ≤ mark ∧ job.dropped t r = true
  extra : f.extra = []
  duplicates : f.duplicates = []
  /-- The copied rows changed since are in flight. -/
  inFlight : ∀ k, k ∈ f.inFlight ↔
    ∃ r ∈ legacy, keyText r.key = k ∧ mark < r.updatedAt ∧ ∃ x ∈ copy, x.key = r.key
  /-- The cells are those where a row, as the job reads it, has another text. -/
  cells : ∀ d, d ∈ f.cells ↔
    ∃ r ∈ legacy, keyText r.key = d.key ∧ r.updatedAt ≤ mark ∧ job.dropped t r = false ∧
      (d.column, d.source, d.target) ∈
        names.zip ((canonicalRow source r).2.zip (canonicalRow target (job.read t [] r)).2) ∧
      d.source ≠ d.target

section Findings

variable {keyText : ℤ → String} {source target : RenderedTable (Row V)} {mark : Timestamp}
  {legacy copy compared : List (Row V)} {names changed : List String} {f : Findings}

/-- A row of the copy is one of a legacy row that is not lost; up to `mark`, as the job reads it. -/
theorem Job.Copied.row_of_mem (hcopied : job.Copied t mark legacy copy) {x r : Row V}
    (hx : x ∈ copy) (hr : r ∈ legacy) (hkey : x.key = r.key) :
    job.dropped t r = false ∧ (r.updatedAt ≤ mark → x = job.read t [] r) := by
  obtain ⟨r', hr', hkey', -, hkept⟩ := hcopied.known x hx
  obtain rfl := List.inj_on_of_nodup_map hcopied.legacyKeys hr' hr (hkey'.trans hkey)
  refine ⟨hkept, fun hle => ?_⟩
  exact List.inj_on_of_nodup_map hcopied.copyKeys hx (hcopied.held r' hr' hle hkept) hkey

section Exact

variable (hcopied : job.Copied t mark legacy copy) (hkeyed : KeyedAlike keyText source target)
  (hcompared : ∀ r, r ∈ compared ↔ r ∈ legacy ∧ r.updatedAt ≤ mark)
  (hnodup : (compared.map Row.key).Nodup)
  (hchanged : ∀ k, k ∈ changed ↔ ∃ r ∈ legacy, keyText r.key = k ∧ mark < r.updatedAt)
  (hexact : f.Exact names changed (compared.map (canonicalRow source))
    (copy.map (canonicalRow target)))

include hcopied hkeyed hcompared hnodup hexact

theorem mem_missing_iff {k : String} : k ∈ f.missing ↔
    ∃ r ∈ legacy, keyText r.key = k ∧ r.updatedAt ≤ mark ∧ job.dropped t r = true := by
  rw [hexact.missing, rowsOf_eq_nil_iff hkeyed.copyKey]
  constructor
  · rintro ⟨hlength, hnone⟩
    rcases rowsOf_cases hkeyed.legacyKey hkeyed.injective hnodup k with hnil | ⟨r, hr, rfl, -⟩
    · simp [hnil] at hlength
    · obtain ⟨hmem, hle⟩ := (hcompared r).mp hr
      refine ⟨r, hmem, rfl, hle, ?_⟩
      -- what is not lost is in the copy
      by_contra hkept
      exact hnone _ (hcopied.held r hmem hle (Bool.eq_false_of_not_eq_true hkept)) rfl
  · rintro ⟨r, hmem, rfl, hle, hlost⟩
    have hr := (hcompared r).mpr ⟨hmem, hle⟩
    have hrow := rowsOf_of_mem hkeyed.legacyKey hkeyed.injective hnodup hr
    refine ⟨by simp [hrow], fun x hx hkey => ?_⟩
    have hkept := (hcopied.row_of_mem hx hmem (hkeyed.injective hkey)).1
    simp [hlost] at hkept

theorem mem_cells_iff {d : CellDiff} : d ∈ f.cells ↔
    ∃ r ∈ legacy, keyText r.key = d.key ∧ r.updatedAt ≤ mark ∧ job.dropped t r = false ∧
      (d.column, d.source, d.target) ∈
        names.zip ((canonicalRow source r).2.zip (canonicalRow target (job.read t [] r)).2) ∧
      d.source ≠ d.target := by
  rw [hexact.cells]
  constructor
  · rintro ⟨a, b, ha, hb, hcell, hne⟩
    have hsource := rowsOf_cases hkeyed.legacyKey hkeyed.injective hnodup d.key
    have htarget := rowsOf_cases hkeyed.copyKey hkeyed.injective hcopied.copyKeys d.key
    rw [ha] at hsource
    rw [hb] at htarget
    obtain ⟨r, hr, hkey, hrow⟩ := hsource.resolve_left (List.cons_ne_nil _ _)
    obtain ⟨x, hx, hkey', hrow'⟩ := htarget.resolve_left (List.cons_ne_nil _ _)
    obtain ⟨hmem, hle⟩ := (hcompared r).mp hr
    obtain ⟨hkept, hread⟩ := hcopied.row_of_mem hx hmem (hkeyed.injective (hkey'.trans hkey.symm))
    rw [List.singleton_inj.mp hrow, List.singleton_inj.mp hrow', hread hle] at hcell
    exact ⟨r, hmem, hkey, hle, hkept, hcell, hne⟩
  · rintro ⟨r, hmem, hkey, hle, hkept, hcell, hne⟩
    refine ⟨_, _, ?_, ?_, hcell, hne⟩
    · rw [← hkey]
      exact rowsOf_of_mem hkeyed.legacyKey hkeyed.injective hnodup
        ((hcompared r).mpr ⟨hmem, hle⟩)
    · rw [← hkey]
      exact rowsOf_of_mem hkeyed.copyKey hkeyed.injective hcopied.copyKeys
        (hcopied.held r hmem hle hkept)

omit hcompared in
theorem duplicates_eq_nil : f.duplicates = [] := by
  apply List.eq_nil_iff_forall_not_mem.mpr
  intro d hd
  obtain ⟨hmany, hsource, htarget⟩ := hexact.duplicates d hd
  have hsourceOnce : d.source ≤ 1 := by
    rw [hsource]
    rcases rowsOf_cases hkeyed.legacyKey hkeyed.injective hnodup d.key with hnil | ⟨r, -, -, hrow⟩
    · simp [hnil]
    · simp [hrow]
  have htargetOnce : d.target ≤ 1 := by
    rw [htarget]
    rcases rowsOf_cases hkeyed.copyKey hkeyed.injective hcopied.copyKeys d.key with
      hnil | ⟨x, -, -, hrow⟩
    · simp [hnil]
    · simp [hrow]
  omega

include hchanged

omit hnodup in
theorem mem_inFlight_iff {k : String} : k ∈ f.inFlight ↔
    ∃ r ∈ legacy, keyText r.key = k ∧ mark < r.updatedAt ∧ ∃ x ∈ copy, x.key = r.key := by
  rw [hexact.inFlight, rowsOf_eq_nil_iff hkeyed.legacyKey]
  constructor
  · rintro ⟨-, hlength, hmem⟩
    obtain ⟨r, hr, rfl, hlate⟩ := (hchanged k).mp hmem
    rcases rowsOf_cases hkeyed.copyKey hkeyed.injective hcopied.copyKeys (keyText r.key) with
      hnil | ⟨x, hx, hkey, -⟩
    · simp [hnil] at hlength
    · exact ⟨r, hr, rfl, hlate, x, hx, hkeyed.injective hkey⟩
  · rintro ⟨r, hr, rfl, hlate, x, hx, hkey⟩
    have hrow := rowsOf_of_mem hkeyed.copyKey hkeyed.injective hcopied.copyKeys hx
    rw [hkey] at hrow
    refine ⟨fun r' hr' hkey' => ?_, by simp [hrow], (hchanged _).mpr ⟨r, hr, rfl, hlate⟩⟩
    -- the key's one legacy row is later than what is compared
    obtain ⟨hmem, hle⟩ := (hcompared r').mp hr'
    obtain rfl := List.inj_on_of_nodup_map hcopied.legacyKeys hmem hr (hkeyed.injective hkey')
    exact absurd hle (not_le.mpr hlate)

omit hnodup in
theorem extra_eq_nil : f.extra = [] := by
  apply List.eq_nil_iff_forall_not_mem.mpr
  intro k hk
  obtain ⟨hnone, hlength, hunchanged⟩ := (hexact.extra k).mp hk
  rw [rowsOf_eq_nil_iff hkeyed.legacyKey] at hnone
  rcases rowsOf_cases hkeyed.copyKey hkeyed.injective hcopied.copyKeys k with
    hnil | ⟨x, hx, rfl, -⟩
  · simp [hnil] at hlength
  · obtain ⟨r, hr, hkey, -, -⟩ := hcopied.known x hx
    rcases le_or_gt r.updatedAt mark with hle | hlate
    -- compared, so on both sides; or changed since
    · exact hnone r ((hcompared r).mpr ⟨hr, hle⟩) (congrArg keyText hkey)
    · exact hunchanged ((hchanged _).mpr ⟨r, hr, congrArg keyText hkey, hlate⟩)

/-- An exact diff of a table and its copy finds the job's defects. -/
theorem defectsFound_of_exact :
    job.DefectsFound t mark keyText names source target legacy copy f where
  missing _ := mem_missing_iff hcopied hkeyed hcompared hnodup hexact
  extra := extra_eq_nil hcopied hkeyed hcompared hchanged hexact
  duplicates := duplicates_eq_nil hcopied hkeyed hnodup hexact
  inFlight _ := mem_inFlight_iff hcopied hkeyed hcompared hchanged hexact
  cells _ := mem_cells_iff hcopied hkeyed hcompared hnodup hexact

end Exact

/-- The fixed job has no defects: if both sides write the rows up to `mark` alike, the table is
clean. -/
theorem Job.DefectsFound.clean (hjob : job.delivered = false) {result : TableDiff}
    (h : job.DefectsFound t mark keyText names source target legacy copy result.findings)
    (halike : ∀ r ∈ legacy, r.updatedAt ≤ mark →
      (canonicalRow source r).2 = (canonicalRow target r).2) : result.clean = true := by
  have hmissing : result.missing = [] := by
    apply List.eq_nil_iff_forall_not_mem.mpr
    intro k hk
    obtain ⟨r, -, -, -, hlost⟩ := (h.missing k).mp hk
    simp [Job.dropped, hjob] at hlost
  have hcells : result.cells = [] := by
    apply List.eq_nil_iff_forall_not_mem.mpr
    intro d hd
    obtain ⟨r, hr, -, hle, -, hcell, hne⟩ := (h.cells d).mp hd
    rw [Job.read_eq_self hjob] at hcell
    exact ne_of_mem_zip hcell hne (halike r hr hle)
  have hextra : result.extra = [] := h.extra
  have hduplicates : result.duplicates = [] := h.duplicates
  simp [TableDiff.clean, hmissing, hextra, hcells, hduplicates]

end Findings

/-! ## The comparison of a night -/

/-- The comparison a night makes of a table with its copy, read with `FINAL`. -/
structure ComparesCopy (w : World V) (t : Table) (night : Night) (spec : TableSpec)
    (keyText : ℤ → String) (c : Comparison (Row V) (Row V)) : Prop where
  pair : NightlyPair w t c.engine night spec
  table : c.table = asOfTonight night spec
  legacy : c.legacy = ⟨w.legacy t, []⟩
  copy : c.copy = ⟨readFinal (w.raw t)⟩
  keyed : KeyedAlike keyText c.source c.target

/-- No two segments of the table and its copy with different contents have equal summaries. -/
def Uncollided (w : World V) (t : Table) (c : Comparison (Row V) (Row V)) : Prop :=
  NoCollision c.md5 (sourceHashes c.engine c.md5 c.table c.source (w.legacy t))
    (targetHashes c.md5 c.target ⟨readFinal (w.raw t)⟩)
    (sourceRows c.engine c.table c.source (w.legacy t))
    (targetRows c.target ⟨readFinal (w.raw t)⟩)

instance (c : Comparison (Row V) (Row V)) : Decidable (Uncollided w t c) :=
  inferInstanceAs (Decidable (NoCollision ..))

section Nights

variable {night : Night} {spec : TableSpec} {keyText : ℤ → String}
  {c : Comparison (Row V) (Row V)} {mark : Timestamp}

/-- What is compared has the keys of the table, each once. -/
theorem ComparesCopy.nodup_keys (hc : ComparesCopy w t night spec keyText c)
    (hmark : w.watermark t = some mark) (hnodup : ((w.legacy t).map Row.key).Nodup) :
    ((relation c.engine c.table (w.legacy t)).map Row.key).Nodup := by
  rw [hc.table, hc.pair.asOfTonight_eq hmark, relation, if_pos (hc.pair.asOf_eq mark)]
  exact hnodup.sublist (List.filter_sublist.map _)

theorem ComparesCopy.mem_keysChanged (hc : ComparesCopy w t night spec keyText c)
    (hmark : w.watermark t = some mark) {k : String} :
    k ∈ keysChanged c.engine c.table c.source (w.legacy t) ↔
      ∃ r ∈ w.legacy t, keyText r.key = k ∧ mark < r.updatedAt := by
  rw [hc.table, hc.pair.asOfTonight_eq hmark, mem_keysChanged_iff (hc.pair.asOf_eq mark)]
  simp [changedAfter, hc.pair.stamps, hc.keyed.legacyKey, and_comm]

variable [DecidableEq V]

section Runs

variable {legacy : Table → List (Row V)} {es : List (Event V)}

/-- What a night finds after a run. -/
theorem defectsFound_of_run (hkeys : ∀ t, ((legacy t).map Row.key).Nodup)
    (hrun : Run (step job) (Punctual job) (World.init legacy) es w) (hidle : w.running = none)
    (hmark : w.watermark t = some mark) (hc : ComparesCopy w t night spec keyText c)
    (hcollide : Uncollided w t c) :
    ∃ result connector, c.run = .ok (result, connector) ∧
      job.DefectsFound t mark keyText (c.table.valueColumns.map Column.name) c.source c.target
        (w.legacy t) (readFinal (w.raw t)) result.findings := by
  obtain ⟨result, connector, hresult, houtcome⟩ := diffTable_outcome c.md5 c.ceilLog
    c.leafWidth c.copy c.renders c.copyRenders c.legacy
  rw [hc.legacy, hc.copy] at houtcome
  have hexact := exact_of_outcome houtcome hcollide
  have hnodup := nodup_keys_legacy hkeys hrun t
  obtain ⟨hconverging, hupToDate⟩ := upToDate_through hkeys hrun t
  have hcopied : job.Copied t mark (w.legacy t) (readFinal (w.raw t)) :=
    .of_through hnodup (copied_of_upToDate rfl hconverging hupToDate hidle hmark)
  have hcompared : ∀ r, r ∈ relation c.engine c.table (w.legacy t) ↔
      r ∈ w.legacy t ∧ r.updatedAt ≤ mark := by
    intro r
    rw [hc.table]
    exact mem_relation_iff hc.pair hmark
  exact ⟨result, connector, hresult, defectsFound_of_exact hcopied hc.keyed hcompared
    (hc.nodup_keys hmark hnodup) (fun _ => hc.mem_keysChanged hmark) hexact⟩

end Runs

/-- **A night finds the job's defects, all of them and nothing else**: in every run from empty raw
tables whose calls succeed and whose commits are stamped after what was loaded, whenever no call
is under way, if no two segments with different contents have equal summaries. -/
theorem night_finds_defects (job : Job V) {legacy : Table → List (Row V)}
    (hkeys : ∀ t, ((legacy t).map Row.key).Nodup) {es : List (Event V)}
    (hrun : Run (step job) (Punctual job) (World.init legacy) es w) (hidle : w.running = none)
    (hmark : w.watermark t = some mark) (hc : ComparesCopy w t night spec keyText c)
    (hcollide : Uncollided w t c) :
    ∃ result connector, c.run = .ok (result, connector) ∧
      job.DefectsFound t mark keyText (c.table.valueColumns.map Column.name) c.source c.target
        (w.legacy t) (readFinal (w.raw t)) result.findings ∧
      -- and if it has none, the table is clean
      (job.delivered = false → (∀ r ∈ w.legacy t, r.updatedAt ≤ mark →
        (canonicalRow c.source r).2 = (canonicalRow c.target r).2) → result.clean = true) := by
  obtain ⟨result, connector, hresult, hfound⟩ :=
    defectsFound_of_run hkeys hrun hidle hmark hc hcollide
  exact ⟨result, connector, hresult, hfound, hfound.clean⟩

end Nights

/-! ### A night of the run -/

/-- The columns of the run's tables. -/
def runColumns : List Column :=
  [{ name := "id", kind := .text }, { name := "email", kind := .text },
    { name := "created_at", kind := .text }, { name := "amount", kind := .text },
    { name := "channel", kind := .text }]

def runSpec (t : Table) : TableSpec where
  name := t.text
  level := .table
  key := ["id"]
  columns := runColumns
  source := t.text
  target := t.text
  final := true
  changedAt := "updated_at"

def cellText (name : String) (r : Row String) : Option String :=
  if name = "id" then some (toString r.key) else r.cells.lookup name

/-- A side whose texts are the values. -/
def textEngine : PostgresEngine (Row String) where
  value c _ r := cellText c.name r
  changedAt _ r := some r.updatedAt

def renderedText : RenderedTable (Row String) :=
  ⟨joinTexts [coalesce (cellText "id")],
    (runColumns.tail.map Column.name).map fun name => coalesce (cellText name),
    joinTexts ((runColumns.map Column.name).map fun name => coalesce (cellText name))⟩

/-- The night after the second load. -/
def runNight : Night :=
  ⟨0, Duration.hours 30, [], tables.map fun t => (t.text, Duration.hours 30), none⟩

/-- A legacy table and its copy. -/
def runComparison (w : World String) (t : Table) : Comparison (Row String) (Row String) where
  engine := textEngine
  targetEngine := textEngine.toEngine
  md5 := digest
  ceilLog _ _ := 1
  table := { runSpec t with watermark := some (Duration.hours 30) }
  rules := rulesFor (runSpec t) {}
  leafWidth := 1
  legacy := ⟨w.legacy t, []⟩
  copy := ⟨readFinal (w.raw t)⟩
  source := renderedText
  target := renderedText
  renders := rfl
  copyRenders := rfl

theorem recorded_runNight (t : Table) :
    dictGet runNight.watermarks t.text = some (Duration.hours 30) := by
  cases t <;> decide

theorem comparesRun {w : World String} {t : Table}
    (hmark : w.watermark t = some (Duration.hours 30)) :
    ComparesCopy w t runNight (runSpec t) toString (runComparison w t) where
  pair := ⟨rfl, (recorded_runNight t).trans hmark.symm, by simp [runSpec], fun _ => rfl⟩
  table := by simp [runComparison, asOfTonight, runSpec, recorded_runNight]
  legacy := rfl
  copy := rfl
  keyed := ⟨fun _ => rfl, fun _ => rfl, fun _ _ h => Int.repr_injective h⟩

theorem watermark_copiedTwice (t : Table) :
    copiedTwice.watermark t = some (Duration.hours 30) := by
  cases t <;> decide

theorem uncollided_run (t : Table) : Uncollided copiedTwice t (runComparison copiedTwice t) := by
  cases t <;> decide +kernel

theorem run_copiedTwice : Run (step deliveredJob) (Punctual deliveredJob) (World.init oneCustomer)
    deliveredRun copiedTwice :=
  Run.of_check (Option.some_get _).symm

theorem nodup_keys_oneCustomer (t : Table) : ((oneCustomer t).map Row.key).Nodup := by
  cases t <;> decide

theorem night_finds_defects_trimmed_email :
    ∃ result connector, (runComparison copiedTwice .customers).run = .ok (result, connector) ∧
      result.findings.missing = [] ∧ result.findings.extra = [] ∧
      ⟨"1", "email", "ann@new.test ", "ann@new.test"⟩ ∈ result.findings.cells := by
  obtain ⟨result, connector, hresult, hfound, -⟩ :=
    night_finds_defects deliveredJob nodup_keys_oneCustomer run_copiedTwice rfl
      (watermark_copiedTwice .customers) (comparesRun (watermark_copiedTwice .customers))
      (uncollided_run .customers)
  refine ⟨result, connector, hresult, ?_, hfound.extra, (hfound.cells _).mpr ?_⟩
  · apply List.eq_nil_iff_forall_not_mem.mpr
    intro k hk
    obtain ⟨r, -, -, -, hlost⟩ := (hfound.missing k).mp hk
    simp [Job.dropped, deliveredJob] at hlost
  · exact ⟨⟨1, Duration.hours 12, [("email", "ann@new.test ")]⟩, by decide, by decide, by decide,
      by decide, by decide +kernel, by decide⟩

end PlatformOps.Simulation
