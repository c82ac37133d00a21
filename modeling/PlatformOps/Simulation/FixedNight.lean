import PlatformOps.Reconcile.Balance
import PlatformOps.Simulation.DeliveredGrade

/-!
# A Night of the Fixed Job

Once the fixed job has shipped, a night finds nothing in a table: no figure of the
verdict is left to fail it by, so the pair passes exactly if its watermark is not too
old.

- `passed_iff_of_clean`: the verdict of a clean pair.
- `fixed_night_passes`: the main result.
-/

namespace PlatformOps.Simulation

open Machine Reconcile Fallible

/-! ## The verdict of a clean pair -/

/-- The lag the verdict allows. -/
def Fresh (thresholds : Thresholds) (runAt mark : Timestamp) : Prop :=
  ((runAt - mark : ℤ) : ℚ) / (Duration.hours 1 : ℤ) ≤ thresholds.maxWatermarkLagHours

section Clean

variable {spec : TableSpec} {diff : TableDiff} {thresholds : Thresholds} {runAt mark : Timestamp}

theorem lists_of_clean (h : diff.clean = true) :
    diff.missing = [] ∧ diff.extra = [] ∧ diff.cells = [] ∧ diff.duplicates = [] := by
  simpa [TableDiff.clean, and_assoc] using h

theorem discrepanciesOf_clean (h : diff.clean = true) (classify : Classify) :
    discrepanciesOf spec diff classify = .ok [] := by
  obtain ⟨hmissing, hextra, hcells, hduplicates⟩ := lists_of_clean h
  rw [discrepanciesOf, hmissing, hextra, hcells, hduplicates]
  rfl

/-- With nothing found and the counts accounted for, only the watermark's age can fail a pair. -/
theorem passed_iff_of_clean (h : diff.clean = true)
    (hcounts : (diff.targetRows : ℤ) - diff.sourceRows = accounted diff)
    (hspec : spec.watermark = some mark) (hrows : thresholds.minRowMatchRate ≤ 1)
    (hcolumns : thresholds.minColumnMatchRate ≤ 1) :
    (verdict spec diff [] thresholds (some runAt)).passed = true ↔ Fresh thresholds runAt mark := by
  obtain ⟨hmissing, -, -, hduplicates⟩ := lists_of_clean h
  -- every row matches, also when there is none
  have hrate : (if diff.sourceRows ≠ 0 then ((diff.sourceRows : ℤ) : ℚ) / diff.sourceRows
      else 1) = 1 := by
    split
    · rename_i hsome
      exact div_self (Nat.cast_ne_zero.mpr hsome)
    · rfl
  simp only [ne_eq, Int.cast_natCast] at hrate
  simp [verdict, TableVerdict.passed, hmissing, hduplicates, hcounts, hspec, hrate, hrows, hcolumns,
    Fresh]

end Clean

/-! ## The night -/

section Night

variable {V : Type} [DecidableEq V] {job : Job V} {w : World V} {t : Table} {mark : Timestamp}
  {keyText : ℤ → String} {spec : TableSpec} {c : Comparison (Row V) (Row V)} {night : Night}
  {settings : NightSettings} {world : Reconcile.World (Row V) (Row V)}
  {rules : List (String × List (String × Rule))}

omit [DecidableEq V] in
/-- The rows counted differ by what is found. -/
theorem accounted_of_run {legacy : List (Row V)} (hlegacy : c.legacy = ⟨legacy, []⟩)
    {result : TableDiff} {connector : PostgresConnector (Row V)}
    (hresult : c.run = .ok (result, connector)) :
    (result.targetRows : ℤ) - result.sourceRows = accounted result := by
  obtain ⟨result', connector', hrun, hsource, htarget, hfindings⟩ :=
    Comparison.exists_run (c := c) (by rw [hlegacy])
  cases hresult.symm.trans hrun
  have haccounted : accounted result = result.findings.accounted := rfl
  rw [haccounted, hfindings, accounted_filter, hsource, htarget, c.length_copyRows_sub_inDoubt]

/-- **Once the fixed job has shipped, a table passes its night**: in every run from empty raw tables
whose calls succeed and whose commits are stamped after what was loaded, if both sides write the
rows alike, the pair is compared, nothing is found, and it passes exactly if its watermark is
fresh. -/
theorem fixed_night_passes (hjob : job.delivered = false) {legacy : Table → List (Row V)}
    (hkeys : ∀ t, ((legacy t).map Row.key).Nodup) {es : List (Event V)}
    (hrun : Run (step job) (Punctual job) (World.init legacy) es w) (hidle : w.running = none)
    (hmark : w.watermark t = some mark) (hrules : dictGet rules c.table.name = some c.rules)
    (hnight : NightComparison settings world c) (hc : ComparesCopy w t night spec keyText c)
    (hcollide : Uncollided w t c)
    (halike : ∀ r ∈ w.legacy t, r.updatedAt ≤ mark →
      (canonicalRow c.source r).2 = (canonicalRow c.target r).2)
    (hrows : settings.thresholds.minRowMatchRate ≤ 1)
    (hcolumns : settings.thresholds.minColumnMatchRate ≤ 1) :
    ∃ pair, compare settings world night rules (asOfTonight night spec) = .ok pair ∧
      pair.diff.clean = true ∧ pair.discrepancies = [] ∧
      (pair.verdict.passed = true ↔ Fresh settings.thresholds night.runAt mark) := by
  obtain ⟨result, connector, hresult, hfound⟩ :=
    defectsFound_of_run hkeys hrun hidle hmark hc hcollide
  have hclean := hfound.clean hjob halike
  -- the pair is compared as of the copy's watermark
  have hspec : c.table.watermark = some mark := by
    rw [hc.table, hc.pair.asOfTonight_eq hmark]
  rw [← hc.table]
  refine ⟨_, hnight.compare_eq hrules hresult (discrepanciesOf_clean hclean _), hclean, rfl, ?_⟩
  exact passed_iff_of_clean hclean (accounted_of_run hc.legacy hresult) hspec hrows hcolumns

end Night

/-! ### The night of the fixed job -/

/-- The two loads by the fixed job: the email keeps its space, the session is loaded. -/
def fixedTwice : World String :=
  (check (step fixedJob) (Punctual fixedJob) (World.init oneCustomer) deliveredRun).get (by decide)

theorem fixed_night_passes_two_loads :
    ∃ pair, compare runSettings (runWorld fixedTwice) runNight runRules
        (asOfTonight runNight (runSpec .webSessions)) = .ok pair ∧
      pair.diff.clean = true ∧ pair.discrepancies = [] ∧ pair.verdict.passed = true := by
  have hmark : fixedTwice.watermark .webSessions = some (Duration.hours 30) := by decide
  have hfixed : fixedJob.delivered = false := rfl
  have hrun : Run (step fixedJob) (Punctual fixedJob) (World.init oneCustomer) deliveredRun
      fixedTwice := Run.of_check (Option.some_get _).symm
  obtain ⟨pair, hpair, hclean, hnone, hpassed⟩ := fixed_night_passes hfixed
    nodup_keys_oneCustomer hrun rfl hmark
    (dictGet_runRules .webSessions) (nightComparison_run fixedTwice .webSessions)
    (comparesRun hmark) (by decide +kernel) (fun _ _ _ => rfl) (by decide) (by decide)
  refine ⟨pair, hpair, hclean, hnone, hpassed.mpr ?_⟩
  have hlag : (default : Thresholds).maxWatermarkLagHours = 0 := rfl
  simp [Fresh, runNight, runSettings, hlag]

end PlatformOps.Simulation
