import PlatformOps.Library.Streaks
import PlatformOps.Reconcile.DriftContained

/-!
# When the Cutover Is Recommended

The loop of `decide` carries the streak of clean nights and stops at the first
night whose streak is as long as required: that is the earliest night to complete
such a run of clean nights (`decide_of_earliest`, `decide_of_none`). And a night
is clean only if every pair of the configuration was compared that night and
passed, and every report is explained (`Checked`, `cutover_exact`).
-/

namespace PlatformOps.Reconcile

open Listing Fallible Streaks

/-! ## The loop -/

section Loop

variable {required total : ℕ} {before rest : List NightResult} {result : NightResult}

theorem decideFrom_cons (before : List NightResult) (result : NightResult)
    (rest : List NightResult) :
    Cutover.decideFrom required total (streak NightResult.clean before) (result :: rest) =
      if streak NightResult.clean (before ++ [result]) = required then
        ⟨true, some result.night.index, some result.night.runAt, required, required, total⟩
      else
        Cutover.decideFrom required total (streak NightResult.clean (before ++ [result])) rest := by
  simp only [Cutover.decideFrom, ← streak_append_singleton]
  split
  · rename_i heq
    rw [heq]
  · rfl

/-- One more night makes the streak longer by at most one. -/
theorem streak_lt_or_eq (hshort : streak NightResult.clean before < required)
    (result : NightResult) :
    streak NightResult.clean (before ++ [result]) < required ∨
      streak NightResult.clean (before ++ [result]) = required := by
  rw [streak_append_singleton]
  split <;> omega

/-- The nights that are left complete no run: the loop comes to its end. -/
theorem decideFrom_of_none (hshort : streak NightResult.clean before < required)
    (hnone : ∀ i < rest.length,
      streak NightResult.clean (before ++ rest.take (i + 1)) < required) :
    Cutover.decideFrom required total (streak NightResult.clean before) rest =
      ⟨false, none, none, streak NightResult.clean (before ++ rest), required, total⟩ := by
  induction rest generalizing before with
  | nil =>
    rw [Cutover.decideFrom, List.append_nil]
  | cons result rest ih =>
    have hfirst : streak NightResult.clean (before ++ [result]) < required := by
      simpa using hnone 0 (by simp)
    rw [decideFrom_cons, if_neg hfirst.ne, ih hfirst, List.append_assoc]
    · rfl
    · intro i hi
      have hnext := hnone (i + 1) (by simpa using hi)
      simpa using hnext

/-- The first of the nights that are left to complete a run stops the loop. -/
theorem decideFrom_of_earliest {i : ℕ} (hshort : streak NightResult.clean before < required)
    (hearlier : ∀ j < i, streak NightResult.clean (before ++ rest.take (j + 1)) < required)
    (hcompletes : required ≤ streak NightResult.clean (before ++ rest.take (i + 1)))
    (hresult : rest[i]? = some result) :
    Cutover.decideFrom required total (streak NightResult.clean before) rest =
      ⟨true, some result.night.index, some result.night.runAt, required, required, total⟩ := by
  induction i generalizing before rest with
  | zero =>
    obtain ⟨rest, rfl⟩ : ∃ tail, rest = result :: tail := by
      cases rest with
      | nil => simp at hresult
      | cons first rest => exact ⟨rest, by simpa using hresult⟩
    have hlong : required ≤ streak NightResult.clean (before ++ [result]) := by
      simpa using hcompletes
    -- The streak grows by one a night: it is as long as required for the first time.
    have heq := (streak_lt_or_eq hshort result).resolve_left (by omega)
    rw [decideFrom_cons, if_pos heq]
  | succ i ih =>
    cases rest with
    | nil => simp at hresult
    | cons first rest =>
      have hfirst : streak NightResult.clean (before ++ [first]) < required := by
        simpa using hearlier 0 (by omega)
      -- Not on the first night: the streak up to it goes into the rest.
      rw [decideFrom_cons, if_neg hfirst.ne]
      apply ih hfirst
      · intro j hj
        have hnext := hearlier (j + 1) (by omega)
        simpa using hnext
      · simpa using hcompletes
      · simpa using hresult

end Loop

/-! ## The decision -/

section Decision

variable {results : List NightResult} {required i : ℕ} {result : NightResult}

/-- Night `i` completes `required` consecutive clean nights. -/
def CompletesCleanRun (results : List NightResult) (required i : ℕ) : Prop :=
  EndsAt NightResult.clean results required i

theorem decide_of_none (hrequired : 1 ≤ required)
    (hnone : ∀ i, ¬ CompletesCleanRun results required i) :
    (Cutover.decide results required).recommended = false := by
  have hshort : ∀ i < results.length,
      streak NightResult.clean ([] ++ results.take (i + 1)) < required := by
    intro i hi
    by_contra hlong
    exact hnone i ((endsAt_iff _ hrequired).mpr ⟨hi, by simpa using hlong⟩)
  rw [Cutover.decide, ← streak_nil NightResult.clean, decideFrom_of_none hrequired hshort]

theorem decide_of_earliest (hrequired : 1 ≤ required)
    (hcompletes : CompletesCleanRun results required i)
    (hearliest : ∀ j < i, ¬ CompletesCleanRun results required j)
    (hresult : results[i]? = some result) :
    Cutover.decide results required =
      ⟨true, some result.night.index, some result.night.runAt, required, required,
        results.length⟩ := by
  obtain ⟨hi, hlong⟩ := (endsAt_iff _ hrequired).mp hcompletes
  have hshort : ∀ j < i, streak NightResult.clean ([] ++ results.take (j + 1)) < required := by
    intro j hj
    by_contra hlong
    exact hearliest j hj ((endsAt_iff _ hrequired).mpr ⟨by omega, by simpa using hlong⟩)
  have hlong' : required ≤ streak NightResult.clean ([] ++ results.take (i + 1)) := by
    simpa using hlong
  rw [Cutover.decide, ← streak_nil NightResult.clean,
    decideFrom_of_earliest hrequired hshort hlong' hresult]

/-- If any night completes a run, one is the earliest to. -/
theorem exists_earliest (h : ∃ i, CompletesCleanRun results required i) (hrequired : 1 ≤ required) :
    ∃ i result, results[i]? = some result ∧ CompletesCleanRun results required i ∧
      ∀ j < i, ¬ CompletesCleanRun results required j := by
  classical
  have hi := ((endsAt_iff _ hrequired).mp (Nat.find_spec h)).1
  exact ⟨Nat.find h, results[Nat.find h], List.getElem?_eq_getElem hi, Nat.find_spec h,
    fun j hj => Nat.find_min h hj⟩

end Decision

/-! ## A clean night -/

section Night

variable {R T : Type} {settings : NightSettings} {world : World R T} {night : Night}
  {run run' : ParallelRun} {wanted : List Wanted}

/-- A pair was compared that night, as its relations stand in the catalogues, and passed. -/
def ComparedAndPassed (world : World R T) (settings : NightSettings) (night : Night)
    (run : ParallelRun) (result : NightResult) (w : Wanted) : Prop :=
  ∃ spec r, w.spec world.catalogues = .ok spec ∧
    compare settings world night run.rules (asOfTonight night spec) = .ok r ∧
    r ∈ result.pairs ∧ r.verdict.passed = true

/-- A report was explained that night, by the differences found upstream. -/
def ReportExplained (run : ParallelRun) (result : NightResult) (p : PairConfig) : Prop :=
  ∃ cells rows, ∃ r ∈ result.pairs, r.spec.name = p.name ∧ r.spec.level = .report ∧
    ∃ why, explain r.spec r.diff (dictGet run.lineage p.name).join cells rows = .ok why ∧
      (p.name, why) ∈ result.explanations ∧ why.explained = true

/-- What a clean night has checked: every pair of the configuration. -/
structure Checked (settings : NightSettings) (world : World R T) (night : Night)
    (run : ParallelRun) (result : NightResult) : Prop where
  tables : ∀ p ∈ settings.config.tables,
    ComparedAndPassed world settings night run result (wantedTable settings.schemas p)
  reports : ∀ p ∈ settings.config.reports, ∃ w,
    wantedReport settings.schemas world.catalogues.graph p = .ok w ∧
      ComparedAndPassed world settings night run result w ∧ ReportExplained run result p
  explained : ∀ e ∈ result.explanations, e.2.explained = true

/-- The result of a night, and where its parts come from. -/
structure Appended (settings : NightSettings) (world : World R T) (night : Night)
    (run run' : ParallelRun) (wanted : List Wanted) (result : NightResult) : Prop where
  results : run'.results = run.results ++ [result]
  tonight : result.night = night
  configured : wantedPairs settings.config settings.schemas world.catalogues.graph = .ok wanted
  lined : ∀ w ∈ wanted, ∀ spec, w.spec world.catalogues = .ok spec →
    ∃ r ∈ result.pairs, compare settings world night run'.rules (asOfTonight night spec) = .ok r
  drifted : ∀ w ∈ wanted, ∀ reason, w.spec world.catalogues = .error reason →
    driftedResult ⟨w.stub, reason⟩ ∈ result.pairs
  reports : ∃ cells rows, ∀ r ∈ result.pairs, r.spec.level = .report →
    ∃ why, explain r.spec r.diff (dictGet run'.lineage r.spec.name).join cells rows = .ok why ∧
      (r.spec.name, why) ∈ result.explanations
  unexplained : result.unexplained =
    (result.explanations.filter fun e => !e.2.explained).map Prod.fst

theorem appended_of_call (h : run.call settings world night = .ok run') :
    ∃ wanted result, Appended settings world night run run' wanted result := by
  simp only [ParallelRun.call, ParallelRun.loadSpecs, loadPairs, bind_eq_ok, pure_eq_ok] at h
  obtain ⟨_, ⟨_, ⟨wanted, hwanted, rfl⟩, rfl⟩, compared, hcompared, grade, -, cells, -,
    explanations, hexplained, rfl⟩ := h
  refine ⟨wanted, _, rfl, rfl, hwanted, ?_, ?_, ?_, rfl⟩
  · intro w hw spec hspec
    have hlined : spec ∈ linedUp world.catalogues wanted := mem_linedUp.mpr ⟨w, hw, hspec⟩
    obtain ⟨r, hr, hcompare⟩ := exists_image_of_mem hcompared (List.mem_map_of_mem hlined)
    exact ⟨r, List.mem_append_left _ hr, hcompare⟩
  · intro w hw reason hreason
    apply List.mem_append_right
    have hdrift : (⟨w.stub, reason⟩ : Drift) ∈ driftedOf world.catalogues wanted :=
      mem_driftedOf.mpr ⟨w, hw, reason, hreason, rfl⟩
    exact List.mem_map_of_mem hdrift
  · refine ⟨cells, differingRows ((compared ++ (driftedOf world.catalogues wanted).map
      driftedResult).filter fun p => p.spec.level = .table) (driftedOf world.catalogues wanted),
      fun r hr hlevel => ?_⟩
    obtain ⟨e, he, hone⟩ := exists_image_of_mem hexplained
      (List.mem_filter.mpr ⟨hr, decide_eq_true hlevel⟩)
    obtain ⟨why, hwhy, heq⟩ := bind_eq_ok.mp hone
    obtain rfl := pure_eq_ok.mp heq
    exact ⟨why, hwhy, he⟩

/-- A drifted pair makes its night unclean: it fails. -/
theorem not_passed_of_drifted (drift : Drift) :
    (driftedResult drift).verdict.passed = false := rfl

/-- **In a clean night every pair that is wanted was compared and passed.** -/
theorem compared_of_clean {result : NightResult}
    (happended : Appended settings world night run run' wanted result)
    (hclean : result.clean = true) {w : Wanted} (hw : w ∈ wanted) :
    ComparedAndPassed world settings night run' result w := by
  rw [NightResult.clean, Bool.and_eq_true, List.all_eq_true] at hclean
  cases hspec : w.spec world.catalogues with
  | ok spec =>
    obtain ⟨r, hr, hcompare⟩ := happended.lined w hw spec hspec
    exact ⟨spec, r, hspec, hcompare, hr, hclean.1 r hr⟩
  | error reason =>
    -- The pair drifted, and its failed result is one of the night's.
    have hpassed := hclean.1 _ (happended.drifted w hw reason hspec)
    rw [not_passed_of_drifted] at hpassed
    cases hpassed

theorem explained_of_clean {result : NightResult}
    (happended : Appended settings world night run run' wanted result)
    (hclean : result.clean = true) : ∀ e ∈ result.explanations, e.2.explained = true := by
  rw [NightResult.clean, Bool.and_eq_true, happended.unexplained, List.isEmpty_iff,
    List.map_eq_nil_iff, List.filter_eq_nil_iff] at hclean
  intro e he
  simpa using hclean.2 e he

theorem checked_of_clean {result : NightResult}
    (happended : Appended settings world night run run' wanted result)
    (hclean : result.clean = true) : Checked settings world night run' result := by
  have hexplained := explained_of_clean happended hclean
  refine ⟨fun p hp => ?_, fun p hp => ?_, hexplained⟩
  · apply compared_of_clean happended hclean
    exact (wantedPairs_ok happended.configured).1 p hp
  · obtain ⟨w, hw, hreport⟩ := exists_wantedReport happended.configured hp
    -- The report's result is in the night's list, under the name it was wanted by.
    have hcompared := compared_of_clean happended hclean hw
    refine ⟨w, hreport, hcompared, ?_⟩
    obtain ⟨rfl, hlevel, -⟩ := wantedReport_ok hreport
    obtain ⟨spec, r, hspec, hcompare, hr, -⟩ := hcompared
    obtain ⟨cells, rows, hreports⟩ := happended.reports
    obtain ⟨_, -, hwith⟩ := bind_eq_ok.mp hcompare
    obtain ⟨watermark, heq⟩ := asOfTonight_eq night spec
    obtain ⟨⟨columns, rfl⟩, -⟩ := spec_ok hspec
    have hrspec := (compareWith_spec hwith).trans heq
    have hname : r.spec.name = w.pair.name := by rw [hrspec]; rfl
    have hrlevel : r.spec.level = .report := by rw [hrspec]; exact hlevel
    obtain ⟨why, hwhy, hmem⟩ := hreports r hr hrlevel
    rw [hname] at hwhy hmem
    exact ⟨cells, rows, r, hr, hname, hrlevel, why, hwhy, hmem, hexplained _ hmem⟩

end Night

/-- **The cutover rule is exact**: it is recommended exactly if some nights in a row, as many as
required, are clean, on the earliest night that completes such a run; and a night that the
parallel run appends is clean only if it has checked every pair. -/
theorem cutover_exact (required : ℕ) (hrequired : 1 ≤ required) :
    (∀ results : List NightResult,
      ((Cutover.decide results required).recommended = true ↔
        ∃ i, CompletesCleanRun results required i) ∧
      ∀ i result, results[i]? = some result → CompletesCleanRun results required i →
        (∀ j < i, ¬ CompletesCleanRun results required j) →
        Cutover.decide results required =
          ⟨true, some result.night.index, some result.night.runAt, required, required,
            results.length⟩) ∧
    ∀ (R T : Type) (settings : NightSettings) (world : World R T) (night : Night)
      (run run' : ParallelRun), run.call settings world night = .ok run' →
      ∃ result, run'.results = run.results ++ [result] ∧ result.night = night ∧
        (result.clean = true → Checked settings world night run' result) := by
  refine ⟨fun results => ⟨⟨fun hyes => ?_, fun hruns => ?_⟩, ?_⟩, ?_⟩
  · by_contra hno
    rw [decide_of_none hrequired fun i hi => hno ⟨i, hi⟩] at hyes
    cases hyes
  · obtain ⟨i, result, hresult, hcompletes, hearliest⟩ := exists_earliest hruns hrequired
    rw [decide_of_earliest hrequired hcompletes hearliest hresult]
  · intro i result hresult hcompletes hearliest
    exact decide_of_earliest hrequired hcompletes hearliest hresult
  · intro R T settings world night run run' hcall
    obtain ⟨wanted, result, happended⟩ := appended_of_call hcall
    exact ⟨result, happended.results, happended.tonight, checked_of_clean happended⟩

private def nightOf (index : ℕ) (unexplained : List String) : NightResult where
  night := ⟨index, index, [], [], none⟩
  pairs := []
  grade := ⟨0, 0, 0, 0, 0, []⟩
  unexplained := unexplained
  explanations := []

/-- Two clean nights are required: an unexplained report on the second starts the count again. -/
theorem cutover_exact_two :
    1 ≤ 2 ∧ Cutover.decide [nightOf 0 [], nightOf 1 ["sales_daily"], nightOf 2 [], nightOf 3 [],
      nightOf 4 []] 2 = ⟨true, some 3, some 3, 2, 2, 5⟩ := by
  refine ⟨by decide, ?_⟩
  apply ((cutover_exact 2 (by decide)).1 _).2 3 (nightOf 3 []) rfl
  · refine ⟨by decide, fun j hlow hhigh => ?_⟩
    obtain rfl | rfl : j = 2 ∨ j = 3 := by omega
    · exact ⟨nightOf 2 [], rfl, rfl⟩
    · exact ⟨nightOf 3 [], rfl, rfl⟩
  · -- Each of the earlier nights has an unclean one, or none at all, just before it.
    rintro j hj ⟨hle, hclean⟩
    obtain rfl | rfl : j = 1 ∨ j = 2 := by omega
    · obtain ⟨r, hr, hgood⟩ := hclean 1 (by decide) (by decide)
      obtain rfl : nightOf 1 ["sales_daily"] = r := Option.some.inj hr
      cases hgood
    · obtain ⟨r, hr, hgood⟩ := hclean 1 (by decide) (by decide)
      obtain rfl : nightOf 1 ["sales_daily"] = r := Option.some.inj hr
      cases hgood

end PlatformOps.Reconcile
