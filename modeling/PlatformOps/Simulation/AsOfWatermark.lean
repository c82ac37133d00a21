import PlatformOps.Reconcile.Parallel
import PlatformOps.Reconcile.Undisturbed
import PlatformOps.Simulation.ReadRows

/-!
# The Copy and the Comparison at the Watermark

A load reads the rows stamped up to its `until` in whole seconds, and records the
`until` with its microseconds; the comparison counts the rows up to what was
recorded. The two agree exactly if no legacy row is stamped in the fraction of a
second between (`watermarkAgrees_iff`).
-/

namespace PlatformOps.Simulation

open Machine Reconcile

variable {V : Type}

/-- A legacy table's pair, as a night compares it: as of the table's recorded watermark
(`ParallelRun._as_of`), by its `updated_at`. -/
structure NightlyPair (w : World V) (t : Table) (engine : PostgresEngine (Row V)) (night : Night)
    (spec : TableSpec) : Prop where
  level : spec.level = .table
  recorded : dictGet night.watermarks spec.name = w.watermark t
  changedAt : spec.changedAt ≠ ""
  stamps : ∀ r, engine.changedAt spec.changedAt r = some r.updatedAt

/-- **The copy and the comparison agree on the watermark**: the legacy rows the loads have read
are those that are compared, so a copy that holds what was read has no missing and no in-flight
key. -/
def WatermarkAgrees [DecidableEq V] (s : Seen V) (t : Table) : Prop :=
  ∀ engine night spec, NightlyPair s.world t engine night spec →
    (∀ r ∈ s.world.legacy t,
      r ∈ s.read t ↔ r ∈ relation engine (asOfTonight night spec) (s.world.legacy t)) ∧
    ∀ (T : Type) (c : Comparison (Row V) T), c.engine = engine → c.table = asOfTonight night spec →
      c.legacy = ⟨s.world.legacy t, []⟩ →
      c.copyRows.Perm (((s.world.legacy t).filter (· ∈ s.read t)).map (canonicalRow c.source)) →
      ∃ result connector, c.run = .ok (result, connector) ∧
        result.missing = [] ∧ result.inFlight = []

section Agrees

variable {s : Seen V} {w : World V} {t : Table} {engine : PostgresEngine (Row V)} {night : Night}
  {spec : TableSpec} {mark : Timestamp}

theorem NightlyPair.asOfTonight_eq (hpair : NightlyPair w t engine night spec)
    (hmark : w.watermark t = some mark) :
    asOfTonight night spec = { spec with watermark := some mark } := by
  rw [asOfTonight, hpair.level, hpair.recorded, hmark]

theorem NightlyPair.asOf_eq (hpair : NightlyPair w t engine night spec) (mark : Timestamp) :
    asOf { spec with watermark := some mark } = true := by
  simp [asOf, hpair.changedAt]

/-- The rows that are compared are those stamped up to the recorded watermark. -/
theorem mem_relation_iff (hpair : NightlyPair w t engine night spec)
    (hmark : w.watermark t = some mark) {r : Row V} :
    r ∈ relation engine (asOfTonight night spec) (w.legacy t) ↔
      r ∈ w.legacy t ∧ r.updatedAt ≤ mark := by
  rw [hpair.asOfTonight_eq hmark, relation, if_pos (hpair.asOf_eq mark), List.mem_filter]
  simp [changedAfter, hpair.stamps]

/-- Any table has a pair that a night compares. -/
theorem exists_nightlyPair (w : World V) (t : Table) :
    ∃ engine night spec, NightlyPair w t engine night spec := by
  refine ⟨⟨⟨fun _ _ _ => none⟩, fun _ r => some r.updatedAt⟩,
    ⟨0, 0, [], ((w.watermark t).map fun mark => ("", mark)).toList, none⟩,
    { name := "", level := .table, key := [], columns := [], source := "", target := ""
      changedAt := "updated_at" }, rfl, ?_, by decide, fun _ => rfl⟩
  cases w.watermark t <;> rfl

variable [DecidableEq V]

/-- The rows of a table that are compared, as a filter of the table. -/
private theorem relation_eq_filter_mem {table : TableSpec} {rows : List (Row V)} :
    relation engine table rows = rows.filter (· ∈ relation engine table rows) := by
  unfold relation
  split
  · refine List.filter_congr fun r hr => ?_
    simp [hr]
  · exact (List.filter_eq_self.mpr fun r hr => decide_eq_true hr).symm

/-- Rows that are all read are matched in the copy. -/
theorem matched_of_read (hread : ∀ r ∈ s.world.legacy t,
      r ∈ s.read t ↔ r ∈ relation engine (asOfTonight night spec) (s.world.legacy t))
    {T : Type} (c : Comparison (Row V) T) (hengine : c.engine = engine)
    (htable : c.table = asOfTonight night spec) (hlegacy : c.legacy = ⟨s.world.legacy t, []⟩)
    (hcopy : c.copyRows.Perm
      (((s.world.legacy t).filter (· ∈ s.read t)).map (canonicalRow c.source))) :
    ∃ result connector, c.run = .ok (result, connector) ∧
      result.missing = [] ∧ result.inFlight = [] := by
  obtain ⟨result, connector, hrun, houtcome⟩ := diffTable_outcome c.md5 c.ceilLog
    c.leafWidth c.copy c.renders c.copyRenders c.legacy
  -- What is compared is what was read, in the legacy table's order.
  have hrows : relation engine (asOfTonight night spec) (s.world.legacy t) =
      (s.world.legacy t).filter (· ∈ s.read t) := by
    have hfilter : (s.world.legacy t).filter
        (· ∈ relation engine (asOfTonight night spec) (s.world.legacy t)) =
        (s.world.legacy t).filter (· ∈ s.read t) := by
      refine List.filter_congr fun r hr => ?_
      simp only [hread r hr]
    rw [← hfilter]
    exact relation_eq_filter_mem
  rw [hlegacy] at houtcome
  have hperm : (sourceRows c.engine c.table c.source (s.world.legacy t)).Perm
      (targetRows c.target c.copy) := by
    rw [sourceRows, hengine, htable, hrows]
    exact hcopy.symm
  obtain ⟨hmissing, -, hinFlight⟩ := all_matched_of_outcome houtcome hperm
  exact ⟨result, connector, hrun, hmissing, hinFlight⟩

/-- **The watermark**: take any run whose commits are stamped later than the last load of their
table minus the overlap, and whose `until`s do not decrease. Right after a load of a table, with
no commit to it since it was read, the watermark is the load's `until`; and the copy and the
comparison agree on it exactly if every legacy row up to `until` is stamped no later than `until`
in whole seconds, and is not a row the delivered job loses. -/
theorem watermarkAgrees_iff {job : Job V} {legacy : Table → List (Row V)}
    {before after : List (Event V)} {s s' : Seen V} {f : Frame} {upTo : Timestamp} {full : Bool}
    {skip : List Table} {nulled : List NulledColumn} {t : Table} {todo : List Statement}
    (hbefore : Run (seenStep job) (Orderly job) (Seen.init legacy) before s)
    (hframe : s.world.running = some f) (hcall : f.call = .load upTo full skip nulled)
    (hnext : f.todo = .pull t :: todo)
    (hafter : Run (seenStep job) (Orderly job) s (.statement :: after) s')
    (hquiet : ∀ e ∈ after, Completing t e) (hdone : s'.world.running = none) :
    s'.world.watermark t = some upTo ∧
      (WatermarkAgrees s' t ↔ ∀ r ∈ s'.world.legacy t, r.updatedAt ≤ upTo →
        r.updatedAt ≤ Job.ts upTo ∧ job.dropped t r = false) := by
  obtain ⟨hmark, hread⟩ := read_iff hbefore hframe (by rw [hcall]) hnext hafter hquiet hdone
  refine ⟨hmark, fun hagrees r hr hle => ?_, fun hwhole engine night spec hpair => ?_⟩
  · -- Some nightly pair compares the rows up to the watermark: those were read.
    obtain ⟨engine, night, spec, hpair⟩ := exists_nightlyPair s'.world t
    apply (hread r hr).mp
    apply ((hagrees engine night spec hpair).1 r hr).mpr
    exact (mem_relation_iff hpair hmark).mpr ⟨hr, hle⟩
  · -- Up to the watermark, rounding down to seconds and the losses leave no row out.
    have hsame : ∀ r ∈ s'.world.legacy t,
        r ∈ s'.read t ↔ r ∈ relation engine (asOfTonight night spec) (s'.world.legacy t) := by
      intro r hr
      rw [hread r hr, mem_relation_iff hpair hmark]
      constructor
      · intro hcut
        exact ⟨hr, hcut.1.trans (Job.ts_le upTo)⟩
      · intro hcompared
        exact hwhole r hr hcompared.2
    exact ⟨hsame, fun T c => matched_of_read hsame c⟩

end Agrees

/-! ## Two loads -/

/-- The state a run of the fixed job ends in, its condition checked on the way. -/
def seenAfter (start : Seen String) (es : List (Event String)) : Option (Seen String) :=
  check (seenStep fixedJob) (Orderly fixedJob) start es

/-- A load, up to its read of the customers. -/
def loadUpTo (upTo : Timestamp) : List (Event String) :=
  [.call (.load upTo false [] []), .statement]

/-- One customer is written at the start of time, and loaded until ten. -/
def customerBefore : Seen String :=
  (seenAfter (Seen.init oneCustomer) (loadUpTo (Duration.hours 10))).get (by decide)

def customerLoaded : Seen String :=
  (seenAfter customerBefore (List.replicate 10 .statement)).get (by decide)

theorem watermarkAgrees_whole_second :
    customerLoaded.world.watermark .customers = some (Duration.hours 10) ∧
      WatermarkAgrees customerLoaded .customers := by
  have hafter : Run (seenStep fixedJob) (Orderly fixedJob) customerBefore
      (.statement :: List.replicate 9 .statement) customerLoaded :=
    Run.of_check (Option.some_get _).symm
  have hagrees := watermarkAgrees_iff (f := customerBefore.world.running.get (by decide))
    (Run.of_check (Option.some_get _).symm) (Option.some_get _).symm rfl rfl hafter (by decide) rfl
  exact ⟨hagrees.1, hagrees.2.mpr (by decide)⟩

/-- A customer changed a fifth of a second after ten. -/
def lateInTheSecond : Table → List (Row String)
  | .customers => [⟨1, Duration.hours 10 + 200000, [("email", "ann@example.test")]⟩]
  | _ => []

/-- Loaded until half a second after ten. -/
def lateLoaded : Seen String :=
  (seenAfter (Seen.init lateInTheSecond)
    (loadUpTo (Duration.hours 10 + 500000) ++ List.replicate 10 .statement)).get (by decide)

/-- The load leaves the customer out, and the comparison as of the load's watermark counts it. -/
theorem not_watermarkAgrees_late_in_the_second :
    Run (seenStep fixedJob) (Orderly fixedJob) (Seen.init lateInTheSecond)
      (loadUpTo (Duration.hours 10 + 500000) ++ List.replicate 10 .statement) lateLoaded ∧
    lateLoaded.world.running = none ∧
    lateLoaded.world.watermark .customers = some (Duration.hours 10 + 500000) ∧
    ¬ WatermarkAgrees lateLoaded .customers := by
  refine ⟨Run.of_check (Option.some_get _).symm, rfl, rfl, fun hagrees => ?_⟩
  obtain ⟨engine, night, spec, hpair⟩ := exists_nightlyPair lateLoaded.world .customers
  have hmem : ⟨1, Duration.hours 10 + 200000, [("email", "ann@example.test")]⟩ ∈
      lateLoaded.world.legacy .customers := List.mem_singleton.mpr rfl
  have hcompared := (mem_relation_iff hpair rfl).mpr ⟨hmem, by decide⟩
  have hunread : lateLoaded.read .customers = [] := by decide
  have hread := ((hagrees engine night spec hpair).1 _ hmem).mpr hcompared
  rw [hunread] at hread
  cases hread

end PlatformOps.Simulation
