import PlatformOps.Simulation.Arrivals
import PlatformOps.Simulation.GroundTruth
import PlatformOps.Simulation.LandedFixes

/-!
# What the Reconciliation Is Told

Every night of the parallel run the reconciliation is told when it ran, up to where each
table was copied, and what is wrong that night: what the delivered job gets wrong until
the fixed one ships, and the one-off fault planted that night, which is repaired the next
morning. It compares the two sides blind and is graded against this.

- `one_off_repaired_next_morning`: every one-off fault is planted once, after the fixed
  job has shipped, and repaired on the next morning, before production.
- `nights_told`: a night is told exactly what holds that night.
-/

namespace PlatformOps.Simulation

open Listing Reconcile

/-! ## The schedule of the one-off faults -/

theorem mem_nightsFrom {lastNight night : ℕ} {l : List OneOffFault} {entry : ℕ × OneOffFault}
    (h : entry ∈ nightsFrom lastNight night l) :
    night ≤ entry.1 ∧ entry.1 < lastNight ∧ entry.2 ∈ l := by
  induction l generalizing night with
  | nil => cases h
  | cons fault rest ih =>
    rw [nightsFrom] at h
    split at h
    · cases h
    · next hlt =>
      rcases List.mem_cons.mp h with rfl | h
      · exact ⟨le_rfl, not_le.mp hlt, List.mem_cons_self ..⟩
      · obtain ⟨hfirst, hlast, hmem⟩ := ih h
        exact ⟨by omega, hlast, List.mem_cons_of_mem _ hmem⟩

/-- Nights and faults are paired one to one. -/
theorem night_eq_of_faultId_eq {lastNight night : ℕ} {l : List OneOffFault}
    (hids : (l.map OneOffFault.faultId).Nodup) {entry entry' : ℕ × OneOffFault}
    (h : entry ∈ nightsFrom lastNight night l) (h' : entry' ∈ nightsFrom lastNight night l)
    (hid : entry.2.faultId = entry'.2.faultId) : entry.1 = entry'.1 := by
  induction l generalizing night with
  | nil => cases h
  | cons fault rest ih =>
    rw [List.map_cons, List.nodup_cons] at hids
    rw [nightsFrom] at h h'
    split at h
    · cases h
    · next hlt =>
      rw [if_neg hlt] at h'
      have hother : ∀ {e}, e ∈ nightsFrom lastNight (night + 2) rest →
          e.2.faultId ≠ fault.faultId := by
        intro e he heq
        exact hids.1 (heq ▸ List.mem_map_of_mem (mem_nightsFrom he).2.2)
      rcases List.mem_cons.mp h with rfl | h <;> rcases List.mem_cons.mp h' with rfl | h'
      · rfl
      · exact absurd hid.symm (hother h')
      · exact absurd hid (hother h)
      · exact ih hids.2 h h'

theorem nodup_faultId_oneOffCatalogue : (oneOffCatalogue.map OneOffFault.faultId).Nodup := by
  decide

namespace Timeline

variable {settings : CompanySettings} {totalDays : ℕ} {entry : ℕ × OneOffFault}

/-- A one-off fault comes after the fixed job has shipped, and in time to be repaired. -/
theorem mem_faults (h : entry ∈ (Timeline.of settings totalDays).faults) :
    (Timeline.of settings totalDays).fixNight + 2 ≤ entry.1 ∧
      entry.1 + 1 < (Timeline.of settings totalDays).productionStart := by
  simp only [Timeline.of] at h ⊢
  split at h
  · next hne =>
    rw [if_pos hne]
    obtain ⟨hfirst, hlast, -⟩ := mem_nightsFrom h
    exact ⟨hfirst, by omega⟩
  · cases h

theorem night_unique {entry' : ℕ × OneOffFault}
    (h : entry ∈ (Timeline.of settings totalDays).faults)
    (h' : entry' ∈ (Timeline.of settings totalDays).faults)
    (hid : entry.2.faultId = entry'.2.faultId) : entry.1 = entry'.1 := by
  simp only [Timeline.of] at h h'
  split at h
  · next hne =>
    simp only [if_pos hne] at h'
    exact night_eq_of_faultId_eq nodup_faultId_oneOffCatalogue h h' hid
  · cases h

/-- A parallel run has nights of the delivered job. -/
theorem parallelStart_lt_fixNight (h : (Timeline.of settings totalDays).parallelStart <
    (Timeline.of settings totalDays).productionStart) :
    (Timeline.of settings totalDays).parallelStart <
      (Timeline.of settings totalDays).fixNight := by
  have hone := settings.one_le_fixAfterNights
  simp only [Timeline.of] at h ⊢
  generalize totalDays - min totalDays (settings.productionWeeks * 7) = productionStart at h ⊢
  have hle : min productionStart (settings.parallelRunWeeks * 7) ≤ productionStart :=
    min_le_left _ _
  generalize min productionStart (settings.parallelRunWeeks * 7) = nights at h hle ⊢
  rw [if_pos (by omega)]
  exact lt_min (by omega) h

/-- The delivered job runs on the parallel nights before the fixed one ships. -/
theorem delivered_of_parallel {night : ℕ}
    (h : (Timeline.of settings totalDays).parallel night = true) :
    (Timeline.of settings totalDays).delivered night =
        decide (night < (Timeline.of settings totalDays).fixNight) ∧
      ((Timeline.of settings totalDays).delivered (night - 1) &&
        !(Timeline.of settings totalDays).delivered night) =
        decide (night = (Timeline.of settings totalDays).fixNight) := by
  simp only [Timeline.parallel, Bool.and_eq_true, decide_eq_true_eq] at h
  have hships := parallelStart_lt_fixNight (h.1.trans_lt h.2)
  generalize Timeline.of settings totalDays = t at h hships ⊢
  refine ⟨by simp [Timeline.delivered, hships], ?_⟩
  rw [Bool.eq_iff_iff]
  simp only [Timeline.delivered, hships, decide_true, Bool.true_and, Bool.and_eq_true,
    Bool.not_eq_true', decide_eq_true_eq, decide_eq_false_iff_not]
  omega

end Timeline

/-! ## What the log says of a night -/

def Op.toldNight : Op → Option Company.Night
  | .night told => some told
  | _ => none

def Op.oneOff : Op → Option Planted
  | .plantOneOff planted => some planted
  | _ => none

def Op.oneOffRepair : Op → Option Planted
  | .repair planted _ => some planted
  | _ => none

/-- The nights the reconciliation was told of. -/
def Log.nights (log : Log) : List Company.Night := log.project Op.toldNight

/-- The one-off faults, each with the day on which it was planted. -/
def Log.oneOffs (log : Log) : List (ℕ × Planted) := log.onDays Op.oneOff

/-- The repairs of one-off faults, each with its day. -/
def Log.oneOffRepairs (log : Log) : List (ℕ × Planted) := log.onDays Op.oneOffRepair

/-- Every load of a table, with the time up to which it read. -/
def Log.loads (log : Log) : List (Table × Timestamp) := log.flatMap fun entry => entry.2.recorded

theorem watermarks_eq {log : Log} {upTo : Timestamp}
    (hlast : ∀ load ∈ log.loads, load.2 ≤ upTo) (htables : ∀ t ∈ tables, (t, upTo) ∈ log.loads) :
    watermarks log = tables.map fun t => (t.text, upTo) := by
  have hmax : ∀ t ∈ tables, ((log.loads.filter fun l => l.1 = t).map Prod.snd).max? = some upTo := by
    intro t ht
    rw [List.max?_eq_some_iff]
    constructor
    · refine List.mem_map.mpr ⟨(t, upTo), List.mem_filter.mpr ⟨htables t ht, ?_⟩, rfl⟩
      exact decide_eq_true rfl
    · intro time htime
      obtain ⟨load, hload, rfl⟩ := List.mem_map.mp htime
      exact hlast load (List.mem_filter.mp hload).1
  have hmap : tables.map (fun t => (t.text, upTo)) =
      tables.filterMap fun t => some (t.text, upTo) := by
    rw [List.filterMap_eq_map']
  rw [watermarks, hmap]
  refine List.filterMap_congr fun t ht => ?_
  change Option.map _ (((log.loads.filter fun l => l.1 = t).map Prod.snd).max?) = _
  rw [hmax t ht]
  rfl

namespace Company

variable (c : Company) {s s' : RunState} {index days : ℕ}

/-! ## One day -/

theorem happening_says_nothing {op : Op} (h : op.isHappening = true) :
    op.toldNight = none ∧ op.oneOff = none ∧ op.oneOffRepair = none := by
  cases op with
  | ingest call => exact ⟨rfl, rfl, rfl⟩
  | _ => first | exact ⟨rfl, rfl, rfl⟩ | cases h

theorem says_morning : (c.morning index s).log.nights = s.log.nights ∧
    (c.morning index s).log.oneOffs = s.log.oneOffs ∧
    (c.morning index s).log.oneOffRepairs =
      s.log.oneOffRepairs ++ (s.planted.map fun p => (index, p)).toList := by
  rw [log_morning]
  cases s.planted <;>
    simp [Log.nights, Log.oneOffs, Log.oneOffRepairs, Op.toldNight, Op.oneOff, Op.oneOffRepair]

theorem says_happened {m : RunState} (h : Happens index s m) :
    m.log.nights = s.log.nights ∧ m.log.oneOffs = s.log.oneOffs ∧
      m.log.oneOffRepairs = s.log.oneOffRepairs := by
  obtain ⟨ops, hops, hlog⟩ := h.log
  rw [hlog, Log.nights, Log.oneOffs, Log.oneOffRepairs, Log.project_append, Log.onDays_append,
    Log.onDays_append, Log.project_eq_nil hops fun op hop => (happening_says_nothing hop).1,
    Log.onDays_eq_nil hops fun op hop => (happening_says_nothing hop).2.1,
    Log.onDays_eq_nil hops fun op hop => (happening_says_nothing hop).2.2]
  simp [Log.nights, Log.oneOffs, Log.oneOffRepairs]

/-- What an evening says: the fault it plants, and the night, if it is compared. -/
theorem says_evening (index : ℕ) (backfill : Bool) (repaired : String) (m : RunState) :
    (c.evening index backfill repaired m).log.nights = m.log.nights ++
        (if c.compares index then
          [c.nightOf index backfill repaired (c.served index backfill m)] else []) ∧
      (c.evening index backfill repaired m).log.oneOffs = m.log.oneOffs ++
        ((c.plantedOn index (c.copied index backfill m).log).map fun p => (index, p)).toList ∧
      (c.evening index backfill repaired m).log.oneOffRepairs = m.log.oneOffRepairs := by
  have hfreeze : (c.freezeOps index).filterMap Op.toldNight = [] ∧
      (c.freezeOps index).filterMap Op.oneOff = [] ∧
      (c.freezeOps index).filterMap Op.oneOffRepair = [] := by
    rw [freezeOps]
    split <;> exact ⟨rfl, rfl, rfl⟩
  have hbuild : ∀ {s : RunState}, (c.buildOps index backfill s).filterMap Op.toldNight = [] ∧
      (c.buildOps index backfill s).filterMap Op.oneOff = [] ∧
      (c.buildOps index backfill s).filterMap Op.oneOffRepair = [] := by
    intro s
    rw [buildOps, productionOps]
    cases c.found index s <;> split_ifs <;> exact ⟨rfl, rfl, rfl⟩
  have hcopy : (c.copyOps index backfill m).filterMap Op.toldNight = [] ∧
      (c.copyOps index backfill m).filterMap Op.oneOff =
        (c.plantedOn index (c.copied index backfill m).log).toList ∧
      (c.copyOps index backfill m).filterMap Op.oneOffRepair = [] := by
    rw [copyOps]
    cases c.plantedOn index (c.copied index backfill m).log <;> split <;> exact ⟨rfl, rfl, rfl⟩
  rw [log_evening]
  generalize c.nightOf index backfill repaired (c.served index backfill m) = night
  have hnight : (if c.compares index then [Op.night night] else []).filterMap Op.toldNight =
      (if c.compares index then [night] else []) ∧
      (if c.compares index then [Op.night night] else []).filterMap Op.oneOff = [] ∧
      (if c.compares index then [Op.night night] else []).filterMap Op.oneOffRepair = [] := by
    split <;> exact ⟨rfl, rfl, rfl⟩
  simp only [Log.nights, Log.oneOffs, Log.oneOffRepairs, Log.project_append, Log.onDays_append,
    Log.project_dated, Log.onDays_dated, List.filterMap_append, hfreeze, hbuild, hcopy, hnight]
  refine ⟨by simp [Op.toldNight, filterMap_cons_toList], ?_, by simp [Op.oneOffRepair]⟩
  cases c.plantedOn index (c.copied index backfill m).log <;> simp [Op.oneOff]

/-! ## The one-off faults of a run -/

/-- What holds of the one-off faults between two days: all but last night's are repaired. -/
structure Mending (days : ℕ) (s : RunState) : Prop where
  repaired : ∃ done : List (ℕ × Planted),
    s.log.oneOffs = done ++ (s.planted.map fun p => (days - 1, p)).toList ∧
    s.log.oneOffRepairs = done.map (fun entry => (entry.1 + 1, entry.2)) ∧
    ∀ entry ∈ done, entry.1 + 1 < days
  scheduled : s.log.oneOffs.map (fun entry => (entry.1, entry.2.fault)) =
    (List.range days).filterMap fun day => (c.timeline.faults.lookup day).map fun f => (day, f)
  tonight : s.planted.map Planted.fault =
    if days = 0 then none else c.timeline.faults.lookup (days - 1)

private theorem mending_day (h : c.Mending index s) (hok : c.runDay s index = .ok s') :
    c.Mending (index + 1) s' := by
  obtain ⟨m, hm, rfl⟩ := c.runDay_eq_ok hok
  generalize (s.delivered && !c.timeline.delivered index) = backfill
  generalize (s.planted.elim "" fun p => p.fault.faultId) = repaired
  have hhappens := c.happens_happened hm
  obtain ⟨-, honeOffs, hrepairs⟩ := says_happened hhappens
  obtain ⟨-, hmorning, hmorning'⟩ := @says_morning c s index
  obtain ⟨-, hevening, hevening'⟩ := c.says_evening index backfill repaired m
  rw [honeOffs, hmorning] at hevening
  rw [hrepairs, hmorning'] at hevening'
  have hplanted : (c.evening index backfill repaired m).planted =
      c.plantedOn index (c.copied index backfill m).log := by
    rw [evening_eq]
    simp [hhappens.planted]
  have hfault : (c.plantedOn index (c.copied index backfill m).log).map Planted.fault =
      c.timeline.faults.lookup index := by
    rw [plantedOn, Option.map_map]
    exact Option.map_id'
  obtain ⟨done, hdone, hdone', hbefore⟩ := h.repaired
  refine ⟨⟨s.log.oneOffs, ?_, ?_, ?_⟩, ?_, ?_⟩
  · rw [hevening, hplanted, Nat.add_sub_cancel]
  · -- last night's fault is repaired this morning
    rw [hevening', hdone', hdone, List.map_append]
    congr 1
    cases hlast : s.planted with
    | none => rfl
    | some p =>
      have hne : index ≠ 0 := by
        rintro rfl
        have htonight := h.tonight
        rw [hlast, if_pos rfl] at htonight
        cases htonight
      simp [Nat.sub_add_cancel (Nat.pos_of_ne_zero hne)]
  · intro entry hentry
    rw [hdone, List.mem_append] at hentry
    rcases hentry with hentry | hentry
    · exact (hbefore entry hentry).trans (Nat.lt_succ_self index)
    · rw [Option.mem_toList, Option.map_eq_some_iff] at hentry
      obtain ⟨p, hp, rfl⟩ := hentry
      have htonight := h.tonight
      rw [hp] at htonight
      by_cases hzero : index = 0
      · rw [if_pos hzero] at htonight
        cases htonight
      · change index - 1 + 1 < index + 1
        omega
  · rw [hevening, List.map_append, h.scheduled, List.range_succ, List.filterMap_append]
    congr 1
    rw [filterMap_cons_toList, ← hfault]
    cases c.plantedOn index (c.copied index backfill m).log <;> simp
  · rw [hplanted, hfault, if_neg (Nat.succ_ne_zero index), Nat.add_sub_cancel]

theorem mending_after (hok : c.after days = .ok s) : c.Mending days s := by
  refine c.of_days (I := c.Mending) ?_ (fun _ _ _ => c.mending_day) hok
  exact ⟨⟨[], rfl, rfl, fun _ h => absurd h List.not_mem_nil⟩, rfl, rfl⟩

/-- A planted one-off fault is the one scheduled for its night. -/
theorem Mending.mem_faults (h : c.Mending days s) {entry : ℕ × Planted}
    (hentry : entry ∈ s.log.oneOffs) : (entry.1, entry.2.fault) ∈ c.timeline.faults := by
  have hmem := List.mem_map_of_mem (f := fun entry : ℕ × Planted => (entry.1, entry.2.fault)) hentry
  rw [h.scheduled] at hmem
  obtain ⟨day, -, hday⟩ := List.mem_filterMap.mp hmem
  obtain ⟨fault, hfault, heq⟩ := Option.map_eq_some_iff.mp hday
  rw [← heq]
  exact mem_of_lookup_eq_some hfault

/-- **Every one-off fault lives for one night.** In every run, after any number of days:
the one-off faults planted are those of the schedule, each once, from the second night
after the fixed job has shipped; each is repaired on the next morning, before that day's
copy, and the last of them before production starts. -/
theorem one_off_repaired_next_morning (hok : c.after days = .ok s) :
    s.log.oneOffs.map (fun entry => (entry.1, entry.2.fault)) = (List.range days).filterMap
        (fun day => (c.timeline.faults.lookup day).map fun fault => (day, fault)) ∧
    s.log.oneOffRepairs = (s.log.oneOffs.filter fun entry => entry.1 + 1 < days).map
        (fun entry => (entry.1 + 1, entry.2)) ∧
    (∀ entry ∈ s.log.oneOffs, c.timeline.fixNight + 2 ≤ entry.1 ∧
      entry.1 + 1 < c.timeline.productionStart) ∧
    (s.log.oneOffs.map fun entry => entry.2.fault.faultId).Nodup := by
  have h := c.mending_after hok
  refine ⟨h.scheduled, ?_, fun entry hentry => Timeline.mem_faults (h.mem_faults c hentry), ?_⟩
  · obtain ⟨done, hdone, hdone', hbefore⟩ := h.repaired
    rw [hdone', hdone, List.filter_append, List.filter_eq_self.mpr (by simpa using hbefore)]
    -- last night's is not repaired yet
    have hlast : ((s.planted.map fun p => (days - 1, p)).toList.filter
        fun entry => entry.1 + 1 < days) = [] := by
      rw [List.filter_eq_nil_iff]
      intro entry hentry
      rw [Option.mem_toList, Option.map_eq_some_iff] at hentry
      obtain ⟨p, -, rfl⟩ := hentry
      simp only [decide_eq_true_eq]
      omega
    rw [hlast, List.append_nil]
  · -- the days are apart, and a fault is scheduled for one night only
    have hdays : s.log.oneOffs.Pairwise fun entry entry' => entry.1 < entry'.1 := by
      have hsorted : (s.log.oneOffs.map fun entry => (entry.1, entry.2.fault)).Pairwise
          fun entry entry' => entry.1 < entry'.1 := by
        rw [h.scheduled]
        refine List.Pairwise.filterMap _ ?_ List.pairwise_lt_range
        rintro day day' hlt entry hentry entry' hentry'
        obtain ⟨_, -, rfl⟩ := Option.map_eq_some_iff.mp hentry
        obtain ⟨_, -, rfl⟩ := Option.map_eq_some_iff.mp hentry'
        exact hlt
      rwa [List.pairwise_map] at hsorted
    rw [List.Nodup, List.pairwise_map]
    refine hdays.imp_of_mem fun {entry entry'} hmem hmem' hlt hid => ?_
    exact hlt.ne (Timeline.night_unique (h.mem_faults c hmem) (h.mem_faults c hmem') hid)

theorem one_off_repaired_two_weeks : ∃ s, twoWeeks.after 14 = .ok s ∧
    s.log.oneOffs.map (fun entry => (entry.1, entry.2.fault.faultId)) = [(5, "M1")] ∧
    s.log.oneOffRepairs = (s.log.oneOffs.filter fun entry => entry.1 + 1 < 14).map
      (fun entry => (entry.1 + 1, entry.2)) := by
  refine ⟨_, rfl, by decide, ?_⟩
  exact (@one_off_repaired_next_morning twoWeeks _ 14 rfl).2.1

/-! ## The nights of a run -/

/-- What a night is told, in a run with this log. -/
structure Told (log : Log) (night : Company.Night) : Prop where
  runAt : night.runAt = c.runAt night.index
  frozenAt : night.frozenAt = some night.runAt
  /-- Every table was copied up to the run. -/
  watermarks : night.watermarks = tables.map fun t => (t.text, night.runAt)
  delivered : night.delivered = decide (night.index < c.timeline.fixNight)
  backfilled : night.backfilled = decide (night.index = c.timeline.fixNight)
  planted : night.planted = ((c.timeline.faults.lookup night.index).elim "" OneOffFault.faultId)
  repaired : night.repaired = if night.index = 0 then "" else
    (c.timeline.faults.lookup (night.index - 1)).elim "" OneOffFault.faultId
  /-- The delivered job's truth is asked for when that night has been built. -/
  truthDelivered : night.delivered = true →
    ∃ before, before <+: log ∧ night.truth = c.surroundings.deliveredTruth before night.runAt
  truthPlanted : night.delivered = false →
    night.truth = (log.oneOffs.lookup night.index).elim [] Planted.truth

/-- What comes later does not change what a night was told. -/
theorem Told.later {log log' : Log} {night : Company.Night} (h : c.Told log night)
    (hlog : log <+: log') {later : List (ℕ × Planted)}
    (honeOffs : log'.oneOffs = log.oneOffs ++ later)
    (hlater : ∀ entry ∈ later, night.index < entry.1) : c.Told log' night := by
  refine ⟨h.1, h.2, h.3, h.4, h.5, h.6, h.7, fun hdelivered => ?_, fun hfixed => ?_⟩
  · obtain ⟨before, hbefore, htruth⟩ := h.truthDelivered hdelivered
    exact ⟨before, hbefore.trans hlog, htruth⟩
  · have hnone : later.lookup night.index = none := by
      rw [List.lookup_eq_none_iff]
      intro entry hentry
      simpa using (hlater entry hentry).ne
    rw [h.truthPlanted hfixed, honeOffs, List.lookup_append, hnone, Option.or_none]

/-- What holds before production: nothing is broken, and no fix is on its way. -/
private structure Calm (days : ℕ) (s : RunState) : Prop where
  pending : s.pending = []
  active : s.active = []
  loads : ∀ load ∈ s.log.loads, load.2 ≤ c.runAt days

private theorem Calm.nothing_happened (h : c.Calm index s)
    (hlt : index < c.timeline.productionStart) : c.happened index s.pending = [] := by
  have hfaults : c.faultsBefore index = [] := by
    rw [List.eq_nil_iff_forall_not_mem]
    intro fault hfault
    exact absurd (c.productionStart_lt hfault) (by omega)
  rw [happened, hfaults, h.pending]
  rfl

/-- What an evening loads: its copy. -/
theorem loads_served (index : ℕ) (backfill : Bool) (m : RunState) :
    (c.served index backfill m).log.loads =
      m.log.loads ++ (c.copyCall index backfill m.active).recorded := by
  have hfreeze : (c.freezeOps index).flatMap Op.recorded = [] := by
    rw [freezeOps]
    split <;> rfl
  have hbuild : ∀ s, (c.buildOps index backfill s).flatMap Op.recorded = [] := by
    intro s
    rw [buildOps, productionOps]
    cases c.found index s <;> split_ifs <;> rfl
  have hcopy : (c.copyOps index backfill m).flatMap Op.recorded =
      (c.copyCall index backfill m.active).recorded := by
    rw [copyOps]
    cases c.plantedOn index (c.copied index backfill m).log <;> split <;> simp [Op.recorded]
  rw [log_served, Log.loads, Log.loads, List.flatMap_append, dated, List.flatMap_map,
    List.flatMap_append, List.flatMap_append, List.flatMap_append, hfreeze, hcopy, hbuild]
  simp [Op.recorded]

theorem loads_evening (index : ℕ) (backfill : Bool) (repaired : String) (m : RunState) :
    (c.evening index backfill repaired m).log.loads = (c.served index backfill m).log.loads := by
  rw [evening_served, endOfDay, RunState.log_emit, reconcileTonight_eq, RunState.log_emit]
  split <;> simp [Log.loads, Op.recorded]

theorem loads_morning : (c.morning index s).log.loads = s.log.loads := by
  rw [log_morning]
  cases s.planted <;> simp [Log.loads, Op.recorded]

/-- With nothing broken, a night's copy loads every table up to its run. -/
theorem recorded_copyCall (index : ℕ) (backfill : Bool) :
    (c.copyCall index backfill []).recorded = tables.map fun t => (t, c.runAt index) := by
  cases backfill <;> simp [copyCall, nightlyLoad, Call.recorded]

private theorem Calm.loads_tonight (h : c.Calm index s) (backfill : Bool) :
    (c.served index backfill (c.morning index s)).log.loads =
      s.log.loads ++ tables.map fun t => (t, c.runAt index) := by
  rw [loads_served, loads_morning, active_morning, h.active, recorded_copyCall]

private theorem calm_day (h : c.Calm index s) (hlt : index < c.timeline.productionStart)
    (hok : c.runDay s index = .ok s') : c.Calm (index + 1) s' := by
  have hprod : c.timeline.production index = false := by
    simpa [Timeline.production] using hlt
  obtain ⟨m, hm, rfl⟩ := c.runDay_eq_ok hok
  rw [h.nothing_happened c hlt] at hm
  obtain rfl := Except.ok.inj hm
  refine ⟨?_, ?_, fun load hload => ?_⟩
  · rw [evening_eq, pending_morning, h.pending]
    simp [found, hprod]
  · rw [evening_eq]
    exact h.active
  · rw [loads_evening, h.loads_tonight, List.mem_append, List.mem_map] at hload
    have hnext : c.runAt index ≤ c.runAt (index + 1) :=
      c.le_runAt_iff.mpr ((c.le_runAt_iff.mp le_rfl).trans (Nat.le_succ index))
    rcases hload with hload | ⟨t, -, rfl⟩
    · exact (h.loads load hload).trans hnext
    · exact hnext

theorem lt_productionStart_of_parallel (h : c.timeline.parallel index = true) :
    index < c.timeline.productionStart := by
  simp only [Timeline.parallel, Bool.and_eq_true, decide_eq_true_eq] at h
  exact h.2

theorem planted_served (index : ℕ) (backfill : Bool) (m : RunState) :
    (c.served index backfill m).planted =
      (c.plantedOn index (c.copied index backfill m).log).or m.planted := by
  rw [served, buildTonight_eq, settled_eq]
  rfl

theorem delivered_served (index : ℕ) (backfill : Bool) (m : RunState) :
    (c.served index backfill m).delivered = (m.delivered && !backfill) := by
  rw [served, buildTonight_eq, settled_eq]
  exact c.delivered_copied m index backfill

/-- **What tonight is told.** -/
private theorem Calm.told (h : c.Calm index s) (hmending : c.Mending index s)
    (hdelivered : s.delivered = c.timeline.delivered (index - 1))
    (hparallel : c.timeline.parallel index = true)
    (hbefore : ∀ entry ∈ s.log.oneOffs, entry.1 < index) {backfill : Bool}
    (hbackfill : backfill = (s.delivered && !c.timeline.delivered index)) {log : Log}
    (hlog : (c.served index backfill (c.morning index s)).log <+: log)
    (honeOffs : log.oneOffs = s.log.oneOffs ++
      ((c.plantedOn index (c.copied index backfill (c.morning index s)).log).map
        fun p => (index, p)).toList) :
    c.Told log (c.nightOf index backfill (s.planted.elim "" fun p => p.fault.faultId)
      (c.served index backfill (c.morning index s))) := by
  obtain ⟨hjob, hships⟩ := Timeline.delivered_of_parallel hparallel
  have htonight : (c.served index backfill (c.morning index s)).delivered =
      decide (index < c.timeline.fixNight) := by
    rw [delivered_served, delivered_morning, hbackfill, hdelivered, delivered_after_copy]
    exact hjob
  have hloads := h.loads_tonight c backfill
  have hplanted := c.planted_served index backfill (c.morning index s)
  rw [planted_morning, Option.or_none] at hplanted
  have hfault : (c.plantedOn index (c.copied index backfill (c.morning index s)).log).map
      Planted.fault = c.timeline.faults.lookup index := by
    rw [plantedOn, Option.map_map]
    exact Option.map_id'
  generalize c.plantedOn index (c.copied index backfill (c.morning index s)).log = planted
    at hplanted hfault honeOffs
  constructor
  · rfl
  · rfl
  · apply watermarks_eq
    · intro load hload
      rw [hloads, List.mem_append, List.mem_map] at hload
      rcases hload with hload | ⟨t, -, rfl⟩
      · exact h.loads load hload
      · exact le_rfl
    · intro t ht
      rw [hloads]
      exact List.mem_append_right _ (List.mem_map_of_mem ht)
  · exact htonight
  · change backfill = _
    rw [hbackfill, hdelivered]
    exact hships
  · rfl
  · -- what was planted last night was repaired this morning
    change s.planted.elim "" (fun p => p.fault.faultId) =
      if index = 0 then "" else (c.timeline.faults.lookup (index - 1)).elim "" OneOffFault.faultId
    have hlast := hmending.tonight
    split at hlast
    · next hzero =>
      rw [if_pos hzero, Option.map_eq_none_iff.mp hlast]
      rfl
    · next hne =>
      rw [if_neg hne, ← hlast]
      cases s.planted <;> rfl
  · intro hdel
    change (c.served index backfill (c.morning index s)).delivered = true at hdel
    -- no one-off fault is planted before the fixed job has shipped
    have hnone : planted = none := by
      rw [← Option.map_eq_none_iff (f := Planted.fault), hfault]
      cases hlookup : c.timeline.faults.lookup index with
      | none => rfl
      | some fault =>
        have hlate := (Timeline.mem_faults (mem_of_lookup_eq_some hlookup)).1
        rw [htonight, decide_eq_true_eq] at hdel
        exact absurd hlate (by simp only [timeline] at hdel ⊢; omega)
    refine ⟨(c.served index backfill (c.morning index s)).log, hlog, ?_⟩
    simp [nightOf, hdel, hplanted, hnone]
  · intro hdel
    change (c.served index backfill (c.morning index s)).delivered = false at hdel
    have hearlier : s.log.oneOffs.lookup index = none := by
      rw [List.lookup_eq_none_iff]
      intro entry hentry
      simpa using (hbefore entry hentry).ne'
    change _ = (log.oneOffs.lookup index).elim [] Planted.truth
    rw [honeOffs, List.lookup_append, hearlier, Option.none_or]
    simp only [nightOf, hdel, hplanted, Bool.false_eq_true, if_false, List.nil_append]
    cases planted <;> simp

/-- What holds of the nights between two days. -/
private structure Nightly (days : ℕ) (s : RunState) : Prop where
  mending : c.Mending days s
  calm : days ≤ c.timeline.productionStart → c.Calm days s
  delivered : s.delivered = c.timeline.delivered (days - 1)
  compared : s.log.nights.map (fun night => night.index) = (List.range days).filter c.compares
  told : ∀ night ∈ s.log.nights, c.Told s.log night

private theorem nightly_day (h : c.Nightly index s) (hok : c.runDay s index = .ok s') :
    c.Nightly (index + 1) s' := by
  have hmending := c.mending_day h.mending hok
  have hcalm : index + 1 ≤ c.timeline.productionStart → c.Calm (index + 1) s' :=
    fun hlt => c.calm_day (h.calm (by omega)) hlt hok
  obtain ⟨m, hm, rfl⟩ := c.runDay_eq_ok hok
  have hhappens := c.happens_happened hm
  obtain ⟨hnights, honeOffs, -⟩ := says_happened hhappens
  obtain ⟨hnights', honeOffs', -⟩ := @says_morning c s index
  generalize hbackfill : (s.delivered && !c.timeline.delivered index) = backfill
    at hmending hcalm ⊢
  generalize hrepaired : (s.planted.elim "" fun p => p.fault.faultId) = repaired
    at hmending hcalm ⊢
  obtain ⟨hevening, hevening', -⟩ := c.says_evening index backfill repaired m
  rw [hnights, hnights'] at hevening
  rw [honeOffs, honeOffs'] at hevening'
  have hbefore : ∀ entry ∈ s.log.oneOffs, entry.1 < index := by
    intro entry hentry
    have hmem := List.mem_map_of_mem (f := fun entry : ℕ × Planted => (entry.1, entry.2.fault))
      hentry
    rw [h.mending.scheduled] at hmem
    obtain ⟨day, hday, heq⟩ := List.mem_filterMap.mp hmem
    obtain ⟨_, -, heq⟩ := Option.map_eq_some_iff.mp heq
    rw [← (Prod.mk.inj heq).1]
    exact List.mem_range.mp hday
  have hearlier : ∀ night ∈ s.log.nights, night.index < index := by
    intro night hnight
    have hmem := List.mem_map_of_mem (f := fun night : Company.Night => night.index) hnight
    rw [h.compared] at hmem
    exact List.mem_range.mp (List.mem_filter.mp hmem).1
  have hlater : ∀ (log : Log), ∀ entry ∈ ((c.plantedOn index log).map fun p => (index, p)).toList,
      entry.1 = index := by
    intro log entry hentry
    rw [Option.mem_toList, Option.map_eq_some_iff] at hentry
    obtain ⟨_, -, rfl⟩ := hentry
    rfl
  have hserved : (c.served index backfill m).log <+:
      (c.evening index backfill repaired m).log := by
    rw [evening_served, endOfDay, RunState.log_emit, reconcileTonight_eq, RunState.log_emit]
    exact (List.prefix_append _ _).trans (List.prefix_append _ _)
  have hgrown : s.log <+: (c.evening index backfill repaired m).log := by
    obtain ⟨ops, -, hlog⟩ := hhappens.log
    refine List.IsPrefix.trans ?_ hserved
    rw [log_served, hlog, log_morning]
    simp only [List.append_assoc, List.prefix_append]
  refine ⟨hmending, hcalm, ?_, ?_, ?_⟩
  · rw [evening_eq, ← hbackfill, hhappens.delivered, delivered_morning, h.delivered,
      Nat.add_sub_cancel]
    exact c.delivered_after_copy index
  · rw [hevening, List.map_append, h.compared, List.range_succ, List.filter_append]
    congr 1
    cases hcompares : c.compares index <;> simp [hcompares, nightOf]
  · intro night hnight
    rw [hevening, List.mem_append] at hnight
    rcases hnight with hnight | hnight
    · apply (h.told night hnight).later c hgrown hevening'
      intro entry hentry
      rw [hlater _ entry hentry]
      exact hearlier night hnight
    · split at hnight
      · next hcompares =>
        obtain rfl := List.mem_singleton.mp hnight
        have hparallel : c.timeline.parallel index = true := by
          rw [compares, Bool.and_eq_true] at hcompares
          exact hcompares.1
        have hquiet := h.calm (c.lt_productionStart_of_parallel hparallel).le
        rw [hquiet.nothing_happened c (c.lt_productionStart_of_parallel hparallel)] at hm
        obtain rfl := Except.ok.inj hm
        rw [← hrepaired] at hserved ⊢
        exact hquiet.told c h.mending h.delivered hparallel hbefore hbackfill.symm hserved
          (by rw [hrepaired]; exact hevening')
      · cases hnight

private theorem nightly_after (hok : c.after days = .ok s) : c.Nightly days s := by
  refine c.of_days (I := c.Nightly) ?_ (fun _ _ _ => c.nightly_day) hok
  refine ⟨@mending_after c _ 0 rfl, fun _ => ⟨rfl, rfl, fun load hload => ?_⟩, rfl, rfl,
    fun _ h => absurd h List.not_mem_nil⟩
  -- the history is loaded before the first night
  have hbegin : c.begin.log.loads = tables.map fun t => (t, c.settings.start) := by
    simp [begin, Log.loads, Op.recorded, Call.recorded]
  rw [hbegin] at hload
  obtain ⟨t, -, rfl⟩ := List.mem_map.mp hload
  exact c.start_le_runAt_zero

/-- **A night is told what holds that night.** -/
theorem nights_told (hok : c.after days = .ok s) :
    s.log.nights.map (fun night => night.index) = (List.range days).filter c.compares ∧
      ∀ night ∈ s.log.nights, c.Told s.log night :=
  ⟨(c.nightly_after hok).compared, (c.nightly_after hok).told⟩

theorem nights_told_two_weeks : ∃ s, twoWeeks.after 14 = .ok s ∧
    s.log.nights.map (fun night => (night.index, night.planted, night.repaired)) =
      [(0, "", ""), (1, "", ""), (2, "", ""), (3, "", ""), (4, "", ""), (5, "M1", ""),
        (6, "", "M1")] ∧
    ∀ night ∈ s.log.nights, twoWeeks.Told s.log night := by
  refine ⟨_, rfl, by decide, ?_⟩
  exact (@nights_told twoWeeks _ 14 rfl).2

end Company

end PlatformOps.Simulation
