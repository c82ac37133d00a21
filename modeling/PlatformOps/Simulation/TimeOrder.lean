import PlatformOps.Simulation.CompanyDesk
import PlatformOps.Simulation.LandedFixes

/-!
# In Which Order the Desk Sees Production

The desk is handed the invocations of the nights, at the times of their runs, and those of
the reruns, at the times of the fixes. Both are stamped with the time at which the run
counts its failures as detected, and the incidents' ages, raises and merges rest on it.

- `log_evening_watched`: what an evening is, for who watches production.
- `detections_in_order_iff`: those times never go back exactly when no fix that is rerun
  lands before the night it was found on.
-/

namespace PlatformOps.Simulation

open Listing

/-! ## What is handed to the desk -/

/-- An operation that the desk neither sees nor answers. -/
def Op.isUnwatched : Op → Bool
  | .production _ | .rerun _ | .fixes _ => false
  | _ => true

/-- The times at which the invocations of a log detect what they find. -/
def Log.detections (log : Log) : List Timestamp :=
  log.flatMap fun entry => entry.2.invocations.map Invocation.time

@[simp] theorem Log.detections_append (log log' : Log) :
    Log.detections (log ++ log') = log.detections ++ log'.detections :=
  List.flatMap_append

@[simp] theorem Log.detections_nil : Log.detections [] = [] := rfl

@[simp] theorem Log.detections_cons (entry : ℕ × Op) (log : Log) :
    Log.detections (entry :: log) =
      entry.2.invocations.map Invocation.time ++ log.detections :=
  List.flatMap_cons

theorem Op.invocations_of_isUnwatched {op : Op} (h : op.isUnwatched = true) :
    op.invocations = [] := by
  cases op <;> first | rfl | cases h

theorem Log.detections_unwatched {day : ℕ} {ops : List Op}
    (h : ops.all Op.isUnwatched = true) : Log.detections (dated day ops) = [] := by
  rw [Log.detections, dated, List.flatMap_map, List.flatMap_eq_nil_iff]
  intro op hop
  rw [Op.invocations_of_isUnwatched (List.all_eq_true.mp h op hop)]
  rfl

/-- When the invocations of a rerun detect what they find. -/
def Fix.detections (fix : Fix) : List Timestamp := fix.commands.map fun _ => fix.time

theorem Fix.eq_time_of_mem_detections {fix : Fix} {time : Timestamp}
    (h : time ∈ fix.detections) : time = fix.time := by
  obtain ⟨_, -, rfl⟩ := List.mem_map.mp h
  rfl

theorem Fix.time_mem_detections {fix : Fix} (h : fix.commands ≠ []) :
    fix.time ∈ fix.detections := by
  obtain ⟨command, hcommand⟩ := List.exists_mem_of_ne_nil _ h
  exact List.mem_map.mpr ⟨command, hcommand, rfl⟩

theorem Op.times_rerun (fix : Fix) :
    (Op.rerun fix).invocations.map Invocation.time = fix.detections := by
  rw [Op.invocations, List.map_map]
  rfl

/-- Fixes in the order in which they landed are rerun in time order. -/
theorem pairwise_detections {fixes : List Fix}
    (h : fixes.Pairwise fun fix fix' => fix.time ≤ fix'.time) :
    (fixes.flatMap Fix.detections).Pairwise (· ≤ ·) := by
  rw [List.pairwise_flatMap]
  constructor
  · intro fix _
    rw [Fix.detections, List.pairwise_map]
    exact List.pairwise_of_forall fun _ _ => le_refl _
  · apply h.imp
    intro fix fix' hle time htime time' htime'
    rwa [Fix.eq_time_of_mem_detections htime, Fix.eq_time_of_mem_detections htime']

namespace Company

variable (c : Company) {s s' : RunState} {index days : ℕ}

/-! ## One day -/

/-- What the desk sees of a night. -/
def nightOps (index : ℕ) : List Op :=
  if c.timeline.production index then [.production (c.runAt index)] else []

/-- **An evening is its night of production**, for who watches: the desk sees the night,
and then says what it has found in everything up to it. -/
theorem log_evening_watched (index : ℕ) (backfill : Bool) (repaired : String) (m : RunState) :
    ∃ before after : List Op, before.all Op.isUnwatched = true ∧ after.all Op.isUnwatched = true ∧
      (c.evening index backfill repaired m).log = m.log ++ dated index (before ++ c.nightOps index ++
        ((c.found index (c.settled index backfill m)).map Op.fixes).toList ++ after) ∧
      c.found index (c.settled index backfill m) = if c.timeline.production index then
        c.surroundings.desk.map fun desk => desk (m.log ++ dated index (before ++ c.nightOps index))
      else none := by
  have hfreeze : (c.freezeOps index).all Op.isUnwatched = true := by
    rw [freezeOps]
    split <;> rfl
  have hcopy : (c.copyOps index backfill m).all Op.isUnwatched = true := by
    rw [copyOps]
    cases c.plantedOn index (c.copied index backfill m).log <;> split <;> rfl
  have hnight : ∀ night,
      (if c.compares index then [Op.night night] else []).all Op.isUnwatched = true := by
    intro night
    split <;> rfl
  rw [log_evening, buildOps, nightOps, found]
  generalize c.nightOf index backfill repaired (c.served index backfill m) = night
  rcases Bool.eq_false_or_eq_true (c.timeline.production index) with hprod | hprod
  · -- the project may have to be parsed first
    refine ⟨c.freezeOps index ++ c.copyOps index backfill m ++
        (if (c.settled index backfill m).parsed then [] else [.parse]),
      [.workload index] ++ (if c.compares index then [.night night] else []) ++
        [.endOfDay (c.dayOf index)], ?_, ?_, ?_, ?_⟩
    · rw [List.all_append, List.all_append, hfreeze, hcopy]
      split <;> rfl
    · rw [List.all_append, List.all_append, hnight]
      rfl
    · simp [hprod, productionOps, buildsOn]
    · simp [hprod, productionOps, log_settled]
  · refine ⟨c.freezeOps index ++ c.copyOps index backfill m, (if c.buildsOn index then
        [.build ((c.settled index backfill m).summary.builds.isEmpty || backfill)
          (c.runAt index)] else []) ++ [.workload index] ++
        (if c.compares index then [.night night] else []) ++ [.endOfDay (c.dayOf index)],
      ?_, ?_, ?_, ?_⟩
    · rw [List.all_append, hfreeze, hcopy]
      rfl
    · rw [List.all_append, List.all_append, List.all_append, hnight]
      split <;> rfl
    · simp [hprod]
    · simp [hprod]

theorem unwatched_morning : ∃ ops : List Op, ops.all Op.isUnwatched = true ∧
    (c.morning index s).log = s.log ++ dated index ops := by
  refine ⟨_, ?_, c.log_morning⟩
  cases s.planted <;> rfl

theorem unwatched_fixTables {m : RunState} (lastLoad : Timestamp) (fix : Fix) :
    ∃ ops : List Op, ops.all Op.isUnwatched = true ∧
      (m.fixTables index lastLoad fix).log = m.log ++ dated index ops := by
  obtain ⟨ops, hops, hlog⟩ := m.log_fixTables index lastLoad fix
  refine ⟨ops, List.all_eq_true.mpr fun op hop => ?_, hlog⟩
  have hop := List.all_eq_true.mp hops op hop
  cases op <;> first | rfl | cases hop

/-- **A happening is its rerun**, for who watches production. -/
theorem log_happen_watched {m m' : RunState} {lastLoad : Timestamp} {h : Happening}
    (hdesk : h.rerun.isSome → c.surroundings.desk.isSome)
    (hok : c.happen index lastLoad m h = .ok m') :
    ∃ ops : List Op, ops.all Op.isUnwatched = true ∧
      m'.log = m.log ++ dated index (ops ++ (h.rerun.map Op.rerun).toList) := by
  rcases c.happen_eq_ok hok with ⟨fault, time, rfl, -, rfl⟩ | ⟨fix, rfl, hfix⟩
  · exact ⟨[.plantFault fault time], rfl, by simp [Happening.rerun]⟩
  · obtain ⟨ops, hops, hlog⟩ := @unwatched_fixTables index m lastLoad fix
    refine ⟨ops, hops, ?_⟩
    rcases hfix with ⟨hcommands, rfl⟩ | ⟨hcommands, rfl⟩
    · simp [Happening.rerun, hcommands.2, hlog]
    · have hnone : (Happening.fix fix).rerun = none := by
        rw [Happening.rerun, ite_eq_right_iff]
        intro hsome
        refine absurd ⟨hdesk ?_, hsome⟩ hcommands
        rw [Happening.rerun, if_pos hsome]
        rfl
      rw [hnone, hlog]
      simp

theorem detections_happened {m m' : RunState} {lastLoad : Timestamp} {l : List Happening}
    (hdesk : ∀ h ∈ l, h.rerun.isSome → c.surroundings.desk.isSome)
    (hok : l.foldlM (c.happen index lastLoad) m = .ok m') :
    m'.log.detections = m.log.detections ++ (l.filterMap Happening.rerun).flatMap Fix.detections := by
  refine c.of_happenings (I := fun done m' => m'.log.detections =
    m.log.detections ++ (done.filterMap Happening.rerun).flatMap Fix.detections) hok ?_ ?_
  · exact (List.append_nil _).symm
  · intro done h rest m₁ m₂ hl hdone hstep
    have hmem : h ∈ l := hl ▸ List.mem_append_right _ (List.mem_cons_self ..)
    obtain ⟨ops, hops, hlog⟩ := c.log_happen_watched (hdesk h hmem) hstep
    rw [hlog, dated_append, Log.detections_append, Log.detections_append,
      Log.detections_unwatched hops, List.nil_append, hdone, List.filterMap_append,
      List.flatMap_append, List.append_assoc]
    cases hrerun : h.rerun with
    | none => simp [hrerun]
    | some fix => simp [hrerun, Op.times_rerun]

theorem detections_evening (index : ℕ) (backfill : Bool) (repaired : String) (m : RunState) :
    ∃ night : List Timestamp, (c.evening index backfill repaired m).log.detections =
        m.log.detections ++ night ∧ (∀ time ∈ night, time = c.runAt index) ∧
      (c.timeline.production index = true → c.runAt index ∈ night) := by
  obtain ⟨before, after, hbefore, hafter, hlog, -⟩ :=
    c.log_evening_watched index backfill repaired m
  have hfound : ∀ found : Option (List Fix),
      Log.detections (dated index (found.map Op.fixes).toList) = [] := by
    intro found
    cases found <;> rfl
  refine ⟨(dated index (c.nightOps index)).detections, ?_, ?_, ?_⟩
  · rw [hlog]
    simp only [dated_append, Log.detections_append, Log.detections_unwatched hbefore,
      Log.detections_unwatched hafter, hfound, List.nil_append, List.append_nil]
  · intro time htime
    rw [nightOps] at htime
    split at htime
    · simpa [Op.invocations, Incidents.nightlyCommands] using htime
    · cases htime
  · intro hprod
    simp [nightOps, hprod, Op.invocations, Incidents.nightlyCommands]

/-! ## The run -/

theorem runAt_le_runAt {index' : ℕ} (h : index ≤ index') : c.runAt index ≤ c.runAt index' :=
  c.le_runAt_iff.mpr ((c.le_runAt_iff.mp le_rfl).trans h)

/-- What holds of the detections between two days. -/
structure Timely (days : ℕ) (s : RunState) : Prop where
  scheduled : c.Scheduled days s
  past : ∀ time ∈ s.log.detections, ∃ index < days, time ≤ c.runAt index
  nights : ∀ h ∈ s.log.handed, c.runAt h.1 ∈ s.log.detections
  inOrder : s.log.detections.Pairwise (· ≤ ·) ↔
    ∀ h ∈ s.log.handed, h.2.commands ≠ [] → c.due h < days → c.runAt h.1 ≤ h.2.time

/-- A fix that is due today keeps the order exactly when it did not land before its night. -/
private theorem Timely.due_iff (h : c.Timely index s) {handed : ℕ × Fix}
    (hhanded : handed ∈ s.log.handed) (hdue : c.due handed = index) :
    (∀ time ∈ s.log.detections, time ≤ handed.2.time) ↔ c.runAt handed.1 ≤ handed.2.time := by
  refine ⟨fun hall => hall _ (h.nights _ hhanded), fun hle time htime => ?_⟩
  obtain ⟨earlier, hearlier, hlast⟩ := h.past time htime
  by_cases hnext : earlier ≤ handed.1
  · exact (hlast.trans (c.runAt_le_runAt hnext)).trans hle
  · -- it waited for more than one night, so it had not landed by the one before
    have hnot : ¬ handed.2.time ≤ c.runAt earlier := by
      rw [c.le_runAt_iff]
      rw [due] at hdue
      omega
    exact hlast.trans (le_of_not_ge hnot)

private theorem timely_day (h : c.Timely index s) (hok : c.runDay s index = .ok s') :
    c.Timely (index + 1) s' := by
  have hscheduled := c.scheduled_day h.scheduled hok
  obtain ⟨found, hhanded, hfound⟩ := h.scheduled.handed_day c hok
  obtain ⟨m, hm, rfl⟩ := c.runDay_eq_ok hok
  generalize (s.delivered && !c.timeline.delivered index) = backfill at hscheduled hhanded ⊢
  generalize (s.planted.elim "" fun p => p.fault.faultId) = repaired at hscheduled hhanded ⊢
  obtain ⟨ops, hops, hlog⟩ := @unwatched_morning c s index
  obtain ⟨night, hevening, hnight, hprod⟩ := c.detections_evening index backfill repaired m
  rw [c.detections_happened (h.scheduled.watched_happened c) hm, hlog, Log.detections_append,
    Log.detections_unwatched hops, List.append_nil] at hevening
  have htoday : ∀ fix, fix ∈ (c.happened index s.pending).filterMap Happening.rerun ↔
      ∃ handed ∈ s.log.handed, (handed.2.commands ≠ [] ∧ c.due handed = index) ∧
        handed.2 = fix := by
    intro fix
    rw [((c.filterMap_rerun_happened index s.pending).trans (h.scheduled.landed c)).mem_iff]
    simp [and_assoc]
  have hsorted := pairwise_detections (c.pairwise_rerun_happened index s.pending)
  generalize (c.happened index s.pending).filterMap Happening.rerun = today at hevening htoday hsorted
  have hlast : ∀ time ∈ s.log.detections ++ today.flatMap Fix.detections,
      time ≤ c.runAt index := by
    intro time htime
    rcases List.mem_append.mp htime with htime | htime
    · obtain ⟨earlier, hearlier, hle⟩ := h.past time htime
      exact hle.trans (c.runAt_le_runAt hearlier.le)
    · obtain ⟨fix, hfix, htime⟩ := List.mem_flatMap.mp htime
      obtain ⟨handed, -, ⟨-, hdue⟩, rfl⟩ := (htoday fix).mp hfix
      rw [Fix.eq_time_of_mem_detections htime, c.le_runAt_iff, ← hdue]
      exact le_max_right _ _
  refine ⟨hscheduled, ?_, ?_, ?_⟩
  · intro time htime
    rw [hevening, List.mem_append] at htime
    refine ⟨index, Nat.lt_succ_self index, htime.elim (hlast time) fun htime => ?_⟩
    rw [hnight time htime]
  · intro handed hmem
    rw [hhanded, List.mem_append, List.mem_map] at hmem
    rw [hevening]
    rcases hmem with hmem | ⟨fix, hfix, rfl⟩
    · exact List.mem_append_left _ (List.mem_append_left _ (h.nights handed hmem))
    · exact List.mem_append_right _ (hprod (hfound (List.ne_nil_of_mem hfix)))
  · -- before today, between before and today, and the night after all of it
    have hsplit : (s.log.detections ++ today.flatMap Fix.detections ++ night).Pairwise (· ≤ ·) ↔
        s.log.detections.Pairwise (· ≤ ·) ∧
          ∀ fix ∈ today, ∀ time ∈ s.log.detections, time ≤ fix.time := by
      rw [List.pairwise_append, List.pairwise_append]
      constructor
      · rintro ⟨⟨hbefore, -, hbetween⟩, -, -⟩
        refine ⟨hbefore, fun fix hfix time htime => ?_⟩
        obtain ⟨handed, -, ⟨hcommands, -⟩, rfl⟩ := (htoday fix).mp hfix
        apply hbetween time htime
        exact List.mem_flatMap.mpr ⟨_, hfix, Fix.time_mem_detections hcommands⟩
      · rintro ⟨hbefore, hbetween⟩
        refine ⟨⟨hbefore, hsorted, fun time htime time' htime' => ?_⟩, ?_, ?_⟩
        · obtain ⟨fix, hfix, htime'⟩ := List.mem_flatMap.mp htime'
          rw [Fix.eq_time_of_mem_detections htime']
          exact hbetween fix hfix time htime
        · apply List.pairwise_of_forall_mem_list
          intro time htime time' htime'
          rw [hnight time htime, hnight time' htime']
        · intro time htime time' htime'
          rw [hnight time' htime']
          exact hlast time htime
    rw [hevening, hsplit, h.inOrder, hhanded]
    constructor
    · rintro ⟨hbefore, htodays⟩ handed hmem hcommands hdue
      rcases List.mem_append.mp hmem with hmem | hmem
      · rcases Nat.lt_succ_iff_lt_or_eq.mp hdue with hdue | hdue
        · exact hbefore handed hmem hcommands hdue
        · apply (h.due_iff c hmem hdue).mp
          exact htodays _ ((htoday _).mpr ⟨handed, hmem, ⟨hcommands, hdue⟩, rfl⟩)
      · -- what is handed out tonight is due tomorrow at the earliest
        obtain ⟨fix, -, rfl⟩ := List.mem_map.mp hmem
        rw [due] at hdue
        omega
    · intro hall
      refine ⟨fun handed hmem hcommands hdue =>
        hall handed (List.mem_append_left _ hmem) hcommands (hdue.trans (Nat.lt_succ_self _)), ?_⟩
      intro fix hfix
      obtain ⟨handed, hmem, ⟨hcommands, hdue⟩, rfl⟩ := (htoday fix).mp hfix
      apply (h.due_iff c hmem hdue).mpr
      exact hall handed (List.mem_append_left _ hmem) hcommands (by omega)

theorem timely_after (hok : c.after days = .ok s) : c.Timely days s := by
  refine c.of_days (I := c.Timely) ?_ (fun _ _ _ => c.timely_day) hok
  refine ⟨@scheduled_after c _ 0 rfl, ?_, ?_, ?_⟩
  · exact fun _ h => absurd h List.not_mem_nil
  · exact fun _ h => absurd h List.not_mem_nil
  · exact iff_of_true .nil fun _ h => absurd h List.not_mem_nil

/-- **When the desk sees production in time order.** In every run, with any desk and after
any number of days: the times of the invocations it is handed never go back exactly when
every fix that was rerun had landed no earlier than the run of the night it was found on. -/
theorem detections_in_order_iff (hok : c.after days = .ok s) :
    s.log.detections.Pairwise (· ≤ ·) ↔ ∀ h ∈ s.log.handed, h.2.commands ≠ [] →
      c.due h < days → c.runAt h.1 ≤ h.2.time :=
  (c.timely_after hok).inOrder

theorem detections_in_order_iff_two_weeks : ∃ s, twoWeeks.after 14 = .ok s ∧
    s.log.detections.Pairwise (· ≤ ·) := by
  refine ⟨_, rfl, ?_⟩
  exact (@detections_in_order_iff twoWeeks _ 14 rfl).mpr (by decide)

end Company

end PlatformOps.Simulation
