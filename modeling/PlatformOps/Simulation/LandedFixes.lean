import PlatformOps.Simulation.CompanyDays

/-!
# Every Fix Is Rerun Once, When It Has Landed

After a night of production the desk hands out the fixes it has scheduled since. A fix
waits for the first run at or after the time it lands; then the tables it covers are
resynced and its commands are run, once.

- `isLeast_due`: the day on which a fix is due.
- `fixes_rerun_once`: the reruns of a run are the fixes that were due, each on its day,
  and what is pending are the others.
-/

namespace PlatformOps.Simulation

open Listing

/-! ## Fixes in the log -/

def Op.rerunFix : Op → Option Fix
  | .rerun fix => some fix
  | _ => none

def Op.foundFixes : Op → List Fix
  | .fixes found => found
  | _ => []

/-- The reruns of a log, each with its day. -/
def Log.reruns (log : Log) : List (ℕ × Fix) := log.onDays Op.rerunFix

/-- The fixes the desk handed out, each with the day of the night before. -/
def Log.handed (log : Log) : List (ℕ × Fix) :=
  log.flatMap fun entry => entry.2.foundFixes.map fun fix => (entry.1, fix)

@[simp] theorem Log.reruns_append (log log' : Log) :
    Log.reruns (log ++ log') = log.reruns ++ log'.reruns :=
  Log.onDays_append _ _ _

@[simp] theorem Log.handed_append (log log' : Log) :
    Log.handed (log ++ log') = log.handed ++ log'.handed :=
  List.flatMap_append

@[simp] theorem Log.reruns_nil : Log.reruns [] = [] := rfl

@[simp] theorem Log.handed_nil : Log.handed [] = [] := rfl

@[simp] theorem Log.reruns_cons (entry : ℕ × Op) (log : Log) : Log.reruns (entry :: log) =
    (entry.2.rerunFix.map fun fix => (entry.1, fix)).toList ++ log.reruns :=
  Log.onDays_cons _ _ _

@[simp] theorem Log.handed_cons (entry : ℕ × Op) (log : Log) : Log.handed (entry :: log) =
    (entry.2.foundFixes.map fun fix => (entry.1, fix)) ++ log.handed :=
  List.flatMap_cons

@[simp] theorem Log.reruns_dated (day : ℕ) (ops : List Op) :
    Log.reruns (dated day ops) = (ops.filterMap Op.rerunFix).map fun fix => (day, fix) :=
  Log.onDays_dated _ _ _

@[simp] theorem Log.handed_dated (day : ℕ) (ops : List Op) :
    Log.handed (dated day ops) = (ops.flatMap Op.foundFixes).map fun fix => (day, fix) := by
  rw [Log.handed, dated, List.flatMap_map, List.map_flatMap]

/-- What a happening reruns. -/
def Happening.rerun : Happening → Option Fix
  | .fault _ _ => none
  | .fix f => if f.commands ≠ [] then some f else none

/-- When a happening happens. -/
def Happening.time : Happening → Timestamp
  | .fault _ time => time
  | .fix f => f.time

theorem Happening.time_le_of_key_le {h h' : Happening} (hle : h.key ≤ h'.key) :
    h.time ≤ h'.time := by
  -- the key of a happening starts with its time
  have hfirst : ∀ h : Happening, (ofLex h.key).1 = h.time := fun h => by cases h <;> rfl
  rw [← hfirst h, ← hfirst h']
  rcases Prod.Lex.le_iff.mp hle with hlt | ⟨heq, -⟩
  · exact hlt.le
  · exact heq.le

namespace Company

variable (c : Company) {s s' : RunState} {index days : ℕ}

/-! ## When a fix is due -/

/-- The first day of the window whose run is at or after a time. -/
def firstRun (time : Timestamp) : ℕ :=
  ((time - c.runAt 0 + Duration.hours 24 - 1) / Duration.hours 24).toNat

theorem runAt_eq (index : ℕ) : c.runAt index = c.runAt 0 + index * Duration.hours 24 := by
  simp only [runAt, day, Duration.hours, Duration.seconds]
  push_cast
  ring

theorem le_runAt_iff {time : Timestamp} : time ≤ c.runAt index ↔ c.firstRun time ≤ index := by
  have hpos : (0 : ℤ) < Duration.hours 24 := by decide
  -- the days from the first run to the time, rounded up
  have hdiv : (time - c.runAt 0 + Duration.hours 24 - 1) / Duration.hours 24 ≤ (index : ℤ) ↔
      time - c.runAt 0 + Duration.hours 24 - 1 < ((index : ℤ) + 1) * Duration.hours 24 := by
    rw [← Int.lt_add_one_iff, Int.ediv_lt_iff_lt_mul hpos]
  rw [firstRun, Int.toNat_le, hdiv, c.runAt_eq index, add_mul, one_mul]
  generalize (index : ℤ) * Duration.hours 24 = past
  constructor
  · intro h
    exact Int.lt_add_one_iff.mp (by linarith)
  · intro h
    have hlt := Int.lt_add_one_iff.mpr h
    linarith

/-- The day on which a fix is run, from the night after which it was handed out. -/
def due (handed : ℕ × Fix) : ℕ := max (handed.1 + 1) (c.firstRun handed.2.time)

/-- **A fix is due on the first day after it was handed out whose run it has landed by.** -/
theorem isLeast_due (handed : ℕ × Fix) :
    IsLeast { index | handed.1 < index ∧ handed.2.time ≤ c.runAt index } (c.due handed) := by
  constructor
  · exact ⟨Nat.lt_of_succ_le (le_max_left _ _), c.le_runAt_iff.mpr (le_max_right _ _)⟩
  · intro index hindex
    exact max_le hindex.1 (c.le_runAt_iff.mp hindex.2)

/-! ## One day -/

/-- The fixes that happen on a day are the pending ones that have landed. -/
theorem filterMap_rerun_happened (index : ℕ) (pending : List Fix) :
    ((c.happened index pending).filterMap Happening.rerun).Perm
      ((pending.filter fun fix => fix.time ≤ c.runAt index).filter fun fix =>
        fix.commands ≠ []) := by
  -- faults rerun nothing
  have hfaults : ∀ (faults : List Fault) (time : Timestamp),
      (faults.map (Happening.fault · time)).filterMap Happening.rerun = [] := by
    intro faults time
    induction faults with
    | nil => rfl
    | cons fault faults ih => exact ih
  have hfixes : ∀ fixes : List Fix, (fixes.map Happening.fix).filterMap Happening.rerun =
      fixes.filter fun fix => fix.commands ≠ [] := by
    intro fixes
    induction fixes with
    | nil => rfl
    | cons fix fixes ih =>
      rw [List.map_cons, filterMap_cons_toList, ih, List.filter_cons, Happening.rerun]
      by_cases hfix : fix.commands ≠ [] <;> simp [hfix]
  rw [happened]
  refine ((perm_sortBy _ _).filterMap _).trans (List.Perm.of_eq ?_)
  rw [List.filterMap_append, hfaults, hfixes, List.nil_append]

/-- What happens on a day is rerun in the order in which it landed. -/
theorem pairwise_rerun_happened (index : ℕ) (pending : List Fix) :
    ((c.happened index pending).filterMap Happening.rerun).Pairwise
      fun fix fix' => fix.time ≤ fix'.time := by
  have hrerun : ∀ {h : Happening} {fix : Fix}, h.rerun = some fix → h.time = fix.time := by
    intro h fix hfix
    cases h with
    | fault => cases hfix
    | fix f =>
      rw [Happening.rerun, Option.ite_none_right_eq_some] at hfix
      rw [← Option.some.inj hfix.2]
      rfl
  refine List.Pairwise.filterMap _ ?_ (pairwise_sortBy Happening.key _)
  intro h h' hle fix hfix fix' hfix'
  rw [← hrerun hfix, ← hrerun hfix']
  exact Happening.time_le_of_key_le hle

theorem reruns_fixTables {m : RunState} (lastLoad : Timestamp) (fix : Fix) :
    (m.fixTables index lastLoad fix).log.reruns = m.log.reruns ∧
      (m.fixTables index lastLoad fix).log.handed = m.log.handed := by
  obtain ⟨ops, hops, hlog⟩ := m.log_fixTables index lastLoad fix
  have hnone : ops.filterMap Op.rerunFix = [] ∧ ops.flatMap Op.foundFixes = [] := by
    rw [List.filterMap_eq_nil_iff, List.flatMap_eq_nil_iff]
    constructor <;>
    · intro op hop
      have hop := List.all_eq_true.mp hops op hop
      cases op <;> first | rfl | cases hop
  simp [hlog, hnone]

/-- What a happening adds to the reruns. -/
theorem reruns_happen {m m' : RunState} {lastLoad : Timestamp} {h : Happening}
    (hdesk : h.rerun.isSome → c.surroundings.desk.isSome)
    (hok : c.happen index lastLoad m h = .ok m') :
    m'.log.reruns = m.log.reruns ++ (h.rerun.map fun fix => (index, fix)).toList ∧
      m'.log.handed = m.log.handed := by
  rcases c.happen_eq_ok hok with ⟨fault, time, rfl, -, rfl⟩ | ⟨fix, rfl, hfix⟩
  · simp [Log.reruns, Log.handed, Op.rerunFix, Op.foundFixes, Happening.rerun]
  · obtain ⟨hreruns, hhanded⟩ := @reruns_fixTables index m lastLoad fix
    rcases hfix with ⟨hcommands, rfl⟩ | ⟨hcommands, rfl⟩
    · rw [Happening.rerun, if_pos hcommands.2]
      simp only [Log.reruns_append, Log.handed_append, hreruns, hhanded]
      exact ⟨rfl, List.append_nil _⟩
    · -- a fix with commands is pending only if there is a desk to run them
      have hnone : (Happening.fix fix).rerun = none := by
        rw [Happening.rerun, ite_eq_right_iff]
        intro hsome
        refine absurd ⟨hdesk ?_, hsome⟩ hcommands
        rw [Happening.rerun, if_pos hsome]
        rfl
      rw [hnone, hreruns, hhanded]
      simp

/-- The reruns of a day, once its fixes have happened. -/
theorem reruns_happened {m m' : RunState} {lastLoad : Timestamp} {l : List Happening}
    (hdesk : ∀ h ∈ l, h.rerun.isSome → c.surroundings.desk.isSome)
    (hok : l.foldlM (c.happen index lastLoad) m = .ok m') :
    m'.log.reruns = m.log.reruns ++ (l.filterMap Happening.rerun).map (fun fix => (index, fix)) ∧
      m'.log.handed = m.log.handed ∧ m'.pending = m.pending := by
  refine c.of_happenings (I := fun done m' =>
    m'.log.reruns = m.log.reruns ++
        (done.filterMap Happening.rerun).map (fun fix => (index, fix)) ∧
      m'.log.handed = m.log.handed ∧ m'.pending = m.pending) hok ?_ ?_
  · exact ⟨(List.append_nil _).symm, rfl, rfl⟩
  · rintro done h rest m₁ m₂ hl ⟨hreruns, hhanded, hpending⟩ hstep
    have hmem : h ∈ l := hl ▸ List.mem_append_right _ (List.mem_cons_self ..)
    obtain ⟨hreruns', hhanded'⟩ := c.reruns_happen (hdesk h hmem) hstep
    refine ⟨?_, hhanded'.trans hhanded, ?_⟩
    · rw [hreruns', hreruns, List.filterMap_append, List.map_append, List.append_assoc]
      cases hrerun : h.rerun <;> simp [hrerun]
    · -- what is pending was settled in the morning
      rcases c.happen_eq_ok hstep with ⟨_, _, -, -, rfl⟩ | ⟨fix, -, ⟨-, rfl⟩ | ⟨-, rfl⟩⟩
      · exact hpending
      · exact (m₁.mends_fixTables index lastLoad fix).pending.trans hpending
      · exact (m₁.mends_fixTables index lastLoad fix).pending.trans hpending

/-- An evening hands out what the desk has found, and reruns nothing. -/
theorem handed_evening (index : ℕ) (backfill : Bool) (repaired : String) (m : RunState) :
    (c.evening index backfill repaired m).log.reruns = m.log.reruns ∧
      (c.evening index backfill repaired m).log.handed = m.log.handed ++
        ((c.found index (c.settled index backfill m)).getD []).map fun fix => (index, fix) := by
  have hfreeze : (c.freezeOps index).filterMap Op.rerunFix = [] ∧
      (c.freezeOps index).flatMap Op.foundFixes = [] := by
    rw [freezeOps]
    split <;> exact ⟨rfl, rfl⟩
  have hcopy : (c.copyOps index backfill m).filterMap Op.rerunFix = [] ∧
      (c.copyOps index backfill m).flatMap Op.foundFixes = [] := by
    rw [copyOps]
    cases c.plantedOn index (c.copied index backfill m).log <;> split <;> exact ⟨rfl, rfl⟩
  have hbuild : ∀ s, (c.buildOps index backfill s).filterMap Op.rerunFix = [] ∧
      (c.buildOps index backfill s).flatMap Op.foundFixes = (c.found index s).getD [] := by
    intro s
    rw [buildOps, productionOps]
    cases c.found index s <;> split_ifs <;> simp [Op.rerunFix, Op.foundFixes]
  have hnight : ∀ night, (if c.compares index then [Op.night night] else []).filterMap
      Op.rerunFix = [] ∧ (if c.compares index then [Op.night night] else []).flatMap
        Op.foundFixes = [] := by
    intro night
    split <;> exact ⟨rfl, rfl⟩
  rw [log_evening]
  simp only [Log.reruns_append, Log.handed_append, Log.reruns_dated, Log.handed_dated,
    List.filterMap_append, List.flatMap_append, hfreeze, hcopy, hbuild, hnight]
  simp [Op.rerunFix, Op.foundFixes]

/-! ## The run -/

/-- What holds of the fixes between two days. -/
structure Scheduled (days : ℕ) (s : RunState) : Prop where
  watched : s.pending ≠ [] → c.surroundings.desk.isSome
  earlier : ∀ h ∈ s.log.handed, h.1 < days
  pending : s.pending.Perm ((s.log.handed.filter fun h => days ≤ c.due h).map Prod.snd)
  reruns : s.log.reruns.Perm ((s.log.handed.filter fun h =>
    h.2.commands ≠ [] ∧ c.due h < days).map fun h => (c.due h, h.2))
  inOrder : s.log.reruns.Pairwise fun r r' => r.1 < r'.1 ∨ r.1 = r'.1 ∧ r.2.time ≤ r'.2.time
  past : ∀ r ∈ s.log.reruns, r.1 < days

/-- A fix handed out earlier is due on a day if it waited until then and has landed. -/
private theorem due_eq_iff {h : ℕ × Fix} (hearlier : h.1 < index) :
    index ≤ c.due h ∧ h.2.time ≤ c.runAt index ↔ c.due h = index := by
  rw [c.le_runAt_iff, due]
  omega

/-- Otherwise it waits on. -/
private theorem succ_le_due_iff {h : ℕ × Fix} (hearlier : h.1 < index) :
    index ≤ c.due h ∧ ¬ h.2.time ≤ c.runAt index ↔ index + 1 ≤ c.due h := by
  rw [c.le_runAt_iff, due]
  omega

theorem Scheduled.landed (h : c.Scheduled index s) :
    ((s.pending.filter fun fix => fix.time ≤ c.runAt index).filter fun fix =>
        fix.commands ≠ []).Perm
      ((s.log.handed.filter fun h => h.2.commands ≠ [] ∧ c.due h = index).map Prod.snd) := by
  refine ((h.pending.filter _).filter _).trans (List.Perm.of_eq ?_)
  rw [List.filter_map, List.filter_map, List.filter_filter, List.filter_filter]
  congr 1
  refine List.filter_congr fun e he => ?_
  have hdue := c.due_eq_iff (h.earlier e he)
  simp only [Function.comp_apply, ← Bool.decide_and, decide_eq_decide]
  rw [← hdue]
  tauto

private theorem Scheduled.waiting (h : c.Scheduled index s) :
    (s.pending.filter fun fix => ¬ fix.time ≤ c.runAt index).Perm
      ((s.log.handed.filter fun h => index + 1 ≤ c.due h).map Prod.snd) := by
  refine (h.pending.filter _).trans (List.Perm.of_eq ?_)
  rw [List.filter_map, List.filter_filter]
  congr 1
  refine List.filter_congr fun e he => ?_
  have hdue := c.succ_le_due_iff (h.earlier e he)
  simp only [Function.comp_apply, ← Bool.decide_and, decide_eq_decide]
  rw [← hdue]
  tauto

/-- What is due before the next day is what was due before, and what is due today. -/
private theorem filter_due_succ (handed : List (ℕ × Fix)) :
    (handed.filter fun h => h.2.commands ≠ [] ∧ c.due h < index + 1).Perm
      ((handed.filter fun h => h.2.commands ≠ [] ∧ c.due h < index) ++
        handed.filter fun h => h.2.commands ≠ [] ∧ c.due h = index) := by
  -- split at today: due earlier, or not
  refine ((List.filter_append_perm (fun h => c.due h < index) _).symm).trans
    (List.Perm.of_eq ?_)
  rw [List.filter_filter, List.filter_filter]
  congr 1
  · refine List.filter_congr fun h _ => ?_
    simp only [← Bool.decide_and, decide_eq_decide]
    exact ⟨fun ⟨hlt, hcommands, _⟩ => ⟨hcommands, hlt⟩,
      fun ⟨hcommands, hlt⟩ => ⟨hlt, hcommands, by omega⟩⟩
  · refine List.filter_congr fun h _ => ?_
    simp only [← decide_not, ← Bool.decide_and, decide_eq_decide]
    exact ⟨fun ⟨hge, hcommands, hlt⟩ => ⟨hcommands, by omega⟩,
      fun ⟨hcommands, heq⟩ => ⟨by omega, hcommands, by omega⟩⟩

/-- What happens is rerun only if somebody watches. -/
theorem Scheduled.watched_happened (h : c.Scheduled index s) :
    ∀ happening ∈ c.happened index s.pending, happening.rerun.isSome →
      c.surroundings.desk.isSome := by
  intro happening hmem hrerun
  apply h.watched
  rw [happened, mem_sortBy, List.mem_append, List.mem_map, List.mem_map] at hmem
  rcases hmem with ⟨_, -, rfl⟩ | ⟨fix, hfix, rfl⟩
  · cases hrerun
  · exact List.ne_nil_of_mem (List.mem_filter.mp hfix).1

theorem reruns_morning : (c.morning index s).log.reruns = s.log.reruns ∧
    (c.morning index s).log.handed = s.log.handed := by
  rw [log_morning]
  cases s.planted <;> simp [Op.rerunFix, Op.foundFixes]

/-- Fixes are handed out after the nights of production only. -/
theorem Scheduled.handed_day (h : c.Scheduled index s) (hok : c.runDay s index = .ok s') :
    ∃ found : List Fix, s'.log.handed = s.log.handed ++ found.map (fun fix => (index, fix)) ∧
      (found ≠ [] → c.timeline.production index = true) := by
  obtain ⟨m, hm, rfl⟩ := c.runDay_eq_ok hok
  obtain ⟨-, hhanded, -⟩ := c.reruns_happened (h.watched_happened c) hm
  rw [(c.handed_evening index _ _ m).2, hhanded, c.reruns_morning.2]
  refine ⟨_, rfl, fun hne => ?_⟩
  by_contra hprod
  rw [Company.found, if_neg hprod] at hne
  exact hne rfl

/-- **A day keeps the schedule**: what lands by its run is rerun on it, the rest waits. -/
theorem scheduled_day (h : c.Scheduled index s) (hok : c.runDay s index = .ok s') :
    c.Scheduled (index + 1) s' := by
  obtain ⟨m, hm, rfl⟩ := c.runDay_eq_ok hok
  obtain ⟨hreruns, hhanded, hpending⟩ := c.reruns_happened (h.watched_happened c) hm
  rw [c.reruns_morning.1] at hreruns
  rw [c.reruns_morning.2] at hhanded
  rw [pending_morning] at hpending
  generalize hbackfill : (s.delivered && !c.timeline.delivered index) = backfill
  generalize (s.planted.elim "" fun p => p.fault.faultId) = repaired
  obtain ⟨hreruns', hhanded'⟩ := c.handed_evening index backfill repaired m
  rw [hreruns] at hreruns'
  rw [hhanded] at hhanded'
  have hpending' : (c.evening index backfill repaired m).pending =
      (s.pending.filter fun fix => ¬ fix.time ≤ c.runAt index) ++
        (c.found index (c.settled index backfill m)).getD [] := by
    rw [evening_eq, hpending]
  generalize hfound : c.found index (c.settled index backfill m) = found at hhanded' hpending'
  have hlanded := c.filterMap_rerun_happened index s.pending
  have hdue : ∀ fix, index + 1 ≤ c.due (index, fix) := fun fix => le_max_left _ _
  constructor
  · -- whatever waits was handed out by a desk, earlier or tonight
    intro hne
    rw [hpending', ne_eq, List.append_eq_nil_iff, not_and_or] at hne
    rcases hne with hne | hne
    · exact h.watched fun hnil => hne (by rw [hnil]; rfl)
    · rw [← hfound, Company.found] at hne
      split at hne
      · cases hd : c.surroundings.desk with
        | none => simp [hd] at hne
        | some desk => rfl
      · exact absurd rfl hne
  · intro e he
    rw [hhanded', List.mem_append, List.mem_map] at he
    rcases he with he | ⟨fix, -, rfl⟩
    · exact (h.earlier e he).trans (Nat.lt_succ_self index)
    · exact Nat.lt_succ_self index
  · -- what is handed out tonight waits for tomorrow at least
    rw [hpending', hhanded', List.filter_append, List.map_append]
    refine (h.waiting c).append (List.Perm.of_eq ?_)
    rw [List.filter_eq_self.mpr]
    · simp
    · simp only [List.mem_map, decide_eq_true_eq]
      rintro e ⟨fix, -, rfl⟩
      exact hdue fix
  · -- today's reruns are what was due today, and nothing of tonight's
    rw [hreruns', hhanded', List.filter_append, List.map_append]
    have htonight : ((found.getD []).map fun fix => (index, fix)).filter
        (fun h => h.2.commands ≠ [] ∧ c.due h < index + 1) = [] := by
      rw [List.filter_eq_nil_iff]
      simp only [List.mem_map, decide_eq_true_eq]
      rintro e ⟨fix, -, rfl⟩ ⟨-, hlt⟩
      exact absurd (hdue fix) (by omega)
    rw [htonight, List.map_nil, List.append_nil]
    refine .trans ?_ ((c.filter_due_succ s.log.handed).map _).symm
    rw [List.map_append]
    refine h.reruns.append (((hlanded.trans (h.landed c)).map _).trans (List.Perm.of_eq ?_))
    rw [List.map_map]
    refine List.map_congr_left fun e he => ?_
    rw [(of_decide_eq_true (List.mem_filter.mp he).2).2]
    rfl
  · -- in order within the day, and after every earlier day
    rw [hreruns', List.pairwise_append]
    refine ⟨h.inOrder, ?_, ?_⟩
    · rw [List.pairwise_map]
      exact (c.pairwise_rerun_happened index s.pending).imp fun hle => .inr ⟨rfl, hle⟩
    · intro r hr r' hr'
      obtain ⟨fix, -, rfl⟩ := List.mem_map.mp hr'
      exact .inl (h.past r hr)
  · intro r hr
    rw [hreruns', List.mem_append, List.mem_map] at hr
    rcases hr with hr | ⟨fix, -, rfl⟩
    · exact (h.past r hr).trans (Nat.lt_succ_self index)
    · exact Nat.lt_succ_self index

theorem scheduled_after (hok : c.after days = .ok s) : c.Scheduled days s := by
  refine c.of_days (I := c.Scheduled) ?_ (fun _ _ _ => c.scheduled_day) hok
  constructor <;> simp [begin, Op.rerunFix, Op.foundFixes]

/-- **Every fix is rerun once, when it has landed.** In every run and after any number of
its days: the reruns are the fixes handed out that give commands and were due by then, each
on the day it was due; the fixes that were not due are still pending; and reruns come in
the order of their days, and within a day in the order in which the fixes landed. -/
theorem fixes_rerun_once (hok : c.after days = .ok s) :
    s.log.reruns.Perm ((s.log.handed.filter fun h =>
      h.2.commands ≠ [] ∧ c.due h < days).map fun h => (c.due h, h.2)) ∧
    s.pending.Perm ((s.log.handed.filter fun h => days ≤ c.due h).map Prod.snd) ∧
    s.log.reruns.Pairwise fun r r' => r.1 < r'.1 ∨ r.1 = r'.1 ∧ r.2.time ≤ r'.2.time := by
  have h := c.scheduled_after hok
  exact ⟨h.reruns, h.pending, h.inOrder⟩

theorem fixes_rerun_once_two_weeks : ∃ s, twoWeeks.after 14 = .ok s ∧
    s.log.reruns.map (fun r => (r.1, r.2.incidentId)) = [(10, "INC-001")] ∧
    s.log.reruns.Perm ((s.log.handed.filter fun h =>
      h.2.commands ≠ [] ∧ twoWeeks.due h < 14).map fun h => (twoWeeks.due h, h.2)) := by
  refine ⟨_, rfl, by decide, ?_⟩
  exact (@fixes_rerun_once twoWeeks _ 14 rfl).1

end Company

end PlatformOps.Simulation
