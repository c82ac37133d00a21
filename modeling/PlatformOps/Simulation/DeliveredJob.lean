import PlatformOps.Simulation.Convergence

/-!
# The Delivered Job Is the Fixed Job Behind Its Defects

Each defect of the delivered job changes one column's expression or the load's
filter, nothing else. So it does to the legacy rows what the fixed job does to the
rows seen through the defects: those it loses left out, every other one as it reads
it, and what is shown of the fixed job's loads carries over.

- `Job.through`, `World.through`, `Event.through`: rows, states and events behind
  the defects.
- `step_through`: one event of the delivered job is at most one of the fixed job.
- `delivered_job_simulated`: the main result.
-/

namespace PlatformOps.Simulation

open Machine

variable {V : Type} (job : Job V)

/-! ## Behind the defects -/

/-- The job as the migration team ships it in the end. -/
def Job.fixed : Job V := { job with delivered := false }

/-- A legacy table as the delivered job sees it. -/
def Job.through (t : Table) (rows : List (Row V)) : List (Row V) :=
  (rows.filter fun r => !job.dropped t r).map (job.read t [])

def World.through (w : World V) : World V :=
  { w with legacy := fun t => job.through t (w.legacy t) }

/-- An event, over the rows behind the defects: a commit of a row the job loses is no event. -/
def Event.through : Event V → List (Event V)
  | .commit t row => if job.dropped t row then [] else [.commit t (job.read t [] row)]
  | e => [e]

variable {job}

theorem Job.mem_through {t : Table} {rows : List (Row V)} {r : Row V} :
    r ∈ job.through t rows ↔ ∃ r' ∈ rows, job.dropped t r' = false ∧ job.read t [] r' = r := by
  simp [Job.through, and_assoc]

/-- Keys stay unique behind the defects. -/
theorem Job.nodup_keys_through {t : Table} {rows : List (Row V)} (h : (rows.map Row.key).Nodup) :
    ((job.through t rows).map Row.key).Nodup := by
  rw [Job.through, List.map_map]
  exact h.sublist (List.filter_sublist.map Row.key)

/-- What is lost depends on the key. -/
theorem Job.dropped_congr {t : Table} {r r' : Row V} (h : r.key = r'.key) :
    job.dropped t r = job.dropped t r' := by
  simp only [Job.dropped, h]

/-- The fixed job reads of a row behind the defects what the delivered job reads of the row. -/
theorem Job.fixed_read (t : Table) (nulled : List NulledColumn) (r : Row V) :
    job.fixed.read t nulled (job.read t [] r) = job.read t nulled r := by
  simp [Job.read, Job.fixed, Job.expression, Function.comp_def]

theorem Job.selected_eq (t : Table) (since : Option Timestamp) (upTo : Timestamp) (r : Row V) :
    job.selected t since upTo r =
      (job.fixed.selected t since upTo (job.read t [] r) && !job.dropped t r) := by
  simp [Job.selected, Job.fixed, Job.dropped, Job.read]

/-- **One read**: the two jobs insert the same rows. -/
theorem Job.pulled_through (t : Table) (since : Option Timestamp) (upTo : Timestamp)
    (nulled : List NulledColumn) (rows : List (Row V)) :
    job.fixed.pulled t since upTo nulled (job.through t rows) =
      job.pulled t since upTo nulled rows := by
  have hselected : (job.through t rows).filter (job.fixed.selected t since upTo) =
      (rows.filter (job.selected t since upTo)).map (job.read t []) := by
    rw [Job.through, List.filter_map, List.filter_filter]
    congr 1
    apply List.filter_congr
    intro r _
    rw [Job.selected_eq, Function.comp_apply]
  -- reading keeps the keys, so the order too
  have hsorted := List.map_insertionSort (r := fun a b : Row V => a.key ≤ b.key)
    (s := fun a b : Row V => a.key ≤ b.key) (job.read t [])
    (rows.filter (job.selected t since upTo)) fun _ _ _ _ => Iff.rfl
  rw [Job.pulled, Job.pulled, hselected, ← hsorted, List.map_map]
  apply List.map_congr_left
  intro r _
  rw [Function.comp_apply, Job.fixed_read]

/-! ## One event -/

theorem Job.key_mem_through {t : Table} {row : Row V} {rows : List (Row V)}
    (hkept : job.dropped t row = false) :
    row.key ∈ (job.through t rows).map Row.key ↔ row.key ∈ rows.map Row.key := by
  simp only [List.mem_map, Job.mem_through]
  constructor
  · rintro ⟨_, ⟨r, hr, -, rfl⟩, hkey⟩
    exact ⟨r, hr, hkey⟩
  · rintro ⟨r, hr, hkey⟩
    exact ⟨_, ⟨r, hr, Job.dropped_congr hkey ▸ hkept, rfl⟩, hkey⟩

/-- What a commit in place leaves of the rows that are kept. -/
private theorem filter_replace {t : Table} (row : Row V) (rows : List (Row V)) :
    (rows.map fun r => if r.key = row.key then row else r).filter (fun r => !job.dropped t r) =
      (rows.filter fun r => !job.dropped t r).map fun r => if r.key = row.key then row else r := by
  rw [List.filter_map]
  congr 1
  apply List.filter_congr
  intro r _
  rw [Function.comp_apply]
  split
  · rename_i hkey
    rw [Job.dropped_congr hkey]
  · rfl

/-- A commit of a row the job loses changes nothing behind the defects. -/
theorem Job.through_upsert_of_dropped {t : Table} {row : Row V} {rows : List (Row V)}
    (hlost : job.dropped t row = true) : job.through t (upsert row rows) = job.through t rows := by
  rw [upsert, Job.through, Job.through]
  congr 1
  split
  · rw [filter_replace]
    -- no row that is kept has the key
    refine (List.map_congr_left (g := id) fun r hr => if_neg fun hkey => ?_).trans (List.map_id _)
    have hkept := (List.mem_filter.mp hr).2
    simp [Job.dropped_congr hkey, hlost] at hkept
  · simp [hlost]

theorem Job.through_upsert_of_kept {t : Table} {row : Row V} {rows : List (Row V)}
    (hkept : job.dropped t row = false) :
    job.through t (upsert row rows) = upsert (job.read t [] row) (job.through t rows) := by
  have hmem : (job.read t [] row).key ∈ (job.through t rows).map Row.key ↔
      row.key ∈ rows.map Row.key := Job.key_mem_through hkept
  rw [upsert, upsert]
  by_cases hkey : row.key ∈ rows.map Row.key
  · rw [if_pos hkey, if_pos (hmem.mpr hkey), Job.through, filter_replace, Job.through,
      List.map_map, List.map_map]
    apply List.map_congr_left
    intro r _
    by_cases hr : r.key = row.key
    · simp [hr]
    · simp [hr]
  · rw [if_neg hkey, if_neg (mt hmem.mp hkey), Job.through, Job.through]
    simp [hkept]

/-- A table replaced, seen through the defects. -/
theorem through_setTable {w : World V} {t : Table} {rows : List (Row V)} :
    World.through job { w with legacy := setTable w.legacy t rows } =
      { w.through job with
        legacy := setTable (w.through job).legacy t (job.through t rows) } := by
  simp only [World.through, World.mk.injEq, and_self, and_true]
  funext u
  by_cases hu : u = t
  · subst hu
    simp
  · simp [setTable_of_ne hu]

theorem setTable_eq_self (f : Table → List (Row V)) (t : Table) : setTable f t (f t) = f := by
  funext u
  by_cases hu : u = t
  · subst hu
    simp
  · simp [setTable_of_ne hu]

theorem inserts_through (w : World V) (f : Frame) (t : Table) :
    f.inserts job.fixed (w.through job) t = f.inserts job w t :=
  Job.pulled_through t _ _ _ _

/-- One statement does the same to both. -/
theorem execute_through (w : World V) (f : Frame) (s : Statement) (rest : List Statement) :
    execute job.fixed (w.through job) f s rest = (execute job w f s rest).through job := by
  cases s with
  | create u => rfl
  | watermarks => rfl
  | pull u =>
    simp only [execute, inserts_through]
    rfl
  | record => rfl

variable [DecidableEq V]

/-- **One event** of the delivered job is one of the fixed job behind the defects, or none. -/
theorem step_through {ok ok' : World V → Event V → Prop}
    (hok : ∀ w e, ok w e → ∀ e' ∈ e.through job, ok' (w.through job) e') {w w' : World V}
    {e : Event V} (he : ok w e) (hstep : step job w e = some w') :
    Run (step job.fixed) ok' (w.through job) (e.through job) (w'.through job) := by
  have hone : ∀ e', e.through job = [e'] → step job.fixed (w.through job) e' =
      some (w'.through job) →
      Run (step job.fixed) ok' (w.through job) (e.through job) (w'.through job) := by
    intro e' hevents hnext
    have hok' := hok w e he e' (hevents ▸ List.mem_singleton.mpr rfl)
    rw [hevents]
    exact .cons hok' hnext (.nil _)
  cases e with
  | commit t row =>
    cases hstep
    cases hlost : job.dropped t row with
    | true =>
      rw [Event.through, if_pos hlost, through_setTable, Job.through_upsert_of_dropped hlost]
      have hsame := setTable_eq_self (w.through job).legacy t
      simp only [World.through] at hsame ⊢
      rw [hsame]
      exact .nil _
    | false =>
      apply hone (.commit t (job.read t [] row))
      · rw [Event.through, hlost]
        rfl
      · rw [through_setTable, Job.through_upsert_of_kept hlost]
        rfl
  | merge t rows =>
    apply hone _ rfl
    simp only [step, Option.ite_none_right_eq_some, Option.some.injEq] at hstep ⊢
    obtain ⟨hmerges, rfl⟩ := hstep
    exact ⟨hmerges, rfl⟩
  | call c =>
    apply hone _ rfl
    obtain ⟨hidle, rfl⟩ := step_call hstep
    simp only [step, World.through, hidle]
  | statement =>
    apply hone _ rfl
    obtain ⟨f, s, rest, hrun, htodo, rfl⟩ := step_statement hstep
    have hrun' : (w.through job).running = some f := hrun
    simp only [step, hrun', htodo, execute_through]
  | raise rows =>
    apply hone _ rfl
    cases hrun : w.running with
    | none =>
      rw [step, hrun] at hstep
      cases hstep
    | some f =>
      have hrun' : (w.through job).running = some f := hrun
      simp only [step, hrun, hrun', inserts_through] at hstep ⊢
      split at hstep
      · rename_i t rest htodo
        simp only [Option.ite_none_right_eq_some, Option.some.injEq] at hstep ⊢
        obtain ⟨hsub, rfl⟩ := hstep
        exact ⟨hsub, rfl⟩
      · simp only [Option.ite_none_right_eq_some, Option.some.injEq] at hstep ⊢
        obtain ⟨hnil, rfl⟩ := hstep
        exact ⟨hnil, rfl⟩

/-- A run of the delivered job, behind the defects. -/
theorem run_through {ok ok' : World V → Event V → Prop}
    (hok : ∀ w e, ok w e → ∀ e' ∈ e.through job, ok' (w.through job) e') {w w' : World V}
    {es : List (Event V)} (hrun : Run (step job) ok w es w') :
    Run (step job.fixed) ok' (w.through job) (es.flatMap (Event.through job)) (w'.through job) := by
  have hsimulated : ∃ v, Run (step job.fixed) ok' (w.through job)
      (es.flatMap (Event.through job)) v ∧ v = w'.through job :=
    hrun.simulate (R := fun w v => v = w.through job)
      (fun w e w' v hv he hstep => ⟨w'.through job, hv ▸ step_through hok he hstep, rfl⟩) rfl
  obtain ⟨v, hrun', rfl⟩ := hsimulated
  exact hrun'

/-- **The delivered job is the fixed job behind its defects**, in every run: whatever is committed,
merged, called and raised, the fixed job over the rows seen through the defects can do the same,
and leaves the same raw tables, records and call under way. -/
theorem delivered_job_simulated (job : Job V) {w w' : World V} {es : List (Event V)}
    (hrun : Run (step job) (fun _ _ => True) w es w') :
    ∃ v, Run (step job.fixed) (fun _ _ => True) (w.through job)
        (es.flatMap (Event.through job)) v ∧
      v.raw = w'.raw ∧ v.loads = w'.loads ∧ v.running = w'.running ∧
      ∀ t, v.legacy t = job.through t (w'.legacy t) :=
  ⟨w'.through job, run_through (fun _ _ _ _ _ => trivial) hrun, rfl, rfl, rfl, fun _ => rfl⟩

/-! ## A run -/

/-- The job with its three expressions and the lost rows, an overlap of an hour. -/
def deliveredJob : Job String :=
  ⟨⟨"", fun _ v => v, fun v => v,
    fun v => String.ofList (v.toList.reverse.dropWhile (· = ' ')).reverse⟩, 60, {}, true⟩

/-- A load; a session that the job loses and an email that it trims; another load. -/
def deliveredRun : List (Event String) :=
  .call (.load (Duration.hours 10) false [] []) :: List.replicate 11 .statement ++
    .commit .webSessions ⟨25000, Duration.hours 11, [("channel", "email")]⟩ ::
    .commit .customers ⟨1, Duration.hours 12, [("email", "ann@new.test ")]⟩ ::
    .call (.load (Duration.hours 30) false [] []) :: List.replicate 11 .statement

def loadedTwice : World String :=
  (check (step deliveredJob) (fun _ _ => True) (World.init oneCustomer) deliveredRun).get
    (by decide)

theorem delivered_job_simulated_two_loads :
    ∃ v, Run (step deliveredJob.fixed) (fun _ _ => True)
        ((World.init oneCustomer).through deliveredJob)
        (deliveredRun.flatMap (Event.through deliveredJob)) v ∧
      v.raw = loadedTwice.raw ∧ v.loads = loadedTwice.loads ∧
      v.running = loadedTwice.running ∧
      ∀ t, v.legacy t = deliveredJob.through t (loadedTwice.legacy t) :=
  delivered_job_simulated deliveredJob (Run.of_check (Option.some_get _).symm)

end PlatformOps.Simulation
