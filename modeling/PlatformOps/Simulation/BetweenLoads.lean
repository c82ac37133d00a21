import PlatformOps.Simulation.DeliveredJob

/-!
# What a Copy Holds Between Loads

While calls succeed and no commit is stamped before what its table's last load
read, the raw table between two loads is the legacy table as of the recorded
watermark, as the job reads it: every row up to the watermark that the job does
not lose, and of the rows changed since an older version at most. The fixed job
loses nothing; the delivered job is the fixed one behind its defects.

- `Punctual`: the condition on each event.
- `UpToDate`, `upToDate_step`: the invariant and its step lemma.
- `copied_at_watermark`: the main result, for either job.
-/

namespace PlatformOps.Simulation

open Machine

variable {V : Type} {job : Job V} {w w' : World V} {t : Table}

/-! ## The condition on each event -/

/-- `Steady`, and no commit is stamped before what the table's last load read. -/
def Punctual (job : Job V) (w : World V) : Event V → Prop
  | .commit t row =>
    Steady job w (.commit t row) ∧ ∀ last ∈ w.lastLoaded t, last < row.updatedAt
  | e => Steady job w e

instance (w : World V) : (e : Event V) → Decidable (Punctual job w e)
  | .commit t row => inferInstanceAs (Decidable (Steady job w (.commit t row) ∧ _))
  | .merge t rows => inferInstanceAs (Decidable (Steady job w (.merge t rows)))
  | .call c => inferInstanceAs (Decidable (Steady job w (.call c)))
  | .statement => inferInstanceAs (Decidable (Steady job w .statement))
  | .raise rows => inferInstanceAs (Decidable (Steady job w (.raise rows)))

theorem Punctual.steady {e : Event V} (h : Punctual job w e) : Steady job w e := by
  cases e with
  | commit t row => exact h.1
  | _ => exact h

/-- A punctual event is one behind the defects. -/
theorem punctual_through {e : Event V} (h : Punctual job w e) :
    ∀ e' ∈ e.through job, Punctual job.fixed (w.through job) e' := by
  intro e' he'
  cases e with
  | commit t row =>
    rw [Event.through] at he'
    split at he'
    · cases he'
    · obtain rfl := List.mem_singleton.mp he'
      obtain ⟨⟨hversions, hoverlap⟩, hlate⟩ := h
      refine ⟨⟨fun r hr hkey => ?_, hoverlap⟩, hlate⟩
      obtain ⟨r', hr', -, rfl⟩ := Job.mem_through.mp hr
      exact hversions r' hr' hkey
  | _ =>
    obtain rfl := List.mem_singleton.mp he'
    exact h

/-! ## The invariant -/

/-- Every row up to the table's last `loaded_until` is current, unless the call under way has
emptied the table and not read it again. -/
def World.UpToDate (w : World V) (t : Table) : Prop :=
  (∀ f ∈ w.running, t ∈ f.emptied → t ∈ f.readTables) →
    ∀ last ∈ w.lastLoaded t, ∀ r ∈ w.legacy t, r.updatedAt ≤ last → w.Current t r

theorem upToDate_init (legacy : Table → List (Row V)) : (World.init legacy).UpToDate t := by
  intro _ last hlast
  simp [World.init, World.lastLoaded, World.watermark] at hlast

/-- A merge keeps what `FINAL` returns. -/
theorem World.Current.merge {u : Table} {rows : List (RawRow V)} {r : Row V}
    (h : w.Current t r) (hfinal : ∀ x ∈ w.raw u, final rows x.key = final (w.raw u) x.key) :
    World.Current { w with raw := setTable w.raw u rows } t r := by
  by_cases htu : t = u
  · subst htu
    obtain ⟨x, hx, hrow⟩ := Option.map_eq_some_iff.mp h
    obtain ⟨hmem, hkey⟩ := Versions.mem_of_latest hx
    simp only [World.Current, setTable_self]
    rw [← hkey, hfinal x hmem, hkey]
    exact h
  · simpa only [World.Current, setTable_of_ne htu] using h

section Statements

variable {f : Frame} {rest : List Statement}

private theorem upToDate_create {u : Table} (h : w.UpToDate t) (hstarted : f.Started w)
    (hrun : w.running = some f) (htodo : f.todo = .create u :: rest) :
    (execute job w f (.create u) rest).UpToDate t := by
  intro hread last hlast r hr hle
  by_cases htu : t = u
  · subst htu
    -- just emptied
    have hnot := hstarted.not_read_of_create htodo
    exact absurd (hread _ rfl (List.mem_append_right _ (List.mem_singleton_self t))) hnot
  · have hread' : ∀ g ∈ w.running, t ∈ g.emptied → t ∈ g.readTables := by
      intro g hg hemptied
      obtain rfl := Option.some.inj (hrun.symm.trans hg)
      exact hread { f with todo := rest, emptied := f.emptied ++ [u] } rfl
        (List.mem_append_left _ hemptied)
    have hlast' : last ∈ w.lastLoaded t := by
      rw [World.lastLoaded, hrun]
      exact hlast
    simpa only [World.Current, execute, setTable_of_ne htu] using h hread' last hlast' r hr hle

private theorem upToDate_watermarks (h : w.UpToDate t) (hrun : w.running = some f) :
    (execute job w f .watermarks rest).UpToDate t := by
  intro hread last hlast r hr hle
  apply h _ last _ r hr hle
  · intro g hg hemptied
    obtain rfl := Option.some.inj (hrun.symm.trans hg)
    exact hread { f with todo := rest, marks := w.watermark } rfl hemptied
  · rw [World.lastLoaded, hrun]
    exact hlast

private theorem upToDate_pull {u : Table} (hjob : job.delivered = false) (h : w.UpToDate t)
    (hconverging : w.Converging job t) (hw : w.InOrder) (hstarted : f.Started w)
    (hrun : w.running = some f) (htodo : f.todo = .pull u :: rest) :
    (execute job w f (.pull u) rest).UpToDate t := by
  intro hread last hlast r hr hle
  by_cases htu : t = u
  · subst htu
    -- read just now, up to the call's `until`
    rw [lastLoaded_read (f := _) rfl (by simp [Frame.readTables])] at hlast
    cases hlast
    exact current_of_pull hjob hconverging hw hstarted hrun htodo hr hle
  · have hread' : ∀ g ∈ w.running, t ∈ g.emptied → t ∈ g.readTables := by
      intro g hg hemptied
      obtain rfl := Option.some.inj (hrun.symm.trans hg)
      simpa [Frame.readTables, htu] using hread _ rfl hemptied
    have hlast' : last ∈ w.lastLoaded t := by
      simpa [World.lastLoaded, hrun, execute, Frame.readTables, World.watermark, htu] using hlast
    simpa only [World.Current, execute, setTable_of_ne htu] using h hread' last hlast' r hr hle

private theorem upToDate_record (h : w.UpToDate t) (hw : w.InOrder) (hstarted : f.Started w)
    (hrun : w.running = some f) (htodo : f.todo = .record :: rest) :
    (execute job w f .record rest).UpToDate t := by
  intro _ last hlast r hr hle
  apply h _ last _ r hr hle
  · -- every table that the call emptied has been read by now
    intro g hg hemptied
    obtain rfl := Option.some.inj (hrun.symm.trans hg)
    exact hstarted.read_of_emptied htodo hemptied
  · rw [lastLoaded_idle rfl] at hlast
    exact watermark_record (hw.frame f hrun).2.2 hstarted hrun hlast

end Statements

section Runs

variable [DecidableEq V]

/-- **One event** of the fixed job keeps a table up to date. -/
theorem upToDate_step (hjob : job.delivered = false) {e : Event V} (hstarted : w.Started)
    (hw : w.InOrder) (hconverging : w.Converging job t) (h : w.UpToDate t)
    (hok : Punctual job w e) (hstep : step job w e = some w') : w'.UpToDate t := by
  cases e with
  | commit u row =>
    cases hstep
    intro hread last hlast r hr hle
    by_cases htu : t = u
    · subst htu
      simp only [setTable_self] at hr
      rcases mem_upsert hr with rfl | ⟨hr, -⟩
      -- a row committed now is later than what was loaded
      · exact absurd hle (not_le.mpr (hok.2 last hlast))
      · exact h hread last hlast r hr hle
    · simp only [setTable_of_ne htu] at hr
      exact h hread last hlast r hr hle
  | merge u rows =>
    obtain ⟨-, hfinal, rfl⟩ := step_merge hstep
    intro hread last hlast r hr hle
    exact (h hread last hlast r hr hle).merge hfinal
  | call c =>
    obtain ⟨hidle, rfl⟩ := step_call hstep
    intro _ last hlast r hr hle
    apply h _ last _ r hr hle
    · simp [hidle]
    · rw [lastLoaded_unread rfl (by simp [Frame.readTables])] at hlast
      rw [lastLoaded_idle hidle]
      exact hlast
  | statement =>
    obtain ⟨f, s, rest, hrun, htodo, rfl⟩ := step_statement hstep
    have hf := hstarted f hrun
    cases s with
    | create u => exact upToDate_create h hf hrun htodo
    | watermarks => exact upToDate_watermarks h hrun
    | pull u => exact upToDate_pull hjob h hconverging hw hf hrun htodo
    | record => exact upToDate_record h hw hf hrun htodo
  -- `Punctual` runs do not raise
  | raise rows => exact hok.elim

/-- **Every run** of the fixed job from empty raw tables. -/
theorem upToDate_run (hjob : job.delivered = false) {legacy : Table → List (Row V)}
    (hkeys : ∀ t, ((legacy t).map Row.key).Nodup) {es : List (Event V)}
    (hrun : Run (step job) (Punctual job) (World.init legacy) es w) :
    ∀ t, w.Converging job t ∧ w.UpToDate t := by
  obtain ⟨hstarted, hw, hconverging⟩ := converging_run hjob hkeys (.nil (World.init legacy))
  have hrun' := hrun.invariant
    (I := fun w => w.Started ∧ w.InOrder ∧ (∀ t, w.Converging job t) ∧ ∀ t, w.UpToDate t)
    ⟨hstarted, hw, hconverging, fun _ => upToDate_init legacy⟩ ?_
  · exact fun t => ⟨hrun'.2.2.1 t, hrun'.2.2.2 t⟩
  · rintro w e w' ⟨hstarted, hw, hconverging, h⟩ hok hstep
    exact ⟨started_step hstarted hstep, inOrder_step hw hstarted hok.steady hstep,
      converging_step hjob hw hstarted hconverging hok.steady hstep,
      fun t => upToDate_step hjob hstarted hw (hconverging t) (h t) hok hstep⟩

end Runs

/-! ## The main result -/

/-- What a copy holds of a legacy table as of `mark`. -/
structure Job.Copied (job : Job V) (t : Table) (mark : Timestamp) (legacy copy : List (Row V)) :
    Prop where
  legacyKeys : (legacy.map Row.key).Nodup
  copyKeys : (copy.map Row.key).Nodup
  /-- Every row up to `mark` that the job does not lose, as the job reads it. -/
  held : ∀ r ∈ legacy, r.updatedAt ≤ mark → job.dropped t r = false → job.read t [] r ∈ copy
  /-- Nothing else: only rows up to their present version, and none the job loses. -/
  known : ∀ x ∈ copy, ∃ r ∈ legacy,
    r.key = x.key ∧ x.updatedAt ≤ r.updatedAt ∧ job.dropped t r = false

theorem nodup_keys_readFinal (rows : List (RawRow V)) : ((readFinal rows).map Row.key).Nodup := by
  have hread := @Versions.nodup_keys_readLatest _ _ _ _ _ RawRow.key RawRow.updatedAt rows
  rwa [readFinal, List.map_map]

/-- A table that is up to date between two loads is copied as of its watermark. -/
theorem copied_of_upToDate (hjob : job.delivered = false) (hconverging : w.Converging job t)
    (h : w.UpToDate t) (hidle : w.running = none) {mark : Timestamp}
    (hmark : w.watermark t = some mark) :
    job.Copied t mark (w.legacy t) (readFinal (w.raw t)) where
  legacyKeys := hconverging.keys
  copyKeys := nodup_keys_readFinal _
  held := by
    intro r hr hle _
    have hlast : mark ∈ w.lastLoaded t := by
      rw [lastLoaded_idle hidle]
      exact hmark
    obtain ⟨x, hx, rfl⟩ := Option.map_eq_some_iff.mp (h (by simp [hidle]) mark hlast r hr hle)
    rw [Job.read_eq_self hjob]
    exact List.mem_map_of_mem (Versions.mem_readLatest.mpr hx)
  known := by
    intro x hx
    obtain ⟨y, hy, rfl⟩ := List.mem_map.mp hx
    have hlatest : final (w.raw t) y.key = some y := Versions.mem_readLatest.mp hy
    obtain ⟨r, hr, hkey, hle⟩ := hconverging.versions y (Versions.mem_of_latest hlatest).1
    exact ⟨r, hr, hkey, hle, by simp [Job.dropped, hjob]⟩

/-- A copy of what is behind the defects is one of the legacy table. -/
theorem Job.Copied.of_through {mark : Timestamp} {legacy copy : List (Row V)}
    (hkeys : (legacy.map Row.key).Nodup)
    (h : job.fixed.Copied t mark (job.through t legacy) copy) : job.Copied t mark legacy copy where
  legacyKeys := hkeys
  copyKeys := h.copyKeys
  held := by
    intro r hr hle hkept
    have hheld := h.held _ (Job.mem_through.mpr ⟨r, hr, hkept, rfl⟩) hle rfl
    rwa [Job.read_eq_self rfl] at hheld
  known := by
    intro x hx
    obtain ⟨_, hr, hkey, hle, -⟩ := h.known x hx
    obtain ⟨r, hmem, hkept, rfl⟩ := Job.mem_through.mp hr
    exact ⟨r, hmem, hkey, hle, hkept⟩

/-- Commits keep the keys of the legacy tables unique. -/
theorem nodup_keys_legacy [DecidableEq V] {ok : World V → Event V → Prop}
    {legacy : Table → List (Row V)} (hkeys : ∀ t, ((legacy t).map Row.key).Nodup)
    {es : List (Event V)} (hrun : Run (step job) ok (World.init legacy) es w) :
    ∀ t, ((w.legacy t).map Row.key).Nodup := by
  refine hrun.invariant (I := fun w => ∀ t, ((w.legacy t).map Row.key).Nodup) hkeys ?_
  intro w e w' h _ hstep
  cases e with
  | commit u row =>
    cases hstep
    intro t
    by_cases htu : t = u
    · subst htu
      simpa using nodup_keys_upsert (h t)
    · simpa only [setTable_of_ne htu] using h t
  | merge u rows =>
    obtain ⟨-, -, rfl⟩ := step_merge hstep
    exact h
  | call c =>
    obtain ⟨-, rfl⟩ := step_call hstep
    exact h
  | statement =>
    obtain ⟨f, s, rest, -, -, rfl⟩ := step_statement hstep
    cases s <;> exact h
  | raise rows =>
    obtain ⟨-, -, hlegacy, -⟩ := step_raise hstep
    rwa [hlegacy]

/-- **Every run** of either job, behind its defects. -/
theorem upToDate_through [DecidableEq V] {legacy : Table → List (Row V)}
    (hkeys : ∀ t, ((legacy t).map Row.key).Nodup) {es : List (Event V)}
    (hrun : Run (step job) (Punctual job) (World.init legacy) es w) :
    ∀ t, (w.through job).Converging job.fixed t ∧ (w.through job).UpToDate t := by
  have hthrough : Run (step job.fixed) (Punctual job.fixed)
      (World.init fun t => job.through t (legacy t)) (es.flatMap (Event.through job))
      (w.through job) :=
    run_through (fun _ _ => punctual_through) hrun
  exact upToDate_run rfl (fun t => Job.nodup_keys_through (hkeys t)) hthrough

/-- **Between loads, a copy is the legacy table as of its watermark, as the job reads it**, defects
included: in every run from empty raw tables whose calls succeed and whose commits are stamped
after what was loaded, whenever no call is under way. -/
theorem copied_at_watermark [DecidableEq V] (job : Job V) {legacy : Table → List (Row V)}
    (hkeys : ∀ t, ((legacy t).map Row.key).Nodup) {es : List (Event V)}
    (hrun : Run (step job) (Punctual job) (World.init legacy) es w) (hidle : w.running = none)
    {mark : Timestamp} (hmark : w.watermark t = some mark) :
    job.Copied t mark (w.legacy t) (readFinal (w.raw t)) := by
  obtain ⟨hconverging, hupToDate⟩ := upToDate_through hkeys hrun t
  apply Job.Copied.of_through (nodup_keys_legacy hkeys hrun t)
  exact copied_of_upToDate rfl hconverging hupToDate hidle hmark

/-- The two loads, with nothing stamped late: the email is trimmed, the session is lost. -/
def copiedTwice : World String :=
  (check (step deliveredJob) (Punctual deliveredJob) (World.init oneCustomer) deliveredRun).get
    (by decide)

theorem copied_at_watermark_two_loads :
    deliveredJob.Copied .customers (Duration.hours 30) (copiedTwice.legacy .customers)
        (readFinal (copiedTwice.raw .customers)) ∧
      deliveredJob.Copied .webSessions (Duration.hours 30) (copiedTwice.legacy .webSessions)
        (readFinal (copiedTwice.raw .webSessions)) := by
  have hkeys : ∀ t, ((oneCustomer t).map Row.key).Nodup := by
    intro t
    cases t <;> decide
  have hrun : Run (step deliveredJob) (Punctual deliveredJob) (World.init oneCustomer)
      deliveredRun copiedTwice := Run.of_check (Option.some_get _).symm
  exact ⟨copied_at_watermark deliveredJob hkeys hrun rfl rfl,
    copied_at_watermark deliveredJob hkeys hrun rfl rfl⟩

end PlatformOps.Simulation
