import PlatformOps.Simulation.Ingestion

/-!
# What One Event Can Do

Small facts about the ingestion's statements, one inversion lemma per event, and
the frame invariant: a call under way has run an initial part of its statements,
and its bookkeeping (`marks`, `emptied`, `records`) is what that part leaves.
-/

namespace PlatformOps.Simulation

variable {V : Type} {job : Job V}

/-! ## Times -/

theorem Job.ts_le (value : Timestamp) : Job.ts value ≤ value := by
  simp only [Job.ts, Duration.seconds]
  lia

theorem Job.ts_mono {a b : Timestamp} (h : a ≤ b) : Job.ts a ≤ Job.ts b := by
  simp only [Job.ts, Duration.seconds]
  lia

theorem Job.overlap_nonneg (job : Job V) : 0 ≤ job.overlap := by
  simp only [Job.overlap, Duration.minutes, Duration.seconds]
  lia

/-! ## What a load reads -/

@[simp] theorem Job.key_read (t : Table) (nulled : List NulledColumn) (r : Row V) :
    (job.read t nulled r).key = r.key := rfl

@[simp] theorem Job.updatedAt_read (t : Table) (nulled : List NulledColumn) (r : Row V) :
    (job.read t nulled r).updatedAt = r.updatedAt := rfl

theorem Job.mem_pulled {t : Table} {since : Option Timestamp} {upTo : Timestamp}
    {nulled : List NulledColumn} {legacy : List (Row V)} {x : RawRow V} :
    x ∈ job.pulled t since upTo nulled legacy ↔
      ∃ r ∈ legacy, job.selected t since upTo r = true ∧ x = ⟨job.read t nulled r, ts upTo⟩ := by
  simp only [Job.pulled, List.mem_map, List.mem_insertionSort, List.mem_filter]
  constructor
  · rintro ⟨r, ⟨hr, hsel⟩, rfl⟩
    exact ⟨r, hr, hsel, rfl⟩
  · rintro ⟨r, hr, hsel, rfl⟩
    exact ⟨r, ⟨hr, hsel⟩, rfl⟩

/-- A row up to `upTo` and after `since` is read, unless the delivered job loses it. -/
theorem Job.selected_iff {t : Table} {since : Option Timestamp} {upTo : Timestamp} {r : Row V} :
    job.selected t since upTo r = true ↔
      (∀ s ∈ since, Job.ts s < r.updatedAt) ∧ r.updatedAt ≤ Job.ts upTo ∧
        job.dropped t r = false := by
  cases since <;> simp [Job.selected, and_assoc]

theorem mem_upsert {row r : Row V} {rows : List (Row V)} (h : r ∈ upsert row rows) :
    r = row ∨ (r ∈ rows ∧ r.key ≠ row.key) := by
  rw [upsert] at h
  split at h
  · -- the key is there: its row is replaced, the others stay
    obtain ⟨r', hr', rfl⟩ := List.mem_map.mp h
    split
    · exact Or.inl rfl
    · rename_i hne
      exact Or.inr ⟨hr', hne⟩
  · rename_i hnew
    rcases List.mem_append.mp h with hr | hr
    · exact Or.inr ⟨hr, fun heq => hnew (heq ▸ List.mem_map_of_mem hr)⟩
    · exact Or.inl (List.mem_singleton.mp hr)

/-! ## Tables by name -/

section SetTable

variable {A : Type}

@[simp] theorem setTable_self (f : Table → A) (t : Table) (a : A) : setTable f t a t = a := by
  simp [setTable]

theorem setTable_of_ne {f : Table → A} {t u : Table} {a : A} (h : u ≠ t) :
    setTable f t a u = f u := by
  simp [setTable, h]

end SetTable

/-! ## One event -/

section Inversion

variable [DecidableEq V] {w w' : World V}

theorem step_merge {t : Table} {rows : List (RawRow V)}
    (h : step job w (.merge t rows) = some w') :
    rows.Sublist (w.raw t) ∧ (∀ x ∈ w.raw t, final rows x.key = final (w.raw t) x.key) ∧
      w' = { w with raw := setTable w.raw t rows } := by
  simp only [step, mergesTo, Option.ite_none_right_eq_some, Bool.and_eq_true, decide_eq_true_eq,
    List.all_eq_true, Option.some.injEq] at h
  obtain ⟨⟨hsub, hfinal⟩, rfl⟩ := h
  exact ⟨hsub, hfinal, rfl⟩

theorem step_call {c : Call} (h : step job w (.call c) = some w') :
    w.running = none ∧
      w' = { w with running := some ⟨c, c.statements, fun _ => none, [], []⟩ } := by
  simp only [step] at h
  split at h
  · rename_i hidle
    cases h
    exact ⟨hidle, rfl⟩
  · -- one call at a time
    cases h

theorem step_statement (h : step job w .statement = some w') :
    ∃ f s rest, w.running = some f ∧ f.todo = s :: rest ∧ w' = execute job w f s rest := by
  simp only [step] at h
  split at h
  · cases h
  · rename_i f hf
    split at h
    · cases h
    · rename_i s rest htodo
      cases h
      exact ⟨f, s, rest, hf, htodo, rfl⟩

/-- A call that raises leaves the tables as they were, but for rows the statement
under way would have inserted. -/
theorem step_raise {rows : List (RawRow V)} (h : step job w (.raise rows) = some w') :
    ∃ f, w.running = some f ∧ w'.legacy = w.legacy ∧ w'.loads = w.loads ∧ w'.running = none ∧
      (w'.raw = w.raw ∨ ∃ t more, w'.raw = setTable w.raw t (w.raw t ++ more)) := by
  simp only [step] at h
  split at h
  · cases h
  · rename_i f hf
    split at h
    · -- an INSERT that fails may have inserted some of its rows
      rename_i t rest htodo
      split at h
      · cases h
        exact ⟨f, hf, rfl, rfl, rfl, Or.inr ⟨t, rows, rfl⟩⟩
      · cases h
    · split at h
      · cases h
        exact ⟨f, hf, rfl, rfl, rfl, Or.inl rfl⟩
      · cases h

end Inversion

/-! ## The frame invariant -/

/-- The tables a list of statements re-creates. -/
def created (done : List Statement) : List Table :=
  done.filterMap fun s => match s with
    | .create t => some t
    | _ => none

/-- The tables a list of statements reads. -/
def pulledTables (done : List Statement) : List Table :=
  done.filterMap fun s => match s with
    | .pull t => some t
    | _ => none

/-- The tables a call under way has read so far. -/
def Frame.readTables (f : Frame) : List Table :=
  f.records.map LoadRecord.table

/-- A call under way has run an initial part of its statements. -/
structure Frame.Started (f : Frame) (w : World V) : Prop where
  split : ∃ done, done ++ f.todo = f.call.statements ∧ f.emptied = created done ∧
    f.readTables = pulledTables done ∧
    f.marks = if .watermarks ∈ done then w.watermark else fun _ => none
  untils : ∀ l ∈ f.records, l.loadedUntil = f.call.until

def World.Started (w : World V) : Prop :=
  ∀ f, w.running = some f → f.Started w

theorem started_init (legacy : Table → List (Row V)) : (World.init legacy).Started :=
  fun _ h => by cases h

private theorem watermark_congr {w w' : World V} (h : w'.loads = w.loads) :
    w'.watermark = w.watermark := by
  funext t
  simp only [World.watermark, h]

private theorem Frame.Started.congr {f : Frame} {w w' : World V} (h : f.Started w)
    (hloads : w'.loads = w.loads) : f.Started w' where
  split := by
    rw [watermark_congr hloads]
    exact h.split
  untils := h.untils

/-- One statement moves the frame on by one statement. -/
private theorem started_execute {w : World V} {f : Frame} {s : Statement} {rest : List Statement}
    (h : f.Started w) (htodo : f.todo = s :: rest) : (execute job w f s rest).Started := by
  obtain ⟨done, hdone, hemptied, hread, hmarks⟩ := h.split
  have hnext : (done ++ [s]) ++ rest = f.call.statements := by
    rw [List.append_assoc, List.singleton_append, ← htodo, hdone]
  -- only the record of a call moves a watermark, and then the call is over
  have hmark : s ≠ .record → (execute job w f s rest).watermark = w.watermark := by
    intro hs
    cases s <;> first | exact watermark_congr rfl | exact absurd rfl hs
  intro f' hf'
  cases s with
  | create t =>
    cases hf'
    refine ⟨⟨done ++ [.create t], hnext, ?_, ?_, ?_⟩, h.untils⟩
    · simp [created, hemptied]
    · simpa [pulledTables, Frame.readTables] using hread
    · simpa [hmark (by simp)] using hmarks
  | watermarks =>
    cases hf'
    refine ⟨⟨done ++ [.watermarks], hnext, ?_, ?_, ?_⟩, h.untils⟩
    · simpa [created] using hemptied
    · simpa [pulledTables, Frame.readTables] using hread
    · simp [hmark (by simp)]
  | pull t =>
    cases hf'
    refine ⟨⟨done ++ [.pull t], hnext, ?_, ?_, ?_⟩, ?_⟩
    · simpa [created] using hemptied
    · simpa [pulledTables, Frame.readTables] using hread
    · simpa [hmark (by simp)] using hmarks
    · intro l hl
      rcases List.mem_append.mp hl with hl | hl
      · exact h.untils l hl
      · rw [List.mem_singleton.mp hl]
  | record => cases hf'

theorem started_step [DecidableEq V] {w w' : World V} {e : Event V} (h : w.Started)
    (hstep : step job w e = some w') : w'.Started := by
  cases e with
  | commit t row =>
    -- the application writes to the legacy tables, which no frame speaks of
    cases hstep
    exact fun f hf => (h f hf).congr rfl
  | merge t rows =>
    obtain ⟨-, -, rfl⟩ := step_merge hstep
    exact fun f hf => (h f hf).congr rfl
  | call c =>
    obtain ⟨-, rfl⟩ := step_call hstep
    intro f hf
    cases hf
    exact ⟨⟨[], rfl, rfl, rfl, by simp⟩, by simp⟩
  | statement =>
    obtain ⟨f, s, rest, hf, htodo, rfl⟩ := step_statement hstep
    exact started_execute (h f hf) htodo
  | raise rows =>
    obtain ⟨f, -, -, -, hidle, -⟩ := step_raise hstep
    intro f' hf'
    rw [hidle] at hf'
    cases hf'

/-! ## The order of a call's statements -/

/-- Tables are re-created and watermarks read before any table is read, and the record is last. -/
def Statement.rank : Statement → ℕ
  | .create _ => 0
  | .watermarks => 0
  | .pull _ => 1
  | .record => 2

def Statement.Before (a b : Statement) : Prop := a.rank ≤ b.rank ∧ a ≠ b

instance (a b : Statement) : Decidable (a.Before b) :=
  inferInstanceAs (Decidable (_ ∧ _))

private theorem pairwise_pulls (keep : Table → Bool) :
    ((tables.filter keep).map Statement.pull ++ [Statement.record]).Pairwise Statement.Before := by
  have hall : (tables.map Statement.pull ++ [Statement.record]).Pairwise Statement.Before := by decide
  exact hall.sublist (List.filter_sublist.map _ |>.append_right _)

theorem Call.pairwise_statements (c : Call) : c.statements.Pairwise Statement.Before := by
  cases c with
  | load upTo full skip nulled =>
    have hpulls := pairwise_pulls (fun t => decide (t ∉ skip))
    cases full with
    | true => simpa [Call.statements] using hpulls  -- a full load reads no watermarks
    | false =>
      have hfirst : ∀ s ∈ tables.map Statement.pull ++ [.record],
          Statement.watermarks.Before s := by decide
      refine List.pairwise_cons.mpr ⟨fun s hs => hfirst s ?_, hpulls⟩
      exact (List.filter_sublist.map _ |>.append_right _).subset hs
  | backfill upTo => exact (by decide : (Call.backfill 0).statements.Pairwise Statement.Before)
  | resync t upTo =>
    simp [Call.statements, Statement.Before, Statement.rank]

theorem Call.pull_mem_of_create_mem {c : Call} {t : Table} (h : .create t ∈ c.statements) :
    .pull t ∈ c.statements := by
  cases c with
  | load upTo full skip nulled =>
    -- a load re-creates no table
    cases full <;> simp [Call.statements] at h
  | backfill upTo => simp [Call.statements, mem_tables]
  | resync u upTo =>
    have htu : t = u := by simpa [Call.statements] using h
    simp [Call.statements, htu]

theorem Call.watermarks_not_mem_of_create_mem {c : Call} {t : Table}
    (h : .create t ∈ c.statements) : .watermarks ∉ c.statements := by
  cases c with
  | load upTo full skip nulled => cases full <;> simp [Call.statements] at h
  | backfill upTo => simp [Call.statements]
  | resync u upTo => simp [Call.statements]

/-- A load reads every table it does not skip. -/
theorem Call.pull_mem_load {upTo : Timestamp} {full : Bool} {skip : List Table}
    {nulled : List NulledColumn} {t : Table} (h : t ∉ skip) :
    .pull t ∈ (Call.load upTo full skip nulled).statements := by
  simp [Call.statements, h, mem_tables]

/-! ## What a frame knows -/

private theorem mem_created {done : List Statement} {t : Table} :
    t ∈ created done ↔ .create t ∈ done := by
  simp only [created, List.mem_filterMap]
  constructor
  · rintro ⟨s, hs, h⟩
    cases s <;> simp_all
  · exact fun h => ⟨_, h, rfl⟩

private theorem mem_pulledTables {done : List Statement} {t : Table} :
    t ∈ pulledTables done ↔ .pull t ∈ done := by
  simp only [pulledTables, List.mem_filterMap]
  constructor
  · rintro ⟨s, hs, h⟩
    cases s <;> simp_all
  · exact fun h => ⟨_, h, rfl⟩

namespace Frame.Started

variable {w : World V} {f : Frame} {s : Statement} {rest : List Statement}

/-- Every statement of the call has run, is next, or is to come in its order. -/
private theorem order (h : f.Started w) (htodo : f.todo = s :: rest) :
    ∃ done, done ++ s :: rest = f.call.statements ∧ f.emptied = created done ∧
      f.readTables = pulledTables done ∧
      f.marks = (if .watermarks ∈ done then w.watermark else fun _ => none) ∧
      (∀ b ∈ done, b.Before s) ∧ ∀ b ∈ rest, s.Before b := by
  obtain ⟨done, hdone, hemptied, hread, hmarks⟩ := h.split
  rw [htodo] at hdone
  have hpair := f.call.pairwise_statements
  rw [← hdone, List.pairwise_append] at hpair
  exact ⟨done, hdone, hemptied, hread, hmarks, fun b hb => hpair.2.2 b hb s (by simp),
    (List.pairwise_cons.mp hpair.2.1).1⟩

/-- A table is re-created before it is read. -/
theorem not_read_of_create {t : Table} (h : f.Started w) (htodo : f.todo = .create t :: rest) :
    t ∉ f.readTables := by
  obtain ⟨done, -, -, hread, -, hbefore, -⟩ := h.order htodo
  rw [hread, mem_pulledTables]
  intro hpull
  have hrank := (hbefore _ hpull).1
  simp [Statement.rank] at hrank

/-- A table is read once. -/
theorem not_read_of_pull {t : Table} (h : f.Started w) (htodo : f.todo = .pull t :: rest) :
    t ∉ f.readTables := by
  obtain ⟨done, -, -, hread, -, hbefore, -⟩ := h.order htodo
  rw [hread, mem_pulledTables]
  exact fun hpull => (hbefore _ hpull).2 rfl

/-- The record is last: by then every table re-created was read again. -/
theorem read_of_emptied {t : Table} (h : f.Started w) (htodo : f.todo = .record :: rest)
    (ht : t ∈ f.emptied) : t ∈ f.readTables := by
  obtain ⟨done, hdone, hemptied, hread, -, -, hafter⟩ := h.order htodo
  rw [hemptied, mem_created] at ht
  have hmem : .pull t ∈ f.call.statements :=
    Call.pull_mem_of_create_mem (hdone ▸ List.mem_append_left _ ht)
  rw [← hdone, List.mem_append, List.mem_cons] at hmem
  rcases hmem with hpull | heq | hpull
  · rw [hread, mem_pulledTables]
    exact hpull
  · cases heq
  · -- nothing is read after the record
    have hrank := (hafter _ hpull).1
    simp [Statement.rank] at hrank

/-- A load about to be recorded has read every table it does not skip. -/
theorem read_of_load {t : Table} {upTo : Timestamp} {full : Bool} {skip : List Table}
    {nulled : List NulledColumn} (h : f.Started w) (htodo : f.todo = .record :: rest)
    (hcall : f.call = .load upTo full skip nulled) (ht : t ∉ skip) : t ∈ f.readTables := by
  obtain ⟨done, hdone, -, hread, -, -, hafter⟩ := h.order htodo
  have hmem : .pull t ∈ f.call.statements := hcall ▸ Call.pull_mem_load ht
  rw [← hdone, List.mem_append, List.mem_cons] at hmem
  rcases hmem with hpull | heq | hpull
  · rw [hread, mem_pulledTables]
    exact hpull
  · cases heq
  · have hrank := (hafter _ hpull).1
    simp [Statement.rank] at hrank

/-- A table is read from its start, or, if the call did not re-create it, from its
watermark minus the overlap. -/
theorem since_cases {t : Table} (h : f.Started w) (htodo : f.todo = .pull t :: rest) :
    f.since job t = none ∨
      (t ∉ f.emptied ∧ f.since job t = (w.watermark t).map fun mark => mark - job.overlap) := by
  obtain ⟨done, hdone, hemptied, -, hmarks, -, -⟩ := h.order htodo
  by_cases hmark : .watermarks ∈ done
  · -- a call that reads watermarks re-creates nothing
    right
    rw [if_pos hmark] at hmarks
    refine ⟨fun ht => ?_, by rw [Frame.since, hmarks]⟩
    rw [hemptied, mem_created] at ht
    exact Call.watermarks_not_mem_of_create_mem (hdone ▸ List.mem_append_left _ ht)
      (hdone ▸ List.mem_append_left _ hmark)
  · -- a backfill, a resync or a full load
    left
    rw [if_neg hmark] at hmarks
    rw [Frame.since, hmarks]
    rfl

/-- After a table is read, the call neither reads nor re-creates it again. -/
theorem done_with {t : Table} (h : f.Started w) (htodo : f.todo = .pull t :: rest) :
    .pull t ∉ rest ∧ .create t ∉ rest := by
  obtain ⟨-, -, -, -, -, -, hafter⟩ := h.order htodo
  refine ⟨fun hmem => (hafter _ hmem).2 rfl, fun hmem => ?_⟩
  have hrank := (hafter _ hmem).1
  simp [Statement.rank] at hrank

end Frame.Started

end PlatformOps.Simulation
