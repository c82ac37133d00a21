import PlatformOps.Simulation.Frames

/-!
# When Ingestion Is Crash-Safe

A load reads on from the recorded watermark, so every row it will not read again
must be in the raw table already. `backfill` and `resync` empty raw tables and
leave their recorded watermarks in place: a call that raises after emptying a
table, and before reading it again, loses the history below the watermark.

- `history_lost_after_crash`: a backfill that raises, then a successful load.
- `Recoverable`: the condition on each event that keeps a run out of this.
- `covered_step`, `load_holds_every_row`: with it, a successful load leaves a raw
  row for every legacy row up to `until`.
-/

namespace PlatformOps.Simulation

open Machine

variable {V : Type} (job : Job V)

/-! ## What a raw table must hold -/

/-- The raw table holds a row of this key. -/
def World.Holds (w : World V) (t : Table) (key : ℤ) : Prop :=
  ∃ x ∈ w.raw t, x.key = key

/-- The time up to which a call that has read a table answers for it: a load up to its
`until`, the others up to where the next load reads on. -/
def Call.answersFor (c : Call) : Timestamp :=
  match c with
  | .load upTo _ _ _ => upTo
  | c => Job.ts (c.until - job.overlap)

/-- The times up to which a table's legacy rows are not read again: below the watermark
minus the overlap, and as far as the call under way answers for what it read. -/
def World.bounds (w : World V) (t : Table) : List Timestamp :=
  ((w.watermark t).map fun mark => Job.ts (mark - job.overlap)).toList ++
    ((w.running.toList.filter fun f => t ∈ f.readTables).map fun f => f.call.answersFor job)

/-- A legacy row the raw table has to hold by now. -/
def World.Due (w : World V) (t : Table) (r : Row V) : Prop :=
  ∃ b ∈ w.bounds job t, r.updatedAt ≤ b

/-! ## The condition on each event -/

/-- A commit is stamped after everything that is not read again, unless raw has the row. -/
def CommitOk (w : World V) (t : Table) (row : Row V) : Prop :=
  w.Holds t row.key ∨ ¬ w.Due job t row

/-- A table is emptied only by a call that reads all of its due rows again. -/
def CreateOk (w : World V) (f : Frame) (t : Table) : Prop :=
  ∀ r ∈ w.legacy t, w.Due job t r → r.updatedAt ≤ Job.ts f.call.until

/-- A read leaves out no row that is due after it and that raw does not hold: none stamped
in the last fraction of a second, which the loads' SQL cuts off, none the delivered job loses. -/
def PullOk (w : World V) (f : Frame) (t : Table) : Prop :=
  ∀ r ∈ w.legacy t, ¬ w.Holds t r.key → w.Due job t r ∨ r.updatedAt ≤ f.call.answersFor job →
    r.updatedAt ≤ Job.ts f.call.until ∧ job.dropped t r = false

/-- The call may raise: no table it emptied and did not read again has a due row. -/
def RaiseOk (w : World V) (f : Frame) : Prop :=
  ∀ t ∈ f.emptied, t ∉ f.readTables → ∀ r ∈ w.legacy t, ¬ w.Due job t r

def StatementOk (w : World V) : Option Frame → Prop
  | some ⟨c, .create t :: todo, marks, emptied, records⟩ =>
    CreateOk job w ⟨c, .create t :: todo, marks, emptied, records⟩ t
  | some ⟨c, .pull t :: todo, marks, emptied, records⟩ =>
    PullOk job w ⟨c, .pull t :: todo, marks, emptied, records⟩ t
  | _ => True

/-- The condition under which ingestion recovers from a call that raises. -/
def Recoverable (w : World V) : Event V → Prop
  | .commit t row => CommitOk job w t row
  | .statement => StatementOk job w w.running
  | .raise _ => ∀ f ∈ w.running, RaiseOk job w f
  | _ => True

section Decidable

instance (w : World V) (t : Table) (key : ℤ) : Decidable (w.Holds t key) :=
  inferInstanceAs (Decidable (∃ x ∈ w.raw t, x.key = key))

instance (w : World V) (t : Table) (r : Row V) : Decidable (w.Due job t r) :=
  inferInstanceAs (Decidable (∃ b ∈ w.bounds job t, r.updatedAt ≤ b))

instance (w : World V) (t : Table) (row : Row V) : Decidable (CommitOk job w t row) :=
  inferInstanceAs (Decidable (_ ∨ _))

instance (w : World V) (f : Frame) (t : Table) : Decidable (CreateOk job w f t) :=
  inferInstanceAs (Decidable (∀ r ∈ w.legacy t, _))

instance (w : World V) (f : Frame) (t : Table) : Decidable (PullOk job w f t) :=
  inferInstanceAs (Decidable (∀ r ∈ w.legacy t, _))

instance (w : World V) (f : Frame) : Decidable (RaiseOk job w f) :=
  inferInstanceAs (Decidable (∀ t ∈ f.emptied, _))

instance (w : World V) : (running : Option Frame) → Decidable (StatementOk job w running)
  | none => isTrue trivial
  | some ⟨c, .create t :: todo, marks, emptied, records⟩ =>
    inferInstanceAs (Decidable (CreateOk job w ⟨c, .create t :: todo, marks, emptied, records⟩ t))
  | some ⟨c, .pull t :: todo, marks, emptied, records⟩ =>
    inferInstanceAs (Decidable (PullOk job w ⟨c, .pull t :: todo, marks, emptied, records⟩ t))
  | some ⟨_, [], _, _, _⟩ => isTrue trivial
  | some ⟨_, .watermarks :: _, _, _, _⟩ => isTrue trivial
  | some ⟨_, .record :: _, _, _, _⟩ => isTrue trivial

instance (w : World V) : (e : Event V) → Decidable (Recoverable job w e)
  | .commit t row => inferInstanceAs (Decidable (CommitOk job w t row))
  | .merge _ _ => isTrue trivial
  | .call _ => isTrue trivial
  | .statement => inferInstanceAs (Decidable (StatementOk job w w.running))
  | .raise _ => inferInstanceAs (Decidable (∀ f ∈ w.running, RaiseOk job w f))

end Decidable

/-! ## The invariant -/

/-- The row's table was emptied by the call under way, which is still to read it, row
included. -/
def World.Awaited (w : World V) (t : Table) (r : Row V) : Prop :=
  ∃ f ∈ w.running, t ∈ f.emptied ∧ t ∉ f.readTables ∧ r.updatedAt ≤ Job.ts f.call.until

/-- Every due row of a table is in raw, or about to be read again. -/
def World.Covered (w : World V) (t : Table) : Prop :=
  ∀ r ∈ w.legacy t, w.Due job t r → w.Holds t r.key ∨ w.Awaited t r

section Invariant

variable {job} {w w' : World V} {f : Frame} {t : Table} {r : Row V}

theorem mem_bounds {b : Timestamp} : b ∈ w.bounds job t ↔
    (∃ mark, w.watermark t = some mark ∧ b = Job.ts (mark - job.overlap)) ∨
      ∃ f, w.running = some f ∧ t ∈ f.readTables ∧ b = f.call.answersFor job := by
  simp only [World.bounds, List.mem_append, Option.mem_toList, Option.map_eq_some_iff,
    List.mem_map, List.mem_filter, decide_eq_true_eq, and_assoc, eq_comm (a := b)]

/-- Due rows depend on the recorded loads and the call under way only. -/
theorem World.Due.mono (h : w'.Due job t r) (hmarks : w'.watermark t = w.watermark t)
    (hread : ∀ f', w'.running = some f' → t ∈ f'.readTables →
      ∃ f, w.running = some f ∧ t ∈ f.readTables ∧ f.call = f'.call) : w.Due job t r := by
  obtain ⟨b, hb, hle⟩ := h
  refine ⟨b, ?_, hle⟩
  rcases mem_bounds.mp hb with ⟨mark, hmark, hbound⟩ | ⟨f', hf', ht, hbound⟩
  · exact mem_bounds.mpr (Or.inl ⟨mark, hmarks ▸ hmark, hbound⟩)
  · obtain ⟨f, hf, htf, hcall⟩ := hread f' hf' ht
    exact mem_bounds.mpr (Or.inr ⟨f, hf, htf, hcall ▸ hbound⟩)

theorem World.Holds.mono {key : ℤ} (h : w.Holds t key) (hraw : ∀ x ∈ w.raw t, x ∈ w'.raw t) :
    w'.Holds t key := by
  obtain ⟨x, hx, hkey⟩ := h
  exact ⟨x, hraw x hx, hkey⟩

/-- A merge drops no key. -/
theorem World.Holds.of_merge {key : ℤ} {rows : List (RawRow V)} (h : w.Holds t key)
    (hfinal : ∀ x ∈ w.raw t, final rows x.key = final (w.raw t) x.key) :
    ∃ x ∈ rows, x.key = key := by
  obtain ⟨x, hx, rfl⟩ := h
  rw [← @Versions.latest_isSome_iff _ _ _ _ _ _ RawRow.updatedAt]
  change (final rows x.key).isSome
  rw [hfinal x hx]
  exact Versions.latest_isSome_iff.mpr ⟨x, hx, rfl⟩

/-- A time read back from the loads is at most the watermark. -/
theorem watermark_le {l : LoadRecord} (hl : l ∈ w.loads) (ht : l.table = t) :
    ∃ mark, w.watermark t = some mark ∧ l.loadedUntil ≤ mark := by
  have hmem : l.loadedUntil ∈ (w.loads.filter fun l => l.table = t).map LoadRecord.loadedUntil :=
    List.mem_map_of_mem (List.mem_filter.mpr ⟨hl, by simpa using ht⟩)
  cases hmark : w.watermark t with
  | none =>
    rw [World.watermark, List.max?_eq_none_iff] at hmark
    rw [hmark] at hmem
    cases hmem
  | some mark => exact ⟨mark, rfl, (List.max?_eq_some_iff.mp hmark).2 _ hmem⟩

theorem exists_of_watermark {mark : Timestamp} (h : w.watermark t = some mark) :
    ∃ l ∈ w.loads, l.table = t ∧ l.loadedUntil = mark := by
  have hmem := (List.max?_eq_some_iff.mp h).1
  obtain ⟨l, hl, hmark⟩ := List.mem_map.mp hmem
  obtain ⟨hl, ht⟩ := List.mem_filter.mp hl
  exact ⟨l, hl, by simpa using ht, hmark⟩

/-- Where the next load reads on is within what a call answers for. -/
theorem ts_sub_overlap_le_answersFor (c : Call) :
    Job.ts (c.until - job.overlap) ≤ c.answersFor job := by
  cases c with
  | load upTo full skip nulled =>
    refine (Job.ts_le _).trans ?_
    have := job.overlap_nonneg
    simp only [Call.until, Call.answersFor]
    linarith
  | backfill upTo => exact le_rfl
  | resync u upTo => exact le_rfl

end Invariant

/-! ## The invariant is preserved -/

section Preserved

variable {job} {w w' : World V} {f : Frame} {t : Table} {rest : List Statement}

private theorem covered_commit {u : Table} {row : Row V} (h : w.Covered job t)
    (hok : CommitOk job w u row) :
    World.Covered job { w with legacy := setTable w.legacy u (upsert row (w.legacy u)) } t := by
  intro r hr hdue
  have hbefore : w.Due job t r := hdue
  by_cases htu : t = u
  · subst htu
    simp only [setTable_self] at hr
    rcases mem_upsert hr with rfl | ⟨hr, -⟩
    · exact Or.inl (hok.resolve_right (not_not_intro hbefore))
    · exact h r hr hbefore
  · simp only [setTable_of_ne htu] at hr
    exact h r hr hbefore

private theorem covered_merge {u : Table} {rows : List (RawRow V)} (h : w.Covered job t)
    (hfinal : ∀ x ∈ w.raw u, final rows x.key = final (w.raw u) x.key) :
    World.Covered job { w with raw := setTable w.raw u rows } t := by
  intro r hr hdue
  refine (h r hr hdue).imp_left fun hheld => ?_
  by_cases htu : t = u
  · subst htu
    simpa [World.Holds] using hheld.of_merge hfinal
  · simpa [World.Holds, setTable_of_ne htu] using hheld

private theorem covered_call {c : Call} (h : w.Covered job t) (hidle : w.running = none) :
    World.Covered job
      { w with running := some ⟨c, c.statements, fun _ => none, [], []⟩ } t := by
  intro r hr hdue
  have hbefore : w.Due job t r := by
    refine hdue.mono rfl fun f hf ht => ?_
    cases hf
    simp [Frame.readTables] at ht
  refine (h r hr hbefore).imp_right fun hawaited => ?_
  obtain ⟨f, hf, -⟩ := hawaited
  rw [hidle] at hf
  cases hf

private theorem covered_create {u : Table} (h : w.Covered job t) (hstarted : f.Started w)
    (hrun : w.running = some f) (htodo : f.todo = .create u :: rest)
    (hok : CreateOk job w f u) : (execute job w f (.create u) rest).Covered job t := by
  intro r hr hdue
  have hbefore : w.Due job t r := by
    refine hdue.mono rfl fun f' hf' ht => ?_
    cases hf'
    exact ⟨f, hrun, ht, rfl⟩
  by_cases htu : t = u
  · -- the table is empty now: its due rows are read again, up to the call's `until`
    subst htu
    right
    exact ⟨_, rfl, List.mem_append_right _ (List.mem_singleton.mpr rfl),
      hstarted.not_read_of_create htodo, hok r hr hbefore⟩
  · rcases h r hr hbefore with hheld | ⟨f', hf', hemptied, hread, hle⟩
    · left
      simpa [World.Holds, execute, setTable_of_ne htu] using hheld
    · right
      obtain rfl := Option.some.inj (hrun.symm.trans hf')
      exact ⟨_, rfl, List.mem_append_left _ hemptied, hread, hle⟩

private theorem covered_watermarks (h : w.Covered job t) (hrun : w.running = some f) :
    (execute job w f .watermarks rest).Covered job t := by
  intro r hr hdue
  have hbefore : w.Due job t r := by
    refine hdue.mono rfl fun f' hf' ht => ?_
    cases hf'
    exact ⟨f, hrun, ht, rfl⟩
  refine (h r hr hbefore).imp_right fun hawaited => ?_
  obtain ⟨f', hf', hemptied, hread, hle⟩ := hawaited
  obtain rfl := Option.some.inj (hrun.symm.trans hf')
  exact ⟨_, rfl, hemptied, hread, hle⟩

/-- After a table is read, raw holds every row that is due by then. -/
private theorem holds_of_pull {r : Row V} (h : w.Covered job t) (hstarted : f.Started w)
    (hrun : w.running = some f) (htodo : f.todo = .pull t :: rest) (hok : PullOk job w f t)
    (hr : r ∈ w.legacy t) (hdue : w.Due job t r ∨ r.updatedAt ≤ f.call.answersFor job) :
    (execute job w f (.pull t) rest).Holds t r.key := by
  by_cases hheld : w.Holds t r.key
  · refine hheld.mono fun x hx => ?_
    simp [execute, hx]
  obtain ⟨hle, hdropped⟩ := hok r hr hheld hdue
  have hsel : job.selected t (f.since job t) f.call.until r = true := by
    refine Job.selected_iff.mpr ⟨fun s hs => ?_, hle, hdropped⟩
    rcases (hstarted.since_cases htodo : f.since job t = none ∨ _) with hnone | ⟨hkept, hsince⟩
    · rw [hnone] at hs
      cases hs
    · -- at or before the watermark minus the overlap the row is due, and so held
      by_contra hlate
      obtain ⟨mark, hmark, rfl⟩ := Option.map_eq_some_iff.mp (hsince ▸ hs)
      have hold : w.Due job t r :=
        ⟨_, mem_bounds.mpr (Or.inl ⟨mark, hmark, rfl⟩), not_lt.mp hlate⟩
      rcases h r hr hold with hheld' | ⟨f', hf', hemptied, -⟩
      · exact hheld hheld'
      · obtain rfl := Option.some.inj (hrun.symm.trans hf')
        exact hkept hemptied
  refine ⟨⟨job.read t f.call.nulled r, Job.ts f.call.until⟩, ?_, rfl⟩
  simp only [execute, setTable_self, List.mem_append, Frame.inserts]
  exact Or.inr (Job.mem_pulled.mpr ⟨r, hr, hsel, rfl⟩)

private theorem covered_pull {u : Table} (h : w.Covered job t) (hstarted : f.Started w)
    (hrun : w.running = some f) (htodo : f.todo = .pull u :: rest) (hok : PullOk job w f u) :
    (execute job w f (.pull u) rest).Covered job t := by
  intro r hr hdue
  by_cases htu : t = u
  · subst htu
    left
    refine holds_of_pull h hstarted hrun htodo hok hr ?_
    obtain ⟨b, hb, hle⟩ := hdue
    rcases mem_bounds.mp hb with ⟨mark, hmark, hbound⟩ | ⟨f', hf', -, hbound⟩
    · exact Or.inl ⟨b, mem_bounds.mpr (Or.inl ⟨mark, hmark, hbound⟩), hle⟩
    · cases hf'
      exact Or.inr (hbound ▸ hle)
  -- another table: nothing about its reading changes
  · have hread : ∀ x : LoadRecord, x.table = u →
        (t ∈ (f.records ++ [x]).map LoadRecord.table ↔ t ∈ f.readTables) := by
      intro x hx
      simp [Frame.readTables, hx, htu]
    have hbefore : w.Due job t r := by
      refine hdue.mono rfl fun f' hf' ht => ?_
      cases hf'
      exact ⟨f, hrun, (hread _ rfl).mp ht, rfl⟩
    rcases h r hr hbefore with hheld | ⟨f', hf', hemptied, hnot, hle⟩
    · left
      simpa [World.Holds, execute, setTable_of_ne htu] using hheld
    · right
      obtain rfl := Option.some.inj (hrun.symm.trans hf')
      exact ⟨_, rfl, hemptied, fun ht => hnot ((hread _ rfl).mp ht), hle⟩

private theorem covered_record (h : w.Covered job t) (hstarted : f.Started w)
    (hrun : w.running = some f) (htodo : f.todo = .record :: rest) :
    (execute job w f .record rest).Covered job t := by
  intro r hr hdue
  have hbefore : w.Due job t r := by
    obtain ⟨b, hb, hle⟩ := hdue
    rcases mem_bounds.mp hb with ⟨mark, hmark, rfl⟩ | ⟨f', hf', -⟩
    · obtain ⟨l, hl, hlt, rfl⟩ := exists_of_watermark hmark
      rcases List.mem_append.mp hl with hl | hl
      · obtain ⟨mark, hmark, hlmark⟩ := watermark_le hl hlt
        refine ⟨_, mem_bounds.mpr (Or.inl ⟨mark, hmark, rfl⟩), hle.trans (Job.ts_mono ?_)⟩
        linarith
      · -- the new watermark: the call answered for it already
        refine ⟨_, mem_bounds.mpr (Or.inr ⟨f, hrun, ?_, rfl⟩), hle.trans ?_⟩
        · exact List.mem_map.mpr ⟨l, hl, hlt⟩
        · rw [hstarted.untils l hl]
          exact ts_sub_overlap_le_answersFor f.call
    · cases hf'
  rcases h r hr hbefore with hheld | ⟨f', hf', hemptied, hread, -⟩
  · exact Or.inl hheld
  · obtain rfl := Option.some.inj (hrun.symm.trans hf')
    exact absurd (hstarted.read_of_emptied htodo hemptied) hread

private theorem covered_raise (h : w.Covered job t) (hrun : w.running = some f)
    (hok : RaiseOk job w f) (hlegacy : w'.legacy = w.legacy) (hloads : w'.loads = w.loads)
    (hidle : w'.running = none)
    (hraw : w'.raw = w.raw ∨ ∃ u more, w'.raw = setTable w.raw u (w.raw u ++ more)) :
    w'.Covered job t := by
  intro r hr hdue
  rw [hlegacy] at hr
  have hbefore : w.Due job t r := by
    refine hdue.mono ?_ fun f' hf' _ => ?_
    · simp only [World.watermark, hloads]
    · rw [hidle] at hf'
      cases hf'
  left
  rcases h r hr hbefore with hheld | ⟨f', hf', hemptied, hread, -⟩
  -- what the failed insert left only adds rows
  · refine hheld.mono fun x hx => ?_
    rcases hraw with heq | ⟨u, more, heq⟩
    · rwa [heq]
    · rw [heq]
      by_cases htu : t = u
      · subst htu
        simp [hx]
      · rwa [setTable_of_ne htu]
  · obtain rfl := Option.some.inj (hrun.symm.trans hf')
    -- a table emptied and not read again: ruled out by `RaiseOk`
    exact absurd hbefore (hok t hemptied hread r hr)

/-- **One event**: under the condition, due rows stay covered. -/
theorem covered_step [DecidableEq V] {e : Event V} (hstarted : w.Started)
    (h : ∀ t, w.Covered job t) (hok : Recoverable job w e) (hstep : step job w e = some w') :
    ∀ t, w'.Covered job t := by
  intro t
  cases e with
  | commit u row =>
    cases hstep
    exact covered_commit (h t) hok
  | merge u rows =>
    obtain ⟨-, hfinal, rfl⟩ := step_merge hstep
    exact covered_merge (h t) hfinal
  | call c =>
    obtain ⟨hidle, rfl⟩ := step_call hstep
    exact covered_call (h t) hidle
  | statement =>
    obtain ⟨f, s, rest, hrun, htodo, rfl⟩ := step_statement hstep
    have hf := hstarted f hrun
    obtain ⟨c, todo, marks, emptied, records⟩ := f
    subst htodo
    simp only [Recoverable, hrun] at hok
    cases s with
    | create u => exact covered_create (h t) hf hrun rfl hok
    | watermarks => exact covered_watermarks (h t) hrun
    | pull u => exact covered_pull (h t) hf hrun rfl hok
    | record => exact covered_record (h t) hf hrun rfl
  -- the call is gone with what it had promised to read
  | raise rows =>
    obtain ⟨f, hrun, hlegacy, hloads, hidle, hraw⟩ := step_raise hstep
    exact covered_raise (h t) hrun (hok f hrun) hlegacy hloads hidle hraw

/-- **Every run**: from empty raw tables, due rows are covered in every state reached. -/
theorem covered_run [DecidableEq V] {legacy : Table → List (Row V)} {es : List (Event V)}
    (hrun : Run (step job) (Recoverable job) (World.init legacy) es w) :
    w.Started ∧ ∀ t, w.Covered job t := by
  refine hrun.invariant (I := fun w => w.Started ∧ ∀ t, w.Covered job t)
    ⟨started_init legacy, fun t r _ hdue => ?_⟩ ?_
  · -- no load is recorded yet, so no row is due
    obtain ⟨b, hb, -⟩ := hdue
    simp [World.bounds, World.init, World.watermark] at hb
  · rintro s e s' ⟨hstarted, hcovered⟩ hok hs
    exact ⟨started_step hstarted hs, covered_step hstarted hcovered hok hs⟩

end Preserved

/-! ## The main result -/

/-- After a load up to `upTo`, raw holds a row for every legacy row up to then. -/
def HoldsUpTo (w : World V) (t : Table) (upTo : Timestamp) : Prop :=
  ∀ r ∈ w.legacy t, r.updatedAt ≤ upTo → w.Holds t r.key

/-- **Crash safety, where it holds**: in every run whose events are all recoverable, the last
statement of a load leaves a raw row for every legacy row up to `until` of each table the
load does not skip. -/
theorem load_holds_every_row [DecidableEq V] {job : Job V} {legacy : Table → List (Row V)}
    {es : List (Event V)} {w w' : World V} {f : Frame} {upTo : Timestamp} {full : Bool}
    {skip : List Table} {nulled : List NulledColumn} {t : Table}
    (hrun : Run (step job) (Recoverable job) (World.init legacy) es w)
    (hframe : w.running = some f) (hcall : f.call = .load upTo full skip nulled)
    (hlast : f.todo = [.record]) (hskip : t ∉ skip) (hstep : step job w .statement = some w') :
    w'.running = none ∧ HoldsUpTo w' t upTo := by
  obtain ⟨hstarted, hcovered⟩ := covered_run hrun
  obtain ⟨f', s, rest, hf', htodo, rfl⟩ := step_statement hstep
  obtain rfl := Option.some.inj (hframe.symm.trans hf')
  rw [hlast, List.cons.injEq] at htodo
  obtain ⟨rfl, rfl⟩ := htodo
  refine ⟨rfl, fun r hr hle => ?_⟩
  have hread := (hstarted f hframe).read_of_load hlast hcall hskip
  -- the call has read the table: it answers for every row up to its bound
  have hdue : w.Due job t r :=
    ⟨_, mem_bounds.mpr (Or.inr ⟨f, hframe, hread, rfl⟩), by rw [hcall]; exact hle⟩
  rcases hcovered t r hr hdue with hheld | ⟨f', hf', -, hnot, -⟩
  · exact hheld
  · obtain rfl := Option.some.inj (hframe.symm.trans hf')
    exact absurd hread hnot

/-! ## Two runs -/

/-- The fixed job with an overlap of an hour. -/
def fixedJob : Job String :=
  ⟨⟨"", fun _ v => v, fun v => v, fun v => v⟩, 60, {}, false⟩

/-- One customer, written at the start of time. -/
def oneCustomer : Table → List (Row String)
  | .customers => [⟨1, 0, [("email", "ann@example.test")]⟩]
  | _ => []

instance (w : World V) (t : Table) (upTo : Timestamp) : Decidable (HoldsUpTo w t upTo) :=
  inferInstanceAs (Decidable (∀ r ∈ w.legacy t, r.updatedAt ≤ upTo → w.Holds t r.key))

/-- The state a run ends in, its condition checked on the way. -/
def endOf (ok : World String → Event String → Prop) [∀ w e, Decidable (ok w e)]
    (es : List (Event String)) : Option (World String) :=
  check (step fixedJob) ok (World.init oneCustomer) es

/-- A load; a resync of an empty table that raises before it reads it; another load up to
its record. -/
def recoveredRun : List (Event String) :=
  .call (.load (Duration.hours 10) false [] []) :: List.replicate 11 .statement ++
    .call (.resync .products (Duration.hours 20)) :: .statement ::
    .raise [] :: .call (.load (Duration.hours 30) false [.products] []) ::
    List.replicate 9 .statement

def recovered : World String :=
  (endOf (Recoverable fixedJob) recoveredRun).get (by decide)

theorem load_holds_every_row_recovered :
    ∃ w', step fixedJob recovered .statement = some w' ∧ w'.running = none ∧
      HoldsUpTo w' .customers (Duration.hours 30) := by
  have hrun : Run (step fixedJob) (Recoverable fixedJob) (World.init oneCustomer) recoveredRun
      recovered := Run.of_check (Option.some_get _).symm
  exact ⟨_, rfl, load_holds_every_row (f := recovered.running.get (by decide)) hrun
    (Option.some_get _).symm rfl rfl (by decide) rfl⟩

/-- A load; a backfill that raises right after it emptied the tables; another load up to
its record. -/
def crashRun : List (Event String) :=
  .call (.load (Duration.hours 10) false [] []) :: List.replicate 11 .statement ++
    .call (.backfill (Duration.hours 20)) :: List.replicate 9 .statement ++
    .raise [] :: .call (.load (Duration.hours 30) false [] []) :: List.replicate 10 .statement

def crashed : World String :=
  (endOf (fun _ _ => True) crashRun).get (by decide)

/-- The load after a crashed backfill reads on from the old watermark: the customer is gone
from raw for good. -/
theorem history_lost_after_crash :
    ∃ f w', Run (step fixedJob) (fun _ _ => True) (World.init oneCustomer) crashRun crashed ∧
      crashed.running = some f ∧ f.call = .load (Duration.hours 30) false [] [] ∧
      f.todo = [.record] ∧ step fixedJob crashed .statement = some w' ∧
      ¬ HoldsUpTo w' .customers (Duration.hours 30) :=
  ⟨crashed.running.get (by decide), _, Run.of_check (Option.some_get _).symm,
    (Option.some_get _).symm, rfl, rfl, rfl, by decide⟩

end PlatformOps.Simulation
