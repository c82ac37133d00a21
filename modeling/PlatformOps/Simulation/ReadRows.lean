import PlatformOps.Simulation.Convergence

/-!
# The Legacy Rows the Loads Have Read

A history variable beside the system: for each table, the legacy rows that its
loads have read, and the `until` of every call so far. In a run whose commits are
no older than the overlap allows and whose `until`s do not decrease, every legacy
row has been read, or the next load of its table reads it, whatever fraction of a
second the earlier `until`s had (`Seen.Kept`). So right after a load has read a
table, the rows read are those up to its `until` in whole seconds (`read_iff`).
-/

namespace PlatformOps.Simulation

open Machine

variable {V : Type} (job : Job V)

/-! ## The history -/

/-- The system, with what has been read of each table and the `until`s so far. -/
structure Seen (V : Type) where
  world : World V
  read : Table → List (Row V)
  untils : List Timestamp

def Seen.init (legacy : Table → List (Row V)) : Seen V :=
  ⟨World.init legacy, fun _ => [], []⟩

/-- The rows of a table that one round of `_pull` selects. -/
def Frame.selects (f : Frame) (w : World V) (table : Table) : List (Row V) :=
  (w.legacy table).filter (job.selected table (f.since job table) f.call.until)

/-- What an event reads of a table: an `INSERT` that raises has read what it leaves. -/
def World.reads [DecidableEq V] (w : World V) (e : Event V) (t : Table) : List (Row V) :=
  match w.running with
  | none => []
  | some f =>
    match e, f.todo with
    | .statement, .pull u :: _ => if u = t then f.selects job w t else []
    | .raise rows, .pull u :: _ =>
      if u = t then (f.selects job w t).filter fun r =>
        ⟨job.read t f.call.nulled r, Job.ts f.call.until⟩ ∈ rows
      else []
    | _, _ => []

/-- The `until` of an event that starts a call. -/
def Event.untils : Event V → List Timestamp
  | .call c => [c.until]
  | _ => []

def seenStep [DecidableEq V] (s : Seen V) (e : Event V) : Option (Seen V) :=
  (step job s.world e).map fun w =>
    ⟨w, fun t => s.read t ++ s.world.reads job e t, s.untils ++ e.untils⟩

/-- Commits stamped later than the table's last `loaded_until` minus the overlap, calls whose
`until`s do not decrease. -/
def Orderly (s : Seen V) : Event V → Prop
  | .commit t row => ∀ last ∈ s.world.lastLoaded t, last - job.overlap < row.updatedAt
  | .call c => ∀ u ∈ s.untils, u ≤ c.until
  | _ => True

instance (s : Seen V) : (e : Event V) → Decidable (Orderly job s e)
  | .commit t _ => inferInstanceAs (Decidable (∀ last ∈ s.world.lastLoaded t, _))
  | .call c => inferInstanceAs (Decidable (∀ u ∈ s.untils, u ≤ c.until))
  | .merge _ _ => isTrue trivial
  | .statement => isTrue trivial
  | .raise _ => isTrue trivial

/-! ## The invariant -/

/-- A row has been read, or the job loses it, or the next load of the table reads it. -/
def Seen.Due (s : Seen V) (t : Table) (r : Row V) : Prop :=
  r ∈ s.read t ∨ job.dropped t r = true ∨
    ∀ last ∈ s.world.lastLoaded t, Job.ts (last - job.overlap) < r.updatedAt

/-- What every orderly run keeps. -/
structure Seen.Kept (s : Seen V) : Prop where
  started : s.world.Started
  due : ∀ t, ∀ r ∈ s.world.legacy t, s.Due job t r
  /-- Nothing is read beyond the `until`s, in whole seconds, and nothing that the job loses. -/
  read : ∀ t, ∀ r ∈ s.read t, job.dropped t r = false ∧ ∃ u ∈ s.untils, r.updatedAt ≤ Job.ts u
  loads : ∀ l ∈ s.world.loads, l.loadedUntil ∈ s.untils
  /-- The call under way has the latest `until`. -/
  latest : ∀ f, s.world.running = some f →
    f.call.until ∈ s.untils ∧ ∀ u ∈ s.untils, u ≤ f.call.until

section Kept

variable {job} {s s' : Seen V} {w' : World V} {f : Frame} {t : Table} {r : Row V}
  {rest : List Statement}

theorem Seen.Kept.loads_le (h : s.Kept job) (hrun : s.world.running = some f) :
    ∀ l ∈ s.world.loads, l.loadedUntil ≤ f.call.until :=
  fun l hl => (h.latest f hrun).2 _ (h.loads l hl)

theorem mem_selects {w : World V} : r ∈ f.selects job w t ↔
    r ∈ w.legacy t ∧ job.selected t (f.since job t) f.call.until r = true :=
  List.mem_filter

/-- What an event reads was selected by the call under way. -/
theorem mem_reads [DecidableEq V] {w : World V} {e : Event V} (h : r ∈ w.reads job e t) :
    ∃ f, w.running = some f ∧ r ∈ f.selects job w t := by
  unfold World.reads at h
  split at h
  · cases h
  · rename_i f hrun
    refine ⟨f, hrun, ?_⟩
    split at h
    · split at h
      · exact h
      · cases h
    · split at h
      · exact List.mem_of_mem_filter h
      · cases h
    · cases h

/-- A row the job does not lose is selected by the read of its table, up to `until` in whole
seconds. -/
theorem selects_of_due [DecidableEq V] (hstarted : f.Started s.world)
    (hrun : s.world.running = some f) (htodo : f.todo = .pull t :: rest)
    (hr : r ∈ s.world.legacy t) (hdue : s.Due job t r) (hread : r ∉ s.read t)
    (hkept : job.dropped t r = false) (hle : r.updatedAt ≤ Job.ts f.call.until) :
    r ∈ f.selects job s.world t := by
  rw [mem_selects, Job.selected_iff]
  refine ⟨hr, ?_, hle, hkept⟩
  intro since hsince
  have hlate := (hdue.resolve_left hread).resolve_left (by simp [hkept])
  rw [lastLoaded_unread hrun (hstarted.not_read_of_pull htodo)] at hlate
  rcases (hstarted.since_cases htodo : f.since job t = none ∨ _) with hnone | ⟨-, hmark⟩
  · rw [hnone] at hsince
    cases hsince
  · rw [hmark] at hsince
    obtain ⟨mark, hmark, rfl⟩ := Option.map_eq_some_iff.mp hsince
    exact hlate mark hmark

/-- Due rows stay due if what was read stays read and the last loads do not move on. -/
theorem Seen.Due.mono (h : s.Due job t r) (hread : ∀ r ∈ s.read t, r ∈ s'.read t)
    (hlast : ∀ last' ∈ s'.world.lastLoaded t, ∃ last ∈ s.world.lastLoaded t, last' ≤ last) :
    s'.Due job t r := by
  rcases h with h | h | h
  · exact Or.inl (hread r h)
  · exact Or.inr (Or.inl h)
  · refine Or.inr (Or.inr fun last' hlast' => ?_)
    obtain ⟨last, hmem, hle⟩ := hlast last' hlast'
    exact lt_of_le_of_lt (Job.ts_mono (by lia)) (h last hmem)

theorem seenStep_eq [DecidableEq V] {e : Event V} (h : seenStep job s e = some s') :
    step job s.world e = some s'.world ∧ (∀ t, s'.read t = s.read t ++ s.world.reads job e t) ∧
      s'.untils = s.untils ++ e.untils := by
  obtain ⟨w, hw, rfl⟩ := Option.map_eq_some_iff.mp h
  exact ⟨hw, fun _ => rfl, rfl⟩

/-- A statement other than a read or the record leaves the last loads as they are. -/
private theorem lastLoaded_execute {w : World V} {st : Statement} (hrun : w.running = some f)
    (hpull : st ≠ .pull t) (hrecord : st ≠ .record) :
    (execute job w f st rest).lastLoaded t = w.lastLoaded t := by
  cases st with
  | create u => simp [World.lastLoaded, hrun, execute, Frame.readTables, World.watermark]
  | watermarks => simp [World.lastLoaded, hrun, execute, Frame.readTables, World.watermark]
  | pull u =>
    have hne : t ≠ u := fun heq => hpull (heq ▸ rfl)
    simp [World.lastLoaded, hrun, execute, Frame.readTables, World.watermark, hne]
  | record => exact absurd rfl hrecord

/-- What a statement has the call read: the rows it selects of the table it reads. -/
theorem reads_pull [DecidableEq V] {w : World V} (hrun : w.running = some f)
    (htodo : f.todo = .pull t :: rest) : w.reads job .statement t = f.selects job w t := by
  simp [World.reads, hrun, htodo]

/-- Any other statement has nothing of the table read. -/
private theorem reads_other [DecidableEq V] {w : World V} {st : Statement}
    (hrun : w.running = some f) (htodo : f.todo = st :: rest) (hpull : st ≠ .pull t) :
    w.reads job .statement t = [] := by
  cases st with
  | pull u =>
    have hne : u ≠ t := fun heq => hpull (heq ▸ rfl)
    simp [World.reads, hrun, htodo, hne]
  | create u => simp [World.reads, hrun, htodo]
  | watermarks => simp [World.reads, hrun, htodo]
  | record => simp [World.reads, hrun, htodo]

private theorem due_statement [DecidableEq V] (h : s.Kept job) (hrun : s.world.running = some f)
    {st : Statement} (htodo : f.todo = st :: rest)
    (hworld : s'.world = execute job s.world f st rest)
    (hread : ∀ t, s'.read t = s.read t ++ s.world.reads job .statement t)
    (hr : r ∈ s.world.legacy t) : s'.Due job t r := by
  have hstarted := h.started f hrun
  have hdue := h.due t r hr
  have hgrows : ∀ r ∈ s.read t, r ∈ s'.read t := by
    intro r hr
    rw [hread]
    exact List.mem_append_left _ hr
  by_cases hrecord : st = .record
  · subst hrecord
    -- The record makes the until of the call the last load, which was it already.
    apply hdue.mono hgrows
    intro last hlast
    rw [hworld, lastLoaded_idle rfl] at hlast
    exact ⟨last, watermark_record (h.loads_le hrun) hstarted hrun hlast, le_rfl⟩
  · by_cases hpull : st = .pull t
    · subst hpull
      by_cases hkept : job.dropped t r = true
      · exact Or.inr (Or.inl hkept)
      rw [Bool.not_eq_true] at hkept
      -- The read of the table: the row is selected, unless it was read before or comes later.
      by_cases hbefore : r ∈ s.read t
      · exact Or.inl (hgrows r hbefore)
      by_cases hle : r.updatedAt ≤ Job.ts f.call.until
      · left
        rw [hread, reads_pull hrun htodo]
        exact List.mem_append_right _
          (selects_of_due hstarted hrun htodo hr hdue hbefore hkept hle)
      · -- Stamped after the read's bound: the next load reads on from before it.
        refine Or.inr (Or.inr fun last hlast => ?_)
        rw [hworld, lastLoaded_read (f := _) rfl (by simp [Frame.readTables])] at hlast
        cases hlast
        have hoverlap := job.overlap_nonneg
        exact lt_of_le_of_lt (Job.ts_mono (by linarith)) (not_le.mp hle)
    · apply hdue.mono hgrows
      intro last hlast
      rw [hworld, lastLoaded_execute hrun hpull hrecord] at hlast
      exact ⟨last, hlast, le_rfl⟩

/-- **One event** keeps every row due. -/
theorem due_step [DecidableEq V] {e : Event V} (h : s.Kept job) (hok : Orderly job s e)
    (hstep : seenStep job s e = some s') (hr : r ∈ s'.world.legacy t) : s'.Due job t r := by
  obtain ⟨hworld, hread, -⟩ := seenStep_eq hstep
  have hgrows : ∀ r ∈ s.read t, r ∈ s'.read t := by
    intro r hr
    rw [hread]
    exact List.mem_append_left _ hr
  -- Most events leave the last load of the table as it is.
  have hsame : s'.world.lastLoaded t = s.world.lastLoaded t → r ∈ s.world.legacy t →
      s'.Due job t r := fun hlast hr =>
    (h.due t r hr).mono hgrows fun last hmem => ⟨last, hlast ▸ hmem, le_rfl⟩
  cases e with
  | commit u row =>
    simp only [step, Option.some.injEq] at hworld
    have hlast : s'.world.lastLoaded t = s.world.lastLoaded t := by rw [← hworld]; rfl
    rw [← hworld] at hr
    by_cases htu : t = u
    · subst htu
      simp only [setTable_self] at hr
      rcases mem_upsert hr with rfl | ⟨hr, -⟩
      · refine Or.inr (Or.inr fun last hmem => ?_)
        rw [hlast] at hmem
        exact lt_of_le_of_lt (Job.ts_le _) (hok last hmem)
      · exact hsame hlast hr
    · simp only [setTable_of_ne htu] at hr
      exact hsame hlast hr
  | merge u rows =>
    obtain ⟨-, -, hworld⟩ := step_merge hworld
    rw [show s'.world.legacy t = s.world.legacy t by rw [hworld]] at hr
    exact hsame (by rw [hworld]; rfl) hr
  | call c =>
    obtain ⟨hidle, hworld⟩ := step_call hworld
    rw [show s'.world.legacy t = s.world.legacy t by rw [hworld]] at hr
    apply hsame _ hr
    rw [lastLoaded_idle hidle, hworld, lastLoaded_unread rfl (by simp [Frame.readTables])]
    rfl
  | statement =>
    obtain ⟨f, st, rest, hrun, htodo, hworld⟩ := step_statement hworld
    have hlegacy : s'.world.legacy t = s.world.legacy t := by rw [hworld]; cases st <;> rfl
    rw [hlegacy] at hr
    exact due_statement h hrun htodo hworld hread hr
  | raise rows =>
    obtain ⟨f, hrun, hlegacy, hloads, hidle, -⟩ := step_raise hworld
    rw [hlegacy] at hr
    apply (h.due t r hr).mono hgrows
    intro last hlast
    have hwatermark : s'.world.watermark t = s.world.watermark t := by
      simp only [World.watermark, hloads]
    rw [lastLoaded_idle hidle, hwatermark] at hlast
    by_cases hmem : t ∈ f.readTables
    · -- The call forgets how far it got: the next load reads on from further back.
      obtain ⟨l, hl, -, rfl⟩ := exists_of_watermark hlast
      exact ⟨f.call.until, lastLoaded_read hrun hmem, h.loads_le hrun l hl⟩
    · exact ⟨last, (lastLoaded_unread hrun hmem).trans hlast, le_rfl⟩

private theorem call_execute {w : World V} {st : Statement} {f' : Frame}
    (h : (execute job w f st rest).running = some f') : f'.call = f.call := by
  cases st <;> cases h <;> rfl

private theorem mem_loads_execute {w : World V} {st : Statement} {l : LoadRecord}
    (h : l ∈ (execute job w f st rest).loads) : l ∈ w.loads ∨ l ∈ f.records := by
  cases st with
  | record => exact List.mem_append.mp h
  | create u => exact Or.inl h
  | watermarks => exact Or.inl h
  | pull u => exact Or.inl h

/-- The `until`s of the recorded loads are those of calls, and the last call has the latest. -/
private theorem untils_step [DecidableEq V] {e : Event V} (h : s.Kept job) (hok : Orderly job s e)
    (hstep : seenStep job s e = some s') :
    (∀ l ∈ s'.world.loads, l.loadedUntil ∈ s'.untils) ∧
      ∀ f, s'.world.running = some f →
        f.call.until ∈ s'.untils ∧ ∀ u ∈ s'.untils, u ≤ f.call.until := by
  obtain ⟨hworld, -, huntils⟩ := seenStep_eq hstep
  -- Only a call that starts adds an `until`.
  have hsame : e.untils = [] → s'.untils = s.untils := by
    intro hnone
    rw [huntils, hnone, List.append_nil]
  cases e with
  | commit u row =>
    simp only [step, Option.some.injEq] at hworld
    rw [hsame rfl, ← hworld]
    exact ⟨h.loads, h.latest⟩
  | merge u rows =>
    obtain ⟨-, -, hworld⟩ := step_merge hworld
    rw [hsame rfl, hworld]
    exact ⟨h.loads, h.latest⟩
  | call c =>
    obtain ⟨-, hworld⟩ := step_call hworld
    rw [huntils, hworld]
    refine ⟨fun l hl => List.mem_append_left _ (h.loads l hl), fun f hf => ?_⟩
    obtain rfl := Option.some.inj hf
    refine ⟨List.mem_append_right _ (List.mem_singleton.mpr rfl), fun u hu => ?_⟩
    rcases List.mem_append.mp hu with hu | hu
    · exact hok u hu
    · exact (List.mem_singleton.mp hu).le
  | statement =>
    obtain ⟨f, st, rest, hrun, -, hworld⟩ := step_statement hworld
    rw [hsame rfl, hworld]
    refine ⟨fun l hl => ?_, fun f' hf' => ?_⟩
    · rcases mem_loads_execute hl with hl | hl
      · exact h.loads l hl
      · rw [(h.started f hrun).untils l hl]
        exact (h.latest f hrun).1
    · rw [call_execute hf']
      exact h.latest f hrun
  | raise rows =>
    obtain ⟨f, -, -, hloads, hidle, -⟩ := step_raise hworld
    rw [hsame rfl, hloads]
    refine ⟨h.loads, fun f' hf' => ?_⟩
    rw [hidle] at hf'
    cases hf'

theorem kept_step [DecidableEq V] {e : Event V} (h : s.Kept job) (hok : Orderly job s e)
    (hstep : seenStep job s e = some s') : s'.Kept job := by
  obtain ⟨hworld, hread, huntils⟩ := seenStep_eq hstep
  obtain ⟨hloads, hlatest⟩ := untils_step h hok hstep
  refine ⟨started_step h.started hworld, fun t r hr => due_step h hok hstep hr, ?_, hloads, hlatest⟩
  intro t r hr
  rw [hread] at hr
  rw [huntils]
  rcases List.mem_append.mp hr with hr | hr
  · obtain ⟨hkept, u, hu, hle⟩ := h.read t r hr
    exact ⟨hkept, u, List.mem_append_left _ hu, hle⟩
  · obtain ⟨f, hrun, hselected⟩ := mem_reads hr
    obtain ⟨-, hle, hkept⟩ := Job.selected_iff.mp (mem_selects.mp hselected).2
    exact ⟨hkept, f.call.until, List.mem_append_left _ (h.latest f hrun).1, hle⟩

/-- **Every orderly run** keeps the invariant. -/
theorem kept_run [DecidableEq V] {legacy : Table → List (Row V)} {es : List (Event V)}
    (hrun : Run (seenStep job) (Orderly job) (Seen.init legacy) es s) : s.Kept job := by
  refine hrun.invariant (I := Seen.Kept job) ?_ fun s e s' h hok hstep => kept_step h hok hstep
  refine ⟨started_init legacy, fun t r _ => Or.inr (Or.inr fun last hlast => ?_), fun t r hr => ?_,
    fun l hl => ?_, fun f hf => ?_⟩
  · simp [Seen.init, World.init, World.lastLoaded, World.watermark] at hlast
  · cases hr
  · cases hl
  · cases hf

/-- **One read**: the rows read are those up to its `until`, in whole seconds, that the job does
not lose. -/
theorem read_iff_of_pull [DecidableEq V] (h : s.Kept job) (hrun : s.world.running = some f)
    (htodo : f.todo = .pull t :: rest) (hread : s'.read t = s.read t ++ f.selects job s.world t)
    (hr : r ∈ s.world.legacy t) :
    r ∈ s'.read t ↔ r.updatedAt ≤ Job.ts f.call.until ∧ job.dropped t r = false := by
  rw [hread, List.mem_append]
  constructor
  · rintro (hbefore | hnow)
    · obtain ⟨hkept, u, hu, hle⟩ := h.read t r hbefore
      exact ⟨hle.trans (Job.ts_mono ((h.latest f hrun).2 u hu)), hkept⟩
    · obtain ⟨-, hle, hkept⟩ := Job.selected_iff.mp (mem_selects.mp hnow).2
      exact ⟨hle, hkept⟩
  · rintro ⟨hle, hkept⟩
    by_cases hbefore : r ∈ s.read t
    · exact Or.inl hbefore
    · right
      exact selects_of_due (h.started f hrun) hrun htodo hr (h.due t r hr) hbefore hkept hle

/-! ## Until the load completes -/

/-- What may happen between a load's read of a table and the end of the load: neither a commit to
the table, nor another call, nor an exception. -/
def Completing (t : Table) : Event V → Prop
  | .call _ => False
  | .raise _ => False
  | .commit u _ => u ≠ t
  | _ => True

instance (t : Table) : (e : Event V) → Decidable (Completing t e)
  | .call _ => isFalse id
  | .raise _ => isFalse id
  | .commit u _ => inferInstanceAs (Decidable (u ≠ t))
  | .merge _ _ => isTrue trivial
  | .statement => isTrue trivial

/-- A table that the call under way has read, or whose load is recorded: what has been read of
it, and up to when. -/
structure Seen.ReadUpTo (s : Seen V) (t : Table) (legacy read : List (Row V)) (upTo : Timestamp) :
    Prop where
  legacy : s.world.legacy t = legacy
  read : ∀ r, r ∈ s.read t ↔ r ∈ read
  last : s.world.lastLoaded t = some upTo
  frame : ∀ f, s.world.running = some f → t ∈ f.readTables ∧ f.call.until = upTo

private theorem Seen.ReadUpTo.congr {legacy read : List (Row V)} {upTo : Timestamp}
    (h : s.ReadUpTo t legacy read upTo) (hlegacy : s'.world.legacy t = s.world.legacy t)
    (hread : s'.read t = s.read t) (hlast : s'.world.lastLoaded t = s.world.lastLoaded t)
    (hframe : ∀ f', s'.world.running = some f' → ∃ f, s.world.running = some f ∧
      f'.call = f.call ∧ (t ∈ f.readTables → t ∈ f'.readTables)) :
    s'.ReadUpTo t legacy read upTo := by
  refine ⟨hlegacy.trans h.legacy, fun r => hread ▸ h.read r, hlast.trans h.last, fun f' hf' => ?_⟩
  obtain ⟨f, hf, hcall, hgrows⟩ := hframe f' hf'
  obtain ⟨hmem, huntil⟩ := h.frame f hf
  exact ⟨hgrows hmem, (congrArg Call.until hcall).trans huntil⟩

private theorem mem_readTables_execute {w : World V} {st : Statement} {f' : Frame}
    (h : (execute job w f st rest).running = some f') (hmem : t ∈ f.readTables) :
    t ∈ f'.readTables := by
  cases st with
  | create u => cases h; exact hmem
  | watermarks => cases h; exact hmem
  | pull u =>
    cases h
    simp only [Frame.readTables, List.map_append, List.mem_append]
    exact Or.inl hmem
  | record => cases h

/-- The record of a table that was read says what the call did. -/
private theorem lastLoaded_record (hkept : s.Kept job) (hrun : s.world.running = some f)
    (hmem : t ∈ f.readTables) (hdone : s'.world = execute job s.world f .record rest) :
    s'.world.lastLoaded t = s.world.lastLoaded t := by
  obtain ⟨l, hl, hlt⟩ := List.mem_map.mp hmem
  obtain ⟨mark, hmark, -⟩ := watermark_le (w := execute job s.world f .record rest)
    (List.mem_append_right _ hl) hlt
  have hbefore := watermark_record (hkept.loads_le hrun) (hkept.started f hrun) hrun hmark
  rw [hdone, lastLoaded_idle rfl, hmark, hbefore]

private theorem readUpTo_step [DecidableEq V] {e : Event V} {legacy read : List (Row V)}
    {upTo : Timestamp} (h : s.ReadUpTo t legacy read upTo) (hkept : s.Kept job)
    (hquiet : Completing t e) (hstep : seenStep job s e = some s') :
    s'.ReadUpTo t legacy read upTo := by
  obtain ⟨hworld, hread, -⟩ := seenStep_eq hstep
  have hsame : s.world.reads job e t = [] → s'.read t = s.read t := by
    intro hnone
    rw [hread, hnone, List.append_nil]
  cases e with
  | commit u row =>
    have htu : t ≠ u := Ne.symm hquiet
    simp only [step, Option.some.injEq] at hworld
    apply h.congr _ (hsame (by unfold World.reads; split <;> rfl))
    · rw [← hworld]
      rfl
    · rw [← hworld]
      exact fun f hf => ⟨f, hf, rfl, id⟩
    · rw [← hworld]
      exact setTable_of_ne htu
  | merge u rows =>
    obtain ⟨-, -, hworld⟩ := step_merge hworld
    apply h.congr _ (hsame (by unfold World.reads; split <;> rfl))
    · rw [hworld]
      rfl
    · rw [hworld]
      exact fun f hf => ⟨f, hf, rfl, id⟩
    · rw [hworld]
  | call c => exact hquiet.elim
  | raise rows => exact hquiet.elim
  | statement =>
    obtain ⟨f, st, rest, hrun, htodo, hworld⟩ := step_statement hworld
    have hmem := (h.frame f hrun).1
    -- No table is read twice.
    have hpull : st ≠ .pull t := by
      rintro rfl
      exact (hkept.started f hrun).not_read_of_pull htodo hmem
    apply h.congr _ (hsame (reads_other hrun htodo hpull))
    · by_cases hrecord : st = .record
      · subst hrecord
        exact lastLoaded_record hkept hrun hmem hworld
      · rw [hworld, lastLoaded_execute hrun hpull hrecord]
    · intro f' hf'
      rw [hworld] at hf'
      exact ⟨f, hrun, call_execute hf', mem_readTables_execute hf'⟩
    · rw [hworld]
      cases st <;> rfl

/-- **Right after a load has completed**: the watermark is its `until`, and the legacy rows the
loads have read are those up to it, in whole seconds, that the job does not lose. -/
theorem read_iff [DecidableEq V] {legacy : Table → List (Row V)} {before after : List (Event V)}
    {upTo : Timestamp}
    (hbefore : Run (seenStep job) (Orderly job) (Seen.init legacy) before s)
    (hrun : s.world.running = some f) (huntil : f.call.until = upTo)
    (htodo : f.todo = .pull t :: rest)
    (hafter : Run (seenStep job) (Orderly job) s (.statement :: after) s')
    (hquiet : ∀ e ∈ after, Completing t e) (hdone : s'.world.running = none) :
    s'.world.watermark t = some upTo ∧ ∀ r ∈ s'.world.legacy t,
      (r ∈ s'.read t ↔ r.updatedAt ≤ Job.ts upTo ∧ job.dropped t r = false) := by
  have hkept := kept_run hbefore
  cases hafter with
  | @cons _ s₁ _ _ _ hok hfirst hrest =>
    -- The read itself: from here on, nothing else is read of the table.
    have hkept₁ := kept_step hkept hok hfirst
    obtain ⟨hworld, hread, -⟩ := seenStep_eq hfirst
    obtain ⟨f', st, rest', hrun', htodo', hworld⟩ := step_statement hworld
    obtain rfl := Option.some.inj (hrun.symm.trans hrun')
    obtain ⟨rfl, rfl⟩ := List.cons.inj (htodo.symm.trans htodo')
    have hselected : s₁.read t = s.read t ++ f.selects job s.world t := by
      rw [hread, reads_pull hrun htodo]
    have hstart : s₁.ReadUpTo t (s.world.legacy t) (s₁.read t) upTo := by
      refine ⟨by rw [hworld]; rfl, fun r => Iff.rfl, ?_, fun f' hf' => ?_⟩
      · rw [hworld, lastLoaded_read (f := _) rfl (by simp [Frame.readTables])]
        exact congrArg some huntil
      · rw [hworld] at hf'
        refine ⟨?_, (congrArg Call.until (call_execute hf')).trans huntil⟩
        cases hf'
        simp [Frame.readTables]
    -- The rest of the load keeps it so.
    have hend : s'.Kept job ∧ s'.ReadUpTo t (s.world.legacy t) (s₁.read t) upTo := by
      refine hrest.invariant_of_forall
        (I := fun s' => s'.Kept job ∧ s'.ReadUpTo t (s.world.legacy t) (s₁.read t) upTo) hquiet
        ⟨hkept₁, hstart⟩ fun s e s' h hok hquiet hstep => ?_
      exact ⟨kept_step h.1 hok hstep, readUpTo_step h.2 h.1 hquiet hstep⟩
    obtain ⟨-, hlegacy, hsame, hlast, -⟩ := hend
    rw [lastLoaded_idle hdone] at hlast
    refine ⟨hlast, fun r hr => ?_⟩
    rw [hlegacy] at hr
    rw [hsame, read_iff_of_pull hkept hrun htodo hselected hr, huntil]

end Kept

end PlatformOps.Simulation
