import PlatformOps.Library.Intervals
import PlatformOps.Simulation.CompanyDays

/-!
# The Company Feeds Its Ingestion

The ingestion follows a watermark on `updated_at`, so it relies on when rows reach the
legacy database. A day's arrival lands the rows stamped since the one before it, the
writes after a night's copy included, and the copy reads up to the run.

- `windows_tile`: the arrivals' windows lie end to end, so no stamp is in two of them.
- `feeds_in_step`: a row that arrives after a read is stamped after it; a night's copy
  reads past every arrival before it; no read ends before one made earlier.
- `arrivals_in_step`: the main result.
-/

namespace PlatformOps.Simulation

open Intervals Listing

/-! ## What the ingestion sees of the log -/

/-- What bears on the ingestion: rows that reach the legacy database, and reads of it. -/
inductive Feed
  /-- Rows stamped in `(after, upTo]`, with the changes in place of one time. -/
  | arrival (after upTo : Timestamp) (changesAt : Option Timestamp)
  | read (call : Call)
deriving DecidableEq, Repr

def Op.feed : Op → Option Feed
  | .arrive after upTo changesAt => some (.arrival after upTo (some changesAt))
  | .arriveNew after upTo => some (.arrival after upTo none)
  | .ingest call => some (.read call)
  | _ => none

def Feed.window : Feed → Option (Timestamp × Timestamp)
  | .arrival after upTo _ => some (after, upTo)
  | .read _ => none

/-- Does a call read every table? -/
def Call.isWhole : Call → Bool
  | .resync _ _ => false
  | _ => true

/-- What must hold of two feeds, the first of them before the second. -/
def InStep : Feed → Feed → Prop
  -- a row that arrives after a read is stamped after it
  | .read call, .arrival after _ _ => call.until ≤ after
  | .read call, .read call' => call.until ≤ call'.until
  -- what has arrived, the next copy reads
  | .arrival _ upTo _, .read call => call.isWhole = true → upTo ≤ call.until
  | .arrival _ _ _, .arrival _ _ _ => True

/-- The feeds of a log. -/
def Log.feeds (log : Log) : List Feed := log.project Op.feed

/-- The windows of the arrivals of a log. -/
def Log.windows (log : Log) : List (Timestamp × Timestamp) := log.feeds.filterMap Feed.window

@[simp] theorem Log.feeds_append (log log' : Log) :
    Log.feeds (log ++ log') = log.feeds ++ log'.feeds :=
  Log.project_append Op.feed log log'

@[simp] theorem Log.feeds_nil : Log.feeds [] = [] := rfl

@[simp] theorem Log.feeds_cons (entry : ℕ × Op) (log : Log) :
    Log.feeds (entry :: log) = entry.2.feed.toList ++ log.feeds :=
  Log.project_cons Op.feed entry log

@[simp] theorem Log.feeds_dated (day : ℕ) (ops : List Op) :
    Log.feeds (dated day ops) = ops.filterMap Op.feed :=
  Log.project_dated Op.feed day ops

private theorem pairwise_concat {α : Type*} {R : α → α → Prop} {l : List α} {a : α} :
    (l ++ [a]).Pairwise R ↔ l.Pairwise R ∧ ∀ b ∈ l, R b a := by
  simp [List.pairwise_append]

namespace Company

variable (c : Company) {s s' : RunState} {index days : ℕ}

/-! ## The times of the days -/

theorem runAt_succ (index : ℕ) : c.runAt (index + 1) = c.runAt index + Duration.hours 24 := by
  simp only [runAt, day, Duration.hours, Duration.seconds]
  push_cast
  ring

theorem start_le_runAt_zero : c.settings.start ≤ c.runAt 0 := by
  have hhour : (0 : ℤ) ≤ (c.settings.dailyRunHour : ℤ) * 3600 * 1000000 := by positivity
  simp only [runAt, day, Duration.hours, Duration.seconds]
  push_cast
  linarith

theorem late_nonneg : 0 ≤ c.late := by
  simp only [late, Duration.minutes, Duration.seconds]
  positivity

/-- Up to where the rows have reached the legacy database, once some days are over. -/
def reached : ℕ → Timestamp
  | 0 => c.settings.start
  | index + 1 => if c.writesOn index then c.runAt index + c.late else c.runAt index

/-- A whole number of seconds after the start of the window. -/
def OnSecond (time : Timestamp) : Prop :=
  ∃ n : ℤ, time = c.settings.start + Duration.seconds n

theorem onSecond_runAt (index : ℕ) : c.OnSecond (c.runAt index) := by
  refine ⟨(24 * index + c.settings.dailyRunHour) * 3600, ?_⟩
  simp only [runAt, day, Duration.hours, Duration.seconds]
  ring

theorem onSecond_reached (index : ℕ) : c.OnSecond (c.reached index) := by
  cases index with
  | zero => exact ⟨0, by simp [reached, Duration.seconds]⟩
  | succ index =>
    obtain ⟨n, hn⟩ := c.onSecond_runAt index
    rw [reached]
    split
    · refine ⟨n + c.settings.writesAfterIngestMinutes * 60, ?_⟩
      rw [hn, late]
      simp only [Duration.minutes, Duration.seconds]
      ring
    · exact ⟨n, hn⟩

theorem runAt_le_reached (index : ℕ) : c.runAt index ≤ c.reached (index + 1) := by
  have hlate := c.late_nonneg
  rw [reached]
  split
  · linarith
  · exact le_rfl

/-! ## What every feed keeps -/

/-- What holds of a feed, the reads ending at `readTo` or before. -/
def Sound (readTo : Timestamp) : Feed → Prop
  | .read call => call.until ≤ readTo ∧ c.OnSecond call.until
  | .arrival after upTo changesAt => ∀ time ∈ changesAt, after < time ∧ time ≤ upTo

/-- What holds of all feeds so far: the rows have arrived up to `reachedTo`. -/
structure InOrder (feeds : List Feed) (reachedTo readTo : Timestamp) : Prop where
  windows : Tiles c.settings.start (feeds.filterMap Feed.window) reachedTo
  inStep : feeds.Pairwise InStep
  sound : ∀ feed ∈ feeds, c.Sound readTo feed

variable {feeds : List Feed} {reachedTo readTo : Timestamp}

theorem Sound.mono {feed : Feed} (h : c.Sound readTo feed) {readTo' : Timestamp}
    (hle : readTo ≤ readTo') : c.Sound readTo' feed := by
  cases feed with
  | arrival after upTo changesAt => exact h
  | read call => exact ⟨h.1.trans hle, h.2⟩

/-- A read that does not end before the ones made earlier. -/
theorem InOrder.read (h : c.InOrder feeds reachedTo readTo) (call : Call)
    (hread : readTo ≤ call.until) (hsecond : c.OnSecond call.until)
    (hwhole : call.isWhole = true → reachedTo ≤ call.until) :
    c.InOrder (feeds ++ [.read call]) reachedTo call.until := by
  refine ⟨?_, pairwise_concat.mpr ⟨h.inStep, fun feed hfeed => ?_⟩, fun feed hfeed => ?_⟩
  · simpa [Feed.window, filterMap_cons_toList] using h.windows
  · cases feed with
    | arrival after upTo changesAt =>
      intro hcall
      have hend := h.windows.le_end (after, upTo) (List.mem_filterMap.mpr ⟨_, hfeed, rfl⟩)
      exact hend.trans (hwhole hcall)
    | read call' => exact (h.sound _ hfeed).1.trans hread
  · rcases List.mem_append.mp hfeed with hfeed | hfeed
    · exact (h.sound feed hfeed).mono c hread
    · rw [List.mem_singleton.mp hfeed]
      exact ⟨le_rfl, hsecond⟩

/-- An arrival from where the rows had reached. -/
theorem InOrder.arrival (h : c.InOrder feeds reachedTo readTo) {upTo : Timestamp}
    (changesAt : Option Timestamp) (hread : readTo ≤ reachedTo) (hle : reachedTo ≤ upTo)
    (hchanges : ∀ time ∈ changesAt, reachedTo < time ∧ time ≤ upTo) :
    c.InOrder (feeds ++ [.arrival reachedTo upTo changesAt]) upTo readTo := by
  refine ⟨?_, pairwise_concat.mpr ⟨h.inStep, fun feed hfeed => ?_⟩, fun feed hfeed => ?_⟩
  · rw [List.filterMap_append]
    exact h.windows.append (tiles_singleton hle)
  · cases feed with
    | arrival after upTo changesAt => trivial
    | read call => exact (h.sound _ hfeed).1.trans hread
  · rcases List.mem_append.mp hfeed with hfeed | hfeed
    · exact h.sound feed hfeed
    · rw [List.mem_singleton.mp hfeed]
      exact hchanges

/-! ## One day -/

theorem feeds_morning (hs : s.loadedUntil = reachedTo) : (c.morning index s).log.feeds =
    s.log.feeds ++
      [.arrival reachedTo (c.runAt index) (some (c.runAt index - Duration.hours 1))] := by
  rw [log_morning, hs]
  cases s.planted <;> simp [Op.feed]

/-- In the middle of what happened, nothing but resyncs up to where the rows had reached. -/
private def Resyncing (index : ℕ) (m : RunState) : Prop :=
  m.loadedUntil = c.runAt index ∧
    c.InOrder m.log.feeds (c.runAt index) (c.reached index)

private theorem resyncing_fixTables {m : RunState} (fix : Fix) (h : c.Resyncing index m) :
    c.Resyncing index (m.fixTables index (c.reached index) fix) := by
  apply RunState.of_fixTables m index
  · intro m name _ hm
    rcases m.fixTable_cases index (c.reached index) fix.time name with
      ⟨heq, -⟩ | ⟨table, fault, -, -, heq⟩
    · rwa [heq]
    · rw [heq]
      refine ⟨hm.1, ?_⟩
      have hread := hm.2.read c (.resync table (c.reached index)) le_rfl
        (c.onSecond_reached index) fun hwhole => by cases hwhole
      simpa [Op.feed, Call.until] using hread
  · exact h

private theorem resyncing_happen {m m' : RunState} {happening : Happening}
    (h : c.Resyncing index m)
    (hok : c.happen index (c.reached index) m happening = .ok m') : c.Resyncing index m' := by
  have hquiet : ∀ (m : RunState) (op : Op), op.feed = none → c.Resyncing index m →
      ∀ active summary, c.Resyncing index
        { m with active := active, summary := summary, log := m.log ++ [(index, op)] } := by
    intro m op hop hm active summary
    refine ⟨hm.1, ?_⟩
    simpa [hop] using hm.2
  rcases c.happen_eq_ok hok with ⟨fault, time, -, -, rfl⟩ | ⟨fix, -, ⟨-, rfl⟩ | ⟨-, rfl⟩⟩
  · exact hquiet m _ rfl h _ _
  · exact hquiet _ _ rfl (c.resyncing_fixTables fix h) _ _
  · exact c.resyncing_fixTables fix h

theorem until_copyCall (index : ℕ) (backfill : Bool) (active : List (Table × Fault)) :
    (c.copyCall index backfill active).until = c.runAt index := by
  cases backfill <;> rfl

/-- The feeds of an evening: one copy, and what arrives after it. -/
theorem feeds_evening (index : ℕ) (backfill : Bool) (repaired : String) (m : RunState) :
    (c.evening index backfill repaired m).log.feeds = m.log.feeds ++
      [.read (c.copyCall index backfill m.active)] ++
      if c.writesOn index then [.arrival (c.runAt index) (c.runAt index + c.late) none]
      else [] := by
  have hfreeze : (c.freezeOps index).filterMap Op.feed = [] := by
    rw [freezeOps]
    split <;> rfl
  have hbuild : ∀ s, (c.buildOps index backfill s).filterMap Op.feed = [] := by
    intro s
    rw [buildOps, productionOps]
    cases c.found index s <;> split_ifs <;> rfl
  have hplant : ∀ log, ((c.plantedOn index log).map Op.plantOneOff).toList.filterMap Op.feed =
      [] := by
    intro log
    cases c.plantedOn index log <;> rfl
  have hnight : ∀ night, (if c.compares index then [Op.night night] else []).filterMap Op.feed =
      [] := by
    intro night
    split <;> rfl
  rw [log_evening]
  simp only [copyOps, Log.feeds_append, Log.feeds_dated, List.filterMap_append, hfreeze, hbuild,
    hplant, hnight]
  split <;> simp [Op.feed, filterMap_cons_toList]

/-- **A day keeps the feeds in order**, if the application stops writing more than an hour
before the next run. -/
theorem inOrder_day (hchanges : c.reached index < c.runAt index - Duration.hours 1)
    {readTo : Timestamp} (hread : readTo ≤ c.reached index)
    (hs : s.loadedUntil = c.reached index)
    (h : c.InOrder s.log.feeds (c.reached index) readTo) (hok : c.runDay s index = .ok s') :
    s'.loadedUntil = c.reached (index + 1) ∧
      c.InOrder s'.log.feeds (c.reached (index + 1)) (c.runAt index) := by
  have hhour : (0 : ℤ) ≤ Duration.hours 1 := by decide
  have hreach : c.reached index ≤ c.runAt index := by linarith
  obtain ⟨m, hm, rfl⟩ := c.runDay_eq_ok hok
  rw [hs] at hm
  -- the rows of the day arrive, and the changes in place with them
  have hmorning : c.Resyncing index (c.morning index s) := by
    refine ⟨rfl, ?_⟩
    rw [c.feeds_morning hs]
    have harrival := h.arrival c (some (c.runAt index - Duration.hours 1)) hread
      hreach (by rintro _ ⟨⟩; exact ⟨hchanges, by linarith⟩)
    exact ⟨harrival.windows, harrival.inStep,
      fun feed hfeed => (harrival.sound feed hfeed).mono c hread⟩
  have hhappened : c.Resyncing index m :=
    c.of_happenings (I := fun _ => c.Resyncing index) hm hmorning
      fun _ _ _ _ _ _ hs hstep => c.resyncing_happen hs hstep
  -- the copy reads up to the run, and the writes after it come next
  have hcall := c.until_copyCall index (s.delivered && !c.timeline.delivered index) m.active
  have hcopy := hhappened.2.read c
    (c.copyCall index (s.delivered && !c.timeline.delivered index) m.active)
    (hcall ▸ hreach) (hcall ▸ c.onSecond_runAt index) fun _ => hcall.ge
  rw [hcall] at hcopy
  constructor
  · rw [evening_eq, reached, hhappened.1]
  · rw [feeds_evening, reached]
    split
    · exact hcopy.arrival c none le_rfl (le_add_of_nonneg_right c.late_nonneg) nofun
    · rwa [List.append_nil]

theorem reached_lt (hlate : c.late < Duration.hours 23) (hhour : 2 ≤ c.settings.dailyRunHour)
    (index : ℕ) : c.reached index < c.runAt index - Duration.hours 1 := by
  cases index with
  | zero =>
    have h : (2 : ℤ) ≤ (c.settings.dailyRunHour : ℤ) := by exact_mod_cast hhour
    simp only [reached, runAt, day, Duration.hours, Duration.seconds]
    push_cast
    linarith
  | succ index =>
    have hday : Duration.hours 24 = Duration.hours 23 + Duration.hours 1 := by decide
    have hpos : (0 : ℤ) < Duration.hours 23 := by decide
    rw [reached, c.runAt_succ, hday]
    split <;> linarith

/-! ## The main result -/

/-- **The company feeds its ingestion in step.** On every day of a run, if the application
stops writing more than an hour before the next run: each stamp up to where the rows have
reached is in exactly one arrival; the changes in place of a day are in that day's arrival;
a row that arrives after a read is stamped after it; the night's copy reads past all that
has arrived; reads end at whole seconds, none before an earlier one. -/
theorem arrivals_in_step (hlate : c.late < Duration.hours 23)
    (hhour : 2 ≤ c.settings.dailyRunHour) (hok : c.after days = .ok s) :
    (∀ t, s.log.windows.countP (covers t) =
      if c.settings.start < t ∧ t ≤ s.loadedUntil then 1 else 0) ∧
    (∀ after upTo time, Feed.arrival after upTo (some time) ∈ s.log.feeds →
      after < time ∧ time ≤ upTo) ∧
    s.log.feeds.Pairwise InStep ∧
    ∀ call, Feed.read call ∈ s.log.feeds → c.OnSecond call.until := by
  have hinvariant : s.loadedUntil = c.reached days ∧
      ∃ readTo ≤ c.reached days, c.InOrder s.log.feeds (c.reached days) readTo := by
    refine c.of_days (I := fun days s => s.loadedUntil = c.reached days ∧
      ∃ readTo ≤ c.reached days, c.InOrder s.log.feeds (c.reached days) readTo) ?_ ?_ hok
    · -- the first load reads the history, up to the start of the window
      have hbegin : c.InOrder [] c.settings.start c.settings.start :=
        ⟨rfl, .nil, fun _ hfeed => absurd hfeed List.not_mem_nil⟩
      have hread := hbegin.read c (.load c.settings.start false [] []) le_rfl
        (c.onSecond_reached 0) fun _ => le_rfl
      exact ⟨rfl, _, le_rfl, by simpa [begin, Op.feed, reached, Call.until] using hread⟩
    · rintro index s s' ⟨hs, readTo, hread, h⟩ hday
      obtain ⟨hs', h'⟩ := c.inOrder_day (c.reached_lt hlate hhour index) hread hs h hday
      exact ⟨hs', _, c.runAt_le_reached index, h'⟩
  obtain ⟨hs, readTo, -, h⟩ := hinvariant
  refine ⟨fun t => ?_, fun after upTo time hfeed => ?_, h.inStep, fun call hcall => ?_⟩
  · rw [hs]
    exact h.windows.countP_covers t
  · exact h.sound _ hfeed time rfl
  · exact (h.sound _ hcall).2

theorem arrivals_in_step_two_weeks : ∃ s, twoWeeks.after 14 = .ok s ∧
    s.log.feeds.Pairwise InStep ∧
    s.log.windows.countP (covers (Duration.hours 200)) = 1 := by
  refine ⟨_, rfl, ?_⟩
  have h := @arrivals_in_step twoWeeks _ 14 (by decide) (by decide) rfl
  refine ⟨h.2.2.1, (h.1 _).trans (if_pos ?_)⟩
  decide

end Company

end PlatformOps.Simulation
