import PlatformOps.Simulation.Company

/-!
# What a Day Does

The rules for a run of the company: what each part of a day appends to the log and what
it changes, and how an invariant of the days is one of the run.

- `runDay_eq_ok`: a day that does not raise is its morning, what happened, its evening.
- `happen_eq_ok`: what one fault or one fix does.
- `of_happenings`, `of_days`: what every happening keeps, all of them keep; what every
  day keeps, the run keeps.
-/

namespace PlatformOps.Simulation

open Listing Fallible

theorem filterMap_cons_toList {α β : Type*} (f : α → Option β) (a : α) (l : List α) :
    (a :: l).filterMap f = (f a).toList ++ l.filterMap f := by
  rw [List.filterMap_cons]
  cases f a <;> rfl

/-- What a projection of the operations keeps of the log. -/
def Log.project {β : Type*} (f : Op → Option β) (log : Log) : List β :=
  log.filterMap fun entry => f entry.2

@[simp] theorem Log.project_append {β : Type*} (f : Op → Option β) (log log' : Log) :
    Log.project f (log ++ log') = Log.project f log ++ Log.project f log' :=
  List.filterMap_append

@[simp] theorem Log.project_nil {β : Type*} (f : Op → Option β) : Log.project f [] = [] := rfl

@[simp] theorem Log.project_cons {β : Type*} (f : Op → Option β) (entry : ℕ × Op) (log : Log) :
    Log.project f (entry :: log) = (f entry.2).toList ++ Log.project f log :=
  filterMap_cons_toList _ _ _

@[simp] theorem Log.project_dated {β : Type*} (f : Op → Option β) (day : ℕ) (ops : List Op) :
    Log.project f (dated day ops) = ops.filterMap f := by
  rw [Log.project, dated, List.filterMap_map]
  rfl

@[simp] theorem dated_nil (day : ℕ) : dated day [] = [] := rfl

@[simp] theorem dated_cons (day : ℕ) (op : Op) (ops : List Op) :
    dated day (op :: ops) = (day, op) :: dated day ops := rfl

@[simp] theorem dated_append (day : ℕ) (ops ops' : List Op) :
    dated day (ops ++ ops') = dated day ops ++ dated day ops' :=
  List.map_append

@[simp] theorem mem_dated {day : ℕ} {ops : List Op} {entry : ℕ × Op} :
    entry ∈ dated day ops ↔ entry.1 = day ∧ entry.2 ∈ ops := by
  rw [dated, List.mem_map]
  constructor
  · rintro ⟨op, hop, rfl⟩
    exact ⟨rfl, hop⟩
  · rintro ⟨rfl, hop⟩
    exact ⟨entry.2, hop, rfl⟩

/-- What a projection of the operations keeps of the log, each with its day. -/
def Log.onDays {β : Type*} (f : Op → Option β) (log : Log) : List (ℕ × β) :=
  log.filterMap fun entry => (f entry.2).map fun b => (entry.1, b)

@[simp] theorem Log.onDays_append {β : Type*} (f : Op → Option β) (log log' : Log) :
    Log.onDays f (log ++ log') = Log.onDays f log ++ Log.onDays f log' :=
  List.filterMap_append

@[simp] theorem Log.onDays_nil {β : Type*} (f : Op → Option β) : Log.onDays f [] = [] := rfl

@[simp] theorem Log.onDays_cons {β : Type*} (f : Op → Option β) (entry : ℕ × Op) (log : Log) :
    Log.onDays f (entry :: log) =
      ((f entry.2).map fun b => (entry.1, b)).toList ++ Log.onDays f log :=
  filterMap_cons_toList _ _ _

@[simp] theorem Log.onDays_dated {β : Type*} (f : Op → Option β) (day : ℕ) (ops : List Op) :
    Log.onDays f (dated day ops) = (ops.filterMap f).map fun b => (day, b) := by
  rw [Log.onDays, dated, List.filterMap_map, List.map_filterMap]
  rfl

/-- What a projection has nothing to say of. -/
theorem Log.project_eq_nil {β : Type*} {f : Op → Option β} {p : Op → Bool} {ops : List Op}
    (hops : ops.all p = true) (hf : ∀ op, p op = true → f op = none) (day : ℕ) :
    Log.project f (dated day ops) = [] := by
  rw [Log.project_dated, List.filterMap_eq_nil_iff]
  exact fun op hop => hf op (List.all_eq_true.mp hops op hop)

theorem Log.onDays_eq_nil {β : Type*} {f : Op → Option β} {p : Op → Bool} {ops : List Op}
    (hops : ops.all p = true) (hf : ∀ op, p op = true → f op = none) (day : ℕ) :
    Log.onDays f (dated day ops) = [] := by
  rw [Log.onDays_dated, ← Log.project_dated f day, Log.project_eq_nil hops hf]
  rfl

/-- What mends a table. -/
def Op.isMending : Op → Bool
  | .ingest (.resync _ _) | .repaired _ _ => true
  | _ => false

/-- What happens between two runs. -/
def Op.isHappening : Op → Bool
  | .plantFault _ _ | .rerun _ => true
  | op => op.isMending

/-- An operation that neither breaks, mends nor loads a raw table, and reruns nothing. -/
def Op.isQuiet : Op → Bool
  | .plantFault _ _ | .repaired _ _ | .ingest _ | .rerun _ => false
  | _ => true

namespace RunState

variable (s : RunState) (day : ℕ) (ops : List Op)

@[simp] theorem log_emit : (s.emit day ops).log = s.log ++ dated day ops := rfl
@[simp] theorem summary_emit : (s.emit day ops).summary = s.summary := rfl
@[simp] theorem planted_emit : (s.emit day ops).planted = s.planted := rfl
@[simp] theorem delivered_emit : (s.emit day ops).delivered = s.delivered := rfl
@[simp] theorem loadedUntil_emit : (s.emit day ops).loadedUntil = s.loadedUntil := rfl
@[simp] theorem active_emit : (s.emit day ops).active = s.active := rfl
@[simp] theorem pending_emit : (s.emit day ops).pending = s.pending := rfl
@[simp] theorem parsed_emit : (s.emit day ops).parsed = s.parsed := rfl

/-! ## One fix -/

/-- What a fix does to one of its tables. -/
theorem fixTable_cases (lastLoad time : Timestamp) (name : String) :
    (s.fixTable day lastLoad time name = s ∧ ∀ entry ∈ s.active, entry.1.text ≠ name) ∨
      ∃ table fault, (table, fault) ∈ s.active ∧ table.text = name ∧
        s.fixTable day lastLoad time name =
          { s with active := s.active.filter fun entry => entry.1 ≠ table }.emit day
            [.ingest (.resync table lastLoad), .repaired fault time] := by
  rw [fixTable]
  split
  · next hnone =>
    -- no fault is active on this table: the fix has nothing to do there
    refine .inl ⟨rfl, fun entry hentry hname => ?_⟩
    exact absurd hname (by simpa using List.find?_eq_none.mp hnone entry hentry)
  · next table fault hsome =>
    refine .inr ⟨table, fault, List.mem_of_find?_eq_some hsome, ?_, rfl⟩
    simpa using List.find?_some hsome

/-- What every round keeps, a fix keeps. -/
theorem of_fixTables {I : RunState → Prop} {lastLoad : Timestamp} {fix : Fix}
    (hround : ∀ s, ∀ name ∈ fix.tables, I s → I (s.fixTable day lastLoad fix.time name))
    (h : I s) : I (s.fixTables day lastLoad fix) := by
  -- by induction on the tables the fix covers, whatever it has done so far
  rw [fixTables]
  generalize fix.tables = names at hround ⊢
  induction names generalizing s with
  | nil => exact h
  | cons name names ih =>
    obtain ⟨hfirst, hrest⟩ : (∀ s, I s → I (s.fixTable day lastLoad fix.time name)) ∧
        ∀ s, ∀ name ∈ names, I s → I (s.fixTable day lastLoad fix.time name) :=
      ⟨fun s => hround s name (List.mem_cons_self ..),
        fun s name' hname => hround s name' (List.mem_cons_of_mem _ hname)⟩
    exact ih _ (hfirst s h) hrest

/-- A fix resyncs tables, and records that they are repaired. -/
theorem log_fixTables (lastLoad : Timestamp) (fix : Fix) :
    ∃ ops : List Op, ops.all Op.isMending = true ∧
      (s.fixTables day lastLoad fix).log = s.log ++ dated day ops := by
  refine of_fixTables s day (I := fun s' => ∃ ops : List Op,
    ops.all Op.isMending = true ∧ s'.log = s.log ++ dated day ops) ?_ ⟨[], rfl, by simp⟩
  rintro s' name - ⟨ops, hops, hlog⟩
  rcases s'.fixTable_cases day lastLoad fix.time name with ⟨heq, -⟩ | ⟨table, fault, -, -, heq⟩
  · rw [heq]
    exact ⟨ops, hops, hlog⟩
  · rw [heq]
    refine ⟨ops ++ [.ingest (.resync table lastLoad), .repaired fault fix.time], ?_, ?_⟩
    · rw [List.all_append, hops]
      rfl
    · rw [log_emit, hlog, List.append_assoc, dated_append]

/-- A fix changes which tables are faulted, and nothing else but the log. -/
structure Mends (s s' : RunState) : Prop where
  summary : s'.summary = s.summary
  planted : s'.planted = s.planted
  delivered : s'.delivered = s.delivered
  loadedUntil : s'.loadedUntil = s.loadedUntil
  pending : s'.pending = s.pending
  parsed : s'.parsed = s.parsed

theorem mends_fixTables (lastLoad : Timestamp) (fix : Fix) :
    s.Mends (s.fixTables day lastLoad fix) := by
  apply of_fixTables
  · intro s' name _ h
    rcases s'.fixTable_cases day lastLoad fix.time name with ⟨heq, -⟩ | ⟨_, _, -, -, heq⟩
    · rwa [heq]
    · rw [heq]
      exact ⟨h.1, h.2, h.3, h.4, h.5, h.6⟩
  · exact ⟨rfl, rfl, rfl, rfl, rfl, rfl⟩

end RunState

namespace Company

variable (c : Company) {s s' : RunState} {index : ℕ}

/-! ## What happened -/

/-- **What a fault or a fix does**: it breaks a table that is not faulted, or mends the
tables it covers and is rerun. -/
theorem happen_eq_ok {lastLoad : Timestamp} {h : Happening}
    (hok : c.happen index lastLoad s h = .ok s') :
    (∃ fault time, h = .fault fault time ∧ fault.table ∉ s.active.map Prod.fst ∧
      s' = { s with
        active := s.active ++ [(fault.table, fault)]
        summary := { s.summary with faults := s.summary.faults ++ [fault.faultId] }
        log := s.log ++ [(index, .plantFault fault time)] }) ∨
    ∃ fix, h = .fix fix ∧
      ((c.surroundings.desk.isSome ∧ fix.commands ≠ []) ∧
        s' = { s.fixTables index lastLoad fix with
          summary := { s.summary with reruns := s.summary.reruns + 1 }
          log := (s.fixTables index lastLoad fix).log ++ [(index, .rerun fix)] } ∨
      ¬ (c.surroundings.desk.isSome ∧ fix.commands ≠ []) ∧
        s' = s.fixTables index lastLoad fix) := by
  cases h with
  | fault fault time =>
    rw [happen] at hok
    split at hok
    · -- `run_company` raises where the table is already faulted
      cases hok
    · next hfree => exact .inl ⟨fault, time, rfl, hfree, (Except.ok.inj hok).symm⟩
  | fix fix =>
    refine .inr ⟨fix, rfl, ?_⟩
    simp only [happen] at hok
    split at hok
    · next hdesk =>
      refine .inl ⟨hdesk, ?_⟩
      rw [← Except.ok.inj hok, (s.mends_fixTables index lastLoad fix).summary]
    · -- with nobody watching, or no commands, nothing is rerun
      next hdesk => exact .inr ⟨hdesk, (Except.ok.inj hok).symm⟩

/-- **The rule for what happened**: an invariant that every fault and fix keeps. -/
theorem of_happenings {I : List Happening → RunState → Prop} {lastLoad : Timestamp}
    {l : List Happening} (hok : l.foldlM (c.happen index lastLoad) s = .ok s') (hinit : I [] s)
    (hstep : ∀ done h rest s s', l = done ++ h :: rest → I done s →
      c.happen index lastLoad s h = .ok s' → I (done ++ [h]) s') : I l s' := by
  have hends : Ends (l.foldlM (c.happen index lastLoad) s) (fun _ => True) (I l) := by
    apply Ends.foldlM hinit
    intro done h rest s hl hs
    exact (ends_self _).mono (fun _ _ => trivial) fun s' hs' => hstep done h rest s s' hl hs hs'
  exact hends.returned hok

/-- What happens changes which tables are faulted, what is counted, and the log. -/
structure Happens (index : ℕ) (s s' : RunState) : Prop where
  planted : s'.planted = s.planted
  delivered : s'.delivered = s.delivered
  pending : s'.pending = s.pending
  log : ∃ ops : List Op, ops.all Op.isHappening = true ∧ s'.log = s.log ++ dated index ops

theorem happens_happened {lastLoad : Timestamp} {l : List Happening}
    (hok : l.foldlM (c.happen index lastLoad) s = .ok s') : Happens index s s' := by
  refine c.of_happenings (I := fun _ => Happens index s) hok
    ⟨rfl, rfl, rfl, [], rfl, by simp⟩ ?_
  rintro done h rest s₁ s₂ - ⟨hplanted, hdelivered, hpending, ops, hops, hlog⟩ hstep
  rcases c.happen_eq_ok hstep with ⟨fault, time, rfl, -, rfl⟩ | ⟨fix, -, hfix⟩
  · refine ⟨hplanted, hdelivered, hpending, ops ++ [.plantFault fault time], ?_, ?_⟩
    · rw [List.all_append, hops]
      rfl
    · simp [hlog]
  · obtain ⟨mending, hmending, hlog'⟩ := s₁.log_fixTables index lastLoad fix
    have hmends := s₁.mends_fixTables index lastLoad fix
    -- what mends a table is one of the things that may happen
    have hall : (ops ++ mending).all Op.isHappening = true := by
      rw [List.all_append, hops, Bool.true_and, List.all_eq_true]
      intro op hop
      have hop := List.all_eq_true.mp hmending op hop
      cases op <;> first | exact hop | rfl
    rcases hfix with ⟨-, rfl⟩ | ⟨-, rfl⟩
    · refine ⟨hmends.planted.trans hplanted, hmends.delivered.trans hdelivered,
        hmends.pending.trans hpending, ops ++ mending ++ [.rerun fix], ?_, ?_⟩
      · rw [List.all_append, hall]
        rfl
      · simp [hlog', hlog]
    · refine ⟨hmends.planted.trans hplanted, hmends.delivered.trans hdelivered,
        hmends.pending.trans hpending, ops ++ mending, hall, ?_⟩
      rw [hlog', hlog, List.append_assoc, dated_append]

/-! ## One day -/

/-- **A day**: its morning, what happened, its evening. -/
theorem runDay_eq_ok (hok : c.runDay s index = .ok s') :
    ∃ m, (c.happened index s.pending).foldlM (c.happen index s.loadedUntil) (c.morning index s) =
        .ok m ∧
      s' = c.evening index (s.delivered && !c.timeline.delivered index)
        (s.planted.elim "" fun p => p.fault.faultId) m := by
  obtain ⟨m, hm, heq⟩ := bind_eq_ok.mp hok
  exact ⟨m, hm, (pure_eq_ok.mp heq).symm⟩

theorem after_succ (days : ℕ) : c.after (days + 1) = c.after days >>= fun s => c.runDay s days := by
  rw [after, List.range_succ, List.foldlM_append]
  simp only [List.foldlM_cons, List.foldlM_nil, bind_pure]
  rfl

/-- **The rule for a run**: an invariant that every day keeps. -/
theorem of_days {I : ℕ → RunState → Prop} (hinit : I 0 c.begin)
    (hday : ∀ index s s', I index s → c.runDay s index = .ok s' → I (index + 1) s')
    {days : ℕ} (hok : c.after days = .ok s) : I days s := by
  induction days generalizing s with
  | zero =>
    obtain rfl := Except.ok.inj hok
    exact hinit
  | succ days ih =>
    -- the run has not raised, so neither has any of its days
    rw [after_succ] at hok
    obtain ⟨s₀, hs₀, hs⟩ := bind_eq_ok.mp hok
    exact hday days s₀ s (ih hs₀) hs

/-! ## The morning -/

@[simp] theorem log_morning : (c.morning index s).log = s.log ++
    dated index (.arrive s.loadedUntil (c.runAt index) (c.runAt index - Duration.hours 1) ::
      (s.planted.map fun p => Op.repair p (c.runAt index)).toList) := rfl

@[simp] theorem loadedUntil_morning : (c.morning index s).loadedUntil = c.runAt index := rfl
@[simp] theorem delivered_morning : (c.morning index s).delivered = s.delivered := rfl
@[simp] theorem active_morning : (c.morning index s).active = s.active := rfl
@[simp] theorem planted_morning : (c.morning index s).planted = none := rfl
@[simp] theorem pending_morning : (c.morning index s).pending =
    s.pending.filter fun fix => ¬ fix.time ≤ c.runAt index := rfl

/-! ## The evening -/

/-- The one-off fault planted on a night. -/
def plantedOn (index : ℕ) (log : Log) : Option Planted :=
  (c.timeline.faults.lookup index).map fun fault => ⟨fault, c.surroundings.keys log fault⟩

/-- The copy of a night. -/
def copyCall (index : ℕ) (backfill : Bool) (active : List (Table × Fault)) : Call :=
  -- the night on which the fixed job ships starts its tables over
  if backfill then .backfill (c.runAt index) else c.nightlyLoad index active

/-- Is there a night that is frozen and compared? -/
def compares (index : ℕ) : Bool := c.timeline.parallel index && c.surroundings.reconciles

def freezeOps (index : ℕ) : List Op :=
  if c.compares index then [.freeze (c.runAt index)] else []

/-- Does the application write on, after the copy? -/
def writesOn (index : ℕ) : Bool := c.timeline.parallel index && c.late ≠ 0

/-- What a night of production is handed, up to `desk.fixes()`. -/
def productionOps (index : ℕ) (parsed : Bool) : List Op :=
  (if parsed then [] else [.parse]) ++ [.production (c.runAt index)]

/-- The fixes the desk hands out after a night. -/
def found (index : ℕ) (s : RunState) : Option (List Fix) :=
  if c.timeline.production index then
    -- the desk has seen everything up to this night's run
    c.surroundings.desk.map fun desk => desk (s.emit index (c.productionOps index s.parsed)).log
  else none

/-- Is the project built, outside production? -/
def buildsOn (index : ℕ) : Bool :=
  !c.timeline.production index && (c.timeline.parallel index ||
    (index % c.settings.buildEveryDays = 0 || index + 1 = c.totalDays))

/-- What a night of production, or a build, appends to the log. -/
def buildOps (index : ℕ) (backfill : Bool) (s : RunState) : List Op :=
  (if c.timeline.production index then c.productionOps index s.parsed else []) ++
    ((c.found index s).map Op.fixes).toList ++
    if c.buildsOn index then [.build (s.summary.builds.isEmpty || backfill) (c.runAt index)] else []

section Stages

variable (index) (backfill : Bool) (repaired : String) (s)

theorem freeze_eq :
    c.freeze index s = s.emit index (c.freezeOps index) := by
  simp only [freeze, freezeOps, compares, Bool.and_eq_true]
  split <;> simp [RunState.emit]

theorem copy_eq : c.copy index backfill s =
    { s with delivered := s.delivered && !backfill }.emit index
      [.ingest (c.copyCall index backfill s.active)] := by
  cases backfill <;> simp [copy, copyCall]

theorem plantTonight_eq : c.plantTonight index s =
    { s with planted := (c.plantedOn index s.log).or s.planted }.emit index
      ((c.plantedOn index s.log).map Op.plantOneOff).toList := by
  simp only [plantTonight, plantedOn]
  cases c.timeline.faults.lookup index with
  | none => simp [RunState.emit]  -- what is still planted stays so
  | some fault => rfl

theorem writesAfter_eq : c.writesAfter index s =
    { s with loadedUntil := if c.writesOn index then c.runAt index + c.late else s.loadedUntil }.emit
      index (if c.writesOn index then [.arriveNew (c.runAt index) (c.runAt index + c.late)]
        else []) := by
  simp only [writesAfter, writesOn, Bool.and_eq_true, decide_eq_true_eq]
  split <;> simp [RunState.emit]

theorem buildTonight_eq : c.buildTonight index backfill s =
    { s with
      parsed := s.parsed || c.timeline.production index
      pending := s.pending ++ (c.found index s).getD []
      summary := { s.summary with
        productionNights :=
          s.summary.productionNights + if c.timeline.production index then 1 else 0
        builds := s.summary.builds ++
          if c.timeline.production index || c.buildsOn index then [c.runAt index] else [] } }.emit
      index (c.buildOps index backfill s) := by
  simp only [buildTonight, buildOps, found, buildsOn]
  rcases Bool.eq_false_or_eq_true (c.timeline.production index) with hprod | hprod
  · -- a night of production, with or without a desk
    simp only [hprod]
    cases c.surroundings.desk <;> simp [RunState.emit, productionOps]
  · -- outside production: on nights in parallel, on the days to build, and on the last day
    simp only [hprod, Bool.false_eq_true, if_false]
    by_cases hbuild : c.timeline.parallel index ∨ index % c.settings.buildEveryDays = 0 ∨
        index + 1 = c.totalDays
    · simp [RunState.emit, hbuild]
    · simp [RunState.emit, hbuild]

theorem reconcileTonight_eq : c.reconcileTonight index backfill repaired s =
    s.emit index (if c.compares index then [.night (c.nightOf index backfill repaired s)]
      else []) := by
  simp only [reconcileTonight, compares, Bool.and_eq_true]
  split <;> simp [RunState.emit]

end Stages

/-- Once the copy is in. -/
def copied (index : ℕ) (backfill : Bool) (s : RunState) : RunState :=
  c.copy index backfill (c.freeze index s)

/-- Once nothing more is written to the two databases. -/
def settled (index : ℕ) (backfill : Bool) (s : RunState) : RunState :=
  c.writesAfter index
    ((c.plantTonight index (c.copied index backfill s)).emit index [.optimize (c.runAt index)])

/-- Once the marts are built and read. -/
def served (index : ℕ) (backfill : Bool) (s : RunState) : RunState :=
  (c.buildTonight index backfill (c.settled index backfill s)).emit index [.workload index]

/-- What is copied, planted and written on a night, once everything is frozen. -/
def copyOps (index : ℕ) (backfill : Bool) (s : RunState) : List Op :=
  [.ingest (c.copyCall index backfill s.active)] ++
    ((c.plantedOn index (c.copied index backfill s).log).map Op.plantOneOff).toList ++
    [.optimize (c.runAt index)] ++
    if c.writesOn index then [.arriveNew (c.runAt index) (c.runAt index + c.late)] else []

section Fields

variable (index) (backfill : Bool) (repaired : String) (s)

theorem log_copied : (c.copied index backfill s).log = s.log ++
    dated index (c.freezeOps index ++ [.ingest (c.copyCall index backfill s.active)]) := by
  rw [copied, copy_eq, freeze_eq]
  simp

theorem log_settled : (c.settled index backfill s).log =
    s.log ++ dated index (c.freezeOps index ++ c.copyOps index backfill s) := by
  rw [settled, writesAfter_eq, plantTonight_eq]
  simp [log_copied, copyOps]

theorem log_served : (c.served index backfill s).log = s.log ++
    dated index (c.freezeOps index ++ c.copyOps index backfill s ++
      c.buildOps index backfill (c.settled index backfill s) ++ [.workload index]) := by
  rw [served, buildTonight_eq]
  simp [log_settled]

@[simp] theorem active_copied : (c.copied index backfill s).active = s.active := by
  rw [copied, copy_eq, freeze_eq]
  rfl

@[simp] theorem delivered_copied :
    (c.copied index backfill s).delivered = (s.delivered && !backfill) := by
  rw [copied, copy_eq, freeze_eq]
  rfl

@[simp] theorem planted_copied : (c.copied index backfill s).planted = s.planted := by
  rw [copied, copy_eq, freeze_eq]
  rfl

@[simp] theorem loadedUntil_copied :
    (c.copied index backfill s).loadedUntil = s.loadedUntil := by
  rw [copied, copy_eq, freeze_eq]
  rfl

@[simp] theorem pending_copied : (c.copied index backfill s).pending = s.pending := by
  rw [copied, copy_eq, freeze_eq]
  rfl

@[simp] theorem summary_copied : (c.copied index backfill s).summary = s.summary := by
  rw [copied, copy_eq, freeze_eq]
  rfl

/-- What the writes of a night change but the log. -/
theorem settled_eq : c.settled index backfill s =
    { c.copied index backfill s with
      planted := (c.plantedOn index (c.copied index backfill s).log).or s.planted
      loadedUntil := if c.writesOn index then c.runAt index + c.late else s.loadedUntil
      log := (c.settled index backfill s).log } := by
  -- only one side is unfolded: the log of the other is the one that was reached
  conv_lhs => rw [settled, writesAfter_eq, plantTonight_eq, planted_copied]
  rw [settled, writesAfter_eq, plantTonight_eq]
  simp [RunState.emit]

theorem evening_served : c.evening index backfill repaired s =
    c.endOfDay index (c.reconcileTonight index backfill repaired (c.served index backfill s)) := rfl

theorem log_evening : (c.evening index backfill repaired s).log = s.log ++
    dated index (c.freezeOps index ++ c.copyOps index backfill s ++
      c.buildOps index backfill (c.settled index backfill s) ++ [.workload index] ++
      (if c.compares index then
        [.night (c.nightOf index backfill repaired (c.served index backfill s))] else []) ++
      [.endOfDay (c.dayOf index)]) := by
  rw [evening_served, endOfDay, RunState.log_emit, reconcileTonight_eq, RunState.log_emit,
    log_served]
  simp

/-- **An evening is its copy**: nothing else in it breaks, mends, loads or reruns. -/
theorem log_evening_quiet : ∃ before after : List Op,
    before.all Op.isQuiet = true ∧ after.all Op.isQuiet = true ∧
      (c.evening index backfill repaired s).log =
        s.log ++ dated index (before ++ [.ingest (c.copyCall index backfill s.active)] ++ after) := by
  -- each part of the evening in turn; none of them depends on the state it starts from
  have hfreeze : (c.freezeOps index).all Op.isQuiet = true := by
    rw [freezeOps]
    split <;> rfl
  have hplant : ∀ log,
      ((c.plantedOn index log).map Op.plantOneOff).toList.all Op.isQuiet = true := by
    intro log
    cases c.plantedOn index log <;> rfl
  have hbuild : ∀ s, (c.buildOps index backfill s).all Op.isQuiet = true := by
    intro s
    rw [buildOps, productionOps]
    cases c.found index s <;> split_ifs <;> rfl
  have hlate : (if c.writesOn index then
      [Op.arriveNew (c.runAt index) (c.runAt index + c.late)] else []).all Op.isQuiet = true := by
    split <;> rfl
  have hnight : ∀ night,
      (if c.compares index then [Op.night night] else []).all Op.isQuiet = true := by
    intro night
    split <;> rfl
  refine ⟨c.freezeOps index,
    ((c.plantedOn index (c.copied index backfill s).log).map Op.plantOneOff).toList ++
      [.optimize (c.runAt index)] ++
      (if c.writesOn index then [.arriveNew (c.runAt index) (c.runAt index + c.late)] else []) ++
      c.buildOps index backfill (c.settled index backfill s) ++ [.workload index] ++
      (if c.compares index then
        [.night (c.nightOf index backfill repaired (c.served index backfill s))] else []) ++
      [.endOfDay (c.dayOf index)], hfreeze, ?_, ?_⟩
  · simp only [List.all_append, hplant, hbuild, hlate, hnight]
    rfl
  · rw [log_evening, copyOps]
    simp only [List.append_assoc]

/-- What an evening changes but the log. -/
theorem evening_eq : c.evening index backfill repaired s =
    { s with
      summary := { s.summary with
        days := s.summary.days + 1
        productionNights :=
          s.summary.productionNights + if c.timeline.production index then 1 else 0
        builds := s.summary.builds ++
          if c.timeline.production index || c.buildsOn index then [c.runAt index] else [] }
      planted := (c.plantedOn index (c.copied index backfill s).log).or s.planted
      delivered := s.delivered && !backfill
      loadedUntil := if c.writesOn index then c.runAt index + c.late else s.loadedUntil
      pending := s.pending ++ (c.found index (c.settled index backfill s)).getD []
      parsed := (c.settled index backfill s).parsed || c.timeline.production index
      log := (c.evening index backfill repaired s).log } := by
  conv_lhs =>
    rw [evening_served, endOfDay, reconcileTonight_eq, served, buildTonight_eq]
  rw [evening_served, endOfDay, reconcileTonight_eq, served, buildTonight_eq, settled_eq]
  simp [RunState.emit]

end Fields

end Company

/-! ## A small company -/

/-- Two weeks: one in parallel, whose fixed job ships on the fourth night, and one of
production, with two faults on its second day. The desk schedules one fix, after the third
night. -/
def twoWeeks : Company where
  settings :=
    { start := 0
      dailyRunHour := 2
      buildEveryDays := 28
      parallelRunWeeks := 1
      productionWeeks := 1
      fixAfterNights := 3
      writesAfterIngestMinutes := 60
      faultDays := [1]
      faultHour := 10
      dailyRunHour_le := by decide
      faultHour_le := by decide
      one_le_buildEveryDays := by decide
      one_le_fixAfterNights := by decide }
  totalDays := 14
  surroundings :=
    { keys := fun _ _ => [7, 3]
      deliveredTruth := fun _ _ => []
      desk := some fun log =>
        let nights := log.countP fun entry => match entry.2 with
          | .production _ => true
          | _ => false
        if nights = 3 then
          [⟨"INC-001", ["orders"], Duration.hours 230, [["build", "--select", "orders+"]]⟩]
        else []
      reconciles := true }

end PlatformOps.Simulation
