import PlatformOps.Library.Machine
import PlatformOps.Simulation.CompanyDays

/-!
# The Ground Truth of the Faults

Which raw tables are faulted is a machine of its own: a table is broken by a fault and
mended by its repair. The grading trusts the company to record both as they happen, and
the loader to leave a stopped table alone until then.

- `Op.marks`: what an operation does to the faulted tables.
- `Faithful`: what an operation may do when some tables are faulted.
- `log_faithful`: the log of every run is a run of that machine, and ends in the tables
  the company holds as faulted.
- `planted_once`: every fault of the schedule is planted once, on its day.
-/

namespace PlatformOps.Simulation

open Listing Machine

/-! ## The machine -/

/-- The faulted tables, each with its fault, in the order in which they broke. -/
abbrev Faulted := List (Table × Fault)

/-- What an operation does to the faulted tables. -/
def Op.marks (faulted : Faulted) : Op → Faulted
  | .plantFault fault _ => faulted ++ [(fault.table, fault)]
  | .repaired fault _ => faulted.filter fun entry => entry.1 ≠ fault.table
  | _ => faulted

/-- What an operation may do, given the faulted tables before it. -/
def Faithful (faulted : Faulted) : Op → Prop
  -- a table breaks once at a time, and only a broken one is mended
  | .plantFault fault _ => fault.table ∉ faulted.map Prod.fst
  | .repaired fault _ => (fault.table, fault) ∈ faulted
  | .ingest (.resync table _) => table ∈ faulted.map Prod.fst
  -- a night's load skips the tables whose loader has stopped, and no other
  | .ingest (.load _ _ skip nulled) =>
    (∀ table, table ∈ skip ↔ ∃ fault, (table, fault) ∈ faulted ∧ fault.stopsLoader) ∧
      ∀ table column, (table, column) ∈ nulled ↔ ∃ fault, (table, fault) ∈ faulted ∧
        fault.loadsNulls ∧ fault.column = some column ∧ column ≠ ""
  -- raw is reloaded in full only before the first fault of production
  | .ingest (.backfill _) => faulted = []
  -- a fix is rerun once all it covers is mended
  | .rerun fix => ∀ name ∈ fix.tables, ∀ entry ∈ faulted, entry.1.text ≠ name
  | _ => True

/-- The log, read by the machine. -/
def TruthRun (log : Log) (faulted : Faulted) : Prop :=
  Run (fun faulted (entry : ℕ × Op) => some (entry.2.marks faulted))
    (fun faulted entry => Faithful faulted entry.2) [] log faulted

theorem TruthRun.concat {log : Log} {faulted : Faulted} (h : TruthRun log faulted)
    (entry : ℕ × Op) (hok : Faithful faulted entry.2) :
    TruthRun (log ++ [entry]) (entry.2.marks faulted) :=
  h.append (.cons hok rfl (.nil _))

theorem TruthRun.quiet {log : Log} {faulted : Faulted} (h : TruthRun log faulted) (day : ℕ)
    {ops : List Op} (hops : ops.all Op.isQuiet = true) :
    TruthRun (log ++ dated day ops) faulted := by
  induction ops generalizing log with
  | nil => rwa [dated_nil, List.append_nil]
  | cons op ops ih =>
    rw [List.all_cons, Bool.and_eq_true] at hops
    have hfaithful : Faithful faulted op ∧ op.marks faulted = faulted := by
      cases op <;> first | exact ⟨trivial, rfl⟩ | cases hops.1
    have hfirst := h.concat (day, op) hfaithful.1
    rw [show (day, op).2.marks faulted = faulted from hfaithful.2] at hfirst
    have hrest := ih hfirst hops.2
    rwa [List.append_assoc, List.singleton_append] at hrest

def Op.plantedFault : Op → Option Fault
  | .plantFault fault _ => some fault
  | _ => none

/-- The faults of a log, each with the day on which it was planted. -/
def Log.plantings (log : Log) : List (ℕ × Fault) := log.onDays Op.plantedFault

def Happening.newFault : Happening → Option Fault
  | .fault f _ => some f
  | .fix _ => none

/-! ## The schedule -/

theorem exists_getElem?_of_mem_slice {α : Type*} {l : List α} {n : ℕ} {a : α}
    (h : a ∈ (l.drop (2 * n)).take 2) : ∃ i, l[i]? = some a ∧ i / 2 = n := by
  obtain ⟨i, hi⟩ := List.mem_iff_getElem?.mp h
  rw [List.getElem?_take] at hi
  split at hi
  · next hlt =>
    rw [List.getElem?_drop] at hi
    exact ⟨2 * n + i, hi, by omega⟩
  · cases hi

theorem nodup_faultId_catalogue : (catalogue.map Fault.faultId).Nodup := by
  decide

/-- What a day of the schedule holds. -/
theorem mem_schedule {faultDays : List ℕ} {productionDays : ℕ} {entry : ℕ × List Fault}
    (h : entry ∈ schedule faultDays productionDays) :
    ∃ n, faultDays[n]? = some entry.1 ∧ entry.2 = (catalogue.drop (2 * n)).take 2 ∧
      entry.1 + 1 < productionDays := by
  obtain ⟨⟨day, n⟩, hday, hentry⟩ := List.mem_filterMap.mp (mem_dictOf h)
  rw [Option.ite_none_right_eq_some] at hentry
  obtain ⟨⟨-, hlt⟩, heq⟩ := hentry
  obtain rfl := Option.some.inj heq
  exact ⟨n, List.mem_zipIdx_iff_getElem?.mp hday, rfl, hlt⟩

/-- **No fault is scheduled twice**, and no two faults share an id. -/
theorem day_eq_of_faultId_eq {faultDays : List ℕ} {productionDays : ℕ}
    {entry entry' : ℕ × List Fault} (h : entry ∈ schedule faultDays productionDays)
    (h' : entry' ∈ schedule faultDays productionDays) {fault fault' : Fault}
    (hfault : fault ∈ entry.2) (hfault' : fault' ∈ entry'.2)
    (hid : fault.faultId = fault'.faultId) : entry.1 = entry'.1 := by
  obtain ⟨n, hday, hslice, -⟩ := mem_schedule h
  obtain ⟨n', hday', hslice', -⟩ := mem_schedule h'
  rw [hslice] at hfault
  rw [hslice'] at hfault'
  obtain ⟨i, hi, rfl⟩ := exists_getElem?_of_mem_slice hfault
  obtain ⟨i', hi', rfl⟩ := exists_getElem?_of_mem_slice hfault'
  -- the id says where in the catalogue the fault is, so which of the listed days it has
  have hindex : i = i' := by
    obtain ⟨hlt, -⟩ := List.getElem?_eq_some_iff.mp hi
    have hlt' : i < (catalogue.map Fault.faultId).length := by
      rwa [List.length_map]
    apply (List.getElem?_inj hlt' nodup_faultId_catalogue).mp
    rw [List.getElem?_map, List.getElem?_map, hi, hi']
    exact congrArg some hid
  rw [hindex, hday'] at hday
  exact (Option.some.inj hday).symm

/-! ## One day -/

namespace Company

variable (c : Company) {s s' : RunState} {index days : ℕ}

/-- Does the state agree with what the log says? -/
private structure Agrees (s : RunState) : Prop where
  run : TruthRun s.log s.active
  tables : ∀ entry ∈ s.active, entry.2.table = entry.1

private theorem agrees_fixTable {m : RunState} {lastLoad time : Timestamp} {name : String}
    (h : Agrees m) : Agrees (m.fixTable index lastLoad time name) := by
  rcases m.fixTable_cases index lastLoad time name with ⟨heq, -⟩ | ⟨table, fault, hmem, -, heq⟩
  · rwa [heq]
  · have htable : fault.table = table := h.tables _ hmem
    rw [heq]
    constructor
    · -- the table is resynced, and then its repair is recorded
      have hresync := h.run.concat (index, .ingest (.resync table lastLoad))
        (List.mem_map_of_mem (f := Prod.fst) hmem)
      have hrepaired := hresync.concat (index, .repaired fault time)
        (show (fault.table, fault) ∈ m.active from htable ▸ hmem)
      simpa [Op.marks, htable] using hrepaired
    · intro entry hentry
      exact h.tables entry (List.mem_filter.mp hentry).1

/-- After a fix none of its tables is faulted. -/
private theorem agrees_fixTables {m : RunState} {lastLoad : Timestamp} {fix : Fix}
    (h : Agrees m) : Agrees (m.fixTables index lastLoad fix) ∧
      (m.fixTables index lastLoad fix).active ⊆ m.active ∧
      ∀ name ∈ fix.tables, ∀ entry ∈ (m.fixTables index lastLoad fix).active,
        entry.1.text ≠ name := by
  rw [RunState.fixTables]
  generalize fix.tables = names
  induction names generalizing m with
  | nil => exact ⟨h, fun _ => id, fun _ hname => absurd hname List.not_mem_nil⟩
  | cons name names ih =>
    obtain ⟨hagrees, hsub, hnames⟩ := ih (@agrees_fixTable index m lastLoad fix.time name h)
    have hfirst : (m.fixTable index lastLoad fix.time name).active ⊆ m.active ∧
        ∀ entry ∈ (m.fixTable index lastLoad fix.time name).active, entry.1.text ≠ name := by
      rcases m.fixTable_cases index lastLoad fix.time name with
        ⟨heq, hnone⟩ | ⟨table, fault, -, rfl, heq⟩
      · rw [heq]
        exact ⟨fun _ => id, hnone⟩
      · rw [heq]
        refine ⟨List.filter_subset_self _, fun entry hentry htext => ?_⟩
        have hne := of_decide_eq_true (List.mem_filter.mp hentry).2
        exact hne (Table.text_injective htext)
    refine ⟨hagrees, fun _ hentry => hfirst.1 (hsub hentry), ?_⟩
    intro name' hname' entry hentry
    rcases List.mem_cons.mp hname' with rfl | hname'
    · exact hfirst.2 entry (hsub hentry)
    · exact hnames name' hname' entry hentry

private theorem agrees_happen {m m' : RunState} {lastLoad : Timestamp} {happening : Happening}
    (h : Agrees m) (hok : c.happen index lastLoad m happening = .ok m') : Agrees m' := by
  rcases c.happen_eq_ok hok with ⟨fault, time, -, hfree, rfl⟩ | ⟨fix, -, ⟨-, rfl⟩ | ⟨-, rfl⟩⟩
  · refine ⟨h.run.concat (index, .plantFault fault time) hfree, fun entry hentry => ?_⟩
    rcases List.mem_append.mp hentry with hentry | hentry
    · exact h.tables entry hentry
    · rw [List.mem_singleton.mp hentry]
  · obtain ⟨hfix, -, hnames⟩ := @agrees_fixTables index m lastLoad fix h
    exact ⟨hfix.run.concat (index, .rerun fix) hnames, hfix.tables⟩
  · exact (agrees_fixTables h).1

theorem faithful_nightlyLoad (index : ℕ) (faulted : Faulted) :
    Faithful faulted (.ingest (c.nightlyLoad index faulted)) := by
  constructor
  · intro table
    simp only [List.mem_map, List.mem_filter, Prod.exists, exists_and_right, exists_eq_right]
  · intro table column
    rw [List.mem_filterMap]
    constructor
    · rintro ⟨⟨table', fault⟩, hmem, h⟩
      rw [Option.ite_none_right_eq_some, Option.map_eq_some_iff] at h
      obtain ⟨hnulls, column', hcolumn, heq⟩ := h
      obtain ⟨rfl, rfl⟩ := Prod.mk.inj heq
      obtain ⟨hsome, hne⟩ := Option.filter_eq_some_iff.mp hcolumn
      exact ⟨fault, hmem, hnulls, hsome, of_decide_eq_true hne⟩
    · rintro ⟨fault, hmem, hnulls, hcolumn, hne⟩
      refine ⟨(table, fault), hmem, ?_⟩
      rw [if_pos hnulls, hcolumn]
      simp [Option.filter, hne]

private theorem agrees_evening {backfill : Bool} {repaired : String} {m : RunState}
    (h : Agrees m) (hbackfill : backfill = true → m.active = []) :
    Agrees (c.evening index backfill repaired m) := by
  obtain ⟨before, after, hbefore, hafter, hlog⟩ :=
    c.log_evening_quiet m index backfill repaired
  have hactive : (c.evening index backfill repaired m).active = m.active := by
    rw [evening_eq]
  have hcopy : Faithful m.active (.ingest (c.copyCall index backfill m.active)) := by
    rw [copyCall]
    split
    · next hb => exact hbackfill hb
    · exact c.faithful_nightlyLoad index m.active
  refine ⟨?_, by rw [hactive]; exact h.tables⟩
  rw [hactive, hlog, dated_append, dated_append, ← List.append_assoc, ← List.append_assoc]
  have hcopied := (h.run.quiet index hbefore).concat (index, .ingest _) hcopy
  rw [show Op.marks m.active (.ingest _) = m.active from rfl] at hcopied
  exact hcopied.quiet index hafter

/-! ## The run -/

/-- The faults of a morning are those scheduled for the day before. -/
theorem exists_scheduled {fault : Fault} (h : fault ∈ c.faultsBefore index) :
    ∃ entry ∈ schedule c.settings.faultDays (min c.totalDays (c.settings.productionWeeks * 7)),
      c.faultsBefore index = entry.2 ∧ index = c.timeline.productionStart + entry.1 + 1 := by
  rw [faultsBefore] at h ⊢
  split at h
  · cases h
  · next hne =>
    rw [if_neg hne]
    cases hlookup : c.timeline.incidents.lookup (index - 1) with
    | none =>
      rw [hlookup] at h
      cases h
    | some faults =>
      obtain ⟨entry, hentry, heq⟩ := List.mem_map.mp (mem_of_lookup_eq_some hlookup)
      obtain ⟨hday, rfl⟩ := Prod.mk.inj heq
      split at hentry
      · refine ⟨entry, hentry, rfl, ?_⟩
        rw [show c.timeline.productionStart + entry.1 = index - 1 from hday]
        omega
      · cases hentry

theorem productionStart_lt {fault : Fault} (h : fault ∈ c.faultsBefore index) :
    c.timeline.productionStart < index := by
  obtain ⟨entry, -, -, hindex⟩ := c.exists_scheduled h
  omega

/-- The faults of the schedule, each with the morning on which it happens. -/
def scheduled (days : ℕ) : List (ℕ × Fault) :=
  (List.range days).flatMap fun day => (c.faultsBefore day).map fun fault => (day, fault)

theorem nodup_faultId_scheduled (days : ℕ) :
    ((c.scheduled days).map fun planted => planted.2.faultId).Nodup := by
  rw [scheduled, List.map_flatMap, List.nodup_flatMap]
  simp only [List.map_map]
  constructor
  · intro index _
    change ((c.faultsBefore index).map Fault.faultId).Nodup
    rcases List.eq_nil_or_concat' (c.faultsBefore index) with hnil | ⟨faults, fault, hmem⟩
    · rw [hnil]
      exact List.nodup_nil
    · obtain ⟨entry, hentry, heq, -⟩ := @exists_scheduled c index fault (by
        rw [hmem]
        exact List.mem_concat_self)
      obtain ⟨n, -, hslice, -⟩ := mem_schedule hentry
      rw [heq, hslice]
      exact nodup_faultId_catalogue.sublist
        (((List.take_sublist _ _).trans (List.drop_sublist _ _)).map _)
  · refine List.Pairwise.imp ?_ List.nodup_range
    intro index index' hne id hid hid'
    obtain ⟨fault, hfault, rfl⟩ := List.mem_map.mp hid
    obtain ⟨fault', hfault', heq⟩ := List.mem_map.mp hid'
    obtain ⟨entry, hentry, hfaults, hindex⟩ := c.exists_scheduled hfault
    obtain ⟨entry', hentry', hfaults', hindex'⟩ := c.exists_scheduled hfault'
    have hday := day_eq_of_faultId_eq hentry hentry' (hfaults ▸ hfault) (hfaults' ▸ hfault')
      heq.symm
    exact hne (by rw [hindex, hindex', hday])

theorem filterMap_newFault_happened (index : ℕ) (pending : List Fix) :
    ((c.happened index pending).filterMap Happening.newFault).Perm (c.faultsBefore index) := by
  have hfaults : ∀ (faults : List Fault) (time : Timestamp),
      (faults.map (Happening.fault · time)).filterMap Happening.newFault = faults := by
    intro faults time
    induction faults with
    | nil => rfl
    | cons fault faults ih => exact congrArg (fault :: ·) ih
  have hfixes : ∀ fixes : List Fix, (fixes.map Happening.fix).filterMap Happening.newFault =
      [] := by
    intro fixes
    induction fixes with
    | nil => rfl
    | cons fix fixes ih => exact ih
  rw [happened]
  refine ((perm_sortBy _ _).filterMap _).trans (List.Perm.of_eq ?_)
  rw [List.filterMap_append, hfaults, hfixes, List.append_nil]

theorem plantings_fixTables {m : RunState} (lastLoad : Timestamp) (fix : Fix) :
    (m.fixTables index lastLoad fix).log.plantings = m.log.plantings := by
  obtain ⟨ops, hops, hlog⟩ := m.log_fixTables index lastLoad fix
  rw [hlog, Log.plantings, Log.onDays_append, Log.onDays_eq_nil hops, List.append_nil]
  · rfl
  · intro op hop
    cases op <;> first | rfl | cases hop

/-- What holds in the middle of what happened. -/
private structure Midday (index : ℕ) (s : RunState) (done : List Happening) (m : RunState) :
    Prop where
  agrees : Agrees m
  delivered : m.delivered = s.delivered
  started : m.active ≠ [] → c.timeline.productionStart < index
  plantings : m.log.plantings =
    s.log.plantings ++ (done.filterMap Happening.newFault).map fun fault => (index, fault)

private theorem midday_happen {m m' : RunState} {done : List Happening} {happening : Happening}
    {lastLoad : Timestamp} (h : c.Midday index s done m)
    (hfault : ∀ fault ∈ happening.newFault, fault ∈ c.faultsBefore index)
    (hok : c.happen index lastLoad m happening = .ok m') :
    c.Midday index s (done ++ [happening]) m' := by
  have hagrees := c.agrees_happen h.agrees hok
  have hnone : ∀ fix : Fix, (done ++ [Happening.fix fix]).filterMap Happening.newFault =
      done.filterMap Happening.newFault := by
    intro fix
    rw [List.filterMap_append]
    exact List.append_nil _
  rcases c.happen_eq_ok hok with ⟨fault, time, rfl, -, rfl⟩ | ⟨fix, rfl, hfix⟩
  · refine ⟨hagrees, h.delivered, fun _ => c.productionStart_lt (hfault fault rfl), ?_⟩
    have hplant : Log.plantings (m.log ++ [(index, Op.plantFault fault time)]) =
        m.log.plantings ++ [(index, fault)] := Log.onDays_append _ _ _
    simp only [hplant, h.plantings, List.filterMap_append, List.map_append, List.append_assoc]
    rfl
  · have hmends := m.mends_fixTables index lastLoad fix
    obtain ⟨-, hsub, -⟩ := @agrees_fixTables index m lastLoad fix h.agrees
    have hstarted : (m.fixTables index lastLoad fix).active ≠ [] →
        c.timeline.productionStart < index := by
      intro hne
      obtain ⟨entry, hentry⟩ := List.exists_mem_of_ne_nil _ hne
      exact h.started (List.ne_nil_of_mem (hsub hentry))
    have hplantings := @plantings_fixTables index m lastLoad fix
    rcases hfix with ⟨-, rfl⟩ | ⟨-, rfl⟩
    · refine ⟨hagrees, hmends.delivered.trans h.delivered, hstarted, ?_⟩
      rw [hnone, ← h.plantings, ← hplantings]
      simp [Log.plantings, Op.plantedFault]
    · exact ⟨hagrees, hmends.delivered.trans h.delivered, hstarted, by
        rw [hnone, hplantings, h.plantings]⟩

/-- What holds between two days. -/
private structure Between (days : ℕ) (s : RunState) : Prop where
  agrees : Agrees s
  delivered : s.delivered = c.timeline.delivered (days - 1)
  started : s.active ≠ [] → c.timeline.productionStart + 1 < days
  plantings : s.log.plantings.Perm (c.scheduled days)

/-- The job is the fixed one from the copy that ships it. -/
theorem delivered_after_copy (index : ℕ) :
    (c.timeline.delivered (index - 1) &&
      !(c.timeline.delivered (index - 1) && !c.timeline.delivered index)) =
        c.timeline.delivered index := by
  have hand : (c.timeline.delivered (index - 1) && c.timeline.delivered index) =
      c.timeline.delivered index := by
    simp only [Timeline.delivered]
    by_cases hlt : index < c.timeline.fixNight
    · have hpred : index - 1 < c.timeline.fixNight := by omega
      simp [hlt, hpred]
    · simp [hlt]
  rw [← hand]
  cases c.timeline.delivered (index - 1) <;> cases c.timeline.delivered index <;> rfl

/-- Raw is reloaded in full no later than the first night of production. -/
theorem le_productionStart_of_backfill
    (h : (c.timeline.delivered (index - 1) && !c.timeline.delivered index) = true) :
    index ≤ c.timeline.productionStart := by
  have hfix : c.timeline.fixNight ≤ c.timeline.productionStart := Timeline.fixNight_le _ _
  simp only [Timeline.delivered, Bool.and_eq_true, decide_eq_true_eq, Bool.not_eq_true',
    Bool.and_eq_false_iff, decide_eq_false_iff_not] at h
  omega

private theorem between_day (h : c.Between index s) (hok : c.runDay s index = .ok s') :
    c.Between (index + 1) s' := by
  obtain ⟨m, hm, rfl⟩ := c.runDay_eq_ok hok
  have hmorning : c.Midday index s [] (c.morning index s) := by
    refine ⟨⟨?_, h.agrees.tables⟩, rfl, fun hne => (Nat.lt_succ_self _).trans (h.started hne), ?_⟩
    · rw [log_morning, active_morning]
      apply h.agrees.run.quiet
      cases s.planted <;> rfl
    · rw [log_morning]
      cases s.planted <;> simp [Log.plantings, Op.plantedFault]
  have hmidday : c.Midday index s (c.happened index s.pending) m := by
    refine c.of_happenings (I := c.Midday index s) hm hmorning ?_
    intro done happening rest m₁ m₂ hl hm₁ hstep
    refine c.midday_happen hm₁ (fun fault hfault => ?_) hstep
    apply (c.filterMap_newFault_happened index s.pending).mem_iff.mp
    rw [hl, List.mem_filterMap]
    exact ⟨happening, List.mem_append_right _ (List.mem_cons_self ..), hfault⟩
  have hbackfill : (s.delivered && !c.timeline.delivered index) = true → m.active = [] := by
    intro hb
    rw [h.delivered] at hb
    have hle := c.le_productionStart_of_backfill hb
    by_contra hne
    exact absurd (hmidday.started hne) (not_lt.mpr hle)
  generalize hb : (s.delivered && !c.timeline.delivered index) = backfill at hbackfill
  generalize (s.planted.elim "" fun p => p.fault.faultId) = repaired
  have hplantings : (c.evening index backfill repaired m).log.plantings = m.log.plantings := by
    have hquiet : ∀ ops : List Op, ops.all Op.isQuiet = true →
        ops.filterMap Op.plantedFault = [] := by
      intro ops hops
      rw [List.filterMap_eq_nil_iff]
      intro op hop
      have hop := List.all_eq_true.mp hops op hop
      cases op <;> first | rfl | cases hop
    obtain ⟨before, after, hbefore, hafter, hlog⟩ :=
      c.log_evening_quiet m index backfill repaired
    rw [hlog, Log.plantings, Log.onDays_append, Log.onDays_dated, List.filterMap_append,
      List.filterMap_append, hquiet before hbefore, hquiet after hafter]
    exact List.append_nil _
  refine ⟨c.agrees_evening hmidday.agrees hbackfill, ?_, ?_, ?_⟩
  · rw [evening_eq, ← hb, hmidday.delivered, h.delivered, Nat.add_sub_cancel]
    exact c.delivered_after_copy index
  · intro hne
    rw [evening_eq] at hne
    have hlt := hmidday.started hne
    omega
  · rw [hplantings, hmidday.plantings, scheduled, List.range_succ, List.flatMap_append]
    refine h.plantings.append ?_
    rw [List.flatMap_singleton]
    exact (c.filterMap_newFault_happened index s.pending).map _

private theorem between_after (hok : c.after days = .ok s) : c.Between days s := by
  refine c.of_days (I := c.Between) ?_ (fun _ _ _ => c.between_day) hok
  refine ⟨⟨?_, fun _ h => absurd h List.not_mem_nil⟩, rfl, fun h => absurd rfl h, .refl _⟩
  -- the first load, and nothing is faulted
  have hstart : TruthRun [(0, .startOver)] [] := .cons trivial rfl (.nil _)
  exact hstart.concat (0, .ingest (.load c.settings.start false [] []))
    (show _ ∧ _ by simp)

/-- **The log is faithful to the ground truth.** In every run, after any number of its
days: a table breaks only when it is not broken, and is mended only from the fault it has;
each night's load skips exactly the tables whose loader has stopped, and writes `NULL`
exactly where a fault does; a resync reloads a broken table, a backfill comes only while
nothing is broken, and a fix is rerun only once all its tables are whole; and the tables
the company holds as faulted are those that the log says are. -/
theorem log_faithful (hok : c.after days = .ok s) : TruthRun s.log s.active :=
  (c.between_after hok).agrees.run

theorem log_faithful_two_weeks : ∃ s, twoWeeks.after 14 = .ok s ∧
    s.active.map (fun entry => entry.2.faultId) = ["F2"] ∧ TruthRun s.log s.active := by
  refine ⟨_, rfl, by decide, ?_⟩
  exact @log_faithful twoWeeks _ 14 rfl

/-- **Every fault of the schedule is planted once**, on the morning after its day, and no
other fault is; no two plantings share an id. -/
theorem planted_once (hok : c.after days = .ok s) :
    s.log.plantings.Perm (c.scheduled days) ∧
      (s.log.plantings.map fun planted => planted.2.faultId).Nodup := by
  have hperm := (c.between_after hok).plantings
  exact ⟨hperm, (hperm.map _).nodup_iff.mpr (c.nodup_faultId_scheduled days)⟩

theorem planted_once_two_weeks : ∃ s, twoWeeks.after 14 = .ok s ∧
    s.log.plantings.map (fun planted => (planted.1, planted.2.faultId)) =
      [(9, "F1"), (9, "F2")] ∧ s.log.plantings.Perm (twoWeeks.scheduled 14) := by
  refine ⟨_, rfl, by decide, ?_⟩
  exact (@planted_once twoWeeks _ 14 rfl).1

end Company

end PlatformOps.Simulation
