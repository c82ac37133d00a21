import PlatformOps.Library.Machine
import PlatformOps.Library.Snapshots
import PlatformOps.Reconcile.Parallel

/-!
# Freezing the Legacy Reports

Before the copy of a night reads, `freeze_reports` writes every legacy report into a table
of its own. One transaction exports its snapshot; a pool of workers, each on a connection
of its own, takes it over and reads in it, while the application keeps writing.

A freeze is a machine whose steps are those of the leader, of the workers and of the
application, in any order. A connection may be lost at any point.

- `Accounted`: every report that was handed out is frozen or with its worker.
- `InSnapshot`: what is read and written is the version that was exported.
- `freeze_one_snapshot`: whatever the order, what is frozen is the reports of one version
  of the database, and a freeze that returns has frozen each report once.
-/

namespace PlatformOps.Reconcile

open Listing Machine Snapshots

/-- The connections to the legacy database. -/
inductive Connection
  | leader
  | worker (job : ℕ)
deriving DecidableEq, Repr

/-- How far a worker is with its report, whose rows are of type `ρ`. -/
inductive JobPhase (ρ : Type)
  | connected
  /-- `SET TRANSACTION SNAPSHOT` is done. -/
  | reading
  /-- The table is written, and not committed. -/
  | written (rows : ρ)
deriving DecidableEq, Repr

/-- One call of `freeze(name)`. -/
structure Job (ρ : Type) where
  id : ℕ
  name : String
  phase : JobPhase ρ
deriving DecidableEq, Repr

def Job.isWritten {ρ : Type} (job : Job ρ) : Bool :=
  match job.phase with
  | .written _ => true
  | _ => false

inductive LeaderPhase
  | fresh
  /-- The schema of the frozen reports is there, and empty. -/
  | recreated
  /-- The snapshot is exported, and the pool is at work. -/
  | pooling
  | returned
  | raised
deriving DecidableEq, Repr

/-- The state of `freeze_reports`: `σ` is what the legacy database holds. -/
structure Freezing (σ ρ : Type) where
  server : Server σ Connection
  /-- The committed tables of the frozen schema. -/
  frozen : List (String × ρ)
  leader : LeaderPhase := .fresh
  /-- How many names the pool has handed to a worker. -/
  next : ℕ := 0
  running : List (Job ρ) := []
  /-- Has a worker raised? -/
  failed : Bool := false

/-- What a freeze is given. -/
structure Freeze (σ ρ : Type) where
  names : List String
  workers : ℕ
  /-- The rows of a report, if there is a report of that name. -/
  report : String → σ → Option ρ

inductive FreezeStep (σ : Type)
  /-- The application commits. -/
  | write (new : σ)
  | recreate
  | exportSnapshot
  /-- The pool hands the next report to a worker. -/
  | connect
  | importSnapshot (job : ℕ)
  | create (job : ℕ)
  | commit (job : ℕ)
  /-- A worker's connection is lost. -/
  | fail (job : ℕ)
  /-- The leader's connection is lost. -/
  | lose
  /-- The pool is joined, and the leader commits. -/
  | finish
deriving DecidableEq, Repr

/-- A connection is lost. -/
def FreezeStep.isLoss {σ : Type} : FreezeStep σ → Bool
  | .fail _ | .lose => true
  | _ => false

namespace Freezing

variable {σ ρ : Type} (s : Freezing σ ρ)

def job? (id : ℕ) : Option (Job ρ) :=
  s.running.find? fun job => job.id = id

/-- A worker goes on to its next phase. -/
def advance (id : ℕ) (phase : JobPhase ρ) : Freezing σ ρ :=
  { s with running := s.running.map fun job =>
      if job.id = id then { job with phase := phase } else job }

/-- A worker is done, and its connection closed. -/
def leave (id : ℕ) : Freezing σ ρ :=
  { s with
    running := s.running.eraseP fun job => job.id = id
    server := { s.server with reads := Function.update s.server.reads (.worker id) none } }

/-- A worker raises: its transaction is rolled back. -/
def drop (id : ℕ) : Freezing σ ρ :=
  { s.leave id with failed := true }

end Freezing

namespace Freeze

variable {σ ρ : Type} (f : Freeze σ ρ)

/-- The table is written by another worker, and not committed. -/
def blocked (s : Freezing σ ρ) (name : String) : Bool :=
  s.running.any fun job => job.name = name && job.isWritten

/-- `CREATE TABLE frozen.name AS SELECT * FROM reports.name`, in the version `v`. -/
def createIn (s : Freezing σ ρ) (id : ℕ) (name : String) (v : σ) : Option (Freezing σ ρ) :=
  -- the name is taken until the other transaction ends
  if blocked s name then none
  else if name ∈ s.frozen.map Prod.fst then some (s.drop id)
  else match f.report name v with
    | none => some (s.drop id)
    | some rows => some (s.advance id (.written rows))

/-- `freeze_reports`, one step of anybody. -/
def step (s : Freezing σ ρ) : FreezeStep σ → Option (Freezing σ ρ)
  | .write new => (s.server.step (.commit new)).map fun server => { s with server := server }
  | .recreate =>
    if s.leader = .fresh then some { s with frozen := [], leader := .recreated } else none
  | .exportSnapshot =>
    if s.leader = .recreated then
      (s.server.step (.start .leader)).map fun server =>
        { s with server := server, leader := .pooling }
    else none
  | .connect =>
    if s.leader = .pooling ∧ s.running.length < max 1 f.workers then
      (f.names[s.next]?).map fun name =>
        { s with next := s.next + 1, running := s.running ++ [⟨s.next, name, .connected⟩] }
    else none
  | .importSnapshot id =>
    match s.job? id with
    | some ⟨_, _, .connected⟩ =>
      match s.server.step (.share .leader (.worker id)) with
      -- the snapshot is gone with the leader's transaction
      | none => some (s.drop id)
      | some server => some ({ s with server := server }.advance id .reading)
    | _ => none
  | .create id =>
    match s.job? id with
    | some ⟨_, name, .reading⟩ => (s.server.reads (.worker id)).bind (f.createIn s id name)
    | _ => none
  | .commit id =>
    match s.job? id with
    | some ⟨_, name, .written rows⟩ =>
      some { s.leave id with frozen := s.frozen ++ [(name, rows)] }
    | _ => none
  | .fail id => (s.job? id).map fun _ => s.drop id
  | .lose =>
    match s.leader with
    | .fresh | .recreated => some { s with leader := .raised }
    | .pooling =>
      if (s.server.reads .leader).isSome then
        (s.server.step (.close .leader)).map fun server => { s with server := server }
      else none
    | _ => none
  | .finish =>
    -- a worker that raised cancels what is waiting
    if s.leader = .pooling ∧ s.running = [] ∧ (s.next = f.names.length ∨ s.failed) then
      let returns := !s.failed && (s.server.reads .leader).isSome
      (s.server.step (.close .leader)).map fun server =>
        { s with server := server, leader := if returns then .returned else .raised }
    else none

/-- A run of a freeze and of everybody else, in any order. -/
def Runs (s : Freezing σ ρ) (es : List (FreezeStep σ)) (s' : Freezing σ ρ) : Prop :=
  Run (fun s e => f.step s e) (fun _ _ => True) s es s'

end Freeze

/-- `ParallelRun.freeze`: the reports of the configuration. -/
def ParallelRun.freeze {σ ρ : Type} (config : ReconcileConfig) (workers : ℕ)
    (report : String → σ → Option ρ) : Freeze σ ρ :=
  ⟨config.reports.map PairConfig.source, workers, report⟩

/-- What the database held when the snapshot was exported. -/
def exportedAt {σ : Type} : σ → List (FreezeStep σ) → Option σ
  | _, [] => none
  | _, .write new :: es => exportedAt new es
  | v, .exportSnapshot :: _ => some v
  | v, _ :: es => exportedAt v es

/-! ## The workers of a freeze -/

namespace Freezing

variable {σ ρ : Type} {s : Freezing σ ρ} {job : Job ρ} {id : ℕ}

/-- Where a worker is among the others, and what its next phase makes of them, and its end. -/
theorem exists_split (hids : (s.running.map Job.id).Nodup) (h : s.job? id = some job) :
    job.id = id ∧ ∃ before after, s.running = before ++ job :: after ∧
      (∀ phase, (s.advance id phase).running = before ++ { job with phase := phase } :: after) ∧
      (s.leave id).running = before ++ after := by
  obtain ⟨hid, before, after, hsplit, hbefore⟩ := List.find?_eq_some_iff_append.mp h
  rw [decide_eq_true_eq] at hid
  have hothers : ∀ other ∈ before, other.id ≠ id := by
    intro other hother
    simpa using hbefore other hother
  refine ⟨hid, before, after, hsplit, fun phase => ?_, ?_⟩
  · rw [hsplit, List.map_append, List.map_cons, List.nodup_append, List.nodup_cons] at hids
    obtain ⟨-, ⟨hafter, -⟩, -⟩ := hids
    -- no other job has the id
    have hsame : ∀ l : List (Job ρ), (∀ other ∈ l, other.id ≠ id) → l.map (fun other =>
        if other.id = id then { other with phase := phase } else other) = l := by
      intro l hl
      conv_rhs => rw [← List.map_id l]
      exact List.map_congr_left fun other hother => if_neg (hl other hother)
    change s.running.map _ = _
    rw [hsplit, List.map_append, List.map_cons, hsame before hothers, hsame after, if_pos hid]
    intro other hother heq
    exact hafter (hid ▸ heq ▸ List.mem_map_of_mem hother)
  · change s.running.eraseP _ = _
    rw [hsplit, List.eraseP_append_right, List.eraseP_cons_of_pos (by simpa using hid)]
    intro other hother
    simpa using hothers other hother

theorem mem_of_job? (h : s.job? id = some job) : job ∈ s.running ∧ job.id = id :=
  ⟨List.mem_of_find?_eq_some h, by simpa using List.find?_some h⟩

end Freezing

/-! ## What a step does -/

namespace Freeze

variable {σ ρ : Type} (f : Freeze σ ρ) {s s' : Freezing σ ρ} {e : FreezeStep σ}

/-- The steps that are possible, each with what it does. -/
inductive Steps (s : Freezing σ ρ) : FreezeStep σ → Freezing σ ρ → Prop
  | write (new : σ) : Steps s (.write new) { s with server := { s.server with current := new } }
  | recreate : s.leader = .fresh →
      Steps s .recreate { s with frozen := [], leader := .recreated }
  | exportSnapshot {server : Server σ Connection} : s.leader = .recreated →
      s.server.step (.start .leader) = some server →
      Steps s .exportSnapshot { s with server := server, leader := .pooling }
  | connect {name : String} : s.leader = .pooling → f.names[s.next]? = some name →
      Steps s .connect
        { s with next := s.next + 1, running := s.running ++ [⟨s.next, name, .connected⟩] }
  | importSnapshot {id : ℕ} {name : String} {server : Server σ Connection} :
      s.job? id = some ⟨id, name, .connected⟩ →
      s.server.step (.share .leader (.worker id)) = some server →
      Steps s (.importSnapshot id) ({ s with server := server }.advance id .reading)
  /-- The leader's transaction is over. -/
  | importFails {id : ℕ} {name : String} : s.job? id = some ⟨id, name, .connected⟩ →
      s.server.reads .leader = none → Steps s (.importSnapshot id) (s.drop id)
  | create {id : ℕ} {name : String} {v : σ} {rows : ρ} :
      s.job? id = some ⟨id, name, .reading⟩ → s.server.reads (.worker id) = some v →
      blocked s name = false → name ∉ s.frozen.map Prod.fst → f.report name v = some rows →
      Steps s (.create id) (s.advance id (.written rows))
  /-- The table exists already, or the report does not. -/
  | createFails {id : ℕ} {name : String} {v : σ} :
      s.job? id = some ⟨id, name, .reading⟩ → s.server.reads (.worker id) = some v →
      name ∈ s.frozen.map Prod.fst ∨ f.report name v = none → Steps s (.create id) (s.drop id)
  | commit {id : ℕ} {name : String} {rows : ρ} :
      s.job? id = some ⟨id, name, .written rows⟩ →
      Steps s (.commit id) { s.leave id with frozen := s.frozen ++ [(name, rows)] }
  | fail {id : ℕ} {job : Job ρ} : s.job? id = some job → Steps s (.fail id) (s.drop id)
  | loseEarly : s.leader = .fresh ∨ s.leader = .recreated →
      Steps s .lose { s with leader := .raised }
  | lose {server : Server σ Connection} : s.leader = .pooling →
      (s.server.reads .leader).isSome → s.server.step (.close .leader) = some server →
      Steps s .lose { s with server := server }
  | finish {server : Server σ Connection} : s.leader = .pooling → s.running = [] →
      s.next = f.names.length → s.failed = false → (s.server.reads .leader).isSome →
      s.server.step (.close .leader) = some server →
      Steps s .finish { s with server := server, leader := .returned }
  | finishFails {server : Server σ Connection} : s.leader = .pooling → s.running = [] →
      s.failed = true ∨ s.server.reads .leader = none →
      s.server.step (.close .leader) = some server →
      Steps s .finish { s with server := server, leader := .raised }

theorem steps_of_step (h : f.step s e = some s') : f.Steps s e s' := by
  cases e with
  | write new =>
    obtain rfl := Option.some.inj h
    exact .write new
  | recreate =>
    simp only [step, Option.ite_none_right_eq_some] at h
    obtain ⟨hleader, h⟩ := h
    obtain rfl := Option.some.inj h
    exact .recreate hleader
  | exportSnapshot =>
    simp only [step, Option.ite_none_right_eq_some, Option.map_eq_some_iff] at h
    obtain ⟨hleader, server, hserver, rfl⟩ := h
    exact .exportSnapshot hleader hserver
  | connect =>
    simp only [step, Option.ite_none_right_eq_some, Option.map_eq_some_iff] at h
    obtain ⟨⟨hleader, -⟩, name, hname, rfl⟩ := h
    exact .connect hleader hname
  | importSnapshot id =>
    simp only [step] at h
    split at h
    · next id' name hjob =>
      obtain rfl : id' = id := (Freezing.mem_of_job? hjob).2
      split at h
      · next hserver =>
        obtain rfl := Option.some.inj h
        exact .importFails hjob (Server.share_eq_none.mp hserver)
      · next server hserver =>
        obtain rfl := Option.some.inj h
        exact .importSnapshot hjob hserver
    · cases h
  | create id =>
    simp only [step] at h
    split at h
    · next id' name hjob =>
      obtain rfl : id' = id := (Freezing.mem_of_job? hjob).2
      obtain ⟨v, hv, h⟩ := Option.bind_eq_some_iff.mp h
      rw [createIn] at h
      split at h
      · cases h
      · next hblocked =>
        split at h
        · next htaken =>
          obtain rfl := Option.some.inj h
          exact .createFails hjob hv (.inl htaken)
        · next hfree =>
          split at h
          · next hnone =>
            obtain rfl := Option.some.inj h
            exact .createFails hjob hv (.inr hnone)
          · next rows hrows =>
            obtain rfl := Option.some.inj h
            exact .create hjob hv (by simpa using hblocked) hfree hrows
    · cases h
  | commit id =>
    simp only [step] at h
    split at h
    · next id' name rows hjob =>
      obtain rfl : id' = id := (Freezing.mem_of_job? hjob).2
      obtain rfl := Option.some.inj h
      exact .commit hjob
    · cases h
  | fail id =>
    simp only [step, Option.map_eq_some_iff] at h
    obtain ⟨job, hjob, rfl⟩ := h
    exact .fail hjob
  | lose =>
    simp only [step] at h
    split at h
    · next hleader =>
      obtain rfl := Option.some.inj h
      exact .loseEarly (.inl hleader)
    · next hleader =>
      obtain rfl := Option.some.inj h
      exact .loseEarly (.inr hleader)
    · next hleader =>
      simp only [Option.ite_none_right_eq_some, Option.map_eq_some_iff] at h
      obtain ⟨hopen, server, hserver, rfl⟩ := h
      exact .lose hleader hopen hserver
    · cases h
  | finish =>
    simp only [step, Option.ite_none_right_eq_some, Option.map_eq_some_iff] at h
    obtain ⟨⟨hleader, hrunning, hended⟩, server, hserver, rfl⟩ := h
    split
    · next hreturns =>
      rw [Bool.and_eq_true, Bool.not_eq_true'] at hreturns
      have hnext : s.next = f.names.length := by simpa [hreturns.1] using hended
      exact .finish hleader hrunning hnext hreturns.1 hreturns.2 hserver
    · next hraises =>
      apply Steps.finishFails hleader hrunning _ hserver
      rw [Bool.and_eq_true, Bool.not_eq_true', not_and_or, Bool.not_eq_false, Bool.not_eq_true,
        Option.isSome_eq_false_iff, Option.isNone_iff_eq_none] at hraises
      exact hraises

end Freeze

/-! ## Every report once -/

/-- The names whose tables are written, committed or not. -/
def Freezing.taken {σ ρ : Type} (s : Freezing σ ρ) : List String :=
  s.frozen.map Prod.fst ++ (s.running.filter Job.isWritten).map Job.name

namespace Freeze

variable {σ ρ : Type} (f : Freeze σ ρ) {s s' : Freezing σ ρ} {e : FreezeStep σ}

/-- Where the reports are once the snapshot is exported: each one that was handed out is frozen
or with its worker. -/
structure Accounted (s : Freezing σ ρ) : Prop where
  exported : s.leader ≠ .fresh ∧ s.leader ≠ .recreated
  bound : s.next ≤ f.names.length
  ids : (s.running.map Job.id).Nodup
  before : ∀ job ∈ s.running, job.id < s.next
  handed : s.failed = false →
    (s.frozen.map Prod.fst ++ s.running.map Job.name).Perm (f.names.take s.next)
  taken : s.taken.Nodup
  returned : s.leader = .returned →
    s.running = [] ∧ s.failed = false ∧ s.next = f.names.length

/-- A worker that raises takes its report away. -/
private theorem Accounted.drop (h : f.Accounted s) {id : ℕ} {job : Job ρ}
    (hjob : s.job? id = some job) : f.Accounted (s.drop id) := by
  have hsub : (s.drop id).running.Sublist s.running := List.eraseP_sublist
  refine ⟨h.exported, h.bound, h.ids.sublist (hsub.map _), fun other hother =>
    h.before other (hsub.subset hother), (nomatch ·), ?_, fun hreturned => ?_⟩
  · exact h.taken.sublist ((List.Sublist.refl _).append ((hsub.filter _).map _))
  · have hnone := (h.returned hreturned).1
    rw [Freezing.job?, hnone] at hjob
    cases hjob

/-- A next phase changes nobody's name. -/
private theorem Accounted.advance (h : f.Accounted s) {id : ℕ} {job : Job ρ}
    (hjob : s.job? id = some job) (phase : JobPhase ρ)
    (htaken : (s.advance id phase).taken.Nodup) : f.Accounted (s.advance id phase) := by
  obtain ⟨hid, before, after, hrunning, hadvance, -⟩ := Freezing.exists_split h.ids hjob
  have hids := h.ids
  have hbefore := h.before
  have hhanded := h.handed
  have hreturned := h.returned
  rw [hrunning] at hids hbefore hhanded hreturned
  refine ⟨h.exported, h.bound, ?_, ?_, fun hfailed => ?_, htaken, fun hleader => ?_⟩
  · rw [hadvance]
    simpa using hids
  · intro other hother
    rw [hadvance, List.mem_append, List.mem_cons] at hother
    rcases hother with hother | rfl | hother
    · exact hbefore other (List.mem_append_left _ hother)
    · exact hbefore job (List.mem_append_right _ (List.mem_cons_self ..))
    · exact hbefore other (List.mem_append_right _ (List.mem_cons_of_mem _ hother))
  · rw [hadvance]
    change (s.frozen.map Prod.fst ++ _).Perm (f.names.take s.next)
    simpa using hhanded hfailed
  · have hnone := (hreturned hleader).1
    simp at hnone

/-- A table takes a name when it is written. -/
private theorem Accounted.taken_advance (h : f.Accounted s) {id : ℕ} {job : Job ρ}
    (hjob : s.job? id = some job) (hunwritten : job.isWritten = false) (phase : JobPhase ρ) :
    (s.advance id phase).taken.Perm
      ((if Job.isWritten { job with phase := phase } then [job.name] else []) ++ s.taken) := by
  obtain ⟨-, before, after, hrunning, hadvance, -⟩ := Freezing.exists_split h.ids hjob
  rw [Freezing.taken, Freezing.taken, hadvance, hrunning]
  change (s.frozen.map Prod.fst ++ _).Perm _
  simp only [List.filter_append, List.filter_cons, hunwritten, List.map_append]
  split
  · rw [List.map_cons, List.singleton_append]
    exact (List.perm_middle.append_left _).trans (by simp)
  · simp

/-- A table that is written was taken by nobody. -/
private theorem nodup_taken_create (h : f.Accounted s) {id : ℕ} {name : String} {rows : ρ}
    (hjob : s.job? id = some ⟨id, name, .reading⟩) (hblocked : blocked s name = false)
    (hfree : name ∉ s.frozen.map Prod.fst) : (s.advance id (.written rows)).taken.Nodup := by
  have hnew : name ∉ s.taken := by
    rw [Freezing.taken, List.mem_append, not_or]
    refine ⟨hfree, fun hmem => ?_⟩
    obtain ⟨other, hother, hname⟩ := List.mem_map.mp hmem
    obtain ⟨hrun, hwritten⟩ := List.mem_filter.mp hother
    have hany := List.any_eq_false.mp hblocked other hrun
    simp [hname, hwritten] at hany
  rw [(h.taken_advance f hjob rfl (.written rows)).nodup_iff]
  exact List.nodup_cons.mpr ⟨hnew, h.taken⟩

/-- A table that is committed was written before. -/
private theorem Accounted.commit (h : f.Accounted s) {id : ℕ} {name : String} {rows : ρ}
    (hjob : s.job? id = some ⟨id, name, .written rows⟩) :
    f.Accounted { s.leave id with frozen := s.frozen ++ [(name, rows)] } := by
  obtain ⟨-, before, after, hrunning, -, hleave⟩ := Freezing.exists_split h.ids hjob
  have hsub : (s.leave id).running.Sublist s.running := List.eraseP_sublist
  refine ⟨h.exported, h.bound, h.ids.sublist (hsub.map _), fun other hother =>
    h.before other (hsub.subset hother), fun hfailed => ?_, ?_, fun hreturned => ?_⟩
  · have hhanded := h.handed hfailed
    rw [hrunning] at hhanded
    change ((s.frozen ++ _).map Prod.fst ++ (s.leave id).running.map Job.name).Perm _
    rw [hleave]
    refine List.Perm.trans ?_ hhanded
    simp only [List.map_append, List.map_cons, List.map_nil, List.append_assoc,
      List.singleton_append]
    exact List.perm_middle.symm.append_left _
  · have htaken := h.taken
    rw [Freezing.taken, hrunning] at htaken
    change ((s.frozen ++ _).map Prod.fst ++
      ((s.leave id).running.filter Job.isWritten).map Job.name).Nodup
    rw [hleave]
    refine (List.Perm.nodup_iff ?_).mp htaken
    simp only [List.filter_append, List.filter_cons, Job.isWritten, if_true, List.map_append,
      List.map_cons, List.map_nil, List.append_assoc]
    exact List.perm_middle.append_left _
  · have hnone := (h.returned hreturned).1
    rw [Freezing.job?, hnone] at hjob
    cases hjob

/-- The next report is handed out. -/
private theorem Accounted.connect (h : f.Accounted s) {name : String}
    (hleader : s.leader = .pooling) (hname : f.names[s.next]? = some name) :
    f.Accounted { s with next := s.next + 1
                         running := s.running ++ [⟨s.next, name, .connected⟩] } := by
  refine ⟨h.exported, ?_, ?_, fun job hjob => ?_, fun hfailed => ?_, ?_, fun hreturned => ?_⟩
  · exact (List.getElem?_eq_some_iff.mp hname).1
  · rw [List.map_append, List.nodup_append]
    refine ⟨h.ids, List.nodup_singleton _, fun id hid next hnext heq => ?_⟩
    obtain ⟨job, hjob, rfl⟩ := List.mem_map.mp hid
    have hlt := h.before job hjob
    simp only [List.map_cons, List.map_nil, List.mem_singleton] at hnext
    omega
  · rcases List.mem_append.mp hjob with hjob | hjob
    · exact (h.before job hjob).trans (Nat.lt_succ_self _)
    · rw [List.mem_singleton.mp hjob]
      exact Nat.lt_succ_self _
  · have hhanded := (h.handed hfailed).append_right [name]
    rw [List.take_add_one, hname]
    simpa using hhanded
  · have htaken := h.taken
    rw [Freezing.taken] at htaken ⊢
    simpa [Job.isWritten] using htaken
  · rw [hleader] at hreturned
    cases hreturned

theorem Accounted.step (h : f.Accounted s) (hstep : f.step s e = some s') :
    f.Accounted s' := by
  cases f.steps_of_step hstep with
  | write new => exact ⟨h.exported, h.bound, h.ids, h.before, h.handed, h.taken, h.returned⟩
  | recreate hleader => exact absurd hleader h.exported.1
  | exportSnapshot hleader => exact absurd hleader h.exported.2
  | connect hleader hname => exact h.connect f hleader hname
  | @importSnapshot id name server hjob hserver =>
    have hsame : f.Accounted { s with server := server } :=
      ⟨h.exported, h.bound, h.ids, h.before, h.handed, h.taken, h.returned⟩
    apply hsame.advance f hjob
    exact (hsame.taken_advance f hjob rfl .reading).nodup_iff.mpr h.taken
  | importFails hjob hnone => exact h.drop f hjob
  | create hjob hreads hblocked hfree hrows =>
    exact h.advance f hjob _ (f.nodup_taken_create h hjob hblocked hfree)
  | createFails hjob hreads hfails => exact h.drop f hjob
  | commit hjob => exact h.commit f hjob
  | fail hjob => exact h.drop f hjob
  | loseEarly hleader => exact absurd hleader (not_or.mpr h.exported)
  | lose hleader hopen hserver =>
    exact ⟨h.exported, h.bound, h.ids, h.before, h.handed, h.taken, h.returned⟩
  | finish hleader hrunning hnext hfailed hopen hserver =>
    exact ⟨⟨nofun, nofun⟩, h.bound, h.ids, h.before, h.handed, h.taken, fun _ => ⟨hrunning, hfailed, hnext⟩⟩
  | finishFails hleader hrunning hfails hserver =>
    exact ⟨⟨nofun, nofun⟩, h.bound, h.ids, h.before, h.handed, h.taken, (nomatch ·)⟩

/-! ## One snapshot -/

/-- What is read and written once the version `v` is exported. -/
structure InSnapshot (v : σ) (s : Freezing σ ρ) : Prop where
  reads : AllRead v s.server
  frozen : ∀ entry ∈ s.frozen, f.report entry.1 v = some entry.2
  written : ∀ job ∈ s.running, ∀ rows, job.phase = .written rows →
    f.report job.name v = some rows

variable {v : σ}

private theorem allRead_leave (h : AllRead v s.server) (id : ℕ) :
    AllRead v (s.leave id).server :=
  h.step (e := .close (.worker id)) (fun _ => nofun) rfl

private theorem InSnapshot.leave (h : f.InSnapshot v s) (id : ℕ) :
    f.InSnapshot v (s.leave id) := by
  have hsub : (s.leave id).running ⊆ s.running := List.eraseP_subset
  exact ⟨allRead_leave h.reads id, h.frozen, fun job hjob => h.written job (hsub hjob)⟩

private theorem InSnapshot.drop (h : f.InSnapshot v s) (id : ℕ) :
    f.InSnapshot v (s.drop id) :=
  ⟨(h.leave f id).reads, h.frozen, (h.leave f id).written⟩

private theorem InSnapshot.advance (h : f.InSnapshot v s) {id : ℕ} {job : Job ρ}
    (hids : (s.running.map Job.id).Nodup) (hjob : s.job? id = some job) {phase : JobPhase ρ}
    (hphase : ∀ rows, phase = .written rows → f.report job.name v = some rows) :
    f.InSnapshot v (s.advance id phase) := by
  obtain ⟨-, before, after, hrunning, hadvance, -⟩ := Freezing.exists_split hids hjob
  refine ⟨h.reads, h.frozen, fun other hother => ?_⟩
  rw [hadvance, List.mem_append, List.mem_cons] at hother
  rcases hother with hother | rfl | hother
  · exact h.written other (hrunning ▸ List.mem_append_left _ hother)
  · exact hphase
  · exact h.written other (hrunning ▸ List.mem_append_right _ (List.mem_cons_of_mem _ hother))

theorem InSnapshot.step (h : f.InSnapshot v s) (haccounted : f.Accounted s)
    (hstep : f.step s e = some s') : f.InSnapshot v s' := by
  cases f.steps_of_step hstep with
  | write new => exact ⟨h.reads.step (e := .commit new) (fun _ => nofun) rfl, h.frozen, h.written⟩
  | recreate hleader => exact absurd hleader haccounted.exported.1
  | exportSnapshot hleader => exact absurd hleader haccounted.exported.2
  | connect hleader hname =>
    refine ⟨h.reads, h.frozen, fun job hjob rows hphase => ?_⟩
    rcases List.mem_append.mp hjob with hjob | hjob
    · exact h.written job hjob rows hphase
    · rw [List.mem_singleton.mp hjob] at hphase
      cases hphase
  | @importSnapshot id name server hjob hserver =>
    have hsame : f.InSnapshot v { s with server := server } :=
      ⟨h.reads.step (e := .share .leader (.worker id)) (fun _ => nofun) hserver, h.frozen,
        h.written⟩
    exact hsame.advance f haccounted.ids hjob fun _ => nofun
  | importFails hjob hnone => exact h.drop f _
  | create hjob hreads hblocked hfree hrows =>
    -- the worker reads the version that was exported
    apply h.advance f haccounted.ids hjob
    rintro rows ⟨⟩
    rwa [← h.reads _ _ hreads]
  | createFails hjob hreads hfails => exact h.drop f _
  | commit hjob =>
    have hleave := h.leave f
    refine ⟨(hleave _).reads, fun entry hentry => ?_, (hleave _).written⟩
    rcases List.mem_append.mp hentry with hentry | hentry
    · exact h.frozen entry hentry
    · rw [List.mem_singleton.mp hentry]
      exact h.written _ (Freezing.mem_of_job? hjob).1 _ rfl
  | fail hjob => exact h.drop f _
  | loseEarly hleader => exact absurd hleader (not_or.mpr haccounted.exported)
  | lose hleader hopen hserver =>
    exact ⟨h.reads.step (e := .close .leader) (fun _ => nofun) hserver, h.frozen, h.written⟩
  | finish hleader hrunning hnext hfailed hopen hserver =>
    exact ⟨h.reads.step (e := .close .leader) (fun _ => nofun) hserver, h.frozen, h.written⟩
  | finishFails hleader hrunning hfails hserver =>
    exact ⟨h.reads.step (e := .close .leader) (fun _ => nofun) hserver, h.frozen, h.written⟩

/-! ## Before the export -/

/-- Before its snapshot is exported, a freeze has handed out nothing and reads nothing. -/
structure Waiting (s : Freezing σ ρ) : Prop where
  leader : s.leader = .fresh ∨ (s.leader = .recreated ∧ s.frozen = []) ∨ s.leader = .raised
  running : s.running = []
  next : s.next = 0
  failed : s.failed = false
  closed : ∀ k, s.server.reads k = none

private theorem Waiting.no_job (h : Waiting s) (id : ℕ) : s.job? id = none := by
  rw [Freezing.job?, h.running]
  rfl

/-- The snapshot `v` was exported just now. -/
structure Started (v : σ) (s : Freezing σ ρ) : Prop where
  leader : s.leader = .pooling
  opened : s.server.reads .leader = some v
  reads : AllRead v s.server
  frozen : s.frozen = []
  running : s.running = []
  next : s.next = 0
  failed : s.failed = false

theorem Started.accounted (h : Started v s) : f.Accounted s := by
  refine ⟨by simp [h.leader], ?_, ?_, ?_, fun _ => ?_, ?_, ?_⟩
  all_goals simp [h.running, h.next, h.frozen, h.leader, Freezing.taken]

theorem Started.inSnapshot (h : Started v s) : f.InSnapshot v s :=
  ⟨h.reads, by simp [h.frozen], by simp [h.running]⟩

/-- A step of a freeze that waits: it goes on waiting, or exports what is committed. -/
theorem Waiting.step (h : Waiting s) (hstep : f.step s e = some s') :
    (e ≠ .exportSnapshot ∧ Waiting s' ∧
      (s'.leader = .raised → s.leader = .raised ∨ e.isLoss = true) ∧
      s'.server.current = match e with
        | .write new => new
        | _ => s.server.current) ∨
    (e = .exportSnapshot ∧ Started s.server.current s') := by
  have hidle : ∀ {id : ℕ} {job : Job ρ}, s.job? id ≠ some job := by
    intro id job
    rw [h.no_job id]
    exact nofun
  have hleader : s.leader ≠ .pooling := by
    rcases h.leader with hleader | ⟨hleader, -⟩ | hleader <;> rw [hleader] <;> exact nofun
  cases f.steps_of_step hstep with
  | write new =>
    exact .inl ⟨nofun, ⟨h.leader, h.running, h.next, h.failed, h.closed⟩, .inl, rfl⟩
  | recreate _ =>
    exact .inl ⟨nofun, ⟨.inr (.inl ⟨rfl, rfl⟩), h.running, h.next, h.failed, h.closed⟩, nofun, rfl⟩
  | exportSnapshot hrecreated hserver =>
    have hempty : s.frozen = [] := by
      rcases h.leader with hleader | ⟨-, hempty⟩ | hleader
      · rw [hrecreated] at hleader
        cases hleader
      · exact hempty
      · rw [hrecreated] at hleader
        cases hleader
    exact .inr ⟨rfl, rfl, Server.reads_of_start hserver, allRead_start h.closed hserver, hempty,
      h.running, h.next, h.failed⟩
  | connect hpooling _ => exact absurd hpooling hleader
  | importSnapshot hjob _ | importFails hjob _ | create hjob _ | createFails hjob _
  | commit hjob | fail hjob => exact absurd hjob hidle
  | loseEarly _ =>
    exact .inl ⟨nofun, ⟨.inr (.inr rfl), h.running, h.next, h.failed, h.closed⟩,
      fun _ => .inr rfl, rfl⟩
  | lose hpooling _ _ | finish hpooling _ _ _ _ _ | finishFails hpooling _ _ _ =>
    exact absurd hpooling hleader

/-- A freeze before its first step. -/
def Begins (s : Freezing σ ρ) : Prop :=
  s.leader = .fresh ∧ Waiting s

/-- **The two parts of a run**: it waits, and then has exported what was committed. -/
theorem waiting_or_started {es : List (FreezeStep σ)} (hrun : f.Runs s es s')
    (h : Waiting s) :
    (exportedAt s.server.current es = none ∧ Waiting s' ∧
      (s'.leader = .raised → s.leader = .raised ∨ ∃ e ∈ es, e.isLoss = true)) ∨
      ∃ v s₁ before after, es = before ++ .exportSnapshot :: after ∧
        exportedAt s.server.current es = some v ∧ Started v s₁ ∧ f.Runs s₁ after s' := by
  induction hrun with
  | nil s => exact .inl ⟨rfl, h, .inl⟩
  | @cons s s₁ s' e es _ hstep hrest ih =>
    rcases h.step f hstep with ⟨hne, hwaiting, hraised, hcurrent⟩ | ⟨rfl, hstarted⟩
    · have hexported : exportedAt s.server.current (e :: es) =
          exportedAt s₁.server.current es := by
        rw [hcurrent]
        cases e <;> first | rfl | exact absurd rfl hne
      rw [hexported]
      rcases ih hwaiting with ⟨hnone, hwaits, hloses⟩ |
        ⟨v, s₂, before, after, rfl, hv, hstarted, hafter⟩
      · refine .inl ⟨hnone, hwaits, fun hleader => ?_⟩
        rcases hloses hleader with hleader | ⟨e', he', hloss⟩
        · exact (hraised hleader).imp_right fun hloss => ⟨e, List.mem_cons_self .., hloss⟩
        · exact .inr ⟨e', List.mem_cons_of_mem _ he', hloss⟩
      · exact .inr ⟨v, s₂, e :: before, after, rfl, hv, hstarted, hafter⟩
    · exact .inr ⟨s.server.current, s₁, [], es, rfl, rfl, hstarted, hrest⟩

/-- What holds from the export on. -/
theorem Started.run {es : List (FreezeStep σ)} (h : Started v s) (hrun : f.Runs s es s') :
    f.Accounted s' ∧ f.InSnapshot v s' :=
  hrun.invariant (I := fun s' => f.Accounted s' ∧ f.InSnapshot v s')
    ⟨h.accounted f, h.inSnapshot f⟩
    fun _ _ _ h _ hstep => ⟨h.1.step f hstep, h.2.step f h.1 hstep⟩

/-- **What is frozen is the reports of one version of the database**, that of the export. -/
theorem freeze_one_snapshot {es : List (FreezeStep σ)} (hbegins : Begins s)
    (hrun : f.Runs s es s') :
    (∀ v ∈ exportedAt s.server.current es, (s'.frozen.map Prod.fst).Nodup ∧
      ∀ entry ∈ s'.frozen, f.report entry.1 v = some entry.2) ∧
    (s'.leader = .returned → ∃ v ∈ exportedAt s.server.current es,
      (s'.frozen.map Prod.fst).Perm f.names ∧
      ∀ entry ∈ s'.frozen, f.report entry.1 v = some entry.2) := by
  rcases f.waiting_or_started hrun hbegins.2 with
    ⟨hnone, hwaiting, -⟩ | ⟨v, s₁, before, after, -, hv, hstarted, hafter⟩
  · rw [hnone]
    refine ⟨nofun, fun hreturned => ?_⟩
    rcases hwaiting.leader with hleader | ⟨hleader, -⟩ | hleader <;> rw [hreturned] at hleader <;>
      cases hleader
  · obtain ⟨haccounted, hin⟩ := hstarted.run f hafter
    refine ⟨fun w hw => ?_, fun hreturned => ⟨v, hv, ?_, hin.frozen⟩⟩
    · rw [hv] at hw
      obtain rfl := Option.some.inj hw
      exact ⟨haccounted.taken.of_append_left, hin.frozen⟩
    · obtain ⟨hrunning, hfailed, hnext⟩ := haccounted.returned hreturned
      have hhanded := haccounted.handed hfailed
      rwa [hrunning, hnext, List.take_length, List.map_nil, List.append_nil] at hhanded

/-- A configuration of two reports, with two workers. -/
def twoReports : Freeze (ℕ × ℕ) ℕ :=
  ParallelRun.freeze
    { tables := []
      reports := ["orders", "refunds"].map fun name =>
        { name := name, source := name, target := name, key := ["day"], keyed := by decide } } 2
    fun name v => if name = "orders" then some v.1 else if name = "refunds" then some v.2 else none

/-- The tables of last night are there. -/
def lastNight : Freezing (ℕ × ℕ) ℕ where
  server := { current := (1, 1) }
  frozen := [("orders", 9)]

theorem begins_lastNight : Begins lastNight :=
  ⟨rfl, .inl rfl, rfl, rfl, rfl, fun _ => rfl⟩

/-- The application writes between the two workers' reads. -/
def interleaved : List (FreezeStep (ℕ × ℕ)) :=
  [.recreate, .exportSnapshot, .connect, .importSnapshot 0, .create 0, .write (2, 2), .connect,
    .importSnapshot 1, .commit 0, .create 1, .commit 1, .finish]

theorem freeze_one_snapshot_two_reports : ∃ s', twoReports.Runs lastNight interleaved s' ∧
    s'.frozen = [("orders", 1), ("refunds", 1)] ∧
    (s'.frozen.map Prod.fst).Perm twoReports.names := by
  obtain ⟨s', hrun, hfrozen, hreturned⟩ : ∃ s',
      twoReports.Runs lastNight interleaved s' ∧
      s'.frozen = [("orders", 1), ("refunds", 1)] ∧ s'.leader = .returned :=
    ⟨_, .of_check rfl, rfl, rfl⟩
  obtain ⟨v, -, hnames, -⟩ := (twoReports.freeze_one_snapshot begins_lastNight hrun).2 hreturned
  exact ⟨s', hrun, hfrozen, hnames⟩

end Freeze

end PlatformOps.Reconcile
