import PlatformOps.Reconcile.Freezing

/-!
# A Freeze Ends

- `exists_step`: a freeze is never stuck, however its workers and the application take turns.
- `freeze_ends`: it ends after a bounded number of its own steps, and fails only for a lost
  connection, a report named twice or one that does not exist.
-/

namespace PlatformOps.Reconcile

open Machine Snapshots

/-- A step of the freeze, not of the application. -/
def FreezeStep.isOwn {σ : Type} : FreezeStep σ → Bool
  | .write _ => false
  | _ => true

/-- How many steps a worker has left. -/
def JobPhase.remaining {ρ : Type} : JobPhase ρ → ℕ
  | .connected => 3
  | .reading => 2
  | .written _ => 1

/-- How many steps the leader has left, its transaction open or not. -/
def LeaderPhase.remaining (isOpen : Bool) : LeaderPhase → ℕ
  | .fresh => 4
  | .recreated => 3
  | .pooling => if isOpen then 2 else 1
  | .returned | .raised => 0

namespace Freeze

variable {σ ρ : Type} (f : Freeze σ ρ) {s s' : Freezing σ ρ} {e : FreezeStep σ} {v : σ}

/-! ## No freeze is stuck -/

/-- A worker past its first phase has its transaction open. -/
def Opened (s : Freezing σ ρ) : Prop :=
  ∀ job ∈ s.running, job.phase ≠ .connected → (s.server.reads (.worker job.id)).isSome

private theorem Opened.of_reads (h : Opened s) (hrunning : s'.running ⊆ s.running)
    (hreads : ∀ job ∈ s'.running, s'.server.reads (.worker job.id) =
      s.server.reads (.worker job.id)) : Opened s' := by
  intro job hjob hphase
  rw [hreads job hjob]
  exact h job (hrunning hjob) hphase

private theorem Opened.leave (h : Opened s) (hids : (s.running.map Job.id).Nodup) {id : ℕ}
    {job : Job ρ} (hjob : s.job? id = some job) : Opened (s.leave id) := by
  apply h.of_reads List.eraseP_subset
  intro other hother
  obtain ⟨hid, before, after, hrunning, -, hleave⟩ := Freezing.exists_split hids hjob
  apply Function.update_of_ne
  rintro ⟨⟩
  rw [hrunning, List.map_append, List.map_cons, List.nodup_append, List.nodup_cons] at hids
  rw [hleave, List.mem_append] at hother
  rcases hother with hother | hother
  · exact hids.2.2 _ (List.mem_map_of_mem hother) _ (List.mem_cons_self ..) hid.symm
  · exact hids.2.1.1 (hid ▸ List.mem_map_of_mem hother)

private theorem Opened.advance (h : Opened s) (hids : (s.running.map Job.id).Nodup) {id : ℕ}
    {job : Job ρ} (hjob : s.job? id = some job) {phase : JobPhase ρ}
    (hopen : (s.server.reads (.worker id)).isSome) : Opened (s.advance id phase) := by
  obtain ⟨hid, before, after, hrunning, hadvance, -⟩ := Freezing.exists_split hids hjob
  intro other hother hphase
  rw [hadvance, List.mem_append, List.mem_cons] at hother
  rcases hother with hother | rfl | hother
  · exact h other (hrunning ▸ List.mem_append_left _ hother) hphase
  · exact hid ▸ hopen
  · exact h other (hrunning ▸ List.mem_append_right _ (List.mem_cons_of_mem _ hother)) hphase

theorem Opened.step (h : Opened s) (haccounted : f.Accounted s)
    (hstep : f.step s e = some s') : Opened s' := by
  cases f.steps_of_step hstep with
  | write new => exact h
  | recreate hleader => exact absurd hleader haccounted.exported.1
  | exportSnapshot hleader => exact absurd hleader haccounted.exported.2
  | connect hleader hname =>
    intro job hjob hphase
    rcases List.mem_append.mp hjob with hjob | hjob
    · exact h job hjob hphase
    · rw [List.mem_singleton.mp hjob] at hphase
      exact absurd rfl hphase
  | @importSnapshot id name server hjob hserver =>
    have hopened : Opened { s with server := server } := by
      intro other hother hphase
      obtain ⟨hleader, rfl⟩ := Server.step_share.mp hserver
      by_cases hid : other.id = id
      · rw [hid]
        simpa using hleader
      · have hne : Connection.worker other.id ≠ .worker id := fun heq => hid (Connection.worker.inj heq)
        simpa [Function.update_of_ne hne] using h other hother hphase
    apply hopened.advance haccounted.ids hjob
    change (server.reads (.worker id)).isSome
    rw [Server.reads_of_share hserver]
    exact (Server.step_share.mp hserver).1
  | importFails hjob hnone => exact h.leave haccounted.ids hjob
  | create hjob hreads hblocked hfree hrows =>
    exact h.advance haccounted.ids hjob (by rw [hreads]; rfl)
  | createFails hjob hreads hfails => exact h.leave haccounted.ids hjob
  | commit hjob => exact h.leave haccounted.ids hjob
  | fail hjob => exact h.leave haccounted.ids hjob
  | loseEarly hleader => exact absurd hleader (not_or.mpr haccounted.exported)
  | lose hleader hopen hserver =>
    exact h.of_reads (fun _ => id) fun _ _ => Server.reads_step hserver (by simp [Server.subject])
  | finish hleader hrunning hnext hfailed hopen hserver =>
    exact h.of_reads (fun _ => id) fun _ _ => Server.reads_step hserver (by simp [Server.subject])
  | finishFails hleader hrunning hfails hserver =>
    exact h.of_reads (fun _ => id) fun _ _ => Server.reads_step hserver (by simp [Server.subject])

/-- **A freeze that has not ended goes on**, with no connection lost. -/
theorem exists_step (h : Waiting s ∨ f.Accounted s ∧ Opened s) (hreturned : s.leader ≠ .returned)
    (hraised : s.leader ≠ .raised) :
    ∃ e : FreezeStep σ, e.isOwn ∧ e.isLoss = false ∧ (f.step s e).isSome := by
  rcases h with h | ⟨haccounted, hopened⟩
  · rcases h.leader with hleader | ⟨hleader, -⟩ | hleader
    · exact ⟨.recreate, rfl, rfl, by simp [step, hleader]⟩
    · exact ⟨.exportSnapshot, rfl, rfl, by simp [step, hleader, Server.step]⟩
    · exact absurd hleader hraised
  have hleader : s.leader = .pooling := by
    have hexported := haccounted.exported
    cases hleader : s.leader <;> simp_all
  have hfirst : ∀ {job : Job ρ}, job ∈ s.running → s.job? job.id = some job := by
    intro job hjob
    cases hfind : s.job? job.id with
    | none => exact absurd (decide_eq_true rfl) (List.find?_eq_none.mp hfind job hjob)
    | some found =>
      obtain ⟨hmem, hid⟩ := Freezing.mem_of_job? hfind
      rw [List.inj_on_of_nodup_map haccounted.ids hmem hjob hid]
  by_cases hwritten : ∃ job ∈ s.running, job.isWritten = true
  · -- a table that is written can be committed
    obtain ⟨⟨id, name, phase⟩, hjob, hphase⟩ := hwritten
    cases phase with
    | written rows => exact ⟨.commit id, rfl, rfl, by simp [step, hfirst hjob]⟩
    | _ => cases hphase
  · have hfree : ∀ name, blocked s name = false := by
      intro name
      rw [blocked, List.any_eq_false]
      intro job hjob hboth
      rw [Bool.and_eq_true] at hboth
      exact hwritten ⟨job, hjob, hboth.2⟩
    cases hrunning : s.running with
    | nil =>
      by_cases hdone : s.next = f.names.length ∨ s.failed = true
      · exact ⟨.finish, rfl, rfl, by simp [step, hleader, hrunning, hdone, Server.step]⟩
      · -- the pool has a worker for the next report
        rw [not_or] at hdone
        have hlt : s.next < f.names.length := lt_of_le_of_ne haccounted.bound hdone.1
        exact ⟨.connect, rfl, rfl, by simp [step, hleader, hrunning, hlt]⟩
    | cons job rest =>
      have hjob : job ∈ s.running := hrunning ▸ List.mem_cons_self ..
      obtain ⟨id, name, phase⟩ := job
      cases phase with
      | connected =>
        refine ⟨.importSnapshot id, rfl, rfl, ?_⟩
        simp only [step, hfirst hjob]
        split <;> rfl
      | reading =>
        refine ⟨.create id, rfl, rfl, ?_⟩
        obtain ⟨v, hv⟩ := Option.isSome_iff_exists.mp (hopened _ hjob (by simp))
        simp only [step, hfirst hjob, hv, Option.bind_some, createIn, hfree]
        split
        · cases ‹_›
        · split
          · rfl
          · split <;> rfl
      | written rows => exact absurd ⟨_, hjob, rfl⟩ hwritten

/-! ## A freeze ends -/

/-- How many steps of its own a freeze has left, at most. -/
def remaining (s : Freezing σ ρ) : ℕ :=
  4 * (f.names.length - s.next) + (s.running.map fun job => job.phase.remaining).sum +
    s.leader.remaining (s.server.reads .leader).isSome

private theorem remaining_leave (hids : (s.running.map Job.id).Nodup) {id : ℕ} {job : Job ρ}
    (hjob : s.job? id = some job) : f.remaining (s.leave id) + 1 ≤ f.remaining s := by
  obtain ⟨-, before, after, hrunning, -, hleave⟩ := Freezing.exists_split hids hjob
  have hpos : 1 ≤ job.phase.remaining := by
    cases job.phase <;> simp [JobPhase.remaining]
  have hleader : (s.leave id).leader.remaining ((s.leave id).server.reads .leader).isSome =
      s.leader.remaining (s.server.reads .leader).isSome := rfl
  rw [remaining, remaining, hleader, hleave, hrunning]
  change 4 * (f.names.length - s.next) + _ + _ + 1 ≤ _
  simp only [List.map_append, List.map_cons, List.sum_append, List.sum_cons]
  omega

private theorem remaining_advance (hids : (s.running.map Job.id).Nodup) {id : ℕ} {job : Job ρ}
    (hjob : s.job? id = some job) {phase : JobPhase ρ}
    (hphase : phase.remaining + 1 = job.phase.remaining) :
    f.remaining (s.advance id phase) + 1 = f.remaining s := by
  obtain ⟨-, before, after, hrunning, hadvance, -⟩ := Freezing.exists_split hids hjob
  have hleader : (s.advance id phase).leader.remaining
      ((s.advance id phase).server.reads .leader).isSome =
        s.leader.remaining (s.server.reads .leader).isSome := rfl
  rw [remaining, remaining, hleader, hadvance, hrunning]
  change 4 * (f.names.length - s.next) + _ + _ + 1 = _
  simp only [List.map_append, List.map_cons, List.sum_append, List.sum_cons]
  omega

theorem remaining_step (hids : (s.running.map Job.id).Nodup) (hstep : f.step s e = some s') :
    f.remaining s' + (if e.isOwn then 1 else 0) ≤ f.remaining s := by
  cases f.steps_of_step hstep with
  | write new => exact le_rfl
  | recreate hleader =>
    simp [remaining, hleader, LeaderPhase.remaining, FreezeStep.isOwn]
  | exportSnapshot hleader hserver =>
    simp [remaining, hleader, LeaderPhase.remaining, FreezeStep.isOwn,
      Server.reads_of_start hserver]
  | connect hleader hname =>
    have hlt := (List.getElem?_eq_some_iff.mp hname).1
    simp only [remaining, List.map_append, List.map_cons, List.map_nil, List.sum_append,
      List.sum_cons, List.sum_nil, JobPhase.remaining, FreezeStep.isOwn, if_true]
    omega
  | @importSnapshot id name server hjob hserver =>
    have hsame : f.remaining { s with server := server } = f.remaining s := by
      have hreads : server.reads .leader = s.server.reads .leader :=
        Server.reads_step hserver (by simp [Server.subject])
      rw [remaining, remaining, hreads]
    have hadvance := @remaining_advance _ _ f { s with server := server } hids id _ hjob .reading rfl
    rw [hsame] at hadvance
    exact hadvance.le
  | importFails hjob hnone => exact f.remaining_leave hids hjob
  | create hjob hreads hblocked hfree hrows => exact (f.remaining_advance hids hjob rfl).le
  | createFails hjob hreads hfails => exact f.remaining_leave hids hjob
  | commit hjob => exact f.remaining_leave hids hjob
  | fail hjob => exact f.remaining_leave hids hjob
  | loseEarly hleader =>
    rcases hleader with hleader | hleader <;>
      simp [remaining, hleader, LeaderPhase.remaining, FreezeStep.isOwn]
  | lose hleader hopen hserver =>
    simp [remaining, hleader, LeaderPhase.remaining, FreezeStep.isOwn, hopen,
      Server.reads_of_close hserver]
  | finish hleader hrunning hnext hfailed hopen hserver =>
    simp [remaining, hleader, LeaderPhase.remaining, FreezeStep.isOwn, hopen]
  | finishFails hleader hrunning hfails hserver =>
    simp only [remaining, hleader, LeaderPhase.remaining, FreezeStep.isOwn, if_true]
    split <;> omega

/-- Before the export and after it. -/
theorem waiting_or_accounted {es : List (FreezeStep σ)} (hrun : f.Runs s es s')
    (h : Waiting s) : Waiting s' ∨ f.Accounted s' ∧ Opened s' := by
  rcases f.waiting_or_started hrun h with
    ⟨-, hwaiting, -⟩ | ⟨v, s₁, before, after, -, -, hstarted, hafter⟩
  · exact .inl hwaiting
  · refine .inr (hafter.invariant (I := fun s' => f.Accounted s' ∧ Opened s')
      ⟨hstarted.accounted f, ?_⟩
      fun _ _ _ h _ hstep => ⟨h.1.step f hstep, h.2.step f h.1 hstep⟩)
    intro job hjob
    rw [hstarted.running] at hjob
    cases hjob

theorem remaining_run {es : List (FreezeStep σ)} (hrun : f.Runs s es s') (h : Waiting s) :
    es.countP FreezeStep.isOwn + f.remaining s' ≤ f.remaining s := by
  have hall : Waiting s ∨ f.Accounted s := .inl h
  clear h
  induction hrun with
  | nil s => simp
  | @cons s s₁ s' e es _ hstep hrest ih =>
    have hids : (s.running.map Job.id).Nodup := by
      rcases hall with h | h
      · simp [h.running]
      · exact h.ids
    have hnext : Waiting s₁ ∨ f.Accounted s₁ := by
      rcases hall with h | h
      · rcases h.step f hstep with ⟨-, hwaiting, -, -⟩ | ⟨-, hstarted⟩
        · exact .inl hwaiting
        · exact .inr (hstarted.accounted f)
      · exact .inr (h.step f hstep)
    have hfirst := f.remaining_step hids hstep
    have hrest := ih hnext
    rw [List.countP_cons]
    omega

/-- A freeze with no connection lost: nothing fails, and the snapshot is still there. -/
private structure Unbroken (v : σ) (s : Freezing σ ρ) : Prop where
  failed : s.failed = false
  opened : s.leader = .pooling → s.server.reads .leader = some v
  raised : s.leader ≠ .raised

private theorem Unbroken.step (hnames : f.names.Nodup)
    (hreports : ∀ name ∈ f.names, (f.report name v).isSome) (h : Unbroken v s)
    (haccounted : f.Accounted s) (hin : f.InSnapshot v s) (hloss : e.isLoss = false)
    (hstep : f.step s e = some s') : Unbroken v s' := by
  have hleader : ∀ {id : ℕ} {job : Job ρ}, s.job? id = some job → s.leader = .pooling := by
    intro id job hjob
    have hexported := haccounted.exported
    cases hleader : s.leader with
    | returned =>
      rw [Freezing.job?, (haccounted.returned hleader).1] at hjob
      cases hjob
    | raised => exact absurd hleader h.raised
    | _ => simp_all
  cases f.steps_of_step hstep with
  | write new => exact ⟨h.failed, h.opened, h.raised⟩
  | recreate hfresh => exact absurd hfresh haccounted.exported.1
  | exportSnapshot hrecreated => exact absurd hrecreated haccounted.exported.2
  | connect _ _ => exact ⟨h.failed, h.opened, h.raised⟩
  | @importSnapshot id name server hjob hserver =>
    have hreads : server.reads .leader = s.server.reads .leader :=
      Server.reads_step hserver (by simp [Server.subject])
    exact ⟨h.failed, fun hpooling => hreads.trans (h.opened hpooling), h.raised⟩
  | importFails hjob hnone =>
    -- the leader waits for its workers
    rw [h.opened (hleader hjob)] at hnone
    cases hnone
  | create hjob _ _ _ _ => exact ⟨h.failed, h.opened, h.raised⟩
  | @createFails id name w hjob hreads hfails =>
    have hrunning := (Freezing.mem_of_job? hjob).1
    have hhanded := haccounted.handed h.failed
    have hmem : name ∈ f.names.take s.next := by
      apply hhanded.subset
      exact List.mem_append_right _ (List.mem_map_of_mem (f := Job.name) hrunning)
    rcases hfails with htaken | hnone
    · have hnodup := hhanded.nodup_iff.mpr (hnames.sublist (List.take_sublist ..))
      rw [List.nodup_append] at hnodup
      exact absurd rfl (hnodup.2.2 name htaken name (List.mem_map_of_mem (f := Job.name) hrunning))
    · rw [hin.reads _ _ hreads] at hnone
      have hsome := hreports name (List.mem_of_mem_take hmem)
      rw [hnone] at hsome
      cases hsome
  | commit hjob => exact ⟨h.failed, h.opened, h.raised⟩
  | fail hjob => cases hloss
  | loseEarly _ => cases hloss
  | lose _ _ _ => cases hloss
  | finish _ _ _ _ _ _ => exact ⟨h.failed, by simp, by simp⟩
  | finishFails hpooling _ hfails _ =>
    rcases hfails with hfails | hfails
    · rw [h.failed] at hfails
      cases hfails
    · rw [h.opened hpooling] at hfails
      cases hfails

/-- **A freeze ends, and returns unless something is wrong.** It is never stuck, it takes at most
four steps of its own for each report and four more, and without a lost connection it returns
exactly if each report exists and is named once. -/
theorem freeze_ends {es : List (FreezeStep σ)} (hbegins : Begins s) (hrun : f.Runs s es s') :
    es.countP FreezeStep.isOwn ≤ 4 * f.names.length + 4 ∧
    (s'.leader ≠ .returned → s'.leader ≠ .raised →
      ∃ e : FreezeStep σ, e.isOwn ∧ e.isLoss = false ∧ (f.step s' e).isSome) ∧
    ((∀ e ∈ es, e.isLoss = false) → s'.leader = .returned ∨ s'.leader = .raised →
      ∃ v ∈ exportedAt s.server.current es, s'.leader = .returned ↔
        f.names.Nodup ∧ ∀ name ∈ f.names, (f.report name v).isSome) := by
  refine ⟨?_, f.exists_step (f.waiting_or_accounted hrun hbegins.2), fun hlosses hended => ?_⟩
  · have hrun := f.remaining_run hrun hbegins.2
    have hstart : f.remaining s = 4 * f.names.length + 4 := by
      simp [remaining, hbegins.1, hbegins.2.next, hbegins.2.running, LeaderPhase.remaining]
    omega
  rcases f.waiting_or_started hrun hbegins.2 with
    ⟨-, hwaiting, hraised⟩ | ⟨v, s₁, before, after, rfl, hv, hstarted, hafter⟩
  · -- before the export only a lost connection ends it
    exfalso
    have hleader : s'.leader = .raised := by
      rcases hwaiting.leader with hleader | ⟨hleader, -⟩ | hleader
      · simp [hleader] at hended
      · simp [hleader] at hended
      · exact hleader
    rcases hraised hleader with hleader | ⟨e, he, hloss⟩
    · rw [hbegins.1] at hleader
      cases hleader
    · rw [hlosses e he] at hloss
      cases hloss
  · refine ⟨v, hv, ?_⟩
    obtain ⟨haccounted, hin⟩ := hstarted.run f hafter
    constructor
    · intro hreturned
      obtain ⟨hrunning, hfailed, hnext⟩ := haccounted.returned hreturned
      have hhanded := haccounted.handed hfailed
      rw [hrunning, hnext, List.take_length, List.map_nil, List.append_nil] at hhanded
      refine ⟨hhanded.nodup_iff.mp haccounted.taken.of_append_left, fun name hname => ?_⟩
      obtain ⟨entry, hentry, rfl⟩ := List.mem_map.mp (hhanded.mem_iff.mpr hname)
      rw [hin.frozen entry hentry]
      rfl
    · rintro ⟨hnames, hreports⟩
      have hunbroken : Unbroken v s' := (hafter.invariant_of_forall
        (I := fun s' => (f.Accounted s' ∧ f.InSnapshot v s') ∧ Unbroken v s')
        (p := fun e => e.isLoss = false)
        (fun e he => hlosses e (List.mem_append_right _ (List.mem_cons_of_mem _ he)))
        ⟨⟨hstarted.accounted f, hstarted.inSnapshot f⟩, hstarted.failed,
          fun _ => hstarted.opened, by simp [hstarted.leader]⟩
        fun _ _ _ h _ hloss hstep => ⟨⟨h.1.1.step f hstep, h.1.2.step f h.1.1 hstep⟩,
          h.2.step f hnames hreports h.1.1 h.1.2 hloss hstep⟩).2
      exact hended.resolve_right hunbroken.raised

theorem freeze_ends_two_reports : ∃ s', twoReports.Runs lastNight interleaved s' ∧
    s'.leader = .returned ∧ interleaved.countP FreezeStep.isOwn ≤ 12 ∧
    twoReports.names.Nodup := by
  obtain ⟨s', hrun, hreturned⟩ : ∃ s', twoReports.Runs lastNight interleaved s' ∧
      s'.leader = .returned :=
    ⟨_, .of_check rfl, rfl⟩
  obtain ⟨hsteps, -, hends⟩ := twoReports.freeze_ends begins_lastNight hrun
  obtain ⟨v, -, hreturns⟩ := hends (by decide) (.inl hreturned)
  exact ⟨s', hrun, hreturned, hsteps, (hreturns.mp hreturned).1⟩

end Freeze

end PlatformOps.Reconcile
