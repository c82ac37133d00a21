import PlatformOps.Incidents.Effects

/-!
# Raises and Their Keys

A raise is recorded under its incident and its reason, and that pair is the key of
the table: raising twice for one reason rolls the ingest back. A reason of time names
the severity the incident is raised from, and severities only go up, so it is never
there already; a calendar window recorded before is left out. What is not looked at is
whether two windows that open together have one name.

- `ReasonsApart`: only an incident at SEV3 can be raised twice at once, and then its
  first two reasons have to differ.
- `Store.RaisesFit`, `Store.RaisesChained`: what the recorded raises and the incidents
  have in common. Every ingest keeps it.
- `escalate_ends_apart`: the raises go through exactly when the reasons are apart.
-/

namespace PlatformOps.Incidents

open Metadata Listing Fallible

/-- The number in the severity's name: a raise makes it smaller. -/
def Severity.level : Severity → ℕ
  | .sev1 => 1
  | .sev2 => 2
  | .sev3 => 3

/-- The recorded raises fit the incidents: each is of an incident there is, and one for staying
too long at a severity is of an incident now above it. -/
structure Store.RaisesFit (s : Store) : Prop where
  incident : ∀ row ∈ s.escalations, row.incident ∈ s.incidents.map Incident.seq
  overdue : ∀ row ∈ s.escalations, ∀ i ∈ s.incidents, i.seq = row.incident →
    ∀ hours severity, row.reason = .overdue hours severity → i.severity.level < severity.level

theorem Store.raisesFit_empty : Store.RaisesFit {} := ⟨by simp, by simp⟩

/-- The raises lead from one severity to another, each starting where the one before ended. -/
def Chained (start : Severity) : List Escalation → Severity → Prop
  | [], final => start = final
  | row :: rest, final => row.fromSeverity = start ∧ Chained row.toSeverity rest final

theorem Chained.append {a b c : Severity} {rows more : List Escalation} (h : Chained a rows b)
    (h' : Chained b more c) : Chained a (rows ++ more) c := by
  induction rows generalizing a with
  | nil =>
    subst h
    exact h'
  | cons row rest ih => exact ⟨h.1, ih h.2⟩

/-- The raises of an incident, in order. -/
def Store.raisesOf (s : Store) (i : Incident) : List Escalation :=
  s.escalations.filter fun row => row.incident = i.seq

/-- Every raise has a key of its own, and the raises of an incident lead to its severity. -/
structure Store.RaisesChained (s : Store) : Prop where
  once : (s.escalations.map fun row => (row.incident, row.reason.text)).Nodup
  chain : ∀ i ∈ s.incidents, ∃ start, Chained start (s.raisesOf i) i.severity

theorem Store.raisesChained_empty : Store.RaisesChained {} := ⟨List.nodup_nil, by simp⟩

/-- Every incident is still there, and at no lower severity. -/
def NeverLower (s s' : Store) : Prop :=
  ∀ i ∈ s.incidents, ∃ j ∈ s'.incidents, j.seq = i.seq ∧ j.severity.level ≤ i.severity.level

theorem NeverLower.refl (s : Store) : NeverLower s s := fun i hi => ⟨i, hi, rfl, le_refl _⟩

theorem NeverLower.trans {a b c : Store} (h : NeverLower a b) (h' : NeverLower b c) :
    NeverLower a c := by
  intro i hi
  obtain ⟨j, hj, hseq, hlevel⟩ := h i hi
  obtain ⟨k, hk, hseq', hlevel'⟩ := h' j hj
  exact ⟨k, hk, hseq'.trans hseq, hlevel'.trans hlevel⟩

/-- The windows of the policy have names of their own. -/
def IncidentPolicy.NamedApart (policy : IncidentPolicy) : Prop :=
  (policy.windows.map Window.name).Nodup

instance : DecidablePred IncidentPolicy.NamedApart := fun _ =>
  inferInstanceAs (Decidable (List.Nodup _))

/-! ## One incident -/

/-- No two raises are for one reason: there are two only from SEV3, for the first two reasons. -/
def ReasonsApart : Severity → List Reason → Prop
  | .sev3, reason :: reason' :: _ => reason ≠ reason'
  | _, _ => True

instance (severity : Severity) (reasons : List Reason) :
    Decidable (ReasonsApart severity reasons) :=
  match severity, reasons with
  | .sev3, reason :: reason' :: _ => inferInstanceAs (Decidable (reason ≠ reason'))
  | .sev3, [] | .sev3, [_] => isTrue trivial
  | .sev1, _ | .sev2, _ => isTrue trivial

theorem ReasonsApart.of_nodup {severity : Severity} {reasons : List Reason} (h : reasons.Nodup) :
    ReasonsApart severity reasons := by
  unfold ReasonsApart
  split
  · rw [List.nodup_cons] at h
    rintro rfl
    exact h.1 (List.mem_cons_self ..)
  · trivial

/-- The raises one incident gets for these reasons, on its way from one severity to another. -/
structure RaisedFor (incident : ℕ) (reasons : List Reason) (current final : Severity)
    (more : List Escalation) : Prop where
  level : final.level ≤ current.level
  rows : ∀ row ∈ more, row.incident = incident ∧ row.reason ∈ reasons ∧
    final.level < current.level
  once : (more.map Escalation.reason).Nodup
  chain : Chained current more final

section Loop

variable {incident : ℕ} {runId : String} {now : Timestamp}

theorem raiseLoop_sev1 (reasons : List Reason) (rows : List Escalation) :
    raiseLoop incident runId now reasons .sev1 rows = .ok (.sev1, rows) := by
  cases reasons with
  | nil => rfl
  | cons => simp [raiseLoop, raised]

/-- A reason that is not recorded raises the incident. -/
private theorem raiseLoop_cons {reason : Reason} {rest : List Reason} {current : Severity}
    {rows : List Escalation} (htop : raised current ≠ current)
    (hnew : ∀ row ∈ rows, row.incident = incident → row.reason ≠ reason) :
    raiseLoop incident runId now (reason :: rest) current rows =
      raiseLoop incident runId now rest (raised current)
        (rows ++ [⟨incident, runId, now, current, raised current, reason⟩]) := by
  have hfree : ¬ (rows.any fun row => row.incident = incident && row.reason = reason) := by
    simpa using hnew
  rw [raiseLoop, if_neg htop, if_neg hfree]

/-- A reason that is recorded stops the ingest. -/
private theorem raiseLoop_recorded {reason : Reason} {rest : List Reason} {current : Severity}
    {rows : List Escalation} (htop : raised current ≠ current) {row : Escalation}
    (hrow : row ∈ rows) (hincident : row.incident = incident) (hreason : row.reason = reason) :
    raiseLoop incident runId now (reason :: rest) current rows =
      .error (.uniqueViolation "incident_escalations_pkey") := by
  have hany : (rows.any fun row => row.incident = incident && row.reason = reason) = true :=
    List.any_eq_true.mpr ⟨row, hrow, by simp [hincident, hreason]⟩
  rw [raiseLoop, if_neg htop, if_pos hany]

/-- **The raises of one incident** go through exactly when its reasons are apart, provided none of
them is recorded. -/
theorem raiseLoop_ends (incident : ℕ) (runId : String) (now : Timestamp) (reasons : List Reason)
    (current : Severity) (rows : List Escalation)
    (hnew : ∀ reason ∈ reasons, ∀ row ∈ rows, row.incident = incident → row.reason ≠ reason) :
    Ends (raiseLoop incident runId now reasons current rows)
      (fun e => e = .uniqueViolation "incident_escalations_pkey" ∧ ¬ ReasonsApart current reasons)
      fun p => ReasonsApart current reasons ∧
        ∃ more, p.2 = rows ++ more ∧ RaisedFor incident reasons current p.1 more := by
  -- with no reason, or at the top, there is nothing to do
  have hstay : ∀ {current : Severity} {reasons : List Reason}, ReasonsApart current reasons →
      ReasonsApart current reasons ∧ ∃ more, rows = rows ++ more ∧
        RaisedFor incident reasons current current more := by
    intro current reasons hapart
    exact ⟨hapart, [], (List.append_nil _).symm, le_refl _, by simp, List.nodup_nil, rfl⟩
  cases current with
  | sev1 =>
    rw [raiseLoop_sev1]
    exact hstay trivial
  | sev2 =>
    cases reasons with
    | nil => exact hstay trivial
    | cons reason rest =>
      rw [raiseLoop_cons (by decide) (hnew reason (List.mem_cons_self ..))]
      show Ends (raiseLoop incident runId now rest .sev1 _) _ _
      rw [raiseLoop_sev1]
      exact ⟨trivial, _, rfl, by simp [Severity.level], by simp [Severity.level], by simp, rfl, rfl⟩
  | sev3 =>
    cases reasons with
    | nil => exact hstay trivial
    | cons reason rest =>
      rw [raiseLoop_cons (by decide) (hnew reason (List.mem_cons_self ..))]
      cases rest with
      | nil =>
        exact ⟨trivial, _, rfl, by simp [Severity.level, raised],
          by simp [Severity.level, raised], by simp, rfl, rfl⟩
      | cons reason' rest =>
        by_cases hsame : reason = reason'
        · -- the second raise finds the first one recorded
          have hrecorded : (⟨incident, runId, now, .sev3, raised .sev3, reason⟩ : Escalation) ∈
              rows ++ [⟨incident, runId, now, .sev3, raised .sev3, reason⟩] := by simp
          rw [raiseLoop_recorded (by decide) hrecorded rfl hsame]
          exact ⟨rfl, fun hapart => hapart hsame⟩
        · rw [raiseLoop_cons (by decide)]
          · show Ends (raiseLoop incident runId now rest .sev1 _) _ _
            rw [raiseLoop_sev1, List.append_assoc]
            exact ⟨hsame, _, rfl, by simp [Severity.level], by simp [Severity.level],
              by simpa using hsame, rfl, rfl, rfl⟩
          · intro row hrow hincident
            rcases List.mem_append.mp hrow with hrow | hrow
            · exact hnew reason' (by simp) row hrow hincident
            · rw [List.mem_singleton.mp hrow]
              exact hsame

end Loop

section Reasons

variable {ctx : Context} {now : Timestamp} {escalations : List Escalation} {i : Incident}

/-- A reason of time names the incident's severity, any other a window not recorded yet. -/
theorem mem_reasonsFor {reason : Reason} (h : reason ∈ reasonsFor ctx now escalations i) :
    (∃ hours, reason = .overdue hours i.severity) ∨ (∃ name year month,
      reason = .window name year month ∧
        ∀ row ∈ escalations, row.incident = i.seq → row.reason ≠ reason) := by
  simp only [reasonsFor, List.mem_append, List.mem_filter, List.mem_map] at h
  rcases h with hlate | ⟨⟨w, -, rfl⟩, hdone⟩
  · split at hlate
    · exact Or.inl ⟨_, List.mem_singleton.mp hlate⟩
    · cases hlate
  · refine Or.inr ⟨_, _, _, rfl, fun row hrow heq hreason => ?_⟩
    rw [decide_eq_true_eq] at hdone
    refine hdone (List.mem_map.mpr ⟨row, List.mem_filter.mpr ⟨hrow, ?_⟩, hreason⟩)
    rwa [decide_eq_true_eq]

theorem nodup_reasonsFor (h : ctx.policy.NamedApart) :
    (reasonsFor ctx now escalations i).Nodup := by
  rw [reasonsFor, List.nodup_append]
  refine ⟨?_, List.Nodup.filter _ ?_, ?_⟩
  · split
    · exact List.nodup_singleton _
    · exact List.nodup_nil
  · refine List.Nodup.map_on ?_ ((List.Nodup.of_map _ h).filter _)
    intro w hw w' hw' heq
    simp only [Reason.window.injEq, and_true] at heq
    exact List.inj_on_of_nodup_map h (List.mem_filter.mp hw).1 (List.mem_filter.mp hw').1 heq
  · intro a ha b hb heq
    obtain ⟨w, -, rfl⟩ := List.mem_map.mp (List.mem_filter.mp hb).1
    split at ha
    · rw [List.mem_singleton.mp ha] at heq
      cases heq
    · cases ha

end Reasons

/-! ## All of them -/

/-- The reasons an incident has are a matter of its own raises. -/
theorem reasonsFor_congr {ctx : Context} {now : Timestamp} {s s' : Store} {i : Incident}
    (h : s.raisesOf i = s'.raisesOf i) :
    reasonsFor ctx now s.escalations i = reasonsFor ctx now s'.escalations i := by
  unfold Store.raisesOf at h
  simp only [reasonsFor, h]

/-- The reasons of every open incident are apart. -/
def Store.RaisesApart (s : Store) (ctx : Context) (now : Timestamp) : Prop :=
  ∀ i ∈ s.incidents, i.isOpen = true → i.openedAt ≤ now →
    ReasonsApart i.severity (reasonsFor ctx now s.escalations i)

instance (s : Store) (ctx : Context) (now : Timestamp) : Decidable (s.RaisesApart ctx now) :=
  inferInstanceAs (Decidable (∀ i ∈ s.incidents, _ → _ → _))

/-- Names of their own keep the reasons apart. -/
theorem IncidentPolicy.NamedApart.raisesApart {ctx : Context} (h : ctx.policy.NamedApart)
    (s : Store) (now : Timestamp) : s.RaisesApart ctx now :=
  fun _ _ _ _ => ReasonsApart.of_nodup (nodup_reasonsFor h)

/-- The store with an incident raised, and the raises recorded. -/
def Store.raiseTo (s : Store) (i : Incident) (severity : Severity) (more : List Escalation) :
    Store :=
  { s with
    escalations := s.escalations ++ more
    incidents := s.incidents.map fun j =>
      if j.seq = i.seq then { j with severity := severity } else j }

section RaiseTo

variable {s : Store} {i : Incident} {reasons : List Reason} {severity : Severity}
  {more : List Escalation}

private theorem mem_raiseTo {j : Incident} (hj : j ∈ (s.raiseTo i severity more).incidents) :
    ∃ k ∈ s.incidents, j.seq = k.seq ∧
      j.severity = if k.seq = i.seq then severity else k.severity := by
  obtain ⟨k, hk, rfl⟩ := List.mem_map.mp hj
  refine ⟨k, hk, ?_⟩
  split <;> exact ⟨rfl, rfl⟩

private theorem map_seq_raiseTo : (s.raiseTo i severity more).incidents.map Incident.seq =
    s.incidents.map Incident.seq := by
  rw [Store.raiseTo, List.map_map]
  refine List.map_congr_left fun j _ => ?_
  rw [Function.comp_apply]
  split <;> rfl

private theorem raisesOf_raiseTo (hmore : ∀ row ∈ more, row.incident = i.seq) {k : Incident}
    (hseq : k.seq = i.seq) :
    (s.raiseTo i severity more).raisesOf k = s.raisesOf k ++ more := by
  have hall : more.filter (fun row => row.incident = k.seq) = more :=
    List.filter_eq_self.mpr fun row hrow => decide_eq_true ((hmore row hrow).trans hseq.symm)
  rw [Store.raisesOf, Store.raiseTo, List.filter_append, hall]
  rfl

private theorem raisesOf_raiseTo_of_ne (hmore : ∀ row ∈ more, row.incident = i.seq) {k : Incident}
    (hne : k.seq ≠ i.seq) : (s.raiseTo i severity more).raisesOf k = s.raisesOf k := by
  have hnone : more.filter (fun row => row.incident = k.seq) = [] := by
    rw [List.filter_eq_nil_iff]
    intro row hrow hincident
    rw [decide_eq_true_eq, hmore row hrow] at hincident
    exact hne hincident.symm
  rw [Store.raisesOf, Store.raiseTo, List.filter_append, hnone, List.append_nil]
  rfl

variable (hnumbered : Numbered s.incidents) (hi : i ∈ s.incidents)
  (hmore : RaisedFor i.seq reasons i.severity severity more)

include hnumbered hi hmore

private theorem raisesFit_raiseTo (hfit : s.RaisesFit)
    (htime : ∀ hours sev, .overdue hours sev ∈ reasons → sev = i.severity) :
    (s.raiseTo i severity more).RaisesFit := by
  constructor
  · intro row hrow
    rw [map_seq_raiseTo]
    rcases List.mem_append.mp hrow with hrow | hrow
    · exact hfit.incident row hrow
    · exact (hmore.rows row hrow).1 ▸ List.mem_map_of_mem hi
  · intro row hrow j hj heq hours sev hreason
    obtain ⟨k, hk, hseq, hsev⟩ := mem_raiseTo hj
    rw [hsev]
    rw [hseq] at heq
    by_cases hki : k.seq = i.seq
    · rw [if_pos hki]
      obtain rfl := hnumbered.eq_of_seq hk hi hki
      rcases List.mem_append.mp hrow with hrow | hrow
      · exact lt_of_le_of_lt hmore.level (hfit.overdue row hrow k hk heq hours sev hreason)
      · -- Raised for staying too long, it is now above that severity.
        obtain ⟨-, hmem, hlt⟩ := hmore.rows row hrow
        rw [hreason] at hmem
        rw [htime hours sev hmem]
        exact hlt
    · rw [if_neg hki]
      rcases List.mem_append.mp hrow with hrow | hrow
      · exact hfit.overdue row hrow k hk heq hours sev hreason
      · exact absurd (heq.trans (hmore.rows row hrow).1) hki

private theorem raisesChained_raiseTo (hchained : s.RaisesChained)
    (hnew : ∀ reason ∈ reasons, ∀ row ∈ s.escalations, row.incident = i.seq →
      row.reason ≠ reason) : (s.raiseTo i severity more).RaisesChained := by
  have hown : ∀ row ∈ more, row.incident = i.seq := fun row hrow => (hmore.rows row hrow).1
  constructor
  · -- The keys: no reason of these is recorded for the incident, and they are apart.
    show ((s.escalations ++ more).map _).Nodup
    rw [List.map_append, List.nodup_append]
    refine ⟨hchained.once, ?_, ?_⟩
    · apply List.Nodup.of_map Prod.snd
      rw [List.map_map]
      show (more.map (Reason.text ∘ Escalation.reason)).Nodup
      rw [← List.map_map]
      exact hmore.once.map Reason.text_injective
    · intro a ha b hb heq
      obtain ⟨row, hrow, rfl⟩ := List.mem_map.mp ha
      obtain ⟨row', hrow', rfl⟩ := List.mem_map.mp hb
      obtain ⟨hincident, hmem, -⟩ := hmore.rows row' hrow'
      obtain ⟨hseq, hreason⟩ := Prod.mk.inj heq
      exact hnew _ hmem row hrow (hseq.trans hincident) (Reason.text_injective hreason)
  · intro j hj
    obtain ⟨k, hk, hseq, hsev⟩ := mem_raiseTo hj
    obtain ⟨start, hchain⟩ := hchained.chain k hk
    refine ⟨start, ?_⟩
    -- The chains: the incident's own goes on with the new raises, any other is as it was.
    have hraises : (s.raiseTo i severity more).raisesOf j =
        (s.raiseTo i severity more).raisesOf k := by
      rw [Store.raisesOf, Store.raisesOf, hseq]
    rw [hraises, hsev]
    by_cases hki : k.seq = i.seq
    · obtain rfl := hnumbered.eq_of_seq hk hi hki
      rw [if_pos rfl, raisesOf_raiseTo hown rfl]
      exact hchain.append hmore.chain
    · rw [if_neg hki, raisesOf_raiseTo_of_ne hown hki]
      exact hchain

private theorem neverLower_raiseTo : NeverLower s (s.raiseTo i severity more) := by
  intro k hk
  by_cases hki : k.seq = i.seq
  · obtain rfl := hnumbered.eq_of_seq hk hi hki
    exact ⟨_, List.mem_map.mpr ⟨k, hk, if_pos rfl⟩, rfl, hmore.level⟩
  · exact ⟨k, List.mem_map.mpr ⟨k, hk, if_neg hki⟩, rfl, le_refl _⟩

end RaiseTo

/-- **One incident**: it is raised if its reasons are apart, and no other one is touched. -/
private theorem escalateIncident_ends (ctx : Context) (runId : String) (now : Timestamp)
    {s : Store} (hnumbered : Numbered s.incidents) (hfit : s.RaisesFit) {i : Incident}
    (hi : i ∈ s.incidents) :
    Ends (escalateIncident ctx runId now s i)
      (fun e => e = .uniqueViolation "incident_escalations_pkey" ∧
        ¬ ReasonsApart i.severity (reasonsFor ctx now s.escalations i))
      fun s' => ReasonsApart i.severity (reasonsFor ctx now s.escalations i) ∧
        Numbered s'.incidents ∧ s'.RaisesFit ∧ (s.RaisesChained → s'.RaisesChained) ∧
        NeverLower s s' ∧ ∀ k ∈ s.incidents, k ≠ i → k ∈ s'.incidents ∧
          s'.raisesOf k = s.raisesOf k := by
  -- None of the reasons is recorded for it.
  have hnew : ∀ reason ∈ reasonsFor ctx now s.escalations i, ∀ row ∈ s.escalations,
      row.incident = i.seq → row.reason ≠ reason := by
    intro reason hreason row hrow heq
    rcases mem_reasonsFor hreason with ⟨hours, rfl⟩ | ⟨_, _, _, -, hdone⟩
    · intro hreason'
      exact lt_irrefl _ (hfit.overdue row hrow i hi heq.symm hours _ hreason')
    · exact hdone row hrow heq
  have htime : ∀ hours sev, .overdue hours sev ∈ reasonsFor ctx now s.escalations i →
      sev = i.severity := by
    intro hours sev hmem
    rcases mem_reasonsFor hmem with ⟨_, hsev⟩ | ⟨_, _, _, hwindow, -⟩
    · cases hsev
      rfl
    · cases hwindow
  rw [escalateIncident]
  apply Ends.bind (raiseLoop_ends i.seq runId now _ i.severity s.escalations hnew)
  rintro ⟨severity, escalations⟩ ⟨hapart, more, rfl, hmore⟩
  rw [ends_pure]
  show _ ∧ Numbered (s.raiseTo i severity more).incidents ∧ _
  refine ⟨hapart, ?_, raisesFit_raiseTo hnumbered hi hmore hfit htime,
    fun hchained => raisesChained_raiseTo hnumbered hi hmore hchained hnew,
    neverLower_raiseTo hnumbered hi hmore, fun k hk hne => ?_⟩
  · rw [Numbered, map_seq_raiseTo]
    exact hnumbered
  · have hki : ¬ k.seq = i.seq := fun heq => hne (hnumbered.eq_of_seq hk hi heq)
    exact ⟨List.mem_map.mpr ⟨k, hk, if_neg hki⟩,
      raisesOf_raiseTo_of_ne (fun row hrow => (hmore.rows row hrow).1) hki⟩

/-- **The raises go through exactly when the reasons are apart**; they lower no severity, and the
raises still fit and chain. -/
theorem escalate_ends_apart (ctx : Context) (runId : String) (now : Timestamp) {s : Store}
    (hnumbered : Numbered s.incidents) (hfit : s.RaisesFit) :
    Ends (escalate ctx runId now s)
      (fun e => e = .uniqueViolation "incident_escalations_pkey" ∧ ¬ s.RaisesApart ctx now)
      fun s' => s.RaisesApart ctx now ∧ s'.RaisesFit ∧ (s.RaisesChained → s'.RaisesChained) ∧
        NeverLower s s' := by
  have hlooked : ∀ i, i ∈ s.bySeq.filter (fun i => i.isOpen && i.openedAt ≤ now) ↔
      i ∈ s.incidents ∧ i.isOpen = true ∧ i.openedAt ≤ now := by
    intro i
    rw [List.mem_filter, Store.bySeq, mem_sortBy, Bool.and_eq_true, decide_eq_true_eq]
  have hnodup : (s.bySeq.filter fun i => i.isOpen && i.openedAt ≤ now).Nodup :=
    ((perm_sortBy _ _).nodup_iff.mpr (List.Nodup.of_map _ hnumbered)).filter _
  -- the incidents still to look at are as they were, and so are their raises
  refine (Ends.foldlM (I := fun done (s' : Store) => Numbered s'.incidents ∧ s'.RaisesFit ∧
      (s.RaisesChained → s'.RaisesChained) ∧ NeverLower s s' ∧
      (∀ i ∈ done, ReasonsApart i.severity (reasonsFor ctx now s.escalations i)) ∧
      ∀ i ∈ s.incidents, i ∉ done → i ∈ s'.incidents ∧ s'.raisesOf i = s.raisesOf i)
    ⟨hnumbered, hfit, fun h => h, NeverLower.refl s, by simp, fun i hi _ => ⟨hi, rfl⟩⟩ ?_).mono
    (fun _ h => h) ?_
  · rintro done i rest s' hl ⟨hnumbered', hfit', hchained, hlower, hdone, hstill⟩
    have hi : i ∈ s.incidents ∧ i.isOpen = true ∧ i.openedAt ≤ now :=
      (hlooked i).mp (hl ▸ by simp)
    have hnot : i ∉ done := by
      intro hmem
      rw [hl, List.nodup_append] at hnodup
      exact hnodup.2.2 i hmem i (List.mem_cons_self ..) rfl
    obtain ⟨hi', hraises⟩ := hstill i hi.1 hnot
    have hreasons : reasonsFor ctx now s'.escalations i = reasonsFor ctx now s.escalations i :=
      reasonsFor_congr hraises
    refine (escalateIncident_ends ctx runId now hnumbered' hfit' hi').mono ?_ ?_
    · rintro e ⟨rfl, hapart⟩
      rw [hreasons] at hapart
      exact ⟨rfl, fun hall => hapart (hall i hi.1 hi.2.1 hi.2.2)⟩
    · rintro s'' ⟨hapart, hnumbered'', hfit'', hchained', hlower', hother⟩
      rw [hreasons] at hapart
      refine ⟨hnumbered'', hfit'', fun h => hchained' (hchained h), hlower.trans hlower', ?_, ?_⟩
      · intro k hk
        rcases List.mem_append.mp hk with hk | hk
        · exact hdone k hk
        · exact List.mem_singleton.mp hk ▸ hapart
      · intro k hk hnot'
        rw [List.mem_append, not_or, List.mem_singleton] at hnot'
        obtain ⟨hk', hraises'⟩ := hstill k hk hnot'.1
        obtain ⟨hk'', hraises''⟩ := hother k hk' hnot'.2
        exact ⟨hk'', hraises''.trans hraises'⟩
  · rintro s' ⟨-, hfit', hchained, hlower, hdone, -⟩
    refine ⟨?_, hfit', hchained, hlower⟩
    intro i hi hopen hopened
    exact hdone i ((hlooked i).mpr ⟨hi, hopen, hopened⟩)

/-! ## An ingest -/

section Settled

variable {r : Regrouping} {news : List Incident} {assignment : List (String × ℕ)}
  {settled : Store} {out : Regrouped} (h : r.Settled news assignment settled out)

include h

/-- A settled store's raises fit: no severity changed, and a new incident has none. -/
theorem Regrouping.Settled.raisesFit (hfit : r.store.RaisesFit) : settled.RaisesFit := by
  constructor
  · intro row hrow
    rw [h.escalations] at hrow
    obtain ⟨i, hi, hseq⟩ := List.mem_map.mp (hfit.incident row hrow)
    rw [h.incidents, List.map_append, List.map_map, List.mem_append]
    exact Or.inl (List.mem_map.mpr ⟨i, hi, Regrouping.fate_same.seq.trans hseq⟩)
  · intro row hrow j hj heq hours severity hreason
    rw [h.escalations] at hrow
    rw [h.incidents] at hj
    rcases List.mem_append.mp hj with hj | hj
    · obtain ⟨i, hi, rfl⟩ := List.mem_map.mp hj
      rw [Regrouping.fate_severity]
      exact hfit.overdue row hrow i hi (Regrouping.fate_same.seq.symm.trans heq) hours severity
        hreason
    · exact absurd (heq ▸ hfit.incident row hrow) (h.isNew j hj).unused

theorem Regrouping.Settled.raisesChained (hfit : r.store.RaisesFit)
    (hchained : r.store.RaisesChained) : settled.RaisesChained := by
  constructor
  · rw [h.escalations]
    exact hchained.once
  · intro j hj
    rw [h.incidents] at hj
    rw [Store.raisesOf, h.escalations]
    rcases List.mem_append.mp hj with hj | hj
    · obtain ⟨i, hi, rfl⟩ := List.mem_map.mp hj
      rw [Regrouping.fate_severity, Regrouping.fate_same.seq]
      exact hchained.chain i hi
    · -- no raise is of a number that is not taken yet
      have hnone : r.store.escalations.filter (fun row => row.incident = j.seq) = [] := by
        rw [List.filter_eq_nil_iff]
        intro row hrow heq
        rw [decide_eq_true_eq] at heq
        exact (h.isNew j hj).unused (heq ▸ hfit.incident row hrow)
      rw [hnone]
      exact ⟨j.severity, rfl⟩

theorem Regrouping.Settled.neverLower : NeverLower r.store settled := by
  intro i hi
  refine ⟨_, h.incidents ▸ List.mem_append_left _ (List.mem_map_of_mem hi),
    Regrouping.fate_same.seq, ?_⟩
  rw [Regrouping.fate_severity]

end Settled

namespace IngestCall

variable (call : IngestCall) (s : Store)

/-- The store an ingest looks for raises in: its run is regrouped. -/
def toEscalate : Except DeskError Store := do
  let r ← call.regrouping s
  let (settled, _) ← settle r.ctx r.runId r.now r.facts r.store
  return settled

/-- **The condition on an ingest**: where it raises anything at all, the reasons of every open
incident it looks at are apart. -/
def RaisesApart : Prop :=
  call.fresh s = [] ∨ ∀ settled, call.toEscalate s = .ok settled →
    settled.RaisesApart call.ctx (call.now s)

variable {s}

/-- Nothing before the raises stumbles over their key. -/
private theorem toEscalate_ne (hsound : s.Sound) {e : DeskError} (h : call.toEscalate s = .error e) :
    e ≠ .uniqueViolation "incident_escalations_pkey" := by
  have hends : Ends (call.toEscalate s)
      (fun e => e ≠ .uniqueViolation "incident_escalations_pkey") fun _ => True := by
    unfold toEscalate
    -- What comes before the raises has errors of its own.
    have hregrouping : Ends (call.regrouping s)
        (fun e => e ≠ .uniqueViolation "incident_escalations_pkey") (call.Reaches s) := by
      apply Ends.bind ((record_ends _ _ _ _ _).mono ?_ fun _ h => h)
      · intro recorded hrecorded
        apply Ends.bind ((factsOf_ends _ _ _).mono ?_ fun _ h => h)
        · exact fun facts hfacts => ⟨rfl, rfl, rfl, hrecorded, hfacts⟩
        · rintro _ ⟨rfl, -⟩
          simp
      · rintro _ ⟨rfl, -⟩
        simp
    apply Ends.bind hregrouping
    intro r hreaches
    have hincidents := hreaches.recorded.incidents
    apply Ends.bind ((r.settle_ends (hincidents ▸ hsound.numbered) (hincidents ▸ hsound.oneOpen)
      hreaches.facts.distinct).mono ?_ fun _ h => h)
    · exact fun _ _ => trivial
    · rintro _ (⟨rfl, -⟩ | ⟨⟨key, rfl⟩, -⟩) <;> simp [oneOpenPerRoot]
  exact hends.raised h

/-- **The raises of an ingest**: it stumbles over one exactly when the reasons are not apart. -/
theorem ingest_raises (hsound : s.Sound) (hfit : s.RaisesFit) :
    Ends (call.ingest s)
      (fun e => e = .uniqueViolation "incident_escalations_pkey" ↔ ¬ call.RaisesApart s)
      fun p => call.RaisesApart s ∧ p.1.RaisesFit ∧ (s.RaisesChained → p.1.RaisesChained) ∧
        NeverLower s p.1 := by
  by_cases hfresh : call.fresh s = []
  · rw [ingest, if_pos hfresh]
    exact ⟨Or.inl hfresh, hfit, fun h => h, NeverLower.refl s⟩
  rw [ingest_eq hfresh]
  -- an ingest that stops earlier raises nothing
  have hearly : ∀ {e : DeskError}, call.toEscalate s = .error e →
      e ≠ .uniqueViolation "incident_escalations_pkey" →
      (e = .uniqueViolation "incident_escalations_pkey" ↔ ¬ call.RaisesApart s) := by
    intro e he hne
    refine iff_of_false hne (not_not_intro (Or.inr fun settled hsettled => ?_))
    rw [he] at hsettled
    cases hsettled
  apply Ends.bind (ends_self (call.regrouping s) |>.mono ?_ fun _ h => h)
  · intro r hr
    have hreaches := regrouping_ends.returned hr
    have hincidents := hreaches.recorded.incidents
    have hescalations := hreaches.recorded.escalations
    have hfit' : r.store.RaisesFit :=
      ⟨by rw [hescalations, hincidents]; exact hfit.incident,
        by rw [hescalations, hincidents]; exact hfit.overdue⟩
    apply Ends.bind (ends_self (settle r.ctx r.runId r.now r.facts r.store) |>.mono ?_ fun _ h => h)
    · rintro ⟨settled, out⟩ hsettle
      have hto : call.toEscalate s = .ok settled := by
        rw [toEscalate, hr]
        show (do let (settled, _) ← settle r.ctx r.runId r.now r.facts r.store; pure settled) = _
        rw [hsettle]
        rfl
      obtain ⟨-, news, assignment, hsettled⟩ :=
        (r.settle_ends (hincidents ▸ hsound.numbered) (hincidents ▸ hsound.oneOpen)
          hreaches.facts.distinct).returned hsettle
      have hnumbered : Numbered settled.incidents := by
        rw [hsettled.incidents]
        exact Regrouping.numbered_map_append (hincidents ▸ hsound.numbered)
          (fun _ => Regrouping.afterResolution_seq) hsettled.isNew hsettled.numbers
      have hapart : settled.RaisesApart r.ctx r.now ↔ call.RaisesApart s := by
        rw [hreaches.ctx, hreaches.now, RaisesApart, or_iff_right hfresh, hto]
        simp
      apply Ends.bind ((escalate_ends_apart r.ctx r.runId r.now hnumbered
        (hsettled.raisesFit hfit')).mono ?_ fun _ h => h)
      · rintro raisedStore ⟨hraised, hfit'', hchained, hlower⟩
        rw [ends_pure]
        obtain ⟨notifications, hqueue⟩ := queueMessages_eq r.runId r.now out
          (raisedStore.escalations.drop settled.escalations.length) raisedStore
        rw [hqueue]
        refine ⟨hapart.mp hraised, ⟨hfit''.incident, hfit''.overdue⟩, ?_, ?_⟩
        · intro h
          have hstart : r.store.RaisesChained :=
            ⟨by rw [hescalations]; exact h.once,
              by unfold Store.raisesOf; rw [hescalations, hincidents]; exact h.chain⟩
          have hend := hchained (hsettled.raisesChained hfit' hstart)
          exact ⟨hend.once, hend.chain⟩
        · intro i hi
          exact (hsettled.neverLower.trans hlower) i (hincidents ▸ hi)
      · rintro e ⟨rfl, hraised⟩
        exact iff_of_true rfl (mt hapart.mpr hraised)
    · intro e he
      refine hearly ?_ (toEscalate_ne call hsound ?_)
      all_goals rw [toEscalate, hr]; exact congrArg (· >>= fun p => pure p.1) he
  · intro e he
    refine hearly ?_ (toEscalate_ne call hsound ?_)
    all_goals rw [toEscalate, he]; rfl

/-- Windows with names of their own keep every ingest from stumbling over a raise. -/
theorem raisesApart_of_namedApart (hnamed : call.ctx.policy.NamedApart) (s : Store) :
    call.RaisesApart s :=
  Or.inr fun settled _ => hnamed.raisesApart settled (call.now s)

/-- Then an ingest leaves raises that fit, and never stumbles over one. -/
theorem ingest_fit (hnamed : call.ctx.policy.NamedApart) (hsound : s.Sound) (hfit : s.RaisesFit) :
    Ends (call.ingest s) (fun e => e ≠ .uniqueViolation "incident_escalations_pkey")
      fun p => p.1.RaisesFit :=
  (call.ingest_raises hsound hfit).mono
    (fun _ he heq => he.mp heq (call.raisesApart_of_namedApart hnamed s)) fun _ hp => hp.2.1

/-- Whatever an ingest does, the raises fit and chain after it, and no incident is at a lower
severity. -/
theorem raises_after (hsound : s.Sound) (hfit : s.RaisesFit) :
    (call.after s).RaisesFit ∧ (s.RaisesChained → (call.after s).RaisesChained) ∧
      NeverLower s (call.after s) := by
  rw [after]
  split
  · rename_i s' out hok
    exact ((call.ingest_raises hsound hfit).returned hok).2
  · exact ⟨hfit, fun h => h, NeverLower.refl s⟩

end IngestCall

/-- **The raises fit and chain in every store the desk gets to.** -/
theorem raises_of_run {ok : Store → IngestCall → Prop} {calls : List IngestCall} {s : Store}
    (hrun : Machine.Run deskStep ok {} calls s) : s.Sound ∧ s.RaisesFit ∧ s.RaisesChained := by
  apply hrun.invariant (I := fun s => s.Sound ∧ s.RaisesFit ∧ s.RaisesChained)
  · exact ⟨Store.sound_empty, Store.raisesFit_empty, Store.raisesChained_empty⟩
  · rintro s call s' ⟨hsound, hfit, hchained⟩ - hstep
    obtain rfl := Option.some.inj hstep
    obtain ⟨hfit', hchained', -⟩ := call.raises_after hsound hfit
    exact ⟨call.sound_after hsound, hfit', hchained' hchained⟩

/-- **Raises never collide, and never go down**, whatever came before: an ingest stumbles over the
key of a raise exactly when it looks at an open incident whose reasons are not apart. Whatever it
does, no incident is at a lower severity after it, the keys of the raises are apart, and each raise
starts where the one before it ended. -/
theorem raises_never_collide_iff {calls : List IngestCall} {s : Store}
    (hrun : Machine.Run deskStep (fun _ _ => True) {} calls s) (call : IngestCall) :
    (call.ingest s ≠ .error (.uniqueViolation "incident_escalations_pkey") ↔ call.RaisesApart s) ∧
      NeverLower s (call.after s) ∧ (call.after s).RaisesChained := by
  obtain ⟨hsound, hfit, hchained⟩ := raises_of_run hrun
  obtain ⟨-, hchained', hlower⟩ := call.raises_after hsound hfit
  refine ⟨?_, hlower, hchained' hchained⟩
  have hends : Ends (call.ingest s) _ _ := call.ingest_raises hsound hfit
  cases hingest : call.ingest s with
  | ok p => exact iff_of_true (by simp) (hends.returned hingest).1
  | error e =>
    have hiff := hends.raised hingest
    rw [ne_eq, Except.error.injEq, hiff, not_not]

theorem raises_never_collide_iff_first :
    NeverLower {} ((invocationOf "night 1" "1" 10 [("model.a", "error")]).after {}) ∧
      (invocationOf "night 1" "1" 10 [("model.a", "error")]).ingest {} ≠
        .error (.uniqueViolation "incident_escalations_pkey") := by
  have hrun : Machine.Run deskStep (fun _ _ => True) {} [] {} := .nil _
  have hnever := raises_never_collide_iff hrun
    (invocationOf "night 1" "1" 10 [("model.a", "error")])
  exact ⟨hnever.2.1, hnever.1.mpr (IngestCall.raisesApart_of_namedApart _ (by decide) _)⟩

/-- The second model is the finance team's, and the policy lists its month end twice. -/
def monthEnd : IngestCall where
  ctx := { twoModelsContext with
    registry := ⟨[], [⟨"model.b", "finance@", "finance", .bestEffort, none⟩]⟩
    policy := { twoModelsContext.policy with
      windows := [⟨"month end", "finance", 3, 1⟩, ⟨"month end", "finance", 0, 5⟩] } }
  artifacts := (invocationOf "night 1" "1" 10 [("model.a", "error")]).artifacts
  runId := "night 1"

/-- On the first of the month the first model fails: the first window raises its incident to SEV2,
and the second window's raise has the same key. -/
theorem raises_collide :
    monthEnd.ingest {} = .error (.uniqueViolation "incident_escalations_pkey") := by
  decide +kernel

end PlatformOps.Incidents
