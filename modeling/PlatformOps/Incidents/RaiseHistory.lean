import PlatformOps.Incidents.History
import PlatformOps.Incidents.OncePerWindow

/-!
# Raises in the History

The raises of an incident are recorded in the order they happened, each starting where
the one before ended. The history reads them back by time and reason, so what happened
at one time comes in the order of the texts, and a raise by a run of an earlier time
comes first. Either may turn the chain around.

- `Store.ReadsAsChain`: the raises a history lists lead, in its order, to the
  incident's severity.
- `Store.RaisesInOrder`: the raises of now come after those there are, and among
  themselves in the order of their texts.
- `escalations_read_as_chain_iff`: the first holds all along exactly when every ingest
  meets the second.
-/

namespace PlatformOps.Incidents

open Metadata Listing Ordered Machine

/-- Entries of the history that lead to a severity: each ends where the next one starts. -/
def ChainTo (final : Severity) (entries : List (Timestamp × Severity × Severity × String)) : Prop :=
  entries.IsChain (fun a b => a.2.2.1 = b.2.1) ∧ ∀ last ∈ entries.getLast?, last.2.2.1 = final

instance (final : Severity) (entries : List (Timestamp × Severity × Severity × String)) :
    Decidable (ChainTo final entries) :=
  inferInstanceAs (Decidable (_ ∧ _))

section Definitions

variable {κ : Type*} [LinearOrder κ] (collate : String → κ) (s : Store)

/-- **The history reads as a chain**: whatever the queries answer, the raises listed for an incident
that is not merged lead to its severity. -/
def Store.ReadsAsChain : Prop :=
  ∀ answers : Answers collate s, ∀ i ∈ s.incidents, i.mergedInto = none →
    ChainTo i.severity (answers.escalationsOf i)

/-- The raises of now come in the order they are read: after the incident's earlier ones, and in the
order of their texts. -/
def Store.RaisesInOrder (ctx : Context) (now : Timestamp) : Prop :=
  ∀ i ∈ s.incidents, i.isOpen = true → i.openedAt ≤ now →
    (s.raisingReasons ctx now i).Pairwise (fun a b => collate a.text < collate b.text) ∧
    ∀ reason ∈ s.raisingReasons ctx now i, ∀ row ∈ s.raisesOf i,
      row.time < now ∨ row.time = now ∧ collate row.reason.text < collate reason.text

/-- **The condition on an ingest**: where it raises, it raises in the order of the history. -/
def IngestCall.RaisesInOrder (call : IngestCall) : Prop :=
  ∀ settled, call.RaisesIn s settled → settled.RaisesInOrder collate call.ctx (call.now s)

/-- Every raise recorded is one up. -/
def Store.RaisesAscend : Prop :=
  ∀ row ∈ s.escalations, row.toSeverity.level < row.fromSeverity.level

end Definitions

/-! ## Chains -/

section Chains

/-- Raises lead on from the first of them, as entries of the history. -/
theorem chainTo_iff_chained {final : Severity} {row : Escalation} {rest : List Escalation} :
    ChainTo final ((row :: rest).map fun row =>
      (row.time, row.fromSeverity, row.toSeverity, row.reason.text)) ↔
      Chained row.fromSeverity (row :: rest) final := by
  induction rest generalizing row with
  | nil => simp [ChainTo, Chained]
  | cons row' rest ih =>
    have hrest := @ih row'
    simp only [ChainTo, List.map_cons, List.isChain_cons_cons, List.getLast?_cons_cons] at hrest ⊢
    rw [and_assoc, hrest]
    constructor
    · rintro ⟨hlink, hchain⟩
      exact ⟨rfl, hlink.symm, hchain.2⟩
    · rintro ⟨-, hlink, hchain⟩
      exact ⟨hlink.symm, rfl, hchain⟩

/-- A chain of raises never gets back down to where it started. -/
private theorem level_le_of_chained {start final : Severity} {rows : List Escalation}
    (hchain : Chained start rows final)
    (hascend : ∀ row ∈ rows, row.toSeverity.level < row.fromSeverity.level) :
    ∀ row ∈ rows, row.fromSeverity.level ≤ start.level := by
  induction rows generalizing start with
  | nil => exact fun row hrow => absurd hrow List.not_mem_nil
  | cons first rest ih =>
    obtain ⟨rfl, hrest⟩ := hchain
    have hfirst := hascend first (List.mem_cons_self ..)
    intro row hrow
    rcases List.mem_cons.mp hrow with rfl | hrow
    · exact le_refl _
    · have hle := ih hrest (fun row hrow => hascend row (List.mem_cons_of_mem _ hrow)) row hrow
      omega

/-- In a chain of raises every later one starts above the one before. -/
private theorem pairwise_of_chained {start final : Severity} {rows : List Escalation}
    (hchain : Chained start rows final)
    (hascend : ∀ row ∈ rows, row.toSeverity.level < row.fromSeverity.level) :
    rows.Pairwise fun a b => b.fromSeverity.level < a.fromSeverity.level := by
  induction rows generalizing start with
  | nil => exact .nil
  | cons first rest ih =>
    have hascend' : ∀ row ∈ rest, row.toSeverity.level < row.fromSeverity.level :=
      fun row hrow => hascend row (List.mem_cons_of_mem _ hrow)
    refine .cons (fun row hrow => ?_) (ih hchain.2 hascend')
    have hle := level_le_of_chained hchain.2 hascend' row hrow
    have hfirst := hascend first (List.mem_cons_self ..)
    omega

end Chains

/-! ## One store -/

section Reading

variable {κ : Type*} [LinearOrder κ] {collate : String → κ} {s : Store}

/-- What comes first of two raises of an incident. -/
theorem raiseKey_lt_iff {row row' : Escalation} (hincident : row.incident = row'.incident) :
    raiseKey collate row < raiseKey collate row' ↔ row.time < row'.time ∨
      row.time = row'.time ∧ collate row.reason.text < collate row'.reason.text := by
  rw [raiseKey, raiseKey, Prod.Lex.toLex_lt_toLex, Prod.Lex.toLex_lt_toLex, hincident]
  simp

/-- **Reading a store**: its raises read as chains exactly when each incident's were recorded in the
order they are read. -/
theorem readsAsChain_iff (hkept : s.RaisesKept) (hascend : s.RaisesAscend) :
    s.ReadsAsChain collate ↔ ∀ i ∈ s.incidents, i.mergedInto = none →
      (s.raisesOf i).Pairwise fun a b => raiseKey collate a < raiseKey collate b := by
  have hlisted : ∀ {i : Incident} {rows : List Escalation}, rows.Perm s.escalations →
      ∀ row ∈ rows.filter (fun row => row.incident = i.seq),
        row.toSeverity.level < row.fromSeverity.level := by
    intro i rows hperm row hrow
    exact hascend row (hperm.mem_iff.mp (List.mem_filter.mp hrow).1)
  constructor
  · intro hreads i hi hunmerged
    obtain ⟨start, hchain⟩ := hkept.chained.chain i hi
    have hgrows := pairwise_of_chained hchain (hlisted (List.Perm.refl _))
    rw [List.pairwise_iff_forall_sublist]
    intro a b hab
    by_contra hnot
    -- read the other way round, the two would not lead on
    obtain ⟨rows, hrows, hba⟩ := exists_orderedBy_swapped
      (hab.trans List.filter_sublist) (not_lt.mp hnot)
    let answers : Answers collate s :=
      { sortedAnswers collate s with raises := rows, orderedRaises := hrows }
    have hread : ChainTo i.severity (answers.escalationsOf i) := hreads answers i hi hunmerged
    have hba' : [b, a].Sublist (rows.filter fun row => row.incident = i.seq) := by
      have hboth := hba.filter fun row => row.incident = i.seq
      have ha := (List.mem_filter.mp (hab.subset (by simp : a ∈ [a, b]))).2
      have hb := (List.mem_filter.mp (hab.subset (by simp : b ∈ [a, b]))).2
      simpa [ha, hb] using hboth
    have hswapped : ∃ start, Chained start (rows.filter fun row => row.incident = i.seq)
        i.severity := by
      change ChainTo i.severity ((rows.filter fun row => row.incident = i.seq).map _) at hread
      cases hfilter : rows.filter fun row => row.incident = i.seq with
      | nil =>
        rw [hfilter] at hba'
        cases hba'
      | cons row rest =>
        rw [hfilter, chainTo_iff_chained] at hread
        exact ⟨_, hread⟩
    obtain ⟨start', hchain'⟩ := hswapped
    have hgrows' := pairwise_of_chained hchain' (hlisted hrows.perm)
    have hlt := List.pairwise_iff_forall_sublist.mp hgrows hab
    have hlt' := List.pairwise_iff_forall_sublist.mp hgrows' hba'
    omega
  · intro hinOrder answers i hi hunmerged
    obtain ⟨start, hchain⟩ := hkept.chained.chain i hi
    have hrows : answers.raises.filter (fun row => row.incident = i.seq) = s.raisesOf i :=
      (answers.orderedRaises.filter _).eq_of_strict (hinOrder i hi hunmerged)
    rw [Answers.escalationsOf, hrows]
    cases hraises : s.raisesOf i with
    | nil => simp [ChainTo]
    | cons row rest =>
      rw [hraises] at hchain
      obtain ⟨rfl, hrest⟩ := hchain
      exact chainTo_iff_chained.mpr ⟨rfl, hrest⟩

/-- Then so does every history loaded of it. -/
theorem Store.ReadsAsChain.history {answers : Answers collate s} {ctx : Context}
    (hreads : s.ReadsAsChain collate) {history : History}
    (hload : loadHistory answers ctx = some history) :
    ∀ h ∈ history.incidents, ChainTo h.severity h.escalations := by
  intro h hh
  obtain ⟨i, hi, hunmerged, hshown⟩ := exists_incident_of_history hload hh
  obtain ⟨-, hseverity, -, -, hescalations⟩ := shown_eq_some hshown
  rw [hseverity, hescalations]
  exact hreads answers i hi hunmerged

end Reading

/-! ## One ingest -/

section Ingest

variable {κ : Type*} [LinearOrder κ] {collate : String → κ} {call : IngestCall}
  {s settled s' : Store} {out : Regrouped} (h : call.Escalates s settled s' out)

include h

/-- Every raise is still one up. -/
private theorem raisesAscend_after (hascend : s.RaisesAscend) : s'.RaisesAscend := by
  intro row hrow
  rw [h.escalations] at hrow
  rcases List.mem_append.mp hrow with hold | hdue
  · exact hascend row hold
  · obtain ⟨i, -, hrow, -⟩ := Store.mem_raisesDue hdue
    exact level_lt_of_mem_raiseRows hrow

/-- The raises of an incident after the ingest: those there were, and those due. -/
private theorem raisesOf_after (i : Incident) : s'.raisesOf i = settled.raisesOf i ++
    (settled.raisesDue call.ctx (call.now s) call.runId).filter fun row => row.incident = i.seq := by
  rw [Store.raisesOf, Store.raisesOf, h.escalations, List.filter_append, h.escalations_eq]

/-- An unmerged incident of the settled store is there after the ingest, under its number. -/
private theorem exists_after_of_settled {i : Incident} (hi : i ∈ settled.incidents)
    (hunmerged : i.mergedInto = none) :
    ∃ j ∈ s'.incidents, j.seq = i.seq ∧ j.mergedInto = none := by
  obtain ⟨severityOf, hincidents⟩ := h.incidents
  rw [hincidents]
  exact ⟨_, List.mem_map_of_mem hi, rfl, hunmerged⟩

/-- And every unmerged incident after it is one of these. -/
private theorem exists_settled_of_after {j : Incident} (hj : j ∈ s'.incidents)
    (hunmerged : j.mergedInto = none) :
    ∃ i ∈ settled.incidents, i.seq = j.seq ∧ i.mergedInto = none := by
  obtain ⟨severityOf, hincidents⟩ := h.incidents
  rw [hincidents] at hj
  obtain ⟨i, hi, rfl⟩ := List.mem_map.mp hj
  exact ⟨i, hi, rfl, hunmerged⟩

/-- Recorded in order before the ingest, the raises of an unmerged incident are in order in the
settled store: a new incident has none. -/
private theorem pairwise_of_settled (hfit : s.RaisesFit)
    (hinOrder : ∀ i ∈ s.incidents, i.mergedInto = none →
      (s.raisesOf i).Pairwise fun a b => raiseKey collate a < raiseKey collate b)
    {i : Incident} (hi : i ∈ settled.incidents) (hunmerged : i.mergedInto = none) :
    (settled.raisesOf i).Pairwise fun a b => raiseKey collate a < raiseKey collate b := by
  obtain ⟨r, news, assignment, hingested, hsettled⟩ := h.ingested
  rw [Store.raisesOf, h.escalations_eq]
  rw [hsettled.incidents, hingested.incidents_eq] at hi
  rcases List.mem_append.mp hi with hi | hi
  · obtain ⟨k, hk, rfl⟩ := List.mem_map.mp hi
    rw [Regrouping.fate_same.seq]
    exact hinOrder k hk (Regrouping.fate_mergedInto.mp hunmerged).1
  · have hnone : s.escalations.filter (fun row => row.incident = i.seq) = [] := by
      rw [List.filter_eq_nil_iff]
      intro row hrow hincident
      rw [decide_eq_true_eq] at hincident
      apply (hsettled.isNew i hi).unused
      rw [hingested.incidents_eq, ← hincident]
      exact hfit.incident row hrow
    rw [hnone]
    exact .nil

/-- The raises of an incident looked at are in order after the ingest, if those there were are, and
exactly when those of now are and come after them. -/
private theorem pairwise_after_iff (hsound : s.Sound) {i : Incident}
    (hi : i ∈ settled.looked (call.now s))
    (hold : (settled.raisesOf i).Pairwise fun a b => raiseKey collate a < raiseKey collate b) :
    ((s'.raisesOf i).Pairwise fun a b => raiseKey collate a < raiseKey collate b) ↔
      (settled.raisingReasons call.ctx (call.now s) i).Pairwise
          (fun a b => collate a.text < collate b.text) ∧
        ∀ reason ∈ settled.raisingReasons call.ctx (call.now s) i, ∀ row ∈ settled.raisesOf i,
          row.time < call.now s ∨
            row.time = call.now s ∧ collate row.reason.text < collate reason.text := by
  rw [raisesOf_after h, Store.filter_raisesDue (h.numbered hsound) hi, List.pairwise_append,
    Store.raisingReasons_eq call.runId, List.pairwise_map]
  generalize hrows : raiseRows i.seq call.runId (call.now s)
    (reasonsFor call.ctx (call.now s) settled.escalations i) i.severity = rows
  have hrow : ∀ row ∈ rows, row.incident = i.seq ∧ row.time = call.now s := by
    intro row hrow
    obtain ⟨hincident, -, htime⟩ := mem_raiseRows (hrows ▸ hrow)
    exact ⟨hincident, htime⟩
  rw [and_iff_right hold]
  apply and_congr
  · apply List.Pairwise.iff_of_mem
    intro a b ha hb
    rw [raiseKey_lt_iff ((hrow a ha).1.trans (hrow b hb).1.symm), (hrow a ha).2, (hrow b hb).2]
    simp
  · constructor
    · intro hafter reason hreason row hrow'
      obtain ⟨new, hnew, rfl⟩ := List.mem_map.mp hreason
      have hincident : row.incident = i.seq := of_decide_eq_true (List.mem_filter.mp hrow').2
      have hlt := hafter row hrow' new hnew
      rwa [raiseKey_lt_iff (hincident.trans (hrow new hnew).1.symm), (hrow new hnew).2] at hlt
    · intro hafter row hrow' new hnew
      have hincident : row.incident = i.seq := of_decide_eq_true (List.mem_filter.mp hrow').2
      rw [raiseKey_lt_iff (hincident.trans (hrow new hnew).1.symm), (hrow new hnew).2]
      exact hafter new.reason (List.mem_map_of_mem hnew) row hrow'

/-- **One ingest**: the raises read as chains after it exactly when it raises in order. -/
theorem readsAsChain_after_iff (hkept : s.RaisesKept) (hkept' : s'.RaisesKept)
    (hascend : s.RaisesAscend) (hreads : s.ReadsAsChain collate) :
    s'.ReadsAsChain collate ↔ settled.RaisesInOrder collate call.ctx (call.now s) := by
  rw [readsAsChain_iff hkept hascend] at hreads
  rw [readsAsChain_iff hkept' (raisesAscend_after h hascend)]
  have hof : ∀ {i j : Incident}, i.seq = j.seq → s'.raisesOf i = s'.raisesOf j := by
    intro i j hseq
    rw [Store.raisesOf, Store.raisesOf, hseq]
  constructor
  · intro hafter i hi hopen hopened
    have hlooked : i ∈ settled.looked (call.now s) := Store.mem_looked.mpr ⟨hi, hopen, hopened⟩
    -- an open incident is not merged
    have hunmerged : i.mergedInto = none := by
      rw [Incident.isOpen, Bool.and_eq_true] at hopen
      exact Option.isNone_iff_eq_none.mp hopen.2
    obtain ⟨j, hj, hseq, hunmerged'⟩ := exists_after_of_settled h hi hunmerged
    apply (pairwise_after_iff h hkept.sound hlooked
      (pairwise_of_settled h hkept.fit hreads hi hunmerged)).mp
    rw [← hof hseq]
    exact hafter j hj hunmerged'
  · intro hcond j hj hunmerged
    obtain ⟨i, hi, hseq, hunmerged'⟩ := exists_settled_of_after h hj hunmerged
    have hold := pairwise_of_settled h hkept.fit hreads hi hunmerged'
    rw [← hof hseq]
    by_cases hlooked : i ∈ settled.looked (call.now s)
    · obtain ⟨-, hopen, hopened⟩ := Store.mem_looked.mp hlooked
      exact (pairwise_after_iff h hkept.sound hlooked hold).mpr (hcond i hi hopen hopened)
    · rw [raisesOf_after h,
        Store.filter_raisesDue_of_not_looked (h.numbered hkept.sound) hi hlooked, List.append_nil]
      exact hold

end Ingest

/-! ## In every run -/

/-- **When the escalation history reads as a chain**: after each of a sequence of ingests the raises
of every incident that is not merged, as a history lists them, lead to its severity, exactly when
each ingest raises in the order of the history. -/
theorem escalations_read_as_chain_iff {κ : Type*} [LinearOrder κ] (collate : String → κ)
    (calls : List IngestCall) :
    (∀ done, done <+: calls → (storeAfter done).ReadsAsChain collate) ↔
      Run deskStep (fun s call => call.RaisesInOrder collate s) {} calls (storeAfter calls) := by
  apply always_iff_of_escalates (J := Store.RaisesAscend) (P := fun s => s.ReadsAsChain collate)
    (Q := fun call now settled => settled.RaisesInOrder collate call.ctx now)
  · refine ⟨fun row hrow => absurd hrow List.not_mem_nil, ?_⟩
    exact fun answers i hi => absurd hi List.not_mem_nil
  · intro s call hkept hascend
    rcases call.after_cases hkept.sound hkept.fit with ⟨hsame, -⟩ | ⟨settled, out, -, h⟩
    · rw [hsame]
      exact hascend
    · exact raisesAscend_after h hascend
  · intro call s settled out hkept hascend hreads h
    exact readsAsChain_after_iff h hkept (hkept.after call) hascend hreads

/-- An incident at SEV3 may stay there for a day. -/
def overdueNight (runId id : String) (time : Timestamp) : IngestCall :=
  { closeNight runId id time with
    ctx := { (closeNight runId id time).ctx with
      policy := { (closeNight runId id time).ctx.policy with
        afterHours := fun severity => if severity = .sev3 then some 24 else none } } }

/-- The nights of 28 and 30 January, in which the first model fails. -/
def overdueAtMonthEnd : List IngestCall :=
  [overdueNight "night 1" "1" (Duration.hours (24 * 27)),
    overdueNight "night 2" "2" (Duration.hours (24 * 29))]

/-- In the second night its incident is overdue and reaches the finance team as its month-end close
begins: it is raised to SEV2 and on to SEV1, and the history lists the second raise first. -/
theorem escalations_out_of_order : ¬ (storeAfter overdueAtMonthEnd).ReadsAsChain id := by
  intro hreads
  have hnot : ¬ ∀ i ∈ (storeAfter overdueAtMonthEnd).incidents, i.mergedInto = none →
      ChainTo i.severity ((sortedAnswers id (storeAfter overdueAtMonthEnd)).escalationsOf i) := by
    decide +kernel
  exact hnot (hreads _)

end PlatformOps.Incidents
