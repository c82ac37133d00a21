import PlatformOps.Incidents.History
import PlatformOps.Incidents.Links

/-!
# The Run Table

The run table of the history counts, for each run, the incidents it opened and those it
resolved. It finds them by times: an incident was opened by the run of its earliest
link, and resolved by the runs first detected at the time it was resolved. Neither has
to be the run the desk recorded. An invocation that comes later moves its run's links
to its own time, resolves at its own time, and may bring the run's first time forward.

- `Store.RunsAddUp`: every incident is counted once, for the run that opened it and the
  run that resolved it.
- `Regrouping.OnTime`: what an ingest's time may not be.
- `run_table_adds_up_iff`: the first holds all along exactly when every ingest meets the
  second.
- `Store.RunsAddUp.sums`: then the columns of the table add up to the incidents there
  are, and the resolved ones.
-/

namespace PlatformOps.Incidents

open Metadata Listing Fallible Ordered Machine

/-! ## What adds up -/

namespace Store

variable (s : Store)

/-- Of all runs of the table, this one counts, and no other. -/
def CountedOnce (counts : String → Bool) (run : String) : Prop :=
  run ∈ s.runIds ∧ ∀ run' ∈ s.runIds, counts run' = true ↔ run' = run

/-- **The run table adds up**: whatever the queries answer, an incident that is not merged is counted
as opened for the run that opened it, as resolved for the run that resolved it, and for no other. -/
def RunsAddUp {κ : Type*} [LinearOrder κ] (collate : String → κ) : Prop :=
  ∀ answers : Answers collate s, ∀ i ∈ s.incidents, i.mergedInto = none →
    s.CountedOnce (fun run => openedIn run (answers.runIdsOf i)) i.openedByRun ∧
    ∀ resolution, i.resolved = some resolution →
      s.CountedOnce (fun run => resolvedWhen (s.runAt run) (some resolution.time)) resolution.byRun

/-- The run that opened an incident is linked to it before any other. -/
def OpenedFirst (i : Incident) : Prop :=
  ∀ link ∈ s.runLinks, ∀ link' ∈ s.runLinks, link.incident = i.seq → link'.incident = i.seq →
    link.runId = i.openedByRun → link'.runId ≠ i.openedByRun → link.time < link'.time

/-- Of all runs, the one that resolved an incident was first detected when it was resolved. -/
def ResolvedThen (i : Incident) : Prop :=
  ∀ resolution, i.resolved = some resolution →
    ∀ run ∈ s.runIds, s.runAt run = resolution.time ↔ run = resolution.byRun

/-- The runs incidents name have invocations. -/
structure RunsKnown : Prop where
  opened : ∀ i ∈ s.incidents, i.openedByRun ∈ s.runIds
  resolved : ∀ i ∈ s.incidents, ∀ resolution, i.resolved = some resolution →
    resolution.byRun ∈ s.runIds

theorem runsKnown_empty : RunsKnown {} := ⟨by simp, by simp⟩

end Store

/-- **The condition on a regrouping's time.** Its store has the artifacts recorded. -/
structure Regrouping.OnTime (r : Regrouping) : Prop where
  /-- It is before every link of another run to an incident the run opened and fails on again. -/
  reused : ∀ i ∈ r.mine, r.isReused i = true → ∀ link ∈ r.store.runLinks,
    link.incident = i.seq → link.runId ≠ r.runId → r.now < link.time
  /-- It is after the opening run's link to an incident that the run joins. -/
  joined : ∀ i ∈ r.before, r.isJoined i = true → ∀ link ∈ r.store.runLinks,
    link.incident = i.seq → link.runId = i.openedByRun → link.time < r.now
  /-- It is the run's first time, and no other run's, if it resolves an incident. -/
  resolved : ∀ i ∈ r.before, r.resolves i = true →
    ∀ run ∈ r.store.runIds, r.store.runAt run = r.now ↔ run = r.runId
  /-- The run's first time is the time of just those resolutions that are its own. -/
  standing : ∀ i ∈ r.store.incidents, i.mergedInto = none → (i ∈ r.mine → r.isReused i = true) →
    (i ∈ r.before → r.reopens i = false) → ∀ resolution, i.resolved = some resolution →
      (r.store.runAt r.runId = resolution.time ↔ r.runId = resolution.byRun)

/-! ## One store -/

section Reading

variable {κ : Type*} [LinearOrder κ] {collate : String → κ} {s : Store} {i : Incident}

theorem Answers.mem_linksOf {answers : Answers collate s} {link : RunLink} :
    link ∈ answers.linksOf i ↔ link ∈ s.runLinks ∧ link.incident = i.seq := by
  rw [linksOf, List.mem_filter, answers.orderedLinks.mem_iff, decide_eq_true_eq]

/-- Linked first, the opening run is the one the history takes for it. -/
private theorem openedIn_iff (hfirst : s.OpenedFirst i) {own : RunLink} (hown : own ∈ s.runLinks)
    (hincident : own.incident = i.seq) (hrun : own.runId = i.openedByRun)
    (answers : Answers collate s) (run : String) :
    openedIn run (answers.runIdsOf i) = true ↔ run = i.openedByRun := by
  have hmem : own ∈ answers.linksOf i := Answers.mem_linksOf.mpr ⟨hown, hincident⟩
  have hsorted := (answers.orderedLinks.filter fun link => link.incident = i.seq).sorted
  change (answers.linksOf i).Pairwise _ at hsorted
  unfold Answers.runIdsOf
  cases hlinks : answers.linksOf i with
  | nil =>
    rw [hlinks] at hmem
    cases hmem
  | cons first rest =>
    have hfirst' : first ∈ s.runLinks ∧ first.incident = i.seq :=
      Answers.mem_linksOf.mp (hlinks ▸ List.mem_cons_self ..)
    -- a link of another run in front would be no later than the opening run's
    have hopener : first.runId = i.openedByRun := by
      by_contra hother
      have hlt := hfirst own hown first hfirst'.1 hincident hfirst'.2 hrun hother
      rw [hlinks] at hmem hsorted
      rcases List.mem_cons.mp hmem with rfl | hrest
      · exact hother hrun
      · have hle := (List.pairwise_cons.mp hsorted).1 own hrest
        rw [linkKey, linkKey, Prod.Lex.toLex_le_toLex] at hle
        rcases hle with hle | ⟨heq, -⟩
        · exact absurd hlt (not_lt.mpr hle.le)
        · exact absurd hlt (not_lt.mpr heq.le)
    rw [← hopener]
    simp only [openedIn, List.map_cons, List.head?_cons, Option.some.injEq, Bool.and_eq_true,
      decide_eq_true_eq]
    constructor
    · rintro ⟨-, heq⟩
      exact heq.symm
    · rintro rfl
      exact ⟨List.mem_cons_self .., rfl⟩

/-- Taken for the opening run whatever the queries answer, a run is linked first. -/
private theorem openedFirst_of_openedIn (collate : String → κ)
    (hkeys : (s.runLinks.map fun link => (link.incident, link.runId)).Nodup)
    (hcounted : ∀ answers : Answers collate s,
      openedIn i.openedByRun (answers.runIdsOf i) = true) : s.OpenedFirst i := by
  intro link hlink link' hlink' hincident hincident' hrun hrun'
  by_contra hnot
  have hne : link ≠ link' := by
    rintro rfl
    exact hrun' hrun
  have hkey : linkKey collate link' ≤ linkKey collate link := by
    rw [linkKey, linkKey, hincident, hincident', Prod.Lex.toLex_le_toLex]
    rcases (not_lt.mp hnot).lt_or_eq with hlt | heq
    · exact Or.inl hlt
    · exact Or.inr ⟨heq, le_refl _⟩
  -- some answer has the other run's link first
  obtain ⟨links, hlinks, hlisted⟩ := exists_orderedBy_before hlink hlink' hne hkey
  let answers : Answers collate s :=
    { sortedAnswers collate s with links := links, orderedLinks := hlinks }
  have hopened := hcounted answers
  have hlisted' : [link', link].Sublist (answers.linksOf i) := by
    have hboth := hlisted.filter fun link => link.incident = i.seq
    change [link', link].Sublist (links.filter fun link => link.incident = i.seq)
    simpa [hincident, hincident'] using hboth
  have hnodup : (answers.linksOf i).Nodup := by
    have hrows : s.runLinks.Nodup := List.Nodup.of_map _ hkeys
    exact (hlinks.perm.nodup_iff.mpr hrows).filter _
  unfold Answers.runIdsOf at hopened
  cases hlist : answers.linksOf i with
  | nil =>
    rw [hlist] at hlisted'
    cases hlisted'
  | cons first rest =>
    have hfirst : first ∈ s.runLinks ∧ first.incident = i.seq :=
      Answers.mem_linksOf.mp (hlist ▸ List.mem_cons_self ..)
    rw [hlist] at hopened hlisted' hnodup
    simp only [openedIn, List.map_cons, List.head?_cons, Option.some.injEq, Bool.and_eq_true,
      decide_eq_true_eq] at hopened
    obtain rfl : first = link := by
      apply List.inj_on_of_nodup_map hkeys hfirst.1 hlink
      rw [hfirst.2, hincident, hopened.2, hrun]
    rcases List.sublist_cons_iff.mp hlisted' with hrest | ⟨_, heq, -⟩
    · exact (List.nodup_cons.mp hnodup).1 (hrest.subset (by simp))
    · exact hne (List.cons.inj heq).1.symm

/-- **Reading a store**: its run table adds up exactly when every incident that is not merged is
linked to its opening run first, and was resolved when its resolving run was first detected. -/
theorem runsAddUp_iff (hlinked : s.Linked) (hknown : s.RunsKnown) :
    s.RunsAddUp collate ↔ ∀ i ∈ s.incidents, i.mergedInto = none →
      s.OpenedFirst i ∧ s.ResolvedThen i := by
  have hresolved : ∀ {resolution : Resolution} {run : String},
      resolvedWhen (s.runAt run) (some resolution.time) = true ↔
        s.runAt run = resolution.time := by
    intro resolution run
    rw [resolvedWhen, decide_eq_true_eq, Option.some.injEq, eq_comm]
  constructor
  · intro hadds i hi hunmerged
    constructor
    · -- a tie of the links may be answered either way, and neither may hide the opening run
      apply openedFirst_of_openedIn collate hlinked.keys
      intro answers
      obtain ⟨hmem, hcounts⟩ := (hadds answers i hi hunmerged).1
      exact (hcounts _ hmem).mpr rfl
    · intro resolution hres run hrun
      rw [← hresolved]
      exact ((hadds (sortedAnswers collate s) i hi hunmerged).2 resolution hres).2 run hrun
  · intro hall answers i hi hunmerged
    obtain ⟨hfirst, hthen⟩ := hall i hi hunmerged
    obtain ⟨own, hown, hincident, hrun⟩ := hlinked.opened i hi hunmerged
    refine ⟨⟨hknown.opened i hi, ?_⟩, fun resolution hres =>
      ⟨hknown.resolved i hi resolution hres, ?_⟩⟩
    · -- every unmerged incident has a link of the run that opened it
      exact fun run _ => openedIn_iff hfirst hown hincident hrun answers run
    · intro run hrun'
      rw [hresolved]
      exact hthen resolution hres run hrun'

end Reading

/-! ## The columns of the table -/

/-- Columns that count each item of a kind in one row add up to the items of that kind. -/
private theorem sum_countP {ρ α : Type*} {rows : List ρ} {items : List α} {p : ρ → α → Bool}
    {q : α → Bool} (hone : ∀ a ∈ items, (rows.countP fun row => p row a) = if q a then 1 else 0) :
    (rows.map fun row => items.countP (p row)).sum = items.countP q := by
  induction items with
  | nil => simp
  | cons a rest ih =>
    have hrest := ih fun b hb => hone b (List.mem_cons_of_mem _ hb)
    have hfirst := hone a (List.mem_cons_self ..)
    have hcolumn : ∀ rows : List ρ, (rows.map fun row => (a :: rest).countP (p row)).sum =
        (rows.map fun row => rest.countP (p row)).sum + rows.countP fun row => p row a := by
      intro rows
      induction rows with
      | nil => rfl
      | cons row more ihrows =>
        simp only [List.map_cons, List.sum_cons, List.countP_cons] at ihrows ⊢
        omega
    rw [hcolumn, hrest, hfirst, List.countP_cons]

section Sums

variable {κ : Type*} [LinearOrder κ] {collate : String → κ} {s : Store}
  {answers : Answers collate s}

/-- Counted once, an item is in one line of the table. -/
private theorem countP_of_countedOnce {counts : String → Bool} {run : String}
    (h : s.CountedOnce counts run) : answers.runs.countP counts = 1 := by
  have hperm := answers.orderedRuns.perm
  have hnodup : answers.runs.Nodup := hperm.nodup_iff.mpr (List.nodup_dedup _)
  have hcongr : answers.runs.countP counts = answers.runs.countP fun run' => run' == run := by
    apply List.countP_congr
    intro run' hrun'
    rw [h.2 run' (hperm.mem_iff.mp hrun'), beq_iff_eq]
  rw [hcongr]
  exact List.count_eq_one_of_mem hnodup (hperm.mem_iff.mpr h.1)

/-- **The columns add up**: the runs of the table opened as many incidents as the history has, and
resolved as many as are resolved. -/
theorem Store.RunsAddUp.sums (hadds : s.RunsAddUp collate) {ctx : Context} {history : History}
    (hload : loadHistory answers ctx = some history) :
    (history.runs.map RunRecord.opened).sum = history.incidents.length ∧
      (history.runs.map RunRecord.resolved).sum =
        history.incidents.countP fun i => i.resolvedAt.isSome := by
  rw [loadHistory_runs hload, List.map_map, List.map_map]
  constructor
  · show (answers.runs.map fun run => history.incidents.countP fun i => openedIn run i.runIds).sum =
      history.incidents.length
    rw [sum_countP (q := fun _ => true), List.countP_true]
    intro h hh
    obtain ⟨i, hi, hunmerged, hshown⟩ := exists_incident_of_history hload hh
    obtain ⟨-, -, hruns, -, -⟩ := shown_eq_some hshown
    rw [hruns]
    exact countP_of_countedOnce (hadds answers i hi hunmerged).1
  · show (answers.runs.map fun run => history.incidents.countP fun i =>
      resolvedWhen (s.runAt run) i.resolvedAt).sum = _
    apply sum_countP
    intro h hh
    obtain ⟨i, hi, hunmerged, hshown⟩ := exists_incident_of_history hload hh
    obtain ⟨-, -, -, hresolvedAt, -⟩ := shown_eq_some hshown
    rw [hresolvedAt]
    cases hres : i.resolved with
    | none => simp [resolvedWhen]
    | some resolution =>
      exact countP_of_countedOnce ((hadds answers i hi hunmerged).2 resolution hres)

end Sums

/-! ## What an ingest writes -/

/-- The row of an artifact's invocation. -/
def invocationRow (nodes : Manifest) (runId : String) (detected : Option Timestamp)
    (artifact : Artifact) : InvocationRow :=
  ⟨artifact.invocationId, runId, artifact.kind, timeOf detected artifact,
    (parse artifact nodes runId (timeOf detected artifact)).checksRun⟩

/-- Recording adds the rows of the invocations. -/
private theorem record_invocations (ctx : Context) (runId : String) (detected : Option Timestamp)
    (artifacts : List Artifact) (s : Store) :
    Ends (artifacts.foldlM (record ctx runId detected) s) (fun _ => True) fun s' =>
      s'.invocations = s.invocations ++ artifacts.map (invocationRow ctx.nodes runId detected) := by
  refine Ends.foldlM (I := fun done (s' : Store) => s'.invocations =
    s.invocations ++ done.map (invocationRow ctx.nodes runId detected)) (by simp) ?_
  intro done a rest s' _ hrows
  rw [record]
  split
  · trivial
  · rw [ends_ok]
    show s'.invocations ++ [invocationRow ctx.nodes runId detected a] = _
    rw [hrows]
    simp

section Ingest

variable {call : IngestCall} {s s' : Store} {r : Regrouping} {news : List Incident}
  {assignment : List (String × ℕ)} {out : Regrouped}
  (h : call.Ingested s r news assignment s' out)

include h

/-- The invocations after an ingest. -/
theorem IngestCall.Ingested.invocations_eq : r.store.invocations = s.invocations ++
    (call.fresh s).map (invocationRow call.ctx.nodes call.runId call.detected) := by
  have hr := h.reaches
  rw [regrouping, bind_eq_ok] at hr
  obtain ⟨recorded, hrecorded, hr⟩ := hr
  rw [bind_eq_ok] at hr
  obtain ⟨facts, -, hr⟩ := hr
  obtain rfl := Except.ok.inj hr
  exact (record_invocations _ _ _ _ _).returned hrecorded

/-- Other runs have the invocations they had. -/
private theorem invocationsOf_of_ne {run : String} (hrun : run ≠ r.runId) :
    r.store.invocationsOf run = s.invocationsOf run := by
  have hnone : ((call.fresh s).map (invocationRow call.ctx.nodes call.runId call.detected)).filter
      (fun row => row.runId = run) = [] := by
    rw [List.filter_eq_nil_iff]
    intro row hrow hrun'
    obtain ⟨_, -, rfl⟩ := List.mem_map.mp hrow
    rw [h.reached.runId] at hrun
    exact hrun (of_decide_eq_true hrun').symm
  rw [Store.invocationsOf, h.invocations_eq, List.filter_append, hnone, List.append_nil]
  rfl

private theorem runAt_of_ne {run : String} (hrun : run ≠ r.runId) :
    r.store.runAt run = s.runAt run := by
  rw [Store.runAt, invocationsOf_of_ne h hrun]
  rfl

/-- The runs are those there were, and the ingest's. -/
private theorem mem_runIds_iff (hfresh : call.fresh s ≠ []) {run : String} :
    run ∈ r.store.runIds ↔ run ∈ s.runIds ∨ run = r.runId := by
  simp only [Store.mem_runIds, h.invocations_eq, List.mem_append, List.mem_map]
  rw [h.reached.runId]
  constructor
  · rintro ⟨row, hrow | ⟨_, -, rfl⟩, rfl⟩
    · exact Or.inl ⟨row, hrow, rfl⟩
    · exact Or.inr rfl
  · rintro (⟨row, hrow, hrun⟩ | rfl)
    · exact ⟨row, Or.inl hrow, hrun⟩
    · obtain ⟨a, ha⟩ := List.exists_mem_of_ne_nil _ hfresh
      exact ⟨_, Or.inr ⟨a, ha, rfl⟩, rfl⟩

/-- The table after an ingest lists the recorded runs, at their recorded times. -/
private theorem runAt_after (run : String) : s'.runAt run = r.store.runAt run := by
  rw [Store.runAt, Store.runAt, Store.invocationsOf, Store.invocationsOf, h.invocations]

private theorem mem_runIds_after {run : String} : run ∈ s'.runIds ↔ run ∈ r.store.runIds := by
  rw [Store.mem_runIds, Store.mem_runIds, h.invocations]

omit h in
/-- What an incident's resolution becomes. -/
private theorem fate_resolved {i : Incident} (hbefore : i ∈ r.before) :
    (r.fate (r.into assignment) i).resolved =
      if r.resolves i then some ⟨r.now, r.runId⟩
      else if r.reopens i then none else i.resolved := by
  rw [Regrouping.fate_of_mem_before hbefore]
  unfold Regrouping.resolves Regrouping.reopens
  cases hjoined : r.isJoined i with
  | true =>
    -- joined, the incident is at most reopened
    have hjoined' : r.joinedIn r.facts.groups i = true := hjoined
    by_cases hrun : i.resolvedByRun = some r.runId
    · simp [Regrouping.afterAssign, hrun, hjoined']
    · simp [Regrouping.afterAssign, hrun]
  | false =>
    cases hhealthy : r.isHealthy i with
    | true => by_cases hrun : i.resolvedByRun = some r.runId <;>
        simp [Regrouping.afterResolve, hhealthy, hrun]
    | false => by_cases hrun : i.resolvedByRun = some r.runId <;>
        simp [Regrouping.afterResolve, hhealthy, hrun]

omit h in
/-- Of an incident that is not an earlier one it stays. -/
private theorem fate_resolved_of_not_before {i : Incident} (hbefore : i ∉ r.before) :
    (r.fate (r.into assignment) i).resolved = i.resolved := by
  by_cases hmerged : i ∈ r.mine ∧ r.isReused i = false
  · simp [Regrouping.fate, Regrouping.afterResolution, hbefore, Regrouping.afterMerge, hmerged]
  · rw [Regrouping.fate_of_not_mem_before hbefore hmerged]

/-- **The runs are known** after every ingest. -/
private theorem runsKnown_after (hfresh : call.fresh s ≠ []) (hknown : s.RunsKnown) :
    s'.RunsKnown := by
  have hrun : r.runId ∈ s'.runIds :=
    (mem_runIds_after h).mpr ((mem_runIds_iff h hfresh).mpr (Or.inr rfl))
  have hkept : ∀ {run : String}, run ∈ s.runIds → run ∈ s'.runIds := by
    intro run hrun
    exact (mem_runIds_after h).mpr ((mem_runIds_iff h hfresh).mpr (Or.inl hrun))
  constructor
  · intro x hx
    obtain ⟨y, hy, halike⟩ := h.exists_before hx
    rw [halike.openedByRun]
    rcases List.mem_append.mp hy with hy | hy
    · obtain ⟨i, hi, rfl⟩ := List.mem_map.mp hy
      rw [Regrouping.fate_same.openedByRun]
      exact hkept (hknown.opened i hi)
    · rwa [(h.isNew y hy).openedByRun]
  · intro x hx resolution hres
    obtain ⟨y, hy, halike⟩ := h.exists_before hx
    rw [halike.resolved] at hres
    rcases List.mem_append.mp hy with hy | hy
    · obtain ⟨i, hi, rfl⟩ := List.mem_map.mp hy
      by_cases hbefore : i ∈ r.before
      · rw [fate_resolved hbefore] at hres
        split at hres
        · cases hres
          exact hrun
        · split at hres
          · cases hres
          · exact hkept (hknown.resolved i hi resolution hres)
      · rw [fate_resolved_of_not_before hbefore] at hres
        exact hkept (hknown.resolved i hi resolution hres)
    · rw [(h.isNew y hy).resolved] at hres
      cases hres

/-- An incident that is not merged by the ingest is there after it, not merged. -/
private theorem exists_unmerged_after {i : Incident} (hi : i ∈ s.incidents)
    (hnone : i.mergedInto = none) (hreused : i ∈ r.mine → r.isReused i = true) :
    ∃ x ∈ s'.incidents, x.Alike (r.fate (r.into assignment) i) ∧ x.mergedInto = none := by
  obtain ⟨x, hx, halike⟩ := h.exists_after (List.mem_append_left _ (List.mem_map_of_mem hi))
  refine ⟨x, hx, halike, halike.mergedInto.trans (Regrouping.fate_mergedInto.mpr ⟨hnone, ?_⟩)⟩
  rintro ⟨hmine, hnot⟩
  rw [hreused hmine] at hnot
  cases hnot

/-! ## Who is linked first -/

/-- A new incident is linked to no other run. -/
private theorem openedFirst_of_new (hlinked : s.Linked) {x n : Incident} (hn : n ∈ news)
    (halike : x.Alike n) : s'.OpenedFirst x := by
  intro link _ link' hlink' _ hincident' _ hrun'
  exfalso
  rw [halike.openedByRun, (h.isNew n hn).openedByRun] at hrun'
  apply (h.isNew n hn).unused
  rw [h.incidents_eq, ← halike.seq, ← hincident']
  exact hlinked.known link' ((h.mem_runLinks_of_ne hrun').mp hlink')

/-- An incident of the run's own is linked first to it at the time of the ingest, or not. -/
private theorem openedFirst_iff_of_reused {x i : Incident} (hi : i ∈ r.mine)
    (hreused : r.isReused i = true) (hseq : x.seq = i.seq)
    (hopened : x.openedByRun = i.openedByRun) :
    s'.OpenedFirst x ↔ ∀ link ∈ s.runLinks, link.incident = i.seq → link.runId ≠ r.runId →
      r.now < link.time := by
  have hrun : i.openedByRun = r.runId := (Regrouping.mem_mine.mp hi).2.2
  -- the run's old links go, and its new one has the time of the ingest
  unfold Store.OpenedFirst
  rw [hseq, hopened, hrun]
  constructor
  · intro hfirst link hlink hincident hother
    obtain ⟨g, hg, hreuses⟩ := Regrouping.isReused_eq_true.mp hreused
    obtain ⟨own, hown, hincident', hrun', htime⟩ :=
      h.exists_link_of_place hg (IngestCall.Ingested.place_of_reuses hreuses)
    rw [← htime]
    exact hfirst own hown link ((h.mem_runLinks_of_ne hother).mpr hlink) hincident' hincident hrun'
      hother
  · intro hbefore link hlink link' hlink' _ hincident' hrun' hother
    rw [(h.exists_place_of_link hlink hrun').1]
    exact hbefore link' ((h.mem_runLinks_of_ne hother).mp hlink') hincident' hother

/-- The run is linked to another run's incident just if it joins it. -/
private theorem isJoined_of_link (hsound : s.Sound) {i : Incident} (hi : i ∈ s.incidents)
    (hother : i.openedByRun ≠ r.runId) {link : RunLink} (hlink : link ∈ s'.runLinks)
    (hrun : link.runId = r.runId) (hincident : link.incident = i.seq) : r.isJoined i = true := by
  obtain ⟨-, g, hg, j, hplace, hseq⟩ := h.exists_place_of_link hlink hrun
  -- numbers are never given twice, so the link's incident is this one
  rw [hincident] at hseq
  have hsame : ∀ k ∈ r.store.incidents, i.seq = k.seq → k = i := by
    intro k hk heq
    rw [h.incidents_eq] at hk
    exact hsound.numbered.eq_of_seq hk hi heq.symm
  rw [Regrouping.place, Option.or_eq_some_iff] at hplace
  rcases hplace with hjoins | ⟨-, hfind⟩
  · have hbefore := Regrouping.mem_before.mp (Regrouping.mem_before_of_joins hjoins)
    obtain rfl := hsame j hbefore.1 hseq
    exact Regrouping.isJoined_eq_true.mpr ⟨g, hg, hjoins⟩
  · rcases List.mem_append.mp (List.mem_of_find?_eq_some hfind) with hmine | hnew
    · obtain ⟨hmem, -, hrun'⟩ := Regrouping.mem_mine.mp hmine
      exact absurd (hsame j hmem hseq ▸ hrun') hother
    · apply absurd _ (h.isNew j hnew).unused
      rw [h.incidents_eq, ← hseq]
      exact List.mem_map_of_mem hi

/-- Another run's incident stays linked first to that run, unless this one joins it too early. -/
private theorem openedFirst_iff_of_other (hsound : s.Sound) {x i : Incident}
    (hi : i ∈ s.incidents) (hother : i.openedByRun ≠ r.runId) (hfirst : s.OpenedFirst i)
    (hseq : x.seq = i.seq) (hopened : x.openedByRun = i.openedByRun) :
    s'.OpenedFirst x ↔ (r.isJoined i = true → ∀ link ∈ s.runLinks, link.incident = i.seq →
      link.runId = i.openedByRun → link.time < r.now) := by
  unfold Store.OpenedFirst
  rw [hseq, hopened]
  constructor
  · intro hfirst' hjoined link hlink hincident hrun
    obtain ⟨g, hg, hjoins⟩ := Regrouping.isJoined_eq_true.mp hjoined
    have hplace : r.place news g = some i := by
      rw [Regrouping.place, hjoins, Option.some_or]
    obtain ⟨own, hown, hincident', hrun', htime⟩ := h.exists_link_of_place hg hplace
    rw [← htime]
    apply hfirst' link _ own hown hincident hincident' hrun
    · rw [hrun']
      exact Ne.symm hother
    · exact (h.mem_runLinks_of_ne (hrun ▸ hother)).mpr hlink
  · intro hjoined link hlink link' hlink' hincident hincident' hrun hrun'
    -- the opening run's link is an old one; only this run's may be new
    have hold := (h.mem_runLinks_of_ne (hrun ▸ hother)).mp hlink
    by_cases hown : link'.runId = r.runId
    · rw [(h.exists_place_of_link hlink' hown).1]
      exact hjoined (isJoined_of_link h hsound hi hother hlink' hown hincident') link hold hincident
        hrun
    · exact hfirst link hold link' ((h.mem_runLinks_of_ne hown).mp hlink') hincident hincident'
        hrun hrun'

/-! ## Who resolved what -/

/-- A resolution by the ingest is at the run's time. -/
private theorem resolvedThen_iff_of_resolves {x : Incident}
    (hres : x.resolved = some ⟨r.now, r.runId⟩) : s'.ResolvedThen x ↔
      ∀ run ∈ r.store.runIds, r.store.runAt run = r.now ↔ run = r.runId := by
  unfold Store.ResolvedThen
  rw [hres]
  simp only [Option.some.injEq, forall_eq', mem_runIds_after h, runAt_after h]

/-- A resolution that stands is compared with the time of the ingest's run. -/
private theorem resolvedThen_iff_of_kept (hfresh : call.fresh s ≠ []) {x i : Incident}
    (hthen : s.ResolvedThen i) (hkept : x.resolved = i.resolved) : s'.ResolvedThen x ↔
      ∀ resolution, i.resolved = some resolution →
        (r.store.runAt r.runId = resolution.time ↔ r.runId = resolution.byRun) := by
  unfold Store.ResolvedThen
  rw [hkept]
  apply forall₂_congr
  intro resolution hres
  -- of all runs only this one's first time can have changed
  simp only [mem_runIds_after h, runAt_after h]
  constructor
  · intro hall
    exact hall r.runId ((mem_runIds_iff h hfresh).mpr (Or.inr rfl))
  · intro hown run hrun
    by_cases heq : run = r.runId
    · rw [heq]
      exact hown
    · rw [runAt_of_ne h heq]
      exact hthen resolution hres run (((mem_runIds_iff h hfresh).mp hrun).resolve_right heq)

/-! ## One ingest -/

omit h in
private theorem same_of_alike {x i : Incident} (halike : x.Alike (r.fate (r.into assignment) i)) :
    x.seq = i.seq ∧ x.openedByRun = i.openedByRun :=
  ⟨halike.seq.trans Regrouping.fate_same.seq,
    halike.openedByRun.trans Regrouping.fate_same.openedByRun⟩

/-- If the table adds up after an ingest, the ingest was on time. -/
private theorem onTime_of_adds_up (hsound : s.Sound) (hfresh : call.fresh s ≠ [])
    (hadds : ∀ i ∈ s.incidents, i.mergedInto = none → s.OpenedFirst i ∧ s.ResolvedThen i) :
    (∀ x ∈ s'.incidents, x.mergedInto = none → s'.OpenedFirst x ∧ s'.ResolvedThen x) →
      r.OnTime := by
  have hlinks : r.store.runLinks = s.runLinks := h.reached.recorded.runLinks
  intro hafter
  constructor
  · -- the run's own incidents that it fails on again
    intro i hi hreused
    obtain ⟨hmem, hnone, -⟩ := Regrouping.mem_mine.mp hi
    rw [h.incidents_eq] at hmem
    obtain ⟨x, hx, halike, hunmerged⟩ := exists_unmerged_after h hmem hnone fun _ => hreused
    obtain ⟨hseq, hopened⟩ := same_of_alike halike
    rw [hlinks]
    exact (openedFirst_iff_of_reused h hi hreused hseq hopened).mp (hafter x hx hunmerged).1
  · -- the earlier ones that it joins
    intro i hi hjoined
    obtain ⟨hmem, hnone, hother, -⟩ := Regrouping.mem_before.mp hi
    rw [h.incidents_eq] at hmem
    obtain ⟨x, hx, halike, hunmerged⟩ := exists_unmerged_after h hmem hnone
      fun hmine => absurd hmine (Regrouping.not_mem_mine_of_mem_before hi)
    obtain ⟨hseq, hopened⟩ := same_of_alike halike
    rw [hlinks]
    exact (openedFirst_iff_of_other h hsound hmem hother (hadds i hmem hnone).1 hseq hopened).mp
      (hafter x hx hunmerged).1 hjoined
  · -- those that it resolves
    intro i hi hresolves
    obtain ⟨hmem, hnone, -⟩ := Regrouping.mem_before.mp hi
    rw [h.incidents_eq] at hmem
    obtain ⟨x, hx, halike, hunmerged⟩ := exists_unmerged_after h hmem hnone
      fun hmine => absurd hmine (Regrouping.not_mem_mine_of_mem_before hi)
    apply (resolvedThen_iff_of_resolves h _).mp (hafter x hx hunmerged).2
    rw [halike.resolved, fate_resolved hi, if_pos hresolves]
  · -- and the resolutions it leaves alone
    intro i hi hnone hreused hreopens resolution hres
    rw [h.incidents_eq] at hi
    obtain ⟨x, hx, halike, hunmerged⟩ := exists_unmerged_after h hi hnone hreused
    have hkept : x.resolved = i.resolved := by
      rw [halike.resolved]
      by_cases hbefore : i ∈ r.before
      · -- an earlier incident with a resolution has it from this run
        have hresolves : r.resolves i = false := by
          have hrun := (Regrouping.mem_before.mp hbefore).2.2.2.2.resolve_left (by simp [hres])
          simp [Regrouping.resolves, hrun]
        rw [fate_resolved hbefore, hresolves, hreopens hbefore]
        rfl
      · exact fate_resolved_of_not_before hbefore
    exact (resolvedThen_iff_of_kept h hfresh (hadds i hi hnone).2 hkept).mp
      (hafter x hx hunmerged).2 resolution hres

/-- An ingest that is on time leaves a table that adds up. -/
private theorem adds_up_of_onTime (hsound : s.Sound) (hlinked : s.Linked)
    (hfresh : call.fresh s ≠ [])
    (hadds : ∀ i ∈ s.incidents, i.mergedInto = none → s.OpenedFirst i ∧ s.ResolvedThen i) :
    r.OnTime →
      ∀ x ∈ s'.incidents, x.mergedInto = none → s'.OpenedFirst x ∧ s'.ResolvedThen x := by
  have hlinks : r.store.runLinks = s.runLinks := h.reached.recorded.runLinks
  intro htime x hx hunmerged
  rcases h.unmerged_cases hx hunmerged with ⟨n, hn, halike⟩ | ⟨i, hi, halike, hnone, hown⟩
  · refine ⟨openedFirst_of_new h hlinked hn halike, fun resolution hres => ?_⟩
    rw [halike.resolved, (h.isNew n hn).resolved] at hres
    cases hres
  · obtain ⟨hseq, hopened⟩ := same_of_alike halike
    obtain ⟨hfirst, hthen⟩ := hadds i hi hnone
    constructor
    · by_cases hrun : i.openedByRun = r.runId
      · obtain ⟨hmine, hreused⟩ := hown hrun
        rw [openedFirst_iff_of_reused h hmine hreused hseq hopened, ← hlinks]
        exact htime.reused i hmine hreused
      · rw [openedFirst_iff_of_other h hsound hi hrun hfirst hseq hopened, ← hlinks]
        intro hjoined
        obtain ⟨g, -, hjoins⟩ := Regrouping.isJoined_eq_true.mp hjoined
        exact htime.joined i (Regrouping.mem_before_of_joins hjoins) hjoined
    · have hstands : ∀ (hkept : x.resolved = i.resolved)
          (hreopens : i ∈ r.before → r.reopens i = false), s'.ResolvedThen x := by
        intro hkept hreopens
        rw [resolvedThen_iff_of_kept h hfresh hthen hkept]
        apply htime.standing i (h.incidents_eq ▸ hi) hnone _ hreopens
        exact fun hmine => (hown (Regrouping.mem_mine.mp hmine).2.2).2
      by_cases hbefore : i ∈ r.before
      · have hres := halike.resolved
        rw [fate_resolved hbefore] at hres
        split at hres
        · rename_i hresolves
          exact (resolvedThen_iff_of_resolves h hres).mpr (htime.resolved i hbefore hresolves)
        · split at hres
          · -- reopened, it has no resolution
            intro resolution hres'
            rw [hres] at hres'
            cases hres'
          · rename_i hreopens
            exact hstands hres fun _ => Bool.eq_false_iff.mpr hreopens
      · apply hstands _ fun hbefore' => absurd hbefore' hbefore
        rw [halike.resolved]
        exact fate_resolved_of_not_before hbefore

/-- **One ingest**: the table adds up after it exactly when it is on time. -/
private theorem adds_up_after_iff (hsound : s.Sound) (hlinked : s.Linked)
    (hfresh : call.fresh s ≠ [])
    (hadds : ∀ i ∈ s.incidents, i.mergedInto = none → s.OpenedFirst i ∧ s.ResolvedThen i) :
    (∀ x ∈ s'.incidents, x.mergedInto = none → s'.OpenedFirst x ∧ s'.ResolvedThen x) ↔
      r.OnTime :=
  ⟨onTime_of_adds_up h hsound hfresh hadds, adds_up_of_onTime h hsound hlinked hfresh hadds⟩

end Ingest

/-! ## In every run -/

/-- **When the run table adds up**: after each of a sequence of ingests every incident that is not
merged is counted as opened for the run that opened it and as resolved for the run that resolved it,
and for no other, exactly when every ingest that completes is on time. -/
theorem run_table_adds_up_iff {κ : Type*} [LinearOrder κ] (collate : String → κ)
    (calls : List IngestCall) :
    (∀ done, done <+: calls → (storeAfter done).RunsAddUp collate) ↔
      Run deskStep (fun s call => ∀ r, call.Completes s r → r.OnTime) {} calls
        (storeAfter calls) := by
  apply always_iff_of_ingested (J := fun s => s.Linked ∧ s.RunsKnown)
    (P := fun s => s.RunsAddUp collate)
  · exact ⟨⟨Store.linked_empty, Store.runsKnown_empty⟩,
      fun answers i hi => absurd hi List.not_mem_nil⟩
  · rintro call s s' r news assignment out - - ⟨hlinked, hknown⟩ hfresh h
    exact ⟨h.linked hlinked, runsKnown_after h hfresh hknown⟩
  · rintro call s s' r news assignment out - hsound ⟨hlinked, hknown⟩ hadds hfresh h
    rw [runsAddUp_iff hlinked hknown] at hadds
    rw [runsAddUp_iff (h.linked hlinked) (runsKnown_after h hfresh hknown)]
    exact adds_up_after_iff h hsound hlinked hfresh hadds

/-- The second night finds the failed model healthy in the later of its two invocations. -/
def lateResolution : List IngestCall :=
  [invocationOf "night 1" "1" 10 [("model.a", "error")],
    invocationOf "night 2" "2" 20 [("model.b", "success")],
    invocationOf "night 2" "3" 30 [("model.a", "success")]]

/-- The first night's later invocation comes in after the second night has failed as well. -/
def lateInvocation : List IngestCall :=
  [invocationOf "night 1" "1" 10 [("model.a", "error")],
    invocationOf "night 2" "2" 20 [("model.a", "error")],
    invocationOf "night 1" "3" 30 [("model.b", "error")]]

/-- Resolved at 30 by a run first detected at 20, the incident is resolved by no run of the table;
linked to its own run at 30 and to the next one at 20, it is opened by the wrong one. -/
theorem run_table_off :
    ¬ (storeAfter lateResolution).RunsAddUp id ∧ ¬ (storeAfter lateInvocation).RunsAddUp id := by
  constructor
  · intro hadds
    have hres : ∃ i ∈ (storeAfter lateResolution).incidents, i.mergedInto = none ∧
        i.resolved = some ⟨30, "night 2"⟩ ∧
        resolvedWhen ((storeAfter lateResolution).runAt "night 2") (some 30) = false := by
      decide +kernel
    obtain ⟨i, hi, hunmerged, hres, hnot⟩ := hres
    obtain ⟨hmem, hcounts⟩ := (hadds (sortedAnswers id _) i hi hunmerged).2 _ hres
    have hcounted := (hcounts _ hmem).mpr rfl
    simp [hnot] at hcounted
  · intro hadds
    have hopened : ∃ i ∈ (storeAfter lateInvocation).incidents, i.mergedInto = none ∧
        openedIn i.openedByRun
          ((sortedAnswers id (storeAfter lateInvocation)).runIdsOf i) = false := by
      decide +kernel
    obtain ⟨i, hi, hunmerged, hnot⟩ := hopened
    obtain ⟨hmem, hcounts⟩ := (hadds (sortedAnswers id _) i hi hunmerged).1
    have hcounted := (hcounts _ hmem).mpr rfl
    simp [hnot] at hcounted

end PlatformOps.Incidents
