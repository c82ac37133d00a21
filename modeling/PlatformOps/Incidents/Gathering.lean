import PlatformOps.Incidents.Observed

/-!
# What Has Arrived of a Run

A run's invocations come in one ingest after another, and each ingest regroups the
whole run. Whatever the earlier ones opened, merged or resolved, what the store has
gathered of the run is a function of the invocations that arrived (`Gathered`):

- the run's result rows and failing checks are theirs;
- every incident that was there before the run is still there, and is in the hands
  of the run at most as far as its resolution goes (`Kept`);
- the run's own incidents are on roots that no earlier open incident is on.

Two regroupings over the same invocations then agree (`Regrouping.Agree`): the same
statuses, the same candidates to join, the same groups.
-/

namespace PlatformOps.Incidents

open Metadata Listing Fallible

/-! ## Regroupings that agree -/

/-- Number and root: what the desk looks for in the incidents it could join. -/
def Incident.key (i : Incident) : ℕ × String := (i.seq, i.root)

/-- What of a group decides where it goes and what is shown of it. -/
def Group.outline (g : Group) : String × List String × List String :=
  (g.root, g.failedNodes, g.shared)

/-- The check and its subject. -/
def CheckEvent.outline (e : CheckEvent) : String × String := (e.checkId, e.subject)

/-- Two regroupings of one run that see the same, incidents of the run's own aside. -/
structure Regrouping.Agree (r r' : Regrouping) : Prop where
  ctx : r.ctx = r'.ctx
  runId : r.runId = r'.runId
  statuses : r.facts.statuses = r'.facts.statuses
  candidates : r.before.map Incident.key = r'.before.map Incident.key
  rootOf : r.facts.rootOf = r'.facts.rootOf
  checks : r.facts.events.map CheckEvent.outline = r'.facts.events.map CheckEvent.outline
  groups : r.facts.groups.map Group.outline = r'.facts.groups.map Group.outline

/-- Which incident is joined is a matter of the candidates' roots. -/
theorem joined_congr {ctx : Context} {statuses : List (String × String)}
    {before before' : List Incident} (h : before.map Incident.key = before'.map Incident.key)
    {g g' : Group} (hg : g.outline = g'.outline) :
    (joined ctx statuses before g).map Incident.key =
      (joined ctx statuses before' g').map Incident.key := by
  have hfind : ∀ p : String → Bool, (before.find? fun i => p i.root).map Incident.key =
      (before'.find? fun i => p i.root).map Incident.key := by
    intro p
    have hkeys : ∀ l : List Incident, (l.find? fun i => p i.root).map Incident.key =
        (l.map Incident.key).find? fun k => p k.2 := fun l => by
      rw [List.find?_map]
      rfl
    rw [hkeys, hkeys, h]
  simp only [Group.outline, Prod.mk.injEq] at hg
  obtain ⟨hroot, hfailed, -⟩ := hg
  have hor : ∀ x y : Option Incident, (x <|> y).map Incident.key =
      (x.map Incident.key <|> y.map Incident.key) := fun x y => by
    cases x <;> rfl
  simp only [joined, hor, hroot, hfailed]
  rw [hfind fun root => root = g'.root, hfind fun root => root ∈ g'.failedNodes,
    hfind fun root => g'.root ∈ ctx.above root,
    hfind fun root => root ∈ ctx.above g'.root && !covered ctx statuses root]

namespace Regrouping

variable {r r' : Regrouping}

theorem Agree.symm (h : r.Agree r') : r'.Agree r :=
  ⟨h.ctx.symm, h.runId.symm, h.statuses.symm, h.candidates.symm, h.rootOf.symm, h.checks.symm,
    h.groups.symm⟩

theorem Agree.joins (h : r.Agree r') {g g' : Group} (hg : g.outline = g'.outline) :
    (r.joins g).map Incident.key = (r'.joins g').map Incident.key := by
  rw [Regrouping.joins, Regrouping.joins, h.ctx, h.statuses]
  exact joined_congr h.candidates hg

theorem Agree.joins_eq_none (h : r.Agree r') {g g' : Group} (hg : g.outline = g'.outline) :
    r.joins g = none ↔ r'.joins g' = none := by
  rw [← Option.map_eq_none_iff (f := Incident.key), h.joins hg, Option.map_eq_none_iff]

theorem Agree.rootFor (h : r.Agree r') {g g' : Group} (hg : g.outline = g'.outline) :
    r.rootFor g = r'.rootFor g' := by
  have hroots : (r.joins g).map Incident.root = (r'.joins g').map Incident.root := by
    have hsnd := congrArg (Option.map Prod.snd) (h.joins hg)
    rwa [Option.map_map, Option.map_map] at hsnd
  have hroot : g.root = g'.root := congrArg Prod.fst hg
  rw [Regrouping.rootFor, Regrouping.rootFor, hroots, hroot]

/-- Every group of one has its like in the other. -/
theorem Agree.exists_group (h : r.Agree r') {g : Group} (hg : g ∈ r.facts.groups) :
    ∃ g' ∈ r'.facts.groups, g.outline = g'.outline := by
  obtain ⟨g', hg', heq⟩ := List.mem_map.mp (h.groups ▸ List.mem_map_of_mem hg)
  exact ⟨g', hg', heq.symm⟩

/-- Every failing check of one has its like in the other. -/
theorem Agree.exists_event (h : r.Agree r') {e : CheckEvent} (he : e ∈ r.facts.events) :
    ∃ e' ∈ r'.facts.events, e.outline = e'.outline := by
  obtain ⟨e', he', heq⟩ := List.mem_map.mp (h.checks ▸ List.mem_map_of_mem he)
  exact ⟨e', he', heq.symm⟩

theorem Agree.rootOfSubject (h : r.Agree r') (subject : String) :
    r.rootOfSubject subject = r'.rootOfSubject subject := by
  have hgroups : ∀ (l l' : List Group), l.map Group.outline = l'.map Group.outline → ∀ root,
      (l.find? fun g => g.root = root).map r.rootFor =
        (l'.find? fun g => g.root = root).map r'.rootFor := by
    intro l
    induction l with
    | nil =>
      intro l' heq root
      cases l' with
      | nil => rfl
      | cons => cases heq
    | cons g rest ih =>
      intro l' heq root
      cases l' with
      | nil => cases heq
      | cons g' rest' =>
        simp only [List.map_cons, List.cons.injEq] at heq
        have hroot : g.root = g'.root := congrArg Prod.fst heq.1
        by_cases hat : g'.root = root
        · simp [hroot, hat, h.rootFor heq.1]
        · simp [hroot, hat, ih rest' heq.2 root]
  rw [Regrouping.rootOfSubject, Regrouping.rootOfSubject, h.rootOf]
  exact congrArg _ (funext fun root => hgroups _ _ h.groups root)

private theorem Agree.joinsSeq_of (h : r.Agree r') {seq : ℕ} (hjoins : r.JoinsSeq seq) :
    r'.JoinsSeq seq := by
  obtain ⟨g, hg, hseq⟩ := hjoins
  obtain ⟨g', hg', hout⟩ := h.exists_group hg
  refine ⟨g', hg', ?_⟩
  have hfst := congrArg (Option.map Prod.fst) (h.joins hout)
  rw [Option.map_map, Option.map_map] at hfst
  exact hfst ▸ hseq

theorem Agree.joinsSeq (h : r.Agree r') (seq : ℕ) : r.JoinsSeq seq ↔ r'.JoinsSeq seq :=
  ⟨h.joinsSeq_of, h.symm.joinsSeq_of⟩

end Regrouping

/-- **What a store shows of a run** is the same for regroupings that agree. -/
theorem Observed.congr {r r' : Regrouping} {s : Store} (h : Observed r s) (hagree : r.Agree r') :
    Observed r' s where
  opened root := by
    rw [← hagree.runId, h.opened]
    constructor
    · rintro ⟨g, hg, hjoins, rfl⟩
      obtain ⟨g', hg', hout⟩ := hagree.exists_group hg
      exact ⟨g', hg', (hagree.joins_eq_none hout).mp hjoins, (congrArg Prod.fst hout).symm⟩
    · rintro ⟨g', hg', hjoins, rfl⟩
      obtain ⟨g, hg, hout⟩ := hagree.symm.exists_group hg'
      exact ⟨g, hg, (hagree.symm.joins_eq_none hout).mp hjoins, (congrArg Prod.fst hout).symm⟩
  checks checkId root := by
    rw [← hagree.runId, h.checks]
    constructor
    · rintro ⟨e, he, rfl, hroot⟩
      obtain ⟨e', he', hout⟩ := hagree.exists_event he
      simp only [CheckEvent.outline, Prod.mk.injEq] at hout
      exact ⟨e', he', hout.1.symm, by rw [← hagree.rootOfSubject, ← hout.2, hroot]⟩
    · rintro ⟨e', he', rfl, hroot⟩
      obtain ⟨e, he, hout⟩ := hagree.symm.exists_event he'
      simp only [CheckEvent.outline, Prod.mk.injEq] at hout
      exact ⟨e, he, hout.1.symm, by rw [hagree.rootOfSubject, ← hout.2, hroot]⟩
  attributed := hagree.runId ▸ h.attributed
  links root checks := by
    have hcount : ∀ (events : List CheckEvent) (p : String → Bool),
        events.countP (fun e => p e.subject) =
          (events.map CheckEvent.outline).countP fun o => p o.2 := fun events p => by
      rw [List.countP_map]
      rfl
    rw [← hagree.runId, h.links,
      hcount r.facts.events fun subject => r.rootOfSubject subject = some root,
      hcount r'.facts.events fun subject => r'.rootOfSubject subject = some root, hagree.checks]
    simp only [hagree.rootOfSubject]
  shared root node := by
    rw [← hagree.runId, h.shared]
    constructor
    · rintro ⟨g, hg, rfl, hnode⟩
      obtain ⟨g', hg', hout⟩ := hagree.exists_group hg
      have hshared : g.shared = g'.shared := congrArg (fun o => o.2.2) hout
      exact ⟨g', hg', (hagree.rootFor hout).symm, hshared ▸ hnode⟩
    · rintro ⟨g', hg', rfl, hnode⟩
      obtain ⟨g, hg, hout⟩ := hagree.symm.exists_group hg'
      have hshared : g'.shared = g.shared := congrArg (fun o => o.2.2) hout
      exact ⟨g, hg, hagree.rootFor hout.symm, hshared ▸ hnode⟩

/-! ## What the store has gathered -/

/-- An incident that was there before the run, as the run's ingests leave it: the run has at most
resolved it. -/
structure Kept (runId : String) (i c : Incident) : Prop extends c.Same i where
  mergedInto : c.mergedInto = i.mergedInto
  resolved : c.resolved = i.resolved ∨ (i.isOpen = true ∧ c.resolvedByRun = some runId)

/-- A store a run has left nothing in, with its incidents opened by the time of the run. -/
structure Store.Untouched (s : Store) (runId : String) (time : Timestamp) : Prop where
  sound : s.Sound
  /-- The primary key of the invocations. -/
  invocations : (s.invocations.map InvocationRow.invocationId).Nodup
  results : ∀ row ∈ s.results, row.runId ≠ runId
  checkEvents : ∀ row ∈ s.checkEvents, row.event.runId ≠ runId
  opened : ∀ i ∈ s.incidents, i.openedByRun ≠ runId
  resolved : ∀ i ∈ s.incidents, i.resolvedByRun ≠ some runId
  earlier : ∀ i ∈ s.incidents, i.openedAt ≤ time

/-- What a store has gathered of a run once these artifacts have arrived, from the store before
the run. -/
structure Gathered (ctx : Context) (runId : String) (time : Timestamp) (start : Store)
    (arrived : List Artifact) (s : Store) : Prop where
  sound : s.Sound
  invocations : s.invocations.map InvocationRow.invocationId =
    start.invocations.map InvocationRow.invocationId ++ arrived.map Artifact.invocationId
  results : s.results = start.results ++ arrived.flatMap (resultRows ctx.nodes runId)
  once : (checkIdsOf runId s.checkEvents).Nodup
  reported : ∀ row ∈ s.checkEvents, row.event.runId = runId →
    ∃ a ∈ arrived, row.event ∈ eventsIn ctx.nodes runId (some time) a
  recorded : ∀ a ∈ arrived, ∀ e ∈ eventsIn ctx.nodes runId (some time) a,
    ∃ row ∈ s.checkEvents, row.event.runId = runId ∧ row.event.checkId = e.checkId
  kept : ∀ i ∈ start.incidents, ∃ c ∈ s.incidents, Kept runId i c
  /-- Every other incident is the run's own, and on no root with an earlier open one. -/
  own : ∀ c ∈ s.incidents, (∃ i ∈ start.incidents, Kept runId i c) ∨
    (c.openedByRun = runId ∧ ∀ i ∈ start.incidents, i.isOpen = true → i.root ≠ c.root)
  /-- In an acyclic lineage the run's own incidents are on roots that failed in it. -/
  failed : ctx.graph.Acyclic → ∀ c ∈ s.incidents, c.openedByRun = runId →
    ∃ row ∈ s.checkEvents, row.event.runId = runId ∧ row.event.subject = c.root

theorem Kept.refl (runId : String) (i : Incident) : Kept runId i i :=
  ⟨Incident.Same.rfl, rfl, Or.inl rfl⟩

theorem Gathered.start {ctx : Context} {runId : String} {time : Timestamp} {start : Store}
    (h : start.Untouched runId time) : Gathered ctx runId time start [] start where
  sound := h.sound
  invocations := by simp
  results := by simp
  once := by
    have hnone : start.checkEvents.filter (fun row => row.event.runId = runId) = [] :=
      List.filter_eq_nil_iff.mpr fun row hrow => by simpa using h.checkEvents row hrow
    rw [checkIdsOf, hnone]
    exact List.nodup_nil
  reported row hrow hrun := absurd hrun (h.checkEvents row hrow)
  recorded := by simp
  kept i hi := ⟨i, hi, Kept.refl runId i⟩
  own c hc := Or.inl ⟨c, hc, Kept.refl runId c⟩
  failed _ c hc hrun := absurd hrun (h.opened c hc)

/-- Recording more artifacts gathers them. -/
theorem Gathered.record {ctx : Context} {runId : String} {time : Timestamp} {start s s' : Store}
    {arrived fresh : List Artifact} (h : Gathered ctx runId time start arrived s)
    (hrecorded : Recorded ctx.nodes runId (some time) fresh s s') :
    Gathered ctx runId time start (arrived ++ fresh) s' := by
  obtain ⟨rows, hrows, hnew, hall⟩ := hrecorded.checkEvents
  exact {
    sound := ⟨hrecorded.incidents ▸ h.sound.numbered, hrecorded.incidents ▸ h.sound.oneOpen⟩
    invocations := by simp [hrecorded.invocations, h.invocations]
    results := by simp [hrecorded.results, h.results]
    once := hrecorded.once h.once
    -- a row is one from before, or one of the fresh artifacts
    reported := by
      intro row hrow hrun
      rcases List.mem_append.mp (hrows ▸ hrow) with hrow | hrow
      · obtain ⟨a, ha, he⟩ := h.reported row hrow hrun
        exact ⟨a, List.mem_append_left _ ha, he⟩
      · obtain ⟨-, a, ha, he⟩ := hnew row hrow
        exact ⟨a, List.mem_append_right _ ha, he⟩
    recorded := by
      intro a ha e he
      rw [hrows]
      rcases List.mem_append.mp ha with ha | ha
      · obtain ⟨row, hrow, hsame⟩ := h.recorded a ha e he
        exact ⟨row, List.mem_append_left _ hrow, hsame⟩
      · exact hall a ha e he
    kept := hrecorded.incidents ▸ h.kept
    own := hrecorded.incidents ▸ h.own
    failed := by
      intro hacyclic c hc hrun
      obtain ⟨row, hrow, hsame⟩ := h.failed hacyclic c (hrecorded.incidents ▸ hc) hrun
      exact ⟨row, hrows ▸ List.mem_append_left _ hrow, hsame⟩ }

/-! ## A regrouping over what was gathered -/

/-- A regrouping of a run once these artifacts have arrived. -/
structure Regrouping.Over (r : Regrouping) (start : Store) (arrived : List Artifact) : Prop where
  untouched : start.Untouched r.runId r.now
  gathered : Gathered r.ctx r.runId r.now start arrived r.store
  facts : FactsOf r.ctx r.store r.runId r.facts

namespace Regrouping.Over

variable {r : Regrouping} {start : Store} {arrived : List Artifact} (h : r.Over start arrived)

include h

/-- The candidates are the incidents that were open before the run. -/
theorem mem_before_of_kept {i c : Incident} (hi : i ∈ start.incidents) (hc : c ∈ r.store.incidents)
    (hkept : Kept r.runId i c) : c ∈ r.before ↔ i.isOpen = true := by
  rw [Regrouping.mem_before, hkept.mergedInto, hkept.openedByRun, hkept.openedAt]
  simp only [hc, true_and, Incident.isOpen, Bool.and_eq_true, Option.isNone_iff_eq_none]
  constructor
  -- the run resolved nothing before it started
  · rintro ⟨hmerged, -, -, hres⟩
    rcases hkept.resolved with heq | ⟨hopen, -⟩
    · refine ⟨?_, hmerged⟩
      rcases hres with hres | hres
      · rw [← heq, hres]
      · refine absurd ?_ (h.untouched.resolved i hi)
        rw [Incident.resolvedByRun, ← heq]
        exact hres
    · simpa [Incident.isOpen] using hopen
  · rintro ⟨hres, hmerged⟩
    refine ⟨hmerged, h.untouched.opened i hi, h.untouched.earlier i hi, ?_⟩
    rcases hkept.resolved with heq | ⟨-, hrun⟩
    · exact Or.inl (heq.trans hres)
    · exact Or.inr hrun

theorem exists_kept_of_mem_before {c : Incident} (hc : c ∈ r.before) :
    ∃ i ∈ start.incidents, Kept r.runId i c ∧ i.isOpen = true := by
  have hmem := Regrouping.mem_before.mp hc
  rcases h.gathered.own c hmem.1 with ⟨i, hi, hkept⟩ | ⟨hown, -⟩
  · exact ⟨i, hi, hkept, (h.mem_before_of_kept hi hmem.1 hkept).mp hc⟩
  · exact absurd hown hmem.2.2.1

theorem mem_keys_before {key : ℕ × String} : key ∈ r.before.map Incident.key ↔
    ∃ i ∈ start.incidents, i.isOpen = true ∧ i.key = key := by
  constructor
  · intro hkey
    obtain ⟨c, hc, rfl⟩ := List.mem_map.mp hkey
    obtain ⟨i, hi, hkept, hopen⟩ := h.exists_kept_of_mem_before hc
    exact ⟨i, hi, hopen, by rw [Incident.key, Incident.key, hkept.seq, hkept.root]⟩
  · rintro ⟨i, hi, hopen, rfl⟩
    obtain ⟨c, hc, hkept⟩ := h.gathered.kept i hi
    refine List.mem_map.mpr ⟨c, (h.mem_before_of_kept hi hc hkept).mpr hopen, ?_⟩
    rw [Incident.key, Incident.key, hkept.seq, hkept.root]

theorem candidatesApart : r.CandidatesApart := by
  intro c hc c' hc' hroot
  obtain ⟨i, hi, hkept, hopen⟩ := h.exists_kept_of_mem_before hc
  obtain ⟨i', hi', hkept', hopen'⟩ := h.exists_kept_of_mem_before hc'
  have hii : i = i' := by
    refine (oneOpenPerRoot_iff h.untouched.sound.numbered).mp h.untouched.sound.oneOpen i hi i' hi'
      hopen hopen' ?_
    rw [← hkept.root, ← hkept'.root, hroot]
  refine h.gathered.sound.numbered.eq_of_seq (Regrouping.mem_before.mp hc).1
    (Regrouping.mem_before.mp hc').1 ?_
  rw [hkept.seq, hkept'.seq, hii]

/-- **Nothing stands in the way**: the run never opens an incident on a root with an open one, and
reopens at most one on a root. -/
theorem clear : r.Clear := by
  -- an open incident is one of the run's own, or was open before the run
  have hopen : ∀ j ∈ r.store.incidents, j.isOpen = true → j ∈ r.mine ∨ j ∈ r.before := by
    intro j hj hjo
    simp only [Incident.isOpen, Bool.and_eq_true, Option.isNone_iff_eq_none] at hjo
    by_cases hrun : j.openedByRun = r.runId
    · exact Or.inl (Regrouping.mem_mine.mpr ⟨hj, hjo.2, hrun⟩)
    · refine Or.inr (Regrouping.mem_before.mpr ⟨hj, hjo.2, hrun, ?_, Or.inl hjo.1⟩)
      rcases h.gathered.own j hj with ⟨i, hi, hkept⟩ | ⟨hown, -⟩
      · rw [hkept.openedAt]
        exact h.untouched.earlier i hi
      · exact absurd hown hrun
  refine ⟨fun g hg hopens j hj hjo heq => ?_, fun c hc hre j hj hroot hne => ⟨fun hjo => ?_, ?_⟩⟩
  · obtain ⟨hjoins, hfind⟩ := Regrouping.opens_eq_true.mp hopens
    rcases hopen j hj hjo with hmine | hbefore
    · exact absurd heq (by simpa using List.find?_eq_none.mp hfind j hmine)
    · exact Regrouping.root_ne_of_joins_eq_none hjoins hbefore heq
  · rcases hopen j hj hjo with hmine | hbefore
    · obtain ⟨i, hi, hkept, hio⟩ := h.exists_kept_of_mem_before hc
      rcases h.gathered.own j hj with ⟨i', hi', hkept'⟩ | ⟨-, hapart⟩
      · refine absurd ?_ (h.untouched.opened i' hi')
        rw [← hkept'.openedByRun, (Regrouping.mem_mine.mp hmine).2.2]
      · exact absurd (hkept.root.symm.trans hroot.symm) (hapart i hi hio)
    · exact absurd (h.candidatesApart j hbefore c hc hroot) hne
  · rintro ⟨hbefore, -⟩
    exact hne (h.candidatesApart j hbefore c hc hroot)

/-- In an acyclic lineage every failing check, and every incident of the run's own, has a group to
go to. -/
theorem rooted (hacyclic : r.ctx.graph.Acyclic) : r.Rooted := by
  have hroot : ∀ {e : CheckEvent}, e ∈ r.facts.events → ∃ root ∈ r.facts.groups.map Group.root,
      r.facts.rootOf.lookup e.subject = some root := fun he => h.facts.exists_root he
  refine ⟨fun e he => hroot he, fun i hi _ => ?_⟩
  obtain ⟨hmem, -, hrun⟩ := Regrouping.mem_mine.mp hi
  obtain ⟨row, hrow, hrun', hsubject⟩ := h.gathered.failed hacyclic i hmem hrun
  have hevent : row.event ∈ r.facts.events := by
    rw [h.facts.events]
    exact mem_eventsOf.mpr ⟨row, hrow, hrun', rfl⟩
  obtain ⟨root, hin, hlook⟩ := hroot hevent
  rw [← hsubject, hlook]
  exact hin

end Regrouping.Over

/-! ## The same invocations, the same regrouping -/

section Agree

/-- What a status depends on. -/
private def statusKey (row : ResultRow) : String ×ₗ String := toLex (row.uniqueId, row.status)

/-- The statuses are a matter of which nodes were reported with which status. -/
private theorem statusesOf_congr {s s' : Store} {runId : String}
    (h : ((s.results.filter fun row => row.runId = runId).map statusKey).Perm
      ((s'.results.filter fun row => row.runId = runId).map statusKey)) :
    s.statusesOf runId = s'.statusesOf runId := by
  have hfold : ∀ l : List ResultRow, l.foldl statusStep [] = (l.map statusKey).foldl
      (fun statuses k => statusStep statuses ⟨"", "", (ofLex k).1, "", (ofLex k).2⟩) [] := by
    intro l
    rw [List.foldl_map]
    rfl
  rw [Store.statusesOf, Store.statusesOf, hfold, hfold]
  have hkeys : ((s.resultsOf runId).map statusKey) = (s'.resultsOf runId).map statusKey :=
    map_sortBy_eq_of_perm h
  rw [hkeys]

/-- What a group shows depends on the failed nodes only, not on what failed about them. -/
private theorem outline_groupAt_congr {graph : FinDigraph String} {rootOf : List (String × String)}
    {events events' : List CheckEvent} {skipped skipped' : List String} (root : String)
    (h : ∀ n, n ∈ events.map CheckEvent.subject ↔ n ∈ events'.map CheckEvent.subject) :
    (groupAt graph rootOf events skipped root).outline =
      (groupAt graph rootOf events' skipped' root).outline := by
  -- which nodes failed is all that the outline keeps of the events
  have hnodes : ∀ (events : List CheckEvent) (skipped : List String) (n : String),
      n ∈ (groupAt graph rootOf events skipped root).failedNodes ↔
        n ∈ events.map CheckEvent.subject ∧ rootOf.lookup n = some root := by
    intro events skipped n
    rw [mem_failedNodes_groupAt, List.mem_map]
    constructor
    · rintro ⟨e, he, rfl⟩
      exact ⟨⟨e, (mem_events_groupAt.mp he).1, rfl⟩, (mem_events_groupAt.mp he).2⟩
    · rintro ⟨⟨e, he, rfl⟩, hlook⟩
      exact ⟨e, mem_events_groupAt.mpr ⟨he, hlook⟩, rfl⟩
  have hfailed : (groupAt graph rootOf events skipped root).failedNodes =
      (groupAt graph rootOf events' skipped' root).failedNodes := by
    refine sortedSet_congr fun n => ?_
    have hn := (hnodes events skipped n).trans
      ((and_congr_left' (h n)).trans (hnodes events' skipped' n).symm)
    rwa [groupAt, groupAt, mem_sortedSet, mem_sortedSet] at hn
  simp only [Group.outline, hfailed]
  rfl

variable {r r' : Regrouping} {start : Store} {arrived arrived' : List Artifact}
  (h : r.Over start arrived) (h' : r'.Over start arrived')

/-- The ids of the failing checks are those that arrived. -/
private theorem mem_checkIdsOf {ctx : Context} {runId : String} {time : Timestamp} {s : Store}
    (h : Gathered ctx runId time start arrived s) {checkId : String} :
    checkId ∈ checkIdsOf runId s.checkEvents ↔
      ∃ a ∈ arrived, ∃ e ∈ eventsIn ctx.nodes runId (some time) a, e.checkId = checkId := by
  simp only [checkIdsOf, List.mem_map, List.mem_filter, decide_eq_true_eq]
  constructor
  · rintro ⟨row, ⟨hrow, hrun⟩, rfl⟩
    obtain ⟨a, ha, he⟩ := h.reported row hrow hrun
    exact ⟨a, ha, row.event, he, rfl⟩
  · rintro ⟨a, ha, e, he, rfl⟩
    obtain ⟨row, hrow, hrun, hid⟩ := h.recorded a ha e he
    exact ⟨row, ⟨hrow, hrun⟩, hid⟩

private theorem before_sorted (r : Regrouping) :
    (r.before.map Incident.key).Pairwise fun a b => a.1 ≤ b.1 :=
  List.pairwise_map.mpr ((pairwise_sortBy Incident.seq r.store.incidents).filter _)

include h

private theorem nodup_seq_before : ((r.before.map Incident.key).map Prod.fst).Nodup := by
  rw [List.map_map]
  have hall : (r.store.bySeq.map Incident.seq).Nodup :=
    ((perm_sortBy _ _).map _).nodup_iff.mpr h.gathered.sound.numbered
  exact hall.sublist (List.filter_sublist.map _)

/-- The subject of a failing check of the run is that of its id. -/
private theorem map_outline_events : r.facts.events.map CheckEvent.outline =
    (r.facts.events.map CheckEvent.checkId).map fun checkId =>
      (checkId, subjectOfCheck r.ctx.nodes checkId) := by
  rw [List.map_map]
  refine List.map_congr_left fun e he => ?_
  rw [h.facts.events] at he
  obtain ⟨row, hrow, hrun, rfl⟩ := mem_eventsOf.mp he
  obtain ⟨a, -, hin⟩ := h.gathered.reported row hrow hrun
  exact congrArg (Prod.mk _) (subject_of_mem_parse hin)

private theorem groups_sorted :
    (r.facts.groups.map Group.outline).Pairwise fun a b => a.1 ≤ b.1 := by
  obtain ⟨groups, -, hsorted⟩ := h.facts.groups
  rw [hsorted, List.pairwise_map]
  exact pairwise_sortBy Group.root groups

include h'

/-- **The same invocations, the same regrouping**, in whatever order they came in. -/
theorem Regrouping.Over.agree (hperm : arrived.Perm arrived') (hctx : r.ctx = r'.ctx)
    (hrun : r.runId = r'.runId) (hnow : r.now = r'.now) : r.Agree r' := by
  -- the results are a permutation of each other, and read in order
  have hstatuses : r.facts.statuses = r'.facts.statuses := by
    rw [h.facts.statuses, h'.facts.statuses, ← hrun]
    refine statusesOf_congr ?_
    have hold : start.results.filter (fun row => row.runId = r.runId) = [] :=
      List.filter_eq_nil_iff.mpr fun row hrow => by simpa using h.untouched.results row hrow
    rw [h.gathered.results, h'.gathered.results, List.filter_append, List.filter_append, hold,
      ← hctx, ← hrun]
    exact ((hperm.flatMap_right _).filter _).map _
  -- the same checks failed, by whatever artifact came first
  have hids : r.facts.events.map CheckEvent.checkId = r'.facts.events.map CheckEvent.checkId := by
    rw [h.facts.events, h'.facts.events]
    refine map_sortBy_eq_of_perm ?_
    rw [List.map_map, List.map_map]
    refine (List.perm_ext_iff_of_nodup h.gathered.once h'.gathered.once).mpr fun checkId => ?_
    rw [mem_checkIdsOf h.gathered, mem_checkIdsOf h'.gathered, hctx, hrun, hnow]
    simp only [hperm.mem_iff]
  have hchecks : r.facts.events.map CheckEvent.outline =
      r'.facts.events.map CheckEvent.outline := by
    rw [map_outline_events h, map_outline_events h', hids, hctx]
  have hsubjects : r.facts.events.map CheckEvent.subject =
      r'.facts.events.map CheckEvent.subject := by
    have hsnd := congrArg (List.map Prod.snd) hchecks
    rwa [List.map_map, List.map_map] at hsnd
  -- the roots hang on the graph and the failed nodes alone
  have hrootOf : r.facts.rootOf = r'.facts.rootOf := by
    have hroots := h.facts.rootOf
    rw [hsubjects, hctx, h'.facts.rootOf] at hroots
    exact (Option.some.inj hroots).symm
  have hcandidates : r.before.map Incident.key = r'.before.map Incident.key := by
    refine eq_of_perm_of_keys ?_ (nodup_seq_before h) (before_sorted r) (before_sorted r')
    refine (List.perm_ext_iff_of_nodup (List.Nodup.of_map _ (nodup_seq_before h))
      (List.Nodup.of_map _ (nodup_seq_before h'))).mpr fun key => ?_
    rw [h.mem_keys_before, h'.mem_keys_before]
  -- the groups have the same roots, and are sorted by them
  have hgroups : r.facts.groups.map Group.outline = r'.facts.groups.map Group.outline := by
    obtain ⟨skipped, hgroups⟩ := h.facts.perm_groups
    obtain ⟨skipped', hgroups'⟩ := h'.facts.perm_groups
    have hfrom : rootsFrom r.facts.rootOf r.facts.events =
        rootsFrom r'.facts.rootOf r'.facts.events := by
      have hall : ∀ events : List CheckEvent, events.filterMap
          (fun e => r'.facts.rootOf.lookup e.subject) =
            (events.map CheckEvent.subject).filterMap fun n => r'.facts.rootOf.lookup n :=
        fun events => by
          rw [List.filterMap_map]
          rfl
      rw [rootsFrom, rootsFrom, hrootOf, hall, hall, hsubjects]
    have hmaps : (r.facts.groups.map Group.outline).Perm (r'.facts.groups.map Group.outline) := by
      refine (hgroups.map _).trans (List.Perm.trans ?_ (hgroups'.map _).symm)
      rw [List.map_map, List.map_map, hfrom, hrootOf, hctx]
      refine List.Perm.of_eq (List.map_congr_left fun root _ => ?_)
      exact outline_groupAt_congr root fun n => by rw [hsubjects]
    refine eq_of_perm_of_keys hmaps ?_ (groups_sorted h) (groups_sorted h')
    rw [List.map_map]
    exact h.facts.distinct
  exact ⟨hctx, hrun, hstatuses, hcandidates, hrootOf, hchecks, hgroups⟩

end Agree

/-! ## What the regrouping leaves -/

section Outcome

variable {call : IngestCall} {s s' : Store} {r : Regrouping} {news : List Incident}
  {assignment : List (String × ℕ)} {out : Regrouped} {start : Store} {arrived : List Artifact}
  (h : call.Ingested s r news assignment s' out) (hover : r.Over start arrived)

include hover

/-- The fate of an earlier incident that was not open before the run: it stays as it is. -/
private theorem fate_of_not_open {into : Incident → ℕ} {i c : Incident} (hi : i ∈ start.incidents)
    (hc : c ∈ r.store.incidents) (hkept : Kept r.runId i c) (hopen : i.isOpen = false) :
    r.fate into c = c := by
  refine Regrouping.fate_of_not_mem_before (fun hbefore => ?_) fun hmine => ?_
  · rw [(hover.mem_before_of_kept hi hc hkept).mp hbefore] at hopen
    cases hopen
  · exact hover.untouched.opened i hi
      (hkept.openedByRun.symm.trans (Regrouping.mem_mine.mp hmine.1).2.2)

/-- A regrouping keeps what was there before the run. -/
private theorem kept_fate {into : Incident → ℕ} {i c : Incident} (hi : i ∈ start.incidents)
    (hc : c ∈ r.store.incidents) (hkept : Kept r.runId i c) : Kept r.runId i (r.fate into c) := by
  cases hopen : i.isOpen with
  | false => rwa [fate_of_not_open hover hi hc hkept hopen]
  | true =>
    have hbefore := (hover.mem_before_of_kept hi hc hkept).mpr hopen
    have hunmerged := (Regrouping.mem_before.mp hbefore).2.1
    have hfate : (r.fate into c).mergedInto = none := Regrouping.fate_mergedInto.mpr
      ⟨hunmerged, fun hmine => Regrouping.not_mem_mine_of_mem_before hbefore hmine.1⟩
    refine ⟨Regrouping.fate_same.trans hkept.toSame, ?_, ?_⟩
    · rw [hfate, ← hkept.mergedInto, hunmerged]
    -- open again, or resolved by this run and by no other
    · by_cases hstays : r.isJoined c = true ∨ r.isHealthy c = false
      · have hopen' : (r.fate into c).isOpen = true :=
          (Regrouping.isOpen_fate_iff hbefore).mpr hstays
        simp only [Incident.isOpen, Bool.and_eq_true, Option.isNone_iff_eq_none] at hopen hopen'
        exact Or.inl (hopen'.1.trans hopen.1.symm)
      · refine Or.inr ⟨hopen, (Regrouping.resolvedByRun_fate_iff hbefore).mpr ?_⟩
        simpa using hstays

omit hover in
/-- Nothing else of an incident matters here but what only a severity changes. -/
private theorem Kept.of_alike {runId : String} {i c x : Incident} (hkept : Kept runId i c)
    (halike : x.Alike c) : Kept runId i x := by
  refine ⟨halike.toSame.trans hkept.toSame, halike.mergedInto.trans hkept.mergedInto, ?_⟩
  rw [Incident.resolvedByRun, halike.resolved]
  exact hkept.resolved

include h

/-- The regrouping leaves what was gathered. -/
theorem Gathered.settled : Gathered r.ctx r.runId r.now start arrived s' where
  sound := h.sound ⟨h.incidents_eq ▸ hover.gathered.sound.numbered,
    h.incidents_eq ▸ hover.gathered.sound.oneOpen⟩
  invocations := h.invocations ▸ hover.gathered.invocations
  results := h.results ▸ hover.gathered.results
  once := by
    have hids : checkIdsOf r.runId s'.checkEvents = checkIdsOf r.runId r.store.checkEvents := by
      rw [h.checkEvents, checkIdsOf, checkIdsOf, List.filter_map, List.map_map]
      simp only [Function.comp_def, Regrouping.event_attributed]
    exact hids ▸ hover.gathered.once
  reported row hrow hrun := by
    obtain ⟨row', hrow', rfl⟩ := List.mem_map.mp (h.checkEvents ▸ hrow)
    rw [Regrouping.event_attributed] at hrun ⊢
    exact hover.gathered.reported row' hrow' hrun
  recorded a ha e he := by
    obtain ⟨row, hrow, hsame⟩ := hover.gathered.recorded a ha e he
    refine ⟨r.attributed assignment row, h.checkEvents ▸ List.mem_map_of_mem hrow, ?_⟩
    rwa [Regrouping.event_attributed]
  kept i hi := by
    obtain ⟨c, hc, hkept⟩ := hover.gathered.kept i hi
    obtain ⟨x, hx, halike⟩ := h.exists_after
      (List.mem_append_left _ (List.mem_map_of_mem (h.incidents_eq ▸ hc)))
    exact ⟨x, hx, (kept_fate hover hi hc hkept).of_alike halike⟩
  own x hx := by
    obtain ⟨y, hy, halike⟩ := h.exists_before hx
    rcases List.mem_append.mp hy with hy | hy
    · obtain ⟨c, hc, rfl⟩ := List.mem_map.mp hy
      rw [← h.incidents_eq] at hc
      rcases hover.gathered.own c hc with ⟨i, hi, hkept⟩ | ⟨hown, hapart⟩
      · exact Or.inl ⟨i, hi, (kept_fate hover hi hc hkept).of_alike halike⟩
      · have hsame := halike.toSame.trans Regrouping.fate_same
        exact Or.inr ⟨hsame.openedByRun.trans hown, hsame.root ▸ hapart⟩
    · -- a new incident is on the root of a group that found nothing to join
      refine Or.inr ⟨halike.openedByRun.trans (h.isNew y hy).openedByRun, fun i hi hopen heq => ?_⟩
      have hroot : y.root ∈ (r.facts.groups.filter r.opens).map Group.root :=
        h.roots ▸ List.mem_map_of_mem hy
      obtain ⟨g, hg, hroot⟩ := List.mem_map.mp hroot
      obtain ⟨c, hc, hkept⟩ := hover.gathered.kept i hi
      refine Regrouping.root_ne_of_joins_eq_none
        (Regrouping.opens_eq_true.mp (List.mem_filter.mp hg).2).1
        ((hover.mem_before_of_kept hi hc hkept).mpr hopen) ?_
      rw [hkept.root, heq, halike.root, hroot]
  failed hacyclic x hx hrun := by
    have hrow : ∃ row ∈ r.store.checkEvents, row.event.runId = r.runId ∧
        row.event.subject = x.root := by
      obtain ⟨y, hy, halike⟩ := h.exists_before hx
      rw [halike.root]
      rcases List.mem_append.mp hy with hy | hy
      · obtain ⟨c, hc, rfl⟩ := List.mem_map.mp hy
        have hsame := halike.toSame.trans Regrouping.fate_same
        rw [Regrouping.fate_same.root]
        exact hover.gathered.failed hacyclic c (h.incidents_eq ▸ hc)
          (hsame.openedByRun.symm.trans hrun)
      · have hroot : y.root ∈ (r.facts.groups.filter r.opens).map Group.root :=
          h.roots ▸ List.mem_map_of_mem hy
        obtain ⟨g, hg, hroot⟩ := List.mem_map.mp hroot
        obtain ⟨e, he, hsubject⟩ := hover.facts.failed_root hacyclic (List.mem_filter.mp hg).1
        rw [hover.facts.events] at he
        obtain ⟨row, hrow, hrun', rfl⟩ := mem_eventsOf.mp he
        exact ⟨row, hrow, hrun', hsubject.trans hroot⟩
    obtain ⟨row, hrow, hsame⟩ := hrow
    refine ⟨r.attributed assignment row, h.checkEvents ▸ List.mem_map_of_mem hrow, ?_⟩
    rwa [Regrouping.event_attributed]

/-- What becomes of an earlier incident. -/
private theorem alike_of_kept {i c x : Incident} (hc : c ∈ r.store.incidents)
    (hkept : Kept r.runId i c) (hx : x ∈ s'.incidents) (hseq : x.seq = i.seq) :
    x.Alike (r.fate (r.into assignment) c) := by
  have hsound : s.Sound := ⟨h.incidents_eq ▸ hover.gathered.sound.numbered,
    h.incidents_eq ▸ hover.gathered.sound.oneOpen⟩
  exact h.alike_of_seq hsound (h.incidents_eq ▸ hc) hx (hseq.trans hkept.seq.symm)

omit h in
private theorem isJoined_of_kept {i c : Incident} (hc : c ∈ r.store.incidents)
    (hkept : Kept r.runId i c) : r.isJoined c = true ↔ r.JoinsSeq i.seq := by
  rw [Regrouping.isJoined_eq_true, Regrouping.JoinsSeq]
  refine exists_congr fun g => and_congr_right fun _ => ?_
  rw [Option.map_eq_some_iff]
  constructor
  · exact fun hjoins => ⟨c, hjoins, hkept.seq⟩
  · rintro ⟨c', hjoins, hseq⟩
    rw [hjoins, hover.gathered.sound.numbered.eq_of_seq
      (Regrouping.mem_before.mp (Regrouping.mem_before_of_joins hjoins)).1 hc
      (hseq.trans hkept.seq.symm)]

/-- **The earlier incidents that are open in the end**: they were, and the run fails on them or
has not found them healthy. -/
theorem openAt_iff {i : Incident} (hi : i ∈ start.incidents) : s'.OpenAt i.seq ↔
    i.isOpen = true ∧ (r.JoinsSeq i.seq ∨ healthy r.ctx r.facts.statuses i.root = false) := by
  obtain ⟨c, hc, hkept⟩ := hover.gathered.kept i hi
  -- no other row has its number
  have hfate : s'.OpenAt i.seq ↔ (r.fate (r.into assignment) c).isOpen = true := by
    constructor
    · rintro ⟨x, hx, hseq, hopen⟩
      have halike := alike_of_kept h hover hc hkept hx hseq
      rwa [Incident.isOpen, halike.resolved, halike.mergedInto] at hopen
    · intro hopen
      obtain ⟨x, hx, halike⟩ := h.exists_after
        (List.mem_append_left _ (List.mem_map_of_mem (h.incidents_eq ▸ hc)))
      refine ⟨x, hx, (halike.toSame.trans Regrouping.fate_same).seq.trans hkept.seq, ?_⟩
      rwa [Incident.isOpen, halike.resolved, halike.mergedInto]
  rw [hfate]
  cases hopen : i.isOpen with
  | true =>
    rw [Regrouping.isOpen_fate_iff ((hover.mem_before_of_kept hi hc hkept).mpr hopen),
      isJoined_of_kept hover hc hkept, Regrouping.isHealthy, hkept.root]
    simp
  | false =>
    rw [fate_of_not_open hover hi hc hkept hopen, Incident.isOpen, hkept.mergedInto,
      hkept.resolved.resolve_right (by simp [hopen])]
    rw [Incident.isOpen] at hopen
    simp [hopen]

/-- **The earlier incidents the run has resolved in the end**: they were open, the run does not
fail on them, and has found them healthy. -/
theorem resolvedAt_iff {i : Incident} (hi : i ∈ start.incidents) : s'.ResolvedAt r.runId i.seq ↔
    i.isOpen = true ∧ ¬ r.JoinsSeq i.seq ∧ healthy r.ctx r.facts.statuses i.root = true := by
  obtain ⟨c, hc, hkept⟩ := hover.gathered.kept i hi
  -- no other row has its number
  have hfate : s'.ResolvedAt r.runId i.seq ↔
      (r.fate (r.into assignment) c).resolvedByRun = some r.runId := by
    constructor
    · rintro ⟨x, hx, hseq, hrun⟩
      rwa [Incident.resolvedByRun, (alike_of_kept h hover hc hkept hx hseq).resolved] at hrun
    · intro hrun
      obtain ⟨x, hx, halike⟩ := h.exists_after
        (List.mem_append_left _ (List.mem_map_of_mem (h.incidents_eq ▸ hc)))
      refine ⟨x, hx, (halike.toSame.trans Regrouping.fate_same).seq.trans hkept.seq, ?_⟩
      rwa [Incident.resolvedByRun, halike.resolved]
  rw [hfate]
  cases hopen : i.isOpen with
  | true =>
    rw [Regrouping.resolvedByRun_fate_iff ((hover.mem_before_of_kept hi hc hkept).mpr hopen),
      ← Bool.not_eq_true, isJoined_of_kept hover hc hkept, Regrouping.isHealthy, hkept.root]
    simp
  | false =>
    rw [fate_of_not_open hover hi hc hkept hopen, Incident.resolvedByRun,
      hkept.resolved.resolve_right (by simp [hopen])]
    exact iff_of_false (hover.untouched.resolved i hi) fun hopen => by simp at hopen

end Outcome

end PlatformOps.Incidents
