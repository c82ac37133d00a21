import PlatformOps.Incidents.Links
import PlatformOps.Incidents.Observed
import PlatformOps.Incidents.Raises

/-!
# Routing a Run that Comes in Parts

An incident is routed when it is opened, by the failing checks its run has on the
root by then. A later invocation of the run may add checks that route the root
elsewhere: the group reuses the incident, and its owner and team stay.

- `Store.RoutedAsOne`: the incidents of a run are on record with the owner and team
  they get where the same failing checks come in with one ingest.
- `Regrouping.KeepsRoutes`: what a later ingest of the run adds on the root of an
  incident it reuses leaves the route as it was.
- `routed_as_one_iff`: the first holds all along exactly when every ingest of the run
  meets the second.
-/

namespace PlatformOps.Incidents

open Metadata Listing Fallible Machine

/-- Who an incident is on record with. -/
def Incident.recipient (i : Incident) : String × String := (i.owner, i.team)

def Route.recipient (page : Route) : String × String := (page.owner, page.team)

/-! ## The failing checks on a root -/

namespace Store

variable (ctx : Context) (s : Store) (runId : String)

/-- The ids of the failing checks the store has of a run. -/
def failing : List String := (s.eventsOf runId).map CheckEvent.checkId

/-- The failing checks the store has of a run on a root. -/
def checksOn (root : String) : List CheckEvent :=
  match rootsByNode ctx.graph ((s.eventsOf runId).map CheckEvent.subject) with
  | some rootOf => (s.eventsOf runId).filter fun e => rootOf.lookup e.subject = some root
  | none => []

/-- Where these checks route the root. -/
def routeOf (root : String) : Route :=
  route root ctx.nodes ctx.registry (s.checksOn ctx runId root) ctx.lineage

/-- Every incident of the run's own is on record with whom all of the run's failing checks route
its root to. -/
def RoutedByAll : Prop :=
  ∀ i ∈ s.incidents, i.mergedInto = none → i.openedByRun = runId →
    i.recipient = (s.routeOf ctx runId i.root).recipient

/-- The run's failing checks were reported by result files read with this manifest, and all that
these report are there. -/
def Reported : Prop :=
  ∀ e ∈ s.eventsOf runId, ∃ a time, e ∈ (parse a ctx.nodes runId time).events ∧
    ∀ e' ∈ (parse a ctx.nodes runId time).events, e'.checkId ∈ s.failing runId

end Store

/-- The run has a failing check on the root of each of its incidents. -/
def Store.FailsOnOwn (ctx : Context) (s : Store) (runId : String) : Prop :=
  ∀ i ∈ s.incidents, i.mergedInto = none → i.openedByRun = runId → s.checksOn ctx runId i.root ≠ []

/-- All these failing checks of a run come in with one ingest, to a store that has nothing of the
run. -/
structure AtOnce (ctx : Context) (runId : String) (failing : List String) (start : Store)
    (call : IngestCall) (s : Store) : Prop where
  ctx_eq : call.ctx = ctx
  runId_eq : call.runId = runId
  sound : start.Sound
  unheard : start.eventsOf runId = []
  unopened : ∀ i ∈ start.incidents, i.openedByRun ≠ runId
  reports : ∀ checkId, checkId ∈ failing ↔ ∃ a ∈ call.fresh start,
    ∃ e ∈ eventsIn call.ctx.nodes call.runId call.detected a, e.checkId = checkId
  returns : ∃ out, call.ingest start = .ok (s, out)

/-- **Routed as one**: the run's incidents have the owner and team that they get where the same
failing checks come in at once. -/
def Store.RoutedAsOne (ctx : Context) (s : Store) (runId : String) : Prop :=
  ∀ start call s₁, AtOnce ctx runId (s.failing runId) start call s₁ →
    ∀ i ∈ s.incidents, ∀ j ∈ s₁.incidents, i.mergedInto = none → i.openedByRun = runId →
      j.mergedInto = none → j.openedByRun = runId → i.root = j.root →
        i.owner = j.owner ∧ i.team = j.team

/-- What a regrouping adds on the root of an incident it reuses leaves the route as it was. -/
def Regrouping.KeepsRoutes (r : Regrouping) (before : Store) : Prop :=
  ∀ i ∈ r.mine, r.isReused i = true →
    (r.store.routeOf r.ctx r.runId i.root).recipient =
      (before.routeOf r.ctx r.runId i.root).recipient

instance (r : Regrouping) (before : Store) : Decidable (r.KeepsRoutes before) := by
  unfold Regrouping.KeepsRoutes
  infer_instance

section Checks

variable {ctx : Context} {s s' : Store} {runId : String}

/-- What routing reads of a reported check is a matter of its id. -/
theorem Store.Reported.routed_eq (h : s.Reported ctx runId) {e : CheckEvent}
    (he : e ∈ s.eventsOf runId) :
    e.routed = (e.checkId, typeOfCheck ctx.nodes e.checkId, subjectOfCheck ctx.nodes e.checkId) := by
  obtain ⟨a, time, hparse, -⟩ := h e he
  rw [CheckEvent.routed, type_of_mem_parse hparse, subject_of_mem_parse hparse]

/-- The same checks, as far as routing reads them. -/
private theorem mem_routed_of_ids (h : s.Reported ctx runId) (h' : s'.Reported ctx runId)
    (hids : s.failing runId ⊆ s'.failing runId) {e : CheckEvent} (he : e ∈ s.eventsOf runId) :
    ∃ e' ∈ s'.eventsOf runId, e'.routed = e.routed := by
  obtain ⟨e', he', hid⟩ := List.mem_map.mp (hids (List.mem_map_of_mem he))
  exact ⟨e', he', by rw [h'.routed_eq he', h.routed_eq he, hid]⟩

private theorem mem_checksOn_of_ids (h : s.Reported ctx runId) (h' : s'.Reported ctx runId)
    (hids : s.failing runId ⊆ s'.failing runId) {root : String}
    (hroots : rootsByNode ctx.graph ((s.eventsOf runId).map CheckEvent.subject) =
      rootsByNode ctx.graph ((s'.eventsOf runId).map CheckEvent.subject))
    {k : String × CheckType × String}
    (hk : k ∈ (s.checksOn ctx runId root).map CheckEvent.routed) :
    k ∈ (s'.checksOn ctx runId root).map CheckEvent.routed := by
  obtain ⟨e, he, rfl⟩ := List.mem_map.mp hk
  rw [Store.checksOn, hroots] at he
  rw [Store.checksOn]
  cases hmemo : rootsByNode ctx.graph ((s'.eventsOf runId).map CheckEvent.subject) with
  | none => simp [hmemo] at he
  | some rootOf =>
    simp only [hmemo, List.mem_filter, decide_eq_true_eq] at he ⊢
    obtain ⟨e', he', hsame⟩ := mem_routed_of_ids h h' hids he.1
    have hsubject : e'.subject = e.subject := congrArg (fun k => k.2.2) hsame
    exact List.mem_map.mpr ⟨e', List.mem_filter.mpr ⟨he', by simp [hsubject, he.2]⟩, hsame⟩

/-- The same checks failed, the same checks are on a root, as far as routing reads them. -/
theorem mem_checksOn_congr (h : s.Reported ctx runId) (h' : s'.Reported ctx runId)
    (hids : ∀ checkId, checkId ∈ s.failing runId ↔ checkId ∈ s'.failing runId) (root : String)
    (k : String × CheckType × String) : k ∈ (s.checksOn ctx runId root).map CheckEvent.routed ↔
      k ∈ (s'.checksOn ctx runId root).map CheckEvent.routed := by
  have hids₁ : s.failing runId ⊆ s'.failing runId := fun c => (hids c).mp
  have hids₂ : s'.failing runId ⊆ s.failing runId := fun c => (hids c).mpr
  -- the memo of roots depends on the failed nodes only
  have hsubjects : ∀ {s s' : Store}, s.Reported ctx runId → s'.Reported ctx runId →
      s.failing runId ⊆ s'.failing runId → ∀ n, n ∈ (s.eventsOf runId).map CheckEvent.subject →
        n ∈ (s'.eventsOf runId).map CheckEvent.subject := by
    intro s s' h h' hids n hn
    obtain ⟨e, he, rfl⟩ := List.mem_map.mp hn
    obtain ⟨e', he', hsame⟩ := mem_routed_of_ids h h' hids he
    exact List.mem_map.mpr ⟨e', he', congrArg (fun k => k.2.2) hsame⟩
  have hroots : rootsByNode ctx.graph ((s.eventsOf runId).map CheckEvent.subject) =
      rootsByNode ctx.graph ((s'.eventsOf runId).map CheckEvent.subject) := by
    apply rootsByNode_congr
    intro n
    exact ⟨hsubjects h h' hids₁ n, hsubjects h' h hids₂ n⟩
  exact ⟨mem_checksOn_of_ids h h' hids₁ hroots, mem_checksOn_of_ids h' h hids₂ hroots.symm⟩

/-- **Where a root is routed is a matter of which checks of the run failed.** -/
theorem routeOf_congr (h : s.Reported ctx runId) (h' : s'.Reported ctx runId)
    (hids : ∀ checkId, checkId ∈ s.failing runId ↔ checkId ∈ s'.failing runId) (root : String) :
    s.routeOf ctx runId root = s'.routeOf ctx runId root :=
  route_congr (mem_checksOn_congr h h' hids root)

/-- A group is routed by all failing checks the run has on its root. -/
theorem FactsOf.route_eq {facts : RunFacts} (h : FactsOf ctx s runId facts) {g : Group}
    (hg : g ∈ facts.groups) :
    route g.root ctx.nodes ctx.registry g.events ctx.lineage = s.routeOf ctx runId g.root := by
  obtain ⟨skipped, hperm⟩ := h.perm_groups
  obtain ⟨root, -, rfl⟩ := List.mem_map.mp (hperm.mem_iff.mp hg)
  rw [Store.routeOf]
  apply route_congr
  intro k
  have hmemo := h.rootOf
  rw [h.events] at hmemo
  simp only [List.mem_map, mem_events_groupAt, h.events, Store.checksOn, hmemo, List.mem_filter,
    decide_eq_true_eq]
  rfl

theorem checksOn_of_eventsOf (h : s.eventsOf runId = s'.eventsOf runId) (root : String) :
    s.checksOn ctx runId root = s'.checksOn ctx runId root := by
  simp only [Store.checksOn, h]

theorem routeOf_of_eventsOf (h : s.eventsOf runId = s'.eventsOf runId) (root : String) :
    s.routeOf ctx runId root = s'.routeOf ctx runId root := by
  rw [Store.routeOf, Store.routeOf, checksOn_of_eventsOf h]

/-- The roots of the groups are those the run has a failing check on. -/
theorem FactsOf.exists_group_iff {facts : RunFacts} (h : FactsOf ctx s runId facts) {root : String} :
    (∃ g ∈ facts.groups, g.root = root) ↔ s.checksOn ctx runId root ≠ [] := by
  have hmemo := h.rootOf
  rw [h.events] at hmemo
  rw [← List.mem_map, h.perm_roots.mem_iff, rootsFrom, mem_sortedSet, Store.checksOn, hmemo,
    h.events]
  simp only [List.mem_filterMap, ne_eq, List.filter_eq_nil_iff, decide_eq_true_eq, not_forall,
    not_not, exists_prop]

end Checks

/-! ## One ingest -/

/-- A regrouping writes no owner and no team. -/
theorem Regrouping.fate_recipient {r : Regrouping} {into : Incident → ℕ} {i : Incident} :
    (r.fate into i).recipient = i.recipient := by
  obtain ⟨_, _, heq⟩ := @fate_eq r into i
  rw [heq]
  rfl

namespace IngestCall.Ingested

variable {call : IngestCall} {s s' : Store} {r : Regrouping} {news : List Incident}
  {assignment : List (String × ℕ)} {out : Regrouped}
  (h : call.Ingested s r news assignment s' out)

include h

/-- A regrouping attributes the failing checks, and changes none. -/
theorem eventsOf_eq (runId : String) : s'.eventsOf runId = r.store.eventsOf runId := by
  rw [Store.eventsOf, Store.eventsOf, h.checkEvents, List.filter_map, List.map_map]
  simp only [Function.comp_def, Regrouping.event_attributed]

/-- The failing checks of other runs stay as they are. -/
theorem eventsOf_of_ne {runId : String} (hrun : runId ≠ r.runId) :
    s'.eventsOf runId = s.eventsOf runId := by
  rw [Store.eventsOf, Store.eventsOf, h.filter_checkEvents]
  intro row hrow
  rw [of_decide_eq_true hrow]
  exact hrun

/-- The failing checks of its run are those there were and those the new files report. -/
theorem mem_eventsOf_cases {e : CheckEvent} (he : e ∈ s'.eventsOf r.runId) :
    e ∈ s.eventsOf r.runId ∨ ∃ a ∈ call.fresh s,
      e ∈ eventsIn call.ctx.nodes call.runId call.detected a := by
  rw [h.eventsOf_eq] at he
  obtain ⟨row, hrow, hrun, rfl⟩ := mem_eventsOf.mp he
  obtain ⟨rows, hrows, hnew, -⟩ := h.reached.recorded.checkEvents
  rcases List.mem_append.mp (hrows ▸ hrow) with hold | hrow
  · exact Or.inl (mem_eventsOf.mpr ⟨row, hold, hrun, rfl⟩)
  · exact Or.inr (hnew row hrow).2

theorem failing_subset : s.failing r.runId ⊆ s'.failing r.runId := by
  intro c hc
  obtain ⟨e, he, rfl⟩ := List.mem_map.mp hc
  apply List.mem_map_of_mem
  rw [h.eventsOf_eq]
  obtain ⟨row, hrow, hrun, rfl⟩ := mem_eventsOf.mp he
  exact mem_eventsOf.mpr ⟨row, h.mem_recorded hrow, hrun, rfl⟩

/-- Every failing check that the new files report is recorded, unless it is there already. -/
theorem mem_failing_of_fresh {a : Artifact} (ha : a ∈ call.fresh s) {e : CheckEvent}
    (he : e ∈ eventsIn call.ctx.nodes call.runId call.detected a) :
    e.checkId ∈ s'.failing r.runId := by
  obtain ⟨rows, hrows, -, hall⟩ := h.reached.recorded.checkEvents
  obtain ⟨row, hrow, hrun, hid⟩ := hall a ha e he
  rw [← hid]
  apply List.mem_map_of_mem
  rw [h.eventsOf_eq]
  exact mem_eventsOf.mpr ⟨row, hrows ▸ hrow, hrun.trans h.reached.runId.symm, rfl⟩

theorem reported_after {ctx : Context} {runId : String} (hctx : call.runId = runId → call.ctx = ctx)
    (hreported : s.Reported ctx runId) : s'.Reported ctx runId := by
  intro e he
  by_cases hrun : runId = r.runId
  · subst hrun
    have hcall : call.ctx = ctx := hctx h.reached.runId.symm
    -- a check of the run was there, or one of the new files reports it
    rcases h.mem_eventsOf_cases he with hold | ⟨a, ha, hin⟩
    · obtain ⟨a, time, hparse, hall⟩ := hreported e hold
      exact ⟨a, time, hparse, fun e' he' => h.failing_subset (hall e' he')⟩
    · refine ⟨a, timeOf call.detected a, ?_, fun e' he' => h.mem_failing_of_fresh ha ?_⟩
      · rw [← hcall, h.reached.runId]
        exact hin
      · rw [← hcall, h.reached.runId] at he'
        exact he'
  · have hsame := h.eventsOf_of_ne hrun
    rw [hsame] at he
    rw [Store.failing, hsame]
    exact hreported e he

/-- An incident that is not merged afterwards is new, and on record as its group was routed, or on
record as it was. -/
theorem recipient_cases {x : Incident} (hx : x ∈ s'.incidents) (hunmerged : x.mergedInto = none) :
    (∃ g ∈ r.facts.groups, x.root = g.root ∧ x.openedByRun = r.runId ∧
      x.recipient =
        (route g.root r.ctx.nodes r.ctx.registry g.events r.ctx.lineage).recipient) ∨
    ∃ i ∈ s.incidents, x.Same i ∧ x.recipient = i.recipient ∧ i.mergedInto = none ∧
      (i.openedByRun = r.runId → i ∈ r.mine ∧ r.isReused i = true) := by
  rcases h.unmerged_from hx hunmerged with ⟨n, hn, heq⟩ | ⟨i, hi, heq, hnone, hown⟩
  · obtain ⟨g, hg, -, incidents, rfl⟩ := (h.isNew n hn).opened
    rw [heq]
    exact Or.inl ⟨g, hg, rfl, rfl, rfl⟩
  · refine Or.inr ⟨i, hi, ?_, ?_, hnone, hown⟩
    · rw [heq]
      exact ⟨Regrouping.fate_same.seq, Regrouping.fate_same.root, Regrouping.fate_same.openedAt,
        Regrouping.fate_same.openedByRun⟩
    · rw [heq]
      exact Regrouping.fate_recipient

/-- An incident that a group reuses is there afterwards, not merged and on record as it was. -/
theorem exists_of_reused {i : Incident} (hi : i ∈ r.mine) (hreused : r.isReused i = true) :
    ∃ x ∈ s'.incidents, x.Same i ∧ x.recipient = i.recipient ∧ x.mergedInto = none := by
  obtain ⟨hmem, hnone, -⟩ := Regrouping.mem_mine.mp hi
  obtain ⟨severityOf, hincidents⟩ := h.incidents
  have hfate : (r.fate (r.into assignment) i).mergedInto = none := by
    apply Regrouping.fate_mergedInto.mpr
    refine ⟨hnone, fun hnot => ?_⟩
    rw [hreused] at hnot
    cases hnot.2
  have hin : r.fate (r.into assignment) i ∈ s.incidents.map (r.fate (r.into assignment)) ++ news :=
    List.mem_append_left _ (List.mem_map_of_mem (h.incidents_eq ▸ hmem))
  rw [hincidents]
  exact ⟨_, List.mem_map_of_mem hin, ⟨Regrouping.fate_same.seq, Regrouping.fate_same.root,
    Regrouping.fate_same.openedAt, Regrouping.fate_same.openedByRun⟩, Regrouping.fate_recipient, hfate⟩

/-- **One ingest**: where every incident of a run was on record as its checks routed it, every one is
again exactly when the ingest is of another run or keeps the routes. -/
theorem routedByAll_iff {ctx : Context} {runId : String} (hctx : call.runId = runId → call.ctx = ctx)
    (hrouted : s.RoutedByAll ctx runId) :
    s'.RoutedByAll ctx runId ↔ (r.runId = runId → r.KeepsRoutes s) := by
  by_cases hrun : r.runId = runId
  · subst hrun
    have hr : r.ctx = ctx := h.reached.ctx.trans (hctx h.reached.runId.symm)
    subst hr
    have hroute : ∀ root, s'.routeOf r.ctx r.runId root = r.store.routeOf r.ctx r.runId root :=
      routeOf_of_eventsOf (h.eventsOf_eq r.runId)
    constructor
    · -- what is reused is still there, on record as it was
      intro hall _ i hi hreused
      obtain ⟨x, hx, hsame, hrecipient, hnone⟩ := h.exists_of_reused hi hreused
      obtain ⟨hmem, hunmerged, hown⟩ := Regrouping.mem_mine.mp hi
      rw [← hroute, ← hrouted i (h.incidents_eq ▸ hmem) hunmerged hown, ← hrecipient, ← hsame.root]
      exact (hall x hx hnone (hsame.openedByRun.trans hown)).symm
    · intro hkeeps x hx hunmerged hown
      rw [hroute]
      rcases h.recipient_cases hx hunmerged with
        ⟨g, hg, hroot, -, hrecipient⟩ | ⟨i, hi, hsame, hrecipient, hnone, hreused⟩
      · -- a new incident was routed by its group just now
        have hfacts := h.reached.facts
        rw [← h.reached.ctx, ← h.reached.runId] at hfacts
        rw [hrecipient, hroot, hfacts.route_eq hg]
      · -- a reused one keeps its route, and the route does not change
        obtain ⟨hmine, hreused⟩ := hreused (hsame.openedByRun.symm.trans hown)
        rw [hrecipient, hsame.root, hkeeps rfl i hmine hreused]
        exact hrouted i hi hnone (hsame.openedByRun.symm.trans hown)
  · -- an ingest of another run touches none of it
    refine iff_of_true ?_ fun heq => absurd heq hrun
    intro x hx hunmerged hown
    rw [routeOf_of_eventsOf (h.eventsOf_of_ne (Ne.symm hrun))]
    rcases h.recipient_cases hx hunmerged with
      ⟨g, -, -, hopened, -⟩ | ⟨i, hi, hsame, hrecipient, hnone, -⟩
    · exact absurd (hopened.symm.trans hown) hrun
    · rw [hrecipient, hsame.root]
      exact hrouted i hi hnone (hsame.openedByRun.symm.trans hown)

theorem failsOnOwn {ctx : Context} {runId : String} (hctx : call.runId = runId → call.ctx = ctx)
    (hfails : s.FailsOnOwn ctx runId) : s'.FailsOnOwn ctx runId := by
  intro x hx hunmerged hown
  -- a new incident is on the root of its group
  rcases h.recipient_cases hx hunmerged with
    ⟨g, hg, hroot, hopened, -⟩ | ⟨i, hi, hsame, -, hnone, hreused⟩
  · have hrun : r.runId = runId := hopened.symm.trans hown
    have hfacts := h.reached.facts
    rw [hctx (h.reached.runId.symm.trans hrun), ← h.reached.runId, hrun] at hfacts
    rw [checksOn_of_eventsOf (h.eventsOf_eq runId), hroot]
    exact hfacts.exists_group_iff.mp ⟨g, hg, rfl⟩
  · have hown' : i.openedByRun = runId := hsame.openedByRun.symm.trans hown
    rw [hsame.root]
    by_cases hrun : r.runId = runId
    · -- the group that reuses the incident is on its root
      obtain ⟨g, hg, hreuses⟩ :=
        Regrouping.isReused_eq_true.mp (hreused (hown'.trans hrun.symm)).2
      have hroot : i.root = g.root := by
        simpa using List.find?_some (Regrouping.reuses_eq_some.mp hreuses).2
      have hfacts := h.reached.facts
      rw [hctx (h.reached.runId.symm.trans hrun), ← h.reached.runId, hrun] at hfacts
      rw [checksOn_of_eventsOf (h.eventsOf_eq runId)]
      exact hfacts.exists_group_iff.mp ⟨g, hg, hroot.symm⟩
    · rw [checksOn_of_eventsOf (h.eventsOf_of_ne (Ne.symm hrun))]
      exact hfails i hi hnone hown'

end IngestCall.Ingested

/-! ## All at once -/

section AtOnce

variable {ctx : Context} {runId : String} {s : Store}

/-- **At once**, every incident is on record as all failing checks route it. -/
theorem AtOnce.routedByAll {failing : List String} {start s₁ : Store} {call : IngestCall}
    (h : AtOnce ctx runId failing start call s₁) :
    s₁.RoutedByAll ctx runId ∧ s₁.Reported ctx runId ∧
      ∀ checkId, checkId ∈ s₁.failing runId ↔ checkId ∈ failing := by
  obtain ⟨rfl, rfl, hsound, hunheard, hunopened, hfailing, out, hingest⟩ := h
  have hrouted : start.RoutedByAll call.ctx call.runId :=
    fun i hi _ hown => absurd hown (hunopened i hi)
  have hreported : start.Reported call.ctx call.runId := by
    intro e he
    rw [hunheard] at he
    cases he
  have hends : Ends (call.ingest start) _ _ :=
    IngestCall.ingest_ends hsound.numbered hsound.oneOpen
  -- nothing fresh, or one ingest of all of it
  rcases hends.returned hingest with ⟨hnone, rfl⟩ | ⟨-, r, news, assignment, hin⟩
  · refine ⟨hrouted, hreported, fun checkId => ?_⟩
    rw [hfailing, hnone, Store.failing, hunheard]
    simp
  · have hrun : r.runId = call.runId := hin.reached.runId
    refine ⟨(hin.routedByAll_iff (fun _ => rfl) hrouted).mpr fun _ i hi => ?_,
      hin.reported_after (fun _ => rfl) hreported, fun checkId => ?_⟩
    · -- the run has nothing of its own yet
      obtain ⟨hmem, -, hown⟩ := Regrouping.mem_mine.mp hi
      exact absurd (hown.trans hrun) (hunopened i (hin.incidents_eq ▸ hmem))
    · rw [hfailing, ← hrun]
      constructor
      · intro hc
        obtain ⟨e, he, rfl⟩ := List.mem_map.mp hc
        rcases hin.mem_eventsOf_cases he with hold | ⟨a, ha, he⟩
        · rw [hrun, hunheard] at hold
          cases hold
        · exact ⟨a, ha, e, hrun ▸ he, rfl⟩
      · rintro ⟨a, ha, e, he, rfl⟩
        exact hin.mem_failing_of_fresh ha (hrun ▸ he)

/-- Routed by all its failing checks, a run is routed as one. -/
theorem Store.RoutedByAll.routedAsOne (h : s.RoutedByAll ctx runId)
    (hreported : s.Reported ctx runId) : s.RoutedAsOne ctx runId := by
  intro start call s₁ honce i hi j hj hunmerged hown hunmerged' hown' hroot
  obtain ⟨hrouted, hreported', hsame⟩ := honce.routedByAll
  have hroute := routeOf_congr hreported' hreported hsame j.root
  have hrecipient : i.recipient = j.recipient := by
    rw [h i hi hunmerged hown, hrouted j hj hunmerged' hown', hroute, hroot]
  exact Prod.mk.inj hrecipient

/-- A result file reports this check as failing. -/
private def Reports (nodes : Manifest) (kind : ArtifactKind) (results : List ResultEntry)
    (checkId : String) : Prop :=
  ∃ entry ∈ results, match kind with
    | .sources => entry.status ∈ failedFreshnessStatuses ∧ "freshness:" ++ entry.uniqueId = checkId
    | .runResults => (failureOf nodes "" 0 entry).isSome ∧ entry.uniqueId = checkId

private theorem isSome_failureOf {nodes : Manifest} {runId : String} {time : Timestamp}
    {entry : ResultEntry} :
    (failureOf nodes runId time entry).isSome = (failureOf nodes "" 0 entry).isSome := by
  rw [failureOf, failureOf]
  cases nodes.get entry.uniqueId with
  | none => rfl
  | some node =>
    simp only [Option.bind_some]
    split <;> [rfl; split <;> [rfl; split <;> rfl]]

/-- Which checks a file reports as failing does not depend on the run or the time. -/
private theorem exists_mem_parse_iff {a : Artifact} {nodes : Manifest} {runId : String}
    {time : Timestamp} {checkId : String} :
    (∃ e ∈ (parse a nodes runId time).events, e.checkId = checkId) ↔
      Reports nodes a.kind a.results checkId := by
  rw [parse, Reports]
  cases a.kind with
  | sources =>
    simp only [parseFreshness, (perm_sortEvents _).mem_iff, List.mem_map, List.mem_filter,
      decide_eq_true_eq]
    constructor
    · -- the freshness of a source fails by its status
      rintro ⟨_, ⟨entry, ⟨hentry, hstatus⟩, rfl⟩, rfl⟩
      exact ⟨entry, hentry, hstatus, rfl⟩
    · rintro ⟨entry, hentry, hstatus, rfl⟩
      exact ⟨_, ⟨entry, ⟨hentry, hstatus⟩, rfl⟩, rfl⟩
  | runResults =>
    simp only [parseRunResults, (perm_sortEvents _).mem_iff, List.mem_filterMap]
    constructor
    · rintro ⟨e, ⟨entry, hentry, he⟩, rfl⟩
      refine ⟨entry, hentry, ?_, (failureOf_eq_some he).2.1.symm⟩
      rw [← isSome_failureOf, he]
      rfl
    · rintro ⟨entry, hentry, hfails, rfl⟩
      rw [← isSome_failureOf] at hfails
      obtain ⟨e, he⟩ := Option.isSome_iff_exists.mp hfails
      exact ⟨e, ⟨entry, hentry, he⟩, (failureOf_eq_some he).2.1⟩

/-- Several files of a kind in one. -/
private def joinedFile (id : String) (kind : ArtifactKind) (files : List Artifact) : Artifact :=
  ⟨id, kind, 0, (files.filter fun a => a.kind = kind).flatMap Artifact.results⟩

private theorem reports_joinedFile {id : String} {kind : ArtifactKind} {files : List Artifact}
    {nodes : Manifest} {checkId : String} :
    Reports nodes kind (joinedFile id kind files).results checkId ↔
      ∃ a ∈ files, a.kind = kind ∧ Reports nodes a.kind a.results checkId := by
  simp only [Reports, joinedFile, List.mem_flatMap, List.mem_filter, decide_eq_true_eq]
  constructor
  · rintro ⟨entry, ⟨a, ⟨ha, rfl⟩, hentry⟩, hreports⟩
    exact ⟨a, ha, rfl, entry, hentry, hreports⟩
  · rintro ⟨a, ha, rfl, entry, hentry, hreports⟩
    exact ⟨entry, ⟨a, ⟨ha, rfl⟩, hentry⟩, hreports⟩

/-- One build that reports everything the run failed on: its two result files. -/
private theorem exists_build (hreported : s.Reported ctx runId) :
    ∃ results freshness : List ResultEntry, ∀ checkId, checkId ∈ s.failing runId ↔
      Reports ctx.nodes .runResults results checkId ∨
        Reports ctx.nodes .sources freshness checkId := by
  -- one file for each failing check, then all of a kind in one
  choose file time hparse hall using hreported
  let files := (s.eventsOf runId).attach.map fun e => file e.1 e.2
  refine ⟨(joinedFile "" .runResults files).results, (joinedFile "" .sources files).results,
    fun checkId => ?_⟩
  rw [reports_joinedFile, reports_joinedFile]
  constructor
  · intro hc
    obtain ⟨e, he, rfl⟩ := List.mem_map.mp hc
    have hfile : file e he ∈ files := List.mem_map.mpr ⟨⟨e, he⟩, List.mem_attach _ _, rfl⟩
    have hreports := exists_mem_parse_iff.mp ⟨e, hparse e he, rfl⟩
    cases hkind : (file e he).kind with
    | runResults => exact Or.inl ⟨_, hfile, hkind, hreports⟩
    | sources => exact Or.inr ⟨_, hfile, hkind, hreports⟩
  · have hback : ∀ a ∈ files, Reports ctx.nodes a.kind a.results checkId →
        checkId ∈ s.failing runId := by
      intro a ha hreports
      obtain ⟨⟨e, he⟩, -, rfl⟩ := List.mem_map.mp ha
      obtain ⟨e', he', rfl⟩ := (@exists_mem_parse_iff _ _ runId (time e he) _).mpr hreports
      exact hall e he e' he'
    rintro (⟨a, ha, -, hreports⟩ | ⟨a, ha, -, hreports⟩)
    · exact hback a ha hreports
    · exact hback a ha hreports

/-- In an acyclic lineage, with windows named apart, an ingest by the empty store goes through. -/
private theorem exists_ingested_empty (call : IngestCall) (hacyclic : call.ctx.graph.Acyclic)
    (hnamed : call.ctx.policy.NamedApart)
    (hids : ((call.fresh {}).map Artifact.invocationId).Nodup) (hfresh : call.fresh {} ≠ []) :
    ∃ s' out r news assignment, call.ingest {} = .ok (s', out) ∧
      call.Ingested {} r news assignment s' out := by
  have hsound := Store.sound_empty
  have hends : Ends (call.ingest {}) _ _ := (IngestCall.ingest_ends hsound.numbered hsound.oneOpen).and
    (IngestCall.ingest_fit call hnamed hsound Store.raisesFit_empty)
  cases hingest : call.ingest {} with
  | ok p =>
    obtain ⟨⟨hnone, -⟩ | ⟨-, r, news, assignment, hin⟩, -⟩ := hends.returned hingest
    · exact absurd hnone hfresh
    · exact ⟨p.1, p.2, r, news, assignment, rfl, hin⟩
  | error e =>
    obtain ⟨⟨-, hstumbles⟩, hraise⟩ := hends.raised hingest
    -- with no incident there is nothing to stand in the way of a new one
    have hnone : ∀ {r : Regrouping}, call.regrouping {} = .ok r → r.store.incidents = [] :=
      fun hr => (IngestCall.regrouping_ends.returned hr).recorded.incidents
    cases hstumbles with
    | invocation hnodup => exact absurd (by simpa using hids) hnodup
    | lineage hcyclic => exact absurd hacyclic hcyclic
    | @oneOpen r hr hclear =>
      refine absurd ⟨fun g _ _ j hj => ?_, fun i _ _ j hj => ?_⟩ hclear
      · rw [hnone hr] at hj
        cases hj
      · rw [hnone hr] at hj
        cases hj
    | @rootless r key hr hrooted =>
      refine absurd ⟨fun e he => ?_, fun i hi => ?_⟩ hrooted
      · exact (IngestCall.regrouping_ends.returned hr).facts.exists_root he
      · have hmem := (Regrouping.mem_mine.mp hi).1
        rw [hnone hr] at hmem
        cases hmem
    | escalation => exact absurd rfl hraise

/-- **What a run failed on comes in at once** with one build, on a store with nothing in it: every
root it failed on gets an incident. -/
private theorem exists_atOnce (hacyclic : ctx.graph.Acyclic) (hnamed : ctx.policy.NamedApart)
    (hreported : s.Reported ctx runId) :
    ∃ call s₁, AtOnce ctx runId (s.failing runId) {} call s₁ ∧
      ∀ root, s₁.checksOn ctx runId root ≠ [] → s₁.Opened runId root := by
  obtain ⟨results, freshness, hbuild⟩ := exists_build hreported
  -- all that failed, in one call, on an empty store
  let call : IngestCall := ⟨ctx, [⟨"run", .runResults, 0, results⟩,
    ⟨"freshness", .sources, 0, freshness⟩], runId, none⟩
  have hfresh : call.fresh {} = call.artifacts := by simp [IngestCall.fresh]
  obtain ⟨s₁, out, r, news, assignment, hingest, hin⟩ := exists_ingested_empty call hacyclic hnamed
    (by rw [hfresh]; simp [call]) (by rw [hfresh]; exact List.cons_ne_nil _ _)
  refine ⟨call, s₁, ?_, fun root hroot => ?_⟩
  · refine ⟨rfl, rfl, Store.sound_empty, rfl, by simp, fun checkId => ?_, out, hingest⟩
    rw [hbuild, hfresh]
    simp only [call, List.mem_cons, List.not_mem_nil, or_false, exists_eq_or_imp, exists_eq_left,
      eventsIn, exists_mem_parse_iff]
  -- nothing was there for a group to join
  · have hnone : r.before = [] := by
      apply List.eq_nil_iff_forall_not_mem.mpr
      intro i hi
      have hmem := (Regrouping.mem_before.mp hi).1
      rw [hin.incidents_eq] at hmem
      cases hmem
    have hobserved := observed hin Store.sound_empty fun i hi => by
      rw [hnone] at hi
      cases hi
    have hfacts := hin.reached.facts
    rw [checksOn_of_eventsOf (hin.eventsOf_eq runId)] at hroot
    obtain ⟨g, hg, hroot⟩ := hfacts.exists_group_iff.mpr hroot
    rw [← show r.runId = runId from hin.reached.runId]
    refine (hobserved.opened root).mpr ⟨g, hg, ?_, hroot⟩
    cases hjoins : r.joins g with
    | none => rfl
    | some i =>
      have hmem := Regrouping.mem_before_of_joins hjoins
      rw [hnone] at hmem
      cases hmem

/-- Routed as one, a run is routed by all its failing checks. -/
theorem Store.RoutedAsOne.routedByAll (h : s.RoutedAsOne ctx runId) (hacyclic : ctx.graph.Acyclic)
    (hnamed : ctx.policy.NamedApart) (hreported : s.Reported ctx runId)
    (hfails : s.FailsOnOwn ctx runId) : s.RoutedByAll ctx runId := by
  intro i hi hunmerged hown
  obtain ⟨call, s₁, honce, hopened⟩ := exists_atOnce hacyclic hnamed hreported
  obtain ⟨hrouted, hreported', hsame⟩ := honce.routedByAll
  have hchecks : s₁.checksOn ctx runId i.root ≠ [] := by
    obtain ⟨e, he⟩ := List.exists_mem_of_ne_nil _ (hfails i hi hunmerged hown)
    have hin := (mem_checksOn_congr hreported' hreported hsame i.root e.routed).mpr
      (List.mem_map_of_mem he)
    obtain ⟨e', he', -⟩ := List.mem_map.mp hin
    exact List.ne_nil_of_mem he'
  -- the build opens an incident on the same root, and it is routed by all checks
  obtain ⟨j, hj, hunmerged', hown', hroot⟩ := hopened i.root hchecks
  have hrecipient : i.recipient = j.recipient :=
    Prod.ext_iff.mpr (h {} call s₁ honce i hi j hj hunmerged hown hunmerged' hown' hroot.symm)
  rw [hrecipient, hrouted j hj hunmerged' hown', hroot, routeOf_congr hreported' hreported hsame]

end AtOnce

/-! ## In every run -/

/-- **When splitting a run leaves its routing alone**: the incidents of a run, after each of a
sequence of ingests of this and other runs, are on record with the owner and team they get where the
same failing checks come in at once, if every ingest of the run that completes keeps the routes; and
in an acyclic lineage, with windows named apart, only then. -/
theorem routed_as_one_iff (ctx : Context) (runId : String) {calls : List IngestCall}
    (hctx : ∀ call ∈ calls, call.runId = runId → call.ctx = ctx) :
    (Run deskStep (fun s call => ∀ r, call.Completes s r → r.runId = runId → r.KeepsRoutes s) {} calls
        (storeAfter calls) →
      ∀ done, done <+: calls → (storeAfter done).RoutedAsOne ctx runId) ∧
    (ctx.graph.Acyclic → ctx.policy.NamedApart →
      (∀ done, done <+: calls → (storeAfter done).RoutedAsOne ctx runId) →
        Run deskStep (fun s call => ∀ r, call.Completes s r → r.runId = runId → r.KeepsRoutes s) {}
          calls (storeAfter calls)) := by
  have hempty : Store.Reported ctx {} runId ∧ Store.FailsOnOwn ctx {} runId :=
    ⟨by simp [Store.Reported, Store.eventsOf], by simp [Store.FailsOnOwn]⟩
  have hroutes : Store.RoutedByAll ctx {} runId := by simp [Store.RoutedByAll]
  constructor
  · intro hrun done hdone
    -- the ingests that return keep the routes, one after the other
    have hall := (always_iff_of_ingested
      (J := fun s => s.Reported ctx runId ∧ s.FailsOnOwn ctx runId)
      (P := fun s => s.RoutedByAll ctx runId ∧ s.Reported ctx runId)
      (Q := fun s r => r.runId = runId → r.KeepsRoutes s)
      ⟨hempty, hroutes, hempty.1⟩ ?_ ?_).mpr hrun done hdone
    · exact hall.1.routedAsOne hall.2
    · intro call s s' r news assignment out hcall _ hJ _ h
      exact ⟨h.reported_after (hctx call hcall) hJ.1, h.failsOnOwn (hctx call hcall) hJ.2⟩
    · intro call s s' r news assignment out hcall _ hJ hP _ h
      -- the same incidents in one go: their routes are those of all checks
      rw [← h.routedByAll_iff (hctx call hcall) hP.1]
      exact and_iff_left (h.reported_after (hctx call hcall) hJ.1)
  · intro hacyclic hnamed
    refine (always_iff_of_ingested (J := fun s => s.Reported ctx runId ∧ s.FailsOnOwn ctx runId)
      (P := fun s => s.RoutedAsOne ctx runId)
      (Q := fun s r => r.runId = runId → r.KeepsRoutes s) ⟨hempty, ?_⟩ ?_ ?_).mp
    · exact hroutes.routedAsOne hempty.1
    · intro call s s' r news assignment out hcall _ hJ _ h
      exact ⟨h.reported_after (hctx call hcall) hJ.1, h.failsOnOwn (hctx call hcall) hJ.2⟩
    · intro call s s' r news assignment out hcall _ hJ hone _ h
      have hreported := h.reported_after (hctx call hcall) hJ.1
      have hfails := h.failsOnOwn (hctx call hcall) hJ.2
      rw [← h.routedByAll_iff (hctx call hcall)
        (hone.routedByAll hacyclic hnamed hJ.1 hJ.2)]
      exact ⟨fun hone' => hone'.routedByAll hacyclic hnamed hreported hfails,
        fun hall => hall.routedAsOne hreported⟩

/-- A model of two sources, with tests on the columns it has from them. -/
def ordersContext : Context where
  nodes := {
    nodes := [⟨"model.orders", .model, "orders", [], none, [], "", "", none, "", ""⟩,
      ⟨"test.known", .test, "known", ["model.orders"], some "model.orders", ["customer"],
        "", "", none, "", ""⟩,
      ⟨"test.named", .test, "named", ["model.orders"], some "model.orders", ["customer"],
        "", "", none, "", ""⟩,
      ⟨"test.paid", .test, "paid", ["model.orders"], some "model.orders", ["amount"],
        "", "", none, "", ""⟩]
    unique := by decide
    kinds := by decide }
  registry := ⟨[], [⟨"source.raw.customers", "ann", "crm", .bestEffort, none⟩,
    ⟨"source.raw.payments", "bob", "billing", .bestEffort, none⟩,
    ⟨"model.*", "eve", "data", .bestEffort, none⟩]⟩
  policy := twoModelsContext.policy
  maxOpenPerPerson := 3
  lineage := some ⟨"source.raw.", fun model => if model = "model.orders" then
    some [("customer", [("customers", "id")]), ("amount", [("payments", "amount")])] else none⟩

/-- One invocation of a night that finds these tests failing. -/
def failingTests (id : String) (tests : List String) : IngestCall :=
  { invocationOf "night 1" id 10 (tests.map (·, "fail")) with ctx := ordersContext }

/-- Both tests on the customer fail, each in an invocation of its own: the page goes to the owner of
the customers, as with one invocation. -/
theorem routed_as_one_customer :
    (storeAfter [failingTests "1" ["test.known"], failingTests "2" ["test.named"]]).RoutedAsOne
      ordersContext "night 1" := by
  have hkeeps : ∀ (call : IngestCall) (s : Store),
      Ends (call.regrouping s) (fun _ => True) (fun r => r.KeepsRoutes s) →
        ∀ r, call.Completes s r → r.runId = "night 1" → r.KeepsRoutes s :=
    fun call s hends r hr _ => hends.returned hr.regrouping
  apply (routed_as_one_iff ordersContext "night 1" (by simp [failingTests])).1 _ _ List.prefix_rfl
  apply Run.cons (hkeeps _ _ (by decide +kernel)) rfl
  exact Run.cons (hkeeps _ _ (by decide +kernel)) rfl (.nil _)

/-- The test on the amount fails as well, in a later invocation. -/
def splitInTwo : List IngestCall :=
  [failingTests "1" ["test.known"], failingTests "2" ["test.paid"]]

/-- **Split in two, the run is routed as it began**: to the owner of the customers. With one
invocation the failing columns come from two sources, and the model's owner is paged. -/
theorem split_run_misrouted : ¬ (storeAfter splitInTwo).RoutedAsOne ordersContext "night 1" := by
  intro h
  have hboth : (storeAfter splitInTwo).failing "night 1" = ["test.known", "test.paid"] := by
    decide +kernel
  have hreports : ((failingTests "1" ["test.known", "test.paid"]).fresh {}).flatMap (fun a =>
      (eventsIn ordersContext.nodes "night 1" none a).map CheckEvent.checkId) =
        ["test.known", "test.paid"] := by
    decide +kernel
  have hreturns : ∃ out, (failingTests "1" ["test.known", "test.paid"]).ingest {} =
      .ok ((failingTests "1" ["test.known", "test.paid"]).after {}, out) := by
    have hok : ((failingTests "1" ["test.known", "test.paid"]).ingest {}).isOk = true := by
      decide +kernel
    rw [IngestCall.after]
    cases hingest : (failingTests "1" ["test.known", "test.paid"]).ingest {} with
    | ok p => exact ⟨p.2, rfl⟩
    | error e =>
      rw [hingest] at hok
      cases hok
  -- the two tests in one ingest, on the empty store
  have honce : AtOnce ordersContext "night 1" ((storeAfter splitInTwo).failing "night 1") {}
      (failingTests "1" ["test.known", "test.paid"])
      ((failingTests "1" ["test.known", "test.paid"]).after {}) := by
    refine ⟨rfl, rfl, Store.sound_empty, rfl, by simp, fun checkId => ?_, hreturns⟩
    rw [hboth, ← hreports]
    simp only [List.mem_flatMap, List.mem_map]
    rfl
  have hdiffer : ∃ i ∈ (storeAfter splitInTwo).incidents,
      ∃ j ∈ ((failingTests "1" ["test.known", "test.paid"]).after {}).incidents,
        i.mergedInto = none ∧ i.openedByRun = "night 1" ∧ j.mergedInto = none ∧
          j.openedByRun = "night 1" ∧ i.root = j.root ∧ i.owner ≠ j.owner := by
    decide +kernel
  obtain ⟨i, hi, j, hj, hunmerged, hown, hunmerged', hown', hroot, hne⟩ := hdiffer
  exact hne (h _ _ _ honce i hi j hj hunmerged hown hunmerged' hown' hroot).1

end PlatformOps.Incidents
