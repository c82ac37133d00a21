import PlatformOps.Incidents.Resolution

/-!
# New Failures and Open Incidents

A failing check that an ingest records should end in an incident that is open: it is
what pages somebody, or keeps somebody busy. A group that joins an earlier incident
reopens it if the run had resolved it, and a new incident is open. But a group that
finds an incident of the run's own takes it as it is, and another run may have resolved
it in the meantime.

- `NewFailuresOpen`: every failing check an ingest recorded is in an open incident.
- `IngestCall.FindsOpen`: none of them is in a group that reuses a resolved incident.
- `newFailuresOpen_iff`: the one holds exactly when the other does.
-/

namespace PlatformOps.Incidents

open Metadata Listing Fallible Machine

/-- Every failing check of the run that is in the second store only is in an open incident. -/
def NewFailuresOpen (runId : String) (s s' : Store) : Prop :=
  ∀ row ∈ s'.checkEvents, row.event.runId = runId →
    row.event.checkId ∉ checkIdsOf runId s.checkEvents →
      ∃ i ∈ s'.incidents, row.incident = some i.seq ∧ i.isOpen = true

instance (runId : String) (s s' : Store) : Decidable (NewFailuresOpen runId s s') :=
  inferInstanceAs (Decidable (∀ row ∈ s'.checkEvents, _ → _ → _))

/-- A group takes no resolved incident of the run's own. -/
def Regrouping.TakesOpen (r : Regrouping) (g : Group) : Prop :=
  ∀ i ∈ r.mine, r.reuses g = some i → i.resolved = none

instance (r : Regrouping) (g : Group) : Decidable (r.TakesOpen g) :=
  inferInstanceAs (Decidable (∀ i ∈ r.mine, _))

/-- No failing check the regrouping's ingest has recorded goes to a resolved incident of the run's
own. -/
def Regrouping.FindsOpen (r : Regrouping) (known : List String) : Prop :=
  ∀ e ∈ r.facts.events, e.checkId ∉ known → ∀ g ∈ r.facts.groups,
    r.facts.rootOf.lookup e.subject = some g.root → r.TakesOpen g

instance (r : Regrouping) (known : List String) : Decidable (r.FindsOpen known) :=
  inferInstanceAs (Decidable (∀ e ∈ r.facts.events, _))

/-- **When new failures end in open incidents**: nothing is fresh, or none of them goes to a
resolved incident of the run's own. -/
def IngestCall.FindsOpen (call : IngestCall) (s : Store) : Prop :=
  call.fresh s = [] ∨ Ends (call.regrouping s) (fun _ => True) fun r =>
    r.FindsOpen (checkIdsOf call.runId s.checkEvents)

instance (call : IngestCall) (s : Store) : Decidable (call.FindsOpen s) :=
  inferInstanceAs (Decidable (_ ∨ Ends _ _ _))

/-! ## Where a group's incident is open -/

section Placed

variable {call : IngestCall} {s s' : Store} {r : Regrouping} {news : List Incident}
  {assignment : List (String × ℕ)} {out : Regrouped}
  (h : call.Ingested s r news assignment s' out)

include h

/-- An incident a group of the run has joined is open after the ingest. -/
private theorem isOpen_of_joins (hsound : s.Sound) {g : Group} {i x : Incident}
    (hg : g ∈ r.facts.groups) (hjoins : r.joins g = some i) (hx : x ∈ s'.incidents)
    (hseq : x.seq = i.seq) : x.isOpen = true := by
  have hbefore := Regrouping.mem_before_of_joins hjoins
  have hmem : i ∈ s.incidents := h.incidents_eq ▸ (Regrouping.mem_before.mp hbefore).1
  have halike := h.alike_of_seq hsound hmem hx hseq
  unfold Incident.isOpen
  rw [halike.resolved, halike.mergedInto]
  exact (Regrouping.isOpen_fate_iff hbefore).mpr
    (Or.inl (Regrouping.isJoined_eq_true.mpr ⟨g, hg, hjoins⟩))

/-- An incident a group of the run has reused is as it was. -/
private theorem isOpen_of_reuses (hsound : s.Sound) {g : Group} {i x : Incident}
    (hg : g ∈ r.facts.groups) (hreuses : r.reuses g = some i) (hx : x ∈ s'.incidents)
    (hseq : x.seq = i.seq) : x.isOpen = true ↔ i.resolved = none := by
  have hmine : i ∈ r.mine :=
    List.mem_of_find?_eq_some (Regrouping.reuses_eq_some.mp hreuses).2
  obtain ⟨hmem, hunmerged, -⟩ := Regrouping.mem_mine.mp hmine
  have halike := h.alike_of_seq hsound (h.incidents_eq ▸ hmem) hx hseq
  -- it is neither an earlier one nor merged, so nothing happens to it
  have hfate : r.fate (r.into assignment) i = i := by
    apply Regrouping.fate_of_not_mem_before
    · intro hbefore
      exact Regrouping.not_mem_mine_of_mem_before hbefore hmine
    · rintro ⟨-, hnot⟩
      rw [Regrouping.isReused_eq_true.mpr ⟨g, hg, hreuses⟩] at hnot
      cases hnot
  rw [hfate] at halike
  unfold Incident.isOpen
  rw [halike.resolved, halike.mergedInto, hunmerged]
  simp

/-- **The incident of a group is open** unless it is a resolved one of the run's own. -/
theorem isOpen_iff_of_place (hsound : s.Sound) {g : Group} {i x : Incident}
    (hg : g ∈ r.facts.groups) (hi : r.place news g = some i) (hx : x ∈ s'.incidents)
    (hseq : x.seq = i.seq) : x.isOpen = true ↔ r.TakesOpen g := by
  rw [Regrouping.place, Option.or_eq_some_iff] at hi
  rcases hi with hjoins | ⟨hjoins, hfind⟩
  · -- joined: reopened if it has to be
    have hopen := isOpen_of_joins h hsound hg hjoins hx hseq
    refine iff_of_true hopen fun j _ hreuses => ?_
    rw [(Regrouping.reuses_eq_some.mp hreuses).1] at hjoins
    cases hjoins
  · rw [List.find?_append, Option.or_eq_some_iff] at hfind
    rcases hfind with hmine | ⟨hnone, hnew⟩
    · -- reused: as it was
      have hreuses : r.reuses g = some i := Regrouping.reuses_eq_some.mpr ⟨hjoins, hmine⟩
      rw [isOpen_of_reuses h hsound hg hreuses hx hseq]
      constructor
      · intro hres j _ hj
        rw [hreuses] at hj
        exact Option.some.inj hj ▸ hres
      · intro htakes
        exact htakes i (List.mem_of_find?_eq_some hmine) hreuses
    · -- new: open
      have hn := List.mem_of_find?_eq_some hnew
      obtain ⟨y, hy, halike⟩ := h.exists_after (List.mem_append_right _ hn)
      have hxy : x = y :=
        (h.sound hsound).numbered.eq_of_seq hx hy (hseq.trans halike.seq.symm)
      have hopen : x.isOpen = true := by
        unfold Incident.isOpen
        rw [hxy, halike.resolved, halike.mergedInto, (h.isNew i hn).resolved,
          (h.isNew i hn).mergedInto]
        rfl
      refine iff_of_true hopen fun j _ hreuses => ?_
      rw [(Regrouping.reuses_eq_some.mp hreuses).2] at hnone
      cases hnone

/-- **One ingest**: its new failures end in open incidents exactly when it takes no resolved
incident of the run's own for them. -/
theorem newFailuresOpen_iff_findsOpen (hsound : s.Sound) :
    NewFailuresOpen call.runId s s' ↔ r.FindsOpen (checkIdsOf call.runId s.checkEvents) := by
  have hrunId : r.runId = call.runId := h.reached.runId
  constructor
  · intro hopen e he hnew g hg hlook
    obtain ⟨g', hg', i, hlook', hi, hown⟩ := h.exists_incidentOf he
    have hgg : g' = g := by
      apply List.inj_on_of_nodup_map h.reached.facts.distinct hg' hg
      exact Option.some.inj (hlook'.symm.trans hlook)
    subst hgg
    -- the row of the failing check, as the ingest leaves it
    rw [h.reached.facts.events, ← hrunId] at he
    obtain ⟨row, hrow, hrun, rfl⟩ := mem_eventsOf.mp he
    have hafter : r.attributed assignment row ∈ s'.checkEvents :=
      h.checkEvents ▸ List.mem_map_of_mem hrow
    obtain ⟨x, hx, hincident, hxo⟩ := hopen _ hafter
      (by rw [Regrouping.event_attributed, hrun, hrunId])
      (by rw [Regrouping.event_attributed]; exact hnew)
    simp only [Regrouping.attributed, if_pos hrun, hown, Except.toOption] at hincident
    exact (isOpen_iff_of_place h hsound hg hi hx (Option.some.inj hincident).symm).mp hxo
  · intro hfinds row hrow hrun hnew
    obtain ⟨row', hrow', rfl⟩ := List.mem_map.mp (h.checkEvents ▸ hrow)
    rw [Regrouping.event_attributed] at hrun hnew
    have hrun' : row'.event.runId = r.runId := hrun.trans hrunId.symm
    have hevent := h.mem_events hrow' hrun'
    obtain ⟨g, hg, i, hlook, hi, hown⟩ := h.exists_incidentOf hevent
    obtain ⟨x, hx, hsame, -⟩ := h.exists_of_place hg hi
    refine ⟨x, hx, ?_, ?_⟩
    · simp only [Regrouping.attributed, if_pos hrun', hown, Except.toOption, hsame.seq]
    · apply (isOpen_iff_of_place h hsound hg hi hx hsame.seq).mpr
      exact hfinds _ hevent hnew g hg hlook

end Placed

/-! ## In every run -/

/-- **New failures end in open incidents exactly when an ingest finds none of its own resolved**,
after any sequence of ingests. -/
theorem newFailuresOpen_iff {calls : List IngestCall} {s : Store}
    (hrun : Run deskStep (fun _ _ => True) {} calls s) {call : IngestCall} {s' : Store}
    {out : Regrouped} (hok : call.ingest s = .ok (s', out)) :
    NewFailuresOpen call.runId s s' ↔ call.FindsOpen s := by
  have hsound := sound_of_run hrun Store.sound_empty
  rcases (IngestCall.ingest_ends hsound.numbered hsound.oneOpen).returned hok with
    ⟨hfresh, rfl⟩ | ⟨hfresh, r, news, assignment, hingested⟩
  · refine iff_of_true (fun row hrow hrun' hnew => ?_) (Or.inl hfresh)
    refine absurd (List.mem_map_of_mem (List.mem_filter.mpr ⟨hrow, ?_⟩)) hnew
    rw [decide_eq_true_eq]
    exact hrun'
  · rw [newFailuresOpen_iff_findsOpen hingested hsound, IngestCall.FindsOpen, hingested.reaches,
      ends_ok, or_iff_right hfresh]

/-- A model fails, another night finds it healthy, and a later night fails on it. -/
def laterNight : IngestCall := invocationOf "night 3" "3" 30 [("model.b", "error")]

theorem newFailuresOpen_iff_later :
    laterNight.FindsOpen (storeAfter resolvingNights) ∧
      ∀ s' out, laterNight.ingest (storeAfter resolvingNights) = .ok (s', out) →
        NewFailuresOpen "night 3" (storeAfter resolvingNights) s' := by
  have hrun : Run deskStep (fun _ _ => True) {} resolvingNights (storeAfter resolvingNights) :=
    Run.of_check (by decide +kernel)
  have hfinds : laterNight.FindsOpen (storeAfter resolvingNights) := by decide +kernel
  exact ⟨hfinds, fun s' out hok => (newFailuresOpen_iff hrun hok).mpr hfinds⟩

/-- The first model fails one night and is healthy the next; then an invocation of the first night
comes in with the model below it failing too: the new failure goes to the resolved incident. -/
theorem newFailure_in_resolved :
    Ends ((invocationOf "night 1" "3" 30 [("model.b", "error")]).ingest
        (storeAfter [invocationOf "night 1" "1" 10 [("model.a", "error")],
          invocationOf "night 2" "2" 20 [("model.a", "success"), ("model.b", "success")]]))
      (fun _ => False)
      fun p => ¬ NewFailuresOpen "night 1"
        (storeAfter [invocationOf "night 1" "1" 10 [("model.a", "error")],
          invocationOf "night 2" "2" 20 [("model.a", "success"), ("model.b", "success")]]) p.1 := by
  decide +kernel

end PlatformOps.Incidents
