import PlatformOps.Incidents.Effects

/-!
# Attribution and Merges

Every failing check and every run link points to an incident. A regrouping rewrites
the rows of its own run only, and merges incidents the run opened: so the rows of
the run are right after it (`Attributed`), and those of other runs if none of them
points to an incident it merges (`Keeps`).

When one does, it is left pointing to a merged incident, which no later ingest of
its run need ever repair.
-/

namespace PlatformOps.Incidents

open Fallible Machine Listing

/-- Every failing check and every run link points to an incident that is not merged, and a link
counts the checks of its run on its incident. -/
structure Attributed (s : Store) : Prop where
  events : ∀ row ∈ s.checkEvents, ∃ i ∈ s.incidents, row.incident = some i.seq ∧
    i.mergedInto = none
  links : ∀ link ∈ s.runLinks, ∃ i ∈ s.incidents, link.incident = i.seq ∧ i.mergedInto = none
  counts : ∀ link ∈ s.runLinks, link.checks = s.checkEvents.countP fun row =>
    row.event.runId = link.runId && row.incident = some link.incident

instance (s : Store) : Decidable (Attributed s) :=
  decidable_of_iff
    ((∀ row ∈ s.checkEvents, ∃ i ∈ s.incidents, row.incident = some i.seq ∧ i.mergedInto = none) ∧
      (∀ link ∈ s.runLinks, ∃ i ∈ s.incidents, link.incident = i.seq ∧ i.mergedInto = none) ∧
      ∀ link ∈ s.runLinks, link.checks = s.checkEvents.countP fun row =>
        row.event.runId = link.runId && row.incident = some link.incident)
    ⟨fun h => ⟨h.1, h.2.1, h.2.2⟩, fun h => ⟨h.events, h.links, h.counts⟩⟩

/-- No row of another run points to an incident that the regrouping merges. -/
def Regrouping.Keeps (r : Regrouping) : Prop :=
  ∀ i ∈ r.mine, r.isReused i = false →
    (∀ row ∈ r.store.checkEvents, row.event.runId ≠ r.runId → row.incident ≠ some i.seq) ∧
    ∀ link ∈ r.store.runLinks, link.runId ≠ r.runId → link.incident ≠ i.seq

instance (r : Regrouping) : Decidable r.Keeps := by
  unfold Regrouping.Keeps
  infer_instance

/-- An ingest that merges no incident another run points to. -/
def IngestCall.Keeps (call : IngestCall) (s : Store) : Prop :=
  call.fresh s = [] ∨ Ends (call.regrouping s) (fun _ => True) Regrouping.Keeps

instance (call : IngestCall) (s : Store) : Decidable (call.Keeps s) :=
  inferInstanceAs (Decidable (_ ∨ _))

section Step

variable {call : IngestCall} {s s' : Store} {r : Regrouping} {news : List Incident}
  {assignment : List (String × ℕ)} {out : Regrouped}
  (h : call.Ingested s r news assignment s' out)

include h

/-- The rows of the run point to incidents that are not merged, whatever was merged. -/
private theorem own_events {row : EventRow} (hrow : row ∈ s'.checkEvents)
    (hrun : row.event.runId = r.runId) :
    ∃ i ∈ s'.incidents, row.incident = some i.seq ∧ i.mergedInto = none := by
  rw [h.checkEvents] at hrow
  obtain ⟨row', hrow', rfl⟩ := List.mem_map.mp hrow
  by_cases hrun' : row'.event.runId = r.runId
  · obtain ⟨g, hg, i, -, hi, hincident⟩ := h.exists_incidentOf (h.mem_events hrow' hrun')
    obtain ⟨x, hx, hsame, hnone⟩ := h.exists_of_place hg hi
    refine ⟨x, hx, ?_, hnone⟩
    rw [Regrouping.attributed, if_pos hrun', hincident, hsame.seq]
    rfl
  · rw [Regrouping.attributed, if_neg hrun'] at hrun
    exact absurd hrun hrun'

/-- A link of the run counts its checks on one of the incidents they were attributed to. -/
private theorem own_links {link : RunLink} (hlink : link ∈ s'.runLinks)
    (hrun : link.runId = r.runId) :
    (∃ i ∈ s'.incidents, link.incident = i.seq ∧ i.mergedInto = none) ∧
      link.checks = s'.checkEvents.countP fun row =>
        row.event.runId = link.runId && row.incident = some link.incident := by
  obtain ⟨own, hown, hlinks⟩ := h.runLinks
  rw [hlinks, List.mem_append, List.mem_filter] at hlink
  have hlink := hlink.resolve_left fun hother => by simp [hrun] at hother
  obtain ⟨seq, hseq, rfl⟩ := List.mem_map.mp hlink
  refine ⟨?_, ?_⟩
  · obtain ⟨e, he, hincident⟩ := exists_preimage_of_mem hown (mem_sortedSet.mp hseq)
    obtain ⟨g, hg, i, -, hi, hincident'⟩ := h.exists_incidentOf he
    obtain rfl := Except.ok.inj (hincident.symm.trans hincident')
    obtain ⟨x, hx, hsame, hnone⟩ := h.exists_of_place hg hi
    exact ⟨x, hx, hsame.seq.symm, hnone⟩
  · -- a check is counted where the row of the check points
    have hevents : r.facts.events.Perm
        ((r.store.checkEvents.filter fun row => row.event.runId = r.runId).map EventRow.event) := by
      rw [h.reached.facts.events, ← h.reached.runId]
      exact perm_sortBy _ _
    change own.count seq = _
    rw [count_of_mapM_eq_ok hown, hevents.countP_eq, List.countP_map, List.countP_filter,
      h.checkEvents, List.countP_map]
    refine List.countP_congr fun row _ => ?_
    by_cases hrun' : row.event.runId = r.runId
    · simp [Regrouping.attributed, hrun']
    · simp [Regrouping.attributed, hrun']

/-- **One ingest keeps the attribution exactly if it merges no incident another run points to.** -/
private theorem attributed_iff (hsound : s.Sound) (hattr : Attributed s) :
    Attributed s' ↔ r.Keeps := by
  have hother : ∀ {link : RunLink}, link.runId ≠ r.runId →
      (link ∈ s'.runLinks ↔ link ∈ s.runLinks) := by
    intro link hrun
    obtain ⟨own, -, hlinks⟩ := h.runLinks
    rw [hlinks, List.mem_append, List.mem_filter]
    refine ⟨fun hmem => (hmem.resolve_right fun hown => ?_).1,
      fun hmem => Or.inl ⟨hmem, by simpa using hrun⟩⟩
    obtain ⟨_, -, rfl⟩ := List.mem_map.mp hown
    exact hrun rfl
  constructor
  · intro hattr' i hi hreused
    obtain ⟨hmem, hnone, -⟩ := Regrouping.mem_mine.mp hi
    rw [h.incidents_eq] at hmem
    -- what carries the incident's number after the ingest is merged
    have hmerged : ∀ x ∈ s'.incidents, x.seq = i.seq → x.mergedInto ≠ none := by
      intro x hx hseq hx'
      have halike := h.alike_of_seq hsound hmem hx hseq
      exact (Regrouping.fate_mergedInto.mp (halike.mergedInto.symm.trans hx')).2 ⟨hi, hreused⟩
    refine ⟨fun row hrow hrun heq => ?_, fun link hlink hrun heq => ?_⟩
    · have hrow' : row ∈ s'.checkEvents := by
        rw [h.checkEvents]
        exact List.mem_map.mpr ⟨row, hrow, by rw [Regrouping.attributed, if_neg hrun]⟩
      obtain ⟨x, hx, hseq, hx'⟩ := hattr'.events row hrow'
      exact hmerged x hx (Option.some.inj (hseq.symm.trans heq)) hx'
    · rw [h.reached.recorded.runLinks] at hlink
      obtain ⟨x, hx, hseq, hx'⟩ := hattr'.links link ((hother hrun).mpr hlink)
      exact hmerged x hx (hseq.symm.trans heq) hx'
  · intro hkeeps
    -- an incident another run points to is there after the ingest, and not merged
    have hkept : ∀ i ∈ s.incidents, i.mergedInto = none →
        ¬ (i ∈ r.mine ∧ r.isReused i = false) →
        ∃ x ∈ s'.incidents, i.seq = x.seq ∧ x.mergedInto = none := by
      intro i hi hnone hnot
      obtain ⟨x, hx, halike⟩ := h.exists_after (List.mem_append_left _ (List.mem_map_of_mem hi))
      exact ⟨x, hx, (halike.toSame.trans Regrouping.fate_same).seq.symm,
        halike.mergedInto.trans (Regrouping.fate_mergedInto.mpr ⟨hnone, hnot⟩)⟩
    refine ⟨fun row hrow => ?_, fun link hlink => ?_, fun link hlink => ?_⟩
    · by_cases hrun : row.event.runId = r.runId
      · exact own_events h hrow hrun
      · have hold := (h.mem_checkEvents_of_ne hrun).mp hrow
        obtain ⟨i, hi, hincident, hnone⟩ := hattr.events row hold
        obtain ⟨x, hx, hseq, hx'⟩ := hkept i hi hnone fun hmerged =>
          (hkeeps i hmerged.1 hmerged.2).1 row (h.mem_recorded hold) hrun hincident
        exact ⟨x, hx, hseq ▸ hincident, hx'⟩
    · by_cases hrun : link.runId = r.runId
      · exact (own_links h hlink hrun).1
      · have hold := (hother hrun).mp hlink
        obtain ⟨i, hi, hincident, hnone⟩ := hattr.links link hold
        obtain ⟨x, hx, hseq, hx'⟩ := hkept i hi hnone fun hmerged =>
          (hkeeps i hmerged.1 hmerged.2).2 link (h.reached.recorded.runLinks ▸ hold) hrun hincident
        exact ⟨x, hx, hincident.trans hseq, hx'⟩
    · by_cases hrun : link.runId = r.runId
      · exact (own_links h hlink hrun).2
      · rw [hattr.counts link ((hother hrun).mp hlink), List.countP_eq_length_filter,
          List.countP_eq_length_filter, h.filter_checkEvents]
        intro row hrow
        simp only [Bool.and_eq_true, decide_eq_true_eq] at hrow
        exact fun heq => hrun (hrow.1.symm.trans heq)

end Step

/-! ## The main result -/

/-- **Attribution is never lost while no ingest merges what another run points to**: in every run
of such ingests from the empty store, each failing check and each link points to an incident that
is not merged, and the links count their checks. An ingest that returns keeps it so exactly if it
is another such ingest. -/
theorem attributed_of_keeps {calls : List IngestCall} {s : Store}
    (hrun : Run deskStep (fun s call => call.Keeps s) {} calls s) :
    Attributed s ∧ ∀ (call : IngestCall) (s' : Store) (out : Regrouped),
      call.ingest s = .ok (s', out) → (Attributed s' ↔ call.Keeps s) := by
  have hstep : ∀ {s s' : Store} {call : IngestCall} {out : Regrouped}, s.Sound → Attributed s →
      call.ingest s = .ok (s', out) → (Attributed s' ↔ call.Keeps s) := by
    intro s s' call out hsound hattr hok
    rcases (IngestCall.ingest_ends hsound.numbered hsound.oneOpen).returned hok with
      ⟨hfresh, rfl⟩ | ⟨hfresh, r, news, assignment, hingested⟩
    · exact ⟨fun _ => Or.inl hfresh, fun _ => hattr⟩
    · rw [attributed_iff hingested hsound hattr, IngestCall.Keeps, hingested.reaches, ends_ok]
      exact (or_iff_right hfresh).symm
  have hboth : s.Sound ∧ Attributed s := by
    refine hrun.invariant (I := fun s => s.Sound ∧ Attributed s) ?_
      fun s call s' hs hkeeps hstep' => ?_
    · exact ⟨Store.sound_empty, ⟨by simp, by simp, by simp⟩⟩
    obtain rfl := Option.some.inj hstep'
    refine ⟨call.sound_after hs.1, ?_⟩
    rw [IngestCall.after]
    split
    · rename_i s' out hok
      exact (hstep hs.1 hs.2 hok).mpr hkeeps
    · exact hs.2
  exact ⟨hboth.2, fun _ _ _ hok => hstep hboth.1 hboth.2 hok⟩

/-- The second model fails, then the first in the same run, so the incident on the second is merged;
the next run's failure joins the incident that is left. -/
def keepingNights : List IngestCall :=
  [invocationOf "night 1" "1" 10 [("model.b", "error")],
    invocationOf "night 1" "2" 20 [("model.a", "error")],
    invocationOf "night 2" "3" 30 [("model.b", "error")]]

theorem attributed_of_keeps_nights :
    Attributed (storeAfter keepingNights) ∧ ∀ (call : IngestCall) (s' : Store) (out : Regrouped),
      call.ingest (storeAfter keepingNights) = .ok (s', out) →
        (Attributed s' ↔ call.Keeps (storeAfter keepingNights)) := by
  have hrun : Run deskStep (fun s call => call.Keeps s) {} keepingNights
      (storeAfter keepingNights) := Run.of_check (by decide +kernel)
  exact attributed_of_keeps hrun

/-- Had the next run failed in between, its failing check and its link would be left pointing to
the merged incident. -/
theorem not_attributed_of_merge :
    ¬ Attributed (storeAfter
      [invocationOf "night 1" "1" 10 [("model.b", "error")],
        invocationOf "night 2" "3" 20 [("model.b", "error")],
        invocationOf "night 1" "2" 30 [("model.a", "error")]]) := by
  decide +kernel

end PlatformOps.Incidents
