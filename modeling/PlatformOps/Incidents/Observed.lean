import PlatformOps.Incidents.Effects

/-!
# What a Run Leaves in the Store

After an ingest, the rows a run leaves in the store can be read off the regrouping:
which incidents of its own are left, which earlier ones are open or resolved by it,
and which root each failing check, link and shared node is under (`Observed`). The
incidents' numbers do not come into it, only their roots.

`rootFor` is the root of the incident a group goes to: its own, or that of the
earlier incident it joins.
-/

namespace PlatformOps.Incidents

open Metadata Listing Fallible

/-! ## Observations of a store -/

namespace Store

variable (s : Store) (runId : String)

/-- An incident that is not merged and that the run opened is on this root. -/
def Opened (root : String) : Prop :=
  ∃ i ∈ s.incidents, i.mergedInto = none ∧ i.openedByRun = runId ∧ i.root = root

/-- The incident of this number is open. -/
def OpenAt (seq : ℕ) : Prop := ∃ i ∈ s.incidents, i.seq = seq ∧ i.isOpen = true

/-- The incident of this number is resolved by the run. -/
def ResolvedAt (seq : ℕ) : Prop :=
  ∃ i ∈ s.incidents, i.seq = seq ∧ i.resolvedByRun = some runId

/-- An incident of this number that is not merged is on this root. -/
def RootAt (seq : ℕ) (root : String) : Prop :=
  ∃ i ∈ s.incidents, i.seq = seq ∧ i.mergedInto = none ∧ i.root = root

/-- The failing check of the run is on an incident of this root. -/
def CheckAt (checkId root : String) : Prop :=
  ∃ row ∈ s.checkEvents, row.event.runId = runId ∧ row.event.checkId = checkId ∧
    ∃ seq, row.incident = some seq ∧ s.RootAt seq root

/-- The run links so many checks to an incident of this root. -/
def LinkAt (root : String) (checks : ℕ) : Prop :=
  ∃ link ∈ s.runLinks, link.runId = runId ∧ link.checks = checks ∧ s.RootAt link.incident root

/-- The node is shared, in the run, by an incident of this root. -/
def SharedAt (root node : String) : Prop :=
  ∃ row ∈ s.sharedNodes, row.runId = runId ∧ row.node = node ∧ s.RootAt row.incident root

end Store

namespace Regrouping

variable (r : Regrouping)

/-- The root of the incident a group goes to. -/
def rootFor (g : Group) : String := ((r.joins g).map Incident.root).getD g.root

/-- The root of the incident the failing checks on a node go to. -/
def rootOfSubject (subject : String) : Option String :=
  (r.facts.rootOf.lookup subject).bind fun root =>
    (r.facts.groups.find? fun g => g.root = root).map r.rootFor

/-- No two of the earlier incidents are on one root. -/
def CandidatesApart : Prop := ∀ i ∈ r.before, ∀ j ∈ r.before, i.root = j.root → i = j

/-- Some group joins the earlier incident of this number. -/
def JoinsSeq (seq : ℕ) : Prop :=
  ∃ g ∈ r.facts.groups, (r.joins g).map Incident.seq = some seq

end Regrouping

/-- What a store shows of a run, from its last regrouping. -/
structure Observed (r : Regrouping) (s : Store) : Prop where
  opened : ∀ root, s.Opened r.runId root ↔
    ∃ g ∈ r.facts.groups, r.joins g = none ∧ g.root = root
  checks : ∀ checkId root, s.CheckAt r.runId checkId root ↔
    ∃ e ∈ r.facts.events, e.checkId = checkId ∧ r.rootOfSubject e.subject = some root
  attributed : ∀ row ∈ s.checkEvents, row.event.runId = r.runId →
    ∃ root, s.CheckAt r.runId row.event.checkId root
  links : ∀ root checks, s.LinkAt r.runId root checks ↔ 0 < checks ∧
    checks = r.facts.events.countP fun e => r.rootOfSubject e.subject = some root
  shared : ∀ root node, s.SharedAt r.runId root node ↔
    ∃ g ∈ r.facts.groups, r.rootFor g = root ∧ node ∈ g.shared

section Observe

variable {call : IngestCall} {s s' : Store} {r : Regrouping} {news : List Incident}
  {assignment : List (String × ℕ)} {out : Regrouped}
  (h : call.Ingested s r news assignment s' out)

/-- The incident of a group is on the group's root for it. -/
theorem root_of_place {g : Group} {i : Incident} (hi : r.place news g = some i) :
    i.root = r.rootFor g := by
  rw [Regrouping.place, Option.or_eq_some_iff] at hi
  rcases hi with hjoins | ⟨hjoins, hfind⟩
  · simp [Regrouping.rootFor, hjoins]
  · simpa [Regrouping.rootFor, hjoins] using List.find?_some hfind

include h

theorem rootOfSubject_of_lookup {g : Group} {subject : String} (hg : g ∈ r.facts.groups)
    (hlook : r.facts.rootOf.lookup subject = some g.root) :
    r.rootOfSubject subject = some (r.rootFor g) := by
  have hfind : r.facts.groups.find? (fun g' => g'.root = g.root) = some g := by
    cases hfind : r.facts.groups.find? (fun g' => g'.root = g.root) with
    | none => simpa using List.find?_eq_none.mp hfind g hg
    | some g' =>
      rw [List.inj_on_of_nodup_map h.reached.facts.distinct (List.mem_of_find?_eq_some hfind) hg
        (by simpa using List.find?_some hfind)]
  simp [Regrouping.rootOfSubject, hlook, hfind]

/-- What carries the number of a group's incident is on that incident's root. -/
theorem rootAt_iff_of_place (hsound : s.Sound) {g : Group} {i : Incident}
    (hg : g ∈ r.facts.groups) (hi : r.place news g = some i) {root : String} :
    s'.RootAt i.seq root ↔ r.rootFor g = root := by
  obtain ⟨x, hx, hsame, hnone⟩ := h.exists_of_place hg hi
  have hroot : x.root = r.rootFor g := hsame.root.trans (root_of_place hi)
  constructor
  · rintro ⟨y, hy, hseq, -, rfl⟩
    rw [(h.sound hsound).numbered.eq_of_seq hy hx (hseq.trans hsame.seq.symm), hroot]
  · rintro rfl
    exact ⟨x, hx, hsame.seq, hnone, hroot⟩

private theorem observed_opened (root : String) : s'.Opened r.runId root ↔
    ∃ g ∈ r.facts.groups, r.joins g = none ∧ g.root = root := by
  constructor
  · rintro ⟨x, hx, hnone, hrun, rfl⟩
    obtain ⟨y, hy, halike⟩ := h.exists_before hx
    rw [halike.mergedInto] at hnone
    rw [halike.root]
    -- opened by an earlier ingest of the run, or by this one
    rcases List.mem_append.mp hy with hy | hy
    · obtain ⟨i, hi, rfl⟩ := List.mem_map.mp hy
      obtain ⟨hunmerged, hkept⟩ := Regrouping.fate_mergedInto.mp hnone
      have hsame := halike.toSame.trans Regrouping.fate_same
      have hmine : i ∈ r.mine := Regrouping.mem_mine.mpr
        ⟨h.incidents_eq ▸ hi, hunmerged, hsame.openedByRun.symm.trans hrun⟩
      have hreused : r.isReused i = true := by
        by_contra hnot
        exact hkept ⟨hmine, by simpa using hnot⟩
      obtain ⟨g, hg, hreuses⟩ := Regrouping.isReused_eq_true.mp hreused
      obtain ⟨hjoins, hfind⟩ := Regrouping.reuses_eq_some.mp hreuses
      refine ⟨g, hg, hjoins, ?_⟩
      rw [Regrouping.fate_same.root]
      simpa [eq_comm] using List.find?_some hfind
    · have hroot : y.root ∈ (r.facts.groups.filter r.opens).map Group.root :=
        h.roots ▸ List.mem_map_of_mem hy
      obtain ⟨g, hg, hroot⟩ := List.mem_map.mp hroot
      obtain ⟨hg, hopens⟩ := List.mem_filter.mp hg
      exact ⟨g, hg, (Regrouping.opens_eq_true.mp hopens).1, hroot⟩
  · rintro ⟨g, hg, hjoins, rfl⟩
    obtain ⟨i, hi, -⟩ := h.found g hg
    obtain ⟨x, hx, hsame, hnone⟩ := h.exists_of_place hg hi
    refine ⟨x, hx, hnone, ?_, ?_⟩
    · rw [hsame.openedByRun]
      rw [Regrouping.place, hjoins, Option.none_or] at hi
      rcases List.mem_append.mp (List.mem_of_find?_eq_some hi) with hmine | hn
      · exact (Regrouping.mem_mine.mp hmine).2.2
      · exact (h.isNew i hn).openedByRun
    · rw [hsame.root, root_of_place hi, Regrouping.rootFor, hjoins]
      rfl

/-- A failing check is on the root of its subject. -/
private theorem observed_checks (hsound : s.Sound) (checkId root : String) :
    s'.CheckAt r.runId checkId root ↔
      ∃ e ∈ r.facts.events, e.checkId = checkId ∧ r.rootOfSubject e.subject = some root := by
  constructor
  · rintro ⟨row, hrow, hrun, rfl, seq, hseq, hroot⟩
    obtain ⟨row', hrow', rfl⟩ := List.mem_map.mp (h.checkEvents ▸ hrow)
    -- a check of the run is on the incident of its group
    by_cases hrun' : row'.event.runId = r.runId
    · have hevent := h.mem_events hrow' hrun'
      obtain ⟨g, hg, i, hlook, hi, hown⟩ := h.exists_incidentOf hevent
      simp only [Regrouping.attributed, if_pos hrun', hown, Except.toOption] at hseq ⊢
      obtain rfl := Option.some.inj hseq
      refine ⟨row'.event, hevent, rfl, ?_⟩
      rw [rootOfSubject_of_lookup h hg hlook, (rootAt_iff_of_place h hsound hg hi).mp hroot]
    · rw [Regrouping.attributed, if_neg hrun'] at hrun
      exact absurd hrun hrun'
  · rintro ⟨e, he, rfl, hroot⟩
    obtain ⟨g, hg, i, hlook, hi, hown⟩ := h.exists_incidentOf he
    rw [rootOfSubject_of_lookup h hg hlook] at hroot
    rw [h.reached.facts.events, ← h.reached.runId] at he
    obtain ⟨row, hrow, hrun, rfl⟩ := mem_eventsOf.mp he
    refine ⟨r.attributed assignment row, h.checkEvents ▸ List.mem_map_of_mem hrow, ?_⟩
    simp only [Regrouping.attributed, if_pos hrun, hown, Except.toOption]
    exact ⟨hrun, trivial, i.seq, rfl,
      (rootAt_iff_of_place h hsound hg hi).mpr (Option.some.inj hroot)⟩

private theorem observed_attributed (hsound : s.Sound) :
    ∀ row ∈ s'.checkEvents, row.event.runId = r.runId →
      ∃ root, s'.CheckAt r.runId row.event.checkId root := by
  intro row hrow hrun
  obtain ⟨row', hrow', rfl⟩ := List.mem_map.mp (h.checkEvents ▸ hrow)
  rw [Regrouping.event_attributed] at hrun ⊢
  have hevent := h.mem_events hrow' hrun
  obtain ⟨g, hg, -, hlook, -⟩ := h.exists_incidentOf hevent
  exact ⟨_, (observed_checks h hsound _ _).mpr
    ⟨row'.event, hevent, rfl, rootOfSubject_of_lookup h hg hlook⟩⟩

/-- Two groups with their incidents on one root have one incident. -/
private theorem placed_inj (halone : r.CandidatesApart) {g g' : Group} {i i' : Incident}
    (hg : g ∈ r.facts.groups) (hg' : g' ∈ r.facts.groups) (hi : r.place news g = some i)
    (hi' : r.place news g' = some i') (hroot : r.rootFor g = r.rootFor g') : i = i' := by
  have hroots : i.root = i'.root := by rw [root_of_place hi, root_of_place hi', hroot]
  -- an earlier incident on the root of a group is joined
  have hmixed : ∀ {g g' : Group} {i i' : Incident}, r.joins g = some i → r.joins g' = none →
      ((r.mine ++ news).find? fun i => i.root = g'.root) = some i' → i.root ≠ i'.root := by
    intro g g' i i' hjoins hjoins' hfind heq
    refine Regrouping.root_ne_of_joins_eq_none hjoins' (Regrouping.mem_before_of_joins hjoins) ?_
    rw [heq]
    simpa using List.find?_some hfind
  rw [Regrouping.place, Option.or_eq_some_iff] at hi hi'
  rcases hi with hjoins | ⟨hjoins, hfind⟩ <;> rcases hi' with hjoins' | ⟨hjoins', hfind'⟩
  · exact halone i (Regrouping.mem_before_of_joins hjoins) i'
      (Regrouping.mem_before_of_joins hjoins') hroots
  · exact absurd hroots (hmixed hjoins hjoins' hfind')
  · exact absurd hroots.symm (hmixed hjoins' hjoins hfind)
  · have hgroup : g = g' := by
      refine List.inj_on_of_nodup_map h.reached.facts.distinct hg hg' ?_
      simpa [Regrouping.rootFor, hjoins, hjoins'] using hroot
    rw [hgroup, hfind'] at hfind
    exact (Option.some.inj hfind).symm

/-- How many failing checks are linked to the incident of a group: those on its root. -/
private theorem count_own (hsound : s.Sound) (halone : r.CandidatesApart) {own : List ℕ}
    (hown : r.facts.events.mapM (incidentOf r.facts.rootOf assignment) = .ok own) {g : Group}
    {i : Incident} (hg : g ∈ r.facts.groups) (hi : r.place news g = some i) :
    own.count i.seq =
      r.facts.events.countP fun e => r.rootOfSubject e.subject = some (r.rootFor g) := by
  rw [count_of_mapM_eq_ok hown]
  refine List.countP_congr fun e he => ?_
  obtain ⟨g', hg', i', hlook, hi', hown'⟩ := h.exists_incidentOf he
  simp only [hown', Except.toOption, rootOfSubject_of_lookup h hg' hlook, decide_eq_true_eq,
    Option.some.injEq]
  constructor
  · intro hseq
    have hat := (rootAt_iff_of_place h hsound hg' hi').mpr rfl
    rw [hseq] at hat
    exact ((rootAt_iff_of_place h hsound hg hi).mp hat).symm
  · intro hroot
    rw [placed_inj h halone hg' hg hi' hi hroot]

private theorem observed_links (hsound : s.Sound) (halone : r.CandidatesApart)
    (root : String) (checks : ℕ) : s'.LinkAt r.runId root checks ↔ 0 < checks ∧
      checks = r.facts.events.countP fun e => r.rootOfSubject e.subject = some root := by
  obtain ⟨own, hown, hlinks⟩ := h.runLinks
  -- the links of the run are all of this regrouping
  have hmem : ∀ link ∈ s'.runLinks, link.runId = r.runId → link ∈ r.linksOf own := by
    intro link hlink hrun
    rw [hlinks, List.mem_append, List.mem_filter] at hlink
    exact hlink.resolve_left fun hother => of_decide_eq_true hother.2 hrun
  constructor
  · rintro ⟨link, hlink, hrun, rfl, hroot⟩
    obtain ⟨seq, hseq, rfl⟩ := List.mem_map.mp (hmem link hlink hrun)
    rw [mem_sortedSet] at hseq
    obtain ⟨e, he, hseq'⟩ := exists_preimage_of_mem hown hseq
    obtain ⟨g, hg, i, -, hi, hown'⟩ := h.exists_incidentOf he
    obtain rfl := Except.ok.inj (hown'.symm.trans hseq')
    obtain rfl := (rootAt_iff_of_place h hsound hg hi).mp hroot
    exact ⟨List.count_pos_iff.mpr hseq, count_own h hsound halone hown hg hi⟩
  · rintro ⟨hpos, rfl⟩
    obtain ⟨e, he, hroot⟩ := List.countP_pos_iff.mp hpos
    obtain ⟨g, hg, i, hlook, hi, hown'⟩ := h.exists_incidentOf he
    rw [decide_eq_true_eq, rootOfSubject_of_lookup h hg hlook] at hroot
    obtain rfl := Option.some.inj hroot
    obtain ⟨seq, hseq, hseq'⟩ := exists_image_of_mem hown he
    obtain rfl := Except.ok.inj (hown'.symm.trans hseq')
    refine ⟨⟨i.seq, r.runId, r.now, own.count i.seq⟩, ?_, rfl,
      count_own h hsound halone hown hg hi, (rootAt_iff_of_place h hsound hg hi).mpr rfl⟩
    rw [hlinks]
    exact List.mem_append_right _ (List.mem_map.mpr ⟨i.seq, mem_sortedSet.mpr hseq, rfl⟩)

private theorem observed_shared (hsound : s.Sound) (root node : String) :
    s'.SharedAt r.runId root node ↔
      ∃ g ∈ r.facts.groups, r.rootFor g = root ∧ node ∈ g.shared := by
  constructor
  · rintro ⟨row, hrow, hrun, rfl, hroot⟩
    rcases (h.sharedNodes row).mp hrow with ⟨-, hother⟩ | ⟨-, g, hg, hlook, hnode⟩
    · exact absurd hrun hother
    · obtain ⟨i, hi, hlook'⟩ := h.found g hg
      obtain hseq := Option.some.inj (hlook.symm.trans hlook')
      rw [hseq] at hroot
      exact ⟨g, hg, (rootAt_iff_of_place h hsound hg hi).mp hroot, hnode⟩
  · rintro ⟨g, hg, rfl, hnode⟩
    obtain ⟨i, hi, hlook⟩ := h.found g hg
    exact ⟨⟨i.seq, r.runId, node⟩, (h.sharedNodes _).mpr (Or.inr ⟨rfl, g, hg, hlook, hnode⟩), rfl,
      rfl, (rootAt_iff_of_place h hsound hg hi).mpr rfl⟩

/-- **What an ingest leaves of its run** is what its regrouping shows. -/
theorem observed (hsound : s.Sound) (halone : r.CandidatesApart) : Observed r s' where
  opened := observed_opened h
  checks := observed_checks h hsound
  attributed := observed_attributed h hsound
  links := observed_links h hsound halone
  shared := observed_shared h hsound

end Observe

end PlatformOps.Incidents
