import PlatformOps.Incidents.Effects

/-!
# Runs and Their Incidents

What the tables say about which run has to do with which incident. An ingest writes
the links of its own run anew, one for each incident its failing checks are attributed
to, all at the time of the ingest; those of other runs stay.

- `Ingested.mem_runLinks_of_ne`, `Ingested.exists_place_of_link`,
  `Ingested.exists_link_of_place`: the links after an ingest.
- `Store.Linked`: every link has a key of its own, and an incident that is not merged is
  linked to the run that opened it. Every ingest keeps it.
-/

namespace PlatformOps.Incidents

open Metadata Listing Fallible

/-! ## Links -/

/-- What the links of a store have in common. -/
structure Store.Linked (s : Store) : Prop where
  keys : (s.runLinks.map fun link => (link.incident, link.runId)).Nodup
  known : ∀ link ∈ s.runLinks, link.incident ∈ s.incidents.map Incident.seq
  /-- An incident that is not merged is linked to the run that opened it. -/
  opened : ∀ i ∈ s.incidents, i.mergedInto = none →
    ∃ link ∈ s.runLinks, link.incident = i.seq ∧ link.runId = i.openedByRun

theorem Store.linked_empty : Store.Linked {} := ⟨List.nodup_nil, by simp, by simp⟩

namespace IngestCall.Ingested

variable {call : IngestCall} {s s' : Store} {r : Regrouping} {news : List Incident}
  {assignment : List (String × ℕ)} {out : Regrouped}
  (h : call.Ingested s r news assignment s' out)

include h

/-- A new incident is that of its group. -/
theorem exists_place_of_new {n : Incident} (hn : n ∈ news) :
    ∃ g ∈ r.facts.groups, r.place news g = some n := by
  have hroot : n.root ∈ (r.facts.groups.filter r.opens).map Group.root :=
    h.roots ▸ List.mem_map_of_mem hn
  obtain ⟨g, hg, hroot⟩ := List.mem_map.mp hroot
  obtain ⟨hg, hopens⟩ := List.mem_filter.mp hg
  obtain ⟨hjoins, hmine⟩ := Regrouping.opens_eq_true.mp hopens
  refine ⟨g, hg, ?_⟩
  rw [Regrouping.place, hjoins, Option.none_or, List.find?_append, hmine, Option.none_or]
  -- the new incidents are on different roots
  have hroots : (news.map Incident.root).Nodup := by
    rw [h.roots]
    exact h.reached.facts.distinct.sublist (List.filter_sublist.map _)
  cases hfind : news.find? fun i => i.root = g.root with
  | none => exact absurd hroot.symm (by simpa using List.find?_eq_none.mp hfind n hn)
  | some m =>
    have hm : m.root = n.root := by simpa [hroot] using List.find?_some hfind
    rw [List.inj_on_of_nodup_map hroots (List.mem_of_find?_eq_some hfind) hn hm]

/-- The links of other runs stay as they are. -/
theorem mem_runLinks_of_ne {link : RunLink} (hrun : link.runId ≠ r.runId) :
    link ∈ s'.runLinks ↔ link ∈ s.runLinks := by
  obtain ⟨own, -, hlinks⟩ := h.runLinks
  rw [hlinks, List.mem_append, List.mem_filter]
  constructor
  · rintro (hold | hown)
    · exact hold.1
    · obtain ⟨_, -, rfl⟩ := List.mem_map.mp hown
      exact absurd rfl hrun
  · intro hold
    exact Or.inl ⟨hold, decide_eq_true hrun⟩

/-- A link of the run is to the incident of a group, at the time of the ingest. -/
theorem exists_place_of_link {link : RunLink} (hlink : link ∈ s'.runLinks)
    (hrun : link.runId = r.runId) : link.time = r.now ∧
      ∃ g ∈ r.facts.groups, ∃ i, r.place news g = some i ∧ link.incident = i.seq := by
  obtain ⟨own, hown, hlinks⟩ := h.runLinks
  rw [hlinks, List.mem_append, List.mem_filter] at hlink
  have hlink := hlink.resolve_left fun hother => of_decide_eq_true hother.2 hrun
  obtain ⟨seq, hseq, rfl⟩ := List.mem_map.mp hlink
  refine ⟨rfl, ?_⟩
  obtain ⟨e, he, hincident⟩ := exists_preimage_of_mem hown (mem_sortedSet.mp hseq)
  obtain ⟨g, hg, i, -, hi, hincident'⟩ := h.exists_incidentOf he
  exact ⟨g, hg, i, hi, Except.ok.inj (hincident.symm.trans hincident')⟩

/-- The incident of every group has its link: some check of the run failed below its root. -/
theorem exists_link_of_place {g : Group} (hg : g ∈ r.facts.groups) {i : Incident}
    (hi : r.place news g = some i) :
    ∃ link ∈ s'.runLinks, link.incident = i.seq ∧ link.runId = r.runId ∧ link.time = r.now := by
  obtain ⟨own, hown, hlinks⟩ := h.runLinks
  have hroot : g.root ∈ rootsFrom r.facts.rootOf r.facts.events :=
    h.reached.facts.perm_roots.mem_iff.mp (List.mem_map_of_mem hg)
  obtain ⟨e, he, hlook⟩ := List.mem_filterMap.mp (mem_sortedSet.mp hroot)
  obtain ⟨seq, hseq, hincident⟩ := exists_image_of_mem hown he
  obtain ⟨j, hj, hassigned⟩ := h.found g hg
  obtain rfl := Option.some.inj (hi.symm.trans hj)
  rw [incidentOf, hlook] at hincident
  simp only [assigned, hassigned, Except.ok.injEq] at hincident
  refine ⟨⟨i.seq, r.runId, r.now, own.count i.seq⟩, ?_, rfl, rfl, rfl⟩
  rw [hlinks]
  apply List.mem_append_right
  exact List.mem_map.mpr ⟨i.seq, mem_sortedSet.mpr (hincident ▸ hseq), rfl⟩

/-- The incident of a group is there after the ingest, under its number. -/
private theorem mem_seq_of_place {g : Group} (hg : g ∈ r.facts.groups) {i : Incident}
    (hi : r.place news g = some i) : i.seq ∈ s'.incidents.map Incident.seq := by
  obtain ⟨x, hx, hsame, -⟩ := h.exists_of_place hg hi
  exact List.mem_map.mpr ⟨x, hx, hsame.seq⟩

/-- Every incident's number is there after the ingest. -/
private theorem mem_seq_after {seq : ℕ} (hseq : seq ∈ s.incidents.map Incident.seq) :
    seq ∈ s'.incidents.map Incident.seq := by
  obtain ⟨i, hi, rfl⟩ := List.mem_map.mp hseq
  obtain ⟨x, hx, halike⟩ := h.exists_after (List.mem_append_left _ (List.mem_map_of_mem hi))
  exact List.mem_map.mpr ⟨x, hx, halike.seq.trans Regrouping.fate_same.seq⟩

/-- Where the incidents of an ingest come from, of those that are not merged: they are new, or one
of the run's own that a group reuses, or opened by another run. Only the severity was set since. -/
theorem unmerged_from {x : Incident} (hx : x ∈ s'.incidents) (hunmerged : x.mergedInto = none) :
    (∃ n ∈ news, x = { n with severity := x.severity }) ∨
      ∃ i ∈ s.incidents, x = { r.fate (r.into assignment) i with severity := x.severity } ∧
        i.mergedInto = none ∧ (i.openedByRun = r.runId → i ∈ r.mine ∧ r.isReused i = true) := by
  obtain ⟨severityOf, hincidents⟩ := h.incidents
  obtain ⟨y, hy, rfl⟩ := List.mem_map.mp (hincidents ▸ hx)
  rcases List.mem_append.mp hy with hy | hy
  · obtain ⟨i, hi, rfl⟩ := List.mem_map.mp hy
    obtain ⟨hnone, hkept⟩ := Regrouping.fate_mergedInto.mp hunmerged
    refine Or.inr ⟨i, hi, rfl, hnone, fun hrun => ?_⟩
    have hmine : i ∈ r.mine := Regrouping.mem_mine.mpr ⟨h.incidents_eq ▸ hi, hnone, hrun⟩
    refine ⟨hmine, ?_⟩
    by_contra hreused
    exact hkept ⟨hmine, Bool.eq_false_iff.mpr hreused⟩
  · exact Or.inl ⟨y, hy, rfl⟩

theorem unmerged_cases {x : Incident} (hx : x ∈ s'.incidents) (hunmerged : x.mergedInto = none) :
    (∃ n ∈ news, x.Alike n) ∨ ∃ i ∈ s.incidents, x.Alike (r.fate (r.into assignment) i) ∧
      i.mergedInto = none ∧ (i.openedByRun = r.runId → i ∈ r.mine ∧ r.isReused i = true) := by
  have halike : ∀ {y : Incident}, x = { y with severity := x.severity } → x.Alike y := by
    intro y heq
    rw [heq]
    exact ⟨⟨rfl, rfl, rfl, rfl⟩, rfl, rfl⟩
  rcases h.unmerged_from hx hunmerged with ⟨n, hn, heq⟩ | ⟨i, hi, heq, hnone, hown⟩
  · exact Or.inl ⟨n, hn, halike heq⟩
  · exact Or.inr ⟨i, hi, halike heq, hnone, hown⟩

omit h in
/-- A group that reuses an incident is its group. -/
theorem place_of_reuses {g : Group} {i : Incident} (hreuses : r.reuses g = some i) :
    r.place news g = some i := by
  obtain ⟨hjoins, hfind⟩ := Regrouping.reuses_eq_some.mp hreuses
  rw [Regrouping.place, hjoins, Option.none_or, List.find?_append, hfind, Option.some_or]

/-- **The links are kept up** by every ingest. -/
theorem linked (hlinked : s.Linked) : s'.Linked := by
  constructor
  · obtain ⟨own, -, hlinks⟩ := h.runLinks
    rw [hlinks, List.map_append, List.nodup_append]
    refine ⟨hlinked.keys.sublist (List.filter_sublist.map _), ?_, ?_⟩
    · apply List.Nodup.of_map Prod.fst
      simp only [Regrouping.linksOf, List.map_map, Function.comp_def, List.map_id']
      exact nodup_sortedSet own
    · rintro key hkey key' hkey' rfl
      obtain ⟨link, hlink, rfl⟩ := List.mem_map.mp hkey
      obtain ⟨link', hlink', heq⟩ := List.mem_map.mp hkey'
      obtain ⟨_, -, rfl⟩ := List.mem_map.mp hlink'
      exact of_decide_eq_true (List.mem_filter.mp hlink).2 (Prod.mk.inj heq).2.symm
  · intro link hlink
    by_cases hrun : link.runId = r.runId
    · obtain ⟨-, g, hg, i, hi, hincident⟩ := h.exists_place_of_link hlink hrun
      rw [hincident]
      exact mem_seq_of_place h hg hi
    · exact mem_seq_after h (hlinked.known link ((h.mem_runLinks_of_ne hrun).mp hlink))
  · intro x hx hunmerged
    rcases h.unmerged_cases hx hunmerged with ⟨n, hn, halike⟩ | ⟨i, hi, halike, hnone, hown⟩
    · obtain ⟨g, hg, hplace⟩ := h.exists_place_of_new hn
      obtain ⟨link, hlink, hincident, hrun, -⟩ := h.exists_link_of_place hg hplace
      refine ⟨link, hlink, hincident.trans halike.seq.symm, ?_⟩
      rw [hrun, halike.openedByRun, (h.isNew n hn).openedByRun]
    · have hseq : x.seq = i.seq := halike.seq.trans Regrouping.fate_same.seq
      have hopened : x.openedByRun = i.openedByRun :=
        halike.openedByRun.trans Regrouping.fate_same.openedByRun
      rw [hseq, hopened]
      by_cases hrun : i.openedByRun = r.runId
      · obtain ⟨g, hg, hreuses⟩ := Regrouping.isReused_eq_true.mp (hown hrun).2
        obtain ⟨link, hlink, hincident, hrun', -⟩ :=
          h.exists_link_of_place hg (place_of_reuses hreuses)
        exact ⟨link, hlink, hincident, hrun'.trans hrun.symm⟩
      · obtain ⟨link, hlink, hincident, hrun'⟩ := hlinked.opened i hi hnone
        exact ⟨link, (h.mem_runLinks_of_ne (hrun' ▸ hrun)).mpr hlink, hincident, hrun'⟩

end IngestCall.Ingested

end PlatformOps.Incidents
