import PlatformOps.Incidents.Effects

/-!
# Merges

A regrouping merges an incident of its run into the one that now holds its root's
group. It looks that one up by the root, and the lookups find something because
nothing forgets a failing check: the root of every incident is still the subject of
a failing check of the run that opened it (`Store.RootsFailed`), in every lineage.

An old merge is never rewritten, and a merge only ever leads to an incident that is
not merged yet. So a chain of merges only grows at its end, and always has one.
-/

namespace PlatformOps.Incidents

open Metadata Fallible Machine

namespace Store

/-- Each incident's root is the subject of a failing check of the run that opened it. -/
def RootsFailed (s : Store) : Prop :=
  ∀ i ∈ s.incidents, ∃ row ∈ s.checkEvents,
    row.event.runId = i.openedByRun ∧ row.event.subject = i.root

/-- One step along `merged_into`. -/
def MergedInto (s : Store) (i j : Incident) : Prop :=
  j ∈ s.incidents ∧ i.mergedInto = some j.seq

/-- Following `merged_into` from an incident ends, at one that is not merged. -/
def EndsUnmerged (s : Store) (i : Incident) : Prop :=
  ∃ j ∈ s.incidents, j.mergedInto = none ∧ Relation.ReflTransGen s.MergedInto i j

/-- Every chain of merges ends. -/
def MergesEnd (s : Store) : Prop :=
  ∀ i ∈ s.incidents, s.EndsUnmerged i

/-- An incident merged into itself would lead nowhere else. -/
theorem MergesEnd.not_into_itself {s : Store} (hends : s.MergesEnd) (hnumbered : Numbered s.incidents)
    {i : Incident} (hi : i ∈ s.incidents) : i.mergedInto ≠ some i.seq := by
  intro hself
  obtain ⟨j, -, hnone, hpath⟩ := hends i hi
  have hstays : ∀ {k : Incident}, Relation.ReflTransGen s.MergedInto i k → k = i := by
    intro k hpath
    induction hpath with
    | refl => rfl
    | tail _ hstep ih =>
      subst ih
      obtain ⟨hk, hmerged⟩ := hstep
      apply hnumbered.eq_of_seq hk hi
      exact Option.some.inj (hmerged.symm.trans hself)
  rw [hstays hpath, hself] at hnone
  cases hnone

end Store

/-! ## One ingest -/

/-- Where the roots failed, a regrouping finds every incident it looks up. -/
theorem IngestCall.Reaches.rooted {call : IngestCall} {s : Store} {r : Regrouping}
    (h : call.Reaches s r) (hroots : s.RootsFailed) : r.Rooted := by
  constructor
  · intro e he
    exact h.facts.exists_root he
  · intro i hi _
    obtain ⟨hmem, -, hrun⟩ := Regrouping.mem_mine.mp hi
    rw [h.recorded.incidents] at hmem
    obtain ⟨row, hrow, hrow', hsubject⟩ := hroots i hmem
    obtain ⟨rows, hrows, -, -⟩ := h.recorded.checkEvents
    -- The failing check on the incident's root is one of the run's, so its root has a group.
    have hevent : row.event ∈ r.facts.events := by
      rw [h.facts.events, ← h.runId]
      refine mem_eventsOf.mpr ⟨row, ?_, hrow'.trans hrun, rfl⟩
      rw [hrows]
      exact List.mem_append_left _ hrow
    obtain ⟨root, hroot, hlook⟩ := h.facts.exists_root hevent
    rw [← hsubject, hlook]
    exact hroot

section Ingested

variable {call : IngestCall} {s s' : Store} {r : Regrouping} {news : List Incident}
  {assignment : List (String × ℕ)} {out : Regrouped}
  (h : call.Ingested s r news assignment s' out)

include h

/-- A failing check of the run, as it was recorded, is there after the ingest. -/
private theorem exists_row {row : EventRow} (hrow : row ∈ r.store.checkEvents) :
    ∃ row' ∈ s'.checkEvents, row'.event = row.event := by
  rw [h.checkEvents]
  exact ⟨_, List.mem_map_of_mem hrow, Regrouping.event_attributed assignment row⟩

/-- The roots failed after the ingest, those of the new incidents too. -/
private theorem rootsFailed_after (hacyclic : call.ctx.graph.Acyclic) (hroots : s.RootsFailed) :
    s'.RootsFailed := by
  intro x hx
  obtain ⟨y, hy, halike⟩ := h.exists_before hx
  rw [halike.openedByRun, halike.root]
  rcases List.mem_append.mp hy with hy | hy
  · obtain ⟨i, hi, rfl⟩ := List.mem_map.mp hy
    -- an old incident's failing check is still recorded
    obtain ⟨row, hrow, hrun, hsubject⟩ := hroots i hi
    obtain ⟨row', hrow', hevent⟩ := exists_row h (h.mem_recorded hrow)
    refine ⟨row', hrow', ?_, ?_⟩
    · rw [hevent, hrun, Regrouping.fate_same.openedByRun]
    · rw [hevent, hsubject, Regrouping.fate_same.root]
  · -- a new incident is on the root of a group
    have hroot : y.root ∈ news.map Incident.root := List.mem_map_of_mem hy
    rw [h.roots] at hroot
    obtain ⟨g, hg, hgroot⟩ := List.mem_map.mp hroot
    obtain ⟨e, he, hsubject⟩ :=
      h.reached.facts.failed_root hacyclic (List.mem_filter.mp hg).1
    rw [h.reached.facts.events] at he
    obtain ⟨row, hrow, hrun, rfl⟩ := mem_eventsOf.mp he
    obtain ⟨row', hrow', hevent⟩ := exists_row h hrow
    refine ⟨row', hrow', ?_, ?_⟩
    · rw [hevent, hrun, (h.isNew y hy).openedByRun, h.reached.runId]
    · rw [hevent, hsubject, hgroot]

/-- An incident of the run's own that no group reuses is merged into one that is not merged. -/
private theorem exists_into (hrooted : r.Rooted) {i : Incident} (hi : i ∈ r.mine)
    (hreused : r.isReused i = false) :
    ∃ x ∈ s'.incidents, x.mergedInto = none ∧ x.seq = r.into assignment i := by
  obtain ⟨g, hg, hroot⟩ := List.mem_map.mp (hrooted.2 i hi hreused)
  obtain ⟨j, hj, hlook⟩ := h.found g hg
  obtain ⟨x, hx, hsame, hnone⟩ := h.exists_of_place hg hj
  refine ⟨x, hx, hnone, hsame.seq.trans ?_⟩
  rw [Regrouping.into, ← hroot, hlook]
  rfl

omit h in
/-- What was merged stays merged as it is. -/
private theorem fate_of_merged {i : Incident} {seq : ℕ} (hmerged : i.mergedInto = some seq) :
    r.fate (r.into assignment) i = i := by
  apply Regrouping.fate_of_not_mem_before
  · intro hbefore
    rw [(Regrouping.mem_before.mp hbefore).2.1] at hmerged
    cases hmerged
  · rintro ⟨hmine, -⟩
    rw [(Regrouping.mem_mine.mp hmine).2.1] at hmerged
    cases hmerged

/-- A path along the merges is still there after the ingest. -/
private theorem exists_path {i j : Incident} (hpath : Relation.ReflTransGen s.MergedInto i j)
    {x : Incident} (hx : x.Alike (r.fate (r.into assignment) i)) :
    ∃ y, y.Alike (r.fate (r.into assignment) j) ∧ (y = x ∨ y ∈ s'.incidents) ∧
      Relation.ReflTransGen s'.MergedInto x y := by
  induction hpath with
  | refl => exact ⟨x, hx, Or.inl rfl, .refl⟩
  | @tail k l _ hstep ih =>
    obtain ⟨y, hy, -, hxy⟩ := ih
    obtain ⟨hl, hmerged⟩ := hstep
    obtain ⟨z, hz, halike⟩ := h.exists_after (List.mem_append_left _ (List.mem_map_of_mem hl))
    refine ⟨z, halike, Or.inr hz, hxy.tail ⟨hz, ?_⟩⟩
    rw [hy.mergedInto, fate_of_merged hmerged, hmerged, halike.seq, Regrouping.fate_same.seq]

/-- **A chain of merges grows at its end only**, by a merge into an incident that is not merged. -/
private theorem mergesEnd_after (hroots : s.RootsFailed) (hends : s.MergesEnd) :
    s'.MergesEnd := by
  intro x hx
  obtain ⟨y, hy, halike⟩ := h.exists_before hx
  rcases List.mem_append.mp hy with hy | hy
  · obtain ⟨i, hi, rfl⟩ := List.mem_map.mp hy
    obtain ⟨j, hj, hnone, hpath⟩ := hends i hi
    obtain ⟨z, hz, hmem, hpath'⟩ := exists_path h hpath halike
    have hz' : z ∈ s'.incidents := by
      rcases hmem with rfl | hmem
      · exact hx
      · exact hmem
    by_cases hmerges : j ∈ r.mine ∧ r.isReused j = false
    · -- the end of the chain is merged now, into one that is not
      obtain ⟨w, hw, hwnone, hseq⟩ :=
        exists_into h (h.reached.rooted hroots) hmerges.1 hmerges.2
      refine ⟨w, hw, hwnone, hpath'.tail ⟨hw, ?_⟩⟩
      have hbefore : j ∉ r.before := fun hbefore =>
        Regrouping.not_mem_mine_of_mem_before hbefore hmerges.1
      rw [hz.mergedInto, hseq]
      simp [Regrouping.fate, Regrouping.afterResolution, Regrouping.afterMerge, hbefore, hmerges]
    · refine ⟨z, hz', ?_, hpath'⟩
      rw [hz.mergedInto]
      exact Regrouping.fate_mergedInto.mpr ⟨hnone, hmerges⟩
  · -- a new incident is its own end
    exact ⟨x, hx, halike.mergedInto.trans (h.isNew y hy).mergedInto, .refl⟩

end Ingested

/-- No lookup of a regrouping misses, where the roots failed. -/
private theorem ingest_ne_keyError {call : IngestCall} {s : Store} (hsound : s.Sound)
    (hroots : s.RootsFailed) (key : String) : call.ingest s ≠ .error (.keyError key) := by
  intro herror
  obtain ⟨-, hstumbles⟩ :=
    (IngestCall.ingest_ends hsound.numbered hsound.oneOpen).raised herror
  generalize he : DeskError.keyError key = e at hstumbles
  cases hstumbles with
  | invocation _ => cases he
  | lineage _ => cases he
  | oneOpen _ _ => simp [oneOpenPerRoot] at he
  | rootless hr hrooted =>
    exact hrooted ((IngestCall.regrouping_ends.returned hr).rooted hroots)
  | escalation => cases he

/-! ## In every run -/

/-- Ingests that meet a condition in any store make a run. -/
theorem run_storeAfter {ok : Store → IngestCall → Prop} {calls : List IngestCall}
    (hok : ∀ s, ∀ call ∈ calls, ok s call) : Run deskStep ok {} calls (storeAfter calls) := by
  suffices h : ∀ s, Run deskStep ok s calls (calls.foldl (fun s call => call.after s) s) from h {}
  induction calls with
  | nil => exact fun s => .nil s
  | cons call rest ih =>
    intro s
    have hrest : ∀ s, ∀ call ∈ rest, ok s call := by
      intro s call hcall
      exact hok s call (List.mem_cons_of_mem _ hcall)
    exact .cons (hok s call (List.mem_cons_self ..)) rfl (ih hrest (call.after s))

/-- **Merging is well defined**: in every run of ingests over acyclic lineages, no lookup of a
regrouping misses, no incident is merged into itself, and following `merged_into` from any incident
ends at one that is not merged. -/
theorem merging_well_defined {calls : List IngestCall} {s : Store}
    (hrun : Run deskStep (fun _ call => call.ctx.graph.Acyclic) {} calls s) :
    (∀ (call : IngestCall) (key : String), call.ingest s ≠ .error (.keyError key)) ∧
      (∀ i ∈ s.incidents, i.mergedInto ≠ some i.seq) ∧ s.MergesEnd := by
  have hall : s.Sound ∧ s.RootsFailed ∧ s.MergesEnd := by
    apply hrun.invariant (I := fun s => s.Sound ∧ s.RootsFailed ∧ s.MergesEnd)
    · exact ⟨Store.sound_empty, by simp [Store.RootsFailed], by simp [Store.MergesEnd]⟩
    · rintro s call s' ⟨hsound, hroots, hends⟩ hacyclic hstep
      obtain rfl := Option.some.inj hstep
      refine ⟨call.sound_after hsound, ?_⟩
      unfold IngestCall.after
      split
      · rename_i s' out hok
        rcases (IngestCall.ingest_ends hsound.numbered hsound.oneOpen).returned hok with
          ⟨-, rfl⟩ | ⟨-, r, news, assignment, hingested⟩
        · exact ⟨hroots, hends⟩
        · exact ⟨rootsFailed_after hingested hacyclic hroots,
            mergesEnd_after hingested hroots hends⟩
      · -- an ingest that raises is rolled back
        exact ⟨hroots, hends⟩
  obtain ⟨hsound, hroots, hends⟩ := hall
  refine ⟨fun call key => ingest_ne_keyError hsound hroots key, ?_, hends⟩
  intro i hi
  exact hends.not_into_itself hsound.numbered hi

/-- Three models, each built on the one before. -/
def threeModels : Manifest where
  nodes := [⟨"model.a", .model, "a", [], none, [], "", "", none, "", ""⟩,
    ⟨"model.b", .model, "b", ["model.a"], none, [], "", "", none, "", ""⟩,
    ⟨"model.c", .model, "c", ["model.b"], none, [], "", "", none, "", ""⟩]
  unique := by decide
  kinds := by decide

/-- The lineage of three models in a row has no cycle. -/
theorem acyclic_threeModels :
    ({ twoModelsContext with nodes := threeModels } : Context).graph.Acyclic :=
  FinDigraph.acyclic_of_rank
    (fun n => if n = "model.a" then 0 else if n = "model.b" then 1 else 2) (by decide +kernel)

/-- One after the other they fail, the last one first. -/
def failingUpwards : List IngestCall :=
  [("1", "model.c"), ("2", "model.b"), ("3", "model.a")].map fun failure =>
    { invocationOf "night 1" failure.1 10 [(failure.2, "error")] with
      ctx := { twoModelsContext with nodes := threeModels } }

example : (storeAfter failingUpwards).incidents.map Incident.mergedInto =
    [some 2, some 3, none] := by decide +kernel

theorem merging_well_defined_upwards : (storeAfter failingUpwards).MergesEnd := by
  have hacyclic : ∀ call ∈ failingUpwards, call.ctx.graph.Acyclic := by
    intro call hcall
    obtain ⟨failure, -, rfl⟩ := List.mem_map.mp hcall
    exact acyclic_threeModels
  exact (merging_well_defined (run_storeAfter fun _ => hacyclic)).2.2

end PlatformOps.Incidents
