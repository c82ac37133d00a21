import PlatformOps.Incidents.Gathering
import PlatformOps.Incidents.Raises

/-!
# The Order of Arrival

A run's invocations are delivered one target folder after another, all with the
run's detection time. Each delivery may reveal a failure above an incident the run
has opened, take back a resolution or find a new root, so incidents are opened,
merged, resolved and reopened along the way. What the store shows of the run in the
end does not depend on the order (`arrival_order`): the last regrouping sees the same
whatever came before it.
-/

namespace PlatformOps.Incidents

open Metadata Listing Fallible

/-- One ingest of a run for each delivery, one after the other. -/
def deliver (ctx : Context) (runId : String) (time : Timestamp) (deliveries : List (List Artifact))
    (s : Store) : Except DeskError Store :=
  deliveries.foldlM (fun s artifacts => do
    let (s', _) ← IngestCall.ingest ⟨ctx, artifacts, runId, some time⟩ s
    return s') s

/-- What a store shows of a run and of the incidents that were there before it. -/
structure Shows (start : Store) (r : Regrouping) (s : Store) : Prop extends Observed r s where
  openAt : ∀ i ∈ start.incidents, s.OpenAt i.seq ↔
    i.isOpen = true ∧ (r.JoinsSeq i.seq ∨ healthy r.ctx r.facts.statuses i.root = false)
  resolvedAt : ∀ i ∈ start.incidents, s.ResolvedAt r.runId i.seq ↔
    i.isOpen = true ∧ ¬ r.JoinsSeq i.seq ∧ healthy r.ctx r.facts.statuses i.root = true

theorem Shows.congr {start : Store} {r r' : Regrouping} {s : Store} (h : Shows start r s)
    (hagree : r.Agree r') : Shows start r' s where
  toObserved := h.toObserved.congr hagree
  openAt i hi := by
    rw [← hagree.joinsSeq, ← hagree.ctx, ← hagree.statuses]
    exact h.openAt i hi
  resolvedAt i hi := by
    rw [← hagree.joinsSeq, ← hagree.ctx, ← hagree.statuses, ← hagree.runId]
    exact h.resolvedAt i hi

/-- Two stores that show the same of a run, and of the incidents there were before it. -/
structure SameOutcome (start : Store) (runId : String) (s s' : Store) : Prop where
  opened : ∀ root, s.Opened runId root ↔ s'.Opened runId root
  openAt : ∀ i ∈ start.incidents, s.OpenAt i.seq ↔ s'.OpenAt i.seq
  resolvedAt : ∀ i ∈ start.incidents, s.ResolvedAt runId i.seq ↔ s'.ResolvedAt runId i.seq
  checks : ∀ checkId root, s.CheckAt runId checkId root ↔ s'.CheckAt runId checkId root
  /-- Every failing check of the run is on some root. -/
  attributed : ∀ row ∈ s.checkEvents, row.event.runId = runId →
    ∃ root, s.CheckAt runId row.event.checkId root
  attributed' : ∀ row ∈ s'.checkEvents, row.event.runId = runId →
    ∃ root, s'.CheckAt runId row.event.checkId root
  links : ∀ root checks, s.LinkAt runId root checks ↔ s'.LinkAt runId root checks
  shared : ∀ root node, s.SharedAt runId root node ↔ s'.SharedAt runId root node

theorem Shows.sameOutcome {start : Store} {r : Regrouping} {s s' : Store} (h : Shows start r s)
    (h' : Shows start r s') : SameOutcome start r.runId s s' where
  opened root := (h.opened root).trans (h'.opened root).symm
  openAt i hi := (h.openAt i hi).trans (h'.openAt i hi).symm
  resolvedAt i hi := (h.resolvedAt i hi).trans (h'.resolvedAt i hi).symm
  checks checkId root := (h.checks checkId root).trans (h'.checks checkId root).symm
  attributed := h.attributed
  attributed' := h'.attributed
  links root checks := (h.links root checks).trans (h'.links root checks).symm
  shared root node := (h.shared root node).trans (h'.shared root node).symm

/-- With nothing new, nothing is shown of the run. -/
theorem Store.Untouched.sameOutcome {s : Store} {runId : String} {time : Timestamp}
    (h : s.Untouched runId time) : SameOutcome s runId s s where
  opened _ := Iff.rfl
  openAt _ _ := Iff.rfl
  resolvedAt _ _ := Iff.rfl
  checks _ _ := Iff.rfl
  attributed row hrow hrun := absurd hrun (h.checkEvents row hrow)
  attributed' row hrow hrun := absurd hrun (h.checkEvents row hrow)
  links _ _ := Iff.rfl
  shared _ _ := Iff.rfl

/-! ## One delivery after another -/

/-- The artifacts the store before the run does not know. -/
def newTo (start : Store) (artifacts : List Artifact) : List Artifact :=
  artifacts.filter fun a =>
    a.invocationId ∉ start.invocations.map InvocationRow.invocationId

/-- The store once these artifacts were delivered: untouched, or as a regrouping over them leaves
it. -/
def Delivered (ctx : Context) (runId : String) (time : Timestamp) (start : Store)
    (arrived : List Artifact) (s : Store) : Prop :=
  (arrived = [] ∧ s = start) ∨
    (arrived ≠ [] ∧ ∃ r : Regrouping, r.ctx = ctx ∧ r.runId = runId ∧ r.now = time ∧
      r.Over start arrived ∧ Shows start r s)

section Deliver

variable {ctx : Context} {runId : String} {time : Timestamp} {start : Store}

/-- What stops a delivery: a lineage with a cycle, or a raise that was recorded already. -/
def Blocked (ctx : Context) (e : DeskError) : Prop :=
  ¬ ctx.graph.Acyclic ∨ e = .uniqueViolation "incident_escalations_pkey"

/-- What is fresh of a delivery is what is new to the store before the run. -/
theorem fresh_eq_newTo {done artifacts rest : List Artifact} {s : Store}
    (hids : ((done ++ artifacts ++ rest).map Artifact.invocationId).Nodup)
    (h : s.invocations.map InvocationRow.invocationId =
      start.invocations.map InvocationRow.invocationId ++
        (newTo start done).map Artifact.invocationId) :
    (⟨ctx, artifacts, runId, some time⟩ : IngestCall).fresh s = newTo start artifacts := by
  refine List.filter_congr fun a ha => ?_
  have hnot : a.invocationId ∉ (newTo start done).map Artifact.invocationId := by
    intro hmem
    obtain ⟨b, hb, heq⟩ := List.mem_map.mp hmem
    rw [List.append_assoc, List.map_append, List.nodup_append] at hids
    exact hids.2.2 _ (List.mem_map_of_mem (List.mem_filter.mp hb).1) a.invocationId
      (List.mem_map_of_mem (List.mem_append_left _ ha)) heq
  refine decide_eq_decide.mpr (not_congr ?_)
  rw [h, List.mem_append, or_iff_left hnot]

private theorem nodup_append_newTo (huntouched : start.Untouched runId time)
    {artifacts : List Artifact} (hids : (artifacts.map Artifact.invocationId).Nodup) :
    (start.invocations.map InvocationRow.invocationId ++
      (newTo start artifacts).map Artifact.invocationId).Nodup := by
  refine List.nodup_append.mpr ⟨huntouched.invocations,
    hids.sublist (List.filter_sublist.map _), fun a ha b hb heq => ?_⟩
  obtain ⟨c, hc, rfl⟩ := List.mem_map.mp hb
  have hnot := (List.mem_filter.mp hc).2
  rw [decide_eq_true_eq] at hnot
  exact hnot (heq ▸ ha)

/-- **One delivery**: it is gathered, and the regrouping shows it. -/
theorem deliver_step (huntouched : start.Untouched runId time) {done artifacts rest : List Artifact}
    {s : Store} (hids : ((done ++ artifacts ++ rest).map Artifact.invocationId).Nodup)
    (hgathered : Gathered ctx runId time start (newTo start done) s)
    (hdelivered : Delivered ctx runId time start (newTo start done) s) :
    Ends (IngestCall.ingest ⟨ctx, artifacts, runId, some time⟩ s) (Blocked ctx) fun p =>
      Gathered ctx runId time start (newTo start (done ++ artifacts)) p.1 ∧
        Delivered ctx runId time start (newTo start (done ++ artifacts)) p.1 := by
  have hfresh : (⟨ctx, artifacts, runId, some time⟩ : IngestCall).fresh s = newTo start artifacts :=
    fresh_eq_newTo hids hgathered.invocations
  have hnew : newTo start (done ++ artifacts) = newTo start done ++ newTo start artifacts :=
    List.filter_append ..
  have hover : ∀ {r : Regrouping}, (⟨ctx, artifacts, runId, some time⟩ : IngestCall).Reaches s r →
      r.Over start (newTo start (done ++ artifacts)) := by
    rintro ⟨_, _, _, _, _⟩ ⟨rfl, rfl, rfl, hrecorded, hfacts⟩
    rw [hnew, ← hfresh]
    exact ⟨huntouched, hgathered.record hrecorded, hfacts⟩
  refine (IngestCall.ingest_ends hgathered.sound.numbered hgathered.sound.oneOpen).mono ?_ ?_
  · rintro e ⟨-, hstumbles⟩
    cases hstumbles with
    | invocation hnodup =>
      refine absurd ?_ hnodup
      rw [hfresh, hgathered.invocations, List.append_assoc, ← List.map_append, ← hnew]
      rw [List.map_append, List.nodup_append] at hids
      exact nodup_append_newTo huntouched hids.1
    | lineage hcyclic => exact Or.inl hcyclic
    | oneOpen hr hclear =>
      exact absurd (hover (IngestCall.regrouping_ends.returned hr)).clear hclear
    | rootless hr hrooted =>
      have hreaches := IngestCall.regrouping_ends.returned hr
      exact Or.inl fun hacyclic => hrooted ((hover hreaches).rooted (hreaches.ctx ▸ hacyclic))
    | escalation => exact Or.inr rfl
  · rintro ⟨s', out⟩ (⟨hnone, hs⟩ | ⟨hsome, r, news, assignment, hingested⟩)
    · dsimp only at hs ⊢
      rw [hs, hnew, ← hfresh, hnone, List.append_nil]
      exact ⟨hgathered, hdelivered⟩
    · have hreaches := hingested.reached
      have hr := hover hreaches
      have hctx : r.ctx = ctx := hreaches.ctx
      have hrun : r.runId = runId := hreaches.runId
      have hnow : r.now = time := hreaches.now
      have hleft := Gathered.settled hingested hr
      rw [hctx, hrun, hnow] at hleft
      refine ⟨hleft, Or.inr ⟨?_, r, hctx, hrun, hnow, hr, ?_⟩⟩
      · rw [hnew, ← hfresh]
        exact List.append_ne_nil_of_right_ne_nil _ hsome
      · exact {
          toObserved := observed hingested hgathered.sound hr.candidatesApart
          openAt := fun i hi => openAt_iff hingested hr hi
          resolvedAt := fun i hi => resolvedAt_iff hingested hr hi }

/-- **All deliveries**: what arrived is gathered, and the last regrouping shows it. -/
theorem deliver_ends (huntouched : start.Untouched runId time) {deliveries : List (List Artifact)}
    (hids : (deliveries.flatten.map Artifact.invocationId).Nodup) :
    Ends (deliver ctx runId time deliveries start) (Blocked ctx) fun s =>
      Delivered ctx runId time start (newTo start deliveries.flatten) s := by
  refine (Ends.foldlM (I := fun done s =>
      Gathered ctx runId time start (newTo start done.flatten) s ∧
        Delivered ctx runId time start (newTo start done.flatten) s)
    ⟨Gathered.start huntouched, Or.inl ⟨rfl, rfl⟩⟩ ?_).mono (fun _ h => h) fun s h => h.2
  rintro done artifacts rest s rfl ⟨hgathered, hdelivered⟩
  have hids' : ((done.flatten ++ artifacts ++ rest.flatten).map Artifact.invocationId).Nodup := by
    simpa using hids
  have hstep := deliver_step huntouched hids' hgathered hdelivered
  refine hstep.bind fun p hp => ?_
  rw [ends_pure, List.flatten_append, List.flatten_singleton]
  exact hp

/-- A delivery goes through if the lineage has no cycle and the raises fit. -/
theorem exists_deliver_eq_ok (huntouched : start.Untouched runId time)
    {deliveries : List (List Artifact)}
    (hids : (deliveries.flatten.map Artifact.invocationId).Nodup) (hacyclic : ctx.graph.Acyclic)
    (hnamed : ctx.policy.NamedApart) (hfit : start.RaisesFit) :
    ∃ s, deliver ctx runId time deliveries start = .ok s := by
  have hfits : Ends (deliver ctx runId time deliveries start)
      (fun e => e ≠ .uniqueViolation "incident_escalations_pkey") fun s =>
        s.Sound ∧ s.RaisesFit := by
    refine Ends.foldlM (I := fun _ (s : Store) => s.Sound ∧ s.RaisesFit)
      ⟨huntouched.sound, hfit⟩ ?_
    rintro _ artifacts _ s - ⟨hsound, hfit⟩
    have hingest := IngestCall.ingest_fit ⟨ctx, artifacts, runId, some time⟩ hnamed hsound hfit
    have hends : Ends (IngestCall.ingest ⟨ctx, artifacts, runId, some time⟩ s) _ _ :=
      (IngestCall.ingest_ends hsound.numbered hsound.oneOpen).and hingest
    refine (hends.mono (fun e he => he.2) fun p hp => hp).bind ?_
    rintro ⟨s', out⟩ ⟨⟨-, rfl⟩ | ⟨-, r, news, assignment, hingested⟩, hfit'⟩
    · exact ⟨hsound, hfit'⟩
    · exact ⟨hingested.sound hsound, hfit'⟩
  have hboth : Ends (deliver ctx runId time deliveries start) _ _ :=
    (deliver_ends huntouched hids).and hfits
  cases hdeliver : deliver ctx runId time deliveries start with
  | ok s => exact ⟨s, rfl⟩
  | error e =>
    obtain ⟨hcyclic | hraise, hne⟩ := hboth.raised hdeliver
    · exact absurd hacyclic hcyclic
    · exact absurd hraise hne

end Deliver

/-- **The order of arrival does not matter**: a run's invocations, delivered in any two orders and
in any portions, leave stores that show the same of the run and of the incidents before it. They
are delivered to the end if the lineage has no cycle and nothing stands in the way of the raises. -/
theorem arrival_order (ctx : Context) (runId : String) (time : Timestamp) {start : Store}
    (huntouched : start.Untouched runId time) (deliveries deliveries' : List (List Artifact))
    (hids : (deliveries.flatten.map Artifact.invocationId).Nodup)
    (hperm : deliveries.flatten.Perm deliveries'.flatten) :
    (∀ s s', deliver ctx runId time deliveries start = .ok s →
      deliver ctx runId time deliveries' start = .ok s' → SameOutcome start runId s s') ∧
    (ctx.graph.Acyclic → ctx.policy.NamedApart → start.RaisesFit →
      ∃ s s', deliver ctx runId time deliveries start = .ok s ∧
        deliver ctx runId time deliveries' start = .ok s') := by
  have hids' : (deliveries'.flatten.map Artifact.invocationId).Nodup :=
    (hperm.map _).nodup_iff.mp hids
  have hnew : (newTo start deliveries.flatten).Perm (newTo start deliveries'.flatten) :=
    hperm.filter _
  constructor
  · intro s s' hs hs'
    have hnone : newTo start deliveries.flatten = [] ↔ newTo start deliveries'.flatten = [] := by
      rw [← List.length_eq_zero_iff, hnew.length_eq, List.length_eq_zero_iff]
    rcases (deliver_ends huntouched hids).returned hs with
      ⟨hnil, rfl⟩ | ⟨hsome, r, rfl, rfl, rfl, hover, hshows⟩ <;>
    rcases (deliver_ends huntouched hids').returned hs' with
      ⟨hnil', hs₀⟩ | ⟨hsome', r', hctx, hrun, hnow, hover', hshows'⟩
    · subst hs₀
      exact huntouched.sameOutcome
    · exact absurd (hnone.mp hnil) hsome'
    · exact absurd (hnone.mpr hnil') hsome
    · exact hshows.sameOutcome
        (hshows'.congr (hover'.agree hover hnew.symm hctx hrun hnow))
  · intro hacyclic hnamed hfit
    obtain ⟨s, hs⟩ := exists_deliver_eq_ok huntouched hids hacyclic hnamed hfit
    obtain ⟨s', hs'⟩ := exists_deliver_eq_ok huntouched hids' hacyclic hnamed hfit
    exact ⟨s, s', hs, hs'⟩

/-- The second model failed the night before. -/
def earlierNight : List IngestCall := [invocationOf "night 0" "0" 5 [("model.b", "error")]]

/-- The next night one invocation finds it healthy, another finds both failing. -/
def nightly : List Artifact :=
  (invocationOf "night 1" "1" 10 [("model.a", "success"), ("model.b", "success")]).artifacts ++
    (invocationOf "night 1" "2" 10 [("model.a", "error"), ("model.b", "error")]).artifacts

theorem acyclic_twoModels : twoModelsContext.graph.Acyclic :=
  FinDigraph.acyclic_of_rank (fun n => if n = "model.a" then 0 else 1) (by decide +kernel)

theorem arrival_order_nightly :
    ∃ s s', deliver twoModelsContext "night 1" 10 (nightly.map ([·])) (storeAfter earlierNight) =
        .ok s ∧
      deliver twoModelsContext "night 1" 10 (nightly.reverse.map ([·])) (storeAfter earlierNight) =
        .ok s' ∧
      SameOutcome (storeAfter earlierNight) "night 1" s s' := by
  have hrun : Machine.Run deskStep (fun _ _ => True) {} earlierNight (storeAfter earlierNight) :=
    Machine.Run.of_check (by decide +kernel)
  obtain ⟨hsound, hfit, -⟩ := raises_of_run hrun
  have huntouched : (storeAfter earlierNight).Untouched "night 1" 10 :=
    ⟨hsound, by decide +kernel, by decide +kernel, by decide +kernel, by decide +kernel,
      by decide +kernel, by decide +kernel⟩
  have horder := arrival_order twoModelsContext "night 1" 10 huntouched (nightly.map ([·]))
    (nightly.reverse.map ([·])) (by decide +kernel) (by decide +kernel)
  obtain ⟨s, s', hs, hs'⟩ := horder.2 acyclic_twoModels (by decide) hfit
  exact ⟨s, s', hs, hs', horder.1 s s' hs hs'⟩

end PlatformOps.Incidents
