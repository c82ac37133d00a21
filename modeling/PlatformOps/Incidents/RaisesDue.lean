import PlatformOps.Incidents.Messages
import PlatformOps.Incidents.Raises

/-!
# The Raises of an Ingest

An ingest looks at every open incident once, and raises it a level for each of its
reasons until it is at the top. So the rows it adds can be said in full: for each
incident, in the order of the numbers, as many of its reasons as there are levels
above it.

- `raiseRows`, `Store.raisesDue`: the rows of one incident, and of all of them.
- `escalate_raisesDue`: the raises add these rows, in this order.
- `IngestCall.after_cases`: an ingest either leaves the store as it was, or adds
  the rows due in the store it raises in, and their messages.
- `always_iff_of_escalates`: how to find the exact condition under which raises keep
  something.
-/

namespace PlatformOps.Incidents

open Metadata Listing Fallible Ledger

/-! ## One incident -/

/-- The raises for these reasons, one level a reason, until the top. -/
def raiseRows (incident : ℕ) (runId : String) (now : Timestamp) :
    List Reason → Severity → List Escalation
  | [], _ => []
  | reason :: rest, current =>
    if raised current = current then []
    else ⟨incident, runId, now, current, raised current, reason⟩ ::
      raiseRows incident runId now rest (raised current)

section Rows

variable {incident : ℕ} {runId : String} {now : Timestamp}

/-- Raises that go through add their rows. -/
theorem raiseLoop_rows {reasons : List Reason} {current : Severity} {rows : List Escalation}
    {p : Severity × List Escalation}
    (h : raiseLoop incident runId now reasons current rows = .ok p) :
    p.2 = rows ++ raiseRows incident runId now reasons current := by
  induction reasons generalizing current rows with
  | nil =>
    cases h
    simp [raiseRows]
  | cons reason rest ih =>
    rw [raiseLoop] at h
    rw [raiseRows]
    split at h
    · rename_i htop
      cases h
      simp [htop]
    · rename_i htop
      split at h
      · cases h
      · rw [ih h, if_neg htop]
        simp

theorem raiseRows_sev1 (reasons : List Reason) :
    raiseRows incident runId now reasons .sev1 = [] := by
  cases reasons <;> simp [raiseRows, raised]

/-- All the rows are of this incident, this run and this time. -/
theorem mem_raiseRows {reasons : List Reason} {current : Severity} {row : Escalation}
    (h : row ∈ raiseRows incident runId now reasons current) :
    row.incident = incident ∧ row.runId = runId ∧ row.time = now := by
  induction reasons generalizing current with
  | nil => cases h
  | cons reason rest ih =>
    rw [raiseRows] at h
    split at h
    · cases h
    · rcases List.mem_cons.mp h with rfl | h
      · exact ⟨rfl, rfl, rfl⟩
      · exact ih h

/-- Each leads one level up. -/
theorem level_lt_of_mem_raiseRows {reasons : List Reason} {current : Severity} {row : Escalation}
    (h : row ∈ raiseRows incident runId now reasons current) :
    row.toSeverity.level < row.fromSeverity.level := by
  induction reasons generalizing current with
  | nil => cases h
  | cons reason rest ih =>
    rw [raiseRows] at h
    split at h
    · cases h
    · rename_i htop
      rcases List.mem_cons.mp h with rfl | h
      · cases current with
        | sev1 => exact absurd rfl htop
        | sev2 => exact Nat.lt_succ_self 1
        | sev3 => exact Nat.lt_succ_self 2
      · exact ih h

/-- Their reasons are the first ones: as many as there are levels above the incident. -/
theorem map_reason_raiseRows (reasons : List Reason) (current : Severity) :
    (raiseRows incident runId now reasons current).map Escalation.reason =
      reasons.take (current.level - 1) := by
  induction reasons generalizing current with
  | nil => simp [raiseRows]
  | cons reason rest ih =>
    rw [raiseRows]
    cases current with
    | sev1 => simp [raised, Severity.level]
    | sev2 => simp [raised, Severity.level, raiseRows_sev1]
    | sev3 => simp [raised, Severity.level, ih]

end Rows

/-! ## All of them -/

namespace Store

variable (s : Store) (ctx : Context) (now : Timestamp)

/-- The reasons an incident is raised for: as many as there are levels above it. -/
def raisingReasons (i : Incident) : List Reason :=
  (reasonsFor ctx now s.escalations i).take (i.severity.level - 1)

/-- The open incidents a raise looks at. -/
def looked : List Incident := s.bySeq.filter fun i => i.isOpen && i.openedAt ≤ now

/-- The raises due now. -/
def raisesDue (runId : String) : List Escalation :=
  (s.looked now).flatMap fun i =>
    raiseRows i.seq runId now (reasonsFor ctx now s.escalations i) i.severity

variable {s ctx now}

theorem mem_looked {i : Incident} :
    i ∈ s.looked now ↔ i ∈ s.incidents ∧ i.isOpen = true ∧ i.openedAt ≤ now := by
  rw [looked, List.mem_filter, bySeq, mem_sortBy, Bool.and_eq_true, decide_eq_true_eq]

theorem nodup_looked (now : Timestamp) (hnumbered : Numbered s.incidents) :
    (s.looked now).Nodup :=
  ((perm_sortBy _ _).nodup_iff.mpr (List.Nodup.of_map _ hnumbered)).filter _

/-- They are the reasons of its raises. -/
theorem raisingReasons_eq (runId : String) (i : Incident) : s.raisingReasons ctx now i =
    (raiseRows i.seq runId now (reasonsFor ctx now s.escalations i) i.severity).map
      Escalation.reason := by
  rw [raisingReasons, map_reason_raiseRows]

/-- A raise due is of an incident looked at, for one of its raising reasons. -/
theorem mem_raisesDue {runId : String} {row : Escalation} (h : row ∈ s.raisesDue ctx now runId) :
    ∃ i ∈ s.looked now, row ∈
        raiseRows i.seq runId now (reasonsFor ctx now s.escalations i) i.severity ∧
      row.incident = i.seq ∧ row.runId = runId ∧ row.time = now ∧
      row.reason ∈ s.raisingReasons ctx now i := by
  obtain ⟨i, hi, hrow⟩ := List.mem_flatMap.mp h
  obtain ⟨hincident, hrun, htime⟩ := mem_raiseRows hrow
  refine ⟨i, hi, hrow, hincident, hrun, htime, ?_⟩
  rw [raisingReasons_eq runId]
  exact List.mem_map_of_mem hrow

/-- Each raising reason of an incident looked at has its row. -/
theorem exists_raisesDue (runId : String) {i : Incident} (hi : i ∈ s.looked now) {reason : Reason}
    (h : reason ∈ s.raisingReasons ctx now i) :
    ∃ row ∈ s.raisesDue ctx now runId, row.incident = i.seq ∧ row.runId = runId ∧
      row.time = now ∧ row.reason = reason := by
  rw [raisingReasons_eq runId] at h
  obtain ⟨row, hrow, hreason⟩ := List.mem_map.mp h
  obtain ⟨hincident, hrun, htime⟩ := mem_raiseRows hrow
  exact ⟨row, List.mem_flatMap.mpr ⟨i, hi, hrow⟩, hincident, hrun, htime, hreason⟩

/-- The raises due of one incident. -/
theorem filter_raisesDue (hnumbered : Numbered s.incidents) {runId : String} {i : Incident}
    (hi : i ∈ s.looked now) :
    (s.raisesDue ctx now runId).filter (fun row => row.incident = i.seq) =
      raiseRows i.seq runId now (reasonsFor ctx now s.escalations i) i.severity := by
  have hown : ∀ j ∈ s.looked now, (raiseRows j.seq runId now
      (reasonsFor ctx now s.escalations j) j.severity).filter (fun row => row.incident = i.seq) =
        if j = i then
          raiseRows i.seq runId now (reasonsFor ctx now s.escalations i) i.severity
        else [] := by
    intro j hj
    by_cases heq : j = i
    · subst heq
      rw [if_pos rfl, List.filter_eq_self]
      intro row hrow
      exact decide_eq_true (mem_raiseRows hrow).1
    · rw [if_neg heq, List.filter_eq_nil_iff]
      intro row hrow hrow'
      rw [decide_eq_true_eq, (mem_raiseRows hrow).1] at hrow'
      exact heq (hnumbered.eq_of_seq (mem_looked.mp hj).1 (mem_looked.mp hi).1 hrow')
  rw [raisesDue, List.filter_flatMap, List.flatMap_congr hown]
  -- of the incidents looked at, one is this one
  have hnodup := nodup_looked now hnumbered
  generalize s.looked now = looked at hi hnodup
  induction looked with
  | nil => cases hi
  | cons j rest ih =>
    obtain ⟨hj, hrest⟩ := List.nodup_cons.mp hnodup
    rw [List.flatMap_cons]
    by_cases heq : j = i
    · subst heq
      have hnone : (rest.flatMap fun k => if k = j then
          raiseRows j.seq runId now (reasonsFor ctx now s.escalations j) j.severity
          else []) = [] := by
        rw [List.flatMap_eq_nil_iff]
        intro k hk
        rw [if_neg]
        rintro rfl
        exact hj hk
      rw [if_pos rfl, hnone, List.append_nil]
    · rw [if_neg heq, List.nil_append]
      exact ih ((List.mem_cons.mp hi).resolve_left (Ne.symm heq)) hrest

/-- An incident that is not looked at has none due. -/
theorem filter_raisesDue_of_not_looked (hnumbered : Numbered s.incidents) {runId : String}
    {i : Incident} (hi : i ∈ s.incidents) (hnot : i ∉ s.looked now) :
    (s.raisesDue ctx now runId).filter (fun row => row.incident = i.seq) = [] := by
  rw [List.filter_eq_nil_iff]
  intro row hrow hincident
  obtain ⟨j, hj, -, hseq, -⟩ := mem_raisesDue hrow
  rw [decide_eq_true_eq, hseq] at hincident
  exact hnot (hnumbered.eq_of_seq (mem_looked.mp hj).1 hi hincident ▸ hj)

end Store

/-- **The raises add the rows that were due** when they began. -/
theorem escalate_raisesDue (ctx : Context) (runId : String) (now : Timestamp) {s : Store}
    (hnumbered : Numbered s.incidents) :
    Ends (escalate ctx runId now s) (fun _ => True) fun s' =>
      s'.escalations = s.escalations ++ s.raisesDue ctx now runId := by
  -- the raises of the incidents done so far are of no incident still to do
  refine Ends.foldlM (I := fun done (s' : Store) => s'.escalations = s.escalations ++
    done.flatMap fun i => raiseRows i.seq runId now (reasonsFor ctx now s.escalations i) i.severity)
    (by simp) ?_
  intro done i rest s' hl hrows
  have hi : i ∈ s.looked now := by
    rw [Store.looked, hl]
    simp
  have hreasons : reasonsFor ctx now s'.escalations i = reasonsFor ctx now s.escalations i := by
    apply reasonsFor_congr
    rw [Store.raisesOf, Store.raisesOf, hrows, List.filter_append]
    apply List.append_right_eq_self.mpr
    rw [List.filter_eq_nil_iff]
    intro row hrow hincident
    obtain ⟨j, hj, hrow⟩ := List.mem_flatMap.mp hrow
    rw [decide_eq_true_eq, (mem_raiseRows hrow).1] at hincident
    have hnodup := Store.nodup_looked now hnumbered
    rw [Store.looked, hl, List.nodup_append] at hnodup
    have hj' : j ∈ s.looked now := by
      rw [Store.looked, hl]
      exact List.mem_append_left _ hj
    have heq := hnumbered.eq_of_seq (Store.mem_looked.mp hj').1 (Store.mem_looked.mp hi).1 hincident
    exact hnodup.2.2 j hj i (List.mem_cons_self ..) heq
  rw [escalateIncident]
  apply Ends.bind ((ends_self _).mono (fun _ _ => trivial) fun _ h => h)
  intro p hp
  rw [ends_pure]
  show p.2 = _
  rw [raiseLoop_rows hp, hreasons, hrows]
  simp

/-! ## An ingest -/

namespace IngestCall

/-- The ingest gets as far as raising, and raises in this store: its run is settled, and no raise
stands in the way of another. -/
structure RaisesIn (call : IngestCall) (s settled : Store) : Prop where
  fresh : call.fresh s ≠ []
  toEscalate : call.toEscalate s = .ok settled
  apart : settled.RaisesApart call.ctx (call.now s)

theorem RaisesIn.unique {call : IngestCall} {s a b : Store} (ha : call.RaisesIn s a)
    (hb : call.RaisesIn s b) : a = b :=
  Except.ok.inj (ha.toEscalate.symm.trans hb.toEscalate)

/-- What an ingest that raises in a store leaves. -/
structure Escalates (call : IngestCall) (s settled s' : Store) (out : Regrouped) : Prop where
  ingested : ∃ r news assignment, call.Ingested s r news assignment s' out ∧
    r.Settled news assignment settled out
  /-- The rows due in that store are recorded. -/
  escalations : s'.escalations =
    s.escalations ++ settled.raisesDue call.ctx (call.now s) call.runId
  /-- They have their messages, after the messages about the incidents. -/
  notifications : s'.notifications = insertAll NotificationRow.key s.notifications
    (messagesOf call.runId (call.now s) out
      (settled.raisesDue call.ctx (call.now s) call.runId) s')
  incidents : ∃ severityOf, s'.incidents = reseverity severityOf settled.incidents

variable {call : IngestCall} {s : Store}

/-- The store an ingest raises in is that of its settled regrouping. -/
theorem toEscalate_eq_ok {settled : Store} : call.toEscalate s = .ok settled ↔
    ∃ r out, call.regrouping s = .ok r ∧
      settle r.ctx r.runId r.now r.facts r.store = .ok (settled, out) := by
  rw [toEscalate, bind_eq_ok]
  apply exists_congr
  intro r
  rw [bind_eq_ok]
  constructor
  · rintro ⟨hr, ⟨settled', out⟩, hsettle, hto⟩
    obtain rfl : settled' = settled := Except.ok.inj hto
    exact ⟨out, hr, hsettle⟩
  · rintro ⟨out, hr, hsettle⟩
    exact ⟨hr, (settled, out), hsettle, rfl⟩

/-- What the settled store is, once there is one. -/
private theorem settled_of_settle (hsound : s.Sound) (hfit : s.RaisesFit) {r : Regrouping}
    (hr : call.regrouping s = .ok r) {settled : Store} {out : Regrouped}
    (hsettle : settle r.ctx r.runId r.now r.facts r.store = .ok (settled, out)) :
    call.Reaches s r ∧ r.Clear ∧ (∃ news assignment, r.Settled news assignment settled out) ∧
      Numbered settled.incidents ∧ settled.RaisesFit := by
  have hreaches := regrouping_ends.returned hr
  have hincidents := hreaches.recorded.incidents
  have hescalations := hreaches.recorded.escalations
  obtain ⟨hclear, news, assignment, hsettled⟩ :=
    (r.settle_ends (hincidents ▸ hsound.numbered) (hincidents ▸ hsound.oneOpen)
      hreaches.facts.distinct).returned hsettle
  have hfit' : r.store.RaisesFit :=
    ⟨by rw [hescalations, hincidents]; exact hfit.incident,
      by rw [hescalations, hincidents]; exact hfit.overdue⟩
  refine ⟨hreaches, hclear, ⟨news, assignment, hsettled⟩, ?_, hsettled.raisesFit hfit'⟩
  rw [hsettled.incidents]
  exact Regrouping.numbered_map_append (hincidents ▸ hsound.numbered)
    (fun _ => Regrouping.afterResolution_seq) hsettled.isNew hsettled.numbers

/-- With its run settled and the reasons apart, an ingest returns. -/
private theorem RaisesIn.returns {settled : Store} (h : call.RaisesIn s settled)
    (hsound : s.Sound) (hfit : s.RaisesFit) : ∃ p, call.ingest s = .ok p := by
  obtain ⟨r, out, hr, hsettle⟩ := toEscalate_eq_ok.mp h.toEscalate
  obtain ⟨hreaches, -, -, hnumbered, hfit'⟩ := settled_of_settle hsound hfit hr hsettle
  have hapart := h.apart
  rw [← hreaches.ctx, ← hreaches.now] at hapart
  have hends := escalate_ends_apart r.ctx r.runId r.now hnumbered hfit'
  cases hescalate : escalate r.ctx r.runId r.now settled with
  | error e => exact absurd hapart (hends.raised hescalate).2
  | ok raisedStore =>
    refine ⟨(queueMessages r.runId r.now out
      (raisedStore.escalations.drop settled.escalations.length) raisedStore, out), ?_⟩
    rw [ingest_eq h.fresh, bind_eq_ok]
    refine ⟨r, hr, bind_eq_ok.mpr ⟨(settled, out), hsettle, ?_⟩⟩
    exact bind_eq_ok.mpr ⟨raisedStore, hescalate, rfl⟩

/-- An ingest that returns has raised what was due. -/
private theorem escalates_of_ingest (hsound : s.Sound) (hfit : s.RaisesFit)
    (hfresh : call.fresh s ≠ []) {s' : Store} {out : Regrouped}
    (hok : call.ingest s = .ok (s', out)) :
    ∃ settled, call.RaisesIn s settled ∧ call.Escalates s settled s' out := by
  have hraises : Ends (call.ingest s) _ _ := call.ingest_raises hsound hfit
  have hapart := (hraises.returned hok).1.resolve_left hfresh
  -- settle, then raise, then queue: take the ingest apart in this order
  rw [ingest_eq hfresh, bind_eq_ok] at hok
  obtain ⟨r, hr, hok⟩ := hok
  rw [bind_eq_ok] at hok
  obtain ⟨⟨settled, out'⟩, hsettle, hok⟩ := hok
  rw [bind_eq_ok] at hok
  obtain ⟨raisedStore, hescalate, hok⟩ := hok
  rw [pure_eq_ok, Prod.mk.injEq] at hok
  obtain ⟨rfl, rfl⟩ := hok
  obtain ⟨hreaches, hclear, ⟨news, assignment, hsettled⟩, hnumbered, -⟩ :=
    settled_of_settle hsound hfit hr hsettle
  have hto : call.toEscalate s = .ok settled := toEscalate_eq_ok.mpr ⟨r, out', hr, hsettle⟩
  have hdue := (escalate_raisesDue r.ctx r.runId r.now hnumbered).returned hescalate
  obtain ⟨severityOf, escalations, rfl⟩ :=
    (escalate_ends r.ctx r.runId r.now settled).returned hescalate
  -- what the raises add to their table is what is due
  obtain rfl : escalations = settled.escalations ++ settled.raisesDue r.ctx r.now r.runId := hdue
  refine ⟨settled, ⟨hfresh, hto, hapart settled hto⟩, ?_⟩
  dsimp only
  rw [queueMessages_notifications, List.drop_left]
  refine ⟨⟨r, news, assignment, ⟨hr, hclear, settled, severityOf, _, _, hsettled, rfl⟩, hsettled⟩,
    ?_, ?_, ⟨severityOf, rfl⟩⟩
  · rw [← hreaches.ctx, ← hreaches.now, ← hreaches.runId]
    show settled.escalations ++ _ = _
    rw [hsettled.escalations, hreaches.recorded.escalations]
  · rw [← hreaches.ctx, ← hreaches.now, ← hreaches.runId]
    show insertAll NotificationRow.key settled.notifications _ = _
    rw [hsettled.notifications, hreaches.recorded.notifications]
    rfl

/-- **An ingest raises what is due, or changes nothing.** -/
theorem after_cases (hsound : s.Sound) (hfit : s.RaisesFit) :
    (call.after s = s ∧ ∀ settled, ¬ call.RaisesIn s settled) ∨
      ∃ settled out, call.RaisesIn s settled ∧
        call.Escalates s settled (call.after s) out := by
  by_cases hfresh : call.fresh s = []
  · refine Or.inl ⟨?_, fun settled h => h.fresh hfresh⟩
    rw [after, ingest, if_pos hfresh]
  cases hingest : call.ingest s with
  | error e =>
    refine Or.inl ⟨by rw [after, hingest], fun settled h => ?_⟩
    obtain ⟨p, hp⟩ := h.returns hsound hfit
    rw [hp] at hingest
    cases hingest
  | ok p =>
    obtain ⟨settled, hin, hescalates⟩ := escalates_of_ingest hsound hfit hfresh hingest
    refine Or.inr ⟨settled, p.2, hin, ?_⟩
    rwa [after, hingest]

namespace Escalates

variable {settled s' : Store} {out : Regrouped} (h : call.Escalates s settled s' out)

include h

/-- The raises before the ingest are those of the settled store. -/
theorem escalations_eq : settled.escalations = s.escalations := by
  obtain ⟨r, news, assignment, hingested, hsettled⟩ := h.ingested
  rw [hsettled.escalations, hingested.reached.recorded.escalations]

/-- The numbers of the settled store are apart. -/
theorem numbered (hsound : s.Sound) : Numbered settled.incidents := by
  obtain ⟨r, news, assignment, hingested, -⟩ := h.ingested
  obtain ⟨severityOf, hincidents⟩ := h.incidents
  have hnumbered := (hingested.sound hsound).numbered
  rwa [hincidents, Numbered, seq_reseverity] at hnumbered

/-- A raise due is for no reason its incident was raised for before. -/
theorem reason_ne_of_due (hchained : s'.RaisesChained) {row old : Escalation}
    (hrow : row ∈ settled.raisesDue call.ctx (call.now s) call.runId)
    (hold : old ∈ s.escalations) (hincident : old.incident = row.incident) :
    old.reason ≠ row.reason := by
  intro hreason
  have hkeys := hchained.once
  rw [h.escalations, List.map_append, List.nodup_append] at hkeys
  apply hkeys.2.2 _ (List.mem_map_of_mem hold) _ (List.mem_map_of_mem hrow)
  rw [hincident, hreason]

/-- The raises due are told apart by their incident and reason. -/
theorem eq_of_due (hchained : s'.RaisesChained) {row row' : Escalation}
    (hrow : row ∈ settled.raisesDue call.ctx (call.now s) call.runId)
    (hrow' : row' ∈ settled.raisesDue call.ctx (call.now s) call.runId)
    (hincident : row.incident = row'.incident) (hreason : row.reason = row'.reason) :
    row = row' := by
  have hkeys := hchained.once
  rw [h.escalations, List.map_append, List.nodup_append] at hkeys
  apply List.inj_on_of_nodup_map hkeys.2.1 hrow hrow'
  rw [hincident, hreason]

/-- The reasons an incident is raised for are apart: their rows have keys of their own. -/
theorem nodup_raisingReasons (hsound : s.Sound) (hchained : s'.RaisesChained) {i : Incident}
    (hi : i ∈ settled.looked (call.now s)) :
    (settled.raisingReasons call.ctx (call.now s) i).Nodup := by
  rw [Store.raisingReasons_eq call.runId, ← Store.filter_raisesDue (h.numbered hsound) hi]
  have hkeys := hchained.once
  rw [h.escalations, List.map_append, List.nodup_append] at hkeys
  refine List.Nodup.map_on ?_ ((List.Nodup.of_map _ hkeys.2.1).filter _)
  intro a ha b hb hreason
  obtain ⟨ha, ha'⟩ := List.mem_filter.mp ha
  obtain ⟨hb, hb'⟩ := List.mem_filter.mp hb
  rw [decide_eq_true_eq] at ha' hb'
  exact h.eq_of_due hchained ha hb (ha'.trans hb'.symm) hreason

end Escalates

end IngestCall

/-! ## In every run -/

/-- What the raises of a store the desk gets to have in common. -/
structure Store.RaisesKept (s : Store) : Prop where
  sound : s.Sound
  fit : s.RaisesFit
  chained : s.RaisesChained

theorem Store.raisesKept_empty : Store.RaisesKept {} :=
  ⟨sound_empty, raisesFit_empty, raisesChained_empty⟩

theorem Store.RaisesKept.after {s : Store} (h : s.RaisesKept) (call : IngestCall) :
    (call.after s).RaisesKept := by
  obtain ⟨hfit, hchained, -⟩ := call.raises_after h.sound h.fit
  exact ⟨call.sound_after h.sound, hfit, hchained h.chained⟩

/-- **The rule for what only raises can break**: it holds after every ingest exactly when every
ingest that raises meets the condition in the store it raises in. -/
theorem always_iff_of_escalates {J P : Store → Prop}
    {Q : IngestCall → Timestamp → Store → Prop} (hempty : J {} ∧ P {})
    (hafter : ∀ (s : Store) (call : IngestCall), s.RaisesKept → J s → J (call.after s))
    (hstep : ∀ (call : IngestCall) (s settled : Store) (out : Regrouped), s.RaisesKept → J s →
      P s → call.Escalates s settled (call.after s) out →
      (P (call.after s) ↔ Q call (call.now s) settled))
    (calls : List IngestCall) :
    (∀ done, done <+: calls → P (storeAfter done)) ↔
      Machine.Run deskStep
        (fun s call => ∀ settled, call.RaisesIn s settled → Q call (call.now s) settled)
        {} calls (storeAfter calls) := by
  apply Machine.always_iff_run (I := fun s => s.RaisesKept ∧ J s)
  · rintro s call - ⟨hkept, hJ⟩
    exact ⟨hkept.after call, hafter s call hkept hJ⟩
  · rintro s call - ⟨hkept, hJ⟩ hP
    rcases call.after_cases hkept.sound hkept.fit with ⟨hsame, hnone⟩ | ⟨settled, out, hin, h⟩
    · rw [hsame]
      exact iff_of_true hP fun settled hin => absurd hin (hnone settled)
    · -- an ingest raises in one store only
      rw [hstep call s settled out hkept hJ hP h]
      refine ⟨fun hQ settled' hin' => ?_, fun hQ => hQ settled hin⟩
      rwa [hin'.unique hin]
  · exact ⟨Store.raisesKept_empty, hempty.1⟩
  · exact hempty.2

end PlatformOps.Incidents
