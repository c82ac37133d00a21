import PlatformOps.Incidents.RaisesDue

/-!
# Raises Are Announced

Every raise is queued as a message to whoever handles the incident. But the messages
are kept by incident, kind and run, so of several raises of one incident in one run
only the first is announced, whether they come in one ingest or in several.

- `Store.Announced`: every raise has a message of its own.
- `Store.RaisesOnce`: no incident is raised twice in a run.
- `every_raise_announced_iff`: the first holds all along exactly when every ingest
  meets the second.
-/

namespace PlatformOps.Incidents

open Metadata Listing Fallible Ledger Machine

/-- What the message of a raise says. -/
def Escalation.text (row : Escalation) : String :=
  "raised to " ++ row.toSeverity.text ++ ": " ++ row.reason.text

/-- The text tells why: the severity's name is always as long. -/
theorem Escalation.reason_of_text {row row' : Escalation} (h : row.text = row'.text) :
    row.reason = row'.reason := by
  have hlength : ∀ severity : Severity, severity.text.toList.length = 4 := by
    intro severity
    cases severity <;> rfl
  replace h := congrArg String.toList h
  simp only [Escalation.text, String.toList_append] at h
  apply Reason.text_injective
  apply String.toList_injective
  exact (List.append_inj h (by simp [hlength])).2

namespace Store

variable (s : Store)

/-- A message tells whoever handles the incident of a raise which severity it was raised to, and
why. -/
def Announces (n : NotificationRow) (row : Escalation) : Prop :=
  n.kind = .escalation ∧ n.incident = row.incident ∧ n.text = row.text ∧
    ∃ i ∈ s.incidents, i.seq = n.incident ∧ n.recipient = i.handler

instance (n : NotificationRow) (row : Escalation) : Decidable (s.Announces n row) :=
  inferInstanceAs (Decidable (_ ∧ _ ∧ _ ∧ _))

/-- **Every raise is announced** in a message of its own. -/
def Announced : Prop :=
  ∀ row ∈ s.escalations, ∃ n ∈ s.notifications, s.Announces n row ∧
    ∀ row' ∈ s.escalations, s.Announces n row' → row' = row

instance : Decidable s.Announced :=
  inferInstanceAs (Decidable (∀ row ∈ s.escalations, _))

/-- No incident is raised twice in a run: one that is raised now has one reason that raises it, and
no raise by this run so far. -/
def RaisesOnce (ctx : Context) (runId : String) (now : Timestamp) : Prop :=
  ∀ i ∈ s.incidents, i.isOpen = true → i.openedAt ≤ now →
    s.raisingReasons ctx now i = [] ∨ (s.raisingReasons ctx now i).length = 1 ∧
      ∀ row ∈ s.escalations, row.incident = i.seq → row.runId ≠ runId

/-- What the messages and the raises of a store have to do with each other. -/
structure MessagesFit : Prop where
  keys : (s.notifications.map NotificationRow.key).Nodup
  recipient : ∀ n ∈ s.notifications, ∃ i ∈ s.incidents, i.seq = n.incident ∧
    n.recipient = i.handler
  /-- A message about a raise is about one there is, by its run. -/
  about : ∀ n ∈ s.notifications, n.kind = .escalation →
    ∃ row ∈ s.escalations, row.incident = n.incident ∧ row.runId = n.runId ∧ row.text = n.text
  /-- An incident raised in a run has a message from it. -/
  told : ∀ row ∈ s.escalations,
    (row.incident, .escalation, row.runId) ∈ s.notifications.map NotificationRow.key

theorem messagesFit_empty : MessagesFit {} := ⟨List.nodup_nil, by simp, by simp, by simp⟩

end Store

/-- **The condition on an ingest**: in the store it raises in, no incident is raised twice in its
run. -/
def IngestCall.RaisesOnce (s : Store) (call : IngestCall) : Prop :=
  ∀ settled, call.RaisesIn s settled →
    settled.RaisesOnce call.ctx call.runId (call.now s)

/-! ## Messages -/

section Messages

variable {call : IngestCall} {s settled s' : Store} {out : Regrouped}

/-- The fields of a message. -/
private theorem messageRow_fields {incident : ℕ} {kind : NotificationKind} {runId text : String}
    {time : Timestamp} {n : NotificationRow}
    (hn : s'.messageRow incident kind runId text time = some n) :
    n.incident = incident ∧ n.kind = kind ∧ n.runId = runId ∧ n.text = text ∧
      ∃ i ∈ s'.incidents, i.seq = n.incident ∧ n.recipient = i.handler := by
  unfold Store.messageRow at hn
  obtain ⟨i, hi, rfl⟩ := Option.map_eq_some_iff.mp hn
  refine ⟨rfl, rfl, rfl, rfl, i, List.mem_of_find?_eq_some hi, ?_, rfl⟩
  simpa using List.find?_some hi

/-- Every message an ingest queues goes to whoever handles the incident. -/
private theorem recipient_of_message {raises : List Escalation} {n : NotificationRow}
    (hn : n ∈ messagesOf call.runId (call.now s) out raises s') :
    ∃ i ∈ s'.incidents, i.seq = n.incident ∧ n.recipient = i.handler := by
  rw [messagesOf, List.mem_append, List.mem_append, List.mem_append] at hn
  rcases hn with ((hn | hn) | hn) | hn
  all_goals
    obtain ⟨_, -, hrow⟩ := List.mem_filterMap.mp hn
    exact (messageRow_fields hrow).2.2.2.2

/-- A message about a raise, queued by an ingest, is about one that was due. -/
private theorem exists_due_of_message {n : NotificationRow} (hkind : n.kind = .escalation)
    (hn : n ∈ messagesOf call.runId (call.now s) out
      (settled.raisesDue call.ctx (call.now s) call.runId) s') :
    ∃ row ∈ settled.raisesDue call.ctx (call.now s) call.runId,
      s'.messageRow row.incident .escalation call.runId row.text (call.now s) = some n := by
  have hother : ∀ {l : List ℕ} {kind : NotificationKind} {text : ℕ → String},
      kind ≠ .escalation → n ∉ l.filterMap fun i =>
        s'.messageRow i kind call.runId (text i) (call.now s) := by
    intro l kind text hne hmem
    obtain ⟨i, -, hrow⟩ := List.mem_filterMap.mp hmem
    exact hne ((messageRow_fields hrow).2.1.symm.trans hkind)
  rw [messagesOf, List.mem_append, List.mem_append, List.mem_append] at hn
  rcases hn with ((hn | hn) | hn) | hn
  · exact absurd hn (hother (by simp))
  · exact absurd hn (hother (by simp))
  · exact absurd hn (hother (by simp))
  · exact List.mem_filterMap.mp hn

end Messages

/-! ## One ingest -/

section Ingest

variable {call : IngestCall} {s settled s' : Store} {out : Regrouped}
  (h : call.Escalates s settled s' out)

include h

/-- An incident keeps its handler. -/
theorem IngestCall.Escalates.exists_handler {i : Incident} (hi : i ∈ s.incidents) :
    ∃ j ∈ s'.incidents, j.seq = i.seq ∧ j.handler = i.handler := by
  obtain ⟨r, news, assignment, hingested, -⟩ := h.ingested
  obtain ⟨severityOf, hincidents⟩ := hingested.incidents
  obtain ⟨resolved, mergedInto, hfate⟩ := @Regrouping.fate_eq r (r.into assignment) i
  rw [hincidents]
  refine ⟨_, List.mem_map_of_mem (List.mem_append_left _ (List.mem_map_of_mem hi)), ?_, ?_⟩
  · exact Regrouping.fate_same.seq
  · rw [hfate]
    rfl

/-- The incident of a raise due is there after the ingest. -/
private theorem mem_seq_of_due {row : Escalation}
    (hrow : row ∈ settled.raisesDue call.ctx (call.now s) call.runId) :
    row.incident ∈ s'.incidents.map Incident.seq := by
  obtain ⟨i, hi, -, hincident, -⟩ := Store.mem_raisesDue hrow
  obtain ⟨severityOf, hincidents⟩ := h.incidents
  rw [hincidents, seq_reseverity, hincident]
  exact List.mem_map_of_mem (Store.mem_looked.mp hi).1

/-- A raise due has a message to queue. -/
private theorem exists_message_of_due {row : Escalation}
    (hrow : row ∈ settled.raisesDue call.ctx (call.now s) call.runId) :
    ∃ n ∈ messagesOf call.runId (call.now s) out
        (settled.raisesDue call.ctx (call.now s) call.runId) s',
      s'.messageRow row.incident .escalation call.runId row.text (call.now s) = some n := by
  obtain ⟨n, hn, -⟩ := exists_messageRow (mem_seq_of_due h hrow) .escalation call.runId row.text
    (call.now s)
  refine ⟨n, ?_, hn⟩
  rw [messagesOf]
  exact List.mem_append_right _ (List.mem_filterMap.mpr ⟨row, hrow, hn⟩)

/-- The messages still fit the raises. -/
theorem IngestCall.Escalates.messagesFit (hfits : s.MessagesFit) : s'.MessagesFit := by
  constructor
  · rw [h.notifications]
    exact nodup_keys_insertAll hfits.keys
  · intro n hn
    rw [h.notifications] at hn
    rcases mem_of_mem_insertAll hn with hn | hn
    · -- an old message: its incident is still there, in the same hands
      obtain ⟨i, hi, hseq, hrecipient⟩ := hfits.recipient n hn
      obtain ⟨j, hj, hseq', hhandler⟩ := h.exists_handler hi
      exact ⟨j, hj, hseq'.trans hseq, hrecipient.trans hhandler.symm⟩
    · exact recipient_of_message hn
  · intro n hn hkind
    rw [h.notifications] at hn
    rw [h.escalations]
    rcases mem_of_mem_insertAll hn with hn | hn
    · obtain ⟨row, hrow, hsame⟩ := hfits.about n hn hkind
      exact ⟨row, List.mem_append_left _ hrow, hsame⟩
    · -- a new one is about a raise of this ingest
      obtain ⟨row, hrow, hmessage⟩ := exists_due_of_message hkind hn
      obtain ⟨hincident, -, hrun, htext, -⟩ := messageRow_fields hmessage
      obtain ⟨i, -, -, -, hrun', -⟩ := Store.mem_raisesDue hrow
      exact ⟨row, List.mem_append_right _ hrow, hincident.symm, hrun'.trans hrun.symm, htext.symm⟩
  · intro row hrow
    rw [h.escalations] at hrow
    rw [h.notifications, mem_keys_insertAll]
    rcases List.mem_append.mp hrow with hrow | hrow
    · -- an earlier raise was told before
      exact Or.inl (hfits.told row hrow)
    · obtain ⟨n, hn, hmessage⟩ := exists_message_of_due h hrow
      obtain ⟨i, -, -, -, hrun', -⟩ := Store.mem_raisesDue hrow
      rw [hrun', ← (messageRow_eq_some hmessage).1]
      exact Or.inr (List.mem_map_of_mem hn)

omit h in
/-- A message announces one raise at most. -/
private theorem eq_of_announces (honce : s.RaisesChained) {n : NotificationRow}
    {row row' : Escalation} (hrow : row ∈ s.escalations) (hrow' : row' ∈ s.escalations)
    (hn : s.Announces n row) (hn' : s.Announces n row') : row' = row := by
  apply List.inj_on_of_nodup_map honce.once hrow' hrow
  rw [Prod.mk.injEq]
  refine ⟨hn'.2.1.symm.trans hn.2.1, ?_⟩
  rw [Escalation.reason_of_text (hn'.2.2.1.symm.trans hn.2.2.1)]

/-- A raise there was is announced as before. -/
private theorem exists_announcement_of_old (hannounced : s.Announced)
    {row : Escalation} (hrow : row ∈ s.escalations) :
    ∃ n ∈ s'.notifications, s'.Announces n row := by
  obtain ⟨n, hn, ⟨hkind, hincident, htext, i, hi, hseq, hrecipient⟩, -⟩ := hannounced row hrow
  obtain ⟨j, hj, hseq', hhandler⟩ := h.exists_handler hi
  refine ⟨n, ?_, hkind, hincident, htext, j, hj, hseq'.trans hseq,
    hrecipient.trans hhandler.symm⟩
  rw [h.notifications]
  exact mem_insertAll_of_mem hn

/-- Raised once in its run, an incident has the message of its raise queued. -/
private theorem exists_announcement_of_due (hsound : s.Sound) (hfits : s.MessagesFit)
    (hone : settled.RaisesOnce call.ctx call.runId (call.now s)) {row : Escalation}
    (hrow : row ∈ settled.raisesDue call.ctx (call.now s) call.runId) :
    ∃ n ∈ s'.notifications, s'.Announces n row := by
  obtain ⟨n, hn, hmessage⟩ := exists_message_of_due h hrow
  obtain ⟨hincident, hkind, hrun, htext, hrecipient⟩ := messageRow_fields hmessage
  refine ⟨n, ?_, hkind, hincident, htext, hrecipient⟩
  obtain ⟨i, hi, hrows, hseq, -, -, hreason⟩ := Store.mem_raisesDue hrow
  obtain ⟨hmem, hopen, hopened⟩ := Store.mem_looked.mp hi
  obtain ⟨hlength, hfirst⟩ := (hone i hmem hopen hopened).resolve_left (List.ne_nil_of_mem hreason)
  rw [h.notifications]
  apply mem_insertAll_of_new hn
  · -- no message of this run is about a raise of the incident
    intro htaken
    obtain ⟨old, hold, hkey⟩ := List.mem_map.mp htaken
    rw [(messageRow_eq_some hmessage).1] at hkey
    obtain ⟨hincident', hrest⟩ := Prod.mk.inj hkey
    obtain ⟨hkind', hrun'⟩ := Prod.mk.inj hrest
    obtain ⟨row', hrow', hseq', hrun'', -⟩ := hfits.about old hold hkind'
    rw [← h.escalations_eq] at hrow'
    apply hfirst row' hrow'
    · rw [hseq', hincident', hseq]
    · rw [hrun'', hrun']
  · -- and no other message of the ingest
    intro n' hn' hkey
    rw [(messageRow_eq_some hmessage).1] at hkey
    obtain ⟨hincident', hrest⟩ := Prod.mk.inj hkey
    obtain ⟨row', hrow', hmessage'⟩ :=
      exists_due_of_message (Prod.mk.inj hrest).1 hn'
    have hseq' : row'.incident = i.seq := by
      rw [← (messageRow_fields hmessage').1, hincident', hseq]
    have hrows' : row' ∈ raiseRows i.seq call.runId (call.now s)
        (reasonsFor call.ctx (call.now s) settled.escalations i) i.severity := by
      rw [← Store.filter_raisesDue (h.numbered hsound) hi]
      exact List.mem_filter.mpr ⟨hrow', decide_eq_true hseq'⟩
    rw [Store.raisingReasons_eq call.runId, List.length_map, List.length_eq_one_iff] at hlength
    obtain ⟨only, honly⟩ := hlength
    rw [honly, List.mem_singleton] at hrows hrows'
    rw [hrows', ← hrows, hmessage] at hmessage'
    exact (Option.some.inj hmessage').symm

/-- The message that announces a raise due is one the ingest queued. -/
private theorem exists_message_of_announced (honce : s'.RaisesChained) (hfits : s.MessagesFit)
    (hannounced : s'.Announced) {row : Escalation}
    (hrow : row ∈ settled.raisesDue call.ctx (call.now s) call.runId) :
    ∃ n ∈ s'.notifications, n ∉ s.notifications ∧ n.text = row.text ∧
      n.key = (row.incident, .escalation, call.runId) := by
  have hmem : row ∈ s'.escalations := by
    rw [h.escalations]
    exact List.mem_append_right _ hrow
  obtain ⟨n, hn, ⟨hkind, hincident, htext, -⟩, -⟩ := hannounced row hmem
  -- an old message would be about an earlier raise for the same reason
  have hnew : n ∉ s.notifications := by
    intro hold
    obtain ⟨old, hrow', hincident', -, htext'⟩ := hfits.about n hold hkind
    exact h.reason_ne_of_due honce hrow hrow' (hincident'.trans hincident)
      (Escalation.reason_of_text (htext'.trans htext))
  refine ⟨n, hn, hnew, htext, ?_⟩
  rw [h.notifications] at hn
  obtain ⟨row', -, hmessage⟩ :=
    exists_due_of_message hkind ((mem_of_mem_insertAll hn).resolve_left hnew)
  rw [(messageRow_eq_some hmessage).1, ← (messageRow_fields hmessage).1, hincident]

/-- Announced, the raises of an incident in one run are one. -/
private theorem raisesOnce_of_announced (hsound : s.Sound) (honce : s'.RaisesChained)
    (hfits : s.MessagesFit) (hannounced : s'.Announced) :
    settled.RaisesOnce call.ctx call.runId (call.now s) := by
  have hkeys := (h.messagesFit hfits).keys
  intro i hi hopen hopened
  have hlooked : i ∈ settled.looked (call.now s) := Store.mem_looked.mpr ⟨hi, hopen, hopened⟩
  cases hreasons : settled.raisingReasons call.ctx (call.now s) i with
  | nil => exact Or.inl rfl
  | cons reason rest =>
    right
    obtain ⟨row, hrow, hseq, -, -, hreason⟩ :=
      Store.exists_raisesDue call.runId hlooked (hreasons ▸ List.mem_cons_self ..)
    obtain ⟨n, hn, hnew, htext, hkey⟩ := exists_message_of_announced h honce hfits hannounced hrow
    constructor
    · -- a second reason would have its message under the same key
      cases rest with
      | nil => rfl
      | cons reason' rest =>
        exfalso
        obtain ⟨row', hrow', hseq', -, -, hreason'⟩ := Store.exists_raisesDue call.runId
          hlooked (hreasons ▸ List.mem_cons_of_mem _ (List.mem_cons_self ..) :
            reason' ∈ settled.raisingReasons call.ctx (call.now s) i)
        obtain ⟨n', hn', -, htext', hkey'⟩ :=
          exists_message_of_announced h honce hfits hannounced hrow'
        obtain rfl : n = n' := by
          apply List.inj_on_of_nodup_map hkeys hn hn'
          rw [hkey, hkey', hseq, hseq']
        have hsame : reason = reason' := by
          rw [← hreason, ← hreason']
          exact Escalation.reason_of_text (htext.symm.trans htext')
        have hapart := h.nodup_raisingReasons hsound honce hlooked
        rw [hreasons, hsame] at hapart
        simp at hapart
    · -- an earlier raise in the run has its message under this key
      intro old hold hseq' hrun
      rw [h.escalations_eq] at hold
      obtain ⟨n', hn', hkey'⟩ := List.mem_map.mp (hfits.told old hold)
      have hmem : n' ∈ s'.notifications := by
        rw [h.notifications]
        exact mem_insertAll_of_mem hn'
      obtain rfl : n = n' := by
        apply List.inj_on_of_nodup_map hkeys hn hmem
        rw [hkey, hkey', hseq, hseq', hrun]
      exact hnew hn'

/-- **One ingest**: the raises are all announced after it exactly when it raises no incident twice
in its run. -/
theorem announced_iff (hsound : s.Sound) (honce : s'.RaisesChained) (hfits : s.MessagesFit)
    (hannounced : s.Announced) :
    s'.Announced ↔ settled.RaisesOnce call.ctx call.runId (call.now s) := by
  refine ⟨raisesOnce_of_announced h hsound honce hfits, fun hone row hrow => ?_⟩
  have hexists : ∃ n ∈ s'.notifications, s'.Announces n row := by
    have hrow' := hrow
    rw [h.escalations] at hrow'
    rcases List.mem_append.mp hrow' with hold | hdue
    · exact exists_announcement_of_old h hannounced hold
    · exact exists_announcement_of_due h hsound hfits hone hdue
  obtain ⟨n, hn, hannounces⟩ := hexists
  refine ⟨n, hn, hannounces, fun row' hrow' hannounces' => ?_⟩
  exact eq_of_announces honce hrow hrow' hannounces hannounces'

end Ingest

/-! ## In every run -/

/-- **When every raise is announced**: after each of a sequence of ingests every raise has a message
of its own to whoever handles the incident, exactly when no ingest raises an incident twice, or
again in its run. -/
theorem every_raise_announced_iff (calls : List IngestCall) :
    (∀ done, done <+: calls → (storeAfter done).Announced) ↔
      Run deskStep IngestCall.RaisesOnce {} calls (storeAfter calls) := by
  apply always_iff_of_escalates (J := Store.MessagesFit)
    (Q := fun call now settled => settled.RaisesOnce call.ctx call.runId now)
  · exact ⟨Store.messagesFit_empty, fun row hrow => absurd hrow List.not_mem_nil⟩
  · intro s call hkept hfits
    rcases call.after_cases hkept.sound hkept.fit with ⟨hsame, -⟩ | ⟨settled, out, -, h⟩
    · rw [hsame]
      exact hfits
    · exact h.messagesFit hfits
  · intro call s settled out hkept hfits hannounced h
    exact announced_iff h hkept.sound (hkept.after call).chained hfits hannounced

/-- The second model is the finance team's, and two windows of theirs are open on the first of the
month. -/
def twoWindows : IngestCall :=
  { monthEnd with
    ctx := { monthEnd.ctx with
      policy := { monthEnd.ctx.policy with
        windows := [⟨"month end", "finance", 3, 1⟩, ⟨"month start", "finance", 0, 5⟩] } } }

/-- On the first of the month the first model fails: its incident is raised to SEV2, then to SEV1,
and the one message says it was raised to SEV2. -/
theorem second_raise_unannounced : ¬ (storeAfter [twoWindows]).Announced := by
  decide +kernel

end PlatformOps.Incidents
