import PlatformOps.Incidents.Effects
import PlatformOps.Library.Ledger

/-!
# The Messages of an Ingest

The messages are a ledger: one row for an incident, a kind and a run, and a message
queued again is left out. An ingest queues its pages, updates, resolutions and raises
in this order, after everything else it writes, so what it adds can be said at once.

- `messagesOf`: the rows an ingest has to insert.
- `queueMessages_notifications`: it inserts them, and writes nothing else.
- `ingest_messages`: the same for an ingest that returns.
-/

namespace PlatformOps.Incidents

open Metadata Listing Fallible Ledger

/-- The primary key of a message. -/
def NotificationRow.key (n : NotificationRow) : ℕ × NotificationKind × String :=
  (n.incident, n.kind, n.runId)

/-- The row of a message about an incident of the store. -/
def Store.messageRow (s : Store) (incident : ℕ) (kind : NotificationKind) (runId text : String)
    (time : Timestamp) : Option NotificationRow :=
  (s.incidents.find? fun i => i.seq = incident).map fun i =>
    ⟨incident, kind, runId, i.handler, i.team, i.severity, text, time⟩

section Queue

variable (s : Store) (kind : NotificationKind) (runId : String) (time : Timestamp)

theorem queue_eq_insertAll (incident : ℕ) (text : String) :
    s.queue incident kind runId text time = { s with
      notifications := insertAll NotificationRow.key s.notifications
        (s.messageRow incident kind runId text time).toList } := by
  unfold Store.queue Store.messageRow
  cases s.incidents.find? fun i => i.seq = incident with
  | none => rfl
  | some i =>
    have htaken : (s.notifications.any fun n =>
        n.incident = incident && n.kind = kind && n.runId = runId) = true ↔
          (incident, kind, runId) ∈ s.notifications.map NotificationRow.key := by
      simp only [List.any_eq_true, Bool.and_eq_true, decide_eq_true_eq, List.mem_map,
        NotificationRow.key, Prod.mk.injEq, and_assoc]
    show (if _ then s else _) = { s with
      notifications := insertNew NotificationRow.key s.notifications
        ⟨incident, kind, runId, i.handler, i.team, i.severity, text, time⟩ }
    unfold insertNew
    by_cases h : (incident, kind, runId) ∈ s.notifications.map NotificationRow.key
    · rw [if_pos (htaken.mpr h)]
      exact congrArg (fun rows => ({ s with notifications := rows } : Store)) (if_pos h).symm
    · rw [if_neg (mt htaken.mp h)]
      exact congrArg (fun rows => ({ s with notifications := rows } : Store)) (if_neg h).symm

/-- Messages of one kind, whose texts are not about the messages. -/
theorem foldl_queue_eq_insertAll {α : Type*} (incident : α → ℕ) (text : Store → α → String)
    (htext : ∀ notifications a,
      text { s with notifications := notifications } a = text s a) (l : List α) :
    l.foldl (fun s a => s.queue (incident a) kind runId (text s a) time) s = { s with
      notifications := insertAll NotificationRow.key s.notifications
        (l.filterMap fun a => s.messageRow (incident a) kind runId (text s a) time) } := by
  -- the list is taken from the front; what was queued so far are messages of the store
  have hqueued : ∀ notifications, l.foldl
      (fun s a => s.queue (incident a) kind runId (text s a) time)
      { s with notifications := notifications } = { s with
        notifications := insertAll NotificationRow.key notifications
          (l.filterMap fun a => s.messageRow (incident a) kind runId (text s a) time) } := by
    induction l with
    | nil => exact fun _ => rfl
    | cons a rest ih =>
      intro notifications
      rw [List.foldl_cons, queue_eq_insertAll, htext, ih, List.filterMap_cons]
      show ({ s with
        notifications := insertAll NotificationRow.key (insertAll NotificationRow.key notifications
          (s.messageRow (incident a) kind runId (text s a) time).toList) _ } : Store) = _
      rw [← insertAll_append]
      cases s.messageRow (incident a) kind runId (text s a) time <;> rfl
  exact hqueued s.notifications

end Queue

/-- The messages an ingest has to queue: pages, updates, resolutions, raises. -/
def messagesOf (runId : String) (now : Timestamp) (out : Regrouped) (raises : List Escalation)
    (s : Store) : List NotificationRow :=
  (out.opened.filterMap fun i => s.messageRow i .page runId
    (checksText (linkedChecks s runId i) ++ " failing, rooted at " ++ rootOfIncident s i) now) ++
  (out.appended.filterMap fun i => s.messageRow i .update runId
    ("still failing: " ++ checksText (linkedChecks s runId i) ++ " in " ++ runId) now) ++
  (out.resolved.filterMap fun i => s.messageRow i .resolved runId
    ("resolved: " ++ rootOfIncident s i ++ " healthy in " ++ runId) now) ++
  raises.filterMap fun row => s.messageRow row.incident .escalation runId
    ("raised to " ++ row.toSeverity.text ++ ": " ++ row.reason.text) now

/-- **The messages are inserted**, and nothing else is written. -/
theorem queueMessages_notifications (runId : String) (now : Timestamp) (out : Regrouped)
    (raises : List Escalation) (s : Store) :
    queueMessages runId now out raises s = { s with
      notifications := insertAll NotificationRow.key s.notifications
        (messagesOf runId now out raises s) } := by
  unfold queueMessages messagesOf
  rw [insertAll_append, insertAll_append, insertAll_append]
  dsimp only
  rw [foldl_queue_eq_insertAll s .page runId now (fun i => i) _ (fun _ _ => rfl),
    foldl_queue_eq_insertAll _ .update runId now (fun i => i) _ (fun _ _ => rfl),
    foldl_queue_eq_insertAll _ .resolved runId now (fun i => i) _ (fun _ _ => rfl),
    foldl_queue_eq_insertAll _ .escalation runId now Escalation.incident
      (fun _ row => "raised to " ++ row.toSeverity.text ++ ": " ++ row.reason.text)
      (fun _ _ => rfl)]
  rfl

/-! ## Their keys -/

section Keys

variable {s : Store} {runId : String} {now : Timestamp} {out : Regrouped}
  {raises : List Escalation}

theorem messageRow_eq_some {incident : ℕ} {kind : NotificationKind} {text : String}
    {row : NotificationRow} (h : s.messageRow incident kind runId text now = some row) :
    row.key = (incident, kind, runId) ∧ incident ∈ s.incidents.map Incident.seq := by
  unfold Store.messageRow at h
  rw [Option.map_eq_some_iff] at h
  obtain ⟨i, hi, rfl⟩ := h
  refine ⟨rfl, List.mem_map.mpr ⟨i, List.mem_of_find?_eq_some hi, ?_⟩⟩
  simpa using List.find?_some hi

theorem exists_messageRow {incident : ℕ} (h : incident ∈ s.incidents.map Incident.seq)
    (kind : NotificationKind) (runId text : String) (now : Timestamp) :
    ∃ row, s.messageRow incident kind runId text now = some row ∧
      row.key = (incident, kind, runId) := by
  obtain ⟨i, hi, rfl⟩ := List.mem_map.mp h
  cases hfind : s.incidents.find? fun j => j.seq = i.seq with
  | none => exact absurd (List.find?_eq_none.mp hfind i hi) (by simp)
  | some j =>
    unfold Store.messageRow
    rw [hfind]
    exact ⟨_, rfl, rfl⟩

/-- The keys of messages of one kind: one for each incident of the store in the list. -/
private theorem mem_keys_filterMap {α : Type*} {l : List α} {incident : α → ℕ} {text : α → String}
    {kind : NotificationKind} {k : ℕ × NotificationKind × String} :
    k ∈ (l.filterMap fun a => s.messageRow (incident a) kind runId (text a) now).map
      NotificationRow.key ↔
    k.1 ∈ l.map incident ∧ k.1 ∈ s.incidents.map Incident.seq ∧ k.2 = (kind, runId) := by
  rw [List.mem_map]
  constructor
  · rintro ⟨row, hrow, rfl⟩
    obtain ⟨a, ha, hrow⟩ := List.mem_filterMap.mp hrow
    obtain ⟨hkey, hmem⟩ := messageRow_eq_some hrow
    rw [hkey]
    exact ⟨List.mem_map_of_mem ha, hmem, rfl⟩
  · rintro ⟨hl, hmem, hkind⟩
    obtain ⟨a, ha, heq⟩ := List.mem_map.mp hl
    rw [← heq] at hmem
    obtain ⟨row, hrow, hkey⟩ := exists_messageRow hmem kind runId (text a) now
    refine ⟨row, List.mem_filterMap.mpr ⟨a, ha, hrow⟩, hkey.trans ?_⟩
    rw [← hkind, heq]

/-- The incidents a message of each kind is about. -/
def about (out : Regrouped) (raises : List Escalation) : NotificationKind → List ℕ
  | .page => out.opened
  | .update => out.appended
  | .resolved => out.resolved
  | .escalation => raises.map Escalation.incident

/-- **The keys of the messages**: who is told what. -/
theorem mem_keys_messagesOf {incident : ℕ} {kind : NotificationKind} {runId' : String} :
    (incident, kind, runId') ∈ (messagesOf runId now out raises s).map NotificationRow.key ↔
      incident ∈ s.incidents.map Incident.seq ∧ runId' = runId ∧
        incident ∈ about out raises kind := by
  unfold messagesOf
  rw [List.map_append, List.map_append, List.map_append]
  simp only [List.mem_append, mem_keys_filterMap, Prod.mk.injEq]
  cases kind <;> simp [about, and_assoc, and_comm, and_left_comm]

end Keys

/-! ## In an ingest -/

namespace IngestCall

variable {call : IngestCall} {s : Store}

/-- **What an ingest queues**, if it has anything fresh. -/
theorem ingest_messages (hsound : s.Sound) (hfresh : call.fresh s ≠ []) {s' : Store}
    {out : Regrouped} (hok : call.ingest s = .ok (s', out)) :
    ∃ r raises, call.regrouping s = .ok r ∧ s'.notifications =
      insertAll NotificationRow.key s.notifications (messagesOf r.runId r.now out raises s') := by
  rw [ingest_eq hfresh, bind_eq_ok] at hok
  obtain ⟨r, hr, hok⟩ := hok
  rw [bind_eq_ok] at hok
  obtain ⟨⟨settled, out'⟩, hsettle, hok⟩ := hok
  rw [bind_eq_ok] at hok
  obtain ⟨raisedStore, hescalate, hok⟩ := hok
  rw [pure_eq_ok, Prod.mk.injEq] at hok
  obtain ⟨rfl, rfl⟩ := hok
  have hreaches := regrouping_ends.returned hr
  have hincidents := hreaches.recorded.incidents
  obtain ⟨-, news, assignment, hsettled⟩ :=
    (r.settle_ends (hincidents ▸ hsound.numbered) (hincidents ▸ hsound.oneOpen)
      hreaches.facts.distinct).returned hsettle
  obtain ⟨severityOf, escalations, rfl⟩ :=
    (escalate_ends r.ctx r.runId r.now settled).returned hescalate
  refine ⟨r, escalations.drop settled.escalations.length, hr, ?_⟩
  rw [queueMessages_notifications]
  show insertAll NotificationRow.key settled.notifications _ = _
  rw [hsettled.notifications, hreaches.recorded.notifications]
  rfl

end IngestCall

end PlatformOps.Incidents
