import PlatformOps.Incidents.RaisesDue

/-!
# Once per Window

While a calendar window is open, an incident that reaches its team's datasets is
raised a level, once per window. What marks the window as used is the reason of the
raise, its name and the month. A month's last days run on into the next month's first
days, though, and there the key changes while the window stays open.

- `Window.SameStretch`: the window is open on every day from one to another.
- `Store.OncePerStretch`: no incident is raised twice for the window in one stretch.
- `Store.NotCarriedOver`: no incident is raised for the window that has a raise of
  the same stretch under another month.
- `once_per_stretch_iff`: the first holds all along exactly when every ingest meets
  the second.
-/

namespace PlatformOps.Incidents

open Metadata Listing Machine

/-- The day of a time, counted from 1970-01-01. -/
def dayOf (time : Timestamp) : ℤ := time / Duration.hours 24

/-- The window is open on every day from one to the other. -/
def Window.SameStretch (w : Window) (day day' : ℤ) : Prop :=
  ∀ d, min day day' ≤ d → d ≤ max day day' → w.openOn (Date.ofDays d) = true

instance (w : Window) (day day' : ℤ) : Decidable (w.SameStretch day day') :=
  inferInstanceAs (Decidable (∀ d, min day day' ≤ d → d ≤ max day day' → _))

theorem Window.SameStretch.symm {w : Window} {day day' : ℤ} (h : w.SameStretch day day') :
    w.SameStretch day' day := by
  intro d hmin hmax
  apply h d
  · rwa [min_comm]
  · rwa [max_comm]

/-- The window a raise is due to, by its name. -/
def Reason.windowName : Reason → Option String
  | .overdue _ _ => none
  | .window name _ _ => some name

namespace Store

variable (s : Store) (w : Window)

/-- **At most one raise per window**: no incident has two raises due to the window on days of one
stretch. -/
def OncePerStretch : Prop :=
  ∀ row ∈ s.escalations, ∀ row' ∈ s.escalations, row.incident = row'.incident →
    row.reason.windowName = some w.name → row'.reason.windowName = some w.name →
    w.SameStretch (dayOf row.time) (dayOf row'.time) → row = row'

instance : Decidable (s.OncePerStretch w) :=
  inferInstanceAs (Decidable (∀ row ∈ s.escalations, ∀ row' ∈ s.escalations,
    _ → _ → _ → _ → row = row'))

/-- No incident that is raised for the window now has a raise for it under another month, from a day
since when the window stayed open. -/
def NotCarriedOver (ctx : Context) (now : Timestamp) : Prop :=
  ∀ i ∈ s.incidents, i.isOpen = true → i.openedAt ≤ now →
    ∀ reason ∈ s.raisingReasons ctx now i, reason.windowName = some w.name →
      ∀ row ∈ s.escalations, row.incident = i.seq → row.reason.windowName = some w.name →
        row.reason ≠ reason → ¬ w.SameStretch (dayOf row.time) (dayOf now)

end Store

/-- **The condition on an ingest**: where it raises, the window is not carried over from another
month. -/
def IngestCall.NotCarriedOver (w : Window) (s : Store) (call : IngestCall) : Prop :=
  ∀ settled, call.RaisesIn s settled → settled.NotCarriedOver w call.ctx (call.now s)

/-! ## One ingest -/

/-- A window's reason names the month it is looked at in. -/
theorem eq_window_of_mem_reasonsFor {ctx : Context} {now : Timestamp}
    {escalations : List Escalation} {i : Incident} {reason : Reason} {name : String}
    (h : reason ∈ reasonsFor ctx now escalations i) (hname : reason.windowName = some name) :
    reason = .window name now.date.year now.date.month := by
  simp only [reasonsFor, List.mem_append, List.mem_filter, List.mem_map] at h
  rcases h with hlate | ⟨⟨w, -, rfl⟩, -⟩
  · split at hlate
    · rw [List.mem_singleton.mp hlate] at hname
      cases hname
    · cases hlate
  · cases hname
    rfl

section Ingest

variable {call : IngestCall} {s settled s' : Store} {out : Regrouped} {w : Window}
  (h : call.Escalates s settled s' out)

include h

/-- A raise due for a window does not share its stretch with an earlier raise, if the window is not
carried over. -/
private theorem not_sameStretch_of_due (hchained : s'.RaisesChained)
    (hcond : settled.NotCarriedOver w call.ctx (call.now s)) {row old : Escalation}
    (hrow : row ∈ settled.raisesDue call.ctx (call.now s) call.runId) (hold : old ∈ s.escalations)
    (hincident : old.incident = row.incident) (hname : row.reason.windowName = some w.name)
    (hname' : old.reason.windowName = some w.name) :
    ¬ w.SameStretch (dayOf old.time) (dayOf row.time) := by
  obtain ⟨i, hi, -, hseq, -, htime, hreason⟩ := Store.mem_raisesDue hrow
  obtain ⟨hmem, hopen, hopened⟩ := Store.mem_looked.mp hi
  have hne := h.reason_ne_of_due hchained hrow hold hincident
  rw [htime]
  rw [← h.escalations_eq] at hold
  exact hcond i hmem hopen hopened row.reason hreason hname old hold (hincident.trans hseq) hname'
    hne

/-- Two raises due for one window are one: they name the same month. -/
private theorem eq_of_due_of_window (hchained : s'.RaisesChained) {row row' : Escalation}
    (hrow : row ∈ settled.raisesDue call.ctx (call.now s) call.runId)
    (hrow' : row' ∈ settled.raisesDue call.ctx (call.now s) call.runId)
    (hincident : row.incident = row'.incident) (hname : row.reason.windowName = some w.name)
    (hname' : row'.reason.windowName = some w.name) : row = row' := by
  obtain ⟨i, -, -, -, -, -, hreason⟩ := Store.mem_raisesDue hrow
  obtain ⟨i', -, -, -, -, -, hreason'⟩ := Store.mem_raisesDue hrow'
  apply h.eq_of_due hchained hrow hrow' hincident
  rw [eq_window_of_mem_reasonsFor (List.mem_of_mem_take hreason) hname,
    eq_window_of_mem_reasonsFor (List.mem_of_mem_take hreason') hname']

/-- **One ingest**: no incident is raised twice in a stretch after it exactly when the window was
not carried over from another month. -/
theorem oncePerStretch_iff (hchained : s'.RaisesChained) (honce : s.OncePerStretch w) :
    s'.OncePerStretch w ↔ settled.NotCarriedOver w call.ctx (call.now s) := by
  constructor
  · intro honce' i hi hopen hopened reason hreason hname old hold hincident hname' hne hstretch
    rw [h.escalations_eq] at hold
    obtain ⟨row, hrow, hseq, -, htime, hreason'⟩ := Store.exists_raisesDue call.runId
      (Store.mem_looked.mpr ⟨hi, hopen, hopened⟩) hreason
    -- the new raise and the one carried over are of one stretch
    have heq : old = row := by
      apply honce' old _ row _ (hincident.trans hseq.symm) hname'
      · rwa [hreason']
      · rwa [htime]
      · rw [h.escalations]
        exact List.mem_append_left _ hold
      · rw [h.escalations]
        exact List.mem_append_right _ hrow
    exact hne (heq ▸ hreason')
  · intro hcond row hrow row' hrow' hincident hname hname' hstretch
    rw [h.escalations] at hrow hrow'
    rcases List.mem_append.mp hrow with hold | hdue
    · rcases List.mem_append.mp hrow' with hold' | hdue'
      · exact honce row hold row' hold' hincident hname hname' hstretch
      · exact absurd hstretch
          (not_sameStretch_of_due h hchained hcond hdue' hold hincident hname' hname)
    · rcases List.mem_append.mp hrow' with hold' | hdue'
      · exact absurd hstretch.symm
          (not_sameStretch_of_due h hchained hcond hdue hold' hincident.symm hname hname')
      · exact eq_of_due_of_window h hchained hdue hdue' hincident hname hname'

end Ingest

/-! ## In every run -/

/-- **When a window raises an incident at most once**: after each of a sequence of ingests no
incident has two raises for the window in one stretch of days, exactly when no ingest raises an
incident for it that was raised under another month of the stretch. -/
theorem once_per_stretch_iff (w : Window) (calls : List IngestCall) :
    (∀ done, done <+: calls → (storeAfter done).OncePerStretch w) ↔
      Run deskStep (IngestCall.NotCarriedOver w) {} calls (storeAfter calls) := by
  apply always_iff_of_escalates (J := fun _ => True) (P := fun s => s.OncePerStretch w)
    (Q := fun call now settled => settled.NotCarriedOver w call.ctx now)
  · exact ⟨trivial, fun row hrow => absurd hrow List.not_mem_nil⟩
  · exact fun _ _ _ _ => trivial
  · intro call s settled out hkept _ honce h
    exact oncePerStretch_iff h (hkept.after call).chained honce

/-- The last two days of a month and the first three of the next. -/
def monthEndClose : Window := ⟨"month-end close", "finance", 2, 3⟩

/-- A run on the two models, of which the second is the finance team's. -/
def closeNight (runId id : String) (time : Timestamp) : IngestCall :=
  { invocationOf runId id time [("model.a", "error")] with
    ctx := { monthEnd.ctx with
      policy := { monthEnd.ctx.policy with windows := [monthEndClose] } } }

/-- The nights of 31 January and 1 February, in which the first model fails. -/
def overTheMonthEnd : List IngestCall :=
  [closeNight "night 1" "1" (Duration.hours (24 * 30)),
    closeNight "night 2" "2" (Duration.hours (24 * 31))]

/-- Its incident is raised on the last day of January and again on the first of February. -/
theorem raised_twice_in_stretch : monthEndClose ∈
    (closeNight "night 1" "1" (Duration.hours (24 * 30))).ctx.policy.windows ∧
    ¬ (storeAfter overTheMonthEnd).OncePerStretch monthEndClose := by
  decide +kernel

end PlatformOps.Incidents
