import PlatformOps.Incidents.Ingest
import PlatformOps.Incidents.Severity

/-!
# The Incident Store

The tables the desk writes, and what their constraints refuse. An incident's id is
`INC-` and its number, so rows refer to incidents by `seq`; a resolution's two
columns are only ever written together. A statement that breaks a constraint
raises, and the ingest it is part of is rolled back.

The constraint that matters is the partial unique index on the root of the open
incidents, `incidents_one_open_per_root` (`OneOpenPerRoot`).
-/

namespace PlatformOps.Incidents

open Metadata Listing

/-! ## Rows -/

structure InvocationRow where
  invocationId : String
  runId : String
  kind : ArtifactKind
  detectedAt : Timestamp
  checksRun : ℕ
deriving DecidableEq, Repr

structure ResultRow where
  invocationId : String
  runId : String
  uniqueId : String
  resourceType : String
  status : String
deriving DecidableEq, Repr

structure EventRow where
  invocationId : String
  event : CheckEvent
  incident : Option ℕ := none
deriving DecidableEq, Repr

/-- `resolved_at` and `resolved_by_run`. -/
structure Resolution where
  time : Timestamp
  byRun : String
deriving DecidableEq, Repr

structure Incident where
  seq : ℕ
  root : String
  dataset : String
  severity : Severity
  score : ℕ
  rootTier : Tier
  owner : String
  team : String
  naiveOwner : String
  naiveTeam : String
  routedVia : String
  openedAt : Timestamp
  openedByRun : String
  resolved : Option Resolution := none
  mergedInto : Option ℕ := none
  previousIncident : Option ℕ := none
  /-- Who was paged, if it was recorded. -/
  paged : Option String := none
deriving DecidableEq, Repr

namespace Incident

/-- `f"INC-{seq:03d}"`. -/
def incidentId (i : Incident) : String := "INC-" ++ threeDigits i.seq

/-- Neither resolved nor merged: what the unique index covers. -/
def isOpen (i : Incident) : Bool := i.resolved.isNone && i.mergedInto.isNone

/-- `resolved_by_run`. -/
def resolvedByRun (i : Incident) : Option String := i.resolved.map Resolution.byRun

/-- `coalesce(paged, owner)`. -/
def handler (i : Incident) : String := i.paged.getD i.owner

end Incident

structure RunLink where
  incident : ℕ
  runId : String
  time : Timestamp
  checks : ℕ
deriving DecidableEq, Repr

structure SharedNode where
  incident : ℕ
  runId : String
  node : String
deriving DecidableEq, Repr

/-- Why an incident was raised a level: it stayed too long, or a calendar window is open. -/
inductive Reason
  | overdue (hours : ℤ) (severity : Severity)
  | window (name : String) (year : ℤ) (month : ℕ)
deriving DecidableEq, Repr

def Reason.text : Reason → String
  | .overdue hours severity => "open " ++ toString hours ++ " hours at " ++ severity.text
  | .window name year month => name ++ ", " ++ toString year ++ "-" ++ twoDigits month

theorem Severity.text_injective : Function.Injective Severity.text := by
  intro a b h
  cases a <;> cases b <;> first | rfl | exact absurd h (by decide)

/-- The text of a reason ends in the severity, or in the month. -/
private theorem Reason.toList_overdue (hours : ℤ) (severity : Severity) :
    (Reason.overdue hours severity).text.toList =
      ("open ".toList ++ (toString hours).toList ++ " hours at".toList) ++
        ' ' :: severity.text.toList := by
  simp [Reason.text, String.toList_append]

private theorem Reason.toList_window (name : String) (year : ℤ) (month : ℕ) :
    (Reason.window name year month).text.toList = (name.toList ++ [',']) ++
      ' ' :: ((toString year).toList ++ '-' :: (twoDigits month).toList) := by
  simp [Reason.text, String.toList_append]

private theorem mem_month {year : ℤ} {month : ℕ} {c : Char}
    (h : c ∈ (toString year).toList ++ '-' :: (twoDigits month).toList) :
    c = '-' ∨ c.isDigit = true := by
  rw [List.mem_append, List.mem_cons] at h
  rcases h with h | h | h
  · exact mem_toString_int h
  · exact Or.inl h
  · exact Or.inr (isDigit_of_mem_twoDigits h)

/-- **The text of a reason stands for it**: no two reasons read the same. -/
theorem Reason.text_injective : Function.Injective Reason.text := by
  have hseverity : ∀ severity : Severity,
      ' ' ∉ severity.text.toList ∧ 'V' ∈ severity.text.toList := by
    intro severity
    cases severity <;> decide
  have hblank : ∀ (year : ℤ) (month : ℕ),
      ' ' ∉ (toString year).toList ++ '-' :: (twoDigits month).toList := by
    intro year month hmem
    rcases mem_month hmem with h | h <;> revert h <;> decide
  have hapart : ∀ (severity : Severity) (year : ℤ) (month : ℕ), severity.text.toList ≠
      (toString year).toList ++ '-' :: (twoDigits month).toList := by
    intro severity year month heq
    rcases mem_month (heq ▸ (hseverity severity).2) with h | h <;> revert h <;> decide
  intro a b h
  replace h := congrArg String.toList h
  -- what stands after the last blank tells the two kinds apart
  cases a with
  | overdue hours severity =>
    rw [Reason.toList_overdue] at h
    cases b with
    | overdue hours' severity' =>
      rw [Reason.toList_overdue,
        append_cons_inj_of_last (hseverity _).1 (hseverity _).1] at h
      have hhours := List.append_cancel_left (List.append_cancel_right h.1)
      rw [Int.repr_injective (String.toList_injective hhours),
        Severity.text_injective (String.toList_injective h.2)]
    | window name year month =>
      rw [Reason.toList_window, append_cons_inj_of_last (hseverity _).1 (hblank _ _)] at h
      exact absurd h.2 (hapart _ _ _)
  | window name year month =>
    rw [Reason.toList_window] at h
    cases b with
    | overdue hours severity =>
      rw [Reason.toList_overdue, append_cons_inj_of_last (hblank _ _) (hseverity _).1] at h
      exact absurd h.2.symm (hapart _ _ _)
    | window name' year' month' =>
      rw [Reason.toList_window, append_cons_inj_of_last (hblank _ _) (hblank _ _)] at h
      obtain ⟨hname, hmonth⟩ := h
      have hdash : ∀ month, '-' ∉ (twoDigits month).toList := by
        intro month hmem
        have hdigit := isDigit_of_mem_twoDigits hmem
        revert hdigit
        decide
      rw [append_cons_inj_of_last (hdash _) (hdash _)] at hmonth
      rw [String.toList_injective (List.append_cancel_right hname),
        Int.repr_injective (String.toList_injective hmonth.1),
        twoDigits_injective (String.toList_injective hmonth.2)]

structure Escalation where
  incident : ℕ
  runId : String
  time : Timestamp
  fromSeverity : Severity
  toSeverity : Severity
  reason : Reason
deriving DecidableEq, Repr

inductive NotificationKind
  | page | update | resolved | escalation
deriving DecidableEq, Repr

structure NotificationRow where
  incident : ℕ
  kind : NotificationKind
  runId : String
  recipient : String
  team : String
  severity : Severity
  text : String
  sentAt : Timestamp
deriving DecidableEq, Repr

/-! ## The store -/

structure Store where
  invocations : List InvocationRow := []
  results : List ResultRow := []
  checkEvents : List EventRow := []
  incidents : List Incident := []
  runLinks : List RunLink := []
  sharedNodes : List SharedNode := []
  escalations : List Escalation := []
  notifications : List NotificationRow := []
deriving DecidableEq, Repr

/-- What stops an ingest: a constraint by its name, a key a dictionary does not have, or a
lineage with a cycle. -/
inductive DeskError
  | uniqueViolation (constraint : String)
  | keyError (key : String)
  | recursionError
deriving DecidableEq, Repr

def oneOpenPerRoot : DeskError := .uniqueViolation "incidents_one_open_per_root"

/-- **At most one open incident per root**: what the unique index checks. -/
def OneOpenPerRoot (incidents : List Incident) : Prop :=
  ((incidents.filter Incident.isOpen).map Incident.root).Nodup

instance : DecidablePred OneOpenPerRoot := fun _ => inferInstanceAs (Decidable (List.Nodup _))

namespace Store

variable (s : Store)

/-- The incidents in the order of their numbers. -/
def bySeq : List Incident :=
  sortBy Incident.seq s.incidents

/-- A statement that leaves these incidents, if the unique index allows it. -/
def putIncidents (incidents : List Incident) : Except DeskError Store :=
  if OneOpenPerRoot incidents then .ok { s with incidents := incidents } else .error oneOpenPerRoot

/-- `UPDATE incidents SET … WHERE incident_id = …`. -/
def updateIncident (seq : ℕ) (change : Incident → Incident) : Except DeskError Store :=
  s.putIncidents (s.incidents.map fun i => if i.seq = seq then change i else i)

/-- `INSERT INTO incidents`. -/
def insertIncident (i : Incident) : Except DeskError Store :=
  if i.seq ∈ s.incidents.map Incident.seq then .error (.uniqueViolation "incidents_pkey")
  else s.putIncidents (s.incidents ++ [i])

/-- `_set_resolution`. -/
def setResolution (seq : ℕ) (resolved : Option Resolution) : Except DeskError Store :=
  s.updateIncident seq fun i => { i with resolved := resolved }

/-- `INSERT INTO incident_shared_nodes … ON CONFLICT DO NOTHING`. -/
def insertShared (row : SharedNode) : Store :=
  if row ∈ s.sharedNodes then s else { s with sharedNodes := s.sharedNodes ++ [row] }

/-- `_queue`: one message to whoever handles the incident, once per kind and run. -/
def queue (incident : ℕ) (kind : NotificationKind) (runId text : String) (time : Timestamp) :
    Store :=
  match s.incidents.find? fun i => i.seq = incident with
  | none => s
  | some i =>
    if s.notifications.any fun n => n.incident = incident && n.kind = kind && n.runId = runId then s
    else { s with notifications := s.notifications ++
      [⟨incident, kind, runId, i.handler, i.team, i.severity, text, time⟩] }

end Store

end PlatformOps.Incidents
