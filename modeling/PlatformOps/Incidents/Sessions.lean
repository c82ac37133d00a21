import PlatformOps.Incidents.Announced
import PlatformOps.Incidents.Delivered

/-!
# Ingests at the Same Time

Orchestrators call the desk whenever a run of theirs ends, also at the same time. Every call
has two transactions, one that ingests and one that delivers, and each of them takes the one
advisory lock of the store first and keeps it to its end. A call can die at any point;
the lock is given back and what the transaction has written is gone, but not what it has sent.

- `ingests_serial`: however the calls interleave, the store is that of the committed
  ingests alone, one after the other, and no call waits for ever.
- `delivered_together`: when the committed calls have returned, every message is recorded
  as delivered, once; and no message is sent by two calls unless a delivery was cut short.
-/

namespace PlatformOps.Incidents.Notify

open Metadata Machine Listing Ledger

/-- A call of `ingest_target` and the channels it delivers on. -/
structure Caller extends IngestCall where
  channels : List Channel := []

/-- Where a call is. -/
inductive Phase
  | waiting
  /-- Its ingest raised. -/
  | refused
  /-- It died before its ingest was committed. -/
  | dead
  /-- Its ingest is committed, its delivery is not. -/
  | queued
  /-- It died before its delivery began. -/
  | abandoned
  /-- It died in its delivery, or its delivery raised. -/
  | cut
  | returned
deriving DecidableEq, Repr

def Phase.isCommitted : Phase → Bool
  | .waiting | .refused | .dead => false
  | .queued | .abandoned | .cut | .returned => true

/-- It still has messages to deliver, or has left them. -/
def Phase.isOwing : Phase → Bool
  | .queued | .abandoned | .cut => true
  | .waiting | .refused | .dead | .returned => false

/-- What the transaction under the lock is doing. -/
inductive Work
  /-- The store as its statements see it. -/
  | recording (seen : Store)
  /-- The messages it has not sent yet, and what it has recorded. -/
  | delivering (rows : List NotificationRow)
      (delivered : List ((ℕ × NotificationKind × String) × String))

/-- The database and the calls that use it. -/
structure Sessions extends Desk where
  /-- `pg_advisory_xact_lock`: which call has it. -/
  lock : Option (ℕ × Work) := none
  phase : ℕ → Phase := fun _ => .waiting
  /-- The calls whose ingest is committed, in order. -/
  committed : List ℕ := []

inductive SessionEvent
  | lock (call : ℕ)
  /-- The transaction under the lock ingests, and commits or rolls back. -/
  | ingest
  /-- It sends one message, and records how it went. -/
  | send
  /-- It commits the delivery. -/
  | record
  /-- A call dies, if it is sending after this many requests of the message. -/
  | die (call : ℕ) (requests : ℕ)
deriving DecidableEq, Repr

namespace Sessions

variable (net : Net) (calls : ℕ → Caller) (s : Sessions)

/-- The lock is given back. -/
def leave (i : ℕ) (phase : Phase) : Sessions :=
  { s with lock := none, phase := Function.update s.phase i phase }

/-- One message on the channels of a call. -/
def sendOne (net : Net) (i : ℕ) (n : NotificationRow) : Wire × Except SendError String :=
  Notify.deliver net n (teamOf (calls i).ctx.registry n) (calls i).channels s.wire

/-- The wire after a call that died in a message. -/
def cutWire (i : ℕ) (rows : List NotificationRow) (requests : ℕ) : Wire :=
  match rows with
  | [] => s.wire
  | n :: _ =>
    (s.sendOne calls (fun k request =>
      if k < s.wire.requests + requests then net k request
      else .raises .connectionError) i n).1

/-- A call that has no lock dies. -/
def dieUnlocked (i : ℕ) : Option Sessions :=
  match s.phase i with
  | .waiting => some { s with phase := Function.update s.phase i .dead }
  | .queued => some { s with phase := Function.update s.phase i .abandoned }
  | _ => none

def step : SessionEvent → Option Sessions
  | .lock i =>
    match s.lock, s.phase i with
    | none, .waiting => some { s with lock := some (i, .recording s.store) }
    | none, .queued => some { s with lock := some (i, .delivering s.pending s.delivered) }
    | _, _ => none
  | .ingest =>
    match s.lock with
    | some (i, .recording seen) =>
      match (calls i).ingest seen with
      | .error _ => some (s.leave i .refused)
      | .ok (store, _) =>
        -- with nothing fresh the call returns from inside its transaction
        let phase := if (calls i).fresh seen = [] then .returned else .queued
        some { s.leave i phase with store := store, committed := s.committed ++ [i] }
    | _ => none
  | .send =>
    match s.lock with
    | some (i, .delivering (n :: rows) delivered) =>
      match s.sendOne calls net i n with
      | (wire, .ok how) =>
        some { s with wire := wire, lock := some (i, .delivering rows (delivered ++ [(n.key, how)])) }
      | (wire, .error _) => some { s.leave i .cut with wire := wire }
    | _ => none
  | .record =>
    match s.lock with
    | some (i, .delivering [] delivered) =>
      some { s.leave i .returned with delivered := delivered }
    | _ => none
  | .die i requests =>
    match s.lock with
    | none => s.dieUnlocked i
    | some (j, work) =>
      if j ≠ i then s.dieUnlocked i
      else match work with
        | .recording _ => some (s.leave i .dead)
        | .delivering rows _ =>
          some { s.leave i .cut with wire := s.cutWire net calls i rows requests }

/-! ## What can happen -/

/-- The events, one rule for each thing that can come of them. -/
inductive Moves : SessionEvent → Sessions → Prop
  | lockIngest {i} (hlock : s.lock = none) (hphase : s.phase i = .waiting) :
      Moves (.lock i) { s with lock := some (i, .recording s.store) }
  | lockDelivery {i} (hlock : s.lock = none) (hphase : s.phase i = .queued) :
      Moves (.lock i) { s with lock := some (i, .delivering s.pending s.delivered) }
  | refuse {i seen e} (hlock : s.lock = some (i, .recording seen))
      (hingest : (calls i).ingest seen = .error e) : Moves .ingest (s.leave i .refused)
  | commit {i seen store out} (hlock : s.lock = some (i, .recording seen))
      (hingest : (calls i).ingest seen = .ok (store, out)) :
      Moves .ingest { s.leave i (if (calls i).fresh seen = [] then .returned else .queued) with
        store := store, committed := s.committed ++ [i] }
  | send {i n rows delivered wire how} (hlock : s.lock = some (i, .delivering (n :: rows) delivered))
      (hsend : s.sendOne calls net i n = (wire, .ok how)) :
      Moves .send
        { s with wire := wire, lock := some (i, .delivering rows (delivered ++ [(n.key, how)])) }
  | fail {i n rows delivered wire e} (hlock : s.lock = some (i, .delivering (n :: rows) delivered))
      (hsend : s.sendOne calls net i n = (wire, .error e)) :
      Moves .send { s.leave i .cut with wire := wire }
  | record {i delivered} (hlock : s.lock = some (i, .delivering [] delivered)) :
      Moves .record { s.leave i .returned with delivered := delivered }
  /-- A call dies that has no lock. -/
  | dieWaiting {i requests} (hlock : ∀ work, s.lock ≠ some (i, work))
      (hphase : s.phase i = .waiting) :
      Moves (.die i requests) { s with phase := Function.update s.phase i .dead }
  | dieQueued {i requests} (hlock : ∀ work, s.lock ≠ some (i, work))
      (hphase : s.phase i = .queued) :
      Moves (.die i requests) { s with phase := Function.update s.phase i .abandoned }
  | dieRecording {i requests seen} (hlock : s.lock = some (i, .recording seen)) :
      Moves (.die i requests) (s.leave i .dead)
  | dieDelivering {i requests rows delivered}
      (hlock : s.lock = some (i, .delivering rows delivered)) :
      Moves (.die i requests)
        { s.leave i .cut with wire := s.cutWire net calls i rows requests }

variable {net calls s} {s' : Sessions}

theorem moves_of_dieUnlocked {i requests : ℕ} (hlock : ∀ work, s.lock ≠ some (i, work))
    (h : s.dieUnlocked i = some s') : s.Moves net calls (.die i requests) s' := by
  unfold dieUnlocked at h
  cases hphase : s.phase i <;> rw [hphase] at h
  case waiting =>
    obtain rfl := Option.some.inj h
    exact .dieWaiting hlock hphase
  case queued =>
    obtain rfl := Option.some.inj h
    exact .dieQueued hlock hphase
  all_goals cases h

theorem moves_of_step {e : SessionEvent} (h : s.step net calls e = some s') :
    s.Moves net calls e s' := by
  cases e with
  | lock i =>
    simp only [step] at h
    cases hlock : s.lock <;> cases hphase : s.phase i <;> simp only [hlock, hphase] at h
    case none.waiting =>
      obtain rfl := Option.some.inj h
      exact .lockIngest hlock hphase
    case none.queued =>
      obtain rfl := Option.some.inj h
      exact .lockDelivery hlock hphase
    all_goals cases h
  | ingest =>
    simp only [step] at h
    split at h
    · rename_i i seen hlock
      split at h
      · rename_i e hingest
        obtain rfl := Option.some.inj h
        exact .refuse hlock hingest
      · rename_i store out hingest
        obtain rfl := Option.some.inj h
        exact .commit hlock hingest
    · cases h
  | send =>
    simp only [step] at h
    split at h
    · rename_i i n rows delivered hlock
      split at h
      · rename_i wire how hsend
        obtain rfl := Option.some.inj h
        exact .send hlock hsend
      · rename_i wire e hsend
        obtain rfl := Option.some.inj h
        exact .fail hlock hsend
    · cases h
  | record =>
    simp only [step] at h
    split at h
    · rename_i i delivered hlock
      obtain rfl := Option.some.inj h
      exact .record hlock
    · cases h
  | die i requests =>
    simp only [step] at h
    cases hlock : s.lock with
    | none =>
      simp only [hlock] at h
      exact moves_of_dieUnlocked (by simp [hlock]) h
    | some held =>
      obtain ⟨j, work⟩ := held
      simp only [hlock] at h
      by_cases hj : j = i
      · subst hj
        rw [if_neg (not_not.mpr rfl)] at h
        cases work with
        | recording seen =>
          obtain rfl := Option.some.inj h
          exact .dieRecording hlock
        | delivering rows delivered =>
          obtain rfl := Option.some.inj h
          exact .dieDelivering hlock
      · rw [if_pos hj] at h
        refine moves_of_dieUnlocked (fun work' hwork' => hj ?_) h
        exact (Prod.mk.inj (Option.some.inj (hlock.symm.trans hwork'))).1

/-! ## One after the other -/

end Sessions

/-- A store the desk keeps, as far as its messages go. -/
structure Kept (s : Store) : Prop where
  raises : s.RaisesKept
  fits : s.MessagesFit

theorem kept_empty : Kept {} :=
  ⟨Store.raisesKept_empty, Store.messagesFit_empty⟩

/-- An ingest keeps the messages there are. -/
theorem Kept.after {s : Store} (h : Kept s) (call : IngestCall) :
    Kept (call.after s) ∧ ∀ n ∈ s.notifications, n ∈ (call.after s).notifications := by
  obtain ⟨hsame, -⟩ | ⟨settled, out, -, hescalates⟩ :=
    call.after_cases h.raises.sound h.raises.fit
  · rw [hsame]
    exact ⟨h, fun n hn => hn⟩
  · refine ⟨⟨h.raises.after call, hescalates.messagesFit h.fits⟩, fun n hn => ?_⟩
    rw [hescalates.notifications]
    exact mem_insertAll_of_mem hn

theorem after_of_ingest {call : IngestCall} {s store : Store} {out : Regrouped}
    (h : call.ingest s = .ok (store, out)) : call.after s = store := by
  rw [IngestCall.after, h]

/-- With nothing fresh an ingest changes nothing. -/
theorem after_of_fresh_nil {call : IngestCall} {s : Store} (h : call.fresh s = []) :
    call.after s = s := by
  rw [IngestCall.after, IngestCall.ingest, if_pos h]

namespace Sessions

variable {net : Net} {calls : ℕ → Caller} {s s' : Sessions}

/-- What the transaction under the lock has seen and done is what is committed. -/
def Fits (s : Sessions) (i : ℕ) : Work → Prop
  | .recording seen => s.phase i = .waiting ∧ seen = s.store
  | .delivering rows delivered => s.phase i = .queued ∧
    ∃ done new, s.pending = done ++ rows ∧ delivered = s.delivered ++ new ∧
      new.map Prod.fst = done.map NotificationRow.key

/-- The committed ingests alone, one after the other. -/
def Serial (calls : ℕ → Caller) (committed : List ℕ) (store : Store) : Prop :=
  Run deskStep (fun store call => ∃ p, call.ingest store = .ok p) {}
    (committed.map fun i => (calls i).toIngestCall) store

structure Coherent (calls : ℕ → Caller) (s : Sessions) : Prop where
  serial : Serial calls s.committed s.store
  once : s.committed.Nodup
  phase : ∀ i, i ∈ s.committed ↔ (s.phase i).isCommitted = true
  work : ∀ i work, s.lock = some (i, work) → s.Fits i work
  /-- Whoever has queued messages delivers them, or has stopped doing so. -/
  owing : s.pending ≠ [] → ∃ i, (s.phase i).isOwing = true
  /-- What is recorded is of messages there are, once. -/
  recorded : (s.delivered.map Prod.fst).Nodup
  known : s.delivered.map Prod.fst ⊆ s.store.notifications.map NotificationRow.key

theorem coherent_empty : Coherent calls {} where
  serial := by
    rw [Serial]
    exact .nil _
  once := List.nodup_nil
  phase := by simp [Phase.isCommitted]
  work := by simp
  owing h := absurd rfl h
  recorded := List.nodup_nil
  known := List.nil_subset _

theorem Serial.kept {committed : List ℕ} {store : Store} (h : Serial calls committed store) :
    Kept store := by
  refine h.invariant kept_empty fun s call s' hs _ hstep => ?_
  obtain rfl := Option.some.inj hstep
  exact (hs.after call).1

/-- The messages that are pending are there, and each of them once. -/
theorem pending_keys (hkept : Kept s.store) :
    (s.pending.map NotificationRow.key).Nodup ∧
      ∀ n ∈ s.pending, n ∈ s.store.notifications ∧ n.key ∉ s.delivered.map Prod.fst := by
  refine ⟨?_, fun n hn => Desk.mem_pending.mp hn⟩
  have hperm := (perm_sortBy deliveryOrder
    (s.store.notifications.filter fun n => n.key ∉ s.delivered.map Prod.fst)).map NotificationRow.key
  rw [Desk.pending, hperm.nodup_iff]
  exact hkept.fits.keys.sublist (List.filter_sublist.map _)

section Phases

variable {i : ℕ} {phase : Phase}

theorem phase_update (hs : ∀ j, j ∈ s.committed ↔ (s.phase j).isCommitted = true)
    (hkept : phase.isCommitted = (s.phase i).isCommitted) (j : ℕ) :
    j ∈ s.committed ↔ (Function.update s.phase i phase j).isCommitted = true := by
  by_cases hj : j = i
  · subst hj
    rw [Function.update_self, hkept, hs]
  · rw [Function.update_of_ne hj, hs]

theorem owing_update (hs : ∃ j, (s.phase j).isOwing = true)
    (hkept : (s.phase i).isOwing = true → phase.isOwing = true) :
    ∃ j, (Function.update s.phase i phase j).isOwing = true := by
  obtain ⟨j, hj⟩ := hs
  refine ⟨j, ?_⟩
  by_cases heq : j = i
  · subst heq
    rw [Function.update_self]
    exact hkept hj
  · rwa [Function.update_of_ne heq]

theorem fits_update {j : ℕ} {work : Work} (hj : j ≠ i) (hs : s.Fits j work) :
    Fits { s with phase := Function.update s.phase i phase } j work := by
  cases work with
  | recording seen => exact ⟨(Function.update_of_ne hj ..).trans hs.1, hs.2⟩
  | delivering rows delivered => exact ⟨(Function.update_of_ne hj ..).trans hs.1, hs.2⟩

/-- A call that leaves with nothing written but its phase. -/
theorem Coherent.leave (h : Coherent calls s)
    (hcommitted : phase.isCommitted = (s.phase i).isCommitted)
    (howing : (s.phase i).isOwing = true → phase.isOwing = true) (wire : Wire) :
    Coherent calls { s.leave i phase with wire := wire } where
  serial := h.serial
  once := h.once
  phase := phase_update h.phase hcommitted
  work _ _ hlock := nomatch hlock
  owing hpending := owing_update (h.owing hpending) howing
  recorded := h.recorded
  known := h.known

/-- A call that dies without the lock. -/
theorem Coherent.dies (h : Coherent calls s) (hlock : ∀ work, s.lock ≠ some (i, work))
    (hcommitted : phase.isCommitted = (s.phase i).isCommitted)
    (howing : (s.phase i).isOwing = true → phase.isOwing = true) :
    Coherent calls { s with phase := Function.update s.phase i phase } where
  serial := h.serial
  once := h.once
  phase := phase_update h.phase hcommitted
  work j work hheld := by
    refine fits_update (fun hj => ?_) (h.work j work hheld)
    rw [hj] at hheld
    exact hlock work hheld
  owing hpending := owing_update (h.owing hpending) howing
  recorded := h.recorded
  known := h.known

end Phases

/-- A commit under the lock is of the store its ingest has seen. -/
theorem Coherent.commit (h : Coherent calls s) {i : ℕ} {seen store : Store} {out : Regrouped}
    (hlock : s.lock = some (i, .recording seen))
    (hingest : (calls i).ingest seen = .ok (store, out)) :
    Coherent calls { s.leave i (if (calls i).fresh seen = [] then .returned else .queued) with
      store := store, committed := s.committed ++ [i] } := by
  obtain ⟨hphase, rfl⟩ := h.work i _ hlock
  have hafter := after_of_ingest hingest
  have hnew : i ∉ s.committed := by
    rw [h.phase, hphase]
    exact Bool.false_ne_true
  have hold := (h.serial.kept.after (calls i).toIngestCall).2
  rw [hafter] at hold
  constructor
  · show Serial calls (s.committed ++ [i]) store
    rw [Serial, List.map_append]
    exact h.serial.append
      (.cons ⟨_, hingest⟩ (congrArg some hafter) (.nil store))
  · exact List.nodup_append.mpr ⟨h.once, List.nodup_singleton i, by
      rintro j hj k hk rfl
      exact hnew (List.mem_singleton.mp hk ▸ hj)⟩
  · intro j
    show j ∈ s.committed ++ [i] ↔ (Function.update s.phase i _ j).isCommitted = true
    by_cases hj : j = i
    · subst hj
      rw [Function.update_self]
      split <;> simp [Phase.isCommitted]
    · rw [Function.update_of_ne hj, List.mem_append, List.mem_singleton, h.phase]
      exact or_iff_left hj
  · exact fun _ _ hheld => nomatch hheld
  · intro hpending
    by_cases hfresh : (calls i).fresh s.store = []
    · -- it has queued nothing
      obtain rfl : s.store = store := (after_of_fresh_nil hfresh).symm.trans hafter
      refine owing_update (h.owing hpending) fun howing => ?_
      rw [hphase] at howing
      exact absurd howing Bool.false_ne_true
    · refine ⟨i, ?_⟩
      show (Function.update s.phase i _ i).isOwing = true
      rw [Function.update_self, if_neg hfresh]
      rfl
  · exact h.recorded
  · intro key hkey
    obtain ⟨n, hn, rfl⟩ := List.mem_map.mp (h.known hkey)
    exact List.mem_map_of_mem (hold n hn)

/-- A delivery that is committed has recorded every message. -/
theorem Coherent.record (h : Coherent calls s) {i : ℕ}
    {delivered : List ((ℕ × NotificationKind × String) × String)}
    (hlock : s.lock = some (i, .delivering [] delivered)) :
    Coherent calls { s.leave i .returned with delivered := delivered } ∧
      Desk.pending { s.toDesk with delivered := delivered } = [] := by
  obtain ⟨hphase, done, new, hpending, rfl, hnew⟩ := h.work i _ hlock
  rw [List.append_nil] at hpending
  obtain ⟨hnodup, hmem⟩ := s.pending_keys h.serial.kept
  have hkeys : (s.delivered ++ new).map Prod.fst =
      s.delivered.map Prod.fst ++ s.pending.map NotificationRow.key := by
    rw [List.map_append, hnew, hpending]
  have hnone : Desk.pending { s.toDesk with delivered := s.delivered ++ new } = [] := by
    apply List.eq_nil_iff_forall_not_mem.mpr
    intro n hn
    obtain ⟨hthere, hnot⟩ := Desk.mem_pending.mp hn
    simp only [hkeys, List.mem_append, not_or] at hnot
    exact hnot.2 (List.mem_map_of_mem (Desk.mem_pending.mpr ⟨hthere, hnot.1⟩))
  refine ⟨?_, hnone⟩
  constructor
  · exact h.serial
  · exact h.once
  · apply phase_update h.phase
    rw [hphase]
    rfl
  · exact fun _ _ hheld => nomatch hheld
  · exact fun hne => absurd hnone hne
  · show ((s.delivered ++ new).map Prod.fst).Nodup
    rw [hkeys]
    apply List.Nodup.append h.recorded hnodup
    intro key hkey hkey'
    obtain ⟨n, hn, rfl⟩ := List.mem_map.mp hkey'
    exact (hmem n hn).2 hkey
  · show (s.delivered ++ new).map Prod.fst ⊆ _
    rw [hkeys]
    apply List.append_subset.mpr ⟨h.known, ?_⟩
    intro key hkey
    obtain ⟨n, hn, rfl⟩ := List.mem_map.mp hkey
    exact List.mem_map_of_mem (hmem n hn).1

/-- **One event**: whatever happens, the sessions stay coherent. -/
theorem Coherent.step (h : Coherent calls s) {e : SessionEvent}
    (hstep : s.step net calls e = some s') : Coherent calls s' := by
  cases moves_of_step hstep with
  | @lockIngest i hlock hphase =>
    refine ⟨h.serial, h.once, h.phase, ?_, h.owing, h.recorded, h.known⟩
    intro j work hheld
    obtain ⟨rfl, rfl⟩ := Prod.mk.inj (Option.some.inj hheld)
    exact ⟨hphase, rfl⟩
  | @lockDelivery i hlock hphase =>
    refine ⟨h.serial, h.once, h.phase, ?_, h.owing, h.recorded, h.known⟩
    intro j work hheld
    obtain ⟨rfl, rfl⟩ := Prod.mk.inj (Option.some.inj hheld)
    exact ⟨hphase, [], [], rfl, (List.append_nil _).symm, rfl⟩
  | refuse hlock hingest =>
    obtain ⟨hphase, -⟩ := h.work _ _ hlock
    apply h.leave _ _ s.wire
    · rw [hphase]
      rfl
    · rw [hphase]
      exact fun howing => absurd howing Bool.false_ne_true
  | commit hlock hingest => exact h.commit hlock hingest
  | @send i n rows delivered wire how hlock hsend =>
    -- one message less to send, one more recorded
    refine ⟨h.serial, h.once, h.phase, ?_, h.owing, h.recorded, h.known⟩
    intro j work hheld
    obtain ⟨rfl, rfl⟩ := Prod.mk.inj (Option.some.inj hheld)
    obtain ⟨hphase, done, new, hpending, rfl, hnew⟩ := h.work _ _ hlock
    refine ⟨hphase, done ++ [n], new ++ [(n.key, how)], ?_, ?_, ?_⟩
    · show s.pending = done ++ [n] ++ rows
      rw [hpending, List.append_assoc, List.singleton_append]
    · rw [List.append_assoc]
    · rw [List.map_append, List.map_append, hnew]
      rfl
  | fail hlock hsend =>
    obtain ⟨hphase, -⟩ := h.work _ _ hlock
    apply h.leave
    · rw [hphase]
      rfl
    · exact fun _ => rfl
  | record hlock => exact (h.record hlock).1
  | dieWaiting hlock hphase =>
    apply h.dies hlock
    · rw [hphase]
      rfl
    · rw [hphase]
      exact fun howing => absurd howing Bool.false_ne_true
  | dieQueued hlock hphase =>
    apply h.dies hlock
    · rw [hphase]
      rfl
    · exact fun _ => rfl
  | dieRecording hlock =>
    obtain ⟨hphase, -⟩ := h.work _ _ hlock
    apply h.leave _ _ s.wire
    · rw [hphase]
      rfl
    · rw [hphase]
      exact fun howing => absurd howing Bool.false_ne_true
  | dieDelivering hlock =>
    obtain ⟨hphase, -⟩ := h.work _ _ hlock
    apply h.leave
    · rw [hphase]
      rfl
    · exact fun _ => rfl

/-- What the sessions come to, from the empty store. -/
abbrev Served (net : Net) (calls : ℕ → Caller) (events : List SessionEvent) (s : Sessions) :
    Prop :=
  Run (fun s e => s.step net calls e) (fun _ _ => True) {} events s

theorem coherent_of_run {events : List SessionEvent} (hrun : Served net calls events s) :
    Coherent calls s :=
  hrun.invariant coherent_empty fun _ _ _ h _ hstep => h.step hstep

/-- How many events the transaction under the lock still needs. -/
def left (s : Sessions) : ℕ :=
  match s.lock with
  | none => 0
  | some (_, .recording _) => 1
  | some (_, .delivering rows _) => rows.length + 1

/-- While the lock is held, nothing makes its transaction longer. -/
theorem left_step {e : SessionEvent} (hheld : s.lock ≠ none)
    (hstep : s.step net calls e = some s') : s'.left ≤ s.left := by
  cases moves_of_step hstep with
  | lockIngest hlock hphase => exact absurd hlock hheld
  | lockDelivery hlock hphase => exact absurd hlock hheld
  | send hlock hsend =>
    simp only [left, hlock]
    exact Nat.le_succ _
  | dieWaiting hlock hphase => exact le_refl _
  | dieQueued hlock hphase => exact le_refl _
  | _ => exact Nat.zero_le _

/-- The transaction under the lock can go on, and ends. -/
theorem exists_step (hheld : s.lock ≠ none) :
    ∃ e ∈ [SessionEvent.ingest, .send, .record], ∃ s', s.step net calls e = some s' ∧
      s'.left < s.left := by
  obtain ⟨⟨i, work⟩, hlock⟩ := Option.ne_none_iff_exists'.mp hheld
  cases work with
  | recording seen =>
    refine ⟨.ingest, by simp, ?_⟩
    cases hingest : (calls i).ingest seen with
    | error e =>
      refine ⟨s.leave i .refused, by simp only [step, hlock, hingest], ?_⟩
      simp [left, leave, hlock]
    | ok p =>
      obtain ⟨store, out⟩ := p
      refine ⟨_, by simp only [step, hlock, hingest]; rfl, ?_⟩
      simp [left, leave, hlock]
  | delivering rows delivered =>
    cases rows with
    | nil =>
      refine ⟨.record, by simp, _, by simp only [step, hlock]; rfl, ?_⟩
      simp [left, leave, hlock]
    | cons n rows =>
      refine ⟨.send, by simp, ?_⟩
      cases hsend : s.sendOne calls net i n with
      | mk wire result =>
        cases result with
        | error e =>
          refine ⟨_, by simp only [step, hlock, hsend]; rfl, ?_⟩
          simp [left, leave, hlock]
        | ok how =>
          refine ⟨_, by simp only [step, hlock, hsend]; rfl, ?_⟩
          simp [left, hlock]

/-- **Ingests are serial.** However calls arrive together, wait, raise and die, the store is the one
the committed ingests make alone, one after the other in the order of their commits, each of them
once; and no call waits for ever: a free lock can be taken by whoever asks, and a transaction that
has it can go on, is made no longer by anybody, and gives it back. -/
theorem ingests_serial {events : List SessionEvent} (hrun : Served net calls events s) :
    Serial calls s.committed s.store ∧ s.committed.Nodup ∧
    (∀ i, i ∈ s.committed ↔ (s.phase i).isCommitted = true) ∧
    (s.lock = none → ∀ i, s.phase i = .waiting ∨ s.phase i = .queued →
      ∃ s', s.step net calls (.lock i) = some s') ∧
    (s.lock ≠ none →
      (∀ e s', s.step net calls e = some s' → s'.left ≤ s.left) ∧
      ∃ e ∈ [SessionEvent.ingest, .send, .record], ∃ s', s.step net calls e = some s' ∧
        s'.left < s.left) := by
  have h := coherent_of_run hrun
  refine ⟨h.serial, h.once, h.phase, ?_, fun hheld => ⟨fun _ _ => left_step hheld,
    exists_step hheld⟩⟩
  rintro hlock i (hphase | hphase)
  · exact ⟨_, by simp only [step, hlock, hphase]; rfl⟩
  · exact ⟨_, by simp only [step, hlock, hphase]; rfl⟩

/-- Two nights' runs end together, and their calls overlap; the others have no artifacts. -/
def overlapping (i : ℕ) : Caller where
  ctx := unrelatedModels
  artifacts :=
    if i = 0 then [⟨"1", .runResults, 10, [⟨"model.a", "error", "", ""⟩]⟩]
    else if i = 1 then [⟨"2", .runResults, 20, [⟨"model.b", "error", "", ""⟩]⟩]
    else []
  runId := if i = 0 then "night 1" else "night 2"
  channels := [.slack "token"]

def allGood : Net := fun _ _ => .json (.object true none)

/-- The second call delivers the first one's message, too; a third one dies. -/
def overlap : List SessionEvent :=
  [.lock 0, .ingest, .lock 1, .die 2 0, .ingest, .lock 1, .send, .send, .record, .lock 0, .record]

/-- The sessions after these events. -/
def afterOverlap : Sessions :=
  (check (fun s e => step allGood overlapping s e) (fun _ _ => True) {} overlap).getD {}

theorem served_overlap : Served allGood overlapping overlap afterOverlap := by
  apply Run.of_check
  have hsome : (check (fun s e => step allGood overlapping s e) (fun _ _ => True) {}
      overlap).isSome = true := by
    decide +kernel
  rw [afterOverlap]
  exact (Option.some_get hsome).symm.trans (congrArg some (Option.get_eq_getD _))

theorem ingests_serial_overlap :
    afterOverlap.committed = [0, 1] ∧
    (Serial overlapping afterOverlap.committed afterOverlap.store ∧
      afterOverlap.committed.Nodup ∧
      (∀ i, i ∈ afterOverlap.committed ↔ (afterOverlap.phase i).isCommitted = true) ∧
      (afterOverlap.lock = none → ∀ i, afterOverlap.phase i = .waiting ∨
        afterOverlap.phase i = .queued →
          ∃ s', afterOverlap.step allGood overlapping (.lock i) = some s') ∧
      (afterOverlap.lock ≠ none →
        (∀ e s', afterOverlap.step allGood overlapping e = some s' →
          s'.left ≤ afterOverlap.left) ∧
        ∃ e ∈ [SessionEvent.ingest, .send, .record], ∃ s',
          afterOverlap.step allGood overlapping e = some s' ∧ s'.left < afterOverlap.left)) :=
  ⟨by decide +kernel, ingests_serial served_overlap⟩

/-! ## What is sent -/

end Sessions

theorem sendOn_taken (net : Net) (n : NotificationRow) (team : Team) (channels : List Channel)
    (outcome : List String) (wire : Wire) :
    ∃ names : List String, names.Sublist (channels.map Channel.name) ∧
      (sendOn net n team channels outcome wire).1.taken =
        wire.taken ++ names.map fun name => (n.key, name) := by
  induction channels generalizing outcome wire with
  | nil => exact ⟨[], List.nil_sublist _, (List.append_nil _).symm⟩
  | cons channel rest ih =>
    rw [sendOn]
    split
    · obtain ⟨names, hnames, htaken⟩ := ih (outcome ++ [channel.name ++ ": no address"]) wire
      exact ⟨names, hnames.cons _, htaken⟩
    · rename_i request hrequest
      split
      · obtain ⟨names, hnames, htaken⟩ := ih (outcome ++ [channel.name]) _
        refine ⟨channel.name :: names, hnames.cons_cons _, ?_⟩
        rw [htaken, List.append_assoc]
        rfl
      · split
        · obtain ⟨names, hnames, htaken⟩ := ih (outcome ++ [channel.name ++ " failed"])
            { wire with requests := wire.requests + 1 }
          exact ⟨names, hnames.cons _, htaken⟩
        · exact ⟨[], List.nil_sublist _, (List.append_nil _).symm⟩

/-- The channels take a message at most once from a delivery, each. -/
theorem deliver_taken (net : Net) (n : NotificationRow) (team : Option Team)
    (channels : List Channel) (wire : Wire) :
    ∃ names : List String, names.Sublist (channels.map Channel.name) ∧
      (deliver net n team channels wire).1.taken =
        wire.taken ++ names.map fun name => (n.key, name) := by
  have hnothing : ∃ names : List String, names.Sublist (channels.map Channel.name) ∧
      wire.taken = wire.taken ++ names.map fun name => (n.key, name) :=
    ⟨[], List.nil_sublist _, (List.append_nil _).symm⟩
  unfold deliver
  split
  · exact hnothing
  · split
    · exact hnothing
    · exact sendOn_taken net n _ channels [] wire

namespace Sessions

variable {net : Net} {calls : ℕ → Caller} {s s' : Sessions}

/-- The keys that are recorded, the open delivery's among them. -/
def recordedKeys (s : Sessions) : List (ℕ × NotificationKind × String) :=
  match s.lock with
  | some (_, .delivering _ delivered) => delivered.map Prod.fst
  | _ => s.delivered.map Prod.fst

/-- No channel has taken a message twice, nor one that is not recorded. -/
structure SentOnce (s : Sessions) : Prop where
  nodup : s.wire.taken.Nodup
  recorded : ∀ t ∈ s.wire.taken, t.1 ∈ s.recordedKeys

/-- Sending the next message. -/
theorem SentOnce.send (hnames : ∀ i, ((calls i).channels.map Channel.name).Nodup)
    (h : Coherent calls s) (hsent : s.SentOnce) {i : ℕ} {n : NotificationRow}
    {rows : List NotificationRow}
    {delivered : List ((ℕ × NotificationKind × String) × String)} {wire : Wire} {how : String}
    (hlock : s.lock = some (i, .delivering (n :: rows) delivered))
    (hsend : s.sendOne calls net i n = (wire, .ok how)) :
    SentOnce { s with
      wire := wire, lock := some (i, .delivering rows (delivered ++ [(n.key, how)])) } := by
  obtain ⟨-, done, new, hpending, rfl, hnew⟩ := h.work i _ hlock
  obtain ⟨hnodup, hmem⟩ := s.pending_keys h.serial.kept
  rw [hpending, List.map_append, List.map_cons] at hnodup
  have hkeys : s.recordedKeys = (s.delivered ++ new).map Prod.fst := by
    rw [recordedKeys, hlock]
  -- the message was not recorded before
  have hfresh : n.key ∉ s.recordedKeys := by
    rw [hkeys, List.map_append, List.mem_append, hnew, not_or]
    constructor
    · exact (hmem n (by simp [hpending])).2
    · intro hin
      exact (List.nodup_append.mp hnodup).2.2 _ hin _ (List.mem_cons_self ..) rfl
  obtain ⟨names, hsub, htaken⟩ := deliver_taken net n (teamOf (calls i).ctx.registry n)
    (calls i).channels s.wire
  have hwire : wire.taken = s.wire.taken ++ names.map fun name => (n.key, name) := by
    rw [← htaken]
    exact congrArg (fun r => r.1.taken) hsend.symm
  constructor
  · show wire.taken.Nodup
    rw [hwire]
    refine List.Nodup.append hsent.nodup ?_ fun t ht ht' => ?_
    · exact ((hnames i).sublist hsub).map fun _ _ heq => (Prod.mk.inj heq).2
    · obtain ⟨name, -, rfl⟩ := List.mem_map.mp ht'
      exact hfresh (hsent.recorded _ ht)
  · intro t ht
    have ht : t ∈ wire.taken := ht
    show t.1 ∈ ((s.delivered ++ new) ++ [(n.key, how)]).map Prod.fst
    rw [List.map_append, List.mem_append, ← hkeys]
    rw [hwire, List.mem_append] at ht
    obtain hold | hnow := ht
    · exact .inl (hsent.recorded t hold)
    · obtain ⟨name, -, rfl⟩ := List.mem_map.mp hnow
      exact .inr (List.mem_singleton.mpr rfl)

/-- **One event** that cuts no delivery short. -/
theorem SentOnce.step (hnames : ∀ i, ((calls i).channels.map Channel.name).Nodup)
    (h : Coherent calls s) (hsent : s.SentOnce) {e : SessionEvent}
    (hstep : s.step net calls e = some s') (hcut : ∀ i, s'.phase i ≠ .cut) : s'.SentOnce := by
  have hkept : ∀ {t : Sessions}, t.wire = s.wire → t.recordedKeys = s.recordedKeys →
      t.SentOnce := by
    intro t hwire hkeys
    exact ⟨hwire ▸ hsent.nodup, by rw [hwire, hkeys]; exact hsent.recorded⟩
  cases moves_of_step hstep with
  | send hlock hsend => exact hsent.send hnames h hlock hsend
  | @fail i _ _ _ _ _ hlock hsend => exact absurd (Function.update_self ..) (hcut i)
  | @dieDelivering i _ _ _ hlock => exact absurd (Function.update_self ..) (hcut i)
  | dieWaiting hlock hphase => exact hkept rfl rfl
  | dieQueued hlock hphase => exact hkept rfl rfl
  | lockIngest hlock hphase => exact hkept rfl (by simp only [recordedKeys, hlock])
  | lockDelivery hlock hphase => exact hkept rfl (by simp only [recordedKeys, hlock])
  | refuse hlock hingest => exact hkept rfl (by simp only [recordedKeys, leave, hlock])
  | commit hlock hingest => exact hkept rfl (by simp only [recordedKeys, leave, hlock])
  | record hlock => exact hkept rfl (by simp only [recordedKeys, leave, hlock])
  | dieRecording hlock => exact hkept rfl (by simp only [recordedKeys, leave, hlock])

/-- A delivery that was cut short stays so. -/
theorem cut_step (h : Coherent calls s) {i : ℕ} (hcut : s.phase i = .cut) {e : SessionEvent}
    (hstep : s.step net calls e = some s') : s'.phase i = .cut := by
  have hother : ∀ {j : ℕ} {phase : Phase}, s.phase j ≠ .cut →
      Function.update s.phase j phase i = .cut := by
    intro j phase hj
    have hne : i ≠ j := by
      rintro rfl
      exact hj hcut
    rw [Function.update_of_ne hne, hcut]
  have hlocked : ∀ {j : ℕ} {work : Work}, s.lock = some (j, work) → s.phase j ≠ .cut := by
    intro j work hlock
    have hfits := h.work j work hlock
    cases work with
    | recording seen =>
      rw [hfits.1]
      exact Phase.noConfusion
    | delivering rows delivered =>
      rw [hfits.1]
      exact Phase.noConfusion
  cases moves_of_step hstep with
  | lockIngest hlock hphase => exact hcut
  | lockDelivery hlock hphase => exact hcut
  | send hlock hsend => exact hcut
  | dieWaiting hlock hphase => exact hother (by rw [hphase]; exact Phase.noConfusion)
  | dieQueued hlock hphase => exact hother (by rw [hphase]; exact Phase.noConfusion)
  | refuse hlock hingest => exact hother (hlocked hlock)
  | commit hlock hingest => exact hother (hlocked hlock)
  | fail hlock hsend => exact hother (hlocked hlock)
  | record hlock => exact hother (hlocked hlock)
  | dieRecording hlock => exact hother (hlocked hlock)
  | dieDelivering hlock => exact hother (hlocked hlock)

/-- **Messages and calls that overlap.** However the calls interleave: once the committed ones have
returned, every message in the store is recorded as delivered, once; a delivery that is committed
leaves nothing to deliver, whoever queued it; and as long as no delivery was cut short, no channel
has taken a message twice. -/
theorem delivered_together (hnames : ∀ i, ((calls i).channels.map Channel.name).Nodup)
    {events : List SessionEvent} (hrun : Served net calls events s) :
    ((∀ i ∈ s.committed, s.phase i = .returned) →
      (s.delivered.map Prod.fst).Perm (s.store.notifications.map NotificationRow.key)) ∧
    (∀ s', s.step net calls .record = some s' → s'.pending = []) ∧
    ((∀ i, s.phase i ≠ .cut) → s.wire.taken.Nodup) := by
  have h := coherent_of_run hrun
  refine ⟨fun hreturned => ?_, fun s' hstep => ?_, fun hcut => ?_⟩
  · have hpending : s.pending = [] := by
      by_contra hne
      obtain ⟨i, howing⟩ := h.owing hne
      have hcommitted : i ∈ s.committed := by
        rw [h.phase]
        cases hphase : s.phase i <;> rw [hphase] at howing <;>
          first | rfl | exact absurd howing Bool.false_ne_true
      rw [hreturned i hcommitted] at howing
      exact absurd howing Bool.false_ne_true
    apply (List.perm_ext_iff_of_nodup h.recorded h.serial.kept.fits.keys).mpr
    intro key
    refine ⟨fun hkey => h.known hkey, fun hkey => ?_⟩
    obtain ⟨n, hn, rfl⟩ := List.mem_map.mp hkey
    by_contra hnot
    exact absurd (Desk.mem_pending.mpr ⟨hn, hnot⟩) (hpending ▸ List.not_mem_nil)
  · cases moves_of_step hstep with
    | record hlock => exact (h.record hlock).2
  · -- a run back from a state without a cut meets none
    have hinvariant : Coherent calls s ∧ ((∀ i, s.phase i ≠ .cut) → s.SentOnce) := by
      have hempty : SentOnce {} := ⟨List.nodup_nil, by simp⟩
      apply hrun.invariant ⟨coherent_empty, fun _ => hempty⟩
      rintro t e t' ⟨ht, hsent⟩ - hstep
      refine ⟨ht.step hstep, fun hcut => ?_⟩
      apply (hsent fun i hi => hcut i (cut_step ht hi hstep)).step hnames ht hstep hcut
    exact (hinvariant.2 hcut).nodup

theorem delivered_together_overlap :
    (afterOverlap.wire.taken = [((1, .page, "night 1"), "slack"), ((2, .page, "night 2"), "slack")] ∧
      ∀ i ∈ afterOverlap.committed, afterOverlap.phase i = .returned) ∧
    ((∀ i ∈ afterOverlap.committed, afterOverlap.phase i = .returned) →
      (afterOverlap.delivered.map Prod.fst).Perm
        (afterOverlap.store.notifications.map NotificationRow.key)) ∧
    (∀ s', afterOverlap.step allGood overlapping .record = some s' → s'.pending = []) ∧
    ((∀ i, afterOverlap.phase i ≠ .cut) → afterOverlap.wire.taken.Nodup) := by
  refine ⟨by decide +kernel, delivered_together (fun i => ?_) served_overlap⟩
  exact List.nodup_singleton _

end Sessions

end PlatformOps.Incidents.Notify
