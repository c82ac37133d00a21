import PlatformOps.Incidents.Notify
import PlatformOps.Library.Machine

/-!
# What Is Delivered

A delivery is taken apart along its requests, in the order they are made: it returns
exactly when it is `Calm`, when nothing that comes back of them raises an exception
that is not caught.

- `deliver_once_iff`: then, and only then, what the channels took is recorded, so that
  it is never sent again.
- `nothing_lost_iff`: a call that returns leaves nothing undelivered unless it found
  nothing fresh, and something undelivered.
-/

namespace PlatformOps.Incidents.Notify

open Metadata Listing

/-! ## Replies that end a delivery -/

/-- Whether what comes back of a request raises an exception that is not caught. -/
def Reply.escapes : Reply → Bool
  | .raises error => !error.isCaught
  | .notJson => false
  | .json (.object _ _) => false
  | .json .other => true

/-- Every channel lets the same replies through. -/
theorem read_error_iff (channel : Channel) (reply : Reply) :
    (∃ error, channel.read reply = .error error ∧ error.isCaught = false) ↔
      reply.escapes = true := by
  cases reply with
  | raises error =>
    have hread : channel.read (.raises error) = .error error := rfl
    simp [hread, Reply.escapes]
  | notJson =>
    have hread : channel.read .notJson = .error .valueError := rfl
    simp [hread, Reply.escapes, SendError.isCaught]
  | json body =>
    cases body with
    | other =>
      have hread : channel.read (.json .other) = .error .attributeError := rfl
      simp [hread, Reply.escapes, SendError.isCaught]
    | object ok explanation =>
      cases ok with
      | true =>
        have hread : channel.read (.json (.object true explanation)) = .ok () := rfl
        simp [hread, Reply.escapes]
      | false =>
        -- Both channels report a refusal as an error they catch.
        cases channel <;> simp [Channel.read, post, bind, Except.bind, Reply.escapes,
          SendError.isCaught]

/-- From a number on, nothing that comes back of these requests escapes. -/
def Calm (net : Net) (start : ℕ) (requests : List Request) : Prop :=
  ∀ k request, requests[k]? = some request → (net (start + k) request).escapes = false

section Calm

variable {net : Net} {start : ℕ}

theorem calm_nil : Calm net start [] := by
  intro k request h
  cases h

theorem calm_cons {request : Request} {rest : List Request} :
    Calm net start (request :: rest) ↔
      (net start request).escapes = false ∧ Calm net (start + 1) rest := by
  constructor
  · intro h
    refine ⟨h 0 request rfl, ?_⟩
    intro k request' hk
    have hnext := h (k + 1) request' hk
    rwa [Nat.add_comm k 1, ← Nat.add_assoc] at hnext
  · rintro ⟨hfirst, hrest⟩ k request' hk
    cases k with
    | zero =>
      obtain rfl := Option.some.inj hk
      exact hfirst
    | succ k =>
      have hnext := hrest k request' hk
      rwa [Nat.add_assoc, Nat.add_comm 1 k] at hnext

instance decidableCalm (net : Net) :
    (start : ℕ) → (requests : List Request) → Decidable (Calm net start requests)
  | _, [] => isTrue calm_nil
  | start, _ :: rest =>
    have := decidableCalm net (start + 1) rest
    decidable_of_iff _ calm_cons.symm

theorem calm_append {requests more : List Request} :
    Calm net start (requests ++ more) ↔
      Calm net start requests ∧ Calm net (start + requests.length) more := by
  induction requests generalizing start with
  | nil => simp [calm_nil]
  | cons request rest ih =>
    rw [List.cons_append, calm_cons, ih, calm_cons, and_assoc, List.length_cons, Nat.add_assoc,
      Nat.add_comm 1]

end Calm

/-! ## Part of a delivery -/

/-- What a part of a delivery does, that makes these requests about messages with these keys. -/
structure Sends {β : Type} (net : Net) (requests : List Request)
    (keys : List (ℕ × NotificationKind × String)) (wire : Wire)
    (result : Wire × Except SendError β) : Prop where
  /-- It returns if it is calm, and then it has made all of its requests. -/
  returns : (∃ b, result.2 = .ok b) ↔ Calm net wire.requests requests
  requests : (∃ b, result.2 = .ok b) → result.1.requests = wire.requests + requests.length
  /-- What the channels take is of its messages. -/
  taken : ∃ taken, result.1.taken = wire.taken ++ taken ∧ ∀ t ∈ taken, t.1 ∈ keys

section Sends

variable {β γ : Type} {net : Net} {requests more : List Request}
  {keys keys' : List (ℕ × NotificationKind × String)} {wire : Wire}

theorem Sends.nothing (b : β) : Sends net [] keys wire (wire, .ok b) where
  returns := iff_of_true ⟨b, rfl⟩ calm_nil
  requests _ := rfl
  taken := ⟨[], (List.append_nil _).symm, by simp⟩

theorem Sends.of_subset {result : Wire × Except SendError β} (h : Sends net requests keys wire result)
    (hkeys : keys ⊆ keys') : Sends net requests keys' wire result where
  returns := h.returns
  requests := h.requests
  taken := by
    obtain ⟨taken, hw, htaken⟩ := h.taken
    exact ⟨taken, hw, fun t ht => hkeys (htaken t ht)⟩

/-- A part that raises ends the delivery. -/
theorem Sends.raised {w : Wire} {error : SendError}
    (h : Sends net requests keys wire ((w, .error error) : Wire × Except SendError β)) :
    Sends net (requests ++ more) keys wire ((w, .error error) : Wire × Except SendError γ) where
  returns := by
    apply iff_of_false
    · rintro ⟨b, hb⟩
      cases hb
    · rw [calm_append]
      rintro ⟨hcalm, -⟩
      obtain ⟨b, hb⟩ := h.returns.mpr hcalm
      cases hb
  requests := by
    rintro ⟨b, hb⟩
    cases hb
  taken := h.taken

/-- A part that returns is followed by the rest. -/
theorem Sends.andThen {w : Wire} {b : β} {result : Wire × Except SendError γ}
    (h : Sends net requests keys wire ((w, .ok b) : Wire × Except SendError β))
    (h' : Sends net more keys' w result) :
    Sends net (requests ++ more) (keys ++ keys') wire result where
  returns := by
    have hreturns : ∃ b', ((w, .ok b) : Wire × Except SendError β).2 = .ok b' := ⟨b, rfl⟩
    -- The second part starts at the request after the last of the first.
    have hw : w.requests = wire.requests + requests.length := h.requests hreturns
    rw [h'.returns, calm_append, hw]
    exact (and_iff_right (h.returns.mp hreturns)).symm
  requests := by
    intro hreturns
    have hw : w.requests = wire.requests + requests.length := h.requests ⟨b, rfl⟩
    rw [h'.requests hreturns, hw, List.length_append, Nat.add_assoc]
  taken := by
    obtain ⟨taken, hw, htaken⟩ := h.taken
    obtain ⟨taken', hw', htaken'⟩ := h'.taken
    have hw : w.taken = wire.taken ++ taken := hw
    refine ⟨taken ++ taken', ?_, ?_⟩
    · rw [hw', hw, List.append_assoc]
    · intro t ht
      rcases List.mem_append.mp ht with ht | ht
      · exact List.mem_append_left _ (htaken t ht)
      · exact List.mem_append_right _ (htaken' t ht)

/-- One request: what comes back of it is let through or not, and the channel may have taken the
message. -/
theorem Sends.request {request : Request} {key : ℕ × NotificationKind × String}
    {taken : List ((ℕ × NotificationKind × String) × String)} (htaken : ∀ t ∈ taken, t.1 = key)
    {result : Except SendError β}
    (hresult : (∃ b, result = .ok b) ↔ (net wire.requests request).escapes = false) :
    Sends net [request] [key] wire (⟨wire.requests + 1, wire.taken ++ taken⟩, result) where
  returns := by
    rw [hresult, calm_cons]
    exact (and_iff_left calm_nil).symm
  requests _ := rfl
  taken := ⟨taken, rfl, fun t ht => List.mem_singleton.mpr (htaken t ht)⟩

end Sends

/-! ## The whole delivery -/

/-- The requests these messages make, in order, if none of them ends the delivery. -/
def requestsFor (registry : Registry) (channels : List Channel) (rows : List NotificationRow) :
    List Request :=
  rows.flatMap fun n => (teamOf registry n).toList.flatMap fun team =>
    channels.filterMap (Channel.request n team)

theorem sendOn_sends (net : Net) (n : NotificationRow) (team : Team) (channels : List Channel)
    (outcome : List String) (wire : Wire) :
    Sends net (channels.filterMap (Channel.request n team)) [n.key] wire
      (sendOn net n team channels outcome wire) := by
  induction channels generalizing outcome wire with
  | nil => exact (Sends.nothing outcome).of_subset (List.nil_subset _)
  | cons channel rest ih =>
    rw [sendOn, List.filterMap_cons]
    cases hrequest : channel.request n team with
    | none => exact ih _ _
    | some request =>
      -- One request: what the reply is read as decides whether the other channels are asked.
      have hescapes := read_error_iff channel (net wire.requests request)
      have hone : [n.key] ++ [n.key] ⊆ [n.key] := by simp
      dsimp only
      cases hread : channel.read (net wire.requests request) with
      | ok u =>
        have hcalm : (net wire.requests request).escapes = false := by
          rw [Bool.eq_false_iff, ne_eq, ← hescapes, hread]
          simp
        have hfirst : Sends net [request] [n.key] wire
            (⟨wire.requests + 1, wire.taken ++ [(n.key, channel.name)]⟩, Except.ok ()) :=
          Sends.request (by simp) (iff_of_true ⟨(), rfl⟩ hcalm)
        exact (hfirst.andThen (ih _ _)).of_subset hone
      | error error =>
        rw [hread] at hescapes
        have hasked : ∀ result : Except SendError Unit,
            ((∃ b, result = .ok b) ↔ (net wire.requests request).escapes = false) →
            Sends net [request] [n.key] wire (⟨wire.requests + 1, wire.taken⟩, result) := by
          intro result hresult
          rw [← List.append_nil wire.taken]
          exact Sends.request (by simp) hresult
        dsimp only
        cases hcaught : error.isCaught with
        | true =>
          have hcalm : (net wire.requests request).escapes = false := by
            rw [Bool.eq_false_iff, ne_eq, ← hescapes]
            simp [hcaught]
          have hfirst := hasked (.ok ()) (iff_of_true ⟨(), rfl⟩ hcalm)
          rw [if_pos rfl]
          exact (hfirst.andThen (ih _ _)).of_subset hone
        | false =>
          have hescape : (net wire.requests request).escapes = true :=
            hescapes.mp ⟨error, rfl, hcaught⟩
          have hfirst := hasked (.error error) (by simp [hescape])
          rw [if_neg Bool.false_ne_true]
          exact hfirst.raised

theorem deliver_sends (net : Net) (registry : Registry) (n : NotificationRow)
    (channels : List Channel) (wire : Wire) :
    Sends net (requestsFor registry channels [n]) [n.key] wire
      (deliver net n (teamOf registry n) channels wire) := by
  unfold deliver requestsFor
  rw [List.flatMap_singleton]
  by_cases hnone : channels = []
  · have hrequests : (teamOf registry n).toList.flatMap (fun team =>
        channels.filterMap (Channel.request n team)) = [] := by
      simp [hnone]
    rw [if_pos hnone, hrequests]
    exact (Sends.nothing _).of_subset (List.nil_subset _)
  · rw [if_neg hnone]
    cases teamOf registry n with
    | none => exact (Sends.nothing _).of_subset (List.nil_subset _)
    | some team =>
      have hsend := sendOn_sends net n team channels [] wire
      rw [Option.toList_some, List.flatMap_singleton]
      -- the text of the outcome changes nothing
      have hmap : (∃ b, ((sendOn net n team channels [] wire).2.map fun outcome =>
          ", ".intercalate outcome) = .ok b) ↔
            ∃ b, (sendOn net n team channels [] wire).2 = .ok b := by
        cases (sendOn net n team channels [] wire).2 <;> simp [Except.map]
      exact ⟨hmap.trans hsend.returns, fun h => hsend.requests (hmap.mp h), hsend.taken⟩

/-- What a delivery of these messages records. -/
theorem deliverEach_sends (net : Net) (registry : Registry) (channels : List Channel)
    (rows : List NotificationRow) (delivered : List ((ℕ × NotificationKind × String) × String))
    (wire : Wire) :
    Sends net (requestsFor registry channels rows) (rows.map NotificationRow.key) wire
      (deliverEach net registry channels rows delivered wire) ∧
    ∀ delivered', (deliverEach net registry channels rows delivered wire).2 = .ok delivered' →
      delivered'.map Prod.fst = delivered.map Prod.fst ++ rows.map NotificationRow.key := by
  induction rows generalizing delivered wire with
  | nil =>
    refine ⟨Sends.nothing delivered, ?_⟩
    intro delivered' h
    obtain rfl := Except.ok.inj h
    simp
  | cons n rest ih =>
    have hn := deliver_sends net registry n channels wire
    have hcons : requestsFor registry channels (n :: rest) =
        requestsFor registry channels [n] ++ requestsFor registry channels rest := by
      simp [requestsFor]
    rw [deliverEach, hcons, List.map_cons]
    cases hdeliver : deliver net n (teamOf registry n) channels wire with
    | mk wire' result =>
      rw [hdeliver] at hn
      cases result with
      | error error =>
        refine ⟨(hn.raised).of_subset (by simp), ?_⟩
        intro delivered' h
        cases h
      | ok how =>
        obtain ⟨hsends, hrecorded⟩ := ih (delivered ++ [(n.key, how)]) wire'
        refine ⟨hn.andThen hsends, ?_⟩
        intro delivered' h
        rw [hrecorded delivered' h]
        simp

/-! ## The desk's delivery -/

namespace Desk

variable (d : Desk) (net : Net) (registry : Registry) (channels : List Channel)

/-- What the channels took in a delivery. -/
def takenBy : List ((ℕ × NotificationKind × String) × String) :=
  (d.deliver net registry channels).1.wire.taken.drop d.wire.taken.length

variable {d net registry channels}

theorem mem_pending {n : NotificationRow} :
    n ∈ d.pending ↔ n ∈ d.store.notifications ∧ n.key ∉ d.delivered.map Prod.fst := by
  unfold pending
  rw [mem_sortBy, List.mem_filter, decide_eq_true_eq]

/-- **A delivery**: it returns if it is calm, having recorded every message; else it has recorded
none. -/
theorem deliver_eq :
    (d.deliver net registry channels).1.store = d.store ∧
    d.wire.taken <+: (d.deliver net registry channels).1.wire.taken ∧
    (∀ t ∈ d.takenBy net registry channels, t.1 ∈ d.pending.map NotificationRow.key) ∧
    if Calm net d.wire.requests (requestsFor registry channels d.pending) then
      (d.deliver net registry channels).2 = .ok d.pending.length ∧
        (d.deliver net registry channels).1.delivered.map Prod.fst =
          d.delivered.map Prod.fst ++ d.pending.map NotificationRow.key
    else
      (∃ error, (d.deliver net registry channels).2 = .error error) ∧
        (d.deliver net registry channels).1.delivered = d.delivered := by
  obtain ⟨hsends, hrecorded⟩ :=
    deliverEach_sends net registry channels d.pending d.delivered d.wire
  unfold takenBy deliver
  cases hresult : deliverEach net registry channels d.pending d.delivered d.wire with
  | mk wire result =>
    rw [hresult] at hsends hrecorded
    have hreturns := hsends.returns
    obtain ⟨taken, hwire, htaken⟩ := hsends.taken
    have hwire : wire.taken = d.wire.taken ++ taken := hwire
    cases result with
    | ok delivered =>
      rw [if_pos (hreturns.mp ⟨delivered, rfl⟩)]
      refine ⟨rfl, ⟨taken, hwire.symm⟩, ?_, rfl, hrecorded delivered rfl⟩
      show ∀ t ∈ wire.taken.drop _, _
      rwa [hwire, List.drop_left]
    | error error =>
      rw [if_neg (mt hreturns.mpr (by simp))]
      refine ⟨rfl, ⟨taken, hwire.symm⟩, ?_, ⟨error, rfl⟩, rfl⟩
      show ∀ t ∈ wire.taken.drop _, _
      rwa [hwire, List.drop_left]

theorem deliver_returns_iff : (∃ n, (d.deliver net registry channels).2 = .ok n) ↔
    Calm net d.wire.requests (requestsFor registry channels d.pending) := by
  obtain ⟨-, -, -, h⟩ := @deliver_eq d net registry channels
  split at h
  · rename_i hcalm
    exact iff_of_true ⟨_, h.1⟩ hcalm
  · rename_i hcalm
    obtain ⟨error, herror⟩ := h.1
    refine iff_of_false ?_ hcalm
    rintro ⟨n, hn⟩
    rw [herror] at hn
    cases hn

/-- What is recorded stays so. -/
theorem delivered_subset :
    d.delivered.map Prod.fst ⊆ (d.deliver net registry channels).1.delivered.map Prod.fst := by
  obtain ⟨-, -, -, h⟩ := @deliver_eq d net registry channels
  split at h
  · rw [h.2]
    exact List.subset_append_left ..
  · rw [h.2]
    exact List.Subset.refl _

/-- A delivery that returns leaves nothing pending. -/
theorem pending_deliver_of_returns {n : ℕ} (h : (d.deliver net registry channels).2 = .ok n) :
    (d.deliver net registry channels).1.pending = [] := by
  have hcalm := deliver_returns_iff.mp ⟨n, h⟩
  obtain ⟨hstore, -, -, heq⟩ := @deliver_eq d net registry channels
  rw [if_pos hcalm] at heq
  rw [List.eq_nil_iff_forall_not_mem]
  intro row hrow
  rw [mem_pending, hstore, heq.2, List.mem_append, not_or] at hrow
  obtain ⟨hmem, hnot, hpending⟩ := hrow
  exact hpending (List.mem_map_of_mem (mem_pending.mpr ⟨hmem, hnot⟩))

end Desk

/-! ## Calls of the desk -/

/-- One call after another, whatever comes of them. -/
def targetStep (d : Desk) (call : TargetCall) : Option Desk := some (d.ingestTarget call).1

/-- What a call may do to the desk: nothing; or commit the incidents and deliver, with a net that
is cut if the process dies while it does, and then nothing is recorded. -/
theorem ingestTarget_cases (d : Desk) (call : TargetCall) :
    (d.ingestTarget call).1 = d ∨ ∃ (store : Store) (net : Net),
      (d.ingestTarget call).1 =
          (Desk.deliver { d with store := store } net call.ctx.registry call.channels).1 ∨
        (d.ingestTarget call).1 = { d with
          store := store
          wire := (Desk.deliver { d with store := store } net call.ctx.registry
            call.channels).1.wire } := by
  unfold Desk.ingestTarget
  cases hingest : call.ingest d.store with
  | error e => exact Or.inl rfl
  | ok p =>
    obtain ⟨store, regrouped⟩ := p
    dsimp only
    by_cases hfresh : call.fresh d.store = []
    · rw [if_pos hfresh]
      exact Or.inl rfl
    rw [if_neg hfresh]
    by_cases hbefore : call.crash = some .beforeCommit
    · rw [if_pos hbefore]
      exact Or.inl rfl
    rw [if_neg hbefore]
    right
    split
    · exact ⟨store, _, Or.inr rfl⟩
    · refine ⟨store, call.net, Or.inl ?_⟩
      cases hdeliver : Desk.deliver { d with store := store } call.net call.ctx.registry
        call.channels with
      | mk delivered result => cases result <;> rfl

/-- A call that returns found nothing fresh and did nothing, or its delivery returned. -/
theorem ingestTarget_returned {d : Desk} {call : TargetCall} {result : IngestResult}
    (h : (d.ingestTarget call).2 = .returned result) :
    (call.fresh d.store = [] ∧ (d.ingestTarget call).1 = d) ∨
      (call.fresh d.store ≠ [] ∧ ∃ (store : Store) (n : ℕ),
        (d.ingestTarget call).1 =
          (Desk.deliver { d with store := store } call.net call.ctx.registry call.channels).1 ∧
        (Desk.deliver { d with store := store } call.net call.ctx.registry call.channels).2 =
          .ok n) := by
  unfold Desk.ingestTarget at h ⊢
  cases hingest : call.ingest d.store with
  | error e =>
    rw [hingest] at h
    dsimp only at h
    split at h <;> cases h
  | ok p =>
    obtain ⟨store, regrouped⟩ := p
    rw [hingest] at h
    dsimp only at h ⊢
    by_cases hfresh : call.fresh d.store = []
    · rw [if_pos hfresh]
      exact Or.inl ⟨hfresh, rfl⟩
    rw [if_neg hfresh] at h ⊢
    right
    refine ⟨hfresh, store, ?_⟩
    cases hdeliver : Desk.deliver { d with store := store } call.net call.ctx.registry
      call.channels with
    | mk delivered how =>
      rw [hdeliver] at h
      cases hcrash : call.crash with
      | none =>
        rw [hcrash] at h
        cases how with
        | ok n => exact ⟨n, rfl, rfl⟩
        | error error => cases h
      | some crash =>
        -- a call that crashes does not return
        rw [hcrash] at h
        cases crash with
        | beforeCommit => cases h
        | beforeDelivered requests => cases h
        | beforeReturn => cases how <;> cases h

/-! ## Nothing is lost -/

/-- A call finds something fresh, or nothing that is still to be delivered. -/
def TargetCall.FindsWork (call : TargetCall) (d : Desk) : Prop :=
  call.fresh d.store ≠ [] ∨ d.pending = []

/-- A call that returns leaves nothing pending. -/
def LosesNothing (v : Desk × TargetCall) : Prop :=
  ∀ result, (v.1.ingestTarget v.2).2 = .returned result → (v.1.ingestTarget v.2).1.pending = []

theorem losesNothing_iff (v : Desk × TargetCall) : LosesNothing v ↔
    ∀ result, (v.1.ingestTarget v.2).2 = .returned result → v.2.FindsWork v.1 := by
  refine forall_congr' fun result => forall_congr' fun hreturned => ?_
  rcases ingestTarget_returned hreturned with ⟨hfresh, hsame⟩ | ⟨hfresh, store, n, hdesk, hok⟩
  · rw [hsame, TargetCall.FindsWork, or_iff_right (not_not_intro hfresh)]
  · rw [hdesk]
    exact iff_of_true (Desk.pending_deliver_of_returns hok) (Or.inl hfresh)

/-- **No message is lost** over any sequence of calls, with crashes anywhere, if and only if none
of those that return found nothing fresh and something still to be delivered. -/
theorem nothing_lost_iff (calls : List TargetCall) :
    (∀ v ∈ Machine.visits targetStep {} calls, LosesNothing v) ↔
      ∀ v ∈ Machine.visits targetStep {} calls, ∀ result,
        (v.1.ingestTarget v.2).2 = .returned result → v.2.FindsWork v.1 :=
  forall₂_congr fun v _ => losesNothing_iff v

/-- The process dies between the commit of the incidents and their delivery; the same artifacts are
ingested again, and the call returns without sending anything. -/
theorem message_lost : ¬ ∀ v ∈ Machine.visits targetStep {}
    [{ invocationOf "night 1" "1" 10 [("model.a", "error")] with
        crash := some (.beforeDelivered 0) },
      { invocationOf "night 1" "1" 10 [("model.a", "error")] with }], LosesNothing v := by
  intro h
  have hretry := h _ (List.mem_cons_of_mem _ (List.mem_cons_self ..))
    ⟨"night 1", 0, ⟨[], [], [], 0⟩, 0⟩ (by decide +kernel)
  exact absurd hretry (by decide +kernel)

/-! ## Nothing is sent twice -/

/-- What a call does to the wire and to the `delivered` column: nothing recorded is undone, and
nothing recorded is sent. -/
structure Desk.Follows (d d' : Desk) : Prop where
  recorded : d.delivered.map Prod.fst ⊆ d'.delivered.map Prod.fst
  taken : ∃ taken, d'.wire.taken = d.wire.taken ++ taken ∧
    ∀ t ∈ taken, t.1 ∉ d.delivered.map Prod.fst

theorem Desk.Follows.refl (d : Desk) : d.Follows d :=
  ⟨List.Subset.refl _, [], (List.append_nil _).symm, by simp⟩

theorem Desk.Follows.trans {d d' d'' : Desk} (h : d.Follows d') (h' : d'.Follows d'') :
    d.Follows d'' := by
  obtain ⟨taken, hw, htaken⟩ := h.taken
  obtain ⟨taken', hw', htaken'⟩ := h'.taken
  refine ⟨List.Subset.trans h.recorded h'.recorded, taken ++ taken', ?_, ?_⟩
  · rw [hw', hw, List.append_assoc]
  · intro t ht
    rcases List.mem_append.mp ht with ht | ht
    · exact htaken t ht
    · exact fun hmem => htaken' t ht (h.recorded hmem)

theorem Desk.deliver_follows (d : Desk) (net : Net) (registry : Registry)
    (channels : List Channel) : d.Follows (d.deliver net registry channels).1 := by
  obtain ⟨-, ⟨taken, hw⟩, hkeys, -⟩ := @Desk.deliver_eq d net registry channels
  refine ⟨Desk.delivered_subset, taken, hw.symm, ?_⟩
  unfold Desk.takenBy at hkeys
  rw [← hw, List.drop_left] at hkeys
  intro t ht
  obtain ⟨n, hn, heq⟩ := List.mem_map.mp (hkeys t ht)
  rw [← heq]
  exact (Desk.mem_pending.mp hn).2

theorem ingestTarget_follows (d : Desk) (call : TargetCall) :
    d.Follows (d.ingestTarget call).1 := by
  rcases ingestTarget_cases d call with hsame | ⟨store, net, hdesk | hdesk⟩
  · rw [hsame]
    exact Desk.Follows.refl d
  · rw [hdesk]
    have h := Desk.deliver_follows { d with store := store } net call.ctx.registry call.channels
    exact ⟨h.recorded, h.taken⟩
  · rw [hdesk]
    have h := Desk.deliver_follows { d with store := store } net call.ctx.registry call.channels
    exact ⟨List.Subset.refl _, h.taken⟩

theorem follows_of_run {ok : Desk → TargetCall → Prop} {calls : List TargetCall} {d d' : Desk}
    (hrun : Machine.Run targetStep ok d calls d') : d.Follows d' := by
  apply hrun.invariant (I := fun x => d.Follows x) (Desk.Follows.refl d)
  intro x call x' hx _ hstep
  obtain rfl := Option.some.inj hstep
  exact hx.trans (ingestTarget_follows x call)

/-- A delivery as it should be. -/
structure DeliversOnce (d : Desk) (net : Net) (registry : Registry) (channels : List Channel) :
    Prop where
  returns : ∃ n, (d.deliver net registry channels).2 = .ok n
  /-- What the channels took is recorded. -/
  recorded : ∀ t ∈ d.takenBy net registry channels,
    t.1 ∈ (d.deliver net registry channels).1.delivered.map Prod.fst
  /-- Whatever calls come after it, they do not send it again. -/
  once : ∀ (calls : List TargetCall) (d' : Desk),
    Machine.Run targetStep (fun _ _ => True) (d.deliver net registry channels).1 calls d' →
      ∀ t ∈ d.takenBy net registry channels,
        t.1 ∉ (d'.wire.taken.drop
          (d.deliver net registry channels).1.wire.taken.length).map Prod.fst

/-- **No outage fails a delivery, and nothing is sent twice**, whatever is pending and whatever
comes back of the requests, if and only if none of it raises an exception that is not caught. -/
theorem deliver_once_iff (d : Desk) (net : Net) (registry : Registry) (channels : List Channel) :
    DeliversOnce d net registry channels ↔
      Calm net d.wire.requests (requestsFor registry channels d.pending) := by
  constructor
  · intro h
    exact Desk.deliver_returns_iff.mp h.returns
  · intro hcalm
    obtain ⟨-, -, hkeys, heq⟩ := @Desk.deliver_eq d net registry channels
    rw [if_pos hcalm] at heq
    have hrecorded : ∀ t ∈ d.takenBy net registry channels,
        t.1 ∈ (d.deliver net registry channels).1.delivered.map Prod.fst := by
      intro t ht
      rw [heq.2]
      exact List.mem_append_right _ (hkeys t ht)
    refine ⟨⟨_, heq.1⟩, hrecorded, ?_⟩
    intro calls d' hrun t ht hagain
    obtain ⟨taken, hw, hnew⟩ := (follows_of_run hrun).taken
    rw [hw, List.drop_left] at hagain
    obtain ⟨t', ht', heq'⟩ := List.mem_map.mp hagain
    exact hnew t' ht' (heq' ▸ hrecorded t ht)

/-- Two models that have nothing to do with each other, owned by one team. -/
def unrelatedModels : Context where
  nodes := {
    nodes := [⟨"model.a", .model, "a", [], none, [], "", "", none, "", ""⟩,
      ⟨"model.b", .model, "b", [], none, [], "", "", none, "", ""⟩]
    unique := by decide
    kinds := by decide }
  registry := ⟨[⟨"data", "Data", "#data", ["ann"], none⟩],
    [⟨"model.*", "ann", "data", .bestEffort, none⟩]⟩
  policy := twoModelsContext.policy
  maxOpenPerPerson := 3

/-- Both models failed, and two pages are pending. -/
def twoPages : Desk where
  store := IngestCall.after
    { invocationOf "night 1" "1" 10 [("model.a", "error"), ("model.b", "error")] with
      ctx := unrelatedModels } {}

/-- The first page goes through, the reply to the second is JSON but no object. -/
def oddReply : Net := fun k _ => if k = 0 then .json (.object true none) else .json .other

/-- The first page was taken, and nothing is recorded of it: the next delivery sends it again. -/
theorem page_not_recorded :
    (twoPages.takenBy oddReply unrelatedModels.registry [.slack "token"]).map Prod.fst =
        [(1, .page, "night 1")] ∧
      ¬ DeliversOnce twoPages oddReply unrelatedModels.registry [.slack "token"] := by
  have htaken : (twoPages.takenBy oddReply unrelatedModels.registry [.slack "token"]).map Prod.fst =
      [(1, .page, "night 1")] := by decide +kernel
  refine ⟨htaken, ?_⟩
  intro h
  exact absurd (Desk.deliver_returns_iff.mp h.returns) (by decide +kernel)

end PlatformOps.Incidents.Notify
