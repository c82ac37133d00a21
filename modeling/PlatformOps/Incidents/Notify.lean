import PlatformOps.Incidents.Messages

/-!
# Sending the Messages

Once an ingest is committed, what it queued is sent: every message not recorded as
delivered goes to its team on each channel, Slack and Telegram, where the team has an
address. All of it is one transaction of its own. A failed send is meant to be logged
and recorded, never raised, but only four classes of exceptions are caught: any other
one ends the delivery, and what it had recorded so far is rolled back.

The net is a parameter: what comes back of the n-th request.
-/

namespace PlatformOps.Incidents.Notify

open Metadata Listing

/-! ## Requests and replies -/

/-- What a request raises, or reading and handling its reply. -/
inductive SendError
  /-- `urllib.error.URLError`: no connection, or a status that is an error. -/
  | urlError
  | timeoutError
  | runtimeError (message : String)
  /-- A reply that is not UTF-8, or not JSON. -/
  | valueError
  /-- A reply that is JSON but no object: it has no `get`. -/
  | attributeError
  /-- `http.client.HTTPException`: no status line, a reply cut short. -/
  | httpException
  /-- A connection reset while the reply is read. -/
  | connectionError
deriving DecidableEq, Repr

/-- `except (urllib.error.URLError, TimeoutError, RuntimeError, ValueError)`. -/
def SendError.isCaught : SendError → Bool
  | .urlError | .timeoutError | .runtimeError _ | .valueError => true
  | .attributeError | .httpException | .connectionError => false

structure Request where
  url : String
  payload : List (String × String)
  headers : List (String × String)
deriving DecidableEq, Repr

/-- A decoded reply: an object with whether its `ok` is true and what it says of an error, or
anything else. -/
inductive Body
  | object (ok : Bool) (explanation : Option String)
  | other
deriving DecidableEq, Repr

/-- What comes back of a request: an exception while it is sent or read, a text that is no JSON
(or not even UTF-8), or a decoded one. -/
inductive Reply
  | raises (error : SendError)
  | notJson
  | json (body : Body)
deriving DecidableEq, Repr

/-- What comes back of each request, by its number. -/
abbrev Net := ℕ → Request → Reply

/-- `_post`, given what comes back. -/
def post : Reply → Except SendError Body
  | .raises error => .error error
  | .notJson => .error .valueError
  | .json body => .ok body

/-! ## Channels -/

inductive Channel
  | slack (token : String) (apiUrl : String := "https://slack.com/api")
  | telegram (token : String) (apiUrl : String := "https://api.telegram.org")
deriving DecidableEq, Repr

def kindText : NotificationKind → String
  | .page => "page"
  | .update => "update"
  | .resolved => "resolved"
  | .escalation => "escalation"

/-- `f"INC-{seq:03d}"`. -/
def incidentIdOf (seq : ℕ) : String := "INC-" ++ threeDigits seq

/-- `Notification.message`. -/
def message (n : NotificationRow) : String :=
  "[" ++ n.severity.text ++ "] " ++ incidentIdOf n.incident ++ " (" ++ kindText n.kind ++ ") for " ++
    n.recipient ++ ": " ++ n.text

namespace Channel

def name : Channel → String
  | slack .. => "slack"
  | telegram .. => "telegram"

/-- The request a channel makes of a message, if the team has an address there. -/
def request (n : NotificationRow) (team : Team) : Channel → Option Request
  | slack token apiUrl => some
    ⟨apiUrl ++ "/chat.postMessage", [("channel", team.channel), ("text", message n)],
      [("Authorization", "Bearer " ++ token)]⟩
  | telegram token apiUrl => (truthy team.telegramChat).map fun chat =>
    ⟨apiUrl ++ "/bot" ++ token ++ "/sendMessage", [("chat_id", chat), ("text", message n)], []⟩

/-- The end of `send`: the body has to be an object whose `ok` is true. -/
def read (channel : Channel) (reply : Reply) : Except SendError Unit := do
  match ← post reply with
  | .other => .error .attributeError
  | .object true _ => .ok ()
  | .object false explanation =>
    match channel with
    | slack .. => .error (.runtimeError ("Slack said " ++ explanation.getD "not ok"))
    | telegram .. => .error (.runtimeError ("Telegram said " ++ explanation.getD "not ok"))

end Channel

/-! ## Delivery -/

/-- The number of requests made, and the messages that channels took. -/
structure Wire where
  requests : ℕ := 0
  taken : List ((ℕ × NotificationKind × String) × String) := []
deriving DecidableEq, Repr

/-- The loop of `deliver` over the channels. -/
def sendOn (net : Net) (n : NotificationRow) (team : Team) :
    List Channel → List String → Wire → Wire × Except SendError (List String)
  | [], outcome, wire => (wire, .ok outcome)
  | channel :: rest, outcome, wire =>
    match channel.request n team with
    -- the team has no address on this channel
    | none => sendOn net n team rest (outcome ++ [channel.name ++ ": no address"]) wire
    | some request =>
      let asked := { wire with requests := wire.requests + 1 }
      match channel.read (net wire.requests request) with
      | .ok () => sendOn net n team rest (outcome ++ [channel.name])
        { asked with taken := wire.taken ++ [(n.key, channel.name)] }
      | .error error =>
        -- only the errors `deliver` catches leave the other channels their turn
        if error.isCaught then
          sendOn net n team rest (outcome ++ [channel.name ++ " failed"]) asked
        else (asked, .error error)

/-- `deliver`: one message on every channel, and how it went. -/
def deliver (net : Net) (n : NotificationRow) (team : Option Team) (channels : List Channel)
    (wire : Wire) : Wire × Except SendError String :=
  if channels = [] then (wire, .ok "local")
  else
    match team with
    | none => (wire, .ok ("local: no team " ++ n.team))
    | some team =>
      let (wire, outcome) := sendOn net n team channels [] wire
      (wire, outcome.map fun outcome => ", ".intercalate outcome)

/-- The store, the `delivered` column of its messages, and the wire. -/
structure Desk where
  store : Store := {}
  /-- How each delivered message went, by its key. -/
  delivered : List ((ℕ × NotificationKind × String) × String) := []
  wire : Wire := {}
deriving DecidableEq, Repr

/-- `ORDER BY sent_at, incident_id, kind`. -/
def deliveryOrder (n : NotificationRow) : Timestamp ×ₗ String ×ₗ String :=
  toLex (n.sentAt, toLex (incidentIdOf n.incident, kindText n.kind))

/-- `WHERE delivered IS NULL`. -/
def Desk.pending (d : Desk) : List NotificationRow :=
  sortBy deliveryOrder (d.store.notifications.filter fun n => n.key ∉ d.delivered.map Prod.fst)

/-- `registry.teams.get(notification.team)`. -/
def teamOf (registry : Registry) (n : NotificationRow) : Option Team :=
  registry.teams.find? fun team => team.id = n.team

/-- The loop of `_deliver` over the messages. -/
def deliverEach (net : Net) (registry : Registry) (channels : List Channel) :
    List NotificationRow → List ((ℕ × NotificationKind × String) × String) → Wire →
      Wire × Except SendError (List ((ℕ × NotificationKind × String) × String))
  | [], delivered, wire => (wire, .ok delivered)
  | n :: rest, delivered, wire =>
    match deliver net n (teamOf registry n) channels wire with
    | (wire, .ok how) => deliverEach net registry channels rest (delivered ++ [(n.key, how)]) wire
    | (wire, .error error) => (wire, .error error)

/-- `_deliver`: one transaction, so that what it recorded is lost if a send raises. -/
def Desk.deliver (d : Desk) (net : Net) (registry : Registry) (channels : List Channel) :
    Desk × Except SendError ℕ :=
  match deliverEach net registry channels d.pending d.delivered d.wire with
  | (wire, .ok delivered) => ({ d with delivered := delivered, wire := wire }, .ok d.pending.length)
  | (wire, .error error) => ({ d with wire := wire }, .error error)

/-! ## A call of the desk -/

/-- Where the process dies, if it does. -/
inductive Crash
  /-- Before the incidents are committed. -/
  | beforeCommit
  /-- Before the delivery is committed, this many requests into it. -/
  | beforeDelivered (requests : ℕ)
  /-- With everything committed. -/
  | beforeReturn
deriving DecidableEq, Repr

/-- A call of `ingest_target`, the net it meets and the point at which it crashes. -/
structure TargetCall extends IngestCall where
  channels : List Channel := []
  net : Net := fun _ _ => .json (.object true none)
  crash : Option Crash := none

structure IngestResult where
  runId : String
  newInvocations : ℕ
  regrouped : Regrouped
  delivered : ℕ
deriving DecidableEq, Repr

inductive Outcome
  | returned (result : IngestResult)
  | raised
  | crashed
deriving DecidableEq, Repr

/-- `ingest_target`. -/
def Desk.ingestTarget (d : Desk) (call : TargetCall) : Desk × Outcome :=
  match call.ingest d.store with
  | .error _ => (d, if call.crash.isSome then .crashed else .raised)
  | .ok (store, regrouped) =>
    if call.fresh d.store = [] then
      (d, if call.crash.isSome then .crashed else .returned ⟨call.runId, 0, ⟨[], [], [], 0⟩, 0⟩)
    else if call.crash = some .beforeCommit then (d, .crashed)
    else
      let committed := { d with store := store }
      match call.crash with
      | some (.beforeDelivered requests) =>
        -- the wire is as far as the process got; nothing is recorded of it
        let cut : Net := fun k request =>
          if k < d.wire.requests + requests then call.net k request else .raises .connectionError
        ({ committed with wire := (committed.deliver cut call.ctx.registry call.channels).1.wire },
          .crashed)
      | crash =>
        match committed.deliver call.net call.ctx.registry call.channels with
        | (delivered, .ok n) => (delivered, if crash.isSome then .crashed else
          .returned ⟨call.runId, (call.fresh d.store).length, regrouped, n⟩)
        | (delivered, .error _) => (delivered, if crash.isSome then .crashed else .raised)

end PlatformOps.Incidents.Notify
