import PlatformOps.Common.Clock
import PlatformOps.Common.Text
import PlatformOps.Cost.Redaction
import PlatformOps.Library.Fallible
import PlatformOps.Library.Listing

/-!
# Reading the Query Log Back

`clickhouse_records`: every statement that the company's run tagged, read back from
ClickHouse's query log. The log's ids and times are random, so the statements are
put in an order of their own and numbered in it, each kind of work of one simulated
time from zero. Catalogue statements and reads of system tables are counted, not
kept.

JSON, ISO times and the parse of a statement's SQL are taken from `Surroundings`.
-/

namespace PlatformOps.Cost.Collection

open Fallible Listing Redaction Scanning

/-! ## What the collection is given -/

/-- A JSON value: a string, or what `str` gives of another one. -/
inductive JsonValue
  | text (value : String)
  | other (shown : String)
deriving DecidableEq, Repr

/-- `str(value)`. -/
def JsonValue.str : JsonValue → String
  | .text value => value
  | .other shown => shown

/-- What `json.loads` returns: a dictionary, or something else. -/
inductive Json
  | object (items : List (String × JsonValue))
  | other
deriving DecidableEq, Repr

/-- The libraries: `json.loads` (`none` is a `ValueError`), `datetime.fromisoformat`, the
whitespace of `\s`, and, of `parse_query`, the tables a statement reads with the columns its
filters use, sorted. -/
structure Surroundings where
  classes : CharClasses
  space : Char → Bool
  loads : List Char → Option Json
  fromIso : String → Option Timestamp
  parseQuery : List Char → List (String × List String)

/-- A row of `system.query_log`, one finished statement. -/
structure LogRow where
  logComment : List Char
  queryKind : String
  query : List Char
  readRows : ℕ
  readBytes : ℕ
  writtenRows : ℕ
  tables : List String
deriving DecidableEq, Repr

inductive CollectError
  | keyError (key : String)
  | redaction (raised : Raised)
  | isoFormat (text : String)
deriving DecidableEq, Repr

/-! ## Tags and comments -/

section Tags

variable (o : Surroundings)

/-- `tagging.parse`: a tag read back, or `none` when the statement had none. -/
def parseTag (comment : List Char) : Option (List (String × String)) :=
  if comment.head? ≠ some '{' then none
  else
    match o.loads comment with
    | some (.object items) => some (items.map fun item => (item.1, item.2.str))
    -- no JSON, or not an object: the statement counts as untagged
    | _ => none

/-- `tag[key]`. -/
def tagItem (tag : List (String × String)) (key : String) : Except CollectError String :=
  match tag.lookup key with
  | some value => .ok value
  | none => .error (.keyError key)

/-- `tag.get(key, "")`. -/
def tagGet (tag : List (String × String)) (key : String) : String :=
  (tag.lookup key).getD ""

/-- Is what stands before `*/` at the start of a text all whitespace? -/
def closesComment (text : List Char) : Bool :=
  (text.dropWhile o.space).take 2 = ['*', '/']

/-- The length up to the first `}` that `\s*\*/` follows. -/
def payloadLength : List Char → Option ℕ
  | [] => none
  | c :: text =>
    if c = '}' ∧ closesComment o text then some 1 else (payloadLength text).map (· + 1)

theorem payloadLength_le {text : List Char} :
    ∀ {n}, payloadLength o text = some n → n ≤ text.length ∧
      closesComment o (text.drop n) = true := by
  induction text with
  | nil =>
    intro n h
    cases h
  | cons c text ih =>
    intro n h
    rw [payloadLength] at h
    split at h
    · rename_i hcloses
      cases h
      exact ⟨by simp, hcloses.2⟩
    · obtain ⟨m, hm, rfl⟩ := Option.map_eq_some_iff.mp h
      have := ih hm
      exact ⟨by simp only [List.length_cons]; omega, this.2⟩

/-- How much whitespace a text starts with. -/
def spaces (text : List Char) : ℕ :=
  (text.takeWhile o.space).length

/-- A comment that holds one JSON object: `/\*\s*(\{.*?\})\s*\*/` with `DOTALL`. -/
def jsonComment : Pattern Char where
  length _ text :=
    match text with
    | '/' :: '*' :: text =>
      match text.drop (spaces o text) with
      | '{' :: rest =>
        (payloadLength o rest).map fun n => spaces o text + n + spaces o (rest.drop n) + 5
      | _ => none
    | _ => none
  pos := by
    intro _ text n h
    split at h
    · split at h
      · obtain ⟨m, -, rfl⟩ := Option.map_eq_some_iff.mp h
        omega
      · cases h
    · cases h
  le := by
    intro _ text n h
    split at h
    · rename_i text
      split at h
      · rename_i rest hrest
        obtain ⟨m, hm, rfl⟩ := Option.map_eq_some_iff.mp h
        have hcloses := (payloadLength_le o hm).2
        have hlength := congrArg List.length hrest
        have hspaces : (rest.drop m).length =
            spaces o (rest.drop m) + ((rest.drop m).dropWhile o.space).length := by
          rw [spaces, ← List.length_append, List.takeWhile_append_dropWhile]
        have htwo := congrArg List.length (of_decide_eq_true hcloses)
        simp only [List.length_take, List.length_cons, List.length_drop, List.length_nil] at *
        omega
      · cases h
    · cases h

/-- Its group: the object, without what surrounds it. -/
def payload (matched : List Char) : List Char :=
  let inner := ((matched.drop 2).reverse.drop 2).reverse
  ((inner.dropWhile o.space).reverse.dropWhile o.space).reverse

/-- `node_id_from_comment`: the node id in the JSON comment that dbt appends to a statement. -/
def nodeIdFromComment (text : List Char) : Option String :=
  (findall (jsonComment o) text).findSome? fun matched =>
    match o.loads (payload o matched) with
    | some (.object items) =>
      match items.lookup "unique_id" with
      | some (.text value) => some value
      | _ => none
    | _ => none

end Tags

/-! ## Entries -/

/-- `[0-9a-f]`. -/
def isHex (c : Char) : Bool :=
  c.isDigit || ('a' ≤ c && c ≤ 'f')

/-- The characters of `_INVOCATION_ID`. -/
def invocationShape : List (Char → Bool) :=
  [8, 4, 4, 4, 12].flatMap fun n => (· == '_') :: List.replicate n isHex

/-- `_INVOCATION_ID`. -/
def invocationId : Pattern Char where
  length _ text :=
    if invocationShape.length ≤ text.length ∧
        (invocationShape.zipWith (fun is c => is c) text).all id then
      some invocationShape.length
    else none
  pos := by
    intro _ text n h
    split at h
    · cases h
      decide
    · cases h
  le := by
    intro _ text n h
    split at h
    · rename_i hshape
      cases h
      exact hshape.1
    · cases h

def removeIds (text : List Char) : List Char :=
  sub invocationId [] text

/-- One tagged statement, with what it is sorted by first. -/
structure Entry where
  sim : String
  actor : String
  subject : String
  person : String
  kind : String
  redacted : List Char
  readBytes : ℕ
  readRows : ℕ
  writtenRows : ℕ
  own : List String
  readsOnlySystem : Bool
  text : List Char
  tag : List (String × String)
deriving DecidableEq, Repr

/-- `e[:10]`. -/
def Entry.key (e : Entry) : String ×ₗ String ×ₗ String ×ₗ String ×ₗ String ×ₗ List Char ×ₗ
    ℕ ×ₗ ℕ ×ₗ ℕ ×ₗ List String :=
  toLex (e.sim, toLex (e.actor, toLex (e.subject, toLex (e.person, toLex (e.kind,
    toLex (e.redacted, toLex (e.readBytes, toLex (e.readRows, toLex (e.writtenRows, e.own)))))))))

/-- `BILLED_KINDS`. -/
def billedKinds : List String := ["Select", "Insert"]

/-- The statement is kept, not only counted. -/
def Entry.billed (e : Entry) : Bool :=
  e.kind ∈ billedKinds && !e.readsOnlySystem

section Collect

variable (o : Surroundings) (runId : String)

/-- The entry of one row of the log, none of a statement without a tag. -/
def entryOf (row : LogRow) : Except CollectError (Option Entry) :=
  match parseTag o row.logComment with
  | none => .ok none
  | some tag => do
    let text := removeIds row.query
    let own := sortBy id ((row.tables.filter fun t => !startsWith t "system.").map fun t =>
      String.ofList (removeIds t.toList))
    let sim ← tagItem tag "sim"
    let actor ← tagItem tag "actor"
    let redacted ← (redact o.classes text).mapError .redaction
    return some
      { sim := sim
        actor := actor
        subject := tagGet tag "subject"
        person := tagGet tag "person"
        kind := row.queryKind
        redacted := redacted
        readBytes := row.readBytes
        readRows := row.readRows
        writtenRows := row.writtenRows
        own := own
        readsOnlySystem := row.tables ≠ [] && own = []
        text := text
        tag := tag }

def entriesOf (rows : List LogRow) : Except CollectError (List Entry) := do
  let entries ← rows.mapM (entryOf o)
  return entries.reduceOption

/-! ## Records -/

/-- A `QueryRecord` as it is collected: the kind of actor is the tag's text. -/
structure CollectedRecord where
  queryId : String
  runId : String
  actor : String
  actorType : String
  nodeId : Option String
  startedAt : Timestamp
  sqlText : List Char
  rowsScanned : ℕ
  bytesScanned : ℕ
  writtenRows : ℕ
  queryKind : String
  tables : List String
deriving DecidableEq, Repr

structure QueryLog where
  records : List CollectedRecord := []
  filters : List (String × String × List String) := []
  unbilled : ℕ := 0
  cache : List (List Char × List (String × List String)) := []
deriving DecidableEq, Repr

/-- `QueryLog.parse`: the parse of the first text with these words. -/
def QueryLog.parse (log : QueryLog) (text : List Char) :
    Except CollectError (List (String × List String) × QueryLog) := do
  let key ← (redact o.classes text).mapError .redaction
  match log.cache.lookup key with
  -- another text with the same words: its literals are not read
  | some parsed => return (parsed, log)
  | none =>
    let parsed := o.parseQuery text
    return (parsed, { log with cache := setItem log.cache (key, parsed) })

/-- `QueryLog.add`. -/
def QueryLog.add (log : QueryLog) (record : CollectedRecord) (rawSql : Option (List Char)) :
    Except CollectError QueryLog := do
  let log ← match rawSql with
    | none => pure log
    | some text => do
      let (parsed, log) ← log.parse o text
      -- a parse without columns is not a use
      let uses := parsed.filter fun use => use.2 ≠ []
      pure { log with filters := log.filters ++ uses.map fun use => (record.queryId, use) }
  -- redacted here again, whatever the record came with
  let sqlText ← (redact o.classes record.sqlText).mapError .redaction
  return { log with records := log.records ++ [{ record with sqlText := sqlText }] }

/-- `ACTOR_USERS`. -/
def actorUsers : List (String × String) :=
  [("dbt", "dbt"), ("ingestion", "loader"), ("reconcile", "platform"), ("maintenance", "platform")]

/-- `_actor`. -/
def actorOf (person actor : String) : String :=
  if person ≠ "" then person
  else if actor = "dashboard" then "metabase"
  else (actorUsers.lookup actor).getD actor

/-- `f"{n:06d}"`. -/
def sixDigits (n : ℕ) : String :=
  let digits := Nat.toDigits 10 n
  String.ofList (List.replicate (6 - digits.length) '0' ++ digits)

/-- Where the loop over the entries is: the log so far, and how many records each kind of work
of each simulated time has. -/
structure Collecting where
  log : QueryLog := {}
  counters : List ((String × String) × ℕ) := []
deriving DecidableEq, Repr

/-- Who an entry is for: the node in dbt's comment, else the tag's subject. -/
def Entry.nodeId (e : Entry) : Option String :=
  if e.actor = "dbt" then nodeIdFromComment o e.text else truthy (some e.subject)

def Entry.queryId (e : Entry) (seq : ℕ) : String :=
  e.sim ++ "/" ++ e.actor ++ "/" ++ sixDigits seq

/-- One entry of the loop. -/
def collectEntry (state : Collecting) (e : Entry) : Except CollectError Collecting :=
  -- counted, and its place in the sequence is not taken
  if !e.billed then
    .ok { state with log := { state.log with unbilled := state.log.unbilled + 1 } }
  else do
    let seq := (state.counters.lookup (e.sim, e.actor)).getD 0
    let startedAt ← match o.fromIso e.sim with
      | some time => .ok time
      | none => .error (.isoFormat e.sim)
    let record : CollectedRecord :=
      { queryId := e.queryId seq
        runId := runId
        actor := actorOf (tagGet e.tag "person") e.actor
        actorType := e.actor
        nodeId := e.nodeId o
        startedAt := startedAt
        sqlText := e.redacted
        rowsScanned := e.readRows
        bytesScanned := e.readBytes
        writtenRows := e.writtenRows
        queryKind := e.kind
        tables := e.own }
    let consumer := e.actor = "dashboard" ∨ e.actor = "adhoc"
    let log ← state.log.add o record (if consumer then some e.text else none)
    return ⟨log, setItem state.counters ((e.sim, e.actor), seq + 1)⟩

/-- `clickhouse_records`, of the rows the query log returns. -/
def clickhouseRecords (rows : List LogRow) : Except CollectError QueryLog := do
  let entries ← entriesOf o rows
  let state ← (sortBy Entry.key entries).foldlM (collectEntry o runId) {}
  return state.log

end Collect

end PlatformOps.Cost.Collection
