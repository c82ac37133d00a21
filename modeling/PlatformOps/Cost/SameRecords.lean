import PlatformOps.Cost.Collection

/-!
# Two Collections of the Same Work

Which record an entry becomes depends on what it is sorted by and, for dbt, on the
node that its text names. The text is no part of the order, so entries that tie and
name different nodes are numbered as the log happens to return them: two
collections of the same work give the same records exactly if there are no such
entries (`collectsSame_iff`).
-/

namespace PlatformOps.Cost.Collection

open Fallible Listing Redaction

section Collections

variable (o : Surroundings) (runId : String)

/-- The records that a collection returns. -/
def recordsOf (rows : List LogRow) : Except CollectError (List CollectedRecord) :=
  (clickhouseRecords o runId rows).map QueryLog.records

/-- Two logs of the same work: the same billed statements as often, without dbt's invocation ids,
in any order and whatever else was tagged. -/
def SameWork (rows rows' : List LogRow) : Prop :=
  ∃ es es', entriesOf o rows = .ok es ∧ entriesOf o rows' = .ok es' ∧
    (es.filter Entry.billed).Perm (es'.filter Entry.billed)

/-- **The same work gives the same records.** -/
def CollectsSame (rows : List LogRow) : Prop :=
  ∀ rows', SameWork o rows rows' → recordsOf o runId rows' = recordsOf o runId rows

/-- An entry that becomes a record: its time is an ISO time, and its redacted text can be redacted
again. -/
def Entry.Readable (e : Entry) : Prop :=
  (∃ time, o.fromIso e.sim = some time) ∧ ∃ text, redact o.classes e.redacted = .ok text

/-- A log whose collection raises nothing. -/
def Readable (rows : List LogRow) : Prop :=
  ∃ es, entriesOf o rows = .ok es ∧ ∀ e ∈ es.filter Entry.billed, e.Readable o

/-- No two billed statements of dbt that tie in the order name different nodes. -/
def Unambiguous (rows : List LogRow) : Prop :=
  ∀ es, entriesOf o rows = .ok es → ∀ e ∈ es.filter Entry.billed, ∀ e' ∈ es.filter Entry.billed,
    e.actor = "dbt" → e.key = e'.key → nodeIdFromComment o e.text = nodeIdFromComment o e'.text

end Collections

variable {o : Surroundings} {runId : String}

/-! ## Entries -/

/-- What an entry says of its own statement. -/
structure Entry.Faithful (o : Surroundings) (e : Entry) : Prop where
  redacted : redact o.classes e.text = .ok e.redacted
  person : tagGet e.tag "person" = e.person

theorem faithful_of_entryOf {row : LogRow} {e : Entry} (h : entryOf o row = .ok (some e)) :
    e.Faithful o := by
  unfold entryOf at h
  split at h
  · cases h
  · obtain ⟨sim, -, h⟩ := bind_eq_ok.mp h
    obtain ⟨actor, -, h⟩ := bind_eq_ok.mp h
    obtain ⟨redacted, hredacted, h⟩ := bind_eq_ok.mp h
    cases h
    refine ⟨?_, rfl⟩
    revert hredacted
    cases redact o.classes (removeIds row.query) with
    | error raised => simp [Except.mapError]
    | ok text => simp [Except.mapError]

theorem faithful_of_mem {rows : List LogRow} {es : List Entry} {e : Entry}
    (hes : entriesOf o rows = .ok es) (he : e ∈ es) : e.Faithful o := by
  obtain ⟨found, hfound, hes⟩ := bind_eq_ok.mp hes
  cases hes
  obtain ⟨row, -, hrow⟩ := exists_preimage_of_mem hfound (List.reduceOption_mem_iff.mp he)
  exact faithful_of_entryOf hrow

theorem key_eq_iff {e e' : Entry} : e.key = e'.key ↔ e.sim = e'.sim ∧ e.actor = e'.actor ∧
    e.subject = e'.subject ∧ e.person = e'.person ∧ e.kind = e'.kind ∧ e.redacted = e'.redacted ∧
    e.readBytes = e'.readBytes ∧ e.readRows = e'.readRows ∧ e.writtenRows = e'.writtenRows ∧
    e.own = e'.own := by
  simp only [Entry.key, toLex_inj, Prod.mk.injEq]

/-- The entries of a log in another order are its entries in another order. -/
theorem entriesOf_perm {rows rows' : List LogRow} {es : List Entry} (hperm : rows'.Perm rows)
    (hes : entriesOf o rows = .ok es) : ∃ es', entriesOf o rows' = .ok es' ∧ es'.Perm es := by
  obtain ⟨found, hfound, hes⟩ := bind_eq_ok.mp hes
  cases hes
  obtain ⟨found', hfound', hsame⟩ :=
    List.perm_comp_forall₂ hperm (mapM_eq_ok_iff.mp hfound)
  refine ⟨found'.reduceOption, ?_, ?_⟩
  · rw [entriesOf, mapM_eq_ok_iff.mpr hfound']
    rfl
  · exact hsame.filterMap id

/-- The entry of a log's first row comes first. -/
theorem entriesOf_cons {row : LogRow} {rows : List LogRow} {e : Entry} {es : List Entry}
    (hrow : entryOf o row = .ok (some e)) (hes : entriesOf o (row :: rows) = .ok es) :
    ∃ rest, es = e :: rest := by
  obtain ⟨found, hfound, hes⟩ := bind_eq_ok.mp hes
  cases hes
  cases mapM_eq_ok_iff.mp hfound with
  | @cons _ first _ rest hfirst _ =>
    obtain rfl := Except.ok.inj (hfirst.symm.trans hrow)
    exact ⟨rest.reduceOption, rfl⟩

/-! ## The loop -/

/-- The record that a readable entry becomes. -/
def Entry.stored (o : Surroundings) (runId : String) (e : Entry) (seq : ℕ) : CollectedRecord where
  queryId := e.queryId seq
  runId := runId
  actor := actorOf e.person e.actor
  actorType := e.actor
  nodeId := e.nodeId o
  startedAt := (o.fromIso e.sim).getD 0
  sqlText := ((redact o.classes e.redacted).toOption).getD []
  rowsScanned := e.readRows
  bytesScanned := e.readBytes
  writtenRows := e.writtenRows
  queryKind := e.kind
  tables := e.own

/-- It depends on what the entry is sorted by, and on its node. -/
theorem stored_congr {e e' : Entry} (hkey : e.key = e'.key) (hnode : e.nodeId o = e'.nodeId o)
    (seq : ℕ) : e.stored o runId seq = e'.stored o runId seq := by
  obtain ⟨hsim, hactor, -, hperson, hkind, hredacted, hbytes, hrows, hwritten, hown⟩ :=
    key_eq_iff.mp hkey
  simp only [Entry.stored, Entry.queryId, hsim, hactor, hperson, hkind, hredacted, hbytes, hrows,
    hwritten, hown, hnode]

/-- How many records of an entry's kind of work and time there are. -/
def seqOf (counters : List ((String × String) × ℕ)) (e : Entry) : ℕ :=
  (counters.lookup (e.sim, e.actor)).getD 0

/-- The records of the billed entries, numbered in their order. -/
def numbered (o : Surroundings) (runId : String) :
    List ((String × String) × ℕ) → List Entry → List CollectedRecord
  | _, [] => []
  | counters, e :: es => e.stored o runId (seqOf counters e) ::
      numbered o runId (setItem counters ((e.sim, e.actor), seqOf counters e + 1)) es

/-- A statement that can be redacted is parsed, and the records stay. -/
theorem exists_parse (log : QueryLog) {raw key : List Char}
    (hkey : redact o.classes raw = .ok key) :
    ∃ parsed log', log.parse o raw = .ok (parsed, log') ∧ log'.records = log.records := by
  cases hcache : log.cache.lookup key with
  | none =>
    refine ⟨o.parseQuery raw, { log with cache := setItem log.cache (key, o.parseQuery raw) },
      bind_eq_ok.mpr ⟨key, ?_, ?_⟩, rfl⟩
    · rw [hkey]
      rfl
    · rw [hcache]
      rfl
  | some parsed =>
    refine ⟨parsed, log, bind_eq_ok.mpr ⟨key, ?_, ?_⟩, rfl⟩
    · rw [hkey]
      rfl
    · rw [hcache]
      rfl

/-- Adding a record keeps it, its text redacted once more. -/
theorem exists_add (log : QueryLog) (record : CollectedRecord) {rawSql : Option (List Char)}
    {text : List Char} (hredact : redact o.classes record.sqlText = .ok text)
    (hraw : ∀ raw ∈ rawSql, ∃ key, redact o.classes raw = .ok key) :
    ∃ log', log.add o record rawSql = .ok log' ∧
      log'.records = log.records ++ [{ record with sqlText := text }] := by
  have hstored : (redact o.classes record.sqlText).mapError CollectError.redaction = .ok text := by
    rw [hredact]
    rfl
  cases rawSql with
  | none => exact ⟨_, bind_eq_ok.mpr ⟨log, rfl, bind_eq_ok.mpr ⟨text, hstored, rfl⟩⟩, rfl⟩
  | some raw =>
    obtain ⟨key, hkey⟩ := hraw raw rfl
    obtain ⟨parsed, log', hparse, hsame⟩ := exists_parse log hkey
    refine ⟨_, bind_eq_ok.mpr ⟨(parsed, log'), hparse,
      bind_eq_ok.mpr ⟨_, rfl, bind_eq_ok.mpr ⟨text, hstored, rfl⟩⟩⟩, ?_⟩
    show log'.records ++ _ = _
    rw [hsame]

/-- **One entry**: a billed one becomes the next record of its kind of work and time. -/
theorem collectEntry_billed (runId : String) (state : Collecting) {e : Entry}
    (hbilled : e.billed = true) (hfaithful : e.Faithful o) (hreadable : e.Readable o) :
    ∃ state', collectEntry o runId state e = .ok state' ∧
      state'.log.records = state.log.records ++ [e.stored o runId (seqOf state.counters e)] ∧
      state'.counters =
        setItem state.counters ((e.sim, e.actor), seqOf state.counters e + 1) := by
  obtain ⟨⟨time, htime⟩, text, htext⟩ := hreadable
  -- The raw text is parsed for people only; it has been redacted once, so it can be.
  have hraw : ∀ raw ∈ (if e.actor = "dashboard" ∨ e.actor = "adhoc" then some e.text else none),
      ∃ key, redact o.classes raw = .ok key := by
    intro raw hraw
    split at hraw
    · cases hraw
      exact ⟨e.redacted, hfaithful.redacted⟩
    · cases hraw
  rw [collectEntry, hbilled]
  simp only [Bool.not_true, Bool.false_eq_true, if_false, htime]
  obtain ⟨log', hadd, hrecords⟩ := exists_add state.log
    { queryId := e.queryId (seqOf state.counters e)
      runId := runId
      actor := actorOf (tagGet e.tag "person") e.actor
      actorType := e.actor
      nodeId := e.nodeId o
      startedAt := time
      sqlText := e.redacted
      rowsScanned := e.readRows
      bytesScanned := e.readBytes
      writtenRows := e.writtenRows
      queryKind := e.kind
      tables := e.own } htext hraw
  refine ⟨_, bind_eq_ok.mpr ⟨time, rfl, bind_eq_ok.mpr ⟨log', hadd, rfl⟩⟩, ?_, rfl⟩
  rw [hrecords, hfaithful.person, Entry.stored, htime, htext]
  rfl

/-- **The loop**: the billed entries become records in their order. -/
theorem foldlM_collectEntry (runId : String) {es : List Entry} (hfaithful : ∀ e ∈ es, e.Faithful o)
    (hreadable : ∀ e ∈ es.filter Entry.billed, e.Readable o) (state : Collecting) :
    ∃ state', es.foldlM (collectEntry o runId) state = .ok state' ∧
      state'.log.records =
        state.log.records ++ numbered o runId state.counters (es.filter Entry.billed) := by
  induction es generalizing state with
  | nil => exact ⟨state, rfl, by simp [numbered]⟩
  | cons e es ih =>
    have hfaithful' : ∀ e ∈ es, e.Faithful o := fun e he => hfaithful e (List.mem_cons_of_mem _ he)
    cases hbilled : e.billed with
    | false =>
      rw [List.filter_cons_of_neg (by simp [hbilled])] at hreadable ⊢
      -- A statement that is not billed is only counted.
      have hcounted : collectEntry o runId state e =
          .ok { state with log := { state.log with unbilled := state.log.unbilled + 1 } } := by
        simp [collectEntry, hbilled]
      obtain ⟨state', hrest, hrecords⟩ := ih hfaithful' hreadable _
      exact ⟨state', bind_eq_ok.mpr ⟨_, hcounted, hrest⟩, hrecords⟩
    | true =>
      rw [List.filter_cons_of_pos hbilled] at hreadable ⊢
      obtain ⟨next, hnext, hadded, hcounters⟩ := collectEntry_billed runId state hbilled
        (hfaithful e List.mem_cons_self) (hreadable e List.mem_cons_self)
      obtain ⟨state', hrest, hrecords⟩ := ih hfaithful'
        (fun e he => hreadable e (List.mem_cons_of_mem _ he)) next
      refine ⟨state', bind_eq_ok.mpr ⟨next, hnext, hrest⟩, ?_⟩
      rw [hrecords, hadded, hcounters, List.append_assoc]
      rfl

/-- The billed entries in the order they are numbered in. -/
def ordered (es : List Entry) : List Entry :=
  (sortBy Entry.key es).filter Entry.billed

theorem ordered_perm (es : List Entry) : (ordered es).Perm (es.filter Entry.billed) :=
  (perm_sortBy Entry.key es).filter Entry.billed

theorem pairwise_ordered (es : List Entry) :
    (ordered es).Pairwise fun a b => a.key ≤ b.key :=
  (pairwise_sortBy Entry.key es).filter Entry.billed

/-- The collection of a readable log. -/
theorem recordsOf_eq {rows : List LogRow} {es : List Entry} (hes : entriesOf o rows = .ok es)
    (hreadable : ∀ e ∈ es.filter Entry.billed, e.Readable o) :
    recordsOf o runId rows = .ok (numbered o runId [] (ordered es)) := by
  obtain ⟨state, hloop, hrecords⟩ := foldlM_collectEntry runId
    (fun e (he : e ∈ sortBy Entry.key es) => faithful_of_mem hes (mem_sortBy.mp he))
    (fun e he => hreadable e ((ordered_perm es).mem_iff.mp he)) {}
  have hlog : clickhouseRecords o runId rows = .ok state.log :=
    bind_eq_ok.mpr ⟨es, hes, bind_eq_ok.mpr ⟨state, hloop, rfl⟩⟩
  rw [recordsOf, hlog]
  exact congrArg Except.ok hrecords

/-! ## Ties -/

theorem numbered_congr {es es' : List Entry}
    (h : es.map (fun e => (e.key, e.nodeId o)) = es'.map fun e => (e.key, e.nodeId o))
    (counters : List ((String × String) × ℕ)) :
    numbered o runId counters es = numbered o runId counters es' := by
  induction es generalizing es' counters with
  | nil =>
    obtain rfl := List.map_eq_nil_iff.mp h.symm
    rfl
  | cons e es ih =>
    obtain ⟨e', es', rfl, hfirst, hrest⟩ := List.map_eq_cons_iff.mp h.symm
    obtain ⟨hkey, hnode⟩ := Prod.mk.inj hfirst
    obtain ⟨hsim, hactor, -⟩ := key_eq_iff.mp hkey
    have hseq : seqOf counters e' = seqOf counters e := by
      rw [seqOf, seqOf, hsim, hactor]
    rw [numbered, numbered, stored_congr hkey hnode, hseq, hsim, hactor, ih hrest.symm]

theorem map_nodeId_numbered (runId : String) (counters : List ((String × String) × ℕ))
    (es : List Entry) :
    (numbered o runId counters es).map CollectedRecord.nodeId = es.map (Entry.nodeId o) := by
  induction es generalizing counters with
  | nil => rfl
  | cons e es ih => exact congrArg _ (ih _)

/-- The order of the keys does not depend on the order of the log. -/
theorem map_key_ordered {es es' : List Entry}
    (hperm : (es.filter Entry.billed).Perm (es'.filter Entry.billed)) :
    (ordered es).map Entry.key = (ordered es').map Entry.key := by
  have hsorted : ∀ es, ((ordered es).map Entry.key).Pairwise (· ≤ ·) := fun es =>
    List.pairwise_map.mpr (pairwise_ordered es)
  refine List.Perm.eq_of_pairwise (fun a b _ _ hab hba => le_antisymm hab hba) (hsorted es)
    (hsorted es') ?_
  exact (((ordered_perm es).trans hperm).trans (ordered_perm es').symm).map Entry.key

/-- Entries with one key stay in the order of the log. -/
theorem filter_ordered (es : List Entry) (e : Entry) :
    (ordered es).filter (fun x => x.key = e.key) =
      (es.filter Entry.billed).filter fun x => x.key = e.key := by
  rw [ordered, List.filter_filter, List.filter_filter]
  apply filter_sortBy
  intro a _ b _ ha hb
  simp only [Bool.and_eq_true, decide_eq_true_eq] at ha hb
  exact ha.1.trans hb.1.symm

/-- Two logs of the same work have entries of one key and different nodes in one order. -/
theorem map_key_nodeId_ordered {es es' : List Entry}
    (hperm : (es.filter Entry.billed).Perm (es'.filter Entry.billed))
    (hties : ∀ e ∈ es.filter Entry.billed, ∀ e' ∈ es.filter Entry.billed, e.key = e'.key →
      e.nodeId o = e'.nodeId o) :
    (ordered es).map (fun e => (e.key, e.nodeId o)) =
      (ordered es').map fun e => (e.key, e.nodeId o) := by
  have hsame := ((ordered_perm es).trans hperm).trans (ordered_perm es').symm
  have hsorted : ∀ es, ((ordered es).map fun e => (e.key, e.nodeId o)).Pairwise
      fun a b => a.1 ≤ b.1 := fun es => List.pairwise_map.mpr (pairwise_ordered es)
  refine List.Perm.eq_of_pairwise ?_ (hsorted es) (hsorted es')
    (hsame.map fun e => (e.key, e.nodeId o))
  intro a b ha hb hab hba
  obtain ⟨e, he, rfl⟩ := List.mem_map.mp ha
  obtain ⟨e', he', rfl⟩ := List.mem_map.mp hb
  -- In each other's place, two entries have one key, and so one node.
  have hkey : e.key = e'.key := le_antisymm hab hba
  have hbefore := (ordered_perm es).mem_iff.mp he
  have hafter := (ordered_perm es).mem_iff.mp (hsame.mem_iff.mpr he')
  rw [hkey, hties e hbefore e' hafter hkey]

/-- If the records of two orders of a log are the same, the entries that tie name the nodes in
one order. -/
theorem map_nodeId_ties {es es' : List Entry}
    (hperm : (es.filter Entry.billed).Perm (es'.filter Entry.billed))
    (hrecords : numbered o runId [] (ordered es) = numbered o runId [] (ordered es')) (e : Entry) :
    ((es.filter Entry.billed).filter fun x => x.key = e.key).map (Entry.nodeId o) =
      ((es'.filter Entry.billed).filter fun x => x.key = e.key).map (Entry.nodeId o) := by
  have hnodes : (ordered es).map (Entry.nodeId o) = (ordered es').map (Entry.nodeId o) := by
    rw [← map_nodeId_numbered runId [], hrecords, map_nodeId_numbered]
  have hpairs : (ordered es).map (fun e => (e.key, e.nodeId o)) =
      (ordered es').map fun e => (e.key, e.nodeId o) := by
    rw [← List.zip_map', ← List.zip_map', map_key_ordered hperm, hnodes]
  have hof : ∀ es, ((es.filter Entry.billed).filter fun x => x.key = e.key).map (Entry.nodeId o) =
      (((ordered es).map fun e => (e.key, e.nodeId o)).filter fun x => x.1 = e.key).map
        Prod.snd := by
    intro es
    rw [← filter_ordered, List.filter_map, List.map_map]
    rfl
  rw [hof, hof, hpairs]

/-! ## The main result -/

/-- Entries that tie have one node, unless they are dbt's and their texts name different ones. -/
theorem nodeId_eq_iff {e e' : Entry} (hkey : e.key = e'.key) :
    e.nodeId o = e'.nodeId o ↔
      (e.actor = "dbt" → nodeIdFromComment o e.text = nodeIdFromComment o e'.text) := by
  obtain ⟨-, hactor, hsubject, -⟩ := key_eq_iff.mp hkey
  rw [Entry.nodeId, Entry.nodeId, ← hactor, ← hsubject]
  split
  · rename_i hdbt
    simp [hdbt]
  · rename_i hdbt
    simp [hdbt]

/-- A log in another order, with the row of one of its entries first. -/
theorem exists_front {rows : List LogRow} {es : List Entry} {e : Entry}
    (hes : entriesOf o rows = .ok es) (he : e ∈ es) :
    ∃ rows' rest, entriesOf o rows' = .ok (e :: rest) ∧ (e :: rest).Perm es := by
  obtain ⟨found, hfound, hreduce⟩ := bind_eq_ok.mp hes
  cases hreduce
  obtain ⟨row, hrow, hentry⟩ :=
    exists_preimage_of_mem hfound (List.reduceOption_mem_iff.mp he)
  obtain ⟨before, after, rfl⟩ := List.append_of_mem hrow
  obtain ⟨es', hes', hperm⟩ := entriesOf_perm List.perm_middle.symm hes
  obtain ⟨rest, rfl⟩ := entriesOf_cons hentry hes'
  exact ⟨_, rest, hes', hperm⟩

/-- **The same records**: a log whose collection raises nothing is collected as every log of the
same work is, exactly if no two billed statements of dbt that tie in the order name different
nodes. -/
theorem collectsSame_iff {rows : List LogRow} (hreadable : Readable o rows) :
    CollectsSame o runId rows ↔ Unambiguous o rows := by
  obtain ⟨es, hes, hread⟩ := hreadable
  constructor
  · intro hsame es' hes' e he e' he' hdbt hkey
    obtain rfl := Except.ok.inj (hes.symm.trans hes')
    -- Two orders of the log, one with the first of the entries in front and one with the other.
    have hnodes : ∀ x ∈ es.filter Entry.billed, x.key = e.key →
        (((es.filter Entry.billed).filter fun y => y.key = e.key).map (Entry.nodeId o)).head? =
          some (x.nodeId o) := by
      intro x hx hxkey
      obtain ⟨rows', rest, hrows', hperm⟩ := exists_front hes (List.mem_of_mem_filter hx)
      have hbilled := hperm.filter Entry.billed
      have hrecords := hsame rows' ⟨es, _, hes, hrows', hbilled.symm⟩
      rw [recordsOf_eq hes hread, recordsOf_eq hrows' fun y hy =>
        hread y (hbilled.mem_iff.mp hy)] at hrecords
      have hties := map_nodeId_ties hbilled (Except.ok.inj hrecords) e
      rw [← hties, List.filter_cons_of_pos (List.mem_filter.mp hx).2,
        List.filter_cons_of_pos (by simpa using hxkey)]
      rfl
    have hfirst := hnodes e he rfl
    rw [hnodes e' he' hkey.symm, Option.some.injEq] at hfirst
    exact ((nodeId_eq_iff hkey).mp hfirst.symm) hdbt
  · intro hties rows' hwork
    obtain ⟨es₁, es', hes₁, hes', hperm⟩ := hwork
    obtain rfl := Except.ok.inj (hes.symm.trans hes₁)
    rw [recordsOf_eq hes hread, recordsOf_eq hes' fun e he => hread e (hperm.mem_iff.mpr he)]
    refine congrArg Except.ok (numbered_congr (map_key_nodeId_ordered hperm ?_) []).symm
    intro e he e' he' hkey
    exact (nodeId_eq_iff hkey).mpr fun hdbt => hties es hes e he e' he' hdbt hkey

/-! ## Two logs -/

/-- The tag of a run's dbt statements on one morning. -/
def morningTag : List Char :=
  "\x7b\"actor\": \"dbt\", \"run\": \"r1\", \"sim\": \"2026-03-02T00:00:00\"\x7d".toList

/-- A comment's object that names a node. -/
def nodePayload (node : String) : List Char :=
  "\x7b\"unique_id\": \"".toList ++ node.toList ++ "\"\x7d".toList

/-- The libraries, on the texts of these logs. -/
def morning : Surroundings where
  classes := .ascii
  space c := c == ' '
  loads text :=
    if text = morningTag then
      some (.object [("actor", .text "dbt"), ("run", .text "r1"),
        ("sim", .text "2026-03-02T00:00:00")])
    else (["model.a", "model.b"].find? fun node => text = nodePayload node).map fun node =>
      .object [("unique_id", .text node)]
  fromIso text :=
    if text = "2026-03-02T00:00:00" then some (Duration.hours (24 * 20514)) else none
  parseQuery _ := []

/-- A statement of dbt that ends in the comment dbt appends. -/
def commented (node : String) : LogRow :=
  ⟨morningTag, "Select", "select 1 /* ".toList ++ nodePayload node ++ " */".toList, 1, 8, 0, []⟩

/-- A statement of dbt that quotes such a comment. -/
def quoted (node : String) : LogRow :=
  ⟨morningTag, "Select", "select '/* ".toList ++ nodePayload node ++ " */'".toList, 1, 8, 0, []⟩

/-- Its entry, redacted to a text. -/
def entryAs (redacted : String → List Char) (row : String → LogRow) (node : String) : Entry where
  sim := "2026-03-02T00:00:00"
  actor := "dbt"
  subject := ""
  person := ""
  kind := "Select"
  redacted := redacted node
  readBytes := 8
  readRows := 1
  writtenRows := 0
  own := []
  readsOnlySystem := false
  text := (row node).query
  tag := [("actor", "dbt"), ("run", "r1"), ("sim", "2026-03-02T00:00:00")]

def commentedEntry : String → Entry :=
  entryAs (fun node => "select ? /* ".toList ++ nodePayload node ++ " */".toList) commented

def quotedEntry : String → Entry :=
  entryAs (fun _ => "select ?".toList) quoted

theorem collectsSame_commented :
    CollectsSame morning "r1" [commented "model.b", commented "model.a"] := by
  have hes : entriesOf morning [commented "model.b", commented "model.a"] =
      .ok [commentedEntry "model.b", commentedEntry "model.a"] := by decide +kernel
  have hbilled : [commentedEntry "model.b", commentedEntry "model.a"].filter Entry.billed =
      [commentedEntry "model.b", commentedEntry "model.a"] := by decide +kernel
  refine (collectsSame_iff ⟨_, hes, ?_⟩).mpr fun es' hes' => ?_
  · intro e he
    rw [hbilled] at he
    refine ⟨⟨Duration.hours (24 * 20514), ?_⟩, e.redacted, ?_⟩
    · revert e
      decide +kernel
    · revert e
      decide +kernel
  · obtain rfl := Except.ok.inj (hes.symm.trans hes')
    rw [hbilled]
    decide +kernel

/-- The texts of the literals are no part of the order: the two statements tie, and name different
nodes. -/
theorem not_collectsSame_quoted :
    ¬ CollectsSame morning "r1" [quoted "model.a", quoted "model.b"] := by
  intro hsame
  have hwork : SameWork morning [quoted "model.a", quoted "model.b"]
      [quoted "model.b", quoted "model.a"] := by
    refine ⟨[quotedEntry "model.a", quotedEntry "model.b"],
      [quotedEntry "model.b", quotedEntry "model.a"], ?_, ?_, ?_⟩
    · decide +kernel
    · decide +kernel
    · exact (List.Perm.swap _ _ []).filter Entry.billed
  have hrecords := hsame _ hwork
  revert hrecords
  decide +kernel

end PlatformOps.Cost.Collection
