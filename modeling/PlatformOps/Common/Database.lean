import PlatformOps.Library.Fallible
import PlatformOps.Library.Transactions

/-!
# Writing the Ops Tables

What the modules find is stored in tables of the `ops` schema, in DuckDB (`common.db`) and
in Postgres (`common.store`). A table is replaced as a whole, in one transaction; inside
an outer one the replacement joins it.

What an engine lets into a table is its own business: whether it reads a table's
definition, and whether rows may join those that are there.

- `insert_chunks`: the statements of `insert_rows` together insert the rows, in order.
- `readers_see_whole_tables`: however replacements are nested in transactions, a reader sees
  a table as it was or as one of them makes it, as long as no error is caught inside a
  transaction: what was done before it would be committed.
- `store_replaced_together`: the tables of one run of `open_store` are replaced together.
-/

namespace PlatformOps

open Transactions

/-- A row, as the columns it was inserted under say. -/
abbrev StoredRow (ν : Type) := List (String × ν)

structure StoredTable (ν : Type) where
  ddl : String
  rows : List (StoredRow ν) := []

/-- The tables of the `ops` schema. -/
abbrev OpsSchema (ν : Type) := String → Option (StoredTable ν)

/-- What a database engine accepts. -/
structure OpsEngine (ν ε : Type) where
  create : String → Except ε Unit
  insert : StoredTable ν → List (StoredRow ν) → Except ε Unit
  /-- A transaction inside another one. -/
  nested : ε
  noTable : String → ε
  /-- A statement that is not as long as its values. -/
  malformed : ε

/-- A table to write. -/
structure Replacement (ν : Type) where
  name : String
  ddl : String
  columns : List String
  rows : List (List ν)

namespace OpsEngine

variable {ν ε : Type} (engine : OpsEngine ν ε)

/-- `CREATE OR REPLACE TABLE ops.name (ddl)`. -/
def createOrReplace (name ddl : String) (db : OpsSchema ν) : Except ε (OpsSchema ν) := do
  engine.create ddl
  return Function.update db name (some { ddl := ddl })

/-- Rows join a table. -/
def insertInto (name : String) (rows : List (StoredRow ν)) (db : OpsSchema ν) :
    Except ε (OpsSchema ν) :=
  match db name with
  | none => .error (engine.noTable name)
  | some table => do
    engine.insert table rows
    return Function.update db name (some { table with rows := table.rows ++ rows })

/-- The values of a statement, `width` of them a row. -/
def rowsOf (columns : List String) (count : ℕ) (values : List ν) : List (StoredRow ν) :=
  (List.range count).map fun i =>
    columns.zip ((values.drop (columns.length * i)).take columns.length)

/-- `INSERT INTO name (columns) VALUES …`, with `count` rows of placeholders. -/
def insertStatement (name : String) (columns : List String) (count : ℕ) (values : List ν)
    (db : OpsSchema ν) : Except ε (OpsSchema ν) :=
  if columns = [] ∨ values.length ≠ columns.length * count then .error engine.malformed
  else engine.insertInto name (rowsOf columns count values) db

end OpsEngine

/-- `_INSERT_CHUNK_ROWS`. -/
def insertChunkRows : ℕ := 1000

/-- `rows[start : start + _INSERT_CHUNK_ROWS]`, for each start. -/
def insertChunks {α : Type} (rows : List α) : List (List α) :=
  (List.range ((rows.length + insertChunkRows - 1) / insertChunkRows)).map fun i =>
    (rows.drop (insertChunkRows * i)).take insertChunkRows

namespace OpsEngine

variable {ν ε : Type} (engine : OpsEngine ν ε)

/-- A statement for each of these lists of rows. -/
def insertEach (name : String) (columns : List String) (chunks : List (List (List ν)))
    (rest : Block (OpsSchema ν) ε) : Block (OpsSchema ν) ε :=
  chunks.foldr (fun chunk rest =>
    .execute (engine.insertStatement name columns chunk.length chunk.flatten) rest) rest

/-- `insert_rows`. -/
def insertRows (name : String) (columns : List String) (rows : List (List ν))
    (rest : Block (OpsSchema ν) ε) : Block (OpsSchema ν) ε :=
  engine.insertEach name columns (insertChunks rows) rest

/-- `executemany`: a statement for each row. -/
def executemany (name : String) (columns : List String) (rows : List (List ν))
    (rest : Block (OpsSchema ν) ε) : Block (OpsSchema ν) ε :=
  engine.insertEach name columns (rows.map fun row => [row]) rest

/-- `replace_table`. -/
def replaceTable (t : Replacement ν) (rest : Block (OpsSchema ν) ε) : Block (OpsSchema ν) ε :=
  .transaction
    (.execute (engine.createOrReplace t.name t.ddl)
      (engine.insertRows t.name t.columns t.rows .done))
    rest

/-- `persist_ownership` and `persist_edges`. -/
def persistTable (t : Replacement ν) (rest : Block (OpsSchema ν) ε) : Block (OpsSchema ν) ε :=
  .transaction
    (.execute (engine.createOrReplace t.name t.ddl)
      (if t.rows = [] then .done else engine.executemany t.name t.columns t.rows .done))
    rest

/-- `DROP TABLE IF EXISTS`. -/
def dropTable (name : String) (db : OpsSchema ν) : Except ε (OpsSchema ν) :=
  .ok (Function.update db name none)

/-- `COPY name (columns) FROM STDIN`, a row at a time. -/
def copyRows (name : String) (columns : List String) (rows : List (List ν))
    (db : OpsSchema ν) : Except ε (OpsSchema ν) :=
  if ∀ row ∈ rows, row.length = columns.length then
    engine.insertInto name (rows.map columns.zip) db
  else .error engine.malformed

/-- `replace_ops_table`, inside the caller's transaction. -/
def replaceOpsTable (t : Replacement ν) (rest : Block (OpsSchema ν) ε) :
    Block (OpsSchema ν) ε :=
  .execute (dropTable t.name) <| .execute (engine.createOrReplace t.name t.ddl) <|
    if t.rows = [] then rest else .execute (engine.copyRows t.name t.columns t.rows) rest

/-- `with open_store(settings)`: what is done inside is one transaction. -/
def openStore (body : Block (OpsSchema ν) ε) : Block (OpsSchema ν) ε :=
  .transaction body .done

/-- `replace_ops_table` for one table after the other. -/
def replaceOpsTables (tables : List (Replacement ν)) : Block (OpsSchema ν) ε :=
  tables.foldr engine.replaceOpsTable .done

/-- One run of `open_store` that replaces these tables. -/
def storeTables (tables : List (Replacement ν)) (c : Connection (OpsSchema ν)) :
    Except ε Unit × Connection (OpsSchema ν) :=
  (openStore (engine.replaceOpsTables tables)).run engine.nested c

end OpsEngine

/-! ## The chunks -/

section Chunks

variable {α : Type}

theorem flatten_range_take (n : ℕ) (l : List α) (k : ℕ) :
    ((List.range k).map fun i => (l.drop (n * i)).take n).flatten = l.take (n * k) := by
  induction k with
  | zero => simp
  | succ k ih =>
    rw [List.range_succ, List.map_append, List.flatten_append, ih, Nat.mul_succ, List.take_add]
    simp

/-- **The chunks are the rows**, in order, and none is longer than a statement may be. -/
theorem insert_chunks (rows : List α) :
    (insertChunks rows).flatten = rows ∧
      ∀ chunk ∈ insertChunks rows, chunk.length ≤ insertChunkRows := by
  constructor
  · rw [insertChunks, flatten_range_take]
    apply List.take_of_length_le
    rw [insertChunkRows]
    omega
  · intro chunk hchunk
    obtain ⟨i, -, rfl⟩ := List.mem_map.mp hchunk
    exact List.length_take_le ..

/-- The values of rows as wide as their columns are read back as those rows. -/
theorem rowsOf_flatten {columns : List String} {rows : List (List α)}
    (h : ∀ row ∈ rows, row.length = columns.length) :
    rows.flatten.length = columns.length * rows.length ∧
      OpsEngine.rowsOf columns rows.length rows.flatten = rows.map columns.zip := by
  induction rows with
  | nil => exact ⟨rfl, rfl⟩
  | cons row rows ih =>
    obtain ⟨hrow, hrows⟩ := List.forall_mem_cons.mp h
    obtain ⟨hlength, hzip⟩ := ih hrows
    constructor
    · rw [List.flatten_cons, List.length_append, hlength, hrow, List.length_cons]
      ring
    · rw [List.map_cons, ← hzip, OpsEngine.rowsOf, OpsEngine.rowsOf, List.length_cons,
        List.range_succ_eq_map, List.map_cons, List.map_map, List.flatten_cons]
      congr 1
      · rw [Nat.mul_zero, List.drop_zero, ← hrow, List.take_left]
      · refine List.map_congr_left fun i _ => ?_
        rw [Function.comp_apply, Nat.mul_succ, Nat.add_comm, ← hrow, List.drop_append,
          List.drop_of_length_le (by omega), List.nil_append, Nat.add_sub_cancel_left]

end Chunks

/-! ## A replacement, as a whole -/

namespace OpsEngine

variable {ν ε : Type} (engine : OpsEngine ν ε) {t : Replacement ν} {db : OpsSchema ν}
  {rest : Block (OpsSchema ν) ε}

/-- Rows that join a table in parts, one after the other. -/
def fill (table : StoredTable ν) : List (List (StoredRow ν)) → Except ε (StoredTable ν)
  | [] => .ok table
  | part :: parts => do
    engine.insert table part
    fill { table with rows := table.rows ++ part } parts

theorem fill_eq_ok {table table' : StoredTable ν} {parts : List (List (StoredRow ν))}
    (h : engine.fill table parts = .ok table') :
    table' = { table with rows := table.rows ++ parts.flatten } := by
  induction parts generalizing table with
  | nil =>
    obtain rfl := Except.ok.inj h
    simp
  | cons part parts ih =>
    obtain ⟨-, -, hrest⟩ := Fallible.bind_eq_ok.mp h
    rw [ih hrest, List.flatten_cons, List.append_assoc]

theorem insertStatement_eq {table : StoredTable ν} (hcolumns : t.columns ≠ [])
    {chunk : List (List ν)} (hwidth : ∀ row ∈ chunk, row.length = t.columns.length)
    (htable : db t.name = some table) :
    engine.insertStatement t.name t.columns chunk.length chunk.flatten db =
      engine.insert table (chunk.map t.columns.zip) >>= fun _ =>
        .ok (Function.update db t.name
          (some { table with rows := table.rows ++ chunk.map t.columns.zip })) := by
  obtain ⟨hlength, hrows⟩ := rowsOf_flatten hwidth
  have hwell : ¬ (t.columns = [] ∨ chunk.flatten.length ≠ t.columns.length * chunk.length) := by
    simp [hcolumns, hlength]
  rw [insertStatement, if_neg hwell, hrows, insertInto, htable]
  rfl

/-- Inserting rows in parts is filling the table with them. -/
theorem plain_insertEach {table : StoredTable ν} (hcolumns : t.columns ≠ [])
    (chunks : List (List (List ν)))
    (hwidth : ∀ chunk ∈ chunks, ∀ row ∈ chunk, row.length = t.columns.length)
    (htable : db t.name = some table) :
    (engine.insertEach t.name t.columns chunks rest).plain db =
      engine.fill table (chunks.map fun chunk => chunk.map t.columns.zip) >>= fun table' =>
        rest.plain (Function.update db t.name (some table')) := by
  induction chunks generalizing db table with
  | nil =>
    have hsame : Function.update db t.name (some table) = db := by
      rw [← htable, Function.update_eq_self]
    show rest.plain db = rest.plain (Function.update db t.name (some table))
    rw [hsame]
  | cons chunk chunks ih =>
    obtain ⟨hchunk, hchunks⟩ := List.forall_mem_cons.mp hwidth
    rw [insertEach, List.foldr_cons, Block.plain_execute,
      engine.insertStatement_eq hcolumns hchunk htable, List.map_cons, fill]
    cases engine.insert table (chunk.map t.columns.zip) with
    | error e => rfl
    | ok =>
      have hfilled : Function.update db t.name
          (some { table with rows := table.rows ++ chunk.map t.columns.zip }) t.name =
          some { table with rows := table.rows ++ chunk.map t.columns.zip } :=
        Function.update_self ..
      have hnext := ih hchunks hfilled
      simp only [Function.update_idem] at hnext
      exact hnext

end OpsEngine

/-! ## What readers see -/

namespace Replacement

variable {ν : Type} (t : Replacement ν)

/-- The rows are as wide as their columns. -/
structure WellFormed : Prop where
  columns_ne_nil : t.columns ≠ []
  width : ∀ row ∈ t.rows, row.length = t.columns.length

/-- The new table. -/
def table : StoredTable ν where
  ddl := t.ddl
  rows := t.rows.map t.columns.zip

/-- The database with the new table in it. -/
def into (db : OpsSchema ν) : OpsSchema ν :=
  Function.update db t.name (some t.table)

end Replacement

namespace OpsEngine

variable {ν ε : Type} (engine : OpsEngine ν ε) {t : Replacement ν} {db db' : OpsSchema ν}

/-- A table that is created again and filled in parts is the new table. -/
theorem plain_recreated (ht : t.WellFormed) {chunks : List (List (List ν))}
    (hchunks : chunks.flatten = t.rows)
    (h : (Block.execute (engine.createOrReplace t.name t.ddl)
      (engine.insertEach t.name t.columns chunks .done)).plain db = .ok db') :
    db' = t.into db := by
  have hwidth : ∀ chunk ∈ chunks, ∀ row ∈ chunk, row.length = t.columns.length := by
    intro chunk hchunk row hrow
    apply ht.width
    rw [← hchunks]
    exact List.mem_flatten.mpr ⟨chunk, hchunk, hrow⟩
  rw [Block.plain_execute] at h
  obtain ⟨_, hcreate, hinsert⟩ := Fallible.bind_eq_ok.mp h
  obtain ⟨-, -, hempty⟩ := Fallible.bind_eq_ok.mp hcreate
  obtain rfl := Except.ok.inj hempty
  rw [engine.plain_insertEach ht.columns_ne_nil chunks hwidth (Function.update_self ..)] at hinsert
  obtain ⟨table, hfill, hdone⟩ := Fallible.bind_eq_ok.mp hinsert
  obtain rfl := Except.ok.inj hdone
  rw [engine.fill_eq_ok hfill, ← List.map_flatten, hchunks, Function.update_idem, List.nil_append]
  rfl

/-- What `replace_table` and `persist_*` do inside their transaction. -/
theorem plain_replaceTable_body (ht : t.WellFormed)
    (h : (Block.execute (engine.createOrReplace t.name t.ddl)
      (engine.insertRows t.name t.columns t.rows .done)).plain db = .ok db') :
    db' = t.into db :=
  engine.plain_recreated ht (insert_chunks t.rows).1 h

theorem plain_persistTable_body (ht : t.WellFormed)
    (h : (Block.execute (engine.createOrReplace t.name t.ddl)
      (if t.rows = [] then .done
        else engine.executemany t.name t.columns t.rows .done)).plain db = .ok db') :
    db' = t.into db := by
  have hchunks : (t.rows.map fun row => [row]).flatten = t.rows := by
    rw [← List.flatMap_def, List.flatMap_singleton']
  apply engine.plain_recreated ht hchunks
  by_cases hrows : t.rows = []
  · rw [if_pos hrows] at h
    rw [hrows]
    exact h
  · rw [if_neg hrows] at h
    exact h

end OpsEngine

/-- Every table is as it was, or a whole replacement. -/
def WholeTables {ν : Type} (allowed : Set (Replacement ν)) (before after : OpsSchema ν) : Prop :=
  ∀ name, after name = before name ∨
    ∃ t ∈ allowed, t.name = name ∧ after name = some t.table

namespace WholeTables

variable {ν : Type} {allowed : Set (Replacement ν)} {db db' db'' : OpsSchema ν}

theorem refl (db : OpsSchema ν) : WholeTables allowed db db :=
  fun _ => .inl rfl

theorem trans (h : WholeTables allowed db db') (h' : WholeTables allowed db' db'') :
    WholeTables allowed db db'' := by
  intro name
  obtain hkept | hreplaced := h' name
  · rw [hkept]
    apply h
  · exact .inr hreplaced

theorem into {t : Replacement ν} (ht : t ∈ allowed) : WholeTables allowed db (t.into db) := by
  intro name
  by_cases hname : t.name = name
  · subst hname
    exact .inr ⟨t, ht, rfl, Function.update_self ..⟩
  · exact .inl (Function.update_of_ne (Ne.symm hname) ..)

end WholeTables

namespace OpsEngine

variable {ν ε : Type} (engine : OpsEngine ν ε) {t : Replacement ν}

/-- A block that writes tables as a whole only, and catches no error. -/
inductive Replaces (allowed : Set (Replacement ν)) : Block (OpsSchema ν) ε → Prop
  | done : Replaces allowed .done
  | raise (e) : Replaces allowed (.raise e)
  | read {rest} (h : ∀ db, Replaces allowed (rest db)) : Replaces allowed (.read rest)
  | replace {t rest} (ht : t ∈ allowed) (h : Replaces allowed rest) :
      Replaces allowed (engine.replaceTable t rest)
  | persist {t rest} (ht : t ∈ allowed) (h : Replaces allowed rest) :
      Replaces allowed (engine.persistTable t rest)
  | transaction {body rest} (hbody : Replaces allowed body) (h : Replaces allowed rest) :
      Replaces allowed (.transaction body rest)

/-- A block that writes tables as a whole only, and catches errors outside of transactions only. -/
inductive OnlyReplaces (allowed : Set (Replacement ν)) : Block (OpsSchema ν) ε → Prop
  | done : OnlyReplaces allowed .done
  | raise (e) : OnlyReplaces allowed (.raise e)
  | read {rest} (h : ∀ db, OnlyReplaces allowed (rest db)) : OnlyReplaces allowed (.read rest)
  | replace {t rest} (ht : t ∈ allowed) (h : OnlyReplaces allowed rest) :
      OnlyReplaces allowed (engine.replaceTable t rest)
  | persist {t rest} (ht : t ∈ allowed) (h : OnlyReplaces allowed rest) :
      OnlyReplaces allowed (engine.persistTable t rest)
  | transaction {body rest} (hbody : engine.Replaces allowed body)
      (h : OnlyReplaces allowed rest) : OnlyReplaces allowed (.transaction body rest)
  | attempt {body caught rest} (hbody : OnlyReplaces allowed body)
      (hcaught : ∀ e, OnlyReplaces allowed (caught e)) (h : OnlyReplaces allowed rest) :
      OnlyReplaces allowed (.attempt body caught rest)

section Readers

variable {allowed : Set (Replacement ν)} (hwell : ∀ t ∈ allowed, t.WellFormed)
  {b : Block (OpsSchema ν) ε}

include hwell

theorem plain_whole (hb : engine.Replaces allowed b) {db db' : OpsSchema ν}
    (h : b.plain db = .ok db') : WholeTables allowed db db' := by
  induction hb generalizing db db' with
  | done =>
    obtain rfl := Except.ok.inj h
    exact .refl db
  | raise e => cases h
  | read _ ih => exact ih db h
  | replace ht _ ih =>
    rw [replaceTable, Block.plain_transaction] at h
    obtain ⟨_, hbody, hrest⟩ := Fallible.bind_eq_ok.mp h
    obtain rfl := engine.plain_replaceTable_body (hwell _ ht) hbody
    exact (WholeTables.into ht).trans (ih hrest)
  | persist ht _ ih =>
    rw [persistTable, Block.plain_transaction] at h
    obtain ⟨_, hbody, hrest⟩ := Fallible.bind_eq_ok.mp h
    obtain rfl := engine.plain_persistTable_body (hwell _ ht) hbody
    exact (WholeTables.into ht).trans (ih hrest)
  | transaction _ _ ihbody ih =>
    rw [Block.plain_transaction] at h
    obtain ⟨_, hbody, hrest⟩ := Fallible.bind_eq_ok.mp h
    exact (ihbody hbody).trans (ih hrest)

end Readers

/-- What others have seen since a connection was `before`: whole tables. -/
structure SeenWhole (allowed : Set (Replacement ν)) (before c : Connection (OpsSchema ν)) :
    Prop where
  committed : WholeTables allowed before.committed c.committed
  published : ∀ v ∈ c.published, v ∈ before.published ∨ WholeTables allowed before.committed v

section Versions

variable {allowed : Set (Replacement ν)} {before c : Connection (OpsSchema ν)}

theorem SeenWhole.publish (h : SeenWhole allowed before c) {db : OpsSchema ν}
    (hdb : WholeTables allowed c.committed db) : SeenWhole allowed before (c.publish db) where
  committed := h.committed.trans hdb
  published v hv := by
    obtain hseen | hnew := List.mem_append.mp hv
    · exact h.published v hseen
    · obtain rfl := List.mem_singleton.mp hnew
      exact .inr (h.committed.trans hdb)

/-- A transaction that makes whole tables, and a rest that does. -/
theorem SeenWhole.transaction (h : SeenWhole allowed before c) {body rest : Block (OpsSchema ν) ε}
    (hbody : ∀ {db}, body.plain c.committed = .ok db → WholeTables allowed c.committed db)
    (hrest : ∀ {c}, SeenWhole allowed before c → SeenWhole allowed before (rest.outside c).2) :
    SeenWhole allowed before ((Block.transaction body rest).outside c).2 := by
  rw [Block.outside_transaction]
  cases hplain : body.plain c.committed with
  | error e => exact h
  | ok db => exact hrest (h.publish (hbody hplain))

theorem outside_whole (hwell : ∀ t ∈ allowed, t.WellFormed) {b : Block (OpsSchema ν) ε}
    (hb : engine.OnlyReplaces allowed b) (h : SeenWhole allowed before c) :
    SeenWhole allowed before (b.outside c).2 := by
  induction hb generalizing c with
  | done => exact h
  | raise e => exact h
  | read _ ih => exact ih c.committed h
  | replace ht _ ih =>
    refine h.transaction (fun hbody => ?_) ih
    obtain rfl := engine.plain_replaceTable_body (hwell _ ht) hbody
    exact WholeTables.into ht
  | persist ht _ ih =>
    refine h.transaction (fun hbody => ?_) ih
    obtain rfl := engine.plain_persistTable_body (hwell _ ht) hbody
    exact WholeTables.into ht
  | transaction hbody _ ih => exact h.transaction (engine.plain_whole hwell hbody) ih
  | attempt _ _ _ ihbody ihcaught ih =>
    exact andThen_of (recover_of (ihbody h) fun e c => ihcaught e (c := c)) fun c => ih (c := c)

end Versions

/-- **A reader of the warehouse sees whole tables.** However the replacements are nested in
transactions, whatever is read or raised in between, and whatever is caught outside of the
transactions: in every version a reader sees, a table is as it was or as one of the replacements
makes it, and what the engine would say to a transaction inside another one does not matter. -/
theorem readers_see_whole_tables {allowed : Set (Replacement ν)}
    (hwell : ∀ t ∈ allowed, t.WellFormed) {b : Block (OpsSchema ν) ε}
    (hb : engine.OnlyReplaces allowed b) {c : Connection (OpsSchema ν)} (hc : c.Idle) :
    (∀ v ∈ (b.run engine.nested c).2.published,
      v ∈ c.published ∨ WholeTables allowed c.committed v) ∧
    (∀ nested, b.run nested c = b.run engine.nested c) ∧
    (b.run engine.nested c).2.Idle := by
  have hsame := fun nested : ε => (@Block.run_idle _ _ nested b c hc).1
  have hidle := (@Block.run_idle _ _ engine.nested b c hc).2
  rw [hsame engine.nested]
  refine ⟨?_, hsame, hidle⟩
  exact (engine.outside_whole hwell hb ⟨.refl c.committed, fun _ => .inl⟩).published

end OpsEngine

/-- An engine that takes any row once. -/
def everyRowOnce : OpsEngine ℤ String where
  create ddl := if ddl = "" then .error "syntax error" else .ok ()
  insert table rows := if (table.rows ++ rows).Nodup then .ok () else .error "duplicate key"
  nested := "cannot start a transaction within a transaction"
  noTable name := name
  malformed := "syntax error"

def edgesOf (rows : List (List ℤ)) : Replacement ℤ where
  name := "lineage_edges"
  ddl := "parent_id, child_id"
  columns := ["parent_id", "child_id"]
  rows := rows

def ownersOf (rows : List (List ℤ)) : Replacement ℤ where
  name := "node_ownership"
  ddl := "unique_id, owner"
  columns := ["unique_id", "owner"]
  rows := rows

/-- Nothing is stored yet. -/
def emptyOps : Connection (OpsSchema ℤ) where
  committed := fun _ => none

/-- Two tables of one outer transaction, the second with a row twice; the error is caught, and
raised again. -/
def ownersTwice : Block (OpsSchema ℤ) String :=
  .attempt
    (.transaction
      (everyRowOnce.persistTable (edgesOf [[1, 2], [2, 3]])
        (everyRowOnce.replaceTable (ownersOf [[1, 7], [1, 7]]) .done))
      .done)
    .raise .done

namespace OpsEngine

theorem readers_see_whole_tables_owners_twice :
    (ownersTwice.run everyRowOnce.nested emptyOps).1 = .error "duplicate key" ∧
    (∀ v ∈ (ownersTwice.run everyRowOnce.nested emptyOps).2.published, v ∈ emptyOps.published ∨
      WholeTables {edgesOf [[1, 2], [2, 3]], ownersOf [[1, 7], [1, 7]]} emptyOps.committed v) ∧
    (∀ nested, ownersTwice.run nested emptyOps = ownersTwice.run everyRowOnce.nested emptyOps) ∧
    (ownersTwice.run everyRowOnce.nested emptyOps).2.Idle := by
  refine ⟨by decide, readers_see_whole_tables everyRowOnce ?_ ?_ ⟨rfl, rfl⟩⟩
  · rintro t (rfl | rfl)
    · exact ⟨by decide, by decide⟩
    · exact ⟨by decide, by decide⟩
  · exact .attempt (.transaction (.persist (.inl rfl) (.replace (.inr rfl) .done)) .done)
      (fun e => .raise e) .done

end OpsEngine

/-! ## The store -/

namespace Replacement

variable {ν : Type}

/-- The database with all these tables in it, the later ones over the earlier. -/
def intoAll (db : OpsSchema ν) (tables : List (Replacement ν)) : OpsSchema ν :=
  tables.foldl (fun db t => t.into db) db

end Replacement

namespace OpsEngine

variable {ν ε : Type} (engine : OpsEngine ν ε) {t : Replacement ν} {db : OpsSchema ν}
  {rest : Block (OpsSchema ν) ε}

/-- What the engine says to a table of the store. -/
def accept (t : Replacement ν) : Except ε Unit := do
  engine.create t.ddl
  if t.rows = [] then return
  if ∀ row ∈ t.rows, row.length = t.columns.length then
    engine.insert { ddl := t.ddl } t.table.rows
  else .error engine.malformed

/-- A table of the store is replaced, or the engine says why not. -/
theorem plain_replaceOpsTable : (engine.replaceOpsTable t rest).plain db =
    engine.accept t >>= fun _ => rest.plain (t.into db) := by
  rw [replaceOpsTable, Block.plain_execute, dropTable]
  show (Block.execute _ _).plain (Function.update db t.name none) = _
  rw [Block.plain_execute]
  show (engine.create t.ddl >>= _) >>= _ = (engine.create t.ddl >>= _) >>= _
  cases engine.create t.ddl with
  | error e => rfl
  | ok =>
    show (if t.rows = [] then rest
      else .execute (engine.copyRows t.name t.columns t.rows) rest).plain
        (Function.update (Function.update db t.name none) t.name (some { ddl := t.ddl })) = _
    rw [Function.update_idem]
    by_cases hrows : t.rows = []
    · rw [if_pos hrows]
      show _ = (if t.rows = [] then (pure () : Except ε Unit) else _) >>= _
      rw [if_pos hrows, Replacement.into, Replacement.table, hrows]
      rfl
    · rw [if_neg hrows, Block.plain_execute, copyRows]
      show _ = (if t.rows = [] then (pure () : Except ε Unit) else _) >>= _
      rw [if_neg hrows]
      by_cases hwidth : ∀ row ∈ t.rows, row.length = t.columns.length
      · rw [if_pos hwidth, if_pos hwidth, insertInto, Function.update_self]
        show (engine.insert { ddl := t.ddl } (t.rows.map t.columns.zip) >>= _) >>= _ =
          engine.insert { ddl := t.ddl } (t.rows.map t.columns.zip) >>= _
        cases engine.insert { ddl := t.ddl } (t.rows.map t.columns.zip) with
        | error e => rfl
        | ok =>
          show rest.plain (Function.update (Function.update db t.name _) t.name _) = _
          rw [Function.update_idem, List.nil_append]
          rfl
      · rw [if_neg hwidth, if_neg hwidth]
        rfl

theorem plain_replaceOpsTables (tables : List (Replacement ν)) :
    (engine.replaceOpsTables tables).plain db =
      (tables.forM engine.accept).map fun _ => Replacement.intoAll db tables := by
  induction tables generalizing db with
  | nil => rfl
  | cons t tables ih =>
    rw [replaceOpsTables, List.foldr_cons, plain_replaceOpsTable]
    show engine.accept t >>= (fun _ => (engine.replaceOpsTables tables).plain (t.into db)) =
      (engine.accept t >>= fun _ => tables.forM engine.accept).map _
    cases engine.accept t with
    | error e => rfl
    | ok => exact ih

/-- **The tables of one run are replaced together**: once the engine has accepted them all, in
one version, and otherwise readers keep the tables they had. -/
theorem store_replaced_together (tables : List (Replacement ν))
    {c : Connection (OpsSchema ν)} (hc : c.Idle) :
    ((engine.storeTables tables c).1 = .ok () ↔ ∀ t ∈ tables, engine.accept t = .ok ()) ∧
    ((engine.storeTables tables c).1 = .ok () →
      (engine.storeTables tables c).2 =
        c.publish (Replacement.intoAll c.committed tables)) ∧
    ((engine.storeTables tables c).1 ≠ .ok () → (engine.storeTables tables c).2 = c) := by
  rw [← Fallible.forM_eq_ok, storeTables, (Block.run_idle hc).1, openStore,
    Block.outside_transaction, plain_replaceOpsTables]
  cases tables.forM engine.accept with
  | error e =>
    have hne : (.error e : Except ε Unit) ≠ .ok () := by simp
    exact ⟨⟨fun h => absurd h hne, fun h => absurd h hne⟩, fun h => absurd h hne,
      fun _ => rfl⟩
  | ok u => exact ⟨⟨fun _ => rfl, fun _ => rfl⟩, fun _ => rfl, fun h => absurd rfl h⟩

/-- The second of two tables fails. -/
def twoTables : List (Replacement ℤ) :=
  [edgesOf [[1, 2], [2, 3]], ownersOf [[1, 7], [1, 7]]]

theorem store_replaced_together_owners_twice :
    (everyRowOnce.storeTables twoTables emptyOps).1 = .error "duplicate key" ∧
    ((everyRowOnce.storeTables twoTables emptyOps).1 = .ok () ↔
      ∀ t ∈ twoTables, everyRowOnce.accept t = .ok ()) ∧
    ((everyRowOnce.storeTables twoTables emptyOps).1 = .ok () →
      (everyRowOnce.storeTables twoTables emptyOps).2 =
        emptyOps.publish (Replacement.intoAll emptyOps.committed twoTables)) ∧
    ((everyRowOnce.storeTables twoTables emptyOps).1 ≠ .ok () →
      (everyRowOnce.storeTables twoTables emptyOps).2 = emptyOps) :=
  ⟨by decide, everyRowOnce.store_replaced_together _ ⟨rfl, rfl⟩⟩

end OpsEngine

end PlatformOps
