import PlatformOps.Library.Fallible
import PlatformOps.Library.Machine
import PlatformOps.Library.Upgrades

/-!
# The Schema of the Incident Store

The incident store outlives a release: what is in it stays, and its schema is brought up to date.
`incident_schema` records the versions a store has had, and every transaction first applies the
migrations that are missing. A released migration is never edited, so that an older release
knows the first ones of the list.

- `released_migrations`: the list as it is can be applied to an empty store.
- `store_always_migrates`: whatever releases have used a store, in any order, and whatever they
  did in it or failed to do, the next one finds it at a version, brings it to the later of that
  and its own, and keeps every row; as long as no release starts a store anew that is ahead of
  it, for that would leave the tables it does not know.
-/

namespace PlatformOps.Incidents.StoreSchema

open Upgrades Fallible

/-! ## Statements -/

/-- A table: its columns and constraints as they were defined, and its rows. -/
structure StoreTable (ν : Type) where
  columns : List String
  rows : List (List (Option ν)) := []

/-- The tables of the store, and the indexes that were made apart from them. -/
structure Catalog (ν : Type) where
  tables : String → Option (StoreTable ν) := fun _ => none
  /-- An index's name, if it was given one, and its table. -/
  indexes : List (Option String × String) := []

inductive DdlError
  | tableExists (name : String)
  | noTable (name : String)
  | columnExists (table column : String)
  | indexExists (name : String)
deriving DecidableEq, Repr

inductive Ddl
  | createTable (name : String) (columns : List String)
  | createIndex (name : Option String) (table definition : String)
  | addColumn (table column : String)
deriving DecidableEq, Repr

/-- The table a statement is about. -/
def Ddl.table : Ddl → String
  | createTable name _ => name
  | createIndex _ table _ => table
  | addColumn table _ => table

/-- `connection.execute`. -/
def Ddl.run {ν : Type} : Ddl → Catalog ν → Except DdlError (Catalog ν)
  | createTable name columns, db =>
    if (db.tables name).isSome then .error (.tableExists name)
    else .ok { db with tables := Function.update db.tables name (some ⟨columns, []⟩) }
  | createIndex name table _, db =>
    if (db.tables table).isNone then .error (.noTable table)
    else if name.isSome ∧ name ∈ db.indexes.map Prod.fst then .error (.indexExists (name.getD ""))
    else .ok { db with indexes := db.indexes ++ [(name, table)] }
  | addColumn table column, db =>
    match db.tables table with
    | none => .error (.noTable table)
    | some t =>
      if column ∈ t.columns then .error (.columnExists table column)
      else .ok { db with tables := Function.update db.tables table (some
        { columns := t.columns ++ [column], rows := t.rows.map fun row => row ++ [none] }) }

structure Migration where
  version : ℕ
  statements : List Ddl
deriving DecidableEq, Repr

/-- The statements of a migration. -/
def Migration.run {ν : Type} (m : Migration) (db : Catalog ν) : Except DdlError (Catalog ν) :=
  runAll Ddl.run m.statements db

/-- `TABLES`, but for `incident_schema`. -/
def storeTables : List String :=
  ["incident_invocations", "incident_results", "incident_check_events", "incidents",
    "incident_run_links", "incident_notifications", "incident_responses",
    "incident_shared_nodes", "incident_escalations"]

/-- `MIGRATIONS`. -/
def migrations : List Migration :=
  [⟨1,
    [.createTable "incident_invocations"
      ["invocation_id text PRIMARY KEY", "run_id text NOT NULL", "kind text NOT NULL",
        "detected_at timestamp NOT NULL", "checks_run integer NOT NULL",
        "ingested_seq bigserial NOT NULL"],
    .createTable "incident_results"
      ["invocation_id text NOT NULL", "run_id text NOT NULL", "unique_id text NOT NULL",
        "resource_type text NOT NULL", "status text NOT NULL"],
    .createIndex none "incident_results" "(run_id)",
    .createTable "incident_check_events"
      ["invocation_id text NOT NULL", "run_id text NOT NULL", "check_id text NOT NULL",
        "check_type text NOT NULL", "subject text NOT NULL", "status text NOT NULL",
        "message text NOT NULL", "detected_at timestamp NOT NULL", "incident_id text",
        "PRIMARY KEY (run_id, check_id)"],
    .createTable "incidents"
      ["incident_id text PRIMARY KEY", "seq integer NOT NULL UNIQUE", "root text NOT NULL",
        "dataset text NOT NULL", "severity text NOT NULL", "score integer NOT NULL",
        "root_tier text NOT NULL", "owner text NOT NULL", "team text NOT NULL",
        "naive_owner text NOT NULL", "naive_team text NOT NULL", "routed_via text NOT NULL",
        "opened_at timestamp NOT NULL", "opened_by_run text NOT NULL", "resolved_at timestamp",
        "resolved_by_run text", "merged_into text", "previous_incident_id text"],
    -- at most one open incident per root
    .createIndex (some "incidents_one_open_per_root") "incidents"
      "UNIQUE (root) WHERE resolved_at IS NULL AND merged_into IS NULL",
    .createTable "incident_run_links"
      ["incident_id text NOT NULL", "run_id text NOT NULL", "at timestamp NOT NULL",
        "checks integer NOT NULL", "PRIMARY KEY (incident_id, run_id)"],
    .createTable "incident_notifications"
      ["incident_id text NOT NULL", "kind text NOT NULL", "run_id text NOT NULL",
        "recipient text NOT NULL", "team text NOT NULL", "severity text NOT NULL",
        "text text NOT NULL", "sent_at timestamp NOT NULL", "delivered text",
        "PRIMARY KEY (incident_id, kind, run_id)"],
    .createTable "incident_responses"
      ["incident_id text PRIMARY KEY", "acknowledged_at timestamp", "fixed_at timestamp"]]⟩,
  ⟨2,
    [.createTable "incident_shared_nodes"
      ["incident_id text NOT NULL", "run_id text NOT NULL", "node text NOT NULL",
        "PRIMARY KEY (incident_id, run_id, node)"],
    .addColumn "incidents" "paged text",
    .createTable "incident_escalations"
      ["incident_id text NOT NULL", "run_id text NOT NULL", "at timestamp NOT NULL",
        "from_severity text NOT NULL", "to_severity text NOT NULL", "reason text NOT NULL",
        "PRIMARY KEY (incident_id, reason)"]]⟩]

/-- `TABLES` of a release that knows these migrations: those they make. -/
def tablesOf (names : List String) (release : List Migration) : List String :=
  names.filter fun name => release.any fun m => m.statements.any fun s => s.table = name

example : tablesOf storeTables migrations = storeTables := by
  decide

/-! ## The store -/

/-- The store, and the rows of `incident_schema` if there is that table. -/
structure SchemaStore (ν : Type) where
  catalog : Catalog ν := {}
  versions : Option (List ℕ) := none

variable {ν : Type}

/-- `_apply`, of a release that knows these migrations: the version the store was at, and the
store. -/
def applyMigrations (release : List Migration) (db : SchemaStore ν) :
    Except DdlError (ℕ × SchemaStore ν) := do
  let versions := db.versions.getD []
  let (versions', catalog) ← upgrade Migration.version Migration.run release (versions, db.catalog)
  return (current versions, { catalog := catalog, versions := some versions' })

/-- `DROP TABLE IF EXISTS`, for each table. -/
def dropTables (names : List String) (db : Catalog ν) : Catalog ν where
  tables name := if name ∈ names then none else db.tables name
  indexes := db.indexes.filter fun index => index.2 ∉ names

/-- `reset`. -/
def reset (names : List String) (release : List Migration) (db : SchemaStore ν) :
    Except DdlError (SchemaStore ν) :=
  (applyMigrations release { catalog := dropTables names db.catalog }).map Prod.snd

/-! ## Schemas without rows -/

namespace Catalog

/-- The tables without their rows. -/
def bare (db : Catalog ν) : Catalog ν :=
  { db with tables := fun name => (db.tables name).map fun t => { t with rows := [] } }

/-- What was in a table is in it still, with nothing in the columns that are new. -/
def Keeps (db db' : Catalog ν) : Prop :=
  ∀ name t, db.tables name = some t → ∃ t' added, db'.tables name = some t' ∧
    t'.columns = t.columns ++ added ∧
    t'.rows = t.rows.map fun row => row ++ List.replicate added.length none

theorem Keeps.refl (db : Catalog ν) : db.Keeps db :=
  fun _ t ht => ⟨t, [], ht, (List.append_nil _).symm, by simp⟩

theorem Keeps.trans {db db' db'' : Catalog ν} (h : db.Keeps db') (h' : db'.Keeps db'') :
    db.Keeps db'' := by
  intro name t ht
  obtain ⟨t', added, ht', hcolumns, hrows⟩ := h name t ht
  obtain ⟨t'', more, ht'', hcolumns', hrows'⟩ := h' name t' ht'
  refine ⟨t'', added ++ more, ht'', ?_, ?_⟩
  · rw [hcolumns', hcolumns, List.append_assoc]
  · rw [hrows', hrows, List.map_map, List.length_append, List.replicate_add]
    apply List.map_congr_left
    intro row _
    rw [Function.comp_apply, List.append_assoc]

/-- Nothing is there but these tables and their indexes. -/
structure Within (names : List String) (db : Catalog ν) : Prop where
  tables : ∀ name, name ∉ names → db.tables name = none
  indexes : ∀ index ∈ db.indexes, index.2 ∈ names

theorem within_bare {names : List String} {db : Catalog ν} :
    db.bare.Within names ↔ db.Within names := by
  constructor
  · intro h
    exact ⟨fun name hname => Option.map_eq_none_iff.mp (h.tables name hname), h.indexes⟩
  · intro h
    exact ⟨fun name hname => Option.map_eq_none_iff.mpr (h.tables name hname), h.indexes⟩

theorem dropTables_of_within {names : List String} {db : Catalog ν} (h : db.Within names) :
    dropTables names db = {} := by
  have htables : (fun name => if name ∈ names then none else db.tables name) =
      fun _ => (none : Option (StoreTable ν)) := by
    funext name
    by_cases hname : name ∈ names
    · rw [if_pos hname]
    · rw [if_neg hname, h.tables name hname]
  have hindexes : db.indexes.filter (fun index => index.2 ∉ names) = [] := by
    simpa using h.indexes
  rw [dropTables, htables, hindexes]

end Catalog

namespace Ddl

variable {s : Ddl} {db db' : Catalog ν}

/-- A statement does not look at the rows. -/
theorem run_bare (s : Ddl) (db : Catalog ν) : s.run db.bare = (s.run db).map Catalog.bare := by
  have hupdate : ∀ name (t : StoreTable ν),
      (fun name' => (Function.update db.tables name (some t) name').map fun t =>
        { t with rows := [] }) =
      Function.update db.bare.tables name (some { t with rows := [] }) := by
    intro name t
    funext name'
    by_cases hname : name' = name
    · subst hname
      rw [Function.update_self, Function.update_self]
      rfl
    · rw [Function.update_of_ne hname, Function.update_of_ne hname]
      rfl
  cases s with
  | createTable name columns =>
    simp only [run, Catalog.bare, Option.isSome_map]
    split
    · rfl
    · simp only [Except.map, Catalog.bare, hupdate]
  | createIndex name table definition =>
    have hnone : (db.bare.tables table).isNone = (db.tables table).isNone := Option.isNone_map
    rw [run, run, hnone]
    by_cases htable : (db.tables table).isNone = true
    · rw [if_pos htable, if_pos htable]
      rfl
    · rw [if_neg htable, if_neg htable]
      by_cases hname : name.isSome = true ∧ name ∈ db.indexes.map Prod.fst
      · have hbare : name.isSome = true ∧ name ∈ db.bare.indexes.map Prod.fst := hname
        rw [if_pos hname, if_pos hbare]
        rfl
      · have hbare : ¬ (name.isSome = true ∧ name ∈ db.bare.indexes.map Prod.fst) := hname
        rw [if_neg hname, if_neg hbare]
        rfl
  | addColumn table column =>
    simp only [run, Catalog.bare]
    cases htable : db.tables table with
    | none => rfl
    | some t =>
      simp only [Option.map_some, List.map_nil]
      split
      · rfl
      · simp only [Except.map, Catalog.bare, hupdate]

/-- A statement keeps the rows there are. -/
theorem run_keeps (h : s.run db = .ok db') : db.Keeps db' := by
  cases s with
  | createTable name columns =>
    rw [run] at h
    split at h
    · cases h
    · rename_i hnone
      obtain rfl := Except.ok.inj h
      intro name' t ht
      have hne : name' ≠ name := by
        rintro rfl
        simp [ht] at hnone
      refine ⟨t, [], ?_, (List.append_nil _).symm, by simp⟩
      rw [← ht]
      exact Function.update_of_ne hne ..
  | createIndex name table definition =>
    rw [run] at h
    split at h
    · cases h
    · split at h
      · cases h
      · obtain rfl := Except.ok.inj h
        exact Catalog.Keeps.refl db
  | addColumn table column =>
    rw [run] at h
    cases htable : db.tables table with
    | none =>
      rw [htable] at h
      cases h
    | some t =>
      simp only [htable] at h
      split at h
      · cases h
      · obtain rfl := Except.ok.inj h
        intro name' t' ht'
        by_cases hname : name' = table
        · subst hname
          obtain rfl := Option.some.inj (htable.symm.trans ht')
          exact ⟨_, [column], Function.update_self .., rfl, rfl⟩
        · refine ⟨t', [], ?_, (List.append_nil _).symm, by simp⟩
          rw [← ht']
          exact Function.update_of_ne hname ..

/-- A statement about one of these tables makes no other. -/
theorem run_within {names : List String} (hs : s.table ∈ names) (h : s.run db = .ok db')
    (hdb : db.Within names) : db'.Within names := by
  have hupdate : ∀ {name : String} {t : StoreTable ν}, name ∈ names → ∀ name', name' ∉ names →
      Function.update db.tables name (some t) name' = none := by
    intro name t hname name' hname'
    have hne : name' ≠ name := by
      rintro rfl
      exact hname' hname
    rw [Function.update_of_ne hne, hdb.tables name' hname']
  cases s with
  | createTable name columns =>
    rw [run] at h
    split at h
    · cases h
    · obtain rfl := Except.ok.inj h
      exact ⟨hupdate hs, hdb.indexes⟩
  | createIndex name table definition =>
    rw [run] at h
    split at h
    · cases h
    · split at h
      · cases h
      · obtain rfl := Except.ok.inj h
        refine ⟨hdb.tables, fun index hindex => ?_⟩
        obtain hold | hnew := List.mem_append.mp hindex
        · exact hdb.indexes index hold
        · rw [List.mem_singleton.mp hnew]
          exact hs
  | addColumn table column =>
    rw [run] at h
    split at h
    · cases h
    · split at h
      · cases h
      · obtain rfl := Except.ok.inj h
        exact ⟨hupdate hs, hdb.indexes⟩

end Ddl

namespace Migration

variable {m : Migration} {db db' : Catalog ν}

theorem run_bare (m : Migration) (db : Catalog ν) :
    m.run db.bare = (m.run db).map Catalog.bare :=
  runAll_map Ddl.run_bare m.statements db

theorem run_keeps (h : m.run db = .ok db') : db.Keeps db' :=
  runAll_invariant h (Catalog.Keeps.refl db) fun _ _ _ _ hkeeps hrun =>
    hkeeps.trans (Ddl.run_keeps hrun)

theorem run_within {names : List String} (hm : ∀ s ∈ m.statements, s.table ∈ names)
    (h : m.run db = .ok db') (hdb : db.Within names) : db'.Within names :=
  runAll_invariant h hdb fun s hs _ _ hwithin hrun => Ddl.run_within (hm s hs) hrun hwithin

end Migration

/-! ## Versions -/

/-- Migrations that can be released: their versions go up, an empty store can be given them all,
and they are about the store's tables. -/
structure Released (ν : Type) (names : List String) (all : List Migration) : Prop where
  increasing : (all.map Migration.version).Pairwise (· < ·)
  positive : ∀ m ∈ all, 0 < m.version
  builds : (runAll Migration.run all ({} : Catalog ν)).isOk = true
  named : ∀ m ∈ all, ∀ s ∈ m.statements, s.table ∈ names

/-- The list as it is can be applied to an empty store. -/
theorem released_migrations : Released ν storeTables migrations where
  increasing := by decide
  positive := by decide
  builds := by rfl
  named := by decide

/-- The store has had the first `j` migrations, and its tables are as they make them. -/
structure AtVersion (all : List Migration) (j : ℕ) (db : SchemaStore ν) : Prop where
  versions : db.versions.getD [] = (all.take j).map Migration.version
  catalog : runAll Migration.run (all.take j) ({} : Catalog ν) = .ok db.catalog.bare

variable {names : List String} {all : List Migration} {j : ℕ} {db db' : SchemaStore ν}

theorem atVersion_empty : AtVersion all 0 ({} : SchemaStore ν) :=
  ⟨rfl, rfl⟩

theorem Released.exists_runAll_take (hall : Released ν names all) (n : ℕ) :
    ∃ db, runAll Migration.run (all.take n) ({} : Catalog ν) = .ok db := by
  have hbuilds := hall.builds
  cases hrun : runAll Migration.run all ({} : Catalog ν) with
  | error e =>
    rw [hrun] at hbuilds
    cases hbuilds
  | ok whole =>
    rw [← List.take_append_drop n all] at hrun
    obtain ⟨db, hdb, -⟩ := exists_runAll_append hrun
    exact ⟨db, hdb⟩

/-- A release that is no older than a store knows its tables. -/
theorem AtVersion.within (hall : Released ν names all) (h : AtVersion all j db) {n : ℕ}
    (hold : min j all.length ≤ n) : db.catalog.Within (tablesOf names (all.take n)) := by
  have hsame : all.take j = all.take (min j all.length) := by
    rw [List.take_eq_take_iff]
    omega
  rw [← Catalog.within_bare]
  refine runAll_invariant h.catalog ⟨fun _ _ => rfl, ?_⟩ fun m hm _ _ hwithin hrun => ?_
  · exact fun index hindex => absurd hindex List.not_mem_nil
  · refine Migration.run_within (fun s hs => List.mem_filter.mpr ⟨?_, ?_⟩) hrun hwithin
    · exact hall.named m (List.mem_of_mem_take hm) s hs
    · rw [hsame] at hm
      have hknown : m ∈ all.take n := List.take_subset_take_left all hold hm
      exact List.any_eq_true.mpr ⟨m, hknown, List.any_eq_true.mpr ⟨s, hs, decide_eq_true rfl⟩⟩

/-- What a store's records say of its version. -/
theorem AtVersion.le_of_current_le (hall : Released ν names all) (h : AtVersion all j db) {n : ℕ}
    (hold : current (db.versions.getD []) ≤ current ((all.take n).map Migration.version)) :
    min j all.length ≤ n := by
  by_contra hlt
  have hn : n < all.length := by omega
  have hlast : all[n] ∈ all.take j := by
    rw [List.mem_take_iff_getElem]
    exact ⟨n, by omega, rfl⟩
  -- its version is recorded, and the release knows none so late
  have hrecorded : all[n].version ≤ current (db.versions.getD []) := by
    rw [h.versions]
    exact le_current (List.mem_map_of_mem hlast)
  have hlate : current ((all.take n).map Migration.version) < all[n].version := by
    apply current_lt (hall.positive _ (List.getElem_mem hn))
    intro v hv
    obtain ⟨m, hm, rfl⟩ := List.mem_map.mp hv
    have hincreasing := hall.increasing
    rw [← List.take_append_drop n all, List.map_append] at hincreasing
    refine (List.pairwise_append.mp hincreasing).2.2 _ (List.mem_map_of_mem hm) _ ?_
    rw [List.drop_eq_getElem_cons hn]
    exact List.mem_map_of_mem (List.mem_cons_self ..)
  omega

/-- **Applying a release's migrations** to a store at a version: it is at the later of the two
afterwards, and keeps its rows. -/
theorem AtVersion.apply (hall : Released ν names all) (h : AtVersion all j db) (n : ℕ) :
    ∃ db', applyMigrations (all.take n) db =
        .ok (current ((all.take j).map Migration.version), db') ∧
      AtVersion all (max j n) db' ∧ db.catalog.Keeps db'.catalog ∧
      runAll Migration.run ((all.take n).drop j) db.catalog = .ok db'.catalog := by
  -- without their rows, the store's tables are those of its version
  obtain ⟨whole, hwhole⟩ := hall.exists_runAll_take (max j n)
  have hbare := hwhole
  rw [← take_append_drop_take, runAll_append, h.catalog] at hbare
  have hbare : (runAll Migration.run ((all.take n).drop j) db.catalog).map Catalog.bare =
      .ok whole := (runAll_map Migration.run_bare _ db.catalog).symm.trans hbare
  cases hrun : runAll Migration.run ((all.take n).drop j) db.catalog with
  | error e =>
    rw [hrun] at hbare
    cases hbare
  | ok catalog =>
    rw [hrun] at hbare
    obtain rfl : catalog.bare = whole := Except.ok.inj hbare
    refine ⟨⟨catalog, some ((all.take (max j n)).map Migration.version)⟩, ?_, ⟨rfl, hwhole⟩, ?_,
      rfl⟩
    · rw [applyMigrations, h.versions, upgrade_take hall.increasing hall.positive, hrun]
      rfl
    · exact runAll_invariant hrun (Catalog.Keeps.refl _) fun _ _ _ _ hkeeps hstep =>
        hkeeps.trans (Migration.run_keeps hstep)

/-- **Starting anew**, by a release that is no older: the store is at its version, and has no
rows. -/
theorem AtVersion.reset (hall : Released ν names all) (h : AtVersion all j db) {n : ℕ}
    (hold : min j all.length ≤ n) :
    ∃ db', reset (tablesOf names (all.take n)) (all.take n) db = .ok db' ∧ AtVersion all n db' ∧
      db'.catalog.bare = db'.catalog := by
  have hdropped : dropTables (tablesOf names (all.take n)) db.catalog = {} :=
    Catalog.dropTables_of_within (h.within hall hold)
  have hempty : AtVersion all 0 ({} : SchemaStore ν) := atVersion_empty
  obtain ⟨db', happly, hat, -, hrun⟩ := hempty.apply hall n
  rw [Nat.zero_max] at hat
  refine ⟨db', ?_, hat, ?_⟩
  · rw [StoreSchema.reset, hdropped]
    show (applyMigrations (all.take n) {}).map Prod.snd = _
    rw [happly]
    rfl
  · -- the migrations of a store without rows make none
    rw [List.drop_zero] at hrun
    have hbare := runAll_map Migration.run_bare (all.take n) ({} : Catalog ν)
    have hnone : ({} : Catalog ν).bare = {} := rfl
    rw [hnone, hrun] at hbare
    exact (Except.ok.inj hbare).symm

/-! ## In every run -/

/-- What a release that knows this many migrations does. -/
inductive StoreEvent (ν : Type)
  /-- A transaction; its body may raise. -/
  | transaction (release : ℕ) (body : SchemaStore ν → Option (SchemaStore ν))
  | reset (release : ℕ)

/-- A transaction is committed or rolled back. -/
def storeStep (names : List String) (all : List Migration) (db : SchemaStore ν) :
    StoreEvent ν → Option (SchemaStore ν)
  | .transaction release body =>
    match applyMigrations (all.take release) db with
    | .error _ => some db
    | .ok (_, migrated) => some ((body migrated).getD db)
  | .reset release =>
    match StoreSchema.reset (tablesOf names (all.take release)) (all.take release) db with
    | .error _ => some db
    | .ok emptied => some emptied

/-- What is done in a transaction is done to rows, and a store is started anew by a release that
knows every migration it has had. -/
def KeepsSchema (all : List Migration) : SchemaStore ν → StoreEvent ν → Prop
  | _, .transaction _ body => ∀ db db', body db = some db' →
    db'.versions = db.versions ∧ db'.catalog.bare = db.catalog.bare
  | db, .reset release =>
    current (db.versions.getD []) ≤ current ((all.take release).map Migration.version)

theorem AtVersion.step (hall : Released ν names all) (h : AtVersion all j db)
    {e : StoreEvent ν} (hkeeps : KeepsSchema all db e)
    (hstep : storeStep names all db e = some db') :
    ∃ j', min j all.length ≤ j' ∧ AtVersion all j' db' := by
  cases e with
  | transaction release body =>
    obtain ⟨migrated, happly, hat, -⟩ := h.apply hall release
    simp only [storeStep, happly] at hstep
    obtain rfl := Option.some.inj hstep
    cases hbody : body migrated with
    | none => exact ⟨j, min_le_left .., h⟩
    | some done =>
      obtain ⟨hversions, hbare⟩ := hkeeps migrated done hbody
      refine ⟨max j release, (min_le_left ..).trans (le_max_left ..), ?_, ?_⟩
      · rw [Option.getD_some, hversions]
        exact hat.versions
      · rw [Option.getD_some, hbare]
        exact hat.catalog
  | reset release =>
    have hold := h.le_of_current_le hall hkeeps
    obtain ⟨emptied, hreset, hat, -⟩ := h.reset hall hold
    simp only [storeStep, hreset] at hstep
    obtain rfl := Option.some.inj hstep
    exact ⟨release, hold, hat⟩

/-- **The store can always be migrated.** Whatever releases have used it, in whatever order, and
whatever their transactions have done to its rows or failed to do, it is at a version no earlier
than it was; the next release finds that version, brings the store to the later of it and its own
without an error, giving it each migration between once, and keeps every row; and a reset, by a
release no older than the store, leaves an empty store at the version of the release. -/
theorem store_always_migrates (hall : Released ν names all) (h : AtVersion all j db)
    {events : List (StoreEvent ν)}
    (hrun : Machine.Run (storeStep names all) (KeepsSchema all) db events db') :
    ∃ j', min j all.length ≤ j' ∧ AtVersion all j' db' ∧
      (∀ n, ∃ migrated, applyMigrations (all.take n) db' =
          .ok (current ((all.take j').map Migration.version), migrated) ∧
        AtVersion all (max j' n) migrated ∧ db'.catalog.Keeps migrated.catalog) ∧
      ∀ n, min j' all.length ≤ n →
        ∃ emptied, reset (tablesOf names (all.take n)) (all.take n) db' = .ok emptied ∧
          AtVersion all n emptied ∧ emptied.catalog.bare = emptied.catalog := by
  have hreached : ∃ j', min j all.length ≤ j' ∧ AtVersion all j' db' := by
    apply hrun.invariant (I := fun s => ∃ j', min j all.length ≤ j' ∧ AtVersion all j' s)
    · exact ⟨j, min_le_left .., h⟩
    rintro s e s' ⟨j', hj', hat⟩ hkeeps hstep
    obtain ⟨j'', hj'', hat'⟩ := hat.step hall hkeeps hstep
    exact ⟨j'', (le_min hj' (min_le_right ..)).trans hj'', hat'⟩
  obtain ⟨j', hj', hat⟩ := hreached
  refine ⟨j', hj', hat, fun n => ?_, fun n hold => hat.reset hall hold⟩
  obtain ⟨migrated, happly, hafter, hkeeps, -⟩ := hat.apply hall n
  exact ⟨migrated, happly, hafter, hkeeps⟩

/-- `INSERT INTO name`. -/
def insertRow (name : String) (row : List (Option ν)) (db : SchemaStore ν) :
    Option (SchemaStore ν) :=
  (db.catalog.tables name).map fun t =>
    { db with catalog := { db.catalog with
      tables := Function.update db.catalog.tables name (some { t with rows := t.rows ++ [row] }) } }

theorem keepsSchema_insertRow (release : ℕ) (name : String) (row : List (Option ν)) :
    KeepsSchema all db (.transaction release (insertRow name row)) := by
  intro s s' h
  obtain ⟨t, ht, rfl⟩ := Option.map_eq_some_iff.mp h
  refine ⟨rfl, ?_⟩
  simp only [Catalog.bare, Catalog.mk.injEq, and_true]
  funext name'
  by_cases hname : name' = name
  · subst hname
    rw [Function.update_self, ht]
    rfl
  · rw [Function.update_of_ne hname]

/-- The first release opens an incident and starts the store anew; a transaction of the second one
raises. -/
def twoReleases : List (StoreEvent ℕ) :=
  [.transaction 1 (insertRow "incidents" [some 1]), .reset 1, .transaction 2 fun _ => none]

/-- The store after these transactions. -/
def afterTwoReleases : SchemaStore ℕ :=
  twoReleases.foldl (fun db e => (storeStep storeTables migrations db e).getD db) {}

theorem store_always_migrates_two_releases :
    ∃ j', min 0 migrations.length ≤ j' ∧ AtVersion migrations j' afterTwoReleases ∧
      (∀ n, ∃ migrated, applyMigrations (migrations.take n) afterTwoReleases =
          .ok (current ((migrations.take j').map Migration.version), migrated) ∧
        AtVersion migrations (max j' n) migrated ∧
          afterTwoReleases.catalog.Keeps migrated.catalog) ∧
      ∀ n, min j' migrations.length ≤ n →
        ∃ emptied, reset (tablesOf storeTables (migrations.take n)) (migrations.take n)
            afterTwoReleases = .ok emptied ∧
          AtVersion migrations n emptied ∧ emptied.catalog.bare = emptied.catalog := by
  have hrun : Machine.Run (storeStep storeTables migrations) (KeepsSchema migrations)
      ({} : SchemaStore ℕ) twoReleases afterTwoReleases :=
    .cons (keepsSchema_insertRow 1 "incidents" [some 1]) rfl
      (.cons (Nat.le_refl 1) rfl
        (.cons (fun _ _ h => nomatch h) rfl (.nil _)))
  exact store_always_migrates released_migrations atVersion_empty hrun

end PlatformOps.Incidents.StoreSchema
