import PlatformOps.Library.Fallible
import PlatformOps.Reconcile.Schema

/-!
# Canonical Rows

Every value is rendered to one agreed text before anything is compared, in each
engine's own SQL. What an engine makes of one column of one row is a parameter,
an `Engine`; what is built on it is the same on both sides: `NULL` gets a text no
value has, a row is its columns' texts joined, a key its key columns' texts.
-/

namespace PlatformOps.Reconcile

open Fallible

/-- `NULL`, which no escaped value can equal. -/
def null : String := "\\N"
def separator : String := "|"

/-- How one column is rendered. Only text uses `rtrim` and `casefold`. -/
structure Rule where
  rtrim : Bool := false
  casefold : Bool := false
  scale : ℕ := 0
deriving DecidableEq, Repr

/-- A layer of the canonical policy: what it leaves open is decided below it. -/
structure CanonicalRule where
  rtrim : Option Bool := none
  casefold : Option Bool := none
  scale : Option ℕ := none
deriving DecidableEq, Repr

structure CanonicalSettings where
  /-- `engines.get("postgres")`. -/
  postgres : Option CanonicalRule := none
  /-- Overrides, by `table.column`. -/
  columns : List (String × CanonicalRule) := []

/-- The first layer that decides a setting. -/
def firstSet {A : Type} (layers : List CanonicalRule) (get : CanonicalRule → Option A) (default : A) :
    A :=
  (layers.findSome? get).getD default

/-- `rules_for`: the rule for every column, the legacy engine's policy under per-column
overrides. Both sides of a comparison use the same rules. -/
def rulesFor (table : TableSpec) (settings : CanonicalSettings) : List (String × Rule) :=
  table.columns.map fun column =>
    let override := settings.columns.lookup (table.name ++ "." ++ column.name)
    let layers := override.toList ++ settings.postgres.toList
    (column.name,
      { rtrim := firstSet layers CanonicalRule.rtrim false
        casefold := firstSet layers CanonicalRule.casefold false
        scale := firstSet layers CanonicalRule.scale column.scale })

/-- A dictionary built from a list of pairs: the last value of a key wins. -/
def dictGet {A : Type} (entries : List (String × A)) (key : String) : Option A :=
  entries.reverse.lookup key

/-- One side's SQL on the rows of its relation: the text of a column, none for NULL. -/
structure Engine (R : Type) where
  value : Column → Rule → R → Option String

/-- A table as one side's SQL renders it, row by row. -/
structure RenderedTable (R : Type) where
  /-- The canonical key string. -/
  key : R → String
  /-- The canonical value of each value column. -/
  values : List (R → String)
  /-- The canonical row string. -/
  row : R → String

section Render

variable {R : Type}

/-- `_coalesce`. -/
def coalesce (value : R → Option String) (r : R) : String :=
  (value r).getD null

/-- `_join`. -/
def joinTexts (texts : List (R → String)) (r : R) : String :=
  separator.intercalate (texts.map fun text => text r)

/-- The text of each column, by name; a column without a rule is a `KeyError`. -/
def canonicalColumns (engine : Engine R) (table : TableSpec) (rules : List (String × Rule)) :
    Except String (List (String × (R → String))) :=
  table.columns.mapM fun c =>
    match dictGet rules c.name with
    | some rule => .ok (c.name, coalesce (engine.value c rule))
    | none => .error c.name

/-- `canonical[name]`. -/
def textOf (canonical : List (String × (R → String))) (name : String) : Except String (R → String) :=
  match dictGet canonical name with
  | some text => .ok text
  | none => .error name

/-- The texts of the key columns, in the key's order. -/
def keyTexts (engine : Engine R) (table : TableSpec) (rules : List (String × Rule)) :
    Except String (List (R → String)) := do
  let canonical ← canonicalColumns engine table rules
  table.key.mapM (textOf canonical)

/-- `render`; the error is the name a dictionary does not have. -/
def render (engine : Engine R) (table : TableSpec) (rules : List (String × Rule)) :
    Except String (RenderedTable R) := do
  let canonical ← canonicalColumns engine table rules
  let key ← table.key.mapM (textOf canonical)
  let values ← table.valueColumns.mapM fun c => textOf canonical c.name
  let row ← table.columns.mapM fun c => textOf canonical c.name
  return ⟨joinTexts key, values, joinTexts row⟩

/-! ## When a table can be rendered -/

theorem exists_dictGet {A : Type} {entries : List (String × A)} {key : String} :
    (∃ value, dictGet entries key = some value) ↔ key ∈ entries.map Prod.fst := by
  rw [← Option.isSome_iff_exists, dictGet, List.lookup_isSome_iff]
  simp

/-- The rules a night takes cover every column. -/
private theorem canonicalColumns_ok (engine : Engine R) (table : TableSpec)
    (settings : CanonicalSettings) :
    ∃ canonical, canonicalColumns engine table (rulesFor table settings) = .ok canonical ∧
      canonical.map Prod.fst = table.columns.map Column.name := by
  obtain ⟨canonical, hcanonical⟩ :
      ∃ canonical, canonicalColumns engine table (rulesFor table settings) = .ok canonical := by
    refine exists_mapM_eq_ok fun c hc => ?_
    obtain ⟨rule, hrule⟩ : ∃ rule, dictGet (rulesFor table settings) c.name = some rule := by
      rw [exists_dictGet, rulesFor, List.map_map]
      exact List.mem_map.mpr ⟨c, hc, rfl⟩
    rw [hrule]
    exact ⟨_, rfl⟩
  refine ⟨canonical, hcanonical, ?_⟩
  refine map_eq_of_mapM_eq_ok _ _ hcanonical fun c entry hentry => ?_
  split at hentry
  · exact (congrArg Prod.fst (Except.ok.inj hentry)).symm
  · cases hentry

private theorem textOf_ok {canonical : List (String × (R → String))} {name : String}
    (hname : name ∈ canonical.map Prod.fst) : ∃ text, textOf canonical name = .ok text := by
  obtain ⟨text, hget⟩ := exists_dictGet.mpr hname
  exact ⟨text, by rw [textOf, hget]⟩

/-- **A table whose key columns are columns can be rendered**, with a text for each value
column. -/
theorem render_ok (engine : Engine R) {table : TableSpec} (settings : CanonicalSettings)
    (hkey : ∀ name ∈ table.key, name ∈ table.columns.map Column.name) :
    ∃ rendered, render engine table (rulesFor table settings) = .ok rendered ∧
      rendered.values.length = table.valueColumns.length := by
  obtain ⟨canonical, hcanonical, hnames⟩ := canonicalColumns_ok engine table settings
  have hcolumn : ∀ c ∈ table.columns, c.name ∈ canonical.map Prod.fst := by
    intro c hc
    rw [hnames]
    exact List.mem_map_of_mem hc
  obtain ⟨key, hkeyOk⟩ := exists_mapM_eq_ok (f := textOf canonical) (l := table.key)
    fun name hname => textOf_ok (hnames ▸ hkey name hname)
  obtain ⟨values, hvalues⟩ := exists_mapM_eq_ok (f := fun c : Column => textOf canonical c.name)
    (l := table.valueColumns) fun c hc => textOf_ok (hcolumn c (List.mem_of_mem_filter hc))
  obtain ⟨row, hrow⟩ := exists_mapM_eq_ok (f := fun c : Column => textOf canonical c.name)
    (l := table.columns) fun c hc => textOf_ok (hcolumn c hc)
  refine ⟨⟨joinTexts key, values, joinTexts row⟩, ?_, (mapM_eq_ok_iff.mp hvalues).length_eq.symm⟩
  simp only [render, hcanonical, hkeyOk, hvalues, hrow, bind, Except.bind, pure, Except.pure]

end Render

end PlatformOps.Reconcile
