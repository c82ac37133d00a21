import PlatformOps.Library.Fallible
import PlatformOps.Metadata.Selects

/-!
# What a SELECT Reads

When the columns an output column is traced to leave out no cause: two databases with the
same rows in every traced table, up to untraced columns, give the column the same values,
through the models that are built from them. What shapes rows without a column that is
read is not folded in: a source that no column is read of, the `ON` of a left join whose
side the expression does not read, and what a `LIMIT` sorts by.

- `NeverLess`: no cause is left out.
- `ReadFor`: the columns a SELECT reads for an expression; they are what is folded into it
  (`mem_folded_iff`).
- `Complete`: what they have to include, in a SELECT and in the models below it.
-/

namespace PlatformOps.Metadata.ColumnLineage

open Fallible

variable {V : Type}

/-! ## Databases that agree -/

/-- Columns of relations. -/
abbrev Columns := Set (Relation × String)

open Classical in
/-- A row of a relation up to its other columns. -/
noncomputable def erasedRow (null : V) (columns : Columns) (relation : Relation) (r : Row V) :
    Row V :=
  fun c => if (relation, c) ∈ columns then r c else null

/-- The same rows in every relation that one of the columns belongs to, up to its other columns. -/
def Agree (null : V) (columns : Columns) (db db' : Database V) : Prop :=
  ∀ relation column, (relation, column) ∈ columns →
    (db relation).map (erasedRow null columns relation) =
      (db' relation).map (erasedRow null columns relation)

/-- Raw columns, as columns of relations. -/
def rawColumns (columns : List RawColumn) : Columns :=
  {x | ∃ table, x.1 = .raw table ∧ (table, x.2) ∈ columns}

/-- On more, never on less: databases that agree on what a column is traced to give it the same
values, whatever the clauses of the SELECT and of the models below it make of the columns they
read. -/
def NeverLess (project : Project) (q : Select) (p : Projection) : Prop :=
  ∀ traced columns, trace (model project) q = .ok traced → (p.name, columns) ∈ traced →
    ∀ (V : Type) [DecidableEq V] (null : V) (readings : String → Reading V) (reading : Reading V)
      (db db' : Database V), Agree null (rawColumns columns) db db' → ∀ values : Multiset V,
        (∃ built rows, Builds null readings db project built ∧
          Returns null reading built q rows ∧ columnValues null p rows = values) ↔
        ∃ built rows, Builds null readings db' project built ∧
          Returns null reading built q rows ∧ columnValues null p rows = values

/-! ## Qualified and complete -/

/-- Each `ON` reads its own side and the sides before it. -/
def OnScoped : List String → List Join → Prop
  | _, [] => True
  | bound, j :: joins =>
    (∀ c ∈ j.on, c.table ∈ j.source.aliasOrName :: bound) ∧
      OnScoped (j.source.aliasOrName :: bound) joins

/-- What qualifying leaves: aliases and names are unique, and every column has its alias. -/
structure Qualified (q : Select) : Prop where
  aliases : (q.sources.map Source.aliasOrName).Nodup
  names : (q.selects.map Projection.name).Nodup
  reads : ∀ c ∈ q.condition ++ q.grouping.columns ++ q.having ++
    q.selects.flatMap Projection.value ++ q.order, c.table ∈ q.sources.map Source.aliasOrName
  onScoped : OnScoped [q.source.aliasOrName] q.joins

/-- The clauses that count for an expression, and what they read: the expression itself, `WHERE`,
`GROUP BY`, `HAVING`, the `ON` of a join that is no left join, the `ON` of a left join whose side
the expression reads, and with `DISTINCT` every expression. -/
inductive ReadFor (q : Select) (p : Projection) : Column → Prop
  | value {c} (h : c ∈ p.value) : ReadFor q p c
  | condition {c} (h : c ∈ q.condition) : ReadFor q p c
  | grouping {c} (h : c ∈ q.grouping.columns) : ReadFor q p c
  | having {c} (h : c ∈ q.having) : ReadFor q p c
  | on {j c} (hj : j ∈ q.joins) (hside : j.side ≠ .left) (h : c ∈ j.on) : ReadFor q p c
  | leftOn {j c d} (hj : j ∈ q.joins) (hside : j.side = .left) (hd : d ∈ p.value)
      (hread : d.table = j.source.aliasOrName) (h : c ∈ j.on) : ReadFor q p c
  | distinct {p' c} (hdistinct : q.distinct = true) (hp' : p' ∈ q.selects) (h : c ∈ p'.value) :
      ReadFor q p c

/-- The columns of relations that are read for the expressions of these names. -/
def columnsFor (q : Select) (names : Set String) : Columns :=
  {x | ∃ p ∈ q.selects, p.name ∈ names ∧ ∃ c, ReadFor q p c ∧
    q.relationOf c.table = some x.1 ∧ c.name = x.2}

/-- A column of a SELECT is one of these columns, read through whatever alias. -/
def IsRead (q : Select) (columns : Columns) (c : Column) : Prop :=
  ∃ relation, q.relationOf c.table = some relation ∧ (relation, c.name) ∈ columns

/-- A column of every source is read, every column of the left joins' `ON`, and with a `LIMIT`
every column it sorts by. -/
structure Shaped (q : Select) (columns : Columns) : Prop where
  sources : ∀ s ∈ q.sources, ∃ column, (s.relation, column) ∈ columns
  leftJoins : ∀ j ∈ q.joins, j.side = .left → ∀ c ∈ j.on, IsRead q columns c
  order : q.limit ≠ none → ∀ c ∈ q.order, IsRead q columns c

/-- The columns of a model's table that are among these. -/
def namesOf (uid : String) (columns : Columns) : Set String :=
  {name | (.model uid, name) ∈ columns}

/-- What is read of the models of a project is read in shape, down to raw columns. -/
def ShapedBelow : Project → Columns → Prop
  | [], columns => ∀ x ∈ columns, ∃ table, x.1 = .raw table
  | (uid, q) :: upstream, columns =>
    ((namesOf uid columns).Nonempty → Shaped q (columnsFor q (namesOf uid columns))) ∧
      ShapedBelow upstream
        ({x ∈ columns | x.1 ≠ .model uid} ∪ columnsFor q (namesOf uid columns))

/-- The lineage of an output column leaves nothing out: in its SELECT, nor below. -/
structure Complete (project : Project) (q : Select) (p : Projection) : Prop where
  shaped : Shaped q (columnsFor q {p.name})
  below : ShapedBelow project (columnsFor q {p.name})

section Scopes

variable {q : Select} {p : Projection} {names : Set String}

theorem OnScoped.mem {bound : List String} {joins : List Join} (h : OnScoped bound joins)
    {j : Join} (hj : j ∈ joins) {c : Column} (hc : c ∈ j.on) :
    c.table ∈ bound ++ joins.map fun j => j.source.aliasOrName := by
  induction joins generalizing bound with
  | nil => cases hj
  | cons head rest ih =>
    rw [List.map_cons]
    cases List.mem_cons.mp hj with
    | inl heq =>
      have hmem := h.1 c (heq ▸ hc)
      simp only [List.mem_cons, List.mem_append] at hmem ⊢
      tauto
    | inr hrest =>
      have hmem := ih h.2 hrest
      simp only [List.mem_cons, List.mem_append] at hmem ⊢
      tauto

theorem Qualified.on_mem (h : Qualified q) {j : Join} (hj : j ∈ q.joins) {c : Column}
    (hc : c ∈ j.on) : c.table ∈ q.sources.map Source.aliasOrName := by
  have hmem := h.onScoped.mem hj hc
  simpa [Select.sources] using hmem

theorem relationOf_eq (h : Qualified q) {s : Source} (hs : s ∈ q.sources) :
    q.relationOf s.aliasOrName = some s.relation := by
  have hfind : q.sources.find? (fun t => t.aliasOrName = s.aliasOrName) = some s := by
    rw [List.find?_eq_some_iff_append]
    obtain ⟨before, after, hsplit⟩ := List.append_of_mem hs
    refine ⟨by simp, before, after, hsplit, fun t ht => ?_⟩
    have hnodup := h.aliases
    rw [hsplit, List.map_append, List.map_cons, List.nodup_append] at hnodup
    have hne := hnodup.2.2 _ (List.mem_map_of_mem ht) s.aliasOrName (List.mem_cons_self ..)
    simpa using hne
  rw [Select.relationOf, hfind]
  rfl

/-- What is read is read of a source. -/
theorem exists_source_of_mem {x : Relation × String} (hx : x ∈ columnsFor q names) :
    ∃ s ∈ q.sources, s.relation = x.1 := by
  obtain ⟨p, -, -, c, -, hrelation, -⟩ := hx
  obtain ⟨s, hs, hsource⟩ := Option.map_eq_some_iff.mp hrelation
  exact ⟨s, List.mem_of_find?_eq_some hs, hsource⟩

/-- Whatever is read for an expression has its alias. -/
theorem Qualified.alias_mem (hq : Qualified q) (hp : p ∈ q.selects) {c : Column}
    (h : ReadFor q p c) : c.table ∈ q.sources.map Source.aliasOrName := by
  have hread : ∀ c ∈ q.condition ++ q.grouping.columns ++ q.having ++
      q.selects.flatMap Projection.value, c.table ∈ q.sources.map Source.aliasOrName :=
    fun c hc => hq.reads c (List.mem_append_left _ hc)
  cases h with
  | value h => exact hread c (List.mem_append_right _ (List.mem_flatMap.mpr ⟨p, hp, h⟩))
  | condition h => exact hread c (by simp [h])
  | grouping h => exact hread c (by simp [h])
  | having h => exact hread c (by simp [h])
  | on hj _ h => exact hq.on_mem hj h
  | leftOn hj _ _ _ h => exact hq.on_mem hj h
  | distinct _ hp' h =>
    exact hread c (List.mem_append_right _ (List.mem_flatMap.mpr ⟨_, hp', h⟩))

theorem isRead_columnsFor (hq : Qualified q) (hp : p ∈ q.selects) (hname : p.name ∈ names)
    {c : Column} (h : ReadFor q p c) : IsRead q (columnsFor q names) c := by
  obtain ⟨s, hs, halias⟩ := List.mem_map.mp (hq.alias_mem hp h)
  have hrelation : q.relationOf c.table = some s.relation := halias ▸ relationOf_eq hq hs
  exact ⟨s.relation, hrelation, p, hp, hname, c, h, hrelation, rfl⟩

/-- **What is folded into an expression is what is read for it.** -/
theorem mem_folded_iff {c : Column} : c ∈ (folded q p).value ↔ ReadFor q p c := by
  constructor
  · intro h
    rcases List.mem_append.mp h with h | h
    · rcases List.mem_append.mp h with h | h
      · exact .value h
      · -- the clauses, in the order of `every`
        simp only [every, List.mem_append, List.mem_flatMap, List.mem_filter] at h
        rcases h with (((h | h) | h) | ⟨j, ⟨hj, hside⟩, h⟩) | h
        · exact .condition h
        · exact .grouping h
        · exact .having h
        · exact .on hj (by simpa using hside) h
        · split at h
          · obtain ⟨p', hp', h⟩ := List.mem_flatMap.mp h
            exact .distinct ‹_› hp' h
          · cases h
    · obtain ⟨j, hj, h⟩ := List.mem_flatMap.mp h
      obtain ⟨hj, hread⟩ := List.mem_filter.mp hj
      simp only [decide_eq_true_eq, List.mem_map] at hread
      obtain ⟨hside, d, hd, heq⟩ := hread
      exact .leftOn hj hside hd heq h
  · intro h
    have hevery : c ∈ every q → c ∈ (folded q p).value :=
      fun h => List.mem_append_left _ (List.mem_append_right _ h)
    cases h with
    | value h => exact List.mem_append_left _ (List.mem_append_left _ h)
    | condition h => exact hevery (by simp [every, h])
    | grouping h => exact hevery (by simp [every, h])
    | having h => exact hevery (by simp [every, h])
    | on hj hside h =>
      apply hevery
      simp only [every, List.mem_append]
      refine Or.inl (Or.inr (List.mem_flatMap.mpr ⟨_, List.mem_filter.mpr ⟨hj, ?_⟩, h⟩))
      simpa using hside
    | leftOn hj hside hd hread h =>
      refine List.mem_append_right _ (List.mem_flatMap.mpr ⟨_, List.mem_filter.mpr ⟨hj, ?_⟩, h⟩)
      simpa [hside] using ⟨_, hd, hread⟩
    | distinct hdistinct hp' h =>
      apply hevery
      simp only [every, if_pos hdistinct, List.mem_append]
      exact Or.inr (List.mem_flatMap.mpr ⟨_, hp', h⟩)

/-- Names are unique. -/
theorem Qualified.eq_of_name (hq : Qualified q) {p' : Projection} (hp : p ∈ q.selects)
    (hp' : p' ∈ q.selects) (h : p'.name = p.name) : p' = p :=
  List.inj_on_of_nodup_map hq.names hp' hp h

/-- The leaves of a folded expression are the columns of relations that are read for it. -/
theorem mem_leaves_iff (hq : Qualified q) (hp : p ∈ q.selects) {x : Relation × String} :
    x ∈ leaves (foldRowShaping q) (folded q p) ↔ x ∈ columnsFor q {p.name} := by
  constructor
  · intro h
    obtain ⟨c, hc, h⟩ := List.mem_filterMap.mp h
    obtain ⟨relation, hrelation, rfl⟩ := Option.map_eq_some_iff.mp h
    exact ⟨p, hp, rfl, c, mem_folded_iff.mp hc, hrelation, rfl⟩
  · rintro ⟨p', hp', hname, c, hread, hrelation, hcolumn⟩
    obtain rfl := hq.eq_of_name hp hp' hname
    refine List.mem_filterMap.mpr ⟨c, mem_folded_iff.mpr hread, ?_⟩
    show (q.relationOf c.table).map _ = some x
    rw [hrelation, Option.map_some, hcolumn]

/-- What a column is traced to is what its leaves resolve to. -/
theorem resolve_of_mem_trace (hq : Qualified q) (hp : p ∈ q.selects) {upstream : Upstream}
    {traced : List (String × List RawColumn)} {columns : List RawColumn}
    (htrace : trace upstream q = .ok traced) (hmem : (p.name, columns) ∈ traced) :
    resolve upstream (leaves (foldRowShaping q) (folded q p)) = .ok columns := by
  obtain ⟨f, hf, hresolve⟩ := exists_preimage_of_mem htrace hmem
  obtain ⟨p', hp', rfl⟩ := List.mem_map.mp hf
  obtain ⟨found, hfound, heq⟩ := bind_eq_ok.mp hresolve
  obtain ⟨hname, rfl⟩ := Prod.mk.inj (pure_eq_ok.mp heq)
  obtain rfl := hq.eq_of_name hp hp' hname
  exact hfound

end Scopes

end PlatformOps.Metadata.ColumnLineage
