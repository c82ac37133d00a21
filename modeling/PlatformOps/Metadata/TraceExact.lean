import PlatformOps.Metadata.TraceComplete

/-!
# What Tracing Leaves Out

Without a `LIMIT`, a column of a SELECT over raw tables never depends on less than it is
traced to only if its lineage is complete. Both gaps show in a count: of the rows of a
source that nothing is traced to, or of the matches of a left join whose `ON` is not traced.
-/

namespace PlatformOps.Metadata.ColumnLineage

open Fallible

/-! ## A SELECT that reads no model -/

section NoModels

variable {project : Project} {q : Select} {p : Projection}

/-- No source is a model. -/
def OverTables (q : Select) : Prop :=
  ∀ s ∈ q.sources, ∀ uid, s.relation ≠ .model uid

/-- The raw columns that are read for an expression. -/
def rawRead (q : Select) (p : Projection) : Columns :=
  {x ∈ columnsFor q {p.name} | ∃ table, x.1 = .raw table}

private theorem not_model_of_mem (hover : OverTables q) {names : Set String}
    {x : Relation × String} (hx : x ∈ columnsFor q names) (uid : String) : x.1 ≠ .model uid := by
  obtain ⟨s, hs, hsource⟩ := exists_source_of_mem hx
  exact hsource ▸ hover s hs uid

/-- The raw column that a column is, if it is one. -/
def rawOf : Relation × String → List RawColumn
  | (.raw table, column) => [(table, column)]
  | _ => []

private theorem mem_rawOf_iff {x : Relation × String} {c : RawColumn} :
    c ∈ rawOf x ↔ x = (.raw c.1, c.2) := by
  obtain ⟨relation, column⟩ := x
  obtain ⟨table, name⟩ := c
  cases relation <;> simp [rawOf, eq_comm]

private theorem resolveColumn_eq_rawOf {upstream : Upstream} {x : Relation × String}
    (hmodel : ∀ uid, x.1 ≠ .model uid) : resolveColumn upstream x = .ok (rawOf x) := by
  obtain ⟨relation, column⟩ := x
  cases relation with
  | raw table => rfl
  | model uid => exact absurd rfl (hmodel uid)
  | other table => rfl

/-- Such a SELECT is traced to the raw columns among its leaves. -/
private theorem trace_of_overTables (hq : Qualified q) (hover : OverTables q) :
    trace (model project) q = .ok (q.selects.map fun p =>
      (p.name, (leaves (foldRowShaping q) (folded q p)).flatMap rawOf)) := by
  have hresolve : ∀ p ∈ q.selects,
      resolve (model project) (leaves (foldRowShaping q) (folded q p)) =
        .ok ((leaves (foldRowShaping q) (folded q p)).flatMap rawOf) := by
    intro p hp
    rw [resolve, mapM_eq_ok_map fun x hx => resolveColumn_eq_rawOf
      (not_model_of_mem hover ((mem_leaves_iff hq hp).mp hx)), List.flatMap_def]
    rfl
  rw [trace, foldRowShaping, List.mapM_map]
  refine mapM_eq_ok_map fun p hp => ?_
  exact bind_eq_ok.mpr ⟨_, hresolve p hp, rfl⟩

/-- It is traced to what is read of raw tables. -/
private theorem exists_trace (hq : Qualified q) (hover : OverTables q) (hp : p ∈ q.selects) :
    ∃ traced found, trace (model project) q = .ok traced ∧ (p.name, found) ∈ traced ∧
      rawColumns found = rawRead q p := by
  refine ⟨_, _, trace_of_overTables hq hover, List.mem_map.mpr ⟨p, hp, rfl⟩, Set.ext fun x => ?_⟩
  constructor
  · rintro ⟨table, htable, hfound⟩
    obtain ⟨y, hy, hraw⟩ := List.mem_flatMap.mp hfound
    obtain rfl : y = x := by rw [mem_rawOf_iff.mp hraw, ← htable]
    exact ⟨(mem_leaves_iff hq hp).mp hy, table, htable⟩
  · rintro ⟨hread, table, htable⟩
    refine ⟨table, htable, List.mem_flatMap.mpr ⟨x, (mem_leaves_iff hq hp).mpr hread, ?_⟩⟩
    rw [mem_rawOf_iff, ← htable]

variable {V : Type} [DecidableEq V] {null : V} {readings : String → Reading V} {db : Database V}

/-- A project is built as something. -/
private theorem exists_built (null : V) (readings : String → Reading V) (db : Database V)
    (project : Project) : ∃ built, Builds null readings db project built := by
  induction project with
  | nil => exact ⟨db, rfl⟩
  | cons m upstream ih =>
    obtain ⟨below, hbelow⟩ := ih
    obtain ⟨rows, hrows⟩ := exists_returns null (readings m.1) below m.2
    exact ⟨_, below, hbelow, rows, hrows, rfl⟩

/-- Only the tables of models are built. -/
private theorem Builds.eq_of_not_model {built : Database V}
    (h : Builds null readings db project built) {relation : Relation}
    (hmodel : ∀ uid, relation ≠ .model uid) : built relation = db relation := by
  induction project generalizing built with
  | nil => rw [h]
  | cons m upstream ih =>
    obtain ⟨below, hbelow, rows, -, rfl⟩ := h
    rw [Function.update_of_ne (hmodel m.1), ih hbelow]

private theorem Builds.joinedRows_eq {built : Database V}
    (h : Builds null readings db project built) (hover : OverTables q) (reading : Reading V) :
    joinedRows null reading built q = joinedRows null reading db q :=
  joinedRows_congr fun s hs => h.eq_of_not_model (hover s hs)

/-- What is read of raw tables only is read in shape. -/
private theorem shapedBelow_of_raw {columns : Columns}
    (h : ∀ x ∈ columns, ∃ table, x.1 = .raw table) : ShapedBelow project columns := by
  induction project generalizing columns with
  | nil => exact h
  | cons m upstream ih =>
    obtain ⟨uid, q⟩ := m
    have hnames : ∀ name, name ∉ namesOf uid columns := by
      intro name hname
      obtain ⟨table, htable⟩ := h _ hname
      cases htable
    refine ⟨fun ⟨name, hname⟩ => absurd hname (hnames name), ih ?_⟩
    rintro x (⟨hx, -⟩ | ⟨p, -, hname, -⟩)
    · exact h x hx
    · exact absurd hname (hnames p.name)

end NoModels

/-! ## Expressions that count -/

/-- Every select expression counts the rows of its group; only `ON` leaves rows out. -/
def countReading (on : String → List ℕ → Bool) : Reading ℕ where
  condition _ := true
  on := on
  key _ := []
  having _ := true
  value _ group := group.card
  before _ _ := false
  before_irrefl _ := rfl
  before_trans _ _ _ h _ := h

def zeroRow : Row ℕ := fun _ => 0

section Counts

variable {project : Project} {q : Select} {p : Projection} {on : String → List ℕ → Bool}
  {db db' : Database ℕ}

/-- The counts: one for each row, or the one of the only group. -/
def counts (grouping : Grouping) (n : ℕ) : Multiset ℕ :=
  if grouping = .rows then Multiset.replicate n 1 else {n}

theorem counts_injective (grouping : Grouping) : Function.Injective (counts grouping) := by
  intro m n h
  unfold counts at h
  split at h
  · simpa using congrArg Multiset.card h
  · exact Multiset.singleton_inj.mp h

/-- The clauses leave every row, in one group if there are groups. -/
private theorem keptGroups_count (hrows : joinedRows 0 (countReading on) db q ≠ 0) :
    keptGroups 0 (countReading on) db q = if q.grouping = .rows then
        (joinedRows 0 (countReading on) db q).map fun e => {e}
      else {joinedRows 0 (countReading on) db q} := by
  have hkept : keptGroups 0 (countReading on) db q =
      groupsOf (countReading on) (joinedRows 0 (countReading on) db q) q.grouping := by
    simp [keptGroups, countReading]
  rw [hkept]
  cases q.grouping with
  | rows => rfl
  | whole => rfl
  | keys columns =>
    rw [if_neg (by simp)]
    exact Bags.groups_const [] hrows

/-- The value of an output column, in the row of a group. -/
private theorem lookup_outputRow (hq : Qualified q) (hp : p ∈ q.selects)
    (group : Multiset (Joined ℕ)) : (outputRow (countReading on) q group).lookup p.name =
      some ((countReading on).value p.name (readAll p.value group)) := by
  apply Listing.lookup_eq_some_of_mem
  · rw [outputRow, List.map_map]
    exact hq.names
  · exact List.mem_map.mpr ⟨p, hp, rfl⟩

/-- **What a SELECT returns when its expressions count.** -/
theorem columnValues_count (hq : Qualified q) (hp : p ∈ q.selects) (hlimit : q.limit = none)
    (hdistinct : q.distinct = true → q.grouping ≠ .rows)
    (hrows : joinedRows 0 (countReading on) db q ≠ 0) {rows : Multiset (List (String × ℕ))}
    (h : Returns 0 (countReading on) db q rows) :
    columnValues 0 p rows = counts q.grouping (joinedRows 0 (countReading on) db q).card := by
  have hvalue : ∀ group : Multiset (Joined ℕ),
      ((outputRow (countReading on) q group).lookup p.name).getD 0 = group.card := by
    intro group
    rw [lookup_outputRow hq hp]
    simp [countReading, readAll]
  obtain ⟨sorted, kept, hsorted, rfl, hkept⟩ := h
  rw [hlimit] at hkept
  subst hkept
  have hall : kept = evaluated 0 (countReading on) db q := by
    rw [Sorted] at hsorted
    split at hsorted
    · rename_i htrue
      -- The only group has one row, which `DISTINCT` keeps.
      rw [evaluated, keptGroups_count hrows, if_neg (hdistinct htrue),
        Multiset.map_singleton] at hsorted ⊢
      exact Bags.representatives_singleton hsorted
    · exact hsorted
  have hcards : columnValues 0 p (kept.map Prod.fst) =
      (keptGroups 0 (countReading on) db q).map Multiset.card := by
    rw [hall, columnValues, evaluated]
    simp only [Multiset.map_map, Function.comp_def, hvalue]
  rw [hcards, keptGroups_count hrows, counts]
  split
  · simp [Multiset.map_map]
  · simp

/-- Databases that agree, but not on the number of joined rows. -/
theorem not_neverLess_of_card (hq : Qualified q) (hover : OverTables q) (hp : p ∈ q.selects)
    (hlimit : q.limit = none) (hdistinct : q.distinct = true → q.grouping ≠ .rows)
    (hagree : Agree 0 (rawRead q p) db db') (hrows : joinedRows 0 (countReading on) db q ≠ 0)
    (hrows' : joinedRows 0 (countReading on) db' q ≠ 0)
    (hcard : (joinedRows 0 (countReading on) db q).card ≠
      (joinedRows 0 (countReading on) db' q).card) : ¬ NeverLess project q p := by
  intro hnever
  obtain ⟨traced, found, htrace, hmem, hfound⟩ := exists_trace hq hover hp
  -- What is built of models changes no joined row.
  have hcounts : ∀ {db built : Database ℕ} {rows : Multiset (List (String × ℕ))},
      Builds 0 (fun _ => countReading on) db project built →
      joinedRows 0 (countReading on) db q ≠ 0 → Returns 0 (countReading on) built q rows →
      columnValues 0 p rows = counts q.grouping (joinedRows 0 (countReading on) db q).card := by
    intro db built rows hbuilt hne hreturns
    have hsame := hbuilt.joinedRows_eq hover (countReading on)
    rw [← hsame] at hne ⊢
    exact columnValues_count hq hp hlimit hdistinct hne hreturns
  obtain ⟨built, hbuilt⟩ := exists_built 0 (fun _ => countReading on) db project
  obtain ⟨rows, hreturns⟩ := exists_returns 0 (countReading on) built q
  obtain ⟨built', rows', hbuilt', hreturns', hvalues⟩ :=
    (hnever traced found htrace hmem ℕ 0 (fun _ => countReading on) (countReading on) db db'
      (hfound ▸ hagree) _).mp ⟨built, rows, hbuilt, hreturns, rfl⟩
  rw [hcounts hbuilt' hrows' hreturns', hcounts hbuilt hrows hreturns] at hvalues
  exact hcard (counts_injective _ hvalues).symm

end Counts

/-! ## Joins that leave nothing out -/

section Joins

variable {on : String → List ℕ → Bool} {db : Database ℕ} {joins : List Join}
  {rows : Multiset (Joined ℕ)}

/-- The condition of a join holds, whatever it reads. -/
def Always (on : String → List ℕ → Bool) (j : Join) : Prop :=
  ∀ values, on j.source.aliasOrName values = true

private theorem joinStep_of_holds {j : Join}
    (hj : ∀ e ∈ rows, ∀ r ∈ db j.source.relation, onHolds (countReading on) j e r = true)
    (hrows : rows ≠ 0) (hdb : db j.source.relation ≠ 0) :
    joinStep 0 (countReading on) db rows j =
      rows.bind fun e => (db j.source.relation).map fun r =>
        Function.update e j.source.aliasOrName r := by
  rw [joinStep, Bags.join_of_always hj hrows hdb, Multiset.map_bind]
  simp only [Multiset.map_map, Function.comp_def, extend, Option.getD_some]

private theorem card_joinStep {j : Join}
    (hj : ∀ e ∈ rows, ∀ r ∈ db j.source.relation, onHolds (countReading on) j e r = true)
    (hrows : rows ≠ 0) (hdb : db j.source.relation ≠ 0) :
    (joinStep 0 (countReading on) db rows j).card = rows.card * (db j.source.relation).card := by
  rw [joinStep_of_holds hj hrows hdb, Multiset.card_bind]
  simp

private theorem joinStep_ne_zero {j : Join}
    (hj : ∀ e ∈ rows, ∀ r ∈ db j.source.relation, onHolds (countReading on) j e r = true)
    (hrows : rows ≠ 0) (hdb : db j.source.relation ≠ 0) :
    joinStep 0 (countReading on) db rows j ≠ 0 := by
  rw [← Multiset.card_pos, card_joinStep hj hrows hdb]
  exact Nat.mul_pos (Multiset.card_pos.mpr hrows) (Multiset.card_pos.mpr hdb)

private theorem foldl_joinStep_ne_zero (hjoins : ∀ j ∈ joins, Always on j)
    (hdb : ∀ relation, db relation ≠ 0) (hrows : rows ≠ 0) :
    joins.foldl (joinStep 0 (countReading on) db) rows ≠ 0 := by
  induction joins generalizing rows with
  | nil => exact hrows
  | cons j joins ih =>
    rw [List.forall_mem_cons] at hjoins
    exact ih hjoins.2 (joinStep_ne_zero (fun _ _ _ _ => hjoins.1 _) hrows (hdb _))

/-- The rows of joins whose conditions always hold: all combinations. -/
theorem card_foldl_joinStep (hjoins : ∀ j ∈ joins, Always on j)
    (hdb : ∀ relation, db relation ≠ 0) (hrows : rows ≠ 0) :
    (joins.foldl (joinStep 0 (countReading on) db) rows).card =
      rows.card * (joins.map fun j => (db j.source.relation).card).prod := by
  induction joins generalizing rows with
  | nil => simp
  | cons j joins ih =>
    rw [List.forall_mem_cons] at hjoins
    have hstep : (joinStep 0 (countReading on) db rows j).card =
        rows.card * (db j.source.relation).card :=
      card_joinStep (fun _ _ _ _ => hjoins.1 _) hrows (hdb _)
    have hne : joinStep 0 (countReading on) db rows j ≠ 0 :=
      joinStep_ne_zero (fun _ _ _ _ => hjoins.1 _) hrows (hdb _)
    rw [List.foldl_cons, ih hjoins.2 hne, hstep, List.map_cons, List.prod_cons, mul_assoc]

/-- In joins whose conditions always hold, every alias has a row of its relation. -/
theorem mem_of_mem_foldl_joinStep {bound : List Source} (hjoins : ∀ j ∈ joins, Always on j)
    (hdb : ∀ relation, db relation ≠ 0) (hrows : rows ≠ 0)
    (haliases : ((bound ++ joins.map Join.source).map Source.aliasOrName).Nodup)
    (hbound : ∀ e ∈ rows, ∀ s ∈ bound, e s.aliasOrName ∈ db s.relation) :
    ∀ e ∈ joins.foldl (joinStep 0 (countReading on) db) rows,
      ∀ s ∈ bound ++ joins.map Join.source, e s.aliasOrName ∈ db s.relation := by
  induction joins generalizing rows bound with
  | nil => simpa using hbound
  | cons j joins ih =>
    rw [List.forall_mem_cons] at hjoins
    have hstep : joinStep 0 (countReading on) db rows j = _ :=
      joinStep_of_holds (fun _ _ _ _ => hjoins.1 _) hrows (hdb _)
    have hne : joinStep 0 (countReading on) db rows j ≠ 0 :=
      joinStep_ne_zero (fun _ _ _ _ => hjoins.1 _) hrows (hdb _)
    have hsplit : bound ++ (j :: joins).map Join.source =
        (bound ++ [j.source]) ++ joins.map Join.source := by
      simp
    rw [hsplit] at haliases ⊢
    rw [List.foldl_cons]
    apply ih hjoins.2 hne haliases
    -- One more alias is bound, to the row that was joined; the others keep theirs.
    intro extended hextended s hs
    rw [hstep] at hextended
    obtain ⟨e, he, hmem⟩ := Multiset.mem_bind.mp hextended
    obtain ⟨r, hr, rfl⟩ := Multiset.mem_map.mp hmem
    rw [List.mem_append, List.mem_singleton] at hs
    rcases hs with hs | rfl
    · have hne : s.aliasOrName ≠ j.source.aliasOrName := by
        rw [List.map_append, List.nodup_append, List.map_append, List.nodup_append] at haliases
        exact haliases.1.2.2 _ (List.mem_map_of_mem hs) _ (by simp)
      rw [Function.update_of_ne hne]
      exact hbound e he s hs
    · rw [Function.update_self]
      exact hr

/-- Where every row is zero, so is every joined row. -/
theorem eq_zero_of_mem_foldl_joinStep (hdb : ∀ relation, ∀ r ∈ db relation, r = zeroRow)
    (hrows : ∀ e ∈ rows, e = fun _ => zeroRow) :
    ∀ e ∈ joins.foldl (joinStep 0 (countReading on) db) rows, e = fun _ => zeroRow := by
  induction joins generalizing rows with
  | nil => exact hrows
  | cons j joins ih =>
    apply ih
    intro e he
    -- A row that finds no match is joined to NULL, which counts as zero.
    obtain ⟨⟨left, right⟩, hx, rfl⟩ := Multiset.mem_map.mp he
    obtain ⟨hleft, hright⟩ := Bags.mem_of_mem_join hx
    have hleft' : left.getD (fun _ => nullRow 0) = fun _ => zeroRow := by
      cases left with
      | none => rfl
      | some e => exact hrows e (hleft e rfl)
    have hright' : right.getD (nullRow 0) = zeroRow := by
      cases right with
      | none => rfl
      | some r => exact hdb _ r (hright r rfl)
    simp only [extend, hleft', hright', Function.update_eq_self]

end Joins

section Gaps

variable {project : Project} {q : Select} {p : Projection}

/-! ## A source that nothing is traced to -/

private theorem firstRows_ne_zero {db : Database ℕ} (hdb : ∀ relation, db relation ≠ 0) :
    firstRows 0 db q ≠ 0 := by
  simpa [firstRows] using hdb _

/-- Every combination of rows is joined when no condition leaves one out. -/
theorem card_joinedRows {on : String → List ℕ → Bool} {db : Database ℕ}
    (hjoins : ∀ j ∈ q.joins, Always on j) (hdb : ∀ relation, db relation ≠ 0) :
    (joinedRows 0 (countReading on) db q).card =
      (q.sources.map fun s => (db s.relation).card).prod := by
  rw [joinedRows, card_foldl_joinStep hjoins hdb (firstRows_ne_zero hdb), firstRows,
    Multiset.card_map, Select.sources, List.map_cons, List.prod_cons, List.map_map]
  rfl

private theorem joinedRows_ne_zero {on : String → List ℕ → Bool} {db : Database ℕ}
    (hjoins : ∀ j ∈ q.joins, Always on j) (hdb : ∀ relation, db relation ≠ 0) :
    joinedRows 0 (countReading on) db q ≠ 0 :=
  foldl_joinStep_ne_zero hjoins hdb (firstRows_ne_zero hdb)

private theorem neverLess_sources (hq : Qualified q) (hover : OverTables q) (hp : p ∈ q.selects)
    (hlimit : q.limit = none) (hdistinct : q.distinct = true → q.grouping ≠ .rows)
    (hnever : NeverLess project q p) :
    ∀ s ∈ q.sources, ∃ column, (s.relation, column) ∈ rawRead q p := by
  intro s hs
  by_contra hnone
  -- One row in every table, or one more in this one.
  let one : Database ℕ := fun _ => {zeroRow}
  let two : Database ℕ := fun relation => if relation = s.relation then {zeroRow, zeroRow}
    else {zeroRow}
  have hone : ∀ relation, one relation ≠ 0 := fun _ => Multiset.singleton_ne_zero _
  have htwo : ∀ relation, two relation ≠ 0 := by
    intro relation
    show (if relation = s.relation then _ else _) ≠ 0
    split
    · exact Multiset.cons_ne_zero
    · exact Multiset.singleton_ne_zero _
  have hagree : Agree 0 (rawRead q p) one two := by
    intro relation column hmem
    have hne : relation ≠ s.relation := fun h => hnone ⟨column, h ▸ hmem⟩
    show _ = Multiset.map _ (if relation = s.relation then _ else _)
    rw [if_neg hne]
  have halways : ∀ j ∈ q.joins, Always (fun _ _ => true) j := fun _ _ _ => rfl
  refine not_neverLess_of_card hq hover hp hlimit hdistinct hagree
    (joinedRows_ne_zero halways hone) (joinedRows_ne_zero halways htwo) ?_ hnever
  rw [card_joinedRows halways hone, card_joinedRows halways htwo]
  have hones : (q.sources.map fun s => (one s.relation).card).prod = 1 :=
    List.prod_eq_one fun n hn => by
      obtain ⟨s, -, rfl⟩ := List.mem_map.mp hn
      rfl
  have hdvd : 2 ∣ (q.sources.map fun s => (two s.relation).card).prod := by
    apply List.dvd_prod
    refine List.mem_map.mpr ⟨s, hs, ?_⟩
    show Multiset.card (if s.relation = s.relation then _ else _) = 2
    rw [if_pos rfl]
    rfl
  rw [hones]
  omega

/-! ## A left join that is not traced -/

theorem OnScoped.of_append {before after : List Join} {j : Join} {bound : List String}
    (h : OnScoped bound (before ++ j :: after)) {c : Column} (hc : c ∈ j.on) :
    c.table = j.source.aliasOrName ∨
      c.table ∈ bound ++ before.map fun j => j.source.aliasOrName := by
  induction before generalizing bound with
  | nil => simpa using h.1 c hc
  | cons head rest ih =>
    have hmem := ih h.2
    simp only [List.map_cons, List.mem_append, List.mem_cons] at hmem ⊢
    tauto

/-- With two rows in every table, each join but one doubles the rows. -/
private theorem card_joinedRows_split {on : String → List ℕ → Bool} {db : Database ℕ}
    {before after : List Join} {j : Join} {k : ℕ} (hsplit : q.joins = before ++ j :: after)
    (hbefore : ∀ j ∈ before, Always on j) (hafter : ∀ j ∈ after, Always on j)
    (hdb : ∀ relation, (db relation).card = 2) (hk : 0 < k)
    (hstep : (joinStep 0 (countReading on) db
        (before.foldl (joinStep 0 (countReading on) db) (firstRows 0 db q)) j).card =
      (before.foldl (joinStep 0 (countReading on) db) (firstRows 0 db q)).card * k) :
    (joinedRows 0 (countReading on) db q).card =
      2 * 2 ^ before.length * k * 2 ^ after.length := by
  have hne : ∀ relation, db relation ≠ 0 := by
    intro relation h
    have hcard := hdb relation
    rw [h] at hcard
    cases hcard
  -- Before the join and after it, two rows of each table are matched with everything.
  have htwos : ∀ joins : List Join, (joins.map fun j => (db j.source.relation).card).prod =
      2 ^ joins.length := by
    intro joins
    simp only [hdb, List.map_const', List.prod_replicate]
  have hfirst : (before.foldl (joinStep 0 (countReading on) db) (firstRows 0 db q)).card =
      2 * 2 ^ before.length := by
    rw [card_foldl_joinStep hbefore hne (firstRows_ne_zero hne), htwos, firstRows,
      Multiset.card_map, hdb]
  rw [hfirst] at hstep
  have hpos : joinStep 0 (countReading on) db
      (before.foldl (joinStep 0 (countReading on) db) (firstRows 0 db q)) j ≠ 0 := by
    rw [← Multiset.card_pos, hstep]
    positivity
  rw [joinedRows, hsplit, List.foldl_append, List.foldl_cons, card_foldl_joinStep hafter hne hpos,
    hstep, htwos]

/-- Only one condition reads anything: that one of its columns is one. -/
def onlyOn (side : String) (joined : String) (values : List ℕ) : Bool :=
  joined ≠ side || values.contains 1

/-- Two rows in every table, all zero. -/
def zeroTables : Database ℕ := fun _ => {zeroRow, zeroRow}

/-- A row that is one in one column of one relation. -/
def oneRow (relation : Relation) (column : String) : Relation → Row ℕ := fun r name =>
  if r = relation ∧ name = column then 1 else 0

/-- Two rows in every table, zero but for one column of one relation. -/
def oneTables (relation : Relation) (column : String) : Database ℕ := fun r =>
  {oneRow relation column r, oneRow relation column r}

/-- Where that column is not read, the two agree. -/
private theorem agree_tables {columns : Columns} {c : Column} {relation : Relation}
    (hrelation : q.relationOf c.table = some relation) (hunread : ¬ IsRead q columns c) :
    Agree 0 columns zeroTables (oneTables relation c.name) := by
  intro other column hmem
  have hrow : erasedRow 0 columns other (oneRow relation c.name other) =
      erasedRow 0 columns other zeroRow := by
    funext name
    simp only [erasedRow]
    split
    · rename_i hread
      apply if_neg
      rintro ⟨rfl, rfl⟩
      exact hunread ⟨other, hrelation, hread⟩
    · rfl
  show Multiset.map _ {zeroRow, zeroRow} = Multiset.map _ {oneRow _ _ _, oneRow _ _ _}
  simp [hrow]

/-- The condition of every other join holds. -/
private theorem always_onlyOn (hq : Qualified q) {before after : List Join} {j : Join}
    (hsplit : q.joins = before ++ j :: after) :
    (∀ j' ∈ before, Always (onlyOn j.source.aliasOrName) j') ∧
      ∀ j' ∈ after, Always (onlyOn j.source.aliasOrName) j' := by
  have haliases := hq.aliases
  rw [Select.sources, hsplit, List.map_cons, List.map_append, List.map_append, List.map_cons,
    List.map_cons, List.nodup_cons, List.nodup_append, List.nodup_cons] at haliases
  obtain ⟨-, -, ⟨hafter, -⟩, hbefore⟩ := haliases
  -- Aliases are unique: no other join has this one's.
  have halways : ∀ j' : Join, j'.source.aliasOrName ≠ j.source.aliasOrName →
      Always (onlyOn j.source.aliasOrName) j' := by
    intro j' hne values
    simp [onlyOn, hne]
  constructor
  · intro j' hj'
    apply halways
    exact hbefore _ (List.mem_map_of_mem (List.mem_map_of_mem hj')) _ (List.mem_cons_self ..)
  · intro j' hj'
    apply halways
    intro heq
    rw [← heq] at hafter
    exact hafter (List.mem_map_of_mem (List.mem_map_of_mem hj'))

/-- The left join finds no match among zeros. -/
private theorem card_joinStep_zeroTables {before : List Join} {j : Join} (hside : j.side = .left) :
    (joinStep 0 (countReading (onlyOn j.source.aliasOrName)) zeroTables
        (before.foldl (joinStep 0 (countReading (onlyOn j.source.aliasOrName)) zeroTables)
          (firstRows 0 zeroTables q)) j).card =
      (before.foldl (joinStep 0 (countReading (onlyOn j.source.aliasOrName)) zeroTables)
        (firstRows 0 zeroTables q)).card * 1 := by
  have hzeros : ∀ relation, ∀ r ∈ zeroTables relation, r = zeroRow := by
    intro relation r hr
    simpa [zeroTables] using hr
  have hfirst : ∀ e ∈ firstRows 0 zeroTables q, e = fun _ => zeroRow := by
    intro e he
    obtain ⟨r, hr, rfl⟩ := Multiset.mem_map.mp he
    rw [hzeros _ r hr]
    exact Function.update_eq_self _ _
  -- Whatever is joined before, its columns are all zero.
  have hrows : ∀ e ∈ before.foldl
      (joinStep 0 (countReading (onlyOn j.source.aliasOrName)) zeroTables)
      (firstRows 0 zeroTables q), e = fun _ => zeroRow :=
    eq_zero_of_mem_foldl_joinStep hzeros hfirst
  rw [joinStep, hside, Bags.leftJoin_of_never, Multiset.map_map, Multiset.card_map, mul_one]
  intro e he r hr
  rw [hrows e he, hzeros _ r hr]
  simp [onHolds, countReading, onlyOn, readColumns, zeroRow, Function.update_apply]

private theorem oneTables_ne_zero (relation : Relation) (column : String) (r : Relation) :
    oneTables relation column r ≠ 0 := by
  rw [oneTables]
  exact Multiset.cons_ne_zero

/-- Whatever alias the column is read from, its row is one there. -/
private theorem one_of_mem_oneTables (hq : Qualified q) {c : Column} {relation : Relation}
    (hrelation : q.relationOf c.table = some relation) {s : Source} (hs : s ∈ q.sources)
    (hname : s.aliasOrName = c.table) {row : Row ℕ}
    (hrow : row ∈ oneTables relation c.name s.relation) : row c.name = 1 := by
  have hsame := relationOf_eq hq hs
  rw [hname, hrelation] at hsame
  have hone : row = oneRow relation c.name s.relation := by simpa [oneTables] using hrow
  rw [hone, oneRow, if_pos ⟨(Option.some.inj hsame).symm, rfl⟩]

/-- Before a join, the aliases so far are bound to rows of their relations. -/
private theorem mem_of_mem_before (hq : Qualified q) {before after : List Join} {j : Join}
    (hsplit : q.joins = before ++ j :: after) {on : String → List ℕ → Bool} {db : Database ℕ}
    (hbefore : ∀ j ∈ before, Always on j) (hdb : ∀ relation, db relation ≠ 0) :
    ∀ e ∈ before.foldl (joinStep 0 (countReading on) db) (firstRows 0 db q),
      ∀ s ∈ [q.source] ++ before.map Join.source, e s.aliasOrName ∈ db s.relation := by
  have haliases : (([q.source] ++ before.map Join.source).map Source.aliasOrName).Nodup := by
    have hall := hq.aliases
    rw [Select.sources, hsplit, List.map_append, ← List.singleton_append, ← List.append_assoc,
      List.map_append] at hall
    exact (List.nodup_append.mp hall).1
  apply mem_of_mem_foldl_joinStep hbefore hdb (firstRows_ne_zero hdb) haliases
  intro e he s hs
  obtain ⟨r, hr, rfl⟩ := Multiset.mem_map.mp he
  obtain rfl := List.mem_singleton.mp hs
  rw [extend, Function.update_self]
  exact hr

/-- The left join matches every row where what it reads is one. -/
private theorem card_joinStep_oneTables (hq : Qualified q) {before after : List Join} {j : Join}
    (hsplit : q.joins = before ++ j :: after) {c : Column} (hc : c ∈ j.on) {relation : Relation}
    (hrelation : q.relationOf c.table = some relation) :
    (joinStep 0 (countReading (onlyOn j.source.aliasOrName)) (oneTables relation c.name)
        (before.foldl (joinStep 0 (countReading (onlyOn j.source.aliasOrName))
          (oneTables relation c.name)) (firstRows 0 (oneTables relation c.name) q)) j).card =
      (before.foldl (joinStep 0 (countReading (onlyOn j.source.aliasOrName))
        (oneTables relation c.name)) (firstRows 0 (oneTables relation c.name) q)).card * 2 := by
  have hne := oneTables_ne_zero relation c.name
  have hbefore := (always_onlyOn hq hsplit).1
  apply card_joinStep _ (foldl_joinStep_ne_zero hbefore hne (firstRows_ne_zero hne)) (hne _)
  intro e he r hr
  have hone : Function.update e j.source.aliasOrName r c.table c.name = 1 := by
    by_cases hown : c.table = j.source.aliasOrName
    · rw [hown, Function.update_self]
      apply one_of_mem_oneTables hq hrelation _ hown.symm hr
      rw [Select.sources, hsplit]
      simp
    · rw [Function.update_of_ne hown]
      -- The column is read from a side joined earlier.
      have hscope : OnScoped [q.source.aliasOrName] (before ++ j :: after) := hsplit ▸ hq.onScoped
      have hearlier : c.table ∈ ([q.source] ++ before.map Join.source).map Source.aliasOrName := by
        simpa using (hscope.of_append hc).resolve_left hown
      obtain ⟨s, hs, hname⟩ := List.mem_map.mp hearlier
      have hsource : s ∈ q.sources := by
        rw [Select.sources, hsplit, List.map_append]
        simp only [List.mem_append, List.mem_cons, List.not_mem_nil, or_false] at hs ⊢
        tauto
      rw [← hname]
      exact one_of_mem_oneTables hq hrelation hsource hname
        (mem_of_mem_before hq hsplit hbefore hne e he s hs)
  have hmem : 1 ∈ readColumns j.on (Function.update e j.source.aliasOrName r) :=
    List.mem_map.mpr ⟨c, hc, hone⟩
  simp [onHolds, countReading, onlyOn, hmem]

private theorem neverLess_leftJoins (hq : Qualified q) (hover : OverTables q)
    (hp : p ∈ q.selects) (hlimit : q.limit = none)
    (hdistinct : q.distinct = true → q.grouping ≠ .rows) (hnever : NeverLess project q p) :
    ∀ j ∈ q.joins, j.side = .left → ∀ c ∈ j.on, IsRead q (rawRead q p) c := by
  intro j hj hside c hc
  by_contra hunread
  obtain ⟨s, hs, hname⟩ := List.mem_map.mp (hq.on_mem hj hc)
  have hrelation : q.relationOf c.table = some s.relation := hname ▸ relationOf_eq hq hs
  obtain ⟨before, after, hsplit⟩ := List.append_of_mem hj
  obtain ⟨hbefore, hafter⟩ := always_onlyOn hq hsplit
  -- Two databases that differ in the unread column only: one doubles the rows at this join.
  have hzeros := card_joinedRows_split hsplit hbefore hafter (fun _ => rfl) (by omega)
    (card_joinStep_zeroTables hside)
  have hones := card_joinedRows_split hsplit hbefore hafter (fun _ => rfl) (by omega)
    (card_joinStep_oneTables hq hsplit hc hrelation)
  have hrows : joinedRows 0 (countReading (onlyOn j.source.aliasOrName)) zeroTables q ≠ 0 := by
    rw [← Multiset.card_pos, hzeros]
    positivity
  have hrows' : joinedRows 0 (countReading (onlyOn j.source.aliasOrName))
      (oneTables s.relation c.name) q ≠ 0 := by
    rw [← Multiset.card_pos, hones]
    positivity
  apply not_neverLess_of_card hq hover hp hlimit hdistinct (agree_tables hrelation hunread) hrows
    hrows'
  · rw [hzeros, hones]
    have hpos : 0 < 2 * 2 ^ before.length * 2 ^ after.length := by positivity
    lia
  · exact hnever

/-! ## Exactly when nothing is left out -/

private theorem complete_of_neverLess (hq : Qualified q) (hover : OverTables q)
    (hp : p ∈ q.selects) (hlimit : q.limit = none)
    (hdistinct : q.distinct = true → q.grouping ≠ .rows) (hnever : NeverLess project q p) :
    Complete project q p := by
  have hsources := neverLess_sources hq hover hp hlimit hdistinct hnever
  refine ⟨?_, shapedBelow_of_raw ?_⟩
  · exact {
      sources := fun s hs => (hsources s hs).imp fun column h => h.1
      leftJoins := by
        intro j hj hside c hc
        obtain ⟨relation, hrelation, hmem⟩ :=
          neverLess_leftJoins hq hover hp hlimit hdistinct hnever j hj hside c hc
        exact ⟨relation, hrelation, hmem.1⟩
      order := fun h => absurd hlimit h }
  · -- every source is a raw table, since something of it is read
    intro x hx
    obtain ⟨s, hs, hsource⟩ := exists_source_of_mem hx
    obtain ⟨column, -, table, htable⟩ := hsources s hs
    exact ⟨table, hsource ▸ htable⟩

/-- **Complete lineage leaves no cause out**, through the models of any project; and of a SELECT
over tables no other does, without a `LIMIT`. With `DISTINCT` and no groups, what multiplies rows
may be left out. -/
theorem neverLess_exact (hq : Qualified q) (hproject : ∀ m ∈ project, Qualified m.2)
    (hp : p ∈ q.selects) :
    (Complete project q p → NeverLess project q p) ∧
      (OverTables q → q.limit = none → (q.distinct = true → q.grouping ≠ .rows) →
        NeverLess project q p → Complete project q p) :=
  ⟨neverLess_of_complete hq hproject hp, fun hover hlimit hdistinct hnever =>
    complete_of_neverLess hq hover hp hlimit hdistinct hnever⟩

end Gaps

/-- `SELECT s.status AS status, sum(s.amount) AS revenue FROM stg_orders AS s GROUP BY s.status`. -/
def revenueByStatus : Select where
  source := ⟨"s", .model "model.company.stg_orders"⟩
  grouping := .keys [⟨"s", "status"⟩]
  selects := [⟨"status", [⟨"s", "status"⟩]⟩, ⟨"revenue", [⟨"s", "amount"⟩]⟩]

theorem neverLess_revenue :
    trace (model [("model.company.stg_orders", stagedOrders)]) revenueByStatus = .ok
        [("status", [("orders", "status"), ("orders", "test"), ("orders", "status"),
          ("orders", "test")]),
        ("revenue", [("orders", "amount"), ("orders", "test"), ("orders", "status"),
          ("orders", "test")])] ∧
      NeverLess [("model.company.stg_orders", stagedOrders)] revenueByStatus
        ⟨"revenue", [⟨"s", "amount"⟩]⟩ := by
  have hstaged : Qualified stagedOrders :=
    { aliases := by decide
      names := by decide
      reads := by decide
      onScoped := trivial }
  have hrevenue : Qualified revenueByStatus :=
    { aliases := by decide
      names := by decide
      reads := by decide
      onScoped := trivial }
  -- The amount is read of the model, and of the raw table for the model.
  have hamount : (Relation.model "model.company.stg_orders", "amount") ∈
      columnsFor revenueByStatus {"revenue"} :=
    ⟨⟨"revenue", [⟨"s", "amount"⟩]⟩, by decide, rfl, ⟨"s", "amount"⟩, .value (by decide), rfl, rfl⟩
  have hraw : (Relation.raw "orders", "amount") ∈ columnsFor stagedOrders
      (namesOf "model.company.stg_orders" (columnsFor revenueByStatus {"revenue"})) :=
    ⟨⟨"amount", [⟨"s", "amount"⟩]⟩, by decide, hamount, ⟨"s", "amount"⟩, .value (by decide), rfl,
      rfl⟩
  refine ⟨rfl, (neverLess_exact hrevenue (by simpa using hstaged) (by decide)).1 ⟨?_, ?_, ?_⟩⟩
  · exact {
      sources := by
        intro s hs
        obtain rfl := List.mem_singleton.mp hs
        exact ⟨"amount", hamount⟩
      leftJoins := fun j hj => absurd hj List.not_mem_nil
      order := fun h => absurd rfl h }
  · intro _
    exact {
      sources := by
        intro s hs
        obtain rfl := List.mem_singleton.mp hs
        exact ⟨"amount", hraw⟩
      leftJoins := fun j hj => absurd hj List.not_mem_nil
      order := fun h => absurd rfl h }
  · rintro x (⟨hx, hne⟩ | hx)
    · obtain ⟨s, hs, hsource⟩ := exists_source_of_mem hx
      obtain rfl := List.mem_singleton.mp hs
      exact absurd hsource.symm hne
    · obtain ⟨s, hs, hsource⟩ := exists_source_of_mem hx
      obtain rfl := List.mem_singleton.mp hs
      exact ⟨"orders", hsource.symm⟩

/-- `SELECT count(*) AS n FROM orders AS o`. -/
def countOrders : Select where
  source := ⟨"o", .raw "orders"⟩
  grouping := .whole
  selects := [⟨"n", []⟩]

/-- A count without a filter is traced to nothing, so more orders leave it without a cause. -/
theorem not_neverLess_count : Qualified countOrders ∧ ¬ NeverLess [] countOrders ⟨"n", []⟩ := by
  refine ⟨{
    aliases := by decide
    names := by decide
    reads := by decide
    onScoped := trivial }, fun hnever => ?_⟩
  have hagree : Agree 0 (rawColumns []) (fun _ => {zeroRow}) (fun _ => {zeroRow, zeroRow}) := by
    rintro relation column ⟨table, -, hmem⟩
    exact absurd hmem List.not_mem_nil
  obtain ⟨built, rows, rfl, ⟨sorted, kept, rfl, rfl, hkept⟩, hvalues⟩ :=
    (hnever [("n", [])] [] rfl List.mem_cons_self ℕ 0 (fun _ => countReading fun _ _ => true)
      (countReading fun _ _ => true) _ _ hagree {1}).mp
        ⟨_, _, rfl, ⟨_, _, rfl, rfl, rfl⟩, rfl⟩
  obtain rfl : kept = _ := hkept
  exact absurd hvalues (by decide)

end PlatformOps.Metadata.ColumnLineage
