import PlatformOps.Metadata.Reads

/-!
# More, Never Less

Complete lineage leaves no cause out. What a SELECT does with its rows goes under erasing
the columns that are not read, clause by clause; so databases that agree on what is read
return the same, and the models of a project are built alike, one after the other.

- `map_joinedRows`, `map_groupsOf`: clauses go under the erasing.
- `exists_returns_of_agree`: what a SELECT may return, up to what is read.
- `exists_builds`: databases that agree on what is read are built alike.
- `neverLess_of_complete`: complete lineage leaves no cause out.
-/

namespace PlatformOps.Metadata.ColumnLineage

open Listing Fallible

variable {V : Type}

/-! ## Erasing what is not read -/

section Erasing

variable (null : V) (q : Select) (columns : Columns)

/-- A joined row up to its other columns. -/
noncomputable def erased (e : Joined V) : Joined V := fun side =>
  match q.relationOf side with
  | some relation => erasedRow null columns relation (e side)
  | none => nullRow null

noncomputable def erasedDatabase (db : Database V) : Database V := fun relation =>
  (db relation).map (erasedRow null columns relation)

variable {null q columns}

/-- Columns that are read are read off the erased row. -/
theorem readColumns_erased {clause : List Column} (h : ∀ c ∈ clause, IsRead q columns c)
    (e : Joined V) : readColumns clause (erased null q columns e) = readColumns clause e := by
  refine List.map_congr_left fun c hc => ?_
  obtain ⟨relation, hrelation, hmem⟩ := h c hc
  simp only [erased, hrelation, erasedRow, if_pos hmem]

theorem readAll_erased {clause : List Column} (h : ∀ c ∈ clause, IsRead q columns c)
    (group : Multiset (Joined V)) :
    readAll clause (group.map (erased null q columns)) = readAll clause group := by
  rw [readAll, Multiset.map_map]
  exact Multiset.map_congr rfl fun e _ => readColumns_erased h e

private theorem erasedRow_nullRow (relation : Relation) :
    erasedRow null columns relation (nullRow null) = nullRow null := by
  funext c
  simp [erasedRow, nullRow]

private theorem erased_nullRow :
    erased null q columns (fun _ => nullRow null) = fun _ => nullRow null := by
  funext side
  unfold erased
  split
  · exact erasedRow_nullRow _
  · rfl

private theorem erased_update (hq : Qualified q) {s : Source} (hs : s ∈ q.sources) (e : Joined V)
    (r : Row V) : erased null q columns (Function.update e s.aliasOrName r) =
      Function.update (erased null q columns e) s.aliasOrName
        (erasedRow null columns s.relation r) := by
  funext side
  by_cases hside : side = s.aliasOrName
  · subst hside
    simp [erased, relationOf_eq hq hs]
  · simp [erased, hside]

/-- Erasing goes under a join. -/
theorem erased_extend (hq : Qualified q) {s : Source} (hs : s ∈ q.sources)
    (x : Option (Joined V) × Option (Row V)) :
    erased null q columns (extend null s.aliasOrName x) = extend null s.aliasOrName
      (Prod.map (Option.map (erased null q columns))
        (Option.map (erasedRow null columns s.relation)) x) := by
  obtain ⟨left, right⟩ := x
  rw [extend, erased_update hq hs]
  cases left <;> cases right <;> simp [extend, erased_nullRow, erasedRow_nullRow]

variable {reading : Reading V} {db db' : Database V}

private theorem map_joinStep (hq : Qualified q) {j : Join} (hj : j ∈ q.joins)
    (hread : ∀ c ∈ j.on, IsRead q columns c) (rows : Multiset (Joined V)) :
    (joinStep null reading db rows j).map (erased null q columns) =
      joinStep null reading (erasedDatabase null columns db) (rows.map (erased null q columns))
        j := by
  have hs : j.source ∈ q.sources := List.mem_cons_of_mem _ (List.mem_map_of_mem hj)
  have hon : ∀ (e : Joined V) (r : Row V),
      onHolds reading j (erased null q columns e) (erasedRow null columns j.source.relation r) =
        onHolds reading j e r := by
    intro e r
    rw [onHolds, ← erased_update hq hs, readColumns_erased hread]
    rfl
  rw [joinStep, joinStep, erasedDatabase, ← Bags.map_join _ hon, Multiset.map_map,
    Multiset.map_map]
  exact Multiset.map_congr rfl fun x _ => erased_extend hq hs x

/-- **The joined rows of a database, erased, are the ones of the erased database.** -/
theorem map_joinedRows (hq : Qualified q)
    (hread : ∀ j ∈ q.joins, ∀ c ∈ j.on, IsRead q columns c) :
    (joinedRows null reading db q).map (erased null q columns) =
      joinedRows null reading (erasedDatabase null columns db) q := by
  -- One join after the other, whatever has been joined before.
  have hfold : ∀ joins : List Join, (∀ j ∈ joins, j ∈ q.joins) → ∀ rows : Multiset (Joined V),
      (joins.foldl (joinStep null reading db) rows).map (erased null q columns) =
        joins.foldl (joinStep null reading (erasedDatabase null columns db))
          (rows.map (erased null q columns)) := by
    intro joins
    induction joins with
    | nil => exact fun _ _ => rfl
    | cons j joins ih =>
      intro hjoins rows
      rw [List.forall_mem_cons] at hjoins
      rw [List.foldl_cons, List.foldl_cons, ih hjoins.2,
        map_joinStep hq hjoins.1 (hread j hjoins.1)]
  rw [joinedRows, joinedRows, hfold q.joins (fun _ h => h), firstRows, firstRows, erasedDatabase,
    Multiset.map_map, Multiset.map_map]
  congr 1
  refine Multiset.map_congr rfl fun r _ => ?_
  exact erased_extend hq (List.mem_cons_self ..) (none, some r)

/-- The joined rows depend on the relations of the sources. -/
theorem joinedRows_congr (h : ∀ s ∈ q.sources, db s.relation = db' s.relation) :
    joinedRows null reading db q = joinedRows null reading db' q := by
  rw [joinedRows, joinedRows, firstRows, firstRows, h q.source (List.mem_cons_self ..)]
  refine List.foldl_ext _ _ _ fun rows j hj => ?_
  rw [joinStep, joinStep, h j.source (List.mem_cons_of_mem _ (List.mem_map_of_mem hj))]

/-- A condition on columns that are read is one on the erased rows. -/
private theorem map_filter_erased {condition : Joined V → Bool}
    (h : ∀ e, condition (erased null q columns e) = condition e) (rows : Multiset (Joined V)) :
    (rows.filter fun e => condition e).map (erased null q columns) =
      (rows.map (erased null q columns)).filter fun e => condition e := by
  rw [Multiset.filter_map]
  simp only [Function.comp_def, h]

theorem map_groupsOf [DecidableEq V] {g : Grouping} (hread : ∀ c ∈ g.columns, IsRead q columns c)
    (rows : Multiset (Joined V)) :
    (groupsOf reading rows g).map (Multiset.map (erased null q columns)) =
      groupsOf reading (rows.map (erased null q columns)) g := by
  cases g with
  | rows =>
    rw [groupsOf, groupsOf, Multiset.map_map, Multiset.map_map]
    rfl
  | whole => rfl
  | keys keys =>
    apply Bags.map_groups
    intro e
    exact congrArg reading.key (readColumns_erased hread e)

end Erasing

/-! ## One SELECT, read in shape -/

open Classical in
/-- A row by what it has under these names. -/
noncomputable def restricted (names : Set String) (row : List (String × V)) : String → Option V :=
  fun name => if name ∈ names then row.lookup name else none

section OneSelect

variable {null : V} {q : Select} {p : Projection} {names : Set String} {reading : Reading V}
  {db db' : Database V}

/-- What shapes the rows is read for every expression. -/
theorem Shaped.on_isRead (hshaped : Shaped q (columnsFor q names)) (hq : Qualified q) :
    ∀ j ∈ q.joins, ∀ c ∈ j.on, IsRead q (columnsFor q names) c := by
  intro j hj c hc
  obtain ⟨column, p, hp, hname, -⟩ := hshaped.sources q.source (List.mem_cons_self ..)
  by_cases hside : j.side = .left
  · exact hshaped.leftJoins j hj hside c hc
  · exact isRead_columnsFor hq hp hname (.on hj hside hc)

theorem Shaped.clause_isRead (hshaped : Shaped q (columnsFor q names)) (hq : Qualified q)
    {c : Column} (hc : c ∈ q.condition ∨ c ∈ q.grouping.columns ∨ c ∈ q.having) :
    IsRead q (columnsFor q names) c := by
  obtain ⟨column, p, hp, hname, -⟩ := hshaped.sources q.source (List.mem_cons_self ..)
  rcases hc with h | h | h
  · exact isRead_columnsFor hq hp hname (.condition h)
  · exact isRead_columnsFor hq hp hname (.grouping h)
  · exact isRead_columnsFor hq hp hname (.having h)

/-- With `DISTINCT` every selected column is read, for every expression. -/
theorem Shaped.value_isRead (hshaped : Shaped q (columnsFor q names)) (hq : Qualified q)
    (hp : p ∈ q.selects) (hname : p.name ∈ names ∨ q.distinct = true) :
    ∀ c ∈ p.value, IsRead q (columnsFor q names) c := by
  intro c hc
  obtain ⟨column, first, hfirst, hwanted, -⟩ := hshaped.sources q.source (List.mem_cons_self ..)
  cases hname with
  | inl hname => exact isRead_columnsFor hq hp hname (.value hc)
  | inr hdistinct => exact isRead_columnsFor hq hfirst hwanted (.distinct hdistinct hp hc)

private theorem map_joinedRows_eq (hq : Qualified q) (hshaped : Shaped q (columnsFor q names))
    (hagree : Agree null (columnsFor q names) db db') :
    (joinedRows null reading db q).map (erased null q (columnsFor q names)) =
      (joinedRows null reading db' q).map (erased null q (columnsFor q names)) := by
  have hread := hshaped.on_isRead hq
  rw [map_joinedRows hq hread, map_joinedRows hq hread]
  apply joinedRows_congr
  intro s hs
  obtain ⟨column, hmem⟩ := hshaped.sources s hs
  exact hagree s.relation column hmem

/-- The values of an output row under one name are those of the expressions with that name. -/
private theorem lookup_map_congr {selects : List Projection} {f g : Projection → V} {name : String}
    (h : ∀ p ∈ selects, p.name = name → f p = g p) :
    (selects.map fun p => (p.name, f p)).lookup name =
      (selects.map fun p => (p.name, g p)).lookup name := by
  induction selects with
  | nil => rfl
  | cons p selects ih =>
    rw [List.forall_mem_cons] at h
    rw [List.map_cons, List.map_cons, List.lookup_cons, List.lookup_cons, ih h.2]
    by_cases hname : p.name = name
    · rw [h.1 hname]
    · have hne : (name == p.name) = false := by simpa using Ne.symm hname
      rw [hne]

/-- What is read of the row of a group, is read off the erased group. -/
private theorem restricted_outputRow (hq : Qualified q) (hshaped : Shaped q (columnsFor q names))
    (group : Multiset (Joined V)) :
    restricted names (outputRow reading q (group.map (erased null q (columnsFor q names)))) =
      restricted names (outputRow reading q group) := by
  funext name
  unfold restricted
  split
  · rename_i hwanted
    apply lookup_map_congr
    intro p hp hname
    rw [readAll_erased (hshaped.value_isRead hq hp (Or.inl (hname ▸ hwanted)))]
  · rfl

private theorem outputRow_of_distinct (hq : Qualified q) (hshaped : Shaped q (columnsFor q names))
    (hdistinct : q.distinct = true) (group : Multiset (Joined V)) :
    outputRow reading q (group.map (erased null q (columnsFor q names))) =
      outputRow reading q group := by
  refine List.map_congr_left fun p hp => ?_
  rw [readAll_erased (hshaped.value_isRead hq hp (Or.inr hdistinct))]

variable [DecidableEq V]

/-- The groups that are kept, up to what is not read. -/
private theorem map_keptGroups_eq (hq : Qualified q) (hshaped : Shaped q (columnsFor q names))
    (hagree : Agree null (columnsFor q names) db db') :
    (keptGroups null reading db q).map (Multiset.map (erased null q (columnsFor q names))) =
      (keptGroups null reading db' q).map
        (Multiset.map (erased null q (columnsFor q names))) := by
  have hcondition : ∀ c ∈ q.condition, IsRead q (columnsFor q names) c :=
    fun c h => hshaped.clause_isRead hq (Or.inl h)
  have hkeys : ∀ c ∈ q.grouping.columns, IsRead q (columnsFor q names) c :=
    fun c h => hshaped.clause_isRead hq (Or.inr (Or.inl h))
  have hhaving : ∀ c ∈ q.having, IsRead q (columnsFor q names) c :=
    fun c h => hshaped.clause_isRead hq (Or.inr (Or.inr h))
  -- Each clause goes under the erasing, down to the joined rows.
  have hgroups : ∀ db : Database V,
      (keptGroups null reading db q).map (Multiset.map (erased null q (columnsFor q names))) =
        (groupsOf reading (((joinedRows null reading db q).map
          (erased null q (columnsFor q names))).filter fun e =>
            reading.condition (readColumns q.condition e)) q.grouping).filter fun group =>
              reading.having (readAll q.having group) := by
    intro db
    rw [← map_filter_erased fun e => by rw [readColumns_erased hcondition], ← map_groupsOf hkeys,
      Multiset.filter_map]
    simp only [Function.comp_def, readAll_erased hhaving]
    rfl
  rw [hgroups, hgroups, map_joinedRows_eq hq hshaped hagree]

/-- What can be said of the erased groups is the same for both databases. -/
private theorem map_keptGroups_congr {W : Type} {F : Multiset (Joined V) → W} (hq : Qualified q)
    (hshaped : Shaped q (columnsFor q names)) (hagree : Agree null (columnsFor q names) db db')
    (hF : ∀ group, F (group.map (erased null q (columnsFor q names))) = F group) :
    (keptGroups null reading db q).map F = (keptGroups null reading db' q).map F := by
  have hmap : ((keptGroups null reading db q).map
        (Multiset.map (erased null q (columnsFor q names)))).map F =
      ((keptGroups null reading db' q).map
        (Multiset.map (erased null q (columnsFor q names)))).map F := by
    rw [map_keptGroups_eq hq hshaped hagree]
  simpa only [Multiset.map_map, Function.comp_def, hF] using hmap

/-- With `DISTINCT` the same rows are returned, whichever of those alike are sorted. -/
private theorem returns_of_distinct (hq : Qualified q) (hshaped : Shaped q (columnsFor q names))
    (hdistinct : q.distinct = true) (hagree : Agree null (columnsFor q names) db db')
    {rows : Multiset (List (String × V))} (h : Returns null reading db q rows) :
    Returns null reading db' q rows := by
  obtain ⟨sorted, kept, hsorted, rfl, hkept⟩ := h
  rw [Sorted, if_pos hdistinct] at hsorted
  cases hlimit : q.limit with
  | none =>
    rw [hlimit] at hkept
    subst hkept
    have hrows : (evaluated null reading db q).map Prod.fst =
        (evaluated null reading db' q).map Prod.fst := by
      rw [evaluated, evaluated, Multiset.map_map, Multiset.map_map]
      exact map_keptGroups_congr hq hshaped hagree (outputRow_of_distinct hq hshaped hdistinct)
    obtain ⟨sorted', hsorted'⟩ :=
      Bags.exists_representatives Prod.fst (evaluated null reading db' q)
    refine ⟨sorted', sorted', by rwa [Sorted, if_pos hdistinct], ?_, by rw [hlimit]⟩
    rw [hsorted.2, hsorted'.2, hrows]
  | some n =>
    -- What is sorted by is read, too.
    have horder := hshaped.order (by rw [hlimit]; exact Option.some_ne_none n)
    have hevaluated : evaluated null reading db q = evaluated null reading db' q := by
      apply map_keptGroups_congr hq hshaped hagree
      intro group
      rw [outputRow_of_distinct hq hshaped hdistinct, readAll_erased horder]
    rw [hevaluated] at hsorted
    exact ⟨sorted, kept, by rwa [Sorted, if_pos hdistinct], rfl, hkept⟩

/-- **What one database may return, another that agrees may return, too**, up to columns that are
not read. -/
theorem exists_returns_of_agree (hq : Qualified q) (hshaped : Shaped q (columnsFor q names))
    (hagree : Agree null (columnsFor q names) db db') {rows : Multiset (List (String × V))}
    (h : Returns null reading db q rows) : ∃ rows', Returns null reading db' q rows' ∧
      rows'.map (restricted names) = rows.map (restricted names) := by
  by_cases hdistinct : q.distinct = true
  · exact ⟨rows, returns_of_distinct hq hshaped hdistinct hagree h, rfl⟩
  obtain ⟨sorted, kept, hsorted, rfl, hkept⟩ := h
  have hself : ∀ db : Database V, Sorted null reading db q (evaluated null reading db q) := by
    intro db
    rw [Sorted, if_neg hdistinct]
  rw [Sorted, if_neg hdistinct] at hsorted
  subst hsorted
  cases hlimit : q.limit with
  | none =>
    rw [hlimit] at hkept
    subst hkept
    refine ⟨_, ⟨_, _, hself db', rfl, by rw [hlimit]⟩, ?_⟩
    rw [evaluated, evaluated, Multiset.map_map, Multiset.map_map, Multiset.map_map,
      Multiset.map_map]
    exact (map_keptGroups_congr hq hshaped hagree (restricted_outputRow hq hshaped)).symm
  | some n =>
    rw [hlimit] at hkept
    have horder := hshaped.order (by rw [hlimit]; exact Option.some_ne_none n)
    -- The row and what it is sorted by are read off the columns that agree.
    have himage : (evaluated null reading db q).map (Prod.map (restricted names) id) =
        (evaluated null reading db' q).map (Prod.map (restricted names) id) := by
      rw [evaluated, evaluated, Multiset.map_map, Multiset.map_map]
      apply map_keptGroups_congr hq hshaped hagree
      intro group
      simp only [Function.comp_apply, Prod.map_apply, id_eq, restricted_outputRow hq hshaped,
        readAll_erased horder]
    obtain ⟨kept', hcut, hmap⟩ : ∃ kept', Bags.Cut n (fun x y => reading.before x.2 y.2)
          (evaluated null reading db' q) kept' ∧
        kept'.map (Prod.map (restricted names) id) = kept.map (Prod.map (restricted names) id) :=
      @Bags.exists_cut_of_map_eq _ _ _ _ _ n (fun x y => reading.before x.2 y.2) _ _ _ _ _
        himage hkept
    refine ⟨_, ⟨_, kept', hself db', rfl, by rw [hlimit]; exact hcut⟩, ?_⟩
    have hfirst := congrArg (Multiset.map Prod.fst) hmap
    simpa only [Multiset.map_map, Function.comp_def, Prod.map_fst] using hfirst

/-- A SELECT returns something. -/
theorem exists_returns (null : V) (reading : Reading V) (db : Database V) (q : Select) :
    ∃ rows, Returns null reading db q rows := by
  obtain ⟨sorted, hsorted⟩ : ∃ sorted, Sorted null reading db q sorted := by
    by_cases hdistinct : q.distinct = true
    · simp only [Sorted, if_pos hdistinct]
      exact Bags.exists_representatives Prod.fst _
    · simp only [Sorted, if_neg hdistinct]
      exact ⟨_, rfl⟩
  cases hlimit : q.limit with
  | none => exact ⟨_, sorted, sorted, hsorted, rfl, by rw [hlimit]⟩
  | some n =>
    obtain ⟨kept, hkept⟩ := Bags.exists_cut (fun x => reading.before_irrefl x.2)
      (fun x y z => reading.before_trans x.2 y.2 z.2) n sorted
    exact ⟨_, sorted, kept, hsorted, rfl, by rw [hlimit]; exact hkept⟩

end OneSelect

/-! ## Models below -/

section Below

variable {null : V} {db db' : Database V} {columns : Columns} {project : Project}
  {found : List RawColumn}

theorem Agree.symm (h : Agree null columns db db') : Agree null columns db' db :=
  fun relation column hmem => (h relation column hmem).symm

/-- Databases that agree on more columns agree on fewer. -/
theorem Agree.mono {fewer : Columns} (h : Agree null columns db db') (hsub : fewer ⊆ columns) :
    Agree null fewer db db' := by
  intro relation column hmem
  have herased : erasedRow null fewer relation ∘ erasedRow null columns relation =
      erasedRow null fewer relation := by
    funext r c
    simp only [Function.comp_apply, erasedRow]
    split
    · rw [if_pos (hsub ‹_›)]
    · rfl
  have hmap := congrArg (Multiset.map (erasedRow null fewer relation))
    (h relation column (hsub hmem))
  rwa [Multiset.map_map, Multiset.map_map, herased] at hmap

/-- What is read of a model's row is what its SELECT gave under the names. -/
private theorem erasedRow_tableRow (uid : String) (row : List (String × V)) :
    erasedRow null columns (.model uid) (tableRow null row) =
      fun c => (restricted (namesOf uid columns) row c).getD null := by
  funext c
  by_cases h : (Relation.model uid, c) ∈ columns
  · have hname : c ∈ namesOf uid columns := h
    rw [erasedRow, if_pos h, restricted, if_pos hname]
    rfl
  · have hname : c ∉ namesOf uid columns := h
    rw [erasedRow, if_neg h, restricted, if_neg hname]
    rfl

/-- Each column is traced, to raw columns among these. -/
def Resolved (project : Project) (columns : Columns) (found : List RawColumn) : Prop :=
  ∀ x ∈ columns, ∃ traced, resolveColumn (model project) x = .ok traced ∧ traced ⊆ found

/-- What a SELECT reads for an expression resolves to what the expression is traced to. -/
theorem resolved_columnsFor {q : Select} {p : Projection} (hq : Qualified q)
    (hp : p ∈ q.selects) {traced : List (String × List RawColumn)}
    (htrace : trace (model project) q = .ok traced) (hmem : (p.name, found) ∈ traced) :
    Resolved project (columnsFor q {p.name}) found := by
  intro x hx
  obtain ⟨lists, hlists, heq⟩ := bind_eq_ok.mp (resolve_of_mem_trace hq hp htrace hmem)
  obtain ⟨list, hlist, hresolve⟩ := exists_image_of_mem hlists ((mem_leaves_iff hq hp).mpr hx)
  refine ⟨list, hresolve, fun c hc => ?_⟩
  rw [← pure_eq_ok.mp heq]
  exact List.mem_flatten.mpr ⟨list, hlist, hc⟩

/-- What is read of the models below is resolved there. -/
private theorem Resolved.below {uid : String} {q : Select} {upstream : Project}
    (hq : Qualified q) (h : Resolved ((uid, q) :: upstream) columns found) :
    Resolved upstream ({x ∈ columns | x.1 ≠ .model uid} ∪ columnsFor q (namesOf uid columns))
      found := by
  rintro ⟨relation, column⟩ (⟨hmem, hne⟩ | hread)
  · -- a column of another relation
    obtain ⟨traced, hresolve, hsub⟩ := h _ hmem
    refine ⟨traced, ?_, hsub⟩
    cases relation with
    | raw table => exact hresolve
    | other table => exact hresolve
    | model name =>
      have hname : name ≠ uid := fun heq => hne (heq ▸ rfl)
      simpa only [resolveColumn, model, if_neg hname] using hresolve
  · -- a column that the model's SELECT reads for a column of the model
    obtain ⟨p, hp, hname, hread⟩ := hread
    obtain ⟨list, hresolve, hsub⟩ := h _ hname
    simp only [resolveColumn, model, if_true] at hresolve
    obtain ⟨traced, htrace, hlookup⟩ := bind_eq_ok.mp hresolve
    split at hlookup
    · rename_i columns hcolumns
      obtain rfl := Except.ok.inj hlookup
      obtain ⟨list', hlist', hsub'⟩ := resolved_columnsFor hq hp htrace
        (mem_of_lookup_eq_some hcolumns) (relation, column) ⟨p, hp, rfl, hread⟩
      exact ⟨list', hlist', List.Subset.trans hsub' hsub⟩
    · cases hlookup

private theorem columnValues_restricted (p : Projection) (rows : Multiset (List (String × V))) :
    columnValues null p rows =
      (rows.map (restricted {p.name})).map fun row => (row p.name).getD null := by
  rw [columnValues, Multiset.map_map]
  refine Multiset.map_congr rfl fun row _ => ?_
  rw [Function.comp_apply, restricted, if_pos (Set.mem_singleton p.name)]

variable [DecidableEq V]

/-- **Databases that agree on what is read are built alike**, model by model. -/
theorem exists_builds {readings : String → Reading V} (hproject : ∀ m ∈ project, Qualified m.2)
    (hshaped : ShapedBelow project columns) (hresolved : Resolved project columns found)
    (hagree : Agree null (rawColumns found) db db') {built : Database V}
    (h : Builds null readings db project built) :
    ∃ built', Builds null readings db' project built' ∧ Agree null columns built built' := by
  induction project generalizing columns built with
  | nil =>
    obtain rfl := h
    refine ⟨db', rfl, hagree.mono fun x hx => ?_⟩
    -- only raw columns are left, and they resolve to themselves
    obtain ⟨table, htable⟩ := hshaped x hx
    obtain ⟨traced, hresolve, hsub⟩ := hresolved x hx
    obtain ⟨relation, column⟩ := x
    obtain rfl : relation = .raw table := htable
    obtain rfl := Except.ok.inj hresolve
    exact ⟨table, rfl, hsub (List.mem_singleton.mpr rfl)⟩
  | cons m upstream ih =>
    obtain ⟨uid, q⟩ := m
    obtain ⟨hq, hupstream⟩ := List.forall_mem_cons.mp hproject
    obtain ⟨hown, hbelow⟩ := hshaped
    obtain ⟨below, hbuilt, rows, hreturns, rfl⟩ := h
    obtain ⟨below', hbuilt', hsame⟩ := ih hupstream hbelow (hresolved.below hq) hbuilt
    -- The model's rows are the same as far as they are read.
    obtain ⟨rows', hreturns', hrows⟩ : ∃ rows', Returns null (readings uid) below' q rows' ∧
        ((namesOf uid columns).Nonempty → rows'.map (restricted (namesOf uid columns)) =
          rows.map (restricted (namesOf uid columns))) := by
      by_cases hread : (namesOf uid columns).Nonempty
      · obtain ⟨rows', hreturns', hrows⟩ := exists_returns_of_agree hq (hown hread)
          (hsame.mono Set.subset_union_right) hreturns
        exact ⟨rows', hreturns', fun _ => hrows⟩
      · obtain ⟨rows', hreturns'⟩ := exists_returns null (readings uid) below' q
        exact ⟨rows', hreturns', fun h => absurd h hread⟩
    refine ⟨_, ⟨below', hbuilt', rows', hreturns', rfl⟩, fun relation column hmem => ?_⟩
    by_cases hmodel : relation = .model uid
    · subst hmodel
      have herased : erasedRow null columns (.model uid) ∘ tableRow null =
          (fun row c => (row c).getD null) ∘ restricted (namesOf uid columns) :=
        funext (erasedRow_tableRow uid)
      rw [Function.update_self, Function.update_self, Multiset.map_map, Multiset.map_map, herased,
        ← Multiset.map_map, ← Multiset.map_map, hrows ⟨column, hmem⟩]
    · rw [Function.update_of_ne hmodel, Function.update_of_ne hmodel]
      have hother := hsame.mono Set.subset_union_left relation column ⟨hmem, hmodel⟩
      have herased : erasedRow null {x ∈ columns | x.1 ≠ .model uid} relation =
          erasedRow null columns relation := by
        funext r c
        by_cases hmem : (relation, c) ∈ columns
        · rw [erasedRow, if_pos ⟨hmem, hmodel⟩, erasedRow, if_pos hmem]
        · rw [erasedRow, if_neg fun h => hmem h.1, erasedRow, if_neg hmem]
      rwa [herased] at hother

/-! ## Complete lineage leaves nothing out -/

/-- **Complete lineage leaves no cause out.** -/
theorem neverLess_of_complete {q : Select} {p : Projection} (hq : Qualified q)
    (hproject : ∀ m ∈ project, Qualified m.2) (hp : p ∈ q.selects)
    (hcomplete : Complete project q p) : NeverLess project q p := by
  intro traced found htrace hmem V _ null readings reading db db' hagree values
  have hresolved := resolved_columnsFor hq hp htrace hmem
  -- What is returned over one database, is returned over one that agrees.
  have hreturned : ∀ db db' : Database V, Agree null (rawColumns found) db db' →
      (∃ built rows, Builds null readings db project built ∧
        Returns null reading built q rows ∧ columnValues null p rows = values) →
      ∃ built rows, Builds null readings db' project built ∧
        Returns null reading built q rows ∧ columnValues null p rows = values := by
    rintro db db' hagree ⟨built, rows, hbuilt, hreturns, rfl⟩
    obtain ⟨built', hbuilt', hsame⟩ :=
      exists_builds hproject hcomplete.below hresolved hagree hbuilt
    obtain ⟨rows', hreturns', hrows⟩ :=
      exists_returns_of_agree hq hcomplete.shaped hsame hreturns
    refine ⟨built', rows', hbuilt', hreturns', ?_⟩
    rw [columnValues_restricted, columnValues_restricted, hrows]
  exact ⟨hreturned db db' hagree, hreturned db' db hagree.symm⟩

end Below

end PlatformOps.Metadata.ColumnLineage
