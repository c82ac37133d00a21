import PlatformOps.Reconcile.DriftContained

/-!
# A Grade by Places

What was planted and what was found meet at a place: a table, a key and a column. If
the places found are those planted, but for what the policy calls equal, the grade is
complete: nothing planted is missed, nothing else is found, label by label.

- `Grade.Complete`, `Counted`.
- `complete_of_places`, `classified_of_places`: the main lemmas.
-/

namespace PlatformOps.Reconcile

open Fallible Listing

/-- Everything expected is found, and nothing else. -/
structure Grade.Complete (g : Grade) : Prop where
  detected : g.detected = g.expected
  truePositives : g.truePositives = g.expected
  byLabel : ∀ label ∈ g.byLabel, label.2.2 = label.2.1

/-- A planted cell that the rules do not call equal. -/
def Counted (rules : List (String × List (String × Rule))) (cell : TruthCell) : Prop :=
  ∃ own, dictGet rules cell.table = some own ∧ neutralizedByPolicy cell own = false

theorem dictItem_eq_ok {A : Type} {entries : List (String × A)} {key : String} {value : A} :
    dictItem entries key = .ok value ↔ dictGet entries key = some value := by
  rw [dictItem]
  cases dictGet entries key <;> simp

/-! ## One element a place -/

section Last

variable {A : Type} {place : A → String × String × String} {items : List A}

/-- Each place has its last element, in the places' order. -/
theorem map_place_lastAt :
    (lastAt place items).map place = (groupBy place items).map Prod.fst := by
  have hlast : ∀ e ∈ groupBy place items, ∃ a, e.2.getLast? = some a ∧ place a = e.1 := by
    intro e he
    obtain ⟨a, ha, hplace⟩ := mem_keys_groupBy.mp (List.mem_map_of_mem (f := Prod.fst) he)
    have hgroup : ∀ b, b ∈ e.2 ↔ b ∈ items ∧ place b = e.1 := by
      intro b
      rw [of_mem_groupBy he, List.mem_filter, decide_eq_true_eq]
    have hne : e.2 ≠ [] := List.ne_nil_of_mem ((hgroup a).mpr ⟨ha, hplace⟩)
    exact ⟨_, List.getLast?_eq_some_getLast hne, ((hgroup _).mp (List.getLast_mem hne)).2⟩
  rw [lastAt]
  generalize groupBy place items = groups at hlast
  induction groups with
  | nil => rfl
  | cons e groups ih =>
    obtain ⟨a, ha, hplace⟩ := hlast e (List.mem_cons_self ..)
    have hrest := ih fun e' he' => hlast e' (List.mem_cons_of_mem _ he')
    simp only [List.filterMap_cons, ha, List.map_cons, hplace, hrest]

theorem nodup_places_lastAt : ((lastAt place items).map place).Nodup := by
  rw [map_place_lastAt]
  exact nodup_keys_groupBy place items

theorem mem_of_mem_lastAt {a : A} (h : a ∈ lastAt place items) : a ∈ items := by
  obtain ⟨e, he, hlast⟩ := List.mem_filterMap.mp h
  have hmem := List.mem_of_getLast? hlast
  rw [of_mem_groupBy he] at hmem
  exact List.mem_of_mem_filter hmem

theorem mem_places_lastAt {p : String × String × String} :
    p ∈ (lastAt place items).map place ↔ p ∈ items.map place := by
  rw [map_place_lastAt, mem_keys_groupBy, List.mem_map]

end Last

/-! ## Where a diff finds something -/

section Found

variable {spec : TableSpec} {diff : TableDiff} {classify : Classify} {found : List Discrepancy}

/-- Without extra and duplicate keys, what is found are the missing rows and the cells. -/
theorem perm_discrepanciesOf (h : discrepanciesOf spec diff classify = .ok found)
    (hextra : diff.extra = []) (hduplicates : diff.duplicates = []) :
    ∃ cells, diff.cells.mapM (discrepancyOf spec classify) = .ok cells ∧
      found.Perm
        ((diff.missing.map fun k => ⟨spec.name, k, "", .missingInTarget, "", ""⟩) ++ cells) := by
  obtain ⟨cells, hcells, hfound⟩ := bind_eq_ok.mp h
  cases hfound
  refine ⟨cells, hcells, (perm_sortBy _ _).trans ?_⟩
  simp [hextra, hduplicates]

theorem mem_places_discrepanciesOf (h : discrepanciesOf spec diff classify = .ok found)
    (hextra : diff.extra = []) (hduplicates : diff.duplicates = []) {table key name : String} :
    (table, key, name) ∈ found.map Discrepancy.cell ↔ spec.name = table ∧
      ((name = "" ∧ key ∈ diff.missing) ∨ ∃ d ∈ diff.cells, d.key = key ∧ d.column = name) := by
  obtain ⟨cells, hcells, hperm⟩ := perm_discrepanciesOf h hextra hduplicates
  have hplaces : cells.map Discrepancy.cell =
      diff.cells.map fun d => (spec.name, d.key, d.column) := by
    apply map_eq_of_mapM_eq_ok _ _ hcells
    intro c d hd
    obtain ⟨_, _, -, -, rfl⟩ := discrepancyOf_eq_ok.mp hd
    rfl
  rw [(hperm.map Discrepancy.cell).mem_iff, List.map_append, hplaces]
  simp only [List.map_map, List.mem_append, List.mem_map, Function.comp_apply, Discrepancy.cell,
    Prod.mk.injEq]
  constructor
  · rintro (⟨k, hk, rfl, rfl, rfl⟩ | ⟨d, hd, rfl, rfl, rfl⟩)
    · exact ⟨rfl, Or.inl ⟨rfl, hk⟩⟩
    · exact ⟨rfl, Or.inr ⟨d, hd, rfl, rfl⟩⟩
  · rintro ⟨rfl, ⟨rfl, hk⟩ | ⟨d, hd, rfl, rfl⟩⟩
    · exact Or.inl ⟨key, hk, rfl, rfl, rfl⟩
    · exact Or.inr ⟨d, hd, rfl, rfl, rfl⟩

/-- What is found is a missing row, or a cell with its class. -/
theorem cases_of_mem_discrepanciesOf (h : discrepanciesOf spec diff classify = .ok found)
    (hextra : diff.extra = []) (hduplicates : diff.duplicates = []) {d : Discrepancy}
    (hd : d ∈ found) :
    (d.cell = (spec.name, d.key, "") ∧ d.klass = .missingInTarget ∧ d.key ∈ diff.missing) ∨
      ∃ c ∈ diff.cells, d.cell = (spec.name, c.key, c.column) ∧
        ∃ column, columnNamed spec c.column = .ok column ∧
          classify column c.source c.target = .ok d.klass := by
  obtain ⟨cells, hcells, hperm⟩ := perm_discrepanciesOf h hextra hduplicates
  rcases List.mem_append.mp (hperm.mem_iff.mp hd) with hd | hd
  · obtain ⟨k, hk, rfl⟩ := List.mem_map.mp hd
    exact Or.inl ⟨rfl, rfl, hk⟩
  · obtain ⟨c, hc, hone⟩ := exists_preimage_of_mem hcells hd
    obtain ⟨column, klass, hcolumn, hklass, rfl⟩ := discrepancyOf_eq_ok.mp hone
    exact Or.inr ⟨c, hc, rfl, column, hcolumn, hklass⟩

end Found

/-! ## The grade -/

theorem mem_neutralized {truth : List TruthCell} {specs : List (String × TableSpec)}
    {rules : List (String × List (String × Rule))} {planted : List (TruthCell × Bool)}
    (h : neutralized truth specs rules = .ok planted) {cell : TruthCell} :
    (cell, false) ∈ planted ↔ cell ∈ truth ∧ Counted rules cell := by
  have hone : ∀ {cell : TruthCell} {entry : TruthCell × Bool}, (do
      let _ ← dictItem specs cell.table
      let own ← dictItem rules cell.table
      return (cell, neutralizedByPolicy cell own)) = Except.ok entry →
      entry.1 = cell ∧ (entry.2 = false ↔ Counted rules cell) := by
    intro cell entry hentry
    simp only [bind_eq_ok, pure_eq_ok] at hentry
    obtain ⟨_, -, own, hown, rfl⟩ := hentry
    have hget := dictItem_eq_ok.mp hown
    refine ⟨rfl, fun hfalse => ⟨own, hget, hfalse⟩, ?_⟩
    rintro ⟨own', hget', hfalse⟩
    obtain rfl := Option.some.inj (hget.symm.trans hget')
    exact hfalse
  constructor
  · intro hmem
    obtain ⟨cell', hcell', hentry⟩ := exists_preimage_of_mem h hmem
    obtain ⟨rfl, hcounted⟩ := hone hentry
    exact ⟨hcell', hcounted.mp rfl⟩
  · rintro ⟨hcell, hcounted⟩
    obtain ⟨entry, hmem, hentry⟩ := exists_image_of_mem h hcell
    obtain ⟨hfst, hsnd⟩ := hone hentry
    rwa [← hfst, ← hsnd.mpr hcounted]

section Grades

variable {truth : List TruthCell} {discrepancies : List Discrepancy}
  {specs : List (String × TableSpec)} {rules : List (String × List (String × Rule))} {g : Grade}
  (hplaces : ∀ place, place ∈ discrepancies.map Discrepancy.cell ↔
    ∃ cell ∈ truth, Counted rules cell ∧ cell.cell = place)

/-- What is expected of planted cells. -/
private def expectedOf (planted : List (TruthCell × Bool)) : List TruthCell :=
  lastAt TruthCell.cell ((planted.filter fun cell => !cell.2).map Prod.fst)

private theorem mem_expectedOf {planted : List (TruthCell × Bool)}
    (hplanted : neutralized truth specs rules = .ok planted) {cell : TruthCell}
    (h : cell ∈ expectedOf planted) : cell ∈ truth ∧ Counted rules cell := by
  have hmem := mem_of_mem_lastAt h
  simp only [List.mem_map, List.mem_filter, Bool.not_eq_true'] at hmem
  obtain ⟨⟨_, flag⟩, ⟨hmem, hflag⟩, rfl⟩ := hmem
  cases hflag
  exact (mem_neutralized hplanted).mp hmem

include hplaces

private theorem mem_places_expectedOf {planted : List (TruthCell × Bool)}
    (hplanted : neutralized truth specs rules = .ok planted) (place : String × String × String) :
    place ∈ (lastAt Discrepancy.cell discrepancies).map Discrepancy.cell ↔
      place ∈ (expectedOf planted).map TruthCell.cell := by
  rw [expectedOf, mem_places_lastAt, mem_places_lastAt, hplaces]
  simp [mem_neutralized hplanted, and_assoc]

/-- **Same places, complete grade.** -/
theorem complete_of_places (h : grade truth discrepancies specs rules = .ok g) : g.Complete := by
  simp only [grade, bind_eq_ok, pure_eq_ok] at h
  obtain ⟨planted, hplanted, rfl⟩ := h
  have hsame := mem_places_expectedOf hplaces hplanted
  have hhit : ∀ cell ∈ expectedOf planted,
      cell.cell ∈ (lastAt Discrepancy.cell discrepancies).map Discrepancy.cell := fun cell hcell =>
    (hsame _).mpr (List.mem_map_of_mem hcell)
  have hperm : ((lastAt Discrepancy.cell discrepancies).map Discrepancy.cell).Perm
      ((expectedOf planted).map TruthCell.cell) :=
    (List.perm_ext_iff_of_nodup nodup_places_lastAt nodup_places_lastAt).mpr hsame
  refine ⟨?_, ?_, fun label hlabel => ?_⟩
  · simpa [expectedOf] using hperm.length_eq
  · apply congrArg List.length
    exact List.filter_eq_self.mpr fun cell hcell => decide_eq_true (hhit cell hcell)
  · obtain ⟨group, hgroup, rfl⟩ := List.mem_map.mp (mem_sortBy.mp hlabel)
    apply List.countP_eq_length.mpr
    intro cell hcell
    rw [of_mem_groupBy hgroup] at hcell
    exact decide_eq_true (hhit cell (List.mem_of_mem_filter hcell))

/-- **Same places and classes: all classified correctly.** -/
theorem classified_of_places (h : grade truth discrepancies specs rules = .ok g)
    (hclasses : ∀ d ∈ discrepancies, ∀ cell ∈ truth, Counted rules cell → d.cell = cell.cell →
      d.klass = cell.klass) : g.correctlyClassified = g.expected := by
  simp only [grade, bind_eq_ok, pure_eq_ok] at h
  obtain ⟨planted, hplanted, rfl⟩ := h
  have hsame := mem_places_expectedOf hplaces hplanted
  apply congrArg List.length
  rw [List.filter_filter]
  apply List.filter_eq_self.mpr
  intro cell hcell
  have hhit := (hsame _).mpr (List.mem_map_of_mem hcell)
  obtain ⟨d, hd, hplace⟩ := List.mem_map.mp hhit
  obtain ⟨htruth, hcounted⟩ := mem_expectedOf hplanted hcell
  have hklass := hclasses d (mem_of_mem_lastAt hd) cell htruth hcounted hplace
  have hany : (lastAt Discrepancy.cell discrepancies).any
      (fun d => d.cell = cell.cell && d.klass = cell.klass) = true :=
    List.any_eq_true.mpr ⟨d, hd, by simp [hplace, hklass]⟩
  rw [Bool.and_eq_true]
  exact ⟨hany, decide_eq_true hhit⟩

end Grades

end PlatformOps.Reconcile
