import PlatformOps.Reconcile.Duplicates

/-!
# The Verdict's Arithmetic

The row counts come from the first summaries, the keys from the leaves fetched at
the end. Segments left on the way agree, so they hold as many rows on both sides,
whether or not they are the same rows: what the leaves account for is all that the
counts differ by. A key that is held once on each side is no missing, extra or
duplicated row, so there are at least as many rows in both as rows with a
difference, or with one in a given column.

- `verdict_balanced`: the main result.
-/

namespace PlatformOps.Reconcile

open Listing Segments Fallible

/-! ## What the keys account for -/

section Keys

variable {names changed : List String} {source target : List (String × List String)}
  {p : String → Bool}

/-- The rows of some keys. -/
theorem sum_rowsOf_filter {rows : List (String × List String)}
    (hrows : ∀ row ∈ rows, row.1 ∈ keysOf source target) :
    (((keysOf source target).filter p).map fun k => (rowsOf rows k).length).sum =
      (rows.filter fun row => p row.1).length := by
  have hnodup : ((keysOf source target).filter p).Nodup := (nodup_sortedSet _).filter _
  rw [← sum_rowsOf hnodup fun row hrow => ?_]
  · refine congrArg List.sum (List.map_congr_left fun k hk => ?_)
    have hchosen := rowsOf_filter (fun k => p k = true) rows k
    rw [if_pos (List.mem_filter.mp hk).2] at hchosen
    simp only [Bool.decide_eq_true] at hchosen
    rw [hchosen]
  · obtain ⟨hrow, hp⟩ := List.mem_filter.mp hrow
    exact List.mem_filter.mpr ⟨hrows row hrow, hp⟩

theorem accounted_filter :
    (findingsOver names changed (rowsOf source) (rowsOf target)
      ((keysOf source target).filter p)).accounted =
      (target.filter fun row => p row.1).length - (source.filter fun row => p row.1).length := by
  rw [accounted_findingsOver, sum_rowsOf_filter, sum_rowsOf_filter]
  · exact fun row hrow => mem_keysOf.mpr (Or.inl (rowsOf_ne_nil.mpr ⟨row, hrow, rfl⟩))
  · exact fun row hrow => mem_keysOf.mpr (Or.inr (rowsOf_ne_nil.mpr ⟨row, hrow, rfl⟩))
  · exact fun k hk => mem_keysOf.mp (List.mem_of_mem_filter hk)

/-- A key held once on each side. -/
def Paired (a b : String → List (List String)) (k : String) : Prop :=
  (a k).length = 1 ∧ (b k).length = 1

instance (a b : String → List (List String)) : DecidablePred (Paired a b) :=
  fun _ => inferInstanceAs (Decidable (_ ∧ _))

variable {a b : String → List (List String)}

/-- The source's rows of some keys are missing, of duplicated keys, or paired. -/
theorem sum_length_eq {keys : List String} (hheld : ∀ k ∈ keys, a k ≠ [] ∨ b k ≠ []) :
    (keys.map fun k => (a k).length).sum =
      (findingsOver names changed a b keys).missing.length +
        ((findingsOver names changed a b keys).duplicates.map DuplicateKey.source).sum +
        (keys.filter (Paired a b ·)).length := by
  induction keys with
  | nil => rfl
  | cons k rest ih =>
    obtain ⟨hk, hrest⟩ := List.forall_mem_cons.mp hheld
    rw [List.map_cons, List.sum_cons, ih hrest]
    simp only [findingsOver, List.filter_cons, keyClass, Paired]
    by_cases hmany : 1 < (a k).length ∨ 1 < (b k).length
    · -- A key held twice is one of the duplicates, with its rows counted there.
      have hnot : ¬ ((a k).length = 1 ∧ (b k).length = 1) := by omega
      simp only [if_pos hmany, hnot]
      simp
      omega
    · simp only [if_neg hmany]
      rw [not_or, not_lt, not_lt] at hmany
      -- At most one row on each side: missing, extra or paired.
      rcases eq_nil_or_singleton hmany.1 with ha | ⟨x, ha⟩ <;>
      rcases eq_nil_or_singleton hmany.2 with hb | ⟨y, hb⟩
      · simp [ha, hb] at hk
      · by_cases hchanged : k ∈ changed <;> simp [ha, hb, hchanged]
      · simp [ha, hb]
        omega
      · by_cases hxy : x = y <;> simp [ha, hb, hxy] <;> omega

/-- The cells are those of paired keys. -/
theorem paired_of_mem_cells {keys : List String} {c : CellDiff}
    (hc : c ∈ (findingsOver names changed a b keys).cells) :
    c.key ∈ keys.filter (Paired a b ·) := by
  obtain ⟨k, hk, hcell⟩ := List.mem_flatMap.mp hc
  obtain ⟨rfl, x, y, hx, hy, -⟩ := mem_keyCells.mp hcell
  exact List.mem_filter.mpr ⟨hk, by simp [Paired, hx, hy]⟩

/-- A key's cells are in the order of the columns. -/
theorem columns_cellDiffs_sublist (k : String) (x y : List String) :
    ((cellDiffs names k x y).map CellDiff.column).Sublist names := by
  induction names generalizing x y with
  | nil => simp [cellDiffs]
  | cons name names ih =>
    cases x with
    | nil => simp [cellDiffs]
    | cons u x =>
      cases y with
      | nil => simp [cellDiffs]
      | cons v y =>
        have hrest := ih x y
        unfold cellDiffs at hrest ⊢
        rw [List.zip_cons_cons, List.zip_cons_cons, List.filterMap_cons]
        by_cases huv : u = v
        · simp only [huv, ne_eq, not_true, if_false]
          exact hrest.cons name
        · simp only [ne_eq, huv, not_false_eq_true, if_true, List.map_cons]
          -- One difference for this column; the rest follow the names.
          exact hrest.cons_cons name

/-- Of distinct columns, each has at most one cell of a key. -/
theorem countP_keyCells (hnames : names.Nodup) (name k : String) :
    (keyCells names k (a k) (b k)).countP (fun c => c.column = name) ≤
      if Paired a b k then 1 else 0 := by
  unfold keyCells
  split
  · rename_i x y hx hy
    rw [if_pos ⟨by rw [hx]; rfl, by rw [hy]; rfl⟩]
    have hcount := List.nodup_iff_count_le_one.mp
      ((columns_cellDiffs_sublist k x y).nodup hnames) name
    rw [List.count, List.countP_map] at hcount
    exact hcount
  · simp

theorem countP_cells (hnames : names.Nodup) (name : String) (keys : List String) :
    (findingsOver names changed a b keys).cells.countP (fun c => c.column = name) ≤
      (keys.filter (Paired a b ·)).length := by
  show (keys.flatMap fun k => keyCells names k (a k) (b k)).countP _ ≤ _
  induction keys with
  | nil => simp
  | cons k rest ih =>
    have hkey := countP_keyCells (a := a) (b := b) hnames name k
    rw [List.flatMap_cons, List.countP_append, List.filter_cons]
    by_cases hpaired : Paired a b k
    · rw [if_pos hpaired] at hkey
      simp only [hpaired, decide_true, if_true, List.length_cons]
      omega
    · rw [if_neg hpaired] at hkey
      simp only [hpaired, decide_false, Bool.false_eq_true, if_false]
      omega

end Keys

/-! ## The figures of a verdict -/

/-- The legacy rows that are also in the copy. -/
def inBoth (diff : TableDiff) : ℤ :=
  diff.sourceRows - diff.missing.length - (diff.duplicates.map DuplicateKey.source).sum

/-- The pair's discrepancies that are cells. -/
def inCells (spec : TableSpec) (discrepancies : List Discrepancy) : List Discrepancy :=
  (discrepancies.filter fun d => d.table = spec.name).filter fun d => d.column ≠ ""

/-- The rows that match. -/
def matched (spec : TableSpec) (diff : TableDiff) (discrepancies : List Discrepancy) : ℤ :=
  inBoth diff - ((inCells spec discrepancies).map Discrepancy.key).dedup.length

section Figures

variable {spec : TableSpec} {diff : TableDiff} {found : List Discrepancy} {classify : Classify}

theorem rowMatchRate_verdict (thresholds : Thresholds) (time : Option Timestamp) :
    (verdict spec diff found thresholds time).rowMatchRate =
      if diff.sourceRows ≠ 0 then (matched spec diff found : ℚ) / diff.sourceRows else 1 :=
  rfl

theorem columnMatchRates_verdict (thresholds : Thresholds) (time : Option Timestamp) :
    (verdict spec diff found thresholds time).columnMatchRates = spec.valueColumns.map fun c =>
      (c.name, if inBoth diff ≠ 0 then
        1 - ((inCells spec found).countP fun d => d.column = c.name) / (inBoth diff : ℚ) else 1) :=
  rfl

/-- The discrepancies that are cells are the diff's cells, by key and column. -/
theorem inCells_perm (h : discrepanciesOf spec diff classify = .ok found) :
    ((inCells spec found).map fun d => (d.key, d.column)).Perm
      ((diff.cells.map fun c => (c.key, c.column)).filter fun cell => cell.2 ≠ "") := by
  obtain ⟨cells, hcells, hfound⟩ := bind_eq_ok.mp h
  cases hfound
  -- A cell difference becomes one discrepancy, at its key and column.
  have hplaces : cells.map (fun d => (d.key, d.column)) =
      diff.cells.map fun c => (c.key, c.column) := by
    refine map_eq_of_mapM_eq_ok _ _ hcells fun c d hd => ?_
    obtain ⟨_, _, -, -, rfl⟩ := discrepancyOf_eq_ok.mp hd
    rfl
  have htable : ∀ d ∈ cells, d.table = spec.name := by
    intro d hd
    obtain ⟨c, -, hc⟩ := exists_preimage_of_mem hcells hd
    obtain ⟨_, _, -, -, rfl⟩ := discrepancyOf_eq_ok.mp hc
    rfl
  set rows : List Discrepancy :=
    diff.missing.map (fun k => ⟨spec.name, k, "", .missingInTarget, "", ""⟩) ++
      diff.extra.map (fun k => ⟨spec.name, k, "", .extraInTarget, "", ""⟩) ++
      diff.duplicates.map fun d =>
        ⟨spec.name, d.key, "", .duplicateKey, rowsText d.source, rowsText d.target⟩ with hrows
  -- Discrepancies of whole rows name no column.
  have hwhole : inCells spec rows = [] := by
    rw [inCells, List.filter_filter, List.filter_eq_nil_iff]
    intro d hd
    simp only [hrows, List.mem_append, List.mem_map] at hd
    rcases hd with (⟨k, -, rfl⟩ | ⟨k, -, rfl⟩) | ⟨k, -, rfl⟩ <;> simp
  have hall : inCells spec (rows ++ cells) = cells.filter fun d => d.column ≠ "" := by
    have hcells : cells.filter (fun d => d.table = spec.name) = cells :=
      List.filter_eq_self.mpr fun d hd => decide_eq_true (htable d hd)
    rw [inCells, List.filter_append, List.filter_append, hcells]
    exact congrArg (· ++ _) hwhole
  -- Sorting does not change what is counted.
  have hsorted : (inCells spec (sortBy (fun d : Discrepancy => toLex (d.key, d.column))
      (rows ++ cells))).Perm (inCells spec (rows ++ cells)) :=
    ((perm_sortBy _ _).filter _).filter _
  refine (hsorted.map fun d => (d.key, d.column)).trans ?_
  rw [hall, ← hplaces, List.filter_map]
  exact List.Perm.refl _

/-- The rows with a difference are rows in both. -/
theorem matched_nonneg {pairedKeys : List String} (hpaired : ∀ c ∈ diff.cells, c.key ∈ pairedKeys)
    (hboth : (pairedKeys.length : ℤ) ≤ inBoth diff)
    (h : discrepanciesOf spec diff classify = .ok found) : 0 ≤ matched spec diff found := by
  have hsub : ((inCells spec found).map Discrepancy.key).dedup ⊆ pairedKeys := by
    intro k hk
    rw [List.mem_dedup] at hk
    obtain ⟨d, hd, rfl⟩ := List.mem_map.mp hk
    have hcell := (inCells_perm h).mem_iff.mp (List.mem_map_of_mem hd)
    obtain ⟨c, hc, heq⟩ := List.mem_map.mp (List.mem_of_mem_filter hcell)
    obtain ⟨hkey, -⟩ := Prod.mk.inj heq
    rw [← hkey]
    exact hpaired c hc
  have hlength := (List.subperm_of_subset (List.nodup_dedup _) hsub).length_le
  rw [matched]
  omega

theorem matched_le : matched spec diff found ≤ diff.sourceRows := by
  rw [matched, inBoth]
  omega

/-- The cells of a column are as many as the discrepancies that name it, at least. -/
theorem countP_inCells_le (h : discrepanciesOf spec diff classify = .ok found) (name : String) :
    (inCells spec found).countP (fun d => d.column = name) ≤
      diff.cells.countP fun c => c.column = name := by
  have hcount := ((inCells_perm h).countP_eq fun cell => cell.2 = name)
  rw [List.countP_map] at hcount
  refine (le_of_eq hcount).trans ((List.filter_sublist.countP_le).trans (le_of_eq ?_))
  rw [List.countP_map]
  rfl

/-- A rate of matched rows is between 0 and 1. -/
theorem rowMatchRate_bounds (hmatched : 0 ≤ matched spec diff found) (thresholds : Thresholds)
    (time : Option Timestamp) :
    0 ≤ (verdict spec diff found thresholds time).rowMatchRate ∧
      (verdict spec diff found thresholds time).rowMatchRate ≤ 1 := by
  rw [rowMatchRate_verdict]
  split
  · rename_i hsome
    have hpos : (0 : ℚ) < diff.sourceRows := by exact_mod_cast Nat.pos_of_ne_zero hsome
    have hle : (matched spec diff found : ℚ) ≤ diff.sourceRows := by exact_mod_cast matched_le
    exact ⟨div_nonneg (by exact_mod_cast hmatched) hpos.le, (div_le_one hpos).mpr hle⟩
  · exact ⟨zero_le_one, le_rfl⟩

/-- So is each column's, if no column has more cells than there are rows in both. -/
theorem columnMatchRates_bounds
    (hcount : ∀ name,
      (((inCells spec found).countP fun d => d.column = name : ℕ) : ℤ) ≤ inBoth diff)
    (thresholds : Thresholds) (time : Option Timestamp) :
    ∀ rate ∈ (verdict spec diff found thresholds time).columnMatchRates,
      0 ≤ rate.2 ∧ rate.2 ≤ 1 := by
  intro rate hrate
  rw [columnMatchRates_verdict] at hrate
  obtain ⟨column, -, rfl⟩ := List.mem_map.mp hrate
  have hle := hcount column.name
  simp only
  split
  · rename_i hsome
    have hpos : (0 : ℚ) < inBoth diff := by
      have hnonneg : (0 : ℤ) ≤ inBoth diff := (Int.natCast_nonneg _).trans hle
      exact_mod_cast lt_of_le_of_ne hnonneg (Ne.symm hsome)
    -- The share of the rows on both sides whose column differs is between none and all.
    set share : ℚ := ((inCells spec found).countP fun d => d.column = column.name : ℕ) /
      (inBoth diff : ℚ)
    have hupper : share ≤ 1 := (div_le_one hpos).mpr (by exact_mod_cast hle)
    have hlower : 0 ≤ share := div_nonneg (Nat.cast_nonneg _) hpos.le
    constructor <;> linarith
  · exact ⟨zero_le_one, le_rfl⟩

end Figures

/-- **The arithmetic of a verdict balances.** -/
structure Balanced (spec : TableSpec) (diff : TableDiff) (found : List Discrepancy) : Prop where
  counts : (diff.targetRows : ℤ) - diff.sourceRows = accounted diff
  quiet : ∀ thresholds time, ¬ (verdict spec diff found thresholds time).RowCountsDiffer
  matched : 0 ≤ matched spec diff found
  rowRate : ∀ thresholds time, 0 ≤ (verdict spec diff found thresholds time).rowMatchRate ∧
    (verdict spec diff found thresholds time).rowMatchRate ≤ 1
  columnRates : ∀ thresholds time,
    ∀ rate ∈ (verdict spec diff found thresholds time).columnMatchRates, 0 ≤ rate.2 ∧ rate.2 ≤ 1

namespace Comparison

variable {R T : Type} (c : Comparison R T)

/-- Whatever the hashes, the rows that are not in doubt are as many on both sides. -/
theorem length_not_inDoubt :
    (c.hashedRows.filter fun row => ¬ c.InDoubt c.lastDepth row.1).length =
      (c.copyRows.filter fun row => ¬ c.InDoubt c.lastDepth row.1).length := by
  have hlast : c.lastDepth ≤ 8 := (leafDepth_bounds ..).2
  -- A row's segment is that of its bucket.
  let buckets := fun rows : List (String × List String) => rows.map fun row => bucketOf c.md5 row.1
  have hwords : ∀ (p : BitVec 32 → Prop) [DecidablePred p] (rows : List (String × List String)),
      (rows.filter fun row => p (bucketOf c.md5 row.1)).length =
        ((buckets rows).filter fun w => p w).length := by
    intro p _ rows
    rw [List.filter_map, List.length_map]
    rfl
  have hleaf : ∀ d b (rows : List (String × List String)),
      ((buckets rows).filter fun w => segment d w = b).length =
        (leafRows c.md5 d [b] rows).length := by
    intro d b rows
    rw [← hwords fun w => segment d w = b, leafRows]
    simp only [List.mem_singleton]
    rfl
  have hagree : ∀ d b, ¬ Disagree
      (sourceHashes c.engine c.md5 c.table c.source (c.legacy.after 3).rows)
      (targetHashes c.md5 c.target c.copy) d b →
        ((buckets c.hashedRows).filter fun w => segment d w = b).length =
          ((buckets c.copyRows).filter fun w => segment d w = b).length := by
    intro d b hagree
    rw [hleaf, hleaf, hashedRows, rowsAt, copyRows, sourceRows, targetRows, length_leafRows_map,
      length_leafRows_map]
    exact length_eq_of_summaryOf_eq (not_not.mp hagree)
  have hcount := length_not_reached hagree hlast
  rw [← hwords, ← hwords] at hcount
  exact hcount

/-- The two sides differ in number by the rows in doubt. -/
theorem length_copyRows_sub_inDoubt :
    (c.copyRows.length : ℤ) - c.hashedRows.length =
      (c.copyRows.filter fun row => c.InDoubt c.lastDepth row.1).length -
        (c.hashedRows.filter fun row => c.InDoubt c.lastDepth row.1).length := by
  have hrest := c.length_not_inDoubt
  have hsource := c.hashedRows.length_eq_length_filter_add fun row => c.InDoubt c.lastDepth row.1
  have htarget := c.copyRows.length_eq_length_filter_add fun row => c.InDoubt c.lastDepth row.1
  simp only [decide_not] at hrest
  omega

/-- The keys compared that each side holds once. -/
def pairedKeys : List String :=
  ((keysOf c.hashedRows c.copyRows).filter fun k => c.InDoubt c.lastDepth k).filter
    (Paired (rowsOf c.hashedRows) (rowsOf c.copyRows) ·)

variable {c} {result : TableDiff}

/-- They are rows of the source that are neither missing nor of a duplicated key. -/
theorem length_pairedKeys_le {names changed : List String}
    (hsource : result.sourceRows = c.hashedRows.length)
    (hfindings : result.findings = findingsOver names changed (rowsOf c.hashedRows)
      (rowsOf c.copyRows)
      ((keysOf c.hashedRows c.copyRows).filter fun k => c.InDoubt c.lastDepth k)) :
    (c.pairedKeys.length : ℤ) ≤ inBoth result := by
  set keys := (keysOf c.hashedRows c.copyRows).filter fun k => c.InDoubt c.lastDepth k with hkeys
  have hheld : ∀ k ∈ keys, rowsOf c.hashedRows k ≠ [] ∨ rowsOf c.copyRows k ≠ [] :=
    fun k hk => mem_keysOf.mp (List.mem_of_mem_filter hk)
  -- The source rows in doubt are missing, duplicates or paired.
  have hsum : (keys.map fun k => (rowsOf c.hashedRows k).length).sum =
      result.findings.missing.length +
        (result.findings.duplicates.map DuplicateKey.source).sum + c.pairedKeys.length := by
    rw [hfindings]
    exact sum_length_eq hheld
  have hrows : (keys.map fun k => (rowsOf c.hashedRows k).length).sum ≤ c.hashedRows.length := by
    rw [hkeys, sum_rowsOf_filter fun row hrow =>
      mem_keysOf.mpr (Or.inl (rowsOf_ne_nil.mpr ⟨row, hrow, rfl⟩))]
    exact List.length_filter_le ..
  have hmissing : result.findings.missing.length = result.missing.length := rfl
  have hduplicates : result.findings.duplicates = result.duplicates := rfl
  rw [hduplicates] at hsum
  rw [inBoth, hsource]
  omega

/-- **The verdict's arithmetic balances**, on static tables of distinct columns, whatever they hold
and whatever their rows hash to. The findings account for the difference in rows; and of whatever
discrepancies `classify` lets be listed, which it does exactly if every differing cell has a class,
every figure is balanced. -/
theorem verdict_balanced (c : Comparison R T) (hstatic : c.legacy.pending = [])
    (hnames : (c.table.columns.map Column.name).Nodup) (classify : Classify) :
    ∃ result connector, c.run = .ok (result, connector) ∧
      (result.targetRows : ℤ) - result.sourceRows = accounted result ∧
      ((∃ found, discrepanciesOf c.table result classify = .ok found) ↔
        ∀ cell ∈ result.cells, ∀ column, columnNamed c.table cell.column = .ok column →
          ∃ klass, classify column cell.source cell.target = .ok klass) ∧
      ∀ found, discrepanciesOf c.table result classify = .ok found →
        Balanced c.table result found := by
  obtain ⟨result, connector, hrun, hsource, htarget, hfindings⟩ := exists_run hstatic
  have hcells : ∀ cell ∈ result.cells, cell ∈ result.findings.cells := fun cell h => h
  rw [hfindings] at hcells
  -- What is not in doubt is the same on both sides: the findings account for the rest.
  have hcounts : (result.targetRows : ℤ) - result.sourceRows = accounted result := by
    have haccounted : accounted result = result.findings.accounted := rfl
    rw [haccounted, hfindings, accounted_filter, hsource, htarget, c.length_copyRows_sub_inDoubt]
  have hboth := length_pairedKeys_le hsource hfindings
  -- Every cell that differs is in a column of the table.
  have hcolumn : ∀ cell ∈ result.cells, ∃ column, columnNamed c.table cell.column = .ok column := by
    intro cell hcell
    obtain ⟨k, -, hkey⟩ := List.mem_flatMap.mp (hcells cell hcell)
    obtain ⟨-, _, _, -, -, hzip, -⟩ := mem_keyCells.mp hkey
    obtain ⟨column, hmem, hname⟩ := List.mem_map.mp (List.of_mem_zip hzip).1
    have hnamed : cell.column ∈ c.table.columns.map Column.name :=
      List.mem_map.mpr ⟨column, List.mem_of_mem_filter hmem, hname⟩
    exact (columnNamed_ok hnamed).imp fun _ => And.right
  have hlisted : (∃ found, discrepanciesOf c.table result classify = .ok found) ↔
      ∀ cell ∈ result.cells, ∀ column, columnNamed c.table cell.column = .ok column →
        ∃ klass, classify column cell.source cell.target = .ok klass := by
    rw [exists_discrepanciesOf_iff]
    refine forall₂_congr fun cell hcell => ?_
    obtain ⟨column, hfound⟩ := hcolumn cell hcell
    simp [Classed, hfound]
  refine ⟨result, connector, hrun, hcounts, hlisted, fun found hfound => ?_⟩
  -- Each pair of rows differs at most once in a column.
  have hcolumns : ∀ name,
      (((inCells c.table found).countP fun d => d.column = name : ℕ) : ℤ) ≤ inBoth result := by
    intro name
    have hdistinct : (c.table.valueColumns.map Column.name).Nodup :=
      (List.filter_sublist.map Column.name).nodup hnames
    have hcount : (result.findings.cells.countP fun cell => cell.column = name) ≤
        c.pairedKeys.length := by
      rw [hfindings]
      exact countP_cells hdistinct name _
    have hfigure : (inCells c.table found).countP (fun d => d.column = name) ≤
        result.findings.cells.countP fun cell => cell.column = name :=
      countP_inCells_le hfound name
    omega
  have hmatched : 0 ≤ matched c.table result found :=
    matched_nonneg (fun cell hcell => paired_of_mem_cells (hcells cell hcell)) hboth hfound
  refine ⟨hcounts, fun thresholds time => ?_, hmatched, rowMatchRate_bounds hmatched,
    columnMatchRates_bounds hcolumns⟩
  rw [rowCountsDiffer_verdict]
  exact not_not_intro hcounts

end Comparison

/-- Orders on both sides, one of them doubled and one changed, when every text has one hash. -/
theorem verdict_balanced_collided :
    let c := { staticOrders [("a", "1", none), ("b", "2", none), ("b", "2", none)]
      [("a", "9", none), ("b", "2", none), ("c", "3", none), ("c", "3", none)] with
        md5 := fun _ => (0, 0) }
    ∃ result connector found, c.run = .ok (result, connector) ∧
      discrepanciesOf c.table result (fun _ _ _ => .ok .valueMismatch) = .ok found ∧
      Balanced c.table result found := by
  intro c
  obtain ⟨result, connector, hrun, -, hlisted, hbalanced⟩ :=
    Comparison.verdict_balanced c rfl (by decide) fun _ _ _ => .ok .valueMismatch
  obtain ⟨found, hfound⟩ := hlisted.mpr fun cell _ column _ => ⟨.valueMismatch, rfl⟩
  exact ⟨result, connector, found, hrun, hfound, hbalanced found hfound⟩

end PlatformOps.Reconcile
