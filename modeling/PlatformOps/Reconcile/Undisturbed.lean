import PlatformOps.Reconcile.DiffExact
import PlatformOps.Reconcile.LateWrites

/-!
# When Late Writes Disturb a Comparison

The legacy table and its copy agree as of the watermark when `diff_table` starts,
and the legacy application goes on writing. What is compared row by row are the
segments that differ when the rows are hashed: the rows in doubt. Nothing is
reported, and no row-count failure added, exactly if (`Undisturbed`)

- the copy holds no key in doubt twice,
- no row in doubt leaves between the hashing and the fetch,
- some change was counted before the hashing, or no row in doubt had left by then.
-/

namespace PlatformOps.Reconcile

open Listing Segments

/-! ## Rows in doubt -/

/-- One call of `diff_table`: what it is given, and how its two sides are rendered. -/
structure Comparison (R T : Type) where
  engine : PostgresEngine R
  targetEngine : Engine T
  md5 : Md5
  ceilLog : ℕ → ℕ → ℤ
  table : TableSpec
  rules : List (String × Rule)
  leafWidth : ℕ
  legacy : Legacy R
  copy : ClickHouseConnector T
  source : RenderedTable R
  target : RenderedTable T
  renders : render engine.toEngine table rules = .ok source
  copyRenders : render targetEngine table rules = .ok target

namespace Comparison

variable {R T : Type} (c : Comparison R T)

/-- The call. -/
def run : Except String (TableDiff × PostgresConnector R) :=
  diffTable c.engine c.targetEngine c.md5 c.ceilLog c.table c.rules c.leafWidth ⟨c.legacy, none⟩
    c.copy

/-- What tonight compares of the legacy rows the `n`-th statement sees. -/
def rowsAt (n : ℕ) : List (String × List String) :=
  sourceRows c.engine c.table c.source (c.legacy.after n).rows

def copyRows : List (String × List String) :=
  targetRows c.target c.copy

/-- The changes `count_after`, the first statement, sees. -/
def countedKeys : List String :=
  keysChanged c.engine c.table c.source (c.legacy.after 1).rows

/-- The rows the third statement hashes. -/
def hashedRows : List (String × List String) :=
  c.rowsAt 3

/-- The depth at which rows are fetched. -/
def lastDepth : ℕ :=
  leafDepth c.ceilLog (max c.hashedRows.length c.copyRows.length) c.leafWidth

/-- The rows the fetch reads from, after a statement per level. -/
def fetchedRows : List (String × List String) :=
  c.rowsAt (c.lastDepth + 4)

/-- A key in a segment that differs, as do those above it, when the rows are hashed. -/
def InDoubt (depth : ℕ) (key : String) : Prop :=
  Reached (Disagree (sourceHashes c.engine c.md5 c.table c.source (c.legacy.after 3).rows)
    (targetHashes c.md5 c.target c.copy)) depth (segmentOf depth (bucketOf c.md5 key))

instance (depth : ℕ) : DecidablePred (c.InDoubt depth) :=
  fun _ => decidableReached ..

/-- Of some rows, those in the leaves that differ when the rows are hashed. -/
def inDoubt (rows : List (String × List String)) : List (String × List String) :=
  rows.filter fun row => c.InDoubt c.lastDepth row.1

/-- What keeps late writes from being reported. -/
structure Undisturbed : Prop where
  /-- The copy holds no key in doubt twice. -/
  once : ∀ k, (rowsOf (c.inDoubt c.copyRows) k).length ≤ 1
  /-- No row in doubt leaves between the hashing and the fetch. -/
  steady : (c.inDoubt c.fetchedRows).length = (c.inDoubt c.hashedRows).length
  /-- A change was counted, or no row in doubt had left when the rows were hashed. -/
  counted : c.countedKeys ≠ [] ∨ (c.inDoubt c.hashedRows).length = (c.inDoubt c.copyRows).length

end Comparison

/-- Nothing is reported as a discrepancy, and no verdict adds a row-count failure. -/
structure Unreported (table : TableSpec) (result : TableDiff) : Prop where
  missing : result.missing = []
  extra : result.extra = []
  cells : result.cells = []
  duplicates : result.duplicates = []
  rowCounts : ∀ discrepancies thresholds time,
    ¬ (verdict table result discrepancies thresholds time).RowCountsDiffer

/-! ## The comparison of leaves that only lost rows -/

section Leaves

variable {names changed : List String} {a b : List (String × List String)} {asked : Prop}

private theorem length_eq_of_rowsOf
    (h : ∀ k, (rowsOf a k).length = (rowsOf b k).length) : a.length = b.length := by
  have hnodup : (keysOf a b).Nodup := nodup_sortedSet _
  have ha := @sum_rowsOf a _ hnodup
    fun row hrow => mem_keysOf.mpr (Or.inl (rowsOf_ne_nil.mpr ⟨row, hrow, rfl⟩))
  have hb := @sum_rowsOf b _ hnodup
    fun row hrow => mem_keysOf.mpr (Or.inr (rowsOf_ne_nil.mpr ⟨row, hrow, rfl⟩))
  rw [← ha, ← hb]
  exact congrArg List.sum (List.map_congr_left fun k _ => h k)

private theorem rowsOf_subperm (h : a.Subperm b) (k : String) :
    (rowsOf a k).Subperm (rowsOf b k) := by
  obtain ⟨l, hperm, hsub⟩ := h.filter fun row => row.1 = k
  exact ⟨l.map Prod.snd, hperm.map _, hsub.map _⟩

/-- The keys of one class, none of which there are. -/
private theorem filter_class_eq_nil {c : KeyClass} :
    ((keysOf a b).filter fun k => keyClass changed k (rowsOf a k) (rowsOf b k) = c) = [] ↔
      ∀ k, (rowsOf a k ≠ [] ∨ rowsOf b k ≠ []) →
        keyClass changed k (rowsOf a k) (rowsOf b k) ≠ c := by
  simp only [List.filter_eq_nil_iff, decide_eq_true_eq, mem_keysOf, ne_eq]

variable (names) in
/-- If the source's leaves lost rows of the copy's, and the keys they lost are known to have
changed exactly if they are asked for, nothing is reported if no key is held twice, and the keys
are asked for or no row was lost. -/
private theorem findings_eq_nil_iff (hsub : a.Subperm b)
    (hchanged : ∀ k, rowsOf a k = [] → rowsOf b k ≠ [] → (k ∈ changed ↔ asked)) :
    let f := findingsOver names changed (rowsOf a) (rowsOf b) (keysOf a b)
    (f.missing = [] ∧ f.extra = [] ∧ f.cells = [] ∧ f.duplicates = []) ↔
      (∀ k, (rowsOf b k).length ≤ 1) ∧ (asked ∨ a.length = b.length) := by
  intro f
  simp only [f, findingsOver, List.map_eq_nil_iff, filter_class_eq_nil]
  have hle : ∀ k, (rowsOf a k).length ≤ (rowsOf b k).length :=
    fun k => (rowsOf_subperm hsub k).length_le
  constructor
  · rintro ⟨-, hextra, -, hduplicates⟩
    have honce : ∀ k, (rowsOf b k).length ≤ 1 := by
      intro k
      by_contra hmany
      have hheld : rowsOf a k ≠ [] ∨ rowsOf b k ≠ [] :=
        Or.inr (List.ne_nil_of_length_pos (by omega))
      exact hduplicates k hheld ((keyClass_eq hheld).2.2.2.mpr (Or.inr (by omega)))
    refine ⟨honce, ?_⟩
    by_cases hasked : asked
    · exact Or.inl hasked
    · refine Or.inr (length_eq_of_rowsOf fun k => ?_)
      by_contra hne
      have hlost : rowsOf a k = [] ∧ (rowsOf b k).length = 1 := by
        have := hle k
        have := honce k
        exact ⟨List.length_eq_zero_iff.mp (by omega), by omega⟩
      have hheld : rowsOf a k ≠ [] ∨ rowsOf b k ≠ [] :=
        Or.inr (List.ne_nil_of_length_pos (by omega))
      refine hextra k hheld ((keyClass_eq hheld).2.1.mpr ⟨hlost.1, hlost.2, ?_⟩)
      rwa [hchanged k hlost.1 (List.ne_nil_of_length_pos (by omega))]
  · rintro ⟨honce, hasked⟩
    refine ⟨fun k hheld hclass => ?_, fun k hheld hclass => ?_, ?_, fun k hheld hclass => ?_⟩
    · obtain ⟨hone, hnone⟩ := (keyClass_eq hheld).1.mp hclass
      have := hle k
      simp [hone, hnone] at this
    · obtain ⟨hnone, hone, hnot⟩ := (keyClass_eq hheld).2.1.mp hclass
      have hsome : rowsOf b k ≠ [] := List.ne_nil_of_length_pos (by omega)
      rw [hchanged k hnone hsome] at hnot
      rcases hasked with hasked | hlength
      · exact hnot hasked
      · have hperm := rowsOf_perm (hsub.perm_of_length_le hlength.ge) k
        rw [hnone] at hperm
        exact hsome (List.nil_perm.mp hperm)
    · refine List.flatMap_eq_nil_iff.mpr fun k _ => List.eq_nil_iff_forall_not_mem.mpr ?_
      intro cell hcell
      obtain ⟨-, x, y, hx, hy, hmem, hne⟩ := mem_keyCells.mp hcell
      have hxy := rowsOf_subperm hsub k
      rw [hx, hy] at hxy
      obtain rfl := List.singleton_perm_singleton.mp (hxy.perm_of_length_le le_rfl)
      exact ne_of_mem_zip hmem hne rfl
    · have := (keyClass_eq hheld).2.2.2.mp hclass
      have := hle k
      have := honce k
      omega

end Leaves

/-! ## The rows not in doubt -/

/-- A summary counts its segment's rows. -/
theorem length_eq_of_summaryOf_eq {sum sum' : List ℕ → ℕ} {rows rows' : List HashRow}
    {depth b : ℕ} (h : summaryOf sum rows depth b = summaryOf sum' rows' depth b) :
    (rows.filter fun r => segmentOf depth r.bucket = b).length =
      (rows'.filter fun r => segmentOf depth r.bucket = b).length := by
  simp only [summaryOf] at h
  split at h
  · rename_i hnil
    split at h
    · rename_i hnil'
      rw [hnil, hnil']
    · cases h
  · split at h
    · cases h
    · exact congrArg Summary.rows (Option.some.inj h)

theorem length_leafRows_map {A : Type} (md5 : Md5) (rendered : RenderedTable A)
    (depth b : ℕ) (rows : List A) :
    (leafRows md5 depth [b] (rows.map (canonicalRow rendered))).length =
      ((rows.map (hashRow md5 rendered)).filter fun r => segmentOf depth r.bucket = b).length := by
  rw [leafRows, List.filter_map, List.filter_map, List.length_map, List.length_map]
  refine congrArg List.length (List.filter_congr fun r _ => ?_)
  exact decide_eq_decide.mpr List.mem_singleton

namespace Comparison

variable {R T : Type} {c : Comparison R T}

/-- A key not in doubt has as many rows on both sides: a summary counts them. -/
private theorem length_rowsOf_of_not_inDoubt (hsub : c.hashedRows.Subperm c.copyRows) {k : String}
    (hk : ¬ c.InDoubt c.lastDepth k) :
    (rowsOf c.hashedRows k).length = (rowsOf c.copyRows k).length := by
  obtain ⟨d, -, -, hagree⟩ := exists_agree_of_not_reached (leafDepth_bounds ..).2 hk
  have hlength : (leafRows c.md5 d [Segments.segment d (bucketOf c.md5 k)] c.hashedRows).length =
      (leafRows c.md5 d [Segments.segment d (bucketOf c.md5 k)] c.copyRows).length := by
    rw [hashedRows, rowsAt, copyRows, sourceRows, targetRows, length_leafRows_map,
      length_leafRows_map]
    exact length_eq_of_summaryOf_eq (not_not.mp hagree)
  have hperm := (hsub.filter _).perm_of_length_le hlength.ge
  have hkey := (rowsOf_perm hperm k).length_eq
  have hmem : segmentOf d (bucketOf c.md5 k) ∈ [Segments.segment d (bucketOf c.md5 k)] :=
    List.mem_singleton.mpr rfl
  change (rowsOf (leafRows ..) k).length = (rowsOf (leafRows ..) k).length at hkey
  rwa [rowsOf_leafRows, rowsOf_leafRows, if_pos hmem, if_pos hmem] at hkey

/-- The two sides differ in number by the rows in doubt. -/
private theorem length_copyRows_sub (hsub : c.hashedRows.Subperm c.copyRows) :
    (c.copyRows.length : ℤ) - c.hashedRows.length =
      (c.inDoubt c.copyRows).length - (c.inDoubt c.hashedRows).length := by
  have hsplit : ∀ rows : List (String × List String), rows.length =
      (c.inDoubt rows).length + (rows.filter fun row => ¬ c.InDoubt c.lastDepth row.1).length := by
    intro rows
    simpa [inDoubt] using
      rows.length_eq_length_filter_add fun row => decide (c.InDoubt c.lastDepth row.1)
  have hrest : (c.hashedRows.filter fun row => ¬ c.InDoubt c.lastDepth row.1).length =
      (c.copyRows.filter fun row => ¬ c.InDoubt c.lastDepth row.1).length := by
    refine length_eq_of_rowsOf fun k => ?_
    rw [rowsOf_filter (fun k => ¬ c.InDoubt c.lastDepth k),
      rowsOf_filter (fun k => ¬ c.InDoubt c.lastDepth k)]
    split
    · rename_i hk
      exact length_rowsOf_of_not_inDoubt hsub hk
    · rfl
  rw [hsplit c.copyRows, hsplit c.hashedRows, hrest]
  push_cast
  ring

/-- The leaves a descent ends with hold the rows in doubt. -/
private theorem leafRows_eq_inDoubt {depth : ℕ} {leaves : List ℕ} (hle : depth ≤ c.lastDepth)
    (hleaves : ∀ b, b ∈ leaves ↔ Reached (Disagree
      (sourceHashes c.engine c.md5 c.table c.source (c.legacy.after 3).rows)
      (targetHashes c.md5 c.target c.copy)) depth b)
    (hlast : leaves ≠ [] → depth = c.lastDepth) (rows : List (String × List String)) :
    leafRows c.md5 depth leaves rows = c.inDoubt rows := by
  refine List.filter_congr fun row _ => decide_eq_decide.mpr ?_
  rw [hleaves]
  by_cases hnil : leaves = []
  · have hnone : ¬ c.InDoubt depth row.1 := by
      rw [InDoubt, ← hleaves, hnil]
      exact List.not_mem_nil
    exact ⟨fun h => absurd h hnone, fun h =>
      absurd (reached_of_le (leafDepth_bounds ..).2 hle h) hnone⟩
  · rw [hlast hnil]
    rfl

/-- **When late writes are not reported**: the two sides agree as of the watermark when the
comparison starts, and every write during it is late; then it returns, and nothing is reported
and no row-count failure added exactly if it is undisturbed. -/
theorem unreported_iff_undisturbed (c : Comparison R T) (hasOf : asOf c.table = true)
    (hagree : (c.rowsAt 0).Perm c.copyRows) (hlate : c.legacy.Late c.engine c.table c.source) :
    ∃ result connector, c.run = .ok (result, connector) ∧
      (Unreported c.table result ↔ c.Undisturbed) := by
  obtain ⟨result, connector, hrun, houtcome⟩ := diffTable_outcome c.md5 c.ceilLog
    c.leafWidth c.copy c.renders c.copyRenders c.legacy
  refine ⟨result, connector, hrun, ?_⟩
  obtain ⟨hafter, hsourceRows, htargetRows, depth, leaves, ⟨-, hle⟩, hleaves, hlast, changed,
    hfindings, hchanged⟩ := houtcome
  have hcounted : counted c.table c.legacy = c.legacy.next := if_pos hasOf
  simp only [hcounted, shiftIterate] at hafter hsourceRows hleaves hfindings hchanged
  -- The moments: what is hashed, then what is fetched, lost rows of what the copy holds.
  have hlater : ∀ {m n : ℕ}, m ≤ n → Later c.engine c.table c.source (c.legacy.after m).rows
      (c.legacy.after n).rows := fun hmn => later_after hlate hmn
  have hlost : ∀ n, (c.rowsAt n).Subperm c.copyRows := fun n =>
    ((hlater n.zero_le).sublist hasOf).subperm.trans hagree.subperm
  have hhashed : result.sourceRows = c.hashedRows.length :=
    hsourceRows.trans (List.length_map ..).symm
  have hcopied : result.targetRows = c.copyRows.length := htargetRows.trans (List.length_map ..).symm
  rw [hhashed, hcopied] at hle hlast
  change depth ≤ c.lastDepth at hle
  change leaves ≠ [] → depth = c.lastDepth at hlast
  have hdoubt := leafRows_eq_inDoubt (c := c) hle hleaves hlast
  have hfetched : leafRows c.md5 depth leaves (sourceRows c.engine c.table c.source
      (c.legacy.after (depth + 3 + 1)).rows) = c.inDoubt c.fetchedRows := by
    by_cases hnil : leaves = []
    · rw [← hdoubt, hnil, leafRows_nil, leafRows_nil]
    · rw [← hdoubt, fetchedRows, ← hlast hnil, rowsAt]
  have hcopiedDoubt : leafRows c.md5 depth leaves (targetRows c.target c.copy) =
      c.inDoubt c.copyRows := hdoubt c.copyRows
  have hsub : (c.inDoubt c.fetchedRows).Subperm (c.inDoubt c.copyRows) := (hlost _).filter _
  -- The keys lost by the fetch are keys that changed, if they are asked for.
  have hasked : ∀ k, rowsOf (c.inDoubt c.fetchedRows) k = [] →
      rowsOf (c.inDoubt c.copyRows) k ≠ [] → (k ∈ changed ↔ c.countedKeys ≠ []) := by
    intro k hnone hsome
    rw [← hfetched, rowsOf_leafRows] at hnone
    rw [← hcopiedDoubt, rowsOf_leafRows] at hsome
    obtain ⟨hleaf, hheld⟩ := ite_ne_right_iff.mp hsome
    rw [if_pos hleaf] at hnone
    have hbefore : rowsOf (c.rowsAt 0) k ≠ [] := by
      intro hnil
      have hperm := rowsOf_perm hagree k
      rw [hnil] at hperm
      exact hheld (List.nil_perm.mp hperm)
    have hkey : k ∈ keysChanged c.engine c.table c.source (c.legacy.after (depth + 4 + 1)).rows :=
      (hlater (Nat.zero_le _)).mem_keysChanged (hlater (by omega)) hasOf hbefore hnone
    have hpair : ∃ k, rowsOf (leafRows c.md5 depth leaves (sourceRows c.engine c.table c.source
        (c.legacy.after (depth + 3 + 1)).rows)) k = [] ∧
          rowsOf (leafRows c.md5 depth leaves (targetRows c.target c.copy)) k ≠ [] := by
      refine ⟨k, ?_, ?_⟩
      · rw [rowsOf_leafRows, if_pos hleaf, hnone]
      · rw [rowsOf_leafRows, if_pos hleaf]
        exact hheld
    rw [hchanged, hafter, Ne, List.length_eq_zero_iff]
    exact ⟨fun h => h.1.1, fun h => ⟨⟨h, hpair⟩, hkey, hleaf⟩⟩
  rw [hfetched, hcopiedDoubt] at hfindings
  have hrowCounts : (∀ discrepancies thresholds time,
      ¬ (verdict c.table result discrepancies thresholds time).RowCountsDiffer) ↔
        (c.inDoubt c.fetchedRows).length = (c.inDoubt c.hashedRows).length := by
    have haccounted : accounted result = result.findings.accounted := rfl
    have hdiffer := length_copyRows_sub (hlost 3)
    simp only [rowCountsDiffer_verdict, not_not, forall_const, haccounted, hfindings, accounted_eq,
      hhashed, hcopied]
    rw [hdiffer]
    omega
  have hlists := findings_eq_nil_iff (c.table.valueColumns.map Column.name) hsub hasked
  rw [← hfindings] at hlists
  constructor
  · rintro ⟨hmissing, hextra, hcells, hduplicates, hrows⟩
    obtain ⟨honce, hcount⟩ := hlists.mp ⟨hmissing, hextra, hcells, hduplicates⟩
    have hsteady := hrowCounts.mp hrows
    exact ⟨honce, hsteady, hsteady ▸ hcount⟩
  · rintro ⟨honce, hsteady, hcount⟩
    obtain ⟨hmissing, hextra, hcells, hduplicates⟩ := hlists.mpr ⟨honce, hsteady ▸ hcount⟩
    exact ⟨hmissing, hextra, hcells, hduplicates, hrowCounts.mpr hsteady⟩

end Comparison

/-! ### One order changed during a comparison -/

def ordersText (name : String) : Order → String :=
  coalesce (legacyOrders.value ⟨name, .text, 0, "", ""⟩ {})

def renderedOrders : RenderedTable Order :=
  ⟨joinTexts [ordersText "id"], [ordersText "amount"],
    joinTexts [ordersText "id", ordersText "amount"]⟩

/-- One order on both sides, and what commits before each statement. -/
private def ordersComparison (pending : List (List (Write Order))) : Comparison Order Order where
  engine := legacyOrders
  targetEngine := legacyOrders.toEngine
  md5 := digest
  ceilLog _ _ := 1
  table := orders
  rules := rulesFor orders {}
  leafWidth := 1
  legacy := ⟨[("a", "1", none)], pending⟩
  copy := ⟨[("a", "1", none)]⟩
  source := renderedOrders
  target := renderedOrders
  renders := rfl
  copyRenders := rfl

private theorem late_update (time : Timestamp) (h : 100 < time) :
    Write.Late legacyOrders orders renderedOrders [("a", "1", none)]
      (.update 0 ("a", "2", some time)) := by
  refine ⟨decide_eq_true h, ?_⟩
  rintro old hold
  obtain rfl := Option.some.inj hold
  rfl

/-- An order changed between the count and the hashing is reported as extra. -/
theorem late_write_reported :
    let c := ordersComparison [[], [], [.update 0 ("a", "2", some 110)]]
    asOf c.table = true ∧ (c.rowsAt 0).Perm c.copyRows ∧ c.legacy.Late c.engine c.table c.source ∧
      ∃ result connector, c.run = .ok (result, connector) ∧ result.extra = ["a"] := by
  refine ⟨rfl, List.Perm.refl _, ⟨late_update 110 (by decide), trivial⟩, ?_⟩
  have hrun : (match (ordersComparison [[], [], [.update 0 ("a", "2", some 110)]]).run with
      | .ok (result, _) => decide (result.extra = ["a"])
      | .error _ => false) = true := by decide +kernel
  cases h : (ordersComparison [[], [], [.update 0 ("a", "2", some 110)]]).run with
  | ok found =>
    rw [h] at hrun
    exact ⟨found.1, found.2, rfl, of_decide_eq_true hrun⟩
  | error _ =>
    rw [h] at hrun
    cases hrun

/-- An order placed before the count keeps the one changed after it from being reported. -/
theorem unreported_after_counted :
    let c := ordersComparison [[.insert ("b", "5", some 105)], [], [.update 0 ("a", "2", some 110)]]
    ∃ result connector, c.run = .ok (result, connector) ∧ Unreported c.table result := by
  intro c
  have hlate : c.legacy.Late c.engine c.table c.source := by
    refine ⟨rfl, ⟨rfl, ?_⟩, trivial⟩
    rintro old hold
    obtain rfl := Option.some.inj hold
    rfl
  obtain ⟨result, connector, hrun, hiff⟩ :=
    c.unreported_iff_undisturbed rfl (List.Perm.refl _) hlate
  refine ⟨result, connector, hrun, hiff.mpr ⟨fun k => ?_, by decide +kernel, Or.inl ?_⟩⟩
  · rw [rowsOf, List.length_map]
    exact (List.length_filter_le ..).trans (List.length_filter_le ..)
  · decide +kernel

end PlatformOps.Reconcile
