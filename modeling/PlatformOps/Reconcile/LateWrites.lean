import PlatformOps.Reconcile.Descent
import PlatformOps.Reconcile.Metrics

/-!
# Writes During a Comparison

The legacy application goes on writing while a pair is compared, every write
stamped after the watermark. A row then leaves what tonight compares, and never
comes back; its key joins the keys that changed. Each statement sees its own
moment:

- `count_after` counts the changes so far; only if there are some are the changed
  keys asked for later;
- the rows are hashed at another moment, and fetched at a third.

So a first write after the count is reported as an extra key, and one between the
hashing and the fetch as lost rows: `Undisturbed` says when neither happens.
-/

namespace PlatformOps.Reconcile

open Listing Segments

/-! ## Late writes -/

section Late

variable {R : Type} (engine : PostgresEngine R) (table : TableSpec) (rendered : RenderedTable R)

/-- A write during the comparison: stamped after the watermark, and in place. -/
def Write.Late (rows : List R) : Write R → Prop
  | .insert row => changedAfter engine table row = true
  | .update position row => changedAfter engine table row = true ∧
      ∀ old, rows[position]? = some old → rendered.key row = rendered.key old

/-- Every one of some writes is late, one after the other. -/
def AllLate : List R → List (Write R) → Prop
  | _, [] => True
  | rows, write :: rest => write.Late engine table rendered rows ∧ AllLate (write.apply rows) rest

/-- A row, later: the same, or changed after the watermark. -/
def Touched (r r' : R) : Prop :=
  r' = r ∨ (changedAfter engine table r' = true ∧ rendered.key r' = rendered.key r)

/-- A table, later: each row touched or not, and new rows at the end. -/
inductive Later : List R → List R → Prop
  | new {rows : List R} (h : ∀ r ∈ rows, changedAfter engine table r = true) : Later [] rows
  | cons {r r' : R} {rows rows' : List R} (h : Touched engine table rendered r r')
      (hrest : Later rows rows') : Later (r :: rows) (r' :: rows')

variable {engine table rendered}

theorem Touched.trans {r r' r'' : R} (h : Touched engine table rendered r r')
    (h' : Touched engine table rendered r' r'') : Touched engine table rendered r r'' := by
  rcases h' with rfl | ⟨hchanged, hkey⟩
  · exact h
  · rcases h with rfl | ⟨-, hkey'⟩
    · exact Or.inr ⟨hchanged, hkey⟩
    · exact Or.inr ⟨hchanged, hkey.trans hkey'⟩

/-- A row changed after the watermark stays so. -/
theorem Touched.changed {r r' : R} (h : Touched engine table rendered r r')
    (hr : changedAfter engine table r = true) : changedAfter engine table r' = true := by
  rcases h with rfl | ⟨hchanged, -⟩
  · exact hr
  · exact hchanged

theorem Later.refl : (rows : List R) → Later engine table rendered rows rows
  | [] => .new nofun
  | _ :: rows => .cons (Or.inl rfl) (Later.refl rows)

theorem Later.changed {rows rows' : List R} (h : Later engine table rendered rows rows')
    (hrows : ∀ r ∈ rows, changedAfter engine table r = true) :
    ∀ r ∈ rows', changedAfter engine table r = true := by
  induction h with
  | new hnew => exact hnew
  | cons htouched _ ih =>
    obtain ⟨hr, hrest⟩ := List.forall_mem_cons.mp hrows
    exact List.forall_mem_cons.mpr ⟨htouched.changed hr, ih hrest⟩

theorem Later.trans {rows rows' rows'' : List R} (h : Later engine table rendered rows rows')
    (h' : Later engine table rendered rows' rows'') : Later engine table rendered rows rows'' := by
  induction h generalizing rows'' with
  | new hnew => exact .new (h'.changed hnew)
  | cons htouched _ ih =>
    cases h' with
    | cons htouched' hrest' => exact .cons (htouched.trans htouched') (ih hrest')

/-- **A late write** touches one row or adds one. -/
theorem later_apply {rows : List R} {write : Write R}
    (hlate : write.Late engine table rendered rows) :
    Later engine table rendered rows (write.apply rows) := by
  cases write with
  | insert row =>
    rw [Write.apply]
    induction rows with
    | nil => exact .new (List.forall_mem_singleton.mpr hlate)
    | cons r rest ih => exact .cons (Or.inl rfl) (ih hlate)
  | update position row =>
    rw [Write.apply]
    obtain ⟨hchanged, hkey⟩ := hlate
    induction rows generalizing position with
    | nil => exact .refl _
    | cons r rest ih =>
      cases position with
      | zero => exact .cons (Or.inr ⟨hchanged, hkey r rfl⟩) (.refl rest)
      | succ position => exact .cons (Or.inl rfl) (ih position hkey)

/-- A batch of late writes, and the writes after it. -/
private theorem later_batch {rows : List R} {batch rest : List (Write R)}
    (h : AllLate engine table rendered rows (batch ++ rest)) :
    Later engine table rendered rows (batch.foldl Write.apply rows) ∧
      AllLate engine table rendered (batch.foldl Write.apply rows) rest := by
  induction batch generalizing rows with
  | nil => exact ⟨.refl rows, h⟩
  | cons write batch ih =>
    obtain ⟨hwrite, hbatch⟩ := h
    obtain ⟨hlater, hrest⟩ := ih hbatch
    exact ⟨(later_apply hwrite).trans hlater, hrest⟩

/-- All that is still to commit is late. -/
def Legacy.Late (engine : PostgresEngine R) (table : TableSpec) (rendered : RenderedTable R)
    (legacy : Legacy R) : Prop :=
  AllLate engine table rendered legacy.rows legacy.pending.flatten

private theorem later_next {legacy : Legacy R} (h : legacy.Late engine table rendered) :
    Later engine table rendered legacy.rows legacy.next.rows ∧
      legacy.next.Late engine table rendered := by
  obtain ⟨rows, pending⟩ := legacy
  cases pending with
  | nil => exact ⟨.refl rows, h⟩
  | cons batch pending => exact later_batch h

/-- What a statement sees is what an earlier one saw, later. -/
theorem later_after {legacy : Legacy R} (h : legacy.Late engine table rendered) {m n : ℕ}
    (hle : m ≤ n) : Later engine table rendered (legacy.after m).rows (legacy.after n).rows := by
  have hlate : ∀ k, (legacy.after k).Late engine table rendered := by
    intro k
    induction k with
    | zero => exact h
    | succ k ih => exact after_succ legacy k ▸ (later_next ih).2
  induction n, hle using Nat.le_induction with
  | base => exact .refl _
  | succ n _ ih =>
    rw [← after_succ]
    exact ih.trans (later_next (hlate n)).1

/-! ## What tonight compares, later -/

variable {rows rows' rows'' : List R} {k : String}

/-- Rows leave what tonight compares, and none joins. -/
theorem Later.sublist (h : Later engine table rendered rows rows') (hasOf : asOf table = true) :
    (sourceRows engine table rendered rows').Sublist (sourceRows engine table rendered rows) := by
  rw [sourceRows, sourceRows, relation, relation, if_pos hasOf, if_pos hasOf]
  refine List.Sublist.map _ ?_
  induction h with
  | new hnew =>
    rw [List.filter_eq_nil_iff.mpr (by simpa using hnew)]
    exact List.nil_sublist _
  | @cons r r' rows rows' htouched _ ih =>
    rcases htouched with rfl | ⟨hchanged, -⟩
    · rw [List.filter_cons, List.filter_cons]
      split
      · exact ih.cons_cons _
      · exact ih
    · rw [List.filter_cons_of_neg (by simp [hchanged])]
      exact ih.trans ((List.sublist_cons_self r rows).filter _)

theorem mem_keysChanged_iff (hasOf : asOf table = true) :
    k ∈ keysChanged engine table rendered rows ↔
      ∃ r ∈ rows, changedAfter engine table r = true ∧ rendered.key r = k := by
  simp [keysChanged, hasOf, and_assoc]

/-- Every row is still there, touched or not. -/
theorem Later.exists_touched (h : Later engine table rendered rows rows') {r : R} (hr : r ∈ rows) :
    ∃ r' ∈ rows', Touched engine table rendered r r' := by
  induction h with
  | new _ => cases hr
  | cons htouched _ ih =>
    rcases List.mem_cons.mp hr with rfl | hr
    · exact ⟨_, List.mem_cons_self .., htouched⟩
    · obtain ⟨r', hr', htouched'⟩ := ih hr
      exact ⟨r', List.mem_cons_of_mem _ hr', htouched'⟩

theorem rowsOf_sourceRows_ne_nil (hasOf : asOf table = true) :
    rowsOf (sourceRows engine table rendered rows) k ≠ [] ↔
      ∃ r ∈ rows, changedAfter engine table r = false ∧ rendered.key r = k := by
  rw [rowsOf_ne_nil, sourceRows, relation, if_pos hasOf]
  simp [canonicalRow, and_assoc]

/-- The key of a row that left what tonight compares is one that changed, from then on. -/
theorem Later.mem_keysChanged (h : Later engine table rendered rows rows')
    (h' : Later engine table rendered rows' rows'') (hasOf : asOf table = true)
    (hbefore : rowsOf (sourceRows engine table rendered rows) k ≠ [])
    (hnow : rowsOf (sourceRows engine table rendered rows') k = []) :
    k ∈ keysChanged engine table rendered rows'' := by
  obtain ⟨r, hr, -, hkey⟩ := (rowsOf_sourceRows_ne_nil hasOf).mp hbefore
  obtain ⟨r', hr', htouched⟩ := h.exists_touched hr
  have hkey' : rendered.key r' = k := by
    rcases htouched with rfl | ⟨-, heq⟩
    · exact hkey
    · exact heq.trans hkey
  have hchanged : changedAfter engine table r' = true := by
    by_contra hnot
    exact (rowsOf_sourceRows_ne_nil hasOf).mpr ⟨r', hr', by simpa using hnot, hkey'⟩ hnow
  obtain ⟨r'', hr'', htouched'⟩ := h'.exists_touched hr'
  refine (mem_keysChanged_iff hasOf).mpr ⟨r'', hr'', htouched'.changed hchanged, ?_⟩
  rcases htouched' with rfl | ⟨-, heq⟩
  · exact hkey'
  · exact heq.trans hkey'

end Late

/-! ## What the row counts say -/

section Accounted

variable {names changed : List String} {a b : String → List (List String)}

/-- `accounted`, of the findings alone. -/
def Findings.accounted (f : Findings) : ℤ :=
  f.extra.length + f.inFlight.length - f.missing.length +
    (f.duplicates.map fun d => (d.target : ℤ) - d.source).sum

private theorem accounted_append (f g : Findings) :
    (f.append g).accounted = f.accounted + g.accounted := by
  simp only [Findings.accounted, Findings.append, List.length_append, List.map_append,
    List.sum_append, Nat.cast_add]
  ring

private theorem findingsOver_cons (k : String) (keys : List String) :
    findingsOver names changed a b (k :: keys) =
      (findingsOver names changed a b [k]).append (findingsOver names changed a b keys) := by
  simp only [findingsOver, Findings.append, List.filter_cons, List.filter_nil, List.flatMap_cons,
    List.flatMap_nil, List.append_nil]
  congr 1 <;> split <;> simp

/-- What one key accounts for is by how many rows the copy has more of it. -/
private theorem accounted_key {k : String} (hheld : a k ≠ [] ∨ b k ≠ []) :
    (findingsOver names changed a b [k]).accounted = (b k).length - (a k).length := by
  simp only [Findings.accounted, findingsOver, List.filter_cons, List.filter_nil, keyClass]
  by_cases hmany : 1 < (a k).length ∨ 1 < (b k).length
  · simp [hmany]
  · simp only [if_neg hmany]
    rw [not_or, not_lt, not_lt] at hmany
    rcases eq_nil_or_singleton hmany.1 with ha | ⟨x, ha⟩ <;>
    rcases eq_nil_or_singleton hmany.2 with hb | ⟨y, hb⟩
    · simp [ha, hb] at hheld
    · by_cases hk : k ∈ changed <;> simp [ha, hb, hk]
    · simp [ha, hb]
    · by_cases hxy : x = y <;> simp [ha, hb, hxy]

/-- What the keys account for is by how many rows the copy has more of them. -/
theorem accounted_findingsOver {keys : List String}
    (hheld : ∀ k ∈ keys, a k ≠ [] ∨ b k ≠ []) :
    (findingsOver names changed a b keys).accounted =
      ((keys.map fun k => (b k).length).sum : ℕ) - ((keys.map fun k => (a k).length).sum : ℕ) := by
  induction keys with
  | nil => rfl
  | cons k rest ih =>
    obtain ⟨hk, hrest⟩ := List.forall_mem_cons.mp hheld
    rw [findingsOver_cons, accounted_append, accounted_key hk, ih hrest, List.map_cons,
      List.map_cons, List.sum_cons, List.sum_cons]
    push_cast
    ring

/-- The rows of all keys are all the rows. -/
theorem sum_rowsOf {rows : List (String × List String)} {keys : List String}
    (hnodup : keys.Nodup) (hkeys : ∀ row ∈ rows, row.1 ∈ keys) :
    (keys.map fun k => (rowsOf rows k).length).sum = rows.length := by
  simpa only [rowsOf, List.length_map] using sum_length_filter (f := Prod.fst) hnodup hkeys

/-- **What a comparison accounts for** is by how many rows the two sides' leaves differ. -/
theorem accounted_eq {source target : List (String × List String)} :
    (findingsOver names changed (rowsOf source) (rowsOf target) (keysOf source target)).accounted =
      target.length - source.length := by
  have hnodup : (keysOf source target).Nodup := nodup_sortedSet _
  have hsource : ∀ row ∈ source, row.1 ∈ keysOf source target :=
    fun row hrow => mem_keysOf.mpr (Or.inl (rowsOf_ne_nil.mpr ⟨row, hrow, rfl⟩))
  have htarget : ∀ row ∈ target, row.1 ∈ keysOf source target :=
    fun row hrow => mem_keysOf.mpr (Or.inr (rowsOf_ne_nil.mpr ⟨row, hrow, rfl⟩))
  rw [accounted_findingsOver fun k hk => mem_keysOf.mp hk, sum_rowsOf hnodup hsource,
    sum_rowsOf hnodup htarget]

end Accounted

end PlatformOps.Reconcile
