import PlatformOps.Reconcile.Descent

/-!
# The Segmented Diff Finds What a Full Comparison Finds

On static tables, if no two segments with different contents have equal
summaries, a key outside the leaves the descent reaches has the same rows on both
sides. So the diff reports what comparing every key would (`fullFindings`), but
for a key duplicated identically on both sides.

- `Findings.Exact`: which keys each list of a result holds.
- `Exact.once`, `Exact.never`: a differing key is in exactly one list, an equal or
  absent one in none.
- `diffTable_exact`: the main result.
-/

namespace PlatformOps.Reconcile

open Listing Segments

/-! ## What a full comparison finds -/

/-- The findings of a comparison of all rows, key by key. -/
def fullFindings (names changed : List String) (source target : List (String × List String)) :
    Findings :=
  findingsOver names changed (rowsOf source) (rowsOf target) (keysOf source target)

/-- The lists of a result hold exactly the keys they should: `changed` are the keys whose
legacy row changed after the watermark. -/
structure Findings.Exact (names changed : List String) (source target : List (String × List String))
    (f : Findings) : Prop where
  missing : ∀ k, k ∈ f.missing ↔ (rowsOf source k).length = 1 ∧ rowsOf target k = []
  extra : ∀ k, k ∈ f.extra ↔
    rowsOf source k = [] ∧ (rowsOf target k).length = 1 ∧ k ∉ changed
  inFlight : ∀ k, k ∈ f.inFlight ↔
    rowsOf source k = [] ∧ (rowsOf target k).length = 1 ∧ k ∈ changed
  /-- Every duplicate is one, with how many times each side holds it. -/
  duplicates : ∀ d ∈ f.duplicates, (1 < d.source ∨ 1 < d.target) ∧
    d.source = (rowsOf source d.key).length ∧ d.target = (rowsOf target d.key).length
  /-- Every duplicate the two sides do not hold alike is there. -/
  allDuplicates : ∀ k, 1 < (rowsOf source k).length ∨ 1 < (rowsOf target k).length →
    ¬ (rowsOf source k).Perm (rowsOf target k) →
    ⟨k, (rowsOf source k).length, (rowsOf target k).length⟩ ∈ f.duplicates
  /-- The cells name exactly the value columns whose values differ. -/
  cells : ∀ c, c ∈ f.cells ↔ ∃ a b, rowsOf source c.key = [a] ∧ rowsOf target c.key = [b] ∧
    (c.column, c.source, c.target) ∈ names.zip (a.zip b) ∧ c.source ≠ c.target

/-- The lists a key can be reported in. -/
inductive Report
  | missing | extra | inFlight | duplicates | cells
deriving DecidableEq, Repr

/-- The key is in that list of the findings. -/
def Findings.Reports (f : Findings) (k : String) : Report → Prop
  | .missing => k ∈ f.missing
  | .extra => k ∈ f.extra
  | .inFlight => k ∈ f.inFlight
  | .duplicates => ∃ d ∈ f.duplicates, d.key = k
  | .cells => ∃ c ∈ f.cells, c.key = k

/-- Every row has a value for each value column, or one empty text if there is none. -/
def WellShaped (names : List String) (rows : List (String × List String)) : Prop :=
  ∀ row ∈ rows, if names = [] then row.2 = [""] else row.2.length = names.length

instance (names : List String) (rows : List (String × List String)) :
    Decidable (WellShaped names rows) :=
  inferInstanceAs (Decidable (∀ row ∈ rows, _))

section Exact

variable {names changed : List String} {source target : List (String × List String)}
  {f : Findings}

/-- What a key's rows look like when it is reported in a list. -/
def Report.Fits (changed : List String) (k : String) (a b : List (List String)) : Report → Prop
  | .missing => a.length = 1 ∧ b = []
  | .extra => a = [] ∧ b.length = 1 ∧ k ∉ changed
  | .inFlight => a = [] ∧ b.length = 1 ∧ k ∈ changed
  | .duplicates => 1 < a.length ∨ 1 < b.length
  | .cells => ∃ x y, a = [x] ∧ b = [y] ∧ x ≠ y

/-- No key's rows fit two lists. -/
private theorem Report.Fits.unique {k : String} {a b : List (List String)} {r r' : Report}
    (h : r.Fits changed k a b) (h' : r'.Fits changed k a b) : r = r' := by
  cases r <;> cases r' <;> simp only [Report.Fits] at h h' <;> first | rfl | grind

theorem Findings.Exact.fits (h : f.Exact names changed source target) {k : String} {r : Report}
    (hr : f.Reports k r) : r.Fits changed k (rowsOf source k) (rowsOf target k) := by
  cases r with
  | missing => exact (h.missing k).mp hr
  | extra => exact (h.extra k).mp hr
  | inFlight => exact (h.inFlight k).mp hr
  | duplicates =>
    obtain ⟨d, hd, rfl⟩ := hr
    obtain ⟨hmany, hsource, htarget⟩ := h.duplicates d hd
    rw [Report.Fits, ← hsource, ← htarget]
    exact hmany
  | cells =>
    obtain ⟨c, hc, rfl⟩ := hr
    obtain ⟨a, b, ha, hb, hmem, hne⟩ := (h.cells c).mp hc
    exact ⟨a, b, ha, hb, ne_of_mem_zip hmem hne⟩

/-- Two rows of one shape that are not equal differ in a named cell. -/
private theorem exists_cell {k : String} {a b : List String} (hsource : WellShaped names source)
    (htarget : WellShaped names target) (ha : rowsOf source k = [a]) (hb : rowsOf target k = [b])
    (hne : a ≠ b) : ∃ name x y, (name, x, y) ∈ names.zip (a.zip b) ∧ x ≠ y := by
  have hlenA := hsource (k, a) (mem_rowsOf.mp (ha ▸ List.mem_singleton.mpr rfl))
  have hlenB := htarget (k, b) (mem_rowsOf.mp (hb ▸ List.mem_singleton.mpr rfl))
  by_cases hnames : names = []
  · rw [if_pos hnames] at hlenA hlenB
    exact absurd (hlenA.trans hlenB.symm) hne
  rw [if_neg hnames] at hlenA hlenB
  simp only at hlenA hlenB
  by_contra hall
  refine hne (List.ext_getElem (hlenA.trans hlenB.symm) fun i hi hi' => ?_)
  by_contra hcell
  have hn : i < names.length := hlenA ▸ hi
  have hzip : i < (names.zip (a.zip b)).length := by simp [hlenA, hlenB, hn]
  refine hall ⟨names[i], a[i], b[i], ?_, hcell⟩
  simpa using List.getElem_mem hzip

/-- A key whose rows are not the same on both sides is reported, in exactly one list. -/
theorem Findings.Exact.once (h : f.Exact names changed source target)
    (hsource : WellShaped names source) (htarget : WellShaped names target) {k : String}
    (hdiffer : ¬ (rowsOf source k).Perm (rowsOf target k)) : ∃! r, f.Reports k r := by
  have hex : ∃ r, f.Reports k r := by
    by_cases hmany : 1 < (rowsOf source k).length ∨ 1 < (rowsOf target k).length
    · exact ⟨.duplicates, _, h.allDuplicates k hmany hdiffer, rfl⟩
    · rw [not_or, not_lt, not_lt] at hmany
      -- one row at most on either side: four cases
      match ha : rowsOf source k, hb : rowsOf target k, hmany with
      | [], [], _ => exact absurd (ha ▸ hb ▸ List.Perm.refl _) hdiffer
      | [x], [], _ => exact ⟨.missing, (h.missing k).mpr (by simp [ha, hb])⟩
      | [], [y], _ =>
        by_cases hchanged : k ∈ changed
        · exact ⟨.inFlight, (h.inFlight k).mpr (by simp [ha, hb, hchanged])⟩
        · exact ⟨.extra, (h.extra k).mpr (by simp [ha, hb, hchanged])⟩
      | [x], [y], _ =>
        have hne : x ≠ y := by
          rintro rfl
          exact hdiffer (ha ▸ hb ▸ List.Perm.refl _)
        obtain ⟨name, u, v, hmem, huv⟩ := exists_cell hsource htarget ha hb hne
        exact ⟨.cells, ⟨k, name, u, v⟩, (h.cells _).mpr ⟨x, y, ha, hb, hmem, huv⟩, rfl⟩
  obtain ⟨r, hr⟩ := hex
  -- the kinds of findings exclude each other
  exact ⟨r, hr, fun r' hr' => (h.fits hr').unique (h.fits hr)⟩

/-- A key held once on each side with equal values, or by neither side, is not reported. -/
theorem Findings.Exact.never (h : f.Exact names changed source target) {k : String}
    (hsame : (∃ a, rowsOf source k = [a] ∧ rowsOf target k = [a]) ∨
      (rowsOf source k = [] ∧ rowsOf target k = [])) (r : Report) : ¬ f.Reports k r := by
  intro hr
  have hfits := h.fits hr
  rcases hsame with ⟨a, ha, hb⟩ | ⟨ha, hb⟩ <;> rw [ha, hb] at hfits <;>
    cases r <;> simp [Report.Fits] at hfits

end Exact

/-! ## From the leaves to the whole table -/

/-- Two segments with different contents never have equal summaries: what the diff relies on,
for every segment of a row at every depth of the descent. -/
def NoCollision (md5 : Md5) (sourceHashes targetHashes : List HashRow)
    (source target : List (String × List String)) : Prop :=
  ∀ row ∈ source ++ target, ∀ depth ∈ List.range' 1 maxDepth,
    let b := segmentOf depth (bucketOf md5 row.1)
    ¬ Disagree sourceHashes targetHashes depth b →
      (leafRows md5 depth [b] source).Perm (leafRows md5 depth [b] target)

instance (md5 : Md5) (sourceHashes targetHashes : List HashRow)
    (source target : List (String × List String)) :
    Decidable (NoCollision md5 sourceHashes targetHashes source target) :=
  inferInstanceAs (Decidable (∀ row ∈ source ++ target, ∀ depth ∈ List.range' 1 maxDepth,
    ¬ Disagree sourceHashes targetHashes depth (segmentOf depth (bucketOf md5 row.1)) → _))

section Leaves

variable {md5 : Md5} {names : List String} {source target : List (String × List String)}
  {sourceHashes targetHashes : List HashRow} {depth : ℕ} {leaves : List ℕ}

/-- A key outside the segments the descent reaches has the same rows on both sides. -/
theorem perm_of_not_reached (hcollide : NoCollision md5 sourceHashes targetHashes source target)
    (hdepth : depth ≤ 8) {k : String}
    (hk : ¬ Reached (Disagree sourceHashes targetHashes) depth
      (segmentOf depth (bucketOf md5 k))) :
    (rowsOf source k).Perm (rowsOf target k) := by
  by_cases hheld : rowsOf source k = [] ∧ rowsOf target k = []
  · rw [hheld.1, hheld.2]
  · have hrow : ∃ row ∈ source ++ target, row.1 = k := by
      rw [not_and_or, ← Ne, ← Ne, rowsOf_ne_nil, rowsOf_ne_nil] at hheld
      rcases hheld with ⟨row, hrow, hkey⟩ | ⟨row, hrow, hkey⟩
      · exact ⟨row, List.mem_append_left _ hrow, hkey⟩
      · exact ⟨row, List.mem_append_right _ hrow, hkey⟩
    obtain ⟨row, hrow, rfl⟩ := hrow
    obtain ⟨d, hd, hle, hagree⟩ := exists_agree_of_not_reached hdepth hk
    have hperm := hcollide row hrow d
      (List.mem_range'_1.mpr ⟨hd, by rw [maxDepth]; omega⟩) hagree
    have hkeyRows := (hperm.filter fun r => r.1 = row.1).map Prod.snd
    simpa only [← rowsOf.eq_1, rowsOf_leafRows, List.mem_singleton, segmentOf, shift,
      Segments.segment, ↓reduceIte] using hkeyRows

/-- What is asked of `changed`: the keys of the leaves that changed, if there is one to ask for. -/
private def Asked (md5 : Md5) (depth : ℕ) (leaves : List ℕ) (all changed : List String)
    (a b : String → List (List String)) : Prop :=
  ∀ key, key ∈ changed ↔ (all.length ≠ 0 ∧ ∃ k, a k = [] ∧ b k ≠ []) ∧ key ∈ all ∧
    segmentOf depth (bucketOf md5 key) ∈ leaves

variable {all changed : List String}

/-- A key's class depends on `changed` only if just the copy holds it. -/
private theorem keyClass_congr {k : String} {a b : List (List String)}
    (h : a = [] → b ≠ [] → (k ∈ changed ↔ k ∈ all)) :
    keyClass changed k a b = keyClass all k a b := by
  unfold keyClass
  split
  · rfl
  · match a, b with
    | [], [] => rfl
    | [], y :: _ => simp only [h rfl (List.cons_ne_nil y _)]
    | _ :: _, [] => rfl
    | _ :: _, _ :: _ => rfl

private theorem findingsOver_congr {a b a' b' : String → List (List String)} {keys : List String}
    (ha : ∀ k ∈ keys, a k = a' k) (hb : ∀ k ∈ keys, b k = b' k)
    (hclass : ∀ k ∈ keys, keyClass changed k (a k) (b k) = keyClass all k (a k) (b k)) :
    findingsOver names changed a b keys = findingsOver names all a' b' keys := by
  have hfilter : ∀ c, (keys.filter fun k => keyClass changed k (a k) (b k) = c) =
      keys.filter fun k => keyClass all k (a' k) (b' k) = c := by
    refine fun c => List.filter_congr fun k hk => ?_
    rw [hclass k hk, ha k hk, hb k hk]
  simp only [findingsOver, hfilter]
  congr 1
  · refine List.map_congr_left fun k hk => ?_
    rw [ha k (List.mem_of_mem_filter hk), hb k (List.mem_of_mem_filter hk)]
  · refine List.flatMap_congr fun k hk => ?_
    rw [ha k hk, hb k hk]

/-- The keys of the leaves are the keys in the leaves. -/
private theorem keysOf_leafRows :
    keysOf (leafRows md5 depth leaves source) (leafRows md5 depth leaves target) =
      (keysOf source target).filter fun k => segmentOf depth (bucketOf md5 k) ∈ leaves := by
  refine List.Pairwise.eq_of_mem_iff (sortedLT_sortedSet _)
    ((sortedLT_sortedSet _).filter _) fun k => ?_
  rw [List.mem_filter, mem_keysOf, mem_keysOf, rowsOf_leafRows, rowsOf_leafRows]
  by_cases hleaf : segmentOf depth (bucketOf md5 k) ∈ leaves
  · simp [hleaf]
  · simp [hleaf]

/-- **From the leaves to the tables**: what is found in the leaves is what is found of the keys
in the leaves. -/
private theorem findings_leaves (all : List String)
    (hchanged : Asked md5 depth leaves all changed (rowsOf (leafRows md5 depth leaves source))
      (rowsOf (leafRows md5 depth leaves target))) :
    findingsOver names changed (rowsOf (leafRows md5 depth leaves source))
        (rowsOf (leafRows md5 depth leaves target))
        (keysOf (leafRows md5 depth leaves source) (leafRows md5 depth leaves target)) =
      findingsOver names all (rowsOf source) (rowsOf target)
        ((keysOf source target).filter fun k => segmentOf depth (bucketOf md5 k) ∈ leaves) := by
  rw [keysOf_leafRows]
  set keys := (keysOf source target).filter fun k => segmentOf depth (bucketOf md5 k) ∈ leaves
  have hleaf : ∀ k ∈ keys, segmentOf depth (bucketOf md5 k) ∈ leaves :=
    fun k hk => of_decide_eq_true (List.mem_filter.mp hk).2
  refine findingsOver_congr (fun k hk => ?_) (fun k hk => ?_) fun k hk => ?_
  · rw [rowsOf_leafRows, if_pos (hleaf k hk)]
  · rw [rowsOf_leafRows, if_pos (hleaf k hk)]
  · refine keyClass_congr fun hnone hsome => ?_
    rw [hchanged k]
    constructor
    · exact fun h => h.2.1
    · intro h
      exact ⟨⟨(List.length_pos_of_mem h).ne', k, hnone, hsome⟩, h, hleaf k hk⟩

/-! ### The keys left out -/

/-- A comparison that leaves out no key but those held alike on both sides finds exactly what it
should. -/
private theorem exact_findingsOver {keys : List String}
    (hsub : ∀ k ∈ keys, k ∈ keysOf source target)
    (hrest : ∀ k, k ∉ keys → (rowsOf source k).Perm (rowsOf target k)) :
    (findingsOver names all (rowsOf source) (rowsOf target) keys).Exact names all source target := by
  have hheld : ∀ k ∈ keys, rowsOf source k ≠ [] ∨ rowsOf target k ≠ [] :=
    fun k hk => mem_keysOf.mp (hsub k hk)
  have hin : ∀ k, ¬ (rowsOf source k).Perm (rowsOf target k) → k ∈ keys :=
    fun k hk => not_not.mp fun hnot => hk (hrest k hnot)
  have hlength : ∀ k, (rowsOf source k).length ≠ (rowsOf target k).length → k ∈ keys :=
    fun k hne => hin k fun hperm => hne hperm.length_eq
  constructor
  · intro k
    simp only [findingsOver, List.mem_filter, decide_eq_true_eq]
    constructor
    · exact fun h => (keyClass_eq (hheld k h.1)).1.mp h.2
    · intro h
      have hk : k ∈ keys := hlength k (by simp [h])
      exact ⟨hk, (keyClass_eq (hheld k hk)).1.mpr h⟩
  · intro k
    simp only [findingsOver, List.mem_filter, decide_eq_true_eq]
    constructor
    · exact fun h => (keyClass_eq (hheld k h.1)).2.1.mp h.2
    · intro h
      have hk : k ∈ keys := hlength k (by simp [h])
      exact ⟨hk, (keyClass_eq (hheld k hk)).2.1.mpr h⟩
  · intro k
    simp only [findingsOver, List.mem_filter, decide_eq_true_eq]
    constructor
    · exact fun h => (keyClass_eq (hheld k h.1)).2.2.1.mp h.2
    · intro h
      have hk : k ∈ keys := hlength k (by simp [h])
      exact ⟨hk, (keyClass_eq (hheld k hk)).2.2.1.mpr h⟩
  · intro d hd
    simp only [findingsOver, List.mem_map, List.mem_filter, decide_eq_true_eq] at hd
    obtain ⟨k, ⟨hk, hclass⟩, rfl⟩ := hd
    exact ⟨(keyClass_eq (hheld k hk)).2.2.2.mp hclass, rfl, rfl⟩
  · intro k hmany hdiffer
    have hk := hin k hdiffer
    simp only [findingsOver, List.mem_map, List.mem_filter, decide_eq_true_eq]
    exact ⟨k, ⟨hk, (keyClass_eq (hheld k hk)).2.2.2.mpr hmany⟩, rfl⟩
  · intro c
    simp only [findingsOver, List.mem_flatMap, mem_keyCells]
    constructor
    · rintro ⟨k, -, rfl, h⟩
      exact h
    · rintro ⟨x, y, hx, hy, hmem, hne⟩
      refine ⟨c.key, hin c.key fun hperm => ?_, rfl, x, y, hx, hy, hmem, hne⟩
      rw [hx, hy] at hperm
      exact ne_of_mem_zip hmem hne (List.singleton_perm_singleton.mp hperm)

/-- A comparison of all rows finds exactly what it should. -/
theorem exact_fullFindings :
    (fullFindings names all source target).Exact names all source target := by
  refine exact_findingsOver (fun k hk => hk) fun k hk => ?_
  rw [mem_keysOf, not_or, not_not, not_not] at hk
  rw [hk.1, hk.2]

/-- Leaving out keys held alike, none of them more than once, leaves nothing out. -/
theorem findingsOver_eq_full {p : String → Bool}
    (hrest : ∀ k, p k = false → (rowsOf source k).Perm (rowsOf target k))
    (hdup : ∀ k, p k = false → ¬ 1 < (rowsOf source k).length) :
    findingsOver names all (rowsOf source) (rowsOf target) ((keysOf source target).filter p) =
      fullFindings names all source target := by
  have hfilter : ∀ c, c ≠ KeyClass.same → (((keysOf source target).filter p).filter fun k =>
      keyClass all k (rowsOf source k) (rowsOf target k) = c) =
        (keysOf source target).filter fun k =>
          keyClass all k (rowsOf source k) (rowsOf target k) = c := by
    intro c hc
    rw [List.filter_filter]
    refine List.filter_congr fun k hk => ?_
    cases hp : p k with
    | true => simp
    | false =>
      have hperm := hrest k hp
      have honce := hdup k hp
      rw [Bool.and_false, eq_comm, decide_eq_false_iff_not]
      match ha : rowsOf source k, hb : rowsOf target k with
      | [], b =>
        rw [ha, hb] at hperm
        exact absurd (List.nil_perm.mp hperm) (by
          have := mem_keysOf.mp hk
          simpa [ha, hb] using this)
      | [x], b =>
        rw [ha, hb] at hperm
        obtain rfl := List.singleton_perm.mp hperm
        simpa [keyClass] using hc.symm
      | _ :: _ :: _, _ => simp [ha] at honce
  simp only [fullFindings, findingsOver]
  rw [hfilter _ (by decide), hfilter _ (by decide), hfilter _ (by decide), hfilter _ (by decide)]
  congr 1
  exact flatMap_filter fun k _ hp => keyCells_of_perm (hrest k hp)

end Leaves

/-! ## The diff of static tables -/

theorem after_static {R : Type} (rows : List R) (n : ℕ) :
    (⟨rows, []⟩ : Legacy R).after n = ⟨rows, []⟩ :=
  Function.iterate_fixed rfl n

theorem counted_static {R : Type} (table : TableSpec) (rows : List R) :
    counted table (⟨rows, []⟩ : Legacy R) = ⟨rows, []⟩ :=
  ite_self _

theorem wellShaped_map {A : Type} {table : TableSpec} {rendered : RenderedTable A}
    (hlength : rendered.values.length = table.valueColumns.length) (rows : List A) :
    WellShaped (table.valueColumns.map Column.name) (rows.map (canonicalRow rendered)) := by
  intro row hrow
  obtain ⟨r, -, rfl⟩ := List.mem_map.mp hrow
  have hnil : table.valueColumns.map Column.name = [] ↔ rendered.values = [] := by
    rw [List.map_eq_nil_iff, ← List.length_eq_zero_iff, ← hlength, List.length_eq_zero_iff]
  rw [canonicalRow]
  split
  · rename_i hempty
    rw [if_pos (hnil.mp hempty)]
  · rename_i hsome
    rw [if_neg (mt hnil.mpr hsome), List.length_map, List.length_map, hlength]

section Static

variable {R T : Type} {engine : PostgresEngine R} {md5 : Md5} {ceilLog : ℕ → ℕ → ℤ}
  {table : TableSpec} {leafWidth : ℕ} {renderedSource : RenderedTable R}
  {renderedTarget : RenderedTable T} {legacy : List R} {copy : List T} {result : TableDiff}

/-- A key in a segment that the descent fetches: its segment differs at the last depth, and those
above it do. -/
def Fetched (engine : PostgresEngine R) (md5 : Md5) (ceilLog : ℕ → ℕ → ℤ) (table : TableSpec)
    (leafWidth : ℕ) (renderedSource : RenderedTable R) (renderedTarget : RenderedTable T)
    (legacy : List R) (copy : List T) (k : String) : Prop :=
  let last := leafDepth ceilLog (max (sourceRows engine table renderedSource legacy).length
    (targetRows renderedTarget ⟨copy⟩).length) leafWidth
  Reached (Disagree (sourceHashes engine md5 table renderedSource legacy)
    (targetHashes md5 renderedTarget ⟨copy⟩)) last (segmentOf last (bucketOf md5 k))

instance : DecidablePred (Fetched engine md5 ceilLog table leafWidth renderedSource renderedTarget
    legacy copy) :=
  fun _ => decidableReached ..

/-- What a diff of static tables returns is found of the keys that are fetched. -/
theorem findings_of_outcome (houtcome : Outcome engine md5 ceilLog table leafWidth
      renderedSource renderedTarget ⟨copy⟩ ⟨legacy, []⟩ result) :
    result.findings = findingsOver (table.valueColumns.map Column.name)
      (keysChanged engine table renderedSource legacy)
      (rowsOf (sourceRows engine table renderedSource legacy))
      (rowsOf (targetRows renderedTarget ⟨copy⟩))
      ((keysOf (sourceRows engine table renderedSource legacy)
        (targetRows renderedTarget ⟨copy⟩)).filter fun k =>
          Fetched engine md5 ceilLog table leafWidth renderedSource renderedTarget legacy copy k) := by
  obtain ⟨hafter, hsource, htarget, depth, leaves, ⟨-, hle⟩, hleaves, hlast, asked, hfindings,
    hasked⟩ := houtcome
  simp only [counted_static, after_static] at hafter hsource hleaves hfindings hasked
  rw [hafter] at hasked
  rw [findings_leaves (keysChanged engine table renderedSource legacy) hasked] at hfindings
  rw [hfindings]
  congr 1
  refine List.filter_congr fun k _ => decide_eq_decide.mpr ?_
  have hdepth : leafDepth ceilLog (max (sourceRows engine table renderedSource legacy).length
      (targetRows renderedTarget ⟨copy⟩).length) leafWidth =
        leafDepth ceilLog (max result.sourceRows result.targetRows) leafWidth := by
    rw [hsource, htarget, Reconcile.sourceRows, Reconcile.targetRows, List.length_map,
      List.length_map]
  rw [hleaves, Fetched, hdepth]
  by_cases hnil : leaves = []
  · have hnone : ¬ Reached (Disagree (sourceHashes engine md5 table renderedSource legacy)
        (targetHashes md5 renderedTarget ⟨copy⟩)) depth (segmentOf depth (bucketOf md5 k)) := by
      rw [← hleaves, hnil]
      exact List.not_mem_nil
    exact ⟨fun h => absurd h hnone, fun h =>
      absurd (reached_of_le (leafDepth_bounds ..).2 hle h) hnone⟩
  · rw [hlast hnil]

/-- A key that is not fetched has the same rows on both sides. -/
theorem perm_of_not_fetched {k : String}
    (hcollide : NoCollision md5 (sourceHashes engine md5 table renderedSource legacy)
      (targetHashes md5 renderedTarget ⟨copy⟩) (sourceRows engine table renderedSource legacy)
      (targetRows renderedTarget ⟨copy⟩))
    (hk : ¬ Fetched engine md5 ceilLog table leafWidth renderedSource renderedTarget legacy copy k) :
    (rowsOf (sourceRows engine table renderedSource legacy) k).Perm
      (rowsOf (targetRows renderedTarget ⟨copy⟩) k) :=
  perm_of_not_reached hcollide (leafDepth_bounds ..).2 hk

/-- **A diff of static tables is exact**, if no two segments with different contents have equal
summaries. -/
theorem exact_of_outcome (houtcome : Outcome engine md5 ceilLog table leafWidth
      renderedSource renderedTarget ⟨copy⟩ ⟨legacy, []⟩ result)
    (hcollide : NoCollision md5 (sourceHashes engine md5 table renderedSource legacy)
      (targetHashes md5 renderedTarget ⟨copy⟩) (sourceRows engine table renderedSource legacy)
      (targetRows renderedTarget ⟨copy⟩)) :
    result.findings.Exact (table.valueColumns.map Column.name)
      (keysChanged engine table renderedSource legacy)
      (sourceRows engine table renderedSource legacy) (targetRows renderedTarget ⟨copy⟩) := by
  rw [findings_of_outcome houtcome]
  refine exact_findingsOver (fun k hk => List.mem_of_mem_filter hk) fun k hk => ?_
  by_cases hfetched : Fetched engine md5 ceilLog table leafWidth renderedSource renderedTarget
      legacy copy k
  · -- The key would be compared if either side held it.
    have hnone : k ∉ keysOf (sourceRows engine table renderedSource legacy)
        (targetRows renderedTarget ⟨copy⟩) := fun hmem =>
      hk (List.mem_filter.mpr ⟨hmem, decide_eq_true hfetched⟩)
    rw [mem_keysOf, not_or, not_not, not_not] at hnone
    rw [hnone.1, hnone.2]
  · exact perm_of_not_fetched hcollide hfetched

/-- Of static tables that hold the same rows, no key is missing, extra or in flight. -/
theorem all_matched_of_outcome (houtcome : Outcome engine md5 ceilLog table leafWidth
      renderedSource renderedTarget ⟨copy⟩ ⟨legacy, []⟩ result)
    (hperm : (sourceRows engine table renderedSource legacy).Perm
      (targetRows renderedTarget ⟨copy⟩)) :
    result.missing = [] ∧ result.extra = [] ∧ result.inFlight = [] := by
  obtain ⟨-, -, -, depth, leaves, -, -, -, changed, hfindings, -⟩ := houtcome
  simp only [counted_static, after_static, TableDiff.findings, findingsOver, Findings.mk.injEq]
    at hfindings
  obtain ⟨hmissing, hextra, hinFlight, -, -⟩ := hfindings
  have hleaves := hperm.filter fun row => decide (segmentOf depth (bucketOf md5 row.1) ∈ leaves)
  -- A key's rows in the leaves are as many on both sides.
  have hrows : ∀ k, (rowsOf (leafRows md5 depth leaves
      (sourceRows engine table renderedSource legacy)) k).length =
        (rowsOf (leafRows md5 depth leaves (targetRows renderedTarget ⟨copy⟩)) k).length :=
    fun k => (rowsOf_perm hleaves k).length_eq
  rw [hmissing, hextra, hinFlight]
  simp only [List.filter_eq_nil_iff, decide_eq_true_eq]
  refine ⟨fun k hk hclass => ?_, fun k hk hclass => ?_, fun k hk hclass => ?_⟩
  · obtain ⟨hone, hnone⟩ := (keyClass_eq (mem_keysOf.mp hk)).1.mp hclass
    have hlength := hrows k
    rw [hone, hnone] at hlength
    cases hlength
  · obtain ⟨hnone, hone, -⟩ := (keyClass_eq (mem_keysOf.mp hk)).2.1.mp hclass
    have hlength := hrows k
    rw [hone, hnone] at hlength
    cases hlength
  · obtain ⟨hnone, hone, -⟩ := (keyClass_eq (mem_keysOf.mp hk)).2.2.1.mp hclass
    have hlength := hrows k
    rw [hone, hnone] at hlength
    cases hlength

/-- Static tables whose summaries agree everywhere have nothing to report. -/
theorem clean_of_outcome (houtcome : Outcome engine md5 ceilLog table leafWidth
      renderedSource renderedTarget ⟨copy⟩ ⟨legacy, []⟩ result)
    (hagree : ∀ depth b, ¬ Disagree (sourceHashes engine md5 table renderedSource legacy)
      (targetHashes md5 renderedTarget ⟨copy⟩) depth b) : result.clean = true := by
  obtain ⟨-, -, -, depth, leaves, ⟨hpos, -⟩, hleaves, -, asked, hfindings, -⟩ := houtcome
  simp only [counted_static, after_static] at hleaves hfindings
  have hnone : leaves = [] := by
    refine List.eq_nil_iff_forall_not_mem.mpr fun b hb => ?_
    have hreached := (hleaves b).mp hb
    obtain ⟨above, rfl⟩ := Nat.exists_eq_add_of_le' hpos
    exact hagree _ b hreached.1
  rw [hnone, leafRows_nil, leafRows_nil] at hfindings
  simp only [findingsOver, TableDiff.findings, Findings.mk.injEq] at hfindings
  obtain ⟨hmissing, hextra, -, hduplicates, hcells⟩ := hfindings
  rw [TableDiff.clean, hmissing, hextra, hduplicates, hcells]
  rfl

end Static

/-- **The segmented diff finds exactly what a full comparison finds**, on static tables, if no
two segments with different contents have equal summaries. Every key whose rows differ is in
exactly one list; a key held once on each side with equal values, or by neither side, in none;
and if no key is duplicated alike on both sides, the lists are those of the full comparison,
whatever `leafWidth` is. -/
theorem diffTable_exact {R T : Type} (engine : PostgresEngine R) (targetEngine : Engine T)
    (md5 : Md5) (ceilLog : ℕ → ℕ → ℤ) (table : TableSpec) (settings : CanonicalSettings)
    (leafWidth : ℕ) (legacy : List R) (copy : List T)
    (hkey : ∀ name ∈ table.key, name ∈ table.columns.map Column.name) :
    ∃ renderedSource renderedTarget,
      render engine.toEngine table (rulesFor table settings) = .ok renderedSource ∧
      render targetEngine table (rulesFor table settings) = .ok renderedTarget ∧
      let names := table.valueColumns.map Column.name
      let changed := keysChanged engine table renderedSource legacy
      let source := sourceRows engine table renderedSource legacy
      let target := targetRows renderedTarget ⟨copy⟩
      (NoCollision md5 (sourceHashes engine md5 table renderedSource legacy)
        (targetHashes md5 renderedTarget ⟨copy⟩) source target →
      ∃ result connector, diffTable engine targetEngine md5 ceilLog table (rulesFor table settings)
          leafWidth ⟨⟨legacy, []⟩, none⟩ ⟨copy⟩ = .ok (result, connector) ∧
        result.findings.Exact names changed source target ∧
        (∀ k, ¬ (rowsOf source k).Perm (rowsOf target k) → ∃! r, result.findings.Reports k r) ∧
        (∀ k, ((∃ a, rowsOf source k = [a] ∧ rowsOf target k = [a]) ∨
          (rowsOf source k = [] ∧ rowsOf target k = [])) → ∀ r, ¬ result.findings.Reports k r) ∧
        ((∀ k, 1 < (rowsOf source k).length → ¬ (rowsOf source k).Perm (rowsOf target k)) →
          result.findings = fullFindings names changed source target)) := by
  obtain ⟨renderedSource, hsource, hshapeSource⟩ := render_ok engine.toEngine settings hkey
  obtain ⟨renderedTarget, htarget, hshapeTarget⟩ := render_ok targetEngine settings hkey
  refine ⟨renderedSource, renderedTarget, hsource, htarget, ?_⟩
  intro names changed source target hcollide
  obtain ⟨result, connector, hrun, houtcome⟩ := diffTable_outcome md5 ceilLog
    leafWidth ⟨copy⟩ hsource htarget ⟨legacy, []⟩
  have hexact := exact_of_outcome houtcome hcollide
  refine ⟨result, connector, hrun, hexact, fun k hk => ?_, fun k hk r => hexact.never hk r,
    fun hdup => ?_⟩
  · exact hexact.once (wellShaped_map hshapeSource _) (wellShaped_map hshapeTarget _) hk
  · rw [findings_of_outcome houtcome]
    have hrest : ∀ k, decide (Fetched engine md5 ceilLog table leafWidth renderedSource
        renderedTarget legacy copy k) = false → (rowsOf source k).Perm (rowsOf target k) :=
      fun k hk => perm_of_not_fetched hcollide (of_decide_eq_false hk)
    exact findingsOver_eq_full hrest fun k hk hmany => hdup k hmany (hrest k hk)

/-! ### One night of three orders -/

/-- An order: its key, its amount, when it changed. -/
abbrev Order := String × String × Option Timestamp

def orders : TableSpec where
  name := "orders"
  level := .table
  key := ["id"]
  columns := [{ name := "id", kind := .text }, { name := "amount", kind := .text }]
  source := "public.orders"
  target := "raw.orders"
  changedAt := "updated_at"
  watermark := some 100

def legacyOrders : PostgresEngine Order where
  value c _ r := if c.name = "id" then some r.1 else some r.2.1
  changedAt _ r := r.2.2

/-- A digest that tells the texts below apart. -/
def digest : Md5 := fun text =>
  let n := text.toList.foldl (fun n c => n * 31 + c.toNat) 7
  (BitVec.ofNat 32 (n * 2 ^ 26), BitVec.ofNat 32 n)

private def legacyRows : List Order := [("a", "1", none), ("b", "2", some 90), ("c", "3", some 110)]
private def copiedRows : List Order := [("a", "1", none), ("b", "9", none), ("c", "4", none)]

/-- What of the example `decide` can run: the assumption, and the rows of the three keys. -/
private def ordersChecked : Bool :=
  match render legacyOrders.toEngine orders (rulesFor orders {}) with
  | .error _ => false
  | .ok rendered =>
    let source := sourceRows legacyOrders orders rendered legacyRows
    let target := targetRows rendered ⟨copiedRows⟩
    decide (NoCollision digest (sourceHashes legacyOrders digest orders rendered legacyRows)
      (targetHashes digest rendered ⟨copiedRows⟩) source target) &&
    decide ((rowsOf source "a" = [["1"]] ∧ rowsOf target "a" = [["1"]]) ∧
      (rowsOf source "b" = [["2"]] ∧ rowsOf target "b" = [["9"]]) ∧
      rowsOf source "c" = [] ∧ (rowsOf target "c").length = 1 ∧
      "c" ∈ keysChanged legacyOrders orders rendered legacyRows)

/-- One order is equal on both sides, the copy has another value of one, and one changed after
the watermark. -/
theorem diffTable_exact_orders :
    ∃ result connector, diffTable legacyOrders legacyOrders.toEngine digest (fun _ _ => 2) orders
        (rulesFor orders {}) 1 ⟨⟨legacyRows, []⟩, none⟩ ⟨copiedRows⟩ = .ok (result, connector) ∧
      (∀ r, ¬ result.findings.Reports "a" r) ∧ (∃! r, result.findings.Reports "b" r) ∧
      "c" ∈ result.findings.inFlight := by
  obtain ⟨rendered, _, hsource, htarget, hexact⟩ :=
    diffTable_exact legacyOrders legacyOrders.toEngine digest (fun _ _ => 2) orders {} 1
      legacyRows copiedRows (by decide)
  obtain rfl := Except.ok.inj (hsource.symm.trans htarget)
  have hchecked : ordersChecked = true := by decide +kernel
  simp only [ordersChecked, hsource, Bool.and_eq_true, decide_eq_true_eq] at hchecked
  obtain ⟨hcollide, ⟨ha, ha'⟩, ⟨hb, hb'⟩, hc⟩ := hchecked
  obtain ⟨result, connector, hrun, hlists, honce, hnever, -⟩ := hexact hcollide
  refine ⟨result, connector, hrun, hnever "a" (Or.inl ⟨_, ha, ha'⟩), honce "b" ?_,
    (hlists.inFlight "c").mpr hc⟩
  rw [hb, hb']
  decide

end PlatformOps.Reconcile
