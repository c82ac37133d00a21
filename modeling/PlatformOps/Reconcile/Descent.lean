import PlatformOps.Library.Segments
import PlatformOps.Reconcile.Diff

/-!
# What the Descent Finds

The hashed rows are prepared once, so every level summarizes the same rows. A
segment is split when its summaries on the two sides differ (`Disagree`), so the
segments found at a depth are those reached through disagreeing ones
(`Segments.Reached`). Then `compareLeaves` in closed form: each list of the result
holds the keys of one `KeyClass`, in order.
-/

namespace PlatformOps.Reconcile

open Listing Segments

/-! ## Summaries -/

/-- A segment's summary, none if the side has no row in it. -/
def summaryOf (sum : List ℕ → ℕ) (rows : List HashRow) (depth b : ℕ) : Option Summary :=
  let own := rows.filter fun r => segmentOf depth r.bucket = b
  if own = [] then none
  else some ⟨own.length, sum (own.map fun r => r.h1.toNat), sum (own.map fun r => r.h2.toNat)⟩

/-- The two sides' summaries of a segment differ. -/
def Disagree (source target : List HashRow) (depth b : ℕ) : Prop :=
  summaryOf postgresSum source depth b ≠ summaryOf clickhouseSum target depth b

instance (sourceHashes targetHashes : List HashRow) (depth b : ℕ) :
    Decidable (Disagree sourceHashes targetHashes depth b) :=
  inferInstanceAs (Decidable (_ ≠ _))

theorem lookup_summaries (sum : List ℕ → ℕ) (depth : ℕ) (rows : List HashRow) (b : ℕ) :
    (summaries sum depth rows).lookup b = summaryOf sum rows depth b := by
  rw [summaries, lookup_map_snd (fun g : List HashRow => (⟨g.length,
    sum (g.map fun r => r.h1.toNat), sum (g.map fun r => r.h2.toNat)⟩ : Summary)), lookup_groupBy,
    summaryOf]
  split <;> rfl

/-- The rows of a child of the segments asked for are all of the child's rows. -/
theorem summaryOf_inParents {sum : List ℕ → ℕ} {rows : List HashRow} {depth b : ℕ}
    {parents : List ℕ} (hdepth : depth + 1 ≤ 8) :
    summaryOf sum (inParents (depth + 1) parents rows) (depth + 1) b =
      if depth = 0 ∨ b / fanout ∈ parents then summaryOf sum rows (depth + 1) b else none := by
  by_cases hzero : depth = 0
  · simp [inParents, hzero]
  · have hlt : 1 < depth + 1 := by omega
    have hfilter : (inParents (depth + 1) parents rows).filter
          (fun r => segmentOf (depth + 1) r.bucket = b) =
        if b / fanout ∈ parents then rows.filter fun r => segmentOf (depth + 1) r.bucket = b else [] := by
      rw [inParents, if_pos hlt, List.filter_filter, Nat.add_sub_cancel]
      -- a segment lies in the parent that its first digits name
      have hparent : ∀ r : HashRow, segmentOf (depth + 1) r.bucket = b →
          segmentOf depth r.bucket = b / fanout := by
        rintro r rfl
        exact (segment_succ_div hdepth r.bucket).symm
      split
      · rename_i hmem
        refine List.filter_congr fun r _ => ?_
        by_cases hb : segmentOf (depth + 1) r.bucket = b
        · simp [hb, hparent r hb, hmem]
        · simp [hb]
      · rename_i hmem
        refine List.filter_eq_nil_iff.mpr fun r _ => ?_
        simp only [Bool.and_eq_true, decide_eq_true_eq, not_and]
        intro hb
        rwa [hparent r hb]
    simp only [summaryOf, hfilter, hzero, false_or]
    split
    · rfl
    · simp

theorem mem_differing {source target : List (ℕ × Summary)} {b : ℕ} :
    b ∈ differing source target ↔ source.lookup b ≠ target.lookup b := by
  rw [differing, mem_sortedSet, List.mem_filter, decide_eq_true_eq, and_iff_right_iff_imp]
  intro hne
  by_contra hnone
  rw [List.mem_append, not_or] at hnone
  have hlookup : ∀ d : List (ℕ × Summary), b ∉ d.map Prod.fst → d.lookup b = none := by
    intro d hd
    rw [List.lookup_eq_none_iff]
    intro entry hentry
    exact bne_iff_ne.mpr fun heq => hd (List.mem_map.mpr ⟨entry, hentry, heq.symm⟩)
  exact hne ((hlookup _ hnone.1).trans (hlookup _ hnone.2).symm)

/-- One level: the segments found are the disagreeing children of the segments asked for. -/
theorem mem_differing_summaries {source target : List HashRow} (depth : ℕ) {b : ℕ} {parents : List ℕ}
    (hdepth : depth + 1 ≤ 8) :
    b ∈ differing (summaries postgresSum (depth + 1) (inParents (depth + 1) parents source))
        (summaries clickhouseSum (depth + 1) (inParents (depth + 1) parents target)) ↔
      Disagree source target (depth + 1) b ∧ (depth = 0 ∨ b / fanout ∈ parents) := by
  rw [mem_differing, lookup_summaries, lookup_summaries, summaryOf_inParents hdepth,
    summaryOf_inParents hdepth, Disagree]
  by_cases hparent : depth = 0 ∨ b / fanout ∈ parents
  · rw [if_pos hparent, if_pos hparent]
    exact (and_iff_left hparent).symm
  · rw [if_neg hparent, if_neg hparent]
    simp [hparent]

/-- Every row is in one summary of the first level. -/
theorem sum_rows_summaries (sum : List ℕ → ℕ) (depth : ℕ) (rows : List HashRow) :
    ((summaries sum depth rows).map fun entry => entry.2.rows).sum = rows.length := by
  simpa [summaries, Function.comp_def] using
    sum_length_groupBy (fun r : HashRow => segmentOf depth r.bucket) rows

/-! ## The descent -/

section Descent

variable {R T : Type} (engine : PostgresEngine R) (md5 : Md5) (table : TableSpec)
  (renderedSource : RenderedTable R) (renderedTarget : RenderedTable T)
  (target : ClickHouseConnector T)

/-- The target's rows as they are hashed. -/
def targetHashes : List HashRow := target.rows.map (hashRow md5 renderedTarget)

variable {engine md5 table renderedSource renderedTarget target}

theorem shiftIterate (legacy : Legacy R) (n : ℕ) : legacy.next.after n = legacy.after (n + 1) :=
  (Function.iterate_succ_apply Legacy.next n legacy).symm

/-- What a descent is at some depth, over the hashed rows of the source. -/
structure Descent.Valid (md5 : Md5) (renderedTarget : RenderedTable T)
    (target : ClickHouseConnector T) (source : List HashRow) (legacy : Legacy R)
    (d : Descent R) : Prop where
  prepared : d.connector.prepared = some source
  /-- One statement per level. -/
  legacy : d.connector.legacy = legacy.after d.depth
  found : ∀ b, b ∈ d.differing ↔ Reached (Disagree source (targetHashes md5 renderedTarget target))
    d.depth b

variable (engine table renderedSource) in
/-- One round below a valid descent. -/
theorem valid_round {source : List HashRow} {legacy : Legacy R} {d : Descent R}
    (h : d.Valid md5 renderedTarget target source legacy) (hdepth : d.depth + 1 ≤ 8)
    (hpos : d.depth ≠ 0) :
    (round engine md5 table renderedSource renderedTarget target d.connector (d.depth + 1)
      d.differing d.levels d.summaryRows d.queries).2.2.Valid md5 renderedTarget target source
        legacy := by
  obtain ⟨⟨connLegacy, prepared⟩, depth, found, levels, summaryRows, queries⟩ := d
  obtain ⟨hprepared, hlegacy, hfound⟩ := h
  simp only at hprepared hlegacy hfound hdepth hpos
  subst hprepared hlegacy
  refine ⟨rfl, ?_, fun b => ?_⟩
  · exact (Function.iterate_succ_apply' Legacy.next depth legacy).symm
  · refine (mem_differing_summaries _ hdepth).trans ?_
    change _ ↔ Reached _ (depth + 1) b
    rw [Reached, hfound]
    simp [hpos, targetHashes, fanout]

variable (engine table renderedSource) in
/-- The rest of the loop stays valid; it goes on to its last level unless nothing differs. -/
theorem valid_descend {source : List HashRow} {legacy : Legacy R} (left : ℕ) {d : Descent R}
    (h : d.Valid md5 renderedTarget target source legacy) (hdepth : d.depth + left ≤ 8)
    (hpos : d.depth ≠ 0) :
    let d' := descend engine md5 table renderedSource renderedTarget target left d
    d'.Valid md5 renderedTarget target source legacy ∧ 1 ≤ d'.depth ∧
      d'.depth ≤ d.depth + left ∧ (d'.differing ≠ [] → d'.depth = d.depth + left) := by
  -- on the rounds that are left
  induction left generalizing d with
  | zero => exact ⟨h, Nat.one_le_iff_ne_zero.mpr hpos, le_rfl, fun _ => rfl⟩
  | succ left ih =>
    simp only [descend]
    split
    · rename_i hempty
      exact ⟨h, by omega, by omega, fun hne => absurd hempty hne⟩
    · have hround := valid_round engine table renderedSource h (by omega) hpos
      have hnext : (round engine md5 table renderedSource renderedTarget target d.connector
          (d.depth + 1) d.differing d.levels d.summaryRows d.queries).2.2.depth = d.depth + 1 := rfl
      obtain ⟨hvalid, hone, hle, hlast⟩ := ih hround (by omega) (by omega)
      exact ⟨hvalid, hone, by omega, fun hne => by rw [hlast hne]; omega⟩

variable (engine md5 table renderedSource renderedTarget target) in
/-- The first round prepares the hashed rows: its third statement sees what it hashes. -/
theorem valid_first (legacy : Legacy R) :
    (round engine md5 table renderedSource renderedTarget target ⟨legacy, none⟩ 1 [] [] 0 0).2.2.Valid
      md5 renderedTarget target
      ((relation engine table (legacy.after 2).rows).map (hashRow md5 renderedSource))
      (legacy.after 2) := by
  refine ⟨rfl, rfl, fun b => ?_⟩
  refine (mem_differing_summaries 0 (by omega)).trans ?_
  simp [Reached, targetHashes, Legacy.after, round]

theorem leafDepth_bounds (ceilLog : ℕ → ℕ → ℤ) (rows leafWidth : ℕ) :
    1 ≤ leafDepth ceilLog rows leafWidth ∧ leafDepth ceilLog rows leafWidth ≤ 8 := by
  rw [leafDepth, maxDepth]
  split
  · omega
  · omega

end Descent

/-! ## The comparison of rows by key -/

/-- What a diff reports of the keys it compared. -/
structure Findings where
  missing : List String
  extra : List String
  inFlight : List String
  duplicates : List DuplicateKey
  cells : List CellDiff
deriving DecidableEq, Repr

def TableDiff.findings (d : TableDiff) : Findings :=
  ⟨d.missing, d.extra, d.inFlight, d.duplicates, d.cells⟩

/-- What is reported of one key. -/
inductive KeyClass
  | missing | extra | inFlight | duplicates | cells | same
deriving DecidableEq, Repr

/-- A key's class, from its rows on the two sides. -/
def keyClass (changed : List String) (key : String) (a b : List (List String)) : KeyClass :=
  if 1 < a.length ∨ 1 < b.length then .duplicates
  else
    match a, b with
    | _, [] => .missing
    | [], _ => if key ∈ changed then .inFlight else .extra
    | x :: _, y :: _ => if x ≠ y then .cells else .same

/-- The cells a key's rows differ in. -/
def keyCells (names : List String) (key : String) : List (List String) → List (List String) →
    List CellDiff
  | [x], [y] => cellDiffs names key x y
  | _, _ => []

/-- The findings over some keys, from each key's rows on the two sides. -/
def findingsOver (names changed : List String) (a b : String → List (List String))
    (keys : List String) : Findings where
  missing := keys.filter fun k => keyClass changed k (a k) (b k) = .missing
  extra := keys.filter fun k => keyClass changed k (a k) (b k) = .extra
  inFlight := keys.filter fun k => keyClass changed k (a k) (b k) = .inFlight
  duplicates := (keys.filter fun k => keyClass changed k (a k) (b k) = .duplicates).map fun k =>
    ⟨k, (a k).length, (b k).length⟩
  cells := keys.flatMap fun k => keyCells names k (a k) (b k)

def Findings.append (f g : Findings) : Findings :=
  ⟨f.missing ++ g.missing, f.extra ++ g.extra, f.inFlight ++ g.inFlight,
    f.duplicates ++ g.duplicates, f.cells ++ g.cells⟩

theorem cellDiffs_self (names : List String) (key : String) (a : List String) :
    cellDiffs names key a a = [] := by
  have hzip : a.zip a = a.map fun x => (x, x) := by
    simpa using List.zip_map' (l := a) (f := id) (g := id)
  rw [cellDiffs, List.filterMap_eq_nil_iff]
  rintro ⟨name, x, y⟩ hmem
  obtain ⟨z, -, hz⟩ := List.mem_map.mp (hzip ▸ (List.of_mem_zip hmem).2)
  obtain ⟨rfl, rfl⟩ := Prod.mk.inj hz
  simp

section KeyClass

variable {names changed : List String}

/-- A named cell that differs makes the rows differ. -/
theorem ne_of_mem_zip {a b : List String} {name x y : String}
    (hmem : (name, x, y) ∈ names.zip (a.zip b)) (hne : x ≠ y) : a ≠ b := by
  rintro rfl
  have hcell : (⟨"", name, x, y⟩ : CellDiff) ∈ cellDiffs names "" a a :=
    List.mem_filterMap.mpr ⟨_, hmem, if_pos hne⟩
  rw [cellDiffs_self] at hcell
  cases hcell

/-- What the class of a key some side holds says of its rows. -/
theorem keyClass_eq {k : String} {a b : List (List String)} (hheld : a ≠ [] ∨ b ≠ []) :
    (keyClass changed k a b = .missing ↔ a.length = 1 ∧ b = []) ∧
    (keyClass changed k a b = .extra ↔ a = [] ∧ b.length = 1 ∧ k ∉ changed) ∧
    (keyClass changed k a b = .inFlight ↔ a = [] ∧ b.length = 1 ∧ k ∈ changed) ∧
    (keyClass changed k a b = .duplicates ↔ 1 < a.length ∨ 1 < b.length) := by
  unfold keyClass
  match a, b with
  | [], [] => simp at hheld
  | [_], [] => simp
  | [], [_] => by_cases hk : k ∈ changed <;> simp [hk]
  | [x], [y] => by_cases hxy : x = y <;> simp [hxy]
  | _ :: _ :: _, _ => simp
  | [], _ :: _ :: _ => simp
  | [_], _ :: _ :: _ => simp

/-- The cells of a key held once on each side are those whose values differ. -/
theorem mem_keyCells {k : String} {a b : List (List String)} {c : CellDiff} :
    c ∈ keyCells names k a b ↔ c.key = k ∧ ∃ x y, a = [x] ∧ b = [y] ∧
      (c.column, c.source, c.target) ∈ names.zip (x.zip y) ∧ c.source ≠ c.target := by
  unfold keyCells
  split
  · rename_i x y
    simp only [cellDiffs, List.mem_filterMap, Option.ite_none_right_eq_some, Option.some.injEq]
    constructor
    · rintro ⟨⟨name, u, v⟩, hmem, hne, rfl⟩
      exact ⟨rfl, x, y, rfl, rfl, hmem, hne⟩
    · rintro ⟨rfl, x', y', hx, hy, hmem, hne⟩
      obtain ⟨rfl, -⟩ := List.cons.inj hx
      obtain ⟨rfl, -⟩ := List.cons.inj hy
      exact ⟨_, hmem, hne, rfl⟩
  · rename_i hnot
    constructor
    · intro h
      cases h
    · rintro ⟨-, x, y, rfl, rfl, -⟩
      exact absurd rfl (hnot x y rfl)

/-- Nothing is found of a key held alike on both sides, if once. -/
theorem keyCells_of_perm {k : String} {a b : List (List String)} (hperm : a.Perm b) :
    keyCells names k a b = [] := by
  refine List.eq_nil_iff_forall_not_mem.mpr fun c hc => ?_
  obtain ⟨-, x, y, rfl, rfl, hmem, hne⟩ := mem_keyCells.mp hc
  obtain rfl : x = y := List.singleton_perm_singleton.mp hperm
  exact ne_of_mem_zip hmem hne rfl

end KeyClass

/-- One key adds its own findings at the end of each list. -/
theorem findings_compareKey (names changed : List String) (result : TableDiff) (key : String)
    (a b : String → List (List String)) :
    (compareKey names changed result key (a key) (b key)).findings =
      result.findings.append (findingsOver names changed a b [key]) := by
  have hkey : ∀ x y, a key = x → b key = y →
      (compareKey names changed result key x y).findings =
        result.findings.append (findingsOver names changed a b [key]) := by
    intro x y hx hy
    simp only [findingsOver, List.filter_cons, List.filter_nil, List.flatMap_cons,
      List.flatMap_nil, List.append_nil, hx, hy, keyClass, compareKey]
    split
    · rename_i hdup
      -- a key held twice has no cells
      have hcells : keyCells names key x y = [] := by
        unfold keyCells
        split
        · simp at hdup
        · rfl
      simp [TableDiff.findings, Findings.append, hcells, hx, hy]
    · rename_i hsingle
      rw [not_or, not_lt, not_lt] at hsingle
      -- one row at most on either side: four cases
      rcases eq_nil_or_singleton hsingle.1 with rfl | ⟨u, rfl⟩ <;>
      rcases eq_nil_or_singleton hsingle.2 with rfl | ⟨v, rfl⟩
      · simp [TableDiff.findings, Findings.append, keyCells]
      · by_cases hchanged : key ∈ changed
        · simp [TableDiff.findings, Findings.append, keyCells, hchanged]
        · simp [TableDiff.findings, Findings.append, keyCells, hchanged]
      · simp [TableDiff.findings, Findings.append, keyCells]
      · by_cases heq : u = v
        · simp [TableDiff.findings, Findings.append, keyCells, heq, cellDiffs_self]
        · simp [TableDiff.findings, Findings.append, keyCells, heq]
  exact hkey _ _ rfl rfl

/-- **The loop over the keys**: each list of the result is the keys of one class, in order. -/
theorem findings_foldl_compareKey (names changed : List String)
    (a b : String → List (List String)) (keys : List String) (result : TableDiff) :
    (keys.foldl (fun result key => compareKey names changed result key (a key) (b key))
        result).findings = result.findings.append (findingsOver names changed a b keys) := by
  induction keys generalizing result with
  | nil => simp [findingsOver, Findings.append]
  | cons key rest ih =>
    rw [List.foldl_cons, ih, findings_compareKey]
    simp only [Findings.append, findingsOver, List.filter_cons, List.filter_nil,
      List.flatMap_cons, List.flatMap_nil, List.append_assoc]
    congr 1 <;> split <;> simp

/-- The loop leaves everything but the findings alone. -/
theorem rows_foldl_compareKey (names changed : List String)
    (a b : String → List (List String)) (keys : List String) (result : TableDiff) :
    let result' := keys.foldl
      (fun result key => compareKey names changed result key (a key) (b key)) result
    result'.sourceRows = result.sourceRows ∧ result'.targetRows = result.targetRows ∧
      result'.afterWatermark = result.afterWatermark := by
  induction keys generalizing result with
  | nil => exact ⟨rfl, rfl, rfl⟩
  | cons key rest ih =>
    rw [List.foldl_cons]
    have hkey : ∀ x y, (compareKey names changed result key x y).sourceRows = result.sourceRows ∧
        (compareKey names changed result key x y).targetRows = result.targetRows ∧
        (compareKey names changed result key x y).afterWatermark = result.afterWatermark := by
      intro x y
      unfold compareKey
      split
      · exact ⟨rfl, rfl, rfl⟩
      · split
        · exact ⟨rfl, rfl, rfl⟩
        · split <;> exact ⟨rfl, rfl, rfl⟩
        · split <;> exact ⟨rfl, rfl, rfl⟩
    obtain ⟨h1, h2, h3⟩ := hkey (a key) (b key)
    obtain ⟨g1, g2, g3⟩ := ih (compareKey names changed result key (a key) (b key))
    exact ⟨g1.trans h1, g2.trans h2, g3.trans h3⟩

/-- A key's rows in a list of canonical rows. -/
def rowsOf (rows : List (String × List String)) (key : String) : List (List String) :=
  (rows.filter fun row => row.1 = key).map Prod.snd

theorem lookup_byKey (rows : List (String × List String)) (key : String) :
    ((byKey rows).lookup key).getD [] = rowsOf rows key := by
  rw [byKey, lookup_map_snd (fun g : List (String × List String) => g.map Prod.snd),
    lookup_groupBy, rowsOf]
  split
  · rename_i hnone
    simp [hnone]
  · rfl

theorem mem_keys_byKey {rows : List (String × List String)} {key : String} :
    key ∈ (byKey rows).map Prod.fst ↔ ∃ row ∈ rows, row.1 = key := by
  rw [byKey, List.map_map]
  exact mem_keys_groupBy (f := fun row : String × List String => row.1)

/-- The rows of some segments. -/
def leafRows (md5 : Md5) (depth : ℕ) (leaves : List ℕ) (rows : List (String × List String)) :
    List (String × List String) :=
  rows.filter fun row => segmentOf depth (bucketOf md5 row.1) ∈ leaves

/-- A choice of keys leaves a key's rows all there, or none. -/
theorem rowsOf_filter (p : String → Prop) [DecidablePred p] (rows : List (String × List String))
    (key : String) :
    rowsOf (rows.filter fun row => p row.1) key = if p key then rowsOf rows key else [] := by
  rw [rowsOf, List.filter_filter]
  split
  · rename_i hkey
    refine congrArg (List.map Prod.snd) (List.filter_congr fun row _ => ?_)
    by_cases heq : row.1 = key
    · simp [heq, hkey]
    · simp [heq]
  · rename_i hkey
    rw [List.map_eq_nil_iff, List.filter_eq_nil_iff]
    intro row _
    simp only [Bool.and_eq_true, decide_eq_true_eq, not_and]
    rintro rfl
    exact hkey

/-- A key is in one segment: that segment's rows of it are all of its rows. -/
theorem rowsOf_leafRows (md5 : Md5) (depth : ℕ) (leaves : List ℕ)
    (rows : List (String × List String)) (key : String) :
    rowsOf (leafRows md5 depth leaves rows) key =
      if segmentOf depth (bucketOf md5 key) ∈ leaves then rowsOf rows key else [] :=
  rowsOf_filter (fun k => segmentOf depth (bucketOf md5 k) ∈ leaves) rows key

theorem leafRows_nil (md5 : Md5) (depth : ℕ) (rows : List (String × List String)) :
    leafRows md5 depth [] rows = [] := by
  simp [leafRows]

theorem mem_rowsOf {rows : List (String × List String)} {key : String} {values : List String} :
    values ∈ rowsOf rows key ↔ (key, values) ∈ rows := by
  simp [rowsOf]

theorem rowsOf_ne_nil {rows : List (String × List String)} {key : String} :
    rowsOf rows key ≠ [] ↔ ∃ row ∈ rows, row.1 = key := by
  simp [rowsOf, List.filter_eq_nil_iff]

theorem rowsOf_perm {left right : List (String × List String)} (h : left.Perm right)
    (key : String) : (rowsOf left key).Perm (rowsOf right key) :=
  (h.filter _).map Prod.snd

/-- The keys a comparison goes over: those with a row on either side. -/
private theorem mem_keys_append {left right : List (String × List String)} {key : String} :
    key ∈ (byKey left).map Prod.fst ++ (byKey right).map Prod.fst ↔
      rowsOf left key ≠ [] ∨ rowsOf right key ≠ [] := by
  rw [List.mem_append, mem_keys_byKey, mem_keys_byKey, rowsOf_ne_nil, rowsOf_ne_nil]

private theorem onlyTarget_ne_nil {left right : List (String × List String)} :
    ((byKey right).map Prod.fst).filter (· ∉ (byKey left).map Prod.fst) ≠ [] ↔
      ∃ key, rowsOf left key = [] ∧ rowsOf right key ≠ [] := by
  rw [Ne, List.filter_eq_nil_iff]
  simp only [decide_not, Bool.not_eq_true', decide_eq_false_iff_not, not_forall, not_not,
    mem_keys_byKey, rowsOf_ne_nil, exists_prop]
  refine exists_congr fun key => ?_
  rw [← @rowsOf_ne_nil left, not_not, and_comm]

/-- The keys of two lists of rows, in order. -/
def keysOf (left right : List (String × List String)) : List String :=
  sortedSet ((byKey left).map Prod.fst ++ (byKey right).map Prod.fst)

theorem mem_keysOf {left right : List (String × List String)} {key : String} :
    key ∈ keysOf left right ↔ rowsOf left key ≠ [] ∨ rowsOf right key ≠ [] := by
  rw [keysOf, mem_sortedSet, mem_keys_append]

/-- The comparison of the leaves, in closed form. -/
private theorem compareLeaves_spec (names changed : List String)
    (left right : List (String × List String)) (result : TableDiff)
    (hempty : result.findings = ⟨[], [], [], [], []⟩) :
    let final := compareLeaves names changed (byKey left) (byKey right) result
    (final.sourceRows = result.sourceRows ∧ final.targetRows = result.targetRows ∧
      final.afterWatermark = result.afterWatermark) ∧
    final.findings = findingsOver names changed (rowsOf left) (rowsOf right) (keysOf left right) := by
  simp only [compareLeaves, lookup_byKey]
  refine ⟨rows_foldl_compareKey names changed (rowsOf left) (rowsOf right) _ result, ?_⟩
  rw [findings_foldl_compareKey names changed (rowsOf left) (rowsOf right), hempty]
  rfl

/-! ## The whole diff -/

section Outcome

variable {R T : Type} (engine : PostgresEngine R) (md5 : Md5) (ceilLog : ℕ → ℕ → ℤ)
  (table : TableSpec) (leafWidth : ℕ) (renderedSource : RenderedTable R)
  (renderedTarget : RenderedTable T) (target : ClickHouseConnector T)

/-- The rows tonight compares, in canonical form. -/
def sourceRows (rows : List R) : List (String × List String) :=
  (relation engine table rows).map (canonicalRow renderedSource)

def targetRows : List (String × List String) :=
  target.rows.map (canonicalRow renderedTarget)

/-- The rows tonight compares, as they are hashed. -/
def sourceHashes (rows : List R) : List HashRow :=
  (relation engine table rows).map (hashRow md5 renderedSource)

/-- The canonical keys of the rows changed after the watermark. -/
def keysChanged (rows : List R) : List String :=
  if asOf table then (rows.filter (changedAfter engine table)).map renderedSource.key else []

/-- The legacy database after `count_after`. -/
def counted (legacy : Legacy R) : Legacy R :=
  if asOf table then legacy.next else legacy

/-- **What a diff returns**, from what its statements see: `count_after` the legacy rows
`atCount`, the hashing `atHash`, and the fetch and `keys_after` what is there after one
statement per level more. -/
structure Outcome (legacy : Legacy R) (result : TableDiff) : Prop where
  afterWatermark : result.afterWatermark =
    (keysChanged engine table renderedSource (counted table legacy).rows).length
  sourceRows : result.sourceRows = (relation engine table ((counted table legacy).after 2).rows).length
  targetRows : result.targetRows = target.rows.length
  leaves : ∃ depth leaves, (1 ≤ depth ∧
      depth ≤ leafDepth ceilLog (max result.sourceRows result.targetRows) leafWidth) ∧
    (∀ b, b ∈ leaves ↔ Reached (Disagree
      (sourceHashes engine md5 table renderedSource ((counted table legacy).after 2).rows)
      (targetHashes md5 renderedTarget target)) depth b) ∧
    (leaves ≠ [] → depth = leafDepth ceilLog (max result.sourceRows result.targetRows) leafWidth) ∧
    let a := leafRows md5 depth leaves (Reconcile.sourceRows engine table renderedSource
      ((counted table legacy).after (depth + 3)).rows)
    let b := leafRows md5 depth leaves (Reconcile.targetRows renderedTarget target)
    ∃ changed, result.findings =
        findingsOver (table.valueColumns.map Column.name) changed (rowsOf a) (rowsOf b)
          (keysOf a b) ∧
      ∀ key, key ∈ changed ↔
        (result.afterWatermark ≠ 0 ∧ ∃ k, rowsOf a k = [] ∧ rowsOf b k ≠ []) ∧
        key ∈ keysChanged engine table renderedSource ((counted table legacy).after (depth + 4)).rows ∧
        segmentOf depth (bucketOf md5 key) ∈ leaves

variable {engine md5 ceilLog table leafWidth renderedSource renderedTarget target}

variable (engine table renderedSource) in
private theorem countAfter_eq (legacy : Legacy R) :
    PostgresConnector.countAfter engine table ⟨legacy, none⟩ =
      ((keysChanged engine table renderedSource (counted table legacy).rows).length,
        ⟨counted table legacy, none⟩) := by
  unfold PostgresConnector.countAfter keysChanged counted
  split <;> simp

private theorem map_filter_leaf {A : Type} (rendered : RenderedTable A) (depth : ℕ)
    (leaves : List ℕ) (rows : List A) :
    (rows.filter fun r => segmentOf depth (bucketOf md5 (rendered.key r)) ∈ leaves).map
        (canonicalRow rendered) = leafRows md5 depth leaves (rows.map (canonicalRow rendered)) := by
  rw [leafRows, List.filter_map]
  rfl

theorem after_succ (legacy : Legacy R) (n : ℕ) :
    (legacy.after n).next = legacy.after (n + 1) :=
  (Function.iterate_succ_apply' Legacy.next n legacy).symm

theorem after_after (legacy : Legacy R) (m n : ℕ) :
    (legacy.after m).after n = legacy.after (n + m) :=
  (Function.iterate_add_apply Legacy.next n m legacy).symm

variable (engine renderedSource) in
/-- The end of the diff, from a valid descent whose differing leaves are given. -/
private theorem diffLeaves_spec {source : List HashRow} {legacy : Legacy R} {d : Descent R}
    (h : d.Valid md5 renderedTarget target source (legacy.after 2)) (result : TableDiff)
    (hempty : result.findings = ⟨[], [], [], [], []⟩) :
    let final := (diffLeaves engine md5 table renderedSource renderedTarget target d result).1
    (final.sourceRows = result.sourceRows ∧ final.targetRows = result.targetRows ∧
      final.afterWatermark = result.afterWatermark) ∧
    let a := leafRows md5 d.depth d.differing (sourceRows engine table renderedSource
      (legacy.after (d.depth + 3)).rows)
    let b := leafRows md5 d.depth d.differing (targetRows renderedTarget target)
    ∃ changed, final.findings =
        findingsOver (table.valueColumns.map Column.name) changed (rowsOf a) (rowsOf b)
          (keysOf a b) ∧
      ∀ key, key ∈ changed ↔
        (result.afterWatermark ≠ 0 ∧ ∃ k, rowsOf a k = [] ∧ rowsOf b k ≠ []) ∧
        key ∈ keysChanged engine table renderedSource (legacy.after (d.depth + 4)).rows ∧
        segmentOf d.depth (bucketOf md5 key) ∈ d.differing := by
  obtain ⟨⟨connLegacy, prepared⟩, depth, leaves, levels, summaryRows, queries⟩ := d
  obtain ⟨-, hlegacy, -⟩ := h
  simp only [after_after] at hlegacy
  subst hlegacy
  -- one query each for the rows, and one more for the keys that changed
  have hfetch : PostgresConnector.fetch engine md5 table renderedSource
      ⟨legacy.after (depth + 2), prepared⟩ depth leaves =
        (leafRows md5 depth leaves (sourceRows engine table renderedSource
          (legacy.after (depth + 3)).rows), ⟨legacy.after (depth + 3), prepared⟩) := by
    simp only [PostgresConnector.fetch, map_filter_leaf, after_succ, sourceRows]
  have hkeys : PostgresConnector.keysAfter engine md5 table renderedSource
      ⟨legacy.after (depth + 3), prepared⟩ depth leaves =
        ((keysChanged engine table renderedSource (legacy.after (depth + 4)).rows).filter fun key =>
          segmentOf depth (bucketOf md5 key) ∈ leaves,
          ⟨if asOf table then legacy.after (depth + 4) else legacy.after (depth + 3), prepared⟩) := by
    unfold PostgresConnector.keysAfter keysChanged
    split
    · simp only [after_succ, List.filter_map, List.filter_filter, Function.comp_def, Bool.and_comm]
    · simp
  have htarget : target.fetch md5 renderedTarget depth leaves =
      leafRows md5 depth leaves (targetRows renderedTarget target) := by
    simp only [ClickHouseConnector.fetch, map_filter_leaf, targetRows]
  simp only [diffLeaves, hfetch, hkeys, htarget]
  -- from here on only which keys the two sides have matters
  generalize leafRows md5 depth leaves (sourceRows engine table renderedSource
    (legacy.after (depth + 3)).rows) = left
  generalize leafRows md5 depth leaves (targetRows renderedTarget target) = right
  split
  · rename_i hask
    refine ⟨(compareLeaves_spec _ _ left right _ ?_).1, _,
      (compareLeaves_spec _ _ left right _ ?_).2, fun key => ?_⟩
    · exact hempty
    · exact hempty
    rw [mem_sortedSet, List.mem_filter, decide_eq_true_eq]
    exact (and_iff_right ⟨hask.1, onlyTarget_ne_nil.mp hask.2⟩).symm
  · rename_i hask
    refine ⟨(compareLeaves_spec _ _ left right _ ?_).1, _,
      (compareLeaves_spec _ _ left right _ ?_).2, fun key => ?_⟩
    · exact hempty
    · exact hempty
    rw [onlyTarget_ne_nil] at hask
    simp [hask]

variable (md5 ceilLog leafWidth target) in
/-- **`diff_table`, specified**: with a rule for every column and a key of its columns, it
returns, and what it returns is its `Outcome`. -/
theorem diffTable_outcome {targetEngine : Engine T} {rules : List (String × Rule)}
    (hsource : render engine.toEngine table rules = .ok renderedSource)
    (htarget : render targetEngine table rules = .ok renderedTarget) (legacy : Legacy R) :
    ∃ result connector, diffTable engine targetEngine md5 ceilLog table rules leafWidth
        ⟨legacy, none⟩ target = .ok (result, connector) ∧
      Outcome engine md5 ceilLog table leafWidth renderedSource renderedTarget target legacy
        result := by
  have hcount := countAfter_eq engine table renderedSource legacy
  -- the first round, then the descent, then the leaves
  have hvalid := valid_first engine md5 table renderedSource renderedTarget target
    (counted table legacy)
  set first := round engine md5 table renderedSource renderedTarget target
    ⟨counted table legacy, none⟩ 1 [] [] 0 0 with hfirst
  have hleft : (first.1.map fun entry => entry.2.rows).sum =
      (relation engine table ((counted table legacy).after 2).rows).length :=
    (sum_rows_summaries postgresSum 1 _).trans (List.length_map ..)
  have hright : (first.2.1.map fun entry => entry.2.rows).sum = target.rows.length :=
    (sum_rows_summaries clickhouseSum 1 _).trans (List.length_map ..)
  obtain ⟨hlow, hhigh⟩ := leafDepth_bounds ceilLog (max (first.1.map fun entry => entry.2.rows).sum
    (first.2.1.map fun entry => entry.2.rows).sum) leafWidth
  set last := leafDepth ceilLog (max (first.1.map fun entry => entry.2.rows).sum
    (first.2.1.map fun entry => entry.2.rows).sum) leafWidth with hlastdef
  have hdepth : first.2.2.depth = 1 := rfl
  obtain ⟨hd, hpos, hle, hlast⟩ :=
    valid_descend engine table renderedSource (last - 1) hvalid (by omega) (by omega)
  set d := descend engine md5 table renderedSource renderedTarget target (last - 1) first.2.2
    with hddef
  let result : TableDiff :=
    { table := table.name
      sourceRows := (first.1.map fun entry => entry.2.rows).sum
      targetRows := (first.2.1.map fun entry => entry.2.rows).sum
      afterWatermark := (keysChanged engine table renderedSource (counted table legacy).rows).length
      levels := d.levels
      summaryRows := d.summaryRows
      queries := d.queries }
  have hrun : diffTable engine targetEngine md5 ceilLog table rules leafWidth ⟨legacy, none⟩ target =
      .ok (if d.differing = [] then (result, d.connector)
        else diffLeaves engine md5 table renderedSource renderedTarget target d result) := by
    simp only [diffTable, hcount, hsource, htarget]
    rfl
  -- nothing differs, or the leaves are fetched
  by_cases hempty : d.differing = []
  · refine ⟨result, d.connector, by rw [hrun, if_pos hempty], ?_⟩
    have hlow' : d.depth ≤ last := by omega
    refine ⟨rfl, hleft, hright, d.depth, d.differing, ⟨hpos, hlow'⟩, hd.found,
      fun hne => absurd hempty hne, [], ?_, ?_⟩
    · simp only [hempty, leafRows_nil]
      rfl
    · intro key
      simp [hempty, leafRows_nil, rowsOf]
  · refine ⟨_, _, by rw [hrun, if_neg hempty], ?_⟩
    obtain ⟨⟨hsourceRows, htargetRows, hafter⟩, changed, hfindings, hchanged⟩ :=
      diffLeaves_spec engine renderedSource hd result rfl
    have hdepth' : d.depth = leafDepth ceilLog
        (max (diffLeaves engine md5 table renderedSource renderedTarget target d result).1.sourceRows
          (diffLeaves engine md5 table renderedSource renderedTarget target d result).1.targetRows)
        leafWidth := by
      rw [hlast hempty, hsourceRows, htargetRows, hdepth]
      exact Nat.add_sub_of_le hlow
    refine ⟨hafter, hsourceRows.trans hleft, htargetRows.trans hright, d.depth, d.differing,
      ⟨hpos, hdepth'.le⟩, hd.found, fun _ => hdepth', changed, hfindings, ?_⟩
    · rw [hafter]
      exact hchanged

/-! ## The cells that differ -/

variable (engine md5 ceilLog table leafWidth renderedSource renderedTarget target) in
/-- The depth at which rows are fetched, by how many there are when they are hashed. -/
def fetchDepth (legacy : Legacy R) : ℕ :=
  leafDepth ceilLog (max (relation engine table ((counted table legacy).after 2).rows).length
    target.rows.length) leafWidth

variable (engine md5 ceilLog table leafWidth renderedSource renderedTarget target) in
/-- A cell in which two rows differ: of a key in a segment that differs, as do those above it, when
the rows are hashed, and that each side shows once when they are fetched. -/
structure CellDiffers (legacy : Legacy R) (c : CellDiff) : Prop where
  inDoubt : Reached (Disagree
      (sourceHashes engine md5 table renderedSource ((counted table legacy).after 2).rows)
      (targetHashes md5 renderedTarget target))
    (fetchDepth engine ceilLog table leafWidth target legacy)
    (segmentOf (fetchDepth engine ceilLog table leafWidth target legacy) (bucketOf md5 c.key))
  rows : ∃ x y,
    rowsOf (Reconcile.sourceRows engine table renderedSource ((counted table legacy).after
      (fetchDepth engine ceilLog table leafWidth target legacy + 3)).rows) c.key = [x] ∧
    rowsOf (Reconcile.targetRows renderedTarget target) c.key = [y] ∧
    (c.column, c.source, c.target) ∈ (table.valueColumns.map Column.name).zip (x.zip y)
  ne : c.source ≠ c.target

/-- The cells found over the keys of two sides are those of keys that each holds once. -/
private theorem mem_cells_findingsOver {names changed : List String}
    {a b : List (String × List String)} {c : CellDiff} :
    c ∈ (findingsOver names changed (rowsOf a) (rowsOf b) (keysOf a b)).cells ↔
      ∃ x y, rowsOf a c.key = [x] ∧ rowsOf b c.key = [y] ∧
        (c.column, c.source, c.target) ∈ names.zip (x.zip y) ∧ c.source ≠ c.target := by
  rw [findingsOver, List.mem_flatMap]
  constructor
  · rintro ⟨k, -, hcell⟩
    obtain ⟨rfl, hrows⟩ := mem_keyCells.mp hcell
    exact hrows
  · rintro ⟨x, y, hx, hy, hcell⟩
    have hkey : c.key ∈ keysOf a b := by
      rw [mem_keysOf, hx]
      exact Or.inl (List.cons_ne_nil _ _)
    exact ⟨c.key, hkey, mem_keyCells.mpr ⟨rfl, x, y, hx, hy, hcell⟩⟩

/-- **The cells a diff returns are the cells that differ.** -/
theorem Outcome.mem_cells {legacy : Legacy R} {result : TableDiff} {c : CellDiff}
    (h : Outcome engine md5 ceilLog table leafWidth renderedSource renderedTarget target legacy
      result) :
    c ∈ result.cells ↔ CellDiffers engine md5 ceilLog table leafWidth renderedSource renderedTarget
      target legacy c := by
  obtain ⟨-, hsource, htarget, depth, leaves, ⟨-, hle⟩, hleaves, hlast, changed, hfindings, -⟩ := h
  have hdepth : leafDepth ceilLog (max result.sourceRows result.targetRows) leafWidth =
      fetchDepth engine ceilLog table leafWidth target legacy := by
    rw [hsource, htarget, fetchDepth]
  rw [hdepth] at hle hlast
  change c ∈ result.findings.cells ↔ _
  rw [hfindings, mem_cells_findingsOver]
  simp only [rowsOf_leafRows]
  by_cases hnil : leaves = []
  · -- No segment differs at the depth reached, so none does further down.
    refine iff_of_false ?_ fun hcell => ?_
    · rintro ⟨x, y, hx, -⟩
      rw [hnil, if_neg List.not_mem_nil] at hx
      cases hx
    · have hreached := (hleaves _).mpr (reached_of_le (leafDepth_bounds ..).2 hle hcell.inDoubt)
      rw [hnil] at hreached
      cases hreached
  · obtain rfl := hlast hnil
    constructor
    · rintro ⟨x, y, hx, hy, hcell, hne⟩
      split at hx
      · rename_i hmem
        rw [if_pos hmem] at hy
        exact ⟨(hleaves _).mp hmem, ⟨x, y, hx, hy, hcell⟩, hne⟩
      · cases hx
    · rintro ⟨hreached, ⟨x, y, hx, hy, hcell⟩, hne⟩
      have hmem := (hleaves _).mpr hreached
      rw [if_pos hmem, if_pos hmem]
      exact ⟨x, y, hx, hy, hcell, hne⟩

end Outcome

end PlatformOps.Reconcile
