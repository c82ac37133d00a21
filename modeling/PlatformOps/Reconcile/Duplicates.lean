import PlatformOps.Reconcile.Undisturbed

/-!
# Duplicated Keys

A key that the two sides hold equally often with equal values makes no summary
differ, so the descent does not go to it: it is found only if something else in its
segment differs. Every duplicated key is reported exactly if the segment of each
differs down to the last depth (`reportsDuplicates_iff`).
-/

namespace PlatformOps.Reconcile

open Listing Segments

/-- A key that either side holds more than once. -/
def Duplicated (source target : List (String × List String)) (k : String) : Prop :=
  1 < (rowsOf source k).length ∨ 1 < (rowsOf target k).length

theorem Duplicated.held {source target : List (String × List String)} {k : String}
    (h : Duplicated source target k) : rowsOf source k ≠ [] ∨ rowsOf target k ≠ [] :=
  h.imp (fun h => List.ne_nil_of_length_pos (by omega)) fun h =>
    List.ne_nil_of_length_pos (by omega)

/-- How many times each side holds a key. -/
def countsOf (source target : List (String × List String)) (k : String) : DuplicateKey :=
  ⟨k, (rowsOf source k).length, (rowsOf target k).length⟩

namespace Comparison

variable {R T : Type} (c : Comparison R T)

/-- **Every duplicated key is reported**, with how many times each side holds it; and the lists
are those of comparing every key, which say nothing of segments or the width of a leaf. -/
def ReportsDuplicates : Prop :=
  ∃ result connector, c.run = .ok (result, connector) ∧
    (∀ k, Duplicated c.hashedRows c.copyRows k →
      countsOf c.hashedRows c.copyRows k ∈ result.duplicates) ∧
    result.findings = fullFindings (c.table.valueColumns.map Column.name)
      (keysChanged c.engine c.table c.source c.legacy.rows) c.hashedRows c.copyRows

/-- Different contents never have equal summaries. -/
def Collisionless : Prop :=
  NoCollision c.md5 (sourceHashes c.engine c.md5 c.table c.source c.legacy.rows)
    (targetHashes c.md5 c.target c.copy) c.hashedRows c.copyRows

variable {c}

theorem hashedRows_static (hstatic : c.legacy.pending = []) :
    c.hashedRows = sourceRows c.engine c.table c.source c.legacy.rows := by
  have hafter : c.legacy.after 3 = c.legacy :=
    Function.iterate_fixed (by rw [Legacy.next, hstatic]) 3
  rw [hashedRows, rowsAt, hafter]

/-- What a comparison of static tables fetches is what is in doubt. -/
theorem fetched_iff_inDoubt (hstatic : c.legacy.pending = []) {k : String} :
    Fetched c.engine c.md5 c.ceilLog c.table c.leafWidth c.source c.target c.legacy.rows c.copy.rows
      k ↔ c.InDoubt c.lastDepth k := by
  have hafter : c.legacy.after 3 = c.legacy :=
    Function.iterate_fixed (by rw [Legacy.next, hstatic]) 3
  rw [InDoubt, hafter, lastDepth, hashedRows_static hstatic]
  rfl

/-- What a comparison of static tables counts and finds. -/
theorem exists_run (hstatic : c.legacy.pending = []) :
    ∃ result connector, c.run = .ok (result, connector) ∧
      result.sourceRows = c.hashedRows.length ∧ result.targetRows = c.copyRows.length ∧
      result.findings = findingsOver (c.table.valueColumns.map Column.name)
        (keysChanged c.engine c.table c.source c.legacy.rows) (rowsOf c.hashedRows)
        (rowsOf c.copyRows)
        ((keysOf c.hashedRows c.copyRows).filter fun k => c.InDoubt c.lastDepth k) := by
  obtain ⟨result, connector, hrun, houtcome⟩ := diffTable_outcome c.md5 c.ceilLog
    c.leafWidth c.copy c.renders c.copyRenders c.legacy
  -- Nothing is pending: what is counted, hashed and fetched is one table.
  have hlegacy : c.legacy = ⟨c.legacy.rows, []⟩ := by rw [← hstatic]
  rw [hlegacy] at houtcome
  refine ⟨result, connector, hrun, ?_, ?_, ?_⟩
  · rw [houtcome.sourceRows, counted_static, after_static, hashedRows_static hstatic, sourceRows,
      List.length_map]
  · rw [houtcome.targetRows, copyRows, targetRows, List.length_map]
  rw [findings_of_outcome houtcome, hashedRows_static hstatic]
  congr 1
  exact List.filter_congr fun k _ => decide_eq_decide.mpr (fetched_iff_inDoubt hstatic)

/-- A key that is not in doubt has the same rows on both sides. -/
theorem perm_of_not_inDoubt (hstatic : c.legacy.pending = []) (hcollide : c.Collisionless)
    {k : String} (hk : ¬ c.InDoubt c.lastDepth k) :
    (rowsOf c.hashedRows k).Perm (rowsOf c.copyRows k) := by
  rw [← fetched_iff_inDoubt hstatic] at hk
  rw [Collisionless, hashedRows_static hstatic] at hcollide
  rw [hashedRows_static hstatic]
  exact perm_of_not_fetched hcollide hk

/-- A duplicated key is reported if it is in doubt, and only then. -/
theorem mem_duplicates_iff {source target : List (String × List String)} {names all : List String}
    {p : String → Bool} {k : String} (hk : Duplicated source target k) :
    countsOf source target k ∈ (findingsOver names all (rowsOf source) (rowsOf target)
      ((keysOf source target).filter p)).duplicates ↔ p k = true := by
  have hheld := hk.held
  simp only [findingsOver, List.mem_map, List.mem_filter, decide_eq_true_eq]
  constructor
  · rintro ⟨k', ⟨⟨-, hp⟩, -⟩, heq⟩
    obtain rfl : k' = k := congrArg DuplicateKey.key heq
    exact hp
  · intro hp
    exact ⟨k, ⟨⟨mem_keysOf.mpr hheld, hp⟩, (keyClass_eq hheld).2.2.2.mpr hk⟩, rfl⟩

/-- **When every duplicated key is reported**: on static tables whose segments with different
contents never have equal summaries, exactly if the segment of each duplicated key, at the depth
of the leaves, and every segment above it has another summary on the other side. -/
theorem reportsDuplicates_iff (c : Comparison R T) (hstatic : c.legacy.pending = [])
    (hcollide : c.Collisionless) :
    c.ReportsDuplicates ↔
      ∀ k, Duplicated c.hashedRows c.copyRows k → c.InDoubt c.lastDepth k := by
  obtain ⟨result, connector, hrun, -, -, hfindings⟩ := exists_run hstatic
  have hduplicates := congrArg Findings.duplicates hfindings
  constructor
  · rintro ⟨result', connector', hrun', hall, -⟩ k hk
    -- A run has one result.
    obtain ⟨rfl, -⟩ := Prod.mk.inj (Except.ok.inj (hrun.symm.trans hrun'))
    have hreported := hall k hk
    rw [show result.duplicates = _ from hduplicates, mem_duplicates_iff hk] at hreported
    exact of_decide_eq_true hreported
  · intro hdoubt
    refine ⟨result, connector, hrun, fun k hk => ?_, ?_⟩
    · rw [show result.duplicates = _ from hduplicates, mem_duplicates_iff hk]
      exact decide_eq_true (hdoubt k hk)
    · rw [hfindings]
      apply findingsOver_eq_full
      · intro k hk
        -- Without collisions, a segment with one summary has one content.
        exact perm_of_not_inDoubt hstatic hcollide (of_decide_eq_false hk)
      · intro k hk hmany
        exact of_decide_eq_false hk (hdoubt k (Or.inl hmany))

end Comparison

/-! ### Duplicated orders -/

private theorem render_orders :
    render legacyOrders.toEngine orders (rulesFor orders {}) = .ok renderedOrders :=
  rfl

/-- Static tables of orders. -/
def staticOrders (legacy copy : List Order) : Comparison Order Order where
  engine := legacyOrders
  targetEngine := legacyOrders.toEngine
  md5 := digest
  ceilLog _ _ := 1
  table := orders
  rules := rulesFor orders {}
  leafWidth := 1
  legacy := ⟨legacy, []⟩
  copy := ⟨copy⟩
  source := renderedOrders
  target := renderedOrders
  renders := render_orders
  copyRenders := render_orders

instance (source target : List (String × List String)) : DecidablePred (Duplicated source target) :=
  fun _ => inferInstanceAs (Decidable (_ ∨ _))

instance {R T : Type} (c : Comparison R T) : Decidable c.Collisionless :=
  inferInstanceAs (Decidable (NoCollision ..))

/-- An order that only the copy holds twice is reported. -/
theorem reportsDuplicates_doubled :
    (staticOrders [("a", "1", none)] [("a", "1", none), ("a", "1", none)]).ReportsDuplicates := by
  refine ((staticOrders _ _).reportsDuplicates_iff rfl (by decide +kernel)).mpr fun k hk => ?_
  have hkeys : ∀ k ∈ keysOf (staticOrders [("a", "1", none)]
      [("a", "1", none), ("a", "1", none)]).hashedRows (staticOrders [("a", "1", none)]
      [("a", "1", none), ("a", "1", none)]).copyRows,
      (staticOrders [("a", "1", none)] [("a", "1", none), ("a", "1", none)]).InDoubt
        (staticOrders [("a", "1", none)] [("a", "1", none), ("a", "1", none)]).lastDepth k := by
    decide +kernel
  exact hkeys k (mem_keysOf.mpr hk.held)

/-- An order that both sides hold twice alike is not. -/
theorem not_reportsDuplicates_alike :
    (staticOrders [("a", "1", none), ("a", "1", none)]
      [("a", "1", none), ("a", "1", none)]).Collisionless ∧
    ¬ (staticOrders [("a", "1", none), ("a", "1", none)]
      [("a", "1", none), ("a", "1", none)]).ReportsDuplicates := by
  refine ⟨by decide +kernel, ?_⟩
  rintro ⟨result, connector, hrun, hall, -⟩
  have hnone : (match (staticOrders [("a", "1", none), ("a", "1", none)]
      [("a", "1", none), ("a", "1", none)]).run with
      | .ok (result, _) => decide (result.duplicates = [])
      | .error _ => false) = true := by decide +kernel
  rw [hrun] at hnone
  have hreported := hall "a" (by decide +kernel)
  rw [of_decide_eq_true hnone] at hreported
  cases hreported

end PlatformOps.Reconcile
