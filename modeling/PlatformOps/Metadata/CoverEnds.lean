import PlatformOps.Metadata.Starter

/-!
# Where the Prefix Cover Ends, and What It Covers

`cover` goes from a group of names to smaller ones until a group is a single name, or
shares a prefix that no other id starts with. It stops exactly if all names come to
such a group (`cover_ok`, `separableFrom_of_cover`), and then its patterns are the ones
made for these last groups (`mem_cover_iff`).

The patterns are globs and the names are not escaped. A name with a `*`, a `?` or a `[`
is read as a pattern too, so that it may match other ids and not its own: what comes
out covers the names exactly if these globs fit (`coversExactly_iff`), as they do where
no name has a wildcard in it.
-/

namespace PlatformOps.Metadata

open Listing Fallible Prefixes

/-! ## More stack changes nothing -/

section Fuel

variable {root : String} {allIds names patterns : List String} {fuel fuel' depth : ℕ}

theorem cover_succ (h : cover root allIds fuel names depth = .ok patterns) :
    cover root allIds (fuel + 1) names depth = .ok patterns := by
  induction fuel generalizing names depth patterns with
  | zero => cases h
  | succ fuel ih =>
    rw [cover] at h ⊢
    split
    · rename_i hone
      rwa [if_pos hone] at h
    · rename_i hmany
      rw [if_neg hmany] at h
      split
      · rename_i haccepted
        rwa [if_pos haccepted] at h
      · rename_i hrejected
        rw [if_neg hrejected] at h
        dsimp only at h ⊢
        split
        · rename_i hsame
          rwa [if_pos hsame] at h
        · rename_i hsplit
          rw [if_neg hsplit] at h
          -- every group comes out with more stack too
          obtain ⟨groups, hgroups, hpatterns⟩ := bind_eq_ok.mp h
          refine bind_eq_ok.mpr ⟨groups, mapM_eq_ok_iff.mpr ?_, hpatterns⟩
          exact forall₂_of_mapM hgroups fun key _ patterns hkey => ih hkey

/-- **What the search comes to** does not depend on how much stack is left. -/
theorem cover_mono (h : cover root allIds fuel names depth = .ok patterns) (hle : fuel ≤ fuel') :
    cover root allIds fuel' names depth = .ok patterns := by
  induction fuel', hle using Nat.le_induction with
  | base => exact h
  | succ fuel' _ ih => exact cover_succ ih

end Fuel

/-- `_cover` stops with these patterns, given enough stack. -/
def CoverStops (root : String) (allIds names : List String) (depth : ℕ) (patterns : List String) :
    Prop :=
  ∃ bound, ∀ fuel ≥ bound, cover root allIds fuel names depth = .ok patterns

theorem coverStops_iff {root : String} {allIds names patterns : List String} {depth : ℕ} :
    CoverStops root allIds names depth patterns ↔
      ∃ fuel, cover root allIds fuel names depth = .ok patterns := by
  constructor
  · rintro ⟨bound, h⟩
    exact ⟨bound, h bound le_rfl⟩
  · rintro ⟨fuel, h⟩
    exact ⟨fuel, fun fuel' hle => cover_mono h hle⟩

/-! ## The last groups -/

/-- The search goes no further with a group. -/
def Settled (root : String) (allIds group : List String) : Prop :=
  group.length = 1 ∨ rejected root allIds group = false

/-- The search that starts with `depth` tokens is over for a name after `k` of them. -/
structure EndsAt (root : String) (allIds names : List String) (depth : ℕ) (name : String) (k : ℕ) :
    Prop where
  le : depth ≤ k
  settled : Settled root allIds (groupFrom names depth name k)
  first : ∀ j, depth ≤ j → j < k → ¬ Settled root allIds (groupFrom names depth name j)

/-- The pattern made for a last group: the id of a single name, or the shared prefix. -/
def patternOf (root : String) : List String → String
  | [name] => modelId root name
  | group => modelId root (commonPrefixOf group) ++ "*"

section Groups

variable {root : String} {allIds names patterns : List String} {fuel depth k : ℕ}
  {name key pattern : String}

theorem patternOf_of_length {group : List String} (h : group.length ≠ 1) :
    patternOf root group = modelId root (commonPrefixOf group) ++ "*" := by
  unfold patternOf
  split
  · exact absurd rfl h
  · rfl

theorem not_settled {group : List String} (hmany : group.length ≠ 1)
    (hrejected : rejected root allIds group = true) : ¬ Settled root allIds group := by
  rintro (hone | haccepted)
  · exact hmany hone
  · rw [hrejected] at haccepted
    cases haccepted

/-- A group that is settled at once ends there and nowhere else. -/
theorem endsAt_of_settled (h : Settled root allIds names) :
    EndsAt root allIds names depth name k ↔ k = depth := by
  constructor
  · intro hend
    by_contra hne
    apply hend.first depth le_rfl (lt_of_le_of_ne hend.le (Ne.symm hne))
    rwa [groupFrom_self]
  · rintro rfl
    refine ⟨le_rfl, by rwa [groupFrom_self], fun j hle hlt => ?_⟩
    omega

/-- One that is not ends where its own groups do. -/
theorem endsAt_split (h : ¬ Settled root allIds names)
    (hkey : tokenPrefix name (depth + 1) = key) :
    EndsAt root allIds (names.filter fun n => tokenPrefix n (depth + 1) = key) (depth + 1) name k ↔
      EndsAt root allIds names depth name k := by
  constructor
  · intro hend
    refine ⟨Nat.le_of_succ_le hend.le, ?_, fun j hle hlt => ?_⟩
    · have hsettled := hend.settled
      rwa [groupFrom_filter hkey hend.le] at hsettled
    · rcases Nat.eq_or_lt_of_le hle with rfl | hlater
      · rwa [groupFrom_self]
      · have hbefore := hend.first j hlater hlt
        rwa [groupFrom_filter hkey hlater] at hbefore
  · intro hend
    have hlater : depth + 1 ≤ k := by
      by_contra hle
      have hk := hend.le
      obtain rfl : k = depth := by omega
      have hsettled := hend.settled
      rw [groupFrom_self] at hsettled
      exact h hsettled
    refine ⟨hlater, ?_, fun j hle hlt => ?_⟩
    · rw [groupFrom_filter hkey hlater]
      exact hend.settled
    · rw [groupFrom_filter hkey hle]
      exact hend.first j (Nat.le_of_succ_le hle) hlt

/-- **The patterns are those of the last groups.** -/
theorem mem_cover_iff (hnodup : names.Nodup)
    (h : cover root allIds fuel names depth = .ok patterns) :
    pattern ∈ patterns ↔ ∃ name ∈ names, ∃ k, EndsAt root allIds names depth name k ∧
      pattern = patternOf root (groupFrom names depth name k) := by
  induction fuel generalizing names depth patterns with
  | zero => cases h
  | succ fuel ih =>
    rcases cover_step h with
      ⟨hone, rfl⟩ | ⟨hmany, haccepted, rfl⟩ | ⟨hmany, hone, hsame, -⟩ |
      ⟨hmany, hrejected, groups, hgroups, rfl⟩
    · -- a single name
      obtain ⟨only, rfl⟩ := List.length_eq_one_iff.mp hone
      have hends : ∀ name k, EndsAt root allIds [only] depth name k ↔ k = depth :=
        fun _ _ => endsAt_of_settled (Or.inl hone)
      simp [hends, groupFrom_self, patternOf]
    · -- a prefix of their own
      have hends : ∀ name k, EndsAt root allIds names depth name k ↔ k = depth :=
        fun _ _ => endsAt_of_settled (Or.inr haccepted)
      have hsome : ∃ name, name ∈ names := by
        apply List.exists_mem_of_ne_nil
        rintro rfl
        exact (rejected_eq_false_iff.mp haccepted).1 rfl
      simp [hends, groupFrom_self, patternOf_of_length hmany, hsome]
    · exact absurd (length_of_one_group hnodup hone hsame) hmany
    · have hopen := not_settled hmany hrejected
      rw [List.mem_flatten]
      constructor
      · rintro ⟨group, hgroup, hpattern⟩
        obtain ⟨key, -, hkey⟩ := exists_preimage_of_mem hgroups hgroup
        obtain ⟨name, hname, k, hend, rfl⟩ := (ih (hnodup.filter _) hkey).mp hpattern
        obtain ⟨hmem, hname⟩ := List.mem_filter.mp hname
        have hname' := of_decide_eq_true hname
        refine ⟨name, hmem, k, (endsAt_split hopen hname').mp hend, ?_⟩
        rw [groupFrom_filter hname' hend.le]
      · rintro ⟨name, hname, k, hend, rfl⟩
        -- the group of the name's next token
        obtain ⟨group, hgroup, hpatterns⟩ := exists_group hgroups hname
        have hend' := (endsAt_split hopen rfl).mpr hend
        refine ⟨group, hgroup, (ih (hnodup.filter _) hpatterns).mpr ⟨name, ?_, k, hend', ?_⟩⟩
        · exact List.mem_filter.mpr ⟨hname, decide_eq_true rfl⟩
        · rw [groupFrom_filter rfl hend'.le]

/-- Every name comes to a last group. -/
theorem exists_endsAt (hnodup : names.Nodup)
    (h : cover root allIds fuel names depth = .ok patterns) (hname : name ∈ names) :
    ∃ k, EndsAt root allIds names depth name k := by
  induction fuel generalizing names depth patterns with
  | zero => cases h
  | succ fuel ih =>
    rcases cover_step h with
      ⟨hone, -⟩ | ⟨-, haccepted, -⟩ | ⟨hmany, hone, hsame, -⟩ |
      ⟨hmany, hrejected, groups, hgroups, -⟩
    · exact ⟨depth, (endsAt_of_settled (Or.inl hone)).mpr rfl⟩
    · exact ⟨depth, (endsAt_of_settled (Or.inr haccepted)).mpr rfl⟩
    · exact absurd (length_of_one_group hnodup hone hsame) hmany
    · obtain ⟨group, -, hpatterns⟩ := exists_group hgroups hname
      obtain ⟨k, hend⟩ := ih (hnodup.filter _) hpatterns
        (List.mem_filter.mpr ⟨hname, decide_eq_true rfl⟩)
      exact ⟨k, (endsAt_split (not_settled hmany hrejected) rfl).mp hend⟩

end Groups

/-! ## What the last groups cover -/

/-- Each name's id is matched by some pattern, and no other id of the list is by any. -/
structure CoversExactly (root : String) (allIds names patterns : List String) : Prop where
  each : ∀ name ∈ names, ∃ pattern ∈ patterns, fnmatchcase (modelId root name) pattern = true
  only : ∀ id ∈ allIds, id ∉ names.map (modelId root) →
    ∀ pattern ∈ patterns, fnmatchcase id pattern = false

/-- What the globs made for the last groups match: each name's id is matched by one of them, and
the id of a name that ends alone, read as a glob, matches no id outside the names. -/
structure GlobsFit (root : String) (allIds names : List String) (depth : ℕ) : Prop where
  matched : ∀ name ∈ names, ∃ name' ∈ names, ∃ k, EndsAt root allIds names depth name' k ∧
    fnmatchcase (modelId root name) (patternOf root (groupFrom names depth name' k)) = true
  alone : ∀ name ∈ names, ∀ k, EndsAt root allIds names depth name k →
    groupFrom names depth name k = [name] → ∀ id ∈ allIds, id ∉ names.map (modelId root) →
      fnmatchcase id (modelId root name) = false

section Fits

variable {root : String} {allIds names patterns : List String} {fuel depth k : ℕ} {name : String}

theorem mem_groupFrom_self (h : name ∈ names) (depth k : ℕ) :
    name ∈ groupFrom names depth name k :=
  List.mem_filter.mpr ⟨h, decide_eq_true fun _ _ _ => rfl⟩

/-- The prefix of a group of names matches no id outside them, as it was looked for. -/
theorem outside_of_rejected {id : String} {group : List String} (hgroup : ∀ n ∈ group, n ∈ names)
    (h : rejected root allIds group = false) (hid : id ∈ allIds)
    (hout : id ∉ names.map (modelId root)) :
    fnmatchcase id (modelId root (commonPrefixOf group) ++ "*") = false := by
  rw [← Bool.not_eq_true]
  intro hmatch
  obtain ⟨name, hname, rfl⟩ := List.mem_map.mp ((rejected_eq_false_iff.mp h).2 id hid hmatch)
  exact hout (List.mem_map_of_mem (hgroup name hname))

/-- **What comes out covers the names** exactly if the globs of the last groups fit. -/
theorem coversExactly_iff (hnodup : names.Nodup)
    (h : cover root allIds fuel names depth = .ok patterns) :
    CoversExactly root allIds names patterns ↔ GlobsFit root allIds names depth := by
  have hmem : ∀ pattern, pattern ∈ patterns ↔ _ := fun _ => mem_cover_iff hnodup h
  constructor
  · intro hcovers
    constructor
    · intro name hname
      obtain ⟨pattern, hpattern, hmatch⟩ := hcovers.each name hname
      obtain ⟨name', hname', k, hend, rfl⟩ := (hmem pattern).mp hpattern
      exact ⟨name', hname', k, hend, hmatch⟩
    · intro name hname k hend hgroup id hid hout
      apply hcovers.only id hid hout
      apply (hmem _).mpr
      exact ⟨name, hname, k, hend, by rw [hgroup, patternOf]⟩
  · intro hfit
    constructor
    · intro name hname
      obtain ⟨name', hname', k, hend, hmatch⟩ := hfit.matched name hname
      exact ⟨_, (hmem _).mpr ⟨name', hname', k, hend, rfl⟩, hmatch⟩
    · intro id hid hout pattern hpattern
      obtain ⟨name, hname, k, hend, rfl⟩ := (hmem pattern).mp hpattern
      by_cases hone : (groupFrom names depth name k).length = 1
      · -- a single name: the one the group is of
        obtain ⟨only, honly⟩ := List.length_eq_one_iff.mp hone
        have hself := mem_groupFrom_self hname depth k
        rw [honly, List.mem_singleton] at hself
        subst hself
        rw [honly, patternOf]
        exact hfit.alone name hname k hend honly id hid hout
      · rw [patternOf_of_length hone]
        apply outside_of_rejected _ (hend.settled.resolve_left hone) hid hout
        exact fun n hn => List.mem_of_mem_filter hn

/-- Names without wildcards are matched as they are written. -/
theorem globsFit_of_globFree (hroot : GlobFree root.toList)
    (hnames : ∀ n ∈ names, GlobFree n.toList)
    (hends : ∀ name ∈ names, ∃ k, EndsAt root allIds names depth name k) :
    GlobsFit root allIds names depth := by
  constructor
  · intro name hname
    obtain ⟨k, hend⟩ := hends name hname
    refine ⟨name, hname, k, hend, ?_⟩
    have hself := mem_groupFrom_self hname depth k
    by_cases hone : (groupFrom names depth name k).length = 1
    · obtain ⟨only, honly⟩ := List.length_eq_one_iff.mp hone
      rw [honly, List.mem_singleton] at hself
      subst hself
      rw [honly, patternOf]
      exact (fnmatchcase_exact (globFree_modelId hroot (hnames name hname))).mpr rfl
    · have hstart := commonPrefixOf_isPrefix hself
      have hfree := globFree_modelId hroot ((hnames name hname).of_isPrefix hstart)
      rw [patternOf_of_length hone]
      exact (fnmatchcase_star hfree).mpr (modelId_prefix_iff.mpr hstart)
  · intro name hname k _ _ id _ hout
    rw [← Bool.not_eq_true, fnmatchcase_exact (globFree_modelId hroot (hnames name hname))]
    rintro rfl
    exact hout (List.mem_map_of_mem hname)

/-- Names that can be told apart are, in so many calls. -/
theorem exists_coverStops (hnodup : names.Nodup)
    (hseparable : SeparableFrom root allIds names depth) :
    ∃ patterns, CoverStops root allIds names depth patterns := by
  set longest := (names.map fun n => n.toList.length).foldr max 0 with hlongest
  have hbound : ∀ n ∈ names, n.toList.length ≤ longest := by
    intro n hn
    exact List.le_max_of_le (List.mem_map_of_mem (f := fun n : String => n.toList.length) hn) le_rfl
  obtain ⟨patterns, hpatterns⟩ : ∃ patterns,
      cover root allIds (longest + 2) names depth = .ok patterns :=
    cover_ok hbound hnodup hseparable (by omega) (by omega)
  exact ⟨patterns, coverStops_iff.mpr ⟨_, hpatterns⟩⟩

/-- Where no name has a wildcard in it the globs of the last groups fit. -/
theorem SeparableFrom.globsFit (hseparable : SeparableFrom root allIds names depth)
    (hnodup : names.Nodup) (hroot : GlobFree root.toList)
    (hnames : ∀ n ∈ names, GlobFree n.toList) : GlobsFit root allIds names depth := by
  obtain ⟨patterns, hstops⟩ := exists_coverStops hnodup hseparable
  obtain ⟨fuel, hpatterns⟩ := coverStops_iff.mp hstops
  exact globsFit_of_globFree hroot hnames fun name hname => exists_endsAt hnodup hpatterns hname

/-- **The cover stops, and covers the names exactly**, if and only if names that differ in the
underscores they start with only can be told apart by a prefix, and the globs made of the names
fit; without wildcards in the names, if and only if the first. -/
theorem coverStops_exactly_iff (root : String) (allIds : List String) (hnodup : names.Nodup)
    (depth : ℕ) :
    ((∃ patterns, CoverStops root allIds names depth patterns ∧
        CoversExactly root allIds names patterns) ↔
      SeparableFrom root allIds names depth ∧ GlobsFit root allIds names depth) ∧
    (GlobFree root.toList → (∀ n ∈ names, GlobFree n.toList) →
      ((∃ patterns, CoverStops root allIds names depth patterns ∧
        CoversExactly root allIds names patterns) ↔ SeparableFrom root allIds names depth)) := by
  have hiff : (∃ patterns, CoverStops root allIds names depth patterns ∧
      CoversExactly root allIds names patterns) ↔
        SeparableFrom root allIds names depth ∧ GlobsFit root allIds names depth := by
    constructor
    · rintro ⟨patterns, hstops, hcovers⟩
      obtain ⟨fuel, hpatterns⟩ := coverStops_iff.mp hstops
      exact ⟨separableFrom_of_cover hpatterns, (coversExactly_iff hnodup hpatterns).mp hcovers⟩
    · rintro ⟨hseparable, hfit⟩
      obtain ⟨patterns, hstops⟩ := exists_coverStops hnodup hseparable
      obtain ⟨fuel, hpatterns⟩ := coverStops_iff.mp hstops
      exact ⟨patterns, hstops, (coversExactly_iff hnodup hpatterns).mpr hfit⟩
  refine ⟨hiff, fun hroot hnames => hiff.trans (and_iff_left_of_imp fun hseparable => ?_)⟩
  exact hseparable.globsFit hnodup hroot hnames

end Fits

private def stagingIds : List String :=
  ["model.acme.__stg", "model.acme._stg", "model.acme.orders", "model.acme.orders_daily"]

/-- Two names that differ by an underscore, told apart from the rest by the one they share. -/
theorem coverStops_exactly_staging :
    ∃ patterns, CoverStops "acme" stagingIds ["__stg", "_stg", "orders"] 0 patterns ∧
      CoversExactly "acme" stagingIds ["__stg", "_stg", "orders"] patterns := by
  have hsame : ∀ name ∈ ["__stg", "_stg", "orders"], ∀ name' ∈ ["__stg", "_stg", "orders"],
      name ≠ name' → bareName name = bareName name' →
        rejected "acme" stagingIds (groupFrom ["__stg", "_stg", "orders"] 0 name 1) = false := by
    decide +kernel
  have hseparable : SeparableFrom "acme" stagingIds ["__stg", "_stg", "orders"] 0 :=
    fun name hname name' hname' hne hbare =>
      ⟨1, by omega, hsame name hname name' hname' hne hbare⟩
  have hnodup : ["__stg", "_stg", "orders"].Nodup := by decide
  have hroot : GlobFree "acme".toList := by simp [GlobFree, isGlob]
  have hnames : ∀ n ∈ ["__stg", "_stg", "orders"], GlobFree n.toList := by
    simp [GlobFree, isGlob]
  exact ((coverStops_exactly_iff "acme" stagingIds hnodup 0).2 hroot hnames).mpr hseparable

/-- A name and the same with an underscore before it share no prefix and all of their tokens. -/
theorem cover_endless :
    ¬ ∃ patterns, CoverStops "acme" ["model.acme._orders", "model.acme.orders"]
      ["_orders", "orders"] 0 patterns := by
  rintro ⟨patterns, hstops⟩
  obtain ⟨fuel, hpatterns⟩ := coverStops_iff.mp hstops
  have hbare : ∀ n ∈ ["_orders", "orders"], bareName n = bareName "_orders" := by decide +kernel
  obtain ⟨k, -, haccepted⟩ := separableFrom_of_cover hpatterns "_orders" (by simp) "orders"
    (by simp) (by decide) (hbare "orders" (by simp)).symm
  -- they are one group for ever
  rw [groupFrom_of_bareName hbare] at haccepted
  revert haccepted
  decide +kernel

end PlatformOps.Metadata
