import PlatformOps.Cost.Money
import PlatformOps.Cost.Records

/-!
# The Cluster's Bill

A self-managed cluster is paid by the month. Its stated cost is prorated to the days
of the window in each month, and each month's pools are shared: compute by the bytes
each query read, storage by the bytes each table stored. What rounding leaves over
goes to the largest share, so the shares add up to the pool.
-/

namespace PlatformOps.Cost

open Listing Decimals Fallible

/-- What a piece of infrastructure costs a month. -/
structure StatedCost where
  computeUsd : ℚ
  storageUsd : ℚ
  nonneg : 0 ≤ computeUsd ∧ 0 ≤ storageUsd

/-- `window_months`: the days of the window in each month. -/
def windowMonths (start : Timestamp) (days : ℕ) : List (Month × ℕ) :=
  (groupBy (fun offset : ℕ => monthOf (start + Duration.hours (24 * offset)))
    (List.range days)).map fun group => (group.1, group.2.length)

/-- `_fraction`: the part of a month that some days are. -/
def fraction (month : Month) (days : ℕ) : ℚ :=
  dividedBy days (Date.daysInMonth month.year month.number)

structure MonthPool where
  month : Month
  days : ℕ
  computeUsd : ℚ
  storageUsd : ℚ
deriving DecidableEq, Repr

/-- One month's pools. -/
def poolOf (stated : StatedCost) (month : Month × ℕ) : Except String MonthPool := do
  let compute ← toMicro (times stated.computeUsd (fraction month.1 month.2))
  let storage ← toMicro (times stated.storageUsd (fraction month.1 month.2))
  return ⟨month.1, month.2, compute, storage⟩

/-- `pools`: the stated monthly cost, prorated to the window's days in each month. -/
def pools (stated : StatedCost) (months : List (Month × ℕ)) : Except String (List MonthPool) :=
  (sortBy (fun m : Month × ℕ => toLex (m.1.year, m.1.number)) months).mapM (poolOf stated)

/-- `share`: nothing to weigh, nothing shared. -/
def share (total : ℚ) (weights : List (String × ℕ)) : Except String (List (String × ℚ)) :=
  let positive := weights.filter fun w => 0 < w.2
  -- nobody used it: the pool of the month is shared with nobody
  if positive = [] then .ok [] else apportion halfEven total positive

/-- The shares of each month's pool by what was used in it. -/
def monthShares (cost : MonthPool → ℚ) (pools : List (Month × MonthPool))
    (used : List (Month × String × ℕ)) : Except String (List (Month × List (String × ℚ))) :=
  (groupBy Prod.fst used).mapM fun group =>
    match pools.lookup group.1 with
    -- a month outside the window has no pool
    | none => .ok (group.1, [])
    | some pool => do
      let shares ← share (cost pool) (dictOf (group.2.map Prod.snd))
      return (group.1, shares)

/-- `compute_shares`: each query's share of its month's compute. -/
def computeShares (pools : List (Month × MonthPool)) (queries : List (String × Month × ℕ)) :
    Except String (List (String × ℚ)) := do
  let shares ← monthShares MonthPool.computeUsd pools (queries.map fun q => (q.2.1, q.1, q.2.2))
  return dictOf (shares.flatMap Prod.snd)

/-- `storage_shares`: each table's share of its month's storage. -/
def storageShares (pools : List (Month × MonthPool)) (tables : List (Month × String × ℕ)) :
    Except String (List ((Month × String) × ℚ)) := do
  let shares ← monthShares MonthPool.storageUsd pools tables
  return dictOf (shares.flatMap fun month => month.2.map fun s => ((month.1, s.1), s.2))

/-! ## The shares of a month -/

/-- The excess of a pool's rounded shares: half a unit each, and little more. -/
def poolExcess (total : ℚ) (n : ℕ) : ℚ := 2 * excessOf (1 / 2) total n

theorem excessOf_mono {slack total : ℚ} {m n : ℕ} (hslack : 0 ≤ slack) (h : m ≤ n) :
    excessOf slack total m ≤ excessOf slack total n := by
  have hunit : (0 : ℚ) ≤ unit := by norm_num [unit]
  unfold excessOf
  gcongr

/-- What is shared of nothing, or of an amount. -/
theorem share_spec {total : ℚ} {weights : List (String × ℕ)} {parts : List (String × ℚ)}
    (hnodup : (weights.map Prod.fst).Nodup) (hkept : Kept total)
    (hlimit : |total| + excessOf (1 / 2) total weights.length < 10 ^ 16)
    (h : share total weights = .ok parts) :
    ((∀ w ∈ weights, w.2 = 0) ∧ parts = []) ∨
      ((∃ w ∈ weights, 0 < w.2) ∧ ∃ keys, keys.Sublist (weights.map Prod.fst) ∧
        Settled total (poolExcess total weights.length) keys parts) := by
  simp only [share] at h
  split at h
  · rename_i hnone
    refine Or.inl ⟨fun w hw => ?_, (Except.ok.inj h).symm⟩
    have hzero := List.filter_eq_nil_iff.mp hnone w hw
    rw [decide_eq_true_eq] at hzero
    omega
  · rename_i hsome
    set positive := weights.filter fun w => 0 < w.2 with hpositive
    obtain ⟨w, hw⟩ := List.exists_mem_of_ne_nil _ hsome
    obtain ⟨hmem, hpos⟩ := List.mem_filter.mp hw
    rw [decide_eq_true_eq] at hpos
    have hsub : positive.Sublist weights := List.filter_sublist
    have hexcess : excessOf (1 / 2) total positive.length ≤ excessOf (1 / 2) total weights.length :=
      excessOf_mono (by norm_num) hsub.length_le
    have hwhole : (positive.map Prod.snd).sum ≠ 0 := by
      have hle := List.single_le_sum (fun _ _ => Nat.zero_le _) _
        (List.mem_map_of_mem (f := Prod.snd) hw)
      omega
    obtain ⟨parts', hparts', hsettled⟩ := apportion_settled mode_halfEven
      (hnodup.sublist (hsub.map Prod.fst)) hwhole hkept (lt_of_le_of_lt (by linarith) hlimit)
    obtain rfl := Except.ok.inj (h.symm.trans hparts')
    refine Or.inr ⟨⟨w, hmem, hpos⟩, positive.map Prod.fst, hsub.map Prod.fst, ?_⟩
    refine ⟨hsettled.keys, hsettled.kept, hsettled.sum, hsettled.size.trans ?_⟩
    unfold poolExcess
    linarith

/-- What was used in a month. -/
def usedIn (used : List (Month × String × ℕ)) (month : Month) : List (String × ℕ) :=
  (used.filter fun u => u.1 = month).map Prod.snd

/-- The shares of each month are those of what was used in it. -/
theorem monthShares_spec {cost : MonthPool → ℚ} {pools : List (Month × MonthPool)}
    {used : List (Month × String × ℕ)} {shares : List (Month × List (String × ℚ))}
    (h : monthShares cost pools used = .ok shares) :
    shares.map Prod.fst = (groupBy Prod.fst used).map Prod.fst ∧
      ∀ e ∈ shares, match pools.lookup e.1 with
        | none => e.2 = []
        | some pool => share (cost pool) (dictOf (usedIn used e.1)) = .ok e.2 := by
  have hone : ∀ group : Month × List (Month × String × ℕ), ∀ e : Month × List (String × ℚ),
      (match pools.lookup group.1 with
        | none => .ok (group.1, [])
        | some pool => do
          let shares ← share (cost pool) (dictOf (group.2.map Prod.snd))
          return (group.1, shares)) = Except.ok e →
      e.1 = group.1 ∧ match pools.lookup group.1 with
        | none => e.2 = []
        | some pool => share (cost pool) (dictOf (group.2.map Prod.snd)) = .ok e.2 := by
    intro group e he
    cases hpool : pools.lookup group.1 with
    | none =>
      rw [hpool] at he
      obtain rfl := Except.ok.inj he
      exact ⟨rfl, rfl⟩
    | some pool =>
      rw [hpool] at he
      obtain ⟨parts, hparts, hpure⟩ := bind_eq_ok.mp he
      obtain rfl := pure_eq_ok.mp hpure
      exact ⟨rfl, hparts⟩
  constructor
  · exact map_eq_of_mapM_eq_ok Prod.fst Prod.fst h fun group e he => (hone group e he).1
  · intro e he
    obtain ⟨group, hgroup, hshares⟩ := exists_preimage_of_mem h he
    obtain ⟨hmonth, hspec⟩ := hone group e hshares
    rw [of_mem_groupBy hgroup] at hspec
    rw [hmonth]
    exact hspec

/-- The shares under one month. -/
def sharesIn (shares : List (Month × List (String × ℚ))) (month : Month) : List (String × ℚ) :=
  (shares.filter fun e => e.1 = month).flatMap Prod.snd

/-- What a month's shares are of its pool. -/
structure MonthShared (total : ℚ) (used : List (String × ℕ)) (parts : List (String × ℚ)) : Prop where
  kept : ∀ a ∈ parts.map Prod.snd, Kept a
  size : size (parts.map Prod.snd) ≤ |total| + poolExcess total used.length
  sum : (∃ u ∈ used, 0 < u.2) → (parts.map Prod.snd).sum = total
  keys : (parts.map Prod.fst).Nodup ∧ ∀ part ∈ parts, part.1 ∈ used.map Prod.fst

private theorem monthShared_nil {total : ℚ} {used : List (String × ℕ)}
    (hnone : ∀ u ∈ used, u.2 = 0) : MonthShared total used [] := by
  refine ⟨nofun, ?_, ?_, List.nodup_nil, nofun⟩
  · have hexcess := excessOf_nonneg (show (0 : ℚ) ≤ 1 / 2 by norm_num) total used.length
    rw [List.map_nil, size_nil]
    unfold poolExcess
    linarith [abs_nonneg total]
  · rintro ⟨u, hu, hpos⟩
    exact absurd (hnone u hu) hpos.ne'

/-- **A month's shares add up to its pool**, if anything was used in it. -/
theorem monthShared_of_month {cost : MonthPool → ℚ} {pools : List (Month × MonthPool)}
    {used : List (Month × String × ℕ)} {shares : List (Month × List (String × ℚ))} {month : Month}
    {pool : MonthPool} (h : monthShares cost pools used = .ok shares)
    (hnodup : ((usedIn used month).map Prod.fst).Nodup) (hpool : pools.lookup month = some pool)
    (hkept : Kept (cost pool))
    (hlimit : |cost pool| + excessOf (1 / 2) (cost pool) (usedIn used month).length < 10 ^ 16) :
    MonthShared (cost pool) (usedIn used month) (sharesIn shares month) := by
  obtain ⟨hkeys, hspec⟩ := monthShares_spec h
  have hmonths : (shares.map Prod.fst).Nodup := hkeys ▸ nodup_keys_groupBy Prod.fst used
  rcases Classical.em (month ∈ shares.map Prod.fst) with hmem | hmem
  · obtain ⟨⟨month, parts⟩, he, rfl⟩ := List.mem_map.mp hmem
    -- The month has one entry.
    have hin : sharesIn shares month = parts := by
      have hfilter : (shares.filter fun e => e.1 = month) = [(month, parts)] := by
        obtain ⟨before, after, rfl⟩ := List.append_of_mem he
        rw [List.map_append, List.map_cons, List.nodup_append] at hmonths
        obtain ⟨-, hnodupAfter, hbefore⟩ := hmonths
        obtain ⟨hafter, -⟩ := List.nodup_cons.mp hnodupAfter
        have hnone : ∀ l : List (Month × List (String × ℚ)), month ∉ l.map Prod.fst →
            (l.filter fun e => e.1 = month) = [] := by
          intro l hl
          refine List.filter_eq_nil_iff.mpr fun e hmem heq => hl ?_
          exact of_decide_eq_true heq ▸ List.mem_map_of_mem hmem
        rw [List.filter_append, List.filter_cons, hnone after hafter, hnone before]
        · simp
        · exact fun hmem => hbefore month hmem month (List.mem_cons_self ..) rfl
      unfold sharesIn
      rw [hfilter, List.flatMap_cons, List.flatMap_nil, List.append_nil]
    have hshare := hspec _ he
    rw [hpool] at hshare
    rw [dictOf_of_nodup hnodup] at hshare
    rw [hin]
    rcases share_spec hnodup hkept hlimit hshare with ⟨hzero, rfl⟩ | ⟨hpos, keys, hsub, hsettled⟩
    · exact monthShared_nil hzero
    · refine ⟨hsettled.kept, hsettled.size, fun _ => hsettled.sum, ?_, fun part hpart => ?_⟩
      · rw [hsettled.keys]
        exact hnodup.sublist hsub
      · exact hsub.subset (hsettled.keys ▸ List.mem_map_of_mem hpart)
  · -- Nothing was used in the month.
    have hnone : usedIn used month = [] := by
      rw [hkeys, mem_keys_groupBy, not_exists] at hmem
      unfold usedIn
      rw [List.map_eq_nil_iff, List.filter_eq_nil_iff]
      exact fun u hu heq => hmem u ⟨hu, of_decide_eq_true heq⟩
    have hin : sharesIn shares month = [] := by
      unfold sharesIn
      rw [List.filter_eq_nil_iff.mpr]
      · rfl
      · intro e he heq
        exact hmem (of_decide_eq_true heq ▸ List.mem_map_of_mem he)
    rw [hin]
    exact monthShared_nil (hnone ▸ nofun)

/-- No shares in a month without a pool. -/
theorem sharesIn_eq_nil {cost : MonthPool → ℚ} {pools : List (Month × MonthPool)}
    {used : List (Month × String × ℕ)} {shares : List (Month × List (String × ℚ))} {month : Month}
    (h : monthShares cost pools used = .ok shares) (hpool : pools.lookup month = none) :
    sharesIn shares month = [] := by
  unfold sharesIn
  rw [List.flatMap_eq_nil_iff]
  intro e he
  obtain ⟨hmem, hmonth⟩ := List.mem_filter.mp he
  have hspec := (monthShares_spec h).2 e hmem
  rw [of_decide_eq_true hmonth, hpool] at hspec
  exact hspec

/-- Shares under keys that tell their months and users apart have distinct keys. -/
theorem nodup_keys_shares {K : Type} {shares : List (Month × List (String × ℚ))}
    (key : Month → String → K) (hmonths : (shares.map Prod.fst).Nodup)
    (hkeys : ∀ e ∈ shares, (e.2.map Prod.fst).Nodup)
    (hapart : ∀ e ∈ shares, ∀ e' ∈ shares, ∀ s ∈ e.2, ∀ s' ∈ e'.2, key e.1 s.1 = key e'.1 s'.1 →
      e.1 = e'.1 ∧ s.1 = s'.1) :
    ((shares.flatMap fun e => e.2.map fun s => (key e.1 s.1, s.2)).map Prod.fst).Nodup := by
  have hflat : (shares.flatMap fun e => e.2.map fun s => (key e.1 s.1, s.2)).map Prod.fst =
      shares.flatMap fun e => (e.2.map Prod.fst).map (key e.1) := by
    rw [List.map_flatMap]
    refine List.flatMap_congr fun e _ => ?_
    rw [List.map_map, List.map_map]
    rfl
  rw [hflat, List.nodup_flatMap]
  constructor
  · intro e he
    refine List.Nodup.map_on ?_ (hkeys e he)
    intro a ha b hb heq
    obtain ⟨s, hs, rfl⟩ := List.mem_map.mp ha
    obtain ⟨s', hs', rfl⟩ := List.mem_map.mp hb
    exact (hapart e he e he s hs s' hs' heq).2
  · have hpair : shares.Pairwise fun e e' => e.1 ≠ e'.1 := List.pairwise_map.mp hmonths
    refine hpair.imp_of_mem fun {e e'} he he' hne => ?_
    intro k hk hk'
    obtain ⟨id, hid, rfl⟩ := List.mem_map.mp hk
    obtain ⟨id', hid', heq⟩ := List.mem_map.mp hk'
    obtain ⟨s, hs, rfl⟩ := List.mem_map.mp hid
    obtain ⟨s', hs', rfl⟩ := List.mem_map.mp hid'
    exact hne (hapart e he e' he' s hs s' hs' heq.symm).1

/-! ## The pools of the window -/

theorem poolOf_spec {stated : StatedCost} {month : Month × ℕ} {pool : MonthPool}
    (h : poolOf stated month = .ok pool) :
    pool.month = month.1 ∧ (Kept pool.computeUsd ∧ 0 ≤ pool.computeUsd) ∧
      Kept pool.storageUsd ∧ 0 ≤ pool.storageUsd := by
  obtain ⟨compute, hcompute, h⟩ := bind_eq_ok.mp h
  obtain ⟨storage, hstorage, h⟩ := bind_eq_ok.mp h
  obtain rfl := pure_eq_ok.mp h
  have hfraction : 0 ≤ fraction month.1 month.2 :=
    dividedBy_nonneg (Nat.cast_nonneg _) (Nat.cast_nonneg _)
  exact ⟨rfl, toMicro_spec hcompute (times_nonneg stated.nonneg.1 hfraction),
    toMicro_spec hstorage (times_nonneg stated.nonneg.2 hfraction)⟩

/-- A pool for each month of the window, kept at 12 decimals and not negative. -/
theorem pools_spec {stated : StatedCost} {start : Timestamp} {days : ℕ} {found : List MonthPool}
    (h : pools stated (windowMonths start days) = .ok found) :
    (found.map MonthPool.month).Nodup ∧ ∀ pool ∈ found,
      (Kept pool.computeUsd ∧ 0 ≤ pool.computeUsd) ∧ Kept pool.storageUsd ∧ 0 ≤ pool.storageUsd := by
  constructor
  · have hmonths := map_eq_of_mapM_eq_ok Prod.fst MonthPool.month h
      fun month pool hpool => (poolOf_spec hpool).1
    rw [hmonths]
    refine (((perm_sortBy _ _).map Prod.fst).nodup_iff).mpr ?_
    unfold windowMonths
    rw [List.map_map]
    exact nodup_keys_groupBy _ _
  · intro pool hpool
    obtain ⟨month, -, hmonth⟩ := exists_preimage_of_mem h hpool
    exact (poolOf_spec hmonth).2

/-- A month's pool is found under it. -/
theorem lookup_pool {found : List MonthPool} (h : (found.map MonthPool.month).Nodup) {month : Month}
    {pool : MonthPool} :
    (dictOf (found.map fun p => (p.month, p))).lookup month = some pool ↔
      pool ∈ found ∧ pool.month = month := by
  have hnodup : ((found.map fun p => (p.month, p)).map Prod.fst).Nodup := by
    rw [List.map_map]
    exact h
  rw [dictOf_of_nodup hnodup]
  constructor
  · intro hlookup
    obtain ⟨p, hp, heq⟩ := List.mem_map.mp (mem_of_lookup_eq_some hlookup)
    obtain ⟨rfl, rfl⟩ := Prod.mk.inj heq
    exact ⟨hp, rfl⟩
  · rintro ⟨hp, rfl⟩
    exact lookup_eq_some_of_mem hnodup
      (List.mem_map_of_mem (f := fun p : MonthPool => (p.month, p)) hp)

end PlatformOps.Cost
