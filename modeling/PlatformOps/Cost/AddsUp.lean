import PlatformOps.Cost.Showback

/-!
# The Bill Adds Up

Every cost is charged once. A query's parts add up to its cost, whoever viewed its
dashboard; a month's shares add up to its pool. So a month's showback of the cluster
adds up to its two pools, and that of a pricing model to what the queries were priced
at, whatever the dashboard views (`bill_adds_up`).

The sums are exact as long as the amounts stay a cent below `10 ^ 16` dollars, which
is where 28 digits stop holding 12 decimals. Two queries priced beyond it lose the
last digit of their sum (`bill_rounded`).
-/

namespace PlatformOps.Cost

open Listing Decimals Fallible Metadata

/-! ## What a query's cost adds to the showback -/

namespace CostData

variable (data : CostData)

/-- The month a query started in. -/
def monthOfQuery (queryId : String) : Option Month :=
  (data.byId.lookup queryId).map fun r => monthOf r.startedAt

/-- A charge counts under some models and months. -/
def counts (P : CostModel → Month → Bool) (charge : CostModel × String × ℚ) : Bool :=
  (data.monthOfQuery charge.2.1).any (P charge.1)

/-- The charges of some models and months. -/
def chargesOf (P : CostModel → Month → Bool) : List ℚ :=
  (data.charges.filter fun c => data.counts P c).map fun c => c.2.2

/-- The storage of some months. -/
def storageOf (P : Month → Bool) : List ℚ :=
  (data.storage.filter fun s => P s.1.1).map Prod.snd

/-- A key of some models and months. -/
def keyed (P : CostModel → Month → Bool) (key : ShowbackKey) : Bool :=
  P key.model key.month

/-- One model in one month. -/
def only (model : CostModel) (month : Month) (m : CostModel) (month' : Month) : Bool :=
  m = model && month' = month

/-- What the showback relies on: each charge has its record, its attribution and viewers who
viewed, each table its owner, and no month's amounts come near `10 ^ 16` dollars. -/
structure Sound : Prop where
  charged : ∀ c ∈ data.charges, Kept c.2.2 ∧ (∃ r, data.byId.lookup c.2.1 = some r) ∧
    ∃ a, data.attributions.lookup c.2.1 = some a
  viewers : ∀ queryId weights, data.viewers.lookup queryId = some weights →
    (weights.map Prod.fst).Nodup ∧ ∀ w ∈ weights, 0 < w.2
  owned : ∀ s ∈ data.storage, Kept s.2 ∧ ∃ o, data.storageOwner.lookup s.1.2 = some o
  smallCharges : ∀ model month, size (data.chargesOf (only model month)) * (1 + 2 * drift) < 10 ^ 16
  smallStorage : ∀ month, size (data.storageOf fun m => m = month) < 10 ^ 16

/-- What one charge adds. -/
structure Charged (charge : CostModel × String × ℚ) (parts : List (ShowbackKey × ℚ)) : Prop where
  keys : ∀ part ∈ parts, part.1.model = charge.1 ∧
    data.monthOfQuery charge.2.1 = some part.1.month ∧ part.1.payer ≠ .storage
  kept : ∀ part ∈ parts, Kept part.2
  sum : (parts.map Prod.snd).sum = charge.2.2
  size : size (parts.map Prod.snd) ≤ |charge.2.2| * (1 + 2 * drift)

variable {data}

theorem item_ok {A : Type} {d : List (String × A)} {key : String} {value : A}
    (h : d.lookup key = some value) : item d key = .ok value := by
  unfold item
  rw [h]

/-- **A query's shares add up to its cost**, and whoever pays them, they are kept. -/
theorem shares_ok {queryId : String} {usd : ℚ} (hsound : data.Sound)
    (ha : ∃ a, data.attributions.lookup queryId = some a) (hkept : Kept usd)
    (hlimit : |usd| * (1 + 2 * drift) < 10 ^ 16) :
    ∃ parts, data.shares queryId usd = .ok parts ∧ (∀ a ∈ parts.map Prod.snd, Kept a) ∧
      (parts.map Prod.snd).sum = usd ∧ Cost.size (parts.map Prod.snd) ≤ |usd| * (1 + 2 * drift) := by
  have hdrift : 0 ≤ |usd| * drift := mul_nonneg (abs_nonneg usd) (by norm_num [drift])
  unfold shares
  cases hviewers : (data.viewers.lookup queryId).getD [] with
  -- one team pays the whole
  | nil =>
    obtain ⟨a, ha⟩ := ha
    refine ⟨[(a.team, usd)], bind_eq_ok.mpr ⟨a, item_ok ha, rfl⟩, ?_, ?_, ?_⟩
    · intro x hx
      rw [List.map_cons, List.map_nil, List.mem_singleton] at hx
      rw [hx]
      exact hkept
    · simp
    · rw [List.map_cons, List.map_nil, size_cons, size_nil, add_zero]
      linarith
  | cons w rest =>
    -- the viewers share it, and the split is settled
    obtain ⟨weights, hweights, hcons⟩ : ∃ weights, data.viewers.lookup queryId = some weights ∧
        weights = w :: rest := by
      cases hlookup : data.viewers.lookup queryId with
      | none => rw [hlookup] at hviewers; cases hviewers
      | some weights => rw [hlookup] at hviewers; exact ⟨weights, rfl, hviewers⟩
    subst hcons
    obtain ⟨hnodup, hpos⟩ := hsound.viewers queryId _ hweights
    obtain ⟨parts, hparts, hsettled⟩ := split_settled (List.cons_ne_nil w rest) hnodup hpos hkept
      (by linarith)
    refine ⟨parts, hparts, hsettled.kept, hsettled.sum, hsettled.size.trans_eq ?_⟩
    ring

theorem queryParts_ok {charge : CostModel × String × ℚ} (hsound : data.Sound)
    (hcharge : charge ∈ data.charges) :
    ∃ parts, data.queryParts charge = .ok parts ∧ data.Charged charge parts := by
  obtain ⟨hkept, ⟨r, hr⟩, a, ha⟩ := hsound.charged charge hcharge
  have hmonth : data.monthOfQuery charge.2.1 = some (monthOf r.startedAt) := by
    unfold monthOfQuery
    rw [hr]
    rfl
  -- The charge is one of its month's.
  have hlimit : |charge.2.2| * (1 + 2 * drift) < 10 ^ 16 := by
    refine lt_of_le_of_lt ?_ (hsound.smallCharges charge.1 (monthOf r.startedAt))
    have hmem : charge.2.2 ∈ data.chargesOf (only charge.1 (monthOf r.startedAt)) := by
      refine List.mem_map_of_mem (f := fun c : CostModel × String × ℚ => c.2.2)
        (List.mem_filter.mpr ⟨hcharge, ?_⟩)
      unfold counts only
      rw [hmonth]
      simp
    have hle : |charge.2.2| ≤ Cost.size (data.chargesOf (only charge.1 (monthOf r.startedAt))) := by
      have hsub := size_le_of_sublist (List.singleton_sublist.mpr hmem)
      rwa [size_cons, size_nil, add_zero] at hsub
    have hfactor : (0 : ℚ) ≤ 1 + 2 * drift := by norm_num [drift]
    exact mul_le_mul_of_nonneg_right hle hfactor
  obtain ⟨shares, hshares, hsharesKept, hsum, hsize⟩ := shares_ok hsound ⟨a, ha⟩ hkept hlimit
  refine ⟨_, bind_eq_ok.mpr ⟨r, item_ok hr, bind_eq_ok.mpr ⟨a, item_ok ha,
    bind_eq_ok.mpr ⟨shares, hshares, rfl⟩⟩⟩, ?_⟩
  constructor
  · intro part hpart
    obtain ⟨share, -, rfl⟩ := List.mem_map.mp hpart
    exact ⟨rfl, hmonth, fun h => by cases h⟩
  · intro part hpart
    obtain ⟨share, hshare, rfl⟩ := List.mem_map.mp hpart
    exact hsharesKept _ (List.mem_map_of_mem hshare)
  · rw [List.map_map]
    exact hsum
  · rw [List.map_map]
    exact hsize

/-! ## All of them -/

variable {charges : List (CostModel × String × ℚ)} {nested : List (List (ShowbackKey × ℚ))}
  {P : CostModel → Month → Bool}

/-- A charge's parts are under a key if the charge counts. -/
private theorem Charged.filter {charge : CostModel × String × ℚ} {parts : List (ShowbackKey × ℚ)}
    (h : data.Charged charge parts) :
    amountsOf (keyed P) parts = if data.counts P charge then parts.map Prod.snd else [] := by
  have hkey : ∀ part ∈ parts, keyed P part.1 = data.counts P charge := by
    intro part hpart
    obtain ⟨hmodel, hmonth, -⟩ := h.keys part hpart
    unfold keyed counts
    rw [hmodel, hmonth, Option.any_some]
  unfold amountsOf
  split
  · rename_i hcounts
    rw [List.filter_eq_self.mpr fun part hpart => (hkey part hpart).trans hcounts]
  · rename_i hcounts
    rw [List.filter_eq_nil_iff.mpr fun part hpart => by rw [hkey part hpart]; exact hcounts]
    rfl

/-- The parts of the charges that count add up to the charges, and are little larger. -/
private theorem amountsOf_queries (h : List.Forall₂ data.Charged charges nested) :
    (amountsOf (keyed P) nested.flatten).sum =
        ((charges.filter fun c => data.counts P c).map fun c => c.2.2).sum ∧
      Cost.size (amountsOf (keyed P) nested.flatten) ≤
        Cost.size ((charges.filter fun c => data.counts P c).map fun c => c.2.2) *
          (1 + 2 * drift) := by
  induction h with
  | nil =>
    constructor
    · rfl
    · simp [amountsOf]
  | cons hcharged _ ih =>
    obtain ⟨hsum, hsize⟩ := ih
    rw [List.flatten_cons, amountsOf_append, hcharged.filter, List.filter_cons]
    split
    -- the charge counts: its parts add up to it
    · rename_i hcounts
      rw [List.sum_append, hsum, hcharged.sum, size_append, List.map_cons, List.sum_cons, size_cons]
      refine ⟨rfl, ?_⟩
      linarith [hcharged.size]
    · rw [List.nil_append]
      exact ⟨hsum, hsize⟩

/-- The storage of some months is under their keys. -/
private theorem amountsOf_storage {storage : List ((Month × String) × ℚ)}
    {parts : List (ShowbackKey × ℚ)}
    (h : List.Forall₂ (fun s part => Prod.snd part = Prod.snd s ∧ part.1.model = .cluster ∧
      part.1.month = s.1.1 ∧ part.1.payer = .storage) storage parts) (p : ShowbackKey → Bool)
    (q : Month → Bool) (hpq : ∀ key : ShowbackKey, key.model = .cluster → key.payer = .storage →
      p key = q key.month) :
    amountsOf p parts = (storage.filter fun s => q s.1.1).map Prod.snd := by
  unfold amountsOf
  induction h with
  | nil => rfl
  | cons hpart _ ih =>
    obtain ⟨husd, hmodel, hmonth, hpayer⟩ := hpart
    rw [List.filter_cons, List.filter_cons, hpq _ hmodel hpayer, hmonth]
    split
    · rw [List.map_cons, List.map_cons, ih, husd]
    · exact ih

theorem storagePart_ok {s : (Month × String) × ℚ}
    (ho : ∃ o, data.storageOwner.lookup s.1.2 = some o) :
    ∃ part, data.storagePart s = .ok part ∧ part.2 = s.2 ∧ part.1.model = .cluster ∧
      part.1.month = s.1.1 ∧ part.1.payer = .storage := by
  obtain ⟨o, ho⟩ := ho
  exact ⟨_, bind_eq_ok.mpr ⟨o, item_ok ho, rfl⟩, rfl, rfl, rfl, rfl⟩

/-- **Every cost is charged once**: the cells of some models and months add up to what was charged
in them, and the storage. -/
theorem showback_adds_up (hsound : data.Sound) :
    ∃ table, data.showback = .ok table ∧ ∀ P : CostModel → Month → Bool,
      billed (keyed P) table = (data.chargesOf P).sum + (data.storageOf (P .cluster)).sum := by
  obtain ⟨nested, hnested⟩ := exists_mapM_eq_ok (l := data.charges) (f := data.queryParts)
    fun c hc => (queryParts_ok hsound hc).imp fun _ => And.left
  have hcharged : List.Forall₂ data.Charged data.charges nested :=
    forall₂_of_mapM hnested fun c hc parts hparts => by
      obtain ⟨parts', hparts', hspec⟩ := queryParts_ok hsound hc
      obtain rfl := Except.ok.inj (hparts.symm.trans hparts')
      exact hspec
  obtain ⟨stored, hstored⟩ := exists_mapM_eq_ok (l := data.storage) (f := data.storagePart)
    fun s hs => (storagePart_ok (hsound.owned s hs).2).imp fun _ => And.left
  have howned : List.Forall₂ (fun s part => Prod.snd part = Prod.snd s ∧ part.1.model = .cluster ∧
      part.1.month = s.1.1 ∧ part.1.payer = .storage) data.storage stored :=
    forall₂_of_mapM hstored fun s hs part hpart => by
      obtain ⟨part', hpart', hspec⟩ := storagePart_ok (hsound.owned s hs).2
      obtain rfl := Except.ok.inj (hpart.symm.trans hpart')
      exact hspec
  -- nothing raises, so the showback is the cells of these parts
  have hparts : data.parts = .ok (nested.flatten ++ stored) :=
    bind_eq_ok.mpr ⟨nested, hnested, bind_eq_ok.mpr ⟨stored, hstored, rfl⟩⟩
  -- a query never pays into a storage cell
  have hactor : ∀ part ∈ nested.flatten, part.1.payer ≠ .storage := by
    intro part hpart
    obtain ⟨parts, hparts, hpart⟩ := List.mem_flatten.mp hpart
    obtain ⟨c, hc, hvalue⟩ := exists_preimage_of_mem hnested hparts
    obtain ⟨parts', hparts', hspec⟩ := queryParts_ok hsound hc
    obtain rfl := Except.ok.inj (hvalue.symm.trans hparts')
    exact (hspec.keys part hpart).2.2
  refine ⟨_, bind_eq_ok.mpr ⟨_, hparts, rfl⟩, fun P => ?_⟩
  rw [billed_cells ?_ ?_ (keyed P), amountsOf_append, List.sum_append,
    (amountsOf_queries hcharged).1, amountsOf_storage howned (keyed P) (P .cluster)]
  · rfl
  · intro key hmodel _
    unfold keyed
    rw [hmodel]
  · intro part hpart
    rcases List.mem_append.mp hpart with hpart | hpart
    · obtain ⟨parts, hparts, hpart⟩ := List.mem_flatten.mp hpart
      obtain ⟨c, hc, hvalue⟩ := exists_preimage_of_mem hnested hparts
      obtain ⟨parts', hparts', hspec⟩ := queryParts_ok hsound hc
      obtain rfl := Except.ok.inj (hvalue.symm.trans hparts')
      exact hspec.kept part hpart
    · obtain ⟨s, hs, hvalue⟩ := exists_preimage_of_mem hstored hpart
      obtain ⟨part', hpart', hspec⟩ := storagePart_ok (hsound.owned s hs).2
      obtain rfl := Except.ok.inj (hvalue.symm.trans hpart')
      rw [hspec.1]
      exact (hsound.owned s hs).1
  · intro key
    rw [amountsOf_append, size_append]
    by_cases hpayer : key.payer = .storage
    · -- A cell of the storage holds nothing else.
      rw [amountsOf_eq_nil fun part hpart => ?_, size_nil, zero_add]
      · refine lt_of_le_of_lt ?_ (hsound.smallStorage key.month)
        have hmonth := amountsOf_storage howned (fun k => k.payer = .storage && k.month = key.month)
          (fun m => m = key.month) fun k _ hk => by simp [hk]
        unfold storageOf
        rw [← hmonth]
        refine size_amountsOf_le fun part _ heq => ?_
        rw [of_decide_eq_true heq]
        simp [hpayer]
      · refine decide_eq_false fun heq => hactor part hpart ?_
        rw [heq]
        exact hpayer
    · rw [@amountsOf_eq_nil stored _ fun part hpart => ?_, size_nil, add_zero]
      · refine lt_of_le_of_lt ?_ (hsound.smallCharges key.model key.month)
        refine le_trans ?_ (amountsOf_queries hcharged).2
        refine size_amountsOf_le fun part _ heq => ?_
        rw [of_decide_eq_true heq]
        simp [keyed, only]
      · refine decide_eq_false fun heq => hpayer ?_
        obtain ⟨s, hs, hvalue⟩ := exists_preimage_of_mem hstored hpart
        obtain ⟨part', hpart', hspec⟩ := storagePart_ok (hsound.owned s hs).2
        obtain rfl := Except.ok.inj (hvalue.symm.trans hpart')
        rw [← heq]
        exact hspec.2.2.2

end CostData

/-! ## The shares of the pools -/

/-- A cent is room enough for what rounding adds to a pool's shares. -/
private theorem pool_small {total : ℚ} {n : ℕ} (hnonneg : 0 ≤ total)
    (hlimit : total + n * unit ≤ limit) :
    |total| + excessOf (1 / 2) total n < 10 ^ 16 ∧
      (|total| + poolExcess total n) * (1 + 2 * drift) < 10 ^ 16 := by
  have hunits : 0 ≤ n * unit := mul_nonneg (Nat.cast_nonneg n) (by norm_num [unit])
  have htotal : total * drift ≤ limit * drift :=
    mul_le_mul_of_nonneg_right (by linarith) (by norm_num [drift])
  unfold poolExcess excessOf
  rw [abs_of_nonneg hnonneg]
  constructor
  · have hroom : limit + limit * drift < 10 ^ 16 := by norm_num [limit, drift]
    linarith
  · have hle : total + 2 * (total * drift + n * (1 / 2 * unit)) ≤ limit + 2 * (limit * drift) := by
      linarith
    have hroom : (limit + 2 * (limit * drift)) * (1 + 2 * drift) < 10 ^ 16 := by
      norm_num [limit, drift]
    exact lt_of_le_of_lt (mul_le_mul_of_nonneg_right hle (by norm_num [drift])) hroom

/-- A month's shares: kept, a little larger than the pool at most, and adding up to it. -/
structure InMonth (found : List MonthPool) (cost : MonthPool → ℚ) (used : List (Month × String × ℕ))
    (shares : List (Month × List (String × ℚ))) (month : Month) : Prop where
  kept : ∀ a ∈ (sharesIn shares month).map Prod.snd, Kept a
  small : size ((sharesIn shares month).map Prod.snd) * (1 + 2 * drift) < 10 ^ 16
  sum : ∀ pool ∈ found, pool.month = month → (∃ u ∈ usedIn used month, 0 < u.2) →
    ((sharesIn shares month).map Prod.snd).sum = cost pool
  nodup : ((sharesIn shares month).map Prod.fst).Nodup
  users : ∀ part ∈ sharesIn shares month, part.1 ∈ (usedIn used month).map Prod.fst

theorem inMonth_of_shares {found : List MonthPool} {cost : MonthPool → ℚ}
    {used : List (Month × String × ℕ)} {shares : List (Month × List (String × ℚ))}
    (hmonths : (found.map MonthPool.month).Nodup)
    (hcost : ∀ pool ∈ found, Kept (cost pool) ∧ 0 ≤ cost pool)
    (h : monthShares cost (dictOf (found.map fun p => (p.month, p))) used = .ok shares)
    (hnodup : ∀ month, ((usedIn used month).map Prod.fst).Nodup)
    (hlimit : ∀ pool ∈ found, cost pool + (usedIn used pool.month).length * unit ≤ limit)
    (month : Month) : InMonth found cost used shares month := by
  cases hpool : (dictOf (found.map fun p => (p.month, p))).lookup month with
  | none =>
    -- a month outside the window: no shares at all
    have hnil := sharesIn_eq_nil h hpool
    constructor <;> rw [hnil]
    · nofun
    · rw [List.map_nil, size_nil, zero_mul]
      norm_num
    · intro pool hmem hmonth
      rw [(lookup_pool hmonths).mpr ⟨hmem, hmonth⟩] at hpool
      cases hpool
    · exact List.nodup_nil
    · nofun
  | some pool =>
    obtain ⟨hmem, hmonth⟩ := (lookup_pool hmonths).mp hpool
    obtain ⟨hkept, hnonneg⟩ := hcost pool hmem
    have hwithin := hlimit pool hmem
    rw [hmonth] at hwithin
    -- the pool is small enough for 28 digits to hold its shares
    obtain ⟨hroom, hsmall⟩ := pool_small hnonneg hwithin
    have hshared := monthShared_of_month h (hnodup month) hpool hkept hroom
    refine ⟨hshared.kept, ?_, ?_, hshared.keys.1, hshared.keys.2⟩
    · exact lt_of_le_of_lt
        (mul_le_mul_of_nonneg_right hshared.size (by norm_num [drift])) hsmall
    · intro pool' hmem' hmonth' hpos
      have hsame := (lookup_pool hmonths).mpr ⟨hmem', hmonth'⟩
      rw [hpool] at hsame
      obtain rfl := Option.some.inj hsame
      exact hshared.sum hpos

/-- The shares whose user is of a month are the month's. -/
theorem filter_shares {K : Type} {shares : List (Month × List (String × ℚ))}
    (key : Month → String → K) (monthOf : K → Option Month) {month : Month}
    (h : ∀ e ∈ shares, ∀ s ∈ e.2, monthOf (key e.1 s.1) = some e.1) :
    ((shares.flatMap fun e => e.2.map fun s => (key e.1 s.1, s.2)).filter
        fun c => monthOf c.1 = some month).map Prod.snd = (sharesIn shares month).map Prod.snd := by
  unfold sharesIn
  -- month by month: the entries of one month are kept or dropped together
  induction shares with
  | nil => rfl
  | cons e rest ih =>
    obtain ⟨hfirst, hrest⟩ := List.forall_mem_cons.mp h
    have hkeep : ((e.2.map fun s => (key e.1 s.1, s.2)).filter fun c => monthOf c.1 = some month) =
        if e.1 = month then e.2.map fun s => (key e.1 s.1, s.2) else [] := by
      split
      · rename_i heq
        refine List.filter_eq_self.mpr fun c hc => ?_
        obtain ⟨s, hs, rfl⟩ := List.mem_map.mp hc
        rw [hfirst s hs, heq]
        exact decide_eq_true rfl
      · rename_i hne
        refine List.filter_eq_nil_iff.mpr fun c hc heq => hne ?_
        obtain ⟨s, hs, rfl⟩ := List.mem_map.mp hc
        rw [hfirst s hs] at heq
        exact Option.some.inj (of_decide_eq_true heq)
    rw [List.flatMap_cons, List.filter_append, List.map_append, ih hrest, hkeep, List.filter_cons]
    by_cases heq : e.1 = month
    · rw [if_pos heq, if_pos (decide_eq_true heq), List.flatMap_cons, List.map_append, List.map_map]
      rfl
    · rw [if_neg heq, if_neg (by simpa using heq), List.map_nil, List.nil_append]

/-! ## What was gathered -/

namespace CollectedRun

variable (run : CollectedRun)

/-- The bytes each billable query read, by month. -/
def read : List (Month × String × ℕ) :=
  run.billable.map fun r => (monthOf r.startedAt, r.queryId, r.bytesScanned.getD 0)

/-- What `gather` found, from its parts. -/
structure Gathered (views : List View) (data : CostData) (scan compute : List PricedQuery)
    (shares stored : List (Month × List (String × ℚ))) : Prop where
  scanPrices : run.settings.scan.price run.estimates = .ok scan
  computePrices : run.settings.compute.price run.estimates = .ok compute
  pools : pools run.settings.clickhouse (windowMonths run.windowStart run.windowDays) =
    .ok data.pools
  ofCompute : monthShares MonthPool.computeUsd (dictOf (data.pools.map fun p => (p.month, p)))
    run.read = .ok shares
  ofStorage : monthShares MonthPool.storageUsd (dictOf (data.pools.map fun p => (p.month, p)))
    run.snapshots = .ok stored
  records : data.records = run.records
  costs : data.costs = [(.cluster, dictOf (shares.flatMap Prod.snd)),
    (.scan, dictOf (scan.map fun p => (p.queryId, p.usd))),
    (.compute, dictOf (compute.map fun p => (p.queryId, p.usd)))]
  attributions : data.attributions = attributed run.records run.owners
  viewers : data.viewers = viewerWeights run.records views run.owners.registry
  storage : data.storage =
    dictOf (stored.flatMap fun month => month.2.map fun s => ((month.1, s.1), s.2))
  storageOwner : data.storageOwner = dictOf (data.storage.map fun s =>
    (s.1.2, run.owners.of (run.relations.lookup s.1.2)))

variable {run} {views : List View} {data : CostData}

theorem gathered_of_gather (h : run.gather views = .ok data) :
    ∃ scan compute shares stored, run.Gathered views data scan compute shares stored := by
  obtain ⟨scan, hscan, h⟩ := bind_eq_ok.mp h
  obtain ⟨compute, hcompute, h⟩ := bind_eq_ok.mp h
  obtain ⟨found, hpools, h⟩ := bind_eq_ok.mp h
  obtain ⟨cluster, hcluster, h⟩ := bind_eq_ok.mp h
  obtain ⟨storage, hstorage, h⟩ := bind_eq_ok.mp h
  obtain rfl := pure_eq_ok.mp h
  obtain ⟨shares, hshares, hpure⟩ := bind_eq_ok.mp hcluster
  obtain rfl := pure_eq_ok.mp hpure
  obtain ⟨stored, hstored, hpure⟩ := bind_eq_ok.mp hstorage
  obtain rfl := pure_eq_ok.mp hpure
  rw [List.map_map] at hshares
  exact ⟨scan, compute, shares, stored, hscan, hcompute, hpools, hshares, hstored, rfl, rfl, rfl,
    rfl, rfl, rfl⟩

/-- The views decide only who pays for a refresh. -/
theorem gather_views (h : run.gather views = .ok data) (views' : List View) :
    run.gather views' =
      .ok { data with viewers := viewerWeights run.records views' run.owners.registry } := by
  obtain ⟨scan, hscan, h⟩ := bind_eq_ok.mp h
  obtain ⟨compute, hcompute, h⟩ := bind_eq_ok.mp h
  obtain ⟨found, hpools, h⟩ := bind_eq_ok.mp h
  obtain ⟨cluster, hcluster, h⟩ := bind_eq_ok.mp h
  obtain ⟨storage, hstorage, h⟩ := bind_eq_ok.mp h
  obtain rfl := pure_eq_ok.mp h
  exact bind_eq_ok.mpr ⟨scan, hscan, bind_eq_ok.mpr ⟨compute, hcompute,
    bind_eq_ok.mpr ⟨found, hpools, bind_eq_ok.mpr ⟨cluster, hcluster,
      bind_eq_ok.mpr ⟨storage, hstorage, rfl⟩⟩⟩⟩⟩

/-- The amounts stay a cent below `10 ^ 16` dollars: in each month each pool, with a unit of
`10 ^ -12` dollars for each query or table that shares it, and what its queries are priced at. -/
structure WithinDecimals (run : CollectedRun) (data : CostData) : Prop where
  compute : ∀ pool ∈ data.pools,
    pool.computeUsd + (usedIn run.read pool.month).length * unit ≤ limit
  storage : ∀ pool ∈ data.pools,
    pool.storageUsd + (usedIn run.snapshots pool.month).length * unit ≤ limit
  priced : ∀ model, model ≠ .cluster → ∀ month,
    (data.chargesOf (CostData.only model month)).sum ≤ limit

section Gathered

variable {scan compute : List PricedQuery} {shares stored : List (Month × List (String × ℚ))}

private theorem Gathered.byId (g : run.Gathered views data scan compute shares stored)
    (hids : (run.records.map QueryRecord.queryId).Nodup) {r : QueryRecord} (hr : r ∈ run.records) :
    data.byId.lookup r.queryId = some r := by
  have hnodup : ((run.records.map fun r => (r.queryId, r)).map Prod.fst).Nodup := by
    rw [List.map_map]
    exact hids
  unfold CostData.byId
  rw [g.records, dictOf_of_nodup hnodup]
  exact lookup_eq_some_of_mem hnodup
    (List.mem_map_of_mem (f := fun r : QueryRecord => (r.queryId, r)) hr)

private theorem Gathered.attribution (g : run.Gathered views data scan compute shares stored)
    {r : QueryRecord} (hr : r ∈ run.records) :
    ∃ a, data.attributions.lookup r.queryId = some a := by
  rw [g.attributions]
  apply exists_lookup_dictOf
  rw [List.map_map]
  exact List.mem_map_of_mem (f := QueryRecord.queryId) hr

/-- A query that read in a month started in it. -/
private theorem Gathered.month_of_read (g : run.Gathered views data scan compute shares stored)
    (hids : (run.records.map QueryRecord.queryId).Nodup) {month : Month} {queryId : String}
    (h : queryId ∈ (usedIn run.read month).map Prod.fst) :
    (∃ r ∈ run.records, r.queryId = queryId) ∧ data.monthOfQuery queryId = some month := by
  obtain ⟨u, hu, rfl⟩ := List.mem_map.mp h
  obtain ⟨entry, hentry, rfl⟩ := List.mem_map.mp hu
  obtain ⟨hread, hmonth⟩ := List.mem_filter.mp hentry
  obtain ⟨r, hr, rfl⟩ := List.mem_map.mp hread
  have hrecord := List.mem_of_mem_filter hr
  refine ⟨⟨r, hrecord, rfl⟩, ?_⟩
  unfold CostData.monthOfQuery
  rw [g.byId hids hrecord, ← of_decide_eq_true hmonth]
  rfl

private theorem nodup_billable (hids : (run.records.map QueryRecord.queryId).Nodup) :
    (run.billable.map QueryRecord.queryId).Nodup :=
  hids.sublist (List.filter_sublist.map _)

private theorem nodup_read (hids : (run.records.map QueryRecord.queryId).Nodup) (month : Month) :
    ((usedIn run.read month).map Prod.fst).Nodup := by
  have hkeys : (run.read.map fun u => u.2.1) = run.billable.map QueryRecord.queryId := by
    unfold read
    rw [List.map_map]
    rfl
  have hnodup := nodup_billable hids
  rw [← hkeys] at hnodup
  unfold usedIn
  rw [List.map_map]
  exact hnodup.sublist (List.filter_sublist.map _)

/-- The prices of a model, each under its query. -/
private theorem priced_once (hids : (run.records.map QueryRecord.queryId).Nodup)
    {priced : List PricedQuery} (h : Priced run.estimates priced) :
    dictOf (priced.map fun p => (p.queryId, p.usd)) = priced.map (fun p => (p.queryId, p.usd)) ∧
      ∀ p ∈ priced, ∃ r ∈ run.records, r.queryId = p.queryId := by
  have hestimates : run.estimates.map EstimatedQuery.queryId =
      run.billable.map QueryRecord.queryId := by
    unfold estimates
    rw [List.map_map]
    rfl
  constructor
  · apply dictOf_of_nodup
    rw [List.map_map]
    have hnodup := (h.ids.nodup_iff).mpr (hestimates ▸ nodup_billable hids)
    exact hnodup
  · intro p hp
    have hmem := h.ids.mem_iff.mp (List.mem_map_of_mem hp)
    rw [hestimates] at hmem
    obtain ⟨r, hr, heq⟩ := List.mem_map.mp hmem
    exact ⟨r, List.mem_of_mem_filter hr, heq⟩

/-- A share is one of its month's. -/
private theorem mem_sharesIn {shares : List (Month × List (String × ℚ))}
    {e : Month × List (String × ℚ)} (he : e ∈ shares) {s : String × ℚ} (hs : s ∈ e.2) :
    s ∈ sharesIn shares e.1 :=
  List.mem_flatMap.mpr ⟨e, List.mem_filter.mpr ⟨he, decide_eq_true rfl⟩, hs⟩

/-- A month's shares have distinct users. -/
private theorem nodup_shares {cost : MonthPool → ℚ} {used : List (Month × String × ℕ)}
    (h : ∀ month, InMonth data.pools cost used shares month) :
    ∀ e ∈ shares, (e.2.map Prod.fst).Nodup := by
  intro e he
  refine (h e.1).nodup.sublist (List.Sublist.map _ ?_)
  unfold sharesIn
  rw [List.flatMap_def]
  exact List.sublist_flatten_of_mem
    (List.mem_map_of_mem (List.mem_filter.mpr ⟨he, decide_eq_true rfl⟩))

/-- What the proofs below take of a run within the decimals. -/
structure Gathered.Within (g : run.Gathered views data scan compute shares stored) : Prop where
  ids : (run.records.map QueryRecord.queryId).Nodup
  compute : ∀ month, InMonth data.pools MonthPool.computeUsd run.read shares month
  storage : ∀ month, InMonth data.pools MonthPool.storageUsd run.snapshots stored month
  priced : ∀ model, model ≠ .cluster → ∀ month,
    (data.chargesOf (CostData.only model month)).sum ≤ limit

theorem Gathered.within (g : run.Gathered views data scan compute shares stored)
    (hids : (run.records.map QueryRecord.queryId).Nodup)
    (htables : (run.snapshots.map fun s => (s.1, s.2.1)).Nodup)
    (hwithin : WithinDecimals run data) : g.Within := by
  obtain ⟨hmonths, hpools⟩ := pools_spec g.pools
  refine ⟨hids, ?_, ?_, hwithin.priced⟩
  · exact inMonth_of_shares hmonths (fun pool hp => (hpools pool hp).1) g.ofCompute
      (nodup_read hids) hwithin.compute
  · refine inMonth_of_shares hmonths (fun pool hp => (hpools pool hp).2) g.ofStorage ?_
      hwithin.storage
    intro month
    let ofMonth := run.snapshots.filter fun s => s.1 = month
    -- In one month a table tells its entries apart.
    have hkeys : ofMonth.map (fun s => (s.1, s.2.1)) =
        (ofMonth.map fun s => s.2.1).map fun table => (month, table) := by
      rw [List.map_map]
      refine List.map_congr_left fun s hs => ?_
      have hmonth := of_decide_eq_true (List.mem_filter.mp hs).2
      rw [hmonth]
      rfl
    have hnodup : (ofMonth.map fun s => (s.1, s.2.1)).Nodup :=
      htables.sublist (List.Sublist.map _ List.filter_sublist)
    rw [hkeys] at hnodup
    unfold usedIn
    rw [List.map_map]
    exact hnodup.of_map _

namespace Gathered

variable {g : run.Gathered views data scan compute shares stored}

/-- A cluster share's query started in the month of the share. -/
private theorem Within.started (w : g.Within) :
    ∀ e ∈ shares, ∀ s ∈ e.2, (∃ r ∈ run.records, r.queryId = s.1) ∧
      data.monthOfQuery s.1 = some e.1 :=
  fun e he s hs => g.month_of_read w.ids ((w.compute e.1).users s (mem_sharesIn he hs))

/-- The costs charged: each cluster share, and each price. -/
theorem Within.charges (w : g.Within) :
    data.charges =
      (shares.flatMap fun e => e.2.map fun s => (s.1, s.2)).map (CostModel.cluster, ·) ++
      (scan.map (fun p => (p.queryId, p.usd))).map (CostModel.scan, ·) ++
      (compute.map (fun p => (p.queryId, p.usd))).map (CostModel.compute, ·) := by
  have hmonths : (shares.map Prod.fst).Nodup :=
    (monthShares_spec g.ofCompute).1 ▸ nodup_keys_groupBy _ _
  have hcluster : dictOf (shares.flatMap Prod.snd) =
      shares.flatMap fun e => e.2.map fun s => (s.1, s.2) := by
    have hsame : (shares.flatMap fun e => e.2.map fun s => (s.1, s.2)) = shares.flatMap Prod.snd :=
      List.flatMap_congr fun e _ => List.map_id _
    -- a query started in one month only, so no share is overwritten
    have hnodup := nodup_keys_shares (fun _ id => id) hmonths (nodup_shares w.compute)
      fun e he e' he' s hs s' hs' heq => by
        refine ⟨?_, heq⟩
        have hstarted := (w.started e he s hs).2
        rw [heq, (w.started e' he' s' hs').2] at hstarted
        exact (Option.some.inj hstarted).symm
    rw [hsame] at hnodup ⊢
    exact dictOf_of_nodup hnodup
  unfold CostData.charges
  rw [g.costs, hcluster, (priced_once w.ids (run.settings.scan.price_spec g.scanPrices)).1,
    (priced_once w.ids (run.settings.compute.price_spec g.computePrices)).1]
  simp only [List.flatMap_cons, List.flatMap_nil, List.append_nil, List.append_assoc]

/-- The charges of one model in a month, out of a model's costs. -/
private theorem chargesOf_costs (data : CostData) (model model' : CostModel) (month : Month)
    (costs : List (String × ℚ)) :
    (((costs.map (model', ·)).filter fun c => data.counts (CostData.only model month) c).map
        fun c => c.2.2) =
      if model' = model then
        (costs.filter fun c => data.monthOfQuery c.1 = some month).map Prod.snd
      else [] := by
  have hcounts : ∀ cost : String × ℚ, data.counts (CostData.only model month) (model', cost) =
      (decide (model' = model) && decide (data.monthOfQuery cost.1 = some month)) := by
    intro cost
    unfold CostData.counts CostData.only
    cases data.monthOfQuery cost.1 with
    | none => simp
    | some started => simp
  rw [List.filter_map, List.map_map]
  split
  · rename_i heq
    have hfilter : costs.filter ((fun c => data.counts (CostData.only model month) c) ∘
        fun cost => (model', cost)) = costs.filter fun c => data.monthOfQuery c.1 = some month := by
      refine List.filter_congr fun cost _ => ?_
      rw [Function.comp_apply, hcounts, decide_eq_true heq, Bool.true_and]
    rw [hfilter]
    rfl
  · rename_i hne
    rw [List.map_eq_nil_iff, List.filter_eq_nil_iff]
    intro cost _ h
    rw [Function.comp_apply, hcounts, decide_eq_false hne] at h
    cases h

/-- **The cluster's charges in a month** are the month's shares. -/
theorem Within.chargesOf_cluster (w : g.Within) (month : Month) :
    data.chargesOf (CostData.only .cluster month) = (sharesIn shares month).map Prod.snd := by
  unfold CostData.chargesOf
  rw [w.charges, List.filter_append, List.filter_append, List.map_append, List.map_append,
    chargesOf_costs, chargesOf_costs, chargesOf_costs, if_pos rfl, if_neg nofun, if_neg nofun,
    List.append_nil, List.append_nil]
  exact filter_shares (fun _ id => id) _ fun e he s hs => (w.started e he s hs).2

/-- A price is kept, not negative, and of a query on record. -/
private theorem Within.priced_spec (w : g.Within) {priced : List PricedQuery}
    (h : Priced run.estimates priced) {c : String × ℚ}
    (hc : c ∈ priced.map fun p => (p.queryId, p.usd)) :
    (Kept c.2 ∧ 0 ≤ c.2) ∧ ∃ r ∈ run.records, r.queryId = c.1 := by
  obtain ⟨p, hp, rfl⟩ := List.mem_map.mp hc
  exact ⟨⟨h.kept p hp, h.nonneg p hp⟩, (priced_once w.ids h).2 p hp⟩

/-- What is charged is kept, of a query on record, and not negative if it was priced. -/
private theorem Within.charge_spec (w : g.Within) {c : CostModel × String × ℚ}
    (hc : c ∈ data.charges) :
    Kept c.2.2 ∧ (∃ r ∈ run.records, r.queryId = c.2.1) ∧ (c.1 ≠ .cluster → 0 ≤ c.2.2) := by
  rw [w.charges, List.mem_append, List.mem_append] at hc
  -- a share of the cluster, a scan price or a compute price
  rcases hc with (hc | hc) | hc
  · obtain ⟨cost, hcost, rfl⟩ := List.mem_map.mp hc
    obtain ⟨e, he, hshare⟩ := List.mem_flatMap.mp hcost
    obtain ⟨s, hs, rfl⟩ := List.mem_map.mp hshare
    have hmem := mem_sharesIn he hs
    exact ⟨(w.compute e.1).kept s.2 (List.mem_map_of_mem hmem), (w.started e he s hs).1,
      fun hne => absurd rfl hne⟩
  · obtain ⟨cost, hcost, rfl⟩ := List.mem_map.mp hc
    obtain ⟨⟨hkept, hnonneg⟩, hrecord⟩ :=
      w.priced_spec (run.settings.scan.price_spec g.scanPrices) hcost
    exact ⟨hkept, hrecord, fun _ => hnonneg⟩
  · obtain ⟨cost, hcost, rfl⟩ := List.mem_map.mp hc
    obtain ⟨⟨hkept, hnonneg⟩, hrecord⟩ :=
      w.priced_spec (run.settings.compute.price_spec g.computePrices) hcost
    exact ⟨hkept, hrecord, fun _ => hnonneg⟩

/-- **A month's storage** is the month's shares. -/
theorem Within.storage_eq (w : g.Within) :
    data.storage = stored.flatMap fun e => e.2.map fun s => ((e.1, s.1), s.2) := by
  have hmonths : (stored.map Prod.fst).Nodup :=
    (monthShares_spec g.ofStorage).1 ▸ nodup_keys_groupBy _ _
  rw [g.storage]
  apply dictOf_of_nodup
  exact nodup_keys_shares (fun month table => (month, table)) hmonths
    (nodup_shares w.storage) fun e he e' he' s hs s' hs' heq => Prod.mk.inj heq

theorem Within.storageOf_month (w : g.Within) (month : Month) :
    data.storageOf (fun m => m = month) = (sharesIn stored month).map Prod.snd := by
  unfold CostData.storageOf
  rw [w.storage_eq, ← filter_shares (fun month table => (month, table))
    (fun key => some key.1) fun e _ s _ => rfl]
  refine congrArg (List.map Prod.snd) (List.filter_congr fun s _ => ?_)
  simp

/-- **What was gathered is sound.** -/
theorem Within.sound (w : g.Within) : data.Sound := by
  have hroom : (1 : ℚ) ≤ 1 + 2 * drift := by norm_num [drift]
  constructor
  · intro c hc
    obtain ⟨hkept, ⟨r, hr, heq⟩, -⟩ := w.charge_spec hc
    rw [← heq]
    exact ⟨hkept, ⟨r, g.byId w.ids hr⟩, g.attribution hr⟩
  · intro queryId weights h
    rw [g.viewers] at h
    exact viewerWeights_spec h
  · intro s hs
    constructor
    · rw [w.storage_eq] at hs
      obtain ⟨e, he, hshare⟩ := List.mem_flatMap.mp hs
      obtain ⟨part, hpart, rfl⟩ := List.mem_map.mp hshare
      exact (w.storage e.1).kept part.2 (List.mem_map_of_mem (mem_sharesIn he hpart))
    · rw [g.storageOwner]
      apply exists_lookup_dictOf
      rw [List.map_map]
      exact List.mem_map_of_mem (f := fun s : (Month × String) × ℚ => s.1.2) hs
  · intro model month
    by_cases hmodel : model = .cluster
    · rw [hmodel, w.chargesOf_cluster]
      exact (w.compute month).small
    · -- Prices are not negative: their size is their sum.
      have hnonneg : ∀ a ∈ data.chargesOf (CostData.only model month), 0 ≤ a := by
        intro a ha
        obtain ⟨c, hc, rfl⟩ := List.mem_map.mp ha
        obtain ⟨hmem, hcounts⟩ := List.mem_filter.mp hc
        refine (w.charge_spec hmem).2.2 ?_
        intro hcluster
        unfold CostData.counts CostData.only at hcounts
        cases hstarted : data.monthOfQuery c.2.1 with
        | none => simp [hstarted] at hcounts
        | some started =>
          rw [hstarted, Option.any_some, Bool.and_eq_true, decide_eq_true_eq] at hcounts
          exact hmodel (hcounts.1.symm.trans hcluster)
      rw [size_of_nonneg hnonneg]
      have hlimit := w.priced model hmodel month
      have hcap : limit * (1 + 2 * drift) < 10 ^ 16 := by norm_num [limit, drift]
      exact lt_of_le_of_lt (mul_le_mul_of_nonneg_right hlimit (by norm_num [drift])) hcap
  · intro month
    rw [w.storageOf_month]
    refine lt_of_le_of_lt ?_ (w.storage month).small
    exact le_mul_of_one_le_right (size_nonneg _) hroom

/-- A model's charges, over all months. -/
theorem Within.chargesOf_model (w : g.Within) (model : CostModel) :
    data.chargesOf (fun m _ => m = model) =
      (data.charges.filter fun c => c.1 = model).map fun c => c.2.2 := by
  unfold CostData.chargesOf
  refine congrArg (List.map _) (List.filter_congr fun c hc => ?_)
  obtain ⟨-, ⟨r, hr, heq⟩, -⟩ := w.charge_spec hc
  unfold CostData.counts CostData.monthOfQuery
  rw [← heq, g.byId w.ids hr]
  rfl

/-- The charges of the two pricing models are their prices. -/
theorem Within.chargesOf_priced (w : g.Within) :
    data.chargesOf (fun m _ => m = .scan) = scan.map PricedQuery.usd ∧
      data.chargesOf (fun m _ => m = .compute) = compute.map PricedQuery.usd := by
  have hpick : ∀ (model model' : CostModel) (costs : List (String × ℚ)),
      (((costs.map (model', ·)).filter fun c => c.1 = model).map fun c => c.2.2) =
        if model' = model then costs.map Prod.snd else [] := by
    intro model model' costs
    have hfilter : (costs.map (model', ·)).filter (fun c => c.1 = model) =
        if model' = model then costs.map (model', ·) else [] := by
      split
      · rename_i heq
        refine List.filter_eq_self.mpr fun c hc => ?_
        obtain ⟨cost, -, rfl⟩ := List.mem_map.mp hc
        exact decide_eq_true heq
      · rename_i hne
        refine List.filter_eq_nil_iff.mpr fun c hc h => hne ?_
        obtain ⟨cost, -, rfl⟩ := List.mem_map.mp hc
        exact of_decide_eq_true h
    rw [hfilter]
    split
    · rw [List.map_map]
      rfl
    · rfl
  constructor
  · rw [w.chargesOf_model, w.charges, List.filter_append, List.filter_append, List.map_append,
      List.map_append, hpick, hpick, hpick, if_neg nofun, if_pos rfl, if_neg nofun, List.map_map,
      List.nil_append, List.append_nil]
    rfl
  · rw [w.chargesOf_model, w.charges, List.filter_append, List.filter_append, List.map_append,
      List.map_append, hpick, hpick, hpick, if_neg nofun, if_neg nofun, if_pos rfl, List.map_map,
      List.nil_append, List.nil_append]
    rfl

end Gathered

end Gathered

end CollectedRun

/-! ## The bill -/

open CollectedRun in
/-- **The bill adds up exactly**, as long as its amounts stay a cent below `10 ^ 16` dollars: a
month's showback of the cluster is its two pools, that of a pricing model is what the queries were
priced at, and no total depends on the dashboard views. -/
theorem bill_adds_up (run : CollectedRun) (views : List View) {data : CostData}
    (hids : (run.records.map QueryRecord.queryId).Nodup)
    (htables : (run.snapshots.map fun s => (s.1, s.2.1)).Nodup)
    (hgather : run.gather views = .ok data) (hwithin : WithinDecimals run data) :
    ∃ table, data.showback = .ok table ∧
      (∀ pool ∈ data.pools,
        (∃ r ∈ run.billable, monthOf r.startedAt = pool.month ∧ 0 < r.bytesScanned.getD 0) →
        (∃ s ∈ run.snapshots, s.1 = pool.month ∧ 0 < s.2.2) →
        billed (fun key => key.model = .cluster ∧ key.month = pool.month) table =
          pool.computeUsd + pool.storageUsd) ∧
      (∀ priced, run.settings.scan.price run.estimates = .ok priced →
        billed (fun key => key.model = .scan) table = (priced.map PricedQuery.usd).sum) ∧
      (∀ priced, run.settings.compute.price run.estimates = .ok priced →
        billed (fun key => key.model = .compute) table = (priced.map PricedQuery.usd).sum) ∧
      ∀ views', ∃ data' table', run.gather views' = .ok data' ∧ data'.showback = .ok table' ∧
        (∀ model month, billed (fun key => key.model = model ∧ key.month = month) table' =
          billed (fun key => key.model = model ∧ key.month = month) table) ∧
        ∀ model, billed (fun key => key.model = model) table' =
          billed (fun key => key.model = model) table := by
  obtain ⟨scan, compute, shares, stored, g⟩ := gathered_of_gather hgather
  have w := g.within hids htables hwithin
  obtain ⟨table, htable, hbilled⟩ := CostData.showback_adds_up w.sound
  -- The statement's predicates on keys, as models and months.
  have honly : ∀ model month, (fun key : ShowbackKey =>
      decide (key.model = model ∧ key.month = month)) =
        CostData.keyed (CostData.only model month) := by
    intro model month
    funext key
    unfold CostData.keyed CostData.only
    rw [Bool.decide_and]
  have hmodel : ∀ model, (fun key : ShowbackKey => decide (key.model = model)) =
      CostData.keyed fun m _ => m = model := fun model => rfl
  have hnoStorage : ∀ model : CostModel, CostModel.cluster ≠ model →
      data.storageOf (fun _ => decide (CostModel.cluster = model)) = [] := by
    intro model hne
    unfold CostData.storageOf
    rw [decide_eq_false hne, List.filter_false]
    rfl
  refine ⟨table, htable, ?_, ?_, ?_, ?_⟩
  · rintro pool hpool ⟨r, hr, hmonth, hread⟩ ⟨s, hs, hsmonth, hstored⟩
    have hcluster : CostData.only .cluster pool.month .cluster = fun m => m = pool.month := by
      funext m
      simp [CostData.only]
    rw [honly, hbilled, hcluster, w.chargesOf_cluster, w.storageOf_month]
    rw [(w.compute pool.month).sum pool hpool rfl, (w.storage pool.month).sum pool hpool rfl]
    · exact ⟨s.2, List.mem_map_of_mem (List.mem_filter.mpr ⟨hs, decide_eq_true hsmonth⟩), hstored⟩
    · refine ⟨(r.queryId, r.bytesScanned.getD 0), ?_, hread⟩
      exact List.mem_map.mpr ⟨(monthOf r.startedAt, r.queryId, r.bytesScanned.getD 0),
        List.mem_filter.mpr ⟨List.mem_map_of_mem (f := fun r : QueryRecord =>
          (monthOf r.startedAt, r.queryId, r.bytesScanned.getD 0)) hr, decide_eq_true hmonth⟩, rfl⟩
  · intro priced hpriced
    obtain rfl := Except.ok.inj (hpriced.symm.trans g.scanPrices)
    rw [hmodel, hbilled, w.chargesOf_priced.1, hnoStorage _ (by decide), List.sum_nil, add_zero]
  · intro priced hpriced
    obtain rfl := Except.ok.inj (hpriced.symm.trans g.computePrices)
    rw [hmodel, hbilled, w.chargesOf_priced.2, hnoStorage _ (by decide), List.sum_nil, add_zero]
  · intro views'
    have hgather' := gather_views hgather views'
    obtain ⟨_, _, _, _, g'⟩ := gathered_of_gather hgather'
    have w' := g'.within hids htables ⟨hwithin.compute, hwithin.storage, hwithin.priced⟩
    obtain ⟨table', htable', hbilled'⟩ := CostData.showback_adds_up w'.sound
    refine ⟨_, table', hgather', htable', fun model month => ?_, fun model => ?_⟩
    · rw [honly, hbilled, hbilled']
      rfl
    · rw [hmodel, hbilled, hbilled']
      rfl

/-! ### Two bills -/

/-- An exposure opened by two people of different teams. -/
private def sampleOwners : Owners where
  nodes := ⟨[], by decide, by decide⟩
  registry := ⟨[⟨"finance", "Finance", "#finance", ["ana"], none⟩,
    ⟨"sales", "Sales", "#sales", ["bo", "cy"], none⟩], []⟩

private def sampleRun (usdPerTib : ℚ) (hpositive : 0 < usdPerTib) (records : List QueryRecord) :
    CollectedRun where
  settings :=
    { throughputBytesPerSecond := 10 ^ 18
      perQueryOverheadMs := 100
      clickhouse := ⟨100, 10, by norm_num⟩
      scan := ⟨usdPerTib, 0, hpositive⟩
      compute := ⟨3, 2, 60, 60, fun actor => if actor = .dashboard then "bi" else "adhoc",
        by norm_num⟩ }
  records := records
  windowStart := Duration.hours (24 * 20514)
  windowDays := 3
  owners := sampleOwners
  relations := []
  snapshots := [(⟨2026, 3⟩, "raw.orders", 700), (⟨2026, 3⟩, "raw.items", 300)]

private def sampleViews : List View :=
  [(Duration.hours (24 * 20514), "exposure.shop.sales", "ana"),
    (Duration.hours (24 * 20514), "exposure.shop.sales", "bo"),
    (Duration.hours (24 * 20515), "exposure.shop.sales", "cy")]

/-- One query of each kind, and a refresh its viewers share. -/
private def sharedRefresh : CollectedRun :=
  sampleRun (25 / 4) (by norm_num)
    [⟨"q1", "ana", .adhoc, none, Duration.hours (24 * 20514), some (2 ^ 40 + 1), [], true, ""⟩,
      ⟨"q2", "metabase", .dashboard, some "exposure.shop.sales", Duration.hours (24 * 20514),
        some (10 ^ 9), [], true, ""⟩]

/-- Two queries that read 8 and 4 million TiB at a billion dollars each: so many bytes are still
recorded as a `bigint`. -/
private def hugeQueries : CollectedRun :=
  sampleRun (10 ^ 9) (by norm_num)
    [⟨"q1", "ana", .adhoc, none, Duration.hours (24 * 20514), some (8 * 10 ^ 6 * 2 ^ 40 + 1), [],
        true, ""⟩,
      ⟨"q2", "ana", .adhoc, none, Duration.hours (24 * 20514), some (4 * 10 ^ 6 * 2 ^ 40), [],
        true, ""⟩]

/-- A run's bill satisfies a check. -/
private def billChecked (run : CollectedRun) (views : List View)
    (check : CostData → List (ShowbackKey × ℚ) → List PricedQuery → Bool) : Bool :=
  match run.gather views, run.settings.scan.price run.estimates with
  | .ok data, .ok priced =>
    match data.showback with
    | .ok table => check data table priced
    | .error _ => false
  | _, _ => false

private theorem of_billChecked {run : CollectedRun} {views : List View}
    {check : CostData → List (ShowbackKey × ℚ) → List PricedQuery → Bool}
    (h : billChecked run views check = true) :
    ∃ data table priced, run.gather views = .ok data ∧ data.showback = .ok table ∧
      run.settings.scan.price run.estimates = .ok priced ∧ check data table priced = true := by
  unfold billChecked at h
  split at h
  · rename_i data priced hgather hpriced
    split at h
    · rename_i table htable
      exact ⟨data, table, priced, hgather, htable, hpriced, h⟩
    · cases h
  · cases h

/-- **A sum of more than 28 digits is rounded**: the two queries' prices take 29. -/
theorem bill_rounded :
    (hugeQueries.records.map QueryRecord.queryId).Nodup ∧
      (hugeQueries.snapshots.map fun s => (s.1, s.2.1)).Nodup ∧
      ∃ data table priced, hugeQueries.gather [] = .ok data ∧ data.showback = .ok table ∧
        hugeQueries.settings.scan.price hugeQueries.estimates = .ok priced ∧
        billed (fun key => key.model = .scan) table ≠ (priced.map PricedQuery.usd).sum := by
  have hchecked : billChecked hugeQueries [] (fun _ table priced =>
      billed (fun key => key.model = .scan) table ≠ (priced.map PricedQuery.usd).sum) = true := by
    decide +kernel
  obtain ⟨data, table, priced, hgather, htable, hpriced, hcheck⟩ := of_billChecked hchecked
  exact ⟨by decide, by decide, data, table, priced, hgather, htable, hpriced,
    of_decide_eq_true hcheck⟩

/-- No month's charges are larger than all of them. -/
private theorem chargesOf_le (data : CostData) (P : CostModel → Month → Bool) :
    (data.chargesOf P).sum ≤ size (data.charges.map fun c => c.2.2) := by
  have hsub : (data.chargesOf P).Sublist (data.charges.map fun c => c.2.2) :=
    List.Sublist.map _ List.filter_sublist
  exact (sum_le_size _).trans (size_le_of_sublist hsub)

/-- A query's cost and a refresh shared by two teams: March's showback is its pools. -/
theorem bill_adds_up_shared :
    ∃ data table, sharedRefresh.gather sampleViews = .ok data ∧ data.showback = .ok table ∧
      ∃ pool ∈ data.pools, billed (fun key => key.model = .cluster ∧ key.month = pool.month) table =
        pool.computeUsd + pool.storageUsd := by
  have hchecked : billChecked sharedRefresh sampleViews (fun data _ _ =>
      (data.pools.all fun pool => pool.month = ⟨2026, 3⟩ ∧
        pool.computeUsd + (usedIn sharedRefresh.read pool.month).length * unit ≤ limit ∧
        pool.storageUsd + (usedIn sharedRefresh.snapshots pool.month).length * unit ≤ limit) &&
      data.pools.length = 1 && decide (size (data.charges.map fun c => c.2.2) ≤ limit)) = true := by
    decide +kernel
  obtain ⟨data, _, _, hgather, -, -, hcheck⟩ := of_billChecked hchecked
  simp only [Bool.and_eq_true, List.all_eq_true, decide_eq_true_eq] at hcheck
  obtain ⟨⟨hpools, hone⟩, hsize⟩ := hcheck
  obtain ⟨table, htable, hcluster, -⟩ := bill_adds_up sharedRefresh sampleViews (by decide)
    (by decide) hgather
    ⟨fun pool hp => (hpools pool hp).2.1, fun pool hp => (hpools pool hp).2.2,
      fun model _ month => (chargesOf_le data _).trans hsize⟩
  obtain ⟨pool, hpool⟩ := List.length_pos_iff_exists_mem.mp (hone ▸ Nat.one_pos)
  refine ⟨data, table, hgather, htable, pool, hpool, hcluster pool hpool ?_ ?_⟩
  · rw [(hpools pool hpool).1]
    decide +kernel
  · rw [(hpools pool hpool).1]
    decide +kernel

end PlatformOps.Cost
