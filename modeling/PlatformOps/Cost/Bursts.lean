import PlatformOps.Common.Text
import PlatformOps.Cost.Pricing

/-!
# Bursts

A warehouse's queries take their turns in the order they were submitted: a turn starts
when its query is submitted and the turn before has ended (`turns`). The bursts of a
warehouse cut this order into stretches (`LaidOut`), with more than the idle timeout
between the end of one and the start of the next.

A burst's queries pay for it in proportion to their modelled time. In exact arithmetic,
rounded once (`Arithmetic.exact`), what they pay adds up to the burst's cost within half a
unit of `10 ^ -12` dollars each.
-/

namespace PlatformOps.Cost

open Listing Decimals Fallible

/-! ## Turns -/

/-- One query on its warehouse. -/
structure Turn where
  query : EstimatedQuery
  start : ℤ

/-- A turn lasts as long as its query is modelled to. -/
def Turn.stop (turn : Turn) : ℤ := turn.start + turn.query.modeledMs

/-- One query at a time, on a warehouse that is free from some time on. -/
def turns : ℤ → List EstimatedQuery → List Turn
  | _, [] => []
  | free, query :: rest =>
    let start := max (ms query.startedAt) free
    ⟨query, start⟩ :: turns (start + query.modeledMs) rest

/-- When the warehouse is free again. -/
def freeAfter (free : ℤ) (queries : List EstimatedQuery) : ℤ :=
  queries.foldl (fun free query => max (ms query.startedAt) free + query.modeledMs) free

theorem le_freeAfter (queries : List EstimatedQuery) (free : ℤ) : free ≤ freeAfter free queries := by
  induction queries generalizing free with
  | nil => exact le_rfl
  | cons query rest ih =>
    have hrest := ih (max (ms query.startedAt) free + query.modeledMs)
    simp only [freeAfter, List.foldl_cons] at hrest ⊢
    omega

/-- No turn starts before its query is submitted, or before the warehouse is free. -/
theorem start_of_mem_turns {free : ℤ} {queries : List EstimatedQuery} {turn : Turn}
    (h : turn ∈ turns free queries) : ms turn.query.startedAt ≤ turn.start ∧ free ≤ turn.start := by
  induction queries generalizing free with
  | nil => cases h
  | cons query rest ih =>
    rcases List.mem_cons.mp h with rfl | h
    · exact ⟨le_max_left _ _, le_max_right _ _⟩
    · obtain ⟨hsubmitted, hfree⟩ := ih h
      refine ⟨hsubmitted, ?_⟩
      omega

/-- **Turns never overlap**: each ends before any later one starts. -/
theorem pairwise_turns (free : ℤ) (queries : List EstimatedQuery) :
    (turns free queries).Pairwise fun t u => t.stop ≤ u.start := by
  induction queries generalizing free with
  | nil => exact List.Pairwise.nil
  | cons query rest ih =>
    apply List.Pairwise.cons _ (ih _)
    intro u hu
    exact (start_of_mem_turns hu).2

/-- The last turn ends when the warehouse is free again. -/
theorem getLast?_turns {free : ℤ} {queries : List EstimatedQuery} (h : queries ≠ []) :
    (turns free queries).getLast?.map Turn.stop = some (freeAfter free queries) := by
  induction queries generalizing free with
  | nil => exact absurd rfl h
  | cons query rest ih =>
    cases rest with
    | nil => rfl
    | cons next rest =>
      have hrest := @ih (max (ms query.startedAt) free + query.modeledMs) (by simp)
      exact hrest

/-! ## Stretches -/

/-- A burst is a stretch of a warehouse's queries, laid out one after another. -/
structure Burst.LaidOut (burst : Burst) (stretch : List EstimatedQuery) : Prop where
  /-- These are its queries. -/
  holds : burst.queries = stretch.map fun q => (q.queryId, q.modeledMs)
  /-- It starts when the first one is submitted. -/
  first : (stretch.head?.map fun q => ms q.startedAt) = some burst.startedMs
  /-- It ends with the last turn. -/
  last : (turns burst.startedMs stretch).getLast?.map Turn.stop = some burst.lastEndMs
  /-- None starts before it was submitted. -/
  submitted : ∀ t ∈ turns burst.startedMs stretch, ms t.query.startedAt ≤ t.start
  /-- No two overlap. -/
  apart : (turns burst.startedMs stretch).Pairwise fun t u => t.stop ≤ u.start

section Stretch

variable {burst : Burst} {stretch : List EstimatedQuery}

theorem Burst.laidOut (holds : burst.queries = stretch.map fun q => (q.queryId, q.modeledMs))
    (first : (stretch.head?.map fun q => ms q.startedAt) = some burst.startedMs)
    (last : burst.lastEndMs = freeAfter burst.startedMs stretch) : burst.LaidOut stretch := by
  refine ⟨holds, first, ?_, fun t ht => (start_of_mem_turns ht).1, pairwise_turns _ _⟩
  have hne : stretch ≠ [] := by
    rintro rfl
    cases first
  rw [getLast?_turns hne, last]

theorem Burst.LaidOut.ne_nil (h : burst.LaidOut stretch) : stretch ≠ [] := by
  rintro rfl
  cases h.first

theorem Burst.LaidOut.lastEnd (h : burst.LaidOut stretch) :
    burst.lastEndMs = freeAfter burst.startedMs stretch := by
  have hlast := h.last
  rw [getLast?_turns h.ne_nil] at hlast
  exact (Option.some.inj hlast).symm

theorem Burst.LaidOut.started_le (h : burst.LaidOut stretch) :
    burst.startedMs ≤ burst.lastEndMs := by
  rw [h.lastEnd]
  exact le_freeAfter _ _

/-- A stretch of one query. -/
theorem Burst.laidOut_single (warehouse : String) (query : EstimatedQuery) :
    Burst.LaidOut ⟨warehouse, ms query.startedAt, ms query.startedAt + query.modeledMs,
      [(query.queryId, query.modeledMs)]⟩ [query] :=
  Burst.laidOut rfl rfl (by simp [freeAfter])

/-- The next query of a stretch has the next turn. -/
theorem Burst.LaidOut.extend (h : burst.LaidOut stretch) (query : EstimatedQuery) :
    Burst.LaidOut
      { burst with
        lastEndMs := max (ms query.startedAt) burst.lastEndMs + query.modeledMs
        queries := burst.queries ++ [(query.queryId, query.modeledMs)] } (stretch ++ [query]) := by
  apply Burst.laidOut
  · simp [h.holds]
  · have hfirst := h.first
    cases stretch with
    | nil => cases hfirst
    | cons first rest => exact hfirst
  · simp [freeAfter, h.lastEnd]

end Stretch

/-- More than the idle timeout is between two bursts. -/
def Burst.IdleBetween (idleMs : ℤ) (b c : Burst) : Prop := b.lastEndMs + idleMs < c.startedMs

/-- A warehouse's queries, cut into bursts. -/
structure CutInto (warehouse : String) (idleMs : ℤ) (queries : List EstimatedQuery)
    (bursts : List Burst) : Prop where
  /-- The bursts' stretches are the queries, in their order. -/
  stretches : ∃ stretches : List (Burst × List EstimatedQuery),
    stretches.map Prod.fst = bursts ∧ stretches.flatMap Prod.snd = queries ∧
      ∀ s ∈ stretches, s.1.LaidOut s.2
  idle : bursts.IsChain (Burst.IdleBetween idleMs)
  warehouse : ∀ b ∈ bursts, b.warehouse = warehouse

section Cut

variable {warehouse : String} {idleMs : ℤ} {queries : List EstimatedQuery} {bursts : List Burst}

theorem cutInto_nil : CutInto warehouse idleMs [] [] :=
  ⟨⟨[], rfl, rfl, by simp⟩, .nil, by simp⟩

/-- A query after the timeout starts a burst. -/
theorem CutInto.start (h : CutInto warehouse idleMs queries bursts) (query : EstimatedQuery)
    (hidle : ∀ b ∈ bursts.getLast?, b.lastEndMs + idleMs < ms query.startedAt) :
    CutInto warehouse idleMs (queries ++ [query]) (bursts ++ [⟨warehouse, ms query.startedAt,
      ms query.startedAt + query.modeledMs, [(query.queryId, query.modeledMs)]⟩]) := by
  -- a stretch of one query is added behind the others
  obtain ⟨stretches, rfl, hqueries, hlaid⟩ := h.stretches
  constructor
  · refine ⟨stretches ++ [(_, [query])], List.map_append, by simp [hqueries], ?_⟩
    intro s hs
    rcases List.mem_append.mp hs with hs | hs
    · exact hlaid s hs
    · rw [List.mem_singleton.mp hs]
      exact Burst.laidOut_single warehouse query
  · apply h.idle.append (.singleton _)
    intro b hb c hc
    obtain rfl := Option.some.inj hc
    exact hidle b hb
  · intro b hb
    rcases List.mem_append.mp hb with hb | hb
    · exact h.warehouse b hb
    · rw [List.mem_singleton.mp hb]

/-- A query before it continues the last burst. -/
theorem CutInto.continue {b : Burst} (h : CutInto warehouse idleMs queries (bursts ++ [b]))
    (query : EstimatedQuery) :
    CutInto warehouse idleMs (queries ++ [query]) (bursts ++ [{ b with
      lastEndMs := max (ms query.startedAt) b.lastEndMs + query.modeledMs
      queries := b.queries ++ [(query.queryId, query.modeledMs)] }]) := by
  -- the query is added to the last stretch
  obtain ⟨stretches, hbursts, hqueries, hlaid⟩ := h.stretches
  obtain ⟨before, last, rfl, rfl, hlast⟩ := List.map_eq_append_iff.mp hbursts
  obtain ⟨⟨b, stretch⟩, rfl, rfl⟩ := List.map_eq_singleton_iff.mp hlast
  have hlaidLast : b.LaidOut stretch := hlaid (b, stretch) (by simp)
  constructor
  · refine ⟨before ++ [(_, stretch ++ [query])], List.map_append, ?_, ?_⟩
    · simp [← hqueries]
    · intro s hs
      rcases List.mem_append.mp hs with hs | hs
      · exact hlaid s (List.mem_append_left _ hs)
      · rw [List.mem_singleton.mp hs]
        exact hlaidLast.extend query
  · -- the last burst starts when it did
    obtain ⟨hbefore, -, hbetween⟩ := List.isChain_append.mp h.idle
    apply hbefore.append (.singleton _)
    intro c hc d hd
    obtain rfl := Option.some.inj hd
    exact hbetween c hc b rfl
  · intro c hc
    rcases List.mem_append.mp hc with hc | hc
    · exact h.warehouse c (List.mem_append_left _ hc)
    · rw [List.mem_singleton.mp hc]
      exact h.warehouse b (by simp)

/-- The loop's state: what is closed now are the bursts of the queries laid out so far. -/
private structure Layout.Holds (warehouse : String) (idleMs : ℤ) (queries : List EstimatedQuery)
    (layout : Layout) : Prop where
  cut : CutInto warehouse idleMs queries (layout.close warehouse)
  fresh : layout.current = [] → layout.bursts = []

/-- **One query is laid out.** -/
private theorem Layout.Holds.add {layout : Layout} (h : layout.Holds warehouse idleMs queries)
    (query : EstimatedQuery) :
    (layout.add warehouse idleMs query).Holds warehouse idleMs (queries ++ [query]) := by
  have hcut := h.cut
  unfold Layout.close at hcut
  by_cases hfresh : layout.current = []
  · -- the first query of all
    have hbursts := h.fresh hfresh
    rw [if_pos hfresh, hbursts] at hcut
    have hstart := hcut.start query (by simp)
    constructor
    · simpa [Layout.add, Layout.close, Layout.run, Layout.start, Layout.cut, hfresh, hbursts]
        using hstart
    · simp [Layout.add, Layout.run]
  · rw [if_neg hfresh] at hcut
    by_cases hidle : ms query.startedAt > layout.lastEnd + idleMs
    · -- the warehouse has stopped, and starts again
      have hstart := hcut.start query (by simpa [Layout.cut] using hidle)
      constructor
      · simpa [Layout.add, Layout.close, Layout.run, Layout.start, Layout.cut, hfresh, hidle]
          using hstart
      · simp [Layout.add, Layout.run]
    · -- the burst goes on
      have hcontinue := CutInto.continue hcut query
      constructor
      · simpa [Layout.add, Layout.close, Layout.run, Layout.cut, hfresh, hidle] using hcontinue
      · simp [Layout.add, Layout.run]

/-- **The bursts of a warehouse cut its queries**, in the order they were submitted. -/
theorem ComputeRates.cutInto_burstsOf (rates : ComputeRates) (warehouse : String)
    (queries : List EstimatedQuery) :
    CutInto warehouse (rates.idleTimeoutSeconds * 1000)
      (sortBy (fun q : EstimatedQuery => toLex (q.startedAt, q.queryId)) queries)
      (rates.burstsOf warehouse queries) := by
  have hfold : ∀ (rest before : List EstimatedQuery) (layout : Layout),
      layout.Holds warehouse (rates.idleTimeoutSeconds * 1000) before →
        (rest.foldl (Layout.add warehouse (rates.idleTimeoutSeconds * 1000)) layout).Holds
          warehouse (rates.idleTimeoutSeconds * 1000) (before ++ rest) := by
    intro rest
    induction rest with
    | nil => exact fun before layout h => by simpa using h
    | cons query rest ih =>
      intro before layout h
      have hrest := ih (before ++ [query]) _ (h.add query)
      rwa [List.append_assoc] at hrest
  -- before the first query nothing is open
  have hempty : Layout.Holds warehouse (rates.idleTimeoutSeconds * 1000) [] {} :=
    ⟨cutInto_nil, fun _ => rfl⟩
  exact (hfold _ [] {} hempty).cut

end Cut

/-! ## Burst ids -/

/-- What names a burst. -/
def Burst.id (burst : Burst) : String := burst.warehouse ++ "@" ++ toString burst.startedMs

/-- What the queries of a burst pay, in a priced list. -/
def Burst.paidIn (burst : Burst) (priced : List PricedQuery) : List PricedQuery :=
  priced.filter fun p => p.burst = some burst.id

/-- A burst's id tells its warehouse and when it started. -/
theorem Burst.id_inj {b c : Burst} (h : b.id = c.id) :
    b.warehouse = c.warehouse ∧ b.startedMs = c.startedMs := by
  have hat : ∀ z : ℤ, '@' ∉ (toString z).toList := by
    intro z hmem
    rcases mem_toString_int hmem with h | h <;> revert h <;> decide
  have hlist := congrArg String.toList h
  have hsplit : ∀ b : Burst, b.id.toList =
      b.warehouse.toList ++ '@' :: (toString b.startedMs).toList := by
    intro b
    simp [Burst.id, String.toList_append]
  rw [hsplit, hsplit, append_cons_inj_of_last (hat _) (hat _)] at hlist
  exact ⟨String.toList_injective hlist.1, Int.repr_injective (String.toList_injective hlist.2)⟩

/-- The bursts of a warehouse start one after the other. -/
theorem CutInto.pairwise_started {warehouse : String} {idleMs : ℤ} (hidle : 0 ≤ idleMs)
    {queries : List EstimatedQuery} {bursts : List Burst}
    (h : CutInto warehouse idleMs queries bursts) :
    bursts.Pairwise fun b c => b.startedMs < c.startedMs := by
  have hle : ∀ b ∈ bursts, b.startedMs ≤ b.lastEndMs := by
    obtain ⟨stretches, rfl, -, hlaid⟩ := h.stretches
    intro b hb
    obtain ⟨s, hs, rfl⟩ := List.mem_map.mp hb
    exact (hlaid s hs).started_le
  have htrans : IsTrans Burst fun b c => b.startedMs < c.startedMs := ⟨fun _ _ _ => lt_trans⟩
  rw [← List.isChain_iff_pairwise]
  apply h.idle.imp_of_mem_imp
  intro b c hb _ hbetween
  have hstarted := hle b hb
  unfold Burst.IdleBetween at hbetween
  omega

/-- The bursts of one warehouse among all. -/
def burstsAt (warehouse : String) (bursts : List Burst) : List Burst :=
  bursts.filter fun b => b.warehouse = warehouse

section Bursts

variable (rates : ComputeRates) {queries : List EstimatedQuery}

/-- A warehouse's bursts are those of its own queries. -/
theorem ComputeRates.burstsAt_bursts (warehouse : String) (queries : List EstimatedQuery) :
    burstsAt warehouse (rates.bursts queries) = rates.burstsOf warehouse
      (queries.filter fun q => rates.warehouses q.actorType = warehouse) := by
  have hat : ∀ group : String × List EstimatedQuery, burstsAt warehouse
      (rates.burstsOf group.1 group.2) =
        if group.1 = warehouse then rates.burstsOf group.1 group.2 else [] := by
    intro group
    have hat := (rates.cutInto_burstsOf group.1 group.2).warehouse
    unfold burstsAt
    split
    · rename_i heq
      rw [List.filter_eq_self]
      intro b hb
      exact decide_eq_true ((hat b hb).trans heq)
    · rename_i hne
      rw [List.filter_eq_nil_iff]
      intro b hb heq
      exact hne ((hat b hb).symm.trans (of_decide_eq_true heq))
  set groups := groupBy (fun q => rates.warehouses q.actorType) queries
  have hperm := perm_sortBy Prod.fst groups
  have hkeys : ((sortBy Prod.fst groups).map Prod.fst).Nodup :=
    (hperm.map Prod.fst).nodup_iff.mpr (nodup_keys_groupBy _ _)
  have hgroup : ∀ group ∈ sortBy Prod.fst groups,
      group.2 = queries.filter fun q => rates.warehouses q.actorType = group.1 :=
    fun group hgroup => of_mem_groupBy (hperm.mem_iff.mp hgroup)
  have hflat : burstsAt warehouse (rates.bursts queries) = (sortBy Prod.fst groups).flatMap
      fun group => burstsAt warehouse (rates.burstsOf group.1 group.2) :=
    List.filter_flatMap
  rw [hflat]
  by_cases hmem : warehouse ∈ (sortBy Prod.fst groups).map Prod.fst
  · obtain ⟨⟨key, own⟩, hown, rfl⟩ := List.mem_map.mp hmem
    have hvalue := hgroup _ hown
    obtain ⟨before, after, hsplit⟩ := List.append_of_mem hown
    rw [hsplit, List.map_append, List.map_cons, List.nodup_append, List.nodup_cons] at hkeys
    obtain ⟨-, ⟨hafter, -⟩, hbefore⟩ := hkeys
    -- the other groups have none of its bursts
    have hother : ∀ l : List (String × List EstimatedQuery), key ∉ l.map Prod.fst →
        l.flatMap (fun group => burstsAt key (rates.burstsOf group.1 group.2)) = [] := by
      intro l hl
      rw [List.flatMap_eq_nil_iff]
      intro group hgroup
      rw [hat, if_neg]
      rintro rfl
      exact hl (List.mem_map_of_mem hgroup)
    rw [hsplit, List.flatMap_append, List.flatMap_cons, hother after hafter, hother before, hat,
      if_pos rfl, List.nil_append, List.append_nil, hvalue]
    intro hkey
    exact hbefore key hkey key (List.mem_cons_self ..) rfl
  · have hnone : (queries.filter fun q => rates.warehouses q.actorType = warehouse) = [] := by
      rw [List.filter_eq_nil_iff]
      intro q hq heq
      apply hmem
      rw [(hperm.map Prod.fst).mem_iff]
      exact mem_keys_groupBy.mpr ⟨q, hq, of_decide_eq_true heq⟩
    rw [hnone, List.flatMap_eq_nil_iff.mpr]
    · rfl
    · intro group hgroup
      rw [hat, if_neg]
      rintro rfl
      exact hmem (List.mem_map_of_mem hgroup)

/-- **No two bursts have one id.** -/
theorem ComputeRates.nodup_ids (queries : List EstimatedQuery) :
    ((rates.bursts queries).map Burst.id).Nodup := by
  rw [List.nodup_iff_sublist]
  intro id hsub
  obtain ⟨pair, hpair, hids⟩ := List.sublist_map_iff.mp hsub
  obtain ⟨b, rest, rfl, hb, hrest⟩ := List.map_eq_cons_iff.mp hids.symm
  obtain ⟨c, rest, rfl, hc, hnil⟩ := List.map_eq_cons_iff.mp hrest
  obtain rfl := List.map_eq_nil_iff.mp hnil
  obtain ⟨hwarehouse, hstarted⟩ := Burst.id_inj (hb.trans hc.symm)
  -- both are bursts of one warehouse, and start apart
  have hsubAt : [b, c].Sublist (burstsAt b.warehouse (rates.bursts queries)) := by
    have hfilter := hpair.filter fun d => d.warehouse = b.warehouse
    simpa [burstsAt, hwarehouse] using hfilter
  rw [rates.burstsAt_bursts] at hsubAt
  have hpairwise := ((rates.cutInto_burstsOf _ _).pairwise_started (by positivity)).sublist hsubAt
  have hlt := (List.pairwise_cons.mp hpairwise).1 c (List.mem_cons_self ..)
  omega

/-- **The bursts do not depend on the order of the queries.** -/
theorem ComputeRates.bursts_perm {queries' : List EstimatedQuery} (hperm : queries'.Perm queries)
    (hids : (queries.map EstimatedQuery.queryId).Nodup) :
    rates.bursts queries' = rates.bursts queries := by
  have hkeys : ∀ l : List EstimatedQuery, rates.bursts l =
      ((sortBy Prod.fst (groupBy (fun q => rates.warehouses q.actorType) l)).map Prod.fst).flatMap
        fun key => rates.burstsOf key (l.filter fun q => rates.warehouses q.actorType = key) := by
    intro l
    unfold bursts
    rw [List.flatMap_map]
    apply List.flatMap_congr
    intro group hgroup
    rw [of_mem_groupBy (mem_sortBy.mp hgroup)]
  have hsame : (sortBy Prod.fst (groupBy (fun q => rates.warehouses q.actorType) queries')).map
      Prod.fst =
      (sortBy Prod.fst (groupBy (fun q => rates.warehouses q.actorType) queries)).map Prod.fst := by
    apply map_sortBy_eq_of_perm
    rw [List.perm_ext_iff_of_nodup (nodup_keys_groupBy _ _) (nodup_keys_groupBy _ _)]
    intro key
    simp only [mem_keys_groupBy, hperm.mem_iff]
  rw [hkeys, hkeys, hsame]
  apply List.flatMap_congr
  intro key _
  unfold burstsOf
  -- ids tell apart the queries that were submitted together
  rw [sortBy_eq_of_perm (hperm.filter _)]
  intro a ha b hb hkey
  have hid : a.queryId = b.queryId := congrArg (fun k => (ofLex k).2) hkey
  have hmem : ∀ q ∈ queries'.filter fun q => rates.warehouses q.actorType = key, q ∈ queries :=
    fun q hq => hperm.mem_iff.mp (List.mem_filter.mp hq).1
  exact List.inj_on_of_nodup_map hids (hmem a ha) (hmem b hb) hid

end Bursts

/-! ## What a burst's queries pay -/

/-- How amounts are computed: what an operation returns for its exact result, and how an amount is
put on the grid of 12 decimals. -/
structure Arithmetic where
  result : ℚ → ℚ
  quantized : ℚ → Except String ℚ

namespace Arithmetic

/-- The default context: every operation keeps 28 digits. -/
def context : Arithmetic := ⟨inContext precision, toMicro⟩

/-- Exact rationals, rounded once. -/
def exact : Arithmetic := ⟨id, fun x => .ok (halfEven (x * 10 ^ places) / 10 ^ places)⟩

end Arithmetic

namespace ComputeRates

variable (rates : ComputeRates) (arithmetic : Arithmetic)

/-- `priceOf`, in an arithmetic. -/
def priceOfIn (burst : Burst) (query : String × ℕ) : Except String PricedQuery := do
  let seconds := rates.burstSeconds burst
  let perSecond := arithmetic.result
    (arithmetic.result (rates.creditsPerHour * rates.usdPerCredit) / 3600)
  let cost := arithmetic.result (seconds * perSecond)
  let totalMs := (burst.queries.map Prod.snd).sum
  let share := if totalMs = 0 then 0
    else arithmetic.result (arithmetic.result (cost * query.2) / totalMs)
  let usd ← arithmetic.quantized share
  return {
    queryId := query.1
    model := .compute
    usd := usd
    billedMs := if totalMs = 0 then 0 else seconds * 1000 * query.2 / totalMs
    warehouse := some burst.warehouse
    burst := some burst.id }

/-- `price`, in an arithmetic. -/
def priceIn (queries : List EstimatedQuery) : Except String (List PricedQuery) := do
  let priced ← (rates.bursts queries).mapM fun burst =>
    burst.queries.mapM (rates.priceOfIn arithmetic burst)
  return sortBy PricedQuery.queryId priced.flatten

/-- `price` computes in the default context. -/
theorem price_eq_priceIn (queries : List EstimatedQuery) :
    rates.price queries = rates.priceIn .context queries := by
  rw [price, priceIn]
  rfl

/-- What a burst costs, exactly. -/
def exactCost (burst : Burst) : ℚ :=
  rates.burstSeconds burst * (rates.creditsPerHour * rates.usdPerCredit / 3600)

/-- What a query of a burst pays, rounded once. -/
def exactPriceOf (burst : Burst) (query : String × ℕ) : PricedQuery :=
  let totalMs := (burst.queries.map Prod.snd).sum
  let share := if totalMs = 0 then 0 else rates.exactCost burst * query.2 / totalMs
  { queryId := query.1
    model := .compute
    usd := halfEven (share * 10 ^ places) / 10 ^ places
    billedMs := if totalMs = 0 then 0 else rates.burstSeconds burst * 1000 * query.2 / totalMs
    warehouse := some burst.warehouse
    burst := some burst.id }

/-- Exact amounts never run out of digits. -/
theorem priceIn_exact (queries : List EstimatedQuery) :
    rates.priceIn .exact queries = .ok (sortBy PricedQuery.queryId
      ((rates.bursts queries).flatMap fun b => b.queries.map (rates.exactPriceOf b))) := by
  have hburst : ∀ b : Burst, b.queries.mapM (rates.priceOfIn .exact b) =
      .ok (b.queries.map (rates.exactPriceOf b)) := by
    intro b
    rw [mapM_eq_ok_iff, List.forall₂_map_right_iff, List.forall₂_same]
    exact fun query _ => rfl
  have hall : ((rates.bursts queries).mapM fun b => b.queries.mapM (rates.priceOfIn .exact b)) =
      .ok ((rates.bursts queries).map fun b => b.queries.map (rates.exactPriceOf b)) := by
    rw [mapM_eq_ok_iff, List.forall₂_map_right_iff, List.forall₂_same]
    exact fun b _ => hburst b
  unfold priceIn
  rw [hall, List.flatMap_def]
  rfl

variable {rates arithmetic}

/-- Rounded shares are off by half a unit each. -/
private theorem abs_sum_rounded_sub_le (shares : List ℚ) :
    |(shares.map fun x => (halfEven (x * 10 ^ places) : ℚ) / 10 ^ places).sum - shares.sum| ≤
      shares.length * (unit / 2) := by
  have hscale : (0 : ℚ) < 10 ^ places := by positivity
  induction shares with
  | nil => simp
  | cons x rest ih =>
    -- one share is off by half a unit at most
    have hone : |(halfEven (x * 10 ^ places) : ℚ) / 10 ^ places - x| ≤ unit / 2 := by
      have hmove := abs_halfEven_sub_le (x * 10 ^ places)
      have hdiff : (halfEven (x * 10 ^ places) : ℚ) / 10 ^ places - x =
          (halfEven (x * 10 ^ places) - x * 10 ^ places) / 10 ^ places := by
        field_simp
      rw [hdiff, abs_div, abs_of_pos hscale, div_le_iff₀ hscale]
      refine hmove.trans_eq ?_
      norm_num [unit, places]
    rw [List.map_cons, List.sum_cons, List.sum_cons, List.length_cons]
    have hsplit : ∀ a b c d : ℚ, a + b - (c + d) = (a - c) + (b - d) := by
      intro a b c d
      ring
    rw [hsplit]
    push_cast
    linarith [abs_add_le ((halfEven (x * 10 ^ places) : ℚ) / 10 ^ places - x)
      ((rest.map fun x => (halfEven (x * 10 ^ places) : ℚ) / 10 ^ places).sum - rest.sum)]

/-- Whole parts of an amount do not add up to more than it. -/
private theorem sum_div_le (amount : ℤ) (parts : List ℕ) (hpos : 0 < parts.sum) :
    (parts.map fun part : ℕ => amount * (part : ℤ) / (parts.sum : ℕ)).sum ≤ amount := by
  have hpos' : (0 : ℤ) < (parts.sum : ℕ) := by exact_mod_cast hpos
  have hgen : ∀ l : List ℕ, ((parts.sum : ℕ) : ℤ) *
      (l.map fun part : ℕ => amount * (part : ℤ) / (parts.sum : ℕ)).sum ≤
        amount * (l.sum : ℕ) := by
    intro l
    induction l with
    | nil => simp
    | cons part rest ih =>
      have hpart := Int.mul_ediv_self_le (x := amount * part) hpos'.ne'
      rw [List.map_cons, List.sum_cons, List.sum_cons, Nat.cast_add, mul_add, mul_add]
      exact add_le_add hpart ih
  have hall := hgen parts
  rw [mul_comm amount] at hall
  exact le_of_mul_le_mul_left hall hpos'

/-- **What a burst's queries pay adds up to its cost**, within half a unit each, and the time they
are billed to no more than its seconds. -/
theorem exactPriceOf_adds_up {burst : Burst} (hpos : 0 < (burst.queries.map Prod.snd).sum) :
    |((burst.queries.map (rates.exactPriceOf burst)).map PricedQuery.usd).sum -
        rates.exactCost burst| ≤ burst.queries.length * (unit / 2) ∧
      ((burst.queries.map (rates.exactPriceOf burst)).map PricedQuery.billedMs).sum ≤
        rates.burstSeconds burst * 1000 := by
  set totalMs := (burst.queries.map Prod.snd).sum with htotal
  constructor
  · have hrounded := abs_sum_rounded_sub_le
      (burst.queries.map fun query => rates.exactCost burst * query.2 / totalMs)
    -- before rounding the shares are the whole cost
    have hshares : (burst.queries.map fun query => rates.exactCost burst * query.2 / totalMs).sum =
        rates.exactCost burst := by
      have hgen : ∀ l : List (String × ℕ),
          (l.map fun query => rates.exactCost burst * query.2 / totalMs).sum =
            rates.exactCost burst * ((l.map Prod.snd).sum : ℕ) / totalMs := by
        intro l
        induction l with
        | nil => simp
        | cons query rest ih =>
          simp only [List.map_cons, List.sum_cons, ih]
          push_cast
          ring
      have hpos' : (totalMs : ℚ) ≠ 0 := by exact_mod_cast hpos.ne'
      rw [hgen, ← htotal, mul_div_cancel_right₀ _ hpos']
    rw [hshares, List.length_map, List.map_map] at hrounded
    rw [List.map_map]
    have husd : burst.queries.map (PricedQuery.usd ∘ rates.exactPriceOf burst) =
        burst.queries.map ((fun x : ℚ => (halfEven (x * 10 ^ places) : ℚ) / 10 ^ places) ∘
          fun query => rates.exactCost burst * query.2 / totalMs) := by
      apply List.map_congr_left
      intro query _
      simp only [Function.comp_apply, exactPriceOf, ← htotal, hpos.ne', if_false]
    rw [husd]
    exact hrounded
  · have hbilled := sum_div_le (rates.burstSeconds burst * 1000) (burst.queries.map Prod.snd) hpos
    rw [List.map_map] at hbilled ⊢
    -- the billed seconds are cut down, so they add up to no more
    have hms : burst.queries.map (PricedQuery.billedMs ∘ rates.exactPriceOf burst) =
        burst.queries.map ((fun part : ℕ => rates.burstSeconds burst * 1000 * (part : ℤ) /
          (burst.queries.map Prod.snd).sum) ∘ Prod.snd) := by
      apply List.map_congr_left
      intro query _
      simp only [Function.comp_apply, exactPriceOf, ← htotal, hpos.ne', if_false]
    rw [hms]
    exact hbilled

/-- The priced queries with a burst's id are those of the burst. -/
theorem paidIn_perm {queries : List EstimatedQuery} {burst : Burst}
    (hburst : burst ∈ rates.bursts queries) :
    (burst.paidIn (sortBy PricedQuery.queryId
      ((rates.bursts queries).flatMap fun b => b.queries.map (rates.exactPriceOf b)))).Perm
        (burst.queries.map (rates.exactPriceOf burst)) := by
  have hnodup := rates.nodup_ids queries
  obtain ⟨before, after, hsplit⟩ := List.append_of_mem hburst
  rw [hsplit, List.map_append, List.map_cons, List.nodup_append, List.nodup_cons] at hnodup
  obtain ⟨-, ⟨hafter, -⟩, hbefore⟩ := hnodup
  -- no other burst has this one's id
  have hother : ∀ l : List Burst, burst.id ∉ l.map Burst.id →
      (l.flatMap fun b => b.queries.map (rates.exactPriceOf b)).filter
        (fun p => p.burst = some burst.id) = [] := by
    intro l hl
    rw [List.filter_eq_nil_iff]
    intro p hp heq
    obtain ⟨b, hb, hp⟩ := List.mem_flatMap.mp hp
    obtain ⟨query, -, rfl⟩ := List.mem_map.mp hp
    have hid : b.id = burst.id := Option.some.inj (of_decide_eq_true heq)
    exact hl (hid ▸ List.mem_map_of_mem hb)
  have hown : (burst.queries.map (rates.exactPriceOf burst)).filter
      (fun p => p.burst = some burst.id) = burst.queries.map (rates.exactPriceOf burst) := by
    rw [List.filter_eq_self]
    intro p hp
    obtain ⟨query, -, rfl⟩ := List.mem_map.mp hp
    exact decide_eq_true rfl
  refine ((perm_sortBy _ _).filter _).trans ?_
  rw [hsplit, List.flatMap_append, List.flatMap_cons, List.filter_append, List.filter_append,
    hother after hafter, hown, hother before, List.nil_append, List.append_nil]
  intro hmem
  exact hbefore _ hmem _ (List.mem_cons_self ..) rfl

end ComputeRates

/-- **Burst pricing is exact**: the bursts cut each warehouse's queries, taking turns in the order
they were submitted, with more than the idle timeout between two bursts; no two bursts have one id;
what a burst's queries pay adds up to its cost within half a unit each, and their time to no more
than its seconds; and nothing depends on the order of the queries. -/
theorem burst_pricing (rates : ComputeRates) {queries : List EstimatedQuery}
    (hids : (queries.map EstimatedQuery.queryId).Nodup) :
    (∀ warehouse, CutInto warehouse (rates.idleTimeoutSeconds * 1000)
        (sortBy (fun q : EstimatedQuery => toLex (q.startedAt, q.queryId))
          (queries.filter fun q => rates.warehouses q.actorType = warehouse))
        (burstsAt warehouse (rates.bursts queries))) ∧
      ((rates.bursts queries).map Burst.id).Nodup ∧
      (∃ priced, rates.priceIn .exact queries = .ok priced ∧
        ∀ burst ∈ rates.bursts queries, 0 < (burst.queries.map Prod.snd).sum →
          ((burst.paidIn priced).map PricedQuery.queryId).Perm
              (burst.queries.map Prod.fst) ∧
            |((burst.paidIn priced).map PricedQuery.usd).sum - rates.exactCost burst| ≤
              burst.queries.length * (unit / 2) ∧
            ((burst.paidIn priced).map PricedQuery.billedMs).sum ≤
              rates.burstSeconds burst * 1000) ∧
      ∀ (arithmetic : Arithmetic) (queries' : List EstimatedQuery), queries'.Perm queries →
        rates.priceIn arithmetic queries' = rates.priceIn arithmetic queries := by
  refine ⟨?_, rates.nodup_ids queries, ⟨_, rates.priceIn_exact queries, ?_⟩, ?_⟩
  · intro warehouse
    rw [rates.burstsAt_bursts]
    exact rates.cutInto_burstsOf _ _
  · intro burst hburst hpos
    have hpaid := ComputeRates.paidIn_perm hburst
    obtain ⟨husd, hbilled⟩ := @ComputeRates.exactPriceOf_adds_up rates burst hpos
    refine ⟨?_, ?_, ?_⟩
    · refine (hpaid.map _).trans ?_
      rw [List.map_map]
      exact List.Perm.of_eq (List.map_congr_left fun query _ => rfl)
    · rwa [(hpaid.map PricedQuery.usd).sum_eq]
    · rwa [(hpaid.map PricedQuery.billedMs).sum_eq]
  · intro arithmetic queries' hperm
    unfold ComputeRates.priceIn
    rw [rates.bursts_perm hperm hids]

/-- Three credits a second for each warehouse, which stops after a minute. -/
def minuteRates : ComputeRates where
  usdPerCredit := 3
  creditsPerHour := 3600
  minimumBilledSeconds := 60
  idleTimeoutSeconds := 60
  warehouses := fun
    | .dashboard | .adhoc => "bi_wh"
    | _ => "transform_wh"
  positive := by norm_num

/-- Two models are built at once, a third one two minutes later. -/
def threeBuilds : List EstimatedQuery :=
  [⟨"c", .dbt, Duration.seconds 120, 1000, []⟩, ⟨"b", .dbt, 0, 2000, []⟩, ⟨"a", .dbt, 0, 1000, []⟩]

example : minuteRates.bursts threeBuilds =
    [⟨"transform_wh", 0, 3000, [("a", 1000), ("b", 2000)]⟩,
      ⟨"transform_wh", 120000, 121000, [("c", 1000)]⟩] := by decide +kernel

theorem burst_pricing_threeBuilds : ((minuteRates.bursts threeBuilds).map Burst.id).Nodup :=
  (burst_pricing minuteRates (by decide)).2.1

end PlatformOps.Cost
