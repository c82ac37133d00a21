import Mathlib

/-!
# Layers of a Finite Directed Graph

A finite directed graph, and what a search against its edges sees level by
level. `Walk n a v` is a path of `n` edges from `a` down to `v`; the `k`-th
layer above `v` holds the nodes whose shortest path to `v` has `k` edges.

- `mem_expand`: one round of the search turns the `k`-th layer into the next.
- `ancestors`: the closure of those rounds, with `mem_ancestors`.
- `Acyclic.above_filter_lt`: in an acyclic graph, a step up leaves fewer nodes
  above, so a walk up through any choice of ancestors ends.
-/

/-- A finite directed graph: every edge joins two of its nodes. -/
structure FinDigraph (α : Type*) where
  nodes : List α
  /-- Edges, from parent to child. -/
  edges : List (α × α)
  closed : ∀ e ∈ edges, e.1 ∈ nodes ∧ e.2 ∈ nodes

namespace FinDigraph

variable {α : Type*} (g : FinDigraph α)

/-! ## Paths -/

/-- There is an edge from `a` to `v`. -/
def Adj (a v : α) : Prop := (a, v) ∈ g.edges

/-- A path of exactly `n` edges from `a` down to `v`. -/
inductive Walk : ℕ → α → α → Prop where
  | refl (v : α) : Walk 0 v v
  | step {n : ℕ} {a c v : α} : g.Adj a c → Walk n c v → Walk (n + 1) a v

/-- `a` is an ancestor of `v`. -/
def Above (a v : α) : Prop := Relation.TransGen g.Adj a v

/-- No node is its own ancestor. -/
def Acyclic : Prop := ∀ v, ¬ g.Above v v

variable {g}

theorem Above.trans {a b c : α} (hab : g.Above a b) (hbc : g.Above b c) : g.Above a c :=
  Relation.TransGen.trans hab hbc

theorem Above.right_mem {a v : α} (h : g.Above a v) : v ∈ g.nodes := by
  cases h with
  | single h => exact (g.closed _ h).2
  | tail _ h => exact (g.closed _ h).2

theorem Walk.above {n : ℕ} {a v : α} (h : g.Walk (n + 1) a v) : g.Above a v := by
  induction n generalizing a with
  | zero =>
    cases h with
    | step hadj hrest => cases hrest; exact .single hadj
  | succ n ih =>
    cases h with
    | step hadj hrest => exact .head hadj (ih hrest)

theorem Above.exists_walk {a v : α} (h : g.Above a v) : ∃ n, g.Walk (n + 1) a v := by
  induction h using Relation.TransGen.head_induction_on with
  | single h => exact ⟨0, .step h (.refl _)⟩
  | head h _ ih =>
    obtain ⟨n, hn⟩ := ih
    exact ⟨n + 1, .step h hn⟩

/-! ## Layers -/

variable (g) in
/-- `a` is in the `n`-th layer above `v`: its shortest path to `v` has `n` edges. -/
def AtLayer (v : α) (n : ℕ) (a : α) : Prop :=
  g.Walk n a v ∧ ∀ m < n, ¬ g.Walk m a v

/-- Every walk has a shortest one, no longer than it. -/
theorem Walk.exists_atLayer {n : ℕ} {a v : α} (h : g.Walk n a v) :
    ∃ m ≤ n, g.AtLayer v m a := by
  induction n using Nat.strong_induction_on with
  | _ n ih =>
    by_cases hshort : ∃ m < n, g.Walk m a v
    · obtain ⟨m, hm, hw⟩ := hshort
      obtain ⟨k, hk, hlayer⟩ := ih m hm hw
      exact ⟨k, by omega, hlayer⟩
    · exact ⟨n, le_rfl, h, fun m hm hw => hshort ⟨m, hm, hw⟩⟩

theorem atLayer_zero {v a : α} : g.AtLayer v 0 a ↔ a = v := by
  constructor
  · rintro ⟨h, -⟩
    cases h
    rfl
  · rintro rfl
    exact ⟨.refl _, fun m hm => absurd hm (by omega)⟩

theorem AtLayer.above {v a : α} {n : ℕ} (h : g.AtLayer v (n + 1) a) : g.Above a v :=
  h.1.above

/-- The node one step below a node of layer `n + 1` on its shortest path is in layer `n`. -/
theorem AtLayer.exists_child {v a : α} {n : ℕ} (h : g.AtLayer v (n + 1) a) :
    ∃ c, g.Adj a c ∧ g.AtLayer v n c := by
  obtain ⟨hwalk, hshort⟩ := h
  cases hwalk with
  | step hadj hrest =>
    exact ⟨_, hadj, hrest, fun m hm hw => hshort (m + 1) (by omega) (.step hadj hw)⟩

/-- Layers have no gaps: a nonempty layer has a nonempty layer below it. -/
theorem AtLayer.exists_lower {v a : α} {n : ℕ} (h : g.AtLayer v n a) {m : ℕ} (hm : m ≤ n) :
    ∃ c, g.AtLayer v m c := by
  induction n generalizing a with
  | zero => exact ⟨a, by rwa [Nat.le_zero.mp hm]⟩
  | succ n ih =>
    rcases Nat.lt_or_ge m (n + 1) with hlt | hge
    · obtain ⟨c, -, hc⟩ := h.exists_child
      exact ih hc (by omega)
    · exact ⟨a, by rwa [show m = n + 1 by omega]⟩

/-! ## Going up in an acyclic graph -/

/-- A numbering that grows along every edge shows that a graph is acyclic. -/
theorem acyclic_of_rank (rank : α → ℕ) (h : ∀ e ∈ g.edges, rank e.1 < rank e.2) : g.Acyclic := by
  have hup : ∀ {a v}, g.Above a v → rank a < rank v := by
    intro a v hav
    induction hav with
    | single hadj => exact h _ hadj
    | tail _ hadj ih => exact ih.trans (h _ hadj)
  exact fun v hv => lt_irrefl _ (hup hv)

/-- The ancestors of an ancestor are fewer: in an acyclic graph, what a step up
leaves above it within any list of nodes. -/
theorem Acyclic.above_filter_lt (hacyclic : g.Acyclic) {a v : α} (h : g.Above a v) {s : List α}
    [DecidableRel g.Above] (ha : a ∈ s) :
    (s.filter fun x => g.Above x a).length < (s.filter fun x => g.Above x v).length := by
  have hsub : (s.filter fun x => g.Above x a) =
      (s.filter fun x => g.Above x v).filter fun x => g.Above x a := by
    rw [List.filter_filter]
    refine List.filter_congr fun x _ => ?_
    by_cases hx : g.Above x a
    · simp [hx, hx.trans h]
    · simp [hx]
  rw [hsub]
  refine List.length_filter_lt_length_iff_exists.mpr ⟨a, ?_, by simpa using hacyclic a⟩
  simpa using ⟨ha, h⟩

/-! ## Rounds of a search -/

variable [DecidableEq α]

variable (g) in
/-- The parents of a node. -/
def predecessors (v : α) : List α :=
  (g.edges.filter fun e => e.2 = v).map Prod.fst

@[simp] theorem mem_predecessors {a v : α} : a ∈ g.predecessors v ↔ g.Adj a v := by
  simp [predecessors, Adj]

variable (g) in
/-- One round of the search: the parents of the frontier that were not seen yet. -/
def expand (frontier seen : List α) : List α :=
  ((frontier.flatMap g.predecessors).dedup).filter (· ∉ seen)

/-- If the frontier is layer `k` and the nodes seen are the layers up to `k`,
one round gives layer `k + 1`. -/
theorem mem_expand {v : α} {k : ℕ} {frontier seen : List α}
    (hfrontier : ∀ a, a ∈ frontier ↔ g.AtLayer v k a)
    (hseen : ∀ a, a ∈ seen ↔ ∃ m ≤ k, g.AtLayer v m a) (a : α) :
    a ∈ g.expand frontier seen ↔ g.AtLayer v (k + 1) a := by
  simp only [expand, List.mem_filter, List.mem_dedup, List.mem_flatMap, mem_predecessors,
    decide_eq_true_eq, hseen]
  constructor
  · rintro ⟨⟨c, hc, hadj⟩, hnew⟩
    refine ⟨.step hadj ((hfrontier c).mp hc).1, fun m hm hw => hnew ?_⟩
    obtain ⟨j, hj, hlayer⟩ := hw.exists_atLayer
    exact ⟨j, by omega, hlayer⟩
  · intro h
    obtain ⟨c, hadj, hc⟩ := h.exists_child
    exact ⟨⟨c, (hfrontier c).mpr hc, hadj⟩, fun ⟨m, hm, hlayer⟩ => h.2 m (by omega) hlayer.1⟩

theorem mem_append_expand {v : α} {k : ℕ} {frontier seen : List α}
    (hfrontier : ∀ a, a ∈ frontier ↔ g.AtLayer v k a)
    (hseen : ∀ a, a ∈ seen ↔ ∃ m ≤ k, g.AtLayer v m a) (a : α) :
    a ∈ seen ++ g.expand frontier seen ↔ ∃ m ≤ k + 1, g.AtLayer v m a := by
  rw [List.mem_append, hseen, mem_expand hfrontier hseen]
  constructor
  · rintro (⟨m, hm, h⟩ | h)
    · exact ⟨m, by omega, h⟩
    · exact ⟨k + 1, le_rfl, h⟩
  · rintro ⟨m, hm, h⟩
    rcases Nat.lt_or_ge m (k + 1) with hlt | hge
    · exact Or.inl ⟨m, by omega, h⟩
    · exact Or.inr (by rwa [show m = k + 1 by omega] at h)

/-- Each round that finds something leaves fewer nodes unseen: the measure the
searches stop by. -/
theorem unseen_lt {frontier seen : List α} (hne : g.expand frontier seen ≠ []) :
    (g.nodes.filter (· ∉ seen ++ g.expand frontier seen)).length <
      (g.nodes.filter (· ∉ seen)).length := by
  obtain ⟨a, ha⟩ := List.exists_mem_of_ne_nil _ hne
  have hnew : a ∉ seen := by simpa using (List.mem_filter.mp ha).2
  have hnode : a ∈ g.nodes := by
    obtain ⟨c, -, hadj⟩ := List.mem_flatMap.mp (List.mem_dedup.mp (List.mem_filter.mp ha).1)
    exact (g.closed _ (mem_predecessors.mp hadj)).1
  have hsub : (g.nodes.filter (· ∉ seen ++ g.expand frontier seen)) =
      (g.nodes.filter (· ∉ seen)).filter (· ∉ g.expand frontier seen) := by
    rw [List.filter_filter]
    refine List.filter_congr fun x _ => ?_
    simp [Bool.and_comm]
  rw [hsub]
  refine List.length_filter_lt_length_iff_exists.mpr ⟨a, ?_, by simpa using ha⟩
  simpa using ⟨hnode, hnew⟩

/-! ## Ancestors -/

variable (g) in
/-- The rounds of a search, each adding what the last one found, until a round
finds nothing (or `fuel` runs out). -/
def closure : ℕ → List α → List α → List α
  | 0, _, seen => seen
  | fuel + 1, frontier, seen =>
    let found := g.expand frontier seen
    if found.isEmpty then seen else closure fuel found (seen ++ found)

variable (g) in
/-- Every ancestor of `v`, not `v` itself. -/
def ancestors (v : α) : List α :=
  (g.closure (g.nodes.length + 1) [v] [v]).filter (· ≠ v)

/-- The loop rule of `closure`: enough fuel collects every layer. -/
private theorem mem_closure_aux {v : α} (fuel k : ℕ) (frontier seen : List α)
    (hfrontier : ∀ a, a ∈ frontier ↔ g.AtLayer v k a)
    (hseen : ∀ a, a ∈ seen ↔ ∃ m ≤ k, g.AtLayer v m a)
    (hfuel : (g.nodes.filter (· ∉ seen)).length < fuel) (a : α) :
    a ∈ g.closure fuel frontier seen ↔ ∃ m, g.AtLayer v m a := by
  induction fuel generalizing k frontier seen with
  | zero => omega
  | succ fuel ih =>
    simp only [closure]
    split
    · rename_i hempty
      rw [List.isEmpty_iff] at hempty
      rw [hseen]
      constructor
      · rintro ⟨m, -, h⟩
        exact ⟨m, h⟩
      · rintro ⟨m, h⟩
        -- a layer past `k` would need layer `k + 1`, which is empty
        by_contra hfar
        have hm : k + 1 ≤ m := by
          by_contra hle
          exact hfar ⟨m, by omega, h⟩
        obtain ⟨c, hc⟩ := h.exists_lower hm
        have hmem := (mem_expand hfrontier hseen c).mpr hc
        simp [hempty] at hmem
    · rename_i hsome
      have hne : g.expand frontier seen ≠ [] := by simpa [List.isEmpty_iff] using hsome
      refine ih (k + 1) _ _ (mem_expand hfrontier hseen) (mem_append_expand hfrontier hseen) ?_
      have hlt := unseen_lt hne
      omega

theorem mem_ancestors {a v : α} : a ∈ g.ancestors v ↔ a ≠ v ∧ g.Above a v := by
  have hbase : ∀ x, x ∈ [v] ↔ g.AtLayer v 0 x := fun x => by simp [atLayer_zero]
  have hseen : ∀ x, x ∈ [v] ↔ ∃ m ≤ 0, g.AtLayer v m x := fun x => by simp [atLayer_zero]
  have hfuel : (g.nodes.filter (· ∉ [v])).length < g.nodes.length + 1 :=
    Nat.lt_succ_of_le (List.length_filter_le _ _)
  have hclosure := mem_closure_aux (g.nodes.length + 1) 0 [v] [v] hbase hseen hfuel a
  simp only [ancestors, List.mem_filter, hclosure, decide_eq_true_eq, and_comm (b := a ≠ v)]
  refine and_congr_right fun hne => ?_
  constructor
  · rintro ⟨m, hm⟩
    cases m with
    | zero => exact absurd (atLayer_zero.mp hm) hne
    | succ m => exact hm.above
  · intro h
    obtain ⟨n, hn⟩ := h.exists_walk
    obtain ⟨m, -, hm⟩ := hn.exists_atLayer
    exact ⟨m, hm⟩

theorem Acyclic.mem_ancestors {a v : α} (hacyclic : g.Acyclic) :
    a ∈ g.ancestors v ↔ g.Above a v := by
  rw [FinDigraph.mem_ancestors]
  refine ⟨fun h => h.2, fun h => ⟨?_, h⟩⟩
  rintro rfl
  exact hacyclic _ h

end FinDigraph
