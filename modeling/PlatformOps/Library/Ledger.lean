import Mathlib

/-!
# Ledgers

A ledger is a list of rows that only grows, and holds one row for each key: a row
whose key is there already is left out (`INSERT … ON CONFLICT DO NOTHING`). What a
reader wants of it is often the last key of some kind. This file says how both fare
when rows are inserted one after the other.

- `insertNew`, `insertAll`: one row, several rows.
- `mem_insertAll_of_new`: what gets in.
- `lastOf`: the last key that satisfies a predicate.
- `lastOf_insertAll`: the last key after an insertion, when one of the inserted keys
  counts at most.
-/

namespace Ledger

variable {α κ : Type*} [DecidableEq κ] (key : α → κ)

/-- Insert a row, unless its key is taken. -/
def insertNew (rows : List α) (row : α) : List α :=
  if key row ∈ rows.map key then rows else rows ++ [row]

/-- Insert rows one after the other. -/
def insertAll (rows news : List α) : List α :=
  news.foldl (insertNew key) rows

/-- The last key that satisfies a predicate. -/
def lastOf (p : κ → Bool) (rows : List α) : Option κ :=
  ((rows.map key).filter p).getLast?

variable {key} {p : κ → Bool} {rows news : List α} {row : α}

theorem insertAll_cons :
    insertAll key rows (row :: news) = insertAll key (insertNew key rows row) news := rfl

theorem insertAll_append {more : List α} :
    insertAll key rows (news ++ more) = insertAll key (insertAll key rows news) more := by
  unfold insertAll
  rw [List.foldl_append]

/-- The keys after an insertion are the keys before it, and the row's. -/
theorem mem_keys_insertNew {k : κ} :
    k ∈ (insertNew key rows row).map key ↔ k ∈ rows.map key ∨ k = key row := by
  unfold insertNew
  split
  · rename_i htaken
    constructor
    · exact Or.inl
    · rintro (h | rfl)
      · exact h
      · exact htaken
  · simp only [List.map_append, List.map_cons, List.map_nil, List.mem_append, List.mem_singleton]

theorem mem_keys_insertAll {k : κ} :
    k ∈ (insertAll key rows news).map key ↔ k ∈ rows.map key ∨ k ∈ news.map key := by
  induction news generalizing rows with
  | nil => simp [insertAll]
  | cons row rest ih => rw [insertAll_cons, ih, mem_keys_insertNew, List.map_cons, List.mem_cons,
      or_assoc]

/-- What is in the ledger stays. -/
theorem mem_insertAll_of_mem {old : α} (h : old ∈ rows) : old ∈ insertAll key rows news := by
  induction news generalizing rows with
  | nil => exact h
  | cons row rest ih =>
    rw [insertAll_cons]
    apply ih
    unfold insertNew
    split
    · exact h
    · exact List.mem_append_left _ h

/-- Nothing else gets in than was there or inserted. -/
theorem mem_of_mem_insertAll (h : row ∈ insertAll key rows news) : row ∈ rows ∨ row ∈ news := by
  induction news generalizing rows with
  | nil => exact Or.inl h
  | cons row' rest ih =>
    rw [insertAll_cons] at h
    rcases ih h with h | h
    · unfold insertNew at h
      split at h
      · exact Or.inl h
      · rcases List.mem_append.mp h with h | h
        · exact Or.inl h
        · exact Or.inr (List.mem_singleton.mp h ▸ List.mem_cons_self ..)
    · exact Or.inr (List.mem_cons_of_mem _ h)

/-- A row gets in if its key is free, and no other row inserted has it. -/
theorem mem_insertAll_of_new (h : row ∈ news) (hfree : key row ∉ rows.map key)
    (hone : ∀ row' ∈ news, key row' = key row → row' = row) : row ∈ insertAll key rows news := by
  induction news generalizing rows with
  | nil => cases h
  | cons row' rest ih =>
    rw [insertAll_cons]
    by_cases hrow : key row' = key row
    · obtain rfl := hone row' (List.mem_cons_self ..) hrow
      -- once in, a row stays
      apply mem_insertAll_of_mem
      rw [insertNew, if_neg hfree]
      exact List.mem_append_right _ (List.mem_singleton_self _)
    · rw [List.mem_cons] at h
      have hne : row ≠ row' := by
        rintro rfl
        exact hrow rfl
      apply ih (h.resolve_left hne)
      · rw [mem_keys_insertNew, not_or]
        exact ⟨hfree, Ne.symm hrow⟩
      · intro row'' hrow''
        exact hone row'' (List.mem_cons_of_mem _ hrow'')

/-- The keys stay apart. -/
theorem nodup_keys_insertAll (h : (rows.map key).Nodup) :
    ((insertAll key rows news).map key).Nodup := by
  induction news generalizing rows with
  | nil => exact h
  | cons row rest ih =>
    rw [insertAll_cons]
    apply ih
    unfold insertNew
    split
    · exact h
    · rename_i hfree
      rw [List.map_append, List.nodup_append]
      refine ⟨h, by simp, ?_⟩
      rintro k hk k' hk' rfl
      rw [List.map_singleton, List.mem_singleton] at hk'
      exact hfree (hk' ▸ hk)

/-! ## The last key -/

/-- A key that does not count, or is taken, changes nothing. -/
theorem lastOf_insertNew_of_neg (h : p (key row) = true → key row ∈ rows.map key) :
    lastOf key p (insertNew key rows row) = lastOf key p rows := by
  unfold insertNew
  split
  · rfl
  · rename_i hfree
    have hneg : p (key row) = false := Bool.eq_false_iff.mpr (mt h hfree)
    unfold lastOf
    rw [List.map_append, List.filter_append, List.map_singleton, List.filter_singleton, hneg]
    simp

/-- A key that counts is the last one, if it was free. -/
theorem lastOf_insertNew_of_pos (h : p (key row) = true) (hfree : key row ∉ rows.map key) :
    lastOf key p (insertNew key rows row) = some (key row) := by
  rw [insertNew, if_neg hfree]
  unfold lastOf
  rw [List.map_append, List.filter_append, List.map_singleton, List.filter_singleton, h]
  simp

/-- Keys that do not count, or are taken, change nothing. -/
theorem lastOf_insertAll_of_neg (h : ∀ row ∈ news, p (key row) = true → key row ∈ rows.map key) :
    lastOf key p (insertAll key rows news) = lastOf key p rows := by
  induction news generalizing rows with
  | nil => rfl
  | cons row rest ih =>
    rw [insertAll_cons, ih, lastOf_insertNew_of_neg (h row (List.mem_cons_self ..))]
    intro row' hrow' hp
    exact mem_keys_insertNew.mpr (Or.inl (h row' (List.mem_cons_of_mem _ hrow') hp))

/-- **The last key after an insertion** of rows of which one key counts: that key, if it was
free. -/
theorem lastOf_insertAll {k : κ} (hk : p k = true) (hnew : k ∈ news.map key)
    (hone : ∀ row ∈ news, p (key row) = true → key row = k) :
    lastOf key p (insertAll key rows news) =
      if k ∈ rows.map key then lastOf key p rows else some k := by
  by_cases hfree : k ∈ rows.map key
  · rw [if_pos hfree]
    -- a taken key lets no row of its kind in
    apply lastOf_insertAll_of_neg
    intro row hrow hp
    exact hone row hrow hp ▸ hfree
  · rw [if_neg hfree]
    induction news generalizing rows with
    | nil => cases hnew
    | cons row rest ih =>
      rw [insertAll_cons]
      by_cases hrow : key row = k
      · -- from here on the key is taken
        rw [lastOf_insertAll_of_neg]
        · rw [lastOf_insertNew_of_pos (hrow ▸ hk) (hrow ▸ hfree), hrow]
        · intro row' hrow' hp
          rw [hone row' (List.mem_cons_of_mem _ hrow') hp]
          exact mem_keys_insertNew.mpr (Or.inr hrow.symm)
      · rw [List.map_cons, List.mem_cons] at hnew
        apply ih (hnew.resolve_left (Ne.symm hrow))
          fun row' hrow' => hone row' (List.mem_cons_of_mem _ hrow')
        rw [mem_keys_insertNew, not_or]
        exact ⟨hfree, Ne.symm hrow⟩

end Ledger
