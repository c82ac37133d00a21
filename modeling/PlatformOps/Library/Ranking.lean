import PlatformOps.Library.Listing

/-!
# Choosing by a Rank

A listing ordered by a key that refines a rank starts with an element of the least
rank, and that element is the only one exactly if the second one's rank differs.
The key settles the order of a tie; it never decides whether there is one.
-/

namespace Ranking

open Listing

variable {α κ ι : Type*} [LinearOrder κ] [LinearOrder ι] {rank : α → κ} {key : α → ι}
  {l l' : List α} {a b : α}

/-- No element of the list has a smaller rank. -/
structure Best (rank : α → κ) (l : List α) (a : α) : Prop where
  mem : a ∈ l
  le : ∀ b ∈ l, rank a ≤ rank b

/-- It is the only one. -/
structure SoleBest (rank : α → κ) (l : List α) (a : α) : Prop extends Best rank l a where
  only : ∀ b, Best rank l b → b = a

/-- The first two have one rank. -/
def tied (rank : α → κ) : List α → Bool
  | first :: second :: _ => rank first = rank second
  | _ => false

theorem Best.of_perm (h : Best rank l a) (hperm : l.Perm l') : Best rank l' a where
  mem := hperm.mem_iff.mp h.mem
  le := fun b hb => h.le b (hperm.mem_iff.mpr hb)

/-- The first of the listing is a best one. -/
theorem best_of_head? (hrefines : ∀ a b, key a ≤ key b → rank a ≤ rank b)
    (h : (sortBy key l).head? = some a) : Best rank l a := by
  obtain ⟨rest, hrest⟩ := List.head?_eq_some_iff.mp h
  have hsorted := pairwise_sortBy key l
  rw [hrest, List.pairwise_cons] at hsorted
  refine Best.of_perm ⟨List.mem_cons_self .., ?_⟩ (hrest ▸ perm_sortBy key l)
  intro b hb
  rcases List.mem_cons.mp hb with rfl | hb
  · exact le_rfl
  · exact hrefines a b (hsorted.1 b hb)

/-- **The first of the listing is the only best one** exactly if the second is not its equal. -/
theorem tied_eq_false_iff (hrefines : ∀ a b, key a ≤ key b → rank a ≤ rank b) (hnodup : l.Nodup)
    (h : (sortBy key l).head? = some a) :
    tied rank (sortBy key l) = false ↔ SoleBest rank l a := by
  have hbest := best_of_head? hrefines h
  have hperm := perm_sortBy key l
  have hsorted := pairwise_sortBy key l
  have hdistinct := hperm.nodup_iff.mpr hnodup
  obtain ⟨rest, hrest⟩ := List.head?_eq_some_iff.mp h
  rw [hrest] at hperm hsorted hdistinct ⊢
  cases rest with
  | nil =>
    -- the only one of all
    simp only [tied, true_iff]
    refine ⟨hbest, fun b hb => ?_⟩
    exact List.mem_singleton.mp (hperm.mem_iff.mpr hb.mem)
  | cons second rest =>
    simp only [tied, decide_eq_false_iff_not]
    constructor
    · refine fun hne => ⟨hbest, fun b hb => ?_⟩
      rcases List.mem_cons.mp (hperm.mem_iff.mpr hb.mem) with rfl | hmem
      · rfl
      · -- what comes after the second ranks no better than it
        have hsecond : rank second ≤ rank b := by
          rcases List.mem_cons.mp hmem with rfl | hmem
          · exact le_rfl
          · exact hrefines _ _ (List.rel_of_pairwise_cons hsorted.of_cons hmem)
        have hfirst : rank a ≤ rank second :=
          hrefines _ _ (List.rel_of_pairwise_cons hsorted (List.mem_cons_self ..))
        have hle := hb.le a hbest.mem
        exact absurd (le_antisymm hfirst (hsecond.trans hle)) hne
    · intro hsole hrank
      -- a second one of the same rank is another best one
      have hsecond : Best rank l second := by
        refine ⟨hperm.mem_iff.mp (by simp), fun b hb => ?_⟩
        rw [← hrank]
        exact hbest.le b hb
      have hmem : a ∈ second :: rest := by
        rw [← hsole.only second hsecond]
        exact List.mem_cons_self ..
      exact (List.nodup_cons.mp hdistinct).1 hmem

end Ranking
