import Mathlib

/-!
# Streaks

The streak of a list is how many of its last elements in a row meet a condition.
It grows by one with an element that meets it and is lost with one that does not;
a streak of `n` at a position says that the `n` elements up to it all meet the
condition (`endsAt_iff`).
-/

namespace Streaks

variable {α : Type*} (good : α → Bool)

/-- How many of the last elements in a row are good. -/
def streak (l : List α) : ℕ := (l.reverse.takeWhile good).length

/-- The elements at `i` and just before it, `n` of them, are there and good. -/
def EndsAt (l : List α) (n i : ℕ) : Prop :=
  n ≤ i + 1 ∧ ∀ j, i < j + n → j ≤ i → ∃ a, l[j]? = some a ∧ good a = true

@[simp] theorem streak_nil : streak good [] = 0 := rfl

theorem streak_append_singleton (l : List α) (a : α) :
    streak good (l ++ [a]) = if good a then streak good l + 1 else 0 := by
  simp only [streak, List.reverse_append, List.reverse_singleton, List.singleton_append,
    List.takeWhile_cons]
  split <;> simp

/-- A run of good elements ends at the last element exactly if the streak is long enough. -/
theorem endsAt_length_iff {l : List α} {a : α} {n : ℕ} (hn : 1 ≤ n) :
    EndsAt good (l ++ [a]) n l.length ↔ n ≤ streak good (l ++ [a]) := by
  induction l using List.reverseRecOn generalizing a n with
  | nil =>
    rw [streak_append_singleton]
    constructor
    · rintro ⟨hle, hgood⟩
      obtain ⟨b, hb, hbgood⟩ := hgood 0 (by simp; omega) (le_refl 0)
      obtain rfl : a = b := by simpa using hb
      simp only [List.length_nil] at hle
      simp [hbgood, hle]
    · intro hle
      split at hle
      · rename_i hgood
        refine ⟨by simpa using hle, fun j _ hj => ?_⟩
        obtain rfl : j = 0 := by simpa using hj
        exact ⟨a, rfl, hgood⟩
      · omega
  | append_singleton l b ih =>
    rw [streak_append_singleton]
    -- The element before the last has the same question, for one element fewer.
    constructor
    · rintro ⟨hle, hgood⟩
      obtain ⟨c, hc, hcgood⟩ := hgood (l ++ [b]).length (by omega) (le_refl _)
      obtain rfl : a = c := by simpa using hc
      rw [if_pos hcgood]
      by_cases hone : n = 1
      · omega
      · have hbefore : EndsAt good (l ++ [b]) (n - 1) l.length := by
          refine ⟨by simp at hle; omega, fun j hlow hhigh => ?_⟩
          obtain ⟨c, hc, hcgood⟩ := hgood j (by simp; omega) (by simp; omega)
          rw [List.getElem?_append_left (by simp; omega)] at hc
          exact ⟨c, hc, hcgood⟩
        have hstreak := (ih (by omega)).mp hbefore
        omega
    · intro hle
      split at hle
      · rename_i hgood
        refine ⟨?_, fun j hlow hhigh => ?_⟩
        · by_cases hone : n = 1
          · omega
          · have hbefore := ((ih (a := b) (n := n - 1) (by omega)).mpr (by omega)).1
            simp only [List.length_append, List.length_singleton]
            omega
        · rcases Nat.lt_or_eq_of_le hhigh with hlt | rfl
          · have hbefore := (ih (a := b) (n := n - 1) (by simp at hlow hlt; omega)).mpr (by omega)
            obtain ⟨c, hc, hcgood⟩ := hbefore.2 j (by simp at hlow; omega) (by simp at hlt; omega)
            rw [List.getElem?_append_left hlt]
            exact ⟨c, hc, hcgood⟩
          · exact ⟨a, by simp, hgood⟩
      · omega

/-- **A run of `n` good elements ends at `i`** exactly if the streak up to `i` is that long. -/
theorem endsAt_iff {l : List α} {n i : ℕ} (hn : 1 ≤ n) :
    EndsAt good l n i ↔ i < l.length ∧ n ≤ streak good (l.take (i + 1)) := by
  by_cases hi : i < l.length
  · have htake : l.take (i + 1) = l.take i ++ [l[i]] := by rw [List.take_append_getElem hi]
    have hlength : (l.take i).length = i := List.length_take_of_le hi.le
    have hsame : EndsAt good l n i ↔ EndsAt good (l.take i ++ [l[i]]) n (l.take i).length := by
      rw [hlength, ← htake]
      refine and_congr_right fun _ => forall_congr' fun j => imp_congr_right fun _ =>
        forall_congr' fun hj => ?_
      rw [List.getElem?_take_of_lt (by omega)]
    rw [hsame, endsAt_length_iff good hn, ← htake]
    simp [hi]
  · constructor
    · rintro ⟨-, hgood⟩
      obtain ⟨a, ha, -⟩ := hgood i (by omega) (le_refl i)
      exact absurd (List.getElem?_eq_some_iff.mp ha).1 hi
    · exact fun h => absurd h.1 hi

end Streaks
