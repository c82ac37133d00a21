import Mathlib

/-!
# Segments of a Hash

A word of 32 bits, read by its first hex digits: the segment at depth `d` is the
number its first `d` digits write, and a segment's number divided by 16 is its
parent's. A search that splits only the segments that disagree reaches a segment
when every segment above it, and the segment itself, disagrees.
-/

namespace Segments

/-- The number the first `depth` hex digits of a word write. -/
def segment (depth : ℕ) (word : BitVec 32) : ℕ :=
  word.toNat >>> (32 - 4 * depth)

/-- A segment's number divided by 16 is its parent's. -/
theorem segment_succ_div {depth : ℕ} (h : depth + 1 ≤ 8) (word : BitVec 32) :
    segment (depth + 1) word / 16 = segment depth word := by
  simp only [segment, Nat.shiftRight_eq_div_pow, Nat.div_div_eq_div_mul]
  have hpow : 2 ^ (32 - 4 * (depth + 1)) * 16 = 2 ^ (32 - 4 * depth) := by
    rw [show (16 : ℕ) = 2 ^ 4 from rfl, ← pow_add]
    congr 1
    omega
  rw [hpow]

/-- A segment the search reaches: it disagrees, and so does every segment above it. -/
def Reached (disagree : ℕ → ℕ → Prop) : ℕ → ℕ → Prop
  | 0, _ => True
  | depth + 1, segment => disagree (depth + 1) segment ∧ Reached disagree depth (segment / 16)

instance decidableReached (disagree : ℕ → ℕ → Prop) [∀ d b, Decidable (disagree d b)] :
    (depth segment : ℕ) → Decidable (Reached disagree depth segment)
  | 0, _ => isTrue trivial
  | depth + 1, segment =>
    have := decidableReached disagree depth (segment / 16)
    inferInstanceAs (Decidable (_ ∧ _))

/-- A word's segments above a reached one are reached. -/
theorem reached_of_le {disagree : ℕ → ℕ → Prop} {depth depth' : ℕ} (hdepth : depth ≤ 8)
    {word : BitVec 32} (hle : depth' ≤ depth) (h : Reached disagree depth (segment depth word)) :
    Reached disagree depth' (segment depth' word) := by
  induction depth with
  | zero => rwa [Nat.le_zero.mp hle]
  | succ depth ih =>
    rcases hle.eq_or_lt with rfl | hlt
    · exact h
    · rw [Reached, segment_succ_div hdepth] at h
      exact ih (by omega) (by omega) h.2

/-- A word whose segment is not reached has a segment above it, or that one, that agrees. -/
theorem exists_agree_of_not_reached {disagree : ℕ → ℕ → Prop} {depth : ℕ} (hdepth : depth ≤ 8)
    {word : BitVec 32} (h : ¬ Reached disagree depth (segment depth word)) :
    ∃ d, 1 ≤ d ∧ d ≤ depth ∧ ¬ disagree d (segment d word) := by
  induction depth with
  | zero => exact absurd trivial h
  | succ depth ih =>
    rw [Reached, segment_succ_div hdepth, not_and_or] at h
    rcases h with h | h
    · exact ⟨depth + 1, by omega, le_rfl, h⟩
    · obtain ⟨d, hd, hle, hagree⟩ := ih (by omega) h
      exact ⟨d, hd, by omega, hagree⟩

/-! ## Counting -/

/-- Elements chosen by what they are sent to are as many in two lists, if those sent to each
chosen place are. -/
theorem length_filter_eq_of_fibres {α κ : Type*} [DecidableEq κ] {f : α → κ} {p : κ → Prop}
    [DecidablePred p] {l l' : List α}
    (h : ∀ k, p k → (l.filter fun a => f a = k).length = (l'.filter fun a => f a = k).length) :
    (l.filter fun a => p (f a)).length = (l'.filter fun a => p (f a)).length := by
  have hcount : ∀ (l : List α) k, (l.map f).count k = (l.filter fun a => f a = k).length := by
    intro l k
    rw [List.count, List.countP_map, List.countP_eq_length_filter]
    rfl
  have hperm : ((l.map f).filter fun k => p k).Perm ((l'.map f).filter fun k => p k) := by
    rw [List.perm_iff_count]
    intro k
    by_cases hk : p k
    · rw [List.count_filter (by simpa using hk), List.count_filter (by simpa using hk), hcount,
        hcount, h k hk]
    · rw [List.count_eq_zero_of_not_mem (by simp [hk]), List.count_eq_zero_of_not_mem (by simp [hk])]
  have hlength := hperm.length_eq
  rwa [List.filter_map, List.filter_map, List.length_map, List.length_map] at hlength

/-- The words that the search does not reach are as many on two sides, if those of each segment
that agrees are. -/
theorem length_not_reached {disagree : ℕ → ℕ → Prop} [∀ d b, Decidable (disagree d b)]
    {words words' : List (BitVec 32)}
    (hagree : ∀ d b, ¬ disagree d b →
      (words.filter fun w => segment d w = b).length =
        (words'.filter fun w => segment d w = b).length)
    {depth : ℕ} (hdepth : depth ≤ 8) :
    (words.filter fun w => ¬ Reached disagree depth (segment depth w)).length =
      (words'.filter fun w => ¬ Reached disagree depth (segment depth w)).length := by
  induction depth with
  | zero => simp [Reached]
  | succ depth ih =>
    -- A word is left at an earlier depth, or its segment agrees at this one.
    have hsplit : ∀ words : List (BitVec 32),
        (words.filter fun w => ¬ Reached disagree (depth + 1) (segment (depth + 1) w)).length =
          (words.filter fun w => ¬ Reached disagree depth (segment depth w)).length +
          (words.filter fun w => Reached disagree depth (segment (depth + 1) w / 16) ∧
            ¬ disagree (depth + 1) (segment (depth + 1) w)).length := by
      intro words
      rw [List.length_eq_length_filter_add fun w => ¬ Reached disagree depth (segment depth w),
        List.filter_filter, List.filter_filter]
      congr 2
      · refine List.filter_congr fun w _ => ?_
        by_cases hreached : Reached disagree depth (segment depth w)
        · simp [hreached]
        · simp [Reached, segment_succ_div hdepth, hreached]
      · refine List.filter_congr fun w _ => ?_
        by_cases hreached : Reached disagree depth (segment depth w)
        · simp [Reached, segment_succ_div hdepth, hreached]
        · simp [segment_succ_div hdepth, hreached]
    rw [hsplit, hsplit, ih (by omega)]
    congr 1
    exact length_filter_eq_of_fibres (p := fun b => Reached disagree depth (b / 16) ∧
      ¬ disagree (depth + 1) b) fun b hb => hagree (depth + 1) b hb.2

end Segments
