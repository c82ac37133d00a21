import Mathlib

/-!
# The Common Prefix of Several Lists

`commonPrefix ls` is the longest list that every list of `ls` starts with
(`os.path.commonprefix`, character by character): a list is a prefix of it
exactly if it is a prefix of each of them (`prefix_commonPrefix_iff`).
-/

namespace Prefixes

variable {α : Type*} [DecidableEq α]

/-- The longest common prefix of two lists. -/
def common : List α → List α → List α
  | a :: l, b :: l' => if a = b then a :: common l l' else []
  | _, _ => []

theorem prefix_common_iff {p l l' : List α} : p <+: common l l' ↔ p <+: l ∧ p <+: l' := by
  induction l generalizing p l' with
  | nil => cases l' <;> simp +contextual [common]
  | cons a l ih =>
    cases l' with
    | nil => simp +contextual [common]
    | cons b l' =>
      cases p with
      | nil => simp
      | cons c p =>
        simp only [common]
        split
        · rename_i heq
          subst heq
          simp only [List.cons_prefix_cons, ih]
          tauto
        · rename_i hne
          simp only [List.cons_prefix_cons, List.prefix_nil, reduceCtorEq, false_iff]
          rintro ⟨⟨rfl, -⟩, rfl, -⟩
          exact hne rfl

/-- The longest common prefix of several lists; of none, it is empty. -/
def commonPrefix : List (List α) → List α
  | [] => []
  | [l] => l
  | l :: l' :: rest => common l (commonPrefix (l' :: rest))

theorem prefix_commonPrefix_iff {p : List α} {ls : List (List α)} (hne : ls ≠ []) :
    p <+: commonPrefix ls ↔ ∀ l ∈ ls, p <+: l := by
  induction ls with
  | nil => exact absurd rfl hne
  | cons l rest ih =>
    cases rest with
    | nil => simp [commonPrefix]
    | cons l' rest =>
      rw [commonPrefix, prefix_common_iff, ih (by simp)]
      simp

theorem commonPrefix_isPrefix {l : List α} {ls : List (List α)} (hl : l ∈ ls) :
    commonPrefix ls <+: l :=
  (prefix_commonPrefix_iff (List.ne_nil_of_mem hl)).mp List.prefix_rfl l hl

end Prefixes
