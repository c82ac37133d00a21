import Mathlib

/-!
# Intervals Laid End to End

Half-open intervals `(after, upTo]`, given by their two ends. A list of them tiles a
stretch if each starts where the one before it ended; then every point of the stretch is
in exactly one of them.
-/

namespace Intervals

variable {T : Type*} [LinearOrder T]

/-- The intervals lie end to end from `a` to `b`. -/
def Tiles : T → List (T × T) → T → Prop
  | a, [], b => a = b
  | a, w :: ws, b => w.1 = a ∧ a ≤ w.2 ∧ Tiles w.2 ws b

/-- Is a point in the interval? -/
def covers (t : T) (w : T × T) : Bool := w.1 < t && t ≤ w.2

theorem Tiles.le {a b : T} {ws : List (T × T)} (h : Tiles a ws b) : a ≤ b := by
  induction ws generalizing a with
  | nil => exact le_of_eq h
  | cons w ws ih =>
    obtain ⟨-, hle, hrest⟩ := h
    exact hle.trans (ih hrest)

theorem Tiles.append {a b c : T} {ws ws' : List (T × T)} (h : Tiles a ws b)
    (h' : Tiles b ws' c) : Tiles a (ws ++ ws') c := by
  induction ws generalizing a with
  | nil => exact (show a = b from h) ▸ h'
  | cons w ws ih =>
    obtain ⟨hstart, hle, hrest⟩ := h
    exact ⟨hstart, hle, ih hrest⟩

theorem tiles_singleton {a b : T} (h : a ≤ b) : Tiles a [(a, b)] b :=
  ⟨rfl, h, rfl⟩

/-- **A point of a tiled stretch is in exactly one interval**, any other in none. -/
theorem Tiles.countP_covers {a b : T} {ws : List (T × T)} (h : Tiles a ws b) (t : T) :
    ws.countP (covers t) = if a < t ∧ t ≤ b then 1 else 0 := by
  induction ws generalizing a with
  | nil =>
    obtain rfl : a = b := h
    rw [List.countP_nil, if_neg fun ht => absurd ht.1 (not_lt.mpr ht.2)]
  | cons w ws ih =>
    obtain ⟨rfl, hle, hrest⟩ := h
    have hend := hrest.le
    rw [List.countP_cons, ih hrest]
    by_cases hfirst : t ≤ w.2
    · -- not in a later one: they start after the first has ended
      rw [if_neg fun ht => absurd ht.1 (not_lt.mpr hfirst)]
      simp [covers, hfirst, hfirst.trans hend]
    · have hlate : w.1 < t := hle.trans_lt (not_le.mp hfirst)
      simp [covers, hfirst, hlate, not_le.mp hfirst]

/-- No interval reaches past the end. -/
theorem Tiles.le_end {a b : T} {ws : List (T × T)} (h : Tiles a ws b) :
    ∀ w ∈ ws, w.2 ≤ b := by
  induction ws generalizing a with
  | nil => exact fun w hw => absurd hw List.not_mem_nil
  | cons w ws ih =>
    obtain ⟨-, -, hrest⟩ := h
    exact List.forall_mem_cons.mpr ⟨hrest.le, ih hrest⟩

end Intervals
