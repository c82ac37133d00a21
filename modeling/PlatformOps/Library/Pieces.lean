import Mathlib

/-!
# Reading a Text Piece by Piece

A pattern language with one-character wildcards and bracketed ones reads a text from
left to right. Where a bracket closes is the one thing two readers of it can see
differently (`Closer`); an opening bracket that never closes stands for itself.

- `flatMap_text`: the pieces are the text.
- `pieces_eq_iff`: two readers see the same pieces exactly if they close every bracket
  alike that one of them comes to.
-/

namespace Pieces

variable {α : Type*}

/-- One character, or a wildcard with all of its text. -/
inductive Piece (α : Type*)
  | literal (a : α)
  | wildcard (text : List α)
deriving DecidableEq

namespace Piece

def text : Piece α → List α
  | literal a => [a]
  | wildcard text => text

def isWildcard : Piece α → Bool
  | literal _ => false
  | wildcard _ => true

end Piece

/-- Where the bracket before a text closes: what is left behind it. -/
structure Closer (α : Type*) where
  close : List α → Option (List α)
  suffix : ∀ rest after, close rest = some after → after <:+ rest

theorem Closer.length_le {c : Closer α} {rest after : List α} (h : c.close rest = some after) :
    after.length ≤ rest.length :=
  (c.suffix rest after h).length_le

theorem Closer.take_append {c : Closer α} {rest after : List α} (h : c.close rest = some after) :
    rest.take (rest.length - after.length) ++ after = rest := by
  obtain ⟨inside, rfl⟩ := c.suffix rest after h
  simp

/-- The pieces of a text. `fuel` is its length: every piece takes a character at least. -/
def pieces [DecidableEq α] (single : α → Bool) (opening : α) (c : Closer α) :
    ℕ → List α → List (Piece α)
  | 0, _ => []
  | _, [] => []
  | fuel + 1, a :: rest =>
    if single a then .wildcard [a] :: pieces single opening c fuel rest
    else if a = opening then
      match c.close rest with
      | some after =>
        .wildcard (a :: rest.take (rest.length - after.length)) ::
          pieces single opening c fuel after
      -- a bracket that never closes is a character
      | none => .literal a :: pieces single opening c fuel rest
    else .literal a :: pieces single opening c fuel rest

/-- The texts a reader has before it, piece after piece. -/
def stops (ps : List (Piece α)) : List (List α) :=
  ps.tails.map fun rest => rest.flatMap Piece.text

@[simp] theorem stops_nil : stops ([] : List (Piece α)) = [[]] :=
  rfl

@[simp] theorem stops_cons (p : Piece α) (ps : List (Piece α)) :
    stops (p :: ps) = (p :: ps).flatMap Piece.text :: stops ps :=
  rfl

section Reading

variable [DecidableEq α] {single : α → Bool} {opening : α} {c c' : Closer α} {fuel : ℕ}
  {text rest after : List α} {a : α}

theorem pieces_single (h : single a = true) :
    pieces single opening c (fuel + 1) (a :: rest) =
      .wildcard [a] :: pieces single opening c fuel rest := by
  rw [pieces, if_pos h]

theorem pieces_literal (hsingle : single a = false) (hopening : a ≠ opening) :
    pieces single opening c (fuel + 1) (a :: rest) =
      .literal a :: pieces single opening c fuel rest := by
  rw [pieces, if_neg (Bool.not_eq_true _ ▸ hsingle), if_neg hopening]

theorem pieces_closed (hsingle : single opening = false) (h : c.close rest = some after) :
    pieces single opening c (fuel + 1) (opening :: rest) =
      .wildcard (opening :: rest.take (rest.length - after.length)) ::
        pieces single opening c fuel after := by
  rw [pieces, if_neg (Bool.not_eq_true _ ▸ hsingle), if_pos rfl, h]

theorem pieces_unclosed (hsingle : single opening = false) (h : c.close rest = none) :
    pieces single opening c (fuel + 1) (opening :: rest) =
      .literal opening :: pieces single opening c fuel rest := by
  rw [pieces, if_neg (Bool.not_eq_true _ ▸ hsingle), if_pos rfl, h]

/-- How a text goes on: a wildcard character, a bracket that closes or not, or another character.
A reader that closes the bracket alike goes on in the same way. -/
theorem pieces_step (single : α → Bool) (opening : α) (c : Closer α) (a : α) (rest : List α) :
    ∃ p left, left.length ≤ rest.length ∧ p.text ++ left = a :: rest ∧
      ∀ (fuel : ℕ) (c' : Closer α), (a = opening → c'.close rest = c.close rest) →
        pieces single opening c' (fuel + 1) (a :: rest) =
          p :: pieces single opening c' fuel left := by
  by_cases hsingle : single a = true
  · exact ⟨_, rest, le_rfl, rfl, fun _ c' _ => pieces_single hsingle⟩
  · by_cases hopening : a = opening
    · subst hopening
      rw [Bool.not_eq_true] at hsingle
      cases hclose : c.close rest with
      | some after =>
        refine ⟨_, after, Closer.length_le hclose, ?_,
          fun _ c' hc' => pieces_closed hsingle (hc' rfl)⟩
        rw [Piece.text, List.cons_append, Closer.take_append hclose]
      | none => exact ⟨_, rest, le_rfl, rfl, fun _ c' hc' => pieces_unclosed hsingle (hc' rfl)⟩
    · rw [Bool.not_eq_true] at hsingle
      exact ⟨_, rest, le_rfl, rfl, fun _ c' _ => pieces_literal hsingle hopening⟩

/-- The piece at a bracket says where it closes. -/
theorem close_eq_of_pieces_eq (fuel : ℕ) (hopening : single opening = false)
    (h : pieces single opening c (fuel + 1) (opening :: rest) =
      pieces single opening c' (fuel + 1) (opening :: rest)) : c.close rest = c'.close rest := by
  cases hclose : c.close rest with
  | none =>
    cases hclose' : c'.close rest with
    | none => rfl
    | some after' =>
      rw [pieces_unclosed hopening hclose, pieces_closed hopening hclose'] at h
      cases (List.cons.inj h).1
  | some after =>
    cases hclose' : c'.close rest with
    | none =>
      rw [pieces_closed hopening hclose, pieces_unclosed hopening hclose'] at h
      cases (List.cons.inj h).1
    | some after' =>
      rw [pieces_closed hopening hclose, pieces_closed hopening hclose'] at h
      have hinside := (List.cons.inj (Piece.wildcard.inj (List.cons.inj h).1)).2
      -- the same text before the end leaves the same text behind it
      have hsame := (Closer.take_append hclose).trans (Closer.take_append hclose').symm
      rw [hinside, List.append_cancel_left_eq] at hsame
      rw [hsame]

/-- **The pieces are the text.** -/
theorem flatMap_text (h : text.length ≤ fuel) :
    (pieces single opening c fuel text).flatMap Piece.text = text := by
  induction fuel generalizing text with
  | zero =>
    obtain rfl := List.length_eq_zero_iff.mp (Nat.le_zero.mp h)
    rfl
  | succ fuel ih =>
    cases text with
    | nil => rfl
    | cons a rest =>
      obtain ⟨p, left, hleft, htext, hstep⟩ := pieces_step single opening c a rest
      rw [hstep _ c fun _ => rfl, List.flatMap_cons, ih, htext]
      exact hleft.trans (Nat.le_of_succ_le_succ h)

/-- Fuel beyond the length of the text changes nothing. -/
theorem pieces_eq_of_le (fuel' : ℕ) (h : text.length ≤ fuel) (h' : text.length ≤ fuel') :
    pieces single opening c fuel text = pieces single opening c fuel' text := by
  induction fuel generalizing fuel' text with
  | zero =>
    obtain rfl := List.length_eq_zero_iff.mp (Nat.le_zero.mp h)
    cases fuel' <;> rfl
  | succ fuel ih =>
    cases text with
    | nil => cases fuel' <;> rfl
    | cons a rest =>
      obtain ⟨fuel', rfl⟩ := Nat.exists_eq_succ_of_ne_zero (n := fuel') (by
        rintro rfl
        cases h')
      obtain ⟨p, left, hleft, -, hstep⟩ := pieces_step single opening c a rest
      rw [hstep _ c fun _ => rfl, hstep _ c fun _ => rfl, ih]
      · exact hleft.trans (Nat.le_of_succ_le_succ h)
      · exact hleft.trans (Nat.le_of_succ_le_succ h')

/-- Without a bracket, every character is a piece of its own. -/
theorem pieces_append (h : opening ∉ text) (rest : List α) :
    pieces single opening c (text.length + fuel) (text ++ rest) =
      (text.map fun a => if single a then .wildcard [a] else .literal a) ++
        pieces single opening c fuel rest := by
  induction text with
  | nil => simp
  | cons a text ih =>
    obtain ⟨hne, hmem⟩ := not_or.mp (mt List.mem_cons.mpr h)
    have hlength : (a :: text).length + fuel = (text.length + fuel) + 1 := by
      simp only [List.length_cons]
      omega
    rw [hlength, List.cons_append, List.map_cons, List.cons_append]
    split
    · rename_i hsingle
      rw [pieces_single hsingle, ih hmem]
    · rename_i hsingle
      rw [pieces_literal ((Bool.not_eq_true _).mp hsingle) (Ne.symm hne), ih hmem]

/-- **Two readers see the same pieces** exactly if they close alike every bracket that one of them
comes to. -/
theorem pieces_eq_iff (hopening : single opening = false) (h : text.length ≤ fuel) :
    pieces single opening c fuel text = pieces single opening c' fuel text ↔
      ∀ rest, opening :: rest ∈ stops (pieces single opening c fuel text) →
        c.close rest = c'.close rest := by
  induction fuel generalizing text with
  | zero =>
    obtain rfl := List.length_eq_zero_iff.mp (Nat.le_zero.mp h)
    simp [pieces]
  | succ fuel ih =>
    cases text with
    | nil => simp [pieces]
    | cons a rest =>
      obtain ⟨p, left, hleft, htext, hstep⟩ := pieces_step single opening c a rest
      have hleft' : left.length ≤ fuel := hleft.trans (Nat.le_of_succ_le_succ h)
      rw [hstep _ c fun _ => rfl, stops_cons, List.flatMap_cons, flatMap_text hleft', htext]
      constructor
      · intro heq rest' hmem
        have hagree : a = opening → c'.close rest = c.close rest := by
          rintro rfl
          apply Eq.symm
          apply close_eq_of_pieces_eq fuel hopening
          rw [hstep _ c fun _ => rfl, heq]
        rw [hstep _ c' hagree, List.cons_inj_right, ih hleft'] at heq
        rcases List.mem_cons.mp hmem with hfirst | hlater
        · obtain ⟨rfl, rfl⟩ := List.cons.inj hfirst
          exact (hagree rfl).symm
        · exact heq rest' hlater
      · intro hall
        have hagree : a = opening → c'.close rest = c.close rest := by
          rintro rfl
          exact (hall rest (List.mem_cons_self ..)).symm
        rw [hstep _ c' hagree, List.cons_inj_right, ih hleft']
        exact fun rest' hmem => hall rest' (List.mem_cons_of_mem _ hmem)

end Reading

end Pieces
