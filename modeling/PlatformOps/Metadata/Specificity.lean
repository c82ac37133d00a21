import PlatformOps.Library.Pieces
import PlatformOps.Metadata.Registry

/-!
# How Specificity Reads a Pattern

`specificity` and `fnmatch` each scan a pattern by hand: `*` and `?` are wildcards, so
is a closed `[...]`, and every other character is itself. They look for the end of a
set in different places. `fnmatch` skips a `!` first, and then takes a `]` right there
as a member; `specificity` looks from two characters behind the `[` on, so that a `]`
right behind `[!` ends the set.

- `globTokens_eq`, `specificity_eq`: the tokens of `fnmatch` and the counts of
  `specificity` are those of the pieces that each of them reads.
- `closers_agree_iff`: the two agree where a set ends unless it starts with `[!]`.
- `overcounted`: at such a set `specificity` counts too much, so that only a second
  bracket in it can make the counts come out the same.
-/

namespace PlatformOps.Metadata

open Pieces

/-! ## Where a set ends -/

private theorem takeWhile_bracket {text : List Char} (h : ']' ∉ text) (tail : List Char) :
    (text ++ ']' :: tail).takeWhile (· ≠ ']') = text := by
  rw [List.takeWhile_append_of_pos]
  · simp
  · intro c hc
    exact decide_eq_true fun heq => h (heq ▸ hc)

private theorem dropWhile_bracket {text : List Char} (h : ']' ∉ text) (tail : List Char) :
    (text ++ ']' :: tail).dropWhile (· ≠ ']') = ']' :: tail := by
  rw [List.dropWhile_append_of_pos]
  · simp
  · intro c hc
    exact decide_eq_true fun heq => h (heq ▸ hc)

/-- A text up to its first closing bracket. -/
private theorem exists_bracket {text : List Char} {c : Char} {after : List Char}
    (h : text.dropWhile (· ≠ ']') = c :: after) :
    ∃ body, ']' ∉ body ∧ text = body ++ ']' :: after := by
  induction text with
  | nil => cases h
  | cons x text ih =>
    by_cases hx : x = ']'
    · subst hx
      rw [List.dropWhile_cons_of_neg (by simp)] at h
      obtain ⟨rfl, rfl⟩ := List.cons.inj h
      exact ⟨[], List.not_mem_nil, rfl⟩
    · rw [List.dropWhile_cons_of_pos (by simpa using hx)] at h
      obtain ⟨body, hbody, rfl⟩ := ih h
      refine ⟨x :: body, ?_, rfl⟩
      rw [List.mem_cons]
      rintro (heq | hmem)
      · exact hx heq.symm
      · exact hbody hmem

private theorem dropWhile_eq_nil {text : List Char} :
    text.dropWhile (· ≠ ']') = [] ↔ ']' ∉ text := by
  rw [List.dropWhile_eq_nil_iff]
  constructor
  · exact fun h hmem => of_decide_eq_true (h ']' hmem) rfl
  · exact fun h c hc => decide_eq_true fun heq => h (heq ▸ hc)

/-- The rest of a set, from its first member on: up to the next bracket. -/
def endSet (negated : Bool) (first : Char) (body : List Char) :
    Option (Bool × List Char × List Char) :=
  match body.dropWhile (· ≠ ']') with
  | [] => none
  | _ :: rest => some (negated, first :: body.takeWhile (· ≠ ']'), rest)

theorem endSet_append {inside : List Char} (h : ']' ∉ inside) (negated : Bool) (first : Char)
    (tail : List Char) :
    endSet negated first (inside ++ ']' :: tail) = some (negated, first :: inside, tail) := by
  rw [endSet, dropWhile_bracket h, takeWhile_bracket h]

theorem exists_inside {negated negated' : Bool} {first : Char} {body items after : List Char}
    (h : endSet negated first body = some (negated', items, after)) :
    ∃ inside, ']' ∉ inside ∧ body = inside ++ ']' :: after ∧ negated' = negated ∧
      items = first :: inside := by
  rw [endSet] at h
  split at h
  · cases h
  · rename_i hbody
    obtain ⟨inside, hinside, rfl⟩ := exists_bracket hbody
    rw [takeWhile_bracket hinside, Option.some.injEq, Prod.mk.injEq, Prod.mk.injEq] at h
    obtain ⟨hnegated, hitems, rfl⟩ := h
    exact ⟨inside, hinside, rfl, hnegated.symm, hitems.symm⟩

theorem endSet_eq_none {negated : Bool} {first : Char} {body : List Char} :
    endSet negated first body = none ↔ ']' ∉ body := by
  rw [← dropWhile_eq_nil, endSet]
  cases body.dropWhile (· ≠ ']') <;> simp

/-- A character other than a bracket does not end a set. -/
private theorem scan_cons {c : Char} (hc : c ≠ ']') (body : List Char) :
    (c :: body).dropWhile (· ≠ ']') = body.dropWhile (· ≠ ']') ∧
      (c :: body).takeWhile (· ≠ ']') = c :: body.takeWhile (· ≠ ']') :=
  ⟨List.dropWhile_cons_of_pos (by simpa using hc), List.takeWhile_cons_of_pos (by simpa using hc)⟩

/-- Behind a `!` that is skipped, the first character is a member whichever it is. -/
theorem closeSet_bang (c : Char) (body : List Char) :
    closeSet ('!' :: c :: body) = endSet true c body := by
  by_cases hc : c = ']'
  · subst hc
    rfl
  · obtain ⟨hdrop, htake⟩ := scan_cons hc body
    cases hbody : body.dropWhile (· ≠ ']') <;>
      simp only [closeSet, endSet, List.cons.injEq, hc, false_and, imp_self, implies_true, hdrop,
        htake, hbody, List.nil_append]

/-- So it is without one. -/
theorem closeSet_other {c : Char} (hc : c ≠ '!') (body : List Char) :
    closeSet (c :: body) = endSet false c body := by
  by_cases hbracket : c = ']'
  · subst hbracket
    rfl
  · obtain ⟨hdrop, htake⟩ := scan_cons hbracket body
    cases hbody : body.dropWhile (· ≠ ']') <;>
      simp only [closeSet, endSet, List.cons.injEq, hc, hbracket, false_and, imp_self, implies_true,
        hdrop, htake, hbody, List.nil_append]

/-- **A set ends where it does whatever comes behind it.** -/
theorem closeSet_append {text after : List Char} {negated : Bool} {items : List Char}
    (h : closeSet text = some (negated, items, after)) :
    ∃ inside, text = inside ++ after ∧
      ∀ tail, closeSet (inside ++ tail) = some (negated, items, tail) := by
  cases text with
  | nil => cases h
  | cons c body =>
    by_cases hc : c = '!'
    · subst hc
      cases body with
      | nil => cases h
      | cons first body =>
        rw [closeSet_bang] at h
        obtain ⟨inside, hinside, rfl, rfl, rfl⟩ := exists_inside h
        refine ⟨'!' :: first :: (inside ++ [']']), by simp, fun tail => ?_⟩
        simp [closeSet_bang, endSet_append hinside]
    · rw [closeSet_other hc] at h
      obtain ⟨inside, hinside, rfl, rfl, rfl⟩ := exists_inside h
      refine ⟨c :: (inside ++ [']']), by simp, fun tail => ?_⟩
      simp [closeSet_other hc, endSet_append hinside]

/-! ## Two readers of a pattern -/

/-- The wildcards of one character. -/
def isSingle (c : Char) : Bool :=
  c = '*' || c = '?'

/-- Where `fnmatch` ends a set. -/
def fnmatchCloser : Closer Char where
  close := fun rest => (closeSet rest).map fun parts => parts.2.2
  suffix := by
    intro rest after h
    obtain ⟨⟨negated, items, after⟩, hclose, rfl⟩ := Option.map_eq_some_iff.mp h
    obtain ⟨inside, rfl, -⟩ := closeSet_append hclose
    exact ⟨inside, rfl⟩

theorem fnmatchCloser_bang (c : Char) (body : List Char) :
    fnmatchCloser.close ('!' :: c :: body) = (endSet true c body).map fun parts => parts.2.2 := by
  rw [← closeSet_bang]
  rfl

theorem fnmatchCloser_other {c : Char} (hc : c ≠ '!') (body : List Char) :
    fnmatchCloser.close (c :: body) = (endSet false c body).map fun parts => parts.2.2 := by
  rw [← closeSet_other hc]
  rfl

/-- Where `specificity` ends a set: `pattern.find("]", i + 2)`. -/
def specificityCloser : Closer Char where
  close := fun rest => match (rest.drop 1).dropWhile (· ≠ ']') with
    | [] => none
    | _ :: after => some after
  suffix := by
    intro rest after h
    split at h
    · cases h
    · rename_i c after' hrest
      obtain rfl := Option.some.inj h
      obtain ⟨body, -, hbody⟩ := exists_bracket hrest
      have hsuffix : after' <:+ rest.drop 1 := ⟨body ++ [']'], by simp [hbody]⟩
      exact hsuffix.trans (List.drop_suffix 1 rest)

/-- The pieces that `fnmatch` parses a pattern into. -/
def fnmatchPieces (pattern : List Char) : List (Piece Char) :=
  pieces isSingle '[' fnmatchCloser pattern.length pattern

/-- The pieces that `specificity` counts. -/
def countedPieces (pattern : List Char) : List (Piece Char) :=
  pieces isSingle '[' specificityCloser pattern.length pattern

/-- Characters that stand for themselves, and wildcards. -/
def pieceCounts (ps : List (Piece Char)) : ℕ × ℕ :=
  (ps.countP fun p => !p.isWildcard, ps.countP Piece.isWildcard)

@[simp] theorem pieceCounts_literal (c : Char) (ps : List (Piece Char)) :
    pieceCounts (.literal c :: ps) = ((pieceCounts ps).1 + 1, (pieceCounts ps).2) := by
  simp [pieceCounts, Piece.isWildcard]

@[simp] theorem pieceCounts_wildcard (text : List Char) (ps : List (Piece Char)) :
    pieceCounts (.wildcard text :: ps) = ((pieceCounts ps).1, (pieceCounts ps).2 + 1) := by
  simp [pieceCounts, List.countP_cons, Piece.isWildcard]

/-- The token of a piece. -/
def tokenOf : Piece Char → GlobToken
  | .literal c => .literal c
  | .wildcard ['*'] => .star
  | .wildcard ['?'] => .anyChar
  | .wildcard text => match closeSet text.tail with
    | some (negated, items, _) => .set negated (setItems items)
    -- the text of a set is always closed
    | none => .set false []

def GlobToken.isWildcard : GlobToken → Bool
  | .literal _ => false
  | _ => true

/-- The literal characters and the wildcard tokens of a token sequence. -/
def tokenCounts (tokens : List GlobToken) : ℕ × ℕ :=
  (tokens.countP fun t => !t.isWildcard, tokens.countP GlobToken.isWildcard)

/-- **What `specificity` returns** are the counts of the pieces it reads. -/
theorem specificityLoop_eq (fuel : ℕ) (text : List Char) (literal wildcards : ℕ) :
    specificityLoop fuel text (literal, wildcards) =
      (literal + (pieceCounts (pieces isSingle '[' specificityCloser fuel text)).1,
        wildcards + (pieceCounts (pieces isSingle '[' specificityCloser fuel text)).2) := by
  induction fuel generalizing text literal wildcards with
  | zero => rfl
  | succ fuel ih =>
    cases text with
    | nil => rfl
    | cons c rest =>
      rw [specificityLoop]
      split
      · -- a wildcard of one character
        rename_i hsingle
        rw [pieces_single (by simpa [isSingle] using hsingle), ih]
        simp [Nat.add_assoc, Nat.add_comm]
      · rename_i hsingle
        have hsingle' : isSingle c = false := by simpa [isSingle] using hsingle
        split
        · rename_i hopening
          subst hopening
          split
          · -- `find` comes back with -1: the bracket is a character
            rename_i hrest
            have hclose : specificityCloser.close rest = none := by
              simp only [specificityCloser, hrest]
            rw [pieces_unclosed hsingle' hclose, ih]
            simp [Nat.add_assoc, Nat.add_comm]
          · -- a set, up to where it was found to close
            rename_i after hrest
            have hclose : specificityCloser.close rest = some after := by
              simp only [specificityCloser, hrest]
            rw [pieces_closed hsingle' hclose, ih]
            simp [Nat.add_assoc, Nat.add_comm]
        · rename_i hopening
          rw [pieces_literal hsingle' hopening, ih]
          simp [Nat.add_assoc, Nat.add_comm]

theorem specificity_eq (pattern : String) :
    specificity pattern = pieceCounts (countedPieces pattern.toList) := by
  rw [specificity, specificityLoop_eq, countedPieces]
  simp

/-- The token of a set is read from its own text. -/
theorem tokenOf_set {rest after : List Char} {negated : Bool} {items : List Char}
    (h : closeSet rest = some (negated, items, after)) :
    tokenOf (.wildcard ('[' :: rest.take (rest.length - after.length))) =
      .set negated (setItems items) := by
  obtain ⟨inside, rfl, hinside⟩ := closeSet_append h
  have hclose : closeSet inside = some (negated, items, []) := by simpa using hinside []
  have htake : (inside ++ after).take ((inside ++ after).length - after.length) = inside := by simp
  rw [htake, tokenOf, List.tail_cons, hclose]
  -- it is neither of the wildcards of one character
  · rintro ⟨⟩
  · rintro ⟨⟩

/-- **The tokens of `fnmatch`** are those of the pieces it reads. -/
theorem globTokens_eq (fuel : ℕ) (text : List Char) :
    globTokens fuel text = (pieces isSingle '[' fnmatchCloser fuel text).map tokenOf := by
  induction fuel, text using globTokens.induct with
  | case1 => rfl
  | case2 fuel => cases fuel <;> rfl
  | case3 fuel rest ih =>
    rw [pieces_single (by decide), List.map_cons, ← ih]
    rfl
  | case4 fuel rest ih =>
    rw [pieces_single (by decide), List.map_cons, ← ih]
    rfl
  | case5 fuel rest negated items rest' hclose ih =>
    have hend : fnmatchCloser.close rest = some rest' :=
      congrArg (Option.map fun parts : Bool × List Char × List Char => parts.2.2) hclose
    rw [globTokens, hclose, pieces_closed (by decide) hend, List.map_cons, tokenOf_set hclose, ← ih]
  | case6 fuel rest hclose ih =>
    have hend : fnmatchCloser.close rest = none :=
      congrArg (Option.map fun parts : Bool × List Char × List Char => parts.2.2) hclose
    rw [globTokens, hclose, pieces_unclosed (by decide) hend, List.map_cons, ← ih]
    rfl
  | case7 fuel c rest hstar hany hopening ih =>
    have hsingle : isSingle c = false := by simpa [isSingle] using ⟨hstar, hany⟩
    rw [globTokens, pieces_literal hsingle hopening, List.map_cons, ← ih]
    · rfl
    · exact hstar
    · exact hany
    · exact hopening

/-! ## Where the two agree -/

theorem map_endSet (negated : Bool) (first : Char) (body : List Char) :
    (endSet negated first body).map (fun parts => parts.2.2) =
      match body.dropWhile (· ≠ ']') with
      | [] => none
      | _ :: after => some after := by
  rw [endSet]
  cases body.dropWhile (· ≠ ']') <;> rfl

/-- Behind `[!]` the next bracket is further on. -/
private theorem map_endSet_ne (body : List Char) :
    (endSet true ']' body).map (fun parts => parts.2.2) ≠ some body := by
  intro h
  obtain ⟨⟨negated, items, after⟩, hend, rfl⟩ := Option.map_eq_some_iff.mp h
  obtain ⟨inside, -, hbody, -⟩ := exists_inside hend
  have hlength := congrArg List.length hbody
  simp only [List.length_append, List.length_cons] at hlength
  omega

/-- **The two agree where a set ends** unless it starts with `[!]`. -/
theorem closers_agree_iff (rest : List Char) :
    fnmatchCloser.close rest = specificityCloser.close rest ↔
      ¬ "[!]".toList <+: '[' :: rest := by
  have hbang : "[!]".toList = ['[', '!', ']'] := by decide
  rw [hbang, List.cons_prefix_cons, and_iff_right rfl]
  cases rest with
  | nil => simp [fnmatchCloser, specificityCloser, closeSet]
  | cons c body =>
    by_cases hc : c = '!'
    · subst hc
      rw [List.cons_prefix_cons, and_iff_right rfl]
      cases body with
      | nil => simp [fnmatchCloser, specificityCloser, closeSet]
      | cons first body =>
        rw [List.cons_prefix_cons, and_iff_left (List.nil_prefix)]
        by_cases hfirst : ']' = first
        · -- the bracket at which `specificity` stops is a member for `fnmatch`
          subst hfirst
          have hspecificity : specificityCloser.close ('!' :: ']' :: body) = some body := rfl
          rw [fnmatchCloser_bang, hspecificity]
          simpa using map_endSet_ne body
        · -- another first member is passed over by both
          rw [fnmatchCloser_bang, map_endSet, ← (scan_cons (Ne.symm hfirst) body).1]
          simp only [hfirst, not_false_eq_true, iff_true]
          rfl
    · -- without a `!` both pass over the first character
      have hne : ¬ ['!', ']'] <+: c :: body := by
        rw [List.cons_prefix_cons]
        exact fun h => hc h.1.symm
      rw [fnmatchCloser_other hc, map_endSet]
      simp only [hne, not_false_eq_true, iff_true]
      rfl

/-- No set that `fnmatch` comes to starts with `[!]`. -/
def NoNegatedBracket (pattern : List Char) : Prop :=
  ∀ text ∈ stops (fnmatchPieces pattern), ¬ "[!]".toList <+: text

instance (pattern : List Char) : Decidable (NoNegatedBracket pattern) :=
  inferInstanceAs (Decidable (∀ text ∈ stops (fnmatchPieces pattern), ¬ "[!]".toList <+: text))

/-- **Specificity counts the pieces of `fnmatch`** exactly if it comes to no `[!]`. -/
theorem countedPieces_eq_iff (pattern : List Char) :
    countedPieces pattern = fnmatchPieces pattern ↔ NoNegatedBracket pattern := by
  have hagree : fnmatchPieces pattern = countedPieces pattern ↔
      ∀ rest, '[' :: rest ∈ stops (fnmatchPieces pattern) →
        fnmatchCloser.close rest = specificityCloser.close rest :=
    pieces_eq_iff (by decide) le_rfl
  rw [eq_comm, hagree, NoNegatedBracket]
  constructor
  · intro h text htext hprefix
    obtain ⟨rest, rfl⟩ : ∃ rest, text = '[' :: rest := by
      obtain ⟨tail, rfl⟩ := hprefix
      exact ⟨_, rfl⟩
    exact (closers_agree_iff rest).mp (h rest htext) hprefix
  · intro h rest hrest
    exact (closers_agree_iff rest).mpr (h _ hrest)

/-! ## The counts -/

theorem isWildcard_tokenOf (p : Piece Char) : (tokenOf p).isWildcard = p.isWildcard := by
  cases p with
  | literal c => rfl
  | wildcard text =>
    unfold tokenOf
    split
    · rename_i heq
      cases heq
    · rfl
    · rfl
    · split <;> rfl

/-- Tokens are counted as their pieces are. -/
theorem tokenCounts_map (ps : List (Piece Char)) :
    tokenCounts (ps.map tokenOf) = pieceCounts ps := by
  simp only [tokenCounts, pieceCounts, List.countP_map, Function.comp_def, isWildcard_tokenOf]

theorem tokenCounts_globTokens (pattern : String) :
    tokenCounts (globTokens pattern.toList.length pattern.toList) =
      pieceCounts (fnmatchPieces pattern.toList) := by
  rw [globTokens_eq, tokenCounts_map, fnmatchPieces]

theorem pieceCounts_append (ps qs : List (Piece Char)) :
    pieceCounts (ps ++ qs) =
      ((pieceCounts ps).1 + (pieceCounts qs).1, (pieceCounts ps).2 + (pieceCounts qs).2) := by
  simp [pieceCounts]

/-- The second reader counts more wildcards than the first, or as many and no fewer characters; and
where they count the same, the first comes to no `[!]`. -/
structure Overcounted (ps qs : List (Piece Char)) : Prop where
  counts : (pieceCounts ps).2 < (pieceCounts qs).2 ∨
    (pieceCounts ps).2 = (pieceCounts qs).2 ∧ (pieceCounts ps).1 ≤ (pieceCounts qs).1
  clear : pieceCounts ps = pieceCounts qs → ∀ text ∈ stops ps, ¬ "[!]".toList <+: text

theorem Overcounted.cons {ps qs : List (Piece Char)} (h : Overcounted ps qs) (p : Piece Char)
    (hp : ¬ "[!]".toList <+: (p :: ps).flatMap Piece.text) : Overcounted (p :: ps) (p :: qs) := by
  have hsame : pieceCounts (p :: ps) = pieceCounts (p :: qs) → pieceCounts ps = pieceCounts qs := by
    intro heq
    cases p <;> simpa [Prod.ext_iff] using heq
  constructor
  · have hcounts := h.counts
    cases p with
    | literal c =>
      simp only [pieceCounts_literal]
      omega
    | wildcard text =>
      simp only [pieceCounts_wildcard]
      omega
  · intro heq text htext
    rcases List.mem_cons.mp htext with rfl | htext
    · exact hp
    · exact h.clear (hsame heq) text htext

/-- `[!]` that `fnmatch` does not close: three characters. -/
private theorem fnmatchPieces_unclosed {rest : List Char} (hclose : ']' ∉ rest) :
    fnmatchPieces ('[' :: '!' :: ']' :: rest) =
      .literal '[' :: .literal '!' :: .literal ']' :: fnmatchPieces rest := by
  have hend : fnmatchCloser.close ('!' :: ']' :: rest) = none := by
    rw [fnmatchCloser_bang, endSet_eq_none.mpr hclose, Option.map_none]
  simp only [fnmatchPieces, List.length_cons]
  rw [pieces_unclosed (by decide) hend, pieces_literal (by decide) (by decide),
    pieces_literal (by decide) (by decide)]

/-- `[!]` that it closes further on: one wildcard. -/
private theorem fnmatchPieces_closed {inside : List Char} (hinside : ']' ∉ inside)
    (after : List Char) :
    fnmatchPieces ('[' :: '!' :: ']' :: (inside ++ ']' :: after)) =
      .wildcard ('[' :: '!' :: ']' :: (inside ++ [']'])) :: fnmatchPieces after := by
  have hend : fnmatchCloser.close ('!' :: ']' :: (inside ++ ']' :: after)) = some after := by
    rw [fnmatchCloser_bang, endSet_append hinside, Option.map_some]
  have htake : ('!' :: ']' :: (inside ++ ']' :: after)).take
      (('!' :: ']' :: (inside ++ ']' :: after)).length - after.length) =
        '!' :: ']' :: (inside ++ [']']) := by
    have htext : '!' :: ']' :: (inside ++ ']' :: after) =
        ('!' :: ']' :: (inside ++ [']'])) ++ after := by simp
    rw [htext, List.length_append, Nat.add_sub_cancel, List.take_left]
  rw [fnmatchPieces, List.length_cons, pieces_closed (by decide) hend, htake, fnmatchPieces,
    pieces_eq_of_le after.length (by simp; omega) le_rfl]

/-- What is behind a `[!]` that `fnmatch` does not close reads as it is. -/
private theorem overcounted_unclosed {rest : List Char} (hclose : ']' ∉ rest)
    (h : Overcounted (fnmatchPieces rest) (countedPieces rest)) :
    Overcounted (fnmatchPieces ('[' :: '!' :: ']' :: rest))
      (countedPieces ('[' :: '!' :: ']' :: rest)) := by
  have hcounted : pieceCounts (countedPieces ('[' :: '!' :: ']' :: rest)) =
      ((pieceCounts (countedPieces rest)).1, (pieceCounts (countedPieces rest)).2 + 1) := by
    have hclose : specificityCloser.close ('!' :: ']' :: rest) = some rest := rfl
    simp only [countedPieces, List.length_cons]
    rw [pieces_closed (by decide) hclose, pieceCounts_wildcard,
      pieces_eq_of_le rest.length (by omega) le_rfl]
  have hcounts := h.counts
  rw [fnmatchPieces_unclosed hclose]
  constructor
  · rw [hcounted]
    simp only [pieceCounts_literal]
    omega
  · rw [hcounted]
    simp only [pieceCounts_literal, Prod.mk.injEq]
    intro heq
    omega

/-- Of a `[!]` closed further on by `fnmatch`, with no other bracket opened in it, the members
count, and the bracket behind them. -/
private theorem overcounted_closed {inside after : List Char} (hinside : ']' ∉ inside)
    (hplain : '[' ∉ inside) (h : Overcounted (fnmatchPieces after) (countedPieces after)) :
    Overcounted (fnmatchPieces ('[' :: '!' :: ']' :: (inside ++ ']' :: after)))
      (countedPieces ('[' :: '!' :: ']' :: (inside ++ ']' :: after))) := by
  have hcounted : ∃ literals wildcards,
      pieceCounts (countedPieces ('[' :: '!' :: ']' :: (inside ++ ']' :: after))) =
        (literals + ((pieceCounts (countedPieces after)).1 + 1),
          wildcards + (pieceCounts (countedPieces after)).2 + 1) := by
    have hclose : specificityCloser.close ('!' :: ']' :: (inside ++ ']' :: after)) =
        some (inside ++ ']' :: after) := rfl
    simp only [countedPieces, List.length_cons]
    rw [pieces_closed (by decide) hclose, pieceCounts_wildcard,
      pieces_eq_of_le (inside.length + (after.length + 1)) (by simp) (by simp),
      pieces_append hplain, pieceCounts_append, pieces_literal (by decide) (by decide),
      pieceCounts_literal]
    exact ⟨_, _, rfl⟩
  obtain ⟨literals, wildcards, hcounted⟩ := hcounted
  have hcounts := h.counts
  rw [fnmatchPieces_closed hinside after]
  constructor
  · rw [hcounted, pieceCounts_wildcard]
    omega
  · rw [hcounted, pieceCounts_wildcard, Prod.mk.injEq]
    intro heq
    omega

/-- No set from `[!]` on has a second bracket opened in it. -/
def PlainNegated (pattern : List Char) : Prop :=
  ∀ text, .wildcard text ∈ fnmatchPieces pattern → "[!]".toList <+: text → '[' ∉ text.tail

theorem PlainNegated.of_pieces {pattern rest : List Char} (h : PlainNegated pattern)
    (ps : List (Piece Char)) (hpieces : fnmatchPieces pattern = ps ++ fnmatchPieces rest) :
    PlainNegated rest := by
  intro text htext
  apply h text
  rw [hpieces]
  exact List.mem_append_right ps htext

/-- Where no `[!]` is next the two take the same piece. -/
theorem exists_same_piece {c : Char} {rest : List Char} (hbang : ¬ "[!]".toList <+: c :: rest) :
    ∃ p left, left.length ≤ rest.length ∧ p.text ++ left = c :: rest ∧
      fnmatchPieces (c :: rest) = p :: fnmatchPieces left ∧
      countedPieces (c :: rest) = p :: countedPieces left := by
  obtain ⟨p, left, hleft, htext, hstep⟩ := pieces_step isSingle '[' fnmatchCloser c rest
  have hagree : c = '[' → specificityCloser.close rest = fnmatchCloser.close rest := by
    rintro rfl
    exact ((closers_agree_iff rest).mpr hbang).symm
  refine ⟨p, left, hleft, htext, ?_, ?_⟩
  · rw [fnmatchPieces, List.length_cons, hstep _ _ fun _ => rfl, fnmatchPieces,
      pieces_eq_of_le left.length hleft le_rfl]
  · rw [countedPieces, List.length_cons, hstep _ _ hagree, countedPieces,
      pieces_eq_of_le left.length hleft le_rfl]

/-- **A `[!]` with no second bracket in it is always overcounted.** -/
theorem overcounted (pattern : List Char) (hplain : PlainNegated pattern) :
    Overcounted (fnmatchPieces pattern) (countedPieces pattern) := by
  -- on the length, as a set is left behind at once
  induction hlength : pattern.length using Nat.strong_induction_on generalizing pattern with
  | _ n ih =>
    subst hlength
    cases pattern with
    | nil =>
      refine ⟨Or.inr ⟨rfl, le_rfl⟩, fun _ text htext => ?_⟩
      obtain rfl := List.mem_singleton.mp htext
      decide
    | cons c rest =>
      by_cases hbang : "[!]".toList <+: c :: rest
      · obtain ⟨rest, rfl, rfl⟩ : ∃ rest', c = '[' ∧ rest = '!' :: ']' :: rest' := by
          obtain ⟨rest', heq⟩ := hbang
          obtain ⟨rfl, rfl⟩ := List.cons.inj heq
          exact ⟨rest', rfl, rfl⟩
        cases hclose : endSet true ']' rest with
        | none =>
          -- three characters for `fnmatch`, a wildcard for `specificity`
          have hunclosed := endSet_eq_none.mp hclose
          apply overcounted_unclosed hunclosed
          apply ih rest.length (by simp; omega) rest _ rfl
          exact hplain.of_pieces [.literal '[', .literal '!', .literal ']']
            (fnmatchPieces_unclosed hunclosed)
        | some parts =>
          -- a wildcard for both, which only `fnmatch` goes on with
          obtain ⟨negated, items, after⟩ := parts
          obtain ⟨inside, hinside, rfl, -⟩ := exists_inside hclose
          have hpieces := fnmatchPieces_closed hinside after
          have hmembers : '[' ∉ inside := by
            have hset := hplain _ (hpieces ▸ List.mem_cons_self ..) ⟨inside ++ [']'], rfl⟩
            simpa using hset
          apply overcounted_closed hinside hmembers
          apply ih after.length (by simp; omega) after _ rfl
          exact hplain.of_pieces [_] hpieces
      · obtain ⟨p, left, hleft, htext, hfnmatch, hcounted⟩ := exists_same_piece hbang
        rw [hfnmatch, hcounted]
        apply Overcounted.cons
        · apply ih left.length (Nat.lt_succ_of_le hleft) left _ rfl
          exact hplain.of_pieces [p] hfnmatch
        · rwa [List.flatMap_cons, fnmatchPieces, flatMap_text le_rfl, htext]

/-! ## What specificity reads -/

/-- **Specificity reads a pattern as `fnmatch` does** exactly if `fnmatch` comes to no `[!]`. Its
counts are right then; and they are right then only, unless such a set holds a second bracket. -/
theorem specificity_reads_iff (pattern : String) :
    (countedPieces pattern.toList = fnmatchPieces pattern.toList ↔
      NoNegatedBracket pattern.toList) ∧
    (NoNegatedBracket pattern.toList → specificity pattern =
      tokenCounts (globTokens pattern.toList.length pattern.toList)) ∧
    (PlainNegated pattern.toList → specificity pattern =
      tokenCounts (globTokens pattern.toList.length pattern.toList) →
        NoNegatedBracket pattern.toList) := by
  rw [specificity_eq, tokenCounts_globTokens]
  refine ⟨countedPieces_eq_iff _, ?_, ?_⟩
  · intro h
    rw [(countedPieces_eq_iff _).mpr h]
  · intro hplain heq
    exact (overcounted _ hplain).clear heq.symm

/-- The bracket that `fnmatch` takes as a member ends the set of `specificity`. -/
theorem specificity_misreads :
    specificity "model.[!]a]" = (8, 1) ∧
    tokenCounts (globTokens 11 "model.[!]a]".toList) = (6, 1) ∧
    countedPieces "model.[!]a]".toList ≠ fnmatchPieces "model.[!]a]".toList := by
  decide +kernel

end PlatformOps.Metadata
