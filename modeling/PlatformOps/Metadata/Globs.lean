import PlatformOps.Metadata.Bootstrap

/-!
# Patterns That Are Literal, Or a Literal Start

A pattern without wildcards matches itself only, and one whose only wildcard is a
`*` at its end matches what starts as it does.
-/

namespace PlatformOps.Metadata

/-- The characters `fnmatch` reads as wildcards. -/
def isGlob (c : Char) : Bool :=
  c = '*' || c = '?' || c = '['

/-- A text without wildcards. -/
def GlobFree (text : List Char) : Prop :=
  ∀ c ∈ text, isGlob c = false

theorem GlobFree.append {a b : List Char} (ha : GlobFree a) (hb : GlobFree b) :
    GlobFree (a ++ b) := by
  intro c hc
  rcases List.mem_append.mp hc with hc | hc
  · exact ha c hc
  · exact hb c hc

theorem GlobFree.of_isPrefix {a b : List Char} (hb : GlobFree b) (h : a <+: b) : GlobFree a :=
  fun c hc => hb c (h.subset hc)

theorem globTokens_cons {c : Char} (hc : isGlob c = false) (fuel : ℕ) (rest : List Char) :
    globTokens (fuel + 1) (c :: rest) = .literal c :: globTokens fuel rest := by
  simp only [isGlob, Bool.or_eq_false_iff, decide_eq_false_iff_not] at hc
  rw [globTokens]
  · exact hc.1.1
  · exact hc.1.2
  · exact hc.2

theorem globTokens_append {start : List Char} (h : GlobFree start) (fuel : ℕ) (rest : List Char) :
    globTokens (start.length + fuel) (start ++ rest) =
      start.map .literal ++ globTokens fuel rest := by
  induction start with
  | nil => simp
  | cons c start ih =>
    have hlength : (c :: start).length + fuel = (start.length + fuel) + 1 := by
      simp only [List.length_cons]
      omega
    rw [hlength, List.cons_append, globTokens_cons (h c (by simp)),
      ih fun c hc => h c (List.mem_cons_of_mem _ hc)]
    rfl

theorem globMatches_literals {start text : List Char} {tokens : List GlobToken} :
    globMatches (start.map .literal ++ tokens) text = true ↔
      ∃ rest, text = start ++ rest ∧ globMatches tokens rest = true := by
  induction start generalizing text with
  | nil => simp
  | cons c start ih =>
    cases text with
    | nil => simp [globMatches]
    | cons x text =>
      simp only [List.map_cons, List.cons_append, globMatches, Bool.and_eq_true,
        decide_eq_true_eq, ih, List.cons.injEq]
      constructor
      · rintro ⟨rfl, rest, rfl, hrest⟩
        exact ⟨rest, ⟨rfl, rfl⟩, hrest⟩
      · rintro ⟨rest, ⟨rfl, rfl⟩, hrest⟩
        exact ⟨rfl, rest, rfl, hrest⟩

/-- What a pattern matches starts with the pattern's literal start. -/
theorem prefix_of_fnmatchcase {name pattern : String} {start : List Char}
    (hfree : GlobFree start) (hstart : start <+: pattern.toList)
    (h : fnmatchcase name pattern = true) : start <+: name.toList := by
  obtain ⟨rest, hrest⟩ := hstart
  rw [fnmatchcase, ← hrest, List.length_append, globTokens_append hfree,
    globMatches_literals] at h
  obtain ⟨tail, htail, -⟩ := h
  exact ⟨tail, htail.symm⟩

/-- A pattern without wildcards matches itself only. -/
theorem fnmatchcase_exact {name pattern : String} (hfree : GlobFree pattern.toList) :
    fnmatchcase name pattern = true ↔ name = pattern := by
  have htokens := globTokens_append hfree 0 []
  rw [List.append_nil, Nat.add_zero] at htokens
  rw [fnmatchcase, htokens, globMatches_literals, ← String.toList_inj]
  simp [globTokens, globMatches]

/-- A pattern whose only wildcard is a `*` at its end matches what starts as it does. -/
theorem fnmatchcase_star {name start : String} (hfree : GlobFree start.toList) :
    fnmatchcase name (start ++ "*") = true ↔ start.toList <+: name.toList := by
  have hstar : (start ++ "*").toList = start.toList ++ ['*'] := by simp
  rw [fnmatchcase, hstar, List.length_append, globTokens_append hfree, globMatches_literals]
  constructor
  · rintro ⟨rest, hrest, -⟩
    exact ⟨rest, hrest.symm⟩
  · rintro ⟨rest, hrest⟩
    refine ⟨rest, hrest.symm, ?_⟩
    -- The star takes all of the rest.
    simp only [List.length_singleton, globTokens, globMatches, List.any_eq_true, List.mem_tails]
    exact ⟨[], List.nil_suffix, rfl⟩

end PlatformOps.Metadata
