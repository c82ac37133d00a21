import PlatformOps.Library.Listing

/-!
# Ordered Answers

A query with an `ORDER BY` answers with the rows in some order that its key allows:
rows of one key may come either way. This file says what such an answer has to look
like, and when there is only one.

- `OrderedBy`: a list of the rows in an order the key allows.
- `OrderedBy.eq_of_strict`: rows listed with strictly growing keys have one answer.
- `exists_orderedBy_swapped`, `exists_orderedBy_before`: what the key leaves open comes
  either way in some answer.
-/

namespace Ordered

variable {α κ : Type*} [LinearOrder κ] {key : α → κ} {rows answer : List α}

/-- An answer to `SELECT … ORDER BY key`. -/
structure OrderedBy (key : α → κ) (rows answer : List α) : Prop where
  perm : answer.Perm rows
  sorted : answer.Pairwise fun a b => key a ≤ key b

/-- There always is an answer. -/
theorem orderedBy_sortBy (key : α → κ) (rows : List α) :
    OrderedBy key rows (Listing.sortBy key rows) :=
  ⟨Listing.perm_sortBy key rows, Listing.pairwise_sortBy key rows⟩

/-- An answer has the rows. -/
theorem OrderedBy.mem_iff (h : OrderedBy key rows answer) {a : α} : a ∈ answer ↔ a ∈ rows :=
  h.perm.mem_iff

/-- Some of the rows are answered in the same way. -/
theorem OrderedBy.filter (h : OrderedBy key rows answer) (p : α → Bool) :
    OrderedBy key (rows.filter p) (answer.filter p) :=
  ⟨h.perm.filter p, h.sorted.filter p⟩

/-- **Rows with strictly growing keys have one answer.** -/
theorem OrderedBy.eq_of_strict (h : OrderedBy key rows answer)
    (hstrict : rows.Pairwise fun a b => key a < key b) : answer = rows := by
  -- the keys tell the rows apart
  have hkeys : ∀ a ∈ rows, ∀ b ∈ rows, key a = key b → a = b := by
    apply List.inj_on_of_nodup_map
    exact List.pairwise_map.mpr (hstrict.imp fun hlt => hlt.ne)
  apply List.Perm.eq_of_pairwise _ h.sorted (hstrict.imp fun hlt => hlt.le) h.perm
  intro a b ha hb hab hba
  exact hkeys a (h.mem_iff.mp ha) b hb (le_antisymm hab hba)

/-- **Two rows listed against their keys** come the other way round in some answer. -/
theorem exists_orderedBy_swapped {a b : α} (hlisted : [a, b].Sublist rows) (hkey : key b ≤ key a) :
    ∃ answer, OrderedBy key rows answer ∧ [b, a].Sublist answer := by
  refine ⟨Listing.sortBy key rows.reverse, ⟨?_, Listing.pairwise_sortBy key _⟩, ?_⟩
  · exact (Listing.perm_sortBy key _).trans (List.reverse_perm rows)
  · -- sorting keeps what is in order
    have : Std.Total fun a b : α => key a ≤ key b := ⟨fun a b => le_total _ _⟩
    have : IsTrans α fun a b => key a ≤ key b := ⟨fun _ _ _ => le_trans⟩
    apply List.sublist_insertionSort
    · exact List.pairwise_pair.mpr hkey
    · exact List.reverse_sublist.mpr hlisted

/-- Two rows are listed one way or the other. -/
private theorem sublist_or_sublist {a b : α} (ha : a ∈ rows) (hb : b ∈ rows) (hne : a ≠ b) :
    [a, b].Sublist rows ∨ [b, a].Sublist rows := by
  induction rows with
  | nil => cases ha
  | cons c rest ih =>
    rcases List.mem_cons.mp ha with rfl | ha'
    · have hb' := (List.mem_cons.mp hb).resolve_left (Ne.symm hne)
      exact Or.inl ((List.singleton_sublist.mpr hb').cons_cons a)
    · rcases List.mem_cons.mp hb with rfl | hb'
      · exact Or.inr ((List.singleton_sublist.mpr ha').cons_cons b)
      · rcases ih ha' hb' with h | h
        · exact Or.inl (h.cons c)
        · exact Or.inr (h.cons c)

/-- **A row comes before another in some answer** that its key does not put after it. -/
theorem exists_orderedBy_before {a b : α} (ha : a ∈ rows) (hb : b ∈ rows) (hne : a ≠ b)
    (hkey : key b ≤ key a) : ∃ answer, OrderedBy key rows answer ∧ [b, a].Sublist answer := by
  rcases sublist_or_sublist ha hb hne with hlisted | hlisted
  · exact exists_orderedBy_swapped hlisted hkey
  · refine ⟨Listing.sortBy key rows, orderedBy_sortBy key rows, ?_⟩
    have : Std.Total fun a b : α => key a ≤ key b := ⟨fun a b => le_total _ _⟩
    have : IsTrans α fun a b => key a ≤ key b := ⟨fun _ _ _ => le_trans⟩
    exact List.sublist_insertionSort (List.pairwise_pair.mpr hkey) hlisted

end Ordered
