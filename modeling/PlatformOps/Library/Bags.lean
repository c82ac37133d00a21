import Mathlib

/-!
# Bags of Rows

Joins, groups and cuts of multisets, and how they follow a map of the rows: where what
an operation asks of a row can be asked of its image, mapping the result is operating
on the images.

- `map_join`: a join of images.
- `card_join`, `card_join_of_never`: how many rows a join has whose condition always or
  never holds.
- `map_groups`: the groups of images.
- `exists_cut_of_map_eq`: bags with equal images can be cut with equal images.
- `exists_cut`, `exists_representatives`: in an order there is a cut; of rows that look
  alike, one can be kept.
-/

namespace Bags

variable {α β γ δ : Type*}

/-! ## Joins -/

inductive Side
  | inner | left | right | full
deriving DecidableEq, Repr

/-- The pairs a condition holds of. -/
def matched (on : α → β → Bool) (M : Multiset α) (N : Multiset β) :
    Multiset (Option α × Option β) :=
  M.bind fun a => (N.filter fun b => on a b).map fun b => (some a, some b)

/-- What the left side has without a match. -/
def leftOver (on : α → β → Bool) (M : Multiset α) (N : Multiset β) :
    Multiset (Option α × Option β) :=
  (M.filter fun a => ∀ b ∈ N, on a b = false).map fun a => (some a, none)

/-- What the right side has without a match. -/
def rightOver (on : α → β → Bool) (M : Multiset α) (N : Multiset β) :
    Multiset (Option α × Option β) :=
  (N.filter fun b => ∀ a ∈ M, on a b = false).map fun b => (none, some b)

/-- A join; the side without a match is missing. -/
def join (side : Side) (on : α → β → Bool) (M : Multiset α) (N : Multiset β) :
    Multiset (Option α × Option β) :=
  matched on M N +
    (if side = .left ∨ side = .full then leftOver on M N else 0) +
    (if side = .right ∨ side = .full then rightOver on M N else 0)

/-- The sides of a joined pair are rows of the sides. -/
theorem mem_of_mem_join {side : Side} {on : α → β → Bool} {M : Multiset α} {N : Multiset β}
    {x : Option α × Option β} (h : x ∈ join side on M N) :
    (∀ a ∈ x.1, a ∈ M) ∧ ∀ b ∈ x.2, b ∈ N := by
  have hmatched : x ∈ matched on M N → (∀ a ∈ x.1, a ∈ M) ∧ ∀ b ∈ x.2, b ∈ N := by
    intro h
    obtain ⟨a, ha, hx⟩ := Multiset.mem_bind.mp h
    obtain ⟨b, hb, rfl⟩ := Multiset.mem_map.mp hx
    simpa using ⟨ha, (Multiset.mem_filter.mp hb).1⟩
  have hleft : x ∈ leftOver on M N → (∀ a ∈ x.1, a ∈ M) ∧ ∀ b ∈ x.2, b ∈ N := by
    intro h
    obtain ⟨a, ha, rfl⟩ := Multiset.mem_map.mp h
    simpa using (Multiset.mem_filter.mp ha).1
  have hright : x ∈ rightOver on M N → (∀ a ∈ x.1, a ∈ M) ∧ ∀ b ∈ x.2, b ∈ N := by
    intro h
    obtain ⟨b, hb, rfl⟩ := Multiset.mem_map.mp h
    simpa using (Multiset.mem_filter.mp hb).1
  -- A side whose rows are not kept adds none.
  rw [join, Multiset.mem_add, Multiset.mem_add] at h
  rcases h with (h | h) | h
  · exact hmatched h
  · split at h
    · exact hleft h
    · exact absurd h (Multiset.notMem_zero x)
  · split at h
    · exact hright h
    · exact absurd h (Multiset.notMem_zero x)

section Maps

variable {f : α → γ} {g : β → δ} {on : α → β → Bool} {on' : γ → δ → Bool}

private theorem map_matched (h : ∀ a b, on' (f a) (g b) = on a b) (M : Multiset α)
    (N : Multiset β) :
    (matched on M N).map (Prod.map (Option.map f) (Option.map g)) =
      matched on' (M.map f) (N.map g) := by
  rw [matched, matched, Multiset.map_bind, Multiset.bind_map]
  refine Multiset.bind_congr fun a _ => ?_
  rw [Multiset.filter_map, Multiset.map_map, Multiset.map_map]
  simp only [Function.comp_def, h]
  rfl

private theorem map_leftOver (h : ∀ a b, on' (f a) (g b) = on a b) (M : Multiset α)
    (N : Multiset β) :
    (leftOver on M N).map (Prod.map (Option.map f) (Option.map g)) =
      leftOver on' (M.map f) (N.map g) := by
  rw [leftOver, leftOver, Multiset.filter_map, Multiset.map_map, Multiset.map_map]
  simp only [Function.comp_def, Multiset.forall_mem_map_iff, h]
  rfl

private theorem map_rightOver (h : ∀ a b, on' (f a) (g b) = on a b) (M : Multiset α)
    (N : Multiset β) :
    (rightOver on M N).map (Prod.map (Option.map f) (Option.map g)) =
      rightOver on' (M.map f) (N.map g) := by
  rw [rightOver, rightOver, Multiset.filter_map, Multiset.map_map, Multiset.map_map]
  simp only [Function.comp_def, Multiset.forall_mem_map_iff, h]
  rfl

/-- **A join of images** is the image of the join. -/
theorem map_join (side : Side) (h : ∀ a b, on' (f a) (g b) = on a b) (M : Multiset α)
    (N : Multiset β) :
    (join side on M N).map (Prod.map (Option.map f) (Option.map g)) =
      join side on' (M.map f) (N.map g) := by
  rw [join, join, Multiset.map_add, Multiset.map_add, map_matched h]
  congr 1
  · congr 1
    split
    · exact map_leftOver h M N
    · rfl
  · split
    · exact map_rightOver h M N
    · rfl

end Maps

section Cards

variable {side : Side} {on : α → β → Bool} {M : Multiset α} {N : Multiset β}

/-- Where the condition always holds, every pair is there, and nothing without a match. -/
theorem join_of_always (h : ∀ a ∈ M, ∀ b ∈ N, on a b = true) (hM : M ≠ 0) (hN : N ≠ 0) :
    join side on M N = M.bind fun a => N.map fun b => (some a, some b) := by
  obtain ⟨a, ha⟩ := Multiset.exists_mem_of_ne_zero hM
  obtain ⟨b, hb⟩ := Multiset.exists_mem_of_ne_zero hN
  have hmatched : matched on M N = M.bind fun a => N.map fun b => (some a, some b) := by
    refine Multiset.bind_congr fun a ha => ?_
    rw [Multiset.filter_eq_self.mpr (h a ha)]
  have hleft : leftOver on M N = 0 := by
    rw [leftOver, Multiset.filter_eq_nil.mpr, Multiset.map_zero]
    intro a' ha' hnone
    exact absurd (hnone b hb) (by rw [h a' ha' b hb]; decide)
  have hright : rightOver on M N = 0 := by
    rw [rightOver, Multiset.filter_eq_nil.mpr, Multiset.map_zero]
    intro b' hb' hnone
    exact absurd (hnone a ha) (by rw [h a ha b' hb']; decide)
  rw [join, hmatched, hleft, hright]
  simp

/-- A left join whose condition never holds keeps its left side. -/
theorem leftJoin_of_never (h : ∀ a ∈ M, ∀ b ∈ N, on a b = false) :
    join .left on M N = M.map fun a => (some a, none) := by
  have hmatched : matched on M N = 0 := by
    rw [matched, Multiset.bind_congr (g := fun _ => 0), Multiset.bind_zero]
    intro a ha
    rw [Multiset.filter_eq_nil.mpr, Multiset.map_zero]
    intro b hb htrue
    rw [h a ha b hb] at htrue
    cases htrue
  have hleft : leftOver on M N = M.map fun a => (some a, none) := by
    rw [leftOver, Multiset.filter_eq_self.mpr h]
  rw [join, hmatched, hleft]
  simp

end Cards

/-! ## Groups -/

/-- The rows of each key. -/
def groups [DecidableEq β] (key : α → β) (M : Multiset α) : Multiset (Multiset α) :=
  (M.map key).dedup.map fun k => M.filter fun a => key a = k

/-- Under one key there is one group. -/
theorem groups_const [DecidableEq β] (k : β) {M : Multiset α} (hM : M ≠ 0) :
    groups (fun _ => k) M = {M} := by
  have hkeys : (M.map fun _ => k).dedup = {k} := by
    obtain ⟨a, ha⟩ := Multiset.exists_mem_of_ne_zero hM
    refine (Multiset.Nodup.ext (Multiset.nodup_dedup _) (Multiset.nodup_singleton k)).mpr ?_
    intro b
    rw [Multiset.mem_dedup, Multiset.mem_map, Multiset.mem_singleton]
    exact ⟨fun ⟨_, _, h⟩ => h.symm, fun h => ⟨a, ha, h.symm⟩⟩
  rw [groups, hkeys, Multiset.map_singleton, Multiset.filter_eq_self.mpr fun _ _ => rfl]

theorem map_groups [DecidableEq β] {f : α → γ} {key : α → β} {key' : γ → β}
    (h : ∀ a, key' (f a) = key a) (M : Multiset α) :
    (groups key M).map (Multiset.map f) = groups key' (M.map f) := by
  rw [groups, groups, Multiset.map_map, Multiset.map_map]
  have hkeys : key' ∘ f = key := funext h
  rw [hkeys]
  refine Multiset.map_congr rfl fun k _ => ?_
  rw [Multiset.filter_map]
  simp only [Function.comp_def, h]

/-! ## Cuts -/

/-- The first `n` rows in an order are kept; rows the order does not tell apart, any of them. -/
def Cut [DecidableEq α] (n : ℕ) (before : α → α → Bool) (M kept : Multiset α) : Prop :=
  kept ≤ M ∧ kept.card = min n M.card ∧ ∀ x ∈ kept, ∀ y ∈ M - kept, before y x = false

/-- A part of an image is the image of a part. -/
theorem exists_le_map_eq {f : α → γ} {M : Multiset α} {S : Multiset γ} (h : S ≤ M.map f) :
    ∃ part ≤ M, part.map f = S := by
  induction M using Multiset.induction generalizing S with
  | empty =>
    rw [Multiset.map_zero, Multiset.le_zero] at h
    exact ⟨0, le_rfl, h.symm⟩
  | cons a M ih =>
    rw [Multiset.map_cons] at h
    by_cases hmem : f a ∈ S
    · obtain ⟨rest, rfl⟩ := Multiset.exists_cons_of_mem hmem
      obtain ⟨part, hpart, hmap⟩ := ih ((Multiset.cons_le_cons_iff _).mp h)
      exact ⟨a ::ₘ part, Multiset.cons_le_cons a hpart, by rw [Multiset.map_cons, hmap]⟩
    · obtain ⟨part, hpart, hmap⟩ := ih ((Multiset.le_cons_of_notMem hmem).mp h)
      exact ⟨part, hpart.trans (Multiset.le_cons_self M a), hmap⟩

/-- Of the rows with one image, one is kept. -/
def Representatives [DecidableEq γ] (f : α → γ) (M kept : Multiset α) : Prop :=
  kept ≤ M ∧ kept.map f = (M.map f).dedup

theorem exists_representatives [DecidableEq γ] (f : α → γ) (M : Multiset α) :
    ∃ kept, Representatives f M kept :=
  exists_le_map_eq (Multiset.dedup_le (M.map f))

/-- The only row is its own representative. -/
theorem representatives_singleton [DecidableEq γ] {f : α → γ} {a : α} {kept : Multiset α}
    (h : Representatives f {a} kept) : kept = {a} := by
  obtain ⟨hle, hmap⟩ := h
  rw [Multiset.map_singleton, Multiset.dedup_singleton] at hmap
  apply Multiset.eq_of_le_of_card_le hle
  rw [← Multiset.card_map f kept, hmap, Multiset.card_singleton, Multiset.card_singleton]

/-- Some row comes first. -/
theorem exists_first {before : α → α → Bool} (hirrefl : ∀ x, before x x = false)
    (htrans : ∀ x y z, before x y = true → before y z = true → before x z = true)
    {M : Multiset α} (hM : M ≠ 0) : ∃ first ∈ M, ∀ y ∈ M, before y first = false := by
  induction M using Multiset.induction with
  | empty => exact absurd rfl hM
  | cons a M ih =>
    by_cases hempty : M = 0
    · subst hempty
      exact ⟨a, Multiset.mem_cons_self a 0, by simpa using hirrefl a⟩
    obtain ⟨first, hfirst, hleast⟩ := ih hempty
    cases hbefore : before a first with
    | false =>
      refine ⟨first, Multiset.mem_cons_of_mem hfirst, fun y hy => ?_⟩
      obtain rfl | hy := Multiset.mem_cons.mp hy
      · exact hbefore
      · exact hleast y hy
    | true =>
      -- what came before the new row would come before the old first one
      refine ⟨a, Multiset.mem_cons_self a M, fun y hy => ?_⟩
      obtain rfl | hy := Multiset.mem_cons.mp hy
      · exact hirrefl y
      · by_contra hcontra
        have hlater := htrans y a first (Bool.eq_true_of_not_eq_false hcontra) hbefore
        rw [hleast y hy] at hlater
        cases hlater

/-- **In an order there is a cut**: the first rows, one after the other. -/
theorem exists_cut [DecidableEq α] {before : α → α → Bool} (hirrefl : ∀ x, before x x = false)
    (htrans : ∀ x y z, before x y = true → before y z = true → before x z = true)
    (n : ℕ) (M : Multiset α) : ∃ kept, Cut n before M kept := by
  induction n with
  | zero => exact ⟨0, Multiset.zero_le M, by simp, fun x hx => absurd hx (Multiset.notMem_zero x)⟩
  | succ n ih =>
    obtain ⟨kept, hle, hcard, hfirst⟩ := ih
    by_cases hall : M - kept = 0
    · refine ⟨kept, hle, ?_, hfirst⟩
      have hkept := congrArg Multiset.card hall
      rw [Multiset.card_sub hle, Multiset.card_zero] at hkept
      have hsmall := Multiset.card_le_card hle
      omega
    obtain ⟨first, hmem, hleast⟩ := exists_first hirrefl htrans hall
    have hsplit : M = kept + (M - kept) := (add_tsub_cancel_of_le hle).symm
    have hrest : M - (first ::ₘ kept) = (M - kept).erase first := by
      rw [← Multiset.sub_singleton, tsub_tsub, add_comm, Multiset.singleton_add]
    refine ⟨first ::ₘ kept, ?_, ?_, ?_⟩
    · rw [hsplit, ← Multiset.singleton_add, add_comm]
      exact add_le_add_right (Multiset.singleton_le.mpr hmem) kept
    · have hpos := Multiset.card_pos.mpr hall
      rw [Multiset.card_sub hle] at hpos
      rw [Multiset.card_cons]
      omega
    · intro x hx y hy
      have hleft : y ∈ M - kept := Multiset.mem_of_mem_erase (hrest ▸ hy)
      obtain rfl | hx := Multiset.mem_cons.mp hx
      · exact hleast y hleft
      · exact hfirst x hx y hleft

/-- **Bags with equal images can be cut with equal images**, where the order can be read off the
images. -/
theorem exists_cut_of_map_eq [DecidableEq α] [DecidableEq β] {n : ℕ} {before : γ → γ → Bool}
    {f : α → γ} {g : β → γ}
    {M kept : Multiset α} {N : Multiset β} (himage : M.map f = N.map g)
    (hcut : Cut n (fun x y => before (f x) (f y)) M kept) :
    ∃ kept', Cut n (fun x y => before (g x) (g y)) N kept' ∧ kept'.map g = kept.map f := by
  obtain ⟨hle, hcard, hfirst⟩ := hcut
  obtain ⟨kept', hle', hmap⟩ := exists_le_map_eq (himage ▸ Multiset.map_le_map (f := f) hle)
  -- What is left out has the same images, too.
  have hrest : (N - kept').map g = (M - kept).map f := by
    have hM : kept.map f + (M - kept).map f = M.map f := by
      rw [← Multiset.map_add, add_tsub_cancel_of_le hle]
    have hN : kept'.map g + (N - kept').map g = N.map g := by
      rw [← Multiset.map_add, add_tsub_cancel_of_le hle']
    rw [← himage, ← hM, hmap] at hN
    exact add_left_cancel hN
  refine ⟨kept', ⟨hle', ?_, ?_⟩, hmap⟩
  · rw [← Multiset.card_map g kept', hmap, Multiset.card_map, hcard, ← Multiset.card_map f M,
      himage, Multiset.card_map]
  · intro x hx y hy
    obtain ⟨x', hx', hxx⟩ := Multiset.mem_map.mp (hmap ▸ Multiset.mem_map_of_mem g hx)
    obtain ⟨y', hy', hyy⟩ := Multiset.mem_map.mp (hrest ▸ Multiset.mem_map_of_mem g hy)
    show before (g y) (g x) = false
    rw [← hxx, ← hyy]
    exact hfirst x' hx' y' hy'

end Bags
