import Mathlib.Tactic

/-!
# Numbered Changes

A store that records which of a list of numbered changes it has had. To upgrade it is to make
the changes whose number is over the greatest recorded one, in order.

- `upgrade_take`: where numbers increase, a store that has had the first `j` changes and is
  upgraded to the first `n` is given those between, each once, and none if `n` is less.
-/

namespace Upgrades

variable {μ σ ε : Type*} (version : μ → ℕ) (run : μ → σ → Except ε σ)

/-- Changes one after the other. -/
def runAll (changes : List μ) (s : σ) : Except ε σ :=
  changes.foldlM (fun s m => run m s) s

/-- The greatest number recorded, or zero. -/
def current (applied : List ℕ) : ℕ :=
  applied.max?.getD 0

/-- One round of an upgrade. -/
def round (reached : ℕ) (db : List ℕ × σ) (m : μ) : Except ε (List ℕ × σ) :=
  if version m ≤ reached then .ok db
  else do
    let s ← run m db.2
    return (db.1 ++ [version m], s)

def upgrade (release : List μ) (db : List ℕ × σ) : Except ε (List ℕ × σ) :=
  release.foldlM (round version run (current db.1)) db

variable {version run} {all : List μ} {s : σ}

theorem runAll_append (changes more : List μ) (s : σ) :
    runAll run (changes ++ more) s = runAll run changes s >>= runAll run more :=
  List.foldlM_append ..

/-- A part of the changes fails only where the whole does. -/
theorem exists_runAll_append {changes more : List μ} {t : σ}
    (h : runAll run (changes ++ more) s = .ok t) :
    ∃ u, runAll run changes s = .ok u ∧ runAll run more u = .ok t := by
  rw [runAll_append] at h
  cases hfirst : runAll run changes s with
  | error e =>
    rw [hfirst] at h
    cases h
  | ok u =>
    rw [hfirst] at h
    exact ⟨u, rfl, h⟩

/-- **The rule for changes**: what each of them keeps, all of them keep. -/
theorem runAll_invariant {I : σ → Prop} {changes : List μ} {s t : σ}
    (h : runAll run changes s = .ok t) (hinit : I s)
    (hstep : ∀ m ∈ changes, ∀ s t, I s → run m s = .ok t → I t) : I t := by
  induction changes generalizing s with
  | nil =>
    obtain rfl := Except.ok.inj h
    exact hinit
  | cons m changes ih =>
    obtain ⟨hm, hchanges⟩ := List.forall_mem_cons.mp hstep
    rw [runAll, List.foldlM_cons] at h
    cases hfirst : run m s with
    | error e =>
      rw [hfirst] at h
      cases h
    | ok u =>
      rw [hfirst] at h
      exact ih h (hm s u hinit hfirst) hchanges

/-- Changes that do not look at a part of the store do not touch it. -/
theorem runAll_map {f : σ → σ} (hf : ∀ m s, run m (f s) = (run m s).map f) (changes : List μ)
    (s : σ) : runAll run changes (f s) = (runAll run changes s).map f := by
  induction changes generalizing s with
  | nil => rfl
  | cons m changes ih =>
    rw [runAll, runAll, List.foldlM_cons, List.foldlM_cons, hf]
    cases run m s with
    | error e => rfl
    | ok t => exact ih t

theorem le_current {applied : List ℕ} {v : ℕ} (h : v ∈ applied) : v ≤ current applied := by
  rw [current, List.max?_eq_some_max (List.ne_nil_of_mem h), Option.getD_some]
  exact List.le_max_of_mem h

theorem current_lt {applied : List ℕ} {v : ℕ} (hpos : 0 < v) (h : ∀ w ∈ applied, w < v) :
    current applied < v := by
  rw [current]
  cases hmax : applied.max? with
  | none => exact hpos
  | some w => exact h w (List.max?_mem hmax)

/-- Changes that a store has had are passed over. -/
theorem foldlM_round_old {reached : ℕ} {changes : List μ} (db : List ℕ × σ)
    (h : ∀ m ∈ changes, version m ≤ reached) :
    changes.foldlM (round version run reached) db = .ok db := by
  induction changes with
  | nil => rfl
  | cons m changes ih =>
    obtain ⟨hm, hchanges⟩ := List.forall_mem_cons.mp h
    rw [List.foldlM_cons, round, if_pos hm]
    exact ih hchanges

/-- The others are made and recorded. -/
theorem foldlM_round_new {reached : ℕ} {changes : List μ} (db : List ℕ × σ)
    (h : ∀ m ∈ changes, reached < version m) :
    changes.foldlM (round version run reached) db =
      (runAll run changes db.2).map fun s => (db.1 ++ changes.map version, s) := by
  induction changes generalizing db with
  | nil =>
    show Except.ok db = Except.ok (db.1 ++ [], db.2)
    rw [List.append_nil]
  | cons m changes ih =>
    obtain ⟨hm, hchanges⟩ := List.forall_mem_cons.mp h
    rw [List.foldlM_cons, round, if_neg hm.not_ge, runAll, List.foldlM_cons]
    cases run m db.2 with
    | error e => rfl
    | ok s =>
      have hrest := ih (db.1 ++ [version m], s) hchanges
      rw [List.append_assoc, List.singleton_append] at hrest
      exact hrest

theorem take_append_drop_take (all : List μ) (j n : ℕ) :
    all.take j ++ (all.take n).drop j = all.take (max j n) := by
  obtain hle | hle := le_total j n
  · have htake : all.take j = (all.take n).take j := by
      rw [List.take_take, Nat.min_eq_left hle]
    rw [htake, List.take_append_drop, max_eq_right hle]
  · rw [List.drop_of_length_le ((List.length_take_le n all).trans hle), List.append_nil,
      max_eq_left hle]

/-- **An upgrade makes the changes between**, each once, and none where the store is ahead. -/
theorem upgrade_take (hall : (all.map version).Pairwise (· < ·))
    (hpos : ∀ m ∈ all, 0 < version m) (j n : ℕ) (s : σ) :
    upgrade version run (all.take n) ((all.take j).map version, s) =
      (runAll run ((all.take n).drop j) s).map fun s =>
        ((all.take (max j n)).map version, s) := by
  have hbefore : ∀ m ∈ (all.take n).take j,
      version m ≤ current ((all.take j).map version) := by
    intro m hm
    rw [List.take_take] at hm
    apply le_current
    exact List.mem_map_of_mem (List.take_subset_take_left all (Nat.min_le_left j n) hm)
  have hafter : ∀ m ∈ (all.take n).drop j,
      current ((all.take j).map version) < version m := by
    intro m hm
    rw [List.drop_take] at hm
    have hm : m ∈ all.drop j := List.mem_of_mem_take hm
    apply current_lt (hpos m (List.mem_of_mem_drop hm))
    intro w hw
    -- what comes later has a greater number
    rw [← List.take_append_drop j all, List.map_append] at hall
    exact (List.pairwise_append.mp hall).2.2 w hw _ (List.mem_map_of_mem hm)
  rw [upgrade]
  conv_lhs => rw [← List.take_append_drop j (all.take n)]
  rw [List.foldlM_append, foldlM_round_old _ hbefore]
  show ((all.take n).drop j).foldlM _ _ = _
  rw [foldlM_round_new _ hafter, ← List.map_append, take_append_drop_take]

end Upgrades
