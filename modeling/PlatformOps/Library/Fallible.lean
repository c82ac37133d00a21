import Mathlib

/-!
# Computations That May Fail

When a computation in `Except` returns, so did every step of it: the rules for
taking a `do` block apart, for a chain, a check and a map over a list.

`Ends x raises returns` says of a computation both what it returns and what it may
raise; its rules follow the computation (`Ends.bind`, `Ends.foldlM`).
-/

namespace Fallible

universe u v w

variable {ε : Type u} {α : Type w} {β γ : Type v}

theorem bind_eq_ok {x : Except ε γ} {f : γ → Except ε β} {b : β} :
    (x >>= f) = .ok b ↔ ∃ a, x = .ok a ∧ f a = .ok b := by
  cases x with
  | error e => exact ⟨nofun, fun ⟨_, h, _⟩ => nomatch h⟩
  | ok a => exact ⟨fun h => ⟨a, rfl, h⟩, fun ⟨_, ha, h⟩ => Except.ok.inj ha ▸ h⟩

theorem pure_eq_ok {a b : α} : (pure a : Except ε α) = .ok b ↔ a = b :=
  ⟨Except.ok.inj, congrArg Except.ok⟩

/-- Fail with `e` if `c` holds. -/
def raiseIf (c : Prop) [Decidable c] (e : ε) : Except ε Unit :=
  if c then .error e else .ok ()

theorem raiseIf_eq_ok {c : Prop} [Decidable c] {e : ε} {u : Unit} :
    raiseIf c e = .ok u ↔ ¬ c := by
  rw [raiseIf]
  split <;> simp_all

/-- A map that may fail succeeds over a list when it does on every element. -/
theorem mapM_eq_ok_iff {f : α → Except ε β} {l : List α} {l' : List β} :
    l.mapM f = .ok l' ↔ List.Forall₂ (fun a b => f a = .ok b) l l' := by
  induction l generalizing l' with
  | nil =>
    rw [List.mapM_nil, List.forall₂_nil_left_iff]
    exact ⟨fun h => (Except.ok.inj h).symm, fun h => h ▸ rfl⟩
  | cons a rest ih =>
    rw [List.mapM_cons, List.forall₂_cons_left_iff]
    cases hfa : f a with
    | error e => exact ⟨nofun, nofun⟩
    | ok b =>
      cases hrest : rest.mapM f with
      | error e =>
        refine ⟨nofun, ?_⟩
        rintro ⟨b', l', -, hall, -⟩
        rw [ih.mpr hall] at hrest
        cases hrest
      | ok bs =>
        constructor
        · intro h
          obtain rfl := Except.ok.inj h
          exact ⟨b, bs, rfl, ih.mp hrest, rfl⟩
        · rintro ⟨b', l', hb, hall, rfl⟩
          obtain rfl := Except.ok.inj hb
          rw [ih.mpr hall] at hrest
          obtain rfl := Except.ok.inj hrest
          rfl

theorem forM_eq_ok {f : α → Except ε PUnit} {l : List α} :
    l.forM f = .ok ⟨⟩ ↔ ∀ a ∈ l, f a = .ok ⟨⟩ := by
  induction l with
  | nil => exact ⟨fun _ a ha => absurd ha List.not_mem_nil, fun _ => rfl⟩
  | cons a rest ih =>
    rw [List.forall_mem_cons, ← ih]
    show (f a >>= fun _ => rest.forM f) = .ok ⟨⟩ ↔ _
    cases f a with
    | error e => exact ⟨nofun, fun h => nomatch h.1⟩
    | ok u => exact ⟨fun h => ⟨rfl, h⟩, fun h => h.2⟩

/-- A check of every element: all pass, or the error. -/
theorem mapM_ite {p : α → Prop} [DecidablePred p] {f : α → β} {e : ε} (l : List α) :
    (l.mapM fun a => if p a then (.ok (f a) : Except ε β) else .error e) =
      if ∀ a ∈ l, p a then .ok (l.map f) else .error e := by
  induction l with
  | nil => simp [pure, Except.pure]
  | cons a rest ih =>
    rw [List.mapM_cons, ih]
    by_cases ha : p a
    · by_cases hrest : ∀ a ∈ rest, p a
      · rw [if_pos ha, if_pos hrest, if_pos (List.forall_mem_cons.mpr ⟨ha, hrest⟩)]
        rfl
      · rw [if_pos ha, if_neg hrest, if_neg fun h => hrest (List.forall_mem_cons.mp h).2]
        rfl
    · rw [if_neg ha, if_neg fun h => ha (List.forall_mem_cons.mp h).1]
      rfl

/-- A map that fails on no element. -/
theorem mapM_eq_ok_map {f : α → Except ε β} {g : α → β} {l : List α}
    (h : ∀ a ∈ l, f a = .ok (g a)) : l.mapM f = .ok (l.map g) :=
  mapM_eq_ok_iff.mpr (List.forall₂_map_right_iff.mpr (List.forall₂_same.mpr h))

theorem exists_mapM_eq_ok {f : α → Except ε β} {l : List α}
    (h : ∀ a ∈ l, ∃ b, f a = .ok b) : ∃ l', l.mapM f = .ok l' := by
  induction l with
  | nil => exact ⟨[], rfl⟩
  | cons a rest ih =>
    obtain ⟨⟨b, hb⟩, hrest⟩ := List.forall_mem_cons.mp h
    obtain ⟨bs, hbs⟩ := ih hrest
    exact ⟨b :: bs, mapM_eq_ok_iff.mpr (.cons hb (mapM_eq_ok_iff.mp hbs))⟩

/-- Each element was mapped, to an element of the result. -/
theorem exists_image_of_mem {f : α → Except ε β} {l : List α} {l' : List β}
    (h : l.mapM f = .ok l') {a : α} (ha : a ∈ l) : ∃ b ∈ l', f a = .ok b := by
  replace h := mapM_eq_ok_iff.mp h
  induction h with
  | nil => cases ha
  | cons hab _ ih =>
    rcases List.mem_cons.mp ha with rfl | ha
    · exact ⟨_, List.mem_cons_self .., hab⟩
    · obtain ⟨b, hb, hfb⟩ := ih ha
      exact ⟨b, List.mem_cons_of_mem _ hb, hfb⟩

/-- Each element of the result is what an element was mapped to. -/
theorem exists_preimage_of_mem {f : α → Except ε β} {l : List α} {l' : List β}
    (h : l.mapM f = .ok l') {b : β} (hb : b ∈ l') : ∃ a ∈ l, f a = .ok b := by
  replace h := mapM_eq_ok_iff.mp h
  induction h with
  | nil => cases hb
  | cons hab _ ih =>
    rcases List.mem_cons.mp hb with rfl | hb
    · exact ⟨_, List.mem_cons_self .., hab⟩
    · obtain ⟨a, ha, hfa⟩ := ih hb
      exact ⟨a, List.mem_cons_of_mem _ ha, hfa⟩

/-- What the map gives of each element relates the list to the result. -/
theorem forall₂_of_mapM {f : α → Except ε β} {R : α → β → Prop} {l : List α} {l' : List β}
    (h : l.mapM f = .ok l') (hR : ∀ a ∈ l, ∀ b, f a = .ok b → R a b) : List.Forall₂ R l l' := by
  replace h := mapM_eq_ok_iff.mp h
  induction h with
  | nil => exact .nil
  | cons hab _ ih =>
    obtain ⟨hfirst, hrest⟩ := List.forall_mem_cons.mp hR
    exact .cons (hfirst _ hab) (ih hrest)

/-- If the map keeps a key, the result has the keys of the list. -/
theorem map_eq_of_mapM_eq_ok {δ : Type*} {f : α → Except ε β} {l : List α} {l' : List β}
    (key : α → δ) (key' : β → δ) (h : l.mapM f = .ok l')
    (hkey : ∀ a b, f a = .ok b → key' b = key a) : l'.map key' = l.map key := by
  replace h := mapM_eq_ok_iff.mp h
  induction h with
  | nil => rfl
  | cons hab _ ih => rw [List.map_cons, List.map_cons, hkey _ _ hab, ih]

/-- How often a result occurs is how often the map gives it. -/
theorem count_of_mapM_eq_ok [DecidableEq β] {f : α → Except ε β} {l : List α} {l' : List β}
    (h : l.mapM f = .ok l') (b : β) :
    l'.count b = l.countP fun a => (f a).toOption = some b := by
  replace h := mapM_eq_ok_iff.mp h
  induction h with
  | nil => rfl
  | cons hab _ ih =>
    rw [List.count_cons, List.countP_cons, ih, hab]
    simp [Except.toOption]

/-! ## How a computation ends -/

/-- An error that `raises` allows, or a result that `returns` holds of. -/
def Ends (x : Except ε α) (raises : ε → Prop) (returns : α → Prop) : Prop :=
  match x with
  | .ok a => returns a
  | .error e => raises e

instance {x : Except ε α} {raises : ε → Prop} {returns : α → Prop} [DecidablePred raises]
    [DecidablePred returns] : Decidable (Ends x raises returns) :=
  match x with
  | .ok a => inferInstanceAs (Decidable (returns a))
  | .error e => inferInstanceAs (Decidable (raises e))

section Ends

variable {raises raises' : ε → Prop} {x : Except ε α} {returns returns' : α → Prop}

@[simp] theorem ends_ok {a : α} : Ends (.ok a) raises returns ↔ returns a := Iff.rfl

@[simp] theorem ends_pure {a : α} : Ends (pure a : Except ε α) raises returns ↔ returns a :=
  Iff.rfl

@[simp] theorem ends_error {e : ε} : Ends (.error e) raises returns ↔ raises e := Iff.rfl

theorem Ends.returned (h : Ends x raises returns) {a : α} (hx : x = .ok a) : returns a := by
  subst hx
  exact h

theorem Ends.raised (h : Ends x raises returns) {e : ε} (hx : x = .error e) : raises e := by
  subst hx
  exact h

theorem Ends.mono (h : Ends x raises returns) (hraises : ∀ e, raises e → raises' e)
    (hreturns : ∀ a, returns a → returns' a) : Ends x raises' returns' := by
  cases x with
  | error e => exact hraises e h
  | ok a => exact hreturns a h

theorem Ends.and (h : Ends x raises returns) (h' : Ends x raises' returns') :
    Ends x (fun e => raises e ∧ raises' e) fun a => returns a ∧ returns' a := by
  cases x with
  | error e => exact ⟨h, h'⟩
  | ok a => exact ⟨h, h'⟩

/-- Whatever it returns is all that is known of it. -/
theorem ends_self (x : Except ε α) : Ends x (fun e => x = .error e) fun a => x = .ok a := by
  cases x <;> rfl

/-- **The rule for a sequence**: what the first step returns, the second starts from. -/
theorem Ends.bind {x : Except ε γ} {f : γ → Except ε β} {M : γ → Prop} {returns : β → Prop}
    (hx : Ends x raises M) (hf : ∀ a, M a → Ends (f a) raises returns) :
    Ends (x >>= f) raises returns := by
  cases x with
  | error e => exact hx
  | ok a => exact hf a hx

/-- **The rule for a loop**: an invariant of the elements done so far. -/
theorem Ends.foldlM {f : β → α → Except ε β} {l : List α} {b : β} {I : List α → β → Prop}
    (hinit : I [] b)
    (hstep : ∀ done a rest b, l = done ++ a :: rest → I done b →
      Ends (f b a) raises (I (done ++ [a]))) :
    Ends (l.foldlM f b) raises (I l) := by
  suffices h : ∀ done todo b, l = done ++ todo → I done b →
      Ends (todo.foldlM f b) raises (I l) from h [] l b rfl hinit
  intro done todo b hl hinv
  induction todo generalizing done b with
  | nil =>
    rw [List.append_nil] at hl
    exact hl ▸ hinv
  | cons a rest ih =>
    rw [List.foldlM_cons]
    refine (hstep done a rest b hl hinv).bind fun b' hb' => ih (done ++ [a]) b' ?_ hb'
    rw [hl, List.append_assoc, List.singleton_append]

theorem Ends.mapM {f : α → Except ε β} (h : ∀ a, Ends (f a) raises fun _ => True) (l : List α) :
    Ends (l.mapM f) raises fun _ => True := by
  induction l with
  | nil => trivial
  | cons a rest ih =>
    rw [List.mapM_cons]
    exact (h a).bind fun b _ => ih.bind fun bs _ => trivial

end Ends

end Fallible
