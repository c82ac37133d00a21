import Mathlib

/-!
# Sorted Listings and Grouped Dictionaries

Three idioms of scripting code, with the facts later proofs use:

- `sortedSet l`: the elements of `l`, each once, in increasing order
  (`sorted(set(l))`). Two lists with the same elements have the same listing.
- `groupBy f l`: a dictionary from each key to the elements with that key, in
  their order (`setdefault(key, []).append(value)`).
- `collect f l`: what each element gives, one after the other, none if one of them
  gives nothing. It is a matter of which elements there are.
-/

namespace Listing

variable {α κ : Type*}

/-! ## Sorted listings of a set -/

section SortedSet

variable [LinearOrder α]

/-- The elements of `l`, each once, in increasing order. -/
def sortedSet (l : List α) : List α :=
  l.dedup.insertionSort (· ≤ ·)

@[simp] theorem mem_sortedSet {l : List α} {a : α} : a ∈ sortedSet l ↔ a ∈ l := by
  simp [sortedSet]

theorem nodup_sortedSet (l : List α) : (sortedSet l).Nodup :=
  (List.perm_insertionSort _ _).nodup_iff.mpr (List.nodup_dedup l)

theorem sortedLT_sortedSet (l : List α) : (sortedSet l).Pairwise (· < ·) := by
  have hle : (sortedSet l).Pairwise (· ≤ ·) := List.pairwise_insertionSort _ _
  exact (hle.and (nodup_sortedSet l)).imp fun h => lt_of_le_of_ne h.1 h.2

/-- A listing depends only on which elements are in the list. -/
theorem sortedSet_congr {l l' : List α} (h : ∀ a, a ∈ l ↔ a ∈ l') : sortedSet l = sortedSet l' :=
  List.Pairwise.eq_of_mem_iff (sortedLT_sortedSet l) (sortedLT_sortedSet l') (by simpa using h)

end SortedSet

/-! ## Sorting by a key -/

section SortBy

variable {β : Type*} [LinearOrder α]

/-- `sorted(l, key=...)`: stable, by a key in a linear order. -/
def sortBy (key : β → α) (l : List β) : List β :=
  l.insertionSort fun a b => key a ≤ key b

theorem perm_sortBy (key : β → α) (l : List β) : (sortBy key l).Perm l :=
  List.perm_insertionSort _ l

@[simp] theorem mem_sortBy {key : β → α} {l : List β} {b : β} : b ∈ sortBy key l ↔ b ∈ l :=
  (perm_sortBy key l).mem_iff

theorem pairwise_sortBy (key : β → α) (l : List β) :
    (sortBy key l).Pairwise fun a b => key a ≤ key b := by
  have : Std.Total fun a b : β => key a ≤ key b := ⟨fun a b => le_total _ _⟩
  have : IsTrans β fun a b => key a ≤ key b := ⟨fun _ _ _ => le_trans⟩
  exact List.pairwise_insertionSort _ l

/-- Sorting forgets the order of its input when the key tells the elements apart. -/
theorem sortBy_eq_of_perm {key : β → α} {l l' : List β} (hperm : l.Perm l')
    (hkey : ∀ a ∈ l, ∀ b ∈ l, key a = key b → a = b) : sortBy key l = sortBy key l' := by
  refine @List.Perm.eq_of_pairwise _ (fun a b => decide (key a ≤ key b)) _ _ ?_ ?_ ?_
    (((perm_sortBy key l).trans hperm).trans (perm_sortBy key l').symm)
  · intro a b ha hb hab hba
    have hb' : b ∈ l := hperm.mem_iff.mpr (mem_sortBy.mp hb)
    exact hkey a (mem_sortBy.mp ha) b hb'
      (le_antisymm (of_decide_eq_true hab) (of_decide_eq_true hba))
  · exact (pairwise_sortBy key l).imp fun h => decide_eq_true h
  · exact (pairwise_sortBy key l').imp fun h => decide_eq_true h

/-- Nor do the keys, in order, depend on it. -/
theorem map_sortBy_eq_of_perm {key : β → α} {l l' : List β}
    (hperm : (l.map key).Perm (l'.map key)) : (sortBy key l).map key = (sortBy key l').map key := by
  have hsorted : ∀ l : List β, ((sortBy key l).map key).Pairwise (· ≤ ·) := fun l =>
    List.pairwise_map.mpr (pairwise_sortBy key l)
  refine List.Perm.eq_of_pairwise (fun a b _ _ hab hba => le_antisymm hab hba) (hsorted l)
    (hsorted l') ?_
  exact ((perm_sortBy key l).map key).trans (hperm.trans ((perm_sortBy key l').map key).symm)

/-- Sorting keeps the order of elements with one key. -/
theorem filter_sortBy {key : β → α} {l : List β} {p : β → Bool}
    (hkey : ∀ a ∈ l, ∀ b ∈ l, p a = true → p b = true → key a = key b) :
    (sortBy key l).filter p = l.filter p := by
  have : Std.Total fun a b : β => key a ≤ key b := ⟨fun a b => le_total _ _⟩
  have : IsTrans β fun a b => key a ≤ key b := ⟨fun _ _ _ => le_trans⟩
  have hties : (l.filter p).Pairwise fun a b => key a ≤ key b := by
    refine List.pairwise_of_forall_mem_list fun a ha b hb => ?_
    rw [List.mem_filter] at ha hb
    exact (hkey a ha.1 b hb.1 ha.2 hb.2).le
  have hsublist : (l.filter p).Sublist (sortBy key l) :=
    List.sublist_insertionSort hties List.filter_sublist
  have hfiltered : (l.filter p).Sublist ((sortBy key l).filter p) := by
    simpa using hsublist.filter p
  exact (hfiltered.eq_of_length ((perm_sortBy key l).filter p).length_eq.symm).symm

/-- A dictionary in the order of its keys is given by its entries. -/
theorem eq_of_perm_of_keys {l l' : List (α × β)} (hperm : l.Perm l')
    (hkeys : (l.map Prod.fst).Nodup) (hsorted : l.Pairwise fun a b => a.1 ≤ b.1)
    (hsorted' : l'.Pairwise fun a b => a.1 ≤ b.1) : l = l' := by
  refine List.Perm.eq_of_pairwise (fun a b ha hb hab hba => ?_) hsorted hsorted' hperm
  exact List.inj_on_of_nodup_map hkeys ha (hperm.mem_iff.mpr hb) (le_antisymm hab hba)

end SortBy

/-! ## Dictionaries -/

theorem mem_of_lookup_eq_some {β : Type*} [DecidableEq κ] {d : List (κ × β)} {k : κ} {v : β}
    (h : d.lookup k = some v) : (k, v) ∈ d := by
  obtain ⟨before, after, rfl, -⟩ := List.lookup_eq_some_iff.mp h
  simp

/-- A dictionary holds each of its entries under its key. -/
theorem lookup_eq_some_of_mem {β : Type*} [DecidableEq κ] {d : List (κ × β)} {k : κ} {v : β}
    (hkeys : (d.map Prod.fst).Nodup) (h : (k, v) ∈ d) : d.lookup k = some v := by
  induction d with
  | nil => cases h
  | cons entry rest ih =>
    obtain ⟨k', v'⟩ := entry
    rw [List.map_cons, List.nodup_cons] at hkeys
    rcases List.mem_cons.mp h with heq | h
    · obtain ⟨rfl, rfl⟩ := Prod.mk.inj heq
      simp
    · have hne : k ≠ k' := fun heq => hkeys.1 (List.mem_map.mpr ⟨_, h, heq⟩)
      rw [List.lookup_cons, beq_eq_false_iff_ne.mpr hne]
      exact ih hkeys.2 h

/-! ## Dictionaries of lists -/

section GroupBy

variable [DecidableEq κ]

/-- One more key, unless it is there. -/
def addKey (keys : List κ) (k : κ) : List κ :=
  if k ∈ keys then keys else keys ++ [k]

theorem mem_addKey {keys : List κ} {k k' : κ} : k' ∈ addKey keys k ↔ k' ∈ keys ∨ k' = k := by
  unfold addKey
  split
  · rename_i hmem
    constructor
    · exact Or.inl
    · rintro (h | rfl)
      · exact h
      · exact hmem
  · rw [List.mem_append, List.mem_singleton]

theorem nodup_addKey {keys : List κ} (h : keys.Nodup) (k : κ) : (addKey keys k).Nodup := by
  unfold addKey
  split
  · exact h
  · rename_i hnew
    apply h.append (List.nodup_singleton k)
    rintro a ha hk
    exact hnew (List.mem_singleton.mp hk ▸ ha)

theorem mem_foldl_addKey {l keys : List κ} {k : κ} :
    k ∈ l.foldl addKey keys ↔ k ∈ keys ∨ k ∈ l := by
  induction l generalizing keys with
  | nil => simp
  | cons a rest ih => rw [List.foldl_cons, ih, mem_addKey, List.mem_cons, or_assoc]

theorem nodup_foldl_addKey {keys : List κ} (h : keys.Nodup) (l : List κ) :
    (l.foldl addKey keys).Nodup := by
  induction l generalizing keys with
  | nil => exact h
  | cons a rest ih => exact ih (nodup_addKey h a)

/-- Append `a` under the key `k`, adding the key at the end if it is new. -/
def insertAt (k : κ) (a : α) : List (κ × List α) → List (κ × List α)
  | [] => [(k, [a])]
  | (k', as) :: rest => if k = k' then (k', as ++ [a]) :: rest else (k', as) :: insertAt k a rest

/-- The dictionary from each key to the elements with that key, in their order. -/
def groupBy (f : α → κ) (l : List α) : List (κ × List α) :=
  l.foldl (fun d a => insertAt (f a) a d) []

theorem keys_insertAt (k : κ) (a : α) (d : List (κ × List α)) :
    (insertAt k a d).map Prod.fst = addKey (d.map Prod.fst) k := by
  induction d with
  | nil => simp [insertAt, addKey]
  | cons p rest ih =>
    obtain ⟨k', as⟩ := p
    rw [List.map_cons]
    by_cases hk : k = k'
    · simp [insertAt, addKey, hk]
    · by_cases hmem : k ∈ rest.map Prod.fst
      · rw [addKey, if_pos hmem] at ih
        rw [addKey, if_pos (List.mem_cons_of_mem k' hmem)]
        simp [insertAt, hk, ih]
      · rw [addKey, if_neg hmem] at ih
        rw [addKey, if_neg (by simpa [hk] using hmem)]
        simp [insertAt, hk, ih]

theorem lookup_insertAt (k : κ) (a : α) (d : List (κ × List α)) (j : κ) :
    (insertAt k a d).lookup j =
      if j = k then some ((d.lookup k).getD [] ++ [a]) else d.lookup j := by
  induction d with
  | nil =>
    by_cases hj : j = k
    · simp [insertAt, hj]
    · have hbeq : (j == k) = false := beq_eq_false_iff_ne.mpr hj
      simp [insertAt, List.lookup, hj, hbeq]
  | cons p rest ih =>
    obtain ⟨k', as⟩ := p
    by_cases hk : k = k'
    · subst hk
      by_cases hj : j = k
      · simp [insertAt, hj]
      · have hbeq : (j == k) = false := beq_eq_false_iff_ne.mpr hj
        simp [insertAt, List.lookup, hj, hbeq]
    · by_cases hj : j = k'
      · subst hj
        have hne : ¬ j = k := fun h => hk h.symm
        simp [insertAt, hk, List.lookup, hne]
      · have hbeq : (j == k') = false := beq_eq_false_iff_ne.mpr hj
        have hkbeq : (k == k') = false := beq_eq_false_iff_ne.mpr hk
        simp only [insertAt, if_neg hk, List.lookup, hbeq, hkbeq, ih]

/-- The rule for a dictionary built by appending: what each key holds so far. -/
private theorem foldl_insertAt (f : α → κ) (l : List α) (d : List (κ × List α)) (k : κ) :
    ((l.foldl (fun d a => insertAt (f a) a d) d).lookup k).getD [] =
      (d.lookup k).getD [] ++ l.filter (fun a => f a = k) := by
  induction l generalizing d with
  | nil => simp
  | cons a rest ih =>
    rw [List.foldl_cons, ih, lookup_insertAt]
    by_cases hk : k = f a
    · subst hk
      simp
    · have hne : ¬ f a = k := fun h => hk h.symm
      simp [hk, hne]

theorem keys_groupBy (f : α → κ) (l : List α) :
    (groupBy f l).map Prod.fst = (l.map f).foldl addKey [] := by
  have hfold : ∀ d : List (κ × List α), (l.foldl (fun d a => insertAt (f a) a d) d).map Prod.fst =
      (l.map f).foldl addKey (d.map Prod.fst) := by
    induction l with
    | nil => exact fun _ => rfl
    | cons a rest ih =>
      intro d
      rw [List.foldl_cons, ih, keys_insertAt, List.map_cons, List.foldl_cons]
  exact hfold []

/-- What a grouped dictionary holds under a key: the elements with that key. -/
theorem getD_lookup_groupBy (f : α → κ) (l : List α) (k : κ) :
    ((groupBy f l).lookup k).getD [] = l.filter (fun a => f a = k) := by
  simpa [groupBy] using foldl_insertAt f l [] k

theorem nodup_keys_groupBy (f : α → κ) (l : List α) : ((groupBy f l).map Prod.fst).Nodup := by
  rw [keys_groupBy]
  exact nodup_foldl_addKey List.nodup_nil _

theorem mem_keys_groupBy {f : α → κ} {l : List α} {k : κ} :
    k ∈ (groupBy f l).map Prod.fst ↔ ∃ a ∈ l, f a = k := by
  rw [keys_groupBy, mem_foldl_addKey, List.mem_map, or_iff_right List.not_mem_nil]

/-- A key is in a grouped dictionary with its elements when it has some. -/
theorem lookup_groupBy (f : α → κ) (l : List α) (k : κ) :
    (groupBy f l).lookup k =
      if (l.filter fun a => f a = k) = [] then none else some (l.filter fun a => f a = k) := by
  have hgetD := getD_lookup_groupBy f l k
  cases hlook : (groupBy f l).lookup k with
  | none =>
    rw [hlook, Option.getD_none] at hgetD
    rw [if_pos hgetD.symm]
  | some as =>
    rw [hlook, Option.getD_some] at hgetD
    obtain ⟨before, after, hsplit, -⟩ := List.lookup_eq_some_iff.mp hlook
    have hkey : k ∈ (groupBy f l).map Prod.fst := by rw [hsplit]; simp
    obtain ⟨a, ha, hfa⟩ := mem_keys_groupBy.mp hkey
    have hne : (l.filter fun a => f a = k) ≠ [] :=
      List.ne_nil_of_mem (List.mem_filter.mpr ⟨ha, by simpa using hfa⟩)
    rw [if_neg hne, hgetD]

theorem lookup_map_snd {β : Type*} (g : List α → β) (d : List (κ × List α)) (k : κ) :
    (d.map fun e => (e.1, g e.2)).lookup k = (d.lookup k).map g := by
  induction d with
  | nil => rfl
  | cons e rest ih =>
    obtain ⟨k', as⟩ := e
    rw [List.map_cons, List.lookup_cons, List.lookup_cons]
    cases k == k' with
    | true => rfl
    | false => exact ih

private theorem sum_length_insertAt (k : κ) (a : α) (d : List (κ × List α)) :
    ((insertAt k a d).map fun e => e.2.length).sum = (d.map fun e => e.2.length).sum + 1 := by
  induction d with
  | nil => simp [insertAt]
  | cons e rest ih =>
    obtain ⟨k', as⟩ := e
    rw [insertAt]
    split
    · simp only [List.map_cons, List.sum_cons, List.length_append, List.length_singleton]
      omega
    · simp only [List.map_cons, List.sum_cons, ih]
      omega

/-- The groups hold every element once. -/
theorem sum_length_groupBy (f : α → κ) (l : List α) :
    ((groupBy f l).map fun e => e.2.length).sum = l.length := by
  have hgen : ∀ d : List (κ × List α),
      ((l.foldl (fun d a => insertAt (f a) a d) d).map fun e => e.2.length).sum =
        (d.map fun e => e.2.length).sum + l.length := by
    intro d
    induction l generalizing d with
    | nil => simp
    | cons a rest ih =>
      rw [List.foldl_cons, ih, sum_length_insertAt, List.length_cons]
      omega
  simpa [groupBy] using hgen []

private theorem flatMap_insertAt_perm (k : κ) (a : α) (d : List (κ × List α)) :
    ((insertAt k a d).flatMap Prod.snd).Perm (d.flatMap Prod.snd ++ [a]) := by
  induction d with
  | nil => simp [insertAt]
  | cons e rest ih =>
    obtain ⟨k', as⟩ := e
    rw [insertAt]
    split
    · rw [List.flatMap_cons, List.flatMap_cons, List.append_assoc, List.append_assoc]
      exact List.Perm.append_left as List.perm_append_comm
    · rw [List.flatMap_cons, List.flatMap_cons, List.append_assoc]
      exact List.Perm.append_left as ih

/-- The groups hold the elements of the list. -/
theorem flatMap_groupBy_perm (f : α → κ) (l : List α) :
    ((groupBy f l).flatMap Prod.snd).Perm l := by
  have hgen : ∀ d : List (κ × List α),
      ((l.foldl (fun d a => insertAt (f a) a d) d).flatMap Prod.snd).Perm
        (d.flatMap Prod.snd ++ l) := by
    induction l with
    | nil => simp
    | cons a rest ih =>
      intro d
      rw [List.foldl_cons, List.append_cons]
      exact (ih _).trans ((flatMap_insertAt_perm (f a) a d).append_right rest)
  simpa [groupBy] using hgen []

/-- A group's elements have its key. -/
theorem of_mem_groupBy {f : α → κ} {l : List α} {e : κ × List α} (he : e ∈ groupBy f l) :
    e.2 = l.filter fun a => f a = e.1 := by
  have hlookup := lookup_eq_some_of_mem (nodup_keys_groupBy f l) he
  have hgetD := getD_lookup_groupBy f l e.1
  rw [hlookup, Option.getD_some] at hgetD
  exact hgetD

end GroupBy

/-! ## Lists without repetition -/

/-- A list of at most one element. -/
theorem eq_nil_or_singleton {l : List α} (h : l.length ≤ 1) : l = [] ∨ ∃ a, l = [a] := by
  cases l with
  | nil => exact Or.inl rfl
  | cons a rest =>
    have hrest : rest = [] := List.length_eq_zero_iff.mp (by simpa using h)
    exact Or.inr ⟨a, by rw [hrest]⟩

/-- A listing has more than one element when it has another one than `a`. -/
theorem one_lt_length_iff {l : List α} (hnodup : l.Nodup) {a : α} (ha : a ∈ l) :
    1 < l.length ↔ ∃ b ∈ l, b ≠ a := by
  constructor
  · intro hlen
    by_contra hall
    have hsub : l ⊆ [a] := fun b hb => by
      by_contra hne
      exact hall ⟨b, hb, by simpa using hne⟩
    have hle := (List.subperm_of_subset hnodup hsub).length_le
    simp only [List.length_singleton] at hle
    omega
  · rintro ⟨b, hb, hne⟩
    have hsub : [a, b] ⊆ l := by simp [ha, hb]
    have hpair : [a, b].Nodup := by simpa using hne.symm
    exact (List.subperm_of_subset hpair hsub).length_le

/-- Elements that give nothing can be left out of a concatenation. -/
theorem flatMap_filter {β : Type*} {f : α → List β} {p : α → Bool} {l : List α}
    (hnil : ∀ a ∈ l, p a = false → f a = []) : (l.filter p).flatMap f = l.flatMap f := by
  induction l with
  | nil => rfl
  | cons a rest ih =>
    obtain ⟨ha, hrest⟩ := List.forall_mem_cons.mp hnil
    cases hp : p a with
    | true => rw [List.filter_cons_of_pos hp, List.flatMap_cons, List.flatMap_cons, ih hrest]
    | false =>
      rw [List.filter_cons_of_neg (by simp [hp]), List.flatMap_cons, ha hp, ih hrest,
        List.nil_append]

/-! ## Dictionaries -/

section Dictionary

variable {β : Type*} [DecidableEq κ]

/-- Set a key's value: in its place if the key is there, at the end otherwise. -/
def setItem (d : List (κ × β)) (entry : κ × β) : List (κ × β) :=
  if entry.1 ∈ d.map Prod.fst then d.map fun e => if e.1 = entry.1 then entry else e
  else d ++ [entry]

/-- The dictionary of some entries: a key is where it was first, with its last value. -/
def dictOf (entries : List (κ × β)) : List (κ × β) :=
  entries.foldl setItem []

private theorem foldl_setItem_of_nodup {entries d : List (κ × β)}
    (h : ((d ++ entries).map Prod.fst).Nodup) : entries.foldl setItem d = d ++ entries := by
  induction entries generalizing d with
  | nil => simp
  | cons entry rest ih =>
    have hnew : entry.1 ∉ d.map Prod.fst := by
      intro hmem
      rw [List.map_append, List.map_cons, List.nodup_append] at h
      exact h.2.2 _ hmem _ (List.mem_cons_self ..) rfl
    rw [List.foldl_cons, setItem, if_neg hnew, ih]
    · simp
    · simpa using h

/-- Entries with distinct keys are a dictionary. -/
theorem dictOf_of_nodup {entries : List (κ × β)} (h : (entries.map Prod.fst).Nodup) :
    dictOf entries = entries :=
  foldl_setItem_of_nodup h

theorem mem_setItem {d : List (κ × β)} {entry e : κ × β} (h : e ∈ setItem d entry) :
    e ∈ d ∨ e = entry := by
  unfold setItem at h
  split at h
  · obtain ⟨e', he', rfl⟩ := List.mem_map.mp h
    split
    · exact Or.inr rfl
    · exact Or.inl he'
  · exact (List.mem_append.mp h).imp id List.mem_singleton.mp

/-- A dictionary holds entries it was made of. -/
theorem mem_dictOf {entries : List (κ × β)} {e : κ × β} (h : e ∈ dictOf entries) : e ∈ entries := by
  have hgen : ∀ l d : List (κ × β), e ∈ l.foldl setItem d → e ∈ d ∨ e ∈ l := by
    intro l
    induction l with
    | nil => exact fun d hd => Or.inl hd
    | cons entry rest ih =>
      intro d hd
      rcases ih _ hd with hmem | hmem
      · rcases mem_setItem hmem with hmem | rfl
        · exact Or.inl hmem
        · exact Or.inr (List.mem_cons_self ..)
      · exact Or.inr (List.mem_cons_of_mem _ hmem)
  exact (hgen entries [] h).resolve_left List.not_mem_nil

theorem keys_setItem (d : List (κ × β)) (entry : κ × β) :
    (setItem d entry).map Prod.fst = addKey (d.map Prod.fst) entry.1 := by
  unfold setItem addKey
  split
  · rw [List.map_map]
    refine List.map_congr_left fun e _ => ?_
    rw [Function.comp_apply]
    split
    · rename_i heq
      exact heq.symm
    · rfl
  · rw [List.map_append, List.map_singleton]

/-- Replacing a key's entries leaves the other keys' values. -/
private theorem lookup_replace_of_ne [BEq κ] [LawfulBEq κ] {key k : κ} (hk : key ≠ k) (value : β) (d : List (κ × β)) :
    (d.map fun e => if e.1 = key then (key, value) else e).lookup k = d.lookup k := by
  induction d with
  | nil => rfl
  | cons e rest ih =>
    obtain ⟨k', v⟩ := e
    by_cases hkey : k' = key
    · subst hkey
      simp [List.lookup_cons, beq_false_of_ne (Ne.symm hk), ih]
    · simp [List.lookup_cons, hkey, ih]

private theorem lookup_replace_self [BEq κ] [LawfulBEq κ] {key : κ} (value : β) {d : List (κ × β)}
    (hkey : key ∈ d.map Prod.fst) :
    (d.map fun e => if e.1 = key then (key, value) else e).lookup key = some value := by
  induction d with
  | nil => cases hkey
  | cons e rest ih =>
    obtain ⟨k', v⟩ := e
    by_cases heq : k' = key
    · simp [heq]
    · have hne : key ≠ k' := fun h => heq h.symm
      have hrest := ih ((List.mem_cons.mp hkey).resolve_left hne)
      simp [List.lookup_cons, heq, beq_false_of_ne hne, hrest]

theorem lookup_setItem [BEq κ] [LawfulBEq κ] (d : List (κ × β)) (entry : κ × β) (k : κ) :
    (setItem d entry).lookup k = if entry.1 = k then some entry.2 else d.lookup k := by
  obtain ⟨key, value⟩ := entry
  unfold setItem
  split
  · rename_i hmem
    split
    · rename_i hk
      subst hk
      exact lookup_replace_self value hmem
    · rename_i hk
      exact lookup_replace_of_ne hk value d
  · rename_i hmem
    rw [List.lookup_append]
    split
    · rename_i hk
      subst hk
      have hnone : d.lookup key = none := by
        rw [List.lookup_eq_none_iff]
        intro e he
        rw [bne_iff_ne]
        rintro rfl
        exact hmem (List.mem_map.mpr ⟨e, he, rfl⟩)
      simp [hnone]
    · rename_i hk
      simp [List.lookup_cons, beq_false_of_ne (Ne.symm hk)]

/-- **A dictionary holds a key's last value.** -/
theorem lookup_dictOf [BEq κ] [LawfulBEq κ] (entries : List (κ × β)) (k : κ) :
    (dictOf entries).lookup k = ((entries.filter fun e => e.1 = k).getLast?).map Prod.snd := by
  have hgen : ∀ d : List (κ × β), (entries.foldl setItem d).lookup k =
      (((entries.filter fun e => e.1 = k).getLast?).map Prod.snd).or (d.lookup k) := by
    induction entries with
    | nil => simp
    | cons entry rest ih =>
      intro d
      rw [List.foldl_cons, ih, lookup_setItem]
      by_cases hk : entry.1 = k
      · rw [if_pos hk, List.filter_cons_of_pos (by simpa using hk), List.getLast?_cons]
        cases (rest.filter fun e => e.1 = k).getLast? <;> rfl
      · rw [if_neg hk, List.filter_cons_of_neg (by simpa using hk)]
  have hall := hgen []
  rwa [List.lookup_nil, Option.or_none] at hall

/-- A dictionary has the keys of its entries. -/
theorem keys_dictOf (entries : List (κ × β)) :
    (dictOf entries).map Prod.fst = (entries.map Prod.fst).foldl addKey [] := by
  have hfold : ∀ d : List (κ × β), (entries.foldl setItem d).map Prod.fst =
      (entries.map Prod.fst).foldl addKey (d.map Prod.fst) := by
    induction entries with
    | nil => exact fun _ => rfl
    | cons entry rest ih =>
      intro d
      rw [List.foldl_cons, ih, keys_setItem, List.map_cons, List.foldl_cons]
  exact hfold []

theorem exists_lookup_dictOf {entries : List (κ × β)} {k : κ} (hk : k ∈ entries.map Prod.fst) :
    ∃ v, (dictOf entries).lookup k = some v := by
  have hkeys := keys_dictOf entries
  have hmem : k ∈ (dictOf entries).map Prod.fst := by
    rw [hkeys]
    exact mem_foldl_addKey.mpr (Or.inr hk)
  have hnodup : ((dictOf entries).map Prod.fst).Nodup := by
    rw [hkeys]
    exact nodup_foldl_addKey List.nodup_nil _
  obtain ⟨e, he, rfl⟩ := List.mem_map.mp hmem
  exact ⟨e.2, lookup_eq_some_of_mem hnodup he⟩

end Dictionary

/-! ## Splitting a list by a key -/

section Split

variable [DecidableEq α] [DecidableEq κ]

private theorem count_flatMap_filter (f : α → Option κ) (l : List α) (keys : List κ) (a : α)
    (hnodup : keys.Nodup) :
    (keys.flatMap fun k => l.filter fun b => f b = some k).count a =
      if ∃ k ∈ keys, f a = some k then l.count a else 0 := by
  induction keys with
  | nil => simp
  | cons k rest ih =>
    obtain ⟨hk, hrest⟩ := List.nodup_cons.mp hnodup
    rw [List.flatMap_cons, List.count_append, ih hrest]
    by_cases ha : f a = some k
    · have hnone : ¬ ∃ k' ∈ rest, f a = some k' := by
        rintro ⟨k', hk', heq⟩
        exact hk (Option.some.inj (ha.symm.trans heq) ▸ hk')
      have hsome : ∃ k' ∈ k :: rest, f a = some k' := ⟨k, List.mem_cons_self .., ha⟩
      rw [if_neg hnone, if_pos hsome, List.count_filter (by simpa using ha), Nat.add_zero]
    · have hzero : (l.filter fun b => f b = some k).count a = 0 := by
        refine List.count_eq_zero.mpr fun hmem => ha ?_
        simpa using (List.mem_filter.mp hmem).2
      have hiff : (∃ k' ∈ k :: rest, f a = some k') ↔ ∃ k' ∈ rest, f a = some k' := by
        simp [ha]
      simp only [hzero, hiff, Nat.zero_add]

/-- The parts of a list under distinct keys make up the list, when every element
has one of the keys. -/
theorem flatMap_filter_perm {f : α → Option κ} {l : List α} {keys : List κ} (hnodup : keys.Nodup)
    (hkeys : ∀ a ∈ l, ∃ k ∈ keys, f a = some k) :
    (keys.flatMap fun k => l.filter fun b => f b = some k).Perm l := by
  rw [List.perm_iff_count]
  intro a
  rw [count_flatMap_filter f l keys a hnodup]
  split
  · rfl
  · rename_i hnone
    exact (List.count_eq_zero.mpr fun ha => hnone (hkeys a ha)).symm

/-- The parts of a list under distinct keys have as many elements as the list. -/
theorem sum_length_filter {f : α → κ} {l : List α} {keys : List κ} (hnodup : keys.Nodup)
    (hkeys : ∀ a ∈ l, f a ∈ keys) :
    (keys.map fun k => (l.filter fun a => f a = k).length).sum = l.length := by
  have hperm := flatMap_filter_perm (f := fun a => some (f a)) (l := l) hnodup
    fun a ha => ⟨f a, hkeys a ha, rfl⟩
  rw [← hperm.length_eq, List.length_flatMap]
  simp only [Option.some.injEq]

end Split

/-! ## Partial maps over a list -/

/-- A partial map over a list succeeds when it does on every element. -/
theorem mapM_eq_some_iff {β : Type*} {f : α → Option β} {l : List α} {l' : List β} :
    l.mapM f = some l' ↔ (∀ a ∈ l, (f a).isSome) ∧ l' = l.filterMap f := by
  induction l generalizing l' with
  | nil =>
    rw [List.mapM_nil, Option.pure_def, Option.some.injEq, List.filterMap_nil]
    exact ⟨fun h => ⟨by simp, h.symm⟩, fun h => h.2.symm⟩
  | cons a rest ih =>
    rw [List.mapM_cons]
    cases hfa : f a with
    | none => simp [hfa]
    | some b =>
      simp only [Option.pure_def, Option.bind_eq_bind, Option.bind_some, Option.bind_eq_some_iff,
        Option.some.injEq, ih, List.forall_mem_cons, hfa, Option.isSome_some, true_and,
        List.filterMap_cons_some hfa]
      constructor
      · rintro ⟨_, ⟨hall, rfl⟩, rfl⟩
        exact ⟨hall, rfl⟩
      · rintro ⟨hall, rfl⟩
        exact ⟨_, ⟨hall, rfl⟩, rfl⟩

/-- What the elements give, one after the other, none if an element gives nothing. -/
def collect {β : Type*} (f : α → Option (List β)) (l : List α) : Option (List β) :=
  l.foldlM (fun out a => (f a).map (out ++ ·)) []

theorem collect_eq_some_iff {β : Type*} {f : α → Option (List β)} {l : List α} {out : List β} :
    collect f l = some out ↔ (∀ a ∈ l, (f a).isSome) ∧ out = (l.filterMap f).flatten := by
  have hfrom : ∀ start, l.foldlM (fun out a => (f a).map (out ++ ·)) start =
      (l.mapM f).map fun parts => start ++ parts.flatten := by
    induction l with
    | nil => simp
    | cons a rest ih =>
      intro start
      rw [List.foldlM_cons, List.mapM_cons]
      cases hfa : f a with
      | none => rfl
      | some part =>
        simp only [Option.map_some, Option.bind_eq_bind, Option.bind_some, ih, Option.pure_def]
        cases rest.mapM f <;> simp
  rw [collect, hfrom, Option.map_eq_some_iff]
  simp only [mapM_eq_some_iff, List.nil_append]
  constructor
  · rintro ⟨parts, ⟨hall, rfl⟩, rfl⟩
    exact ⟨hall, rfl⟩
  · rintro ⟨hall, rfl⟩
    exact ⟨_, ⟨hall, rfl⟩, rfl⟩

/-- Lists with the same elements give the same, up to order and repetition. -/
theorem collect_congr {β : Type*} {f : α → Option (List β)} {l l' : List α}
    (h : ∀ a, a ∈ l ↔ a ∈ l') :
    Option.Rel (fun out out' => ∀ b, b ∈ out ↔ b ∈ out') (collect f l) (collect f l') := by
  have hgives : ∀ {l l' : List α}, (∀ a, a ∈ l ↔ a ∈ l') → ∀ {out}, collect f l = some out →
      ∃ out', collect f l' = some out' ∧ ∀ b, b ∈ out ↔ b ∈ out' := by
    intro l l' h out hout
    obtain ⟨hall, rfl⟩ := collect_eq_some_iff.mp hout
    refine ⟨_, collect_eq_some_iff.mpr ⟨fun a ha => hall a ((h a).mpr ha), rfl⟩, fun b => ?_⟩
    simp only [List.mem_flatten, List.mem_filterMap, h]
  cases hout : collect f l with
  | some out =>
    obtain ⟨out', hout', hsame⟩ := hgives h hout
    rw [hout']
    exact .some hsame
  | none =>
    cases hout' : collect f l' with
    | none => exact .none
    | some out' =>
      obtain ⟨out, hout'', -⟩ := hgives (fun a => (h a).symm) hout'
      rw [hout] at hout''
      cases hout''

end Listing
