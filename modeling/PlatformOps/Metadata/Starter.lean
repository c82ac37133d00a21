import PlatformOps.Metadata.Globs

/-!
# When the Starter Registry Covers Every Dataset Once

A pattern made for a folder is a model's own id, or a shared prefix that no id
outside its group matches: what matches it is in the folder (`mem_of_cover`), and
each of the folder's ids is matched once (`hits_cover`). Two things go wrong. The
ids of versioned models are not the ones the patterns are made for. And two names
that differ only in the underscores they start with have the same tokens, so that
the search never tells them apart: it comes to an end only if some group they are
in can be told by its prefix (`cover_ok`, `separable_of_cover`).
-/

namespace PlatformOps.Metadata

open Listing Fallible Prefixes

/-! ## Name tokens -/

section Tokens

variable {name name' : String} {i n : ℕ}

theorem tokenPrefix_zero (name : String) : tokenPrefix name 0 = "" := by
  simp [tokenPrefix]

theorem tokenPrefix_congr (h : bareName name = bareName name') (i : ℕ) :
    tokenPrefix name i = tokenPrefix name' i := by
  rw [tokenPrefix, tokenPrefix, nameTokens, nameTokens, h]

private theorem length_le_length_flatten {α : Type} {l : List (List α)} (h : [] ∉ l) :
    l.length ≤ l.flatten.length := by
  induction l with
  | nil => simp
  | cons a l ih =>
    have ha : 0 < a.length := List.length_pos_iff.mpr fun heq => h (heq ▸ List.mem_cons_self ..)
    have hrest := ih fun hmem => h (List.mem_cons_of_mem _ hmem)
    simp only [List.length_cons, List.flatten_cons, List.length_append]
    omega

/-- Enough tokens are the whole bare name. -/
theorem tokenPrefix_of_le (h : name.toList.length ≤ n) :
    tokenPrefix name n = String.ofList (bareName name) := by
  have hflatten : (nameTokens name).flatten = bareName name := List.flatten_splitBy ..
  have hlength : (nameTokens name).length ≤ n := by
    calc (nameTokens name).length
        ≤ (nameTokens name).flatten.length :=
          length_le_length_flatten (List.nil_notMem_splitBy _ _)
      _ = (bareName name).length := by rw [hflatten]
      _ ≤ name.toList.length := List.length_dropWhile_le ..
      _ ≤ n := h
  rw [tokenPrefix, List.take_of_length_le hlength, hflatten]

theorem bareName_of_tokenPrefix (hn : name.toList.length ≤ n) (hn' : name'.toList.length ≤ n)
    (h : tokenPrefix name n = tokenPrefix name' n) : bareName name = bareName name' := by
  rw [tokenPrefix_of_le hn, tokenPrefix_of_le hn'] at h
  exact String.ofList_injective h

end Tokens

/-! ## Ids of models -/

section Ids

variable {root name name' : String}

theorem toList_modelId (root name : String) :
    (modelId root name).toList = "model.".toList ++ root.toList ++ ['.'] ++ name.toList := by
  simp [modelId]

theorem modelId_inj : modelId root name = modelId root name' ↔ name = name' := by
  rw [← String.toList_inj, toList_modelId, toList_modelId, List.append_cancel_left_eq,
    String.toList_inj]

theorem modelId_prefix_iff {text : String} :
    (modelId root name).toList <+: (modelId root text).toList ↔ name.toList <+: text.toList := by
  rw [toList_modelId, toList_modelId, List.prefix_append_right_inj]

theorem globFree_modelId (hroot : GlobFree root.toList) (hname : GlobFree name.toList) :
    GlobFree (modelId root name).toList := by
  rw [toList_modelId]
  refine GlobFree.append (GlobFree.append (GlobFree.append ?_ hroot) ?_) hname
  · simp [GlobFree, isGlob]
  · simp [GlobFree, isGlob]

end Ids

/-! ## What the patterns match -/

section Patterns

variable {root : String} {allIds names patterns : List String} {fuel depth : ℕ}
  {id pattern : String}

theorem commonPrefixOf_isPrefix {name : String} (h : name ∈ names) :
    (commonPrefixOf names).toList <+: name.toList := by
  rw [commonPrefixOf, String.toList_ofList]
  exact commonPrefix_isPrefix (List.mem_map_of_mem h)

theorem rejected_eq_false_iff : rejected root allIds names = false ↔
    commonPrefixOf names ≠ "" ∧ ∀ i ∈ allIds,
      fnmatchcase i (modelId root (commonPrefixOf names) ++ "*") = true →
        i ∈ names.map (modelId root) := by
  simp only [rejected, Bool.or_eq_false_iff, decide_eq_false_iff_not, List.any_eq_false,
    Bool.and_eq_true, decide_eq_true_eq, not_and', not_not, ne_eq]

/-- One more token splits the names, and each group has its patterns. -/
theorem cover_step (h : cover root allIds (fuel + 1) names depth = .ok patterns) :
    (names.length = 1 ∧ patterns = names.map (modelId root)) ∨
    (names.length ≠ 1 ∧ rejected root allIds names = false ∧
      patterns = [modelId root (commonPrefixOf names) ++ "*"]) ∨
    (names.length ≠ 1 ∧ (sortedSet (names.map fun n => tokenPrefix n (depth + 1))).length = 1 ∧
      (∀ n ∈ names, tokenPrefix n (depth + 1) = n) ∧
      patterns = sortedSet (names.map (modelId root))) ∨
    (names.length ≠ 1 ∧ rejected root allIds names = true ∧
      ∃ groups, (sortedSet (names.map fun n => tokenPrefix n (depth + 1))).mapM (fun key =>
        cover root allIds fuel (names.filter fun n => tokenPrefix n (depth + 1) = key)
          (depth + 1)) = .ok groups ∧ patterns = groups.flatten) := by
  rw [cover] at h
  split at h
  · rename_i hone
    exact Or.inl ⟨hone, (Except.ok.inj h).symm⟩
  · rename_i hmany
    split at h
    · rename_i haccepted
      exact Or.inr (Or.inl ⟨hmany, haccepted, (Except.ok.inj h).symm⟩)
    · rename_i hrejected
      dsimp only at h
      split at h
      · rename_i hsame
        exact Or.inr (Or.inr (Or.inl ⟨hmany, hsame.1, hsame.2, (Except.ok.inj h).symm⟩))
      · obtain ⟨groups, hgroups, heq⟩ := bind_eq_ok.mp h
        exact Or.inr (Or.inr (Or.inr ⟨hmany, (Bool.not_eq_false _).mp hrejected, groups, hgroups,
          (pure_eq_ok.mp heq).symm⟩))

theorem cover_nil (h : cover root allIds fuel [] depth = .ok patterns) : patterns = [] := by
  cases fuel with
  | zero => cases h
  | succ fuel =>
    rcases cover_step h with
      ⟨hone, -⟩ | ⟨-, haccepted, -⟩ | ⟨-, -, -, rfl⟩ | ⟨-, -, groups, hgroups, rfl⟩
    · cases hone
    · -- No names share the empty prefix.
      exact absurd rfl (rejected_eq_false_iff.mp haccepted).1
    · rfl
    · obtain rfl := Except.ok.inj hgroups
      rfl

/-- Every pattern is about models of the root project. -/
theorem modelId_of_cover (h : cover root allIds fuel names depth = .ok patterns)
    (hp : pattern ∈ patterns) : ∃ rest, pattern = modelId root rest := by
  induction fuel generalizing names depth patterns with
  | zero => cases h
  | succ fuel ih =>
    rcases cover_step h with
      ⟨-, rfl⟩ | ⟨-, -, rfl⟩ | ⟨-, -, -, rfl⟩ | ⟨-, -, groups, hgroups, rfl⟩
    · obtain ⟨name, -, rfl⟩ := List.mem_map.mp hp
      exact ⟨name, rfl⟩
    · -- A common prefix that matches nothing outside the group.
      obtain rfl := List.mem_singleton.mp hp
      exact ⟨commonPrefixOf names ++ "*", by rw [modelId, modelId, String.append_assoc]⟩
    · obtain ⟨name, -, rfl⟩ := List.mem_map.mp (mem_sortedSet.mp hp)
      exact ⟨name, rfl⟩
    · -- A group of the next depth, by induction.
      obtain ⟨group, hgroup, hp⟩ := List.mem_flatten.mp hp
      obtain ⟨key, -, hkey⟩ := exists_preimage_of_mem hgroups hgroup
      exact ih hkey hp

/-- **An id that a pattern matches is that of one of its names.** -/
theorem mem_of_cover (hroot : GlobFree root.toList) (hnames : ∀ n ∈ names, GlobFree n.toList)
    (h : cover root allIds fuel names depth = .ok patterns) (hp : pattern ∈ patterns)
    (hid : id ∈ allIds) (hmatch : fnmatchcase id pattern = true) :
    id ∈ names.map (modelId root) := by
  induction fuel generalizing names depth patterns with
  | zero => cases h
  | succ fuel ih =>
    rcases cover_step h with
      ⟨-, rfl⟩ | ⟨-, haccepted, rfl⟩ | ⟨-, -, -, rfl⟩ | ⟨-, -, groups, hgroups, rfl⟩
    · -- One name, and its id as the pattern.
      obtain ⟨name, hname, rfl⟩ := List.mem_map.mp hp
      obtain rfl := (fnmatchcase_exact (globFree_modelId hroot (hnames name hname))).mp hmatch
      exact hp
    · obtain rfl := List.mem_singleton.mp hp
      exact (rejected_eq_false_iff.mp haccepted).2 id hid hmatch
    · -- Names with no token left: their ids.
      obtain ⟨name, hname, rfl⟩ := List.mem_map.mp (mem_sortedSet.mp hp)
      obtain rfl := (fnmatchcase_exact (globFree_modelId hroot (hnames name hname))).mp hmatch
      exact mem_sortedSet.mp hp
    · obtain ⟨group, hgroup, hp⟩ := List.mem_flatten.mp hp
      obtain ⟨key, -, hkey⟩ := exists_preimage_of_mem hgroups hgroup
      have hmem := ih (fun n hn => hnames n (List.mem_of_mem_filter hn)) hkey hp
      obtain ⟨name, hname, heq⟩ := List.mem_map.mp hmem
      exact heq ▸ List.mem_map_of_mem (List.mem_of_mem_filter hname)

/-- One key of a list without repetition is picked once. -/
private theorem sum_indicator {κ : Type} [DecidableEq κ] {keys : List κ} (hnodup : keys.Nodup)
    (k : κ) : (keys.map fun key => if key = k then 1 else 0).sum = if k ∈ keys then 1 else 0 := by
  induction keys with
  | nil => simp
  | cons key keys ih =>
    obtain ⟨hkey, hkeys⟩ := List.nodup_cons.mp hnodup
    rw [List.map_cons, List.sum_cons, ih hkeys]
    by_cases heq : key = k
    · subst heq
      simp [hkey]
    · simp [heq, Ne.symm heq]

/-- How many patterns of each group match an id, in all. -/
theorem countP_flatten_of_groups {κ : Type} [DecidableEq κ] {keys : List κ}
    {groups : List (List String)} {patternsOf : κ → Except String (List String)}
    (hnodup : keys.Nodup) (hgroups : keys.mapM patternsOf = .ok groups) {p : String → Bool} {k : κ}
    (hcount : ∀ key ∈ keys, ∀ patterns, patternsOf key = .ok patterns →
      patterns.countP p = if key = k then 1 else 0) :
    groups.flatten.countP p = if k ∈ keys then 1 else 0 := by
  rw [List.countP_flatten, ← sum_indicator hnodup]
  congr 1
  rw [mapM_eq_ok_iff] at hgroups
  clear hnodup
  induction hgroups with
  | nil => rfl
  | cons hone _ ih =>
    rw [List.map_cons, List.map_cons, hcount _ (by simp) _ hone,
      ih fun key hkey => hcount key (List.mem_cons_of_mem _ hkey)]

/-- Names that are a single group, and each a whole token prefix, are one name. -/
theorem eq_of_one_group {f : String → String} {name name' : String}
    (hone : (sortedSet (names.map f)).length = 1) (hsame : ∀ n ∈ names, f n = n)
    (hname : name ∈ names) (hname' : name' ∈ names) : name = name' := by
  obtain ⟨key, hkey⟩ := List.length_eq_one_iff.mp hone
  have hkeys : ∀ n ∈ names, n = key := by
    intro n hn
    have hmem : f n ∈ sortedSet (names.map f) := mem_sortedSet.mpr (List.mem_map_of_mem hn)
    rw [hkey, hsame n hn] at hmem
    exact List.mem_singleton.mp hmem
  rw [hkeys name hname, hkeys name' hname']

/-- Different names are never a single group of whole token prefixes. -/
theorem length_of_one_group (hnodup : names.Nodup) {f : String → String}
    (hone : (sortedSet (names.map f)).length = 1) (hsame : ∀ n ∈ names, f n = n) :
    names.length = 1 := by
  obtain ⟨key, hkey⟩ := List.length_eq_one_iff.mp hone
  have hmem : key ∈ sortedSet (names.map f) := by simp [hkey]
  obtain ⟨name, hname, -⟩ := List.mem_map.mp (mem_sortedSet.mp hmem)
  by_contra hmany
  obtain ⟨name', hname', hne⟩ := (one_lt_length_iff hnodup hname).mp (by
    have hpos := List.length_pos_of_mem hname
    omega)
  exact hne (eq_of_one_group hone hsame hname' hname)

theorem no_hits_cover (hroot : GlobFree root.toList) (hnames : ∀ n ∈ names, GlobFree n.toList)
    (hid : id ∈ allIds) (hmem : id ∉ names.map (modelId root))
    (h : cover root allIds fuel names depth = .ok patterns) :
    patterns.countP (fun p => fnmatchcase id p) = 0 := by
  rw [List.countP_eq_zero]
  intro pattern hp hmatch
  exact hmem (mem_of_cover hroot hnames h hp hid hmatch)

/-- **Each id of the names is matched once.** -/
theorem hits_cover (hroot : GlobFree root.toList) (hnames : ∀ n ∈ names, GlobFree n.toList)
    (hnodup : names.Nodup) {name : String} (hname : name ∈ names)
    (hid : modelId root name ∈ allIds)
    (h : cover root allIds fuel names depth = .ok patterns) :
    patterns.countP (fun p => fnmatchcase (modelId root name) p) = 1 := by
  induction fuel generalizing names depth patterns with
  | zero => cases h
  | succ fuel ih =>
    rcases cover_step h with
      ⟨hone, rfl⟩ | ⟨-, -, rfl⟩ | ⟨hmany, hone, hsame, -⟩ | ⟨-, -, groups, hgroups, rfl⟩
    · -- The one name of the list is this one.
      obtain ⟨only, rfl⟩ := List.length_eq_one_iff.mp hone
      obtain rfl := List.mem_singleton.mp hname
      have hmatch : fnmatchcase (modelId root name) (modelId root name) = true :=
        (fnmatchcase_exact (globFree_modelId hroot (hnames name hname))).mpr rfl
      simp [hmatch]
    · -- The common prefix is a prefix of it.
      have hstart := commonPrefixOf_isPrefix hname
      have hfree := globFree_modelId hroot ((hnames name hname).of_isPrefix hstart)
      have hmatch := (fnmatchcase_star hfree).mpr (modelId_prefix_iff.mpr hstart)
      simp [hmatch]
    · exact absurd (length_of_one_group hnodup hone hsame) hmany
    · -- It is matched in its own group, by induction, and in no other.
      have hkey : tokenPrefix name (depth + 1) ∈
          sortedSet (names.map fun n => tokenPrefix n (depth + 1)) :=
        mem_sortedSet.mpr (List.mem_map_of_mem hname)
      rw [countP_flatten_of_groups (nodup_sortedSet _) hgroups
        (k := tokenPrefix name (depth + 1)), if_pos hkey]
      intro key _ patterns hpatterns
      have hgroup : ∀ n ∈ names.filter (fun n => tokenPrefix n (depth + 1) = key),
          GlobFree n.toList := fun n hn => hnames n (List.mem_of_mem_filter hn)
      split
      · rename_i heq
        subst heq
        apply ih hgroup (hnodup.filter _) _ hpatterns
        exact List.mem_filter.mpr ⟨hname, decide_eq_true rfl⟩
      · rename_i hne
        apply no_hits_cover hroot hgroup hid _ hpatterns
        intro hmem
        obtain ⟨n, hn, heq⟩ := List.mem_map.mp hmem
        obtain rfl := modelId_inj.mp heq
        exact hne (of_decide_eq_true (List.mem_filter.mp hn).2).symm

end Patterns

/-! ## When the search comes to an end -/

/-- The names that share a name's tokens, as far as the search has looked. -/
def agreeing (names : List String) (name : String) (depth : ℕ) : List String :=
  names.filter fun n => ∀ i ≤ depth, tokenPrefix n i = tokenPrefix name i

/-- Every two names that differ only in the underscores they start with are, at some depth, in a
group that its prefix tells from the rest. -/
def Separable (root : String) (allIds folder : List String) : Prop :=
  ∀ name ∈ folder, ∀ name' ∈ folder, name ≠ name' → bareName name = bareName name' →
    ∃ depth, rejected root allIds (agreeing folder name depth) = false

/-- The names that share a name's tokens from `depth` on, as far as the search has looked. -/
def groupFrom (names : List String) (depth : ℕ) (name : String) (k : ℕ) : List String :=
  names.filter fun n => ∀ i ≤ k, depth < i → tokenPrefix n i = tokenPrefix name i

/-- The same of a search that starts with `depth` tokens. -/
def SeparableFrom (root : String) (allIds names : List String) (depth : ℕ) : Prop :=
  ∀ name ∈ names, ∀ name' ∈ names, name ≠ name' → bareName name = bareName name' →
    ∃ k ≥ depth, rejected root allIds (groupFrom names depth name k) = false

section Search

variable {root : String} {allIds names patterns : List String} {fuel depth k : ℕ}
  {name name' key : String}

theorem groupFrom_self (names : List String) (depth : ℕ) (name : String) :
    groupFrom names depth name depth = names := by
  rw [groupFrom, List.filter_eq_self]
  intro n _
  exact decide_eq_true fun i hi hdepth => absurd hdepth (by omega)

theorem groupFrom_zero (names : List String) (name : String) (k : ℕ) :
    groupFrom names 0 name k = agreeing names name k := by
  refine List.filter_congr fun n _ => decide_eq_decide.mpr ?_
  constructor
  · intro h i hi
    rcases Nat.eq_zero_or_pos i with rfl | hpos
    · rw [tokenPrefix_zero, tokenPrefix_zero]
    · exact h i hi hpos
  · exact fun h i hi _ => h i hi

/-- The groups of a group are groups of the whole. -/
theorem groupFrom_filter (hkey : tokenPrefix name (depth + 1) = key) (hk : depth + 1 ≤ k) :
    groupFrom (names.filter fun n => tokenPrefix n (depth + 1) = key) (depth + 1) name k =
      groupFrom names depth name k := by
  subst hkey
  rw [groupFrom, groupFrom, List.filter_filter]
  refine List.filter_congr fun n _ => ?_
  rw [Bool.eq_iff_iff]
  simp only [Bool.and_eq_true, decide_eq_true_eq]
  constructor
  · rintro ⟨hlater, hfirst⟩ i hi hdepth
    rcases Nat.lt_or_ge (depth + 1) i with hlt | hge
    · exact hlater i hi hlt
    · obtain rfl : i = depth + 1 := by omega
      exact hfirst
  · intro h
    exact ⟨fun i hi hdepth => h i hi (by omega), h _ hk (by omega)⟩

/-- Names that are the same but for the underscores they start with stay together. -/
theorem groupFrom_of_bareName (h : ∀ n ∈ names, bareName n = bareName name) :
    groupFrom names depth name k = names := by
  rw [groupFrom, List.filter_eq_self]
  intro n hn
  exact decide_eq_true fun i _ _ => tokenPrefix_congr (h n hn) i

theorem separableFrom_zero :
    SeparableFrom root allIds names 0 ↔ Separable root allIds names := by
  simp only [SeparableFrom, Separable, groupFrom_zero, ge_iff_le, Nat.zero_le, true_and]

/-- A name that is split off has its patterns among those of its group. -/
theorem exists_group {groups : List (List String)}
    (hgroups : (sortedSet (names.map fun n => tokenPrefix n (depth + 1))).mapM (fun key =>
      cover root allIds fuel (names.filter fun n => tokenPrefix n (depth + 1) = key)
        (depth + 1)) = .ok groups) (hname : name ∈ names) :
    ∃ group ∈ groups, cover root allIds fuel
      (names.filter fun n => tokenPrefix n (depth + 1) = tokenPrefix name (depth + 1))
        (depth + 1) = .ok group := by
  apply exists_image_of_mem hgroups
  exact mem_sortedSet.mpr (List.mem_map_of_mem hname)

/-- A group that does not end the search can be told apart further on. -/
theorem SeparableFrom.split (h : SeparableFrom root allIds names depth)
    (hrejected : rejected root allIds names = true) (key : String) :
    SeparableFrom root allIds (names.filter fun n => tokenPrefix n (depth + 1) = key)
      (depth + 1) := by
  intro name hname name' hname' hne hbare
  obtain ⟨hmem, hkey⟩ := List.mem_filter.mp hname
  obtain ⟨k, hk, haccepted⟩ := h name hmem name' (List.mem_of_mem_filter hname') hne hbare
  have hlater : depth + 1 ≤ k := by
    by_contra hle
    obtain rfl : k = depth := by omega
    rw [groupFrom_self, hrejected] at haccepted
    cases haccepted
  refine ⟨k, hlater, ?_⟩
  rwa [groupFrom_filter (of_decide_eq_true hkey) hlater]

/-- Of names that differ in the underscores they start with only, the search makes no groups. -/
theorem cover_bare (hnodup : names.Nodup) (hseparable : SeparableFrom root allIds names depth)
    (hbare : ∀ n ∈ names, ∀ n' ∈ names, bareName n = bareName n') (hfuel : 0 < fuel) :
    ∃ patterns, cover root allIds fuel names depth = .ok patterns := by
  obtain ⟨fuel, rfl⟩ := Nat.exists_eq_succ_of_ne_zero hfuel.ne'
  rw [cover]
  split
  · exact ⟨_, rfl⟩
  · rename_i hmany
    split
    · exact ⟨_, rfl⟩
    · rename_i hrejected
      -- two of them would be in a group that is accepted, which is all of them
      have hnone : names = [] := by
        by_contra hsome
        obtain ⟨name, hname⟩ := List.exists_mem_of_ne_nil names hsome
        obtain ⟨name', hname', hne⟩ := (one_lt_length_iff hnodup hname).mp (by
          have hpos := List.length_pos_of_mem hname
          omega)
        obtain ⟨k, -, haccepted⟩ := hseparable name hname name' hname' hne.symm
          (hbare name hname name' hname')
        rw [groupFrom_of_bareName fun n hn => hbare n hn name hname] at haccepted
        exact hrejected haccepted
      subst hnone
      exact ⟨[], rfl⟩

/-- **The search comes to an end** if the names can be told apart. -/
theorem cover_ok {bound : ℕ} (hbound : ∀ n ∈ names, n.toList.length ≤ bound)
    (hnodup : names.Nodup) (hseparable : SeparableFrom root allIds names depth)
    (hfuel : bound + 2 ≤ depth + fuel) (htwo : 2 ≤ fuel) :
    ∃ patterns, cover root allIds fuel names depth = .ok patterns := by
  induction fuel generalizing names depth with
  | zero => omega
  | succ fuel ih =>
    rw [cover]
    split
    · exact ⟨_, rfl⟩
    · split
      · exact ⟨_, rfl⟩
      · rename_i hrejected
        dsimp only
        split
        · exact ⟨_, rfl⟩
        · have hsplit := hseparable.split ((Bool.not_eq_false _).mp hrejected)
          obtain ⟨groups, hgroups⟩ := exists_mapM_eq_ok
              (l := sortedSet (names.map fun n => tokenPrefix n (depth + 1)))
              (f := fun key => cover root allIds fuel
                (names.filter fun n => tokenPrefix n (depth + 1) = key) (depth + 1)) fun key _ => by
            have hgroup : ∀ n ∈ names.filter (fun n => tokenPrefix n (depth + 1) = key),
                n.toList.length ≤ bound := fun n hn => hbound n (List.mem_of_mem_filter hn)
            rcases Nat.lt_or_ge depth bound with hlt | hge
            · exact ih hgroup (hnodup.filter _) (hsplit key) (by omega) (by omega)
            · -- the names are used up: a group is one bare name
              apply cover_bare (hnodup.filter _) (hsplit key) _ (by omega)
              intro n hn n' hn'
              have hlength : ∀ n ∈ names.filter (fun n => tokenPrefix n (depth + 1) = key),
                  n.toList.length ≤ depth + 1 := fun n hn => (hgroup n hn).trans (by omega)
              apply bareName_of_tokenPrefix (hlength n hn) (hlength n' hn')
              rw [of_decide_eq_true (List.mem_filter.mp hn).2,
                of_decide_eq_true (List.mem_filter.mp hn').2]
          exact ⟨_, bind_eq_ok.mpr ⟨groups, hgroups, rfl⟩⟩

/-- **The search comes to an end only if** the names can be told apart. -/
theorem separableFrom_of_cover (h : cover root allIds fuel names depth = .ok patterns) :
    SeparableFrom root allIds names depth := by
  intro name hname name' hname' hne hbare
  induction fuel generalizing names depth patterns with
  | zero => cases h
  | succ fuel ih =>
    -- two different names are in the list: one of the two middle cases ends it
    rcases cover_step h with
      ⟨hone, -⟩ | ⟨-, haccepted, -⟩ | ⟨-, hone, hsame, -⟩ | ⟨-, -, groups, hgroups, -⟩
    · obtain ⟨only, rfl⟩ := List.length_eq_one_iff.mp hone
      exact absurd ((List.mem_singleton.mp hname).trans (List.mem_singleton.mp hname').symm) hne
    · exact ⟨depth, le_rfl, by rwa [groupFrom_self]⟩
    · exact absurd (eq_of_one_group hone hsame hname hname') hne
    · -- The two have the same tokens, and stay in one group.
      obtain ⟨group, -, hpatterns⟩ := exists_group hgroups hname
      obtain ⟨k, hk, haccepted⟩ := ih hpatterns
        (List.mem_filter.mpr ⟨hname, decide_eq_true rfl⟩)
        (List.mem_filter.mpr ⟨hname', decide_eq_true (tokenPrefix_congr hbare.symm _)⟩)
      refine ⟨k, Nat.le_of_succ_le hk, ?_⟩
      rwa [groupFrom_filter rfl hk] at haccepted

end Search

end PlatformOps.Metadata
