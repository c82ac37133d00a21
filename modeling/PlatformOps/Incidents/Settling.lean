import PlatformOps.Incidents.Regrouping

/-!
# What a Regrouping Does

The statements of `settle`, one loop after the other, on the table of incidents:
each loop's table is the store's own, every incident changed as `Regrouping` says,
and the new incidents after it.

- `settle_ends`: a settled store is that of the plan (`Settled`), and an ingest
  that does not get there was not clear, or not rooted.
-/

namespace PlatformOps.Incidents

open Metadata Listing Fallible

/-! ## The unique index on a changed table -/

/-- A table in which no two rows share a number. -/
def Numbered (incidents : List Incident) : Prop := (incidents.map Incident.seq).Nodup

theorem Numbered.eq_of_seq {incidents : List Incident} (h : Numbered incidents) {i j : Incident}
    (hi : i ∈ incidents) (hj : j ∈ incidents) (hseq : i.seq = j.seq) : i = j :=
  List.inj_on_of_nodup_map h hi hj hseq

/-- The rows of a table under an open incident of their root. -/
theorem oneOpenPerRoot_iff {incidents : List Incident} (h : Numbered incidents) :
    OneOpenPerRoot incidents ↔ ∀ i ∈ incidents, ∀ j ∈ incidents, i.isOpen = true →
      j.isOpen = true → i.root = j.root → i = j := by
  have hnodup : incidents.Nodup := List.Nodup.of_map _ h
  rw [OneOpenPerRoot, List.nodup_map_iff_inj_on (hnodup.filter _)]
  simp only [List.mem_filter]
  exact ⟨fun hall i hi j hj hio hjo hroot => hall i ⟨hi, hio⟩ j ⟨hj, hjo⟩ hroot,
    fun hall i hi j hj hroot => hall i hi.1 j hj.1 hi.2 hj.2 hroot⟩

/-- A table whose rows were changed, keeping their numbers and roots, and then extended, has
one open incident per root if no two of the open ones, changed or new, share a root. -/
theorem oneOpenPerRoot_map_append {incidents news : List Incident} {f : Incident → Incident}
    (hnumbered : Numbered incidents) (hroot : ∀ i, (f i).root = i.root)
    (hold : ∀ i ∈ incidents, ∀ j ∈ incidents, (f i).isOpen = true → (f j).isOpen = true →
      i.root = j.root → i = j)
    (hnew : ∀ i ∈ incidents, (f i).isOpen = true → i.root ∉ news.map Incident.root)
    (hnews : (news.map Incident.root).Nodup) : OneOpenPerRoot (incidents.map f ++ news) := by
  have hnodup : incidents.Nodup := List.Nodup.of_map _ hnumbered
  rw [OneOpenPerRoot, List.filter_append, List.map_append, List.nodup_append]
  refine ⟨?_, hnews.sublist (List.filter_sublist.map _), ?_⟩
  -- two incidents that were there
  · rw [List.filter_map, List.map_map, List.nodup_map_iff_inj_on (hnodup.filter _)]
    intro i hi j hj hroots
    simp only [List.mem_filter, Function.comp_apply, hroot] at hi hj hroots
    exact hold i hi.1 j hj.1 hi.2 hj.2 hroots
  -- one that was there, and a new one
  · intro a ha b hb heq
    simp only [List.mem_map, List.mem_filter] at ha hb
    obtain ⟨_, ⟨⟨i, hi, rfl⟩, hopen⟩, rfl⟩ := ha
    obtain ⟨n, ⟨hn, -⟩, rfl⟩ := hb
    refine hnew i hi hopen ?_
    rw [hroot] at heq
    exact heq ▸ List.mem_map_of_mem hn

/-- Closing incidents never breaks the index. -/
theorem OneOpenPerRoot.map {incidents : List Incident} {f : Incident → Incident}
    (h : OneOpenPerRoot incidents) (hroot : ∀ i, (f i).root = i.root)
    (hopen : ∀ i ∈ incidents, (f i).isOpen = true → i.isOpen = true) :
    OneOpenPerRoot (incidents.map f) := by
  have hsub : ((incidents.map f).filter Incident.isOpen).map Incident.root =
      (incidents.filter fun i => (f i).isOpen).map Incident.root := by
    rw [List.filter_map, List.map_map]
    exact List.map_congr_left fun i _ => hroot i
  rw [OneOpenPerRoot, hsub]
  refine h.sublist (List.Sublist.map _ ?_)
  -- what is open after the change was open before it
  have : (incidents.filter fun i => (f i).isOpen) =
      (incidents.filter Incident.isOpen).filter fun i => (f i).isOpen := by
    rw [List.filter_filter]
    refine List.filter_congr fun i hi => ?_
    cases hfi : (f i).isOpen with
    | false => rfl
    | true => simp [hopen i hi hfi]
  rw [this]
  exact List.filter_sublist

/-- A statement ends with the rows it leaves, or breaks the index. -/
theorem ends_putIncidents (s : Store) (incidents : List Incident) :
    Ends (s.putIncidents incidents)
      (fun e => e = oneOpenPerRoot ∧ ¬ OneOpenPerRoot incidents)
      fun s' => s' = { s with incidents := incidents } ∧ OneOpenPerRoot incidents := by
  rw [Store.putIncidents]
  split
  · exact ⟨rfl, ‹_›⟩
  · exact ⟨rfl, ‹_›⟩

/-- The rows after `UPDATE incidents SET … WHERE incident_id = …`. -/
def updateRows (seq : ℕ) (change : Incident → Incident) (incidents : List Incident) :
    List Incident :=
  incidents.map fun i => if i.seq = seq then change i else i

/-- Reopening clears the resolution of the one incident, if it is the run's. -/
theorem ends_reopen (s : Store) (seq : ℕ) (runId : String) (h : Numbered s.incidents)
    (hone : OneOpenPerRoot s.incidents) :
    let incidents := updateRows seq (fun i =>
      if i.resolvedByRun = some runId then { i with resolved := none } else i) s.incidents
    Ends (s.reopen seq runId) (fun e => e = oneOpenPerRoot ∧ ¬ OneOpenPerRoot incidents)
      fun s' => s' = { s with incidents := incidents } ∧ OneOpenPerRoot incidents := by
  intro incidents
  rw [Store.reopen]
  split
  -- its row is written: numbered rows make it the only one
  · rename_i hany
    simp only [List.any_eq_true, Bool.and_eq_true, decide_eq_true_eq] at hany
    obtain ⟨i, hi, hseq, hres⟩ := hany
    have hrows : (s.incidents.map fun j => if j.seq = seq then { j with resolved := none } else j) =
        incidents := by
      refine List.map_congr_left fun j hj => ?_
      by_cases hj' : j.seq = seq
      · obtain rfl := h.eq_of_seq hi hj (hseq.trans hj'.symm)
        simp [hj', hres]
      · simp [hj']
    rw [Store.setResolution, Store.updateIncident, hrows]
    exact ends_putIncidents s incidents
  · rename_i hany
    simp only [List.any_eq_true, Bool.and_eq_true, decide_eq_true_eq, not_exists, not_and] at hany
    -- nothing of this run to take back
    have hrows : incidents = s.incidents := by
      refine (List.map_congr_left fun j hj => ?_).trans (List.map_id _)
      by_cases hj' : j.seq = seq
      · simp [hany j hj hj']
      · simp [hj']
    rw [ends_ok, hrows]
    exact ⟨rfl, hone⟩

namespace Regrouping

variable {r : Regrouping}

/-! ## Assigning the groups -/

/-- The incident a group is assigned to: joined, reused, or one of the new ones. -/
def place (r : Regrouping) (news : List Incident) (g : Group) : Option Incident :=
  (r.joins g).or ((r.mine ++ news).find? fun i => i.root = g.root)

/-- A new incident of the run. -/
structure IsNew (r : Regrouping) (n : Incident) : Prop where
  resolved : n.resolved = none
  mergedInto : n.mergedInto = none
  openedByRun : n.openedByRun = r.runId
  openedAt : n.openedAt = r.now
  unused : n.seq ∉ r.store.incidents.map Incident.seq
  /-- It was opened for a group, among the incidents of that moment. -/
  opened : ∃ g ∈ r.facts.groups, r.opens g = true ∧
    ∃ incidents, n = newIncident r.ctx g r.runId r.now incidents

/-- Once these groups are assigned, with these incidents opened. -/
structure AssignedBy (r : Regrouping) (groups : List Group) (news : List Incident)
    (a : Assigned) : Prop where
  store : a.store = { r.store with
    incidents := r.store.incidents.map (r.afterAssign groups) ++ news }
  mine : a.mine = r.mine ++ news
  opened : a.opened = news.map Incident.seq
  appended : a.appended = (groups.filterMap r.joins).map Incident.seq
  roots : news.map Incident.root = (groups.filter r.opens).map Group.root
  isNew : ∀ n ∈ news, r.IsNew n
  numbers : (news.map Incident.seq).Nodup
  oneOpen : OneOpenPerRoot a.store.incidents
  keys : a.assignment.map Prod.fst = (groups.map Group.root).reverse
  found : ∀ g ∈ groups, ∃ i, r.place news g = some i ∧ a.assignment.lookup g.root = some i.seq

/-- The table of a regrouping keeps its numbers apart. -/
theorem numbered_map_append {news : List Incident} {f : Incident → Incident}
    (hnumbered : Numbered r.store.incidents) (hseq : ∀ i, (f i).seq = i.seq)
    (hnew : ∀ n ∈ news, r.IsNew n) (hnumbers : (news.map Incident.seq).Nodup) :
    Numbered (r.store.incidents.map f ++ news) := by
  rw [Numbered, List.map_append, List.map_map, List.nodup_append]
  have hold : r.store.incidents.map (Incident.seq ∘ f) = r.store.incidents.map Incident.seq :=
    List.map_congr_left fun i _ => hseq i
  rw [hold]
  refine ⟨hnumbered, hnumbers, fun a ha b hb heq => ?_⟩
  obtain ⟨n, hn, rfl⟩ := List.mem_map.mp hb
  exact (hnew n hn).unused (heq ▸ ha)

/-- An update of the table's rows changes the store's own rows one by one, and no new one. -/
theorem updateRows_map_append {news : List Incident} {f g change : Incident → Incident}
    {i : Incident} (hnumbered : Numbered r.store.incidents) (hi : i ∈ r.store.incidents)
    (hseq : ∀ j, (f j).seq = j.seq) (hnew : ∀ n ∈ news, r.IsNew n) (hat : change (f i) = g i)
    (helse : ∀ j ∈ r.store.incidents, j ≠ i → f j = g j) :
    updateRows i.seq change (r.store.incidents.map f ++ news) = r.store.incidents.map g ++ news := by
  rw [updateRows, List.map_append, List.map_map]
  congr 1
  · refine List.map_congr_left fun j hj => ?_
    by_cases hji : j = i
    · subst hji
      simpa [hseq] using hat
    · have hne : ¬ j.seq = i.seq := fun h => hji (hnumbered.eq_of_seq hj hi h)
      simpa [hseq, hne] using helse j hj hji
  · refine (List.map_congr_left fun n hn => ?_).trans (List.map_id _)
    have hne : ¬ n.seq = i.seq := fun h => (hnew n hn).unused (h ▸ List.mem_map_of_mem hi)
    simp [hne]

theorem afterAssign_eq_reopened {groups : List Group} {i : Incident}
    (hres : i.resolvedByRun = some r.runId) (hjoined : r.joinedIn groups i = true) :
    r.afterAssign groups i = { i with resolved := none } :=
  if_pos ⟨hres, hjoined⟩

theorem afterAssign_eq_self {groups : List Group} {i : Incident}
    (h : ¬ (i.resolvedByRun = some r.runId ∧ r.joinedIn groups i = true)) :
    r.afterAssign groups i = i :=
  if_neg h

/-- An incident is open after the assignment if it was, or if a group joins it that the run had
resolved. -/
theorem isOpen_afterAssign {groups : List Group} {i : Incident}
    (h : (r.afterAssign groups i).isOpen = true) :
    i.isOpen = true ∨ (i.resolvedByRun = some r.runId ∧ r.joinedIn groups i = true) := by
  rw [afterAssign] at h
  split at h
  · exact Or.inr ‹_›
  · exact Or.inl h

/-- **If nothing stands in the way, the index holds at every point**: on a table on which some
of the incidents the regrouping reopens are reopened, and some of its new ones are opened. -/
theorem Clear.oneOpen (hclear : r.Clear) (hnumbered : Numbered r.store.incidents)
    (hone : OneOpenPerRoot r.store.incidents) {f : Incident → Incident} {reopened : Incident → Prop}
    {groups : List Group} {news : List Incident} (hroot : ∀ i, (f i).root = i.root)
    (hopen : ∀ i ∈ r.store.incidents, (f i).isOpen = true → i.isOpen = true ∨ reopened i)
    (hreopened : ∀ i, reopened i → i ∈ r.before ∧ r.reopens i = true)
    (hmerged : ∀ i, reopened i → r.isJoined i = false →
      ∀ j ∈ r.mine, r.isReused j = false → (f j).isOpen = false)
    (hsub : ∀ g ∈ groups, g ∈ r.facts.groups) (hdistinct : (groups.map Group.root).Nodup)
    (hnews : news.map Incident.root = (groups.filter r.opens).map Group.root) :
    OneOpenPerRoot (r.store.incidents.map f ++ news) := by
  -- a reopened incident shares its root with no other open one
  have halone : ∀ i, reopened i → ∀ j ∈ r.store.incidents, (f j).isOpen = true →
      j.root = i.root → j = i := by
    intro i hi j hj hjo heq
    by_contra hne
    have hway := hclear.2 i (hreopened i hi).1 (hreopened i hi).2 j hj heq hne
    rcases hopen j hj hjo with hjo' | hj'
    · obtain ⟨hmine, hreused, hjoined⟩ := hway.1 hjo'
      rw [hmerged i hi hjoined j hmine hreused] at hjo
      cases hjo
    · exact hway.2 (hreopened j hj')
  refine oneOpenPerRoot_map_append hnumbered hroot ?_ ?_ ?_
  · intro i hi j hj hio hjo heq
    rcases hopen i hi hio with hio' | hi'
    · rcases hopen j hj hjo with hjo' | hj'
      · exact (oneOpenPerRoot_iff hnumbered).mp hone i hi j hj hio' hjo' heq
      · exact halone j hj' i hi hio heq
    · exact (halone i hi' j hj hjo heq.symm).symm
  · intro i hi hio hmem
    rw [hnews] at hmem
    obtain ⟨g, hg, heq⟩ := List.mem_map.mp hmem
    obtain ⟨hg, hopens⟩ := List.mem_filter.mp hg
    rcases hopen i hi hio with hio | hi'
    · exact hclear.1 g (hsub g hg) hopens i hi hio heq.symm
    · exact root_ne_of_joins_eq_none (opens_eq_true.mp hopens).1 (hreopened i hi').1 heq.symm
  · rw [hnews]
    exact hdistinct.sublist (List.filter_sublist.map _)

/-- The index holds however far the assignment got. -/
theorem Clear.oneOpen_afterAssign (hclear : r.Clear) (hnumbered : Numbered r.store.incidents)
    (hone : OneOpenPerRoot r.store.incidents) {groups : List Group} {news : List Incident}
    (hsub : ∀ g ∈ groups, g ∈ r.facts.groups) (hdistinct : (groups.map Group.root).Nodup)
    (hroots : news.map Incident.root = (groups.filter r.opens).map Group.root) :
    OneOpenPerRoot (r.store.incidents.map (r.afterAssign groups) ++ news) := by
  have hjoined : ∀ {i}, r.joinedIn groups i = true → i ∈ r.before ∧ r.isJoined i = true := by
    intro i hi
    simp only [joinedIn, List.any_eq_true, decide_eq_true_eq] at hi
    obtain ⟨g, hg, hi⟩ := hi
    exact ⟨mem_before_of_joins hi, isJoined_eq_true.mpr ⟨g, hsub g hg, hi⟩⟩
  refine hclear.oneOpen hnumbered hone (fun _ => afterAssign_root)
    (fun i _ hopen => isOpen_afterAssign hopen) ?_ ?_ hsub hdistinct hroots
  · rintro i ⟨hres, hi⟩
    exact ⟨(hjoined hi).1, by simp [reopens, hres, (hjoined hi).2]⟩
  · rintro i ⟨-, hi⟩ hnot
    rw [(hjoined hi).2] at hnot
    cases hnot

section Assign

variable {done rest : List Group} {g : Group} {news : List Incident} {a : Assigned}

/-- Nothing is left to do for the table when a group finds an incident that stays as it is. -/
private theorem afterAssign_append {i : Incident} (h : r.joins g ≠ some i) :
    r.afterAssign (done ++ [g]) i = r.afterAssign done i := by
  simp [afterAssign, joinedIn, h]

private theorem place_append {n : Incident} {g' : Group} {i : Incident}
    (h : r.place news g' = some i) : r.place (news ++ [n]) g' = some i := by
  rw [place, Option.or_eq_some_iff] at h ⊢
  refine h.imp id fun h => ⟨h.1, ?_⟩
  rw [← List.append_assoc, List.find?_append, h.2]
  rfl

/-- The dictionary keeps what it holds under the roots of other groups. -/
private theorem found_cons {k : ℕ} {i : Incident} {news' : List Incident}
    (h : AssignedBy r done news a) (hdistinct : ((done ++ [g]).map Group.root).Nodup)
    (hkeep : ∀ g' i, r.place news g' = some i → r.place news' g' = some i)
    (hi : r.place news' g = some i) (hk : k = i.seq) :
    ∀ g' ∈ done ++ [g], ∃ i, r.place news' g' = some i ∧
      List.lookup g'.root ((g.root, k) :: a.assignment) = some i.seq := by
  intro g' hg'
  rcases List.mem_append.mp hg' with hg' | hg'
  -- an earlier group: the new entry is of another root
  · obtain ⟨i', hplace, hlook⟩ := h.found g' hg'
    refine ⟨i', hkeep g' i' hplace, ?_⟩
    have hne : g'.root ≠ g.root := by
      rw [List.map_append, List.nodup_append] at hdistinct
      exact hdistinct.2.2 _ (List.mem_map_of_mem hg') _ (by simp)
    rw [List.lookup_cons, beq_eq_false_iff_ne.mpr hne]
    exact hlook
  · rw [List.mem_singleton] at hg'
    subst hg'
    exact ⟨i, hi, by simp [hk]⟩

variable (hnumbered : Numbered r.store.incidents) (hone : OneOpenPerRoot r.store.incidents)
  (hdistinct : (r.facts.groups.map Group.root).Nodup) (hgroups : r.facts.groups = done ++ g :: rest)

include hdistinct hgroups in
private theorem distinct_append : ((done ++ [g]).map Group.root).Nodup := by
  rw [hgroups, List.append_cons] at hdistinct
  rw [List.map_append] at hdistinct
  exact (List.nodup_append.mp hdistinct).1

include hgroups in
private theorem mem_groups_of_mem_append : ∀ g' ∈ done ++ [g], g' ∈ r.facts.groups := by
  intro g' hg'
  rw [hgroups, List.append_cons]
  exact List.mem_append_left _ hg'

include hnumbered hone hdistinct hgroups in
/-- A group that joins an earlier incident reopens it if the run had resolved it. -/
private theorem assign_joined (h : AssignedBy r done news a) {i : Incident}
    (hi : r.joins g = some i) :
    Ends (assignGroup r.ctx r.runId r.now r.facts.statuses r.before a g)
      (fun e => e = oneOpenPerRoot ∧ ¬ r.Clear)
      fun a' => AssignedBy r (done ++ [g]) news a' := by
  have hmem := (mem_before.mp (mem_before_of_joins hi)).1
  have hroots : news.map Incident.root = ((done ++ [g]).filter r.opens).map Group.root := by
    have : r.opens g = false := by simp [opens, hi]
    simp [h.roots, List.filter_append, this]
  have hrows : updateRows i.seq (fun i =>
      if i.resolvedByRun = some r.runId then { i with resolved := none } else i)
      a.store.incidents = r.store.incidents.map (r.afterAssign (done ++ [g])) ++ news := by
    rw [h.store]
    refine updateRows_map_append hnumbered hmem (fun _ => afterAssign_seq) h.isNew ?_ ?_
    · by_cases hres : i.resolvedByRun = some r.runId
      · have hnext : r.joinedIn (done ++ [g]) i = true := by simp [joinedIn, hi]
        by_cases hdone : r.joinedIn done i = true
        · -- a group before this one reopened it
          rw [afterAssign_eq_reopened hres hdone, afterAssign_eq_reopened hres hnext]
          exact if_neg (by simp [Incident.resolvedByRun])
        · rw [afterAssign_eq_self fun h => hdone h.2, afterAssign_eq_reopened hres hnext]
          exact if_pos hres
      · rw [afterAssign_eq_self fun h => hres h.1, afterAssign_eq_self fun h => hres h.1]
        exact if_neg hres
    · intro j _ hne
      exact (afterAssign_append (by simpa [hi] using fun h => hne h.symm)).symm
  have hopen := ends_reopen a.store i.seq r.runId (by
    rw [h.store]
    exact numbered_map_append hnumbered (fun _ => afterAssign_seq) h.isNew h.numbers) h.oneOpen
  simp only [hrows] at hopen
  have hplace : r.place news g = some i := by simp [place, hi]
  -- after this group the store is still within what `Clear` allows
  have hpeak : r.Clear → OneOpenPerRoot
      (r.store.incidents.map (r.afterAssign (done ++ [g])) ++ news) := fun hclear =>
    hclear.oneOpen_afterAssign hnumbered hone (mem_groups_of_mem_append hgroups)
      (distinct_append hdistinct hgroups) hroots
  rw [assignGroup, show joined r.ctx r.facts.statuses r.before g = some i from hi]
  refine (hopen.mono (fun e he => ⟨he.1, fun hclear => he.2 (hpeak hclear)⟩) fun _ h => h).bind ?_
  rintro s' ⟨rfl, hone'⟩
  rw [ends_pure]
  exact {
    store := by simp [h.store]
    mine := h.mine
    opened := h.opened
    appended := by simp [h.appended, List.filterMap_append, hi]
    roots := hroots
    isNew := h.isNew
    numbers := h.numbers
    oneOpen := hone'
    keys := by simp [h.keys]
    found := found_cons h (distinct_append hdistinct hgroups) (fun _ _ h => h) hplace rfl }

include hdistinct hgroups in
/-- A group that finds an incident of the run's own reuses it. -/
private theorem assign_reused (h : AssignedBy r done news a) (hjoins : r.joins g = none)
    {i : Incident} (hi : ((r.mine ++ news).find? fun i => i.root = g.root) = some i) :
    Ends (assignGroup r.ctx r.runId r.now r.facts.statuses r.before a g)
      (fun e => e = oneOpenPerRoot ∧ ¬ r.Clear)
      fun a' => AssignedBy r (done ++ [g]) news a' := by
  -- no incident opened for another group is on this group's root
  have hnews : (news.find? fun i => i.root = g.root) = none := by
    refine List.find?_eq_none.mpr fun n hn hroot => ?_
    have hmem : n.root ∈ (done.filter r.opens).map Group.root := h.roots ▸ List.mem_map_of_mem hn
    obtain ⟨g', hg', heq⟩ := List.mem_map.mp hmem
    have hdist := distinct_append hdistinct hgroups
    rw [List.map_append, List.nodup_append] at hdist
    exact hdist.2.2 _ (List.mem_map_of_mem (List.mem_filter.mp hg').1) g.root (by simp)
      (heq.trans (by simpa using hroot))
  have hmine : (r.mine.find? fun i => i.root = g.root) = some i := by
    rw [List.find?_append, hnews, Option.or_none] at hi
    exact hi
  have hopens : r.opens g = false := by simp [opens, reuses, hjoins, hmine]
  have hsame : r.afterAssign (done ++ [g]) = r.afterAssign done :=
    funext fun j => afterAssign_append (by simp [hjoins])
  rw [assignGroup, show joined r.ctx r.facts.statuses r.before g = none from hjoins, h.mine, hi]
  rw [ends_ok]
  exact {
    store := by rw [h.store, hsame]
    mine := rfl
    opened := h.opened
    appended := by simp [h.appended, List.filterMap_append, hjoins]
    roots := by simp [h.roots, List.filter_append, hopens]
    isNew := h.isNew
    numbers := h.numbers
    oneOpen := h.oneOpen
    keys := by simp [h.keys]
    found := found_cons h (distinct_append hdistinct hgroups) (fun _ _ h => h)
      (by simp [place, hjoins, hi]) rfl }

/-- The number of a new incident is above every other. -/
private theorem newIncident_seq_not_mem (incidents : List Incident) :
    (newIncident r.ctx g r.runId r.now incidents).seq ∉ incidents.map Incident.seq := by
  intro hmem
  have hmax := List.max?_eq_some_iff.mp (@List.max?_cons' _ 0 _ (incidents.map Incident.seq))
  exact absurd (hmax.2 _ (List.mem_cons_of_mem _ hmem)) (Nat.not_succ_le_self _)

include hnumbered hone hdistinct hgroups in
/-- A group that finds no incident opens one. -/
private theorem assign_opened (h : AssignedBy r done news a) (hjoins : r.joins g = none)
    (hi : ((r.mine ++ news).find? fun i => i.root = g.root) = none) :
    Ends (assignGroup r.ctx r.runId r.now r.facts.statuses r.before a g)
      (fun e => e = oneOpenPerRoot ∧ ¬ r.Clear)
      fun a' => ∃ news', AssignedBy r (done ++ [g]) news' a' := by
  set n := newIncident r.ctx g r.runId r.now a.store.incidents with hn
  have hunused := newIncident_seq_not_mem (r := r) (g := g) a.store.incidents
  rw [← hn] at hunused
  have hmine : (r.mine.find? fun i => i.root = g.root) = none := by
    rw [List.find?_append, Option.or_eq_none_iff] at hi
    exact hi.1
  have hopens : r.opens g = true := opens_eq_true.mpr ⟨hjoins, hmine⟩
  -- the number is the first above all, so above those the run opened too
  have hnew : r.IsNew n := by
    refine ⟨rfl, rfl, rfl, rfl, fun hmem => hunused ?_, g, by simp [hgroups], hopens, _, hn⟩
    rw [h.store, List.map_append, List.map_map]
    refine List.mem_append_left _ ?_
    obtain ⟨i, hi, hseq⟩ := List.mem_map.mp hmem
    exact List.mem_map.mpr ⟨i, hi, afterAssign_seq.trans hseq⟩
  have hnumbers : ((news ++ [n]).map Incident.seq).Nodup := by
    rw [List.map_append, List.nodup_append]
    refine ⟨h.numbers, by simp, fun a' ha' b hb heq => hunused ?_⟩
    rw [h.store, List.map_append]
    refine List.mem_append_right _ ?_
    simp only [List.map_cons, List.map_nil, List.mem_singleton] at hb
    exact hb ▸ heq ▸ ha'
  have hroots : (news ++ [n]).map Incident.root =
      ((done ++ [g]).filter r.opens).map Group.root := by
    simp [h.roots, List.filter_append, hopens, hn, newIncident]
  -- a group that joins nothing changes no incident that was there
  have hsame : r.afterAssign (done ++ [g]) = r.afterAssign done :=
    funext fun j => afterAssign_append (by simp [hjoins])
  have hrows : a.store.incidents ++ [n] =
      r.store.incidents.map (r.afterAssign (done ++ [g])) ++ (news ++ [n]) := by
    rw [h.store, hsame, List.append_assoc]
  have hpeak : r.Clear → OneOpenPerRoot
      (r.store.incidents.map (r.afterAssign (done ++ [g])) ++ (news ++ [n])) := fun hclear =>
    hclear.oneOpen_afterAssign hnumbered hone (mem_groups_of_mem_append hgroups)
      (distinct_append hdistinct hgroups) hroots
  have hinsert : Ends (a.store.insertIncident n) (fun e => e = oneOpenPerRoot ∧ ¬ r.Clear)
      fun s' => s' = { a.store with incidents := a.store.incidents ++ [n] } ∧
        OneOpenPerRoot (a.store.incidents ++ [n]) := by
    rw [Store.insertIncident, if_neg hunused]
    refine (ends_putIncidents a.store _).mono (fun e he => ⟨he.1, fun hclear => he.2 ?_⟩)
      fun _ h => h
    exact hrows ▸ hpeak hclear
  rw [assignGroup, show joined r.ctx r.facts.statuses r.before g = none from hjoins, h.mine, hi]
  refine hinsert.bind ?_
  rintro s' ⟨rfl, hone'⟩
  rw [ends_pure]
  refine ⟨news ++ [n], ?_⟩
  exact {
    store := by rw [← hrows, h.store]
    mine := by simp [← hn]
    opened := by simp [h.opened, ← hn]
    appended := by simp [h.appended, List.filterMap_append, hjoins]
    roots := hroots
    isNew := fun m hm => (List.mem_append.mp hm).elim (h.isNew m) fun hm =>
      List.mem_singleton.mp hm ▸ hnew
    numbers := hnumbers
    oneOpen := hone'
    keys := by simp [h.keys]
    found := by
      refine found_cons (i := n) h (distinct_append hdistinct hgroups)
        (fun _ _ h => place_append h) ?_ rfl
      rw [place, hjoins, Option.none_or, ← List.append_assoc, List.find?_append, hi]
      simp [hn, newIncident] }

end Assign

/-- **The groups assigned**: each group has found its incident or opened one. -/
theorem assign_ends (hnumbered : Numbered r.store.incidents)
    (hone : OneOpenPerRoot r.store.incidents)
    (hdistinct : (r.facts.groups.map Group.root).Nodup) :
    Ends (r.facts.groups.foldlM (assignGroup r.ctx r.runId r.now r.facts.statuses r.before)
        { store := r.store, mine := r.mine })
      (fun e => e = oneOpenPerRoot ∧ ¬ r.Clear)
      fun a => ∃ news, AssignedBy r r.facts.groups news a := by
  -- by the groups done so far: the loop is an invariant over a prefix
  refine Ends.foldlM (I := fun done a => ∃ news, AssignedBy r done news a) ?_ ?_
  · refine ⟨[], ?_⟩
    have hsame : r.afterAssign [] = id := funext fun j => by simp [afterAssign, joinedIn]
    exact {
      store := by simp [hsame]
      mine := by simp
      opened := rfl
      appended := rfl
      roots := rfl
      isNew := by simp
      numbers := List.nodup_nil
      oneOpen := hone
      keys := rfl
      found := by simp }
  · rintro done g rest a hgroups ⟨news, h⟩
    cases hjoins : r.joins g with
    | some i =>
      exact (assign_joined hnumbered hone hdistinct hgroups h hjoins).mono (fun _ h => h)
        fun _ h => ⟨news, h⟩
    | none =>
      cases hi : (r.mine ++ news).find? fun i => i.root = g.root with
      | some i =>
        exact (assign_reused hdistinct hgroups h hjoins hi).mono (fun _ h => h)
          fun _ h => ⟨news, h⟩
      | none => exact assign_opened hnumbered hone hdistinct hgroups h hjoins hi

/-! ## Which incidents are assigned -/

theorem mem_table_of_place {news : List Incident} {g : Group} {i : Incident}
    (hplace : r.place news g = some i) :
    i ∈ r.store.incidents ++ news := by
  rw [place, Option.or_eq_some_iff] at hplace
  rcases hplace with hi | ⟨-, hi⟩
  · exact List.mem_append_left _ (mem_before.mp (mem_before_of_joins hi)).1
  · rcases List.mem_append.mp (List.mem_of_find?_eq_some hi) with hi | hi
    · exact List.mem_append_left _ (mem_mine.mp hi).1
    · exact List.mem_append_right _ hi

section Taken

variable {news : List Incident} {a : Assigned} (hnumbered : Numbered r.store.incidents)
  (h : AssignedBy r r.facts.groups news a)

include hnumbered h

/-- The store's rows and the new ones all have numbers of their own. -/
theorem AssignedBy.numbered : Numbered (r.store.incidents ++ news) := by
  have := numbered_map_append (f := id) hnumbered (fun _ => rfl) h.isNew h.numbers
  rwa [List.map_id] at this

omit hnumbered in
theorem AssignedBy.mem_taken (hdistinct : (r.facts.groups.map Group.root).Nodup) {seq : ℕ} :
    seq ∈ a.assignment.map Prod.snd ↔
      ∃ g ∈ r.facts.groups, ∃ i, r.place news g = some i ∧ i.seq = seq := by
  have hkeys : (a.assignment.map Prod.fst).Nodup := h.keys ▸ List.nodup_reverse.mpr hdistinct
  constructor
  · intro hmem
    obtain ⟨⟨root, _⟩, hentry, rfl⟩ := List.mem_map.mp hmem
    have hroot : root ∈ a.assignment.map Prod.fst := List.mem_map_of_mem hentry
    rw [h.keys, List.mem_reverse] at hroot
    obtain ⟨g, hg, rfl⟩ := List.mem_map.mp hroot
    obtain ⟨i, hi, hlook⟩ := h.found g hg
    rw [lookup_eq_some_of_mem hkeys hentry] at hlook
    exact ⟨g, hg, i, hi, (Option.some.inj hlook).symm⟩
  · rintro ⟨g, hg, i, hi, rfl⟩
    obtain ⟨i', hi', hlook⟩ := h.found g hg
    obtain rfl := Option.some.inj (hi.symm.trans hi')
    exact List.mem_map.mpr ⟨_, mem_of_lookup_eq_some hlook, rfl⟩

variable (hdistinct : (r.facts.groups.map Group.root).Nodup)

include hdistinct

/-- An incident is assigned when some group finds it. -/
theorem AssignedBy.taken_iff {i : Incident} (hi : i ∈ r.store.incidents ++ news) :
    i.seq ∈ a.assignment.map Prod.snd ↔ ∃ g ∈ r.facts.groups, r.place news g = some i := by
  rw [h.mem_taken hdistinct]
  refine exists_congr fun g => and_congr_right fun _ => ⟨?_, fun hi => ⟨i, hi, rfl⟩⟩
  rintro ⟨j, hj, hseq⟩
  obtain rfl := (h.numbered hnumbered).eq_of_seq (mem_table_of_place hj) hi hseq
  exact hj

theorem AssignedBy.taken_before {i : Incident} (hi : i ∈ r.before) :
    i.seq ∈ a.assignment.map Prod.snd ↔ r.isJoined i = true := by
  rw [h.taken_iff hnumbered hdistinct (List.mem_append_left _ (mem_before.mp hi).1), isJoined_eq_true]
  refine exists_congr fun g => and_congr_right fun _ => ?_
  rw [place, Option.or_eq_some_iff, or_iff_left]
  rintro ⟨-, hfind⟩
  rcases List.mem_append.mp (List.mem_of_find?_eq_some hfind) with hmine | hnew
  · exact not_mem_mine_of_mem_before hi hmine
  · exact (h.isNew i hnew).unused (List.mem_map_of_mem (mem_before.mp hi).1)

theorem AssignedBy.taken_mine {i : Incident} (hi : i ∈ r.mine) :
    i.seq ∈ a.assignment.map Prod.snd ↔ r.isReused i = true := by
  rw [h.taken_iff hnumbered hdistinct (List.mem_append_left _ (mem_mine.mp hi).1), isReused_eq_true]
  refine exists_congr fun g => and_congr_right fun _ => ?_
  rw [place, Option.or_eq_some_iff, reuses_eq_some, or_iff_right fun hjoins =>
    not_mem_mine_of_mem_before (mem_before_of_joins hjoins) hi]
  refine and_congr_right fun _ => ?_
  rw [List.find?_append, Option.or_eq_some_iff, or_iff_left]
  exact fun hnew => (h.isNew i (List.mem_of_find?_eq_some hnew.2)).unused
    (List.mem_map_of_mem (mem_mine.mp hi).1)

theorem AssignedBy.taken_new {n : Incident} (hn : n ∈ news) :
    n.seq ∈ a.assignment.map Prod.snd := by
  have hroot : n.root ∈ (r.facts.groups.filter r.opens).map Group.root :=
    h.roots ▸ List.mem_map_of_mem hn
  obtain ⟨g, hg, hroot⟩ := List.mem_map.mp hroot
  obtain ⟨hg, hopens⟩ := List.mem_filter.mp hg
  obtain ⟨hjoins, hmine⟩ := opens_eq_true.mp hopens
  refine (h.taken_iff hnumbered hdistinct (List.mem_append_right _ hn)).mpr ⟨g, hg, ?_⟩
  rw [place, hjoins, Option.none_or, List.find?_append, hmine, Option.none_or]
  -- the new incidents are on different roots
  have hroots : (news.map Incident.root).Nodup := by
    rw [h.roots]
    exact hdistinct.sublist (List.filter_sublist.map _)
  cases hfind : news.find? fun i => i.root = g.root with
  | none => exact absurd hroot.symm (by simpa using List.find?_eq_none.mp hfind n hn)
  | some m =>
    have hm : m.root = n.root := by simpa [hroot] using List.find?_some hfind
    rw [List.inj_on_of_nodup_map hroots (List.mem_of_find?_eq_some hfind) hn hm]

end Taken

/-! ## Merging, linking, sharing -/

/-- What each of the run's own incidents would be merged into. -/
def into (r : Regrouping) (assignment : List (String × ℕ)) (i : Incident) : ℕ :=
  (assignment.lookup ((r.facts.rootOf.lookup i.root).getD i.root)).getD 0

/-- An incident that no group joins and that is not merged stays as it is. -/
private theorem afterMerge_of_mem_mine {k : Incident → ℕ} {done : List Incident} {i : Incident}
    (hi : i ∈ r.mine) : r.afterMerge k done i =
      if i ∈ done ∧ r.isReused i = false then { i with mergedInto := some (k i) } else i := by
  have hnot : ¬ (i.resolvedByRun = some r.runId ∧ r.joinedIn r.facts.groups i = true) := by
    rintro ⟨-, hjoined⟩
    obtain ⟨g, -, hg⟩ := isJoined_eq_true.mp hjoined
    exact not_mem_mine_of_mem_before (mem_before_of_joins hg) hi
  rw [afterMerge, afterAssign_eq_self hnot]
  simp [hi]

/-- An incident that is not merged leaves the table as it is. -/
private theorem map_afterMerge_append {k : Incident → ℕ} {done : List Incident} {i : Incident}
    (h : i ∈ r.mine → r.isReused i = true) :
    r.store.incidents.map (r.afterMerge k (done ++ [i])) =
      r.store.incidents.map (r.afterMerge k done) := by
  refine List.map_congr_left fun j _ => ?_
  by_cases hmine : j ∈ r.mine
  · rw [afterMerge_of_mem_mine hmine, afterMerge_of_mem_mine hmine]
    by_cases hji : j = i
    · subst hji
      simp [h hmine]
    · simp [hji]
  · simp [afterMerge, hmine]

section Merge

variable {news : List Incident} {a : Assigned} (hnumbered : Numbered r.store.incidents)
  (h : AssignedBy r r.facts.groups news a)
  (hdistinct : (r.facts.groups.map Group.root).Nodup)

include hnumbered h

/-- One incident is merged. -/
private theorem updateIncident_merge {k : Incident → ℕ} {done : List Incident} {i : Incident}
    (hmine : i ∈ r.mine) (hreused : r.isReused i = false) {s : Store}
    (hs : s.incidents = r.store.incidents.map (r.afterMerge k done) ++ news)
    (hone : OneOpenPerRoot s.incidents) :
    s.updateIncident i.seq (fun j => { j with mergedInto := some (k i) }) = .ok { s with
        incidents := r.store.incidents.map (r.afterMerge k (done ++ [i])) ++ news } ∧
      OneOpenPerRoot (r.store.incidents.map (r.afterMerge k (done ++ [i])) ++ news) := by
  have hrows : updateRows i.seq (fun j => { j with mergedInto := some (k i) }) s.incidents =
      r.store.incidents.map (r.afterMerge k (done ++ [i])) ++ news := by
    rw [hs]
    apply updateRows_map_append hnumbered (mem_mine.mp hmine).1 (fun _ => afterMerge_seq) h.isNew
    · have hto : r.afterMerge k (done ++ [i]) i = { i with mergedInto := some (k i) } :=
        (afterMerge_of_mem_mine hmine).trans (if_pos ⟨by simp, hreused⟩)
      rw [hto, afterMerge_of_mem_mine hmine]
      split <;> rfl
    · intro j _ hne
      simp [afterMerge, hne]
  -- A merged incident is not open: no root gets a second one.
  have hshrink : OneOpenPerRoot
      (updateRows i.seq (fun j => { j with mergedInto := some (k i) }) s.incidents) := by
    refine hone.map (fun j => by split <;> rfl) fun j _ hopen => ?_
    split at hopen
    · simp [Incident.isOpen] at hopen
    · exact hopen
  rw [← hrows]
  exact ⟨if_pos hshrink, hshrink⟩

include hdistinct

/-- **The merges**: the run's own incidents no group reuses are merged. -/
theorem merge_ends :
    Ends (a.mine.foldlM (mergeIncident r.facts.rootOf a.assignment) a.store)
      (fun e => (∃ key, e = .keyError key) ∧ ¬ r.Rooted)
      fun s => s = { r.store with
          incidents := r.store.incidents.map (r.afterMerge (r.into a.assignment) r.mine) ++ news } ∧
        OneOpenPerRoot s.incidents := by
  rw [h.mine]
  refine (Ends.foldlM (I := fun done s => s = { r.store with
      incidents := r.store.incidents.map (r.afterMerge (r.into a.assignment) done) ++ news } ∧
        OneOpenPerRoot s.incidents) ?_ ?_).mono (fun _ he => he) ?_
  · have hstart : r.afterMerge (r.into a.assignment) [] = r.afterAssign r.facts.groups :=
      funext fun i => if_neg (by simp)
    rw [hstart, ← h.store]
    exact ⟨rfl, h.oneOpen⟩
  · rintro done i rest s hl ⟨rfl, hone⟩
    have hi : i ∈ r.mine ++ news := hl ▸ by simp
    by_cases htaken : i.seq ∈ a.assignment.map Prod.snd
    · rw [mergeIncident, if_pos htaken, ends_pure, map_afterMerge_append fun hmine =>
        (h.taken_mine hnumbered hdistinct hmine).mp htaken]
      exact ⟨rfl, hone⟩
    -- no group has it: it is one an earlier invocation opened
    · have hmine : i ∈ r.mine := (List.mem_append.mp hi).resolve_right fun hn =>
        htaken (h.taken_new hnumbered hdistinct hn)
      have hreused : r.isReused i = false := Bool.eq_false_iff.mpr fun hreused =>
        htaken ((h.taken_mine hnumbered hdistinct hmine).mpr hreused)
      rw [mergeIncident, if_neg htaken]
      refine Ends.bind (M := fun k => k = r.into a.assignment i) ?_ ?_
      · rw [assigned, into]
        cases hlook : a.assignment.lookup ((r.facts.rootOf.lookup i.root).getD i.root) with
        | some k => rfl
        -- the error of a run that is not rooted
        | none =>
          refine ⟨⟨_, rfl⟩, fun hrooted => ?_⟩
          obtain ⟨g, hg, hroot⟩ := List.mem_map.mp (hrooted.2 i hmine hreused)
          obtain ⟨_, -, hfound⟩ := h.found g hg
          rw [hroot, hlook] at hfound
          cases hfound
      · rintro _ rfl
        obtain ⟨hupdate, hone'⟩ := updateIncident_merge hnumbered h hmine hreused rfl hone
        rw [hupdate, ends_ok]
        exact ⟨rfl, hone'⟩
  · rintro s ⟨rfl, hone⟩
    have hall : r.store.incidents.map (r.afterMerge (r.into a.assignment) (r.mine ++ news)) =
        r.store.incidents.map (r.afterMerge (r.into a.assignment) r.mine) := by
      refine List.map_congr_left fun i _ => ?_
      by_cases hi : i ∈ r.mine <;> simp [afterMerge, hi]
    rw [hall] at hone ⊢
    exact ⟨rfl, hone⟩

end Merge

/-- A failing check of the run with the incident of its root. -/
def attributed (r : Regrouping) (assignment : List (String × ℕ)) (row : EventRow) : EventRow :=
  if row.event.runId = r.runId then
    { row with incident := (incidentOf r.facts.rootOf assignment row.event).toOption }
  else row

@[simp] theorem event_attributed (assignment : List (String × ℕ)) (row : EventRow) :
    (r.attributed assignment row).event = row.event := by
  rw [attributed]
  split <;> rfl

/-- The links of the run, one for each incident with one of these checks. -/
def linksOf (r : Regrouping) (own : List ℕ) : List RunLink :=
  (sortedSet own).map fun seq => ⟨seq, r.runId, r.now, own.count seq⟩

section Link

variable {news : List Incident} {a : Assigned} (h : AssignedBy r r.facts.groups news a)

include h

/-- A root with a group has an incident. -/
theorem AssignedBy.exists_assigned {root : String} (hroot : root ∈ r.facts.groups.map Group.root) :
    ∃ seq, a.assignment.lookup root = some seq := by
  obtain ⟨g, hg, rfl⟩ := List.mem_map.mp hroot
  obtain ⟨i, -, hlook⟩ := h.found g hg
  exact ⟨_, hlook⟩

/-- **The attribution**: every failing check of the run gets an incident, and the run its links. -/
theorem attribute_ends (s : Store) :
    Ends (attributeChecks r.runId r.now r.facts a.assignment s)
      (fun e => (∃ key, e = .keyError key) ∧ ¬ r.Rooted)
      fun s' => ∃ own, r.facts.events.mapM (incidentOf r.facts.rootOf a.assignment) = .ok own ∧
        s' = { s with
          checkEvents := s.checkEvents.map (r.attributed a.assignment)
          runLinks := (s.runLinks.filter fun link => link.runId ≠ r.runId) ++ r.linksOf own } := by
  rw [attributeChecks]
  cases hown : r.facts.events.mapM (incidentOf r.facts.rootOf a.assignment) with
  | ok own => exact ⟨own, rfl, rfl⟩
  | error e =>
    have herror : ∀ event, Ends (incidentOf r.facts.rootOf a.assignment event)
        (fun e => ∃ key, e = .keyError key) fun _ => True := by
      intro event
      rw [incidentOf]
      split
      · rw [assigned]
        split
        · trivial
        · exact ⟨_, rfl⟩
      · exact ⟨_, rfl⟩
    refine ⟨(Ends.mapM herror r.facts.events).raised hown, fun hrooted => ?_⟩
    obtain ⟨own, hok⟩ := exists_mapM_eq_ok (f := incidentOf r.facts.rootOf a.assignment)
      (l := r.facts.events) fun event hevent => by
        obtain ⟨root, hroot, hlook⟩ := hrooted.1 event hevent
        obtain ⟨seq, hseq⟩ := h.exists_assigned hroot
        exact ⟨seq, by simp [incidentOf, assigned, hlook, hseq]⟩
    rw [hok] at hown
    cases hown

end Link

/-- The shared nodes of the run, under the incidents of these groups. -/
def IsShared (r : Regrouping) (assignment : List (String × ℕ)) (row : SharedNode) : Prop :=
  row.runId = r.runId ∧ ∃ g ∈ r.facts.groups, assignment.lookup g.root = some row.incident ∧
    row.node ∈ g.shared

private theorem foldl_insertShared (rows : List SharedNode) (s : Store) :
    ∃ nodes, rows.foldl Store.insertShared s = { s with sharedNodes := nodes } ∧
      ∀ row, row ∈ nodes ↔ row ∈ s.sharedNodes ∨ row ∈ rows := by
  induction rows generalizing s with
  | nil => exact ⟨s.sharedNodes, rfl, by simp⟩
  | cons row rest ih =>
    obtain ⟨nodes, hrun, hmem⟩ := ih (s.insertShared row)
    by_cases hrow : row ∈ s.sharedNodes
    · rw [Store.insertShared, if_pos hrow] at hrun hmem
      refine ⟨nodes, hrun ▸ by rw [List.foldl_cons, Store.insertShared, if_pos hrow], fun row' => ?_⟩
      rw [hmem, List.mem_cons]
      grind
    · rw [Store.insertShared, if_neg hrow] at hrun hmem
      refine ⟨nodes, by rw [List.foldl_cons, Store.insertShared, if_neg hrow, hrun], fun row' => ?_⟩
      rw [hmem]
      simp only [List.mem_append, List.mem_cons, List.not_mem_nil, false_or, or_assoc]

/-- **The shared nodes**: each group's, under its incident. -/
theorem share_ends {news : List Incident} {a : Assigned} (h : AssignedBy r r.facts.groups news a)
    (raises : DeskError → Prop) (s : Store) :
    Ends (share r.runId r.facts.groups a.assignment s) raises fun s' =>
      ∃ nodes, s' = { s with sharedNodes := nodes } ∧ ∀ row, row ∈ nodes ↔
        (row ∈ s.sharedNodes ∧ row.runId ≠ r.runId) ∨ r.IsShared a.assignment row := by
  have hgroup : ∀ g ∈ r.facts.groups, ∃ seq, a.assignment.lookup g.root = some seq ∧
      (do
        let seq ← assigned a.assignment g.root
        return g.shared.map fun node => (⟨seq, r.runId, node⟩ : SharedNode) :
          Except DeskError (List SharedNode)) =
        .ok (g.shared.map fun node => ⟨seq, r.runId, node⟩) := by
    intro g hg
    obtain ⟨i, -, hlook⟩ := h.found g hg
    exact ⟨i.seq, hlook, by rw [assigned, hlook]; rfl⟩
  obtain ⟨rows, hrows⟩ := exists_mapM_eq_ok fun g hg => ⟨_, (hgroup g hg).choose_spec.2⟩
  obtain ⟨nodes, hrun, hmem⟩ := foldl_insertShared rows.flatten
    { s with sharedNodes := s.sharedNodes.filter fun row => row.runId ≠ r.runId }
  rw [share, hrows]
  refine ⟨nodes, hrun, fun row => ?_⟩
  rw [hmem, List.mem_filter, decide_eq_true_eq]
  refine or_congr_right ?_
  rw [List.mem_flatten]
  constructor
  · rintro ⟨l, hl, hrow⟩
    obtain ⟨g, hg, hgl⟩ := exists_preimage_of_mem hrows hl
    obtain ⟨seq, hlook, hok⟩ := hgroup g hg
    obtain rfl := Except.ok.inj (hok.symm.trans hgl)
    obtain ⟨node, hnode, rfl⟩ := List.mem_map.mp hrow
    exact ⟨rfl, g, hg, hlook, hnode⟩
  · rintro ⟨hrun, g, hg, hlook, hnode⟩
    obtain ⟨seq, hlook', hok⟩ := hgroup g hg
    obtain ⟨l, hl, hgl⟩ := exists_image_of_mem hrows hg
    obtain rfl := Except.ok.inj (hok.symm.trans hgl)
    refine ⟨_, hl, List.mem_map.mpr ⟨row.node, hnode, ?_⟩⟩
    obtain rfl := Option.some.inj (hlook.symm.trans hlook')
    rw [← hrun]

/-! ## Resolving and reopening -/

/-- The earlier incidents the run resolves. -/
def resolves (r : Regrouping) (i : Incident) : Bool :=
  !r.isJoined i && r.isHealthy i && i.resolvedByRun ≠ some r.runId

section Resolve

variable {k : Incident → ℕ} {done : List Incident}

/-- An incident is open, once some of the earlier ones were looked at, if it was and is not
merged, or if the run had resolved it and fails on it. -/
theorem isOpen_afterResolution {i : Incident} (hdone : ∀ i ∈ done, i ∈ r.before)
    (h : (r.afterResolution k done i).isOpen = true) :
    i.isOpen = true ∨ (i ∈ r.before ∧ r.reopens i = true) := by
  rw [afterResolution] at h
  split at h
  · rename_i hlooked
    rw [afterResolve] at h
    split at h
    · split at h
      · exact Or.inl h
      · simp [Incident.isOpen] at h
    · split at h
      · refine Or.inr ⟨hdone i hlooked.1, ?_⟩
        simp_all [reopens]
      · exact Or.inl h
  · rw [afterMerge] at h
    split at h
    · simp [Incident.isOpen] at h
    · rcases isOpen_afterAssign h with hopen | ⟨hres, hi⟩
      · exact Or.inl hopen
      · obtain ⟨g, -, hg⟩ := isJoined_eq_true.mp hi
        refine Or.inr ⟨mem_before_of_joins hg, ?_⟩
        rw [reopens, hres, show r.isJoined i = true from hi]
        simp

theorem not_isOpen_afterResolution {j : Incident} (hdone : ∀ i ∈ done, i ∈ r.before)
    (hmine : j ∈ r.mine) (hreused : r.isReused j = false) :
    (r.afterResolution k done j).isOpen = false := by
  have hnot : j ∉ done := fun hj => not_mem_mine_of_mem_before (hdone j hj) hmine
  simp [afterResolution, hnot, afterMerge, hmine, hreused, Incident.isOpen]

/-- The index holds however far the earlier incidents were looked at. -/
theorem Clear.oneOpen_afterResolution (hclear : r.Clear)
    (hnumbered : Numbered r.store.incidents) (hone : OneOpenPerRoot r.store.incidents)
    {news : List Incident} (hdone : ∀ i ∈ done, i ∈ r.before)
    (hdistinct : (r.facts.groups.map Group.root).Nodup)
    (hroots : news.map Incident.root = (r.facts.groups.filter r.opens).map Group.root) :
    OneOpenPerRoot (r.store.incidents.map (r.afterResolution k done) ++ news) :=
  hclear.oneOpen hnumbered hone (fun _ => afterResolution_root)
    (fun _ _ hopen => isOpen_afterResolution hdone hopen) (fun _ h => h)
    (fun _ _ _ _ hmine hreused => not_isOpen_afterResolution hdone hmine hreused)
    (fun _ h => h) hdistinct hroots

private theorem afterResolution_append {i j : Incident} (h : j ≠ i ∨ r.isJoined i = true) :
    r.afterResolution k (done ++ [i]) j = r.afterResolution k done j := by
  rcases h with hne | hjoined
  · simp [afterResolution, hne]
  · by_cases hji : j = i
    · subst hji
      simp [afterResolution, hjoined]
    · simp [afterResolution, hji]

private theorem afterResolution_of_mem_before {i : Incident} (hi : i ∈ r.before)
    (hjoined : r.isJoined i = false) :
    r.afterResolution k done i = if i ∈ done then r.afterResolve i else i := by
  have hmine : i ∉ r.mine := not_mem_mine_of_mem_before hi
  have hself : r.afterAssign r.facts.groups i = i :=
    afterAssign_eq_self fun h => by
      rw [show r.joinedIn _ i = r.isJoined i from rfl, hjoined] at h
      cases h.2
  simp [afterResolution, hjoined, afterMerge, hmine, hself]

end Resolve

section Resolve

variable {news : List Incident} {a : Assigned} (hnumbered : Numbered r.store.incidents)
  (hone : OneOpenPerRoot r.store.incidents) (h : AssignedBy r r.facts.groups news a)
  (hdistinct : (r.facts.groups.map Group.root).Nodup)

include hnumbered hone h hdistinct

omit hnumbered hone h hdistinct in
/-- An incident that stays as it is leaves the table as it is. -/
private theorem map_afterResolution_append {k : Incident → ℕ} {done : List Incident} {i : Incident}
    (hsame : r.afterResolution k (done ++ [i]) i = r.afterResolution k done i) :
    r.store.incidents.map (r.afterResolution k (done ++ [i])) =
      r.store.incidents.map (r.afterResolution k done) := by
  refine List.map_congr_left fun j _ => ?_
  by_cases hji : j = i
  · exact hji ▸ hsame
  · exact afterResolution_append (Or.inl hji)

/-- An incident is resolved or reopened, unless its root is open already. -/
private theorem setResolution_ends {k : Incident → ℕ} {s : Store} {done rest : List Incident}
    {i : Incident} (resolution : Option Resolution) (hl : r.before = done ++ i :: rest)
    (hs : s.incidents = r.store.incidents.map (r.afterResolution k done) ++ news)
    (hjoined : r.isJoined i = false)
    (hto : r.afterResolve i = { i with resolved := resolution }) :
    Ends (s.setResolution i.seq resolution) (fun e => e = oneOpenPerRoot ∧ ¬ r.Clear)
      fun s' => s' = { s with
          incidents := r.store.incidents.map (r.afterResolution k (done ++ [i])) ++ news } ∧
        OneOpenPerRoot s'.incidents := by
  have hi : i ∈ r.before := hl ▸ by simp
  have hafter : r.afterResolution k (done ++ [i]) i = { i with resolved := resolution } := by
    rw [afterResolution_of_mem_before hi hjoined, if_pos (by simp), hto]
  have hrows : updateRows i.seq (fun i => { i with resolved := resolution }) s.incidents =
      r.store.incidents.map (r.afterResolution k (done ++ [i])) ++ news := by
    rw [hs]
    apply updateRows_map_append hnumbered (mem_before.mp hi).1 (fun _ => afterResolution_seq)
      h.isNew
    · rw [hafter, afterResolution_of_mem_before hi hjoined, hto]
      split <;> rfl
    · exact fun j _ hne => (afterResolution_append (Or.inl hne)).symm
  show Ends (s.putIncidents (updateRows _ _ _)) _ _
  rw [hrows]
  refine (ends_putIncidents s _).mono (fun e he => ⟨he.1, fun hclear => he.2 ?_⟩) ?_
  · refine hclear.oneOpen_afterResolution hnumbered hone (fun j hj => ?_) hdistinct h.roots
    rw [hl, List.append_cons]
    exact List.mem_append_left _ hj
  · rintro s' ⟨rfl, hopen'⟩
    exact ⟨rfl, hopen'⟩

/-- One earlier incident is left alone, resolved or reopened. -/
private theorem resolve_step {k : Incident → ℕ} {s : Store} {done rest : List Incident}
    {i : Incident} {resolved : List ℕ} (hl : r.before = done ++ i :: rest)
    (hs : s.incidents = r.store.incidents.map (r.afterResolution k done) ++ news)
    (hopen : OneOpenPerRoot s.incidents)
    (hresolved : resolved = (done.filter r.resolves).map Incident.seq) :
    Ends (resolveIncident r.ctx r.runId r.now r.facts.statuses (a.assignment.map Prod.snd)
        (s, resolved) i)
      (fun e => e = oneOpenPerRoot ∧ ¬ r.Clear)
      fun p => p.1 = { s with
          incidents := r.store.incidents.map (r.afterResolution k (done ++ [i])) ++ news } ∧
        OneOpenPerRoot p.1.incidents ∧
        p.2 = ((done ++ [i]).filter r.resolves).map Incident.seq := by
  have hi : i ∈ r.before := hl ▸ by simp
  have hstay : r.resolves i = false → r.afterResolution k (done ++ [i]) i =
      r.afterResolution k done i → (s, resolved).1 = { s with
          incidents := r.store.incidents.map (r.afterResolution k (done ++ [i])) ++ news } ∧
        OneOpenPerRoot (s, resolved).1.incidents ∧
        (s, resolved).2 = ((done ++ [i]).filter r.resolves).map Incident.seq := by
    intro hres hsame
    refine ⟨by rw [map_afterResolution_append hsame, ← hs], hopen, ?_⟩
    simp [hresolved, List.filter_append, hres]
  rw [resolveIncident]
  by_cases htaken : i.seq ∈ a.assignment.map Prod.snd
  · have hjoined := (h.taken_before hnumbered hdistinct hi).mp htaken
    rw [if_pos htaken, ends_pure]
    exact hstay (by simp [resolves, hjoined]) (afterResolution_append (Or.inr hjoined))
  · have hjoined : r.isJoined i = false := Bool.eq_false_iff.mpr fun hjoined =>
      htaken ((h.taken_before hnumbered hdistinct hi).mpr hjoined)
    have hset := fun resolution =>
      setResolution_ends hnumbered hone h hdistinct resolution hl hs hjoined
    have hself : r.afterResolve i = i →
        r.afterResolution k (done ++ [i]) i = r.afterResolution k done i := by
      intro hself
      rw [afterResolution_of_mem_before hi hjoined, afterResolution_of_mem_before hi hjoined, hself,
        ite_self, ite_self]
    rw [if_neg htaken]
    show Ends (if r.isHealthy i = true then _ else _) _ _
    by_cases hhealthy : r.isHealthy i = true
    · rw [if_pos hhealthy]
      by_cases hres : i.resolvedByRun = some r.runId
      · rw [if_pos hres, ends_pure]
        exact hstay (by simp [resolves, hres])
          (hself (by rw [afterResolve, if_pos hhealthy, if_pos hres]))
      · rw [if_neg hres]
        refine (hset (some ⟨r.now, r.runId⟩)
          (by rw [afterResolve, if_pos hhealthy, if_neg hres])).bind ?_
        rintro s' ⟨rfl, hopen'⟩
        refine ⟨rfl, hopen', ?_⟩
        have hresolves : r.resolves i = true := by simp [resolves, hjoined, hhealthy, hres]
        simp [hresolved, List.filter_append, hresolves]
    · rw [if_neg hhealthy]
      have hresolves : r.resolves i = false := by simp [resolves, hhealthy]
      by_cases hres : i.resolvedByRun = some r.runId
      · -- Resolved by this run before, but not healthy: it is reopened.
        rw [if_pos hres]
        refine (hset none (by rw [afterResolve, if_neg hhealthy, if_pos hres])).bind ?_
        rintro s' ⟨rfl, hopen'⟩
        refine ⟨rfl, hopen', ?_⟩
        simp [hresolved, List.filter_append, hresolves]
      · rw [if_neg hres, ends_pure]
        exact hstay hresolves (hself (by rw [afterResolve, if_neg hhealthy, if_neg hres]))

/-- **The resolutions**: every earlier incident no group joins was looked at. -/
theorem resolve_ends {k : Incident → ℕ} {s : Store}
    (hs : s.incidents = r.store.incidents.map (r.afterMerge k r.mine) ++ news)
    (hopen : OneOpenPerRoot s.incidents) :
    Ends (r.before.foldlM
        (resolveIncident r.ctx r.runId r.now r.facts.statuses (a.assignment.map Prod.snd)) (s, []))
      (fun e => e = oneOpenPerRoot ∧ ¬ r.Clear)
      fun p => p.1 = { s with incidents := r.store.incidents.map (r.fate k) ++ news } ∧
        OneOpenPerRoot p.1.incidents ∧ p.2 = (r.before.filter r.resolves).map Incident.seq := by
  refine Ends.foldlM (I := fun done (p : Store × List ℕ) => p.1 = { s with
      incidents := r.store.incidents.map (r.afterResolution k done) ++ news } ∧
    OneOpenPerRoot p.1.incidents ∧ p.2 = (done.filter r.resolves).map Incident.seq) ?_ ?_
  · have hstart : r.afterResolution k [] = r.afterMerge k r.mine := funext fun i => if_neg (by simp)
    rw [hstart, ← hs]
    exact ⟨rfl, hopen, rfl⟩
  · rintro done i rest ⟨s', resolved⟩ hl ⟨rfl, hopen', hresolved⟩
    exact (resolve_step hnumbered hone h hdistinct hl rfl hopen' hresolved).mono (fun _ h => h)
      fun _ h => h

end Resolve

/-! ## The whole regrouping -/

/-- An open incident was not resolved by any run. -/
private theorem resolvedByRun_of_isOpen {i : Incident} (h : i.isOpen = true) :
    i.resolvedByRun = none := by
  simp only [Incident.isOpen, Bool.and_eq_true, Option.isNone_iff_eq_none] at h
  rw [Incident.resolvedByRun, h.1]
  rfl

private theorem isOpen_of_reopened {i : Incident} (hi : i ∈ r.before) :
    ({ i with resolved := none } : Incident).isOpen = true := by
  simp [Incident.isOpen, (mem_before.mp hi).2.1]

/-- What the regrouping reopens is open in the end. -/
private theorem isOpen_fate_of_reopens {k : Incident → ℕ} {i : Incident} (hi : i ∈ r.before)
    (h : r.reopens i = true) : (r.fate k i).isOpen = true := by
  simp only [reopens, Bool.and_eq_true, decide_eq_true_eq, Bool.or_eq_true, Bool.not_eq_true'] at h
  obtain ⟨hres, h⟩ := h
  have hmine : i ∉ r.mine := not_mem_mine_of_mem_before hi
  by_cases hjoined : r.isJoined i = true
  · have hfate : r.fate k i = { i with resolved := none } := by
      rw [fate, afterResolution, if_neg (by simp [hjoined]), afterMerge, if_neg (by simp [hmine]),
        afterAssign_eq_reopened hres hjoined]
    rw [hfate]
    exact isOpen_of_reopened hi
  · have hhealthy := h.resolve_left hjoined
    have hfate : r.fate k i = { i with resolved := none } := by
      rw [fate, afterResolution, if_pos ⟨hi, by simpa using hjoined⟩, afterResolve,
        if_neg (by simp [hhealthy]), if_pos hres]
    rw [hfate]
    exact isOpen_of_reopened hi

/-- An open incident stays open, unless it is merged, or healthy and resolved. -/
private theorem isOpen_fate {k : Incident → ℕ} {j : Incident} (hopen : j.isOpen = true)
    (hmerged : ¬ (j ∈ r.mine ∧ r.isReused j = false)) (hhealthy : r.isHealthy j = false) :
    (r.fate k j).isOpen = true := by
  have hres := resolvedByRun_of_isOpen hopen
  have hfate : r.fate k j = j := by
    rw [fate, afterResolution]
    split
    · rw [afterResolve, if_neg (by simp [hhealthy]), if_neg (by simp [hres])]
    · rw [afterMerge, if_neg fun h => hmerged h.2, afterAssign_eq_self (by simp [hres])]
  rw [hfate]
  exact hopen

/-- If the index held after the assignment and in the end, nothing stood in the way. -/
theorem clear_of_oneOpen {k : Incident → ℕ} {news : List Incident}
    (hnumbered : Numbered r.store.incidents) (hnew : ∀ n ∈ news, r.IsNew n)
    (hnumbers : (news.map Incident.seq).Nodup)
    (hroots : news.map Incident.root = (r.facts.groups.filter r.opens).map Group.root)
    (hassigned : OneOpenPerRoot (r.store.incidents.map (r.afterAssign r.facts.groups) ++ news))
    (hend : OneOpenPerRoot (r.store.incidents.map (r.fate k) ++ news)) : r.Clear := by
  have hone : ∀ {f : Incident → Incident}, (∀ i, (f i).seq = i.seq) → (∀ i, (f i).root = i.root) →
      OneOpenPerRoot (r.store.incidents.map f ++ news) →
      ∀ i ∈ r.store.incidents, ∀ j ∈ r.store.incidents, (f i).isOpen = true →
        (f j).isOpen = true → j.root = i.root → j = i := by
    intro f hseq hroot hone i hi j hj hio hjo heq
    have hfij := (oneOpenPerRoot_iff (numbered_map_append hnumbered hseq hnew hnumbers)).mp hone
      (f j) (List.mem_append_left _ (List.mem_map_of_mem hj)) (f i)
      (List.mem_append_left _ (List.mem_map_of_mem hi)) hjo hio (by rw [hroot, hroot, heq])
    exact hnumbered.eq_of_seq hj hi (by rw [← hseq j, ← hseq i, hfij])
  have hstays : ∀ {j : Incident}, j.isOpen = true →
      (r.afterAssign r.facts.groups j).isOpen = true := by
    intro j hjo
    rwa [afterAssign_eq_self (by simp [resolvedByRun_of_isOpen hjo])]
  refine ⟨fun g hg hopens j hj hjo heq => ?_, fun i hi hre j hj heq hne => ⟨fun hjo => ?_, ?_⟩⟩
  · have hroot : g.root ∈ news.map Incident.root := hroots ▸
      List.mem_map_of_mem (List.mem_filter.mpr ⟨hg, hopens⟩)
    obtain ⟨n, hn, hnroot⟩ := List.mem_map.mp hroot
    have hjn := (oneOpenPerRoot_iff (numbered_map_append hnumbered (fun _ => afterAssign_seq)
      hnew hnumbers)).mp hassigned _ (List.mem_append_left _ (List.mem_map_of_mem hj)) n
      (List.mem_append_right _ hn) (hstays hjo)
      (by simp [Incident.isOpen, (hnew n hn).resolved, (hnew n hn).mergedInto])
      (by rw [afterAssign_root, heq, hnroot])
    refine (hnew n hn).unused (hjn ▸ ?_)
    rw [afterAssign_seq]
    exact List.mem_map_of_mem hj
  · have hres : i.resolvedByRun = some r.runId := by
      simp only [reopens, Bool.and_eq_true, decide_eq_true_eq] at hre
      exact hre.1
    have hmem := (mem_before.mp hi).1
    by_cases hjoined : r.isJoined i = true
    · -- both were open once the groups were assigned
      refine absurd (hone (fun _ => afterAssign_seq) (fun _ => afterAssign_root) hassigned i hmem j
        hj ?_ (hstays hjo) heq) hne
      rw [afterAssign_eq_reopened hres hjoined]
      exact isOpen_of_reopened hi
    · -- both are open in the end, unless the other one is merged
      have hhealthy : r.isHealthy i = false := by
        simp only [reopens, Bool.and_eq_true, Bool.or_eq_true, Bool.not_eq_true'] at hre
        exact hre.2.resolve_left hjoined
      by_contra hnot
      refine hne (hone (fun _ => afterResolution_seq) (fun _ => afterResolution_root) hend i hmem j
        hj (isOpen_fate_of_reopens hi hre) (isOpen_fate hjo ?_ ?_) heq)
      · exact fun h => hnot ⟨h.1, h.2, by simpa using hjoined⟩
      · rwa [isHealthy, heq]
  · rintro ⟨hj', hre'⟩
    exact hne (hone (fun _ => afterResolution_seq) (fun _ => afterResolution_root) hend i
      (mem_before.mp hi).1 j hj (isOpen_fate_of_reopens hi hre) (isOpen_fate_of_reopens hj' hre') heq)

/-- What settling a regrouping leaves in the store, and reports. -/
structure Settled (r : Regrouping) (news : List Incident) (assignment : List (String × ℕ))
    (s' : Store) (out : Regrouped) : Prop where
  /-- Each incident of the store met its fate, and the new ones were added. -/
  incidents : s'.incidents = r.store.incidents.map (r.fate (r.into assignment)) ++ news
  roots : news.map Incident.root = (r.facts.groups.filter r.opens).map Group.root
  isNew : ∀ n ∈ news, r.IsNew n
  numbers : (news.map Incident.seq).Nodup
  oneOpen : OneOpenPerRoot s'.incidents
  /-- Each group's incident is in the dictionary, under its root. -/
  found : ∀ g ∈ r.facts.groups, ∃ i, r.place news g = some i ∧
    assignment.lookup g.root = some i.seq
  keys : assignment.map Prod.fst = (r.facts.groups.map Group.root).reverse
  /-- The run's failing checks were attributed, and its links and shared nodes rewritten. -/
  checkEvents : s'.checkEvents = r.store.checkEvents.map (r.attributed assignment)
  runLinks : ∃ own, r.facts.events.mapM (incidentOf r.facts.rootOf assignment) = .ok own ∧
    s'.runLinks = (r.store.runLinks.filter fun link => link.runId ≠ r.runId) ++ r.linksOf own
  sharedNodes : ∀ row, row ∈ s'.sharedNodes ↔
    (row ∈ r.store.sharedNodes ∧ row.runId ≠ r.runId) ∨ r.IsShared assignment row
  /-- The other tables are as they were. -/
  invocations : s'.invocations = r.store.invocations
  results : s'.results = r.store.results
  escalations : s'.escalations = r.store.escalations
  notifications : s'.notifications = r.store.notifications
  reported : out = ⟨news.map Incident.seq, (r.facts.groups.filterMap r.joins).map Incident.seq,
    (r.before.filter r.resolves).map Incident.seq, r.facts.events.length⟩

/-- **What a regrouping does**: it settles the store as planned, unless an incident stands in
the way or a failing check has no root. It never gets past an incident in its way. -/
theorem settle_ends (hnumbered : Numbered r.store.incidents)
    (hone : OneOpenPerRoot r.store.incidents)
    (hdistinct : (r.facts.groups.map Group.root).Nodup) :
    Ends (settle r.ctx r.runId r.now r.facts r.store)
      (fun e => e = oneOpenPerRoot ∧ ¬ r.Clear ∨ (∃ key, e = .keyError key) ∧ ¬ r.Rooted)
      fun p => r.Clear ∧ ∃ news assignment, r.Settled news assignment p.1 p.2 := by
  refine ((assign_ends hnumbered hone hdistinct).mono (fun _ he => Or.inl he) fun _ h => h).bind ?_
  rintro a ⟨news, h⟩
  refine ((merge_ends hnumbered h hdistinct).mono (fun _ he => Or.inr he) fun _ h => h).bind ?_
  rintro s ⟨rfl, hopen⟩
  refine ((attribute_ends h _).mono (fun _ he => Or.inr he) fun _ h => h).bind ?_
  rintro s ⟨own, hown, rfl⟩
  refine (share_ends h _ _).bind ?_
  rintro s ⟨nodes, hs, hnodes⟩
  have hrows : s.incidents =
      r.store.incidents.map (r.afterMerge (r.into a.assignment) r.mine) ++ news := by rw [hs]
  have hresolve := resolve_ends hnumbered hone h hdistinct hrows (hrows ▸ hopen)
  refine (hresolve.mono (fun _ he => Or.inl he) fun _ h => h).bind ?_
  rintro ⟨s', resolved⟩ ⟨rfl, hopen', rfl⟩
  subst hs
  have hclear : r.Clear := clear_of_oneOpen hnumbered h.isNew h.numbers h.roots
    (by simpa [h.store] using h.oneOpen) hopen'
  rw [ends_pure]
  exact ⟨hclear, news, a.assignment, {
    incidents := rfl
    roots := h.roots
    isNew := h.isNew
    numbers := h.numbers
    oneOpen := hopen'
    found := h.found
    keys := h.keys
    checkEvents := rfl
    runLinks := ⟨own, hown, rfl⟩
    sharedNodes := hnodes
    invocations := rfl
    results := rfl
    escalations := rfl
    notifications := rfl
    reported := by rw [h.opened, h.appended] }⟩

end Regrouping

end PlatformOps.Incidents
