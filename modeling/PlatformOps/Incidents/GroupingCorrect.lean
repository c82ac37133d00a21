import PlatformOps.Incidents.Grouping

/-!
# Root-Cause Grouping Is Correct

`groupFailures_eq_some` unfolds the grouping once: a memo of roots, and one group
per root in it. From it and the meaning of the memo (`rootsByNode_spec`) follows
what the groups of an acyclic lineage graph are, `Groups.Correct`.
-/

namespace PlatformOps.Incidents

open Metadata Listing

variable {graph : FinDigraph String}

/-! ## One group per root -/

/-- The group of one root, from the memo of roots and the sorted events. -/
def groupAt (graph : FinDigraph String) (rootOf : List (String × String))
    (events : List CheckEvent) (skipped : List String) (root : String) : Group :=
  let own := (sortEvents events).filter fun e => rootOf.lookup e.subject = some root
  { root := root
    events := own
    failedNodes := sortedSet (own.map CheckEvent.subject)
    skipped := sortedSet (skipped.filter fun node => rootOfSkipped graph rootOf node = some root)
    shared := sortedSet
      (((sharedFailures graph rootOf).filter fun entry => root ∈ entry.2).map Prod.fst) }

/-- The roots of the events, in order. -/
def rootsFrom (rootOf : List (String × String)) (events : List CheckEvent) : List String :=
  sortedSet (events.filterMap fun e => rootOf.lookup e.subject)

theorem rootsByNode_congr {failed failed' : List String} (h : ∀ a, a ∈ failed ↔ a ∈ failed') :
    rootsByNode graph failed = rootsByNode graph failed' := by
  simp only [rootsByNode, sortedSet_congr h]

private theorem subjects_sortEvents (events : List CheckEvent) (n : String) :
    n ∈ (sortEvents events).map CheckEvent.subject ↔ n ∈ events.map CheckEvent.subject :=
  ((perm_sortEvents events).map _).mem_iff

private theorem filterMap_keyed (rootOf : List (String × String)) (l : List CheckEvent)
    (root : String) :
    ((l.filterMap fun e => (rootOf.lookup e.subject).map fun r => (r, e)).filter
      fun p => p.1 = root).map Prod.snd = l.filter fun e => rootOf.lookup e.subject = some root := by
  induction l with
  | nil => rfl
  | cons e rest ih =>
    cases hlook : rootOf.lookup e.subject with
    | none => simpa [hlook] using ih
    | some r =>
      by_cases hr : r = root
      · simpa [hlook, hr] using ih
      · simpa [hlook, hr] using ih

/-- **The grouping, unfolded**: it succeeds when every failed node has a root in the
memo, and gives one group per root. -/
theorem groupFailures_eq_some {events : List CheckEvent} {skipped : List String}
    {groups : List Group} :
    groupFailures graph events skipped = some groups ↔
      ∃ rootOf, rootsByNode graph (events.map CheckEvent.subject) = some rootOf ∧
        (∀ e ∈ events, (rootOf.lookup e.subject).isSome) ∧
        groups = (rootsFrom rootOf events).map (groupAt graph rootOf events skipped) := by
  simp only [groupFailures, Option.bind_eq_bind, Option.bind_eq_some_iff,
    rootsByNode_congr (subjects_sortEvents events), mapM_eq_some_iff, Option.isSome_map]
  refine exists_congr fun rootOf => and_congr_right fun _ => ?_
  -- each event with its root
  set keyed := (sortEvents events).filterMap fun e =>
    (rootOf.lookup e.subject).map fun r => (r, e) with hkeyed
  have hroots : sortedSet ((groupBy Prod.fst keyed).map Prod.fst) = rootsFrom rootOf events := by
    refine sortedSet_congr fun r => ?_
    simp only [mem_keys_groupBy, hkeyed, List.mem_filterMap, Option.map_eq_some_iff]
    constructor
    · rintro ⟨⟨r', e⟩, ⟨e', he', r'', hr'', heq⟩, rfl⟩
      obtain ⟨rfl, rfl⟩ := Prod.mk.inj heq
      exact ⟨e', (perm_sortEvents events).mem_iff.mp he', hr''⟩
    · rintro ⟨e, he, hr⟩
      exact ⟨(r, e), ⟨e, (perm_sortEvents events).mem_iff.mpr he, r, hr, rfl⟩, rfl⟩
  -- grouping keeps the order of the events
  have hown : ∀ root, (((groupBy Prod.fst keyed).lookup root).getD []).map Prod.snd =
      (sortEvents events).filter fun e => rootOf.lookup e.subject = some root := by
    intro root
    rw [getD_lookup_groupBy, hkeyed, filterMap_keyed]
  constructor
  · rintro ⟨_, ⟨hall, rfl⟩, hgroups⟩
    refine ⟨fun e he => hall e ((perm_sortEvents events).mem_iff.mpr he), ?_⟩
    rw [Option.some.injEq] at hgroups
    rw [← hgroups, hroots]
    refine List.map_congr_left fun root _ => ?_
    simp only [groupAt, hown]
  · rintro ⟨hall, rfl⟩
    refine ⟨keyed, ⟨fun e he => hall e ((perm_sortEvents events).mem_iff.mp he), rfl⟩, ?_⟩
    rw [Option.some.injEq, hroots]
    refine List.map_congr_left fun root _ => ?_
    simp only [groupAt, hown]

/-! ## What the groups are -/

/-- A node failed: some failing check is about it. -/
def Failed (events : List CheckEvent) (n : String) : Prop :=
  ∃ e ∈ events, e.subject = n

/-- A root: a failed node with no failed ancestor. -/
def IsRoot (graph : FinDigraph String) (events : List CheckEvent) (r : String) : Prop :=
  Failed events r ∧ ∀ a, Failed events a → ¬ graph.Above a r

/-- The step from a node to its nearest failed ancestor. -/
def NearestStep (graph : FinDigraph String) (events : List CheckEvent) (n p : String) : Prop :=
  NearestFailed graph (events.map CheckEvent.subject) n p

/-- What root-cause grouping promises of its groups. -/
structure Groups.Correct (graph : FinDigraph String) (events : List CheckEvent)
    (skipped : List String) (groups : List Group) : Prop where
  /-- Every event is in exactly one group. -/
  partition : (groups.flatMap Group.events).Perm events
  /-- There is one group per root. -/
  distinct : (groups.map Group.root).Nodup
  roots : ∀ r, r ∈ groups.map Group.root ↔ IsRoot graph events r
  /-- The nodes counted in a group are the subjects of its events. -/
  counted : ∀ G ∈ groups, ∀ n, n ∈ G.failedNodes ↔ ∃ e ∈ G.events, e.subject = n
  /-- They are the root or below it, reached by nearest failed ancestors. -/
  below : ∀ G ∈ groups, ∀ n ∈ G.failedNodes, (n = G.root ∨ graph.Above G.root n) ∧
    Relation.ReflTransGen (NearestStep graph events) n G.root
  /-- A skipped node that did not fail is under the root of its nearest failed ancestor. -/
  skipped : ∀ G ∈ groups, ∀ n, n ∈ G.skipped ↔ n ∈ skipped ∧ ¬ Failed events n ∧
    ∃ p, NearestStep graph events n p ∧ p ∈ G.failedNodes
  /-- Shared are the failed nodes that are no roots and have two roots above them. -/
  shared : ∀ G ∈ groups, ∀ n, n ∈ G.shared ↔ Failed events n ∧ ¬ IsRoot graph events n ∧
    graph.Above G.root n ∧ ∃ r, IsRoot graph events r ∧ r ≠ G.root ∧ graph.Above r n

theorem mem_subjects {events : List CheckEvent} {n : String} :
    n ∈ events.map CheckEvent.subject ↔ Failed events n := by
  simp [Failed]

theorem mem_events_groupAt {events : List CheckEvent} {skipped : List String}
    {rootOf : List (String × String)} {root : String} {e : CheckEvent} :
    e ∈ (groupAt graph rootOf events skipped root).events ↔
      e ∈ events ∧ rootOf.lookup e.subject = some root := by
  simp [groupAt, (perm_sortEvents events).mem_iff]

theorem mem_failedNodes_groupAt {events : List CheckEvent} {skipped : List String}
    {rootOf : List (String × String)} {root n : String} :
    n ∈ (groupAt graph rootOf events skipped root).failedNodes ↔
      ∃ e ∈ (groupAt graph rootOf events skipped root).events, e.subject = n := by
  simp [groupAt]

theorem map_root_groupAt (rootOf : List (String × String)) (events : List CheckEvent)
    (skipped roots : List String) :
    (roots.map (groupAt graph rootOf events skipped)).map Group.root = roots := by
  simp [groupAt, Function.comp_def]

/-- In an acyclic graph every failed node has a root. -/
theorem exists_root (hacyclic : graph.Acyclic) {failed : List String} {n : String}
    (hn : n ∈ failed) : ∃ r, RootOf graph failed n r := by
  classical
  induction hk : (failed.filter fun x => graph.Above x n).length using Nat.strong_induction_on
    generalizing n with
  | _ k ih =>
    cases hres : nearestFailedAncestor graph n failed with
    | none =>
      exact ⟨n, rootOf_self ((nearestFailedAncestor_eq_none hacyclic).mp hres)⟩
    | some p =>
      have hp := nearestFailedAncestor_eq_some.mp hres
      have hless := hacyclic.above_filter_lt hp.above hp.mem
      obtain ⟨r, hr⟩ := ih _ (hk ▸ hless) hp.mem rfl
      exact ⟨r, .up hp hr⟩

/-- What a right memo says about the failed nodes of the events. -/
structure MemoOf (graph : FinDigraph String) (events : List CheckEvent)
    (rootOf : List (String × String)) : Prop
    extends RootsOf graph (events.map CheckEvent.subject) rootOf where
  acyclic : graph.Acyclic

namespace MemoOf

variable {events : List CheckEvent} {skipped : List String} {rootOf : List (String × String)}

theorem isRoot_iff (h : MemoOf graph events rootOf) {r : String} :
    (∃ n, rootOf.lookup n = some r) ↔ IsRoot graph events r := by
  constructor
  · rintro ⟨n, hn⟩
    obtain ⟨hmem, hroot⟩ := (h.lookup n r).mp hn
    refine ⟨mem_subjects.mp (hroot.mem hmem), fun a ha => ?_⟩
    exact hroot.no_failed_above h.acyclic a (mem_subjects.mpr ha)
  · rintro ⟨hfail, htop⟩
    exact ⟨r, (h.lookup r r).mpr ⟨mem_subjects.mpr hfail,
      rootOf_self fun a ha => htop a (mem_subjects.mp ha)⟩⟩

theorem exists_lookup (h : MemoOf graph events rootOf) {n : String} (hn : Failed events n) :
    ∃ r, rootOf.lookup n = some r := by
  obtain ⟨r, hr⟩ := exists_root h.acyclic (mem_subjects.mpr hn)
  exact ⟨r, (h.lookup n r).mpr ⟨mem_subjects.mpr hn, hr⟩⟩

theorem mem_keys (h : MemoOf graph events rootOf) {n : String} :
    n ∈ rootOf.map Prod.fst ↔ Failed events n := by
  rw [mem_keys_of_lookup_isSome, Option.isSome_iff_exists]
  constructor
  · rintro ⟨r, hr⟩
    exact mem_subjects.mp ((h.lookup n r).mp hr).1
  · exact h.exists_lookup

theorem mem_values (h : MemoOf graph events rootOf) {r : String} :
    r ∈ sortedSet (rootOf.map Prod.snd) ↔ IsRoot graph events r := by
  rw [mem_sortedSet, ← h.isRoot_iff]
  simp only [List.mem_map, Prod.exists, exists_eq_right, h.mem, h.lookup]

theorem mem_rootsFrom (h : MemoOf graph events rootOf) {r : String} :
    r ∈ rootsFrom rootOf events ↔ IsRoot graph events r := by
  rw [rootsFrom, mem_sortedSet, List.mem_filterMap, ← h.isRoot_iff]
  constructor
  · rintro ⟨e, -, hr⟩
    exact ⟨e.subject, hr⟩
  · rintro ⟨n, hr⟩
    obtain ⟨e, he, rfl⟩ := mem_subjects.mp ((h.lookup n r).mp hr).1
    exact ⟨e, he, hr⟩

theorem mem_failedNodes (h : MemoOf graph events rootOf) {root n : String} :
    n ∈ (groupAt graph rootOf events skipped root).failedNodes ↔ rootOf.lookup n = some root := by
  rw [mem_failedNodes_groupAt]
  constructor
  · rintro ⟨e, he, rfl⟩
    exact (mem_events_groupAt.mp he).2
  · intro hn
    obtain ⟨e, he, rfl⟩ := mem_subjects.mp ((h.lookup n root).mp hn).1
    exact ⟨e, mem_events_groupAt.mpr ⟨he, hn⟩, rfl⟩

/-- A nearest failed ancestor is the same seen from the memo's keys and from the events. -/
theorem nearest_iff (h : MemoOf graph events rootOf) {n p : String} :
    NearestFailed graph (rootOf.map Prod.fst) n p ↔ NearestStep graph events n p := by
  have hset : ∀ a, a ∈ rootOf.map Prod.fst ↔ a ∈ events.map CheckEvent.subject := fun a =>
    h.mem_keys.trans mem_subjects.symm
  exact ⟨fun hp => hp.congr hset, fun hp => hp.congr fun a => (hset a).symm⟩

theorem rootOfSkipped_eq_some (h : MemoOf graph events rootOf) {n root : String} :
    rootOfSkipped graph rootOf n = some root ↔
      ¬ Failed events n ∧ ∃ p, NearestStep graph events n p ∧ rootOf.lookup p = some root := by
  rw [rootOfSkipped]
  by_cases hfail : Failed events n
  · rw [if_pos (Or.inl (h.mem_keys.mpr hfail))]
    simp [hfail]
  · by_cases hnode : n ∈ graph.nodes
    · rw [if_neg (by rw [h.mem_keys]; simp [hfail, hnode])]
      simp only [Option.bind_eq_some_iff, nearestFailedAncestor_eq_some, h.nearest_iff, hfail,
        not_false_eq_true, true_and]
    · rw [if_pos (Or.inr hnode)]
      simp only [reduceCtorEq, false_iff, not_and, not_exists]
      exact fun _ p hp _ => hnode hp.above.right_mem

/-- The roots of the memo above a node. -/
private theorem mem_roots_above (h : MemoOf graph events rootOf) {n r : String} :
    r ∈ (sortedSet (rootOf.map Prod.snd)).filter (· ∈ upstream graph n) ↔
      IsRoot graph events r ∧ graph.Above r n := by
  rw [List.mem_filter, h.mem_values, decide_eq_true_eq, upstream, h.acyclic.mem_ancestors]

/-- A listed shared failure: a failed node that is no root, with the roots above it. -/
theorem mem_sharedFailures (h : MemoOf graph events rootOf) {n root : String} :
    (∃ entry ∈ sharedFailures graph rootOf, root ∈ entry.2 ∧ entry.1 = n) ↔
      Failed events n ∧ ¬ IsRoot graph events n ∧ (IsRoot graph events root ∧ graph.Above root n) ∧
        ∃ r, IsRoot graph events r ∧ r ≠ root ∧ graph.Above r n := by
  simp only [sharedFailures, List.mem_filterMap]
  constructor
  · rintro ⟨entry, ⟨n', hn', hentry⟩, hroot, rfl⟩
    split at hentry
    · cases hentry
    rename_i hout
    -- a root is never shared, however many are above
    rw [h.mem_values, not_or] at hout
    split at hentry
    · rename_i htwo
      cases hentry
      refine ⟨h.mem_keys.mp (mem_sortedSet.mp hn'), hout.1, h.mem_roots_above.mp hroot, ?_⟩
      obtain ⟨r, hr, hne⟩ := (one_lt_length_iff ((nodup_sortedSet _).filter _) hroot).mp htwo
      exact ⟨r, (h.mem_roots_above.mp hr).1, hne, (h.mem_roots_above.mp hr).2⟩
    · cases hentry
  · rintro ⟨hfail, hnot, ⟨hroot, habove⟩, r, hr, hne, habove'⟩
    have hmem := h.mem_roots_above.mpr ⟨hroot, habove⟩
    have hmem' := h.mem_roots_above.mpr ⟨hr, habove'⟩
    refine ⟨(n, _), ⟨n, mem_sortedSet.mpr (h.mem_keys.mpr hfail), ?_⟩, hmem, rfl⟩
    rw [if_neg (by rw [h.mem_values]; simp [hnot, habove.right_mem]),
      if_pos ((one_lt_length_iff ((nodup_sortedSet _).filter _) hmem).mpr ⟨r, hmem', hne⟩)]

end MemoOf

/-! ## The main result -/

/-- The groups built on a right memo are correct. -/
private theorem MemoOf.correct {events : List CheckEvent} {skipped : List String}
    {rootOf : List (String × String)} (h : MemoOf graph events rootOf) :
    Groups.Correct graph events skipped
      ((rootsFrom rootOf events).map (groupAt graph rootOf events skipped)) where
  partition := by
    rw [List.flatMap_map]
    refine (flatMap_filter_perm (f := fun e => rootOf.lookup e.subject)
      (nodup_sortedSet _) fun e he => ?_).trans (perm_sortEvents events)
    obtain ⟨r, hr⟩ := h.exists_lookup ⟨e, (perm_sortEvents events).mem_iff.mp he, rfl⟩
    exact ⟨r, h.mem_rootsFrom.mpr (h.isRoot_iff.mp ⟨_, hr⟩), hr⟩
  distinct := by
    rw [map_root_groupAt]
    exact nodup_sortedSet _
  roots := by
    intro r
    rw [map_root_groupAt, h.mem_rootsFrom]
  counted := by
    intro G hG n
    obtain ⟨r, -, rfl⟩ := List.mem_map.mp hG
    exact mem_failedNodes_groupAt
  below := by
    intro G hG n hn
    obtain ⟨r, -, rfl⟩ := List.mem_map.mp hG
    have hroot := ((h.lookup n r).mp (h.mem_failedNodes.mp hn)).2
    exact ⟨hroot.eq_or_above, hroot.chain⟩
  skipped := by
    intro G hG n
    obtain ⟨r, -, rfl⟩ := List.mem_map.mp hG
    have hmem : n ∈ (groupAt graph rootOf events skipped r).skipped ↔
        n ∈ skipped ∧ rootOfSkipped graph rootOf n = some r := by
      simp [groupAt]
    rw [hmem, h.rootOfSkipped_eq_some]
    simp only [h.mem_failedNodes]
  shared := by
    intro G hG n
    obtain ⟨r, hr, rfl⟩ := List.mem_map.mp hG
    have hmem : n ∈ (groupAt graph rootOf events skipped r).shared ↔
        ∃ entry ∈ sharedFailures graph rootOf, r ∈ entry.2 ∧ entry.1 = n := by
      simp [groupAt, and_assoc]
    rw [hmem, h.mem_sharedFailures]
    simp only [h.mem_rootsFrom.mp hr, true_and, groupAt]

/-- The groups do not depend on the order of the events. -/
theorem groupFailures_eq_of_perm {events events' : List CheckEvent} (hperm : events.Perm events')
    (skipped : List String) :
    groupFailures graph events skipped = groupFailures graph events' skipped := by
  simp only [groupFailures, sortEvents_eq_of_perm hperm]

/-- **Root-cause grouping is correct**: in an acyclic lineage graph it succeeds on any
failing checks and skipped nodes, its groups are correct, and the order of the events
does not matter. -/
theorem groupFailures_correct (hacyclic : graph.Acyclic) (events : List CheckEvent)
    (skipped : List String) :
    ∃ groups, groupFailures graph events skipped = some groups ∧
      Groups.Correct graph events skipped groups ∧
      ∀ events', events.Perm events' → groupFailures graph events' skipped = some groups := by
  obtain ⟨rootOf, hrun, hroots⟩ := rootsByNode_spec hacyclic (events.map CheckEvent.subject)
  have hmemo : MemoOf graph events rootOf := { toRootsOf := hroots, acyclic := hacyclic }
  have hsome : groupFailures graph events skipped =
      some ((rootsFrom rootOf events).map (groupAt graph rootOf events skipped)) := by
    refine groupFailures_eq_some.mpr ⟨rootOf, hrun, fun e he => ?_, rfl⟩
    exact Option.isSome_iff_exists.mpr (hmemo.exists_lookup ⟨e, he, rfl⟩)
  exact ⟨_, hsome, hmemo.correct, fun events' hperm =>
    (groupFailures_eq_of_perm hperm skipped).symm.trans hsome⟩

/-- Two broken feeds, a model below both, and a skipped model below that one. -/
def diamond : FinDigraph String where
  nodes := ["source.a", "source.b", "model.c", "model.d"]
  edges := [("source.a", "model.c"), ("source.b", "model.c"), ("model.c", "model.d")]
  closed := by decide

theorem acyclic_diamond : diamond.Acyclic :=
  FinDigraph.acyclic_of_rank (fun n => diamond.nodes.idxOf n) (by decide)

def diamondEvents : List CheckEvent :=
  [⟨"run", "test.c", .test, "model.c", "fail", "", 0⟩,
    ⟨"run", "freshness:source.b", .freshness, "source.b", "error", "", 0⟩,
    ⟨"run", "freshness:source.a", .freshness, "source.a", "error", "", 0⟩]

theorem groupFailures_correct_diamond :
    diamond.Acyclic ∧ ∃ groups, groupFailures diamond diamondEvents ["model.d"] = some groups ∧
      Groups.Correct diamond diamondEvents ["model.d"] groups ∧
      ∀ events', diamondEvents.Perm events' →
        groupFailures diamond events' ["model.d"] = some groups :=
  ⟨acyclic_diamond, groupFailures_correct acyclic_diamond diamondEvents ["model.d"]⟩

end PlatformOps.Incidents
