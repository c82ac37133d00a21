import PlatformOps.Incidents.Desk

/-!
# What a Regrouping Decides

The statements of a regrouping write one after the other, but what they do is
decided before the first of them: which incident each group finds, which of the
run's own incidents no group is assigned to, which earlier roots are healthy. A
`Regrouping` is that moment, and `fate` what becomes of each incident there is.

The order of the statements matters for one thing, the unique index: `Clear` says
that no incident of the regrouping is opened or reopened on a root that already
has an open one.
-/

namespace PlatformOps.Incidents

open Metadata Listing Fallible

/-- The same incident: what no statement after its insertion changes, of what a regrouping
reads. -/
structure Incident.Same (i j : Incident) : Prop where
  seq : i.seq = j.seq
  root : i.root = j.root
  openedAt : i.openedAt = j.openedAt
  openedByRun : i.openedByRun = j.openedByRun

theorem Incident.Same.rfl {i : Incident} : i.Same i := ⟨Eq.refl _, Eq.refl _, Eq.refl _, Eq.refl _⟩

theorem Incident.Same.trans {i j k : Incident} (h : i.Same j) (h' : j.Same k) : i.Same k :=
  ⟨h.seq.trans h'.seq, h.root.trans h'.root, h.openedAt.trans h'.openedAt,
    h.openedByRun.trans h'.openedByRun⟩

/-- The same incident in the same state: only its severity may differ. -/
structure Incident.Alike (i j : Incident) : Prop extends i.Same j where
  resolved : i.resolved = j.resolved
  mergedInto : i.mergedInto = j.mergedInto

/-- A regrouping about to write: what is known of the run, and the store it finds. -/
structure Regrouping where
  ctx : Context
  runId : String
  now : Timestamp
  facts : RunFacts
  store : Store

namespace Regrouping

variable (r : Regrouping)

/-! ## What each group finds -/

def before : List Incident := r.store.before r.runId r.now

def mine : List Incident := r.store.mine r.runId

/-- The earlier incident a group joins. -/
def joins (g : Group) : Option Incident := joined r.ctx r.facts.statuses r.before g

/-- The incident of the run's own that a group reuses. -/
def reuses (g : Group) : Option Incident :=
  if (r.joins g).isSome then none else r.mine.find? fun i => i.root = g.root

/-- A group that finds no incident opens one. -/
def opens (g : Group) : Bool := (r.joins g).isNone && (r.reuses g).isNone

/-- Some of these groups joins the incident. -/
def joinedIn (groups : List Group) (i : Incident) : Bool := groups.any fun g => r.joins g = some i

def isJoined (i : Incident) : Bool := r.joinedIn r.facts.groups i

def isReused (i : Incident) : Bool := r.facts.groups.any fun g => r.reuses g = some i

def isHealthy (i : Incident) : Bool := healthy r.ctx r.facts.statuses i.root

/-- An earlier incident this run had resolved, which it fails on after all. -/
def reopens (i : Incident) : Bool :=
  i.resolvedByRun = some r.runId && (r.isJoined i || !r.isHealthy i)

/-! ## What becomes of each incident -/

/-- An incident once these groups are assigned. -/
def afterAssign (groups : List Group) (i : Incident) : Incident :=
  if i.resolvedByRun = some r.runId ∧ r.joinedIn groups i then { i with resolved := none } else i

/-- An incident once these of the run's own are merged, if no group reuses them. -/
def afterMerge (into : Incident → ℕ) (merged : List Incident) (i : Incident) : Incident :=
  if i ∈ merged ∧ i ∈ r.mine ∧ r.isReused i = false then { i with mergedInto := some (into i) }
  else r.afterAssign r.facts.groups i

/-- An earlier incident no group joins, once its root was looked at. -/
def afterResolve (i : Incident) : Incident :=
  if r.isHealthy i then
    if i.resolvedByRun = some r.runId then i else { i with resolved := some ⟨r.now, r.runId⟩ }
  else if i.resolvedByRun = some r.runId then { i with resolved := none } else i

/-- An incident once these earlier ones are resolved or reopened. -/
def afterResolution (into : Incident → ℕ) (looked : List Incident) (i : Incident) : Incident :=
  if i ∈ looked ∧ r.isJoined i = false then r.afterResolve i else r.afterMerge into r.mine i

/-- **What becomes of an incident** in the whole regrouping. -/
def fate (into : Incident → ℕ) (i : Incident) : Incident := r.afterResolution into r.before i

/-- Nothing stands in the way of the incidents a regrouping opens and reopens. -/
def Clear : Prop :=
  (∀ g ∈ r.facts.groups, r.opens g = true →
    ∀ j ∈ r.store.incidents, j.isOpen = true → j.root ≠ g.root) ∧
  ∀ i ∈ r.before, r.reopens i = true →
    ∀ j ∈ r.store.incidents, j.root = i.root → j ≠ i →
      (j.isOpen = true → j ∈ r.mine ∧ r.isReused j = false ∧ r.isJoined i = false) ∧
      ¬ (j ∈ r.before ∧ r.reopens j = true)

instance : Decidable r.Clear := inferInstanceAs (Decidable (_ ∧ _))

/-- Every failing check has a root with a group, and so has every incident of the run's own
that no group reuses. -/
def Rooted : Prop :=
  (∀ e ∈ r.facts.events, ∃ root ∈ r.facts.groups.map Group.root,
    r.facts.rootOf.lookup e.subject = some root) ∧
  ∀ i ∈ r.mine, r.isReused i = false →
    (r.facts.rootOf.lookup i.root).getD i.root ∈ r.facts.groups.map Group.root

/-! ## First facts -/

section Facts

variable {r}

theorem mem_before {i : Incident} : i ∈ r.before ↔ i ∈ r.store.incidents ∧
    i.mergedInto = none ∧ i.openedByRun ≠ r.runId ∧ i.openedAt ≤ r.now ∧
      (i.resolved = none ∨ i.resolvedByRun = some r.runId) := by
  simp [before, Store.before, Store.bySeq, and_assoc]

theorem mem_mine {i : Incident} : i ∈ r.mine ↔ i ∈ r.store.incidents ∧
    i.mergedInto = none ∧ i.openedByRun = r.runId := by
  simp [mine, Store.mine, Store.bySeq]

theorem not_mem_mine_of_mem_before {i : Incident} (h : i ∈ r.before) : i ∉ r.mine :=
  fun hmine => (mem_before.mp h).2.2.1 (mem_mine.mp hmine).2.2

/-- The incident a group joins is one of the earlier ones. -/
theorem mem_before_of_joins {g : Group} {i : Incident} (h : r.joins g = some i) : i ∈ r.before := by
  simp only [joins, joined, Option.orElse_eq_some] at h
  rcases h with h | ⟨-, h | ⟨-, h | ⟨-, h⟩⟩⟩ <;> exact List.mem_of_find?_eq_some h

/-- A group with an earlier incident on its root joins one. -/
theorem root_ne_of_joins_eq_none {g : Group} (h : r.joins g = none) {i : Incident}
    (hi : i ∈ r.before) : i.root ≠ g.root := by
  simp only [joins, joined, Option.orElse_eq_none] at h
  simpa using List.find?_eq_none.mp h.1 i hi

theorem reuses_eq_some {g : Group} {i : Incident} : r.reuses g = some i ↔
    r.joins g = none ∧ (r.mine.find? fun i => i.root = g.root) = some i := by
  rw [reuses]
  split
  · rename_i h
    obtain ⟨j, hj⟩ := Option.isSome_iff_exists.mp h
    simp [hj]
  · rename_i h
    simp [Option.not_isSome_iff_eq_none.mp h]

theorem opens_eq_true {g : Group} : r.opens g = true ↔
    r.joins g = none ∧ (r.mine.find? fun i => i.root = g.root) = none := by
  rw [opens, Bool.and_eq_true, Option.isNone_iff_eq_none, Option.isNone_iff_eq_none]
  refine and_congr_right fun h => ?_
  rw [reuses, if_neg (by simp [h])]

theorem isJoined_eq_true {i : Incident} :
    r.isJoined i = true ↔ ∃ g ∈ r.facts.groups, r.joins g = some i := by
  simp [isJoined, joinedIn]

theorem isReused_eq_true {i : Incident} :
    r.isReused i = true ↔ ∃ g ∈ r.facts.groups, r.reuses g = some i := by
  simp [isReused]

end Facts

/-! ## What the changes keep -/

section Keep

variable {r} {groups : List Group} {into : Incident → ℕ} {done : List Incident} {i j : Incident}

theorem afterAssign_same : (r.afterAssign groups i).Same i := by
  rw [afterAssign]
  split <;> exact ⟨rfl, rfl, rfl, rfl⟩

theorem afterMerge_same : (r.afterMerge into done i).Same i := by
  rw [afterMerge]
  split
  · exact ⟨rfl, rfl, rfl, rfl⟩
  · exact afterAssign_same

theorem afterResolve_same : (r.afterResolve i).Same i := by
  rw [afterResolve]
  split <;> split <;> exact ⟨rfl, rfl, rfl, rfl⟩

theorem afterResolution_same : (r.afterResolution into done i).Same i := by
  rw [afterResolution]
  split
  · exact afterResolve_same
  · exact afterMerge_same

@[simp] theorem afterAssign_seq : (r.afterAssign groups i).seq = i.seq :=
  (afterAssign_same (r := r)).seq

@[simp] theorem afterAssign_root : (r.afterAssign groups i).root = i.root :=
  (afterAssign_same (r := r)).root

@[simp] theorem afterMerge_seq : (r.afterMerge into done i).seq = i.seq :=
  (afterMerge_same (r := r)).seq

@[simp] theorem afterResolution_seq : (r.afterResolution into done i).seq = i.seq :=
  (afterResolution_same (r := r)).seq

@[simp] theorem afterResolution_root : (r.afterResolution into done i).root = i.root :=
  (afterResolution_same (r := r)).root

/-- The run's own incidents no group reuses are merged, and no other one. -/
theorem fate_mergedInto : (r.fate into i).mergedInto = none ↔
    i.mergedInto = none ∧ ¬ (i ∈ r.mine ∧ r.isReused i = false) := by
  by_cases hmerged : i ∈ r.mine ∧ r.isReused i = false
  · have hbefore : i ∉ r.before := fun hi => not_mem_mine_of_mem_before hi hmerged.1
    simp [fate, afterResolution, afterMerge, hbefore, hmerged]
  · rw [fate, afterResolution]
    split
    · have hkeep : (r.afterResolve i).mergedInto = i.mergedInto := by
        rw [afterResolve]
        split <;> split <;> rfl
      simp [hkeep, hmerged]
    · have hkeep : (r.afterAssign r.facts.groups i).mergedInto = i.mergedInto := by
        rw [afterAssign]
        split <;> rfl
      simp [afterMerge, hkeep, hmerged]

/-- An incident that is neither earlier nor merged stays as it is. -/
theorem fate_of_not_mem_before (hbefore : i ∉ r.before)
    (hkept : ¬ (i ∈ r.mine ∧ r.isReused i = false)) : r.fate into i = i := by
  have hjoined : r.joinedIn r.facts.groups i = false := Bool.eq_false_iff.mpr fun hjoined => by
    obtain ⟨g, -, hg⟩ := isJoined_eq_true.mp hjoined
    exact hbefore (mem_before_of_joins hg)
  simp [fate, afterResolution, hbefore, afterMerge, hkept, afterAssign, hjoined]

/-- What an earlier incident becomes: joined, it is the run's no more; else it is looked at. -/
theorem fate_of_mem_before (hbefore : i ∈ r.before) :
    r.fate into i = if r.isJoined i then r.afterAssign r.facts.groups i else r.afterResolve i := by
  have hmine : i ∉ r.mine := not_mem_mine_of_mem_before hbefore
  cases hjoined : r.isJoined i with
  | true => simp [fate, afterResolution, hjoined, afterMerge, hmine]
  | false => simp [fate, afterResolution, hjoined, hbefore]

/-- An earlier incident is open in the end if a group joins it, or its root is not healthy. -/
theorem isOpen_fate_iff (hbefore : i ∈ r.before) :
    (r.fate into i).isOpen = true ↔ r.isJoined i = true ∨ r.isHealthy i = false := by
  obtain ⟨-, hmerged, -, -, hres⟩ := mem_before.mp hbefore
  rw [fate_of_mem_before hbefore]
  have hstays : i.resolvedByRun ≠ some r.runId → i.isOpen = true := fun hnot => by
    simp [Incident.isOpen, hmerged, hres.resolve_right hnot]
  have hreopened : ({ i with resolved := none } : Incident).isOpen = true := by
    simp [Incident.isOpen, hmerged]
  have hclosed : i.resolvedByRun = some r.runId → i.isOpen = false := fun hrun => by
    cases hresolved : i.resolved with
    | none => simp [Incident.resolvedByRun, hresolved] at hrun
    | some => simp [Incident.isOpen, hresolved]
  -- a group joined it, or its health decides
  cases hjoined : r.isJoined i with
  | true =>
    rw [if_pos rfl, afterAssign]
    split
    · simp [hreopened]
    · rename_i hnot
      simp [hstays fun hrun => hnot ⟨hrun, hjoined⟩]
  | false =>
    rw [if_neg (by simp), afterResolve]
    split
    · rename_i hhealthy
      split
      · rename_i hrun
        simp [hhealthy, hclosed hrun]
      · simp [hhealthy, Incident.isOpen]
    · rename_i hhealthy
      split
      · simp [hhealthy, hreopened]
      · rename_i hrun
        simp [hhealthy, hstays hrun]

/-- The run has resolved an earlier incident in the end if no group joins it, and its root is
healthy. -/
theorem resolvedByRun_fate_iff (hbefore : i ∈ r.before) :
    (r.fate into i).resolvedByRun = some r.runId ↔ r.isJoined i = false ∧ r.isHealthy i = true := by
  rw [fate_of_mem_before hbefore]
  -- a group joined it, or its health decides
  cases hjoined : r.isJoined i with
  | true =>
    rw [if_pos rfl, afterAssign]
    split
    · simp [Incident.resolvedByRun]
    · rename_i hnot
      simpa using fun hrun => hnot ⟨hrun, hjoined⟩
  | false =>
    rw [if_neg (by simp), afterResolve]
    split
    · rename_i hhealthy
      split
      · rename_i hrun
        simp [hhealthy, hrun]
      · simp [hhealthy, Incident.resolvedByRun]
    · rename_i hhealthy
      split
      · simp [hhealthy, Incident.resolvedByRun]
      · rename_i hrun
        simp [hhealthy, hrun]

/-- What another run has resolved stays as it is, unless it is merged. -/
theorem resolvedByRun_fate_of_ne {runId : String} (hrun : runId ≠ r.runId)
    (hfate : (r.fate into i).resolvedByRun = some runId)
    (hkept : ¬ (i ∈ r.mine ∧ r.isReused i = false)) : r.fate into i = i := by
  by_cases hbefore : i ∈ r.before
  · rw [fate_of_mem_before hbefore] at hfate ⊢
    -- this run writes its own name or none
    cases hjoined : r.isJoined i with
    | true =>
      rw [hjoined, if_pos rfl, afterAssign] at hfate
      rw [if_pos rfl, afterAssign]
      split at hfate
      · simp [Incident.resolvedByRun] at hfate
      · rename_i hnot
        exact if_neg hnot
    | false =>
      rw [hjoined, if_neg (by simp), afterResolve] at hfate
      rw [if_neg (by simp), afterResolve]
      split at hfate
      · split at hfate
        · rename_i hhealthy hres
          rw [if_pos hhealthy, if_pos hres]
        · simp only [Incident.resolvedByRun, Option.map_some, Option.some.injEq] at hfate
          exact absurd hfate.symm hrun
      · split at hfate
        · simp [Incident.resolvedByRun] at hfate
        · rename_i hhealthy hres
          rw [if_neg hhealthy, if_neg hres]
  · exact fate_of_not_mem_before hbefore hkept

theorem fate_same : (r.fate into i).Same i := afterResolution_same

/-- A regrouping writes the resolution and the merge of an incident, and nothing else of it. -/
theorem fate_eq : ∃ resolved mergedInto,
    r.fate into i = { i with resolved := resolved, mergedInto := mergedInto } := by
  have hassign : ∃ resolved mergedInto, r.afterAssign r.facts.groups i =
      { i with resolved := resolved, mergedInto := mergedInto } := by
    rw [afterAssign]
    split <;> exact ⟨_, _, rfl⟩
  rw [fate, afterResolution]
  split
  · rw [afterResolve]
    split <;> split <;> exact ⟨_, _, rfl⟩
  · rw [afterMerge]
    split
    · exact ⟨_, _, rfl⟩
    · exact hassign

/-- A regrouping sets no severity. -/
theorem fate_severity : (r.fate into i).severity = i.severity := by
  obtain ⟨_, _, heq⟩ := @fate_eq r into i
  rw [heq]

end Keep

end Regrouping

end PlatformOps.Incidents
