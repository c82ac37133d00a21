import PlatformOps.Incidents.Resolution

/-!
# Roots That Can Recover

An incident is resolved by a later run that shows its root healthy. What a root has to
show is asked of its kind: a source has to be fresh, a test has to pass, anything else
has to succeed. What it can show is up to dbt: a production night reports on sources
with a freshness rule, on models that are built, on snapshots and on tests.

- `Dbt`: what the nightly invocations report on, from dbt's documentation.
- `recovers_iff`: a night on which nothing fails resolves an incident exactly when it
  reports on its root at all.
-/

namespace PlatformOps.Incidents

open Metadata Listing Machine Fallible

/-! ## A production night -/

/-- `NIGHTLY`: a production night's invocations. -/
def nightlyCommands : List (List String) :=
  [["source", "freshness"], ["test", "--select", "source:*"], ["run"], ["snapshot"],
    ["test", "--exclude", "source:*"]]

/-- What dbt's invocations report on in a project with this manifest. -/
structure Dbt (nodes : Manifest) where
  /-- Whether a source declares a freshness rule. -/
  freshnessRule : String → Bool
  /-- Whether a model is ephemeral: not built, only read in others. -/
  ephemeral : String → Bool
  /-- Whether an invocation reports on a node, if no node above it fails. -/
  reports : List String → Node → Prop
  /-- `dbt source freshness` reports on the sources with a freshness rule. -/
  freshness : ∀ n ∈ nodes.nodes, reports ["source", "freshness"] n ↔
    n.resourceType = .source ∧ freshnessRule n.uniqueId = true
  /-- `dbt run` reports on the models it builds. -/
  run : ∀ n ∈ nodes.nodes, reports ["run"] n ↔
    n.resourceType = .model ∧ ephemeral n.uniqueId = false
  snapshot : ∀ n ∈ nodes.nodes, reports ["snapshot"] n ↔ n.resourceType = .snapshot
  /-- A test is one of a source, or one that is not. -/
  test : ∀ n ∈ nodes.nodes, reports ["test", "--select", "source:*"] n ∨
    reports ["test", "--exclude", "source:*"] n ↔ n.resourceType = .test

/-- A production night reports on a node. -/
def Dbt.Covers {nodes : Manifest} (dbt : Dbt nodes) (n : Node) : Prop :=
  ∃ command ∈ nightlyCommands, dbt.reports command n

/-- A production night reports on a root. -/
def Dbt.ReportsOn {nodes : Manifest} (dbt : Dbt nodes) (root : String) : Prop :=
  ∃ n ∈ nodes.nodes, n.uniqueId = root ∧ dbt.Covers n

/-- The kinds of node a production night never reports on. -/
def Dbt.IsSilent {nodes : Manifest} (dbt : Dbt nodes) (n : Node) : Prop :=
  (n.resourceType = .source ∧ dbt.freshnessRule n.uniqueId = false) ∨
    (n.resourceType = .model ∧ dbt.ephemeral n.uniqueId = true) ∨
      n.resourceType = .seed ∨ n.resourceType = .exposure

theorem Dbt.covers_iff {nodes : Manifest} (dbt : Dbt nodes) {n : Node} (hn : n ∈ nodes.nodes) :
    dbt.Covers n ↔ ¬ dbt.IsSilent n := by
  have hnightly : dbt.Covers n ↔
      dbt.reports ["source", "freshness"] n ∨ dbt.reports ["run"] n ∨
        dbt.reports ["snapshot"] n ∨ (dbt.reports ["test", "--select", "source:*"] n ∨
          dbt.reports ["test", "--exclude", "source:*"] n) := by
    simp only [Dbt.Covers, nightlyCommands, List.mem_cons, List.not_mem_nil, or_false,
      exists_eq_or_imp, exists_eq_left]
    tauto
  rw [hnightly, dbt.freshness n hn, dbt.run n hn, dbt.snapshot n hn, dbt.test n hn, Dbt.IsSilent]
  cases n.resourceType <;> simp

/-- **A root a night reports on** is a node of the manifest that is no source without a freshness
rule, no ephemeral model, no seed and no exposure. -/
theorem Dbt.reportsOn_iff {nodes : Manifest} (dbt : Dbt nodes) (root : String) :
    dbt.ReportsOn root ↔ ∃ n ∈ nodes.nodes, n.uniqueId = root ∧ ¬ dbt.IsSilent n := by
  constructor
  · rintro ⟨n, hn, hid, hreports⟩
    exact ⟨n, hn, hid, (dbt.covers_iff hn).mp hreports⟩
  · rintro ⟨n, hn, hid, hsilent⟩
    exact ⟨n, hn, hid, (dbt.covers_iff hn).mpr hsilent⟩

/-! ## A night on which nothing fails -/

/-- What dbt reports of a node that does not fail: a source may be close to stale, a test may
warn. -/
def quietStatuses : ResourceType → List String
  | .source | .test => ["pass", "warn"]
  | .model | .snapshot | .seed => ["success"]
  | .exposure => []

/-- The store holds a whole night of a run on which nothing failed, and every test on the root that
ran passed. -/
structure QuietNight (ctx : Context) (dbt : Dbt ctx.nodes) (root runId : String) (s : Store) :
    Prop where
  covers : ∀ n ∈ ctx.nodes.nodes, dbt.Covers n →
    ∃ row ∈ s.resultsOf runId, row.uniqueId = n.uniqueId
  only : ∀ row ∈ s.resultsOf runId, ∃ n ∈ ctx.nodes.nodes, n.uniqueId = row.uniqueId ∧
    dbt.Covers n ∧ row.status ∈ quietStatuses n.resourceType ∧
      (n.resourceType = .test → CountsFor ctx root n.uniqueId → row.status = "pass")
  calm : s.eventsOf runId = []

/-- A node with a result that is no skip has a status. -/
theorem exists_status {rows : List ResultRow} {row : ResultRow} (hrow : row ∈ rows)
    (hran : row.status ≠ "skipped") :
    ∃ status, (rows.foldl statusStep []).lookup row.uniqueId = some status := by
  induction rows using List.reverseRecOn with
  | nil => cases hrow
  | append_singleton rows last ih =>
    rw [List.foldl_append, List.foldl_cons, List.foldl_nil]
    -- a step keeps what has a status, and gives one to its node
    have hkeep : ∀ (statuses : List (String × String)) (id : String),
        (∃ status, statuses.lookup id = some status) →
          ∃ status, (statusStep statuses last).lookup id = some status := by
      rintro statuses id ⟨status, hstatus⟩
      have hcons : ∃ status, List.lookup id ((last.uniqueId, last.status) :: statuses) =
          some status := by
        rw [List.lookup_cons]
        split
        · exact ⟨_, rfl⟩
        · exact ⟨status, hstatus⟩
      unfold statusStep
      split
      · exact ⟨status, hstatus⟩
      · split
        · split
          · exact ⟨status, hstatus⟩
          · exact hcons
        · exact hcons
    rcases List.mem_append.mp hrow with hrow | hrow
    · exact hkeep _ _ (ih hrow)
    · obtain rfl := List.mem_singleton.mp hrow
      unfold statusStep
      rw [if_neg hran]
      split
      · rename_i status hstatus
        split
        · exact ⟨status, hstatus⟩
        · exact ⟨row.status, List.lookup_cons_self⟩
      · exact ⟨row.status, List.lookup_cons_self⟩

section Quiet

variable {ctx : Context} {dbt : Dbt ctx.nodes} {root runId : String} {s : Store}
  (h : QuietNight ctx dbt root runId s)

include h

theorem QuietNight.lookup_eq_some {id status : String}
    (hlook : (s.statusesOf runId).lookup id = some status) :
    ∃ n ∈ ctx.nodes.nodes, n.uniqueId = id ∧ dbt.Covers n ∧
      status ∈ quietStatuses n.resourceType ∧
        (n.resourceType = .test → CountsFor ctx root n.uniqueId → status = "pass") := by
  obtain ⟨row, hrow, rfl, rfl, -⟩ := (statusesOf_spec s runId).reported id status hlook
  exact h.only row hrow

theorem QuietNight.exists_lookup {n : Node} (hn : n ∈ ctx.nodes.nodes)
    (hreports : dbt.Covers n) :
    ∃ status, (s.statusesOf runId).lookup n.uniqueId = some status := by
  obtain ⟨row, hrow, hid⟩ := h.covers n hn hreports
  obtain ⟨m, -, -, -, hstatus, -⟩ := h.only row hrow
  rw [← hid]
  apply exists_status hrow
  rintro hskipped
  rw [hskipped] at hstatus
  revert hstatus
  cases m.resourceType <;> decide

/-- The status a night on which nothing failed gives to a node it reports on. -/
theorem QuietNight.lookup_of_reports {n : Node} (hn : n ∈ ctx.nodes.nodes)
    (hreports : dbt.Covers n) :
    ∃ status ∈ quietStatuses n.resourceType,
      (s.statusesOf runId).lookup n.uniqueId = some status ∧
        (n.resourceType = .test → CountsFor ctx root n.uniqueId → status = "pass") := by
  obtain ⟨status, hlook⟩ := h.exists_lookup hn hreports
  obtain ⟨m, hm, hid, -, hstatus, hpass⟩ := h.lookup_eq_some hlook
  obtain rfl := List.inj_on_of_nodup_map ctx.nodes.unique hm hn hid
  exact ⟨status, hstatus, hlook, hpass⟩

/-- A test attached to a root has run, and passed. -/
theorem QuietNight.lookup_test (hroot : startsWith root "test." = false) {test : String}
    (htest : test ∈ ctx.testsOf root) : (s.statusesOf runId).lookup test = some "pass" := by
  have hcounts : CountsFor ctx root test := Or.inr ⟨hroot, htest⟩
  obtain ⟨n, hn, rfl⟩ := List.mem_map.mp htest
  obtain ⟨hmem, hkind⟩ := List.mem_filter.mp hn
  have hkind : n.resourceType = .test := by
    simp only [Bool.and_eq_true, decide_eq_true_eq] at hkind
    exact hkind.1.1
  have hloud : ¬ dbt.IsSilent n := by simp [Dbt.IsSilent, hkind]
  obtain ⟨status, -, hlook, hpass⟩ :=
    h.lookup_of_reports hmem ((dbt.covers_iff hmem).mpr hloud)
  rw [hlook, hpass hkind hcounts]

/-- What a quiet night says of a root it reports on is what the root has to show. -/
theorem QuietNight.lookup_root (hreports : dbt.ReportsOn root) :
    ∃ status ∈ healthyStatuses root, (s.statusesOf runId).lookup root = some status := by
  obtain ⟨n, hn, rfl, hcommand⟩ := hreports
  have hloud := (dbt.covers_iff hn).mp hcommand
  obtain ⟨status, hstatus, hlook, hpass⟩ := h.lookup_of_reports hn hcommand
  refine ⟨status, ?_, hlook⟩
  -- the id tells the node's type
  have htype : ∀ kind : ResourceType, startsWith n.uniqueId (kind.text ++ ".") = true ↔
      n.resourceType = kind := by
    intro kind
    constructor
    · exact ctx.nodes.resourceType_of_startsWith hn
    · rintro rfl
      exact ctx.nodes.kinds n hn
  have hsource : startsWith n.uniqueId "source." = true ↔ n.resourceType = .source := htype .source
  have htest : startsWith n.uniqueId "test." = true ↔ n.resourceType = .test := htype .test
  unfold healthyStatuses
  cases hkind : n.resourceType with
  | source =>
    rw [if_pos (hsource.mpr hkind)]
    rwa [hkind] at hstatus
  | test =>
    rw [if_neg (by simp [hsource, hkind]), if_pos (htest.mpr hkind), hpass hkind (Or.inl rfl)]
    exact List.mem_singleton.mpr rfl
  | model =>
    rw [if_neg (by simp [hsource, hkind]), if_neg (by simp [htest, hkind])]
    rwa [hkind] at hstatus
  | snapshot =>
    rw [if_neg (by simp [hsource, hkind]), if_neg (by simp [htest, hkind])]
    rwa [hkind] at hstatus
  | seed => exact absurd (by simp [Dbt.IsSilent, hkind]) hloud
  | exposure => exact absurd (by simp [Dbt.IsSilent, hkind]) hloud

/-- **A root is healthy after a quiet night exactly when the night reports on it.** -/
theorem QuietNight.healthy_root_iff :
    healthy ctx (s.statusesOf runId) root = true ↔ dbt.ReportsOn root := by
  rw [healthy_iff]
  constructor
  · rintro ⟨⟨status, -, hlook⟩, -⟩
    obtain ⟨n, hn, hid, hreports, -⟩ := h.lookup_eq_some hlook
    exact ⟨n, hn, hid, hreports⟩
  · intro hreports
    refine ⟨h.lookup_root hreports, fun hroot => ⟨?_, ?_⟩⟩
    · intro hne
      obtain ⟨test, htest⟩ := List.exists_mem_of_ne_nil _ hne
      exact ⟨test, htest, by rw [h.lookup_test hroot htest]; rfl⟩
    · intro test htest status hlook
      rw [h.lookup_test hroot htest] at hlook
      exact (Option.some.inj hlook).symm

end Quiet

/-! ## Resolution -/

/-- The incident was opened earlier by another run, and is open or resolved by this one. -/
structure Incident.IsEarlier (i : Incident) (runId : String) (now : Timestamp) : Prop where
  unmerged : i.mergedInto = none
  other : i.openedByRun ≠ runId
  earlier : i.openedAt ≤ now
  resolved : i.resolved = none ∨ i.resolvedByRun = some runId

/-- **Every incident is resolved by a quiet night exactly when the night reports on its root**, in
any store the desk gets to: the root is a node of the manifest, and no source without a freshness
rule, no ephemeral model, no seed. -/
theorem recovers_iff {calls : List IngestCall} {s : Store}
    (hrun : Run deskStep (fun _ _ => True) {} calls s) {call : IngestCall}
    (hfresh : call.fresh s ≠ []) {s' : Store} {out : Regrouped}
    (hok : call.ingest s = .ok (s', out)) (dbt : Dbt call.ctx.nodes) {i : Incident}
    (hi : i ∈ s.incidents) (hearlier : i.IsEarlier call.runId (call.now s))
    (hquiet : QuietNight call.ctx dbt i.root call.runId s') :
    (healthy call.ctx (s'.statusesOf call.runId) i.root = true ↔
      ∃ n ∈ call.ctx.nodes.nodes, n.uniqueId = i.root ∧ ¬ dbt.IsSilent n) ∧
    ((∃ x ∈ s'.incidents, x.seq = i.seq ∧ x.resolvedByRun = some call.runId) ↔
      ∃ n ∈ call.ctx.nodes.nodes, n.uniqueId = i.root ∧ ¬ dbt.IsSilent n) := by
  have hsound := sound_of_run hrun Store.sound_empty
  have hhealthy : healthy call.ctx (s'.statusesOf call.runId) i.root = true ↔
      ∃ n ∈ call.ctx.nodes.nodes, n.uniqueId = i.root ∧ ¬ dbt.IsSilent n := by
    rw [hquiet.healthy_root_iff, dbt.reportsOn_iff]
  refine ⟨hhealthy, ?_⟩
  rw [← hhealthy]
  rcases (IngestCall.ingest_ends hsound.numbered hsound.oneOpen).returned hok with
    ⟨hnone, -⟩ | ⟨-, r, news, assignment, hingested⟩
  · exact absurd hnone hfresh
  have hreached := hingested.reached
  have hbefore : i ∈ r.before := by
    rw [Regrouping.mem_before, hingested.incidents_eq, hreached.runId, hreached.now]
    exact ⟨hi, hearlier.unmerged, hearlier.other, hearlier.earlier, hearlier.resolved⟩
  -- nothing failed, so that no group joins the incident
  have hevents : r.facts.events = [] := by
    rw [List.eq_nil_iff_forall_not_mem]
    intro e he
    rw [hreached.facts.events] at he
    obtain ⟨row, hrow, hrowRun, rfl⟩ := mem_eventsOf.mp he
    have hafter : (r.attributed assignment row).event ∈ s'.eventsOf call.runId := by
      refine mem_eventsOf.mpr ⟨r.attributed assignment row, ?_, ?_, rfl⟩
      · rw [hingested.checkEvents]
        exact List.mem_map_of_mem hrow
      · rw [Regrouping.event_attributed]
        exact hrowRun
    rw [hquiet.calm] at hafter
    cases hafter
  have hgroups : r.facts.groups = [] := by
    have hroots := hreached.facts.perm_roots
    rw [hevents] at hroots
    exact List.map_eq_nil_iff.mp hroots.eq_nil
  have hjoined : r.isJoined i = false := by
    simp [Regrouping.isJoined, Regrouping.joinedIn, hgroups]
  have hstatuses : r.isHealthy i = healthy call.ctx (s'.statusesOf call.runId) i.root := by
    rw [Regrouping.isHealthy, hreached.ctx, hingested.statuses, hreached.runId]
  have hfate : (r.fate (r.into assignment) i).resolvedByRun = some call.runId ↔
      healthy call.ctx (s'.statusesOf call.runId) i.root = true := by
    rw [← hreached.runId, Regrouping.resolvedByRun_fate_iff hbefore, hjoined, hstatuses,
      hreached.runId]
    simp
  rw [← hfate]
  constructor
  · rintro ⟨x, hx, hseq, hresolved⟩
    have halike := hingested.alike_of_seq hsound hi hx hseq
    rwa [Incident.resolvedByRun, halike.resolved] at hresolved
  · intro hresolved
    obtain ⟨x, hx, halike⟩ :=
      hingested.exists_after (List.mem_append_left _ (List.mem_map_of_mem hi))
    refine ⟨x, hx, halike.seq.trans Regrouping.fate_same.seq, ?_⟩
    rwa [Incident.resolvedByRun, halike.resolved]

/-- dbt for a project in which no model is ephemeral. -/
def Dbt.ofRules (nodes : Manifest) (freshnessRule : String → Bool) : Dbt nodes where
  freshnessRule := freshnessRule
  ephemeral _ := false
  reports command n :=
    (command = ["source", "freshness"] ∧ n.resourceType = .source ∧
      freshnessRule n.uniqueId = true) ∨
    (command = ["run"] ∧ n.resourceType = .model) ∨
    (command = ["snapshot"] ∧ n.resourceType = .snapshot) ∨
    (command = ["test", "--exclude", "source:*"] ∧ n.resourceType = .test)
  freshness := by simp
  run := by simp
  snapshot := by simp
  test := by simp

/-- The second of these nights, as far as dbt goes. -/
theorem quietNight_resolving : QuietNight twoModelsContext (Dbt.ofRules twoModels fun _ => false)
    "model.b" "night 2" (storeAfter resolvingNights) := by
  have hresults : (storeAfter resolvingNights).resultsOf "night 2" =
      [⟨"2", "night 2", "model.a", "model", "success"⟩,
        ⟨"2", "night 2", "model.b", "model", "success"⟩] := by decide +kernel
  refine ⟨?_, ?_, by decide +kernel⟩
  · rw [hresults]
    simp [twoModelsContext, twoModels]
  · rw [hresults]
    simp [twoModelsContext, twoModels, Dbt.Covers, nightlyCommands, Dbt.ofRules, quietStatuses]

theorem recovers_iff_resolving : ∃ x ∈ (storeAfter resolvingNights).incidents,
    x.seq = 1 ∧ x.resolvedByRun = some "night 2" := by
  have hrun : Run deskStep (fun _ _ => True) {} (resolvingNights.take 1)
      (storeAfter (resolvingNights.take 1)) := Run.of_check (by decide +kernel)
  have hok : (invocationOf "night 2" "2" 20
      [("model.a", "success"), ("model.b", "success")]).ingest
        (storeAfter (resolvingNights.take 1)) =
      .ok (storeAfter resolvingNights, ⟨[], [], [1], 0⟩) := by decide +kernel
  have hincident : ∃ i ∈ (storeAfter (resolvingNights.take 1)).incidents, i.seq = 1 ∧
      i.root = "model.b" ∧ i.mergedInto = none ∧ i.openedByRun ≠ "night 2" ∧ i.openedAt ≤ 20 ∧
        i.resolved = none := by decide +kernel
  obtain ⟨i, hi, hseq, hroot, hmerged, hother, hopened, hres⟩ := hincident
  have hrecovers := (recovers_iff hrun (by decide +kernel) hok
    (Dbt.ofRules twoModels fun _ => false) hi ⟨hmerged, hother, hopened, Or.inl hres⟩
    (hroot ▸ quietNight_resolving)).2
  rw [hseq, hroot] at hrecovers
  apply hrecovers.mpr
  exact ⟨⟨"model.b", .model, "b", ["model.a"], none, [], "", "", none, "", ""⟩, by decide +kernel, rfl,
    by simp [Dbt.IsSilent, Dbt.ofRules]⟩

/-- A source without a freshness rule, and a test of it. -/
def ruleless : Manifest where
  nodes := [⟨"source.raw", .source, "raw", [], none, [], "", "", none, "", ""⟩,
    ⟨"test.volume", .test, "volume", ["source.raw"], none, [], "", "", none, "", ""⟩]
  unique := by decide
  kinds := by decide

def rulelessNight (runId id : String) (time : Timestamp) (status : String) : IngestCall :=
  { invocationOf runId id time [("test.volume", status)] with
    ctx := { twoModelsContext with nodes := ruleless } }

/-- The test fails one night and passes the next. Everything the night reports on is as it should
be, and the incident of the source stays open. -/
theorem ruleless_stays_open :
    QuietNight (rulelessNight "night 2" "2" 20 "pass").ctx (Dbt.ofRules ruleless fun _ => false)
        "source.raw" "night 2" (storeAfter [rulelessNight "night 1" "1" 10 "fail",
          rulelessNight "night 2" "2" 20 "pass"]) ∧
      ∃ i ∈ (storeAfter [rulelessNight "night 1" "1" 10 "fail",
        rulelessNight "night 2" "2" 20 "pass"]).incidents,
        i.root = "source.raw" ∧ i.isOpen = true := by
  have hresults : (storeAfter [rulelessNight "night 1" "1" 10 "fail",
      rulelessNight "night 2" "2" 20 "pass"]).resultsOf "night 2" =
        [⟨"2", "night 2", "test.volume", "test", "pass"⟩] := by decide +kernel
  refine ⟨⟨?_, ?_, by decide +kernel⟩, by decide +kernel⟩
  · rw [hresults]
    simp [rulelessNight, ruleless, Dbt.Covers, nightlyCommands, Dbt.ofRules]
  · rw [hresults]
    simp [rulelessNight, ruleless, Dbt.Covers, nightlyCommands, Dbt.ofRules, quietStatuses]

end PlatformOps.Incidents
