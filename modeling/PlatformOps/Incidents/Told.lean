import PlatformOps.Incidents.Messages
import PlatformOps.Incidents.Resolution

/-!
# What People Were Last Told

A page, an update or a resolution is what somebody last heard of an incident, and it
should say whether the incident is resolved. Each ingest queues its messages for what
it did, but three things go without one:

- a resolution this run had granted is taken back because the root is no longer
  healthy, though no group of the run joins the incident;
- an incident the run had resolved is joined, after an update of this run;
- an incident is resolved again by a run that has announced it before.

`Regrouping.Tells` excludes exactly these (`told_matches_iff`).
-/

namespace PlatformOps.Incidents

open Metadata Listing Fallible Ledger

/-- Whether a message says in what state the incident is. -/
def NotificationKind.tells : NotificationKind → Bool
  | .escalation => false
  | _ => true

namespace Store

variable (s : Store)

/-- The kind of the last page, update or resolution queued for an incident. -/
def lastTold (incident : ℕ) : Option NotificationKind :=
  (lastOf NotificationRow.key (fun k => k.1 = incident && k.2.1.tells) s.notifications).map
    fun k => k.2.1

/-- A run has a message of this kind for the incident already. -/
def HasTold (incident : ℕ) (kind : NotificationKind) (runId : String) : Prop :=
  (incident, kind, runId) ∈ s.notifications.map NotificationRow.key

instance (incident : ℕ) (kind : NotificationKind) (runId : String) :
    Decidable (s.HasTold incident kind runId) :=
  inferInstanceAs (Decidable (_ ∈ _))

/-- What people were last told of an incident that is not merged is that it is resolved, if and
only if it is. -/
def ToldMatches : Prop :=
  ∀ i ∈ s.incidents, i.mergedInto = none →
    (s.lastTold i.seq = some .resolved ↔ i.resolved.isSome = true)

instance : Decidable s.ToldMatches := inferInstanceAs (Decidable (∀ i ∈ s.incidents, _ → _))

/-- Every message is about an incident there is. -/
def MessagesKnown : Prop :=
  ∀ k ∈ s.notifications.map NotificationRow.key, k.1 ∈ s.incidents.map Incident.seq

end Store

namespace Regrouping

variable (r : Regrouping)

/-- What a regrouping does with an earlier incident, people hear of. -/
def TellsOf (i : Incident) : Prop :=
  if r.isJoined i then
    i.resolvedByRun = some r.runId → ¬ r.store.HasTold i.seq .update r.runId
  else if r.isHealthy i then
    i.resolved = none → ¬ r.store.HasTold i.seq .resolved r.runId
  else i.resolvedByRun ≠ some r.runId

instance (i : Incident) : Decidable (r.TellsOf i) := by
  unfold TellsOf
  infer_instance

/-- The same of all earlier incidents. -/
def Tells : Prop := ∀ i ∈ r.before, r.TellsOf i

instance : Decidable r.Tells := inferInstanceAs (Decidable (∀ i ∈ r.before, _))

end Regrouping

/-- What an ingest does, people hear of. -/
def IngestCall.Tells (call : IngestCall) (s : Store) : Prop :=
  call.fresh s = [] ∨ Ends (call.regrouping s) (fun _ => True) Regrouping.Tells

instance (call : IngestCall) (s : Store) : Decidable (call.Tells s) :=
  inferInstanceAs (Decidable (_ ∨ _))

/-! ## One ingest -/

section Ingest

variable {call : IngestCall} {s s' : Store} {r : Regrouping} {news : List Incident}
  {assignment : List (String × ℕ)} {out : Regrouped} {raises : List Escalation}

section Rows

variable {incident : ℕ} {rows : List NotificationRow}
  (hrows : s'.notifications = insertAll NotificationRow.key s.notifications rows)

include hrows

/-- A message is the last one for an incident, if it is the only one that tells, and its key was
free. -/
theorem lastTold_of_told {kind : NotificationKind} {runId : String} (htells : kind.tells = true)
    (hmem : (incident, kind, runId) ∈ rows.map NotificationRow.key)
    (hone : ∀ kind' runId', (incident, kind', runId') ∈ rows.map NotificationRow.key →
      kind'.tells = true → kind' = kind ∧ runId' = runId) :
    s'.lastTold incident =
      if s.HasTold incident kind runId then s.lastTold incident else some kind := by
  -- Of the new rows, only this one tells of the incident.
  have hone' : ∀ row ∈ rows,
      (decide (row.key.1 = incident) && row.key.2.1.tells) = true →
        row.key = (incident, kind, runId) := by
    intro row hrow hp
    rw [Bool.and_eq_true, decide_eq_true_eq] at hp
    obtain ⟨rfl, htells'⟩ := hp
    obtain ⟨hkind, hrun⟩ := hone row.key.2.1 row.key.2.2 (List.mem_map_of_mem hrow) htells'
    rw [← hkind, ← hrun]
  rw [Store.lastTold, hrows,
    lastOf_insertAll (k := (incident, kind, runId)) (by simp [htells]) hmem hone']
  by_cases htold : s.HasTold incident kind runId
  · rw [if_pos htold]
    exact congrArg _ (if_pos htold)
  · rw [if_neg htold]
    exact congrArg _ (if_neg htold)

/-- Without a message that tells, what was last told stays. -/
theorem lastTold_of_not_told
    (hnone : ∀ kind runId, (incident, kind, runId) ∈ rows.map NotificationRow.key →
      kind.tells = false) :
    s'.lastTold incident = s.lastTold incident := by
  unfold Store.lastTold
  rw [hrows, lastOf_insertAll_of_neg]
  intro row hrow hp
  rw [Bool.and_eq_true, decide_eq_true_eq] at hp
  obtain ⟨rfl, htells⟩ := hp
  rw [hnone row.key.2.1 row.key.2.2 (List.mem_map_of_mem hrow)] at htells
  cases htells

end Rows

variable (hsound : s.Sound) (h : call.Ingested s r news assignment s' out)

include h

theorem IngestCall.Ingested.reported : out = ⟨news.map Incident.seq,
    (r.facts.groups.filterMap r.joins).map Incident.seq,
    (r.before.filter r.resolves).map Incident.seq, r.facts.events.length⟩ := by
  obtain ⟨settled, _, _, _, hsettled, rfl⟩ := h.settled
  exact hsettled.reported

include hsound

/-- Whom the messages about an earlier incident of the store are for. -/
theorem mem_about_iff {i : Incident} (hi : i ∈ s.incidents) (kind : NotificationKind) :
    kind.tells = true → (i.seq ∈ about out raises kind ↔
      (kind = .update ∧ r.isJoined i = true) ∨
        (kind = .resolved ∧ i ∈ r.before ∧ r.resolves i = true)) := by
  -- Messages name incidents by number, and the numbers are distinct.
  have hmem : ∀ j ∈ r.store.incidents, j.seq = i.seq → j = i := by
    intro j hj heq
    rw [h.incidents_eq] at hj
    exact hsound.numbered.eq_of_seq hj hi heq
  intro htells
  rw [h.reported]
  cases kind with
  | page =>
    apply iff_of_false
    · intro hopened
      obtain ⟨n, hn, heq⟩ := List.mem_map.mp hopened
      apply (h.isNew n hn).unused
      rw [heq, h.incidents_eq]
      exact List.mem_map_of_mem hi
    · simp
  | update =>
    rw [or_iff_left (by simp), and_iff_right rfl, Regrouping.isJoined_eq_true]
    constructor
    · intro happended
      obtain ⟨j, hj, heq⟩ := List.mem_map.mp happended
      obtain ⟨g, hg, hjoins⟩ := List.mem_filterMap.mp hj
      have hbefore := Regrouping.mem_before.mp (Regrouping.mem_before_of_joins hjoins)
      exact ⟨g, hg, hmem j hbefore.1 heq ▸ hjoins⟩
    · rintro ⟨g, hg, hjoins⟩
      exact List.mem_map_of_mem (List.mem_filterMap.mpr ⟨g, hg, hjoins⟩)
  | resolved =>
    rw [or_iff_right (by simp), and_iff_right rfl]
    constructor
    · intro hresolved
      obtain ⟨j, hj, heq⟩ := List.mem_map.mp hresolved
      rw [List.mem_filter] at hj
      exact hmem j (Regrouping.mem_before.mp hj.1).1 heq ▸ hj
    · intro hresolves
      exact List.mem_map_of_mem (List.mem_filter.mpr hresolves)
  | escalation => cases htells

variable (hrows : s'.notifications =
  insertAll NotificationRow.key s.notifications (messagesOf r.runId r.now out raises s'))

include hrows

/-- What was last told of an incident of the store. -/
theorem lastTold_eq {i : Incident} (hi : i ∈ s.incidents) :
    s'.lastTold i.seq =
      if r.isJoined i then
        if s.HasTold i.seq .update r.runId then s.lastTold i.seq else some .update
      else if i ∈ r.before ∧ r.resolves i then
        if s.HasTold i.seq .resolved r.runId then s.lastTold i.seq else some .resolved
      else s.lastTold i.seq := by
  have habout := @mem_about_iff _ _ _ _ _ _ _ raises hsound h _ hi
  have hseq : i.seq ∈ s'.incidents.map Incident.seq := by
    obtain ⟨x, hx, halike⟩ :=
      h.exists_after (List.mem_append_left _ (List.mem_map_of_mem hi))
    exact List.mem_map.mpr ⟨x, hx, halike.seq.trans Regrouping.fate_same.seq⟩
  -- the only kind of message that tells of it
  have htold : ∀ kind : NotificationKind, kind.tells = true → i.seq ∈ about out raises kind →
      (∀ kind', kind'.tells = true → i.seq ∈ about out raises kind' → kind' = kind) →
      s'.lastTold i.seq =
        if s.HasTold i.seq kind r.runId then s.lastTold i.seq else some kind := by
    intro kind htells hmem hone
    apply lastTold_of_told hrows htells (mem_keys_messagesOf.mpr ⟨hseq, rfl, hmem⟩)
    intro kind' runId' hkey htells'
    obtain ⟨-, hrun, hmem'⟩ := mem_keys_messagesOf.mp hkey
    exact ⟨hone kind' htells' hmem', hrun⟩
  split
  · rename_i hjoined
    have hnot : r.resolves i = false := by simp [Regrouping.resolves, hjoined]
    apply htold .update rfl ((habout .update rfl).mpr (Or.inl ⟨rfl, hjoined⟩))
    intro kind' htells' hmem'
    rcases (habout kind' htells').mp hmem' with ⟨hkind, -⟩ | ⟨-, -, hresolves⟩
    · exact hkind
    · rw [hnot] at hresolves
      cases hresolves
  · rename_i hjoined
    split
    · rename_i hresolves
      apply htold .resolved rfl ((habout .resolved rfl).mpr (Or.inr ⟨rfl, hresolves⟩))
      intro kind' htells' hmem'
      rcases (habout kind' htells').mp hmem' with ⟨-, hjoined'⟩ | ⟨hkind, -⟩
      · exact absurd hjoined' hjoined
      · exact hkind
    · rename_i hresolves
      apply lastTold_of_not_told hrows
      intro kind runId hkey
      obtain ⟨-, -, hmem⟩ := mem_keys_messagesOf.mp hkey
      by_contra htells
      rcases (habout kind (by simpa using htells)).mp hmem with ⟨-, hjoined'⟩ | ⟨-, hresolves'⟩
      · exact hjoined hjoined'
      · exact hresolves hresolves'

omit hsound in
/-- A new incident is paged. -/
theorem lastTold_new (hknown : s.MessagesKnown) {n : Incident} (hn : n ∈ news) :
    s'.lastTold n.seq = some .page := by
  have hunused : n.seq ∉ s.incidents.map Incident.seq := by
    rw [← h.incidents_eq]
    exact (h.isNew n hn).unused
  have hseq : n.seq ∈ s'.incidents.map Incident.seq := by
    obtain ⟨x, hx, halike⟩ := h.exists_after (List.mem_append_right _ hn)
    exact List.mem_map.mpr ⟨x, hx, halike.seq⟩
  have hopened : n.seq ∈ about out raises .page := by
    rw [h.reported]
    exact List.mem_map_of_mem hn
  -- No earlier incident has the new one's number, so the page is the only message about it.
  have hold : ∀ j ∈ r.before, j.seq ≠ n.seq := by
    intro j hj heq
    apply (h.isNew n hn).unused
    rw [← heq]
    exact List.mem_map_of_mem (Regrouping.mem_before.mp hj).1
  rw [lastTold_of_told hrows rfl (mem_keys_messagesOf.mpr ⟨hseq, rfl, hopened⟩), if_neg]
  · intro htold
    exact hunused (hknown _ htold)
  · intro kind' runId' hkey htells
    obtain ⟨-, hrun, hmem⟩ := mem_keys_messagesOf.mp hkey
    refine ⟨?_, hrun⟩
    rw [h.reported] at hmem
    cases kind' with
    | page => rfl
    | update =>
      obtain ⟨j, hj, heq⟩ := List.mem_map.mp hmem
      obtain ⟨g, -, hjoins⟩ := List.mem_filterMap.mp hj
      exact absurd heq (hold j (Regrouping.mem_before_of_joins hjoins))
    | resolved =>
      obtain ⟨j, hj, heq⟩ := List.mem_map.mp hmem
      exact absurd heq (hold j (List.mem_filter.mp hj).1)
    | escalation => cases htells

omit hsound h hrows in
/-- What resolves an earlier incident is this run, if anything does. -/
private theorem resolved_iff_byRun {i : Incident} (hi : i ∈ r.before) :
    i.resolved.isSome = true ↔ i.resolvedByRun = some r.runId := by
  obtain ⟨-, -, -, -, hresolved⟩ := Regrouping.mem_before.mp hi
  rcases hresolved with hnone | hrun
  · simp [Incident.resolvedByRun, hnone]
  · refine iff_of_true ?_ hrun
    rw [Incident.resolvedByRun, Option.map_eq_some_iff] at hrun
    obtain ⟨resolution, hsome, -⟩ := hrun
    simp [hsome]

omit hsound h hrows in
private theorem resolved_fate_iff {i : Incident} (hi : i ∈ r.before)
    (hkept : (r.fate (r.into assignment) i).mergedInto = none) :
    (r.fate (r.into assignment) i).resolved.isSome = true ↔
      r.isJoined i = false ∧ r.isHealthy i = true := by
  have hopen : (r.fate (r.into assignment) i).isOpen = true ↔
      r.isJoined i = true ∨ r.isHealthy i = false := Regrouping.isOpen_fate_iff hi
  rw [Incident.isOpen, hkept] at hopen
  cases hjoined : r.isJoined i <;> cases hhealthy : r.isHealthy i <;>
    cases hfate : (r.fate (r.into assignment) i).resolved <;> simp_all

/-- What an incident of the store was last told to be, and what it is after the ingest. -/
theorem lastTold_resolved_iff {i : Incident} (hi : i ∈ s.incidents)
    (hkept : (r.fate (r.into assignment) i).mergedInto = none)
    (hmatch : s.lastTold i.seq = some .resolved ↔ i.resolved.isSome = true) :
    (s'.lastTold i.seq = some .resolved ↔
      (r.fate (r.into assignment) i).resolved.isSome = true) ↔
        (i ∈ r.before → r.TellsOf i) := by
  have hnotes : ∀ kind, r.store.HasTold i.seq kind r.runId ↔ s.HasTold i.seq kind r.runId := by
    intro kind
    unfold Store.HasTold
    rw [h.reached.recorded.notifications]
  rw [lastTold_eq hsound h hrows hi]
  by_cases hbefore : i ∈ r.before
  · have hbyRun := resolved_iff_byRun hbefore
    have hafter := resolved_fate_iff hbefore hkept
    rw [hafter, imp_iff_right hbefore, Regrouping.TellsOf, hnotes, hnotes]
    cases hjoined : r.isJoined i with
    | true =>
      rw [if_pos rfl, if_pos rfl]
      split
      · rename_i htold
        rw [hmatch, hbyRun]
        simp [htold]
      · rename_i htold
        simp [htold]
    | false =>
      rw [if_neg Bool.false_ne_true, if_neg Bool.false_ne_true]
      cases hhealthy : r.isHealthy i with
      | true =>
        rw [if_pos rfl]
        by_cases hrun : i.resolvedByRun = some r.runId
        · -- resolved, and it stays so
          have hsome : i.resolved.isSome = true := hbyRun.mpr hrun
          have hne : i.resolved ≠ none := Option.isSome_iff_ne_none.mp hsome
          rw [if_neg (by simp [Regrouping.resolves, hrun]), hmatch]
          simp [hsome, hne]
        · have hnone : i.resolved = none :=
            (Regrouping.mem_before.mp hbefore).2.2.2.2.resolve_right hrun
          have hresolves : r.resolves i = true := by
            simp [Regrouping.resolves, hjoined, hhealthy, hrun]
          rw [if_pos ⟨hbefore, hresolves⟩]
          split
          · rename_i htold
            rw [hmatch]
            simp [hnone, htold]
          · rename_i htold
            simp [htold]
      | false =>
        have hresolves : r.resolves i = false := by simp [Regrouping.resolves, hhealthy]
        rw [if_neg Bool.false_ne_true, if_neg (by simp [hresolves]), hmatch, hbyRun]
        simp
  · -- neither joined nor looked at
    have hjoined : r.isJoined i = false := by
      rw [Bool.eq_false_iff]
      intro hjoined
      obtain ⟨g, -, hg⟩ := Regrouping.isJoined_eq_true.mp hjoined
      exact hbefore (Regrouping.mem_before_of_joins hg)
    rw [Regrouping.fate_of_not_mem_before hbefore (Regrouping.fate_mergedInto.mp hkept).2,
      if_neg (by simp [hjoined]), if_neg (by simp [hbefore]), hmatch]
    simp [hbefore]

/-- **One ingest**: what people were last told matches after it if and only if it tells of
everything it does, provided it matched before. -/
theorem toldMatches_iff (hknown : s.MessagesKnown) (hmatches : s.ToldMatches) :
    s'.ToldMatches ↔ r.Tells := by
  have hone : ∀ i ∈ s.incidents, (r.fate (r.into assignment) i).mergedInto = none →
      ((s'.lastTold i.seq = some .resolved ↔
        (r.fate (r.into assignment) i).resolved.isSome = true) ↔ (i ∈ r.before → r.TellsOf i)) := by
    intro i hi hkept
    exact lastTold_resolved_iff hsound h hrows hi hkept
      (hmatches i hi (Regrouping.fate_mergedInto.mp hkept).1)
  constructor
  · intro hafter i hbefore
    have hmem := Regrouping.mem_before.mp hbefore
    have hi : i ∈ s.incidents := h.incidents_eq ▸ hmem.1
    -- An earlier incident is never merged, and keeps its number.
    have hkept : (r.fate (r.into assignment) i).mergedInto = none :=
      Regrouping.fate_mergedInto.mpr
        ⟨hmem.2.1, fun hmine => Regrouping.not_mem_mine_of_mem_before hbefore hmine.1⟩
    obtain ⟨x, hx, halike⟩ :=
      h.exists_after (List.mem_append_left _ (List.mem_map_of_mem hi))
    have hx' := hafter x hx (halike.mergedInto.trans hkept)
    rw [halike.seq.trans Regrouping.fate_same.seq, halike.resolved] at hx'
    exact (hone i hi hkept).mp hx' hbefore
  · intro htells x hx hunmerged
    obtain ⟨y, hy, halike⟩ := h.exists_before hx
    rw [halike.seq, halike.resolved]
    rcases List.mem_append.mp hy with hy | hy
    · obtain ⟨i, hi, rfl⟩ := List.mem_map.mp hy
      rw [Regrouping.fate_same.seq]
      exact (hone i hi (halike.mergedInto.symm.trans hunmerged)).mpr (htells i)
    · rw [lastTold_new h hrows hknown hy, (h.isNew y hy).resolved]
      simp

omit hsound in
theorem messagesKnown_after (hknown : s.MessagesKnown) : s'.MessagesKnown := by
  intro k hk
  rw [hrows, mem_keys_insertAll] at hk
  rcases hk with hk | hk
  · obtain ⟨i, hi, hseq⟩ := List.mem_map.mp (hknown k hk)
    obtain ⟨x, hx, halike⟩ :=
      h.exists_after (List.mem_append_left _ (List.mem_map_of_mem hi))
    exact List.mem_map.mpr ⟨x, hx, (halike.seq.trans Regrouping.fate_same.seq).trans hseq⟩
  · exact (mem_keys_messagesOf.mp hk).1

end Ingest

/-! ## In every run -/

/-- An ingest that returns leaves what was last told matching if and only if it tells of
everything it does. -/
theorem told_after_iff {call : IngestCall} {s s' : Store} {out : Regrouped} (hsound : s.Sound)
    (hknown : s.MessagesKnown) (hmatches : s.ToldMatches) (hok : call.ingest s = .ok (s', out)) :
    s'.MessagesKnown ∧ (s'.ToldMatches ↔ call.Tells s) := by
  rcases (IngestCall.ingest_ends hsound.numbered hsound.oneOpen).returned hok with
    ⟨hfresh, rfl⟩ | ⟨hfresh, r, news, assignment, hingested⟩
  · exact ⟨hknown, iff_of_true hmatches (Or.inl hfresh)⟩
  · obtain ⟨r', raises, hr', hrows⟩ := IngestCall.ingest_messages hsound hfresh hok
    obtain rfl : r' = r := Except.ok.inj (hr'.symm.trans hingested.reaches)
    refine ⟨messagesKnown_after hingested hrows hknown, ?_⟩
    rw [toldMatches_iff hsound hingested hrows hknown hmatches, IngestCall.Tells, hr', ends_ok,
      or_iff_right hfresh]

/-- **What people were last told matches the store** in every run whose ingests tell of everything
they do, and the first ingest that does not is where it stops to. -/
theorem told_matches_iff {calls : List IngestCall} {s : Store}
    (hrun : Machine.Run deskStep (fun s call => call.Tells s) {} calls s) :
    s.ToldMatches ∧ ∀ (call : IngestCall) (s' : Store) (out : Regrouped),
      call.ingest s = .ok (s', out) → (s'.ToldMatches ↔ call.Tells s) := by
  have hinvariant : s.Sound ∧ s.MessagesKnown ∧ s.ToldMatches := by
    apply hrun.invariant (I := fun s => s.Sound ∧ s.MessagesKnown ∧ s.ToldMatches)
    · exact ⟨Store.sound_empty, by simp [Store.MessagesKnown], by simp [Store.ToldMatches]⟩
    · rintro s call s' ⟨hsound, hknown, hmatches⟩ htells hstep
      obtain rfl := Option.some.inj hstep
      -- A call that raises is rolled back: what was told and the incidents stay.
      refine ⟨call.sound_after hsound, ?_⟩
      unfold IngestCall.after
      split
      · rename_i s' out hok
        obtain ⟨hknown', hiff⟩ := told_after_iff hsound hknown hmatches hok
        exact ⟨hknown', hiff.mpr htells⟩
      · exact ⟨hknown, hmatches⟩
  obtain ⟨hsound, hknown, hmatches⟩ := hinvariant
  refine ⟨hmatches, ?_⟩
  intro call s' out hok
  exact (told_after_iff hsound hknown hmatches hok).2

theorem told_matches_iff_resolving : (storeAfter resolvingNights).ToldMatches := by
  have hrun : Machine.Run deskStep (fun s call => call.Tells s) {} resolvingNights
      (storeAfter resolvingNights) := Machine.Run.of_check (by decide +kernel)
  exact (told_matches_iff hrun).1

/-- A model with a test. -/
def testedModel : Manifest where
  nodes := [⟨"model.a", .model, "a", [], none, [], "", "", none, "", ""⟩,
    ⟨"test.a", .test, "test_a", ["model.a"], some "model.a", [], "", "", none, "", ""⟩]
  unique := by decide
  kinds := by decide

def testedNight (runId id : String) (time : Timestamp) (results : List (String × String)) :
    IngestCall :=
  { invocationOf runId id time results with ctx := { twoModelsContext with nodes := testedModel } }

/-- The test fails one night. The next night's first invocation finds it passing and resolves the
incident, the second one has a warning of it: the incident is open again, and the last thing
anybody heard is that it is resolved. -/
theorem told_resolved_of_open : ¬ (storeAfter
    [testedNight "night 1" "1" 10 [("model.a", "success"), ("test.a", "fail")],
      testedNight "night 2" "2" 20 [("model.a", "success"), ("test.a", "pass")],
      testedNight "night 2" "3" 20 [("test.a", "warn")]]).ToldMatches := by
  decide +kernel

end PlatformOps.Incidents
