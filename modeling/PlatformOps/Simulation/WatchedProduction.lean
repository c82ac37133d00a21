import PlatformOps.Incidents.Resolution
import PlatformOps.Simulation.TimeOrder

/-!
# Production, Watched by the Company's Own Desk

The company and its desk hand work to each other: invocations one way, fixes the other. No
fix is lost between them and none is done twice.

- `Staffed`: what the desk keeps: one response and one fix for each incident of its store.
- `replay_store`: the desk's store is that of its calls, one ingest after the other.
- `one_fix_per_incident`: over a whole run, every incident's fix is either pending or was
  rerun once.
- `calls_in_time_order_iff`: only an incident that a rerun opens can turn the time back.
-/

namespace PlatformOps.Simulation

open Listing Metadata Incidents Fallible

/-- Related elements with the same key: the lists have the same keys. -/
theorem map_eq_of_forall₂ {α β γ : Type*} {R : α → β → Prop} {l : List α} {l' : List β}
    {f : α → γ} {g : β → γ} (h : List.Forall₂ R l l') (hkey : ∀ a b, R a b → g b = f a) :
    l'.map g = l.map f := by
  induction h with
  | nil => rfl
  | cons hfirst _ ih => rw [List.map_cons, List.map_cons, ih, hkey _ _ hfirst]

theorem exists_left_of_forall₂ {α β : Type*} {R : α → β → Prop} {l : List α} {l' : List β}
    (h : List.Forall₂ R l l') {b : β} (hb : b ∈ l') : ∃ a ∈ l, R a b := by
  obtain ⟨i, hi, rfl⟩ := List.mem_iff_getElem.mp hb
  have hlt : i < l.length := h.length_eq ▸ hi
  exact ⟨l[i], List.getElem_mem hlt, h.get hlt hi⟩

/-! ## An incident and its fix -/

/-- An incident, the row that says when it was answered, and the fix for it. -/
structure Answered (w : Watch) (i : Incident) (row : ResponseRow) (fix : Fix) : Prop where
  incident : row.incident = i.seq
  acknowledged : i.openedAt ≤ row.acknowledgedAt
  fixed : row.acknowledgedAt ≤ row.fixedAt
  incidentId : fix.incidentId = i.incidentId
  time : fix.time = row.fixedAt
  /-- The fix covers the sources at or above the root, and checks the root again. -/
  tables : fix.tables = w.sourcesOf i.root
  commands : rerunCommands w.ctx.nodes i.root = .ok fix.commands
  rerun : fix.commands ≠ []

/-- Only what no ingest changes of an incident matters. -/
theorem Answered.congr {w : Watch} {i j : Incident} {row : ResponseRow} {fix : Fix}
    (h : Answered w i row fix) (hsame : j.Same i) : Answered w j row fix where
  incident := h.incident.trans hsame.seq.symm
  acknowledged := hsame.openedAt ▸ h.acknowledged
  fixed := h.fixed
  incidentId := by rw [h.incidentId, Incident.incidentId, Incident.incidentId, hsame.seq]
  time := h.time
  tables := hsame.root ▸ h.tables
  commands := hsame.root ▸ h.commands
  rerun := h.rerun

theorem threeDigits_injective : Function.Injective threeDigits := by
  intro m n h
  apply paddedDigits_injective 3
  rw [threeDigits, threeDigits] at h
  exact String.ofList_injective h

theorem incidentId_injective {i j : Incident} (h : i.incidentId = j.incidentId) :
    i.seq = j.seq := by
  rw [Incident.incidentId, Incident.incidentId, String.append_right_inj] at h
  exact threeDigits_injective h

namespace Watch

variable (w : Watch) {d d' : CompanyDesk}

/-! ## One invocation -/

/-- **What the desk does about an incident it opened.** -/
theorem respondTo_eq_ok {incident : ℕ} (hok : w.respondTo d incident = .ok d')
    (hnew : incident ∉ d.responses.map ResponseRow.incident) :
    ∃ i ∈ d.store.incidents, i.seq = incident ∧ ∃ row fix, Answered w i row fix ∧
      d' = { d with responses := d.responses ++ [row], fixes := d.fixes ++ [fix] } := by
  rw [respondTo] at hok
  split at hok
  · cases hok
  · next i hi =>
    have hseq : i.seq = incident := by simpa using List.find?_some hi
    obtain ⟨_, hroot, hrest⟩ := bind_eq_ok.mp hok
    obtain ⟨commands, hcommands, hd⟩ := bind_eq_ok.mp hrest
    obtain rfl := pure_eq_ok.mp hd
    have hresponse := respond_le w.stableHash i.incidentId i.severity i.openedAt
      (busyWith d.store.incidents i) w.lifecycle
    generalize respond w.stableHash i.incidentId i.severity i.openedAt
      (busyWith d.store.incidents i) w.lifecycle = response at hresponse ⊢
    rw [if_neg hnew]
    refine ⟨i, List.mem_of_find?_eq_some hi, hseq, ⟨response, incident⟩, _, ?_, rfl⟩
    refine ⟨hseq.symm, hresponse.1, hresponse.2, rfl, rfl, rfl, hcommands, ?_⟩
    -- the root is a node, so there is something to rerun
    have hnode : i.root ∈ w.ctx.graph.nodes := not_not.mp (raiseIf_eq_ok.mp hroot)
    obtain ⟨node, hmem, hid⟩ := List.mem_map.mp hnode
    cases hget : w.ctx.nodes.get i.root with
    | none =>
      rw [Manifest.get] at hget
      exact absurd hid (by simpa using List.find?_eq_none.mp hget node hmem)
    | some node => exact rerunCommands_ne_nil hget hcommands

/-- One response and one fix for each of the incidents. -/
theorem respondTo_all {incidents : List ℕ} (hok : incidents.foldlM w.respondTo d = .ok d')
    (hnew : ∀ incident ∈ incidents, incident ∉ d.responses.map ResponseRow.incident)
    (hnodup : incidents.Nodup) :
    ∃ answers : List (ResponseRow × Fix), d'.store = d.store ∧
      d'.responses = d.responses ++ answers.map Prod.fst ∧
      d'.fixes = d.fixes ++ answers.map Prod.snd ∧
      List.Forall₂ (fun incident answer => ∃ i ∈ d.store.incidents, i.seq = incident ∧
        Answered w i answer.1 answer.2) incidents answers := by
  induction incidents generalizing d with
  | nil =>
    obtain rfl := pure_eq_ok.mp hok
    exact ⟨[], rfl, (List.append_nil _).symm, (List.append_nil _).symm, .nil⟩
  | cons incident incidents ih =>
    rw [List.foldlM_cons] at hok
    obtain ⟨d₁, hfirst, hrest⟩ := bind_eq_ok.mp hok
    obtain ⟨i, hi, hseq, row, fix, hanswered, rfl⟩ :=
      w.respondTo_eq_ok hfirst (hnew incident (List.mem_cons_self ..))
    obtain ⟨hnotin, hnodup⟩ := List.nodup_cons.mp hnodup
    obtain ⟨answers, hstore, hresponses, hfixes, hall⟩ := ih hrest (by
      intro other hother hmem
      rw [List.map_append, List.mem_append] at hmem
      rcases hmem with hmem | hmem
      · exact hnew other (List.mem_cons_of_mem _ hother) hmem
      · rw [List.map_singleton, List.mem_singleton, hanswered.incident, hseq] at hmem
        exact hnotin (hmem ▸ hother)) hnodup
    refine ⟨(row, fix) :: answers, hstore, ?_, ?_, .cons ⟨i, hi, hseq, hanswered⟩ hall⟩
    · rw [hresponses, List.append_assoc]
      rfl
    · rw [hfixes, List.append_assoc]
      rfl

/-- What the desk keeps, once these fixes were handed out: its store is sound, and each of
its incidents has one response and one fix. -/
structure Staffed (given : List Fix) (d : CompanyDesk) : Prop where
  sound : d.store.Sound
  answered : ∃ answers : List (ResponseRow × Fix), answers.map Prod.fst = d.responses ∧
    answers.map Prod.snd = given ++ d.fixes ∧
    List.Forall₂ (fun i answer => Answered w i answer.1 answer.2) d.store.incidents answers

theorem staffed_start : w.Staffed [] {} :=
  ⟨Store.sound_empty, [], rfl, rfl, .nil⟩

/-- What `fixes()` hands out is the desk's no more. -/
theorem Staffed.drain {given : List Fix} (h : w.Staffed given d) :
    w.Staffed (given ++ d.fixes) { d with fixes := [] } := by
  obtain ⟨answers, hresponses, hfixes, hall⟩ := h.answered
  exact ⟨h.sound, answers, hresponses, by rw [hfixes, List.append_nil], hall⟩

/-- Every response of the desk is to an incident of its store. -/
theorem Staffed.responses {given : List Fix} (h : w.Staffed given d) :
    d.responses.map ResponseRow.incident = d.store.incidents.map Incident.seq := by
  obtain ⟨answers, hresponses, -, hall⟩ := h.answered
  rw [← hresponses, List.map_map]
  exact map_eq_of_forall₂ hall fun _ _ hanswered => hanswered.incident

/-- Every fix is for an incident of the store. -/
theorem Staffed.exists_answered {given : List Fix} (h : w.Staffed given d) {fix : Fix}
    (hfix : fix ∈ given ++ d.fixes) : ∃ i ∈ d.store.incidents, ∃ row, Answered w i row fix := by
  obtain ⟨answers, -, hfixes, hall⟩ := h.answered
  rw [← hfixes] at hfix
  obtain ⟨answer, hanswer, rfl⟩ := List.mem_map.mp hfix
  obtain ⟨i, hi, hanswered⟩ := exists_left_of_forall₂ hall hanswer
  exact ⟨i, hi, answer.1, hanswered⟩

theorem Staffed.incidentIds {given : List Fix} (h : w.Staffed given d) :
    (given ++ d.fixes).map Fix.incidentId = d.store.incidents.map Incident.incidentId := by
  obtain ⟨answers, -, hfixes, hall⟩ := h.answered
  rw [← hfixes, List.map_map]
  exact map_eq_of_forall₂ hall fun _ _ hanswered => hanswered.incidentId

/-- The answers to the numbers of new rows are answers to the rows. -/
private theorem answered_rows {incidents news : List Incident} {f : Incident → Incident}
    {answers : List (ResponseRow × Fix)} (hnumbered : Numbered incidents)
    (hmem : ∀ n ∈ news, f n ∈ incidents) (hseq : ∀ n, (f n).seq = n.seq)
    (hall : List.Forall₂ (fun incident answer => ∃ i ∈ incidents, i.seq = incident ∧
      Answered w i answer.1 answer.2) (news.map Incident.seq) answers) :
    List.Forall₂ (fun n answer => Answered w (f n) answer.1 answer.2) news answers := by
  rw [List.forall₂_map_left_iff] at hall
  have hboth := (List.forall₂_and_left (p := (· ∈ news)) news answers).mpr ⟨fun _ => id, hall⟩
  refine hboth.imp fun n answer ⟨hn, i, hi, heq, hanswered⟩ => ?_
  rwa [← hnumbered.eq_of_seq hi (hmem n hn) (heq.trans (hseq n).symm)]

/-- **An invocation that opens incidents**: the desk answers each of them, once. -/
private theorem Staffed.ingested {given : List Fix} (h : w.Staffed given d) {call : IngestCall}
    {r : Regrouping} {news : List Incident} {assignment : List (String × ℕ)} {store : Store}
    {out : Regrouped} (hingested : call.Ingested d.store r news assignment store out)
    (hok : out.opened.foldlM w.respondTo { d with store := store } = .ok d') :
    w.Staffed given d' ∧ d'.store = store ∧
      ∃ new : List Fix, d'.fixes = d.fixes ++ new ∧ ∀ fix ∈ new, ∃ i ∈ d'.store.incidents,
        fix.incidentId = i.incidentId ∧ i.openedByRun = r.runId ∧ i.openedAt = r.now := by
  have hsound := hingested.sound h.sound
  obtain ⟨severityOf, hincidents⟩ := hingested.incidents
  obtain ⟨_, _, _, _, hsettled, -⟩ := hingested.settled
  rw [hsettled.reported] at hok
  have hunused : ∀ incident ∈ news.map Incident.seq,
      incident ∉ d.responses.map ResponseRow.incident := by
    intro incident hmem
    obtain ⟨n, hn, rfl⟩ := List.mem_map.mp hmem
    rw [h.responses w, ← hingested.incidents_eq]
    exact (hingested.isNew n hn).unused
  have hmem : ∀ n ∈ news, { n with severity := severityOf n } ∈ store.incidents := by
    intro n hn
    rw [hincidents, reseverity]
    exact List.mem_map_of_mem (f := fun i : Incident => { i with severity := severityOf i })
      (List.mem_append_right _ hn)
  obtain ⟨answers, hstore, hresponses, hfixes, hall⟩ :=
    w.respondTo_all hok hunused hsettled.numbers
  have hnews := w.answered_rows hsound.numbered hmem (fun _ => rfl) hall
  obtain ⟨earlier, hrows, hgiven, hanswered⟩ := h.answered
  refine ⟨⟨hstore ▸ hsound, earlier ++ answers, ?_, ?_, ?_⟩, hstore, answers.map Prod.snd,
    hfixes, ?_⟩
  · rw [List.map_append, hrows, hresponses]
  · rw [List.map_append, hgiven, hfixes, List.append_assoc]
  · -- what became of the earlier incidents, and the new ones after them
    rw [hstore]
    change List.Forall₂ _ store.incidents _
    rw [hincidents, reseverity, List.map_append, List.map_map]
    apply List.rel_append
    · rw [List.forall₂_map_left_iff]
      refine hanswered.imp fun i answer hi => hi.congr ?_
      exact ⟨Regrouping.fate_same.seq, Regrouping.fate_same.root, Regrouping.fate_same.openedAt,
        Regrouping.fate_same.openedByRun⟩
    · rw [List.forall₂_map_left_iff]
      exact hnews
  · intro fix hfix
    obtain ⟨answer, hanswer, rfl⟩ := List.mem_map.mp hfix
    obtain ⟨n, hn, hn'⟩ := exists_left_of_forall₂ hnews hanswer
    refine ⟨_, hstore ▸ hmem n hn, hn'.incidentId, ?_, ?_⟩
    · exact (hsettled.isNew n hn).openedByRun
    · exact (hsettled.isNew n hn).openedAt

/-- **One invocation keeps the desk staffed.** -/
theorem Staffed.ingest {given : List Fix} (h : w.Staffed given d) {call : IngestCall}
    (hok : w.ingest d call = .ok d') :
    w.Staffed given d' ∧ d'.store = call.after d.store ∧
      ∃ new : List Fix, d'.fixes = d.fixes ++ new ∧ ∀ fix ∈ new, ∃ i ∈ d'.store.incidents,
        fix.incidentId = i.incidentId ∧ i.openedByRun = call.runId ∧
          i.openedAt = call.now d.store := by
  rw [Watch.ingest] at hok
  split at hok
  · cases hok
  · next store out hingest =>
    have hafter : call.after d.store = store := by rw [IngestCall.after, hingest]
    have hends := @IngestCall.ingest_ends call _ h.sound.numbered h.sound.oneOpen
    rcases hends.returned hingest with ⟨hfresh, rfl⟩ | ⟨-, r, news, assignment, hingested⟩
    · -- nothing fresh: nothing was opened
      rw [IngestCall.ingest, if_pos hfresh] at hingest
      obtain ⟨-, rfl⟩ := Prod.mk.inj (Except.ok.inj hingest)
      obtain rfl := pure_eq_ok.mp hok
      exact ⟨h, hafter.symm, [], (List.append_nil _).symm,
        fun _ hfix => absurd hfix List.not_mem_nil⟩
    · obtain ⟨hstaffed, hstore, hnew⟩ := h.ingested w hingested hok
      refine ⟨hstaffed, hstore.trans hafter.symm, ?_⟩
      rwa [hingested.reached.runId, hingested.reached.now] at hnew

/-- No ingest takes an incident away. -/
theorem exists_same_after (call : IngestCall) {store : Store} (hsound : store.Sound)
    {i : Incident} (hi : i ∈ store.incidents) : ∃ x ∈ (call.after store).incidents, x.Same i := by
  rcases call.completes_or_same hsound with ⟨hsame, -⟩ | ⟨r, news, assignment, out, -, h⟩
  · rw [hsame]
    exact ⟨i, hi, .rfl⟩
  · obtain ⟨x, hx, halike⟩ := h.exists_after (List.mem_append_left _ (List.mem_map_of_mem hi))
    exact ⟨x, hx, halike.toSame.trans Regrouping.fate_same⟩

/-! ## The invocations of an operation -/

/-- What the desk does in a row of invocations of one run, at one time. -/
structure Handles (given : List Fix) (d : CompanyDesk) (runId : String) (time : Timestamp)
    (d' : CompanyDesk) : Prop where
  staffed : w.Staffed given d'
  kept : ∀ i ∈ d.store.incidents, ∃ x ∈ d'.store.incidents, x.Same i
  opened : ∃ new : List Fix, d'.fixes = d.fixes ++ new ∧ ∀ fix ∈ new, ∃ i ∈ d'.store.incidents,
    fix.incidentId = i.incidentId ∧ i.openedByRun = runId ∧ i.openedAt = time

theorem Staffed.foldlM_ingest {given : List Fix} (h : w.Staffed given d) {runId : String}
    {time : Timestamp} {calls : List IngestCall}
    (hcalls : ∀ call ∈ calls, call.runId = runId ∧ call.detected = some time)
    (hok : calls.foldlM w.ingest d = .ok d') :
    w.Handles given d runId time d' ∧
      d'.store = calls.foldl (fun store call => call.after store) d.store := by
  induction calls generalizing d with
  | nil =>
    obtain rfl := pure_eq_ok.mp hok
    exact ⟨⟨h, fun i hi => ⟨i, hi, .rfl⟩, [], (List.append_nil _).symm, nofun⟩, rfl⟩
  | cons call calls ih =>
    obtain ⟨hfirst, hrest⟩ := List.forall_mem_cons.mp hcalls
    rw [List.foldlM_cons] at hok
    obtain ⟨d₁, hd₁, hok⟩ := bind_eq_ok.mp hok
    obtain ⟨hstaffed, hstore, new, hfixes, hnew⟩ := h.ingest w hd₁
    obtain ⟨hhandles, hfold⟩ := ih hstaffed hrest hok
    obtain ⟨new', hfixes', hnew'⟩ := hhandles.opened
    refine ⟨⟨hhandles.staffed, ?_, new ++ new', ?_, ?_⟩, ?_⟩
    · intro i hi
      obtain ⟨x, hx, hsame⟩ := exists_same_after call h.sound hi
      obtain ⟨y, hy, hsame'⟩ := hhandles.kept x (hstore ▸ hx)
      exact ⟨y, hy, hsame'.trans hsame⟩
    · rw [hfixes', hfixes, List.append_assoc]
    · intro fix hfix
      rcases List.mem_append.mp hfix with hfix | hfix
      · obtain ⟨i, hi, hid, hrun, htime⟩ := hnew fix hfix
        obtain ⟨x, hx, hsame⟩ := hhandles.kept i hi
        refine ⟨x, hx, ?_, ?_, ?_⟩
        · rw [hid, Incident.incidentId, Incident.incidentId, hsame.seq]
        · rw [hsame.openedByRun, hrun, hfirst.1]
        · rw [hsame.openedAt, htime, IngestCall.now, hfirst.2]
          rfl
      · exact hnew' fix hfix
    · rw [hfold, hstore]
      rfl

theorem mem_callsOf {log : Log} {op : Op} {call : IngestCall} (h : call ∈ w.callsOf log op) :
    ∃ invocation ∈ op.invocations, call.runId = invocation.runId ∧
      call.detected = some invocation.time := by
  obtain ⟨⟨invocation, n⟩, hmem, rfl⟩ := List.mem_map.mp h
  exact ⟨invocation, List.fst_mem_of_mem_zipIdx hmem, rfl, rfl⟩

theorem mem_callsOf_rerun (log : Log) (fix : Fix) :
    ∀ call ∈ w.callsOf log (.rerun fix), call.runId = rerunRun fix ∧
      call.detected = some fix.time := by
  intro call hcall
  obtain ⟨invocation, hmem, hrun, htime⟩ := w.mem_callsOf hcall
  obtain ⟨_, -, rfl⟩ := List.mem_map.mp hmem
  exact ⟨hrun, htime⟩

theorem mem_callsOf_production (log : Log) (time : Timestamp) :
    ∀ call ∈ w.callsOf log (.production time), call.runId = nightRun time ∧
      call.detected = some time := by
  intro call hcall
  obtain ⟨invocation, hmem, hrun, htime⟩ := w.mem_callsOf hcall
  obtain ⟨_, -, rfl⟩ := List.mem_map.mp hmem
  exact ⟨hrun, htime⟩

/-! ## The log, seen by the desk -/

theorem handle_unwatched {log : Log} {op : Op} (h : op.isUnwatched = true) :
    w.handle log d op = .ok d := by
  cases op <;> first | rfl | cases h

theorem replayFrom_append (before log log' : Log) (d : CompanyDesk) :
    w.replayFrom before d (log ++ log') =
      w.replayFrom before d log >>= fun d => w.replayFrom (before ++ log) d log' := by
  induction log generalizing before d with
  | nil =>
    rw [List.nil_append, List.append_nil]
    rfl
  | cons entry log ih =>
    simp only [List.cons_append, replayFrom, bind_assoc]
    congr 1
    funext d
    rw [ih, List.append_assoc, List.singleton_append]

theorem replay_append (log log' : Log) :
    w.replay (log ++ log') = w.replay log >>= fun d => w.replayFrom log d log' := by
  rw [replay, replayFrom_append, List.nil_append]
  rfl

theorem replayFrom_unwatched {before : Log} {day : ℕ} {ops : List Op}
    (h : ops.all Op.isUnwatched = true) : w.replayFrom before d (dated day ops) = .ok d := by
  induction ops generalizing before with
  | nil => rfl
  | cons op ops ih =>
    rw [List.all_cons, Bool.and_eq_true] at h
    rw [dated_cons, replayFrom, w.handle_unwatched h.1]
    exact ih h.2

/-- What the desk does not see, it passes over. -/
theorem replay_append_unwatched {log : Log} {day : ℕ} {ops : List Op}
    (h : ops.all Op.isUnwatched = true) : w.replay (log ++ dated day ops) = w.replay log := by
  rw [replay_append]
  cases w.replay log with
  | error e => rfl
  | ok d => exact w.replayFrom_unwatched h

theorem replay_concat {log : Log} {entry : ℕ × Op} (hok : w.replay (log ++ [entry]) = .ok d') :
    ∃ d, w.replay log = .ok d ∧ w.handle log d entry.2 = .ok d' := by
  rw [replay_append] at hok
  obtain ⟨d, hd, hrest⟩ := bind_eq_ok.mp hok
  obtain ⟨d₁, hd₁, heq⟩ := bind_eq_ok.mp hrest
  obtain rfl := pure_eq_ok.mp heq
  exact ⟨d, hd, hd₁⟩

/-- The times of the desk's calls are those of the invocations. -/
theorem detected_callsFrom (before log : Log) :
    (w.callsFrom before log).map IngestCall.detected = log.detections.map some := by
  induction log generalizing before with
  | nil => rfl
  | cons entry log ih =>
    rw [callsFrom, List.map_append, ih, Log.detections_cons, List.map_append, callsOf, List.map_map]
    congr 1
    generalize entry.2.invocations = invocations
    have hfst := congrArg (List.map fun invocation : Invocation => some invocation.time)
      (List.zipIdx_map_fst 0 invocations)
    rw [List.map_map] at hfst
    rw [List.map_map]
    exact hfst

/-- **The desk's store is that of its calls**, one ingest after the other. -/
theorem Staffed.replayFrom_store {given : List Fix} (h : w.Staffed given d) {before log : Log}
    (hok : w.replayFrom before d log = .ok d') :
    d'.store = (w.callsFrom before log).foldl (fun store call => call.after store) d.store := by
  induction log generalizing before d given with
  | nil =>
    obtain rfl := Except.ok.inj hok
    rfl
  | cons entry log ih =>
    obtain ⟨d₁, hd₁, hrest⟩ := bind_eq_ok.mp hok
    have hstep : (∃ given', w.Staffed given' d₁) ∧ d₁.store =
        (w.callsOf before entry.2).foldl (fun store call => call.after store) d.store := by
      cases hop : entry.2 <;> rw [hop] at hd₁
      case production time =>
        obtain ⟨hhandles, hstore⟩ := h.foldlM_ingest w (w.mem_callsOf_production _ _) hd₁
        exact ⟨⟨_, hhandles.staffed⟩, hstore⟩
      case rerun fix =>
        obtain ⟨hhandles, hstore⟩ := h.foldlM_ingest w (w.mem_callsOf_rerun _ _) hd₁
        exact ⟨⟨_, hhandles.staffed⟩, hstore⟩
      case fixes =>
        obtain rfl := Except.ok.inj hd₁
        exact ⟨⟨_, h.drain⟩, rfl⟩
      -- the desk does not see the others
      all_goals
        obtain rfl := Except.ok.inj hd₁
        exact ⟨⟨given, h⟩, rfl⟩
    obtain ⟨⟨given', hstaffed⟩, hstore⟩ := hstep
    rw [ih hstaffed hrest, hstore, callsFrom, List.foldl_append]

theorem replay_store {log : Log} (hok : w.replay log = .ok d) :
    d.store = (w.calls log).foldl (fun store call => call.after store) {} :=
  w.staffed_start.replayFrom_store w hok

theorem nodes_calls {before log : Log} :
    ∀ call ∈ w.callsFrom before log, call.ctx.nodes = w.ctx.nodes := by
  induction log generalizing before with
  | nil => exact nofun
  | cons entry log ih =>
    intro call hcall
    rcases List.mem_append.mp hcall with hcall | hcall
    · obtain ⟨_, -, rfl⟩ := List.mem_map.mp hcall
      rfl
    · exact ih call hcall

end Watch

/-- Calls in the order of their detection times are a run of the clocked desk. -/
theorem run_clockedStep {nodes : Manifest} {calls : List IngestCall}
    (hnodes : ∀ call ∈ calls, call.ctx.nodes = nodes) {times : List Timestamp}
    (htimes : calls.map IngestCall.detected = times.map some) (horder : times.Pairwise (· ≤ ·))
    {clock : Timestamp} (hclock : ∀ time ∈ times, clock ≤ time) (store : Store) :
    ∃ last, Machine.Run clockedStep (InOrderOn nodes) (clock, store) calls
      (last, calls.foldl (fun store call => call.after store) store) := by
  induction calls generalizing times clock store with
  | nil => exact ⟨clock, .nil _⟩
  | cons call calls ih =>
    obtain ⟨time, times, rfl, htime, hrest⟩ := List.map_eq_cons_iff.mp htimes.symm
    obtain ⟨hfirst, hnodes⟩ := List.forall_mem_cons.mp hnodes
    obtain ⟨hle, horder⟩ := List.pairwise_cons.mp horder
    obtain ⟨hclock, hclocks⟩ := List.forall_mem_cons.mp hclock
    have hnow : call.now store = time := by
      rw [IngestCall.now, ← htime]
      rfl
    -- nothing fresh leaves the clock where it is
    have hlater : ∀ later ∈ times,
        (if call.fresh store = [] then clock else call.now store) ≤ later := by
      intro later hlater
      split
      · exact hclocks later hlater
      · exact hnow ▸ hle later hlater
    obtain ⟨last, hrun⟩ := ih hnodes hrest.symm horder hlater (call.after store)
    exact ⟨last, .cons ⟨hfirst, .inr (hnow ▸ hclock)⟩ rfl hrun⟩

/-! ## One day -/

namespace Company

variable (c : Company) (w : Watch) {s s' : RunState} {index days : ℕ}

/-- The incident of a fix was opened by a rerun, or by the night on which it was found. -/
def OpenedBy (d : CompanyDesk) (handed : ℕ × Fix) : Prop :=
  ∃ i ∈ d.store.incidents, handed.2.incidentId = i.incidentId ∧
    (startsWith i.openedByRun "rerun-" = true ∨ i.openedAt = c.runAt handed.1)

theorem OpenedBy.kept {c : Company} {d d' : CompanyDesk} {handed : ℕ × Fix}
    (h : c.OpenedBy d handed)
    (hkept : ∀ i ∈ d.store.incidents, ∃ x ∈ d'.store.incidents, x.Same i) :
    c.OpenedBy d' handed := by
  obtain ⟨i, hi, hid, hopened⟩ := h
  obtain ⟨x, hx, hsame⟩ := hkept i hi
  refine ⟨x, hx, ?_, ?_⟩
  · rw [hid, Incident.incidentId, Incident.incidentId, hsame.seq]
  · rwa [hsame.openedByRun, hsame.openedAt]

/-- A fix waiting at the desk for the end of a day: a rerun of the day opened its incident. -/
def Waiting (d : CompanyDesk) (fix : Fix) : Prop :=
  ∃ i ∈ d.store.incidents, fix.incidentId = i.incidentId ∧
    startsWith i.openedByRun "rerun-" = true

theorem Waiting.kept {d d' : CompanyDesk} {fix : Fix} (h : Waiting d fix)
    (hkept : ∀ i ∈ d.store.incidents, ∃ x ∈ d'.store.incidents, x.Same i) : Waiting d' fix := by
  obtain ⟨i, hi, hid, hopened⟩ := h
  obtain ⟨x, hx, hsame⟩ := hkept i hi
  refine ⟨x, hx, ?_, ?_⟩
  · rw [hid, Incident.incidentId, Incident.incidentId, hsame.seq]
  · rwa [hsame.openedByRun]

/-- What holds of the desk in the middle of a day. -/
private structure Noon (index : ℕ) (s m : RunState) : Prop where
  handed : m.log.handed = s.log.handed
  desk : ∀ d, w.replay m.log = .ok d → w.Staffed (s.log.handed.map Prod.snd) d ∧
    (∀ h ∈ s.log.handed, c.OpenedBy d h) ∧ (∀ fix ∈ d.fixes, Waiting d fix) ∧
    (d.fixes ≠ [] → c.timeline.production index = true)

/-- What holds of the desk between two days: it has handed out all it has found. -/
structure Watching (days : ℕ) (s : RunState) : Prop where
  scheduled : c.Scheduled days s
  produced : ∀ h ∈ s.log.handed, c.timeline.production h.1 = true
  desk : ∀ d, w.replay s.log = .ok d → w.Staffed (s.log.handed.map Prod.snd) d ∧
    (∀ h ∈ s.log.handed, c.OpenedBy d h) ∧ d.fixes = []

theorem production_of_le {index' : ℕ} (h : c.timeline.production index = true)
    (hle : index ≤ index') : c.timeline.production index' = true := by
  simp only [Timeline.production, decide_eq_true_eq] at h ⊢
  exact h.trans hle

private theorem noon_happen {m m' : RunState} {lastLoad : Timestamp} {happening : Happening}
    (h : c.Noon w index s m)
    (hdesk : happening.rerun.isSome → c.surroundings.desk.isSome)
    (hprod : happening.rerun.isSome → c.timeline.production index = true)
    (hok : c.happen index lastLoad m happening = .ok m') : c.Noon w index s m' := by
  obtain ⟨ops, hops, hlog⟩ := c.log_happen_watched hdesk hok
  refine ⟨(c.reruns_happen hdesk hok).2.trans h.handed, fun d' hd' => ?_⟩
  rw [hlog, dated_append, ← List.append_assoc] at hd'
  cases hrerun : happening.rerun with
  | none =>
    rw [hrerun, Option.map_none, Option.toList_none, dated_nil, List.append_nil,
      w.replay_append_unwatched hops] at hd'
    exact h.desk d' hd'
  | some fix =>
    rw [hrerun, Option.map_some, Option.toList_some, dated_cons, dated_nil] at hd'
    obtain ⟨d, hd, hhandle⟩ := w.replay_concat hd'
    rw [w.replay_append_unwatched hops] at hd
    obtain ⟨hstaffed, hopened, hwaiting, -⟩ := h.desk d hd
    obtain ⟨hhandles, -⟩ := hstaffed.foldlM_ingest w (w.mem_callsOf_rerun _ fix) hhandle
    obtain ⟨new, hfixes, hnew⟩ := hhandles.opened
    refine ⟨hhandles.staffed, fun e he => (hopened e he).kept hhandles.kept, ?_, fun _ => ?_⟩
    · intro fix' hfix'
      rw [hfixes, List.mem_append] at hfix'
      rcases hfix' with hfix' | hfix'
      · exact (hwaiting fix' hfix').kept hhandles.kept
      · obtain ⟨i, hi, hid, hrun, -⟩ := hnew fix' hfix'
        refine ⟨i, hi, hid, ?_⟩
        rw [hrun]
        simp [startsWith, rerunRun, String.toList_append]
    · exact hprod (hrerun ▸ rfl)

/-- What happens on a day is rerun only in production. -/
private theorem Watching.production_of_rerun (h : c.Watching w index s) :
    ∀ happening ∈ c.happened index s.pending, happening.rerun.isSome →
      c.timeline.production index = true := by
  intro happening hmem hrerun
  obtain ⟨fix, hfix⟩ := Option.isSome_iff_exists.mp hrerun
  have htoday := List.mem_filterMap.mpr ⟨happening, hmem, hfix⟩
  rw [((c.filterMap_rerun_happened index s.pending).trans (h.scheduled.landed c)).mem_iff] at htoday
  obtain ⟨handed, hhanded, -⟩ := List.mem_map.mp htoday
  obtain ⟨hhanded, -⟩ := List.mem_filter.mp hhanded
  exact c.production_of_le (h.produced handed hhanded) (h.scheduled.earlier handed hhanded).le

private theorem Watching.noon (h : c.Watching w index s) {m : RunState}
    (hm : (c.happened index s.pending).foldlM (c.happen index s.loadedUntil)
      (c.morning index s) = .ok m) : c.Noon w index s m := by
  refine c.of_happenings (I := fun _ => c.Noon w index s) hm ?_ ?_
  · obtain ⟨ops, hops, hlog⟩ := @unwatched_morning c s index
    refine ⟨c.reruns_morning.2, fun d hd => ?_⟩
    rw [hlog, w.replay_append_unwatched hops] at hd
    obtain ⟨hstaffed, hopened, hnone⟩ := h.desk d hd
    rw [hnone]
    exact ⟨hstaffed, hopened, nofun, fun hne => absurd rfl hne⟩
  · intro done happening rest m₁ m₂ hl hm₁ hstep
    have hmem : happening ∈ c.happened index s.pending :=
      hl ▸ List.mem_append_right _ (List.mem_cons_self ..)
    exact c.noon_happen w hm₁ (h.scheduled.watched_happened c happening hmem)
      (h.production_of_rerun c w happening hmem) hstep

private theorem watching_day (hw : c.surroundings.desk = some w.fixes)
    (h : c.Watching w index s) (hok : c.runDay s index = .ok s') :
    c.Watching w (index + 1) s' := by
  have hscheduled := c.scheduled_day h.scheduled hok
  obtain ⟨m, hm, rfl⟩ := c.runDay_eq_ok hok
  generalize (s.delivered && !c.timeline.delivered index) = backfill at hscheduled ⊢
  generalize (s.planted.elim "" fun p => p.fault.faultId) = repaired at hscheduled ⊢
  have hnoon := h.noon c w hm
  obtain ⟨before, after, hbefore, hafter, hlog, hfound⟩ :=
    c.log_evening_watched index backfill repaired m
  have hhanded := (c.handed_evening index backfill repaired m).2
  rw [hnoon.handed] at hhanded
  rw [hw] at hfound
  rcases Bool.eq_false_or_eq_true (c.timeline.production index) with hprod | hprod
  · -- the night is handed to the desk, and then it is asked for the fixes
    rw [nightOps, hprod, if_pos rfl, Option.map_some, if_pos rfl] at hfound
    rw [hfound, nightOps, hprod, if_pos rfl, Option.map_some, Option.toList_some] at hlog
    rw [hfound, Option.getD_some] at hhanded
    refine ⟨hscheduled, ?_, fun d hd => ?_⟩
    · intro handed hmem
      rw [hhanded, List.mem_append, List.mem_map] at hmem
      rcases hmem with hmem | ⟨fix, -, rfl⟩
      · exact h.produced handed hmem
      · exact hprod
    · rw [hlog, dated_append, dated_append, dated_append, ← List.append_assoc, ← List.append_assoc,
        ← List.append_assoc, w.replay_append_unwatched hafter] at hd
      obtain ⟨d₂, hd₂, hdrain⟩ := w.replay_concat hd
      obtain rfl := Except.ok.inj hdrain
      obtain ⟨d₁, hd₁, hhandle⟩ := w.replay_concat hd₂
      rw [w.replay_append_unwatched hbefore] at hd₁
      obtain ⟨hstaffed, hopened, hwaiting, -⟩ := hnoon.desk d₁ hd₁
      obtain ⟨hhandles, -⟩ := hstaffed.foldlM_ingest w
        (w.mem_callsOf_production _ (c.runAt index)) hhandle
      have hfixes : w.fixes (m.log ++ dated index (before ++ [.production (c.runAt index)])) =
          d₂.fixes := by
        rw [dated_append, ← List.append_assoc, Watch.fixes, hd₂]
      rw [hfixes] at hhanded
      rw [hhanded]
      refine ⟨?_, ?_, rfl⟩
      · rw [List.map_append, List.map_map]
        have hsnd : d₂.fixes.map (Prod.snd ∘ fun fix => (index, fix)) = d₂.fixes :=
          List.map_id _
        rw [hsnd]
        exact hhandles.staffed.drain w
      · obtain ⟨new, hnews, hnew⟩ := hhandles.opened
        intro handed hmem
        rw [List.mem_append, List.mem_map] at hmem
        rcases hmem with hmem | ⟨fix, hfix, rfl⟩
        · exact (hopened handed hmem).kept hhandles.kept
        · rw [hnews, List.mem_append] at hfix
          rcases hfix with hfix | hfix
          · obtain ⟨i, hi, hid, hrun⟩ := (hwaiting fix hfix).kept hhandles.kept
            exact ⟨i, hi, hid, .inl hrun⟩
          · obtain ⟨i, hi, hid, -, htime⟩ := hnew fix hfix
            exact ⟨i, hi, hid, .inr htime⟩
  · have hnot : ¬ c.timeline.production index = true := Bool.eq_false_iff.mp hprod
    rw [if_neg hnot] at hfound
    rw [hfound, nightOps, if_neg hnot, List.append_nil, Option.map_none, Option.toList_none,
      List.append_nil, dated_append, ← List.append_assoc] at hlog
    rw [hfound, Option.getD_none, List.map_nil, List.append_nil] at hhanded
    refine ⟨hscheduled, hhanded ▸ h.produced, fun d hd => ?_⟩
    rw [hlog, w.replay_append_unwatched hafter, w.replay_append_unwatched hbefore] at hd
    obtain ⟨hstaffed, hopened, -, hfixes⟩ := hnoon.desk d hd
    rw [hhanded]
    refine ⟨hstaffed, hopened, ?_⟩
    by_contra hne
    exact hnot (hfixes hne)

theorem watching_after (hw : c.surroundings.desk = some w.fixes)
    (hok : c.after days = .ok s) : c.Watching w days s := by
  refine c.of_days (I := c.Watching w) ?_ (fun _ _ _ => c.watching_day w hw) hok
  refine ⟨@scheduled_after c _ 0 rfl, fun _ h => absurd h List.not_mem_nil, ?_⟩
  intro d hd
  obtain rfl := Except.ok.inj hd
  exact ⟨w.staffed_start, fun _ h => absurd h List.not_mem_nil, rfl⟩

end Company

/-! ## A small company -/

/-- Three nights of production. -/
def threeNights : Company where
  settings := { twoWeeks.settings with parallelRunWeeks := 0, faultDays := [] }
  totalDays := 3
  surroundings := twoWeeks.surroundings

/-- A desk for which the second model fails, on the first night. -/
def failingNight : Watch where
  ctx := twoModelsContext
  lifecycle :=
    { ackMinutes := fun _ => 30
      resolveHours := fun _ => 4
      loadFactor := 1 / 2
      seed := 42
      ackMinutes_pos := fun _ => by decide
      resolveHours_pos := fun _ => by decide
      loadFactor_nonneg := by norm_num }
  stableHash := fun _ _ _ => 2 ^ 63
  results := fun log _ command =>
    if command = ["run"] ∧ log.length < 10 then
      [⟨"0", .runResults, 0, [⟨"model.b", "error", "", ""⟩]⟩]
    else []

private theorem failingNight_run : ∃ s d, (threeNights.watchedBy failingNight).after 3 = .ok s ∧
    failingNight.replay s.log = .ok d ∧
    s.log.reruns.map (fun rerun => (rerun.1, rerun.2.incidentId)) = [(1, "INC-001")] ∧
    ∀ i ∈ d.store.incidents, startsWith i.openedByRun "rerun-" ≠ true := by
  have hruns : Ends ((threeNights.watchedBy failingNight).after 3) (fun _ => False) fun s =>
      Ends (failingNight.replay s.log) (fun _ => False) fun d =>
        s.log.reruns.map (fun rerun => (rerun.1, rerun.2.incidentId)) = [(1, "INC-001")] ∧
          ∀ i ∈ d.store.incidents, startsWith i.openedByRun "rerun-" ≠ true := by
    decide +kernel
  cases hs : (threeNights.watchedBy failingNight).after 3 with
  | error e => exact (hruns.raised hs).elim
  | ok s =>
    have hruns := hruns.returned hs
    cases hd : failingNight.replay s.log with
    | error e => exact (hruns.raised hd).elim
    | ok d => exact ⟨s, d, rfl, hd, hruns.returned hd⟩

/-! ## The run -/

namespace Company

variable (c : Company) (w : Watch) {s : RunState} {d : CompanyDesk} {days : ℕ}

/-- **No fix is lost and none is done twice.** In every run of the company under its own
desk, after any number of days and as long as the desk has not raised: each incident of the
store was answered once, no sooner than it was opened, and has one fix, which landed no
sooner than the answer, covers the sources at or above the root and checks the root again;
and each fix is either pending with the company or was rerun once. -/
theorem one_fix_per_incident (hok : (c.watchedBy w).after days = .ok s)
    (hdesk : w.replay s.log = .ok d) :
    (d.store.incidents.map Incident.incidentId).Nodup ∧
    (∃ answers : List (ResponseRow × Fix), answers.map Prod.fst = d.responses ∧
      answers.map Prod.snd = s.log.handed.map Prod.snd ∧
      List.Forall₂ (fun i answer => Answered w i answer.1 answer.2) d.store.incidents answers) ∧
    (s.log.reruns.map (fun rerun => rerun.2.incidentId) ++ s.pending.map Fix.incidentId).Perm
      (d.store.incidents.map Incident.incidentId) := by
  have hwatching := (c.watchedBy w).watching_after w rfl hok
  obtain ⟨hstaffed, -, hnone⟩ := hwatching.desk d hdesk
  obtain ⟨answers, hresponses, hfixes, hall⟩ := hstaffed.answered
  have hids := hstaffed.incidentIds w
  rw [hnone, List.append_nil] at hfixes hids
  refine ⟨?_, ⟨answers, hresponses, hfixes, hall⟩, ?_⟩
  · rw [List.nodup_map_iff_inj_on (List.Nodup.of_map _ hstaffed.sound.numbered)]
    intro i hi j hj hij
    exact hstaffed.sound.numbered.eq_of_seq hi hj (incidentId_injective hij)
  · -- every fix has something to rerun, so it is due before today or still pending
    have hcommands : ∀ handed ∈ s.log.handed, handed.2.commands ≠ [] := by
      intro handed hhanded
      obtain ⟨_, -, _, hanswered⟩ := hstaffed.exists_answered w
        (List.mem_append_left _ (List.mem_map_of_mem hhanded))
      exact hanswered.rerun
    have hdue : s.log.handed.filter (fun h => h.2.commands ≠ [] ∧ (c.watchedBy w).due h < days) =
        s.log.handed.filter fun h => (c.watchedBy w).due h < days := by
      refine List.filter_congr fun h hh => ?_
      simp [hcommands h hh]
    have hreruns := hwatching.scheduled.reruns
    rw [hdue] at hreruns
    rw [← hids, List.map_map]
    refine ((hreruns.map _).append (hwatching.scheduled.pending.map _)).trans ?_
    rw [List.map_map, List.map_map]
    have hsplit := (List.filter_append_perm (fun h => (c.watchedBy w).due h < days)
      s.log.handed).map fun h : ℕ × Fix => h.2.incidentId
    rw [List.map_append] at hsplit
    refine List.Perm.trans (List.Perm.of_eq ?_) hsplit
    congr 2
    refine List.filter_congr fun h _ => ?_
    rw [← decide_not, decide_eq_decide, not_lt]

theorem one_fix_per_incident_three_nights :
    ∃ s d, (threeNights.watchedBy failingNight).after 3 = .ok s ∧
      failingNight.replay s.log = .ok d ∧
      (s.log.reruns.map (fun rerun => rerun.2.incidentId) ++ s.pending.map Fix.incidentId).Perm
        (d.store.incidents.map Incident.incidentId) := by
  obtain ⟨s, d, hs, hd, -⟩ := failingNight_run
  exact ⟨s, d, hs, hd, (threeNights.one_fix_per_incident failingNight hs hd).2.2⟩

/-- The times of the invocations go back only with an incident that a rerun opened. -/
private theorem pairwise_detections_iff (hok : (c.watchedBy w).after days = .ok s)
    (hdesk : w.replay s.log = .ok d) : s.log.detections.Pairwise (· ≤ ·) ↔
      ∀ h ∈ s.log.handed, c.due h < days → (∃ i ∈ d.store.incidents,
        i.incidentId = h.2.incidentId ∧ startsWith i.openedByRun "rerun-" = true) →
          c.runAt h.1 ≤ h.2.time := by
  have hwatching := (c.watchedBy w).watching_after w rfl hok
  obtain ⟨hstaffed, hopened, -⟩ := hwatching.desk d hdesk
  have hanswer : ∀ h ∈ s.log.handed, ∃ i ∈ d.store.incidents, ∃ row, Answered w i row h.2 :=
    fun h hh => hstaffed.exists_answered w (List.mem_append_left _ (List.mem_map_of_mem hh))
  rw [((c.watchedBy w).timely_after hok).inOrder]
  constructor
  · intro hall h hh hdue _
    obtain ⟨_, -, _, hanswered⟩ := hanswer h hh
    exact hall h hh hanswered.rerun hdue
  · intro hall h hh _ hdue
    obtain ⟨i, hi, hid, hrerun | hnight⟩ := hopened h hh
    · exact hall h hh hdue ⟨i, hi, hid.symm, hrerun⟩
    · -- opened by the night, answered after it, fixed after that
      obtain ⟨j, hj, row, hanswered⟩ := hanswer h hh
      obtain rfl : j = i := hstaffed.sound.numbered.eq_of_seq hj hi
        (incidentId_injective (hanswered.incidentId.symm.trans hid))
      rw [hanswered.time]
      exact (hnight.symm.le.trans hanswered.acknowledged).trans hanswered.fixed

/-- **Only an incident that a rerun opens can turn the time back**: under its own desk the
company's invocations are ingested in the order of their times exactly when no such
incident is fixed before the night of the same day. -/
theorem calls_in_time_order_iff (hok : (c.watchedBy w).after days = .ok s)
    (hdesk : w.replay s.log = .ok d) :
    (w.calls s.log).Pairwise (fun call call' => ∀ time ∈ call.detected, ∀ time' ∈ call'.detected,
      time ≤ time') ↔
    ∀ h ∈ s.log.handed, c.due h < days → (∃ i ∈ d.store.incidents,
      i.incidentId = h.2.incidentId ∧ startsWith i.openedByRun "rerun-" = true) →
        c.runAt h.1 ≤ h.2.time := by
  have hdetected := w.detected_callsFrom [] s.log
  rw [← c.pairwise_detections_iff w hok hdesk, ← List.pairwise_map (f := IngestCall.detected)
    (R := fun first second => ∀ time ∈ first, ∀ time' ∈ second, time ≤ time'), Watch.calls,
    hdetected, List.pairwise_map]
  simp only [Option.mem_some_iff, forall_eq']

theorem calls_in_time_order_three_nights :
    ∃ s d, (threeNights.watchedBy failingNight).after 3 = .ok s ∧
      failingNight.replay s.log = .ok d ∧
      ((failingNight.calls s.log).Pairwise (fun call call' => ∀ time ∈ call.detected,
        ∀ time' ∈ call'.detected, time ≤ time') ↔
      ∀ h ∈ s.log.handed, threeNights.due h < 3 → (∃ i ∈ d.store.incidents,
        i.incidentId = h.2.incidentId ∧ startsWith i.openedByRun "rerun-" = true) →
          threeNights.runAt h.1 ≤ h.2.time) := by
  obtain ⟨s, d, hs, hd, -⟩ := failingNight_run
  exact ⟨s, d, hs, hd, threeNights.calls_in_time_order_iff failingNight hs hd⟩

/-- **Production is a run of the desk.** Where no incident that a rerun opened was fixed
before the night of its day, the company's production is a run of the desk in the order of
the detection times, on one manifest, and leaves the store of that run. -/
theorem run_desk_of_production (hok : (c.watchedBy w).after days = .ok s)
    (hdesk : w.replay s.log = .ok d)
    (hreruns : ∀ h ∈ s.log.handed, c.due h < days → (∃ i ∈ d.store.incidents,
      i.incidentId = h.2.incidentId ∧ startsWith i.openedByRun "rerun-" = true) →
        c.runAt h.1 ≤ h.2.time) :
    ∃ start last, Machine.Run clockedStep (InOrderOn w.ctx.nodes) (start, {}) (w.calls s.log)
      (last, d.store) := by
  have horder : s.log.detections.Pairwise (· ≤ ·) :=
    (c.pairwise_detections_iff w hok hdesk).mpr hreruns
  obtain ⟨start, hstart⟩ : ∃ start : Timestamp, ∀ time ∈ s.log.detections, start ≤ time := by
    cases hdetections : s.log.detections with
    | nil => exact ⟨0, nofun⟩
    | cons first rest =>
      rw [hdetections] at horder
      obtain ⟨hle, -⟩ := List.pairwise_cons.mp horder
      exact ⟨first, List.forall_mem_cons.mpr ⟨le_rfl, hle⟩⟩
  obtain ⟨last, hrun⟩ := run_clockedStep w.nodes_calls (w.detected_callsFrom [] s.log) horder
    hstart {}
  rw [w.replay_store hdesk]
  exact ⟨start, last, hrun⟩

theorem run_desk_of_production_three_nights :
    ∃ s d, (threeNights.watchedBy failingNight).after 3 = .ok s ∧
      failingNight.replay s.log = .ok d ∧ ∃ start last,
        Machine.Run clockedStep (InOrderOn twoModels) (start, {}) (failingNight.calls s.log)
          (last, d.store) := by
  obtain ⟨s, d, hs, hd, hreruns, hopened⟩ := failingNight_run
  refine ⟨s, d, hs, hd, threeNights.run_desk_of_production failingNight hs hd ?_⟩
  rintro h hh hdue ⟨i, hi, -, hrerun⟩
  exact absurd hrerun (hopened i hi)

end Company

end PlatformOps.Simulation
