import PlatformOps.Simulation.CrashSafety

/-!
# Ingestion Converges to the Legacy Table

With the fixed job, whole-second and non-decreasing `until`s, and no commit older
than the overlap allows, every legacy row is either what a read with `FINAL`
returns for its key, or one that the next load still reads. A load whose `until`
is at least every `updated_at` reads the rest, so raw then equals the legacy
table.

- `Steady`: the condition on each event.
- `Converging`, `converging_step`: the invariant and its step lemma.
- `load_converges`: the main result.
-/

namespace PlatformOps.Simulation

open Machine

variable {V : Type} {job : Job V}

/-! ## The condition on each event -/

/-- A table's last `loaded_until`: recorded, or of the call under way once it has read it. -/
def World.lastLoaded (w : World V) (t : Table) : Option Timestamp :=
  match w.running with
  | some f => if t ∈ f.readTables then some f.call.until else w.watermark t
  | none => w.watermark t

variable (job) in
/-- Upserts whose `updated_at` never decreases for a key, stamped later than the table's
last `loaded_until` minus the overlap; calls that succeed, with whole-second,
non-decreasing `until` and nothing nulled. -/
def Steady (w : World V) : Event V → Prop
  | .commit t row =>
    (∀ r ∈ w.legacy t, r.key = row.key → r.updatedAt ≤ row.updatedAt) ∧
      ∀ last ∈ w.lastLoaded t, last - job.overlap < row.updatedAt
  | .call c =>
    c.nulled = [] ∧ Job.ts c.until = c.until ∧ ∀ l ∈ w.loads, l.loadedUntil ≤ c.until
  | .raise _ => False
  | _ => True

instance (w : World V) : (e : Event V) → Decidable (Steady job w e)
  | .commit t _ => inferInstanceAs (Decidable ((∀ r ∈ w.legacy t, _) ∧ _))
  | .merge _ _ => isTrue trivial
  | .call c => inferInstanceAs (Decidable (c.nulled = [] ∧ _))
  | .statement => isTrue trivial
  | .raise _ => isFalse id

/-! ## Facts about the fixed job -/

/-- What the fixed job reads of a row is the row. -/
theorem Job.read_eq_self (hjob : job.delivered = false) (t : Table) (r : Row V) :
    job.read t [] r = r := by
  have hcells : (r.cells.map fun cell => (cell.1, job.expression t cell.1 cell.2)) = r.cells := by
    simp [Job.expression, hjob]
  simp [Job.read, hcells]

theorem Job.ts_sub_overlap {mark : Timestamp} (h : Job.ts mark = mark) :
    Job.ts (mark - job.overlap) = mark - job.overlap := by
  simp only [Job.ts, Job.overlap, Duration.minutes, Duration.seconds] at h ⊢
  lia

/-- The fixed job reads the rows stamped after `since` and up to `until`. -/
theorem Job.not_selected (hjob : job.delivered = false) {t : Table} {since : Option Timestamp}
    {upTo : Timestamp} {r : Row V} (h : ¬ job.selected t since upTo r = true) :
    Job.ts upTo < r.updatedAt ∨ ∃ s ∈ since, r.updatedAt ≤ Job.ts s := by
  have hdropped : job.dropped t r = false := by simp [Job.dropped, hjob]
  rw [Job.selected_iff] at h
  by_contra hnot
  simp only [not_or, not_lt, not_exists, not_and, not_le] at hnot
  exact h ⟨hnot.2, hnot.1, hdropped⟩

theorem mem_upsert_self (row : Row V) (rows : List (Row V)) : row ∈ upsert row rows := by
  rw [upsert]
  split
  · rename_i hmem
    obtain ⟨r, hr, hkey⟩ := List.mem_map.mp hmem
    exact List.mem_map.mpr ⟨r, hr, if_pos hkey⟩
  · simp

theorem mem_upsert_of_ne {row r : Row V} {rows : List (Row V)} (hr : r ∈ rows)
    (hne : r.key ≠ row.key) : r ∈ upsert row rows := by
  rw [upsert]
  split
  · exact List.mem_map.mpr ⟨r, hr, if_neg hne⟩
  · exact List.mem_append_left _ hr

/-- An upsert keeps the primary key unique. -/
theorem nodup_keys_upsert {row : Row V} {rows : List (Row V)} (h : (rows.map Row.key).Nodup) :
    ((upsert row rows).map Row.key).Nodup := by
  rw [upsert]
  split
  · have hkeys : (rows.map fun r => if r.key = row.key then row else r).map Row.key =
        rows.map Row.key := by
      rw [List.map_map]
      refine List.map_congr_left fun r _ => ?_
      by_cases hr : r.key = row.key
      · simp [hr]
      · simp [hr]
    rwa [hkeys]
  · rename_i hnew
    rw [List.map_append, List.map_cons, List.map_nil]
    refine List.nodup_append.mpr ⟨h, by simp, fun k hk k' hk' => ?_⟩
    rw [List.mem_singleton] at hk'
    exact fun heq => hnew (hk' ▸ heq ▸ hk)

theorem eq_of_key_eq {rows : List (Row V)} (h : (rows.map Row.key).Nodup) {r r' : Row V}
    (hr : r ∈ rows) (hr' : r' ∈ rows) (hkey : r.key = r'.key) : r = r' :=
  List.inj_on_of_nodup_map h hr hr' hkey

/-! ## What one read does to `FINAL` -/

section Pull

variable {t : Table} {since : Option Timestamp} {upTo : Timestamp} {legacy : List (Row V)}
  {raw : List (RawRow V)}

private theorem nodup_keys_pulled (hkeys : (legacy.map Row.key).Nodup) :
    ((job.pulled t since upTo [] legacy).map RawRow.key).Nodup := by
  have hperm := List.perm_insertionSort (fun a b : Row V => a.key ≤ b.key)
    (legacy.filter (job.selected t since upTo))
  have hsub := (List.filter_sublist (p := job.selected t since upTo) (l := legacy)).map Row.key
  rw [Job.pulled, List.map_map]
  exact (hperm.map Row.key).nodup_iff.mpr (hkeys.sublist hsub)

/-- A row that is read is what `FINAL` returns from then on, if raw holds nothing newer. -/
theorem final_of_selected (hjob : job.delivered = false) (hkeys : (legacy.map Row.key).Nodup)
    {r : Row V} (hr : r ∈ legacy) (hsel : job.selected t since upTo r = true)
    (hold : ∀ x ∈ raw, x.key = r.key → x.updatedAt ≤ r.updatedAt) :
    final (raw ++ job.pulled t since upTo [] legacy) r.key = some ⟨r, Job.ts upTo⟩ := by
  have hmem : (⟨r, Job.ts upTo⟩ : RawRow V) ∈ job.pulled t since upTo [] legacy :=
    Job.mem_pulled.mpr ⟨r, hr, hsel, by rw [Job.read_eq_self hjob]⟩
  -- the pulled version is the latest: older ones stand before it
  obtain ⟨before, after, hsplit⟩ := List.append_of_mem hmem
  have hnodup : ((job.pulled t since upTo [] legacy).map RawRow.key).Nodup :=
    nodup_keys_pulled hkeys
  rw [hsplit, List.map_append, List.map_cons, List.nodup_append, List.nodup_cons] at hnodup
  rw [hsplit, ← List.append_assoc]
  refine Versions.latest_append_cons (x := (⟨r, Job.ts upTo⟩ : RawRow V)) ?_ ?_
  · intro y hy hkey
    rcases List.mem_append.mp hy with hy | hy
    · exact hold y hy hkey
    · exact absurd hkey (hnodup.2.2 _ (List.mem_map_of_mem hy) _ (List.mem_cons_self ..))
  · intro y hy hkey
    exact hnodup.2.1.1 (hkey ▸ List.mem_map_of_mem hy)

/-- A row that is not read stays what it was under `FINAL`. -/
theorem final_of_not_selected (hkeys : (legacy.map Row.key).Nodup) {r : Row V} (hr : r ∈ legacy)
    (hsel : ¬ job.selected t since upTo r = true) :
    final (raw ++ job.pulled t since upTo [] legacy) r.key = final raw r.key := by
  refine Versions.latest_append_of_forall_ne fun x hx hkey => ?_
  obtain ⟨r', hr', hsel', rfl⟩ := Job.mem_pulled.mp hx
  exact hsel (eq_of_key_eq hkeys hr' hr hkey ▸ hsel')

end Pull

/-! ## The invariant -/

/-- The next load of the table reads this row: the call under way has just emptied the table,
or the row is stamped after the last `loaded_until` minus the overlap. -/
def World.Unread (job : Job V) (w : World V) (t : Table) (r : Row V) : Prop :=
  (∃ f ∈ w.running, t ∈ f.emptied ∧ t ∉ f.readTables) ∨
    ∀ last ∈ w.lastLoaded t, last - job.overlap < r.updatedAt

/-- The legacy row is what a read of raw with `FINAL` returns for its key. -/
def World.Current (w : World V) (t : Table) (r : Row V) : Prop :=
  (final (w.raw t) r.key).map RawRow.row = some r

/-- The invariant of one table: its keys are unique, raw holds nothing but versions of its
rows, and a row that is not current will be read. -/
structure World.Converging (job : Job V) (w : World V) (t : Table) : Prop where
  keys : ((w.legacy t).map Row.key).Nodup
  versions : ∀ x ∈ w.raw t, ∃ r ∈ w.legacy t, r.key = x.key ∧ x.updatedAt ≤ r.updatedAt
  current : ∀ r ∈ w.legacy t, w.Current t r ∨ w.Unread job t r

/-- The invariant of the loads: `until`s are whole seconds and do not decrease. -/
structure World.InOrder (w : World V) : Prop where
  whole : ∀ l ∈ w.loads, Job.ts l.loadedUntil = l.loadedUntil
  frame : ∀ f, w.running = some f → f.call.nulled = [] ∧ Job.ts f.call.until = f.call.until ∧
    ∀ l ∈ w.loads, l.loadedUntil ≤ f.call.until

/-! ## One event -/

section Preserved

variable {w w' : World V} {f : Frame} {t : Table} {rest : List Statement}

theorem lastLoaded_idle (h : w.running = none) : w.lastLoaded t = w.watermark t := by
  simp [World.lastLoaded, h]

theorem lastLoaded_read (h : w.running = some f) (ht : t ∈ f.readTables) :
    w.lastLoaded t = some f.call.until := by
  simp [World.lastLoaded, h, ht]

theorem lastLoaded_unread (h : w.running = some f) (ht : t ∉ f.readTables) :
    w.lastLoaded t = w.watermark t := by
  simp [World.lastLoaded, h, ht]

private theorem converging_commit {u : Table} {row : Row V} (h : w.Converging job t)
    (hok : Steady job w (.commit u row)) :
    World.Converging job { w with legacy := setTable w.legacy u (upsert row (w.legacy u)) } t := by
  by_cases htu : t = u
  · subst htu
    refine ⟨?_, ?_, ?_⟩
    · simpa using nodup_keys_upsert h.keys
    · intro x hx
      obtain ⟨r, hr, hkey, hle⟩ := h.versions x hx
      simp only [setTable_self]
      by_cases hrow : r.key = row.key
      · exact ⟨row, mem_upsert_self row _, hrow.symm.trans hkey, hle.trans (hok.1 r hr hrow)⟩
      · exact ⟨r, mem_upsert_of_ne hr hrow, hkey, hle⟩
    · intro r hr
      simp only [setTable_self] at hr
      rcases mem_upsert hr with rfl | ⟨hr, -⟩
      -- a row committed now is later than what was loaded
      · exact Or.inr (Or.inr hok.2)
      · exact h.current r hr
  · refine ⟨?_, ?_, ?_⟩ <;> simp only [setTable_of_ne htu]
    · exact h.keys
    · exact h.versions
    · exact h.current

private theorem converging_merge {u : Table} {rows : List (RawRow V)} (h : w.Converging job t)
    (hsub : rows.Sublist (w.raw u))
    (hfinal : ∀ x ∈ w.raw u, final rows x.key = final (w.raw u) x.key) :
    World.Converging job { w with raw := setTable w.raw u rows } t := by
  by_cases htu : t = u
  · subst htu
    refine ⟨h.keys, fun x hx => ?_, fun r hr => (h.current r hr).imp_left fun hcur => ?_⟩
    · simp only [setTable_self] at hx
      exact h.versions x (hsub.subset hx)
    -- a merge keeps the latest version of every key
    · obtain ⟨x, hx, hrow⟩ := Option.map_eq_some_iff.mp hcur
      obtain ⟨hmem, hkey⟩ := Versions.mem_of_latest hx
      simp only [World.Current, setTable_self]
      rw [← hkey, hfinal x hmem, hkey]
      exact hcur
  · refine ⟨h.keys, ?_, ?_⟩
    · simpa only [setTable_of_ne htu] using h.versions
    · refine fun r hr => (h.current r hr).imp_left fun hcur => ?_
      simpa only [World.Current, setTable_of_ne htu] using hcur

private theorem converging_call {c : Call} (h : w.Converging job t) (hidle : w.running = none) :
    World.Converging job
      { w with running := some ⟨c, c.statements, fun _ => none, [], []⟩ } t := by
  refine ⟨h.keys, h.versions, fun r hr => (h.current r hr).imp_right fun hunread => Or.inr ?_⟩
  rcases hunread with ⟨f, hf, -⟩ | hlate
  · rw [hidle] at hf
    cases hf
  · rw [lastLoaded_idle hidle] at hlate
    rwa [lastLoaded_unread rfl (by simp [Frame.readTables])]

private theorem converging_create {u : Table} (h : w.Converging job t) (hstarted : f.Started w)
    (hrun : w.running = some f) (htodo : f.todo = .create u :: rest) :
    (execute job w f (.create u) rest).Converging job t := by
  by_cases htu : t = u
  · subst htu
    refine ⟨h.keys, fun x hx => ?_, fun r _ => Or.inr (Or.inl ?_)⟩
    · simp [execute] at hx
    -- the table is empty until it is pulled, later in this call
    · exact ⟨_, rfl, List.mem_append_right _ (List.mem_singleton.mpr rfl),
        hstarted.not_read_of_create htodo⟩
  · refine ⟨h.keys, ?_, fun r hr => ?_⟩
    · simpa only [execute, setTable_of_ne htu] using h.versions
    · rcases h.current r hr with hcur | ⟨f', hf', hemptied, hread⟩ | hlate
      · left
        simpa only [World.Current, execute, setTable_of_ne htu] using hcur
      · obtain rfl := Option.some.inj (hrun.symm.trans hf')
        exact Or.inr (Or.inl ⟨_, rfl, List.mem_append_left _ hemptied, hread⟩)
      · rw [World.lastLoaded, hrun] at hlate
        exact Or.inr (Or.inr hlate)

private theorem converging_watermarks (h : w.Converging job t) (hrun : w.running = some f) :
    (execute job w f .watermarks rest).Converging job t := by
  refine ⟨h.keys, h.versions, fun r hr => (h.current r hr).imp_right ?_⟩
  rintro (⟨f', hf', hemptied, hread⟩ | hlate)
  · obtain rfl := Option.some.inj (hrun.symm.trans hf')
    exact Or.inl ⟨_, rfl, hemptied, hread⟩
  · rw [World.lastLoaded, hrun] at hlate
    exact Or.inr hlate

/-- **One read**: every legacy row of the table up to `until` is current after it. -/
theorem current_of_pull (hjob : job.delivered = false) (h : w.Converging job t) (hw : w.InOrder)
    (hstarted : f.Started w) (hrun : w.running = some f) (htodo : f.todo = .pull t :: rest)
    {r : Row V} (hr : r ∈ w.legacy t) (hle : r.updatedAt ≤ f.call.until) :
    (execute job w f (.pull t) rest).Current t r := by
  obtain ⟨hnulled, hwhole, -⟩ := hw.frame f hrun
  have hraw : (execute job w f (.pull t) rest).raw t =
      w.raw t ++ job.pulled t (f.since job t) f.call.until [] (w.legacy t) := by
    simp only [execute, setTable_self, Frame.inserts, hnulled]
  rw [World.Current, hraw]
  -- the row is read, or it is not selected
  by_cases hsel : job.selected t (f.since job t) f.call.until r = true
  · rw [final_of_selected hjob h.keys hr hsel]
    · rfl
    · intro x hx hkey
      obtain ⟨r', hr', hkey', hle'⟩ := h.versions x hx
      exact eq_of_key_eq h.keys hr' hr (hkey'.trans hkey) ▸ hle'
  · rw [final_of_not_selected h.keys hr hsel]
    rcases Job.not_selected hjob hsel with hlate | ⟨s, hs, hearly⟩
    · rw [hwhole] at hlate
      exact absurd hle (not_le.mpr hlate)
    · -- not read because it is old: then it was not unread, so it is current already
      rcases (hstarted.since_cases htodo : f.since job t = none ∨ _) with hnone | ⟨hkept, hsince⟩
      · rw [hnone] at hs
        cases hs
      · obtain ⟨mark, hmark, rfl⟩ := Option.map_eq_some_iff.mp (hsince ▸ hs)
        obtain ⟨l, hl, -, rfl⟩ := exists_of_watermark hmark
        rw [Job.ts_sub_overlap (hw.whole l hl)] at hearly
        rcases h.current r hr with hcur | ⟨f', hf', hemptied, -⟩ | hlate
        · exact hcur
        · obtain rfl := Option.some.inj (hrun.symm.trans hf')
          exact absurd hemptied hkept
        · rw [lastLoaded_unread hrun (hstarted.not_read_of_pull htodo)] at hlate
          exact absurd hearly (not_le.mpr (hlate _ hmark))

private theorem converging_pull {u : Table} (hjob : job.delivered = false)
    (h : w.Converging job t) (hw : w.InOrder) (hstarted : f.Started w) (hrun : w.running = some f)
    (htodo : f.todo = .pull u :: rest) : (execute job w f (.pull u) rest).Converging job t := by
  by_cases htu : t = u
  · subst htu
    refine ⟨h.keys, fun x hx => ?_, fun r hr => ?_⟩
    · simp only [execute, setTable_self, List.mem_append, Frame.inserts] at hx
      rcases hx with hx | hx
      · exact h.versions x hx
      · obtain ⟨r, hr, -, rfl⟩ := Job.mem_pulled.mp hx
        exact ⟨r, hr, rfl, le_rfl⟩
    -- read up to the bound; a later row waits for the next load
    · by_cases hle : r.updatedAt ≤ f.call.until
      · exact Or.inl (current_of_pull hjob h hw hstarted hrun htodo hr hle)
      · refine Or.inr (Or.inr fun last hlast => ?_)
        rw [lastLoaded_read (f := _) rfl (by simp [Frame.readTables])] at hlast
        have hoverlap := job.overlap_nonneg
        cases hlast
        linarith
  · refine ⟨h.keys, ?_, fun r hr => ?_⟩
    · simpa only [execute, setTable_of_ne htu] using h.versions
    · rcases h.current r hr with hcur | ⟨f', hf', hemptied, hread⟩ | hlate
      · left
        simpa only [World.Current, execute, setTable_of_ne htu] using hcur
      · obtain rfl := Option.some.inj (hrun.symm.trans hf')
        refine Or.inr (Or.inl ⟨_, rfl, hemptied, ?_⟩)
        simpa [Frame.readTables, htu] using hread
      · have hlast : (execute job w f (.pull u) rest).lastLoaded t = w.lastLoaded t := by
          simp [World.lastLoaded, hrun, execute, Frame.readTables, World.watermark, htu]
        exact Or.inr (Or.inr (hlast ▸ hlate))

/-- Recording the loads makes the last `loaded_until` of the tables read their watermark. -/
theorem watermark_record (huntil : ∀ l ∈ w.loads, l.loadedUntil ≤ f.call.until)
    (hstarted : f.Started w) (hrun : w.running = some f) {mark : Timestamp}
    (h : (execute job w f .record rest).watermark t = some mark) :
    w.lastLoaded t = some mark := by
  obtain ⟨l, hl, hlt, rfl⟩ := exists_of_watermark h
  -- a table of this call has the call's bound, any other its old mark
  by_cases hread : t ∈ f.readTables
  · rw [lastLoaded_read hrun hread]
    obtain ⟨l', hl', hlt'⟩ := List.mem_map.mp hread
    obtain ⟨mark, hmark, hle⟩ := watermark_le (w := execute job w f .record rest)
      (List.mem_append_right _ hl') hlt'
    rw [h] at hmark
    cases hmark
    rw [hstarted.untils l' hl'] at hle
    rcases List.mem_append.mp hl with hl | hl
    · exact congrArg some (le_antisymm hle (huntil l hl))
    · rw [hstarted.untils l hl]
  · have hnone : f.records.filter (fun l => l.table = t) = [] := by
      rw [List.filter_eq_nil_iff]
      intro l hl
      simp only [decide_eq_true_eq]
      exact fun heq => hread (List.mem_map.mpr ⟨l, hl, heq⟩)
    rw [lastLoaded_unread hrun hread, ← h]
    simp only [World.watermark, execute, List.filter_append, hnone, List.append_nil]

private theorem converging_record (h : w.Converging job t) (hw : w.InOrder)
    (hstarted : f.Started w) (hrun : w.running = some f) (htodo : f.todo = .record :: rest) :
    (execute job w f .record rest).Converging job t := by
  refine ⟨h.keys, h.versions, fun r hr => (h.current r hr).imp_right fun hunread => Or.inr ?_⟩
  rcases hunread with ⟨f', hf', hemptied, hread⟩ | hlate
  · obtain rfl := Option.some.inj (hrun.symm.trans hf')
    exact absurd (hstarted.read_of_emptied htodo hemptied) hread
  · intro last hlast
    rw [lastLoaded_idle rfl] at hlast
    exact hlate last (watermark_record (hw.frame f hrun).2.2 hstarted hrun hlast)

theorem inOrder_step [DecidableEq V] {e : Event V} (hw : w.InOrder) (hstarted : w.Started)
    (hok : Steady job w e) (hstep : step job w e = some w') : w'.InOrder := by
  cases e with
  | commit u row =>
    cases hstep
    exact ⟨hw.whole, hw.frame⟩
  | merge u rows =>
    obtain ⟨-, -, rfl⟩ := step_merge hstep
    exact ⟨hw.whole, hw.frame⟩
  | call c =>
    obtain ⟨-, rfl⟩ := step_call hstep
    refine ⟨hw.whole, fun f hf => ?_⟩
    cases hf
    exact hok
  | statement =>
    obtain ⟨f, s, rest, hrun, -, rfl⟩ := step_statement hstep
    have hframe := hw.frame f hrun
    cases s with
    | create u => exact ⟨hw.whole, fun f' hf' => by cases hf'; exact hframe⟩
    | watermarks => exact ⟨hw.whole, fun f' hf' => by cases hf'; exact hframe⟩
    | pull u => exact ⟨hw.whole, fun f' hf' => by cases hf'; exact hframe⟩
    -- only the last statement adds load records
    | record =>
      refine ⟨fun l hl => ?_, fun f' hf' => by cases hf'⟩
      rcases List.mem_append.mp hl with hl | hl
      · exact hw.whole l hl
      · rw [(hstarted f hrun).untils l hl]
        exact hframe.2.1
  | raise rows => exact hok.elim

/-- **One event**: every table keeps converging. -/
theorem converging_step [DecidableEq V] (hjob : job.delivered = false) {e : Event V}
    (hw : w.InOrder) (hstarted : w.Started) (h : ∀ t, w.Converging job t) (hok : Steady job w e)
    (hstep : step job w e = some w') : ∀ t, w'.Converging job t := by
  intro t
  cases e with
  | commit u row =>
    cases hstep
    exact converging_commit (h t) hok
  | merge u rows =>
    obtain ⟨hsub, hfinal, rfl⟩ := step_merge hstep
    exact converging_merge (h t) hsub hfinal
  | call c =>
    obtain ⟨hidle, rfl⟩ := step_call hstep
    exact converging_call (h t) hidle
  | statement =>
    obtain ⟨f, s, rest, hrun, htodo, rfl⟩ := step_statement hstep
    have hf := hstarted f hrun
    cases s with
    | create u => exact converging_create (h t) hf hrun htodo
    | watermarks => exact converging_watermarks (h t) hrun
    | pull u => exact converging_pull hjob (h t) hw hf hrun htodo
    | record => exact converging_record (h t) hw hf hrun htodo
  -- `Steady` runs do not raise
  | raise rows => exact hok.elim

end Preserved

private theorem converging_init {legacy : Table → List (Row V)} {t : Table}
    (hkeys : ((legacy t).map Row.key).Nodup) : (World.init legacy).Converging job t where
  keys := hkeys
  versions := fun x hx => by cases hx
  current := fun r _ => Or.inr <| Or.inr fun last hlast => by
    simp [World.init, World.lastLoaded, World.watermark] at hlast

/-- **Every run**: from empty raw tables, the loads stay in order and every table converges. -/
theorem converging_run [DecidableEq V] (hjob : job.delivered = false)
    {legacy : Table → List (Row V)} (hkeys : ∀ t, ((legacy t).map Row.key).Nodup)
    {es : List (Event V)} {w : World V}
    (hrun : Run (step job) (Steady job) (World.init legacy) es w) :
    w.Started ∧ w.InOrder ∧ ∀ t, w.Converging job t := by
  have hinit : (World.init legacy).InOrder :=
    ⟨fun l hl => (by cases hl), fun f hf => (by cases hf)⟩
  refine hrun.invariant (I := fun w => w.Started ∧ w.InOrder ∧ ∀ t, w.Converging job t)
    ⟨started_init legacy, hinit, fun t => converging_init (hkeys t)⟩ ?_
  rintro s e s' ⟨hstarted, hw, hconverging⟩ hok hs
  exact ⟨started_step hstarted hs, inOrder_step hw hstarted hok hs,
    converging_step hjob hw hstarted hconverging hok hs⟩

/-! ## The rest of the load -/

/-- Raw, read with `FINAL`, is the table `rows` up to `upTo`, and the call under way is done
with it. -/
structure World.Settled (w : World V) (t : Table) (rows : List (Row V)) (upTo : Timestamp) :
    Prop where
  legacy : w.legacy t = rows
  current : ∀ r ∈ rows, r.updatedAt ≤ upTo → w.Current t r
  versions : ∀ x ∈ w.raw t, ∃ r ∈ rows, r.key = x.key
  done : ∀ f, w.running = some f → .pull t ∉ f.todo ∧ .create t ∉ f.todo

/-- What may happen after a load has read a table: anything but another call, or a commit to
that very table. -/
def Undisturbed (t : Table) : Event V → Prop
  | .call _ => False
  | .commit u _ => u ≠ t
  | _ => True

instance (t : Table) : (e : Event V) → Decidable (Undisturbed t e)
  | .call _ => isFalse id
  | .commit u _ => inferInstanceAs (Decidable (u ≠ t))
  | .merge _ _ => isTrue trivial
  | .statement => isTrue trivial
  | .raise _ => isTrue trivial

section Settled

variable {w w' : World V} {t : Table} {rows : List (Row V)}
  {upTo : Timestamp}

private theorem settled_execute {f : Frame} {s : Statement} {rest : List Statement}
    (h : w.Settled t rows upTo) (hrun : w.running = some f) (htodo : f.todo = s :: rest) :
    (execute job w f s rest).Settled t rows upTo := by
  obtain ⟨hpull, hcreate⟩ := h.done f hrun
  rw [htodo, List.mem_cons, not_or] at hpull hcreate
  -- what is left of the call does not touch the table
  have hframe : ∀ f' : Frame, f'.todo = rest → .pull t ∉ f'.todo ∧ .create t ∉ f'.todo := by
    rintro f' rfl
    exact ⟨hpull.2, hcreate.2⟩
  cases s with
  | create u =>
    have htu : t ≠ u := fun heq => hcreate.1 (heq ▸ rfl)
    refine ⟨h.legacy, fun r hr hle => ?_, ?_, fun f' hf' => by cases hf'; exact hframe _ rfl⟩
    · simpa only [World.Current, execute, setTable_of_ne htu] using h.current r hr hle
    · simpa only [execute, setTable_of_ne htu] using h.versions
  | watermarks =>
    exact ⟨h.legacy, h.current, h.versions, fun f' hf' => by cases hf'; exact hframe _ rfl⟩
  | pull u =>
    have htu : t ≠ u := fun heq => hpull.1 (heq ▸ rfl)
    refine ⟨h.legacy, fun r hr hle => ?_, ?_, fun f' hf' => by cases hf'; exact hframe _ rfl⟩
    · simpa only [World.Current, execute, setTable_of_ne htu] using h.current r hr hle
    · simpa only [execute, setTable_of_ne htu] using h.versions
  | record => exact ⟨h.legacy, h.current, h.versions, fun f' hf' => by cases hf'⟩

private theorem settled_step [DecidableEq V] {e : Event V} (h : w.Settled t rows upTo)
    (hok : Steady job w e) (hundisturbed : Undisturbed t e) (hstep : step job w e = some w') :
    w'.Settled t rows upTo := by
  cases e with
  | commit u row =>
    cases hstep
    have htu : t ≠ u := Ne.symm hundisturbed
    refine ⟨?_, h.current, h.versions, h.done⟩
    simpa only [setTable_of_ne htu] using h.legacy
  | merge u rows' =>
    obtain ⟨hsub, hfinal, rfl⟩ := step_merge hstep
    by_cases htu : t = u
    · subst htu
      refine ⟨h.legacy, fun r hr hle => ?_, fun x hx => ?_, h.done⟩
      · obtain ⟨x, hx, -⟩ := Option.map_eq_some_iff.mp (h.current r hr hle)
        obtain ⟨hmem, hkey⟩ := Versions.mem_of_latest hx
        simp only [World.Current, setTable_self]
        rw [← hkey, hfinal x hmem, hkey]
        exact h.current r hr hle
      · simp only [setTable_self] at hx
        exact h.versions x (hsub.subset hx)
    · refine ⟨h.legacy, fun r hr hle => ?_, ?_, h.done⟩
      · simpa only [World.Current, setTable_of_ne htu] using h.current r hr hle
      · simpa only [setTable_of_ne htu] using h.versions
  -- no call starts while the table is undisturbed
  | call c => exact hundisturbed.elim
  | statement =>
    obtain ⟨f, s, rest, hrun, htodo, rfl⟩ := step_statement hstep
    exact settled_execute h hrun htodo
  | raise rows' => exact hok.elim

/-- What `FINAL` returns of a settled table is the table. -/
private theorem World.Settled.readFinal_perm (h : w.Settled t rows upTo)
    (hkeys : (rows.map Row.key).Nodup) (hall : ∀ r ∈ rows, r.updatedAt ≤ upTo) :
    (readFinal (w.raw t)).Perm rows := by
  have hnodup : (readFinal (w.raw t)).Nodup := by
    have hread := @Versions.nodup_keys_readLatest _ _ _ _ _ RawRow.key RawRow.updatedAt
      (w.raw t)
    refine List.Nodup.of_map Row.key ?_
    rwa [readFinal, List.map_map]
  -- both sides hold each key once: it is enough to compare members
  refine (List.perm_ext_iff_of_nodup hnodup hkeys.of_map).mpr fun r => ?_
  rw [readFinal, List.mem_map]
  constructor
  · rintro ⟨x, hx, rfl⟩
    have hlatest : final (w.raw t) x.key = some x := Versions.mem_readLatest.mp hx
    obtain ⟨r, hr, hkey⟩ := h.versions x (Versions.mem_of_latest hlatest).1
    have hcur := h.current r hr (hall r hr)
    rw [World.Current, hkey, hlatest, Option.map_some, Option.some.injEq] at hcur
    exact hcur ▸ hr
  · intro hr
    obtain ⟨x, hx, rfl⟩ := Option.map_eq_some_iff.mp (h.current r hr (hall r hr))
    exact ⟨x, Versions.mem_readLatest.mpr hx, rfl⟩

end Settled

/-! ## The main result -/

/-- **Convergence**: take any run of commits, merges and successful calls of the fixed job. When a
load reads a table with `until` at least every `updated_at` of it, raw read with `FINAL` is the
legacy table from then until the load completes, as long as no commit to the table comes
between. -/
theorem load_converges [DecidableEq V] {job : Job V} (hjob : job.delivered = false)
    {legacy : Table → List (Row V)} (hkeys : ∀ t, ((legacy t).map Row.key).Nodup)
    {before after : List (Event V)} {w w' : World V} {f : Frame} {upTo : Timestamp} {full : Bool}
    {skip : List Table} {nulled : List NulledColumn} {t : Table} {todo : List Statement}
    (hbefore : Run (step job) (Steady job) (World.init legacy) before w)
    (hframe : w.running = some f) (hcall : f.call = .load upTo full skip nulled)
    (hnext : f.todo = .pull t :: todo)
    (hafter : Run (step job) (Steady job) w (.statement :: after) w')
    (hundisturbed : ∀ e ∈ after, Undisturbed t e) (huntil : ∀ r ∈ w'.legacy t, r.updatedAt ≤ upTo) :
    (readFinal (w'.raw t)).Perm (w'.legacy t) := by
  obtain ⟨hstarted, hw, hconverging⟩ := converging_run hjob hkeys hbefore
  have hf := hstarted f hframe
  have ht := hconverging t
  cases hafter with
  | cons _ hs hrest =>
    obtain ⟨f', s, rest, hf', htodo, rfl⟩ := step_statement hs
    obtain rfl := Option.some.inj (hframe.symm.trans hf')
    obtain ⟨rfl, rfl⟩ := List.cons.inj (hnext.symm.trans htodo)
    -- right after the pull; the rest of the run keeps it
    have hread : (execute job w f (.pull t) todo).Settled t (w.legacy t) upTo := by
      refine ⟨rfl, fun r hr hle => ?_, ?_, fun f' hf' => ?_⟩
      · exact current_of_pull hjob ht hw hf hframe hnext hr (by rw [hcall]; exact hle)
      · intro x hx
        obtain ⟨r, hr, hkey, -⟩ :=
          (converging_pull hjob ht hw hf hframe hnext).versions x hx
        exact ⟨r, hr, hkey⟩
      · cases hf'
        exact hf.done_with hnext
    have hsettled : w'.Settled t (w.legacy t) upTo :=
      hrest.invariant_of_forall (I := fun w' => w'.Settled t (w.legacy t) upTo) hundisturbed
        hread fun _ _ _ h hok hundisturbed hs => settled_step h hok hundisturbed hs
    rw [hsettled.legacy] at huntil ⊢
    exact hsettled.readFinal_perm ht.keys huntil

/-- A customer is loaded, changed in place, late within the overlap, and loaded again. -/
def lateCommitRun : List (Event String) :=
  .call (.load (Duration.hours 10) false [] []) :: List.replicate 11 .statement ++
    [.commit .customers ⟨1, Duration.minutes 570, [("email", "ann@new.test")]⟩,
      .call (.load (Duration.hours 30) false [] []), .statement]

def beforeLastRead : World String :=
  (endOf (Steady fixedJob) lateCommitRun).get (by decide)

def afterLastLoad : World String :=
  (check (step fixedJob) (Steady fixedJob) beforeLastRead (List.replicate 10 .statement)).get
    (by decide)

theorem load_converges_late_commit :
    (readFinal (afterLastLoad.raw .customers)).Perm (afterLastLoad.legacy .customers) ∧
      afterLastLoad.running = none := by
  have hkeys : ∀ t, ((oneCustomer t).map Row.key).Nodup := by
    intro t
    cases t <;> decide
  exact ⟨load_converges (f := beforeLastRead.running.get (by decide)) rfl hkeys
    (Run.of_check (Option.some_get _).symm) (Option.some_get _).symm rfl rfl
    (Run.of_check (Option.some_get _).symm) (by decide) (by decide), rfl⟩

end PlatformOps.Simulation
