import PlatformOps.Library.Listing
import PlatformOps.Reconcile.Values

/-!
# Row Strings

Canonical texts are joined without losing anything. Every text of a column is closed:
its separators are escaped and no escape is left open, whatever the column holds. So a
row string is cut in one way, and the marker of NULL is no text's.
-/

namespace PlatformOps.Reconcile

open Fallible Decimals

/-- A canonical text of a column: the reference's or an engine's, of a value or of NULL. -/
inductive Canonical (column : Column) : String → Prop
  | reference {lower : List Char → List Char} {rule : Rule} {value : Option (Held column.kind)}
      {text : String} (h : canonicalValue lower column rule value = .ok text) :
      Canonical column text
  | postgres {lower : List Char → List Char} {rule : Rule} {value : Option (Held column.kind)}
      {text : String} (h : engineValue (postgresText lower rule column.kind) value = .ok text) :
      Canonical column text
  | clickhouse {lower : List Char → List Char} {rule : Rule} {value : Option (Held column.kind)}
      {text : String}
      (h : engineValue (clickhouseText lower column.targetType rule column.kind) value = .ok text) :
      Canonical column text

/-! ## Every text is escaped -/

/-- Neither a backslash nor a separator. -/
def Plain (text : List Char) : Prop :=
  ∀ c ∈ text, c ≠ '\\' ∧ c ≠ '|'

theorem Plain.append {a b : List Char} (ha : Plain a) (hb : Plain b) : Plain (a ++ b) :=
  List.forall_mem_append.mpr ⟨ha, hb⟩

theorem Plain.cons {c : Char} {a : List Char} (hc : c ≠ '\\' ∧ c ≠ '|') (ha : Plain a) :
    Plain (c :: a) :=
  List.forall_mem_cons.mpr ⟨hc, ha⟩

private theorem plain_of_isDigit {text : List Char} (h : ∀ c ∈ text, c.isDigit = true) :
    Plain text := by
  intro c hc
  have hdigit := h c hc
  constructor
  · rintro rfl
    exact absurd hdigit (by decide)
  · rintro rfl
    exact absurd hdigit (by decide)

private theorem plain_paddedDigits (width n : ℕ) : Plain (paddedDigits width n) :=
  plain_of_isDigit fun _ => isDigit_of_mem_paddedDigits

theorem plain_fixedText (k : ℕ) (n : ℤ) : Plain (fixedText k n) := by
  unfold fixedText
  apply Plain.append
  · apply Plain.append
    · split <;> simp [Plain]
    · exact plain_of_isDigit fun _ => Nat.isDigit_of_mem_toDigits (by decide) (by decide)
  · split
    · simp [Plain]
    · exact (plain_paddedDigits _ _).cons (by decide)

theorem plain_nanText : Plain nanText := by
  simp [nanText, Plain]

theorem plain_boolText (b : Bool) : Plain (boolText b) := by
  cases b <;> simp [boolText, Plain]

theorem plain_dateText (d : Date) : Plain (dateText d) := by
  unfold dateText
  apply Plain.append (plain_paddedDigits _ _)
  apply Plain.cons (by decide)
  apply Plain.append (plain_paddedDigits _ _)
  exact (plain_paddedDigits _ _).cons (by decide)

theorem plain_timeText (t : Timestamp) : Plain (timeText t) := by
  unfold timeText
  apply Plain.append (plain_dateText _)
  apply Plain.cons (by decide)
  apply Plain.append (plain_paddedDigits _ _)
  apply Plain.cons (by decide)
  apply Plain.append (plain_paddedDigits _ _)
  apply Plain.cons (by decide)
  apply Plain.append (plain_paddedDigits _ _)
  apply Plain.cons (by decide)
  apply Plain.append (plain_paddedDigits _ _)
  simp [Plain]

/-- What escaping writes. A text without separators and backslashes is written as it is. -/
def Escaped (text : List Char) : Prop :=
  ∃ unescaped, text = escape unescaped

theorem Plain.escaped {text : List Char} (h : Plain text) : Escaped text :=
  ⟨text, (Escapes.escape_eq_self (by decide) h).symm⟩

theorem Escaped.ne_null {text : List Char} (h : Escaped text) : String.ofList text ≠ null := by
  obtain ⟨unescaped, rfl⟩ := h
  intro heq
  have htext : escape unescaped = null.toList := by
    rw [← heq, String.toList_ofList]
  exact Escapes.escape_ne_cons_cons (by decide) (by decide) (by decide) unescaped [] htext

/-! ## What is written of a value -/

/-- The texts of a kind of values, whoever writes them. -/
inductive Written : Kind → List Char → Prop
  | int (n : ℤ) : Written .int (fixedText 0 n)
  | decimal (k : ℕ) (n : ℤ) : Written .decimal (fixedText k n)
  | nan : Written .decimal nanText
  | bool (b : Bool) : Written .bool (boolText b)
  | ts (t : Timestamp) : Written .ts (timeText t)
  | date (d : Date) : Written .date (dateText d)
  | text (lower : List Char → List Char) (rule : Rule) (held : List Char) :
      Written .text (ruledText lower rule held)

variable {lower : List Char → List Char} {rule : Rule} {column : Column} {kind : Kind}
  {text : List Char}

theorem Written.escaped (h : Written kind text) : Escaped text := by
  cases h with
  | int n => exact (plain_fixedText _ _).escaped
  | decimal k n => exact (plain_fixedText _ _).escaped
  | nan => exact plain_nanText.escaped
  | bool b => exact (plain_boolText _).escaped
  | ts t => exact (plain_timeText _).escaped
  | date d => exact (plain_dateText _).escaped
  | text lower rule held => exact ⟨_, rfl⟩

theorem written_valueText {value : Held kind} (h : valueText lower rule kind value = .ok text) :
    Written kind text := by
  cases kind with
  | decimal =>
    cases value with
    | finite x =>
      obtain ⟨rounded, -, hrest⟩ := bind_eq_ok.mp h
      exact pure_eq_ok.mp hrest ▸ .decimal _ _
    | infinite negative => cases h
    | nan => exact Except.ok.inj h ▸ .nan
  | int => exact Except.ok.inj h ▸ .int _
  | bool => exact Except.ok.inj h ▸ .bool _
  | ts => exact Except.ok.inj h ▸ .ts _
  | date => exact Except.ok.inj h ▸ .date _
  | text => exact Except.ok.inj h ▸ .text _ _ _

theorem written_postgresText {value : Held kind}
    (h : postgresText lower rule kind value = .ok text) : Written kind text := by
  cases kind with
  | int =>
    rw [postgresText] at h
    split at h
    · exact Except.ok.inj h ▸ .int _
    · cases h
  | decimal =>
    cases value with
    | finite x =>
      rw [postgresText] at h
      split at h
      · exact Except.ok.inj h ▸ .decimal _ _
      · cases h
    | infinite negative => cases h
    | nan => exact Except.ok.inj h ▸ .nan
  | bool => exact Except.ok.inj h ▸ .bool _
  | ts => exact Except.ok.inj h ▸ .ts _
  | date => exact Except.ok.inj h ▸ .date _
  | text => exact Except.ok.inj h ▸ .text _ _ _

theorem written_clickhouseText {targetType : String} {value : Held kind}
    (h : clickhouseText lower targetType rule kind value = .ok text) : Written kind text := by
  cases kind with
  | int =>
    rw [clickhouseText] at h
    split at h
    · exact Except.ok.inj h ▸ .int _
    · cases h
  | decimal =>
    obtain ⟨kept, -, hrest⟩ := bind_eq_ok.mp h
    exact pure_eq_ok.mp hrest ▸ .decimal _ _
  | bool => exact Except.ok.inj h ▸ .bool _
  | ts => exact Except.ok.inj h ▸ .ts _
  | date => exact Except.ok.inj h ▸ .date _
  | text => exact Except.ok.inj h ▸ .text _ _ _

private theorem exists_written {rendered : Except String (List Char)} {value : String}
    (hwritten : ∀ text, rendered = .ok text → Written kind text)
    (h : String.ofList <$> rendered = .ok value) :
    ∃ t, Written kind t ∧ value = String.ofList t := by
  cases rendered with
  | error e => cases h
  | ok t => exact ⟨t, hwritten t rfl, (Except.ok.inj h).symm⟩

/-- What is written is not the marker of NULL, whatever a text holds. -/
theorem map_ne_null {rendered : Except String (List Char)}
    (hwritten : ∀ text, rendered = .ok text → Written kind text) :
    String.ofList <$> rendered ≠ .ok null := by
  intro h
  obtain ⟨t, ht, hnull⟩ := exists_written hwritten h
  exact ht.escaped.ne_null hnull.symm

/-- A canonical text is the marker of NULL, or what is written of a value. -/
theorem Canonical.null_or_written {value : String} (h : Canonical column value) :
    value = null ∨ ∃ t, Written column.kind t ∧ value = String.ofList t := by
  cases h with
  | @reference _ _ held _ h =>
    cases held with
    | none => exact Or.inl (Except.ok.inj h).symm
    | some held => exact Or.inr (exists_written (fun _ => written_valueText) h)
  | @postgres _ _ held _ h =>
    cases held with
    | none => exact Or.inl (Except.ok.inj h).symm
    | some held => exact Or.inr (exists_written (fun _ => written_postgresText) h)
  | @clickhouse _ _ held _ h =>
    cases held with
    | none => exact Or.inl (Except.ok.inj h).symm
    | some held => exact Or.inr (exists_written (fun _ => written_clickhouseText) h)

/-! ## Joins are told apart -/

theorem Canonical.closed {value : String} (h : Canonical column value) :
    Escapes.Closed '\\' '|' value.toList := by
  rcases h.null_or_written with rfl | ⟨t, ht, rfl⟩
  · decide
  · obtain ⟨unescaped, rfl⟩ := ht.escaped
    rw [String.toList_ofList]
    exact Escapes.closed_escape (by decide) _

/-- Row strings of as many closed texts are equal only if the texts are. -/
theorem rowString_inj {values values' : List String} (hlength : values.length = values'.length)
    (h : ∀ v ∈ values, Escapes.Closed '\\' '|' v.toList)
    (h' : ∀ v ∈ values', Escapes.Closed '\\' '|' v.toList) :
    rowString values = rowString values' ↔ values = values' := by
  have hrow : ∀ values : List String, (rowString values).toList =
      List.intercalate ['|'] (values.map String.toList) := by
    intro values
    rw [rowString, String.toList_intercalate]
    rfl
  have hne : '\\' ≠ '|' := by decide
  rw [← String.toList_inj, hrow, hrow, Escapes.intercalate_inj hne]
  · exact (List.map_injective_iff.mpr fun _ _ => String.toList_inj.mp).eq_iff
  · rw [List.length_map, List.length_map, hlength]
  · exact List.forall_mem_map.mpr h
  · exact List.forall_mem_map.mpr h'

theorem Canonical.closed_of_forall₂ {columns : List Column} {values : List String}
    (h : List.Forall₂ Canonical columns values) :
    ∀ v ∈ values, Escapes.Closed '\\' '|' v.toList := by
  intro v hv
  induction h with
  | nil => cases hv
  | cons hcolumn _ ih =>
    cases List.mem_cons.mp hv with
    | inl heq => exact heq ▸ hcolumn.closed
    | inr hrest => exact ih hrest

/-! ## The engines' key strings -/

/-- An engine that renders each column to a canonical text of it. -/
def Engine.IsCanonical {R : Type} (engine : Engine R) : Prop :=
  ∀ column rule r, Canonical column (coalesce (engine.value column rule) r)

variable {R : Type} {engine : Engine R} {table : TableSpec} {rules : List (String × Rule)}

theorem render_key {rendered : RenderedTable R} (h : render engine table rules = .ok rendered) :
    ∃ texts, keyTexts engine table rules = .ok texts ∧ rendered.key = joinTexts texts := by
  obtain ⟨canonical, hcanonical, hrest⟩ := bind_eq_ok.mp h
  obtain ⟨texts, htexts, hrest⟩ := bind_eq_ok.mp hrest
  obtain ⟨values, -, hrest⟩ := bind_eq_ok.mp hrest
  obtain ⟨row, -, hrest⟩ := bind_eq_ok.mp hrest
  obtain rfl := pure_eq_ok.mp hrest
  exact ⟨texts, bind_eq_ok.mpr ⟨canonical, hcanonical, htexts⟩, rfl⟩

theorem length_of_keyTexts {texts : List (R → String)}
    (h : keyTexts engine table rules = .ok texts) : texts.length = table.key.length := by
  obtain ⟨canonical, -, htexts⟩ := bind_eq_ok.mp h
  exact (mapM_eq_ok_iff.mp htexts).length_eq.symm

theorem closed_of_keyTexts (hengine : engine.IsCanonical) {texts : List (R → String)}
    (h : keyTexts engine table rules = .ok texts) (r : R) :
    ∀ text ∈ texts, Escapes.Closed '\\' '|' (text r).toList := by
  obtain ⟨canonical, hcanonical, htexts⟩ := bind_eq_ok.mp h
  intro text htext
  obtain ⟨name, -, hname⟩ := exists_preimage_of_mem htexts htext
  -- A text of the key is the text of a column.
  rw [textOf] at hname
  split at hname
  · rename_i found hget
    obtain rfl := Except.ok.inj hname
    have hmem : (name, found) ∈ canonical :=
      List.mem_reverse.mp (Listing.mem_of_lookup_eq_some hget)
    obtain ⟨c, -, hc⟩ := exists_preimage_of_mem hcanonical hmem
    split at hc
    · rename_i rule _
      obtain ⟨-, rfl⟩ := Prod.ext_iff.mp (Except.ok.inj hc)
      exact (hengine c rule r).closed
    · cases hc
  · cases hname

/-- **Canonical strings are injective.** Row strings of canonical values of the same columns are
equal only if the values are; no value renders as NULL, in the reference or in an engine; and
equal key strings mean equal key columns, also across two engines. -/
theorem canonical_strings_injective :
    (∀ (columns : List Column) (values values' : List String),
      List.Forall₂ Canonical columns values → List.Forall₂ Canonical columns values' →
        (rowString values = rowString values' ↔ values = values')) ∧
    (∀ (lower : List Char → List Char) (column : Column) (rule : Rule) (value : Held column.kind),
      canonicalValue lower column rule (some value) ≠ .ok null ∧
        engineValue (postgresText lower rule column.kind) (some value) ≠ .ok null ∧
        engineValue (clickhouseText lower column.targetType rule column.kind) (some value) ≠
          .ok null) ∧
    ∀ (R S : Type) (source : Engine R) (target : Engine S) (table : TableSpec)
      (rules : List (String × Rule)) (rendered : RenderedTable R) (rendered' : RenderedTable S)
      (texts : List (R → String)) (texts' : List (S → String)),
      source.IsCanonical → target.IsCanonical →
      render source table rules = .ok rendered → render target table rules = .ok rendered' →
      keyTexts source table rules = .ok texts → keyTexts target table rules = .ok texts' →
      ∀ r s, rendered.key r = rendered'.key s ↔
        texts.map (fun text => text r) = texts'.map (fun text => text s) := by
  refine ⟨?rows, ?null, ?keys⟩
  case rows =>
    intro columns values values' h h'
    exact rowString_inj (h.length_eq.symm.trans h'.length_eq) (Canonical.closed_of_forall₂ h)
      (Canonical.closed_of_forall₂ h')
  case null =>
    intro lower column rule value
    exact ⟨map_ne_null fun _ => written_valueText, map_ne_null fun _ => written_postgresText,
      map_ne_null fun _ => written_clickhouseText⟩
  case keys =>
    intro R S source target table rules rendered rendered' texts texts' hsource htarget hrendered
      hrendered' htexts htexts' r s
    obtain ⟨found, hfound, hkey⟩ := render_key hrendered
    obtain rfl := Except.ok.inj (hfound.symm.trans htexts)
    obtain ⟨found', hfound', hkey'⟩ := render_key hrendered'
    obtain rfl := Except.ok.inj (hfound'.symm.trans htexts')
    -- Both keys have a text for each key column, so they are cut at the same places.
    have hlength : found.length = found'.length := by
      rw [length_of_keyTexts htexts, length_of_keyTexts htexts']
    rw [hkey, hkey']
    apply rowString_inj
    · rw [List.length_map, List.length_map, hlength]
    · exact List.forall_mem_map.mpr (closed_of_keyTexts hsource htexts r)
    · exact List.forall_mem_map.mpr (closed_of_keyTexts htarget htexts' s)

/-- A separator inside a text does not move the cut. -/
theorem rowString_separators :
    rowString ["a\\|b", "c"] ≠ rowString ["a", "b\\|c"] := by
  let column : Column := ⟨"t", .text, 0, "", ""⟩
  have hcanonical : ∀ held : String, Canonical column
      (String.ofList (ruledText id {} (rstrip '\x00' held.toList))) :=
    fun held => @Canonical.reference column id {} (some held) _ rfl
  have hvalues : List.Forall₂ Canonical [column, column] ["a\\|b", "c"] :=
    .cons (hcanonical "a|b") (.cons (hcanonical "c") .nil)
  have hvalues' : List.Forall₂ Canonical [column, column] ["a", "b\\|c"] :=
    .cons (hcanonical "a") (.cons (hcanonical "b|c") .nil)
  intro heq
  have h := (canonical_strings_injective.1 _ _ _ hvalues hvalues').mp heq
  exact absurd h (by decide)

end PlatformOps.Reconcile
