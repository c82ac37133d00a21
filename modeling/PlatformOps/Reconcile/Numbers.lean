import PlatformOps.Reconcile.Values

/-!
# Numeric Columns

When the two engines' texts of two numbers compare the numbers, and are what the
reference makes of them. ClickHouse discards digits before it rounds: to ten after the
point, or to the scale where that is ten or more, so such a scale truncates; an integer
column of a `Decimal` truncates, too. Postgres takes 6 digits of a `real` and 15 of a
`double precision`, and ClickHouse scales a float in floating point, where the reference
reads the shortest digits. The reference has 28 digits and raises on more.
-/

namespace PlatformOps.Reconcile

open Fallible Decimals Floats

/-! ## Fixed digits are read back -/

private theorem not_mem_of_isDigit {c : Char} {text : List Char}
    (h : ∀ d ∈ text, d.isDigit = true) (hc : c.isDigit = false) : c ∉ text := by
  intro hmem
  rw [h c hmem] at hc
  cases hc

private theorem isDigit_of_mem_toDigits {n : ℕ} :
    ∀ d ∈ Nat.toDigits 10 n, d.isDigit = true :=
  fun _ => Nat.isDigit_of_mem_toDigits (by decide) (by decide)

private theorem toDigits_injective : Function.Injective (Nat.toDigits 10) := by
  intro m n h
  rw [← Nat.ofDigitChars_ten_toDigits (n := m), h, Nat.ofDigitChars_ten_toDigits]

/-- A sign and digits are read back. -/
private theorem signed_inj {n n' : ℤ} {m m' : ℕ}
    (h : (if n < 0 then ['-'] else []) ++ Nat.toDigits 10 m =
      (if n' < 0 then ['-'] else []) ++ Nat.toDigits 10 m') : (n < 0 ↔ n' < 0) ∧ m = m' := by
  have hdash : ∀ m, '-' ∉ Nat.toDigits 10 m :=
    fun m => not_mem_of_isDigit isDigit_of_mem_toDigits (by decide)
  by_cases hn : n < 0 <;> by_cases hn' : n' < 0
  · rw [if_pos hn, if_pos hn'] at h
    exact ⟨by simp [hn, hn'], toDigits_injective (List.append_cancel_left h)⟩
  · rw [if_pos hn, if_neg hn', List.nil_append] at h
    exact absurd (h ▸ List.mem_append_left _ (List.mem_singleton_self _)) (hdash m')
  · rw [if_neg hn, if_pos hn', List.nil_append] at h
    exact absurd (h ▸ List.mem_append_left _ (List.mem_singleton_self _)) (hdash m)
  · rw [if_neg hn, if_neg hn'] at h
    exact ⟨by simp [hn, hn'], toDigits_injective h⟩

theorem fixedText_injective (k : ℕ) : Function.Injective (fixedText k) := by
  intro n n' h
  -- The sign and the digits on both sides of the point.
  have hparts : ((n < 0 ↔ n' < 0) ∧ n.natAbs / 10 ^ k = n'.natAbs / 10 ^ k) ∧
      n.natAbs % 10 ^ k = n'.natAbs % 10 ^ k := by
    unfold fixedText at h
    by_cases hk : k = 0
    · subst hk
      rw [if_pos rfl, if_pos rfl, List.append_nil, List.append_nil] at h
      refine ⟨signed_inj h, ?_⟩
      rw [pow_zero, Nat.mod_one, Nat.mod_one]
    · rw [if_neg hk, if_neg hk] at h
      have hpoint : ∀ m, '.' ∉ paddedDigits k m :=
        fun m => not_mem_of_isDigit (fun _ => isDigit_of_mem_paddedDigits) (by decide)
      obtain ⟨hwhole, hfraction⟩ := (append_cons_inj_of_last (hpoint _) (hpoint _)).mp h
      exact ⟨signed_inj hwhole, paddedDigits_injective k hfraction⟩
  obtain ⟨⟨hsign, hdiv⟩, hmod⟩ := hparts
  have habs : n.natAbs = n'.natAbs := by
    rw [← Nat.div_add_mod n.natAbs (10 ^ k), hdiv, hmod, Nat.div_add_mod]
  omega

/-! ## What each side renders -/

/-- The kinds of numeric columns. -/
inductive NumberKind
  | int | decimal
deriving DecidableEq, Repr

namespace NumberKind

def kind : NumberKind → Kind
  | .int => .int
  | .decimal => .decimal

/-- A number of a column of the kind. -/
abbrev Value : NumberKind → Type
  | .int => ℚ
  | .decimal => Stored

def held : (k : NumberKind) → k.Value → Held k.kind
  | .int, x => x
  | .decimal, x => .finite x

def number : (k : NumberKind) → k.Value → ℚ
  | .int, x => x
  | .decimal, x => x.value

/-- The digits after the point that are compared. -/
def scale (rule : Rule) : NumberKind → ℕ
  | .int => 0
  | .decimal => rule.scale

end NumberKind

variable {lower : List Char → List Char} {rule : Rule} {targetType : String} {x : ℚ} {number : Stored}

/-- The bound on the integer digits, scaled. -/
private theorem abs_mul_lt {k : ℕ} (hk : k ≤ 18) (hx : |x| < 10 ^ 18) :
    |x * 10 ^ k| < 10 ^ 36 := by
  have hunit : (0 : ℚ) < 10 ^ k := by positivity
  have hpow : (10 : ℚ) ^ k ≤ 10 ^ 18 := pow_le_pow_right₀ (by norm_num) hk
  rw [abs_mul, abs_of_pos hunit]
  calc |x| * 10 ^ k < 10 ^ 18 * 10 ^ k := mul_lt_mul_of_pos_right hx hunit
    _ ≤ 10 ^ 18 * 10 ^ 18 := by gcongr
    _ = 10 ^ 36 := by norm_num

/-- A few digits of a number are at most twice the number. -/
private theorem abs_inContext_le {p : ℕ} (hp : p ≠ 0) (x : ℚ) : |inContext p x| ≤ 2 * |x| := by
  have hmove := abs_inContext_sub_le p x
  have hdigit : (10 : ℚ) ^ (1 - (p : ℤ)) ≤ 1 := zpow_le_one_of_nonpos₀ (by norm_num) (by omega)
  have hhalf : |x| * (10 ^ (1 - (p : ℤ)) / 2) ≤ |x| * 1 :=
    mul_le_mul_of_nonneg_left (by linarith) (abs_nonneg x)
  have hsum := abs_add_le (inContext p x - x) x
  rw [sub_add_cancel] at hsum
  linarith

theorem Stored.abs_numeric_le (number : Stored) : |number.numeric| ≤ 2 * |number.value| := by
  cases number with
  | decimal x =>
    show |x| ≤ 2 * |x|
    linarith [abs_nonneg x]
  | double x => exact abs_inContext_le (by decide) x
  | single x read => exact abs_inContext_le (by decide) x

theorem Stored.abs_cut_le (k : ℕ) (number : Stored) :
    |(number.cut k : ℚ)| ≤ 8 * |number.value * 10 ^ k| := by
  cases number with
  | decimal x =>
    refine (abs_down_le _).trans ?_
    show |x * 10 ^ k| ≤ 8 * |x * 10 ^ k|
    linarith [abs_nonneg (x * 10 ^ k)]
  | double x => exact (abs_down_le _).trans (binary64.abs_scaled_le k x)
  | single x read => exact (abs_down_le _).trans (binary32.abs_scaled_le k x)

theorem postgresText_int {n : ℤ} (hn : |(n : ℚ)| < 10 ^ 18) :
    postgresText lower rule .int (n : ℚ) = .ok (fixedText 0 n) := by
  have hbound : |n| < 10 ^ 18 := by exact_mod_cast hn
  rw [abs_lt] at hbound
  rw [postgresText, halfUp_intCast, if_pos (by constructor <;> omega)]

theorem clickhouseText_int (hx : |x| < 10 ^ 18) :
    clickhouseText lower targetType rule .int x = .ok (fixedText 0 (down x)) := by
  have hbound : |down x| < 10 ^ 18 := by exact_mod_cast (abs_down_le x).trans_lt hx
  rw [abs_lt] at hbound
  rw [clickhouseText, if_pos (by constructor <;> omega)]

theorem postgresText_decimal (hscale : rule.scale ≤ 18) (hx : |number.value| < 10 ^ 18) :
    postgresText lower rule .decimal (.finite number) =
      .ok (fixedText rule.scale (halfUp (number.numeric * 10 ^ rule.scale))) := by
  have hbound : |halfUp (number.numeric * 10 ^ rule.scale)| < 10 ^ 38 := by
    rw [abs_halfUp_lt_iff]
    have hscaled := abs_mul_lt hscale hx
    have hnumeric : |number.numeric * 10 ^ rule.scale| ≤ 2 * |number.value * 10 ^ rule.scale| := by
      rw [abs_mul, abs_mul, ← mul_assoc]
      exact mul_le_mul_of_nonneg_right number.abs_numeric_le (abs_nonneg _)
    push_cast
    linarith
  rw [postgresText, if_pos hbound]

/-- The digits after the point that ClickHouse keeps before it rounds. -/
def keptDigits (rule : Rule) : ℕ :=
  max rule.scale 10

/-- What ClickHouse makes of a number, in units of the scale. -/
def keptUnits (rule : Rule) (number : Stored) : ℤ :=
  halfUp (number.cut (keptDigits rule) / 10 ^ keptDigits rule * 10 ^ rule.scale)

theorem clickhouseText_decimal (hscale : rule.scale ≤ 18) (hx : |number.value| < 10 ^ 18) :
    clickhouseText lower targetType rule .decimal (.finite number) =
      .ok (fixedText rule.scale (keptUnits rule number)) := by
  have hbound : |number.cut (max rule.scale 10)| < 10 ^ 38 := by
    have hscaled := abs_mul_lt (show max rule.scale 10 ≤ 18 by omega) hx
    have hcut := number.abs_cut_le (max rule.scale 10)
    have hcut' : |(number.cut (max rule.scale 10) : ℚ)| < 10 ^ 38 := by linarith
    exact_mod_cast hcut'
  simp only [clickhouseText, toDecimal128, if_pos hbound, bind, Except.bind, pure, Except.pure]
  rfl

/-- Of a `Decimal`'s digits after the scale, ClickHouse uses the ones up to the tenth. -/
theorem keptUnits_decimal (rule : Rule) (x : ℚ) : keptUnits rule (.decimal x) =
    if rule.scale < 10 then halfUp (x * 10 ^ rule.scale) else down (x * 10 ^ rule.scale) := by
  show halfUp (down (x * 10 ^ keptDigits rule) / 10 ^ keptDigits rule * 10 ^ rule.scale) = _
  split
  · rename_i hlt
    -- At least one more digit is kept than the scale has.
    obtain ⟨e, he⟩ : ∃ e, 10 = rule.scale + e := ⟨10 - rule.scale, by omega⟩
    have hkept : keptDigits rule = rule.scale + e := by
      rw [keptDigits]
      omega
    rw [hkept, pow_add, ← mul_assoc, ← halfUp_down (show e ≠ 0 by omega) (x * 10 ^ rule.scale)]
    congr 1
    field_simp
  · rename_i hge
    have hkept : keptDigits rule = rule.scale := by
      rw [keptDigits]
      omega
    rw [hkept, div_mul_cancel₀ _ (by positivity), halfUp_intCast]

/-- The reference, on a decimal: 28 digits, or it raises. -/
theorem valueText_decimal : valueText lower rule .decimal (.finite number) =
    if |halfUp (number.shown * 10 ^ rule.scale)| < 10 ^ 28 then
      .ok (fixedText rule.scale (halfUp (number.shown * 10 ^ rule.scale)))
    else .error "decimal.InvalidOperation" := by
  simp only [valueText, quantize, decimalText]
  split
  · simp only [bind, Except.bind, pure, Except.pure]
    rw [div_mul_cancel₀ _ (by positivity), Int.floor_intCast]
  · rfl

/-! ## When the texts compare the numbers -/

/-- The texts of the two engines are equal exactly if the numbers are, rounded half away from zero
to the column's scale; and each is the reference's. -/
def ComparesExactly (lower : List Char → List Char) (k : NumberKind) (column : Column)
    (rule : Rule) (a b : k.Value) : Prop :=
  ∃ text text',
    engineValue (postgresText lower rule k.kind) (some (k.held a)) = .ok text ∧
    engineValue (clickhouseText lower column.targetType rule k.kind) (some (k.held b)) =
      .ok text' ∧
    (text = text' ↔
      halfUp (k.number a * 10 ^ k.scale rule) = halfUp (k.number b * 10 ^ k.scale rule)) ∧
    canonicalValue lower { column with kind := k.kind } rule (some (k.held a)) = .ok text ∧
    canonicalValue lower { column with kind := k.kind } rule (some (k.held b)) = .ok text'

/-- The reference has digits enough for a number. -/
def DigitsFit (rule : Rule) (number : Stored) : Prop :=
  |number.shown * 10 ^ rule.scale| + 1 / 2 < 10 ^ 28

/-- What ClickHouse cuts of a number would not have been rounded up; of a float, what is left of it
in floating point is rounded as its shortest digits are. -/
def Uncut (rule : Rule) : Stored → Prop
  | .decimal x => rule.scale < 10 ∨ Int.fract |x * 10 ^ rule.scale| < 1 / 2
  | number => keptUnits rule number = halfUp (number.shown * 10 ^ rule.scale)

/-- Nothing that is cut would have been rounded up, and no number is too long: for an integer
column, what is stored as a `Decimal` has a fraction below one half, or is at least one away.
Of floats, the digits that Postgres takes are rounded as the shortest ones, and these tell two
numbers apart as their values do. -/
def NothingLost (rule : Rule) : (k : NumberKind) → k.Value → k.Value → Prop
  | .int, a, b => Int.fract |b| < 1 / 2 ∨ 1 ≤ |a - b|
  | .decimal, a, b =>
    (halfUp (a.numeric * 10 ^ rule.scale) = halfUp (a.shown * 10 ^ rule.scale) ∧ Uncut rule b) ∧
      (halfUp (a.shown * 10 ^ rule.scale) = halfUp (b.shown * 10 ^ rule.scale) ↔
        halfUp (a.value * 10 ^ rule.scale) = halfUp (b.value * 10 ^ rule.scale)) ∧
      DigitsFit rule a ∧ DigitsFit rule b

private theorem map_ofList_eq_ok {rendered : Except String (List Char)} {text : List Char} :
    String.ofList <$> rendered = .ok (String.ofList text) ↔ rendered = .ok text := by
  cases rendered with
  | error e => exact iff_of_false (fun h => by cases h) (fun h => by cases h)
  | ok t =>
    constructor
    · intro h
      rw [String.ofList_injective (Except.ok.inj h)]
    · intro h
      rw [Except.ok.inj h]
      rfl

/-- With the engines' texts known, what is left to compare. -/
private theorem comparesExactly_of_texts {k : NumberKind} {column : Column} {a b : k.Value} {m n : ℤ}
    (hsource : postgresText lower rule k.kind (k.held a) = .ok (fixedText (k.scale rule) m))
    (htarget : clickhouseText lower column.targetType rule k.kind (k.held b) =
      .ok (fixedText (k.scale rule) n)) :
    ComparesExactly lower k column rule a b ↔
      (m = n ↔
        halfUp (k.number a * 10 ^ k.scale rule) = halfUp (k.number b * 10 ^ k.scale rule)) ∧
      valueText lower rule k.kind (k.held a) = .ok (fixedText (k.scale rule) m) ∧
      valueText lower rule k.kind (k.held b) = .ok (fixedText (k.scale rule) n) := by
  -- Both sides are texts of fixed digits, which are as different as their numbers.
  have hsource' : engineValue (postgresText lower rule k.kind) (some (k.held a)) =
      .ok (String.ofList (fixedText (k.scale rule) m)) := map_ofList_eq_ok.mpr hsource
  have htarget' : engineValue (clickhouseText lower column.targetType rule k.kind)
      (some (k.held b)) = .ok (String.ofList (fixedText (k.scale rule) n)) :=
    map_ofList_eq_ok.mpr htarget
  have htexts : String.ofList (fixedText (k.scale rule) m) =
      String.ofList (fixedText (k.scale rule) n) ↔ m = n := by
    rw [String.ofList_inj]
    exact (fixedText_injective _).eq_iff
  constructor
  · rintro ⟨text, text', htext, htext', hiff, ha, hb⟩
    obtain rfl := Except.ok.inj (hsource'.symm.trans htext)
    obtain rfl := Except.ok.inj (htarget'.symm.trans htext')
    exact ⟨htexts.symm.trans hiff, map_ofList_eq_ok.mp ha, map_ofList_eq_ok.mp hb⟩
  · rintro ⟨hiff, ha, hb⟩
    exact ⟨_, _, hsource', htarget', htexts.trans hiff, map_ofList_eq_ok.mpr ha,
      map_ofList_eq_ok.mpr hb⟩

private theorem comparesExactly_int {column : Column} {n : ℤ} {b : ℚ}
    (hn : |(n : ℚ)| < 10 ^ 18) (hb : |b| < 10 ^ 18) :
    ComparesExactly lower .int column rule (n : ℚ) b ↔ NothingLost rule .int (n : ℚ) b := by
  have hvalue : valueText lower rule .int (n : ℚ) = .ok (fixedText 0 n) := by
    rw [valueText, down_intCast]
  have hexact : ComparesExactly lower .int column rule (n : ℚ) b ↔
      (n = down b ↔ n = halfUp b) := by
    rw [comparesExactly_of_texts (k := .int) (a := (n : ℚ)) (b := b) (m := n) (n := down b)
      (postgresText_int hn) (clickhouseText_int hb)]
    simp only [NumberKind.scale, NumberKind.number, pow_zero, mul_one, halfUp_intCast]
    exact and_iff_left ⟨hvalue, rfl⟩
  rw [hexact, NothingLost]
  rcases lt_or_ge (Int.fract |b|) (1 / 2) with hlt | hge
  · rw [(halfUp_eq_down_iff b).mpr hlt]
    exact iff_of_true Iff.rfl (Or.inl hlt)
  · -- From a half on, cutting and rounding give neighbours: they are told apart if the source is near.
    have hne : halfUp b ≠ down b := fun h => absurd ((halfUp_eq_down_iff b).mp h) (not_lt.mpr hge)
    have hnext := abs_sub_lt_one_iff (n := n) hge
    rw [or_iff_right (not_lt.mpr hge), ← not_lt (a := |(n : ℚ) - b|), hnext, not_or]
    constructor
    · intro hiff
      constructor
      · intro h
        exact hne ((hiff.mp h).symm.trans h)
      · intro h
        exact hne (h.symm.trans (hiff.mpr h))
    · intro hnot
      exact iff_of_false hnot.1 hnot.2

/-- Nothing of a number is cut exactly if ClickHouse rounds it as its shortest digits. -/
private theorem uncut_iff : Uncut rule number ↔
    keptUnits rule number = halfUp (number.shown * 10 ^ rule.scale) := by
  cases number with
  | decimal x =>
    rw [Uncut, keptUnits_decimal, Stored.shown]
    split
    · rename_i hlt
      exact iff_of_true (Or.inl hlt) rfl
    · rename_i hge
      rw [or_iff_right hge, ← halfUp_eq_down_iff]
      exact eq_comm
  | double x => exact Iff.rfl
  | single x read => exact Iff.rfl

/-- The reference's text is given exactly by its own digits, if they are few enough. -/
private theorem valueText_eq_ok {n : ℤ} : valueText lower rule .decimal (.finite number) =
    .ok (fixedText rule.scale n) ↔
      n = halfUp (number.shown * 10 ^ rule.scale) ∧ DigitsFit rule number := by
  have hbound : |halfUp (number.shown * 10 ^ rule.scale)| < 10 ^ 28 ↔ DigitsFit rule number := by
    have h := abs_halfUp_lt_iff (x := number.shown * 10 ^ rule.scale) (n := 10 ^ 28)
    push_cast at h
    exact h
  rw [valueText_decimal]
  split
  · rename_i hshort
    constructor
    · intro h
      exact ⟨(fixedText_injective _ (Except.ok.inj h)).symm, hbound.mp hshort⟩
    · rintro ⟨rfl, -⟩
      rfl
  · rename_i hlong
    exact iff_of_false (fun h => by cases h) fun h => hlong (hbound.mpr h.2)

private theorem comparesExactly_decimal {column : Column} {a b : Stored} (hscale : rule.scale ≤ 18)
    (ha : |a.value| < 10 ^ 18) (hb : |b.value| < 10 ^ 18) :
    ComparesExactly lower .decimal column rule a b ↔ NothingLost rule .decimal a b := by
  rw [comparesExactly_of_texts (k := .decimal) (a := a) (b := b) (postgresText_decimal hscale ha)
    (clickhouseText_decimal hscale hb)]
  have hsource : valueText lower rule .decimal (.finite a) =
      .ok (fixedText rule.scale (halfUp (a.numeric * 10 ^ rule.scale))) ↔ _ := valueText_eq_ok
  have htarget : valueText lower rule .decimal (.finite b) =
      .ok (fixedText rule.scale (keptUnits rule b)) ↔ _ := valueText_eq_ok
  simp only [NumberKind.kind, NumberKind.held, NumberKind.number, NumberKind.scale, NothingLost,
    uncut_iff]
  rw [hsource, htarget]
  -- Each engine's digits are the reference's, so they compare the numbers if the reference does.
  constructor
  · rintro ⟨hiff, ⟨hkept, hshort⟩, hkept', hshort'⟩
    rw [hkept, hkept'] at hiff
    exact ⟨⟨hkept, hkept'⟩, hiff, hshort, hshort'⟩
  · rintro ⟨⟨hkept, hkept'⟩, hiff, hshort, hshort'⟩
    refine ⟨?_, ⟨hkept, hshort⟩, hkept', hshort'⟩
    rw [hkept, hkept']
    exact hiff

/-- Seven digits of a `real` are more than Postgres takes. -/
example : postgresText id ⟨false, false, 2⟩ .decimal
    (.finite (.single (12345675 / 10) (12345675 / 10))) = .ok "1234570.00".toList := by
  decide +kernel

end PlatformOps.Reconcile
