import PlatformOps.Reconcile.Classify
import PlatformOps.Reconcile.Numbers

/-!
# Exact Classes

When the class of a difference is what its name says, whichever side comes first. Text is
trimmed on both sides before it is compared, so spaces in front are called trailing ones;
and what needs more than 28 digits, is no number, or leaves the calendar has no class: it
raises.
-/

namespace PlatformOps.Reconcile

open Fallible Decimals Floats

/-- Two distinct canonical values of a column. -/
structure Difference (column : Column) where
  source : String
  target : String
  sourceCanonical : Canonical column source
  targetCanonical : Canonical column target
  ne : source ≠ target

/-! ## What is read is what was rendered -/

private theorem unsignedOf_digits (m : ℕ) {k : ℕ} (fraction : ℕ) (hfraction : fraction < 10 ^ k) :
    unsignedOf (Nat.toDigits 10 m ++ if k = 0 then [] else '.' :: paddedDigits k fraction) =
      some ((m : ℚ) + fraction / 10 ^ k) := by
  have hdigits : ∀ c ∈ Nat.toDigits 10 m, c.isDigit = true :=
    fun _ => Nat.isDigit_of_mem_toDigits (by decide) (by decide)
  -- The digits up to the point are the whole part, which is never empty.
  obtain ⟨c, rest, hwhole⟩ := List.exists_cons_of_ne_nil (Nat.toDigits_ne_nil (b := 10) (n := m))
  unfold unsignedOf
  by_cases hk : k = 0
  · subst hk
    have hzero : fraction = 0 := by omega
    rw [if_pos rfl, List.takeWhile_append_of_pos hdigits, List.dropWhile_append_of_pos hdigits]
    rw [List.takeWhile_nil, List.append_nil, List.dropWhile_nil, hwhole]
    show some (_ : ℚ) = _
    rw [← hwhole, Nat.ofDigitChars_ten_toDigits, hzero]
    simp
  · have hlength : (paddedDigits k fraction).length = k := by
      have hle := (Nat.length_toDigits_le_iff (by decide : 1 < 10) (by omega)).mpr hfraction
      rw [paddedDigits, List.length_append, List.length_replicate]
      omega
    have hne : paddedDigits k fraction ≠ [] := by
      intro hnil
      rw [hnil] at hlength
      exact hk hlength.symm
    have hall : (paddedDigits k fraction).all Char.isDigit = true :=
      List.all_eq_true.mpr fun _ => isDigit_of_mem_paddedDigits
    rw [if_neg hk, List.takeWhile_append_of_pos hdigits, List.dropWhile_append_of_pos hdigits]
    -- The point is where the digits end.
    have hpoint : ('.').isDigit = false := by decide
    rw [List.takeWhile_cons_of_neg (by simp [hpoint]),
      List.dropWhile_cons_of_neg (by simp [hpoint]), List.append_nil, hwhole]
    show (if '.' = '.' ∧ paddedDigits k fraction ≠ [] ∧ (paddedDigits k fraction).all Char.isDigit
      then some (_ : ℚ) else none) = _
    rw [if_pos ⟨rfl, hne, hall⟩, ← hwhole, Nat.ofDigitChars_ten_toDigits, ofDigitChars_paddedDigits,
      hlength]

/-- Digits are written of a number, not letters. -/
private theorem fixedText_ne_nanText (k : ℕ) (n : ℤ) : fixedText k n ≠ nanText := by
  have hletter : 'N' ∉ fixedText k n := by
    intro hmem
    rw [fixedText, List.mem_append, List.mem_append] at hmem
    rcases hmem with (hsign | hwhole) | hfraction
    · split at hsign
      · cases List.mem_singleton.mp hsign
      · cases hsign
    · exact absurd (Nat.isDigit_of_mem_toDigits (by decide) (by decide) hwhole) (by decide)
    · split at hfraction
      · cases hfraction
      · rcases List.mem_cons.mp hfraction with hpoint | hdigits
        · cases hpoint
        · exact absurd (isDigit_of_mem_paddedDigits hdigits) (by decide)
  intro h
  exact hletter (h ▸ List.mem_cons_self ..)

private theorem signedOf_fixedText (k : ℕ) (n : ℤ) : signedOf (fixedText k n) =
    some ((n : ℚ) / 10 ^ k) := by
  have hunit : (0 : ℚ) < 10 ^ k := by positivity
  have hvalue : ((n.natAbs / 10 ^ k : ℕ) : ℚ) + (n.natAbs % 10 ^ k : ℕ) / 10 ^ k =
      n.natAbs / 10 ^ k := by
    rw [eq_div_iff hunit.ne', add_mul, div_mul_cancel₀ _ hunit.ne', mul_comm]
    exact_mod_cast Nat.div_add_mod n.natAbs (10 ^ k)
  have hread := unsignedOf_digits (n.natAbs / 10 ^ k) (k := k) (n.natAbs % 10 ^ k)
    (Nat.mod_lt _ (by positivity))
  rw [hvalue] at hread
  rw [fixedText, List.append_assoc]
  by_cases hn : n < 0
  · rw [if_pos hn]
    show (unsignedOf (Nat.toDigits 10 (n.natAbs / 10 ^ k) ++
      if k = 0 then [] else '.' :: paddedDigits k (n.natAbs % 10 ^ k))).map (- ·) = _
    rw [hread, Option.map_some, Nat.cast_natAbs, abs_of_neg hn, Int.cast_neg, neg_div, neg_neg]
  · rw [if_neg hn, List.nil_append]
    rw [Nat.cast_natAbs, abs_of_nonneg (not_lt.mp hn)] at hread
    rw [← hread]
    -- Digits do not start with a sign.
    unfold signedOf
    split
    · rename_i digits heq
      obtain ⟨c, rest, hwhole⟩ :=
        List.exists_cons_of_ne_nil (Nat.toDigits_ne_nil (b := 10) (n := n.natAbs / 10 ^ k))
      have hdigit : c.isDigit = true :=
        Nat.isDigit_of_mem_toDigits (by decide) (by decide) (hwhole ▸ List.mem_cons_self ..)
      rw [hwhole] at heq
      obtain rfl := (List.cons.inj heq).1
      cases hdigit
    · rfl

/-- **The number that a text of fixed digits was rendered from.** -/
theorem decimalOf_fixedText (k : ℕ) (n : ℤ) : decimalOf (fixedText k n) =
    some (.finite ((n : ℚ) / 10 ^ k)) := by
  rw [decimalOf, if_neg (fixedText_ne_nanText k n), signedOf_fixedText, Option.map_some]

/-- A canonical decimal is read, unless it is NULL. -/
theorem Canonical.exists_decimalOf {column : Column} (hkind : column.kind = .decimal)
    {text : String} (h : Canonical column text) (hne : text ≠ null) :
    ∃ x, decimalOf text.toList = some x := by
  obtain ⟨t, ht, rfl⟩ := h.null_or_written.resolve_left hne
  rw [hkind] at ht
  rw [String.toList_ofList]
  cases ht with
  | decimal k n => exact ⟨_, decimalOf_fixedText k n⟩
  | nan => exact ⟨.nan, if_pos rfl⟩

/-! ## What a class says -/

/-- A value rounded half up, half to even or truncated at a scale, or scaled as a float and then
truncated or rounded, in units of the scale. -/
def wholes (scale : ℕ) (x : ℚ) : List ℤ :=
  [halfUp (x * 10 ^ scale), halfEven (x * 10 ^ scale), down (x * 10 ^ scale),
    down (binary64.scaled scale x), halfEven (binary64.scaled scale x)]

/-- One number is the other rounded or truncated, directly or through a float. -/
def IsForm (scale : ℕ) (x y : ℚ) : Prop :=
  ∃ n ∈ wholes scale x, y = n / 10 ^ scale

instance (scale : ℕ) (x y : ℚ) : Decidable (IsForm scale x y) :=
  inferInstanceAs (Decidable (∃ n ∈ wholes scale x, y = n / 10 ^ scale))

/-- One time is the other's wall clock, read as local time in a zone. -/
def IsLocal (zones : ZoneInfo) (zone : String) (a b : Timestamp) : Prop :=
  ∃ fold, zones zone fold a = some b

instance (zones : ZoneInfo) (zone : String) (a b : Timestamp) :
    Decidable (IsLocal zones zone a b) :=
  inferInstanceAs (Decidable (∃ fold, zones zone fold a = some b))

/-- A difference has a class, the same one with the sides swapped, and it is what it says. -/
structure HasClass (settings : ClassSettings) (column : Column) (source target : String)
    (klass : DiscrepancyClass) : Prop where
  forward : classify settings column source target = .ok klass
  backward : classify settings column target source = .ok klass
  null : source = null ∨ target = null → klass = .valueMismatch
  whitespace : klass = .whitespace → rstrip ' ' source.toList = rstrip ' ' target.toList
  caseOnly : klass = .caseOnly → settings.lower source.toList = settings.lower target.toList
  rounding : klass = .rounding → ∃ a b, decimalOf source.toList = some (.finite a) ∧
    decimalOf target.toList = some (.finite b) ∧ |a - b| ≤ settings.tolerance ∧
    (IsForm column.scale a b ∨ IsForm column.scale b a)
  timezoneShift : klass = .timezoneShift → ∃ a b, timestampOf source.toList = some a ∧
    timestampOf target.toList = some b ∧ ∃ zone ∈ settings.timeZones,
      IsLocal settings.zones zone a b ∨ IsLocal settings.zones zone b a

def ExactlyClassified (settings : ClassSettings) (column : Column) (source target : String) :
    Prop :=
  ∃ klass, HasClass settings column source target klass

/-! ## When it does -/

/-- No form of a value needs more than 28 digits, or a float that is too large. -/
def Short (scale : ℕ) (x : ℚ) : Prop :=
  ScaledFits scale x ∧ ∀ n ∈ wholes scale x, |n| < 10 ^ 28

/-- Numbers that 28 digits cannot tell to be further apart than the tolerance are short, and they
are not further apart if one is a form of the other. -/
def DecimalsFit (settings : ClassSettings) (scale : ℕ) (a b : ℚ) : Prop :=
  |inContext 28 (a - b)| ≤ settings.tolerance →
    Short scale a ∧ Short scale b ∧
      (IsForm scale a b ∨ IsForm scale b a → |a - b| ≤ settings.tolerance)

/-- A wall clock that a zone has in both folds. -/
def Readable (zones : ZoneInfo) (zone : String) (a : Timestamp) : Prop :=
  ∀ fold, (zones zone fold a).isSome = true

/-- Up to the first zone that fits, each has both times. -/
def ZonesFit (zones : ZoneInfo) (a b : Timestamp) : List String → Prop
  | [] => True
  | zone :: rest => (Readable zones zone a ∧ Readable zones zone b) ∧
    ((IsLocal zones zone a b ∨ IsLocal zones zone b a) ∨ ZonesFit zones a b rest)

/-- What a difference needs to be classified exactly, by its column's kind. -/
def Classifiable (settings : ClassSettings) (column : Column) (source target : String) : Prop :=
  source = null ∨ target = null ∨
    match column.kind with
    | .decimal => ∃ a b, decimalOf source.toList = some (.finite a) ∧
      decimalOf target.toList = some (.finite b) ∧ DecimalsFit settings column.scale a b
    | .ts => ∀ a b, timestampOf source.toList = some a → timestampOf target.toList = some b →
      ZonesFit settings.zones a b settings.timeZones
    | .text => strip source.toList = strip target.toList →
      rstrip ' ' source.toList = rstrip ' ' target.toList
    | _ => True

/-! ## Decimals -/

section DecimalKinds

variable {settings : ClassSettings} {scale : ℕ} {a b x : ℚ} {klass : DiscrepancyClass}

/-- What a value leaves, or an error. -/
private theorem rounded_eq (h : ScaledFits scale x) : rounded scale x =
    if ∀ n ∈ wholes scale x, |n| < 10 ^ 28 then
      .ok ((wholes scale x).map fun n : ℤ => (n : ℚ) / 10 ^ scale)
    else .error "decimal.InvalidOperation" := by
  have hscaled : scaledFloat scale x = pure (binary64.scaled scale x) := if_pos h
  rw [← mapM_ite]
  have hp : 28 ≠ 0 := by decide
  simp only [rounded, hscaled, wholes, List.mapM_cons, List.mapM_nil, quantize_inContext hp]
  simp only [quantize, bind_assoc, pure_bind, List.cons_append, List.nil_append]

private theorem rounded_of_short (h : Short scale x) : ∃ forms, rounded scale x = .ok forms ∧
    ∀ y, y ∈ forms ↔ IsForm scale x y := by
  refine ⟨_, (rounded_eq h.1).trans (if_pos h.2), fun y => ?_⟩
  rw [List.mem_map]
  constructor
  · rintro ⟨n, hn, rfl⟩
    exact ⟨n, hn, rfl⟩
  · rintro ⟨n, hn, rfl⟩
    exact ⟨n, hn, rfl⟩

/-- Where the forms are returned, nothing was too large. -/
private theorem short_of_rounded {forms : List ℚ} (h : rounded scale x = .ok forms) :
    Short scale x := by
  have hfits : ScaledFits scale x := by
    obtain ⟨_, -, h⟩ := bind_eq_ok.mp h
    obtain ⟨_, -, h⟩ := bind_eq_ok.mp h
    obtain ⟨_, -, h⟩ := bind_eq_ok.mp h
    obtain ⟨scaled, hscaled, -⟩ := bind_eq_ok.mp h
    by_contra hlarge
    rw [scaledFloat, if_neg hlarge] at hscaled
    cases hscaled
  refine ⟨hfits, ?_⟩
  by_contra hlong
  rw [rounded_eq hfits, if_neg hlong] at h
  cases h

theorem classifyNumbers_of_apart (h : ¬ |inContext 28 (a - b)| ≤ settings.tolerance) :
    classifyNumbers settings scale a b = .ok .valueMismatch := by
  rw [classifyNumbers, if_neg h]
  rfl

/-- The class of two short numbers within the tolerance. -/
theorem classifyNumbers_of_short (h : |inContext 28 (a - b)| ≤ settings.tolerance)
    (ha : Short scale a) (hb : Short scale b) : classifyNumbers settings scale a b =
      .ok (if IsForm scale a b ∨ IsForm scale b a then .rounding else .valueMismatch) := by
  obtain ⟨forms, hforms, hmem⟩ := rounded_of_short ha
  obtain ⟨forms', hforms', hmem'⟩ := rounded_of_short hb
  rw [classifyNumbers, if_pos h, hforms, hforms']
  simp only [bind, Except.bind, pure, Except.pure, hmem, hmem']
  by_cases hform : IsForm scale a b
  · rw [if_pos hform, if_pos (Or.inl hform)]
  · rw [if_neg hform]
    by_cases hform' : IsForm scale b a
    · rw [if_pos hform', if_pos (Or.inr hform')]
    · rw [if_neg hform', if_neg (not_or.mpr ⟨hform, hform'⟩)]

/-- The first value is always rounded. -/
theorem short_of_classifyNumbers (h : |inContext 28 (a - b)| ≤ settings.tolerance)
    (hclass : classifyNumbers settings scale a b = .ok klass) : Short scale a := by
  rw [classifyNumbers, if_pos h] at hclass
  obtain ⟨forms, hforms, -⟩ := bind_eq_ok.mp hclass
  exact short_of_rounded hforms

private theorem eq_of_classifyNumbers (h : classifyNumbers settings scale a b = .ok klass) :
    klass = .rounding ∨ klass = .valueMismatch := by
  rw [classifyNumbers] at h
  split at h
  · obtain ⟨forms, -, h⟩ := bind_eq_ok.mp h
    split at h
    · exact Or.inl (pure_eq_ok.mp h).symm
    · obtain ⟨forms', -, h⟩ := bind_eq_ok.mp h
      split at h
      · exact Or.inl (pure_eq_ok.mp h).symm
      · exact Or.inr (pure_eq_ok.mp h).symm
  · exact Or.inr (pure_eq_ok.mp h).symm

theorem abs_inContext_sub_comm (a b : ℚ) : |inContext 28 (a - b)| = |inContext 28 (b - a)| := by
  rw [← neg_sub b a, inContext_neg, abs_neg]

/-- **Two numbers have the same class both ways, and are close enough to be called a rounding,
exactly if they fit.** -/
theorem classifyNumbers_iff :
    (∃ klass, classifyNumbers settings scale a b = .ok klass ∧
      classifyNumbers settings scale b a = .ok klass ∧
      (klass = .rounding → |a - b| ≤ settings.tolerance ∧
        (IsForm scale a b ∨ IsForm scale b a))) ↔
      DecimalsFit settings scale a b := by
  by_cases hnear : |inContext 28 (a - b)| ≤ settings.tolerance
  · have hnear' : |inContext 28 (b - a)| ≤ settings.tolerance := abs_inContext_sub_comm a b ▸ hnear
    constructor
    · -- Each order of the sides rounds the value that comes first.
      rintro ⟨klass, hclass, hclass', hrounding⟩ -
      have ha := short_of_classifyNumbers hnear hclass
      have hb := short_of_classifyNumbers hnear' hclass'
      refine ⟨ha, hb, fun hform => ?_⟩
      rw [classifyNumbers_of_short hnear ha hb, if_pos hform] at hclass
      exact (hrounding (Except.ok.inj hclass).symm).1
    · intro hfit
      obtain ⟨ha, hb, hclose⟩ := hfit hnear
      refine ⟨_, classifyNumbers_of_short hnear ha hb, ?_, ?_⟩
      · rw [classifyNumbers_of_short hnear' hb ha]
        simp only [Or.comm]
      · intro hclass
        split at hclass
        · rename_i hform
          exact ⟨hclose hform, hform⟩
        · cases hclass
  · have hapart' : ¬ |inContext 28 (b - a)| ≤ settings.tolerance :=
      fun h => hnear (abs_inContext_sub_comm a b ▸ h)
    refine iff_of_true ⟨.valueMismatch, classifyNumbers_of_apart hnear,
      classifyNumbers_of_apart hapart', fun h => by cases h⟩ fun h => absurd h hnear

end DecimalKinds

/-! ## Timestamps -/

section Times

variable {settings : ClassSettings} {zones : ZoneInfo} {zone : String} {timeZones : List String}
  {a b : Timestamp}

private theorem readAsLocal_of_readable (h : Readable zones zone a) : ∃ times,
    readAsLocal zones a zone = .ok times ∧ ∀ b, b ∈ times ↔ IsLocal zones zone a b := by
  obtain ⟨early, hearly⟩ := Option.isSome_iff_exists.mp (h false)
  obtain ⟨late, hlate⟩ := Option.isSome_iff_exists.mp (h true)
  refine ⟨[early, late], by rw [readAsLocal, hearly, hlate], fun b => ?_⟩
  rw [IsLocal, Bool.exists_bool, hearly, hlate, List.mem_pair, Option.some_inj, Option.some_inj,
    eq_comm, @eq_comm _ b late]

private theorem readable_of_readAsLocal {times : List Timestamp}
    (h : readAsLocal zones a zone = .ok times) : Readable zones zone a := by
  rw [readAsLocal] at h
  split at h
  · rename_i hearly hlate
    intro fold
    cases fold with
    | false => rw [hearly]; rfl
    | true => rw [hlate]; rfl
  · cases h

theorem shiftedIn_of_readable (ha : Readable zones zone a) (hb : Readable zones zone b) :
    shiftedIn zones a b zone = .ok (decide (IsLocal zones zone a b ∨ IsLocal zones zone b a)) := by
  obtain ⟨times, htimes, hmem⟩ := readAsLocal_of_readable ha
  obtain ⟨times', htimes', hmem'⟩ := readAsLocal_of_readable hb
  rw [shiftedIn, htimes, htimes']
  simp only [bind, Except.bind, pure, Except.pure, hmem, hmem']
  by_cases hlocal : IsLocal zones zone a b
  · simp [hlocal]
  · simp [hlocal]

theorem readable_of_shiftedIn {shifted : Bool} (h : shiftedIn zones a b zone = .ok shifted) :
    Readable zones zone a := by
  obtain ⟨times, htimes, -⟩ := bind_eq_ok.mp h
  exact readable_of_readAsLocal htimes

/-- The answer that both orders of two times give. -/
theorem anyShifted_of_zonesFit (h : ZonesFit zones a b timeZones) : ∃ shifted,
    anyShifted zones a b timeZones = .ok shifted ∧ anyShifted zones b a timeZones = .ok shifted ∧
      (shifted = true → ∃ zone ∈ timeZones, IsLocal zones zone a b ∨ IsLocal zones zone b a) := by
  induction timeZones with
  | nil => exact ⟨false, rfl, rfl, fun h => by cases h⟩
  | cons zone rest ih =>
    obtain ⟨⟨ha, hb⟩, hrest⟩ := h
    have hboth : shiftedIn zones b a zone =
        .ok (decide (IsLocal zones zone a b ∨ IsLocal zones zone b a)) := by
      rw [shiftedIn_of_readable hb ha]
      simp only [Or.comm]
    rw [anyShifted, anyShifted, shiftedIn_of_readable ha hb, hboth]
    -- The first zone that fits ends the search, in both orders.
    by_cases hlocal : IsLocal zones zone a b ∨ IsLocal zones zone b a
    · rw [decide_eq_true hlocal]
      exact ⟨true, rfl, rfl, fun _ => ⟨zone, List.mem_cons_self .., hlocal⟩⟩
    · rw [decide_eq_false hlocal]
      obtain ⟨shifted, hforward, hbackward, hfound⟩ := ih (hrest.resolve_left hlocal)
      refine ⟨shifted, hforward, hbackward, fun htrue => ?_⟩
      obtain ⟨found, hmem, hfits⟩ := hfound htrue
      exact ⟨found, List.mem_cons_of_mem _ hmem, hfits⟩

/-- Where both orders have an answer, the zones fit. -/
theorem zonesFit_of_anyShifted {shifted shifted' : Bool}
    (h : anyShifted zones a b timeZones = .ok shifted)
    (h' : anyShifted zones b a timeZones = .ok shifted') : ZonesFit zones a b timeZones := by
  induction timeZones with
  | nil => trivial
  | cons zone rest ih =>
    obtain ⟨here, hhere, hrest⟩ := bind_eq_ok.mp h
    obtain ⟨here', hhere', hrest'⟩ := bind_eq_ok.mp h'
    have ha := readable_of_shiftedIn hhere
    have hb := readable_of_shiftedIn hhere'
    refine ⟨⟨ha, hb⟩, ?_⟩
    by_cases hlocal : IsLocal zones zone a b ∨ IsLocal zones zone b a
    · exact Or.inl hlocal
    · right
      -- No answer yet: both orders go on.
      rw [shiftedIn_of_readable ha hb, decide_eq_false hlocal] at hhere
      rw [shiftedIn_of_readable hb ha, decide_eq_false fun h => hlocal h.symm] at hhere'
      obtain rfl := Except.ok.inj hhere
      obtain rfl := Except.ok.inj hhere'
      exact ih hrest hrest'

/-- **Two times have the same class both ways, and one that says what it is, exactly if the zones
fit.** -/
theorem classifyTimes_iff :
    (∃ klass, classifyTimes settings a b = .ok klass ∧ classifyTimes settings b a = .ok klass ∧
      (klass = .timezoneShift → ∃ zone ∈ settings.timeZones,
        IsLocal settings.zones zone a b ∨ IsLocal settings.zones zone b a)) ↔
      ZonesFit settings.zones a b settings.timeZones := by
  constructor
  · rintro ⟨klass, hforward, hbackward, -⟩
    obtain ⟨shifted, hshifted, -⟩ := bind_eq_ok.mp hforward
    obtain ⟨shifted', hshifted', -⟩ := bind_eq_ok.mp hbackward
    exact zonesFit_of_anyShifted hshifted hshifted'
  · intro hfit
    obtain ⟨shifted, hforward, hbackward, hfound⟩ := anyShifted_of_zonesFit hfit
    rw [classifyTimes, classifyTimes, hforward, hbackward]
    cases shifted with
    | true => exact ⟨.timezoneShift, rfl, rfl, fun _ => hfound rfl⟩
    | false => exact ⟨.valueMismatch, rfl, rfl, fun h => by cases h⟩

private theorem eq_of_classifyTimes {klass : DiscrepancyClass}
    (h : classifyTimes settings a b = .ok klass) :
    klass = .timezoneShift ∨ klass = .valueMismatch := by
  obtain ⟨shifted, -, h⟩ := bind_eq_ok.mp h
  split at h
  · exact Or.inl (pure_eq_ok.mp h).symm
  · exact Or.inr (pure_eq_ok.mp h).symm

end Times

/-! ## Every kind -/

section Kinds

variable {settings : ClassSettings} {column : Column} {source target : String}

/-- A value mismatch promises nothing. -/
private theorem hasClass_valueMismatch
    (hforward : classify settings column source target = .ok .valueMismatch)
    (hbackward : classify settings column target source = .ok .valueMismatch) :
    HasClass settings column source target .valueMismatch :=
  { forward := hforward
    backward := hbackward
    null := fun _ => rfl
    whitespace := fun h => by cases h
    caseOnly := fun h => by cases h
    rounding := fun h => by cases h
    timezoneShift := fun h => by cases h }

private theorem classify_of_ne_null (hsource : source ≠ null) (htarget : target ≠ null) :
    classify settings column source target =
      classifyValues settings column source.toList target.toList :=
  if_neg (not_or.mpr ⟨hsource, htarget⟩)

/-- The classes of values that are read: a mismatch, or one that says something of the two. -/
structure ReadClass (settings : ClassSettings) (column : Column) (source target : String) {A : Type}
    (readText : List Char → Option A) (classOf : A → A → Except String DiscrepancyClass)
    (klass : DiscrepancyClass) (Says : A → A → Prop) : Prop where
  forward : classify settings column source target =
    classifyRead readText classOf source.toList target.toList
  backward : classify settings column target source =
    classifyRead readText classOf target.toList source.toList
  two : ∀ {a b found}, classOf a b = .ok found → found = klass ∨ found = .valueMismatch
  hasClass : ∀ {a b}, readText source.toList = some a → readText target.toList = some b →
    (HasClass settings column source target klass ↔
      classify settings column source target = .ok klass ∧
        classify settings column target source = .ok klass ∧ Says a b)

/-- A text that is not read is a mismatch; what is read is classified exactly if its class is the
same both ways and says what holds. -/
private theorem exactlyClassified_of_read {A : Type} {readText : List Char → Option A}
    {classOf : A → A → Except String DiscrepancyClass} {klass : DiscrepancyClass}
    {Says : A → A → Prop}
    (h : ReadClass settings column source target readText classOf klass Says) :
    ExactlyClassified settings column source target ↔
      ∀ a b, readText source.toList = some a → readText target.toList = some b →
        ∃ found, classOf a b = .ok found ∧ classOf b a = .ok found ∧
          (found = klass → Says a b) := by
  have hforward := h.forward
  have hbackward := h.backward
  rw [classifyRead] at hforward hbackward
  cases ha : readText source.toList with
  | none =>
    rw [ha] at hforward hbackward
    refine iff_of_true ⟨.valueMismatch, hasClass_valueMismatch hforward ?_⟩ fun a b h => by cases h
    rw [hbackward]
    cases readText target.toList <;> rfl
  | some a =>
    cases hb : readText target.toList with
    | none =>
      rw [ha, hb] at hforward hbackward
      exact iff_of_true ⟨.valueMismatch, hasClass_valueMismatch hforward hbackward⟩
        fun a b _ h => by cases h
    | some b =>
      rw [ha, hb] at hforward hbackward
      -- Both are read: the class is the one of the two values.
      have hspecial := h.hasClass ha hb
      constructor
      · rintro ⟨found, hclass⟩ _ _ ⟨⟩ ⟨⟩
        refine ⟨found, hforward.symm.trans hclass.forward, hbackward.symm.trans hclass.backward, ?_⟩
        rintro rfl
        exact (hspecial.mp hclass).2.2
      · intro hread
        obtain ⟨found, hclass, hclass', hsays⟩ := hread a b rfl rfl
        have hfound := hforward.trans hclass
        have hfound' := hbackward.trans hclass'
        rcases h.two hclass with rfl | rfl
        · exact ⟨_, hspecial.mpr ⟨hfound, hfound', hsays rfl⟩⟩
        · exact ⟨_, hasClass_valueMismatch hfound hfound'⟩

/-- Two numbers within the tolerance, one of which is a form of the other. -/
def IsRounding (settings : ClassSettings) (scale : ℕ) : Reading → Reading → Prop
  | .finite a, .finite b =>
    |a - b| ≤ settings.tolerance ∧ (IsForm scale a b ∨ IsForm scale b a)
  | _, _ => False

private theorem eq_of_classifyDecimals {scale : ℕ} {a b : Reading} {klass : DiscrepancyClass}
    (h : classifyDecimals settings scale a b = .ok klass) :
    klass = .rounding ∨ klass = .valueMismatch := by
  match a, b with
  | .finite a, .finite b => exact eq_of_classifyNumbers h
  | .nan, _ => cases h
  | .finite a, .nan => cases h

private theorem exactlyClassified_decimal (hkind : column.kind = .decimal) (hsource : source ≠ null)
    (htarget : target ≠ null) (hsourceCanonical : Canonical column source)
    (htargetCanonical : Canonical column target) :
    ExactlyClassified settings column source target ↔
      ∃ a b, decimalOf source.toList = some (.finite a) ∧
        decimalOf target.toList = some (.finite b) ∧ DecimalsFit settings column.scale a b := by
  have hforward : classify settings column source target = _ := classify_of_ne_null hsource htarget
  have hbackward : classify settings column target source = _ := classify_of_ne_null htarget hsource
  rw [classifyValues, hkind] at hforward hbackward
  have hread : ReadClass settings column source target decimalOf
      (classifyDecimals settings column.scale) .rounding (IsRounding settings column.scale) := by
    refine ⟨hforward, hbackward, eq_of_classifyDecimals, fun {a b} ha hb => ?_⟩
    constructor
    · intro hclass
      obtain ⟨x, y, hx, hy, hsays⟩ := hclass.rounding rfl
      obtain rfl := Option.some.inj (ha.symm.trans hx)
      obtain rfl := Option.some.inj (hb.symm.trans hy)
      exact ⟨hclass.forward, hclass.backward, hsays⟩
    · rintro ⟨hclass, hclass', hsays⟩
      obtain ⟨x, y, rfl, rfl⟩ : ∃ x y, a = .finite x ∧ b = .finite y := by
        cases a <;> cases b
        · exact ⟨_, _, rfl, rfl⟩
        all_goals cases hsays
      exact {
        forward := hclass
        backward := hclass'
        null := fun h => absurd h (not_or.mpr ⟨hsource, htarget⟩)
        whitespace := fun h => by cases h
        caseOnly := fun h => by cases h
        rounding := fun _ => ⟨x, y, ha, hb, hsays⟩
        timezoneShift := fun h => by cases h }
  -- Both are read, and a `NaN` has no class.
  obtain ⟨a, ha⟩ := hsourceCanonical.exists_decimalOf hkind hsource
  obtain ⟨b, hb⟩ := htargetCanonical.exists_decimalOf hkind htarget
  rw [exactlyClassified_of_read hread]
  constructor
  · intro h
    obtain ⟨found, hclass, hclass', hsays⟩ := h a b ha hb
    match a, b with
    | .finite x, .finite y =>
      exact ⟨x, y, ha, hb, classifyNumbers_iff.mp ⟨found, hclass, hclass', hsays⟩⟩
    | .nan, _ => cases hclass
    | .finite _, .nan => cases hclass
  · rintro ⟨x, y, hx, hy, hfit⟩ a' b' ha' hb'
    obtain rfl := Option.some.inj (hx.symm.trans ha')
    obtain rfl := Option.some.inj (hy.symm.trans hb')
    exact classifyNumbers_iff.mpr hfit

private theorem exactlyClassified_ts (hkind : column.kind = .ts) (hsource : source ≠ null)
    (htarget : target ≠ null) : ExactlyClassified settings column source target ↔
      ∀ a b, timestampOf source.toList = some a → timestampOf target.toList = some b →
        ZonesFit settings.zones a b settings.timeZones := by
  have hforward : classify settings column source target = _ := classify_of_ne_null hsource htarget
  have hbackward : classify settings column target source = _ := classify_of_ne_null htarget hsource
  rw [classifyValues, hkind] at hforward hbackward
  have hread : ReadClass settings column source target timestampOf (classifyTimes settings)
      .timezoneShift fun a b => ∃ zone ∈ settings.timeZones,
        IsLocal settings.zones zone a b ∨ IsLocal settings.zones zone b a := by
    refine ⟨hforward, hbackward, eq_of_classifyTimes, fun {a b} ha hb => ?_⟩
    constructor
    · intro hclass
      obtain ⟨a', b', ha', hb', hsays⟩ := hclass.timezoneShift rfl
      obtain rfl := Option.some.inj (ha.symm.trans ha')
      obtain rfl := Option.some.inj (hb.symm.trans hb')
      exact ⟨hclass.forward, hclass.backward, hsays⟩
    · rintro ⟨hclass, hclass', hsays⟩
      exact {
        forward := hclass
        backward := hclass'
        null := fun h => absurd h (not_or.mpr ⟨hsource, htarget⟩)
        whitespace := fun h => by cases h
        caseOnly := fun h => by cases h
        rounding := fun h => by cases h
        timezoneShift := fun _ => ⟨a, b, ha, hb, hsays⟩ }
  rw [exactlyClassified_of_read hread]
  simp only [← classifyTimes_iff]

/-- Texts have a class both ways; it is exact unless it blames trailing spaces for others. -/
private theorem exactlyClassified_text (hkind : column.kind = .text) (hsource : source ≠ null)
    (htarget : target ≠ null) : ExactlyClassified settings column source target ↔
      (strip source.toList = strip target.toList →
        rstrip ' ' source.toList = rstrip ' ' target.toList) := by
  have hforward : classify settings column source target = _ := classify_of_ne_null hsource htarget
  have hbackward : classify settings column target source = _ := classify_of_ne_null htarget hsource
  rw [classifyValues, hkind] at hforward hbackward
  have hswap : classifyTexts settings target.toList source.toList =
      classifyTexts settings source.toList target.toList := by
    simp only [classifyTexts, eq_comm]
  constructor
  · rintro ⟨klass, hclass⟩ hstrip
    have hklass := Except.ok.inj (hforward.symm.trans hclass.forward)
    rw [classifyTexts, if_pos hstrip] at hklass
    exact hclass.whitespace hklass.symm
  · intro hexact
    refine ⟨classifyTexts settings source.toList target.toList, {
      forward := hforward
      backward := hbackward.trans (congrArg Except.ok hswap)
      null := fun h => absurd h (not_or.mpr ⟨hsource, htarget⟩)
      whitespace := ?_
      caseOnly := ?_
      rounding := ?_
      timezoneShift := ?_ }⟩
    -- Only the branch of a class returns it.
    all_goals
      intro hklass
      rw [classifyTexts] at hklass
      split at hklass
    · rename_i hstrip
      exact hexact hstrip
    · split at hklass <;> cases hklass
    · cases hklass
    · split at hklass
      · assumption
      · cases hklass
    · cases hklass
    · split at hklass <;> cases hklass
    · cases hklass
    · split at hklass <;> cases hklass

end Kinds

/-- **A difference is classified exactly if and only if it is classifiable.** -/
theorem exactlyClassified_iff (settings : ClassSettings) (column : Column)
    (d : Difference column) : ExactlyClassified settings column d.source d.target ↔
      Classifiable settings column d.source d.target := by
  unfold Classifiable
  by_cases hsource : d.source = null
  · refine iff_of_true ⟨.valueMismatch, hasClass_valueMismatch ?_ ?_⟩ (Or.inl hsource)
    · exact if_pos (Or.inl hsource)
    · exact if_pos (Or.inr hsource)
  · by_cases htarget : d.target = null
    · refine iff_of_true ⟨.valueMismatch, hasClass_valueMismatch ?_ ?_⟩ (Or.inr (Or.inl htarget))
      · exact if_pos (Or.inr htarget)
      · exact if_pos (Or.inl htarget)
    · rw [or_iff_right hsource, or_iff_right htarget]
      have hforward : classify settings column d.source d.target = _ :=
        classify_of_ne_null hsource htarget
      have hbackward : classify settings column d.target d.source = _ :=
        classify_of_ne_null htarget hsource
      -- Neither side is NULL: each kind has its own test.
      cases hkind : column.kind with
      | decimal =>
        exact exactlyClassified_decimal hkind hsource htarget d.sourceCanonical d.targetCanonical
      | ts => exact exactlyClassified_ts hkind hsource htarget
      | text => exact exactlyClassified_text hkind hsource htarget
      | int | bool | date =>
        rw [classifyValues, hkind] at hforward hbackward
        exact iff_of_true ⟨.valueMismatch, hasClass_valueMismatch hforward hbackward⟩ trivial

/-- A tolerance of a cent, and no time zones. -/
def centSettings : ClassSettings where
  tolerance := 1 / 100
  timeZones := []
  zones _ _ t := some t
  lower := id

/-- Spaces in front of a text. -/
def spaceInFront : Difference ⟨"t", .text, 0, "", ""⟩ where
  source := " a"
  target := "a"
  sourceCanonical := @Canonical.reference _ id {} (some " a") _ (by decide +kernel)
  targetCanonical := @Canonical.reference _ id {} (some "a") _ (by decide +kernel)
  ne := by decide

/-- They are called whitespace, which promises that trailing spaces were trimmed. -/
theorem not_exactlyClassified_spaceInFront :
    ¬ ExactlyClassified centSettings ⟨"t", .text, 0, "", ""⟩ spaceInFront.source
      spaceInFront.target := by
  rintro ⟨klass, hclass⟩
  have hforward : classify centSettings ⟨"t", .text, 0, "", ""⟩ spaceInFront.source
      spaceInFront.target = .ok .whitespace := by
    decide +kernel
  have hklass := Except.ok.inj (hforward.symm.trans hclass.forward)
  exact absurd (hclass.whitespace hklass.symm) (by decide +kernel)

/-- A `NaN` has no class. -/
example : classify centSettings ⟨"d", .decimal, 2, "", ""⟩ "NaN" "0.00" =
    .error "decimal.InvalidOperation" := by
  decide +kernel

/-- 4.35 through a float is 4.34. -/
example : classify centSettings ⟨"d", .decimal, 2, "", ""⟩ "4.35" "4.34" = .ok .rounding := by
  decide +kernel

end PlatformOps.Reconcile
