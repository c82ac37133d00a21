import PlatformOps.Reconcile.Metrics
import PlatformOps.Reconcile.RowStrings

/-!
# Why a Cell Differs

The class of a difference, from its two canonical values: the first that fits. Decimals
have 28 digits, and an operation that needs more raises, as does a comparison with `NaN`
and a time that a zone moves off the calendar. Lower-casing and the time zone database are
parameters.
-/

namespace PlatformOps.Reconcile

open Decimals Floats

/-! ## Reading canonical texts -/

/-- Digits, with or without digits after a point. -/
def unsignedOf (text : List Char) : Option ℚ :=
  match text.takeWhile Char.isDigit, text.dropWhile Char.isDigit with
  | [], _ => none
  | whole, [] => some (Nat.ofDigitChars 10 whole 0)
  | whole, point :: fraction =>
    if point = '.' ∧ fraction ≠ [] ∧ fraction.all Char.isDigit then
      some (Nat.ofDigitChars 10 whole 0 + Nat.ofDigitChars 10 fraction 0 / 10 ^ fraction.length)
    else none

/-- The same after a sign. -/
def signedOf (text : List Char) : Option ℚ :=
  match text with
  | '-' :: digits => (unsignedOf digits).map (- ·)
  | _ => unsignedOf text

/-- A `Decimal` that a text was read as. -/
inductive Reading
  | finite (x : ℚ)
  | nan
deriving DecidableEq, Repr

/-- `_decimal`, on the texts the renderers write: no exponents, no infinities. -/
def decimalOf (text : List Char) : Option Reading :=
  if text = nanText then some .nan else (signedOf text).map .finite

/-- `_timestamp`, on the texts the renderers write: the fields at their places. -/
def timestampOf (text : List Char) : Option Timestamp :=
  let field (start width : ℕ) := Nat.ofDigitChars 10 ((text.drop start).take width) 0
  let date : Date := ⟨field 0 4, field 5 2, field 8 2⟩
  let time : Timestamp := date.toDays * Duration.hours 24 + Duration.hours (field 11 2) +
    Duration.minutes (field 14 2) + Duration.seconds (field 17 2) + field 20 6
  -- a text that no time renders as is no timestamp, and there is no year 0
  if field 0 4 ≠ 0 ∧ timeText time = text then some time else none

/-! ## Rounding -/

/-- Whether `float(value) * 10**scale` is a finite float, and each of its factors. -/
def ScaledFits (scale : ℕ) (value : ℚ) : Prop :=
  binary64.Fits value ∧ binary64.Fits (10 ^ scale) ∧
    binary64.Fits (toFloat value * toFloat (10 ^ scale))

instance (scale : ℕ) (value : ℚ) : Decidable (ScaledFits scale value) :=
  inferInstanceAs (Decidable (_ ∧ _ ∧ _))

/-- `float(value) * 10**scale`: a power that is no float raises, and an infinite product is not
truncated. -/
def scaledFloat (scale : ℕ) (value : ℚ) : Except String ℚ :=
  if ScaledFits scale value then .ok (binary64.scaled scale value) else .error "OverflowError"

/-- `_rounded`: what rounding or truncating can leave of a value, or what it raises. -/
def rounded (scale : ℕ) (value : ℚ) : Except String (List ℚ) := do
  let up ← quantize 28 scale halfUp value
  let even ← quantize 28 scale halfEven value
  let cut ← quantize 28 scale down value
  -- what went through a float, cut or rounded there
  let scaled ← scaledFloat scale value
  let through ← [down scaled, halfEven scaled].mapM fun whole : ℤ =>
    quantize 28 scale halfEven (inContext 28 ((whole : ℚ) / 10 ^ scale))
  return [up, even, cut] ++ through

/-! ## Time zones -/

/-- The UTC time of a wall clock in a zone, in one fold; none is an `OverflowError`. -/
abbrev ZoneInfo := String → Bool → Timestamp → Option Timestamp

/-- `_read_as_local`, in both folds. -/
def readAsLocal (zones : ZoneInfo) (value : Timestamp) (zone : String) :
    Except String (List Timestamp) :=
  match zones zone false value, zones zone true value with
  | some early, some late => .ok [early, late]
  | _, _ => .error "OverflowError"

/-- Whether one time is the other read as local time in a zone. -/
def shiftedIn (zones : ZoneInfo) (a b : Timestamp) (zone : String) : Except String Bool := do
  if b ∈ (← readAsLocal zones a zone) then return true
  -- read the other way round: the copy may be the one that is right
  return a ∈ (← readAsLocal zones b zone)

/-- The zones in their order, up to the first that fits. -/
def anyShifted (zones : ZoneInfo) (a b : Timestamp) : List String → Except String Bool
  | [] => return false
  | zone :: rest => do
    if ← shiftedIn zones a b zone then return true
    anyShifted zones a b rest

/-! ## The class -/

/-- `text.strip(" ")`. -/
def strip (text : List Char) : List Char :=
  (rstrip ' ' text).dropWhile (· = ' ')

/-- What `classify` is given besides a difference. -/
structure ClassSettings where
  tolerance : ℚ
  timeZones : List String
  zones : ZoneInfo
  lower : List Char → List Char

section Kinds

variable (settings : ClassSettings)

def classifyNumbers (scale : ℕ) (a b : ℚ) : Except String DiscrepancyClass := do
  if |inContext 28 (a - b)| ≤ settings.tolerance then
    -- either side may be the rounded one
    if b ∈ (← rounded scale a) then return .rounding
    if a ∈ (← rounded scale b) then return .rounding
  return .valueMismatch

def classifyDecimals (scale : ℕ) : Reading → Reading → Except String DiscrepancyClass
  | .finite a, .finite b => classifyNumbers settings scale a b
  -- `NaN <= tolerance` raises
  | _, _ => .error "decimal.InvalidOperation"

def classifyTimes (a b : Timestamp) : Except String DiscrepancyClass := do
  if ← anyShifted settings.zones a b settings.timeZones then return .timezoneShift
  return .valueMismatch

def classifyTexts (source target : List Char) : DiscrepancyClass :=
  -- both ends are stripped, although a rule trims the right one only
  if strip source = strip target then .whitespace
  else if settings.lower source = settings.lower target then .caseOnly
  else .valueMismatch

/-- Two texts that are read first; what cannot be read is a mismatch. -/
def classifyRead {A : Type} (readText : List Char → Option A)
    (classOf : A → A → Except String DiscrepancyClass) (source target : List Char) :
    Except String DiscrepancyClass :=
  match readText source, readText target with
  | some a, some b => classOf a b
  | _, _ => .ok .valueMismatch

/-- The class of two values that are not NULL. -/
def classifyValues (column : Column) (source target : List Char) :
    Except String DiscrepancyClass :=
  match column.kind with
  | .decimal => classifyRead decimalOf (classifyDecimals settings column.scale) source target
  | .ts => classifyRead timestampOf (classifyTimes settings) source target
  | .text => .ok (classifyTexts settings source target)
  | _ => .ok .valueMismatch

/-- `classify`; the error is what it raises. -/
def classify (column : Column) (source target : String) : Except String DiscrepancyClass :=
  if source = null ∨ target = null then .ok .valueMismatch
  else classifyValues settings column source.toList target.toList

end Kinds

end PlatformOps.Reconcile
