import PlatformOps.Library.Escapes
import PlatformOps.Library.Floats
import PlatformOps.Reconcile.Canonical

/-!
# Canonical Values

What a column holds, by its kind, and the text it gets: from the Python reference,
from Postgres and from ClickHouse. An instant is its microseconds; how letters are
lower-cased is a parameter, each engine has its own. A number is its value and how it is
stored: both engines turn a float into a decimal first, and each loses other digits.
-/

namespace PlatformOps.Reconcile

open Decimals Floats

/-! ## Numbers -/

/-- A finite number of a decimal column, as an engine stores it. -/
inductive Stored
  /-- A `numeric`, or a `Decimal`. -/
  | decimal (x : ℚ)
  /-- A `double precision`, or a `Float64`. -/
  | double (x : ℚ)
  /-- A `real`, or a `Float32`; and the `float` that its driver reads of it. -/
  | single (x read : ℚ)
deriving DecidableEq, Repr

namespace Stored

/-- The number. -/
def value : Stored → ℚ
  | .decimal x => x
  | .double x => x
  | .single x _ => x

/-- `Decimal(str(value))` of what the driver reads; a `Decimal` is taken as it is. -/
def shown : Stored → ℚ
  | .decimal x => x
  | .double x => binary64.shortest x
  | .single _ read => binary64.shortest read

/-- `::numeric`: of a float, the digits its type is sure of. -/
def numeric : Stored → ℚ
  | .decimal x => x
  | .double x => inContext 15 x
  | .single x _ => inContext 6 x

/-- `toDecimal128`, in units of the last of `k` digits: further digits are discarded. A float is
scaled in floating point first. -/
def cut (k : ℕ) : Stored → ℤ
  | .decimal x => down (x * 10 ^ k)
  | .double x => down (binary64.scaled k x)
  | .single x _ => down (binary32.scaled k x)

end Stored

/-- What a decimal column can hold. -/
inductive Number
  | finite (number : Stored)
  | infinite (negative : Bool)
  | nan
deriving DecidableEq, Repr

/-- A value of a kind. An integer column may hold a `Decimal` on the ClickHouse side. -/
abbrev Held : Kind → Type
  | .int => ℚ
  | .decimal => Number
  | .text => String
  | .bool => Bool
  | .ts => Timestamp
  | .date => Date

/-! ## Texts of one kind -/

/-- The digits of `n` units of `10 ^ -k`: `k` of them after the point. -/
def fixedText (k : ℕ) (n : ℤ) : List Char :=
  (if n < 0 then ['-'] else []) ++ Nat.toDigits 10 (n.natAbs / 10 ^ k) ++
    (if k = 0 then [] else '.' :: paddedDigits k (n.natAbs % 10 ^ k))

/-- `f"{number:f}"` for a number with `k` digits after the point. -/
def decimalText (k : ℕ) (x : ℚ) : List Char :=
  fixedText k ⌊x * 10 ^ k⌋

/-- How `NaN` is written. -/
def nanText : List Char :=
  "NaN".toList

def boolText (b : Bool) : List Char :=
  if b then "true".toList else "false".toList

/-- `YYYY-MM-DD`. -/
def dateText (d : Date) : List Char :=
  paddedDigits 4 d.year.toNat ++ '-' :: (paddedDigits 2 d.month ++ '-' :: paddedDigits 2 d.day)

/-- `TIMESTAMP_FORMAT`, `%Y-%m-%dT%H:%M:%S.%fZ`, of a UTC time. -/
def timeText (t : Timestamp) : List Char :=
  let micros := (t % Duration.hours 24).toNat
  dateText t.date ++ 'T' :: (paddedDigits 2 (micros / 3600000000) ++
    ':' :: (paddedDigits 2 (micros / 60000000 % 60) ++
    ':' :: (paddedDigits 2 (micros / 1000000 % 60) ++
    '.' :: (paddedDigits 6 (micros % 1000000) ++ ['Z']))))

/-- `text.rstrip(c)`. -/
def rstrip (c : Char) (text : List Char) : List Char :=
  text.rdropWhile (· = c)

/-- `escape`. -/
def escape (text : List Char) : List Char :=
  Escapes.escape '\\' '|' text

/-! ## The reference -/

/-- The rule of a text column, on the text without its padding. -/
def ruledText (lower : List Char → List Char) (rule : Rule) (text : List Char) : List Char :=
  let text := if rule.rtrim then rstrip ' ' text else text
  -- case is folded before the separators are escaped
  escape (if rule.casefold then lower text else text)

/-- `canonical_value` of a value that is not NULL; decimals have 28 digits. -/
def valueText (lower : List Char → List Char) (rule : Rule) :
    (kind : Kind) → Held kind → Except String (List Char)
  | .int, x => .ok (fixedText 0 (down x))
  | .decimal, .finite x => do
    let rounded ← quantize 28 rule.scale halfUp x.shown
    return decimalText rule.scale rounded
  | .decimal, .infinite _ => .error "decimal.InvalidOperation"
  -- a `NaN` is quantized to itself
  | .decimal, .nan => .ok nanText
  | .bool, b => .ok (boolText b)
  | .ts, t => .ok (timeText t)
  | .date, d => .ok (dateText d)
  | .text, text => .ok (ruledText lower rule (rstrip '\x00' text.toList))

/-- `canonical_value`; the error is what it raises. -/
def canonicalValue (lower : List Char → List Char) (column : Column) (rule : Rule) :
    Option (Held column.kind) → Except String String
  | none => .ok null
  | some value => String.ofList <$> valueText lower rule column.kind value

/-- `row_string`. -/
def rowString (values : List String) : String :=
  separator.intercalate values

/-! ## The engines -/

/-- `_value_postgres` on a value; the error is the engine's. -/
def postgresText (lower : List Char → List Char) (rule : Rule) :
    (kind : Kind) → Held kind → Except String (List Char)
  | .int, x =>
    if -2 ^ 63 ≤ halfUp x ∧ halfUp x < 2 ^ 63 then .ok (fixedText 0 (halfUp x))
    else .error "bigint out of range"
  | .decimal, .finite x =>
    -- `round(x::numeric, scale) + 0` as a `numeric(38, scale)`
    if |halfUp (x.numeric * 10 ^ rule.scale)| < 10 ^ 38 then
      .ok (fixedText rule.scale (halfUp (x.numeric * 10 ^ rule.scale)))
    else .error "numeric field overflow"
  | .decimal, .infinite _ => .error "numeric field overflow"
  | .decimal, .nan => .ok nanText
  | .bool, b => .ok (boolText b)
  | .ts, t => .ok (timeText t)
  | .date, d => .ok (dateText d)
  | .text, text => .ok (ruledText lower rule text.toList)

/-- `part in text`. -/
def holds (text part : String) : Bool :=
  text.toList.tails.any part.toList.isPrefixOf

/-- `toDecimal128(x, digits)`. -/
def toDecimal128 (digits : ℕ) : Number → Except String ℚ
  | .finite x =>
    if |x.cut digits| < 10 ^ 38 then .ok (x.cut digits / 10 ^ digits) else .error "DECIMAL_OVERFLOW"
  | _ => .error "DECIMAL_OVERFLOW"

/-- `_value_clickhouse` on a value of a column of a physical type; the error is the engine's. -/
def clickhouseText (lower : List Char → List Char) (targetType : String) (rule : Rule) :
    (kind : Kind) → Held kind → Except String (List Char)
  | .int, x =>
    if -2 ^ 63 ≤ down x ∧ down x < 2 ^ 63 then .ok (fixedText 0 (down x))
    else .error "DECIMAL_OVERFLOW"
  | .decimal, x => do
    -- cut first: from a scale of 10 on there is nothing left to round
    let kept ← toDecimal128 (max rule.scale 10) x
    return fixedText rule.scale (halfUp (kept * 10 ^ rule.scale))
  | .bool, b => .ok (boolText b)
  | .ts, t => .ok (timeText t)
  | .date, d => .ok (dateText d)
  | .text, text =>
    -- only a FixedString is padded with zero bytes
    let text := if holds targetType "FixedString" then rstrip '\x00' text.toList else text.toList
    .ok (ruledText lower rule text)

/-- `_coalesce` over what an engine makes of a value. -/
def engineValue {kind : Kind} (render : Held kind → Except String (List Char)) :
    Option (Held kind) → Except String String
  | none => .ok null
  | some value => String.ofList <$> render value

end PlatformOps.Reconcile
