import Mathlib

/-!
# Text

The string operations the models share, on lists of characters so that they
evaluate on concrete text.
-/

namespace PlatformOps

/-- `text.startswith(start)`. -/
def startsWith (text start : String) : Bool :=
  start.toList.isPrefixOf text.toList

/-- A text that is there: neither `None` nor empty (Python's truth of an `str | None`). -/
def truthy (text : Option String) : Option String :=
  text.filter (· ≠ "")

/-- `c.isspace()`: white space in Unicode, and the separators of ASCII. -/
def isSpace (c : Char) : Bool :=
  let n := c.toNat
  (9 ≤ n && n ≤ 13) || (28 ≤ n && n ≤ 32) || (0x2000 ≤ n && n ≤ 0x200a) ||
    [0x85, 0xa0, 0x1680, 0x2028, 0x2029, 0x202f, 0x205f, 0x3000].contains n

/-- At least `width` digits, padded with zeros. -/
def paddedDigits (width n : ℕ) : List Char :=
  List.replicate (width - (Nat.toDigits 10 n).length) '0' ++ Nat.toDigits 10 n

/-- `f"{n:03d}"`: at least three digits, padded with zeros. -/
def threeDigits (n : ℕ) : String :=
  let digits := (Nat.toDigits 10 n)
  String.ofList (List.replicate (3 - digits.length) '0' ++ digits)

/-- `f"{n:02d}"`: at least two digits, padded with zeros. -/
def twoDigits (n : ℕ) : String :=
  let digits := (Nat.toDigits 10 n)
  String.ofList (List.replicate (2 - digits.length) '0' ++ digits)

theorem isDigit_of_mem_paddedDigits {width n : ℕ} {c : Char} (h : c ∈ paddedDigits width n) :
    c.isDigit = true := by
  rw [paddedDigits, List.mem_append, List.mem_replicate] at h
  rcases h with ⟨-, rfl⟩ | h
  · rfl
  · exact Nat.isDigit_of_mem_toDigits (by decide) (by decide) h

/-- Padded digits are read back as the number. -/
theorem ofDigitChars_paddedDigits (width n : ℕ) :
    Nat.ofDigitChars 10 (paddedDigits width n) 0 = n := by
  rw [paddedDigits, Nat.ofDigitChars_append, Nat.ofDigitChars_replicate_zero, mul_zero,
    Nat.ofDigitChars_ten_toDigits]

theorem paddedDigits_injective (width : ℕ) : Function.Injective (paddedDigits width) := by
  intro m n h
  rw [← ofDigitChars_paddedDigits width m, h, ofDigitChars_paddedDigits]

theorem toList_twoDigits (n : ℕ) : (twoDigits n).toList = paddedDigits 2 n := by
  rw [twoDigits, String.toList_ofList]
  rfl

theorem isDigit_of_mem_twoDigits {n : ℕ} {c : Char} (h : c ∈ (twoDigits n).toList) :
    c.isDigit = true := by
  rw [toList_twoDigits] at h
  exact isDigit_of_mem_paddedDigits h

theorem twoDigits_injective : Function.Injective twoDigits := by
  intro m n h
  apply paddedDigits_injective 2
  rw [← toList_twoDigits, h, toList_twoDigits]

theorem mem_toString_int {z : ℤ} {c : Char} (h : c ∈ (toString z).toList) :
    c = '-' ∨ c.isDigit = true := by
  cases z with
  | ofNat n =>
    right
    have hdigits : (toString (Int.ofNat n)).toList = Nat.toDigits 10 n := by
      show (Nat.repr n).toList = _
      simp [Nat.repr]
    rw [hdigits] at h
    exact Nat.isDigit_of_mem_toDigits (by decide) (by decide) h
  | negSucc n =>
    have hdigits : (toString (Int.negSucc n)).toList = '-' :: Nat.toDigits 10 (n + 1) := by
      show ("-" ++ Nat.repr (n + 1)).toList = _
      simp [Nat.repr, String.toList_append]
    rw [hdigits, List.mem_cons] at h
    exact h.imp id (Nat.isDigit_of_mem_toDigits (by decide) (by decide))

/-- A list is split at the last occurrence of an element in one way. -/
theorem append_cons_inj_of_last {α : Type*} {a a' b b' : List α} {c : α} (h : c ∉ b)
    (h' : c ∉ b') : a ++ c :: b = a' ++ c :: b' ↔ a = a' ∧ b = b' := by
  constructor
  · intro heq
    rw [List.append_eq_append_iff] at heq
    rcases heq with ⟨x, hx, hy⟩ | ⟨x, hx, hy⟩
    · cases x with
      | nil => simp_all
      | cons d x =>
        simp only [List.cons_append, List.cons.injEq] at hy
        exact absurd (hy.2 ▸ by simp) h
    · cases x with
      | nil => simp_all
      | cons d x =>
        simp only [List.cons_append, List.cons.injEq] at hy
        exact absurd (hy.2 ▸ by simp) h'
  · rintro ⟨rfl, rfl⟩
    rfl

/-- One character inside a quoted Python string. -/
private def reprChar (quote c : Char) : List Char :=
  if c = '\\' ∨ c = quote then ['\\', c]
  else if c = '\n' then ['\\', 'n']
  else if c = '\r' then ['\\', 'r']
  else if c = '\t' then ['\\', 't']
  else [c]

/-- `repr(text)` for printable text: single quotes, double ones if the text holds
a single quote and no double one. -/
def pyRepr (text : String) : String :=
  let quote := if '\'' ∈ text.toList ∧ '"' ∉ text.toList then '"' else '\''
  String.ofList (quote :: text.toList.flatMap (reprChar quote) ++ [quote])

/-- `f"{names}"` for a list of strings: each `repr`, in brackets. -/
def pyList (names : List String) : String :=
  "[" ++ ", ".intercalate (names.map pyRepr) ++ "]"

/-- `f"{count} {unit}"` with the plural spelled by an `s`. -/
def counted (n : ℕ) (unit : String) : String :=
  if n = 1 then toString n ++ " " ++ unit else toString n ++ " " ++ unit ++ "s"

example : pyList ["order_id", "it's"] = "['order_id', \"it's\"]" := by decide

end PlatformOps
