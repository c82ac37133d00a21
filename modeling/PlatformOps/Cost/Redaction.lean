import PlatformOps.Library.Scanning

/-!
# Redaction

The stored text of a statement has its literals replaced by `?` (`redact`): comments
are set aside behind a marker, strings and then numbers are replaced, and the comments
are put back in order. Texts are lists of characters, so that they evaluate on
concrete input.

A statement is also the list of its tokens, as ClickHouse reads it, and `render` writes
it out. Two statements are alike when only the contents of their strings and the digits
of their numbers differ.
-/

namespace PlatformOps.Cost.Redaction

open Scanning

/-- What `re` knows of Unicode: `\w` and `\d` of a text pattern, fixed on ASCII. -/
structure CharClasses where
  word : Char → Bool
  digit : Char → Bool
  word_of_digit : ∀ c, digit c = true → word c = true
  word_ascii : ∀ c, c.toNat < 128 → word c = (c.isAlphanum || c == '_')
  digit_ascii : ∀ c, c.toNat < 128 → digit c = c.isDigit
  /-- A private use character, no letter and no digit. -/
  word_marker : word '\uE000' = false

/-- The classes of a text without letters or digits beyond ASCII. -/
def CharClasses.ascii : CharClasses where
  word c := c.isAlphanum || c == '_'
  digit := Char.isDigit
  word_of_digit c h := by simp [Char.isAlphanum, h]
  word_ascii _ _ := rfl
  digit_ascii _ _ := rfl
  word_marker := rfl

/-! ## The patterns -/

/-- `_MARKER`. -/
def marker : Char := '\uE000'

/-- The length up to the first `*/`. -/
def closing : List Char → Option ℕ
  | [] => none
  | '*' :: '/' :: _ => some 2
  | _ :: text => (closing text).map (· + 1)

theorem closing_cons {c : Char} {text : List Char} (h : c = '*' → text.head? ≠ some '/') :
    closing (c :: text) = (closing text).map (· + 1) := by
  rw [closing]
  rintro tail rfl rfl
  exact h rfl rfl

theorem closing_le {text : List Char} : ∀ {n}, closing text = some n → 2 ≤ n ∧ n ≤ text.length := by
  induction text using closing.induct with
  | case1 => simp [closing]
  | case2 text => simp [closing]
  | case3 c text hne ih =>
    intro n h
    rw [closing] at h
    · obtain ⟨m, hm, rfl⟩ := Option.map_eq_some_iff.mp h
      have := ih hm
      simp only [List.length_cons]
      omega
    · exact hne

/-- `_COMMENT`: `/\*.*?\*/` with `DOTALL`. -/
def comment : Pattern Char where
  length _ text :=
    match text with
    | '/' :: '*' :: text => (closing text).map (· + 2)
    | _ => none
  pos := by
    intro _ text n h
    split at h
    · obtain ⟨m, -, rfl⟩ := Option.map_eq_some_iff.mp h
      omega
    · cases h
  le := by
    intro _ text n h
    split at h
    · obtain ⟨m, hm, rfl⟩ := Option.map_eq_some_iff.mp h
      have := closing_le hm
      simp only [List.length_cons]
      omega
    · cases h

/-- The length up to the quote that closes a string, after the opening one:
`(?:[^'\\]|\\.|'')*'`. -/
def closeQuote : List Char → Option ℕ
  | [] => none
  | ['\\'] => none
  | '\\' :: c :: text =>
    -- `.` is any character but a line feed
    if c = '\n' then none else (closeQuote text).map (· + 2)
  | '\'' :: '\'' :: text =>
    -- two quotes are one in the string, unless nothing closes it after them
    match closeQuote text with
    | some n => some (n + 2)
    | none => some 1
  | '\'' :: _ => some 1
  | _ :: text => (closeQuote text).map (· + 1)

theorem closeQuote_escape (c : Char) (text : List Char) : closeQuote ('\\' :: c :: text) =
    if c = '\n' then none else (closeQuote text).map (· + 2) := by
  rw [closeQuote]

theorem closeQuote_close {text : List Char} (h : text.head? ≠ some '\'') :
    closeQuote ('\'' :: text) = some 1 := by
  rw [closeQuote]
  rintro tail rfl
  exact h rfl

theorem closeQuote_cons {c : Char} {text : List Char} (hescape : c ≠ '\\') (hquote : c ≠ '\'') :
    closeQuote (c :: text) = (closeQuote text).map (· + 1) := by
  rw [closeQuote] <;> simp_all

/-- Induction on a string's contents, with the cases of `closeQuote`. -/
theorem closeQuote_induction {motive : List Char → Prop} (nil : motive [])
    (backslash : motive ['\\'])
    (escape : ∀ c text, motive text → motive ('\\' :: c :: text))
    (double : ∀ text, motive text → motive ('\'' :: '\'' :: text))
    (close : ∀ text, text.head? ≠ some '\'' → motive ('\'' :: text))
    (plain : ∀ c text, c ≠ '\\' → c ≠ '\'' → motive text → motive (c :: text))
    (text : List Char) : motive text := by
  induction hlength : text.length using Nat.strong_induction_on generalizing text with
  | _ n ih =>
    subst hlength
    cases text with
    | nil => exact nil
    | cons c text =>
      by_cases hescape : c = '\\'
      · subst hescape
        cases text with
        | nil => exact backslash
        | cons d text => exact escape d text (ih _ (by simp only [List.length_cons]; omega) _ rfl)
      by_cases hquote : c = '\''
      · subst hquote
        by_cases hhead : text.head? = some '\''
        · obtain ⟨text, rfl⟩ := List.head?_eq_some_iff.mp hhead
          exact double text (ih _ (by simp only [List.length_cons]; omega) _ rfl)
        · exact close text hhead
      · exact plain c text hescape hquote (ih _ (by simp only [List.length_cons]; omega) _ rfl)

theorem closeQuote_le {text : List Char} :
    ∀ {n}, closeQuote text = some n → 0 < n ∧ n ≤ text.length := by
  induction text using closeQuote_induction with
  | nil => simp [closeQuote]
  | backslash => simp [closeQuote]
  | escape c text ih =>
    intro n h
    rw [closeQuote_escape] at h
    split at h
    · cases h
    · obtain ⟨m, hm, rfl⟩ := Option.map_eq_some_iff.mp h
      have := ih hm
      simp only [List.length_cons]
      omega
  | double text ih =>
    intro n h
    rw [closeQuote] at h
    split at h
    · rename_i m hm
      have := ih hm
      simp only [Option.some.injEq, List.length_cons] at h ⊢
      omega
    · simp only [Option.some.injEq, List.length_cons] at h ⊢
      omega
  | close text hhead =>
    intro n h
    rw [closeQuote_close hhead, Option.some.injEq] at h
    simp only [List.length_cons]
    omega
  | plain c text hescape hquote ih =>
    intro n h
    rw [closeQuote_cons hescape hquote] at h
    obtain ⟨m, hm, rfl⟩ := Option.map_eq_some_iff.mp h
    have := ih hm
    simp only [List.length_cons]
    omega

/-- `_STRING_LITERAL`. -/
def stringLiteral : Pattern Char where
  length _ text :=
    match text with
    | '\'' :: text => (closeQuote text).map (· + 1)
    | _ => none
  pos := by
    intro _ text n h
    split at h
    · obtain ⟨m, -, rfl⟩ := Option.map_eq_some_iff.mp h
      omega
    · cases h
  le := by
    intro _ text n h
    split at h
    · obtain ⟨m, hm, rfl⟩ := Option.map_eq_some_iff.mp h
      have := closeQuote_le hm
      simp only [List.length_cons]
      omega
    · cases h

section Numbers

variable (classes : CharClasses)

/-- `[\w.]`. -/
def CharClasses.inWord (c : Char) : Bool :=
  classes.word c || c == '.'

/-- How many digits a text starts with. -/
def digits (text : List Char) : ℕ :=
  (text.takeWhile classes.digit).length

/-- The length of `\.\d+` at the start of a text, 0 if it is not there. -/
def fraction : List Char → ℕ
  | '.' :: text => if digits classes text = 0 then 0 else digits classes text + 1
  | _ => 0

theorem digits_le (text : List Char) : digits classes text ≤ text.length :=
  (List.takeWhile_prefix _).length_le

theorem fraction_le (text : List Char) : fraction classes text ≤ text.length := by
  unfold fraction
  split
  · rename_i text
    have := digits_le classes text
    split <;> simp only [List.length_cons] <;> omega
  · exact Nat.zero_le _

/-- `_NUMBER_LITERAL`. A shorter run of digits than the whole is followed by a digit,
which is a word character, so only the fraction is ever given back. -/
def numberLiteral : Pattern Char where
  length prev text :=
    if prev.any classes.inWord ∨ digits classes text = 0 then none
    else
      let whole := digits classes text
      [whole + fraction classes (text.drop whole), whole].find? fun n =>
        !(text.drop n).head?.any classes.inWord
  pos := by
    intro prev text n h
    split at h
    · cases h
    · have hmem := List.mem_of_find?_eq_some h
      simp only [List.mem_cons, List.not_mem_nil, or_false] at hmem
      omega
  le := by
    intro prev text n h
    split at h
    · cases h
    · have hmem := List.mem_of_find?_eq_some h
      have hwhole := digits_le classes text
      have hpart := fraction_le classes (text.drop (digits classes text))
      simp only [List.mem_cons, List.not_mem_nil, or_false, List.length_drop] at hmem hpart
      omega

end Numbers

/-! ## Redacting a text -/

/-- `next` on an iterator that has run out. -/
inductive Raised
  | stopIteration
deriving DecidableEq, Repr

/-- `_MARKER_PATTERN.sub(lambda _: next(comments), body)`. -/
def restore : List (List Char) → List Char → Except Raised (List Char)
  | _, [] => .ok []
  | comments, c :: body =>
    if c = marker then
      match comments with
      | [] => .error .stopIteration
      | first :: comments => (first ++ ·) <$> restore comments body
    else (c :: ·) <$> restore comments body

theorem restore_kept {c : Char} (hc : c ≠ marker) (comments : List (List Char))
    (body : List Char) : restore comments (c :: body) = (c :: ·) <$> restore comments body := by
  cases comments <;> simp only [restore, if_neg hc]

theorem restore_marker (first : List Char) (comments : List (List Char)) (body : List Char) :
    restore (first :: comments) (marker :: body) = (first ++ ·) <$> restore comments body := by
  simp only [restore, if_pos]

theorem restore_nil_marker (body : List Char) :
    restore [] (marker :: body) = .error .stopIteration := by
  simp only [restore, if_pos]

/-- `redact(text)`. -/
def redact (classes : CharClasses) (text : List Char) : Except Raised (List Char) :=
  let comments := findall comment text
  -- comments are set aside first, so that their quotes open nothing
  let body := sub comment [marker] text
  -- literals before numbers: the digits of a string go with it
  let body := sub (numberLiteral classes) ['?'] (sub stringLiteral ['?'] body)
  restore comments body

example : redact .ascii "select 1, 'it''s' from t2 where a > 3.5 /* c2 */".toList =
    .ok "select ?, ? from t2 where a > ? /* c2 */".toList := by decide +kernel

/-! ## Statements -/

/-- Where a reader of a string's contents is: after a backslash, after the first of two
quotes, or neither. -/
inductive Mode
  | plain | escaped | doubled
deriving DecidableEq, Repr

/-- Reading one character of a string's contents. `escapes` says what may follow a
backslash; a lone quote is no part of the contents. -/
def Mode.next (escapes : Char → Bool) : Mode → Char → Option Mode
  | .plain, c =>
    if c = '\\' then some .escaped else if c = '\'' then some .doubled else some .plain
  | .escaped, c => if escapes c then some .plain else none
  | .doubled, c => if c = '\'' then some .plain else none

def Mode.read (escapes : Char → Bool) : Mode → List Char → Option Mode
  | mode, [] => some mode
  | mode, c :: text => (mode.next escapes c).bind (Mode.read escapes · text)

/-- The contents of a string literal as written: a backslash escapes any character, and
two quotes stand for one. -/
structure Quoted where
  contents : List Char
  whole : Mode.plain.read (fun _ => true) contents = some .plain

/-- A block comment, which ends at the first `*/`. -/
structure BlockComment where
  body : List Char
  ends : closing (body ++ ['*', '/']) = some (body.length + 2)

def BlockComment.text (block : BlockComment) : List Char :=
  '/' :: '*' :: block.body ++ ['*', '/']

/-- A digit of a number in some base. -/
def isNumeral (c : Char) : Bool :=
  c.isDigit || c ∈ ['a', 'b', 'c', 'd', 'e', 'f', 'A', 'B', 'C', 'D', 'E', 'F']

/-- What a numeric literal is written with between its digits: a point, an exponent's
letter and sign, the prefix of a base, a separator. -/
def isNumberMark (c : Char) : Bool :=
  c.isAlphanum || c ∈ ['.', '+', '-', '_']

/-- A part of a numeric literal. -/
inductive NumberPart
  | digits (run : List Char) (nonempty : run ≠ []) (numerals : run.all isNumeral)
  | mark (c : Char) (isMark : isNumberMark c)

def NumberPart.text : NumberPart → List Char
  | .digits run _ _ => run
  | .mark c _ => [c]

/-- A token of a statement, with its text. `code` is everything that is neither a
literal nor a comment: keywords, operators, names (quoted ones too) and blanks. -/
inductive Token
  | code (text : List Char)
  | line (text : List Char)
  | block (comment : BlockComment)
  | string (literal : Quoted)
  | number (parts : List NumberPart)

def Token.text : Token → List Char
  | .code text => text
  | .line text => text
  | .block comment => comment.text
  | .string literal => '\'' :: literal.contents ++ ['\'']
  | .number parts => parts.flatMap NumberPart.text

/-- The text of a statement. -/
def render (statement : List Token) : List Char :=
  statement.flatMap Token.text

/-- The same number up to its digits. -/
inductive NumberPart.Alike : NumberPart → NumberPart → Prop
  | digits {run run' : List Char} {hne hall hne' hall'} :
      NumberPart.Alike (.digits run hne hall) (.digits run' hne' hall')
  | mark {c : Char} {hmark hmark'} : NumberPart.Alike (.mark c hmark) (.mark c hmark')

/-- The same token up to the contents of a string and the digits of a number. -/
inductive Token.Alike : Token → Token → Prop
  | code {text : List Char} : Token.Alike (.code text) (.code text)
  | line {text : List Char} : Token.Alike (.line text) (.line text)
  | block {comment : BlockComment} : Token.Alike (.block comment) (.block comment)
  | string {literal literal' : Quoted} : Token.Alike (.string literal) (.string literal')
  | number {parts parts' : List NumberPart} (h : List.Forall₂ NumberPart.Alike parts parts') :
      Token.Alike (.number parts) (.number parts')

/-- Two statements with the same tokens and comments, up to what is in their literals. -/
def Alike (statement statement' : List Token) : Prop :=
  List.Forall₂ Token.Alike statement statement'

end PlatformOps.Cost.Redaction
