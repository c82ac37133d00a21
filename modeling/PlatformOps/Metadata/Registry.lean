import PlatformOps.Metadata.Lineage

/-!
# The Ownership Registry

CODEOWNERS for data: teams and their members, and glob rules from dbt unique ids
to an owner, a team and a tier. Of the rules that match an id the most specific
wins: more literal characters, then fewer wildcard tokens.

The patterns are `fnmatchcase` patterns of the standard library, parsed into
tokens here the way `fnmatch.translate` reads them.
-/

namespace PlatformOps.Metadata

open Listing

/-! ## Rules and teams -/

structure Team where
  id : String
  name : String
  channel : String
  members : List String
  telegramChat : Option String := none
deriving DecidableEq, Repr

structure DatasetRule where
  pattern : String
  owner : String
  team : String
  tier : Tier
  /-- Who is paged instead when the owner is busy. -/
  backup : Option String := none
deriving DecidableEq, Repr

structure Registry where
  teams : List Team
  rules : List DatasetRule
deriving DecidableEq, Repr

/-! ## Glob patterns -/

/-- One member of a `[...]` set: a character or a range of them. -/
inductive SetItem
  | char (c : Char)
  | range (low high : Char)
deriving DecidableEq, Repr

/-- One token of an `fnmatch` pattern. -/
inductive GlobToken
  | star
  | anyChar
  | literal (c : Char)
  | set (negated : Bool) (items : List SetItem)
deriving DecidableEq, Repr

def SetItem.has (x : Char) : SetItem → Bool
  | .char c => x = c
  | .range low high => low ≤ x && x ≤ high

/-- The members of a set's text: `a-z` is a range, any other `-` is itself. -/
def setItems : List Char → List SetItem
  | low :: '-' :: high :: rest => .range low high :: setItems rest
  | c :: rest => .char c :: setItems rest
  | [] => []

/-- Split what follows a `[` at the set's closing bracket: an optional `!` is
skipped first, then a `]` right there belongs to the set. -/
def closeSet (text : List Char) : Option (Bool × List Char × List Char) :=
  let (negated, body) := match text with
    | '!' :: rest => (true, rest)
    | _ => (false, text)
  let (first, body) := match body with
    -- a bracket in the first place is a member of the set
    | ']' :: rest => ([']'], rest)
    | _ => ([], body)
  let inside := body.takeWhile (· ≠ ']')
  match body.dropWhile (· ≠ ']') with
  | [] => none
  | _ :: rest => some (negated, first ++ inside, rest)

/-- The tokens of a pattern; a `[` that no `]` closes is a literal. `fuel` is the
pattern's length: every token takes a character at least. -/
def globTokens : ℕ → List Char → List GlobToken
  | 0, _ => []
  | _, [] => []
  | fuel + 1, '*' :: rest => .star :: globTokens fuel rest
  | fuel + 1, '?' :: rest => .anyChar :: globTokens fuel rest
  | fuel + 1, '[' :: rest =>
    match closeSet rest with
    | some (negated, items, rest') => .set negated (setItems items) :: globTokens fuel rest'
    -- a set that is never closed is a literal bracket
    | none => .literal '[' :: globTokens fuel rest
  | fuel + 1, c :: rest => .literal c :: globTokens fuel rest

/-- Whether a text matches a token sequence. -/
def globMatches : List GlobToken → List Char → Bool
  | [], text => text.isEmpty
  | .star :: tokens, text => text.tails.any (globMatches tokens)
  | .anyChar :: tokens, text => match text with
    | [] => false
    | _ :: rest => globMatches tokens rest
  | .literal c :: tokens, text => match text with
    | [] => false
    | x :: rest => x = c && globMatches tokens rest
  | .set negated items :: tokens, text => match text with
    | [] => false
    | x :: rest => (items.any (SetItem.has x) != negated) && globMatches tokens rest

/-- `fnmatchcase(name, pattern)`. -/
def fnmatchcase (name pattern : String) : Bool :=
  globMatches (globTokens pattern.toList.length pattern.toList) name.toList

/-! ## Specificity -/

/-- `specificity`: (literal characters, wildcard tokens) of a pattern. After a `[` it looks for
a `]` from two characters on, so that a `]` right after the `[` is taken as literal. -/
def specificityLoop : ℕ → List Char → ℕ × ℕ → ℕ × ℕ
  | 0, _, acc => acc
  | _, [], acc => acc
  | fuel + 1, c :: rest, (literal, wildcards) =>
    if c = '*' ∨ c = '?' then specificityLoop fuel rest (literal, wildcards + 1)
    else if c = '[' then
      -- the first character of a set cannot close it
      match (rest.drop 1).dropWhile (· ≠ ']') with
      | [] => specificityLoop fuel rest (literal + 1, wildcards)
      | _ :: after => specificityLoop fuel after (literal, wildcards + 1)
    else specificityLoop fuel rest (literal + 1, wildcards)

def specificity (pattern : String) : ℕ × ℕ :=
  specificityLoop pattern.toList.length pattern.toList (0, 0)

/-- `_rank`, then the pattern itself: the order candidates are tried in. -/
def DatasetRule.rank (rule : DatasetRule) : ℤ ×ₗ ℕ ×ₗ String :=
  let (literal, wildcards) := specificity rule.pattern
  toLex (-(literal : ℤ), toLex (wildcards, rule.pattern))

namespace Registry

/-- The rules that match an id, the most specific first (`Resolution.candidates`). -/
def candidates (r : Registry) (uniqueId : String) : List DatasetRule :=
  sortBy DatasetRule.rank (r.rules.filter fun rule => fnmatchcase uniqueId rule.pattern)

/-- `resolve(unique_id).rule`. -/
def resolve (r : Registry) (uniqueId : String) : Option DatasetRule :=
  (r.candidates uniqueId).head?

/-- `team_of_dataset`: the team of a dataset's most specific rule. -/
def teamOfDataset (r : Registry) (uniqueId : String) : Option String :=
  (r.resolve uniqueId).map DatasetRule.team

end Registry

example : fnmatchcase "model.shop.stg_orders" "model.*.stg_*" = true := by decide
example : specificity "model.*.[!a]x" = (8, 2) := by decide

end PlatformOps.Metadata
