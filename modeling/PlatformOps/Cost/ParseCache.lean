import PlatformOps.Cost.Collection
import PlatformOps.Cost.Redacted

/-!
# The Parse Cache

A query log parses a statement once for each redacted text (`QueryLog.parse`, of which
`cachedParse` is the part that reads and writes the cache). What a statement reads
depends on its comments and on its tokens, up to what is in its literals
(`DependsOnTokens`), so a cached parse is right if the redacted text shows as much.

It does not always: the patterns take a number inside a quoted identifier for a literal,
and a string's mark is a number's. Redaction shows enough where its patterns find a
statement's comments, strings and numbers and nothing else (`Bare`), and each `?` it
leaves stands for the same kind of thing in both statements.
-/

namespace PlatformOps.Cost.Redaction

open Scanning Listing Fallible

/-! ## Parsing with a cache -/

section Parse

variable {β : Type} (classes : CharClasses) (parseQuery : List Char → β)

/-- What `parse` does with the cache: its result, and the cache it leaves. -/
def cachedParse (cache : List (List Char × β)) (text : List Char) :
    Except Raised (β × List (List Char × β)) := do
  let key ← redact classes text
  match cache.lookup key with
  | some parsed => return (parsed, cache)
  | none =>
    let parsed := parseQuery text
    return (parsed, setItem cache (key, parsed))

/-- A sequence of statements, parsed one after the other. -/
def parseAll : List (List Char × β) → List (List Char) → Except Raised (List β)
  | _, [] => .ok []
  | cache, text :: rest => do
    let (parsed, cache) ← cachedParse classes parseQuery cache text
    let results ← parseAll cache rest
    return parsed :: results

end Parse

/-- `QueryLog.parse` is a cached parse of the log's cache. -/
theorem parse_eq_cachedParse (o : Collection.Surroundings) (log : Collection.QueryLog)
    (text : List Char) :
    log.parse o text = ((cachedParse o.classes o.parseQuery log.cache text).map
      fun result => (result.1, { log with cache := result.2 })).mapError .redaction := by
  unfold Collection.QueryLog.parse cachedParse
  cases redact o.classes text with
  | error e => rfl
  | ok key =>
    cases hlookup : log.cache.lookup key <;>
      simp [bind, Except.bind, pure, Except.pure, Except.map, Except.mapError, hlookup]

/-! ## What a parse depends on -/

/-- A token with the contents of a literal blanked. -/
inductive Blanked
  | code (text : List Char)
  | line (text : List Char)
  | block (text : List Char)
  | string
  | number
deriving DecidableEq

def Token.blank : Token → Blanked
  | .code text => .code text
  | .line text => .line text
  | .block b => .block b.text
  | .string _ => .string
  | .number _ => .number

/-- A token, and whether the number pattern takes it. -/
structure Piece where
  token : Token
  taken : Bool := false

namespace Piece

/-- The token with its literal, if it is hidden, replaced by the plainest one of its kind. -/
def plain : Piece → Token
  | ⟨.string _, _⟩ => .string ⟨[], rfl⟩
  | ⟨.number _, true⟩ => .number [.digits ['1'] (by decide) rfl]
  | piece => piece.token

/-- What is left of it once comments are set aside. -/
def aside : Piece → List Char
  | ⟨.block _, _⟩ => [marker]
  | piece => piece.token.text

/-- What is left of it once strings are masked too. -/
def masked : Piece → List Char
  | ⟨.block _, _⟩ => [marker]
  | ⟨.string _, _⟩ => ['?']
  | piece => piece.token.text

/-- What is left of it once numbers are hidden too. -/
def hidden : Piece → List Char
  | ⟨.block _, _⟩ => [marker]
  | ⟨.string _, _⟩ => ['?']
  | ⟨.number _, true⟩ => ['?']
  | piece => piece.token.text

/-- What is shown of it. -/
def shown : Piece → List Char
  | ⟨.string _, _⟩ => ['?']
  | ⟨.number _, true⟩ => ['?']
  | piece => piece.token.text

end Piece

/-- What a `?` of the redacted text stands for. -/
inductive Mark
  | itself | string | number
deriving DecidableEq, Repr

/-- The plainest text of its kind. -/
def Mark.text : Mark → List Char
  | .itself => ['?']
  | .string => ['\'', '\'']
  | .number => ['1']

def Piece.marks : Piece → List Mark
  | ⟨.string _, _⟩ => [.string]
  | ⟨.number _, true⟩ => [.number]
  | piece => List.replicate (piece.token.text.count '?') .itself

/-- How ClickHouse reads a text: its tokens, which stay what they are when literals are replaced by
plain ones of their kind. -/
structure Lexer where
  tokens : List Char → List Token
  render_tokens : ∀ text, render (tokens text) = text
  stable : ∀ (text : List Char) (pieces : List Piece), pieces.map Piece.token = tokens text →
    tokens (render (pieces.map Piece.plain)) = pieces.map Piece.plain

/-- A parse depends on a statement's comments and on its tokens, up to what is in its literals. -/
def DependsOnTokens {β : Type} (lexer : Lexer) (parseQuery : List Char → β) : Prop :=
  ∀ text text', (lexer.tokens text).map Token.blank = (lexer.tokens text').map Token.blank →
    parseQuery text = parseQuery text'

/-! ## What redaction shows -/

/-- A pattern finds some of the pieces of a text, and nothing else. -/
def FindsOnly (p : Pattern Char) (pieces : List (List Char × Bool)) : Prop :=
  stretches p (pieces.flatMap Prod.fst) =
    pieces.flatMap fun piece => if piece.2 then [.found piece.1] else piece.1.map .kept

instance (p : Pattern Char) (pieces : List (List Char × Bool)) : Decidable (FindsOnly p pieces) :=
  inferInstanceAs (Decidable (_ = _))

/-- A token is a block comment. -/
def Token.isBlock : Token → Bool
  | .block _ => true
  | _ => false

def Token.isString : Token → Bool
  | .string _ => true
  | _ => false

def Token.isNumber : Token → Bool
  | .number _ => true
  | _ => false

/-- **A statement is bare**: the three patterns find its block comments, its strings and some of its
numbers, and nothing else, and no character of it is the marker. -/
structure Bare (classes : CharClasses) (pieces : List Piece) : Prop where
  comments : FindsOnly comment (pieces.map fun p => (p.token.text, p.token.isBlock))
  strings : FindsOnly stringLiteral (pieces.map fun p => (p.aside, p.token.isString))
  numbers : FindsOnly (numberLiteral classes)
    (pieces.map fun p => (p.masked, p.token.isNumber && p.taken))
  unmarked : ∀ p ∈ pieces, p.token.isBlock = false → marker ∉ p.token.text

section Shown

variable {p : Pattern Char} {pieces : List (List Char × Bool)}

theorem FindsOnly.findall (h : FindsOnly p pieces) :
    Scanning.findall p (pieces.flatMap Prod.fst) =
      pieces.flatMap fun piece => if piece.2 then [piece.1] else [] := by
  unfold Scanning.findall
  rw [h, List.filterMap_flatMap]
  apply List.flatMap_congr
  intro piece _
  split
  · rfl
  · simp [List.filterMap_map, Function.comp_def, Stretch.matched]

theorem FindsOnly.sub (h : FindsOnly p pieces) (repl : List Char) :
    Scanning.sub p repl (pieces.flatMap Prod.fst) =
      pieces.flatMap fun piece => if piece.2 then repl else piece.1 := by
  unfold Scanning.sub
  rw [h, List.flatMap_assoc]
  apply List.flatMap_congr
  intro piece _
  split
  · simp [Stretch.replaced]
  · simp [List.flatMap_map, Stretch.replaced]

end Shown

section Redacted

variable {classes : CharClasses} {pieces : List Piece}

/-- The comments of some pieces. -/
def blocks (pieces : List Piece) : List (List Char) :=
  pieces.flatMap fun p => if p.token.isBlock then [p.token.text] else []

/-- Comments go back where they were. -/
private theorem restore_blocks
    (h : ∀ p ∈ pieces, p.token.isBlock = false → marker ∉ p.token.text) :
    restore (blocks pieces) (pieces.flatMap Piece.hidden) = .ok (pieces.flatMap Piece.shown) := by
  induction pieces with
  | nil => rfl
  | cons p rest ih =>
    obtain ⟨hp, hrest⟩ := List.forall_mem_cons.mp h
    have hkept : ∀ text : List Char, marker ∉ text →
        restore (blocks rest) (text ++ rest.flatMap Piece.hidden) =
          .ok (text ++ rest.flatMap Piece.shown) := by
      intro text htext
      rw [restore_append htext, ih hrest]
      rfl
    obtain ⟨token, taken⟩ := p
    cases token with
    | code text => exact hkept text (hp rfl)
    | line text => exact hkept text (hp rfl)
    | block block =>
      show restore (block.text :: blocks rest) (marker :: rest.flatMap Piece.hidden) = _
      rw [restore_marker, ih hrest]
      rfl
    | string literal => exact hkept ['?'] (by decide)
    | number parts =>
      cases taken with
      | true => exact hkept ['?'] (by decide)
      | false => exact hkept _ (hp rfl)

/-- **A bare statement is redacted token by token.** -/
theorem redact_bare (h : Bare classes pieces) :
    redact classes (render (pieces.map Piece.token)) = .ok (pieces.flatMap Piece.shown) := by
  have htext : render (pieces.map Piece.token) =
      (pieces.map fun p => (p.token.text, p.token.isBlock)).flatMap Prod.fst := by
    unfold render
    rw [List.flatMap_map, List.flatMap_map]
  have hfound : findall comment (render (pieces.map Piece.token)) = blocks pieces := by
    rw [htext, h.comments.findall, List.flatMap_map]
    rfl
  have haside : sub comment [marker] (render (pieces.map Piece.token)) =
      pieces.flatMap Piece.aside := by
    rw [htext, h.comments.sub, List.flatMap_map]
    apply List.flatMap_congr
    rintro ⟨token, taken⟩ _
    cases token <;> rfl
  have hmasked : sub stringLiteral ['?'] (pieces.flatMap Piece.aside) =
      pieces.flatMap Piece.masked := by
    have hsub := h.strings.sub ['?']
    rw [List.flatMap_map, List.flatMap_map] at hsub
    refine hsub.trans (List.flatMap_congr ?_)
    rintro ⟨token, taken⟩ _
    cases token <;> rfl
  have hhidden : sub (numberLiteral classes) ['?'] (pieces.flatMap Piece.masked) =
      pieces.flatMap Piece.hidden := by
    have hsub := h.numbers.sub ['?']
    rw [List.flatMap_map, List.flatMap_map] at hsub
    refine hsub.trans (List.flatMap_congr ?_)
    rintro ⟨token, taken⟩ _
    cases token <;> cases taken <;> rfl
  rw [redact, hfound, haside, hmasked, hhidden]
  exact restore_blocks h.unmarked

end Redacted

/-! ## What is hidden, filled in -/

/-- The `?`s of a text, replaced by what they stand for at its plainest. -/
def fill : List Mark → List Char → List Char
  | _, [] => []
  | [], text => text
  | mark :: marks, c :: text =>
    if c = '?' then mark.text ++ fill marks text else c :: fill (mark :: marks) text

theorem fill_append {marks : List Mark} {text : List Char} (h : marks.length = text.count '?')
    (more : List Mark) (rest : List Char) :
    fill (marks ++ more) (text ++ rest) = fill marks text ++ fill more rest := by
  induction text generalizing marks with
  | nil =>
    obtain rfl := List.length_eq_zero_iff.mp h
    simp [fill]
  | cons c text ih =>
    by_cases hc : c = '?'
    · subst hc
      cases marks with
      | nil => simp at h
      | cons mark marks =>
        have hlength : marks.length = text.count '?' := by simpa using h
        simp [fill, ih hlength]
    · rw [List.count_cons_of_ne hc] at h
      cases marks with
      | nil =>
        have hrest := ih h
        cases more with
        | nil => cases rest <;> simp [fill]
        | cons mark more =>
          have hnone : fill [] text = text := by cases text <;> rfl
          rw [List.nil_append, hnone] at hrest
          simp [fill, hc, hrest]
      | cons mark marks =>
        have hrest := ih h
        simp only [List.cons_append] at hrest
        simp [fill, hc, hrest]

/-- What stands for itself is left. -/
theorem fill_itself (text : List Char) :
    fill (List.replicate (text.count '?') .itself) text = text := by
  induction text with
  | nil => rfl
  | cons c text ih =>
    by_cases hc : c = '?'
    · subst hc
      simp [List.replicate_succ, fill, Mark.text, ih]
    · rw [List.count_cons_of_ne hc]
      cases hcount : text.count '?' with
      | zero => rfl
      | succ n =>
        rw [hcount] at ih
        simp only [List.replicate_succ] at ih ⊢
        simp [fill, hc, ih]

/-- The marks of some pieces. -/
def marksOf (pieces : List Piece) : List Mark := pieces.flatMap Piece.marks

/-- **What is shown, filled in by the marks, is the statement with plain literals.** -/
theorem fill_marks (pieces : List Piece) :
    fill (marksOf pieces) (pieces.flatMap Piece.shown) = render (pieces.map Piece.plain) := by
  induction pieces with
  | nil => rfl
  | cons p rest ih =>
    have hone : p.marks.length = p.shown.count '?' ∧ fill p.marks p.shown = p.plain.text := by
      obtain ⟨token, taken⟩ := p
      cases token with
      | code text => exact ⟨List.length_replicate, fill_itself _⟩
      | line text => exact ⟨List.length_replicate, fill_itself _⟩
      | block block => exact ⟨List.length_replicate, fill_itself _⟩
      | string literal => exact ⟨rfl, rfl⟩
      | number parts =>
        cases taken with
        | true => exact ⟨rfl, rfl⟩
        | false => exact ⟨List.length_replicate, fill_itself _⟩
    unfold marksOf at ih ⊢
    rw [List.flatMap_cons, List.flatMap_cons, fill_append hone.1, hone.2, ih]
    rfl

/-! ## Sharing a parse -/

section Share

variable {β : Type} {classes : CharClasses} {lexer : Lexer} {parseQuery : List Char → β}

/-- Two statements may share a parse: they are one, or both are bare and each `?` of their redacted
texts stands for the same kind of thing. -/
def MayShare (classes : CharClasses) (lexer : Lexer) (text text' : List Char) : Prop :=
  text = text' ∨ ∃ pieces pieces', pieces.map Piece.token = lexer.tokens text ∧
    pieces'.map Piece.token = lexer.tokens text' ∧ Bare classes pieces ∧ Bare classes pieces' ∧
    marksOf pieces = marksOf pieces'

/-- Plain literals are what a parse depends on. -/
private theorem parse_plain (hdepends : DependsOnTokens lexer parseQuery) {text : List Char}
    {pieces : List Piece} (hpieces : pieces.map Piece.token = lexer.tokens text) :
    parseQuery text = parseQuery (render (pieces.map Piece.plain)) := by
  apply hdepends
  rw [lexer.stable text pieces hpieces, ← hpieces, List.map_map, List.map_map]
  apply List.map_congr_left
  rintro ⟨token, taken⟩ _
  cases token with
  | number parts => cases taken <;> rfl
  | _ => rfl

/-- **Statements that may share a parse have the same one**, if they are redacted to one text. -/
theorem parse_eq_of_mayShare (hdepends : DependsOnTokens lexer parseQuery) {text text' : List Char}
    (hredacted : redact classes text = redact classes text')
    (hshare : MayShare classes lexer text text') : parseQuery text = parseQuery text' := by
  rcases hshare with rfl | ⟨pieces, pieces', hpieces, hpieces', hbare, hbare', hmarks⟩
  · rfl
  · have hshown : pieces.flatMap Piece.shown = pieces'.flatMap Piece.shown := by
      have hone := redact_bare hbare
      have hother := redact_bare hbare'
      rw [hpieces, lexer.render_tokens] at hone
      rw [hpieces', lexer.render_tokens] at hother
      exact Except.ok.inj (hone.symm.trans (hredacted.trans hother))
    -- both are the shown text, filled in by the same marks
    rw [parse_plain hdepends hpieces, parse_plain hdepends hpieces', ← fill_marks pieces,
      ← fill_marks pieces', hshown, hmarks]

/-- A cache holds what statements seen before were parsed to, under their redacted texts. -/
def Faithful (classes : CharClasses) (parseQuery : List Char → β) (seen : List (List Char))
    (cache : List (List Char × β)) : Prop :=
  ∀ key parsed, cache.lookup key = some parsed →
    ∃ text ∈ seen, redact classes text = .ok key ∧ parseQuery text = parsed

/-- **One call**: it returns the statement's own parse, and what it caches is faithful. -/
private theorem cachedParse_eq {seen : List (List Char)} {cache : List (List Char × β)}
    (hcache : Faithful classes parseQuery seen cache) {text key : List Char}
    (hkey : redact classes text = .ok key)
    (hsame : ∀ earlier ∈ seen, redact classes earlier = redact classes text →
      parseQuery earlier = parseQuery text) :
    ∃ cache', cachedParse classes parseQuery cache text = .ok (parseQuery text, cache') ∧
      Faithful classes parseQuery (seen ++ [text]) cache' := by
  have hmore : ∀ {cache}, Faithful classes parseQuery seen cache →
      Faithful classes parseQuery (seen ++ [text]) cache := by
    intro cache h key parsed hlookup
    obtain ⟨earlier, hseen, hearlier⟩ := h key parsed hlookup
    exact ⟨earlier, List.mem_append_left _ hseen, hearlier⟩
  cases hlookup : cache.lookup key with
  | some parsed =>
    obtain ⟨earlier, hseen, hearlier, rfl⟩ := hcache key parsed hlookup
    have hparsed := hsame earlier hseen (hearlier.trans hkey.symm)
    refine ⟨cache, bind_eq_ok.mpr ⟨key, hkey, ?_⟩, hmore hcache⟩
    rw [hlookup, hparsed]
    rfl
  | none =>
    refine ⟨setItem cache (key, parseQuery text), bind_eq_ok.mpr ⟨key, hkey, ?_⟩, ?_⟩
    · rw [hlookup]
      rfl
    · intro key' parsed hlookup'
      rw [lookup_setItem] at hlookup'
      split at hlookup'
      · rename_i heq
        obtain rfl := heq
        exact ⟨text, by simp, hkey, Option.some.inj hlookup'⟩
      · exact hmore hcache key' parsed hlookup'

/-- A sequence of statements that no parse is wrongly shared in. -/
private theorem parseAll_eq {texts : List (List Char)} :
    ∀ {seen : List (List Char)} {cache : List (List Char × β)},
      Faithful classes parseQuery seen cache →
      (∀ text ∈ texts, ∃ key, redact classes text = .ok key) →
      (seen ++ texts).Pairwise (fun text text' =>
        redact classes text = redact classes text' → parseQuery text = parseQuery text') →
      parseAll classes parseQuery cache texts = .ok (texts.map parseQuery) := by
  induction texts with
  | nil => exact fun _ _ _ => rfl
  | cons text rest ih =>
    intro seen cache hcache hkeys hsame
    obtain ⟨⟨key, hkey⟩, hkeys⟩ := List.forall_mem_cons.mp hkeys
    obtain ⟨cache', hparse, hcache'⟩ := cachedParse_eq hcache hkey fun earlier hseen =>
      (List.pairwise_append.mp hsame).2.2 earlier hseen text (List.mem_cons_self ..)
    have hrest := ih hcache' hkeys (by simpa using hsame)
    unfold parseAll
    rw [hparse]
    show (parseAll classes parseQuery cache' rest >>= fun results =>
      pure (parseQuery text :: results)) = _
    rw [hrest]
    rfl

/-- Statements parsed one after the other in a log: redaction raises on none, and any two that are
redacted to one text may share a parse. -/
structure KeptApart (classes : CharClasses) (lexer : Lexer) (texts : List (List Char)) : Prop where
  readable : ∀ text ∈ texts, ∃ key, redact classes text = .ok key
  shared : texts.Pairwise fun text text' =>
    redact classes text = redact classes text' → MayShare classes lexer text text'

/-- **The parse cache is transparent** in every sequence of statements that is kept apart: each call
returns what the statement itself is parsed to. -/
theorem parse_transparent (hdepends : DependsOnTokens lexer parseQuery) {texts : List (List Char)}
    (hapart : KeptApart classes lexer texts) :
    parseAll classes parseQuery [] texts = .ok (texts.map parseQuery) := by
  refine parseAll_eq (?_ : Faithful classes parseQuery [] []) ?_ ?_
  · intro key parsed hlookup
    cases hlookup
  · exact hapart.readable
  · apply hapart.shared.imp
    intro text text' hshare hredacted
    exact parse_eq_of_mayShare hdepends hredacted (hshare hredacted)

end Share

/-! ## Statements that are not kept apart -/

/-- A lexer for statements without literals. -/
def codeLexer : Lexer where
  tokens text := [.code text]
  render_tokens text := by simp [render, Token.text]
  stable := by
    intro text pieces hpieces
    obtain ⟨⟨token, taken⟩, rfl, rfl⟩ := List.map_eq_singleton_iff.mp hpieces
    simp [Piece.plain, render, Token.text]

/-- What stands between the first backquotes. -/
def quotedName (text : List Char) : List Char :=
  ((text.dropWhile (· ≠ '`')).drop 1).takeWhile (· ≠ '`')

/-- **A parse is shared by statements that read different columns.** -/
theorem columns_merged :
    DependsOnTokens codeLexer quotedName ∧
      parseAll .ascii quotedName [] ["select `col 1` from t".toList, "select `col 2` from t".toList] =
        .ok ["col 1".toList, "col 1".toList] ∧
      ["select `col 1` from t".toList, "select `col 2` from t".toList].map quotedName =
        ["col 1".toList, "col 2".toList] := by
  refine ⟨?_, by decide +kernel, by decide +kernel⟩
  intro text text' hblank
  have hcode : Blanked.code text = Blanked.code text' := (List.cons.inj hblank).1
  rw [Blanked.code.inj hcode]

/-- `n = ` and a digit, as a name, an operator and a number. -/
def digitLexer : Lexer where
  tokens text :=
    if text = "n = 1".toList then [.code "n = ".toList, .number [.digits ['1'] (by decide) rfl]]
    else if text = "n = 2".toList then
      [.code "n = ".toList, .number [.digits ['2'] (by decide) rfl]]
    else [.code text]
  render_tokens text := by
    split
    · rename_i h
      rw [h]
      rfl
    · split
      · rename_i h
        rw [h]
        rfl
      · simp [render, Token.text]
  stable := by
    intro text pieces hpieces
    split at hpieces
    · obtain ⟨⟨_, taken⟩, rest, rfl, rfl, hrest⟩ := List.map_eq_cons_iff.mp hpieces
      obtain ⟨⟨_, taken'⟩, rfl, rfl⟩ := List.map_eq_singleton_iff.mp hrest
      cases taken' <;> rfl
    · split at hpieces
      · obtain ⟨⟨_, taken⟩, rest, rfl, rfl, hrest⟩ := List.map_eq_cons_iff.mp hpieces
        obtain ⟨⟨_, taken'⟩, rfl, rfl⟩ := List.map_eq_singleton_iff.mp hrest
        cases taken' <;> rfl
      · rename_i h h'
        obtain ⟨⟨token, taken⟩, rfl, rfl⟩ := List.map_eq_singleton_iff.mp hpieces
        have hplain : render ([⟨.code text, taken⟩].map Piece.plain) = text := by
          simp [Piece.plain, render, Token.text]
        rw [hplain, if_neg h, if_neg h']
        rfl

/-- The pieces of `n = ` and a digit. -/
def digitPieces (digit : Char) (h : isNumeral digit = true) : List Piece :=
  [⟨.code "n = ".toList, false⟩, ⟨.number [.digits [digit] (by simp) (by simp [h])], true⟩]

theorem parse_transparent_digits :
    parseAll .ascii (fun text => (digitLexer.tokens text).map Token.blank) []
        ["n = 1".toList, "n = 2".toList] =
      .ok (["n = 1".toList, "n = 2".toList].map fun text =>
        (digitLexer.tokens text).map Token.blank) := by
  have hbare : Bare .ascii (digitPieces '1' rfl) ∧ Bare .ascii (digitPieces '2' rfl) := by
    constructor <;> constructor <;> decide +kernel
  apply parse_transparent (fun _ _ hblank => hblank)
  constructor
  · intro text htext
    refine ⟨"n = ?".toList, ?_⟩
    revert text
    decide +kernel
  · rw [List.pairwise_pair]
    intro _
    exact Or.inr ⟨digitPieces '1' rfl, digitPieces '2' rfl, rfl, rfl, hbare.1, hbare.2, rfl⟩

end PlatformOps.Cost.Redaction
