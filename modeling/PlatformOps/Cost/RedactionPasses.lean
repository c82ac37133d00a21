import PlatformOps.Cost.Redaction

/-!
# The Passes of Redaction

The comment and the string pass run over a statement's whole text. They take each of its
tokens on its own when no match runs from one token into a later one (`Confined`): then
comments and strings are those the statement has, and what is left for the pass over the
numbers is the statement with its strings masked (`redact_render`).
-/

namespace PlatformOps.Cost.Redaction

open Scanning

/-! ## The patterns alone and in a longer text -/

theorem closing_append {text rest : List Char} : ∀ {n}, closing text = some n →
    closing (text ++ rest) = some n := by
  induction text with
  | nil => simp [closing]
  | cons c text ih =>
    intro n h
    by_cases hends : c = '*' ∧ text.head? = some '/'
    · obtain ⟨rfl, hhead⟩ := hends
      obtain ⟨text, rfl⟩ := List.head?_eq_some_iff.mp hhead
      exact h
    · rw [closing_cons fun hc hhead => hends ⟨hc, hhead⟩] at h
      obtain ⟨m, hm, rfl⟩ := Option.map_eq_some_iff.mp h
      -- the text is not empty, so what follows `c` is its head
      have hne : text ≠ [] := by
        rintro rfl
        cases hm
      have hhead : (text ++ rest).head? = text.head? := List.head?_append_of_ne_nil _ hne
      rw [List.cons_append, closing_cons, ih hm]
      · rfl
      · intro hc hslash
        exact hends ⟨hc, hhead ▸ hslash⟩

theorem closing_of_append {text rest : List Char} : ∀ {n}, closing (text ++ rest) = some n →
    n ≤ text.length → closing text = some n := by
  induction text with
  | nil =>
    intro n h hle
    have := (closing_le h).1
    simp only [List.length_nil] at hle
    omega
  | cons c text ih =>
    intro n h hle
    -- the comment ends here, or somewhere after
    by_cases hends : c = '*' ∧ text.head? = some '/'
    · obtain ⟨rfl, hhead⟩ := hends
      obtain ⟨text, rfl⟩ := List.head?_eq_some_iff.mp hhead
      exact h
    · have hne : text ≠ [] := by
        rintro rfl
        have := (closing_le h).1
        simp only [List.length_cons, List.length_nil] at hle
        omega
      have hhead : (text ++ rest).head? = text.head? := List.head?_append_of_ne_nil _ hne
      rw [List.cons_append, closing_cons] at h
      · obtain ⟨m, hm, rfl⟩ := Option.map_eq_some_iff.mp h
        rw [closing_cons fun hc hslash => hends ⟨hc, hslash⟩,
          ih hm (by simp only [List.length_cons] at hle; omega)]
        rfl
      · intro hc hslash
        exact hends ⟨hc, hhead ▸ hslash⟩

theorem closeQuote_append_isSome (text rest : List Char) :
    (closeQuote text).isSome → (closeQuote (text ++ rest)).isSome := by
  induction text using closeQuote_induction with
  | nil => simp [closeQuote]
  | backslash => simp [closeQuote]
  | escape c text ih =>
    simp only [List.cons_append, closeQuote_escape]
    split
    · simp
    · simpa using ih
  | double text ih =>
    intro _
    rw [List.cons_append, List.cons_append, closeQuote]
    split <;> rfl
  | close text hhead =>
    intro _
    -- what follows may make the quote the first of two, which still close the string
    cases hrest : (text ++ rest).head? with
    | none => rw [List.cons_append, closeQuote_close (by simp [hrest])]; rfl
    | some d =>
      by_cases hd : d = '\''
      · subst hd
        obtain ⟨tail, htail⟩ := List.head?_eq_some_iff.mp hrest
        rw [List.cons_append, htail, closeQuote]
        split <;> rfl
      · rw [List.cons_append, closeQuote_close (by simp [hrest, hd])]; rfl
  | plain c text hescape hquote ih =>
    rw [List.cons_append, closeQuote_cons hescape hquote, closeQuote_cons hescape hquote]
    simpa using ih

theorem closeQuote_of_append {text rest : List Char} : ∀ {n}, closeQuote (text ++ rest) = some n →
    n ≤ text.length → closeQuote text = some n := by
  induction text using closeQuote_induction with
  | nil =>
    intro n h hle
    have := (closeQuote_le h).1
    simp only [List.length_nil] at hle
    omega
  | backslash =>
    intro n h hle
    simp only [List.length_cons, List.length_nil] at hle
    cases rest with
    | nil => cases h
    | cons d rest =>
      rw [List.cons_append, List.nil_append, closeQuote_escape] at h
      split at h
      · cases h
      · obtain ⟨m, -, rfl⟩ := Option.map_eq_some_iff.mp h
        omega
  | escape c text ih =>
    intro n h hle
    rw [List.cons_append, List.cons_append, closeQuote_escape] at h
    rw [closeQuote_escape]
    split at h
    · cases h
    · rename_i hc
      obtain ⟨m, hm, rfl⟩ := Option.map_eq_some_iff.mp h
      rw [if_neg hc, ih hm (by simp only [List.length_cons] at hle; omega)]
      rfl
  | double text ih =>
    intro n h hle
    rw [List.cons_append, List.cons_append, closeQuote] at h
    rw [closeQuote]
    split at h
    · rename_i m hm
      cases h
      rw [ih hm (by simp only [List.length_cons] at hle; omega)]
    · rename_i hnone
      cases halone : closeQuote text with
      | none => exact h
      | some m =>
        have hsome := closeQuote_append_isSome text rest (by rw [halone]; rfl)
        rw [hnone] at hsome
        cases hsome
  | close text hhead =>
    intro n h hle
    rw [closeQuote_close hhead]
    cases text with
    | nil =>
      -- the match ends at this very quote
      have := (closeQuote_le h).1
      simp only [List.length_cons, List.length_nil] at hle
      rw [show n = 1 by omega]
    | cons d text =>
      rw [List.cons_append, closeQuote_close (by simpa using hhead)] at h
      exact h
  | plain c text hescape hquote ih =>
    intro n h hle
    rw [List.cons_append, closeQuote_cons hescape hquote] at h
    obtain ⟨m, hm, rfl⟩ := Option.map_eq_some_iff.mp h
    rw [closeQuote_cons hescape hquote, ih hm (by simp only [List.length_cons] at hle; omega)]
    rfl

theorem comment_cons_cons (prev : Option Char) (c d : Char) (text : List Char) :
    comment.length prev (c :: d :: text) =
      if c = '/' ∧ d = '*' then (closing text).map (· + 2) else none := by
  simp only [comment]
  split
  · rename_i h
    obtain ⟨rfl, rfl, rfl⟩ : c = '/' ∧ d = '*' ∧ text = _ := by simpa using h
    rfl
  · rename_i h
    rw [if_neg]
    rintro ⟨rfl, rfl⟩
    exact h text rfl

theorem comment_singleton (prev : Option Char) (c : Char) : comment.length prev [c] = none := by
  simp [comment]

theorem comment_of_ne (prev : Option Char) {c : Char} (text : List Char) (hc : c ≠ '/') :
    comment.length prev (c :: text) = none := by
  cases text with
  | nil => exact comment_singleton prev c
  | cons d text => rw [comment_cons_cons, if_neg fun h => hc h.1]

theorem stringLiteral_cons (prev : Option Char) (c : Char) (text : List Char) :
    stringLiteral.length prev (c :: text) =
      if c = '\'' then (closeQuote text).map (· + 1) else none := by
  simp only [stringLiteral]
  split
  · rename_i h
    obtain ⟨rfl, rfl⟩ := List.cons.inj h
    rfl
  · rename_i h
    rw [if_neg]
    rintro rfl
    exact h text rfl

theorem comment_blind : comment.Blind := fun _ _ => rfl

theorem stringLiteral_blind : stringLiteral.Blind := fun _ _ => rfl

theorem comment_local : comment.Local where
  of_some := by
    intro prev text rest n h hle
    match text with
    | [] => exact absurd (comment.pos h) (by simpa using hle)
    -- a lone slash: the star would have to come from the rest
    | [c] =>
      cases rest with
      | nil => exact h
      | cons d rest =>
        rw [List.cons_append, List.nil_append, comment_cons_cons] at h
        split at h
        · obtain ⟨m, -, rfl⟩ := Option.map_eq_some_iff.mp h
          simp only [List.length_cons, List.length_nil] at hle
          omega
        · cases h
    | c :: d :: text =>
      rw [List.cons_append, List.cons_append, comment_cons_cons] at h
      rw [comment_cons_cons]
      split at h
      · rename_i hopen
        obtain ⟨m, hm, rfl⟩ := Option.map_eq_some_iff.mp h
        rw [if_pos hopen, closing_of_append hm (by simp only [List.length_cons] at hle; omega)]
        rfl
      · cases h
  of_none := by
    intro prev text rest h
    match text with
    | [] => rfl
    | [c] => exact comment_singleton prev c
    | c :: d :: text =>
      rw [List.cons_append, List.cons_append, comment_cons_cons] at h
      rw [comment_cons_cons]
      split at h
      · rename_i hopen
        rw [if_pos hopen]
        cases halone : closing text with
        | none => rfl
        | some m => simp [closing_append halone] at h
      · rename_i hopen
        rw [if_neg hopen]

theorem stringLiteral_local : stringLiteral.Local where
  of_some := by
    intro prev text rest n h hle
    cases text with
    | nil => exact absurd (stringLiteral.pos h) (by simpa using hle)
    | cons c text =>
      rw [List.cons_append, stringLiteral_cons] at h
      rw [stringLiteral_cons]
      split at h
      · rename_i hopen
        obtain ⟨m, hm, rfl⟩ := Option.map_eq_some_iff.mp h
        rw [if_pos hopen, closeQuote_of_append hm (by simp only [List.length_cons] at hle; omega)]
        rfl
      · cases h
  of_none := by
    intro prev text rest h
    cases text with
    | nil => rfl
    | cons c text =>
      rw [List.cons_append, stringLiteral_cons] at h
      rw [stringLiteral_cons]
      split at h
      · rename_i hopen
        rw [if_pos hopen]
        cases halone : closeQuote text with
        | none => rfl
        | some m =>
          have hsome := closeQuote_append_isSome text rest (by rw [halone]; rfl)
          rw [Option.map_eq_none_iff] at h
          rw [h] at hsome
          cases hsome
      · rename_i hopen
        rw [if_neg hopen]

/-! ## The text of a comment -/

theorem exists_of_closing {text : List Char} : ∀ {n}, closing text = some n →
    ∃ body, text.take n = body ++ ['*', '/'] := by
  induction text with
  | nil => simp [closing]
  | cons c text ih =>
    intro n h
    by_cases hends : c = '*' ∧ text.head? = some '/'
    · obtain ⟨rfl, hhead⟩ := hends
      obtain ⟨text, rfl⟩ := List.head?_eq_some_iff.mp hhead
      cases h
      exact ⟨[], rfl⟩
    · rw [closing_cons fun hc hslash => hends ⟨hc, hslash⟩] at h
      obtain ⟨m, hm, rfl⟩ := Option.map_eq_some_iff.mp h
      obtain ⟨body, hbody⟩ := ih hm
      exact ⟨c :: body, by rw [List.take_succ_cons, hbody, List.cons_append]⟩

theorem exists_of_comment {prev : Option Char} {text : List Char} {n : ℕ}
    (h : comment.length prev text = some n) :
    ∃ body, text.take n = '/' :: '*' :: (body ++ ['*', '/']) := by
  match text with
  | [] => cases h
  | [c] => simp [comment_singleton] at h
  | c :: d :: text =>
    rw [comment_cons_cons] at h
    split at h
    · rename_i hopen
      obtain ⟨rfl, rfl⟩ := hopen
      obtain ⟨m, hm, rfl⟩ := Option.map_eq_some_iff.mp h
      obtain ⟨body, hbody⟩ := exists_of_closing hm
      exact ⟨body, by rw [List.take_succ_cons, List.take_succ_cons, hbody]⟩
    · cases h

theorem comment_block (block : BlockComment) (rest : List Char) :
    comment.length none (block.text ++ rest) = some block.text.length := by
  have htext : block.text ++ rest = '/' :: '*' :: (block.body ++ ['*', '/'] ++ rest) := rfl
  rw [htext, comment_cons_cons, if_pos ⟨rfl, rfl⟩, closing_append block.ends]
  simp [BlockComment.text]

/-! ## The contents of a string, its comments set aside -/

theorem Mode.read_append (escapes : Char → Bool) (mode : Mode) (text rest : List Char) :
    mode.read escapes (text ++ rest) =
      (mode.read escapes text).bind (Mode.read escapes · rest) := by
  induction text generalizing mode with
  | nil => rfl
  | cons c text ih =>
    simp only [List.cons_append, Mode.read]
    cases mode.next escapes c with
    | none => rfl
    | some next => exact ih next

/-- A comment inside a string, like the marker in its place, ends where nothing is escaped. -/
theorem read_comment {escapes : Char → Bool} {mode mode' : Mode} {body : List Char}
    (hmarker : escapes marker = true)
    (h : mode.read escapes ('/' :: '*' :: (body ++ ['*', '/'])) = some mode') :
    mode.read escapes [marker] = some mode' := by
  -- whatever was open before the end, a comment leaves nothing open
  have hplain : mode' = .plain := by
    have htext : '/' :: '*' :: (body ++ ['*', '/']) = ('/' :: '*' :: body) ++ ['*', '/'] := rfl
    rw [htext, Mode.read_append] at h
    obtain ⟨middle, -, hend⟩ := Option.bind_eq_some_iff.mp h
    cases middle with
    | plain => simpa [Mode.read, Mode.next] using hend.symm
    | escaped =>
      cases hstar : escapes '*' with
      | true => simpa [Mode.read, Mode.next, hstar] using hend.symm
      | false => simp [Mode.read, Mode.next, hstar] at hend
    | doubled => simp [Mode.read, Mode.next] at hend
  subst hplain
  cases mode with
  | plain => rfl
  | escaped => simp [Mode.read, Mode.next, hmarker]
  | doubled => simp [Mode.read, Mode.next] at h

theorem read_sub_comment {escapes : Char → Bool} {mode mode' : Mode} {text : List Char}
    (hmarker : escapes marker = true) (h : mode.read escapes text = some mode') :
    mode.read escapes (sub comment [marker] text) = some mode' := by
  induction hlength : text.length using Nat.strong_induction_on generalizing text mode with
  | _ k ih =>
    subst hlength
    cases text with
    | nil => exact h
    | cons c text =>
      cases hcomment : comment.length none (c :: text) with
      | none =>
        rw [sub, stretches_kept comment_blind hcomment]
        rw [Mode.read] at h
        obtain ⟨next, hnext, hrest⟩ := Option.bind_eq_some_iff.mp h
        show (mode.next escapes c).bind _ = _
        rw [hnext]
        exact ih _ (Nat.lt_succ_self _) hrest rfl
      | some n =>
        -- the text is the comment and what follows it
        have hsplit := List.take_append_drop n (c :: text)
        have hle := comment.le hcomment
        obtain ⟨body, hbody⟩ := exists_of_comment hcomment
        have hfound : comment.length none ((c :: text).take n ++ (c :: text).drop n) =
            some ((c :: text).take n).length := by
          rw [hsplit, hcomment, List.length_take_of_le hle]
        rw [← hsplit, Mode.read_append] at h
        obtain ⟨middle, hfirst, hrest⟩ := Option.bind_eq_some_iff.mp h
        rw [← hsplit, sub, stretches_found comment_blind hfound]
        show mode.read escapes ([marker] ++ sub comment [marker] ((c :: text).drop n)) = _
        rw [Mode.read_append, read_comment hmarker (hbody ▸ hfirst)]
        refine ih _ ?_ hrest rfl
        have hpos := comment.pos hcomment
        simp only [List.length_drop, List.length_cons] at hle ⊢
        omega

theorem closeQuote_of_read {text rest : List Char}
    (h : Mode.plain.read (· != '\n') text = some .plain) (hrest : rest.head? ≠ some '\'') :
    closeQuote (text ++ '\'' :: rest) = some (text.length + 1) := by
  induction text using closeQuote_induction with
  | nil => exact closeQuote_close hrest
  | backslash => cases h
  | escape c text ih =>
    by_cases hc : c = '\n'
    · simp [Mode.read, Mode.next, hc] at h
    · have hread : Mode.plain.read (· != '\n') text = some .plain := by
        simpa [Mode.read, Mode.next, hc] using h
      rw [List.cons_append, List.cons_append, closeQuote_escape, if_neg hc, ih hread]
      rfl
  | double text ih =>
    have hread : Mode.plain.read (· != '\n') text = some .plain := by
      simpa [Mode.read, Mode.next] using h
    rw [List.cons_append, List.cons_append, closeQuote, ih hread]
    rfl
  | close text hhead =>
    -- a lone quote is not read
    cases text with
    | nil => cases h
    | cons d text =>
      have hd : d ≠ '\'' := by simpa using hhead
      simp [Mode.read, Mode.next, hd] at h
  | plain c text hescape hquote ih =>
    have hread : Mode.plain.read (· != '\n') text = some .plain := by
      simpa [Mode.read, Mode.next, hescape, hquote] using h
    rw [List.cons_append, closeQuote_cons hescape hquote, ih hread]
    rfl

/-! ## Token by token -/

/-- A token's text with the comments in it set aside. -/
def Token.aside : Token → List Char
  | .code text => sub comment [marker] text
  | .line text => sub comment [marker] text
  | .block _ => [marker]
  | .string literal => '\'' :: sub comment [marker] literal.contents ++ ['\'']
  | .number parts => parts.flatMap NumberPart.text

/-- The comments set aside from a token. -/
def Token.found : Token → List (List Char)
  | .code text => findall comment text
  | .line text => findall comment text
  | .block comment => [comment.text]
  | .string literal => findall comment literal.contents
  | .number _ => []

/-- A token's text with its comments set aside and its strings replaced. -/
def Token.mask : Token → List Char
  | .code text => sub stringLiteral ['?'] (sub comment [marker] text)
  | .line text => sub stringLiteral ['?'] (sub comment [marker] text)
  | .block _ => [marker]
  | .string _ => ['?']
  | .number parts => parts.flatMap NumberPart.text

def setAside (statement : List Token) : List Char :=
  statement.flatMap Token.aside

def comments (statement : List Token) : List (List Char) :=
  statement.flatMap Token.found

def masked (statement : List Token) : List Char :=
  statement.flatMap Token.mask

/-- What the comment and string patterns find in a token, before the others, ends in it:
no comment opened outside a block comment and no quote outside a string is closed in a
later token, and a string closes where it does for ClickHouse. There a backslash may also
escape a line feed. -/
def Token.Confined (rest : List Token) : Token → Prop
  | .code text => Stays comment none 0 text (render rest) ∧
      Stays stringLiteral none 0 (sub comment [marker] text) (setAside rest)
  | .line text => Stays comment none 0 text (render rest) ∧
      Stays stringLiteral none 0 (sub comment [marker] text) (setAside rest)
  | .block _ => True
  | .string literal => Stays comment none 0 literal.contents ('\'' :: render rest) ∧
      Mode.plain.read (· != '\n') literal.contents = some .plain ∧
      (setAside rest).head? ≠ some '\''
  | .number _ => True

def Confined : List Token → Prop
  | [] => True
  | token :: rest => token.Confined rest ∧ Confined rest

instance decidableTokenConfined (rest : List Token) : (token : Token) →
    Decidable (token.Confined rest)
  | .code _ => inferInstanceAs (Decidable (_ ∧ _))
  | .line _ => inferInstanceAs (Decidable (_ ∧ _))
  | .block _ => isTrue trivial
  | .string _ => inferInstanceAs (Decidable (_ ∧ _ ∧ _))
  | .number _ => isTrue trivial

instance decidableConfined : (statement : List Token) → Decidable (Confined statement)
  | [] => isTrue trivial
  | token :: rest =>
    have := decidableConfined rest
    inferInstanceAs (Decidable (token.Confined rest ∧ Confined rest))

theorem ne_of_isNumberMark {c : Char} (h : isNumberMark c = true) :
    c ≠ '/' ∧ c ≠ '\'' := by
  refine ⟨?_, ?_⟩ <;> rintro rfl <;> simp [isNumberMark] at h

theorem ne_of_isNumeral {c : Char} (h : isNumeral c = true) : c ≠ '/' ∧ c ≠ '\'' := by
  refine ⟨?_, ?_⟩ <;> rintro rfl <;> simp [isNumeral] at h

theorem ne_of_mem_number {parts : List NumberPart} {c : Char}
    (h : c ∈ parts.flatMap NumberPart.text) : c ≠ '/' ∧ c ≠ '\'' := by
  obtain ⟨part, -, hc⟩ := List.mem_flatMap.mp h
  cases part with
  | digits run _ hnumerals => exact ne_of_isNumeral (List.all_eq_true.mp hnumerals c hc)
  | mark d hmark =>
    obtain rfl := List.mem_singleton.mp hc
    exact ne_of_isNumberMark hmark

theorem comment_quote (text : List Char) : comment.length none ('\'' :: text) = none :=
  comment_of_ne none text (by decide)

/-- A string on its own is one match, its comments set aside. -/
theorem stringLiteral_aside {literal : Quoted} {rest : List Char}
    (hread : Mode.plain.read (· != '\n') literal.contents = some .plain)
    (hrest : rest.head? ≠ some '\'') :
    stringLiteral.length none ((Token.string literal).aside ++ rest) =
      some (Token.string literal).aside.length := by
  have hclose := closeQuote_of_read (read_sub_comment (by decide) hread) hrest
  have htext : (Token.string literal).aside ++ rest =
      '\'' :: (sub comment [marker] literal.contents ++ '\'' :: rest) := by
    simp [Token.aside]
  rw [htext, stringLiteral_cons, if_pos rfl, hclose]
  simp [Token.aside]

/-- The comment pass takes a confined token on its own. -/
theorem comment_token {token : Token} {rest : List Token} (h : token.Confined rest) :
    findall comment (token.text ++ render rest) = token.found ++ findall comment (render rest) ∧
    sub comment [marker] (token.text ++ render rest) =
      token.aside ++ sub comment [marker] (render rest) := by
  -- code and strings hold no comment of their own, a block is one
  cases token with
  | code text =>
    exact ⟨findall_append comment_blind comment_local h.1,
      sub_append comment_blind comment_local h.1 _⟩
  | line text =>
    exact ⟨findall_append comment_blind comment_local h.1,
      sub_append comment_blind comment_local h.1 _⟩
  | block block =>
    have hfound := comment_block block (render rest)
    exact ⟨findall_found comment_blind hfound, sub_found comment_blind hfound _⟩
  | string literal =>
    have htext : (Token.string literal).text ++ render rest =
        '\'' :: (literal.contents ++ '\'' :: render rest) := by
      simp [Token.text]
    rw [htext]
    constructor
    · rw [findall_kept comment_blind (comment_quote _),
        findall_append comment_blind comment_local h.1,
        findall_kept comment_blind (comment_quote _), Token.found]
    · rw [sub_kept comment_blind (comment_quote _), sub_append comment_blind comment_local h.1,
        sub_kept comment_blind (comment_quote _)]
      simp [Token.aside]
  | number parts =>
    have hnone : ∀ c ∈ parts.flatMap NumberPart.text, ∀ text,
        comment.length none (c :: text) = none :=
      fun c hc text => comment_of_ne none text (ne_of_mem_number hc).1
    exact ⟨findall_of_forall_none comment_blind hnone, sub_of_forall_none comment_blind hnone _⟩

/-- And so does the pass over the strings. -/
theorem stringLiteral_token {token : Token} {rest : List Token} (h : token.Confined rest) :
    sub stringLiteral ['?'] (token.aside ++ setAside rest) =
      token.mask ++ sub stringLiteral ['?'] (setAside rest) := by
  cases token with
  | code text => exact sub_append stringLiteral_blind stringLiteral_local h.2 _
  | line text => exact sub_append stringLiteral_blind stringLiteral_local h.2 _
  | block block =>
    apply sub_kept stringLiteral_blind
    exact stringLiteral_cons none marker _
  | string literal =>
    obtain ⟨-, hread, hnext⟩ := h
    exact sub_found stringLiteral_blind (stringLiteral_aside hread hnext) _
  | number parts =>
    apply sub_of_forall_none stringLiteral_blind
    intro c hc text
    rw [stringLiteral_cons, if_neg (ne_of_mem_number hc).2]

/-- What the passes before the numbers make of a confined statement. -/
theorem passes_render {statement : List Token} (h : Confined statement) :
    findall comment (render statement) = comments statement ∧
    sub comment [marker] (render statement) = setAside statement ∧
    sub stringLiteral ['?'] (setAside statement) = masked statement := by
  -- token by token: what one leaves open the next would have to close
  induction statement with
  | nil => exact ⟨rfl, rfl, rfl⟩
  | cons token rest ih =>
    obtain ⟨hfound, haside, hmasked⟩ := ih h.2
    obtain ⟨hfound', haside'⟩ := comment_token h.1
    have hmasked' := stringLiteral_token h.1
    have htext : render (token :: rest) = token.text ++ render rest := List.flatMap_cons
    rw [htext, hfound', haside', hfound, haside]
    refine ⟨List.flatMap_cons.symm, List.flatMap_cons.symm, ?_⟩
    calc sub stringLiteral ['?'] (setAside (token :: rest))
        = sub stringLiteral ['?'] (token.aside ++ setAside rest) := by
          rw [setAside, List.flatMap_cons]
          rfl
      _ = token.mask ++ masked rest := by rw [hmasked', hmasked]
      _ = masked (token :: rest) := List.flatMap_cons.symm

theorem redact_render {classes : CharClasses} {statement : List Token} (h : Confined statement) :
    redact classes (render statement) =
      restore (comments statement) (sub (numberLiteral classes) ['?'] (masked statement)) := by
  obtain ⟨hfound, haside, hmasked⟩ := passes_render h
  rw [redact, hfound, haside, hmasked]

end PlatformOps.Cost.Redaction
