import PlatformOps.Cost.RedactionPasses

/-!
# What Redaction Hides

When two statements that differ only in their literals are redacted to one text. The
number pattern takes a word (a longest run of letters, digits, underscores and points)
whole or not at all, so a number is hidden if its word is nothing but the number. The
comments go back where a marker is left, in order.
-/

namespace PlatformOps.Cost.Redaction

open Scanning

/-! ## Words -/

section Words

variable {classes : CharClasses}

/-- A word is a number: the pattern takes it whole. -/
def IsNumber (classes : CharClasses) (word : List Char) : Prop :=
  (numberLiteral classes).length none word = some word.length

instance (word : List Char) : Decidable (IsNumber classes word) :=
  inferInstanceAs (Decidable (_ = _))

/-- What the number pass leaves of a word. -/
def hide (classes : CharClasses) (word : List Char) : List Char :=
  if IsNumber classes word then ['?'] else word

/-- The words of a text. -/
def words (classes : CharClasses) (text : List Char) : List (List Char) :=
  text.splitOnP fun c => !classes.inWord c

theorem inWord_of_digit {c : Char} (h : classes.digit c = true) : classes.inWord c = true := by
  simp [CharClasses.inWord, classes.word_of_digit c h]

theorem digits_append {word rest : List Char} {c : Char} (hc : classes.inWord c = false) :
    digits classes (word ++ c :: rest) = digits classes word := by
  have hdigit : classes.digit c = false := by
    by_contra h
    simp [inWord_of_digit (Bool.eq_true_of_not_eq_false h)] at hc
  unfold digits
  induction word with
  | nil => simp [hdigit]
  | cons d word ih =>
    rw [List.cons_append, List.takeWhile_cons, List.takeWhile_cons]
    split
    · simpa using ih
    · rfl

theorem fraction_of_ne {c : Char} (hc : c ≠ '.') (text : List Char) :
    fraction classes (c :: text) = 0 := by
  rw [fraction]
  intro tail htail
  exact hc (List.cons.inj htail).1

theorem fraction_append {word rest : List Char} {c : Char} (hc : classes.inWord c = false) :
    fraction classes (word ++ c :: rest) = fraction classes word := by
  cases word with
  | nil =>
    have hpoint : c ≠ '.' := by
      rintro rfl
      simp [CharClasses.inWord] at hc
    exact fraction_of_ne hpoint rest
  | cons d word =>
    rw [List.cons_append]
    by_cases hd : d = '.'
    · subst hd
      rw [fraction, fraction, digits_append hc]
    · rw [fraction_of_ne hd, fraction_of_ne hd]

/-- What the number pattern finds in a word does not depend on what follows the word. -/
theorem numberLiteral_append {word rest : List Char} {c : Char} (hc : classes.inWord c = false)
    (prev : Option Char) :
    (numberLiteral classes).length prev (word ++ c :: rest) =
      (numberLiteral classes).length prev word := by
  simp only [numberLiteral, digits_append hc]
  have hle := digits_le classes word
  have hdrop : ∀ n ≤ word.length, (word ++ c :: rest).drop n = word.drop n ++ c :: rest :=
    fun n hn => List.drop_append_of_le_length hn
  have hfraction : fraction classes ((word ++ c :: rest).drop (digits classes word)) =
      fraction classes (word.drop (digits classes word)) := by
    rw [hdrop _ hle, fraction_append hc]
  have hpart := fraction_le classes (word.drop (digits classes word))
  rw [List.length_drop] at hpart
  rw [hfraction]
  congr 1
  apply List.find?_congr
  intro n hn
  have hn' : n ≤ word.length := by
    simp only [List.mem_cons, List.not_mem_nil, or_false] at hn
    omega
  rw [hdrop n hn']
  -- at the end of the word the text may end or a character follow that is in no word
  cases word.drop n with
  | nil => simp [hc]
  | cons d tail => rfl

theorem numberLiteral_of_inWord {prev : Option Char} (hprev : prev.any classes.inWord = true)
    (text : List Char) : (numberLiteral classes).length prev text = none := by
  simp [numberLiteral, hprev]

theorem numberLiteral_outside {prev : Option Char} (hprev : prev.any classes.inWord = false)
    (text : List Char) :
    (numberLiteral classes).length prev text = (numberLiteral classes).length none text := by
  simp [numberLiteral, hprev]

theorem numberLiteral_of_not_inWord {c : Char} (hc : classes.inWord c = false)
    (prev : Option Char) (rest : List Char) :
    (numberLiteral classes).length prev (c :: rest) = none := by
  have hdigits : digits classes (c :: rest) = 0 := @digits_append classes [] rest c hc
  simp [numberLiteral, hdigits]

/-- A match that starts where a word does is the word. -/
theorem length_eq_of_numberLiteral {word : List Char} {prev : Option Char} {n : ℕ}
    (hword : ∀ c ∈ word, classes.inWord c = true)
    (h : (numberLiteral classes).length prev word = some n) : n = word.length := by
  apply le_antisymm ((numberLiteral classes).le h)
  simp only [numberLiteral] at h
  split at h
  · cases h
  · have hend := List.find?_some h
    by_contra hlt
    -- the character after the match is one of the word
    have hmem : word[n] ∈ word := List.getElem_mem (by omega)
    rw [List.head?_drop, List.getElem?_eq_getElem (by omega)] at hend
    simp [hword _ hmem] at hend

theorem scan_inside {word rest : List Char} (hword : ∀ c ∈ word, classes.inWord c = true) :
    ∀ {prev : Option Char}, prev.any classes.inWord = true →
      scan (numberLiteral classes) prev 0 (word ++ rest) =
        word.map .kept ++ scan (numberLiteral classes) (before prev word) 0 rest := by
  induction word with
  | nil =>
    intro prev _
    rfl
  | cons c word ih =>
    intro prev hprev
    rw [List.cons_append, scan_kept (numberLiteral_of_inWord hprev _),
      ih (fun d hd => hword d (List.mem_cons_of_mem c hd))
        (show (some c).any classes.inWord = true from hword c (List.mem_cons_self ..))]
    rfl

/-- The number pass takes a word on its own, when what follows does not change what the
pattern finds at its start. -/
theorem scan_word {word rest : List Char} (hword : ∀ c ∈ word, classes.inWord c = true)
    (hrest : (numberLiteral classes).length none (word ++ rest) =
      (numberLiteral classes).length none word) :
    (scan (numberLiteral classes) none 0 (word ++ rest)).flatMap (Stretch.replaced ['?']) =
      hide classes word ++
        (scan (numberLiteral classes) (before none word) 0 rest).flatMap
          (Stretch.replaced ['?']) := by
  unfold hide
  split
  · rename_i hnumber
    rw [scan_found (hrest.trans hnumber)]
    rfl
  · rename_i hnumber
    cases word with
    | nil => rfl
    | cons c word =>
      have hnone : (numberLiteral classes).length none (c :: word) = none := by
        cases hlength : (numberLiteral classes).length none (c :: word) with
        | none => rfl
        | some n =>
          rw [length_eq_of_numberLiteral hword hlength] at hlength
          exact absurd hlength hnumber
      rw [List.cons_append, scan_kept ((List.cons_append ▸ hrest).trans hnone),
        scan_inside (fun d hd => hword d (List.mem_cons_of_mem c hd))
          (show (some c).any classes.inWord = true from hword c (List.mem_cons_self ..))]
      simp [List.flatMap_cons, List.flatMap_map, Stretch.replaced, before]

theorem sub_last {word : List Char} (hword : ∀ c ∈ word, classes.inWord c = true) :
    sub (numberLiteral classes) ['?'] word = hide classes word := by
  have h := @scan_word classes word [] hword (by rw [List.append_nil])
  rw [List.append_nil] at h
  exact h.trans (List.append_nil _)

theorem sub_next {word rest : List Char} {c : Char}
    (hword : ∀ c ∈ word, classes.inWord c = true) (hc : classes.inWord c = false) :
    sub (numberLiteral classes) ['?'] (word ++ c :: rest) =
      hide classes word ++ c :: sub (numberLiteral classes) ['?'] rest := by
  have houtside : scan (numberLiteral classes) (some c) 0 rest =
      scan (numberLiteral classes) none 0 rest := by
    cases rest with
    | nil => simp [scan]
    | cons d rest =>
      rw [scan, numberLiteral_outside (show (some c).any classes.inWord = false from hc), scan]
  rw [sub, stretches, scan_word hword (numberLiteral_append hc none),
    scan_kept (numberLiteral_of_not_inWord hc _ rest), houtside]
  rfl

end Words

/-! ## Two texts alike outside their words -/

/-- The same text up to what its words are, where an empty word is kept. -/
inductive Aligned (classes : CharClasses) : List Char → List Char → Prop
  | last {word word' : List Char} (hword : ∀ c ∈ word, classes.inWord c = true)
      (hword' : ∀ c ∈ word', classes.inWord c = true) (hempty : word = [] ↔ word' = []) :
      Aligned classes word word'
  | next {word word' rest rest' : List Char} {c : Char}
      (hword : ∀ c ∈ word, classes.inWord c = true)
      (hword' : ∀ c ∈ word', classes.inWord c = true) (hempty : word = [] ↔ word' = [])
      (hc : classes.inWord c = false) (hrest : Aligned classes rest rest') :
      Aligned classes (word ++ c :: rest) (word' ++ c :: rest')

variable {classes : CharClasses}

theorem Aligned.cons {text text' : List Char} (c : Char) (h : Aligned classes text text') :
    Aligned classes (c :: text) (c :: text') := by
  cases hc : classes.inWord c with
  | false =>
    have hnil : ∀ d ∈ ([] : List Char), classes.inWord d = true := by simp
    exact .next hnil hnil Iff.rfl hc h
  | true =>
    -- the character starts the first word
    cases h with
    | last hword hword' hempty =>
      exact .last (List.forall_mem_cons.mpr ⟨hc, hword⟩) (List.forall_mem_cons.mpr ⟨hc, hword'⟩)
        (by simp)
    | @next word word' rest rest' d hword hword' hempty hd hrest =>
      show Aligned classes ((c :: word) ++ d :: rest) ((c :: word') ++ d :: rest')
      exact .next (List.forall_mem_cons.mpr ⟨hc, hword⟩) (List.forall_mem_cons.mpr ⟨hc, hword'⟩)
        (by simp) hd hrest

theorem Aligned.append {text text' : List Char} (first : List Char)
    (h : Aligned classes text text') : Aligned classes (first ++ text) (first ++ text') := by
  induction first with
  | nil => exact h
  | cons c first ih => exact ih.cons c

/-- Two runs of characters of words may stand in the same place. -/
theorem Aligned.run {run run' text text' : List Char} (hne : run ≠ []) (hne' : run' ≠ [])
    (hrun : ∀ c ∈ run, classes.inWord c = true) (hrun' : ∀ c ∈ run', classes.inWord c = true)
    (h : Aligned classes text text') : Aligned classes (run ++ text) (run' ++ text') := by
  cases h with
  | last hword hword' hempty =>
    exact .last (List.forall_mem_append.mpr ⟨hrun, hword⟩)
      (List.forall_mem_append.mpr ⟨hrun', hword'⟩) (by simp [hne, hne'])
  | next hword hword' hempty hc hrest =>
    rw [← List.append_assoc, ← List.append_assoc]
    exact .next (List.forall_mem_append.mpr ⟨hrun, hword⟩)
      (List.forall_mem_append.mpr ⟨hrun', hword'⟩) (by simp [hne, hne']) hc hrest

theorem inWord_of_isNumeral {c : Char} (h : isNumeral c = true) : classes.inWord c = true := by
  have hascii : c.toNat < 128 ∧ c.isAlphanum = true := by
    rcases Bool.or_eq_true_iff.mp h with hdigit | hletter
    · have hle : c.toNat ≤ 57 := (Char.isDigit_iff_toNat.mp hdigit).2
      exact ⟨by omega, by simp [Char.isAlphanum, hdigit]⟩
    · have hletters : ∀ d ∈ ['a', 'b', 'c', 'd', 'e', 'f', 'A', 'B', 'C', 'D', 'E', 'F'],
          d.toNat < 128 ∧ d.isAlphanum = true := by simp
      exact hletters c (of_decide_eq_true hletter)
  rw [CharClasses.inWord, classes.word_ascii c hascii.1, hascii.2]
  rfl

theorem aligned_number {parts parts' : List NumberPart}
    (h : List.Forall₂ NumberPart.Alike parts parts') {text text' : List Char}
    (htext : Aligned classes text text') :
    Aligned classes (parts.flatMap NumberPart.text ++ text)
      (parts'.flatMap NumberPart.text ++ text') := by
  induction h with
  | nil => exact htext
  | cons hpart _ ih =>
    rw [List.flatMap_cons, List.flatMap_cons, List.append_assoc, List.append_assoc]
    cases hpart with
    | @digits run run' hne hall hne' hall' =>
      exact ih.run hne hne' (fun c hc => inWord_of_isNumeral (List.all_eq_true.mp hall c hc))
        fun c hc => inWord_of_isNumeral (List.all_eq_true.mp hall' c hc)
    | @mark c => exact ih.cons c

/-- Two alike statements are aligned, their comments set aside and their strings masked. -/
theorem aligned_masked {statement statement' : List Token} (h : Alike statement statement') :
    Aligned classes (masked statement) (masked statement') := by
  induction h with
  | nil => exact .last (by simp [masked]) (by simp [masked]) Iff.rfl
  | cons htoken _ ih =>
    unfold masked at ih ⊢
    rw [List.flatMap_cons, List.flatMap_cons]
    cases htoken with
    | code => exact ih.append _
    | line => exact ih.append _
    | block => exact ih.append _
    | string => exact ih.append ['?']
    | number hparts => exact aligned_number hparts ih

/-! ## Comments put back -/

/-- Neither raises, and both return the same text. -/
def Agree (one other : Except Raised (List Char)) : Prop :=
  ∃ out, one = .ok out ∧ other = .ok out

theorem Agree.map_iff {one other : Except Raised (List Char)} {f g : List Char → List Char}
    (same : Prop) (h : ∀ a b, f a = g b ↔ same ∧ a = b) :
    Agree (f <$> one) (g <$> other) ↔ same ∧ Agree one other := by
  unfold Agree
  cases one with
  | error e => simp
  | ok a =>
    cases other with
    | error e => simp
    | ok b =>
      have hmap : f a = g b ↔ same ∧ a = b := h a b
      simp only [Except.map_ok, Except.ok.injEq]
      constructor
      · rintro ⟨out, hf, hg⟩
        obtain ⟨hsame, rfl⟩ := hmap.mp (hf.trans hg.symm)
        exact ⟨hsame, a, rfl, rfl⟩
      · rintro ⟨hsame, out, rfl, rfl⟩
        exact ⟨_, rfl, (hmap.mpr ⟨hsame, rfl⟩).symm⟩

/-- The first `count` comments are there in both lists, and are the same. -/
def SameFirst (count : ℕ) (found found' : List (List Char)) : Prop :=
  count ≤ found.length ∧ count ≤ found'.length ∧ found.take count = found'.take count

instance (count : ℕ) (found found' : List (List Char)) : Decidable (SameFirst count found found') :=
  inferInstanceAs (Decidable (_ ∧ _ ∧ _))

/-- A text the comment pattern takes whole, whatever follows it. -/
def IsComment (text : List Char) : Prop :=
  ∀ rest, comment.length none (text ++ rest) = some text.length

theorem restore_append {text : List Char} (htext : marker ∉ text) (found : List (List Char))
    (rest : List Char) : restore found (text ++ rest) = (text ++ ·) <$> restore found rest := by
  induction text with
  | nil =>
    rw [List.nil_append]
    cases restore found rest <;> rfl
  | cons c text ih =>
    have hc : c ≠ marker := fun hc => htext (hc ▸ List.mem_cons_self ..)
    rw [List.cons_append, restore_kept hc, ih fun h => htext (List.mem_cons_of_mem c h)]
    cases restore found rest <;> rfl

theorem append_comment_inj {one other rest rest' : List Char} (hone : IsComment one)
    (hother : IsComment other) :
    one ++ rest = other ++ rest' ↔ one = other ∧ rest = rest' := by
  constructor
  · intro h
    have hlength : one.length = other.length := by
      have := hone rest
      rw [h, hother rest'] at this
      exact (Option.some.inj this).symm
    exact List.append_inj h hlength
  · rintro ⟨rfl, rfl⟩
    rfl

theorem isComment_of_mem_findall {text m : List Char} (h : m ∈ findall comment text) :
    IsComment m := by
  intro rest
  obtain ⟨prev, text', n, hlength, rfl⟩ := exists_of_mem_findall h
  have hle := comment.le hlength
  have htake : (text'.take n).length = n := List.length_take_of_le hle
  have hwhole : comment.length none (text'.take n ++ text'.drop n) = some n := by
    rw [List.take_append_drop]
    exact hlength
  have halone : comment.length none (text'.take n) = some n :=
    comment_local.of_some hwhole htake.ge
  obtain ⟨body, hbody⟩ := exists_of_comment hlength
  rw [hbody] at halone ⊢
  rw [comment_cons_cons, if_pos ⟨rfl, rfl⟩] at halone
  obtain ⟨k, hk, hn⟩ := Option.map_eq_some_iff.mp halone
  rw [List.cons_append, List.cons_append, comment_cons_cons, if_pos ⟨rfl, rfl⟩,
    closing_append hk, ← hbody, htake, Option.map_some, hn]

theorem isComment_of_mem_comments {statement : List Token} {text : List Char}
    (h : text ∈ comments statement) : IsComment text := by
  obtain ⟨token, -, htoken⟩ := List.mem_flatMap.mp h
  cases token with
  | code t => exact isComment_of_mem_findall htoken
  | line t => exact isComment_of_mem_findall htoken
  | block block =>
    obtain rfl := List.mem_singleton.mp htoken
    exact comment_block block
  | string literal => exact isComment_of_mem_findall htoken
  | number parts => cases htoken

theorem exists_cons_of_isComment {text : List Char} (h : IsComment text) :
    ∃ tail, text = '/' :: tail := by
  have hlength := h []
  rw [List.append_nil] at hlength
  obtain ⟨body, hbody⟩ := exists_of_comment hlength
  rw [List.take_length] at hbody
  exact ⟨_, hbody⟩

theorem not_inWord_of_ascii {c : Char} (hascii : c.toNat < 128)
    (h : (c.isAlphanum || c == '_' || c == '.') = false) : classes.inWord c = false := by
  rwa [CharClasses.inWord, classes.word_ascii c hascii]

theorem marker_not_inWord : classes.inWord marker = false := by
  rw [CharClasses.inWord, marker, classes.word_marker]
  rfl

theorem marker_not_mem_word {word : List Char} (h : ∀ c ∈ word, classes.inWord c = true) :
    marker ∉ word := by
  intro hmem
  simpa [marker_not_inWord] using h _ hmem

theorem marker_not_mem_hide {word : List Char} (h : ∀ c ∈ word, classes.inWord c = true) :
    marker ∉ hide classes word := by
  unfold hide
  split
  · decide
  · exact marker_not_mem_word h

/-- Two words are the same, or are both numbers. -/
def SameWord (classes : CharClasses) (word word' : List Char) : Prop :=
  word = word' ∨ IsNumber classes word ∧ IsNumber classes word'

instance (word word' : List Char) : Decidable (SameWord classes word word') :=
  inferInstanceAs (Decidable (_ ∨ _ ∧ _))

/-- What is left of two words, each before a character of no word, tells the words apart
unless both are numbers. -/
theorem hide_append_inj {word word' : List Char} (rest rest' : List Char) {c d : Char}
    (hword : ∀ c ∈ word, classes.inWord c = true) (hword' : ∀ c ∈ word', classes.inWord c = true)
    (hempty : word = [] ↔ word' = []) (hc : classes.inWord c = false)
    (hd : classes.inWord d = false) :
    hide classes word ++ c :: rest = hide classes word' ++ d :: rest' ↔
      SameWord classes word word' ∧ c :: rest = d :: rest' := by
  have hquestion : classes.inWord '?' = false := not_inWord_of_ascii (by decide) (by decide)
  -- a word is told from the mark of a number by its first character
  have hmark : ∀ {w u v : List Char}, (∀ c ∈ w, classes.inWord c = true) → w ≠ [] →
      '?' :: u ≠ w ++ v := by
    intro w u v hw hne heq
    obtain ⟨e, w, rfl⟩ := List.exists_cons_of_ne_nil hne
    have he : e = '?' := (List.cons.inj heq).1.symm
    have hin := hw e (List.mem_cons_self ..)
    rw [he, hquestion] at hin
    cases hin
  have hnil : ∀ {w}, IsNumber classes w → w ≠ [] := by
    rintro w hw rfl
    exact absurd ((numberLiteral classes).pos hw) (lt_irrefl _)
  unfold hide
  by_cases hnumber : IsNumber classes word <;> by_cases hnumber' : IsNumber classes word'
  · simp [SameWord, hnumber, hnumber']
  · have hne : word' ≠ [] := fun h => hnil hnumber (hempty.mpr h)
    rw [if_pos hnumber, if_neg hnumber']
    constructor
    · intro heq
      exact absurd heq (hmark hword' hne)
    · rintro ⟨rfl | h, -⟩
      · exact absurd hnumber hnumber'
      · exact absurd h.2 hnumber'
  · have hne : word ≠ [] := fun h => hnil hnumber' (hempty.mp h)
    rw [if_neg hnumber, if_pos hnumber']
    constructor
    · intro heq
      exact absurd heq.symm (hmark hword hne)
    · rintro ⟨rfl | h, -⟩
      · exact absurd hnumber' hnumber
      · exact absurd h.1 hnumber
  · rw [if_neg hnumber, if_neg hnumber']
    constructor
    · intro heq
      -- each word is the longest run of word characters at the start
      have htake := congrArg (List.takeWhile classes.inWord) heq
      rw [List.takeWhile_append_of_pos hword, List.takeWhile_append_of_pos hword',
        List.takeWhile_cons_of_neg (by simp [hc]), List.takeWhile_cons_of_neg (by simp [hd]),
        List.append_nil, List.append_nil] at htake
      subst htake
      exact ⟨.inl rfl, List.append_cancel_left heq⟩
    · rintro ⟨rfl | h, hrest⟩
      · rw [hrest]
      · exact absurd h.1 hnumber

theorem words_last {word : List Char} (hword : ∀ c ∈ word, classes.inWord c = true) :
    words classes word = [word] :=
  List.splitOnP_eq_singleton (by simpa using hword)

theorem words_next {word rest : List Char} {c : Char}
    (hword : ∀ c ∈ word, classes.inWord c = true) (hc : classes.inWord c = false) :
    words classes (word ++ c :: rest) = word :: words classes rest :=
  List.splitOnP_append_cons_of_forall_mem (by simpa using hword) c (by simp [hc]) rest

theorem hide_inj {word word' : List Char} (hword : ∀ c ∈ word, classes.inWord c = true)
    (hword' : ∀ c ∈ word', classes.inWord c = true) (hempty : word = [] ↔ word' = []) :
    hide classes word = hide classes word' ↔ SameWord classes word word' := by
  have h := hide_append_inj [] [] hword hword' hempty marker_not_inWord marker_not_inWord
  simpa using h

theorem not_sameFirst_nil_left (count : ℕ) (found : List (List Char)) :
    ¬ SameFirst (count + 1) [] found := by
  rintro ⟨h, -, -⟩
  cases h

theorem not_sameFirst_nil_right (count : ℕ) (found : List (List Char)) :
    ¬ SameFirst (count + 1) found [] := by
  rintro ⟨-, h, -⟩
  cases h

theorem sameFirst_cons {count : ℕ} {m m' : List Char} {found found' : List (List Char)} :
    SameFirst (count + 1) (m :: found) (m' :: found') ↔ m = m' ∧ SameFirst count found found' := by
  simp only [SameFirst, List.length_cons, Nat.add_le_add_iff_right, List.take_succ_cons,
    List.cons.injEq]
  tauto

/-- What is put back together from two aligned texts is the same when the comments put
back are, and each word is the same or a number in both. -/
theorem restore_agree_iff {text text' : List Char} (h : Aligned classes text text') :
    ∀ {found found' : List (List Char)}, (∀ m ∈ found, IsComment m) →
      (∀ m ∈ found', IsComment m) →
      (Agree (restore found (sub (numberLiteral classes) ['?'] text))
          (restore found' (sub (numberLiteral classes) ['?'] text')) ↔
        SameFirst (text.count marker) found found' ∧
          List.Forall₂ (SameWord classes) (words classes text) (words classes text')) := by
  induction h with
  | @last word word' hword hword' hempty =>
    intro found found' _ _
    have hrestore : ∀ {w} (found : List (List Char)), (∀ c ∈ w, classes.inWord c = true) →
        restore found (sub (numberLiteral classes) ['?'] w) = .ok (hide classes w) := by
      intro w found hw
      have happend := restore_append (marker_not_mem_hide hw) found []
      rw [List.append_nil] at happend
      rw [sub_last hw, happend]
      simp [restore]
    rw [hrestore found hword, hrestore found' hword', words_last hword, words_last hword',
      List.count_eq_zero.mpr (marker_not_mem_word hword), List.forall₂_cons, ← hide_inj hword
      hword' hempty]
    simp [Agree, SameFirst, eq_comm]
  | @next word word' rest rest' c hword hword' hempty hc _ ih =>
    intro found found' hfound hfound'
    have hmarker := marker_not_mem_word hword
    rw [sub_next hword hc, sub_next hword' hc, words_next hword hc, words_next hword' hc,
      List.forall₂_cons, restore_append (marker_not_mem_hide hword),
      restore_append (marker_not_mem_hide hword'), List.count_append,
      List.count_eq_zero.mpr hmarker, zero_add]
    by_cases hm : c = marker
    · subst hm
      rw [List.count_cons_self]
      cases found with
      | nil =>
        rw [restore_nil_marker]
        simp [Agree, not_sameFirst_nil_left]
      | cons m found =>
        cases found' with
        | nil =>
          rw [restore_nil_marker]
          simp [Agree, not_sameFirst_nil_right]
        | cons m' found' =>
          obtain ⟨hm, hfound⟩ := List.forall_mem_cons.mp hfound
          obtain ⟨hm', hfound'⟩ := List.forall_mem_cons.mp hfound'
          rw [restore_marker, restore_marker, sameFirst_cons, ← comp_map, ← comp_map,
            Agree.map_iff (SameWord classes word word' ∧ m = m'), ih hfound hfound']
          · tauto
          · intro a b
            -- a comment starts with a character of no word, and ends where it does
            obtain ⟨tail, htail⟩ := exists_cons_of_isComment hm
            obtain ⟨tail', htail'⟩ := exists_cons_of_isComment hm'
            have hslash : classes.inWord '/' = false :=
              not_inWord_of_ascii (by decide) (by decide)
            have hword := hide_append_inj (tail ++ a) (tail' ++ b) hword hword' hempty
              hslash hslash
            rw [← List.cons_append, ← List.cons_append, ← htail, ← htail',
              append_comment_inj hm hm'] at hword
            show hide classes word ++ (m ++ a) = hide classes word' ++ (m' ++ b) ↔ _
            rw [hword, and_assoc]
    · rw [restore_kept hm, restore_kept hm, List.count_cons_of_ne hm, ← comp_map, ← comp_map,
        Agree.map_iff (SameWord classes word word'), ih hfound hfound']
      · tauto
      · intro a b
        have hinj := hide_append_inj a b hword hword' hempty hc hc
        simpa using hinj

/-! ## Two alike statements -/

/-- What the numbers and the comments of two alike statements must satisfy to be redacted
to one text: the comments put back, one for each marker left outside strings, are the
same, and each word outside strings and block comments is the same in both or nothing
but a number. -/
structure Hidden (classes : CharClasses) (statement statement' : List Token) : Prop where
  restored : SameFirst ((masked statement).count marker) (comments statement)
    (comments statement')
  numbers : List.Forall₂ (SameWord classes) (words classes (masked statement))
    (words classes (masked statement'))

/-- Two statements that differ only in their literals are redacted to one text, and
neither raises, exactly when their comments and numbers are `Hidden`. -/
theorem redact_agree_iff (classes : CharClasses) {statement statement' : List Token}
    (halike : Alike statement statement') (h : Confined statement) (h' : Confined statement') :
    Agree (redact classes (render statement)) (redact classes (render statement')) ↔
      Hidden classes statement statement' := by
  rw [redact_render h, redact_render h',
    restore_agree_iff (aligned_masked halike) (fun _ => isComment_of_mem_comments)
      fun _ => isComment_of_mem_comments]
  constructor
  · rintro ⟨hrestored, hnumbers⟩
    exact ⟨hrestored, hnumbers⟩
  · intro hhidden
    exact ⟨hhidden.restored, hhidden.numbers⟩

/-- A statement that looks a customer up by email and number, with a comment. -/
def lookUp (email : Quoted) (run : List Char) (h : run ≠ []) (h' : run.all isNumeral) :
    List Token :=
  [.code "select * from c1 where email = ".toList, .string email,
    .code " and n < ".toList, .number [.digits run h h', .mark '.' rfl, .digits run h h'],
    .code " ".toList, .block ⟨" dashboard 7 ".toList, by decide +kernel⟩,
    .line "-- by 'email'".toList]

theorem redact_agree_iff_lookUp :
    Agree
      (redact .ascii (render
        (lookUp ⟨"ann@x.io".toList, by decide +kernel⟩ ['4'] (by decide) rfl)))
      (redact .ascii (render
        (lookUp ⟨"it''s".toList, by decide +kernel⟩ ['1', '7'] (by decide) rfl))) := by
  refine (redact_agree_iff .ascii ?_ ?_ ?_).mpr ⟨?_, ?_⟩
  · unfold lookUp
    exact .cons .code (.cons .string (.cons .code (.cons (.number (.cons .digits (.cons .mark
      (.cons .digits .nil)))) (.cons .code (.cons .block (.cons .line .nil))))))
  · decide +kernel
  · decide +kernel
  · decide +kernel
  · decide +kernel

/-- `select '/*…*/' /* n */`: a string that holds a comment, before a comment. -/
def annotated (literal : Quoted) : List Token :=
  [.code "select ".toList, .string literal, .code " ".toList,
    .block ⟨" n ".toList, by decide +kernel⟩]

/-- The comment in the string is put back in the place of the comment after it. -/
theorem annotated_shown :
    Alike (annotated ⟨"/*ann@x.io*/".toList, by decide +kernel⟩)
      (annotated ⟨"/*bob@x.io*/".toList, by decide +kernel⟩) ∧
    redact .ascii (render (annotated ⟨"/*ann@x.io*/".toList, by decide +kernel⟩)) =
      .ok "select ? /*ann@x.io*/".toList ∧
    ¬ Agree (redact .ascii (render (annotated ⟨"/*ann@x.io*/".toList, by decide +kernel⟩)))
      (redact .ascii (render (annotated ⟨"/*bob@x.io*/".toList, by decide +kernel⟩))) := by
  have hann : redact .ascii (render (annotated ⟨"/*ann@x.io*/".toList, by decide +kernel⟩)) =
      .ok "select ? /*ann@x.io*/".toList := by decide +kernel
  have hbob : redact .ascii (render (annotated ⟨"/*bob@x.io*/".toList, by decide +kernel⟩)) =
      .ok "select ? /*bob@x.io*/".toList := by decide +kernel
  refine ⟨.cons .code (.cons .string (.cons .code (.cons .block .nil))), hann, ?_⟩
  rw [hann, hbob]
  rintro ⟨out, hout, hout'⟩
  have hsame : "select ? /*ann@x.io*/".toList = "select ? /*bob@x.io*/".toList :=
    Except.ok.inj (hout.trans hout'.symm)
  revert hsame
  decide +kernel

end PlatformOps.Cost.Redaction
