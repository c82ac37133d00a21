import Mathlib

/-!
# Scanning

Finding and replacing the matches of a pattern in a text, from left to right and
without overlap. A pattern sees the element before a place and the text from there
on, and gives the length of the match that starts there. What a scan finds in a
text followed by another is what it finds in each, when no match runs from the
first into the second.
-/

namespace Scanning

variable {α : Type*}

/-- A pattern: the length of the match that starts at a place, none if none does.
A match is never empty and lies within the text. -/
structure Pattern (α : Type*) where
  length : Option α → List α → Option ℕ
  pos : ∀ {prev text n}, length prev text = some n → 0 < n
  le : ∀ {prev text n}, length prev text = some n → n ≤ text.length

/-- A stretch of scanned text: an element no match holds, or a whole match. -/
inductive Stretch (α : Type*)
  | kept (c : α)
  | found (m : List α)
deriving DecidableEq

/-- What stands for a stretch when each match is replaced. -/
def Stretch.replaced (repl : List α) : Stretch α → List α
  | .kept c => [c]
  | .found _ => repl

def Stretch.matched : Stretch α → Option (List α)
  | .kept _ => none
  | .found m => some m

/-- The stretches of a text. `skip` counts the elements that a match already found
still holds. -/
def scan (p : Pattern α) : Option α → ℕ → List α → List (Stretch α)
  | _, _, [] => []
  | _, skip + 1, c :: text => scan p (some c) skip text
  | prev, 0, c :: text =>
    match p.length prev (c :: text) with
    | some n => .found ((c :: text).take n) :: scan p (some c) (n - 1) text
    | none => .kept c :: scan p (some c) 0 text

def stretches (p : Pattern α) (text : List α) : List (Stretch α) :=
  scan p none 0 text

/-- The matches of a pattern in a text (`re.findall`). -/
def findall (p : Pattern α) (text : List α) : List (List α) :=
  (stretches p text).filterMap Stretch.matched

/-- The text with every match replaced (`re.sub`). -/
def sub (p : Pattern α) (repl text : List α) : List α :=
  (stretches p text).flatMap (Stretch.replaced repl)

/-- The element before a place: the last one of what was read. -/
def before (prev : Option α) : List α → Option α
  | [] => prev
  | c :: text => before (some c) text

/-! ## One step -/

theorem scan_kept {p : Pattern α} {prev : Option α} {c : α} {text : List α}
    (h : p.length prev (c :: text) = none) :
    scan p prev 0 (c :: text) = .kept c :: scan p (some c) 0 text := by
  rw [scan, h]

theorem scan_skip (p : Pattern α) (prev : Option α) (m rest : List α) :
    scan p prev m.length (m ++ rest) = scan p (before prev m) 0 rest := by
  induction m generalizing prev with
  | nil => rfl
  | cons c m ih =>
    rw [List.length_cons, List.cons_append, scan, before]
    exact ih (some c)

/-- A match that is the whole of a list is one stretch, and the scan goes on after it. -/
theorem scan_found {p : Pattern α} {prev : Option α} {m rest : List α}
    (h : p.length prev (m ++ rest) = some m.length) :
    scan p prev 0 (m ++ rest) = .found m :: scan p (before prev m) 0 rest := by
  cases m with
  | nil => exact absurd (p.pos h) (lt_irrefl _)
  | cons c m =>
    have hstep : scan p prev 0 (c :: (m ++ rest)) =
        .found ((c :: (m ++ rest)).take (m.length + 1)) ::
          scan p (some c) m.length (m ++ rest) := by
      rw [List.cons_append, List.length_cons] at h
      rw [scan, h]
      rfl
    rw [List.cons_append, hstep, scan_skip, before]
    simp

/-! ## Two texts, one after the other -/

/-- No match that starts in a text runs into what follows it. -/
def Stays (p : Pattern α) : Option α → ℕ → List α → List α → Prop
  | _, skip, [], _ => skip = 0
  | _, skip + 1, c :: text, rest => Stays p (some c) skip text rest
  | prev, 0, c :: text, rest =>
    Stays p (some c) ((p.length prev (c :: (text ++ rest))).getD 1 - 1) text rest

instance decidableStays (p : Pattern α) :
    (prev : Option α) → (skip : ℕ) → (text rest : List α) → Decidable (Stays p prev skip text rest)
  | _, skip, [], _ => inferInstanceAs (Decidable (skip = 0))
  | _, skip + 1, c :: text, rest => decidableStays p (some c) skip text rest
  | prev, 0, c :: text, rest =>
    decidableStays p (some c) ((p.length prev (c :: (text ++ rest))).getD 1 - 1) text rest

/-- A pattern that finds in a text followed by another what it finds in the text alone,
unless the match runs into the other. -/
structure Pattern.Local (p : Pattern α) : Prop where
  of_some : ∀ {prev text rest n}, p.length prev (text ++ rest) = some n → n ≤ text.length →
    p.length prev text = some n
  of_none : ∀ {prev text rest}, p.length prev (text ++ rest) = none → p.length prev text = none

/-- A pattern that does not look at the element before a match. -/
def Pattern.Blind (p : Pattern α) : Prop :=
  ∀ prev text, p.length prev text = p.length none text

theorem le_length_of_stays {p : Pattern α} {text rest : List α} :
    ∀ {prev skip}, Stays p prev skip text rest → skip ≤ text.length := by
  induction text with
  | nil =>
    intro prev skip h
    exact le_of_eq h
  | cons c text ih =>
    intro prev skip h
    cases skip with
    | zero => exact Nat.zero_le _
    | succ skip => exact Nat.succ_le_succ (ih h)

/-- A scan of two texts is the scans of the two, when no match runs from the first into
the second. -/
theorem scan_append {p : Pattern α} (hp : p.Local) {text rest : List α} :
    ∀ {prev skip}, Stays p prev skip text rest →
      scan p prev skip (text ++ rest) =
        scan p prev skip text ++ scan p (before prev text) 0 rest := by
  induction text with
  | nil =>
    intro prev skip h
    obtain rfl : skip = 0 := h
    rfl
  | cons c text ih =>
    intro prev skip h
    cases skip with
    | succ skip =>
      -- inside a match already found
      exact ih h
    | zero =>
      rw [Stays] at h
      cases hlength : p.length prev (c :: (text ++ rest)) with
      | none =>
        rw [hlength] at h
        have halone : p.length prev (c :: text) = none := hp.of_none hlength
        rw [List.cons_append, scan_kept hlength, scan_kept halone, List.cons_append]
        exact congrArg _ (ih h)
      | some n =>
        -- the match ends inside the first text, so the first text alone has it too
        rw [hlength] at h
        have hle : n ≤ (c :: text).length := by
          have hstays := le_length_of_stays h
          have hpos := p.pos hlength
          simp only [Option.getD_some, List.length_cons] at hstays ⊢
          omega
        have halone : p.length prev (c :: text) = some n := hp.of_some hlength hle
        have htake : (c :: (text ++ rest)).take n = (c :: text).take n := by
          rw [← List.cons_append, List.take_append_of_le_length hle]
        rw [List.cons_append, scan, hlength, scan, halone]
        simp only [htake, List.cons_append, List.cons.injEq, true_and]
        exact ih h

/-! ## Patterns that do not look back -/

theorem scan_blind {p : Pattern α} (hp : p.Blind) (prev : Option α) (skip : ℕ) (text : List α) :
    scan p prev skip text = scan p none skip text := by
  cases text with
  | nil => simp [scan]
  | cons c text =>
    cases skip with
    | succ skip => simp [scan]
    | zero => rw [scan, hp prev, scan]

section Blind

variable {p : Pattern α} {text rest : List α}

theorem stretches_append (hblind : p.Blind) (hlocal : p.Local) (h : Stays p none 0 text rest) :
    stretches p (text ++ rest) = stretches p text ++ stretches p rest := by
  unfold stretches
  rw [scan_append hlocal h, scan_blind hblind (before none text)]

theorem stretches_found (hblind : p.Blind) {m : List α}
    (h : p.length none (m ++ rest) = some m.length) :
    stretches p (m ++ rest) = .found m :: stretches p rest := by
  unfold stretches
  rw [scan_found h, scan_blind hblind]

theorem stretches_kept (hblind : p.Blind) {c : α} (h : p.length none (c :: rest) = none) :
    stretches p (c :: rest) = .kept c :: stretches p rest := by
  unfold stretches
  rw [scan_kept h, scan_blind hblind]

/-- A text that no match starts in is left alone. -/
theorem stretches_of_forall_none (hblind : p.Blind)
    (h : ∀ c ∈ text, ∀ rest', p.length none (c :: rest') = none) :
    stretches p (text ++ rest) = text.map .kept ++ stretches p rest := by
  induction text with
  | nil => rfl
  | cons c text ih =>
    rw [List.cons_append, stretches_kept hblind (h c (List.mem_cons_self ..) _),
      ih fun d hd => h d (List.mem_cons_of_mem c hd)]
    rfl

theorem findall_append (hblind : p.Blind) (hlocal : p.Local) (h : Stays p none 0 text rest) :
    findall p (text ++ rest) = findall p text ++ findall p rest := by
  rw [findall, stretches_append hblind hlocal h, List.filterMap_append]
  rfl

theorem sub_append (hblind : p.Blind) (hlocal : p.Local) (h : Stays p none 0 text rest)
    (repl : List α) : sub p repl (text ++ rest) = sub p repl text ++ sub p repl rest := by
  rw [sub, stretches_append hblind hlocal h, List.flatMap_append]
  rfl

theorem findall_found (hblind : p.Blind) {m : List α}
    (h : p.length none (m ++ rest) = some m.length) :
    findall p (m ++ rest) = m :: findall p rest := by
  rw [findall, stretches_found hblind h]
  rfl

theorem sub_found (hblind : p.Blind) {m : List α}
    (h : p.length none (m ++ rest) = some m.length) (repl : List α) :
    sub p repl (m ++ rest) = repl ++ sub p repl rest := by
  rw [sub, stretches_found hblind h]
  rfl

theorem findall_kept (hblind : p.Blind) {c : α} (h : p.length none (c :: rest) = none) :
    findall p (c :: rest) = findall p rest := by
  rw [findall, stretches_kept hblind h]
  rfl

theorem sub_kept (hblind : p.Blind) {c : α} (h : p.length none (c :: rest) = none)
    (repl : List α) : sub p repl (c :: rest) = c :: sub p repl rest := by
  rw [sub, stretches_kept hblind h]
  rfl

theorem findall_of_forall_none (hblind : p.Blind)
    (h : ∀ c ∈ text, ∀ rest', p.length none (c :: rest') = none) :
    findall p (text ++ rest) = findall p rest := by
  rw [findall, stretches_of_forall_none hblind h, List.filterMap_append]
  simp only [List.filterMap_map, Stretch.matched, Function.comp_def, List.filterMap_none,
    List.nil_append]
  rfl

theorem sub_of_forall_none (hblind : p.Blind)
    (h : ∀ c ∈ text, ∀ rest', p.length none (c :: rest') = none) (repl : List α) :
    sub p repl (text ++ rest) = text ++ sub p repl rest := by
  rw [sub, stretches_of_forall_none hblind h, List.flatMap_append]
  simp only [List.flatMap_map, Stretch.replaced, List.flatMap_singleton']
  rfl

end Blind

/-- What a scan finds are matches of the pattern, each with the text it was found in. -/
theorem exists_of_mem_findall {p : Pattern α} {m text : List α} (h : m ∈ findall p text) :
    ∃ prev text' n, p.length prev text' = some n ∧ m = text'.take n := by
  unfold findall stretches at h
  obtain ⟨stretch, hmem, hmatched⟩ := List.mem_filterMap.mp h
  obtain ⟨prev, skip, hscan⟩ : ∃ prev skip, stretch ∈ scan p prev skip text := ⟨none, 0, hmem⟩
  clear h hmem
  induction text generalizing prev skip with
  | nil => simp [scan] at hscan
  | cons c text ih =>
    cases skip with
    | succ skip => exact ih (some c) skip hscan
    | zero =>
      cases hlength : p.length prev (c :: text) with
      | none =>
        rw [scan_kept hlength, List.mem_cons] at hscan
        rcases hscan with rfl | hscan
        · simp [Stretch.matched] at hmatched
        · exact ih (some c) 0 hscan
      | some n =>
        rw [scan, hlength, List.mem_cons] at hscan
        rcases hscan with rfl | hscan
        · exact ⟨prev, c :: text, n, hlength, (Option.some.inj hmatched).symm⟩
        · exact ih (some c) (n - 1) hscan

end Scanning
