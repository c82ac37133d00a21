import Mathlib.Tactic

/-!
# Nested Transactions That Join

Work on a database is a block of statements, reads and transactions, that may raise and
catch what was raised. The engine knows one open transaction a connection at most. A
transaction inside another one joins it: the outer one decides.

- `Block.inside`: what a block makes of the database inside a transaction; what was done
  before an error is kept.
- `run_joined`: inside a transaction, a block does just that, and nobody sees it.
- `Block.outside`: what others see of a block, one version for each transaction that
  returns and for each bare statement.
- `run_idle`: outside, a block does just that, and leaves nothing open.
-/

namespace Transactions

variable {σ ε : Type*}

/-- A connection to a database of type `σ`. -/
structure Connection (σ : Type*) where
  committed : σ
  /-- What the open transaction has made of it, if one is open. -/
  working : Option σ := none
  /-- Is the transaction known as one of the connection's? -/
  tracked : Bool := false
  /-- The versions others have seen since, the last one at the end. -/
  published : List σ := []

/-- Work on the database; `ε` is what it may raise. -/
inductive Block (σ ε : Type*)
  | done
  | raise (error : ε)
  | execute (statement : σ → Except ε σ) (rest : Block σ ε)
  /-- What comes next depends on what is read. -/
  | read (rest : σ → Block σ ε)
  | transaction (body rest : Block σ ε)
  /-- `try`: an error of the body is caught. A statement that fails inside a transaction leaves it
  as it was; an engine that gives the transaction up is not modelled. -/
  | attempt (body : Block σ ε) (caught : ε → Block σ ε) (rest : Block σ ε)

/-! ## One after the other -/

section Sequences

variable {τ : Type*}

/-- What is done next, unless an error was raised; what was done before it is kept. -/
def andThen (x : Except ε Unit × τ) (next : τ → Except ε Unit × τ) : Except ε Unit × τ :=
  match x with
  | (.ok _, s) => next s
  | (.error e, s) => (.error e, s)

/-- What is done about an error. -/
def recover (x : Except ε Unit × τ) (caught : ε → τ → Except ε Unit × τ) : Except ε Unit × τ :=
  match x with
  | (.ok _, s) => (.ok (), s)
  | (.error e, s) => caught e s

/-- What holds of every state that is reached holds after both. -/
theorem andThen_of {P : τ → Prop} {x : Except ε Unit × τ} {next : τ → Except ε Unit × τ}
    (hx : P x.2) (hnext : ∀ s, P s → P (next s).2) : P (andThen x next).2 := by
  obtain ⟨outcome, s⟩ := x
  cases outcome with
  | ok => exact hnext s hx
  | error e => exact hx

theorem recover_of {P : τ → Prop} {x : Except ε Unit × τ} {caught : ε → τ → Except ε Unit × τ}
    (hx : P x.2) (hcaught : ∀ e s, P s → P (caught e s).2) : P (recover x caught).2 := by
  obtain ⟨outcome, s⟩ := x
  cases outcome with
  | ok => exact hx
  | error e => exact hcaught e s hx

/-- Two continuations are the same where they are the same in every state that is reached. -/
theorem andThen_congr {P : τ → Prop} {x : Except ε Unit × τ} {next next' : τ → Except ε Unit × τ}
    (hx : P x.2) (h : ∀ s, P s → next s = next' s) : andThen x next = andThen x next' := by
  obtain ⟨outcome, s⟩ := x
  cases outcome with
  | ok => exact h s hx
  | error e => rfl

theorem recover_congr {P : τ → Prop} {x : Except ε Unit × τ}
    {caught caught' : ε → τ → Except ε Unit × τ} (hx : P x.2)
    (h : ∀ e s, P s → caught e s = caught' e s) : recover x caught = recover x caught' := by
  obtain ⟨outcome, s⟩ := x
  cases outcome with
  | ok => rfl
  | error e => exact h e s hx

end Sequences

namespace Connection

variable (c : Connection σ)

/-- What the connection itself sees. -/
def visible : σ :=
  c.working.getD c.committed

def publish (v : σ) : Connection σ :=
  { c with committed := v, published := c.published ++ [v] }

def begin : Connection σ :=
  { c with working := some c.committed, tracked := true }

def commit : Connection σ :=
  { c with working := none, tracked := false }.publish c.visible

def rollback : Connection σ :=
  { c with working := none, tracked := false }

/-- A statement; outside a transaction it is committed at once. -/
def execute (statement : σ → Except ε σ) : Except ε Unit × Connection σ :=
  match statement c.visible with
  | .error e => (.error e, c)
  | .ok v => (.ok (), if c.working.isSome then { c with working := some v } else c.publish v)

/-- The connection whose open transaction has come to this. -/
def within (x : Except ε Unit × σ) : Except ε Unit × Connection σ :=
  (x.1, { c with working := some x.2 })

/-- Nothing is open. -/
structure Idle : Prop where
  closed : c.working = none
  untracked : c.tracked = false

/-- The open transaction is known. -/
structure Joined (v : σ) : Prop where
  opened : c.working = some v
  tracked : c.tracked = true

variable {c} {v w : σ}

theorem Joined.visible_eq (h : c.Joined v) : c.visible = v := by
  rw [visible, h.opened, Option.getD_some]

theorem Idle.visible_eq (h : c.Idle) : c.visible = c.committed := by
  rw [visible, h.closed, Option.getD_none]

theorem begin_joined (c : Connection σ) : c.begin.Joined c.committed :=
  ⟨rfl, rfl⟩

/-- A transaction that commits publishes what it has made, and one that raises nothing. -/
theorem Idle.commit_begin (h : c.Idle) (w : σ) :
    { c.begin with working := some w }.commit = c.publish w ∧
      { c.begin with working := some w }.rollback = c := by
  obtain ⟨committed, working, tracked, published⟩ := c
  obtain rfl : working = none := h.closed
  obtain rfl : tracked = false := h.untracked
  exact ⟨rfl, rfl⟩

end Connection

namespace Block

/-- The engine refuses to open a transaction inside another one: it raises `nested`. -/
def run (nested : ε) : Block σ ε → Connection σ → Except ε Unit × Connection σ
  | .done, c => (.ok (), c)
  | .raise e, c => (.error e, c)
  | .execute statement rest, c => andThen (c.execute statement) (rest.run nested)
  | .read rest, c => (rest c.visible).run nested c
  | .transaction body rest, c =>
    if c.tracked then andThen (body.run nested c) (rest.run nested)
    else if c.working.isSome then (.error nested, c)
    else match body.run nested c.begin with
      | (.ok _, c) => rest.run nested c.commit
      | (.error e, c) => (.error e, c.rollback)
  | .attempt body caught rest, c =>
    andThen (recover (body.run nested c) fun e => (caught e).run nested) (rest.run nested)

/-- What a block makes of the database inside a transaction. -/
def inside : Block σ ε → σ → Except ε Unit × σ
  | .done, v => (.ok (), v)
  | .raise e, v => (.error e, v)
  | .execute statement rest, v =>
    match statement v with
    | .ok w => rest.inside w
    | .error e => (.error e, v)
  | .read rest, v => (rest v).inside v
  | .transaction body rest, v => andThen (body.inside v) rest.inside
  | .attempt body caught rest, v =>
    andThen (recover (body.inside v) fun e => (caught e).inside) rest.inside

/-- What others see of a block. -/
def outside : Block σ ε → Connection σ → Except ε Unit × Connection σ
  | .done, c => (.ok (), c)
  | .raise e, c => (.error e, c)
  | .execute statement rest, c =>
    match statement c.committed with
    | .ok w => rest.outside (c.publish w)
    | .error e => (.error e, c)
  | .read rest, c => (rest c.committed).outside c
  | .transaction body rest, c =>
    match body.inside c.committed with
    | (.ok _, w) => rest.outside (c.publish w)
    -- it is rolled back
    | (.error e, _) => (.error e, c)
  | .attempt body caught rest, c =>
    andThen (recover (body.outside c) fun e => (caught e).outside) rest.outside

/-- What a block inside a transaction leaves of the database, if it raises nothing. -/
def plain (b : Block σ ε) (v : σ) : Except ε σ :=
  match b.inside v with
  | (.ok _, w) => .ok w
  | (.error e, _) => .error e

variable {nested : ε} {b body rest : Block σ ε} {c : Connection σ} {v w : σ} {e : ε}

theorem plain_execute (statement : σ → Except ε σ) :
    (Block.execute statement rest).plain v = statement v >>= rest.plain := by
  rw [plain, inside]
  cases statement v with
  | error e => rfl
  | ok w => rfl

theorem plain_transaction :
    (Block.transaction body rest).plain v = body.plain v >>= rest.plain := by
  rw [plain, inside, plain]
  obtain ⟨outcome, w⟩ := body.inside v
  cases outcome with
  | error e => rfl
  | ok => rfl

theorem outside_transaction : (Block.transaction body rest).outside c =
    match body.plain c.committed with
    | .ok w => rest.outside (c.publish w)
    | .error e => (.error e, c) := by
  rw [outside, plain]
  obtain ⟨outcome, w⟩ := body.inside c.committed
  cases outcome with
  | error e => rfl
  | ok => rfl

/-! ## Inside a transaction -/

private theorem andThen_within {x : Except ε Unit × σ} {next : σ → Except ε Unit × σ}
    {next' : Connection σ → Except ε Unit × Connection σ}
    (h : ∀ w, next' { c with working := some w } = c.within (next w)) :
    andThen (c.within x) next' = c.within (andThen x next) := by
  obtain ⟨outcome, w⟩ := x
  cases outcome with
  | ok => exact h w
  | error e => rfl

private theorem recover_within {x : Except ε Unit × σ} {caught : ε → σ → Except ε Unit × σ}
    {caught' : ε → Connection σ → Except ε Unit × Connection σ}
    (h : ∀ e w, caught' e { c with working := some w } = c.within (caught e w)) :
    recover (c.within x) caught' = c.within (recover x caught) := by
  obtain ⟨outcome, w⟩ := x
  cases outcome with
  | ok => rfl
  | error e => exact h e w

/-- **A block inside a transaction changes what that has made of the database**, and no more. -/
theorem run_joined (h : c.Joined v) : b.run nested c = c.within (b.inside v) := by
  -- the transaction stays open and known
  have hnext : ∀ w, Connection.Joined { c with working := some w } w := fun w => ⟨rfl, h.tracked⟩
  have hsame : c = { c with working := some v } := by rw [← h.opened]
  induction b generalizing c v with
  | done => rw [run, inside, Connection.within, ← hsame]
  | raise e => rw [run, inside, Connection.within, ← hsame]
  | execute statement rest ih =>
    rw [run, inside, Connection.execute, h.visible_eq]
    cases hstatement : statement v with
    | error e => rw [andThen, Connection.within, ← hsame]
    | ok w =>
      rw [h.opened]
      exact ih (hnext w) hnext rfl
  | read rest ih =>
    rw [run, inside, h.visible_eq]
    exact ih v h hnext hsame
  | transaction body rest ihbody ihrest =>
    -- it joins
    rw [run, inside, if_pos h.tracked, ihbody h hnext hsame]
    exact andThen_within fun w => ihrest (hnext w) hnext rfl
  | attempt body caught rest ihbody ihcaught ihrest =>
    rw [run, inside, ihbody h hnext hsame,
      recover_within fun e w => ihcaught e (hnext w) hnext rfl]
    exact andThen_within fun w => ihrest (hnext w) hnext rfl

/-! ## Outside -/

/-- **Outside a transaction, a block does what others see of it**, and leaves nothing open. -/
theorem run_idle (h : c.Idle) : b.run nested c = b.outside c ∧ (b.outside c).2.Idle := by
  induction b generalizing c with
  | done => exact ⟨rfl, h⟩
  | raise e => exact ⟨rfl, h⟩
  | execute statement rest ih =>
    rw [run, outside, Connection.execute, h.visible_eq, h.closed]
    cases hstatement : statement c.committed with
    | error e => exact ⟨rfl, h⟩
    | ok w =>
      have hnext : (c.publish w).Idle := ⟨h.closed, h.untracked⟩
      exact ih hnext
  | read rest ih =>
    rw [run, outside, h.visible_eq]
    exact ih c.committed h
  | transaction body rest ihbody ihrest =>
    have htracked : ¬ c.tracked = true := by
      rw [h.untracked]
      exact Bool.false_ne_true
    have hworking : ¬ c.working.isSome = true := by
      rw [h.closed]
      exact Bool.false_ne_true
    rw [run, outside, if_neg htracked, if_neg hworking, run_joined c.begin_joined]
    obtain ⟨outcome, w⟩ := body.inside c.committed
    obtain ⟨hcommit, hrollback⟩ := h.commit_begin w
    cases outcome with
    | error e => exact ⟨Prod.ext rfl hrollback, h⟩
    | ok =>
      have hnext : (c.publish w).Idle := ⟨h.closed, h.untracked⟩
      obtain ⟨hrest, hidle⟩ := ihrest hnext
      refine ⟨?_, hidle⟩
      show rest.run nested ({ c.begin with working := some w }.commit) = _
      rw [hcommit, hrest]
  | attempt body caught rest ihbody ihcaught ihrest =>
    -- whatever is caught, nothing is open then
    obtain ⟨hbody, hidle⟩ := ihbody h
    have hcaught := recover_of hidle fun e c hc => (ihcaught e (c := c) hc).2
    rw [run, outside, hbody, recover_congr hidle fun e c hc => (ihcaught e (c := c) hc).1]
    exact ⟨andThen_congr hcaught fun c hc => (ihrest (c := c) hc).1,
      andThen_of hcaught fun c hc => (ihrest (c := c) hc).2⟩

end Block

end Transactions
