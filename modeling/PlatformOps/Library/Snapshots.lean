import Mathlib.Logic.Function.Basic
import Mathlib.Tactic

/-!
# Snapshots That Are Handed On

A database commits one version after another, and an open transaction reads one version
however many are committed meanwhile. A transaction may hand the version it reads to
another one for as long as it is open itself.

- `Server.reads_step`: a transaction is left alone by what the others do.
- `AllRead.step`: transactions that only take versions over from each other all read the
  same one.
-/

namespace Snapshots

variable {σ κ : Type*} [DecidableEq κ]

/-- What is committed, and the version that each open transaction reads. -/
structure Server (σ κ : Type*) where
  current : σ
  reads : κ → Option σ := fun _ => none

inductive Event (σ κ : Type*)
  /-- A transaction of somebody else commits, and this is the database from now on. -/
  | commit (new : σ)
  /-- A transaction opens, and reads what is committed. -/
  | start (k : κ)
  /-- A transaction opens, and reads what `holder` reads. -/
  | share (holder k : κ)
  | close (k : κ)

def Server.step (s : Server σ κ) : Event σ κ → Option (Server σ κ)
  | .commit new => some { s with current := new }
  | .start k => some { s with reads := Function.update s.reads k (some s.current) }
  | .share holder k =>
    -- a version can be taken over only while its holder is open
    if (s.reads holder).isSome then
      some { s with reads := Function.update s.reads k (s.reads holder) }
    else none
  | .close k => some { s with reads := Function.update s.reads k none }

/-- Every open transaction reads this version. -/
def AllRead (v : σ) (s : Server σ κ) : Prop :=
  ∀ k w, s.reads k = some w → w = v

namespace Server

variable {s s' : Server σ κ} {e : Event σ κ} {k k' holder : κ} {v : σ}

/-! ## What a step changes -/

theorem step_share : s.step (.share holder k) = some s' ↔
    (s.reads holder).isSome ∧ s' = { s with reads := Function.update s.reads k (s.reads holder) } := by
  rw [step, Option.ite_none_right_eq_some, Option.some.injEq, eq_comm (a := s')]

/-- The version is taken over, not the database as it is now. -/
theorem reads_of_share (h : s.step (.share holder k) = some s') : s'.reads k = s.reads holder := by
  obtain ⟨-, rfl⟩ := step_share.mp h
  exact Function.update_self ..

theorem reads_of_start (h : s.step (.start k) = some s') : s'.reads k = some s.current := by
  obtain rfl := Option.some.inj h
  exact Function.update_self ..

theorem reads_of_close (h : s.step (.close k) = some s') : s'.reads k = none := by
  obtain rfl := Option.some.inj h
  exact Function.update_self ..

theorem share_eq_none : s.step (.share holder k) = none ↔ s.reads holder = none := by
  simp only [step, ite_eq_right_iff, reduceCtorEq, imp_false, Bool.not_eq_true,
    Option.isSome_eq_false_iff, Option.isNone_iff_eq_none]

/-- The connection whose transaction an event opens or closes. -/
def subject : Event σ κ → Option κ
  | .commit _ => none
  | .start k | .share _ k | .close k => some k

/-- **A transaction is left alone by what the others do.** -/
theorem reads_step (h : s.step e = some s') (hother : subject e ≠ some k) :
    s'.reads k = s.reads k := by
  cases e with
  | commit new =>
    obtain rfl := Option.some.inj h
    rfl
  | share holder k' =>
    obtain ⟨-, rfl⟩ := step_share.mp h
    exact Function.update_of_ne (fun heq => hother (congrArg some heq.symm)) ..
  | start k' | close k' =>
    obtain rfl := Option.some.inj h
    exact Function.update_of_ne (fun heq => hother (congrArg some heq.symm)) ..

end Server

/-! ## One version for all -/

section AllRead

variable {s s' : Server σ κ} {e : Event σ κ} {k : κ} {v : σ}

/-- The first transaction reads what is committed. -/
theorem allRead_start (h : ∀ k, s.reads k = none) (hstep : s.step (.start k) = some s') :
    AllRead s.current s' := by
  intro k' w hw
  by_cases hk : k' = k
  · rw [hk, Server.reads_of_start hstep] at hw
    exact (Option.some.inj hw).symm
  · rw [Server.reads_step hstep (fun heq => hk (Option.some.inj heq).symm), h k'] at hw
    cases hw

/-- **Versions that are only handed on stay one version**, whatever is committed. -/
theorem AllRead.step (h : AllRead v s) (hstart : ∀ k, e ≠ .start k)
    (hstep : s.step e = some s') : AllRead v s' := by
  intro k w hw
  by_cases hk : Server.subject e = some k
  · cases e with
    | commit new => cases hk
    | start k' => exact absurd rfl (hstart k')
    | share holder k' =>
      obtain rfl := Option.some.inj hk
      rw [Server.reads_of_share hstep] at hw
      exact h holder w hw
    | close k' =>
      obtain rfl := Option.some.inj hk
      rw [Server.reads_of_close hstep] at hw
      cases hw
  · rw [Server.reads_step hstep hk] at hw
    exact h k w hw

end AllRead

end Snapshots
