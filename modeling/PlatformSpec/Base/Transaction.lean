/-!
# Transactions with effects outside the database

A transaction works on its own view of the database, which the commit makes real and a raised
error discards. What it does to a store outside the database happens at once and is not undone.
Every step may fail; one that fails outside may have taken effect. Nothing here mentions a
particular system.
-/

namespace PlatformSpec.Base

universe u

/-- How a step comes out: it is done, it raises without an effect, or it raises after it has
taken effect. -/
inductive Outcome where
  | done
  | failed
  | failedAfter
  deriving DecidableEq

/-- Work inside a transaction: from the view and the outside to a result with the new view, or
to an error, and to the new outside. -/
def Transaction (σ δ ε α : Type u) : Type u := δ → σ → Except ε (α × δ) × σ

namespace Transaction

variable {σ δ ε α β : Type u}

instance : Monad (Transaction σ δ ε) where
  pure a := fun d s => (.ok (a, d), s)
  bind x f := fun d s =>
    match x d s with
    | (.ok (a, d'), s') => f a d' s'
    | (.error e, s') => (.error e, s')

/-- Raise an error. -/
def raise (e : ε) : Transaction σ δ ε α := fun _ s => (.error e, s)

/-- Raise an error unless a condition holds. -/
def require (p : Prop) [Decidable p] (e : ε) : Transaction σ δ ε PUnit :=
  if p then pure ⟨⟩ else raise e

/-- The value there is, or an error. -/
def get (e : ε) : Option α → Transaction σ δ ε α
  | none => raise e
  | some a => pure a

/-- The view. -/
def view : Transaction σ δ ε δ := fun d s => (.ok (d, d), s)

/-- A statement changes the view; when it fails the transaction is over. -/
def statement (o : Outcome) (e : ε) (f : δ → δ) : Transaction σ δ ε PUnit := fun d s =>
  match o with
  | .done => (.ok (⟨⟩, f d), s)
  | .failed => (.error e, s)
  | .failedAfter => (.error e, s)

/-- A step on the outside. -/
def outside (o : Outcome) (e : ε) (f : σ → σ) : Transaction σ δ ε PUnit := fun d s =>
  match o with
  | .done => (.ok (⟨⟩, d), f s)
  | .failed => (.error e, s)
  | .failedAfter => (.error e, f s)

/-- Take something from the outside; this cannot fail. -/
def take (f : σ → α × σ) : Transaction σ δ ε α := fun d s => (.ok ((f s).1, d), (f s).2)

/-- Run a transaction and commit it. -/
def commit (o : Outcome) (e : ε) (x : Transaction σ δ ε α) (d : δ) (s : σ) :
    Except ε α × δ × σ :=
  match x d s with
  | (.error e', s') => (.error e', d, s')
  | (.ok (a, d'), s') =>
    match o with
    | .done => (.ok a, d', s')
    | .failed => (.error e, d, s')
    | .failedAfter => (.error e, d', s')

@[simp] theorem view_bind (f : δ → Transaction σ δ ε β) (d : δ) (s : σ) :
    (view >>= f : Transaction σ δ ε β) d s = f d d s := rfl

@[simp] theorem get_none_bind (e : ε) (f : α → Transaction σ δ ε β) (d : δ) (s : σ) :
    (get e none >>= f : Transaction σ δ ε β) d s = (.error e, s) := rfl

@[simp] theorem get_some_bind (e : ε) (a : α) (f : α → Transaction σ δ ε β) (d : δ) (s : σ) :
    (get e (some a) >>= f : Transaction σ δ ε β) d s = f a d s := rfl

theorem require_bind_of {p : Prop} [Decidable p] (h : p) (e : ε)
    (f : PUnit → Transaction σ δ ε β) (d : δ) (s : σ) :
    (require p e >>= f : Transaction σ δ ε β) d s = f ⟨⟩ d s := by
  rw [require, if_pos h]
  rfl

theorem require_bind_of_not {p : Prop} [Decidable p] (h : ¬ p) (e : ε)
    (f : PUnit → Transaction σ δ ε β) (d : δ) (s : σ) :
    (require p e >>= f : Transaction σ δ ε β) d s = (.error e, s) := by
  rw [require, if_neg h]
  rfl

@[simp] theorem statement_done_bind (e : ε) (g : δ → δ) (f : PUnit → Transaction σ δ ε β)
    (d : δ) (s : σ) : (statement .done e g >>= f : Transaction σ δ ε β) d s = f ⟨⟩ (g d) s := rfl

theorem statement_bind_of_ne {o : Outcome} (h : o ≠ .done) (e : ε) (g : δ → δ)
    (f : PUnit → Transaction σ δ ε β) (d : δ) (s : σ) :
    (statement o e g >>= f : Transaction σ δ ε β) d s = (.error e, s) := by
  cases o with
  | done => exact absurd rfl h
  | failed => rfl
  | failedAfter => rfl

@[simp] theorem outside_done_bind (e : ε) (g : σ → σ) (f : PUnit → Transaction σ δ ε β)
    (d : δ) (s : σ) : (outside .done e g >>= f : Transaction σ δ ε β) d s = f ⟨⟩ d (g s) := rfl

@[simp] theorem take_bind (g : σ → α × σ) (f : α → Transaction σ δ ε β) (d : δ) (s : σ) :
    (take g >>= f : Transaction σ δ ε β) d s = f (g s).1 d (g s).2 := rfl

/-- A transaction that raises leaves the database. -/
theorem commit_of_error {o : Outcome} {e e' : ε} {x : Transaction σ δ ε α} {d : δ} {s s' : σ}
    (h : x d s = (.error e', s')) : commit o e x d s = (.error e', d, s') := by
  rw [commit, h]

end Transaction
end PlatformSpec.Base
