import Mathlib.Data.List.Basic

/-!
# Programs that talk to a shared store one statement at a time

`Prog S R ε α` is the code of one call: it issues statements `s : S`, gets an answer in `R s`,
and ends with a value of `α` or an error of `ε`.  Nothing is said here about what a statement
does: that is the store's business (`exec`), so the same program can be

* run alone          `Prog.run exec p d`: every statement finds the store the last one left;
* watched            `Prog.observe exec obs n p`: statement `i` finds the state `obs i`;
* interleaved        `Interleave.Step` (`PgApp.Interleave.System`).

`Prog.bracket` is a transaction: the body, then `commit` if it ended well and `rollback` if it
ended with an error.  A statement may have to wait; then `exec` answers `none`.
-/

namespace Interleave

/-- the code of one call -/
inductive Prog (S : Type) (R : S → Type) (ε α : Type) where
  | ret (r : Except ε α)
  | exec (s : S) (k : R s → Prog S R ε α)

namespace Prog
variable {S : Type} {R : S → Type} {ε α β γ : Type}

def bind : Prog S R ε α → (α → Prog S R ε β) → Prog S R ε β
  | .ret (.ok a), f => f a
  | .ret (.error e), _ => .ret (.error e)
  | .exec s k, f => .exec s fun r => (k r).bind f

instance : Monad (Prog S R ε) where
  pure a := .ret (.ok a)
  bind := bind

/-- a check that needs no statement -/
def check (r : Except ε α) : Prog S R ε α := .ret r

def throw (e : ε) : Prog S R ε α := .ret (.error e)

/-- issue one statement -/
def call (s : S) : Prog S R ε (R s) := .exec s fun r => .ret (.ok r)

/-- the end of a transaction: `commit` after a good body, `rollback` after a failed one -/
def bracket (commit rollback : S) : Prog S R ε α → Prog S R ε α
  | .ret (.ok a) => .exec commit fun _ => .ret (.ok a)
  | .ret (.error e) => .exec rollback fun _ => .ret (.error e)
  | .exec s k => .exec s fun r => (k r).bracket commit rollback

/-- the same statements, another result -/
def mapResult {ε' β : Type} (f : Except ε α → Except ε' β) : Prog S R ε α → Prog S R ε' β
  | .ret r => .ret (f r)
  | .exec s k => .exec s fun r => (k r).mapResult f

theorem pure_eq (a : α) : (pure a : Prog S R ε α) = .ret (.ok a) := rfl
@[simp] theorem bind_ok (a : α) (f : α → Prog S R ε β) :
    ((.ret (.ok a) : Prog S R ε α) >>= f) = f a := rfl
@[simp] theorem bind_error (e : ε) (f : α → Prog S R ε β) :
    ((.ret (.error e) : Prog S R ε α) >>= f) = .ret (.error e) := rfl
@[simp] theorem bind_exec (s : S) (k : R s → Prog S R ε α) (f : α → Prog S R ε β) :
    ((.exec s k : Prog S R ε α) >>= f) = .exec s fun r => k r >>= f := rfl

/-! ## running alone -/

section
variable {D : Type}

/-- run a program alone: `none` if some statement has to wait -/
def run (exec : (s : S) → D → Option (R s × D)) : Prog S R ε α → D → Option (Except ε α × D)
  | .ret r, d => some (r, d)
  | .exec s k, d => (exec s d).bind fun p => (k p.1).run exec p.2

variable (exec : (s : S) → D → Option (R s × D))

@[simp] theorem run_ret (r : Except ε α) (d : D) : (.ret r : Prog S R ε α).run exec d
    = some (r, d) :=
  rfl

theorem run_exec (s : S) (k : R s → Prog S R ε α) (d : D) :
    (Prog.exec s k).run exec d = (exec s d).bind fun p => (k p.1).run exec p.2 := rfl

theorem run_exec_of {s : S} {k : R s → Prog S R ε α} {d d' : D} {r : R s}
    (h : exec s d = some (r, d')) : (Prog.exec s k).run exec d = (k r).run exec d' := by
  rw [run_exec, h]
  rfl

/-- a program that begins with `p`: run `p`, then go on from its answer -/
theorem run_bind (p : Prog S R ε α) (f : α → Prog S R ε β) (d : D) :
    (p >>= f).run exec d = (p.run exec d).bind fun q =>
      match q.1 with
      | .ok a => (f a).run exec q.2
      | .error e => some (.error e, q.2) := by
  induction p generalizing d with
  | ret r => cases r <;> rfl
  | exec s k ih =>
    rw [bind_exec, run_exec, run_exec]
    cases h : exec s d with
    | none => rfl
    | some q =>
      simp only [Option.bind_some]
      exact ih q.1 q.2

theorem run_bind_ok {p : Prog S R ε α} {f : α → Prog S R ε β} {d d' : D} {a : α}
    (h : p.run exec d = some (.ok a, d')) : (p >>= f).run exec d = (f a).run exec d' := by
  rw [run_bind, h]
  rfl

theorem run_bind_error {p : Prog S R ε α} {f : α → Prog S R ε β} {d d' : D} {e : ε}
    (h : p.run exec d = some (.error e, d')) :
    (p >>= f).run exec d = some (.error e, d') := by
  rw [run_bind, h]
  rfl

theorem run_mapResult {ε' : Type} (f : Except ε α → Except ε' β) (p : Prog S R ε α) (d : D) :
    (p.mapResult f).run exec d = (p.run exec d).map fun q => (f q.1, q.2) := by
  induction p generalizing d with
  | ret r => rfl
  | exec s k ih =>
    show (Prog.exec s fun r => (k r).mapResult f).run exec d = _
    rw [run_exec, run_exec]
    cases h : exec s d with
    | none => rfl
    | some q =>
      simp only [Option.bind_some]
      exact ih q.1 q.2

theorem run_bracket (commit rollback : S) (p : Prog S R ε α) (d : D) :
    (p.bracket commit rollback).run exec d = (p.run exec d).bind fun q =>
      match q.1 with
      | .ok a => (exec commit q.2).bind fun c => some (.ok a, c.2)
      | .error e => (exec rollback q.2).bind fun c => some (.error e, c.2) := by
  induction p generalizing d with
  | ret r => cases r <;> rfl
  | exec s k ih =>
    show ((Prog.exec s fun r => (k r).bracket commit rollback).run exec d) = _
    rw [run_exec, run_exec]
    cases h : exec s d with
    | none => rfl
    | some q =>
      simp only [Option.bind_some]
      exact ih q.1 q.2

/-! ## running against a sequence of states -/

/-- run a program whose `i`-th statement finds the state `obs i` (what it writes is not kept) -/
def observe (exec : D → (s : S) → Option (R s)) (obs : Nat → D) :
    Nat → Prog S R ε α → Option (Except ε α)
  | _, .ret r => some r
  | n, .exec s k => (exec (obs n) s).bind fun r => (k r).observe exec obs (n + 1)

end

end Prog
end Interleave
