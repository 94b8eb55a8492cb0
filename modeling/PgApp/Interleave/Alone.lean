import PgApp.Interleave.Serving

/-!
# A call that runs alone is a run

`Prog.run` says what a call does when nobody interferes, `Step` what sessions can do.  A session
that takes a call and runs it to its end, all in one context, is one of the runs:

* `Prog.log`         the history that the call leaves behind;
* `Sys.run_steps`    from the middle of a call to its end;
* `Sys.alone_steps`  the whole call, taken and handed back.
-/

namespace Interleave

variable {S : Type} {R : S → Type} {ε A Op C D : Type}
variable (exec : Nat → C → (s : S) → D → Option (R s × D)) (body : Op → Prog S R ε A)

/-- the statements of a program that session `s` runs alone, in front of the history `h` -/
def Prog.log (s : Nat) (op : Op) (c : C) :
    Prog S R ε A → D → List (Ev S R Op C D) → List (Ev S R Op C D)
  | .ret _, _, h => h
  | .exec st k, d, h =>
    match exec s c st d with
    | none => h
    | some (r, d') => Prog.log s op c (k r) d' (⟨s, op, c, st, r, d⟩ :: h)

variable {exec body}
variable {s : Nat} {op : Op} {c : C} {d d' : D}

theorem Prog.log_exec {st : S} {k : R st → Prog S R ε A} {r : R st}
    (hx : exec s c st d = some (r, d')) (h : List (Ev S R Op C D)) :
    (Prog.exec st k).log exec s op c d h
      = (k r).log exec s op c d' (⟨s, op, c, st, r, d⟩ :: h) := by
  rw [Prog.log, hx]

theorem Sys.run_steps {σ : Sys S R ε A Op C D} {p : Prog S R ε A} {r : Except ε A}
    (hs : σ.prog s = some (op, p)) (hrun : p.run (exec s c) σ.db = some (r, d')) :
    Relation.ReflTransGen (Step exec body) σ
      { σ with db := d', prog := Function.update σ.prog s (some (op, .ret r)),
               hist := p.log exec s op c σ.db σ.hist } := by
  induction p generalizing σ with
  | ret r' =>
    obtain ⟨rfl, rfl⟩ := Prod.mk.inj (Option.some.inj hrun)
    rw [← hs, Function.update_eq_self]
    exact .refl
  | exec st k ih =>
    rw [Prog.run_exec] at hrun
    obtain ⟨q, hx, hrest⟩ := Option.bind_eq_some_iff.mp hrun
    obtain ⟨a, d₁⟩ := q
    obtain ⟨τ, hτ⟩ : ∃ τ : Sys S R ε A Op C D, τ =
        { σ with db := d₁, prog := Function.update σ.prog s (some (op, k a)),
                 hist := ⟨s, op, c, st, a, σ.db⟩ :: σ.hist } := ⟨_, rfl⟩
    have hstep : Step exec body σ τ := hτ ▸ Step.stmt σ s op c st k a d₁ hs hx
    have hprog : τ.prog s = some (op, k a) := by
      rw [hτ]
      exact Function.update_self _ _ _
    have hgo := ih a hprog (by rw [hτ]; exact hrest)
    rw [hτ, Function.update_idem] at hgo
    rw [Prog.log_exec hx]
    exact .head (hτ ▸ hstep) hgo

/-- **What a call does alone, it does in a run.** -/
theorem Sys.alone_steps {σ : Sys S R ε A Op C D} {r : Except ε A} (hs : σ.prog s = none)
    (hrun : (body op).run (exec s c) σ.db = some (r, d')) :
    Relation.ReflTransGen (Step exec body) σ
      { σ with db := d', hist := (body op).log exec s op c σ.db σ.hist,
               done := (s, op, r) :: σ.done } := by
  have hcall : Step exec body σ (σ.start body s op) := Step.call σ s op hs
  obtain ⟨τ, hτ⟩ : ∃ τ : Sys S R ε A Op C D, τ =
      { σ with db := d', prog := Function.update σ.prog s (some (op, .ret r)),
               hist := (body op).log exec s op c σ.db σ.hist } := ⟨_, rfl⟩
  have hmid : Relation.ReflTransGen (Step exec body) (σ.start body s op) τ := by
    have hstart : (σ.start body s op).prog s = some (op, body op) := Function.update_self _ _ _
    have h : Relation.ReflTransGen (Step exec body) (σ.start body s op) _ :=
      Sys.run_steps hstart hrun
    unfold Sys.start at h ⊢
    rw [Function.update_idem] at h
    rw [hτ]
    exact h
  have hprog : τ.prog s = some (op, .ret r) := by
    rw [hτ]
    exact Function.update_self _ _ _
  have hret := (Relation.ReflTransGen.head hcall hmid).tail (Step.ret τ s op r hprog)
  have hidle : Function.update σ.prog s none = σ.prog := by
    rw [← hs, Function.update_eq_self]
  rw [hτ, Function.update_idem, hidle] at hret
  exact hret

end Interleave
