import PgApp.Interleave.Prog
import Mathlib.Logic.Function.Basic
import Mathlib.Logic.Relation

/-!
# Any number of sessions on one store

`Sys` is a store `db` with the sessions that use it: session `s` is idle (`prog s = none`) or has
`prog s = some (op, p)`, the call it serves and what is left of its program.  One `Step`

* `call`   an idle session starts a call;
* `stmt`   a session runs the next statement of its program: one atomic step of the store;
* `ret`    a session whose program has ended hands back its result.

`hist` lists the statements executed so far, the NEWEST FIRST, each with the store it found, and
`done` the finished calls.  `Reach` is reachability: every interleaving of every set of calls.

Two rules carry the proofs about runs:

    Reach.invariant   what every statement keeps holds in every reachable state;
    Reach.rely        what a program needs to know about the store while it runs, as a VIEW of the
                      store that its own statements move (`own`) and other sessions leave alone
                      (`other`); the program is then checked once, alone (`Safe`).
-/

namespace Interleave

section
variable {S : Type} {R : S → Type} {ε A Op C D : Type}

/-- an executed statement: the session, its call, the context, the answer, and the store found -/
structure Ev (S : Type) (R : S → Type) (Op C D : Type) where
  sess : Nat
  op : Op
  ctx : C
  stmt : S
  res : R stmt
  pre : D

structure Sys (S : Type) (R : S → Type) (ε A Op C D : Type) where
  db : D
  prog : Nat → Option (Op × Prog S R ε A)
  hist : List (Ev S R Op C D)
  done : List (Nat × Op × Except ε A)

/-- nobody is connected yet -/
def Sys.init (d : D) : Sys S R ε A Op C D := ⟨d, fun _ => none, [], []⟩

variable (exec : Nat → C → (s : S) → D → Option (R s × D)) (body : Op → Prog S R ε A)

inductive Step : Sys S R ε A Op C D → Sys S R ε A Op C D → Prop
  | call (σ : Sys S R ε A Op C D) (s : Nat) (op : Op) (h : σ.prog s = none) :
      Step σ { σ with prog := Function.update σ.prog s (some (op, body op)) }
  | stmt (σ : Sys S R ε A Op C D) (s : Nat) (op : Op) (c : C) (st : S) (k : R st → Prog S R ε A)
      (r : R st) (d' : D) (h : σ.prog s = some (op, .exec st k))
      (hx : exec s c st σ.db = some (r, d')) :
      Step σ { σ with db := d', prog := Function.update σ.prog s (some (op, k r)),
                      hist := ⟨s, op, c, st, r, σ.db⟩ :: σ.hist }
  | ret (σ : Sys S R ε A Op C D) (s : Nat) (op : Op) (r : Except ε A)
      (h : σ.prog s = some (op, .ret r)) :
      Step σ { σ with prog := Function.update σ.prog s none, done := (s, op, r) :: σ.done }

/-- reachable from the store `d` with no session connected -/
def Reach (d : D) (σ : Sys S R ε A Op C D) : Prop :=
  Relation.ReflTransGen (Step exec body) (Sys.init d) σ

end

/-! ## a schedule, played -/

/-- one entry of a schedule -/
inductive Act (Op C : Type) where
  | call (s : Nat) (op : Op)
  | stmt (s : Nat) (c : C)
  | ret (s : Nat)

/-- the session of an entry -/
def Act.sess {Op C : Type} : Act Op C → Nat
  | .call s _ | .stmt s _ | .ret s => s

section
variable {S : Type} {R : S → Type} {ε A Op C D : Type}
variable (exec : Nat → C → (s : S) → D → Option (R s × D)) (body : Op → Prog S R ε A)

/-- play one entry: `none` if the session cannot make that step now -/
def Sys.act (σ : Sys S R ε A Op C D) : Act Op C → Option (Sys S R ε A Op C D)
  | .call s op =>
    match σ.prog s with
    | none => some { σ with prog := Function.update σ.prog s (some (op, body op)) }
    | some _ => none
  | .stmt s c =>
    match σ.prog s with
    | some (op, .exec st k) =>
      match exec s c st σ.db with
      | some (r, d') =>
        some { σ with db := d', prog := Function.update σ.prog s (some (op, k r)),
                      hist := ⟨s, op, c, st, r, σ.db⟩ :: σ.hist }
      | none => none
    | _ => none
  | .ret s =>
    match σ.prog s with
    | some (op, .ret r) =>
      some { σ with prog := Function.update σ.prog s none, done := (s, op, r) :: σ.done }
    | _ => none

/-- play a schedule -/
def Sys.play : List (Act Op C) → Sys S R ε A Op C D → Option (Sys S R ε A Op C D)
  | [], σ => some σ
  | a :: as, σ => (σ.act exec body a).bind (Sys.play as)

variable {exec body}

theorem Sys.act_step {σ τ : Sys S R ε A Op C D} {a : Act Op C} (h : σ.act exec body a = some τ) :
    Step exec body σ τ := by
  cases a with
  | call s op =>
    cases hp : σ.prog s with
    | some p => simp [Sys.act, hp] at h
    | none =>
      simp only [Sys.act, hp, Option.some.injEq] at h
      exact h ▸ Step.call σ s op hp
  | stmt s c =>
    cases hp : σ.prog s with
    | none => simp [Sys.act, hp] at h
    | some p =>
      obtain ⟨op, p⟩ := p
      cases p with
      | ret r => simp [Sys.act, hp] at h
      | exec st k =>
        cases hx : exec s c st σ.db with
        | none => simp [Sys.act, hp, hx] at h
        | some q =>
          simp only [Sys.act, hp, hx, Option.some.injEq] at h
          exact h ▸ Step.stmt σ s op c st k q.1 q.2 hp hx
  | ret s =>
    cases hp : σ.prog s with
    | none => simp [Sys.act, hp] at h
    | some p =>
      obtain ⟨op, p⟩ := p
      cases p with
      | exec st k => simp [Sys.act, hp] at h
      | ret r =>
        simp only [Sys.act, hp, Option.some.injEq] at h
        exact h ▸ Step.ret σ s op r hp

theorem Sys.play_steps {as : List (Act Op C)} {σ τ : Sys S R ε A Op C D}
    (h : σ.play exec body as = some τ) : Relation.ReflTransGen (Step exec body) σ τ := by
  induction as generalizing σ with
  | nil =>
    obtain rfl : σ = τ := Option.some.inj h
    exact .refl
  | cons a as ih =>
    obtain ⟨σ', h1, h2⟩ := Option.bind_eq_some_iff.mp h
    exact .head (Sys.act_step h1) (ih h2)

theorem Sys.act_other {σ τ : Sys S R ε A Op C D} {a : Act Op C} (h : σ.act exec body a = some τ)
    {s : Nat} (hs : a.sess ≠ s) : τ.prog s = σ.prog s := by
  have hupd : ∀ {t : Nat} {p : Option (Op × Prog S R ε A)}, t ≠ s →
      Function.update σ.prog t p s = σ.prog s := fun ht => Function.update_of_ne (Ne.symm ht) _ _
  cases a with
  | call t op =>
    cases hp : σ.prog t with
    | some p => simp [Sys.act, hp] at h
    | none =>
      simp only [Sys.act, hp, Option.some.injEq] at h
      rw [← h]
      exact hupd hs
  | stmt t c =>
    cases hp : σ.prog t with
    | none => simp [Sys.act, hp] at h
    | some p =>
      obtain ⟨op, p⟩ := p
      cases p with
      | ret r => simp [Sys.act, hp] at h
      | exec st k =>
        cases hx : exec t c st σ.db with
        | none => simp [Sys.act, hp, hx] at h
        | some q =>
          simp only [Sys.act, hp, hx, Option.some.injEq] at h
          rw [← h]
          exact hupd hs
  | ret t =>
    cases hp : σ.prog t with
    | none => simp [Sys.act, hp] at h
    | some p =>
      obtain ⟨op, p⟩ := p
      cases p with
      | exec st k => simp [Sys.act, hp] at h
      | ret r =>
        simp only [Sys.act, hp, Option.some.injEq] at h
        rw [← h]
        exact hupd hs

theorem Sys.play_other {as : List (Act Op C)} {σ τ : Sys S R ε A Op C D}
    (h : σ.play exec body as = some τ) {s : Nat} (hs : ∀ a ∈ as, a.sess ≠ s) :
    τ.prog s = σ.prog s := by
  induction as generalizing σ with
  | nil =>
    cases h
    rfl
  | cons a as ih =>
    obtain ⟨σ', h1, h2⟩ := Option.bind_eq_some_iff.mp h
    rw [ih h2 fun b hb => hs b (List.mem_cons_of_mem _ hb),
      Sys.act_other h1 (hs a List.mem_cons_self)]

end

/-! ## conditions on every executed statement -/

/-- `P` holds of every executed statement and the history before it -/
def Always {E : Type} (P : E → List E → Prop) : List E → Prop
  | [] => True
  | e :: h => P e h ∧ Always P h

instance Always.decidable {E : Type} {P : E → List E → Prop} [∀ e h, Decidable (P e h)] :
    (h : List E) → Decidable (Always P h)
  | [] => isTrue trivial
  | e :: h => @instDecidableAnd (P e h) (Always P h) _ (Always.decidable h)

theorem Always.mono {E : Type} {P Q : E → List E → Prop} (hPQ : ∀ e h, P e h → Q e h) :
    ∀ {h : List E}, Always P h → Always Q h
  | [], _ => trivial
  | _ :: _, ⟨h1, h2⟩ => ⟨hPQ _ _ h1, Always.mono hPQ h2⟩

theorem Always.and {E : Type} {P Q : E → List E → Prop} :
    ∀ {h : List E}, Always P h → Always Q h → Always (fun e h => P e h ∧ Q e h) h
  | [], _, _ => trivial
  | _ :: _, ⟨h1, h2⟩, ⟨h3, h4⟩ => ⟨⟨h1, h3⟩, Always.and h2 h4⟩

theorem Always.of_suffix {E : Type} {P : E → List E → Prop} (h₁ h₂ : List E)
    (h : Always P (h₁ ++ h₂)) : Always P h₂ := by
  induction h₁ with
  | nil => exact h
  | cons e h₁ ih => exact ih h.2

theorem Always.head {E : Type} {P : E → List E → Prop} {h₁ h₂ : List E} {e : E}
    (h : Always P (h₁ ++ e :: h₂)) : P e h₂ := (Always.of_suffix h₁ _ h).1

theorem Always.pairwise {E : Type} {R : E → E → Prop} :
    ∀ {h : List E}, Always (fun e h => ∀ e' ∈ h, R e e') h → h.Pairwise R
  | [], _ => .nil
  | _ :: _, ⟨h1, h2⟩ => .cons h1 (Always.pairwise h2)

theorem Always.of_mem {E : Type} {P : E → List E → Prop} {h : List E} {e : E} (hP : Always P h)
    (he : e ∈ h) : ∃ h', P e h' := by
  obtain ⟨h₁, h₂, rfl⟩ := List.append_of_mem he
  exact ⟨h₂, hP.head⟩

/-! ## what holds in every reachable state -/

section
variable {S : Type} {R : S → Type} {ε A Op C D : Type}
variable {exec : Nat → C → (s : S) → D → Option (R s × D)} {body : Op → Prog S R ε A}

/-- **What every statement keeps, every run keeps.** -/
theorem Reach.invariant (I : D → List (Ev S R Op C D) → Prop) {d : D} (h0 : I d [])
    (hs : ∀ db h s op c st r db', I db h → exec s c st db = some (r, db') →
      I db' (⟨s, op, c, st, r, db⟩ :: h))
    {σ : Sys S R ε A Op C D} (hr : Reach exec body d σ) : I σ.db σ.hist := by
  induction hr with
  | refl => exact h0
  | tail _ hst ih =>
    cases hst with
    | call s op h => exact ih
    | stmt s op c st k r d' h hx => exact hs _ _ s op c st r d' ih hx
    | ret s op r h => exact ih

/-- the same rule when the run is known to meet a condition at every statement -/
theorem Reach.invariant_of (P : Ev S R Op C D → List (Ev S R Op C D) → Prop)
    (I : D → List (Ev S R Op C D) → Prop) {d : D} (h0 : I d [])
    (hs : ∀ db h s op c st r db', I db h → P ⟨s, op, c, st, r, db⟩ h →
      exec s c st db = some (r, db') → I db' (⟨s, op, c, st, r, db⟩ :: h))
    {σ : Sys S R ε A Op C D} (hr : Reach exec body d σ) (hP : Always P σ.hist) :
    I σ.db σ.hist := by
  refine hr.invariant (fun db h => Always P h → I db h) (fun _ => h0) ?_ hP
  intro db h s op c st r db' ih hx hal
  exact hs db h s op c st r db' (ih hal.2) hal.1 hx

/-- and so it held whenever a statement was executed -/
theorem Reach.before_of (P : Ev S R Op C D → List (Ev S R Op C D) → Prop)
    (I : D → List (Ev S R Op C D) → Prop) {d : D} (h0 : I d [])
    (hs : ∀ db h s op c st r db', I db h → P ⟨s, op, c, st, r, db⟩ h →
      exec s c st db = some (r, db') → I db' (⟨s, op, c, st, r, db⟩ :: h))
    {σ : Sys S R ε A Op C D} (hr : Reach exec body d σ) (hP : Always P σ.hist) :
    Always (fun e h => I e.pre h) σ.hist := by
  have h := hr.invariant_of P
    (fun db h => I db h ∧ Always (fun (e : Ev S R Op C D) h => I e.pre h) h) ⟨h0, trivial⟩
    (fun db h s op c st r db' ih hp hx => ⟨hs db h s op c st r db' ih.1 hp hx, ih.1, ih.2⟩) hP
  exact h.2

theorem Reach.hist_suffix {d : D} {σ : Sys S R ε A Op C D} (_ : Reach exec body d σ)
    {τ : Sys S R ε A Op C D} (hst : Relation.ReflTransGen (Step exec body) σ τ) :
    ∃ h, τ.hist = h ++ σ.hist := by
  induction hst with
  | refl => exact ⟨[], rfl⟩
  | tail _ hs ih =>
    obtain ⟨h, hh⟩ := ih
    cases hs with
    | call s op _ => exact ⟨h, hh⟩
    | stmt s op c st k r d' _ hx => exact ⟨_ :: h, by rw [hh]; rfl⟩
    | ret s op r _ => exact ⟨h, hh⟩

/-- what holds of every result when it is handed back, and is never undone, holds of all results -/
theorem Reach.done_of (P : Op → Except ε A → List (Ev S R Op C D) → Prop) {d : D}
    (hret : ∀ (σ : Sys S R ε A Op C D) s op r, Reach exec body d σ →
      σ.prog s = some (op, .ret r) → P op r σ.hist)
    (hmono : ∀ op r e h, P op r h → P op r (e :: h))
    {σ : Sys S R ε A Op C D} (hr : Reach exec body d σ) :
    ∀ s op r, (s, op, r) ∈ σ.done → P op r σ.hist := by
  induction hr with
  | refl => intro s op r h; exact absurd h (by simp [Sys.init])
  | @tail τ _ hr hst ih =>
    cases hst with
    | call s op h => exact ih
    | stmt s op c st k r d' h hx => exact fun s' op' r' h' => hmono _ _ _ _ (ih s' op' r' h')
    | ret s op r h =>
      intro s' op' r' h'
      rcases List.mem_cons.mp h' with e | e
      · obtain ⟨-, rfl, rfl⟩ : s' = s ∧ op' = op ∧ r' = r := by
          simpa only [Prod.mk.injEq] using e
        exact hret τ s _ _ hr h
      · exact ih s' op' r' e

/-- what holds whenever a statement is executed holds all along the history -/
theorem Reach.always_of (P : Ev S R Op C D → List (Ev S R Op C D) → Prop) {d : D}
    (hstep : ∀ (σ : Sys S R ε A Op C D) s op c st k r d', Reach exec body d σ →
      σ.prog s = some (op, .exec st k) → exec s c st σ.db = some (r, d') →
      P ⟨s, op, c, st, r, σ.db⟩ σ.hist)
    {σ : Sys S R ε A Op C D} (hr : Reach exec body d σ) : Always P σ.hist := by
  induction hr with
  | refl => exact trivial
  | @tail τ _ hr hst ih =>
    cases hst with
    | call s op h => exact ih
    | stmt s op c st k r d' h hx => exact ⟨hstep τ s op c st k r d' hr h hx, ih⟩
    | ret s op r h => exact ih

theorem Reach.issued {d : D} {σ : Sys S R ε A Op C D} (hr : Reach exec body d σ) :
    ∀ e ∈ σ.hist, ∀ r, body e.op ≠ .ret r := by
  have h : (∀ e ∈ σ.hist, ∀ r, body e.op ≠ .ret r) ∧
      ∀ s op p, σ.prog s = some (op, p) → p = body op ∨ ∀ r, body op ≠ .ret r := by
    induction hr with
    | refl => exact ⟨fun e he => absurd he List.not_mem_nil, fun s op p hp => (by cases hp)⟩
    | tail hr hst ih =>
      obtain ⟨hhist, hprog⟩ := ih
      cases hst with
      | call s op h =>
        refine ⟨hhist, fun t op' p hp => ?_⟩
        by_cases e : t = s
        · subst e
          simp only [Function.update_self, Option.some.injEq, Prod.mk.injEq] at hp
          obtain ⟨rfl, rfl⟩ := hp
          exact .inl rfl
        · simp only [Function.update_of_ne e] at hp
          exact hprog t op' p hp
      | stmt s op c st k r d' h hx =>
        have hbody : ∀ r, body op ≠ .ret r := by
          rcases hprog s op _ h with he | he
          · intro r hr
            rw [hr] at he
            cases he
          · exact he
        refine ⟨fun e he => ?_, fun t op' p hp => ?_⟩
        · rcases List.mem_cons.mp he with rfl | he
          · exact hbody
          · exact hhist e he
        · by_cases e : t = s
          · subst e
            simp only [Function.update_self, Option.some.injEq, Prod.mk.injEq] at hp
            obtain ⟨rfl, -⟩ := hp
            exact .inr hbody
          · simp only [Function.update_of_ne e] at hp
            exact hprog t op' p hp
      | ret s op r h =>
        refine ⟨hhist, fun t op' p hp => ?_⟩
        by_cases e : t = s
        · subst e
          simp only [Function.update_self] at hp
          cases hp
        · simp only [Function.update_of_ne e] at hp
          exact hprog t op' p hp
  exact h.1

/-! ## what a session knows while it runs -/

variable {Γ : Type}

/-- the program keeps to its contract on its own: whatever answers the moves `T` of the view
allow, it issues statements only where `P` holds and ends in `Q` -/
def Safe (P : S → Γ → Prop) (T : (s : S) → R s → Γ → Γ → Prop) (Q : Except ε A → Γ → Prop) :
    Prog S R ε A → Γ → Prop
  | .ret r, γ => Q r γ
  | .exec s k, γ => P s γ ∧ ∀ r γ', T s r γ γ' → Safe P T Q (k r) γ'

section
variable {P : S → Γ → Prop} {T : (s : S) → R s → Γ → Γ → Prop}

theorem Safe.bracket {Q Q' : Except ε A → Γ → Prop} {commit rollback : S} {p : Prog S R ε A} {γ : Γ}
    (h : Safe P T Q' p γ)
    (hc : ∀ a γ, Q' (.ok a) γ → P commit γ ∧ ∀ r γ', T commit r γ γ' → Q (.ok a) γ')
    (hr : ∀ e γ, Q' (.error e) γ → P rollback γ ∧ ∀ r γ', T rollback r γ γ' → Q (.error e) γ') :
    Safe P T Q (p.bracket commit rollback) γ := by
  induction p generalizing γ with
  | ret r =>
    cases r with
    | ok a => exact hc a γ h
    | error e => exact hr e γ h
  | exec s k ih => exact ⟨h.1, fun r γ' hT => ih r (h.2 r γ' hT)⟩

theorem Safe.bind {B : Type} {M : Except ε B → Γ → Prop} {Q : Except ε A → Γ → Prop}
    {p : Prog S R ε B} {f : B → Prog S R ε A} {γ : Γ}
    (h : Safe P T M p γ) (hk : ∀ a γ, M (.ok a) γ → Safe P T Q (f a) γ)
    (he : ∀ e γ, M (.error e) γ → Q (.error e) γ) : Safe P T Q (p >>= f) γ := by
  induction p generalizing γ with
  | ret r =>
    cases r with
    | ok a => exact hk a γ h
    | error e => exact he e γ h
  | exec s k ih => exact ⟨h.1, fun r γ' hT => ih r (h.2 r γ' hT)⟩

theorem Safe.mapResult {ε' B : Type} {Q : Except ε A → Γ → Prop} {Q' : Except ε' B → Γ → Prop}
    {f : Except ε A → Except ε' B} {p : Prog S R ε A} {γ : Γ} (h : Safe P T Q p γ)
    (hf : ∀ r γ, Q r γ → Q' (f r) γ) : Safe P T Q' (p.mapResult f) γ := by
  induction p generalizing γ with
  | ret r => exact hf r γ h
  | exec s k ih => exact ⟨h.1, fun r γ' hT => ih r (h.2 r γ' hT)⟩

theorem Safe.check_bind {B : Type} {Q : Except ε A → Γ → Prop} {r : Except ε B}
    {f : B → Prog S R ε A} {γ : Γ} (hk : ∀ b, r = .ok b → Safe P T Q (f b) γ)
    (he : ∀ e, Q (.error e) γ) : Safe P T Q (Prog.check r >>= f) γ := by
  cases r with
  | ok b => exact hk b rfl
  | error e => exact he e

theorem Safe.mono {Q' Q : Except ε A → Γ → Prop} {p : Prog S R ε A} {γ : Γ} (h : Safe P T Q' p γ)
    (hQ : ∀ r γ, Q' r γ → Q r γ) : Safe P T Q p γ := by
  induction p generalizing γ with
  | ret r => exact hQ r γ h
  | exec s k ih => exact ⟨h.1, fun r γ' hT => ih r (h.2 r γ' hT)⟩

theorem Safe.mono_pre {P' : S → Γ → Prop} {Q : Except ε A → Γ → Prop} {p : Prog S R ε A} {γ : Γ}
    (h : Safe P T Q p γ) (hP : ∀ s γ, P s γ → P' s γ) : Safe P' T Q p γ := by
  induction p generalizing γ with
  | ret r => exact h
  | exec s k ih => exact ⟨hP s γ h.1, fun r γ' hT => ih r (h.2 r γ' hT)⟩

theorem Safe.and {Q Q' : Except ε A → Γ → Prop} {p : Prog S R ε A} {γ : Γ} (h : Safe P T Q p γ)
    (h' : Safe (fun _ _ => True) T Q' p γ) : Safe P T (fun r γ => Q r γ ∧ Q' r γ) p γ := by
  induction p generalizing γ with
  | ret r => exact ⟨h, h'⟩
  | exec s k ih => exact ⟨h.1, fun r γ' hT => ih r (h.2 r γ' hT) (h'.2 r γ' hT)⟩

theorem Safe.trivial (p : Prog S R ε A) (γ : Γ) :
    Safe (fun _ _ => True) T (fun _ _ => True) p γ := by
  induction p generalizing γ with
  | ret r => exact True.intro
  | exec s k ih => exact ⟨True.intro, fun r γ' _ => ih r γ'⟩

end

/-- what a run keeps, and what each session still relies on -/
structure Relies (exec : Nat → C → (s : S) → D → Option (R s × D))
    (G : D → List (Ev S R Op C D) → Prop) (view : Nat → D → List (Ev S R Op C D) → Γ)
    (P : Op → S → Γ → Prop) (T : Op → (s : S) → R s → Γ → Γ → Prop)
    (Q : Op → Except ε A → Γ → Prop) (idle : Γ → Prop) (σ : Sys S R ε A Op C D) : Prop where
  holds : G σ.db σ.hist
  resting : ∀ s, σ.prog s = none → idle (view s σ.db σ.hist)
  running : ∀ s op p, σ.prog s = some (op, p) →
    Safe (P op) (T op) (Q op) p (view s σ.db σ.hist)
  past : Always (fun e h => G e.pre h ∧ P e.op e.stmt (view e.sess e.pre h) ∧
    ∃ d, exec e.sess e.ctx e.stmt e.pre = some (e.res, d)) σ.hist

/-- how views move: an invariant `G` that is kept whenever a statement runs where `P` holds, own
statements move the session's view by `T`, statements of other sessions leave it alone -/
structure Rules (exec : Nat → C → (s : S) → D → Option (R s × D)) (d : D)
    (G : D → List (Ev S R Op C D) → Prop) (view : Nat → D → List (Ev S R Op C D) → Γ)
    (P : Op → S → Γ → Prop) (T : Op → (s : S) → R s → Γ → Γ → Prop) (idle : Γ → Prop) : Prop where
  first : G d []
  keep : ∀ db h s op c st r db', G db h → P op st (view s db h) →
    exec s c st db = some (r, db') → G db' (⟨s, op, c, st, r, db⟩ :: h)
  own : ∀ db h s op c st r db', G db h → P op st (view s db h) →
    exec s c st db = some (r, db') →
    T op st r (view s db h) (view s db' (⟨s, op, c, st, r, db⟩ :: h))
  other : ∀ db h s op c st r db' t, t ≠ s → G db h → P op st (view s db h) →
    exec s c st db = some (r, db') → view t db' (⟨s, op, c, st, r, db⟩ :: h) = view t db h
  init : ∀ s, idle (view s d [])

/-- **Programs checked alone stay safe among others.**  An idle session is at an `idle` view, from
which every call is safe, and a call that ends leaves an `idle` view behind. -/
theorem Reach.rely {G : D → List (Ev S R Op C D) → Prop}
    {view : Nat → D → List (Ev S R Op C D) → Γ} {P : Op → S → Γ → Prop}
    {T : Op → (s : S) → R s → Γ → Γ → Prop} {Q : Op → Except ε A → Γ → Prop} {idle : Γ → Prop}
    {d : D} (rules : Rules exec d G view P T idle) (fin : ∀ op r γ, Q op r γ → idle γ)
    (start : ∀ op γ, idle γ → Safe (P op) (T op) (Q op) (body op) γ)
    {σ : Sys S R ε A Op C D} (hr : Reach exec body d σ) : Relies exec G view P T Q idle σ := by
  induction hr with
  | refl => exact ⟨rules.first, fun s _ => rules.init s, fun s op p hp => (by cases hp), trivial⟩
  | tail hr hst ih =>
    obtain ⟨hg, hrest, hrun, hpast⟩ := ih
    cases hst with
    | call s op h =>
      refine ⟨hg, fun t ht => ?_, fun t op' p hp => ?_, hpast⟩
      · by_cases e : t = s
        · subst e
          simp only [Function.update_self] at ht
          cases ht
        · simp only [Function.update_of_ne e] at ht
          exact hrest t ht
      · by_cases e : t = s
        · subst e
          simp only [Function.update_self, Option.some.injEq, Prod.mk.injEq] at hp
          obtain ⟨rfl, rfl⟩ := hp
          exact start op _ (hrest t h)
        · simp only [Function.update_of_ne e] at hp
          exact hrun t op' p hp
    | stmt s op c st k r d' h hx =>
      have hsafe := hrun s op _ h
      refine ⟨rules.keep _ _ s op c st r d' hg hsafe.1 hx, fun t ht => ?_, fun t op' p hp => ?_,
        ⟨hg, hsafe.1, d', hx⟩, hpast⟩
      · by_cases e : t = s
        · subst e
          simp only [Function.update_self] at ht
          cases ht
        · simp only [Function.update_of_ne e] at ht
          rw [rules.other _ _ s op c st r d' t e hg hsafe.1 hx]
          exact hrest t ht
      · by_cases e : t = s
        · subst e
          simp only [Function.update_self, Option.some.injEq, Prod.mk.injEq] at hp
          obtain ⟨rfl, rfl⟩ := hp
          exact hsafe.2 r _ (rules.own _ _ t op c st r d' hg hsafe.1 hx)
        · simp only [Function.update_of_ne e] at hp
          rw [rules.other _ _ s op c st r d' t e hg hsafe.1 hx]
          exact hrun t op' p hp
    | ret s op r h =>
      have hQ : Q op r _ := hrun s op _ h
      refine ⟨hg, fun t ht => ?_, fun t op' p hp => ?_, hpast⟩
      · by_cases e : t = s
        · subst e
          exact fin op r _ hQ
        · simp only [Function.update_of_ne e] at ht
          exact hrest t ht
      · by_cases e : t = s
        · subst e
          simp only [Function.update_self] at hp
          cases hp
        · simp only [Function.update_of_ne e] at hp
          exact hrun t op' p hp

end

end Interleave
