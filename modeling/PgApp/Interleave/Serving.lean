import PgApp.Interleave.Account

/-!
# One call, from its start on

* `Prog.lift`      a program of one store as a program of a larger one: the statements are renamed,
                   the answers read back;
* `Serving s op`   the states of a run while session `s` serves the call `op`, which it started in a
                   given state, whatever the other sessions do meanwhile;
* `Serving.rely`   the rule for them: a view of the store and of the statements SINCE THE START,
                   that own statements move and other sessions leave alone, lets the program of the
                   call be checked once, alone (`Safe`).

`Reach.rely` asks this of all calls at once; here it is asked of one.
-/

namespace Interleave

/-! ## programs of a part -/

section
variable {S S' : Type} {R : S → Type} {R' : S' → Type} {ε α β : Type}

/-- the same program with its statements renamed -/
def Prog.lift (f : S → S') (g : (s : S) → R' (f s) → R s) : Prog S R ε α → Prog S' R' ε α
  | .ret r => .ret r
  | .exec s k => .exec (f s) fun r => (k (g s r)).lift f g

theorem Prog.Avoids.mapResult {ε' : Type} {bad : S → Prop} {f : Except ε α → Except ε' β}
    {p : Prog S R ε α} (h : p.Avoids bad) : (p.mapResult f).Avoids bad := by
  induction p with
  | ret r => exact trivial
  | exec s k ih => exact ⟨h.1, fun r => ih r (h.2 r)⟩

theorem Prog.Avoids.lift {bad : S' → Prop} (f : S → S') (g : (s : S) → R' (f s) → R s)
    {p : Prog S R ε α} (h : p.Avoids fun s => bad (f s)) : (p.lift f g).Avoids bad := by
  induction p with
  | ret r => exact trivial
  | exec s k ih => exact ⟨h.1, fun r => ih (g s r) (h.2 (g s r))⟩

theorem Safe.lift {Γ : Type} {P : S' → Γ → Prop} {T : (s : S') → R' s → Γ → Γ → Prop}
    {Q : Except ε α → Γ → Prop} (f : S → S') (g : (s : S) → R' (f s) → R s) {p : Prog S R ε α}
    {γ : Γ}
    (h : Safe (fun s γ => P (f s) γ) (fun s r γ γ' => ∃ r', g s r' = r ∧ T (f s) r' γ γ') Q p γ) :
    Safe P T Q (p.lift f g) γ := by
  induction p generalizing γ with
  | ret r => exact h
  | exec s k ih => exact ⟨h.1, fun r γ' hT => ih (g s r) (h.2 (g s r) γ' ⟨r, rfl, hT⟩)⟩

/-- a program of a part, run alone on the whole: it finds and leaves its part, and nothing else -/
theorem Prog.run_lift {D D' : Type} (exec : (s : S) → D → Option (R s × D))
    (exec' : (s : S') → D' → Option (R' s × D')) (f : S → S') (g : (s : S) → R' (f s) → R s)
    (get : D' → D) (put : D' → D → D') (hget : ∀ d x, get (put d x) = x)
    (hput : ∀ d x y, put (put d x) y = put d y) (hself : ∀ d, put d (get d) = d)
    (hx : ∀ s d, (exec' (f s) d).map (fun p => (g s p.1, p.2))
      = (exec s (get d)).map fun p => (p.1, put d p.2))
    (p : Prog S R ε α) (d : D') :
    (p.lift f g).run exec' d = (p.run exec (get d)).map fun q => (q.1, put d q.2) := by
  induction p generalizing d with
  | ret r =>
    show some (r, d) = some (r, put d (get d))
    rw [hself]
  | exec s k ih =>
    show (Prog.exec (f s) fun r => (k (g s r)).lift f g).run exec' d = _
    rw [Prog.run_exec, Prog.run_exec]
    have h := hx s d
    cases ha : exec' (f s) d with
    | none =>
      rw [ha] at h
      cases hb : exec s (get d) with
      | none => rfl
      | some b =>
        rw [hb] at h
        cases h
    | some a =>
      rw [ha] at h
      cases hb : exec s (get d) with
      | none =>
        rw [hb] at h
        cases h
      | some b =>
        rw [hb] at h
        obtain ⟨h1, h2⟩ := Prod.mk.inj (Option.some.inj h)
        simp only [Option.bind_some]
        rw [ih, h1, h2, hget]
        congr 1
        funext q
        rw [hput]

theorem Prog.Avoids.all {bad : S → Prop} (h : ∀ s, ¬ bad s) (p : Prog S R ε α) : p.Avoids bad := by
  induction p with
  | ret r => exact trivial
  | exec s k ih => exact ⟨h s, fun r => ih r⟩

end

/-! ## serving -/

section
variable {S : Type} {R : S → Type} {ε A Op C D : Type}
variable (exec : Nat → C → (s : S) → D → Option (R s × D)) (body : Op → Prog S R ε A)

/-- session `s` has taken the call `op` in the state `σ` -/
def Sys.start (σ : Sys S R ε A Op C D) (s : Nat) (op : Op) : Sys S R ε A Op C D :=
  { σ with prog := Function.update σ.prog s (some (op, body op)) }

/-- session `s` has taken the call `op` in the state `σ` and not yet handed back its result in
`τ` -/
def Serving (s : Nat) (op : Op) (σ τ : Sys S R ε A Op C D) : Prop :=
  Relation.ReflTransGen (fun a b => Step exec body a b ∧ (b.prog s).isSome) (σ.start body s op) τ

/-- play a schedule as long as session `s` has a program -/
def Sys.playServing (s : Nat) : List (Act Op C) → Sys S R ε A Op C D → Option (Sys S R ε A Op C D)
  | [], σ => some σ
  | a :: as, σ => (σ.act exec body a).bind fun τ =>
      if (τ.prog s).isSome then Sys.playServing s as τ else none

variable {exec body}

theorem Serving.of_play {s : Nat} {op : Op} {σ τ : Sys S R ε A Op C D} {as : List (Act Op C)}
    (h : (σ.start body s op).playServing exec body s as = some τ) : Serving exec body s op σ τ := by
  unfold Serving
  generalize σ.start body s op = σ₀ at h
  induction as generalizing σ₀ with
  | nil =>
    obtain rfl : σ₀ = τ := Option.some.inj h
    exact .refl
  | cons a as ih =>
    obtain ⟨σ₁, h1, h2⟩ := Option.bind_eq_some_iff.mp h
    split at h2
    · rename_i hbusy
      exact .head ⟨Sys.act_step h1, hbusy⟩ (ih σ₁ h2)
    · cases h2

theorem Always.ownEvents {P : Ev S R Op C D → List (Ev S R Op C D) → Prop} {s : Nat}
    {h : List (Ev S R Op C D)}
    (hP : Always (fun e h => e.sess = s → P e (Interleave.ownEvents s h)) h) :
    Always P (Interleave.ownEvents s h) := by
  induction h with
  | nil => exact trivial
  | cons e h ih =>
    by_cases he : e.sess = s
    · rw [ownEvents_cons_self he]
      exact ⟨hP.1 he, ih hP.2⟩
    · rw [ownEvents_cons_ne he]
      exact ih hP.2

section
variable {Γ : Type} {P : S → Γ → Prop} {T : (s : S) → R s → Γ → Γ → Prop}
variable {Q : Except ε A → Γ → Prop} {G : D → Prop} {v : D → List (Ev S R Op C D) → Γ}

/-- **A call checked alone stays safe among others, from its start to its end.**  `G` is what every
statement of every session keeps. -/
theorem Serving.rely {s : Nat} {op : Op} {σ τ : Sys S R ε A Op C D}
    (keep : ∀ db t c st r db', G db → exec t c st db = some (r, db') → G db')
    (own : ∀ db h c st r db', P st (v db h) → exec s c st db = some (r, db') →
      T st r (v db h) (v db' (⟨s, op, c, st, r, db⟩ :: h)))
    (other : ∀ db h t op' c st r db', t ≠ s → exec t c st db = some (r, db') →
      v db' (⟨t, op', c, st, r, db⟩ :: h) = v db h)
    (hG : G σ.db) (start : Safe P T Q (body op) (v σ.db []))
    (hs : Serving exec body s op σ τ) :
    ∃ h, τ.hist = h ++ σ.hist ∧
      (∃ p, τ.prog s = some (op, p) ∧ Safe P T Q p (v τ.db h)) ∧
      Always (fun e h => e.sess = s → G e.pre ∧ P e.stmt (v e.pre h) ∧
        ∃ d, exec e.sess e.ctx e.stmt e.pre = some (e.res, d)) h := by
  suffices hall : G τ.db ∧ ∃ h, τ.hist = h ++ σ.hist ∧
      (∃ p, τ.prog s = some (op, p) ∧ Safe P T Q p (v τ.db h)) ∧
      Always (fun e h => e.sess = s → G e.pre ∧ P e.stmt (v e.pre h) ∧
        ∃ d, exec e.sess e.ctx e.stmt e.pre = some (e.res, d)) h from hall.2
  induction hs with
  | refl => exact ⟨hG, [], rfl, ⟨body op, Function.update_self .., start⟩, trivial⟩
  | tail _ hst ih =>
    obtain ⟨hg, h, hh, ⟨p, hp, hsafe⟩, hal⟩ := ih
    obtain ⟨hst, hbusy⟩ := hst
    cases hst with
    | call t op' ht =>
      have hne : s ≠ t := by
        rintro rfl
        rw [hp] at ht
        cases ht
      exact ⟨hg, h, hh, ⟨p, (Function.update_of_ne hne _ _).trans hp, hsafe⟩, hal⟩
    | stmt t op' c st k r d' ht hx =>
      refine ⟨keep _ t c st r d' hg hx, _ :: h, congrArg (_ :: ·) hh, ?_, ?_, hal⟩
      · by_cases hne : s = t
        · subst hne
          rw [hp] at ht
          obtain ⟨rfl, rfl⟩ : op = op' ∧ p = .exec st k := by
            simpa only [Option.some.injEq, Prod.mk.injEq] using ht
          exact ⟨k r, Function.update_self .., hsafe.2 r _ (own _ h c st r d' hsafe.1 hx)⟩
        · refine ⟨p, (Function.update_of_ne hne _ _).trans hp, ?_⟩
          rw [other _ h t op' c st r d' (Ne.symm hne) hx]
          exact hsafe
      · intro he
        obtain rfl : t = s := he
        rw [hp] at ht
        obtain ⟨rfl, rfl⟩ : op = op' ∧ p = .exec st k := by
          simpa only [Option.some.injEq, Prod.mk.injEq] using ht
        exact ⟨hg, hsafe.1, d', hx⟩
    | ret t op' r ht =>
      have hne : s ≠ t := by
        rintro rfl
        simp only [Function.update_self, Option.isSome_none, Bool.false_eq_true] at hbusy
      exact ⟨hg, h, hh, ⟨p, (Function.update_of_ne hne _ _).trans hp, hsafe⟩, hal⟩

end

end

end Interleave
