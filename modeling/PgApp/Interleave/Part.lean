import PgApp.Interleave.Serving

/-!
# A store inside a larger one

The statements of a larger store are statements of one of its parts, or leave that part alone.
`Part` says which: what part a state has (`get`), and what a statement with its answer is there
(`said`, `none` if nothing).  Then

* `Part.history`      the statements of the part, in the history of the whole;
* `Part.invariant`    what the statements of the part keep, every run of the whole keeps;
* `Part.rules`        views of the part are views of the whole;
* `Safe.part`         a program of the part, checked there, is checked for the whole.

The calls of the whole need not be those of the part: `op` names one for each, and no more is asked
of it.
-/

namespace Interleave

variable {S S' : Type} {R : S → Type} {R' : S' → Type} {ε ε' A A' Op Op' C C' D D' Γ : Type}

/-- a statement of the part and its answer, as a step from one of its states to another; with none
the part stays as it is -/
def Runs (exec : Nat → C → (s : S) → D → Option (R s × D)) (s : Nat) (c : C) (d d' : D) :
    Option ((st : S) × R st) → Prop
  | none => d' = d
  | some x => exec s c x.1 d = some (x.2, d')

structure Part (exec : Nat → C → (s : S) → D → Option (R s × D))
    (exec' : Nat → C' → (s : S') → D' → Option (R' s × D')) (Op Op' : Type) where
  get : D' → D
  ctx : C' → C
  op : Op' → Op
  said : (st : S') → R' st → Option ((st : S) × R st)
  runs : ∀ s c st d r d', exec' s c st d = some (r, d') →
    Runs exec s (ctx c) (get d) (get d') (said st r)

namespace Part
variable {exec : Nat → C → (s : S) → D → Option (R s × D)}
variable {exec' : Nat → C' → (s : S') → D' → Option (R' s × D')}
variable {body' : Op' → Prog S' R' ε' A'}
variable (π : Part exec exec' Op Op')

/-- what an executed statement was in the part -/
def event (e : Ev S' R' Op' C' D') : Option (Ev S R Op C D) :=
  (π.said e.stmt e.res).map fun x => ⟨e.sess, π.op e.op, π.ctx e.ctx, x.1, x.2, π.get e.pre⟩

def history (h : List (Ev S' R' Op' C' D')) : List (Ev S R Op C D) := h.filterMap π.event

variable {π}

theorem history_none {e : Ev S' R' Op' C' D'} (he : π.said e.stmt e.res = none)
    (h : List (Ev S' R' Op' C' D')) : π.history (e :: h) = π.history h := by
  unfold history
  refine List.filterMap_cons_none ?_
  unfold event
  rw [he]
  rfl

theorem history_some {e : Ev S' R' Op' C' D'} {x : (st : S) × R st}
    (he : π.said e.stmt e.res = some x) (h : List (Ev S' R' Op' C' D')) :
    π.history (e :: h)
      = ⟨e.sess, π.op e.op, π.ctx e.ctx, x.1, x.2, π.get e.pre⟩ :: π.history h := by
  unfold history
  refine List.filterMap_cons_some ?_
  unfold event
  rw [he]
  rfl

theorem always_history {P : Ev S R Op C D → List (Ev S R Op C D) → Prop}
    {h : List (Ev S' R' Op' C' D')}
    (hP : Always (fun e h => ∀ d, π.event e = some d → P d (π.history h)) h) :
    Always P (π.history h) := by
  induction h with
  | nil => exact trivial
  | cons e h ih =>
    cases hs : π.event e with
    | none =>
      have hh : π.history (e :: h) = π.history h := List.filterMap_cons_none hs
      rw [hh]
      exact ih hP.2
    | some d =>
      have hh : π.history (e :: h) = d :: π.history h := List.filterMap_cons_some hs
      rw [hh]
      exact ⟨hP.1 d hs, ih hP.2⟩

/-- **What every statement of the part keeps, every run of the whole keeps.** -/
theorem invariant_of (P : Ev S R Op C D → List (Ev S R Op C D) → Prop)
    (I : D → List (Ev S R Op C D) → Prop) {d' : D'} (h0 : I (π.get d') [])
    (hs : ∀ db h s op c st r db', I db h → P ⟨s, op, c, st, r, db⟩ h →
      exec s c st db = some (r, db') → I db' (⟨s, op, c, st, r, db⟩ :: h))
    {σ : Sys S' R' ε' A' Op' C' D'} (hr : Reach exec' body' d' σ)
    (hP : Always P (π.history σ.hist)) : I (π.get σ.db) (π.history σ.hist) := by
  refine hr.invariant (fun db h => Always P (π.history h) → I (π.get db) (π.history h))
    (fun _ => h0) ?_ hP
  intro db h s op c st r db' ih hx hal
  have hrun := π.runs s c st db r db' hx
  cases hsaid : π.said st r with
  | none =>
    rw [hsaid] at hrun
    have hget : π.get db' = π.get db := hrun
    rw [history_none (e := ⟨s, op, c, st, r, db⟩) hsaid] at hal ⊢
    rw [hget]
    exact ih hal
  | some x =>
    rw [hsaid] at hrun
    rw [history_some (e := ⟨s, op, c, st, r, db⟩) hsaid] at hal ⊢
    exact hs _ _ s _ _ x.1 x.2 _ (ih hal.2) hal.1 hrun

theorem invariant (I : D → List (Ev S R Op C D) → Prop) {d' : D'} (h0 : I (π.get d') [])
    (hs : ∀ db h s op c st r db', I db h → exec s c st db = some (r, db') →
      I db' (⟨s, op, c, st, r, db⟩ :: h))
    {σ : Sys S' R' ε' A' Op' C' D'} (hr : Reach exec' body' d' σ) :
    I (π.get σ.db) (π.history σ.hist) := by
  have hall : ∀ h : List (Ev S R Op C D), Always (fun _ _ => True) h := by
    intro h
    induction h with
    | nil => exact trivial
    | cons e h ih => exact ⟨trivial, ih⟩
  exact invariant_of (fun _ _ => True) I h0 (fun db h s op c st r db' hi _ hx =>
    hs db h s op c st r db' hi hx) hr (hall _)

/-- and it held whenever a statement of the part was executed -/
theorem before_of (P : Ev S R Op C D → List (Ev S R Op C D) → Prop)
    (I : D → List (Ev S R Op C D) → Prop) {d' : D'} (h0 : I (π.get d') [])
    (hs : ∀ db h s op c st r db', I db h → P ⟨s, op, c, st, r, db⟩ h →
      exec s c st db = some (r, db') → I db' (⟨s, op, c, st, r, db⟩ :: h))
    {σ : Sys S' R' ε' A' Op' C' D'} (hr : Reach exec' body' d' σ)
    (hP : Always P (π.history σ.hist)) : Always (fun e h => I e.pre h) (π.history σ.hist) := by
  have h := invariant_of P
    (fun db h => I db h ∧ Always (fun (e : Ev S R Op C D) h => I e.pre h) h) ⟨h0, trivial⟩
    (fun db h s op c st r db' ih hp hx => ⟨hs db h s op c st r db' ih.1 hp hx, ih.1, ih.2⟩) hr hP
  exact h.2

/-! ## views of the part -/

variable (π)

/-- a statement of the whole is allowed if what it is in the part is -/
def Allows (P : Op → S → Γ → Prop) (op : Op') (st : S') (γ : Γ) : Prop :=
  ∀ r x, π.said st r = some x → P (π.op op) x.1 γ

/-- and moves the view as that does -/
def Moves (T : Op → (s : S) → R s → Γ → Γ → Prop) (op : Op') (st : S') (r : R' st)
    (γ γ' : Γ) : Prop :=
  (∀ x, π.said st r = some x → T (π.op op) x.1 x.2 γ γ') ∧ (π.said st r = none → γ' = γ)

variable {π}

theorem rules {d : D} {G : D → List (Ev S R Op C D) → Prop}
    {view : Nat → D → List (Ev S R Op C D) → Γ} {P : Op → S → Γ → Prop}
    {T : Op → (s : S) → R s → Γ → Γ → Prop} {idle : Γ → Prop} (h : Rules exec d G view P T idle)
    {d' : D'} (hd : π.get d' = d) :
    Rules exec' d' (fun db h => G (π.get db) (π.history h))
      (fun s db h => view s (π.get db) (π.history h)) (π.Allows P) (π.Moves T) idle where
  first := by
    rw [hd]
    exact h.first
  keep := by
    intro db l s op c st r db' hg hp hx
    have hrun := π.runs s c st db r db' hx
    cases hsaid : π.said st r with
    | none =>
      rw [hsaid] at hrun
      have hget : π.get db' = π.get db := hrun
      rw [history_none (e := ⟨s, op, c, st, r, db⟩) hsaid, hget]
      exact hg
    | some x =>
      rw [hsaid] at hrun
      rw [history_some (e := ⟨s, op, c, st, r, db⟩) hsaid]
      exact h.keep _ _ s _ _ x.1 x.2 _ hg (hp r x hsaid) hrun
  own := by
    intro db l s op c st r db' hg hp hx
    have hrun := π.runs s c st db r db' hx
    cases hsaid : π.said st r with
    | none =>
      rw [hsaid] at hrun
      have hget : π.get db' = π.get db := hrun
      rw [history_none (e := ⟨s, op, c, st, r, db⟩) hsaid, hget]
      refine ⟨fun x hx' => ?_, fun _ => rfl⟩
      rw [hsaid] at hx'
      cases hx'
    | some x =>
      rw [hsaid] at hrun
      rw [history_some (e := ⟨s, op, c, st, r, db⟩) hsaid]
      refine ⟨fun y hy => ?_, fun hn => ?_⟩
      · rw [hsaid] at hy
        obtain rfl := Option.some.inj hy
        exact h.own _ _ s _ _ x.1 x.2 _ hg (hp r x hsaid) hrun
      · rw [hsaid] at hn
        cases hn
  other := by
    intro db l s op c st r db' t ht hg hp hx
    have hrun := π.runs s c st db r db' hx
    cases hsaid : π.said st r with
    | none =>
      rw [hsaid] at hrun
      have hget : π.get db' = π.get db := hrun
      rw [history_none (e := ⟨s, op, c, st, r, db⟩) hsaid, hget]
    | some x =>
      rw [hsaid] at hrun
      rw [history_some (e := ⟨s, op, c, st, r, db⟩) hsaid]
      exact h.other _ _ s _ _ x.1 x.2 _ t ht hg (hp r x hsaid) hrun
  init := by
    intro s
    rw [hd]
    exact h.init s

end Part

/-- a program checked against what a view shows of it -/
theorem Safe.comap {Γ' : Type} (f : Γ' → Γ) {P : S → Γ → Prop} {T : (s : S) → R s → Γ → Γ → Prop}
    {T' : (s : S) → R s → Γ' → Γ' → Prop} {Q : Except ε A → Γ → Prop}
    (hT : ∀ s r γ γ', T' s r γ γ' → T s r (f γ) (f γ')) {p : Prog S R ε A} {γ : Γ'}
    (h : Safe P T Q p (f γ)) : Safe (fun s γ => P s (f γ)) T' (fun r γ => Q r (f γ)) p γ := by
  induction p generalizing γ with
  | ret r => exact h
  | exec s k ih => exact ⟨h.1, fun r γ' hm => ih r (h.2 r (f γ') (hT s r γ γ' hm))⟩

/-- a stronger condition on the statements -/
theorem Rules.restrict {exec : Nat → C → (s : S) → D → Option (R s × D)} {d : D}
    {G : D → List (Ev S R Op C D) → Prop} {view : Nat → D → List (Ev S R Op C D) → Γ}
    {P P' : Op → S → Γ → Prop} {T : Op → (s : S) → R s → Γ → Γ → Prop} {idle : Γ → Prop}
    (h : Rules exec d G view P T idle) (hP : ∀ op st γ, P' op st γ → P op st γ) :
    Rules exec d G view P' T idle where
  first := h.first
  keep := fun db l s op c st r db' hg hp hx => h.keep db l s op c st r db' hg (hP _ _ _ hp) hx
  own := fun db l s op c st r db' hg hp hx => h.own db l s op c st r db' hg (hP _ _ _ hp) hx
  other := fun db l s op c st r db' t ht hg hp hx =>
    h.other db l s op c st r db' t ht hg (hP _ _ _ hp) hx
  init := h.init

section
variable {exec : Nat → C → (s : S) → D → Option (R s × D)}
variable {exec' : Nat → C' → (s : S') → D' → Option (R' s × D')} {π : Part exec exec' Op Op'}
variable {P : Op → S → Γ → Prop} {T : Op → (s : S) → R s → Γ → Γ → Prop}
variable {Q : Except ε A → Γ → Prop} {op : Op'}

theorem Safe.part {f : S → S'} {g : (s : S) → R' (f s) → R s}
    (hsaid : ∀ s r, π.said (f s) r = some ⟨s, g s r⟩) {p : Prog S R ε A} {γ : Γ}
    (h : Safe (P (π.op op)) (T (π.op op)) Q p γ) :
    Safe (π.Allows P op) (π.Moves T op) Q (p.lift f g) γ := by
  induction p generalizing γ with
  | ret r => exact h
  | exec s k ih =>
    refine ⟨fun r x hx => ?_, fun r γ' hm => ih (g s r) (h.2 (g s r) γ' (hm.1 _ (hsaid s r)))⟩
    rw [hsaid s r] at hx
    obtain rfl := Option.some.inj hx
    exact h.1

theorem Safe.apart {st : S'} (hsaid : ∀ r, π.said st r = none) {k : R' st → Prog S' R' ε A} {γ : Γ}
    (hk : ∀ r, Safe (π.Allows P op) (π.Moves T op) Q (k r) γ) :
    Safe (π.Allows P op) (π.Moves T op) Q (.exec st k) γ := by
  refine ⟨fun r x hx => ?_, fun r γ' hm => ?_⟩
  · rw [hsaid r] at hx
    cases hx
  · obtain rfl := hm.2 (hsaid r)
    exact hk r

end

end Interleave
