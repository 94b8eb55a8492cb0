import PgApp.Interleave.Account
import PgApp.Interleave.Part

/-!
# Calls that take effect at one statement

The statements of a run stand in one order.  Where every call does at one of its statements, all at
once, what a simpler store would do, and nothing at the others, the run is a run of that store.

* `Serial does a₀ h a`   the simpler store goes from `a₀` to `a` along the history `h`;
* `Took silent does`     one statement of a call does it, the others are silent;
* `Part.serial`          from one step of the store to runs.

The rest is about views.  `Rules.keeping` adds an invariant to the rules of a view, and
`Rules.logged` the statements of the session, each executed where the session had the view before it
and the invariant held (`LogMove`); so what a call committed can be compared with its answer.
-/

namespace Interleave

/-! ## serial runs -/

/-- what a history, newest first, makes of a state -/
inductive Serial {E A : Type} (does : E → A → A → Prop) (a₀ : A) : List E → A → Prop
  | nil : Serial does a₀ [] a₀
  | cons {e : E} {h : List E} {a a' : A} (ht : Serial does a₀ h a) (hd : does e a a') :
      Serial does a₀ (e :: h) a'

/-- one statement of a part does it, and the others are silent -/
def Took {E : Type} (silent does : E → Prop) (part : List E) : Prop :=
  ∃ a e b, part = a ++ e :: b ∧ does e ∧ ∀ d ∈ a ++ b, silent d

theorem Took.last {E : Type} {silent does : E → Prop} {e : E} {rest : List E} (he : does e)
    (hs : ∀ d ∈ rest, silent d) : Took silent does (e :: rest) := ⟨[], e, rest, rfl, he, hs⟩

section
variable {S S' : Type} {R : S → Type} {R' : S' → Type} {ε A' A Op Op' C C' D D' Γ : Type}
variable {exec : Nat → C → (s : S) → D → Option (R s × D)}
variable {exec' : Nat → C' → (s : S') → D' → Option (R' s × D')}

/-- **A store whose statements are steps of a simpler one.** -/
theorem Part.serial {π : Part exec exec' Op Op'} {body' : Op' → Prog S' R' ε A'} (abs : D → A)
    (does : Ev S R Op C D → A → A → Prop) (P : Ev S R Op C D → List (Ev S R Op C D) → Prop)
    (hs : ∀ db h s op c st r db', P ⟨s, op, c, st, r, db⟩ h → exec s c st db = some (r, db') →
      does ⟨s, op, c, st, r, db⟩ (abs db) (abs db')) {d' : D'}
    {σ : Sys S' R' ε A' Op' C' D'} (hr : Reach exec' body' d' σ)
      (hP : Always P (π.history σ.hist)) :
    Serial does (abs (π.get d')) (π.history σ.hist) (abs (π.get σ.db)) ∧
      Always (fun e h => Serial does (abs (π.get d')) h (abs e.pre)) (π.history σ.hist) := by
  have hstep : ∀ db h s op c st r db', Serial does (abs (π.get d')) h (abs db) →
      P ⟨s, op, c, st, r, db⟩ h → exec s c st db = some (r, db') →
      Serial does (abs (π.get d')) (⟨s, op, c, st, r, db⟩ :: h) (abs db') :=
    fun db h s op c st r db' ih hp hx => .cons ih (hs db h s op c st r db' hp hx)
  exact ⟨Part.invariant_of P (fun db h => Serial does (abs (π.get d')) h (abs db)) .nil hstep hr hP,
    Part.before_of P (fun db h => Serial does (abs (π.get d')) h (abs db)) .nil hstep hr hP⟩

/-- the same of the store itself -/
theorem Reach.serial {body : Op → Prog S R ε A'} (abs : D → A) (does : Ev S R Op C D → A → A → Prop)
    (P : Ev S R Op C D → List (Ev S R Op C D) → Prop)
    (hs : ∀ db h s op c st r db', P ⟨s, op, c, st, r, db⟩ h → exec s c st db = some (r, db') →
      does ⟨s, op, c, st, r, db⟩ (abs db) (abs db')) {d : D} {σ : Sys S R ε A' Op C D}
    (hr : Reach exec body d σ) (hP : Always P σ.hist) :
    Serial does (abs d) σ.hist (abs σ.db) ∧
      Always (fun e h => Serial does (abs d) h (abs e.pre)) σ.hist := by
  have hstep : ∀ db h s op c st r db', Serial does (abs d) h (abs db) →
      P ⟨s, op, c, st, r, db⟩ h → exec s c st db = some (r, db') →
      Serial does (abs d) (⟨s, op, c, st, r, db⟩ :: h) (abs db') :=
    fun db h s op c st r db' ih hp hx => .cons ih (hs db h s op c st r db' hp hx)
  exact ⟨hr.invariant_of P (fun db h => Serial does (abs d) h (abs db)) .nil hstep hP,
    hr.before_of P (fun db h => Serial does (abs d) h (abs db)) .nil hstep hP⟩

/-! ## more about a view -/

variable {d : D} {G : D → List (Ev S R Op C D) → Prop}
variable {view : Nat → D → List (Ev S R Op C D) → Γ} {P : Op → S → Γ → Prop}
variable {T : Op → (s : S) → R s → Γ → Γ → Prop} {idle : Γ → Prop}

/-- another invariant beside the one there is -/
theorem Rules.keeping (h : Rules exec d G view P T idle) (I : D → List (Ev S R Op C D) → Prop)
    (h0 : I d []) (hI : ∀ db l s op c st r db', G db l → I db l → P op st (view s db l) →
      exec s c st db = some (r, db') → I db' (⟨s, op, c, st, r, db⟩ :: l)) :
    Rules exec d (fun db l => G db l ∧ I db l) view P T idle where
  first := ⟨h.first, h0⟩
  keep := fun db l s op c st r db' hg hp hx =>
    ⟨h.keep db l s op c st r db' hg.1 hp hx, hI db l s op c st r db' hg.1 hg.2 hp hx⟩
  own := fun db l s op c st r db' hg hp hx => h.own db l s op c st r db' hg.1 hp hx
  other := fun db l s op c st r db' t ht hg hp hx => h.other db l s op c st r db' t ht hg.1 hp hx
  init := h.init

/-- the view moves, and the statement is added to the session's own; what held of the store is kept
in mind -/
def LogMove (exec : Nat → C → (s : S) → D → Option (R s × D)) (G : D → List (Ev S R Op C D) → Prop)
    (view : Nat → D → List (Ev S R Op C D) → Γ) (T : Op → (s : S) → R s → Γ → Γ → Prop) (op : Op)
    (st : S) (r : R st) (x x' : Γ × List (Ev S R Op C D)) : Prop :=
  T op st r x.1 x'.1 ∧ ∃ s c db l d', G db l ∧ exec s c st db = some (r, d') ∧ view s db l = x.1 ∧
    ownEvents s l = x.2 ∧ view s d' (⟨s, op, c, st, r, db⟩ :: l) = x'.1 ∧
      x'.2 = ⟨s, op, c, st, r, db⟩ :: x.2

theorem Rules.logged (h : Rules exec d G view P T idle) :
    Rules exec d G (fun s db l => (view s db l, ownEvents s l)) (fun op st x => P op st x.1)
      (LogMove exec G view T) (fun x => idle x.1) where
  first := h.first
  keep := fun db l s op c st r db' hg hp hx => h.keep db l s op c st r db' hg hp hx
  own := fun db l s op c st r db' hg hp hx =>
    ⟨h.own db l s op c st r db' hg hp hx, s, c, db, l, db',
    hg, hx, rfl, rfl, rfl, ownEvents_cons_self rfl⟩
  other := fun db l s op c st r db' t ht hg hp hx => Prod.ext
    (h.other db l s op c st r db' t ht hg hp hx) (ownEvents_cons_ne (Ne.symm ht))
  init := h.init

theorem Safe.check_cases {α B : Type} {P : S → Γ → Prop} {T : (s : S) → R s → Γ → Γ → Prop}
    {Q : Except ε α → Γ → Prop} {r : Except ε B} {f : B → Prog S R ε α} {γ : Γ}
    (hk : ∀ b, r = .ok b → Safe P T Q (f b) γ) (he : ∀ e, r = .error e → Q (.error e) γ) :
    Safe P T Q (Prog.check r >>= f) γ := by
  cases r with
  | ok b => exact hk b rfl
  | error e => exact he e rfl

/-- a program adds its statements to those before, and none is `bad` -/
theorem Prog.Avoids.logged {α : Type} {op : Op} {bad : S → Prop} {p : Prog S R ε α}
    (ha : p.Avoids bad)
    {x : Γ × List (Ev S R Op C D)} {l new : List (Ev S R Op C D)} (hx : x.2 = new ++ l)
    (hnew : ∀ e ∈ new, ¬ bad e.stmt) : Safe (fun _ _ => True) (LogMove exec G view T op)
      (fun _ x' => ∃ new, x'.2 = new ++ l ∧ ∀ e ∈ new, ¬ bad e.stmt) p x := by
  induction p generalizing x new with
  | ret r => exact ⟨new, hx, hnew⟩
  | exec st k ih =>
    refine ⟨trivial, fun r x' hm => ?_⟩
    obtain ⟨-, s, c, db, l₀, d', -, -, -, -, -, hl⟩ := hm
    have hx' : x'.2 = (⟨s, op, c, st, r, db⟩ :: new) ++ l := by rw [hl, hx, List.cons_append]
    refine ih r (ha.2 r) hx' fun e he => ?_
    rcases List.mem_cons.mp he with rfl | he
    · exact ha.1
    · exact hnew e he

theorem OwnSafe.after {α : Type} {op : Op} {Q : Except ε α → List (Ev S R Op C D) → Prop}
    {p : Prog S R ε α} {γ : List (Ev S R Op C D)} (h : OwnSafe op Q p γ)
      (l : List (Ev S R Op C D)) :
    OwnSafe op (fun r γ' => ∃ new, γ' = new ++ l ∧ Q r new) p (γ ++ l) := by
  induction p generalizing γ with
  | ret r => exact ⟨γ, rfl, h⟩
  | exec st k ih =>
    refine ⟨trivial, fun r γ' hm => ?_⟩
    obtain ⟨s, c, db, rfl⟩ := hm
    exact ih r (h.2 r (⟨s, op, c, st, r, db⟩ :: γ) ⟨s, c, db, rfl⟩)

end

/-! ## the same store under other calls -/

section
variable {S : Type} {R : S → Type} {ε α Op Op' C D Γ : Type}

/-- the whole store, its calls under other names -/
def Part.same (exec : Nat → C → (s : S) → D → Option (R s × D)) (op : Op' → Op) :
    Part exec exec Op Op' where
  get := id
  ctx := id
  op := op
  said := fun st r => some ⟨st, r⟩
  runs := fun _ _ _ _ _ _ h => h

theorem Safe.same {exec : Nat → C → (s : S) → D → Option (R s × D)} {f : Op' → Op}
    {P : Op → S → Γ → Prop} {T : Op → (s : S) → R s → Γ → Γ → Prop} {Q : Except ε α → Γ → Prop}
    {o : Op'} {p : Prog S R ε α} {γ : Γ} (h : Safe (P (f o)) (T (f o)) Q p γ) :
    Safe ((Part.same exec f).Allows P o) ((Part.same exec f).Moves T o) Q p γ := by
  induction p generalizing γ with
  | ret r => exact h
  | exec st k ih =>
    refine ⟨fun r x hx => ?_, fun r γ' hm => ih r (h.2 r γ' (hm.1 _ rfl))⟩
    obtain rfl := Option.some.inj hx
    exact h.1

end

end Interleave
