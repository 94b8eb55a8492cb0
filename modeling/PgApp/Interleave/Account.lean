import PgApp.Interleave.System
import PgApp.Interleave.Slots

/-!
# What calls hand back and what their statements did

Ways to go from the results in `done` to the statements in `hist`:

* `Reach.ownEvents`   the statements of ONE session as its view: a program that is checked alone
                      to end in `Q` of the statements it issued has issued them;
* `Reach.logged`      all results of one session, each with its part of what the session has logged
                      (`Reach.calls`: of the statements it has executed);
* `FailsWithout`      what a program that failed has not done: a transaction that fails does not
                      commit (`OwnSafe.bracket`);
* `Reach.continues`   which statements belong to one call;
* `Reach.credit`      counting: if every call is paid for by its own statements (`earn` is what a
                      statement earns, `cost` what a result spends), then so is the whole run.
-/

namespace Interleave

section
variable {S : Type} {R : S → Type} {ε A Op C D : Type}
variable {exec : Nat → C → (s : S) → D → Option (R s × D)} {body : Op → Prog S R ε A}

/-- the statements session `s` has executed -/
def ownEvents (s : Nat) (h : List (Ev S R Op C D)) : List (Ev S R Op C D) := h.filter (·.sess == s)

theorem ownEvents_cons_self {s : Nat} {e : Ev S R Op C D} {h : List (Ev S R Op C D)}
    (he : e.sess = s) : ownEvents s (e :: h) = e :: ownEvents s h := by
  unfold ownEvents
  rw [List.filter_cons_of_pos (by simpa using he)]

theorem ownEvents_cons_ne {s : Nat} {e : Ev S R Op C D} {h : List (Ev S R Op C D)}
    (he : e.sess ≠ s) : ownEvents s (e :: h) = ownEvents s h := by
  unfold ownEvents
  rw [List.filter_cons_of_neg (by simpa using he)]

theorem ownEvents_append (s : Nat) (a b : List (Ev S R Op C D)) :
    ownEvents s (a ++ b) = ownEvents s a ++ ownEvents s b := List.filter_append ..

theorem ownEvents_split {s : Nat} {h a b : List (Ev S R Op C D)} {e : Ev S R Op C D}
    (hs : ownEvents s h = a ++ e :: b) :
    ∃ h₁ h₂, h = h₁ ++ e :: h₂ ∧ ownEvents s h₁ = a ∧ ownEvents s h₂ = b ∧ e.sess = s := by
  obtain ⟨l₁, l₂, rfl, h1, h2⟩ := List.filter_eq_append_iff.mp hs
  obtain ⟨m₁, m₂, rfl, h3, h4, h5⟩ := List.filter_eq_cons_iff.mp h2
  refine ⟨l₁ ++ m₁, m₂, by simp, ?_, h5, by simpa using h4⟩
  rw [ownEvents_append]
  have h6 : ownEvents s m₁ = [] := List.filter_eq_nil_iff.mpr h3
  rw [h6, List.append_nil]
  exact h1

/-- the statements, each with those before it -/
def withPast {E : Type} : List E → List (E × List E)
  | [] => []
  | e :: h => (e, h) :: withPast h

theorem Always.withPast {E : Type} {P : E → List E → Prop} {h : List E} (hP : Always P h)
    {m : E × List E} (hm : m ∈ withPast h) : P m.1 m.2 := by
  induction h with
  | nil => cases hm
  | cons e h ih =>
    rcases List.mem_cons.mp hm with rfl | hm
    · exact hP.1
    · exact ih hP.2 hm

theorem map_withPast_own (s : Nat) (h : List (Ev S R Op C D)) :
    ((withPast h).filter (·.1.sess == s)).map (·.1) = ownEvents s h := by
  induction h with
  | nil => rfl
  | cons e h ih =>
    show List.map _ (List.filter _ ((e, h) :: withPast h)) = List.filter _ (e :: h)
    rw [List.filter_cons, List.filter_cons]
    cases hs : e.sess == s with
    | true => exact congrArg (e :: ·) ih
    | false => exact ih

theorem withPast_own {s : Nat} {h h₂ : List (Ev S R Op C D)} {e : Ev S R Op C D}
    {a b : List (Ev S R Op C D × List (Ev S R Op C D))}
    (hs : (withPast h).filter (·.1.sess == s) = a ++ (e, h₂) :: b) :
    (∃ h₁, h = h₁ ++ e :: h₂) ∧ e.sess = s ∧ ownEvents s h₂ = b.map (·.1) := by
  induction h generalizing a with
  | nil => cases a <;> cases hs
  | cons d h ih =>
    have hs' : List.filter (·.1.sess == s) ((d, h) :: withPast h) = a ++ (e, h₂) :: b := hs
    rw [List.filter_cons] at hs'
    cases hd : d.sess == s with
    | false =>
      simp only [hd] at hs'
      obtain ⟨⟨h₁, rfl⟩, h2, h3⟩ := ih hs'
      exact ⟨⟨d :: h₁, rfl⟩, h2, h3⟩
    | true =>
      simp only [hd, if_true] at hs'
      cases a with
      | nil =>
        obtain ⟨h1, rfl⟩ := List.cons.inj hs'
        cases h1
        exact ⟨⟨[], rfl⟩, by simpa using hd, (map_withPast_own s _).symm⟩
      | cons m a =>
        obtain ⟨⟨h₁, rfl⟩, h2, h3⟩ := ih (List.cons.inj hs').2
        exact ⟨⟨d :: h₁, rfl⟩, h2, h3⟩

/-- a statement of the call `op` is added to the session's own -/
def OwnMove (op : Op) (st : S) (r : R st) (γ γ' : List (Ev S R Op C D)) : Prop :=
  ∃ s c db, γ' = ⟨s, op, c, st, r, db⟩ :: γ

/-- a program watched through the statements it issues -/
abbrev OwnSafe {B : Type} (op : Op) (Q : Except ε B → List (Ev S R Op C D) → Prop)
    (p : Prog S R ε B) (γ : List (Ev S R Op C D)) : Prop :=
  Safe (fun _ _ => True) (OwnMove op) Q p γ

theorem ownEvents_rules (exec : Nat → C → (s : S) → D → Option (R s × D)) (d : D)
    (P : Op → S → List (Ev S R Op C D) → Prop) :
    Rules exec d (fun _ _ => True)
      (fun s _ h => ownEvents s h : Nat → D → List (Ev S R Op C D) → List (Ev S R Op C D))
      P OwnMove (fun _ => True) where
  first := trivial
  keep := fun _ _ _ _ _ _ _ _ _ _ _ => trivial
  own := fun db _ s _ c _ _ _ _ _ _ => ⟨s, c, db, ownEvents_cons_self rfl⟩
  other := fun _ _ _ _ _ _ _ _ _ ht _ _ _ => ownEvents_cons_ne (Ne.symm ht)
  init := fun _ => trivial

/-- what a call issues, checked alone, it issues among others -/
theorem Reach.ownEvents (Q : Op → Except ε A → List (Ev S R Op C D) → Prop)
    (start : ∀ op γ, OwnSafe op (Q op) (body op) γ) {d : D}
    {σ : Sys S R ε A Op C D} (hr : Reach exec body d σ) {s : Nat} {op : Op} {r : Except ε A}
    (hp : σ.prog s = some (op, .ret r)) : Q op r (Interleave.ownEvents s σ.hist) :=
  (hr.rely (ownEvents_rules exec d fun _ _ _ => True) (fun _ _ _ _ => trivial)
    (fun op γ _ => start op γ)).running s op _ hp

theorem OwnSafe.extends {B : Type} (op : Op) (p : Prog S R ε B) (γ : List (Ev S R Op C D)) :
    OwnSafe op (fun _ γ' => ∃ new, γ' = new ++ γ) p γ := by
  suffices h : ∀ γ', (∃ new, γ' = new ++ γ) →
    OwnSafe op (fun _ γ' => ∃ new, γ' = new ++ γ) p γ' from
    h γ ⟨[], rfl⟩
  induction p with
  | ret r => exact fun γ' h => h
  | exec s k ih =>
    intro γ' hex
    obtain ⟨new, rfl⟩ := hex
    refine ⟨trivial, fun r γ'' hm => ih r γ'' ?_⟩
    obtain ⟨s, c, db, rfl⟩ := hm
    exact ⟨_ :: new, rfl⟩

/-! ## programs that issue no statement of a kind -/

/-- the program issues no statement with `bad` -/
def Prog.Avoids {B : Type} (bad : S → Prop) : Prog S R ε B → Prop
  | .ret _ => True
  | .exec s k => ¬ bad s ∧ ∀ r, (k r).Avoids bad

theorem Prog.Avoids.bind {B E : Type} {bad : S → Prop} {p : Prog S R ε B} {f : B → Prog S R ε E}
    (h : p.Avoids bad) (hf : ∀ b, (f b).Avoids bad) : (p >>= f).Avoids bad := by
  induction p with
  | ret r =>
    cases r with
    | ok b => exact hf b
    | error e => exact trivial
  | exec s k ih => exact ⟨h.1, fun r => ih r (h.2 r)⟩

theorem Prog.Avoids.of_bind {B E : Type} {bad : S → Prop} {p : Prog S R ε B} {f : B → Prog S R ε E}
    (h : (p >>= f).Avoids bad) : p.Avoids bad := by
  induction p with
  | ret r => exact trivial
  | exec s k ih => exact ⟨h.1, fun r => ih r (h.2 r)⟩

theorem Prog.Avoids.mono {B : Type} {bad bad' : S → Prop} {p : Prog S R ε B} (h : p.Avoids bad)
    (hb : ∀ s, bad' s → bad s) : p.Avoids bad' := by
  induction p with
  | ret r => exact trivial
  | exec s k ih => exact ⟨fun hs => h.1 (hb s hs), fun r => ih r (h.2 r)⟩

theorem Prog.Avoids.check {B E : Type} {bad : S → Prop} {r : Except ε B} {f : B → Prog S R ε E}
    (hf : ∀ b, (f b).Avoids bad) : (Prog.check r >>= f).Avoids bad :=
  Prog.Avoids.bind trivial hf

theorem Prog.Avoids.bracket {B : Type} {bad : S → Prop} {commit rollback : S} (hc : ¬ bad commit)
    (hr : ¬ bad rollback) {p : Prog S R ε B} (h : p.Avoids bad) :
    (p.bracket commit rollback).Avoids bad := by
  induction p with
  | ret r =>
    cases r with
    | ok b => exact ⟨hc, fun _ => trivial⟩
    | error e => exact ⟨hr, fun _ => trivial⟩
  | exec s k ih => exact ⟨h.1, fun r => ih r (h.2 r)⟩

theorem Reach.avoids {bad : S → Prop} (h : ∀ op, (body op).Avoids bad) {d : D}
    {σ : Sys S R ε A Op C D} (hr : Reach exec body d σ) :
    (∀ s op p, σ.prog s = some (op, p) → p.Avoids bad) ∧
      Always (fun (e : Ev S R Op C D) _ => ¬ bad e.stmt) σ.hist := by
  induction hr with
  | refl => exact ⟨fun s op p hp => (by cases hp), trivial⟩
  | tail _ hst ih =>
    obtain ⟨hrun, hpast⟩ := ih
    have hset : ∀ (prog : Nat → Option (Op × Prog S R ε A)) (s : Nat)
      (x : Option (Op × Prog S R ε A)),
        (∀ t op p, prog t = some (op, p) → p.Avoids bad) →
          (∀ op p, x = some (op, p) → p.Avoids bad) →
        ∀ t op p, Function.update prog s x t = some (op, p) → p.Avoids bad := by
      intro prog s x hprog hx t op p hp
      by_cases e : t = s
      · subst e
        rw [Function.update_self] at hp
        exact hx op p hp
      · rw [Function.update_of_ne e] at hp
        exact hprog t op p hp
    cases hst with
    | call s op _ =>
      refine ⟨hset _ s _ hrun fun op' p hp => ?_, hpast⟩
      obtain ⟨rfl, rfl⟩ := Prod.mk.inj (Option.some.inj hp)
      exact h op
    | stmt s op c st k r d' hs _ =>
      have hbody := hrun s op _ hs
      refine ⟨hset _ s _ hrun fun op' p hp => ?_, hbody.1, hpast⟩
      obtain ⟨rfl, rfl⟩ := Prod.mk.inj (Option.some.inj hp)
      exact hbody.2 r
    | ret s op r _ => exact ⟨hset _ s _ hrun fun op' p hp => (by cases hp), hpast⟩

/-- a program whose statements all keep `I` keeps it -/
theorem Prog.Avoids.safe {B Γ : Type} {bad : S → Prop} {P : S → Γ → Prop}
    {T : (s : S) → R s → Γ → Γ → Prop} {I : Γ → Prop}
    (hI : ∀ st γ, ¬ bad st → I γ → P st γ ∧ ∀ r γ', T st r γ γ' → I γ') {p : Prog S R ε B} {γ : Γ}
    (h : p.Avoids bad) (hγ : I γ) : Safe P T (fun _ γ' => I γ') p γ := by
  induction p generalizing γ with
  | ret r => exact hγ
  | exec st k ih =>
    obtain ⟨hP, hT⟩ := hI st γ h.1 hγ
    exact ⟨hP, fun r γ' hm => ih r (h.2 r) (hT r γ' hm)⟩

/-- a program that ends with an error has issued no statement with `bad` since `γ` -/
def FailsWithout (bad : S → Prop) (γ : List (Ev S R Op C D)) {B : Type} (r : Except ε B)
    (γ' : List (Ev S R Op C D)) : Prop :=
  ∃ new, γ' = new ++ γ ∧ ((∃ e, r = .error e) → ∀ d ∈ new, ¬ bad d.stmt)

theorem OwnSafe.avoids {B : Type} {bad : S → Prop} (op : Op) {p : Prog S R ε B} (h : p.Avoids bad)
    {γ₀ γ new : List (Ev S R Op C D)} (hγ : γ = new ++ γ₀) (hnew : ∀ d ∈ new, ¬ bad d.stmt) :
    OwnSafe op (fun _ γ' => ∃ new, γ' = new ++ γ₀ ∧ ∀ d ∈ new, ¬ bad d.stmt) p γ := by
  induction p generalizing γ new with
  | ret r => exact ⟨new, hγ, hnew⟩
  | exec st k ih =>
    refine ⟨trivial, fun r γ' hm => ?_⟩
    obtain ⟨s, c, db, rfl⟩ := hm
    subst hγ
    refine ih r (h.2 r) (List.cons_append ..).symm fun d hd => ?_
    rcases List.mem_cons.mp hd with rfl | hd
    · exact h.1
    · exact hnew d hd

theorem OwnSafe.failsWithout {B : Type} {bad : S → Prop} (op : Op) {p : Prog S R ε B}
    (h : p.Avoids bad) (γ : List (Ev S R Op C D)) : OwnSafe op (FailsWithout bad γ) p γ :=
  (OwnSafe.avoids op h rfl fun _ hd => absurd hd List.not_mem_nil).mono fun _ _ hr => by
    obtain ⟨new, h1, h2⟩ := hr
    exact ⟨new, h1, fun _ => h2⟩

/-- a transaction that fails does not commit -/
theorem OwnSafe.bracket {B : Type} {commit rollback : S} (hne : rollback ≠ commit) (op : Op)
    {p : Prog S R ε B} (h : p.Avoids (· = commit)) {γ₀ γ new : List (Ev S R Op C D)}
    (hγ : γ = new ++ γ₀) (hnew : ∀ d ∈ new, d.stmt ≠ commit) :
    OwnSafe op (FailsWithout (· = commit) γ₀) (p.bracket commit rollback) γ := by
  refine Safe.bracket (OwnSafe.avoids op h hγ hnew) ?_ ?_
  · intro a γ₁ hq
    obtain ⟨new, rfl, -⟩ := hq
    refine ⟨trivial, fun r γ' hm => ?_⟩
    obtain ⟨s, c, db, rfl⟩ := hm
    refine ⟨_ :: new, rfl, fun he => ?_⟩
    obtain ⟨e, he⟩ := he
    cases he
  · intro e γ₁ hq
    obtain ⟨new, rfl, hnew⟩ := hq
    refine ⟨trivial, fun r γ' hm => ?_⟩
    obtain ⟨s, c, db, rfl⟩ := hm
    refine ⟨_ :: new, rfl, fun _ d hd => ?_⟩
    rcases List.mem_cons.mp hd with rfl | hd
    · exact hne
    · exact hnew d hd

/-- the statement is the first of its call, or the session's last one was of the same call -/
def Continues (body : Op → Prog S R ε A) (op : Op) (st : S) (γ : List (Ev S R Op C D)) : Prop :=
  (∃ k, body op = .exec st k) ∨ ∃ e rest, γ = e :: rest ∧ e.op = op

theorem forall₂_parts {α β : Type} {Q R : α → List β → Prop} {whole : List β}
    (h : ∀ x part a b, Q x part → whole = a ++ part ++ b → R x part) {xs : List α}
    {parts : List (List β)} (hall : List.Forall₂ Q xs parts) :
    ∀ a, whole = a ++ parts.flatten → List.Forall₂ R xs parts := by
  induction hall with
  | nil =>
    intro a _
    exact .nil
  | @cons x part xs parts hq _ ih =>
    intro a hw
    have hw' : whole = (a ++ part) ++ parts.flatten := by
      rw [hw, List.flatten_cons, List.append_assoc]
    exact .cons (h x part a parts.flatten hq hw') (ih (a ++ part) hw')

theorem OwnSafe.continues (op : Op) (p : Prog S R ε A) {γ : List (Ev S R Op C D)}
    (h : ∃ e rest, γ = e :: rest ∧ e.op = op) :
    Safe (Continues body op) (OwnMove op) (fun _ _ => True) p γ := by
  induction p generalizing γ with
  | ret r => exact trivial
  | exec st k ih =>
    refine ⟨.inr h, fun r γ' hm => ih r ?_⟩
    obtain ⟨s, c, db, rfl⟩ := hm
    exact ⟨_, _, rfl, rfl⟩

theorem Reach.continues {d : D} {σ : Sys S R ε A Op C D} (hr : Reach exec body d σ) :
    Always (fun e h => Continues body e.op e.stmt (Interleave.ownEvents e.sess h)) σ.hist := by
  have start : ∀ op (γ : List (Ev S R Op C D)),
      Safe (Continues body op) (OwnMove op) (fun _ _ => True) (body op) γ := by
    intro op γ
    cases hb : body op with
    | ret r => exact trivial
    | exec st k =>
      refine ⟨.inl ⟨k, hb⟩, fun r γ' hm => ?_⟩
      obtain ⟨s, c, db, rfl⟩ := hm
      exact OwnSafe.continues op (k r) ⟨_, _, rfl, rfl⟩
  have h := hr.rely (ownEvents_rules exec d (Continues body)) (fun _ _ _ _ => trivial)
    (fun op γ _ => start op γ)
  exact h.past.mono fun e _ he => he.2.1

section
variable {Γ E : Type} {G : D → List (Ev S R Op C D) → Prop}
variable {view : Nat → D → List (Ev S R Op C D) → Γ} {P : Op → S → Γ → Prop}
variable {T : Op → (s : S) → R s → Γ → Γ → Prop} {idle : Γ → Prop} {d : D}

/-- **What a session has logged is what its calls have logged, one call after the other.**  `log`
reads a list off the view that only grows.  If every call, checked alone, ends with `N` of what it
has added, then what a session has logged since it was idle falls into one part for each result
since then, in the order of the results, and a part for the call that is running. -/
theorem Reach.logged_since (rules : Rules exec d G view P T idle) (log : Γ → List E)
    (grows : ∀ op st r γ γ', T op st r γ γ' → ∃ new, log γ' = new ++ log γ)
    (N : Op → Except ε A → List E → Prop)
    (start : ∀ op γ, idle γ → Safe (P op) (T op)
      (fun r γ' => idle γ' ∧ ∃ new, log γ' = new ++ log γ ∧ N op r new) (body op) γ)
    {σ₀ σ : Sys S R ε A Op C D} (hr₀ : Reach exec body d σ₀) (s : Nat) (h0 : σ₀.prog s = none)
    (hst : Relation.ReflTransGen (Step exec body) σ₀ σ) :
    ∃ run parts dones, log (view s σ.db σ.hist) = run ++ parts.flatten ++
      log (view s σ₀.db σ₀.hist) ∧
      σ.done = dones ++ σ₀.done ∧
      List.Forall₂ (fun x part => N x.2.1 x.2.2 part) (dones.filter (·.1 == s)) parts ∧
      (σ.prog s = none → run = []) := by
  generalize hbase : log (view s σ₀.db σ₀.hist) = base
  suffices h : ∃ run parts dones, log (view s σ.db σ.hist) = run ++ (parts.flatten ++ base) ∧
      σ.done = dones ++ σ₀.done ∧
      List.Forall₂ (fun x part => N x.2.1 x.2.2 part) (dones.filter (·.1 == s)) parts ∧
      (σ.prog s = none → run = []) ∧ (∀ op p, σ.prog s = some (op, p) →
        Safe (P op) (T op)
          (fun r γ' => idle γ' ∧ ∃ new, log γ' = new ++ (parts.flatten ++ base) ∧ N op r new) p
          (view s σ.db σ.hist)) by
    obtain ⟨run, parts, dones, h1, h2, h3, h4, -⟩ := h
    exact ⟨run, parts, dones, by rw [h1, List.append_assoc], h2, h3, h4⟩
  induction hst with
  | refl =>
    refine ⟨[], [], [], hbase, rfl, .nil, fun _ => rfl, fun op p hp => ?_⟩
    rw [h0] at hp
    cases hp
  | @tail τ _ hst' hst ih =>
    obtain ⟨run, parts, dones, heq, hdone, hall, hidle, hrun⟩ := ih
    have hr : Reach exec body d τ := hr₀.trans hst'
    have hrel := Reach.rely rules (fun _ _ _ h => h)
      (fun op γ hγ => (start op γ hγ).mono fun _ _ h => h.1) hr
    cases hst with
    | call t op h =>
      by_cases e : s = t
      · subst e
        obtain rfl := hidle h
        refine ⟨[], parts, dones, heq, hdone, hall, fun _ => rfl, fun op' p hp => ?_⟩
        simp only [Function.update_self, Option.some.injEq, Prod.mk.injEq] at hp
        obtain ⟨rfl, rfl⟩ := hp
        have hs := start op _ (hrel.resting s h)
        rw [heq] at hs
        exact hs
      · refine ⟨run, parts, dones, heq, hdone, hall, ?_, ?_⟩
        · simp only [Function.update_of_ne e]
          exact hidle
        · simp only [Function.update_of_ne e]
          exact hrun
    | stmt t op c st k r d' h hx =>
      have hP := (hrel.running t op _ h).1
      by_cases e : s = t
      · subst e
        have hT := rules.own _ _ s op c st r d' hrel.holds hP hx
        obtain ⟨new, hnew⟩ := grows op st r _ _ hT
        refine ⟨new ++ run, parts, dones, ?_, hdone, hall, ?_, fun op' p hp => ?_⟩
        · show log (view s d' (⟨s, op, c, st, r, τ.db⟩ :: τ.hist)) = _
          rw [hnew, heq, List.append_assoc]
        · simp only [Function.update_self]
          exact fun h => (by cases h)
        · simp only [Function.update_self, Option.some.injEq, Prod.mk.injEq] at hp
          obtain ⟨rfl, rfl⟩ := hp
          exact (hrun op _ h).2 r _ hT
      · have hv := rules.other _ _ t op c st r d' s e hrel.holds hP hx
        refine ⟨run, parts, dones, (congrArg log hv).trans heq, hdone, hall, ?_, ?_⟩
        · simp only [Function.update_of_ne e]
          exact hidle
        · simp only [Function.update_of_ne e, hv]
          exact hrun
    | ret t op r h =>
      by_cases e : s = t
      · subst e
        obtain ⟨-, new, hnew, hN⟩ : idle _ ∧ ∃ new, log (view s τ.db τ.hist)
          = new ++ (parts.flatten ++ base) ∧ N op r new := hrun op _ h
        refine ⟨[], new :: parts, (s, op, r) :: dones, ?_, ?_, ?_, fun _ => rfl, fun op' p hp => ?_⟩
        · show log (view s τ.db τ.hist) = _
          rw [hnew, List.flatten_cons, List.append_assoc]
          rfl
        · show (s, op, r) :: τ.done = _
          rw [hdone]
          rfl
        · rw [List.filter_cons_of_pos (by simp)]
          exact .cons hN hall
        · simp only [Function.update_self] at hp
          cases hp
      · refine ⟨run, parts, (t, op, r) :: dones, heq, ?_, ?_, ?_, ?_⟩
        · show (t, op, r) :: τ.done = _
          rw [hdone]
          rfl
        · rw [List.filter_cons_of_neg (by simpa using Ne.symm e)]
          exact hall
        · simp only [Function.update_of_ne e]
          exact hidle
        · simp only [Function.update_of_ne e]
          exact hrun

/-- the same from the start -/
theorem Reach.logged (rules : Rules exec d G view P T idle) (log : Γ → List E)
    (grows : ∀ op st r γ γ', T op st r γ γ' → ∃ new, log γ' = new ++ log γ)
    (N : Op → Except ε A → List E → Prop)
    (start : ∀ op γ, idle γ → Safe (P op) (T op)
      (fun r γ' => idle γ' ∧ ∃ new, log γ' = new ++ log γ ∧ N op r new) (body op) γ)
    {σ : Sys S R ε A Op C D} (hr : Reach exec body d σ) (s : Nat)
    (hfirst : log (view s d []) = []) :
    ∃ run parts, log (view s σ.db σ.hist) = run ++ parts.flatten ∧
      List.Forall₂ (fun x part => N x.2.1 x.2.2 part) (σ.done.filter (·.1 == s)) parts ∧
      (σ.prog s = none → run = []) := by
  obtain ⟨run, parts, dones, h1, h2, h3, h4⟩ :=
    Reach.logged_since rules log grows N start Relation.ReflTransGen.refl s rfl hr
  have hbase : log (view s (Sys.init d : Sys S R ε A Op C D).db
    (Sys.init d : Sys S R ε A Op C D).hist)
      = [] := hfirst
  rw [hbase, List.append_nil] at h1
  have hdone : σ.done = dones := h2.trans (List.append_nil _)
  rw [hdone]
  exact ⟨run, parts, h1, h3, h4⟩

end

/-- the same of the statements a session has executed -/
theorem Reach.calls (N : Op → Except ε A → List (Ev S R Op C D) → Prop)
    (start : ∀ op γ, OwnSafe op (fun r γ' => ∃ new, γ' = new ++ γ ∧ N op r new) (body op) γ) {d : D}
    {σ : Sys S R ε A Op C D} (hr : Reach exec body d σ) (s : Nat) :
    ∃ run parts, Interleave.ownEvents s σ.hist = run ++ parts.flatten ∧
      List.Forall₂ (fun x part => N x.2.1 x.2.2 part) (σ.done.filter (·.1 == s)) parts := by
  obtain ⟨run, parts, h1, h2, -⟩ := hr.logged (ownEvents_rules exec d fun _ _ _ => True) id
    (fun op st r γ γ' hm => by
      obtain ⟨t, c, db, rfl⟩ := hm
      exact ⟨[_], rfl⟩) N
    (fun op γ _ => (start op γ).mono fun r γ' h => ⟨trivial, h⟩) s rfl
  exact ⟨run, parts, h1, h2⟩

/-! ## counting -/

theorem sum_map_toNat {α : Type} (p : α → Bool) (l : List α) :
    (l.map fun a => (p a).toNat).sum = l.countP p := by
  induction l with
  | nil => rfl
  | cons a l ih =>
    rw [List.map_cons, List.sum_cons, List.countP_cons, ih, Nat.add_comm]
    cases p a <;> rfl

variable {Γ : Type}

/-- the moves of a view with what the statements have earned so far -/
def Earns (T : (s : S) → R s → Γ → Γ → Prop) (earn : (s : S) → R s → Γ → Nat) (st : S) (r : R st)
    (x x' : Γ × Nat) : Prop :=
  T st r x.1 x'.1 ∧ x'.2 = x.2 + earn st r x.1

/-- what a program guarantees while it counts, it guarantees -/
theorem Safe.uncounted {P : S → Γ → Prop} {T : (s : S) → R s → Γ → Γ → Prop}
    {Q : Except ε A → Γ → Prop} {earn : (s : S) → R s → Γ → Nat} {cost : Except ε A → Nat}
    {p : Prog S R ε A} {x : Γ × Nat}
    (h : Safe (fun st x => P st x.1) (Earns T earn) (fun r x => Q r x.1 ∧ cost r ≤ x.2) p x) :
    Safe P T Q p x.1 := by
  induction p generalizing x with
  | ret r => exact h.1
  | exec s k ih => exact ⟨h.1, fun r γ' hT => ih r (h.2 r (γ', _) ⟨hT, rfl⟩)⟩

theorem Safe.counted {P : S → Γ → Prop} {T : (s : S) → R s → Γ → Γ → Prop}
    {Q : Except ε A → Γ → Prop} (earn : (s : S) → R s → Γ → Nat) {p : Prog S R ε A} {γ : Γ}
    (h : Safe P T Q p γ) (n : Nat) :
    Safe (fun st x => P st x.1) (Earns T earn) (fun r x => Q r x.1) p (γ, n) := by
  induction p generalizing γ n with
  | ret r => exact h
  | exec s k ih =>
    refine ⟨h.1, fun r x hx => ?_⟩
    obtain ⟨γ', n'⟩ := x
    exact ih r (h.2 r γ' hx.1) n'

/-- **What calls hand back is paid for by statements.**  `earn` is what a statement earns where its
session has this view, `w` an upper bound read off the event, `cost` what a result spends. -/
theorem Reach.credit {G : D → List (Ev S R Op C D) → Prop}
    {view : Nat → D → List (Ev S R Op C D) → Γ} {P : Op → S → Γ → Prop}
    {T : Op → (s : S) → R s → Γ → Γ → Prop} {Q : Op → Except ε A → Γ → Prop} {idle : Γ → Prop}
    {d : D} (rules : Rules exec d G view P T idle) (fin : ∀ op r γ, Q op r γ → idle γ)
    (earn : Op → (st : S) → R st → Γ → Nat) (w : Ev S R Op C D → Nat)
    (cost : Op → Except ε A → Nat)
    (hw : ∀ db h s op c st r, G db h → earn op st r (view s db h) ≤ w ⟨s, op, c, st, r, db⟩)
    (start : ∀ op γ, idle γ → Safe (fun st x => P op st x.1) (Earns (T op) (earn op))
      (fun r x => Q op r x.1 ∧ cost op r ≤ x.2) (body op) (γ, 0))
    {σ : Sys S R ε A Op C D} (hr : Reach exec body d σ) :
    (σ.done.map fun x => cost x.2.1 x.2.2).sum ≤ (σ.hist.map w).sum := by
  suffices h : ∃ n : Slots Nat, (∀ s op p, σ.prog s = some (op, p) →
      Safe (fun st x => P op st x.1) (Earns (T op) (earn op))
        (fun r x => Q op r x.1 ∧ cost op r ≤ x.2) p (view s σ.db σ.hist, (n.get s).getD 0)) ∧
      (σ.done.map fun x => cost x.2.1 x.2.2).sum + n.total id ≤ (σ.hist.map w).sum by
    obtain ⟨n, -, h⟩ := h
    omega
  induction hr with
  | refl => exact ⟨[], ⟨fun s op p hp => absurd hp (by simp [Sys.init]), Nat.le_refl 0⟩⟩
  | @tail τ _ hr hst ih =>
    obtain ⟨n, hsafe, hle⟩ := ih
    have hrel := Reach.rely rules fin (fun op γ hγ => (start op γ hγ).uncounted) hr
    cases hst with
    | call s op h =>
      refine ⟨n.erase s, fun t op' p hp => ?_, ?_⟩
      · by_cases e : t = s
        · subst e
          simp only [Function.update_self, Option.some.injEq, Prod.mk.injEq] at hp
          obtain ⟨rfl, rfl⟩ := hp
          rw [Slots.get_erase_self]
          exact start op _ (hrel.resting t h)
        · simp only [Function.update_of_ne e] at hp
          rw [Slots.get_erase_ne n e]
          exact hsafe t op' p hp
      · have h1 := Slots.total_erase_le id n s
        exact Nat.le_trans (Nat.add_le_add_left h1 _) hle
    | stmt s op c st k r d' h hx =>
      have hs := hsafe s op _ h
      refine ⟨n.set s ((n.get s).getD 0 + earn op st r (view s τ.db τ.hist)),
        fun t op' p hp => ?_, ?_⟩
      · by_cases e : t = s
        · subst e
          simp only [Function.update_self, Option.some.injEq, Prod.mk.injEq] at hp
          obtain ⟨rfl, rfl⟩ := hp
          rw [Slots.get_set_self]
          exact hs.2 r _ ⟨rules.own _ _ t op c st r d' hrel.holds hs.1 hx, rfl⟩
        · simp only [Function.update_of_ne e] at hp
          rw [Slots.get_set_ne n _ e, rules.other _ _ s op c st r d' t e hrel.holds hs.1 hx]
          exact hsafe t op' p hp
      · have h1 := hw τ.db τ.hist s op c st r hrel.holds
        have h2 : (n.set s ((n.get s).getD 0 + earn op st r (view s τ.db τ.hist))).total id
            ≤ n.total id + earn op st r (view s τ.db τ.hist) := by
          rw [Slots.total_set]
          cases hg : n.get s with
          | none =>
            have h3 := Slots.total_erase_le id n s
            simp only [Option.getD_none, id_eq]
            omega
          | some a =>
            have h3 := Slots.total_erase_add id hg
            simp only [Option.getD_some, id_eq] at h3 ⊢
            omega
        simp only [List.map_cons, List.sum_cons]
        omega
    | ret s op r h =>
      refine ⟨n.erase s, fun t op' p hp => ?_, ?_⟩
      · by_cases e : t = s
        · subst e
          simp only [Function.update_self] at hp
          cases hp
        · simp only [Function.update_of_ne e] at hp
          rw [Slots.get_erase_ne n e]
          exact hsafe t op' p hp
      · have hc : cost op r ≤ (n.get s).getD 0 := (hsafe s op _ h).2
        have h1 : (n.erase s).total id + (n.get s).getD 0 ≤ n.total id := by
          cases hg : n.get s with
          | none => exact Slots.total_erase_le id n s
          | some a => exact Slots.total_erase_add id hg
        simp only [List.map_cons, List.sum_cons]
        omega

end

end Interleave
