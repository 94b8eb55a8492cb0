import PgApp.Interleave.Serving

/-!
# Calls that are dropped

Whoever waits for a call may stop waiting: a time limit is over, a client is gone.  The call is then
dropped where it stands.  A statement that was sent is still executed; the answer is not seen; and a
transaction that is open is rolled back before its connection serves anybody else.

* `Brackets`      the statements that open and close a transaction, and the one that gives it up.  A
                  store may let a statement take effect before the COMMIT that comes next
                  (`needsCommit`): a program that is dropped before that COMMIT has not executed it;
* `Prog.dropped`  a program that is dropped after `n` statements, if it has not ended by then;
* `Limited`       a call with what its caller allows it.

`Safe.dropped` is the rule: a program that was checked alone is safe when it is dropped, if the
point where it stands (`I`) is a good one to stop.  The last statement of a program, the COMMIT of
its transaction say, may leave such points for good (`Prog.Last`): after it the program has its
answer. A statement that a program runs at most once (`Prog.Once`), it runs at most once when it is
dropped.
-/

namespace Interleave

variable {S : Type} {R : S → Type} {ε α Op Γ : Type}

structure Brackets (S : Type) where
  opens : S → Bool
  closes : S → Bool
  needsCommit : S → Bool
  rollback : S

/-- whether a transaction is open after a statement -/
def Brackets.after (b : Brackets S) (isOpen : Bool) (s : S) : Bool :=
  b.opens s || (isOpen && !b.closes s)

section
variable (b : Brackets S) (late : ε)

/-- what is left to do when a call is dropped -/
def Prog.giveUp : Bool → Prog S R ε α
  | true => .exec b.rollback fun _ => .ret (.error late)
  | false => .ret (.error late)

/-- a program dropped after so many statements -/
def Prog.dropped : Nat → Bool → Prog S R ε α → Prog S R ε α
  | 0, isOpen, _ => Prog.giveUp b late isOpen
  | _ + 1, _, .ret r => .ret r
  | n + 1, isOpen, .exec s k =>
    if n = 0 ∧ b.needsCommit s = true then Prog.giveUp b late isOpen
    else .exec s fun r => (k r).dropped n (b.after isOpen s)

/-- a program its caller may drop -/
def Prog.limited (limit : Option Nat) (p : Prog S R ε α) : Prog S R ε α :=
  match limit with
  | none => p
  | some n => p.dropped b late n false

end

/-- a call, and the number of statements after which its caller drops it, if ever -/
structure Limited (Op : Type) where
  op : Op
  limit : Option Nat

/-- after a statement with `bad` the program has its answer -/
def Prog.Last (bad : S → Prop) : Prog S R ε α → Prop
  | .ret _ => True
  | .exec s k => (bad s → ∀ r, ∃ v, k r = .ret v) ∧ ∀ r, (k r).Last bad

theorem Prog.Last.of_avoids {bad : S → Prop} {p : Prog S R ε α} (h : p.Avoids bad) :
    p.Last bad := by
  induction p with
  | ret r => exact trivial
  | exec s k ih => exact ⟨fun hb => absurd hb h.1, fun r => ih r (h.2 r)⟩

theorem Prog.Last.mono {bad bad' : S → Prop} {p : Prog S R ε α} (h : p.Last bad)
    (hb : ∀ s, bad' s → bad s) : p.Last bad' := by
  induction p with
  | ret r => exact trivial
  | exec s k ih => exact ⟨fun hs => h.1 (hb s hs), fun r => ih r (h.2 r)⟩

theorem Prog.Last.bind {β : Type} {bad : S → Prop} {p : Prog S R ε α} {f : α → Prog S R ε β}
    (h : p.Avoids bad) (hf : ∀ a, (f a).Last bad) : (p >>= f).Last bad := by
  induction p with
  | ret r =>
    cases r with
    | ok a => exact hf a
    | error e => exact trivial
  | exec s k ih => exact ⟨fun hb => absurd hb h.1, fun r => ih r (h.2 r)⟩

theorem Prog.Last.bracket {bad : S → Prop} {commit rollback : S} {p : Prog S R ε α}
    (h : p.Avoids bad) : (p.bracket commit rollback).Last bad := by
  induction p with
  | ret r =>
    cases r with
    | ok a => exact ⟨fun _ _ => ⟨_, rfl⟩, fun _ => trivial⟩
    | error e => exact ⟨fun _ _ => ⟨_, rfl⟩, fun _ => trivial⟩
  | exec s k ih => exact ⟨fun hb => absurd hb h.1, fun r => ih r (h.2 r)⟩

theorem Prog.Last.mapResult {ε' β : Type} {bad : S → Prop} {f : Except ε α → Except ε' β}
    {p : Prog S R ε α} (h : p.Last bad) : (p.mapResult f).Last bad := by
  induction p with
  | ret r => exact trivial
  | exec s k ih =>
    refine ⟨fun hb r => ?_, fun r => ih r (h.2 r)⟩
    obtain ⟨v, hv⟩ := h.1 hb r
    exact ⟨f v, congrArg (Prog.mapResult f) hv⟩

theorem Prog.bind_pure_eq {β : Type} (f : α → β) (p : Prog S R ε α) :
    (p >>= fun a => pure (f a)) = p.mapResult (Except.map f) := by
  induction p with
  | ret r =>
    cases r with
    | ok a => rfl
    | error e => rfl
  | exec s k ih => exact congrArg (Prog.exec s) (funext ih)

theorem Prog.Last.lift {S' : Type} {R' : S' → Type} {bad : S' → Prop} (f : S → S')
    (g : (s : S) → R' (f s) → R s) {p : Prog S R ε α} (h : p.Last fun s => bad (f s)) :
    (p.lift f g).Last bad := by
  induction p with
  | ret r => exact trivial
  | exec s k ih =>
    refine ⟨fun hb r => ?_, fun r => ih _ (h.2 _)⟩
    obtain ⟨v, hv⟩ := h.1 hb (g s r)
    exact ⟨v, congrArg (Prog.lift f g) hv⟩

/-! ## once -/

/-- at most one statement with `bad`, on every way through the program -/
def Prog.Once (bad : S → Prop) : Prog S R ε α → Prop
  | .ret _ => True
  | .exec s k => (bad s → ∀ r, (k r).Avoids bad) ∧ ∀ r, (k r).Once bad

section
variable {β : Type} {bad : S → Prop} {p : Prog S R ε α} {f : α → Prog S R ε β}

theorem Prog.Once.of_avoids (h : p.Avoids bad) : p.Once bad := by
  induction p with
  | ret r => exact trivial
  | exec s k ih => exact ⟨fun hb => absurd hb h.1, fun r => ih r (h.2 r)⟩

theorem Prog.Once.bind_left (h : p.Once bad) (hf : ∀ a, (f a).Avoids bad) : (p >>= f).Once bad := by
  induction p with
  | ret r =>
    cases r with
    | ok a => exact Prog.Once.of_avoids (hf a)
    | error e => exact trivial
  | exec s k ih => exact ⟨fun hb r => Prog.Avoids.bind (h.1 hb r) hf, fun r => ih r (h.2 r)⟩

theorem Prog.Once.bind (h : p.Avoids bad) (hf : ∀ a, (f a).Once bad) : (p >>= f).Once bad := by
  induction p with
  | ret r =>
    cases r with
    | ok a => exact hf a
    | error e => exact trivial
  | exec s k ih => exact ⟨fun hb => absurd hb h.1, fun r => ih r (h.2 r)⟩

theorem Prog.Once.query {s : S} {k : R s → Prog S R ε α} (h : ∀ r, (k r).Avoids bad) :
    (Prog.exec s k).Once bad := ⟨fun _ => h, fun r => Prog.Once.of_avoids (h r)⟩

theorem Prog.Once.bracket {commit rollback : S} (h : p.Avoids bad) :
    (p.bracket commit rollback).Once bad := by
  induction p with
  | ret r =>
    cases r with
    | ok a => exact ⟨fun _ _ => trivial, fun _ => trivial⟩
    | error e => exact ⟨fun _ _ => trivial, fun _ => trivial⟩
  | exec s k ih => exact ⟨fun hb => absurd hb h.1, fun r => ih r (h.2 r)⟩

theorem Prog.Once.mapResult {ε' : Type} {g : Except ε α → Except ε' β} (h : p.Once bad) :
    (p.mapResult g).Once bad := by
  induction p with
  | ret r => exact trivial
  | exec s k ih => exact ⟨fun hb r => Prog.Avoids.mapResult (h.1 hb r), fun r => ih r (h.2 r)⟩

end

variable {b : Brackets S} {late : ε} {P : S → Γ → Prop} {T : (s : S) → R s → Γ → Γ → Prop}
variable {Q Q' : Except ε α → Γ → Prop}

theorem Prog.giveUp_avoids {bad : S → Prop} (hb : ¬ bad b.rollback) (isOpen : Bool) :
    (Prog.giveUp b late isOpen : Prog S R ε α).Avoids bad := by
  cases isOpen with
  | true => exact ⟨hb, fun _ => trivial⟩
  | false => exact trivial

theorem Prog.Avoids.dropped {bad : S → Prop} (hb : ¬ bad b.rollback) {p : Prog S R ε α}
    (h : p.Avoids bad) (n : Nat) (isOpen : Bool) : (p.dropped b late n isOpen).Avoids bad := by
  induction n generalizing p isOpen with
  | zero => exact Prog.giveUp_avoids hb isOpen
  | succ n ih =>
    cases p with
    | ret r => exact trivial
    | exec s k =>
      unfold Prog.dropped
      split
      · exact Prog.giveUp_avoids hb isOpen
      · exact ⟨h.1, fun r => ih (h.2 r) _⟩

theorem Prog.Once.dropped {bad : S → Prop} (hb : ¬ bad b.rollback) {p : Prog S R ε α}
    (h : p.Once bad)
    (n : Nat) (isOpen : Bool) : (p.dropped b late n isOpen).Once bad := by
  induction n generalizing p isOpen with
  | zero => exact Prog.Once.of_avoids (Prog.giveUp_avoids hb isOpen)
  | succ n ih =>
    cases p with
    | ret r => exact trivial
    | exec s k =>
      unfold Prog.dropped
      split
      · exact Prog.Once.of_avoids (Prog.giveUp_avoids hb isOpen)
      · exact ⟨fun hs r => Prog.Avoids.dropped hb (h.1 hs r) n _, fun r => ih (h.2 r) _⟩

theorem Prog.Once.limited {bad : S → Prop} (hb : ¬ bad b.rollback) {p : Prog S R ε α}
    (h : p.Once bad)
    (limit : Option Nat) : (p.limited b late limit).Once bad := by
  cases limit with
  | none => exact h
  | some n => exact Prog.Once.dropped hb h n false

section
variable {E : Type} {stmt : E → S} {mine : E → Prop} {log : Γ → List E} {dec : S → Bool}
variable {l : List E}

/-- a statement is added to the log -/
abbrev Logs (T : (s : S) → R s → Γ → Γ → Prop) (stmt : E → S) (mine : E → Prop) (log : Γ → List E) :
    Prop := ∀ s r γ γ', T s r γ γ' → ∃ e, stmt e = s ∧ mine e ∧ log γ' = e :: log γ

/-- the log has grown by a program's own statements, of which so many are decisive -/
def Logged (stmt : E → S) (mine : E → Prop) (dec : S → Bool) (l : List E) (k : Nat) (l' : List E) :
    Prop :=
  ∃ new, l' = new ++ l ∧ (∀ e ∈ new, mine e) ∧ (new.filter fun e => dec (stmt e)).length ≤ k

theorem Logged.refl (l : List E) (k : Nat) : Logged stmt mine dec l k l :=
  ⟨[], rfl, fun _ he => absurd he List.not_mem_nil, Nat.zero_le k⟩

theorem Logged.cons {k : Nat} {l' : List E} (h : Logged stmt mine dec l k l') {e : E}
    (he : mine e) :
    Logged stmt mine dec l (k + (if dec (stmt e) then 1 else 0)) (e :: l') := by
  obtain ⟨new, rfl, hm, hk⟩ := h
  refine ⟨e :: new, rfl, fun d hd => ?_, ?_⟩
  · rcases List.mem_cons.mp hd with rfl | hd
    · exact he
    · exact hm d hd
  · rw [List.filter_cons]
    split
    · rw [List.length_cons]
      omega
    · omega

theorem Prog.Avoids.logged_by (hT : Logs T stmt mine log) {p : Prog S R ε α}
    (h : p.Avoids fun s => dec s = true) {k : Nat} {γ : Γ} (hl : Logged stmt mine dec l k (log γ)) :
    Safe (fun _ _ => True) T (fun _ γ' => Logged stmt mine dec l k (log γ')) p γ := by
  induction p generalizing γ with
  | ret r => exact hl
  | exec s f ih =>
    refine ⟨trivial, fun r γ' hm => ih r (h.2 r) ?_⟩
    obtain ⟨e, rfl, he, hγ⟩ := hT s r γ γ' hm
    have h1 := hl.cons he
    rw [if_neg h.1, Nat.add_zero] at h1
    rw [hγ]
    exact h1

/-- **It logs one of them at most.** -/
theorem Prog.Once.logged_by (hT : Logs T stmt mine log) {p : Prog S R ε α}
    (h : p.Once fun s => dec s = true) {γ : Γ} (hl : Logged stmt mine dec l 0 (log γ)) :
    Safe (fun _ _ => True) T (fun _ γ' => Logged stmt mine dec l 1 (log γ')) p γ := by
  induction p generalizing γ with
  | ret r =>
    obtain ⟨new, h1, h2, h3⟩ := hl
    exact ⟨new, h1, h2, Nat.le_succ_of_le h3⟩
  | exec s f ih =>
    refine ⟨trivial, fun r γ' hm => ?_⟩
    obtain ⟨e, rfl, he, hγ⟩ := hT s r γ γ' hm
    have h1 := hl.cons he
    rw [Nat.zero_add, ← hγ] at h1
    by_cases hd : dec (stmt e) = true
    · rw [if_pos hd] at h1
      exact Prog.Avoids.logged_by hT (h.1 hd r) h1
    · rw [if_neg hd] at h1
      exact ih r (h.2 r) h1

end

/-- where a program may be dropped: outside a transaction at once, inside one after a rollback -/
structure Droppable (b : Brackets S) (late : ε) (P : S → Γ → Prop)
    (T : (s : S) → R s → Γ → Γ → Prop) (Q : Except ε α → Γ → Prop)
        (I : Bool → Γ → Prop) : Prop where
  outside : ∀ γ, I false γ → Q (.error late) γ
  inside : ∀ γ, I true γ → P b.rollback γ ∧ ∀ r γ', T b.rollback r γ γ' → Q (.error late) γ'

theorem Droppable.giveUp {I : Bool → Γ → Prop} (h : Droppable b late P T Q I)
    {isOpen : Bool} {γ : Γ}
    (hI : I isOpen γ) : Safe P T Q (Prog.giveUp b late isOpen) γ := by
  cases isOpen with
  | true => exact h.inside γ hI
  | false => exact h.outside γ hI

/-- **A program that may be dropped anywhere.**  `I` is kept by its statements, but for those it
ends with (`bad`); after these it has its answer, and a caller who is not told so finds `Q'` all the
same. -/
theorem Safe.dropped (bad : S → Prop) {I : Bool → Γ → Prop} (hD : Droppable b late P T Q' I)
    (hclose : ∀ s isOpen, bad s → b.after isOpen s = false)
    (hstep : ∀ isOpen s γ r γ', ¬ bad s → I isOpen γ → P s γ → T s r γ γ' → I (b.after isOpen s) γ')
    (hend : ∀ r γ, Q r γ → Q' r γ ∧ ((∃ s, bad s) → Q' (.error late) γ))
    {p : Prog S R ε α} {γ : Γ} (h : Safe P T Q p γ) (hl : p.Last bad) {isOpen : Bool}
    (hI : I isOpen γ) (n : Nat) : Safe P T Q' (p.dropped b late n isOpen) γ := by
  induction n generalizing p γ isOpen with
  | zero => exact hD.giveUp hI
  | succ n ih =>
    cases p with
    | ret r => exact (hend r γ h).1
    | exec s k =>
      unfold Prog.dropped
      split
      · exact hD.giveUp hI
      refine ⟨h.1, fun r γ' hT => ?_⟩
      have hk := h.2 r γ' hT
      by_cases hb : bad s
      · obtain ⟨v, hv⟩ := hl.1 hb r
        rw [hv] at hk
        show Safe P T Q' ((k r).dropped b late n (b.after isOpen s)) γ'
        rw [hv, hclose s isOpen hb]
        cases n with
        | zero => exact (hend v γ' hk).2 ⟨s, hb⟩
        | succ n => exact (hend v γ' hk).1
      · exact ih hk (hl.2 r) (hstep isOpen s γ r γ' hb hI h.1 hT)

/-- the same of a program nobody has to drop -/
theorem Safe.limited (bad : S → Prop) {I : Bool → Γ → Prop} (hD : Droppable b late P T Q' I)
    (hclose : ∀ s isOpen, bad s → b.after isOpen s = false)
    (hstep : ∀ isOpen s γ r γ', ¬ bad s → I isOpen γ → P s γ → T s r γ γ' → I (b.after isOpen s) γ')
    (hend : ∀ r γ, Q r γ → Q' r γ ∧ ((∃ s, bad s) → Q' (.error late) γ))
    {p : Prog S R ε α} {γ : Γ} (h : Safe P T Q p γ) (hl : p.Last bad) (hI : I false γ)
    (limit : Option Nat) : Safe P T Q' (p.limited b late limit) γ := by
  cases limit with
  | none => exact h.mono fun r γ' hr => (hend r γ' hr).1
  | some n => exact Safe.dropped bad hD hclose hstep hend h hl hI n

end Interleave
