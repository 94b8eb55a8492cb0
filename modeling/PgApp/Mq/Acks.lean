import PgApp.Mq.Tokens
import PgApp.Mq.Sends

/-!
# What `ack`, `archive` and `set_visibility_timeout` answer

Each of the three looks its queue up in one statement and uses the token in a later one.  Their
answer is what that later statement did (`token_answer`), so it is told by the history just before
it (`token_call`); a call that runs with nobody in between is `token_call_alone`.

Main result: `mq_delivery_tokens`.
-/

namespace PgApp
open Interleave

/-- the queue, the message and the token of a call that takes one -/
def MqOp.tokenArgs : MqOp → Option (String × Int × String)
  | .ack n id token => some (n, id, token)
  | .archive n id token => some (n, id, token)
  | .setVisibilityTimeout n id token _ => some (n, id, token)
  | _ => none

/-- its arguments pass the checks of the function -/
def MqCall.tokenValid (call : MqCall) : Prop :=
  match call.op with
  | .ack n _ token => validateAckToken token = .ok () ∧ validateQueueName n = .ok ()
  | .archive n _ token => validateAckToken token = .ok () ∧ validateQueueName n = .ok ()
  | .setVisibilityTimeout n _ token t => validateAckToken token = .ok () ∧
      (∃ x, validateNonNegativeSeconds "visibility_timeout_seconds" t = .ok x) ∧
      call.store.validateVisibilityTimeout t = .ok () ∧ validateQueueName n = .ok ()
  | _ => False

/-- PostgreSQL takes the parameters of its statement -/
def MqOp.Bindable (now : Time) : MqOp → Prop
  | .ack _ _ token | .archive _ _ token => storable token = true
  | .setVisibilityTimeout _ _ token timeoutSeconds =>
      storable token = true ∧ postgres.Fits now timeoutSeconds
  | _ => True

/-- the four tables are the same -/
structure MqDb.SameTables (db db' : MqDb) : Prop where
  queues : db'.queues = db.queues
  messages : db'.messages = db.messages
  archives : db'.archives = db.archives
  dlq : db'.dlq = db.dlq

/-! ## the statement behind an answer -/

/-- the session's own statements end with the one the call is about, but for a COMMIT; before it
the call has looked up its queue -/
def TokenAnswer (call : MqCall) (r : PgAppResult MqReturn) (γ : List MqEv) : Prop :=
  ∀ n id token b, call.op.tokenArgs = some (n, id, token) → r = .ok (.bool b) →
    ∃ γ₁ γ₂ s c q st, ∃ k : MqStmt.Res st, ∃ db,
      γ = γ₁ ++ ⟨s, call, c, st, k, db⟩ :: γ₂ ∧ (∀ x ∈ γ₁, x.stmt = .commit) ∧
      st.tokenArgs = some (q, id, token) ∧ b = decide (0 < st.rows k) ∧
      ∃ s' c' db', ⟨s', call, c', .selectQueueId n, some q, db'⟩ ∈ γ₂

section
variable {call : MqCall}

theorem own_check {α : Type} (r : PgAppResult α) (γ : List MqEv) :
    OwnSafe call (fun _ γ' => γ' = γ) (Prog.check r) γ := rfl

theorem own_queueId (n : String) (γ : List MqEv) :
    OwnSafe call (fun r γ' => ∀ q, r = .ok q → ∃ s c db,
      γ' = ⟨s, call, c, .selectQueueId n, some q, db⟩ :: γ) (queueId n) γ := by
  unfold queueId
  cases hc : validateQueueName n with
  | error e => exact fun q hq => by cases hq
  | ok u =>
    refine ⟨trivial, fun r γ' hγ => ?_⟩
    obtain ⟨s, c, db, rfl⟩ := hγ
    cases r with
    | none => exact fun q hq => by cases hq
    | some q =>
      intro q' hq
      obtain rfl := Except.ok.inj hq
      exact ⟨s, c, db, rfl⟩

theorem own_ack (n : String) (id : Int) (token : String) (γ : List MqEv) :
    OwnSafe call (fun r γ' => ∀ b, r = .ok b → ∃ s c q k db s' c' db',
      γ' = ⟨s, call, c, .ack q id token, k, db⟩ ::
        ⟨s', call, c', .selectQueueId n, some q, db'⟩ :: γ ∧ b = decide (0 < (k : Nat)))
      (ack n id token) γ := by
  refine Safe.bind (own_check _ γ) ?_ (fun e w _ b hb => by cases hb)
  rintro - γ rfl
  refine Safe.bind (own_queueId n γ) ?_ (fun e w _ b hb => by cases hb)
  intro q γ' hγ
  obtain ⟨s', c', db', rfl⟩ := hγ q rfl
  refine ⟨trivial, fun k γ'' hγ b hb => ?_⟩
  obtain ⟨s, c, db, rfl⟩ := hγ
  exact ⟨s, c, q, k, db, s', c', db', rfl, (Except.ok.inj hb).symm⟩

theorem own_setVisibilityTimeout (store : MqStore) (n : String) (id : Int) (token : String)
    (t : Int) (γ : List MqEv) :
    OwnSafe call (fun r γ' => ∀ b, r = .ok b → ∃ s c q k db s' c' db',
      γ' = ⟨s, call, c, .setVisibility q id token t, k, db⟩ ::
        ⟨s', call, c', .selectQueueId n, some q, db'⟩ :: γ ∧ b = decide (0 < (k : Nat)))
      (store.setVisibilityTimeout n id token t) γ := by
  refine Safe.bind (own_check _ γ) ?_ (fun e w _ b hb => by cases hb)
  rintro - γ rfl
  refine Safe.bind (own_check _ γ) ?_ (fun e w _ b hb => by cases hb)
  rintro - γ rfl
  refine Safe.bind (own_check _ γ) ?_ (fun e w _ b hb => by cases hb)
  rintro - γ rfl
  refine Safe.bind (own_queueId n γ) ?_ (fun e w _ b hb => by cases hb)
  intro q γ' hγ
  obtain ⟨s', c', db', rfl⟩ := hγ q rfl
  refine ⟨trivial, fun k γ'' hγ b hb => ?_⟩
  obtain ⟨s, c, db, rfl⟩ := hγ
  exact ⟨s, c, q, k, db, s', c', db', rfl, (Except.ok.inj hb).symm⟩

/-- `archive`: BEGIN, the statement, COMMIT -/
theorem own_archive (n : String) (id : Int) (token : String) (γ : List MqEv) :
    OwnSafe call (fun r γ' => ∀ b, r = .ok b → ∃ s c q k db e₁ e₂ s' c' db',
      γ' = e₁ :: ⟨s, call, c, .archive q id token, k, db⟩ :: e₂ ::
        ⟨s', call, c', .selectQueueId n, some q, db'⟩ :: γ ∧ e₁.stmt = .commit ∧
        b = decide (0 < (k : Nat)))
      (archive n id token) γ := by
  refine Safe.bind (own_check _ γ) ?_ (fun e w _ b hb => by cases hb)
  rintro - γ rfl
  refine Safe.bind (own_queueId n γ) ?_ (fun e w _ b hb => by cases hb)
  intro q γ' hγ
  obtain ⟨s', c', db', rfl⟩ := hγ q rfl
  refine ⟨trivial, fun _ γ'' hγ => ?_⟩
  obtain ⟨s₂, c₂, db₂, rfl⟩ := hγ
  refine ⟨trivial, fun k γ'' hγ => ?_⟩
  obtain ⟨s, c, db, rfl⟩ := hγ
  refine ⟨trivial, fun _ γ'' hγ b hb => ?_⟩
  obtain ⟨s₁, c₁, db₁, rfl⟩ := hγ
  exact ⟨s, c, q, k, db, _, _, s', c', db', rfl, rfl, (Except.ok.inj hb).symm⟩

theorem own_body (call : MqCall) (γ : List MqEv) : OwnSafe call (TokenAnswer call) call.body γ := by
  obtain ⟨store, op⟩ := call
  cases op with
  | ack n id token =>
    refine Safe.bind (own_ack n id token γ) ?_ (fun e w _ n' id' tok b _ hb => by cases hb)
    intro b γ' hγ n' id' token' b' hargs hb
    obtain ⟨s, c, q, k, db, s', c', db', rfl, rfl⟩ := hγ b rfl
    obtain ⟨rfl, rfl, rfl⟩ : n = n' ∧ id = id' ∧ token = token' := by
      simpa [MqOp.tokenArgs] using hargs
    obtain rfl := MqReturn.bool.inj (Except.ok.inj hb)
    exact ⟨[], _, s, c, q, .ack q id token, k, db, rfl, fun _ h => absurd h List.not_mem_nil, rfl,
      rfl, s', c', db', List.mem_cons_self⟩
  | archive n id token =>
    refine Safe.bind (own_archive n id token γ) ?_ (fun e w _ n' id' tok b _ hb => by cases hb)
    intro b γ' hγ n' id' token' b' hargs hb
    obtain ⟨s, c, q, k, db, e₁, e₂, s', c', db', rfl, he, rfl⟩ := hγ b rfl
    obtain ⟨rfl, rfl, rfl⟩ : n = n' ∧ id = id' ∧ token = token' := by
      simpa [MqOp.tokenArgs] using hargs
    obtain rfl := MqReturn.bool.inj (Except.ok.inj hb)
    refine ⟨[e₁], _, s, c, q, .archive q id token, k, db, rfl, fun x hx => ?_, rfl, rfl,
      s', c', db',
      List.mem_cons_of_mem _ List.mem_cons_self⟩
    rw [List.mem_singleton.mp hx]
    exact he
  | setVisibilityTimeout n id token t =>
    refine Safe.bind (own_setVisibilityTimeout store n id token t γ) ?_
      (fun e w _ n' id' tok b _ hb => by cases hb)
    intro b γ' hγ n' id' token' b' hargs hb
    obtain ⟨s, c, q, k, db, s', c', db', rfl, rfl⟩ := hγ b rfl
    obtain ⟨rfl, rfl, rfl⟩ : n = n' ∧ id = id' ∧ token = token' := by
      simpa [MqOp.tokenArgs] using hargs
    obtain rfl := MqReturn.bool.inj (Except.ok.inj hb)
    exact ⟨[], _, s, c, q, .setVisibility q id token t, k, db, rfl,
      fun _ h => absurd h List.not_mem_nil, rfl, rfl, s', c', db', List.mem_cons_self⟩
  | _ =>
    refine (Safe.trivial _ γ).mono fun r w _ n id tok b hargs _ => ?_
    exact absurd hargs (by simp [MqOp.tokenArgs])

end

theorem stamped_hist {σ : MqSys} (hr : MqReach σ) :
    Always (fun e h => Stamped e.pre h ∧
      ∃ db', e.stmt.exec e.sess e.ctx e.pre = some (e.res, db')) σ.hist := by
  refine hr.always_of _ ?_
  intro τ s op c st k r d' hτ hp hx
  exact ⟨Stamped.of_reach hτ, d', hx⟩

/-- **What a call answers, the history before its statement tells**, however the statements of
other sessions fall in between. -/
theorem token_call {σ : MqSys} (hr : MqReach σ) {s : Nat} {call : MqCall} {n : String} {id : Int}
    {token : String} {b : Bool} (hargs : call.op.tokenArgs = some (n, id, token))
    (hp : σ.prog s = some (call, .ret (.ok (.bool b)))) :
    ∃ h₁ h₂ c q st, ∃ k : MqStmt.Res st, ∃ db,
      σ.hist = h₁ ++ ⟨s, call, c, st, k, db⟩ :: h₂ ∧
      (∀ x ∈ h₁, x.sess = s → x.stmt = .commit) ∧ st.tokenArgs = some (q, id, token) ∧
      (∃ c' db', ⟨s, call, c', .selectQueueId n, some q, db'⟩ ∈ h₂) ∧
      (b = true ↔ Held db h₂ q id token (db.now s c.now)) ∧
      (b = false → ∃ db', st.exec s c db = some (k, db') ∧ db' = db) := by
  have hown := hr.ownEvents TokenAnswer own_body hp n id token b hargs rfl
  obtain ⟨γ₁, γ₂, s₀, c, q, st, k, db, hγ, hcommit, hst, hb, s', c', db', hsel⟩ := hown
  have hsess : ∀ x ∈ ownEvents s σ.hist, x.sess = s := fun x hx => by
    simpa using (List.mem_filter.mp hx).2
  obtain rfl : s₀ = s := hsess ⟨s₀, call, c, st, k, db⟩
    (hγ ▸ List.mem_append_right _ List.mem_cons_self)
  obtain rfl : s' = s₀ := hsess ⟨s', call, c', .selectQueueId n, some q, db'⟩
    (hγ ▸ List.mem_append_right _ (List.mem_cons_of_mem _ hsel))
  obtain ⟨h₁, h₂, hh, hh₁, hh₂, -⟩ := ownEvents_split hγ
  have hal := stamped_hist hr
  rw [hh] at hal
  obtain ⟨S, db₂, hx⟩ := hal.head
  obtain ⟨hiff, hsame⟩ := token_stmt S hst hx
  refine ⟨h₁, h₂, c, q, st, k, db, hh, ?_, hst, ⟨c', db', ?_⟩, ?_, ?_⟩
  · intro x hx hs
    apply hcommit
    rw [← hh₁]
    exact List.mem_filter.mpr ⟨hx, by simpa using hs⟩
  · rw [← hh₂] at hsel
    exact List.mem_of_mem_filter hsel
  · rw [hb, ← hiff]
    exact decide_eq_true_iff
  · intro hf
    rw [hb] at hf
    have h0 : st.rows k = 0 := by
      have h1 := of_decide_eq_false hf
      omega
    exact ⟨db₂, hx, hsame h0⟩

/-! ## a call with nobody in between -/

/-- the answer of a call that runs alone from here, at the clock reading of `c` -/
def AnswersAlone (σ : MqSys) (s : Nat) (c : MqCtx) (call : MqCall) (q id : Int) (token : String) :
    Prop :=
  ∃ b db', call.body.run (fun st => st.exec s c) σ.db = some (.ok (.bool b), db') ∧
    (b = true ↔ Held σ.db σ.hist q id token c.now) ∧ (b = false → σ.db.SameTables db')

section
variable {σ : MqSys} {s : Nat} {n : String} {id q : Int} {token : String} {store : MqStore}

/-- the call ends right after its statement -/
theorem answersAlone_of_stmt (hr : MqReach σ) (hs : σ.prog s = none) {call : MqCall} {c : MqCtx}
    {st : MqStmt} {k : st.Res} {db' : MqDb} (hst : st.tokenArgs = some (q, id, token))
    (hx : st.exec s c σ.db = some (k, db'))
    (hrun : call.body.run (fun st => st.exec s c) σ.db
      = some (.ok (.bool (decide (0 < st.rows k))), db')) :
    AnswersAlone σ s c call q id token := by
  have hnow := now_eq_clock (idle_no_tx hr hs) c.now
  obtain ⟨hiff, hsame⟩ := token_stmt (Stamped.of_reach hr) hst hx
  refine ⟨_, db', hrun, ?_, fun hf => ?_⟩
  · rw [← hnow, ← hiff]
    exact decide_eq_true_iff
  · have h1 := of_decide_eq_false hf
    rw [hsame (by omega)]
    exact ⟨rfl, rfl, rfl, rfl⟩

theorem ack_alone (hr : MqReach σ) (hs : σ.prog s = none)
    (hv : (⟨store, .ack n id token⟩ : MqCall).tokenValid) (c : MqCtx)
    (hq : σ.db.selectQueueId n = some q) :
    AnswersAlone σ s c ⟨store, .ack n id token⟩ q id token := by
  have hx : MqStmt.exec s c (.ack q id token) σ.db
      = some ((σ.db.ack q id token (σ.db.now s c.now)).1,
          (σ.db.ack q id token (σ.db.now s c.now)).2) := rfl
  refine answersAlone_of_stmt hr hs rfl hx ?_
  simp [MqCall.body, ack, queueId, hv.1, hv.2, Prog.check, query, Prog.call, Prog.run_exec,
    MqStmt.exec, hq, Prog.pure_eq, MqStmt.rows]
  rfl

theorem setVisibilityTimeout_alone {t : Int} (hr : MqReach σ) (hs : σ.prog s = none)
    (hv : (⟨store, .setVisibilityTimeout n id token t⟩ : MqCall).tokenValid) (c : MqCtx)
    (hq : σ.db.selectQueueId n = some q) :
    AnswersAlone σ s c ⟨store, .setVisibilityTimeout n id token t⟩ q id token := by
  obtain ⟨hv1, ⟨x, hv2⟩, hv3, hv4⟩ := hv
  have hx : MqStmt.exec s c (.setVisibility q id token t) σ.db
      = some ((σ.db.setVisibility q id token t (σ.db.now s c.now)).1,
          (σ.db.setVisibility q id token t (σ.db.now s c.now)).2) := rfl
  refine answersAlone_of_stmt hr hs rfl hx ?_
  simp [MqCall.body, MqStore.setVisibilityTimeout, queueId, hv1, hv2, hv3, hv4, Prog.check, query,
    Prog.call, Prog.run_exec, MqStmt.exec, hq, Prog.pure_eq, MqStmt.rows]
  rfl

theorem archive_alone (hr : MqReach σ)
    (hv : (⟨store, .archive n id token⟩ : MqCall).tokenValid) (c : MqCtx)
    (hq : σ.db.selectQueueId n = some q) :
    AnswersAlone σ s c ⟨store, .archive n id token⟩ q id token := by
  have hbegin : MqStmt.exec s c .begin σ.db = some ((), σ.db.begin s c.now) := rfl
  have S : Stamped (σ.db.begin s c.now) (⟨s, ⟨store, .archive n id token⟩, c, .begin, (),
      σ.db⟩ :: σ.hist) :=
    (Stamped.of_reach hr).step (MqLedger.of_reach hr) hbegin
  have hnow : (σ.db.begin s c.now).now s c.now = c.now := by
    unfold MqDb.now MqDb.begin
    rw [Slots.get_set_self]
  have hx : MqStmt.exec s c (.archive q id token) (σ.db.begin s c.now)
      = some (((σ.db.begin s c.now).archive q id token c.now).1,
          ((σ.db.begin s c.now).archive q id token c.now).2) := by
    show some (MqDb.archive _ _ _ _ _) = _
    rw [hnow]
  have hargs : (MqStmt.archive q id token).tokenArgs = some (q, id, token) := rfl
  obtain ⟨hiff, hsame⟩ := token_stmt S hargs hx
  rw [hnow] at hiff
  refine ⟨decide (0 < ((σ.db.begin s c.now).archive q id token c.now).1),
    ((σ.db.begin s c.now).archive q id token c.now).2.commit s, ?_, ?_, fun hf => ?_⟩
  · simp [MqCall.body, archive, queueId, hv.1, hv.2, Prog.check, query, Prog.call, Prog.run_exec,
      inTx, Prog.bracket, MqStmt.exec, hq, Prog.pure_eq, hnow]
  · rw [decide_eq_true_iff]
    exact hiff.trans ⟨fun H => ⟨H.active, H.latest⟩, fun H => ⟨H.active, H.latest⟩⟩
  · have h1 := of_decide_eq_false hf
    have h2 := hsame (show MqStmt.rows (.archive q id token) _ = 0 by
      show ((σ.db.begin s c.now).archive q id token c.now).1 = 0
      omega)
    rw [h2]
    unfold MqDb.commit MqDb.begin
    simp only [Slots.get_set_self, List.append_nil]
    exact ⟨rfl, rfl, rfl, rfl⟩

end

/-! ## at most one success -/

/-- the finished call is an `ack` or `archive` with this token that answered true -/
def MqOp.spendsWith (token : String) : MqOp → Bool
  | .ack _ _ t => t == token
  | .archive _ _ t => t == token
  | _ => false

def answeredTrue : PgAppResult MqReturn → Bool
  | .ok (.bool b) => b
  | _ => false

def succeeded (token : String) (x : Nat × MqCall × PgAppResult MqReturn) : Bool :=
  x.2.1.op.spendsWith token && answeredTrue x.2.2

section
variable {token : String}

/-- a program and what its statements have spent -/
abbrev SpendSafe {α : Type} (token : String) (Q : PgAppResult α → Nat → Prop) (p : MqProg α)
    (n : Nat) : Prop :=
  Safe (fun _ _ => True) (Earns (fun _ _ _ _ => True) fun st r _ => spends token st r)
    (fun r x => True ∧ Q r x.2) p ((), n)

theorem spend_queueId_bind {α : Type} {Q : PgAppResult α → Nat → Prop} (n : String)
    {k : Int → MqProg α} (hk : ∀ q, SpendSafe token Q (k q) 0) (he : ∀ e, Q (.error e) 0) :
    SpendSafe token Q (queueId n >>= k) 0 := by
  unfold queueId
  cases hc : validateQueueName n with
  | error e => exact ⟨trivial, he e⟩
  | ok u =>
    refine ⟨trivial, fun r x hx => ?_⟩
    obtain rfl : x = ((), 0) := Prod.ext rfl hx.2
    cases r with
    | none => exact ⟨trivial, he _⟩
    | some q => exact hk q

theorem spend_check_bind {α β : Type} {Q : PgAppResult α → Nat → Prop} (r : PgAppResult β)
    {k : β → MqProg α} (hk : ∀ b, SpendSafe token Q (k b) 0) (he : ∀ e, Q (.error e) 0) :
    SpendSafe token Q (Prog.check r >>= k) 0 :=
  Safe.check_bind (fun b _ => hk b) fun e => ⟨trivial, he e⟩

theorem spend_ack (n : String) (id : Int) (t : String) :
    SpendSafe token (fun r γ => ∀ b, r = .ok b → t = token → b = true → 1 ≤ γ) (ack n id t) 0 := by
  refine spend_check_bind _ (fun _ => spend_queueId_bind n (fun q => ?_) ?_) ?_
  · refine ⟨trivial, fun k x hx => ⟨trivial, fun b hb ht hbt => ?_⟩⟩
    obtain rfl := Except.ok.inj hb
    have h1 : spends token (.ack q id t) k = 1 := if_pos ⟨ht, of_decide_eq_true hbt⟩
    have h2 : x.2 = 0 + spends token (.ack q id t) k := hx.2
    omega
  · exact fun e b hb => by cases hb
  · exact fun e b hb => by cases hb

theorem spend_archive (n : String) (id : Int) (t : String) :
    SpendSafe token (fun r γ => ∀ b, r = .ok b → t = token → b = true → 1 ≤ γ)
      (archive n id t) 0 := by
  refine spend_check_bind _ (fun _ => spend_queueId_bind n (fun q => ?_) ?_) ?_
  · refine ⟨trivial, fun _ x hx => ?_⟩
    obtain rfl : x = ((), 0) := Prod.ext rfl hx.2
    refine ⟨trivial, fun k x hx => ⟨trivial, fun _ y hy => ⟨trivial, fun b hb ht hbt => ?_⟩⟩⟩
    obtain rfl := Except.ok.inj hb
    have h1 : spends token (.archive q id t) k = 1 := if_pos ⟨ht, of_decide_eq_true hbt⟩
    have h2 : x.2 = 0 + spends token (.archive q id t) k := hx.2
    have h3 : y.2 = x.2 := hy.2
    omega
  · exact fun e b hb => by cases hb
  · exact fun e b hb => by cases hb

theorem spend_body (token : String) (call : MqCall) :
    SpendSafe token (fun r γ => (if succeeded token (0, call, r) then 1 else 0) ≤ γ)
      call.body 0 := by
  have hfin : ∀ (t : String) (b : Bool) (γ : Nat), (t = token → b = true → 1 ≤ γ) →
      (if ((t == token) && b) = true then 1 else 0) ≤ γ := by
    intro t b γ hγ
    split
    · rename_i hc
      rw [Bool.and_eq_true, beq_iff_eq] at hc
      exact hγ hc.1 hc.2
    · exact Nat.zero_le γ
  obtain ⟨store, op⟩ := call
  cases op with
  | ack n id t =>
    refine Safe.bind (spend_ack n id t) ?_ ?_
    · exact fun b x hx => ⟨trivial, hfin t b x.2 (hx.2 b rfl)⟩
    · exact fun e x _ => ⟨trivial, hfin t false x.2 fun _ hf => by cases hf⟩
  | archive n id t =>
    refine Safe.bind (spend_archive n id t) ?_ ?_
    · exact fun b x hx => ⟨trivial, hfin t b x.2 (hx.2 b rfl)⟩
    · exact fun e x _ => ⟨trivial, hfin t false x.2 fun _ hf => by cases hf⟩
  | _ => exact (Safe.trivial _ _).mono fun r x _ => ⟨trivial, Nat.zero_le _⟩

theorem spend_rules : Rules MqStmt.exec MqDb.empty (fun _ (_ : List MqEv) => True) (fun _ _ _ => ())
    (fun (_ : MqCall) _ _ => True) (fun _ _ _ _ _ => True) (fun _ => True) where
  first := trivial
  keep := fun _ _ _ _ _ _ _ _ _ _ _ => trivial
  own := fun _ _ _ _ _ _ _ _ _ _ _ => trivial
  other := fun _ _ _ _ _ _ _ _ _ _ _ _ _ => rfl
  init := fun _ => trivial

/-- **At most one `ack` or `archive` with a token answers true.** -/
theorem succeeded_once (token : String) {σ : MqSys} (hr : MqReach σ)
    (hnd : (issuedTokens σ.hist).Nodup) : (σ.done.filter (succeeded token)).length ≤ 1 := by
  have h1 := hr.credit spend_rules (fun _ _ _ (_ : True) => trivial)
    (fun _ st r _ => spends token st r)
    (fun e => spends token e.stmt e.res)
    (fun call r => if succeeded token (0, call, r) then 1 else 0)
    (fun _ _ _ _ _ _ _ _ => le_refl _) (fun call _ _ => spend_body token call)
  have h2 := (SpentOnce.of_reach token hr hnd).once
  have h3 : (σ.done.map fun x => if succeeded token (0, x.2.1, x.2.2) then 1 else 0).sum
      = (σ.done.filter (succeeded token)).length := by
    rw [← List.countP_eq_length_filter]
    induction σ.done with
    | nil => rfl
    | cons x l ih =>
      have hx : succeeded token (0, x.2.1, x.2.2) = succeeded token x := rfl
      rw [List.map_cons, List.sum_cons, List.countP_cons, ih, hx, Nat.add_comm]
  calc (σ.done.filter (succeeded token)).length
      = (σ.done.map fun x => if succeeded token (0, x.2.1, x.2.2) then 1 else 0).sum := h3.symm
    _ ≤ spent token σ.hist := h1
    _ ≤ 1 := h2

end

/-! ## the law of delivery tokens -/

/-- **A token is good for one delivery, and is spent once**, where PostgreSQL takes it and the
timeout (`Bindable`). -/
theorem mq_delivery_tokens (σ : MqSys) (hr : MqReach σ) (hnd : (issuedTokens σ.hist).Nodup) :
    (∀ s c st (r : MqStmt.Res st) db' q id token, st.tokenArgs = some (q, id, token) →
      st.Bindable (σ.db.now s c.now) → st.exec s c σ.db = some (r, db') →
      (0 < st.rows r ↔ Held σ.db σ.hist q id token (σ.db.now s c.now)) ∧
        (st.rows r = 0 → db' = σ.db)) ∧
    (∀ s call n id token b, call.op.tokenArgs = some (n, id, token) →
      σ.prog s = some (call, .ret (.ok (.bool b))) →
      ∃ h₁ h₂ c q st, ∃ k : MqStmt.Res st, ∃ db,
        σ.hist = h₁ ++ ⟨s, call, c, st, k, db⟩ :: h₂ ∧
        (∀ x ∈ h₁, x.sess = s → x.stmt = .commit) ∧ st.tokenArgs = some (q, id, token) ∧
        (∃ c' db', ⟨s, call, c', .selectQueueId n, some q, db'⟩ ∈ h₂) ∧
        (b = true ↔ Held db h₂ q id token (db.now s c.now)) ∧
        (b = false → ∃ db', st.exec s c db = some (k, db') ∧ db' = db)) ∧
    (∀ s call n id token q c, σ.prog s = none → call.op.tokenArgs = some (n, id, token) →
      call.tokenValid → call.op.Bindable c.now → σ.db.selectQueueId n = some q →
      AnswersAlone σ s c call q id token) ∧
    (∀ h₁ e h₂ id token deadline, σ.hist = h₁ ++ e :: h₂ →
      touchOf e id = .delivered token deadline → (∃ e' ∈ h₁, (touchOf e' id).renews = true) →
      ∀ q now, ¬ Held σ.db σ.hist q id token now) ∧
    (∀ token, (σ.done.filter (succeeded token)).length ≤ 1) := by
  refine ⟨?_, ?_, ?_, ?_, fun token => succeeded_once token hr hnd⟩
  · exact fun s c st r db' q id token hst _ hx => token_stmt (Stamped.of_reach hr) hst hx
  · exact fun s call n id token b hargs hp => token_call hr hargs hp
  · intro s call n id token q c hs hargs hv _ hq
    obtain ⟨store, op⟩ := call
    cases op with
    | ack n' id' token' =>
      obtain ⟨rfl, rfl, rfl⟩ : n' = n ∧ id' = id ∧ token' = token := by
        simpa [MqOp.tokenArgs] using hargs
      exact ack_alone hr hs hv c hq
    | archive n' id' token' =>
      obtain ⟨rfl, rfl, rfl⟩ : n' = n ∧ id' = id ∧ token' = token := by
        simpa [MqOp.tokenArgs] using hargs
      exact archive_alone hr hv c hq
    | setVisibilityTimeout n' id' token' t =>
      obtain ⟨rfl, rfl, rfl⟩ : n' = n ∧ id' = id ∧ token' = token := by
        simpa [MqOp.tokenArgs] using hargs
      exact setVisibilityTimeout_alone hr hs hv c hq
    | _ => exact absurd hargs (by simp [MqOp.tokenArgs])
  · intro h₁ e h₂ id token deadline hh ht hnew q now h
    obtain ⟨-, dl, hl, -⟩ := h
    rw [hh] at hl hnd
    exact stale_token hnd ht hnew dl hl

/-- one message sent and delivered -/
def oneDelivery : List (Act MqCall MqCtx) :=
  [.call 0 ⟨textStore, .createQueue "orders" .durable⟩, .stmt 0 (plainCtx 0), .ret 0,
   .call 0 ⟨textStore, .send "orders" "x" 0⟩, .stmt 0 (plainCtx 1), .stmt 0 (plainCtx 2),
   .stmt 0 (plainCtx 3), .stmt 0 (plainCtx 4), .stmt 0 (plainCtx 5), .ret 0,
   .call 1 ⟨textStore, .read "orders" 1 30⟩, .stmt 1 (plainCtx 6), .stmt 1 (plainCtx 7),
   .stmt 1 (plainCtx 8), .ret 1]

theorem mq_delivery_tokens_oneDelivery :
    ∃ σ : MqSys, (Sys.init MqDb.empty).play MqStmt.exec MqCall.body oneDelivery = some σ ∧
      issuedTokens σ.hist = ["token-1-8"] ∧
      AnswersAlone σ 1 (plainCtx 20) ⟨textStore, .ack "orders" 1 "token-1-8"⟩ 1 1 "token-1-8" := by
  have h : ((Sys.init MqDb.empty : MqSys).play MqStmt.exec MqCall.body oneDelivery).isSome := by rfl
  have htok : issuedTokens (Option.get _ h).hist = ["token-1-8"] := by rfl
  refine ⟨_, (Option.some_get h).symm, htok, ?_⟩
  have hr : MqReach (Option.get _ h) := Sys.play_steps (Option.some_get h).symm
  have hnd : (issuedTokens (Option.get _ h).hist).Nodup := by
    rw [htok]
    exact List.nodup_singleton _
  exact (mq_delivery_tokens _ hr hnd).2.2.1 1 ⟨textStore, .ack "orders" 1 "token-1-8"⟩ "orders" 1
    "token-1-8" 1 (plainCtx 20) rfl rfl ⟨by rfl, by rfl⟩
    (show storable "token-1-8" = true by decide) rfl

end PgApp
