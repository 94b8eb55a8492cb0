import PgApp.Interleave.Serial
import PgApp.Mq.Settled
import PgApp.Server.MqDropped

/-!
# What a consumer of the MQ service may rely on

Requests are given up, streams end, and several consumers read one queue.  Still a message is handed
out only when every promise about it has run out and nobody has settled it, a token works for the
last delivery alone and inside its window, it settles once, and a response holds nothing but what a
claim of that request was answered with.

* `ReadLog`        the claims behind the messages of a response;
* `serve_backed`   a request that may be given up, checked for the statements behind its response;
* `contract_net`   `Contract` at every statement of the service.

Main result: `mq_delivery`.
-/

namespace PgApp
open Interleave

/-! ## responses -/

/-- the messages a response hands over -/
def MqResponse.messages : MqResponse → List QueueMessage
  | .readMessages messages => messages
  | .stream responses _ => responses.flatten
  | _ => []

/-- each of the messages was answered by a claim of the call -/
def ReadLog (call : MqCall) (messages : List QueueMessage) (part : List MqEv) : Prop :=
  ∀ m ∈ messages, ∃ s c q n t ms db, (⟨s, call, c, .claim q n t, .ok ms, db⟩ : MqEv) ∈ part ∧ m ∈ ms

section
variable {call : MqCall} {messages more : List QueueMessage} {part new : List MqEv}

theorem ReadLog.nil (call : MqCall) (part : List MqEv) : ReadLog call [] part :=
  fun _ h => absurd h List.not_mem_nil

theorem ReadLog.append (h : ReadLog call messages part) (h' : ReadLog call more new) :
    ReadLog call (messages ++ more) (new ++ part) := by
  intro m hm
  rcases List.mem_append.mp hm with hm | hm
  · obtain ⟨s, c, q, n, t, ms, db, he, hms⟩ := h m hm
    exact ⟨s, c, q, n, t, ms, db, List.mem_append_right _ he, hms⟩
  · obtain ⟨s, c, q, n, t, ms, db, he, hms⟩ := h' m hm
    exact ⟨s, c, q, n, t, ms, db, List.mem_append_left _ he, hms⟩

theorem ReadLog.later (h : ReadLog call messages part) (new : List MqEv) :
    ReadLog call messages (new ++ part) := by
  have h1 := h.append (ReadLog.nil call new)
  rwa [List.append_nil] at h1

end

section
variable {svc : MqService} {job : Limited MqJob} {γ γ' : List MqEv}

/-- a program of the net, watched through the statements of the store it issues -/
abbrev NetOwn {ε α : Type} (svc : MqService) (job : Limited MqJob)
    (Q : Except ε α → List MqEv → Prop)
    (p : Prog NetStmt NetStmt.Res ε α) (γ : List MqEv) : Prop :=
  NetSafe (fun _ _ _ => True) OwnMove svc job Q p γ

theorem netOwn_grows {st : NetStmt} {r : st.Res} (hm : svc.part.Moves OwnMove job st r γ γ') :
    ∃ new, γ' = new ++ γ := by
  cases hs : svc.part.said st r with
  | none => exact ⟨[], hm.2 hs⟩
  | some x =>
    obtain ⟨s, c, db, he⟩ := hm.1 x hs
    exact ⟨[_], he⟩

theorem netOwn_extends {ε α : Type} (p : Prog NetStmt NetStmt.Res ε α) (γ : List MqEv) :
    NetOwn svc job (fun _ γ' => ∃ new, γ' = new ++ γ) p γ := by
  suffices hall : ∀ γ', (∃ new, γ' = new ++ γ) →
      NetOwn svc job (fun _ γ' => ∃ new, γ' = new ++ γ) p γ' from hall γ ⟨[], rfl⟩
  induction p with
  | ret r => exact fun γ' hγ => hγ
  | exec st k ih =>
    intro γ' hγ
    refine ⟨fun _ _ _ => trivial, fun r γ'' hm => ih r γ'' ?_⟩
    obtain ⟨new, rfl⟩ := hγ
    obtain ⟨more, rfl⟩ := netOwn_grows hm
    exact ⟨more ++ new, (List.append_assoc more new γ).symm⟩

theorem netOwn_store {α : Type} {Q : PgAppResult α → List MqEv → Prop} {p : MqProg α}
    (h : OwnSafe (svc.callOf job) Q p []) (γ : List MqEv) :
    NetOwn svc job (fun r γ' => ∃ new, γ' = new ++ γ ∧ Q r new) (onNet p) γ :=
  NetSafe.onNet (OwnSafe.after h γ)

theorem netOwn_read (n : String) (quantity timeout : Int) (γ : List MqEv) :
    NetOwn svc job (fun r γ' => ∃ new, γ' = new ++ γ ∧
      ∀ messages, r = .ok messages → ReadLog (svc.callOf job) messages new)
      (onNet (svc.grpc.store.read n quantity timeout)) γ :=
  netOwn_store (Q := fun r new => ∀ messages, r = .ok messages →
    ReadLog (svc.callOf job) messages new)
    (read_safe svc.grpc.store n quantity timeout []) γ

/-! ## the loops -/

/-- a result with its messages, after some statements -/
def Reading {ε : Type} (call : MqCall) (γ₀ : List MqEv) (r : Except ε (List QueueMessage))
    (γ : List MqEv) : Prop :=
  ∃ new, γ = new ++ γ₀ ∧ ∀ messages, r = .ok messages → ReadLog call messages new

theorem Reading.none {ε : Type} (call : MqCall) {γ₀ : List MqEv} (h : ∃ new, γ = new ++ γ₀) :
    Reading call γ₀ (.ok [] : Except ε (List QueueMessage)) γ := by
  obtain ⟨new, rfl⟩ := h
  refine ⟨new, rfl, fun messages hm => ?_⟩
  obtain rfl := Except.ok.inj hm
  exact ReadLog.nil call new

theorem grown_trans {γ₀ γ₁ γ₂ : List MqEv} (h₁ : ∃ new, γ₁ = new ++ γ₀)
    (h₂ : ∃ new, γ₂ = new ++ γ₁) :
    ∃ new, γ₂ = new ++ γ₀ := by
  obtain ⟨a, rfl⟩ := h₁
  obtain ⟨b, rfl⟩ := h₂
  exact ⟨b ++ a, (List.append_assoc b a γ₀).symm⟩

/-- a round that finds nothing leaves nothing to account for, so the last read has all the
messages -/
theorem notifyLoop_reads (n : String) (quantity timeout : Int) (interval deadline : Time)
    (rounds : Nat)
    (listening : Bool) {γ₀ γ : List MqEv} (hγ : ∃ new, γ = new ++ γ₀) :
    NetOwn svc job (Reading (svc.callOf job) γ₀)
      (svc.grpc.store.notifyLoop n quantity timeout interval deadline rounds listening) γ := by
  induction rounds generalizing listening γ with
  | zero =>
    exact ⟨fun _ _ _ => trivial, fun r γ' hm => Reading.none _ (grown_trans hγ (netOwn_grows hm))⟩
  | succ rounds ih =>
    refine Safe.bind (netOwn_read n quantity timeout γ) (fun messages γ₁ hr => ?_) fun e γ₁ hr => ?_
    · obtain ⟨new, hγ₁, hlog⟩ := hr
      have hg₁ := grown_trans hγ ⟨new, hγ₁⟩
      show NetOwn svc job _ (if messages.isEmpty then _ else _) γ₁
      split
      · rename_i hemp
        refine ⟨fun _ _ _ => trivial, fun now γ₂ hm => ?_⟩
        have hg₂ := grown_trans hg₁ (netOwn_grows hm)
        show NetOwn svc job _ (if deadline ≤ now then _ else _) γ₂
        split
        · rw [List.isEmpty_iff.mp hemp]
          exact Reading.none _ hg₂
        · refine ⟨fun _ _ _ => trivial, fun now γ₃ hm => ?_⟩
          have hg₃ := grown_trans hg₂ (netOwn_grows hm)
          show NetOwn svc job _ (if min (max (deadline - now) 0) interval = 0 then _ else _) γ₃
          split
          · exact Reading.none _ hg₃
          · refine Safe.bind (netOwn_extends _ γ₃) (fun b γ₄ h4 => ih b (grown_trans hg₃ h4))
              fun e γ₄ h4 => ?_
            obtain ⟨all, hall⟩ := grown_trans hg₃ h4
            exact ⟨all, hall, fun _ he => by cases he⟩
      · obtain ⟨a, rfl⟩ := hγ
        refine ⟨new ++ a, by rw [hγ₁, List.append_assoc], fun messages' he => ?_⟩
        obtain rfl := Except.ok.inj he
        exact (ReadLog.nil _ a).append (hlog messages rfl)
    · obtain ⟨new, hγ₁, -⟩ := hr
      obtain ⟨all, hall⟩ := grown_trans hγ ⟨new, hγ₁⟩
      exact ⟨all, hall, fun _ he => by cases he⟩

/-- a response with its messages, after some statements -/
def Responding {ε : Type} (call : MqCall) (γ₀ : List MqEv) (r : Except ε MqResponse)
    (γ : List MqEv) :
    Prop :=
  ∃ new, γ = new ++ γ₀ ∧ ∀ response, r = .ok response → ReadLog call response.messages new

theorem Responding.error {ε : Type} (call : MqCall) {γ₀ : List MqEv} (e : ε)
    (h : ∃ new, γ = new ++ γ₀) : Responding call γ₀ (.error e) γ := by
  obtain ⟨new, hnew⟩ := h
  exact ⟨new, hnew, fun _ he => by cases he⟩

/-- the responses so far, and those to come -/
theorem streamLoop_reads (n : String) (quantity timeout : Int) (rounds : Nat) (listening : Bool)
    (responses : List (List QueueMessage)) {γ₀ : List MqEv} (done : List MqEv)
    (hdone : ReadLog (svc.callOf job) responses.flatten done) :
    NetOwn svc job (Responding (svc.callOf job) γ₀)
      (svc.grpc.store.streamLoop n quantity timeout rounds listening responses) (done ++ γ₀) := by
  induction rounds generalizing listening responses done with
  | zero =>
    refine ⟨done, rfl, fun response he => ?_⟩
    obtain rfl := Except.ok.inj he
    exact hdone
  | succ rounds ih =>
    have hread : NetOwn svc job (fun (r : Except PgAppError (PgAppResult (List QueueMessage))) γ' =>
        ∃ new, γ' = new ++ (done ++ γ₀) ∧
          ∀ messages, r = .ok (.ok messages) → ReadLog (svc.callOf job) messages new)
        ((onNet (svc.grpc.store.read n quantity timeout)).mapResult Except.ok) (done ++ γ₀) := by
      refine Safe.mapResult (netOwn_read n quantity timeout _) fun r γ' hr => ?_
      obtain ⟨new, h1, h2⟩ := hr
      exact ⟨new, h1, fun messages he => h2 messages (Except.ok.inj he)⟩
    refine Safe.bind hread (fun r γ₁ hr => ?_) fun e γ₁ hr => ?_
    · obtain ⟨new, rfl, hlog⟩ := hr
      rw [← List.append_assoc]
      cases r with
      | error e =>
        refine ⟨new ++ done, rfl, fun response he => ?_⟩
        obtain rfl := Except.ok.inj he
        exact hdone.later new
      | ok messages =>
        show NetOwn svc job _ (if messages.isEmpty then _ else _) _
        split
        · refine Safe.bind (netOwn_extends _ _) (fun b γ₂ h2 => ?_) fun e γ₂ h2 => ?_
          · obtain ⟨more, rfl⟩ := h2
            rw [← List.append_assoc]
            exact ih b responses _ ((hdone.later new).later more)
          · obtain ⟨more, rfl⟩ := h2
            exact Responding.error _ e ⟨more ++ (new ++ done), (List.append_assoc ..).symm⟩
        · refine ih listening _ _ ?_
          rw [List.flatten_concat]
          exact hdone.append (hlog messages rfl)
    · obtain ⟨new, rfl, -⟩ := hr
      exact Responding.error _ e ⟨new ++ done, (List.append_assoc ..).symm⟩

/-! ## a job -/

/-- what a call that takes a token answers is what its statement with the token has done, to the
queue it had looked up -/
def TokenLog (call : MqCall) (response : MqResponse) (part : List MqEv) : Prop :=
  ∀ n id token, call.op.tokenArgs = some (n, id, token) →
    ∃ b, response = .operationResult b ∧ ∃ s c q st, ∃ k : MqStmt.Res st, ∃ db,
      (⟨s, call, c, st, k, db⟩ : MqEv) ∈ part ∧ st.tokenArgs = some (q, id, token) ∧
      b = decide (0 < st.rows k) ∧
      ∃ s' c' db', (⟨s', call, c', .selectQueueId n, some q, db'⟩ : MqEv) ∈ part

/-- a response with the statements behind it -/
structure Backed (call : MqCall) (response : MqResponse) (part : List MqEv) : Prop where
  messages : ReadLog call response.messages part
  token : TokenLog call response part

/-- a program with its response, after some statements -/
def Answering {ε : Type} (call : MqCall) (γ₀ : List MqEv) (r : Except ε MqResponse)
    (γ : List MqEv) :
    Prop :=
  ∃ new, γ = new ++ γ₀ ∧ ∀ response, r = .ok response → Backed call response new

theorem Answering.error {ε : Type} (call : MqCall) {γ₀ : List MqEv} (e : ε)
    (h : ∃ new, γ = new ++ γ₀) : Answering call γ₀ (.error e) γ := by
  obtain ⟨new, hnew⟩ := h
  exact ⟨new, hnew, fun _ he => by cases he⟩

theorem Answering.mapError {ε ε' : Type} {f : ε → ε'} {call : MqCall} {γ₀ : List MqEv}
    {r : Except ε MqResponse} (h : Answering call γ₀ r γ) : Answering call γ₀ (r.mapError f) γ := by
  obtain ⟨new, h1, h2⟩ := h
  refine ⟨new, h1, fun response he => ?_⟩
  cases r with
  | ok response' => exact h2 response (congrArg Except.ok (Except.ok.inj he))
  | error e => cases he

theorem Responding.answering {ε : Type} {call : MqCall} {γ₀ : List MqEv} {r : Except ε MqResponse}
    (h : Responding call γ₀ r γ) (hargs : call.op.tokenArgs = none) : Answering call γ₀ r γ := by
  obtain ⟨new, h1, h2⟩ := h
  refine ⟨new, h1, fun response he => ⟨h2 response he, fun n id token ha => ?_⟩⟩
  rw [hargs] at ha
  cases ha

theorem response_messages (r : MqReturn) : r.response.messages = returnedMessages (.ok r) := by
  cases r <;> rfl

theorem token_bool (call : MqCall) (h : call.op.tokenArgs ≠ none) (γ : List MqEv) :
    OwnSafe call (fun r _ => ∀ a, r = .ok a → ∃ b, a = .bool b) call.body γ := by
  have hbool : ∀ p : MqProg Bool, OwnSafe call
    (fun r _ => ∀ a, r = .ok a → ∃ b, a = MqReturn.bool b)
      (p >>= fun b => pure (.bool b)) γ := by
    intro p
    refine Safe.bind (Safe.trivial p γ) (fun b γ' _ a ha => ?_) fun e γ' _ a ha => by cases ha
    obtain rfl := Except.ok.inj ha
    exact ⟨b, rfl⟩
  obtain ⟨store, op⟩ := call
  cases op with
  | ack n id token => exact hbool _
  | archive n id token => exact hbool _
  | setVisibilityTimeout n id token timeout => exact hbool _
  | _ => exact absurd rfl h

theorem body_backed (call : MqCall) :
    OwnSafe call (fun r new => ∀ a, r = .ok a → Backed call a.response new) call.body [] := by
  have hread := read_body call []
  have hbacked : ∀ r γ, ReadAnswer call (.ok (returnedMessages r)) γ →
      (∀ a, r = .ok a → TokenLog call a.response γ) → ∀ a, r = .ok a →
          Backed call a.response γ := by
    intro r γ h1 h2 a ha
    refine ⟨?_, h2 a ha⟩
    rw [response_messages, ← ha]
    exact h1 _ rfl
  by_cases hargs : call.op.tokenArgs = none
  · refine hread.mono fun r γ h1 => hbacked r γ h1 fun a _ n id token he => ?_
    rw [hargs] at he
    cases he
  · refine (hread.and ((own_body call []).and (token_bool call hargs []))).mono fun r γ h => ?_
    obtain ⟨h1, h2, h3⟩ := h
    refine hbacked r γ h1 fun a ha n id token he => ?_
    obtain ⟨b, rfl⟩ := h3 a ha
    obtain ⟨γ₁, γ₂, s, c, q, st, k, db, rfl, -, hst, hb, s', c', db', hsel⟩ := h2 n id token b he ha
    exact ⟨b, rfl, s, c, q, st, k, db, List.mem_append_right _ List.mem_cons_self, hst, hb,
      s', c', db',
      List.mem_append_right _ (List.mem_cons_of_mem _ hsel)⟩

theorem perform_backed (job : Limited MqJob) (γ₀ : List MqEv) :
    NetOwn svc job (Answering (svc.callOf job) γ₀)
      (svc.perform job.op.rounds (svc.taskOf job.op)) γ₀ := by
  cases ht : svc.taskOf job.op with
  | call op =>
    have hcall : svc.callOf job = ⟨svc.grpc.store, op⟩ := by
      unfold MqService.callOf
      rw [ht]
      rfl
    have hbody : OwnSafe (svc.callOf job)
        (fun r new => ∀ a, r = .ok a → Backed (svc.callOf job) a.response new)
        (MqCall.body ⟨svc.grpc.store, op⟩) [] := by
      rw [hcall]
      exact body_backed ⟨svc.grpc.store, op⟩
    refine Safe.bind (netOwn_store hbody γ₀) (fun r γ' hr => ?_) fun e γ' hr => ?_
    · obtain ⟨new, hγ, hlog⟩ := hr
      refine ⟨new, hγ, fun response he => ?_⟩
      obtain rfl := Except.ok.inj he
      exact hlog r rfl
    · obtain ⟨new, hγ, -⟩ := hr
      exact Answering.error _ e ⟨new, hγ⟩
  | longPoll n quantity timeout maxPoll interval =>
    have hargs : (svc.callOf job).op.tokenArgs = none := by
      unfold MqService.callOf
      rw [ht]
      rfl
    have hpoll : NetOwn svc job (Reading (svc.callOf job) γ₀)
        (svc.grpc.store.listeningPoll n quantity timeout maxPoll interval job.op.rounds) γ₀ := by
      unfold MqStore.listeningPoll
      split
      · exact ⟨[], rfl, fun _ he => by cases he⟩
      · refine ⟨fun _ _ _ => trivial, fun now γ₁ hm => ⟨fun _ _ _ => trivial, fun b γ₂ hm₂ => ?_⟩⟩
        exact notifyLoop_reads n quantity timeout _ _ job.op.rounds b
          (grown_trans (netOwn_grows hm) (netOwn_grows hm₂))
    refine Safe.bind hpoll (fun messages γ' hr => ?_) fun e γ' hr => ?_
    · obtain ⟨new, hγ, hlog⟩ := hr
      refine Responding.answering ⟨new, hγ, fun response he => ?_⟩ hargs
      obtain rfl := Except.ok.inj he
      exact hlog messages rfl
    · obtain ⟨new, hγ, -⟩ := hr
      exact Answering.error _ e ⟨new, hγ⟩
  | stream n quantity timeout =>
    have hargs : (svc.callOf job).op.tokenArgs = none := by
      unfold MqService.callOf
      rw [ht]
      rfl
    refine Safe.bind (netOwn_extends (svc.listen n) γ₀) (fun b γ' hr => ?_) fun e γ' hr =>
      Answering.error _ e hr
    obtain ⟨new, rfl⟩ := hr
    exact (streamLoop_reads n quantity timeout job.op.rounds b [] new (ReadLog.nil _ new)).mono
      fun r γ' h => h.answering hargs

theorem serve_backed (job : Limited MqJob) (γ₀ : List MqEv) :
    NetOwn svc job (Answering (svc.callOf job) γ₀) (svc.serve job) γ₀ := by
  have hall : NetOwn svc job (Answering (svc.callOf job) γ₀) (svc.handler job.op) γ₀ :=
    mqHandler_safe (perform_backed job γ₀) (fun status => Answering.error _ status ⟨[], rfl⟩)
      fun _ _ hr => hr.mapError
  refine Safe.limited (fun _ => False) (I := fun _ γ => ∃ new, γ = new ++ γ₀) ⟨?_, ?_⟩
    (fun _ _ hf => hf.elim) ?_ (fun r γ hr => ⟨hr, fun hs => hs.elim fun _ hf => hf.elim⟩) hall
    (Prog.Last.of_avoids (Prog.Avoids.all (fun _ hf => hf) _)) ⟨[], rfl⟩ job.limit
  · exact fun γ hγ => Answering.error _ timedOut hγ
  · exact fun γ hγ => ⟨fun _ _ _ => trivial, fun r γ' hm =>
      Answering.error _ timedOut (grown_trans hγ (netOwn_grows hm))⟩
  · exact fun isOpen st γ r γ' _ hγ _ hm => grown_trans hγ (netOwn_grows hm)

end

/-! ## the run -/

section
variable {svc : MqService} {σ : MqServiceSys}

theorem backed_net (hr : MqServiceReach svc σ) (s : Nat) :
    ∃ run parts, ownEvents s (svc.part.history σ.hist) = run ++ parts.flatten ∧
      List.Forall₂ (fun x part => ∀ response, x.2.2 = .ok response →
        Backed (svc.callOf x.2.1) response part) (σ.done.filter (·.1 == s)) parts := by
  obtain ⟨run, parts, h1, h2, -⟩ := hr.logged
    (svc.part.rules (ownEvents_rules MqStmt.exec MqDb.empty fun _ _ _ => True) rfl) id
    (fun job st r γ γ' hm => netOwn_grows hm)
    (fun job r part => ∀ response, r = .ok response → Backed (svc.callOf job) response part)
    (fun job γ _ => (serve_backed job γ).mono fun r γ' h => ⟨trivial, h⟩) s rfl
  exact ⟨run, parts, h1, h2⟩

/-- the statement was executed -/
def Ran (e : MqEv) : Prop := ∃ db', e.stmt.exec e.sess e.ctx e.pre = some (e.res, db')

/-- `Contract` at every statement of the service -/
theorem contract_net (hr : MqServiceReach svc σ) :
    Contract σ.db.mq (svc.part.history σ.hist) ∧
      Always (fun e h => Contract e.pre h ∧ Ran e ∧
        (e.stmt.auto = true → e.pre.txs.get e.sess = none))
        (svc.part.history σ.hist) := by
  have hauto := (openTx_net hr).2
  have h0 : Contract (svc.part.get MqNet.empty) [] := Contract.empty
  have hstep : ∀ db h s op c st r db', Contract db h ∧ Always (fun e _ => Ran e) h →
      (st.auto = true → db.txs.get s = none) → MqStmt.exec s c st db = some (r, db') →
      Contract db' (⟨s, op, c, st, r, db⟩ :: h) ∧
        Always (fun e _ => Ran e) (⟨s, op, c, st, r, db⟩ :: h) :=
    fun db h s op c st r db' K ha hx => ⟨K.1.step ha hx, ⟨db', hx⟩, K.2⟩
  have hnow := Part.invariant_of (π := svc.part)
    (fun e _ => e.stmt.auto = true → e.pre.txs.get e.sess = none)
    (fun db h => Contract db h ∧ Always (fun e _ => Ran e) h) ⟨h0, trivial⟩ hstep hr hauto
  have hpast := Part.before_of (π := svc.part)
    (fun e _ => e.stmt.auto = true → e.pre.txs.get e.sess = none)
    (fun db h => Contract db h ∧ Always (fun e _ => Ran e) h) ⟨h0, trivial⟩ hstep hr hauto
  exact ⟨hnow.1, (hpast.and (hnow.2.and hauto)).mono fun e h he => ⟨he.1.1, he.2.1, he.2.2⟩⟩

/-- **What a consumer may rely on, whatever is dropped.**  In every run of the service whose clock
does not go back: a message is handed out only when every promise about it has run out, after it was
sent and never after an `ack` or `archive` of it has succeeded; a statement with a token, if
PostgreSQL takes it, affects a row exactly while the token is the one of the last delivery and its
window is open; tokens that are never issued twice settle one message once; and behind every response
stand the statements of its own request, the claims of the messages it holds and the statement its
token was used in. -/
theorem mq_delivery (svc : MqService) (σ : MqServiceSys) (hr : MqServiceReach svc σ)
    (hclock : Always ClockRuns (svc.part.history σ.hist)) :
    (∀ h₁ h₂ s op c q n t ms db,
      svc.part.history σ.hist = h₁ ++ ⟨s, op, c, .claim q n t, .ok ms, db⟩ :: h₂ →
      ∀ m ∈ ms, ((promise h₂ m.id).moved = false ∧
          (∀ dl, (promise h₂ m.id).deadline = some dl → dl ≤ c.now) ∧
          ∀ a, (promise h₂ m.id).available = some a → a ≤ c.now) ∧
        (∀ e ∈ h₂, ¬ settles m.id e.stmt e.res) ∧ m.id ∈ sentIds h₂) ∧
    (∀ h₁ h₂ s op c st r db q id token, svc.part.history σ.hist = h₁ ++
      ⟨s, op, c, st, r, db⟩ :: h₂ →
      st.tokenArgs = some (q, id, token) → st.Bindable (db.now s c.now) →
      (0 < st.rows r ↔ Held db h₂ q id token (db.now s c.now))) ∧
    ((issuedTokens (svc.part.history σ.hist)).Nodup →
      ∀ token, spent token (svc.part.history σ.hist) ≤ 1) ∧
    ∀ s, ∃ run parts, ownEvents s (svc.part.history σ.hist) = run ++ parts.flatten ∧
      List.Forall₂ (fun x part => ∀ response, x.2.2 = .ok response →
        Backed (svc.callOf x.2.1) response part) (σ.done.filter (·.1 == s)) parts := by
  obtain ⟨K, hall⟩ := contract_net hr
  refine ⟨?_, ?_, fun hnd token => (K.spent hnd token).once, fun s => backed_net hr s⟩
  · intro h₁ h₂ s op c q n t ms db he m hm
    rw [he] at hall hclock
    obtain ⟨K₂, ⟨db', hx⟩, hauto⟩ := hall.head
    exact K₂.claim (hauto rfl) hx hclock.head hm
  · intro h₁ h₂ s op c st r db q id token he hst _
    rw [he] at hall
    obtain ⟨K₂, ⟨db', hx⟩, -⟩ := hall.head
    exact (token_stmt K₂.stamped hst hx).1

end

/-- a delivery whose answer nobody waits for, the next one when its window is over, and the `ack` -/
def deliveryGivenUp : List (Act (Limited MqJob) NetCtx) :=
  [.call 0 (asked (.createQueue "orders" 0) none), .stmt 0 (netCtx 0), .ret 0,
   .call 0 (asked (.send "orders" "x" 0) none), .stmt 0 (netCtx 1), .stmt 0 (netCtx 2),
   .stmt 0 (netCtx 3), .stmt 0 (netCtx 4), .stmt 0 (netCtx 5), .ret 0,
   .call 1 (asked (.read "orders" 1 30) (some 3)), .stmt 1 (netCtx 6), .stmt 1 (netCtx 7),
   .stmt 1 (netCtx 8), .ret 1,
   .call 2 (asked (.read "orders" 1 30) none), .stmt 2 (netCtx 40000000), .stmt 2 (netCtx 40000001),
   .stmt 2 (netCtx 40000002), .ret 2,
   .call 2 (asked (.ack "orders" 1 "token-1-40000002") none), .stmt 2 (netCtx 40000003),
   .stmt 2 (netCtx 40000004), .ret 2]

theorem mq_delivery_deliveryGivenUp :
    ∃ σ : MqServiceSys,
      (Sys.init MqNet.empty).play NetStmt.exec notifying.serve deliveryGivenUp = some σ ∧
      issuedTokens (notifying.part.history σ.hist) = ["token-1-40000002", "token-1-8"] ∧
      spent "token-1-40000002" (notifying.part.history σ.hist) ≤ 1 ∧
      ∃ part, Backed (notifying.callOf (asked (.ack "orders" 1 "token-1-40000002") none))
        (.operationResult true) part := by
  have h : ((Sys.init MqNet.empty : MqServiceSys).play NetStmt.exec notifying.serve
    deliveryGivenUp).map
      (fun σ => (decide (Always ClockRuns (notifying.part.history σ.hist)),
        issuedTokens (notifying.part.history σ.hist), (σ.done.filter (·.1 == 2)).head?))
      = some (true, ["token-1-40000002", "token-1-8"],
        some (2, asked (.ack "orders" 1 "token-1-40000002") none,
          .ok (.operationResult true))) := by rfl
  obtain ⟨σ, hσ, he⟩ := Option.map_eq_some_iff.mp h
  obtain ⟨h1, h2⟩ := Prod.mk.inj he
  obtain ⟨h3, h4⟩ := Prod.mk.inj h2
  have hclock : Always ClockRuns (notifying.part.history σ.hist) := of_decide_eq_true h1
  obtain ⟨-, -, h5, h6⟩ := mq_delivery notifying σ (Sys.play_steps hσ) hclock
  obtain ⟨run, parts, -, hall⟩ := h6 2
  obtain ⟨part, -, hp⟩ := exists_part hall (List.mem_of_head? h4)
  refine ⟨σ, hσ, h3, h5 ?_ _, part, hp _ rfl⟩
  rw [h3]
  decide

end PgApp
