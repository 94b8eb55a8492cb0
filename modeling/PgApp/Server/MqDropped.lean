import PgApp.Mq.SendRun
import PgApp.Server.Listening

/-!
# Requests that are given up

`record_rpc` drops the work of a request that takes too long, a disconnect drops it too, and nothing
is undone but the transaction that is open.  So whatever is said of the store has to hold of runs
where any job stops after any of its statements.

* `openTx_serve`    a job leaves no transaction behind, whenever it is dropped;
* `pending_tx`      NOTIFYs wait exactly where a transaction is open;
* `sends_serve`     a send that is dropped has added all of its messages or none.

Main result: `mq_dropped`.
-/

namespace PgApp
open Interleave

theorem brackets_after (st : MqStmt) (isOpen : Bool) :
    NetStmt.brackets.after isOpen (.mq st) = openAfter st isOpen := by
  unfold Brackets.after NetStmt.brackets openAfter
  cases st <;> simp

section
variable {svc : MqService} {Γ : Type} {P : MqCall → MqStmt → Γ → Prop}
variable {T : MqCall → (st : MqStmt) → st.Res → Γ → Γ → Prop} {job : Limited MqJob}

/-- a program of the net, checked against a view of the store -/
abbrev NetSafe {ε α : Type} (P : MqCall → MqStmt → Γ → Prop)
    (T : MqCall → (st : MqStmt) → st.Res → Γ → Γ → Prop) (svc : MqService) (job : Limited MqJob)
    (Q : Except ε α → Γ → Prop) (p : Prog NetStmt NetStmt.Res ε α) (γ : Γ) : Prop :=
  Safe (svc.part.Allows P job) (svc.part.Moves T job) Q p γ

theorem NetSafe.onNet {α : Type} {Q : PgAppResult α → Γ → Prop} {p : MqProg α} {γ : Γ}
    (h : Safe (P (svc.callOf job)) (T (svc.callOf job)) Q p γ) :
        NetSafe P T svc job Q (onNet p) γ :=
  Safe.part (π := svc.part) (fun _ _ => rfl) h

end

/-! ## no transaction is left behind -/

section
variable {svc : MqService} {job : Limited MqJob}

/-- a program of the net checked against its transaction discipline -/
abbrev NetTx {ε α : Type} (svc : MqService) (job : Limited MqJob) (p : Prog NetStmt NetStmt.Res ε α)
    (v : Bool) : Prop :=
  NetSafe (fun _ st v => st.auto = true → v = false)
    (fun _ st _ v v' => v' = openAfter st v) svc job
    (fun _ v => v = false) p v

theorem netTx_auto {st : MqStmt} (hst : st.auto = true) {v : Bool} (hv : v = false) :
    svc.part.Allows (fun _ st v => st.auto = true → v = false) job (.mq st) v ∧
      ∀ r v', svc.part.Moves (fun _ st _ v v' => v' = openAfter st v) job (.mq st) r v v' →
        v' = false := by
  refine ⟨fun r x _ _ => hv, fun r v' hm => ?_⟩
  have h1 : v' = openAfter st v := hm.1 _ rfl
  rw [h1, hv]
  cases st <;> first | rfl | exact absurd hst (by decide)

theorem netTx_apart {st : NetStmt} (hst : ∀ r, st.said r = none) {v : Bool} (hv : v = false) :
    svc.part.Allows (fun _ st v => st.auto = true → v = false) job st v ∧
      ∀ r v', svc.part.Moves (fun _ st _ v v' => v' = openAfter st v) job st r v v' →
          v' = false := by
  refine ⟨fun r x hx => ?_, fun r v' hm => (hm.2 (hst r)).trans hv⟩
  rw [show svc.part.said st r = none from hst r] at hx
  cases hx

theorem netTx_listening (store : MqStore) (n : String) (quantity timeout : Int) :
    Listening store n quantity timeout
      (svc.part.Allows (fun _ st v => st.auto = true → v = false) job)
      (svc.part.Moves (fun _ st _ v v' => v' = openAfter st v) job)
      (fun _ v => v = false) (fun _ v => v = false) (fun v => v = false) where
  read := by
    intro b v hv
    obtain rfl : v = false := hv
    have hread : NetTx svc job (onNet (store.read n quantity timeout)) false :=
      NetSafe.onNet (tx_read store n quantity timeout)
    exact hread.mono fun r v' hv' => ⟨hv', fun _ _ => ⟨hv', fun _ => hv'⟩⟩
  clock := fun _ _ hv => netTx_auto rfl hv
  pause := fun _ _ _ hv => netTx_auto rfl hv
  recv := fun _ _ hv => ⟨(netTx_apart (fun _ => rfl) hv).1, fun r v' hm =>
    ⟨fun _ => (netTx_apart (fun _ => rfl) hv).2 r v' hm, fun _ =>
      (netTx_apart (fun _ => rfl) hv).2 r v' hm⟩⟩
  idle := fun _ _ hv => netTx_auto rfl hv
  round := fun _ _ hv => hv
  empty := fun _ _ hv => hv

theorem netTx_perform (rounds : Nat) (task : MqTask) :
    NetTx svc job (svc.perform rounds task) false := by
  cases task with
  | call op =>
    have hcall : NetTx svc job (onNet (MqCall.body ⟨svc.grpc.store, op⟩)) false :=
      NetSafe.onNet (tx_body ⟨svc.grpc.store, op⟩)
    exact Safe.bind hcall (fun _ v hv => hv) fun _ v hv => hv
  | longPoll n quantity timeout maxPoll interval =>
    refine Safe.bind ((netTx_listening _ n quantity timeout).longPoll maxPoll interval rounds rfl
      (netTx_auto rfl rfl).1 fun now v hm => ?_) (fun _ v hv => hv) fun _ v hv => hv
    exact netTx_apart (fun _ => rfl) ((netTx_auto (rfl : MqStmt.utcNow.auto = true) rfl).2 now v hm)
  | stream n quantity timeout =>
    exact (netTx_listening _ n quantity timeout).stream rounds rfl (netTx_apart (fun _ => rfl) rfl)

theorem openTx_serve (job : Limited MqJob) : NetTx svc job (svc.serve job) false := by
  have h : NetTx svc job (svc.handler job.op) false :=
    mqHandler_safe (netTx_perform _ _) (fun _ => rfl) fun _ _ hv => hv
  refine Safe.limited (fun _ => False) (I := fun isOpen v => v = isOpen) ⟨fun v hv => hv, ?_⟩
    (fun _ _ hf => hf.elim) ?_ (fun r v hv => ⟨hv, fun hs => hs.elim fun _ hf => hf.elim⟩) h
    (Prog.Last.of_avoids (Prog.Avoids.all (fun _ hf => hf) _)) rfl job.limit
  · intro v hv
    refine ⟨fun r x hx hauto => ?_, fun r v' hm => ?_⟩
    · obtain rfl := Option.some.inj hx
      cases hauto
    · exact hm.1 _ rfl
  · intro isOpen st v r v' _ hv _ hm
    obtain rfl : v = isOpen := hv
    cases st with
    | mq st => exact (hm.1 _ rfl).trans (brackets_after st v).symm
    | connect n => exact (hm.2 rfl).trans (by cases v <;> rfl)
    | recv wait => exact (hm.2 rfl).trans (by cases v <;> rfl)

end

/-- between two jobs a session has no transaction open, and a statement that is its own transaction
found none -/
theorem openTx_net {svc : MqService} {σ : MqServiceSys} (hr : MqServiceReach svc σ) :
    (∀ s, σ.prog s = none → σ.db.mq.txs.get s = none) ∧
      Always (fun e _ => e.stmt.auto = true → e.pre.txs.get e.sess = none)
        (svc.part.history σ.hist) := by
  have h := hr.rely (svc.part.rules openTx_rules rfl) (fun _ _ _ hv => hv) (fun job v hv => by
    obtain rfl : v = false := hv
    exact openTx_serve job)
  refine ⟨fun s hs => ?_, Part.always_history (h.past.mono ?_)⟩
  · have h1 : (σ.db.mq.txs.get s).isSome = false := h.resting s hs
    simpa using h1
  · intro e l hl d hd hauto
    obtain ⟨-, hP, -⟩ := hl
    obtain ⟨x, hx, rfl⟩ := Option.map_eq_some_iff.mp hd
    have h1 := hP e.res x hx hauto
    simpa [openTx] using h1

theorem pending_tx {svc : MqService} {σ : MqServiceSys} (hr : MqServiceReach svc σ) (s : Nat) :
    (σ.db.pending.get s).isSome = (σ.db.mq.txs.get s).isSome := by
  refine hr.invariant (fun net _ => ∀ s, (net.pending.get s).isSome = (net.mq.txs.get s).isSome)
    (fun _ => rfl) ?_ s
  intro net h t job c st r net' ih hx s
  cases st with
  | connect n =>
    obtain ⟨h1, h2, -⟩ := exec_connect hx
    rw [h1, h2]
    exact ih s
  | recv wait =>
    obtain ⟨h1, h2, -⟩ := exec_recv hx
    rw [h1, h2]
    exact ih s
  | mq st =>
    obtain ⟨db, hdb, rfl⟩ := exec_net hx
    show ((net.told t st r).pending.get s).isSome = (db.txs.get s).isSome
    by_cases hts : s = t
    · subst hts
      have h1 := @openTx_own s ⟨svc.grpc.store, .sweepDlq 0⟩ c.mq st r net.mq db [] hdb
      unfold openTx at h1
      rw [MqNet.told_own, pendingAfter_isSome, ih s, h1]
    · rw [MqNet.told_other hts, exec_txs_other hts hdb]
      exact ih s

/-! ## sends -/

/-- the ids a send is answered with -/
def MqResponse.sent : MqResponse → Option (List Int)
  | .sendMessage messageId => some [messageId]
  | .sendBatch messageIds => some messageIds
  | _ => none

/-- what the statements of a job that sends have done, by its answer: a request that timed out has
added all of its messages or none -/
def SendOutcome (call : MqCall) (answer : Except Status MqResponse) (part : List MqEv) : Prop :=
  ∀ n payloads delay, call.op.sends = some (n, payloads, delay) →
    match answer with
    | .ok response => ∃ ids, response.sent = some ids ∧ BatchLogged call n payloads delay ids part
    | .error status => (∀ e ∈ part, KeepsMessages e) ∨
        status = timedOut ∧ ∃ ids, BatchLogged call n payloads delay ids part

/-- the same of a job that is not dropped -/
def HandlerLog (call : MqCall) (answer : Except Status MqResponse) (part : List MqEv) : Prop :=
  ∀ n payloads delay, call.op.sends = some (n, payloads, delay) →
    match answer with
    | .ok response => ∃ ids, response.sent = some ids ∧ BatchLogged call n payloads delay ids part
    | .error _ => ∀ e ∈ part, KeepsMessages e

theorem MqReturn.response_sent {answer : MqReturn} {ids : List Int} (h : answer.sent = some ids) :
    answer.response.sent = some ids := by
  cases answer with
  | id messageId => exact h
  | ids messageIds => exact h
  | _ => cases h

section
variable {svc : MqService} {job : Limited MqJob}

theorem call_of_sends (h : (svc.callOf job).op.sends ≠ none) :
    ∃ op, svc.taskOf job.op = .call op ∧ svc.callOf job = ⟨svc.grpc.store, op⟩ := by
  unfold MqService.callOf at h ⊢
  cases ht : svc.taskOf job.op with
  | call op => exact ⟨op, rfl, rfl⟩
  | longPoll n quantity timeout maxPoll interval =>
    rw [ht] at h
    exact absurd rfl h
  | stream n quantity timeout =>
    rw [ht] at h
    exact absurd rfl h

abbrev NetSend {ε α : Type} (svc : MqService) (job : Limited MqJob)
    (Q : Except ε α → BatchView → Prop)
    (p : Prog NetStmt NetStmt.Res ε α) (γ : BatchView) : Prop :=
  NetSafe SendIssues BatchMove svc job Q p γ

theorem handler_logs (h : (svc.callOf job).op.sends ≠ none) (γ : BatchView) :
    NetSend svc job (fun r γ' => ∃ new, γ'.2 = new ++ γ.2 ∧ HandlerLog (svc.callOf job) r new)
      (svc.handler job.op) γ := by
  obtain ⟨op, ht, hc⟩ := call_of_sends h
  have hbody : Safe (SendIssues (svc.callOf job)) (BatchMove (svc.callOf job))
      (fun r γ' => ∃ new, γ'.2 = new ++ γ.2 ∧ SendLog (svc.callOf job) r new)
      (MqCall.body ⟨svc.grpc.store, op⟩) γ := by
    rw [← hc]
    exact body_issues (svc.callOf job) γ
  refine mqHandler_safe (Q := fun r γ' => ∃ new, γ'.2 = new ++ γ.2 ∧
    HandlerLog (svc.callOf job) (r.mapError Status.ofError) new) ?_ ?_ fun r γ' hr => hr
  · rw [ht]
    refine Safe.bind (NetSafe.onNet hbody) (fun answer γ' hl => ?_) fun e γ' hl => hl
    obtain ⟨new, h1, h2⟩ := hl
    refine ⟨new, h1, fun n payloads delay he => ?_⟩
    obtain ⟨ids, h3, h4⟩ := h2 n payloads delay he
    exact ⟨ids, MqReturn.response_sent h3, h4⟩
  · exact fun status => ⟨[], rfl, fun _ _ _ _ _ he => absurd he List.not_mem_nil⟩

theorem handler_last (h : (svc.callOf job).op.sends ≠ none) :
    (svc.handler job.op).Last (· = .mq .commit) := by
  obtain ⟨op, ht, hc⟩ := call_of_sends h
  have hbody : (MqCall.body ⟨svc.grpc.store, op⟩).Last (· = .commit) := by
    rw [← hc]
    exact (body_closes (svc.callOf job) h).last
  have hnet : (onNet (MqCall.body ⟨svc.grpc.store, op⟩)).Last (· = .mq .commit) := by
    refine Prog.Last.lift NetStmt.mq _ (hbody.mono fun st hst => ?_)
    exact NetStmt.mq.inj hst
  have htask : (NetProg.orStatus (svc.perform job.op.rounds (svc.taskOf job.op))).Last
      (· = .mq .commit) := by
    rw [ht]
    refine Prog.Last.mapResult ?_
    show (onNet (MqCall.body ⟨svc.grpc.store, op⟩) >>= fun a => pure a.response).Last _
    rw [Prog.bind_pure_eq]
    exact hnet.mapResult
  unfold MqService.handler
  cases job.op.client with
  | request rq => exact Prog.Last.bind trivial fun _ => htask
  | store op => exact htask

theorem netSend_grows {st : NetStmt} {r : st.Res} {γ γ' : BatchView}
    (hm : svc.part.Moves BatchMove job st r γ γ') : ∃ new, γ'.2 = new ++ γ.2 := by
  cases hs : svc.part.said st r with
  | none => exact ⟨[], congrArg Prod.snd (hm.2 hs)⟩
  | some x =>
    obtain ⟨s, c, db, he, -⟩ := hm.1 x hs
    exact ⟨[_], he⟩

theorem netSend_extends {ε α : Type} (p : Prog NetStmt NetStmt.Res ε α) (γ : BatchView)
    (h : (svc.callOf job).op.sends = none) :
    NetSend svc job (fun _ γ' => ∃ new, γ'.2 = new ++ γ.2) p γ := by
  suffices hall : ∀ γ' : BatchView, (∃ new, γ'.2 = new ++ γ.2) →
      NetSend svc job (fun _ γ' => ∃ new, γ'.2 = new ++ γ.2) p γ' from hall γ ⟨[], rfl⟩
  induction p with
  | ret r => exact fun γ' hγ => hγ
  | exec st k ih =>
    intro γ' hγ
    refine ⟨fun r x _ hs => absurd h hs, fun r γ'' hm => ih r γ'' ?_⟩
    obtain ⟨new, h1⟩ := hγ
    obtain ⟨more, h2⟩ := netSend_grows hm
    exact ⟨more ++ new, by rw [h2, h1, List.append_assoc]⟩

theorem sends_serve (job : Limited MqJob) (γ : BatchView) :
    NetSend svc job (fun r γ' => ∃ new, γ'.2 = new ++ γ.2 ∧ SendOutcome (svc.callOf job) r new)
      (svc.serve job) γ := by
  by_cases h : (svc.callOf job).op.sends = none
  · refine (netSend_extends (svc.serve job) γ h).mono fun r γ' hr => ?_
    obtain ⟨new, hnew⟩ := hr
    refine ⟨new, hnew, fun n payloads delay he => ?_⟩
    rw [h] at he
    cases he
  · refine Safe.limited (· = .mq .commit) (I := fun _ γ' => Quietly γ.2 γ') ⟨?_, ?_⟩ ?_ ?_ ?_
      (handler_logs h γ) (handler_last h) (Quietly.refl γ) job.limit
    · intro γ' hq
      obtain ⟨new, h1, h2⟩ := hq
      exact ⟨new, h1, fun _ _ _ _ => .inl h2⟩
    · -- in the middle of its transaction: the rollback adds nothing either
      intro γ' hq
      refine ⟨fun r x hx _ => ?_, fun r γ'' hm => ?_⟩
      · obtain rfl := Option.some.inj hx
        exact fun hr => not_loud rfl hr.1
      · obtain ⟨s, c, db, he, -⟩ := hm.1 _ rfl
        obtain ⟨new, h1, h2⟩ := hq.cons he rfl
        exact ⟨new, h1, fun _ _ _ _ => .inl h2⟩
    · intro st isOpen hst
      subst hst
      exact brackets_after .commit isOpen
    · intro isOpen st γ' r γ'' hst hq hP hm
      cases st with
      | mq st =>
        obtain ⟨s, c, db, he, -⟩ := hm.1 _ rfl
        refine hq.cons he ?_
        by_contra hloud
        refine hP r _ rfl h ⟨Bool.not_eq_true _ ▸ hloud, fun hc => hst ?_⟩
        exact congrArg NetStmt.mq hc
      | connect n =>
        obtain rfl := hm.2 rfl
        exact hq
      | recv wait =>
        obtain rfl := hm.2 rfl
        exact hq
    · intro r γ' hr
      obtain ⟨new, h1, h2⟩ := hr
      refine ⟨⟨new, h1, fun n payloads delay he => ?_⟩,
        fun _ => ⟨new, h1, fun n payloads delay he => ?_⟩⟩
      · cases r with
        | ok response => exact h2 n payloads delay he
        | error status => exact .inl (h2 n payloads delay he)
      · cases r with
        | ok response =>
          obtain ⟨ids, -, h3⟩ := h2 n payloads delay he
          exact .inr ⟨rfl, ids, h3⟩
        | error status => exact .inl (h2 n payloads delay he)

end

theorem sends_net {svc : MqService} {σ : MqServiceSys} (hr : MqServiceReach svc σ) (s : Nat) :
    ∃ run parts, ownEvents s (svc.part.history σ.hist) = run ++ parts.flatten ∧
      List.Forall₂ (fun x part => SendOutcome (svc.callOf x.2.1) x.2.2 part)
        (σ.done.filter (·.1 == s)) parts := by
  obtain ⟨run, parts, h1, h2, -⟩ := hr.logged
    (svc.part.rules (batchView_rules.restrict fun op st γ (_ : SendIssues op st γ) => trivial) rfl)
    (fun γ => γ.2) (fun job st r γ γ' hm => netSend_grows hm)
    (fun job r part => SendOutcome (svc.callOf job) r part)
    (fun job γ _ => (sends_serve job γ).mono fun r γ' h => ⟨trivial, h⟩) s rfl
  exact ⟨run, parts, h1, h2⟩

/-! ## all of it -/

theorem exists_part {α β : Type} {Q : α → List β → Prop} {xs : List α} {parts : List (List β)}
    (h : List.Forall₂ Q xs parts) {x : α} (hx : x ∈ xs) : ∃ part ∈ parts, Q x part := by
  induction h with
  | nil => cases hx
  | @cons y part xs parts hq _ ih =>
    rcases List.mem_cons.mp hx with rfl | hx
    · exact ⟨part, List.mem_cons_self, hq⟩
    · obtain ⟨part', h1, h2⟩ := ih hx
      exact ⟨part', List.mem_cons_of_mem _ h1, h2⟩

theorem BatchLogged.sent {call : MqCall} {n : String} {payloads : List String} {delay : Int}
    {ids : List Int} {part : List MqEv} (h : BatchLogged call n payloads delay ids part) {id : Int}
    (hid : id ∈ ids) : id ∈ sentIds part := by
  rcases h with ⟨-, rfl, -⟩ | ⟨e, rest, q, vs, now, -, rfl, hst, htx, hp, hlen, -⟩
  · cases hid
  · obtain ⟨s, call', c, st, r, db⟩ := e
    obtain rfl : st = .commit := hst
    have htx' : db.txs.get s = some ⟨now, batchRows q delay now ids vs⟩ := htx
    have hids : db.pendingIds s = ids := by
      unfold MqDb.pendingIds
      rw [htx']
      exact batchRows_ids q delay now (hlen.trans hp.length_eq)
    rw [sentIds_cons]
    refine List.mem_append_left _ ?_
    show id ∈ db.pendingIds s
    rw [hids]
    exact hid

/-- what a send was answered with was committed, whatever else was dropped -/
theorem answered_sent {svc : MqService} {σ : MqServiceSys} (hr : MqServiceReach svc σ) {s : Nat}
    {job : Limited MqJob} {response : MqResponse} (hd : (s, job, .ok response) ∈ σ.done)
    (hsend : (svc.callOf job).op.sends ≠ none) :
    ∃ ids, response.sent = some ids ∧ ∀ id ∈ ids, id ∈ sentIds (svc.part.history σ.hist) := by
  obtain ⟨run, parts, hown, hall⟩ := sends_net hr s
  obtain ⟨part, hpart, hout⟩ := exists_part hall (List.mem_filter.mpr ⟨hd, by simp⟩)
  obtain ⟨⟨n, payloads, delay⟩, hop⟩ := Option.ne_none_iff_exists'.mp hsend
  obtain ⟨ids, hids, hlog⟩ := hout n payloads delay hop
  refine ⟨ids, hids, fun id hid => ?_⟩
  obtain ⟨e, he, hi⟩ := List.mem_flatMap.mp (hlog.sent hid)
  refine List.mem_flatMap.mpr ⟨e, ?_, hi⟩
  have hmem : e ∈ ownEvents s (svc.part.history σ.hist) := by
    rw [hown]
    exact List.mem_append_right _ (List.mem_flatten.mpr ⟨part, hpart, he⟩)
  exact List.mem_of_mem_filter hmem

/-- **Whatever is dropped, no message is lost or doubled.**  In every state that jobs of any number
of sessions can reach, each of them dropped at any point: a message lies in at most one table; one
that was sent lies in exactly one, unless it was removed, and so does one whose id a send was
answered with; and a session between two jobs has no transaction open and no NOTIFY waiting. -/
theorem mq_dropped (svc : MqService) (σ : MqServiceSys) (hr : MqServiceReach svc σ) :
    (∀ id, σ.db.mq.places.count id ≤ 1) ∧
    (∀ id ∈ sentIds (svc.part.history σ.hist), σ.db.mq.places.count id
      = if id ∈ removedIds (svc.part.history σ.hist) then 0 else 1) ∧
    (∀ s job response, (s, job, .ok response) ∈ σ.done → (svc.callOf job).op.sends ≠ none →
      ∃ ids, response.sent = some ids ∧ ∀ id ∈ ids, σ.db.mq.places.count id
        = if id ∈ removedIds (svc.part.history σ.hist) then 0 else 1) ∧
    ∀ s, σ.prog s = none → σ.db.mq.txs.get s = none ∧ σ.db.pending.get s = none := by
  have h0 : MqLedger (svc.part.get MqNet.empty) [] := MqLedger.empty
  have L : MqLedger (svc.part.get σ.db) (svc.part.history σ.hist) :=
    Part.invariant MqLedger h0 (fun _ _ _ _ _ _ _ _ L hx => L.step hx) hr
  refine ⟨L.places_le, fun id hid => L.places_of_sent hid, ?_, fun s hs => ?_⟩
  · intro s job response hd hsend
    obtain ⟨ids, h1, h2⟩ := answered_sent hr hd hsend
    exact ⟨ids, h1, fun id hid => L.places_of_sent (h2 id hid)⟩
  · have h1 := (openTx_net hr).1 s hs
    have h2 := pending_tx hr s
    rw [h1] at h2
    exact ⟨h1, by simpa using h2⟩

def netCtx (now : Time) : NetCtx := ⟨plainCtx now, .up 0 0⟩

/-- a server that takes any payload as a JSON string, with listeners -/
def notifying : MqService := ⟨⟨textStore, true⟩, true⟩

def asked (rq : MqRequest) (limit : Option Nat) : Limited MqJob := ⟨⟨.request rq, 0⟩, limit⟩

/-- a batch that is dropped between its two INSERTs, and a send that is dropped after its COMMIT -/
def sendsGivenUp : List (Act (Limited MqJob) NetCtx) :=
  [.call 0 (asked (.createQueue "orders" 0) none), .stmt 0 (netCtx 0), .ret 0,
   .call 1 (asked (.sendBatch "orders" ["a", "b"] 0) (some 3)), .stmt 1 (netCtx 1),
     .stmt 1 (netCtx 2),
   .stmt 1 (netCtx 3), .stmt 1 (netCtx 4), .ret 1,
   .call 2 (asked (.send "orders" "c" 0) (some 5)), .stmt 2 (netCtx 5), .stmt 2 (netCtx 6),
   .stmt 2 (netCtx 7), .stmt 2 (netCtx 8), .stmt 2 (netCtx 9), .ret 2]

theorem mq_dropped_sendsGivenUp :
    ∃ σ : MqServiceSys,
      (Sys.init MqNet.empty).play NetStmt.exec notifying.serve sendsGivenUp = some σ ∧
      (σ.db.mq.messages.map fun m => (m.id, m.payload)) = [(2, .str "c")] ∧
      (∀ id, σ.db.mq.places.count id ≤ 1) ∧ σ.db.mq.txs.get 1 = none := by
  have h : ((Sys.init MqNet.empty : MqServiceSys).play NetStmt.exec notifying.serve
    sendsGivenUp).map
      (fun σ => (σ.db.mq.messages.map (fun m => (m.id, m.payload)), (σ.prog 1).isNone))
      = some ([(2, .str "c")], true) := by rfl
  obtain ⟨σ, hσ, he⟩ := Option.map_eq_some_iff.mp h
  obtain ⟨h1, h2⟩ := Prod.mk.inj he
  obtain ⟨h3, -, -, h4⟩ := mq_dropped notifying σ (Sys.play_steps hσ)
  exact ⟨σ, hσ, h1, h3, (h4 1 (Option.isNone_iff_eq_none.mp h2)).1⟩

/-- what a send has added: one message for each payload, in the COMMIT it ends with, to the queue it
has looked up, which is still there -/
def SendAdded (call : MqCall) (n : String) (payloads : List String) (delay : Int) (ids : List Int)
    (part : List MqEv) : Prop :=
  (payloads = [] ∧ ids = [] ∧ ∀ e ∈ part, KeepsMessages e) ∨
  ∃ e rest q vs now, part = e :: rest ∧ e.stmt = .commit ∧
    List.Forall₂ (fun p v => call.store.parsePayload p = .ok v) payloads vs ∧
    ids.length = payloads.length ∧ ids.Pairwise (· < ·) ∧
    (∃ s c db, ⟨s, call, c, .selectQueueId n, some q, db⟩ ∈ rest) ∧ (∃ x ∈ e.pre.queues, x.id = q) ∧
    (∀ r db', e.stmt.exec e.sess e.ctx e.pre = some (r, db') →
      db'.messages = e.pre.messages ++ batchRows q delay now ids vs) ∧
    ∀ f ∈ rest, KeepsMessages f

theorem BatchLogged.added {call : MqCall} {n : String} {payloads : List String} {delay : Int}
    {ids : List Int} {part : List MqEv} (h : BatchLogged call n payloads delay ids part)
    (hq : ∀ e ∈ part, PendingQueued e.pre) : SendAdded call n payloads delay ids part := by
  rcases h with h | ⟨e, rest, q, vs, now, hne, rfl, hst, htx, hp, hlen, hrise, hrest, -, hlook⟩
  · exact .inl h
  obtain ⟨m, hm, rfl⟩ : ∃ m ∈ batchRows q delay now ids vs, m.queueId = q := by
    cases ids with
    | nil => exact absurd (List.length_eq_zero_iff.mp hlen.symm) hne
    | cons id ids =>
      cases hp with
      | nil => cases hlen
      | cons _ _ => exact ⟨_, List.mem_cons_self, rfl⟩
  refine .inr ⟨e, rest, _, vs, now, rfl, hst, hp, hlen, hrise, hlook, ?_, fun r db' hx => ?_, hrest⟩
  · exact hq e List.mem_cons_self _ _ htx m hm
  · obtain ⟨s₁, call₁, c₁, st₁, k₁, db₁⟩ := e
    obtain rfl : st₁ = .commit := hst
    obtain rfl : db₁.commit s₁ = db' := congrArg Prod.snd (Option.some.inj hx)
    have htx' : db₁.txs.get s₁ = some ⟨now, batchRows m.queueId delay now ids vs⟩ := htx
    unfold MqDb.commit
    rw [htx']

/-- what is claimed of a finished job that sends, and its statements -/
def SendAnswer (call : MqCall) (answer : Except Status MqResponse) (part : List MqEv) : Prop :=
  ∀ n payloads delay, call.op.sends = some (n, payloads, delay) →
    match answer with
    | .ok response => ∃ ids, response.sent = some ids ∧ SendAdded call n payloads delay ids part
    | .error status => (∀ e ∈ part, KeepsMessages e) ∨
        status = timedOut ∧ ∃ ids, SendAdded call n payloads delay ids part

/-- **Sends that are given up are all or nothing.**  The statements of a session fall into one part
for each finished job; a job that sends and was answered has added one message for each payload, in
its COMMIT; one that was refused has added none; and one that was dropped has done the one or the
other.
-/
theorem mq_send_dropped (svc : MqService) (σ : MqServiceSys) (hr : MqServiceReach svc σ) (s : Nat) :
    ∃ run parts, ownEvents s (svc.part.history σ.hist) = run ++ parts.flatten ∧
      List.Forall₂ (fun x part => SendAnswer (svc.callOf x.2.1) x.2.2 part)
        (σ.done.filter (·.1 == s)) parts := by
  obtain ⟨run, parts, hown, hall⟩ := sends_net hr s
  have h0 : PendingQueued (svc.part.get MqNet.empty) := fun _ _ h => by cases h
  have hqueued : Always (fun e _ => PendingQueued e.pre) (svc.part.history σ.hist) :=
    Part.before_of _ (fun db _ => PendingQueued db) h0
      (fun _ _ _ _ _ _ _ _ F hauto hx => F.step hauto hx) hr (openTx_net hr).2
  refine ⟨run, parts, hown, forall₂_parts ?_ hall run hown⟩
  intro x part a b hx hw n payloads delay hop
  have hq : ∀ e ∈ part, PendingQueued e.pre := by
    intro e he
    have hmem : e ∈ ownEvents s (svc.part.history σ.hist) := by
      rw [hw]
      exact List.mem_append_left _ (List.mem_append_right _ he)
    obtain ⟨h, hP⟩ := hqueued.of_mem (List.mem_of_mem_filter hmem)
    exact hP
  have h3 := hx n payloads delay hop
  cases hans : x.2.2 with
  | ok response =>
    rw [hans] at h3
    obtain ⟨ids, h4, h5⟩ := h3
    exact ⟨ids, h4, h5.added hq⟩
  | error status =>
    rw [hans] at h3
    rcases h3 with h4 | ⟨h4, ids, h5⟩
    · exact .inl h4
    · exact .inr ⟨h4, ids, h5.added hq⟩

theorem mq_send_dropped_sendsGivenUp :
    ∃ σ : MqServiceSys,
      (Sys.init MqNet.empty).play NetStmt.exec notifying.serve sendsGivenUp = some σ ∧
      ∃ part, SendAnswer (notifying.callOf (asked (.sendBatch "orders" ["a", "b"] 0) (some 3)))
        (.error timedOut) part := by
  have h : ((Sys.init MqNet.empty : MqServiceSys).play NetStmt.exec notifying.serve
    sendsGivenUp).map
      (fun σ => σ.done.filter (·.1 == 1))
      = some [(1, asked (.sendBatch "orders" ["a", "b"] 0) (some 3), .error timedOut)] := by rfl
  obtain ⟨σ, hσ, he⟩ := Option.map_eq_some_iff.mp h
  obtain ⟨run, parts, -, hall⟩ := mq_send_dropped notifying σ (Sys.play_steps hσ) 1
  rw [he] at hall
  obtain ⟨part, -, hp, -, -⟩ := List.forall₂_cons_left_iff.mp hall
  exact ⟨σ, hσ, part, hp⟩

end PgApp
