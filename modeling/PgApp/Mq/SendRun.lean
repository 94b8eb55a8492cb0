import PgApp.Interleave.Dropped
import PgApp.Mq.BatchRun

/-!
# The statements of a send, given up or not

A send that is given up has issued some of its statements.  Which ones is not known, but every one
before its COMMIT leaves `mq_messages` alone and the COMMIT is the last: so it has added all of its
rows or none.

* `MqOp.sends`    what a send sends, `send` as a batch of one;
* `SendLogged`    what the statements of a send that is answered with ids have done;
* `SendIssues`    the statements that a send issues;
* `send_limited`  a send its caller may give up, checked alone.
-/

namespace PgApp
open Interleave

def MqOp.sends : MqOp → Option (String × List String × Int)
  | .send n payload delay => some (n, [payload], delay)
  | .sendBatch n payloads delay => some (n, payloads, delay)
  | _ => none

/-- the ids a send is answered with -/
def MqReturn.sent : MqReturn → Option (List Int)
  | .id messageId => some [messageId]
  | .ids messageIds => some messageIds
  | _ => none

/-- a call that sends, and what its statements have done when it was answered so -/
def SendLog (call : MqCall) (r : PgAppResult MqReturn) (part : List MqEv) : Prop :=
  ∀ n payloads delay, call.op.sends = some (n, payloads, delay) →
    match r with
    | .error _ => ∀ e ∈ part, KeepsMessages e
    | .ok answer => ∃ ids, answer.sent = some ids ∧ BatchLogged call n payloads delay ids part

/-! ## a send as a batch of one -/

section
variable {call : MqCall} {n : String} {q delay : Int} {γ₀ : List MqEv}

theorem Collected.begin {new : List MqEv} {γ γ' : BatchView} (hγ : γ.2 = new ++ γ₀)
    (hq : ∀ e ∈ new, KeepsMessages e) (hl : ∃ s c db,
      ⟨s, call, c, .selectQueueId n, some q, db⟩ ∈ new)
    {r : Unit} (hm : BatchMove call .begin r γ γ') : Collected call n q delay γ₀ [] [] γ' := by
  obtain ⟨s, c, db, he, -, htx⟩ := hm
  obtain ⟨s₁, c₁, db₁, hl⟩ := hl
  refine ⟨rfl, .nil, _ :: new, c.now, by rw [he, hγ]; rfl, htx, fun d hd => ?_,
    ⟨_, List.mem_cons_self, rfl, rfl⟩, s₁, c₁, db₁, List.mem_cons_of_mem _ hl⟩
  rcases List.mem_cons.mp hd with rfl | hd
  · exact keepsMessages_of_quiet rfl
  · exact hq d hd

/-- the COMMIT of what was collected -/
theorem Collected.commit {payloads : List String} {vs : List Json} {ids : List Int}
    {γ γ' : BatchView} (h : Collected call n q delay γ₀ ids vs γ) (hne : payloads ≠ [])
    (hp : List.Forall₂ (fun p v => call.store.parsePayload p = .ok v) payloads vs) {r : Unit}
    (hm : BatchMove call .commit r γ γ') :
    ∃ new, γ'.2 = new ++ γ₀ ∧ BatchLogged call n payloads delay ids new := by
  obtain ⟨s, c, db, he, htx, -⟩ := hm
  obtain ⟨hlen, hrise, new, now, h1, h2, h3, h4, h5⟩ := h
  exact ⟨_ :: new, by rw [he, h1]; rfl, .inr ⟨_, new, q, vs, now, hne, rfl, rfl, htx.trans h2, hp,
    by rw [hlen, hp.length_eq], hrise, h3, h4, h5⟩⟩

end

theorem parsePayload_of_checks {store : MqStore} {payload : String} {v : Json}
    (hs : store.validatePayloadSize payload = .ok ())
      (hv : store.parseJsonPayload payload = .ok v) :
    store.parsePayload payload = .ok v := by
  unfold MqStore.parsePayload
  rw [hs]
  exact hv

theorem send_logs (call : MqCall) (n payload : String) (delay : Int) (γ : BatchView) :
    BatchSafe call (fun r γ' => ∃ new, γ'.2 = new ++ γ.2 ∧ match r with
        | .error _ => ∀ e ∈ new, KeepsMessages e
        | .ok id => BatchLogged call n [payload] delay [id] new)
      (call.store.send n payload delay) γ := by
  refine Safe.check_bind (fun _ hs => ?_) fun _ => Quietly.refl γ
  refine Safe.check_bind (fun v hv => ?_) fun _ => Quietly.refl γ
  refine Safe.check_bind (fun _ _ => ?_) fun _ => Quietly.refl γ
  have hp : List.Forall₂ (fun p v => call.store.parsePayload p = .ok v) [payload] [v] :=
    .cons (parsePayload_of_checks hs hv) .nil
  refine Safe.bind (queueId_logs n γ) ?_ fun e γ' h => h.1
  intro q γ₁ h
  obtain ⟨s₁, c₁, db₁, he₁⟩ := h.2 q rfl
  have hquiet : ∀ e ∈ [(⟨s₁, call, c₁, .selectQueueId n, some q, db₁⟩ : MqEv)],
      KeepsMessages e := by
    intro e he
    rw [List.mem_singleton.mp he]
    exact keepsMessages_of_quiet rfl
  refine ⟨trivial, fun _ γ₂ hm => ?_⟩
  have he₁ : γ₁.2 = [⟨s₁, call, c₁, .selectQueueId n, some q, db₁⟩] ++ γ.2 := he₁
  have hc : Collected call n q delay γ.2 [] [] γ₂ :=
    Collected.begin he₁ hquiet ⟨s₁, c₁, db₁, List.mem_singleton.mpr rfl⟩ hm
  have hbody : BatchSafe call (fun r γ' => Quietly γ.2 γ' ∧
      ∀ id, r = .ok id → Collected call n q delay γ.2 [id] [v] γ')
      (do
        let id ← orFail (← query (.insertMessage q v delay))
        notifyQueue n 1
        pure id) γ₂ := by
    refine ⟨trivial, fun r γ₃ hm => ?_⟩
    cases r with
    | error e =>
      obtain ⟨s, c, db, he, -⟩ := hm
      exact ⟨hc.quiet.cons he rfl, fun l hl => by cases hl⟩
    | ok id =>
      show BatchSafe call _ (notifyQueue n 1 >>= fun _ => pure id) γ₃
      refine Safe.bind (notifyQueue_collects 1 (hc.insert hm)) ?_ ?_
      · intro _ γ₄ h4
        refine ⟨h4.quiet, fun l hl => ?_⟩
        obtain rfl := Except.ok.inj hl
        exact h4
      · exact fun e γ₄ h4 => ⟨h4.quiet, fun l hl => by cases hl⟩
  refine Safe.bracket hbody ?_ ?_
  · exact fun id γ₃ h => ⟨trivial, fun _ γ₄ hm => (h.2 id rfl).commit (by simp) hp hm⟩
  · intro e γ₃ h
    refine ⟨trivial, fun _ γ₄ hm => ?_⟩
    obtain ⟨s₄, c₄, db₄, he₄, -⟩ := hm
    exact h.1.cons he₄ rfl

theorem body_sendLog (call : MqCall) (γ : BatchView) :
    BatchSafe call (fun r γ' => ∃ new, γ'.2 = new ++ γ.2 ∧ SendLog call r new) call.body γ := by
  obtain ⟨store, op⟩ := call
  cases op with
  | send n payload delay =>
    refine Safe.bind (send_logs ⟨store, .send n payload delay⟩ n payload delay γ) ?_ ?_
    · intro id γ' h
      obtain ⟨new, h1, h2⟩ := h
      refine ⟨new, h1, fun n' payloads' delay' he => ⟨[id], rfl, ?_⟩⟩
      cases he
      exact h2
    · intro e γ' h
      obtain ⟨new, h1, h2⟩ := h
      exact ⟨new, h1, fun n' payloads' delay' he => h2⟩
  | sendBatch n payloads delay =>
    refine Safe.bind (sendBatch_logs ⟨store, .sendBatch n payloads delay⟩ n payloads delay γ) ?_ ?_
    · intro ids γ' h
      obtain ⟨new, h1, h2⟩ := h
      refine ⟨new, h1, fun n' payloads' delay' he => ⟨ids, rfl, ?_⟩⟩
      cases he
      exact h2
    · intro e γ' h
      obtain ⟨new, h1, h2⟩ := h
      exact ⟨new, h1, fun n' payloads' delay' he => h2⟩
  | _ =>
    refine (batch_extends _ _ γ).mono fun r γ' h => ?_
    obtain ⟨new, h⟩ := h
    exact ⟨new, h, fun n payloads delay he => by cases he⟩

/-! ## the statements it issues -/

/-- neither a statement that adds nothing nor a COMMIT -/
def MqStmt.roams (st : MqStmt) : Prop := st.quiet = false ∧ st ≠ .commit

/-- a send issues statements that add nothing, and a COMMIT after which it has its answer -/
structure Closes {α : Type} (p : MqProg α) : Prop where
  issues : p.Avoids MqStmt.roams
  last : p.Last (· = .commit)

section
variable {α β : Type} {p : MqProg α}

theorem not_loud {st : MqStmt} (h : st.quiet = true) : ¬ st.quiet = false := by
  rw [h]
  decide

theorem avoids_roams (h : p.Avoids (·.quiet = false)) : p.Avoids MqStmt.roams :=
  h.mono fun _ hr => hr.1

theorem avoids_commit (h : p.Avoids (·.quiet = false)) : p.Avoids (· = .commit) := by
  refine h.mono fun st hc => ?_
  rw [hc]
  rfl

theorem Closes.bind {f : α → MqProg β} (h : p.Avoids (·.quiet = false)) (hf : ∀ a, Closes (f a)) :
    Closes (p >>= f) :=
  ⟨Prog.Avoids.bind (avoids_roams h) fun a => (hf a).issues,
    Prog.Last.bind (avoids_commit h) fun a => (hf a).last⟩

theorem Closes.map {f : α → β} (h : Closes p) : Closes (p >>= fun a => pure (f a)) := by
  refine ⟨Prog.Avoids.bind h.issues fun _ => trivial, ?_⟩
  rw [Prog.bind_pure_eq]
  exact h.last.mapResult

theorem Closes.inTx (h : p.Avoids (·.quiet = false)) : Closes (inTx p) := by
  refine ⟨⟨fun hr => not_loud rfl hr.1, fun _ => ?_⟩, fun hc => ?_, fun _ => ?_⟩
  · exact Prog.Avoids.bracket (fun hr => hr.2 rfl) (fun hr => not_loud rfl hr.1) (avoids_roams h)
  · cases hc
  · exact Prog.Last.bracket (avoids_commit h)

end

theorem quiet_queueId (n : String) : (queueId n).Avoids (·.quiet = false) := by
  refine Prog.Avoids.check fun _ => ⟨not_loud rfl, fun r => ?_⟩
  cases r with
  | none => exact trivial
  | some q => exact trivial

theorem quiet_notifyQueue (n : String) (k : Nat) : (notifyQueue n k).Avoids (·.quiet = false) :=
  Prog.Avoids.check fun _ => ⟨not_loud rfl, fun r => orFail_avoids r⟩

theorem quiet_insertAll (q delay : Int) (payloads : List Json) (ids : List Int) :
    (insertAll q delay payloads ids).Avoids (·.quiet = false) := by
  induction payloads generalizing ids with
  | nil => exact trivial
  | cons payload rest ih =>
    refine ⟨not_loud rfl, fun r => Prog.Avoids.bind (p := orFail r) (orFail_avoids r) fun id => ?_⟩
    exact ih (ids ++ [id])

theorem body_closes (call : MqCall) (h : call.op.sends ≠ none) : Closes call.body := by
  obtain ⟨store, op⟩ := call
  cases op with
  | send n payload delay =>
    refine Closes.map (Closes.bind trivial fun _ => Closes.bind trivial fun v => ?_)
    refine Closes.bind trivial fun _ => Closes.bind (quiet_queueId n) fun q => Closes.inTx ?_
    refine ⟨not_loud rfl, fun r => Prog.Avoids.bind (p := orFail r) (orFail_avoids r) fun id => ?_⟩
    exact Prog.Avoids.bind (quiet_notifyQueue n 1) fun _ => trivial
  | sendBatch n payloads delay =>
    refine Closes.map (Closes.bind trivial fun _ => Closes.bind trivial fun _ => ?_)
    show Closes (if payloads.isEmpty then pure [] else _)
    split
    · exact ⟨trivial, trivial⟩
    · refine Closes.bind (quiet_queueId n) fun q => Closes.bind trivial fun vs => Closes.inTx ?_
      refine Prog.Avoids.bind (quiet_insertAll q delay vs []) fun ids => ?_
      exact Prog.Avoids.bind (quiet_notifyQueue n ids.length) fun _ => trivial
  | _ => exact absurd rfl h

/-! ## given up -/

/-- a call that sends issues no other statements -/
def SendIssues (call : MqCall) (st : MqStmt) (_ : BatchView) : Prop :=
  call.op.sends ≠ none → ¬ st.roams

theorem body_issues (call : MqCall) (γ : BatchView) :
    Safe (SendIssues call) (BatchMove call)
      (fun r γ' => ∃ new, γ'.2 = new ++ γ.2 ∧ SendLog call r new) call.body γ := by
  have h : Safe (SendIssues call) (BatchMove call) (fun _ _ => True) call.body γ := by
    by_cases hs : call.op.sends = none
    · exact (Safe.trivial call.body γ).mono_pre fun st γ' _ hn => absurd hs hn
    · exact Prog.Avoids.safe (I := fun _ => True)
        (fun st γ' hb _ => ⟨fun _ => hb, fun _ _ _ => trivial⟩)
        (body_closes call hs).issues trivial
  exact (h.and (body_sendLog call γ)).mono fun r γ' hr => hr.2

end PgApp
