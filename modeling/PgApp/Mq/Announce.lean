import PgApp.Mq.SendRun
import PgApp.Mq.Notices

/-!
# Every send tells its queue

A session is watched through the NOTIFYs that wait in its transaction.  When a send commits, one on
the channel of its queue is among them, and none on any other; and nothing but a send issues one,
outside a transaction never.

Main result: `body_announces`.
-/

namespace PgApp
open Interleave

/-- PostgreSQL took the channel of a NOTIFY -/
def MqStmt.accepted : (st : MqStmt) → st.Res → Prop
  | .pgNotify channel _, .ok () => notifyChannel channel = .ok ()
  | _, _ => True

theorem exec_accepted {s : Nat} {c : MqCtx} {st : MqStmt} {r : st.Res} {db db' : MqDb}
    (hx : st.exec s c db = some (r, db')) : st.accepted r := by
  cases st with
  | pgNotify channel payload =>
    have h1 : notifyChannel channel = r := congrArg Prod.fst (Option.some.inj hx)
    cases r with
    | error e => exact trivial
    | ok u => exact h1
  | _ => exact trivial

/-- how the NOTIFYs in a session's transaction move -/
def NoteMove (st : MqStmt) (r : st.Res) (γ γ' : Option (List MqNotification)) : Prop :=
  st.accepted r ∧ γ' = st.pendingAfter r γ

/-- the call tells the queue it sends to, if it sends, and no other -/
structure Announces (call : MqCall) (ns : List MqNotification) : Prop where
  told : ∀ n payloads delay, call.op.sends = some (n, payloads, delay) →
    ∃ x ∈ ns, x.channel = s!"pgapp_mq_{n}" ∧ notifyChannel x.channel = .ok ()
  only : ∀ x ∈ ns, ∃ n payloads delay, call.op.sends = some (n, payloads, delay) ∧
    x.channel = s!"pgapp_mq_{n}"

def NotePre (call : MqCall) (st : MqStmt) (γ : Option (List MqNotification)) : Prop :=
  match st with
  | .commit => Announces call (γ.getD [])
  | .pgNotify _ _ => γ.isSome = true
  | _ => True

/-- the statements that change what waits -/
def MqStmt.settles : MqStmt → Bool
  | .begin => true
  | .commit => true
  | .rollback => true
  | .pgNotify _ _ => true
  | _ => false

def MqStmt.tells : MqStmt → Bool
  | .pgNotify _ _ => true
  | _ => false

section
variable {α : Type} {call : MqCall}

theorem notes_kept {p : MqProg α} (h : p.Avoids (·.settles = true))
    (γ : Option (List MqNotification)) :
    Safe (NotePre call) NoteMove (fun _ γ' => γ' = γ) p γ := by
  refine Prog.Avoids.safe (I := fun γ' => γ' = γ) (fun st γ' hst hγ => ?_) h rfl
  cases st with
  | begin => exact absurd rfl hst
  | commit => exact absurd rfl hst
  | rollback => exact absurd rfl hst
  | pgNotify channel payload => exact absurd rfl hst
  | _ => exact ⟨trivial, fun r γ'' hm => hm.2.trans hγ⟩

theorem notes_silent {p : MqProg α} (hno : call.op.sends = none) (h : p.Avoids (·.tells = true))
    {γ : Option (List MqNotification)} (hγ : γ.getD [] = []) :
    Safe (NotePre call) NoteMove (fun _ γ' => γ'.getD [] = []) p γ := by
  refine Prog.Avoids.safe (I := fun γ' : Option (List MqNotification) => γ'.getD [] = [])
    (fun st γ' hst hγ' => ?_) h hγ
  cases st with
  | pgNotify channel payload => exact absurd rfl hst
  | commit =>
    refine ⟨⟨fun n ps d he => ?_, fun x hx => ?_⟩, fun r γ'' hm => by rw [hm.2]; rfl⟩
    · rw [hno] at he
      cases he
    · rw [hγ'] at hx
      cases hx
  | begin => exact ⟨trivial, fun r γ'' hm => by rw [hm.2]; rfl⟩
  | rollback => exact ⟨trivial, fun r γ'' hm => by rw [hm.2]; rfl⟩
  | _ => exact ⟨trivial, fun r γ'' hm => by rw [hm.2]; exact hγ'⟩

end

/-! ## the sends -/

section
variable {call : MqCall} {n : String} {payloads : List String} {delay : Int}

theorem queueId_settles (n : String) : (queueId n).Avoids (·.settles = true) := by
  refine Prog.Avoids.check fun _ => ⟨Bool.false_ne_true, fun r => ?_⟩
  cases r with
  | none => exact trivial
  | some q => exact trivial

theorem insertAll_settles (q delay : Int) (payloads : List Json) (ids : List Int) :
    (insertAll q delay payloads ids).Avoids (·.settles = true) := by
  induction payloads generalizing ids with
  | nil => exact trivial
  | cons payload rest ih =>
    refine ⟨Bool.false_ne_true, fun r => Prog.Avoids.bind (p := orFail r)
      (orFail_avoids r) fun id => ?_⟩
    exact ih (ids ++ [id])

theorem notifyQueue_announces (h : call.op.sends = some (n, payloads, delay)) (k : Nat) :
    Safe (NotePre call) NoteMove (fun r γ' => ∀ u, r = .ok u → Announces call (γ'.getD []))
      (notifyQueue n k) (some []) := by
  unfold notifyQueue
  cases hc : mqChannel n with
  | error e => exact fun u hu => by cases hu
  | ok channel =>
    have hch : channel = s!"pgapp_mq_{n}" := by
      unfold mqChannel at hc
      split at hc
      · exact (Except.ok.inj hc).symm
      · cases hc
    refine ⟨rfl, fun r γ' hm => ?_⟩
    cases r with
    | error e => exact fun u hu => by cases hu
    | ok u =>
      obtain ⟨hacc, rfl⟩ := hm
      intro _ _
      refine ⟨fun n' ps d he => ?_, fun x hx => ?_⟩
      · rw [h] at he
        obtain ⟨rfl, -⟩ := Prod.mk.inj (Option.some.inj he)
        exact ⟨⟨channel, s!"{k}"⟩, List.mem_singleton.mpr rfl, hch, hacc⟩
      · obtain rfl : x = ⟨channel, s!"{k}"⟩ := List.mem_singleton.mp hx
        exact ⟨n, payloads, delay, h, hch⟩

/-- a transaction that collects, tells its queue and commits -/
theorem inTx_announces {α : Type} (h : call.op.sends = some (n, payloads, delay)) {p : MqProg α}
    (hp : p.Avoids (·.settles = true)) (count : α → Nat) (γ : Option (List MqNotification)) :
    Safe (NotePre call) NoteMove (fun _ _ => True)
      (inTx do
        let ids ← p
        notifyQueue n (count ids)
        pure ids) γ := by
  refine ⟨trivial, fun r γ₁ hm => ?_⟩
  obtain rfl : γ₁ = some [] := hm.2
  have hbody : Safe (NotePre call) NoteMove
      (fun r γ' => ∀ a, r = .ok a → Announces call (γ'.getD []))
      (do
        let ids ← p
        notifyQueue n (count ids)
        pure ids) (some []) := by
    refine Safe.bind (notes_kept hp (some [])) (fun ids γ₂ hγ => ?_) fun e γ₂ _ a ha => by cases ha
    rw [hγ]
    refine Safe.bind (notifyQueue_announces h (count ids)) (fun u γ₃ hann => ?_)
      fun e γ₃ _ a ha => by cases ha
    exact fun a _ => hann u rfl
  refine Safe.bracket hbody ?_ ?_
  · exact fun a γ₂ hann => ⟨hann a rfl, fun _ _ _ => trivial⟩
  · exact fun e γ₂ _ => ⟨trivial, fun _ _ _ => trivial⟩

end

/-! ## every call -/

theorem queueId_tells (n : String) : (queueId n).Avoids (·.tells = true) := by
  refine Prog.Avoids.check fun _ => ⟨Bool.false_ne_true, fun r => ?_⟩
  cases r with
  | none => exact trivial
  | some q => exact trivial

theorem read_tells (store : MqStore) (n : String) (quantity timeout : Int) :
    (store.read n quantity timeout).Avoids (·.tells = true) := by
  refine Prog.Avoids.check fun _ => Prog.Avoids.check fun _ => Prog.Avoids.check fun _ => ?_
  refine Prog.Avoids.bind (queueId_tells n) fun q => ⟨Bool.false_ne_true, fun _ => ?_⟩
  exact ⟨Bool.false_ne_true, fun r => orFail_avoids r⟩

theorem pollLoop_tells (store : MqStore) (n : String) (quantity timeout : Int)
    (interval deadline : Time) (rounds : Nat) :
    (store.pollLoop n quantity timeout interval deadline rounds).Avoids (·.tells = true) := by
  induction rounds with
  | zero => exact ⟨Bool.false_ne_true, fun _ => trivial⟩
  | succ rounds ih =>
    refine Prog.Avoids.bind (read_tells store n quantity timeout) fun messages => ?_
    show Prog.Avoids _ (if messages.isEmpty then _ else _)
    split
    · refine ⟨Bool.false_ne_true, fun now => ?_⟩
      show Prog.Avoids _ (if deadline ≤ now then _ else _)
      split
      · exact trivial
      · exact ⟨Bool.false_ne_true, fun _ => ih⟩
    · exact trivial

theorem streamReadNext_tells (store : MqStore) (n : String) (quantity timeout : Int)
    (rounds : Nat) :
    (store.streamReadNext n quantity timeout rounds).Avoids (·.tells = true) := by
  induction rounds with
  | zero => exact ⟨Bool.false_ne_true, fun _ => trivial⟩
  | succ rounds ih =>
    refine Prog.Avoids.bind (read_tells store n quantity timeout) fun messages => ?_
    show Prog.Avoids _ (if messages.isEmpty then _ else _)
    split
    · exact ⟨Bool.false_ne_true, fun _ => ih⟩
    · exact trivial

theorem inTx_tells {α : Type} {p : MqProg α} (h : p.Avoids (·.tells = true)) :
    (inTx p).Avoids (·.tells = true) := by
  refine ⟨Bool.false_ne_true, fun _ => Prog.Avoids.bracket ?_ ?_ h⟩
  · exact Bool.false_ne_true
  · exact Bool.false_ne_true

theorem body_tells (call : MqCall) (h : call.op.sends = none) :
    call.body.Avoids (·.tells = true) := by
  obtain ⟨store, op⟩ := call
  cases op with
  | createQueue n mode =>
    refine Prog.Avoids.bind (Prog.Avoids.check fun _ => ?_) fun _ => trivial
    show Prog.Avoids _ (if _ then _ else _)
    split
    · exact trivial
    · exact ⟨Bool.false_ne_true, fun _ => trivial⟩
  | purgeQueue n =>
    refine Prog.Avoids.bind (Prog.Avoids.bind (queueId_tells n) fun q => ?_) fun _ => trivial
    exact ⟨Bool.false_ne_true, fun _ => trivial⟩
  | dropQueue n =>
    refine Prog.Avoids.bind (Prog.Avoids.check fun _ => ⟨Bool.false_ne_true, fun k => ?_⟩)
      fun _ => trivial
    show Prog.Avoids _ (if _ then _ else _)
    split <;> exact trivial
  | send n payload delay => cases h
  | sendBatch n payloads delay => cases h
  | read n quantity timeout =>
    exact Prog.Avoids.bind (read_tells store n quantity timeout) fun _ => trivial
  | readWithPoll n quantity timeout maxPoll interval rounds =>
    refine Prog.Avoids.bind ?_ fun _ => trivial
    refine Prog.Avoids.check fun _ => Prog.Avoids.check fun _ => Prog.Avoids.check fun _ => ?_
    refine Prog.Avoids.check fun _ => ⟨Bool.false_ne_true, fun now => ?_⟩
    exact MqStore.pollUntil_of (pollLoop_tells store n quantity timeout _) _ rounds
  | streamReadNext n quantity timeout rounds =>
    exact Prog.Avoids.bind (streamReadNext_tells store n quantity timeout rounds) fun _ => trivial
  | deadLetter n id reason =>
    refine Prog.Avoids.bind (Prog.Avoids.bind (queueId_tells n) fun q => ?_) fun _ => trivial
    exact ⟨Bool.false_ne_true, fun _ => trivial⟩
  | listDlqMessages n limit offset =>
    refine Prog.Avoids.bind (Prog.Avoids.bind (queueId_tells n) fun q => ?_) fun _ => trivial
    show Prog.Avoids _ (if offset < 0 then _ else _)
    split
    · exact trivial
    · refine Prog.Avoids.check fun l => ⟨Bool.false_ne_true, fun r => ?_⟩
      exact Prog.Avoids.bind (p := orFail r) (orFail_avoids r) fun _ => trivial
  | getDlqMessage n id =>
    refine Prog.Avoids.bind (Prog.Avoids.bind (queueId_tells n) fun q => ?_) fun _ => trivial
    refine ⟨Bool.false_ne_true, fun r => ?_⟩
    cases r with
    | none => exact trivial
    | some m => exact trivial
  | reprocessDlqMessage n id =>
    refine Prog.Avoids.bind (Prog.Avoids.bind (queueId_tells n) fun q => ?_) fun _ => trivial
    exact inTx_tells ⟨Bool.false_ne_true, fun r =>
      Prog.Avoids.bind (p := orFail r) (orFail_avoids r) fun _ => trivial⟩
  | purgeDlq n =>
    refine Prog.Avoids.bind (Prog.Avoids.bind (queueId_tells n) fun q => ?_) fun _ => trivial
    exact ⟨Bool.false_ne_true, fun _ => trivial⟩
  | sweepDlq d =>
    refine Prog.Avoids.bind ?_ fun _ => trivial
    show Prog.Avoids _ (if d ≤ 0 then _ else _)
    split
    · exact trivial
    · exact ⟨Bool.false_ne_true, fun _ => trivial⟩
  | ack n id token =>
    refine Prog.Avoids.bind (Prog.Avoids.check fun _ =>
      Prog.Avoids.bind (queueId_tells n) fun q => ?_)
      fun _ => trivial
    exact ⟨Bool.false_ne_true, fun _ => trivial⟩
  | archive n id token =>
    refine Prog.Avoids.bind (Prog.Avoids.check fun _ =>
      Prog.Avoids.bind (queueId_tells n) fun q => ?_)
      fun _ => trivial
    exact inTx_tells ⟨Bool.false_ne_true, fun _ => trivial⟩
  | setVisibilityTimeout n id token timeout =>
    refine Prog.Avoids.bind (Prog.Avoids.check fun _ => Prog.Avoids.check fun _ => ?_)
      fun _ => trivial
    refine Prog.Avoids.check fun _ => Prog.Avoids.bind (queueId_tells n) fun q => ?_
    exact ⟨Bool.false_ne_true, fun _ => trivial⟩
  | metrics n =>
    refine Prog.Avoids.bind (Prog.Avoids.bind (queueId_tells n) fun q => ?_) fun _ => trivial
    exact ⟨Bool.false_ne_true, fun _ => ⟨Bool.false_ne_true, fun _ => ⟨Bool.false_ne_true, fun _ =>
      trivial⟩⟩⟩

theorem body_announcing (call : MqCall) {γ : Option (List MqNotification)} (hγ : γ.getD [] = []) :
    Safe (NotePre call) NoteMove (fun _ _ => True) call.body γ := by
  by_cases hno : call.op.sends = none
  · exact (notes_silent hno (body_tells call hno) hγ).mono fun _ _ _ => trivial
  obtain ⟨store, op⟩ := call
  have herr : ∀ (e : PgAppError) (γ' : Option (List MqNotification)), True → True := fun _ _ h => h
  cases op with
  | send n payload delay =>
    refine Safe.bind (M := fun _ _ => True) ?_ (fun _ _ _ => trivial) herr
    refine Safe.check_bind (fun _ _ => Safe.check_bind (fun v _ => ?_) fun _ => trivial)
      fun _ => trivial
    refine Safe.check_bind (fun _ _ => ?_) fun _ => trivial
    refine Safe.bind (notes_kept (queueId_settles n) γ) (fun q γ' _ => ?_) fun _ _ _ => trivial
    refine inTx_announces rfl (p := do orFail (← query (.insertMessage q v delay))) ?_
      (fun _ => 1) γ'
    exact ⟨Bool.false_ne_true, fun r => orFail_avoids r⟩
  | sendBatch n payloads delay =>
    refine Safe.bind (M := fun _ _ => True) ?_ (fun _ _ _ => trivial) herr
    refine Safe.check_bind (fun _ _ => Safe.check_bind (fun _ _ => ?_) fun _ => trivial)
      fun _ => trivial
    show Safe _ _ _ (if payloads.isEmpty then pure [] else _) γ
    split
    · exact trivial
    · refine Safe.bind (notes_kept (queueId_settles n) γ) (fun q γ' _ => ?_) fun _ _ _ => trivial
      refine Safe.check_bind (fun vs _ => ?_) fun _ => trivial
      exact inTx_announces rfl (insertAll_settles q delay vs []) List.length γ'
  | _ => exact absurd rfl hno

/-- **A send that commits has told its queue**, no other call tells any, and when a call is done
nothing waits. -/
theorem body_announces (call : MqCall) :
    Safe (NotePre call) NoteMove (fun _ γ' => γ' = none) call.body none := by
  have htx : Safe (fun _ _ => True) NoteMove (fun _ γ' => γ' = none) call.body none := by
    refine ((Safe.comap Option.isSome (fun st r γ γ' hm => ?_) (tx_body call)).mono_pre
      fun _ _ _ => trivial).mono fun r γ' hr => ?_
    · rw [hm.2]
      exact pendingAfter_isSome st r γ
    · exact Option.isNone_iff_eq_none.mp (Option.isSome_eq_false_iff.mp hr)
  exact ((body_announcing call rfl).and htx).mono fun r γ' hr => hr.2

end PgApp
