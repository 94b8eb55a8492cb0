import PgApp.Mq.Store

/-!
# What a run has done to a message

Read off the executed statements (`MqEv`, newest first), each with the tables it found:

* `sentIds`      the ids a committed transaction has added to `mq_messages`;
* `removedIds`   the ids that an `ack`, a purge, a sweep or the drop of a queue has taken away;
* `touchOf`      what one statement did to one message: at most one of seven things.

`MqDb.allPending` are the ids inserted by transactions still open.
-/

namespace PgApp
open Interleave

/-- `now()` of the executed statement -/
def eventNow (e : MqEv) : Time := e.pre.now e.sess e.ctx.now

/-- ids the statement made visible: those of the transaction it commits -/
def sentOf (e : MqEv) : List Int :=
  match e.stmt with
  | .commit => e.pre.pendingIds e.sess
  | _ => []

/-- ids the statement took out of the three tables for good -/
def removedOf (e : MqEv) : List Int :=
  match e.stmt with
  | .ack q id token => (e.pre.messages.filter fun m => m.heldBy q id token (eventNow e)).map (·.id)
  | .deleteMessages q => (e.pre.messages.filter fun m => m.queueId == q).map (·.id)
  | .deleteDlq q => (e.pre.dlq.filter fun d => d.queueId == q).map (·.originalMessageId)
  | .sweepDlq n => (e.pre.dlq.filter fun d => d.stale n (eventNow e)).map (·.originalMessageId)
  | .deleteQueue name =>
      let gone := (e.pre.queues.filter (·.name == name)).map (·.id)
      (e.pre.messages.filter fun m => gone.contains m.queueId).map (·.id) ++
        (e.pre.dlq.filter fun d => gone.contains d.queueId).map (·.originalMessageId) ++
        (e.pre.archives.filter fun a => gone.contains a.queueId).map (·.originalMessageId)
  | _ => []

def sentIds (h : List MqEv) : List Int := h.flatMap sentOf
def removedIds (h : List MqEv) : List Int := h.flatMap removedOf

theorem sentIds_cons (e : MqEv) (h : List MqEv) : sentIds (e :: h) = sentOf e ++ sentIds h := rfl
theorem removedIds_cons (e : MqEv) (h : List MqEv) :
    removedIds (e :: h) = removedOf e ++ removedIds h := rfl

/-- what a statement did to a message, as its answer tells -/
inductive Touch where
  | none
  | inserted (availableAt : Time)
  | sent
  | delivered (token : String) (deadline : Time)
  | extended (deadline : Time)
  | deadLettered
  | requeued

/-- `deadLettered` is an explicit `dead_letter`, `requeued` a `reprocess_dlq_message` -/
def touchOf (e : MqEv) (id : Int) : Touch :=
  match e with
  | ⟨_, _, _, .insertMessage _ _ delay, .ok i, _⟩ =>
      if i = id then .inserted (eventNow e + seconds delay) else .none
  | ⟨s, _, _, .commit, _, db⟩ => if id ∈ db.pendingIds s then .sent else .none
  | ⟨_, _, _, .claim _ _ timeout, .ok ms, _⟩ =>
      match ms.find? (·.id == id) with
      | some m => .delivered m.ackToken (eventNow e + seconds timeout)
      | Option.none => .none
  | ⟨_, _, _, .setVisibility _ i _ timeout, n, _⟩ =>
      if i = id ∧ 0 < (n : Nat) then .extended (eventNow e + seconds timeout) else .none
  | ⟨_, _, _, .deadLetter _ i _, n, _⟩ => if i = id ∧ 0 < (n : Nat) then .deadLettered else .none
  | ⟨_, _, _, .reprocess _ i, .ok n, _⟩ => if i = id ∧ 0 < n then .requeued else .none
  | _ => .none

/-- how often `id` waits in an open transaction -/
def MqDb.pendingCount (db : MqDb) (id : Int) : Nat :=
  db.txs.total fun t => (t.pending.map (·.id)).count id

end PgApp
