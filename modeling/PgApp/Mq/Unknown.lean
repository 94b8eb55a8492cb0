import PgApp.Mq.Channel
import PgApp.Mq.Isolation

/-!
# Operations on a queue that is not there

Every operation on one queue looks its id up by name, each at another point among its checks.  If
the name has no row and the other arguments are valid, all of them answer NotFound and leave the
tables as they are, with two exceptions: `send_batch` hands back an empty list for an empty list
before it looks, and `read_with_poll` panics before it looks if its deadline is out of range.

Main result: `mq_unknown_queue`.
-/

namespace PgApp
open Interleave MqProg

/-- the queue an operation of a client is on, `drop_queue` included -/
def MqOp.onQueue : MqOp → Option String
  | .dropQueue n => some n
  | .streamReadNext _ _ _ _ => none
  | op => op.queueName

/-- an empty batch -/
def MqOp.isEmptyBatch : MqOp → Bool
  | .sendBatch _ payloads _ => payloads.isEmpty
  | _ => false

/-- the time that a polling read may take -/
def MqOp.maxPoll : MqOp → Option Int
  | .readWithPoll _ _ _ maxPoll _ _ => some maxPoll
  | _ => none

/-- the timeouts of a read or of `set_visibility_timeout` pass their checks -/
def MqStore.timeoutValid (store : MqStore) (timeoutSeconds : Int) : Prop :=
  0 ≤ timeoutSeconds ∧ store.validateVisibilityTimeout timeoutSeconds = .ok ()

/-- the arguments other than the name pass the checks of the operation; a polling read goes at least
one round -/
def MqCall.argsValid (call : MqCall) : Prop :=
  match call.op with
  | .send _ payload delay => (∃ v, call.store.parsePayload payload = .ok v) ∧ 0 ≤ delay
  | .sendBatch _ payloads delay =>
      call.store.validateBatchLen payloads.length = .ok () ∧
      (∀ payload ∈ payloads, ∃ v, call.store.parsePayload payload = .ok v) ∧ 0 ≤ delay
  | .read _ quantity timeout =>
      validateQuantity quantity call.store.limits.maxBatchSize = .ok quantity ∧
      call.store.timeoutValid timeout
  | .readWithPoll _ quantity timeout maxPoll _ rounds =>
      validateQuantity quantity call.store.limits.maxBatchSize = .ok quantity ∧
      call.store.timeoutValid timeout ∧ 0 ≤ maxPoll ∧ 0 < rounds
  | .listDlqMessages _ limit offset => 0 ≤ limit ∧ 0 ≤ offset
  | .ack _ _ token | .archive _ _ token => validateAckToken token = .ok ()
  | .setVisibilityTimeout _ _ token timeout =>
      validateAckToken token = .ok () ∧ call.store.timeoutValid timeout
  | _ => True

section
variable {s : Nat} {c : MqCtx} {db : MqDb} {n : String} {store : MqStore}

theorem seconds_ok (field : String) {x : Int} (h : 0 ≤ x) :
    validateNonNegativeSeconds field x = .ok x := by
  unfold validateNonNegativeSeconds
  rw [if_neg (by omega)]

/-- what is claimed of a call on the queue `n` -/
def AnswersNotFound (s : Nat) (c : MqCtx) (db : MqDb) (n : String) (call : MqCall) : Prop :=
  call.body.alone s c db = some (.error (.notFound s!"queue {n}"), db)

theorem answersNotFound_of {α : Type} {p : MqProg α} {f : α → MqReturn} {call : MqCall}
    (hb : call.body = p >>= fun a => pure (f a))
    (h : p.alone s c db = some (.error (.notFound s!"queue {n}"), db)) :
    AnswersNotFound s c db n call := by
  unfold AnswersNotFound
  rw [hb]
  exact alone_bind_error h

variable (hv : validateQueueName n = .ok ()) (hq : db.selectQueueId n = none)

include hv hq in
theorem dropQueue_unknown :
    (dropQueue n).alone s c db = some (.error (.notFound s!"queue {n}"), db) := by
  have hnone : ∀ x ∈ db.queues, ¬ (x.name == n) = true := by
    rw [MqDb.selectQueueId, Option.map_eq_none_iff, List.find?_eq_none] at hq
    exact hq
  -- nobody can have inserted into a queue that has no row
  have hfree : db.txs.others s (db.holdsQueue n) = false := by
    unfold Slots.others
    rw [List.any_eq_false]
    intro p _ hp
    simp only [MqDb.holdsQueue, Bool.and_eq_true, List.any_eq_true] at hp
    obtain ⟨-, m, -, x, hx, hxn, -⟩ := hp
    exact hnone x hx hxn
  have hgone : db.queues.filter (·.name == n) = [] := List.filter_eq_nil_iff.mpr hnone
  have hkept : db.queues.filter (·.name != n) = db.queues := by
    rw [List.filter_eq_self]
    intro x hx
    have h1 := hnone x hx
    simpa using h1
  have hx : MqStmt.exec s c (.deleteQueue n) db = some (0, db) := by
    show (if db.txs.others s (db.holdsQueue n) then none else some (db.deleteQueue n)) = _
    rw [hfree]
    show some (db.deleteQueue n) = _
    unfold MqDb.deleteQueue
    simp only [hgone, hkept]
    simp
  unfold dropQueue
  rw [alone_check hv, alone_query hx]
  rfl

include hv hq in
theorem read_unknown {quantity timeout : Int}
    (hn : validateQuantity quantity store.limits.maxBatchSize = .ok quantity)
    (ht : store.timeoutValid timeout) :
    (store.read n quantity timeout).alone s c db
      = some (.error (.notFound s!"queue {n}"), db) := by
  unfold MqStore.read
  rw [alone_check hn, alone_check (seconds_ok _ ht.1), alone_check ht.2,
    alone_queueId_unknown hv hq]

include hv hq in
theorem readWithPoll_unknown {quantity timeout maxPoll interval : Int} {rounds : Nat}
    (hn : validateQuantity quantity store.limits.maxBatchSize = .ok quantity)
    (ht : store.timeoutValid timeout) (hm : 0 ≤ maxPoll) (hr : 0 < rounds)
    (hd : chrono.Fits c.now maxPoll) :
    (store.readWithPoll n quantity timeout maxPoll interval rounds).alone s c db
      = some (.error (.notFound s!"queue {n}"), db) := by
  have hnow : MqStmt.exec s c .utcNow db = some (c.now, db) := rfl
  unfold MqStore.readWithPoll
  rw [alone_check hn, alone_check (seconds_ok _ ht.1), alone_check ht.2,
    alone_check (seconds_ok _ hm), alone_query hnow, Calendar.deadline_some hd]
  obtain ⟨k, rfl⟩ : ∃ k, rounds = k + 1 := ⟨rounds - 1, by omega⟩
  unfold MqStore.pollUntil MqStore.pollLoop
  exact alone_bind_error (read_unknown hv hq hn ht)

/-- a deadline out of range is a panic -/
theorem readWithPoll_idle {quantity timeout maxPoll interval : Int} {rounds : Nat}
    (hn : validateQuantity quantity store.limits.maxBatchSize = .ok quantity)
    (ht : store.timeoutValid timeout) (hm : 0 ≤ maxPoll) (hd : ¬ chrono.Fits c.now maxPoll) :
    (store.readWithPoll n quantity timeout maxPoll interval rounds).alone s c db = none := by
  have hnow : MqStmt.exec s c .utcNow db = some (c.now, db) := rfl
  unfold MqStore.readWithPoll
  rw [alone_check hn, alone_check (seconds_ok _ ht.1), alone_check ht.2,
    alone_check (seconds_ok _ hm), alone_query hnow, Calendar.deadline_none hd]
  rfl

include hv hq in
theorem answersNotFound {call : MqCall} (hop : call.op.onQueue = some n) (ha : call.argsValid)
    (hb : call.op.isEmptyBatch = false) (hd : ∀ maxPoll ∈ call.op.maxPoll,
      chrono.Fits c.now maxPoll) :
    AnswersNotFound s c db n call := by
  have look : ∀ {α : Type} (k : Int → MqProg α),
      (queueId n >>= k).alone s c db = some (.error (.notFound s!"queue {n}"), db) :=
    fun k => alone_queueId_unknown hv hq k
  obtain ⟨store, op⟩ := call
  cases op with
  | createQueue _ _ | sweepDlq _ | streamReadNext _ _ _ _ => cases hop
  | purgeQueue n' =>
    cases hop
    exact answersNotFound_of (f := fun _ => .unit) rfl (look _)
  | dropQueue n' =>
    cases hop
    exact answersNotFound_of (f := fun _ => .unit) rfl (dropQueue_unknown hv hq)
  | send n' payload delay =>
    cases hop
    obtain ⟨⟨v, hp⟩, hd⟩ := ha
    obtain ⟨h1, h2⟩ := parsePayload_ok.mp hp
    refine answersNotFound_of (f := .id) rfl ?_
    unfold MqStore.send sendValue
    rw [alone_check h1, alone_check h2, alone_check (delay_ok hd), look]
  | sendBatch n' payloads delay =>
    cases hop
    obtain ⟨hl, -, hd⟩ := ha
    refine answersNotFound_of (f := .ids) rfl ?_
    have hne : ¬ payloads.isEmpty = true := fun he => Bool.false_ne_true (hb.symm.trans he)
    unfold MqStore.sendBatch
    rw [alone_check hl, alone_check (delay_ok hd), if_neg hne, look]
  | read n' quantity timeout =>
    cases hop
    exact answersNotFound_of (f := .messages) rfl (read_unknown hv hq ha.1 ha.2)
  | readWithPoll n' quantity timeout maxPoll interval rounds =>
    cases hop
    obtain ⟨h1, h2, h3, h4⟩ := ha
    exact answersNotFound_of (f := .messages) rfl
      (readWithPoll_unknown hv hq h1 h2 h3 h4 (hd maxPoll rfl))
  | deadLetter n' id reason =>
    cases hop
    exact answersNotFound_of (f := .bool) rfl (look _)
  | listDlqMessages n' limit offset =>
    cases hop
    exact answersNotFound_of (f := .dlqPage) rfl (look _)
  | getDlqMessage n' id =>
    cases hop
    exact answersNotFound_of (f := .dlqMessage) rfl (look _)
  | reprocessDlqMessage n' id =>
    cases hop
    exact answersNotFound_of (f := .bool) rfl (look _)
  | purgeDlq n' =>
    cases hop
    exact answersNotFound_of (f := .count) rfl (look _)
  | ack n' id token =>
    cases hop
    exact answersNotFound_of (f := .bool) rfl ((alone_check ha).trans (look _))
  | archive n' id token =>
    cases hop
    exact answersNotFound_of (f := .bool) rfl ((alone_check ha).trans (look _))
  | setVisibilityTimeout n' id token timeout =>
    cases hop
    obtain ⟨h1, h2, h3⟩ := ha
    refine answersNotFound_of (f := .bool) rfl ?_
    unfold MqStore.setVisibilityTimeout
    rw [alone_check h1, alone_check (seconds_ok _ h2), alone_check h3, look]
  | metrics n' =>
    cases hop
    exact answersNotFound_of (f := .metrics) rfl (look _)

end

/-- **Unknown queue.**  In whatever state, an operation on a queue that has no row, called with
otherwise valid arguments, answers NotFound and changes nothing, if and only if it is no
`send_batch` of an empty list and no `read_with_poll` whose deadline is out of range. -/
theorem mq_unknown_queue (db : MqDb) {n : String} (hv : validateQueueName n = .ok ())
    (hq : ∀ x ∈ db.queues, x.name ≠ n) (s : Nat) (c : MqCtx) (call : MqCall)
    (hop : call.op.onQueue = some n) (ha : call.argsValid) :
    (∃ msg db', call.body.alone s c db = some (.error (.notFound msg), db') ∧ db' = db) ↔
      (∀ delay, call.op ≠ .sendBatch n [] delay) ∧
        ∀ maxPoll ∈ call.op.maxPoll, chrono.Fits c.now maxPoll := by
  have hnone : db.selectQueueId n = none := by
    rw [MqDb.selectQueueId, Option.map_eq_none_iff, List.find?_eq_none]
    exact fun x hx hn => hq x hx (by simpa using hn)
  constructor
  · intro h
    obtain ⟨msg, db', hrun, -⟩ := h
    refine ⟨fun delay he => ?_, fun maxPoll hmax => ?_⟩
    · obtain ⟨store, op⟩ := call
      obtain rfl : op = .sendBatch n [] delay := he
      obtain ⟨hl, -, hd⟩ := ha
      have hempty : (store.sendBatch n [] delay).alone s c db = some (.ok [], db) := by
        unfold MqStore.sendBatch
        rw [alone_check hl, alone_check (delay_ok hd)]
        rfl
      have hok : (MqCall.body ⟨store, .sendBatch n [] delay⟩).alone s c db
          = some (.ok (.ids []), db) := alone_bind_ok hempty
      rw [hok] at hrun
      cases hrun
    · by_contra hd
      obtain ⟨store, op⟩ := call
      cases op with
      | readWithPoll n' quantity timeout maxPoll' interval rounds =>
        cases hmax
        obtain ⟨h1, h2, h3, -⟩ := ha
        have hidle : (MqCall.body ⟨store, .readWithPoll n' quantity timeout maxPoll interval
            rounds⟩).alone s c db = none :=
          alone_bind_none (readWithPoll_idle h1 h2 h3 hd)
        rw [hidle] at hrun
        cases hrun
      | _ => cases hmax
  · rintro ⟨h, hd⟩
    refine ⟨_, _, answersNotFound hv hnone hop ha ?_ hd, rfl⟩
    cases hb : call.op.isEmptyBatch with
    | false => rfl
    | true =>
      obtain ⟨store, op⟩ := call
      cases op with
      | sendBatch n' payloads delay =>
        cases hop
        obtain rfl : payloads = [] := by simpa [MqOp.isEmptyBatch] using hb
        exact absurd rfl (h delay)
      | _ => cases hb

theorem mq_unknown_queue_metrics :
    ∃ msg db', (MqCall.body ⟨textStore, .metrics "orders"⟩).alone 0 (plainCtx 0) MqDb.empty
      = some (.error (.notFound msg), db') ∧ db' = MqDb.empty :=
  (mq_unknown_queue MqDb.empty (n := "orders") rfl (fun _ h => absurd h List.not_mem_nil) 0
    (plainCtx 0) ⟨textStore, .metrics "orders"⟩ rfl trivial).mpr
      ⟨fun _ h => (by cases h), fun _ h => (by cases h)⟩

/-- an empty batch for a queue that was never created is answered with success -/
theorem mq_unknown_queue_emptyBatch :
    validateQueueName "orders" = .ok () ∧
    (⟨textStore, .sendBatch "orders" [] 0⟩ : MqCall).argsValid ∧
    ((MqCall.body ⟨textStore, .sendBatch "orders" [] 0⟩).alone 0 (plainCtx 0) MqDb.empty).map
        (fun p => p.1.toOption.isSome) = some true ∧
    ¬ ∃ msg db', (MqCall.body ⟨textStore, .sendBatch "orders" [] 0⟩).alone 0 (plainCtx 0) MqDb.empty
      = some (.error (.notFound msg), db') ∧ db' = MqDb.empty := by
  refine ⟨rfl, ⟨rfl, fun _ h => absurd h List.not_mem_nil, le_refl 0⟩, rfl, fun h => ?_⟩
  obtain ⟨msg, db', hrun, -⟩ := h
  have hok : (MqCall.body ⟨textStore, .sendBatch "orders" [] 0⟩).alone 0 (plainCtx 0) MqDb.empty
      = some (.ok (.ids []), MqDb.empty) := rfl
  rw [hok] at hrun
  cases hrun

end PgApp
