import PgApp.Core.Calendar
import PgApp.Mq.Tables
import Mathlib.Data.List.Sort

/-!
# The SQL statements of `mq.rs`

`MqStmt` has one constructor per query of the file, with its bound parameters; `MqStmt.Res` is
what the driver hands back, and

    MqStmt.exec s c st db    what statement `st` of session `s` does to the tables, in one step.

The context `MqCtx` holds what the server adds: the clock, the md5 tokens of a claim (the text
hashed ends in `random()`) and the rows another transaction has locked just then, which
`FOR UPDATE SKIP LOCKED` passes over.

`now()` is the start of the transaction (`MqDb.now`).  Rows inserted in an open transaction stay
in `pending` until `commit`.  The foreign key makes a `DELETE` of a queue wait for the open
transactions that have inserted into it (`none`).  The transactions of `archive` and `reprocess`
hold one statement, on rows it locks until the COMMIT: nobody else can tell that statement from one
that runs at the COMMIT, so it takes effect where it stands; a call that is dropped before the
COMMIT has not executed it (`NetStmt.brackets`).

A timeout is taken here whatever its length, and a token whatever it holds.  Where PostgreSQL
refuses one, the statement fails and changes nothing; where `chrono` cannot read the deadline of a
claim, the rows are claimed and the answer is lost.  Results that speak of such an answer ask for
what both take (`MqStmt.Bindable`, `Calendar.Fits`).
-/

namespace PgApp
open Interleave

structure QueueMessage where
  id : Int
  readCount : Int
  enqueuedAt : Time
  visibilityTimeoutAt : Option Time
  ackToken : String
  payload : Json

structure DlqMessage where
  id : Int
  originalMessageId : Int
  readCount : Int
  enqueuedAt : Time
  deadLetteredAt : Time
  payload : Json
  reason : String

/-- the first row of the `metrics` query -/
structure MessageCounts where
  visibleCount : Int
  inFlightCount : Int
  oldestAge : Int

structure MqCtx where
  now : Time
  token : Int → String
  locked : List Int

/-! ## `mq_queues` -/

/-- `INSERT INTO mq_queues … ON CONFLICT (name) DO NOTHING`; the id is drawn either way -/
def MqDb.insertQueue (db : MqDb) (name : String) (durable : Bool) (limit : Option Int) : MqDb :=
  if db.queues.any (·.name == name) then { db with nextQueueId := db.nextQueueId + 1 }
  else { db with queues := db.queues ++ [⟨db.nextQueueId, name, durable, limit⟩],
                 nextQueueId := db.nextQueueId + 1 }

/-- `SELECT id FROM mq_queues WHERE name = $1` -/
def MqDb.selectQueueId (db : MqDb) (name : String) : Option Int :=
  (db.queues.find? (·.name == name)).map (·.id)

/-- `DELETE FROM mq_queues WHERE name = $1` with its ON DELETE CASCADE -/
def MqDb.deleteQueue (db : MqDb) (name : String) : Nat × MqDb :=
  let gone := (db.queues.filter (·.name == name)).map (·.id)
  (gone.length,
    { db with queues := db.queues.filter (·.name != name),
              messages := db.messages.filter fun m => !gone.contains m.queueId,
              archives := db.archives.filter fun a => !gone.contains a.queueId,
              dlq := db.dlq.filter fun d => !gone.contains d.queueId })

/-- the open transaction has inserted a message of the queue `name` -/
def MqDb.holdsQueue (db : MqDb) (name : String) (t : MqTx) : Bool :=
  t.pending.any fun m => db.queues.any fun q => q.name == name && q.id == m.queueId

/-! ## `mq_messages` -/

/-- `now()` of session `s`: the start of its transaction -/
def MqDb.now (db : MqDb) (s : Nat) (clock : Time) : Time :=
  match db.txs.get s with
  | none => clock
  | some t => t.startedAt

/-- the row of `INSERT INTO mq_messages(queue_id, payload, available_at)` -/
def newMessage (id queueId : Int) (payload : Json) (now : Time) (delaySeconds : Int) : MessageRow :=
  ⟨id, queueId, payload, .obj [], now + seconds delaySeconds, none, none, 0, none, now, now⟩

/-- the insert of `send_value` and `send_batch`, inside the transaction `t` of session `s`; an
insert that fails leaves a gap in the ids -/
def MqDb.insertMessage (db : MqDb) (s : Nat) (t : MqTx) (queueId : Int) (payload : Json)
    (delaySeconds : Int) : Except SqlError Int × MqDb :=
  let failed (e : SqlError) : Except SqlError Int × MqDb :=
    (.error e, { db with nextMessageId := db.nextMessageId + 1 })
  if !payload.storable then failed .unsupportedUnicode
  else if ¬ postgres.Fits t.startedAt delaySeconds then failed (.outOfRange "timestamp")
  else if db.queues.any (·.id == queueId) then
    let row := newMessage db.nextMessageId queueId payload t.startedAt delaySeconds
    (.ok db.nextMessageId,
      { db with nextMessageId := db.nextMessageId + 1,
                txs := db.txs.set s { t with pending := t.pending ++ [row] } })
  else failed (.foreignKeyViolation "mq_messages" "mq_messages_queue_id_fkey")

def MqDb.begin (db : MqDb) (s : Nat) (clock : Time) : MqDb :=
  { db with txs := db.txs.set s ⟨clock, []⟩ }

def MqDb.commit (db : MqDb) (s : Nat) : MqDb :=
  match db.txs.get s with
  | none => db
  | some t => { db with messages := db.messages ++ t.pending, txs := db.txs.erase s }

def MqDb.rollback (db : MqDb) (s : Nat) : MqDb := { db with txs := db.txs.erase s }

/-- the `picked` CTE of `read` -/
def MqDb.picked (db : MqDb) (queueId quantity : Int) (now : Time) (locked : List Int) : List Int :=
  (((db.messages.filter fun m => m.queueId == queueId && m.visible now && !locked.contains m.id).map
    (·.id)).insertionSort (· ≤ ·)).take quantity.toNat

/-- the SET list of the claiming UPDATE -/
def MessageRow.claim (m : MessageRow) (now : Time) (timeoutSeconds : Int) (token : String) :
    MessageRow :=
  { m with visibilityTimeoutAt := some (now + seconds timeoutSeconds), ackToken := some token,
           readCount := m.readCount + 1, lastReadAt := some now, updatedAt := now }

/-- `row_to_message` -/
def rowToMessage (m : MessageRow) : QueueMessage :=
  ⟨m.id, m.readCount, m.createdAt, m.visibilityTimeoutAt, m.ackToken.getD "", m.payload⟩

/-- the claiming UPDATE of `read`: it fails as a whole when `read_count + 1` leaves the i32 range -/
def MqDb.claim (db : MqDb) (queueId quantity timeoutSeconds : Int) (now : Time) (c : MqCtx) :
    Except SqlError (List QueueMessage) × MqDb :=
  let ids := db.picked queueId quantity now c.locked
  if db.messages.any fun m => ids.contains m.id && i32Max < m.readCount + 1 then
    (.error .integerOutOfRange, db)
  else
    (.ok ((db.messages.filter fun m => ids.contains m.id).map fun m =>
        rowToMessage (m.claim now timeoutSeconds (c.token m.id))),
      { db with messages := db.messages.map fun m =>
          if ids.contains m.id then m.claim now timeoutSeconds (c.token m.id) else m })

/-- the DELETE of `ack` -/
def MqDb.ack (db : MqDb) (queueId id : Int) (token : String) (now : Time) : Nat × MqDb :=
  ((db.messages.filter fun m => m.heldBy queueId id token now).length,
    { db with messages := db.messages.filter fun m => !m.heldBy queueId id token now })

/-- the UPDATE of `set_visibility_timeout` -/
def MqDb.setVisibility (db : MqDb) (queueId id : Int) (token : String) (timeoutSeconds : Int)
    (now : Time) : Nat × MqDb :=
  ((db.messages.filter fun m => m.heldBy queueId id token now).length,
    { db with messages := db.messages.map fun m =>
        if m.heldBy queueId id token now then
          { m with visibilityTimeoutAt := some (now + seconds timeoutSeconds), updatedAt := now }
        else m })

/-! ## `mq_archives` -/

def MqDb.insertArchive (now : Time) (db : MqDb) (m : MessageRow) : MqDb :=
  { db with archives := db.archives ++
              [⟨db.nextArchiveId, m.queueId, m.id, m.payload, m.headers, m.readCount,
                m.createdAt, now⟩],
            nextArchiveId := db.nextArchiveId + 1 }

/-- the statement of `archive`: delete the held row, insert it into `mq_archives` -/
def MqDb.archive (db : MqDb) (queueId id : Int) (token : String) (now : Time) : Nat × MqDb :=
  let moved := db.messages.filter fun m => m.heldBy queueId id token now
  (moved.length, moved.foldl (MqDb.insertArchive now)
    { db with messages := db.messages.filter fun m => !m.heldBy queueId id token now })

/-! ## `mq_dlq` -/

/-- the unique index on `(queue_id, original_message_id)` -/
def MqDb.dlqConflict (db : MqDb) (m : MessageRow) : Bool :=
  db.dlq.any fun d => d.queueId == m.queueId && d.originalMessageId == m.id

/-- `INSERT INTO mq_dlq … ON CONFLICT (queue_id, original_message_id) DO NOTHING` -/
def MqDb.insertDlq (now : Time) (reason : String) (db : MqDb) (m : MessageRow) : MqDb :=
  if db.dlqConflict m then { db with nextDlqId := db.nextDlqId + 1 }
  else { db with dlq := db.dlq ++ [⟨db.nextDlqId, m.queueId, m.id, m.payload, m.headers,
    m.readCount,
                   m.createdAt, now, reason⟩],
                 nextDlqId := db.nextDlqId + 1 }

/-- both dead-letter statements: delete the rows with `sel`, insert them into `mq_dlq` -/
def MqDb.moveToDlq (db : MqDb) (sel : MessageRow → Bool) (now : Time) (reason : String) :
    Nat × MqDb :=
  let db' := (db.messages.filter sel).foldl (MqDb.insertDlq now reason)
    { db with messages := db.messages.filter fun m => !sel m }
  (db'.dlq.length - db.dlq.length, db')

/-- the statement of `dead_letter` -/
def MqDb.deadLetter (db : MqDb) (queueId id : Int) (reason : String) (now : Time) : Nat × MqDb :=
  db.moveToDlq (fun m => m.queueId == queueId && m.id == id) now reason

/-- `COALESCE(max_redelivery_count, 0)` of the queue, if the queue exists -/
def MqDb.limitOf (db : MqDb) (queueId : Int) : Option Int :=
  (db.queues.find? (·.id == queueId)).map fun q => q.maxRedeliveryCount.getD 0

/-- the rows `dead_letter_due_messages` moves -/
def MessageRow.due (m : MessageRow) (queueId limit : Int) (now : Time) : Bool :=
  m.queueId == queueId && 0 < limit && limit ≤ m.readCount && m.visible now

/-- the statement of `dead_letter_due_messages` -/
def MqDb.deadLetterDue (db : MqDb) (queueId : Int) (now : Time) : Nat × MqDb :=
  match db.limitOf queueId with
  | none => (0, db)
  | some limit =>
    db.moveToDlq (fun m => m.due queueId limit now) now s!"max_redelivery_count={limit}"

/-- the row of the INSERT of `reprocess_dlq_message` -/
def DlqRow.reprocessed (d : DlqRow) (now : Time) : MessageRow :=
  ⟨d.originalMessageId, d.queueId, d.payload, .obj [], now, none, none, 0, none, d.enqueuedAt, now⟩

def DlqRow.isEntry (d : DlqRow) (queueId id : Int) : Bool :=
  d.queueId == queueId && d.originalMessageId == id

/-- the statement of `reprocess_dlq_message`: it fails on a primary-key clash -/
def MqDb.reprocess (db : MqDb) (queueId id : Int) (now : Time) : Except SqlError Nat × MqDb :=
  let moved := db.dlq.filter fun d => d.isEntry queueId id
  if moved.any fun d => db.messages.any fun m => m.id == d.originalMessageId then
    (.error (.uniqueViolation "mq_messages_pkey"), db)
  else
    (.ok moved.length,
      { db with dlq := db.dlq.filter fun d => !d.isEntry queueId id,
                messages := db.messages ++ moved.map fun d => d.reprocessed now })

def MqDb.deleteDlq (db : MqDb) (queueId : Int) : Nat × MqDb :=
  ((db.dlq.filter fun d => d.queueId == queueId).length,
    { db with dlq := db.dlq.filter fun d => d.queueId != queueId })

/-- `dead_lettered_at < now() - $1 * interval '1 day'` -/
def DlqRow.stale (d : DlqRow) (retentionDays : Int) (now : Time) : Bool :=
  d.deadLetteredAt < now - days retentionDays

def MqDb.sweepDlq (db : MqDb) (retentionDays : Int) (now : Time) : Nat × MqDb :=
  ((db.dlq.filter fun d => d.stale retentionDays now).length,
    { db with dlq := db.dlq.filter fun d => !d.stale retentionDays now })

/-- `row_to_dlq_message` -/
def rowToDlqMessage (d : DlqRow) : DlqMessage :=
  ⟨d.id, d.originalMessageId, d.readCount, d.enqueuedAt, d.deadLetteredAt, d.payload, d.reason⟩

/-- `ORDER BY dead_lettered_at DESC, id DESC` -/
def dlqBefore (a b : DlqRow) : Prop :=
  b.deadLetteredAt < a.deadLetteredAt ∨ (a.deadLetteredAt = b.deadLetteredAt ∧ b.id ≤ a.id)

instance : DecidableRel dlqBefore := fun a b => inferInstanceAs (Decidable
  (b.deadLetteredAt < a.deadLetteredAt ∨ (a.deadLetteredAt = b.deadLetteredAt ∧ b.id ≤ a.id)))

/-- the SELECT of `list_dlq_messages`, `LIMIT $2 OFFSET $3` -/
def MqDb.selectDlqPage (db : MqDb) (queueId limit offset : Int) :
    Except SqlError (List DlqMessage) :=
  if limit < 0 then .error .negativeLimit
  else .ok (((((db.dlq.filter fun d => d.queueId == queueId).insertionSort dlqBefore).drop
    offset.toNat).take limit.toNat).map rowToDlqMessage)

/-- the SELECT of `get_dlq_message` -/
def MqDb.selectDlq (db : MqDb) (queueId id : Int) : Option DlqMessage :=
  (db.dlq.find? fun d => d.isEntry queueId id).map rowToDlqMessage

/-! ## the counts of `metrics` -/

/-- `EXTRACT(EPOCH FROM d)::bigint`: to the nearest second, halves away from zero -/
def epochSeconds (d : Time) : Int :=
  if 0 ≤ d then (d + 500000) / 1000000 else -((-d + 500000) / 1000000)

def MqDb.countMessages (db : MqDb) (queueId : Int) (now : Time) : MessageCounts :=
  let mine := db.messages.filter fun m => m.queueId == queueId
  let visible := mine.filter fun m => m.visible now
  ⟨visible.length, (mine.filter fun m => m.inFlight now).length,
    match (visible.map (·.createdAt)).min? with
    | none => 0
    | some oldest => epochSeconds (now - oldest)⟩

def MqDb.countArchives (db : MqDb) (queueId : Int) : Int :=
  (db.archives.filter fun a => a.queueId == queueId).length

def MqDb.countDlq (db : MqDb) (queueId : Int) : Int :=
  (db.dlq.filter fun d => d.queueId == queueId).length

/-! ## statements -/

inductive MqStmt where
  | insertQueue (name : String) (durable : Bool) (maxRedeliveryCount : Option Int)
  | selectQueueId (name : String)
  | deleteQueue (name : String)
  | deleteMessages (queueId : Int)
  | begin
  | commit
  | rollback
  | insertMessage (queueId : Int) (payload : Json) (delaySeconds : Int)
  | pgNotify (channel payload : String)
  | deadLetterDue (queueId : Int)
  | claim (queueId quantity timeoutSeconds : Int)
  | deadLetter (queueId id : Int) (reason : String)
  | selectDlqPage (queueId limit offset : Int)
  | selectDlq (queueId id : Int)
  | reprocess (queueId id : Int)
  | deleteDlq (queueId : Int)
  | sweepDlq (retentionDays : Int)
  | ack (queueId id : Int) (token : String)
  | archive (queueId id : Int) (token : String)
  | setVisibility (queueId id : Int) (token : String) (timeoutSeconds : Int)
  | countMessages (queueId : Int)
  | countArchives (queueId : Int)
  | countDlq (queueId : Int)
  | utcNow
  | sleep (duration : Time)
  | idle

/-- the answer of a statement: rows, a number of rows affected, or a database error -/
abbrev MqStmt.Res : MqStmt → Type
  | .selectQueueId _ => Option Int
  | .deleteQueue _ => Nat
  | .insertMessage _ _ _ => Except SqlError Int
  | .pgNotify _ _ => Except SqlError Unit
  | .deadLetterDue _ => Nat
  | .claim _ _ _ => Except SqlError (List QueueMessage)
  | .deadLetter _ _ _ => Nat
  | .selectDlqPage _ _ _ => Except SqlError (List DlqMessage)
  | .selectDlq _ _ => Option DlqMessage
  | .reprocess _ _ => Except SqlError Nat
  | .deleteDlq _ => Nat
  | .sweepDlq _ => Nat
  | .ack _ _ _ => Nat
  | .archive _ _ _ => Nat
  | .setVisibility _ _ _ _ => Nat
  | .countMessages _ => MessageCounts
  | .countArchives _ => Int
  | .countDlq _ => Int
  | .utcNow => Time
  | _ => Unit

/-- `pg_notify` refuses a channel name of 64 bytes or more -/
def notifyChannel (channel : String) : Except SqlError Unit :=
  if 63 < channel.utf8ByteSize then .error .channelNameTooLong else .ok ()

/-- one statement of session `s`; `none` means that it has to wait -/
def MqStmt.exec (s : Nat) (c : MqCtx) : (st : MqStmt) → MqDb → Option (st.Res × MqDb)
  | .insertQueue name durable limit, db => some ((), db.insertQueue name durable limit)
  | .selectQueueId name, db => some (db.selectQueueId name, db)
  | .deleteQueue name, db =>
      if db.txs.others s (db.holdsQueue name) then none else some (db.deleteQueue name)
  | .deleteMessages q, db =>
      some ((), { db with messages := db.messages.filter fun m => m.queueId != q })
  | .begin, db => some ((), db.begin s c.now)
  | .commit, db => some ((), db.commit s)
  | .rollback, db => some ((), db.rollback s)
  | .insertMessage q payload delay, db =>
      match db.txs.get s with
      | none => none
      | some t => some (db.insertMessage s t q payload delay)
  | .pgNotify channel _, db => some (notifyChannel channel, db)
  | .deadLetterDue q, db => some (db.deadLetterDue q (db.now s c.now))
  | .claim q quantity timeout, db => some (db.claim q quantity timeout (db.now s c.now) c)
  | .deadLetter q id reason, db => some (db.deadLetter q id reason (db.now s c.now))
  | .selectDlqPage q limit offset, db => some (db.selectDlqPage q limit offset, db)
  | .selectDlq q id, db => some (db.selectDlq q id, db)
  | .reprocess q id, db => some (db.reprocess q id (db.now s c.now))
  | .deleteDlq q, db => some (db.deleteDlq q)
  | .sweepDlq n, db => some (db.sweepDlq n (db.now s c.now))
  | .ack q id token, db => some (db.ack q id token (db.now s c.now))
  | .archive q id token, db => some (db.archive q id token (db.now s c.now))
  | .setVisibility q id token timeout, db =>
      some (db.setVisibility q id token timeout (db.now s c.now))
  | .countMessages q, db => some (db.countMessages q (db.now s c.now), db)
  | .countArchives q, db => some (db.countArchives q, db)
  | .countDlq q, db => some (db.countDlq q, db)
  | .utcNow, db => some (c.now, db)
  | .sleep _, db => some ((), db)
  | .idle, _ => none

end PgApp
