import PgApp.Core.Base
import PgApp.Interleave.Slots

/-!
# The MQ tables (`migrations/0002_mq.sql`, `migrations/0005_dlq.sql`)

One record per table row, with the columns that some statement of `mq.rs` writes or reads
(`mq_queues` has four more columns no statement of the store touches), and

* `MqTx`   what an open transaction of a session holds back: the rows it has inserted, which
           nobody else sees before its commit, and its `now()`;
* `MqDb`   the committed tables, the four BIGSERIAL sequences and the open transactions.

A sequence is its next value.  It only ever grows, also when the statement that drew from it
fails: this is the one thing assumed of BIGSERIAL, that no value is issued twice.
-/

namespace PgApp

/-- a row of `mq_queues` -/
structure QueueRow where
  id : Int
  name : String
  durable : Bool
  maxRedeliveryCount : Option Int

/-- a row of `mq_messages` -/
structure MessageRow where
  id : Int
  queueId : Int
  payload : Json
  headers : Json
  availableAt : Time
  visibilityTimeoutAt : Option Time
  ackToken : Option String
  readCount : Int
  lastReadAt : Option Time
  createdAt : Time
  updatedAt : Time

/-- a row of `mq_archives` -/
structure ArchiveRow where
  id : Int
  queueId : Int
  originalMessageId : Int
  payload : Json
  headers : Json
  readCount : Int
  enqueuedAt : Time
  archivedAt : Time

/-- a row of `mq_dlq` -/
structure DlqRow where
  id : Int
  queueId : Int
  originalMessageId : Int
  payload : Json
  headers : Json
  readCount : Int
  enqueuedAt : Time
  deadLetteredAt : Time
  reason : String

/-- an open transaction: its `now()` and the messages it has inserted -/
structure MqTx where
  startedAt : Time
  pending : List MessageRow

structure MqDb where
  queues : List QueueRow
  messages : List MessageRow
  archives : List ArchiveRow
  dlq : List DlqRow
  nextQueueId : Int
  nextMessageId : Int
  nextArchiveId : Int
  nextDlqId : Int
  txs : Interleave.Slots MqTx

/-- the schema just created -/
def MqDb.empty : MqDb := ⟨[], [], [], [], 1, 1, 1, 1, []⟩

/-- `available_at <= now() AND (visibility_timeout_at IS NULL OR visibility_timeout_at <= now())` -/
def MessageRow.visible (m : MessageRow) (now : Time) : Bool :=
  m.availableAt ≤ now && (match m.visibilityTimeoutAt with | none => true | some t => t ≤ now)

/-- `visibility_timeout_at > now()`: false on NULL -/
def MessageRow.inFlight (m : MessageRow) (now : Time) : Bool :=
  match m.visibilityTimeoutAt with
  | none => false
  | some t => now < t

/-- `queue_id = $1 AND id = $2 AND ack_token = $3 AND visibility_timeout_at > now()` -/
def MessageRow.heldBy (m : MessageRow) (queueId id : Int) (token : String) (now : Time) : Bool :=
  m.queueId == queueId && m.id == id && m.ackToken == some token && m.inFlight now

/-! ## the three places of a message -/

def MqDb.messageIds (db : MqDb) : List Int := db.messages.map (·.id)
def MqDb.dlqIds (db : MqDb) : List Int := db.dlq.map (·.originalMessageId)
def MqDb.archiveIds (db : MqDb) : List Int := db.archives.map (·.originalMessageId)

/-- every place a message id can be, with multiplicity -/
def MqDb.places (db : MqDb) : List Int := db.messageIds ++ db.dlqIds ++ db.archiveIds

/-- ids a session has inserted and not yet committed -/
def MqDb.pendingIds (db : MqDb) (s : Nat) : List Int :=
  match db.txs.get s with
  | none => []
  | some t => t.pending.map (·.id)

end PgApp
