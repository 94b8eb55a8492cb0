import PgApp.Mq.Stmt
import PgApp.Core.Validation
import PgApp.Interleave.System

/-!
# The operations of `MqStore` (`mq.rs`) as programs

Every public function of the store, statement by statement and check by check, in the order of
the source.  A transaction is `begin`, its statements and `commit`; leaving it with an error
drops it, which rolls it back (`Prog.bracket`).

`MqStore` is what one server process brings: its settings and the JSON parser it links
(`serde_json::from_str`, not part of the repository).  Calls of different processes may bring
different settings; `MqCall` is a call together with its store, `MqCall.body` its program, and
`MqReach` is reachability from an empty schema under every interleaving of calls.

The polling loops have a bound on their rounds: with `n` rounds a loop that is not done after
`n` reads waits for ever (`idle`), so every run of the real loop that ends is a run of some `n`.
-/

namespace PgApp
open Interleave

inductive QueueStorageMode where
  | durable
  | transient
deriving DecidableEq

structure MqLimits where
  maxBatchSize : Int := 100
  maxPayloadBytes : Nat := 1024 * 1024
  maxVisibilityTimeoutSeconds : Int := 12 * 60 * 60
  maxRedeliveryCount : Int := 0

structure MqStore where
  transientEnabled : Bool
  limits : MqLimits
  fromStr : String → Except String Json

structure QueueMetrics where
  visibleMessageCount : Int
  inFlightMessageCount : Int
  oldestVisibleMessageAgeSeconds : Int
  archivedMessageCount : Int
  dlqMessageCount : Int

structure DlqPage where
  messages : List DlqMessage
  nextOffset : Option Int

abbrev MqProg := Prog MqStmt MqStmt.Res PgAppError

/-- issue a statement -/
def query (st : MqStmt) : MqProg st.Res := Prog.call st

/-- the body of a transaction between `begin` and `commit` -/
def inTx {α : Type} (p : MqProg α) : MqProg α :=
  .exec .begin fun _ => p.bracket .commit .rollback

/-! ## checks -/

def MqStore.validateBatchLen (store : MqStore) (len : Nat) : PgAppResult Unit :=
  if len > asUsize store.limits.maxBatchSize then
    .error (.invalidArgument s!"batch size must be less than or equal to {store.limits.maxBatchSize}")
  else .ok ()

def MqStore.validatePayloadSize (store : MqStore) (payload : String) : PgAppResult Unit :=
  if payload.utf8ByteSize > store.limits.maxPayloadBytes then
    .error (.invalidArgument s!"payload exceeds {store.limits.maxPayloadBytes} bytes")
  else .ok ()

def MqStore.validateVisibilityTimeout (store : MqStore) (seconds : Int) : PgAppResult Unit :=
  if seconds > store.limits.maxVisibilityTimeoutSeconds then
    .error (.invalidArgument
      s!"visibility_timeout_seconds must be less than or equal to {store.limits.maxVisibilityTimeoutSeconds}")
  else .ok ()

def MqStore.pageLimit (store : MqStore) (limit : Int) : PgAppResult Int :=
  if limit < 0 then .error (.invalidArgument "limit must not be negative")
  else if limit = 0 then .ok store.limits.maxBatchSize
  else .ok (min limit store.limits.maxBatchSize)

def validateAckToken (ackToken : String) : PgAppResult Unit :=
  if blank ackToken then .error (.invalidArgument "ack_token must not be empty")
  else if ackToken.utf8ByteSize > 256 then
    .error (.invalidArgument "ack_token must be at most 256 bytes")
  else .ok ()

def MqStore.parseJsonPayload (store : MqStore) (payload : String) : PgAppResult Json :=
  (store.fromStr payload).mapError fun err => .invalidArgument s!"invalid JSON payload: {err}"

/-- `mq_channel` of `listen.rs` -/
def mqChannel (queueName : String) : PgAppResult String :=
  match validateQueueName queueName with
  | .ok () => .ok s!"pgapp_mq_{queueName}"
  | .error e => .error e

/-! ## queues -/

def queueId (queueName : String) : MqProg Int := do
  Prog.check (validateQueueName queueName)
  match ← query (.selectQueueId queueName) with
  | some id => pure id
  | none => Prog.throw (.notFound s!"queue {queueName}")

/-- `NULLIF(n, 0)` -/
def nullIfZero (n : Int) : Option Int := if n = 0 then none else some n

def MqStore.createQueue (store : MqStore) (queueName : String) (mode : QueueStorageMode) :
    MqProg Unit := do
  Prog.check (validateQueueName queueName)
  if mode = .transient ∧ store.transientEnabled = false then
    Prog.throw (.invalidArgument "transient queues are disabled")
  else
    query (.insertQueue queueName (mode == .durable) (nullIfZero store.limits.maxRedeliveryCount))

def purgeQueue (queueName : String) : MqProg Unit := do
  let q ← queueId queueName
  query (.deleteMessages q)

def dropQueue (queueName : String) : MqProg Unit := do
  Prog.check (validateQueueName queueName)
  let deleted ← query (.deleteQueue queueName)
  if deleted = 0 then Prog.throw (.notFound s!"queue {queueName}") else pure ()

/-! ## sending -/

def notifyQueue (queueName : String) (count : Nat) : MqProg Unit := do
  let channel ← Prog.check (mqChannel queueName)
  orFail (← query (.pgNotify channel s!"{count}"))

def sendValue (queueName : String) (payload : Json) (delaySeconds : Int) : MqProg Int := do
  let _ ← Prog.check (validateNonNegativeSeconds "delay_seconds" delaySeconds)
  let q ← queueId queueName
  inTx do
    let id ← orFail (← query (.insertMessage q payload delaySeconds))
    notifyQueue queueName 1
    pure id

def MqStore.send (store : MqStore) (queueName jsonPayload : String) (delaySeconds : Int) :
    MqProg Int := do
  Prog.check (store.validatePayloadSize jsonPayload)
  let payload ← Prog.check (store.parseJsonPayload jsonPayload)
  sendValue queueName payload delaySeconds

/-- the closure that `send_batch` maps over its payloads -/
def MqStore.parsePayload (store : MqStore) (payload : String) : PgAppResult Json :=
  match store.validatePayloadSize payload with
  | .error e => .error e
  | .ok () => store.parseJsonPayload payload

/-- `collect::<PgAppResult<Vec<_>>>`: the first error, or all the values -/
def collectPayloads (store : MqStore) : List String → PgAppResult (List Json)
  | [] => .ok []
  | payload :: rest =>
    match store.parsePayload payload with
    | .error e => .error e
    | .ok value =>
      match collectPayloads store rest with
      | .error e => .error e
      | .ok values => .ok (value :: values)

/-- the insert loop of `send_batch` -/
def insertAll (q delaySeconds : Int) : List Json → List Int → MqProg (List Int)
  | [], ids => pure ids
  | payload :: rest, ids => do
    let id ← orFail (← query (.insertMessage q payload delaySeconds))
    insertAll q delaySeconds rest (ids ++ [id])

def MqStore.sendBatch (store : MqStore) (queueName : String) (jsonPayloads : List String)
    (delaySeconds : Int) : MqProg (List Int) := do
  Prog.check (store.validateBatchLen jsonPayloads.length)
  let _ ← Prog.check (validateNonNegativeSeconds "delay_seconds" delaySeconds)
  if jsonPayloads.isEmpty then pure []
  else do
    let q ← queueId queueName
    let payloads ← Prog.check (collectPayloads store jsonPayloads)
    inTx do
      let ids ← insertAll q delaySeconds payloads []
      notifyQueue queueName ids.length
      pure ids

/-! ## reading -/

def MqStore.read (store : MqStore) (queueName : String) (quantity timeoutSeconds : Int) :
    MqProg (List QueueMessage) := do
  let _ ← Prog.check (validateQuantity quantity store.limits.maxBatchSize)
  let _ ← Prog.check (validateNonNegativeSeconds "visibility_timeout_seconds" timeoutSeconds)
  Prog.check (store.validateVisibilityTimeout timeoutSeconds)
  let q ← queueId queueName
  let _ ← query (.deadLetterDue q)
  orFail (← query (.claim q quantity timeoutSeconds))

/-- the loop of `read_with_poll` -/
def MqStore.pollLoop (store : MqStore) (queueName : String) (quantity timeoutSeconds : Int)
    (interval deadline : Time) : Nat → MqProg (List QueueMessage)
  | 0 => .exec .idle fun _ => pure []
  | rounds + 1 => do
    let messages ← store.read queueName quantity timeoutSeconds
    if messages.isEmpty then
      let now ← query .utcNow
      if deadline ≤ now then pure messages
      else do
        query (.sleep interval)
        store.pollLoop queueName quantity timeoutSeconds interval deadline rounds
    else pure messages

def pollInterval (pollIntervalMillis : Int) : Time :=
  if pollIntervalMillis ≤ 0 then millis 100 else millis pollIntervalMillis

/-- the loop up to its deadline; a deadline that `chrono` cannot hold is a panic, and the call never
answers -/
def MqStore.pollUntil (store : MqStore) (queueName : String) (quantity timeoutSeconds : Int)
    (interval : Time) (deadline : Option Time) (rounds : Nat) : MqProg (List QueueMessage) :=
  match deadline with
  | none => .exec .idle fun _ => pure []
  | some deadline =>
    store.pollLoop queueName quantity timeoutSeconds interval deadline rounds

/-- the call that panics is a loop of no rounds -/
theorem MqStore.pollUntil_of {store : MqStore} {n : String} {quantity timeout : Int}
    {interval : Time} {P : MqProg (List QueueMessage) → Prop}
    (h : ∀ deadline rounds, P (store.pollLoop n quantity timeout interval deadline rounds))
    (deadline : Option Time) (rounds : Nat) :
    P (store.pollUntil n quantity timeout interval deadline rounds) := by
  cases deadline with
  | none => exact h 0 0
  | some deadline => exact h deadline rounds

def MqStore.readWithPoll (store : MqStore) (queueName : String)
    (quantity timeoutSeconds maxPollSeconds pollIntervalMillis : Int) (rounds : Nat) :
    MqProg (List QueueMessage) := do
  let _ ← Prog.check (validateQuantity quantity store.limits.maxBatchSize)
  let _ ← Prog.check (validateNonNegativeSeconds "visibility_timeout_seconds" timeoutSeconds)
  Prog.check (store.validateVisibilityTimeout timeoutSeconds)
  let _ ← Prog.check (validateNonNegativeSeconds "max_poll_seconds" maxPollSeconds)
  let now ← query .utcNow
  store.pollUntil queueName quantity timeoutSeconds (pollInterval pollIntervalMillis)
    (chrono.deadline now maxPollSeconds) rounds

/-- `stream_read_next` of `pgapp-server`; waiting for a notification is a pause of at most the
poll interval -/
def MqStore.streamReadNext (store : MqStore) (queueName : String)
    (quantity timeoutSeconds : Int) : Nat → MqProg (List QueueMessage)
  | 0 => .exec .idle fun _ => pure []
  | rounds + 1 => do
    let messages ← store.read queueName quantity timeoutSeconds
    if messages.isEmpty then do
      query (.sleep (millis 100))
      store.streamReadNext queueName quantity timeoutSeconds rounds
    else pure messages

/-! ## the dead letter queue -/

def deadLetter (queueName : String) (messageId : Int) (reason : String) : MqProg Bool := do
  let q ← queueId queueName
  let moved ← query (.deadLetter q messageId reason)
  pure (decide (0 < moved))

def MqStore.listDlqMessages (store : MqStore) (queueName : String) (limit offset : Int) :
    MqProg DlqPage := do
  let q ← queueId queueName
  if offset < 0 then Prog.throw (.invalidArgument "offset must not be negative")
  else do
    let limit ← Prog.check (store.pageLimit limit)
    let rows ← orFail (← query (.selectDlqPage q (limit + 1) offset))
    pure ⟨rows.take (asUsize limit), if limit < rows.length then some (offset + limit) else none⟩

def getDlqMessage (queueName : String) (originalMessageId : Int) : MqProg DlqMessage := do
  let q ← queueId queueName
  match ← query (.selectDlq q originalMessageId) with
  | some m => pure m
  | none => Prog.throw (.notFound s!"DLQ message {originalMessageId}")

def reprocessDlqMessage (queueName : String) (originalMessageId : Int) : MqProg Bool := do
  let q ← queueId queueName
  inTx do
    let inserted ← orFail (← query (.reprocess q originalMessageId))
    pure (decide (0 < inserted))

def purgeDlq (queueName : String) : MqProg Int := do
  let q ← queueId queueName
  let deleted ← query (.deleteDlq q)
  pure deleted

def sweepDlq (retentionDays : Int) : MqProg Int :=
  if retentionDays ≤ 0 then pure 0
  else do
    let deleted ← query (.sweepDlq retentionDays)
    pure deleted

/-! ## acknowledging -/

def ack (queueName : String) (messageId : Int) (ackToken : String) : MqProg Bool := do
  Prog.check (validateAckToken ackToken)
  let q ← queueId queueName
  let deleted ← query (.ack q messageId ackToken)
  pure (decide (0 < deleted))

def archive (queueName : String) (messageId : Int) (ackToken : String) : MqProg Bool := do
  Prog.check (validateAckToken ackToken)
  let q ← queueId queueName
  inTx do
    let inserted ← query (.archive q messageId ackToken)
    pure (decide (0 < inserted))

def MqStore.setVisibilityTimeout (store : MqStore) (queueName : String) (messageId : Int)
    (ackToken : String) (timeoutSeconds : Int) : MqProg Bool := do
  Prog.check (validateAckToken ackToken)
  let _ ← Prog.check (validateNonNegativeSeconds "visibility_timeout_seconds" timeoutSeconds)
  Prog.check (store.validateVisibilityTimeout timeoutSeconds)
  let q ← queueId queueName
  let updated ← query (.setVisibility q messageId ackToken timeoutSeconds)
  pure (decide (0 < updated))

def metrics (queueName : String) : MqProg QueueMetrics := do
  let q ← queueId queueName
  let row ← query (.countMessages q)
  let archived ← query (.countArchives q)
  let dlq ← query (.countDlq q)
  pure ⟨row.visibleCount, row.inFlightCount, row.oldestAge, archived, dlq⟩

/-! ## calls -/

inductive MqOp where
  | createQueue (queueName : String) (mode : QueueStorageMode)
  | purgeQueue (queueName : String)
  | dropQueue (queueName : String)
  | send (queueName jsonPayload : String) (delaySeconds : Int)
  | sendBatch (queueName : String) (jsonPayloads : List String) (delaySeconds : Int)
  | read (queueName : String) (quantity timeoutSeconds : Int)
  | readWithPoll (queueName : String)
      (quantity timeoutSeconds maxPollSeconds pollIntervalMillis : Int) (rounds : Nat)
  | streamReadNext (queueName : String) (quantity timeoutSeconds : Int) (rounds : Nat)
  | deadLetter (queueName : String) (messageId : Int) (reason : String)
  | listDlqMessages (queueName : String) (limit offset : Int)
  | getDlqMessage (queueName : String) (originalMessageId : Int)
  | reprocessDlqMessage (queueName : String) (originalMessageId : Int)
  | purgeDlq (queueName : String)
  | sweepDlq (retentionDays : Int)
  | ack (queueName : String) (messageId : Int) (ackToken : String)
  | archive (queueName : String) (messageId : Int) (ackToken : String)
  | setVisibilityTimeout (queueName : String) (messageId : Int) (ackToken : String)
      (timeoutSeconds : Int)
  | metrics (queueName : String)

inductive MqReturn where
  | unit
  | id (id : Int)
  | ids (ids : List Int)
  | messages (messages : List QueueMessage)
  | bool (b : Bool)
  | count (n : Int)
  | dlqPage (page : DlqPage)
  | dlqMessage (message : DlqMessage)
  | metrics (m : QueueMetrics)

/-- a call and the store that serves it -/
structure MqCall where
  store : MqStore
  op : MqOp

/-- the program of a call -/
def MqCall.body (c : MqCall) : MqProg MqReturn :=
  match c.op with
  | .createQueue n mode => do c.store.createQueue n mode; pure .unit
  | .purgeQueue n => do purgeQueue n; pure .unit
  | .dropQueue n => do dropQueue n; pure .unit
  | .send n p d => do return .id (← c.store.send n p d)
  | .sendBatch n ps d => do return .ids (← c.store.sendBatch n ps d)
  | .read n k t => do return .messages (← c.store.read n k t)
  | .readWithPoll n k t mx i rounds =>
    do return .messages (← c.store.readWithPoll n k t mx i rounds)
  | .streamReadNext n k t rounds => do return .messages (← c.store.streamReadNext n k t rounds)
  | .deadLetter n id reason => do return .bool (← deadLetter n id reason)
  | .listDlqMessages n l o => do return .dlqPage (← c.store.listDlqMessages n l o)
  | .getDlqMessage n id => do return .dlqMessage (← getDlqMessage n id)
  | .reprocessDlqMessage n id => do return .bool (← reprocessDlqMessage n id)
  | .purgeDlq n => do return .count (← purgeDlq n)
  | .sweepDlq d => do return .count (← sweepDlq d)
  | .ack n id tok => do return .bool (← ack n id tok)
  | .archive n id tok => do return .bool (← archive n id tok)
  | .setVisibilityTimeout n id tok t => do return .bool (← c.store.setVisibilityTimeout n id tok t)
  | .metrics n => do return .metrics (← metrics n)

abbrev MqSys := Sys MqStmt MqStmt.Res PgAppError MqReturn MqCall MqCtx MqDb
abbrev MqEv := Ev MqStmt MqStmt.Res MqCall MqCtx MqDb

/-- reachable from the empty schema -/
abbrev MqReach (σ : MqSys) : Prop := Reach MqStmt.exec MqCall.body MqDb.empty σ

end PgApp
