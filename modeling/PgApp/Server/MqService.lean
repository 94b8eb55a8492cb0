import PgApp.Interleave.Dropped
import PgApp.Mq.Listen
import PgApp.Server.Grpc

/-!
# The MQ service (`pgapp-server/src/lib.rs`, `impl MqService for MqGrpc`)

All of its requests, with the listeners of long polls and streams, and `record_rpc`'s time limit.

A request is a task of the server (`MqService.task`): a call of the store, the long poll that
listens (`read_with_notify_or_poll`), or a stream.  A stream is followed for so many reads; then its
client has gone, or it has ended with an error.  Whoever waits for a task may give it up
(`Limited`): `record_rpc` after the request timeout, and tonic when a client disconnects.

Besides the requests, other parts of the server use the store: the sweeper of old dead letters
(`spawn_dlq_sweeper`) and the Admin API (`MqClient.store`).

How a timestamp or a payload is written as protobuf text is left out, and so are the metrics.
-/

namespace PgApp
open Interleave

structure MqService where
  grpc : MqGrpc
  notifyEnabled : Bool

/-! ## requests and responses (`mq.proto`) -/

inductive MqRequest where
  | createQueue (queueName : String) (storageMode : Int)
  | purgeQueue (queueName : String)
  | dropQueue (queueName : String)
  | send (queueName jsonPayload : String) (delaySeconds : Int)
  | sendBatch (queueName : String) (jsonPayloads : List String) (delaySeconds : Int)
  | read (queueName : String) (quantity visibilityTimeoutSeconds : Int)
  | readWithPoll (queueName : String)
      (quantity visibilityTimeoutSeconds maxPollSeconds pollIntervalMillis : Int)
  | ack (queueName : String) (messageId : Int) (ackToken : String)
  | archive (queueName : String) (messageId : Int) (ackToken : String)
  | setVisibilityTimeout (queueName : String) (messageId visibilityTimeoutSeconds : Int)
      (ackToken : String)
  | metrics (queueName : String)
  | listDlqMessages (queueName : String) (limit offset : Int)
  | getDlqMessage (queueName : String) (originalMessageId : Int)
  | reprocessDlqMessage (queueName : String) (originalMessageId : Int)
  | purgeDlq (queueName : String)
  | streamRead (queueName : String) (quantity visibilityTimeoutSeconds : Int)

inductive MqResponse where
  | operationResult (success : Bool)
  | sendMessage (messageId : Int)
  | sendBatch (messageIds : List Int)
  | readMessages (messages : List QueueMessage)
  | queueMetrics (metrics : QueueMetrics)
  | listDlqMessages (page : RpcPage DlqMessage)
  | dlqMessage (message : DlqMessage)
  | stream (responses : List (List QueueMessage)) (failure : Option Status)

/-- `ProtoStorageMode::try_from(req.storage_mode)`: everything but TRANSIENT is durable -/
def storageModeOf (storageMode : Int) : QueueStorageMode :=
  if storageMode = 2 then .transient else .durable

/-- the response made of an answer of the store -/
def MqReturn.response (answer : MqReturn) : MqResponse :=
  match answer with
  | .unit => .operationResult true
  | .id messageId => .sendMessage messageId
  | .ids messageIds => .sendBatch messageIds
  | .messages msgs => .readMessages msgs
  | .bool success => .operationResult success
  | .count _ => .operationResult true
  | .dlqPage page => .listDlqMessages ⟨page.messages, page.nextOffset.getD 0⟩
  | .dlqMessage msg => .dlqMessage msg
  | .metrics figures => .queueMetrics figures

/-- what a request has the server do -/
inductive MqTask where
  | call (op : MqOp)
  | longPoll (queueName : String)
      (quantity visibilityTimeoutSeconds maxPollSeconds pollIntervalMillis : Int)
  | stream (queueName : String) (quantity visibilityTimeoutSeconds : Int)

section
variable (svc : MqService) (rounds : Nat)

def MqService.task : MqRequest → MqTask
  | .createQueue n mode => .call (.createQueue n (storageModeOf mode))
  | .purgeQueue n => .call (.purgeQueue n)
  | .dropQueue n => .call (.dropQueue n)
  | .send n payload delay => .call (.send n payload delay)
  | .sendBatch n payloads delay => .call (.sendBatch n payloads delay)
  | .read n quantity timeout => .call (.read n quantity timeout)
  | .readWithPoll n quantity timeout maxPoll interval =>
    if svc.notifyEnabled then .longPoll n quantity timeout maxPoll interval
    else .call (.readWithPoll n quantity timeout maxPoll interval rounds)
  | .ack n id token => .call (.ack n id token)
  | .archive n id token => .call (.archive n id token)
  | .setVisibilityTimeout n id timeout token => .call (.setVisibilityTimeout n id token timeout)
  | .metrics n => .call (.metrics n)
  | .listDlqMessages n limit offset => .call (.listDlqMessages n limit offset)
  | .getDlqMessage n id => .call (.getDlqMessage n id)
  | .reprocessDlqMessage n id => .call (.reprocessDlqMessage n id)
  | .purgeDlq n => .call (.purgeDlq n)
  | .streamRead n quantity timeout => .stream n quantity timeout

/-! ## waiting for messages -/

/-- the end of a round of both loops: wait for a notification, or only wait; whether there is still
a listener -/
def awaitNews (listening : Bool) (wait : Time) : NetProg Bool :=
  if listening then do
    match ← NetProg.query (.recv wait) with
    | .notified _ => pure true
    | .timedOut => pure true
    | .failed => do
      NetProg.query (.mq (.sleep wait))
      pure false
  else do
    NetProg.query (.mq (.sleep wait))
    pure false

/-- the loop of `read_with_notify_or_poll` -/
def MqStore.notifyLoop (store : MqStore) (queueName : String) (quantity timeoutSeconds : Int)
    (interval deadline : Time) : Nat → Bool → NetProg (List QueueMessage)
  | 0, _ => .exec (.mq .idle) fun _ => pure []
  | rounds + 1, listening => do
    let messages ← onNet (store.read queueName quantity timeoutSeconds)
    if messages.isEmpty then do
      let now ← NetProg.query (.mq .utcNow)
      if deadline ≤ now then pure messages
      else do
        let now ← NetProg.query (.mq .utcNow)
        let wait := min (max (deadline - now) 0) interval
        if wait = 0 then pure []
        else do
          let listening ← awaitNews listening wait
          store.notifyLoop queueName quantity timeoutSeconds interval deadline rounds listening
    else pure messages

/-- `read_with_notify_or_poll`; a deadline that `Instant` cannot hold is a panic, which is a request
dropped here like any other -/
def MqStore.listeningPoll (store : MqStore) (queueName : String)
    (quantity timeoutSeconds maxPollSeconds pollIntervalMillis : Int) (rounds : Nat) :
    NetProg (List QueueMessage) := do
  if maxPollSeconds < 0 then
    Prog.throw (.invalidArgument "max_poll_seconds must not be negative")
  else do
    let now ← NetProg.query (.mq .utcNow)
    let listening ← NetProg.query (.connect queueName)
    store.notifyLoop queueName quantity timeoutSeconds (pollInterval pollIntervalMillis)
      (now + seconds maxPollSeconds) rounds listening

/-- the stream of `stream_read_next`, read by read -/
def MqStore.streamLoop (store : MqStore) (queueName : String) (quantity timeoutSeconds : Int) :
    Nat → Bool → List (List QueueMessage) → NetProg MqResponse
  | 0, _, responses => pure (.stream responses none)
  | rounds + 1, listening, responses => do
    match ← (onNet (store.read queueName quantity timeoutSeconds)).mapResult Except.ok with
    | .error err => pure (.stream responses (some (.ofError err)))
    | .ok messages =>
      if messages.isEmpty then do
        let listening ← awaitNews listening (millis 100)
        store.streamLoop queueName quantity timeoutSeconds rounds listening responses
      else store.streamLoop queueName quantity timeoutSeconds rounds listening (responses ++ [messages])

/-- the listener of `stream_read`, if there is to be one -/
def MqService.listen (queueName : String) : NetProg Bool :=
  if svc.notifyEnabled then NetProg.query (.connect queueName) else pure false

/-- `stream_read` -/
def MqService.streamRead (queueName : String) (quantity timeoutSeconds : Int) :
    NetProg MqResponse := do
  let listening ← svc.listen queueName
  svc.grpc.store.streamLoop queueName quantity timeoutSeconds rounds listening []

def MqService.perform : MqTask → NetProg MqResponse
  | .call op => do return (← onNet (MqCall.body ⟨svc.grpc.store, op⟩)).response
  | .longPoll n quantity timeout maxPoll interval => do
    return .readMessages (← svc.grpc.store.listeningPoll n quantity timeout maxPoll interval rounds)
  | .stream n quantity timeout => svc.streamRead rounds n quantity timeout

end

/-! ## serving -/

/-- who has the server do something -/
inductive MqClient where
  | request (rq : MqRequest)
  | store (op : MqOp)

/-- a task's client, and the bound on the rounds of its loop -/
structure MqJob where
  client : MqClient
  rounds : Nat

abbrev MqRpcProg := Prog NetStmt NetStmt.Res Status

/-- `.await?` on a function of the store -/
def NetProg.orStatus {α : Type} (p : NetProg α) : MqRpcProg α :=
    p.mapResult (·.mapError Status.ofError)

def MqService.taskOf (svc : MqService) (job : MqJob) : MqTask :=
  match job.client with
  | .request rq => svc.task job.rounds rq
  | .store op => .call op

def MqService.handler (svc : MqService) (job : MqJob) : MqRpcProg MqResponse :=
  match job.client with
  | .request _ => do
    Prog.check svc.grpc.ensureEnabled
    NetProg.orStatus (svc.perform job.rounds (svc.taskOf job))
  | .store _ => NetProg.orStatus (svc.perform job.rounds (svc.taskOf job))

def NetStmt.brackets : Brackets NetStmt where
  opens := fun st => match st with | .mq .begin => true | _ => false
  closes := fun st => match st with | .mq .commit => true | .mq .rollback => true | _ => false
  needsCommit := fun st =>
    match st with
    | .mq (.archive _ _ _) => true
    | .mq (.reprocess _ _) => true
    | _ => false
  rollback := .mq .rollback

/-- the answer of `record_rpc` for a request that took too long -/
def timedOut : Status := ⟨.deadlineExceeded, "request timed out"⟩

def MqService.serve (svc : MqService) (job : Limited MqJob) : MqRpcProg MqResponse :=
  (svc.handler job.op).limited NetStmt.brackets timedOut job.limit

abbrev MqServiceSys := Sys NetStmt NetStmt.Res Status MqResponse (Limited MqJob) NetCtx MqNet
abbrev NetEv := Ev NetStmt NetStmt.Res (Limited MqJob) NetCtx MqNet

/-- reachable by jobs of any number of clients, in any interleaving, each dropped at any point -/
abbrev MqServiceReach (svc : MqService) (σ : MqServiceSys) : Prop :=
  Reach NetStmt.exec svc.serve MqNet.empty σ

/-- the call of the store that a task makes, or makes again and again -/
def MqTask.op : MqTask → Nat → MqOp
  | .call op, _ => op
  | .longPoll n quantity timeout maxPoll interval, rounds =>
    .readWithPoll n quantity timeout maxPoll interval rounds
  | .stream n quantity timeout, rounds => .streamReadNext n quantity timeout rounds

def MqService.callOf (svc : MqService) (job : Limited MqJob) : MqCall :=
  ⟨svc.grpc.store, (svc.taskOf job.op).op job.op.rounds⟩

/-- the store under the service -/
abbrev MqService.part (svc : MqService) : Part MqStmt.exec NetStmt.exec MqCall (Limited MqJob) :=
  mqPart svc.callOf

end PgApp
