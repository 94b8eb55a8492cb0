import PgApp.Auth.Gate
import PgApp.Cache.Store
import PgApp.Config.Store
import PgApp.Mq.Store

/-!
# All the tables of the server, and the statements of the admin API on them

* `LogRow`       a row of `admin_log_events` (`migrations/0003_admin.sql`);
* `ServerDb`     the tables of the four stores and `admin_log_events`;
* `AdminStmt`    the queries of `admin.rs`, `admin_http.rs` and `check_table` of `db.rs`, one
                 constructor each; `metricsSnapshot` and `poolStatus` are what a handler reads in
                 its own process;
* `ServerStmt`   any statement of the server.

`ServerCtx` holds what the database and the process add: the clock, what the other stores ask for,
`lower` in the locale of the database, how JSONB is printed, the tables the catalog lists, the
metrics and the connection pool.

`created_at` and `updated_at` of `mq_queues` are not in the model (`QueueRow`), nor in the listing
of the queues.  `ORDER BY` a text is taken to be the order of the code points, as with the collation
"C".
-/

namespace PgApp
open Interleave

/-! ## tables -/

/-- a row of `admin_log_events` -/
structure LogRow where
  id : Int
  occurredAt : Time
  level : String
  target : String
  message : String
  requestId : Option String
  fields : Json

structure ServerDb where
  cache : CacheDb
  mq : MqDb
  config : ConfigDb
  auth : AuthDb
  logs : List LogRow
  nextLogId : Int

/-- the schema just created -/
def ServerDb.empty : ServerDb := ⟨.empty, .empty, .empty, .empty, [], 1⟩

structure MethodMetrics where
  count : Nat
  errors : Nat
  totalLatencyMillis : Nat

structure PoolStatus where
  size : Nat
  idle : Nat

structure ServerCtx where
  now : Time
  rank : Int → Int
  token : Int → String
  locked : List Int
  lower : String → String
  jsonText : Json → String
  hasTable : String → Bool
  metrics : List (String × MethodMetrics)
  pool : PoolStatus

def ServerCtx.cache (c : ServerCtx) : CacheCtx := ⟨c.now, c.rank⟩
def ServerCtx.mq (c : ServerCtx) : MqCtx := ⟨c.now, c.token, c.locked⟩

/-! ## `admin_log_events` -/

structure AdminLogInput where
  level : String
  target : String
  message : String
  requestId : Option String
  fields : Json

structure LogFilter where
  level : Option String
  text : Option String
  target : Option String

/-- the strings of a filter -/
def LogFilter.texts (filter : LogFilter) : List String :=
  filter.level.toList ++ filter.text.toList ++ filter.target.toList

/-- the INSERT of `record_log` -/
def ServerDb.insertLog (db : ServerDb) (input : AdminLogInput) (now : Time) : Int × ServerDb :=
  (db.nextLogId,
    { db with
      logs := db.logs ++ [⟨db.nextLogId, now, input.level, input.target, input.message,
        input.requestId, input.fields⟩],
      nextLogId := db.nextLogId + 1 })

/-- `LIKE`: a pattern against a text; `%` is any text, `_` any character, a backslash takes the next
character as it is -/
def like : List Char → List Char → Bool
  | [], text => text.isEmpty
  | '%' :: pattern, text => text.tails.any (like pattern)
  | '_' :: pattern, text =>
    match text with
    | [] => false
    | _ :: text => like pattern text
  | '\\' :: c :: pattern, text =>
    match text with
    | [] => false
    | x :: text => c == x && like pattern text
  | c :: pattern, text =>
    match text with
    | [] => false
    | x :: text => c == x && like pattern text

/-- `text ILIKE pattern` -/
def ServerCtx.ilike (c : ServerCtx) (text pattern : String) : Bool :=
  like (c.lower pattern).toList (c.lower text).toList

/-- `$1::text IS NULL OR …` -/
def orNull (p : String → Bool) : Option String → Bool
  | none => true
  | some x => p x

/-- the WHERE clause of `list_logs` -/
def LogRow.matches_ (row : LogRow) (c : ServerCtx) (filter : LogFilter) : Bool :=
  orNull (fun level => row.level == level) filter.level &&
    orNull (fun text => c.ilike row.message ("%" ++ text ++ "%")) filter.text &&
    orNull (fun target => c.ilike row.target ("%" ++ target ++ "%")) filter.target

/-- `ORDER BY occurred_at DESC, id DESC` -/
def loggedAfter (a b : LogRow) : Prop :=
  b.occurredAt < a.occurredAt ∨ (a.occurredAt = b.occurredAt ∧ b.id ≤ a.id)

instance : DecidableRel loggedAfter := fun a b => inferInstanceAs (Decidable
  (b.occurredAt < a.occurredAt ∨ (a.occurredAt = b.occurredAt ∧ b.id ≤ a.id)))

def ServerDb.selectLogs (db : ServerDb) (c : ServerCtx) (filter : LogFilter) (limit offset : Int) :
    Except SqlError (List LogRow) :=
  limitOffset ((db.logs.filter fun row => row.matches_ c filter).insertionSort loggedAfter) limit
    offset

/-- `fields_json->>'path'`: NULL where the field is missing or null -/
def LogRow.path (row : LogRow) (c : ServerCtx) : Option String :=
  match row.fields with
  | .obj fields =>
    match fields.lookup "path" with
    | none | some .null => none
    | some (.str s) => some s
    | some v => some (c.jsonText v)
  | _ => none

structure AdminSession where
  requestId : String
  path : String
  lastSeenAt : Time

/-- `GROUP BY request_id, path` with `MAX(occurred_at)`, one group after the other -/
def addSeen (sessions : List AdminSession) (requestId path : String) (at_ : Time) :
    List AdminSession :=
  if sessions.any fun x => x.requestId == requestId && x.path == path then
    sessions.map fun x =>
      if x.requestId == requestId && x.path == path then
        { x with lastSeenAt := max x.lastSeenAt at_ }
      else x
  else sessions ++ [⟨requestId, path, at_⟩]

/-- the query of `client_activity`: `ORDER BY last_seen_at DESC LIMIT 50` -/
def ServerDb.adminSessions (db : ServerDb) (c : ServerCtx) : List AdminSession :=
  let rows := db.logs.filter fun row => row.target == "pgapp_server::admin_http"
  let sessions := rows.foldl (fun l row =>
    match row.requestId with
    | none => l
    | some requestId => addSeen l requestId ((row.path c).getD "") row.occurredAt) []
  (sessions.insertionSort fun a b => b.lastSeenAt ≤ a.lastSeenAt).take 50

/-! ## the cache tables -/

structure CacheNamespaceSummary where
  name : String
  generation : Int
  keyCount : Int
  byteSize : Int
  createdAt : Time
  updatedAt : Time

/-- the query of `list_cache_namespaces`, before its LIMIT -/
def CacheDb.namespaceSummaries (db : CacheDb) (now : Time) : List CacheNamespaceSummary :=
  (db.namespaces.insertionSort fun a b => a.name ≤ b.name).map fun n =>
    let rows := (db.rowsOf n.name n.generation).filter (·.live now)
    ⟨n.name, n.generation, rows.length, sumSizes rows, n.createdAt, n.updatedAt⟩

/-- the WHERE clause of `list_cache_entries` -/
def CacheDb.lists (db : CacheDb) (ns : Option String) (now : Time) (row : EntryRow) : Bool :=
  orNull (fun ns => row.namespace_ == ns) ns && row.live now &&
    some row.generation == db.generationOf row.namespace_

/-- the query of `list_cache_entries`, before its LIMIT -/
def CacheDb.listedEntries (db : CacheDb) (ns : Option String) (now : Time) : List EntryRow :=
  (db.entries.filter (db.lists ns now)).insertionSort fun a b =>
    [a.namespace_, a.cacheKey] ≤ [b.namespace_, b.cacheKey]

/-! ## the MQ tables -/

structure MqQueueSummary where
  name : String
  durable : Bool
  visibleMessageCount : Int
  inFlightMessageCount : Int
  oldestVisibleMessageAgeSeconds : Option Int
  archivedMessageCount : Int

/-- the query of `list_mq_queues`, before its LIMIT -/
def MqDb.queueSummaries (db : MqDb) (now : Time) : List MqQueueSummary :=
  (db.queues.insertionSort fun a b => a.name ≤ b.name).map fun q =>
    let mine := db.messages.filter fun m => m.queueId == q.id
    let visible := mine.filter fun m => m.visible now
    ⟨q.name, q.durable, visible.length, (mine.filter fun m => m.inFlight now).length,
      (visible.map (·.createdAt)).min?.map fun oldest => epochSeconds (now - oldest),
      db.countArchives q.id⟩

/-- `ORDER BY m.created_at, m.id` -/
def enqueuedBefore (a b : MessageRow) : Prop :=
  a.createdAt < b.createdAt ∨ (a.createdAt = b.createdAt ∧ a.id ≤ b.id)

instance : DecidableRel enqueuedBefore := fun a b => inferInstanceAs (Decidable
  (a.createdAt < b.createdAt ∨ (a.createdAt = b.createdAt ∧ a.id ≤ b.id)))

/-- the query of `list_mq_messages`, before its LIMIT; all rows have the name asked for -/
def MqDb.listedMessages (db : MqDb) (queueName : String) : List MessageRow :=
  (db.messages.filter fun m => db.queues.any fun q =>
    q.id == m.queueId && q.name == queueName).insertionSort enqueuedBefore

structure MqSummary where
  queueCount : Int
  visibleMessageCount : Int
  inFlightMessageCount : Int
  archivedMessageCount : Int

/-- the query of `mq_summary` -/
def MqDb.summary (db : MqDb) (now : Time) : MqSummary :=
  ⟨db.queues.length, (db.messages.filter fun m => m.visible now).length,
    (db.messages.filter fun m => m.inFlight now).length, db.archives.length⟩

/-! ## statements -/

inductive AdminStmt where
  | insertLog (input : AdminLogInput)
  | selectLogs (filter : LogFilter) (limit offset : Int)
  | selectNamespaces (limit offset : Int)
  | selectEntries (ns : Option String) (limit offset : Int)
  | selectQueues (limit offset : Int)
  | selectMessages (queueName : String) (limit offset : Int)
  | tableExists (table : String)
  | mqSummary
  | adminSessions
  | metricsSnapshot
  | poolStatus

abbrev AdminStmt.Res : AdminStmt → Type
  | .insertLog _ => Int
  | .selectLogs _ _ _ => Except SqlError (List LogRow)
  | .selectNamespaces _ _ => Except SqlError (List CacheNamespaceSummary)
  | .selectEntries _ _ _ => Except SqlError (List EntryRow)
  | .selectQueues _ _ => Except SqlError (List MqQueueSummary)
  | .selectMessages _ _ _ => Except SqlError (List MessageRow)
  | .tableExists _ => Bool
  | .mqSummary => MqSummary
  | .adminSessions => List AdminSession
  | .metricsSnapshot => List (String × MethodMetrics)
  | .poolStatus => PoolStatus

/-- one statement; none of them waits, and only the first writes -/
def AdminStmt.exec (c : ServerCtx) : (st : AdminStmt) → ServerDb → st.Res × ServerDb
  | .insertLog input, db => db.insertLog input c.now
  | .selectLogs filter limit offset, db =>
      (withTexts filter.texts (db.selectLogs c filter limit offset), db)
  | .selectNamespaces limit offset, db =>
      (limitOffset (db.cache.namespaceSummaries c.now) limit offset, db)
  | .selectEntries ns limit offset, db =>
      (withTexts ns.toList (limitOffset (db.cache.listedEntries ns c.now) limit offset), db)
  | .selectQueues limit offset, db => (limitOffset (db.mq.queueSummaries c.now) limit offset, db)
  | .selectMessages queueName limit offset, db =>
      (limitOffset (db.mq.listedMessages queueName) limit offset, db)
  | .tableExists table, db => (c.hasTable table, db)
  | .mqSummary, db => (db.mq.summary c.now, db)
  | .adminSessions, db => (db.adminSessions c, db)
  | .metricsSnapshot, db => (c.metrics, db)
  | .poolStatus, db => (c.pool, db)

inductive ServerStmt where
  | cache (st : CacheStmt)
  | mq (st : MqStmt)
  | config (st : ConfigStmt)
  | auth (st : AuthStmt)
  | admin (st : AdminStmt)

abbrev ServerStmt.Res : ServerStmt → Type
  | .cache st => st.Res
  | .mq st => st.Res
  | .config st => st.Res
  | .auth st => st.Res
  | .admin st => st.Res

/-- one statement of session `s`: the statement of a store runs on the tables of that store -/
def ServerStmt.exec (s : Nat) (c : ServerCtx) :
    (st : ServerStmt) → ServerDb → Option (st.Res × ServerDb)
  | .cache st, db => (st.exec s c.cache db.cache).map fun p => (p.1, { db with cache := p.2 })
  | .mq st, db => (st.exec s c.mq db.mq).map fun p => (p.1, { db with mq := p.2 })
  | .config st, db => (st.exec s c.now db.config).map fun p => (p.1, { db with config := p.2 })
  | .auth st, db => (st.exec s c.now db.auth).map fun p => (p.1, { db with auth := p.2 })
  | .admin st, db => some (st.exec c db)

end PgApp
