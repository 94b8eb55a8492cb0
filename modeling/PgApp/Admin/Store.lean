import PgApp.Admin.Stmt
import PgApp.Interleave.Serving

/-!
# `AdminStore` (`admin.rs`) and the schema checks of `db.rs`

The functions of `AdminStore` as programs over the statements of the server.  Its pages are those of
`config_center.rs` (`PageState`, `ConfigPage`): the two files have the same two functions.
`serde_json::Value::to_string` is a field of `AdminStore`.
-/

namespace PgApp
open Interleave

abbrev ServerProg := Prog ServerStmt ServerStmt.Res PgAppError

/-! ## programs of the four stores, as programs of the server -/

def onCache {α : Type} (p : CacheProg α) : ServerProg α := p.lift .cache fun _ r => r
def onMq {α : Type} (p : MqProg α) : ServerProg α := p.lift .mq fun _ r => r
def onConfig {α : Type} (p : ConfigProg α) : ServerProg α := p.lift .config fun _ r => r
def onAuth {α : Type} (p : AuthProg α) : ServerProg α := p.lift .auth fun _ r => r

/-- issue a statement of the admin API -/
def adminQuery (st : AdminStmt) : ServerProg st.Res := Prog.call (ServerStmt.admin st)

section
variable {s : Nat} {c : ServerCtx} {α : Type} (db : ServerDb)

theorem run_onMq (p : MqProg α) :
    (onMq p).run (ServerStmt.exec s c) db
      = (p.run (MqStmt.exec s c.mq) db.mq).map fun q => (q.1, { db with mq := q.2 }) := by
  refine Prog.run_lift (MqStmt.exec s c.mq) (ServerStmt.exec s c) _ _ (·.mq)
    (fun d x => { d with mq := x }) (fun _ _ => rfl) (fun _ _ _ => rfl) (fun _ => rfl)
    (fun st d => ?_) p db
  show ((st.exec s c.mq d.mq).map _).map _ = _
  rw [Option.map_map]
  rfl

end

/-! ## `AdminStore` -/

structure AdminStore where
  maxPageSize : Nat
  toText : Json → String

/-- `AdminStore::new` -/
def AdminStore.new (maxPageSize : Nat) (toText : Json → String) : AdminStore :=
  ⟨max maxPageSize 1, toText⟩

structure ListQuery where
  limit : Option Int
  offset : Int

structure CacheEntryPreview where
  namespace_ : String
  key : String
  sizeBytes : Int
  expiresAt : Option Time
  lastAccessedAt : Time
  accessCount : Int
  valuePreview : String
  valueEncoding : String

structure MqMessagePreview where
  queueName : String
  messageId : Int
  readCount : Int
  enqueuedAt : Time
  availableAt : Time
  visibilityTimeoutAt : Option Time
  payloadPreview : String

def validateNonEmpty (name value : String) : PgAppResult Unit :=
  if blank value then .error (.invalidArgument s!"{name} must not be empty") else .ok ()

def truncate (value : String) (maxChars : Nat) : String :=
  String.ofList (value.toList.take maxChars)

/-- `hex::encode` -/
def hexEncode (bytes : Bytes) : String :=
  String.ofList
    (bytes.flatMap fun b => [Nat.digitChar (b.toNat / 16), Nat.digitChar (b.toNat % 16)])

def AdminStore.page (store : AdminStore) (query : ListQuery) : PgAppResult PageState :=
  if query.offset < 0 then .error (.invalidArgument "offset must not be negative")
  else
    let requested := query.limit.getD (asI64 store.maxPageSize)
    if requested ≤ 0 then .error (.invalidArgument "limit must be positive")
    else
      let limit := asUsize (min requested (asI64 store.maxPageSize))
      .ok ⟨limit, wrapI64 (asI64 limit + 1), query.offset⟩

def recordLog (input : AdminLogInput) : ServerProg Int := do
  Prog.check (validateNonEmpty "level" input.level)
  Prog.check (validateNonEmpty "target" input.target)
  Prog.check (validateNonEmpty "message" input.message)
  adminQuery (.insertLog input)

section
variable (store : AdminStore)

def AdminStore.listLogs (filter : LogFilter) (query : ListQuery) :
    ServerProg (ConfigPage LogRow) := do
  let page ← Prog.check (store.page query)
  let rows ← orFail (← adminQuery (.selectLogs filter page.fetchLimit page.offset))
  pure (page.finish rows)

def AdminStore.listCacheNamespaces (query : ListQuery) :
    ServerProg (ConfigPage CacheNamespaceSummary) := do
  let page ← Prog.check (store.page query)
  let rows ← orFail (← adminQuery (.selectNamespaces page.fetchLimit page.offset))
  pure (page.finish rows)

def entryPreview (row : EntryRow) : CacheEntryPreview :=
  ⟨row.namespace_, row.cacheKey, row.sizeBytes, row.expiresAt, row.lastAccessedAt, row.accessCount,
    hexEncode (row.valueBytes.take 64), "hex"⟩

def AdminStore.listCacheEntries (ns : Option String) (query : ListQuery) :
    ServerProg (ConfigPage CacheEntryPreview) := do
  let page ← Prog.check (store.page query)
  let rows ← orFail (← adminQuery (.selectEntries ns page.fetchLimit page.offset))
  pure (page.finish (rows.map entryPreview))

def AdminStore.listMqQueues (query : ListQuery) : ServerProg (ConfigPage MqQueueSummary) := do
  let page ← Prog.check (store.page query)
  let rows ← orFail (← adminQuery (.selectQueues page.fetchLimit page.offset))
  pure (page.finish rows)

def AdminStore.messagePreview (queueName : String) (m : MessageRow) : MqMessagePreview :=
  ⟨queueName, m.id, m.readCount, m.createdAt, m.availableAt, m.visibilityTimeoutAt,
    truncate (store.toText m.payload) 512⟩

def AdminStore.listMqMessages (queueName : String) (query : ListQuery) :
    ServerProg (ConfigPage MqMessagePreview) := do
  Prog.check (validateQueueName queueName)
  let page ← Prog.check (store.page query)
  let rows ← orFail (← adminQuery (.selectMessages queueName page.fetchLimit page.offset))
  pure (page.finish (rows.map (store.messagePreview queueName)))

end

/-! ## `db.rs` -/

structure CapabilityStatus where
  name : String
  available : Bool
  message : String

def checkTable (table name : String) : ServerProg CapabilityStatus := do
  if ← adminQuery (.tableExists table) then pure ⟨name, true, "available"⟩
  else pure ⟨name, false, s!"missing table {table}"⟩

def checkCacheSchema : ServerProg CapabilityStatus := checkTable "cache_entries" "cache"
def checkMqSchema : ServerProg CapabilityStatus := checkTable "mq_messages" "mq"
def checkConfigSchema : ServerProg CapabilityStatus := checkTable "config_releases" "config"

end PgApp
