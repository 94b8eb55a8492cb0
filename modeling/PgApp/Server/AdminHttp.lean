import PgApp.Admin.Store

/-!
# The admin API (`pgapp-server/src/admin_http.rs`)

`AdminRequest` is an HTTP request together with what serving it draws at random.  `router` finds its
route, with the arguments axum extracts before the handler runs: the extractors and the answers of
axum itself are fields of `Extractors`.  Each route has its handler, under the source's name:

    handler     check the token (`authorize`), do the work, log the request (`record_request`).

A handler answers with a status and a body; how serde writes the body is left out.
`ServerCall` is a call of any of the five parts of the server, and `ServerReach` reachability under
every interleaving of such calls from the empty schema.
-/

namespace PgApp
open Interleave

/-! ## requests and responses -/

structure ListParams where
  limit : Option Int
  offset : Option Int
  namespace_ : Option String
  appId : Option String
  environment : Option String
  cluster : Option String
  key : Option String
  level : Option String
  text : Option String
  target : Option String

structure ConfigItemBody where
  scope : ConfigScope
  key : String
  value : Json

structure PublishConfigBody where
  scope : ConfigScope
  message : Option String
  publishedBy : Option String

structure ConfigSchemaBody where
  scope : ConfigScope
  schema : Option Json

structure CreateClientBody where
  clientKey : String
  roles : Option (List String)

inductive Method where
  | get
  | head
  | post
  | put
  | delete
  | other (name : String)
deriving DecidableEq

/-- a request: the segments of its path, the query text, the headers and the body -/
structure HttpRequest where
  method : Method
  path : List String
  query : Option String
  headers : List (String × List UInt8)
  body : List UInt8

/-- an answer of axum itself -/
structure Rejection where
  status : Nat
  text : String
deriving DecidableEq

/-- the extractors of axum: `Path` decodes a segment, `Query` and `Json` read the request -/
structure Extractors where
  segment : String → Except Rejection String
  messageId : String → Except Rejection Int
  query : HttpRequest → Except Rejection ListParams
  configItem : HttpRequest → Except Rejection ConfigItemBody
  publishConfig : HttpRequest → Except Rejection PublishConfigBody
  configSchema : HttpRequest → Except Rejection ConfigSchemaBody
  createClient : HttpRequest → Except Rejection CreateClientBody
  notFound : Rejection
  methodNotAllowed : Rejection

inductive StatusCode where
  | ok
  | created
  | badRequest
  | unauthorized
  | notFound
  | conflict
  | internalServerError
deriving DecidableEq

structure CapabilityDto where
  name : String
  state : String
  message : String

structure MethodMetricDto where
  service : String
  method : String
  status : String
  count : Nat
  errors : Nat
  totalLatencyMillis : Nat

structure CacheSummaryDto where
  counters : CacheCounters
  logicalKeyCount : Int
  logicalByteSize : Int

structure OverviewResponse where
  serverState : String
  ready : Bool
  capabilities : List CapabilityDto
  runtimeMetrics : List MethodMetricDto
  pgPool : PoolStatus
  cacheSummary : CacheSummaryDto
  mqSummary : MqSummary

structure ClientActivityResponse where
  items : List ClientRecord
  adminSessions : List AdminSession
  apiActivity : List MethodMetricDto

inductive AdminBody where
  | error (code message requestId : String)
  | overview (body : OverviewResponse)
  | logs (page : ConfigPage LogRow)
  | cacheNamespaces (page : ConfigPage CacheNamespaceSummary)
  | cacheEntries (page : ConfigPage CacheEntryPreview)
  | mqQueues (page : ConfigPage MqQueueSummary)
  | mqMessages (page : ConfigPage MqMessagePreview)
  | dlqMessages (items : List DlqMessage) (limit offset : Int) (nextOffset : Option Int)
  | dlqMessage (message : DlqMessage)
  | success (success : Bool)
  | deletedCount (count : Int)
  | clients (activity : ClientActivityResponse)
  | createdClient (client : CreatedClient)
  | configScopes (page : ConfigPage ConfigScopeSummary)
  | configDraft (scope : ConfigScope) (items : List ConfigItem)
  | configSchema (scope : ConfigScope) (hasSchema : Bool) (schema : Option Json)
  | configRelease (release : ConfigRelease)
  | configReleases (page : ConfigPage ConfigRelease)

/-- `cacheControl` is the header `json_response` sets -/
inductive AdminResponse where
  | json (status : StatusCode) (cacheControl : String) (body : AdminBody)
  | rejected (rejection : Rejection)

structure AdminHttpState where
  configStore : ConfigStore
  adminStore : AdminStore
  clientLib : ClientLib
  fromStr : String → Except String Json
  cacheEnabled : Bool
  mqEnabled : Bool
  configEnabled : Bool
  token : String

/-- the two values a request draws: its id, and the seed of a new secret -/
structure Drawn where
  requestId : String
  seed : Seed

/-! ## responses -/

def jsonResponse (status : StatusCode) (body : AdminBody) : AdminResponse :=
  .json status "no-store" body

def errorResponse (status : StatusCode) (code message requestId : String) : AdminResponse :=
  jsonResponse status (.error code message requestId)

def adminError (message requestId : String) (_ : PgAppError) : AdminResponse :=
  errorResponse .internalServerError "internal_error" message requestId

def adminStoreError (message requestId : String) : PgAppError → AdminResponse
  | .invalidArgument _ => errorResponse .badRequest "invalid_argument" message requestId
  | .notFound _ => errorResponse .notFound "not_found" message requestId
  | .conflict _ => errorResponse .conflict "conflict" message requestId
  | _ => errorResponse .internalServerError "internal_error" message requestId

/-! ## the frame of a handler -/

/-- `let _ = … .await`: the result is dropped -/
def ignore {α : Type} (p : ServerProg α) : ServerProg Unit := p.mapResult fun _ => .ok ()

/-- the log entry of `authorize` -/
def refusedLog (requestId : String) : AdminLogInput :=
  ⟨"WARN", "pgapp_server::admin_http", "admin request unauthorized", some requestId,
    .obj [("path", .str "unknown")]⟩

/-- the test of `authorize` -/
def authorized (token : String) (headers : List (String × List UInt8)) : Bool :=
  readableHeader headers "authorization" == some ("Bearer " ++ token)

/-- `authorize`: the response that ends the handler, if there is one -/
def authorize (state : AdminHttpState) (headers : List (String × List UInt8)) (requestId : String) :
    ServerProg (Option AdminResponse) :=
  if authorized state.token headers then pure none
  else do
    let response := errorResponse .unauthorized "unauthorized" "valid admin bearer token required"
      requestId
    ignore (recordLog (refusedLog requestId))
    pure (some response)

def recordRequest (requestId path : String) : ServerProg Unit :=
  ignore (recordLog ⟨"INFO", "pgapp_server::admin_http", "admin request completed", some requestId,
    .obj [("path", .str path)]⟩)

/-- `match result`: the work of a handler becomes its response -/
def respond {α : Type} (work : ServerProg α) (ok : α → AdminResponse)
    (failed : PgAppError → AdminResponse) : ServerProg AdminResponse :=
  work.mapResult fun
    | .ok a => .ok (ok a)
    | .error err => .ok (failed err)

/-- what all handlers share -/
def handler (state : AdminHttpState) (headers : List (String × List UInt8))
    (requestId path : String) (work : ServerProg AdminResponse) : ServerProg AdminResponse := do
  match ← authorize state headers requestId with
  | some response => pure response
  | none => do
    let response ← work
    recordRequest requestId path
    pure response

/-! ## what the handlers compute -/

/-- `splitn(3, '.')` into exactly three parts -/
def splitKey (key : String) : Option (String × String × String) :=
  match key.toList.span (· != '.') with
  | (_, []) => none
  | (service, _ :: rest) =>
    match rest.span (· != '.') with
    | (_, []) => none
    | (method, _ :: status) =>
      some (String.ofList service, String.ofList method, String.ofList status)

def u128ToU64 (value : Nat) : Nat := min value 18446744073709551615

def methodMetrics (snapshot : List (String × MethodMetrics)) : List MethodMetricDto :=
  snapshot.filterMap fun (key, metric) =>
    (splitKey key).map fun (service, method, status) =>
      ⟨service, method, status, metric.count, metric.errors, u128ToU64 metric.totalLatencyMillis⟩

def toCapability (status : CapabilityStatus) : CapabilityDto :=
  ⟨status.name,
    if status.message = "disabled" then "disabled"
    else if status.available then "available" else "unavailable",
    status.message⟩

/-- a capability that is off is not asked about -/
def capability (enabled : Bool) (name : String) (check : ServerProg CapabilityStatus) :
    ServerProg CapabilityStatus :=
  if enabled then check else pure ⟨name, false, "disabled"⟩

def overviewBody (state : AdminHttpState) : ServerProg OverviewResponse := do
  let cacheStatus ← capability state.cacheEnabled "cache" checkCacheSchema
  let mqStatus ← capability state.mqEnabled "mq" checkMqSchema
  let configStatus ← capability state.configEnabled "config" checkConfigSchema
  let capabilities := [toCapability cacheStatus, toCapability mqStatus, toCapability configStatus]
  let ready := (capabilities.filter (·.state != "disabled")).all (·.state == "available")
  let cacheStats ← onCache stats
  let mqSummary ← adminQuery .mqSummary
  let metrics ← adminQuery .metricsSnapshot
  let pool ← adminQuery .poolStatus
  pure ⟨if ready then "ready" else "unavailable", ready, capabilities, methodMetrics metrics, pool,
    ⟨cacheStats.counters, cacheStats.logicalKeyCount, cacheStats.logicalByteSize⟩, mqSummary⟩

def clientActivity (state : AdminHttpState) : ServerProg ClientActivityResponse := do
  let rows ← adminQuery .adminSessions
  let items ← onAuth (listClients state.clientLib)
  let metrics ← adminQuery .metricsSnapshot
  pure ⟨items, rows, methodMetrics metrics⟩

def ListParams.listQuery (params : ListParams) : ListQuery := ⟨params.limit, params.offset.getD 0⟩

/-- `ok_or_else` of `config_scope_from_query` -/
def requiredParam (name : String) : Option String → PgAppResult String
  | some value => .ok value
  | none => .error (.invalidArgument s!"{name} is required")

def configScopeFromQuery (params : ListParams) : PgAppResult ConfigScope := do
  let appId ← requiredParam "app_id" params.appId
  let environment ← requiredParam "environment" params.environment
  let cluster ← requiredParam "cluster" params.cluster
  let ns ← requiredParam "namespace" params.namespace_
  pure ⟨appId, environment, cluster, ns⟩

/-- `MqStore::new(pool, false)` -/
def AdminHttpState.mqStore (state : AdminHttpState) : MqStore := ⟨false, {}, state.fromStr⟩

/-! ## the handlers -/

section
variable (state : AdminHttpState) (headers : List (String × List UInt8)) (drawn : Drawn)

def overview : ServerProg AdminResponse :=
  handler state headers drawn.requestId "/api/admin/overview"
    (respond (overviewBody state) (fun body => jsonResponse .ok (.overview body))
      (adminError "admin overview unavailable" drawn.requestId))

def logs (params : ListParams) : ServerProg AdminResponse :=
  handler state headers drawn.requestId "/api/admin/logs"
    (respond (state.adminStore.listLogs ⟨params.level, params.text, params.target⟩ params.listQuery)
      (fun logs => jsonResponse .ok (.logs logs))
      (adminError "admin logs unavailable" drawn.requestId))

def cacheNamespaces (params : ListParams) : ServerProg AdminResponse :=
  handler state headers drawn.requestId "/api/admin/cache/namespaces"
    (respond (state.adminStore.listCacheNamespaces params.listQuery)
      (fun page => jsonResponse .ok (.cacheNamespaces page))
      (adminStoreError "cache namespaces unavailable" drawn.requestId))

def cacheEntries (params : ListParams) : ServerProg AdminResponse :=
  handler state headers drawn.requestId "/api/admin/cache/entries"
    (respond (state.adminStore.listCacheEntries params.namespace_ params.listQuery)
      (fun page => jsonResponse .ok (.cacheEntries page))
      (adminStoreError "cache entries unavailable" drawn.requestId))

def mqQueues (params : ListParams) : ServerProg AdminResponse :=
  handler state headers drawn.requestId "/api/admin/mq/queues"
    (respond (state.adminStore.listMqQueues params.listQuery)
      (fun page => jsonResponse .ok (.mqQueues page))
      (adminStoreError "mq queues unavailable" drawn.requestId))

def mqMessages (queue : String) (params : ListParams) : ServerProg AdminResponse :=
  handler state headers drawn.requestId "/api/admin/mq/queues/\x7bqueue\x7d/messages"
    (respond (state.adminStore.listMqMessages queue params.listQuery)
      (fun page => jsonResponse .ok (.mqMessages page))
      (adminStoreError "mq messages unavailable" drawn.requestId))

/-- the page carries the limit and the offset as they were asked for -/
def mqDlqMessages (queue : String) (params : ListParams) : ServerProg AdminResponse :=
  let limit := params.limit.getD 50
  let offset := params.offset.getD 0
  handler state headers drawn.requestId "/api/admin/mq/queues/\x7bqueue\x7d/dlq"
    (respond (onMq (state.mqStore.listDlqMessages queue limit offset))
      (fun page => jsonResponse .ok (.dlqMessages page.messages limit offset page.nextOffset))
      (adminStoreError "mq dlq messages unavailable" drawn.requestId))

def mqDlqMessage (queue : String) (messageId : Int) : ServerProg AdminResponse :=
  handler state headers drawn.requestId
    "/api/admin/mq/queues/\x7bqueue\x7d/dlq/\x7bmessage_id\x7d"
    (respond (onMq (getDlqMessage queue messageId))
      (fun message => jsonResponse .ok (.dlqMessage message))
      (adminStoreError "mq dlq message unavailable" drawn.requestId))

/-- `and_then`: a call that found nothing is an error -/
def orNotFound (message : String) (success : Bool) : ServerProg Bool :=
  if success then pure success else Prog.throw (.notFound message)

def mqDlqReprocess (queue : String) (messageId : Int) : ServerProg AdminResponse :=
  handler state headers drawn.requestId
    "/api/admin/mq/queues/\x7bqueue\x7d/dlq/\x7bmessage_id\x7d/reprocess"
    (respond (do
        let success ← onMq (reprocessDlqMessage queue messageId)
        orNotFound s!"DLQ message {messageId}" success)
      (fun success => jsonResponse .ok (.success success))
      (adminStoreError "mq dlq reprocess rejected" drawn.requestId))

def mqDlqPurge (queue : String) : ServerProg AdminResponse :=
  handler state headers drawn.requestId "/api/admin/mq/queues/\x7bqueue\x7d/dlq/purge"
    (respond (onMq (purgeDlq queue)) (fun count => jsonResponse .ok (.deletedCount count))
      (adminStoreError "mq dlq purge rejected" drawn.requestId))

def clients : ServerProg AdminResponse :=
  handler state headers drawn.requestId "/api/admin/clients"
    (respond (clientActivity state) (fun activity => jsonResponse .ok (.clients activity))
      (adminError "client activity unavailable" drawn.requestId))

def clientCreate (body : CreateClientBody) : ServerProg AdminResponse :=
  handler state headers drawn.requestId "/api/admin/clients"
    (respond (onAuth (createClient state.clientLib drawn.seed body.clientKey (body.roles.getD [])))
      (fun client => jsonResponse .created (.createdClient client))
      (adminStoreError "client credential create rejected" drawn.requestId))

def clientRotate (clientKey : String) : ServerProg AdminResponse :=
  handler state headers drawn.requestId "/api/admin/clients/\x7bclient_key\x7d/rotate"
    (respond (do
        match ← onAuth (rotateSecret state.clientLib drawn.seed clientKey) with
        | some client => pure client
        | none => Prog.throw (.notFound s!"client {clientKey}"))
      (fun client => jsonResponse .ok (.createdClient client))
      (adminStoreError "client credential rotate rejected" drawn.requestId))

def clientDeactivate (clientKey : String) : ServerProg AdminResponse :=
  handler state headers drawn.requestId "/api/admin/clients/\x7bclient_key\x7d/deactivate"
    (respond (do
        let success ← onAuth (deactivate state.clientLib clientKey)
        orNotFound s!"client {clientKey}" success)
      (fun success => jsonResponse .ok (.success success))
      (adminStoreError "client credential deactivate rejected" drawn.requestId))

def configScopes (params : ListParams) : ServerProg AdminResponse :=
  handler state headers drawn.requestId "/api/admin/config/scopes"
    (respond (onConfig (state.configStore.listScopes params.limit (params.offset.getD 0)))
      (fun page => jsonResponse .ok (.configScopes page))
      (adminStoreError "config scopes unavailable" drawn.requestId))

def configDraft (params : ListParams) : ServerProg AdminResponse :=
  handler state headers drawn.requestId "/api/admin/config/draft"
    (respond (do
        let scope ← Prog.check (configScopeFromQuery params)
        let items ← onConfig (getDraft scope)
        pure (scope, items))
      (fun (scope, items) => jsonResponse .ok (.configDraft scope items))
      (adminStoreError "config draft unavailable" drawn.requestId))

def configUpsertItem (body : ConfigItemBody) : ServerProg AdminResponse :=
  handler state headers drawn.requestId "/api/admin/config/items"
    (respond (onConfig (state.configStore.upsertItem body.scope body.key body.value))
      (fun _ => jsonResponse .ok (.success true))
      (adminStoreError "config item update rejected" drawn.requestId))

def configDeleteItem (params : ListParams) : ServerProg AdminResponse :=
  handler state headers drawn.requestId "/api/admin/config/items"
    (respond (do
        let scope ← Prog.check (configScopeFromQuery params)
        match params.key with
        | some key => onConfig (deleteItem scope key)
        | none => Prog.throw (.invalidArgument "key query parameter is required"))
      (fun success => jsonResponse .ok (.success success))
      (adminStoreError "config item delete rejected" drawn.requestId))

def configSchemaGet (params : ListParams) : ServerProg AdminResponse :=
  handler state headers drawn.requestId "/api/admin/config/schema"
    (respond (do
        let scope ← Prog.check (configScopeFromQuery params)
        let schema ← onConfig (getSchema scope)
        pure (scope, schema))
      (fun (scope, schema) => jsonResponse .ok (.configSchema scope schema.isSome schema))
      (adminStoreError "config schema unavailable" drawn.requestId))

def configSchemaSet (body : ConfigSchemaBody) : ServerProg AdminResponse :=
  handler state headers drawn.requestId "/api/admin/config/schema"
    (respond (onConfig (state.configStore.setSchema body.scope body.schema))
      (fun _ => jsonResponse .ok (.success true))
      (adminStoreError "config schema update rejected" drawn.requestId))

def configSchemaDelete (params : ListParams) : ServerProg AdminResponse :=
  handler state headers drawn.requestId "/api/admin/config/schema"
    (respond (do
        let scope ← Prog.check (configScopeFromQuery params)
        onConfig (state.configStore.setSchema scope none))
      (fun _ => jsonResponse .ok (.success true))
      (adminStoreError "config schema delete rejected" drawn.requestId))

def configPublish (body : PublishConfigBody) : ServerProg AdminResponse :=
  handler state headers drawn.requestId "/api/admin/config/releases"
    (respond (onConfig (state.configStore.publish body.scope (body.message.getD "")
        (body.publishedBy.getD "admin")))
      (fun release => jsonResponse .ok (.configRelease release))
      (adminStoreError "config publish rejected" drawn.requestId))

def configReleases (params : ListParams) : ServerProg AdminResponse :=
  handler state headers drawn.requestId "/api/admin/config/releases"
    (respond (do
        let scope ← Prog.check (configScopeFromQuery params)
        onConfig (state.configStore.listReleases scope params.limit (params.offset.getD 0)))
      (fun page => jsonResponse .ok (.configReleases page))
      (adminStoreError "config releases unavailable" drawn.requestId))

end

/-! ## routes -/

/-- a route with its arguments -/
inductive AdminRoute where
  | overview
  | logs (params : ListParams)
  | cacheNamespaces (params : ListParams)
  | cacheEntries (params : ListParams)
  | mqQueues (params : ListParams)
  | mqMessages (queue : String) (params : ListParams)
  | mqDlqMessages (queue : String) (params : ListParams)
  | mqDlqMessage (queue : String) (messageId : Int)
  | mqDlqReprocess (queue : String) (messageId : Int)
  | mqDlqPurge (queue : String)
  | clients
  | clientCreate (body : CreateClientBody)
  | clientRotate (clientKey : String)
  | clientDeactivate (clientKey : String)
  | configScopes (params : ListParams)
  | configDraft (params : ListParams)
  | configUpsertItem (body : ConfigItemBody)
  | configDeleteItem (params : ListParams)
  | configSchemaGet (params : ListParams)
  | configSchemaSet (body : ConfigSchemaBody)
  | configSchemaDelete (params : ListParams)
  | configPublish (body : PublishConfigBody)
  | configReleases (params : ListParams)

/-- `get(…)` of axum serves HEAD too -/
def Method.isGet : Method → Bool
  | .get | .head => true
  | _ => false

/-- the routes under one path: the first whose method is the request's -/
def byMethod (ex : Extractors) (method : Method)
    (routes : List ((Method → Bool) × Except Rejection AdminRoute)) : Except Rejection AdminRoute :=
  match routes.find? (·.1 method) with
  | some route => route.2
  | none => .error ex.methodNotAllowed

/-- `router`, with the extractors of each handler in the order of its arguments -/
def router (ex : Extractors) (request : HttpRequest) : Except Rejection AdminRoute :=
  let on := byMethod ex request.method
  match request.path with
  | ["api", "admin", "overview"] => on [(Method.isGet, .ok .overview)]
  | ["api", "admin", "logs"] => on [(Method.isGet, do return .logs (← ex.query request))]
  | ["api", "admin", "cache", "namespaces"] =>
      on [(Method.isGet, do return .cacheNamespaces (← ex.query request))]
  | ["api", "admin", "cache", "entries"] =>
      on [(Method.isGet, do return .cacheEntries (← ex.query request))]
  | ["api", "admin", "mq", "queues"] =>
      on [(Method.isGet, do return .mqQueues (← ex.query request))]
  | ["api", "admin", "mq", "queues", queue, "messages"] =>
      on [(Method.isGet, do return .mqMessages (← ex.segment queue) (← ex.query request))]
  | ["api", "admin", "config", "scopes"] =>
      on [(Method.isGet, do return .configScopes (← ex.query request))]
  | ["api", "admin", "config", "draft"] =>
      on [(Method.isGet, do return .configDraft (← ex.query request))]
  | ["api", "admin", "config", "items"] =>
      on [((· == .put), do return .configUpsertItem (← ex.configItem request)),
        ((· == .delete), do return .configDeleteItem (← ex.query request))]
  | ["api", "admin", "config", "schema"] =>
      on [(Method.isGet, do return .configSchemaGet (← ex.query request)),
        ((· == .put), do return .configSchemaSet (← ex.configSchema request)),
        ((· == .delete), do return .configSchemaDelete (← ex.query request))]
  | ["api", "admin", "config", "releases"] =>
      on [(Method.isGet, do return .configReleases (← ex.query request)),
        ((· == .post), do return .configPublish (← ex.publishConfig request))]
  | ["api", "admin", "mq", "queues", queue, "dlq"] =>
      on [(Method.isGet, do return .mqDlqMessages (← ex.segment queue) (← ex.query request))]
  | ["api", "admin", "mq", "queues", queue, "dlq", "purge"] =>
      on [((· == .post), do return .mqDlqPurge (← ex.segment queue))]
  | ["api", "admin", "mq", "queues", queue, "dlq", messageId] =>
      on [(Method.isGet, do return .mqDlqMessage (← ex.segment queue) (← ex.messageId messageId))]
  | ["api", "admin", "mq", "queues", queue, "dlq", messageId, "reprocess"] =>
      on [((· == .post),
        do return .mqDlqReprocess (← ex.segment queue) (← ex.messageId messageId))]
  | ["api", "admin", "clients"] =>
      on [(Method.isGet, .ok .clients),
        ((· == .post), do return .clientCreate (← ex.createClient request))]
  | ["api", "admin", "clients", clientKey, "rotate"] =>
      on [((· == .post), do return .clientRotate (← ex.segment clientKey))]
  | ["api", "admin", "clients", clientKey, "deactivate"] =>
      on [((· == .post), do return .clientDeactivate (← ex.segment clientKey))]
  | _ => .error ex.notFound

/-- the handler of a route -/
def AdminRoute.handle (state : AdminHttpState) (headers : List (String × List UInt8))
    (drawn : Drawn) : AdminRoute → ServerProg AdminResponse
  | .overview => PgApp.overview state headers drawn
  | .logs params => PgApp.logs state headers drawn params
  | .cacheNamespaces params => PgApp.cacheNamespaces state headers drawn params
  | .cacheEntries params => PgApp.cacheEntries state headers drawn params
  | .mqQueues params => PgApp.mqQueues state headers drawn params
  | .mqMessages queue params => PgApp.mqMessages state headers drawn queue params
  | .mqDlqMessages queue params => PgApp.mqDlqMessages state headers drawn queue params
  | .mqDlqMessage queue id => PgApp.mqDlqMessage state headers drawn queue id
  | .mqDlqReprocess queue id => PgApp.mqDlqReprocess state headers drawn queue id
  | .mqDlqPurge queue => PgApp.mqDlqPurge state headers drawn queue
  | .clients => PgApp.clients state headers drawn
  | .clientCreate body => PgApp.clientCreate state headers drawn body
  | .clientRotate clientKey => PgApp.clientRotate state headers drawn clientKey
  | .clientDeactivate clientKey => PgApp.clientDeactivate state headers drawn clientKey
  | .configScopes params => PgApp.configScopes state headers drawn params
  | .configDraft params => PgApp.configDraft state headers drawn params
  | .configUpsertItem body => PgApp.configUpsertItem state headers drawn body
  | .configDeleteItem params => PgApp.configDeleteItem state headers drawn params
  | .configSchemaGet params => PgApp.configSchemaGet state headers drawn params
  | .configSchemaSet body => PgApp.configSchemaSet state headers drawn body
  | .configSchemaDelete params => PgApp.configSchemaDelete state headers drawn params
  | .configPublish body => PgApp.configPublish state headers drawn body
  | .configReleases params => PgApp.configReleases state headers drawn params

structure AdminRequest where
  request : HttpRequest
  drawn : Drawn

/-- the whole of a request: a rejection by axum reaches no handler -/
def AdminRequest.serve (state : AdminHttpState) (ex : Extractors) (rq : AdminRequest) :
    ServerProg AdminResponse :=
  match router ex rq.request with
  | .error rejection => pure (.rejected rejection)
  | .ok route => route.handle state rq.request.headers rq.drawn

/-! ## calls -/

inductive ServerCall where
  | cache (call : CacheCall)
  | mq (call : MqCall)
  | config (call : ConfigCall)
  | auth (lib : ClientLib) (call : AuthCall)
  | admin (state : AdminHttpState) (ex : Extractors) (rq : AdminRequest)

inductive ServerReturn where
  | cache (r : CacheReturn)
  | mq (r : MqReturn)
  | config (r : ConfigReturn)
  | auth (r : AuthReturn)
  | admin (response : AdminResponse)

/-- the program of a call -/
def ServerCall.body : ServerCall → ServerProg ServerReturn
  | .cache call => do return .cache (← onCache call.body)
  | .mq call => do return .mq (← onMq call.body)
  | .config call => do return .config (← onConfig call.body)
  | .auth lib call => do return .auth (← onAuth (call.body lib))
  | .admin state ex rq => do return .admin (← rq.serve state ex)

abbrev ServerSys :=
  Sys ServerStmt ServerStmt.Res PgAppError ServerReturn ServerCall ServerCtx ServerDb
abbrev ServerEv := Ev ServerStmt ServerStmt.Res ServerCall ServerCtx ServerDb

/-- reachable from the empty schema -/
abbrev ServerReach (σ : ServerSys) : Prop :=
  Reach ServerStmt.exec ServerCall.body ServerDb.empty σ

/-- session `s` serves the call it took in the state `σ` -/
abbrev ServerServing (s : Nat) (call : ServerCall) (σ τ : ServerSys) : Prop :=
  Serving ServerStmt.exec ServerCall.body s call σ τ

end PgApp
