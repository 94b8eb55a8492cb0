import PgApp.Interleave.Serial
import PgApp.Server.MqService
import PgApp.Server.WatchRpc

/-!
# The Config Center service (`pgapp-server/src/lib.rs`, `impl ConfigService for ConfigGrpc`)

All of its requests, with `record_rpc`'s time limit: a request that passes its checks is one call of
the store (`ConfigService.opFor`), and whoever waits for it may give it up (`Limited`).  The Admin
API calls the store too (`ConfigClient.store`).

`serde_json::from_str` is a field; how a timestamp or a JSON value is written as protobuf text is
left out, and so are the metrics.
-/

namespace PgApp
open Interleave

structure ConfigService where
  grpc : ConfigGrpc
  fromStr : String → Except String Json

/-! ## requests and responses (`config.proto`) -/

inductive ConfigRequest where
  | listScopes (limit offset : Int)
  | upsertItem (scope : Option ConfigScope) (key jsonValue : String)
  | deleteItem (scope : Option ConfigScope) (key : String)
  | getDraft (scope : Option ConfigScope)
  | publish (scope : Option ConfigScope) (message publishedBy : String)
  | getRelease (scope : Option ConfigScope) (revision : Int)
  | listReleases (scope : Option ConfigScope) (limit offset : Int)
  | watch (rq : WatchConfigRequest)
  | setSchema (scope : Option ConfigScope) (jsonSchema : String)
  | getSchema (scope : Option ConfigScope)

inductive ConfigResponse where
  | listScopes (page : RpcPage ConfigScopeSummary)
  | operationResult (success : Bool)
  | configDraft (scope : Option ConfigScope) (items : List ConfigItem)
  | configRelease (release : ConfigRelease)
  | listReleases (page : RpcPage ConfigRelease)
  | watchConfig (changed : Bool) (latestRevision : Int) (release : Option ConfigRelease)
  | configSchema (scope : Option ConfigScope) (hasSchema : Bool) (jsonSchema : Option Json)

/-- the scope of a call -/
def ConfigOp.scope : ConfigOp → Option ConfigScope
  | .listScopes _ _ => none
  | .upsertItem scope _ _ | .setSchema scope _ | .getSchema scope | .deleteItem scope _
  | .getDraft scope | .publish scope _ _ | .getLatestRelease scope | .getRelease scope _
  | .listReleases scope _ _ | .watch scope _ _ _ _ => some scope

/-- the response made of an answer of the store -/
def ConfigOp.response (op : ConfigOp) : ConfigReturn → ConfigResponse
  | .unit => .operationResult true
  | .bool success => .operationResult success
  | .schema schema => .configSchema op.scope schema.isSome schema
  | .draft items => .configDraft op.scope items
  | .release release => .configRelease release
  | .scopes page => .listScopes ⟨page.items, page.nextOffset.getD 0⟩
  | .releases page => .listReleases ⟨page.items, page.nextOffset.getD 0⟩
  | .watched result => .watchConfig result.changed result.latestRevision result.release

section
variable (svc : ConfigService) (rounds : Nat)

def ConfigService.parseConfigJson (payload : String) : Except Status Json :=
  match svc.fromStr payload with
  | .ok value => .ok value
  | .error err => .error (.ofError (.invalidArgument s!"invalid JSON payload: {err}"))

/-- the schema of `set_schema`; a blank text removes it -/
def ConfigService.schemaOf (jsonSchema : String) : Except Status (Option Json) :=
  if blank jsonSchema then .ok none
  else do
    let schema ← svc.parseConfigJson jsonSchema
    pure (some schema)

/-- the call of the store that a request makes -/
def ConfigService.opOf : ConfigRequest → Except Status ConfigOp
  | .listScopes limit offset => pure (.listScopes (nonzeroLimit limit) offset)
  | .upsertItem scope key jsonValue => do
    let scope ← requiredScope scope
    let value ← svc.parseConfigJson jsonValue
    pure (.upsertItem scope key value)
  | .deleteItem scope key => do
    let scope ← requiredScope scope
    pure (.deleteItem scope key)
  | .getDraft scope => do
    let scope ← requiredScope scope
    pure (.getDraft scope)
  | .publish scope message publishedBy => do
    let scope ← requiredScope scope
    pure (.publish scope message publishedBy)
  | .getRelease scope revision => do
    let scope ← requiredScope scope
    pure (.getRelease scope revision)
  | .listReleases scope limit offset => do
    let scope ← requiredScope scope
    pure (.listReleases scope (nonzeroLimit limit) offset)
  | .watch rq => do
    let scope ← requiredScope rq.scope
    pure (.watch scope rq.knownRevision rq.timeoutSeconds 100 rounds)
  | .setSchema scope jsonSchema => do
    let scope ← requiredScope scope
    let schema ← svc.schemaOf jsonSchema
    pure (.setSchema scope schema)
  | .getSchema scope => do
    let scope ← requiredScope scope
    pure (.getSchema scope)

end

/-! ## serving -/

/-- who has the store do something -/
inductive ConfigClient where
  | request (rq : ConfigRequest)
  | store (op : ConfigOp)

/-- a client, and the bound on the rounds of its watch -/
structure ConfigJob where
  client : ConfigClient
  rounds : Nat

abbrev ConfigRpcProg := Prog ConfigStmt ConfigStmt.Res Status

/-- the call of a job, or the status it is turned away with -/
def ConfigService.opFor (svc : ConfigService) (job : ConfigJob) : Except Status ConfigOp :=
  match job.client with
  | .request rq => do
    svc.grpc.ensureEnabled
    svc.opOf job.rounds rq
  | .store op => pure op

def ConfigService.handler (svc : ConfigService) (job : ConfigJob) :
    ConfigRpcProg ConfigResponse := do
  let op ← Prog.check (svc.opFor job)
  let answer ← (ConfigCall.body ⟨svc.grpc.store, op⟩).mapResult (·.mapError Status.ofError)
  pure (op.response answer)

def ConfigStmt.brackets : Brackets ConfigStmt where
  opens := fun st => match st with | .begin => true | _ => false
  closes := fun st => match st with | .commit => true | .rollback => true | _ => false
  needsCommit := fun _ => false
  rollback := .rollback

def ConfigService.serve (svc : ConfigService) (job : Limited ConfigJob) :
    ConfigRpcProg ConfigResponse :=
  (svc.handler job.op).limited ConfigStmt.brackets timedOut job.limit

abbrev ConfigServiceSys :=
  Sys ConfigStmt ConfigStmt.Res Status ConfigResponse (Limited ConfigJob) Time ConfigDb

/-- reachable by jobs of any number of clients, in any interleaving, each dropped at any point -/
abbrev ConfigServiceReach (svc : ConfigService) (σ : ConfigServiceSys) : Prop :=
  Reach ConfigStmt.exec svc.serve ConfigDb.empty σ

/-- the call of a job; a job that is turned away issues no statement -/
def ConfigService.callOf (svc : ConfigService) (job : Limited ConfigJob) : ConfigCall :=
  ⟨svc.grpc.store, ((svc.opFor job.op).toOption).getD (.listScopes none 0)⟩

/-- the store under the service -/
abbrev ConfigService.part (svc : ConfigService) :
    Part ConfigStmt.exec ConfigStmt.exec ConfigCall (Limited ConfigJob) :=
  Part.same ConfigStmt.exec svc.callOf

end PgApp
