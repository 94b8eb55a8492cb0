import PgApp.Config.Stmt
import PgApp.Core.Validation
import PgApp.Interleave.System

/-!
# `ConfigStore` (`config_center.rs`)

The operations of the store as programs over `ConfigStmt`.  Third-party code is a field of
`ConfigStore`: `serde_json::to_vec`, the hex text of SHA-256, and `jsonschema::validator_for`, which
makes a validator of a schema or fails.  A `serde_json::Map` keeps its keys in order
(`mapInsert`).

`watch` polls; as in the MQ store its loop has a bound on its rounds, and a loop that is not done
then waits for ever, so every run of the real loop that ends is a run of some bound.
-/

namespace PgApp
open Interleave

structure ConfigLimits where
  maxWatchSeconds : Int := 30
  maxPayloadBytes : Nat := 1024 * 1024
  maxPageSize : Nat := 100
  maxSchemaBytes : Nat := 256 * 1024

structure ConfigStore where
  limits : ConfigLimits
  toVec : Json → Except String (List UInt8)
  sha256Hex : List UInt8 → String
  validatorFor : Json → Except String (Json → Except String Unit)

structure ConfigWatchResult where
  changed : Bool
  latestRevision : Int
  release : Option ConfigRelease

structure ConfigPage (α : Type) where
  items : List α
  limit : Nat
  offset : Int
  nextOffset : Option Int

structure PageState where
  limit : Nat
  fetchLimit : Int
  offset : Int

abbrev ConfigProg := Prog ConfigStmt ConfigStmt.Res PgAppError

/-! ## checks -/

def validateScope (scope : ConfigScope) : PgAppResult Unit := do
  validateConfigComponent "app_id" scope.appId
  validateConfigComponent "environment" scope.environment
  validateConfigComponent "cluster" scope.cluster
  validateConfigComponent "namespace" scope.namespace_

def validatePublishField (field value : String) : PgAppResult Unit :=
  if value.utf8ByteSize > 512 then .error (.invalidArgument s!"{field} exceeds 512 bytes")
  else .ok ()

def ConfigStore.validatePayloadSize (store : ConfigStore) (value : Json) : PgAppResult Unit :=
  match store.toVec value with
  | .error err => .error (.invalidArgument s!"invalid JSON value: {err}")
  | .ok bytes =>
    if bytes.length > store.limits.maxPayloadBytes then
      .error (.invalidArgument s!"json_value exceeds {store.limits.maxPayloadBytes} bytes")
    else .ok ()

def ConfigStore.validateSchemaSize (store : ConfigStore) (value : Json) : PgAppResult Unit :=
  match store.toVec value with
  | .error err => .error (.invalidArgument s!"invalid JSON schema: {err}")
  | .ok bytes =>
    if bytes.length > store.limits.maxSchemaBytes then
      .error (.invalidArgument s!"json_schema exceeds {store.limits.maxSchemaBytes} bytes")
    else .ok ()

def ConfigStore.validateJsonSchema (store : ConfigStore) (schema : Json) : PgAppResult Unit :=
  match store.validatorFor schema with
  | .error err => .error (.invalidArgument s!"invalid JSON schema: {err}")
  | .ok _ => .ok ()

def ConfigStore.validateValueAgainstSchema (store : ConfigStore) (key : String)
    (schema value : Json) : PgAppResult Unit :=
  match store.validatorFor schema with
  | .error err => .error (.invalidArgument s!"invalid JSON schema: {err}")
  | .ok validator =>
    match validator value with
    | .error err =>
      .error (.invalidArgument s!"config key {key} failed JSON schema validation: {err}")
    | .ok () => .ok ()

def ConfigStore.checksumJson (store : ConfigStore) (value : Json) : PgAppResult String :=
  match store.toVec value with
  | .error err => .error (.invalidArgument s!"invalid JSON value: {err}")
  | .ok bytes => .ok (store.sha256Hex bytes)

def ConfigStore.page (store : ConfigStore) (limit : Option Int) (offset : Int) :
    PgAppResult PageState :=
  if offset < 0 then .error (.invalidArgument "offset must not be negative")
  else
    let requested := limit.getD (asI64 store.limits.maxPageSize)
    if requested ≤ 0 then .error (.invalidArgument "limit must be positive")
    else
      let limit := asUsize (min requested (asI64 store.limits.maxPageSize))
      .ok ⟨limit, wrapI64 (asI64 limit + 1), offset⟩

def PageState.finish {α : Type} (page : PageState) (items : List α) : ConfigPage α :=
  let hasMore := page.limit < items.length
  ⟨if hasMore then items.take page.limit else items, page.limit, page.offset,
    if hasMore then some (page.offset + asI64 page.limit) else none⟩

def scopeLabel (scope : ConfigScope) : String :=
  s!"{scope.appId}/{scope.environment}/{scope.cluster}/{scope.namespace_}"

/-! ## transactions -/

namespace ConfigProg

def query (st : ConfigStmt) : ConfigProg st.Res := Prog.call st

/-- the body of a transaction between `begin` and `commit` -/
def inTx {α : Type} (p : ConfigProg α) : ConfigProg α :=
  .exec .begin fun _ => p.bracket .commit .rollback

end ConfigProg

open ConfigProg

/-- the check of `upsert_item` against the schema of its scope -/
def ConfigStore.checkSchema (store : ConfigStore) (key : String) (value : Json) :
    Option Json → PgAppResult Unit
  | some schema => store.validateValueAgainstSchema key schema value
  | none => .ok ()

def ConfigStore.upsertItem (store : ConfigStore) (scope : ConfigScope) (key : String)
    (value : Json) : ConfigProg Unit := do
  Prog.check (validateScope scope)
  Prog.check (validateConfigKey key)
  Prog.check (store.validatePayloadSize value)
  inTx do
    let scopeId ← query (.ensureScope scope)
    let schema ← orFail (← query (.selectSchema scopeId))
    Prog.check (store.checkSchema key value schema)
    orFail (← query (.upsertItem scopeId key value false))

def ConfigStore.setSchema (store : ConfigStore) (scope : ConfigScope) (schema : Option Json) :
    ConfigProg Unit := do
  Prog.check (validateScope scope)
  Prog.check (match schema with
    | some schema => do
        store.validateSchemaSize schema
        store.validateJsonSchema schema
    | none => .ok ())
  inTx do
    let scopeId ← query (.ensureScope scope)
    orFail (← query (.updateSchema scopeId schema))

def deleteItem (scope : ConfigScope) (key : String) : ConfigProg Bool := do
  Prog.check (validateScope scope)
  Prog.check (validateConfigKey key)
  inTx do
    let scopeId ← query (.ensureScope scope)
    orFail (← query (.upsertItem scopeId key .null true))
    pure true

/-- `Map::insert` -/
def mapInsert (key : String) (value : Json) : List (String × Json) → List (String × Json)
  | [] => [(key, value)]
  | (k, v) :: rest =>
    if key < k then (key, value) :: (k, v) :: rest
    else if key = k then (key, value) :: rest
    else (k, v) :: mapInsert key value rest

/-- the loop of `publish` over the draft -/
def ConfigStore.buildSnapshot (store : ConfigStore) (schema : Option Json) :
    List (String × Json) → List (String × Json) → PgAppResult (List (String × Json))
  | [], snapshot => .ok snapshot
  | (key, value) :: rows, snapshot =>
    match store.checkSchema key value schema with
    | .error e => .error e
    | .ok () => store.buildSnapshot schema rows (mapInsert key value snapshot)

def ConfigStore.publish (store : ConfigStore) (scope : ConfigScope)
    (message publishedBy : String) : ConfigProg ConfigRelease := do
  Prog.check (validateScope scope)
  Prog.check (validatePublishField "message" message)
  Prog.check (validatePublishField "published_by" publishedBy)
  inTx do
    let scopeId ← query (.ensureScope scope)
    let currentRevision ← orFail (← query (.selectCurrentRevision scopeId))
    let rows ← query (.selectActiveItems scopeId)
    let schema ← orFail (← query (.selectSchema scopeId))
    let fields ← Prog.check (store.buildSnapshot schema rows [])
    let snapshot := Json.obj fields
    let checksum ← Prog.check (store.checksumJson snapshot)
    let revision := currentRevision + 1
    let publishedAt ← orFail
      (← query (.insertRelease scopeId revision snapshot checksum message publishedBy))
    query (.updateCurrentRevision scopeId revision)
    pure ⟨scope, revision, checksum, snapshot, message, publishedBy, publishedAt⟩

/-! ## reading -/

def ConfigStore.listScopes (store : ConfigStore) (limit : Option Int) (offset : Int) :
    ConfigProg (ConfigPage ConfigScopeSummary) := do
  let page ← Prog.check (store.page limit offset)
  let rows ← orFail (← query (.listScopes page.fetchLimit page.offset))
  pure (page.finish rows)

def getSchema (scope : ConfigScope) : ConfigProg (Option Json) := do
  Prog.check (validateScope scope)
  let schema ← query (.jsonSchema scope)
  pure schema.join

def getDraft (scope : ConfigScope) : ConfigProg (List ConfigItem) := do
  Prog.check (validateScope scope)
  match ← query (.scopeId scope) with
  | none => pure []
  | some scopeId => query (.draftItems scopeId)

/-- `ok_or_else` of the two functions that fetch one release -/
def releaseOrNotFound (scope : ConfigScope) : Option ConfigRelease → ConfigProg ConfigRelease
  | some release => pure release
  | none => Prog.throw (.notFound s!"config release {scopeLabel scope}")

def getLatestRelease (scope : ConfigScope) : ConfigProg ConfigRelease := do
  Prog.check (validateScope scope)
  releaseOrNotFound scope (← query (.latestRelease scope))

def getRelease (scope : ConfigScope) (revision : Int) : ConfigProg ConfigRelease := do
  Prog.check (validateScope scope)
  if revision ≤ 0 then getLatestRelease scope
  else do
    releaseOrNotFound scope (← query (.releaseAt scope revision))

def ConfigStore.listReleases (store : ConfigStore) (scope : ConfigScope) (limit : Option Int)
    (offset : Int) : ConfigProg (ConfigPage ConfigRelease) := do
  Prog.check (validateScope scope)
  let page ← Prog.check (store.page limit offset)
  let rows ← orFail (← query (.listReleases scope page.fetchLimit page.offset))
  pure (page.finish rows)

/-! ## watching -/

/-- `current_revision` -/
def currentRevisionOf (scope : ConfigScope) : ConfigProg Int := do
  let revision ← query (.currentRevision scope)
  pure (revision.getD 0)

/-- the loop of `watch` -/
def watchLoop (scope : ConfigScope) (knownRevision : Int) (interval deadline : Time) :
    Nat → ConfigProg ConfigWatchResult
  | 0 => .exec .idle fun _ => pure ⟨false, 0, none⟩
  | rounds + 1 => do
    match ← query (.latestNewerThan scope knownRevision) with
    | some release => pure ⟨true, release.revision, some release⟩
    | none => do
      let latestRevision ← currentRevisionOf scope
      let now ← query .utcNow
      if deadline ≤ now then pure ⟨false, latestRevision, none⟩
      else do
        query (.sleep interval)
        watchLoop scope knownRevision interval deadline rounds

def watchInterval (pollIntervalMillis : Int) : Time :=
  if pollIntervalMillis ≤ 0 then millis 100 else millis pollIntervalMillis

def ConfigStore.watch (store : ConfigStore) (scope : ConfigScope)
    (knownRevision timeoutSeconds pollIntervalMillis : Int) (rounds : Nat) :
    ConfigProg ConfigWatchResult := do
  Prog.check (validateScope scope)
  if knownRevision < 0 then
    Prog.throw (.invalidArgument "known_revision must not be negative")
  else if timeoutSeconds < 0 then
    Prog.throw (.invalidArgument "timeout_seconds must not be negative")
  else if timeoutSeconds > store.limits.maxWatchSeconds then
    Prog.throw (.invalidArgument
      s!"timeout_seconds must be less than or equal to {store.limits.maxWatchSeconds}")
  else do
    let now ← query .utcNow
    watchLoop scope knownRevision (watchInterval pollIntervalMillis) (now + seconds timeoutSeconds)
      rounds

/-! ## calls -/

inductive ConfigOp where
  | listScopes (limit : Option Int) (offset : Int)
  | upsertItem (scope : ConfigScope) (key : String) (value : Json)
  | setSchema (scope : ConfigScope) (schema : Option Json)
  | getSchema (scope : ConfigScope)
  | deleteItem (scope : ConfigScope) (key : String)
  | getDraft (scope : ConfigScope)
  | publish (scope : ConfigScope) (message publishedBy : String)
  | getLatestRelease (scope : ConfigScope)
  | getRelease (scope : ConfigScope) (revision : Int)
  | listReleases (scope : ConfigScope) (limit : Option Int) (offset : Int)
  | watch (scope : ConfigScope) (knownRevision timeoutSeconds pollIntervalMillis : Int)
      (rounds : Nat)

inductive ConfigReturn where
  | unit
  | bool (b : Bool)
  | schema (schema : Option Json)
  | draft (items : List ConfigItem)
  | release (release : ConfigRelease)
  | scopes (page : ConfigPage ConfigScopeSummary)
  | releases (page : ConfigPage ConfigRelease)
  | watched (result : ConfigWatchResult)

/-- a call and the store that serves it -/
structure ConfigCall where
  store : ConfigStore
  op : ConfigOp

def ConfigCall.body (c : ConfigCall) : ConfigProg ConfigReturn :=
  match c.op with
  | .listScopes l o => do return .scopes (← c.store.listScopes l o)
  | .upsertItem sc k v => do c.store.upsertItem sc k v; return .unit
  | .setSchema sc schema => do c.store.setSchema sc schema; return .unit
  | .getSchema sc => do return .schema (← getSchema sc)
  | .deleteItem sc k => do return .bool (← deleteItem sc k)
  | .getDraft sc => do return .draft (← getDraft sc)
  | .publish sc m p => do return .release (← c.store.publish sc m p)
  | .getLatestRelease sc => do return .release (← getLatestRelease sc)
  | .getRelease sc r => do return .release (← getRelease sc r)
  | .listReleases sc l o => do return .releases (← c.store.listReleases sc l o)
  | .watch sc k t i rounds => do return .watched (← c.store.watch sc k t i rounds)

abbrev ConfigSys := Sys ConfigStmt ConfigStmt.Res PgAppError ConfigReturn ConfigCall Time ConfigDb
abbrev ConfigEv := Ev ConfigStmt ConfigStmt.Res ConfigCall Time ConfigDb

abbrev ConfigStep : ConfigSys → ConfigSys → Prop := Step ConfigStmt.exec ConfigCall.body

/-- reachable from the empty schema -/
abbrev ConfigReach (σ : ConfigSys) : Prop :=
  Reach ConfigStmt.exec ConfigCall.body ConfigDb.empty σ

end PgApp
