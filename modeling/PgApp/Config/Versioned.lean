import PgApp.Config.GetRelease
import PgApp.Keyed.Lists
import PgApp.Server.Durations

/-!
# The Config Center as a store of documents

What the Config Center is for, without tables: a scope has a document, with its schema, its draft in
the order of the keys, and its releases, the oldest first.  A call that writes changes the document
of one scope, all at once; a call that reads tells something about the documents as they are.

* `ConfigCall.change`      what a call that writes makes of the document of its scope, or why it
does not;
* `ConfigCall.Tells`       what a call that reads may answer;
* `ConfigCall.Does`        both, as one step of this store;
* `ConfigTables.docs`      the documents that the committed tables stand for.
-/

namespace PgApp
open Keyed

/-! ## documents -/

structure ScopeDoc where
  createdAt : Time
  updatedAt : Time
  schema : Option Json
  items : List ConfigItem
  releases : List ConfigRelease

abbrev ConfigDocs := ConfigScope → Option ScopeDoc

def ScopeDoc.new (now : Time) : ScopeDoc := ⟨now, now, none, [], []⟩

/-- the draft without its deleted keys -/
def ScopeDoc.active (doc : ScopeDoc) : List (String × Json) :=
  (doc.items.filter fun i => !i.deleted).map fun i => (i.key, i.value)

/-- a release is published with the next number -/
def ScopeDoc.revision (doc : ScopeDoc) : Int := doc.releases.length

def ScopeDoc.summary (scope : ConfigScope) (doc : ScopeDoc) : ConfigScopeSummary :=
  ⟨scope, doc.revision, doc.createdAt, doc.updatedAt⟩

def ScopeDoc.write (item : ConfigItem) (doc : ScopeDoc) : ScopeDoc :=
  { doc with items := put (·.key) item doc.items }

def ScopeDoc.publish (now : Time) (release : ConfigRelease) (doc : ScopeDoc) : ScopeDoc :=
  { doc with releases := doc.releases ++ [release], updatedAt := now }

namespace ConfigDocs
variable (docs : ConfigDocs) (scope : ConfigScope)

def items : List ConfigItem := ((docs scope).map (·.items)).getD []
def releases : List ConfigRelease := ((docs scope).map (·.releases)).getD []
def latest : Option ConfigRelease := (ConfigDocs.releases docs scope).getLast?

/-- all scopes, by application, environment, cluster and namespace -/
structure Lists (rows : List ConfigScopeSummary) : Prop where
  sorted : Rising (fun x : ConfigScopeSummary =>
    [x.scope.appId, x.scope.environment, x.scope.cluster, x.scope.namespace_]) rows
  mem_iff : ∀ x, x ∈ rows ↔ ∃ doc, docs x.scope = some doc ∧ x = doc.summary x.scope

end ConfigDocs

/-! ## calls -/

/-- the scope a call writes to -/
def ConfigOp.writes : ConfigOp → Option ConfigScope
  | .upsertItem scope _ _ | .setSchema scope _ | .deleteItem scope _ | .publish scope _ _ =>
    some scope
  | _ => none

/-- the check of `set_schema` -/
def ConfigStore.validateSchema (store : ConfigStore) : Option Json → PgAppResult Unit
  | some schema => do
    store.validateSchemaSize schema
    store.validateJsonSchema schema
  | none => .ok ()

/-- the values of a draft against its schema, in the order of the keys -/
def ConfigStore.checkDraft (store : ConfigStore) (schema : Option Json) :
    List (String × Json) → PgAppResult Unit
  | [] => .ok ()
  | (key, value) :: rows => do
    store.checkSchema key value schema
    store.checkDraft schema rows

/-- what PostgreSQL takes -/
def stored (values : List Json) (texts : List String) : PgAppResult Unit :=
  (bound values texts).mapError PgAppError.ofSqlx

/-- what a call that writes makes of a document, and what it answers, or why it is refused -/
def ConfigCall.change (call : ConfigCall) (now : Time) (doc : ScopeDoc) :
    PgAppResult (ConfigReturn × ScopeDoc) :=
  match call.op with
  | .upsertItem scope key value => do
    validateScope scope
    validateConfigKey key
    call.store.validatePayloadSize value
    call.store.checkSchema key value doc.schema
    stored [value] []
    pure (.unit, doc.write ⟨key, value, false, now⟩)
  | .setSchema scope schema => do
    validateScope scope
    call.store.validateSchema schema
    stored schema.toList []
    pure (.unit, { doc with schema := schema, updatedAt := now })
  | .deleteItem scope key => do
    validateScope scope
    validateConfigKey key
    pure (.bool true, doc.write ⟨key, .null, true, now⟩)
  | .publish scope message publishedBy => do
    validateScope scope
    validatePublishField "message" message
    validatePublishField "published_by" publishedBy
    call.store.checkDraft doc.schema doc.active
    let checksum ← call.store.checksumJson (.obj doc.active)
    stored [] [message, publishedBy]
    let release := ⟨scope, doc.revision + 1, checksum, .obj doc.active, message, publishedBy, now⟩
    pure (.release release, doc.publish now release)
  | _ => .error (.invalidArgument "the call does not write")

/-- one release, or the error that there is none -/
def releaseFound (scope : ConfigScope) : Option ConfigRelease → PgAppResult ConfigRelease
  | some release => .ok release
  | none => .error (.notFound s!"config release {scopeLabel scope}")

/-- what `watch` may say of a scope: a release newer than the known one and its number, or how many
there are -/
def Watched (docs : ConfigDocs) (scope : ConfigScope) (known : Int)
    (res : ConfigWatchResult) : Prop :=
  (∃ release, ConfigDocs.latest docs scope = some release ∧ known < release.revision ∧
    res = ⟨true, release.revision, some release⟩) ∨
  res = ⟨false, (ConfigDocs.releases docs scope).length, none⟩

/-- what a call that reads may answer where the documents are these -/
def ConfigCall.Tells (call : ConfigCall) (docs : ConfigDocs)
    (r : PgAppResult ConfigReturn) : Prop :=
  match call.op with
  | .listScopes limit offset =>
    match call.store.page limit offset with
    | .error e => r = .error e
    | .ok page => ∃ rows, ConfigDocs.Lists docs rows ∧ r = (do
      let shown ← (limitOffset rows page.fetchLimit page.offset).mapError PgAppError.ofSqlx
      pure (.scopes (page.finish shown)))
  | .getSchema scope => r = (do
    validateScope scope
    pure (.schema ((docs scope).bind (·.schema))))
  | .getDraft scope => r = (do
    validateScope scope
    pure (.draft (ConfigDocs.items docs scope)))
  | .getLatestRelease scope => r = (do
    validateScope scope
    let release ← releaseFound scope (ConfigDocs.latest docs scope)
    pure (.release release))
  | .getRelease scope revision => r = (do
    validateScope scope
    let release ← releaseFound scope (if revision ≤ 0 then ConfigDocs.latest docs scope
      else (ConfigDocs.releases docs scope).find? (·.revision == revision))
    pure (.release release))
  | .listReleases scope limit offset => r = (do
    validateScope scope
    let page ← call.store.page limit offset
    let shown ← (limitOffset (ConfigDocs.releases docs scope).reverse page.fetchLimit
      page.offset).mapError PgAppError.ofSqlx
    pure (.releases (page.finish shown)))
  | .watch scope known timeout _ _ =>
    match call.store.validateWatch scope known timeout with
    | .error e => r = .error e
    | .ok () => ∃ res, Watched docs scope known res ∧ r = .ok (.watched res)
  | _ => False

/-- one call, all at once: its answer, and the documents after it -/
def ConfigCall.Does (call : ConfigCall) (now : Time) (docs : ConfigDocs)
    (r : PgAppResult ConfigReturn) (docs' : ConfigDocs) : Prop :=
  match call.op.writes with
  | none => call.Tells docs r ∧ docs' = docs
  | some scope =>
    match call.change now ((docs scope).getD (.new now)) with
    | .error e => r = .error e ∧ docs' = docs
    | .ok (answer, doc) => r = .ok answer ∧ docs' = Function.update docs scope (some doc)

/-! ## the documents of the tables -/

def ItemRow.item (i : ItemRow) : ConfigItem := ⟨i.key, i.value, i.deleted, i.updatedAt⟩

/-- the draft of the item rows of one scope -/
def draftItemsOf (items : List ItemRow) : List ConfigItem :=
  (items.insertionSort fun a b => a.key ≤ b.key).map ItemRow.item

/-- a scope row with the items and releases that belong to it -/
def docOf (row : ScopeRow) (items : List ItemRow) (releases : List ReleaseRow) : ScopeDoc :=
  ⟨row.createdAt, row.updatedAt, row.jsonSchema, draftItemsOf items,
    releases.map (rowToRelease row.scope)⟩

def ScopePart.doc (p : ScopePart) : Option ScopeDoc :=
  p.row.map fun row => docOf row p.items p.releases

def ConfigTables.docs (tb : ConfigTables) : ConfigDocs := fun scope => (tb.state scope).doc

end PgApp
