import PgApp.Config.Tables
import Mathlib.Data.List.Lex
import Mathlib.Data.List.Sort
import Mathlib.Data.String.Basic

/-!
# The SQL statements of `config_center.rs`

`ConfigStmt` has one constructor per query of the file (the two upserts of `config_items` are one,
with their `value_json` and `deleted`), and

    ConfigStmt.exec s clock st db    what statement `st` of session `s` does, in one step.

A statement that meets a row version of another open transaction waits (`none`): that is the lock
that `ensure_scope` takes by `DO UPDATE SET updated_at = config_scopes.updated_at`.  `now()` is the
start of the transaction.  The queries outside a transaction see the committed tables.  A statement
whose JSON or texts PostgreSQL does not take (`bound`) fails.

`ORDER BY` a text is the order of the database's collation.  It is taken to be that of the code
points, as with the collation "C".
-/

namespace PgApp
open Interleave

structure ConfigItem where
  key : String
  value : Json
  deleted : Bool
  updatedAt : Time

structure ConfigRelease where
  scope : ConfigScope
  revision : Int
  checksum : String
  snapshot : Json
  message : String
  publishedBy : String
  publishedAt : Time

structure ConfigScopeSummary where
  scope : ConfigScope
  currentRevision : Int
  createdAt : Time
  updatedAt : Time

inductive ConfigStmt where
  | begin
  | commit
  | rollback
  | ensureScope (scope : ConfigScope)
  | selectCurrentRevision (scopeId : Int)
  | selectActiveItems (scopeId : Int)
  | selectSchema (scopeId : Int)
  | insertRelease (scopeId revision : Int) (snapshot : Json) (checksum message publishedBy : String)
  | updateCurrentRevision (scopeId revision : Int)
  | updateSchema (scopeId : Int) (schema : Option Json)
  | upsertItem (scopeId : Int) (key : String) (value : Json) (deleted : Bool)
  | listScopes (limit offset : Int)
  | jsonSchema (scope : ConfigScope)
  | scopeId (scope : ConfigScope)
  | draftItems (scopeId : Int)
  | latestRelease (scope : ConfigScope)
  | releaseAt (scope : ConfigScope) (revision : Int)
  | listReleases (scope : ConfigScope) (limit offset : Int)
  | latestNewerThan (scope : ConfigScope) (revision : Int)
  | currentRevision (scope : ConfigScope)
  | utcNow
  | sleep (duration : Time)
  | idle

abbrev ConfigStmt.Res : ConfigStmt → Type
  | .ensureScope _ => Int
  | .selectCurrentRevision _ => Except SqlError Int
  | .selectActiveItems _ => List (String × Json)
  | .selectSchema _ => Except SqlError (Option Json)
  | .insertRelease _ _ _ _ _ _ => Except SqlError Time
  | .updateSchema _ _ => Except SqlError Unit
  | .upsertItem _ _ _ _ => Except SqlError Unit
  | .listScopes _ _ => Except SqlError (List ConfigScopeSummary)
  | .jsonSchema _ => Option (Option Json)
  | .scopeId _ => Option Int
  | .draftItems _ => List ConfigItem
  | .latestRelease _ => Option ConfigRelease
  | .releaseAt _ _ => Option ConfigRelease
  | .listReleases _ _ _ => Except SqlError (List ConfigRelease)
  | .latestNewerThan _ _ => Option ConfigRelease
  | .currentRevision _ => Option Int
  | .utcNow => Time
  | _ => Unit

/-! ## writing, inside a transaction -/

/-- the JSON values and the texts among the parameters of a statement -/
def bound (values : List Json) (texts : List String) : Except SqlError Unit :=
  if !values.all Json.storable then .error .unsupportedUnicode
  else if !texts.all storable then .error .invalidText
  else .ok ()

section
variable (db : ConfigDb) (s : Nat) (t : ConfigTx)

def ConfigDb.setTx (t' : ConfigTx) : ConfigDb := { db with txs := db.txs.set s t' }

/-- `ensure_scope`: the conflicting row gets a version of its own, which locks it -/
def ConfigDb.ensureScope (scope : ConfigScope) : Option (Int × ConfigDb) :=
  if t.scope.any (·.scope != scope) then none
  else
    let r := (db.seenScope s scope).getD
      ⟨db.nextScopeId, scope, 0, t.startedAt, t.startedAt, none⟩
    some (r.id, { db.setTx s { t with scope := some r } with nextScopeId := db.nextScopeId + 1 })

/-- `SELECT current_revision … FOR UPDATE` -/
def ConfigDb.selectCurrentRevision (id : Int) : Option (Except SqlError Int × ConfigDb) :=
  if t.scope.any (·.id != id) then none
  else
    match db.seenScopeId s id with
    | none => some (.error .rowNotFound, db)
    | some r => some (.ok r.currentRevision, db.setTx s { t with scope := some r })

def ConfigDb.selectActiveItems (id : Int) : List (String × Json) :=
  (((db.seenItems s).filter fun i => i.scopeId == id && !i.deleted).map
    fun i => (i.key, i.value)).insertionSort fun a b => a.1 ≤ b.1

def ConfigDb.selectSchema (id : Int) : Except SqlError (Option Json) :=
  match db.seenScopeId s id with
  | none => .error .rowNotFound
  | some r => .ok r.jsonSchema

/-- the INSERT of `publish`; its snapshot is made of values that PostgreSQL took before -/
def ConfigDb.insertRelease (id revision : Int) (snapshot : Json)
    (checksum message publishedBy : String) : Except SqlError Time × ConfigDb :=
  match bound [] [message, publishedBy] with
  | .error e => (.error e, db)
  | .ok () =>
    if (db.seenScopeId s id).isNone then
      (.error (.foreignKeyViolation "config_releases" "config_releases_scope_id_fkey"),
        { db with nextReleaseId := db.nextReleaseId + 1 })
    else if (db.seenReleases s).any fun r => r.scopeId == id && r.revision == revision then
      (.error (.uniqueViolation "config_releases_scope_id_revision_key"),
        { db with nextReleaseId := db.nextReleaseId + 1 })
    else
      (.ok t.startedAt,
        { db.setTx s { t with releases := t.releases ++ [⟨db.nextReleaseId, id, revision, snapshot,
            checksum, message, publishedBy, t.startedAt⟩] } with
          nextReleaseId := db.nextReleaseId + 1 })

/-- the two `UPDATE config_scopes … WHERE id = $1` -/
def ConfigDb.updateScope (id : Int) (f : ScopeRow → ScopeRow) : Option (Unit × ConfigDb) :=
  if t.scope.any (·.id != id) then none
  else
    match db.seenScopeId s id with
    | none => some ((), db)
    | some r => some ((), db.setTx s { t with scope := some { f r with updatedAt := t.startedAt } })

def ConfigDb.updateSchema (id : Int) (schema : Option Json) :
    Option (Except SqlError Unit × ConfigDb) :=
  match bound schema.toList [] with
  | .error e => some (.error e, db)
  | .ok () =>
    (db.updateScope s t id fun r => { r with jsonSchema := schema }).map fun p => (.ok p.1, p.2)

def ConfigDb.upsertItem (id : Int) (key : String) (value : Json) (deleted : Bool) :
    Except SqlError Unit × ConfigDb :=
  match bound [value] [] with
  | .error e => (.error e, db)
  | .ok () =>
    if (db.seenScopeId s id).isNone then
      (.error (.foreignKeyViolation "config_items" "config_items_scope_id_fkey"),
        { db with nextItemId := db.nextItemId + 1 })
    else
      let rowId := (((db.seenItems s).find? (·.isAt id key)).map (·.id)).getD db.nextItemId
      (.ok (),
        { db.setTx s { t with items := t.items ++ [⟨rowId, id, key, value, deleted, t.startedAt⟩] }
          with nextItemId := db.nextItemId + 1 })

end

def ConfigDb.begin (db : ConfigDb) (s : Nat) (clock : Time) : ConfigDb :=
  db.setTx s ⟨clock, none, [], []⟩

def ConfigDb.commit (db : ConfigDb) (s : Nat) : ConfigDb :=
  match db.txs.get s with
  | none => db
  | some t => { db with tables := t.apply db.tables, txs := db.txs.erase s }

def ConfigDb.rollback (db : ConfigDb) (s : Nat) : ConfigDb := { db with txs := db.txs.erase s }

/-! ## reading the committed tables -/

section
variable (tb : ConfigTables)

/-- `ORDER BY app_id, environment, cluster, namespace` -/
def scopeKey (r : ScopeRow) : List String :=
  [r.scope.appId, r.scope.environment, r.scope.cluster, r.scope.namespace_]

/-- the query of `list_scopes`, before its LIMIT -/
def ConfigTables.listedScopes : List ConfigScopeSummary :=
  (tb.scopes.insertionSort fun a b => scopeKey a ≤ scopeKey b).map fun r =>
    ⟨r.scope, r.currentRevision, r.createdAt, r.updatedAt⟩

def ConfigTables.listScopes (limit offset : Int) : Except SqlError (List ConfigScopeSummary) :=
  limitOffset tb.listedScopes limit offset

def ConfigTables.draftItems (id : Int) : List ConfigItem :=
  ((tb.items.filter fun i => i.scopeId == id).insertionSort fun a b => a.key ≤ b.key).map
    fun i => ⟨i.key, i.value, i.deleted, i.updatedAt⟩

/-- `row_to_release` -/
def rowToRelease (scope : ConfigScope) (r : ReleaseRow) : ConfigRelease :=
  ⟨scope, r.revision, r.checksum, r.snapshot, r.message, r.publishedBy, r.publishedAt⟩

/-- `config_releases r JOIN config_scopes s ON s.id = r.scope_id WHERE` the scope is this one -/
def ConfigTables.releasesOf (scope : ConfigScope) : List ConfigRelease :=
  tb.releases.filterMap fun r =>
    (tb.scopes.find? fun x => x.id == r.scopeId && x.scope == scope).map fun x =>
      rowToRelease x.scope r

/-- `ORDER BY r.revision DESC` -/
def newestFirst (l : List ConfigRelease) : List ConfigRelease :=
  l.insertionSort fun a b => b.revision ≤ a.revision

def ConfigTables.latestRelease (scope : ConfigScope) : Option ConfigRelease :=
  (newestFirst (tb.releasesOf scope)).head?

def ConfigTables.releaseAt (scope : ConfigScope) (revision : Int) : Option ConfigRelease :=
  (tb.releasesOf scope).find? (·.revision == revision)

def ConfigTables.listReleases (scope : ConfigScope) (limit offset : Int) :
    Except SqlError (List ConfigRelease) :=
      limitOffset (newestFirst (tb.releasesOf scope)) limit offset

def ConfigTables.latestNewerThan (scope : ConfigScope) (revision : Int) : Option ConfigRelease :=
  (newestFirst ((tb.releasesOf scope).filter fun r => revision < r.revision)).head?

end

/-! ## statements -/

/-- a statement inside the session's transaction -/
def ConfigDb.inside {α : Type} (db : ConfigDb) (s : Nat) (f : ConfigTx → Option (α × ConfigDb)) :
    Option (α × ConfigDb) :=
  match db.txs.get s with
  | none => none
  | some t => f t

/-- one statement of session `s`; `none` means that it has to wait -/
def ConfigStmt.exec (s : Nat) (clock : Time) :
    (st : ConfigStmt) → ConfigDb → Option (st.Res × ConfigDb)
  | .begin, db => some ((), db.begin s clock)
  | .commit, db => some ((), db.commit s)
  | .rollback, db => some ((), db.rollback s)
  | .ensureScope scope, db =>
      if db.txs.others s (ConfigTx.holdsScope scope) then none
      else db.inside s fun t => db.ensureScope s t scope
  | .selectCurrentRevision id, db =>
      if db.txs.others s (ConfigTx.holdsScopeId id) then none
      else db.inside s fun t => db.selectCurrentRevision s t id
  | .selectActiveItems id, db => some (db.selectActiveItems s id, db)
  | .selectSchema id, db => some (db.selectSchema s id, db)
  | .insertRelease id revision snapshot checksum message publishedBy, db =>
      if db.txs.others s (ConfigTx.holdsRelease id revision) then none
      else db.inside s fun t =>
        some (db.insertRelease s t id revision snapshot checksum message publishedBy)
  | .updateCurrentRevision id revision, db =>
      if db.txs.others s (ConfigTx.holdsScopeId id) then none
      else db.inside s fun t =>
        db.updateScope s t id fun r => { r with currentRevision := revision }
  | .updateSchema id schema, db =>
      if db.txs.others s (ConfigTx.holdsScopeId id) then none
      else db.inside s fun t => db.updateSchema s t id schema
  | .upsertItem id key value deleted, db =>
      if db.txs.others s (ConfigTx.holdsItem id key) then none
      else db.inside s fun t => some (db.upsertItem s t id key value deleted)
  | .listScopes limit offset, db => some (db.tables.listScopes limit offset, db)
  | .jsonSchema scope, db => some ((db.tables.scopeOf scope).map (·.jsonSchema), db)
  | .scopeId scope, db => some ((db.tables.scopeOf scope).map (·.id), db)
  | .draftItems id, db => some (db.tables.draftItems id, db)
  | .latestRelease scope, db => some (db.tables.latestRelease scope, db)
  | .releaseAt scope revision, db => some (db.tables.releaseAt scope revision, db)
  | .listReleases scope limit offset, db => some (db.tables.listReleases scope limit offset, db)
  | .latestNewerThan scope revision, db => some (db.tables.latestNewerThan scope revision, db)
  | .currentRevision scope, db =>
      some ((db.tables.scopeOf scope).map (·.currentRevision), db)
  | .utcNow, db => some (clock, db)
  | .sleep _, db => some ((), db)
  | .idle, _ => none

end PgApp
