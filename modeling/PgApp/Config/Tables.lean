import PgApp.Core.Base
import PgApp.Interleave.Slots

/-!
# The Config Center tables (`migrations/0004_config.sql`, `migrations/0007_config_schema.sql`)

* `ScopeRow`, `ItemRow`, `ReleaseRow`   one record per table row;
* `ConfigTables`                        the three committed tables;
* `ConfigTx`                            what an open transaction has written: its version of the
                                        scope row, its versions of item rows, its new release rows;
* `ConfigDb`                            committed tables, BIGSERIAL sequences, open transactions.

A transaction of `config_center.rs` works on one scope, so it holds at most one scope row.  Nobody
else sees its versions before the commit, which puts each in the place of the committed row with
the same unique key (`ConfigTx.apply`).  A row version that is written and not yet committed is a
row lock: whoever wants to write the same row waits.
-/

namespace PgApp

structure ConfigScope where
  appId : String
  environment : String
  cluster : String
  namespace_ : String
deriving DecidableEq

/-- a row of `config_scopes` -/
structure ScopeRow where
  id : Int
  scope : ConfigScope
  currentRevision : Int
  createdAt : Time
  updatedAt : Time
  jsonSchema : Option Json

/-- a row of `config_items` -/
structure ItemRow where
  id : Int
  scopeId : Int
  key : String
  value : Json
  deleted : Bool
  updatedAt : Time

/-- a row of `config_releases` -/
structure ReleaseRow where
  id : Int
  scopeId : Int
  revision : Int
  snapshot : Json
  checksum : String
  message : String
  publishedBy : String
  publishedAt : Time

structure ConfigTables where
  scopes : List ScopeRow
  items : List ItemRow
  releases : List ReleaseRow

structure ConfigTx where
  startedAt : Time
  scope : Option ScopeRow
  items : List ItemRow
  releases : List ReleaseRow

structure ConfigDb where
  tables : ConfigTables
  nextScopeId : Int
  nextItemId : Int
  nextReleaseId : Int
  txs : Interleave.Slots ConfigTx

/-- the schema just created -/
def ConfigDb.empty : ConfigDb := ⟨⟨[], [], []⟩, 1, 1, 1, []⟩

/-- the unique key of `config_items` -/
def ItemRow.isAt (i : ItemRow) (scopeId : Int) (key : String) : Bool :=
  i.scopeId == scopeId && i.key == key

/-- a new version of the scope row with this unique key, or a new row -/
def putScope (r : ScopeRow) (rows : List ScopeRow) : List ScopeRow :=
  if rows.any (·.scope == r.scope) then rows.map fun x => if x.scope == r.scope then r else x
  else rows ++ [r]

/-- a new version of the item row with this unique key, or a new row -/
def putItem (rows : List ItemRow) (i : ItemRow) : List ItemRow :=
  if rows.any (·.isAt i.scopeId i.key) then
    rows.map fun x => if x.isAt i.scopeId i.key then i else x
  else rows ++ [i]

/-- what a commit makes of the committed tables -/
def ConfigTx.apply (t : ConfigTx) (tb : ConfigTables) : ConfigTables :=
  ⟨match t.scope with | none => tb.scopes | some r => putScope r tb.scopes,
    t.items.foldl putItem tb.items, tb.releases ++ t.releases⟩

def ConfigTables.scopeOf (tb : ConfigTables) (scope : ConfigScope) : Option ScopeRow :=
  tb.scopes.find? (·.scope == scope)

/-! ## what a session sees: its own versions before the committed ones -/

def ConfigDb.tx (db : ConfigDb) (s : Nat) : ConfigTx :=
  (db.txs.get s).getD ⟨0, none, [], []⟩

def ConfigDb.seenScope (db : ConfigDb) (s : Nat) (scope : ConfigScope) : Option ScopeRow :=
  match (db.tx s).scope with
  | some r => if r.scope = scope then some r else db.tables.scopeOf scope
  | none => db.tables.scopeOf scope

def ConfigDb.seenScopeId (db : ConfigDb) (s : Nat) (id : Int) : Option ScopeRow :=
  match (db.tx s).scope with
  | some r => if r.id = id then some r else db.tables.scopes.find? (·.id == id)
  | none => db.tables.scopes.find? (·.id == id)

def ConfigDb.seenItems (db : ConfigDb) (s : Nat) : List ItemRow :=
  (db.tx s).items.foldl putItem db.tables.items

def ConfigDb.seenReleases (db : ConfigDb) (s : Nat) : List ReleaseRow :=
  db.tables.releases ++ (db.tx s).releases

/-! ## row locks -/

def ConfigTx.holdsScope (scope : ConfigScope) (t : ConfigTx) : Bool :=
    t.scope.any (·.scope == scope)
def ConfigTx.holdsScopeId (id : Int) (t : ConfigTx) : Bool := t.scope.any (·.id == id)
def ConfigTx.holdsItem (scopeId : Int) (key : String) (t : ConfigTx) : Bool :=
  t.items.any (·.isAt scopeId key)
def ConfigTx.holdsRelease (scopeId revision : Int) (t : ConfigTx) : Bool :=
  t.releases.any fun r => r.scopeId == scopeId && r.revision == revision

end PgApp
