import PgApp.Core.Validation
import PgApp.Interleave.System
import Mathlib.Data.List.Sort

/-!
# Clients and their credentials (`client_auth.rs`, `migrations/0006_auth.sql`)

The table `pgapp_clients`, the statements on it, and the functions of `ClientStore` check by check.
A function first draws what it needs at random (`Seed`), then hashes, then issues one statement.

`ClientLib` holds what the process links and the repository does not contain: SHA-256, Argon2 and
the conversion of roles to JSON and back.  The service behind the gate (`PgApp.Auth.Gate`) is in the
state as the list of requests it has been called with.
-/

namespace PgApp
open Interleave

/-! ## the table -/

/-- a row of `pgapp_clients` -/
structure ClientRow where
  id : Int
  clientKey : String
  keyHash : String
  secretHash : String
  active : Bool
  roles : Json
  createdAt : Time
  updatedAt : Time

structure CreatedClient where
  id : Int
  clientKey : String
  secret : String
  roles : List String
deriving DecidableEq

structure ClientIdentity where
  id : Int
  clientKey : String
  roles : List String
deriving DecidableEq

structure ClientRecord where
  id : Int
  clientKey : String
  active : Bool
  roles : List String
  createdAt : Time
  updatedAt : Time

/-- what the gate reads of a request: the path, and the headers with the bytes of their values -/
structure Request where
  path : String
  headers : List (String × List UInt8)

/-- the table, its sequence, and the requests the inner service has been called with -/
structure AuthDb where
  clients : List ClientRow
  nextClientId : Int
  served : List (Request × Option ClientIdentity)

def AuthDb.empty : AuthDb := ⟨[], 1, []⟩

/-! ## statements -/

/-- the INSERT of `create_client`, with the unique index on `key_hash`; the id is drawn either
way -/
def AuthDb.insertClient (db : AuthDb) (clientKey keyHash secretHash : String) (roles : Json)
    (now : Time) : Except SqlError Int × AuthDb :=
  if db.clients.any (·.keyHash == keyHash) then
    (.error (.uniqueViolation "idx_pgapp_clients_key_hash"),
      { db with nextClientId := db.nextClientId + 1 })
  else
    (.ok db.nextClientId,
      { db with
        clients := db.clients ++
          [⟨db.nextClientId, clientKey, keyHash, secretHash, true, roles, now, now⟩],
        nextClientId := db.nextClientId + 1 })

/-- `WHERE key_hash = $1 AND active = true` -/
def ClientRow.isActive (row : ClientRow) (keyHash : String) : Bool :=
  row.keyHash == keyHash && row.active

/-- the SELECT of `authenticate` -/
def AuthDb.selectActive (db : AuthDb) (keyHash : String) : Option ClientRow :=
  db.clients.find? (·.isActive keyHash)

/-- `SET secret_hash = $2, updated_at = now()` -/
def ClientRow.withSecret (row : ClientRow) (secretHash : String) (now : Time) : ClientRow :=
  { row with secretHash := secretHash, updatedAt := now }

/-- the UPDATE of `rotate_secret` and the row it returns -/
def AuthDb.updateSecret (db : AuthDb) (keyHash secretHash : String) (now : Time) :
    Option ClientRow × AuthDb :=
  ((db.clients.find? (·.isActive keyHash)).map fun row => row.withSecret secretHash now,
    { db with clients := db.clients.map fun row =>
        if row.isActive keyHash then row.withSecret secretHash now else row })

/-- the UPDATE of `deactivate` -/
def AuthDb.deactivate (db : AuthDb) (keyHash : String) (now : Time) : Nat × AuthDb :=
  ((db.clients.filter (·.isActive keyHash)).length,
    { db with clients := db.clients.map fun row =>
        if row.isActive keyHash then { row with active := false, updatedAt := now } else row })

/-- `ORDER BY created_at DESC, id DESC` -/
def listedBefore (a b : ClientRow) : Prop :=
  b.createdAt < a.createdAt ∨ (a.createdAt = b.createdAt ∧ b.id ≤ a.id)

instance : DecidableRel listedBefore := fun a b => inferInstanceAs (Decidable
  (b.createdAt < a.createdAt ∨ (a.createdAt = b.createdAt ∧ b.id ≤ a.id)))

inductive AuthStmt where
  | insertClient (clientKey keyHash secretHash : String) (roles : Json)
  | selectActive (keyHash : String)
  | updateSecret (keyHash secretHash : String)
  | deactivate (keyHash : String)
  | selectClients
  | callInner (request : Request) (identity : Option ClientIdentity)

abbrev AuthStmt.Res : AuthStmt → Type
  | .insertClient _ _ _ _ => Except SqlError Int
  | .selectActive _ => Option ClientRow
  | .updateSecret _ _ => Option ClientRow
  | .deactivate _ => Nat
  | .selectClients => List ClientRow
  | .callInner _ _ => Unit

/-- one statement, at the clock reading `now`; none of them waits -/
def AuthStmt.exec (_ : Nat) (now : Time) : (st : AuthStmt) → AuthDb → Option (st.Res × AuthDb)
  | .insertClient k kh sh roles, db => some (db.insertClient k kh sh roles now)
  | .selectActive kh, db => some (db.selectActive kh, db)
  | .updateSecret kh sh, db => some (db.updateSecret kh sh now)
  | .deactivate kh, db => some (db.deactivate kh now)
  | .selectClients, db => some (db.clients.insertionSort listedBefore, db)
  | .callInner request identity, db =>
      some ((), { db with served := db.served ++ [(request, identity)] })

/-! ## what the process links -/

/-- `hash_key` is SHA-256 in hex; `hashPassword` takes the password and the salt; `verifyPassword`
takes the stored hash and the password and fails on a text that is no password hash -/
structure ClientLib where
  hashKey : String → String
  hashPassword : String → String → Except String String
  verifyPassword : String → String → Except String Bool
  toValue : List String → Except String Json
  fromValue : Json → Except String (List String)

/-- two UUIDs and a salt -/
structure Seed where
  first : String
  second : String
  salt : String

def generateSecret (seed : Seed) : String := s!"pgapp_{seed.first}_{seed.second}"

def ClientLib.hashSecret (lib : ClientLib) (secret salt : String) : PgAppResult String :=
  (lib.hashPassword secret salt).mapError fun err =>
    .invalidArgument s!"failed to hash client secret: {err}"

def ClientLib.verifySecret (lib : ClientLib) (secretHash secret : String) : PgAppResult Bool :=
  (lib.verifyPassword secretHash secret).mapError fun err =>
    .database s!"invalid stored client secret hash: {err}"

def ClientLib.rolesJson (lib : ClientLib) (roles : List String) : PgAppResult Json :=
  (lib.toValue roles).mapError fun err => .invalidArgument s!"invalid roles: {err}"

def ClientLib.parseRoles (lib : ClientLib) (value : Json) : PgAppResult (List String) :=
  (lib.fromValue value).mapError fun err => .database s!"invalid stored client roles: {err}"

/-! ## checks -/

def validateClientKey (clientKey : String) : PgAppResult Unit :=
  validateConfigComponent "client_key" clientKey

def validateRoles : List String → PgAppResult Unit
  | [] => .ok ()
  | role :: roles =>
    match validateConfigComponent "role" role with
    | .error e => .error e
    | .ok () => validateRoles roles

def mapCreateError : SqlError → PgAppError
  | .uniqueViolation _ => .conflict "client key already exists"
  | err => .ofSqlx err

/-! ## the functions of `ClientStore` -/

abbrev AuthProg := Prog AuthStmt AuthStmt.Res PgAppError

namespace AuthProg

def query (st : AuthStmt) : AuthProg st.Res := Prog.call st

end AuthProg

open AuthProg

section
variable (lib : ClientLib)

def createClient (seed : Seed) (clientKey : String) (roles : List String) :
    AuthProg CreatedClient := do
  Prog.check (validateClientKey clientKey)
  Prog.check (validateRoles roles)
  let secret := generateSecret seed
  let keyHash := lib.hashKey clientKey
  let secretHash ← Prog.check (lib.hashSecret secret seed.salt)
  let rolesJson ← Prog.check (lib.rolesJson roles)
  match ← query (.insertClient clientKey keyHash secretHash rolesJson) with
  | .ok id => pure ⟨id, clientKey, secret, roles⟩
  | .error err => Prog.throw (mapCreateError err)

/-- `authenticate` after its query -/
def ClientLib.identify (lib : ClientLib) (secret : String) :
    Option ClientRow → PgAppResult (Option ClientIdentity)
  | none => .ok none
  | some row =>
    match lib.verifySecret row.secretHash secret with
    | .error e => .error e
    | .ok false => .ok none
    | .ok true =>
      match lib.parseRoles row.roles with
      | .error e => .error e
      | .ok roles => .ok (some ⟨row.id, row.clientKey, roles⟩)

def authenticate (clientKey secret : String) : AuthProg (Option ClientIdentity) :=
  if clientKey.isEmpty || secret.isEmpty then pure none
  else do
    let row ← query (.selectActive (lib.hashKey clientKey))
    Prog.check (lib.identify secret row)

def rotateSecret (seed : Seed) (clientKey : String) : AuthProg (Option CreatedClient) := do
  Prog.check (validateClientKey clientKey)
  let secret := generateSecret seed
  let secretHash ← Prog.check (lib.hashSecret secret seed.salt)
  let keyHash := lib.hashKey clientKey
  match ← query (.updateSecret keyHash secretHash) with
  | none => pure none
  | some row => do
    let roles ← Prog.check (lib.parseRoles row.roles)
    pure (some ⟨row.id, row.clientKey, secret, roles⟩)

def deactivate (clientKey : String) : AuthProg Bool := do
  Prog.check (validateClientKey clientKey)
  let rowsAffected ← query (.deactivate (lib.hashKey clientKey))
  pure (decide (0 < rowsAffected))

/-- `collect::<PgAppResult<Vec<_>>>` over the rows -/
def ClientLib.records (lib : ClientLib) : List ClientRow → PgAppResult (List ClientRecord)
  | [] => .ok []
  | row :: rows =>
    match lib.parseRoles row.roles with
    | .error e => .error e
    | .ok roles =>
      match lib.records rows with
      | .error e => .error e
      | .ok records =>
        .ok (⟨row.id, row.clientKey, row.active, roles, row.createdAt, row.updatedAt⟩ :: records)

def listClients : AuthProg (List ClientRecord) := do
  let rows ← query .selectClients
  Prog.check (lib.records rows)

end

end PgApp
