import PgApp.Auth.Store
import PgApp.Interleave.Account

/-!
# The gate in front of the services (`pgapp-server/src/auth.rs`)

`AuthService.call` lets a request through to the inner service or answers it itself.  Its metrics
are left out.  `AuthCall` is a call of one of the store's functions or a request at the gate,
`AuthReach` reachability under every interleaving of calls from an empty table.
-/

namespace PgApp
open Interleave AuthProg

structure AuthCredentials where
  key : String
  secret : String

def isHealthPath (path : String) : Bool :=
  path == "/pgapp.v1.HealthService/GetHealth" || path == "/pgapp.v1.HealthService/GetReadiness"

/-- `HeaderMap::get`: the first value under a name -/
def headerGet (headers : List (String × List UInt8)) (name : String) : Option (List UInt8) :=
  (headers.find? (·.1 == name)).map (·.2)

/-- `HeaderValue::to_str`: visible ASCII and tabs only -/
def headerToStr (value : List UInt8) : Option String :=
  if value.all fun b => (32 ≤ b && b < 127) || b == 9 then
    some (String.ofList (value.map fun b => Char.ofNat b.toNat))
  else none

/-- a header that is present and readable -/
def readableHeader (headers : List (String × List UInt8)) (name : String) : Option String :=
  (headerGet headers name).bind headerToStr

def extractCredentials (headers : List (String × List UInt8)) : Option AuthCredentials :=
  match readableHeader headers "x-pgapp-key" with
  | none => none
  | some key =>
    match readableHeader headers "x-pgapp-secret" with
    | none => none
    | some secret => if key.isEmpty || secret.isEmpty then none else some ⟨key, secret⟩

/-- the answer of the inner service, handed on, or the gate's own -/
inductive GateResponse where
  | forwarded
  | status (status : Status)
deriving DecidableEq

def unauthenticatedResponse (message : String) : GateResponse :=
  .status ⟨.unauthenticated, message⟩

/-- `inner.call(request).await` -/
def forward (request : Request) (identity : Option ClientIdentity) : AuthProg GateResponse := do
  query (.callInner request identity)
  pure .forwarded

def AuthService.call (lib : ClientLib) (enabled : Bool) (request : Request) :
    AuthProg GateResponse :=
  if !enabled || isHealthPath request.path then forward request none
  else
    match extractCredentials request.headers with
    | none => pure (unauthenticatedResponse "missing pgapp credentials")
    | some credentials => do
      match ← (authenticate lib credentials.key credentials.secret).mapResult Except.ok with
      | .ok (some identity) => forward request (some identity)
      | .ok none => pure (unauthenticatedResponse "invalid pgapp credentials")
      | .error err => pure (.status ⟨.internal, s!"authentication failed: {err.text}"⟩)

/-! ## calls -/

inductive AuthOp where
  | createClient (clientKey : String) (roles : List String)
  | authenticate (clientKey secret : String)
  | rotateSecret (clientKey : String)
  | deactivate (clientKey : String)
  | listClients
  | request (enabled : Bool) (request : Request)

inductive AuthReturn where
  | created (client : CreatedClient)
  | identity (identity : Option ClientIdentity)
  | rotated (client : Option CreatedClient)
  | bool (b : Bool)
  | clients (clients : List ClientRecord)
  | response (response : GateResponse)

/-- a call and what it draws at random -/
structure AuthCall where
  seed : Seed
  op : AuthOp

/-- the program of a call -/
def AuthCall.body (lib : ClientLib) (c : AuthCall) : AuthProg AuthReturn :=
  match c.op with
  | .createClient k roles => do return .created (← createClient lib c.seed k roles)
  | .authenticate k secret => do return .identity (← authenticate lib k secret)
  | .rotateSecret k => do return .rotated (← rotateSecret lib c.seed k)
  | .deactivate k => do return .bool (← deactivate lib k)
  | .listClients => do return .clients (← listClients lib)
  | .request enabled request => do return .response (← AuthService.call lib enabled request)

abbrev AuthSys := Sys AuthStmt AuthStmt.Res PgAppError AuthReturn AuthCall Time AuthDb
abbrev AuthEv := Ev AuthStmt AuthStmt.Res AuthCall Time AuthDb

/-- reachable from the empty table -/
abbrev AuthReach (lib : ClientLib) (σ : AuthSys) : Prop :=
  Reach AuthStmt.exec (AuthCall.body lib) AuthDb.empty σ

/-- a call made with nobody in between -/
abbrev AuthCall.runAlone (lib : ClientLib) (call : AuthCall) (s : Nat) (now : Time) (db : AuthDb) :
    Option (PgAppResult AuthReturn × AuthDb) :=
  (call.body lib).run (fun st => st.exec s now) db

end PgApp
