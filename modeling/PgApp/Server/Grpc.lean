import PgApp.Server.CacheGrpc
import PgApp.Admin.Store

/-!
# The lists of the MQ and Config services (`pgapp-server/src/lib.rs`, `MqGrpc` and `ConfigGrpc`)

An RPC is a program of the store with a `Status` for its error (`asStatus`, the `?` of a handler).
Its limit is an int32 with 0 for "none" (`nonzeroLimit`), and its response an int64 `next_offset`
with 0 for "no next page" (`unwrap_or_default`).  `RpcPage` is what the three responses have in
common; how a field is written as protobuf text is left out.
-/

namespace PgApp
open Interleave

abbrev RpcProg := Prog ServerStmt ServerStmt.Res Status

/-- `.await?` on a function of a store -/
def asStatus {α : Type} (p : ServerProg α) : RpcProg α := p.mapResult (·.mapError Status.ofError)

structure MqGrpc where
  store : MqStore
  enabled : Bool

structure ConfigGrpc where
  store : ConfigStore
  enabled : Bool

structure RpcPage (α : Type) where
  items : List α
  nextOffset : Int

def MqGrpc.ensureEnabled (grpc : MqGrpc) : Except Status Unit :=
  if grpc.enabled then .ok () else .error ⟨.unavailable, "mq service is disabled"⟩

def ConfigGrpc.ensureEnabled (grpc : ConfigGrpc) : Except Status Unit :=
  if grpc.enabled then .ok () else .error ⟨.unavailable, "config service is disabled"⟩

def requiredScope : Option ConfigScope → Except Status ConfigScope
  | some scope => .ok scope
  | none => .error ⟨.invalidArgument, "scope is required"⟩

def nonzeroLimit (limit : Int) : Option Int := if limit > 0 then some limit else none

def MqGrpc.listDlqMessages (grpc : MqGrpc) (queueName : String) (limit offset : Int) :
    RpcProg (RpcPage DlqMessage) := do
  Prog.check grpc.ensureEnabled
  let page ← asStatus (onMq (grpc.store.listDlqMessages queueName limit offset))
  pure ⟨page.messages, page.nextOffset.getD 0⟩

def ConfigGrpc.listScopes (grpc : ConfigGrpc) (limit offset : Int) :
    RpcProg (RpcPage ConfigScopeSummary) := do
  Prog.check grpc.ensureEnabled
  let page ← asStatus (onConfig (grpc.store.listScopes (nonzeroLimit limit) offset))
  pure ⟨page.items, page.nextOffset.getD 0⟩

def ConfigGrpc.listReleases (grpc : ConfigGrpc) (scope : Option ConfigScope) (limit offset : Int) :
    RpcProg (RpcPage ConfigRelease) := do
  Prog.check grpc.ensureEnabled
  let scope ← Prog.check (requiredScope scope)
  let page ← asStatus (onConfig (grpc.store.listReleases scope (nonzeroLimit limit) offset))
  pure ⟨page.items, page.nextOffset.getD 0⟩

end PgApp
