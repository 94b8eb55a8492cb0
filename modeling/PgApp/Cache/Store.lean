import PgApp.Cache.Stmt
import PgApp.Cache.Integer
import PgApp.Core.Validation
import PgApp.Interleave.System

/-!
# `CacheStore` (`cache.rs`)

The operations of the store as programs over `CacheStmt`.  `hash_key` (the hex text of SHA-256) is a
field of `CacheStore`.

`get_set`, `add_integer` and `concat` are one program, `atomicWrite`, with a function from the value
they find to the value they store and the value they hand back (`replaceWith`, `addTo`, `concatTo`).

The eviction loop of `enforce_capacity` has a bound on its rounds: a loop that is not done then
waits for ever (`idle`), so every run of the real loop that ends is a run of some bound.
-/

namespace PgApp
open Interleave

structure CacheLimits where
  maxKeys : Option Int := none
  maxBytes : Option Int := none

structure CacheStore where
  limits : CacheLimits
  hashKey : String → String

structure CacheStats where
  counters : CacheCounters
  logicalKeyCount : Int
  logicalByteSize : Int
  namespaceUsage : List (String × NamespaceUsage)

inductive ConcatPosition where
  | append
  | prepend
deriving DecidableEq

abbrev CacheProg := Prog CacheStmt CacheStmt.Res PgAppError

def validateTtlSeconds (ttlSeconds : Option Int) : PgAppResult Unit :=
  match ttlSeconds with
  | none => .ok ()
  | some ttl =>
    if ttl ≤ 0 then .error (.invalidArgument "ttl_seconds must be positive when provided")
    else .ok ()

namespace CacheProg

def query (st : CacheStmt) : CacheProg st.Res := Prog.call st

/-- the body of a transaction between `begin` and `commit` -/
def inTx {α : Type} (p : CacheProg α) : CacheProg α :=
  .exec .begin fun _ => p.bracket .commit .rollback

end CacheProg

open CacheProg

/-! ## sweeping and evicting -/

def namespaceGeneration (ns : String) : CacheProg Int := do
  match ← query (.selectGeneration ns) with
  | some generation => pure generation
  | none => Prog.throw (.notFound s!"namespace {ns}")

def sweepExpired (limit : Int) : CacheProg Int := do
  let ids ← orFail (← query (.doomed limit))
  let removed ← query (.deleteIds ids)
  if removed > 0 then do
    query (.incrementCounter .expiredRemovals removed)
    pure (removed : Int)
  else pure (removed : Int)

/-- the eviction statement -/
def evictOne (ns : String) (generation : Int) : CacheProg Nat := do
  let id ← query (.victim ns generation)
  query (.deleteIds id.toList)

section
variable (store : CacheStore)

/-- `over_bytes` of a size -/
def CacheStore.overBytes (byteSize : Int) : Bool :=
  match store.limits.maxBytes with
  | some max => byteSize > max
  | none => false

/-- a value of `excess_keys`, an i64.  A count is an i64 that is not negative, so only a negative
maximum lets a difference overflow; a release build wraps it. -/
def CacheStore.asKeys (x : Int) : Int :=
  match store.limits.maxKeys with
  | some max => if max < 0 then wrapI64 x else x
  | none => x

/-- `excess_keys` of a count -/
def CacheStore.excessKeys (keyCount : Int) : Int :=
  match store.limits.maxKeys with
  | some max => store.asKeys (keyCount - max)
  | none => 0

/-- the end of a round: `over_bytes` anew -/
def CacheStore.stillOver (ns : String) (generation : Int) (overBytes : Bool) : CacheProg Bool :=
  if store.limits.maxBytes.isSome then do
    let byteSize ← query (.byteSize ns generation)
    pure (store.overBytes byteSize)
  else pure overBytes

/-- the loop of `enforce_capacity` -/
def CacheStore.evictLoop (ns : String) (generation : Int) : Nat → Int → Bool → CacheProg Unit
  | 0, excessKeys, overBytes =>
    if excessKeys > 0 ∨ overBytes then .exec .idle fun _ => pure () else pure ()
  | rounds + 1, excessKeys, overBytes =>
    if excessKeys > 0 ∨ overBytes then do
      let deleted ← evictOne ns generation
      if deleted = 0 then pure ()
      else do
        query (.incrementCounter .evictions deleted)
        let overBytes ← store.stillOver ns generation overBytes
        CacheStore.evictLoop ns generation rounds (store.asKeys (excessKeys - deleted)) overBytes
    else pure ()

def CacheStore.enforceCapacity (rounds : Nat) (ns : String) : CacheProg Unit := do
  let removed ← sweepExpired 1000
  if removed > 0 then pure ()
  else
    match ← query (.selectGeneration ns) with
    | none => pure ()
    | some generation => do
      let usage ← query (.usage ns generation)
      store.evictLoop ns generation rounds (store.excessKeys usage.1) (store.overBytes usage.2)

/-! ## writing -/

/-- the checks of every write -/
def validateWrite (ns key : String) (ttlSeconds : Option Int) : PgAppResult Unit := do
  validateNamespace ns
  validateCacheKey key
  validateTtlSeconds ttlSeconds

/-- the end of every write -/
def CacheStore.written (rounds : Nat) (ns : String) : CacheProg Unit := do
  query (.incrementCounter .writes 1)
  store.enforceCapacity rounds ns

/-- sqlx sends the key as a TEXT parameter, and PostgreSQL refuses one with U+0000 -/
def bindKey (key : String) : PgAppResult Unit :=
  if storable key then .ok () else .error (PgAppError.ofSqlx .invalidText)

def CacheStore.set (rounds : Nat) (ns key : String) (value : Bytes) (ttlSeconds : Option Int) :
    CacheProg Unit := do
  Prog.check (validateWrite ns key ttlSeconds)
  query (.ensureNamespace ns)
  let generation ← namespaceGeneration ns
  Prog.check (bindKey key)
  orFail (← query (.upsertEntry ns generation (store.hashKey key) key value ttlSeconds))
  store.written rounds ns

/-- the transaction of `set_nx` -/
def insertAbsent (ns : String) (generation : Int) (keyHash key : String) (value : Bytes)
    (ttlSeconds : Option Int) : CacheProg Bool := do
  Prog.check (bindKey key)
  query (.deleteExpiredKey ns generation keyHash key)
  let affected ← orFail (← query (.insertIfAbsent ns generation keyHash key value ttlSeconds))
  pure (decide (affected > 0))

def CacheStore.setNx (rounds : Nat) (ns key : String) (value : Bytes) (ttlSeconds : Option Int) :
    CacheProg Bool := do
  Prog.check (validateWrite ns key ttlSeconds)
  query (.ensureNamespace ns)
  let generation ← namespaceGeneration ns
  let created ← inTx (insertAbsent ns generation (store.hashKey key) key value ttlSeconds)
  if created then do
    store.written rounds ns
    pure created
  else pure created

/-- the branch of an atomic write that has found a row -/
def updateFound {α : Type} (id : Int) (ttlSeconds : Option Int) (preserveExpiry : Bool)
    (change : PgAppResult (Bytes × α)) : CacheProg α := do
  let (value, out) ← Prog.check change
  orFail (← query (.updateValue id value ttlSeconds preserveExpiry))
  pure out

/-- the branch that has found none -/
def insertNew {α : Type} (ns : String) (generation : Int) (keyHash key : String)
    (ttlSeconds : Option Int) (change : PgAppResult (Bytes × α)) : CacheProg α := do
  let (value, out) ← Prog.check change
  orFail (← query (.insertValue ns generation keyHash key value ttlSeconds))
  pure out

/-- the transaction of an atomic write: `f` makes the new value, and what is handed back, of the
value found -/
def changeValue {α : Type} (ns : String) (generation : Int) (keyHash key : String)
    (ttlSeconds : Option Int) (preserveExpiry : Bool)
    (f : Option Bytes → PgAppResult (Bytes × α)) : CacheProg α := do
  query (.lockKey ns generation keyHash)
  Prog.check (bindKey key)
  query (.deleteExpiredKey ns generation keyHash key)
  match ← query (.selectKeyForUpdate ns generation keyHash key) with
  | some (id, old) => updateFound id ttlSeconds preserveExpiry (f (some old))
  | none => insertNew ns generation keyHash key ttlSeconds (f none)

def CacheStore.atomicWrite {α : Type} (rounds : Nat) (ns key : String) (ttlSeconds : Option Int)
    (preserveExpiry : Bool) (f : Option Bytes → PgAppResult (Bytes × α)) : CacheProg α := do
  Prog.check (validateWrite ns key ttlSeconds)
  query (.ensureNamespace ns)
  let generation ← namespaceGeneration ns
  let out ← inTx (changeValue ns generation (store.hashKey key) key ttlSeconds preserveExpiry f)
  store.written rounds ns
  pure out

/-- `get_set` stores the new value and hands back the old one -/
def replaceWith (value : Bytes) (old : Option Bytes) : PgAppResult (Bytes × Option Bytes) :=
  .ok (value, old)

/-- `add_integer` -/
def addTo (delta : Int) : Option Bytes → PgAppResult (Bytes × Int)
  | none => .ok (decimal delta, delta)
  | some old =>
    match parseI64Value old with
    | .error e => .error e
    | .ok current =>
      match checkedAdd current delta with
      | some new => .ok (decimal new, new)
      | none => .error (.invalidArgument "numeric cache value overflowed i64")

/-- `concat` -/
def concatTo (value : Bytes) (position : ConcatPosition) : Option Bytes → PgAppResult (Bytes × Int)
  | none => .ok (value, value.length)
  | some old =>
    let new := match position with
      | .append => old ++ value
      | .prepend => value ++ old
    .ok (new, new.length)

def CacheStore.getSet (rounds : Nat) (ns key : String) (value : Bytes) (ttlSeconds : Option Int) :
    CacheProg (Option Bytes) :=
  store.atomicWrite rounds ns key ttlSeconds false (replaceWith value)

def CacheStore.addInteger (rounds : Nat) (ns key : String) (delta : Int)
    (ttlSeconds : Option Int) : CacheProg Int :=
  store.atomicWrite rounds ns key ttlSeconds true (addTo delta)

def CacheStore.concat (rounds : Nat) (ns key : String) (value : Bytes) (ttlSeconds : Option Int)
    (position : ConcatPosition) : CacheProg Int :=
  store.atomicWrite rounds ns key ttlSeconds false (concatTo value position)

def CacheStore.increment (rounds : Nat) (ns key : String) (delta : Int) (ttlSeconds : Option Int) :
    CacheProg Int :=
  store.addInteger rounds ns key delta ttlSeconds

/-- the negation of `decrement` -/
def negated (delta : Int) : PgAppResult Int :=
  match checkedNeg delta with
  | some d => .ok d
  | none => .error (.invalidArgument "delta is too large to decrement")

def CacheStore.decrement (rounds : Nat) (ns key : String) (delta : Int) (ttlSeconds : Option Int) :
    CacheProg Int := do
  let d ← Prog.check (negated delta)
  store.addInteger rounds ns key d ttlSeconds

def CacheStore.append (rounds : Nat) (ns key : String) (value : Bytes) (ttlSeconds : Option Int) :
    CacheProg Int :=
  store.concat rounds ns key value ttlSeconds .append

def CacheStore.prepend (rounds : Nat) (ns key : String) (value : Bytes) (ttlSeconds : Option Int) :
    CacheProg Int :=
  store.concat rounds ns key value ttlSeconds .prepend

/-! ## reading and deleting -/

/-- the checks of a read or a delete -/
def validateRead (ns key : String) : PgAppResult Unit := do
  validateNamespace ns
  validateCacheKey key

def CacheStore.get (ns key : String) : CacheProg (Option Bytes) := do
  Prog.check (validateRead ns key)
  match ← query (.selectGeneration ns) with
  | none => do
    query (.incrementCounter .misses 1)
    pure none
  | some generation => do
    Prog.check (bindKey key)
    match ← query (.selectLive ns generation (store.hashKey key) key) with
    | some (id, value) => do
      query (.touch id)
      query (.incrementCounter .hits 1)
      pure (some value)
    | none => do
      query (.incrementCounter .misses 1)
      pure none

/-- the loop of `mget` -/
def CacheStore.mgetLoop (ns : String) :
    List String → List (String × Option Bytes) → CacheProg (List (String × Option Bytes))
  | [], results => pure results
  | key :: rest, results => do
    let value ← store.get ns key
    CacheStore.mgetLoop ns rest (results ++ [(key, value)])

def CacheStore.mget (ns : String) (keys : List String) : CacheProg (List (String × Option Bytes)) :=
  store.mgetLoop ns keys []

def CacheStore.exists_ (ns key : String) : CacheProg Bool := do
  let value ← store.get ns key
  pure value.isSome

def CacheStore.delete (ns key : String) : CacheProg Bool := do
  Prog.check (validateRead ns key)
  match ← query (.selectGeneration ns) with
  | none => pure false
  | some generation => do
    Prog.check (bindKey key)
    let deleted ← query (.deleteKey ns generation (store.hashKey key) key)
    if deleted > 0 then do
      query (.incrementCounter .deletes deleted)
      pure true
    else pure false

end

def invalidateNamespace (ns : String) : CacheProg Unit := do
  Prog.check (validateNamespace ns)
  query (.ensureNamespace ns)
  let ids ← query (.viewRows ns)
  query (.bumpGeneration ns ids)

def stats : CacheProg CacheStats := do
  let counters ← query .selectCounters
  let usage ← query .usageRows
  pure ⟨counters, (usage.map (·.2.keyCount)).sum, (usage.map (·.2.byteSize)).sum, usage⟩

/-! ## calls -/

inductive CacheOp where
  | set (ns key : String) (value : Bytes) (ttlSeconds : Option Int)
  | increment (ns key : String) (delta : Int) (ttlSeconds : Option Int)
  | decrement (ns key : String) (delta : Int) (ttlSeconds : Option Int)
  | setNx (ns key : String) (value : Bytes) (ttlSeconds : Option Int)
  | getSet (ns key : String) (value : Bytes) (ttlSeconds : Option Int)
  | append (ns key : String) (value : Bytes) (ttlSeconds : Option Int)
  | prepend (ns key : String) (value : Bytes) (ttlSeconds : Option Int)
  | get (ns key : String)
  | mget (ns : String) (keys : List String)
  | exists_ (ns key : String)
  | delete (ns key : String)
  | invalidateNamespace (ns : String)
  | sweepExpired (limit : Int)
  | stats

inductive CacheReturn where
  | unit
  | bool (b : Bool)
  | int (n : Int)
  | value (value : Option Bytes)
  | values (values : List (String × Option Bytes))
  | stats (stats : CacheStats)

/-- a call, the store that serves it, and the bound on its eviction rounds -/
structure CacheCall where
  store : CacheStore
  rounds : Nat
  op : CacheOp

def CacheCall.body (c : CacheCall) : CacheProg CacheReturn :=
  match c.op with
  | .set ns key v ttl => do c.store.set c.rounds ns key v ttl; return .unit
  | .increment ns key d ttl => do return .int (← c.store.increment c.rounds ns key d ttl)
  | .decrement ns key d ttl => do return .int (← c.store.decrement c.rounds ns key d ttl)
  | .setNx ns key v ttl => do return .bool (← c.store.setNx c.rounds ns key v ttl)
  | .getSet ns key v ttl => do return .value (← c.store.getSet c.rounds ns key v ttl)
  | .append ns key v ttl => do return .int (← c.store.append c.rounds ns key v ttl)
  | .prepend ns key v ttl => do return .int (← c.store.prepend c.rounds ns key v ttl)
  | .get ns key => do return .value (← c.store.get ns key)
  | .mget ns keys => do return .values (← c.store.mget ns keys)
  | .exists_ ns key => do return .bool (← c.store.exists_ ns key)
  | .delete ns key => do return .bool (← c.store.delete ns key)
  | .invalidateNamespace ns => do PgApp.invalidateNamespace ns; return .unit
  | .sweepExpired limit => do return .int (← PgApp.sweepExpired limit)
  | .stats => do return .stats (← PgApp.stats)

abbrev CacheSys := Sys CacheStmt CacheStmt.Res PgAppError CacheReturn CacheCall CacheCtx CacheDb
abbrev CacheEv := Ev CacheStmt CacheStmt.Res CacheCall CacheCtx CacheDb

abbrev CacheStep : CacheSys → CacheSys → Prop := Step CacheStmt.exec CacheCall.body

/-- reachable from the empty schema -/
abbrev CacheReach (σ : CacheSys) : Prop := Reach CacheStmt.exec CacheCall.body CacheDb.empty σ

end PgApp
