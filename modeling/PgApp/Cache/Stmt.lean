import PgApp.Cache.Tables
import PgApp.Core.Calendar
import Mathlib.Data.List.Sort

/-!
# The SQL statements of `cache.rs`

`CacheStmt` has one constructor per query of the file, and

    CacheStmt.exec s c st db    what statement `st` of session `s` does, in one step

with `none` for a statement that has to wait for a lock.  The statements that pick rows and then
delete them (`sweep_expired`, the eviction, `invalidate_namespace`) are two steps: under READ
COMMITTED the rows are picked on the statement's snapshot (`doomed`, `victim`, `viewRows`), and the
DELETE, which may have to wait for one of them, finds whatever version of these rows there is then
(`deleteIds`, `bumpGeneration`), and no row that was inserted meanwhile.

A statement of an atomic write that waits runs on the tables it then finds.  PostgreSQL keeps to its
snapshot there too: it does not see a row that another transaction has put in place of the one it
waited for.

`CacheCtx.rank` breaks the ties that `ORDER BY expires_at` leaves open.
-/

namespace PgApp
open Interleave

structure CacheCtx where
  now : Time
  rank : Int → Int

structure NamespaceUsage where
  keyCount : Int
  byteSize : Int

/-- the columns of `cache_stats` -/
inductive Counter where
  | hits
  | misses
  | writes
  | deletes
  | evictions
  | expiredRemovals
deriving DecidableEq

inductive CacheStmt where
  | begin
  | commit
  | rollback
  | ensureNamespace (ns : String)
  | selectGeneration (ns : String)
  | upsertEntry (ns : String) (generation : Int) (keyHash key : String) (value : Bytes)
      (ttlSeconds : Option Int)
  | lockKey (ns : String) (generation : Int) (keyHash : String)
  | deleteExpiredKey (ns : String) (generation : Int) (keyHash key : String)
  | selectKeyForUpdate (ns : String) (generation : Int) (keyHash key : String)
  | insertValue (ns : String) (generation : Int) (keyHash key : String) (value : Bytes)
      (ttlSeconds : Option Int)
  | insertIfAbsent (ns : String) (generation : Int) (keyHash key : String) (value : Bytes)
      (ttlSeconds : Option Int)
  | updateValue (id : Int) (value : Bytes) (ttlSeconds : Option Int) (preserveExpiry : Bool)
  | selectLive (ns : String) (generation : Int) (keyHash key : String)
  | touch (id : Int)
  | deleteKey (ns : String) (generation : Int) (keyHash key : String)
  | viewRows (ns : String)
  | bumpGeneration (ns : String) (ids : List Int)
  | doomed (limit : Int)
  | victim (ns : String) (generation : Int)
  | deleteIds (ids : List Int)
  | incrementCounter (counter : Counter) (amount : Int)
  | usage (ns : String) (generation : Int)
  | byteSize (ns : String) (generation : Int)
  | selectCounters
  | usageRows
  | idle

abbrev CacheStmt.Res : CacheStmt → Type
  | .selectGeneration _ => Option Int
  | .selectKeyForUpdate _ _ _ _ => Option (Int × Bytes)
  | .upsertEntry _ _ _ _ _ _ | .insertValue _ _ _ _ _ _ | .updateValue _ _ _ _ =>
    Except SqlError Unit
  | .insertIfAbsent _ _ _ _ _ _ => Except SqlError Nat
  | .selectLive _ _ _ _ => Option (Int × Bytes)
  | .deleteKey _ _ _ _ => Nat
  | .doomed _ => Except SqlError (List Int)
  | .viewRows _ => List Int
  | .victim _ _ => Option Int
  | .deleteIds _ => Nat
  | .usage _ _ => Int × Int
  | .byteSize _ _ => Int
  | .selectCounters => CacheCounters
  | .usageRows => List (String × NamespaceUsage)
  | _ => Unit

/-! ## namespaces -/

section
variable (db : CacheDb)

/-- `INSERT INTO cache_namespaces … ON CONFLICT (name) DO NOTHING` -/
def CacheDb.ensureNamespace (ns : String) (now : Time) : CacheDb :=
  if db.namespaces.any (·.name == ns) then db
  else { db with namespaces := db.namespaces ++ [⟨ns, 0, now, now⟩] }

def CacheDb.generationOf (ns : String) : Option Int :=
  (db.namespaces.find? (·.name == ns)).map (·.generation)

/-- the rows of a namespace -/
def CacheDb.viewRows (ns : String) : List Int := (db.entries.filter (·.namespace_ == ns)).map (·.id)

/-- the statement of `invalidate_namespace`, which deletes among the rows `ids` -/
def CacheDb.bumpGeneration (ns : String) (ids : List Int) (now : Time) : CacheDb :=
  match db.generationOf ns with
  | none => db
  | some g =>
    { db with
      namespaces := db.namespaces.map fun n =>
        if n.name == ns then { n with generation := n.generation + 1, updatedAt := now } else n
      entries := db.entries.filter fun r =>
        !(r.namespace_ == ns && r.generation < g + 1 && ids.contains r.id) }

/-! ## writing entries -/

/-- `CASE WHEN $6::bigint IS NULL THEN NULL ELSE now() + $6 * interval '1 second' END` -/
def expiryOf (now : Time) (ttlSeconds : Option Int) : Option Time :=
  ttlSeconds.map fun ttl => now + seconds ttl

/-- PostgreSQL has that moment -/
def TtlFits (now : Time) (ttlSeconds : Option Int) : Prop :=
    ∀ ttl ∈ ttlSeconds, postgres.Fits now ttl

instance (now : Time) (ttlSeconds : Option Int) : Decidable (TtlFits now ttlSeconds) :=
  inferInstanceAs (Decidable (∀ ttl ∈ ttlSeconds, _))

/-- the row an INSERT makes -/
def newEntry (id : Int) (ns : String) (generation : Int) (keyHash key : String) (value : Bytes)
    (ttlSeconds : Option Int) (now : Time) : EntryRow :=
  ⟨id, ns, generation, keyHash, key, value, expiryOf now ttlSeconds, value.length, now, 0, now, now⟩

/-- `DO UPDATE` of `set` -/
def EntryRow.overwrite (r : EntryRow) (key : String) (value : Bytes) (ttlSeconds : Option Int)
    (now : Time) : EntryRow :=
  { r with
    cacheKey := key
    valueBytes := value
    expiresAt := expiryOf now ttlSeconds
    sizeBytes := value.length
    updatedAt := now }

/-- the UPDATE of `update_value` -/
def EntryRow.withValue (r : EntryRow) (value : Bytes) (ttlSeconds : Option Int)
    (preserveExpiry : Bool) (now : Time) : EntryRow :=
  { r with
    valueBytes := value
    sizeBytes := value.length
    expiresAt := if ttlSeconds.isNone && preserveExpiry then r.expiresAt
      else expiryOf now ttlSeconds
    updatedAt := now }

/-- the statement of `set` -/
def CacheDb.upsertEntry (ns : String) (generation : Int) (keyHash key : String) (value : Bytes)
    (ttlSeconds : Option Int) (now : Time) : CacheDb :=
  { db with
    entries :=
      if db.entries.any (·.isAt ns generation keyHash) then
        db.entries.map fun r =>
          if r.isAt ns generation keyHash then r.overwrite key value ttlSeconds now else r
      else db.entries ++ [newEntry db.nextEntryId ns generation keyHash key value ttlSeconds now]
    nextEntryId := db.nextEntryId + 1 }

/-- an INSERT that fails leaves a gap in the ids -/
def CacheDb.skipId : CacheDb := { db with nextEntryId := db.nextEntryId + 1 }

def CacheDb.setTx (s : Nat) (t : CacheTx) : CacheDb := { db with txs := db.txs.set s t }

/-- the key of the advisory lock -/
def lockText (ns : String) (generation : Int) (keyHash : String) : String :=
  s!"{ns}:{generation}:{keyHash}"

/-- the row of a key, as the session sees it -/
def CacheDb.findLive (s : Nat) (ns : String) (generation : Int) (keyHash key : String)
    (now : Time) : Option EntryRow :=
  (db.seen s).find? fun r => r.isKey ns generation keyHash key && r.live now

section
variable (s : Nat) (t : CacheTx)

/-- `delete_expired_key` -/
def CacheDb.deleteExpiredKey (ns : String) (generation : Int) (keyHash key : String) : CacheDb :=
  let dead := ((db.seen s).filter fun r =>
    r.isKey ns generation keyHash key && r.expired t.startedAt).map (·.id)
  db.setTx s { t with gone := t.gone ++ dead, rows := t.rows.filter fun r => !dead.contains r.id }

/-- `select_key_for_update` -/
def CacheDb.selectKeyForUpdate (ns : String) (generation : Int) (keyHash key : String) :
    Option (Int × Bytes) × CacheDb :=
  match db.findLive s ns generation keyHash key t.startedAt with
  | none => (none, db)
  | some r => (some (r.id, r.valueBytes), db.setTx s { t with locked := t.locked ++ [r.id] })

/-- the conflict of an INSERT in the session's view -/
def CacheDb.conflict (ns : String) (generation : Int) (keyHash : String) : Bool :=
  (db.seen s).any (·.isAt ns generation keyHash)

/-- the transaction with one more new row -/
def CacheDb.insertRow (ns : String) (generation : Int) (keyHash key : String) (value : Bytes)
    (ttlSeconds : Option Int) : CacheDb :=
  { db with
    txs := db.txs.set s { t with rows := t.rows ++
      [newEntry db.nextEntryId ns generation keyHash key value ttlSeconds t.startedAt] }
    nextEntryId := db.nextEntryId + 1 }

/-- `insert_value` -/
def CacheDb.insertValue (ns : String) (generation : Int) (keyHash key : String) (value : Bytes)
    (ttlSeconds : Option Int) : Except SqlError Unit × CacheDb :=
  if db.conflict s ns generation keyHash then
    (.error (.uniqueViolation "cache_entries_namespace_generation_key_hash_key"), db.skipId)
  else (.ok (), db.insertRow s t ns generation keyHash key value ttlSeconds)

/-- the INSERT of `set_nx` -/
def CacheDb.insertIfAbsent (ns : String) (generation : Int) (keyHash key : String) (value : Bytes)
    (ttlSeconds : Option Int) : Except SqlError Nat × CacheDb :=
  if db.conflict s ns generation keyHash then (.ok 0, db.skipId)
  else (.ok 1, db.insertRow s t ns generation keyHash key value ttlSeconds)

/-- `update_value` -/
def CacheDb.updateValue (id : Int) (value : Bytes) (ttlSeconds : Option Int)
    (preserveExpiry : Bool) : CacheDb :=
  match (db.seen s).find? (·.id == id) with
  | none => db
  | some r =>
    db.setTx s { t with
      rows := putEntry t.rows (r.withValue value ttlSeconds preserveExpiry t.startedAt) }

end

def CacheDb.begin (s : Nat) (clock : Time) : CacheDb := db.setTx s ⟨clock, [], [], [], []⟩

def CacheDb.commit (s : Nat) : CacheDb :=
  match db.txs.get s with
  | none => db
  | some t => { db with entries := t.apply db.entries, txs := db.txs.erase s }

def CacheDb.rollback (s : Nat) : CacheDb := { db with txs := db.txs.erase s }

/-- the UPDATE of `get` -/
def CacheDb.touch (id : Int) (now : Time) : CacheDb :=
  { db with entries := db.entries.map fun r =>
      if r.id == id then { r with lastAccessedAt := now, accessCount := r.accessCount + 1 } else r }

/-- rows deleted by a condition, and how many -/
def CacheDb.deleteWhere (p : EntryRow → Bool) : Nat × CacheDb :=
  (db.entries.countP p, { db with entries := db.entries.filter fun r => !p r })

/-! ## picking rows -/

/-- `ORDER BY expires_at`, ties broken by `rank` -/
def expiresBefore (rank : Int → Int) (a b : EntryRow) : Prop :=
  a.expiresAt.getD 0 < b.expiresAt.getD 0 ∨
    (a.expiresAt.getD 0 = b.expiresAt.getD 0 ∧ rank a.id ≤ rank b.id)

instance (rank : Int → Int) (a b : EntryRow) : Decidable (expiresBefore rank a b) :=
  inferInstanceAs (Decidable (_ ∨ _ ∧ _))

/-- the WITH query of `sweep_expired` -/
def CacheDb.doomed (limit : Int) (c : CacheCtx) : Except SqlError (List Int) :=
  if limit < 0 then .error .negativeLimit
  else .ok ((((db.entries.filter (·.expired c.now)).insertionSort (expiresBefore c.rank)).take
    limit.toNat).map (·.id))

/-- `ORDER BY last_accessed_at ASC, id ASC` -/
def usedBefore (a b : EntryRow) : Prop :=
  a.lastAccessedAt < b.lastAccessedAt ∨ (a.lastAccessedAt = b.lastAccessedAt ∧ a.id ≤ b.id)

instance (a b : EntryRow) : Decidable (usedBefore a b) := inferInstanceAs (Decidable (_ ∨ _ ∧ _))

/-- the rows of a namespace and generation -/
def CacheDb.rowsOf (ns : String) (generation : Int) : List EntryRow :=
  db.entries.filter (·.isIn ns generation)

/-- the WITH query of the eviction -/
def CacheDb.victim (ns : String) (generation : Int) : Option Int :=
  ((db.rowsOf ns generation).insertionSort usedBefore).head?.map (·.id)

def sumSizes (rows : List EntryRow) : Int := (rows.map (·.sizeBytes)).sum

/-! ## figures -/

def CacheCounters.add (k : CacheCounters) (counter : Counter) (amount : Int) : CacheCounters :=
  match counter with
  | .hits => { k with hits := k.hits + amount }
  | .misses => { k with misses := k.misses + amount }
  | .writes => { k with writes := k.writes + amount }
  | .deletes => { k with deletes := k.deletes + amount }
  | .evictions => { k with evictions := k.evictions + amount }
  | .expiredRemovals => { k with expiredRemovals := k.expiredRemovals + amount }

/-- the second query of `stats` -/
def CacheDb.usageRows (now : Time) : List (String × NamespaceUsage) :=
  db.namespaces.filterMap fun n =>
    let rows := (db.rowsOf n.name n.generation).filter (·.live now)
    if rows.isEmpty then none else some (n.name, ⟨rows.length, sumSizes rows⟩)

end

/-! ## statements -/

/-- a statement inside the session's transaction -/
def CacheDb.inside {α : Type} (db : CacheDb) (s : Nat) (f : CacheTx → Option (α × CacheDb)) :
    Option (α × CacheDb) :=
  match db.txs.get s with
  | none => none
  | some t => f t

/-- a statement that computes an expiry fails before it waits for anything, and leaves `failed` -/
def withExpiry {α : Type} (now : Time) (ttlSeconds : Option Int) (failed : CacheDb)
    (x : Option (Except SqlError α × CacheDb)) : Option (Except SqlError α × CacheDb) :=
  if TtlFits now ttlSeconds then x else some (.error (.outOfRange "timestamp"), failed)

/-- one statement of session `s`; `none` means that it has to wait -/
def CacheStmt.exec (s : Nat) (c : CacheCtx) :
    (st : CacheStmt) → CacheDb → Option (st.Res × CacheDb)
  | .begin, db => some ((), db.begin s c.now)
  | .commit, db => some ((), db.commit s)
  | .rollback, db => some ((), db.rollback s)
  | .ensureNamespace ns, db => some ((), db.ensureNamespace ns c.now)
  | .selectGeneration ns, db => some (db.generationOf ns, db)
  | .upsertEntry ns g h key value ttl, db =>
      withExpiry c.now ttl db.skipId <|
        if db.blocked fun t => db.keyHeldBy ns g h t || db.heldBy (·.isAt ns g h) t then none
        else some (.ok (), db.upsertEntry ns g h key value ttl c.now)
  | .lockKey ns g h, db =>
      if db.busy s (·.advisory.contains (lockText ns g h)) then none
      else db.inside s fun t =>
        some ((), db.setTx s { t with advisory := t.advisory ++ [lockText ns g h] })
  | .deleteExpiredKey ns g h key, db =>
      if db.busy s (db.heldBy fun r => r.isKey ns g h key && r.expired (db.now s c.now)) then none
      else db.inside s fun t => some ((), db.deleteExpiredKey s t ns g h key)
  | .selectKeyForUpdate ns g h key, db =>
      if db.busy s (db.heldBy fun r => r.isKey ns g h key && r.live (db.now s c.now)) then none
      else db.inside s fun t => some (db.selectKeyForUpdate s t ns g h key)
  | .insertValue ns g h key value ttl, db =>
      db.inside s fun t => withExpiry t.startedAt ttl db.skipId <|
        if db.busy s (db.keyHeldBy ns g h) then none
        else some (db.insertValue s t ns g h key value ttl)
  | .insertIfAbsent ns g h key value ttl, db =>
      db.inside s fun t => withExpiry t.startedAt ttl db.skipId <|
        if db.busy s (db.keyHeldBy ns g h) then none
        else some (db.insertIfAbsent s t ns g h key value ttl)
  | .updateValue id value ttl preserve, db =>
      db.inside s fun t => withExpiry t.startedAt ttl db <|
        if db.busy s (db.heldBy (·.id == id)) then none
        else some (.ok (), db.updateValue s t id value ttl preserve)
  | .selectLive ns g h key, db =>
      some ((db.entries.find? fun r => r.isKey ns g h key && r.live c.now).map fun r =>
        (r.id, r.valueBytes), db)
  | .touch id, db =>
      if db.blocked (db.heldBy (·.id == id)) then none else some ((), db.touch id c.now)
  | .deleteKey ns g h key, db =>
      if db.blocked (db.heldBy (·.isKey ns g h key)) then none
      else some (db.deleteWhere (·.isKey ns g h key))
  | .viewRows ns, db => some (db.viewRows ns, db)
  | .bumpGeneration ns ids, db =>
      if db.blocked (db.heldBy fun r => r.namespace_ == ns && ids.contains r.id) then none
      else some ((), db.bumpGeneration ns ids c.now)
  | .doomed limit, db => some (db.doomed limit c, db)
  | .victim ns g, db => some (db.victim ns g, db)
  | .deleteIds ids, db =>
      if db.blocked (db.heldBy fun r => ids.contains r.id) then none
      else some (db.deleteWhere fun r => ids.contains r.id)
  | .incrementCounter counter amount, db =>
      some ((), { db with counters := db.counters.add counter amount })
  | .usage ns g, db => some (((db.rowsOf ns g).length, sumSizes (db.rowsOf ns g)), db)
  | .byteSize ns g, db => some (sumSizes (db.rowsOf ns g), db)
  | .selectCounters, db => some (db.counters, db)
  | .usageRows, db => some (db.usageRows c.now, db)
  | .idle, _ => none

end PgApp
