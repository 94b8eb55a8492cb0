import PgApp.Core.Base
import PgApp.Interleave.Slots

/-!
# The Cache tables (`migrations/0001_cache.sql`)

* `NamespaceRow`, `EntryRow`, `CacheCounters`   the rows of the three tables (the column `metadata`
                                                is left out: no statement touches it);
* `CacheTx`   what an open transaction holds: advisory locks, rows it has deleted, rows it has
              locked with FOR UPDATE, and its versions of rows (new ones among them);
* `CacheDb`   the committed tables, the BIGSERIAL sequence and the open transactions.

Nobody else sees the versions of an open transaction; a row it has deleted, locked or written
cannot be written by others before it ends.
-/

namespace PgApp
open Interleave

/-- a BYTEA value -/
abbrev Bytes := List UInt8

/-- a row of `cache_namespaces` -/
structure NamespaceRow where
  name : String
  generation : Int
  createdAt : Time
  updatedAt : Time

/-- a row of `cache_entries` -/
structure EntryRow where
  id : Int
  namespace_ : String
  generation : Int
  keyHash : String
  cacheKey : String
  valueBytes : Bytes
  expiresAt : Option Time
  sizeBytes : Int
  lastAccessedAt : Time
  accessCount : Int
  createdAt : Time
  updatedAt : Time

/-- the one row of `cache_stats` -/
structure CacheCounters where
  hits : Int := 0
  misses : Int := 0
  writes : Int := 0
  deletes : Int := 0
  evictions : Int := 0
  expiredRemovals : Int := 0

structure CacheTx where
  startedAt : Time
  advisory : List String
  gone : List Int
  locked : List Int
  rows : List EntryRow

structure CacheDb where
  namespaces : List NamespaceRow
  entries : List EntryRow
  counters : CacheCounters
  nextEntryId : Int
  txs : Slots CacheTx

/-- the schema just created -/
def CacheDb.empty : CacheDb := ⟨[], [], {}, 1, []⟩

/-! ## rows -/

section
variable (r : EntryRow)

/-- `namespace = $1 AND generation = $2` -/
def EntryRow.isIn (ns : String) (generation : Int) : Bool :=
  r.namespace_ == ns && r.generation == generation

/-- the unique key of `cache_entries` -/
def EntryRow.isAt (ns : String) (generation : Int) (keyHash : String) : Bool :=
  r.isIn ns generation && r.keyHash == keyHash

/-- `… AND key_hash = $3 AND cache_key = $4` -/
def EntryRow.isKey (ns : String) (generation : Int) (keyHash key : String) : Bool :=
  r.isAt ns generation keyHash && r.cacheKey == key

/-- `expires_at IS NOT NULL AND expires_at <= now()` -/
def EntryRow.expired (now : Time) : Bool :=
  match r.expiresAt with
  | none => false
  | some t => t ≤ now

/-- `expires_at IS NULL OR expires_at > now()` -/
def EntryRow.live (now : Time) : Bool := !r.expired now

end

/-- a new version of the row with this id, or a new row -/
def putEntry (rows : List EntryRow) (r : EntryRow) : List EntryRow :=
  if rows.any (·.id == r.id) then rows.map fun x => if x.id == r.id then r else x
  else rows ++ [r]

/-- what a transaction makes of the committed rows -/
def CacheTx.apply (t : CacheTx) (entries : List EntryRow) : List EntryRow :=
  t.rows.foldl putEntry (entries.filter fun r => !t.gone.contains r.id)

/-- the rows of `cache_entries` as session `s` sees them -/
def CacheDb.seen (db : CacheDb) (s : Nat) : List EntryRow :=
  match db.txs.get s with
  | none => db.entries
  | some t => t.apply db.entries

/-- `now()`: the start of the transaction -/
def CacheDb.now (db : CacheDb) (s : Nat) (clock : Time) : Time :=
  match db.txs.get s with
  | none => clock
  | some t => t.startedAt

/-! ## row locks -/

def CacheTx.holdsRow (t : CacheTx) (id : Int) : Bool :=
  t.gone.contains id || t.locked.contains id || t.rows.any (·.id == id)

/-- the transaction holds a committed row with `p` -/
def CacheDb.heldBy (db : CacheDb) (p : EntryRow → Bool) (t : CacheTx) : Bool :=
  db.entries.any fun r => p r && t.holdsRow r.id

/-- the transaction has a version of a row with this unique key, or has deleted the row: an INSERT
does not know yet whether it conflicts -/
def CacheDb.keyHeldBy (db : CacheDb) (ns : String) (generation : Int) (keyHash : String)
    (t : CacheTx) : Bool :=
  t.rows.any (·.isAt ns generation keyHash) ||
    db.entries.any fun r => r.isAt ns generation keyHash && t.gone.contains r.id

/-- a transaction of another session is in the way -/
def CacheDb.busy (db : CacheDb) (s : Nat) (held : CacheTx → Bool) : Bool := db.txs.others s held

/-- any transaction is in the way: a statement of no transaction has a connection of its own -/
def CacheDb.blocked (db : CacheDb) (held : CacheTx → Bool) : Bool := db.txs.any fun q => held q.2

end PgApp
