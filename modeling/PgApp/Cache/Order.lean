import PgApp.Cache.Locks
import PgApp.Interleave.Account

/-!
# The order of a session's own statements

A session watches itself: its open transaction, the committed rows that transaction holds, and the
statements it has executed (`OwnView`).  Nobody else changes these (`exec_txs_ne`, `exec_held`), so
the programs of the store can be checked alone:

* `Follows call st γ`        what a session that issues `st` for `call` has done before: the
generation
                             it uses is the one it has read, a transaction that commits has locked,
                             cleared and written one key, a DELETE by ids follows the query that
                             picked
                             them;
* `Answered call r new`      what the statements `new` of a call were that has ended in `r`.

`cache_follows` and `cache_answers` carry both to every run.
-/

namespace PgApp
open Interleave CacheProg

/-! ## views -/

section
variable {Op : Type}

abbrev CacheEvOf (Op : Type) := Ev CacheStmt CacheStmt.Res Op CacheCtx CacheDb
abbrev CacheSysOf (Op : Type) := Sys CacheStmt CacheStmt.Res PgAppError CacheReturn Op
    CacheCtx CacheDb

/-- a statement and its answer -/
abbrev Said := (st : CacheStmt) × st.Res

def said (l : List (CacheEvOf Op)) : List Said := l.map fun e => ⟨e.stmt, e.res⟩

structure OwnView (Op : Type) where
  tx : Option CacheTx
  held : EntryRow → Prop
  own : List (CacheEvOf Op)

/-- the committed rows that the session's transaction holds -/
def CacheDb.holding (db : CacheDb) (s : Nat) (x : EntryRow) : Prop :=
  x ∈ db.entries ∧ ∃ t, db.txs.get s = some t ∧ t.holdsRow x.id = true

def ownView (s : Nat) (db : CacheDb) (h : List (CacheEvOf Op)) : OwnView Op :=
  ⟨db.txs.get s, db.holding s, ownEvents s h⟩

/-- what every statement keeps -/
structure CacheGood (db : CacheDb) (h : List (CacheEvOf Op)) : Prop where
  ok : db.Ok
  exclusive : db.Exclusive
  known : ∀ e ∈ h, ∀ ns, e.stmt = .ensureNamespace ns → ∃ g, db.generationOf ns = some g

/-- a statement of the session, in some store that it cannot tell from this one -/
def OwnStep (op : Op) (st : CacheStmt) (r : st.Res) (γ γ' : OwnView Op) : Prop :=
  ∃ s c db db', db.Ok ∧
    (∀ ns, ⟨.ensureNamespace ns, ()⟩ ∈ said γ.own → ∃ g, db.generationOf ns = some g) ∧
    db.txs.get s = γ.tx ∧ db.holding s = γ.held ∧ CacheStmt.exec s c st db = some (r, db') ∧
    γ' = ⟨db'.txs.get s, db'.holding s, ⟨s, op, c, st, r, db⟩ :: γ.own⟩

theorem said_cons (e : CacheEvOf Op) (l : List (CacheEvOf Op)) :
    said (e :: l) = ⟨e.stmt, e.res⟩ :: said l := rfl

theorem said_append (a b : List (CacheEvOf Op)) : said (a ++ b) = said a ++ said b :=
  List.map_append

theorem mem_said {l : List (CacheEvOf Op)} {st : CacheStmt} {r : st.Res} (h : ⟨st, r⟩ ∈ said l) :
    ∃ e ∈ l, e.stmt = st := by
  obtain ⟨e, he, heq⟩ := List.mem_map.mp h
  exact ⟨e, he, congrArg Sigma.fst heq⟩

theorem exec_ensured {s : Nat} {c : CacheCtx} {st : CacheStmt} {db db' : CacheDb} {r : st.Res}
    (hx : CacheStmt.exec s c st db = some (r, db')) {ns : String} (he : st = .ensureNamespace ns) :
    ∃ g, db'.generationOf ns = some g := by
  subst he
  cases hx
  exact ⟨_, by rw [generationOf_ensure, if_pos rfl]⟩

theorem CacheGood.first : CacheGood CacheDb.empty ([] : List (CacheEvOf Op)) where
  ok := CacheDb.Ok.empty
  exclusive := CacheDb.Exclusive.empty
  known := fun e he => (by cases he)

theorem CacheGood.step {s : Nat} {op : Op} {c : CacheCtx} {st : CacheStmt} {db db' : CacheDb}
    {r : st.Res} {h : List (CacheEvOf Op)} (hg : CacheGood db h)
    (hx : CacheStmt.exec s c st db = some (r, db')) :
    CacheGood db' (⟨s, op, c, st, r, db⟩ :: h) where
  ok := CacheStmt.exec_ok hg.ok hx
  exclusive := exec_exclusive hg.ok hg.exclusive hx
  known := by
    intro e he ns hs
    rcases List.mem_cons.mp he with rfl | he
    · exact exec_ensured hx hs
    · obtain ⟨g, hgen⟩ := hg.known e he ns hs
      rcases exec_generation hx hgen with h1 | ⟨-, h1⟩
      · exact ⟨_, h1⟩
      · exact ⟨_, h1⟩

theorem ownView_other {s t : Nat} {op : Op} {c : CacheCtx} {st : CacheStmt} {db db' : CacheDb}
    {r : st.Res} {h : List (CacheEvOf Op)} (hg : CacheGood db h) (ht : t ≠ s)
    (hx : CacheStmt.exec s c st db = some (r, db')) :
    ownView t db' (⟨s, op, c, st, r, db⟩ :: h) = ownView t db h := by
  have htx := exec_txs_ne hx ht
  have hheld : db'.holding t = db.holding t := by
    funext x
    apply propext
    unfold CacheDb.holding
    rw [htx]
    constructor
    · intro hex
      obtain ⟨hm, u, hu, hh⟩ := hex
      exact ⟨(exec_held hg.ok hg.exclusive hx ht hu hh).mp hm, u, hu, hh⟩
    · intro hex
      obtain ⟨hm, u, hu, hh⟩ := hex
      exact ⟨(exec_held hg.ok hg.exclusive hx ht hu hh).mpr hm, u, hu, hh⟩
  show OwnView.mk _ _ _ = OwnView.mk _ _ _
  rw [htx, hheld, ownEvents_cons_ne (Ne.symm ht)]

theorem own_rules (P : Op → CacheStmt → OwnView Op → Prop) :
    Rules CacheStmt.exec CacheDb.empty CacheGood ownView P OwnStep
      (fun γ : OwnView Op => γ.tx = none) where
  first := CacheGood.first
  keep := fun db h s op c st r db' hg _ hx => hg.step hx
  own := by
    intro db h s op c st r db' hg _ hx
    refine ⟨s, c, db, db', hg.ok, fun ns hm => ?_, rfl, rfl, hx, ?_⟩
    · obtain ⟨e, he, hs⟩ := mem_said hm
      exact hg.known e (List.mem_of_mem_filter he) ns hs
    · show OwnView.mk _ _ _ = _
      rw [ownEvents_cons_self (e := ⟨s, op, c, st, r, db⟩) rfl]
      rfl
  other := fun db h s op c st r db' t ht hg _ hx => ownView_other hg ht hx
  init := fun s => rfl

end

/-! ## the stages of a write -/

section
variable {Op : Type}

/-- the first statements of a write, the newest first -/
def afterRead (ns : String) (g : Int) : List Said :=
  [⟨.selectGeneration ns, some g⟩, ⟨.ensureNamespace ns, ()⟩]

def afterBegin (ns : String) (g : Int) : List Said := ⟨.begin, ()⟩ :: afterRead ns g

def afterLock (ns : String) (g : Int) (keyHash : String) : List Said :=
  ⟨.lockKey ns g keyHash, ()⟩ :: afterBegin ns g

def afterClear (ns : String) (g : Int) (keyHash key : String) (before : List Said) : List Said :=
  ⟨.deleteExpiredKey ns g keyHash key, ()⟩ :: before

def afterSeek (ns : String) (g : Int) (keyHash key : String) (found : Option (Int × Bytes)) :
    List Said :=
  ⟨.selectKeyForUpdate ns g keyHash key, found⟩ ::
    afterClear ns g keyHash key (afterLock ns g keyHash)

/-- the statements of `set_nx`, the commit of its transaction included -/
def afterInsert (ns : String) (g : Int) (keyHash key : String) (v : Bytes) (ttl : Option Int)
    (affected : Nat) : List Said :=
  ⟨.commit, ()⟩ :: ⟨.insertIfAbsent ns g keyHash key v ttl, .ok affected⟩ ::
    afterClear ns g keyHash key (afterBegin ns g)

/-- the statement of an atomic write that stores the new value, and its answer -/
def storeSaid (op : CacheOp) (ns : String) (g : Int) (keyHash key : String)
    (found : Option (Int × Bytes)) (v : Bytes) (r : Except SqlError Unit) : Said :=
  match found with
  | some (id, _) => ⟨.updateValue id v op.ttl op.preserves, r⟩
  | none => ⟨.insertValue ns g keyHash key v op.ttl, r⟩

def storeStmt (op : CacheOp) (ns : String) (g : Int) (keyHash key : String)
    (found : Option (Int × Bytes)) (v : Bytes) : Said :=
      storeSaid op ns g keyHash key found v (.ok ())

/-- the transaction has just begun -/
def CacheTx.Fresh (t : CacheTx) : Prop := t.advisory = [] ∧ t.gone = [] ∧
    t.locked = [] ∧ t.rows = []

/-- a transaction that has removed what had expired of its key -/
structure Clearing (γ : OwnView Op) (ns : String) (g : Int) (keyHash key : String)
    (advisory : List String) (t : CacheTx) : Prop where
  tx : γ.tx = some t
  bound : storable key = true
  advisory : t.advisory = advisory
  gone : ∀ i ∈ t.gone, ∃ x, γ.held x ∧ x.id = i ∧ x.isKey ns g keyHash key = true ∧
    x.expired t.startedAt = true

/-- the row that `select_key_for_update` has found -/
def Found (γ : OwnView Op) (ns : String) (g : Int) (keyHash key : String) (t : CacheTx)
    (id : Int) (old : Bytes) (x : EntryRow) : Prop :=
  γ.held x ∧ x.id = id ∧ x.isKey ns g keyHash key = true ∧ x.live t.startedAt = true ∧
    x.valueBytes = old

/-- no committed row has this id -/
def Unused (γ : OwnView Op) (i : Int) : Prop := ∀ x, γ.held x → x.id ≠ i

/-! ## the eviction loop -/

/-- `excess_keys` and `over_bytes` of the loop, as its own statements give them -/
inductive Evicting (store : CacheStore) (ns : String) (g : Int) : Int → Bool → List Said → Prop
  | start (n b : Int) (l : List Said) :
      Evicting store ns g (store.excessKeys n) (store.overBytes b)
        (⟨.usage ns g, (n, b)⟩ :: ⟨.selectGeneration ns, some g⟩ :: l)
  | keys {x : Int} {o : Bool} {l : List Said} {id : Option Int} {deleted : Nat}
      (h : Evicting store ns g x o l) (hd : deleted ≠ 0) (hm : store.limits.maxBytes = none) :
      Evicting store ns g (store.asKeys (x - deleted)) o
        (⟨.incrementCounter .evictions deleted, ()⟩ :: ⟨.deleteIds id.toList, deleted⟩ ::
          ⟨.victim ns g, id⟩ :: l)
  | bytes {x : Int} {o : Bool} {l : List Said} {id : Option Int} {deleted : Nat} (b : Int)
      (h : Evicting store ns g x o l) (hd : deleted ≠ 0) :
      Evicting store ns g (store.asKeys (x - deleted)) (store.overBytes b)
        (⟨.byteSize ns g, b⟩ :: ⟨.incrementCounter .evictions deleted, ()⟩ ::
          ⟨.deleteIds id.toList, deleted⟩ :: ⟨.victim ns g, id⟩ :: l)

/-! ## what comes before a statement -/

/-- **The order of statements.** -/
def Follows (call : CacheCall) (st : CacheStmt) (γ : OwnView Op) : Prop :=
  match st with
  | .viewRows ns => call.op = .invalidateNamespace ns
  | .bumpGeneration ns ids => call.op = .invalidateNamespace ns ∧
      [⟨.viewRows ns, ids⟩, ⟨.ensureNamespace ns, ()⟩] <+: said γ.own
  | .upsertEntry ns g keyHash key v ttl =>
      call.op = .set ns key v ttl ∧ keyHash = call.store.hashKey key ∧ γ.tx = none ∧
        storable key = true ∧ afterRead ns g <+: said γ.own
  | .deleteKey ns g keyHash key =>
      call.op = .delete ns key ∧ keyHash = call.store.hashKey key ∧ γ.tx = none ∧
        [⟨.selectGeneration ns, some g⟩] <+: said γ.own
  | .begin => γ.tx = none
  | .lockKey ns g keyHash =>
      (∃ t, γ.tx = some t ∧ t.Fresh) ∧ afterBegin ns g <+: said γ.own ∧
        ∃ key, call.op.target = some (ns, key) ∧ keyHash = call.store.hashKey key
  | .deleteExpiredKey ns g keyHash key =>
      call.op.target = some (ns, key) ∧ keyHash = call.store.hashKey key ∧
        ∃ t, γ.tx = some t ∧ t.gone = [] ∧ t.locked = [] ∧ t.rows = [] ∧
          ((t.advisory = [] ∧ (∃ v ttl, call.op = .setNx ns key v ttl) ∧
              afterBegin ns g <+: said γ.own) ∨
            (t.advisory = [lockText ns g keyHash] ∧ afterLock ns g keyHash <+: said γ.own))
  | .selectKeyForUpdate ns g keyHash key =>
      call.op.target = some (ns, key) ∧ keyHash = call.store.hashKey key ∧
        afterClear ns g keyHash key (afterLock ns g keyHash) <+: said γ.own ∧
        ∃ t, Clearing γ ns g keyHash key [lockText ns g keyHash] t ∧ t.locked = [] ∧ t.rows = []
  | .insertIfAbsent ns g keyHash key v ttl =>
      call.op = .setNx ns key v ttl ∧ keyHash = call.store.hashKey key ∧
        afterClear ns g keyHash key (afterBegin ns g) <+: said γ.own ∧
        ∃ t, Clearing γ ns g keyHash key [] t ∧ t.locked = [] ∧ t.rows = []
  | .insertValue ns g keyHash key v ttl =>
      call.op.target = some (ns, key) ∧ keyHash = call.store.hashKey key ∧ ttl = call.op.ttl ∧
        (∃ a, call.op.register none = .ok (a, some v)) ∧
        afterSeek ns g keyHash key none <+: said γ.own ∧
        ∃ t, Clearing γ ns g keyHash key [lockText ns g keyHash] t ∧ t.locked = [] ∧ t.rows = []
  | .updateValue id v ttl preserve =>
      ∃ ns g keyHash key old, call.op.target = some (ns, key) ∧ keyHash = call.store.hashKey key ∧
        ttl = call.op.ttl ∧ preserve = call.op.preserves ∧
        (∃ a, call.op.register (some old) = .ok (a, some v)) ∧
        afterSeek ns g keyHash key (some (id, old)) <+: said γ.own ∧
        ∃ t x, Clearing γ ns g keyHash key [lockText ns g keyHash] t ∧
          Found γ ns g keyHash key t id old x ∧ t.rows = []
  | .commit =>
      ∃ ns g keyHash key t, call.op.target = some (ns, key) ∧ keyHash = call.store.hashKey key ∧
        ((∃ v ttl, call.op = .setNx ns key v ttl ∧ γ.tx = some t ∧ t.gone = [] ∧ t.rows = [] ∧
            ⟨.insertIfAbsent ns g keyHash key v ttl, .ok 0⟩ ::
              afterClear ns g keyHash key (afterBegin ns g) <+: said γ.own) ∨
          (∃ v ttl i, call.op = .setNx ns key v ttl ∧ Clearing γ ns g keyHash key [] t ∧
            t.rows = [newEntry i ns g keyHash key v ttl t.startedAt] ∧ Unused γ i ∧
            ⟨.insertIfAbsent ns g keyHash key v ttl, .ok 1⟩ ::
              afterClear ns g keyHash key (afterBegin ns g) <+: said γ.own) ∨
          (∃ a v i, call.op.atomic = true ∧ call.op.register none = .ok (a, some v) ∧
            Clearing γ ns g keyHash key [lockText ns g keyHash] t ∧
            t.rows = [newEntry i ns g keyHash key v call.op.ttl t.startedAt] ∧ Unused γ i ∧
            storeStmt call.op ns g keyHash key none v :: afterSeek ns g keyHash key none
              <+: said γ.own) ∨
          ∃ a v id old x, call.op.atomic = true ∧ call.op.register (some old) = .ok (a, some v) ∧
            Clearing γ ns g keyHash key [lockText ns g keyHash] t ∧
            Found γ ns g keyHash key t id old x ∧
            t.rows = [x.withValue v call.op.ttl call.op.preserves t.startedAt] ∧
            storeStmt call.op ns g keyHash key (some (id, old)) v ::
              afterSeek ns g keyHash key (some (id, old)) <+: said γ.own)
  | .deleteIds ids =>
      (∃ limit, [⟨.doomed limit, .ok ids⟩] <+: said γ.own) ∨
        ∃ ns g id x o l, ids = id.toList ∧ said γ.own = ⟨.victim ns g, id⟩ :: l ∧
          Evicting call.store ns g x o l ∧ (x > 0 ∨ o = true)
  | _ => True

/-! ## what the statements of a call were -/

/-- statements that come after a write -/
def CacheStmt.trails : CacheStmt → Bool
  | .incrementCounter _ _ | .doomed _ | .deleteIds _ | .selectGeneration _ | .usage _ _
  | .byteSize _ _ | .victim _ _ => true
  | _ => false

/-- the statements `core`, and after them only such statements -/
def Wrote (new : List (CacheEvOf Op)) (core : List Said) : Prop :=
  ∃ tail body, new = tail ++ body ∧ (∀ e ∈ tail, e.stmt.trails = true) ∧ said body = core

/-- the statements of a call that has read the value -/
def ReadValue (hash : String → String) (ns key : String) (v : Bytes) (l : List Said) : Prop :=
  ∃ g id, [⟨.selectLive ns g (hash key) key, some (id, v)⟩, ⟨.selectGeneration ns, some g⟩] <:+: l

/-- the ways in which a call on one key ends -/
def AnsweredKey (call : CacheCall) (ns key : String) (r : PgAppResult CacheReturn)
    (new : List (CacheEvOf Op)) : Prop :=
  match r with
  | .ok a => ∃ g found v, call.op.register (found.map (·.2)) = .ok (a, some v) ∧
      Wrote new (⟨.commit, ()⟩ :: storeStmt call.op ns g (call.store.hashKey key) key found v ::
        afterSeek ns g (call.store.hashKey key) key found)
  | .error e => new = [] ∨
      (∃ g, storable key = false ∧
        said new = ⟨.rollback, ()⟩ :: afterLock ns g (call.store.hashKey key)) ∨
      (∃ g found, call.op.register (found.map (·.2)) = .error e ∧
        said new = ⟨.rollback, ()⟩ :: afterSeek ns g (call.store.hashKey key) key found) ∨
      ∃ g found v x, said new = ⟨.rollback, ()⟩ ::
        storeSaid call.op ns g (call.store.hashKey key) key found v (.error x) ::
        afterSeek ns g (call.store.hashKey key) key found

/-- **What a call has done that ends in `r`.** -/
def Answered (call : CacheCall) (r : PgAppResult CacheReturn) (new : List (CacheEvOf Op)) : Prop :=
  match call.op with
  | .set ns key v ttl =>
      match r with
      | .ok a => a = .unit ∧ ∃ g, Wrote new
          (⟨.upsertEntry ns g (call.store.hashKey key) key v ttl, .ok ()⟩ :: afterRead ns g)
      | .error _ => new = [] ∨ (∃ g, storable key = false ∧ said new = afterRead ns g) ∨
          ∃ g x, said new =
            ⟨.upsertEntry ns g (call.store.hashKey key) key v ttl, .error x⟩ :: afterRead ns g
  | .setNx ns key v ttl =>
      match r with
      | .ok a => ∃ g,
          (a = .bool true ∧ Wrote new (afterInsert ns g (call.store.hashKey key) key v ttl 1)) ∨
          (a = .bool false ∧ said new = afterInsert ns g (call.store.hashKey key) key v ttl 0)
      | .error _ => new = [] ∨
          (∃ g, storable key = false ∧ said new = ⟨.rollback, ()⟩ :: afterBegin ns g) ∨
          ∃ g x, said new = ⟨.rollback, ()⟩ ::
            ⟨.insertIfAbsent ns g (call.store.hashKey key) key v ttl, .error x⟩ ::
            afterClear ns g (call.store.hashKey key) key (afterBegin ns g)
  | .getSet ns key _ _ | .increment ns key _ _ | .decrement ns key _ _ | .append ns key _ _
  | .prepend ns key _ _ => AnsweredKey call ns key r new
  | .delete ns key =>
      match r with
      | .ok a => (a = .bool false ∧ said new = [⟨.selectGeneration ns, none⟩]) ∨
          ∃ (g : Int) (n : Nat) (l : List Said), a = .bool (decide (n > 0)) ∧
            (l = [] ∨ l = [⟨.incrementCounter .deletes n, ()⟩]) ∧ said new = l ++
              [⟨.deleteKey ns g (call.store.hashKey key) key, n⟩, ⟨.selectGeneration ns, some g⟩]
      | .error _ => new = [] ∨
          ∃ g, storable key = false ∧ said new = [⟨.selectGeneration ns, some g⟩]
  | .get ns key => ∀ v, r = .ok (.value (some v)) → ReadValue call.store.hashKey ns key v (said new)
  | .exists_ ns key => r = .ok (.bool true) → ∃ v, ReadValue call.store.hashKey ns key v (said new)
  | .mget ns _ => ∀ values, r = .ok (.values values) → ∀ key v, (key, some v) ∈ values →
      ReadValue call.store.hashKey ns key v (said new)
  | .invalidateNamespace ns => ∀ a, r = .ok a → ∃ ids, ⟨.bumpGeneration ns ids, ()⟩ ∈ said new
  | .sweepExpired _ | .stats => True

end

end PgApp
