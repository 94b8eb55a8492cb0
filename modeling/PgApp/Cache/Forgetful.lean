import PgApp.Cache.Register
import PgApp.Keyed.Forgetful

/-!
# The cache as a map that forgets

A cell of the cache is a namespace, a generation of it and the hash of a key; `CacheDb.cells` reads
the cells off `cache_entries`.  Of any statement of any call:

* `CommitsRow call a x e`   the statement publishes `x`, which is what the call makes of the entry
it
                            finds, at `now()`; `a` is its answer;
* `forgets`                 the cell of a published row has that row's entry; the others keep
theirs,
                            and only a delete, a sweep, an eviction or an invalidation loses one.

`commit_cases` is what the COMMIT of a write has published.
-/

namespace PgApp
open Interleave Keyed

/-! ## cells -/

/-- what a cell holds -/
structure Item where
  key : String
  value : Bytes
  expiresAt : Option Time
deriving DecidableEq

abbrev Cell := String × Int × String

def EntryRow.item (x : EntryRow) : Item := ⟨x.cacheKey, x.valueBytes, x.expiresAt⟩

def CacheDb.cells (db : CacheDb) (u : Cell) : Option Item :=
  (db.entries.find? fun x => x.uniq == u).map EntryRow.item

/-- it is an entry of this key, and there is some time left -/
def Item.present (i : Item) (key : String) (now : Time) : Bool :=
  i.key == key && match i.expiresAt with
    | none => true
    | some t => now < t

/-- the expiry that a write sets: without a ttl the old one stays if the operation preserves it -/
def CacheOp.expiryOver (op : CacheOp) (now : Time) (old : Option Item) : Option Time :=
  op.expiry now (old.map fun i => ⟨i.value, i.expiresAt⟩)

theorem CacheOp.expiryOver_anew {op : CacheOp} (h : op.preserves = false) (now : Time)
    (i : Option Item) : op.expiryOver now i = expiryOf now op.ttl := by
  unfold expiryOver
  rw [expiry_eq, h, Bool.and_false]
  rfl

theorem CacheOp.expiryOver_none (op : CacheOp) (now : Time) :
    op.expiryOver now none = expiryOf now op.ttl := by
  unfold expiryOver
  rw [expiry_eq]
  cases op.ttl <;> cases op.preserves <;> rfl

theorem CacheOp.expiryOver_some (op : CacheOp) (now : Time) (i : Item) :
    op.expiryOver now (some i)
      = if op.ttl.isNone && op.preserves then i.expiresAt else expiryOf now op.ttl :=
  expiry_eq op now _

section
variable {db : CacheDb} {x : EntryRow} {u : Cell} {i : Item}

theorem cells_of_mem (hok : db.Ok) (hx : x ∈ db.entries) : db.cells x.uniq = some x.item := by
  unfold CacheDb.cells
  cases hf : db.entries.find? fun y => y.uniq == x.uniq with
  | none =>
    have h1 := List.find?_eq_none.mp hf x hx
    simp at h1
  | some y =>
    have h1 : y.uniq = x.uniq := by simpa using List.find?_some hf
    rw [hok.eq_of_uniq (List.mem_of_find?_eq_some hf) hx h1]
    rfl

theorem cells_some (h : db.cells u = some i) : ∃ x ∈ db.entries, x.uniq = u ∧ x.item = i := by
  obtain ⟨x, hf, he⟩ := Option.map_eq_some_iff.mp h
  exact ⟨x, List.mem_of_find?_eq_some hf, by simpa using List.find?_some hf, he⟩

theorem item_present {key : String} {now : Time} (hk : x.cacheKey = key) (hl : x.live now = true) :
    x.item.present key now = true := by
  unfold Item.present EntryRow.item
  unfold EntryRow.live EntryRow.expired at hl
  rw [hk, beq_self_eq_true, Bool.true_and]
  cases he : x.expiresAt with
  | none => rfl
  | some t =>
    simp only [he, Bool.not_eq_true', decide_eq_false_iff_not, not_le] at hl
    exact decide_eq_true hl

theorem item_absent {key : String} {now : Time} (he : x.expired now = true) :
    x.item.present key now = false := by
  unfold Item.present EntryRow.item
  unfold EntryRow.expired at he
  cases hx : x.expiresAt with
  | none =>
    rw [hx] at he
    cases he
  | some t =>
    simp only [hx, decide_eq_true_eq] at he
    rw [Bool.and_eq_false_iff]
    exact .inr (decide_eq_false (not_lt.mpr he))

end

/-! ## writes -/

section
variable {Op : Type} {call : Op → CacheCall}

/-- `now()` of a statement -/
def eventTime (e : CacheEvOf Op) : Time := e.pre.now e.sess e.ctx.now

/-- the entry of the row's key that the statement finds in its cell -/
def entryBefore (e : CacheEvOf Op) (x : EntryRow) : Option Item :=
  (e.pre.cells x.uniq).filter fun i => i.present x.cacheKey (eventTime e)

structure CommitsRow (call : CacheCall) (a : CacheReturn) (x : EntryRow)
    (e : CacheEvOf Op) : Prop where
  published : x ∈ publishedBy e
  only : ∀ y ∈ publishedBy e, y = x
  target : call.op.target = some (x.namespace_, x.cacheKey)
  hash : x.keyHash = call.store.hashKey x.cacheKey
  value : call.op.register ((entryBefore e x).map (·.value)) = .ok (a, some x.valueBytes)
  expiry : x.expiresAt = call.op.expiryOver (eventTime e) (entryBefore e x)

theorem upsert_row {db : CacheDb} {ns : String} {g : Int} {h key : String} {v : Bytes}
    {ttl : Option Int} {now : Time} {x : EntryRow}
    (hx : x ∈ (db.upsertEntry ns g h key v ttl now).entries) (ha : x.isAt ns g h = true) :
    x.expiresAt = expiryOf now ttl := by
  unfold CacheDb.upsertEntry at hx
  split at hx
  · obtain ⟨y, hy, rfl⟩ := List.mem_map.mp hx
    by_cases hya : y.isAt ns g h = true
    · rw [if_pos hya]
      rfl
    · rw [if_neg hya] at ha
      exact absurd ha hya
  · rename_i hany
    rcases List.mem_append.mp hx with hx | hx
    · exact absurd (List.any_eq_true.mpr ⟨x, hx, ha⟩) hany
    · rw [List.mem_singleton.mp hx]
      rfl

theorem upsert_stores (db : CacheDb) (ns : String) (g : Int) (h key : String) (v : Bytes)
    (ttl : Option Int) (now : Time) :
    ∃ x ∈ (db.upsertEntry ns g h key v ttl now).entries, x.isAt ns g h = true := by
  unfold CacheDb.upsertEntry
  split
  · rename_i hany
    obtain ⟨x, hx, ha⟩ := List.any_eq_true.mp hany
    refine ⟨x.overwrite key v ttl now, List.mem_map.mpr ⟨x, hx, ?_⟩, ha⟩
    rw [if_pos ha]
  · refine ⟨_, List.mem_append_right _ List.mem_cons_self, ?_⟩
    simp [newEntry, EntryRow.isAt, EntryRow.isIn]

/-- `set` commits its row in its upsert -/
theorem commitsRow_upsert {e : CacheEvOf Op} {h : List (CacheEvOf Op)} (ho : Ordered call e h)
    {ns : String} {g : Int} {k key : String} {v : Bytes} {ttl : Option Int}
    (hst : e.stmt = .upsertEntry ns g k key v ttl) (hfits : TtlFits e.ctx.now ttl) :
    ∃ x, CommitsRow (call e.op) .unit x e := by
  obtain ⟨s, op, c, st, r, db⟩ := e
  obtain rfl : st = _ := hst
  obtain ⟨db', hx⟩ := ho.executed
  obtain ⟨hop, -, htx, -⟩ := ho.follows
  have hop' : (call op).op = .set ns key v ttl := hop
  obtain ⟨x, hm, ha⟩ := upsert_stores db ns g k key v ttl c.now
  have hpub : x ∈ publishedBy (⟨s, op, c, .upsertEntry ns g k key v ttl, r, db⟩ : CacheEvOf Op) :=
    mem_written_upsert.mpr ⟨hfits, hm, ha⟩
  obtain ⟨htar, hhash, -⟩ := published_key ho hpub
  refine ⟨x, hpub, fun y hy => ?_, htar, hhash, ?_, ?_⟩
  · have hok := CacheStmt.exec_ok ho.good.ok hx
    refine hok.eq_of_uniq (published_mem ho.good.ok hx hy) (published_mem ho.good.ok hx hpub) ?_
    exact (EntryRow.isAt_iff.mp (mem_written_upsert.mp hy).2.2).trans (EntryRow.isAt_iff.mp ha).symm
  · show (call op).op.register _ = _
    rw [hop', (upsert_key hm ha).2]
    rfl
  · have hnow : db.now s c.now = c.now := by
      unfold CacheDb.now
      rw [show db.txs.get s = none from htx]
    show x.expiresAt = (call op).op.expiryOver (db.now s c.now) _
    rw [hop', hnow, upsert_row hm ha, CacheOp.expiryOver_anew rfl]
    rfl

/-! ## the COMMIT of a write -/

/-- what a COMMIT has done: nothing, for a `set_nx` that has found a row; or it has published the
row that the transaction has written -/
inductive CommitCase (call : CacheCall) (e : CacheEvOf Op) (l : List Said) : Prop
  | found (ns : String) (g : Int) (k key : String) (v : Bytes) (ttl : Option Int)
      (hop : call.op = .setNx ns key v ttl) (hnone : publishedBy e = [])
      (hpre : ⟨.insertIfAbsent ns g k key v ttl, .ok 0⟩ ::
        afterClear ns g k key (afterBegin ns g) <+: l)
  | created (ns : String) (g : Int) (k key : String) (v : Bytes) (ttl : Option Int) (x : EntryRow)
      (hop : call.op = .setNx ns key v ttl) (hrow : CommitsRow call (.bool true) x e)
      (hpre : ⟨.insertIfAbsent ns g k key v ttl, .ok 1⟩ ::
        afterClear ns g k key (afterBegin ns g) <+: l)
  | changed (ns : String) (g : Int) (k key : String) (found : Option (Int × Bytes))
    (a : CacheReturn)
      (v : Bytes) (x : EntryRow) (hat : call.op.atomic = true)
      (hreg : call.op.register (found.map (·.2)) = .ok (a, some v)) (hrow : CommitsRow call a x e)
      (hpre : storeStmt call.op ns g k key found v :: afterSeek ns g k key found <+: l)

section
variable {e : CacheEvOf Op} {h : List (CacheEvOf Op)} {ns : String} {g : Int} {k key : String}
variable {advisory : List String} {t : CacheTx}

theorem published_commit {s : Nat} {op : Op} {c : CacheCtx} {r : CacheStmt.Res .commit}
    {db : CacheDb}
    (ht : db.txs.get s = some t) :
    publishedBy (⟨s, op, c, .commit, r, db⟩ : CacheEvOf Op) = t.rows := by
  show CacheStmt.written s c db .commit = _
  simp only [CacheStmt.written, ht]

theorem eventTime_tx {e : CacheEvOf Op} (ht : e.pre.txs.get e.sess = some t) :
    eventTime e = t.startedAt := by
  unfold eventTime CacheDb.now
  rw [ht]

theorem entryBefore_inserted (hok : e.pre.Ok)
    (hc : Clearing (ownView e.sess e.pre h) ns g k key advisory t) {y : EntryRow}
      (hrows : t.rows = [y])
    (hun : Unused (ownView e.sess e.pre h) y.id) : entryBefore e y = none := by
  have ht : e.pre.txs.get e.sess = some t := hc.tx
  have hy : y ∈ t.rows := by
    rw [hrows]
    exact List.mem_cons_self
  cases hcell : e.pre.cells y.uniq with
  | none =>
    unfold entryBefore
    rw [hcell]
    rfl
  | some i =>
    obtain ⟨z, hz, hu, rfl⟩ := cells_some hcell
    have hgone : z.id ∈ t.gone := by
      rcases (hok.tx e.sess t ht).alone y hy z hz hu with hid | hg
      · exact absurd hid (hun z ⟨hz, t, ht,
          CacheTx.holdsRow_iff.mpr (.inr (.inr ⟨y, hy, hid.symm⟩))⟩)
      · exact hg
    obtain ⟨z', ⟨hz', -⟩, hid, -, hexp⟩ := hc.gone z.id hgone
    obtain rfl : z' = z := eq_of_id hok.ids hz' hz hid
    unfold entryBefore
    rw [hcell, eventTime_tx ht, Option.filter_some, item_absent hexp]
    rfl

/-- where it changes a row, that row is the entry -/
theorem entryBefore_found (hok : e.pre.Ok)
    (hc : Clearing (ownView e.sess e.pre h) ns g k key advisory t) {id : Int} {old : Bytes}
    {x y : EntryRow} (hf : PgApp.Found (ownView e.sess e.pre h) ns g k key t id old x)
    (hu : y.uniq = x.uniq) (hk : y.cacheKey = x.cacheKey) : entryBefore e y = some x.item := by
  obtain ⟨⟨hx, -⟩, -, -, hl, -⟩ := hf
  unfold entryBefore
  rw [hu, hk, cells_of_mem hok hx, eventTime_tx hc.tx, Option.filter_some, item_present rfl hl]
  rfl

/-- **What a COMMIT publishes.** -/
theorem commit_cases (ho : Ordered call e h) (hst : e.stmt = .commit) :
    CommitCase (call e.op) e (said (ownEvents e.sess h)) := by
  obtain ⟨s, op, c, st, r, db⟩ := e
  obtain rfl : st = .commit := hst
  obtain ⟨n, g, k, key, t, htar, hk, hcases⟩ := ho.follows
  have hok : db.Ok := ho.good.ok
  have hrow : ∀ {y : EntryRow} {a : CacheReturn}, db.txs.get s = some t → t.rows = [y] →
      (call op).op.register ((entryBefore (⟨s, op, c, .commit, r, db⟩ : CacheEvOf Op) y).map
        (·.value))
        = .ok (a, some y.valueBytes) →
      y.expiresAt = (call op).op.expiryOver t.startedAt
        (entryBefore (⟨s, op, c, .commit, r, db⟩ : CacheEvOf Op) y) →
      CommitsRow (call op) a y ⟨s, op, c, .commit, r, db⟩ := by
    intro y a ht hrows hreg hexp
    have hpub : publishedBy (⟨s, op, c, .commit, r, db⟩ : CacheEvOf Op) = t.rows :=
      published_commit ht
    rw [hrows] at hpub
    have hy : y ∈ publishedBy (⟨s, op, c, .commit, r, db⟩ : CacheEvOf Op) := by
      rw [hpub]
      exact List.mem_cons_self
    obtain ⟨h1, h2, -⟩ := published_key ho hy
    refine ⟨hy, fun z hz => ?_, h1, h2, hreg, ?_⟩
    · rw [hpub] at hz
      exact List.mem_singleton.mp hz
    · rw [eventTime_tx (e := ⟨s, op, c, .commit, r, db⟩) ht]
      exact hexp
  rcases hcases with ⟨v, ttl, hop, htx, -, hrows, hpre⟩ | ⟨v, ttl, i, hop, hc, hrows, hun, hpre⟩ |
    ⟨a, v, i, hat, hreg, hc, hrows, hun, hpre⟩ | ⟨a, v, id, old, x, hat, hreg, hc, hf, hrows, hpre⟩
  · exact .found n g k key v ttl hop ((published_commit htx).trans hrows) hpre
  · have hbefore := entryBefore_inserted (e := ⟨s, op, c, .commit, r, db⟩) hok hc hrows hun
    have hop' : (call op).op = .setNx n key v ttl := hop
    refine .created n g k key v ttl _ hop (hrow hc.tx hrows (a := .bool true) ?_ ?_) hpre
    · rw [hbefore, hop']
      rfl
    · rw [hbefore, hop', CacheOp.expiryOver_none]
      rfl
  · have hbefore := entryBefore_inserted (e := ⟨s, op, c, .commit, r, db⟩) hok hc hrows hun
    refine .changed n g k key none a v _ hat hreg (hrow hc.tx hrows ?_ ?_) hpre
    · rw [hbefore]
      exact hreg
    · rw [hbefore, CacheOp.expiryOver_none]
      rfl
  · have hbefore := entryBefore_found (e := ⟨s, op, c, .commit, r, db⟩) hok hc hf
      (y := x.withValue v (call op).op.ttl (call op).op.preserves t.startedAt) rfl rfl
    refine .changed n g k key (some (id, old)) a v _ hat hreg (hrow hc.tx hrows ?_ ?_) hpre
    · rw [hbefore]
      show (call op).op.register (some x.valueBytes) = _
      rw [hf.2.2.2.2]
      exact hreg
    · rw [hbefore, CacheOp.expiryOver_some]
      rfl

/-- **A statement that publishes a row is a write of its call.** -/
theorem commitsRow_of_published (ho : Ordered call e h) {x : EntryRow} (hx : x ∈ publishedBy e) :
    ∃ a, CommitsRow (call e.op) a x e := by
  have hthis : ∀ {a : CacheReturn} {y : EntryRow}, CommitsRow (call e.op) a y e →
      ∃ a, CommitsRow (call e.op) a x e := by
    intro a y hy
    obtain rfl := hy.only x hx
    exact ⟨a, hy⟩
  cases hst : e.stmt with
  | upsertEntry ns g k key v ttl =>
    have hx' := hx
    unfold publishedBy at hx'
    rw [hst] at hx'
    obtain ⟨y, hy⟩ := commitsRow_upsert ho hst (mem_written_upsert.mp hx').1
    exact hthis hy
  | commit =>
    cases commit_cases ho hst with
    | found ns g k key v ttl hop hnone hpre =>
      rw [hnone] at hx
      cases hx
    | created ns g k key v ttl y hop hrow hpre => exact hthis hrow
    | changed ns g k key found a v y hat hreg hrow hpre => exact hthis hrow
  | _ =>
    unfold publishedBy at hx
    rw [hst] at hx
    cases hx

end

/-! ## the map -/

/-- the entries a statement puts into cells -/
def publishes (e : CacheEvOf Op) (u : Cell) (i : Item) : Prop :=
  ∃ x ∈ publishedBy e, x.uniq = u ∧ x.item = i

/-- the cells it may empty: the one of a delete, those of an invalidated namespace, and any of a
sweep or an eviction -/
def loses (e : CacheEvOf Op) (u : Cell) : Prop :=
  match e.stmt with
  | .deleteKey ns g k _ => u = (ns, g, k)
  | .bumpGeneration ns _ => u.1 = ns
  | .deleteIds _ => True
  | _ => False

theorem gone_written {e : CacheEvOf Op} {h : List (CacheEvOf Op)} (ho : Ordered call e h)
    (hst : e.stmt = .commit) {t : CacheTx} (ht : e.pre.txs.get e.sess = some t) {x : EntryRow}
    (hx : x ∈ e.pre.entries) (hg : x.id ∈ t.gone) : ∃ y ∈ publishedBy e, y.uniq = x.uniq := by
  obtain ⟨s, op, c, st, r, db⟩ := e
  obtain rfl : st = .commit := hst
  obtain ⟨n, g, k, key, t', -, -, hcases⟩ := ho.follows
  have hnew : ∀ {advisory : List String} {y : EntryRow},
      Clearing (ownView s db h) n g k key advisory t' → t'.rows = [y] → y.uniq = (n, g, k) →
      ∃ y ∈ publishedBy (⟨s, op, c, .commit, r, db⟩ : CacheEvOf Op), y.uniq = x.uniq := by
    intro advisory y hc hrows hu
    have htx : db.txs.get s = some t' := hc.tx
    obtain rfl : t' = t := Option.some.inj (htx.symm.trans ht)
    obtain ⟨z, ⟨hz, -⟩, hid, hk, -⟩ := hc.gone x.id hg
    obtain rfl : z = x := eq_of_id ho.good.ok.ids hz hx hid
    refine ⟨y, ?_, hu.trans (EntryRow.isAt_iff.mp (EntryRow.isKey_iff.mp hk).1).symm⟩
    rw [published_commit htx, hrows]
    exact List.mem_cons_self
  rcases hcases with ⟨v, ttl, -, htx, hgone, -, -⟩ | ⟨v, ttl, i, -, hc, hrows, -⟩ |
    ⟨a, v, i, -, -, hc, hrows, -⟩ | ⟨a, v, id, old, y, -, -, hc, hf, hrows, -⟩
  · have htx' : db.txs.get s = some t' := htx
    obtain rfl : t' = t := Option.some.inj (htx'.symm.trans ht)
    rw [hgone] at hg
    cases hg
  · exact hnew hc hrows rfl
  · exact hnew hc hrows rfl
  · exact hnew hc hrows (EntryRow.isAt_iff.mp (EntryRow.isKey_iff.mp hf.2.2.1).1)

/-- **Every statement, on the map.** -/
theorem forgets {s : Nat} {op : Op} {c : CacheCtx} {st : CacheStmt} {db db' : CacheDb} {r : st.Res}
    {h : List (CacheEvOf Op)} (ho : Ordered call ⟨s, op, c, st, r, db⟩ h)
    (hx : CacheStmt.exec s c st db = some (r, db')) :
    Forgetful publishes loses (⟨s, op, c, st, r, db⟩ : CacheEvOf Op) db.cells db'.cells where
  written := by
    intro u i hw
    obtain ⟨x, hm, rfl, rfl⟩ := hw
    exact cells_of_mem (CacheStmt.exec_ok ho.good.ok hx) (published_mem ho.good.ok hx hm)
  rest := by
    intro u hno
    have hok' := CacheStmt.exec_ok ho.good.ok hx
    have hkept : ∀ i, db'.cells u = some i → db.cells u = some i := by
      intro i hi
      obtain ⟨y, hy, rfl, rfl⟩ := cells_some hi
      rcases exec_rows ho.good.ok hx hy with hw | ⟨z, hz, hc⟩
      · exact absurd ⟨y, hw, rfl, rfl⟩ (hno y.item)
      · have hu : z.uniq = y.uniq := congrArg (·.2.1) hc
        have hi : z.item = y.item := by
          have h1 : z.cacheKey = y.cacheKey := congrArg (·.2.2.1) hc
          have h2 : z.valueBytes = y.valueBytes := congrArg (·.2.2.2.1) hc
          have h3 : z.expiresAt = y.expiresAt := congrArg (·.2.2.2.2.1) hc
          unfold EntryRow.item
          rw [h1, h2, h3]
        rw [← hu, ← hi]
        exact cells_of_mem ho.good.ok hz
    cases hcell : db'.cells u with
    | some i => exact .inl (hkept i hcell).symm
    | none =>
      cases hold : db.cells u with
      | none => exact .inl rfl
      | some i =>
        refine .inr ⟨?_, rfl⟩
        obtain ⟨x, hm, rfl, rfl⟩ := cells_some hold
        rcases exec_kept ho.good.ok hx hm with hrem | ⟨y, hy, -, hu⟩
        · cases st with
          | deleteKey ns g k key => exact EntryRow.isAt_iff.mp (EntryRow.isKey_iff.mp hrem).1
          | deleteIds ids => trivial
          | bumpGeneration ns ids => exact hrem.1
          | commit =>
            obtain ⟨t, ht, hg⟩ := hrem
            obtain ⟨y, hy, hu⟩ := gone_written ho rfl ht hm hg
            exact absurd ⟨y, hy, hu, rfl⟩ (hno y.item)
          | _ => exact hrem.elim
        · have h1 := cells_of_mem hok' hy
          rw [hu, hcell] at h1
          cases h1

end

end PgApp
