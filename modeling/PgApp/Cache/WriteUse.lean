import PgApp.Cache.WriteCases
import PgApp.Cache.Refine

/-!
# A write as a use of its entry

The eviction order is that of `last_accessed_at`, which an INSERT and `get` set and which neither
the `DO UPDATE` of `set` nor `update_value` touches.  So the entry of a new key outlives the
capacity enforcement of its write, and that of a key which was there does if it fits together with
the entries used since its last `get`.

Main result: `cache_write_use`.
-/

namespace PgApp
open Interleave CacheProg

/-- the write of a value over whatever is there -/
def CacheOp.replaces : CacheOp → Bool
  | .set _ _ _ _ | .getSet _ _ _ _ | .increment _ _ _ _ | .decrement _ _ _ _ | .append _ _ _ _
  | .prepend _ _ _ _ => true
  | _ => false

/-- the entry `r` of the key stays when `v` is written over it: a row of another key has expired
(then the write sweeps and evicts nothing), or `v` fits together with the entries of the namespace
that were used after `r` -/
def CacheStore.Recent (store : CacheStore) (db : CacheDb) (now : Time) (ns key : String) (v : Bytes)
    (r : EntryRow) : Prop :=
  let g := (db.generationOf ns).getD 0
  let since := db.usedSince ns g (store.hashKey key) r
  (∃ x ∈ db.others ns g (store.hashKey key), x.expired now = true) ∨
    store.within (since.length + 1) (sumSizes since + v.length)

section
variable {s : Nat} {c : CacheCtx} {db d : CacheDb} {store : CacheStore} {rounds : Nat}
  {ns key : String}
variable {v : Bytes} {r : EntryRow} {g : Int} {e : Option Time}

/-- `get` alone returns the value of the live row -/
theorem alone_get (store : CacheStore) (htx : db.txs = []) (hv : validateRead ns key = .ok ())
    (hbind : storable key = true) (hg : db.generationOf ns = some g) :
    ∃ db', (store.get ns key).alone s c db = some
      (.ok ((db.liveRow ns g (store.hashKey key) key c.now).map (·.valueBytes)), db') := by
  have hs : CacheStmt.exec s c (.selectGeneration ns) db = some (some g, db) := by
    show some (db.generationOf ns, db) = _
    rw [hg]
  have hl : CacheStmt.exec s c (.selectLive ns g (store.hashKey key) key) db
      = some ((db.liveRow ns g (store.hashKey key) key c.now).map fun r =>
          (r.id, r.valueBytes), db) :=
    rfl
  unfold CacheStore.get
  rw [hv, bindKey_ok hbind]
  show ∃ db', (query (.selectGeneration ns) >>= _ : CacheProg (Option Bytes)).alone s c db = _
  rw [alone_query hs]
  show ∃ db', (query (.selectLive ns g (store.hashKey key) key) >>= _ :
    CacheProg (Option Bytes)).alone
    s c db = _
  rw [alone_query hl]
  cases db.liveRow ns g (store.hashKey key) key c.now with
  | none => exact ⟨_, rfl⟩
  | some r =>
    have ht : CacheStmt.exec s c (.touch r.id) db = some ((), db.touch r.id c.now) := by
      simp [CacheStmt.exec, CacheDb.blocked, htx]
    exact ⟨_, (alone_query ht).trans rfl⟩

theorem validateRead_of_write {ttl : Option Int} (hv : validateWrite ns key ttl = .ok ()) :
    validateRead ns key = .ok () := by
  unfold validateWrite at hv
  unfold validateRead
  cases h1 : validateNamespace ns with
  | error e => rw [h1] at hv; cases hv
  | ok _ =>
    rw [h1] at hv
    cases h2 : validateCacheKey key with
    | error e => rw [h2] at hv; cases hv
    | ok _ => rfl

/-- reading back right after a write, at any time before the expiry, gives the value if and only if
the row is still there -/
theorem get_after_write {α : Type} {p : CacheProg α} {out : α}
    (hv : validateRead ns key = .ok ()) (hbind : storable key = true)
    (L : store.Leaves s c rounds db ns key p r out d)
    (hr : r.Holds ns ((db.generationOf ns).getD 0) (store.hashKey key) key v e)
    (hlive : r.expired c.now = false) :
    (∀ s' c', c.now ≤ c'.now → (∀ t, e = some t → c'.now < t) →
      ∃ d', (store.get ns key).alone s' c' d = some (.ok (some v), d')) ↔ r ∈ d.entries := by
  constructor
  · intro h
    have hbefore : ∀ t, e = some t → c.now < t := by
      intro t ht
      unfold EntryRow.expired at hlive
      rw [hr.expiry, ht] at hlive
      exact not_le.mp (by simpa using hlive)
    obtain ⟨d', hget⟩ := h s c (le_refl _) hbefore
    obtain ⟨d'', hget'⟩ := alone_get (s := s) (c := c) store L.txs hv hbind L.generation
    rw [hget] at hget'
    have hval := congrArg (fun q => q.map Prod.fst) hget'
    simp only [Option.map_some, Option.some.injEq, Except.ok.injEq] at hval
    obtain ⟨x, hx, -⟩ := Option.map_eq_some_iff.mp hval.symm
    obtain ⟨hx, hxk, -⟩ := d.liveRow_spec hx
    rcases L.rows x hx with rfl | hx'
    · exact hx
    · have h1 := (List.mem_filter.mp hx').2
      rw [(EntryRow.isKey_iff.mp hxk).1] at h1
      cases h1
  · intro hmem s' c' hle hbefore
    obtain ⟨d', hget⟩ := alone_get (s := s') (c := c') store L.txs hv hbind L.generation
    have hlive' : r.expired c'.now = false := by
      unfold EntryRow.expired
      rw [hr.expiry]
      cases he : e with
      | none => rfl
      | some t => simpa using hbefore t he
    have hl := L.ok.liveRow_iff.mpr ⟨hmem, hr.key, hlive'⟩
    rw [hl] at hget
    refine ⟨d', hget.trans ?_⟩
    show some (Except.ok (some r.valueBytes), d') = _
    rw [hr.value]

theorem usedSince_fresh (h : db.Ok) (hst : db.Stamped c.now) (hid : r.id = db.nextEntryId)
    (hused : r.lastAccessedAt = c.now) (keyHash : String) : db.usedSince ns g keyHash r = [] := by
  unfold CacheDb.usedSince
  rw [List.filter_eq_nil_iff]
  intro x hx hp
  have hmem := List.mem_of_mem_filter hx
  have h1 := h.below x hmem
  have h2 := (hst.rows x hmem).used
  have h3 : usedBefore r x := by
    rw [Bool.and_eq_true] at hp
    simpa using hp.2
  unfold usedBefore at h3
  rw [hid, hused] at h3
  rcases h3 with h3 | ⟨-, h3⟩
  · exact absurd h2 (not_le.mpr h3)
  · omega

theorem usedSince_congr {x : EntryRow} (hid : r.id = x.id)
    (hused : r.lastAccessedAt = x.lastAccessedAt)
    (keyHash : String) : db.usedSince ns g keyHash r = db.usedSince ns g keyHash x := by
  refine List.filter_congr fun y _ => ?_
  have h1 : usedBefore r y ↔ usedBefore x y := by
    unfold usedBefore
    rw [hid, hused]
  rw [decide_eq_decide.mpr h1]

theorem fits_cons_iff (l : List EntryRow) (hsize : r.sizeBytes = v.length) :
    store.fits (r :: l) ↔ store.within (l.length + 1) (sumSizes l + v.length) := by
  have h1 : sumSizes (r :: l) = sumSizes l + v.length := by
    simp only [sumSizes, List.map_cons, List.sum_cons, hsize]
    omega
  have h2 : ((r :: l).length : Int) = l.length + 1 := by simp
  unfold CacheStore.fits
  rw [h1, h2]

/-- which rows stay, by the row that was there before -/
theorem keeps_iff_recent (h : db.Ok) (hst : db.Stamped c.now) {old : Option EntryRow}
    (hr : r.Holds ns ((db.generationOf ns).getD 0) (store.hashKey key) key v e)
    (ho : r.Over old db.nextEntryId c.now) (hkeys : ∀ m, store.limits.maxKeys = some m → 1 ≤ m)
    (hbytes : ∀ b, store.limits.maxBytes = some b → (v.length : Int) ≤ b) :
    store.Keeps db c.now ns ((db.generationOf ns).getD 0) (store.hashKey key) r ↔
      ∀ x, old = some x → store.Recent db c.now ns key v x := by
  unfold CacheStore.Keeps
  cases old with
  | none =>
    refine ⟨fun _ x hx => (by cases hx), fun _ => .inr ?_⟩
    obtain ⟨hid, hused⟩ := ho.fresh rfl
    rw [usedSince_fresh h hst hid hused, fits_cons_iff [] hr.size]
    refine ⟨fun m hm => hkeys m hm, fun b hb => ?_⟩
    have := hbytes b hb
    show (0 : Int) + v.length ≤ b
    omega
  | some x =>
    obtain ⟨hid, hused⟩ := ho.kept x rfl
    rw [usedSince_congr hid hused, fits_cons_iff _ hr.size]
    constructor
    · intro hk y hy
      cases hy
      exact hk
    · intro hk
      exact hk x rfl

end

/-- **A write as a use.**  `get` right after a write gives the value that was written, at any time
before its expiry, if and only if the write went to a new row, or over one that is recent enough. -/
theorem cache_write_use {σ : CacheSys} (hr : CacheReach σ) (hq : σ.db.txs = []) (s : Nat)
    (c : CacheCtx)
    (hclock : ∀ e ∈ σ.hist, e.ctx.now ≤ c.now) (call : CacheCall)
    (hkeys : ∀ m, call.store.limits.maxKeys = some m → 1 ≤ m) {ns key : String}
    (hop : call.op.target = some (ns, key)) (hrep : call.op.replaces = true) {ret : CacheReturn}
    {d : CacheDb} (hrun : call.body.alone s c σ.db = some (.ok ret, d)) {v : Bytes}
    (hv : call.op.stored (call.store.valueAt σ.db c.now ns key) = some v)
    (hbytes : ∀ b, call.store.limits.maxBytes = some b → (v.length : Int) ≤ b) :
    (∀ s' c', c.now ≤ c'.now →
      (∀ t, call.store.expiryAfter σ.db c.now call.op ns key = some t → c'.now < t) →
      ∃ d', (call.store.get ns key).alone s' c' d = some (.ok (some v), d')) ↔
    ∀ r, call.store.overwritten σ.db c.now call.op ns key = some r →
      call.store.Recent σ.db c.now ns key v r := by
  have h := hr.ok
  have hst := hr.stamped hclock
  rcases write_cases h hq s c call hop with hno | ⟨⟨v', ttl, hnx⟩, -⟩ | ⟨v', r, out, hv', S⟩
  · obtain ⟨e, d', herr, -⟩ := hno.run
    rw [herr] at hrun
    cases hrun
  · rw [hnx] at hrep
    cases hrep
  · rw [hv] at hv'
    cases hv'
    obtain ⟨d', L⟩ := S.leaves hr.sizes
    have hd := L.only _ hrun
    obtain rfl : d = d' := congrArg Prod.snd hd
    rw [get_after_write (validateRead_of_write S.valid) S.bound.key L S.holds S.live,
      L.keeps fun m hm => le_trans (by decide) (hkeys m hm)]
    exact keeps_iff_recent h hst S.holds S.place hkeys hbytes

/-- `a` at 0, then `b` at 1 -/
def oneByteEach : List (Act CacheCall CacheCtx) :=
  whole 0 ⟨fourByteStore, 5, .set "app" "a" [1] none⟩ ⟨0, id⟩ 8 ++
    whole 0 ⟨fourByteStore, 5, .set "app" "b" [2] none⟩ ⟨1, id⟩ 8

/-- the outcome of a call, and what `get` gives right after it -/
def setThenGet (call : CacheCall) (c : CacheCtx) (ns key : String) (db : CacheDb) :
    Option (Bool × Option Bytes) :=
  (call.body.alone 0 c db).bind fun p =>
    ((call.store.get ns key).alone 0 c p.2).map fun q => (p.1.toOption.isSome, q.1.toOption.join)

theorem oneByteEach_reach : ∃ σ : CacheSys, CacheReach σ ∧ σ.db.txs = [] ∧
    σ.hist.map (·.ctx.now) = List.replicate 8 1 ++ List.replicate 8 0 ∧
    setThenGet ⟨fourByteStore, 5, .set "app" "a" [1, 2, 3, 4] none⟩ ⟨2, id⟩ "app" "a" σ.db
      = some (true, none) ∧
    setThenGet ⟨fourByteStore, 5, .set "app" "b" [2, 3] none⟩ ⟨2, id⟩ "app" "b" σ.db
      = some (true, some [2, 3]) := by
  have h : ((Sys.init CacheDb.empty).play CacheStmt.exec CacheCall.body oneByteEach).map
      (fun σ : CacheSys => (σ.db.txs.isEmpty, σ.hist.map (·.ctx.now),
        setThenGet ⟨fourByteStore, 5, .set "app" "a" [1, 2, 3, 4] none⟩ ⟨2, id⟩ "app" "a" σ.db,
        setThenGet ⟨fourByteStore, 5, .set "app" "b" [2, 3] none⟩ ⟨2, id⟩ "app" "b" σ.db))
      = some (true, List.replicate 8 1 ++ List.replicate 8 0, some (true, none),
        some (true, some [2, 3])) := by rfl
  obtain ⟨σ, hplay, heq⟩ := Option.map_eq_some_iff.mp h
  simp only [Prod.mk.injEq, List.isEmpty_iff] at heq
  exact ⟨σ, Sys.play_steps hplay, heq.1, heq.2.1, heq.2.2.1, heq.2.2.2⟩

theorem clock_of_readings {σ : CacheSys} {l : List Time} {now : Time}
    (h : σ.hist.map (·.ctx.now) = l) (hl : ∀ t ∈ l, t ≤ now) : ∀ e ∈ σ.hist, e.ctx.now ≤ now :=
  fun _ he => hl _ (h ▸ List.mem_map_of_mem he)

theorem setThenGet_spec {call : CacheCall} {c : CacheCtx} {ns key : String} {db : CacheDb}
    {value : Option Bytes} (h : setThenGet call c ns key db = some (true, value)) :
    ∃ ret d, call.body.alone 0 c db = some (.ok ret, d) ∧
      ∃ r d', (call.store.get ns key).alone 0 c d = some (r, d') ∧ r.toOption.join = value := by
  unfold setThenGet at h
  obtain ⟨⟨r, d⟩, hrun, h⟩ := Option.bind_eq_some_iff.mp h
  obtain ⟨⟨r', d'⟩, hget, h⟩ := Option.map_eq_some_iff.mp h
  simp only [Prod.mk.injEq] at h
  cases r with
  | error e => cases h.1
  | ok ret => exact ⟨ret, d, hrun, r', d', hget, h.2⟩

theorem cache_write_use_lastUsed : ∃ (σ : CacheSys) (d : CacheDb), CacheReach σ ∧ σ.db.txs = [] ∧
    (∀ e ∈ σ.hist, e.ctx.now ≤ 2) ∧
    ((∀ s' c', (2 : Time) ≤ CacheCtx.now c' →
      (∀ t, fourByteStore.expiryAfter σ.db 2 (.set "app" "b" [2, 3] none) "app" "b" = some t →
        CacheCtx.now c' < t) →
      ∃ d', (fourByteStore.get "app" "b").alone s' c' d = some (.ok (some [2, 3]), d')) ↔
    ∀ r, fourByteStore.overwritten σ.db 2 (.set "app" "b" [2, 3] none) "app" "b" = some r →
      fourByteStore.Recent σ.db 2 "app" "b" [2, 3] r) := by
  obtain ⟨σ, hr, hq, hclock, -, hset⟩ := oneByteEach_reach
  have hnow : ∀ e ∈ σ.hist, e.ctx.now ≤ 2 := clock_of_readings hclock (by decide)
  obtain ⟨ret, d, hrun, -⟩ := setThenGet_spec hset
  refine ⟨σ, d, hr, hq, hnow, cache_write_use hr hq 0 ⟨2, id⟩ hnow
    ⟨fourByteStore, 5, .set "app" "b" [2, 3] none⟩ (fun m hm => (by cases hm)) rfl rfl hrun rfl ?_⟩
  intro b hb
  obtain rfl : (4 : Int) = b := Option.some.inj hb
  decide

/-- the value just set is evicted, where `b` could have been -/
theorem cache_write_use_evictsItself : ∃ (σ : CacheSys) (ret : CacheReturn) (d : CacheDb),
    CacheReach σ ∧ σ.db.txs = [] ∧ (σ.hist.map (·.ctx.now)).Pairwise (fun a b => b ≤ a) ∧
    (∀ e ∈ σ.hist, e.ctx.now ≤ 2) ∧
    (CacheCall.body ⟨fourByteStore, 5, .set "app" "a" [1, 2, 3, 4] none⟩).alone 0 ⟨2, id⟩ σ.db
      = some (.ok ret, d) ∧
    ¬ ∀ s' c', (2 : Time) ≤ CacheCtx.now c' →
      ∃ d', (fourByteStore.get "app" "a").alone s' c' d = some (.ok (some [1, 2, 3, 4]), d') := by
  obtain ⟨σ, hr, hq, hclock, hset, -⟩ := oneByteEach_reach
  obtain ⟨ret, d, hrun, r, d', hget, hmiss⟩ := setThenGet_spec hset
  refine ⟨σ, ret, d, hr, hq, by rw [hclock]; decide, clock_of_readings hclock (by decide), hrun,
    fun h => ?_⟩
  obtain ⟨d'', hget'⟩ := h 0 ⟨2, id⟩ (by decide)
  have hg : (fourByteStore.get "app" "a").alone 0 ⟨2, id⟩ d = some (r, d') := hget
  rw [hg] at hget'
  cases hget'
  cases hmiss

end PgApp
