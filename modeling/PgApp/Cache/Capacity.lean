import PgApp.Cache.Alone
import PgApp.Cache.Abstract
import Mathlib.Algebra.BigOperators.Group.List.Basic
import Mathlib.Algebra.Group.Int.Defs

/-!
# Capacity

`enforce_capacity` after a write that runs alone:

* `evictLoop_spec`   the loop ends within the limits (two stop conditions: a counter of excess keys
                     that is only decremented, and a sum of sizes that is read anew);
* `written_fits`     the early return: once anything was swept, nothing is evicted, and the
namespace
                     is within its limits only if the sweep alone has brought it there.
-/

namespace PgApp
open Interleave CacheProg

section
variable (store : CacheStore)

/-- this many keys and bytes are within the limits -/
def CacheStore.within (keyCount byteSize : Int) : Prop :=
  (∀ m, store.limits.maxKeys = some m → keyCount ≤ m) ∧
    ∀ b, store.limits.maxBytes = some b → byteSize ≤ b

def CacheStore.fits (rows : List EntryRow) : Prop := store.within rows.length (sumSizes rows)

/-- the loop of `enforce_capacity` stops at these rows -/
def CacheStore.halts (rows : List EntryRow) : Prop :=
  store.excessKeys rows.length ≤ 0 ∧ store.overBytes (sumSizes rows) = false

/-- `excess_keys` of this count does not overflow -/
def CacheStore.ExactOn (keyCount : Int) : Prop :=
  ∀ m, store.limits.maxKeys = some m → m < 0 → keyCount - m ≤ i64Max

/-- the limits that are set are positive -/
def CacheStore.PositiveLimits : Prop :=
  (∀ m, store.limits.maxKeys = some m → 0 < m) ∧ ∀ b, store.limits.maxBytes = some b → 0 < b

end

/-- the rows of a namespace's current generation -/
def CacheDb.currentRows (db : CacheDb) (ns : String) : List EntryRow :=
  match db.generationOf ns with
  | none => []
  | some g => db.rowsOf ns g

section
variable {s : Nat} {c : CacheCtx} {db db' : CacheDb} {store : CacheStore} {ns : String} {g : Int}

/-! ## the eviction loop -/

theorem overBytes_false {n : Int} (h : store.overBytes n = false) :
    ∀ b, store.limits.maxBytes = some b → n ≤ b := by
  intro b hb
  unfold CacheStore.overBytes at h
  rw [hb] at h
  simpa using h

theorem overBytes_zero (hpos : store.PositiveLimits) : store.overBytes 0 = false := by
  unfold CacheStore.overBytes
  cases hb : store.limits.maxBytes with
  | none => rfl
  | some b =>
    have := hpos.2 b hb
    simp only [decide_eq_false_iff_not]
    omega

theorem victim_spec {id : Int} (h : db.victim ns g = some id) :
    ∃ r ∈ db.rowsOf ns g, r.id = id := by
  unfold CacheDb.victim at h
  obtain ⟨r, hr, rfl⟩ := Option.map_eq_some_iff.mp h
  exact ⟨r, (List.mem_insertionSort _).mp (List.mem_of_head? hr), rfl⟩

theorem victim_none (h : db.victim ns g = none) : db.rowsOf ns g = [] := by
  unfold CacheDb.victim at h
  rw [Option.map_eq_none_iff, List.head?_eq_none_iff] at h
  have := List.length_insertionSort usedBefore (db.rowsOf ns g)
  rw [h] at this
  exact List.length_eq_zero_iff.mp this.symm

/-- the tables without one row -/
def CacheDb.without (db : CacheDb) (id : Int) : CacheDb :=
  (db.deleteWhere fun r => [id].contains r.id).2

theorem count_id (h : db.Ok) {r : EntryRow} (hr : r ∈ db.entries) :
    (db.entries.countP fun x => [r.id].contains x.id) = 1 := by
  have h1 : (db.entries.countP fun x => [r.id].contains x.id)
      = (db.entries.map (·.id)).count r.id := by
    rw [List.count, List.countP_map]
    apply List.countP_congr
    intro x _
    simp
  rw [h1]
  exact List.count_eq_one_of_mem h.ids (List.mem_map.mpr ⟨r, hr, rfl⟩)

theorem rowsOf_without (h : db.Ok) {r : EntryRow} (hr : r ∈ db.rowsOf ns g) :
    (r :: (db.without r.id).rowsOf ns g).Perm (db.rowsOf ns g) := by
  have hmem := List.mem_of_mem_filter hr
  have hn : (db.rowsOf ns g).Nodup := (h.ids.of_map _).filter _
  have he : (db.without r.id).rowsOf ns g = (db.rowsOf ns g).filter fun x => !(x.id == r.id) := by
    unfold CacheDb.rowsOf CacheDb.without CacheDb.deleteWhere
    rw [List.filter_filter, List.filter_filter]
    apply List.filter_congr
    intro x _
    by_cases e : x.id = r.id
    · simp [e]
    · simp [e]
  rw [he]
  have h1 : (db.rowsOf ns g).filter (fun x => x.id == r.id) = [r] := by
    refine List.perm_singleton.mp ((List.perm_ext_iff_of_nodup (hn.filter _) (by simp)).mpr ?_)
    intro x
    rw [List.mem_filter, List.mem_singleton]
    constructor
    · intro hex
      obtain ⟨hx, e⟩ := hex
      exact eq_of_id h.ids (List.mem_of_mem_filter hx) hmem (by simpa using e)
    · rintro rfl
      exact ⟨hr, by simp⟩
  have h2 := List.filter_append_perm (fun x : EntryRow => x.id == r.id) (db.rowsOf ns g)
  rw [h1] at h2
  exact h2

/-! ### the count of excess keys -/

theorem wrapI64_of_inI64 {x : Int} (h : inI64 x) : wrapI64 x = x := by
  unfold inI64 i64Min i64Max at h
  unfold wrapI64
  omega

theorem asKeys_none (h : store.limits.maxKeys = none) (x : Int) : store.asKeys x = x := by
  unfold CacheStore.asKeys
  rw [h]

theorem excessKeys_none (h : store.limits.maxKeys = none) (n : Int) : store.excessKeys n = 0 := by
  unfold CacheStore.excessKeys
  rw [h]

theorem asKeys_excess {m : Int} (hm : store.limits.maxKeys = some m) (n d : Int) :
    store.asKeys (store.excessKeys n - d) = store.excessKeys (n - d) := by
  unfold CacheStore.excessKeys CacheStore.asKeys
  simp only [hm]
  split
  · unfold wrapI64
    omega
  · omega

theorem CacheStore.PositiveLimits.exactOn (h : store.PositiveLimits) (n : Int) :
    store.ExactOn n := by
  intro m hm hneg
  have := h.1 m hm
  omega

theorem CacheStore.ExactOn.mono {n n' : Int} (h : store.ExactOn n) (hle : n' ≤ n) :
    store.ExactOn n' := by
  intro m hm hneg
  have := h m hm hneg
  omega

theorem excessKeys_exact {n m : Int} (hm : store.limits.maxKeys = some m) (h : store.ExactOn n)
    (hn : 0 ≤ n) : store.excessKeys n = n - m := by
  unfold CacheStore.excessKeys CacheStore.asKeys
  simp only [hm]
  split
  · rename_i hneg
    have hmax := h m hm hneg
    refine wrapI64_of_inI64 ⟨?_, hmax⟩
    unfold i64Min
    omega
  · rfl

theorem halts_iff_fits {rows : List EntryRow} (h : store.ExactOn rows.length) :
    store.halts rows ↔ store.fits rows := by
  have hb : store.overBytes (sumSizes rows) = false ↔
      ∀ b, store.limits.maxBytes = some b → sumSizes rows ≤ b := by
    refine ⟨overBytes_false, fun hle => ?_⟩
    unfold CacheStore.overBytes
    cases hb : store.limits.maxBytes with
    | none => rfl
    | some b => simpa using hle b hb
  have hk : store.excessKeys rows.length ≤ 0 ↔
      ∀ m, store.limits.maxKeys = some m → (rows.length : Int) ≤ m := by
    cases hm : store.limits.maxKeys with
    | none => simp [excessKeys_none hm]
    | some m =>
      rw [excessKeys_exact hm h (Int.natCast_nonneg _)]
      simp only [Option.some.injEq, forall_eq']
      omega
  exact and_congr hk hb

/-- what the loop knows of the tables: the two stop conditions are up to date -/
structure CacheStore.Counts (store : CacheStore) (db : CacheDb) (ns : String) (g : Int)
    (excess : Int) (heavy : Bool) : Prop where
  keys : ∀ m, store.limits.maxKeys = some m → excess = store.excessKeys (db.rowsOf ns g).length
  nokeys : store.limits.maxKeys = none → excess ≤ 0
  bytes : heavy = store.overBytes (sumSizes (db.rowsOf ns g))

section
variable {excess : Int} {heavy : Bool}

theorem CacheStore.Counts.halts_iff (h : store.Counts db ns g excess heavy) :
    store.halts (db.rowsOf ns g) ↔ ¬ (excess > 0 ∨ heavy = true) := by
  have hk : store.excessKeys (db.rowsOf ns g).length ≤ 0 ↔ ¬ excess > 0 := by
    cases hm : store.limits.maxKeys with
    | none =>
      have := h.nokeys hm
      rw [excessKeys_none hm]
      omega
    | some m =>
      rw [h.keys m hm]
      omega
  rw [CacheStore.halts, hk, ← h.bytes, not_or, Bool.not_eq_true]

theorem CacheStore.Counts.fits (h : store.Counts db ns g excess heavy) (hpos : store.PositiveLimits)
    (hc : ¬ (excess > 0 ∨ heavy = true)) : store.fits (db.rowsOf ns g) :=
  (halts_iff_fits (hpos.exactOn _)).mp (h.halts_iff.mpr hc)

theorem CacheStore.Counts.nonempty (h : store.Counts db ns g excess heavy)
    (hpos : store.PositiveLimits) (hc : excess > 0 ∨ heavy = true) : db.rowsOf ns g ≠ [] := by
  intro hnil
  have hb := h.bytes
  rw [hnil] at hb
  have hf : heavy = false := hb.trans (overBytes_zero hpos)
  rcases hc with hc | hc
  · cases hm : store.limits.maxKeys with
    | none =>
      have := h.nokeys hm
      omega
    | some m =>
      have h1 := h.keys m hm
      have h2 := hpos.1 m hm
      rw [hnil, excessKeys_exact hm (hpos.exactOn _) (Int.natCast_nonneg _), List.length_nil] at h1
      omega
  · rw [hf] at hc
    cases hc

/-- the tables after one eviction -/
def CacheDb.evictRow (db : CacheDb) (id : Int) : CacheDb :=
  { db.without id with counters := db.counters.add .evictions 1 }

theorem CacheDb.Ok.evictRow (h : db.Ok) (id : Int) : (db.evictRow id).Ok := h.deleted _ rfl rfl rfl

/-- one round: the victim goes, and the conditions are up to date again -/
theorem evictLoop_round (h : db.Ok) (htx : db.txs = []) (hcount : store.Counts db ns g excess heavy)
    (hc : excess > 0 ∨ heavy = true) (hne : db.rowsOf ns g ≠ []) (rounds : Nat) :
    ∃ r ∈ db.rowsOf ns g, ∃ heavy', db.victim ns g = some r.id ∧
      store.Counts (db.evictRow r.id) ns g (store.asKeys (excess - 1)) heavy' ∧
      (store.evictLoop ns g (rounds + 1) excess heavy).alone s c db
        = (store.evictLoop ns g rounds (store.asKeys (excess - 1)) heavy').alone s c
          (db.evictRow r.id) := by
  cases hv : db.victim ns g with
  | none => exact absurd (victim_none hv) hne
  | some id =>
    obtain ⟨r, hr, rfl⟩ := victim_spec hv
    have hmem := List.mem_of_mem_filter hr
    have hone := count_id h hmem
    have hperm := rowsOf_without h hr
    have hd : CacheStmt.exec s c (.deleteIds [r.id]) db = some (1, db.without r.id) := by
      simp only [CacheStmt.exec, CacheDb.blocked, htx]
      show some (db.deleteWhere fun x => [r.id].contains x.id) = _
      rw [← hone]
      rfl
    have hvict : CacheStmt.exec s c (.victim ns g) db = some (some r.id, db) := by
      show some (db.victim ns g, db) = _
      rw [hv]
    have hev : (evictOne ns g).alone s c db = some (.ok 1, db.without r.id) := by
      unfold evictOne
      rw [alone_query hvict]
      exact Prog.run_exec_of _ hd
    have hrows : (db.evictRow r.id).rowsOf ns g = (db.without r.id).rowsOf ns g := rfl
    have hstill : (store.stillOver ns g heavy).alone s c (db.evictRow r.id)
        = some (.ok (store.overBytes (sumSizes ((db.without r.id).rowsOf ns g))),
          db.evictRow r.id) := by
      unfold CacheStore.stillOver
      cases hb : store.limits.maxBytes with
      | some b => rfl
      | none =>
        have h1 : heavy = false := by
          rw [hcount.bytes]
          unfold CacheStore.overBytes
          rw [hb]
        have h2 : store.overBytes (sumSizes ((db.without r.id).rowsOf ns g)) = false := by
          unfold CacheStore.overBytes
          rw [hb]
        rw [h1, h2]
        rfl
    refine ⟨r, hr, store.overBytes (sumSizes ((db.without r.id).rowsOf ns g)), rfl,
      ⟨fun m hm => ?_, fun hm => ?_, rfl⟩, ?_⟩
    · have h1 := hcount.keys m hm
      have h2 := hperm.length_eq
      rw [List.length_cons] at h2
      rw [hrows, h1, asKeys_excess hm, ← h2]
      push_cast
      rw [Int.add_sub_cancel]
    · have := hcount.nokeys hm
      rw [asKeys_none hm]
      omega
    · have hunf : store.evictLoop ns g (rounds + 1) excess heavy
          = (do let deleted ← evictOne ns g
                if deleted = 0 then pure ()
                else do
                  query (.incrementCounter .evictions deleted)
                  let overBytes ← store.stillOver ns g heavy
                  store.evictLoop ns g rounds (store.asKeys (excess - deleted)) overBytes
              : CacheProg Unit) := by
        show (if excess > 0 ∨ heavy = true then _ else _) = _
        rw [if_pos hc]
      rw [hunf, alone_bind_ok hev, if_neg (by decide)]
      exact alone_bind_ok hstill

/-- the loop ends within the limits, and it ends if it may go as many rounds as there are rows -/
theorem evictLoop_spec (hpos : store.PositiveLimits) (rounds : Nat) (h : db.Ok)
    (htx : db.txs = []) (hcount : store.Counts db ns g excess heavy) :
    (∀ p, (store.evictLoop ns g rounds excess heavy).alone s c db = some p →
      p.1 = .ok () ∧ store.fits (p.2.rowsOf ns g) ∧ p.2.namespaces = db.namespaces) ∧
    ((db.rowsOf ns g).length ≤ rounds →
      ∃ p, (store.evictLoop ns g rounds excess heavy).alone s c db = some p) := by
  induction rounds generalizing db excess heavy with
  | zero =>
    by_cases hc : excess > 0 ∨ heavy = true
    · have hne := hcount.nonempty hpos hc
      have hrun : (store.evictLoop ns g 0 excess heavy).alone s c db = none := by
        unfold CacheStore.evictLoop
        rw [if_pos hc]
        rfl
      rw [hrun]
      refine ⟨fun p hp => (by cases hp), fun hle => ?_⟩
      exact absurd (List.length_eq_zero_iff.mp (Nat.le_zero.mp hle)) hne
    · have hrun : (store.evictLoop ns g 0 excess heavy).alone s c db = some (.ok (), db) := by
        unfold CacheStore.evictLoop
        rw [if_neg hc]
        rfl
      rw [hrun]
      refine ⟨fun p hp => ?_, fun _ => ⟨_, rfl⟩⟩
      cases hp
      exact ⟨rfl, hcount.fits hpos hc, rfl⟩
  | succ rounds ih =>
    by_cases hc : excess > 0 ∨ heavy = true
    · obtain ⟨r, hr, heavy', -, hcount', hrun⟩ := evictLoop_round (s := s) (c := c)
        h htx hcount hc (hcount.nonempty hpos hc) rounds
      obtain ⟨h1, h2⟩ := ih (h.evictRow r.id) htx hcount'
      rw [hrun]
      refine ⟨fun p hp => ?_, fun hle => h2 ?_⟩
      · obtain ⟨hp1, hp2, hp3⟩ := h1 p hp
        exact ⟨hp1, hp2, hp3⟩
      · have h3 := (rowsOf_without h hr).length_eq
        have h4 : (db.evictRow r.id).rowsOf ns g = (db.without r.id).rowsOf ns g := rfl
        rw [List.length_cons] at h3
        rw [h4]
        omega
    · have hrun : (store.evictLoop ns g (rounds + 1) excess heavy).alone s c db
          = some (.ok (), db) := by
        unfold CacheStore.evictLoop
        rw [if_neg hc]
        rfl
      rw [hrun]
      refine ⟨fun p hp => ?_, fun _ => ⟨_, rfl⟩⟩
      cases hp
      exact ⟨rfl, hcount.fits hpos hc, rfl⟩

end

/-! ## `enforce_capacity` -/

theorem doomedIds_nil {rows : List EntryRow} (limit : Nat)
    (h : ∀ r ∈ rows, r.expired c.now = false) : doomedIds rows limit c = [] := by
  have h1 : rows.filter (·.expired c.now) = [] := by
    rw [List.filter_eq_nil_iff]
    intro r hr
    simp [h r hr]
  unfold doomedIds
  rw [h1]
  simp

theorem alone_sweepExpired_none (htx : db.txs = []) (limit : Nat)
    (hall : ∀ r ∈ db.entries, r.expired c.now = false) :
    (sweepExpired limit).alone s c db = some (.ok 0, db) := by
  have hd : CacheStmt.exec s c (.doomed limit) db = some (.ok [], db) := by
    have hl : ¬ ((limit : Int) < 0) := by omega
    rw [← doomedIds_nil limit hall]
    simp [CacheStmt.exec, CacheDb.doomed, doomedIds, hl]
  have hx : CacheStmt.exec s c (.deleteIds []) db = some (0, db) := by
    simp only [CacheStmt.exec, CacheDb.blocked, htx]
    show some (db.deleteWhere fun r => ([] : List Int).contains r.id) = _
    simp [CacheDb.deleteWhere]
  unfold sweepExpired
  rw [alone_query hd, orFail_ok, Prog.bind_ok, alone_query hx]
  rfl

/-- `enforce_capacity` ends with the sweep if anything has expired -/
theorem alone_enforce_swept (htx : db.txs = []) (hx : ∃ r ∈ db.entries, r.expired c.now = true)
    (store : CacheStore) (ns : String) :
    ∃ db', (∀ rounds, (store.enforceCapacity rounds ns).alone s c db = some (.ok (), db')) ∧
      db'.entries = unswept db.entries 1000 c ∧ db'.namespaces = db.namespaces ∧ db'.txs = [] ∧
      db'.nextEntryId = db.nextEntryId := by
  obtain ⟨db', hsweep, he⟩ := alone_sweepExpired (s := s) (c := c) htx 1000
  refine ⟨db', fun rounds => ?_, he⟩
  have hp : ((db.entries.countP fun r => (doomedIds db.entries 1000 c).contains r.id : Nat) : Int)
      > 0 := by
    have := (sweeps_iff 1000 (by decide)).mpr hx
    omega
  unfold CacheStore.enforceCapacity
  show (sweepExpired (1000 : Nat) >>= _ : CacheProg Unit).alone s c db = _
  rw [alone_bind_ok hsweep, if_pos hp]
  rfl

/-- else it goes on to the eviction loop -/
theorem alone_enforce_unswept (htx : db.txs = []) (hall : ∀ r ∈ db.entries, r.expired c.now = false)
    (hg : db.generationOf ns = some g) (rounds : Nat) :
    (store.enforceCapacity rounds ns).alone s c db
      = (store.evictLoop ns g rounds (store.excessKeys ((db.rowsOf ns g).length : Int))
          (store.overBytes (sumSizes (db.rowsOf ns g)))).alone s c db := by
  have hs : CacheStmt.exec s c (.selectGeneration ns) db = some (some g, db) := by
    show some (db.generationOf ns, db) = _
    rw [hg]
  have hu : CacheStmt.exec s c (.usage ns g) db
      = some ((((db.rowsOf ns g).length : Int), sumSizes (db.rowsOf ns g)), db) := rfl
  unfold CacheStore.enforceCapacity
  show (sweepExpired (1000 : Nat) >>= _ : CacheProg Unit).alone s c db = _
  rw [alone_bind_ok (alone_sweepExpired_none htx 1000 hall), if_neg (by decide)]
  exact (alone_query hs).trans (alone_query hu)

theorem counts_usage (store : CacheStore) (db : CacheDb) (ns : String) (g : Int) :
    store.Counts db ns g (store.excessKeys ((db.rowsOf ns g).length : Int))
      (store.overBytes (sumSizes (db.rowsOf ns g))) := by
  refine ⟨fun _ _ => rfl, fun hm => ?_, rfl⟩
  rw [excessKeys_none hm]

/-- `enforce_capacity` alone: if anything has expired it only sweeps, and else it evicts -/
theorem enforce_spec (hpos : store.PositiveLimits) (rounds : Nat) (h : db.Ok) (htx : db.txs = [])
    (hg : db.generationOf ns = some g) :
    (∀ p, (store.enforceCapacity rounds ns).alone s c db = some p →
      p.1 = .ok () ∧ p.2.namespaces = db.namespaces ∧
      ((∃ r ∈ db.entries, r.expired c.now = true) → p.2.entries = unswept db.entries 1000 c) ∧
      ((∀ r ∈ db.entries, r.expired c.now = false) → store.fits (p.2.rowsOf ns g))) ∧
    ((db.rowsOf ns g).length ≤ rounds →
      ∃ p, (store.enforceCapacity rounds ns).alone s c db = some p) := by
  by_cases hx : ∃ r ∈ db.entries, r.expired c.now = true
  · obtain ⟨db₁, hrun, he, hn, -⟩ := alone_enforce_swept (s := s) htx hx store ns
    rw [hrun rounds]
    refine ⟨fun p hp => ?_, fun _ => ⟨_, rfl⟩⟩
    cases hp
    refine ⟨rfl, hn, fun _ => he, fun hall => ?_⟩
    obtain ⟨r, hr, hr'⟩ := hx
    rw [hall r hr] at hr'
    cases hr'
  · have hall : ∀ r ∈ db.entries, r.expired c.now = false := by
      intro r hr
      cases hr' : r.expired c.now with
      | false => rfl
      | true => exact absurd ⟨r, hr, hr'⟩ hx
    obtain ⟨h1, h2⟩ := evictLoop_spec (s := s) (c := c) hpos rounds h htx
      (counts_usage store db ns g)
    rw [alone_enforce_unswept htx hall hg rounds]
    refine ⟨fun p hp => ?_, h2⟩
    obtain ⟨hp1, hp2, hp3⟩ := h1 p hp
    exact ⟨hp1, hp3, fun hx' => absurd hx' hx, fun _ => hp2⟩

/-! ## after a write -/

/-- the namespace stays within the limits: no other row has expired, or what the sweep of at most
1000 expired rows leaves has room for the new value -/
def CacheStore.HasRoom (store : CacheStore) (db : CacheDb) (c : CacheCtx) (ns key : String)
    (v : Bytes) : Prop :=
  let g := (db.generationOf ns).getD 0
  let others := db.others ns g (store.hashKey key)
  (∀ r ∈ others, r.expired c.now = false) ∨
    store.within (((unswept others 1000 c).filter (·.isIn ns g)).length + 1)
      (sumSizes ((unswept others 1000 c).filter (·.isIn ns g)) + v.length)

theorem sumSizes_perm {a b : List EntryRow} (h : a.Perm b) : sumSizes a = sumSizes b :=
  (h.map _).sum_eq

section
variable {keyHash key : String} {r : EntryRow}

theorem doomedIds_wrote (hw : db.Wrote db' ns g keyHash r) (hlive : r.expired c.now = false)
    (limit : Nat) : doomedIds db'.entries limit c = doomedIds (db.others ns g keyHash) limit c := by
  have h1 : db'.entries.filter (·.expired c.now)
      = (db.others ns g keyHash).filter (·.expired c.now) := by
    rw [← hw.others]
    unfold CacheDb.others
    rw [List.filter_filter]
    apply List.filter_congr
    intro x hx
    cases hxe : x.expired c.now with
    | false => rfl
    | true =>
      rcases List.mem_cons.mp (hw.rows.mem_iff.mp hx) with rfl | hx'
      · rw [hlive] at hxe
        cases hxe
      · have := (List.mem_filter.mp hx').2
        rw [this]
        rfl
  unfold doomedIds
  rw [h1]

theorem unswept_wrote (h' : db'.Ok) (hw : db.Wrote db' ns g keyHash r)
    (hlive : r.expired c.now = false) (limit : Nat) :
    (unswept db'.entries limit c).Perm (r :: unswept (db.others ns g keyHash) limit c) := by
  have hr : r ∈ db'.entries := hw.rows.mem_iff.mpr List.mem_cons_self
  have hnot : r.id ∉ doomedIds db'.entries limit c := by
    intro hd
    rw [expired_of_doomed h' hr hd] at hlive
    cases hlive
  have h1 := hw.rows.filter fun x => !(doomedIds db'.entries limit c).contains x.id
  rw [List.filter_cons_of_pos (by simpa using hnot)] at h1
  unfold unswept
  rw [← doomedIds_wrote hw hlive limit]
  exact h1

end

/-- the end of a write: it is within the limits exactly when there was room -/
theorem written_spec (hpos : store.PositiveLimits) (rounds : Nat) {keyHash key : String} {v : Bytes}
    {e : Option Time} {r : EntryRow} (hg : db.generationOf ns = some g)
    (hw : db.Wrote db' ns g keyHash r) (h' : db'.Ok) (hr : r.Holds ns g keyHash key v e)
    (hlive : r.expired c.now = false) :
    (∀ p, (store.written rounds ns).alone s c db' = some p → p.1 = .ok () ∧
      (store.fits (p.2.currentRows ns) ↔
        (∀ x ∈ db.others ns g keyHash, x.expired c.now = false) ∨
        store.within (((unswept (db.others ns g keyHash) 1000 c).filter (·.isIn ns g)).length + 1)
          (sumSizes ((unswept (db.others ns g keyHash) 1000 c).filter (·.isIn ns g)) + v.length))) ∧
    (db.entries.length < rounds → ∃ p, (store.written rounds ns).alone s c db' = some p) := by
  have hok : ({ db' with counters := db'.counters.add .writes 1 } : CacheDb).Ok :=
    h'.congr rfl rfl rfl
  have hg' : ({ db' with counters := db'.counters.add .writes 1 } : CacheDb).generationOf ns
      = some g := by
    unfold CacheDb.generationOf at hg ⊢
    rw [← hg, ← hw.namespaces]
  obtain ⟨h1, h2⟩ := enforce_spec (s := s) (c := c) hpos rounds hok hw.txs hg'
  have hrun : (store.written rounds ns).alone s c db'
      = (store.enforceCapacity rounds ns).alone s c
        { db' with counters := db'.counters.add .writes 1 } := rfl
  have hin : r.isIn ns g = true := by
    have := (EntryRow.isKey_iff.mp hr.key).1
    unfold EntryRow.isAt at this
    exact (Bool.and_eq_true_iff.mp this).1
  rw [hrun]
  refine ⟨fun p hp => ?_, fun hlt => h2 ?_⟩
  · obtain ⟨hp1, hn, hsw, hev⟩ := h1 p hp
    refine ⟨hp1, ?_⟩
    have hcur : p.2.currentRows ns = p.2.rowsOf ns g := by
      have : p.2.generationOf ns = some g := by
        unfold CacheDb.generationOf at hg' ⊢
        rw [hn]
        exact hg'
      unfold CacheDb.currentRows
      rw [this]
    rw [hcur]
    by_cases hx : ∀ x ∈ db.others ns g keyHash, x.expired c.now = false
    · have hall : ∀ x ∈ db'.entries, x.expired c.now = false := by
        intro x hx'
        rcases List.mem_cons.mp (hw.rows.mem_iff.mp hx') with rfl | hx'
        · exact hlive
        · exact hx x hx'
      exact ⟨fun _ => .inl hx, fun _ => hev hall⟩
    · have hsome : ∃ x ∈ db'.entries, x.expired c.now = true := by
        rw [not_forall] at hx
        obtain ⟨x, hx⟩ := hx
        rw [Classical.not_imp, Bool.not_eq_false] at hx
        exact ⟨x, hw.rows.mem_iff.mpr (List.mem_cons_of_mem _ hx.1), hx.2⟩
      have hperm : (p.2.rowsOf ns g).Perm
          (r :: (unswept (db.others ns g keyHash) 1000 c).filter (·.isIn ns g)) := by
        unfold CacheDb.rowsOf
        rw [hsw hsome]
        have h3 := (unswept_wrote h' hw hlive 1000).filter (·.isIn ns g)
        rw [List.filter_cons_of_pos (by exact hin)] at h3
        exact h3
      have hlen : ((p.2.rowsOf ns g).length : Int)
          = ((unswept (db.others ns g keyHash) 1000 c).filter (·.isIn ns g)).length + 1 := by
        rw [hperm.length_eq, List.length_cons]
        omega
      have hsum : sumSizes (p.2.rowsOf ns g)
          = sumSizes ((unswept (db.others ns g keyHash) 1000 c).filter (·.isIn ns g))
              + v.length := by
        rw [sumSizes_perm hperm]
        unfold sumSizes
        rw [List.map_cons, List.sum_cons, hr.size, Int.add_comm]
      unfold CacheStore.fits
      rw [hlen, hsum]
      exact ⟨fun hf => .inr hf, fun hf => hf.resolve_left hx⟩
  · have h3 : (db'.rowsOf ns g).length ≤ db'.entries.length := List.length_filter_le _ _
    have h4 := hw.rows.length_eq
    have h5 : (db.others ns g keyHash).length ≤ db.entries.length := List.length_filter_le _ _
    rw [List.length_cons] at h4
    show (db'.rowsOf ns g).length ≤ rounds
    omega

end

/-! ## the writes -/

/-- a program that writes the value `v` at its key, hands back `out` and enforces the capacity -/
def Writes {α : Type} (s : Nat) (c : CacheCtx) (store : CacheStore) (rounds : Nat) (db : CacheDb)
    (ns key : String) (p : CacheProg α) (v : Bytes) (out : α) : Prop :=
  ∃ db₁ r e, (db.ensureNamespace ns c.now).Wrote db₁ ns ((db.generationOf ns).getD 0)
      (store.hashKey key) r ∧
    r.Holds ns ((db.generationOf ns).getD 0) (store.hashKey key) key v e ∧
    r.expired c.now = false ∧ db₁.Ok ∧
    p.alone s c db = (store.written rounds ns >>= fun _ => pure out : CacheProg α).run
      (CacheStmt.exec s c) db₁

section
variable {s : Nat} {c : CacheCtx} {db : CacheDb} {store : CacheStore} {rounds : Nat}
variable {ns key : String} {ttl : Option Int}

theorem ensure_ok (h : db.Ok) (ns : String) (now : Time) : (db.ensureNamespace ns now).Ok := by
  unfold CacheDb.ensureNamespace
  split
  · exact h
  · exact h.congr rfl rfl rfl

theorem ensure_entries (db : CacheDb) (ns : String) (now : Time) :
    (db.ensureNamespace ns now).entries = db.entries := by
  unfold CacheDb.ensureNamespace
  split <;> rfl

theorem ensure_txs (db : CacheDb) (ns : String) (now : Time) :
    (db.ensureNamespace ns now).txs = db.txs := by
  unfold CacheDb.ensureNamespace
  split <;> rfl

theorem ensure_next (db : CacheDb) (ns : String) (now : Time) :
    (db.ensureNamespace ns now).nextEntryId = db.nextEntryId := by
  unfold CacheDb.ensureNamespace
  split <;> rfl

theorem not_expired_of_ttl {r : EntryRow} {now : Time} (hv : validateWrite ns key ttl = .ok ())
    (he : r.expiresAt = expiryOf now ttl) : r.expired now = false := by
  unfold EntryRow.expired
  rw [he]
  cases httl : ttl with
  | none => rfl
  | some n =>
    have hpos : 0 < n := by
      unfold validateWrite at hv
      cases h1 : validateNamespace ns with
      | error e => rw [h1] at hv; cases hv
      | ok _ =>
        rw [h1] at hv
        cases h2 : validateCacheKey key with
        | error e => rw [h2] at hv; cases hv
        | ok _ =>
          rw [h2] at hv
          have hv' : validateTtlSeconds ttl = .ok () := hv
          rw [httl] at hv'
          unfold validateTtlSeconds at hv'
          by_contra hn
          simp [not_lt.mp hn] at hv'
    show decide (now + seconds n ≤ now) = false
    have h3 : (0 : Int) < seconds n := by
      unfold seconds
      omega
    simp only [decide_eq_false_iff_not]
    exact fun hle => absurd (Int.le_of_add_le_add_left
      (by simpa using hle : now + seconds n ≤ now + 0))
      (not_le.mpr h3)

/-- a program that writes the row `r` at its key, hands back `out` and enforces the capacity -/
def WritesRow {α : Type} (s : Nat) (c : CacheCtx) (store : CacheStore) (rounds : Nat) (db : CacheDb)
    (ns key : String) (p : CacheProg α) (r : EntryRow) (out : α) : Prop :=
  ∃ db₁, (db.ensureNamespace ns c.now).Wrote db₁ ns ((db.generationOf ns).getD 0)
      (store.hashKey key) r ∧ db₁.Ok ∧
    p.alone s c db = (store.written rounds ns >>= fun _ => pure out : CacheProg α).run
      (CacheStmt.exec s c) db₁

theorem WritesRow.writes {α : Type} {p : CacheProg α} {r : EntryRow} {out : α} {v : Bytes}
    {e : Option Time} (h : WritesRow s c store rounds db ns key p r out)
    (hr : r.Holds ns ((db.generationOf ns).getD 0) (store.hashKey key) key v e)
    (hl : r.expired c.now = false) : Writes s c store rounds db ns key p v out := by
  obtain ⟨db₁, hw, hok, hrun⟩ := h
  exact ⟨db₁, r, e, hw, hr, hl, hok, hrun⟩

theorem upserted_ensure (db : CacheDb) (ns : String) (now : Time) (g : Int) (keyHash key : String)
    (v : Bytes) (ttl : Option Int) :
    (db.ensureNamespace ns now).upserted ns g keyHash key v ttl now
      = db.upserted ns g keyHash key v ttl now := by
  unfold CacheDb.upserted
  rw [ensure_entries, ensure_next]

theorem set_writesRow (store : CacheStore) (rounds : Nat) (h : db.Ok) (htx : db.txs = [])
    (hv : validateWrite ns key ttl = .ok ()) (hb : Bindable c.now key ttl) (v : Bytes) :
    WritesRow s c store rounds db ns key (store.set rounds ns key v ttl)
      (db.upserted ns ((db.generationOf ns).getD 0) (store.hashKey key) key v ttl c.now) () := by
  have h₁ := ensure_ok h ns c.now
  have ht₁ := (ensure_txs db ns c.now).trans htx
  obtain ⟨db₁, hx, hw⟩ := alone_upsertEntry (s := s) (c := c) h₁ ht₁ ns
    ((db.generationOf ns).getD 0) (store.hashKey key) key v hb.ttl
  rw [upserted_ensure] at hw
  refine ⟨db₁, hw, CacheStmt.exec_ok h₁ hx, (alone_start hv _).trans ?_⟩
  rw [bindKey_ok hb.key]
  refine (alone_query hx).trans ?_
  show (store.written rounds ns).run (CacheStmt.exec s c) db₁ = _
  rw [Prog.run_bind]
  cases hrun : (store.written rounds ns).run (CacheStmt.exec s c) db₁ with
  | none => rfl
  | some p =>
    obtain ⟨r, d⟩ := p
    cases r with
    | error e => rfl
    | ok u => rfl

/-- how PostgreSQL refuses parameters that it does not take -/
def refusal (key : String) : PgAppError :=
  PgAppError.ofSqlx (if storable key then .outOfRange "timestamp" else .invalidText)

theorem refusal_unbound (hkey : storable key = false) :
    refusal key = PgAppError.ofSqlx .invalidText := by
  simp [refusal, hkey]

theorem refusal_unfit (hkey : storable key = true) :
    refusal key = PgAppError.ofSqlx (.outOfRange "timestamp") := by
  simp [refusal, hkey]

/-- an atomic write computes its change before the expiry, and after it has sent the key -/
def atomicRefusal (key : String) (change : PgAppResult (Bytes × α)) : PgAppError :=
  match storable key, change with
  | true, .error e => e
  | _, _ => refusal key

theorem set_declined (store : CacheStore) (db : CacheDb) (rounds : Nat)
    (hv : validateWrite ns key ttl = .ok ()) (hb : ¬ Bindable c.now key ttl) (v : Bytes) :
    ∃ d, (store.set rounds ns key v ttl).alone s c db = some (.error (refusal key), d) ∧
      (db.ensureNamespace ns c.now).Spared d := by
  cases hkey : storable key with
  | false =>
    refine ⟨db.ensureNamespace ns c.now, (alone_start hv _).trans ?_, .inl rfl⟩
    rw [bindKey_error hkey, refusal_unbound hkey]
    rfl
  | true =>
    have hfits : ¬ TtlFits c.now ttl := fun hfits => hb ⟨hkey, hfits⟩
    refine ⟨(db.ensureNamespace ns c.now).skipId, (alone_start hv _).trans ?_, .inr rfl⟩
    rw [bindKey_ok hkey, refusal_unfit hkey]
    exact (alone_query (exec_upsertEntry_unfit hfits)).trans rfl

theorem setNx_declined (store : CacheStore) (rounds : Nat) (htx : db.txs = [])
    (hv : validateWrite ns key ttl = .ok ()) (hb : ¬ Bindable c.now key ttl) (v : Bytes) :
    ∃ d, (store.setNx rounds ns key v ttl).alone s c db = some (.error (refusal key), d) ∧
      (db.ensureNamespace ns c.now).Spared d := by
  have ht₁ := (ensure_txs db ns c.now).trans htx
  cases hkey : storable key with
  | false =>
    rw [refusal_unbound hkey]
    exact ⟨_, (alone_start hv _).trans (alone_bind_error
      (alone_insertAbsent_unbound ht₁ hkey v ttl)),
      .inl rfl⟩
  | true =>
    have hfits : ¬ TtlFits c.now ttl := fun hfits => hb ⟨hkey, hfits⟩
    rw [refusal_unfit hkey]
    exact ⟨_, (alone_start hv _).trans (alone_bind_error
      (alone_insertAbsent_unfit ht₁ hkey v hfits)),
      .inr rfl⟩

/-- a `set_nx` that finds its unique key taken -/
theorem setNx_taken (store : CacheStore) (rounds : Nat) (h : db.Ok) (htx : db.txs = [])
    (hv : validateWrite ns key ttl = .ok ()) (hb : Bindable c.now key ttl) (v : Bytes)
    (hc : ∃ x ∈ db.entries, x.isAt ns ((db.generationOf ns).getD 0) (store.hashKey key) = true ∧
      (x.isKey ns ((db.generationOf ns).getD 0) (store.hashKey key) key &&
        x.expired c.now) = false) :
    ∃ db', (store.setNx rounds ns key v ttl).alone s c db = some (.ok false, db') := by
  rw [← ensure_entries db ns c.now] at hc
  have hx := alone_insertAbsent_taken (s := s) (ensure_ok h ns c.now)
    ((ensure_txs db ns c.now).trans htx) hb.key hc v hb.ttl
  exact ⟨_, (alone_start hv _).trans (alone_bind_ok hx)⟩

/-- else it inserts -/
theorem setNx_writesRow (store : CacheStore) (rounds : Nat) (h : db.Ok) (htx : db.txs = [])
    (hv : validateWrite ns key ttl = .ok ()) (hb : Bindable c.now key ttl) (v : Bytes)
    (hc : ¬ ∃ x ∈ db.entries, x.isAt ns ((db.generationOf ns).getD 0) (store.hashKey key) = true ∧
      (x.isKey ns ((db.generationOf ns).getD 0) (store.hashKey key) key &&
        x.expired c.now) = false) :
    WritesRow s c store rounds db ns key (store.setNx rounds ns key v ttl)
      (newEntry db.nextEntryId ns ((db.generationOf ns).getD 0) (store.hashKey key) key v ttl c.now)
      true := by
  have h₁ := ensure_ok h ns c.now
  rw [← ensure_entries db ns c.now] at hc
  obtain ⟨db₁, hx, hw⟩ := alone_insertAbsent_new (s := s) h₁
    ((ensure_txs db ns c.now).trans htx) hb.key hc v hb.ttl
  rw [ensure_next] at hw
  exact ⟨db₁, hw, CacheProg.run_ok h₁ hx, (alone_start hv _).trans (alone_bind_ok hx)⟩

/-- the value an atomic write finds -/
def CacheStore.valueAt (store : CacheStore) (db : CacheDb) (now : Time) (ns key : String) :
    Option Bytes :=
  (db.liveRow ns ((db.generationOf ns).getD 0) (store.hashKey key) key now).map (·.valueBytes)

/-- the row an atomic write leaves -/
def CacheDb.changed (db : CacheDb) (ns : String) (g : Int) (keyHash key : String) (v : Bytes)
    (ttl : Option Int) (preserve : Bool) (now : Time) : EntryRow :=
  match db.liveRow ns g keyHash key now with
  | some r => r.withValue v ttl preserve now
  | none => newEntry db.nextEntryId ns g keyHash key v ttl now

/-- when that row expires -/
def CacheDb.changedExpiry (db : CacheDb) (ns : String) (g : Int) (keyHash key : String)
    (ttl : Option Int) (preserve : Bool) (now : Time) : Option Time :=
  match db.liveRow ns g keyHash key now with
  | some r => if ttl.isNone && preserve then r.expiresAt else expiryOf now ttl
  | none => expiryOf now ttl

theorem changed_holds (db : CacheDb) (ns : String) (g : Int) (keyHash key : String) (v : Bytes)
    (ttl : Option Int) (preserve : Bool) (now : Time) :
    (db.changed ns g keyHash key v ttl preserve now).Holds ns g keyHash key v
      (db.changedExpiry ns g keyHash key ttl preserve now) := by
  unfold CacheDb.changed CacheDb.changedExpiry
  cases hr : db.liveRow ns g keyHash key now with
  | some r => exact withValue_holds (CacheDb.liveRow_spec hr).2.1 v now
  | none => exact newEntry_holds _ v now

theorem changed_not_expired {now : Time} (hv : validateWrite ns key ttl = .ok ()) (db : CacheDb)
    (g : Int) (keyHash : String) (v : Bytes) (preserve : Bool) :
    (db.changed ns g keyHash key v ttl preserve now).expired now = false := by
  unfold CacheDb.changed
  cases hr : db.liveRow ns g keyHash key now with
  | none => exact not_expired_of_ttl hv rfl
  | some r =>
    by_cases hp : (ttl.isNone && preserve) = true
    · have he : (r.withValue v ttl preserve now).expiresAt = r.expiresAt := if_pos hp
      have hl := (CacheDb.liveRow_spec hr).2.2
      unfold EntryRow.expired at hl ⊢
      simp only [he]
      exact hl
    · exact not_expired_of_ttl hv (if_neg hp)

section
variable {α : Type} {f : Option Bytes → PgAppResult (Bytes × α)} {preserve : Bool}

theorem liveRow_ensure (db : CacheDb) (ns : String) (now : Time) (g : Int) (keyHash key : String) :
    (db.ensureNamespace ns now).liveRow ns g keyHash key now = db.liveRow ns g keyHash key now := by
  unfold CacheDb.liveRow
  rw [ensure_entries]

/-- parameters that PostgreSQL does not take, or a change that fails: an error and no change -/
theorem atomic_declined (store : CacheStore) (rounds : Nat) (h : db.Ok) (htx : db.txs = [])
    (hv : validateWrite ns key ttl = .ok ()) (hb : ¬ Bindable c.now key ttl) (preserve : Bool)
    (f : Option Bytes → PgAppResult (Bytes × α)) :
    ∃ d, (store.atomicWrite rounds ns key ttl preserve f).alone s c db
        = some (.error (atomicRefusal key (f (store.valueAt db c.now ns key))), d) ∧
      (db.ensureNamespace ns c.now).Spared d := by
  have h₁ := ensure_ok h ns c.now
  have ht₁ := (ensure_txs db ns c.now).trans htx
  unfold atomicRefusal CacheStore.valueAt
  rw [← liveRow_ensure]
  cases hkey : storable key with
  | false =>
    rw [refusal_unbound hkey]
    exact ⟨_, (alone_start hv _).trans (alone_bind_error (alone_changeValue_unbound ht₁ hkey)),
      .inl rfl⟩
  | true =>
    have hfits : ¬ TtlFits c.now ttl := fun hfits => hb ⟨hkey, hfits⟩
    cases hf : f (((db.ensureNamespace ns c.now).liveRow ns ((db.generationOf ns).getD 0)
        (store.hashKey key) key c.now).map (·.valueBytes)) with
    | error e =>
      have hx := alone_changeValue_fail (s := s) h₁ ht₁ hkey hf ttl preserve
      exact ⟨_, (alone_start hv _).trans (alone_bind_error hx), .inl rfl⟩
    | ok p =>
      obtain ⟨d, hx, hd⟩ := alone_changeValue_unfit (s := s) h₁ ht₁ hkey hf hfits preserve
      rw [refusal_unfit hkey]
      exact ⟨d, (alone_start hv _).trans (alone_bind_error hx), hd⟩

/-- an atomic write whose change fails leaves every entry as it was -/
theorem atomic_fails (store : CacheStore) (rounds : Nat) (h : db.Ok) (htx : db.txs = [])
    (hv : validateWrite ns key ttl = .ok ()) (hkey : storable key = true) {e : PgAppError}
    (hf : f (store.valueAt db c.now ns key) = .error e) :
    (store.atomicWrite rounds ns key ttl preserve f).alone s c db
      = some (.error e, db.ensureNamespace ns c.now) := by
  unfold CacheStore.valueAt at hf
  rw [← liveRow_ensure] at hf
  have hx := alone_changeValue_fail (s := s) (ensure_ok h ns c.now)
    ((ensure_txs db ns c.now).trans htx) hkey hf ttl preserve
  exact (alone_start hv _).trans (alone_bind_error hx)

/-- so does one whose unique key is taken by another key -/
theorem atomic_collides (store : CacheStore) (rounds : Nat) (h : db.Ok) (htx : db.txs = [])
    (hv : validateWrite ns key ttl = .ok ()) (hb : Bindable c.now key ttl)
    (hc : db.Collides ns ((db.generationOf ns).getD 0) (store.hashKey key) key)
      {v : Bytes} {out : α}
    (hf : f (store.valueAt db c.now ns key) = .ok (v, out)) (preserve : Bool) :
    ∃ e db', (store.atomicWrite rounds ns key ttl preserve f).alone s c db = some (.error e, db') ∧
      db'.entries = db.entries := by
  obtain ⟨hnone, hx⟩ := (conflict_iff_collides h c.now).mpr hc
  unfold CacheStore.valueAt at hf
  rw [hnone] at hf
  rw [← ensure_entries db ns c.now] at hx
  rw [← liveRow_ensure] at hnone
  obtain ⟨e, hrun⟩ := alone_changeValue_conflict (s := s) (ensure_ok h ns c.now)
    ((ensure_txs db ns c.now).trans htx) hb.key hnone hx hf hb.ttl preserve
  exact ⟨e, _, (alone_start hv _).trans (alone_bind_error hrun), ensure_entries db ns c.now⟩

/-- else it writes -/
theorem atomic_writesRow (store : CacheStore) (rounds : Nat) (h : db.Ok) (htx : db.txs = [])
    (hv : validateWrite ns key ttl = .ok ()) (hb : Bindable c.now key ttl)
    (hc : ¬ db.Collides ns ((db.generationOf ns).getD 0) (store.hashKey key) key)
      {v : Bytes} {out : α}
    (hf : f (store.valueAt db c.now ns key) = .ok (v, out)) :
    WritesRow s c store rounds db ns key (store.atomicWrite rounds ns key ttl preserve f)
      (db.changed ns ((db.generationOf ns).getD 0) (store.hashKey key) key v ttl preserve c.now)
      out := by
  have h₁ := ensure_ok h ns c.now
  have ht₁ := (ensure_txs db ns c.now).trans htx
  unfold CacheStore.valueAt at hf
  unfold CacheDb.changed
  cases hr : db.liveRow ns ((db.generationOf ns).getD 0) (store.hashKey key) key c.now with
  | some r =>
    rw [hr] at hf
    rw [← liveRow_ensure] at hr
    obtain ⟨db₁, hx, hw⟩ := alone_changeValue_found (s := s) h₁ ht₁ hb.key hr hf hb.ttl preserve
    exact ⟨db₁, hw, CacheProg.run_ok h₁ hx, (alone_start hv _).trans (alone_bind_ok hx)⟩
  | none =>
    rw [hr] at hf
    have hfree := fun hx => hc ((conflict_iff_collides h c.now).mp ⟨hr, hx⟩)
    rw [← ensure_entries db ns c.now] at hfree
    rw [← liveRow_ensure] at hr
    obtain ⟨db₁, hx, hw⟩ := alone_changeValue_absent (s := s) h₁ ht₁ hb.key hr hfree hf hb.ttl
      preserve
    rw [ensure_next] at hw
    exact ⟨db₁, hw, CacheProg.run_ok h₁ hx, (alone_start hv _).trans (alone_bind_ok hx)⟩

theorem atomic_writes (store : CacheStore) (rounds : Nat) (h : db.Ok) (htx : db.txs = [])
    (hv : validateWrite ns key ttl = .ok ()) (preserve : Bool)
    (f : Option Bytes → PgAppResult (Bytes × α)) :
    (∃ e db', (store.atomicWrite rounds ns key ttl preserve f).alone s c db
      = some (.error e, db')) ∨
    ∃ v out, f (store.valueAt db c.now ns key) = .ok (v, out) ∧
      Writes s c store rounds db ns key (store.atomicWrite rounds ns key ttl preserve f) v out := by
  by_cases hb : Bindable c.now key ttl
  · cases hf : f (store.valueAt db c.now ns key) with
    | error e => exact .inl ⟨e, _, atomic_fails store rounds h htx hv hb.key hf⟩
    | ok p =>
      by_cases hc : db.Collides ns ((db.generationOf ns).getD 0) (store.hashKey key) key
      · obtain ⟨e, db', hrun, -⟩ := atomic_collides (s := s) store rounds h htx hv hb hc hf preserve
        exact .inl ⟨e, db', hrun⟩
      · exact .inr ⟨p.1, p.2, rfl, (atomic_writesRow store rounds h htx hv hb hc hf).writes
          (changed_holds _ _ _ _ _ _ _ _ _) (changed_not_expired hv _ _ _ _ _)⟩
  · obtain ⟨d, hrun, -⟩ := atomic_declined (s := s) store rounds h htx hv hb preserve f
    exact .inl ⟨_, d, hrun⟩

end

end

/-! ## every write -/

/-- the value a write stores over the value it finds -/
def CacheOp.stored (op : CacheOp) (old : Option Bytes) : Option Bytes :=
  match op with
  | .set _ _ v _ | .setNx _ _ v _ | .getSet _ _ v _ => some v
  | .append _ _ v _ => some (old.getD [] ++ v)
  | .prepend _ _ v _ => some (v ++ old.getD [])
  | .increment _ _ _ _ | .decrement _ _ _ _ => (op.register old).toOption.bind (·.2)
  | _ => none

theorem stored_atomic {op : CacheOp} (h : op.atomic = true) (old : Option Bytes) :
    op.stored old = (op.register old).toOption.bind (·.2) := by
  cases op with
  | getSet _ _ _ _ | increment _ _ _ _ | decrement _ _ _ _ | append _ _ _ _ | prepend _ _ _ _ => rfl
  | set _ _ _ _ | setNx _ _ _ _ | get _ _ | mget _ _ | exists_ _ _ | delete _ _
  | invalidateNamespace _ | sweepExpired _ | stats => cases h

theorem CacheOp.Makes.stored {α : Type} {op : CacheOp} {f : Option Bytes → PgAppResult (Bytes × α)}
    {answer : α → CacheReturn} (hf : op.Makes f answer) (h : op.atomic = true)
      (old : Option Bytes) :
    op.stored old = (f old).toOption.map (·.1) := by
  rw [stored_atomic h, hf]
  cases f old with
  | error e => rfl
  | ok p => rfl

section
variable {s : Nat} {c : CacheCtx} {db : CacheDb} {store : CacheStore} {rounds : Nat}
variable {ns key : String} {α : Type}

theorem hasRoom_iff (v : Bytes) : store.HasRoom db c ns key v ↔
    (∀ x ∈ (db.ensureNamespace ns c.now).others ns ((db.generationOf ns).getD 0)
      (store.hashKey key),
      x.expired c.now = false) ∨
    store.within (((unswept ((db.ensureNamespace ns c.now).others ns ((db.generationOf ns).getD 0)
        (store.hashKey key)) 1000 c).filter (·.isIn ns ((db.generationOf ns).getD 0))).length + 1)
      (sumSizes ((unswept ((db.ensureNamespace ns c.now).others ns ((db.generationOf ns).getD 0)
        (store.hashKey key)) 1000 c).filter (·.isIn ns ((db.generationOf ns).getD 0)))
        + v.length) := by
  have h : (db.ensureNamespace ns c.now).others ns ((db.generationOf ns).getD 0) (store.hashKey key)
      = db.others ns ((db.generationOf ns).getD 0) (store.hashKey key) := by
    unfold CacheDb.others
    rw [ensure_entries]
  rw [h]
  exact Iff.rfl

/-- what is claimed of a call: with enough rounds it returns, and if it returns well (and has
created what it was to create) the namespace is within the limits exactly when there was room -/
def CapacityOf (s : Nat) (c : CacheCtx) (store : CacheStore) (rounds : Nat) (db : CacheDb)
    (ns key : String) (p : CacheProg CacheReturn) (stored : Option Bytes) : Prop :=
  (db.entries.length < rounds → ∃ q, p.alone s c db = some q) ∧
    ∀ ret db', p.alone s c db = some (.ok ret, db') → ret ≠ .bool false →
      ∃ v, stored = some v ∧ (store.fits (db'.currentRows ns) ↔ store.HasRoom db c ns key v)

theorem capacityOf_error {p : CacheProg CacheReturn} {e : PgAppError} {db' : CacheDb}
    (hp : p.alone s c db = some (.error e, db')) (stored : Option Bytes) :
    CapacityOf s c store rounds db ns key p stored := by
  refine ⟨fun _ => ⟨_, hp⟩, fun ret db' h => ?_⟩
  rw [hp] at h
  cases h

theorem Writes.capacityOf {p : CacheProg α} {v : Bytes} {out : α} (hpos : store.PositiveLimits)
    (hw : Writes s c store rounds db ns key p v out) (answer : α → CacheReturn) :
    CapacityOf s c store rounds db ns key (p >>= fun a => pure (answer a)) (some v) := by
  obtain ⟨db₁, r, e, hwrote, hr, hlive, hok, hrun⟩ := hw
  have hg : (db.ensureNamespace ns c.now).generationOf ns = some ((db.generationOf ns).getD 0) := by
    rw [generationOf_ensure, if_pos rfl]
  obtain ⟨h1, h2⟩ := written_spec (s := s) hpos rounds hg hwrote hok hr hlive
  rw [ensure_entries] at h2
  have hall : ∀ q, (store.written rounds ns).alone s c db₁ = some q → q.1 = .ok () →
      (p >>= fun a => pure (answer a)).run (CacheStmt.exec s c) db
          = some (.ok (answer out), q.2) := by
    intro q hq hok
    obtain ⟨r', d⟩ := q
    obtain rfl : r' = .ok () := hok
    have h3 : p.run (CacheStmt.exec s c) db = some (.ok out, d) :=
      hrun.trans (Prog.run_bind_ok _ hq)
    rw [Prog.run_bind_ok _ h3]
    rfl
  cases hq : (store.written rounds ns).alone s c db₁ with
  | none =>
    have h3 : (p >>= fun a => pure (answer a)).run (CacheStmt.exec s c) db = none := by
      rw [Prog.run_bind]
      have h4 : p.run (CacheStmt.exec s c) db = none := by
        refine hrun.trans ?_
        rw [Prog.run_bind, show (store.written rounds ns).run (CacheStmt.exec s c) db₁ = none from hq]
        rfl
      rw [h4]
      rfl
    refine ⟨fun hlt => ?_, fun ret db' h => ?_⟩
    · obtain ⟨q, hq'⟩ := h2 hlt
      rw [hq] at hq'
      cases hq'
    · rw [show CacheProg.alone s c _ db = none from h3] at h
      cases h
  | some q =>
    obtain ⟨hq1, hq2⟩ := h1 q hq
    have h3 := hall q hq hq1
    refine ⟨fun _ => ⟨_, h3⟩, fun ret db' h _ => ⟨v, rfl, ?_⟩⟩
    rw [show CacheProg.alone s c _ db = _ from h3] at h
    cases h
    rw [hasRoom_iff]
    exact hq2

end

/-- **Capacity.**  A write that runs alone in a reachable state returns if it may evict every row.
Right after it has returned, the rows of its namespace are within the limits if and only if no other
row had expired, or the sweep of at most 1000 expired rows leaves room for the new value. -/
theorem cache_capacity {σ : CacheSys} (hr : CacheReach σ) (hq : σ.db.txs = []) (s : Nat)
    (c : CacheCtx) (call : CacheCall) (hpos : call.store.PositiveLimits) {ns key : String}
    (hop : call.op.target = some (ns, key)) :
    (σ.db.entries.length < call.rounds → ∃ q, call.body.alone s c σ.db = some q) ∧
      ∀ ret db', call.body.alone s c σ.db = some (.ok ret, db') → ret ≠ .bool false →
        ∃ v, call.op.stored (call.store.valueAt σ.db c.now ns key) = some v ∧
          (call.store.fits (db'.currentRows ns) ↔ call.store.HasRoom σ.db c ns key v) := by
  obtain ⟨store, rounds, op⟩ := call
  have h := hr.ok
  show CapacityOf s c store rounds σ.db ns key _ _
  have hbad : ∀ {α : Type} {ttl : Option Int} {e : PgAppError} (k : Unit → CacheProg α)
      (answer : α → CacheReturn) (stored : Option Bytes), validateWrite ns key ttl = .error e →
      CapacityOf s c store rounds σ.db ns key
        ((Prog.check (validateWrite ns key ttl) >>= k) >>= fun a => pure (answer a)) stored := by
    intro α ttl e k answer stored hv
    rw [hv]
    exact capacityOf_error rfl stored
  have hatomic : ∀ {α : Type} {ttl : Option Int} (preserve : Bool)
      (f : Option Bytes → PgAppResult (Bytes × α)) (answer : α → CacheReturn),
      CapacityOf s c store rounds σ.db ns key
        (store.atomicWrite rounds ns key ttl preserve f >>= fun a => pure (answer a))
        ((f (store.valueAt σ.db c.now ns key)).toOption.map (·.1)) := by
    intro α ttl preserve f answer
    cases hv : validateWrite ns key ttl with
    | error e => exact hbad _ answer _ hv
    | ok u =>
      rcases atomic_writes (s := s) store rounds h hq hv preserve f with
        ⟨e, db', hx⟩ | ⟨v, out, hf, hw⟩
      · exact capacityOf_error (Prog.run_bind_error _ hx) _
      · rw [hf]
        exact hw.capacityOf hpos answer
  by_cases hat : op.atomic = true
  · obtain ⟨ns', key', htarget, hcases⟩ := CacheCall.body_atomic ⟨store, rounds, op⟩ hat
    cases hop.symm.trans htarget
    rcases hcases with ⟨e, hbody, -⟩ | ⟨α, f, answer, hf, hbody⟩
    · rw [hbody]
      exact capacityOf_error rfl _
    · rw [hbody, hf.stored hat]
      exact hatomic op.preserves f answer
  cases op with
  | set ns' key' v ttl =>
    cases hop
    cases hv : validateWrite ns key ttl with
    | error e => exact hbad _ (fun _ => .unit) _ hv
    | ok u =>
      by_cases hb : Bindable c.now key ttl
      · exact ((set_writesRow store rounds h hq hv hb v).writes (upserted_holds _ _ _ _ _ _ _ _)
          (not_expired_of_ttl hv (upserted_holds _ _ _ _ _ _ _ _).expiry)).capacityOf hpos
            fun _ => .unit
      · obtain ⟨d, hx, -⟩ := set_declined (s := s) store σ.db rounds hv hb v
        exact capacityOf_error (Prog.run_bind_error _ hx) _
  | setNx ns' key' v ttl =>
    cases hop
    cases hv : validateWrite ns key ttl with
    | error e => exact hbad _ .bool _ hv
    | ok u =>
      by_cases hb : Bindable c.now key ttl
      · by_cases hc : ∃ x ∈ σ.db.entries,
            x.isAt ns ((σ.db.generationOf ns).getD 0) (store.hashKey key) = true ∧
            (x.isKey ns ((σ.db.generationOf ns).getD 0) (store.hashKey key) key && x.expired c.now)
              = false
        · obtain ⟨db', hx⟩ := setNx_taken (s := s) store rounds h hq hv hb v hc
          refine ⟨fun _ => ⟨_, Prog.run_bind_ok _ hx⟩, fun ret db₂ hrun hne => ?_⟩
          have h3 : CacheProg.alone s c (CacheCall.body ⟨store, rounds, .setNx ns key v ttl⟩) σ.db
              = some (.ok (.bool false), db') := Prog.run_bind_ok _ hx
          rw [h3] at hrun
          cases hrun
          exact absurd rfl hne
        · exact ((setNx_writesRow store rounds h hq hv hb v hc).writes (newEntry_holds _ v c.now)
            (not_expired_of_ttl hv rfl)).capacityOf hpos .bool
      · obtain ⟨d, hx, -⟩ := setNx_declined (s := s) store rounds hq hv hb v
        exact capacityOf_error (Prog.run_bind_error _ hx) _
  | getSet _ _ _ _ | increment _ _ _ _ | decrement _ _ _ _ | append _ _ _ _ | prepend _ _ _ _ =>
    exact absurd rfl hat
  | get _ _ | mget _ _ | exists_ _ _ | delete _ _ | invalidateNamespace _ | sweepExpired _ | stats =>
    cases hop

/-- SHA-256 of a few keys -/
def sampleHash (key : String) : String :=
  if key = "a" then "ca978112ca1bbdcafac231b39a23dc4da786eff8147c4e72b9807785afee48bb"
  else if key = "b" then "3e23e8160039594a33894f6564e1b1348bbd7a0088d42c4acb73eeaed59c009d"
  else if key = "x" then "2d711642b726b04401627ca9fbac32f5c8530fb1903cc4db02258717921a4881"
  else key

/-- a store that allows one key a namespace -/
def oneKey : CacheStore := ⟨⟨some 1, none⟩, sampleHash⟩

/-- and one that allows four bytes -/
def fourByteStore : CacheStore := ⟨⟨none, some 4⟩, sampleHash⟩

/-- the steps of one call without open ends: `call`, `n` statements, `ret` -/
def whole (s : Nat) (call : CacheCall) (c : CacheCtx) (n : Nat) : List (Act CacheCall CacheCtx) :=
  .call s call :: (List.replicate n (.stmt s c) ++ [.ret s])

/-- one key in each of two namespaces, the second for a second -/
def twoNamespaces : List (Act CacheCall CacheCtx) :=
  whole 0 ⟨oneKey, 5, .set "app" "a" [1] none⟩ ⟨0, id⟩ 8 ++
    whole 0 ⟨oneKey, 5, .set "other" "x" [1] (some 1)⟩ ⟨0, id⟩ 8

theorem twoNamespaces_reach : ∃ σ : CacheSys, CacheReach σ ∧ σ.db.txs = [] ∧
    ((CacheCall.body ⟨oneKey, 5, .set "app" "b" [2] none⟩).alone 0 ⟨5000000, id⟩ σ.db).map
      (fun p => (p.1.toOption.isSome, (p.2.currentRows "app").length)) = some (true, 2) ∧
    ((CacheCall.body ⟨oneKey, 5, .set "app" "b" [2] none⟩).alone 0 ⟨500000, id⟩ σ.db).map
      (fun p => (p.1.toOption.isSome, (p.2.currentRows "app").length)) = some (true, 1) := by
  have h : ((Sys.init CacheDb.empty).play CacheStmt.exec CacheCall.body twoNamespaces).map
      (fun σ : CacheSys => (σ.db.txs.isEmpty,
        ((CacheCall.body ⟨oneKey, 5, .set "app" "b" [2] none⟩).alone 0 ⟨5000000, id⟩ σ.db).map
          (fun p => (p.1.toOption.isSome, (p.2.currentRows "app").length)),
        ((CacheCall.body ⟨oneKey, 5, .set "app" "b" [2] none⟩).alone 0 ⟨500000, id⟩ σ.db).map
          (fun p => (p.1.toOption.isSome, (p.2.currentRows "app").length))))
      = some (true, some (true, 2), some (true, 1)) := by rfl
  obtain ⟨σ, hplay, heq⟩ := Option.map_eq_some_iff.mp h
  simp only [Prod.mk.injEq, List.isEmpty_iff] at heq
  exact ⟨σ, Sys.play_steps hplay, heq.1, heq.2.1, heq.2.2⟩

theorem oneKey_positive : oneKey.PositiveLimits := by
  refine ⟨fun m hm => ?_, fun b hb => (by cases hb)⟩
  obtain rfl : (1 : Int) = m := Option.some.inj hm
  decide

theorem cache_capacity_secondKey : ∃ σ : CacheSys, CacheReach σ ∧ σ.db.txs = [] ∧
    (σ.db.entries.length < 5 → ∃ q,
      (CacheCall.body ⟨oneKey, 5, .set "app" "b" [2] none⟩).alone 0 ⟨500000, id⟩ σ.db = some q) ∧
    ∀ ret db', (CacheCall.body ⟨oneKey, 5, .set "app" "b" [2] none⟩).alone 0 ⟨500000, id⟩ σ.db
        = some (.ok ret, db') → ret ≠ .bool false →
      ∃ v, CacheOp.stored (.set "app" "b" [2] none)
        (oneKey.valueAt σ.db 500000 "app" "b") = some v ∧
        (oneKey.fits (db'.currentRows "app") ↔ oneKey.HasRoom σ.db ⟨500000, id⟩ "app" "b" v) := by
  obtain ⟨σ, hr, hq, -, -⟩ := twoNamespaces_reach
  exact ⟨σ, hr, hq, cache_capacity hr hq 0 ⟨500000, id⟩ ⟨oneKey, 5, .set "app" "b" [2] none⟩
    oneKey_positive rfl⟩

/-- an expired row of another namespace is swept, and the limit of this one is not enforced -/
theorem cache_capacity_foreignExpired : ∃ σ : CacheSys, CacheReach σ ∧ σ.db.txs = [] ∧
    oneKey.PositiveLimits ∧ ∃ ret db',
      (CacheCall.body ⟨oneKey, 5, .set "app" "b" [2] none⟩).alone 0 ⟨5000000, id⟩ σ.db
        = some (.ok ret, db') ∧ ¬ oneKey.fits (db'.currentRows "app") := by
  obtain ⟨σ, hr, hq, hrun, -⟩ := twoNamespaces_reach
  obtain ⟨⟨r, db'⟩, hp, heq⟩ := Option.map_eq_some_iff.mp hrun
  simp only [Prod.mk.injEq] at heq
  refine ⟨σ, hr, hq, oneKey_positive, ?_⟩
  cases r with
  | error e => cases heq.1
  | ok ret =>
    refine ⟨ret, db', hp, fun hf => ?_⟩
    have h1 := hf.1 1 rfl
    rw [heq.2] at h1
    exact absurd h1 (by decide)

end PgApp
