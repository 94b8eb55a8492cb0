import PgApp.Cache.Capacity

/-!
# Eviction takes the shortest LRU prefix

With the rows of a namespace's current generation in the order of their use (`lruOrder`), the
eviction loop takes rows off the front until the rest fits.

* `ShortestPrefix`    the least number of elements to drop from a list until the rest fits, or all;
* `lruOrder_evictRow` after one round the order is the tail of what it was;
* `evictLoop_shortest`  what the loop leaves, by induction on its rounds;
* `enforce_shortest`    the same of `enforce_capacity`.

Main result: `cache_eviction_shortest`, for limits of either sign as long as `key_count - max` is an
i64 (`parse_optional_i64` lets only positive maxima through, for which it is).
-/

namespace PgApp
open Interleave CacheProg

/-! ## the shortest prefix -/

/-- `m` is the least number such that `rows` without its first `m` elements fits; all of them if
none is enough -/
structure ShortestPrefix {α : Type} (fits : List α → Prop) (rows : List α) (m : Nat) : Prop where
  bound : m ≤ rows.length
  least : ∀ k < m, ¬ fits (rows.drop k)
  enough : fits (rows.drop m) ∨ m = rows.length

namespace ShortestPrefix

section
variable {α : Type} {fits : List α → Prop} {a : α} {rows : List α} {m k : Nat}

theorem nil : ShortestPrefix fits [] 0 :=
    ⟨Nat.le_refl 0, fun _ h => absurd h (Nat.not_lt_zero _), .inr rfl⟩

theorem zero (h : fits rows) : ShortestPrefix fits rows 0 :=
  ⟨Nat.zero_le _, fun _ h => absurd h (Nat.not_lt_zero _), .inl h⟩

theorem cons (h : ¬ fits (a :: rows)) (S : ShortestPrefix fits rows m) :
    ShortestPrefix fits (a :: rows) (m + 1) := by
  refine ⟨Nat.succ_le_succ S.bound, fun k hk => ?_, ?_⟩
  · cases k with
    | zero => exact h
    | succ k => exact S.least k (Nat.lt_of_succ_lt_succ hk)
  · exact S.enough.imp id fun h => by rw [h, List.length_cons]

theorem eq_zero (S : ShortestPrefix fits rows m) (h : fits rows) : m = 0 := by
  by_contra hm
  exact S.least 0 (Nat.pos_of_ne_zero hm) h

theorem uncons (S : ShortestPrefix fits (a :: rows) m) (h : ¬ fits (a :: rows)) :
    ∃ k, m = k + 1 ∧ ShortestPrefix fits rows k := by
  cases m with
  | zero =>
    rcases S.enough with h1 | h1
    · exact absurd h1 h
    · cases h1
  | succ k =>
    refine ⟨k, rfl, Nat.le_of_succ_le_succ S.bound,
      fun j hj => S.least (j + 1) (Nat.succ_lt_succ hj), ?_⟩
    exact S.enough.imp id fun h => Nat.succ.inj h

theorem exists_shortest (fits : List α → Prop) (rows : List α) : ∃ m,
    ShortestPrefix fits rows m := by
  induction rows with
  | nil => exact ⟨0, nil⟩
  | cons a rows ih =>
    by_cases h : fits (a :: rows)
    · exact ⟨0, zero h⟩
    · obtain ⟨m, S⟩ := ih
      exact ⟨m + 1, S.cons h⟩

theorem congr {fits' : List α → Prop} (S : ShortestPrefix fits rows m)
    (h : ∀ k, fits (rows.drop k) ↔ fits' (rows.drop k)) : ShortestPrefix fits' rows m :=
  ⟨S.bound, fun k hk hf => S.least k hk ((h k).mpr hf), S.enough.imp (h m).mp id⟩

theorem fits_of_mem (S : ShortestPrefix fits rows m) (h : a ∈ rows.drop m) :
    fits (rows.drop m) := by
  rcases S.enough with hf | hm
  · exact hf
  · rw [hm, List.drop_length] at h
    cases h

end

end ShortestPrefix

/-! ## the order of use -/

instance : Std.Total usedBefore where
  total a b := by
    unfold usedBefore
    rcases lt_trichotomy a.lastAccessedAt b.lastAccessedAt with h | h | h
    · exact .inl (.inl h)
    · rcases le_total a.id b.id with h' | h'
      · exact .inl (.inr ⟨h, h'⟩)
      · exact .inr (.inr ⟨h.symm, h'⟩)
    · exact .inr (.inl h)

instance : IsTrans EntryRow usedBefore where
  trans a b c h1 h2 := by
    unfold usedBefore at h1 h2 ⊢
    rcases h1 with h1 | ⟨h1, h1'⟩
    · rcases h2 with h2 | ⟨h2, -⟩
      · exact .inl (lt_trans h1 h2)
      · exact .inl (h2 ▸ h1)
    · rcases h2 with h2 | ⟨h2, h2'⟩
      · exact .inl (h1 ▸ h2)
      · exact .inr ⟨h1.trans h2, le_trans h1' h2'⟩

theorem usedBefore_antisymm {a b : EntryRow} (h1 : usedBefore a b) (h2 : usedBefore b a) :
    a.id = b.id := by
  unfold usedBefore at h1 h2
  rcases h1 with h1 | ⟨h1, h1'⟩
  · rcases h2 with h2 | ⟨h2, -⟩
    · exact absurd (lt_trans h1 h2) (lt_irrefl _)
    · exact absurd h1 (h2 ▸ lt_irrefl _)
  · rcases h2 with h2 | ⟨-, h2'⟩
    · exact absurd h2 (h1 ▸ lt_irrefl _)
    · exact le_antisymm h1' h2'

/-- rows in the order of their use -/
def lruOrder (rows : List EntryRow) : List EntryRow := rows.insertionSort usedBefore

theorem lruOrder_perm (rows : List EntryRow) : (lruOrder rows).Perm rows :=
  List.perm_insertionSort usedBefore rows

theorem lruOrder_pairwise (rows : List EntryRow) : (lruOrder rows).Pairwise usedBefore :=
  List.pairwise_insertionSort usedBefore rows

theorem lruOrder_eq {rows l : List EntryRow} (hids : (rows.map (·.id)).Nodup) (hp : l.Perm rows)
    (hl : l.Pairwise usedBefore) : lruOrder rows = l := by
  refine List.Perm.eq_of_pairwise (fun a b ha hb h1 h2 => ?_) (lruOrder_pairwise rows) hl
    ((lruOrder_perm rows).trans hp.symm)
  exact eq_of_id hids ((lruOrder_perm rows).mem_iff.mp ha) (hp.mem_iff.mp hb)
    (usedBefore_antisymm h1 h2)

section
variable {s : Nat} {c : CacheCtx} {db : CacheDb} {store : CacheStore} {ns : String} {g : Int}

theorem rowsOf_ids (h : db.Ok) : ((db.rowsOf ns g).map (·.id)).Nodup :=
  h.ids.sublist (List.filter_sublist.map _)

theorem halts_perm {a b : List EntryRow} (h : a.Perm b) : store.halts a ↔ store.halts b := by
  unfold CacheStore.halts
  rw [h.length_eq, sumSizes_perm h]

theorem ShortestPrefix.fits_of_halts {rows : List EntryRow} {m : Nat}
    (S : ShortestPrefix store.halts rows m) (h : store.ExactOn rows.length) :
    ShortestPrefix store.fits rows m := by
  refine S.congr fun k => halts_iff_fits (h.mono ?_)
  rw [List.length_drop]
  omega

theorem halts_lruOrder (rows : List EntryRow) : store.halts (lruOrder rows) ↔ store.halts rows :=
  halts_perm (lruOrder_perm rows)

theorem victim_head {r : EntryRow} (h : db.Ok) (hr : r ∈ db.rowsOf ns g)
    (hv : db.victim ns g = some r.id) :
    ∃ rest, lruOrder (db.rowsOf ns g) = r :: rest := by
  obtain ⟨x, hx, he⟩ := Option.map_eq_some_iff.mp hv
  have hx' : (lruOrder (db.rowsOf ns g)).head? = some x := hx
  have hmem : x ∈ db.rowsOf ns g := (lruOrder_perm _).mem_iff.mp (List.mem_of_head? hx')
  obtain rfl : x = r := eq_of_id (rowsOf_ids h) hmem hr he
  exact ⟨_, (List.cons_head?_tail hx').symm⟩

theorem lruOrder_evictRow (h : db.Ok) {r : EntryRow} {rest : List EntryRow}
    (hr : r ∈ db.rowsOf ns g) (ho : lruOrder (db.rowsOf ns g) = r :: rest) :
    lruOrder ((db.evictRow r.id).rowsOf ns g) = rest := by
  have hsorted : (r :: rest).Pairwise usedBefore := ho ▸ lruOrder_pairwise _
  refine lruOrder_eq (rowsOf_ids (h.evictRow r.id)) ?_ hsorted.of_cons
  have h1 : (r :: rest).Perm (r :: (db.evictRow r.id).rowsOf ns g) := by
    rw [← ho]
    exact (lruOrder_perm _).trans (rowsOf_without h hr).symm
  exact h1.cons_inv

/-! ## the loop -/

/-- the tables after these rows were evicted -/
def CacheDb.evicted (db : CacheDb) (gone : List EntryRow) : CacheDb :=
  { db with
    entries := db.entries.filter fun r => !(gone.map (·.id)).contains r.id
    counters := db.counters.add .evictions gone.length }

theorem evicted_nil (db : CacheDb) : db.evicted [] = db := by
  simp [CacheDb.evicted, CacheCounters.add]

theorem evicted_cons (db : CacheDb) (r : EntryRow) (gone : List EntryRow) :
    (db.evictRow r.id).evicted gone = db.evicted (r :: gone) := by
  have he : (db.evictRow r.id).entries.filter (fun x => !(gone.map (·.id)).contains x.id)
      = db.entries.filter fun x => !((r :: gone).map (·.id)).contains x.id := by
    show (db.entries.filter fun x => !([r.id].contains x.id)).filter _ = _
    rw [List.filter_filter]
    refine List.filter_congr fun x _ => ?_
    simp only [List.map_cons, List.contains_cons, List.contains_nil, Bool.or_false, Bool.not_or]
    exact Bool.and_comm _ _
  have hk : (db.counters.add .evictions 1).add .evictions (gone.length : Nat)
      = db.counters.add .evictions ((r :: gone).length : Nat) := by
    simp only [CacheCounters.add, List.length_cons]
    congr 1
    push_cast
    omega
  unfold CacheDb.evicted
  rw [he]
  show CacheDb.mk _ _ ((db.counters.add .evictions 1).add _ _) _ _ = _
  rw [hk]
  rfl

theorem evictLoop_empty {excess : Int} {heavy : Bool} (hc : excess > 0 ∨ heavy = true)
    (hnil : db.rowsOf ns g = []) (htx : db.txs = []) (rounds : Nat) :
    (store.evictLoop ns g (rounds + 1) excess heavy).alone s c db = some (.ok (), db) := by
  have hv : CacheStmt.exec s c (.victim ns g) db = some (none, db) := by
    show some (db.victim ns g, db) = _
    unfold CacheDb.victim
    rw [hnil]
    rfl
  have hd : CacheStmt.exec s c (.deleteIds (none : Option Int).toList) db = some (0, db) := by
    have h0 : (db.entries.countP fun r => ([] : List Int).contains r.id) = 0 := by
      simp
    simp only [CacheStmt.exec, CacheDb.blocked, htx]
    show some (db.deleteWhere fun r => ([] : List Int).contains r.id) = _
    unfold CacheDb.deleteWhere
    rw [h0]
    simp
  have hev : (evictOne ns g).alone s c db = some (.ok 0, db) := by
    unfold evictOne
    rw [alone_query hv]
    exact Prog.run_exec_of _ hd
  have hunf : store.evictLoop ns g (rounds + 1) excess heavy
      = (do let deleted ← evictOne ns g
            if deleted = 0 then pure ()
            else do
              query (.incrementCounter .evictions deleted)
              let overBytes ← store.stillOver ns g heavy
              store.evictLoop ns g rounds (store.asKeys (excess - deleted)) overBytes
          : CacheProg Unit) := by
    show (if excess > 0 ∨ heavy = true then _ else _) = _
    rw [if_pos hc]
  rw [hunf, alone_bind_ok hev, if_pos rfl]
  rfl

/-- a namespace within its limits ends the loop -/
theorem evictLoop_stop {excess : Int} {heavy : Bool} (hcount : store.Counts db ns g excess heavy)
    (hc : ¬ (excess > 0 ∨ heavy = true)) {m : Nat}
    (S : ShortestPrefix store.halts (lruOrder (db.rowsOf ns g)) m) (rounds : Nat) :
    (store.evictLoop ns g rounds excess heavy).alone s c db
      = some (.ok (), db.evicted ((lruOrder (db.rowsOf ns g)).take m)) := by
  have hm : m = 0 := S.eq_zero ((halts_lruOrder _).mpr (hcount.halts_iff.mpr hc))
  rw [hm, List.take_zero, evicted_nil]
  cases rounds with
  | zero =>
    unfold CacheStore.evictLoop
    rw [if_neg hc]
    rfl
  | succ rounds =>
    unfold CacheStore.evictLoop
    rw [if_neg hc]
    rfl

/-- the loop takes the shortest prefix, and it ends if it may go one round more than there are
rows -/
theorem evictLoop_shortest (rounds : Nat) {excess : Int} {heavy : Bool} (h : db.Ok)
    (htx : db.txs = [])
    (hcount : store.Counts db ns g excess heavy) {m : Nat}
    (S : ShortestPrefix store.halts (lruOrder (db.rowsOf ns g)) m) :
    (∀ p, (store.evictLoop ns g rounds excess heavy).alone s c db = some p →
      p = (.ok (), db.evicted ((lruOrder (db.rowsOf ns g)).take m))) ∧
    ((db.rowsOf ns g).length < rounds →
      ∃ p, (store.evictLoop ns g rounds excess heavy).alone s c db = some p) := by
  induction rounds generalizing db excess heavy m with
  | zero =>
    refine ⟨fun p hp => ?_, fun hlt => absurd hlt (Nat.not_lt_zero _)⟩
    by_cases hc : excess > 0 ∨ heavy = true
    · have hrun : (store.evictLoop ns g 0 excess heavy).alone s c db = none := by
        unfold CacheStore.evictLoop
        rw [if_pos hc]
        rfl
      rw [hrun] at hp
      cases hp
    · rw [evictLoop_stop hcount hc S] at hp
      exact (Option.some.inj hp).symm
  | succ rounds ih =>
    by_cases hc : excess > 0 ∨ heavy = true
    · by_cases hnil : db.rowsOf ns g = []
      · rw [evictLoop_empty hc hnil htx rounds]
        refine ⟨fun p hp => ?_, fun _ => ⟨_, rfl⟩⟩
        cases hp
        rw [hnil]
        show _ = (_, db.evicted (([] : List EntryRow).take m))
        rw [List.take_nil, evicted_nil]
      · obtain ⟨r, hr, heavy', hv, hcount', hrun⟩ := evictLoop_round (s := s) (c := c)
          h htx hcount hc hnil rounds
        obtain ⟨rest, ho⟩ := victim_head h hr hv
        have ho' := lruOrder_evictRow h hr ho
        have hnot : ¬ store.halts (lruOrder (db.rowsOf ns g)) := fun hf =>
          hcount.halts_iff.mp ((halts_lruOrder _).mp hf) hc
        rw [ho] at S hnot
        obtain ⟨k, rfl, S'⟩ := S.uncons hnot
        have hlen : ((db.evictRow r.id).rowsOf ns g).length + 1 = (db.rowsOf ns g).length :=
          (rowsOf_without h hr).length_eq
        rw [hrun, ho, List.take_succ_cons, ← evicted_cons]
        rw [← ho'] at S' ⊢
        obtain ⟨h1, h2⟩ := ih (h.evictRow r.id) htx hcount' S'
        exact ⟨h1, fun hlt => h2 (by omega)⟩
    · rw [evictLoop_stop hcount hc S]
      refine ⟨fun p hp => ?_, fun _ => ⟨_, rfl⟩⟩
      exact (Option.some.inj hp).symm

/-! ## `enforce_capacity` -/

theorem mem_evicted (h : db.Ok) {gone : List EntryRow} (hgone : ∀ r ∈ gone, r ∈ db.entries)
    {r : EntryRow} : r ∈ (db.evicted gone).entries ↔ r ∈ db.entries ∧ r ∉ gone := by
  show r ∈ db.entries.filter _ ↔ _
  rw [List.mem_filter, List.contains_eq_mem, Bool.not_eq_true', decide_eq_false_iff_not,
    List.mem_map]
  refine and_congr_right fun hr => not_congr ?_
  constructor
  · intro hex
    obtain ⟨x, hx, he⟩ := hex
    rw [← eq_of_id h.ids (hgone x hx) hr he]
    exact hx
  · intro hx
    exact ⟨r, hx, rfl⟩

theorem currentRows_sublist (db : CacheDb) (ns : String) :
    (db.currentRows ns).Sublist db.entries := by
  unfold CacheDb.currentRows
  cases db.generationOf ns with
  | none => exact List.nil_sublist _
  | some g => exact List.filter_sublist

theorem currentRows_sub {r : EntryRow} (hr : r ∈ db.currentRows ns) : r ∈ db.entries :=
  (currentRows_sublist db ns).mem hr

theorem lruOrder_mem {rows : List EntryRow} {m : Nat} {r : EntryRow}
    (hr : r ∈ (lruOrder rows).take m) : r ∈ rows :=
  (lruOrder_perm rows).mem_iff.mp (List.mem_of_mem_take hr)

/-- `enforce_capacity` where nothing has expired -/
theorem enforce_shortest (h : db.Ok) (htx : db.txs = [])
    (hall : ∀ r ∈ db.entries, r.expired c.now = false) {m : Nat}
    (S : ShortestPrefix store.halts (lruOrder (db.currentRows ns)) m) (rounds : Nat) :
    (∀ p, (store.enforceCapacity rounds ns).alone s c db = some p →
      p = (.ok (), db.evicted ((lruOrder (db.currentRows ns)).take m))) ∧
    (db.entries.length < rounds → ∃ p, (store.enforceCapacity rounds ns).alone s c db
        = some p) := by
  unfold CacheDb.currentRows at S ⊢
  cases hg : db.generationOf ns with
  | none =>
    have hs : CacheStmt.exec s c (.selectGeneration ns) db = some (none, db) := by
      show some (db.generationOf ns, db) = _
      rw [hg]
    have hrun : (store.enforceCapacity rounds ns).alone s c db = some (.ok (), db) := by
      unfold CacheStore.enforceCapacity
      show (sweepExpired (1000 : Nat) >>= _ : CacheProg Unit).alone s c db = _
      rw [alone_bind_ok (alone_sweepExpired_none htx 1000 hall), if_neg (by decide)]
      exact alone_query hs
    rw [hrun]
    refine ⟨fun p hp => ?_, fun _ => ⟨_, rfl⟩⟩
    cases hp
    show _ = (_, db.evicted ((lruOrder []).take m))
    have hnil : (lruOrder []).take m = [] := List.take_nil
    rw [hnil, evicted_nil]
  | some g =>
    rw [hg] at S
    obtain ⟨h1, h2⟩ := evictLoop_shortest (s := s) (c := c) rounds h htx
      (counts_usage store db ns g) S
    rw [alone_enforce_unswept htx hall hg rounds]
    refine ⟨h1, fun hlt => h2 ?_⟩
    have hle : (db.rowsOf ns g).length ≤ db.entries.length := List.length_filter_le _ _
    omega

end

/-- what `enforce_capacity` of a namespace makes of the tables: once anything has expired, only
expired rows go; else the shortest prefix of the namespace's rows goes, and nothing more -/
structure CacheStore.Enforces (store : CacheStore) (db db' : CacheDb) (now : Time) (ns : String) :
    Prop where
  swept : (∃ r ∈ db.entries, r.expired now = true) →
    db'.entries.Sublist db.entries ∧ ∀ r ∈ db.entries, r ∉ db'.entries → r.expired now = true
  evicted : (∀ r ∈ db.entries, r.expired now = false) →
    ∃ m, ShortestPrefix store.fits (lruOrder (db.currentRows ns)) m ∧
      db'.entries.Sublist db.entries ∧
      (∀ r ∈ db.entries, r ∉ db'.entries ↔ r ∈ (lruOrder (db.currentRows ns)).take m) ∧
      db'.counters = db.counters.add .evictions m
  others : (∀ r ∈ db.entries, r.expired now = false) →
    ∀ r ∈ db.entries, r.namespace_ ≠ ns → r ∈ db'.entries

/-- **Eviction.**  `enforce_capacity` that runs alone ends and leaves the same tables however many
rounds it may go, under all limits whose `excess_keys` does not overflow. -/
theorem cache_eviction_shortest {db : CacheDb} (h : db.Ok) (htx : db.txs = []) (s : Nat)
    (c : CacheCtx)
    (store : CacheStore) (ns : String) (hmax : store.ExactOn (db.currentRows ns).length) :
    ∃ db', (∀ rounds p, (store.enforceCapacity rounds ns).alone s c db = some p →
      p = (.ok (), db')) ∧
      (∀ rounds, db.entries.length < rounds →
        ∃ p, (store.enforceCapacity rounds ns).alone s c db = some p) ∧
      store.Enforces db db' c.now ns := by
  by_cases hx : ∃ r ∈ db.entries, r.expired c.now = true
  · obtain ⟨db', hrun, he, hn, htx', -⟩ := alone_enforce_swept (s := s) htx hx store ns
    have T := unswept_tidied h 1000 he hn htx'
    have hnot : ¬ ∀ r ∈ db.entries, r.expired c.now = false := by
      obtain ⟨r, hr, hr'⟩ := hx
      intro hall
      rw [hall r hr] at hr'
      cases hr'
    refine ⟨db', fun rounds p hp => ?_, fun rounds _ => ⟨_, hrun rounds⟩,
      fun _ => ⟨?_, fun r hr hgone => ?_⟩, fun hall => absurd hall hnot,
        fun hall => absurd hall hnot⟩
    · rw [hrun rounds] at hp
      exact (Option.some.inj hp).symm
    · rw [he]
      exact List.filter_sublist
    · by_contra hr'
      exact hgone (T.live r hr (by simpa using hr'))
  · have hall : ∀ r ∈ db.entries, r.expired c.now = false := by
      intro r hr
      cases hr' : r.expired c.now with
      | false => rfl
      | true => exact absurd ⟨r, hr, hr'⟩ hx
    obtain ⟨m, S⟩ := ShortestPrefix.exists_shortest store.halts (lruOrder (db.currentRows ns))
    have hmax' : store.ExactOn (lruOrder (db.currentRows ns)).length := by
      rw [(lruOrder_perm _).length_eq]
      exact hmax
    have hcur : ∀ r ∈ (lruOrder (db.currentRows ns)).take m, r ∈ db.entries ∧
        r.namespace_ = ns := by
      intro r hr
      have hr' := lruOrder_mem hr
      unfold CacheDb.currentRows at hr'
      cases hg : db.generationOf ns with
      | none =>
        rw [hg] at hr'
        cases hr'
      | some g =>
        rw [hg] at hr'
        obtain ⟨h1, h2⟩ := List.mem_filter.mp hr'
        unfold EntryRow.isIn at h2
        exact ⟨h1, by simpa using (Bool.and_eq_true_iff.mp h2).1⟩
    have hmem := fun {r : EntryRow} => mem_evicted h (fun r hr => (hcur r hr).1) (r := r)
    refine ⟨db.evicted ((lruOrder (db.currentRows ns)).take m),
      fun rounds p hp => (enforce_shortest h htx hall S rounds).1 p hp,
      fun rounds hlt => (enforce_shortest h htx hall S rounds).2 hlt,
      fun hx' => absurd hx' hx, fun _ => ⟨m, S.fits_of_halts hmax', List.filter_sublist,
        fun r hr => ?_, ?_⟩,
      fun _ r hr hns => hmem.mpr ⟨hr, fun hr' => hns (hcur r hr').2⟩⟩
    · rw [hmem, not_and, Classical.not_not]
      exact ⟨fun hr' => hr' hr, fun hr' _ => hr'⟩
    · show db.counters.add .evictions (List.length _ : Nat) = _
      rw [List.length_take, Nat.min_eq_left S.bound]

/-- two keys of one namespace, set by a store without limits -/
def twoKeysSet : List (Act CacheCall CacheCtx) :=
  whole 0 ⟨⟨{}, sampleHash⟩, 5, .set "app" "a" [1] none⟩ ⟨0, id⟩ 8 ++
    whole 0 ⟨⟨{}, sampleHash⟩, 5, .set "app" "b" [2] none⟩ ⟨1, id⟩ 8

theorem twoKeysSet_reach : ∃ σ : CacheSys, CacheReach σ ∧ σ.db.txs = [] ∧
    (lruOrder (σ.db.currentRows "app")).map (·.cacheKey) = ["a", "b"] := by
  have h : ((Sys.init CacheDb.empty).play CacheStmt.exec CacheCall.body twoKeysSet).map
      (fun σ : CacheSys => (σ.db.txs.isEmpty,
        (lruOrder (σ.db.currentRows "app")).map (·.cacheKey))) = some (true, ["a", "b"]) := by rfl
  obtain ⟨σ, hplay, heq⟩ := Option.map_eq_some_iff.mp h
  simp only [Prod.mk.injEq, List.isEmpty_iff] at heq
  exact ⟨σ, Sys.play_steps hplay, heq.1, heq.2⟩

theorem cache_eviction_shortest_twoKeys : ∃ db : CacheDb, db.Ok ∧ db.txs = [] ∧
    (lruOrder (db.currentRows "app")).map (·.cacheKey) = ["a", "b"] ∧
    oneKey.ExactOn (db.currentRows "app").length ∧ ∃ db',
      (∀ rounds p, (oneKey.enforceCapacity rounds "app").alone 0 ⟨2, id⟩ db = some p →
        p = (.ok (), db')) ∧
      (∀ rounds, db.entries.length < rounds →
        ∃ p, (oneKey.enforceCapacity rounds "app").alone 0 ⟨2, id⟩ db = some p) ∧
      oneKey.Enforces db db' 2 "app" := by
  obtain ⟨σ, hr, htx, hkeys⟩ := twoKeysSet_reach
  have hmax : oneKey.ExactOn (σ.db.currentRows "app").length := by
    intro m hm hneg
    cases hm
    cases hneg
  exact ⟨σ.db, hr.ok, htx, hkeys, hmax,
    cache_eviction_shortest hr.ok htx 0 ⟨2, id⟩ oneKey "app" hmax⟩

/-- a store whose maximum is the least i64 -/
def leastKeys : CacheStore := ⟨{ maxKeys := some i64Min }, sampleHash⟩

/-- `1 - i64::MIN` wraps to a negative count, and the row stays -/
theorem cache_eviction_shortest_wraps : ∃ db : CacheDb, db.Ok ∧ db.txs = [] ∧
    (∃ r, db.entries = [r] ∧ r.expired 1 = false) ∧
    (leastKeys.enforceCapacity 5 "app").alone 0 ⟨1, id⟩ db = some (.ok (), db) ∧
    ¬ leastKeys.Enforces db db 1 "app" := by
  have h : ((Sys.init CacheDb.empty).play CacheStmt.exec CacheCall.body
        (whole 0 ⟨leastKeys, 5, .set "app" "a" [1] none⟩ ⟨0, id⟩ 8)).map
      (fun σ : CacheSys => (σ.db.txs.isEmpty, σ.db.entries.map (·.expiresAt),
        (lruOrder (σ.db.currentRows "app")).map (·.cacheKey)))
      = some (true, [none], ["a"]) := by rfl
  obtain ⟨σ, hplay, heq⟩ := Option.map_eq_some_iff.mp h
  simp only [Prod.mk.injEq, List.isEmpty_iff] at heq
  have hr : CacheReach σ := Sys.play_steps hplay
  obtain ⟨r, hrows, hexp⟩ := List.map_eq_singleton_iff.mp heq.2.1
  obtain ⟨x, hcur, -⟩ := List.map_eq_singleton_iff.mp heq.2.2
  have hx : x ∈ σ.db.entries := by
    apply (currentRows_sublist σ.db "app").mem
    rw [← (lruOrder_perm _).mem_iff, hcur]
    exact List.mem_singleton_self x
  have hlive : r.expired 1 = false := by
    unfold EntryRow.expired
    rw [hexp]
  have hall : ∀ y ∈ σ.db.entries, y.expired 1 = false := by
    intro y hy
    rw [hrows, List.mem_singleton] at hy
    rw [hy]
    exact hlive
  have hhalts : leastKeys.halts (lruOrder (σ.db.currentRows "app")) := by
    rw [hcur]
    exact ⟨(by decide : leastKeys.excessKeys 1 ≤ 0), rfl⟩
  obtain ⟨h1, h2⟩ := enforce_shortest (s := 0) (c := ⟨1, id⟩) hr.ok heq.1 hall
    (ShortestPrefix.zero hhalts) 5
  obtain ⟨p, hp⟩ := h2 (by rw [hrows, List.length_singleton]; omega)
  rw [List.take_zero, evicted_nil] at h1
  refine ⟨σ.db, hr.ok, heq.1, ⟨r, hrows, hlive⟩, hp.trans (congrArg some (h1 p hp)), fun hE => ?_⟩
  -- no rows at all fit, so the shortest prefix is the row
  obtain ⟨m, S, -, hgone, -⟩ := hE.evicted hall
  rcases S.enough with hf | hm
  · have hk := hf.1 i64Min rfl
    unfold i64Min at hk
    omega
  · have hin : x ∈ (lruOrder (σ.db.currentRows "app")).take m := by
      rw [hm, List.take_length, hcur]
      exact List.mem_singleton_self x
    exact (hgone x hx).mpr hin hx

end PgApp
