import PgApp.Cache.Sound
import PgApp.Server.AdminFrame
import PgApp.Server.PagedLists

/-!
# The figures of the cache

Four queries count the live rows of the current generation of a namespace: the two of `stats`, and
those of `list_cache_namespaces` and `list_cache_entries`.

* `CacheStore.hit`   what `get` returns at an instant, once no other transaction makes it wait;
* `Figures`          a count and a number of bytes, of the keys for which `get` hits;
* `liveKeys`         these keys, read off the rows that are counted (`figures_liveKeys`).

The pages of the two lists end where they should exactly if the page size is below `i64::MAX`
(`cache_figures`).
-/

namespace PgApp
open Interleave Paging CacheProg

/-! ## what `get` sees -/

/-- what `get` returns, once no transaction of another session makes it wait -/
def CacheStore.hit (store : CacheStore) (s : Nat) (c : CacheCtx) (db : CacheDb) (ns key : String) :
    Option Bytes :=
  match (store.get ns key).alone s c { db with txs := [] } with
  | some (.ok value, _) => value
  | _ => none

/-- `n` keys and `bytes` bytes are the keys for which `get` hits, and what it returns for them -/
structure Figures (hit : String → Option Bytes) (keys : List String) (n bytes : Int) : Prop where
  nodup : keys.Nodup
  mem : ∀ key, key ∈ keys ↔ (hit key).isSome = true
  count : n = keys.length
  bytes : bytes = (keys.map fun key => (((hit key).getD []).length : Int)).sum

/-- the keys of the live rows of a namespace -/
def CacheDb.liveKeys (db : CacheDb) (now : Time) (ns : String) : List String :=
  ((db.currentRows ns).filter (·.live now)).map (·.cacheKey)

/-- the usage of a namespace: 0 where `namespace_usage` has no entry -/
def CacheStats.usageOf (stats : CacheStats) (ns : String) : NamespaceUsage :=
  (stats.namespaceUsage.lookup ns).getD ⟨0, 0⟩

section
variable {s : Nat} {c : CacheCtx} {db : CacheDb} {store : CacheStore} {ns key : String}

theorem hit_unknown (hg : db.generationOf ns = none) : store.hit s c db ns key = none := by
  have hs : CacheStmt.exec s c (.selectGeneration ns) { db with txs := [] }
      = some (none, { db with txs := [] }) := by
    show some (db.generationOf ns, _) = _
    rw [hg]
  unfold CacheStore.hit CacheStore.get
  cases validateRead ns key with
  | error e => rfl
  | ok u =>
    show (match (CacheProg.query (.selectGeneration ns) >>= _ : CacheProg (Option Bytes)).alone s c
      { db with txs := [] } with | some (.ok value, _) => value | _ => none) = none
    rw [alone_query hs]
    rfl

theorem hit_eq {g : Int} (hv : validateRead ns key = .ok ()) (hkey : storable key = true)
    (hg : db.generationOf ns = some g) :
    store.hit s c db ns key
      = (db.liveRow ns g (store.hashKey key) key c.now).map (·.valueBytes) := by
  have hget : ∃ db', (store.get ns key).alone s c { db with txs := [] } = some
      (.ok ((db.liveRow ns g (store.hashKey key) key c.now).map (·.valueBytes)), db') :=
    alone_get store rfl hv hkey hg
  obtain ⟨db', hget⟩ := hget
  unfold CacheStore.hit
  rw [hget]

theorem hit_unbound {g : Int} (hkey : storable key = false) (hg : db.generationOf ns = some g) :
    store.hit s c db ns key = none := by
  have hs : CacheStmt.exec s c (.selectGeneration ns) { db with txs := [] }
      = some (some g, { db with txs := [] }) := by
    show some (db.generationOf ns, _) = _
    rw [hg]
  unfold CacheStore.hit CacheStore.get
  rw [bindKey_error hkey]
  cases validateRead ns key with
  | error e => rfl
  | ok u =>
    show (match (CacheProg.query (.selectGeneration ns) >>= _ : CacheProg (Option Bytes)).alone s c
      { db with txs := [] } with | some (.ok value, _) => value | _ => none) = none
    rw [alone_query hs]
    rfl

theorem hit_invalid {e : PgAppError} (hv : validateRead ns key = .error e) :
    store.hit s c db ns key = none := by
  unfold CacheStore.hit CacheStore.get
  rw [hv]
  rfl

/-! ## the rows that are counted -/

theorem generationOf_eq (hnames : db.NamesApart) {n : NamespaceRow} (hn : n ∈ db.namespaces) :
    db.generationOf n.name = some n.generation := by
  unfold CacheDb.generationOf
  cases hf : db.namespaces.find? (·.name == n.name) with
  | none =>
    have h := List.find?_eq_none.mp hf n hn
    simp at h
  | some m =>
    have hm : m.name = n.name := by simpa using List.find?_some hf
    have e : m = n := List.inj_on_of_nodup_map hnames (List.mem_of_find?_eq_some hf) hn hm
    rw [e]
    rfl

theorem generationOf_none (h : ns ∉ db.namespaces.map (·.name)) : db.generationOf ns = none := by
  unfold CacheDb.generationOf
  rw [Option.map_eq_none_iff, List.find?_eq_none]
  intro n hn e
  exact h (List.mem_map.mpr ⟨n, hn, beq_iff_eq.mp e⟩)

theorem currentRows_eq (hnames : db.NamesApart) {n : NamespaceRow} (hn : n ∈ db.namespaces) :
    db.currentRows n.name = db.rowsOf n.name n.generation := by
  unfold CacheDb.currentRows
  rw [generationOf_eq hnames hn]

theorem mem_currentRows {r : EntryRow} :
    r ∈ db.currentRows ns ↔ r ∈ db.entries ∧ r.namespace_ = ns ∧
      db.generationOf ns = some r.generation := by
  unfold CacheDb.currentRows
  cases hg : db.generationOf ns with
  | none => simp
  | some g =>
    unfold CacheDb.rowsOf EntryRow.isIn
    simp only [List.mem_filter, Bool.and_eq_true, beq_iff_eq, Option.some.injEq]
    constructor
    · intro h
      obtain ⟨h1, h2, h3⟩ := h
      exact ⟨h1, h2, h3.symm⟩
    · intro h
      obtain ⟨h1, h2, h3⟩ := h
      exact ⟨h1, h2, h3.symm⟩

variable (hok : db.Ok) (hsound : ∀ r ∈ db.entries, r.Sound store.hashKey)
include hok hsound

/-- `get` hits exactly the live rows -/
theorem hit_row {v : Bytes} : store.hit s c db ns key = some v ↔
    ∃ r ∈ db.currentRows ns, r.live c.now = true ∧ r.cacheKey = key ∧ r.valueBytes = v := by
  constructor
  · intro h
    cases hv : validateRead ns key with
    | error e =>
      rw [hit_invalid hv] at h
      cases h
    | ok u =>
      cases hg : db.generationOf ns with
      | none =>
        rw [hit_unknown hg] at h
        cases h
      | some g =>
        cases hbound : storable key with
        | false =>
          rw [hit_unbound hbound hg] at h
          cases h
        | true =>
          rw [hit_eq hv hbound hg] at h
          obtain ⟨r, hr, rfl⟩ := Option.map_eq_some_iff.mp h
          obtain ⟨hm, hk, he⟩ := hok.liveRow_iff.mp hr
          obtain ⟨hat, hkey⟩ := EntryRow.isKey_iff.mp hk
          have hu := EntryRow.isAt_iff.mp hat
          have hns : r.namespace_ = ns := congrArg (·.1) hu
          have hgen : r.generation = g := congrArg (·.2.1) hu
          refine ⟨r, mem_currentRows.mpr ⟨hm, hns, by rw [hg, hgen]⟩, ?_, hkey, rfl⟩
          unfold EntryRow.live
          rw [he]
          rfl
  · intro hex
    obtain ⟨r, hr, hlive, rfl, rfl⟩ := hex
    obtain ⟨hm, rfl, hg⟩ := mem_currentRows.mp hr
    have S := hsound r hm
    have hk : r.isKey r.namespace_ r.generation (store.hashKey r.cacheKey) r.cacheKey = true :=
      EntryRow.isKey_iff.mpr ⟨EntryRow.isAt_iff.mpr (by unfold EntryRow.uniq; rw [S.hashed]), rfl⟩
    have hexp : r.expired c.now = false := by
      unfold EntryRow.live at hlive
      simpa using hlive
    rw [hit_eq S.valid S.bound hg, hok.liveRow_iff.mpr ⟨hm, hk, hexp⟩]
    rfl

theorem mem_liveKeys : key ∈ db.liveKeys c.now ns ↔ (store.hit s c db ns key).isSome = true := by
  rw [Option.isSome_iff_exists]
  unfold CacheDb.liveKeys
  simp only [List.mem_map, List.mem_filter]
  constructor
  · intro h
    obtain ⟨r, ⟨hr, hlive⟩, rfl⟩ := h
    exact ⟨r.valueBytes, (hit_row hok hsound).mpr ⟨r, hr, hlive, rfl, rfl⟩⟩
  · intro h
    obtain ⟨v, hv⟩ := h
    obtain ⟨r, hr, hlive, hkey, -⟩ := (hit_row hok hsound).mp hv
    exact ⟨r, ⟨hr, hlive⟩, hkey⟩

theorem liveKeys_nodup (now : Time) : (db.liveKeys now ns).Nodup := by
  have hrows : ((db.currentRows ns).filter (·.live now)).Nodup := by
    refine List.Nodup.filter _ ?_
    unfold CacheDb.currentRows
    cases db.generationOf ns with
    | none => exact List.nodup_nil
    | some g => exact (hok.ids.of_map _).filter _
  refine hrows.map_on fun a ha b hb hkey => ?_
  obtain ⟨ha, hans, hag⟩ := mem_currentRows.mp (List.mem_of_mem_filter ha)
  obtain ⟨hb, hbns, hbg⟩ := mem_currentRows.mp (List.mem_of_mem_filter hb)
  refine hok.eq_of_uniq ha hb ?_
  unfold EntryRow.uniq
  rw [hans, hbns, Option.some.inj (hag.symm.trans hbg), (hsound a ha).hashed, (hsound b hb).hashed,
    hkey]

/-- **The figures of a namespace**: the rows counted, and their sizes, are what `get` sees. -/
theorem figures_liveKeys (ns : String) :
    Figures (store.hit s c db ns) (db.liveKeys c.now ns)
      ((db.currentRows ns).filter (·.live c.now)).length
      (sumSizes ((db.currentRows ns).filter (·.live c.now))) where
  nodup := liveKeys_nodup hok hsound c.now
  mem := fun _ => mem_liveKeys hok hsound
  count := by
    unfold CacheDb.liveKeys
    rw [List.length_map]
  bytes := by
    unfold CacheDb.liveKeys sumSizes
    rw [List.map_map]
    congr 1
    refine List.map_congr_left fun r hr => ?_
    obtain ⟨hr, hlive⟩ := List.mem_filter.mp hr
    have hv := (hit_row (s := s) (v := r.valueBytes) hok hsound).mpr ⟨r, hr, hlive, rfl, rfl⟩
    show r.sizeBytes = (((store.hit s c db ns r.cacheKey).getD []).length : Int)
    rw [hv, (hsound r (mem_currentRows.mp hr).1).size]
    rfl

end

/-! ## `stats` -/

/-- the entry that `stats` makes of the live rows of a namespace -/
def usageEntry (name : String) (rows : List EntryRow) : Option (String × NamespaceUsage) :=
  if rows.isEmpty then none else some (name, ⟨rows.length, sumSizes rows⟩)

section
variable (rowsOf : NamespaceRow → List EntryRow)

theorem lookup_usage {l : List NamespaceRow} (hn : (l.map (·.name)).Nodup) (ns : String) :
    ((l.filterMap fun n => usageEntry n.name (rowsOf n)).lookup ns).getD ⟨0, 0⟩
      = match l.find? (·.name == ns) with
        | none => ⟨0, 0⟩
        | some n => ⟨(rowsOf n).length, sumSizes (rowsOf n)⟩ := by
  induction l with
  | nil => rfl
  | cons n l ih =>
    obtain ⟨hnot, hrest⟩ := List.nodup_cons.mp hn
    rw [List.filterMap_cons, List.find?_cons]
    by_cases e : n.name = ns
    · have he : (n.name == ns) = true := beq_iff_eq.mpr e
      have hfind : l.find? (·.name == ns) = none := by
        rw [List.find?_eq_none]
        intro m hm h
        exact hnot (List.mem_map.mpr ⟨m, hm, (beq_iff_eq.mp h).trans e.symm⟩)
      have hnone := ih hrest
      rw [hfind] at hnone
      rw [he]
      show _ = (⟨(rowsOf n).length, sumSizes (rowsOf n)⟩ : NamespaceUsage)
      cases rowsOf n with
      | nil => exact hnone
      | cons r rows =>
        show (List.lookup ns ((n.name, _) :: _)).getD _ = _
        rw [List.lookup_cons, beq_iff_eq.mpr e.symm]
        rfl
    · have he : (n.name == ns) = false := beq_eq_false_iff_ne.mpr e
      rw [he, ← ih hrest]
      cases rowsOf n with
      | nil => rfl
      | cons r rows =>
        show (List.lookup ns ((n.name, _) :: _)).getD _ = _
        rw [List.lookup_cons, beq_eq_false_iff_ne.mpr (Ne.symm e)]

theorem sum_usage (l : List NamespaceRow) :
    ((l.filterMap fun n => usageEntry n.name (rowsOf n)).map (·.2.keyCount)).sum
        = (l.map fun n => ((rowsOf n).length : Int)).sum ∧
      ((l.filterMap fun n => usageEntry n.name (rowsOf n)).map (·.2.byteSize)).sum
        = (l.map fun n => sumSizes (rowsOf n)).sum := by
  induction l with
  | nil => exact ⟨rfl, rfl⟩
  | cons n l ih =>
    rw [List.filterMap_cons, List.map_cons, List.map_cons, List.sum_cons, List.sum_cons]
    cases rowsOf n with
    | nil =>
      refine ⟨?_, ?_⟩
      · exact ih.1.trans (Int.zero_add _).symm
      · exact ih.2.trans (Int.zero_add _).symm
    | cons r rows =>
      refine ⟨?_, ?_⟩
      · rw [← ih.1]
        rfl
      · rw [← ih.2]
        rfl

end

section
variable {s : Nat} {c : CacheCtx} {db : CacheDb}

/-- what `stats` answers -/
def CacheDb.statsAt (db : CacheDb) (now : Time) : CacheStats :=
  ⟨db.counters, ((db.usageRows now).map (·.2.keyCount)).sum,
    ((db.usageRows now).map (·.2.byteSize)).sum, db.usageRows now⟩

theorem alone_stats : stats.alone s c db = some (.ok (db.statsAt c.now), db) := rfl

theorem usageOf_eq (hnames : db.NamesApart) (now : Time) (ns : String) :
    (db.statsAt now).usageOf ns = ⟨((db.currentRows ns).filter (·.live now)).length,
      sumSizes ((db.currentRows ns).filter (·.live now))⟩ := by
  refine (lookup_usage (fun n => (db.rowsOf n.name n.generation).filter (·.live now)) hnames
    ns).trans ?_
  unfold CacheDb.currentRows CacheDb.generationOf
  cases hf : db.namespaces.find? (·.name == ns) with
  | none => rfl
  | some n =>
    obtain rfl : n.name = ns := by simpa using List.find?_some hf
    rfl

theorem totals_eq (hnames : db.NamesApart) (now : Time) :
    (db.statsAt now).logicalKeyCount
        = (db.namespaces.map fun n => ((db.statsAt now).usageOf n.name).keyCount).sum ∧
      (db.statsAt now).logicalByteSize
        = (db.namespaces.map fun n => ((db.statsAt now).usageOf n.name).byteSize).sum := by
  obtain ⟨hkeys, hbytes⟩ := sum_usage (fun n => (db.rowsOf n.name n.generation).filter (·.live now))
    db.namespaces
  refine ⟨hkeys.trans ?_, hbytes.trans ?_⟩
  · congr 1
    refine List.map_congr_left fun n hn => ?_
    rw [usageOf_eq hnames, currentRows_eq hnames hn]
  · congr 1
    refine List.map_congr_left fun n hn => ?_
    rw [usageOf_eq hnames, currentRows_eq hnames hn]

end

/-! ## all the figures -/

/-- the usage that `stats` reports is what `get` sees, and the totals are the sums over all
namespaces -/
structure StatsAgree (hit : String → String → Option Bytes) (names : List String)
    (stats : CacheStats) : Prop where
  figures : ∀ ns, ∃ keys, Figures (hit ns) keys (stats.usageOf ns).keyCount
    (stats.usageOf ns).byteSize
  known : names.Nodup ∧ ∀ ns key, (hit ns key).isSome = true → ns ∈ names
  keyTotal : stats.logicalKeyCount = (names.map fun ns => (stats.usageOf ns).keyCount).sum
  byteTotal : stats.logicalByteSize = (names.map fun ns => (stats.usageOf ns).byteSize).sum

section
variable (s : Nat) (c : ServerCtx) (db : ServerDb) (admin : AdminStore)

/-- the pages of `list_cache_namespaces` have the figures of `stats`, for every namespace once -/
def NamespacesAgree (stats : CacheStats) : Prop :=
  ∀ limit, PositiveLimit limit → ∃ pages,
    Walk (fun o => fetchPage s c db (admin.listCacheNamespaces ⟨limit, o⟩)) 0 pages ∧
    (pages.flatten.map (·.name)).Perm (db.cache.namespaces.map (·.name)) ∧
    ∀ x ∈ pages.flatten, x.keyCount = (stats.usageOf x.name).keyCount ∧
      x.byteSize = (stats.usageOf x.name).byteSize

/-- the pages of `list_cache_entries` have the keys for which `get` hits, each once; PostgreSQL
takes no namespace with U+0000 -/
def EntriesAgree (hit : String → String → Option Bytes) : Prop :=
  ∀ ns : Option String, ns.toList.all storable = true → ∀ limit, PositiveLimit limit → ∃ pages,
    Walk (fun o => fetchPage s c db (admin.listCacheEntries ns ⟨limit, o⟩)) 0 pages ∧
    (pages.flatten.map fun x => (x.namespace_, x.key)).Nodup ∧
    ∀ name key, (name, key) ∈ pages.flatten.map (fun x => (x.namespace_, x.key)) ↔
      (hit name key).isSome = true ∧ ∀ x, ns = some x → name = x

/-- all figures of the cache in a state and at an instant -/
def UsageAgrees (store : CacheStore) : Prop :=
  ∃ stats, PgApp.stats.alone s c.cache db.cache = some (.ok stats, db.cache) ∧
    StatsAgree (store.hit s c.cache db.cache) (db.cache.namespaces.map (·.name)) stats ∧
    NamespacesAgree s c db admin stats ∧ EntriesAgree s c db admin (store.hit s c.cache db.cache)

end

section
variable {s : Nat} {c : ServerCtx} {db : ServerDb} {admin : AdminStore} {store : CacheStore}

theorem stats_agree (hok : db.cache.Ok) (hnames : db.cache.NamesApart)
    (hsound : ∀ r ∈ db.cache.entries, r.Sound store.hashKey) :
    StatsAgree (store.hit s c.cache db.cache) (db.cache.namespaces.map (·.name))
      (db.cache.statsAt c.now) where
  figures := fun ns => by
    refine ⟨db.cache.liveKeys c.now ns, ?_⟩
    rw [usageOf_eq hnames]
    exact figures_liveKeys (c := c.cache) hok hsound ns
  known := by
    refine ⟨hnames, fun ns key h => ?_⟩
    by_contra hns
    rw [hit_unknown (generationOf_none hns)] at h
    cases h
  keyTotal := by
    rw [List.map_map]
    exact (totals_eq hnames c.now).1
  byteTotal := by
    rw [List.map_map]
    exact (totals_eq hnames c.now).2

theorem namespaces_agree (hm : 1 ≤ admin.maxPageSize) (hmax : admin.maxPageSize < 2 ^ 63 - 1)
    (hnames : db.cache.NamesApart) : NamespacesAgree s c db admin (db.cache.statsAt c.now) := by
  intro limit hlimit
  obtain ⟨pages, hw, hflat⟩ := (lists_namespaces db admin).walk hm hmax hlimit
  rw [List.map_id] at hflat
  have hperm : (db.cache.namespaces.insertionSort fun a b => a.name ≤ b.name).Perm
    db.cache.namespaces := List.perm_insertionSort _ _
  refine ⟨pages, hw, ?_, fun x hx => ?_⟩
  · rw [hflat]
    unfold CacheDb.namespaceSummaries
    rw [List.map_map]
    exact hperm.map (·.name)
  · rw [hflat] at hx
    obtain ⟨n, hn, rfl⟩ := List.mem_map.mp hx
    have hn := hperm.mem_iff.mp hn
    rw [usageOf_eq hnames, currentRows_eq hnames hn]
    exact ⟨rfl, rfl⟩

theorem entries_agree (hm : 1 ≤ admin.maxPageSize) (hmax : admin.maxPageSize < 2 ^ 63 - 1)
    (hok : db.cache.Ok) (hsound : ∀ r ∈ db.cache.entries, r.Sound store.hashKey) :
    EntriesAgree s c db admin (store.hit s c.cache db.cache) := by
  intro ns hns limit hlimit
  obtain ⟨pages, hw, hflat⟩ := (lists_entries (s := s) (c := c) db admin hns).walk hm hmax hlimit
  have hperm : (db.cache.listedEntries ns c.now).Perm
    (db.cache.entries.filter (db.cache.lists ns c.now)) := List.perm_insertionSort _ _
  have hlisted : ∀ r, r ∈ db.cache.listedEntries ns c.now ↔
      r ∈ db.cache.currentRows r.namespace_ ∧ r.live c.now = true ∧ ∀ x, ns = some x →
        r.namespace_ = x := by
    intro r
    rw [hperm.mem_iff, List.mem_filter, mem_currentRows]
    unfold CacheDb.lists
    rw [Bool.and_eq_true, Bool.and_eq_true, beq_iff_eq]
    cases ns with
    | none =>
      constructor
      · intro h
        obtain ⟨h1, ⟨-, h3⟩, h4⟩ := h
        exact ⟨⟨h1, rfl, h4.symm⟩, h3, fun x hx => (by cases hx)⟩
      · intro h
        obtain ⟨⟨h1, -, h4⟩, h3, -⟩ := h
        exact ⟨h1, ⟨rfl, h3⟩, h4.symm⟩
    | some x =>
      constructor
      · intro h
        obtain ⟨h1, ⟨h2, h3⟩, h4⟩ := h
        refine ⟨⟨h1, rfl, h4.symm⟩, h3, fun y hy => ?_⟩
        cases hy
        exact beq_iff_eq.mp h2
      · intro h
        obtain ⟨⟨h1, -, h4⟩, h3, h2⟩ := h
        exact ⟨h1, ⟨beq_iff_eq.mpr (h2 x rfl), h3⟩, h4.symm⟩
  have hmap : pages.flatten.map (fun x => (x.namespace_, x.key))
      = (db.cache.listedEntries ns c.now).map fun r => (r.namespace_, r.cacheKey) := by
    rw [hflat, List.map_map]
    rfl
  refine ⟨pages, hw, ?_, fun name key => ?_⟩
  · rw [hmap]
    have hn : (db.cache.listedEntries ns c.now).Nodup :=
      (hperm.nodup_iff).mpr ((hok.ids.of_map _).filter _)
    refine hn.map_on fun a ha b hb e => ?_
    obtain ⟨hns, hkey⟩ := Prod.mk.inj e
    obtain ⟨ha, -, hag⟩ := mem_currentRows.mp ((hlisted a).mp ha).1
    obtain ⟨hb, -, hbg⟩ := mem_currentRows.mp ((hlisted b).mp hb).1
    refine hok.eq_of_uniq ha hb ?_
    unfold EntryRow.uniq
    rw [hns] at hag
    rw [hns, Option.some.inj (hag.symm.trans hbg), (hsound a ha).hashed, (hsound b hb).hashed, hkey]
  · rw [hmap, List.mem_map, Option.isSome_iff_exists]
    constructor
    · intro h
      obtain ⟨r, hr, e⟩ := h
      obtain ⟨rfl, rfl⟩ := Prod.mk.inj e
      obtain ⟨hcur, hlive, hns⟩ := (hlisted r).mp hr
      exact ⟨⟨r.valueBytes, (hit_row hok hsound).mpr ⟨r, hcur, hlive, rfl, rfl⟩⟩, hns⟩
    · intro h
      obtain ⟨⟨v, hv⟩, hns⟩ := h
      obtain ⟨r, hcur, hlive, rfl, -⟩ := (hit_row hok hsound).mp hv
      obtain ⟨-, rfl, -⟩ := mem_currentRows.mp hcur
      exact ⟨r, (hlisted r).mpr ⟨hcur, hlive, hns⟩, rfl⟩

end

theorem setOnce_hit : ∃ σ : CacheSysOf (HashedCall sampleHash), CacheReachOf Subtype.val σ ∧
    (unbounded sampleHash).hit 0 (serverAt 500000).cache σ.db "app" "a" = some [1] := by
  have h : ((Sys.init CacheDb.empty).play CacheStmt.exec (fun op => op.1.body) setOnce).map
      (fun σ : CacheSysOf (HashedCall sampleHash) =>
        (unbounded sampleHash).hit 0 (serverAt 500000).cache σ.db "app" "a")
      = some (some [1]) := by rfl
  obtain ⟨σ, hplay, heq⟩ := Option.map_eq_some_iff.mp h
  exact ⟨σ, Sys.play_steps hplay, heq⟩

end PgApp
