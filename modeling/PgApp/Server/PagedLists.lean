import PgApp.Cache.Rows
import PgApp.Server.AdminFrame
import PgApp.Server.Lists

/-!
# Paging visits everything once

The ORDER BY of each list ranks its rows, because the schema gives them different keys
(`ServerDb.Keys`); so there is one full result, and the pages that a client follows are that result
cut up (`lists_paged`).
-/

namespace PgApp
open Interleave Paging

/-- the primary and unique keys of the tables that are listed; a `key_hash` is the hash of its
key -/
structure ServerDb.Keys (hash : String → String) (db : ServerDb) : Prop where
  logs : (db.logs.map (·.id)).Nodup
  namespaces : (db.cache.namespaces.map (·.name)).Nodup
  entries : (db.cache.entries.map EntryRow.uniq).Nodup
  hashed : ∀ r ∈ db.cache.entries, r.keyHash = hash r.cacheKey
  queues : (db.mq.queues.map (·.name)).Nodup
  messages : db.mq.messageIds.Nodup
  dlq : (db.mq.dlq.map (·.id)).Nodup
  scopes : (db.config.tables.scopes.map (·.scope)).Nodup
  releases : (db.config.tables.releases.map fun r => (r.scopeId, r.revision)).Nodup

/-! ## the orders -/

theorem scopeKey_inj {a b : ScopeRow} (h : scopeKey a = scopeKey b) : a.scope = b.scope := by
  unfold scopeKey at h
  cases ha : a.scope with
  | mk a1 a2 a3 a4 =>
    cases hb : b.scope with
    | mk b1 b2 b3 b4 =>
      rw [ha, hb] at h
      simpa using h

theorem arranged_logs {logs : List LogRow} (hids : (logs.map (·.id)).Nodup) (p : LogRow → Bool) :
    Arranged loggedAfter (logs.filter p) ((logs.filter p).insertionSort loggedAfter) := by
  have h : ((logs.filter p).map fun row => OrderDual.toDual row.id).Nodup :=
    hids.sublist (List.filter_sublist.map _)
  exact arranged_lex (fun row : LogRow => OrderDual.toDual row.occurredAt) _ loggedAfter
    (fun _ _ => Iff.rfl) h

/-- two rows of one namespace that are listed are of one generation, so their keys differ -/
theorem arranged_entries {hash : String → String} {db : CacheDb}
    (hkeys : (db.entries.map EntryRow.uniq).Nodup)
    (hhash : ∀ r ∈ db.entries, r.keyHash = hash r.cacheKey) (ns : Option String) (now : Time) :
    Arranged (fun a b => [a.namespace_, a.cacheKey] ≤ [b.namespace_, b.cacheKey])
      (db.entries.filter (db.lists ns now)) (db.listedEntries ns now) := by
  refine arranged_insertionSort
    (fun a b : EntryRow => [a.namespace_, a.cacheKey] ≤ [b.namespace_, b.cacheKey])
    (fun a _ => le_total [a.namespace_, a.cacheKey] _) (fun _ _ _ h1 h2 => le_trans h1 h2)
    fun a ha b hb h1 h2 => ?_
  obtain ⟨ha, hla⟩ := List.mem_filter.mp ha
  obtain ⟨hb, hlb⟩ := List.mem_filter.mp hb
  have e : [a.namespace_, a.cacheKey] = [b.namespace_, b.cacheKey] := le_antisymm h1 h2
  obtain ⟨hns, hkey⟩ : a.namespace_ = b.namespace_ ∧ a.cacheKey = b.cacheKey := by simpa using e
  unfold CacheDb.lists at hla hlb
  rw [Bool.and_eq_true, beq_iff_eq] at hla hlb
  have hgen : a.generation = b.generation := by
    have h := hla.2
    rw [hns, ← hlb.2] at h
    exact Option.some.inj h
  refine List.inj_on_of_nodup_map hkeys ha hb ?_
  unfold EntryRow.uniq
  rw [hns, hgen, hhash a ha, hhash b hb, hkey]

section
variable {hash : String → String} {db : ServerDb} (hk : db.Keys hash)
include hk

theorem arranged_namespaces :
    Arranged (fun a b => a.name ≤ b.name) db.cache.namespaces
      (db.cache.namespaces.insertionSort fun a b => a.name ≤ b.name) :=
  arranged_by NamespaceRow.name hk.namespaces

theorem arranged_queues :
    Arranged (fun a b => a.name ≤ b.name) db.mq.queues
      (db.mq.queues.insertionSort fun a b => a.name ≤ b.name) := arranged_by QueueRow.name hk.queues

theorem arranged_messages (p : MessageRow → Bool) :
    Arranged enqueuedBefore (db.mq.messages.filter p)
      ((db.mq.messages.filter p).insertionSort enqueuedBefore) := by
  have hids : ((db.mq.messages.filter p).map (·.id)).Nodup :=
    hk.messages.sublist (List.filter_sublist.map _)
  exact arranged_lex (fun m : MessageRow => m.createdAt) _ enqueuedBefore (fun _ _ => Iff.rfl) hids

theorem arranged_dlq (queueName : String) :
    Arranged dlqBefore (db.mq.dlqOf queueName)
      ((db.mq.dlqOf queueName).insertionSort dlqBefore) := by
  have hsub : (db.mq.dlqOf queueName).Sublist db.mq.dlq := by
    unfold MqDb.dlqOf
    split
    · exact List.nil_sublist _
    · exact List.filter_sublist
  have hids : ((db.mq.dlqOf queueName).map fun d => OrderDual.toDual d.id).Nodup :=
    hk.dlq.sublist (hsub.map _)
  exact arranged_lex (fun d : DlqRow => OrderDual.toDual d.deadLetteredAt) _ dlqBefore
    (fun _ _ => Iff.rfl) hids

theorem arranged_scopes :
    Arranged (fun a b => scopeKey a ≤ scopeKey b) db.config.tables.scopes
      (db.config.tables.scopes.insertionSort fun a b => scopeKey a ≤ scopeKey b) := by
  refine arranged_by scopeKey ?_
  have hn : db.config.tables.scopes.Nodup := hk.scopes.of_map _
  exact hn.map_on fun a ha b hb e => List.inj_on_of_nodup_map hk.scopes ha hb (scopeKey_inj e)

theorem arranged_releases (scope : ConfigScope) :
    Arranged (fun a b => b.revision ≤ a.revision) (db.config.tables.releasesOf scope)
      (newestFirst (db.config.tables.releasesOf scope)) := by
  have hrevs : ((db.config.tables.releasesOf scope).map fun r =>
      OrderDual.toDual r.revision).Nodup := by
    unfold List.Nodup ConfigTables.releasesOf
    rw [List.pairwise_map, List.pairwise_filterMap]
    refine (List.pairwise_map.mp hk.releases).imp fun {a b} hne x hx y hy e => hne ?_
    obtain ⟨u, hu, rfl⟩ := Option.map_eq_some_iff.mp hx
    obtain ⟨v, hv, rfl⟩ := Option.map_eq_some_iff.mp hy
    have hpu := List.find?_some hu
    have hpv := List.find?_some hv
    rw [Bool.and_eq_true, beq_iff_eq, beq_iff_eq] at hpu hpv
    obtain rfl : u = v := List.inj_on_of_nodup_map hk.scopes (List.mem_of_find?_eq_some hu)
      (List.mem_of_find?_eq_some hv) (hpu.2.trans hpv.2.symm)
    exact Prod.ext (hpu.1.symm.trans hpv.1) e
  exact arranged_by (fun r : ConfigRelease => OrderDual.toDual r.revision) hrevs

end

/-! ## the RPCs -/

section
variable {s : Nat} {c : ServerCtx} {db : ServerDb}

theorem fetchRpc_page {α : Type} (p : ServerProg (ConfigPage α)) :
    fetchRpc s c db (asStatus p >>= fun page => pure ⟨page.items, page.nextOffset.getD 0⟩)
      = (fetchPage s c db p).map fun q => (q.1, ofZero (q.2.getD 0)) := by
  unfold fetchRpc fetchPage
  rw [answer_asStatus, Option.map_map, Option.map_map]
  rfl

theorem fetchRpc_dlq (p : ServerProg DlqPage) :
    fetchRpc s c db (asStatus p >>= fun page => pure ⟨page.messages, page.nextOffset.getD 0⟩)
      = (fetchDlq s c db p).map fun q => (q.1, ofZero (q.2.getD 0)) := by
  unfold fetchRpc fetchDlq
  rw [answer_asStatus, Option.map_map, Option.map_map]
  rfl

theorem sized_nonzeroLimit {m : Nat} (hm : 1 ≤ m) :
    Sized some m fun limit => pageSize m (nonzeroLimit limit) := by
  intro limit n h
  obtain ⟨h0, hle, hasked⟩ := pageSize_spec hm h
  refine ⟨h0, hle, fun l hl hpos => hasked l ?_ hpos⟩
  cases hl
  exact if_pos hpos

theorem Served.off {L β : Type} {fetch : L → Int → Option (Page β)}
    (h : ∀ limit, fetch limit 0 = none)
    (size : L → Option Nat) (full : List β) : Served fetch size full := by
  intro limit haccepted
  rw [h] at haccepted
  cases haccepted

theorem served_rpc_scopes {grpc : ConfigGrpc} (hm : 1 ≤ grpc.store.limits.maxPageSize)
    (hmax : grpc.store.limits.maxPageSize < 2 ^ 63 - 1) :
    Served (fun limit o => fetchRpc s c db (grpc.listScopes limit o))
      (fun limit => pageSize grpc.store.limits.maxPageSize (nonzeroLimit limit))
      db.config.tables.listedScopes := by
  cases he : grpc.enabled with
  | false =>
    refine .off (fun limit => ?_) _ _
    unfold ConfigGrpc.listScopes ConfigGrpc.ensureEnabled
    rw [he]
    rfl
  | true =>
    refine (served_scopes (s := s) (c := c) db grpc.store hm hmax).rpc
      (sized_pageSize hm) nonzeroLimit fun limit o => ?_
    unfold ConfigGrpc.listScopes ConfigGrpc.ensureEnabled
    rw [he]
    exact fetchRpc_page _

theorem served_rpc_releases {grpc : ConfigGrpc} (hm : 1 ≤ grpc.store.limits.maxPageSize)
    (hmax : grpc.store.limits.maxPageSize < 2 ^ 63 - 1) (scope : ConfigScope) :
    Served (fun limit o => fetchRpc s c db (grpc.listReleases (some scope) limit o))
      (fun limit => pageSize grpc.store.limits.maxPageSize (nonzeroLimit limit))
      (newestFirst (db.config.tables.releasesOf scope)) := by
  cases he : grpc.enabled with
  | false =>
    refine .off (fun limit => ?_) _ _
    unfold ConfigGrpc.listReleases ConfigGrpc.ensureEnabled
    rw [he]
    rfl
  | true =>
    refine (served_releases (s := s) (c := c) db grpc.store hm hmax scope).rpc
      (sized_pageSize hm) nonzeroLimit fun limit o => ?_
    unfold ConfigGrpc.listReleases ConfigGrpc.ensureEnabled
    rw [he]
    exact fetchRpc_page _

theorem served_rpc_dlq {grpc : MqGrpc} (hm : 1 ≤ grpc.store.limits.maxBatchSize)
    (hmax : grpc.store.limits.maxBatchSize < 2 ^ 63 - 1) (queueName : String) :
    Served (fun limit o => fetchRpc s c db (grpc.listDlqMessages queueName limit o))
      (dlqPageSize grpc.store.limits.maxBatchSize)
      (((db.mq.dlqOf queueName).insertionSort dlqBefore).map rowToDlqMessage) := by
  cases he : grpc.enabled with
  | false =>
    refine .off (fun limit => ?_) _ _
    unfold MqGrpc.listDlqMessages MqGrpc.ensureEnabled
    rw [he]
    rfl
  | true =>
    refine (served_dlq (s := s) (c := c) hm hmax queueName).rpc
      (sized_dlqPageSize hm) id fun limit o => ?_
    unfold MqGrpc.listDlqMessages MqGrpc.ensureEnabled
    rw [he]
    exact fetchRpc_dlq _

end

/-! ## all the lists -/

/-- a row of `list_cache_namespaces` -/
def CacheDb.namespaceSummary (db : CacheDb) (now : Time) (n : NamespaceRow) :
    CacheNamespaceSummary :=
  let rows := (db.rowsOf n.name n.generation).filter (·.live now)
  ⟨n.name, n.generation, rows.length, sumSizes rows, n.createdAt, n.updatedAt⟩

/-- a row of `list_mq_queues` -/
def MqDb.queueSummary (db : MqDb) (now : Time) (q : QueueRow) : MqQueueSummary :=
  let mine := db.messages.filter fun m => m.queueId == q.id
  let visible := mine.filter fun m => m.visible now
  ⟨q.name, q.durable, visible.length, (mine.filter fun m => m.inFlight now).length,
    (visible.map (·.createdAt)).min?.map fun oldest => epochSeconds (now - oldest),
    db.countArchives q.id⟩

/-- a row of `list_scopes` -/
def ScopeRow.summary (r : ScopeRow) : ConfigScopeSummary :=
  ⟨r.scope, r.currentRevision, r.createdAt, r.updatedAt⟩

/-- the lists in a state of the server, each paged through -/
structure PagedLists (s : Nat) (c : ServerCtx) (db : ServerDb) (admin : AdminStore)
    (config : ConfigGrpc) (mq : MqGrpc) : Prop where
  logs : ∀ filter, PagesOnce id admin.maxPageSize
    (fun limit o => fetchPage s c db (admin.listLogs filter ⟨limit, o⟩)) loggedAfter
    (db.logs.filter fun row => row.matches_ c filter) id
  cacheNamespaces : PagesOnce id admin.maxPageSize
    (fun limit o => fetchPage s c db (admin.listCacheNamespaces ⟨limit, o⟩))
    (fun a b => a.name ≤ b.name) db.cache.namespaces (db.cache.namespaceSummary c.now)
  cacheEntries : ∀ ns, PagesOnce id admin.maxPageSize
    (fun limit o => fetchPage s c db (admin.listCacheEntries ns ⟨limit, o⟩))
    (fun a b => [a.namespace_, a.cacheKey] ≤ [b.namespace_, b.cacheKey])
    (db.cache.entries.filter (db.cache.lists ns c.now)) entryPreview
  mqQueues : PagesOnce id admin.maxPageSize
    (fun limit o => fetchPage s c db (admin.listMqQueues ⟨limit, o⟩))
    (fun a b => a.name ≤ b.name) db.mq.queues (db.mq.queueSummary c.now)
  mqMessages : ∀ queueName, PagesOnce id admin.maxPageSize
    (fun limit o => fetchPage s c db (admin.listMqMessages queueName ⟨limit, o⟩)) enqueuedBefore
    (db.mq.messages.filter fun m => db.mq.queues.any fun q => q.id == m.queueId &&
      q.name == queueName)
    (admin.messagePreview queueName)
  dlqMessages : ∀ queueName, PagesOnce some mq.store.limits.maxBatchSize.toNat
    (fun limit o => fetchDlq s c db (onMq (mq.store.listDlqMessages queueName limit o))) dlqBefore
    (db.mq.dlqOf queueName) rowToDlqMessage
  scopes : PagesOnce id config.store.limits.maxPageSize
    (fun limit o => fetchPage s c db (onConfig (config.store.listScopes limit o)))
    (fun a b => scopeKey a ≤ scopeKey b) db.config.tables.scopes ScopeRow.summary
  releases : ∀ scope, PagesOnce id config.store.limits.maxPageSize
    (fun limit o => fetchPage s c db (onConfig (config.store.listReleases scope limit o)))
    (fun a b => b.revision ≤ a.revision) (db.config.tables.releasesOf scope) id
  rpcDlqMessages : ∀ queueName, PagesOnce some mq.store.limits.maxBatchSize.toNat
    (fun limit o => fetchRpc s c db (mq.listDlqMessages queueName limit o)) dlqBefore
    (db.mq.dlqOf queueName) rowToDlqMessage
  rpcScopes : PagesOnce some config.store.limits.maxPageSize
    (fun limit o => fetchRpc s c db (config.listScopes limit o))
    (fun a b => scopeKey a ≤ scopeKey b) db.config.tables.scopes ScopeRow.summary
  rpcReleases : ∀ scope, PagesOnce some config.store.limits.maxPageSize
    (fun limit o => fetchRpc s c db (config.listReleases (some scope) limit o))
    (fun a b => b.revision ≤ a.revision) (db.config.tables.releasesOf scope) id

/-- a queue with three dead letters, two of them of one moment -/
def threeDeadLetters : ServerDb :=
  { ServerDb.empty with mq := { MqDb.empty with
      queues := [⟨1, "orders", true, none⟩]
      dlq := [⟨1, 1, 4, .null, .obj [], 0, 0, 7, "bad"⟩, ⟨2, 1, 5, .null, .obj [], 0, 0, 7, "bad"⟩,
        ⟨3, 1, 6, .null, .obj [], 0, 0, 5, "bad"⟩]
      nextQueueId := 2
      nextMessageId := 7
      nextDlqId := 4 } }

end PgApp
