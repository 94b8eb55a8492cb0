import PgApp.Server.Lists
import PgApp.Server.AdminFrame
import PgApp.Server.ServerConfig

/-!
# The limits of the settings, read as integers

A setting is parsed with one width and compared, or cast, with another:

* `validate_batch_len` (two of them) casts `max_batch_size: i32` to `usize`;
* `page_limit` widens it to `i64`;
* the two functions `page` cast `max_page_size: usize` to `i64` and back.

`LimitsHold` says that each of them means its number.  It does exactly if the batch size is positive
and the page size is below `i64::MAX` (`limits_hold`): `from_map` asks for neither.
-/

namespace PgApp
open Interleave

/-! ## what the limits mean -/

/-- a page is as large as was asked for and as the settings allow, and one row more is fetched -/
structure PageMeans (m : Nat) (limit : Option Int) (offset : Int) (page : PageState) : Prop where
  size : (page.limit : Int) = min (limit.getD m) m
  least : 1 ≤ page.limit
  greatest : page.limit ≤ m
  fetch : page.fetchLimit = page.limit + 1
  start : page.offset = offset

/-- the pages of a dead letter queue have a row at least, and the next page is further on -/
structure DlqMeans (store : MqStore) : Prop where
  size : ∀ limit n, store.pageLimit limit = .ok n → 1 ≤ n
  next : ∀ (s : Nat) (c : MqCtx) (db db' : MqDb) (queueName : String) (limit offset next : Int)
    (page : DlqPage), (store.listDlqMessages queueName limit offset).alone s c db
      = some (.ok page, db') → page.nextOffset = some next → offset < next

structure LimitsHold (cfg : ServerConfig) (lib : Libraries) : Prop where
  sendBatch : ∀ len : Nat, (cfg.mqStore lib).validateBatchLen len = .ok () →
    (len : Int) ≤ cfg.limits.maxBatchSize
  mGet : ∀ len : Nat, validateBatchLen len (cfg.cacheGrpc lib).maxBatchSize = .ok () →
    (len : Int) ≤ cfg.limits.maxBatchSize
  dlq : DlqMeans (cfg.mqStore lib)
  adminDlq : ∀ token, DlqMeans (cfg.adminHttpState lib token).mqStore
  configPage : ∀ limit offset page, (cfg.configStore lib).page limit offset = .ok page →
    PageMeans cfg.admin.maxPageSize limit offset page
  adminPage : ∀ query page, (cfg.adminStore lib).page query = .ok page →
    PageMeans cfg.admin.maxPageSize query.limit query.offset page

/-! ## pages -/

theorem page_means {m : Nat} (hm : 1 ≤ m) (hmax : m < 2 ^ 63 - 1) {limit : Option Int} {o : Int}
    {page : PageState} (h : pageOf m limit o = .ok page) : PageMeans m limit o page := by
  have ho : 0 ≤ o := by
    rw [pageOf_def] at h
    split at h
    · cases h
    · omega
  cases hn : pageSize m limit with
  | none =>
    obtain ⟨e, he⟩ := pageOf_refused (o := o) (by omega) hn
    rw [he] at h
    cases h
  | some n =>
    obtain ⟨h0, hle, -⟩ := pageSize_spec hm hn
    rw [pageOf_eq hm hmax limit ho n hn] at h
    cases h
    refine ⟨?_, h0, hle, rfl, rfl⟩
    unfold pageSize at hn
    split at hn
    · rename_i hpos
      cases hn
      show (((min (limit.getD m) m).toNat : Nat) : Int) = _
      omega
    · cases hn

/-- with a page size from `i64::MAX` on, the largest limit there is makes a page that fetches
nothing -/
theorem fetch_none_of_large {m : Nat} (hmax : 2 ^ 63 - 1 ≤ m) (hm : m < 2 ^ 64) :
    ∃ page, pageOf m (some (2 ^ 63 - 1)) 0 = .ok page ∧ page.fetchLimit ≤ 0 := by
  have hpage := pageOf_def m (some (2 ^ 63 - 1)) 0
  rw [if_neg (Int.lt_irrefl 0), Option.getD_some, if_neg (by omega)] at hpage
  refine ⟨_, hpage, ?_⟩
  dsimp only
  rcases Nat.lt_or_ge m (2 ^ 63) with hlt | hge
  · have hmin : min (2 ^ 63 - 1) (asI64 m) = asI64 m := by
      rw [asI64_of_lt hlt]
      omega
    rw [hmin]
    exact (fetch_wraps hmax hlt).le
  · -- the limit is cast to a negative number, and back
    have hneg := asI64_neg hge hm
    have hmin : min (2 ^ 63 - 1) (asI64 m) = asI64 m := by omega
    rw [hmin]
    unfold asI64 asUsize wrapI64 at *
    omega

theorem page_lt_of_means {m : Nat} (hm : m < 2 ^ 64)
    (h : ∀ limit o page, pageOf m limit o = .ok page → PageMeans m limit o page) :
    m < 2 ^ 63 - 1 := by
  by_contra hmax
  obtain ⟨page, hpage, hfetch⟩ := fetch_none_of_large (by omega) hm
  have hmeans := h _ _ _ hpage
  have := hmeans.least
  have := hmeans.fetch
  omega

/-! ## batches -/

theorem batchLen_of_cast {len : Nat} {max : Int} (h0 : 0 ≤ max) (h : max < 2 ^ 63)
    (hlen : ¬ len > asUsize max) : (len : Int) ≤ max := by
  rw [asUsize_of_lt h0 h] at hlen
  omega

theorem one_le_cast {max : Int} (hlow : -2147483648 ≤ max) (hneg : max < 0) :
    ¬ 1 > asUsize max := by
  unfold asUsize
  omega

theorem MqStore.validateBatchLen_iff (store : MqStore) (len : Nat) :
    store.validateBatchLen len = .ok () ↔ ¬ len > asUsize store.limits.maxBatchSize := by
  unfold MqStore.validateBatchLen
  split
  · rename_i hlen
    exact ⟨fun h => (by cases h), fun h => absurd hlen h⟩
  · rename_i hlen
    exact ⟨fun _ => hlen, fun _ => rfl⟩

theorem validateBatchLen_iff (len : Nat) (max : Int) :
    PgApp.validateBatchLen len max = .ok () ↔ ¬ len > asUsize max := by
  unfold PgApp.validateBatchLen
  split
  · rename_i hlen
    exact ⟨fun h => (by cases h), fun h => absurd hlen h⟩
  · rename_i hlen
    exact ⟨fun _ => hlen, fun _ => rfl⟩

/-! ## dead letters -/

theorem pageLimit_pos {store : MqStore} (h1 : 1 ≤ store.limits.maxBatchSize) {limit n : Int}
    (h : store.pageLimit limit = .ok n) : 1 ≤ n := by
  unfold MqStore.pageLimit at h
  split at h
  · cases h
  · split at h
    · cases h
      exact h1
    · cases h
      omega

/-- where the next page of a list begins -/
theorem alone_listDlq_next {store : MqStore} {s : Nat} {c : MqCtx} {db db' : MqDb}
    {queueName : String}
    {limit offset next : Int} {page : DlqPage}
    (h : (store.listDlqMessages queueName limit offset).alone s c db = some (.ok page, db'))
    (hnext : page.nextOffset = some next) :
    ∃ n, store.pageLimit limit = .ok n ∧ next = offset + n := by
  unfold MqStore.listDlqMessages at h
  cases hv : validateQueueName queueName with
  | error e =>
    rw [MqProg.alone_queueId_invalid hv] at h
    cases h
  | ok u =>
    cases hq : db.selectQueueId queueName with
    | none =>
      rw [MqProg.alone_queueId_unknown hv hq] at h
      cases h
    | some q =>
      rw [MqProg.alone_queueId_bind hv hq] at h
      split at h
      · cases h
      · cases hlimit : store.pageLimit limit with
        | error e =>
          rw [hlimit] at h
          cases h
        | ok n =>
          rw [hlimit, MqProg.alone_check rfl] at h
          have hx : MqStmt.exec s c (.selectDlqPage q (n + 1) offset) db
            = some (db.selectDlqPage q (n + 1) offset, db) := rfl
          rw [MqProg.alone_query hx] at h
          refine ⟨n, rfl, ?_⟩
          cases hrows : db.selectDlqPage q (n + 1) offset with
          | error e =>
            rw [hrows] at h
            cases h
          | ok rows =>
            rw [hrows] at h
            cases h
            dsimp only at hnext
            split at hnext
            · exact (Option.some.inj hnext).symm
            · cases hnext

theorem dlq_means {store : MqStore} (h1 : 1 ≤ store.limits.maxBatchSize) : DlqMeans store := by
  refine ⟨fun limit n h => pageLimit_pos h1 h, ?_⟩
  intro s c db db' queueName limit offset next page h hnext
  obtain ⟨n, hn, rfl⟩ := alone_listDlq_next h hnext
  have := pageLimit_pos h1 hn
  omega

/-! ## the settings -/

section
variable {addrOf : String → Except String SocketAddr} {env : Env} {cfg : ServerConfig}

/-- the limits mean what they say exactly if the batch size is positive and the page size is below
`i64::MAX` -/
theorem limits_hold (lib : Libraries) (h : fromMap addrOf env = .ok cfg) :
    LimitsHold cfg lib ↔ 1 ≤ cfg.limits.maxBatchSize ∧ cfg.admin.maxPageSize < 2 ^ 63 - 1 := by
  have hacc := fromMap_spec h
  obtain ⟨hlow, hhigh⟩ := hacc.batch_range
  obtain ⟨hm, hm64⟩ := hacc.pageSize_range
  constructor
  · intro hold
    refine ⟨?_, page_lt_of_means hm64 hold.configPage⟩
    by_contra hle
    rcases Int.lt_or_eq_of_le (show cfg.limits.maxBatchSize ≤ 0 by omega) with hneg | hzero
    · have := hold.sendBatch 1 (((cfg.mqStore lib).validateBatchLen_iff 1).mpr
        (one_le_cast hlow hneg))
      omega
    · have hlimit : (cfg.mqStore lib).pageLimit 0 = .ok 0 := by
        show (if (0 : Int) < 0 then _ else if (0 : Int) = 0 then .ok cfg.limits.maxBatchSize else _)
          = Except.ok 0
        rw [if_neg (Int.lt_irrefl 0), if_pos rfl, hzero]
      have := hold.dlq.size 0 0 hlimit
      omega
  · intro hex
    obtain ⟨h1, hmax⟩ := hex
    have hpages : ∀ limit o page, pageOf cfg.admin.maxPageSize limit o = .ok page →
      PageMeans cfg.admin.maxPageSize limit o page := fun _ _ _ => page_means hm hmax
    have hstore : (cfg.adminStore lib).maxPageSize = cfg.admin.maxPageSize := Nat.max_eq_left hm
    have hadmin : ∀ token, (1 : Int) ≤ (cfg.adminHttpState lib token).mqStore.limits.maxBatchSize :=
      fun _ => Int.le_of_lt (show (1 : Int) < 100 by omega)
    refine ⟨fun len hlen => ?_, fun len hlen => ?_, dlq_means h1,
      fun token => dlq_means (hadmin token),
      hpages, fun query page hpage => ?_⟩
    · exact batchLen_of_cast (by omega) (by omega)
        (((cfg.mqStore lib).validateBatchLen_iff len).mp hlen)
    · exact batchLen_of_cast (by omega) (by omega) ((validateBatchLen_iff len _).mp hlen)
    · rw [AdminStore.page_eq, hstore] at hpage
      exact hpages _ _ _ hpage

end

def plainLibraries : Libraries :=
  ⟨nullFromStr, fun _ => .ok [], fun _ => "", fun _ => "", id, fun _ => .ok fun _ => .ok (),
    smallState.clientLib⟩

theorem limits_hold_defaults : ∃ cfg, fromMap anyAddr
    (envWith "PGAPP_MAX_BATCH_SIZE" "100") = .ok cfg ∧
    LimitsHold cfg plainLibraries := by
  obtain ⟨cfg, hcfg, hlimits⟩ : ∃ cfg, fromMap anyAddr
    (envWith "PGAPP_MAX_BATCH_SIZE" "100") = .ok cfg ∧
      1 ≤ cfg.limits.maxBatchSize ∧ cfg.admin.maxPageSize < 2 ^ 63 - 1 := ⟨_, rfl, by decide⟩
  exact ⟨cfg, hcfg, (limits_hold plainLibraries hcfg).mpr hlimits⟩

/-- a batch size of -1 is accepted, and then a batch of any length is -/
theorem limits_hold_negative : ∃ cfg,
    fromMap anyAddr (envWith "PGAPP_MAX_BATCH_SIZE" "-1") = .ok cfg ∧
    cfg.limits.maxBatchSize = -1 ∧
    (cfg.mqStore plainLibraries).validateBatchLen 100000 = .ok () ∧
    ¬ LimitsHold cfg plainLibraries := by
  refine ⟨_, rfl, rfl, by decide, fun hold => ?_⟩
  have h := hold.sendBatch 100000 (by decide)
  revert h
  decide

end PgApp
