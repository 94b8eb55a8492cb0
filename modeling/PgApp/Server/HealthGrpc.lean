import PgApp.Keyed.Lists
import PgApp.Keyed.Tally
import PgApp.Server.WatchRpc

/-!
# The Health service and the metrics it reports (`pgapp-server/src/lib.rs`, `metrics.rs`)

`MetricsRegistry` is the hash map of `metrics.rs`, as the list of its entries in some order: its key
is one text made of service, method and status, which a reader takes apart again (`splitKey`).

* `RpcSample.key_inj`     names without a dot are found again in the key;
* `Keyed.mem_tally`       an entry holds what the samples with its key add up to.

Main result: `runtime_metrics`.
-/

namespace PgApp
open Interleave

/-! ## `metrics.rs` -/

abbrev MetricsRegistry := List (String × MethodMetrics)

/-- `Duration::as_millis` -/
def asMillis (t : Time) : Nat := (t / millis 1).toNat

def RpcSample.key (x : RpcSample) : String := s!"{x.service}.{x.method}.{x.status}"

/-- one more request -/
def RpcSample.addTo (x : RpcSample) (metric : MethodMetrics) : MethodMetrics :=
  ⟨metric.count + 1, if x.status != "ok" then metric.errors + 1 else metric.errors,
    metric.totalLatencyMillis + asMillis x.elapsed⟩

/-- `record` -/
def MetricsRegistry.record (metrics : MetricsRegistry) (x : RpcSample) : MetricsRegistry :=
  Keyed.entry ⟨0, 0, 0⟩ x.key x.addTo metrics

/-- the registry after some requests -/
def MetricsRegistry.recorded (samples : List RpcSample) : MetricsRegistry :=
  samples.foldl MetricsRegistry.record []

/-- what `record_rpc` and the gate record under -/
def rpcNames : List (String × String) :=
  [("auth", "authenticate"), ("cache", "set"), ("cache", "get"), ("cache", "m_get"),
   ("cache", "delete"), ("cache", "exists"), ("cache", "invalidate_namespace"), ("cache", "stats"),
   ("cache", "increment"), ("cache", "decrement"), ("cache", "set_nx"), ("cache", "get_set"),
   ("cache", "append"), ("cache", "prepend"), ("mq", "create_queue"), ("mq", "purge_queue"),
   ("mq", "drop_queue"), ("mq", "send"), ("mq", "send_batch"), ("mq", "read"),
   ("mq", "read_with_poll"), ("mq", "ack"), ("mq", "archive"), ("mq", "set_visibility_timeout"),
   ("mq", "metrics"), ("mq", "list_dlq_messages"), ("mq", "get_dlq_message"),
   ("mq", "reprocess_dlq_message"), ("mq", "purge_dlq"), ("config", "list_scopes"),
   ("config", "upsert_item"), ("config", "delete_item"), ("config", "get_draft"),
   ("config", "publish"), ("config", "get_release"), ("config", "list_releases"),
   ("config", "watch"), ("config", "set_schema"), ("config", "get_schema"),
   ("health", "get_health"), ("health", "get_readiness"), ("health", "get_runtime_metrics")]

/-! ## the service -/

structure HealthGrpc where
  cacheEnabled : Bool
  mqEnabled : Bool
  configEnabled : Bool

inductive ServiceState where
  | available
  | unavailable
  | disabled
deriving DecidableEq

structure ServiceCapability where
  name : String
  state : ServiceState
  message : String
deriving DecidableEq

structure ReadinessResponse where
  ready : Bool
  capabilities : List ServiceCapability

structure RuntimeMetricsResponse where
  methods : List MethodMetricDto
  pgPool : PoolStatus

inductive HealthRequest where
  | getHealth
  | getReadiness
  | getRuntimeMetrics

inductive HealthResponse where
  | health (live : Bool)
  | readiness (response : ReadinessResponse)
  | runtimeMetrics (response : RuntimeMetricsResponse)

def toServiceCapability (status : CapabilityStatus) : ServiceCapability :=
  ⟨status.name, if status.available then .available else .unavailable, status.message⟩

/-- one capability of `get_readiness` -/
def serviceCapability (enabled : Bool) (name : String) (check : ServerProg CapabilityStatus) :
    ServerProg ServiceCapability :=
  if enabled then do return toServiceCapability (← check) else pure ⟨name, .disabled, "disabled"⟩

def HealthGrpc.getReadiness (grpc : HealthGrpc) : ServerProg ReadinessResponse := do
  let cacheStatus ← serviceCapability grpc.cacheEnabled "cache" checkCacheSchema
  let mqStatus ← serviceCapability grpc.mqEnabled "mq" checkMqSchema
  let configStatus ← serviceCapability grpc.configEnabled "config" checkConfigSchema
  let capabilities := [cacheStatus, mqStatus, configStatus]
  let ready := (capabilities.filter (·.state != .disabled)).all (·.state == .available)
  pure ⟨ready, capabilities⟩

/-- what `sort_by` compares -/
def MethodMetricDto.place (m : MethodMetricDto) : List String := [m.service, m.method, m.status]

/-- the entries of a snapshot, sorted -/
def sortedMetrics (snapshot : MetricsRegistry) : List MethodMetricDto :=
  (methodMetrics snapshot).insertionSort fun left right => left.place ≤ right.place

def getRuntimeMetrics : ServerProg RuntimeMetricsResponse := do
  let snapshot ← adminQuery .metricsSnapshot
  let pool ← adminQuery .poolStatus
  pure ⟨sortedMetrics snapshot, pool⟩

def HealthGrpc.serve (grpc : HealthGrpc) : HealthRequest → RpcProg HealthResponse
  | .getHealth => pure (.health true)
  | .getReadiness => do return .readiness (← asStatus grpc.getReadiness)
  | .getRuntimeMetrics => do return .runtimeMetrics (← asStatus getRuntimeMetrics)

/-! ## keys -/

/-- a text without a dot -/
def Dotless (text : String) : Prop := '.' ∉ text.toList

theorem rpcNames_dotless : ∀ p ∈ rpcNames, Dotless p.1 ∧ Dotless p.2 := by
  unfold rpcNames Dotless
  decide

theorem span_dot {a : List Char} (h : '.' ∉ a) (b : List Char) :
    (a ++ '.' :: b).span (· != '.') = (a, '.' :: b) := by
  have hall : ∀ c ∈ a, (c != '.') = true := fun c hc => by
    rw [bne_iff_ne]
    rintro rfl
    exact h hc
  rw [List.span_eq_takeWhile_dropWhile, List.takeWhile_append_of_pos hall,
    List.dropWhile_append_of_pos hall, List.takeWhile_cons_of_neg (by decide),
    List.dropWhile_cons_of_neg (by decide), List.append_nil]

theorem RpcSample.key_toList (x : RpcSample) : x.key.toList
    = x.service.toList ++ '.' :: (x.method.toList ++ '.' :: x.status.toList) := by
  have h : x.key = x.service ++ "." ++ x.method ++ "." ++ x.status := rfl
  rw [h]
  simp only [String.toList_append, List.append_assoc]
  rfl

/-- **The names are found again in the key.** -/
theorem splitKey_key {x : RpcSample} (hs : Dotless x.service) (hm : Dotless x.method) :
    splitKey x.key = some (x.service, x.method, x.status) := by
  unfold splitKey
  rw [x.key_toList, span_dot hs]
  simp only [span_dot hm, String.ofList_toList]

theorem span_cons {c : Char} {l a b : List Char} (h : l.span (· != '.') = (a, c :: b)) :
    l = a ++ '.' :: b := by
  rw [List.span_eq_takeWhile_dropWhile] at h
  obtain ⟨ha, hb⟩ := Prod.mk.inj h
  have hne : l.dropWhile (· != '.') ≠ [] := by
    rw [hb]
    exact List.cons_ne_nil _ _
  have hhead := List.head_dropWhile_not (· != '.') hne
  have hc : c = '.' := by
    have h1 : (l.dropWhile (· != '.')).head hne = c := by simp only [hb, List.head_cons]
    rw [h1] at hhead
    simpa using hhead
  rw [← List.takeWhile_append_dropWhile (p := (· != '.')) (l := l), ha, hb, hc]

theorem key_of_splitKey {key service method status : String}
    (h : splitKey key = some (service, method, status)) :
    key = s!"{service}.{method}.{status}" := by
  unfold splitKey at h
  split at h
  · cases h
  · rename_i a c rest h1
    split at h
    · cases h
    · rename_i b c' rest' h2
      obtain ⟨rfl, rfl, rfl⟩ : String.ofList a = service ∧ String.ofList b = method ∧
        String.ofList rest' = status := by simpa using h
      apply String.toList_inj.mp
      rw [span_cons h1, span_cons h2]
      exact ((RpcSample.mk (String.ofList a) (String.ofList b)
        (String.ofList rest') 0).key_toList.trans
        (by simp only [String.toList_ofList])).symm

/-! ## what is reported -/

/-- the requests of one method that ended with one status -/
def RpcSample.like (x : RpcSample) (samples : List RpcSample) : List RpcSample :=
  samples.filter fun y => y.service = x.service ∧ y.method = x.method ∧ y.status = x.status

/-- how many they are, how many have failed, and how long they took -/
def RpcSample.summary (x : RpcSample) (samples : List RpcSample) : MethodMetricDto :=
  let mine := x.like samples
  ⟨x.service, x.method, x.status, mine.length, if x.status = "ok" then 0 else mine.length,
    u128ToU64 (mine.map fun y => asMillis y.elapsed).sum⟩

/-- adding up requests with one status -/
theorem foldl_addTo {status : String} {l : List RpcSample} (h : ∀ y ∈ l, y.status = status)
    (m : MethodMetrics) : l.foldl (fun m y => y.addTo m) m
      = ⟨m.count + l.length, m.errors + (if status = "ok" then 0 else l.length),
          m.totalLatencyMillis + (l.map fun y => asMillis y.elapsed).sum⟩ := by
  induction l generalizing m with
  | nil => simp
  | cons y l ih =>
    obtain ⟨hy, hl⟩ := List.forall_mem_cons.mp h
    rw [List.foldl_cons, ih hl, List.length_cons, List.map_cons, List.sum_cons]
    unfold RpcSample.addTo
    rw [hy]
    by_cases hok : status = "ok"
    · simp only [hok, bne_self_eq_false, if_true, MethodMetrics.mk.injEq]
      refine ⟨by omega, rfl, by omega⟩
    · simp only [bne_iff_ne.mpr hok, if_true, if_neg hok, MethodMetrics.mk.injEq]
      refine ⟨by omega, by omega, by omega⟩

section
variable {samples : List RpcSample} {snapshot : MetricsRegistry}

/-- the names of all requests are those of the server -/
def KnownNames (samples : List RpcSample) : Prop := ∀ x ∈ samples, (x.service, x.method) ∈ rpcNames

theorem KnownNames.splitKey (h : KnownNames samples) {x : RpcSample} (hx : x ∈ samples) :
    PgApp.splitKey x.key = some (x.service, x.method, x.status) := by
  obtain ⟨hs, hm⟩ := rpcNames_dotless _ (h x hx)
  exact splitKey_key hs hm

theorem KnownNames.at_key (h : KnownNames samples) {x : RpcSample} (hx : x ∈ samples) :
    Keyed.at_ RpcSample.key x.key samples = x.like samples := by
  unfold Keyed.at_ RpcSample.like
  refine List.filter_congr fun y hy => ?_
  rw [decide_eq_decide]
  constructor
  · intro he
    have h1 := h.splitKey hy
    rw [he, h.splitKey hx] at h1
    simpa [eq_comm] using h1
  · intro he
    unfold RpcSample.key
    rw [he.1, he.2.1, he.2.2]

theorem mem_recorded {k : String} {m : MethodMetrics} : (k, m) ∈ MetricsRegistry.recorded samples ↔
    Keyed.at_ RpcSample.key k samples ≠ [] ∧
      m = (Keyed.at_ RpcSample.key k samples).foldl (fun m y => y.addTo m) ⟨0, 0, 0⟩ :=
  Keyed.mem_tally

/-- the entry of a request -/
theorem KnownNames.entry (h : KnownNames samples) {x : RpcSample} (hx : x ∈ samples)
    {m : MethodMetrics} :
    (x.key, m) ∈ MetricsRegistry.recorded samples ↔
      (⟨x.service, x.method, x.status, m.count, m.errors, u128ToU64 m.totalLatencyMillis⟩
        : MethodMetricDto) = x.summary samples ∧ m = ⟨(x.like samples).length,
          if x.status = "ok" then 0 else (x.like samples).length,
          ((x.like samples).map fun y => asMillis y.elapsed).sum⟩ := by
  have hmem : x ∈ x.like samples := List.mem_filter.mpr ⟨hx, by simp⟩
  have hstatus : ∀ y ∈ x.like samples, y.status = x.status := fun y hy => by
    have h1 := (List.mem_filter.mp hy).2
    simp only [decide_eq_true_eq] at h1
    exact h1.2.2
  rw [mem_recorded, h.at_key hx, foldl_addTo hstatus]
  simp only [Nat.zero_add]
  constructor
  · intro hm
    obtain ⟨-, rfl⟩ := hm
    exact ⟨rfl, rfl⟩
  · intro hm
    exact ⟨List.ne_nil_of_mem hmem, hm.2⟩

/-- **What a snapshot is read as.** -/
theorem KnownNames.mem_methodMetrics (h : KnownNames samples)
    (hp : snapshot.Perm (MetricsRegistry.recorded samples))
    {row : MethodMetricDto} :
    row ∈ methodMetrics snapshot ↔ ∃ x ∈ samples, row = x.summary samples := by
  unfold methodMetrics
  rw [List.mem_filterMap]
  constructor
  · intro hrow
    obtain ⟨⟨k, m⟩, hkm, hrow⟩ := hrow
    have hrec := hp.mem_iff.mp hkm
    obtain ⟨x, hat⟩ := List.exists_mem_of_ne_nil _ (mem_recorded.mp hrec).1
    obtain ⟨hx, hk⟩ := List.mem_filter.mp hat
    obtain rfl : x.key = k := by simpa using hk
    simp only [h.splitKey hx, Option.map_some, Option.some.injEq] at hrow
    exact ⟨x, hx, hrow.symm.trans ((h.entry hx).mp hrec).1⟩
  · intro hrow
    obtain ⟨x, hx, rfl⟩ := hrow
    refine ⟨(x.key, _), hp.mem_iff.mpr ((h.entry hx).mpr ⟨?_, rfl⟩), ?_⟩
    · rfl
    · simp only [h.splitKey hx, Option.map_some]
      rfl

theorem nodup_place (h : (snapshot.map (·.1)).Nodup) :
    ((methodMetrics snapshot).map MethodMetricDto.place).Nodup := by
  have hplace : (methodMetrics snapshot).map MethodMetricDto.place
      = (snapshot.map (·.1)).filterMap fun key =>
          (splitKey key).map fun p => [p.1, p.2.1, p.2.2] := by
    unfold methodMetrics
    rw [List.map_filterMap, List.filterMap_map]
    refine List.filterMap_congr fun p _ => ?_
    show Option.map _ (Option.map _ (splitKey p.1)) = Option.map _ (splitKey p.1)
    rw [Option.map_map]
    rfl
  rw [hplace]
  refine List.Nodup.filterMap (fun a b place ha hb => ?_) h
  obtain ⟨⟨s, m, st⟩, hsa, rfl⟩ := Option.map_eq_some_iff.mp ha
  obtain ⟨⟨s', m', st'⟩, hsb, he⟩ := Option.map_eq_some_iff.mp hb
  obtain ⟨rfl, rfl, rfl⟩ : s' = s ∧ m' = m ∧ st' = st := by simpa using he
  exact (key_of_splitKey hsa).trans (key_of_splitKey hsb).symm

theorem nodup_recorded (hp : snapshot.Perm (MetricsRegistry.recorded samples)) :
    (snapshot.map (·.1)).Nodup := by
  have h : ((MetricsRegistry.recorded samples).map (·.1)).Nodup := Keyed.nodup_tally (by simp)
  exact (hp.map _).nodup_iff.mpr h

/-- **`GetRuntimeMetrics` tells what was recorded, whatever the order of the hash map.**  There is
one row for each method and status that a request has ended with; it counts those requests, the
failed ones among them and their time; and the rows are sorted.  The Admin API lists the same
rows. -/
theorem runtime_metrics (hn : KnownNames samples)
    (hp : snapshot.Perm (MetricsRegistry.recorded samples)) (s : Nat)
    (c : ServerCtx) (hc : c.metrics = snapshot) (db : ServerDb) :
    ∃ response, getRuntimeMetrics.run (ServerStmt.exec s c) db = some (.ok response, db) ∧
      Keyed.Rising MethodMetricDto.place response.methods ∧
      (∀ row, row ∈ response.methods ↔ ∃ x ∈ samples, row = x.summary samples) ∧
      (methodMetrics snapshot).Perm response.methods := by
  subst hc
  have hperm := (List.perm_insertionSort (fun left right : MethodMetricDto =>
    left.place ≤ right.place) (methodMetrics c.metrics)).symm
  refine ⟨⟨sortedMetrics c.metrics, c.pool⟩, rfl, ?_, fun row => ?_, hperm⟩
  · exact Keyed.Rising.insertionSort MethodMetricDto.place (nodup_place (nodup_recorded hp))
  · rw [← hn.mem_methodMetrics hp]
    exact hperm.symm.mem_iff

end

/-- three requests, and the hash map in the other order -/
def threeRequests : List RpcSample :=
  [⟨"cache", "get", "ok", millis 8⟩, ⟨"cache", "get", "not_found", millis 2⟩,
   ⟨"cache", "get", "ok", 1500⟩]

theorem runtime_metrics_threeRequests :
    ∃ response : RuntimeMetricsResponse,
      response.methods = [⟨"cache", "get", "not_found", 1, 1, 2⟩, ⟨"cache", "get", "ok", 2, 0, 9⟩] ∧
      ∀ row, row ∈ response.methods ↔ ∃ x ∈ threeRequests, row = x.summary threeRequests := by
  have hnames : KnownNames threeRequests := by
    unfold KnownNames threeRequests rpcNames
    decide
  obtain ⟨response, hrun, -, hrows, -⟩ := runtime_metrics hnames
    (List.reverse_perm (MetricsRegistry.recorded threeRequests)) 0
    { serverAt 0 with metrics := (MetricsRegistry.recorded threeRequests).reverse } rfl .empty
  have hresponse : (some (.ok ⟨sortedMetrics (MetricsRegistry.recorded threeRequests).reverse,
      ⟨1, 1⟩⟩, ServerDb.empty) : Option (PgAppResult RuntimeMetricsResponse × ServerDb))
      = some (.ok response, .empty) := hrun
  obtain rfl := Except.ok.inj (Prod.mk.inj (Option.some.inj hresponse)).1
  exact ⟨_, by rfl, hrows⟩

end PgApp
