import PgApp.Cache.OneKey
import PgApp.Cache.SetNx

/-!
# The Cache service (`pgapp-server/src/lib.rs`, `impl CacheService for CacheGrpc`)

A request is checked (`accept`: the service is enabled, the payload or the batch is not too long,
the ttl is not negative), becomes a call of the store, and the store's answer becomes the response
(`reply`).  A request that is not admitted executes no statement.

`record_rpc` is left out: it measures the call and ends it when it takes too long.

`max_payload_bytes` bounds the payload of a request.  What is stored is another matter:
`cache_payload` says how far a stored value can grow.
-/

namespace PgApp
open Interleave

/-! ## requests and responses (`cache.proto`) -/

inductive CacheRequest where
  | set (ns key : String) (value : Bytes) (ttlSeconds : Int)
  | get (ns key : String)
  | mGet (ns : String) (keys : List String)
  | delete (ns key : String)
  | exists_ (ns key : String)
  | invalidateNamespace (ns : String)
  | stats
  | increment (ns key : String) (delta ttlSeconds : Int)
  | decrement (ns key : String) (delta ttlSeconds : Int)
  | setNx (ns key : String) (value : Bytes) (ttlSeconds : Int)
  | getSet (ns key : String) (value : Bytes) (ttlSeconds : Int)
  | append (ns key : String) (value : Bytes) (ttlSeconds : Int)
  | prepend (ns key : String) (value : Bytes) (ttlSeconds : Int)

structure CacheItem where
  key : String
  hit : Bool
  value : Bytes

inductive CacheResponse where
  | operationResult (success : Bool)
  | get (hit : Bool) (value : Bytes)
  | mGet (items : List CacheItem)
  | exists_ (exists_ : Bool)
  | stats (stats : CacheStats)
  | increment (value : Int)
  | decrement (value : Int)
  | setNx (created : Bool)
  | getSet (hit : Bool) (oldValue : Bytes)
  | append (length : Int)
  | prepend (length : Int)

/-! ## checks -/

def payloadExceeds (max : Nat) : Status :=
    .ofError (.invalidArgument s!"payload exceeds {max} bytes")

def validatePayloadBytes (len max : Nat) : Except Status Unit :=
  if len > max then .error (payloadExceeds max) else .ok ()

def ttlFromProto (ttlSeconds : Int) : Except Status (Option Int) :=
  if ttlSeconds > 0 then .ok (some ttlSeconds)
  else if ttlSeconds = 0 then .ok none
  else .error (.ofError (.invalidArgument "ttl_seconds must not be negative"))

def validateBatchLen (len : Nat) (max : Int) : Except Status Unit :=
  if len > asUsize max then
    .error (.ofError (.invalidArgument s!"batch size must be less than or equal to {max}"))
  else .ok ()

/-- the service, with the limits of `RequestLimits` it reads -/
structure CacheGrpc where
  store : CacheStore
  enabled : Bool
  maxBatchSize : Int
  maxPayloadBytes : Nat

section
variable (grpc : CacheGrpc)

def CacheGrpc.ensureEnabled : Except Status Unit :=
  if grpc.enabled then .ok () else .error ⟨.unavailable, "cache service is disabled"⟩

/-- the checks of a write of bytes -/
def CacheGrpc.admitValue (value : Bytes) (ttlSeconds : Int) : Except Status (Option Int) := do
  grpc.ensureEnabled
  validatePayloadBytes value.length grpc.maxPayloadBytes
  ttlFromProto ttlSeconds

/-- what a request asks of the store -/
def CacheGrpc.accept : CacheRequest → Except Status CacheOp
  | .set ns key value ttl => do return .set ns key value (← grpc.admitValue value ttl)
  | .get ns key => do grpc.ensureEnabled; return .get ns key
  | .mGet ns keys => do
    grpc.ensureEnabled
    validateBatchLen keys.length grpc.maxBatchSize
    return .mget ns keys
  | .delete ns key => do grpc.ensureEnabled; return .delete ns key
  | .exists_ ns key => do grpc.ensureEnabled; return .exists_ ns key
  | .invalidateNamespace ns => do grpc.ensureEnabled; return .invalidateNamespace ns
  | .stats => do grpc.ensureEnabled; return .stats
  | .increment ns key delta ttl => do
    grpc.ensureEnabled
    return .increment ns key delta (← ttlFromProto ttl)
  | .decrement ns key delta ttl => do
    grpc.ensureEnabled
    return .decrement ns key delta (← ttlFromProto ttl)
  | .setNx ns key value ttl => do return .setNx ns key value (← grpc.admitValue value ttl)
  | .getSet ns key value ttl => do return .getSet ns key value (← grpc.admitValue value ttl)
  | .append ns key value ttl => do return .append ns key value (← grpc.admitValue value ttl)
  | .prepend ns key value ttl => do return .prepend ns key value (← grpc.admitValue value ttl)

end

/-- the response made of the store's answer -/
def CacheRequest.reply : CacheRequest → CacheReturn → CacheResponse
  | .get _ _, .value value => .get value.isSome (value.getD [])
  | .mGet _ _, .values values => .mGet (values.map fun p => ⟨p.1, p.2.isSome, p.2.getD []⟩)
  | .delete _ _, .bool success => .operationResult success
  | .exists_ _ _, .bool b => .exists_ b
  | .stats, .stats s => .stats s
  | .increment _ _ _ _, .int n => .increment n
  | .decrement _ _ _ _, .int n => .decrement n
  | .setNx _ _ _ _, .bool created => .setNx created
  | .getSet _ _ _ _, .value old => .getSet old.isSome (old.getD [])
  | .append _ _ _ _, .int n => .append n
  | .prepend _ _ _ _, .int n => .prepend n
  | _, _ => .operationResult true

/-- the int64 fields of a request -/
def CacheRequest.InRange : CacheRequest → Prop
  | .increment _ _ delta _ | .decrement _ _ delta _ => inI64 delta
  | _ => True

/-- a request, with the bound on the eviction rounds of the call it becomes -/
structure CacheRpc where
  rounds : Nat
  req : CacheRequest
  inRange : req.InRange

/-- the call of an admitted request -/
def CacheGrpc.call (grpc : CacheGrpc) (rpc : CacheRpc) : CacheCall :=
  ⟨grpc.store, rpc.rounds, (grpc.accept rpc.req).toOption.getD .stats⟩

/-- the code of a request -/
def CacheGrpc.serve (grpc : CacheGrpc) (rpc : CacheRpc) :
    Prog CacheStmt CacheStmt.Res Status CacheResponse :=
  match grpc.accept rpc.req with
  | .error status => .ret (.error status)
  | .ok _ => (grpc.call rpc).body.mapResult fun
    | .ok a => .ok (rpc.req.reply a)
    | .error e => .error (.ofError e)

abbrev CacheGrpcSys :=
  Sys CacheStmt CacheStmt.Res Status CacheResponse CacheRpc CacheCtx CacheDb

/-- reachable by requests of any number of clients, in any interleaving -/
abbrev CacheGrpcReach (grpc : CacheGrpc) (σ : CacheGrpcSys) : Prop :=
  Reach CacheStmt.exec grpc.serve CacheDb.empty σ

/-! ## what is known while requests are served -/

section
variable {grpc : CacheGrpc} {σ : CacheGrpcSys}

/-- the code of a request is the code of its call, if it is admitted -/
theorem serve_safe (rpc : CacheRpc) {γ : OwnView CacheRpc} (h : γ.tx = none) :
    Safe (fun st γ => (∃ op, grpc.accept rpc.req = .ok op) ∧ Follows (grpc.call rpc) st γ)
      (OwnStep rpc)
      (fun r γ => γ.tx = none ∧ ∀ status, grpc.accept rpc.req = .error status → r = .error status)
      (grpc.serve rpc) γ := by
  unfold CacheGrpc.serve
  cases ha : grpc.accept rpc.req with
  | error status =>
    refine ⟨h, fun status' hs => ?_⟩
    rw [Except.error.inj hs]
  | ok op =>
    refine Safe.mono_pre (Safe.mapResult (cache_body rpc (grpc.call rpc) h) ?_)
      fun _ _ hf => ⟨⟨op, rfl⟩, hf⟩
    exact fun r γ' hr => ⟨hr.1, fun status hs => (by cases hs)⟩

theorem cacheGrpc_relies (hr : CacheGrpcReach grpc σ) :
    Relies CacheStmt.exec CacheGood ownView
      (fun rpc st γ => (∃ op, grpc.accept rpc.req = .ok op) ∧ Follows (grpc.call rpc) st γ) OwnStep
      (fun rpc r γ => γ.tx = none ∧ ∀ status, grpc.accept rpc.req = .error status →
        r = .error status)
      (fun γ => γ.tx = none) σ :=
  hr.rely (own_rules _) (fun _ _ _ h => h.1) fun rpc _ h => serve_safe rpc h

theorem cacheGrpc_follows (hr : CacheGrpcReach grpc σ) :
    Always (fun e h => Ordered grpc.call e h ∧ ∃ op, grpc.accept e.op.req = .ok op) σ.hist :=
  (cacheGrpc_relies hr).past.mono fun _ _ h => ⟨⟨h.1, h.2.1.2, h.2.2⟩, h.2.1.1⟩

/-! ## how long a stored value gets -/

/-- a request that stores more than it brings -/
def CacheRequest.extends : CacheRequest → Bool
  | .append _ _ _ _ | .prepend _ _ _ _ => true
  | _ => false

/-- the bytes a request brings -/
def CacheRequest.payload : CacheRequest → Bytes
  | .set _ _ value _ | .setNx _ _ value _ | .getSet _ _ value _ | .append _ _ value _
  | .prepend _ _ value _ => value
  | _ => []

section
variable (grpc)

/-- how long a value a request can store where it finds one of length `found` -/
def CacheGrpc.stores (req : CacheRequest) (found : Nat) : Nat :=
  match req with
  | .append _ _ _ _ | .prepend _ _ _ _ => found + grpc.maxPayloadBytes
  | .increment _ _ _ _ | .decrement _ _ _ _ => 20
  | _ => grpc.maxPayloadBytes

/-- how long the value of a unique key can be after these statements -/
def CacheGrpc.valueBound (u : String × Int × String) : List (CacheEvOf CacheRpc) → Nat
  | [] => 0
  | e :: h =>
    if (publishedBy e).any (·.uniq == u) then grpc.stores e.op.req (valueBound u h)
    else valueBound u h

end

theorem stores_mono (req : CacheRequest) {m n : Nat} (h : m ≤ n) :
    grpc.stores req m ≤ grpc.stores req n := by
  cases req with
  | append _ _ _ _ | prepend _ _ _ _ => exact Nat.add_le_add_right h _
  | _ => exact Nat.le_refl _

theorem Except.of_bind_ok {ε α β : Type} {x : Except ε α} {f : α → Except ε β} {b : β}
    (h : x >>= f = .ok b) : ∃ a, x = .ok a ∧ f a = .ok b := by
  cases x with
  | error e => cases h
  | ok a => exact ⟨a, rfl, h⟩

theorem admitValue_ok {value : Bytes} {ttlSeconds : Int} {ttl : Option Int}
    (h : grpc.admitValue value ttlSeconds = .ok ttl) : value.length ≤ grpc.maxPayloadBytes := by
  obtain ⟨_, -, h⟩ := Except.of_bind_ok h
  obtain ⟨_, hv, -⟩ := Except.of_bind_ok h
  unfold validatePayloadBytes at hv
  by_cases hl : value.length > grpc.maxPayloadBytes
  · rw [if_pos hl] at hv
    cases hv
  · omega

theorem plus_length {d : Int} (hd : inI64 d) {old : Option Bytes} {a : CacheReturn} {v : Bytes}
    (h : plus d old = .ok (a, some v)) : v.length ≤ 20 := by
  cases old with
  | none =>
    cases h
    exact decimal_length hd
  | some old =>
    unfold plus at h
    cases hp : parseI64 old with
    | none =>
      simp only [hp] at h
      cases h
    | some n =>
      simp only [hp] at h
      by_cases hi : inI64 (n + d)
      · rw [if_pos hi] at h
        cases h
        exact decimal_length hi
      · rw [if_neg hi] at h
        cases h

theorem register_length {rpc : CacheRpc} {op : CacheOp} (ha : grpc.accept rpc.req = .ok op)
    (ht : op.target.isSome = true) {old : Option Bytes} {a : CacheReturn} {v : Bytes}
    (hreg : op.register old = .ok (a, some v)) (hat : old.isSome = true → op.atomic = true) :
    v.length ≤ grpc.stores rpc.req (old.getD []).length := by
  obtain ⟨rounds, req, hr⟩ := rpc
  have hvalue : ∀ {value : Bytes} {ttl : Int} {f : Option Int → CacheOp},
      (grpc.admitValue value ttl >>= fun t => pure (f t)) = .ok op →
      value.length ≤ grpc.maxPayloadBytes ∧ ∃ t, op = f t := by
    intro value ttl f h
    obtain ⟨t, h1, h2⟩ := Except.of_bind_ok h
    exact ⟨admitValue_ok h1, t, (Except.ok.inj h2).symm⟩
  have hplain : ∀ {f : CacheOp}, (grpc.ensureEnabled >>= fun _ => pure f) = .ok op → op = f := by
    intro f h
    obtain ⟨-, -, h⟩ := Except.of_bind_ok h
    exact (Except.ok.inj h).symm
  have hint : ∀ {ttl : Int} {f : Option Int → CacheOp},
      (grpc.ensureEnabled >>= fun _ => ttlFromProto ttl >>= fun t => pure (f t)) = .ok op →
      ∃ t, op = f t := by
    intro ttl f h
    obtain ⟨-, -, h⟩ := Except.of_bind_ok h
    obtain ⟨t, -, h⟩ := Except.of_bind_ok h
    exact ⟨t, (Except.ok.inj h).symm⟩
  cases req with
  | set ns key value ttl =>
    obtain ⟨hl, t, rfl⟩ := hvalue ha
    cases hreg
    exact hl
  | setNx ns key value ttl =>
    obtain ⟨hl, t, rfl⟩ := hvalue ha
    cases old with
    | none =>
      cases hreg
      exact hl
    | some w => cases hat rfl
  | getSet ns key value ttl =>
    obtain ⟨hl, t, rfl⟩ := hvalue ha
    cases hreg
    exact hl
  | append ns key value ttl =>
    obtain ⟨hl, t, rfl⟩ := hvalue ha
    cases hreg
    show (old.getD [] ++ value).length ≤ (old.getD []).length + grpc.maxPayloadBytes
    rw [List.length_append]
    omega
  | prepend ns key value ttl =>
    obtain ⟨hl, t, rfl⟩ := hvalue ha
    cases hreg
    show (value ++ old.getD []).length ≤ (old.getD []).length + grpc.maxPayloadBytes
    rw [List.length_append]
    omega
  | increment ns key d ttl =>
    obtain ⟨t, rfl⟩ := hint ha
    exact plus_length hr hreg
  | decrement ns key d ttl =>
    obtain ⟨t, rfl⟩ := hint ha
    by_cases hn : inI64 (-d)
    · have hplus : plus (-d) old = .ok (a, some v) := (if_pos hn).symm.trans hreg
      exact plus_length hn hplus
    · cases (if_neg hn).symm.trans hreg
  | mGet ns keys =>
    obtain ⟨-, -, h⟩ := Except.of_bind_ok ha
    obtain ⟨-, -, h⟩ := Except.of_bind_ok h
    cases h
    cases ht
  | get ns key | delete ns key | exists_ ns key | invalidateNamespace ns | stats =>
    have hop := hplain ha
    rw [hop] at ht
    cases ht

/-- **Stored values keep to their bounds.** -/
theorem valueBound_step {s : Nat} {rpc : CacheRpc} {c : CacheCtx} {st : CacheStmt}
    {db db' : CacheDb}
    {r : st.Res} {h : List (CacheEvOf CacheRpc)}
    (hi : ∀ x ∈ db.entries, x.valueBytes.length ≤ grpc.valueBound x.uniq h)
    (ho : Ordered grpc.call ⟨s, rpc, c, st, r, db⟩ h) (ha : ∃ op, grpc.accept rpc.req = .ok op)
    (hx : CacheStmt.exec s c st db = some (r, db')) :
    ∀ x ∈ db'.entries, x.valueBytes.length
        ≤ grpc.valueBound x.uniq (⟨s, rpc, c, st, r, db⟩ :: h) := by
  intro x hm
  have hok := CacheStmt.exec_ok ho.good.ok hx
  unfold CacheGrpc.valueBound
  by_cases hp : (publishedBy (⟨s, rpc, c, st, r, db⟩ : CacheEvOf CacheRpc)).any
    (·.uniq == x.uniq) = true
  · rw [if_pos hp]
    obtain ⟨y, hy, hu⟩ := List.any_eq_true.mp hp
    obtain rfl : y = x := hok.eq_of_uniq (published_mem ho.good.ok hx hy) hm (by simpa using hu)
    obtain ⟨a, old, hreg, hold⟩ := published_value ho hy
    obtain ⟨op, ha⟩ := ha
    have hop : (grpc.call rpc).op = op := by
      unfold CacheGrpc.call
      rw [ha]
      rfl
    have htar := (published_key ho hy).1
    rw [hop] at hreg hold htar
    have hlen := register_length ha (by rw [htar]; rfl) hreg fun hs => by
      obtain ⟨w, hw⟩ := Option.isSome_iff_exists.mp hs
      exact (hold w hw).1
    refine Nat.le_trans hlen (stores_mono rpc.req ?_)
    cases old with
    | none => exact Nat.zero_le _
    | some w =>
      obtain ⟨-, z, hz, hzu, rfl⟩ := hold w rfl
      rw [← hzu]
      exact hi z hz
  · rw [if_neg hp]
    rcases exec_rows ho.good.ok hx hm with hw | ⟨y, hy, hc⟩
    · exact absurd (List.any_eq_true.mpr ⟨x, hw, by simp⟩) hp
    · have hu : y.uniq = x.uniq := congrArg (·.2.1) hc
      have hv : y.valueBytes = x.valueBytes := congrArg (·.2.2.2.1) hc
      rw [← hu, ← hv]
      exact hi y hy

theorem valueBound_le (hmax : 20 ≤ grpc.maxPayloadBytes) {h : List (CacheEvOf CacheRpc)}
    (hext : ∀ e ∈ h, e.op.req.extends = false) (u : String × Int × String) :
    grpc.valueBound u h ≤ grpc.maxPayloadBytes := by
  induction h with
  | nil => exact Nat.zero_le _
  | cons e h ih =>
    unfold CacheGrpc.valueBound
    split
    · have he := hext e List.mem_cons_self
      unfold CacheGrpc.stores
      cases hreq : e.op.req with
      | append _ _ _ _ | prepend _ _ _ _ =>
        rw [hreq] at he
        cases he
      | increment _ _ _ _ | decrement _ _ _ _ => exact hmax
      | _ => exact Nat.le_refl _
    · exact ih fun d hd => hext d (List.mem_cons_of_mem _ hd)

theorem admit_long {req : CacheRequest} (h : req.payload.length > grpc.maxPayloadBytes) :
    grpc.accept req = if grpc.enabled then .error (payloadExceeds grpc.maxPayloadBytes)
      else .error ⟨.unavailable, "cache service is disabled"⟩ := by
  have hvalue : ∀ {value : Bytes} {ttl : Int} {f : Option Int → CacheOp},
      value.length > grpc.maxPayloadBytes → (grpc.admitValue value ttl >>= fun t => pure (f t))
        = if grpc.enabled then .error (payloadExceeds grpc.maxPayloadBytes)
          else .error ⟨.unavailable, "cache service is disabled"⟩ := by
    intro value ttl f hl
    unfold CacheGrpc.admitValue CacheGrpc.ensureEnabled validatePayloadBytes
    rw [if_pos hl]
    cases grpc.enabled with
    | true => rfl
    | false => rfl
  cases req with
  | set _ _ _ _ | setNx _ _ _ _ | getSet _ _ _ _ | append _ _ _ _ | prepend _ _ _ _ =>
    exact hvalue h
  | _ => cases h

end

/-- **What `max_payload_bytes` bounds.**  A request whose payload is longer is refused and executes
no statement; so a value stored whole is no longer than that (or than the text of an i64), and each
`Append` and `Prepend` adds at most that much to the value it finds. -/
theorem cache_payload {grpc : CacheGrpc} {σ : CacheGrpcSys} (hr : CacheGrpcReach grpc σ) :
    (∀ x ∈ σ.db.entries, x.valueBytes.length ≤ grpc.valueBound x.uniq σ.hist) ∧
    (20 ≤ grpc.maxPayloadBytes → (∀ e ∈ σ.hist, e.op.req.extends = false) →
      ∀ x ∈ σ.db.entries, x.valueBytes.length ≤ grpc.maxPayloadBytes) ∧
    (∀ e ∈ σ.hist, e.op.req.payload.length ≤ grpc.maxPayloadBytes) ∧
    ∀ s rpc r, (s, rpc, r) ∈ σ.done → rpc.req.payload.length > grpc.maxPayloadBytes →
      grpc.enabled = true → r = .error (payloadExceeds grpc.maxPayloadBytes) := by
  have hbound : ∀ x ∈ σ.db.entries, x.valueBytes.length ≤ grpc.valueBound x.uniq σ.hist :=
    hr.invariant_of _ (fun db h => ∀ x ∈ db.entries, x.valueBytes.length ≤ grpc.valueBound x.uniq h)
      (fun x hx => (by cases hx)) (fun _ _ _ _ _ _ _ _ hi ho hx => valueBound_step hi ho.1 ho.2 hx)
      (cacheGrpc_follows hr)
  refine ⟨hbound, fun hmax hext x hx => ?_, fun e he => ?_, ?_⟩
  · exact Nat.le_trans (hbound x hx) (valueBound_le hmax hext x.uniq)
  · obtain ⟨h, -, op, hop⟩ := (cacheGrpc_follows hr).of_mem he
    by_contra hlong
    rw [admit_long (by omega)] at hop
    split at hop
    · cases hop
    · cases hop
  · refine hr.done_of (fun rpc r _ => rpc.req.payload.length > grpc.maxPayloadBytes →
      grpc.enabled = true → r = .error (payloadExceeds grpc.maxPayloadBytes)) ?_
        (fun _ _ _ _ h => h)
    intro τ s rpc r hτ hp hlong hen
    have hQ := ((cacheGrpc_relies hτ).running s rpc _ hp).2
    apply hQ
    rw [admit_long hlong, if_pos hen]

/-- payloads of at most four bytes -/
def fourBytes : CacheGrpc := ⟨unbounded sampleHash, true, 100, 4⟩

def appendThree : CacheRpc := ⟨0, .append "app" "a" [1, 2, 3] 0, trivial⟩

/-- the same `Append` twice -/
def appendedTwice : List (Act CacheRpc CacheCtx) :=
  .call 0 appendThree :: (List.replicate 13 (.stmt 0 ⟨0, id⟩) ++ .ret 0 ::
    .call 0 appendThree :: (List.replicate 13 (.stmt 0 ⟨1, id⟩) ++ [.ret 0]))

theorem appendedTwice_reach : ∃ σ : CacheGrpcSys, CacheGrpcReach fourBytes σ ∧
    σ.db.entries.map (fun x => (x.uniq, x.valueBytes))
      = [(("app", 0, sampleHash "a"), [1, 2, 3, 1, 2, 3])] ∧
    fourBytes.valueBound ("app", 0, sampleHash "a") σ.hist = 8 := by
  have h : ((Sys.init CacheDb.empty).play CacheStmt.exec fourBytes.serve appendedTwice).map
      (fun σ : CacheGrpcSys => (σ.db.entries.map fun x => (x.uniq, x.valueBytes),
        fourBytes.valueBound ("app", 0, sampleHash "a") σ.hist))
      = some ([(("app", 0, sampleHash "a"), [1, 2, 3, 1, 2, 3])], 8) := by rfl
  obtain ⟨σ, hplay, heq⟩ := Option.map_eq_some_iff.mp h
  simp only [Prod.mk.injEq] at heq
  exact ⟨σ, Sys.play_steps hplay, heq⟩

/-- the bound is kept, the value is longer than any payload -/
theorem cache_payload_appendedTwice : ∃ σ : CacheGrpcSys, CacheGrpcReach fourBytes σ ∧
    (∀ x ∈ σ.db.entries, x.valueBytes.length ≤ fourBytes.valueBound x.uniq σ.hist) ∧
    fourBytes.valueBound ("app", 0, sampleHash "a") σ.hist = 8 := by
  obtain ⟨σ, hr, -, hb⟩ := appendedTwice_reach
  exact ⟨σ, hr, (cache_payload hr).1, hb⟩

/-- **Two small requests make a value that is too long.** -/
theorem cache_payload_outgrown : ∃ σ : CacheGrpcSys, CacheGrpcReach fourBytes σ ∧
    ¬ ∀ x ∈ σ.db.entries, x.valueBytes.length ≤ fourBytes.maxPayloadBytes := by
  obtain ⟨σ, hr, he, -⟩ := appendedTwice_reach
  refine ⟨σ, hr, fun hall => ?_⟩
  obtain ⟨x, hx, hv⟩ := List.mem_map.mp (he ▸ List.mem_cons_self : (_, _) ∈ σ.db.entries.map _)
  have hlen := hall x hx
  rw [(Prod.mk.inj hv).2] at hlen
  exact absurd hlen (by decide)

end PgApp
