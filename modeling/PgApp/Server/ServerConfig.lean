import PgApp.Server.AdminHttp
import PgApp.Server.CacheGrpc

/-!
# The settings of the server (`config.rs`), and what `serve` hands on

* `parseInt`         `str::parse` of the integer types, with its four errors;
* `fromMap`          `ServerConfig::from_map`: an environment becomes settings, or the first error;
* `fromMap_spec`     what an accepted environment says of the settings the stores work with;
* `ServerConfig.mqStore`, `configStore`, `adminStore`, `cacheGrpc`, `adminHttpState`
                     what `serve` makes of the settings.

An environment is a function: the variables that are not set are `none`.  `usize` has 64 bits.
`SocketAddr::from_str` is a parameter.
-/

namespace PgApp

/-! ## `str::parse` -/

structure IntType where
  signed : Bool
  least : Int
  greatest : Int

def IntType.i32 : IntType := ⟨true, -2147483648, 2147483647⟩
def IntType.i64 : IntType := ⟨true, -9223372036854775808, 9223372036854775807⟩
def IntType.u32 : IntType := ⟨false, 0, 4294967295⟩
def IntType.u64 : IntType := ⟨false, 0, 18446744073709551615⟩
def IntType.usize : IntType := .u64

/-- `std::num::IntErrorKind` -/
inductive IntErrorKind where
  | empty
  | invalidDigit
  | posOverflow
  | negOverflow
deriving DecidableEq

def IntErrorKind.text : IntErrorKind → String
  | .empty => "cannot parse integer from empty string"
  | .invalidDigit => "invalid digit found in string"
  | .posOverflow => "number too large to fit in target type"
  | .negOverflow => "number too small to fit in target type"

/-- a digit after the number `n` -/
def pushDigit (negative : Bool) (n : Int) (ch : Char) : Int :=
  let digit : Int := ch.toNat - '0'.toNat
  if negative then n * 10 - digit else n * 10 + digit

/-- the digits after the number `n`, of a text with or without a minus sign -/
def parseDigits (t : IntType) (negative : Bool) : List Char → Int → Except IntErrorKind Int
  | [], n => .ok n
  | ch :: chars, n =>
    if ch.isDigit then
      if pushDigit negative n ch < t.least then .error .negOverflow
      else if t.greatest < pushDigit negative n ch then .error .posOverflow
      else parseDigits t negative chars (pushDigit negative n ch)
    else .error .invalidDigit

def parseInt (t : IntType) (text : String) : Except IntErrorKind Int :=
  match text.toList with
  | [] => .error .empty
  | ['+'] | ['-'] => .error .invalidDigit
  | '+' :: chars => parseDigits t false chars 0
  | '-' :: chars =>
    if t.signed then parseDigits t true chars 0 else parseDigits t false ('-' :: chars) 0
  | chars => parseDigits t false chars 0

example : parseInt .i32 "-12" = .ok (-12) ∧ parseInt .usize "-12"
  = .error .invalidDigit := by decide

theorem parseDigits_range {t : IntType} {negative : Bool} {chars : List Char} {n v : Int}
    (hn : t.least ≤ n ∧ n ≤ t.greatest) (h : parseDigits t negative chars n = .ok v) :
    t.least ≤ v ∧ v ≤ t.greatest := by
  induction chars generalizing n with
  | nil =>
    cases h
    exact hn
  | cons ch chars ih =>
    unfold parseDigits at h
    split at h
    · split at h
      · cases h
      · rename_i hlow
        split at h
        · cases h
        · rename_i hhigh
          exact ih ⟨not_lt.mp hlow, not_lt.mp hhigh⟩ h
    · cases h

theorem parseInt_range {t : IntType} {text : String} {v : Int} (h0 : t.least ≤ 0 ∧ 0 ≤ t.greatest)
    (h : parseInt t text = .ok v) : t.least ≤ v ∧ v ≤ t.greatest := by
  unfold parseInt at h
  split at h
  · cases h
  · cases h
  · cases h
  · exact parseDigits_range h0 h
  · split at h
    · exact parseDigits_range h0 h
    · exact parseDigits_range h0 h
  · exact parseDigits_range h0 h

/-! ## settings -/

structure SocketAddr where
  ip : String
  port : Nat

structure ServiceToggles where
  cache : Bool
  mq : Bool
  config : Bool

structure RequestLimits where
  maxBatchSize : Int
  maxPayloadBytes : Nat
  maxVisibilityTimeoutSeconds : Int
  maxConfigWatchSeconds : Int

structure AdminConfig where
  enabled : Bool
  bindAddr : SocketAddr
  token : Option String
  maxPageSize : Nat

structure ServerConfig where
  bindAddr : SocketAddr
  databaseUrl : String
  maxConnections : Nat
  minConnections : Nat
  services : ServiceToggles
  limits : RequestLimits
  cacheLimits : CacheLimits
  defaultRequestTimeoutSeconds : Nat
  transientQueuesEnabled : Bool
  authEnabled : Bool
  notifyEnabled : Bool
  maxRedeliveryCount : Int
  dlqRetentionDays : Int
  maxSchemaBytes : Nat
  admin : AdminConfig

/-! ## reading the environment -/

abbrev Env := String → Option String

section
variable (env : Env) (key : String)

/-- `.filter(|value| !value.is_empty())` -/
def nonEmpty (value : Option String) : Option String := value.filter fun v => !v.isEmpty

def required : PgAppResult String :=
  match nonEmpty (env key) with
  | some value => .ok value
  | none => .error (.invalidArgument s!"{key} is required")

def optional (default_ : String) : String := (env key).getD default_

def parseBool (default_ : Bool) : PgAppResult Bool :=
  match optional env key (if default_ then "true" else "false") with
  | "1" | "true" | "TRUE" | "yes" | "YES" => .ok true
  | "0" | "false" | "FALSE" | "no" | "NO" => .ok false
  | other => .error (.invalidArgument s!"{key} must be boolean, got {other}")

/-- `parse().map_err(…)` -/
def parsed (t : IntType) (text : String) : PgAppResult Int :=
  match parseInt t text with
  | .ok v => .ok v
  | .error err => .error (.invalidArgument s!"invalid {key}: {err.text}")

def parseI32 (default_ : Int) : PgAppResult Int :=
  parsed key .i32 (optional env key (toString default_))

def parseI64Of (default_ : Int) : PgAppResult Int :=
  parsed key .i64 (optional env key (toString default_))

def parseU32 (default_ : Nat) : PgAppResult Nat := do
  return (← parsed key .u32 (optional env key (toString default_))).toNat

def parseU64 (default_ : Nat) : PgAppResult Nat := do
  return (← parsed key .u64 (optional env key (toString default_))).toNat

def parseUsize (default_ : Nat) : PgAppResult Nat := do
  return (← parsed key .usize (optional env key (toString default_))).toNat

/-- the check of `parse_non_negative_i32` and `parse_non_negative_i64` -/
def nonNegative (v : Int) : PgAppResult Int :=
  if v < 0 then .error (.invalidArgument s!"{key} must not be negative") else .ok v

def parseNonNegativeI32 (default_ : Int) : PgAppResult Int := do
  nonNegative key (← parseI32 env key default_)

def parseNonNegativeI64 (default_ : Int) : PgAppResult Int := do
  nonNegative key (← parseI64Of env key default_)

def parseOptionalI64 : PgAppResult (Option Int) :=
  match nonEmpty (env key) with
  | none => .ok none
  | some raw => do
    let v ← parsed key .i64 raw
    if v ≤ 0 then .error (.invalidArgument s!"{key} must be positive when provided")
    else .ok (some v)

def parsePositiveUsize (default_ : Nat) : PgAppResult Nat := do
  let v ← parseUsize env key default_
  if v = 0 then .error (.invalidArgument s!"{key} must be positive") else .ok v

end

/-- `SocketAddr::from_str` with the error text of `from_map` -/
def parseAddr (addrOf : String → Except String SocketAddr) (env : Env) (key default_ : String) :
    PgAppResult SocketAddr :=
  match addrOf (optional env key default_) with
  | .ok addr => .ok addr
  | .error err => .error (.invalidArgument s!"invalid {key}: {err}")

def checkConnections (least greatest : Nat) : PgAppResult Unit :=
  if least > greatest then
    .error (.invalidArgument "PGAPP_MIN_CONNECTIONS must be <= PGAPP_MAX_CONNECTIONS")
  else .ok ()

def checkAdminToken (enabled : Bool) (token : Option String) : PgAppResult Unit :=
  if enabled && token.isNone then
    .error (.invalidArgument "PGAPP_ADMIN_TOKEN is required when PGAPP_ENABLE_ADMIN=true")
  else .ok ()

def servicesOf (env : Env) : PgAppResult ServiceToggles := do
  let cache ← parseBool env "PGAPP_ENABLE_CACHE" true
  let mq ← parseBool env "PGAPP_ENABLE_MQ" true
  let config ← parseBool env "PGAPP_ENABLE_CONFIG" true
  return ⟨cache, mq, config⟩

def limitsOf (env : Env) : PgAppResult RequestLimits := do
  let maxBatchSize ← parseI32 env "PGAPP_MAX_BATCH_SIZE" 100
  let maxPayloadBytes ← parseUsize env "PGAPP_MAX_PAYLOAD_BYTES" 1048576
  let maxVisibilityTimeoutSeconds ← parseI64Of env "PGAPP_MAX_VISIBILITY_TIMEOUT_SECONDS" 43200
  let maxConfigWatchSeconds ← parseI64Of env "PGAPP_MAX_CONFIG_WATCH_SECONDS" 30
  return ⟨maxBatchSize, maxPayloadBytes, maxVisibilityTimeoutSeconds, maxConfigWatchSeconds⟩

def cacheLimitsOf (env : Env) : PgAppResult CacheLimits := do
  let maxKeys ← parseOptionalI64 env "PGAPP_CACHE_MAX_KEYS"
  let maxBytes ← parseOptionalI64 env "PGAPP_CACHE_MAX_BYTES"
  return ⟨maxKeys, maxBytes⟩

def adminOf (addrOf : String → Except String SocketAddr) (env : Env) : PgAppResult AdminConfig := do
  let enabled ← parseBool env "PGAPP_ENABLE_ADMIN" false
  let bindAddr ← parseAddr addrOf env "PGAPP_ADMIN_BIND_ADDR" "127.0.0.1:8080"
  let token := nonEmpty (env "PGAPP_ADMIN_TOKEN")
  checkAdminToken enabled token
  let maxPageSize ← parsePositiveUsize env "PGAPP_ADMIN_MAX_PAGE_SIZE" 100
  return ⟨enabled, bindAddr, token, maxPageSize⟩

/-- `ServerConfig::from_map` -/
def fromMap (addrOf : String → Except String SocketAddr) (env : Env) :
    PgAppResult ServerConfig := do
  let databaseUrl ← required env "DATABASE_URL"
  let bindAddr ← parseAddr addrOf env "PGAPP_BIND_ADDR" "127.0.0.1:50051"
  let maxConnections ← parseU32 env "PGAPP_MAX_CONNECTIONS" 20
  let minConnections ← parseU32 env "PGAPP_MIN_CONNECTIONS" 1
  checkConnections minConnections maxConnections
  let admin ← adminOf addrOf env
  let services ← servicesOf env
  let limits ← limitsOf env
  let cacheLimits ← cacheLimitsOf env
  let defaultRequestTimeoutSeconds ← parseU64 env "PGAPP_DEFAULT_TIMEOUT_SECONDS" 30
  let transientQueuesEnabled ← parseBool env "PGAPP_ENABLE_TRANSIENT_QUEUES" false
  let authEnabled ← parseBool env "PGAPP_ENABLE_AUTH" false
  let notifyEnabled ← parseBool env "PGAPP_ENABLE_NOTIFY" true
  let maxRedeliveryCount ← parseNonNegativeI32 env "PGAPP_MAX_REDELIVERY_COUNT" 0
  let dlqRetentionDays ← parseNonNegativeI64 env "PGAPP_DLQ_RETENTION_DAYS" 0
  let maxSchemaBytes ← parsePositiveUsize env "PGAPP_MAX_SCHEMA_BYTES" 262144
  return ⟨bindAddr, databaseUrl, maxConnections, minConnections, services, limits, cacheLimits,
    defaultRequestTimeoutSeconds, transientQueuesEnabled, authEnabled, notifyEnabled,
    maxRedeliveryCount, dlqRetentionDays, maxSchemaBytes, admin⟩

/-- an address that is not looked at -/
def anyAddr (text : String) : Except String SocketAddr := .ok ⟨text, 0⟩

/-- the database, and one setting more -/
def envWith (key value : String) : Env := fun name =>
  if name = "DATABASE_URL" then some "postgres://localhost/pgapp"
  else if name = key then some value
  else none

example : (fromMap anyAddr (envWith "PGAPP_MAX_BATCH_SIZE" "-1")).toOption.map
    (fun cfg => (cfg.limits.maxBatchSize, cfg.admin.maxPageSize)) = some (-1, 100) := by rfl

/-! ## what an accepted environment says -/

section
variable {addrOf : String → Except String SocketAddr} {env : Env} {cfg : ServerConfig}

theorem limitsOf_spec {limits : RequestLimits} (h : limitsOf env = .ok limits) :
    parseI32 env "PGAPP_MAX_BATCH_SIZE" 100 = .ok limits.maxBatchSize ∧
      parseI64Of env "PGAPP_MAX_VISIBILITY_TIMEOUT_SECONDS" 43200
        = .ok limits.maxVisibilityTimeoutSeconds ∧
      parseI64Of env "PGAPP_MAX_CONFIG_WATCH_SECONDS" 30 = .ok limits.maxConfigWatchSeconds := by
  obtain ⟨batch, hbatch, h⟩ := Except.of_bind_ok h
  obtain ⟨payload, -, h⟩ := Except.of_bind_ok h
  obtain ⟨visibility, hvisibility, h⟩ := Except.of_bind_ok h
  obtain ⟨watch, hwatch, h⟩ := Except.of_bind_ok h
  cases h
  exact ⟨hbatch, hvisibility, hwatch⟩

theorem adminOf_spec {admin : AdminConfig} (h : adminOf addrOf env = .ok admin) :
    parsePositiveUsize env "PGAPP_ADMIN_MAX_PAGE_SIZE" 100 = .ok admin.maxPageSize := by
  obtain ⟨enabled, -, h⟩ := Except.of_bind_ok h
  obtain ⟨addr, -, h⟩ := Except.of_bind_ok h
  obtain ⟨-, -, h⟩ := Except.of_bind_ok h
  obtain ⟨size, hsize, h⟩ := Except.of_bind_ok h
  cases h
  exact hsize

/-- the settings that bound requests, read off the environment -/
structure Accepted (env : Env) (cfg : ServerConfig) : Prop where
  batch : parseI32 env "PGAPP_MAX_BATCH_SIZE" 100 = .ok cfg.limits.maxBatchSize
  visibility : parseI64Of env "PGAPP_MAX_VISIBILITY_TIMEOUT_SECONDS" 43200
    = .ok cfg.limits.maxVisibilityTimeoutSeconds
  watch : parseI64Of env "PGAPP_MAX_CONFIG_WATCH_SECONDS" 30 = .ok cfg.limits.maxConfigWatchSeconds
  pageSize : parsePositiveUsize env "PGAPP_ADMIN_MAX_PAGE_SIZE" 100 = .ok cfg.admin.maxPageSize
  timeout : parseU64 env "PGAPP_DEFAULT_TIMEOUT_SECONDS" 30 = .ok cfg.defaultRequestTimeoutSeconds

theorem fromMap_spec (h : fromMap addrOf env = .ok cfg) : Accepted env cfg := by
  obtain ⟨url, -, h⟩ := Except.of_bind_ok h
  obtain ⟨addr, -, h⟩ := Except.of_bind_ok h
  obtain ⟨most, -, h⟩ := Except.of_bind_ok h
  obtain ⟨least, -, h⟩ := Except.of_bind_ok h
  obtain ⟨-, -, h⟩ := Except.of_bind_ok h
  obtain ⟨admin, hadmin, h⟩ := Except.of_bind_ok h
  obtain ⟨services, -, h⟩ := Except.of_bind_ok h
  obtain ⟨limits, hlimits, h⟩ := Except.of_bind_ok h
  obtain ⟨cacheLimits, -, h⟩ := Except.of_bind_ok h
  obtain ⟨timeout, htimeout, h⟩ := Except.of_bind_ok h
  obtain ⟨transient, -, h⟩ := Except.of_bind_ok h
  obtain ⟨auth, -, h⟩ := Except.of_bind_ok h
  obtain ⟨notify, -, h⟩ := Except.of_bind_ok h
  obtain ⟨redelivery, -, h⟩ := Except.of_bind_ok h
  obtain ⟨retention, -, h⟩ := Except.of_bind_ok h
  obtain ⟨schemaBytes, -, h⟩ := Except.of_bind_ok h
  cases h
  obtain ⟨h1, h2, h3⟩ := limitsOf_spec hlimits
  exact ⟨h1, h2, h3, adminOf_spec hadmin, htimeout⟩

/-! ## the ranges of the settings -/

theorem parsed_range {key text : String} {t : IntType} {v : Int}
    (h0 : t.least ≤ 0 ∧ 0 ≤ t.greatest) (h : parsed key t text = .ok v) :
    t.least ≤ v ∧ v ≤ t.greatest := by
  unfold parsed at h
  split at h
  · rename_i w hw
    cases h
    exact parseInt_range h0 hw
  · cases h

theorem parseUsize_range {key : String} {default_ v : Nat}
    (h : parseUsize env key default_ = .ok v) : v < 2 ^ 64 := by
  obtain ⟨n, hn, h⟩ := Except.of_bind_ok h
  cases h
  have hr := (parsed_range (by decide) hn).2
  have : IntType.usize.greatest = 18446744073709551615 := rfl
  omega

theorem parsePositiveUsize_range {key : String} {default_ v : Nat}
    (h : parsePositiveUsize env key default_ = .ok v) : 1 ≤ v ∧ v < 2 ^ 64 := by
  obtain ⟨n, hn, h⟩ := Except.of_bind_ok h
  have hlt := parseUsize_range hn
  split at h
  · cases h
  · cases h
    omega

theorem Accepted.batch_range (h : Accepted env cfg) :
    -2147483648 ≤ cfg.limits.maxBatchSize ∧ cfg.limits.maxBatchSize ≤ 2147483647 :=
  parsed_range (by decide) h.batch

theorem Accepted.pageSize_range (h : Accepted env cfg) :
    1 ≤ cfg.admin.maxPageSize ∧ cfg.admin.maxPageSize < 2 ^ 64 :=
      parsePositiveUsize_range h.pageSize

end

/-! ## what `serve` makes of the settings -/

/-- third-party code that the stores use -/
structure Libraries where
  fromStr : String → Except String Json
  toVec : Json → Except String (List UInt8)
  toText : Json → String
  sha256Hex : List UInt8 → String
  hashKey : String → String
  validatorFor : Json → Except String (Json → Except String Unit)
  clients : ClientLib

section
variable (cfg : ServerConfig) (lib : Libraries)

def ServerConfig.mqStore : MqStore :=
  ⟨cfg.transientQueuesEnabled, ⟨cfg.limits.maxBatchSize, cfg.limits.maxPayloadBytes,
    cfg.limits.maxVisibilityTimeoutSeconds, cfg.maxRedeliveryCount⟩, lib.fromStr⟩

def ServerConfig.configStore : ConfigStore :=
  ⟨⟨cfg.limits.maxConfigWatchSeconds, cfg.limits.maxPayloadBytes, cfg.admin.maxPageSize,
    cfg.maxSchemaBytes⟩, lib.toVec, lib.sha256Hex, lib.validatorFor⟩

def ServerConfig.adminStore : AdminStore := .new cfg.admin.maxPageSize lib.toText

def ServerConfig.cacheGrpc : CacheGrpc :=
  ⟨⟨cfg.cacheLimits, lib.hashKey⟩, cfg.services.cache, cfg.limits.maxBatchSize,
    cfg.limits.maxPayloadBytes⟩

/-- the state of the admin API; `token` is what `expect` takes out of the settings -/
def ServerConfig.adminHttpState (token : String) : AdminHttpState :=
  ⟨cfg.configStore lib, cfg.adminStore lib, lib.clients, lib.fromStr, cfg.services.cache,
    cfg.services.mq, cfg.services.config, token⟩

end

end PgApp
