import PgApp.Server.Durations
import Mathlib.Algebra.BigOperators.Group.Finset.Basic

/-!
# The Watch RPC and its time limit

`record_rpc` puts a limit on every RPC, `PGAPP_DEFAULT_TIMEOUT_SECONDS`; `watch` waits as long as
the request asks, up to `PGAPP_MAX_CONFIG_WATCH_SECONDS`.  Both are 30 unless they are set.

`WatchWorld` is a clock on which a query takes the time `cost` says, a sleep lasts as asked, and
nothing else takes time; `found` are the tables that the queries find.  There a watch without news
ends at its deadline or up to 300 ms later (`run_watchLoop`), so the answer is there in time exactly
if it asks for less than the limit (`watch_answers`).
-/

namespace PgApp
open Interleave ConfigProg

/-! ## `record_rpc` -/

def statusLabel : Code → String
  | .invalidArgument => "invalid_argument"
  | .notFound => "not_found"
  | .alreadyExists => "already_exists"
  | .deadlineExceeded => "deadline_exceeded"
  | .unavailable => "unavailable"
  | .internal => "internal"
  | .unauthenticated => "unauthenticated"

/-- what `metrics.record` is told -/
structure RpcSample where
  service : String
  method : String
  status : String
  elapsed : Time

/-- `record_rpc` of a handler that starts at `start` and would be done at `ended.2`; at the limit
`tokio::time::timeout` still looks at the handler first -/
def recordRpc {α : Type} (service method : String) (requestTimeout start : Time)
    (ended : Except Status α × Time) : Except Status α × RpcSample :=
  let result := if ended.2 ≤ start + requestTimeout then ended.1
    else .error ⟨.deadlineExceeded, "request timed out"⟩
  let status := match result with
    | .ok _ => "ok"
    | .error err => statusLabel err.code
  (result, ⟨service, method, status, min (ended.2 - start) requestTimeout⟩)

/-! ## the handler -/

structure WatchConfigRequest where
  scope : Option ConfigScope
  knownRevision : Int
  timeoutSeconds : Int

/-- the body of `watch` -/
def ConfigGrpc.watch (grpc : ConfigGrpc) (rq : WatchConfigRequest) (rounds : Nat) :
    RpcProg ConfigWatchResult := do
  Prog.check grpc.ensureEnabled
  let scope ← Prog.check (requiredScope rq.scope)
  asStatus (onConfig (grpc.store.watch scope rq.knownRevision rq.timeoutSeconds 100 rounds))

def ServerConfig.configGrpc (cfg : ServerConfig) (lib : Libraries) : ConfigGrpc :=
  ⟨cfg.configStore lib, cfg.services.config⟩

/-! ## a clock for queries -/

structure WatchWorld where
  now : Int
  asked : Nat

section
variable (s : Nat) (cost : Nat → Int) (found : Nat → ConfigDb)

/-- a statement of the config store; a query finds the tables at its start -/
def WatchWorld.execConfig : (st : ConfigStmt) → WatchWorld → Option (st.Res × WatchWorld)
  | .utcNow, w => some (w.now, w)
  | .sleep duration, w => some ((), { w with now := w.now + duration })
  | st, w =>
    (st.exec s w.now (found w.asked)).map fun p => (p.1, ⟨w.now + cost w.asked, w.asked + 1⟩)

def WatchWorld.exec : (st : ServerStmt) → WatchWorld → Option (st.Res × WatchWorld)
  | .config st, w => w.execConfig s cost found st
  | _, _ => none

end

/-- the Watch RPC, called at `start` -/
def ServerConfig.watchRpc (cfg : ServerConfig) (lib : Libraries) (s : Nat) (cost : Nat → Int)
    (found : Nat → ConfigDb) (start : Time) (rq : WatchConfigRequest) (rounds : Nat) :
    Option (Except Status ConfigWatchResult × RpcSample) :=
  (((cfg.configGrpc lib).watch rq rounds).run (WatchWorld.exec s cost found)
      ⟨start, 0⟩).map fun p =>
    recordRpc "config" "watch" (seconds cfg.defaultRequestTimeoutSeconds) start (p.1, p.2.now)

/-- a clock on which a query takes some time, but less than the poll interval -/
def Prompt (cost : Nat → Int) : Prop := ∀ n, 0 < cost n ∧ cost n < watchInterval 100

/-- no query finds a release that is newer -/
def Unchanged (found : Nat → ConfigDb) (scope : ConfigScope) (known : Int) : Prop :=
  ∀ n, (found n).tables.latestNewerThan scope known = none

/-- the request is for a service that runs, and passes the checks of `watch` -/
structure WatchConfigRequest.Permitted (rq : WatchConfigRequest) (cfg : ServerConfig)
    (lib : Libraries) (scope : ConfigScope) : Prop where
  enabled : cfg.services.config = true
  given : rq.scope = some scope
  valid : (cfg.configStore lib).validateWatch scope rq.knownRevision rq.timeoutSeconds = .ok ()

/-- while nothing changes the RPC does not panic and answers so, on every prompt clock -/
structure ServerConfig.Answers (cfg : ServerConfig) (lib : Libraries) (start : Time)
    (rq : WatchConfigRequest) (scope : ConfigScope) (rounds : Nat) : Prop where
  deadline : (chrono.deadline start rq.timeoutSeconds).isSome = true
  answers : ∀ s cost found, Prompt cost → Unchanged found scope rq.knownRevision →
    ∃ revision sample, cfg.watchRpc lib s cost found start rq rounds
      = some (.ok ⟨false, revision, none⟩, sample)

/-! ## the loop -/

/-- what some queries have taken -/
def queryTime (cost : Nat → Int) (k n : Nat) : Int := ∑ i ∈ Finset.range n, cost (k + i)

theorem queryTime_add (cost : Nat → Int) (k m n : Nat) :
    queryTime cost k (m + n) = queryTime cost k m + queryTime cost (k + m) n := by
  unfold queryTime
  rw [Finset.sum_range_add]
  simp only [Nat.add_assoc]

theorem queryTime_two (cost : Nat → Int) (k : Nat) : queryTime cost k 2 = cost k
    + cost (k + 1) := by
  unfold queryTime
  rw [Finset.sum_range_succ, Finset.sum_range_one, Nat.add_zero]

theorem queryTime_const {cost : Nat → Int} {t : Int} (h : ∀ n, cost n = t) (k n : Nat) :
    queryTime cost k n = n * t := by
  unfold queryTime
  simp [h]

section
variable {s : Nat} {cost : Nat → Int} {found : Nat → ConfigDb} {scope : ConfigScope} {known : Int}

/-- one round: two queries, and then the clock -/
theorem run_watchLoop_round (h : Unchanged found scope known) (s : Nat) (cost : Nat → Int)
    (interval deadline : Int) (rounds : Nat)
    (w : WatchWorld) : ∃ revision, (watchLoop scope known interval deadline (rounds + 1)).run
      (WatchWorld.execConfig s cost found) w
        = let now := w.now + queryTime cost w.asked 2
          if deadline ≤ now then some (.ok ⟨false, revision, none⟩, ⟨now, w.asked + 2⟩)
          else (watchLoop scope known interval deadline rounds).run
            (WatchWorld.execConfig s cost found) ⟨now + interval, w.asked + 2⟩ := by
  have hnone : w.execConfig s cost found (.latestNewerThan scope known)
      = some (none, ⟨w.now + cost w.asked, w.asked + 1⟩) := by
    rw [← h w.asked]
    rfl
  obtain ⟨now, hnow⟩ : ∃ now : Int, w.now + cost w.asked + cost (w.asked + 1) = now := ⟨_, rfl⟩
  refine ⟨(((found (w.asked + 1)).tables.scopeOf scope).map (·.currentRevision)).getD 0, ?_⟩
  rw [queryTime_two, ← add_assoc, hnow]
  refine (Prog.run_exec_of _ hnone).trans ?_
  show ((if deadline ≤ w.now + cost w.asked + cost (w.asked + 1) then pure ⟨false, _, none⟩ else do
      ConfigProg.query (.sleep interval)
      watchLoop scope known interval deadline rounds : ConfigProg ConfigWatchResult)).run
        (WatchWorld.execConfig s cost found)
          ⟨w.now + cost w.asked + cost (w.asked + 1), w.asked + 2⟩ = _
  rw [hnow]
  dsimp only
  split
  · rfl
  · rfl

/-- the loop ends at its deadline or some time later: sleeps and queries are all the time it
takes -/
theorem run_watchLoop (hquiet : Unchanged found scope known) (hprompt : Prompt cost)
    (deadline : Int)
    (rounds : Nat) (w : WatchWorld) (hnow : w.now < deadline + watchInterval 100)
    (hrounds : deadline + watchInterval 100 ≤ w.now + rounds * watchInterval 100) :
    ∃ (revision : Int) (k : Nat) (w' : WatchWorld),
      (watchLoop scope known (watchInterval 100) deadline rounds).run
          (WatchWorld.execConfig s cost found) w = some (.ok ⟨false, revision, none⟩, w') ∧
      w'.now = w.now + k * watchInterval 100 + queryTime cost w.asked (2 * k + 2) ∧
      deadline ≤ w'.now ∧ w'.now < deadline + 3 * watchInterval 100 := by
  have hi : watchInterval 100 = 100000 := rfl
  unfold Prompt at hprompt
  rw [hi] at hnow hrounds hprompt ⊢
  induction rounds generalizing w with
  | zero => omega
  | succ rounds ih =>
    obtain ⟨revision, hrun⟩ := run_watchLoop_round hquiet s cost 100000 deadline rounds w
    have h1 := hprompt w.asked
    have h2 := hprompt (w.asked + 1)
    have htwo := queryTime_two cost w.asked
    rw [hrun]
    dsimp only
    split
    · rename_i hend
      refine ⟨revision, 0, _, rfl, ?_, hend, ?_⟩
      · simp
      · show w.now + queryTime cost w.asked 2 < _
        omega
    · rename_i hwait
      obtain ⟨revision', k, w', hrun', hspent, hbounds⟩ := ih
        ⟨w.now + queryTime cost w.asked 2 + 100000, w.asked + 2⟩ (by dsimp only; omega)
        (by dsimp only; push_cast at hrounds; omega)
      refine ⟨revision', k + 1, w', hrun', ?_, hbounds⟩
      rw [hspent, show 2 * (k + 1) + 2 = 2 + (2 * k + 2) by omega, queryTime_add cost w.asked 2]
      push_cast
      ring

end

/-! ## the answer -/

section
variable {cfg : ServerConfig} {lib : Libraries} {start : Int} {rq : WatchConfigRequest}
variable {scope : ConfigScope} {rounds : Nat}

theorem watch_eq {store : ConfigStore} {known timeoutSeconds : Int}
    (hvalid : store.validateWatch scope known timeoutSeconds = .ok ()) (interval : Int) :
    store.watch scope known timeoutSeconds interval rounds = (do
      let now ← ConfigProg.query .utcNow
      watchLoop scope known (watchInterval interval) (now + seconds timeoutSeconds) rounds) := by
  obtain ⟨u, hscope, hvalid⟩ := Except.of_bind_ok hvalid
  unfold ConfigStore.watch
  rw [hscope]
  split at hvalid
  · cases hvalid
  · rename_i hknown
    split at hvalid
    · cases hvalid
    · rename_i hneg
      split at hvalid
      · cases hvalid
      · rename_i hmax
        show (if known < 0 then _ else _) = _
        rw [if_neg hknown, if_neg hneg, if_neg hmax]

/-- a permitted watch is its loop -/
theorem run_watch (hrq : rq.Permitted cfg lib scope) (s : Nat) (cost : Nat → Int)
    (found : Nat → ConfigDb) :
    ((cfg.configGrpc lib).watch rq rounds).run (WatchWorld.exec s cost found) ⟨start, 0⟩
      = ((watchLoop scope rq.knownRevision (watchInterval 100) (start + seconds rq.timeoutSeconds)
          rounds).run (WatchWorld.execConfig s cost found) ⟨start, 0⟩).map fun p =>
            (p.1.mapError Status.ofError, p.2) := by
  unfold ConfigGrpc.watch ConfigGrpc.ensureEnabled ServerConfig.configGrpc requiredScope
  rw [hrq.given, hrq.enabled]
  refine (Prog.run_mapResult _ _ _ _).trans ?_
  unfold onConfig
  rw [Prog.run_lift (WatchWorld.execConfig s cost found) (WatchWorld.exec s cost found)
    ServerStmt.config (fun _ r => r) id (fun _ w => w) (fun _ _ => rfl) (fun _ _ _ => rfl)
    (fun _ => rfl) (fun _ _ => rfl), watch_eq hrq.valid, Option.map_map]
  rfl

theorem timeout_nonneg (hrq : rq.Permitted cfg lib scope) : 0 ≤ rq.timeoutSeconds := by
  obtain ⟨u, -, hvalid⟩ := Except.of_bind_ok hrq.valid
  split at hvalid
  · cases hvalid
  · split at hvalid
    · cases hvalid
    · omega

section
variable (hrq : rq.Permitted cfg lib scope) (hrounds : 10 * rq.timeoutSeconds < rounds)
include hrq hrounds

/-- the handler is done at its deadline or less than 300 ms later, after whole rounds -/
theorem watchRpc_eq (start : Int) {s : Nat} {cost : Nat → Int} {found : Nat → ConfigDb}
    (hprompt : Prompt cost)
    (hquiet : Unchanged found scope rq.knownRevision) : ∃ (revision finish : Int) (k : Nat),
      cfg.watchRpc lib s cost found start rq rounds
        = some (recordRpc "config" "watch" (seconds cfg.defaultRequestTimeoutSeconds) start
            (.ok ⟨false, revision, none⟩, finish)) ∧
      finish = start + k * 100000 + queryTime cost 0 (2 * k + 2) ∧
      start + rq.timeoutSeconds * 1000000 ≤ finish ∧
      finish < start + rq.timeoutSeconds * 1000000 + 300000 := by
  have h0 := timeout_nonneg hrq
  have hi : watchInterval 100 = 100000 := rfl
  obtain ⟨revision, k, w', hrun, hfinish, hlate, hbound⟩ := run_watchLoop (s := s) hquiet hprompt
    (start + rq.timeoutSeconds * 1000000) rounds ⟨start, 0⟩ (by rw [hi]; dsimp only; omega)
    (by rw [hi]; dsimp only; omega)
  refine ⟨revision, w'.now, k, ?_, hfinish, hlate, ?_⟩
  · unfold ServerConfig.watchRpc
    rw [run_watch hrq]
    have hloop := congrArg (Option.map fun p : PgAppResult ConfigWatchResult × WatchWorld =>
      recordRpc "config" "watch" (seconds cfg.defaultRequestTimeoutSeconds) start
        (p.1.mapError Status.ofError, p.2.now)) hrun
    rw [Option.map_map]
    exact hloop
  · rw [hi] at hbound
    omega

end

theorem unchanged_empty (scope : ConfigScope) (known : Int) :
    Unchanged (fun _ => ConfigDb.empty) scope known := fun _ => rfl

theorem prompt_fifty : Prompt fun _ => 50000 := by
  intro n
  show (0 : Int) < 50000 ∧ (50000 : Int) < 100000
  decide

/-- with 50 ms a query the clock is read after an odd number of tenths of a second: a watch that may
last as long as an RPC is over its time by then -/
theorem watchRpc_late (start : Int) (hrq : rq.Permitted cfg lib scope)
    (hrounds : 10 * rq.timeoutSeconds < rounds)
    (hlong : cfg.defaultRequestTimeoutSeconds ≤ rq.timeoutSeconds) :
    (cfg.watchRpc lib 0 (fun _ => 50000) (fun _ => ConfigDb.empty) start rq rounds).map (·.1)
      = some (.error ⟨.deadlineExceeded, "request timed out"⟩) := by
  obtain ⟨revision, finish, k, hrun, hfinish, hlate, -⟩ := watchRpc_eq (s := 0) hrq hrounds start
    prompt_fifty (unchanged_empty scope rq.knownRevision)
  rw [queryTime_const (fun _ => rfl)] at hfinish
  have hover : ¬ finish ≤ start + cfg.defaultRequestTimeoutSeconds * 1000000 := by
    push_cast at hfinish
    omega
  rw [hrun]
  exact congrArg some (if_neg hover)

end

/-- **A watch without news is answered in time exactly if it asks for less time than an RPC
has.** -/
theorem watch_answers {cfg : ServerConfig} {lib : Libraries} {start : Int} {rq : WatchConfigRequest}
    {scope : ConfigScope} {rounds : Nat} (hrq : rq.Permitted cfg lib scope)
    (hrounds : 10 * rq.timeoutSeconds < rounds) :
    cfg.Answers lib start rq scope rounds
      ↔ rq.timeoutSeconds < cfg.defaultRequestTimeoutSeconds ∧
          chrono.Fits start rq.timeoutSeconds := by
  constructor
  · intro h
    refine ⟨?_, (chrono.isSome_deadline _ _).mp h.deadline⟩
    by_contra hlong
    obtain ⟨revision, sample, hanswer⟩ := h.answers 0 _ _ prompt_fifty
      (unchanged_empty scope rq.knownRevision)
    have hlate := watchRpc_late start hrq hrounds (not_lt.mp hlong)
    rw [hanswer] at hlate
    cases hlate
  · intro h
    refine ⟨(chrono.isSome_deadline _ _).mpr h.2, fun s cost found hprompt hquiet => ?_⟩
    obtain ⟨revision, finish, k, hrun, -, -, hbound⟩ := watchRpc_eq (s := s) hrq hrounds start
      hprompt hquiet
    have hintime : finish ≤ start + cfg.defaultRequestTimeoutSeconds * 1000000 := by omega
    refine ⟨revision, _, hrun.trans (congrArg some (Prod.ext ?_ rfl))⟩
    exact if_pos hintime

/-- a watch of the scope `main` -/
def watchMain (timeoutSeconds : Int) : WatchConfigRequest :=
  ⟨some ⟨"app", "prod", "default", "main"⟩, 0, timeoutSeconds⟩

theorem watch_answers_short : ∃ cfg,
    fromMap anyAddr (envWith "PGAPP_MAX_CONFIG_WATCH_SECONDS" "30") = .ok cfg ∧
    cfg.Answers plainLibraries 1780000000000000 (watchMain 29) ⟨"app", "prod", "default", "main"⟩
      300 := by
  refine ⟨_, rfl, (watch_answers ⟨rfl, rfl, by decide⟩ (by decide)).mpr ?_⟩
  exact ⟨by decide, by decide⟩

/-- a watch of 30 seconds, the longest that the defaults allow, is over the time limit -/
theorem watch_answers_thirty : ∃ cfg,
    fromMap anyAddr (envWith "PGAPP_MAX_CONFIG_WATCH_SECONDS" "30") = .ok cfg ∧
    (watchMain 30).Permitted cfg plainLibraries ⟨"app", "prod", "default", "main"⟩ ∧
    ¬ cfg.Answers plainLibraries 1780000000000000 (watchMain 30) ⟨"app", "prod", "default", "main"⟩
      301 := by
  obtain ⟨cfg, hcfg, hrq, hlong⟩ : ∃ cfg,
      fromMap anyAddr (envWith "PGAPP_MAX_CONFIG_WATCH_SECONDS" "30") = .ok cfg ∧
      (watchMain 30).Permitted cfg plainLibraries ⟨"app", "prod", "default", "main"⟩ ∧
      cfg.defaultRequestTimeoutSeconds ≤ (watchMain 30).timeoutSeconds :=
    ⟨_, rfl, ⟨rfl, rfl, by decide⟩, by decide⟩
  refine ⟨cfg, hcfg, hrq, fun h => ?_⟩
  obtain ⟨revision, sample, hanswer⟩ := h.answers 0 _ _ prompt_fifty (unchanged_empty _ _)
  have hlate := watchRpc_late 1780000000000000 hrq
    (show 10 * 30 < ((301 : Nat) : Int) by decide) hlong
  rw [hanswer] at hlate
  cases hlate

end PgApp
