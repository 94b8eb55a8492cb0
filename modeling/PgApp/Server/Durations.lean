import PgApp.Cache.Issued
import PgApp.Server.Limits
import PgApp.Server.LongPoll

/-!
# The durations of a request

A request brings a number of seconds, and some calendar adds it to its clock: PostgreSQL in a
statement (`MqStmt.added`, `CacheStmt.added`), `chrono` or `Instant` for the deadline of a loop. 
The claiming UPDATE of a read returns the deadline it has computed, and `chrono` reads it back.

* `TimedRequest.validate`   the checks of the operation;
* `TimedRequest.InRange`    no deadline on any path of the request is out of range;
* `durations_in_range`      that is so exactly for the seconds that fit: the checks ask for the
sign,
                            or compare with a setting that may be any i64.

`Moments` are the last moments that the clocks show while the request is served.
-/

namespace PgApp
open Interleave

/-! ## deadlines -/

structure Moments where
  utc : Time
  uptime : Time

/-- no deadline of these seconds overflows, up to a moment -/
def Calendar.Holds (cal : Calendar) (until_ : Time) (n : Int) : Prop :=
  ∀ now ≤ until_, (cal.deadline now n).isSome = true

theorem Calendar.holds_iff (cal : Calendar) (until_ : Time) (n : Int) :
    cal.Holds until_ n ↔ cal.Fits until_ n := by
  constructor
  · intro h
    exact (cal.isSome_deadline _ _).mp (h until_ (le_refl _))
  · intro h now hnow
    exact (cal.isSome_deadline _ _).mpr (h.mono hnow (le_refl _))

/-- the seconds that a statement adds to `now()` -/
def MqStmt.added : MqStmt → Option Int
  | .insertMessage _ _ delaySeconds => some delaySeconds
  | .claim _ _ timeoutSeconds => some timeoutSeconds
  | .setVisibility _ _ _ timeoutSeconds => some timeoutSeconds
  | _ => none

/-- the calendar that the deadline of a statement has to be in -/
def MqStmt.calendar : MqStmt → Calendar
  | .claim _ _ _ => decoded
  | _ => postgres

def CacheStmt.added : CacheStmt → Option Int
  | .upsertEntry _ _ _ _ _ ttlSeconds => ttlSeconds
  | .insertValue _ _ _ _ _ ttlSeconds => ttlSeconds
  | .insertIfAbsent _ _ _ _ _ ttlSeconds => ttlSeconds
  | .updateValue _ _ ttlSeconds _ => ttlSeconds
  | _ => none

/-- `now() + n * interval '1 second'` is out of range at some moment -/
def Overflows (cal : Calendar) (until_ : Time) (added : Option Int) : Prop :=
  ∃ n ∈ added, ¬ cal.Holds until_ n

/-- no path of the program issues a statement that overflows -/
def MqInRange {α : Type} (until_ : Time) (p : MqProg α) : Prop :=
  p.Avoids fun st => Overflows st.calendar until_ st.added

def CacheInRange {α : Type} (until_ : Time) (p : CacheProg α) : Prop :=
  p.Avoids fun st => Overflows postgres until_ st.added

section
variable {cal : Calendar} {until_ : Time}

theorem not_overflows_iff {added : Option Int} :
    ¬ Overflows cal until_ added ↔ ∀ n ∈ added, cal.Fits until_ n := by
  unfold Overflows
  push Not
  exact forall₂_congr fun n _ => cal.holds_iff until_ n

theorem not_overflows_none : ¬ Overflows cal until_ none := by
  rw [not_overflows_iff]
  exact fun n hn => by cases hn

theorem not_overflows_some {n : Int} : ¬ Overflows cal until_ (some n) ↔ cal.Fits until_ n := by
  rw [not_overflows_iff]
  exact ⟨fun h => h n rfl, fun h m hm => Option.some.inj hm ▸ h⟩

end

/-! ## requests -/

inductive TimedRequest where
  | send (queueName jsonPayload : String) (delaySeconds : Int)
  | sendBatch (queueName : String) (jsonPayloads : List String) (delaySeconds : Int)
  | read (queueName : String) (quantity timeoutSeconds : Int)
  | streamReadNext (queueName : String) (quantity timeoutSeconds : Int)
  | readWithPoll (poll : LongPoll)
  | readWithNotifyOrPoll (poll : LongPoll)
  | setVisibilityTimeout (queueName : String) (messageId : Int) (ackToken : String)
      (timeoutSeconds : Int)
  | cache (op : CacheOp)
  | watch (scope : ConfigScope) (knownRevision timeoutSeconds : Int)

section
variable (store : MqStore)

def MqStore.validateSend (queueName jsonPayload : String) (delaySeconds : Int) :
    PgAppResult Unit := do
  store.validatePayloadSize jsonPayload
  let _ ← store.parseJsonPayload jsonPayload
  let _ ← validateNonNegativeSeconds "delay_seconds" delaySeconds
  validateQueueName queueName

def MqStore.validateSendBatch (queueName : String) (jsonPayloads : List String)
    (delaySeconds : Int) : PgAppResult Unit := do
  store.validateBatchLen jsonPayloads.length
  let _ ← validateNonNegativeSeconds "delay_seconds" delaySeconds
  if jsonPayloads.isEmpty then .ok ()
  else do
    validateQueueName queueName
    let _ ← collectPayloads store jsonPayloads

def MqStore.validateReadFrom (queueName : String) (quantity timeoutSeconds : Int) :
    PgAppResult Unit := do
  store.validateRead quantity timeoutSeconds
  validateQueueName queueName

def MqStore.validatePoll (poll : LongPoll) : PgAppResult Unit := do
  let _ ← validateNonNegativeSeconds "max_poll_seconds" poll.maxPollSeconds
  store.validateReadFrom poll.queueName poll.quantity poll.timeoutSeconds

def MqStore.validateSetVisibility (queueName ackToken : String) (timeoutSeconds : Int) :
    PgAppResult Unit := do
  validateAckToken ackToken
  let _ ← validateNonNegativeSeconds "visibility_timeout_seconds" timeoutSeconds
  store.validateVisibilityTimeout timeoutSeconds
  validateQueueName queueName

end

/-- the checks of a cache operation -/
def CacheOp.validate : CacheOp → PgAppResult Unit
  | .set ns key _ ttl | .setNx ns key _ ttl | .getSet ns key _ ttl | .append ns key _ ttl
  | .prepend ns key _ ttl | .increment ns key _ ttl => validateWrite ns key ttl
  | .decrement ns key delta ttl => do
    let _ ← negated delta
    validateWrite ns key ttl
  | .get ns key | .exists_ ns key | .delete ns key => validateRead ns key
  | .mget ns keys => keys.forM fun key => validateRead ns key
  | .invalidateNamespace ns => validateNamespace ns
  | .sweepExpired _ | .stats => .ok ()

def ConfigStore.validateWatch (store : ConfigStore) (scope : ConfigScope)
    (knownRevision timeoutSeconds : Int) : PgAppResult Unit := do
  validateScope scope
  if knownRevision < 0 then
    .error (.invalidArgument "known_revision must not be negative")
  else if timeoutSeconds < 0 then
    .error (.invalidArgument "timeout_seconds must not be negative")
  else if timeoutSeconds > store.limits.maxWatchSeconds then
    .error (.invalidArgument
      s!"timeout_seconds must be less than or equal to {store.limits.maxWatchSeconds}")
  else .ok ()

section
variable (cfg : ServerConfig) (lib : Libraries)

def TimedRequest.validate : TimedRequest → PgAppResult Unit
  | .send n payload delay => (cfg.mqStore lib).validateSend n payload delay
  | .sendBatch n payloads delay => (cfg.mqStore lib).validateSendBatch n payloads delay
  | .read n quantity timeout | .streamReadNext n quantity timeout =>
      (cfg.mqStore lib).validateReadFrom n quantity timeout
  | .readWithPoll poll | .readWithNotifyOrPoll poll => (cfg.mqStore lib).validatePoll poll
  | .setVisibilityTimeout n _ token timeout =>
      (cfg.mqStore lib).validateSetVisibility n token timeout
  | .cache op => op.validate
  | .watch scope known timeout => (cfg.configStore lib).validateWatch scope known timeout

/-- PostgreSQL takes the texts and the documents that the request brings -/
def TimedRequest.Storable : TimedRequest → Prop
  | .send _ payload _ =>
      ((cfg.mqStore lib).parseJsonPayload payload).toOption.all Json.storable = true
  | .sendBatch _ payloads _ => ∀ payload ∈ payloads,
      ((cfg.mqStore lib).parseJsonPayload payload).toOption.all Json.storable = true
  | .setVisibilityTimeout _ _ token _ => storable token = true
  | .cache op => ∀ key ∈ op.keys, storable key = true
  | _ => True

variable (m : Moments)

/-- no deadline of the request overflows, neither that of its loop nor in a statement on any path -/
def TimedRequest.InRange : TimedRequest → Prop
  | .send n payload delay => MqInRange m.utc ((cfg.mqStore lib).send n payload delay)
  | .sendBatch n payloads delay => MqInRange m.utc ((cfg.mqStore lib).sendBatch n payloads delay)
  | .read n quantity timeout => MqInRange m.utc ((cfg.mqStore lib).read n quantity timeout)
  | .streamReadNext n quantity timeout => ∀ rounds,
      MqInRange m.utc ((cfg.mqStore lib).streamReadNext n quantity timeout rounds)
  | .readWithPoll poll => chrono.Holds m.utc poll.maxPollSeconds ∧ ∀ rounds,
      MqInRange m.utc ((cfg.mqStore lib).readWithPoll poll.queueName poll.quantity
        poll.timeoutSeconds poll.maxPollSeconds poll.pollIntervalMillis rounds)
  | .readWithNotifyOrPoll poll => instant.Holds m.uptime poll.maxPollSeconds ∧ ∀ rounds,
      MqInRange m.utc ((cfg.mqStore lib).readWithNotifyOrPoll poll.queueName poll.quantity
        poll.timeoutSeconds poll.maxPollSeconds poll.pollIntervalMillis rounds)
  | .setVisibilityTimeout n id token timeout =>
      MqInRange m.utc ((cfg.mqStore lib).setVisibilityTimeout n id token timeout)
  | .cache op => ∀ rounds,
      CacheInRange m.utc (CacheCall.body ⟨(cfg.cacheGrpc lib).store, rounds, op⟩)
  | .watch _ _ timeout => chrono.Holds m.utc timeout

/-- the seconds fit the calendars -/
def TimedRequest.Fits : TimedRequest → Prop
  | .send _ _ delay => postgres.Fits m.utc delay
  | .sendBatch _ payloads delay => payloads = [] ∨ postgres.Fits m.utc delay
  | .read _ _ timeout | .streamReadNext _ _ timeout => decoded.Fits m.utc timeout
  | .readWithPoll poll =>
      chrono.Fits m.utc poll.maxPollSeconds ∧ decoded.Fits m.utc poll.timeoutSeconds
  | .readWithNotifyOrPoll poll =>
      instant.Fits m.uptime poll.maxPollSeconds ∧ decoded.Fits m.utc poll.timeoutSeconds
  | .setVisibilityTimeout _ _ _ timeout => postgres.Fits m.utc timeout
  | .cache op => ∀ n ∈ op.ttl, postgres.Fits m.utc n
  | .watch _ _ timeout => chrono.Fits m.utc timeout

instance : (rq : TimedRequest) → Decidable (rq.Fits m)
  | .send _ _ delay => inferInstanceAs (Decidable (postgres.Fits m.utc delay))
  | .sendBatch _ payloads delay =>
      inferInstanceAs (Decidable (payloads = [] ∨ postgres.Fits m.utc delay))
  | .read _ _ timeout | .streamReadNext _ _ timeout =>
      inferInstanceAs (Decidable (decoded.Fits m.utc timeout))
  | .readWithPoll poll => inferInstanceAs (Decidable
      (chrono.Fits m.utc poll.maxPollSeconds ∧ decoded.Fits m.utc poll.timeoutSeconds))
  | .readWithNotifyOrPoll poll => inferInstanceAs (Decidable
      (instant.Fits m.uptime poll.maxPollSeconds ∧ decoded.Fits m.utc poll.timeoutSeconds))
  | .setVisibilityTimeout _ _ _ timeout => inferInstanceAs (Decidable (postgres.Fits m.utc timeout))
  | .cache op => inferInstanceAs (Decidable (∀ n ∈ op.ttl, postgres.Fits m.utc n))
  | .watch _ _ timeout => inferInstanceAs (Decidable (chrono.Fits m.utc timeout))

end

/-! ## programs in range -/

section
variable {until_ : Time}

theorem mqQuery_inRange {st : MqStmt} (h : ¬ Overflows st.calendar until_ st.added) :
    MqInRange until_ (query st) := ⟨h, fun _ => trivial⟩

theorem mqPlain_inRange {st : MqStmt} (h : st.added = none) : MqInRange until_ (query st) := by
  refine mqQuery_inRange ?_
  rw [h]
  exact not_overflows_none

theorem mqTx_inRange {α : Type} {p : MqProg α} (h : MqInRange until_ p) :
    MqInRange until_ (inTx p) := by
  refine ⟨not_overflows_none, fun _ => Prog.Avoids.bracket ?_ ?_ h⟩
  · exact not_overflows_none
  · exact not_overflows_none

theorem queueId_inRange (n : String) : MqInRange until_ (queueId n) := by
  refine Prog.Avoids.check fun _ => Prog.Avoids.bind (mqPlain_inRange rfl) fun id => ?_
  cases id with
  | none => exact trivial
  | some q => exact trivial

theorem notifyQueue_inRange (n : String) (count : Nat) : MqInRange until_ (notifyQueue n count) :=
  Prog.Avoids.check fun _ => Prog.Avoids.bind (mqPlain_inRange rfl) fun _ => trivial

section
variable {delay : Int} (h : postgres.Fits until_ delay)
include h

theorem sendValue_inRange (n : String) (payload : Json) :
    MqInRange until_ (sendValue n payload delay) := by
  refine Prog.Avoids.check fun _ => Prog.Avoids.bind (queueId_inRange n) fun q => mqTx_inRange ?_
  refine Prog.Avoids.bind (mqQuery_inRange (not_overflows_some.mpr h)) fun r => ?_
  refine Prog.Avoids.bind trivial fun id => ?_
  exact Prog.Avoids.bind (notifyQueue_inRange n 1) fun _ => trivial

theorem insertAll_inRange (q : Int) (payloads : List Json) (ids : List Int) :
    MqInRange until_ (insertAll q delay payloads ids) := by
  induction payloads generalizing ids with
  | nil => exact trivial
  | cons payload rest ih =>
    refine Prog.Avoids.bind (mqQuery_inRange (not_overflows_some.mpr h)) fun r => ?_
    exact Prog.Avoids.bind trivial fun id => ih (ids ++ [id])

end

section
variable (store : MqStore) {timeout : Int} (h : decoded.Fits until_ timeout)
include h

theorem read_inRange (n : String) (quantity : Int) :
    MqInRange until_ (store.read n quantity timeout) := by
  refine Prog.Avoids.check fun _ => Prog.Avoids.check fun _ => Prog.Avoids.check fun _ => ?_
  refine Prog.Avoids.bind (queueId_inRange n) fun q => ?_
  refine Prog.Avoids.bind (mqPlain_inRange rfl) fun _ => ?_
  exact Prog.Avoids.bind (mqQuery_inRange (not_overflows_some.mpr h)) fun _ => trivial

theorem streamReadNext_inRange (n : String) (quantity : Int) (rounds : Nat) :
    MqInRange until_ (store.streamReadNext n quantity timeout rounds) := by
  induction rounds with
  | zero => exact ⟨not_overflows_none, fun _ => trivial⟩
  | succ rounds ih =>
    refine Prog.Avoids.bind (read_inRange store h n quantity) fun messages => ?_
    show MqInRange until_ (if messages.isEmpty then _ else _)
    split
    · exact Prog.Avoids.bind (mqPlain_inRange rfl) fun _ => ih
    · exact trivial

theorem pollLoop_inRange (n : String) (quantity : Int) (interval deadline : Time) (rounds : Nat) :
    MqInRange until_ (store.pollLoop n quantity timeout interval deadline rounds) := by
  induction rounds with
  | zero => exact ⟨not_overflows_none, fun _ => trivial⟩
  | succ rounds ih =>
    refine Prog.Avoids.bind (read_inRange store h n quantity) fun messages => ?_
    show MqInRange until_ (if messages.isEmpty then _ else _)
    split
    · refine Prog.Avoids.bind (mqPlain_inRange rfl) fun now => ?_
      show MqInRange until_ (if deadline ≤ now then _ else _)
      split
      · exact trivial
      · exact Prog.Avoids.bind (mqPlain_inRange rfl) fun _ => ih
    · exact trivial

theorem notifyPollLoop_inRange (n : String) (quantity : Int) (interval deadline : Time)
    (rounds : Nat) :
    MqInRange until_ (store.notifyPollLoop n quantity timeout interval deadline rounds) := by
  induction rounds with
  | zero => exact ⟨not_overflows_none, fun _ => trivial⟩
  | succ rounds ih =>
    refine Prog.Avoids.bind (read_inRange store h n quantity) fun messages => ?_
    show MqInRange until_ (if messages.isEmpty then _ else _)
    split
    · refine Prog.Avoids.bind (mqPlain_inRange rfl) fun now => ?_
      show MqInRange until_ (if deadline ≤ now then _ else _)
      split
      · exact trivial
      · refine Prog.Avoids.bind (mqPlain_inRange rfl) fun now => ?_
        show MqInRange until_ (if min (max (deadline - now) 0) interval = 0 then _ else _)
        split
        · exact trivial
        · exact Prog.Avoids.bind (mqPlain_inRange rfl) fun _ => ih
    · exact trivial

end

/-! ## what a path adds -/

section
variable {store : MqStore} {n : String}

theorem send_fits {payload : String} {delay : Int}
    (hvalid : store.validateSend n payload delay = .ok ())
    (h : MqInRange until_ (store.send n payload delay)) : postgres.Fits until_ delay := by
  obtain ⟨u, hsize, hvalid⟩ := Except.of_bind_ok hvalid
  obtain ⟨value, hparse, hvalid⟩ := Except.of_bind_ok hvalid
  obtain ⟨d, hdelay, hname⟩ := Except.of_bind_ok hvalid
  unfold MqStore.send sendValue queueId at h
  rw [hsize, hparse, hdelay, hname] at h
  exact not_overflows_some.mp ((h.2 (some 0)).2 ()).1

theorem sendBatch_fits {payloads : List String} {delay : Int}
    (hvalid : store.validateSendBatch n payloads delay = .ok ())
    (h : MqInRange until_ (store.sendBatch n payloads delay)) :
    payloads = [] ∨ postgres.Fits until_ delay := by
  obtain ⟨u, hlen, hvalid⟩ := Except.of_bind_ok hvalid
  obtain ⟨d, hdelay, hvalid⟩ := Except.of_bind_ok hvalid
  cases payloads with
  | nil => exact .inl rfl
  | cons payload rest =>
    obtain ⟨u, hname, hvalid⟩ := Except.of_bind_ok hvalid
    obtain ⟨values, hvalues, -⟩ := Except.of_bind_ok hvalid
    unfold MqStore.sendBatch queueId at h
    rw [hlen, hdelay, hname, hvalues] at h
    unfold collectPayloads at hvalues
    split at hvalues
    · cases hvalues
    · split at hvalues
      · cases hvalues
      · cases hvalues
        exact .inr (not_overflows_some.mp ((h.2 (some 0)).2 ()).1)

theorem read_fits {quantity timeout : Int}
    (hvalid : store.validateReadFrom n quantity timeout = .ok ())
    (h : MqInRange until_ (store.read n quantity timeout)) : decoded.Fits until_ timeout := by
  obtain ⟨u, hread, hname⟩ := Except.of_bind_ok hvalid
  rw [read_eq] at h
  unfold queueId at h
  rw [hread, hname] at h
  exact not_overflows_some.mp ((h.2 (some 0)).2 0).1

theorem setVisibility_fits {token : String} {id timeout : Int}
    (hvalid : store.validateSetVisibility n token timeout = .ok ())
    (h : MqInRange until_ (store.setVisibilityTimeout n id token timeout)) :
    postgres.Fits until_ timeout := by
  obtain ⟨u, htoken, hvalid⟩ := Except.of_bind_ok hvalid
  obtain ⟨d, hseconds, hvalid⟩ := Except.of_bind_ok hvalid
  obtain ⟨u, hmax, hname⟩ := Except.of_bind_ok hvalid
  unfold MqStore.setVisibilityTimeout queueId at h
  rw [htoken, hseconds, hmax, hname] at h
  exact not_overflows_some.mp (h.2 (some 0)).1

theorem stream_fits {quantity timeout : Int}
    (hvalid : store.validateReadFrom n quantity timeout = .ok ())
    (h : MqInRange until_ (store.streamReadNext n quantity timeout 1)) :
    decoded.Fits until_ timeout := read_fits hvalid (Prog.Avoids.of_bind h)

variable {poll : LongPoll} (hvalid : store.validatePoll poll = .ok ())
include hvalid

theorem readWithPoll_fits (hdeadline : chrono.Fits until_ poll.maxPollSeconds)
    (h : MqInRange until_ (store.readWithPoll poll.queueName poll.quantity
      poll.timeoutSeconds poll.maxPollSeconds poll.pollIntervalMillis 1)) :
    decoded.Fits until_ poll.timeoutSeconds := by
  obtain ⟨d, hpoll, hread⟩ := Except.of_bind_ok hvalid
  obtain ⟨u, hargs, -⟩ := Except.of_bind_ok hread
  obtain ⟨k, hquantity, hargs⟩ := Except.of_bind_ok hargs
  obtain ⟨d', htimeout, hmax⟩ := Except.of_bind_ok hargs
  unfold MqStore.readWithPoll at h
  rw [hquantity, htimeout, hmax, hpoll] at h
  have hloop : MqInRange until_ (store.pollUntil poll.queueName poll.quantity poll.timeoutSeconds
    (pollInterval poll.pollIntervalMillis) (chrono.deadline until_ poll.maxPollSeconds) 1) :=
    h.2 until_
  rw [Calendar.deadline_some hdeadline] at hloop
  exact read_fits hread (Prog.Avoids.of_bind hloop)

theorem readWithNotifyOrPoll_fits (h : MqInRange until_ (store.readWithNotifyOrPoll poll.queueName
      poll.quantity poll.timeoutSeconds poll.maxPollSeconds poll.pollIntervalMillis 1)) :
    decoded.Fits until_ poll.timeoutSeconds := by
  obtain ⟨d, hpoll, hread⟩ := Except.of_bind_ok hvalid
  have hmax : ¬ poll.maxPollSeconds < 0 := by
    unfold validateNonNegativeSeconds at hpoll
    split at hpoll
    · cases hpoll
    · assumption
  unfold MqStore.readWithNotifyOrPoll at h
  rw [if_neg hmax] at h
  exact read_fits hread (Prog.Avoids.of_bind (h.2 0))

end

/-! ## the cache -/

theorem cache_inRange {op : CacheOp} (h : ∀ n ∈ op.ttl, postgres.Fits until_ n) (store : CacheStore)
    (rounds : Nat) : CacheInRange until_ (CacheCall.body ⟨store, rounds, op⟩) := by
  refine (cache_issues ⟨store, rounds, op⟩).mono fun st hover hmay => ?_
  refine absurd hover (not_overflows_iff.mpr fun n hn => h n ?_)
  cases st with
  | upsertEntry _ _ _ _ _ ttl | insertValue _ _ _ _ _ ttl | insertIfAbsent _ _ _ _ _ ttl
  | updateValue _ _ ttl _ =>
    have hmay : ttl = op.ttl := hmay
    exact hmay ▸ hn
  | _ => cases hn

/-- on a new key an atomic write inserts its value with the ttl -/
theorem atomicWrite_fits {α : Type} {store : CacheStore} {rounds : Nat} {ns key : String}
    {ttl : Option Int} {preserve : Bool} {f : Option Bytes → PgAppResult (Bytes × α)}
    {new : Bytes × α} (hvalid : validateWrite ns key ttl = .ok ()) (hkey : storable key = true)
    (hf : f none = .ok new)
    (h : CacheInRange until_ (store.atomicWrite rounds ns key ttl preserve f)) :
    ∀ n ∈ ttl, postgres.Fits until_ n := by
  unfold CacheStore.atomicWrite changeValue insertNew at h
  rw [hvalid, bindKey_ok hkey, hf] at h
  exact not_overflows_iff.mp ((((((h.2 ()).2 (some 0)).2 ()).2 ()).2 ()).2 none).1

theorem cache_fits {op : CacheOp} {store : CacheStore} {rounds : Nat}
    (hvalid : op.validate = .ok ()) (hkeys : ∀ key ∈ op.keys, storable key = true)
    (h : CacheInRange until_ (CacheCall.body ⟨store, rounds, op⟩)) :
    ∀ n ∈ op.ttl, postgres.Fits until_ n := by
  cases op with
  | set ns key value ttl =>
    have hset := Prog.Avoids.of_bind h
    change validateWrite ns key ttl = .ok () at hvalid
    unfold CacheStore.set at hset
    rw [hvalid, bindKey_ok (hkeys key List.mem_cons_self)] at hset
    exact not_overflows_iff.mp ((hset.2 ()).2 (some 0)).1
  | setNx ns key value ttl =>
    have hset := Prog.Avoids.of_bind h
    change validateWrite ns key ttl = .ok () at hvalid
    unfold CacheStore.setNx insertAbsent at hset
    rw [hvalid, bindKey_ok (hkeys key List.mem_cons_self)] at hset
    exact not_overflows_iff.mp ((((hset.2 ()).2 (some 0)).2 ()).2 ()).1
  | getSet ns key value ttl =>
    exact atomicWrite_fits hvalid (hkeys key List.mem_cons_self) rfl (Prog.Avoids.of_bind h)
  | increment ns key delta ttl =>
    exact atomicWrite_fits hvalid (hkeys key List.mem_cons_self) rfl (Prog.Avoids.of_bind h)
  | decrement ns key delta ttl =>
    obtain ⟨d, hneg, hvalid⟩ := Except.of_bind_ok hvalid
    have hdec := Prog.Avoids.of_bind h
    unfold CacheStore.decrement at hdec
    rw [hneg] at hdec
    exact atomicWrite_fits hvalid (hkeys key List.mem_cons_self) rfl hdec
  | append ns key value ttl =>
    exact atomicWrite_fits hvalid (hkeys key List.mem_cons_self) rfl (Prog.Avoids.of_bind h)
  | prepend ns key value ttl =>
    exact atomicWrite_fits hvalid (hkeys key List.mem_cons_self) rfl (Prog.Avoids.of_bind h)
  | _ => exact fun n hn => by cases hn

end

/-! ## the result -/

section
variable {cfg : ServerConfig} {lib : Libraries} {m : Moments} {rq : TimedRequest}

theorem inRange_of_fits (h : rq.Fits m) : rq.InRange cfg lib m := by
  cases rq with
  | send n payload delay =>
    exact Prog.Avoids.check fun _ => Prog.Avoids.check fun _ => sendValue_inRange h n _
  | sendBatch n payloads delay =>
    refine Prog.Avoids.check fun _ => Prog.Avoids.check fun _ => ?_
    show MqInRange m.utc (if payloads.isEmpty then _ else _)
    split
    · exact trivial
    · rename_i hempty
      have hfits := h.resolve_left fun hnil => hempty (List.isEmpty_iff.mpr hnil)
      refine Prog.Avoids.bind (queueId_inRange n) fun q => Prog.Avoids.check fun values => ?_
      refine mqTx_inRange (Prog.Avoids.bind (insertAll_inRange hfits q values []) fun ids => ?_)
      exact Prog.Avoids.bind (notifyQueue_inRange n ids.length) fun _ => trivial
  | read n quantity timeout => exact read_inRange _ h n quantity
  | streamReadNext n quantity timeout => exact streamReadNext_inRange _ h n quantity
  | readWithPoll poll =>
    refine ⟨(chrono.holds_iff _ _).mpr h.1, fun rounds => ?_⟩
    refine Prog.Avoids.check fun _ => Prog.Avoids.check fun _ => Prog.Avoids.check fun _ => ?_
    refine Prog.Avoids.check fun _ => Prog.Avoids.bind (mqPlain_inRange rfl) fun now => ?_
    exact MqStore.pollUntil_of (pollLoop_inRange _ h.2 poll.queueName poll.quantity _) _ rounds
  | readWithNotifyOrPoll poll =>
    refine ⟨(instant.holds_iff _ _).mpr h.1, fun rounds => ?_⟩
    show MqInRange m.utc (if poll.maxPollSeconds < 0 then _ else _)
    split
    · exact trivial
    · refine Prog.Avoids.bind (mqPlain_inRange rfl) fun now => ?_
      exact notifyPollLoop_inRange _ h.2 poll.queueName poll.quantity _ _ rounds
  | setVisibilityTimeout n id token timeout =>
    refine Prog.Avoids.check fun _ => Prog.Avoids.check fun _ => Prog.Avoids.check fun _ => ?_
    refine Prog.Avoids.bind (queueId_inRange n) fun q => ?_
    exact Prog.Avoids.bind (mqQuery_inRange (not_overflows_some.mpr h)) fun _ => trivial
  | cache op => exact cache_inRange h _
  | watch scope known timeout => exact (chrono.holds_iff _ _).mpr h

theorem fits_of_inRange (hvalid : rq.validate cfg lib = .ok ()) (hs : rq.Storable cfg lib)
    (h : rq.InRange cfg lib m) : rq.Fits m := by
  cases rq with
  | send n payload delay => exact send_fits hvalid h
  | sendBatch n payloads delay => exact sendBatch_fits hvalid h
  | read n quantity timeout => exact read_fits hvalid h
  | streamReadNext n quantity timeout => exact stream_fits hvalid (h 1)
  | readWithPoll poll =>
    have hdeadline := (chrono.holds_iff _ _).mp h.1
    exact ⟨hdeadline, readWithPoll_fits hvalid hdeadline (h.2 1)⟩
  | readWithNotifyOrPoll poll =>
    exact ⟨(instant.holds_iff _ _).mp h.1, readWithNotifyOrPoll_fits hvalid (h.2 1)⟩
  | setVisibilityTimeout n id token timeout => exact setVisibility_fits hvalid h
  | cache op => exact cache_fits hvalid hs (h 0)
  | watch scope known timeout => exact (chrono.holds_iff _ _).mp h

end

/-- **A request with valid arguments** brings no text that PostgreSQL refuses and computes no
deadline out of range exactly if its texts have no U+0000 and its seconds fit. -/
theorem durations_in_range (cfg : ServerConfig) (lib : Libraries) (m : Moments) {rq : TimedRequest}
    (hvalid : rq.validate cfg lib = .ok ()) :
    rq.Storable cfg lib ∧ rq.InRange cfg lib m ↔ rq.Storable cfg lib ∧ rq.Fits m :=
  and_congr_right fun hs => ⟨fits_of_inRange hvalid hs, inRange_of_fits⟩

/-- the clocks in 2026, eleven days after a start -/
def someMoments : Moments := ⟨1780000000000000, 1000000000000⟩

theorem durations_in_range_hour : ∃ cfg,
    fromMap anyAddr (envWith "PGAPP_MAX_BATCH_SIZE" "100") = .ok cfg ∧
    (TimedRequest.send "orders" "null" 3600).InRange cfg plainLibraries someMoments := by
  refine ⟨_, rfl, ((durations_in_range _ plainLibraries someMoments ?_).mpr ⟨?_, ?_⟩).2⟩
  · decide
  · rfl
  · decide

/-- requests with the most seconds that an int64 holds -/
def longestRequests : List TimedRequest :=
  [.send "orders" "null" (2 ^ 63 - 1),
    .readWithPoll ⟨"orders", 1, 30, 2 ^ 63 - 1, 100⟩,
    .readWithNotifyOrPoll ⟨"orders", 1, 30, 2 ^ 63 - 1, 100⟩,
    .cache (.set "ns" "key" [] (some (2 ^ 63 - 1))),
    .watch ⟨"app", "prod", "default", "main"⟩ 0 (2 ^ 63 - 1)]

/-- the longest watches may be allowed; nothing else of these requests is bounded by a setting -/
theorem durations_in_range_longest : ∃ cfg,
    fromMap anyAddr (envWith "PGAPP_MAX_CONFIG_WATCH_SECONDS" "9223372036854775807") = .ok cfg ∧
    ∀ rq ∈ longestRequests, rq.validate cfg plainLibraries = .ok () ∧
      rq.Storable cfg plainLibraries ∧ ¬ rq.InRange cfg plainLibraries someMoments := by
  obtain ⟨cfg, hcfg, hvalid⟩ : ∃ cfg,
      fromMap anyAddr (envWith "PGAPP_MAX_CONFIG_WATCH_SECONDS" "9223372036854775807") = .ok cfg ∧
      ∀ rq ∈ longestRequests, rq.validate cfg plainLibraries = .ok () := by
    refine ⟨_, rfl, ?_⟩
    decide
  have hlong : ∀ rq ∈ longestRequests, ¬ rq.Fits someMoments := by decide
  have hstorable : ∀ rq ∈ longestRequests, rq.Storable cfg plainLibraries := by
    intro rq hrq
    simp only [longestRequests, List.mem_cons, List.not_mem_nil, or_false] at hrq
    rcases hrq with rfl | rfl | rfl | rfl | rfl
    · rfl
    · trivial
    · trivial
    · exact fun key hkey => (List.mem_singleton.mp hkey) ▸ (by decide)
    · trivial
  exact ⟨cfg, hcfg, fun rq hrq => ⟨hvalid rq hrq, hstorable rq hrq, fun h =>
    hlong rq hrq (fits_of_inRange (hvalid rq hrq) (hstorable rq hrq) h)⟩⟩

end PgApp
