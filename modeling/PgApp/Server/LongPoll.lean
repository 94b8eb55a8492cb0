import PgApp.Core.Calendar
import PgApp.Mq.Isolation
import PgApp.Mq.ReadAlone
import PgApp.Polling.Loops

/-!
# The two long-poll loops

`ReadWithPoll` is `MqStore::read_with_poll`, or `read_with_notify_or_poll` of `pgapp-server` when
notifications are on.  The second one sleeps no longer than the deadline; its listener is left out
here, as when `MqListener::connect` fails.

`PollWorld` is a virtual clock with the tables and everything that claims have handed out.  Reads
take no time, sleeps last as asked, and messages arrive on schedule (`arrived`).  There both loops
are loops of `Polling` (`run_pollLoop`, `run_notifyPollLoop`), so they agree exactly if a message is
there for a round before the deadline, or the interval divides the time (`long_polls_agree`).
-/

namespace PgApp
open Interleave Polling

/-! ## `read_with_notify_or_poll` -/

/-- its loop, without a listener -/
def MqStore.notifyPollLoop (store : MqStore) (queueName : String) (quantity timeoutSeconds : Int)
    (interval deadline : Time) : Nat → MqProg (List QueueMessage)
  | 0 => .exec .idle fun _ => pure []
  | rounds + 1 => do
    let messages ← store.read queueName quantity timeoutSeconds
    if messages.isEmpty then
      let now ← query .utcNow
      if deadline ≤ now then pure messages
      else do
        let now ← query .utcNow
        let remaining := max (deadline - now) 0
        let wait := min remaining interval
        if wait = 0 then pure []
        else do
          query (.sleep wait)
          store.notifyPollLoop queueName quantity timeoutSeconds interval deadline rounds
    else pure messages

/-- a deadline that `Instant` cannot hold is a panic: `LongPoll.Agree` asks for one that it can -/
def MqStore.readWithNotifyOrPoll (store : MqStore) (queueName : String)
    (quantity timeoutSeconds maxPollSeconds pollIntervalMillis : Int) (rounds : Nat) :
    MqProg (List QueueMessage) := do
  if maxPollSeconds < 0 then
    Prog.throw (.invalidArgument "max_poll_seconds must not be negative")
  else do
    let now ← query .utcNow
    store.notifyPollLoop queueName quantity timeoutSeconds (pollInterval pollIntervalMillis)
      (now + seconds maxPollSeconds) rounds

/-- the checks of `read` that come before its queries; `read_with_poll` makes them too -/
def MqStore.validateRead (store : MqStore) (quantity timeoutSeconds : Int) : PgAppResult Unit := do
  let _ ← validateQuantity quantity store.limits.maxBatchSize
  let _ ← validateNonNegativeSeconds "visibility_timeout_seconds" timeoutSeconds
  store.validateVisibilityTimeout timeoutSeconds

theorem pollInterval_pos (millis_ : Int) : 0 < pollInterval millis_ := by
  unfold pollInterval millis
  split
  · decide
  · show (0 : Int) < millis_ * 1000
    omega

/-! ## the world -/

structure PollWorld where
  now : Time
  db : MqDb
  claimed : List QueueMessage

/-- the messages that arrive after `t`, up to `t'` -/
def arrived (arrivals : List (Time × MessageRow)) (t t' : Time) : List MessageRow :=
  (arrivals.filter fun a => t < a.1 && a.1 ≤ t').map (·.2)

section
variable (s : Nat) (c : MqCtx) (arrivals : List (Time × MessageRow))

def PollWorld.sleep (w : PollWorld) (duration : Time) : PollWorld :=
  { w with
    now := w.now + duration
    db := { w.db with messages := w.db.messages ++ arrived arrivals w.now (w.now + duration) } }

/-- one statement; a claim is written down -/
def PollWorld.exec : (st : MqStmt) → PollWorld → Option (st.Res × PollWorld)
  | .sleep duration, w => some ((), w.sleep arrivals duration)
  | .claim q quantity timeout, w =>
      let p := w.db.claim q quantity timeout (w.db.now s w.now) { c with now := w.now }
      some (p.1, { w with db := p.2, claimed := w.claimed ++ p.1.toOption.getD [] })
  | st, w =>
    (MqStmt.exec s { c with now := w.now } st w.db).map fun p => (p.1, { w with db := p.2 })

/-! ## a read -/

variable (store : MqStore) (queueName : String) (quantity timeoutSeconds : Int)

theorem read_eq : store.read queueName quantity timeoutSeconds = (do
      Prog.check (store.validateRead quantity timeoutSeconds)
      let q ← queueId queueName
      let _ ← query (.deadLetterDue q)
      orFail (← query (.claim q quantity timeoutSeconds))) := by
  unfold MqStore.read MqStore.validateRead
  cases validateQuantity quantity store.limits.maxBatchSize with
  | error e => rfl
  | ok _ =>
    cases validateNonNegativeSeconds "visibility_timeout_seconds" timeoutSeconds with
    | error e => rfl
    | ok _ => rfl

/-- the world after the dead-letter statement of a read -/
def PollWorld.swept (w : PollWorld) (q : Int) : MqDb := (w.db.deadLetterDue q (w.db.now s w.now)).2

/-- the claim of a read -/
def PollWorld.claims (w : PollWorld) (q : Int) : Except SqlError (List QueueMessage) × MqDb :=
  (w.swept s q).claim q quantity timeoutSeconds ((w.swept s q).now s w.now) { c with now := w.now }

theorem run_read_invalid {w : PollWorld} {e : PgAppError}
    (h : store.validateRead quantity timeoutSeconds = .error e) :
    (store.read queueName quantity timeoutSeconds).run (PollWorld.exec s c arrivals) w
      = some (.error e, w) := by
  rw [read_eq, h]
  rfl

theorem run_read_unnamed {w : PollWorld} {e : PgAppError}
    (h : store.validateRead quantity timeoutSeconds = .ok ())
    (hv : validateQueueName queueName = .error e) :
    (store.read queueName quantity timeoutSeconds).run (PollWorld.exec s c arrivals) w
      = some (.error e, w) := by
  rw [read_eq, h]
  unfold queueId
  rw [hv]
  rfl

theorem run_read_unknown {w : PollWorld} (h : store.validateRead quantity timeoutSeconds = .ok ())
    (hv : validateQueueName queueName = .ok ()) (hq : w.db.selectQueueId queueName = none) :
    (store.read queueName quantity timeoutSeconds).run (PollWorld.exec s c arrivals) w
      = some (.error (.notFound s!"queue {queueName}"), w) := by
  have hx : PollWorld.exec s c arrivals (.selectQueueId queueName) w = some (none, w) := by
    rw [← hq]
    rfl
  rw [read_eq, h]
  unfold queueId
  rw [hv]
  exact Prog.run_exec_of _ hx

theorem run_read_claims {w : PollWorld} (h : store.validateRead quantity timeoutSeconds = .ok ())
    (hv : validateQueueName queueName = .ok ()) {q : Int}
    (hq : w.db.selectQueueId queueName = some q) :
    (store.read queueName quantity timeoutSeconds).run (PollWorld.exec s c arrivals) w
      = some ((w.claims s c quantity timeoutSeconds q).1.mapError PgAppError.ofSqlx,
          { w with
            db := (w.claims s c quantity timeoutSeconds q).2
            claimed := w.claimed ++ (w.claims s c quantity timeoutSeconds q).1.toOption.getD
                [] }) := by
  have hx : PollWorld.exec s c arrivals (.selectQueueId queueName) w = some (some q, w) := by
    rw [← hq]
    rfl
  rw [read_eq, h]
  unfold queueId
  rw [hv]
  exact Prog.run_exec_of _ hx

end

/-! ## what a claim finds -/

/-- a read at `now` would hand the message out, were it alone in its queue -/
def MessageRow.claimable (m : MessageRow) (q limit : Int) (now : Time) (locked : List Int) : Bool :=
  m.queueId == q && m.visible now && !locked.contains m.id && !m.due q limit now

section
variable {db : MqDb} {q quantity timeoutSeconds limit : Int} {now : Time} {c : MqCtx}

/-- the rows that a claim picks from -/
def MqDb.pickable (db : MqDb) (q : Int) (now : Time) (locked : List Int) : List MessageRow :=
  db.messages.filter fun m => m.queueId == q && m.visible now && !locked.contains m.id

theorem claim_nil (h : db.pickable q now c.locked = []) :
    db.claim q quantity timeoutSeconds now c = (.ok [], db) := by
  have hids : db.picked q quantity now c.locked = [] := by
    show (((db.pickable q now c.locked).map (·.id)).insertionSort (· ≤ ·)).take quantity.toNat = []
    rw [h]
    exact List.take_nil
  unfold MqDb.claim
  simp [hids]

theorem claim_ne_nil (timeoutSeconds : Int) (h1 : 1 ≤ quantity)
    (h : db.pickable q now c.locked ≠ []) :
    (db.claim q quantity timeoutSeconds now c).1 ≠ .ok [] := by
  have hlen : (db.picked q quantity now c.locked).length
      = min quantity.toNat (db.pickable q now c.locked).length := by
    show ((((db.pickable q now c.locked).map (·.id)).insertionSort (· ≤ ·)).take
      quantity.toNat).length
      = _
    rw [List.length_take, List.length_insertionSort, List.length_map]
  have hpos := List.length_pos_iff.mpr h
  obtain ⟨id, hid⟩ := List.exists_mem_of_length_pos (show 0 < _ by rw [hlen]; omega)
  have hmem : id ∈ ((db.pickable q now c.locked).map (·.id)).insertionSort (· ≤ ·) :=
    List.mem_of_mem_take hid
  rw [List.mem_insertionSort] at hmem
  obtain ⟨m, hm, rfl⟩ := List.mem_map.mp hmem
  have hrow := List.mem_of_mem_filter hm
  unfold MqDb.claim
  dsimp only
  split
  · exact fun he => by cases he
  · intro he
    have hnil := List.map_eq_nil_iff.mp (Except.ok.inj he)
    have hin : m ∈ db.messages.filter fun m => (db.picked q quantity now c.locked).contains m.id :=
      List.mem_filter.mpr ⟨hrow, List.contains_iff_mem.mpr hid⟩
    rw [hnil] at hin
    cases hin

theorem visible_mono {m : MessageRow} {now now' : Int} (h : now ≤ now')
    (hv : m.visible now = true) :
    m.visible now' = true := by
  unfold MessageRow.visible at hv ⊢
  rw [Bool.and_eq_true, decide_eq_true_eq] at hv ⊢
  refine ⟨le_trans hv.1 h, ?_⟩
  cases ht : m.visibilityTimeoutAt with
  | none => rfl
  | some t =>
    have hle := hv.2
    rw [ht] at hle
    exact decide_eq_true (le_trans (of_decide_eq_true hle) h)

theorem due_mono {m : MessageRow} {now now' : Int} (h : now ≤ now')
    (hd : m.due q limit now' = false) : m.due q limit now = false := by
  cases hnow : m.due q limit now with
  | false => rfl
  | true =>
    unfold MessageRow.due at hd hnow
    rw [Bool.and_eq_true] at hnow
    rw [hnow.1, visible_mono h hnow.2] at hd
    cases hd

theorem now_mono (db : MqDb) (s : Nat) {t t' : Int} (h : t ≤ t') : db.now s t ≤ db.now s t' := by
  unfold MqDb.now
  split
  · exact h
  · exact le_refl _

theorem now_of_txs {db db' : MqDb} (h : db'.txs = db.txs) (s : Nat) (t : Time) :
    db'.now s t = db.now s t := by
  unfold MqDb.now
  rw [h]

theorem limitOf_of_select {n : String} (h : db.selectQueueId n = some q) :
    ∃ limit, db.limitOf q = some limit := by
  obtain ⟨x, hx, -, rfl⟩ := MqProg.queue_of_selectQueueId h
  cases hf : db.queues.find? (·.id == x.id) with
  | none =>
    have hno := List.find?_eq_none.mp hf x hx
    simp at hno
  | some y =>
    refine ⟨y.maxRedeliveryCount.getD 0, ?_⟩
    unfold MqDb.limitOf
    rw [hf]
    rfl

end

/-- what `arrived` holds up to a moment and from there on -/
theorem mem_arrived_split {arrivals : List (Time × MessageRow)} {t t' t'' : Int} (h : t ≤ t')
    (h' : t' ≤ t'') {m : MessageRow} : m ∈ arrived arrivals t t''
      ↔ m ∈ arrived arrivals t t' ∨ m ∈ arrived arrivals t' t'' := by
  unfold arrived
  simp only [List.mem_map, List.mem_filter, Bool.and_eq_true, decide_eq_true_eq]
  constructor
  · intro hm
    obtain ⟨a, ⟨ha, h1, h2⟩, rfl⟩ := hm
    rcases le_or_gt a.1 t' with hle | hlt
    · exact .inl ⟨a, ⟨ha, h1, hle⟩, rfl⟩
    · exact .inr ⟨a, ⟨ha, hlt, h2⟩, rfl⟩
  · intro hm
    rcases hm with ⟨a, ⟨ha, h1, h2⟩, rfl⟩ | ⟨a, ⟨ha, h1, h2⟩, rfl⟩
    · exact ⟨a, ⟨ha, h1, le_trans h2 h'⟩, rfl⟩
    · exact ⟨a, ⟨ha, lt_of_le_of_lt h h1, h2⟩, rfl⟩

/-! ## the polling world -/

section
variable (s : Nat) (c : MqCtx) (arrivals : List (Time × MessageRow))
variable (store : MqStore) (queueName : String) (quantity timeoutSeconds : Int)

theorem run_read_some (w : PollWorld) : ∃ r w',
    (store.read queueName quantity timeoutSeconds).run (PollWorld.exec s c arrivals) w
      = some (r, w') ∧
    w'.now = w.now ∧ w'.claimed = w.claimed ++ found r := by
  cases h : store.validateRead quantity timeoutSeconds with
  | error e =>
    exact ⟨_, _, run_read_invalid s c arrivals store queueName quantity timeoutSeconds h, rfl,
      (List.append_nil _).symm⟩
  | ok u =>
    cases hv : validateQueueName queueName with
    | error e =>
      exact ⟨_, _, run_read_unnamed s c arrivals store queueName quantity timeoutSeconds h hv, rfl,
        (List.append_nil _).symm⟩
    | ok u =>
      cases hq : w.db.selectQueueId queueName with
      | none =>
        exact ⟨_, _, run_read_unknown s c arrivals store queueName quantity timeoutSeconds h hv hq,
          rfl,
          (List.append_nil _).symm⟩
      | some q =>
        refine ⟨_, _, run_read_claims s c arrivals store queueName quantity timeoutSeconds h hv hq,
          rfl,
          ?_⟩
        show w.claimed ++ _ = w.claimed ++ _
        cases (w.claims s c quantity timeoutSeconds q).1 <;> rfl

/-- the tables as a world to poll -/
def pollWorld : World PollWorld PgAppError QueueMessage where
  now := (·.now)
  probe w := ((store.read queueName quantity timeoutSeconds).run
    (PollWorld.exec s c arrivals) w).getD
    (.ok [], w)
  pass duration w := w.sleep arrivals duration
  now_probe w := by
    obtain ⟨r, w', hrun, hnow, -⟩ := run_read_some s c arrivals store queueName quantity
      timeoutSeconds w
    rw [hrun]
    exact hnow
  now_pass _ _ := rfl

theorem run_read (w : PollWorld) :
    (store.read queueName quantity timeoutSeconds).run (PollWorld.exec s c arrivals) w
      = some ((pollWorld s c arrivals store queueName quantity timeoutSeconds).probe w) := by
  obtain ⟨r, w', hrun, -⟩ := run_read_some s c arrivals store queueName quantity timeoutSeconds w
  show _ = some (Option.getD _ _)
  rw [hrun]
  rfl

/-- the loop of `read_with_poll` is the loop with the fixed interval -/
theorem run_pollLoop (interval deadline : Time) (rounds : Nat) (w : PollWorld) :
    (store.pollLoop queueName quantity timeoutSeconds interval deadline rounds).run
        (PollWorld.exec s c arrivals) w
      = (pollWorld s c arrivals store queueName quantity timeoutSeconds).fixed interval deadline
          rounds w := by
  induction rounds generalizing w with
  | zero => rfl
  | succ rounds ih =>
    have hread := run_read s c arrivals store queueName quantity timeoutSeconds w
    unfold MqStore.pollLoop World.fixed World.loop
    rw [Prog.run_bind, hread]
    obtain ⟨r, w', hp⟩ : ∃ r w',
      (pollWorld s c arrivals store queueName quantity timeoutSeconds).probe w
        = (r, w') := ⟨_, _, rfl⟩
    rw [hp]
    cases r with
    | error e => rfl
    | ok messages =>
      cases messages with
      | cons m messages => rfl
      | nil =>
        show ((if deadline ≤ w'.now then pure [] else do
            query (.sleep interval)
            store.pollLoop queueName quantity timeoutSeconds interval deadline rounds :
              MqProg (List QueueMessage))).run (PollWorld.exec s c arrivals) w' = _
        show _ = if deadline ≤ w'.now then some (Except.ok [], w') else _
        split
        · rfl
        · exact ih (w'.sleep arrivals interval)

/-- the loop of `read_with_notify_or_poll` is the loop that does not sleep beyond the deadline -/
theorem run_notifyPollLoop {interval : Int} (hi : 0 < interval) (deadline : Int) (rounds : Nat)
    (w : PollWorld) :
    (store.notifyPollLoop queueName quantity timeoutSeconds interval deadline rounds).run
        (PollWorld.exec s c arrivals) w
      = (pollWorld s c arrivals store queueName quantity timeoutSeconds).clamped interval deadline
          rounds w := by
  induction rounds generalizing w with
  | zero => rfl
  | succ rounds ih =>
    have hread := run_read s c arrivals store queueName quantity timeoutSeconds w
    unfold MqStore.notifyPollLoop World.clamped World.loop
    rw [Prog.run_bind, hread]
    obtain ⟨r, w', hp⟩ : ∃ r w',
      (pollWorld s c arrivals store queueName quantity timeoutSeconds).probe w
        = (r, w') := ⟨_, _, rfl⟩
    rw [hp]
    cases r with
    | error e => rfl
    | ok messages =>
      cases messages with
      | cons m messages => rfl
      | nil =>
        obtain ⟨now, hnow⟩ : ∃ now : Int, w'.now = now := ⟨_, rfl⟩
        show ((if deadline ≤ w'.now then pure [] else do
            let now ← query .utcNow
            if min (max (deadline - now) 0) interval = 0 then pure [] else do
              query (.sleep (min (max (deadline - now) 0) interval))
              store.notifyPollLoop queueName quantity timeoutSeconds interval deadline rounds :
                MqProg (List QueueMessage))).run (PollWorld.exec s c arrivals) w' = _
        show _ = if deadline ≤ w'.now then some (Except.ok [], w') else
          (pollWorld s c arrivals store queueName quantity timeoutSeconds).clamped interval deadline
            rounds (w'.sleep arrivals (min (deadline - w'.now) interval))
        by_cases hd : deadline ≤ w'.now
        · rw [if_pos hd, if_pos hd]
          rfl
        · -- there is time left, so the wait is not zero
          rw [if_neg hd, if_neg hd]
          show ((if min (max (deadline - w'.now) 0) interval = 0 then pure [] else do
              query (.sleep (min (max (deadline - w'.now) 0) interval))
              store.notifyPollLoop queueName quantity timeoutSeconds interval deadline rounds :
                MqProg (List QueueMessage))).run (PollWorld.exec s c arrivals) w' = _
          rw [hnow] at hd ⊢
          rw [max_eq_left (by omega), if_neg (by omega)]
          exact ih (w'.sleep arrivals (min (deadline - now) interval))

end

/-! ## rounds that find nothing -/

/-- what some rounds that found nothing leave: only messages that were due are gone, and those that
arrived in the meantime are there -/
structure Waited (s : Nat) (arrivals : List (Time × MessageRow)) (q limit : Int)
    (w w' : PollWorld) : Prop where
  later : w.now ≤ w'.now
  queues : w'.db.queues = w.db.queues
  txs : w'.db.txs = w.db.txs
  old : ∀ m ∈ w'.db.messages, m ∈ w.db.messages ∨ m ∈ arrived arrivals w.now w'.now
  kept : ∀ m, m ∈ w.db.messages ∨ m ∈ arrived arrivals w.now w'.now →
    m.due q limit (w'.db.now s w'.now) = false → m ∈ w'.db.messages

theorem not_mem_arrived {arrivals : List (Time × MessageRow)} {t : Int} (m : MessageRow) :
    m ∉ arrived arrivals t t := by
  unfold arrived
  simp only [List.mem_map, List.mem_filter, Bool.and_eq_true, decide_eq_true_eq]
  intro hm
  obtain ⟨a, ⟨-, h1, h2⟩, -⟩ := hm
  exact absurd (lt_of_lt_of_le h1 h2) (lt_irrefl _)

theorem Waited.refl {s : Nat} {arrivals : List (Time × MessageRow)} {q limit : Int}
    (w : PollWorld) : Waited s arrivals q limit w w :=
  ⟨le_refl _, rfl, rfl, fun _ hm => .inl hm, fun m hm _ => hm.resolve_right (not_mem_arrived m)⟩

theorem Waited.trans {s : Nat} {arrivals : List (Time × MessageRow)} {q limit : Int}
    {w w' w'' : PollWorld} (h : Waited s arrivals q limit w w')
    (h' : Waited s arrivals q limit w' w'') : Waited s arrivals q limit w w'' where
  later := le_trans h.later h'.later
  queues := h'.queues.trans h.queues
  txs := h'.txs.trans h.txs
  old := fun m hm => by
    rcases h'.old m hm with hm | hm
    · exact (h.old m hm).imp_right fun hm => (mem_arrived_split h.later h'.later).mpr (.inl hm)
    · exact .inr ((mem_arrived_split h.later h'.later).mpr (.inr hm))
  kept := fun m hm hd => by
    have hd' : m.due q limit (w'.db.now s w'.now) = false := by
      refine due_mono ?_ hd
      rw [now_of_txs h'.txs]
      exact now_mono w'.db s h'.later
    refine h'.kept m ?_ hd
    rcases hm with hm | hm
    · exact .inl (h.kept m (.inl hm) hd')
    · rcases (mem_arrived_split h.later h'.later).mp hm with hm | hm
      · exact .inl (h.kept m (.inr hm) hd')
      · exact .inr hm

section
variable (s : Nat) (c : MqCtx) (arrivals : List (Time × MessageRow))
variable (store : MqStore) (queueName : String) (quantity timeoutSeconds : Int)

/-- a queue that can be read -/
structure Readable (q limit : Int) (db : MqDb) : Prop where
  args : store.validateRead quantity timeoutSeconds = .ok ()
  named : validateQueueName queueName = .ok ()
  found : db.selectQueueId queueName = some q
  limited : db.limitOf q = some limit

variable {s c arrivals store queueName quantity timeoutSeconds}
variable {q limit : Int} {w : PollWorld}

theorem Readable.of_queues {db db' : MqDb}
    (h : Readable store queueName quantity timeoutSeconds q limit db)
      (hq : db'.queues = db.queues) :
    Readable store queueName quantity timeoutSeconds q limit db' := by
  refine ⟨h.args, h.named, ?_, ?_⟩
  · rw [← h.found]
    unfold MqDb.selectQueueId
    rw [hq]
  · rw [← h.limited]
    unfold MqDb.limitOf
    rw [hq]

theorem Readable.quantity_pos (h : Readable store queueName quantity timeoutSeconds q limit w.db) :
    1 ≤ quantity := by
  have hargs := h.args
  unfold MqStore.validateRead validateQuantity at hargs
  by_contra hle
  rw [if_pos (by omega)] at hargs
  cases hargs

variable (hr : Readable store queueName quantity timeoutSeconds q limit w.db)
include hr

theorem swept_eq : w.swept s q = (w.db.moveToDlq (fun m => m.due q limit (w.db.now s w.now))
    (w.db.now s w.now) s!"max_redelivery_count={limit}").2 := by
  unfold PollWorld.swept MqDb.deadLetterDue
  rw [hr.limited]

theorem swept_now : (w.swept s q).now s w.now = w.db.now s w.now := by
  rw [swept_eq hr]
  exact now_of_txs (moveToDlq_same _ _ _ _).txs s w.now

theorem pickable_swept :
    (w.swept s q).pickable q (w.db.now s w.now) c.locked
      = w.db.messages.filter fun m => m.claimable q limit (w.db.now s w.now) c.locked := by
  unfold MqDb.pickable
  rw [swept_eq hr, moveToDlq_messages, List.filter_filter]
  refine List.filter_congr fun m _ => ?_
  rfl

theorem probe_readable : (pollWorld s c arrivals store queueName quantity timeoutSeconds).probe w
    = ((w.claims s c quantity timeoutSeconds q).1.mapError PgAppError.ofSqlx,
        { w with
          db := (w.claims s c quantity timeoutSeconds q).2
          claimed := w.claimed ++ (w.claims s c quantity timeoutSeconds q).1.toOption.getD
              [] }) := by
  have h := run_read s c arrivals store queueName quantity timeoutSeconds w
  rw [run_read_claims s c arrivals store queueName quantity timeoutSeconds hr.args hr.named
    hr.found] at h
  exact (Option.some.inj h).symm

theorem stops_iff :
    (pollWorld s c arrivals store queueName quantity timeoutSeconds).Stops w
      ↔ ∃ m ∈ w.db.messages, m.claimable q limit (w.db.now s w.now) c.locked = true := by
  have hrows := pickable_swept (s := s) (c := c) hr
  unfold World.Stops
  rw [probe_readable hr]
  unfold PollWorld.claims
  rw [swept_now hr]
  constructor
  · intro hstops
    by_contra hno
    refine hstops ?_
    rw [claim_nil (c := { c with now := w.now })]
    · rfl
    · refine hrows.trans (List.filter_eq_nil_iff.mpr fun m hm hclaim => ?_)
      exact hno ⟨m, hm, hclaim⟩
  · intro hex
    obtain ⟨m, hm, hclaim⟩ := hex
    have hne := claim_ne_nil (c := { c with now := w.now }) timeoutSeconds hr.quantity_pos
      (show (w.swept s q).pickable q (w.db.now s w.now) c.locked ≠ [] from fun hnil => by
        rw [hrows] at hnil
        exact List.filter_eq_nil_iff.mp hnil m hm hclaim)
    intro he
    refine hne ?_
    cases hres : ((w.swept s q).claim q quantity timeoutSeconds (w.db.now s w.now)
      { c with now := w.now }).1 with
    | error e =>
      rw [hres] at he
      cases he
    | ok ms =>
      rw [hres] at he
      exact congrArg Except.ok (Except.ok.inj he)

/-- a round that finds nothing -/
theorem waited_round
    (h : ¬ (pollWorld s c arrivals store queueName quantity timeoutSeconds).Stops w)
      {duration : Int}
    (hd : 0 ≤ duration) : Waited s arrivals q limit w
      ((pollWorld s c arrivals store queueName quantity timeoutSeconds).pass duration
        ((pollWorld s c arrivals store queueName quantity timeoutSeconds).probe w).2) := by
  have hrows := pickable_swept (s := s) (c := c) hr
  have hnone : ∀ m ∈ w.db.messages, ¬ m.claimable q limit (w.db.now s w.now) c.locked = true := by
    intro m hm hclaim
    exact h ((stops_iff hr).mpr ⟨m, hm, hclaim⟩)
  have hdb : (w.claims s c quantity timeoutSeconds q).2 = w.swept s q := by
    unfold PollWorld.claims
    rw [swept_now hr, claim_nil (c := { c with now := w.now })]
    exact hrows.trans (List.filter_eq_nil_iff.mpr hnone)
  have hsame := moveToDlq_same w.db (fun m => m.due q limit (w.db.now s w.now)) (w.db.now s w.now)
    s!"max_redelivery_count={limit}"
  have hmessages : (w.swept s q).messages
      = w.db.messages.filter fun m => !m.due q limit (w.db.now s w.now) := by
    rw [swept_eq hr, moveToDlq_messages]
  rw [← swept_eq hr] at hsame
  have hle : (w.now : Int) ≤ w.now + duration := Int.le_add_of_nonneg_right hd
  rw [probe_readable hr, hdb]
  refine ⟨hle, hsame.queues, hsame.txs, fun m hm => ?_, fun m hm hdue => ?_⟩
  · replace hm : m ∈ (w.swept s q).messages ++ arrived arrivals w.now (w.now + duration) := hm
    rw [hmessages] at hm
    exact (List.mem_append.mp hm).imp_left List.mem_of_mem_filter
  · show m ∈ (w.swept s q).messages ++ arrived arrivals w.now (w.now + duration)
    rw [hmessages, List.mem_append]
    refine hm.imp_left fun hm => List.mem_filter.mpr ⟨hm, ?_⟩
    have hnow : m.due q limit (w.db.now s w.now) = false := by
      refine due_mono ?_ hdue
      show w.db.now s w.now ≤ (w.swept s q).now s (w.now + duration)
      rw [now_of_txs hsame.txs]
      exact now_mono w.db s hle
    rw [hnow]
    rfl

theorem waited_after {interval : Int} (hi : 0 < interval) {k : Nat}
    (h : ∀ j < k, ¬ (pollWorld s c arrivals store queueName quantity timeoutSeconds).Stops
      ((pollWorld s c arrivals store queueName quantity timeoutSeconds).after interval j w)) :
    Waited s arrivals q limit w
      ((pollWorld s c arrivals store queueName quantity timeoutSeconds).after interval k w) := by
  induction k generalizing w with
  | zero => exact .refl w
  | succ k ih =>
    have hround := waited_round hr (h 0 (Nat.succ_pos k)) hi.le
    exact hround.trans (ih (hr.of_queues hround.queues) fun j hj => h (j + 1) (Nat.succ_lt_succ hj))

/-- a message for a round, seen from the start -/
def Awaits (s : Nat) (c : MqCtx) (arrivals : List (Time × MessageRow)) (q limit : Int)
    (w : PollWorld) (t : Time) : Prop :=
  ∃ m ∈ w.db.messages ++ arrived arrivals w.now t,
    m.claimable q limit (w.db.now s t) c.locked = true

/-- some round before the deadline finds something exactly if a message is there for one -/
theorem stops_before_iff {interval : Int} (hi : 0 < interval) (deadline : Int) :
    (∃ k : Nat, w.now + k * interval < deadline ∧
        (pollWorld s c arrivals store queueName quantity timeoutSeconds).Stops
          ((pollWorld s c arrivals store queueName quantity timeoutSeconds).after interval k w))
      ↔ ∃ k : Nat, w.now + k * interval < deadline ∧
          Awaits s c arrivals q limit w (w.now + k * interval) := by
  -- both sides speak of the rounds before the first one that finds something
  have hround : ∀ k : Nat,
      (∀ j < k, ¬ (pollWorld s c arrivals store queueName quantity timeoutSeconds).Stops
        ((pollWorld s c arrivals store queueName quantity timeoutSeconds).after interval j w)) →
      ((pollWorld s c arrivals store queueName quantity timeoutSeconds).Stops
          ((pollWorld s c arrivals store queueName quantity timeoutSeconds).after interval k w)
        ↔ Awaits s c arrivals q limit w (w.now + k * interval)) := by
    intro k hbefore
    have hw := waited_after hr hi hbefore
    have hnow := (pollWorld s c arrivals store queueName quantity timeoutSeconds).now_after
      interval k w
    obtain ⟨w', hw'⟩ : ∃ w', (pollWorld s c arrivals store queueName quantity timeoutSeconds).after
      interval k w = w' := ⟨_, rfl⟩
    rw [hw'] at hw hnow ⊢
    change w'.now = w.now + k * interval at hnow
    rw [stops_iff (hr.of_queues hw.queues), ← hnow]
    have htx := now_of_txs hw.txs s w'.now
    unfold Awaits
    constructor
    · intro hex
      obtain ⟨m, hm, hclaim⟩ := hex
      rw [htx] at hclaim
      exact ⟨m, List.mem_append.mpr (hw.old m hm), hclaim⟩
    · intro hex
      obtain ⟨m, hm, hclaim⟩ := hex
      rw [← htx] at hclaim
      have hdue : m.due q limit (w'.db.now s w'.now) = false := by
        unfold MessageRow.claimable at hclaim
        rw [Bool.and_eq_true] at hclaim
        simpa using hclaim.2
      exact ⟨m, hw.kept m (List.mem_append.mp hm) hdue, hclaim⟩
  classical
  constructor
  · intro hex
    have hfirst := Nat.find_spec hex
    have hbefore : ∀ j < Nat.find hex,
        ¬ (pollWorld s c arrivals store queueName quantity timeoutSeconds).Stops
          ((pollWorld s c arrivals store queueName quantity timeoutSeconds).after
              interval j w) := by
      intro j hj hstops
      have hle : (j : Int) * interval ≤ Nat.find hex * interval :=
        Int.mul_le_mul_of_nonneg_right (by omega) hi.le
      exact Nat.find_min hex hj ⟨lt_of_le_of_lt (Int.add_le_add_left hle w.now) hfirst.1, hstops⟩
    exact ⟨_, hfirst.1, (hround _ hbefore).mp hfirst.2⟩
  · intro hex
    obtain ⟨k, htime, hawaits⟩ := hex
    by_contra hno
    refine hno ⟨k, htime, (hround k fun j hj hstops => hno ⟨j, ?_, hstops⟩).mpr hawaits⟩
    have hle : (j : Int) * interval ≤ k * interval :=
      Int.mul_le_mul_of_nonneg_right (by omega) hi.le
    exact lt_of_le_of_lt (Int.add_le_add_left hle w.now) htime

end

/-! ## the two functions -/

/-- a long poll, of any client -/
structure LongPoll where
  queueName : String
  quantity : Int
  timeoutSeconds : Int
  maxPollSeconds : Int
  pollIntervalMillis : Int

section
variable (s : Nat) (c : MqCtx) (arrivals : List (Time × MessageRow)) (store : MqStore)
variable (rq : LongPoll) (rounds : Nat) (uptime : Time) (w : PollWorld)

def LongPoll.world : World PollWorld PgAppError QueueMessage :=
  pollWorld s c arrivals store rq.queueName rq.quantity rq.timeoutSeconds

def LongPoll.deadline : Int := w.now + seconds rq.maxPollSeconds

/-- `read_with_poll` on the virtual clock -/
def LongPoll.core : Option (PgAppResult (List QueueMessage) × PollWorld) :=
  (store.readWithPoll rq.queueName rq.quantity rq.timeoutSeconds rq.maxPollSeconds
    rq.pollIntervalMillis rounds).run (PollWorld.exec s c arrivals) w

/-- `read_with_notify_or_poll` without a listener -/
def LongPoll.server : Option (PgAppResult (List QueueMessage) × PollWorld) :=
  (store.readWithNotifyOrPoll rq.queueName rq.quantity rq.timeoutSeconds rq.maxPollSeconds
    rq.pollIntervalMillis rounds).run (PollWorld.exec s c arrivals) w

/-- the two loops are one: neither panics over its deadline, they end with one result at one moment
and not late, an empty list comes at the deadline, and what was claimed is what is returned -/
structure LongPoll.Agree : Prop where
  coreDeadline : store.validateRead rq.quantity rq.timeoutSeconds = .ok () →
    (chrono.deadline w.now rq.maxPollSeconds).isSome = true
  serverDeadline : (instant.deadline uptime rq.maxPollSeconds).isSome = true
  answers : ∃ r w₁ w₂, rq.core s c arrivals store rounds w = some (r, w₁) ∧
    rq.server s c arrivals store rounds w = some (r, w₂) ∧ w₁.now = w₂.now ∧
    w₁.now ≤ rq.deadline w ∧ (r = .ok [] → w₁.now = rq.deadline w) ∧
    w₁.claimed = w.claimed ++ found r ∧ w₂.claimed = w.claimed ++ found r

/-- the condition: both deadlines are in range, and if the queue can be read then the interval
divides the time there is or a message is there for a round before the deadline -/
structure LongPoll.OnTime : Prop where
  coreDeadline : store.validateRead rq.quantity rq.timeoutSeconds = .ok () →
    chrono.Fits w.now rq.maxPollSeconds
  serverDeadline : instant.Fits uptime rq.maxPollSeconds
  onGrid : ∀ q limit, Readable store rq.queueName rq.quantity rq.timeoutSeconds q limit w.db →
    pollInterval rq.pollIntervalMillis ∣ seconds rq.maxPollSeconds ∨
      ∃ k : Nat, w.now + k * pollInterval rq.pollIntervalMillis < rq.deadline w ∧
        Awaits s c arrivals q limit w (w.now + k * pollInterval rq.pollIntervalMillis)

variable {s c arrivals store rq rounds uptime w}

theorem world_found {nap : PollWorld → Int} {deadline : Int} {r : PgAppResult (List QueueMessage)}
    {w' : PollWorld} (h : (rq.world s c arrivals store).loop nap deadline rounds w = some (r, w')) :
    w'.claimed = w.claimed ++ found r := by
  refine (rq.world s c arrivals store).loop_found (·.claimed) (fun w => ?_) (fun _ _ => rfl) h
  obtain ⟨r, w', hrun, -, hclaimed⟩ := run_read_some s c arrivals store rq.queueName rq.quantity
    rq.timeoutSeconds w
  have hp := run_read s c arrivals store rq.queueName rq.quantity rq.timeoutSeconds w
  rw [hrun] at hp
  show ((pollWorld s c arrivals store rq.queueName rq.quantity rq.timeoutSeconds).probe w).2.claimed
    = w.claimed ++ found ((pollWorld s c arrivals store rq.queueName rq.quantity
        rq.timeoutSeconds).probe w).1
  rw [← Option.some.inj hp]
  exact hclaimed

theorem stops_unreadable (hvalid : store.validateRead rq.quantity rq.timeoutSeconds = .ok ())
    (hno : ∀ q limit, ¬ Readable store rq.queueName rq.quantity rq.timeoutSeconds q limit w.db) :
    (rq.world s c arrivals store).Stops w := by
  have hp := run_read s c arrivals store rq.queueName rq.quantity rq.timeoutSeconds w
  unfold World.Stops LongPoll.world
  cases hv : validateQueueName rq.queueName with
  | error e =>
    rw [run_read_unnamed s c arrivals store rq.queueName rq.quantity rq.timeoutSeconds
      hvalid hv] at hp
    rw [← Option.some.inj hp]
    exact fun he => by cases he
  | ok u =>
    cases hq : w.db.selectQueueId rq.queueName with
    | none =>
      rw [run_read_unknown s c arrivals store rq.queueName rq.quantity rq.timeoutSeconds hvalid hv
        hq] at hp
      rw [← Option.some.inj hp]
      exact fun he => by cases he
    | some q =>
      obtain ⟨limit, hlimit⟩ := limitOf_of_select hq
      exact absurd ⟨hvalid, hv, hq, hlimit⟩ (hno q limit)

section
variable (hmax : 0 ≤ rq.maxPollSeconds)
include hmax

theorem server_eq : rq.server s c arrivals store rounds w
    = (rq.world s c arrivals store).clamped (pollInterval rq.pollIntervalMillis) (rq.deadline w)
        rounds w := by
  unfold LongPoll.server MqStore.readWithNotifyOrPoll
  rw [if_neg (by omega)]
  exact run_notifyPollLoop s c arrivals store rq.queueName rq.quantity rq.timeoutSeconds
    (pollInterval_pos _) _ rounds w

theorem core_eq (hvalid : store.validateRead rq.quantity rq.timeoutSeconds = .ok ())
    (hfits : chrono.Fits w.now rq.maxPollSeconds) :
    rq.core s c arrivals store rounds w
      = (rq.world s c arrivals store).fixed (pollInterval rq.pollIntervalMillis) (rq.deadline w)
          rounds w := by
  have hpoll : validateNonNegativeSeconds "max_poll_seconds" rq.maxPollSeconds
      = .ok rq.maxPollSeconds := if_neg (by omega)
  refine Eq.trans ?_ (run_pollLoop s c arrivals store rq.queueName rq.quantity rq.timeoutSeconds
    (pollInterval rq.pollIntervalMillis) (rq.deadline w) rounds w)
  unfold LongPoll.core MqStore.readWithPoll
  unfold MqStore.validateRead at hvalid
  cases h1 : validateQuantity rq.quantity store.limits.maxBatchSize with
  | error e =>
    rw [h1] at hvalid
    cases hvalid
  | ok _ =>
    cases h2 : validateNonNegativeSeconds "visibility_timeout_seconds" rq.timeoutSeconds with
    | error e =>
      rw [h1, h2] at hvalid
      cases hvalid
    | ok _ =>
      rw [h1, h2] at hvalid
      change store.validateVisibilityTimeout rq.timeoutSeconds = .ok () at hvalid
      rw [hvalid, hpoll]
      show (store.pollUntil rq.queueName rq.quantity rq.timeoutSeconds
        (pollInterval rq.pollIntervalMillis) (chrono.deadline w.now rq.maxPollSeconds) rounds).run
          (PollWorld.exec s c arrivals) w = _
      rw [Calendar.deadline_some hfits]
      rfl

/-- arguments that a read refuses: both functions fail at once, with one error -/
theorem answers_invalid (arrivals : List (Time × MessageRow)) {e : PgAppError}
    (hinvalid : store.validateRead rq.quantity rq.timeoutSeconds = .error e)
      (hrounds : 0 < rounds) :
    rq.core s c arrivals store rounds w = some (.error e, w) ∧
      rq.server s c arrivals store rounds w = some (.error e, w) := by
  constructor
  · unfold LongPoll.core MqStore.readWithPoll
    unfold MqStore.validateRead at hinvalid
    cases h1 : validateQuantity rq.quantity store.limits.maxBatchSize with
    | error e =>
      rw [h1] at hinvalid
      cases hinvalid
      rfl
    | ok _ =>
      cases h2 : validateNonNegativeSeconds "visibility_timeout_seconds" rq.timeoutSeconds with
      | error e =>
        rw [h1, h2] at hinvalid
        cases hinvalid
        rfl
      | ok _ =>
        rw [h1, h2] at hinvalid
        change store.validateVisibilityTimeout rq.timeoutSeconds = .error e at hinvalid
        rw [hinvalid]
        rfl
  · obtain ⟨rounds, rfl⟩ := Nat.exists_eq_add_one_of_ne_zero (Nat.ne_of_gt hrounds)
    have hp := run_read s c arrivals store rq.queueName rq.quantity rq.timeoutSeconds w
    rw [run_read_invalid s c arrivals store rq.queueName rq.quantity rq.timeoutSeconds
      hinvalid] at hp
    have hprobe : (rq.world s c arrivals store).probe w = (.error e, w) := (Option.some.inj hp).symm
    rw [server_eq hmax]
    refine ((rq.world s c arrivals store).loop_stops ?_ rounds).trans (congrArg some hprobe)
    unfold World.Stops
    rw [hprobe]
    exact fun he => by cases he

/-- where the arguments are right, the two loops agree exactly if they are on time -/
theorem answers_iff (arrivals : List (Time × MessageRow))
    (hvalid : store.validateRead rq.quantity rq.timeoutSeconds = .ok ())
    (hrounds : (seconds rq.maxPollSeconds / pollInterval rq.pollIntervalMillis).toNat
      + 1 < rounds) :
    (rq.world s c arrivals store).AgreeOnTime (pollInterval rq.pollIntervalMillis) (rq.deadline w)
        rounds w
      ↔ ∀ q limit, Readable store rq.queueName rq.quantity rq.timeoutSeconds q limit w.db →
        pollInterval rq.pollIntervalMillis ∣ seconds rq.maxPollSeconds ∨
          ∃ k : Nat, w.now + k * pollInterval rq.pollIntervalMillis < rq.deadline w ∧
            Awaits s c arrivals q limit w (w.now + k * pollInterval rq.pollIntervalMillis) := by
  have hi := pollInterval_pos rq.pollIntervalMillis
  have hspan : rq.deadline w - (rq.world s c arrivals store).now w = seconds rq.maxPollSeconds :=
    add_sub_cancel_left w.now _
  have hpos : 0 ≤ seconds rq.maxPollSeconds := Int.mul_nonneg hmax (by decide)
  have hd : (rq.world s c arrivals store).now w ≤ rq.deadline w := Int.le_add_of_nonneg_right hpos
  rw [World.agree_iff hi hd (by rw [hspan]; exact hrounds)]
  unfold World.OnGrid
  rw [hspan]
  constructor
  · intro h q limit hr
    rcases h with hstops | hdvd
    · exact .inr ((stops_before_iff hr hi (rq.deadline w)).mp hstops)
    · exact .inl hdvd
  · intro h
    by_cases hex : ∃ q limit, Readable store rq.queueName rq.quantity rq.timeoutSeconds q limit w.db
    · obtain ⟨q, limit, hr⟩ := hex
      rcases h q limit hr with hdvd | hawaits
      · exact .inr hdvd
      · exact .inl ((stops_before_iff hr hi (rq.deadline w)).mpr hawaits)
    · push Not at hex
      rcases Int.lt_or_eq_of_le hpos with hlt | hzero
      · refine .inl ⟨0, ?_, stops_unreadable hvalid hex⟩
        rw [Nat.cast_zero, Int.zero_mul, Int.add_zero]
        omega
      · rw [← hzero]
        exact .inr (Int.dvd_zero _)

end

end

/-- the queue `orders` without messages, at the moment `now` -/
def emptyOrders (now : Time) : PollWorld :=
    ⟨now, { MqDb.empty with queues := [⟨1, "orders", true, none⟩] }, []⟩

/-- a message of the queue `orders` -/
def orderAt (t : Time) : Time × MessageRow :=
  (t, ⟨1, 1, .str "x", .obj [], t, none, none, 0, none, t, t⟩)

/-- a poll of one second -/
def pollOrders (pollIntervalMillis : Int) : LongPoll := ⟨"orders", 1, 30, 1, pollIntervalMillis⟩

end PgApp
