import PgApp.Mq.Alone

/-!
# Queue names and notification channels (`listen.rs`)

`validate_identifier` lets a queue name have 128 bytes.  `mq_channel` puts nine bytes before it, and
PostgreSQL takes a channel name of at most 63: `pg_notify` refuses a longer one, and LISTEN cuts it
off (`truncateIdentifier`).  The NOTIFY is part of the transaction of a send, so a queue with a name
of 55 bytes or more can be created and never be sent to.

* `alone_send`, `alone_sendBatch`   a send that runs alone, on a name that is short enough;
* `alone_send_long`                 the same on a longer one: it fails and is rolled back;
* `truncateIdentifier_eq`           LISTEN leaves a short channel as it is.

Main result: `mq_channel_usable`.
-/

namespace PgApp
open Interleave MqProg

/-! ## a send that runs alone -/

/-- the queue `n` is there, with the id `q` -/
structure MqDb.HasQueue (db : MqDb) (n : String) (q : Int) : Prop where
  valid : validateQueueName n = .ok ()
  found : db.selectQueueId n = some q

theorem MqDb.HasQueue.row {db : MqDb} {n : String} {q : Int} (h : db.HasQueue n q) :
    ∃ x ∈ db.queues, x.id = q := by
  obtain ⟨x, hx, -, hid⟩ := queue_of_selectQueueId h.found
  exact ⟨x, hx, hid⟩

/-- `send` takes this payload, as this value -/
theorem parsePayload_ok {store : MqStore} {payload : String} {v : Json} :
    store.parsePayload payload = .ok v ↔
      store.validatePayloadSize payload = .ok () ∧ store.parseJsonPayload payload = .ok v := by
  unfold MqStore.parsePayload
  cases store.validatePayloadSize payload with
  | error e =>
    refine ⟨fun h => (by cases h), fun h => ?_⟩
    cases h.1
  | ok u => exact ⟨fun h => ⟨rfl, h⟩, fun h => h.2⟩

theorem delay_ok {delay : Int} (h : 0 ≤ delay) :
    validateNonNegativeSeconds "delay_seconds" delay = .ok delay := by
  unfold validateNonNegativeSeconds
  rw [if_neg (by omega)]

section
variable {s : Nat} {c : MqCtx} {db : MqDb} {n : String} {q : Int} {store : MqStore}

/-- `send` up to its transaction -/
theorem alone_send_start (h : db.HasQueue n q) {payload : String} {v : Json}
    (hp : store.parsePayload payload = .ok v) {delay : Int} (hd : 0 ≤ delay) :
    (store.send n payload delay).alone s c db
      = (inTx (do
          let id ← orFail (← query (.insertMessage q v delay))
          notifyQueue n 1
          pure id)).alone s c db := by
  obtain ⟨h1, h2⟩ := parsePayload_ok.mp hp
  unfold MqStore.send sendValue
  rw [alone_check h1, alone_check h2, alone_check (delay_ok hd),
    alone_queueId_bind h.valid h.found]

/-- the insert of `send` -/
theorem alone_insert (h : db.HasQueue n q) {v : Json} {delay : Int}
    (hi : Insertable c.now delay v) {α : Type} (k : Int → MqProg α) :
    (do let id ← orFail (← query (.insertMessage q v delay)); k id : MqProg α).alone s c
        (db.begin s c.now)
      = (k db.nextMessageId).alone s c (db.inserting s q delay c.now [v]) := by
  have hget : (db.begin s c.now).txs.get s = some ⟨c.now, []⟩ := Slots.get_set_self _ _ _
  have hrow : ∃ x ∈ (db.begin s c.now).queues, x.id = q := h.row
  rw [alone_query (exec_insertMessage hrow hget hi), orFail_ok, Prog.bind_ok]
  have hdb : ({ db.begin s c.now with
      nextMessageId := (db.begin s c.now).nextMessageId + 1
      txs := (db.begin s c.now).txs.set s ⟨c.now,
        [newMessage (db.begin s c.now).nextMessageId q v c.now delay]⟩ } : MqDb)
      = db.inserting s q delay c.now [v] := by
    simp [MqDb.inserting, MqDb.begin, newMessages]
  exact congrArg ((k db.nextMessageId).alone s c) hdb

theorem alone_send (h : db.HasQueue n q) (htx : db.txs.get s = none) (hlen : n.utf8ByteSize ≤ 54)
    {payload : String} {v : Json} (hp : store.parsePayload payload = .ok v) {delay : Int}
    (hd : 0 ≤ delay) (hi : Insertable c.now delay v) :
    (store.send n payload delay).alone s c db
      = some (.ok db.nextMessageId, db.sent q delay c.now [v]) := by
  rw [alone_send_start h hp hd, ← MqDb.inserting_commit htx]
  exact alone_inTx_ok ((alone_insert h hi _).trans (alone_notifyQueue h.valid hlen 1 _))

/-- the NOTIFY on a long channel fails, and with it the send: only an id is used up -/
theorem alone_send_long (h : db.HasQueue n q) (htx : db.txs.get s = none)
    (hlen : ¬ n.utf8ByteSize ≤ 54) {payload : String} {v : Json}
    (hp : store.parsePayload payload = .ok v) {delay : Int} (hd : 0 ≤ delay)
    (hi : Insertable c.now delay v) :
    (store.send n payload delay).alone s c db
      = some (.error (.ofSqlx .channelNameTooLong),
          { db with nextMessageId := db.nextMessageId + 1 }) := by
  have hdb := MqDb.inserting_rollback htx q delay c.now [v]
  rw [alone_send_start h hp hd]
  refine (alone_inTx_error ((alone_insert h hi _).trans
    (alone_notifyQueue_long h.valid hlen 1 _))).trans ?_
  rw [hdb]
  rfl

/-! ## a batch -/

/-- `send_batch` of a list that is not empty, up to its transaction -/
theorem alone_sendBatch_start (h : db.HasQueue n q) {payloads : List String} (hne : payloads ≠ [])
    {vs : List Json} (hlen : store.validateBatchLen payloads.length = .ok ())
    (hp : collectPayloads store payloads = .ok vs) {delay : Int} (hd : 0 ≤ delay) :
    (store.sendBatch n payloads delay).alone s c db
      = (inTx (do
          let ids ← insertAll q delay vs []
          notifyQueue n ids.length
          pure ids)).alone s c db := by
  have hemp : ¬ payloads.isEmpty = true := by simpa using hne
  unfold MqStore.sendBatch
  rw [alone_check hlen, alone_check (delay_ok hd), if_neg hemp,
    alone_queueId_bind h.valid h.found, alone_check hp]

theorem alone_sendBatch (h : db.HasQueue n q) (htx : db.txs.get s = none)
    (hsize : n.utf8ByteSize ≤ 54) {payloads : List String} (hne : payloads ≠ [])
    {vs : List Json} (hlen : store.validateBatchLen payloads.length = .ok ())
    (hp : collectPayloads store payloads = .ok vs) {delay : Int} (hd : 0 ≤ delay)
    (hi : ∀ v ∈ vs, Insertable c.now delay v) :
    (store.sendBatch n payloads delay).alone s c db
      = some (.ok ((newMessages q delay c.now db.nextMessageId vs).map (·.id)),
          db.sent q delay c.now vs) := by
  rw [alone_sendBatch_start h hne hlen hp hd, ← MqDb.inserting_commit htx]
  exact alone_inTx_ok ((alone_bind_ok (alone_insertAll_begun h.row hi)).trans
    (alone_notifyQueue h.valid hsize _ _))

theorem alone_sendBatch_long (h : db.HasQueue n q) (htx : db.txs.get s = none)
    (hsize : ¬ n.utf8ByteSize ≤ 54) {payloads : List String} (hne : payloads ≠ [])
    {vs : List Json} (hlen : store.validateBatchLen payloads.length = .ok ())
    (hp : collectPayloads store payloads = .ok vs) {delay : Int} (hd : 0 ≤ delay)
    (hi : ∀ v ∈ vs, Insertable c.now delay v) :
    (store.sendBatch n payloads delay).alone s c db
      = some (.error (.ofSqlx .channelNameTooLong),
          { db with nextMessageId := db.nextMessageId + vs.length }) := by
  have hdb := MqDb.inserting_rollback htx q delay c.now vs
  rw [alone_sendBatch_start h hne hlen hp hd]
  refine (alone_inTx_error ((alone_bind_ok (alone_insertAll_begun h.row hi)).trans
    (alone_notifyQueue_long h.valid hsize _ _))).trans ?_
  rw [hdb]

end

/-! ## LISTEN -/

/-- the longest part of at most `limit` bytes, in whole characters -/
def clipBytes : Nat → List Char → List Char
  | _, [] => []
  | limit, ch :: rest =>
    if ch.utf8Size ≤ limit then ch :: clipBytes (limit - ch.utf8Size) rest else []

/-- what PostgreSQL makes of an identifier: its first 63 bytes -/
def truncateIdentifier (name : String) : String := String.ofList (clipBytes 63 name.toList)

theorem clipBytes_eq {limit : Nat} {l : List Char} (h : (l.map Char.utf8Size).sum ≤ limit) :
    clipBytes limit l = l := by
  induction l generalizing limit with
  | nil => rfl
  | cons ch rest ih =>
    rw [List.map_cons, List.sum_cons] at h
    unfold clipBytes
    rw [if_pos (by omega), ih (by omega)]

theorem sum_utf8Size (l : List Char) :
    (l.map Char.utf8Size).sum = (String.ofList l).utf8ByteSize := by
  induction l with
  | nil => rfl
  | cons ch rest ih =>
    have h1 : String.ofList (ch :: rest) = String.ofList [ch] ++ String.ofList rest := by
      rw [← String.ofList_append]
      rfl
    rw [List.map_cons, List.sum_cons, ih, h1, String.utf8ByteSize_append,
      ← String.singleton_eq_ofList,
      String.utf8ByteSize_singleton]

theorem truncateIdentifier_eq {name : String} (h : name.utf8ByteSize ≤ 63) :
    truncateIdentifier name = name := by
  have h1 : (name.toList.map Char.utf8Size).sum ≤ 63 := by
    rw [sum_utf8Size, String.ofList_toList]
    exact h
  unfold truncateIdentifier
  rw [clipBytes_eq h1, String.ofList_toList]

/-- `MqListener`: the channel asked for, and the one PostgreSQL listens on -/
structure MqListener where
  channel : String
  listening : String

def MqListener.connect (queueName : String) : PgAppResult MqListener :=
  match mqChannel queueName with
  | .error e => .error e
  | .ok channel => .ok ⟨channel, truncateIdentifier channel⟩

/-- `recv` returns for a notification: it arrives, and it is for the channel asked for -/
def MqListener.wakes (l : MqListener) (notified : String) : Bool :=
  l.listening == notified && notified == l.channel

/-! ## usable names -/

/-- `pg_notify` takes the channel of the queue -/
def ChannelAccepted (n : String) : Prop :=
  ∃ channel, mqChannel n = .ok channel ∧ notifyChannel channel = .ok ()

/-- wherever the queue exists, `send` and `send_batch` of payloads that the store and PostgreSQL
take, with a delay that is not negative and has an end, commit -/
structure SendsCommit (n : String) : Prop where
  one : ∀ (store : MqStore) s c db q payload v delay, db.HasQueue n q → db.txs.get s = none →
    store.parsePayload payload = .ok v → 0 ≤ delay → Insertable c.now delay v →
    ∃ id db', (store.send n payload delay).alone s c db = some (.ok id, db') ∧
      db'.messages = db.messages ++ [newMessage id q v c.now delay]
  batch : ∀ (store : MqStore) s c db q payloads vs delay, db.HasQueue n q → db.txs.get s = none →
    store.validateBatchLen payloads.length = .ok () → collectPayloads store payloads = .ok vs →
    0 ≤ delay → (∀ v ∈ vs, Insertable c.now delay v) → payloads ≠ [] →
    ∃ ids db', (store.sendBatch n payloads delay).alone s c db = some (.ok ids, db') ∧
      db'.messages = db.messages ++ newMessages q delay c.now db.nextMessageId vs

/-- the channels of two queues are two after LISTEN has cut them off -/
def ListensApart (a b : String) : Prop :=
  ∀ ca cb, mqChannel a = .ok ca → mqChannel b = .ok cb → truncateIdentifier ca
    ≠ truncateIdentifier cb

/-- a listener for `a` sleeps through what is sent to `b` -/
def SleepsThrough (a b : String) : Prop :=
  ∀ l channel, MqListener.connect a = .ok l → mqChannel b = .ok channel → l.wakes channel = false

section
variable {a b : String}

theorem channelAccepted_iff (hv : validateQueueName a = .ok ()) :
    ChannelAccepted a ↔ a.utf8ByteSize ≤ 54 := by
  unfold ChannelAccepted notifyChannel
  rw [mqChannel_ok hv]
  constructor
  · intro h
    obtain ⟨channel, hc, hn⟩ := h
    obtain rfl := Except.ok.inj hc
    rw [channel_size] at hn
    split at hn
    · cases hn
    · omega
  · intro h
    refine ⟨_, rfl, ?_⟩
    rw [channel_size, if_neg (by omega)]

theorem sendsCommit_of_short (h : a.utf8ByteSize ≤ 54) : SendsCommit a where
  one := fun _ _ _ _ _ _ _ _ hq htx hp hd hi => ⟨_, _, alone_send hq htx h hp hd hi, rfl⟩
  batch := fun _ _ _ _ _ _ _ _ hq htx hl hp hd hi hne =>
    ⟨_, _, alone_sendBatch hq htx h hne hl hp hd hi, rfl⟩

theorem channel_injective (h : s!"pgapp_mq_{a}" = s!"pgapp_mq_{b}") : a = b := by
  have h1 : "pgapp_mq_" ++ a = "pgapp_mq_" ++ b := h
  have h2 := congrArg String.toList h1
  rw [String.toList_append, String.toList_append] at h2
  exact String.toList_inj.mp (List.append_cancel_left h2)

theorem listensApart_of_short (hva : validateQueueName a = .ok ())
    (hvb : validateQueueName b = .ok ()) (ha : a.utf8ByteSize ≤ 54) (hb : b.utf8ByteSize ≤ 54)
    (hne : a ≠ b) : ListensApart a b := by
  intro ca cb hca hcb heq
  rw [mqChannel_ok hva] at hca
  rw [mqChannel_ok hvb] at hcb
  obtain rfl := Except.ok.inj hca
  obtain rfl := Except.ok.inj hcb
  have h1 := channel_size a
  have h2 := channel_size b
  rw [truncateIdentifier_eq (by omega), truncateIdentifier_eq (by omega)] at heq
  exact hne (channel_injective heq)

/-- `recv` compares with the whole name, so nobody is woken by another queue -/
theorem sleepsThrough_of_ne (hva : validateQueueName a = .ok ())
    (hvb : validateQueueName b = .ok ()) (hne : a ≠ b) : SleepsThrough a b := by
  intro l channel hl hc
  unfold MqListener.connect at hl
  rw [mqChannel_ok hva] at hl
  rw [mqChannel_ok hvb] at hc
  obtain rfl := Except.ok.inj hl
  obtain rfl := Except.ok.inj hc
  unfold MqListener.wakes
  rw [Bool.and_eq_false_iff]
  refine .inr ?_
  rw [beq_eq_false_iff_ne]
  exact fun h => hne (channel_injective h).symm

end

/-- **Usable names.**  Two names that `create_queue` takes are usable (PostgreSQL takes their
channels, sends to them commit, their listeners listen apart and sleep through each other's sends)
if and only if both have at most 54 bytes. -/
theorem mq_channel_usable {a b : String} (hva : validateQueueName a = .ok ())
    (hvb : validateQueueName b = .ok ()) :
    ((ChannelAccepted a ∧ ChannelAccepted b) ∧ (SendsCommit a ∧ SendsCommit b) ∧
        (a ≠ b → ListensApart a b ∧ SleepsThrough a b ∧ SleepsThrough b a)) ↔
      a.utf8ByteSize ≤ 54 ∧ b.utf8ByteSize ≤ 54 := by
  rw [channelAccepted_iff hva, channelAccepted_iff hvb]
  constructor
  · exact fun h => h.1
  · intro h
    refine ⟨h, ⟨sendsCommit_of_short h.1, sendsCommit_of_short h.2⟩, fun hne => ?_⟩
    exact ⟨listensApart_of_short hva hvb h.1 h.2 hne, sleepsThrough_of_ne hva hvb hne,
      sleepsThrough_of_ne hvb hva (Ne.symm hne)⟩

theorem mq_channel_usable_short :
    (ChannelAccepted "orders" ∧ ChannelAccepted "jobs") ∧
      (SendsCommit "orders" ∧ SendsCommit "jobs") ∧
      ("orders" ≠ "jobs" → ListensApart "orders" "jobs" ∧ SleepsThrough "orders" "jobs" ∧
        SleepsThrough "jobs" "orders") :=
  (mq_channel_usable rfl rfl).mpr ⟨by decide, by decide⟩

/-- a name of 55 bytes -/
def longName : String := "orders_from_all_the_shops_in_the_north_and_in_the_south"

/-- the queue is created without complaint, every send to it fails, and a listener for it listens on
the channel of the queue whose name is one byte shorter -/
theorem mq_channel_usable_long :
    validateQueueName longName = .ok () ∧ validateQueueName (longName ++ "2") = .ok () ∧
    ¬ ((ChannelAccepted longName ∧ ChannelAccepted (longName ++ "2")) ∧
      (SendsCommit longName ∧ SendsCommit (longName ++ "2")) ∧
      (longName ≠ longName ++ "2" → ListensApart longName (longName ++ "2") ∧
        SleepsThrough longName (longName ++ "2") ∧ SleepsThrough (longName ++ "2") longName)) ∧
    (∃ db e db', (textStore.createQueue longName .durable).alone 0 (plainCtx 0) MqDb.empty
        = some (.ok (), db) ∧
      (textStore.send longName "x" 0).alone 0 (plainCtx 1) db = some (.error e, db') ∧
      db'.messages = []) ∧
    ¬ ListensApart longName (longName ++ "2") := by
  have hv : validateQueueName longName = .ok () := by decide
  have hv2 : validateQueueName (longName ++ "2") = .ok () := by decide
  refine ⟨hv, hv2, fun h => ?_, ⟨_, _, _, rfl, rfl, rfl⟩, fun h => ?_⟩
  · have h1 := (channelAccepted_iff hv).mp h.1.1
    exact absurd h1 (by decide)
  · exact h _ _ (mqChannel_ok hv) (mqChannel_ok hv2) (by decide)

end PgApp
