import PgApp.Mq.Acks

/-!
# MQ calls that run alone

`MqProg.alone s c p db` runs a program with nobody in between and one clock reading: its result and
the tables it leaves.  There is one equation for each part of the programs:

* `alone_queueId_bind`, `…_unknown`   the lookup of the queue;
* `alone_inTx_ok`, `alone_inTx_error` a transaction;
* `alone_notifyQueue`                 the NOTIFY, which PostgreSQL refuses on a long channel name;
* `alone_insertAll`                   the insert loop of a batch.

`MqDb.sent` is what a send that commits leaves.
-/

namespace PgApp
open Interleave

/-- a program run alone by session `s`, all at one time -/
abbrev MqProg.alone {α : Type} (s : Nat) (c : MqCtx) (p : MqProg α) (db : MqDb) :
    Option (PgAppResult α × MqDb) := p.run (MqStmt.exec s c) db

namespace MqProg

section
variable {s : Nat} {c : MqCtx} {α β : Type} {db db' : MqDb}

theorem alone_query {st : MqStmt} {k : st.Res → MqProg α} {r : st.Res}
    (h : MqStmt.exec s c st db = some (r, db')) :
    (query st >>= k).alone s c db = (k r).alone s c db' :=
  Prog.run_exec_of _ h

theorem alone_bind_ok {p : MqProg α} {k : α → MqProg β} {a : α}
    (h : p.alone s c db = some (.ok a, db')) : (p >>= k).alone s c db = (k a).alone s c db' :=
  Prog.run_bind_ok _ h

theorem alone_bind_none {p : MqProg α} {k : α → MqProg β} (h : p.alone s c db = none) :
    (p >>= k).alone s c db = none := by
  unfold MqProg.alone at h ⊢
  rw [Prog.run_bind, h]
  rfl

theorem alone_bind_error {p : MqProg α} {k : α → MqProg β} {e : PgAppError}
    (h : p.alone s c db = some (.error e, db')) :
    (p >>= k).alone s c db = some (.error e, db') :=
  Prog.run_bind_error _ h

theorem alone_check {r : PgAppResult α} {k : α → MqProg β} {a : α} (h : r = .ok a) :
    (Prog.check r >>= k : MqProg β).alone s c db = (k a).alone s c db := by
  rw [h]
  rfl

theorem alone_check_error {r : PgAppResult α} {k : α → MqProg β} {e : PgAppError}
    (h : r = .error e) :
    (Prog.check r >>= k : MqProg β).alone s c db = some (.error e, db) := by
  rw [h]
  rfl

/-! ## the lookup -/

section
variable {n : String} {q : Int}

theorem alone_queueId_bind (hv : validateQueueName n = .ok ()) (hq : db.selectQueueId n = some q)
    (k : Int → MqProg α) : (queueId n >>= k).alone s c db = (k q).alone s c db := by
  have hrun : (queueId n).alone s c db = some (.ok q, db) := by
    unfold queueId
    have hs : MqStmt.exec s c (.selectQueueId n) db = some (some q, db) := by
      show some (db.selectQueueId n, db) = _
      rw [hq]
    rw [alone_check hv, alone_query hs]
    rfl
  exact alone_bind_ok hrun

theorem alone_queueId_unknown (hv : validateQueueName n = .ok ()) (hq : db.selectQueueId n = none)
    (k : Int → MqProg α) :
    (queueId n >>= k).alone s c db = some (.error (.notFound s!"queue {n}"), db) := by
  have hrun : (queueId n).alone s c db = some (.error (.notFound s!"queue {n}"), db) := by
    unfold queueId
    have hs : MqStmt.exec s c (.selectQueueId n) db = some (none, db) := by
      show some (db.selectQueueId n, db) = _
      rw [hq]
    rw [alone_check hv, alone_query hs]
    rfl
  exact alone_bind_error hrun

theorem alone_queueId_invalid {e : PgAppError} (hv : validateQueueName n = .error e)
    (k : Int → MqProg α) : (queueId n >>= k).alone s c db = some (.error e, db) :=
  alone_bind_error (alone_check_error hv)

theorem queue_of_selectQueueId (h : db.selectQueueId n = some q) :
    ∃ x ∈ db.queues, x.name = n ∧ x.id = q := by
  obtain ⟨x, hx, rfl⟩ := Option.map_eq_some_iff.mp h
  exact ⟨x, List.mem_of_find?_eq_some hx, by simpa using List.find?_some hx, rfl⟩

end

/-! ## transactions -/

theorem alone_inTx_ok {p : MqProg α} {a : α}
    (h : p.alone s c (db.begin s c.now) = some (.ok a, db')) :
    (inTx p).alone s c db = some (.ok a, db'.commit s) := by
  have hb : MqStmt.exec s c .begin db = some ((), db.begin s c.now) := rfl
  show (Prog.exec MqStmt.begin fun _ => p.bracket .commit .rollback).run _ db = _
  rw [Prog.run_exec_of _ hb, Prog.run_bracket, show p.run (MqStmt.exec s c) _ = _ from h]
  rfl

theorem alone_inTx_error {p : MqProg α} {e : PgAppError}
    (h : p.alone s c (db.begin s c.now) = some (.error e, db')) :
    (inTx p).alone s c db = some (.error e, db'.rollback s) := by
  have hb : MqStmt.exec s c .begin db = some ((), db.begin s c.now) := rfl
  show (Prog.exec MqStmt.begin fun _ => p.bracket .commit .rollback).run _ db = _
  rw [Prog.run_exec_of _ hb, Prog.run_bracket, show p.run (MqStmt.exec s c) _ = _ from h]
  rfl

theorem begin_now (db : MqDb) (s : Nat) (clock clock' : Time) :
    (db.begin s clock).now s clock' = clock := by
  unfold MqDb.now MqDb.begin
  rw [Slots.get_set_self]

/-! ## the NOTIFY -/

theorem mqChannel_ok {n : String} (hv : validateQueueName n = .ok ()) :
    mqChannel n = .ok s!"pgapp_mq_{n}" := by
  unfold mqChannel
  rw [hv]

theorem channel_size (n : String) : (s!"pgapp_mq_{n}").utf8ByteSize = 9 + n.utf8ByteSize := by
  show ("pgapp_mq_" ++ n).utf8ByteSize = _
  rw [String.utf8ByteSize_append]
  rfl

theorem alone_notifyQueue {n : String} (hv : validateQueueName n = .ok ())
    (hlen : n.utf8ByteSize ≤ 54) (count : Nat) (k : Unit → MqProg α) :
    (notifyQueue n count >>= k).alone s c db = (k ()).alone s c db := by
  have hn : notifyChannel s!"pgapp_mq_{n}" = .ok () := by
    unfold notifyChannel
    rw [channel_size, if_neg (by omega)]
  have hrun : (notifyQueue n count).alone s c db = some (.ok (), db) := by
    have hx : MqStmt.exec s c (.pgNotify s!"pgapp_mq_{n}" s!"{count}") db = some (.ok (), db) := by
      show some (notifyChannel s!"pgapp_mq_{n}", db) = _
      rw [hn]
    unfold notifyQueue
    rw [alone_check (mqChannel_ok hv), alone_query hx]
    rfl
  exact alone_bind_ok hrun

theorem alone_notifyQueue_long {n : String} (hv : validateQueueName n = .ok ())
    (hlen : ¬ n.utf8ByteSize ≤ 54) (count : Nat) (k : Unit → MqProg α) :
    (notifyQueue n count >>= k).alone s c db
      = some (.error (.ofSqlx .channelNameTooLong), db) := by
  have hn : notifyChannel s!"pgapp_mq_{n}" = .error .channelNameTooLong := by
    unfold notifyChannel
    rw [channel_size, if_pos (by omega)]
  have hrun : (notifyQueue n count).alone s c db
      = some (.error (.ofSqlx .channelNameTooLong), db) := by
    have hx : MqStmt.exec s c (.pgNotify s!"pgapp_mq_{n}" s!"{count}") db
        = some (.error .channelNameTooLong, db) := by
      show some (notifyChannel s!"pgapp_mq_{n}", db) = _
      rw [hn]
    unfold notifyQueue
    rw [alone_check (mqChannel_ok hv), alone_query hx]
    rfl
  exact alone_bind_error hrun

end

end MqProg

/-! ## inserting -/

/-- the rows of the insert loop: the ids are drawn one after the other -/
def newMessages (q delay : Int) (now : Time) : Int → List Json → List MessageRow
  | _, [] => []
  | first, payload :: rest =>
    newMessage first q payload now delay :: newMessages q delay now (first + 1) rest

/-- the tables after a send of these payloads -/
def MqDb.sent (db : MqDb) (q delay : Int) (now : Time) (payloads : List Json) : MqDb :=
  { db with
    messages := db.messages ++ newMessages q delay now db.nextMessageId payloads
    nextMessageId := db.nextMessageId + payloads.length }

/-- the tables while session `s` has inserted these payloads and not yet committed -/
def MqDb.inserting (db : MqDb) (s : Nat) (q delay : Int) (now : Time) (payloads : List Json) :
    MqDb :=
  { db with
    nextMessageId := db.nextMessageId + payloads.length
    txs := db.txs.set s ⟨now, newMessages q delay now db.nextMessageId payloads⟩ }

section
variable {db : MqDb} {s : Nat} (htx : db.txs.get s = none) (q delay : Int) (now : Time)
  (payloads : List Json)

include htx in
theorem MqDb.inserting_commit :
    (db.inserting s q delay now payloads).commit s = db.sent q delay now payloads := by
  unfold MqDb.commit MqDb.inserting
  simp only [Slots.get_set_self, Slots.erase_set, Slots.erase_of_get htx]
  rfl

include htx in
theorem MqDb.inserting_rollback :
    (db.inserting s q delay now payloads).rollback s
      = { db with nextMessageId := db.nextMessageId + payloads.length } := by
  unfold MqDb.rollback MqDb.inserting
  simp only [Slots.erase_set, Slots.erase_of_get htx]

end

theorem MqDb.sent_cons (db : MqDb) (q delay : Int) (now : Time) (payload : Json)
    (rest : List Json) :
    (db.sent q delay now [payload]).sent q delay now rest
      = db.sent q delay now (payload :: rest) := by
  have h1 : db.nextMessageId + (([payload].length : Nat) : Int) = db.nextMessageId + 1 := rfl
  have h2 : db.nextMessageId + 1 + (rest.length : Int)
      = db.nextMessageId + ((payload :: rest).length : Nat) := by
    rw [List.length_cons]
    omega
  unfold MqDb.sent
  simp only [h1, h2, List.append_assoc]
  rfl

namespace MqProg

section
variable {s : Nat} {c : MqCtx} {α : Type} {db : MqDb} {q : Int}

theorem exec_insertMessage (hq : ∃ x ∈ db.queues, x.id = q) {t : MqTx}
    (ht : db.txs.get s = some t) {payload : Json} {delay : Int}
    (hi : Insertable t.startedAt delay payload) :
    MqStmt.exec s c (.insertMessage q payload delay) db = some (.ok db.nextMessageId,
      { db with
        nextMessageId := db.nextMessageId + 1
        txs := db.txs.set s { t with
          pending := t.pending ++ [newMessage db.nextMessageId q payload t.startedAt
              delay] } }) := by
  obtain ⟨x, hx, hid⟩ := hq
  have hany : db.queues.any (·.id == q) = true := List.any_eq_true.mpr ⟨x, hx, by simpa using hid⟩
  rw [exec_insert_some ht]
  unfold MqDb.insertMessage
  rw [hi.1, if_neg (by simp), if_neg (not_not_intro hi.2), if_pos hany]

/-- the insert loop inside the transaction `t` -/
theorem alone_insertAll (hq : ∃ x ∈ db.queues, x.id = q) {delay : Int} {payloads : List Json}
    {t : MqTx} (hi : ∀ v ∈ payloads, Insertable t.startedAt delay v) (ht : db.txs.get s = some t)
    (ids : List Int) :
    (insertAll q delay payloads ids).alone s c db
      = some (.ok (ids ++ (newMessages q delay t.startedAt db.nextMessageId payloads).map (·.id)),
          { db with
            nextMessageId := db.nextMessageId + payloads.length
            txs := if payloads.isEmpty then db.txs else db.txs.set s { t with
              pending := t.pending ++ newMessages q delay t.startedAt db.nextMessageId
                  payloads } }) := by
  induction payloads generalizing db t ids with
  | nil =>
    show some _ = some _
    simp [newMessages]
  | cons payload rest ih =>
    obtain ⟨x, hx, hid⟩ := hq
    obtain ⟨t₁, ht₁⟩ : ∃ t₁ : MqTx, t₁ = { t with
        pending := t.pending ++ [newMessage db.nextMessageId q payload t.startedAt delay] } :=
          ⟨_, rfl⟩
    obtain ⟨db₁, hdb₁⟩ : ∃ db₁ : MqDb, db₁ = { db with
        nextMessageId := db.nextMessageId + 1, txs := db.txs.set s t₁ } := ⟨_, rfl⟩
    have hins : MqStmt.exec s c (.insertMessage q payload delay) db
        = some (.ok db.nextMessageId, db₁) := by
      rw [exec_insertMessage ⟨x, hx, hid⟩ ht (hi payload List.mem_cons_self), hdb₁, ht₁]
    have hget : db₁.txs.get s = some t₁ := by
      rw [hdb₁]
      exact Slots.get_set_self _ _ _
    have hq₁ : ∃ x ∈ db₁.queues, x.id = q := by
      rw [hdb₁]
      exact ⟨x, hx, hid⟩
    have hlen : db.nextMessageId + 1 + (rest.length : Int)
        = db.nextMessageId + ((payload :: rest).length : Nat) := by
      rw [List.length_cons]
      omega
    unfold insertAll
    have hi₁ : ∀ v ∈ rest, Insertable t₁.startedAt delay v := by
      rw [ht₁]
      exact fun v hv => hi v (List.mem_cons_of_mem _ hv)
    rw [alone_query hins, orFail_ok, Prog.bind_ok, ih hq₁ hi₁ hget]
    subst hdb₁ ht₁
    cases rest with
    | nil =>
      simp [newMessages]
      rfl
    | cons p ps =>
      simp only [hlen, newMessages, List.isEmpty_cons, Slots.set_set, List.append_assoc,
        List.map_cons, List.cons_append, List.nil_append]
      rfl

/-- the insert loop of a transaction that has just begun -/
theorem alone_insertAll_begun (hq : ∃ x ∈ db.queues, x.id = q) {delay : Int}
    {payloads : List Json} (hi : ∀ v ∈ payloads, Insertable c.now delay v) :
    (insertAll q delay payloads []).alone s c (db.begin s c.now)
      = some (.ok ((newMessages q delay c.now db.nextMessageId payloads).map (·.id)),
          db.inserting s q delay c.now payloads) := by
  have hget : (db.begin s c.now).txs.get s = some ⟨c.now, []⟩ := Slots.get_set_self _ _ _
  have hq' : ∃ x ∈ (db.begin s c.now).queues, x.id = q := hq
  rw [alone_insertAll hq' hi hget]
  cases payloads with
  | nil =>
    simp [newMessages, MqDb.inserting, MqDb.begin]
  | cons p ps =>
    simp [MqDb.inserting, MqDb.begin]

end

end MqProg

end PgApp
