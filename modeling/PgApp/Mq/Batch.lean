import PgApp.Mq.BatchRun
import PgApp.Mq.Channel

/-!
# A batch and the sends of its elements

Run alone, `send_batch` takes a list within the size limit exactly when the delay is not negative
and `send` would take each element (`sendBatch_ok_iff`, `send_ok_iff`), and then it leaves what the
sends one by one leave (`alone_sendEach`).  Among others it is all or nothing (`sendBatch_calls`).

Main result: `mq_send_batch`.
-/

namespace PgApp
open Interleave MqProg

/-- the elements sent one by one -/
def MqStore.sendEach (store : MqStore) (queueName : String) (delaySeconds : Int) :
    List String → MqProg (List Int)
  | [] => pure []
  | payload :: rest => do
    let id ← store.send queueName payload delaySeconds
    let ids ← store.sendEach queueName delaySeconds rest
    pure (id :: ids)

/-! ## programs that succeed alone -/

section
variable {s : Nat} {c : MqCtx} {α β : Type} {db db' : MqDb} {b : β}

theorem alone_check_inv {r : PgAppResult α} {k : α → MqProg β}
    (h : (Prog.check r >>= k : MqProg β).alone s c db = some (.ok b, db')) :
    ∃ a, r = .ok a ∧ (k a).alone s c db = some (.ok b, db') := by
  cases r with
  | ok a => exact ⟨a, rfl, h⟩
  | error e =>
    rw [alone_check_error rfl] at h
    cases h

theorem alone_queueId_inv {n : String} {k : Int → MqProg β}
    (h : (queueId n >>= k).alone s c db = some (.ok b, db')) :
    ∃ q, db.HasQueue n q ∧ (k q).alone s c db = some (.ok b, db') := by
  cases hv : validateQueueName n with
  | error e =>
    rw [alone_queueId_invalid hv] at h
    cases h
  | ok u =>
    cases hq : db.selectQueueId n with
    | none =>
      rw [alone_queueId_unknown hv hq] at h
      cases h
    | some q =>
      rw [alone_queueId_bind hv hq] at h
      exact ⟨q, ⟨hv, hq⟩, h⟩

theorem alone_inTx_inv {p : MqProg β} (h : (inTx p).alone s c db = some (.ok b, db')) :
    ∃ d, p.alone s c (db.begin s c.now) = some (.ok b, d) := by
  cases hp : p.alone s c (db.begin s c.now) with
  | none =>
    have hnone : (inTx p).alone s c db = none := by
      show (Prog.exec MqStmt.begin fun _ => p.bracket .commit .rollback).run _ db = _
      have hb : MqStmt.exec s c .begin db = some ((), db.begin s c.now) := rfl
      rw [Prog.run_exec_of _ hb, Prog.run_bracket, show p.run (MqStmt.exec s c) _ = _ from hp]
      rfl
    rw [hnone] at h
    cases h
  | some x =>
    obtain ⟨r, d⟩ := x
    cases r with
    | ok b' =>
      rw [alone_inTx_ok hp] at h
      cases h
      exact ⟨d, rfl⟩
    | error e =>
      rw [alone_inTx_error hp] at h
      cases h

/-- an insert that succeeds, with what comes after it -/
theorem alone_insert_inv {q delay : Int} {v : Json} {k : Int → MqProg β} {t : MqTx}
    (ht : db.txs.get s = some t)
    (h : (do let id ← orFail (← query (.insertMessage q v delay)); k id : MqProg β).alone s c db
      = some (.ok b, db')) :
    Insertable t.startedAt delay v ∧ ∃ id d t', d.txs.get s = some t' ∧ t'.startedAt = t.startedAt ∧
      (k id).alone s c d = some (.ok b, db') := by
  have hx : (MqStmt.insertMessage q v delay).exec s c db = some (db.insertMessage s t q v delay) :=
    exec_insert_some ht
  rcases insertMessage_spec db s t q v delay with ⟨hi, -, he⟩ | ⟨e, he⟩
  · rw [he] at hx
    rw [alone_query hx, orFail_ok, Prog.bind_ok] at h
    exact ⟨hi, _, _, { t with pending := t.pending ++ [newMessage db.nextMessageId q v t.startedAt
      delay] }, Slots.get_set_self _ _ _, rfl, h⟩
  · rw [he] at hx
    rw [alone_query hx] at h
    cases h

theorem alone_insertAll_inv {q delay : Int} {vs : List Json} {ids r : List Int} {t : MqTx}
    (ht : db.txs.get s = some t)
    (h : (insertAll q delay vs ids).alone s c db = some (.ok r, db')) :
    ∀ v ∈ vs, Insertable t.startedAt delay v := by
  induction vs generalizing db ids t with
  | nil => exact fun v hv => absurd hv List.not_mem_nil
  | cons v rest ih =>
    obtain ⟨hi, id, d, t', ht', hnow, h⟩ := alone_insert_inv ht h
    intro w hw
    rcases List.mem_cons.mp hw with rfl | hw
    · exact hi
    · rw [← hnow]
      exact ih ht' h w hw

theorem alone_bind_inv {α : Type} {p : MqProg α} {k : α → MqProg β}
    (h : (p >>= k).alone s c db = some (.ok b, db')) :
    ∃ a d, p.alone s c db = some (.ok a, d) := by
  cases hp : p.alone s c db with
  | none =>
    rw [alone_bind_none hp] at h
    cases h
  | some x =>
    obtain ⟨r, d⟩ := x
    cases r with
    | ok a => exact ⟨a, d, rfl⟩
    | error e =>
      rw [alone_bind_error hp] at h
      cases h

theorem delay_ok_inv {delay d : Int} (h :
    validateNonNegativeSeconds "delay_seconds" delay = .ok d) :
    0 ≤ delay := by
  unfold validateNonNegativeSeconds at h
  split at h
  · cases h
  · omega

end

/-! ## one element -/

/-- what a send of some payload needs besides the payload -/
structure SendReady (db : MqDb) (n : String) (delay q : Int) : Prop extends db.HasQueue n q where
  delay : 0 ≤ delay
  short : n.utf8ByteSize ≤ 54

section
variable {s : Nat} {c : MqCtx} {db : MqDb} {n : String} {store : MqStore} {delay : Int}

theorem send_ok_iff (htx : db.txs.get s = none) {payload : String} :
    (∃ id db', (store.send n payload delay).alone s c db = some (.ok id, db')) ↔
      (∃ v, store.parsePayload payload = .ok v ∧ Insertable c.now delay v) ∧
        ∃ q, SendReady db n delay q := by
  constructor
  · intro h
    obtain ⟨id, db', h⟩ := h
    have hrun := h
    unfold MqStore.send at h
    obtain ⟨u, hsize, h⟩ := alone_check_inv h
    obtain ⟨v, hparse, h⟩ := alone_check_inv h
    unfold sendValue at h
    obtain ⟨d, hd, h⟩ := alone_check_inv h
    obtain ⟨q, hq, h⟩ := alone_queueId_inv h
    obtain ⟨d, h⟩ := alone_inTx_inv h
    have hi := (alone_insert_inv (Slots.get_set_self _ _ _) h).1
    have hp : store.parsePayload payload = .ok v := parsePayload_ok.mpr ⟨hsize, hparse⟩
    have hd := delay_ok_inv hd
    refine ⟨⟨v, hp, hi⟩, q, hq, hd, ?_⟩
    by_contra hlong
    rw [alone_send_long hq htx hlong hp hd hi] at hrun
    cases hrun
  · intro h
    obtain ⟨⟨v, hp, hi⟩, q, hq, hd, hshort⟩ := h
    exact ⟨_, _, alone_send hq htx hshort hp hd hi⟩

/-! ## the batch -/

/-- the store and PostgreSQL take the elements -/
def BatchTaken (store : MqStore) (now : Time) (delay : Int) (payloads : List String)
    (vs : List Json) : Prop :=
  collectPayloads store payloads = .ok vs ∧ ∀ v ∈ vs, Insertable now delay v

theorem batchTaken_iff {now : Time} {payloads : List String} :
    (∃ vs, BatchTaken store now delay payloads vs) ↔
      ∀ p ∈ payloads, ∃ v, store.parsePayload p = .ok v ∧ Insertable now delay v := by
  unfold BatchTaken
  simp only [collectPayloads_ok]
  induction payloads with
  | nil => simp
  | cons p rest ih =>
    rw [List.forall_mem_cons, ← ih]
    constructor
    · intro h
      obtain ⟨vs, h, hi⟩ := h
      obtain ⟨v, ws, hp, hr, rfl⟩ := List.forall₂_cons_left_iff.mp h
      obtain ⟨hv, hws⟩ := List.forall_mem_cons.mp hi
      exact ⟨⟨v, hp, hv⟩, ws, hr, hws⟩
    · intro h
      obtain ⟨⟨v, hp, hv⟩, ws, hr, hws⟩ := h
      exact ⟨v :: ws, .cons hp hr, List.forall_mem_cons.mpr ⟨hv, hws⟩⟩

theorem alone_sendBatch_nil (hl : store.validateBatchLen ([] : List String).length = .ok ())
    (hd : 0 ≤ delay) :
    (store.sendBatch n [] delay).alone s c db = some (.ok [], db) := by
  unfold MqStore.sendBatch
  rw [alone_check hl, alone_check (delay_ok hd)]
  rfl

theorem sendBatch_ok_iff (htx : db.txs.get s = none) {payloads : List String}
    (hl : store.validateBatchLen payloads.length = .ok ()) :
    (∃ ids db', (store.sendBatch n payloads delay).alone s c db = some (.ok ids, db')) ↔
      0 ≤ delay ∧ (payloads ≠ [] →
        (∃ vs, BatchTaken store c.now delay payloads vs) ∧ ∃ q, SendReady db n delay q) := by
  constructor
  · intro h
    obtain ⟨ids, db', h⟩ := h
    have hrun := h
    unfold MqStore.sendBatch at h
    obtain ⟨u, -, h⟩ := alone_check_inv h
    obtain ⟨d, hd, h⟩ := alone_check_inv h
    have hd := delay_ok_inv hd
    refine ⟨hd, fun hne => ?_⟩
    have hemp : ¬ payloads.isEmpty = true := by simpa using hne
    rw [if_neg hemp] at h
    obtain ⟨q, hq, h⟩ := alone_queueId_inv h
    obtain ⟨vs, hvs, h⟩ := alone_check_inv h
    obtain ⟨d, h⟩ := alone_inTx_inv h
    obtain ⟨ids', d', h⟩ := alone_bind_inv h
    have hi := alone_insertAll_inv (Slots.get_set_self _ _ _) h
    refine ⟨⟨vs, hvs, hi⟩, q, hq, hd, ?_⟩
    by_contra hlong
    rw [alone_sendBatch_long hq htx hlong hne hl hvs hd hi] at hrun
    cases hrun
  · intro h
    obtain ⟨hd, h⟩ := h
    by_cases hne : payloads = []
    · subst hne
      exact ⟨[], db, alone_sendBatch_nil hl hd⟩
    · obtain ⟨⟨vs, hvs, hi⟩, q, hq, -, hshort⟩ := h hne
      exact ⟨_, _, alone_sendBatch hq htx hshort hne hl hvs hd hi⟩

/-- the sends one by one -/
theorem alone_sendEach {q : Int} {payloads : List String} {vs : List Json}
    (h : SendReady db n delay q) (htx : db.txs.get s = none)
    (hp : List.Forall₂ (fun p v => store.parsePayload p = .ok v) payloads vs)
    (hi : ∀ v ∈ vs, Insertable c.now delay v) :
    (store.sendEach n delay payloads).alone s c db
      = some (.ok ((newMessages q delay c.now db.nextMessageId vs).map (·.id)),
          db.sent q delay c.now vs) := by
  induction hp generalizing db with
  | nil =>
    have h1 : db.sent q delay c.now [] = db := by
      simp [MqDb.sent, newMessages]
    rw [h1]
    rfl
  | @cons p v payloads vs hv _ ih =>
    have h1 : SendReady (db.sent q delay c.now [v]) n delay q :=
      ⟨⟨h.valid, h.found⟩, h.delay, h.short⟩
    obtain ⟨hiv, hirest⟩ := List.forall_mem_cons.mp hi
    have hsend := alone_send h.toHasQueue htx h.short hv h.delay hiv
    have hrest := ih h1 htx hirest
    unfold MqStore.sendEach
    rw [alone_bind_ok hsend, alone_bind_ok hrest, MqDb.sent_cons]
    rfl

end

/-- **Batches.**  Among any other calls, a `send_batch` that is answered with an error adds no
message, and one that is answered with ids has added, in one COMMIT, one new message of the queue
for each payload in order, with these rising ids.  Run alone, it takes a list within the size limit
exactly when the delay is not negative and `send` would take each element, and leaves what these
sends leave. -/
theorem mq_send_batch {σ : MqSys} (hr : MqReach σ) :
    (∀ s, ∃ run parts, ownEvents s σ.hist = run ++ parts.flatten ∧
      List.Forall₂ (fun x part => BatchAnswer x.2.1 x.2.2 part) (σ.done.filter (·.1 == s)) parts) ∧
    ∀ (store : MqStore) (s : Nat) (c : MqCtx) (db : MqDb) (n : String) (payloads : List String)
      (delay : Int), db.txs.get s = none → store.validateBatchLen payloads.length = .ok () →
      ((∃ ids db', (store.sendBatch n payloads delay).alone s c db = some (.ok ids, db')) ↔
        0 ≤ delay ∧ ∀ p ∈ payloads, ∃ id db',
          (store.send n p delay).alone s c db = some (.ok id, db')) ∧
      ∀ ids db', (store.sendBatch n payloads delay).alone s c db = some (.ok ids, db') →
        (store.sendEach n delay payloads).alone s c db = some (.ok ids, db') := by
  refine ⟨sendBatch_calls hr, fun store s c db n payloads delay htx hl =>
    ⟨?_, fun ids db' hrun => ?_⟩⟩
  · rw [sendBatch_ok_iff htx hl, batchTaken_iff]
    refine and_congr_right fun hd => ⟨fun h p hp => ?_, fun h hne => ?_⟩
    · obtain ⟨hparse, hq⟩ := h (List.ne_nil_of_mem hp)
      exact (send_ok_iff htx).mpr ⟨hparse p hp, hq⟩
    · obtain ⟨p, hp⟩ := List.exists_mem_of_ne_nil payloads hne
      exact ⟨fun p hp => ((send_ok_iff htx).mp (h p hp)).1, ((send_ok_iff htx).mp (h p hp)).2⟩
  · obtain ⟨hd, h⟩ := (sendBatch_ok_iff htx hl).mp ⟨ids, db', hrun⟩
    by_cases hne : payloads = []
    · subst hne
      rw [alone_sendBatch_nil hl hd] at hrun
      exact hrun
    · obtain ⟨⟨vs, hvs, hi⟩, q, hq⟩ := h hne
      rw [alone_sendBatch hq.toHasQueue htx hq.short hne hl hvs hd hi] at hrun
      rw [← hrun]
      exact alone_sendEach hq htx (collectPayloads_ok.mp hvs) hi

/-- session 0 sends between the two inserts of a batch of session 1 -/
def sendBetween : List (Act MqCall MqCtx) :=
  [.call 0 ⟨textStore, .createQueue "orders" .durable⟩, .stmt 0 (plainCtx 0), .ret 0,
   .call 1 ⟨textStore, .sendBatch "orders" ["a", "b"] 0⟩, .stmt 1 (plainCtx 1),
     .stmt 1 (plainCtx 2),
   .stmt 1 (plainCtx 3),
   .call 0 ⟨textStore, .send "orders" "c" 0⟩, .stmt 0 (plainCtx 4), .stmt 0 (plainCtx 5),
   .stmt 0 (plainCtx 6), .stmt 0 (plainCtx 7), .stmt 0 (plainCtx 8), .ret 0,
   .stmt 1 (plainCtx 9), .stmt 1 (plainCtx 10), .stmt 1 (plainCtx 11), .ret 1]

theorem mq_send_batch_sendBetween :
    ∃ σ : MqSys, (Sys.init MqDb.empty).play MqStmt.exec MqCall.body sendBetween = some σ ∧
      (σ.db.messages.map fun m => (m.id, m.payload))
        = [(2, .str "c"), (1, .str "a"), (3, .str "b")] ∧
      ∃ part, BatchSent ⟨textStore, .sendBatch "orders" ["a", "b"] 0⟩ "orders" ["a", "b"] 0 [1, 3]
        part := by
  have h : ((Sys.init MqDb.empty : MqSys).play MqStmt.exec MqCall.body sendBetween).map
      (fun σ => (σ.db.messages.map (fun m => (m.id, m.payload)), σ.done.filter (·.1 == 1)))
      = some ([(2, .str "c"), (1, .str "a"), (3, .str "b")],
          [(1, ⟨textStore, .sendBatch "orders" ["a", "b"] 0⟩, .ok (.ids [1, 3]))]) := by rfl
  obtain ⟨σ, hσ, he⟩ := Option.map_eq_some_iff.mp h
  obtain ⟨h1, h2⟩ := Prod.mk.inj he
  obtain ⟨run, parts, -, hall⟩ := (mq_send_batch (Sys.play_steps hσ)).1 1
  rw [h2] at hall
  obtain ⟨part, -, hp, -, -⟩ := List.forall₂_cons_left_iff.mp hall
  exact ⟨σ, hσ, h1, part, hp _ _ _ rfl⟩

/-- an empty list has no element that `send` would refuse, and is refused for its delay -/
theorem mq_send_batch_negativeDelay :
    textStore.validateBatchLen ([] : List String).length = .ok () ∧
    (∀ p ∈ ([] : List String), ∃ id db',
      (textStore.send "orders" p (-1)).alone 0 (plainCtx 0) MqDb.empty = some (.ok id, db')) ∧
    ∃ e, (textStore.sendBatch "orders" [] (-1)).alone 0 (plainCtx 0) MqDb.empty
      = some (.error e, MqDb.empty) :=
  ⟨rfl, fun _ h => absurd h List.not_mem_nil, _, rfl⟩

end PgApp
