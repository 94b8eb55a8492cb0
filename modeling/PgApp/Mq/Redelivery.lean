import PgApp.Mq.Reads
import PgApp.Mq.Sends
import PgApp.Mq.Acks

/-!
# The redelivery limit

A read moves the messages that have reached their limit to the dead letter queue in one statement
and claims in a second one, which does not look at `read_count`.  The limit holds as long as no
message at its limit is visible when a claim runs (`AtLimitHidden`): the first statement makes it
so (`deadLetterDue_hides`), but a deadline that passes, or a consumer that gives its message back,
can undo it before the second.

Main results: `mq_redelivery_limit`, and `mq_redelivery_limit_race`, a run that breaks the limit.
-/

namespace PgApp
open Interleave

/-- no active message of queue `q` that has reached its limit is visible -/
def AtLimitHidden (db : MqDb) (q : Int) (now : Time) : Prop :=
  ∀ k, db.limitOf q = some k → 0 < k →
    ∀ m ∈ db.messages, m.queueId = q → m.visible now = true → m.readCount < k

instance (db : MqDb) (q : Int) (now : Time) : Decidable (AtLimitHidden db q now) :=
  match h : db.limitOf q with
  | none => isTrue fun k hk => by rw [h] at hk; cases hk
  | some k => decidable_of_iff
      (0 < k → ∀ m ∈ db.messages, m.queueId = q → m.visible now = true → m.readCount < k)
      ⟨fun hd k' hk => by rw [← Option.some.inj (h.symm.trans hk)]; exact hd, fun hd => hd k h⟩

/-- the queue a statement claims from -/
def MqStmt.claimQueue : MqStmt → Option Int
  | .claim q _ _ => some q
  | _ => none

/-- every claim of the run finds it so -/
def ClaimsHidden (e : MqEv) (_ : List MqEv) : Prop :=
  ∀ q ∈ e.stmt.claimQueue, AtLimitHidden e.pre q (eventNow e)

instance (e : MqEv) (h : List MqEv) : Decidable (ClaimsHidden e h) :=
  inferInstanceAs (Decidable (∀ q ∈ e.stmt.claimQueue, AtLimitHidden e.pre q (eventNow e)))

theorem limitOf_moveToDlq (db : MqDb) (sel : MessageRow → Bool) (now : Time) (reason : String)
    (q : Int) : (db.moveToDlq sel now reason).2.limitOf q = db.limitOf q := by
  unfold MqDb.limitOf
  rw [(moveToDlq_same db sel now reason).queues]

/-- the dead-letter statement hides every message at its limit, for its own `now()` -/
theorem deadLetterDue_hides (db : MqDb) (q : Int) (now : Time) :
    AtLimitHidden (db.deadLetterDue q now).2 q now := by
  intro k hk hpos m hm hq hv
  unfold MqDb.deadLetterDue at hk hm
  cases hl : db.limitOf q with
  | none =>
    rw [hl] at hk
    simp only at hk
    rw [hl] at hk
    cases hk
  | some limit =>
    rw [hl] at hk hm
    simp only at hk hm
    rw [limitOf_moveToDlq, hl] at hk
    obtain rfl : limit = k := Option.some.inj hk
    rw [moveToDlq_messages] at hm
    obtain ⟨-, hd⟩ := List.mem_filter.mp hm
    unfold MessageRow.due at hd
    simp only [hq, hv, hpos, beq_self_eq_true, decide_true, Bool.and_true, Bool.true_and,
      Bool.not_eq_true', decide_eq_false_iff_not] at hd
    omega

/-- a claim that finds them hidden delivers below the limit -/
theorem claim_within {db db' : MqDb} {h : List MqEv} (L : MqLedger db h) (S : Stamped db h)
    {s : Nat} {c : MqCtx} {q n t : Int} {ms : List QueueMessage}
    (hx : MqStmt.exec s c (.claim q n t) db = some (.ok ms, db'))
    (hh : AtLimitHidden db q (db.now s c.now)) {k : Int} (hk : db.limitOf q = some k) (hpos : 0 < k)
    {m : QueueMessage} (hm : m ∈ ms) : m.readCount ≤ k ∧ (deliveries h m.id : Int) < k := by
  obtain ⟨row, hrow, hq, hv, -, hid, hcount, -⟩ := claim_row L hx hm
  have h1 := hh k hk hpos row hrow hq hv
  have h2 := S.count row hrow
  rw [hid]
  omega

theorem mem_picked_of_wide {db : MqDb} {q n : Int} {now : Time} {m : MessageRow}
    (hm : m ∈ db.messages) (hq : m.queueId = q) (hv : m.visible now = true)
    (hn : (db.messages.length : Int) ≤ n) : m.id ∈ db.picked q n now [] := by
  unfold MqDb.picked
  have hlen : ((db.messages.filter fun m => m.queueId == q && m.visible now &&
      !([] : List Int).contains m.id).map (·.id)).length ≤ n.toNat := by
    rw [List.length_map]
    have h1 := List.length_filter_le (fun m : MessageRow => m.queueId == q && m.visible now &&
      !([] : List Int).contains m.id) db.messages
    omega
  rw [List.take_of_length_le (by rw [List.length_insertionSort]; exact hlen)]
  rw [List.mem_insertionSort]
  refine List.mem_map_of_mem (List.mem_filter.mpr ⟨hm, ?_⟩)
  rw [hv, hq]
  simp

/-- where a message at its limit is visible, a claim that is wide enough breaks the limit -/
theorem claim_beyond {db db' : MqDb} {s : Nat} {c : MqCtx} {q n t k : Int} {ms : List QueueMessage}
    (hx : MqStmt.exec s c (.claim q n t) db = some (.ok ms, db')) (hc : c.locked = [])
    (hn : (db.messages.length : Int) ≤ n) {row : MessageRow} (hrow : row ∈ db.messages)
    (hq : row.queueId = q) (hv : row.visible (db.now s c.now) = true) (hk : k ≤ row.readCount) :
    ∃ m ∈ ms, k < m.readCount := by
  obtain ⟨rfl, -⟩ := claim_ok (Option.some.inj hx)
  have hp : (db.picked q n (db.now s c.now) c.locked).contains row.id = true := by
    rw [hc, List.contains_iff_mem]
    exact mem_picked_of_wide hrow hq hv hn
  refine ⟨_, List.mem_map_of_mem (List.mem_filter.mpr ⟨hrow, hp⟩), ?_⟩
  show k < row.readCount + 1
  omega

/-- **While no message at its limit is visible to a claim, no reader gets one beyond its limit.**
The condition is what the first statement of a read establishes, and it is needed. -/
theorem mq_redelivery_limit (σ : MqSys) (hr : MqReach σ) (hh : Always ClaimsHidden σ.hist) :
    (∀ s call r, (s, call, r) ∈ σ.done → ∀ m ∈ returnedMessages r,
      ∃ h₁ h₂ s' c q n t ms db,
        σ.hist = h₁ ++ ⟨s', call, c, .claim q n t, .ok ms, db⟩ :: h₂ ∧ m ∈ ms ∧
        ∀ k, db.limitOf q = some k → 0 < k → m.readCount ≤ k ∧ (deliveries h₂ m.id : Int) < k) ∧
    (∀ h₁ h₂ s c op q n t ms db, σ.hist = h₁ ++ ⟨s, op, c, .claim q n t, .ok ms, db⟩ :: h₂ →
      ∀ m ∈ ms, ∀ k, db.limitOf q = some k → 0 < k →
        m.readCount ≤ k ∧ (deliveries h₂ m.id : Int) < k) ∧
    (∀ q now, AtLimitHidden (σ.db.deadLetterDue q now).2 q now) ∧
    (∀ s c q n t ms db' k, ¬ AtLimitHidden σ.db q (σ.db.now s c.now) → σ.db.limitOf q = some k →
      c.locked = [] → (σ.db.messages.length : Int) ≤ n →
      MqStmt.exec s c (.claim q n t) σ.db = some (.ok ms, db') → ∃ m ∈ ms, k < m.readCount) := by
  have hclaim : ∀ h₁ h₂ s c op q n t ms db,
      σ.hist = h₁ ++ ⟨s, op, c, .claim q n t, .ok ms, db⟩ :: h₂ →
      ∀ m ∈ ms, ∀ k, db.limitOf q = some k → 0 < k →
        m.readCount ≤ k ∧ (deliveries h₂ m.id : Int) < k := by
    intro h₁ h₂ s c op q n t ms db he m hm k hk hpos
    have hall := hr.always_of (fun e h => MqLedger e.pre h ∧ Stamped e.pre h ∧
        ∃ db', e.stmt.exec e.sess e.ctx e.pre = some (e.res, db'))
      fun τ s op c st k r d' hτ _ hx => ⟨MqLedger.of_reach hτ, Stamped.of_reach hτ, d', hx⟩
    rw [he] at hall hh
    obtain ⟨L, S, db', hx⟩ := hall.head
    exact claim_within L S hx (hh.head q rfl) hk hpos hm
  refine ⟨?_, hclaim, fun q now => deadLetterDue_hides σ.db q now, ?_⟩
  · intro s call r hd m hm
    obtain ⟨h₁, h₂, s', c, q, n, t, ms, db, he, hms⟩ := read_answer hr hd hm
    exact ⟨h₁, h₂, s', c, q, n, t, ms, db, he, hms, hclaim h₁ h₂ s' c call q n t ms db he m hms⟩
  · intro s c q n t ms db' k hno hk hc hn hx
    unfold AtLimitHidden at hno
    push Not at hno
    obtain ⟨k', hk', -, row, hrow, hq, hv, hge⟩ := hno
    obtain rfl : k = k' := Option.some.inj (hk.symm.trans hk')
    exact claim_beyond hx hc hn hrow hq hv hge

/-- a store whose queues allow one delivery -/
def onceStore : MqStore := ⟨false, { maxRedeliveryCount := 1 }, fun s => .ok (.str s)⟩

/-- session 1 holds the only message while session 2 looks for messages at their limit, gives it
back with a timeout of 0 seconds, and session 2 claims it -/
def giveBackBetween : List (Act MqCall MqCtx) :=
  [.call 0 ⟨onceStore, .createQueue "orders" .durable⟩, .stmt 0 (plainCtx 0), .ret 0,
   .call 0 ⟨onceStore, .send "orders" "x" 0⟩, .stmt 0 (plainCtx 1), .stmt 0 (plainCtx 2),
   .stmt 0 (plainCtx 3), .stmt 0 (plainCtx 4), .stmt 0 (plainCtx 5), .ret 0,
   .call 1 ⟨onceStore, .read "orders" 1 30⟩, .stmt 1 (plainCtx 6), .stmt 1 (plainCtx 7),
   .stmt 1 (plainCtx 8), .ret 1,
   .call 2 ⟨onceStore, .read "orders" 1 30⟩, .stmt 2 (plainCtx 9), .stmt 2 (plainCtx 10),
   .call 1 ⟨onceStore, .setVisibilityTimeout "orders" 1 "token-1-8" 0⟩, .stmt 1 (plainCtx 11),
   .stmt 1 (plainCtx 12), .ret 1,
   .stmt 2 (plainCtx 13), .ret 2]

/-- the answer of session 2 -/
def secondDelivery : QueueMessage := ⟨1, 2, 2, some 30000013, "token-1-13", .str "x"⟩

/-- a run in which a message with limit 1 is delivered a second time -/
theorem mq_redelivery_limit_race :
    ∃ σ : MqSys, MqReach σ ∧ σ.db.limitOf 1 = some 1 ∧
      (2, ⟨onceStore, .read "orders" 1 30⟩, .ok (.messages [secondDelivery])) ∈ σ.done ∧
      secondDelivery.id = 1 ∧ secondDelivery.readCount = 2 := by
  have h : ((Sys.init MqDb.empty : MqSys).play MqStmt.exec MqCall.body giveBackBetween).map
      (fun σ => (σ.db.limitOf 1, σ.done.head?))
      = some (some 1, some (2, ⟨onceStore, .read "orders" 1 30⟩,
          .ok (.messages [secondDelivery]))) := by rfl
  obtain ⟨σ, hσ, he⟩ := Option.map_eq_some_iff.mp h
  obtain ⟨h1, h2⟩ := Prod.mk.inj he
  exact ⟨σ, Sys.play_steps hσ, h1, List.mem_of_head? h2, rfl, rfl⟩

/-- one message with limit 1, delivered once -/
def deliveredOnce : List (Act MqCall MqCtx) := giveBackBetween.take 15

theorem mq_redelivery_limit_deliveredOnce :
    ∃ σ : MqSys, (Sys.init MqDb.empty).play MqStmt.exec MqCall.body deliveredOnce = some σ ∧
      Always ClaimsHidden σ.hist ∧ AtLimitHidden (σ.db.deadLetterDue 1 9).2 1 9 := by
  have h : ((Sys.init MqDb.empty : MqSys).play MqStmt.exec MqCall.body deliveredOnce).map
      (fun σ => decide (Always ClaimsHidden σ.hist)) = some true := by rfl
  obtain ⟨σ, hσ, he⟩ := Option.map_eq_some_iff.mp h
  have hh : Always ClaimsHidden σ.hist := of_decide_eq_true he
  exact ⟨σ, hσ, hh, (mq_redelivery_limit σ (Sys.play_steps hσ) hh).2.2.1 1 9⟩

end PgApp
