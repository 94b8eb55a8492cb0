import PgApp.Interleave.Alone
import PgApp.Mq.ReadAlone

/-!
# The end of the `read_count` range

`read_count` is an INTEGER.  A queue without a redelivery limit keeps its messages for ever, every
delivery adds one, and the claiming UPDATE fails as a whole when one of its rows cannot be counted
any further.  With

    db.ahead q now locked m    the messages of `q` that a read would take before `m`

* `mem_picked_iff`         `m` is picked if less than `quantity` messages are ahead of it;
* `claim_fails_iff`        when the claim fails;
* `alone_read_unlimited`   a read of a queue without a limit is its claim;
* `read_wedged`            a message at the end of the range in its way;
* `reach_deliveries`       a message can be delivered to the end of the range.

Main result: `mq_unlimited_redelivery`.
-/

namespace PgApp
open Interleave MqProg

/-! ## the picked rows, one by one -/

/-- the rows the `picked` CTE chooses from -/
def MessageRow.pickable (m : MessageRow) (q : Int) (now : Time) (locked : List Int) : Bool :=
  m.queueId == q && m.visible now && !locked.contains m.id

def MqDb.ahead (db : MqDb) (q : Int) (now : Time) (locked : List Int) (m : MessageRow) : Nat :=
  db.messages.countP fun m' => decide (m'.id < m.id) && m'.pickable q now locked

/-- the first `k` of an increasing list: those with less than `k` elements below them -/
theorem mem_take_iff_countP {α : Type} [LinearOrder α] {l : List α} (hl : l.Pairwise (· < ·))
    (k : Nat) (a : α) : a ∈ l.take k ↔ a ∈ l ∧ l.countP (fun b => decide (b < a)) < k := by
  induction l generalizing k with
  | nil => simp
  | cons b l ih =>
    obtain ⟨hb, hl⟩ := List.pairwise_cons.mp hl
    cases k with
    | zero => simp
    | succ k =>
      rw [List.take_succ_cons, List.mem_cons, List.mem_cons, List.countP_cons, ih hl]
      by_cases hab : a = b
      · subst hab
        have hzero : l.countP (fun b => decide (b < a)) = 0 := by
          refine List.countP_eq_zero.mpr fun b hbl => ?_
          rw [decide_eq_true_iff]
          exact lt_asymm (hb b hbl)
        rw [hzero, if_neg (by simp)]
        simp
      · constructor
        · intro h
          obtain ⟨hal, hlt⟩ := h.resolve_left hab
          refine ⟨.inr hal, ?_⟩
          split <;> omega
        · intro h
          have hal := h.1.resolve_left hab
          have hba : decide (b < a) = true := decide_eq_true (hb a hal)
          rw [if_pos hba] at h
          exact .inr ⟨hal, by omega⟩

theorem mem_picked_iff {db : MqDb} (hn : db.messageIds.Nodup) {m : MessageRow}
    (hm : m ∈ db.messages) (q n : Int) (now : Time) (locked : List Int) :
    m.id ∈ db.picked q n now locked ↔
      m.pickable q now locked = true ∧ db.ahead q now locked m < n.toNat := by
  obtain ⟨ids, hids⟩ : ∃ ids, ids =
      (db.messages.filter fun m => m.pickable q now locked).map (·.id) := ⟨_, rfl⟩
  have hnodup : ids.Nodup := hids ▸ hn.sublist (List.filter_sublist.map _)
  have hperm := List.perm_insertionSort (· ≤ ·) ids
  have hsorted : (ids.insertionSort (· ≤ ·)).Pairwise (· < ·) := by
    have hle : (ids.insertionSort (· ≤ ·)).Pairwise (· ≤ ·) :=
      List.pairwise_insertionSort (· ≤ ·) ids
    refine (hle.and (hperm.nodup_iff.mpr hnodup)).imp ?_
    intro a b h
    exact lt_of_le_of_ne h.1 h.2
  have hpicked : db.picked q n now locked = (ids.insertionSort (· ≤ ·)).take n.toNat := by
    rw [hids]
    rfl
  have hahead : (ids.insertionSort (· ≤ ·)).countP (fun i => decide (i < m.id))
      = db.ahead q now locked m := by
    rw [hperm.countP_eq, hids, List.countP_map, List.countP_filter]
    rfl
  have hmem : m.id ∈ ids.insertionSort (· ≤ ·) ↔ m.pickable q now locked = true := by
    rw [hperm.mem_iff, hids]
    constructor
    · intro h
      obtain ⟨m', hm', he⟩ := List.mem_map.mp h
      obtain ⟨hm', hp⟩ := List.mem_filter.mp hm'
      rw [← List.inj_on_of_nodup_map hn hm' hm he]
      exact hp
    · intro h
      exact List.mem_map_of_mem (List.mem_filter.mpr ⟨hm, h⟩)
  rw [hpicked, mem_take_iff_countP hsorted, hmem, hahead]

/-! ## when a claim fails -/

theorem claim_fails_iff {db : MqDb} (hn : db.messageIds.Nodup) (q n t : Int) (now : Time)
    (c : MqCtx) :
    (db.claim q n t now c).1 = .error .integerOutOfRange ↔
      ∃ m ∈ db.messages, (m.pickable q now c.locked = true ∧
        db.ahead q now c.locked m < n.toNat) ∧ i32Max ≤ m.readCount := by
  have hany : (db.messages.any fun m =>
      (db.picked q n now c.locked).contains m.id && i32Max < m.readCount + 1) = true ↔
      ∃ m ∈ db.messages, (m.pickable q now c.locked = true ∧
        db.ahead q now c.locked m < n.toNat) ∧ i32Max ≤ m.readCount := by
    rw [List.any_eq_true]
    refine exists_congr fun m => and_congr_right fun hm => ?_
    rw [Bool.and_eq_true, List.contains_iff_mem, mem_picked_iff hn hm, decide_eq_true_iff,
      Int.lt_add_one_iff]
  rw [← hany]
  unfold MqDb.claim
  simp only
  split
  · rename_i h
    exact ⟨fun _ => h, fun _ => rfl⟩
  · rename_i h
    constructor
    · intro he
      cases he
    · intro he
      exact absurd he h

/-- it then leaves everything as it was -/
theorem claim_wedged {db : MqDb} (hn : db.messageIds.Nodup) {q n : Int} {now : Time} {c : MqCtx}
    {m : MessageRow} (hm : m ∈ db.messages) (hpick : m.pickable q now c.locked = true)
    (hahead : db.ahead q now c.locked m < n.toNat) (hmax : i32Max ≤ m.readCount) (t : Int) :
    db.claim q n t now c = (.error .integerOutOfRange, db) := by
  have hfails := (claim_fails_iff hn q n t now c).mpr ⟨m, hm, ⟨hpick, hahead⟩, hmax⟩
  refine Prod.ext hfails ?_
  unfold MqDb.claim at hfails ⊢
  simp only at hfails ⊢
  split
  · rfl
  · rename_i hfit
    rw [if_neg hfit] at hfails
    cases hfails

/-! ## queues without a limit -/

def QueueRow.unlimited (x : QueueRow) : Prop :=
  x.maxRedeliveryCount = none ∨ x.maxRedeliveryCount = some 0

instance (x : QueueRow) : Decidable x.unlimited :=
  inferInstanceAs (Decidable (x.maxRedeliveryCount = none ∨ x.maxRedeliveryCount = some 0))

/-- there is a queue `q`, and its redelivery limit is NULL or 0 -/
def Unlimited (db : MqDb) (q : Int) : Prop := ∃ x ∈ db.queues, x.id = q ∧ x.unlimited

instance (db : MqDb) (q : Int) : Decidable (Unlimited db q) :=
  inferInstanceAs (Decidable (∃ x ∈ db.queues, x.id = q ∧ x.unlimited))

/-- the queue of a claim that failed on `read_count + 1` -/
def outOfRange (e : MqEv) : Option Int :=
  match e with
  | ⟨_, _, _, .claim q _ _, .error .integerOutOfRange, _⟩ => some q
  | _ => none

/-- the claim does not fail on a queue without a limit -/
def ClaimFits (e : MqEv) (_ : List MqEv) : Prop := ∀ q ∈ outOfRange e, ¬ Unlimited e.pre q

instance (e : MqEv) (h : List MqEv) : Decidable (ClaimFits e h) :=
  inferInstanceAs (Decidable (∀ q ∈ outOfRange e, ¬ Unlimited e.pre q))

/-- queue and quantity of a claim -/
def MqStmt.claimArgs : MqStmt → Option (Int × Int)
  | .claim q n _ => some (q, n)
  | _ => none

/-- no message that a claim is about to take from a queue without a limit has been delivered
2147483647 times since its send or its last reprocess -/
def BelowCeiling (e : MqEv) (h : List MqEv) : Prop :=
  ∀ p ∈ e.stmt.claimArgs, Unlimited e.pre p.1 →
    ∀ m ∈ e.pre.messages, m.pickable p.1 (eventNow e) e.ctx.locked = true →
      e.pre.ahead p.1 (eventNow e) e.ctx.locked m < p.2.toNat → (deliveries h m.id : Int) < i32Max

instance (e : MqEv) (h : List MqEv) : Decidable (BelowCeiling e h) :=
  inferInstanceAs (Decidable (∀ p ∈ e.stmt.claimArgs, Unlimited e.pre p.1 →
    ∀ m ∈ e.pre.messages, m.pickable p.1 (eventNow e) e.ctx.locked = true →
      e.pre.ahead p.1 (eventNow e) e.ctx.locked m < p.2.toNat → (deliveries h m.id : Int) < i32Max))

theorem claimFits_claim {db : MqDb} {h : List MqEv} {s : Nat} {op : MqCall} {c : MqCtx}
    {q n t : Int} (r : Except SqlError (List QueueMessage)) :
    ClaimFits ⟨s, op, c, .claim q n t, r, db⟩ h ↔
      (r = .error .integerOutOfRange → ¬ Unlimited db q) := by
  constructor
  · intro hfits he
    subst he
    exact hfits q rfl
  · intro hfits q' hq'
    cases r with
    | ok ms => cases hq'
    | error e =>
      cases e with
      | integerOutOfRange =>
        cases hq'
        exact hfits rfl
      | _ => cases hq'

theorem claimFits_iff {db db' : MqDb} {h : List MqEv} (L : MqLedger db h) (S : Stamped db h)
    {s : Nat} {op : MqCall} {c : MqCtx} {st : MqStmt} {r : st.Res}
    (hx : st.exec s c db = some (r, db')) :
    ClaimFits ⟨s, op, c, st, r, db⟩ h ↔ BelowCeiling ⟨s, op, c, st, r, db⟩ h := by
  cases st with
  | claim q n t =>
    have hr : r = (db.claim q n t (db.now s c.now) c).1 :=
      (congrArg Prod.fst (Option.some.inj hx)).symm
    have hfails := claim_fails_iff L.messageIds_nodup q n t (db.now s c.now) c
    rw [claimFits_claim, hr, hfails]
    constructor
    · intro hfits p hp hu m hm hpick hahead
      cases hp
      by_contra hge
      refine hfits ⟨m, hm, ⟨hpick, hahead⟩, ?_⟩ hu
      rw [S.count m hm]
      omega
    · intro hbelow hex hu
      obtain ⟨m, hm, ⟨hpick, hahead⟩, hmax⟩ := hex
      have hlt := hbelow (q, n) rfl hu m hm hpick hahead
      rw [S.count m hm] at hmax
      omega
  | _ =>
    constructor
    · intro _ p hp
      cases hp
    · intro _ q hq
      cases hq

/-! ## reads -/

theorem quantity_pos {quantity max : Int} (h : validateQuantity quantity max = .ok quantity) :
    0 < quantity := by
  unfold validateQuantity at h
  split at h
  · cases h
  · omega

section
variable {db : MqDb} (Q : QueuesApart db) {x : QueueRow} (hx : x ∈ db.queues) (hu : x.unlimited)
include Q hx hu

theorem deadLetterDue_unlimited (now : Time) : db.deadLetterDue x.id now = (0, db) := by
  have hlimit : x.maxRedeliveryCount.getD 0 = 0 := by
    cases hu with
    | inl h => rw [h, Option.getD_none]
    | inr h => rw [h, Option.getD_some]
  have hdue : (fun m : MessageRow => m.due x.id 0 now) = fun _ => false := by
    funext m
    unfold MessageRow.due
    simp
  unfold MqDb.deadLetterDue
  rw [Q.limitOf hx, hlimit]
  show db.moveToDlq (fun m => m.due x.id 0 now) now _ = (0, db)
  rw [hdue]
  simp [MqDb.moveToDlq]

variable {s : Nat} (htx : db.txs.get s = none) {c : MqCtx} {store : MqStore}
  {quantity timeout : Int} (hv : validateQueueName x.name = .ok ())
  (ha : (⟨store, .read x.name quantity timeout⟩ : MqCall).argsValid)
  {r : Except SqlError (List QueueMessage)} {db' : MqDb}
  (hclaim : db.claim x.id quantity timeout c.now c = (r, db'))
include htx hclaim

theorem exec_unlimited :
    MqStmt.exec s c (.selectQueueId x.name) db = some (some x.id, db) ∧
      MqStmt.exec s c (.deadLetterDue x.id) db = some ((0 : Nat), db) ∧
      MqStmt.exec s c (.claim x.id quantity timeout) db = some (r, db') := by
  refine ⟨?_, ?_, ?_⟩
  · show some (db.selectQueueId x.name, db) = _
    rw [Q.selectQueueId hx]
  · show some (db.deadLetterDue x.id (db.now s c.now)) = _
    rw [deadLetterDue_unlimited Q hx hu]
  · show some (db.claim x.id quantity timeout (db.now s c.now) c) = _
    rw [now_eq_clock htx, hclaim]

include hv ha

theorem alone_read_unlimited :
    (store.read x.name quantity timeout).alone s c db
      = some (r.mapError PgAppError.ofSqlx, db') := by
  obtain ⟨-, hdead, hcl⟩ := exec_unlimited Q hx hu htx hclaim
  unfold MqStore.read
  rw [alone_check ha.1, alone_check (seconds_ok _ ha.2.1), alone_check ha.2.2,
    alone_queueId_bind hv (Q.selectQueueId hx), alone_query hdead, alone_query hcl]
  rfl

theorem log_read_unlimited (op : MqCall) (h : List MqEv) :
    ∃ h', (MqCall.body ⟨store, .read x.name quantity timeout⟩).log MqStmt.exec s op c db h
      = ⟨s, op, c, .claim x.id quantity timeout, r, db⟩ :: h' := by
  obtain ⟨hsel, hdead, hcl⟩ := exec_unlimited Q hx hu htx hclaim
  refine ⟨⟨s, op, c, .deadLetterDue x.id, (0 : Nat), db⟩ ::
    ⟨s, op, c, .selectQueueId x.name, some x.id, db⟩ :: h, ?_⟩
  show (store.read x.name quantity timeout >>= fun ms => pure (MqReturn.messages ms)).log
    MqStmt.exec s op c db h = _
  unfold MqStore.read queueId
  rw [ha.1, seconds_ok _ ha.2.1, ha.2.2, hv]
  show (Prog.exec (MqStmt.selectQueueId x.name) _).log MqStmt.exec s op c db h = _
  rw [Prog.log_exec hsel]
  show (Prog.exec (MqStmt.deadLetterDue x.id) _).log MqStmt.exec s op c db _ = _
  rw [Prog.log_exec hdead]
  show (Prog.exec (MqStmt.claim x.id quantity timeout) _).log MqStmt.exec s op c db _ = _
  rw [Prog.log_exec hcl]
  cases r with
  | ok ms => rfl
  | error e => rfl

end

/-- where a visible message has reached the end of the range, every read that would take it fails,
and leaves everything as it was -/
theorem read_wedged {db : MqDb} (Q : QueuesApart db) (hn : db.messageIds.Nodup) {x : QueueRow}
    (hx : x ∈ db.queues) (hu : x.unlimited) {s : Nat} (htx : db.txs.get s = none) {c : MqCtx}
    {m : MessageRow} (hm : m ∈ db.messages) (hpick : m.pickable x.id c.now c.locked = true)
    (hmax : i32Max ≤ m.readCount) {quantity : Int}
    (hahead : db.ahead x.id c.now c.locked m < quantity.toNat) {store : MqStore} {timeout : Int}
    (hv : validateQueueName x.name = .ok ())
    (ha : (⟨store, .read x.name quantity timeout⟩ : MqCall).argsValid) :
    (store.read x.name quantity timeout).alone s c db
      = some (.error (.ofSqlx .integerOutOfRange), db) := by
  rw [alone_read_unlimited Q hx hu htx hv ha (claim_wedged hn hm hpick hahead hmax timeout)]
  rfl

/-! ## delivered again and again -/

/-- the table has one message, and its queue has no limit -/
structure Lone (db : MqDb) (x : QueueRow) (m : MessageRow) : Prop where
  queue : x ∈ db.queues
  unlimited : x.unlimited
  messages : db.messages = [m]
  mine : m.queueId = x.id

section
variable {db : MqDb} {x : QueueRow} {m : MessageRow} (l : Lone db x m)
include l

theorem Lone.nodup : db.messageIds.Nodup := by
  unfold MqDb.messageIds
  rw [l.messages]
  exact List.nodup_singleton _

theorem Lone.mem : m ∈ db.messages := by
  rw [l.messages]
  exact List.mem_singleton.mpr rfl

theorem Lone.ahead (now : Time) (locked : List Int) : db.ahead x.id now locked m = 0 := by
  unfold MqDb.ahead
  rw [l.messages]
  simp

variable {now : Time} (hvis : m.visible now = true) {c : MqCtx} (hc : c.locked = [])
include hvis hc

theorem Lone.pickable : m.pickable x.id now c.locked = true := by
  unfold MessageRow.pickable
  rw [l.mine, hvis, hc]
  simp

theorem Lone.claim (hlt : m.readCount < i32Max) :
    db.claim x.id 1 0 now c = (.ok [rowToMessage (m.claim now 0 (c.token m.id))],
      { db with messages := [m.claim now 0 (c.token m.id)] }) := by
  have hpicked : (db.picked x.id 1 now c.locked).contains m.id = true := by
    rw [List.contains_iff_mem, mem_picked_iff l.nodup l.mem]
    refine ⟨l.pickable hvis hc, ?_⟩
    rw [l.ahead]
    decide
  have hfit : ¬ i32Max < m.readCount + 1 := by omega
  unfold MqDb.claim
  simp only [l.messages, List.any_cons, List.any_nil, List.filter_cons, List.filter_nil,
    List.map_cons, List.map_nil, hpicked, hfit, Bool.true_and, Bool.or_false, decide_false, if_true,
    Bool.false_eq_true, if_false]

end

/-- a queue without a limit, and one message -/
def onceSent : List (Act MqCall MqCtx) := (givenOnce 0).take 10

/-- one delivery more -/
theorem deliver_once {σ : MqSys} (hr : MqReach σ) (h0 : σ.prog 0 = none) {x : QueueRow}
    (hv : validateQueueName x.name = .ok ()) {m : MessageRow} (l : Lone σ.db x m) {now : Time}
    (hvis : m.visible now = true) (hlt : m.readCount < i32Max) :
    ∃ τ : MqSys, MqReach τ ∧ τ.prog = σ.prog ∧
      Lone τ.db x (m.claim now 0 ((plainCtx now).token m.id)) := by
  obtain ⟨m', hm'⟩ : ∃ m' : MessageRow, m' = m.claim now 0 ((plainCtx now).token m.id) := ⟨_, rfl⟩
  have hclaim : σ.db.claim x.id 1 0 (plainCtx now).now (plainCtx now)
      = (.ok [rowToMessage m'], { σ.db with messages := [m'] }) := by
    rw [hm']
    exact l.claim hvis rfl hlt
  have hread : (textStore.read x.name 1 0).alone 0 (plainCtx now) σ.db
      = some (.ok [rowToMessage m'], { σ.db with messages := [m'] }) :=
    alone_read_unlimited (QueuesApart.of_reach hr) l.queue l.unlimited (idle_no_tx hr h0) hv
      ⟨rfl, by decide, rfl⟩ hclaim
  have hrun : (MqCall.body ⟨textStore, .read x.name 1 0⟩).run (MqStmt.exec 0 (plainCtx now)) σ.db
      = some (.ok (.messages [rowToMessage m']), { σ.db with messages := [m'] }) :=
    Prog.run_bind_ok _ hread
  have hmine : m'.queueId = x.id := by
    rw [hm']
    exact l.mine
  rw [← hm']
  exact ⟨_, hr.trans (Sys.alone_steps h0 hrun), rfl, l.queue, l.unlimited, rfl, hmine⟩

/-- **A message can be delivered to the end of the range.** -/
theorem reach_deliveries (k : Nat) (hk : (k : Int) ≤ i32Max) :
    ∃ (σ : MqSys) (x : QueueRow) (m : MessageRow), MqReach σ ∧ σ.prog 0 = none ∧ Lone σ.db x m ∧
      x.name = "orders" ∧ m.readCount = k ∧ ∀ now : Int, 6 + k ≤ now → m.visible now = true := by
  induction k with
  | zero =>
    have h : ((Sys.init MqDb.empty : MqSys).play MqStmt.exec MqCall.body onceSent).map
        (fun σ => (σ.db.queues, σ.db.messages, (σ.prog 0).isNone))
        = some ([⟨1, "orders", true, none⟩], [newMessage 1 1 (.str "x") 2 0], true) := by rfl
    obtain ⟨σ, hσ, he⟩ := Option.map_eq_some_iff.mp h
    simp only [Prod.mk.injEq] at he
    obtain ⟨hqueues, hmessages, hidle⟩ := he
    refine ⟨σ, ⟨1, "orders", true, none⟩, newMessage 1 1 (.str "x") 2 0, Sys.play_steps hσ,
      Option.isNone_iff_eq_none.mp hidle, ⟨?_, .inl rfl, hmessages, rfl⟩, rfl, rfl, ?_⟩
    · rw [hqueues]
      exact List.mem_singleton.mpr rfl
    · intro now hle
      have hsent : (2 : Int) + 0 ≤ now := by omega
      show (decide ((2 : Int) + 0 ≤ now) && true) = true
      rw [decide_eq_true hsent, Bool.and_true]
  | succ k ih =>
    obtain ⟨σ, x, m, hr, h0, l, hname, hcount, hvis⟩ := ih (by omega)
    have hv : validateQueueName x.name = .ok () := by
      rw [hname]
      rfl
    have hnow := hvis (6 + k) (le_refl _)
    obtain ⟨τ, hτ, hprog, hl⟩ := deliver_once hr h0 hv l hnow (by omega)
    refine ⟨τ, x, _, hτ, ?_, hl, hname, ?_, ?_⟩
    · rw [hprog, h0]
    · show m.readCount + 1 = _
      omega
    · intro now hle
      have hold := hvis now (by omega)
      have hpast : (6 : Int) + k + 0 ≤ now := by omega
      unfold MessageRow.visible at hold
      show (decide (m.availableAt ≤ now) && decide ((6 : Int) + k + 0 ≤ now)) = true
      rw [(Bool.and_eq_true_iff.mp hold).1, decide_eq_true hpast, Bool.and_true]

/-- **Redelivery without a limit.**  In every run, no claim of a queue with limit NULL or 0 fails if
and only if no claim meets a message that has been delivered 2147483647 times. -/
theorem mq_unlimited_redelivery {σ : MqSys} (hr : MqReach σ) :
    Always ClaimFits σ.hist ↔ Always BelowCeiling σ.hist := by
  have hiff := hr.always_of (fun e h => ClaimFits e h ↔ BelowCeiling e h)
    fun τ s op c st k r d' hτ _ hx => claimFits_iff (MqLedger.of_reach hτ) (Stamped.of_reach hτ) hx
  constructor
  · intro h
    exact (hiff.and h).mono fun e past he => he.1.mp he.2
  · intro h
    exact (hiff.and h).mono fun e past he => he.1.mpr he.2

/-- one message of a queue without a limit, delivered once -/
theorem mq_unlimited_redelivery_givenOnce :
    ∃ σ : MqSys, (Sys.init MqDb.empty).play MqStmt.exec MqCall.body (givenOnce 0) = some σ ∧
      Unlimited σ.db 1 ∧ Always ClaimFits σ.hist := by
  have h : ((Sys.init MqDb.empty : MqSys).play MqStmt.exec MqCall.body (givenOnce 0)).map
      (fun σ => decide (Unlimited σ.db 1 ∧ Always BelowCeiling σ.hist)) = some true := by rfl
  obtain ⟨σ, hσ, he⟩ := Option.map_eq_some_iff.mp h
  obtain ⟨hu, hbelow⟩ := of_decide_eq_true he
  exact ⟨σ, hσ, hu, (mq_unlimited_redelivery (Sys.play_steps hσ)).mpr hbelow⟩

/-- after 2147483647 deliveries the next claim fails, and every later read of the queue with it -/
theorem mq_unlimited_redelivery_wedged :
    ∃ σ : MqSys, MqReach σ ∧ ¬ Always ClaimFits σ.hist ∧
      ∀ s (c : MqCtx) (store : MqStore) (quantity timeout : Int), σ.prog s = none →
        6 + i32Max ≤ c.now → c.locked = [] →
        (⟨store, .read "orders" quantity timeout⟩ : MqCall).argsValid →
        (store.read "orders" quantity timeout).alone s c σ.db
          = some (.error (.ofSqlx .integerOutOfRange), σ.db) := by
  have hk : ((i32Max.toNat : Nat) : Int) = i32Max := Int.toNat_of_nonneg (by decide)
  obtain ⟨σ, x, m, hr, h0, l, hname, hcount, hvis⟩ := reach_deliveries i32Max.toNat hk.le
  rw [hk] at hcount hvis
  have Q := QueuesApart.of_reach hr
  have hv : validateQueueName x.name = .ok () := by
    rw [hname]
    rfl
  have hwedged : ∀ s (c : MqCtx) (store : MqStore) (quantity timeout : Int), σ.prog s = none →
      6 + i32Max ≤ c.now → c.locked = [] →
      (⟨store, .read "orders" quantity timeout⟩ : MqCall).argsValid →
      (store.read "orders" quantity timeout).alone s c σ.db
        = some (.error (.ofSqlx .integerOutOfRange), σ.db) := by
    intro s c store quantity timeout hs hlate hc ha
    have hpos : 0 < quantity := quantity_pos ha.1
    rw [← hname] at ha ⊢
    refine read_wedged Q l.nodup l.queue l.unlimited (idle_no_tx hr hs) l.mem
      (l.pickable (hvis c.now hlate) hc) hcount.ge ?_ hv ha
    rw [l.ahead]
    omega
  obtain ⟨c, hnow, hc⟩ : ∃ c : MqCtx, c.now = 6 + i32Max ∧ c.locked = [] :=
    ⟨plainCtx (6 + i32Max), rfl, rfl⟩
  have ha : (⟨textStore, .read "orders" 1 0⟩ : MqCall).argsValid := ⟨rfl, by decide, rfl⟩
  have hread := hwedged 0 c textStore 1 0 h0 hnow.ge hc ha
  have hrun : (MqCall.body ⟨textStore, .read "orders" 1 0⟩).run (MqStmt.exec 0 c) σ.db
      = some (.error (.ofSqlx .integerOutOfRange), σ.db) := Prog.run_bind_error _ hread
  have hclaim : σ.db.claim x.id 1 0 c.now c = (.error .integerOutOfRange, σ.db) := by
    refine claim_wedged l.nodup l.mem (l.pickable (hvis c.now hnow.ge) hc) ?_ hcount.ge 0
    rw [l.ahead]
    decide
  rw [← hname] at ha
  obtain ⟨past, hlog⟩ := log_read_unlimited Q l.queue l.unlimited (idle_no_tx hr h0) hv ha hclaim
    ⟨textStore, .read "orders" 1 0⟩ σ.hist
  rw [hname] at hlog
  refine ⟨_, hr.trans (Sys.alone_steps h0 hrun), ?_, hwedged⟩
  rw [hlog]
  intro hfits
  exact (claimFits_claim _).mp hfits.1 rfl ⟨x, l.queue, rfl, l.unlimited⟩

end PgApp
