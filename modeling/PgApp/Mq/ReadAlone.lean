import PgApp.Mq.DeadLetters
import PgApp.Mq.Unknown

/-!
# A read from end to end

A read runs two statements: the messages that were delivered as often as their queue allows go to
`mq_dlq`, then the visible ones with the lowest ids are claimed.  `ReadDoes` says what both do to
the tables together, with

    V = db.visibleIn q now          the messages a read at `now` can see
    D = those with `x.exhausted`    delivered `max_redelivery_count` times, when this is positive

* `CountsFit`             `read_count` stays in the range of its column;
* `foldl_insertDlq_rows`  the rows the dead-letter statement writes;
* `lowestIds_picked`      the rows the `picked` CTE selects.

Main result: `mq_read_alone`.
-/

namespace PgApp
open Interleave MqProg

/-! ## the range of `read_count` -/

def CountsFit (db : MqDb) : Prop := ∀ m ∈ db.messages, m.readCount ≤ i32Max

theorem CountsFit.claim {db db' : MqDb} (F : CountsFit db) {q n t : Int} {now : Time} {c : MqCtx}
    {r : Except SqlError (List QueueMessage)} (hx : db.claim q n t now c = (r, db')) :
    CountsFit db' := by
  unfold MqDb.claim at hx
  simp only at hx
  split at hx
  · obtain rfl := congrArg Prod.snd hx
    exact F
  · rename_i hfit
    obtain rfl := congrArg Prod.snd hx
    intro m' hm'
    obtain ⟨m, hm, rfl⟩ := List.mem_map.mp hm'
    split
    · rename_i hc
      show m.readCount + 1 ≤ i32Max
      by_contra hlt
      refine hfit (List.any_eq_true.mpr ⟨m, hm, ?_⟩)
      rw [hc, Bool.true_and, decide_eq_true_iff]
      omega
    · exact F m hm

theorem CountsFit.step {db db' : MqDb} {h : List MqEv} (F : CountsFit db) (L : MqLedger db h)
    (S : Stamped db h) (op : MqCall) {s : Nat} {c : MqCtx} {st : MqStmt} {r : st.Res}
    (hx : st.exec s c db = some (r, db')) : CountsFit db' := by
  have h0 : (0 : Int) ≤ i32Max := by decide
  intro m' hm'
  have hrow : RowChange ⟨s, op, c, st, r, db⟩ m' := rowChange L hx m' hm'
  cases hrow with
  | kept m hm ht => exact F m' hm
  | sent m t hg hm ht => exact le_of_eq_of_le (S.fresh s t hg m' hm).2.2 h0
  | delivered m q n timeout token hm hst hv ht =>
    obtain rfl : st = .claim q n timeout := hst
    exact F.claim (Option.some.inj hx) _ hm'
  | extended m deadline hm hv ht => exact F m hm
  | requeued d hd ht => exact h0

theorem CountsFit.of_reach {σ : MqSys} (hr : MqReach σ) : CountsFit σ.db := by
  have h := hr.invariant (fun db h => MqLedger db h ∧ Stamped db h ∧ CountsFit db)
    ⟨MqLedger.empty, Stamped.empty, fun _ hm => absurd hm List.not_mem_nil⟩
    fun _ _ _ op _ _ _ _ ⟨L, S, F⟩ hx => ⟨L.step hx, S.step L hx, F.step L S op hx⟩
  exact h.2.2

/-! ## what a read can see -/

/-- the messages of the queue `q` that are visible at `now` -/
def MqDb.visibleIn (db : MqDb) (q : Int) (now : Time) : List MessageRow :=
  db.messages.filter fun m => m.queueId == q && m.visible now

/-- delivered as often as the queue allows; a limit that is NULL, zero or negative is none -/
def QueueRow.exhausted (x : QueueRow) (m : MessageRow) : Bool :=
  match x.maxRedeliveryCount with
  | none => false
  | some k => 0 < k && k ≤ m.readCount

/-- `picked` are the `k` rows of `rows` with the lowest ids -/
structure LowestIds (picked rows : List MessageRow) (k : Nat) : Prop where
  sub : picked.Sublist rows
  count : picked.length = min k rows.length
  lowest : ∀ m ∈ picked, ∀ m' ∈ rows, m' ∉ picked → m.id < m'.id

/-- what a read of the queue `x` at `c.now` does to the tables, and what it returns -/
structure ReadDoes (x : QueueRow) (c : MqCtx) (quantity timeoutSeconds : Int) (db : MqDb)
    (ms : List QueueMessage) (db' : MqDb) : Prop where
  dead : ∃ new, db'.dlq = db.dlq ++ new ∧
    List.Forall₂ (fun m d => ∃ id, d = m.deadLettered id c.now
        s!"max_redelivery_count={x.maxRedeliveryCount.getD 0}")
      ((db.visibleIn x.id c.now).filter x.exhausted) new
  claimed : ∃ picked,
    LowestIds picked ((db.visibleIn x.id c.now).filter fun m => !x.exhausted m) quantity.toNat ∧
    ms = picked.map (fun m => rowToMessage (m.claim c.now timeoutSeconds (c.token m.id))) ∧
    db'.messages =
      (db.messages.filter fun m => !(m.queueId == x.id && m.visible c.now && x.exhausted m)).map
        fun m => if m.id ∈ picked.map (·.id) then m.claim c.now timeoutSeconds (c.token m.id) else m
  queues : db'.queues = db.queues
  archives : db'.archives = db.archives
  txs : db'.txs = db.txs

/-! ## the dead-letter statement -/

/-- without a clash every row of the list gets its dead-letter row, in this order -/
theorem foldl_insertDlq_rows {db : MqDb} (now : Time) (reason : String) (l : List MessageRow)
    (hn : (l.map (·.id)).Nodup) (hd : ∀ m ∈ l, m.id ∉ db.dlqIds) :
    ∃ new, (l.foldl (MqDb.insertDlq now reason) db).dlq = db.dlq ++ new ∧
      List.Forall₂ (fun m d => ∃ id, d = m.deadLettered id now reason) l new := by
  induction l generalizing db with
  | nil => exact ⟨[], (List.append_nil _).symm, .nil⟩
  | cons m l ih =>
    rw [List.map_cons, List.nodup_cons] at hn
    have hdlq := insertDlq_dlq now reason m (hd m List.mem_cons_self)
    have hfree : ∀ y ∈ l, y.id ∉ (db.insertDlq now reason m).dlqIds := by
      intro y hy hc
      unfold MqDb.dlqIds at hc
      rw [hdlq, List.map_append, List.mem_append] at hc
      rcases hc with hc | hc
      · exact hd y (List.mem_cons_of_mem _ hy) hc
      · have he : y.id = m.id := List.mem_singleton.mp hc
        exact hn.1 (he ▸ List.mem_map_of_mem hy)
    obtain ⟨new, h1, h2⟩ := ih hn.2 hfree
    refine ⟨m.deadLettered db.nextDlqId now reason :: new, ?_, .cons ⟨_, rfl⟩ h2⟩
    rw [List.foldl_cons, h1, hdlq, List.append_assoc]
    rfl

theorem due_eq (x : QueueRow) (m : MessageRow) (now : Time) :
    m.due x.id (x.maxRedeliveryCount.getD 0) now
      = (m.queueId == x.id && m.visible now && x.exhausted m) := by
  unfold MessageRow.due QueueRow.exhausted
  cases x.maxRedeliveryCount with
  | none => simp
  | some k =>
    show (m.queueId == x.id && decide (0 < k) && decide (k ≤ m.readCount) && m.visible now) = _
    cases m.queueId == x.id <;> cases m.visible now <;> simp

/-- the tables between the two statements -/
structure DeadLettered (x : QueueRow) (now : Time) (db db₁ : MqDb) : Prop extends
    SameButDlq db db₁ where
  messages : db₁.messages = db.messages.filter fun m =>
    !(m.queueId == x.id && m.visible now && x.exhausted m)
  dlq : ∃ new, db₁.dlq = db.dlq ++ new ∧
    List.Forall₂ (fun m d => ∃ id, d = m.deadLettered id now
        s!"max_redelivery_count={x.maxRedeliveryCount.getD 0}")
      ((db.visibleIn x.id now).filter x.exhausted) new

theorem deadLetterDue_does {db : MqDb} {h : List MqEv} (L : MqLedger db h) (Q : QueuesApart db)
    {x : QueueRow} (hx : x ∈ db.queues) (now : Time) :
    DeadLettered x now db (db.deadLetterDue x.id now).2 := by
  unfold MqDb.deadLetterDue
  rw [Q.limitOf hx]
  simp only [due_eq]
  have hsel : db.messages.filter (fun m => m.queueId == x.id && m.visible now && x.exhausted m)
      = (db.visibleIn x.id now).filter x.exhausted := by
    unfold MqDb.visibleIn
    rw [List.filter_filter]
    refine List.filter_congr fun m _ => ?_
    exact Bool.and_comm _ _
  refine { moveToDlq_same db _ now _ with
    messages := moveToDlq_messages db _ now _
    dlq := ?_ }
  unfold MqDb.moveToDlq
  simp only [hsel]
  refine foldl_insertDlq_rows now _ _ ?_ ?_
  · exact L.messageIds_nodup.sublist
      ((List.filter_sublist.trans List.filter_sublist).map _)
  · intro m hm
    exact L.not_dlq (List.mem_of_mem_filter (List.mem_of_mem_filter hm))

theorem DeadLettered.visibleIn {x : QueueRow} {now : Time} {db db₁ : MqDb}
    (D : DeadLettered x now db db₁) :
    db₁.visibleIn x.id now = (db.visibleIn x.id now).filter fun m => !x.exhausted m := by
  unfold MqDb.visibleIn
  rw [D.messages, List.filter_filter, List.filter_filter]
  refine List.filter_congr fun m _ => ?_
  cases m.queueId == x.id && m.visible now <;> simp

/-! ## the claiming statement -/

/-- the first `k` of a sorted list without repetition -/
theorem take_insertionSort {l : List Int} (hn : l.Nodup) (k : Nat) {t : List Int}
    (ht : t = (l.insertionSort (· ≤ ·)).take k) :
    t.Nodup ∧ (∀ a ∈ t, a ∈ l) ∧ t.length = min k l.length ∧
      ∀ a ∈ t, ∀ b ∈ l, b ∉ t → a < b := by
  have hp := List.perm_insertionSort (· ≤ ·) l
  have hsort : (l.insertionSort (· ≤ ·)).Pairwise (· ≤ ·) := List.pairwise_insertionSort (· ≤ ·) l
  subst ht
  refine ⟨(hp.nodup_iff.mpr hn).sublist (List.take_sublist _ _),
    fun a ha => hp.mem_iff.mp (List.mem_of_mem_take ha), ?_, fun a ha b hb hnot => ?_⟩
  · rw [List.length_take, hp.length_eq]
  · have hb' := hp.mem_iff.mpr hb
    rw [← List.take_append_drop k (l.insertionSort (· ≤ ·))] at hb' hsort
    have hle : a ≤ b :=
      (List.pairwise_append.mp hsort).2.2 a ha b ((List.mem_append.mp hb').resolve_left hnot)
    exact lt_of_le_of_ne hle fun he => hnot (he ▸ ha)

theorem lowestIds_picked {db : MqDb} (hn : db.messageIds.Nodup) (q quantity : Int) (now : Time) :
    LowestIds (db.messages.filter fun m => (db.picked q quantity now []).contains m.id)
      (db.visibleIn q now) quantity.toNat := by
  have hids : db.picked q quantity now []
      = (((db.visibleIn q now).map (·.id)).insertionSort (· ≤ ·)).take quantity.toNat := by
    unfold MqDb.picked MqDb.visibleIn
    simp
  have hvn : ((db.visibleIn q now).map (·.id)).Nodup := hn.sublist (List.filter_sublist.map _)
  obtain ⟨h1, h2, h3, h4⟩ := take_insertionSort hvn quantity.toNat hids
  have hvis : (db.messages.filter fun m => (db.picked q quantity now []).contains m.id)
      = (db.visibleIn q now).filter fun m => (db.picked q quantity now []).contains m.id := by
    unfold MqDb.visibleIn
    rw [List.filter_filter]
    refine List.filter_congr fun m hm => ?_
    cases hc : (db.picked q quantity now []).contains m.id with
    | false => rfl
    | true =>
      obtain ⟨m', hm', he, hq, hv, -⟩ := mem_picked (List.contains_iff_mem.mp hc)
      obtain rfl := List.inj_on_of_nodup_map hn hm' hm he
      rw [hq, hv]
      simp
  have hperm : ((db.messages.filter fun m => (db.picked q quantity now []).contains m.id).map
      (·.id)).Perm (db.picked q quantity now []) := by
    refine (List.perm_ext_iff_of_nodup (hn.sublist (List.filter_sublist.map _)) h1).mpr fun i => ?_
    refine ⟨fun hi => ?_, fun hi => ?_⟩
    · obtain ⟨m, hm, rfl⟩ := List.mem_map.mp hi
      exact List.contains_iff_mem.mp (List.mem_filter.mp hm).2
    · obtain ⟨m, hm, rfl, -⟩ := mem_picked hi
      exact List.mem_map_of_mem (List.mem_filter.mpr ⟨hm, List.contains_iff_mem.mpr hi⟩)
  refine ⟨?_, ?_, fun m hm m' hm' hnot => ?_⟩
  · rw [hvis]
    exact List.filter_sublist
  · rw [List.length_map] at h3
    rw [← h3, ← hperm.length_eq, List.length_map]
  · refine h4 _ (List.contains_iff_mem.mp (List.mem_filter.mp hm).2) _ (List.mem_map_of_mem hm') ?_
    intro hc
    exact hnot (List.mem_filter.mpr ⟨List.mem_of_mem_filter hm', List.contains_iff_mem.mpr hc⟩)

/-- the claim of a read does what it is for, when no count is at its end -/
theorem claim_does {db : MqDb} (hn : db.messageIds.Nodup) (F : CountsFit db) {c : MqCtx}
    (hc : c.locked = []) {q : Int}
    (hmax : ∀ m ∈ db.visibleIn q c.now, m.readCount ≠ i32Max) (quantity timeout : Int) :
    ∃ picked db', LowestIds picked (db.visibleIn q c.now) quantity.toNat ∧
      db.claim q quantity timeout c.now c =
        (.ok (picked.map fun m => rowToMessage (m.claim c.now timeout (c.token m.id))), db') ∧
      db' = { db with messages := db.messages.map fun m =>
        if m.id ∈ picked.map (·.id) then m.claim c.now timeout (c.token m.id) else m } := by
  have hlow := lowestIds_picked hn q quantity c.now
  have hfit : ¬ (db.messages.any fun m =>
      (db.picked q quantity c.now []).contains m.id && i32Max < m.readCount + 1) = true := by
    intro hany
    obtain ⟨m, hm, hp⟩ := List.any_eq_true.mp hany
    obtain ⟨hp, hlt⟩ := Bool.and_eq_true_iff.mp hp
    have hv := hlow.sub.subset (List.mem_filter.mpr ⟨hm, hp⟩)
    have h1 := hmax m hv
    have h2 := F m hm
    have h3 : i32Max < m.readCount + 1 := of_decide_eq_true hlt
    omega
  have hmap : (db.messages.map fun m => if (db.picked q quantity c.now []).contains m.id then
        m.claim c.now timeout (c.token m.id) else m)
      = db.messages.map fun m =>
        if m.id ∈ (db.messages.filter fun m => (db.picked q quantity c.now []).contains m.id).map
            (·.id) then m.claim c.now timeout (c.token m.id) else m := by
    refine List.map_congr_left fun m hm => ?_
    have hiff : (db.picked q quantity c.now []).contains m.id = true ↔
        m.id ∈ (db.messages.filter fun m => (db.picked q quantity c.now []).contains m.id).map
          (·.id) := by
      refine ⟨fun h => List.mem_map_of_mem (List.mem_filter.mpr ⟨hm, h⟩), fun h => ?_⟩
      obtain ⟨m', hm', he⟩ := List.mem_map.mp h
      exact he ▸ (List.mem_filter.mp hm').2
    by_cases h : (db.picked q quantity c.now []).contains m.id = true
    · rw [if_pos h, if_pos (hiff.mp h)]
    · rw [if_neg h, if_neg (mt hiff.mpr h)]
  refine ⟨_, _, hlow, ?_, rfl⟩
  unfold MqDb.claim
  rw [hc]
  simp only [if_neg hfit, hmap]

/-! ## the read -/

section
variable {s : Nat} {c : MqCtx} {db : MqDb} {store : MqStore} {n : String} {quantity timeout : Int}

theorem alone_read_invalid
    (h : ¬ (validateQueueName n = .ok () ∧
      (⟨store, .read n quantity timeout⟩ : MqCall).argsValid)) :
    ∃ e, (store.read n quantity timeout).alone s c db = some (.error e, db) := by
  unfold MqStore.read
  cases h1 : validateQuantity quantity store.limits.maxBatchSize with
  | error e => exact ⟨e, alone_check_error rfl⟩
  | ok k =>
    obtain rfl : k = quantity := by
      unfold validateQuantity at h1
      grind
    rw [alone_check rfl]
    cases h2 : validateNonNegativeSeconds "visibility_timeout_seconds" timeout with
    | error e => exact ⟨e, alone_check_error rfl⟩
    | ok t =>
      have ht : 0 ≤ timeout := by
        unfold validateNonNegativeSeconds at h2
        grind
      rw [alone_check rfl]
      cases h3 : store.validateVisibilityTimeout timeout with
      | error e => exact ⟨e, alone_check_error rfl⟩
      | ok u =>
        rw [alone_check rfl]
        cases h4 : validateQueueName n with
        | error e => exact ⟨e, alone_queueId_invalid h4 _⟩
        | ok u => exact absurd ⟨h4, h1, ht, h3⟩ h

/-- a read of a queue that is there -/
theorem alone_read {h : List MqEv} (L : MqLedger db h) (Q : QueuesApart db) (F : CountsFit db)
    (htx : db.txs.get s = none) (hc : c.locked = []) {x : QueueRow} (hx : x ∈ db.queues)
    (hmax : ∀ m ∈ db.messages, m.visible c.now = true → m.readCount ≠ i32Max)
    (hv : validateQueueName x.name = .ok ())
    (ha : (⟨store, .read x.name quantity timeout⟩ : MqCall).argsValid) :
    ∃ ms db', (store.read x.name quantity timeout).alone s c db = some (.ok ms, db') ∧
      ReadDoes x c quantity timeout db ms db' := by
  have D := deadLetterDue_does L Q hx c.now
  obtain ⟨moved, db₁, hdue⟩ : ∃ moved db₁, db.deadLetterDue x.id c.now = (moved, db₁) := ⟨_, _, rfl⟩
  rw [hdue] at D
  replace D : DeadLettered x c.now db db₁ := D
  have hdead : MqStmt.exec s c (.deadLetterDue x.id) db = some (moved, db₁) := by
    show some (db.deadLetterDue x.id (db.now s c.now)) = _
    rw [now_eq_clock htx, hdue]
  have hsub : ∀ m ∈ db₁.messages, m ∈ db.messages := by
    rw [D.messages]
    exact fun m hm => List.mem_of_mem_filter hm
  have hkey : db₁.messageIds.Nodup := by
    unfold MqDb.messageIds
    rw [D.messages]
    exact L.messageIds_nodup.sublist (List.filter_sublist.map _)
  have hmax₁ : ∀ m ∈ db₁.visibleIn x.id c.now, m.readCount ≠ i32Max := by
    intro m hm
    obtain ⟨hm, hvis⟩ := List.mem_filter.mp hm
    exact hmax m (hsub m hm) (Bool.and_eq_true_iff.mp hvis).2
  obtain ⟨picked, db₂, hlow, hclaim, hdb₂⟩ :=
    claim_does hkey (fun m hm => F m (hsub m hm)) hc hmax₁ quantity timeout
  have hcl : MqStmt.exec s c (.claim x.id quantity timeout) db₁
      = some (db₁.claim x.id quantity timeout c.now c) := by
    show some (db₁.claim x.id quantity timeout (db₁.now s c.now) c) = _
    rw [now_eq_clock (D.txs ▸ htx)]
  rw [hclaim] at hcl
  refine ⟨picked.map fun m => rowToMessage (m.claim c.now timeout (c.token m.id)), db₂, ?_, ?_⟩
  · unfold MqStore.read
    rw [alone_check ha.1, alone_check (seconds_ok _ ha.2.1), alone_check ha.2.2,
      alone_queueId_bind hv (Q.selectQueueId hx), alone_query hdead, alone_query hcl]
    rfl
  · subst hdb₂
    refine ⟨D.dlq, ⟨picked, D.visibleIn ▸ hlow, rfl, ?_⟩, D.queues, D.archives, D.txs⟩
    rw [← D.messages]

end

/-- **A read from end to end.**  In every reachable state without a visible message at the end of
the `read_count` range, a read that nobody interferes with moves exactly the exhausted visible
messages to `mq_dlq` and claims and returns exactly the lowest of the others, if PostgreSQL and
`chrono` have the moment `now + timeout`; on invalid arguments or an unknown queue it changes
nothing. -/
theorem mq_read_alone {σ : MqSys} (hr : MqReach σ) {s : Nat} (hs : σ.prog s = none) {c : MqCtx}
    (hc : c.locked = [])
    (hmax : ∀ m ∈ σ.db.messages, m.visible c.now = true → m.readCount ≠ i32Max)
    (store : MqStore) (n : String) (quantity timeout : Int) :
    (∀ x ∈ σ.db.queues, x.name = n → validateQueueName n = .ok () →
      (⟨store, .read n quantity timeout⟩ : MqCall).argsValid → decoded.Fits c.now timeout →
      ∃ ms db', (store.read n quantity timeout).alone s c σ.db = some (.ok ms, db') ∧
        ReadDoes x c quantity timeout σ.db ms db') ∧
    (¬ (validateQueueName n = .ok () ∧ (⟨store, .read n quantity timeout⟩ : MqCall).argsValid) ∨
        (∀ x ∈ σ.db.queues, x.name ≠ n) →
      ∃ e, (store.read n quantity timeout).alone s c σ.db = some (.error e, σ.db)) := by
  refine ⟨fun x hx hn hv ha _ => ?_, fun h => ?_⟩
  · subst hn
    exact alone_read (MqLedger.of_reach hr) (QueuesApart.of_reach hr) (CountsFit.of_reach hr)
      (idle_no_tx hr hs) hc hx hmax hv ha
  · by_cases hv : validateQueueName n = .ok () ∧
        (⟨store, .read n quantity timeout⟩ : MqCall).argsValid
    · have hno := h.resolve_left (not_not_intro hv)
      have hnone : σ.db.selectQueueId n = none := by
        rw [MqDb.selectQueueId, Option.map_eq_none_iff, List.find?_eq_none]
        exact fun x hx he => hno x hx (by simpa using he)
      exact ⟨_, read_unknown hv.1 hnone hv.2.1 hv.2.2⟩
    · exact alone_read_invalid hv

/-- a store whose queues get the limit `k` -/
def limitStore (k : Int) : MqStore := ⟨false, { maxRedeliveryCount := k }, fun s => .ok (.str s)⟩

/-- one message, delivered once and visible again -/
def givenOnce (k : Int) : List (Act MqCall MqCtx) :=
  [.call 0 ⟨limitStore k, .createQueue "orders" .durable⟩, .stmt 0 (plainCtx 0), .ret 0,
   .call 0 ⟨limitStore k, .send "orders" "x" 0⟩, .stmt 0 (plainCtx 1), .stmt 0 (plainCtx 2),
   .stmt 0 (plainCtx 3), .stmt 0 (plainCtx 4), .stmt 0 (plainCtx 5), .ret 0,
   .call 0 ⟨limitStore k, .read "orders" 1 0⟩, .stmt 0 (plainCtx 6), .stmt 0 (plainCtx 7),
   .stmt 0 (plainCtx 8), .ret 0]

/-- with limit 1 it goes to `mq_dlq` -/
theorem mq_read_alone_givenOnce :
    ∃ σ : MqSys, (Sys.init MqDb.empty).play MqStmt.exec MqCall.body (givenOnce 1) = some σ ∧
      ∃ x ∈ σ.db.queues, ∃ ms db',
        (textStore.read "orders" 10 30).alone 0 (plainCtx 9) σ.db = some (.ok ms, db') ∧
        ReadDoes x (plainCtx 9) 10 30 σ.db ms db' := by
  have h : ((Sys.init MqDb.empty : MqSys).play MqStmt.exec MqCall.body (givenOnce 1)).map
      (fun σ => ((σ.prog 0).isNone, σ.db.queues.map (·.name), σ.db.messages.map (·.readCount)))
      = some (true, ["orders"], [1]) := by rfl
  obtain ⟨σ, hσ, he⟩ := Option.map_eq_some_iff.mp h
  obtain ⟨h1, h2⟩ := Prod.mk.inj he
  obtain ⟨h2, h3⟩ := Prod.mk.inj h2
  have hmax : ∀ m ∈ σ.db.messages, m.visible (plainCtx 9).now = true → m.readCount ≠ i32Max := by
    intro m hm _
    have h4 : m.readCount ∈ [(1 : Int)] := h3 ▸ List.mem_map_of_mem hm
    rw [List.mem_singleton.mp h4]
    decide
  obtain ⟨x, hx, hn⟩ := List.mem_map.mp (h2 ▸ List.mem_singleton.mpr rfl :
    "orders" ∈ σ.db.queues.map (·.name))
  have hread := (mq_read_alone (Sys.play_steps hσ) (Option.isNone_iff_eq_none.mp h1) rfl hmax
    textStore "orders" 10 30).1 x hx hn rfl ⟨rfl, by decide, rfl⟩ (by decide)
  exact ⟨σ, hσ, x, hx, hread⟩

/-- with limit -1, which is neither NULL nor 0, a read returns it again -/
theorem mq_read_alone_negativeLimit :
    ∃ σ : MqSys, MqReach σ ∧ σ.prog 0 = none ∧
      ∃ x ∈ σ.db.queues, x.name = "orders" ∧ x.maxRedeliveryCount = some (-1) ∧
        ∃ m ∈ σ.db.visibleIn x.id 9, -1 ≤ m.readCount ∧
          ((textStore.read "orders" 10 30).alone 0 (plainCtx 9) σ.db).map
              (fun p => (p.1.toOption.map fun ms => ms.map (·.id), p.2.dlqIds))
            = some (some [m.id], []) := by
  have h : ((Sys.init MqDb.empty : MqSys).play MqStmt.exec MqCall.body (givenOnce (-1))).map
      (fun σ => ((σ.prog 0).isNone, σ.db.queues.map (fun x => (x.id, x.name, x.maxRedeliveryCount)),
        (σ.db.visibleIn 1 9).map (fun m => (m.id, m.readCount)),
        ((textStore.read "orders" 10 30).alone 0 (plainCtx 9) σ.db).map
          fun p => (p.1.toOption.map fun ms => ms.map (·.id), p.2.dlqIds)))
      = some (true, [(1, "orders", some (-1))], [(1, 1)], some (some [1], [])) := by rfl
  obtain ⟨σ, hσ, he⟩ := Option.map_eq_some_iff.mp h
  simp only [Prod.mk.injEq] at he
  obtain ⟨h1, h2, h3, h4⟩ := he
  have hq : ((1 : Int), "orders", some (-1 : Int))
      ∈ σ.db.queues.map fun x => (x.id, x.name, x.maxRedeliveryCount) := by
    rw [h2]
    exact List.mem_cons_self
  have hm : ((1 : Int), (1 : Int)) ∈ (σ.db.visibleIn 1 9).map fun m => (m.id, m.readCount) := by
    rw [h3]
    exact List.mem_cons_self
  obtain ⟨x, hx, hxe⟩ := List.mem_map.mp hq
  obtain ⟨m, hm, hme⟩ := List.mem_map.mp hm
  simp only [Prod.mk.injEq] at hxe hme
  obtain ⟨hid, hname, hlimit⟩ := hxe
  refine ⟨σ, Sys.play_steps hσ, Option.isNone_iff_eq_none.mp h1, x, hx, hname, hlimit, m, hid ▸ hm,
    ?_, ?_⟩
  · rw [hme.2]
    decide
  · rw [hme.1]
    exact h4

end PgApp
