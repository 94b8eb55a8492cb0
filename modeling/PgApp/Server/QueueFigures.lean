import PgApp.Mq.Alone
import PgApp.Mq.Rooted
import PgApp.Server.AdminFrame
import PgApp.Server.PagedLists

/-!
# The figures of the queues

Three queries count the rows of the MQ tables: the one of `metrics`, which filters the messages of
one queue, the one of `list_mq_queues`, which joins and groups, and the one of `mq_summary`, which
looks at no queue at all.

* `Splits`         the messages of a queue are those counted as visible, those counted as in flight,
                   and those not available yet;
* `Agrees`         a row of `list_mq_queues` has the figures of `metrics`;
* `QueuesAgree`    both, of every queue, and the totals of `mq_summary` are the sums.

That a message in flight has been available (`Woken`), and that no row outlives its queue
(`Rooted`), is known of reachable states only.
-/

namespace PgApp
open Interleave Paging

/-! ## the messages of a queue -/

/-- `available_at` is still in the future -/
def MessageRow.delayed (m : MessageRow) (now : Time) : Bool := now < m.availableAt

def MqDb.messagesOf (db : MqDb) (q : Int) : List MessageRow := db.messages.filter (·.queueId == q)

/-- the messages are in three groups, each in one of them, and two of the groups are counted -/
structure Splits (messages : List MessageRow) (now : Time) (metrics : QueueMetrics) : Prop where
  visible : metrics.visibleMessageCount = (messages.filter (·.visible now)).length
  inFlight : metrics.inFlightMessageCount = (messages.filter (·.inFlight now)).length
  once : ∀ m ∈ messages, [m.visible now, m.inFlight now, m.delayed now].count true = 1
  total : (messages.length : Int) = metrics.visibleMessageCount + metrics.inFlightMessageCount +
    (messages.filter (·.delayed now)).length

theorem one_group {m : MessageRow} {now : Time}
    (hw : m.visibilityTimeoutAt ≠ none → m.availableAt ≤ now) :
    [m.visible now, m.inFlight now, m.delayed now].count true = 1 := by
  unfold MessageRow.visible MessageRow.inFlight MessageRow.delayed
  cases hv : m.visibilityTimeoutAt with
  | none =>
    by_cases ha : m.availableAt ≤ now
    · simp [ha, not_lt.mpr ha]
    · simp [ha, not_le.mp ha]
  | some t =>
    have ha : m.availableAt ≤ now := hw fun h => by rw [hv] at h; cases h
    by_cases ht : t ≤ now
    · simp [ha, ht, not_lt.mpr ha, not_lt.mpr ht]
    · simp [ha, ht, not_lt.mpr ha, not_le.mp ht]

theorem length_groups {α : Type} {a b c : α → Bool} {l : List α}
    (h : ∀ x ∈ l, [a x, b x, c x].count true = 1) :
    l.length = (l.filter a).length + (l.filter b).length + (l.filter c).length := by
  induction l with
  | nil => rfl
  | cons x l ih =>
    have ih := ih fun y hy => h y (List.mem_cons_of_mem _ hy)
    have hx := h x List.mem_cons_self
    rw [List.length_cons, List.filter_cons, List.filter_cons, List.filter_cons]
    cases ha : a x <;> cases hb : b x <;> cases hc : c x <;> simp [ha, hb, hc] at hx ⊢ <;> omega

theorem sum_counts {α : Type} {keys : List Int} (hn : keys.Nodup) (key : α → Int) {l : List α}
    (hl : ∀ x ∈ l, key x ∈ keys) :
    (keys.map fun k => ((l.filter (key · == k)).length : Int)).sum = l.length := by
  induction l with
  | nil => simp
  | cons x l ih =>
    have ih := ih fun y hy => hl y (List.mem_cons_of_mem _ hy)
    have hone : (keys.map fun k => if key x == k then (1 : Int) else 0).sum = 1 := by
      have hcount := List.count_eq_one_of_mem hn (hl x List.mem_cons_self)
      have hsum : ∀ ks : List Int, (ks.map fun k => if key x == k then (1 : Int) else 0).sum
          = ks.count (key x) := by
        intro ks
        induction ks with
        | nil => rfl
        | cons k ks ih =>
          rw [List.map_cons, List.sum_cons, ih, List.count_cons]
          by_cases e : key x = k
          · simp [e]
            omega
          · simp [e, Ne.symm e]
      rw [hsum, hcount]
      rfl
    have hstep : ∀ k, (((x :: l).filter (key · == k)).length : Int)
        = (if key x == k then 1 else 0) + (l.filter (key · == k)).length := by
      intro k
      rw [List.filter_cons]
      split
      · rw [List.length_cons]
        push_cast
        omega
      · omega
    simp only [hstep, List.sum_map_add, hone, ih, List.length_cons]
    push_cast
    omega

/-! ## one queue -/

/-- a row of `list_mq_queues` has the figures of `metrics`, an age that is absent read as 0 -/
structure MqQueueSummary.Agrees (x : MqQueueSummary) (metrics : QueueMetrics) : Prop where
  visible : x.visibleMessageCount = metrics.visibleMessageCount
  inFlight : x.inFlightMessageCount = metrics.inFlightMessageCount
  archived : x.archivedMessageCount = metrics.archivedMessageCount
  oldest : x.oldestVisibleMessageAgeSeconds.getD 0 = metrics.oldestVisibleMessageAgeSeconds

/-- what `metrics` answers about a queue -/
def MqDb.metricsOf (db : MqDb) (q : Int) (now : Time) : QueueMetrics :=
  let row := db.countMessages q now
  ⟨row.visibleCount, row.inFlightCount, row.oldestAge, db.countArchives q, db.countDlq q⟩

section
variable {s : Nat} {c : MqCtx} {db : MqDb}

theorem alone_metrics {n : String} {q : Int} (hv : validateQueueName n = .ok ())
    (hq : db.selectQueueId n = some q) (htx : db.txs.get s = none) :
    (metrics n).alone s c db = some (.ok (db.metricsOf q c.now), db) := by
  unfold metrics
  rw [MqProg.alone_queueId_bind hv hq]
  have hcount : MqStmt.exec s c (.countMessages q) db = some (db.countMessages q c.now, db) := by
    show some (db.countMessages q (db.now s c.now), db) = _
    rw [now_eq_clock htx]
  rw [MqProg.alone_query hcount]
  rfl

theorem oldestAge_eq (q : Int) (now : Time) : (db.countMessages q now).oldestAge =
    ((((db.messages.filter fun m => m.queueId == q).filter fun m => m.visible now).map
      (·.createdAt)).min?.map fun oldest => epochSeconds (now - oldest)).getD 0 := by
  unfold MqDb.countMessages
  simp only
  split
  · rename_i h
    rw [h]
    rfl
  · rename_i h
    rw [h]
    rfl

theorem summary_agrees (q : QueueRow) (now : Time) :
    (db.queueSummary now q).Agrees (db.metricsOf q.id now) where
  visible := rfl
  inFlight := rfl
  archived := rfl
  oldest := by
    show _ = (db.countMessages q.id now).oldestAge
    rw [oldestAge_eq]
    rfl

theorem splits_of {now : Time} (q : Int)
    (hw : ∀ m ∈ db.messages, m.visibilityTimeoutAt ≠ none → m.availableAt ≤ now) :
    Splits (db.messagesOf q) now (db.metricsOf q now) where
  visible := rfl
  inFlight := rfl
  once := fun m hm => one_group (hw m (List.mem_of_mem_filter hm))
  total := by
    have h := length_groups fun m (hm : m ∈ db.messagesOf q) =>
      one_group (hw m (List.mem_of_mem_filter hm))
    rw [h]
    push_cast
    rfl

end

/-! ## all queues -/

section
variable (s : Nat) (c : ServerCtx) (db : ServerDb) (admin : AdminStore)

/-- the figures of the queues in a state and at an instant, from all three queries -/
structure QueuesAgree (figures : QueueRow → QueueMetrics) : Prop where
  metrics : ∀ q ∈ db.mq.queues,
    (PgApp.metrics q.name).alone s c.mq db.mq = some (.ok (figures q), db.mq)
  splits : ∀ q ∈ db.mq.queues, Splits (db.mq.messagesOf q.id) c.now (figures q)
  rows : (db.mq.queueSummaries c.now).Perm (db.mq.queues.map (db.mq.queueSummary c.now)) ∧
    ∀ q ∈ db.mq.queues, (db.mq.queueSummary c.now q).Agrees (figures q)
  pages : ∀ limit o page, answer s c db (admin.listMqQueues ⟨limit, o⟩) = some page →
    ∀ x ∈ page.items, ∃ q ∈ db.mq.queues, x.name = q.name ∧ x.Agrees (figures q)
  walk : 1 ≤ admin.maxPageSize → admin.maxPageSize < 2 ^ 63 - 1 → ∀ limit, PositiveLimit limit →
    ∃ pages, Walk (fun o => fetchPage s c db (admin.listMqQueues ⟨limit, o⟩)) 0 pages ∧
      pages.flatten.Perm (db.mq.queues.map (db.mq.queueSummary c.now))
  totals : (adminQuery .mqSummary : ServerProg MqSummary).run (ServerStmt.exec s c) db
    = some (.ok ⟨db.mq.queues.length,
        (db.mq.queues.map fun q => (figures q).visibleMessageCount).sum,
        (db.mq.queues.map fun q => (figures q).inFlightMessageCount).sum,
        (db.mq.queues.map fun q => (figures q).archivedMessageCount).sum⟩, db)

end

section
variable {db : MqDb} (R : Rooted db) (Q : QueuesApart db) (now : Time)
include R Q

theorem summary_totals :
    db.summary now = ⟨db.queues.length,
      (db.queues.map fun q => (db.metricsOf q.id now).visibleMessageCount).sum,
      (db.queues.map fun q => (db.metricsOf q.id now).inFlightMessageCount).sum,
      (db.queues.map fun q => (db.metricsOf q.id now).archivedMessageCount).sum⟩ := by
  have hmessages : ∀ p : MessageRow → Bool,
      (db.queues.map fun q => ((((db.messages.filter fun m => m.queueId == q.id).filter p).length :
        Nat)
        : Int)).sum = (db.messages.filter p).length := by
    intro p
    have h := sum_counts Q.ids (·.queueId) (l := db.messages.filter p)
      fun m hm => R.messages m (List.mem_of_mem_filter hm)
    rw [List.map_map] at h
    rw [← h]
    congr 1
    refine List.map_congr_left fun q _ => ?_
    rw [List.filter_comm]
    rfl
  have harchives : (db.queues.map fun q => db.countArchives q.id).sum = db.archives.length := by
    have h := sum_counts Q.ids (·.queueId) (l := db.archives) R.archives
    rw [List.map_map] at h
    exact h
  unfold MqDb.summary MqDb.metricsOf MqDb.countMessages
  simp only [hmessages, harchives]

end

/-- **The figures of the queues agree, and they partition each queue.**  In every reachable state,
at every instant that is not before a clock reading of the run. -/
theorem queue_figures {σ : MqSys} (hr : MqReach σ) {s : Nat} (hs : σ.prog s = none) {c : ServerCtx}
    (hclock : ∀ e ∈ σ.hist, e.ctx.now ≤ c.now) {db : ServerDb} (hdb : db.mq = σ.db)
    (admin : AdminStore) : ∃ figures, QueuesAgree s c db admin figures := by
  have Q := QueuesApart.of_reach hr
  have R := Rooted.of_reach hr
  have N := QueuesNamed.of_reach hr
  have htx := idle_no_tx hr hs
  have hwoken : ∀ m ∈ σ.db.messages, m.visibilityTimeoutAt ≠ none → m.availableAt ≤ c.now := by
    intro m hm hv
    obtain ⟨e, he, hle⟩ := Woken.of_reach hr m hm hv
    exact le_trans hle (hclock e he)
  rw [← hdb] at Q R N htx hwoken
  have hperm : (db.mq.queueSummaries c.now).Perm (db.mq.queues.map (db.mq.queueSummary c.now)) :=
    (List.perm_insertionSort _ _).map _
  have hlists := lists_queues (s := s) (c := c) db admin
  refine ⟨fun q => db.mq.metricsOf q.id c.now, ?_, ?_, ?_, ?_, ?_, ?_⟩
  · exact fun q hq => alone_metrics (N q hq) (Q.selectQueueId hq) htx
  · exact fun q _ => splits_of q.id hwoken
  · exact ⟨hperm, fun q _ => summary_agrees q c.now⟩
  · intro limit o page hp x hx
    have hrows : pageOfRows admin.maxPageSize (db.mq.queueSummaries c.now) id limit o
        = .ok page := by
      unfold answer at hp
      rw [hlists] at hp
      cases h : pageOfRows admin.maxPageSize (db.mq.queueSummaries c.now) id limit o with
      | error e =>
        rw [h] at hp
        cases hp
      | ok p =>
        rw [h] at hp
        rw [Option.some.inj hp]
    have hmem := items_of_page hrows x hx
    rw [List.map_id] at hmem
    obtain ⟨q, hq, rfl⟩ := List.mem_map.mp (hperm.mem_iff.mp hmem)
    exact ⟨q, hq, rfl, summary_agrees q c.now⟩
  · intro hm hmax limit hlimit
    obtain ⟨pages, hw, hflat⟩ := hlists.walk hm hmax hlimit
    rw [List.map_id] at hflat
    exact ⟨pages, hw, hflat ▸ hperm⟩
  · show some (Except.ok (db.mq.summary c.now), db) = _
    rw [summary_totals R Q]

/-- of one message that has been delivered -/
theorem queue_figures_oneDelivery :
    ∃ σ : MqSys, MqReach σ ∧ σ.db.messages.map (·.visibilityTimeoutAt) = [some 30000008] ∧
      ∃ figures, QueuesAgree 2 (serverAt 20) { ServerDb.empty with mq := σ.db }
        (.new 100 fun _ => "") figures := by
  have h : ((Sys.init MqDb.empty : MqSys).play MqStmt.exec MqCall.body oneDelivery).map (fun σ =>
      (decide (∀ e ∈ σ.hist, e.ctx.now ≤ 20), σ.db.messages.map (·.visibilityTimeoutAt),
        (σ.prog 2).isNone)) = some (true, [some 30000008], true) := by rfl
  obtain ⟨σ, hσ, he⟩ := Option.map_eq_some_iff.mp h
  obtain ⟨hclock, he⟩ := Prod.mk.inj he
  obtain ⟨hdeadline, hidle⟩ := Prod.mk.inj he
  have hr : MqReach σ := Sys.play_steps hσ
  refine ⟨σ, hr, hdeadline, ?_⟩
  exact queue_figures hr (Option.isNone_iff_eq_none.mp hidle) (c := serverAt 20)
    (of_decide_eq_true hclock) rfl _

end PgApp
