import PgApp.Mq.Isolation
import PgApp.Mq.Window

/-!
# What the rows of the MQ tables rest on

* `Rooted`       the foreign keys: every row, committed or not, belongs to a queue that is there.  A
                 DELETE of a queue waits for the transactions of others, and no session issues it
                 inside its own (`auto_no_tx`);
* `Woken`        a message that has been delivered has been available by then;
* `QueuesNamed`  every queue has a name that passes the check of `queue_id`.
-/

namespace PgApp
open Interleave

/-! ## the foreign keys -/

def MqDb.queueIds (db : MqDb) : List Int := db.queues.map (·.id)

/-- every row belongs to a queue -/
structure Rooted (db : MqDb) : Prop where
  messages : ∀ m ∈ db.messages, m.queueId ∈ db.queueIds
  archives : ∀ a ∈ db.archives, a.queueId ∈ db.queueIds
  dlq : ∀ d ∈ db.dlq, d.queueId ∈ db.queueIds
  pending : ∀ x ∈ db.txs, ∀ m ∈ x.2.pending, m.queueId ∈ db.queueIds

namespace Rooted

theorem empty : Rooted MqDb.empty :=
  ⟨fun _ h => absurd h List.not_mem_nil, fun _ h => absurd h List.not_mem_nil,
    fun _ h => absurd h List.not_mem_nil, fun _ h => absurd h List.not_mem_nil⟩

section
variable {s : Nat} {c : MqCtx} {db db' : MqDb}

theorem insertQueue (R : Rooted db) (name : String) (durable : Bool) (limit : Option Int) :
    Rooted (db.insertQueue name durable limit) := by
  have hsub : ∀ x : QueueRow, ∀ q ∈ db.queueIds, q ∈ (db.queues ++ [x]).map (·.id) := by
    intro x q hq
    rw [List.map_append]
    exact List.mem_append_left _ hq
  unfold MqDb.insertQueue
  split
  · exact ⟨R.messages, R.archives, R.dlq, R.pending⟩
  · exact ⟨fun m hm => hsub _ _ (R.messages m hm), fun a ha => hsub _ _ (R.archives a ha),
      fun d hd => hsub _ _ (R.dlq d hd), fun x hx m hm => hsub _ _ (R.pending x hx m hm)⟩

theorem deleteQueue (R : Rooted db) {name : String} (hnone : db.txs.get s = none)
    (hothers : db.txs.others s (db.holdsQueue name) = false) : Rooted (db.deleteQueue name).2 := by
  have hkeep : ∀ q ∈ db.queueIds, q ∉ (db.queues.filter (·.name == name)).map (·.id) →
      q ∈ (db.queues.filter (·.name != name)).map (·.id) := by
    intro q hq hgone
    obtain ⟨x, hx, rfl⟩ := List.mem_map.mp hq
    refine List.mem_map.mpr ⟨x, List.mem_filter.mpr ⟨hx, ?_⟩, rfl⟩
    rw [bne_iff_ne]
    intro he
    exact hgone (List.mem_map.mpr ⟨x, List.mem_filter.mpr ⟨hx, beq_iff_eq.mpr he⟩, rfl⟩)
  have hstay : ∀ q ∈ db.queueIds,
      (!((db.queues.filter (·.name == name)).map (·.id)).contains q) = true →
      q ∈ (db.queues.filter (·.name != name)).map (·.id) := by
    intro q hq hc
    refine hkeep q hq fun hgone => ?_
    rw [List.contains_iff_mem.mpr hgone] at hc
    cases hc
  refine ⟨fun m hm => ?_, fun a ha => ?_, fun d hd => ?_, fun x hx m hm => ?_⟩
  · obtain ⟨hm, hc⟩ := List.mem_filter.mp hm
    exact hstay _ (R.messages m hm) hc
  · obtain ⟨ha, hc⟩ := List.mem_filter.mp ha
    exact hstay _ (R.archives a ha) hc
  · obtain ⟨hd, hc⟩ := List.mem_filter.mp hd
    exact hstay _ (R.dlq d hd) hc
  · refine hkeep _ (R.pending x hx m hm) fun hgone => ?_
    obtain ⟨q, hq, hid⟩ := List.mem_map.mp hgone
    obtain ⟨hq, hname⟩ := List.mem_filter.mp hq
    have hx' : x ∈ db.txs.erase s := by rw [Slots.erase_of_get hnone]; exact hx
    have hne : (x.1 != s) = true := (List.mem_filter.mp hx').2
    have hheld : db.holdsQueue name x.2 = true := by
      unfold MqDb.holdsQueue
      rw [List.any_eq_true]
      refine ⟨m, hm, List.any_eq_true.mpr ⟨q, hq, ?_⟩⟩
      rw [hname, hid, beq_self_eq_true]
      rfl
    unfold Slots.others at hothers
    rw [List.any_eq_false] at hothers
    exact hothers x hx (by rw [hne, hheld]; rfl)

theorem insertMessage (R : Rooted db) {q delay : Int} {payload : Json} {t : MqTx}
    (hg : db.txs.get s = some t) : Rooted (db.insertMessage s t q payload delay).2 := by
  rcases insertMessage_spec db s t q payload delay with ⟨-, ⟨y, hy, hid⟩, h⟩ | ⟨e, h⟩
  · rw [h]
    refine ⟨R.messages, R.archives, R.dlq, fun x hx m hm => ?_⟩
    rcases List.mem_cons.mp hx with rfl | hx
    · rcases List.mem_append.mp hm with hm | hm
      · exact R.pending _ (Slots.mem_of_get hg) m hm
      · obtain rfl := List.mem_singleton.mp hm
        exact List.mem_map.mpr ⟨y, hy, hid⟩
    · exact R.pending x (List.mem_of_mem_filter hx) m hm
  · rw [h]
    exact ⟨R.messages, R.archives, R.dlq, R.pending⟩

theorem commit (R : Rooted db) (s : Nat) : Rooted (db.commit s) := by
  unfold MqDb.commit
  cases hg : db.txs.get s with
  | none => exact R
  | some t =>
    refine ⟨fun m hm => ?_, R.archives, R.dlq, fun x hx => R.pending x (List.mem_of_mem_filter hx)⟩
    rcases List.mem_append.mp hm with hm | hm
    · exact R.messages m hm
    · exact R.pending _ (Slots.mem_of_get hg) m hm

theorem rewrite (R : Rooted db) {f : MessageRow → MessageRow}
    (hf : ∀ m, (f m).queueId = m.queueId) :
    Rooted { db with messages := db.messages.map f } := by
  refine ⟨fun m hm => ?_, R.archives, R.dlq, R.pending⟩
  obtain ⟨m₀, hm₀, rfl⟩ := List.mem_map.mp hm
  rw [hf]
  exact R.messages m₀ hm₀

theorem moveToDlq (R : Rooted db) (sel : MessageRow → Bool) (now : Time) (reason : String) :
    Rooted (db.moveToDlq sel now reason).2 := by
  suffices h : ∀ (l : List MessageRow) (db : MqDb), (∀ m ∈ l, m.queueId ∈ db.queueIds) → Rooted db →
      Rooted (l.foldl (MqDb.insertDlq now reason) db) from
    h _ _ (fun m hm => R.messages m (List.mem_of_mem_filter hm))
      ⟨fun m hm => R.messages m (List.mem_of_mem_filter hm), R.archives, R.dlq, R.pending⟩
  intro l
  induction l with
  | nil => exact fun _ _ R => R
  | cons m l ih =>
    intro db hl R
    rw [List.foldl_cons]
    have hq : (db.insertDlq now reason m).queueIds = db.queueIds := by
      unfold MqDb.queueIds
      rw [insertDlq_queues]
    refine ih _ (fun m' hm' => hq ▸ hl m' (List.mem_cons_of_mem _ hm')) ?_
    unfold MqDb.insertDlq
    split
    · exact ⟨R.messages, R.archives, R.dlq, R.pending⟩
    · refine ⟨R.messages, R.archives, fun d hd => ?_, R.pending⟩
      rcases List.mem_append.mp hd with hd | hd
      · exact R.dlq d hd
      · obtain rfl := List.mem_singleton.mp hd
        exact hl m List.mem_cons_self

theorem archive (R : Rooted db) (q id : Int) (token : String) (now : Time) :
    Rooted (db.archive q id token now).2 := by
  suffices h : ∀ (l : List MessageRow) (db : MqDb), (∀ m ∈ l, m.queueId ∈ db.queueIds) → Rooted db →
      Rooted (l.foldl (MqDb.insertArchive now) db) from
    h _ _ (fun m hm => R.messages m (List.mem_of_mem_filter hm))
      ⟨fun m hm => R.messages m (List.mem_of_mem_filter hm), R.archives, R.dlq, R.pending⟩
  intro l
  induction l with
  | nil => exact fun _ _ R => R
  | cons m l ih =>
    intro db hl R
    rw [List.foldl_cons]
    refine ih _ (fun m' hm' => hl m' (List.mem_cons_of_mem _ hm'))
      ⟨R.messages, ?_, R.dlq, R.pending⟩
    intro a ha
    rcases List.mem_append.mp ha with ha | ha
    · exact R.archives a ha
    · obtain rfl := List.mem_singleton.mp ha
      exact hl m List.mem_cons_self

theorem reprocess (R : Rooted db) (q id : Int) (now : Time) : Rooted (db.reprocess q id now).2 := by
  unfold MqDb.reprocess
  simp only
  split
  · exact R
  · refine ⟨fun m hm => ?_, R.archives, fun d hd => R.dlq d (List.mem_of_mem_filter hd), R.pending⟩
    rcases List.mem_append.mp hm with hm | hm
    · exact R.messages m hm
    · obtain ⟨d, hd, rfl⟩ := List.mem_map.mp hm
      exact R.dlq d (List.mem_of_mem_filter hd)

theorem step (R : Rooted db) {st : MqStmt} {r : st.Res}
    (hauto : st.auto = true → db.txs.get s = none) (hx : st.exec s c db = some (r, db')) :
    Rooted db' := by
  cases st with
  | insertQueue name durable limit =>
    obtain rfl : db.insertQueue name durable limit = db' := congrArg Prod.snd (Option.some.inj hx)
    exact R.insertQueue name durable limit
  | deleteQueue name =>
    change (if _ then none else some _) = _ at hx
    split at hx
    · cases hx
    · rename_i hothers
      obtain rfl : (db.deleteQueue name).2 = db' := congrArg Prod.snd (Option.some.inj hx)
      exact R.deleteQueue (hauto rfl) (Bool.eq_false_iff.mpr hothers)
  | deleteMessages q =>
    obtain rfl := congrArg Prod.snd (Option.some.inj hx)
    exact ⟨fun m hm => R.messages m (List.mem_of_mem_filter hm), R.archives, R.dlq, R.pending⟩
  | begin =>
    obtain rfl := congrArg Prod.snd (Option.some.inj hx)
    refine ⟨R.messages, R.archives, R.dlq, fun x hx m hm => ?_⟩
    rcases List.mem_cons.mp hx with rfl | hx
    · exact absurd hm List.not_mem_nil
    · exact R.pending x (List.mem_of_mem_filter hx) m hm
  | commit =>
    obtain rfl : db.commit s = db' := congrArg Prod.snd (Option.some.inj hx)
    exact R.commit s
  | rollback =>
    obtain rfl := congrArg Prod.snd (Option.some.inj hx)
    exact ⟨R.messages, R.archives, R.dlq, fun x hx => R.pending x (List.mem_of_mem_filter hx)⟩
  | insertMessage q payload delay =>
    cases hg : db.txs.get s with
    | none =>
      rw [exec_insert_none hg] at hx
      cases hx
    | some t =>
      rw [exec_insert_some hg] at hx
      obtain rfl : (db.insertMessage s t q payload delay).2 = db' :=
        congrArg Prod.snd (Option.some.inj hx)
      exact R.insertMessage hg
  | deadLetterDue q =>
    obtain rfl : (db.deadLetterDue q (db.now s c.now)).2 = db' :=
      congrArg Prod.snd (Option.some.inj hx)
    obtain ⟨sel, reason, he, -⟩ := deadLetterDue_eq db q (db.now s c.now)
    rw [he]
    exact R.moveToDlq sel _ reason
  | claim q n t =>
    obtain rfl : (db.claim q n t (db.now s c.now) c).2 = db' :=
      congrArg Prod.snd (Option.some.inj hx)
    unfold MqDb.claim
    simp only
    split
    · exact R
    · refine R.rewrite fun m => ?_
      split <;> rfl
  | deadLetter q id reason =>
    obtain rfl : (db.deadLetter q id reason (db.now s c.now)).2 = db' :=
      congrArg Prod.snd (Option.some.inj hx)
    exact R.moveToDlq _ _ reason
  | reprocess q id =>
    obtain rfl : (db.reprocess q id (db.now s c.now)).2 = db' :=
      congrArg Prod.snd (Option.some.inj hx)
    exact R.reprocess q id _
  | deleteDlq q =>
    obtain rfl := congrArg Prod.snd (Option.some.inj hx)
    exact ⟨R.messages, R.archives, fun d hd => R.dlq d (List.mem_of_mem_filter hd), R.pending⟩
  | sweepDlq n =>
    obtain rfl := congrArg Prod.snd (Option.some.inj hx)
    exact ⟨R.messages, R.archives, fun d hd => R.dlq d (List.mem_of_mem_filter hd), R.pending⟩
  | ack q id token =>
    obtain rfl := congrArg Prod.snd (Option.some.inj hx)
    exact ⟨fun m hm => R.messages m (List.mem_of_mem_filter hm), R.archives, R.dlq, R.pending⟩
  | archive q id token =>
    obtain rfl : (db.archive q id token (db.now s c.now)).2 = db' :=
      congrArg Prod.snd (Option.some.inj hx)
    exact R.archive q id token _
  | setVisibility q id token t =>
    obtain rfl := congrArg Prod.snd (Option.some.inj hx)
    refine R.rewrite fun m => ?_
    split <;> rfl
  | idle => cases hx
  | _ =>
    obtain rfl := congrArg Prod.snd (Option.some.inj hx)
    exact R

end

/-- **In every reachable state the queue of a row is there.** -/
theorem of_reach {σ : MqSys} (hr : MqReach σ) : Rooted σ.db :=
  hr.invariant_of (fun (e : MqEv) _ => e.stmt.auto = true → e.pre.txs.get e.sess = none)
    (fun db _ => Rooted db) empty (fun _ _ _ _ _ _ _ _ R hauto hx => R.step hauto hx)
      (auto_no_tx hr)

end Rooted

/-! ## delivered messages have been available -/

/-- a delivered message was available at some statement of the run -/
def Woken (db : MqDb) (h : List MqEv) : Prop :=
  ∀ m ∈ db.messages, m.visibilityTimeoutAt ≠ none → Passed h m.availableAt

theorem Woken.row {e : MqEv} {h : List MqEv} {m : MessageRow} (W : Woken e.pre h)
    (S : Stamped e.pre h) (hauto : e.stmt.auto = true → e.pre.txs.get e.sess = none)
    (hm : RowChange e m) (hv : m.visibilityTimeoutAt ≠ none) : Passed (e :: h) m.availableAt := by
  cases hm with
  | kept m hm ht => exact (W m hm hv).cons e
  | sent m t hg hm ht => exact absurd (S.fresh _ t hg m hm).1 hv
  | delivered m q n timeout token hm hst hvis ht =>
    rw [eventNow_of_auto hauto (by rw [hst]; rfl)] at hvis
    unfold MessageRow.visible at hvis
    rw [Bool.and_eq_true, decide_eq_true_eq] at hvis
    exact ⟨e, List.mem_cons_self, hvis.1⟩
  | extended m deadline hm hfl ht =>
    refine (W m hm fun hnone => ?_).cons e
    unfold MessageRow.inFlight at hfl
    rw [hnone] at hfl
    cases hfl
  | requeued d hd ht => exact absurd rfl hv

theorem Woken.of_reach {σ : MqSys} (hr : MqReach σ) : Woken σ.db σ.hist := by
  have h := hr.invariant_of (fun e _ => e.stmt.auto = true → e.pre.txs.get e.sess = none)
    (fun db h => MqLedger db h ∧ Stamped db h ∧ Woken db h)
    ⟨MqLedger.empty, Stamped.empty, fun _ h => absurd h List.not_mem_nil⟩ ?_ (auto_no_tx hr)
  · exact h.2.2
  · intro db h s op c st r db' ih hauto hx
    obtain ⟨L, S, W⟩ := ih
    refine ⟨L.step hx, S.step L hx, fun m hm hv => ?_⟩
    exact Woken.row (e := ⟨s, op, c, st, r, db⟩) W S hauto (rowChange L hx m hm) hv

/-! ## the names of the queues -/

/-- the statement creates a queue whose name no operation would look up -/
def MqStmt.misnames (st : MqStmt) : Prop :=
  ∃ name durable limit, st = .insertQueue name durable limit ∧ validateQueueName name ≠ .ok ()

section
variable {α : Type}

theorem names_query (st : MqStmt) (h : ∀ n d l, st ≠ .insertQueue n d l) :
    (query st).Avoids MqStmt.misnames :=
  ⟨fun hm => by obtain ⟨n, d, l, he, -⟩ := hm; exact h n d l he, fun _ => trivial⟩

theorem names_query_bind (st : MqStmt) (h : ∀ n d l, st ≠ .insertQueue n d l)
    {k : st.Res → MqProg α}
    (hk : ∀ r, (k r).Avoids MqStmt.misnames) : (query st >>= k).Avoids MqStmt.misnames :=
  Prog.Avoids.bind (names_query st h) hk

theorem names_queueId_bind (n : String) {k : Int → MqProg α}
    (hk : ∀ q, (k q).Avoids MqStmt.misnames) : (queueId n >>= k).Avoids MqStmt.misnames := by
  refine Prog.Avoids.bind (Prog.Avoids.check fun _ => names_query_bind _ ?_ fun r => ?_) hk
  · exact fun _ _ _ h => by cases h
  · cases r <;> exact trivial

theorem names_inTx {p : MqProg α} (h : p.Avoids MqStmt.misnames) :
    (inTx p).Avoids MqStmt.misnames := by
  have hend : ∀ st : MqStmt, (∀ n d l, st ≠ .insertQueue n d l) → ¬ st.misnames := by
    intro st hst hm
    obtain ⟨n, d, l, he, -⟩ := hm
    exact hst n d l he
  refine ⟨hend _ fun _ _ _ h => (by cases h), fun _ => Prog.Avoids.bracket ?_ ?_ h⟩
  · exact hend _ fun _ _ _ h => by cases h
  · exact hend _ fun _ _ _ h => by cases h

end

theorem names_orFail {α : Type} (r : Except SqlError α) :
    (orFail r : MqProg α).Avoids MqStmt.misnames := trivial

theorem names_notifyQueue (n : String) (k : Nat) : (notifyQueue n k).Avoids MqStmt.misnames :=
  Prog.Avoids.check fun _ => names_query_bind _ (fun _ _ _ h => by cases h) names_orFail

theorem names_insertAll (q delay : Int) (ps : List Json) (ids : List Int) :
    (insertAll q delay ps ids).Avoids MqStmt.misnames := by
  induction ps generalizing ids with
  | nil => exact trivial
  | cons p ps ih =>
    refine names_query_bind _ (fun _ _ _ h => by cases h) fun r => ?_
    exact Prog.Avoids.bind (names_orFail r) fun id => ih _

theorem names_read (store : MqStore) (n : String) (k t : Int) :
    (store.read n k t).Avoids MqStmt.misnames := by
  refine Prog.Avoids.check fun _ => Prog.Avoids.check fun _ => Prog.Avoids.check fun _ => ?_
  refine names_queueId_bind n fun q => names_query_bind _ (fun _ _ _ h => by cases h) fun _ => ?_
  exact names_query_bind _ (fun _ _ _ h => by cases h) names_orFail

theorem names_pollLoop (store : MqStore) (n : String) (k t : Int) (i d : Time) (rounds : Nat) :
    (store.pollLoop n k t i d rounds).Avoids MqStmt.misnames := by
  induction rounds with
  | zero => exact names_query .idle fun _ _ _ h => by cases h
  | succ rounds ih =>
    refine Prog.Avoids.bind (names_read store n k t) fun ms => ?_
    show Prog.Avoids _ (if _ then _ else _)
    split
    · refine names_query_bind _ (fun _ _ _ h => by cases h) fun now => ?_
      show Prog.Avoids _ (if _ then _ else _)
      split
      · exact trivial
      · exact names_query_bind _ (fun _ _ _ h => by cases h) fun _ => ih
    · exact trivial

theorem names_streamReadNext (store : MqStore) (n : String) (k t : Int) (rounds : Nat) :
    (store.streamReadNext n k t rounds).Avoids MqStmt.misnames := by
  induction rounds with
  | zero => exact names_query .idle fun _ _ _ h => by cases h
  | succ rounds ih =>
    refine Prog.Avoids.bind (names_read store n k t) fun ms => ?_
    show Prog.Avoids _ (if _ then _ else _)
    split
    · exact names_query_bind _ (fun _ _ _ h => by cases h) fun _ => ih
    · exact trivial

/-- only `create_queue` makes a queue, once the name has passed its check -/
theorem names_body (call : MqCall) : call.body.Avoids MqStmt.misnames := by
  obtain ⟨store, op⟩ := call
  cases op with
  | createQueue n mode =>
    refine Prog.Avoids.bind ?_ fun _ => trivial
    unfold MqStore.createQueue
    cases hv : validateQueueName n with
    | error e => exact trivial
    | ok u =>
      show Prog.Avoids _ (if _ then _ else _)
      split
      · exact trivial
      · refine ⟨fun hm => ?_, fun _ => trivial⟩
        obtain ⟨n', d, l, he, hne⟩ := hm
        cases he
        exact hne hv
  | purgeQueue n =>
    exact Prog.Avoids.bind (names_queueId_bind n fun q => names_query _ fun _ _ _ h => by cases h)
      fun _ => trivial
  | dropQueue n =>
    refine Prog.Avoids.bind (Prog.Avoids.check fun _ => ?_) fun _ => trivial
    refine names_query_bind _ (fun _ _ _ h => by cases h) fun k => ?_
    show Prog.Avoids _ (if _ then _ else _)
    split <;> exact trivial
  | send n p d =>
    refine Prog.Avoids.bind (Prog.Avoids.check fun _ => Prog.Avoids.check fun payload => ?_)
      fun _ => trivial
    refine Prog.Avoids.check fun _ => names_queueId_bind n fun q => names_inTx ?_
    refine names_query_bind _ (fun _ _ _ h => by cases h) fun r => ?_
    exact Prog.Avoids.bind (names_orFail r) fun _ =>
      Prog.Avoids.bind (names_notifyQueue n 1) fun _ => trivial
  | sendBatch n ps d =>
    refine Prog.Avoids.bind (Prog.Avoids.check fun _ => Prog.Avoids.check fun _ => ?_)
      fun _ => trivial
    show Prog.Avoids _ (if _ then _ else _)
    split
    · exact trivial
    · refine names_queueId_bind n fun q => Prog.Avoids.check fun payloads => names_inTx ?_
      exact Prog.Avoids.bind (names_insertAll q d payloads []) fun ids =>
        Prog.Avoids.bind (names_notifyQueue n ids.length) fun _ => trivial
  | read n k t => exact Prog.Avoids.bind (names_read store n k t) fun _ => trivial
  | readWithPoll n k t mx i rounds =>
    refine Prog.Avoids.bind ?_ fun _ => trivial
    refine Prog.Avoids.check fun _ => Prog.Avoids.check fun _ => Prog.Avoids.check fun _ => ?_
    refine Prog.Avoids.check fun _ => names_query_bind _ (fun _ _ _ h => by cases h) fun now => ?_
    exact MqStore.pollUntil_of (names_pollLoop store n k t _) _ rounds
  | streamReadNext n k t rounds =>
    exact Prog.Avoids.bind (names_streamReadNext store n k t rounds) fun _ => trivial
  | deadLetter n id reason =>
    exact Prog.Avoids.bind (names_queueId_bind n fun q => names_query_bind _
      (fun _ _ _ h => by cases h) fun _ => trivial) fun _ => trivial
  | listDlqMessages n l o =>
    refine Prog.Avoids.bind (names_queueId_bind n fun q => ?_) fun _ => trivial
    show Prog.Avoids _ (if _ then _ else _)
    split
    · exact trivial
    · refine Prog.Avoids.check fun l => names_query_bind _ (fun _ _ _ h => by cases h) fun r => ?_
      exact Prog.Avoids.bind (names_orFail r) fun _ => trivial
  | getDlqMessage n id =>
    refine Prog.Avoids.bind (names_queueId_bind n fun q => names_query_bind _
      (fun _ _ _ h => by cases h) fun r => ?_) fun _ => trivial
    cases r <;> exact trivial
  | reprocessDlqMessage n id =>
    refine Prog.Avoids.bind (names_queueId_bind n fun q => names_inTx ?_) fun _ => trivial
    exact names_query_bind _ (fun _ _ _ h => by cases h) fun r =>
      Prog.Avoids.bind (names_orFail r) fun _ => trivial
  | purgeDlq n =>
    exact Prog.Avoids.bind (names_queueId_bind n fun q => names_query_bind _
      (fun _ _ _ h => by cases h) fun _ => trivial) fun _ => trivial
  | sweepDlq d =>
    refine Prog.Avoids.bind ?_ fun _ => trivial
    show Prog.Avoids _ (if _ then _ else _)
    split
    · exact trivial
    · exact names_query_bind _ (fun _ _ _ h => by cases h) fun _ => trivial
  | ack n id tok =>
    exact Prog.Avoids.bind (Prog.Avoids.check fun _ => names_queueId_bind n fun q =>
      names_query_bind _ (fun _ _ _ h => by cases h) fun _ => trivial) fun _ => trivial
  | archive n id tok =>
    refine Prog.Avoids.bind (Prog.Avoids.check fun _ => names_queueId_bind n fun q => ?_)
      fun _ => trivial
    exact names_inTx (names_query_bind _ (fun _ _ _ h => by cases h) fun _ => trivial)
  | setVisibilityTimeout n id tok t =>
    refine Prog.Avoids.bind (Prog.Avoids.check fun _ => Prog.Avoids.check fun _ => ?_)
      fun _ => trivial
    exact Prog.Avoids.check fun _ => names_queueId_bind n fun q => names_query_bind _
      (fun _ _ _ h => by cases h) fun _ => trivial
  | metrics n =>
    refine Prog.Avoids.bind (names_queueId_bind n fun q => ?_) fun _ => trivial
    refine names_query_bind _ (fun _ _ _ h => by cases h) fun _ => ?_
    refine names_query_bind _ (fun _ _ _ h => by cases h) fun _ => ?_
    exact names_query_bind _ (fun _ _ _ h => by cases h) fun _ => trivial

theorem exec_queues {s : Nat} {c : MqCtx} {st : MqStmt} {r : st.Res} {db db' : MqDb}
    (hst : ∀ n d l, st ≠ .insertQueue n d l) (hx : st.exec s c db = some (r, db')) :
    db'.queues ⊆ db.queues := by
  cases st with
  | insertQueue name durable limit => exact absurd rfl (hst name durable limit)
  | deleteQueue name =>
    change (if _ then none else some _) = _ at hx
    split at hx
    · cases hx
    · obtain rfl : (db.deleteQueue name).2 = db' := congrArg Prod.snd (Option.some.inj hx)
      exact List.filter_sublist.subset
  | commit =>
    obtain rfl : db.commit s = db' := congrArg Prod.snd (Option.some.inj hx)
    unfold MqDb.commit
    split <;> exact List.Subset.refl _
  | insertMessage q payload delay =>
    obtain ⟨t, -, ⟨-, rfl⟩ | ⟨e, -, rfl⟩⟩ := insertMessage_cases hx
    · exact List.Subset.refl _
    · exact List.Subset.refl _
  | deadLetterDue q =>
    obtain rfl : (db.deadLetterDue q (db.now s c.now)).2 = db' :=
      congrArg Prod.snd (Option.some.inj hx)
    obtain ⟨sel, reason, he, -⟩ := deadLetterDue_eq db q (db.now s c.now)
    rw [he, (moveToDlq_same db sel (db.now s c.now) reason).queues]
    exact List.Subset.refl _
  | claim q n t =>
    obtain rfl : (db.claim q n t (db.now s c.now) c).2 = db' :=
      congrArg Prod.snd (Option.some.inj hx)
    obtain ⟨ms, he⟩ := claim_same db q n t (db.now s c.now) c
    rw [he]
    exact List.Subset.refl _
  | deadLetter q id reason =>
    obtain rfl : (db.deadLetter q id reason (db.now s c.now)).2 = db' :=
      congrArg Prod.snd (Option.some.inj hx)
    unfold MqDb.deadLetter
    rw [(moveToDlq_same db _ (db.now s c.now) reason).queues]
    exact List.Subset.refl _
  | reprocess q id =>
    obtain rfl : (db.reprocess q id (db.now s c.now)).2 = db' :=
      congrArg Prod.snd (Option.some.inj hx)
    unfold MqDb.reprocess
    simp only
    split <;> exact List.Subset.refl _
  | archive q id token =>
    obtain rfl : (db.archive q id token (db.now s c.now)).2 = db' :=
      congrArg Prod.snd (Option.some.inj hx)
    obtain ⟨-, -, -, hq, -⟩ := archive_spec db q id token (db.now s c.now)
    rw [hq]
    exact List.Subset.refl _
  | idle => cases hx
  | _ =>
    obtain rfl := congrArg Prod.snd (Option.some.inj hx)
    exact List.Subset.refl _

/-- every queue can be looked up by its name -/
def QueuesNamed (db : MqDb) : Prop := ∀ q ∈ db.queues, validateQueueName q.name = .ok ()

theorem QueuesNamed.of_reach {σ : MqSys} (hr : MqReach σ) : QueuesNamed σ.db := by
  refine hr.invariant_of (fun (e : MqEv) _ => ¬ e.stmt.misnames) (fun db _ => QueuesNamed db)
    (fun q hq => absurd hq List.not_mem_nil) ?_ (hr.avoids names_body).2
  intro db h s op c st r db' N hst hx q hq
  cases st with
  | insertQueue name durable limit =>
    obtain rfl : db.insertQueue name durable limit = db' := congrArg Prod.snd (Option.some.inj hx)
    unfold MqDb.insertQueue at hq
    split at hq
    · exact N q hq
    · rcases List.mem_append.mp hq with hq | hq
      · exact N q hq
      · obtain rfl := List.mem_singleton.mp hq
        by_contra hne
        exact hst ⟨name, durable, limit, rfl, hne⟩
  | _ => exact N q (exec_queues (fun _ _ _ he => by cases he) hx hq)

end PgApp
