import PgApp.Mq.Footprint
import PgApp.Mq.Sends
import PgApp.Interleave.Account

/-!
# One operation, one queue

An operation of the store looks the id of its queue up by name and then names the queue by that id
only.  In between the queue may be dropped and created again under the same name.

* `FoundQueue`    the newest lookup of a session, by which a call knows its queue;
* `QueuesApart`   one row per id and one per name in `mq_queues`;
* `Incarnations`  a queue created later has a later id;
* `Named`         what the statements of a call may name: the queue it has found, checked program by
                  program (`queueSafe_body`) on a view of the session's own rows and statements.

With the footprint of each statement this gives the main result: `mq_isolation`.
-/

namespace PgApp
open Interleave

/-! ## the queue a call works on -/

/-- the name an operation looks its queue up by -/
def MqOp.queueName : MqOp → Option String
  | .createQueue _ _ => none
  | .purgeQueue n => some n
  | .dropQueue _ => none
  | .send n _ _ => some n
  | .sendBatch n _ _ => some n
  | .read n _ _ => some n
  | .readWithPoll n _ _ _ _ _ => some n
  | .streamReadNext n _ _ _ => some n
  | .deadLetter n _ _ => some n
  | .listDlqMessages n _ _ => some n
  | .getDlqMessage n _ => some n
  | .reprocessDlqMessage n _ => some n
  | .purgeDlq n => some n
  | .sweepDlq _ => none
  | .ack n _ _ => some n
  | .archive n _ _ => some n
  | .setVisibilityTimeout n _ _ _ => some n
  | .metrics n => some n

/-- the newest lookup among a session's own statements: `call` has found the id `q` of the queue `n`
in the tables `db`, and all it has executed since are other statements -/
def FoundQueue (call : MqCall) (n : String) (q : Int) (db : MqDb) (own : List MqEv) : Prop :=
  ∃ since rest s c, own = since ++ ⟨s, call, c, .selectQueueId n, some q, db⟩ :: rest ∧
    ∀ x ∈ since, x.op = call ∧ ∀ m, x.stmt ≠ .selectQueueId m

theorem FoundQueue.cons {call : MqCall} {n : String} {q : Int} {db : MqDb} {own : List MqEv}
    (hl : FoundQueue call n q db own) {e : MqEv} (he : e.op = call)
    (hst : ∀ m, e.stmt ≠ .selectQueueId m) : FoundQueue call n q db (e :: own) := by
  obtain ⟨since, rest, s, c, rfl, hsince⟩ := hl
  refine ⟨e :: since, rest, s, c, rfl, fun x hx => ?_⟩
  rcases List.mem_cons.mp hx with rfl | hx
  · exact ⟨he, hst⟩
  · exact hsince x hx

theorem FoundQueue.unique {call : MqCall} {n n' : String} {q q' : Int} {db db' : MqDb}
    {own : List MqEv} (hl : FoundQueue call n q db own) (hl' : FoundQueue call n' q' db' own) :
    q = q' := by
  obtain ⟨since, rest, s, c, rfl, hsince⟩ := hl
  obtain ⟨since', rest', s', c', heq, hsince'⟩ := hl'
  induction since generalizing since' with
  | nil =>
    cases since' with
    | nil =>
      have h1 := (List.cons.inj heq).1
      cases h1
      rfl
    | cons x since' =>
      have h1 := (List.cons.inj heq).1
      exact absurd (congrArg Ev.stmt h1).symm ((hsince' x List.mem_cons_self).2 n)
  | cons y since ih =>
    cases since' with
    | nil =>
      have h1 := (List.cons.inj heq).1
      exact absurd (congrArg Ev.stmt h1) ((hsince y List.mem_cons_self).2 n')
    | cons x since' =>
      exact ih (fun z hz => hsince z (List.mem_cons_of_mem _ hz)) since' (List.cons.inj heq).2
        fun z hz => hsince' z (List.mem_cons_of_mem _ hz)

/-- `call` has looked its queue up and found `q` -/
def Resolved (call : MqCall) (q : Int) (own : List MqEv) : Prop :=
  ∃ n db, call.op.queueName = some n ∧ FoundQueue call n q db own

/-! ## what a session knows of its queue -/

/-- the queues of the rows in the session's transaction, and its own statements -/
abbrev QueueView := List Int × List MqEv

def queueView (s : Nat) (db : MqDb) (h : List MqEv) : QueueView :=
    (db.pendingQueues s, ownEvents s h)

/-- the queues of the transaction after a statement -/
def MqStmt.queuesHeld : MqStmt → List Int → List Int
  | .begin, _ => []
  | .commit, _ => []
  | .rollback, _ => []
  | .insertMessage q _ _, l => l ++ [q]
  | _, l => l

def QueueMove (call : MqCall) (st : MqStmt) (r : st.Res) (γ γ' : QueueView) : Prop :=
  (∀ p ∈ γ'.1, p ∈ st.queuesHeld γ.1) ∧ OwnMove call st r γ.2 γ'.2

/-- a statement names only the queue its call has found, and so do the rows it commits; the two
statements that reach across queues are issued by the operations they belong to -/
structure Named (call : MqCall) (st : MqStmt) (γ : QueueView) : Prop where
  queue : ∀ q, st.queue = some q → Resolved call q γ.2
  commits : st = .commit → ∀ q ∈ γ.1, Resolved call q γ.2
  looks : ∀ n, st = .selectQueueId n → call.op.queueName = some n
  drops : ∀ n, st = .deleteQueue n → call.op = .dropQueue n
  sweeps : ∀ k, st = .sweepDlq k → call.op = .sweepDlq k

theorem pendingQueues_own {s : Nat} {c : MqCtx} {st : MqStmt} {r : st.Res} {db db' : MqDb}
    (hx : st.exec s c db = some (r, db')) :
    ∀ p ∈ db'.pendingQueues s, p ∈ st.queuesHeld (db.pendingQueues s) := by
  intro p hp
  cases hst : st.isTx with
  | false =>
    unfold MqDb.pendingQueues at hp ⊢
    rw [exec_txs hst hx] at hp
    cases st <;> first | exact hp | exact absurd hst (by decide) |
      exact absurd hst (by simp [MqStmt.isTx])
  | true =>
    cases st with
    | begin =>
      obtain rfl : db.begin s c.now = db' := congrArg Prod.snd (Option.some.inj hx)
      unfold MqDb.pendingQueues MqDb.begin at hp
      rw [Slots.get_set_self] at hp
      exact hp
    | commit =>
      obtain rfl : db.commit s = db' := congrArg Prod.snd (Option.some.inj hx)
      unfold MqDb.pendingQueues MqDb.commit at hp
      cases hg : db.txs.get s with
      | none =>
        simp only [hg] at hp
        exact hp
      | some t =>
        simp only [hg, Slots.get_erase_self] at hp
        exact hp
    | rollback =>
      obtain rfl : db.rollback s = db' := congrArg Prod.snd (Option.some.inj hx)
      unfold MqDb.pendingQueues MqDb.rollback at hp
      rw [Slots.get_erase_self] at hp
      exact hp
    | insertMessage q payload delay =>
      obtain ⟨t, hg, ⟨rfl, rfl⟩ | ⟨e, rfl, rfl⟩⟩ := insertMessage_cases hx
      · unfold MqDb.pendingQueues at hp ⊢
        rw [Slots.get_set_self] at hp
        rw [hg]
        simpa [MqStmt.queuesHeld, newMessage] using hp
      · exact List.mem_append_left _ hp
    | _ => exact absurd hst (by simp [MqStmt.isTx])

theorem pendingQueues_other {s t : Nat} {c : MqCtx} {st : MqStmt} {r : st.Res} {db db' : MqDb}
    (ht : t ≠ s) (hx : st.exec s c db = some (r, db')) :
    db'.pendingQueues t = db.pendingQueues t := by
  unfold MqDb.pendingQueues
  rw [exec_txs_other ht hx]

/-! ## incarnations -/

/-- what a statement makes of `mq_queues`: nothing, or a name goes, or a row comes with the next id
of the sequence -/
structure QueueMoves (st : MqStmt) (db db' : MqDb) : Prop where
  next : db.nextQueueId ≤ db'.nextQueueId
  rows : db'.queues = db.queues ∨
    (∃ name, st = .deleteQueue name ∧ db'.queues = db.queues.filter (·.name != name)) ∨
    ∃ x, db'.queues = db.queues ++ [x] ∧ x.id = db.nextQueueId ∧ x.id < db'.nextQueueId ∧
      ∀ y ∈ db.queues, y.name ≠ x.name

theorem QueueMoves.same {st : MqStmt} {db db' : MqDb} (h1 : db'.queues = db.queues)
    (h2 : db'.nextQueueId = db.nextQueueId) : QueueMoves st db db' :=
  ⟨le_of_eq h2.symm, .inl h1⟩

theorem QueueMoves.cases {st : MqStmt} {db db' : MqDb} (R : QueueMoves st db db') :
    db'.queues.Sublist db.queues ∨ ∃ x, db'.queues = db.queues ++ [x] ∧ x.id = db.nextQueueId ∧
      x.id < db'.nextQueueId ∧ ∀ y ∈ db.queues, y.name ≠ x.name := by
  rcases R.rows with h | ⟨name, -, h⟩ | h
  · exact .inl (h ▸ List.Sublist.refl _)
  · exact .inl (h ▸ List.filter_sublist)
  · exact .inr h

theorem exec_queueMoves {s : Nat} {c : MqCtx} {st : MqStmt} {r : st.Res} {db db' : MqDb}
    (hx : st.exec s c db = some (r, db')) : QueueMoves st db db' := by
  cases st with
  | insertQueue name durable limit =>
    obtain rfl : db.insertQueue name durable limit = db' := congrArg Prod.snd (Option.some.inj hx)
    have hlt : db.nextQueueId < db.nextQueueId + 1 := by omega
    unfold MqDb.insertQueue
    split
    · exact ⟨le_of_lt hlt, .inl rfl⟩
    · rename_i hno
      refine ⟨le_of_lt hlt, .inr <| .inr ⟨_, rfl, rfl, hlt, fun y hy he => hno ?_⟩⟩
      exact List.any_eq_true.mpr ⟨y, hy, by simpa using he⟩
  | deleteQueue name =>
    change (if _ then none else some _) = _ at hx
    split at hx
    · exact absurd hx (by simp)
    · obtain rfl : (db.deleteQueue name).2 = db' := congrArg Prod.snd (Option.some.inj hx)
      exact ⟨le_refl _, .inr <| .inl ⟨name, rfl, rfl⟩⟩
  | commit =>
    obtain rfl : db.commit s = db' := congrArg Prod.snd (Option.some.inj hx)
    unfold MqDb.commit
    cases db.txs.get s with
    | none => exact .same rfl rfl
    | some t => exact .same rfl rfl
  | insertMessage q payload delay =>
    obtain ⟨t, -, ⟨-, rfl⟩ | ⟨e, -, rfl⟩⟩ := insertMessage_cases hx
    · exact .same rfl rfl
    · exact .same rfl rfl
  | deadLetterDue q =>
    obtain rfl : (db.deadLetterDue q (db.now s c.now)).2 = db' :=
      congrArg Prod.snd (Option.some.inj hx)
    obtain ⟨sel, reason, he, -⟩ := deadLetterDue_eq db q (db.now s c.now)
    have hm := moveToDlq_same db sel (db.now s c.now) reason
    rw [← he] at hm
    exact .same hm.queues hm.nextQueueId
  | claim q n t =>
    obtain rfl : (db.claim q n t (db.now s c.now) c).2 = db' :=
      congrArg Prod.snd (Option.some.inj hx)
    obtain ⟨ms, he⟩ := claim_same db q n t (db.now s c.now) c
    rw [he]
    exact .same rfl rfl
  | deadLetter q id reason =>
    obtain rfl : (db.deadLetter q id reason (db.now s c.now)).2 = db' :=
      congrArg Prod.snd (Option.some.inj hx)
    have hm := moveToDlq_same db (fun m => m.queueId == q && m.id == id) (db.now s c.now) reason
    exact .same hm.queues hm.nextQueueId
  | reprocess q id =>
    obtain rfl : (db.reprocess q id (db.now s c.now)).2 = db' :=
      congrArg Prod.snd (Option.some.inj hx)
    unfold MqDb.reprocess
    simp only
    split
    · exact .same rfl rfl
    · exact .same rfl rfl
  | archive q id token =>
    obtain rfl : (db.archive q id token (db.now s c.now)).2 = db' :=
      congrArg Prod.snd (Option.some.inj hx)
    obtain ⟨-, -, -, h1, -, -, h2⟩ := archive_spec db q id token (db.now s c.now)
    exact .same h1 h2
  | idle => exact absurd hx (by simp [MqStmt.exec])
  | _ =>
    obtain rfl := congrArg Prod.snd (Option.some.inj hx)
    exact .same rfl rfl

theorem QueueMoves.mem {st : MqStmt} {db db' : MqDb} (R : QueueMoves st db db') {x : QueueRow}
    (hx : x ∈ db'.queues) :
    x ∈ db.queues ∨ (x.id = db.nextQueueId ∧ x.id < db'.nextQueueId) := by
  rcases R.cases with h | ⟨y, he, hid, hlt, -⟩
  · exact .inl (h.subset hx)
  · rw [he] at hx
    rcases List.mem_append.mp hx with hx | hx
    · exact .inl hx
    · obtain rfl := List.mem_singleton.mp hx
      exact .inr ⟨hid, hlt⟩

/-- `mq_queues` has one row per id and one per name, and the sequence is beyond them -/
structure QueuesApart (db : MqDb) : Prop where
  ids : (db.queues.map (·.id)).Nodup
  names : (db.queues.map (·.name)).Nodup
  drawn : ∀ x ∈ db.queues, x.id < db.nextQueueId

namespace QueuesApart

theorem step {st : MqStmt} {db db' : MqDb} (Q : QueuesApart db) (R : QueueMoves st db db') :
    QueuesApart db' := by
  refine ⟨?_, ?_, fun x hx => ?_⟩
  · rcases R.cases with h | ⟨x, he, hid, -, -⟩
    · exact Q.ids.sublist (h.map _)
    · rw [he, List.map_append, List.nodup_append']
      refine ⟨Q.ids, List.nodup_singleton _, fun i hi hx => ?_⟩
      obtain ⟨y, hy, rfl⟩ := List.mem_map.mp hi
      have h1 : y.id = x.id := List.mem_singleton.mp hx
      have h2 := Q.drawn y hy
      omega
  · rcases R.cases with h | ⟨x, he, -, -, hne⟩
    · exact Q.names.sublist (h.map _)
    · rw [he, List.map_append, List.nodup_append']
      refine ⟨Q.names, List.nodup_singleton _, fun n hn hx => ?_⟩
      obtain ⟨y, hy, rfl⟩ := List.mem_map.mp hn
      exact hne y hy (List.mem_singleton.mp hx)
  · rcases R.mem hx with h | ⟨-, h⟩
    · exact lt_of_lt_of_le (Q.drawn x h) R.next
    · exact h

theorem empty : QueuesApart MqDb.empty :=
  ⟨List.nodup_nil, List.nodup_nil, fun _ hx => absurd hx List.not_mem_nil⟩

theorem of_reach {σ : MqSys} (hr : MqReach σ) : QueuesApart σ.db := by
  refine hr.invariant (fun db _ => QueuesApart db) empty ?_
  intro db h s op c st r db' Q hx
  exact Q.step (exec_queueMoves hx)

section
variable {db : MqDb} (Q : QueuesApart db) {x y : QueueRow} (hx : x ∈ db.queues)

include Q hx

theorem eq_of_id (hy : y ∈ db.queues) (h : y.id = x.id) : y = x :=
  List.inj_on_of_nodup_map Q.ids hy hx h

theorem eq_of_name (hy : y ∈ db.queues) (h : y.name = x.name) : y = x :=
  List.inj_on_of_nodup_map Q.names hy hx h

theorem selectQueueId : db.selectQueueId x.name = some x.id := by
  unfold MqDb.selectQueueId
  cases hf : db.queues.find? (·.name == x.name) with
  | none => exact absurd (beq_self_eq_true x.name) (List.find?_eq_none.mp hf x hx)
  | some y =>
    obtain rfl := Q.eq_of_name hx (List.mem_of_find?_eq_some hf) (by simpa using List.find?_some hf)
    rfl

theorem limitOf : db.limitOf x.id = some (x.maxRedeliveryCount.getD 0) := by
  unfold MqDb.limitOf
  cases hf : db.queues.find? (·.id == x.id) with
  | none => exact absurd (beq_self_eq_true x.id) (List.find?_eq_none.mp hf x hx)
  | some y =>
    obtain rfl := Q.eq_of_id hx (List.mem_of_find?_eq_some hf) (by simpa using List.find?_some hf)
    rfl

end

end QueuesApart

/-- a queue that was not there when a statement ran has an id the sequence had not drawn then, and a
lookup has found a queue that was there -/
structure Incarnations (db : MqDb) (h : List MqEv) : Prop where
  drawn : ∀ x ∈ db.queues, x.id < db.nextQueueId
  grown : ∀ d ∈ h, d.pre.nextQueueId ≤ db.nextQueueId
  later : ∀ d ∈ h, ∀ x ∈ db.queues, x ∈ d.pre.queues ∨ d.pre.nextQueueId ≤ x.id
  found : ∀ s call c n q pre, ⟨s, call, c, .selectQueueId n, some q, pre⟩ ∈ h →
    q < pre.nextQueueId ∧ call.op.queueName = some n

theorem Incarnations.empty : Incarnations MqDb.empty [] where
  drawn := fun _ hx => absurd hx List.not_mem_nil
  grown := fun _ hd => absurd hd List.not_mem_nil
  later := fun _ hd => absurd hd List.not_mem_nil
  found := fun _ _ _ _ _ _ hd => absurd hd List.not_mem_nil

theorem Incarnations.step {s : Nat} {call : MqCall} {c : MqCtx} {st : MqStmt} {r : st.Res}
    {db db' : MqDb} {h : List MqEv} (I : Incarnations db h)
    (hlook : ∀ n, st = .selectQueueId n → call.op.queueName = some n)
    (hx : st.exec s c db = some (r, db')) :
    Incarnations db' (⟨s, call, c, st, r, db⟩ :: h) := by
  have hnext := (exec_queueMoves hx).next
  have hq : ∀ x ∈ db'.queues, _ := fun x hx' => (exec_queueMoves hx).mem hx'
  refine ⟨fun x hx' => ?_, fun d hd => ?_, fun d hd x hx' => ?_, ?_⟩
  · rcases hq x hx' with h1 | ⟨-, h1⟩
    · exact lt_of_lt_of_le (I.drawn x h1) hnext
    · exact h1
  · rcases List.mem_cons.mp hd with rfl | hd
    · exact hnext
    · exact le_trans (I.grown d hd) hnext
  · rcases List.mem_cons.mp hd with rfl | hd
    · exact (hq x hx').imp id fun h1 => le_of_eq h1.1.symm
    · rcases hq x hx' with h1 | ⟨h1, -⟩
      · exact I.later d hd x h1
      · exact .inr (h1 ▸ I.grown d hd)
  · intro s' call' c' n q pre hd
    rcases List.mem_cons.mp hd with he | hd
    · cases he
      have h1 : db.selectQueueId n = some q := congrArg Prod.fst (Option.some.inj hx)
      obtain ⟨x, hf, rfl⟩ := Option.map_eq_some_iff.mp h1
      exact ⟨I.drawn x (List.mem_of_find?_eq_some hf), hlook n rfl⟩
    · exact I.found s' call' c' n q pre hd

theorem FoundQueue.mem {call : MqCall} {n : String} {q : Int} {db : MqDb} {s : Nat} {h : List MqEv}
    (hl : FoundQueue call n q db (ownEvents s h)) :
    ∃ s' c, ⟨s', call, c, .selectQueueId n, some q, db⟩ ∈ h := by
  obtain ⟨since, rest, s', c, heq, -⟩ := hl
  refine ⟨s', c, List.mem_of_mem_filter (p := (·.sess == s)) ?_⟩
  have h1 : ownEvents s h = h.filter (·.sess == s) := rfl
  rw [← h1, heq]
  exact List.mem_append_right _ List.mem_cons_self

theorem Incarnations.fresh {db pre : MqDb} {h : List MqEv} (I : Incarnations db h) {call : MqCall}
    {n : String} {q : Int} {s : Nat} (hl : FoundQueue call n q pre (ownEvents s h)) {x : QueueRow}
    (hx : x ∈ db.queues) (hnew : x ∉ pre.queues) : x.id ≠ q := by
  obtain ⟨s', c, hd⟩ := hl.mem
  obtain ⟨h1, -⟩ := I.found _ _ _ _ _ _ hd
  rcases I.later _ hd x hx with h2 | h2
  · exact absurd h2 hnew
  · intro hid
    have h3 : pre.nextQueueId ≤ x.id := h2
    omega

theorem queueView_rules : Rules MqStmt.exec MqDb.empty
    (fun db h => MqLedger db h ∧ Incarnations db h) queueView Named QueueMove
    (fun γ => γ.1 = []) where
  first := ⟨MqLedger.empty, Incarnations.empty⟩
  keep := fun _ _ _ _ _ _ _ _ hg hp hx => ⟨hg.1.step hx, hg.2.step hp.looks hx⟩
  own := fun db _ s _ c _ _ _ _ _ hx =>
    ⟨pendingQueues_own hx, s, c, db, ownEvents_cons_self rfl⟩
  other := fun _ _ _ _ _ _ _ _ _ ht _ _ hx =>
    Prod.ext (pendingQueues_other ht hx) (ownEvents_cons_ne (Ne.symm ht))
  init := fun _ => rfl

/-! ## the programs -/

/-- the statements that do not go by the id of one queue -/
def MqStmt.global : MqStmt → Bool
  | .insertQueue _ _ _ => true
  | .selectQueueId _ => true
  | .deleteQueue _ => true
  | .sweepDlq _ => true
  | _ => false

/-- the statement has no place in a call that works on queue `q` -/
def MqStmt.Strays (q : Int) (st : MqStmt) : Prop :=
  st.global = true ∨ ∃ p, st.queue = some p ∧ p ≠ q

/-- the call has found queue `q` and has only rows of it in its transaction -/
def AtQueue (call : MqCall) (q : Int) (γ : QueueView) : Prop :=
  Resolved call q γ.2 ∧ ∀ p ∈ γ.1, p = q

section
variable {call : MqCall} {q : Int} {γ γ' : QueueView}

theorem not_strays {st : MqStmt} (hq : st.queue = some q) : ¬ st.Strays q := by
  intro h
  rcases h with hg | ⟨p, hp, hne⟩
  · cases st <;> simp [MqStmt.global, MqStmt.queue] at hg hq
  · exact hne (Option.some.inj (hp.symm.trans hq))

theorem not_strays_none (st : MqStmt) (hq : st.queue = none) (hg : st.global = false) :
    ¬ st.Strays q := by
  intro hex
  rcases hex with h | ⟨p, hp, -⟩
  · rw [hg] at h
    cases h
  · rw [hq] at hp
    cases hp

theorem mem_queuesHeld {st : MqStmt} {l : List Int} {p : Int} (hp : p ∈ st.queuesHeld l) :
    p ∈ l ∨ st.queue = some p := by
  cases st with
  | insertMessage q payload delay =>
    rcases List.mem_append.mp hp with hp | hp
    · exact .inl hp
    · rw [List.mem_singleton.mp hp]
      exact .inr rfl
  | begin => exact absurd hp List.not_mem_nil
  | commit => exact absurd hp List.not_mem_nil
  | rollback => exact absurd hp List.not_mem_nil
  | _ => exact .inl hp

theorem AtQueue.step {st : MqStmt} (ha : AtQueue call q γ) (hs : ¬ st.Strays q) :
    Named call st γ ∧ ∀ r γ', QueueMove call st r γ γ' → AtQueue call q γ' := by
  obtain ⟨⟨n, db, hn, hl⟩, hpend⟩ := ha
  have hq : ∀ p, st.queue = some p → p = q := fun p hp => by
    by_contra hne
    exact hs (.inr ⟨p, hp, hne⟩)
  refine ⟨⟨fun p hp => ?_, fun _ p hp => ?_, ?_, ?_, ?_⟩, fun r γ' hm => ⟨?_, fun p hp => ?_⟩⟩
  · rw [hq p hp]
    exact ⟨n, db, hn, hl⟩
  · rw [hpend p hp]
    exact ⟨n, db, hn, hl⟩
  · rintro m rfl
    exact absurd (.inl rfl) hs
  · rintro m rfl
    exact absurd (.inl rfl) hs
  · rintro k rfl
    exact absurd (.inl rfl) hs
  · obtain ⟨-, s, c, pre, heq⟩ := hm
    refine ⟨n, db, hn, ?_⟩
    rw [heq]
    refine hl.cons rfl fun m hst => hs (.inl ?_)
    have hst' : st = .selectQueueId m := hst
    rw [hst']
    rfl
  · rcases mem_queuesHeld (hm.1 p hp) with h1 | h1
    · exact hpend p h1
    · exact hq p h1

/-- a program that keeps to the rules of its session and leaves no transaction open -/
abbrev QueueSafe {α : Type} (call : MqCall) (p : MqProg α) (γ : QueueView) : Prop :=
  Safe (Named call) (QueueMove call) (fun _ γ' => γ'.1 = []) p γ

theorem QueueSafe.plain {α : Type} {p : MqProg α}
    (h : p.Avoids fun st => st.Strays q ∨ st.isTx = true) (ha : AtQueue call q γ)
    (hγ : γ.1 = []) : QueueSafe call p γ := by
  refine Safe.mono (Prog.Avoids.safe (I := fun γ => AtQueue call q γ ∧ γ.1 = []) ?_ h ⟨ha, hγ⟩)
    fun _ _ hI => hI.2
  intro st γ hst hI
  obtain ⟨hn, hstep⟩ := hI.1.step fun hs => hst (.inl hs)
  refine ⟨hn, fun r γ' hm => ⟨hstep r γ' hm, ?_⟩⟩
  have htx : st.queuesHeld γ.1 = γ.1 := by
    cases st <;> first | rfl | exact absurd (.inr rfl) hst
  rw [List.eq_nil_iff_forall_not_mem]
  intro p hp
  have h1 := hm.1 p hp
  rw [htx, hI.2] at h1
  exact List.not_mem_nil h1

theorem QueueSafe.tx {α : Type} {p : MqProg α} (h : p.Avoids fun st => st.Strays q)
    (ha : AtQueue call q γ) : QueueSafe call (inTx p) γ := by
  have hclosed : ∀ {st : MqStmt} {r : st.Res} {γ γ' : QueueView}, st.queuesHeld γ.1 = [] →
      QueueMove call st r γ γ' → γ'.1 = [] := by
    intro st r γ γ' hh hm
    rw [List.eq_nil_iff_forall_not_mem]
    intro p hp
    have h1 := hm.1 p hp
    rw [hh] at h1
    exact List.not_mem_nil h1
  obtain ⟨hn, hstep⟩ := ha.step (not_strays_none .begin rfl rfl)
  refine ⟨hn, fun r γ₁ hm => ?_⟩
  have hbody : Safe (Named call) (QueueMove call) (fun _ γ' => AtQueue call q γ') p γ₁ := by
    refine Prog.Avoids.safe ?_ h (hstep r γ₁ hm)
    intro st γ hst hI
    exact hI.step hst
  refine Safe.bracket hbody ?_ ?_
  · intro a γ₂ ha₂
    exact ⟨(ha₂.step (not_strays_none .commit rfl rfl)).1, fun r γ' => hclosed rfl⟩
  · intro e γ₂ ha₂
    exact ⟨(ha₂.step (not_strays_none .rollback rfl rfl)).1, fun r γ' => hclosed rfl⟩

/-- a statement that names no queue, outside a transaction -/
theorem QueueSafe.issue {α : Type} {st : MqStmt} {k : st.Res → MqProg α} (hγ : γ.1 = [])
    (hq : st.queue = none) (htx : st.isTx = false)
    (hlook : ∀ n, st = .selectQueueId n → call.op.queueName = some n)
    (hdrop : ∀ n, st = .deleteQueue n → call.op = .dropQueue n)
    (hsweep : ∀ d, st = .sweepDlq d → call.op = .sweepDlq d)
    (hk : ∀ r γ', QueueMove call st r γ γ' → γ'.1 = [] → QueueSafe call (k r) γ') :
    QueueSafe call (.exec st k) γ := by
  refine ⟨⟨fun q hq' => ?_, ?_, hlook, hdrop, hsweep⟩, fun r γ' hm => hk r γ' hm ?_⟩
  · rw [hq] at hq'
    cases hq'
  · rintro rfl
    cases htx
  · rw [List.eq_nil_iff_forall_not_mem]
    intro p hp
    rcases mem_queuesHeld (hm.1 p hp) with h1 | h1
    · rw [hγ] at h1
      exact List.not_mem_nil h1
    · rw [hq] at h1
      cases h1

theorem QueueSafe.pause {α : Type} {st : MqStmt} {k : st.Res → MqProg α} (hγ : γ.1 = [])
    (hq : st.queue = none) (hg : st.global = false) (htx : st.isTx = false)
    (hk : ∀ r γ', γ'.1 = [] → QueueSafe call (k r) γ') : QueueSafe call (.exec st k) γ := by
  refine QueueSafe.issue hγ hq htx ?_ ?_ ?_ fun r γ' _ => hk r γ'
  · rintro n rfl
    cases hg
  · rintro n rfl
    cases hg
  · rintro d rfl
    cases hg

theorem QueueSafe.lookup {α : Type} {n : String} (hn : call.op.queueName = some n)
    {k : Int → MqProg α} (hγ : γ.1 = [])
    (hk : ∀ q γ', AtQueue call q γ' → γ'.1 = [] → QueueSafe call (k q) γ') :
    QueueSafe call (queueId n >>= k) γ := by
  unfold queueId
  cases hc : validateQueueName n with
  | error e => exact hγ
  | ok u =>
    refine QueueSafe.issue hγ rfl rfl ?_ ?_ ?_ fun r γ' hm hnil => ?_
    · intro m hm
      cases hm
      exact hn
    · intro m hm
      cases hm
    · intro d hd
      cases hd
    · cases r with
      | none => exact hnil
      | some q =>
        obtain ⟨-, s, c, pre, heq⟩ := hm
        refine hk q γ' ⟨⟨n, pre, hn, [], γ.2, s, c, heq, fun x hx => ?_⟩, fun p hp => ?_⟩ hnil
        · exact absurd hx List.not_mem_nil
        · rw [hnil] at hp
          exact absurd hp List.not_mem_nil

theorem QueueSafe.bind {α β : Type} {p : MqProg α} {f : α → MqProg β} (h : QueueSafe call p γ)
    (hf : ∀ a γ', γ'.1 = [] → QueueSafe call (f a) γ') : QueueSafe call (p >>= f) γ :=
  Safe.bind h hf fun _ _ hγ => hγ

theorem QueueSafe.check {α β : Type} {r : PgAppResult α} {f : α → MqProg β} (hγ : γ.1 = [])
    (hf : ∀ a, QueueSafe call (f a) γ) : QueueSafe call (Prog.check r >>= f) γ :=
  Safe.check_bind (fun a _ => hf a) fun _ => hγ

theorem onQueue {st : MqStmt} (hq : st.queue = some q) (htx : st.isTx = false) :
    ¬ (st.Strays q ∨ st.isTx = true) := by
  intro h
  rcases h with hs | ht
  · exact not_strays hq hs
  · rw [htx] at ht
    cases ht

theorem orFail_avoids {α : Type} {bad : MqStmt → Prop} (r : Except SqlError α) :
    (orFail r : MqProg α).Avoids bad := trivial

theorem notifyQueue_avoids (n : String) (k : Nat) :
    (notifyQueue n k).Avoids fun st => st.Strays q :=
  Prog.Avoids.check fun _ => ⟨not_strays_none _ rfl rfl, fun r => orFail_avoids r⟩

theorem insertAll_avoids (delay : Int) (payloads : List Json) (ids : List Int) :
    (insertAll q delay payloads ids).Avoids fun st => st.Strays q := by
  induction payloads generalizing ids with
  | nil => exact trivial
  | cons payload rest ih =>
    refine ⟨not_strays rfl, fun r => ?_⟩
    cases r with
    | error e => exact trivial
    | ok id => exact ih (ids ++ [id])

theorem queueSafe_sendValue {n : String} (hn : call.op.queueName = some n) (payload : Json)
    (delay : Int) (hγ : γ.1 = []) : QueueSafe call (sendValue n payload delay) γ := by
  refine QueueSafe.check hγ fun _ => QueueSafe.lookup hn hγ fun q γ' ha _ => QueueSafe.tx ?_ ha
  refine ⟨not_strays rfl, fun r => ?_⟩
  cases r with
  | error e => exact trivial
  | ok id =>
    show (notifyQueue n 1 >>= fun _ => pure id : MqProg Int).Avoids _
    exact Prog.Avoids.bind (notifyQueue_avoids n 1) fun _ => trivial

theorem queueSafe_sendBatch {n : String} (hn : call.op.queueName = some n) (store : MqStore)
    (payloads : List String) (delay : Int) (hγ : γ.1 = []) :
    QueueSafe call (store.sendBatch n payloads delay) γ := by
  refine QueueSafe.check hγ fun _ => QueueSafe.check hγ fun _ => ?_
  show QueueSafe call (if payloads.isEmpty then pure [] else _) γ
  split
  · exact hγ
  · refine QueueSafe.lookup hn hγ fun q γ' ha hγ' => QueueSafe.check hγ' fun values => ?_
    refine QueueSafe.tx (Prog.Avoids.bind (insertAll_avoids delay values []) fun ids => ?_) ha
    exact Prog.Avoids.bind (notifyQueue_avoids n ids.length) fun _ => trivial

theorem queueSafe_read {n : String} (hn : call.op.queueName = some n) (store : MqStore)
    (quantity timeout : Int) (hγ : γ.1 = []) :
        QueueSafe call (store.read n quantity timeout) γ := by
  refine QueueSafe.check hγ fun _ => QueueSafe.check hγ fun _ => QueueSafe.check hγ fun _ => ?_
  refine QueueSafe.lookup hn hγ fun q γ' ha hγ' => QueueSafe.plain (q := q) ?_ ha hγ'
  exact ⟨onQueue rfl rfl, fun _ => ⟨onQueue rfl rfl, fun r => orFail_avoids r⟩⟩

theorem queueSafe_pollLoop {n : String} (hn : call.op.queueName = some n) (store : MqStore)
    (quantity timeout : Int) (interval deadline : Time) (rounds : Nat) (hγ : γ.1 = []) :
    QueueSafe call (store.pollLoop n quantity timeout interval deadline rounds) γ := by
  induction rounds generalizing γ with
  | zero => exact QueueSafe.pause hγ rfl rfl rfl fun _ _ h => h
  | succ rounds ih =>
    refine QueueSafe.bind (queueSafe_read hn store quantity timeout hγ) fun messages γ₁ h1 => ?_
    show QueueSafe call (if messages.isEmpty then _ else _) γ₁
    split
    · refine QueueSafe.pause h1 rfl rfl rfl fun now γ₂ h2 => ?_
      show QueueSafe call (if deadline ≤ now then _ else _) γ₂
      split
      · exact h2
      · exact QueueSafe.pause h2 rfl rfl rfl fun _ _ h3 => ih h3
    · exact h1

theorem queueSafe_streamReadNext {n : String} (hn : call.op.queueName = some n) (store : MqStore)
    (quantity timeout : Int) (rounds : Nat) (hγ : γ.1 = []) :
    QueueSafe call (store.streamReadNext n quantity timeout rounds) γ := by
  induction rounds generalizing γ with
  | zero => exact QueueSafe.pause hγ rfl rfl rfl fun _ _ h => h
  | succ rounds ih =>
    refine QueueSafe.bind (queueSafe_read hn store quantity timeout hγ) fun messages γ₁ h1 => ?_
    show QueueSafe call (if messages.isEmpty then _ else _) γ₁
    split
    · exact QueueSafe.pause h1 rfl rfl rfl fun _ _ h2 => ih h2
    · exact h1

/-- **Every call works on the queue it has looked up.** -/
theorem queueSafe_body (call : MqCall) (γ : QueueView) (hγ : γ.1 = []) :
    QueueSafe call call.body γ := by
  obtain ⟨store, op⟩ := call
  have done : ∀ {α : Type} {p : MqProg α} {f : α → MqReturn}, QueueSafe ⟨store, op⟩ p γ →
      QueueSafe ⟨store, op⟩ (p >>= fun a => pure (f a)) γ :=
    fun h => QueueSafe.bind h fun _ _ h' => h'
  cases op with
  | createQueue n mode =>
    refine done (f := fun _ => .unit) (QueueSafe.check hγ fun _ => ?_)
    show QueueSafe _ (if _ then _ else _) γ
    split
    · exact hγ
    · refine QueueSafe.issue hγ rfl rfl ?_ ?_ ?_ fun r γ' _ h => h
      · exact fun _ h => by cases h
      · exact fun _ h => by cases h
      · exact fun _ h => by cases h
  | purgeQueue n =>
    refine done (f := fun _ => .unit) (QueueSafe.lookup rfl hγ fun q γ' ha hγ' => ?_)
    exact QueueSafe.plain (q := q) ⟨onQueue rfl rfl, fun _ => trivial⟩ ha hγ'
  | dropQueue n =>
    refine done (f := fun _ => .unit) (QueueSafe.check hγ fun _ => ?_)
    refine QueueSafe.issue hγ rfl rfl ?_ ?_ ?_ fun deleted γ' _ h => ?_
    · exact fun _ h => by cases h
    · exact fun m h => by cases h; rfl
    · exact fun _ h => by cases h
    · show QueueSafe _ (if deleted = 0 then _ else _) γ'
      split
      · exact h
      · exact h
  | send n p d =>
    refine done (f := .id) (QueueSafe.check hγ fun _ => QueueSafe.check hγ fun payload => ?_)
    exact queueSafe_sendValue rfl payload d hγ
  | sendBatch n ps d => exact done (f := .ids) (queueSafe_sendBatch rfl store ps d hγ)
  | read n k t => exact done (f := .messages) (queueSafe_read rfl store k t hγ)
  | readWithPoll n k t mx i rounds =>
    refine done (f := .messages) (QueueSafe.check hγ fun _ => QueueSafe.check hγ fun _ =>
      QueueSafe.check hγ fun _ => QueueSafe.check hγ fun _ => ?_)
    refine QueueSafe.pause hγ rfl rfl rfl fun now γ' h => ?_
    exact MqStore.pollUntil_of (P := fun p => QueueSafe _ p γ')
      (fun deadline rounds => queueSafe_pollLoop rfl store k t _ deadline rounds h) _ rounds
  | streamReadNext n k t rounds =>
    exact done (f := .messages) (queueSafe_streamReadNext rfl store k t rounds hγ)
  | deadLetter n id reason =>
    refine done (f := .bool) (QueueSafe.lookup rfl hγ fun q γ' ha hγ' => ?_)
    exact QueueSafe.plain (q := q) ⟨onQueue rfl rfl, fun _ => trivial⟩ ha hγ'
  | listDlqMessages n l o =>
    refine done (f := .dlqPage) (QueueSafe.lookup rfl hγ fun q γ' ha hγ' => ?_)
    refine QueueSafe.plain (q := q) ?_ ha hγ'
    show Prog.Avoids _ (if o < 0 then _ else _)
    split
    · exact trivial
    · refine Prog.Avoids.check fun limit => ⟨onQueue rfl rfl, fun r => ?_⟩
      cases r <;> exact trivial
  | getDlqMessage n id =>
    refine done (f := .dlqMessage) (QueueSafe.lookup rfl hγ fun q γ' ha hγ' => ?_)
    refine QueueSafe.plain (q := q) ⟨onQueue rfl rfl, fun r => ?_⟩ ha hγ'
    cases r <;> exact trivial
  | reprocessDlqMessage n id =>
    refine done (f := .bool) (QueueSafe.lookup rfl hγ fun q γ' ha _ => ?_)
    refine QueueSafe.tx ⟨not_strays rfl, fun r => ?_⟩ ha
    cases r <;> exact trivial
  | purgeDlq n =>
    refine done (f := .count) (QueueSafe.lookup rfl hγ fun q γ' ha hγ' => ?_)
    exact QueueSafe.plain (q := q) ⟨onQueue rfl rfl, fun _ => trivial⟩ ha hγ'
  | sweepDlq d =>
    refine done (f := .count) ?_
    unfold sweepDlq
    split
    · exact hγ
    · refine QueueSafe.issue hγ rfl rfl ?_ ?_ ?_ fun _ γ' _ h => h
      · exact fun _ h => by cases h
      · exact fun _ h => by cases h
      · exact fun _ h => by cases h; rfl
  | ack n id tok =>
    refine done (f := .bool) (QueueSafe.check hγ fun _ => QueueSafe.lookup rfl hγ
      fun q γ' ha hγ' => ?_)
    exact QueueSafe.plain (q := q) ⟨onQueue rfl rfl, fun _ => trivial⟩ ha hγ'
  | archive n id tok =>
    refine done (f := .bool) (QueueSafe.check hγ fun _ => QueueSafe.lookup rfl hγ
      fun q γ' ha _ => ?_)
    exact QueueSafe.tx ⟨not_strays rfl, fun _ => trivial⟩ ha
  | setVisibilityTimeout n id tok t =>
    refine done (f := .bool) (QueueSafe.check hγ fun _ => QueueSafe.check hγ fun _ =>
      QueueSafe.check hγ fun _ => QueueSafe.lookup rfl hγ fun q γ' ha hγ' => ?_)
    exact QueueSafe.plain (q := q) ⟨onQueue rfl rfl, fun _ => trivial⟩ ha hγ'
  | metrics n =>
    refine done (f := .metrics) (QueueSafe.lookup rfl hγ fun q γ' ha hγ' => ?_)
    exact QueueSafe.plain (q := q) ⟨onQueue rfl rfl, fun _ => ⟨onQueue rfl rfl, fun _ =>
      ⟨onQueue rfl rfl, fun _ => trivial⟩⟩⟩ ha hγ'

end

/-! ## isolation -/

/-- what the executed statement `e` can touch, after the statements `h` -/
structure Isolated (e : MqEv) (h : List MqEv) : Prop where
  /-- the queue its call has looked up; a queue it drops by name; or it is the sweep of old dead
  letters, which is an operation on all queues -/
  reaches : ∀ i, Touches e i → Resolved e.op i (ownEvents e.sess h) ∨
    (∃ n, e.op.op = .dropQueue n ∧ ∃ x ∈ e.pre.queues, x.name = n ∧ x.id = i) ∨
    ∃ d, e.op.op = .sweepDlq d ∧ e.stmt = .sweepDlq d
  /-- a call that has looked its queue up touches no other -/
  single : ∀ n q db, FoundQueue e.op n q db (ownEvents e.sess h) → ∀ i, Touches e i → i = q
  /-- nor a queue created since, of whatever name -/
  fresh : ∀ n q db, FoundQueue e.op n q db (ownEvents e.sess h) →
    ∀ x ∈ e.pre.queues, x ∉ db.queues → ¬ Touches e x.id

theorem FoundQueue.queueName {call : MqCall} {n : String} {q : Int} {db pre : MqDb} {s : Nat}
    {h : List MqEv} (hl : FoundQueue call n q pre (ownEvents s h)) (I : Incarnations db h) :
    call.op.queueName = some n := by
  obtain ⟨s', c, hd⟩ := hl.mem
  exact (I.found _ _ _ _ _ _ hd).2

/-- **Queue isolation.**  However lookups, drops, creations and the other statements of any number
of sessions interleave. -/
theorem mq_isolation (σ : MqSys) (hr : MqReach σ) : Always Isolated σ.hist := by
  have hrel := hr.rely queueView_rules (fun _ _ _ h => h)
    (fun call γ hγ => queueSafe_body call γ hγ)
  refine hrel.past.mono fun e h he => ?_
  obtain ⟨⟨L, I⟩, hnamed, db', hx⟩ := he
  have hreach : ∀ i, Touches e i → Resolved e.op i (ownEvents e.sess h) ∨
      (∃ n, e.op.op = .dropQueue n ∧ ∃ x ∈ e.pre.queues, x.name = n ∧ x.id = i) ∨
      ∃ d, e.op.op = .sweepDlq d ∧ e.stmt = .sweepDlq d := by
    intro i ht
    rcases footprint L hx ht with hq | ⟨hst, hp⟩ | ⟨n, hst, hx⟩ | ⟨d, hst⟩
    · exact .inl (hnamed.queue i hq)
    · exact .inl (hnamed.commits hst i hp)
    · exact .inr (.inl ⟨n, hnamed.drops n hst, hx⟩)
    · exact .inr (.inr ⟨d, hnamed.sweeps d hst, hst⟩)
  have hsingle : ∀ n q db, FoundQueue e.op n q db (ownEvents e.sess h) →
      ∀ i, Touches e i → i = q := by
    intro n q db hl i ht
    have hn := hl.queueName I
    rcases hreach i ht with ⟨m, pre, -, hl'⟩ | ⟨m, hop, -⟩ | ⟨d, hop, -⟩
    · exact hl'.unique hl
    · rw [hop] at hn
      cases hn
    · rw [hop] at hn
      cases hn
  refine ⟨hreach, hsingle, fun n q db hl x hx hnew ht => ?_⟩
  exact I.fresh hl hx hnew (hsingle n q db hl x.id ht)

/-- session 1 looks `orders` up; session 0 drops it, creates it again, sends a message to it and
reads that message; then session 1 goes on, with the message's id and token -/
def recreated : List (Act MqCall MqCtx) :=
  [.call 0 ⟨textStore, .createQueue "orders" .durable⟩, .stmt 0 (plainCtx 0), .ret 0,
   .call 1 ⟨textStore, .ack "orders" 1 "token-1-9"⟩, .stmt 1 (plainCtx 0),
   .call 0 ⟨textStore, .dropQueue "orders"⟩, .stmt 0 (plainCtx 1), .ret 0,
   .call 0 ⟨textStore, .createQueue "orders" .durable⟩, .stmt 0 (plainCtx 2), .ret 0,
   .call 0 ⟨textStore, .send "orders" "x" 0⟩, .stmt 0 (plainCtx 2), .stmt 0 (plainCtx 3),
   .stmt 0 (plainCtx 4), .stmt 0 (plainCtx 5), .stmt 0 (plainCtx 6), .ret 0,
   .call 0 ⟨textStore, .read "orders" 1 30⟩, .stmt 0 (plainCtx 7), .stmt 0 (plainCtx 8),
   .stmt 0 (plainCtx 9), .ret 0,
   .stmt 1 (plainCtx 10), .ret 1]

theorem mq_isolation_recreated :
    ∃ σ : MqSys, (Sys.init MqDb.empty).play MqStmt.exec MqCall.body recreated = some σ ∧
      (σ.db.messages.map fun m => (m.id, m.queueId, m.ackToken)) = [(1, 2, some "token-1-9")] ∧
      ∃ e h, σ.hist = e :: h ∧ e.stmt = .ack 1 1 "token-1-9" ∧ ¬ Touches e 2 := by
  have h : ((Sys.init MqDb.empty : MqSys).play MqStmt.exec MqCall.body recreated).isSome := by rfl
  have hr : MqReach (Option.get _ h) := Sys.play_steps (Option.some_get h).symm
  have hal := mq_isolation _ hr
  refine ⟨_, (Option.some_get h).symm, by rfl, _, _, rfl, rfl, ?_⟩
  refine hal.1.fresh "orders" 1 _ ⟨[], _, 1, _, rfl, fun x hx => absurd hx List.not_mem_nil⟩
    ⟨2, "orders", true, none⟩ (List.mem_singleton.mpr rfl) fun hm => ?_
  have hid : (2 : Int) = 1 := congrArg QueueRow.id (List.mem_singleton.mp hm)
  exact absurd hid (by decide)

end PgApp
