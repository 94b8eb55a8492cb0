import PgApp.Mq.Stmt

/-!
# What the statements leave alone

The two inserting loops of a statement (`moveToDlq`, `archive`) only append to their table, and
`deadLetterDue`, `reprocess` and the rest touch the tables their SQL names.  These are the facts
the proofs about runs use instead of unfolding a statement.
-/

namespace PgApp
open Interleave

theorem count_map_filter_add {α : Type} (f : α → Int) (p : α → Bool) (l : List α) (x : Int) :
    ((l.filter p).map f).count x + ((l.filter fun a => !p a).map f).count x
        = (l.map f).count x := by
  rw [← List.count_append, ← List.map_append]
  exact ((List.filter_append_perm p l).map f).count_eq x

theorem filter_not_eq_self {α : Type} {p : α → Bool} {l : List α} (h : ∀ a ∈ l, p a = false) :
    l.filter (fun a => !p a) = l := by
  rw [List.filter_eq_self]
  intro a ha
  rw [h a ha]
  rfl

/-! ## inserting into `mq_dlq` -/

section
variable (now : Time) (reason : String) (db : MqDb) (m : MessageRow)

@[simp] theorem insertDlq_messages : (db.insertDlq now reason m).messages = db.messages := by
  unfold MqDb.insertDlq; split <;> rfl
@[simp] theorem insertDlq_archives : (db.insertDlq now reason m).archives = db.archives := by
  unfold MqDb.insertDlq; split <;> rfl
@[simp] theorem insertDlq_queues : (db.insertDlq now reason m).queues = db.queues := by
  unfold MqDb.insertDlq; split <;> rfl
@[simp] theorem insertDlq_txs : (db.insertDlq now reason m).txs = db.txs := by
  unfold MqDb.insertDlq; split <;> rfl
@[simp] theorem insertDlq_nextMessageId :
    (db.insertDlq now reason m).nextMessageId = db.nextMessageId := by
  unfold MqDb.insertDlq; split <;> rfl
@[simp] theorem insertDlq_nextQueueId :
    (db.insertDlq now reason m).nextQueueId = db.nextQueueId := by
  unfold MqDb.insertDlq; split <;> rfl

end

/-- what `moveToDlq` does not touch: everything but the two tables it names -/
structure SameButDlq (db db' : MqDb) : Prop where
  archives : db'.archives = db.archives
  queues : db'.queues = db.queues
  txs : db'.txs = db.txs
  nextMessageId : db'.nextMessageId = db.nextMessageId
  nextQueueId : db'.nextQueueId = db.nextQueueId

theorem foldl_insertDlq_same (now : Time) (reason : String) (l : List MessageRow) (db : MqDb) :
    SameButDlq db (l.foldl (MqDb.insertDlq now reason) db) ∧
      (l.foldl (MqDb.insertDlq now reason) db).messages = db.messages := by
  induction l generalizing db with
  | nil => exact ⟨⟨rfl, rfl, rfl, rfl, rfl⟩, rfl⟩
  | cons m l ih =>
    obtain ⟨⟨h1, h2, h3, h4, h5⟩, h6⟩ := ih (db.insertDlq now reason m)
    refine ⟨⟨?_, ?_, ?_, ?_, ?_⟩, ?_⟩ <;> rw [List.foldl_cons]
    · rw [h1, insertDlq_archives]
    · rw [h2, insertDlq_queues]
    · rw [h3, insertDlq_txs]
    · rw [h4, insertDlq_nextMessageId]
    · rw [h5, insertDlq_nextQueueId]
    · rw [h6, insertDlq_messages]

theorem dlqConflict_false {db : MqDb} {m : MessageRow} (h : m.id ∉ db.dlqIds) :
    db.dlqConflict m = false := by
  unfold MqDb.dlqConflict
  rw [List.any_eq_false]
  intro d hd hc
  apply h
  rw [Bool.and_eq_true] at hc
  have e : d.originalMessageId = m.id := by simpa using hc.2
  rw [← e]
  exact List.mem_map_of_mem hd

theorem foldl_insertDlq_ids (now : Time) (reason : String) (l : List MessageRow) (db : MqDb)
    (hn : (l.map (·.id)).Nodup) (hd : ∀ m ∈ l, m.id ∉ db.dlqIds) :
    (l.foldl (MqDb.insertDlq now reason) db).dlqIds = db.dlqIds ++ l.map (·.id) := by
  induction l generalizing db with
  | nil => simp
  | cons m l ih =>
    rw [List.map_cons, List.nodup_cons] at hn
    have hm : db.dlqConflict m = false := dlqConflict_false (hd m List.mem_cons_self)
    have e : (db.insertDlq now reason m).dlqIds = db.dlqIds ++ [m.id] := by
      unfold MqDb.insertDlq MqDb.dlqIds
      rw [hm]
      simp
    rw [List.foldl_cons, ih _ hn.2, e, List.append_assoc]
    · rfl
    · intro m' hm' hc
      rw [e, List.mem_append] at hc
      rcases hc with hc | hc
      · exact hd m' (List.mem_cons_of_mem _ hm') hc
      · apply hn.1
        rw [← List.mem_singleton.mp hc]
        exact List.mem_map_of_mem hm'

/-- both dead-letter statements, when no moved message is in the dead letter queue already -/
theorem moveToDlq_spec (db : MqDb) (sel : MessageRow → Bool) (now : Time) (reason : String)
    (hn : db.messageIds.Nodup) (hd : ∀ m ∈ db.messages, m.id ∉ db.dlqIds) :
    (db.moveToDlq sel now reason).1 = (db.messages.filter sel).length ∧
      (db.moveToDlq sel now reason).2.dlqIds = db.dlqIds ++
          (db.messages.filter sel).map (·.id) := by
  have hids : (db.moveToDlq sel now reason).2.dlqIds
      = db.dlqIds ++ (db.messages.filter sel).map (·.id) := by
    refine foldl_insertDlq_ids now reason _ _ ?_ ?_
    · exact hn.sublist (List.filter_sublist.map _)
    · intro m hm
      exact hd m (List.mem_of_mem_filter hm)
  refine ⟨?_, hids⟩
  have hlen := congrArg List.length hids
  rw [List.length_append, List.length_map] at hlen
  have h1 : (db.moveToDlq sel now reason).2.dlqIds.length
      = (db.moveToDlq sel now reason).2.dlq.length := List.length_map _
  have h2 : db.dlqIds.length = db.dlq.length := List.length_map _
  show (db.moveToDlq sel now reason).2.dlq.length - db.dlq.length = _
  omega

theorem moveToDlq_same (db : MqDb) (sel : MessageRow → Bool) (now : Time) (reason : String) :
    SameButDlq db (db.moveToDlq sel now reason).2 := by
  obtain ⟨⟨h1, h2, h3, h4, h5⟩, -⟩ := foldl_insertDlq_same now reason (db.messages.filter sel)
    { db with messages := db.messages.filter fun m => !sel m }
  exact ⟨h1, h2, h3, h4, h5⟩

theorem moveToDlq_messages (db : MqDb) (sel : MessageRow → Bool) (now : Time) (reason : String) :
    (db.moveToDlq sel now reason).2.messages = db.messages.filter fun m => !sel m :=
  (foldl_insertDlq_same now reason (db.messages.filter sel)
    { db with messages := db.messages.filter fun m => !sel m }).2

/-- `dead_letter_due_messages` is `moveToDlq` of some selection -/
theorem deadLetterDue_eq (db : MqDb) (q : Int) (now : Time) :
    ∃ sel reason, (db.deadLetterDue q now).2 = (db.moveToDlq sel now reason).2 ∧
      ∀ m, sel m = true → m.visible now = true ∧ m.queueId = q := by
  unfold MqDb.deadLetterDue
  cases h : db.limitOf q with
  | none =>
    refine ⟨fun _ => false, "", ?_, fun m hm => absurd hm Bool.false_ne_true⟩
    show db = _
    simp [MqDb.moveToDlq]
  | some limit =>
    refine ⟨fun m => m.due q limit now, _, rfl, fun m hm => ?_⟩
    have hm' : m.due q limit now = true := hm
    unfold MessageRow.due at hm'
    simp only [Bool.and_eq_true, beq_iff_eq] at hm'
    exact ⟨hm'.2, hm'.1.1.1⟩

/-! ## inserting into `mq_archives` -/

theorem foldl_insertArchive (now : Time) (l : List MessageRow) (db : MqDb) :
    let db' := l.foldl (MqDb.insertArchive now) db
    db'.archiveIds = db.archiveIds ++ l.map (·.id) ∧ db'.messages = db.messages ∧
      db'.dlq = db.dlq ∧ db'.queues = db.queues ∧ db'.txs = db.txs ∧
      db'.nextMessageId = db.nextMessageId ∧ db'.nextQueueId = db.nextQueueId := by
  induction l generalizing db with
  | nil => simp
  | cons m l ih =>
    obtain ⟨h1, h2, h3, h4, h5, h6, h7⟩ := ih (db.insertArchive now m)
    rw [List.foldl_cons]
    refine ⟨?_, h2, h3, h4, h5, h6, h7⟩
    rw [h1]
    simp [MqDb.insertArchive, MqDb.archiveIds]

theorem archive_spec (db : MqDb) (q id : Int) (token : String) (now : Time) :
    let db' := (db.archive q id token now).2
    db'.archiveIds = db.archiveIds ++
        (db.messages.filter fun m => m.heldBy q id token now).map (·.id) ∧
      db'.messages = db.messages.filter (fun m => !m.heldBy q id token now) ∧
      db'.dlq = db.dlq ∧ db'.queues = db.queues ∧ db'.txs = db.txs ∧
      db'.nextMessageId = db.nextMessageId ∧ db'.nextQueueId = db.nextQueueId :=
  foldl_insertArchive now (db.messages.filter fun m => m.heldBy q id token now)
    { db with messages := db.messages.filter fun m => !m.heldBy q id token now }

/-! ## ids -/

theorem claim_messageIds (db : MqDb) (q n t : Int) (now : Time) (c : MqCtx) :
    (db.claim q n t now c).2.messageIds = db.messageIds := by
  unfold MqDb.claim
  simp only
  split
  · rfl
  · show List.map _ (List.map _ db.messages) = _
    rw [List.map_map]
    refine List.map_congr_left fun m _ => ?_
    show (if _ then _ else _ : MessageRow).id = m.id
    split <;> rfl

theorem setVisibility_messageIds (db : MqDb) (q id : Int) (token : String) (t : Int) (now : Time) :
    (db.setVisibility q id token t now).2.messageIds = db.messageIds := by
  show List.map _ (List.map _ db.messages) = _
  rw [List.map_map]
  refine List.map_congr_left fun m _ => ?_
  show (if _ then _ else _ : MessageRow).id = m.id
  split <;> rfl

/-- a claim changes `mq_messages` only -/
theorem claim_same (db : MqDb) (q n t : Int) (now : Time) (c : MqCtx) :
    ∃ ms, (db.claim q n t now c).2 = { db with messages := ms } := by
  unfold MqDb.claim
  simp only
  split
  · exact ⟨db.messages, rfl⟩
  · exact ⟨_, rfl⟩

/-! ## open transactions -/

section
variable {s : Nat} {c : MqCtx} {q : Int} {payload : Json} {delay : Int} {db : MqDb}

theorem exec_insert_none (h : db.txs.get s = none) :
    (MqStmt.insertMessage q payload delay).exec s c db = none := by
  rw [MqStmt.exec, h]

theorem exec_insert_some {t : MqTx} (h : db.txs.get s = some t) :
    (MqStmt.insertMessage q payload delay).exec s c db
      = some (db.insertMessage s t q payload delay) := by
  rw [MqStmt.exec, h]

end

/-- PostgreSQL takes the payload and the delay of an insert -/
def Insertable (now : Time) (delay : Int) (payload : Json) : Prop :=
  payload.storable = true ∧ postgres.Fits now delay

theorem insertMessage_spec (db : MqDb) (s : Nat) (t : MqTx) (q : Int) (payload : Json)
    (delay : Int) :
    (Insertable t.startedAt delay payload ∧ (∃ x ∈ db.queues, x.id = q) ∧
      db.insertMessage s t q payload delay = (.ok db.nextMessageId, { db with
        nextMessageId := db.nextMessageId + 1,
        txs := db.txs.set s { t with pending := t.pending ++
          [newMessage db.nextMessageId q payload t.startedAt delay] } })) ∨
    ∃ e, db.insertMessage s t q payload delay
      = (.error e, { db with nextMessageId := db.nextMessageId + 1 }) := by
  unfold MqDb.insertMessage
  cases hp : payload.storable with
  | false => exact .inr ⟨_, rfl⟩
  | true =>
    by_cases hd : postgres.Fits t.startedAt delay
    · rw [if_neg (by simp), if_neg (not_not_intro hd)]
      split
      · rename_i hq
        obtain ⟨x, hx, hid⟩ := List.any_eq_true.mp hq
        exact .inl ⟨⟨hp, hd⟩, ⟨x, hx, beq_iff_eq.mp hid⟩, rfl⟩
      · exact .inr ⟨_, rfl⟩
    · rw [if_neg (by simp), if_pos hd]
      exact .inr ⟨_, rfl⟩

/-- an insert runs inside a transaction and draws an id, also when it fails -/
theorem insertMessage_cases {s : Nat} {c : MqCtx} {q : Int} {payload : Json} {delay : Int}
    {r : Except SqlError Int} {db db' : MqDb}
    (hx : (MqStmt.insertMessage q payload delay).exec s c db = some (r, db')) :
    ∃ t, db.txs.get s = some t ∧
      ((r = .ok db.nextMessageId ∧ db' = { db with
          nextMessageId := db.nextMessageId + 1,
          txs := db.txs.set s { t with pending := t.pending ++
            [newMessage db.nextMessageId q payload t.startedAt delay] } }) ∨
        (∃ e, r = .error e ∧ db' = { db with nextMessageId := db.nextMessageId + 1 })) := by
  cases hg : db.txs.get s with
  | none =>
    rw [exec_insert_none hg] at hx
    cases hx
  | some t =>
    rw [exec_insert_some hg] at hx
    have hx' := Option.some.inj hx
    refine ⟨t, rfl, ?_⟩
    rcases insertMessage_spec db s t q payload delay with ⟨-, -, h⟩ | ⟨e, h⟩
    · obtain ⟨h1, h2⟩ := Prod.mk.inj (h.symm.trans hx')
      exact .inl ⟨h1.symm, h2.symm⟩
    · obtain ⟨h1, h2⟩ := Prod.mk.inj (h.symm.trans hx')
      exact .inr ⟨e, h1.symm, h2.symm⟩

/-- the statements that touch the session's transaction -/
def MqStmt.isTx : MqStmt → Bool
  | .begin => true
  | .commit => true
  | .rollback => true
  | .insertMessage _ _ _ => true
  | _ => false

theorem exec_txs {s : Nat} {c : MqCtx} {st : MqStmt} {r : st.Res} {db db' : MqDb}
    (hst : st.isTx = false) (hx : st.exec s c db = some (r, db')) : db'.txs = db.txs := by
  cases st with
  | begin => exact absurd hst (by decide)
  | commit => exact absurd hst (by decide)
  | rollback => exact absurd hst (by decide)
  | insertMessage q payload delay => exact absurd hst (by simp [MqStmt.isTx])
  | insertQueue name durable limit =>
    obtain rfl : db.insertQueue name durable limit = db' := congrArg Prod.snd (Option.some.inj hx)
    unfold MqDb.insertQueue
    split <;> rfl
  | deleteQueue name =>
    change (if _ then none else some _) = _ at hx
    split at hx
    · exact absurd hx (by simp)
    · obtain rfl : (db.deleteQueue name).2 = db' := congrArg Prod.snd (Option.some.inj hx)
      rfl
  | deadLetterDue q =>
    obtain rfl : (db.deadLetterDue q (db.now s c.now)).2 = db' :=
      congrArg Prod.snd (Option.some.inj hx)
    obtain ⟨sel, reason, he, -⟩ := deadLetterDue_eq db q (db.now s c.now)
    rw [he]
    exact (moveToDlq_same db sel _ reason).txs
  | claim q n t =>
    obtain rfl : (db.claim q n t (db.now s c.now) c).2 = db' :=
      congrArg Prod.snd (Option.some.inj hx)
    obtain ⟨ms, he⟩ := claim_same db q n t (db.now s c.now) c
    rw [he]
  | deadLetter q id reason =>
    obtain rfl : (db.deadLetter q id reason (db.now s c.now)).2 = db' :=
      congrArg Prod.snd (Option.some.inj hx)
    exact (moveToDlq_same db _ _ reason).txs
  | reprocess q id =>
    obtain rfl : (db.reprocess q id (db.now s c.now)).2 = db' :=
      congrArg Prod.snd (Option.some.inj hx)
    unfold MqDb.reprocess
    simp only
    split <;> rfl
  | archive q id token =>
    obtain rfl : (db.archive q id token (db.now s c.now)).2 = db' :=
      congrArg Prod.snd (Option.some.inj hx)
    exact (archive_spec db q id token _).2.2.2.2.1
  | idle => exact absurd hx (by simp [MqStmt.exec])
  | _ =>
    obtain rfl := congrArg Prod.snd (Option.some.inj hx)
    rfl

theorem exec_txs_other {s t : Nat} {c : MqCtx} {st : MqStmt} {r : st.Res} {db db' : MqDb}
    (ht : t ≠ s) (hx : st.exec s c db = some (r, db')) : db'.txs.get t = db.txs.get t := by
  cases hst : st.isTx with
  | false => rw [exec_txs hst hx]
  | true =>
    cases st with
    | begin =>
      obtain rfl : db.begin s c.now = db' := congrArg Prod.snd (Option.some.inj hx)
      exact Slots.get_set_ne _ _ ht
    | commit =>
      obtain rfl : db.commit s = db' := congrArg Prod.snd (Option.some.inj hx)
      unfold MqDb.commit
      split
      · rfl
      · exact Slots.get_erase_ne _ ht
    | rollback =>
      obtain rfl : db.rollback s = db' := congrArg Prod.snd (Option.some.inj hx)
      exact Slots.get_erase_ne _ ht
    | insertMessage q payload delay =>
      obtain ⟨x, -, ⟨-, rfl⟩ | ⟨e, -, rfl⟩⟩ := insertMessage_cases hx
      · exact Slots.get_set_ne _ _ ht
      · rfl
    | _ => exact absurd hst (by simp [MqStmt.isTx])

end PgApp
