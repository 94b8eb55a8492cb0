import PgApp.Mq.History
import PgApp.Mq.Frame

/-!
# No message is lost or duplicated

The ledger of a run: what committed sends have brought in is what lies in the three tables plus
what was removed, id by id, and an id is brought in once.

    MqLedger.flow    sent = places + removed   (as multisets)
    MqLedger.once    an id is sent or pending at most once
    MqLedger.below   the sequence is ahead of every id issued

`MqLedger.step` keeps it through every statement.  `flow` is where a dead-letter statement could
go wrong: it deletes first and inserts with `ON CONFLICT DO NOTHING`, so it loses a message unless
the id is in `mq_messages` only, which `once` gives.
-/

namespace PgApp
open Interleave

structure MqLedger (db : MqDb) (h : List MqEv) : Prop where
  flow : ∀ id, (sentIds h).count id = db.places.count id + (removedIds h).count id
  once : ∀ id, (sentIds h).count id + db.pendingCount id ≤ 1
  below : ∀ id, 0 < (sentIds h).count id + db.pendingCount id → id < db.nextMessageId

namespace MqLedger

theorem empty : MqLedger MqDb.empty [] :=
  ⟨fun _ => rfl, fun _ => Nat.zero_le _, fun _ h => absurd h (Nat.lt_irrefl 0)⟩

section
variable {db db' : MqDb} {h : List MqEv}

theorem places_le (L : MqLedger db h) (id : Int) : db.places.count id ≤ 1 := by
  have h1 := L.flow id
  have h2 := L.once id
  omega

theorem places_count (id : Int) :
    db.places.count id = db.messageIds.count id + db.dlqIds.count id + db.archiveIds.count id := by
  unfold MqDb.places
  rw [List.count_append, List.count_append]

theorem messageIds_nodup (L : MqLedger db h) : db.messageIds.Nodup := by
  rw [List.nodup_iff_count_le_one]
  intro id
  have h1 := L.places_le id
  rw [places_count] at h1
  omega

theorem not_dlq (L : MqLedger db h) {m : MessageRow} (hm : m ∈ db.messages) : m.id ∉ db.dlqIds := by
  intro hd
  have h1 := L.places_le m.id
  rw [places_count] at h1
  have h2 : 0 < db.messageIds.count m.id := List.count_pos_iff.mpr (List.mem_map_of_mem hm)
  have h3 : 0 < db.dlqIds.count m.id := List.count_pos_iff.mpr hd
  omega

theorem not_message (L : MqLedger db h) {d : DlqRow} (hd : d ∈ db.dlq) :
    d.originalMessageId ∉ db.messageIds := by
  intro hm
  have h1 := L.places_le d.originalMessageId
  rw [places_count] at h1
  have h2 : 0 < db.messageIds.count d.originalMessageId := List.count_pos_iff.mpr hm
  have h3 : 0 < db.dlqIds.count d.originalMessageId :=
    List.count_pos_iff.mpr (List.mem_map_of_mem hd)
  omega

/-- a statement that draws no id keeps the ledger if its flow is right -/
theorem next (L : MqLedger db h) (e : MqEv)
    (hflow : ∀ id, db.places.count id + (sentOf e).count id
      = db'.places.count id + (removedOf e).count id)
    (hpend : ∀ id, (sentOf e).count id + db'.pendingCount id ≤ db.pendingCount id)
    (hnext : db.nextMessageId ≤ db'.nextMessageId) : MqLedger db' (e :: h) := by
  refine ⟨fun id => ?_, fun id => ?_, fun id hid => ?_⟩
  · have h1 := L.flow id
    have h2 := hflow id
    rw [sentIds_cons, removedIds_cons, List.count_append, List.count_append]
    omega
  · have h1 := L.once id
    have h2 := hpend id
    rw [sentIds_cons, List.count_append]
    omega
  · rw [sentIds_cons, List.count_append] at hid
    have h1 := L.below id
    have h2 := hpend id
    have h3 : id < db.nextMessageId := h1 (by omega)
    omega

theorem quiet (L : MqLedger db h) (e : MqEv) (hs : sentOf e = []) (hr : removedOf e = [])
    (hp : ∀ id, db'.places.count id = db.places.count id) (ht : db'.txs = db.txs)
    (hn : db'.nextMessageId = db.nextMessageId) : MqLedger db' (e :: h) := by
  refine L.next e (fun id => ?_) (fun id => ?_) (le_of_eq hn.symm)
  · rw [hs, hr, hp id]
  · unfold MqDb.pendingCount
    rw [hs, ht, List.count_nil, Nat.zero_add]

theorem same (L : MqLedger db h) (e : MqEv) (hs : sentOf e = []) (hr : removedOf e = []) :
    MqLedger db (e :: h) := L.quiet e hs hr (fun _ => rfl) rfl rfl

/-! ## the flow of each moving statement -/

theorem places_moveToDlq (L : MqLedger db h) (sel : MessageRow → Bool) (now : Time)
    (reason : String) (id : Int) :
    (db.moveToDlq sel now reason).2.places.count id = db.places.count id := by
  have h1 := (moveToDlq_spec db sel now reason L.messageIds_nodup (fun m hm => L.not_dlq hm)).2
  have h2 : (db.moveToDlq sel now reason).2.archiveIds = db.archiveIds :=
    congrArg (List.map ArchiveRow.originalMessageId) (moveToDlq_same db sel now reason).archives
  have h3 : (db.moveToDlq sel now reason).2.messageIds
      = (db.messages.filter fun m => !sel m).map (·.id) :=
    congrArg (List.map MessageRow.id) (moveToDlq_messages db sel now reason)
  have h4 := count_map_filter_add (·.id) sel db.messages id
  have h5 : (db.messages.map (·.id)).count id = db.messageIds.count id := rfl
  rw [places_count, places_count, h1, h2, h3, List.count_append]
  omega

theorem places_archive (q i : Int) (token : String) (now : Time) (id : Int) :
    (db.archive q i token now).2.places.count id = db.places.count id := by
  obtain ⟨h1, h2, h3, -⟩ := archive_spec db q i token now
  have h4 := count_map_filter_add (·.id) (fun m : MessageRow => m.heldBy q i token now)
    db.messages id
  have h5 : (db.messages.map (·.id)).count id = db.messageIds.count id := rfl
  have h6 : (db.archive q i token now).2.messageIds
      = (db.messages.filter fun m => !m.heldBy q i token now).map (·.id) :=
    congrArg (List.map MessageRow.id) h2
  have h7 : (db.archive q i token now).2.dlqIds = db.dlqIds :=
    congrArg (List.map DlqRow.originalMessageId) h3
  rw [places_count, places_count, h1, h6, h7, List.count_append]
  omega

/-- the primary key of `mq_messages` is free for every dead-letter row -/
theorem reprocess_ok (L : MqLedger db h) (q i : Int) (now : Time) :
    db.reprocess q i now
      = (.ok (db.dlq.filter fun d => d.isEntry q i).length,
          { db with dlq := db.dlq.filter fun d => !d.isEntry q i,
                    messages := db.messages ++ (db.dlq.filter fun d => d.isEntry q i).map
                      fun d => d.reprocessed now }) := by
  have hno : ((db.dlq.filter fun d => d.isEntry q i).any fun d =>
      db.messages.any fun m => m.id == d.originalMessageId) = false := by
    rw [List.any_eq_false]
    intro d hd hc
    rw [List.any_eq_true] at hc
    obtain ⟨m, hm, he⟩ := hc
    have he' : m.id = d.originalMessageId := by simpa using he
    apply L.not_message (List.mem_of_mem_filter hd)
    rw [← he']
    exact List.mem_map_of_mem hm
  unfold MqDb.reprocess
  simp only [hno]
  rfl

theorem places_reprocess (L : MqLedger db h) (q i : Int) (now : Time) (id : Int) :
    (db.reprocess q i now).2.places.count id = db.places.count id := by
  rw [L.reprocess_ok q i now, places_count, places_count]
  have h1 := count_map_filter_add (·.originalMessageId) (fun d : DlqRow => d.isEntry q i) db.dlq id
  have h2 : (db.dlq.map (·.originalMessageId)).count id = db.dlqIds.count id := rfl
  have h3 : ((db.dlq.filter fun d => d.isEntry q i).map fun d => d.reprocessed now).map (·.id)
      = (db.dlq.filter fun d => d.isEntry q i).map (·.originalMessageId) := by
    rw [List.map_map]; rfl
  show ((db.messages ++ _).map (·.id)).count id
    + ((db.dlq.filter fun d => !d.isEntry q i).map (·.originalMessageId)).count id
    + db.archiveIds.count id = _
  rw [List.map_append, List.count_append, h3]
  show db.messageIds.count id + _ + _ + _ = _
  omega

/-! ## pending rows -/

theorem pending_set (db : MqDb) (s : Nat) (t : MqTx) (id : Int) :
    ({ db with txs := db.txs.set s t } : MqDb).pendingCount id
      = (t.pending.map (·.id)).count id + Slots.total (fun t => (t.pending.map (·.id)).count id)
          (db.txs.erase s) :=
  Slots.total_set _ _ _ _

theorem pending_commit (db : MqDb) (s : Nat) (id : Int) :
    (db.pendingIds s).count id + (db.commit s).pendingCount id ≤ db.pendingCount id := by
  unfold MqDb.pendingIds MqDb.commit MqDb.pendingCount
  cases ht : db.txs.get s with
  | none => simp
  | some t =>
    have h1 := Slots.total_erase_add (fun t : MqTx => (t.pending.map (·.id)).count id) ht
    show (t.pending.map (·.id)).count id + _ ≤ _
    simp only at h1 ⊢
    omega

theorem places_commit (db : MqDb) (s : Nat) (id : Int) :
    db.places.count id + (db.pendingIds s).count id = (db.commit s).places.count id := by
  unfold MqDb.pendingIds MqDb.commit
  cases ht : db.txs.get s with
  | none => simp
  | some t =>
    rw [places_count, places_count]
    show _ = ((db.messages ++ t.pending).map (·.id)).count id + db.dlqIds.count id
      + db.archiveIds.count id
    rw [List.map_append, List.count_append]
    show _ + (t.pending.map (·.id)).count id = db.messageIds.count id + _ + _ + _
    omega

theorem deletes_messages (L : MqLedger db h) (e : MqEv) (sel : MessageRow → Bool)
    (hs : sentOf e = []) (hr : removedOf e = (db.messages.filter sel).map (·.id)) :
    MqLedger { db with messages := db.messages.filter fun m => !sel m } (e :: h) := by
  refine L.next e (fun id => ?_) (fun id => ?_) (le_refl _)
  · have h1 := count_map_filter_add (·.id) sel db.messages id
    rw [hs, hr, places_count, places_count]
    unfold MqDb.messageIds MqDb.dlqIds MqDb.archiveIds
    simp only [List.count_nil]
    omega
  · rw [hs]
    exact le_of_eq (Nat.zero_add _)

theorem deletes_dlq (L : MqLedger db h) (e : MqEv) (sel : DlqRow → Bool)
    (hs : sentOf e = []) (hr : removedOf e = (db.dlq.filter sel).map (·.originalMessageId)) :
    MqLedger { db with dlq := db.dlq.filter fun d => !sel d } (e :: h) := by
  refine L.next e (fun id => ?_) (fun id => ?_) (le_refl _)
  · have h1 := count_map_filter_add (·.originalMessageId) sel db.dlq id
    rw [hs, hr, places_count, places_count]
    unfold MqDb.messageIds MqDb.dlqIds MqDb.archiveIds
    simp only [List.count_nil]
    omega
  · rw [hs]
    exact le_of_eq (Nat.zero_add _)

theorem deletes_queue (L : MqLedger db h) (e : MqEv) (name : String) (hs : sentOf e = [])
    (hr : removedOf e =
      let gone := (db.queues.filter (·.name == name)).map (·.id)
      (db.messages.filter fun m => gone.contains m.queueId).map (·.id) ++
        (db.dlq.filter fun d => gone.contains d.queueId).map (·.originalMessageId) ++
        (db.archives.filter fun a => gone.contains a.queueId).map (·.originalMessageId)) :
    MqLedger (db.deleteQueue name).2 (e :: h) := by
  refine L.next e (fun id => ?_) (fun id => ?_) (le_refl _)
  · have h1 := count_map_filter_add (·.id) (fun m : MessageRow => ((db.queues.filter
      (·.name == name)).map (·.id)).contains m.queueId) db.messages id
    have h2 := count_map_filter_add (·.originalMessageId) (fun d : DlqRow => ((db.queues.filter
      (·.name == name)).map (·.id)).contains d.queueId) db.dlq id
    have h3 := count_map_filter_add (·.originalMessageId) (fun a : ArchiveRow =>
      ((db.queues.filter (·.name == name)).map (·.id)).contains a.queueId) db.archives id
    rw [hs, hr, places_count, places_count]
    unfold MqDb.messageIds MqDb.dlqIds MqDb.archiveIds MqDb.deleteQueue
    simp only [List.count_append, List.count_nil]
    omega
  · rw [hs]
    exact le_of_eq (Nat.zero_add _)

theorem insertMessage (L : MqLedger db h) (e : MqEv) (hs : sentOf e = []) (hr : removedOf e = [])
    (s : Nat) (t : MqTx) (ht : db.txs.get s = some t) (q : Int) (payload : Json) (delay : Int) :
    MqLedger (db.insertMessage s t q payload delay).2 (e :: h) := by
  rcases insertMessage_spec db s t q payload delay with ⟨-, -, hrow⟩ | ⟨_, hfail⟩
  · rw [hrow]
    refine ⟨fun id => ?_, fun id => ?_, fun id hid => ?_⟩
    · have h1 := L.flow id
      rw [sentIds_cons, removedIds_cons, hs, hr]
      exact h1
    all_goals
      have h0 := Slots.total_erase_add (fun t : MqTx => (t.pending.map (·.id)).count id) ht
      have h1 := L.once id
      have h2 := L.below id
      have h3 : db.pendingCount id = db.txs.total fun t => (t.pending.map (·.id)).count id := rfl
      have hnew := pending_set { db with nextMessageId := db.nextMessageId + 1 } s
        { t with pending := t.pending ++ [newMessage db.nextMessageId q payload t.startedAt delay] }
          id
      have hcount : ((t.pending ++ [newMessage db.nextMessageId q payload t.startedAt delay]).map
          (·.id)).count id = (t.pending.map (·.id)).count id
            + (if db.nextMessageId = id then 1 else 0) := by
        rw [List.map_append, List.count_append]
        congr 1
        show List.count id [db.nextMessageId] = _
        rw [List.count_singleton]
        simp
      simp only [hcount] at hnew h0
    · rw [sentIds_cons, hs, List.nil_append]
      simp only
      rw [hnew]
      by_cases he : db.nextMessageId = id
      · have h4 : ¬ 0 < (sentIds h).count id + db.pendingCount id := fun hc => by
          have := h2 hc
          omega
        rw [if_pos he]
        omega
      · rw [if_neg he]
        omega
    · rw [sentIds_cons, hs, List.nil_append] at hid
      simp only at hid ⊢
      rw [hnew] at hid
      by_cases he : db.nextMessageId = id
      · omega
      · rw [if_neg he] at hid
        have h4 : id < db.nextMessageId := h2 (by omega)
        omega
  · rw [hfail]
    refine L.next e (fun id => ?_) (fun id => ?_) ?_
    · rw [hs, hr]; rfl
    · rw [hs, List.count_nil, Nat.zero_add]; exact Nat.le_refl _
    · show db.nextMessageId ≤ db.nextMessageId + 1
      omega

/-- **Every statement keeps the ledger.** -/
theorem step {s : Nat} {op : MqCall} {c : MqCtx} {st : MqStmt} {r : st.Res}
    (L : MqLedger db h) (hx : st.exec s c db = some (r, db')) :
    MqLedger db' (⟨s, op, c, st, r, db⟩ :: h) := by
  cases st with
  | insertQueue name durable limit =>
    obtain ⟨-, rfl⟩ := Prod.mk.inj (Option.some.inj hx)
    unfold MqDb.insertQueue
    split
    · exact L.quiet _ rfl rfl (fun _ => rfl) rfl rfl
    · exact L.quiet _ rfl rfl (fun _ => rfl) rfl rfl
  | deleteQueue name =>
    change (if _ then none else some _) = _ at hx
    split at hx
    · exact absurd hx (by simp)
    · obtain ⟨-, rfl⟩ := Prod.mk.inj (Option.some.inj hx)
      exact L.deletes_queue _ name rfl rfl
  | deleteMessages q =>
    obtain ⟨-, rfl⟩ := Prod.mk.inj (Option.some.inj hx)
    exact L.deletes_messages _ (fun m => m.queueId == q) rfl rfl
  | begin =>
    obtain ⟨-, rfl⟩ := Prod.mk.inj (Option.some.inj hx)
    refine L.next _ (fun id => rfl) (fun id => ?_) (le_refl _)
    have h1 := Slots.total_erase_le (fun t : MqTx => (t.pending.map (·.id)).count id) db.txs s
    have h2 := pending_set db s ⟨c.now, []⟩ id
    unfold MqDb.begin
    rw [h2]
    show 0 + (0 + _) ≤ db.pendingCount id
    rw [Nat.zero_add, Nat.zero_add]
    exact h1
  | commit =>
    obtain ⟨-, rfl⟩ := Prod.mk.inj (Option.some.inj hx)
    refine L.next _ (fun id => ?_) (fun id => pending_commit db s id) ?_
    · exact places_commit db s id
    · unfold MqDb.commit
      split <;> exact le_refl _
  | rollback =>
    obtain ⟨-, rfl⟩ := Prod.mk.inj (Option.some.inj hx)
    refine L.next _ (fun id => rfl) (fun id => ?_) (le_refl _)
    have h1 := Slots.total_erase_le (fun t : MqTx => (t.pending.map (·.id)).count id) db.txs s
    show 0 + _ ≤ _
    rw [Nat.zero_add]
    exact h1
  | insertMessage q payload delay =>
    cases ht : db.txs.get s with
    | none =>
      rw [exec_insert_none ht] at hx
      cases hx
    | some t =>
      rw [exec_insert_some ht] at hx
      obtain ⟨-, rfl⟩ := Prod.mk.inj (Option.some.inj hx)
      exact L.insertMessage _ rfl rfl s t ht q payload delay
  | deadLetterDue q =>
    obtain rfl : (db.deadLetterDue q (db.now s c.now)).2 = db' :=
      congrArg Prod.snd (Option.some.inj hx)
    obtain ⟨sel, reason, he, -⟩ := deadLetterDue_eq db q (db.now s c.now)
    have hsame := moveToDlq_same db sel (db.now s c.now) reason
    rw [he]
    exact L.quiet _ rfl rfl (L.places_moveToDlq sel _ reason) hsame.txs hsame.nextMessageId
  | claim q n t =>
    obtain rfl : (db.claim q n t (db.now s c.now) c).2 = db' :=
      congrArg Prod.snd (Option.some.inj hx)
    have hid := claim_messageIds db q n t (db.now s c.now) c
    obtain ⟨ms, he⟩ := claim_same db q n t (db.now s c.now) c
    rw [he] at hid ⊢
    refine L.quiet _ rfl rfl (fun id => ?_) rfl rfl
    rw [places_count, places_count, hid]
    rfl
  | deadLetter q id reason =>
    obtain ⟨-, rfl⟩ := Prod.mk.inj (Option.some.inj hx)
    have hsame := moveToDlq_same db (fun m => m.queueId == q && m.id == id) (db.now s c.now) reason
    exact L.quiet _ rfl rfl (L.places_moveToDlq _ _ reason) hsame.txs hsame.nextMessageId
  | reprocess q id =>
    obtain rfl : (db.reprocess q id (db.now s c.now)).2 = db' :=
      congrArg Prod.snd (Option.some.inj hx)
    refine L.quiet _ rfl rfl (L.places_reprocess q id _) ?_ ?_
    · rw [L.reprocess_ok]
    · rw [L.reprocess_ok]
  | deleteDlq q =>
    obtain ⟨-, rfl⟩ := Prod.mk.inj (Option.some.inj hx)
    exact L.deletes_dlq _ (fun d => d.queueId == q) rfl rfl
  | sweepDlq n =>
    obtain ⟨-, rfl⟩ := Prod.mk.inj (Option.some.inj hx)
    exact L.deletes_dlq _ (fun d => d.stale n (db.now s c.now)) rfl rfl
  | ack q i token =>
    obtain ⟨-, rfl⟩ := Prod.mk.inj (Option.some.inj hx)
    exact L.deletes_messages _ (fun m => m.heldBy q i token (db.now s c.now)) rfl rfl
  | archive q i token =>
    obtain ⟨-, rfl⟩ := Prod.mk.inj (Option.some.inj hx)
    obtain ⟨-, -, -, -, h5, h6, -⟩ := archive_spec db q i token (db.now s c.now)
    exact L.quiet _ rfl rfl (places_archive q i token _) h5 h6
  | setVisibility q i token t =>
    obtain rfl : (db.setVisibility q i token t (db.now s c.now)).2 = db' :=
      congrArg Prod.snd (Option.some.inj hx)
    have hid := setVisibility_messageIds db q i token t (db.now s c.now)
    refine L.quiet _ rfl rfl (fun id => ?_) rfl rfl
    rw [places_count, places_count, hid]
    rfl
  | idle => exact absurd hx (by simp [MqStmt.exec])
  | _ =>
    obtain ⟨-, rfl⟩ := Prod.mk.inj (Option.some.inj hx)
    exact L.same _ rfl rfl

end

/-- **Every reachable state has its ledger.** -/
theorem of_reach {σ : MqSys} (hr : MqReach σ) : MqLedger σ.db σ.hist :=
  hr.invariant MqLedger empty fun _ _ _ _ _ _ _ _ L hx => L.step hx

end MqLedger

end PgApp
