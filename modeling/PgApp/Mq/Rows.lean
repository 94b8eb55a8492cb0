import PgApp.Mq.Conserve

/-!
# Where the rows of the next state come from

For every statement, one inversion for each kind of row it leaves behind:

* `RowChange e m`       a row `m` of `mq_messages` was there, was committed, was claimed, got a new
                        deadline, or came back from `mq_dlq`;
* `DlqChange e d`       a row `d` of `mq_dlq` was there, or was moved there by `dead_letter` or as
                        due for the dead letter queue;
* `PendingChange e m`   a row of an open transaction was there or has just been inserted.

Each says with `touchOf` what the statement did to that message, and the invariants over runs are
read off these three: no proof about a run unfolds a statement.
-/

namespace PgApp
open Interleave

inductive RowChange (e : MqEv) : MessageRow → Prop
  | kept (m : MessageRow) (hm : m ∈ e.pre.messages) (ht : touchOf e m.id = .none) : RowChange e m
  | sent (m : MessageRow) (t : MqTx) (hg : e.pre.txs.get e.sess = some t) (hm : m ∈ t.pending)
      (ht : touchOf e m.id = .sent) : RowChange e m
  | delivered (m : MessageRow) (q n timeout : Int) (token : String) (hm : m ∈ e.pre.messages)
      (hst : e.stmt = .claim q n timeout) (hv : m.visible (eventNow e) = true)
      (ht : touchOf e m.id = .delivered token (eventNow e + seconds timeout)) :
      RowChange e (m.claim (eventNow e) timeout token)
  | extended (m : MessageRow) (deadline : Time) (hm : m ∈ e.pre.messages)
      (hv : m.inFlight (eventNow e) = true) (ht : touchOf e m.id = .extended deadline) :
      RowChange e { m with visibilityTimeoutAt := some deadline, updatedAt := eventNow e }
  | requeued (d : DlqRow) (hd : d ∈ e.pre.dlq) (ht : touchOf e d.originalMessageId = .requeued) :
      RowChange e (d.reprocessed (eventNow e))

inductive DlqChange (e : MqEv) : DlqRow → Prop
  | kept (d : DlqRow) (hd : d ∈ e.pre.dlq) (ht : touchOf e d.originalMessageId = .none) :
      DlqChange e d
  | moved (d : DlqRow) (m : MessageRow) (hm : m ∈ e.pre.messages) (hid : d.originalMessageId = m.id)
      (ht : touchOf e m.id = .deadLettered) : DlqChange e d
  | due (d : DlqRow) (m : MessageRow) (q : Int) (hm : m ∈ e.pre.messages)
      (hid : d.originalMessageId = m.id) (hst : e.stmt = .deadLetterDue q)
      (hv : m.visible (eventNow e) = true) (ht : touchOf e m.id = .none) : DlqChange e d

inductive PendingChange (e : MqEv) (s : Nat) : MessageRow → Prop
  | kept (m : MessageRow) (t : MqTx) (hg : e.pre.txs.get s = some t) (hm : m ∈ t.pending)
      (ht : touchOf e m.id = .none) : PendingChange e s m
  | inserted (m : MessageRow) (ht : touchOf e m.id = .inserted m.availableAt)
      (hn : m.visibilityTimeoutAt = none ∧ m.ackToken = none ∧ m.readCount = 0) :
      PendingChange e s m

/-! ## which ids a row can have -/

namespace MqLedger
variable {db : MqDb} {h : List MqEv}

theorem eq_of_id (L : MqLedger db h) {m m' : MessageRow} (hm : m ∈ db.messages)
    (hm' : m' ∈ db.messages) (he : m.id = m'.id) : m = m' :=
  List.inj_on_of_nodup_map L.messageIds_nodup hm hm' he

theorem pendingCount_pos {s : Nat} {t : MqTx} {m : MessageRow} (hg : db.txs.get s = some t)
    (hm : m ∈ t.pending) : 0 < db.pendingCount m.id := by
  have h1 := Slots.total_erase_add (fun t : MqTx => (t.pending.map (·.id)).count m.id) hg
  have h2 : 0 < (t.pending.map (·.id)).count m.id := List.count_pos_iff.mpr (List.mem_map_of_mem hm)
  unfold MqDb.pendingCount
  omega

theorem places_pos_message {m : MessageRow} (hm : m ∈ db.messages) : 0 < db.places.count m.id := by
  rw [places_count]
  have h1 : 0 < db.messageIds.count m.id := List.count_pos_iff.mpr (List.mem_map_of_mem hm)
  omega

theorem places_pos_dlq {d : DlqRow} (hd : d ∈ db.dlq) :
    0 < db.places.count d.originalMessageId := by
  rw [places_count]
  have h1 : 0 < db.dlqIds.count d.originalMessageId :=
    List.count_pos_iff.mpr (List.mem_map_of_mem hd)
  omega

theorem not_pending (L : MqLedger db h) {id : Int} (hp : 0 < db.places.count id) (s : Nat) :
    id ∉ db.pendingIds s := by
  intro hid
  unfold MqDb.pendingIds at hid
  cases hg : db.txs.get s with
  | none => rw [hg] at hid; exact absurd hid List.not_mem_nil
  | some t =>
    rw [hg] at hid
    obtain ⟨m, hm, rfl⟩ := List.mem_map.mp hid
    have h1 := pendingCount_pos hg hm
    have h2 := L.once m.id
    have h3 := L.flow m.id
    omega

theorem lt_next (L : MqLedger db h) {id : Int} (hp : 0 < db.places.count id) :
    id < db.nextMessageId := by
  have h1 := L.flow id
  have h2 := L.below id
  omega

theorem pending_other (L : MqLedger db h) {s t : Nat} {x : MqTx} {m : MessageRow} (hst : t ≠ s)
    (hg : db.txs.get t = some x) (hm : m ∈ x.pending) : m.id ∉ db.pendingIds s := by
  intro hid
  unfold MqDb.pendingIds at hid
  cases hgs : db.txs.get s with
  | none => rw [hgs] at hid; exact absurd hid List.not_mem_nil
  | some y =>
    rw [hgs] at hid
    have h1 := Slots.total_erase_add (fun t : MqTx => (t.pending.map (·.id)).count m.id) hgs
    have h2 : 0 < (y.pending.map (·.id)).count m.id := List.count_pos_iff.mpr hid
    have h3 := Slots.total_erase_add (fun t : MqTx => (t.pending.map (·.id)).count m.id)
      ((Slots.get_erase_ne db.txs hst).trans hg)
    have h4 : 0 < (x.pending.map (·.id)).count m.id :=
      List.count_pos_iff.mpr (List.mem_map_of_mem hm)
    have h5 := L.once m.id
    unfold MqDb.pendingCount at h5
    omega

end MqLedger

/-! ## `mq_messages` -/

section
variable {s : Nat} {op : MqCall} {c : MqCtx} {db db' : MqDb} {h : List MqEv}

theorem touchOf_claim {q n t : Int} {ms : List QueueMessage} {id : Int} :
    touchOf ⟨s, op, c, .claim q n t, .ok ms, db⟩ id
      = match ms.find? (·.id == id) with
        | some m => .delivered m.ackToken (db.now s c.now + seconds t)
        | none => .none := rfl

theorem mem_picked {q n : Int} {now : Time} {locked : List Int} {id : Int}
    (hid : id ∈ db.picked q n now locked) :
    ∃ m ∈ db.messages, m.id = id ∧ m.queueId = q ∧ m.visible now = true ∧
      locked.contains m.id = false := by
  have h1 := (List.mem_insertionSort (· ≤ ·)).mp (List.mem_of_mem_take hid)
  obtain ⟨m, hm, rfl⟩ := List.mem_map.mp h1
  obtain ⟨hm1, hm2⟩ := List.mem_filter.mp hm
  simp only [Bool.and_eq_true, beq_iff_eq, Bool.not_eq_true'] at hm2
  exact ⟨m, hm1, rfl, hm2.1.1, hm2.1.2, hm2.2⟩

/-- a claim that succeeds: what it answers and what it leaves -/
theorem claim_ok {q n t : Int} {now : Time} {ms : List QueueMessage}
    (hx : db.claim q n t now c = (.ok ms, db')) :
    ms = (db.messages.filter fun m => (db.picked q n now c.locked).contains m.id).map
        (fun m => rowToMessage (m.claim now t (c.token m.id))) ∧
      db' = { db with messages := db.messages.map fun m =>
        if (db.picked q n now c.locked).contains m.id then m.claim now t (c.token m.id)
            else m } := by
  unfold MqDb.claim at hx
  simp only at hx
  split at hx
  · exact absurd (congrArg Prod.fst hx) (by simp)
  · obtain ⟨h1, h2⟩ := Prod.mk.inj hx
    exact ⟨(Except.ok.inj h1).symm, h2.symm⟩

/-- the message a claim answers for an id it has picked -/
theorem claim_find (c : MqCtx) (ids : List Int) (now : Time) (t : Int) (m : MessageRow)
    (hm : m ∈ db.messages) :
    (((db.messages.filter fun m => ids.contains m.id).map fun m =>
        rowToMessage (m.claim now t (c.token m.id))).find? (·.id == m.id)).map (·.ackToken)
      = if ids.contains m.id then some (c.token m.id) else none := by
  cases hf : ((db.messages.filter fun m => ids.contains m.id).map fun m =>
      rowToMessage (m.claim now t (c.token m.id))).find? (·.id == m.id) with
  | none =>
    rw [List.find?_eq_none] at hf
    split
    · rename_i hc
      have h1 : m ∈ db.messages.filter fun m => ids.contains m.id := List.mem_filter.mpr ⟨hm, hc⟩
      exact absurd (by simp [rowToMessage, MessageRow.claim])
        (hf _ (List.mem_map_of_mem (f := fun m : MessageRow =>
          rowToMessage (m.claim now t (c.token m.id))) h1))
    · rfl
  | some x =>
    obtain ⟨m₂, hm₂, rfl⟩ := List.mem_map.mp (List.mem_of_find?_eq_some hf)
    have hid : m₂.id = m.id := by simpa [rowToMessage, MessageRow.claim] using List.find?_some hf
    have hc : ids.contains m.id = true := hid ▸ (List.mem_filter.mp hm₂).2
    rw [if_pos hc, ← hid]
    rfl

theorem rowChange_claim (L : MqLedger db h) {q n t : Int}
    {r : Except SqlError (List QueueMessage)}
    (hx : db.claim q n t (db.now s c.now) c = (r, db')) :
    ∀ m ∈ db'.messages, RowChange ⟨s, op, c, .claim q n t, r, db⟩ m := by
  intro m' hm'
  cases r with
  | error e =>
    have h1 : db' = db := by
      unfold MqDb.claim at hx
      simp only at hx
      split at hx
      · exact (congrArg Prod.snd hx).symm
      · exact absurd (congrArg Prod.fst hx) (by simp)
    exact .kept m' (h1 ▸ hm') rfl
  | ok ms =>
    obtain ⟨rfl, rfl⟩ := claim_ok hx
    obtain ⟨m, hm, rfl⟩ := List.mem_map.mp hm'
    have hf := claim_find c (db.picked q n (db.now s c.now) c.locked) (db.now s c.now) t m hm
    split
    · rename_i hc
      rw [if_pos hc] at hf
      obtain ⟨x, hx1, hx2⟩ := Option.map_eq_some_iff.mp hf
      obtain ⟨m₂, hm₂, hid, -, hv, -⟩ := mem_picked (List.contains_iff_mem.mp hc)
      obtain rfl := L.eq_of_id hm₂ hm hid
      refine .delivered m₂ q n t (c.token m₂.id) hm rfl hv ?_
      rw [touchOf_claim, hx1]
      simp only [hx2]
      rfl
    · rename_i hc
      rw [if_neg hc] at hf
      refine .kept m hm ?_
      rw [touchOf_claim, Option.map_eq_none_iff.mp hf]

theorem heldBy_id {m : MessageRow} {q i : Int} {token : String} {now : Time}
    (hh : m.heldBy q i token now = true) : m.id = i := by
  unfold MessageRow.heldBy at hh
  simp only [Bool.and_eq_true, beq_iff_eq] at hh
  exact hh.1.1.2

theorem heldBy_inFlight {m : MessageRow} {q i : Int} {token : String} {now : Time}
    (hh : m.heldBy q i token now = true) : m.inFlight now = true := by
  unfold MessageRow.heldBy at hh
  simp only [Bool.and_eq_true] at hh
  exact hh.2

theorem rowChange_setVisibility (L : MqLedger db h) {q i : Int} {token : String} {t : Int} :
    ∀ m ∈ (db.setVisibility q i token t (db.now s c.now)).2.messages,
      RowChange ⟨s, op, c, .setVisibility q i token t,
        (db.setVisibility q i token t (db.now s c.now)).1, db⟩ m := by
  intro m' hm'
  obtain ⟨m, hm, rfl⟩ := List.mem_map.mp hm'
  have htouch : touchOf ⟨s, op, c, .setVisibility q i token t,
      (db.setVisibility q i token t (db.now s c.now)).1, db⟩ m.id
      = if i = m.id ∧ 0 < (db.messages.filter fun m => m.heldBy q i token (db.now s c.now)).length
        then .extended (db.now s c.now + seconds t) else .none := rfl
  split
  · rename_i hh
    have hpos : 0 < (db.messages.filter fun m => m.heldBy q i token (db.now s c.now)).length :=
      List.length_pos_of_mem (List.mem_filter.mpr ⟨hm, hh⟩)
    refine .extended m _ hm (heldBy_inFlight hh) ?_
    rw [htouch, if_pos ⟨(heldBy_id hh).symm, hpos⟩]
  · rename_i hh
    refine .kept m hm ?_
    rw [htouch, if_neg]
    intro hex
    obtain ⟨hi, hpos⟩ := hex
    obtain ⟨m₂, hm₂⟩ := List.exists_mem_of_length_pos hpos
    obtain ⟨hm₂, hh₂⟩ := List.mem_filter.mp hm₂
    obtain rfl := L.eq_of_id hm₂ hm ((heldBy_id hh₂).trans hi)
    exact hh hh₂

theorem rowChange_deadLetter (L : MqLedger db h) {q i : Int} {reason : String} :
    ∀ m ∈ (db.deadLetter q i reason (db.now s c.now)).2.messages,
      RowChange ⟨s, op, c, .deadLetter q i reason,
        (db.deadLetter q i reason (db.now s c.now)).1, db⟩ m := by
  intro m hm
  have hcount := (moveToDlq_spec db (fun m => m.queueId == q && m.id == i) (db.now s c.now) reason
    L.messageIds_nodup (fun m hm => L.not_dlq hm)).1
  have hms : (db.deadLetter q i reason (db.now s c.now)).2.messages
      = db.messages.filter fun m => !(m.queueId == q && m.id == i) :=
    moveToDlq_messages db _ _ reason
  rw [hms] at hm
  obtain ⟨hm1, hm2⟩ := List.mem_filter.mp hm
  refine .kept m hm1 ?_
  show (if i = m.id ∧ 0 < (db.deadLetter q i reason (db.now s c.now)).1 then _ else Touch.none) = _
  rw [if_neg]
  intro hex
  obtain ⟨hi, hpos⟩ := hex
  unfold MqDb.deadLetter at hpos
  rw [hcount] at hpos
  obtain ⟨m₂, hm₂⟩ := List.exists_mem_of_length_pos hpos
  obtain ⟨hm₂, hs⟩ := List.mem_filter.mp hm₂
  have hid : m₂.id = i := by
    simp only [Bool.and_eq_true, beq_iff_eq] at hs
    exact hs.2
  obtain rfl := L.eq_of_id hm₂ hm1 (hid.trans hi)
  rw [hs] at hm2
  exact absurd hm2 (by decide)

theorem rowChange_reprocess (L : MqLedger db h) {q i : Int} :
    ∀ m ∈ (db.reprocess q i (db.now s c.now)).2.messages,
      RowChange ⟨s, op, c, .reprocess q i, (db.reprocess q i (db.now s c.now)).1, db⟩ m := by
  intro m hm
  rw [L.reprocess_ok q i (db.now s c.now)] at hm ⊢
  have htouch : ∀ id, touchOf ⟨s, op, c, .reprocess q i,
      .ok (db.dlq.filter fun d => d.isEntry q i).length, db⟩ id
      = if i = id ∧ 0 < (db.dlq.filter fun d => d.isEntry q i).length then .requeued else .none :=
    fun _ => rfl
  have hentry : ∀ d : DlqRow, d.isEntry q i = true → d.originalMessageId = i := by
    intro d hd
    unfold DlqRow.isEntry at hd
    simp only [Bool.and_eq_true, beq_iff_eq] at hd
    exact hd.2
  rcases List.mem_append.mp hm with hm | hm
  · refine .kept m hm ?_
    rw [htouch, if_neg]
    intro hex
    obtain ⟨hi, hpos⟩ := hex
    obtain ⟨d, hd⟩ := List.exists_mem_of_length_pos hpos
    obtain ⟨hd1, hd2⟩ := List.mem_filter.mp hd
    apply L.not_message hd1
    rw [hentry d hd2, hi]
    exact List.mem_map_of_mem hm
  · obtain ⟨d, hd, rfl⟩ := List.mem_map.mp hm
    obtain ⟨hd1, hd2⟩ := List.mem_filter.mp hd
    refine .requeued d hd1 ?_
    rw [htouch, if_pos ⟨(hentry d hd2).symm, List.length_pos_of_mem hd⟩]

theorem rowChange_commit (L : MqLedger db h) :
    ∀ m ∈ (db.commit s).messages, RowChange ⟨s, op, c, .commit, (), db⟩ m := by
  intro m hm
  have htouch : ∀ id, touchOf ⟨s, op, c, .commit, (), db⟩ id
      = if id ∈ db.pendingIds s then .sent else .none := fun _ => rfl
  have hkept : ∀ m ∈ db.messages, RowChange ⟨s, op, c, .commit, (), db⟩ m := by
    intro m hm
    refine .kept m hm ?_
    rw [htouch, if_neg (L.not_pending (MqLedger.places_pos_message hm) s)]
  unfold MqDb.commit at hm
  cases hg : db.txs.get s with
  | none => rw [hg] at hm; exact hkept m hm
  | some t =>
    rw [hg] at hm
    rcases List.mem_append.mp hm with hm | hm
    · exact hkept m hm
    · refine .sent m t hg hm ?_
      rw [htouch, if_pos]
      unfold MqDb.pendingIds
      rw [hg]
      exact List.mem_map_of_mem hm

theorem rowChange_insertMessage (L : MqLedger db h) {q : Int} {payload : Json} {delay : Int}
    {r : Except SqlError Int}
    (hx : (MqStmt.insertMessage q payload delay).exec s c db = some (r, db')) :
    ∀ m ∈ db'.messages, RowChange ⟨s, op, c, .insertMessage q payload delay, r, db⟩ m := by
  intro m hm
  obtain ⟨t, hg, ⟨rfl, rfl⟩ | ⟨e, rfl, rfl⟩⟩ := insertMessage_cases hx
  · have hm' : m ∈ db.messages := hm
    have hlt := L.lt_next (MqLedger.places_pos_message hm')
    refine .kept m hm' ?_
    show (if db.nextMessageId = m.id then _ else Touch.none) = _
    rw [if_neg (by omega)]
  · exact .kept m hm rfl

/-- **Every row of the next `mq_messages` is accounted for.** -/
theorem rowChange (L : MqLedger db h) {st : MqStmt} {r : st.Res}
    (hx : st.exec s c db = some (r, db')) :
    ∀ m ∈ db'.messages, RowChange ⟨s, op, c, st, r, db⟩ m := by
  cases st with
  | insertQueue name durable limit =>
    obtain rfl : db.insertQueue name durable limit = db' := congrArg Prod.snd (Option.some.inj hx)
    intro m hm
    refine .kept m ?_ rfl
    unfold MqDb.insertQueue at hm
    split at hm <;> exact hm
  | deleteQueue name =>
    change (if _ then none else some _) = _ at hx
    split at hx
    · exact absurd hx (by simp)
    · obtain rfl : (db.deleteQueue name).2 = db' := congrArg Prod.snd (Option.some.inj hx)
      exact fun m hm => .kept m (List.mem_of_mem_filter hm) rfl
  | deleteMessages q =>
    obtain rfl := congrArg Prod.snd (Option.some.inj hx)
    exact fun m hm => .kept m (List.mem_of_mem_filter hm) rfl
  | commit =>
    obtain rfl : db.commit s = db' := congrArg Prod.snd (Option.some.inj hx)
    exact rowChange_commit L
  | insertMessage q payload delay => exact rowChange_insertMessage L hx
  | deadLetterDue q =>
    obtain rfl : (db.deadLetterDue q (db.now s c.now)).2 = db' :=
      congrArg Prod.snd (Option.some.inj hx)
    intro m hm
    obtain ⟨sel, reason, he, -⟩ := deadLetterDue_eq db q (db.now s c.now)
    rw [he, moveToDlq_messages] at hm
    exact .kept m (List.mem_of_mem_filter hm) rfl
  | claim q n t => exact rowChange_claim L (Option.some.inj hx)
  | deadLetter q i reason =>
    obtain ⟨rfl, rfl⟩ := Prod.mk.inj (Option.some.inj hx)
    exact rowChange_deadLetter L
  | reprocess q i =>
    obtain ⟨rfl, rfl⟩ := Prod.mk.inj (Option.some.inj hx)
    exact rowChange_reprocess L
  | ack q i token =>
    obtain rfl := congrArg Prod.snd (Option.some.inj hx)
    exact fun m hm => .kept m (List.mem_of_mem_filter hm) rfl
  | archive q i token =>
    obtain rfl : (db.archive q i token (db.now s c.now)).2 = db' :=
      congrArg Prod.snd (Option.some.inj hx)
    intro m hm
    rw [(archive_spec db q i token _).2.1] at hm
    exact .kept m (List.mem_of_mem_filter hm) rfl
  | setVisibility q i token t =>
    obtain ⟨rfl, rfl⟩ := Prod.mk.inj (Option.some.inj hx)
    exact rowChange_setVisibility L
  | idle => exact absurd hx (by simp [MqStmt.exec])
  | _ =>
    obtain rfl := congrArg Prod.snd (Option.some.inj hx)
    exact fun m hm => .kept m hm rfl

/-! ## `mq_dlq` -/

theorem mem_foldl_insertDlq {now : Time} {reason : String} {l : List MessageRow} {db : MqDb}
    {d : DlqRow} (hd : d ∈ (l.foldl (MqDb.insertDlq now reason) db).dlq) :
    d ∈ db.dlq ∨ ∃ m ∈ l, d.originalMessageId = m.id := by
  induction l generalizing db with
  | nil => exact .inl hd
  | cons m l ih =>
    rcases ih hd with h1 | ⟨m₂, hm₂, he⟩
    · unfold MqDb.insertDlq at h1
      split at h1
      · exact .inl h1
      · rcases List.mem_append.mp h1 with h2 | h2
        · exact .inl h2
        · obtain rfl := List.mem_singleton.mp h2
          exact .inr ⟨m, List.mem_cons_self, rfl⟩
    · exact .inr ⟨m₂, List.mem_cons_of_mem _ hm₂, he⟩

theorem mem_moveToDlq {sel : MessageRow → Bool} {now : Time} {reason : String} {d : DlqRow}
    (hd : d ∈ (db.moveToDlq sel now reason).2.dlq) :
    d ∈ db.dlq ∨ ∃ m ∈ db.messages, sel m = true ∧ d.originalMessageId = m.id := by
  rcases mem_foldl_insertDlq hd with h1 | ⟨m, hm, he⟩
  · exact .inl h1
  · obtain ⟨hm1, hm2⟩ := List.mem_filter.mp hm
    exact .inr ⟨m, hm1, hm2, he⟩

/-- a message of `mq_dlq` is not touched by what works on active messages -/
theorem touchOf_dlq_claim (L : MqLedger db h) {q n t : Int}
    {r : Except SqlError (List QueueMessage)} (hx : db.claim q n t (db.now s c.now) c = (r, db'))
    {d : DlqRow} (hd : d ∈ db.dlq) :
    touchOf ⟨s, op, c, .claim q n t, r, db⟩ d.originalMessageId = .none := by
  cases r with
  | error e => rfl
  | ok ms =>
    obtain ⟨rfl, -⟩ := claim_ok hx
    rw [touchOf_claim]
    cases hf : List.find? (fun x : QueueMessage => x.id == d.originalMessageId) _ with
    | none => rfl
    | some x =>
      obtain ⟨m, hm, rfl⟩ := List.mem_map.mp (List.mem_of_find?_eq_some hf)
      have hid : m.id = d.originalMessageId := by
        simpa [rowToMessage, MessageRow.claim] using List.find?_some hf
      refine absurd ?_ (L.not_message hd)
      rw [← hid]
      exact List.mem_map_of_mem (List.mem_of_mem_filter hm)

theorem touchOf_dlq_setVisibility (L : MqLedger db h) {q i : Int} {token : String} {t : Int}
    {d : DlqRow} (hd : d ∈ db.dlq) :
    touchOf ⟨s, op, c, .setVisibility q i token t,
      (db.setVisibility q i token t (db.now s c.now)).1, db⟩ d.originalMessageId = .none := by
  show (if i = d.originalMessageId ∧
    0 < (db.messages.filter fun m => m.heldBy q i token (db.now s c.now)).length
    then _ else Touch.none) = _
  rw [if_neg]
  intro hex
  obtain ⟨hi, hpos⟩ := hex
  obtain ⟨m, hm⟩ := List.exists_mem_of_length_pos hpos
  obtain ⟨hm1, hm2⟩ := List.mem_filter.mp hm
  apply L.not_message hd
  rw [← hi, ← heldBy_id hm2]
  exact List.mem_map_of_mem hm1

theorem dlqChange_deadLetter (L : MqLedger db h) {q i : Int} {reason : String} :
    ∀ d ∈ (db.deadLetter q i reason (db.now s c.now)).2.dlq,
      DlqChange ⟨s, op, c, .deadLetter q i reason,
        (db.deadLetter q i reason (db.now s c.now)).1, db⟩ d := by
  intro d hd
  have hcount : (db.deadLetter q i reason (db.now s c.now)).1
      = (db.messages.filter fun m => m.queueId == q && m.id == i).length :=
    (moveToDlq_spec db (fun m => m.queueId == q && m.id == i) (db.now s c.now) reason
      L.messageIds_nodup (fun m hm => L.not_dlq hm)).1
  have htouch : ∀ id, touchOf ⟨s, op, c, .deadLetter q i reason,
      (db.deadLetter q i reason (db.now s c.now)).1, db⟩ id
      = if i = id ∧ 0 < (db.messages.filter fun m => m.queueId == q && m.id == i).length
        then .deadLettered else .none := fun id => by rw [← hcount]; rfl
  have hsel : ∀ m : MessageRow, (m.queueId == q && m.id == i) = true → m.id = i := by
    intro m hm
    simp only [Bool.and_eq_true, beq_iff_eq] at hm
    exact hm.2
  rcases mem_moveToDlq hd with hd | ⟨m, hm, hs, he⟩
  · refine .kept d hd ?_
    rw [htouch, if_neg]
    intro hex
    obtain ⟨hi, hpos⟩ := hex
    obtain ⟨m, hm⟩ := List.exists_mem_of_length_pos hpos
    obtain ⟨hm1, hm2⟩ := List.mem_filter.mp hm
    apply L.not_message hd
    rw [← hi, ← hsel m hm2]
    exact List.mem_map_of_mem hm1
  · refine .moved d m hm he ?_
    rw [htouch, if_pos ⟨(hsel m hs).symm, List.length_pos_of_mem (List.mem_filter.mpr ⟨hm, hs⟩)⟩]

theorem MqLedger.dlq_eq_of_id (L : MqLedger db h) {d d' : DlqRow} (hd : d ∈ db.dlq)
    (hd' : d' ∈ db.dlq) (he : d.originalMessageId = d'.originalMessageId) : d = d' := by
  refine List.inj_on_of_nodup_map (f := DlqRow.originalMessageId) ?_ hd hd' he
  rw [List.nodup_iff_count_le_one]
  intro id
  have h1 := L.places_le id
  rw [places_count] at h1
  have h2 : (db.dlq.map DlqRow.originalMessageId).count id = db.dlqIds.count id := rfl
  omega

theorem dlqChange_reprocess (L : MqLedger db h) {q i : Int} :
    ∀ d ∈ (db.reprocess q i (db.now s c.now)).2.dlq,
      DlqChange ⟨s, op, c, .reprocess q i, (db.reprocess q i (db.now s c.now)).1, db⟩ d := by
  intro d hd
  rw [L.reprocess_ok q i (db.now s c.now)] at hd ⊢
  obtain ⟨hd1, hd2⟩ := List.mem_filter.mp hd
  refine .kept d hd1 ?_
  show (if i = d.originalMessageId ∧ 0 < (db.dlq.filter fun d => d.isEntry q i).length
    then Touch.requeued else .none) = _
  rw [if_neg]
  intro hex
  obtain ⟨hi, hpos⟩ := hex
  obtain ⟨d₂, hd₂⟩ := List.exists_mem_of_length_pos hpos
  obtain ⟨hd₂, he⟩ := List.mem_filter.mp hd₂
  have hid : d₂.originalMessageId = i := by
    have he' := he
    unfold DlqRow.isEntry at he'
    simp only [Bool.and_eq_true, beq_iff_eq] at he'
    exact he'.2
  obtain rfl := L.dlq_eq_of_id hd₂ hd1 (hid.trans hi)
  rw [he] at hd2
  exact absurd hd2 (by decide)

/-- **Every row of the next `mq_dlq` is accounted for.** -/
theorem dlqChange (L : MqLedger db h) {st : MqStmt} {r : st.Res}
    (hx : st.exec s c db = some (r, db')) : ∀ d ∈ db'.dlq, DlqChange ⟨s, op, c, st, r, db⟩ d := by
  cases st with
  | insertQueue name durable limit =>
    obtain rfl : db.insertQueue name durable limit = db' := congrArg Prod.snd (Option.some.inj hx)
    intro d hd
    refine .kept d ?_ rfl
    unfold MqDb.insertQueue at hd
    split at hd <;> exact hd
  | deleteQueue name =>
    change (if _ then none else some _) = _ at hx
    split at hx
    · exact absurd hx (by simp)
    · obtain rfl : (db.deleteQueue name).2 = db' := congrArg Prod.snd (Option.some.inj hx)
      exact fun d hd => .kept d (List.mem_of_mem_filter hd) rfl
  | commit =>
    obtain rfl : db.commit s = db' := congrArg Prod.snd (Option.some.inj hx)
    intro d hd
    have hd' : d ∈ db.dlq := by
      unfold MqDb.commit at hd
      split at hd <;> exact hd
    refine .kept d hd' ?_
    show (if d.originalMessageId ∈ db.pendingIds s then Touch.sent else .none) = _
    rw [if_neg (L.not_pending (MqLedger.places_pos_dlq hd') s)]
  | insertMessage q payload delay =>
    intro d hd
    obtain ⟨t, hg, ⟨rfl, rfl⟩ | ⟨e, rfl, rfl⟩⟩ := insertMessage_cases hx
    · have hd' : d ∈ db.dlq := hd
      have hlt := L.lt_next (MqLedger.places_pos_dlq hd')
      refine .kept d hd' ?_
      show (if db.nextMessageId = d.originalMessageId then _ else Touch.none) = _
      rw [if_neg (by omega)]
    · exact .kept d hd rfl
  | deadLetterDue q =>
    obtain rfl : (db.deadLetterDue q (db.now s c.now)).2 = db' :=
      congrArg Prod.snd (Option.some.inj hx)
    intro d hd
    obtain ⟨sel, reason, he, hsel⟩ := deadLetterDue_eq db q (db.now s c.now)
    rw [he] at hd
    rcases mem_moveToDlq hd with hd | ⟨m, hm, hs, hid⟩
    · exact .kept d hd rfl
    · exact .due d m q hm hid rfl (hsel m hs).1 rfl
  | claim q n t =>
    intro d hd
    have hx' := Option.some.inj hx
    have hdb : (db.claim q n t (db.now s c.now) c).2 = db' := congrArg Prod.snd hx'
    obtain ⟨ms, he⟩ := claim_same db q n t (db.now s c.now) c
    have hd' : d ∈ db.dlq := by
      rw [← hdb, he] at hd
      exact hd
    exact .kept d hd' (touchOf_dlq_claim L hx' hd')
  | deadLetter q i reason =>
    obtain ⟨rfl, rfl⟩ := Prod.mk.inj (Option.some.inj hx)
    exact dlqChange_deadLetter L
  | reprocess q i =>
    obtain ⟨rfl, rfl⟩ := Prod.mk.inj (Option.some.inj hx)
    exact dlqChange_reprocess L
  | deleteDlq q =>
    obtain rfl := congrArg Prod.snd (Option.some.inj hx)
    exact fun d hd => .kept d (List.mem_of_mem_filter hd) rfl
  | sweepDlq n =>
    obtain rfl := congrArg Prod.snd (Option.some.inj hx)
    exact fun d hd => .kept d (List.mem_of_mem_filter hd) rfl
  | archive q i token =>
    obtain rfl : (db.archive q i token (db.now s c.now)).2 = db' :=
      congrArg Prod.snd (Option.some.inj hx)
    intro d hd
    rw [(archive_spec db q i token _).2.2.1] at hd
    exact .kept d hd rfl
  | setVisibility q i token t =>
    obtain ⟨rfl, rfl⟩ := Prod.mk.inj (Option.some.inj hx)
    exact fun d hd => .kept d hd (touchOf_dlq_setVisibility L hd)
  | idle => exact absurd hx (by simp [MqStmt.exec])
  | _ =>
    obtain rfl := congrArg Prod.snd (Option.some.inj hx)
    exact fun d hd => .kept d hd rfl

/-! ## open transactions -/

theorem touchOf_pending {st : MqStmt} {r : st.Res} (L : MqLedger db h)
    (hx : st.exec s c db = some (r, db')) {t : Nat} {x : MqTx} {m : MessageRow}
    (hg : db.txs.get t = some x) (hm : m ∈ x.pending) (ht : st = .commit → t ≠ s) :
    touchOf ⟨s, op, c, st, r, db⟩ m.id = .none := by
  have hpos := MqLedger.pendingCount_pos hg hm
  have hout : db.places.count m.id = 0 := by
    have h1 := L.once m.id
    have h2 := L.flow m.id
    omega
  have hno : m.id ∉ db.messageIds := by
    intro hc
    have h1 : 0 < db.messageIds.count m.id := List.count_pos_iff.mpr hc
    rw [MqLedger.places_count] at hout
    omega
  have hnod : m.id ∉ db.dlqIds := by
    intro hc
    have h1 : 0 < db.dlqIds.count m.id := List.count_pos_iff.mpr hc
    rw [MqLedger.places_count] at hout
    omega
  cases st with
  | commit =>
    show (if m.id ∈ db.pendingIds s then Touch.sent else .none) = _
    rw [if_neg (L.pending_other (ht rfl) hg hm)]
  | insertMessage q payload delay =>
    have hlt : m.id < db.nextMessageId := L.below m.id (by omega)
    obtain ⟨y, -, ⟨rfl, rfl⟩ | ⟨e, rfl, rfl⟩⟩ := insertMessage_cases hx
    · show (if db.nextMessageId = m.id then _ else Touch.none) = _
      rw [if_neg (by omega)]
    · rfl
  | claim q n t =>
    cases r with
    | error e => rfl
    | ok ms =>
      obtain ⟨rfl, -⟩ := claim_ok (Option.some.inj hx)
      rw [touchOf_claim]
      cases hf : List.find? (fun x : QueueMessage => x.id == m.id) _ with
      | none => rfl
      | some x =>
        obtain ⟨m₂, hm₂, rfl⟩ := List.mem_map.mp (List.mem_of_find?_eq_some hf)
        have hid : m₂.id = m.id := by
          simpa [rowToMessage, MessageRow.claim] using List.find?_some hf
        refine absurd ?_ hno
        rw [← hid]
        exact List.mem_map_of_mem (List.mem_of_mem_filter hm₂)
  | setVisibility q i token t =>
    obtain ⟨rfl, rfl⟩ := Prod.mk.inj (Option.some.inj hx)
    show (if i = m.id ∧ 0 < (db.messages.filter fun m => m.heldBy q i token (db.now s c.now)).length
      then _ else Touch.none) = _
    rw [if_neg]
    intro hex
    obtain ⟨hi, hp⟩ := hex
    obtain ⟨m₂, hm₂⟩ := List.exists_mem_of_length_pos hp
    obtain ⟨hm₂, hh⟩ := List.mem_filter.mp hm₂
    apply hno
    rw [← hi, ← heldBy_id hh]
    exact List.mem_map_of_mem hm₂
  | deadLetter q i reason =>
    obtain ⟨rfl, rfl⟩ := Prod.mk.inj (Option.some.inj hx)
    have hcount : (db.deadLetter q i reason (db.now s c.now)).1
        = (db.messages.filter fun m => m.queueId == q && m.id == i).length :=
      (moveToDlq_spec db (fun m => m.queueId == q && m.id == i) (db.now s c.now) reason
        L.messageIds_nodup (fun m hm => L.not_dlq hm)).1
    show (if i = m.id ∧ 0 < (db.deadLetter q i reason (db.now s c.now)).1 then _
      else Touch.none) = _
    rw [if_neg]
    intro hex
    obtain ⟨hi, hp⟩ := hex
    rw [hcount] at hp
    obtain ⟨m₂, hm₂⟩ := List.exists_mem_of_length_pos hp
    obtain ⟨hm₂, hh⟩ := List.mem_filter.mp hm₂
    simp only [Bool.and_eq_true, beq_iff_eq] at hh
    apply hno
    rw [← hi, ← hh.2]
    exact List.mem_map_of_mem hm₂
  | reprocess q i =>
    have hx' := Option.some.inj hx
    rw [L.reprocess_ok q i (db.now s c.now)] at hx'
    obtain ⟨rfl, rfl⟩ := Prod.mk.inj hx'
    show (if i = m.id ∧ 0 < (db.dlq.filter fun d => d.isEntry q i).length then _
      else Touch.none) = _
    rw [if_neg]
    intro hex
    obtain ⟨hi, hp⟩ := hex
    obtain ⟨d, hd⟩ := List.exists_mem_of_length_pos hp
    obtain ⟨hd, he⟩ := List.mem_filter.mp hd
    unfold DlqRow.isEntry at he
    simp only [Bool.and_eq_true, beq_iff_eq] at he
    apply hnod
    rw [← hi, ← he.2]
    exact List.mem_map_of_mem hd
  | _ => rfl

/-- **Every row of an open transaction is accounted for.** -/
theorem pendingChange (L : MqLedger db h) {st : MqStmt} {r : st.Res}
    (hx : st.exec s c db = some (r, db')) (t : Nat) (x : MqTx) (hg : db'.txs.get t = some x) :
    ∀ m ∈ x.pending, PendingChange ⟨s, op, c, st, r, db⟩ t m := by
  intro m hm
  have hother : t ≠ s → PendingChange ⟨s, op, c, st, r, db⟩ t m := by
    intro hts
    have hg' : db.txs.get t = some x := (exec_txs_other hts hx).symm.trans hg
    exact .kept m x hg' hm (touchOf_pending L hx hg' hm fun _ => hts)
  by_cases hts : t = s
  · subst hts
    cases hst : st.isTx with
    | false =>
      have hg' : db.txs.get t = some x := by
        rw [← exec_txs hst hx]
        exact hg
      exact .kept m x hg' hm (touchOf_pending L hx hg' hm fun hc => by rw [hc] at hst; cases hst)
    | true =>
      cases st with
      | begin =>
        obtain rfl : db.begin t c.now = db' := congrArg Prod.snd (Option.some.inj hx)
        unfold MqDb.begin at hg
        rw [Slots.get_set_self] at hg
        obtain rfl := Option.some.inj hg
        exact absurd hm List.not_mem_nil
      | commit =>
        obtain rfl : db.commit t = db' := congrArg Prod.snd (Option.some.inj hx)
        unfold MqDb.commit at hg
        split at hg
        · rename_i hn
          rw [hn] at hg
          cases hg
        · rw [Slots.get_erase_self] at hg
          cases hg
      | rollback =>
        obtain rfl : db.rollback t = db' := congrArg Prod.snd (Option.some.inj hx)
        unfold MqDb.rollback at hg
        rw [Slots.get_erase_self] at hg
        cases hg
      | insertMessage q payload delay =>
        obtain ⟨y, hgs, ⟨rfl, rfl⟩ | ⟨e, rfl, rfl⟩⟩ := insertMessage_cases hx
        · rw [Slots.get_set_self] at hg
          obtain rfl := Option.some.inj hg
          rcases List.mem_append.mp hm with hm | hm
          · exact .kept m y hgs hm (touchOf_pending L hx hgs hm fun hc => by cases hc)
          · obtain rfl := List.mem_singleton.mp hm
            refine .inserted _ ?_ ⟨rfl, rfl, rfl⟩
            show (if db.nextMessageId = db.nextMessageId then
              Touch.inserted (db.now t c.now + seconds delay) else .none) = _
            rw [if_pos rfl]
            unfold MqDb.now
            rw [hgs]
            rfl
        · exact .kept m x hg hm rfl
      | _ => exact absurd hst (by simp [MqStmt.isTx])
  · exact hother hts

end

end PgApp
