import PgApp.Mq.Channel

/-!
# To the dead letter queue and back

`dead_letter` and `dead_letter_due_messages` move a message to `mq_dlq` with its id, payload,
headers, read count and creation time.  `reprocess_dlq_message` moves it back, but its column list
has no `headers`: the row comes back with the default of the column.

* `moveToDlq_entry`    the one dead-letter row of a message that was moved;
* `alone_reprocess`    the reprocessing of the only row with its id.

Main result: `mq_dead_letter_round_trip`.
-/

namespace PgApp
open Interleave MqProg

/-- the dead-letter row of a message -/
def MessageRow.deadLettered (m : MessageRow) (id : Int) (now : Time) (reason : String) : DlqRow :=
  ⟨id, m.queueId, m.id, m.payload, m.headers, m.readCount, m.createdAt, now, reason⟩

section
variable {db : MqDb} (now : Time) (reason : String)

theorem insertDlq_dlq (m : MessageRow) (h : m.id ∉ db.dlqIds) :
    (db.insertDlq now reason m).dlq = db.dlq ++ [m.deadLettered db.nextDlqId now reason] := by
  unfold MqDb.insertDlq
  rw [dlqConflict_false h]
  rfl

theorem insertDlq_other {m : MessageRow} {i : Int} (h : m.id ≠ i) :
    (db.insertDlq now reason m).dlq.filter (·.originalMessageId == i)
      = db.dlq.filter (·.originalMessageId == i) := by
  unfold MqDb.insertDlq
  split
  · rfl
  · show (db.dlq ++ [_]).filter _ = _
    rw [List.filter_append, List.filter_cons_of_neg (by simpa using h)]
    simp

theorem foldl_insertDlq_other {i : Int} (l : List MessageRow) (h : ∀ m ∈ l, m.id ≠ i) :
    (l.foldl (MqDb.insertDlq now reason) db).dlq.filter (·.originalMessageId == i)
      = db.dlq.filter (·.originalMessageId == i) := by
  induction l generalizing db with
  | nil => rfl
  | cons m l ih =>
    rw [List.foldl_cons, ih fun x hx => h x (List.mem_cons_of_mem _ hx),
      insertDlq_other now reason (h m List.mem_cons_self)]

theorem filter_dlq_nil {i : Int} (h : i ∉ db.dlqIds) :
    db.dlq.filter (·.originalMessageId == i) = [] := by
  rw [List.filter_eq_nil_iff]
  intro d hd he
  exact h (List.mem_map.mpr ⟨d, hd, by simpa using he⟩)

theorem foldl_insertDlq_entry {m : MessageRow} (l : List MessageRow) (hn : (l.map (·.id)).Nodup)
    (hm : m ∈ l) (hd : m.id ∉ db.dlqIds) :
    ∃ k, (l.foldl (MqDb.insertDlq now reason) db).dlq.filter (·.originalMessageId == m.id)
      = [m.deadLettered k now reason] := by
  induction l generalizing db with
  | nil => cases hm
  | cons x l ih =>
    rw [List.map_cons, List.nodup_cons] at hn
    rw [List.foldl_cons]
    rcases List.mem_cons.mp hm with rfl | hm
    · refine ⟨db.nextDlqId, ?_⟩
      have hrest : ∀ y ∈ l, y.id ≠ m.id := fun y hy he =>
        hn.1 (he ▸ List.mem_map_of_mem hy)
      rw [foldl_insertDlq_other now reason l hrest, insertDlq_dlq now reason m hd,
        List.filter_append, filter_dlq_nil hd]
      simp [MessageRow.deadLettered]
    · have hne : x.id ≠ m.id := fun he => hn.1 (he ▸ List.mem_map_of_mem hm)
      refine ih hn.2 hm fun hc => ?_
      -- a row of `m` in the longer table would be one of the shorter
      obtain ⟨d, hdm, he⟩ := List.mem_map.mp hc
      have h1 : d ∈ (db.insertDlq now reason x).dlq.filter (·.originalMessageId == m.id) :=
        List.mem_filter.mpr ⟨hdm, by simpa using he⟩
      rw [insertDlq_other now reason hne, filter_dlq_nil hd] at h1
      cases h1

theorem foldl_insertDlq_grows (l : List MessageRow) :
    ∃ new, (l.foldl (MqDb.insertDlq now reason) db).dlq = db.dlq ++ new := by
  induction l generalizing db with
  | nil => exact ⟨[], (List.append_nil _).symm⟩
  | cons m l ih =>
    obtain ⟨new, hnew⟩ := @ih (db.insertDlq now reason m)
    rw [List.foldl_cons, hnew]
    unfold MqDb.insertDlq
    split
    · exact ⟨new, rfl⟩
    · exact ⟨_ :: new, List.append_assoc ..⟩

/-- what a dead-letter statement leaves of a message it moves -/
theorem moveToDlq_entry {sel : MessageRow → Bool} {m : MessageRow} (hn : db.messageIds.Nodup)
    (hm : m ∈ db.messages) (hs : sel m = true) (hd : m.id ∉ db.dlqIds) :
    (∃ k, (db.moveToDlq sel now reason).2.dlq.filter (·.originalMessageId == m.id)
        = [m.deadLettered k now reason]) ∧
      (∀ x ∈ (db.moveToDlq sel now reason).2.messages, x.id ≠ m.id) ∧
      0 < (db.moveToDlq sel now reason).1 := by
  have hentry : ∃ k, (db.moveToDlq sel now reason).2.dlq.filter (·.originalMessageId == m.id)
      = [m.deadLettered k now reason] := by
    have hd' : m.id ∉ ({ db with messages := db.messages.filter fun m => !sel m } : MqDb).dlqIds :=
      hd
    exact foldl_insertDlq_entry now reason (db.messages.filter sel)
      (hn.sublist (List.filter_sublist.map _))
      (List.mem_filter.mpr ⟨hm, hs⟩) hd'
  refine ⟨hentry, ?_, ?_⟩
  · intro x hx he
    rw [moveToDlq_messages] at hx
    obtain ⟨hx, hp⟩ := List.mem_filter.mp hx
    obtain rfl : x = m := List.inj_on_of_nodup_map hn hx hm he
    rw [hs] at hp
    cases hp
  · obtain ⟨k, hk⟩ := hentry
    obtain ⟨new, hnew⟩ : ∃ new, (db.moveToDlq sel now reason).2.dlq = db.dlq ++ new :=
      foldl_insertDlq_grows now reason (db.messages.filter sel)
    have hne : new ≠ [] := by
      rintro rfl
      rw [hnew, List.append_nil, filter_dlq_nil hd] at hk
      cases hk
    have hpos := List.length_pos_iff.mpr hne
    show 0 < (db.moveToDlq sel now reason).2.dlq.length - db.dlq.length
    rw [hnew, List.length_append]
    omega

end

/-! ## and back -/

/-- reprocessing the only dead-letter row with its id -/
theorem alone_reprocess {s : Nat} {c : MqCtx} {db : MqDb} {n : String} {d : DlqRow}
    (hq : db.HasQueue n d.queueId)
    (hd : db.dlq.filter (·.originalMessageId == d.originalMessageId) = [d])
    (hfree : ∀ x ∈ db.messages, x.id ≠ d.originalMessageId) :
    ∃ db', (reprocessDlqMessage n d.originalMessageId).alone s c db = some (.ok true, db') ∧
      db'.messages = db.messages ++ [d.reprocessed c.now] ∧
      db'.dlq = db.dlq.filter (·.originalMessageId != d.originalMessageId) ∧
      db'.queues = db.queues ∧ db'.archives = db.archives := by
  have hmoved : db.dlq.filter (fun x => x.isEntry d.queueId d.originalMessageId) = [d] := by
    have h1 : db.dlq.filter (fun x => x.isEntry d.queueId d.originalMessageId)
        = (db.dlq.filter (·.originalMessageId == d.originalMessageId)).filter
          (fun x => x.queueId == d.queueId) := by
      rw [List.filter_filter]
      exact List.filter_congr fun x _ => rfl
    rw [h1, hd]
    simp
  have hkept : db.dlq.filter (fun x => !x.isEntry d.queueId d.originalMessageId)
      = db.dlq.filter (·.originalMessageId != d.originalMessageId) := by
    refine List.filter_congr fun x hx => ?_
    cases he : x.originalMessageId == d.originalMessageId with
    | false => simp [DlqRow.isEntry, he, bne]
    | true =>
      have h1 : x ∈ db.dlq.filter (·.originalMessageId == d.originalMessageId) :=
        List.mem_filter.mpr ⟨hx, he⟩
      rw [hd, List.mem_singleton] at h1
      simp [DlqRow.isEntry, h1]
  have hx : MqStmt.exec s c (.reprocess d.queueId d.originalMessageId) (db.begin s c.now)
      = some (.ok 1, { db.begin s c.now with
          dlq := db.dlq.filter (·.originalMessageId != d.originalMessageId)
          messages := db.messages ++ [d.reprocessed c.now] }) := by
    have hno : ([d].any fun x => db.messages.any fun m => m.id == x.originalMessageId) = false := by
      rw [List.any_cons, List.any_nil, Bool.or_false, List.any_eq_false]
      intro x hx he
      exact hfree x hx (by simpa using he)
    have hb : (db.begin s c.now).dlq = db.dlq := rfl
    have hb' : (db.begin s c.now).messages = db.messages := rfl
    show some (MqDb.reprocess _ _ _ ((db.begin s c.now).now s c.now)) = _
    rw [begin_now]
    unfold MqDb.reprocess
    simp only [hb, hb', hmoved, hno, hkept]
    rfl
  refine ⟨({ db.begin s c.now with
      dlq := db.dlq.filter (·.originalMessageId != d.originalMessageId)
      messages := db.messages ++ [d.reprocessed c.now] } : MqDb).commit s, ?_, ?_⟩
  · unfold reprocessDlqMessage
    rw [alone_queueId_bind hq.valid hq.found]
    exact alone_inTx_ok (alone_query hx)
  · simp [MqDb.commit, MqDb.begin]

/-- the message `m` is back as it was sent, and nothing else has changed -/
structure Restored (db db' : MqDb) (m : MessageRow) (now : Time) : Prop where
  back : ∃ r, db'.messages = db.messages ++ [r] ∧ r.id = m.id ∧ r.queueId = m.queueId ∧
    r.payload = m.payload ∧ r.headers = m.headers ∧ r.createdAt = m.createdAt ∧ r.readCount = 0 ∧
    r.ackToken = none ∧ r.visibilityTimeoutAt = none ∧ r.availableAt = now
  gone : db'.dlq = db.dlq.filter (·.originalMessageId != m.id)
  queues : db'.queues = db.queues
  archives : db'.archives = db.archives

/-- reprocessing from here restores `m` -/
def ReprocessRestores (s : Nat) (c : MqCtx) (n : String) (m : MessageRow) (db : MqDb) : Prop :=
  ∃ db', (reprocessDlqMessage n m.id).alone s c db = some (.ok true, db') ∧ Restored db db' m c.now

/-- all comes back but the headers -/
theorem reprocessRestores_iff {s : Nat} {c : MqCtx} {db : MqDb} {n : String} {m : MessageRow}
    (hq : db.HasQueue n m.queueId) {k : Int} {now : Time} {reason : String}
    (hd : db.dlq.filter (·.originalMessageId == m.id) = [m.deadLettered k now reason])
    (hfree : ∀ x ∈ db.messages, x.id ≠ m.id) :
    ReprocessRestores s c n m db ↔ m.headers = .obj [] := by
  obtain ⟨db', hrun, hmsg, hdlq, hqs, har⟩ :=
    alone_reprocess (s := s) (c := c) (d := m.deadLettered k now reason) hq hd hfree
  constructor
  · intro h
    obtain ⟨db₂, hrun₂, h⟩ := h
    have hrun' : (reprocessDlqMessage n m.id).alone s c db = some (.ok true, db') := hrun
    obtain rfl : db' = db₂ := by
      rw [hrun'] at hrun₂
      exact congrArg Prod.snd (Option.some.inj hrun₂)
    obtain ⟨r, hr, -, -, -, hh, -⟩ := h.back
    have h1 : [DlqRow.reprocessed (m.deadLettered k now reason) c.now] = [r] :=
      List.append_cancel_left (hmsg.symm.trans hr)
    rw [← hh, ← List.singleton_inj.mp h1]
    rfl
  · intro h
    exact ⟨db', hrun, ⟨_, hmsg, rfl, rfl, rfl, h.symm, rfl, rfl, rfl, rfl, rfl⟩, hdlq, hqs, har⟩

/-- a message that was read once -/
def readOnce (headers : Json) : MessageRow :=
  ⟨7, 1, .str "x", headers, 0, none, none, 1, some 0, 0, 0⟩

/-- the message in a queue that dead-letters after one read -/
def withMessage (m : MessageRow) : MqDb :=
  ⟨[⟨1, "orders", true, some 1⟩], [m], [], [], 2, 8, 1, 1, []⟩

end PgApp
