import PgApp.Mq.Rows

/-!
# Which queues a statement can touch

* `MqDb.rowsOf`   the rows of one queue in the three tables;
* `Touches e q`   the executed statement changes those of queue `q` or hands one of them back;
* `Footprint`     the queue a statement names, those whose rows it commits, the ones it drops, and
                  all of them in the sweep of the dead letters.

Outside its footprint a statement changes no row (`rowsOf_exec`).  A deletion by id and token has
the queue in its WHERE clause; a claim goes by ids alone once it has picked them, and is kept to its
queue by the ids being of one message each (`MqLedger`).

Main result: `footprint`.
-/

namespace PgApp
open Interleave

/-! ## the rows of one queue -/

/-- the rows of a queue in the three tables -/
structure QueueRows where
  messages : List MessageRow
  archives : List ArchiveRow
  dlq : List DlqRow

def MqDb.rowsOf (db : MqDb) (q : Int) : QueueRows :=
  ⟨db.messages.filter (·.queueId == q), db.archives.filter (·.queueId == q),
    db.dlq.filter (·.queueId == q)⟩

theorem filter_keeps {α : Type} {p keep : α → Bool} {l : List α}
    (h : ∀ a ∈ l, p a = true → keep a = true) : (l.filter keep).filter p = l.filter p := by
  rw [List.filter_filter]
  refine List.filter_congr fun a ha => ?_
  cases hp : p a with
  | false => rfl
  | true => exact h a ha hp

theorem filter_map_keeps {l : List MessageRow} {f : MessageRow → MessageRow} {i : Int}
    (hq : ∀ m, (f m).queueId = m.queueId) (hf : ∀ m ∈ l, m.queueId = i → f m = m) :
    (l.map f).filter (·.queueId == i) = l.filter (·.queueId == i) := by
  induction l with
  | nil => rfl
  | cons m l ih =>
    have ih' := ih fun m hm => hf m (List.mem_cons_of_mem _ hm)
    rw [List.map_cons, List.filter_cons, List.filter_cons, hq, ih']
    split
    · rename_i hm
      rw [hf m List.mem_cons_self (by simpa using hm)]
    · rfl

theorem filter_append_other {α : Type} {p : α → Bool} {l new : List α}
    (h : ∀ a ∈ new, p a = false) : (l ++ new).filter p = l.filter p := by
  have h1 : new.filter p = [] :=
    List.filter_eq_nil_iff.mpr fun a ha => by rw [h a ha]; exact Bool.false_ne_true
  rw [List.filter_append, h1, List.append_nil]

section
variable {db : MqDb} {q i : Int}

theorem foldl_insertDlq_dlq {now : Time} {reason : String} {l : List MessageRow} (hi : i ≠ q)
    (hl : ∀ m ∈ l, m.queueId = q) (db : MqDb) :
    (l.foldl (MqDb.insertDlq now reason) db).dlq.filter (·.queueId == i)
      = db.dlq.filter (·.queueId == i) := by
  induction l generalizing db with
  | nil => rfl
  | cons m l ih =>
    rw [List.foldl_cons, ih fun m hm => hl m (List.mem_cons_of_mem _ hm)]
    have hm : m.queueId = q := hl m List.mem_cons_self
    unfold MqDb.insertDlq
    split
    · rfl
    · refine filter_append_other fun d hd => ?_
      rw [List.mem_singleton.mp hd]
      simpa [hm] using Ne.symm hi

theorem rowsOf_moveToDlq {sel : MessageRow → Bool} {now : Time} {reason : String} (hi : i ≠ q)
    (hsel : ∀ m, sel m = true → m.queueId = q) :
    (db.moveToDlq sel now reason).2.rowsOf i = db.rowsOf i := by
  unfold MqDb.rowsOf
  rw [moveToDlq_messages, (moveToDlq_same db sel now reason).archives]
  have h1 : (db.messages.filter fun m => !sel m).filter (·.queueId == i)
      = db.messages.filter (·.queueId == i) := by
    refine filter_keeps fun m _ hm => ?_
    cases hs : sel m with
    | false => rfl
    | true => exact absurd ((beq_iff_eq.mp hm).symm.trans (hsel m hs)) hi
  have h2 : (db.moveToDlq sel now reason).2.dlq.filter (·.queueId == i)
      = db.dlq.filter (·.queueId == i) := by
    refine foldl_insertDlq_dlq hi (fun m hm => ?_) _
    exact hsel m (List.mem_filter.mp hm).2
  rw [h1, h2]

theorem heldBy_queue {m : MessageRow} {id : Int} {token : String} {now : Time}
    (hh : m.heldBy q id token now = true) : m.queueId = q := by
  unfold MessageRow.heldBy at hh
  simp only [Bool.and_eq_true, beq_iff_eq] at hh
  exact hh.1.1.1

theorem heldBy_other {m : MessageRow} {id : Int} {token : String} {now : Time} (hi : i ≠ q)
    (hm : m.queueId = i) : m.heldBy q id token now = false := by
  cases hh : m.heldBy q id token now with
  | false => rfl
  | true => exact absurd (hm.symm.trans (heldBy_queue hh)) hi

theorem filter_heldBy_other {id : Int} {token : String} {now : Time} (hi : i ≠ q)
    (l : List MessageRow) :
    (l.filter fun m => !m.heldBy q id token now).filter (·.queueId == i)
      = l.filter (·.queueId == i) := by
  refine filter_keeps fun m _ hm => ?_
  rw [heldBy_other hi (beq_iff_eq.mp hm)]
  rfl

theorem foldl_insertArchive_archives {now : Time} {l : List MessageRow} (hi : i ≠ q)
    (hl : ∀ m ∈ l, m.queueId = q) (db : MqDb) :
    (l.foldl (MqDb.insertArchive now) db).archives.filter (·.queueId == i)
      = db.archives.filter (·.queueId == i) := by
  induction l generalizing db with
  | nil => rfl
  | cons m l ih =>
    rw [List.foldl_cons, ih fun m hm => hl m (List.mem_cons_of_mem _ hm)]
    have hm : m.queueId = q := hl m List.mem_cons_self
    refine filter_append_other fun a ha => ?_
    rw [List.mem_singleton.mp ha]
    simpa [hm] using Ne.symm hi

theorem rowsOf_archive {id : Int} {token : String} {now : Time} (hi : i ≠ q) :
    (db.archive q id token now).2.rowsOf i = db.rowsOf i := by
  obtain ⟨-, h1, h2, -⟩ := archive_spec db q id token now
  unfold MqDb.rowsOf
  rw [h1, h2, filter_heldBy_other hi]
  have h3 : (db.archive q id token now).2.archives.filter (·.queueId == i)
      = db.archives.filter (·.queueId == i) := by
    refine foldl_insertArchive_archives hi (fun m hm => ?_) _
    exact heldBy_queue (List.mem_filter.mp hm).2
  rw [h3]

theorem rowsOf_claim {h : List MqEv} (L : MqLedger db h) {n t : Int} {now : Time} {c : MqCtx}
    (hi : i ≠ q) : (db.claim q n t now c).2.rowsOf i = db.rowsOf i := by
  unfold MqDb.claim
  simp only
  split
  · rfl
  · have h1 : (db.messages.map fun m => if (db.picked q n now c.locked).contains m.id then
          m.claim now t (c.token m.id) else m).filter (·.queueId == i)
        = db.messages.filter (·.queueId == i) := by
      refine filter_map_keeps (fun m => ?_) (fun m hm hq => ?_)
      · split <;> rfl
      · refine if_neg fun hc => ?_
        obtain ⟨m₂, hm₂, hid, hq₂, -⟩ := mem_picked (List.contains_iff_mem.mp hc)
        obtain rfl := L.eq_of_id hm₂ hm hid
        exact hi (hq.symm.trans hq₂)
    show QueueRows.mk _ _ _ = _
    rw [h1]
    rfl

theorem rowsOf_setVisibility {id : Int} {token : String} {t : Int} {now : Time} (hi : i ≠ q) :
    (db.setVisibility q id token t now).2.rowsOf i = db.rowsOf i := by
  show QueueRows.mk (List.filter _ (List.map _ _)) _ _ = _
  rw [filter_map_keeps]
  · rfl
  · intro m
    split <;> rfl
  · intro m _ hm
    rw [heldBy_other hi hm]
    rfl

theorem rowsOf_reprocess {id : Int} {now : Time} (hi : i ≠ q) :
    (db.reprocess q id now).2.rowsOf i = db.rowsOf i := by
  have hentry : ∀ d : DlqRow, d.isEntry q id = true → d.queueId = q := by
    intro d hd
    unfold DlqRow.isEntry at hd
    simp only [Bool.and_eq_true, beq_iff_eq] at hd
    exact hd.1
  unfold MqDb.reprocess
  simp only
  split
  · rfl
  · unfold MqDb.rowsOf
    have h1 : (db.dlq.filter fun d => !d.isEntry q id).filter (·.queueId == i)
        = db.dlq.filter (·.queueId == i) := by
      refine filter_keeps fun d _ hd => ?_
      cases he : d.isEntry q id with
      | false => rfl
      | true => exact absurd ((beq_iff_eq.mp hd).symm.trans (hentry d he)) hi
    rw [h1, filter_append_other]
    intro m hm
    obtain ⟨d, hd, rfl⟩ := List.mem_map.mp hm
    have hq : d.queueId = q := hentry d (List.mem_filter.mp hd).2
    simpa [DlqRow.reprocessed, hq] using Ne.symm hi

theorem rowsOf_deleteQueue {name : String} (hi : ∀ x ∈ db.queues, x.name = name → x.id ≠ i) :
    (db.deleteQueue name).2.rowsOf i = db.rowsOf i := by
  have hgone : ((db.queues.filter (·.name == name)).map (·.id)).contains i = false := by
    rw [Bool.eq_false_iff, ne_eq, List.contains_iff_mem]
    intro hm
    obtain ⟨x, hx, hid⟩ := List.mem_map.mp hm
    obtain ⟨hx1, hx2⟩ := List.mem_filter.mp hx
    exact hi x hx1 (by simpa using hx2) hid
  have hkeep : ∀ p : Int, (p == i) = true →
      (!((db.queues.filter (·.name == name)).map (·.id)).contains p) = true := by
    intro p hp
    rw [beq_iff_eq.mp hp, hgone]
    rfl
  unfold MqDb.deleteQueue MqDb.rowsOf
  simp only
  rw [filter_keeps fun m _ => hkeep m.queueId, filter_keeps fun a _ => hkeep a.queueId,
    filter_keeps fun d _ => hkeep d.queueId]

end

/-! ## what a statement can touch -/

/-- the statement answers a row of queue `q` -/
def HandsBack (e : MqEv) (q : Int) : Prop :=
  match e with
  | ⟨_, _, _, .claim _ _ _, .ok ms, db⟩ => ∃ m ∈ db.messages, m.queueId = q ∧ ∃ x ∈ ms, x.id = m.id
  | ⟨_, _, _, .selectDlqPage _ _ _, .ok ds, db⟩ =>
      ∃ d ∈ db.dlq, d.queueId = q ∧ rowToDlqMessage d ∈ ds
  | ⟨_, _, _, .selectDlq _ _, some x, db⟩ => ∃ d ∈ db.dlq, d.queueId = q ∧ rowToDlqMessage d = x
  | _ => False

/-- the statement adds, removes or changes a row of queue `q`, or hands one back -/
def Touches (e : MqEv) (q : Int) : Prop :=
  (∃ db', e.stmt.exec e.sess e.ctx e.pre = some (e.res, db') ∧ db'.rowsOf q ≠ e.pre.rowsOf q) ∨
    HandsBack e q

/-- the queue a statement names by its id -/
def MqStmt.queue : MqStmt → Option Int
  | .deleteMessages q => some q
  | .insertMessage q _ _ => some q
  | .deadLetterDue q => some q
  | .claim q _ _ => some q
  | .deadLetter q _ _ => some q
  | .selectDlqPage q _ _ => some q
  | .selectDlq q _ => some q
  | .reprocess q _ => some q
  | .deleteDlq q => some q
  | .ack q _ _ => some q
  | .archive q _ _ => some q
  | .setVisibility q _ _ _ => some q
  | .countMessages q => some q
  | .countArchives q => some q
  | .countDlq q => some q
  | _ => none

/-- the queues of the rows a session has inserted and not yet committed -/
def MqDb.pendingQueues (db : MqDb) (s : Nat) : List Int :=
  match db.txs.get s with
  | none => []
  | some t => t.pending.map (·.queueId)

/-- where a statement can touch a queue -/
def Footprint (e : MqEv) (i : Int) : Prop :=
  e.stmt.queue = some i ∨ (e.stmt = .commit ∧ i ∈ e.pre.pendingQueues e.sess) ∨
    (∃ name, e.stmt = .deleteQueue name ∧ ∃ x ∈ e.pre.queues, x.name = name ∧ x.id = i) ∨
    ∃ n, e.stmt = .sweepDlq n

section
variable {s : Nat} {op : MqCall} {c : MqCtx} {db db' : MqDb} {h : List MqEv} {i : Int}

theorem rowsOf_commit (hi : i ∉ db.pendingQueues s) : (db.commit s).rowsOf i = db.rowsOf i := by
  unfold MqDb.pendingQueues at hi
  unfold MqDb.commit
  cases hg : db.txs.get s with
  | none => rfl
  | some t =>
    rw [hg] at hi
    show QueueRows.mk (List.filter _ (_ ++ t.pending)) _ _ = _
    rw [filter_append_other]
    · rfl
    · intro m hm
      rw [Bool.eq_false_iff, ne_eq, beq_iff_eq]
      intro hq
      exact hi (hq ▸ List.mem_map_of_mem hm)

/-- **Outside its footprint a statement changes no row.** -/
theorem rowsOf_exec (L : MqLedger db h) {st : MqStmt} {r : st.Res}
    (hx : st.exec s c db = some (r, db')) (hf : ¬ Footprint ⟨s, op, c, st, r, db⟩ i) :
    db'.rowsOf i = db.rowsOf i := by
  have hne : ∀ q, st.queue = some q → i ≠ q := fun q hq he => hf (.inl (he ▸ hq))
  cases st with
  | insertQueue name durable limit =>
    obtain rfl : db.insertQueue name durable limit = db' := congrArg Prod.snd (Option.some.inj hx)
    unfold MqDb.insertQueue
    split <;> rfl
  | deleteQueue name =>
    change (if _ then none else some _) = _ at hx
    split at hx
    · exact absurd hx (by simp)
    · obtain rfl : (db.deleteQueue name).2 = db' := congrArg Prod.snd (Option.some.inj hx)
      refine rowsOf_deleteQueue fun x hx1 hx2 hid => hf ?_
      exact .inr (.inr (.inl ⟨name, rfl, x, hx1, hx2, hid⟩))
  | deleteMessages q =>
    obtain rfl := congrArg Prod.snd (Option.some.inj hx)
    show QueueRows.mk (List.filter _ (List.filter _ _)) _ _ = _
    rw [filter_keeps]
    · rfl
    · intro m _ hm
      rw [bne_iff_ne, beq_iff_eq.mp hm]
      exact hne q rfl
  | commit =>
    obtain rfl : db.commit s = db' := congrArg Prod.snd (Option.some.inj hx)
    exact rowsOf_commit fun hp => hf (.inr (.inl ⟨rfl, hp⟩))
  | insertMessage q payload delay =>
    obtain ⟨t, -, ⟨-, rfl⟩ | ⟨e, -, rfl⟩⟩ := insertMessage_cases hx
    · rfl
    · rfl
  | deadLetterDue q =>
    obtain rfl : (db.deadLetterDue q (db.now s c.now)).2 = db' :=
      congrArg Prod.snd (Option.some.inj hx)
    obtain ⟨sel, reason, he, hsel⟩ := deadLetterDue_eq db q (db.now s c.now)
    rw [he]
    exact rowsOf_moveToDlq (hne q rfl) fun m hm => (hsel m hm).2
  | claim q n t =>
    obtain rfl : (db.claim q n t (db.now s c.now) c).2 = db' :=
      congrArg Prod.snd (Option.some.inj hx)
    exact rowsOf_claim L (hne q rfl)
  | deadLetter q id reason =>
    obtain rfl : (db.deadLetter q id reason (db.now s c.now)).2 = db' :=
      congrArg Prod.snd (Option.some.inj hx)
    refine rowsOf_moveToDlq (hne q rfl) fun m hm => ?_
    simp only [Bool.and_eq_true, beq_iff_eq] at hm
    exact hm.1
  | reprocess q id =>
    obtain rfl : (db.reprocess q id (db.now s c.now)).2 = db' :=
      congrArg Prod.snd (Option.some.inj hx)
    exact rowsOf_reprocess (hne q rfl)
  | deleteDlq q =>
    obtain rfl := congrArg Prod.snd (Option.some.inj hx)
    show QueueRows.mk _ _ (List.filter _ (List.filter _ _)) = _
    rw [filter_keeps]
    · rfl
    · intro d _ hd
      rw [bne_iff_ne, beq_iff_eq.mp hd]
      exact hne q rfl
  | sweepDlq n => exact absurd (.inr (.inr (.inr ⟨n, rfl⟩))) hf
  | ack q id token =>
    obtain rfl := congrArg Prod.snd (Option.some.inj hx)
    show QueueRows.mk (List.filter _ (List.filter _ _)) _ _ = _
    rw [filter_heldBy_other (hne q rfl)]
    rfl
  | archive q id token =>
    obtain rfl : (db.archive q id token (db.now s c.now)).2 = db' :=
      congrArg Prod.snd (Option.some.inj hx)
    exact rowsOf_archive (hne q rfl)
  | setVisibility q id token t =>
    obtain rfl : (db.setVisibility q id token t (db.now s c.now)).2 = db' :=
      congrArg Prod.snd (Option.some.inj hx)
    exact rowsOf_setVisibility (hne q rfl)
  | idle => exact absurd hx (by simp [MqStmt.exec])
  | _ =>
    obtain rfl := congrArg Prod.snd (Option.some.inj hx)
    rfl

theorem handsBack_queue (L : MqLedger db h) {st : MqStmt} {r : st.Res}
    (hx : st.exec s c db = some (r, db')) (hb : HandsBack ⟨s, op, c, st, r, db⟩ i) :
    st.queue = some i := by
  cases st with
  | claim q n t =>
    cases r with
    | error e => exact absurd hb id
    | ok ms =>
      obtain ⟨rfl, -⟩ := claim_ok (Option.some.inj hx)
      obtain ⟨m, hm, hq, x, hx, hid⟩ := hb
      obtain ⟨m₂, hm₂, rfl⟩ := List.mem_map.mp hx
      obtain ⟨hm₂, hc⟩ := List.mem_filter.mp hm₂
      obtain ⟨m₃, hm₃, hid₃, hq₃, -⟩ := mem_picked (List.contains_iff_mem.mp hc)
      obtain rfl := L.eq_of_id hm₃ hm (hid₃.trans hid)
      rw [← hq, hq₃]
      rfl
  | selectDlqPage q limit offset =>
    cases r with
    | error e => exact absurd hb id
    | ok ds =>
      obtain ⟨d, hd, hq, hmem⟩ := hb
      have hx' : db.selectDlqPage q limit offset = .ok ds :=
        congrArg Prod.fst (Option.some.inj hx)
      unfold MqDb.selectDlqPage at hx'
      split at hx'
      · cases hx'
      · obtain rfl := Except.ok.inj hx'
        obtain ⟨d₂, hd₂, he⟩ := List.mem_map.mp hmem
        have h1 := (List.mem_insertionSort dlqBefore).mp
          (List.mem_of_mem_drop (List.mem_of_mem_take hd₂))
        obtain ⟨hd₃, hq₃⟩ := List.mem_filter.mp h1
        obtain rfl := L.dlq_eq_of_id hd₃ hd (congrArg DlqMessage.originalMessageId he)
        rw [← hq, beq_iff_eq.mp hq₃]
        rfl
  | selectDlq q id =>
    cases r with
    | none => exact absurd hb fun hf => hf
    | some x =>
      obtain ⟨d, hd, hq, rfl⟩ := hb
      have hx' : db.selectDlq q id = some (rowToDlqMessage d) :=
        congrArg Prod.fst (Option.some.inj hx)
      obtain ⟨d₂, hf, he⟩ := Option.map_eq_some_iff.mp hx'
      obtain rfl := L.dlq_eq_of_id (List.mem_of_find?_eq_some hf) hd
        (congrArg DlqMessage.originalMessageId he)
      have hent := List.find?_some hf
      unfold DlqRow.isEntry at hent
      simp only [Bool.and_eq_true, beq_iff_eq] at hent
      rw [← hq, hent.1]
      rfl
  | _ => exact absurd hb fun hf => hf

/-- **Every queue a statement touches is in its footprint.** -/
theorem footprint (L : MqLedger db h) {st : MqStmt} {r : st.Res}
    (hx : st.exec s c db = some (r, db')) (ht : Touches ⟨s, op, c, st, r, db⟩ i) :
    Footprint ⟨s, op, c, st, r, db⟩ i := by
  rcases ht with ⟨db₂, hx₂, hne⟩ | hb
  · by_contra hf
    exact hne (rowsOf_exec L hx₂ hf)
  · exact .inl (handsBack_queue L hx hb)

end

end PgApp
