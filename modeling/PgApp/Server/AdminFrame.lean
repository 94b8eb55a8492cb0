import PgApp.Mq.Frame
import PgApp.Server.AdminHttp

/-!
# What an admin request can change, and who may make it

A request is followed from its start (`Serving`), among any calls of other sessions.

* `quiet`       statements that write none of the cache tables, `mq_queues`, `mq_messages` and
                `mq_archives`.  The handlers issue no others, but for one: a reprocess opens a
                transaction, moves the entry of `mq_dlq` and closes the transaction;
* `AdminView`   what that handler relies on: it has inserted nothing that its commit would
                publish, and it moves one entry only;
* `DlqKeyed`    the unique index of `mq_dlq`, kept by every statement: an entry is one row.

Without the token the handler is a log entry and a response that is known beforehand (`refusal`).
The token is compared byte by byte (`PresentsToken`).

Main result: `admin_frame`.
-/

namespace PgApp
open Interleave

/-! ## the unique index of `mq_dlq` -/

/-- the columns of the index -/
def DlqRow.entry (d : DlqRow) : Int × Int := (d.queueId, d.originalMessageId)

def MqDb.DlqKeyed (db : MqDb) : Prop := (db.dlq.map DlqRow.entry).Nodup

section
variable {db db' : MqDb}

theorem MqDb.DlqKeyed.sublist (h : db.DlqKeyed) (hs : db'.dlq.Sublist db.dlq) : db'.DlqKeyed :=
  List.Nodup.sublist (hs.map _) h

theorem MqDb.DlqKeyed.insertDlq (h : db.DlqKeyed) (now : Time) (reason : String) (m : MessageRow) :
    (db.insertDlq now reason m).DlqKeyed := by
  unfold MqDb.insertDlq
  split
  · exact h
  · rename_i hc
    show (List.map _ (_ ++ [_])).Nodup
    rw [List.map_append]
    refine List.nodup_append.mpr ⟨h, List.nodup_singleton _, ?_⟩
    intro a ha b hb he
    obtain ⟨d, hd, rfl⟩ := List.mem_map.mp ha
    rw [List.mem_singleton.mp hb] at he
    obtain ⟨h1, h2⟩ : d.queueId = m.queueId ∧ d.originalMessageId = m.id := Prod.mk.inj he
    apply hc
    exact List.any_eq_true.mpr ⟨d, hd, by rw [h1, h2]; simp⟩

theorem MqDb.DlqKeyed.moveToDlq (h : db.DlqKeyed) (sel : MessageRow → Bool) (now : Time)
    (reason : String) : (db.moveToDlq sel now reason).2.DlqKeyed := by
  have hfold : ∀ (l : List MessageRow) (db : MqDb), db.DlqKeyed →
      (l.foldl (MqDb.insertDlq now reason) db).DlqKeyed := by
    intro l
    induction l with
    | nil => exact fun db h => h
    | cons m l ih => exact fun db h => ih _ (h.insertDlq now reason m)
  exact hfold (db.messages.filter sel) { db with messages := db.messages.filter fun m => !sel m } h

theorem exec_dlqKeyed {s : Nat} {c : MqCtx} {st : MqStmt} {r : st.Res} (h : db.DlqKeyed)
    (hx : st.exec s c db = some (r, db')) : db'.DlqKeyed := by
  cases st with
  | insertQueue name durable limit =>
    obtain rfl : db.insertQueue name durable limit = db' := congrArg Prod.snd (Option.some.inj hx)
    unfold MqDb.insertQueue
    split <;> exact h
  | deleteQueue name =>
    change (if _ then none else some _) = _ at hx
    split at hx
    · cases hx
    · obtain rfl : (db.deleteQueue name).2 = db' := congrArg Prod.snd (Option.some.inj hx)
      exact h.sublist List.filter_sublist
  | commit =>
    obtain rfl : db.commit s = db' := congrArg Prod.snd (Option.some.inj hx)
    unfold MqDb.commit
    split <;> exact h
  | insertMessage q payload delay =>
    obtain ⟨t, hg, ⟨-, rfl⟩ | ⟨e, -, rfl⟩⟩ := insertMessage_cases hx <;> exact h
  | deadLetterDue q =>
    obtain rfl : (db.deadLetterDue q (db.now s c.now)).2 = db' :=
      congrArg Prod.snd (Option.some.inj hx)
    obtain ⟨sel, reason, he, -⟩ := deadLetterDue_eq db q (db.now s c.now)
    rw [he]
    exact h.moveToDlq sel _ reason
  | claim q n t =>
    obtain rfl : (db.claim q n t (db.now s c.now) c).2 = db' :=
      congrArg Prod.snd (Option.some.inj hx)
    obtain ⟨ms, he⟩ := claim_same db q n t (db.now s c.now) c
    rw [he]
    exact h
  | deadLetter q i reason =>
    obtain rfl : (db.deadLetter q i reason (db.now s c.now)).2 = db' :=
      congrArg Prod.snd (Option.some.inj hx)
    exact h.moveToDlq _ _ reason
  | reprocess q i =>
    obtain rfl : (db.reprocess q i (db.now s c.now)).2 = db' :=
      congrArg Prod.snd (Option.some.inj hx)
    unfold MqDb.reprocess
    simp only
    split
    · exact h
    · exact h.sublist List.filter_sublist
  | deleteDlq q =>
    obtain rfl := congrArg Prod.snd (Option.some.inj hx)
    exact h.sublist List.filter_sublist
  | sweepDlq n =>
    obtain rfl := congrArg Prod.snd (Option.some.inj hx)
    exact h.sublist List.filter_sublist
  | archive q i token =>
    obtain rfl : (db.archive q i token (db.now s c.now)).2 = db' :=
      congrArg Prod.snd (Option.some.inj hx)
    unfold MqDb.DlqKeyed
    rw [(archive_spec db q i token _).2.2.1]
    exact h
  | idle => cases hx
  | _ =>
    obtain rfl := congrArg Prod.snd (Option.some.inj hx)
    exact h

theorem MqDb.DlqKeyed.entry_rows (h : db.DlqKeyed) (q i : Int) :
    (db.dlq.filter fun d => d.isEntry q i) = [] ∨
      ∃ d ∈ db.dlq, (db.dlq.filter fun d => d.isEntry q i) = [d] := by
  have hkeys : ∀ d ∈ db.dlq.filter fun d => d.isEntry q i, d ∈ db.dlq ∧ d.entry = (q, i) := by
    intro d hd
    obtain ⟨h1, h2⟩ := List.mem_filter.mp hd
    unfold DlqRow.isEntry at h2
    rw [Bool.and_eq_true, beq_iff_eq, beq_iff_eq] at h2
    exact ⟨h1, Prod.ext h2.1 h2.2⟩
  have hn : ((db.dlq.filter fun d => d.isEntry q i).map DlqRow.entry).Nodup :=
    List.Nodup.sublist (List.filter_sublist.map _) h
  generalize (db.dlq.filter fun d => d.isEntry q i) = l at hkeys hn
  match l with
  | [] => exact .inl rfl
  | [d] => exact .inr ⟨d, (hkeys d List.mem_cons_self).1, rfl⟩
  | d :: d' :: l =>
    rw [List.map_cons, List.nodup_cons] at hn
    refine absurd ?_ hn.1
    rw [(hkeys d List.mem_cons_self).2,
      ← (hkeys d' (List.mem_cons_of_mem _ List.mem_cons_self)).2]
    exact List.mem_map_of_mem List.mem_cons_self

theorem MqDb.DlqKeyed.reprocess_messages (h : db.DlqKeyed) (q i : Int) (now : Time) :
    (db.reprocess q i now).2.messages = db.messages ∨
      ∃ d ∈ db.dlq, (db.reprocess q i now).2.messages = db.messages ++ [d.reprocessed now] := by
  unfold MqDb.reprocess
  simp only
  split
  · exact .inl rfl
  · show db.messages ++ _ = _ ∨ ∃ d ∈ db.dlq, db.messages ++ _ = _
    rcases h.entry_rows q i with hl | ⟨d, hd, hl⟩
    · rw [hl]
      exact .inl (List.append_nil _)
    · rw [hl]
      exact .inr ⟨d, hd, rfl⟩

end

/-! ## what a statement leaves alone -/

/-- the tables an admin request never writes -/
structure KeepsTables (db db' : ServerDb) : Prop where
  namespaces : db'.cache.namespaces = db.cache.namespaces
  entries : db'.cache.entries = db.cache.entries
  counters : db'.cache.counters = db.cache.counters
  queues : db'.mq.queues = db.mq.queues
  archives : db'.mq.archives = db.mq.archives

def SameMessages (db db' : ServerDb) : Prop := db'.mq.messages = db.mq.messages

/-- the message of an entry of `mq_dlq` is put back, behind the rows there are -/
def AddsMessage (db db' : ServerDb) : Prop :=
  ∃ d ∈ db.mq.dlq, ∃ now, db'.mq.messages = db.mq.messages ++ [d.reprocessed now]

/-- every table but `admin_log_events` is as before -/
structure OnlyLogs (db db' : ServerDb) : Prop where
  cache : db'.cache = db.cache
  mq : db'.mq = db.mq
  config : db'.config = db.config
  auth : db'.auth = db.auth

/-- statements that write none of these tables -/
def ServerStmt.quiet : ServerStmt → Bool
  | .cache .selectCounters | .cache .usageRows => true
  | .mq (.selectQueueId _) | .mq (.selectDlqPage _ _ _) | .mq (.selectDlq _ _)
  | .mq (.deleteDlq _) => true
  | .config _ | .auth _ | .admin _ => true
  | _ => false

def ServerStmt.isReprocess : ServerStmt → Bool
  | .mq (.reprocess _ _) => true
  | _ => false

/-- what a session has inserted in its open transaction -/
def MqDb.pendingOf (db : MqDb) (s : Nat) : List MessageRow :=
  match db.txs.get s with
  | none => []
  | some t => t.pending

section
variable {s : Nat} {c : ServerCtx} {db db' : ServerDb}

theorem exec_mq {st : MqStmt} {r : st.Res} (hx : (ServerStmt.mq st).exec s c db = some (r, db')) :
    ∃ mq, st.exec s c.mq db.mq = some (r, mq) ∧ db' = { db with mq := mq } := by
  obtain ⟨p, hp, he⟩ := Option.map_eq_some_iff.mp hx
  obtain ⟨rfl, rfl⟩ := Prod.mk.inj he
  exact ⟨p.2, hp, rfl⟩

theorem admin_onlyLogs (c : ServerCtx) (db : ServerDb) (st : AdminStmt) :
    OnlyLogs db (st.exec c db).2 := by
  cases st <;> exact ⟨rfl, rfl, rfl, rfl⟩

theorem OnlyLogs.keepsTables (h : OnlyLogs db db') : KeepsTables db db' := by
  obtain ⟨h1, h2, -, -⟩ := h
  exact ⟨by rw [h1], by rw [h1], by rw [h1], by rw [h2], by rw [h2]⟩

theorem exec_quiet {st : ServerStmt} {r : st.Res} (hq : st.quiet = true)
    (hx : st.exec s c db = some (r, db')) :
    KeepsTables db db' ∧ SameMessages db db' ∧ db'.mq.txs = db.mq.txs := by
  cases st with
  | cache st =>
    cases st with
    | selectCounters | usageRows =>
      obtain rfl := congrArg Prod.snd (Option.some.inj hx)
      exact ⟨⟨rfl, rfl, rfl, rfl, rfl⟩, rfl, rfl⟩
    | _ => cases hq
  | mq st =>
    cases st with
    | selectQueueId _ | selectDlqPage _ _ _ | selectDlq _ _ | deleteDlq _ =>
      obtain rfl := congrArg Prod.snd (Option.some.inj hx)
      exact ⟨⟨rfl, rfl, rfl, rfl, rfl⟩, rfl, rfl⟩
    | _ => cases hq
  | config st =>
    obtain ⟨p, -, he⟩ := Option.map_eq_some_iff.mp hx
    obtain ⟨-, rfl⟩ := Prod.mk.inj he
    exact ⟨⟨rfl, rfl, rfl, rfl, rfl⟩, rfl, rfl⟩
  | auth st =>
    obtain ⟨p, -, he⟩ := Option.map_eq_some_iff.mp hx
    obtain ⟨-, rfl⟩ := Prod.mk.inj he
    exact ⟨⟨rfl, rfl, rfl, rfl, rfl⟩, rfl, rfl⟩
  | admin st =>
    obtain rfl : (st.exec c db).2 = db' := congrArg Prod.snd (Option.some.inj hx)
    have h := admin_onlyLogs c db st
    refine ⟨h.keepsTables, ?_, ?_⟩
    · unfold SameMessages
      rw [h.mq]
    · rw [h.mq]

/-- every statement of every session keeps the index of `mq_dlq` -/
theorem exec_serverDlqKeyed {st : ServerStmt} {r : st.Res} (h : db.mq.DlqKeyed)
    (hx : st.exec s c db = some (r, db')) : db'.mq.DlqKeyed := by
  cases st with
  | mq st =>
    obtain ⟨mq, hm, rfl⟩ := exec_mq hx
    exact exec_dlqKeyed h hm
  | admin st =>
    obtain rfl : (st.exec c db).2 = db' := congrArg Prod.snd (Option.some.inj hx)
    rw [(admin_onlyLogs c db st).mq]
    exact h
  | cache st | config st | auth st =>
    obtain ⟨p, -, he⟩ := Option.map_eq_some_iff.mp hx
    obtain ⟨-, rfl⟩ := Prod.mk.inj he
    exact h

theorem pendingOf_other {st : ServerStmt} {r : st.Res} {t : Nat} (ht : t ≠ s)
    (hx : st.exec s c db = some (r, db')) : db'.mq.pendingOf t = db.mq.pendingOf t := by
  cases st with
  | mq st =>
    obtain ⟨mq, hm, rfl⟩ := exec_mq hx
    unfold MqDb.pendingOf
    show (match mq.txs.get t with | none => [] | some x => x.pending) = _
    rw [exec_txs_other ht hm]
  | admin st =>
    obtain rfl : (st.exec c db).2 = db' := congrArg Prod.snd (Option.some.inj hx)
    rw [(admin_onlyLogs c db st).mq]
  | cache st | config st | auth st =>
    obtain ⟨p, -, he⟩ := Option.map_eq_some_iff.mp hx
    obtain ⟨-, rfl⟩ := Prod.mk.inj he
    rfl

end

/-! ## what a request relies on -/

/-- the rows the session has inserted and not committed, and the entries it has moved since its
request began -/
structure AdminView where
  pending : List MessageRow
  moved : Nat

def adminView (s : Nat) (db : ServerDb) (h : List ServerEv) : AdminView :=
  ⟨db.mq.pendingOf s, (ownEvents s h).countP fun e => e.stmt.isReprocess⟩

/-- how the statements of a request move its view -/
def ServerStmt.moves : ServerStmt → AdminView → AdminView
  | .mq .begin, γ | .mq .commit, γ | .mq .rollback, γ => ⟨[], γ.moved⟩
  | .mq (.reprocess _ _), γ => ⟨γ.pending, γ.moved + 1⟩
  | _, γ => γ

/-- the statements of a request: quiet ones, and the transaction of a reprocess (`mayMove`) -/
inductive AdminIssues (mayMove : Prop) : ServerStmt → AdminView → Prop
  | quiet (st : ServerStmt) (γ : AdminView) (h : st.quiet = true) : AdminIssues mayMove st γ
  | begin (γ : AdminView) : AdminIssues mayMove (.mq .begin) γ
  | rollback (γ : AdminView) : AdminIssues mayMove (.mq .rollback) γ
  | commit (γ : AdminView) (h : γ.pending = []) : AdminIssues mayMove (.mq .commit) γ
  | reprocess (q i : Int) (γ : AdminView) (h : mayMove) (h0 : γ.moved = 0) :
      AdminIssues mayMove (.mq (.reprocess q i)) γ

theorem quiet_moves {st : ServerStmt} (h : st.quiet = true) (γ : AdminView) : st.moves γ = γ := by
  cases st with
  | mq st => cases st <;> first | rfl | cases h
  | _ => rfl

theorem quiet_isReprocess {st : ServerStmt} (h : st.quiet = true) : st.isReprocess = false := by
  cases st with
  | mq st => cases st <;> first | rfl | cases h
  | _ => rfl

section
variable {s : Nat} {c : ServerCtx} {db db' : ServerDb} {mayMove : Prop}

theorem adminView_own {op : ServerCall} {h : List ServerEv} {st : ServerStmt} {r : st.Res}
    (hP : AdminIssues mayMove st (adminView s db h)) (hx : st.exec s c db = some (r, db')) :
    adminView s db' (⟨s, op, c, st, r, db⟩ :: h) = st.moves (adminView s db h) := by
  have hown : ownEvents s (⟨s, op, c, st, r, db⟩ :: h) = ⟨s, op, c, st, r, db⟩ :: ownEvents s h :=
    ownEvents_cons_self rfl
  unfold adminView
  rw [hown, List.countP_cons]
  cases hP with
  | quiet _ _ hq =>
    rw [quiet_moves hq, quiet_isReprocess hq]
    show AdminView.mk (MqDb.pendingOf db'.mq s) (_ + 0) = _
    unfold MqDb.pendingOf
    rw [(exec_quiet hq hx).2.2]
    rfl
  | begin =>
    obtain rfl := congrArg Prod.snd (Option.some.inj hx)
    show AdminView.mk (MqDb.pendingOf (db.mq.begin s c.now) s) _ = _
    unfold MqDb.pendingOf MqDb.begin
    rw [Slots.get_set_self]
    rfl
  | rollback =>
    obtain rfl := congrArg Prod.snd (Option.some.inj hx)
    show AdminView.mk (MqDb.pendingOf (db.mq.rollback s) s) _ = _
    unfold MqDb.pendingOf MqDb.rollback
    rw [Slots.get_erase_self]
    rfl
  | commit _ h0 =>
    obtain rfl := congrArg Prod.snd (Option.some.inj hx)
    show AdminView.mk (MqDb.pendingOf (db.mq.commit s) s) _ = _
    unfold MqDb.pendingOf MqDb.commit
    cases hg : db.mq.txs.get s with
    | none =>
      simp only [hg]
      rfl
    | some t =>
      simp only [Slots.get_erase_self]
      rfl
  | reprocess q i _ _ h0 =>
    obtain ⟨mq, hm, rfl⟩ := exec_mq hx
    show AdminView.mk (MqDb.pendingOf mq s) (_ + 1) = _
    unfold MqDb.pendingOf
    rw [exec_txs rfl hm]
    rfl

theorem adminView_other {t : Nat} {op : ServerCall} {h : List ServerEv} {st : ServerStmt}
    {r : st.Res} (ht : t ≠ s) (hx : st.exec t c db = some (r, db')) :
    adminView s db' (⟨t, op, c, st, r, db⟩ :: h) = adminView s db h := by
  unfold adminView
  rw [ownEvents_cons_ne ht, pendingOf_other (Ne.symm ht) hx]

/-- what a statement of a request does to the tables -/
theorem AdminIssues.effect {h : List ServerEv} {st : ServerStmt} {r : st.Res}
    (hP : AdminIssues mayMove st (adminView s db h)) (hk : db.mq.DlqKeyed)
    (hx : st.exec s c db = some (r, db')) :
    KeepsTables db db' ∧ (SameMessages db db' ∨ (mayMove ∧ st.isReprocess = true ∧
      AddsMessage db db')) := by
  cases hP with
  | quiet _ _ hq => exact ⟨(exec_quiet hq hx).1, .inl (exec_quiet hq hx).2.1⟩
  | begin | rollback =>
    obtain rfl := congrArg Prod.snd (Option.some.inj hx)
    exact ⟨⟨rfl, rfl, rfl, rfl, rfl⟩, .inl rfl⟩
  | commit _ h0 =>
    obtain rfl := congrArg Prod.snd (Option.some.inj hx)
    have h0' : db.mq.pendingOf s = [] := h0
    unfold MqDb.pendingOf at h0'
    unfold SameMessages
    show KeepsTables db { db with mq := db.mq.commit s } ∧ ((db.mq.commit s).messages = _ ∨ _)
    unfold MqDb.commit
    cases hg : db.mq.txs.get s with
    | none => exact ⟨⟨rfl, rfl, rfl, rfl, rfl⟩, .inl rfl⟩
    | some t =>
      rw [hg] at h0'
      have hp : t.pending = [] := h0'
      refine ⟨⟨rfl, rfl, rfl, rfl, rfl⟩, .inl ?_⟩
      show db.mq.messages ++ t.pending = _
      rw [hp, List.append_nil]
  | reprocess q i _ hmay h0 =>
    obtain rfl := congrArg Prod.snd (Option.some.inj hx)
    refine ⟨⟨rfl, rfl, rfl, ?_, ?_⟩, ?_⟩
    · show (db.mq.reprocess q i _).2.queues = _
      unfold MqDb.reprocess
      simp only
      split <;> rfl
    · show (db.mq.reprocess q i _).2.archives = _
      unfold MqDb.reprocess
      simp only
      split <;> rfl
    · rcases hk.reprocess_messages q i (db.mq.now s c.mq.now) with hm | ⟨d, hd, hm⟩
      · exact .inl hm
      · exact .inr ⟨hmay, rfl, d, hd, _, hm⟩

end

/-! ## the handlers -/

/-- the program issues quiet statements only -/
abbrev Quiet {α : Type} (p : ServerProg α) : Prop := p.Avoids fun st => st.quiet = false

/-- the program keeps to what a request may issue -/
abbrev AdminSafe (mayMove : Prop) {α : Type} (p : ServerProg α) (γ : AdminView) : Prop :=
  Safe (AdminIssues mayMove) (fun st _ γ γ' => γ' = st.moves γ) (fun _ _ => True) p γ

section
variable {α : Type} {mayMove : Prop}

theorem Quiet.safe {p : ServerProg α} (h : Quiet p) (γ : AdminView) : AdminSafe mayMove p γ := by
  refine Safe.mono (Prog.Avoids.safe (I := fun _ => True) ?_ h trivial) fun _ _ _ => trivial
  intro st γ hst _
  exact ⟨.quiet st γ (by simpa using hst), fun _ _ _ => trivial⟩

theorem adminQuery_quiet (st : AdminStmt) : Quiet (adminQuery st) :=
  ⟨by simp [ServerStmt.quiet], fun _ => trivial⟩

theorem onConfig_quiet (p : ConfigProg α) : Quiet (onConfig p) :=
  Prog.Avoids.lift _ _ (Prog.Avoids.all (fun _ => by simp [ServerStmt.quiet]) p)

theorem onAuth_quiet (p : AuthProg α) : Quiet (onAuth p) :=
  Prog.Avoids.lift _ _ (Prog.Avoids.all (fun _ => by simp [ServerStmt.quiet]) p)

theorem recordLog_quiet (input : AdminLogInput) : Quiet (recordLog input) :=
  Prog.Avoids.check fun _ => Prog.Avoids.check fun _ => Prog.Avoids.check fun _ =>
    adminQuery_quiet _

theorem adminPage_quiet {β : Type} {page : PgAppResult β} {st : β → AdminStmt}
    {f : (p : β) → (st p).Res → ServerProg α} (hf : ∀ p r, Quiet (f p r)) :
    Quiet (Prog.check page >>= fun p => adminQuery (st p) >>= f p) :=
  Prog.Avoids.check fun p => Prog.Avoids.bind (adminQuery_quiet _) fun r => hf p r

theorem checkTable_quiet (table name : String) : Quiet (checkTable table name) := by
  refine Prog.Avoids.bind (adminQuery_quiet _) fun found => ?_
  cases found <;> exact trivial

theorem capability_quiet (enabled : Bool) (name : String) {check : ServerProg CapabilityStatus}
    (h : Quiet check) : Quiet (capability enabled name check) := by
  cases enabled with
  | true => exact h
  | false => exact trivial

theorem stats_quiet : Quiet (onCache stats) := by
  refine Prog.Avoids.lift _ _
    (Prog.Avoids.bind ?_ fun _ => Prog.Avoids.bind ?_ fun _ => trivial) <;>
    exact ⟨by simp [ServerStmt.quiet], fun _ => trivial⟩

theorem overviewBody_quiet (state : AdminHttpState) : Quiet (overviewBody state) := by
  refine Prog.Avoids.bind (capability_quiet _ _ (checkTable_quiet _ _)) fun _ => ?_
  refine Prog.Avoids.bind (capability_quiet _ _ (checkTable_quiet _ _)) fun _ => ?_
  refine Prog.Avoids.bind (capability_quiet _ _ (checkTable_quiet _ _)) fun _ => ?_
  refine Prog.Avoids.bind stats_quiet fun _ => Prog.Avoids.bind (adminQuery_quiet _) fun _ => ?_
  exact Prog.Avoids.bind (adminQuery_quiet _) fun _ =>
    Prog.Avoids.bind (adminQuery_quiet _) fun _ => trivial

theorem clientActivity_quiet (state : AdminHttpState) : Quiet (clientActivity state) := by
  refine Prog.Avoids.bind (adminQuery_quiet _) fun _ => ?_
  refine Prog.Avoids.bind (onAuth_quiet _) fun _ => ?_
  exact Prog.Avoids.bind (adminQuery_quiet _) fun _ => trivial

theorem mqQuery_quiet {st : MqStmt} (h : (ServerStmt.mq st).quiet = true) :
    (query st).Avoids fun st => (ServerStmt.mq st).quiet = false :=
  ⟨fun hf => Bool.noConfusion (h.symm.trans hf), fun _ => trivial⟩

theorem queueId_quiet (n : String) :
    (queueId n).Avoids fun st => (ServerStmt.mq st).quiet = false := by
  refine Prog.Avoids.check fun _ => Prog.Avoids.bind (mqQuery_quiet rfl) fun id => ?_
  cases id <;> exact trivial

theorem listDlqMessages_quiet (store : MqStore) (n : String) (limit offset : Int) :
    Quiet (onMq (store.listDlqMessages n limit offset)) := by
  refine Prog.Avoids.lift _ _ (Prog.Avoids.bind (queueId_quiet n) fun q => ?_)
  show Prog.Avoids _ (if offset < 0 then _ else _)
  split
  · exact trivial
  · refine Prog.Avoids.check fun l => Prog.Avoids.bind (mqQuery_quiet rfl) fun r => ?_
    exact Prog.Avoids.bind trivial fun _ => trivial

theorem getDlqMessage_quiet (n : String) (i : Int) : Quiet (onMq (getDlqMessage n i)) := by
  refine Prog.Avoids.lift _ _ (Prog.Avoids.bind (queueId_quiet n) fun q => ?_)
  refine Prog.Avoids.bind (mqQuery_quiet rfl) fun m => ?_
  cases m <;> exact trivial

theorem purgeDlq_quiet (n : String) : Quiet (onMq (purgeDlq n)) :=
  Prog.Avoids.lift _ _ (Prog.Avoids.bind (queueId_quiet n) fun _ =>
    Prog.Avoids.bind (mqQuery_quiet rfl) fun _ => trivial)

theorem orNotFound_quiet (message : String) (success : Bool) :
    Quiet (orNotFound message success) := by
  cases success <;> exact trivial

theorem reprocess_safe (h : mayMove) (n : String) (i : Int) {γ : AdminView} (hγ : γ.moved = 0) :
    AdminSafe mayMove (onMq (reprocessDlqMessage n i)) γ := by
  refine Safe.lift _ _ (Safe.bind (M := fun _ γ' => γ' = γ) ?_ ?_ fun _ _ _ => trivial)
  · refine Prog.Avoids.safe ?_ (queueId_quiet n) rfl
    intro st γ' hst hγ'
    have hq : (ServerStmt.mq st).quiet = true := by simpa using hst
    refine ⟨.quiet _ _ hq, fun r γ₁ hm => ?_⟩
    obtain ⟨_, -, rfl⟩ := hm
    rw [quiet_moves hq, hγ']
  · intro q γ' hγ'
    obtain rfl : γ' = γ := hγ'
    refine ⟨.begin _, fun _ γ₁ hm => ?_⟩
    obtain ⟨_, -, rfl⟩ := hm
    refine Safe.bracket (?_ : Safe _ _ (fun _ γ₂ => γ₂.pending = []) _ _) ?_ ?_
    · refine ⟨.reprocess q i _ h hγ, fun r γ₂ hm => ?_⟩
      obtain ⟨_, -, rfl⟩ := hm
      cases r <;> exact rfl
    · exact fun a γ₂ hp => ⟨.commit _ hp, fun _ _ _ => trivial⟩
    · exact fun e γ₂ _ => ⟨.rollback _, fun _ _ _ => trivial⟩

end

/-- the answer to a request without the token -/
def unauthorizedResponse (requestId : String) : AdminResponse :=
  errorResponse .unauthorized "unauthorized" "valid admin bearer token required" requestId

section
variable {state : AdminHttpState} {headers : List (String × List UInt8)} {requestId path : String}
variable {work : ServerProg AdminResponse}

theorem recordLog_refused (requestId : String) : recordLog (refusedLog requestId)
    = .exec (ServerStmt.admin (.insertLog (refusedLog requestId))) fun id => .ret (.ok id) := by
  have h1 : validateNonEmpty "level" "WARN" = .ok () := by decide
  have h2 : validateNonEmpty "target" "pgapp_server::admin_http" = .ok () := by decide
  have h3 : validateNonEmpty "message" "admin request unauthorized" = .ok () := by decide
  unfold recordLog refusedLog
  simp only [h1, h2, h3]
  rfl

theorem handler_refused (h : authorized state.token headers = false) :
    handler state headers requestId path work
      = .exec (ServerStmt.admin (.insertLog (refusedLog requestId))) fun _ =>
          .ret (.ok (unauthorizedResponse requestId)) := by
  unfold handler authorize ignore
  rw [if_neg (by rw [h]; exact Bool.false_ne_true), recordLog_refused]
  rfl

theorem handler_authorized (h : authorized state.token headers = true) :
    handler state headers requestId path work
      = work >>= fun response => recordRequest requestId path >>= fun _ => pure response := by
  unfold handler authorize
  rw [if_pos h]
  rfl

theorem handler_safe {mayMove : Prop} {γ : AdminView} (h : AdminSafe mayMove work γ) :
    AdminSafe mayMove (handler state headers requestId path work) γ := by
  cases ha : authorized state.token headers with
  | false =>
    rw [handler_refused ha]
    exact ⟨.quiet _ _ rfl, fun _ _ _ => trivial⟩
  | true =>
    rw [handler_authorized ha]
    refine Safe.bind h (fun response γ' _ => ?_) fun _ _ _ => trivial
    have hlog : Quiet (recordRequest requestId path) := (recordLog_quiet _).mapResult
    exact Safe.bind (hlog.safe γ') (fun _ _ _ => trivial) fun _ _ _ => trivial

theorem respond_quiet {α : Type} {p : ServerProg α} (h : Quiet p) (ok : α → AdminResponse)
    (failed : PgAppError → AdminResponse) : Quiet (respond p ok failed) := h.mapResult

end

section
variable (state : AdminHttpState) (headers : List (String × List UInt8)) (drawn : Drawn)

/-- **Every handler keeps to what a request may issue**, and only a reprocess moves an entry. -/
theorem handle_safe (route : AdminRoute) {γ : AdminView} (hγ : γ.moved = 0) :
    AdminSafe (∃ queue messageId, route = .mqDlqReprocess queue messageId)
      (route.handle state headers drawn) γ := by
  -- the work of every route but one is quiet
  have work : ∀ {α : Type} {requestId path : String} {p : ServerProg α} {ok : α → AdminResponse}
      {failed : PgAppError → AdminResponse}, Quiet p →
      AdminSafe (∃ queue messageId, route = .mqDlqReprocess queue messageId)
        (handler state headers requestId path (respond p ok failed)) γ :=
    fun hp => handler_safe (Quiet.safe (respond_quiet hp _ _) γ)
  cases route with
  | overview => exact work (overviewBody_quiet state)
  | logs params => exact work (adminPage_quiet fun _ _ => Prog.Avoids.bind trivial fun _ => trivial)
  | cacheNamespaces params =>
    exact work (adminPage_quiet fun _ _ => Prog.Avoids.bind trivial fun _ => trivial)
  | cacheEntries params =>
    exact work (adminPage_quiet fun _ _ => Prog.Avoids.bind trivial fun _ => trivial)
  | mqQueues params =>
    exact work (adminPage_quiet fun _ _ => Prog.Avoids.bind trivial fun _ => trivial)
  | mqMessages queue params =>
    exact work (Prog.Avoids.check fun _ =>
      adminPage_quiet fun _ _ => Prog.Avoids.bind trivial fun _ => trivial)
  | mqDlqMessages queue params => exact work (listDlqMessages_quiet _ queue _ _)
  | mqDlqMessage queue messageId => exact work (getDlqMessage_quiet queue messageId)
  | mqDlqReprocess queue messageId =>
    refine handler_safe (Safe.mapResult (Q := fun _ _ => True) ?_ fun _ _ _ => trivial)
    refine Safe.bind (reprocess_safe ⟨queue, messageId, rfl⟩ queue messageId hγ) ?_
      fun _ _ _ => trivial
    exact fun success γ' _ => Quiet.safe (orNotFound_quiet _ success) γ'
  | mqDlqPurge queue => exact work (purgeDlq_quiet queue)
  | clients => exact work (clientActivity_quiet state)
  | clientCreate body => exact work (onAuth_quiet _)
  | clientRotate clientKey =>
    refine work (Prog.Avoids.bind (onAuth_quiet _) fun client => ?_)
    cases client <;> exact trivial
  | clientDeactivate clientKey =>
    exact work (Prog.Avoids.bind (onAuth_quiet _) fun success => orNotFound_quiet _ success)
  | configScopes params => exact work (onConfig_quiet _)
  | configDraft params =>
    exact work (Prog.Avoids.check fun _ => Prog.Avoids.bind (onConfig_quiet _) fun _ => trivial)
  | configUpsertItem body => exact work (onConfig_quiet _)
  | configDeleteItem params =>
    refine work (Prog.Avoids.check fun scope => ?_)
    cases params.key with
    | none => exact trivial
    | some key => exact onConfig_quiet _
  | configSchemaGet params =>
    exact work (Prog.Avoids.check fun _ => Prog.Avoids.bind (onConfig_quiet _) fun _ => trivial)
  | configSchemaSet body => exact work (onConfig_quiet _)
  | configSchemaDelete params => exact work (Prog.Avoids.check fun _ => onConfig_quiet _)
  | configPublish body => exact work (onConfig_quiet _)
  | configReleases params => exact work (Prog.Avoids.check fun _ => onConfig_quiet _)

theorem handle_refused (h : authorized state.token headers = false) (route : AdminRoute) :
    route.handle state headers drawn
      = .exec (ServerStmt.admin (.insertLog (refusedLog drawn.requestId))) fun _ =>
          .ret (.ok (unauthorizedResponse drawn.requestId)) := by
  cases route <;> exact handler_refused h

end

/-! ## the token -/

/-- the first `authorization` header of the request is `Bearer ` and the token, byte by byte -/
def PresentsToken (token : String) (headers : List (String × List UInt8)) : Prop :=
  ∃ value, headerGet headers "authorization" = some value ∧
    value.toByteArray = ("Bearer " ++ token).toUTF8

theorem utf8EncodeChar_ascii {b : UInt8} (h : b < 127) :
    String.utf8EncodeChar (Char.ofNat b.toNat) = [b] := by
  have hb : b.toNat < 127 := h
  have hv : (Char.ofNat b.toNat).val.toNat = b.toNat := by
    have h1 : (b.toNat).isValidChar := Or.inl (by omega)
    unfold Char.ofNat
    rw [dif_pos h1]
    rfl
  unfold String.utf8EncodeChar
  simp only [hv]
  rw [if_pos (by omega), UInt8.ofNat_toNat]

theorem headerToStr_bytes {value : List UInt8} {text : String} (h : headerToStr value = some text) :
    text.toUTF8 = value.toByteArray := by
  unfold headerToStr at h
  split at h
  · rename_i hall
    obtain rfl := Option.some.inj h
    have hchars : ∀ b ∈ value, String.utf8EncodeChar (Char.ofNat b.toNat) = [b] := by
      intro b hb
      apply utf8EncodeChar_ascii
      have h1 := List.all_eq_true.mp hall b hb
      rw [Bool.or_eq_true, Bool.and_eq_true, decide_eq_true_iff, decide_eq_true_iff,
        beq_iff_eq] at h1
      rcases h1 with ⟨-, h1⟩ | h1
      · exact h1
      · rw [h1]
        decide
    show (List.map _ value).utf8Encode = _
    unfold List.utf8Encode
    rw [List.flatMap_map, List.flatMap_congr hchars, List.flatMap_singleton']
  · cases h

theorem authorized_presents {token : String} {headers : List (String × List UInt8)}
    (h : authorized token headers = true) : PresentsToken token headers := by
  have h1 : readableHeader headers "authorization" = some ("Bearer " ++ token) := beq_iff_eq.mp h
  obtain ⟨value, hv, ht⟩ := Option.bind_eq_some_iff.mp h1
  exact ⟨value, hv, (headerToStr_bytes ht).symm⟩

/-! ## requests -/

/-- the answer to a request without the token: it depends on the request alone -/
def AdminRequest.refusal (ex : Extractors) (rq : AdminRequest) : AdminResponse :=
  match router ex rq.request with
  | .error rejection => .rejected rejection
  | .ok _ => unauthorizedResponse rq.drawn.requestId

/-- the request asks for the message of a dead letter to be put back -/
def AdminRequest.Reprocesses (ex : Extractors) (rq : AdminRequest) : Prop :=
  ∃ queue messageId, router ex rq.request = .ok (.mqDlqReprocess queue messageId)

section
variable {state : AdminHttpState} (ex : Extractors) {rq : AdminRequest}

theorem AdminIssues.mono {p q : Prop} (hpq : p → q) {st : ServerStmt} {γ : AdminView}
    (h : AdminIssues p st γ) : AdminIssues q st γ := by
  cases h with
  | quiet _ _ h => exact .quiet st γ h
  | begin => exact .begin γ
  | rollback => exact .rollback γ
  | commit _ h => exact .commit γ h
  | reprocess q i _ h h0 => exact .reprocess q i γ (hpq h) h0

theorem AdminIssues.first {p : Prop} {st : ServerStmt} {γ : AdminView} (h : AdminIssues p st γ)
    (hst : st.isReprocess = true) : γ.moved = 0 := by
  cases h with
  | quiet _ _ h => rw [quiet_isReprocess h] at hst; cases hst
  | begin | rollback | commit _ _ => cases hst
  | reprocess q i _ h h0 => exact h0

theorem adminServe_safe {γ : AdminView} (hγ : γ.moved = 0) :
    AdminSafe (rq.Reprocesses ex) (ServerCall.body (.admin state ex rq)) γ := by
  refine Safe.bind (M := fun _ _ => True) ?_ (fun _ _ _ => trivial) fun _ _ _ => trivial
  unfold AdminRequest.serve
  cases hroute : router ex rq.request with
  | error rejection => exact trivial
  | ok route =>
    refine Safe.mono_pre (handle_safe state _ rq.drawn route hγ) fun st γ h => h.mono ?_
    intro hex
    obtain ⟨queue, messageId, rfl⟩ := hex
    exact ⟨queue, messageId, hroute⟩

theorem serve_refused (h : authorized state.token rq.request.headers = false) :
    rq.serve state ex = .ret (.ok (rq.refusal ex)) ∨
      rq.serve state ex = .exec (ServerStmt.admin (.insertLog (refusedLog rq.drawn.requestId)))
        fun _ => .ret (.ok (rq.refusal ex)) := by
  unfold AdminRequest.serve AdminRequest.refusal
  cases router ex rq.request with
  | error rejection => exact .inl rfl
  | ok route => exact .inr (handle_refused state _ rq.drawn h route)

theorem refused_safe (h : authorized state.token rq.request.headers = false) :
    Safe (fun st (_ : Unit) => ∃ input, st = .admin (.insertLog input)) (fun _ _ _ _ => True)
      (fun r _ => r = .ok (.admin (rq.refusal ex))) (ServerCall.body (.admin state ex rq)) () := by
  show Safe _ _ _ (rq.serve state ex >>= fun response => pure (ServerReturn.admin response)) _
  rcases serve_refused ex h with he | he
  · rw [he]
    exact rfl
  · rw [he]
    exact ⟨⟨_, rfl⟩, fun _ _ _ => rfl⟩

end

/-! ## the frame -/

/-- what an executed statement did to the tables -/
def Does (P : ServerDb → ServerDb → Prop) (e : ServerEv) : Prop :=
  ∃ db', e.stmt.exec e.sess e.ctx e.pre = some (e.res, db') ∧ P e.pre db'

/-- what a statement of a request does to `mq_messages`, with the statements of the request before
it: nothing, or the entry is moved and none has been moved before -/
def MovesOnce (mayMove : Prop) (e : ServerEv) (l : List ServerEv) : Prop :=
  (Does SameMessages e ∨ (mayMove ∧ e.stmt.isReprocess = true ∧ Does AddsMessage e)) ∧
    (e.stmt.isReprocess = true → l.countP (fun e => e.stmt.isReprocess) = 0)

theorem adds_once {mayMove : Prop} {own : List ServerEv} (hal : Always (MovesOnce mayMove) own) :
    (∀ e ∈ own, Does SameMessages e) ∨
      (mayMove ∧ ∃ a e b, own = a ++ e :: b ∧ Does AddsMessage e ∧
        ∀ x ∈ a ++ b, Does SameMessages x) := by
  induction own with
  | nil => exact .inl fun e he => absurd he List.not_mem_nil
  | cons e l ih =>
    obtain ⟨⟨hdoes, hfirst⟩, hrest⟩ := hal
    rcases hdoes with hsame | ⟨hmay, hst, hadd⟩
    · rcases ih hrest with hall | ⟨hmay, a, e', b, rfl, hadd, hall⟩
      · exact .inl (List.forall_mem_cons.mpr ⟨hsame, hall⟩)
      · exact .inr ⟨hmay, e :: a, e', b, rfl, hadd, List.forall_mem_cons.mpr ⟨hsame, hall⟩⟩
    · -- no statement before it was a reprocess, so none of them adds a row
      refine .inr ⟨hmay, [], e, l, rfl, hadd, fun x hx => ?_⟩
      obtain ⟨l', hx', -⟩ := hrest.of_mem hx
      rcases hx' with hx' | ⟨-, hst', -⟩
      · exact hx'
      · exact absurd hst' (List.countP_eq_zero.mp (hfirst hst) x hx)

/-- the statements of a request among any others, each with its effect -/
theorem admin_effects {σ τ : ServerSys} {s : Nat} {state : AdminHttpState} {ex : Extractors}
    {rq : AdminRequest} (hk : σ.db.mq.DlqKeyed) (hτ : ServerServing s (.admin state ex rq) σ τ) :
    ∃ h, τ.hist = h ++ σ.hist ∧ Always (fun e l => Does KeepsTables e ∧
      MovesOnce (rq.Reprocesses ex) e l) (ownEvents s h) := by
  have keep : ∀ db t c st r db', db.mq.DlqKeyed → ServerStmt.exec t c st db = some (r, db') →
      db'.mq.DlqKeyed := fun db t c st r db' h hx => exec_serverDlqKeyed h hx
  have start : AdminSafe (rq.Reprocesses ex) (ServerCall.body (.admin state ex rq))
      (adminView s σ.db []) := adminServe_safe ex rfl
  obtain ⟨h, hh, -, hal⟩ := Serving.rely (v := adminView s) keep
    (fun db h c st r db' hP hx => adminView_own hP hx)
    (fun db h t op c st r db' ht hx => adminView_other ht hx) hk start hτ
  refine ⟨h, hh, Always.ownEvents (hal.mono fun e l he hs => ?_)⟩
  obtain ⟨hkey, hP, db', hx⟩ := he hs
  rw [hs] at hx
  obtain ⟨h1, h2⟩ := hP.effect hkey hx
  have does : ∀ {P : ServerDb → ServerDb → Prop}, P e.pre db' → Does P e := fun hp =>
    ⟨db', by rw [hs]; exact hx, hp⟩
  refine ⟨does h1, ?_, fun hst => hP.first hst⟩
  rcases h2 with h2 | ⟨hmay, hst, h2⟩
  · exact .inl (does h2)
  · exact .inr ⟨hmay, hst, does h2⟩

/-- without the token: what the request has done so far, and what it answers -/
theorem refused_effects {σ τ : ServerSys} {s : Nat} {state : AdminHttpState} {ex : Extractors}
    {rq : AdminRequest} (hno : authorized state.token rq.request.headers = false)
    (hτ : ServerServing s (.admin state ex rq) σ τ) :
    ∃ h, τ.hist = h ++ σ.hist ∧ (∀ e ∈ ownEvents s h, Does OnlyLogs e) ∧
      ∀ r, τ.prog s = some (.admin state ex rq, .ret r) → r = .ok (.admin (rq.refusal ex)) := by
  obtain ⟨h, hh, ⟨p, hp, hsafe⟩, hal⟩ := Serving.rely (G := fun _ => True) (v := fun _ _ => ())
    (fun _ _ _ _ _ _ _ _ => trivial) (fun _ _ _ _ _ _ _ _ => trivial)
    (fun _ _ _ _ _ _ _ _ _ _ => rfl) trivial (refused_safe ex hno) hτ
  refine ⟨h, hh, fun e he => ?_, fun r hr => ?_⟩
  · obtain ⟨hmem, hs⟩ := List.mem_filter.mp he
    obtain ⟨l, hl⟩ := hal.of_mem hmem
    obtain ⟨-, ⟨input, hst⟩, db', hx⟩ := hl (beq_iff_eq.mp hs)
    refine ⟨db', hx, ?_⟩
    obtain ⟨t, op, c, st, res, pre⟩ := e
    obtain rfl : st = .admin (.insertLog input) := hst
    obtain rfl : (AdminStmt.exec c (.insertLog input) pre).2 = db' :=
      congrArg Prod.snd (Option.some.inj hx)
    exact admin_onlyLogs _ _ _
  · rw [hp] at hr
    obtain ⟨-, rfl⟩ := Prod.mk.inj (Option.some.inj hr)
    exact hsafe

/-- without the token the request is answered at once -/
theorem refused_run {state : AdminHttpState} {ex : Extractors} {rq : AdminRequest}
    (hno : authorized state.token rq.request.headers = false) (s : Nat) (c : ServerCtx)
    (db : ServerDb) : ∃ db', (rq.serve state ex).run (ServerStmt.exec s c) db
      = some (.ok (rq.refusal ex), db') ∧ OnlyLogs db db' := by
  rcases serve_refused ex hno with he | he
  · exact ⟨db, by rw [he]; rfl, ⟨rfl, rfl, rfl, rfl⟩⟩
  · exact ⟨_, by rw [he]; rfl, admin_onlyLogs _ _ _⟩

/-- **Admin requests keep to their tables, and without the token to the log.**

`h` is what has been executed since the request came in, by any session; `ownEvents s h` are the
statements of the request. -/
theorem admin_frame {σ τ : ServerSys} (hr : ServerReach σ) {s : Nat} {state : AdminHttpState}
    {ex : Extractors} {rq : AdminRequest} (hτ : ServerServing s (.admin state ex rq) σ τ) :
    ∃ h, τ.hist = h ++ σ.hist ∧
      (∀ e ∈ ownEvents s h, Does KeepsTables e) ∧
      ((∀ e ∈ ownEvents s h, Does SameMessages e) ∨
        (rq.Reprocesses ex ∧ ∃ a e b, ownEvents s h = a ++ e :: b ∧ Does AddsMessage e ∧
          ∀ x ∈ a ++ b, Does SameMessages x)) ∧
      (¬ PresentsToken state.token rq.request.headers →
        (∀ e ∈ ownEvents s h, Does OnlyLogs e) ∧
        (∀ r, τ.prog s = some (.admin state ex rq, .ret r) → r = .ok (.admin (rq.refusal ex))) ∧
        ∀ c db, ∃ db', (rq.serve state ex).run (ServerStmt.exec s c) db
          = some (.ok (rq.refusal ex), db') ∧ OnlyLogs db db') := by
  have hk : σ.db.mq.DlqKeyed := by
    refine hr.invariant (fun db _ => db.mq.DlqKeyed) List.nodup_nil ?_
    intro db h s op c st r db' hk hx
    exact exec_serverDlqKeyed hk hx
  obtain ⟨h, hh, hal⟩ := admin_effects hk hτ
  refine ⟨h, hh, fun e he => ?_, adds_once (hal.mono fun _ _ h => h.2), fun hno => ?_⟩
  · obtain ⟨l, hkeep, -⟩ := hal.of_mem he
    exact hkeep
  · have ha : authorized state.token rq.request.headers = false := by
      cases ha : authorized state.token rq.request.headers with
      | false => rfl
      | true => exact absurd (authorized_presents ha) hno
    obtain ⟨h', hh', h1, h2⟩ := refused_effects ha hτ
    obtain rfl : h' = h := List.append_cancel_right (hh'.symm.trans hh)
    exact ⟨h1, h2, refused_run ha s⟩

/-- `serde_json::from_str` on the one payload sent below -/
def nullFromStr (text : String) : Except String Json :=
  if text = "null" then .ok .null else .error "expected value"

def serverAt (now : Time) : ServerCtx :=
  ⟨now, fun _ => 0, fun id => s!"token-{id}", [], id, fun _ => "", fun _ => true, [], ⟨1, 1⟩⟩

/-- a message is sent and dead-lettered -/
def oneDeadLetter : List (Act ServerCall ServerCtx) :=
  [.call 0 (.mq ⟨⟨false, {}, nullFromStr⟩, .createQueue "orders" .durable⟩), .stmt 0 (serverAt 0),
   .ret 0,
   .call 0 (.mq ⟨⟨false, {}, nullFromStr⟩, .send "orders" "null" 0⟩), .stmt 0 (serverAt 1),
   .stmt 0 (serverAt 2), .stmt 0 (serverAt 3), .stmt 0 (serverAt 4), .stmt 0 (serverAt 5), .ret 0,
   .call 0 (.mq ⟨⟨false, {}, nullFromStr⟩, .deadLetter "orders" 1 "bad"⟩), .stmt 0 (serverAt 6),
   .stmt 0 (serverAt 7), .ret 0]

/-- the token is `t` -/
def smallState : AdminHttpState :=
  ⟨⟨{}, fun _ => .ok [], fun _ => "", fun _ => .error "no schema"⟩, .new 100 fun _ => "null",
    ⟨id, fun password salt => .ok (salt ++ password), fun _ _ => .ok false, fun _ => .ok (.arr []),
      fun _ => .ok []⟩,
    nullFromStr, true, true, true, "t"⟩

def noParams : ListParams := ⟨none, none, none, none, none, none, none, none, none, none⟩

/-- the extractors on requests without a query or a body -/
def smallExtractors : Extractors where
  segment s := .ok s
  messageId s := if s = "1" then .ok 1 else .error ⟨400, "Invalid URL"⟩
  query _ := .ok noParams
  configItem _ := .error ⟨415, "Expected request with a JSON body"⟩
  publishConfig _ := .error ⟨415, "Expected request with a JSON body"⟩
  configSchema _ := .error ⟨415, "Expected request with a JSON body"⟩
  createClient _ := .error ⟨415, "Expected request with a JSON body"⟩
  notFound := ⟨404, ""⟩
  methodNotAllowed := ⟨405, ""⟩

/-- `POST /api/admin/mq/queues/orders/dlq/1/reprocess` -/
def reprocessFirst (headers : List (String × List UInt8)) : AdminRequest :=
  ⟨⟨.post, ["api", "admin", "mq", "queues", "orders", "dlq", "1", "reprocess"], none, headers, []⟩,
    "id", ⟨"a", "b", "salt"⟩⟩

/-- `Bearer t` -/
def bearerT : List (String × List UInt8) :=
  [("authorization", [66, 101, 97, 114, 101, 114, 32, 116])]

/-- the request, served by session 1 to its end -/
abbrev servedBy (headers : List (String × List UInt8)) (acts : List (Act ServerCall ServerCtx))
    (σ : ServerSys) : Option ServerSys :=
  Sys.playServing ServerStmt.exec ServerCall.body 1 acts
    (σ.start ServerCall.body 1 (.admin smallState smallExtractors (reprocessFirst headers)))

/-- with the token the message is back, one row; without it only the log has grown -/
theorem admin_frame_reprocess :
    ∃ σ τ τ' : ServerSys,
      (Sys.init ServerDb.empty).play ServerStmt.exec ServerCall.body oneDeadLetter = some σ ∧
      servedBy bearerT ((List.range 5).map fun n => .stmt 1 (serverAt (8 + n))) σ = some τ ∧
      servedBy [] [.stmt 1 (serverAt 8)] σ = some τ' ∧
      σ.db.mq.messages.length = 0 ∧ τ.db.mq.messages.length = 1 ∧
      (∃ h, τ.hist = h ++ σ.hist ∧ (∀ e ∈ ownEvents 1 h, Does KeepsTables e)) ∧
      (∃ h, τ'.hist = h ++ σ.hist ∧ (∀ e ∈ ownEvents 1 h, Does OnlyLogs e)) ∧
      ∃ call, τ'.prog 1 = some (call, .ret (.ok (.admin (unauthorizedResponse "id")))) := by
  have h0 : ((Sys.init ServerDb.empty : ServerSys).play ServerStmt.exec ServerCall.body
    oneDeadLetter).isSome := by rfl
  have h1 : (servedBy bearerT ((List.range 5).map fun n => .stmt 1 (serverAt (8 + n)))
    (Option.get _ h0)).isSome := by rfl
  have h2 : (servedBy [] [.stmt 1 (serverAt 8)] (Option.get _ h0)).isSome := by rfl
  have hr : ServerReach (Option.get _ h0) := Sys.play_steps (Option.some_get h0).symm
  obtain ⟨h, hh, hkeep, -, -⟩ := admin_frame hr (Serving.of_play (Option.some_get h1).symm)
  obtain ⟨h', hh', -, -, hno⟩ := admin_frame hr (Serving.of_play (Option.some_get h2).symm)
  obtain ⟨hlogs, -, -⟩ := hno fun ⟨value, hv, _⟩ => by cases hv
  exact ⟨_, _, _, (Option.some_get h0).symm, (Option.some_get h1).symm, (Option.some_get h2).symm,
    by rfl, by rfl, ⟨h, hh, hkeep⟩, ⟨h', hh', hlogs⟩, _, rfl⟩

end PgApp
