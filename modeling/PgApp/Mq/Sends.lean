import PgApp.Mq.Conserve

/-!
# What a send hands back has been committed

`send` returns the id its INSERT answered, after its COMMIT; between the two another session may do
anything.  The view of a session is the ids in its own transaction and the ids it has committed
(`sendView`): its own statements move it as `sendMove` says, nobody else can.

Main result: `mq_conservation`.
-/

namespace PgApp
open Interleave

/-- the ids in the session's transaction, if it has one, and the ids it has committed -/
abbrev SendView := Option (List Int) × List Int

/-- the ids that statements of session `s` have committed -/
def sentBy (s : Nat) (h : List MqEv) : List Int := (h.filter (·.sess == s)).flatMap sentOf

def sendView (s : Nat) (db : MqDb) (h : List MqEv) : SendView :=
  ((db.txs.get s).map fun t => t.pending.map (·.id), sentBy s h)

/-- how the session's own statements move its view -/
def sendMove : (st : MqStmt) → st.Res → SendView → SendView
  | .begin, _, v => (some [], v.2)
  | .insertMessage _ _ _, .ok id, v => (v.1.map (· ++ [id]), v.2)
  | .commit, _, v => (none, v.1.getD [] ++ v.2)
  | .rollback, _, v => (none, v.2)
  | _, _, v => v

theorem sentBy_cons_self (s : Nat) (op : MqCall) (c : MqCtx) (st : MqStmt) (r : st.Res) (db : MqDb)
    (h : List MqEv) :
    sentBy s (⟨s, op, c, st, r, db⟩ :: h) = sentOf ⟨s, op, c, st, r, db⟩ ++ sentBy s h := by
  simp [sentBy]

theorem sentBy_cons_ne {s t : Nat} (ht : t ≠ s) (op : MqCall) (c : MqCtx) (st : MqStmt) (r : st.Res)
    (db : MqDb) (h : List MqEv) : sentBy t (⟨s, op, c, st, r, db⟩ :: h) = sentBy t h := by
  have hs : (s == t) = false := by simpa using Ne.symm ht
  simp [sentBy, hs]

theorem sentBy_subset {s : Nat} {h : List MqEv} {id : Int} (hid : id ∈ sentBy s h) :
    id ∈ sentIds h := by
  obtain ⟨e, he, hi⟩ := List.mem_flatMap.mp hid
  exact List.mem_flatMap.mpr ⟨e, List.mem_of_mem_filter he, hi⟩

theorem sendView_own {s : Nat} {op : MqCall} {c : MqCtx} {st : MqStmt} {r : st.Res} {db db' : MqDb}
    {h : List MqEv} (hx : st.exec s c db = some (r, db')) :
    sendView s db' (⟨s, op, c, st, r, db⟩ :: h) = sendMove st r (sendView s db h) := by
  unfold sendView
  rw [sentBy_cons_self]
  cases hst : st.isTx with
  | false =>
    rw [exec_txs hst hx]
    cases st <;> first | rfl | exact absurd hst (by decide) | exact absurd hst (by simp [MqStmt.isTx])
  | true =>
    cases st with
    | begin =>
      obtain rfl : db.begin s c.now = db' := congrArg Prod.snd (Option.some.inj hx)
      unfold MqDb.begin
      rw [Slots.get_set_self]
      rfl
    | commit =>
      obtain rfl : db.commit s = db' := congrArg Prod.snd (Option.some.inj hx)
      unfold MqDb.commit sendMove sentOf MqDb.pendingIds
      cases hg : db.txs.get s with
      | none =>
        show (Option.map _ (db.txs.get s), _) = _
        rw [hg]
        rfl
      | some t =>
        show (Option.map _ ((db.txs.erase s).get s), _) = _
        rw [Slots.get_erase_self]
        rfl
    | rollback =>
      obtain rfl : db.rollback s = db' := congrArg Prod.snd (Option.some.inj hx)
      unfold MqDb.rollback
      rw [Slots.get_erase_self]
      rfl
    | insertMessage q payload delay =>
      obtain ⟨t, hg, ⟨rfl, rfl⟩ | ⟨e, rfl, rfl⟩⟩ := insertMessage_cases hx
      · rw [Slots.get_set_self, hg]
        simp [sendMove, sentOf, newMessage]
      · rfl
    | _ => exact absurd hst (by simp [MqStmt.isTx])

theorem sendView_other {s t : Nat} {op : MqCall} {c : MqCtx} {st : MqStmt} {r : st.Res}
    {db db' : MqDb} {h : List MqEv} (ht : t ≠ s) (hx : st.exec s c db = some (r, db')) :
    sendView t db' (⟨s, op, c, st, r, db⟩ :: h) = sendView t db h := by
  unfold sendView
  rw [sentBy_cons_ne ht, exec_txs_other ht hx]

theorem sendView_rules : Rules MqStmt.exec MqDb.empty (fun _ _ => True) sendView (fun _ _ _ => True)
    (fun (_ : MqCall) st r v v' => v' = sendMove st r v) (fun _ => True) where
  first := trivial
  keep := fun _ _ _ _ _ _ _ _ _ _ _ => trivial
  own := fun _ _ _ _ _ _ _ _ _ _ hx => sendView_own hx
  other := fun _ _ _ _ _ _ _ _ _ ht _ _ hx => sendView_other ht hx
  init := fun _ => trivial

/-! ## the two sending programs -/

/-- the ids a finished call hands to its caller -/
def returnedIds : MqOp → Except PgAppError MqReturn → List Int
  | .send _ _ _, .ok (.id id) => [id]
  | .sendBatch _ _ _, .ok (.ids ids) => ids
  | _, _ => []

/-- a program checked against the moves of its send view -/
abbrev SendSafe {α : Type} (Q : PgAppResult α → SendView → Prop) (p : MqProg α) (v : SendView) :
    Prop :=
  Safe (fun _ _ => True) (fun st r v v' => v' = sendMove st r v) Q p v

/-- `notify_queue` does not touch the transaction -/
theorem notifyQueue_safe (n : String) (k : Nat) (v : SendView) :
    SendSafe (fun _ v' => v' = v) (notifyQueue n k) v := by
  unfold notifyQueue
  cases hc : mqChannel n with
  | error e => exact rfl
  | ok ch =>
    refine ⟨trivial, fun r v' hv => ?_⟩
    cases r with
    | ok u => exact hv
    | error e => exact hv

theorem queueId_safe (n : String) (v : SendView) :
    SendSafe (fun _ v' => v' = v) (queueId n) v := by
  unfold queueId
  cases hc : validateQueueName n with
  | error e => exact rfl
  | ok u =>
    refine ⟨trivial, fun r v' hv => ?_⟩
    cases r with
    | none => exact hv
    | some q => exact hv

theorem check_safe {α : Type} (r : PgAppResult α) (v : SendView) :
    SendSafe (fun _ v' => v' = v) (Prog.check r) v := rfl

theorem insertAll_safe (q delay : Int) (payloads : List Json) (ids : List Int) (sent : List Int) :
    SendSafe (fun r v => ∃ p, v = (some p, sent) ∧ ∀ l, r = .ok l → l = p)
      (insertAll q delay payloads ids) (some ids, sent) := by
  induction payloads generalizing ids with
  | nil => exact ⟨ids, rfl, fun l hl => (Except.ok.inj hl).symm⟩
  | cons payload rest ih =>
    refine ⟨trivial, fun r v' hv => ?_⟩
    cases r with
    | error e => exact ⟨ids, hv, fun l hl => by cases hl⟩
    | ok id =>
      obtain rfl : v' = (some (ids ++ [id]), sent) := hv
      exact ih (ids ++ [id])

theorem inTx_safe {α : Type} (p : MqProg α) (idsOf : α → List Int) (v : SendView)
    (h : SendSafe (fun r w => ∃ l, w = (some l, v.2) ∧ ∀ a, r = .ok a → ∀ i ∈ idsOf a, i ∈ l) p
      (some [], v.2)) :
    SendSafe (fun r w => ∀ a, r = .ok a → ∀ i ∈ idsOf a, i ∈ w.2) (inTx p) v := by
  refine ⟨trivial, fun r v' hv => ?_⟩
  obtain rfl : v' = (some [], v.2) := hv
  refine Safe.bracket h ?_ ?_
  · intro a w hex
    obtain ⟨l, rfl, hl⟩ := hex
    refine ⟨trivial, fun r w' hw b hb i hi => ?_⟩
    obtain rfl : w' = (none, l ++ v.2) := hw
    obtain rfl := Except.ok.inj hb
    exact List.mem_append_left _ (hl a rfl i hi)
  · exact fun e w _ => ⟨trivial, fun r w' _ a ha => by cases ha⟩

theorem sendValue_safe (n : String) (payload : Json) (delay : Int) (v : SendView) :
    SendSafe (fun r w => ∀ a, r = .ok a → ∀ i ∈ [a], i ∈ w.2) (sendValue n payload delay) v := by
  refine Safe.bind (check_safe _ v) ?_ (fun e w _ a ha => by cases ha)
  rintro - w rfl
  refine Safe.bind (queueId_safe n w) ?_ (fun e w _ a ha => by cases ha)
  rintro q w rfl
  refine inTx_safe _ (fun a => [a]) w ?_
  refine ⟨trivial, fun r v' hv => ?_⟩
  cases r with
  | error e => exact ⟨[], hv, fun a ha => by cases ha⟩
  | ok id =>
    obtain rfl : v' = (some [id], w.2) := hv
    show SendSafe _ (notifyQueue n 1 >>= fun _ => pure id) _
    refine Safe.bind (notifyQueue_safe n 1 _) ?_ ?_
    · rintro - w' rfl
      exact ⟨[id], rfl, fun a ha i hi => by rw [Except.ok.inj ha]; exact hi⟩
    · rintro e w' rfl
      exact ⟨[id], rfl, fun a ha => by cases ha⟩

theorem send_safe (store : MqStore) (n p : String) (delay : Int) (v : SendView) :
    SendSafe (fun r w => ∀ a, r = .ok a → ∀ i ∈ [a], i ∈ w.2) (store.send n p delay) v := by
  refine Safe.bind (check_safe _ v) ?_ (fun e w _ a ha => by cases ha)
  rintro - w rfl
  refine Safe.bind (check_safe _ w) ?_ (fun e w _ a ha => by cases ha)
  rintro payload w rfl
  exact sendValue_safe n payload delay w

theorem sendBatch_safe (store : MqStore) (n : String) (ps : List String) (delay : Int)
    (v : SendView) :
    SendSafe (fun r w => ∀ a, r = .ok a → ∀ i ∈ a, i ∈ w.2) (store.sendBatch n ps delay) v := by
  refine Safe.bind (check_safe _ v) ?_ (fun e w _ a ha => by cases ha)
  rintro - w rfl
  refine Safe.bind (check_safe _ w) ?_ (fun e w _ a ha => by cases ha)
  rintro - w rfl
  show SendSafe _ (if ps.isEmpty then pure [] else _) w
  split
  · intro a ha i hi
    rw [← Except.ok.inj ha] at hi
    exact absurd hi List.not_mem_nil
  · refine Safe.bind (queueId_safe n w) ?_ (fun e w _ a ha => by cases ha)
    rintro q w rfl
    refine Safe.bind (check_safe _ w) ?_ (fun e w _ a ha => by cases ha)
    rintro payloads w rfl
    refine inTx_safe _ id w ?_
    refine Safe.bind (insertAll_safe q delay payloads [] w.2) ?_ ?_
    · intro ids w' h
      obtain ⟨p, rfl, hp⟩ := h
      obtain rfl := hp ids rfl
      refine Safe.bind (notifyQueue_safe n _ _) ?_ ?_
      · rintro - w' rfl
        exact ⟨ids, rfl, fun a ha i hi => by rw [Except.ok.inj ha]; exact hi⟩
      · rintro e w' rfl
        exact ⟨ids, rfl, fun a ha => by cases ha⟩
    · intro e w' h
      obtain ⟨p, rfl, -⟩ := h
      exact ⟨p, rfl, fun a ha => by cases ha⟩

theorem body_safe (call : MqCall) (v : SendView) :
    SendSafe (fun r w => ∀ i ∈ returnedIds call.op r, i ∈ w.2) call.body v := by
  obtain ⟨store, op⟩ := call
  cases op with
  | send n p d =>
    exact Safe.bind (send_safe store n p d v) (fun a w hw i hi => hw a rfl i hi)
      (fun e w _ i hi => absurd hi List.not_mem_nil)
  | sendBatch n ps d =>
    exact Safe.bind (sendBatch_safe store n ps d v) (fun a w hw i hi => hw a rfl i hi)
      (fun e w _ i hi => absurd hi List.not_mem_nil)
  | _ => exact (Safe.trivial _ v).mono fun r w _ i hi => absurd hi List.not_mem_nil

theorem returned_sent {σ : MqSys} (hr : MqReach σ) :
    ∀ s call r, (s, call, r) ∈ σ.done → ∀ i ∈ returnedIds call.op r, i ∈ sentIds σ.hist := by
  refine hr.done_of (fun call r h => ∀ i ∈ returnedIds call.op r, i ∈ sentIds h) ?_ ?_
  · intro τ s call r hτ hp i hi
    have h1 := hτ.rely sendView_rules (fun _ _ _ _ => trivial) (fun call v _ => body_safe call v)
    exact sentBy_subset (h1.running s call _ hp i hi)
  · intro call r e h hh i hi
    rw [sentIds_cons]
    exact List.mem_append_right _ (hh i hi)

/-! ## conservation -/

/-- the statements that move a message from one table to another -/
def MqStmt.moves : MqStmt → Bool
  | .deadLetter _ _ _ => true
  | .deadLetterDue _ => true
  | .archive _ _ _ => true
  | .reprocess _ _ => true
  | _ => false

theorem MqLedger.places_moves {db db' : MqDb} {h : List MqEv} (L : MqLedger db h) {s : Nat}
    {c : MqCtx} {st : MqStmt} {r : st.Res} (hm : st.moves = true)
    (hx : st.exec s c db = some (r, db')) (id : Int) :
        db'.places.count id = db.places.count id := by
  cases st with
  | deadLetter q i reason =>
    obtain rfl : (db.deadLetter q i reason (db.now s c.now)).2 = db' :=
      congrArg Prod.snd (Option.some.inj hx)
    exact L.places_moveToDlq _ _ reason id
  | deadLetterDue q =>
    obtain rfl : (db.deadLetterDue q (db.now s c.now)).2 = db' :=
      congrArg Prod.snd (Option.some.inj hx)
    obtain ⟨sel, reason, he, -⟩ := deadLetterDue_eq db q (db.now s c.now)
    rw [he]
    exact L.places_moveToDlq sel _ reason id
  | archive q i token =>
    obtain rfl : (db.archive q i token (db.now s c.now)).2 = db' :=
      congrArg Prod.snd (Option.some.inj hx)
    exact MqLedger.places_archive q i token _ id
  | reprocess q i =>
    obtain rfl : (db.reprocess q i (db.now s c.now)).2 = db' :=
      congrArg Prod.snd (Option.some.inj hx)
    exact L.places_reprocess q i _ id
  | _ => exact absurd hm (by simp [MqStmt.moves])

theorem MqLedger.places_of_sent {db : MqDb} {h : List MqEv} (L : MqLedger db h) {id : Int}
    (hs : id ∈ sentIds h) : db.places.count id = if id ∈ removedIds h then 0 else 1 := by
  have h1 := L.flow id
  have h2 := L.once id
  have h3 : 0 < (sentIds h).count id := List.count_pos_iff.mpr hs
  split
  · rename_i hr
    have h4 : 0 < (removedIds h).count id := List.count_pos_iff.mpr hr
    omega
  · rename_i hr
    have h4 : (removedIds h).count id = 0 := List.count_eq_zero.mpr hr
    omega

/-- **Conservation.**  In every reachable state, whatever the clients interleave: an id lies in at
most one of the three tables and there once; an id returned by a send lies in exactly one unless
an ack, a purge, a sweep or the drop of its queue removed it; the `DO NOTHING` branch of the
dead-letter moves is never taken, reprocessing never meets a clash of keys (nor an id another
session is about to commit), and no moving statement loses or duplicates a message. -/
theorem mq_conservation (σ : MqSys) (hr : MqReach σ) :
    (∀ id, σ.db.places.count id ≤ 1) ∧
    (∀ s call r, (s, call, r) ∈ σ.done → ∀ id ∈ returnedIds call.op r,
      σ.db.places.count id = if id ∈ removedIds σ.hist then 0 else 1) ∧
    (∀ id ∈ sentIds σ.hist, σ.db.places.count id = if id ∈ removedIds σ.hist then 0 else 1) ∧
    (∀ m ∈ σ.db.messages, σ.db.dlqConflict m = false) ∧
    (∀ sel now reason, (σ.db.moveToDlq sel now reason).1 = (σ.db.messages.filter sel).length) ∧
    (∀ q id now, ∃ n, (σ.db.reprocess q id now).1 = .ok n) ∧
    (∀ id ∈ σ.db.places, σ.db.pendingCount id = 0) ∧
    (∀ s c st (r : MqStmt.Res st) db', st.moves = true → st.exec s c σ.db = some (r, db') →
      ∀ id, db'.places.count id = σ.db.places.count id) := by
  have L := MqLedger.of_reach hr
  refine ⟨L.places_le, ?_, fun id hid => L.places_of_sent hid, ?_, ?_, ?_, ?_, ?_⟩
  · intro s call r hd id hid
    exact L.places_of_sent (returned_sent hr s call r hd id hid)
  · exact fun m hm => dlqConflict_false (L.not_dlq hm)
  · intro sel now reason
    exact (moveToDlq_spec σ.db sel now reason L.messageIds_nodup (fun m hm => L.not_dlq hm)).1
  · intro q id now
    exact ⟨_, congrArg Prod.fst (L.reprocess_ok q id now)⟩
  · intro id hid
    have h1 := L.flow id
    have h2 := L.once id
    have h3 : 0 < σ.db.places.count id := List.count_pos_iff.mpr hid
    omega
  · intro s c st r db' hm hx id
    exact L.places_moves hm hx id

/-- a store that takes any payload as a JSON string -/
def textStore : MqStore := ⟨false, {}, fun s => .ok (.str s)⟩

def plainCtx (now : Time) : MqCtx := ⟨now, fun id => s!"token-{id}-{now}", []⟩

/-- one message sent, dead-lettered, and put back by another session -/
def roundTrip : List (Act MqCall MqCtx) :=
  [.call 0 ⟨textStore, .createQueue "orders" .durable⟩, .stmt 0 (plainCtx 0), .ret 0,
   .call 0 ⟨textStore, .send "orders" "x" 0⟩, .stmt 0 (plainCtx 1), .stmt 0 (plainCtx 2),
   .stmt 0 (plainCtx 3), .stmt 0 (plainCtx 4), .stmt 0 (plainCtx 5), .ret 0,
   .call 1 ⟨textStore, .deadLetter "orders" 1 "bad"⟩, .stmt 1 (plainCtx 6),
     .stmt 1 (plainCtx 7), .ret 1,
   .call 1 ⟨textStore, .reprocessDlqMessage "orders" 1⟩, .stmt 1 (plainCtx 8), .stmt 1 (plainCtx 9),
   .stmt 1 (plainCtx 10), .stmt 1 (plainCtx 11), .ret 1]

theorem mq_conservation_roundTrip :
    ∃ σ : MqSys, (Sys.init MqDb.empty).play MqStmt.exec MqCall.body roundTrip = some σ ∧
      σ.db.places.count 1 = 1 ∧ σ.db.messageIds = [1] := by
  have h : ((Sys.init MqDb.empty : MqSys).play MqStmt.exec MqCall.body roundTrip).isSome := by rfl
  refine ⟨_, (Option.some_get h).symm, ?_, rfl⟩
  have hr : MqReach (Option.get _ h) := Sys.play_steps (Option.some_get h).symm
  exact (mq_conservation _ hr).2.1 0 ⟨textStore, .send "orders" "x" 0⟩ (.ok (.id 1))
    (.tail _ (.tail _ (.head _))) 1 List.mem_cons_self

end PgApp
