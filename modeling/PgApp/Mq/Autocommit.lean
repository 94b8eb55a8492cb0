import PgApp.Mq.Frame
import PgApp.Mq.Store

/-!
# Outside a transaction `now()` is the clock

`now()` of a statement is the start of its transaction.  Only `insertMessage`, `pg_notify`,
`archive` and `reprocess` are ever issued inside one: every other statement of the store is its
own transaction (`MqStmt.auto`), so its `now()` is the clock reading of that moment
(`eventNow_auto`), and a session between two calls has no transaction open (`idle_no_tx`).

The view of a session is whether it has a transaction open.
-/

namespace PgApp
open Interleave

/-- the statements that are never issued inside a transaction -/
def MqStmt.auto : MqStmt → Bool
  | .begin => false
  | .commit => false
  | .rollback => false
  | .insertMessage _ _ _ => false
  | .pgNotify _ _ => false
  | .archive _ _ _ => false
  | .reprocess _ _ => false
  | _ => true

/-- whether the session has a transaction open after its statement -/
def openAfter : MqStmt → Bool → Bool
  | .begin, _ => true
  | .commit, _ => false
  | .rollback, _ => false
  | _, v => v

def openTx (s : Nat) (db : MqDb) (_ : List MqEv) : Bool := (db.txs.get s).isSome

/-- a program checked against its transaction discipline -/
abbrev TxSafe {α : Type} (Q : PgAppResult α → Bool → Prop) (p : MqProg α) (v : Bool) : Prop :=
  Safe (fun st v => st.auto = true → v = false) (fun st _ v v' => v' = openAfter st v) Q p v

theorem openTx_own {s : Nat} {op : MqCall} {c : MqCtx} {st : MqStmt} {r : st.Res} {db db' : MqDb}
    {h : List MqEv} (hx : st.exec s c db = some (r, db')) :
    openTx s db' (⟨s, op, c, st, r, db⟩ :: h) = openAfter st (openTx s db h) := by
  unfold openTx
  cases hst : st.isTx with
  | false =>
    rw [exec_txs hst hx]
    cases st <;> first | rfl | exact absurd hst (by decide)
  | true =>
    cases st with
    | begin =>
      obtain rfl : db.begin s c.now = db' := congrArg Prod.snd (Option.some.inj hx)
      unfold MqDb.begin
      rw [Slots.get_set_self]
      rfl
    | commit =>
      obtain rfl : db.commit s = db' := congrArg Prod.snd (Option.some.inj hx)
      unfold MqDb.commit openAfter
      cases hg : db.txs.get s with
      | none =>
        show (db.txs.get s).isSome = false
        rw [hg]
        rfl
      | some t =>
        show ((db.txs.erase s).get s).isSome = false
        rw [Slots.get_erase_self]
        rfl
    | rollback =>
      obtain rfl : db.rollback s = db' := congrArg Prod.snd (Option.some.inj hx)
      unfold MqDb.rollback
      rw [Slots.get_erase_self]
      rfl
    | insertMessage q payload delay =>
      obtain ⟨t, hg, ⟨-, rfl⟩ | ⟨e, -, rfl⟩⟩ := insertMessage_cases hx
      · rw [Slots.get_set_self, hg]
        rfl
      · rfl
    | _ => exact absurd hst (by simp [MqStmt.isTx])

theorem openTx_other {s t : Nat} {op : MqCall} {c : MqCtx} {st : MqStmt} {r : st.Res}
    {db db' : MqDb} {h : List MqEv} (ht : t ≠ s) (hx : st.exec s c db = some (r, db')) :
    openTx t db' (⟨s, op, c, st, r, db⟩ :: h) = openTx t db h := by
  unfold openTx
  rw [exec_txs_other ht hx]

/-! ## every program keeps the discipline -/

section
variable {α β : Type}

theorem tx_query (st : MqStmt) (h : st.auto = true) :
    TxSafe (fun _ v => v = false) (query st) false := by
  refine ⟨fun _ => rfl, fun r v hv => ?_⟩
  show v = false
  rw [hv]
  cases st <;> first | rfl | exact absurd h (by decide)

theorem tx_query_bind (st : MqStmt) (h : st.auto = true) {k : st.Res → MqProg α}
    (hk : ∀ r, TxSafe (fun _ v => v = false) (k r) false) :
    TxSafe (fun _ v => v = false) (query st >>= k) false := by
  refine Safe.bind (tx_query st h) (fun r v hv => ?_) (fun e v hv => hv)
  rw [hv]
  exact hk r

theorem tx_check_bind (r : PgAppResult β) {k : β → MqProg α} {v : Bool}
    (hk : ∀ b, TxSafe (fun _ w => w = v) (k b) v) :
    TxSafe (fun _ w => w = v) (Prog.check r >>= k) v := by
  cases r with
  | error e => exact rfl
  | ok b => exact hk b

theorem tx_orFail (r : Except SqlError α) (v : Bool) :
    TxSafe (fun _ w => w = v) (orFail r : MqProg α) v := by
  cases r <;> exact rfl

theorem tx_bind {p : MqProg β} {k : β → MqProg α} {v : Bool} (hp : TxSafe (fun _ w => w = v) p v)
    (hk : ∀ b, TxSafe (fun _ w => w = v) (k b) v) : TxSafe (fun _ w => w = v) (p >>= k) v := by
  refine Safe.bind hp (fun b w hw => ?_) (fun e w hw => hw)
  rw [hw]
  exact hk b

theorem tx_queueId_bind (n : String) {k : Int → MqProg α}
    (hk : ∀ q, TxSafe (fun _ v => v = false) (k q) false) :
    TxSafe (fun _ v => v = false) (queueId n >>= k) false := by
  refine tx_bind (tx_check_bind _ fun _ => tx_query_bind _ rfl fun r => ?_) hk
  cases r <;> exact rfl

theorem tx_inTx {p : MqProg α} (h : TxSafe (fun _ v => v = true) p true) :
    TxSafe (fun _ v => v = false) (inTx p) false := by
  refine ⟨fun hc => absurd hc (by decide), fun r v hv => ?_⟩
  obtain rfl : v = true := hv
  refine Safe.bracket h ?_ ?_
  · exact fun a v _ => ⟨fun hc => absurd hc (by decide), fun r v' hv' => hv'⟩
  · exact fun e v _ => ⟨fun hc => absurd hc (by decide), fun r v' hv' => hv'⟩

theorem tx_inner_bind (st : MqStmt) (h : st.auto = false) (ho : openAfter st true = true)
    {k : st.Res → MqProg α} (hk : ∀ r, TxSafe (fun _ v => v = true) (k r) true) :
    TxSafe (fun _ v => v = true) (query st >>= k) true := by
  refine ⟨fun hc => absurd hc (by rw [h]; decide), fun r v hv => ?_⟩
  obtain rfl : v = true := by rw [hv, ho]
  exact hk r

end

theorem tx_notifyQueue (n : String) (k : Nat) :
    TxSafe (fun _ v => v = true) (notifyQueue n k) true :=
  tx_check_bind _ fun _ => tx_inner_bind _ rfl rfl fun r => tx_orFail r true

theorem tx_insertAll (q delay : Int) (ps : List Json) (ids : List Int) :
    TxSafe (fun _ v => v = true) (insertAll q delay ps ids) true := by
  induction ps generalizing ids with
  | nil => exact rfl
  | cons p ps ih => exact tx_inner_bind _ rfl rfl fun r => tx_bind (tx_orFail r true) fun id => ih _

theorem tx_read (store : MqStore) (n : String) (k t : Int) :
    TxSafe (fun _ v => v = false) (store.read n k t) false :=
  tx_check_bind _ fun _ => tx_check_bind _ fun _ => tx_check_bind _ fun _ =>
    tx_queueId_bind n fun _ => tx_query_bind _ rfl fun _ => tx_query_bind _ rfl fun r =>
      tx_orFail r false

theorem tx_pollLoop (store : MqStore) (n : String) (k t : Int) (i d : Time) (rounds : Nat) :
    TxSafe (fun _ v => v = false) (store.pollLoop n k t i d rounds) false := by
  induction rounds with
  | zero => exact ⟨fun _ => rfl, fun r v hv => hv⟩
  | succ rounds ih =>
    refine tx_bind (tx_read store n k t) fun ms => ?_
    show TxSafe _ (if _ then _ else _) _
    split
    · refine tx_query_bind _ rfl fun now => ?_
      show TxSafe _ (if _ then _ else _) _
      split
      · exact rfl
      · exact tx_query_bind _ rfl fun _ => ih
    · exact rfl

theorem tx_streamReadNext (store : MqStore) (n : String) (k t : Int) (rounds : Nat) :
    TxSafe (fun _ v => v = false) (store.streamReadNext n k t rounds) false := by
  induction rounds with
  | zero => exact ⟨fun _ => rfl, fun r v hv => hv⟩
  | succ rounds ih =>
    refine tx_bind (tx_read store n k t) fun ms => ?_
    show TxSafe _ (if _ then _ else _) _
    split
    · exact tx_query_bind _ rfl fun _ => ih
    · exact rfl

theorem tx_body (call : MqCall) : TxSafe (fun _ v => v = false) call.body false := by
  obtain ⟨store, op⟩ := call
  cases op with
  | createQueue n mode =>
    refine tx_bind (tx_check_bind _ fun _ => ?_) fun _ => rfl
    show TxSafe _ (if _ then _ else _) _
    split
    · exact rfl
    · exact tx_query _ rfl
  | purgeQueue n =>
    exact tx_bind (tx_queueId_bind n fun q => tx_query _ rfl) fun _ => rfl
  | dropQueue n =>
    refine tx_bind (tx_check_bind _ fun _ => tx_query_bind _ rfl fun k => ?_) fun _ => rfl
    show TxSafe _ (if _ then _ else _) _
    split <;> exact rfl
  | send n p d =>
    refine tx_bind (tx_check_bind _ fun _ => tx_check_bind _ fun payload => ?_) fun _ => rfl
    refine tx_check_bind _ fun _ => tx_queueId_bind n fun q => tx_inTx ?_
    exact tx_inner_bind _ rfl rfl fun r => tx_bind (tx_orFail r true) fun _ =>
      tx_bind (tx_notifyQueue n 1) fun _ => rfl
  | sendBatch n ps d =>
    refine tx_bind (tx_check_bind _ fun _ => tx_check_bind _ fun _ => ?_) fun _ => rfl
    show TxSafe _ (if _ then _ else _) _
    split
    · exact rfl
    · refine tx_queueId_bind n fun q => tx_check_bind _ fun payloads => tx_inTx ?_
      exact tx_bind (tx_insertAll q d payloads []) fun ids =>
        tx_bind (tx_notifyQueue n ids.length) fun _ => rfl
  | read n k t => exact tx_bind (tx_read store n k t) fun _ => rfl
  | readWithPoll n k t mx i rounds =>
    refine tx_bind (tx_check_bind _ fun _ => tx_check_bind _ fun _ => tx_check_bind _ fun _ =>
      tx_check_bind _ fun _ => tx_query_bind _ rfl fun now => ?_) fun _ => rfl
    exact MqStore.pollUntil_of (P := fun p => TxSafe (fun _ v => v = false) p false)
      (tx_pollLoop store n k t _) _ rounds
  | streamReadNext n k t rounds => exact tx_bind (tx_streamReadNext store n k t rounds) fun _ => rfl
  | deadLetter n id reason =>
    exact tx_bind (tx_queueId_bind n fun q => tx_query_bind _ rfl fun _ => rfl) fun _ => rfl
  | listDlqMessages n l o =>
    refine tx_bind (tx_queueId_bind n fun q => ?_) fun _ => rfl
    show TxSafe _ (if _ then _ else _) _
    split
    · exact rfl
    · exact tx_check_bind _ fun l => tx_query_bind _ rfl fun r =>
        tx_bind (tx_orFail r false) fun _ => rfl
  | getDlqMessage n id =>
    refine tx_bind (tx_queueId_bind n fun q => tx_query_bind _ rfl fun r => ?_) fun _ => rfl
    cases r <;> exact rfl
  | reprocessDlqMessage n id =>
    exact tx_bind (tx_queueId_bind n fun q => tx_inTx (tx_inner_bind _ rfl rfl fun r =>
      tx_bind (tx_orFail r true) fun _ => rfl)) fun _ => rfl
  | purgeDlq n =>
    exact tx_bind (tx_queueId_bind n fun q => tx_query_bind _ rfl fun _ => rfl) fun _ => rfl
  | sweepDlq d =>
    refine tx_bind ?_ fun _ => rfl
    show TxSafe _ (if _ then _ else _) _
    split
    · exact rfl
    · exact tx_query_bind _ rfl fun _ => rfl
  | ack n id tok =>
    exact tx_bind (tx_check_bind _ fun _ => tx_queueId_bind n fun q =>
      tx_query_bind _ rfl fun _ => rfl) fun _ => rfl
  | archive n id tok =>
    exact tx_bind (tx_check_bind _ fun _ => tx_queueId_bind n fun q =>
      tx_inTx (tx_inner_bind _ rfl rfl fun _ => rfl)) fun _ => rfl
  | setVisibilityTimeout n id tok t =>
    exact tx_bind (tx_check_bind _ fun _ => tx_check_bind _ fun _ => tx_check_bind _ fun _ =>
      tx_queueId_bind n fun q => tx_query_bind _ rfl fun _ => rfl) fun _ => rfl
  | metrics n =>
    exact tx_bind (tx_queueId_bind n fun q => tx_query_bind _ rfl fun _ =>
      tx_query_bind _ rfl fun _ => tx_query_bind _ rfl fun _ => rfl) fun _ => rfl

/-! ## in every run -/

theorem openTx_rules : Rules MqStmt.exec MqDb.empty (fun _ _ => True) openTx
    (fun (_ : MqCall) st v => st.auto = true → v = false) (fun _ st _ v v' => v' = openAfter st v)
    (fun v => v = false) where
  first := trivial
  keep := fun _ _ _ _ _ _ _ _ _ _ _ => trivial
  own := fun _ _ _ _ _ _ _ _ _ _ hx => openTx_own hx
  other := fun _ _ _ _ _ _ _ _ _ ht _ _ hx => openTx_other ht hx
  init := fun _ => rfl

theorem tx_reach {σ : MqSys} (hr : MqReach σ) :
    Relies MqStmt.exec (fun _ _ => True) openTx (fun _ st v => st.auto = true → v = false)
      (fun _ st _ v v' => v' = openAfter st v) (fun _ _ v => v = false) (fun v => v = false) σ := by
  refine hr.rely openTx_rules (fun _ _ _ hv => hv) ?_
  intro call v hv
  rw [hv]
  exact tx_body call

theorem idle_no_tx {σ : MqSys} (hr : MqReach σ) {s : Nat} (hs : σ.prog s = none) :
    σ.db.txs.get s = none := by
  have h := (tx_reach hr).resting s hs
  simpa [openTx] using h

theorem auto_no_tx {σ : MqSys} (hr : MqReach σ) :
    Always (fun e _ => e.stmt.auto = true → e.pre.txs.get e.sess = none) σ.hist := by
  refine (tx_reach hr).past.mono ?_
  rintro e h ⟨-, hP, -⟩ hauto
  have h2 := hP hauto
  simpa [openTx] using h2

/-- outside a transaction `now()` is the clock -/
theorem now_eq_clock {db : MqDb} {s : Nat} (h : db.txs.get s = none) (clock : Time) :
    db.now s clock = clock := by
  unfold MqDb.now
  rw [h]

end PgApp
