import PgApp.Mq.Isolation
import PgApp.Mq.Alone

/-!
# The statements of a batch, among those of others

A session is watched through its transaction and its own statements (`batchView`).  While
`send_batch` runs, its transaction holds exactly the rows of the ids it has collected (`Collected`),
and no statement of it before the COMMIT touches `mq_messages` (`Quietly`).

* `KeepsMessages`   a statement that leaves `mq_messages` alone;
* `PendingQueued`   the foreign key: a row in an open transaction is of a queue that is there;
* `BatchSent`       what the statements of a batch that is answered with ids have done;
* `sendBatch_calls` every finished `send_batch`, with its statements.
-/

namespace PgApp
open Interleave

/-! ## statements that add nothing -/

/-- executed where it was, the statement leaves `mq_messages` as it is -/
def KeepsMessages (e : MqEv) : Prop :=
  ∀ r db', e.stmt.exec e.sess e.ctx e.pre = some (r, db') → db'.messages = e.pre.messages

/-- the statements of a send other than its COMMIT -/
def MqStmt.quiet : MqStmt → Bool
  | .selectQueueId _ => true
  | .begin => true
  | .rollback => true
  | .insertMessage _ _ _ => true
  | .pgNotify _ _ => true
  | _ => false

theorem keepsMessages_of_quiet {e : MqEv} (h : e.stmt.quiet = true) : KeepsMessages e := by
  intro r db' hx
  obtain ⟨s, call, c, st, k, db⟩ := e
  cases st with
  | insertMessage q payload delay =>
    obtain ⟨t, -, ⟨-, rfl⟩ | ⟨_, -, rfl⟩⟩ := insertMessage_cases hx <;> rfl
  | selectQueueId _ | begin | rollback | pgNotify _ _ =>
    obtain rfl := congrArg Prod.snd (Option.some.inj hx)
    rfl
  | _ => exact absurd h (by simp [MqStmt.quiet])

/-! ## the view -/

/-- the session's transaction and its own statements -/
abbrev BatchView := Option MqTx × List MqEv

def batchView (s : Nat) (db : MqDb) (h : List MqEv) : BatchView := (db.txs.get s, ownEvents s h)

/-- how a send's own statements move its transaction -/
def TxMove (now : Time) : (st : MqStmt) → st.Res → Option MqTx → Option MqTx → Prop
  | .begin, _, _, x' => x' = some ⟨now, []⟩
  | .insertMessage q payload delay, .ok id, x, x' => ∃ t, x = some t ∧
      x' = some { t with pending := t.pending ++ [newMessage id q payload t.startedAt delay] } ∧
      ∀ m ∈ t.pending, m.id < id
  | .insertMessage _ _ _, .error _, x, x' => x' = x
  | .pgNotify _ _, _, x, x' => x' = x
  | _, _, _, _ => True

def BatchMove (call : MqCall) (st : MqStmt) (r : st.Res) (γ γ' : BatchView) : Prop :=
  ∃ s c db, γ'.2 = ⟨s, call, c, st, r, db⟩ :: γ.2 ∧ db.txs.get s = γ.1 ∧ TxMove c.now st r γ.1 γ'.1

theorem txMove_own {s : Nat} {c : MqCtx} {st : MqStmt} {r : st.Res} {db db' : MqDb} {h : List MqEv}
    (L : MqLedger db h) (hx : st.exec s c db = some (r, db')) :
    TxMove c.now st r (db.txs.get s) (db'.txs.get s) := by
  cases st with
  | begin =>
    obtain rfl : db.begin s c.now = db' := congrArg Prod.snd (Option.some.inj hx)
    exact Slots.get_set_self _ _ _
  | insertMessage q payload delay =>
    obtain ⟨t, hg, ⟨rfl, rfl⟩ | ⟨e, rfl, rfl⟩⟩ := insertMessage_cases hx
    · refine ⟨t, hg, Slots.get_set_self _ _ _, fun m hm => ?_⟩
      have h1 := MqLedger.pendingCount_pos hg hm
      exact L.below m.id (by omega)
    · exact rfl
  | pgNotify channel payload =>
    obtain rfl := congrArg Prod.snd (Option.some.inj hx)
    exact rfl
  | _ => exact trivial

theorem batchView_rules : Rules MqStmt.exec MqDb.empty MqLedger batchView (fun _ _ _ => True)
    BatchMove (fun _ => True) where
  first := MqLedger.empty
  keep := fun _ _ _ _ _ _ _ _ hg _ hx => hg.step hx
  own := fun db _ s _ c _ _ _ hg _ hx =>
    ⟨s, c, db, ownEvents_cons_self rfl, rfl, txMove_own hg hx⟩
  other := fun _ _ _ _ _ _ _ _ _ ht _ _ hx =>
    Prod.ext (exec_txs_other ht hx) (ownEvents_cons_ne (Ne.symm ht))
  init := fun _ => trivial

/-! ## the program -/

/-- the statements since `γ₀` add nothing -/
def Quietly (γ₀ : List MqEv) (γ : BatchView) : Prop :=
  ∃ new, γ.2 = new ++ γ₀ ∧ ∀ e ∈ new, KeepsMessages e

theorem Quietly.refl (γ : BatchView) : Quietly γ.2 γ :=
    ⟨[], rfl, fun _ h => absurd h List.not_mem_nil⟩

theorem Quietly.cons {γ₀ : List MqEv} {γ γ' : BatchView} (h : Quietly γ₀ γ) {e : MqEv}
    (he : γ'.2 = e :: γ.2) (hq : e.stmt.quiet = true) : Quietly γ₀ γ' := by
  obtain ⟨new, h1, h2⟩ := h
  refine ⟨e :: new, by rw [he, h1]; rfl, fun d hd => ?_⟩
  rcases List.mem_cons.mp hd with rfl | hd
  · exact keepsMessages_of_quiet hq
  · exact h2 d hd

/-- what is asked of a row: never read, without a token, and available after the delay -/
def batchRow (q delay : Int) (now : Time) (id : Int) (v : Json) : MessageRow where
  id := id
  queueId := q
  payload := v
  headers := .obj []
  availableAt := now + delay * 1000000
  visibilityTimeoutAt := none
  ackToken := none
  readCount := 0
  lastReadAt := none
  createdAt := now
  updatedAt := now

/-- the rows of a batch -/
def batchRows (q delay : Int) (now : Time) (ids : List Int) (vs : List Json) : List MessageRow :=
  List.zipWith (batchRow q delay now) ids vs

theorem newMessage_eq (q delay : Int) (now : Time) (id : Int) (v : Json) :
    newMessage id q v now delay = batchRow q delay now id v := rfl

theorem batchRows_snoc (q delay : Int) (now : Time) {ids : List Int} {vs : List Json}
    (hlen : ids.length = vs.length) (id : Int) (v : Json) :
    batchRows q delay now (ids ++ [id]) (vs ++ [v])
      = batchRows q delay now ids vs ++ [newMessage id q v now delay] := by
  rw [newMessage_eq]
  exact List.zipWith_append hlen

theorem batchRows_ids (q delay : Int) (now : Time) {ids : List Int} {vs : List Json}
    (hlen : ids.length = vs.length) : (batchRows q delay now ids vs).map (·.id) = ids := by
  induction ids generalizing vs with
  | nil => rfl
  | cons id ids ih =>
    cases vs with
    | nil => cases hlen
    | cons v vs => exact congrArg (id :: ·) (ih (Nat.succ.inj hlen))

/-- since `γ₀` the call has looked its queue up and begun; its transaction holds the rows of the ids
collected so far -/
structure Collected (call : MqCall) (n : String) (q delay : Int) (γ₀ : List MqEv) (ids : List Int)
    (vs : List Json) (γ : BatchView) : Prop where
  lengths : ids.length = vs.length
  rising : ids.Pairwise (· < ·)
  since : ∃ new now, γ.2 = new ++ γ₀ ∧ γ.1 = some ⟨now, batchRows q delay now ids vs⟩ ∧
    (∀ e ∈ new, KeepsMessages e) ∧ (∃ b ∈ new, b.stmt = .begin ∧ b.ctx.now = now) ∧
    ∃ s c db, ⟨s, call, c, .selectQueueId n, some q, db⟩ ∈ new

/-- a program checked against the moves of its view -/
abbrev BatchSafe {α : Type} (call : MqCall) (Q : PgAppResult α → BatchView → Prop) (p : MqProg α)
    (γ : BatchView) : Prop :=
  Safe (fun _ _ => True) (BatchMove call) Q p γ

section
variable {call : MqCall} {n : String} {q delay : Int} {γ₀ : List MqEv} {ids : List Int}
  {vs : List Json} {γ γ' : BatchView}

theorem Collected.quiet (h : Collected call n q delay γ₀ ids vs γ) : Quietly γ₀ γ := by
  obtain ⟨new, now, h1, -, h2, -⟩ := h.since
  exact ⟨new, h1, h2⟩

theorem Collected.cons (h : Collected call n q delay γ₀ ids vs γ) {e : MqEv}
    (he : γ'.2 = e :: γ.2) (hq : e.stmt.quiet = true) (htx : γ'.1 = γ.1) :
    Collected call n q delay γ₀ ids vs γ' := by
  obtain ⟨new, now, h1, h2, h3, ⟨b, hb, hb'⟩, s, c, db, hl⟩ := h.since
  refine ⟨h.lengths, h.rising, e :: new, now, by rw [he, h1]; rfl, htx.trans h2, fun d hd => ?_,
    ⟨b, List.mem_cons_of_mem _ hb, hb'⟩, s, c, db, List.mem_cons_of_mem _ hl⟩
  rcases List.mem_cons.mp hd with rfl | hd
  · exact keepsMessages_of_quiet hq
  · exact h3 d hd

theorem Collected.insert (h : Collected call n q delay γ₀ ids vs γ) {payload : Json} {id : Int}
    (hm : BatchMove call (.insertMessage q payload delay) (.ok id) γ γ') :
    Collected call n q delay γ₀ (ids ++ [id]) (vs ++ [payload]) γ' := by
  obtain ⟨s, c, db, he, -, t, ht, ht', hlt⟩ := hm
  obtain ⟨new, now, h1, h2, h3, ⟨b, hb, hb'⟩, s₂, c₂, db₂, hl⟩ := h.since
  obtain rfl : t = ⟨now, batchRows q delay now ids vs⟩ := Option.some.inj (ht.symm.trans h2)
  refine ⟨?_, ?_, _ :: new, now, by rw [he, h1]; rfl, ?_, fun d hd => ?_,
    ⟨b, List.mem_cons_of_mem _ hb, hb'⟩, s₂, c₂, db₂, List.mem_cons_of_mem _ hl⟩
  · rw [List.length_append, List.length_append, h.lengths]
    rfl
  · refine List.pairwise_append.mpr ⟨h.rising, List.pairwise_singleton _ _, fun i hi j hj => ?_⟩
    rw [← batchRows_ids q delay now h.lengths] at hi
    obtain ⟨m, hm, rfl⟩ := List.mem_map.mp hi
    rw [List.mem_singleton.mp hj]
    exact hlt m hm
  · rw [ht', batchRows_snoc q delay now h.lengths]
  · rcases List.mem_cons.mp hd with rfl | hd
    · exact keepsMessages_of_quiet rfl
    · exact h3 d hd

theorem insertAll_collects (rest : List Json) (h : Collected call n q delay γ₀ ids vs γ) :
    BatchSafe call (fun r γ' => Quietly γ₀ γ' ∧
        ∀ l, r = .ok l → Collected call n q delay γ₀ l (vs ++ rest) γ')
      (insertAll q delay rest ids) γ := by
  induction rest generalizing ids vs γ with
  | nil =>
    refine ⟨h.quiet, fun l hl => ?_⟩
    obtain rfl := Except.ok.inj hl
    rw [List.append_nil]
    exact h
  | cons payload rest ih =>
    refine ⟨trivial, fun r γ' hm => ?_⟩
    cases r with
    | error e =>
      obtain ⟨s, c, db, he, -⟩ := hm
      exact ⟨h.quiet.cons he rfl, fun l hl => by cases hl⟩
    | ok id =>
      have h1 := ih (h.insert hm)
      rw [List.append_assoc] at h1
      exact h1

/-- `notify_queue` leaves the transaction as it is -/
theorem notifyQueue_collects (k : Nat) (h : Collected call n q delay γ₀ ids vs γ) :
    BatchSafe call (fun _ γ' => Collected call n q delay γ₀ ids vs γ') (notifyQueue n k) γ := by
  unfold notifyQueue
  cases mqChannel n with
  | error e => exact h
  | ok channel =>
    refine ⟨trivial, fun r γ' hm => ?_⟩
    obtain ⟨s, c, db, he, -, htx⟩ := hm
    have h1 := h.cons he rfl htx
    cases r with
    | ok u => exact h1
    | error e => exact h1

theorem queueId_logs (n : String) (γ : BatchView) :
    BatchSafe call (fun r γ' => Quietly γ.2 γ' ∧ ∀ q, r = .ok q → ∃ s c db,
        γ'.2 = ⟨s, call, c, .selectQueueId n, some q, db⟩ :: γ.2) (queueId n) γ := by
  unfold queueId
  cases validateQueueName n with
  | error e => exact ⟨Quietly.refl γ, fun q hq => by cases hq⟩
  | ok u =>
    refine ⟨trivial, fun r γ' hm => ?_⟩
    obtain ⟨s, c, db, he, -⟩ := hm
    have hq := (Quietly.refl γ).cons he rfl
    cases r with
    | none => exact ⟨hq, fun q hq => by cases hq⟩
    | some q =>
      refine ⟨hq, fun q' hq' => ?_⟩
      obtain rfl := Except.ok.inj hq'
      exact ⟨s, c, db, he⟩

end

/-! ## the call -/

theorem collectPayloads_ok {store : MqStore} {payloads : List String} {vs : List Json} :
    collectPayloads store payloads = .ok vs ↔
      List.Forall₂ (fun p v => store.parsePayload p = .ok v) payloads vs := by
  induction payloads generalizing vs with
  | nil =>
    rw [List.forall₂_nil_left_iff]
    exact ⟨fun h => (Except.ok.inj h).symm, fun h => congrArg Except.ok h.symm⟩
  | cons p rest ih =>
    rw [List.forall₂_cons_left_iff]
    unfold collectPayloads
    constructor
    · intro h
      cases hp : store.parsePayload p with
      | error e =>
        rw [hp] at h
        cases h
      | ok v =>
        rw [hp] at h
        cases hr : collectPayloads store rest with
        | error e =>
          rw [hr] at h
          cases h
        | ok ws =>
          rw [hr] at h
          exact ⟨v, ws, rfl, ih.mp hr, (Except.ok.inj h).symm⟩
    · intro h
      obtain ⟨v, ws, hp, hr, rfl⟩ := h
      rw [hp, ih.mpr hr]

/-- what the statements of a batch answered with `ids` have done, the last one first: nothing for an
empty list, else a COMMIT of one row for each payload -/
def BatchLogged (call : MqCall) (n : String) (payloads : List String) (delay : Int)
    (ids : List Int) (part : List MqEv) : Prop :=
  (payloads = [] ∧ ids = [] ∧ ∀ e ∈ part, KeepsMessages e) ∨
  ∃ e rest q vs now, payloads ≠ [] ∧ part = e :: rest ∧ e.stmt = .commit ∧
    e.pre.txs.get e.sess = some ⟨now, batchRows q delay now ids vs⟩ ∧
    List.Forall₂ (fun p v => call.store.parsePayload p = .ok v) payloads vs ∧
    ids.length = payloads.length ∧ ids.Pairwise (· < ·) ∧ (∀ f ∈ rest, KeepsMessages f) ∧
    (∃ b ∈ rest, b.stmt = .begin ∧ b.ctx.now = now) ∧
    ∃ s c db, ⟨s, call, c, .selectQueueId n, some q, db⟩ ∈ rest

theorem sendBatch_logs (call : MqCall) (n : String) (payloads : List String) (delay : Int)
    (γ : BatchView) :
    BatchSafe call (fun r γ' => ∃ new, γ'.2 = new ++ γ.2 ∧ match r with
        | .error _ => ∀ e ∈ new, KeepsMessages e
        | .ok ids => BatchLogged call n payloads delay ids new)
      (call.store.sendBatch n payloads delay) γ := by
  have herr : ∀ e : PgAppError, ∃ new, γ.2 = new ++ γ.2 ∧
      match (Except.error e : PgAppResult (List Int)) with
      | .error _ => ∀ e ∈ new, KeepsMessages e
      | .ok ids => BatchLogged call n payloads delay ids new :=
    fun e => Quietly.refl γ
  refine Safe.check_bind (fun _ _ => ?_) herr
  refine Safe.check_bind (fun _ _ => ?_) herr
  show BatchSafe call _ (if payloads.isEmpty then pure [] else _) γ
  split
  · rename_i hemp
    exact ⟨[], rfl, .inl ⟨List.isEmpty_iff.mp hemp, rfl, fun _ h => absurd h List.not_mem_nil⟩⟩
  · rename_i hemp
    refine Safe.bind (queueId_logs n γ) ?_ fun e γ' h => h.1
    intro q γ₁ h
    obtain ⟨s₁, c₁, db₁, he₁⟩ := h.2 q rfl
    have hq₁ := (Quietly.refl γ).cons he₁ rfl
    refine Safe.check_bind (fun vs hvs => ?_) fun e => hq₁
    refine ⟨trivial, fun _ γ₂ hm => ?_⟩
    obtain ⟨s₂, c₂, db₂, he₂, -, htx⟩ := hm
    have hq₂ := hq₁.cons he₂ rfl
    have hc : Collected call n q delay γ.2 [] [] γ₂ := by
      refine ⟨rfl, .nil, [_, _], c₂.now, by rw [he₂, he₁]; rfl, htx, fun d hd => ?_,
        ⟨_, List.mem_cons_self, rfl, rfl⟩, s₁, c₁, db₁, List.mem_cons_of_mem _ List.mem_cons_self⟩
      rcases List.mem_cons.mp hd with rfl | hd
      · exact keepsMessages_of_quiet rfl
      · rw [List.mem_singleton.mp hd]
        exact keepsMessages_of_quiet rfl
    have hbody : BatchSafe call (fun r γ' => Quietly γ.2 γ' ∧
        ∀ l, r = .ok l → Collected call n q delay γ.2 l vs γ')
        (do
          let ids ← insertAll q delay vs []
          notifyQueue n ids.length
          pure ids) γ₂ := by
      refine Safe.bind (insertAll_collects vs hc) ?_ fun e γ' h => ⟨h.1, fun l hl => by cases hl⟩
      intro ids γ₃ h
      have h1 := h.2 ids rfl
      rw [List.nil_append] at h1
      refine Safe.bind (notifyQueue_collects ids.length h1) ?_ ?_
      · intro _ γ₄ h2
        refine ⟨h2.quiet, fun l hl => ?_⟩
        obtain rfl := Except.ok.inj hl
        exact h2
      · exact fun e γ₄ h2 => ⟨h2.quiet, fun l hl => by cases hl⟩
    refine Safe.bracket hbody ?_ ?_
    · intro ids γ₃ h
      refine ⟨trivial, fun _ γ₄ hm => ?_⟩
      obtain ⟨s₄, c₄, db₄, he₄, htx₄, -⟩ := hm
      obtain ⟨hlen, hrise, new, now, h1, h2, h3, h4, h5⟩ := h.2 ids rfl
      have hp := collectPayloads_ok.mp hvs
      refine ⟨_ :: new, by rw [he₄, h1]; rfl, .inr ⟨_, new, q, vs, now, ?_, rfl, rfl,
        htx₄.trans h2, hp, ?_, hrise, h3, h4, h5⟩⟩
      · exact fun he => hemp (List.isEmpty_iff.mpr he)
      · rw [hlen, hp.length_eq]
    · intro e γ₃ h
      refine ⟨trivial, fun _ γ₄ hm => ?_⟩
      obtain ⟨s₄, c₄, db₄, he₄, -⟩ := hm
      exact h.1.cons he₄ rfl

/-! ## the foreign key -/

/-- a row in an open transaction is of a queue that is there -/
def PendingQueued (db : MqDb) : Prop :=
  ∀ s t, db.txs.get s = some t → ∀ m ∈ t.pending, ∃ x ∈ db.queues, x.id = m.queueId

theorem insertMessage_queue {s : Nat} {c : MqCtx} {q id : Int} {payload : Json} {delay : Int}
    {db db' : MqDb}
    (hx : (MqStmt.insertMessage q payload delay).exec s c db = some (.ok id, db')) :
    ∃ x ∈ db.queues, x.id = q := by
  obtain ⟨t, hg, -⟩ := insertMessage_cases hx
  rw [exec_insert_some hg] at hx
  rcases insertMessage_spec db s t q payload delay with ⟨-, hq, -⟩ | ⟨e, h⟩
  · exact hq
  · have he := congrArg Prod.fst (h.symm.trans (Option.some.inj hx))
    cases he

theorem PendingQueued.deleteQueue {db db' : MqDb} (F : PendingQueued db) {s : Nat} {c : MqCtx}
    {name : String} {k : Nat} (hx : (MqStmt.deleteQueue name).exec s c db = some (k, db'))
    (htx : db.txs.get s = none) : PendingQueued db' := by
  change (if _ then none else some _) = _ at hx
  split at hx
  · cases hx
  · rename_i hfree
    obtain rfl : (db.deleteQueue name).2 = db' := congrArg Prod.snd (Option.some.inj hx)
    intro t x hg m hm
    have hg' : db.txs.get t = some x := hg
    obtain ⟨y, hy, hid⟩ := F t x hg' m hm
    have hne : t ≠ s := by
      intro he
      rw [he, htx] at hg'
      cases hg'
    refine ⟨y, List.mem_filter.mpr ⟨hy, ?_⟩, hid⟩
    by_contra hname
    have hno := Slots.not_of_others (Bool.not_eq_true _ ▸ hfree) hne hg'
    refine Bool.eq_false_iff.mp hno ?_
    refine List.any_eq_true.mpr ⟨m, hm, List.any_eq_true.mpr ⟨y, hy, ?_⟩⟩
    have h1 : y.name = name := by simpa using hname
    simp [h1, hid]

/-- the transactions after a statement: each row in them was there, or is of a queue that is
there -/
theorem pending_after {db db' : MqDb} {s : Nat} {c : MqCtx} {st : MqStmt} {r : st.Res}
    (hx : st.exec s c db = some (r, db')) {t : Nat} {x : MqTx} (hg : db'.txs.get t = some x)
    {m : MessageRow} (hm : m ∈ x.pending) :
    (∃ y, db.txs.get t = some y ∧ m ∈ y.pending) ∨ ∃ y ∈ db.queues, y.id = m.queueId := by
  by_cases ht : t = s
  · subst ht
    cases hst : st.isTx with
    | false =>
      rw [exec_txs hst hx] at hg
      exact .inl ⟨x, hg, hm⟩
    | true =>
      cases st with
      | begin =>
        obtain rfl : db.begin t c.now = db' := congrArg Prod.snd (Option.some.inj hx)
        unfold MqDb.begin at hg
        rw [Slots.get_set_self] at hg
        obtain rfl := Option.some.inj hg
        cases hm
      | commit =>
        obtain rfl : db.commit t = db' := congrArg Prod.snd (Option.some.inj hx)
        unfold MqDb.commit at hg
        cases h0 : db.txs.get t with
        | none =>
          simp only [h0] at hg
          cases hg
        | some y =>
          simp only [h0, Slots.get_erase_self] at hg
          cases hg
      | rollback =>
        obtain rfl : db.rollback t = db' := congrArg Prod.snd (Option.some.inj hx)
        unfold MqDb.rollback at hg
        rw [Slots.get_erase_self] at hg
        cases hg
      | insertMessage q payload delay =>
        obtain ⟨y, hy, ⟨rfl, rfl⟩ | ⟨e, rfl, rfl⟩⟩ := insertMessage_cases hx
        · simp only [Slots.get_set_self] at hg
          obtain rfl := Option.some.inj hg
          rcases List.mem_append.mp hm with hm | hm
          · exact .inl ⟨y, hy, hm⟩
          · rw [List.mem_singleton.mp hm]
            exact .inr (insertMessage_queue hx)
        · exact .inl ⟨x, hg, hm⟩
      | _ => exact absurd hst (by simp [MqStmt.isTx])
  · rw [exec_txs_other ht hx] at hg
    exact .inl ⟨x, hg, hm⟩

theorem PendingQueued.step {db db' : MqDb} (F : PendingQueued db) {s : Nat} {c : MqCtx}
    {st : MqStmt} {r : st.Res} (hauto : st.auto = true → db.txs.get s = none)
    (hx : st.exec s c db = some (r, db')) : PendingQueued db' := by
  have hkept : (∀ y ∈ db.queues, y ∈ db'.queues) → PendingQueued db' := by
    intro hkept t x hg m hm
    have hq : ∃ y ∈ db.queues, y.id = m.queueId := by
      rcases pending_after hx hg hm with ⟨y, hy, hm⟩ | h
      · exact F t y hy m hm
      · exact h
    obtain ⟨y, hy, hid⟩ := hq
    exact ⟨y, hkept y hy, hid⟩
  rcases (exec_queueMoves hx).rows with h | ⟨name, rfl, -⟩ | ⟨x, h, -⟩
  · exact hkept fun y hy => h ▸ hy
  · exact F.deleteQueue hx (hauto rfl)
  · refine hkept fun y hy => ?_
    rw [h]
    exact List.mem_append_left _ hy

theorem PendingQueued.of_reach {σ : MqSys} (hr : MqReach σ) : PendingQueued σ.db := by
  refine hr.invariant_of (fun e _ => e.stmt.auto = true → e.pre.txs.get e.sess = none)
    (fun db _ => PendingQueued db) (fun _ _ h => by cases h) ?_ (auto_no_tx hr)
  intro db h s op c st r db' F hauto hx
  exact F.step hauto hx

/-! ## the queue of a batch -/

theorem Incarnations.of_reach {σ : MqSys} (hr : MqReach σ) : Incarnations σ.db σ.hist :=
  (hr.rely queueView_rules (fun _ _ _ h => h) fun call γ hγ => queueSafe_body call γ hγ).holds.2

/-- when a transaction commits, the queue its call has looked up is there, under its name -/
theorem queue_at_commit {σ : MqSys} (hr : MqReach σ) {h₁ h₂ : List MqEv} {e : MqEv}
    (hh : σ.hist = h₁ ++ e :: h₂) {t : MqTx} (ht : e.pre.txs.get e.sess = some t) {m : MessageRow}
    (hm : m ∈ t.pending) {s : Nat} {call : MqCall} {c : MqCtx} {n : String} {db : MqDb}
    (hl : ⟨s, call, c, .selectQueueId n, some m.queueId, db⟩ ∈ h₂) :
    ∃ x ∈ e.pre.queues, x.name = n ∧ x.id = m.queueId := by
  have hal := hr.always_of (fun e h => (PendingQueued e.pre ∧ QueuesApart e.pre ∧
      Incarnations e.pre h) ∧ ∃ db', e.stmt.exec e.sess e.ctx e.pre = some (e.res, db'))
    fun τ s op c st k r d' hτ _ hx =>
      ⟨⟨PendingQueued.of_reach hτ, QueuesApart.of_reach hτ, Incarnations.of_reach hτ⟩, d', hx⟩
  rw [hh] at hal
  obtain ⟨⟨F, -, I⟩, -⟩ := hal.head
  obtain ⟨x, hx, hid⟩ := F _ t ht m hm
  obtain ⟨h₃, ⟨-, Q, -⟩, db', hlook⟩ := (Always.of_suffix (h₁ ++ [e]) h₂
    (by simpa using hal)).of_mem hl
  have hsel : db.selectQueueId n = some m.queueId := congrArg Prod.fst (Option.some.inj hlook)
  obtain ⟨y, hy, hname, hyid⟩ := MqProg.queue_of_selectQueueId hsel
  have hdrawn := (I.found _ _ _ _ _ _ hl).1
  have hold : x ∈ db.queues := by
    rcases I.later _ hl x hx with h | h
    · exact h
    · have h1 : db.nextQueueId ≤ x.id := h
      omega
  obtain rfl : x = y := Q.eq_of_id hy hold (hid.trans hyid.symm)
  exact ⟨x, hx, hname, hid⟩

/-! ## every batch -/

/-- the statements of a batch that was answered with `ids`: nothing for an empty list, else one
COMMIT that adds one row for each payload to a queue of that name, and no other statement that adds
any -/
def BatchSent (call : MqCall) (n : String) (payloads : List String) (delay : Int)
    (ids : List Int) (part : List MqEv) : Prop :=
  (payloads = [] ∧ ids = [] ∧ ∀ e ∈ part, KeepsMessages e) ∨
  ∃ e rest q vs now, part = e :: rest ∧ e.stmt = .commit ∧
    List.Forall₂ (fun p v => call.store.parsePayload p = .ok v) payloads vs ∧
    ids.length = payloads.length ∧ ids.Pairwise (· < ·) ∧
    (∃ x ∈ e.pre.queues, x.name = n ∧ x.id = q) ∧
    (∀ r db', e.stmt.exec e.sess e.ctx e.pre = some (r, db') →
      db'.messages = e.pre.messages ++ batchRows q delay now ids vs) ∧
    (∃ b ∈ rest, b.stmt = .begin ∧ b.ctx.now = now) ∧ ∀ f ∈ rest, KeepsMessages f

/-- what is claimed of a finished call and its statements -/
def BatchAnswer (call : MqCall) (r : PgAppResult MqReturn) (part : List MqEv) : Prop :=
  ∀ n payloads delay, call.op = .sendBatch n payloads delay →
    match r with
    | .error _ => ∀ e ∈ part, KeepsMessages e
    | .ok (.ids ids) => BatchSent call n payloads delay ids part
    | .ok _ => False

/-- the same as far as the session itself can tell -/
def BatchLog (call : MqCall) (r : PgAppResult MqReturn) (part : List MqEv) : Prop :=
  ∀ n payloads delay, call.op = .sendBatch n payloads delay →
    match r with
    | .error _ => ∀ e ∈ part, KeepsMessages e
    | .ok (.ids ids) => BatchLogged call n payloads delay ids part
    | .ok _ => False

theorem batch_extends {α : Type} (call : MqCall) (p : MqProg α) (γ : BatchView) :
    BatchSafe call (fun _ γ' => ∃ new, γ'.2 = new ++ γ.2) p γ := by
  suffices h : ∀ γ' : BatchView, (∃ new, γ'.2 = new ++ γ.2) →
      BatchSafe call (fun _ γ' => ∃ new, γ'.2 = new ++ γ.2) p γ' from h γ ⟨[], rfl⟩
  induction p with
  | ret r => exact fun γ' h => h
  | exec st k ih =>
    intro γ' h
    obtain ⟨new, h⟩ := h
    refine ⟨trivial, fun r γ'' hm => ih r γ'' ?_⟩
    obtain ⟨s, c, db, he, -⟩ := hm
    exact ⟨_ :: new, by rw [he, h]; rfl⟩

theorem body_logs (call : MqCall) (γ : BatchView) :
    BatchSafe call (fun r γ' => ∃ new, γ'.2 = new ++ γ.2 ∧ BatchLog call r new) call.body γ := by
  obtain ⟨store, op⟩ := call
  cases op with
  | sendBatch n payloads delay =>
    refine Safe.bind (sendBatch_logs ⟨store, .sendBatch n payloads delay⟩ n payloads delay γ) ?_ ?_
    · intro ids γ' h
      obtain ⟨new, h1, h2⟩ := h
      refine ⟨new, h1, fun n' payloads' delay' he => ?_⟩
      cases he
      exact h2
    · intro e γ' h
      obtain ⟨new, h1, h2⟩ := h
      exact ⟨new, h1, fun n' payloads' delay' he => h2⟩
  | _ =>
    refine (batch_extends _ _ γ).mono fun r γ' h => ?_
    obtain ⟨new, h⟩ := h
    exact ⟨new, h, fun n payloads delay he => by cases he⟩

/-- what the session logged, where it stands -/
theorem batchSent_of_logged {σ : MqSys} (hr : MqReach σ) {s : Nat} {call : MqCall} {n : String}
    {payloads : List String} {delay : Int} {ids : List Int} {part a b : List MqEv}
    (hpart : ownEvents s σ.hist = a ++ part ++ b)
    (h : BatchLogged call n payloads delay ids part) :
        BatchSent call n payloads delay ids part := by
  rcases h with h | ⟨e, rest, q, vs, now, hne, rfl, hst, htx, hp, hlen, hrise, hrest, hbegin, hlook⟩
  · exact .inl h
  obtain ⟨s', c', db', hlook⟩ := hlook
  have hown : ownEvents s σ.hist = a ++ e :: (rest ++ b) := by
    rw [hpart]
    simp
  obtain ⟨h₁, h₂, hh, -, hh₂, -⟩ := ownEvents_split hown
  have hmem : ∀ d ∈ rest, d ∈ h₂ := by
    intro d hd
    have h1 : d ∈ ownEvents s h₂ := hh₂ ▸ List.mem_append_left b hd
    exact List.mem_of_mem_filter h1
  obtain ⟨m, hm, hq⟩ : ∃ m ∈ batchRows q delay now ids vs, m.queueId = q := by
    cases ids with
    | nil => exact absurd (List.length_eq_zero_iff.mp hlen.symm) hne
    | cons id ids =>
      cases hp with
      | nil => cases hlen
      | cons _ _ => exact ⟨_, List.mem_cons_self, rfl⟩
  refine .inr ⟨e, rest, q, vs, now, rfl, hst, hp, hlen, hrise, ?_, fun r db' hx => ?_,
    hbegin, hrest⟩
  · rw [← hq] at hlook ⊢
    exact queue_at_commit hr hh htx hm (hmem _ hlook)
  · obtain ⟨s₁, call₁, c₁, st₁, k₁, db₁⟩ := e
    obtain rfl : st₁ = .commit := hst
    obtain rfl : db₁.commit s₁ = db' := congrArg Prod.snd (Option.some.inj hx)
    have htx' : db₁.txs.get s₁ = some ⟨now, batchRows q delay now ids vs⟩ := htx
    unfold MqDb.commit
    rw [htx']

/-- **Every finished `send_batch`, among whatever others do**, with the statements it has
executed. -/
theorem sendBatch_calls {σ : MqSys} (hr : MqReach σ) (s : Nat) :
    ∃ run parts, ownEvents s σ.hist = run ++ parts.flatten ∧
      List.Forall₂ (fun x part => BatchAnswer x.2.1 x.2.2 part)
          (σ.done.filter (·.1 == s)) parts := by
  obtain ⟨run, parts, h1, h2, -⟩ := hr.logged batchView_rules (fun γ => γ.2)
    (fun op st r γ γ' hm => by
      obtain ⟨t, c, db, he, -⟩ := hm
      exact ⟨[_], he⟩) BatchLog
    (fun op γ _ => (body_logs op γ).mono fun r γ' h => ⟨trivial, h⟩) s rfl
  refine ⟨run, parts, h1, forall₂_parts ?_ h2 run h1⟩
  intro x part a b hx hw n payloads delay hop
  have h3 := hx n payloads delay hop
  split at h3
  · exact h3
  · exact batchSent_of_logged hr hw h3
  · exact h3

end PgApp
