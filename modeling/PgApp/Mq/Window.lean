import PgApp.Mq.Reads
import PgApp.Mq.Autocommit
import PgApp.Mq.Acks

/-!
# The exclusive delivery window

`promise h id` is what the run so far has promised about a message: it is not handed out again
before `deadline` (set by a claim, moved by `set_visibility_timeout`), and not at all before
`available` (set by the delay of its send).  Both promises are given up only when the message was
moved to the dead letter queue by hand (`moved`) and then reprocessed.

`Promised` is the invariant: the row of an active message still carries its promises, or their time
has passed; a row in the dead letter queue was moved by hand, or their time has passed.  The clock
must not go back (`ClockRuns`).

Main result: `mq_exclusive_delivery`.
-/

namespace PgApp
open Interleave

structure Promise where
  deadline : Option Time
  available : Option Time
  moved : Bool

def promise : List MqEv → Int → Promise
  | [], _ => ⟨none, none, false⟩
  | e :: h, id =>
    match touchOf e id with
    | .inserted a => ⟨none, some a, false⟩
    | .delivered _ deadline => { promise h id with deadline := some deadline }
    | .extended deadline => { promise h id with deadline := some deadline }
    | .deadLettered => { promise h id with moved := true }
    | .requeued => if (promise h id).moved then ⟨none, none, false⟩ else promise h id
    | _ => promise h id

/-- no earlier statement read a later clock -/
def ClockRuns (e : MqEv) (h : List MqEv) : Prop := ∀ e' ∈ h, e'.ctx.now ≤ e.ctx.now

instance (e : MqEv) (h : List MqEv) : Decidable (ClockRuns e h) :=
  inferInstanceAs (Decidable (∀ e' ∈ h, e'.ctx.now ≤ e.ctx.now))

/-- some statement read a clock of at least `t` -/
def Passed (h : List MqEv) (t : Time) : Prop := ∃ e ∈ h, t ≤ e.ctx.now

theorem Passed.cons {h : List MqEv} {t : Time} (e : MqEv) (hp : Passed h t) :
    Passed (e :: h) t := by
  obtain ⟨e', he', ht⟩ := hp
  exact ⟨e', List.mem_cons_of_mem _ he', ht⟩

/-! ## the invariant -/

/-- the row keeps what was promised -/
structure Keeps (h : List MqEv) (p : Promise) (m : MessageRow) : Prop where
  here : p.moved = false
  deadline : ∀ t, p.deadline = some t → m.visibilityTimeoutAt = some t ∨ Passed h t
  available : ∀ t, p.available = some t → m.availableAt = t ∨ Passed h t

/-- nothing is promised any more -/
structure Promise.Lapsed (p : Promise) (h : List MqEv) : Prop where
  deadline : ∀ t, p.deadline = some t → Passed h t
  available : ∀ t, p.available = some t → Passed h t

structure Promised (db : MqDb) (h : List MqEv) : Prop where
  rows : ∀ m ∈ db.messages, Keeps h (promise h m.id) m
  dlq : ∀ d ∈ db.dlq, (promise h d.originalMessageId).moved = true ∨
    (promise h d.originalMessageId).Lapsed h
  pending : ∀ s x, db.txs.get s = some x → ∀ m ∈ x.pending,
    promise h m.id = ⟨none, some m.availableAt, false⟩

section
variable {h : List MqEv} {e : MqEv} {p : Promise} {m : MessageRow}

theorem Keeps.cons (K : Keeps h p m) : Keeps (e :: h) p m :=
  ⟨K.here, fun t ht => (K.deadline t ht).imp_right (Passed.cons e),
    fun t ht => (K.available t ht).imp_right (Passed.cons e)⟩

theorem Promise.Lapsed.cons (l : p.Lapsed h) : p.Lapsed (e :: h) :=
  ⟨fun t ht => (l.deadline t ht).cons e, fun t ht => (l.available t ht).cons e⟩

theorem Keeps.lapsed (K : Keeps h p m) (hv : m.visible e.ctx.now = true) : p.Lapsed (e :: h) := by
  unfold MessageRow.visible at hv
  rw [Bool.and_eq_true, decide_eq_true_eq] at hv
  refine ⟨fun t ht => ?_, fun t ht => ?_⟩
  · rcases K.deadline t ht with h1 | h1
    · rw [h1] at hv
      exact ⟨e, List.mem_cons_self, of_decide_eq_true hv.2⟩
    · exact h1.cons e
  · rcases K.available t ht with h1 | h1
    · exact ⟨e, List.mem_cons_self, h1 ▸ hv.1⟩
    · exact h1.cons e

/-- outside a transaction `now()` of the statement is its clock reading -/
theorem eventNow_of_auto (hauto : e.stmt.auto = true → e.pre.txs.get e.sess = none)
    (hst : e.stmt.auto = true) : eventNow e = e.ctx.now :=
  now_eq_clock (hauto hst) _

theorem Promised.row (P : Promised e.pre h)
    (hauto : e.stmt.auto = true → e.pre.txs.get e.sess = none) (hm : RowChange e m) :
    Keeps (e :: h) (promise (e :: h) m.id) m := by
  cases hm with
  | kept m hm ht =>
    rw [promise, ht]
    exact (P.rows m hm).cons
  | sent m t hg hm ht =>
    rw [promise, ht]
    show Keeps (e :: h) (promise h m.id) m
    rw [P.pending _ t hg m hm]
    exact ⟨rfl, fun t ht => (by cases ht), fun t ht => .inl (Option.some.inj ht)⟩
  | delivered m q n timeout token hm hst hv ht =>
    have K := P.rows m hm
    rw [eventNow_of_auto hauto (by rw [hst]; rfl)] at hv ht ⊢
    have hid : (m.claim e.ctx.now timeout token).id = m.id := rfl
    rw [hid, promise, ht]
    exact ⟨K.here, fun t ht => .inl ht, fun t ht => .inr ((K.lapsed hv).available t ht)⟩
  | extended m deadline hm hv ht =>
    have K := (P.rows m hm).cons (e := e)
    show Keeps (e :: h) (promise (e :: h) m.id) _
    rw [promise, ht]
    exact ⟨K.here, fun t ht => .inl ht, K.available⟩
  | requeued d hd ht =>
    have hid : (d.reprocessed (eventNow e)).id = d.originalMessageId := rfl
    rw [hid, promise, ht]
    rcases hmv : (promise h d.originalMessageId).moved with _ | _
    · have l : (promise h d.originalMessageId).Lapsed (e :: h) := by
        rcases P.dlq d hd with h1 | h1
        · rw [hmv] at h1
          cases h1
        · exact h1.cons
      exact ⟨hmv, fun t ht => .inr (l.deadline t ht), fun t ht => .inr (l.available t ht)⟩
    · exact ⟨rfl, fun t ht => (by cases ht), fun t ht => (by cases ht)⟩

theorem Promised.dlqRow (P : Promised e.pre h)
    (hauto : e.stmt.auto = true → e.pre.txs.get e.sess = none) {d : DlqRow} (hd : DlqChange e d) :
    (promise (e :: h) d.originalMessageId).moved = true ∨
      (promise (e :: h) d.originalMessageId).Lapsed (e :: h) := by
  cases hd with
  | kept hd ht =>
    rw [promise, ht]
    exact (P.dlq d hd).imp_right Promise.Lapsed.cons
  | moved m hm hid ht =>
    rw [hid, promise, ht]
    exact .inl rfl
  | due m q hm hid hst hv ht =>
    rw [hid, promise, ht]
    rw [eventNow_of_auto hauto (by rw [hst]; rfl)] at hv
    exact .inr ((P.rows m hm).lapsed hv)

theorem Promised.pendingRow (P : Promised e.pre h) {s : Nat} (hm : PendingChange e s m) :
    promise (e :: h) m.id = ⟨none, some m.availableAt, false⟩ := by
  cases hm with
  | kept x hg hm ht =>
    rw [promise, ht]
    exact P.pending s x hg m hm
  | inserted ht hn => rw [promise, ht]

end

theorem Promised.of_reach {σ : MqSys} (hr : MqReach σ) : Promised σ.db σ.hist := by
  have hinv := hr.invariant_of (fun e _ => e.stmt.auto = true → e.pre.txs.get e.sess = none)
    (fun db h => MqLedger db h ∧ Promised db h)
    ⟨MqLedger.empty, fun _ h => absurd h List.not_mem_nil, fun _ h => absurd h List.not_mem_nil,
      fun s x h => by cases h⟩ ?_ (auto_no_tx hr)
  · exact hinv.2
  · intro db h s op c st r db' ⟨L, P⟩ hauto hx
    refine ⟨L.step hx, ?_, ?_, ?_⟩
    · exact fun m hm => Promised.row (e := ⟨s, op, c, st, r, db⟩) P hauto (rowChange L hx m hm)
    · exact fun d hd => Promised.dlqRow (e := ⟨s, op, c, st, r, db⟩) P hauto (dlqChange L hx d hd)
    · exact fun t x hg m hm =>
        Promised.pendingRow (e := ⟨s, op, c, st, r, db⟩) P (pendingChange L hx t x hg m hm)

/-! ## no delivery before its time -/

theorem claim_promised {e : MqEv} {h : List MqEv} {m : MessageRow} (K : Keeps h (promise h m.id) m)
    (hc : ClockRuns e h) (hv : m.visible e.ctx.now = true) :
    (∀ t, (promise h m.id).deadline = some t → t ≤ e.ctx.now) ∧
      (∀ t, (promise h m.id).available = some t → t ≤ e.ctx.now) := by
  have l := K.lapsed (e := e) hv
  have hle : ∀ t, Passed (e :: h) t → t ≤ e.ctx.now := by
    intro t hex
    obtain ⟨e', he', ht⟩ := hex
    rcases List.mem_cons.mp he' with rfl | he'
    · exact ht
    · exact le_trans ht (hc e' he')
  exact ⟨fun t ht => hle t (l.deadline t ht), fun t ht => hle t (l.available t ht)⟩

/-- a promise stands while nobody touches the message, but for a reprocess after an automatic
dead-letter move -/
theorem promise_stands {h₁ h₂ : List MqEv} {id : Int}
    (hq : ∀ x ∈ h₁, touchOf x id = .none ∨ touchOf x id = .requeued)
    (hm : (promise h₂ id).moved = false) : promise (h₁ ++ h₂) id = promise h₂ id := by
  induction h₁ with
  | nil => rfl
  | cons x h₁ ih =>
    have hrest := ih fun y hy => hq y (List.mem_cons_of_mem _ hy)
    rw [List.cons_append, promise]
    rcases hq x List.mem_cons_self with hx | hx
    · rw [hx]
      exact hrest
    · rw [hx]
      show (if (promise (h₁ ++ h₂) id).moved = true then _ else _) = _
      rw [hrest, hm]
      rfl

/-- **Nobody is handed a message before its time.**  A claim finds every promise about the message
run out; so do the messages that finished reads have handed back; and of two deliveries in a row
the second comes when the timeout of the first is over. -/
theorem mq_exclusive_delivery (σ : MqSys) (hr : MqReach σ) (hclock : Always ClockRuns σ.hist) :
    (∀ h₁ h₂ s op c q n t ms db, σ.hist = h₁ ++ ⟨s, op, c, .claim q n t, .ok ms, db⟩ :: h₂ →
      ∀ m ∈ ms, (promise h₂ m.id).moved = false ∧
        (∀ dl, (promise h₂ m.id).deadline = some dl → dl ≤ c.now) ∧
        (∀ a, (promise h₂ m.id).available = some a → a ≤ c.now)) ∧
    (∀ s call r, (s, call, r) ∈ σ.done → ∀ m ∈ returnedMessages r,
      ∃ h₁ h₂ s' c q n t ms db,
        σ.hist = h₁ ++ ⟨s', call, c, .claim q n t, .ok ms, db⟩ :: h₂ ∧ m ∈ ms ∧
        (∀ dl, (promise h₂ m.id).deadline = some dl → dl ≤ c.now) ∧
        (∀ a, (promise h₂ m.id).available = some a → a ≤ c.now)) ∧
    (∀ h₁ h₂ h₃ s op c q n t ms db s' op' c' q' n' t' ms' db',
      σ.hist = h₁ ++ ⟨s, op, c, .claim q n t, .ok ms, db⟩ ::
        (h₂ ++ ⟨s', op', c', .claim q' n' t', .ok ms', db'⟩ :: h₃) →
      ∀ m ∈ ms, ∀ m' ∈ ms', m.id = m'.id →
        (∀ x ∈ h₂, touchOf x m.id = .none ∨ touchOf x m.id = .requeued) →
        c'.now + seconds t' ≤ c.now) := by
  have hall := hr.always_of (fun e h => MqLedger e.pre h ∧ Promised e.pre h ∧
      ∃ db', e.stmt.exec e.sess e.ctx e.pre = some (e.res, db'))
    fun τ s op c st k r d' hτ _ hx => ⟨MqLedger.of_reach hτ, Promised.of_reach hτ, d', hx⟩
  have hclaim : ∀ h₁ h₂ s op c q n t ms db,
      σ.hist = h₁ ++ ⟨s, op, c, .claim q n t, .ok ms, db⟩ :: h₂ →
      ∀ m ∈ ms, (promise h₂ m.id).moved = false ∧
        (∀ dl, (promise h₂ m.id).deadline = some dl → dl ≤ c.now) ∧
        (∀ a, (promise h₂ m.id).available = some a → a ≤ c.now) := by
    intro h₁ h₂ s op c q n t ms db he m hm
    have hall' := hall
    have hauto := auto_no_tx hr
    have hclock' := hclock
    rw [he] at hall' hauto hclock'
    obtain ⟨L, P, db', hx⟩ := hall'.head
    obtain ⟨row, hrow, -, hv, -, hid, -, -⟩ := claim_row L hx hm
    have hnow : db.now s c.now = c.now := now_eq_clock (hauto.head rfl) _
    rw [hnow] at hv
    rw [hid]
    exact ⟨(P.rows row hrow).here, claim_promised (P.rows row hrow) hclock'.head hv⟩
  refine ⟨hclaim, ?_, ?_⟩
  · intro s call r hd m hm
    obtain ⟨h₁, h₂, s', c, q, n, t, ms, db, he, hms⟩ := read_answer hr hd hm
    exact ⟨h₁, h₂, s', c, q, n, t, ms, db, he, hms, (hclaim _ _ _ _ _ _ _ _ _ _ he m hms).2⟩
  · intro h₁ h₂ h₃ s op c q n t ms db s' op' c' q' n' t' ms' db' he m hm m' hm' hid hquiet
    have he' : σ.hist = (h₁ ++ ⟨s, op, c, .claim q n t, .ok ms, db⟩ :: h₂) ++
        ⟨s', op', c', .claim q' n' t', .ok ms', db'⟩ :: h₃ := by
      rw [he, List.append_assoc]
      rfl
    have hfst := hclaim _ _ _ _ _ _ _ _ _ _ he' m' hm'
    refine (hclaim _ _ _ _ _ _ _ _ _ _ he m hm).2.1 _ ?_
    have hauto := auto_no_tx hr
    rw [he'] at hauto
    have hnow : db'.now s' c'.now = c'.now := now_eq_clock (hauto.head rfl) _
    have hp : promise (⟨s', op', c', .claim q' n' t', .ok ms', db'⟩ :: h₃) m'.id
        = { promise h₃ m'.id with deadline := some (c'.now + seconds t') } := by
      obtain ⟨x, hx⟩ : ∃ x, ms'.find? (·.id == m'.id) = some x :=
        Option.isSome_iff_exists.mp (List.find?_isSome.mpr ⟨m', hm', by simp⟩)
      rw [promise, touchOf_claim, hx, hnow]
    rw [hid] at hquiet ⊢
    rw [promise_stands hquiet (by rw [hp]; exact hfst.1), hp]

/-- one message sent, and delivered a second time after its timeout -/
def secondAfterTimeout : List (Act MqCall MqCtx) :=
  oneDelivery ++ [.call 2 ⟨textStore, .read "orders" 1 30⟩, .stmt 2 (plainCtx 40000000),
    .stmt 2 (plainCtx 40000001), .stmt 2 (plainCtx 40000002), .ret 2]

theorem mq_exclusive_delivery_secondAfterTimeout :
    ∃ σ : MqSys, (Sys.init MqDb.empty).play MqStmt.exec MqCall.body secondAfterTimeout = some σ ∧
      Always ClockRuns σ.hist ∧
      ∃ r, (2, ⟨textStore, .read "orders" 1 30⟩, r) ∈ σ.done ∧ ∀ m ∈ returnedMessages r,
        ∃ h₁ h₂ s' c q n t ms db,
          σ.hist = h₁ ++ ⟨s', ⟨textStore, .read "orders" 1 30⟩, c, .claim q n t, .ok ms, db⟩ :: h₂ ∧
          m ∈ ms ∧ (∀ dl, (promise h₂ m.id).deadline = some dl → dl ≤ c.now) ∧
          (∀ a, (promise h₂ m.id).available = some a → a ≤ c.now) := by
  have h : ((Sys.init MqDb.empty : MqSys).play MqStmt.exec MqCall.body secondAfterTimeout).map
      (fun σ => (decide (Always ClockRuns σ.hist), σ.done.head?)) = some (true,
        some (2, ⟨textStore, .read "orders" 1 30⟩,
          .ok (.messages [⟨1, 2, 2, some 70000002, "token-1-40000002", .str "x"⟩]))) := by rfl
  obtain ⟨σ, hσ, he⟩ := Option.map_eq_some_iff.mp h
  obtain ⟨h1, h2⟩ := Prod.mk.inj he
  have hclock : Always ClockRuns σ.hist := of_decide_eq_true h1
  refine ⟨σ, hσ, hclock, _, List.mem_of_head? h2, ?_⟩
  exact (mq_exclusive_delivery σ (Sys.play_steps hσ) hclock).2.1 2 _ _ (List.mem_of_head? h2)

end PgApp
