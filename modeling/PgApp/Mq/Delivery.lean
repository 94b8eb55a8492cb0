import PgApp.Mq.Rows

/-!
# The last delivery of a message

`lastDelivery h id` is read off the statements executed so far: the token and the deadline of the
latest claim of the message since it was sent or reprocessed, the deadline as moved by the
successful `set_visibility_timeout` calls since.

`Stamped` ties the tables to it: an active row carries exactly the token and the deadline of its
last delivery, and a row still in an open transaction carries none.
-/

namespace PgApp
open Interleave

/-- token and deadline of the last delivery of `id` since its send or its last reprocess -/
def lastDelivery : List MqEv → Int → Option (String × Time)
  | [], _ => none
  | e :: h, id =>
    match touchOf e id with
    | .sent => none
    | .requeued => none
    | .delivered token deadline => some (token, deadline)
    | .extended deadline => (lastDelivery h id).map fun p => (p.1, deadline)
    | _ => lastDelivery h id

/-- how often `id` was delivered since its send or its last reprocess -/
def deliveries : List MqEv → Int → Nat
  | [], _ => 0
  | e :: h, id =>
    match touchOf e id with
    | .sent => 0
    | .requeued => 0
    | .delivered _ _ => deliveries h id + 1
    | _ => deliveries h id

structure Stamped (db : MqDb) (h : List MqEv) : Prop where
  token : ∀ m ∈ db.messages, m.ackToken = (lastDelivery h m.id).map (·.1)
  deadline : ∀ m ∈ db.messages, m.visibilityTimeoutAt = (lastDelivery h m.id).map (·.2)
  count : ∀ m ∈ db.messages, m.readCount = deliveries h m.id
  fresh : ∀ t x, db.txs.get t = some x → ∀ m ∈ x.pending,
    m.visibilityTimeoutAt = none ∧ m.ackToken = none ∧ m.readCount = 0

namespace Stamped

theorem empty : Stamped MqDb.empty [] :=
  ⟨fun _ h => absurd h List.not_mem_nil, fun _ h => absurd h List.not_mem_nil,
    fun _ h => absurd h List.not_mem_nil, fun t x h => by cases h⟩

section
variable {db : MqDb} {h : List MqEv}

theorem row (S : Stamped db h) {e : MqEv} (he : e.pre = db) {m : MessageRow} (hm : RowChange e m) :
    m.ackToken = (lastDelivery (e :: h) m.id).map (·.1) ∧
      m.visibilityTimeoutAt = (lastDelivery (e :: h) m.id).map (·.2) ∧
      m.readCount = deliveries (e :: h) m.id := by
  subst he
  unfold lastDelivery deliveries
  cases hm with
  | kept m hm ht =>
    rw [ht]
    exact ⟨S.token m hm, S.deadline m hm, S.count m hm⟩
  | sent m t hg hm ht =>
    obtain ⟨h1, h2, h3⟩ := S.fresh _ t hg m hm
    rw [ht]
    exact ⟨h2, h1, h3⟩
  | delivered m q n timeout token hm hst hv ht =>
    have h1 : (m.claim (eventNow e) timeout token).id = m.id := rfl
    have h2 : (m.claim (eventNow e) timeout token).readCount = m.readCount + 1 := rfl
    rw [h1, h2, ht, S.count m hm]
    exact ⟨rfl, rfl, (Int.natCast_succ _).symm⟩
  | extended m deadline hm hv ht =>
    have h1 := S.token m hm
    have h2 := S.deadline m hm
    have h3 := S.count m hm
    simp only [ht]
    refine ⟨?_, ?_, h3⟩
    · rw [h1, Option.map_map]
      rfl
    · cases hl : lastDelivery h m.id with
      | some p => rfl
      | none =>
        rw [hl] at h2
        unfold MessageRow.inFlight at hv
        rw [h2] at hv
        exact absurd hv Bool.false_ne_true
  | requeued d hd ht =>
    have h1 : (d.reprocessed (eventNow e)).id = d.originalMessageId := rfl
    rw [h1, ht]
    exact ⟨rfl, rfl, rfl⟩

theorem pending (S : Stamped db h) {e : MqEv} (he : e.pre = db) {t : Nat} {m : MessageRow}
    (hm : PendingChange e t m) :
    m.visibilityTimeoutAt = none ∧ m.ackToken = none ∧ m.readCount = 0 := by
  subst he
  cases hm with
  | kept x hg hm ht => exact S.fresh t x hg m hm
  | inserted ht hn => exact hn

theorem step (S : Stamped db h) (L : MqLedger db h) {s : Nat} {op : MqCall} {c : MqCtx}
    {st : MqStmt} {r : st.Res} {db' : MqDb} (hx : st.exec s c db = some (r, db')) :
    Stamped db' (⟨s, op, c, st, r, db⟩ :: h) := by
  have hrow : ∀ m ∈ db'.messages, _ := fun m hm =>
    S.row (e := ⟨s, op, c, st, r, db⟩) rfl (rowChange L hx m hm)
  refine ⟨fun m hm => (hrow m hm).1, fun m hm => (hrow m hm).2.1, fun m hm => (hrow m hm).2.2, ?_⟩
  intro t x hg m hm
  exact S.pending (e := ⟨s, op, c, st, r, db⟩) rfl (pendingChange L hx t x hg m hm)

end

/-- **In every reachable state a row carries its last delivery.** -/
theorem of_reach {σ : MqSys} (hr : MqReach σ) : Stamped σ.db σ.hist := by
  have h := hr.invariant (fun db h => MqLedger db h ∧ Stamped db h) ⟨MqLedger.empty, empty⟩
    fun _ _ _ _ _ _ _ _ ⟨L, S⟩ hx => ⟨L.step hx, S.step L hx⟩
  exact h.2

end Stamped

end PgApp
