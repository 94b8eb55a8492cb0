import PgApp.Mq.Window

/-!
# A settled message is never handed out again

A message that a successful `ack` or `archive` has taken out of its queue is in neither
`mq_messages` nor `mq_dlq`, and nothing brings an id back there: a row of these tables comes from a
row of them or from a transaction, and a transaction has new ids only (`Gone.step`).

`Contract` is what a consumer may rely on at every statement: the promises of `Promised`, the tokens
of `Stamped` and `SpentOnce`, and that what is settled stays so.
-/

namespace PgApp
open Interleave

/-- an `ack` or `archive` of the message that succeeded -/
def settles (id : Int) : (st : MqStmt) → st.Res → Prop
  | .ack _ i _, n => i = id ∧ 0 < (n : Nat)
  | .archive _ i _, n => i = id ∧ 0 < (n : Nat)
  | _, _ => False

/-- the message was sent, and is in neither table it could be handed out from -/
structure Gone (db : MqDb) (h : List MqEv) (id : Int) : Prop where
  sent : id ∈ sentIds h
  active : id ∉ db.messageIds
  dead : id ∉ db.dlqIds

section
variable {db db' : MqDb} {h : List MqEv} {id : Int} {s : Nat} {op : MqCall} {c : MqCtx}
variable {st : MqStmt} {r : st.Res}

theorem MqLedger.sent_of_places (L : MqLedger db h) (hid : id ∈ db.places) : id ∈ sentIds h := by
  have h1 := L.flow id
  have h2 : 0 < db.places.count id := List.count_pos_iff.mpr hid
  exact List.count_pos_iff.mp (by omega)

theorem Gone.step (G : Gone db h id) (L : MqLedger db h) (hx : st.exec s c db = some (r, db')) :
    Gone db' (⟨s, op, c, st, r, db⟩ :: h) id := by
  have hactive : ∀ m ∈ db.messages, m.id ≠ id :=
    fun m hm he => G.active (he ▸ List.mem_map_of_mem hm)
  have hdead : ∀ d ∈ db.dlq, d.originalMessageId ≠ id :=
    fun d hd he => G.dead (he ▸ List.mem_map_of_mem hd)
  refine ⟨List.mem_append_right _ G.sent, fun hin => ?_, fun hin => ?_⟩
  · obtain ⟨m, hm, hid⟩ := List.mem_map.mp hin
    have hchange : RowChange ⟨s, op, c, st, r, db⟩ m := rowChange L hx m hm
    cases hchange with
    | kept _ hm' _ => exact hactive m hm' hid
    | sent _ t hg hm' _ =>
      have h1 := L.once id
      have h2 : 0 < (sentIds h).count id := List.count_pos_iff.mpr G.sent
      have h3 : 0 < db.pendingCount id := hid ▸ MqLedger.pendingCount_pos hg hm'
      omega
    | delivered m' q n timeout token hm' _ _ _ => exact hactive m' hm' hid
    | extended m' deadline hm' _ _ => exact hactive m' hm' hid
    | requeued d hd _ => exact hdead d hd hid
  · obtain ⟨d, hd, hid⟩ := List.mem_map.mp hin
    have hchange : DlqChange ⟨s, op, c, st, r, db⟩ d := dlqChange L hx d hd
    cases hchange with
    | kept hd' _ => exact hdead d hd' hid
    | moved m hm hsame _ => exact hactive m hm (hsame ▸ hid)
    | due m q hm hsame _ _ _ => exact hactive m hm (hsame ▸ hid)

/-- a message that is taken out of its queue by token -/
theorem gone_of_deleted (L : MqLedger db h) {q : Int} {token : String} {now : Time} {e : MqEv}
    (hpos : 0 < (db.messages.filter fun m => m.heldBy q id token now).length)
    (hm : db'.messages = db.messages.filter fun m => !m.heldBy q id token now)
    (hd : db'.dlq = db.dlq) : Gone db' (e :: h) id := by
  obtain ⟨m, hmem, hh⟩ := filter_pos_iff.mp hpos
  obtain rfl : m.id = id := (heldBy_eq_true.mp hh).2.1
  refine ⟨List.mem_append_right _ (L.sent_of_places ?_), fun hin => ?_, fun hin => ?_⟩
  · exact List.mem_append_left _ (List.mem_append_left _ (List.mem_map_of_mem hmem))
  · obtain ⟨m', hm', hid⟩ := List.mem_map.mp hin
    rw [hm] at hm'
    obtain ⟨hm', hnot⟩ := List.mem_filter.mp hm'
    obtain rfl := L.eq_of_id hm' hmem hid
    rw [hh] at hnot
    cases hnot
  · unfold MqDb.dlqIds at hin
    rw [hd] at hin
    exact L.not_dlq hmem hin

theorem gone_of_settles (L : MqLedger db h) (hx : st.exec s c db = some (r, db'))
    (hs : settles id st r) : Gone db' (⟨s, op, c, st, r, db⟩ :: h) id := by
  cases st with
  | ack q i token =>
    obtain ⟨rfl, rfl⟩ := Prod.mk.inj (Option.some.inj hx)
    obtain ⟨rfl, hpos⟩ := hs
    exact gone_of_deleted L hpos rfl rfl
  | archive q i token =>
    obtain ⟨rfl, rfl⟩ := Prod.mk.inj (Option.some.inj hx)
    obtain ⟨rfl, hpos⟩ := hs
    obtain ⟨-, h1, h2, -⟩ := archive_spec db q i token (db.now s c.now)
    exact gone_of_deleted L hpos h1 h2
  | _ => exact hs.elim

end

/-! ## the contract -/

structure Contract (db : MqDb) (h : List MqEv) : Prop where
  ledger : MqLedger db h
  promised : Promised db h
  stamped : Stamped db h
  settled : ∀ e ∈ h, ∀ id, settles id e.stmt e.res → Gone db h id
  spent : (issuedTokens h).Nodup → ∀ token, SpentOnce token db h

namespace Contract

theorem empty : Contract MqDb.empty [] where
  ledger := MqLedger.empty
  promised := ⟨fun _ h => absurd h List.not_mem_nil, fun _ h => absurd h List.not_mem_nil,
    fun s x h => by cases h⟩
  stamped := Stamped.empty
  settled := fun _ h => absurd h List.not_mem_nil
  spent := fun _ _ => ⟨Nat.zero_le _, fun h => absurd h (Nat.lt_irrefl 0),
    fun _ _ h => absurd h List.not_mem_nil⟩

section
variable {db db' : MqDb} {h : List MqEv} {s : Nat} {op : MqCall} {c : MqCtx}
variable {st : MqStmt} {r : st.Res}

theorem step (K : Contract db h) (hauto : st.auto = true → db.txs.get s = none)
    (hx : st.exec s c db = some (r, db')) : Contract db' (⟨s, op, c, st, r, db⟩ :: h) where
  ledger := K.ledger.step hx
  promised :=
    ⟨fun m hm => Promised.row (e := ⟨s, op, c, st, r, db⟩) K.promised hauto
      (rowChange K.ledger hx m hm),
      fun d hd => Promised.dlqRow (e := ⟨s, op, c, st, r, db⟩) K.promised hauto
        (dlqChange K.ledger hx d hd),
      fun t x hg m hm => Promised.pendingRow (e := ⟨s, op, c, st, r, db⟩) K.promised
        (pendingChange K.ledger hx t x hg m hm)⟩
  stamped := K.stamped.step K.ledger hx
  settled := by
    intro e he id hs
    rcases List.mem_cons.mp he with rfl | he
    · exact gone_of_settles K.ledger hx hs
    · exact (K.settled e he id hs).step K.ledger hx
  spent := fun hnd token => (K.spent (nodup_tail hnd) token).step K.ledger K.stamped hx hnd

/-- what a claim hands out -/
theorem claim (K : Contract db h) (hauto : db.txs.get s = none) {q n t : Int}
    {ms : List QueueMessage}
    (hx : MqStmt.exec s c (.claim q n t) db = some (.ok ms, db'))
    (hclock : ClockRuns ⟨s, op, c, .claim q n t, .ok ms, db⟩ h) {m : QueueMessage} (hm : m ∈ ms) :
    ((promise h m.id).moved = false ∧ (∀ dl, (promise h m.id).deadline = some dl → dl ≤ c.now) ∧
      ∀ a, (promise h m.id).available = some a → a ≤ c.now) ∧
    (∀ e ∈ h, ¬ settles m.id e.stmt e.res) ∧ m.id ∈ sentIds h := by
  obtain ⟨row, hrow, -, hv, -, hid, -, -⟩ := claim_row K.ledger hx hm
  have hnow : db.now s c.now = c.now := now_eq_clock hauto _
  rw [hnow] at hv
  have hin : m.id ∈ db.messageIds := hid ▸ List.mem_map_of_mem hrow
  refine ⟨?_, fun e he hs => (K.settled e he m.id hs).active hin, K.ledger.sent_of_places ?_⟩
  · rw [hid]
    exact ⟨(K.promised.rows row hrow).here, claim_promised (K.promised.rows row hrow) hclock hv⟩
  · exact List.mem_append_left _ (List.mem_append_left _ hin)

end

end Contract

end PgApp
