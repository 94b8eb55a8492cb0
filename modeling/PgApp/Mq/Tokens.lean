import PgApp.Mq.Delivery
import PgApp.Mq.Autocommit
import PgApp.Interleave.Account

/-!
# A delivery token works for one delivery, once

`Held db h q id token now` says, from the history, that `token` is good for the message just now:
the message is active in the queue, its last delivery issued this token, and the deadline in force
lies after `now`.  The three statements that take a token succeed exactly then (`token_stmt`).

With tokens that are never issued twice (`issuedTokens`), a token of an earlier delivery is not
good any more (`stale_token`), and at most one `ack` or `archive` succeeds with it (`SpentOnce`).
-/

namespace PgApp
open Interleave

/-! ## what a token is good for -/

/-- the queue, the message and the token of a statement that takes one -/
def MqStmt.tokenArgs : MqStmt → Option (Int × Int × String)
  | .ack q id token => some (q, id, token)
  | .archive q id token => some (q, id, token)
  | .setVisibility q id token _ => some (q, id, token)
  | _ => none

/-- PostgreSQL takes its parameters: no U+0000 in the token, and a timeout that has an end -/
def MqStmt.Bindable (now : Time) : MqStmt → Prop
  | .ack _ _ token | .archive _ _ token => storable token = true
  | .setVisibility _ _ token timeoutSeconds =>
      storable token = true ∧ postgres.Fits now timeoutSeconds
  | _ => True

/-- rows affected, for these three -/
def MqStmt.rows : (st : MqStmt) → st.Res → Nat
  | .ack _ _ _, n => n
  | .archive _ _ _, n => n
  | .setVisibility _ _ _ _, n => n
  | _, _ => 0

structure Held (db : MqDb) (h : List MqEv) (q id : Int) (token : String) (now : Time) : Prop where
  active : ∃ m ∈ db.messages, m.queueId = q ∧ m.id = id
  latest : ∃ deadline, lastDelivery h id = some (token, deadline) ∧ now < deadline

section
variable {db db' : MqDb} {h : List MqEv} {q id : Int} {token : String} {now : Time}

theorem heldBy_eq_true {m : MessageRow} : m.heldBy q id token now = true ↔
    m.queueId = q ∧ m.id = id ∧ m.ackToken = some token ∧ m.inFlight now = true := by
  unfold MessageRow.heldBy
  simp only [Bool.and_eq_true, beq_iff_eq, and_assoc]

theorem held_iff (S : Stamped db h) :
    (∃ m ∈ db.messages, m.heldBy q id token now = true) ↔ Held db h q id token now := by
  constructor
  · intro hex
    obtain ⟨m, hm, hh⟩ := hex
    obtain ⟨rfl, rfl, htok, hfl⟩ := heldBy_eq_true.mp hh
    refine ⟨⟨m, hm, rfl, rfl⟩, ?_⟩
    have h1 := S.token m hm
    have h2 := S.deadline m hm
    cases hl : lastDelivery h m.id with
    | none => rw [htok, hl] at h1; cases h1
    | some p =>
      rw [htok, hl] at h1
      rw [hl] at h2
      unfold MessageRow.inFlight at hfl
      rw [h2] at hfl
      refine ⟨p.2, ?_, of_decide_eq_true hfl⟩
      rw [← Option.some.inj h1.symm]
  · intro hex
    obtain ⟨⟨m, hm, rfl, rfl⟩, dl, hl, hlt⟩ := hex
    refine ⟨m, hm, heldBy_eq_true.mpr ⟨rfl, rfl, ?_, ?_⟩⟩
    · rw [S.token m hm, hl]
      rfl
    · unfold MessageRow.inFlight
      rw [S.deadline m hm, hl]
      exact decide_eq_true hlt

theorem filter_pos_iff {α : Type} {p : α → Bool} {l : List α} :
    0 < (l.filter p).length ↔ ∃ a ∈ l, p a = true := by
  rw [List.length_pos_iff_exists_mem]
  simp only [List.mem_filter]

theorem filter_zero {α : Type} {p : α → Bool} {l : List α} (h0 : (l.filter p).length = 0) :
    ∀ a ∈ l, p a = false := by
  intro a ha
  cases hp : p a with
  | false => rfl
  | true =>
    have h1 : 0 < (l.filter p).length := filter_pos_iff.mpr ⟨a, ha, hp⟩
    omega

theorem token_stmt (S : Stamped db h) {s : Nat} {c : MqCtx} {st : MqStmt} {r : st.Res}
    (hst : st.tokenArgs = some (q, id, token)) (hx : st.exec s c db = some (r, db')) :
    (0 < st.rows r ↔ Held db h q id token (db.now s c.now)) ∧ (st.rows r = 0 → db' = db) := by
  cases st with
  | ack q' id' token' =>
    obtain ⟨rfl, rfl, rfl⟩ : q' = q ∧ id' = id ∧ token' = token := by
      simpa [MqStmt.tokenArgs] using hst
    obtain ⟨rfl, rfl⟩ := Prod.mk.inj (Option.some.inj hx)
    refine ⟨filter_pos_iff.trans (held_iff S), fun h0 => ?_⟩
    show { db with messages := _ } = db
    rw [filter_not_eq_self (filter_zero h0)]
  | archive q' id' token' =>
    obtain ⟨rfl, rfl, rfl⟩ : q' = q ∧ id' = id ∧ token' = token := by
      simpa [MqStmt.tokenArgs] using hst
    obtain ⟨rfl, rfl⟩ := Prod.mk.inj (Option.some.inj hx)
    refine ⟨filter_pos_iff.trans (held_iff S), fun h0 => ?_⟩
    show List.foldl _ { db with messages := _ } _ = db
    rw [List.eq_nil_of_length_eq_zero h0, filter_not_eq_self (filter_zero h0)]
    rfl
  | setVisibility q' id' token' t =>
    obtain ⟨rfl, rfl, rfl⟩ : q' = q ∧ id' = id ∧ token' = token := by
      simpa [MqStmt.tokenArgs] using hst
    obtain ⟨rfl, rfl⟩ := Prod.mk.inj (Option.some.inj hx)
    refine ⟨filter_pos_iff.trans (held_iff S), fun h0 => ?_⟩
    show { db with messages := _ } = db
    have hid : (db.messages.map fun m =>
        if m.heldBy q' id' token' (db.now s c.now) then
          { m with visibilityTimeoutAt := some (db.now s c.now + seconds t),
                   updatedAt := db.now s c.now }
        else m) = db.messages := by
      conv_rhs => rw [← List.map_id db.messages]
      refine List.map_congr_left fun m hm => ?_
      rw [filter_zero h0 m hm]
      rfl
    rw [hid]
  | _ => exact absurd hst (by simp [MqStmt.tokenArgs])

end

/-! ## tokens that were issued -/

/-- the tokens a statement has handed out, with their messages -/
def issuedOf (e : MqEv) : List (Int × String) :=
  match e with
  | ⟨_, _, _, .claim _ _ _, .ok ms, _⟩ => ms.map fun m => (m.id, m.ackToken)
  | _ => []

def issued (h : List MqEv) : List (Int × String) := h.flatMap issuedOf

/-- all tokens ever generated -/
def issuedTokens (h : List MqEv) : List String := (issued h).map (·.2)

theorem issued_cons (e : MqEv) (h : List MqEv) : issued (e :: h) = issuedOf e ++ issued h := rfl

theorem issuedTokens_cons (e : MqEv) (h : List MqEv) :
    issuedTokens (e :: h) = (issuedOf e).map (·.2) ++ issuedTokens h := by
  unfold issuedTokens
  rw [issued_cons, List.map_append]

theorem issuedOf_of_delivered {e : MqEv} {id : Int} {token : String} {deadline : Time}
    (ht : touchOf e id = .delivered token deadline) : (id, token) ∈ issuedOf e := by
  obtain ⟨s, op, c, st, r, db⟩ := e
  cases st with
  | claim q n t =>
    cases r with
    | error e => cases ht
    | ok ms =>
      rw [touchOf_claim] at ht
      cases hf : ms.find? (·.id == id) with
      | none => rw [hf] at ht; cases ht
      | some m =>
        rw [hf] at ht
        have hid : m.id = id := by simpa using List.find?_some hf
        have htok : m.ackToken = token := (Touch.delivered.inj ht).1
        rw [← hid, ← htok]
        exact List.mem_map_of_mem (f := fun m : QueueMessage => (m.id, m.ackToken))
          (List.mem_of_find?_eq_some hf)
  | insertMessage q p d =>
    cases r with
    | error e => cases ht
    | ok i =>
      change (if i = id then _ else Touch.none) = _ at ht
      split at ht <;> cases ht
  | commit =>
    change (if id ∈ db.pendingIds s then Touch.sent else Touch.none) = _ at ht
    split at ht <;> cases ht
  | setVisibility q i tok t =>
    change (if _ then _ else Touch.none) = _ at ht
    split at ht <;> cases ht
  | deadLetter q i reason =>
    change (if _ then _ else Touch.none) = _ at ht
    split at ht <;> cases ht
  | reprocess q i =>
    cases r with
    | error e => cases ht
    | ok n =>
      change (if _ then _ else Touch.none) = _ at ht
      split at ht <;> cases ht
  | _ => cases ht

theorem issued_of_lastDelivery {h : List MqEv} {id : Int} {token : String} {deadline : Time}
    (hl : lastDelivery h id = some (token, deadline)) : (id, token) ∈ issued h := by
  induction h generalizing deadline with
  | nil => cases hl
  | cons e h ih =>
    rw [issued_cons]
    unfold lastDelivery at hl
    cases ht : touchOf e id with
    | delivered tok dl =>
      rw [ht] at hl
      obtain ⟨rfl, -⟩ := Prod.mk.inj (Option.some.inj hl)
      exact List.mem_append_left _ (issuedOf_of_delivered ht)
    | sent => rw [ht] at hl; cases hl
    | requeued => rw [ht] at hl; cases hl
    | extended dl =>
      rw [ht] at hl
      obtain ⟨p, hp, he⟩ := Option.map_eq_some_iff.mp hl
      obtain ⟨rfl, -⟩ := Prod.mk.inj he
      have hl' : lastDelivery h id = some (p.1, p.2) := hp
      exact List.mem_append_right _ (ih hl')
    | none => rw [ht] at hl; exact List.mem_append_right _ (ih hl)
    | inserted a => rw [ht] at hl; exact List.mem_append_right _ (ih hl)
    | deadLettered => rw [ht] at hl; exact List.mem_append_right _ (ih hl)

theorem issued_inj {h : List MqEv} (hnd : (issuedTokens h).Nodup) {i j : Int} {token : String}
    (hi : (i, token) ∈ issued h) (hj : (j, token) ∈ issued h) : i = j :=
  congrArg Prod.fst (List.inj_on_of_nodup_map hnd hi hj rfl)

theorem not_issued_before {e : MqEv} {h : List MqEv} (hnd : (issuedTokens (e :: h)).Nodup)
    {i j : Int} {token : String} (hi : (i, token) ∈ issuedOf e) : (j, token) ∉ issued h := by
  intro hj
  rw [issuedTokens_cons] at hnd
  have h1 : token ∈ (issuedOf e).map (·.2) := List.mem_map_of_mem (f := Prod.snd) hi
  have h2 : token ∈ issuedTokens h := List.mem_map_of_mem (f := Prod.snd) hj
  exact (List.nodup_append.mp hnd).2.2 token h1 token h2 rfl

theorem nodup_tail {e : MqEv} {h : List MqEv} (hnd : (issuedTokens (e :: h)).Nodup) :
    (issuedTokens h).Nodup := by
  rw [issuedTokens_cons] at hnd
  exact (List.nodup_append.mp hnd).2.1

/-- the statement gave the message another delivery, or a new start -/
def Touch.renews : Touch → Bool
  | .delivered _ _ => true
  | .requeued => true
  | _ => false

/-- **A token of an earlier delivery is dead.**  Once the message is delivered again, or has gone
through the dead letter queue and back, its token is never again the latest. -/
theorem stale_token {h₁ h₂ : List MqEv} {e : MqEv} {id : Int} {token : String} {deadline : Time}
    (hnd : (issuedTokens (h₁ ++ e :: h₂)).Nodup)
    (ht : touchOf e id = .delivered token deadline)
    (hnew : ∃ e' ∈ h₁, (touchOf e' id).renews = true) (dl : Time) :
    lastDelivery (h₁ ++ e :: h₂) id ≠ some (token, dl) := by
  induction h₁ generalizing dl with
  | nil =>
    obtain ⟨e', he', -⟩ := hnew
    exact absurd he' List.not_mem_nil
  | cons x h₁ ih =>
    have hold : (id, token) ∈ issued (h₁ ++ e :: h₂) := by
      unfold issued
      rw [List.flatMap_append]
      exact List.mem_append_right _ (List.mem_append_left _ (issuedOf_of_delivered ht))
    have hrest : (touchOf x id).renews = false → ∃ e' ∈ h₁, (touchOf e' id).renews = true := by
      intro hx
      obtain ⟨e', he', hr⟩ := hnew
      rcases List.mem_cons.mp he' with rfl | he'
      · rw [hx] at hr
        cases hr
      · exact ⟨e', he', hr⟩
    rw [List.cons_append] at hnd ⊢
    intro hl
    unfold lastDelivery at hl
    cases hx : touchOf x id with
    | delivered tok d =>
      rw [hx] at hl
      obtain ⟨rfl, -⟩ := Prod.mk.inj (Option.some.inj hl)
      exact not_issued_before hnd (issuedOf_of_delivered hx) hold
    | sent => rw [hx] at hl; cases hl
    | requeued => rw [hx] at hl; cases hl
    | extended d =>
      rw [hx] at hl
      obtain ⟨p, hp, he⟩ := Option.map_eq_some_iff.mp hl
      obtain ⟨rfl, -⟩ := Prod.mk.inj he
      exact ih (nodup_tail hnd) (hrest (by rw [hx]; rfl)) p.2 (by rw [hp])
    | none => rw [hx] at hl; exact ih (nodup_tail hnd) (hrest (by rw [hx]; rfl)) dl hl
    | inserted a => rw [hx] at hl; exact ih (nodup_tail hnd) (hrest (by rw [hx]; rfl)) dl hl
    | deadLettered => rw [hx] at hl; exact ih (nodup_tail hnd) (hrest (by rw [hx]; rfl)) dl hl

/-! ## a token is spent once -/

/-- an `ack` or `archive` with this token that succeeded -/
def spends (token : String) : (st : MqStmt) → st.Res → Nat
  | .ack _ _ t, n => if t = token ∧ 0 < n then 1 else 0
  | .archive _ _ t, n => if t = token ∧ 0 < n then 1 else 0
  | _, _ => 0

def spent (token : String) (h : List MqEv) : Nat := (h.map fun e => spends token e.stmt e.res).sum

theorem spent_cons (token : String) (e : MqEv) (h : List MqEv) :
    spent token (e :: h) = spends token e.stmt e.res + spent token h := by
  unfold spent
  rw [List.map_cons, List.sum_cons]

/-- a statement that spends a token: the row it found and that the row is gone -/
theorem spends_cases (token : String) {s : Nat} {c : MqCtx} {st : MqStmt} {r : st.Res}
    {db db' : MqDb} (hx : st.exec s c db = some (r, db')) :
    spends token st r = 0 ∨ (spends token st r = 1 ∧ ∃ q id, 
      (∃ m ∈ db.messages, m.heldBy q id token (db.now s c.now) = true) ∧
      db'.messages = db.messages.filter fun m => !m.heldBy q id token (db.now s c.now)) := by
  cases st with
  | ack q id t =>
    obtain ⟨rfl, rfl⟩ := Prod.mk.inj (Option.some.inj hx)
    by_cases hc : t = token ∧ 0 < (db.messages.filter fun m =>
      m.heldBy q id t (db.now s c.now)).length
    · obtain ⟨rfl, hpos⟩ := hc
      exact .inr ⟨if_pos ⟨rfl, hpos⟩, q, id, filter_pos_iff.mp hpos, rfl⟩
    · exact .inl (if_neg hc)
  | archive q id t =>
    obtain ⟨rfl, rfl⟩ := Prod.mk.inj (Option.some.inj hx)
    by_cases hc : t = token ∧ 0 < (db.messages.filter fun m =>
      m.heldBy q id t (db.now s c.now)).length
    · obtain ⟨rfl, hpos⟩ := hc
      exact .inr ⟨if_pos ⟨rfl, hpos⟩, q, id, filter_pos_iff.mp hpos, (archive_spec db q id t _).2.1⟩
    · exact .inl (if_neg hc)
  | _ => exact .inl rfl

/-- a spent token was issued, is on no row any more, and was spent once -/
structure SpentOnce (token : String) (db : MqDb) (h : List MqEv) : Prop where
  once : spent token h ≤ 1
  known : 0 < spent token h → ∃ id, (id, token) ∈ issued h
  gone : 0 < spent token h → ∀ m ∈ db.messages, m.ackToken ≠ some token

theorem issued_of_row {db : MqDb} {h : List MqEv} (S : Stamped db h) {m : MessageRow}
    {token : String} (hm : m ∈ db.messages) (ht : m.ackToken = some token) :
    (m.id, token) ∈ issued h := by
  have h1 := S.token m hm
  rw [ht] at h1
  obtain ⟨p, hp, he⟩ := Option.map_eq_some_iff.mp h1.symm
  have hl : lastDelivery h m.id = some (token, p.2) := by rw [hp, ← he]
  exact issued_of_lastDelivery hl

theorem SpentOnce.step {token : String} {db : MqDb} {h : List MqEv} (P : SpentOnce token db h)
    (L : MqLedger db h) (S : Stamped db h) {s : Nat} {op : MqCall} {c : MqCtx} {st : MqStmt}
    {r : st.Res} {db' : MqDb} (hx : st.exec s c db = some (r, db'))
    (hnd : (issuedTokens (⟨s, op, c, st, r, db⟩ :: h)).Nodup) :
    SpentOnce token db' (⟨s, op, c, st, r, db⟩ :: h) := by
  have hcons : spent token (⟨s, op, c, st, r, db⟩ :: h) = spends token st r + spent token h :=
    spent_cons token _ h
  rcases spends_cases token hx with h0 | ⟨h1, q, id, ⟨m, hm, hh⟩, hms⟩
  · rw [h0, Nat.zero_add] at hcons
    refine ⟨hcons ▸ P.once, fun hp => ?_, fun hp m hm htok => ?_⟩
    · obtain ⟨id, hid⟩ := P.known (hcons ▸ hp)
      exact ⟨id, List.mem_append_right _ hid⟩
    · rw [hcons] at hp
      obtain ⟨i, hi⟩ := P.known hp
      have hchange : RowChange ⟨s, op, c, st, r, db⟩ m := rowChange L hx m hm
      cases hchange with
      | kept _ hm' ht => exact P.gone hp m hm' htok
      | sent _ t hg hm' ht =>
        rw [(S.fresh _ t hg m hm').2.1] at htok
        cases htok
      | delivered m' q n timeout tok hm' hst hv ht =>
        obtain rfl : tok = token := Option.some.inj htok
        exact not_issued_before hnd (issuedOf_of_delivered ht) hi
      | extended m' dl hm' hv ht => exact P.gone hp m' hm' htok
      | requeued d hd ht => cases htok
  · have htok : m.ackToken = some token := (heldBy_eq_true.mp hh).2.2.1
    have hzero : spent token h = 0 := by
      by_contra hne
      exact P.gone (Nat.pos_of_ne_zero hne) m hm htok
    refine ⟨by omega, fun _ => ?_, fun _ m' hm' htok' => ?_⟩
    · exact ⟨m.id, List.mem_append_right _ (issued_of_row S hm htok)⟩
    · rw [hms] at hm'
      obtain ⟨hm1, hm2⟩ := List.mem_filter.mp hm'
      have hid : m'.id = m.id :=
        issued_inj (nodup_tail hnd) (issued_of_row S hm1 htok') (issued_of_row S hm htok)
      obtain rfl := L.eq_of_id hm1 hm hid
      rw [hh] at hm2
      cases hm2

theorem SpentOnce.of_reach (token : String) {σ : MqSys} (hr : MqReach σ)
    (hnd : (issuedTokens σ.hist).Nodup) : SpentOnce token σ.db σ.hist := by
  have h := hr.invariant
    (fun db h => MqLedger db h ∧ Stamped db h ∧ ((issuedTokens h).Nodup → SpentOnce token db h))
    ⟨MqLedger.empty, Stamped.empty, fun _ => ⟨Nat.zero_le _, fun h => absurd h (Nat.lt_irrefl 0),
      fun _ _ h => absurd h List.not_mem_nil⟩⟩
    fun _ _ _ _ _ _ _ _ ⟨L, S, P⟩ hx =>
      ⟨L.step hx, S.step L hx, fun hnd => (P (nodup_tail hnd)).step L S hx hnd⟩
  exact h.2.2 hnd

end PgApp
