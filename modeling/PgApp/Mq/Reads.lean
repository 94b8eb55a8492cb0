import PgApp.Mq.Tokens

/-!
# What a reader is handed, a claim has delivered

`read`, `read_with_poll` and `stream_read_next` hand their caller messages; each of them was in the
answer of a claiming statement of that call (`read_answer`).  A claim in turn answers rows it found
active and visible (`claim_row`).
-/

namespace PgApp
open Interleave

section
variable {call : MqCall}

/-- every message handed back was answered by a claim of this call -/
def ReadAnswer (call : MqCall) (r : PgAppResult (List QueueMessage)) (γ : List MqEv) : Prop :=
  ∀ ms, r = .ok ms → ∀ m ∈ ms, ∃ s c q n t ms' db,
    (⟨s, call, c, .claim q n t, .ok ms', db⟩ : MqEv) ∈ γ ∧ m ∈ ms'

theorem ReadAnswer.error (e : PgAppError) (γ : List MqEv) : ReadAnswer call (.error e) γ :=
  fun _ h => by cases h

theorem ReadAnswer.nil (γ : List MqEv) : ReadAnswer call (.ok []) γ := by
  intro ms h m hm
  obtain rfl := Except.ok.inj h
  exact absurd hm List.not_mem_nil

theorem read_safe (store : MqStore) (n : String) (k t : Int) (γ : List MqEv) :
    OwnSafe call (ReadAnswer call) (store.read n k t) γ := by
  have herr : ∀ e γ, ReadAnswer call (.error e) γ := ReadAnswer.error
  refine Safe.check_bind (fun _ _ => ?_) (herr · γ)
  refine Safe.check_bind (fun _ _ => ?_) (herr · γ)
  refine Safe.check_bind (fun _ _ => ?_) (herr · γ)
  refine Safe.check_bind (Q := fun r γ => ∀ e, r = .error e → ReadAnswer call (.error e) γ)
    (fun _ _ => ?_) (fun e _ _ => herr _ γ) |>.bind (Q := ReadAnswer call) ?_ (fun e w h => h e rfl)
  · refine ⟨trivial, fun r γ' _ => ?_⟩
    cases r with
    | none => exact fun e _ => herr _ γ'
    | some q => exact fun e he => by cases he
  · intro q γ₁ _
    refine ⟨trivial, fun _ γ₂ _ => ⟨trivial, fun r γ₃ hγ => ?_⟩⟩
    obtain ⟨s, c, db, rfl⟩ := hγ
    cases r with
    | error e => exact herr _ _
    | ok ms =>
      intro ms' hms m hm
      obtain rfl := Except.ok.inj hms
      exact ⟨s, c, q, k, t, ms, db, List.mem_cons_self, hm⟩

theorem pollLoop_safe (store : MqStore) (n : String) (k t : Int) (i d : Time) (rounds : Nat)
    (γ : List MqEv) :
    OwnSafe call (ReadAnswer call) (store.pollLoop n k t i d rounds) γ := by
  induction rounds generalizing γ with
  | zero => exact ⟨trivial, fun r γ' _ => ReadAnswer.nil γ'⟩
  | succ rounds ih =>
    refine Safe.bind (read_safe store n k t γ) (fun ms γ' hγ => ?_) fun e γ' hγ => hγ
    show OwnSafe call (ReadAnswer call) (if ms.isEmpty then _ else _) γ'
    split
    · rename_i hms
      refine ⟨trivial, fun now γ₁ _ => ?_⟩
      show OwnSafe call (ReadAnswer call) (if d ≤ now then _ else _) γ₁
      split
      · rw [List.isEmpty_iff] at hms
        rw [hms]
        exact ReadAnswer.nil γ₁
      · exact ⟨trivial, fun _ γ₂ _ => ih γ₂⟩
    · exact hγ

theorem readWithPoll_safe (store : MqStore) (n : String) (k t mx i : Int) (rounds : Nat)
    (γ : List MqEv) :
    OwnSafe call (ReadAnswer call) (store.readWithPoll n k t mx i rounds) γ := by
  refine Safe.check_bind (fun _ _ => ?_) fun e => ReadAnswer.error e γ
  refine Safe.check_bind (fun _ _ => ?_) fun e => ReadAnswer.error e γ
  refine Safe.check_bind (fun _ _ => ?_) fun e => ReadAnswer.error e γ
  refine Safe.check_bind (fun _ _ => ?_) fun e => ReadAnswer.error e γ
  refine ⟨trivial, fun now γ' _ => ?_⟩
  exact MqStore.pollUntil_of (P := fun p => OwnSafe call (ReadAnswer call) p γ')
    (fun deadline rounds => pollLoop_safe store n k t _ deadline rounds γ') _ rounds

theorem streamReadNext_safe (store : MqStore) (n : String) (k t : Int) (rounds : Nat)
    (γ : List MqEv) :
    OwnSafe call (ReadAnswer call) (store.streamReadNext n k t rounds) γ := by
  induction rounds generalizing γ with
  | zero => exact ⟨trivial, fun r γ' _ => ReadAnswer.nil γ'⟩
  | succ rounds ih =>
    refine Safe.bind (read_safe store n k t γ) (fun ms γ' hγ => ?_) fun e γ' hγ => hγ
    show OwnSafe call (ReadAnswer call) (if ms.isEmpty then _ else _) γ'
    split
    · exact ⟨trivial, fun _ γ₂ _ => ih γ₂⟩
    · exact hγ

end

/-- the messages a finished call hands back -/
def returnedMessages : PgAppResult MqReturn → List QueueMessage
  | .ok (.messages ms) => ms
  | _ => []

theorem no_messages {α : Type} {call : MqCall} {Q : PgAppResult MqReturn → List MqEv → Prop}
    (p : MqProg α) (f : α → MqReturn) (γ : List MqEv) (hf : ∀ a γ, Q (.ok (f a)) γ)
    (he : ∀ e γ, Q (.error e) γ) : OwnSafe call Q (p >>= fun a => pure (f a)) γ :=
  Safe.bind (Safe.trivial p γ) (fun a γ _ => hf a γ) fun e γ _ => he e γ

theorem read_body (call : MqCall) (γ : List MqEv) :
    OwnSafe call (fun r γ => ReadAnswer call (.ok (returnedMessages r)) γ) call.body γ := by
  obtain ⟨store, op⟩ := call
  have hnil : ∀ γ, ReadAnswer ⟨store, op⟩ (.ok []) γ := ReadAnswer.nil
  cases op with
  | read n k t =>
    exact Safe.bind (read_safe store n k t γ) (fun ms γ hγ => hγ) fun e γ _ => hnil γ
  | readWithPoll n k t mx i rounds =>
    exact Safe.bind (readWithPoll_safe store n k t mx i rounds γ) (fun ms γ hγ => hγ)
      fun e γ _ => hnil γ
  | streamReadNext n k t rounds =>
    exact Safe.bind (streamReadNext_safe store n k t rounds γ) (fun ms γ hγ => hγ)
      fun e γ _ => hnil γ
  | createQueue n mode => exact no_messages _ _ γ (fun _ => hnil) fun _ => hnil
  | purgeQueue n => exact no_messages _ _ γ (fun _ => hnil) fun _ => hnil
  | dropQueue n => exact no_messages _ _ γ (fun _ => hnil) fun _ => hnil
  | send n p d => exact no_messages _ _ γ (fun _ => hnil) fun _ => hnil
  | sendBatch n ps d => exact no_messages _ _ γ (fun _ => hnil) fun _ => hnil
  | deadLetter n id reason => exact no_messages _ _ γ (fun _ => hnil) fun _ => hnil
  | listDlqMessages n l o => exact no_messages _ _ γ (fun _ => hnil) fun _ => hnil
  | getDlqMessage n id => exact no_messages _ _ γ (fun _ => hnil) fun _ => hnil
  | reprocessDlqMessage n id => exact no_messages _ _ γ (fun _ => hnil) fun _ => hnil
  | purgeDlq n => exact no_messages _ _ γ (fun _ => hnil) fun _ => hnil
  | sweepDlq d => exact no_messages _ _ γ (fun _ => hnil) fun _ => hnil
  | ack n id tok => exact no_messages _ _ γ (fun _ => hnil) fun _ => hnil
  | archive n id tok => exact no_messages _ _ γ (fun _ => hnil) fun _ => hnil
  | setVisibilityTimeout n id tok t => exact no_messages _ _ γ (fun _ => hnil) fun _ => hnil
  | metrics n => exact no_messages _ _ γ (fun _ => hnil) fun _ => hnil

/-- **Every message a finished call hands back was delivered by one of its claims.** -/
theorem read_answer {σ : MqSys} (hr : MqReach σ) {s : Nat} {call : MqCall}
    {r : PgAppResult MqReturn} (hd : (s, call, r) ∈ σ.done) {m : QueueMessage}
    (hm : m ∈ returnedMessages r) :
    ∃ h₁ h₂ s' c q n t ms db,
      σ.hist = h₁ ++ ⟨s', call, c, .claim q n t, .ok ms, db⟩ :: h₂ ∧ m ∈ ms := by
  have h := hr.done_of
    (fun call r h => ∀ m ∈ returnedMessages r, ∃ s c q n t ms db,
      (⟨s, call, c, .claim q n t, .ok ms, db⟩ : MqEv) ∈ h ∧ m ∈ ms) ?_ ?_ s call r hd m hm
  · obtain ⟨s', c, q, n, t, ms, db, he, hms⟩ := h
    obtain ⟨h₁, h₂, hh⟩ := List.append_of_mem he
    exact ⟨h₁, h₂, s', c, q, n, t, ms, db, hh, hms⟩
  · intro τ s call r hτ hp m hm
    obtain ⟨s', c, q, n, t, ms, db, he, hms⟩ := hτ.ownEvents _ read_body hp _ rfl m hm
    exact ⟨s', c, q, n, t, ms, db, List.mem_of_mem_filter he, hms⟩
  · intro call r e h hh m hm
    obtain ⟨s', c, q, n, t, ms, db, he, hms⟩ := hh m hm
    exact ⟨s', c, q, n, t, ms, db, List.mem_cons_of_mem _ he, hms⟩

/-- the row behind a message that a claim answers -/
theorem claim_row {db db' : MqDb} {h : List MqEv} (L : MqLedger db h) {s : Nat} {c : MqCtx}
    {q n t : Int} {ms : List QueueMessage}
    (hx : MqStmt.exec s c (.claim q n t) db = some (.ok ms, db')) {m : QueueMessage} (hm : m ∈ ms) :
    ∃ row ∈ db.messages, row.queueId = q ∧ row.visible (db.now s c.now) = true ∧
      c.locked.contains row.id = false ∧ m.id = row.id ∧ m.readCount = row.readCount + 1 ∧
      m = rowToMessage (row.claim (db.now s c.now) t (c.token row.id)) := by
  obtain ⟨rfl, -⟩ := claim_ok (Option.some.inj hx)
  obtain ⟨row, hrow, rfl⟩ := List.mem_map.mp hm
  obtain ⟨hrow, hc⟩ := List.mem_filter.mp hrow
  obtain ⟨row', hrow', hid, hq, hv, hl⟩ := mem_picked (List.contains_iff_mem.mp hc)
  obtain rfl := L.eq_of_id hrow' hrow hid
  exact ⟨row', hrow, hq, hv, hl, rfl, rfl, rfl⟩

end PgApp
