import PgApp.Server.MqService

/-!
# The loops that wait for messages, checked alone

`read_with_notify_or_poll` and `stream_read_next` do the same between two reads: they wait for a
notification, or pause where there is no listener (any more).  `Listening` says what has to be kept
for it: `I` where a round begins, with or without a listener, `J` after a read that found nothing,
`F` at the end.  From it both loops are safe (`Listening.longPoll`, `Listening.stream`).
-/

namespace PgApp
open Interleave

structure Listening {Γ : Type} (store : MqStore) (n : String) (quantity timeout : Int)
    (P : NetStmt → Γ → Prop) (T : (st : NetStmt) → st.Res → Γ → Γ → Prop) (I J : Bool → Γ → Prop)
    (F : Γ → Prop) : Prop where
  read : ∀ b γ, I b γ → Safe P T (fun r γ' => F γ' ∧ ∀ messages, r = .ok messages →
    I b γ' ∧ (messages = [] → J b γ')) (onNet (store.read n quantity timeout)) γ
  clock : ∀ b γ, J b γ → P (.mq .utcNow) γ ∧ ∀ r γ', T (.mq .utcNow) r γ γ' → J b γ'
  pause : ∀ b wait γ, J b γ → P (.mq (.sleep wait)) γ ∧ ∀ r γ',
    T (.mq (.sleep wait)) r γ γ' → I false γ'
  recv : ∀ wait γ, J true γ → P (.recv wait) γ ∧ ∀ r γ', T (.recv wait) r γ γ' →
    (r = .failed → J false γ') ∧ (r ≠ .failed → I true γ')
  idle : ∀ b γ, I b γ → P (.mq .idle) γ ∧ ∀ r γ', T (.mq .idle) r γ γ' → F γ'
  round : ∀ b γ, I b γ → F γ
  empty : ∀ b γ, J b γ → F γ

namespace Listening
variable {Γ : Type} {store : MqStore} {n : String} {quantity timeout : Int}
variable {P : NetStmt → Γ → Prop} {T : (st : NetStmt) → st.Res → Γ → Γ → Prop}
variable {I J : Bool → Γ → Prop} {F : Γ → Prop}

theorem awaitNews (h : Listening store n quantity timeout P T I J F) (wait : Time)
    {b : Bool} {γ : Γ}
    (hγ : J b γ) : Safe P T (fun r γ' => ∃ b', r = .ok b' ∧ I b' γ')
        (PgApp.awaitNews b wait) γ := by
  have hpause : ∀ b γ, J b γ → Safe P T (fun (r : PgAppResult Bool) γ' => ∃ b',
    r = .ok b' ∧ I b' γ')
      (do NetProg.query (.mq (.sleep wait)); pure false) γ := fun b γ hγ =>
    ⟨(h.pause b wait γ hγ).1, fun r γ' hm => ⟨false, rfl, (h.pause b wait γ hγ).2 r γ' hm⟩⟩
  unfold PgApp.awaitNews
  cases b with
  | false => exact hpause false γ hγ
  | true =>
    refine ⟨(h.recv wait γ hγ).1, fun r γ' hm => ?_⟩
    have h1 := (h.recv wait γ hγ).2 r γ' hm
    cases r with
    | notified x => exact ⟨true, rfl, h1.2 fun h => by cases h⟩
    | timedOut => exact ⟨true, rfl, h1.2 fun h => by cases h⟩
    | failed => exact hpause false γ' (h1.1 rfl)

theorem next {α : Type} (h : Listening store n quantity timeout P T I J F) (wait : Time) {b : Bool}
    {γ : Γ} (hγ : J b γ) {k : Bool → NetProg α}
    (hk : ∀ b γ, I b γ → Safe P T (fun _ γ' => F γ') (k b) γ) :
    Safe P T (fun _ γ' => F γ') (PgApp.awaitNews b wait >>= k) γ := by
  refine Safe.bind (h.awaitNews wait hγ) (fun b' γ' hr => ?_) fun e γ' hr => ?_
  · obtain ⟨b'', he, hi⟩ := hr
    obtain rfl := Except.ok.inj he
    exact hk b' γ' hi
  · obtain ⟨b'', he, -⟩ := hr
    cases he

theorem notifyLoop (h : Listening store n quantity timeout P T I J F) (interval deadline : Time)
    (rounds : Nat) {b : Bool} {γ : Γ} (hγ : I b γ) :
    Safe P T (fun _ γ' => F γ')
      (store.notifyLoop n quantity timeout interval deadline rounds b) γ := by
  induction rounds generalizing b γ with
  | zero => exact ⟨(h.idle b γ hγ).1, (h.idle b γ hγ).2⟩
  | succ rounds ih =>
    refine Safe.bind (h.read b γ hγ) (fun messages γ₁ hr => ?_) fun e γ₁ hr => hr.1
    show Safe P T _ (if messages.isEmpty then _ else _) γ₁
    split
    · rename_i hemp
      have hj := (hr.2 messages rfl).2 (List.isEmpty_iff.mp hemp)
      refine ⟨(h.clock b γ₁ hj).1, fun now γ₂ hm => ?_⟩
      have hj := (h.clock b γ₁ hj).2 now γ₂ hm
      show Safe P T _ (if deadline ≤ now then _ else _) γ₂
      split
      · exact h.empty b γ₂ hj
      · refine ⟨(h.clock b γ₂ hj).1, fun now γ₃ hm => ?_⟩
        have hj := (h.clock b γ₂ hj).2 now γ₃ hm
        show Safe P T _ (if min (max (deadline - now) 0) interval = 0 then _ else _) γ₃
        split
        · exact h.empty b γ₃ hj
        · exact h.next _ hj fun b γ hγ => ih hγ
    · exact hr.1

theorem streamLoop (h : Listening store n quantity timeout P T I J F) (rounds : Nat) {b : Bool}
    (responses : List (List QueueMessage)) {γ : Γ} (hγ : I b γ) :
    Safe P T (fun _ γ' => F γ') (store.streamLoop n quantity timeout rounds b responses) γ := by
  induction rounds generalizing b responses γ with
  | zero => exact h.round b γ hγ
  | succ rounds ih =>
    have hread : Safe P T (fun (r : Except PgAppError (PgAppResult (List QueueMessage))) γ' =>
      F γ' ∧
        ∀ messages, r = .ok (.ok messages) → I b γ' ∧ (messages = [] → J b γ'))
        ((onNet (store.read n quantity timeout)).mapResult Except.ok) γ :=
      Safe.mapResult (h.read b γ hγ) fun r γ' hr =>
        ⟨hr.1, fun messages he => hr.2 messages (Except.ok.inj he)⟩
    refine Safe.bind hread (fun r γ₁ hr => ?_) fun e γ₁ hr => hr.1
    cases r with
    | error e => exact hr.1
    | ok messages =>
      obtain ⟨hi, hj⟩ := hr.2 messages rfl
      show Safe P T _ (if messages.isEmpty then _ else _) γ₁
      split
      · rename_i hemp
        exact h.next _ (hj (List.isEmpty_iff.mp hemp)) fun b γ hγ => ih responses hγ
      · exact ih _ hi

/-- a long poll that listens -/
theorem longPoll (h : Listening store n quantity timeout P T I J F) (maxPoll interval : Int)
    (rounds : Nat) {γ : Γ} (hγ : F γ) (hclock : P (.mq .utcNow) γ)
    (hconnect : ∀ now γ', T (.mq .utcNow) now γ γ' → P (.connect n) γ' ∧
      ∀ b γ'', T (.connect n) b γ' γ'' → I b γ'') :
    Safe P T (fun _ γ' => F γ') (store.listeningPoll n quantity timeout maxPoll interval
        rounds) γ := by
  unfold MqStore.listeningPoll
  split
  · exact hγ
  · refine ⟨hclock, fun now γ₁ hm => ⟨(hconnect now γ₁ hm).1, fun b γ₂ hm₂ => ?_⟩⟩
    exact h.notifyLoop _ _ rounds ((hconnect now γ₁ hm).2 b γ₂ hm₂)

theorem stream {svc : MqService} (h : Listening svc.grpc.store n quantity timeout P T I J F)
    (rounds : Nat) {γ : Γ} (hoff : I false γ)
    (hconnect : P (.connect n) γ ∧ ∀ b γ', T (.connect n) b γ γ' → I b γ') :
    Safe P T (fun _ γ' => F γ') (svc.streamRead rounds n quantity timeout) γ := by
  have hlisten : Safe P T (fun r γ' => ∃ b, r = .ok b ∧ I b γ') (svc.listen n) γ := by
    unfold MqService.listen
    split
    · exact ⟨hconnect.1, fun b γ' hm => ⟨b, rfl, hconnect.2 b γ' hm⟩⟩
    · exact ⟨false, rfl, hoff⟩
  refine Safe.bind hlisten (fun b γ' hr => ?_) fun e γ' hr => ?_
  · obtain ⟨b', he, hi⟩ := hr
    obtain rfl := Except.ok.inj he
    exact h.streamLoop rounds [] hi
  · obtain ⟨b, he, -⟩ := hr
    cases he

end Listening

/-- a request is refused, or it is a task -/
theorem mqHandler_safe {Γ : Type} {P : NetStmt → Γ → Prop}
    {T : (st : NetStmt) → st.Res → Γ → Γ → Prop}
    {svc : MqService} {job : MqJob} {Q : PgAppResult MqResponse → Γ → Prop}
    {Q' : Except Status MqResponse → Γ → Prop} {γ : Γ}
    (h : Safe P T Q (svc.perform job.rounds (svc.taskOf job)) γ)
    (hoff : ∀ status, Q' (.error status) γ) (hQ : ∀ r γ, Q r γ → Q' (r.mapError Status.ofError) γ) :
    Safe P T Q' (svc.handler job) γ := by
  have htask : Safe P T Q' (NetProg.orStatus (svc.perform job.rounds (svc.taskOf job))) γ :=
    Safe.mapResult h hQ
  unfold MqService.handler
  cases job.client with
  | request rq => exact Safe.check_bind (fun _ _ => htask) hoff
  | store op => exact htask

end PgApp
