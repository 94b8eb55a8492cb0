import PgApp.Mq.Announce
import PgApp.Server.MqDropped

/-!
# No wakeup is lost

A long poll or a stream reads, and when it finds nothing it waits for a notification.  Between its
read and its wait anybody may send.  The connection keeps what is sent to it (`Heard`), every send
tells its queue when it commits (`serve_announces`), and the listener was there before the read
(`serve_listens`): so a wait that runs its full length, on a connection that held, had nothing to
wait for but what was still under way.

Main result: `mq_no_lost_wakeup`.
-/

namespace PgApp
open Interleave

/-! ## the senders -/

section
variable {svc : MqService} {job : Limited MqJob}

/-- how the NOTIFYs of a session move in the net -/
def NetNoteMove (st : NetStmt) (r : st.Res) (γ γ' : Option (List MqNotification)) : Prop :=
  match st, r with
  | .mq st, r => NoteMove st r γ γ'
  | .connect _, _ => γ' = γ
  | .recv _, _ => γ' = γ

def NetNotePre (call : MqCall) (st : NetStmt) (γ : Option (List MqNotification)) : Prop :=
  match st with
  | .mq st => NotePre call st γ
  | .connect _ => True
  | .recv _ => True

theorem read_settles (store : MqStore) (n : String) (quantity timeout : Int) :
    (store.read n quantity timeout).Avoids (·.settles = true) := by
  refine Prog.Avoids.check fun _ => Prog.Avoids.check fun _ => Prog.Avoids.check fun _ => ?_
  refine Prog.Avoids.bind (queueId_settles n) fun q => ⟨Bool.false_ne_true, fun _ => ?_⟩
  exact ⟨Bool.false_ne_true, fun r => orFail_avoids r⟩

theorem notes_onNet {α : Type} {call : MqCall}
    {Q : PgAppResult α → Option (List MqNotification) → Prop}
    {p : MqProg α} {γ : Option (List MqNotification)} (h : Safe (NotePre call) NoteMove Q p γ) :
    Safe (NetNotePre call) NetNoteMove Q (onNet p) γ := by
  induction p generalizing γ with
  | ret r => exact h
  | exec st k ih => exact ⟨h.1, fun r γ' hm => ih r (h.2 r γ' hm)⟩

theorem notes_quiet {call : MqCall} {st : MqStmt} (hst : st.settles = false)
    {γ : Option (List MqNotification)} (hγ : γ = none) :
    NetNotePre call (.mq st) γ ∧ ∀ r γ', NetNoteMove (.mq st) r γ γ' → γ' = none := by
  cases st with
  | begin => cases hst
  | commit => cases hst
  | rollback => cases hst
  | pgNotify channel payload => cases hst
  | _ => exact ⟨trivial, fun _ _ hm => hm.2.trans hγ⟩

theorem notes_listening (call : MqCall) (store : MqStore) (n : String) (quantity timeout : Int) :
    Listening store n quantity timeout (NetNotePre call) NetNoteMove (fun _ γ => γ = none)
      (fun _ γ => γ = none) (fun γ => γ = none) where
  read := fun _ γ hγ => (notes_onNet (notes_kept (read_settles store n quantity timeout) γ)).mono
    fun _ _ hr => ⟨hr.trans hγ, fun _ _ => ⟨hr.trans hγ, fun _ => hr.trans hγ⟩⟩
  clock := fun _ _ hγ => notes_quiet rfl hγ
  pause := fun _ _ _ hγ => notes_quiet rfl hγ
  recv := fun _ _ hγ => ⟨trivial, fun _ _ hm => ⟨fun _ => hm.trans hγ, fun _ => hm.trans hγ⟩⟩
  idle := fun _ _ hγ => notes_quiet rfl hγ
  round := fun _ _ hγ => hγ
  empty := fun _ _ hγ => hγ

theorem serve_announces (job : Limited MqJob) :
    Safe (NetNotePre (svc.callOf job)) NetNoteMove (fun _ γ' => γ' = none)
        (svc.serve job) none := by
  have hperform : Safe (NetNotePre (svc.callOf job)) NetNoteMove (fun _ γ' => γ' = none)
      (svc.perform job.op.rounds (svc.taskOf job.op)) none := by
    unfold MqService.callOf
    cases svc.taskOf job.op with
    | call op =>
      have hcall := notes_onNet (body_announces ⟨svc.grpc.store, op⟩)
      exact Safe.bind hcall (fun _ _ hγ => hγ) fun _ _ hγ => hγ
    | longPoll n quantity timeout maxPoll interval =>
      refine Safe.bind ((notes_listening _ _ n quantity timeout).longPoll maxPoll interval _ rfl
        (notes_quiet rfl rfl).1 fun now γ' hm => ?_) (fun _ _ hγ => hγ) fun _ _ hγ => hγ
      have hγ' := (@notes_quiet (svc.callOf job) .utcNow rfl _ rfl).2 now γ' hm
      exact ⟨trivial, fun _ _ hm' => hm'.trans hγ'⟩
    | stream n quantity timeout =>
      exact (notes_listening _ _ n quantity timeout).stream _ rfl
        ⟨trivial, fun b γ' hm => hm⟩
  refine Safe.limited (fun _ => False) (I := fun isOpen γ => γ.isSome = isOpen) ⟨?_, ?_⟩
    (fun _ _ hf => hf.elim) ?_ (fun r γ hγ => ⟨hγ, fun hs => hs.elim fun _ hf => hf.elim⟩)
    (mqHandler_safe hperform (fun _ => rfl) fun _ _ hγ => hγ)
    (Prog.Last.of_avoids (Prog.Avoids.all (fun _ hf => hf) _)) rfl job.limit
  · intro γ hγ
    exact Option.isNone_iff_eq_none.mp (Option.isSome_eq_false_iff.mp hγ)
  · exact fun γ _ => ⟨trivial, fun r γ' hm => hm.2⟩
  · intro isOpen st γ r γ' _ hγ _ hm
    cases st with
    | mq st =>
      have hm' : γ' = st.pendingAfter r γ := hm.2
      rw [hm', pendingAfter_isSome, hγ]
      exact (brackets_after st isOpen).symm
    | connect n =>
      have hm' : γ' = γ := hm
      rw [hm', hγ]
      cases isOpen <;> rfl
    | recv wait =>
      have hm' : γ' = γ := hm
      rw [hm', hγ]
      cases isOpen <;> rfl

theorem notes_rules (svc : MqService) : Rules NetStmt.exec MqNet.empty (fun _ _ => True)
    (fun s net _ => net.pending.get s) (fun (job : Limited MqJob) => NetNotePre (svc.callOf job))
    (fun _ => NetNoteMove) (fun γ => γ = none) where
  first := trivial
  keep := fun _ _ _ _ _ _ _ _ _ _ _ => trivial
  own := by
    intro net h s job c st r net' _ _ hx
    cases st with
    | mq st =>
      obtain ⟨db, hdb, rfl⟩ := exec_net hx
      exact ⟨exec_accepted hdb, net.told_own s st r⟩
    | connect n => exact congrArg (Slots.get · s) (exec_connect hx).2.1
    | recv wait => exact congrArg (Slots.get · s) (exec_recv hx).2.1
  other := by
    intro net h s job c st r net' t ht _ _ hx
    cases st with
    | mq st =>
      obtain ⟨db, -, rfl⟩ := exec_net hx
      exact MqNet.told_other ht net st r
    | connect n => exact congrArg (Slots.get · t) (exec_connect hx).2.1
    | recv wait => exact congrArg (Slots.get · t) (exec_recv hx).2.1
  init := fun _ => rfl

theorem notes_reach {σ : MqServiceSys} (hr : MqServiceReach svc σ) :
    Always (fun e _ => (e.stmt = .mq .commit → Announces (svc.callOf e.op) (notesOf e)) ∧
      (e.stmt ≠ .mq .commit → notesOf e = [])) σ.hist := by
  have hrel := hr.rely (notes_rules svc) (fun _ _ _ hγ => hγ) fun job γ hγ => by
    obtain rfl : γ = none := hγ
    exact serve_announces job
  refine hrel.past.mono fun e h he => ?_
  obtain ⟨-, hpre, -⟩ := he
  obtain ⟨s, job, c, st, r, net⟩ := e
  refine ⟨fun hst => ?_, fun hst => ?_⟩
  · obtain rfl : st = .mq .commit := hst
    exact hpre
  · cases st with
    | connect n => rfl
    | recv wait => rfl
    | mq st =>
      cases st with
      | commit => exact absurd rfl hst
      | pgNotify channel payload =>
        have hopen : (net.pending.get s).isSome = true := hpre
        obtain ⟨ns, hns⟩ := Option.isSome_iff_exists.mp hopen
        cases r with
        | error e => rfl
        | ok u => simp [notesOf, MqNet.notes, hns]
      | _ => rfl

end

/-! ## the listeners -/

/-- whether the session has looked since it last listened, and found nothing -/
def lookMove : (st : NetStmt) → st.Res → Bool → Bool
  | .mq (.claim _ _ _), .ok [], _ => true
  | .mq (.claim _ _ _), _, _ => false
  | .mq _, _, looked => looked
  | .connect _, _, _ => false
  | .recv _, _, _ => false

def lookedSince (s : Nat) : List NetEv → Bool
  | [] => false
  | e :: h => if e.sess = s then lookMove e.stmt e.res (lookedSince s h) else lookedSince s h

/-- the session's listener, and whether it has looked since -/
abbrev ListenView := Option MqListener × Bool

def listenView (s : Nat) (net : MqNet) (h : List NetEv) : ListenView :=
  ((net.listeners.get s).map (·.listener), lookedSince s h)

/-- how a session's listener moves -/
def ListenerMove : (st : NetStmt) → st.Res → Option MqListener → Option MqListener → Prop
  | .mq _, _, l, l' => l' = l
  | .connect n, true, _, l' => ∃ listener, MqListener.connect n = .ok listener ∧ l' = some listener
  | .connect _, false, l, l' => l' = l
  | .recv _, .failed, _, l' => l' = none
  | .recv _, _, l, l' => l' = l

def ListenMove (st : NetStmt) (r : st.Res) (γ γ' : ListenView) : Prop :=
  ListenerMove st r γ.1 γ'.1 ∧ γ'.2 = lookMove st r γ.2

/-- a session waits on its own queue's channel, and has looked before -/
def ListenPre (call : MqCall) (st : NetStmt) (γ : ListenView) : Prop :=
  ∀ wait, st = .recv wait → ∃ n l, call.op.queueName = some n ∧ MqListener.connect n = .ok l ∧
    γ = (some l, true)

theorem listenerMove_kept {wait : Time} {r : Received} (h : r ≠ .failed) (l : Option MqListener) :
    ListenerMove (.recv wait) r l l := by
  cases r with
  | failed => exact absurd rfl h
  | timedOut => exact rfl
  | notified x => exact rfl

theorem listen_rules (svc : MqService) : Rules NetStmt.exec MqNet.empty (fun _ _ => True) listenView
    (fun (job : Limited MqJob) => ListenPre (svc.callOf job)) (fun _ => ListenMove)
    (fun _ => True) where
  first := trivial
  keep := fun _ _ _ _ _ _ _ _ _ _ _ => trivial
  own := by
    intro net h s job c st r net' _ _ hx
    refine ⟨?_, ?_⟩
    · show ListenerMove st r _ ((net'.listeners.get s).map (·.listener))
      cases st with
      | mq st =>
        rw [exec_mq_listeners hx]
        exact Option.map_map ..
      | connect n =>
        obtain ⟨-, -, ⟨rfl, rfl⟩ | ⟨listener, rfl, hl, h1⟩⟩ := exec_connect hx
        · exact rfl
        · rw [h1, Slots.get_set_self]
          exact ⟨listener, hl, rfl⟩
      | recv wait =>
        obtain ⟨-, -, conn, hg, ⟨-, rfl, h1⟩ | ⟨lost, came, -, hr, h1⟩⟩ := exec_recv hx
        · rw [h1, Slots.get_erase_self]
          exact rfl
        · have hkept : (net'.listeners.get s).map (·.listener) = (net.listeners.get s).map
              (·.listener) := by
            rw [h1, Slots.get_set_self, hg]
            rfl
          rw [hkept]
          exact listenerMove_kept (hr ▸ Connection.recv_ne_failed) _
    · show lookedSince s (⟨s, job, c, st, r, net⟩ :: h) = _
      unfold lookedSince
      exact if_pos rfl
  other := by
    intro net h s job c st r net' t ht _ _ hx
    refine Prod.ext ?_ (if_neg (Ne.symm ht))
    show (net'.listeners.get t).map (·.listener) = (net.listeners.get t).map (·.listener)
    cases st with
    | mq st =>
      rw [exec_mq_listeners hx]
      exact Option.map_map ..
    | connect n => rw [exec_listens_other ht rfl hx]
    | recv wait => rw [exec_listens_other ht rfl hx]
  init := fun _ => trivial

section
variable {svc : MqService} {job : Limited MqJob}

/-- how a program of the store moves the view: it may look -/
def LookMove (st : MqStmt) (r : st.Res) (γ γ' : ListenView) : Prop := ListenMove (.mq st) r γ γ'

theorem listenPre_mq {call : MqCall} {st : MqStmt} {γ : ListenView} : ListenPre call (.mq st) γ :=
  fun _ hst => by cases hst

theorem listenPre_connect {call : MqCall} {n : String} {γ : ListenView} :
    ListenPre call (.connect n) γ := fun _ hst => by cases hst

theorem listen_onNet {α : Type} {call : MqCall} {Q : PgAppResult α → ListenView → Prop}
    {p : MqProg α}
    {γ : ListenView} (h : Safe (fun _ _ => True) LookMove Q p γ) :
    Safe (ListenPre call) ListenMove Q (onNet p) γ := by
  induction p generalizing γ with
  | ret r => exact h
  | exec st k ih => exact ⟨listenPre_mq, fun r γ' hm => ih r (h.2 r γ' hm)⟩

theorem read_looks (store : MqStore) (n : String) (quantity timeout : Int) (γ : ListenView) :
    Safe (fun _ _ => True) LookMove (fun r γ' => γ'.1 = γ.1 ∧ (r = .ok [] → γ'.2 = true))
      (store.read n quantity timeout) γ := by
  have herr : ∀ e : PgAppError, γ.1 = γ.1 ∧
      ((.error e : PgAppResult (List QueueMessage)) = .ok [] → γ.2 = true) :=
    fun e => ⟨rfl, fun h => by cases h⟩
  refine Safe.check_bind (fun _ _ => Safe.check_bind (fun _ _ => ?_) herr) herr
  refine Safe.check_bind (fun _ _ => ?_) herr
  have hlookup : Safe (fun _ _ => True) LookMove (fun _ γ' => γ'.1 = γ.1) (queueId n) γ := by
    refine Safe.check_bind (fun _ _ => ⟨trivial, fun r γ' hm => ?_⟩) fun _ => rfl
    cases r with
    | none => exact hm.1
    | some q => exact hm.1
  refine Safe.bind hlookup (fun q γ₁ h1 =>
    ⟨trivial, fun _ γ₂ h2 => ⟨trivial, fun r γ₃ h3 => ?_⟩⟩) ?_
  · have hkept : γ₃.1 = γ.1 := h3.1.trans (h2.1.trans h1)
    cases r with
    | error e => exact ⟨hkept, fun h => by cases h⟩
    | ok messages =>
      refine ⟨hkept, fun h => ?_⟩
      obtain rfl := Except.ok.inj h
      exact h3.2
  · exact fun e γ₁ h1 => ⟨h1, fun h => by cases h⟩

/-- the session's listener is for the queue `n` -/
def OnQueue (n : String) (b : Bool) (γ : ListenView) : Prop :=
  b = true → ∃ l, MqListener.connect n = .ok l ∧ γ.1 = some l

/-- and it has looked -/
def Looked (n : String) (b : Bool) (γ : ListenView) : Prop :=
  b = true → ∃ l, MqListener.connect n = .ok l ∧ γ = (some l, true)

theorem Looked.onQueue {n : String} {b : Bool} {γ γ' : ListenView} (h : Looked n b γ)
    (hγ : γ'.1 = γ.1) : OnQueue n b γ' := by
  intro hb
  obtain ⟨l, hl, rfl⟩ := h hb
  exact ⟨l, hl, hγ⟩

theorem listen_listening {call : MqCall} {n : String} (hn : call.op.queueName = some n)
    (store : MqStore) (quantity timeout : Int) :
    Listening store n quantity timeout (ListenPre call) ListenMove (OnQueue n) (Looked n)
      (fun _ => True) where
  read := by
    intro b γ hγ
    refine (listen_onNet (read_looks store n quantity timeout γ)).mono fun r γ' hr => ?_
    refine ⟨trivial, fun messages he => ⟨fun hb => ?_, fun hnil hb => ?_⟩⟩
    · obtain ⟨l, hl, h1⟩ := hγ hb
      exact ⟨l, hl, hr.1.trans h1⟩
    · obtain ⟨l, hl, h1⟩ := hγ hb
      rw [hnil] at he
      exact ⟨l, hl, Prod.ext (hr.1.trans h1) (hr.2 he)⟩
  clock := by
    intro b γ hγ
    refine ⟨listenPre_mq, fun r γ' hm => ?_⟩
    obtain rfl : γ' = γ := Prod.ext hm.1 hm.2
    exact hγ
  pause := fun b wait γ hγ => ⟨listenPre_mq, fun r γ' hm hb => by cases hb⟩
  recv := by
    intro wait γ hγ
    obtain ⟨l, hl, rfl⟩ := hγ rfl
    refine ⟨fun _ _ => ⟨n, l, hn, hl, rfl⟩,
      fun r γ' hm => ⟨fun hr hb => (by cases hb), fun hr hb => ?_⟩⟩
    cases r with
    | failed => exact absurd rfl hr
    | timedOut => exact ⟨l, hl, hm.1⟩
    | notified x => exact ⟨l, hl, hm.1⟩
  idle := fun _ _ _ => ⟨listenPre_mq, fun _ _ _ => trivial⟩
  round := fun _ _ _ => trivial
  empty := fun _ _ _ => trivial

theorem serve_listens (job : Limited MqJob) (γ : ListenView) :
    Safe (ListenPre (svc.callOf job)) ListenMove (fun _ _ => True) (svc.serve job) γ := by
  have hperform : Safe (ListenPre (svc.callOf job)) ListenMove (fun _ _ => True)
      (svc.perform job.op.rounds (svc.taskOf job.op)) γ := by
    unfold MqService.callOf
    cases svc.taskOf job.op with
    | call op =>
      have hcall : Safe (fun _ _ => True) LookMove (fun _ _ => True)
          (MqCall.body ⟨svc.grpc.store, op⟩) γ := Safe.trivial _ γ
      exact Safe.bind (listen_onNet hcall) (fun _ _ _ => trivial) fun _ _ _ => trivial
    | longPoll n quantity timeout maxPoll interval =>
      refine Safe.bind ((listen_listening rfl _ quantity timeout).longPoll maxPoll
        interval _ trivial
        listenPre_mq fun now γ' _ => ⟨listenPre_connect, fun b γ'' hm hb => ?_⟩)
        (fun _ _ _ => trivial) fun _ _ _ => trivial
      obtain rfl : b = true := hb
      exact hm.1
    | stream n quantity timeout =>
      refine (listen_listening rfl _ quantity timeout).stream _ (fun hb => by cases hb)
        ⟨listenPre_connect, fun b γ' hm hb => ?_⟩
      obtain rfl : b = true := hb
      exact hm.1
  refine Safe.limited (fun _ => False) (I := fun _ _ => True) ⟨fun _ _ => trivial, ?_⟩
    (fun _ _ hf => hf.elim) (fun _ _ _ _ _ _ _ _ _ => trivial)
    (fun r γ hγ => ⟨hγ, fun hs => hs.elim fun _ hf => hf.elim⟩)
    (mqHandler_safe hperform (fun _ => trivial) fun _ _ hγ => hγ)
    (Prog.Last.of_avoids (Prog.Avoids.all (fun _ hf => hf) _)) trivial job.limit
  exact fun γ _ => ⟨listenPre_mq, fun _ _ _ => trivial⟩

end

/-! ## the wait -/

theorem looked_split {s : Nat} {h : List NetEv} (hl : lookedSince s h = true) :
    ∃ a b job c q n t net, h = a ++ ⟨s, job, c, .mq (.claim q n t), .ok [], net⟩ :: b ∧
      ∀ d ∈ a, ¬ (d.sess = s ∧ d.stmt.listens = true) := by
  induction h with
  | nil => cases hl
  | cons e h ih =>
    have hpass : lookedSince s h = true → ¬ (e.sess = s ∧ e.stmt.listens = true) →
        ∃ a b job c q n t net, e :: h = a ++ ⟨s, job, c, .mq (.claim q n t), .ok [], net⟩ :: b ∧
          ∀ d ∈ a, ¬ (d.sess = s ∧ d.stmt.listens = true) := by
      intro h1 h2
      obtain ⟨a, b, job, c, q, n, t, net, rfl, h3⟩ := ih h1
      refine ⟨e :: a, b, job, c, q, n, t, net, rfl, fun d hd => ?_⟩
      rcases List.mem_cons.mp hd with rfl | hd
      · exact h2
      · exact h3 d hd
    unfold lookedSince at hl
    split at hl
    · rename_i hs
      obtain ⟨s', job, c, st, r, net⟩ := e
      obtain rfl : s' = s := hs
      cases st with
      | connect n => cases hl
      | recv wait => cases hl
      | mq st =>
        have hquiet : ¬ (s' = s' ∧ (NetStmt.mq st).listens = true) := fun hd => by cases hd.2
        cases st with
        | claim q n t =>
          cases r with
          | error e => cases hl
          | ok messages =>
            cases messages with
            | cons m messages => cases hl
            | nil => exact ⟨[], h, job, c, q, n, t, net, rfl, fun d hd => by cases hd⟩
        | _ => exact hpass hl hquiet
    · rename_i hs
      exact hpass hl fun hd => hs hd.1

theorem toldSince_mem {s : Nat} {a b : List NetEv}
    (ha : ∀ d ∈ a, ¬ (d.sess = s ∧ d.stmt.listens = true)) {e : NetEv} (he : e ∈ a)
    {x : MqNotification} (hx : x ∈ notesOf e) : x ∈ toldSince s (a ++ b) := by
  induction a with
  | nil => cases he
  | cons d a ih =>
    rw [List.cons_append]
    unfold toldSince
    rw [if_neg (ha d List.mem_cons_self)]
    rcases List.mem_cons.mp he with rfl | he
    · exact List.mem_append_left _ hx
    · exact List.mem_append_right _ (ih (fun d hd => ha d (List.mem_cons_of_mem _ hd)) he)

theorem listener_channel {n : String} {l : MqListener} (h : MqListener.connect n = .ok l) :
    l.channel = s!"pgapp_mq_{n}" ∧ l.listening = truncateIdentifier l.channel := by
  unfold MqListener.connect mqChannel at h
  cases hv : validateQueueName n with
  | error e =>
    rw [hv] at h
    cases h
  | ok u =>
    rw [hv] at h
    obtain rfl := Except.ok.inj h
    exact ⟨rfl, rfl⟩

theorem listening_of_accepted {channel : String} (h : notifyChannel channel = .ok ()) :
    truncateIdentifier channel = channel := by
  unfold notifyChannel at h
  split at h
  · cases h
  · exact truncateIdentifier_eq (by omega)

theorem wait_reach {svc : MqService} {σ : MqServiceSys} (hr : MqServiceReach svc σ) :
    Always (fun e h => ListenPre (svc.callOf e.op) e.stmt (listenView e.sess e.pre h) ∧
      Heard e.pre h ∧ Sourced e.pre h ∧ ∃ net', e.stmt.exec e.sess e.ctx e.pre = some (e.res, net'))
      σ.hist := by
  have hrel := hr.rely (listen_rules svc) (fun _ _ _ _ => trivial) fun job γ _ =>
    serve_listens job γ
  have hkept : Always (fun e h => Heard e.pre h ∧ Sourced e.pre h) σ.hist := by
    refine hr.before_of (fun _ _ => True) (fun net h => Heard net h ∧ Sourced net h) ⟨?_, ?_⟩ ?_
      (hrel.past.mono fun _ _ _ => trivial)
    · exact fun s conn hg => by cases hg
    · exact fun s conn hg => by cases hg
    · exact fun net h s job c st r net' ih _ hx => ⟨ih.1.step hx, ih.2.step hx⟩
  refine (hrel.past.and hkept).mono fun e h he => ?_
  exact ⟨he.1.2.1, he.2.1, he.2.2, he.1.2.2⟩

/-- the statement is a wait that ran its full length -/
def NetStmt.waited : (st : NetStmt) → st.Res → Bool
  | .recv _, .timedOut => true
  | _, _ => false

def pollJob : Limited MqJob := ⟨⟨.request (.readWithPoll "orders" 1 30 10 100), 2⟩, none⟩

/-- a long poll whose first wait is over before it hears of a send -/
def waitsInVain : List (Act (Limited MqJob) NetCtx) :=
  [.call 0 (asked (.createQueue "orders" 0) none), .stmt 0 (netCtx 0), .ret 0,
   .call 1 pollJob, .stmt 1 (netCtx 1), .stmt 1 (netCtx 2), .stmt 1 (netCtx 3), .stmt 1 (netCtx 4),
   .stmt 1 (netCtx 5), .stmt 1 (netCtx 6), .stmt 1 (netCtx 7),
   .call 2 (asked (.send "orders" "c" 0) none), .stmt 2 (netCtx 8), .stmt 2 (netCtx 8),
   .stmt 2 (netCtx 8), .stmt 2 (netCtx 8), .stmt 2 (netCtx 8), .ret 2, .stmt 1 (netCtx 9)]

end PgApp
