import PgApp.Config.SerialAnswers
import PgApp.Server.ConfigService

/-!
# The Config Center is a serial store of documents

The service as a whole, for any number of clients whose requests are interleaved statement by
statement and given up anywhere: its tables are the documents that one request after the other would
have made, in the order of the COMMITs, and every answer is that of its request at its place in this
order.

* `ConfigEv.does`              what a statement does to the documents;
* `ConfigService.Answers`      what the statements of a finished job have to do with its answer;
* `config_serial`              both, in every run.
-/

namespace PgApp
open Interleave

/-- a COMMIT does all of its call, the other statements nothing -/
def ConfigEv.does (e : ConfigEv) (docs docs' : ConfigDocs) : Prop :=
  match e.stmt with
  | .commit => ∃ answer, e.op.Does (e.pre.tx e.sess).startedAt docs (.ok answer) docs'
  | _ => docs' = docs

/-- the answer of the service for an answer of the store -/
def ConfigOp.reply (op : ConfigOp) (r : PgAppResult ConfigReturn) : Except Status ConfigResponse :=
  (r.mapError Status.ofError).map op.response

/-- the job was given up: nothing is committed, or its call is done all the same -/
def GivenUp (call : ConfigCall) (limit : Option Nat) (answer : Except Status ConfigResponse)
    (part : List ConfigEv) : Prop :=
  limit ≠ none ∧ answer = .error timedOut ∧
    ((∀ e ∈ part, ConfigEv.silent e) ∨ ∃ r, ConfigAnswered call r part)

/-- what a finished job and its statements have to do with each other -/
def ConfigService.Answers (svc : ConfigService) (job : Limited ConfigJob)
    (answer : Except Status ConfigResponse) (part : List ConfigEv) : Prop :=
  match svc.opFor job.op with
  | .error status =>
    part = [] ∧ (answer = .error status ∨ job.limit ≠ none ∧ answer = .error timedOut)
  | .ok op => (∃ r, answer = op.reply r ∧ ConfigAnswered ⟨svc.grpc.store, op⟩ r part) ∨
      GivenUp ⟨svc.grpc.store, op⟩ job.limit answer part

/-! ## one job -/

section
variable {svc : ConfigService} {job : Limited ConfigJob} {l : List ConfigEv}

theorem callOf_eq {op : ConfigOp} (h : svc.opFor job.op = .ok op) :
    svc.callOf job = ⟨svc.grpc.store, op⟩ := by
  unfold ConfigService.callOf
  rw [h]
  rfl

/-- outside a transaction, and nothing committed -/
def Between (l : List ConfigEv) (isOpen : Bool) (x : ConfigView × List ConfigEv) : Prop :=
  (isOpen = false → x.1 = none) ∧ ∃ new, x.2 = new ++ l ∧ ∀ e ∈ new, ConfigEv.silent e

theorem stays_outside {call : ConfigCall} {st : ConfigStmt} {r : st.Res} {γ' : ConfigView}
    (ho : ConfigStmt.brackets.after false st = false) (hp : configPre call st none)
    (hm : configMove call st r none γ') : γ' = none := by
  have hheld : ∀ id, ¬ HoldsId id none := by
    intro id hid
    obtain ⟨t, row, p, h, -⟩ := hid
    cases h
  cases st with
  | begin => cases ho
  | ensureScope scope =>
    obtain ⟨time, h⟩ := hp
    cases h
  | selectCurrentRevision id => exact absurd hp (hheld id)
  | selectActiveItems id => exact absurd hp (hheld id)
  | selectSchema id => exact absurd hp (hheld id)
  | insertRelease id revision snapshot checksum message publishedBy => exact absurd hp (hheld id)
  | updateCurrentRevision id revision => exact absurd hp (hheld id)
  | updateSchema id schema => exact absurd hp (hheld id)
  | upsertItem id key value deleted => exact absurd hp (hheld id)
  | _ => exact hm

theorem Between.step {call : ConfigCall} {isOpen : Bool} {st : ConfigStmt} {r : st.Res}
    {x x' : ConfigView × List ConfigEv} (hst : st ≠ .commit) (h : Between l isOpen x)
    (hp : serialPre call st x) (hm : SerialMove call st r x x') :
    Between l (ConfigStmt.brackets.after isOpen st) x' := by
  obtain ⟨hnone, new, hl, hnew⟩ := h
  obtain ⟨hγ, s, c, db, l₀, d', -, -, -, -, -, hl'⟩ := hm
  refine ⟨fun ho => ?_, ⟨s, call, c, st, r, db⟩ :: new, by rw [hl', hl]; rfl, fun e he => ?_⟩
  · cases isOpen with
    | false =>
      have h1 := hp.1
      rw [hnone rfl] at h1 hγ
      exact stays_outside ho h1 hγ
    | true =>
      -- only a ROLLBACK closes the transaction here
      cases st <;> first | exact hγ | exact absurd rfl hst | cases ho
  · rcases List.mem_cons.mp he with rfl | he
    · exact hst
    · exact hnew e he

/-- a job that is admitted and not given up is its call -/
theorem handler_answered {op : ConfigOp} (h : svc.opFor job.op = .ok op) :
    Safe (serialPre (svc.callOf job)) (SerialMove (svc.callOf job))
      (fun answer x => x.1 = none ∧ ∃ new, x.2 = new ++ l ∧
        ∃ r, answer = op.reply r ∧ ConfigAnswered ⟨svc.grpc.store, op⟩ r new)
      (svc.handler job.op) (none, l) := by
  have hbody := body_answered (svc.callOf job) l
  rw [callOf_eq h] at hbody ⊢
  unfold ConfigService.handler
  rw [h]
  have hmapped : Safe (serialPre ⟨svc.grpc.store, op⟩) (SerialMove ⟨svc.grpc.store, op⟩)
      (fun answer x => x.1 = none ∧ ∃ new, x.2 = new ++ l ∧
        ∃ r, answer = Except.mapError Status.ofError r ∧ ConfigAnswered ⟨svc.grpc.store, op⟩ r new)
      ((ConfigCall.body ⟨svc.grpc.store, op⟩).mapResult (·.mapError Status.ofError)) (none, l) := by
    refine Safe.mapResult hbody fun r x hx => ?_
    obtain ⟨hidle, new, hl, hr⟩ := hx
    exact ⟨hidle, new, hl, r, rfl, hr⟩
  show Safe _ _ _ ((ConfigCall.body ⟨svc.grpc.store, op⟩).mapResult (·.mapError Status.ofError) >>=
    fun answer => pure (op.response answer)) _
  refine Safe.bind hmapped (fun answer x hx => ?_) fun e x hx => ?_
  · obtain ⟨hidle, new, hl, r, hans, hr⟩ := hx
    exact ⟨hidle, new, hl, r, congrArg (Except.map op.response) hans, hr⟩
  · obtain ⟨hidle, new, hl, r, hans, hr⟩ := hx
    exact ⟨hidle, new, hl, r, congrArg (Except.map op.response) hans, hr⟩

theorem handler_ends (job : ConfigJob) : (svc.handler job).Last (· = .commit) := by
  refine Prog.Last.bind trivial fun op => ?_
  rw [Prog.bind_pure_eq]
  exact (body_last _).mapResult.mapResult

/-- **A job that may be given up.** -/
theorem serve_answered (job : Limited ConfigJob) (l : List ConfigEv) :
    Safe (serialPre (svc.callOf job)) (SerialMove (svc.callOf job))
      (fun answer x => x.1 = none ∧ ∃ new, x.2 = new ++ l ∧ svc.Answers job answer new)
      (svc.serve job) (none, l) := by
  unfold ConfigService.Answers
  cases h : svc.opFor job.op with
  | error status =>
    have hrefused : svc.handler job.op = .ret (.error status) := by
      unfold ConfigService.handler
      rw [h]
      rfl
    unfold ConfigService.serve Prog.limited
    rw [hrefused]
    cases hlim : job.limit with
    | none => exact ⟨rfl, [], rfl, rfl, .inl rfl⟩
    | some n =>
      cases n with
      | zero => exact ⟨rfl, [], rfl, rfl, .inr ⟨by simp, rfl⟩⟩
      | succ n => exact ⟨rfl, [], rfl, rfl, .inl rfl⟩
  | ok op =>
    have hdone := handler_answered (l := l) h
    cases hlim : job.limit with
    | none =>
      unfold ConfigService.serve Prog.limited
      rw [hlim]
      refine hdone.mono fun answer x hx => ?_
      obtain ⟨hidle, new, hl, hr⟩ := hx
      exact ⟨hidle, new, hl, .inl hr⟩
    | some n =>
      have hlate : (some n : Option Nat) ≠ none := by simp
      refine Safe.limited (· = .commit) (I := Between l) ⟨fun x hx => ?_, fun x hx => ?_⟩
        (fun st isOpen hst => ?_) (fun isOpen st x r x' hst hx hp hm => hx.step hst hp hm)
        (fun answer x hx => ?_) hdone (handler_ends job.op)
          ⟨fun _ => rfl, [], rfl, by simp⟩ job.limit
      · obtain ⟨hidle, new, hl, hnew⟩ := hx
        exact ⟨hidle rfl, new, hl, .inr ⟨hlate, rfl, .inl hnew⟩⟩
      · have hpre : serialPre (svc.callOf job) .rollback x := by
          refine ⟨trivial, fun hc => ?_⟩
          cases hc
        refine ⟨hpre, fun r x' hm => ?_⟩
        obtain ⟨hidle, new, hl, hnew⟩ := hx.step (by simp : ConfigStmt.rollback ≠ .commit) hpre hm
        exact ⟨hidle rfl, new, hl, .inr ⟨hlate, rfl, .inl hnew⟩⟩
      · subst hst
        cases isOpen <;> rfl
      · obtain ⟨hidle, new, hl, r, hans, hr⟩ := hx
        exact ⟨⟨hidle, new, hl, .inl ⟨r, hans, hr⟩⟩, fun _ =>
          ⟨hidle, new, hl, .inr ⟨hlate, rfl, .inr ⟨r, hr⟩⟩⟩⟩

end

/-! ## the run -/

section
variable {svc : ConfigService} {σ : ConfigServiceSys}

/-- what every statement of the service found -/
def FoundDocs (e : ConfigEv) (h : List ConfigEv) : Prop :=
  ConfigMinds e.pre h ∧ serialPre e.op e.stmt (configView e.sess e.pre h, ownEvents e.sess h)

theorem ConfigServiceReach.found (hr : ConfigServiceReach svc σ) :
    Always FoundDocs (svc.part.history σ.hist) := by
  have h := hr.rely (svc.part.rules serialRules rfl) (Q := fun _ _ x => x.1 = none)
    (fun _ _ _ hx => hx)
    fun job x hx => ?_
  · refine Part.always_history (h.past.mono ?_)
    intro e l hl d hd
    obtain ⟨hG, hP, -⟩ := hl
    obtain rfl := Option.some.inj hd
    exact ⟨hG, hP e.res _ rfl⟩
  · obtain ⟨γ, l⟩ := x
    obtain rfl : γ = none := hx
    exact Safe.same ((serve_answered job l).mono fun _ _ hx => hx.1)

/-- a statement where it was found -/
theorem FoundDocs.does {db db' : ConfigDb} {h : List ConfigEv} {s : Nat}
    {call : ConfigCall} {c : Time}
    {st : ConfigStmt} {r : st.Res} (hf : FoundDocs ⟨s, call, c, st, r, db⟩ h)
    (hx : ConfigStmt.exec s c st db = some (r, db')) :
    ConfigEv.does ⟨s, call, c, st, r, db⟩ db.tables.docs db'.tables.docs := by
  obtain ⟨⟨L, -⟩, -, hmade⟩ := hf
  by_cases hst : st = .commit
  · subst hst
    obtain rfl := congrArg Prod.snd (Option.some.inj hx)
    obtain ⟨answer, t, p, hv, hm⟩ :
        ∃ answer t p, configView s db h = some (t, some p) ∧ Made call answer t p := hmade rfl
    obtain ⟨hg, -⟩ := get_of_configView hv
    have htx : db.tx s = t := by
      unfold ConfigDb.tx
      rw [hg]
      rfl
    have hdoes := docs_commit L hv hm
    rw [← htx] at hdoes
    exact ⟨answer, hdoes⟩
  · have hsame : db'.tables.docs = db.tables.docs := by rw [(exec_txOnly hst hx).1]
    unfold ConfigEv.does
    split
    · rename_i hc
      exact absurd hc hst
    · exact hsame

theorem ConfigServiceReach.answers (hr : ConfigServiceReach svc σ) (s : Nat) :
    ∃ run parts, ownEvents s (svc.part.history σ.hist) = run ++ parts.flatten ∧
      List.Forall₂ (fun x part => svc.Answers x.2.1 x.2.2 part)
          (σ.done.filter (·.1 == s)) parts := by
  have hgrows : ∀ job st r (x x' : ConfigView × List ConfigEv),
    svc.part.Moves SerialMove job st r x x' →
      ∃ new, x'.2 = new ++ x.2 := by
    intro job st r x x' hm
    obtain ⟨-, s, c, db, l, d', -, -, -, -, -, hl⟩ := hm.1 _ rfl
    exact ⟨[_], hl⟩
  obtain ⟨run, parts, h1, h2, -⟩ := hr.logged (svc.part.rules serialRules rfl) (fun x => x.2) hgrows
    (fun job answer part => svc.Answers job answer part) (fun job x hx => by
      obtain ⟨γ, l⟩ := x
      obtain rfl : γ = none := hx
      exact Safe.same (serve_answered job l)) s rfl
  exact ⟨run, parts, h1, h2⟩

end

/-- **The Config Center is a serial store of documents.**  In every run of the service, with
requests interleaved statement by statement and given up anywhere, its tables are the documents that
the COMMITs make one after the other, and so are those that any statement found; the statements of a
session fall into one part for each finished job, and each answer is what its call says of the
documents at one statement of its part, all at once; a job that was given up has committed nothing
or done its call.
-/
theorem config_serial (svc : ConfigService) (σ : ConfigServiceSys) (hr : ConfigServiceReach svc σ) :
    Serial ConfigEv.does (fun _ => none) (svc.part.history σ.hist) σ.db.tables.docs ∧
    Always (fun e h => Serial ConfigEv.does (fun _ => none) h e.pre.tables.docs)
      (svc.part.history σ.hist) ∧
    ∀ s, ∃ run parts, ownEvents s (svc.part.history σ.hist) = run ++ parts.flatten ∧
      List.Forall₂ (fun x part => svc.Answers x.2.1 x.2.2 part)
          (σ.done.filter (·.1 == s)) parts := by
  obtain ⟨h1, h2⟩ := Part.serial (π := svc.part)
    (fun db : ConfigDb => db.tables.docs) ConfigEv.does FoundDocs
    (fun db h s op c st r db' hf hx => hf.does hx) hr (ConfigServiceReach.found hr)
  exact ⟨h1, h2, ConfigServiceReach.answers hr⟩

/-- a server that reads one JSON text -/
def documents : ConfigService where
  grpc := ⟨strictStore, true⟩
  fromStr := fun payload => if payload = "true" then .ok (.bool true) else .error "expected value"

def askedFor (rq : ConfigRequest) (limit : Option Nat) : Limited ConfigJob :=
    ⟨⟨.request rq, 0⟩, limit⟩

/-- `n` statements of session `s` of the service, from time `c` on -/
def statements (s : Nat) (c : Time) (n : Nat) : List (Act (Limited ConfigJob) Time) :=
  (List.range n).map fun i : Nat => .stmt s (c + i)

/-- an edit, a publish that is given up in the middle, another that waits for it and is given up
after its COMMIT, and a look at the release -/
def publishesGivenUp : List (Act (Limited ConfigJob) Time) :=
  [.call 0 (askedFor (.upsertItem (some shopScope) "a" "true") none)] ++
    statements 0 0 5 ++ [.ret 0] ++
  [.call 1 (askedFor (.publish (some shopScope) "first" "ann") (some 3))] ++ statements 1 10 1 ++
  [.call 2 (askedFor (.publish (some shopScope) "second" "bob") (some 8))] ++ statements 2 20 1 ++
  statements 1 30 3 ++ [.ret 1] ++ statements 2 40 7 ++ [.ret 2] ++
  [.call 0 (askedFor (.getRelease (some shopScope) 0) none)] ++ statements 0 50 1 ++ [.ret 0]

theorem config_serial_publishesGivenUp : ∃ σ : ConfigServiceSys,
    (Sys.init ConfigDb.empty).play ConfigStmt.exec documents.serve publishesGivenUp = some σ ∧
    σ.db.tables.releases.map (·.message) = ["second"] ∧
    σ.done.map (fun x => (x.1, x.2.2.toOption.isSome))
      = [(0, true), (2, false), (1, false), (0, true)] ∧
    Serial ConfigEv.does (fun _ => none) (documents.part.history σ.hist) σ.db.tables.docs := by
  have h : ((Sys.init ConfigDb.empty : ConfigServiceSys).play ConfigStmt.exec documents.serve
      publishesGivenUp).map (fun σ => (σ.db.tables.releases.map (·.message),
        σ.done.map fun x => (x.1, x.2.2.toOption.isSome)))
      = some (["second"], [(0, true), (2, false), (1, false), (0, true)]) := by rfl
  obtain ⟨σ, hσ, he⟩ := Option.map_eq_some_iff.mp h
  obtain ⟨h1, h2⟩ := Prod.mk.inj he
  exact ⟨σ, hσ, h1, h2, (config_serial documents σ (Sys.play_steps hσ)).1⟩

end PgApp
