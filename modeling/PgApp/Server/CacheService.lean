import PgApp.Cache.Forgetful
import PgApp.Cache.Issued
import PgApp.Interleave.Dropped
import PgApp.Server.CacheGrpc
import PgApp.Server.MqService

/-!
# Cache requests that are given up

The Cache service under `record_rpc`'s time limit: whoever waits for a request may drop it after any
of its statements (`CacheGrpc.perform`).  A write is several statements, and the eviction that
follows it many more; but what others see of it happens in one of them.

* `decides`           the statements that change what others see of the keys a request is on;
* `body_once`         a request runs one of them at most, wherever it is dropped;
* `perform_answers`   what the statements of a request were that has ended, or was dropped;
* `Performed`         what an answered request has published, and what it has found.

Main result: `cache_dropped`.
-/

namespace PgApp
open Interleave Keyed CacheProg

/-! ## serving -/

def CacheStmt.brackets : Brackets CacheStmt where
  opens := fun st => match st with | .begin => true | _ => false
  closes := fun st => match st with | .commit => true | .rollback => true | _ => false
  needsCommit := fun _ => false
  rollback := .rollback

/-- the code of a request its client may give up -/
def CacheGrpc.perform (grpc : CacheGrpc) (job : Limited CacheRpc) :
    Prog CacheStmt CacheStmt.Res Status CacheResponse :=
  (grpc.serve job.op).limited CacheStmt.brackets timedOut job.limit

/-- the call of an admitted request -/
def CacheGrpc.callOf (grpc : CacheGrpc) (job : Limited CacheRpc) : CacheCall := grpc.call job.op

abbrev CacheServiceSys :=
  Sys CacheStmt CacheStmt.Res Status CacheResponse (Limited CacheRpc) CacheCtx CacheDb
abbrev CacheJobEv := CacheEvOf (Limited CacheRpc)

/-- reachable by requests of any number of clients, in any interleaving, each dropped at any
point -/
abbrev CacheServiceReach (grpc : CacheGrpc) (σ : CacheServiceSys) : Prop :=
  Reach CacheStmt.exec grpc.perform CacheDb.empty σ

/-! ## once -/

/-- the statement stores or deletes an entry for its call, or invalidates a namespace -/
def CacheStmt.decides : CacheStmt → Bool
  | .upsertEntry _ _ _ _ _ _ | .commit | .deleteKey _ _ _ _ | .bumpGeneration _ _ => true
  | _ => false

abbrev Undecided {α : Type} (p : CacheProg α) : Prop := p.Avoids fun st => st.decides = true

abbrev DecidesOnce {α : Type} (p : CacheProg α) : Prop := p.Once fun st => st.decides = true

theorem undecided_query {α : Type} {st : CacheStmt} (hst : st.decides = false)
    {k : st.Res → CacheProg α} (hk : ∀ r, Undecided (k r)) : Undecided (CacheProg.query st >>= k) :=
  ⟨ne_true_of_eq_false hst, hk⟩

theorem undecided_one {st : CacheStmt} (hst : st.decides = false) :
    Undecided (CacheProg.query st) :=
  ⟨ne_true_of_eq_false hst, fun _ => trivial⟩

theorem once_inTx {α : Type} {p : CacheProg α} (h : Undecided p) : DecidesOnce (CacheProg.inTx p) :=
  ⟨fun hb => absurd hb Bool.false_ne_true, fun _ => Prog.Once.bracket h⟩

theorem undecided_orFail {α : Type} (r : Except SqlError α) :
    Undecided (orFail r : CacheProg α) := by
  cases r <;> exact trivial

theorem Minor.undecided {α : Type} {p : CacheProg α} (h : Minor p) : Undecided p := by
  refine h.mono fun st hd => ?_
  cases st with
  | upsertEntry _ _ _ _ _ _ | commit | deleteKey _ _ _ _ | bumpGeneration _ _ => rfl
  | _ => cases hd

section
variable {store : CacheStore} {rounds : Nat} {ns key : String}

theorem undecided_written : Undecided (store.written rounds ns) :=
  (written_minor store rounds ns).undecided

theorem once_start {α : Type} {k : Int → CacheProg α} (hk : ∀ g, DecidesOnce (k g)) :
    DecidesOnce (CacheProg.query (.ensureNamespace ns) >>=
        fun _ => namespaceGeneration ns >>= k) := by
  refine Prog.Once.bind (undecided_one rfl) fun _ => ?_
  refine Prog.Once.bind (undecided_query rfl fun gen => ?_) hk
  cases gen <;> exact trivial

theorem once_set (v : Bytes) (ttl : Option Int) : DecidesOnce (store.set rounds ns key v ttl) := by
  refine Prog.Once.bind trivial fun _ => once_start fun _ => Prog.Once.bind trivial fun _ => ?_
  refine Prog.Once.query fun r => ?_
  show Undecided (orFail r >>= fun _ => store.written rounds ns)
  exact Prog.Avoids.bind (undecided_orFail r) fun _ => undecided_written

theorem once_setNx (v : Bytes) (ttl : Option Int) :
    DecidesOnce (store.setNx rounds ns key v ttl) := by
  refine Prog.Once.bind trivial fun _ => once_start fun g => ?_
  refine Prog.Once.bind_left (once_inTx (Prog.Avoids.check fun _ => ?_)) fun created => ?_
  · refine undecided_query rfl fun _ => undecided_query rfl fun r => ?_
    exact Prog.Avoids.bind (undecided_orFail r) fun _ => trivial
  · cases created with
    | true => exact Prog.Avoids.bind undecided_written fun _ => trivial
    | false => exact trivial

theorem once_atomicWrite {α : Type} (ttl : Option Int) (preserve : Bool)
    (f : Option Bytes → PgAppResult (Bytes × α)) :
    DecidesOnce (store.atomicWrite rounds ns key ttl preserve f) := by
  refine Prog.Once.bind trivial fun _ => once_start fun g => ?_
  refine Prog.Once.bind_left (once_inTx ?_) fun _ =>
    Prog.Avoids.bind undecided_written fun _ => trivial
  refine undecided_query rfl fun _ => Prog.Avoids.check fun _ => ?_
  refine undecided_query rfl fun _ => undecided_query rfl fun found => ?_
  cases found with
  | some q =>
    refine Prog.Avoids.check fun _ => undecided_query rfl fun r => ?_
    exact Prog.Avoids.bind (undecided_orFail r) fun _ => trivial
  | none =>
    refine Prog.Avoids.check fun _ => undecided_query rfl fun r => ?_
    exact Prog.Avoids.bind (undecided_orFail r) fun _ => trivial

theorem once_delete (ns key : String) : DecidesOnce (store.delete ns key) := by
  refine Prog.Once.bind trivial fun _ => Prog.Once.bind (undecided_one rfl) fun gen => ?_
  cases gen with
  | none => exact trivial
  | some g =>
    refine Prog.Once.bind trivial fun _ => Prog.Once.query fun deleted => ?_
    show Undecided (if deleted > 0 then _ else _)
    split
    · exact undecided_query rfl fun _ => trivial
    · exact trivial

/-- **One decisive statement at most.** -/
theorem body_once (call : CacheCall) : DecidesOnce call.body := by
  obtain ⟨store, rounds, op⟩ := call
  have hend : ∀ {α : Type} {p : CacheProg α} {f : α → CacheReturn}, DecidesOnce p →
      DecidesOnce (p >>= fun a => pure (f a)) := fun h => Prog.Once.bind_left h fun _ => trivial
  cases op with
  | set ns key v ttl => exact hend (once_set v ttl)
  | setNx ns key v ttl => exact hend (once_setNx v ttl)
  | getSet ns key v ttl => exact hend (once_atomicWrite ttl _ _)
  | append ns key v ttl => exact hend (once_atomicWrite ttl _ _)
  | prepend ns key v ttl => exact hend (once_atomicWrite ttl _ _)
  | increment ns key d ttl => exact hend (once_atomicWrite ttl _ _)
  | decrement ns key d ttl => exact hend (Prog.Once.bind trivial fun _ => once_atomicWrite ttl _ _)
  | get ns key => exact hend (Prog.Once.of_avoids (get_minor store ns key).undecided)
  | mget ns keys => exact hend (Prog.Once.of_avoids (mgetLoop_minor store ns keys []).undecided)
  | exists_ ns key =>
    exact hend (Prog.Once.of_avoids (Prog.Avoids.bind (get_minor store ns key).undecided fun _ =>
      trivial))
  | delete ns key => exact hend (once_delete ns key)
  | invalidateNamespace ns =>
    exact hend (Prog.Once.bind trivial fun _ => Prog.Once.bind (undecided_one rfl) fun _ =>
      Prog.Once.bind (undecided_one rfl) fun _ => Prog.Once.query fun _ => trivial)
  | sweepExpired limit => exact hend (Prog.Once.of_avoids (sweep_minor limit).undecided)
  | stats =>
    exact hend (Prog.Once.of_avoids (undecided_query rfl fun _ =>
      undecided_query rfl fun _ => trivial))

end

/-! ## one request -/

section
variable {Op : Type} {op : Op} {st : CacheStmt} {r : st.Res} {γ γ' : OwnView Op}

theorem OwnStep.brackets (h : OwnStep op st r γ γ') :
    γ'.tx.isSome = CacheStmt.brackets.after γ.tx.isSome st := by
  have hsame : st.inTx = false → γ'.tx.isSome = γ.tx.isSome := fun ht => by rw [h.tx_same ht]
  have hin : st.inside = true → γ'.tx.isSome = true ∧ γ.tx.isSome = true := by
    intro hi
    obtain ⟨s, c, db, db', -, -, htx, -, hx, rfl⟩ := h
    obtain ⟨t, ho⟩ := exec_inside hx hi
    exact ⟨by rw [ho.own]; rfl, by rw [← htx, ho.open_]; rfl⟩
  unfold Brackets.after CacheStmt.brackets
  cases st with
  | begin =>
    obtain ⟨t, ht, -⟩ := h.begun
    rw [ht]
    rfl
  | commit => simp [h.committed]
  | rollback => simp [h.rolledBack]
  | lockKey _ _ _ | deleteExpiredKey _ _ _ _ | selectKeyForUpdate _ _ _ _ | insertValue _ _ _ _ _ _
  | insertIfAbsent _ _ _ _ _ _ | updateValue _ _ _ _ =>
    obtain ⟨h1, h2⟩ := hin rfl
    rw [h1, h2]
    rfl
  | _ =>
    rw [hsame rfl]
    simp

theorem OwnStep.logs (h : OwnStep op st r γ γ') :
    ∃ e : CacheEvOf Op, e.stmt = st ∧ e.op = op ∧ γ'.own = e :: γ.own := by
  obtain ⟨s, c, db, db', -, -, -, -, -, rfl⟩ := h
  exact ⟨_, rfl, rfl, rfl⟩

end

section
variable {grpc : CacheGrpc} {job : Limited CacheRpc}

/-- what the statements of a request were, by its answer -/
def RequestLog (grpc : CacheGrpc) (job : Limited CacheRpc) (answer : Except Status CacheResponse)
    (new : List CacheJobEv) : Prop :=
  match answer with
  | .ok response => ∃ a, response = job.op.req.reply a ∧ Answered (grpc.callOf job) (.ok a) new
  | .error _ => new = [] ∨ ∃ e, Answered (grpc.callOf job) (.error e) new

theorem serve_logs {γ : OwnView (Limited CacheRpc)} (h : γ.tx = none) :
    Safe (Follows (grpc.callOf job)) (OwnStep job)
      (fun answer γ' => γ'.tx = none ∧ ∃ new, γ'.own = new ++ γ.own ∧
        RequestLog grpc job answer new)
      (grpc.serve job.op) γ := by
  unfold CacheGrpc.serve
  cases grpc.accept job.op.req with
  | error status => exact ⟨h, [], rfl, .inl rfl⟩
  | ok op =>
    refine Safe.mapResult (cache_body job (grpc.callOf job) h) fun r γ' hr => ?_
    obtain ⟨htx, new, hown, ha⟩ := hr
    refine ⟨htx, new, hown, ?_⟩
    cases r with
    | ok a => exact ⟨a, rfl, ha⟩
    | error e => exact .inr ⟨e, ha⟩

theorem serve_once : (grpc.serve job.op).Once fun st => st.decides = true := by
  unfold CacheGrpc.serve
  cases grpc.accept job.op.req with
  | error status => exact trivial
  | ok op => exact (body_once _).mapResult

/-- what the statements of a request were that ended so, or was dropped -/
def RequestPart (grpc : CacheGrpc) (job : Limited CacheRpc) (answer : Except Status CacheResponse)
    (new : List CacheJobEv) : Prop :=
  (RequestLog grpc job answer new ∨ answer = .error timedOut ∧ job.limit ≠ none) ∧
    (∀ e ∈ new, e.op = job) ∧ (new.filter (·.stmt.decides)).length ≤ 1

/-- **A request that may be dropped.** -/
theorem perform_answers {γ : OwnView (Limited CacheRpc)} (h : γ.tx = none) :
    Safe (Follows (grpc.callOf job)) (OwnStep job)
      (fun answer γ' => γ'.tx = none ∧ ∃ new, γ'.own = new ++ γ.own ∧
        RequestPart grpc job answer new)
      (grpc.perform job) γ := by
  have hlog : Safe (Follows (grpc.callOf job)) (OwnStep job)
      (fun answer γ' => γ'.tx = none ∧ ∃ new, γ'.own = new ++ γ.own ∧
        (RequestLog grpc job answer new ∨ answer = .error timedOut ∧ job.limit ≠ none))
      (grpc.perform job) γ := by
    unfold CacheGrpc.perform
    cases hlim : job.limit with
    | none =>
      refine (serve_logs h).mono fun answer γ' hr => ?_
      obtain ⟨htx, new, hown, hr⟩ := hr
      exact ⟨htx, new, hown, .inl hr⟩
    | some n =>
      -- wherever it stands, a transaction of its own is all there is to roll back
      refine Safe.dropped (fun _ => False)
        (I := fun isOpen γ' => γ'.tx.isSome = isOpen ∧ ∃ new, γ'.own = new ++ γ.own) ⟨?_, ?_⟩
        (fun _ _ hf => hf.elim) ?_ ?_ (serve_logs h) (Prog.Last.of_avoids (Prog.Avoids.all
          (fun _ hf => hf) _)) ⟨by rw [h]; rfl, [], rfl⟩ n
      · intro γ' hI
        obtain ⟨htx, new, hown⟩ := hI
        exact ⟨by simpa using htx, new, hown, .inr ⟨rfl, by simp⟩⟩
      · intro γ' hI
        obtain ⟨-, new, hown⟩ := hI
        refine ⟨trivial, fun r γ'' hm => ?_⟩
        obtain ⟨e, -, hown'⟩ := hm.tail
        exact ⟨hm.rolledBack, e :: new, by rw [hown', hown]; rfl, .inr ⟨rfl, by simp⟩⟩
      · intro isOpen st γ' r γ'' _ hI _ hm
        obtain ⟨htx, new, hown⟩ := hI
        obtain ⟨e, -, hown'⟩ := hm.tail
        exact ⟨by rw [hm.brackets, htx], e :: new, by rw [hown', hown]; rfl⟩
      · intro answer γ' hr
        obtain ⟨htx, new, hown, hr⟩ := hr
        exact ⟨⟨htx, new, hown, .inl hr⟩, fun hs => hs.elim fun _ hf => hf.elim⟩
  have honce : (grpc.perform job).Once fun st => st.decides = true :=
    Prog.Once.limited Bool.false_ne_true serve_once job.limit
  have hlogs : Logs (OwnStep job) Ev.stmt (fun e : CacheJobEv => e.op = job) OwnView.own :=
    fun st r γ γ' hm => hm.logs
  have hown := Prog.Once.logged_by hlogs honce (Logged.refl γ.own 0)
  refine (hlog.and hown).mono fun answer γ' hr => ?_
  obtain ⟨⟨htx, new, h1, h2⟩, new', h3, h4⟩ := hr
  obtain rfl : new = new' := List.append_cancel_right (h1.symm.trans h3)
  exact ⟨htx, new, h1, h2, h4⟩

end

/-! ## statements in their place -/

section
variable {Op : Type} {call : Op → CacheCall}

theorem publishes_nothing {e : CacheEvOf Op} (h : e.stmt.decides = false) : publishedBy e = [] := by
  unfold publishedBy
  cases hst : e.stmt <;> first | rfl | (rw [hst] at h; cases h)

theorem wrote_head {part : List (CacheEvOf Op)} {x : Said} {core : List Said}
    (h : Wrote part (x :: core)) :
    ∃ a e b, part = a ++ e :: b ∧ (⟨e.stmt, e.res⟩ : Said) = x ∧ said b = core := by
  obtain ⟨tail, body, rfl, -, hb⟩ := h
  cases body with
  | nil => cases hb
  | cons e b =>
    obtain ⟨h1, h2⟩ := List.cons.inj hb
    exact ⟨tail, e, b, rfl, h1, h2⟩

theorem prefix_head {α : Type} {x y : α} {a b l : List α} (h : x :: a <+: l) (h' : y :: b <+: l) :
    x = y := by
  obtain ⟨u, rfl⟩ := h
  obtain ⟨v, hv⟩ := h'
  exact (List.cons.inj hv).1.symm

/-- what a read has found is what its cell held -/
theorem Ordered.readItem {e : CacheEvOf Op} {h : List (CacheEvOf Op)} (ho : Ordered call e h)
    {ns : String} {g : Int} {keyHash key : String} {id : Int} {v : Bytes}
    (hs : (⟨e.stmt, e.res⟩ : Said) = ⟨.selectLive ns g keyHash key, some (id, v)⟩) :
    ∃ i, e.pre.cells (ns, g, keyHash) = some i ∧ i.value = v ∧ i.present key e.ctx.now = true := by
  obtain ⟨s, op, c, st, r, db⟩ := e
  cases hs
  obtain ⟨db', hx⟩ := ho.executed
  have h1 : some ((db.entries.find? fun r => r.isKey ns g keyHash key && r.live c.now).map fun r =>
      (r.id, r.valueBytes), db) = some (some (id, v), db') := hx
  simp only [Option.some.injEq, Prod.mk.injEq] at h1
  obtain ⟨z, hz, hzv⟩ := Option.map_eq_some_iff.mp h1.1
  have hp : (z.isKey ns g keyHash key && z.live c.now) = true := by simpa using List.find?_some hz
  rw [Bool.and_eq_true] at hp
  obtain ⟨ha, hk⟩ := EntryRow.isKey_iff.mp hp.1
  have hcell := cells_of_mem ho.good.ok (List.mem_of_find?_eq_some hz)
  rw [EntryRow.isAt_iff.mp ha] at hcell
  exact ⟨z.item, hcell, (Prod.mk.inj hzv).2, item_present hk hp.2⟩

theorem Ordered.upserted {e : CacheEvOf Op} {h : List (CacheEvOf Op)} (ho : Ordered call e h)
    {ns : String} {g : Int} {keyHash key : String} {v : Bytes} {ttl : Option Int}
    (hs : (⟨e.stmt, e.res⟩ : Said) = ⟨.upsertEntry ns g keyHash key v ttl, .ok ()⟩) :
    TtlFits e.ctx.now ttl := by
  obtain ⟨s, op, c, st, r, db⟩ := e
  cases hs
  obtain ⟨db', hx⟩ := ho.executed
  rcases exec_upsertEntry hx with ⟨-, hr, -⟩ | ⟨hfits, -⟩
  · cases hr
  · exact hfits

/-- the statements of a finished call in the history, each in order after those before it -/
def InPlace (call : Op → CacheCall) (hist part : List (CacheEvOf Op)) : Prop :=
  ∀ a e b, part = a ++ e :: b → ∃ h₁ h₂, hist = h₁ ++ e :: h₂ ∧ Ordered call e h₂ ∧
    said b <+: said (ownEvents e.sess h₂)

theorem inPlace_of_own {hist part : List (CacheEvOf Op)}
    (hord : Always (Ordered call) hist) {s : Nat}
    {a b : List (CacheEvOf Op)} (h : ownEvents s hist = a ++ part ++ b) :
        InPlace call hist part := by
  intro a' e b' hp
  rw [hp] at h
  have h' : ownEvents s hist = (a ++ a') ++ e :: (b' ++ b) := by simpa using h
  obtain ⟨h₁, h₂, rfl, -, hb, hs⟩ := ownEvents_split h'
  refine ⟨h₁, h₂, rfl, hord.head, ?_⟩
  rw [hs, hb, said_append]
  exact List.prefix_append _ _

variable {hist part : List (CacheEvOf Op)} {op : Op}

theorem InPlace.of_mem (h : InPlace call hist part) {e : CacheEvOf Op} (he : e ∈ part) :
    ∃ h₁ h₂, hist = h₁ ++ e :: h₂ ∧ Ordered call e h₂ := by
  obtain ⟨a, b, hp⟩ := List.append_of_mem he
  obtain ⟨h₁, h₂, h1, h2, -⟩ := h a e b hp
  exact ⟨h₁, h₂, h1, h2⟩

theorem InPlace.commit (h : InPlace call hist part) {a b : List (CacheEvOf Op)} {e : CacheEvOf Op}
    (hp : part = a ++ e :: b) (hst : e.stmt = .commit) {core : List Said} (hb : said b = core) :
    ∃ l, CommitCase (call e.op) e l ∧ core <+: l := by
  obtain ⟨h₁, h₂, -, ho, hpre⟩ := h a e b hp
  exact ⟨_, commit_cases ho hst, hb ▸ hpre⟩

/-- what an answered call has done: a write has published the row it was to publish, whoever is not
to write has published none, and a hit is of the entry that was written to its cell last -/
structure Performed (call : CacheCall) (hist : List (CacheEvOf Op)) (a : CacheReturn)
    (part : List (CacheEvOf Op)) : Prop where
  answered : Answered call (.ok a) part
  written : call.op.target ≠ none → a ≠ .bool false → ∃ e ∈ part, ∃ x, CommitsRow call a x e
  unwritten : call.op.target = none ∨ a = .bool false → ∀ e ∈ part, publishedBy e = []
  hit : ∀ ns key value, Saw call.op (.ok a) ns key value → ∃ e ∈ part, ∃ h₁ h₂ g i,
    hist = h₁ ++ e :: h₂ ∧ e.stmt = .selectLive ns g (call.store.hashKey key) key ∧
      LastWritten publishes (ns, g, call.store.hashKey key) i h₂ ∧
      i.present key e.ctx.now = true ∧ ∀ v, value = some v → i.value = v

theorem InPlace.written (h : InPlace call hist part) (hops : ∀ e ∈ part, e.op = op)
    {a : CacheReturn}
    (ha : Answered (call op) (.ok a) part) (htar : (call op).op.target ≠ none)
      (hb : a ≠ .bool false) :
    ∃ e ∈ part, ∃ x, CommitsRow (call op) a x e := by
  have hmem : ∀ {u v : List (CacheEvOf Op)} {e : CacheEvOf Op}, part = u ++ e :: v → e ∈ part := by
    intro u v e hp
    rw [hp]
    exact List.mem_append_right _ List.mem_cons_self
  have hkey : ∀ {ns key : String}, (call op).op.atomic = true →
      AnsweredKey (call op) ns key (.ok a) part → ∃ e ∈ part, ∃ x, CommitsRow (call op) a x e := by
    intro ns key hat hans
    obtain ⟨g, found, v, hreg, hw⟩ := hans
    obtain ⟨u, e, w, hp, hs, hsaid⟩ := wrote_head hw
    have hst : e.stmt = .commit := congrArg Sigma.fst hs
    obtain ⟨l, hcase, hpre⟩ := h.commit hp hst hsaid
    have hop := hops e (hmem hp)
    rw [hop] at hcase
    cases hcase with
    | found ns' g' k' key' v' ttl hset =>
      rw [hset] at hat
      cases hat
    | created ns' g' k' key' v' ttl x hset =>
      rw [hset] at hat
      cases hat
    | changed ns' g' k' key' found' a' v' x _ hreg' hrow hpre' =>
      obtain rfl := found_eq hpre hpre'
      have ha' : a = a' := (Prod.mk.inj (Except.ok.inj (hreg.symm.trans hreg'))).1
      exact ⟨e, hmem hp, x, ha' ▸ hrow⟩
  unfold Answered at ha
  cases hop : (call op).op with
  | set ns key v ttl =>
    rw [hop] at ha
    obtain ⟨rfl, g, hw⟩ := ha
    obtain ⟨u, e, w, hp, hs, -⟩ := wrote_head hw
    have hst : e.stmt = .upsertEntry ns g ((call op).store.hashKey key) key v ttl :=
      congrArg Sigma.fst hs
    obtain ⟨h₁, h₂, -, ho⟩ := h.of_mem (hmem hp)
    obtain ⟨x, hrow⟩ := commitsRow_upsert ho hst (ho.upserted hs)
    rw [hops e (hmem hp)] at hrow
    exact ⟨e, hmem hp, x, hrow⟩
  | setNx ns key v ttl =>
    rw [hop] at ha
    obtain ⟨g, ⟨rfl, hw⟩ | ⟨rfl, -⟩⟩ := ha
    · obtain ⟨u, e, w, hp, hs, hsaid⟩ := wrote_head hw
      have hst : e.stmt = .commit := congrArg Sigma.fst hs
      obtain ⟨l, hcase, hpre⟩ := h.commit hp hst hsaid
      rw [hops e (hmem hp)] at hcase
      cases hcase with
      | found ns' g' k' key' v' ttl' hset hnone hpre' => cases prefix_head hpre hpre'
      | created ns' g' k' key' v' ttl' x hset hrow => exact ⟨e, hmem hp, x, hrow⟩
      | changed ns' g' k' key' found' a' v' x hat =>
        rw [hop] at hat
        cases hat
    · exact absurd rfl hb
  | getSet ns key v ttl => exact hkey (by rw [hop]; rfl) (by rw [hop] at ha; exact ha)
  | increment ns key d ttl => exact hkey (by rw [hop]; rfl) (by rw [hop] at ha; exact ha)
  | decrement ns key d ttl => exact hkey (by rw [hop]; rfl) (by rw [hop] at ha; exact ha)
  | append ns key v ttl => exact hkey (by rw [hop]; rfl) (by rw [hop] at ha; exact ha)
  | prepend ns key v ttl => exact hkey (by rw [hop]; rfl) (by rw [hop] at ha; exact ha)
  | _ =>
    rw [hop] at htar
    exact absurd rfl htar

theorem silent_of_said {core : List Said} (hs : said part = core)
    (hcore : ∀ x ∈ core, x.1.decides = false) : ∀ e ∈ part, publishedBy e = [] := by
  intro e he
  refine publishes_nothing (hcore ⟨e.stmt, e.res⟩ ?_)
  rw [← hs]
  exact List.mem_map.mpr ⟨e, he, rfl⟩

theorem InPlace.silent (h : InPlace call hist part) (hops : ∀ e ∈ part, e.op = op)
    (htar : (call op).op.target = none) : ∀ e ∈ part, publishedBy e = [] := by
  intro e he
  obtain ⟨h₁, h₂, -, ho⟩ := h.of_mem he
  cases hp : publishedBy e with
  | nil => rfl
  | cons x l =>
    have hx : x ∈ publishedBy e := by
      rw [hp]
      exact List.mem_cons_self
    obtain ⟨a, hrow⟩ := commitsRow_of_published ho hx
    have h1 := hrow.target
    rw [hops e he, htar] at h1
    cases h1

theorem register_atomic {o : CacheOp} (hat : o.atomic = true) {old v : Option Bytes}
    {a : CacheReturn}
    (h : o.register old = .ok (a, v)) : a ≠ .bool false := by
  have hplus : ∀ {d : Int}, plus d old = .ok (a, v) → a ≠ .bool false := by
    intro d hd hb
    rw [plus_eq] at hd
    cases hy : addTo d old with
    | error e =>
      rw [hy] at hd
      cases hd
    | ok p =>
      rw [hy, hb] at hd
      cases hd
  cases o with
  | getSet ns key w ttl | append ns key w ttl | prepend ns key w ttl =>
    cases h
    exact nofun
  | increment ns key d ttl => exact hplus h
  | decrement ns key d ttl =>
    by_cases hn : inI64 (-d)
    · exact hplus ((if_pos hn).symm.trans h)
    · cases (if_neg hn).symm.trans h
  | _ => cases hat

/-- `set_nx` that has found an entry has not written -/
theorem InPlace.unwritten (h : InPlace call hist part) (hops : ∀ e ∈ part, e.op = op)
    (ha : Answered (call op) (.ok (.bool false)) part) : ∀ e ∈ part, publishedBy e = [] := by
  have hkey : ∀ {ns key : String}, (call op).op.atomic = true →
      ¬ AnsweredKey (call op) ns key (.ok (.bool false)) part := by
    intro ns key hat hans
    obtain ⟨g, found, v, hreg, -⟩ := hans
    exact register_atomic hat hreg rfl
  have hnone := h.silent hops
  unfold Answered at ha
  cases hop : (call op).op with
  | set ns key v ttl =>
    rw [hop] at ha
    cases ha.1
  | setNx ns key v ttl =>
    rw [hop] at ha
    obtain ⟨g, ⟨hf, -⟩ | ⟨-, hs⟩⟩ := ha
    · cases hf
    · cases hp : part with
      | nil => exact fun e he => absurd he List.not_mem_nil
      | cons e b =>
        rw [hp] at hs
        obtain ⟨h1, h2⟩ := List.cons.inj hs
        intro d hd
        rcases List.mem_cons.mp hd with rfl | hd
        · have hst : d.stmt = .commit := congrArg Sigma.fst h1
          obtain ⟨l, hcase, hpre⟩ := h.commit (a := []) hp hst h2
          rw [hops d (hp ▸ List.mem_cons_self)] at hcase
          cases hcase with
          | found ns' g' k' key' v' ttl' hset hnone => exact hnone
          | created ns' g' k' key' v' ttl' x hset hrow hpre' => cases prefix_head hpre hpre'
          | changed ns' g' k' key' found' a' v' x hat =>
            rw [hop] at hat
            cases hat
        · refine silent_of_said h2 (fun x hx => ?_) d hd
          unfold afterClear afterBegin afterRead at hx
          simp only [List.mem_cons, List.not_mem_nil, or_false] at hx
          rcases hx with rfl | rfl | rfl | rfl | rfl <;> rfl
  | getSet ns key v ttl => exact absurd (by rw [hop] at ha; exact ha) (hkey (by rw [hop]; rfl))
  | increment ns key d ttl => exact absurd (by rw [hop] at ha; exact ha) (hkey (by rw [hop]; rfl))
  | decrement ns key d ttl => exact absurd (by rw [hop] at ha; exact ha) (hkey (by rw [hop]; rfl))
  | append ns key v ttl => exact absurd (by rw [hop] at ha; exact ha) (hkey (by rw [hop]; rfl))
  | prepend ns key v ttl => exact absurd (by rw [hop] at ha; exact ha) (hkey (by rw [hop]; rfl))
  | _ => exact hnone (by rw [hop]; rfl)

/-- a hit -/
theorem InPlace.hit (h : InPlace call hist part)
    (hlast : Always (fun e h => ∀ u i, e.pre.cells u = some i → LastWritten publishes u i h) hist)
    {ns key : String} {v : Bytes} (hr : ReadValue (call op).store.hashKey ns key v (said part)) :
    ∃ e ∈ part, ∃ h₁ h₂ g i, hist = h₁ ++ e :: h₂ ∧
      e.stmt = .selectLive ns g ((call op).store.hashKey key) key ∧
      LastWritten publishes (ns, g, (call op).store.hashKey key) i h₂ ∧
      i.present key e.ctx.now = true ∧ i.value = v := by
  obtain ⟨g, id, u, w, hs⟩ := hr
  have hm : (⟨.selectLive ns g ((call op).store.hashKey key) key, some (id, v)⟩ : Said)
      ∈ said part := by
    rw [← hs]
    exact List.mem_append_left _ (List.mem_append_right _ List.mem_cons_self)
  obtain ⟨e, he, hse⟩ := List.mem_map.mp hm
  obtain ⟨h₁, h₂, hh, ho⟩ := h.of_mem he
  obtain ⟨i, hcell, hv, hp⟩ := ho.readItem hse
  rw [hh] at hlast
  exact ⟨e, he, h₁, h₂, g, i, hh, congrArg Sigma.fst hse, hlast.head _ _ hcell, hp, hv⟩

theorem InPlace.performed (h : InPlace call hist part) (hops : ∀ e ∈ part, e.op = op)
    (hlast : Always (fun e h => ∀ u i, e.pre.cells u = some i → LastWritten publishes u i h) hist)
    {a : CacheReturn} (ha : Answered (call op) (.ok a) part) : Performed (call op) hist a part where
  answered := ha
  written := h.written hops ha
  unwritten := by
    intro hor
    rcases hor with htar | rfl
    · exact h.silent hops htar
    · exact h.unwritten hops ha
  hit := by
    intro ns key value hsaw
    obtain ⟨v, hr, hv⟩ := hsaw.reads ha
    obtain ⟨e, he, h₁, h₂, g, i, hh, hst, hl, hp, rfl⟩ := h.hit hlast hr
    exact ⟨e, he, h₁, h₂, g, i, hh, hst, hl, hp, hv⟩

end

/-! ## all of it -/

/-- what is claimed of a finished request and its statements -/
structure CacheOutcome (grpc : CacheGrpc) (hist : List CacheJobEv) (job : Limited CacheRpc)
    (answer : Except Status CacheResponse) (part : List CacheJobEv) : Prop where
  own : ∀ e ∈ part, e.op = job
  once : (part.filter (·.stmt.decides)).length ≤ 1
  served : ∀ response, answer = .ok response →
    ∃ a, response = job.op.req.reply a ∧ Performed (grpc.callOf job) hist a part

section
variable {grpc : CacheGrpc} {σ : CacheServiceSys}

theorem cacheService_relies (hr : CacheServiceReach grpc σ) :
    Relies CacheStmt.exec CacheGood ownView (fun job => Follows (grpc.callOf job)) OwnStep
      (fun _ _ γ => γ.tx = none) (fun γ => γ.tx = none) σ :=
  hr.rely (own_rules _) (fun _ _ _ h => h) fun _ _ h => (perform_answers h).mono fun _ _ h => h.1

theorem cacheService_ordered (hr : CacheServiceReach grpc σ) :
    Always (Ordered grpc.callOf) σ.hist :=
  (cacheService_relies hr).past.mono fun _ _ h => ⟨h.1, h.2.1, h.2.2⟩

theorem cacheService_parts (hr : CacheServiceReach grpc σ) (s : Nat) :
    ∃ run parts, ownEvents s σ.hist = run ++ parts.flatten ∧
      List.Forall₂ (fun x part => RequestPart grpc x.2.1 x.2.2 part)
          (σ.done.filter (·.1 == s)) parts := by
  obtain ⟨run, parts, h1, h2, -⟩ := Reach.logged (own_rules fun job => Follows (grpc.callOf job))
    OwnView.own (fun op st r γ γ' h => by
      obtain ⟨e, -, he⟩ := h.tail
      exact ⟨[e], he⟩)
    (RequestPart grpc) (fun job γ h => perform_answers h) hr s rfl
  exact ⟨run, parts, h1, h2⟩

end

/-- **Cache requests that are given up.**  In every run of the service, with requests interleaved
statement by statement and dropped anywhere, the tables are a map that forgets: a cell has what was
written to it last, or nothing.  A row that is published is what its own call makes of the entry
there. A session at rest has no transaction open, so no lock is left behind.  And of each finished
request: its statements are its own, one of them at most is decisive, its answer is that of its
call.  (A request that fails may have written: its counters and evictions come after the write.) -/
theorem cache_dropped (grpc : CacheGrpc) (σ : CacheServiceSys) (hr : CacheServiceReach grpc σ) :
    Serial (Forgetful publishes loses) (fun _ => none) σ.hist σ.db.cells ∧
    Always (fun e h => (∀ u i, e.pre.cells u = some i → LastWritten publishes u i h) ∧
      ∀ x ∈ publishedBy e, ∃ a, CommitsRow (grpc.callOf e.op) a x e) σ.hist ∧
    (∀ s, σ.prog s = none → σ.db.txs.get s = none) ∧
    ∀ s, ∃ run parts, ownEvents s σ.hist = run ++ parts.flatten ∧
      List.Forall₂ (fun x part => CacheOutcome grpc σ.hist x.2.1 x.2.2 part)
        (σ.done.filter (·.1 == s)) parts := by
  have hord := cacheService_ordered hr
  have hserial := hr.serial CacheDb.cells (Forgetful publishes loses) (Ordered grpc.callOf)
    (fun db h s op c st r db' ho hx => forgets ho hx) hord
  have hlast : Always (fun e h => ∀ u i, e.pre.cells u = some i →
      LastWritten publishes u i h) σ.hist :=
    hserial.2.mono fun e h hs u i hi => Forgetful.lastWritten hs hi
  have hrows : Always (fun e _ => ∀ x ∈ publishedBy e, ∃ a,
      CommitsRow (grpc.callOf e.op) a x e) σ.hist :=
    hord.mono fun e h ho x hx => commitsRow_of_published ho hx
  refine ⟨hserial.1, hlast.and hrows, (cacheService_relies hr).resting, fun s => ?_⟩
  obtain ⟨run, parts, hown, hall⟩ := cacheService_parts hr s
  refine ⟨run, parts, hown, forall₂_parts ?_ hall run hown⟩
  intro x part a b hx hw
  obtain ⟨hans, hops, honce⟩ := hx
  have hplace : InPlace grpc.callOf σ.hist part := inPlace_of_own hord hw
  refine ⟨hops, honce, fun response hres => ?_⟩
  rcases hans with hans | ⟨hans, -⟩
  · rw [hres] at hans
    obtain ⟨a, h1, h2⟩ := hans
    exact ⟨a, h1, hplace.performed hops hlast h2⟩
  · rw [hres] at hans
    cases hans

def cacheAsked (req : CacheRequest) (hr : req.InRange) (limit : Option Nat) : Limited CacheRpc :=
  ⟨⟨0, req, hr⟩, limit⟩

/-- a `Set` that is dropped after its upsert, an `Append` that is dropped in its transaction, and a
`Get` between its statements -/
def writesGivenUp : List (Act (Limited CacheRpc) CacheCtx) :=
  .call 0 (cacheAsked (.set "app" "a" [1] 0) trivial (some 3)) :: List.replicate 3
    (.stmt 0 ⟨0, id⟩) ++
  .ret 0 :: .call 1 (cacheAsked (.append "app" "a" [2] 0) trivial (some 6)) ::
  List.replicate 6 (.stmt 1 ⟨1, id⟩) ++
  .call 2 (cacheAsked (.get "app" "a") trivial none) :: List.replicate 2 (.stmt 2 ⟨2, id⟩) ++
  [.stmt 1 ⟨3, id⟩, .ret 1, .stmt 2 ⟨4, id⟩, .stmt 2 ⟨5, id⟩, .ret 2]

theorem cache_dropped_writesGivenUp :
    ∃ σ : CacheServiceSys,
      (Sys.init CacheDb.empty).play CacheStmt.exec fourBytes.perform writesGivenUp = some σ ∧
      σ.db.entries.map (fun x => (x.cacheKey, x.valueBytes)) = [("a", [1])] ∧
      σ.done.map (fun x => (x.1, x.2.2.toOption.isSome)) = [(2, true), (1, false), (0, false)] ∧
      σ.db.txs.get 1 = none ∧ Serial (Forgetful publishes loses)
          (fun _ => none) σ.hist σ.db.cells := by
  have h : ((Sys.init CacheDb.empty : CacheServiceSys).play CacheStmt.exec fourBytes.perform
      writesGivenUp).map (fun σ => (σ.db.entries.map (fun x => (x.cacheKey, x.valueBytes)),
        σ.done.map (fun x => (x.1, x.2.2.toOption.isSome)), (σ.prog 1).isNone))
      = some ([("a", [1])], [(2, true), (1, false), (0, false)], true) := by rfl
  obtain ⟨σ, hσ, he⟩ := Option.map_eq_some_iff.mp h
  obtain ⟨h1, h2⟩ := Prod.mk.inj he
  obtain ⟨h2, h3⟩ := Prod.mk.inj h2
  obtain ⟨h4, -, h5, -⟩ := cache_dropped fourBytes σ (Sys.play_steps hσ)
  exact ⟨σ, hσ, h1, h2, h5 1 (Option.isNone_iff_eq_none.mp h3), h4⟩

end PgApp
