import PgApp.Cache.Capacity
import PgApp.Cache.Issued
import PgApp.Cache.OneKey
import PgApp.Cache.Simulation

/-!
# What a sweep changes for later calls

Two runs of the same calls, one on tables that a sweep has gone over: both simulate the same map and
have the same namespaces (`Mirrors`), so all answers agree but for those of `delete`, which counts
rows that have expired.  `cache_cleanup` says exactly when these agree too: at each `delete` an
expired row of its key is stored in both runs or in neither (`DeadAlike`).

A key that PostgreSQL does not take is an error only once its namespace is there.
-/

namespace PgApp
open Interleave CacheProg

/-! ## calls of clients -/

/-- the calls of the sequence: reads, writes and deletes -/
def CacheOp.onKeys : CacheOp → Bool
  | .invalidateNamespace _ | .sweepExpired _ | .stats => false
  | _ => true

/-- the integers of a call are i64 -/
def CacheOp.InRange : CacheOp → Prop
  | .increment _ _ d _ | .decrement _ _ d _ => inI64 d
  | _ => True

/-- the tables simulate the map, and these namespaces are there -/
structure Mirrors (hash : String → String) (K : List String) (db : CacheDb) (m : CacheMap)
    (named : String → Bool) (now : Time) : Prop where
  sim : Simulates hash K db m now
  named : ∀ ns, (db.generationOf ns).isSome = named ns

/-- what a program answers and what the map is after it does not depend on the tables -/
def Determined (hash : String → String) (K : List String) (m : CacheMap) (named : String → Bool)
    (s : Nat) (c : CacheCtx) (op : CacheOp) (p : CacheProg CacheReturn) : Prop :=
  ∃ a m' named', ∀ db, Mirrors hash K db m named c.now →
    ∃ r db', p.alone s c db = some (r, db') ∧ op.observed r = a ∧
      Mirrors hash K db' m' named' c.now

/-! ## namespaces -/

section
variable {α : Type} {s : Nat} {c : CacheCtx} {db db' : CacheDb} {r : PgAppResult α}
  {p : CacheProg α}
variable {ns : String}

theorem named_kept (hx : p.alone s c db = some (r, db')) (h : (db.generationOf ns).isSome = true) :
    (db'.generationOf ns).isSome = true := by
  induction p generalizing db with
  | ret r' =>
    cases hx
    exact h
  | exec st k ih =>
    obtain ⟨q, hq, hx⟩ := Option.bind_eq_some_iff.mp hx
    obtain ⟨g, hg⟩ := Option.isSome_iff_exists.mp h
    refine ih q.1 hx ?_
    rcases exec_generation hq hg with h1 | ⟨-, h1⟩
    · rw [h1]
      rfl
    · rw [h1]
      rfl

theorem named_new {op : CacheOp} (hp : op.Issues p) (hx : p.alone s c db = some (r, db'))
    (hop : op.opened ≠ some ns) (h : db.generationOf ns = none) : db'.generationOf ns = none := by
  induction p generalizing db with
  | ret r' =>
    cases hx
    exact h
  | exec st k ih =>
    obtain ⟨q, hq, hx⟩ := Option.bind_eq_some_iff.mp hx
    have hmay : op.MayIssue st := not_not.mp hp.1
    refine ih q.1 (hp.2 q.1) hx ?_
    rcases exec_namespaces hq with he | ⟨ns', rfl, he⟩ | ⟨ns', ids, rfl, he⟩
    · unfold CacheDb.generationOf
      rw [he]
      exact h
    · have hne : ns ≠ ns' := fun e => hop (e ▸ hmay)
      rw [he, generationOf_ensure, if_neg hne]
      exact h
    · rw [he]
      cases hg : db.generationOf ns' with
      | none =>
        unfold CacheDb.bumpGeneration
        rw [hg]
        exact h
      | some g =>
        have hne : ns ≠ ns' := by
          intro e
          rw [e, hg] at h
          cases h
        rw [generationOf_bump hg, if_neg hne]
        exact h

/-- a write that passes its checks leaves its namespace there -/
theorem named_started {key : String} {ttl : Option Int} (hv : validateWrite ns key ttl = .ok ())
    {k : Int → CacheProg α}
    (hx : (do Prog.check (validateWrite ns key ttl)
              query (.ensureNamespace ns)
              let g ← namespaceGeneration ns
              k g : CacheProg α).alone s c db = some (r, db')) :
    (db'.generationOf ns).isSome = true := by
  rw [alone_start hv] at hx
  refine named_kept hx ?_
  rw [generationOf_ensure, if_pos rfl]
  rfl

end

section
variable {hash : String → String} {K : List String} {s : Nat} {c : CacheCtx} {m : CacheMap}
variable {named : String → Bool} {db db' : CacheDb}

theorem Mirrors.later {now now' : Time} (h : Mirrors hash K db m named now) (hle : now ≤ now') :
    Mirrors hash K db m named now' := ⟨h.sim.later hle, h.named⟩

/-- after a program of a call that makes sure of no namespace -/
theorem Mirrors.stayed {α : Type} {r : PgAppResult α} {p : CacheProg α} {op : CacheOp}
    {m' : CacheMap} (h : Mirrors hash K db m named c.now) (hp : op.Issues p)
      (hopen : op.opened = none)
    (hx : p.alone s c db = some (r, db')) (h' : Simulates hash K db' m' c.now) :
    Mirrors hash K db' m' named c.now := by
  refine ⟨h', fun ns => ?_⟩
  rw [← h.named ns]
  cases hg : db.generationOf ns with
  | none =>
    rw [named_new hp hx (by rw [hopen]; exact nofun) hg]
  | some g =>
    exact named_kept hx (by rw [hg]; rfl)

/-- after a write that has passed its checks -/
theorem Mirrors.opened {α : Type} {r : PgAppResult α} {p : CacheProg α} {op : CacheOp} {ns : String}
    {m' : CacheMap} (h : Mirrors hash K db m named c.now) (hp : op.Issues p)
      (hopen : op.opened = some ns)
    (hx : p.alone s c db = some (r, db')) (hns : (db'.generationOf ns).isSome = true)
    (h' : Simulates hash K db' m' c.now) :
    Mirrors hash K db' m' (fun ns' => ns' == ns || named ns') c.now := by
  refine ⟨h', fun ns' => ?_⟩
  by_cases e : ns' = ns
  · rw [e, hns, beq_self_eq_true, Bool.true_or]
  · have e' : (ns' == ns) = false := beq_false_of_ne e
    rw [e', Bool.false_or, ← h.named ns']
    cases hg : db.generationOf ns' with
    | none =>
      rw [named_new hp hx (by rw [hopen]; exact fun he => e (Option.some.inj he).symm) hg]
    | some g =>
      exact named_kept hx (by rw [hg]; rfl)

/-! ## one call -/

theorem determined_fail {op : CacheOp} {p : CacheProg CacheReturn} {e : PgAppError}
    (hp : p = .ret (.error e)) : Determined hash K m named s c op p :=
  ⟨_, m, named, fun db h => ⟨.error e, db, by rw [hp]; rfl, rfl, h⟩⟩

theorem determined_read {op : CacheOp} {p : CacheProg CacheReturn} (hp : op.Issues p)
    (hopen : op.opened = none) (a : PgAppResult CacheReturn) (m' : CacheMap)
    (h : ∀ db, Mirrors hash K db m named c.now → ∃ r db', p.alone s c db = some (r, db') ∧
      op.observed r = a ∧ Simulates hash K db' m' c.now) : Determined hash K m named s c op p := by
  refine ⟨a, m', named, fun db hm => ?_⟩
  obtain ⟨r, db', hx, ho, h'⟩ := h db hm
  exact ⟨r, db', hx, ho, hm.stayed hp hopen hx h'⟩

theorem determined_write {α : Type} {op : CacheOp} {p : CacheProg α} {f : α → CacheReturn}
    {ns : String} (hp : op.Issues (p >>= fun a => pure (f a))) (hopen : op.opened = some ns)
    (hstart : ∀ db r db', p.alone s c db = some (r, db') → (db'.generationOf ns).isSome = true)
    (a : PgAppResult CacheReturn) (m' : CacheMap)
    (h : ∀ db, Simulates hash K db m c.now → ∃ r db', p.alone s c db = some (r, db') ∧
      op.observed (r.map f) = a ∧ Simulates hash K db' m' c.now) :
    Determined hash K m named s c op (p >>= fun a => pure (f a)) := by
  refine ⟨a, m', fun ns' => ns' == ns || named ns', fun db hm => ?_⟩
  obtain ⟨r, db', hx, ho, h'⟩ := h db hm.sim
  have hx' := alone_answer hx f
  exact ⟨_, db', hx', ho, hm.opened hp hopen hx' (hstart db r db' hx) h'⟩

theorem Simulates.spared (h : Simulates hash K db m c.now) {ns : String} {d : CacheDb}
    (hd : (db.ensureNamespace ns c.now).Spared d) : Simulates hash K d m c.now := by
  have h1 := h.ensure ns c.now
  rcases hd with rfl | rfl
  · exact h1
  · exact h1.advanced

theorem Simulates.valueAt (h : Simulates hash K db m c.now) (ns key : String) :
    (unbounded hash).valueAt db c.now ns key = m.read c.now ns key := by
  have hagree := (h.ensure ns c.now).agree ns key
  unfold CacheDb.entryAt at hagree
  rw [generationOf_started] at hagree
  unfold CacheStore.valueAt CacheMap.read
  rw [← hagree, Option.map_map]
  simp only [liveRow_ensure]
  rfl

section
variable (hinj : ∀ a ∈ K, ∀ b ∈ K, hash a = hash b → a = b) {ns key : String}
include hinj

theorem determined_set (hk : storable key = true → key ∈ K) (rounds : Nat) (v : Bytes)
    (ttl : Option Int) : Determined hash K m named s c (.set ns key v ttl)
      (CacheCall.body ⟨unbounded hash, rounds, .set ns key v ttl⟩) := by
  have hissues := cache_issues ⟨unbounded hash, rounds, .set ns key v ttl⟩
  cases hv : validateWrite ns key ttl with
  | error e =>
    refine determined_fail (e := e) ?_
    show (unbounded hash).set rounds ns key v ttl >>= _ = _
    unfold CacheStore.set
    rw [hv]
    rfl
  | ok u =>
    by_cases hb : Bindable c.now key ttl
    · refine determined_write hissues rfl (fun db r db' hx => named_started hv hx) (.ok .unit)
        (m.write ns key (some ⟨v, expiryOf c.now ttl⟩)) fun db h => ?_
      obtain ⟨db', hx, h'⟩ := sim_set (s := s) h hinj hv hb (hk hb.key) rounds v
      exact ⟨_, db', hx, rfl, h'⟩
    · refine determined_write hissues rfl (fun db r db' hx => named_started hv hx)
        (.error (refusal key)) m fun db h => ?_
      obtain ⟨d, hx, hd⟩ := set_declined (s := s) (unbounded hash) db rounds hv hb v
      exact ⟨_, d, hx, rfl, h.spared hd⟩

theorem determined_setNx (hk : storable key = true → key ∈ K) (rounds : Nat) (v : Bytes)
    (ttl : Option Int) : Determined hash K m named s c (.setNx ns key v ttl)
      (CacheCall.body ⟨unbounded hash, rounds, .setNx ns key v ttl⟩) := by
  have hissues := cache_issues ⟨unbounded hash, rounds, .setNx ns key v ttl⟩
  cases hv : validateWrite ns key ttl with
  | error e =>
    refine determined_fail (e := e) ?_
    show (unbounded hash).setNx rounds ns key v ttl >>= _ = _
    unfold CacheStore.setNx
    rw [hv]
    rfl
  | ok u =>
    by_cases hb : Bindable c.now key ttl
    · refine determined_write hissues rfl (fun db r db' hx => named_started hv hx)
        (.ok (.bool (m.at_ c.now ns key).isNone)) (if (m.at_ c.now ns key).isNone then
          m.write ns key (some ⟨v, expiryOf c.now ttl⟩) else m) fun db h => ?_
      obtain ⟨db', hx, h'⟩ := sim_setNx (s := s) h hinj hv hb (hk hb.key) rounds v
      exact ⟨_, db', hx, rfl, h'⟩
    · refine determined_write hissues rfl (fun db r db' hx => named_started hv hx)
        (.error (refusal key)) m fun db h => ?_
      obtain ⟨d, hx, hd⟩ := setNx_declined (s := s) (unbounded hash) rounds h.quiet.txs hv hb v
      exact ⟨_, d, hx, rfl, h.spared hd⟩

theorem determined_atomic {op : CacheOp} (hat : op.atomic = true)
    (hk : ∀ key ∈ op.keys, storable key = true → key ∈ K) (rounds : Nat) :
    Determined hash K m named s c op (CacheCall.body ⟨unbounded hash, rounds, op⟩) := by
  have hissues := cache_issues ⟨unbounded hash, rounds, op⟩
  obtain ⟨ns, key, htarget, hcases⟩ := CacheCall.body_atomic ⟨unbounded hash, rounds, op⟩ hat
  obtain ⟨hkeys, hobs, -⟩ := step_atomic hat htarget m c.now
  rcases hcases with ⟨e, hbody, -⟩ | ⟨α, f, answer, hf, hbody⟩
  · exact determined_fail hbody
  rw [hbody] at hissues ⊢
  have hopen : op.opened = some ns := opened_of_target htarget
  cases hv : validateWrite ns key op.ttl with
  | error e =>
    refine determined_fail (e := e) ?_
    unfold CacheStore.atomicWrite
    rw [hv]
    rfl
  | ok u =>
    by_cases hb : Bindable c.now key op.ttl
    · refine determined_write hissues hopen (fun db r db' hx => named_started hv hx)
        (m.change c.now op ns key).1 (m.change c.now op ns key).2 fun db h => ?_
      obtain ⟨r, db', hx, he, h'⟩ := sim_atomicWrite (s := s) h hinj hf hv hb
        (hk key hkeys hb.key) rounds
      exact ⟨r, db', hx, (hobs _).trans he, h'⟩
    · refine determined_write hissues hopen (fun db r db' hx => named_started hv hx)
        (.error (atomicRefusal key (f (m.read c.now ns key)))) m fun db h => ?_
      obtain ⟨d, hx, hd⟩ := atomic_declined (s := s)
        (unbounded hash) rounds h.quiet.ok h.quiet.txs hv hb
        op.preserves f
      rw [h.valueAt] at hx
      exact ⟨_, d, hx, hobs _, h.spared hd⟩

end

/-! ## reads -/

/-- what `get` answers; a key that PostgreSQL does not take it refuses once the namespace is
there -/
def readAnswer (m : CacheMap) (named : String → Bool) (now : Time) (ns key : String) :
    PgAppResult (Option Bytes) :=
  match validateRead ns key with
  | .error e => .error e
  | .ok _ =>
    if named ns && !storable key then .error (PgAppError.ofSqlx .invalidText)
    else .ok (m.read now ns key)

/-- what `mget` hands back: it stops at the first key that is refused -/
def mgetAnswer (m : CacheMap) (named : String → Bool) (now : Time) (ns : String) :
    List String → List (String × Option Bytes) → PgAppResult (List (String × Option Bytes))
  | [], results => .ok results
  | key :: rest, results =>
    match readAnswer m named now ns key with
    | .error e => .error e
    | .ok value => mgetAnswer m named now ns rest (results ++ [(key, value)])

theorem mirrors_get (h : Mirrors hash K db m named c.now) (ns key : String) :
    ∃ db', ((unbounded hash).get ns key).alone s c db
        = some (readAnswer m named c.now ns key, db') ∧ Mirrors hash K db' m named c.now := by
  suffices hs : ∃ db', ((unbounded hash).get ns key).alone s c db
      = some (readAnswer m named c.now ns key, db') ∧ Simulates hash K db' m c.now by
    obtain ⟨db', hx, h'⟩ := hs
    have hissues : CacheOp.Issues (.get ns key) _ := (get_minor (unbounded hash) ns key).issues
    exact ⟨db', hx, h.stayed hissues rfl hx h'⟩
  unfold readAnswer
  cases hv : validateRead ns key with
  | error e =>
    refine ⟨db, ?_, h.sim⟩
    unfold CacheStore.get
    rw [hv]
    rfl
  | ok u =>
    cases hkey : storable key with
    | true =>
      obtain ⟨db', hx, h'⟩ := sim_get (s := s) h.sim hv hkey
      refine ⟨db', ?_, h'⟩
      simpa using hx
    | false =>
      have hs : CacheStmt.exec s c (.selectGeneration ns) db = some (db.generationOf ns, db) := rfl
      unfold CacheStore.get
      rw [hv, bindKey_error hkey]
      show ∃ db', (query (.selectGeneration ns) >>= _ : CacheProg (Option Bytes)).alone s c db = _ ∧
        _
      rw [alone_query hs, ← h.named ns]
      cases hg : db.generationOf ns with
      | some g => exact ⟨db, rfl, h.sim⟩
      | none =>
        have hread : m.read c.now ns key = none := by
          unfold CacheMap.read
          rw [← h.sim.agree]
          unfold CacheDb.entryAt
          rw [hg]
          rfl
        refine ⟨_, ?_, h.sim.counted (db.counters.add .misses 1)⟩
        rw [hread]
        rfl

theorem mirrors_mget (ns : String) (keys : List String) {db : CacheDb}
    (h : Mirrors hash K db m named c.now) (results : List (String × Option Bytes)) :
    ∃ db', ((unbounded hash).mgetLoop ns keys results).alone s c db
        = some (mgetAnswer m named c.now ns keys results, db') ∧
            Mirrors hash K db' m named c.now := by
  induction keys generalizing db results with
  | nil => exact ⟨db, rfl, h⟩
  | cons key rest ih =>
    obtain ⟨db₁, hx, h1⟩ := mirrors_get (s := s) h ns key
    unfold mgetAnswer
    cases ha : readAnswer m named c.now ns key with
    | error e =>
      rw [ha] at hx
      exact ⟨db₁, alone_bind_error hx, h1⟩
    | ok value =>
      rw [ha] at hx
      obtain ⟨db', hrun, h2⟩ := ih h1 (results ++ [(key, value)])
      exact ⟨db', (alone_bind_ok hx).trans hrun, h2⟩

/-- a `delete` of a key that PostgreSQL does not take -/
theorem delete_refused (hash : String → String) (s : Nat) (c : CacheCtx) (db : CacheDb)
    {ns key : String} (hv : validateRead ns key = .ok ()) (hkey : storable key = false) :
    ((unbounded hash).delete ns key).alone s c db
      = some (if (db.generationOf ns).isSome then .error (PgAppError.ofSqlx .invalidText)
        else .ok false, db) := by
  have hs : CacheStmt.exec s c (.selectGeneration ns) db = some (db.generationOf ns, db) := rfl
  unfold CacheStore.delete
  rw [hv, bindKey_error hkey]
  show (query (.selectGeneration ns) >>= _ : CacheProg Bool).alone s c db = _
  rw [alone_query hs]
  cases db.generationOf ns <;> rfl

theorem determined_delete (ns key : String) (rounds : Nat) :
    Determined hash K m named s c (.delete ns key)
      (CacheCall.body ⟨unbounded hash, rounds, .delete ns key⟩) := by
  have hissues := cache_issues ⟨unbounded hash, rounds, .delete ns key⟩
  cases hv : validateRead ns key with
  | error e =>
    refine determined_fail (e := e) ?_
    show (unbounded hash).delete ns key >>= _ = _
    unfold CacheStore.delete
    rw [hv]
    rfl
  | ok u =>
    cases hkey : storable key with
    | true =>
      refine determined_read hissues rfl (.ok .unit) (m.write ns key none) fun db h => ?_
      obtain ⟨b, db', hx, h'⟩ := sim_delete (s := s) h.sim hv hkey
      exact ⟨_, db', alone_answer hx CacheReturn.bool, rfl, h'⟩
    | false =>
      refine determined_read hissues rfl (if named ns then .error (PgAppError.ofSqlx .invalidText)
        else .ok .unit) m fun db h => ?_
      refine ⟨_, db, alone_answer (delete_refused hash s c db hv hkey) CacheReturn.bool, ?_, h.sim⟩
      rw [h.named ns]
      cases named ns <;> rfl

/-- **One call**: what it answers and what the map is after it does not depend on the tables. -/
theorem call_determined (hinj : ∀ a ∈ K, ∀ b ∈ K, hash a = hash b → a = b) {op : CacheOp}
    (hop : op.onKeys = true) (hk : ∀ key ∈ op.keys, storable key = true → key ∈ K) (rounds : Nat)
    (m : CacheMap) (named : String → Bool) (s : Nat) (c : CacheCtx) :
    Determined hash K m named s c op (CacheCall.body ⟨unbounded hash, rounds, op⟩) := by
  by_cases hat : op.atomic = true
  · exact determined_atomic hinj hat hk rounds
  cases op with
  | set ns key v ttl => exact determined_set hinj (hk key List.mem_cons_self) rounds v ttl
  | setNx ns key v ttl => exact determined_setNx hinj (hk key List.mem_cons_self) rounds v ttl
  | getSet _ _ _ _ | increment _ _ _ _ | decrement _ _ _ _ | append _ _ _ _ | prepend _ _ _ _ =>
    exact absurd rfl hat
  | get ns key =>
    refine ⟨(readAnswer m named c.now ns key).map .value, m, named, fun db h => ?_⟩
    obtain ⟨db', hx, h'⟩ := mirrors_get (s := s) h ns key
    exact ⟨_, db', alone_answer hx CacheReturn.value, rfl, h'⟩
  | mget ns keys =>
    refine ⟨(mgetAnswer m named c.now ns keys []).map .values, m, named, fun db h => ?_⟩
    obtain ⟨db', hx, h'⟩ := mirrors_mget (s := s) ns keys h []
    exact ⟨_, db', alone_answer hx CacheReturn.values, rfl, h'⟩
  | exists_ ns key =>
    refine ⟨((readAnswer m named c.now ns key).map Option.isSome).map .bool, m, named,
      fun db h => ?_⟩
    obtain ⟨db', hx, h'⟩ := mirrors_get (s := s) h ns key
    exact ⟨_, db', alone_answer (alone_answer hx Option.isSome) CacheReturn.bool, rfl, h'⟩
  | delete ns key => exact determined_delete ns key rounds
  | invalidateNamespace _ | sweepExpired _ | stats => cases hop

/-! ## deletes -/

/-- an expired row of the key is stored -/
def CacheDb.deadAt (db : CacheDb) (hash : String → String) (now : Time) (ns key : String) : Bool :=
  match db.generationOf ns with
  | none => false
  | some g => db.entries.any fun r => r.isKey ns g (hash key) key && r.expired now

/-- a `delete` answers whether there was a row, expired or not -/
theorem delete_answer {db : CacheDb} (h : db.Quiet hash K) {ns key : String}
    (hv : validateRead ns key = .ok ()) (hkey : storable key = true) :
    ∃ db', ((unbounded hash).delete ns key).alone s c db
      = some (.ok ((db.entryAt hash c.now ns key).isSome || db.deadAt hash c.now ns key), db') := by
  unfold CacheStore.delete CacheDb.deadAt CacheDb.entryAt
  rw [hv, bindKey_ok hkey]
  have hs : CacheStmt.exec s c (.selectGeneration ns) db = some (db.generationOf ns, db) := rfl
  show ∃ db', (query (.selectGeneration ns) >>= _ : CacheProg Bool).alone s c db = _
  rw [alone_query hs]
  cases db.generationOf ns with
  | none => exact ⟨db, rfl⟩
  | some g =>
    have hd : CacheStmt.exec s c (.deleteKey ns g (hash key) key) db
        = some (db.deleteWhere (·.isKey ns g (hash key) key)) := by
      simp [CacheStmt.exec, CacheDb.blocked, h.txs]
    show ∃ db', (query (.deleteKey ns g (hash key) key) >>= _ : CacheProg Bool).alone s c db = _
    rw [alone_query hd]
    have hsome : (((db.liveRow ns g (hash key) key c.now).map fun r =>
          (⟨r.valueBytes, r.expiresAt⟩ : Entry)).isSome
        || (db.entries.any fun r => r.isKey ns g (hash key) key && r.expired c.now))
        = decide (db.entries.countP (·.isKey ns g (hash key) key) > 0) := by
      rw [Bool.eq_iff_iff, Bool.or_eq_true, Option.isSome_map, decide_eq_true_eq, gt_iff_lt,
        List.countP_pos_iff, List.any_eq_true, Option.isSome_iff_exists]
      constructor
      · intro hrow
        rcases hrow with ⟨r, hr⟩ | ⟨r, hr, hp⟩
        · exact ⟨r, (db.liveRow_spec hr).1, (db.liveRow_spec hr).2.1⟩
        · exact ⟨r, hr, (Bool.and_eq_true_iff.mp hp).1⟩
      · intro hrow
        obtain ⟨r, hr, hk⟩ := hrow
        cases he : r.expired c.now with
        | false => exact .inl ⟨r, h.ok.liveRow_iff.mpr ⟨hr, hk, he⟩⟩
        | true => exact .inr ⟨r, hr, by rw [hk, he]; rfl⟩
    show ∃ db', (if db.entries.countP (·.isKey ns g (hash key) key) > 0 then _ else _ :
      CacheProg Bool).alone s c _ = some (.ok _, db')
    simp only [hsome]
    split
    · rename_i hn
      rw [decide_eq_true hn]
      exact ⟨_, rfl⟩
    · rename_i hn
      rw [decide_eq_false hn]
      exact ⟨_, rfl⟩

theorem dead_of_live {db : CacheDb} (h : db.Ok) {now : Time} {ns key : String}
    (hl : (db.entryAt hash now ns key).isSome = true) : db.deadAt hash now ns key = false := by
  unfold CacheDb.entryAt at hl
  unfold CacheDb.deadAt
  cases hg : db.generationOf ns with
  | none => rfl
  | some g =>
    rw [hg] at hl
    simp only [Option.isSome_map] at hl
    obtain ⟨r, hr⟩ := Option.isSome_iff_exists.mp hl
    obtain ⟨hm, hk, he⟩ := h.liveRow_iff.mp hr
    rw [← Bool.not_eq_true, List.any_eq_true]
    intro hdead
    obtain ⟨x, hx, hp⟩ := hdead
    obtain ⟨hxk, hxe⟩ := Bool.and_eq_true_iff.mp hp
    have e : x.uniq = r.uniq := (EntryRow.isAt_iff.mp (EntryRow.isKey_iff.mp hxk).1).trans
      (EntryRow.isAt_iff.mp (EntryRow.isKey_iff.mp hk).1).symm
    rw [h.eq_of_uniq hx hm e, he] at hxe
    cases hxe

theorem dead_of_unbound {db : CacheDb} (h : db.Quiet hash K) (hK : ∀ key ∈ K, storable key = true)
    {now : Time} {ns key : String} (hkey : storable key = false) :
    db.deadAt hash now ns key = false := by
  unfold CacheDb.deadAt
  cases db.generationOf ns with
  | none => rfl
  | some g =>
    rw [← Bool.not_eq_true, List.any_eq_true]
    intro hdead
    obtain ⟨x, hx, hp⟩ := hdead
    have hxk := (EntryRow.isKey_iff.mp (Bool.and_eq_true_iff.mp hp).1).2
    have hbound := hK _ (h.known x hx)
    rw [hxk, hkey] at hbound
    cases hbound

/-! ## two runs -/

variable (hash) in
/-- at each `delete` an expired row of its key is stored in both runs or in neither -/
def DeadAlike : List TimedCall → CacheDb → CacheDb → Prop
  | [], _, _ => True
  | x :: rest, db, db' =>
    (∀ ns key, x.op = .delete ns key → validateRead ns key = .ok () →
      db.deadAt hash x.ctx.now ns key = db'.deadAt hash x.ctx.now ns key) ∧
    ∀ p p', (CacheCall.body ⟨unbounded hash, x.rounds, x.op⟩).alone x.sess x.ctx db = some p →
      (CacheCall.body ⟨unbounded hash, x.rounds, x.op⟩).alone x.sess x.ctx db' = some p' →
      DeadAlike rest p.2 p'.2

/-- the answers of one call on two tables that simulate the same map -/
theorem same_answer (hK : ∀ key ∈ K, storable key = true) {op : CacheOp} (hop : op.onKeys = true)
    (rounds : Nat) {db db' d d' : CacheDb} (h : Mirrors hash K db m named c.now)
    (h' : Mirrors hash K db' m named c.now)
    {r r' : PgAppResult CacheReturn} (ho : op.observed r = op.observed r')
    (hx : (CacheCall.body ⟨unbounded hash, rounds, op⟩).alone s c db = some (r, d))
    (hx' : (CacheCall.body ⟨unbounded hash, rounds, op⟩).alone s c db' = some (r', d')) :
    r = r' ↔ ∀ ns key, op = .delete ns key → validateRead ns key = .ok () →
      db.deadAt hash c.now ns key = db'.deadAt hash c.now ns key := by
  cases op with
  | delete ns key =>
    cases hv : validateRead ns key with
    | error e =>
      have hbody : CacheCall.body ⟨unbounded hash, rounds, .delete ns key⟩ = .ret (.error e) := by
        show (Prog.check (validateRead ns key) >>= _) >>= _ = _
        rw [hv]
        rfl
      rw [hbody] at hx hx'
      cases hx
      cases hx'
      simp only [CacheOp.delete.injEq, true_iff]
      intro ns' key' hop hv'
      obtain ⟨rfl, rfl⟩ := hop
      rw [hv] at hv'
      cases hv'
    | ok u =>
      cases hkey : storable key with
      | false =>
        have h1 := alone_answer (delete_refused hash s c db hv hkey) CacheReturn.bool
        have h2 := alone_answer (delete_refused hash s c db' hv hkey) CacheReturn.bool
        cases h1.symm.trans hx
        cases h2.symm.trans hx'
        rw [h.named ns, h'.named ns]
        refine iff_of_true rfl fun ns' key' hop _ => ?_
        obtain ⟨rfl, rfl⟩ := CacheOp.delete.inj hop
        rw [dead_of_unbound h.sim.quiet hK hkey, dead_of_unbound h'.sim.quiet hK hkey]
      | true =>
        obtain ⟨d₁, h1⟩ := delete_answer (s := s) (c := c) h.sim.quiet hv hkey
        obtain ⟨d₂, h2⟩ := delete_answer (s := s) (c := c) h'.sim.quiet hv hkey
        have e1 := (alone_answer h1 CacheReturn.bool).symm.trans hx
        have e2 := (alone_answer h2 CacheReturn.bool).symm.trans hx'
        cases e1
        cases e2
        have hlive : db'.entryAt hash c.now ns key = db.entryAt hash c.now ns key :=
          (h'.sim.agree ns key).trans (h.sim.agree ns key).symm
        simp only [hlive, Except.map, Except.ok.injEq, CacheReturn.bool.injEq, CacheOp.delete.injEq]
        constructor
        · intro heq ns' key' hop _
          obtain ⟨rfl, rfl⟩ := hop
          cases hl : (db.entryAt hash c.now ns key).isSome with
          | true => rw [dead_of_live h.sim.quiet.ok hl, dead_of_live h'.sim.quiet.ok (hlive ▸ hl)]
          | false => simpa [hl] using heq
        · intro hdead
          rw [hdead ns key ⟨rfl, rfl⟩ hv]
  | set _ _ _ _ | setNx _ _ _ _ | getSet _ _ _ _ | append _ _ _ _ | prepend _ _ _ _
  | increment _ _ _ _ | decrement _ _ _ _ | get _ _ | mget _ _ | exists_ _ _ =>
    exact ⟨fun _ ns key hd => (by cases hd), fun _ => ho⟩
  | invalidateNamespace _ | sweepExpired _ | stats => cases hop

/-- **Two runs** on tables that mirror the same map: both return, and their answers are the same
exactly if their deletes find expired rows alike. -/
theorem two_runs (hinj : ∀ a ∈ K, ∀ b ∈ K, hash a = hash b → a = b)
    (hK : ∀ key ∈ K, storable key = true) (calls : List TimedCall)
    (htime : calls.Pairwise fun a b => a.ctx.now ≤ b.ctx.now)
    (hop : ∀ x ∈ calls, x.op.onKeys = true)
    (hk : ∀ x ∈ calls, ∀ key ∈ x.op.keys, storable key = true → key ∈ K) {db db' : CacheDb}
    {m : CacheMap} {named : String → Bool} {now : Time} (h : Mirrors hash K db m named now)
    (h' : Mirrors hash K db' m named now) (hnow : ∀ x ∈ calls, now ≤ x.ctx.now) :
    ∃ r r' d d', runCalls hash calls db = some (r, d) ∧ runCalls hash calls db' = some (r', d') ∧
      (r = r' ↔ DeadAlike hash calls db db') := by
  induction calls generalizing db db' m named now with
  | nil => exact ⟨[], [], db, db', rfl, rfl, fun _ => trivial, fun _ => rfl⟩
  | cons x rest ih =>
    rw [List.pairwise_cons] at htime
    have h1 := h.later (hnow x List.mem_cons_self)
    have h1' := h'.later (hnow x List.mem_cons_self)
    have hox := hop x List.mem_cons_self
    obtain ⟨a, m', named', hall⟩ := call_determined hinj hox
      (hk x List.mem_cons_self) x.rounds m named
      x.sess x.ctx
    obtain ⟨r, d, hx, ho, h2⟩ := hall db h1
    obtain ⟨r', d', hx', ho', h2'⟩ := hall db' h1'
    obtain ⟨rs, rs', e, e', hrest, hrest', hiff⟩ := ih htime.2
      (fun y hy => hop y (List.mem_cons_of_mem _ hy)) (fun y hy => hk y (List.mem_cons_of_mem _ hy))
      h2 h2' htime.1
    have hsame := same_answer hK hox x.rounds h1 h1' (ho.trans ho'.symm) hx hx'
    refine ⟨r :: rs, r' :: rs', e, e', ?_, ?_, ?_⟩
    · unfold runCalls
      rw [hx, Option.bind_some, hrest]
      rfl
    · unfold runCalls
      rw [hx', Option.bind_some, hrest']
      rfl
    · rw [List.cons.injEq, hsame, hiff]
      refine and_congr_right fun _ => ?_
      constructor
      · intro hd p p' hp hp'
        cases hx.symm.trans hp
        cases hx'.symm.trans hp'
        exact hd
      · exact fun hd => hd _ _ hx hx'

/-- a sequence of calls leaves tables that mirror a map -/
theorem calls_mirror (hinj : ∀ a ∈ K, ∀ b ∈ K, hash a = hash b → a = b) (calls : List TimedCall)
    (htime : calls.Pairwise fun a b => a.ctx.now ≤ b.ctx.now)
    (hop : ∀ x ∈ calls, x.op.onKeys = true)
    (hk : ∀ x ∈ calls, ∀ key ∈ x.op.keys, storable key = true → key ∈ K) {db : CacheDb}
    {m : CacheMap} {named : String → Bool} {now : Time} (h : Mirrors hash K db m named now)
    (hnow : ∀ x ∈ calls, now ≤ x.ctx.now) {last : Time} (hle : now ≤ last)
    (hlast : ∀ x ∈ calls, x.ctx.now ≤ last) :
    ∃ r d m' named', runCalls hash calls db = some (r, d) ∧ Mirrors hash K d m' named' last := by
  induction calls generalizing db m named now with
  | nil => exact ⟨[], db, m, named, rfl, h.later hle⟩
  | cons x rest ih =>
    rw [List.pairwise_cons] at htime
    obtain ⟨a, m', named', hall⟩ := call_determined hinj (hop x List.mem_cons_self)
      (hk x List.mem_cons_self) x.rounds m named x.sess x.ctx
    obtain ⟨r, d, hx, -, h2⟩ := hall db (h.later (hnow x List.mem_cons_self))
    obtain ⟨rs, e, m'', named'', hrest, h3⟩ := ih htime.2
      (fun y hy => hop y (List.mem_cons_of_mem _ hy)) (fun y hy => hk y (List.mem_cons_of_mem _ hy))
      h2 htime.1 (hlast x List.mem_cons_self) (fun y hy => hlast y (List.mem_cons_of_mem _ hy))
    refine ⟨r :: rs, e, m'', named'', ?_, h3⟩
    unfold runCalls
    rw [hx, Option.bind_some, hrest]
    rfl

theorem sweep_mirrors {db : CacheDb} (h : Mirrors hash K db m named c.now) (limit : Int)
    (rounds : Nat) :
    ∃ r d, (CacheCall.body ⟨unbounded hash, rounds, .sweepExpired limit⟩).alone s c db
      = some (r, d) ∧
      Mirrors hash K d m named c.now := by
  by_cases hl : 0 ≤ limit
  · obtain ⟨n, d, hx, h1⟩ := sim_sweep (s := s) h.sim hl
    have hissues := cache_issues ⟨unbounded hash, rounds, .sweepExpired limit⟩
    have hx' := alone_answer hx CacheReturn.int
    exact ⟨_, d, hx', h.stayed hissues rfl hx' h1⟩
  · have hd : CacheStmt.exec s c (.doomed limit) db = some (.error .negativeLimit, db) := by
      have hlt : limit < 0 := by omega
      simp [CacheStmt.exec, CacheDb.doomed, hlt]
    have hx : (sweepExpired limit).alone s c db
        = some (.error (.ofSqlx .negativeLimit), db) := by
      unfold sweepExpired
      rw [alone_query hd]
      rfl
    exact ⟨_, db, alone_bind_error hx, h⟩

theorem runCalls_append (before after : List TimedCall) (db : CacheDb) :
    runCalls hash (before ++ after) db = (runCalls hash before db).bind fun p =>
      (runCalls hash after p.2).map fun q => (p.1 ++ q.1, q.2) := by
  induction before generalizing db with
  | nil =>
    show runCalls hash after db = _
    simp [runCalls]
  | cons x rest ih =>
    show ((_ : Option _).bind _) = ((_ : Option _).bind _).bind _
    rw [Option.bind_assoc]
    congr 1
    funext p
    have hih := ih p.2
    show Option.map _ (runCalls hash (rest ++ after) p.2) = _
    rw [hih]
    cases runCalls hash rest p.2 with
    | none => rfl
    | some q => simp [Function.comp_def]

end

/-! ## reachable states -/

/-- the calls of a cache whose keys are hashed by `hash` -/
abbrev HashedCall (hash : String → String) := { c : CacheCall // c.store.hashKey = hash }

theorem quiet_of_reach {hash : String → String} {σ : CacheSysOf (HashedCall hash)}
    (hr : CacheReachOf Subtype.val σ) (hidle : ∀ s, σ.prog s = none) {K : List String}
    (hK : ∀ r ∈ σ.db.entries, r.cacheKey ∈ K) : σ.db.Quiet hash K := by
  have hrel := cache_relies hr
  have htr := (cache_traced Subtype.val hr).1
  refine ⟨hrel.holds.ok, Slots.eq_nil fun s => hrel.resting s (hidle s), fun r hx => ?_, hK,
    fun r hx => ?_⟩
  · obtain ⟨e, he, y, hy, hc⟩ := htr.origin r hx
    obtain ⟨h', ho⟩ := (cache_follows Subtype.val hr).of_mem he
    have hhash := (published_key ho hy).2.1
    rw [e.op.2] at hhash
    have hkey : y.cacheKey = r.cacheKey := congrArg (·.2.2.1) hc
    have hkeyHash : y.keyHash = r.keyHash := congrArg (·.2.1.2.2) hc
    rw [← hkeyHash, ← hkey]
    exact hhash
  · obtain ⟨e, he, y, hy, hc⟩ := htr.origin r hx
    obtain ⟨g, hg, hle⟩ := htr.published e he y hy
    have hns : y.namespace_ = r.namespace_ := congrArg (·.2.1.1) hc
    have hgen : y.generation = r.generation := congrArg (·.2.1.2.1) hc
    rw [← hns, ← hgen]
    exact ⟨g, hg, hle⟩

theorem bound_of_reach {hash : String → String} {σ : CacheSysOf (HashedCall hash)}
    (hr : CacheReachOf Subtype.val σ) : ∀ r ∈ σ.db.entries, storable r.cacheKey = true := by
  intro r hx
  obtain ⟨e, he, y, hy, hc⟩ := (cache_traced Subtype.val hr).1.origin r hx
  obtain ⟨h', ho⟩ := (cache_follows Subtype.val hr).of_mem he
  have hkey : y.cacheKey = r.cacheKey := congrArg (·.2.2.1) hc
  rw [← hkey]
  exact (published_key ho hy).2.2

theorem CacheDb.Quiet.mirrors {hash : String → String} {K : List String} {db : CacheDb}
    (h : db.Quiet hash K) (now : Time) :
    Mirrors hash K db (db.entryAt hash now) (fun ns => (db.generationOf ns).isSome) now where
  sim := ⟨h, fun ns key => by
    unfold CacheMap.at_
    rw [← entryAt_later h.ok (le_refl now)]⟩
  named := fun _ => rfl

/-- **Sweeps seen from later calls.**  In every reachable state, before and after a sweep with any
limit at any point of a sequence of calls at non-decreasing times, all calls return, and the calls
after the sweep answer as they do without it exactly if each `delete` among them finds an expired
row of its key in both runs or in neither. -/
theorem cache_cleanup {hash : String → String} {σ : CacheSysOf (HashedCall hash)}
    (hr : CacheReachOf Subtype.val σ) (hidle : ∀ s, σ.prog s = none)
    (before after : List TimedCall) (sess : Nat) (ctx : CacheCtx) (rounds : Nat) (limit : Int)
    (htime : (before ++ ⟨sess, ctx, rounds, .sweepExpired limit⟩ :: after).Pairwise
      fun a b => a.ctx.now ≤ b.ctx.now)
    (hop : ∀ x ∈ before ++ after, x.op.onKeys = true ∧ x.op.InRange)
    (hinj : ∀ a ∈ σ.db.entries.map (·.cacheKey) ++ (before ++ after).flatMap (·.op.keys),
      ∀ b ∈ σ.db.entries.map (·.cacheKey) ++ (before ++ after).flatMap (·.op.keys),
        hash a = hash b → a = b) :
    ∃ results answer r r' d d' e e', runCalls hash before σ.db = some (results, d) ∧
      (CacheCall.body ⟨unbounded hash, rounds, .sweepExpired limit⟩).alone sess ctx d
        = some (answer, d') ∧
      runCalls hash (before ++ after) σ.db = some (results ++ r, e) ∧
      runCalls hash (before ++ ⟨sess, ctx, rounds, .sweepExpired limit⟩ :: after) σ.db
        = some (results ++ answer :: r', e') ∧
      (r = r' ↔ DeadAlike hash after d d') := by
  obtain ⟨K, hKdef⟩ : ∃ K, K = (σ.db.entries.map (·.cacheKey) ++
    (before ++ after).flatMap (·.op.keys)).filter fun key => storable key := ⟨_, rfl⟩
  have hK : ∀ key ∈ K, storable key = true := fun key hkey =>
    (List.mem_filter.mp (hKdef ▸ hkey)).2
  have hinjK : ∀ a ∈ K, ∀ b ∈ K, hash a = hash b → a = b := fun a ha b hb =>
    hinj a (List.mem_of_mem_filter (hKdef ▸ ha)) b (List.mem_of_mem_filter (hKdef ▸ hb))
  have hkeys : ∀ x ∈ before ++ after, ∀ key ∈ x.op.keys, storable key = true → key ∈ K := by
    intro x hx key hkey hbound
    rw [hKdef]
    exact List.mem_filter.mpr
      ⟨List.mem_append_right _ (List.mem_flatMap.mpr ⟨x, hx, hkey⟩), hbound⟩
  have hq : σ.db.Quiet hash K := quiet_of_reach hr hidle fun r hx => by
    rw [hKdef]
    exact List.mem_filter.mpr
      ⟨List.mem_append_left _ (List.mem_map_of_mem hx), bound_of_reach hr r hx⟩
  obtain ⟨hbefore, hafter, hsides⟩ := List.pairwise_append.mp htime
  rw [List.pairwise_cons] at hafter
  have hlast : ∀ x ∈ before, x.ctx.now ≤ ctx.now := fun x hx => hsides x hx _ List.mem_cons_self
  obtain ⟨now, hnow, hle⟩ : ∃ now, (∀ x ∈ before, now ≤ x.ctx.now) ∧ now ≤ ctx.now := by
    cases before with
    | nil => exact ⟨ctx.now, fun x hx => (by cases hx), le_refl _⟩
    | cons y rest =>
      refine ⟨y.ctx.now, fun x hx => ?_, hlast y List.mem_cons_self⟩
      rcases List.mem_cons.mp hx with rfl | hx
      · exact le_refl _
      · exact (List.pairwise_cons.mp hbefore).1 x hx
  obtain ⟨results, d, m, named, hrun, hd⟩ := calls_mirror hinjK before hbefore
    (fun x hx => (hop x (List.mem_append_left _ hx)).1)
    (fun x hx => hkeys x (List.mem_append_left _ hx)) (hq.mirrors now) hnow hle hlast
  obtain ⟨answer, d', hsweep, hd'⟩ := sweep_mirrors (s := sess) hd limit rounds
  obtain ⟨r, r', e, e', hrest, hrest', hiff⟩ := two_runs hinjK hK after hafter.2
    (fun x hx => (hop x (List.mem_append_right _ hx)).1)
    (fun x hx => hkeys x (List.mem_append_right _ hx)) hd hd' hafter.1
  refine ⟨results, answer, r, r', d, d', e, e', hrun, hsweep, ?_, ?_, hiff⟩
  · rw [runCalls_append, hrun, Option.bind_some, hrest]
    rfl
  · have htail : runCalls hash (⟨sess, ctx, rounds, .sweepExpired limit⟩ :: after) d
        = some (answer :: r', e') := by
      unfold runCalls
      rw [hsweep, Option.bind_some, hrest']
      rfl
    rw [runCalls_append, hrun, Option.bind_some, htail]
    rfl

def setForASecond : HashedCall sampleHash :=
  ⟨⟨unbounded sampleHash, 0, .set "app" "a" [1] (some 1)⟩, rfl⟩

def setOnce : List (Act (HashedCall sampleHash) CacheCtx) :=
  .call 0 setForASecond :: (List.replicate 8 (.stmt 0 ⟨0, id⟩) ++ [.ret 0])

def sweepTwo : TimedCall := ⟨0, ⟨2000000, id⟩, 0, .sweepExpired 2⟩
def deleteA : TimedCall := ⟨0, ⟨3000000, id⟩, 0, .delete "app" "a"⟩
def takeA : TimedCall := ⟨0, ⟨3000000, id⟩, 0, .setNx "app" "a" [2] none⟩

theorem setOnce_reach : ∃ σ : CacheSysOf (HashedCall sampleHash), CacheReachOf Subtype.val σ ∧
    (∀ s, σ.prog s = none) ∧ σ.db.entries.map (·.cacheKey) = ["a"] ∧
    (runCalls sampleHash [takeA, deleteA] σ.db).map (·.1)
      = some [.ok (.bool true), .ok (.bool true)] ∧
    (runCalls sampleHash [sweepTwo, takeA, deleteA] σ.db).map (·.1)
      = some [.ok (.int 1), .ok (.bool true), .ok (.bool true)] ∧
    (runCalls sampleHash [deleteA] σ.db).map (·.1) = some [.ok (.bool true)] ∧
    (runCalls sampleHash [sweepTwo, deleteA] σ.db).map (·.1)
      = some [.ok (.int 1), .ok (.bool false)] := by
  have h : ((Sys.init CacheDb.empty).play CacheStmt.exec (fun op => op.1.body) setOnce).map
      (fun σ : CacheSysOf (HashedCall sampleHash) => ((σ.prog 0).isNone,
        σ.db.entries.map (·.cacheKey), (runCalls sampleHash [takeA, deleteA] σ.db).map (·.1),
        (runCalls sampleHash [sweepTwo, takeA, deleteA] σ.db).map (·.1),
        (runCalls sampleHash [deleteA] σ.db).map (·.1),
        (runCalls sampleHash [sweepTwo, deleteA] σ.db).map (·.1)))
      = some (true, ["a"], some [.ok (.bool true), .ok (.bool true)],
        some [.ok (.int 1), .ok (.bool true), .ok (.bool true)], some [.ok (.bool true)],
        some [.ok (.int 1), .ok (.bool false)]) := by rfl
  obtain ⟨σ, hplay, heq⟩ := Option.map_eq_some_iff.mp h
  simp only [Prod.mk.injEq, Option.isNone_iff_eq_none] at heq
  refine ⟨σ, Sys.play_steps hplay, fun s => ?_, heq.2⟩
  by_cases hs : s = 0
  · rw [hs]
    exact heq.1
  · exact Sys.play_other hplay (by simp [setOnce, Act.sess, Ne.symm hs])

/-- a key taken again before it is deleted: a sweep makes no difference -/
theorem cache_cleanup_takenAgain : ∃ σ : CacheSysOf (HashedCall sampleHash),
    CacheReachOf Subtype.val σ ∧ (∀ s, σ.prog s = none) ∧
    (runCalls sampleHash [takeA, deleteA] σ.db).map (·.1)
      = some [.ok (.bool true), .ok (.bool true)] ∧
    ∃ answer d', (CacheCall.body ⟨unbounded sampleHash, 0, .sweepExpired 2⟩).alone 0 ⟨2000000, id⟩
        σ.db = some (answer, d') ∧
      DeadAlike sampleHash [takeA, deleteA] σ.db d' := by
  obtain ⟨σ, hr, hidle, hkeys, h1, h2, -⟩ := setOnce_reach
  obtain ⟨results, answer, r, r', d, d', e, e', hrun, hsweep, hrest, hrest', hiff⟩ :=
    cache_cleanup hr hidle [] [takeA, deleteA] 0 ⟨2000000, id⟩ 0 2 (by decide)
      (fun x hx => by
        simp only [List.nil_append, List.mem_cons, List.not_mem_nil, or_false] at hx
        rcases hx with rfl | rfl
        · exact ⟨rfl, trivial⟩
        · exact ⟨rfl, trivial⟩)
      (by rw [hkeys]; decide)
  cases hrun
  simp only [List.nil_append] at hrest hrest'
  rw [hrest] at h1
  have h2' : (runCalls sampleHash (⟨0, ⟨2000000, id⟩, 0, .sweepExpired 2⟩ ::
    [takeA, deleteA]) σ.db).map
    (·.1) = _ := h2
  rw [hrest'] at h2'
  simp only [Option.map_some, Option.some.injEq, List.cons.injEq] at h1 h2'
  refine ⟨σ, hr, hidle, ?_, answer, d', hsweep, hiff.mp ?_⟩
  · rw [hrest, h1]
    rfl
  · rw [h1, h2'.2]

/-- an expired key deleted: a sweep makes the answer false -/
theorem cache_cleanup_deletedExpired : ∃ σ : CacheSysOf (HashedCall sampleHash),
    CacheReachOf Subtype.val σ ∧ (∀ s, σ.prog s = none) ∧
    (runCalls sampleHash [deleteA] σ.db).map (·.1) = some [.ok (.bool true)] ∧
    (runCalls sampleHash [sweepTwo, deleteA] σ.db).map (·.1)
      = some [.ok (.int 1), .ok (.bool false)] := by
  obtain ⟨σ, hr, hidle, -, -, -, h1, h2⟩ := setOnce_reach
  exact ⟨σ, hr, hidle, h1, h2⟩

end PgApp
