import PgApp.Cache.Refine

/-!
# Every sequence of calls

One call alone on tables that agree with the map (`sim_call`), and from it sequences of calls at
non-decreasing times (`cache_refines_map`).  The stores have no limits; SHA-256 is a function that
is injective on the keys used.
-/

namespace PgApp
open Interleave CacheProg

/-- a store without limits -/
def unbounded (hash : String → String) : CacheStore := ⟨{}, hash⟩

section
variable {hash : String → String} {K : List String} {s : Nat} {c : CacheCtx} {α β : Type}
variable {db db' : CacheDb} {m : CacheMap}

theorem alone_answer {p : CacheProg α} {r : PgAppResult α} (h : p.alone s c db = some (r, db'))
    (f : α → β) : (p >>= fun a => pure (f a)).alone s c db = some (r.map f, db') := by
  cases r with
  | ok a => rw [alone_bind_ok h]; rfl
  | error e => exact alone_bind_error h

theorem Simulates.of_tidied {now : Time} (h : Simulates hash K db m now) (hok : db'.Ok)
    (ht : db.Tidied db' now) : Simulates hash K db' m now :=
  h.tidied hok ht.namespaces ht.txs ht.sub ht.live

theorem Simulates.counted {now : Time} (h : Simulates hash K db m now) (k : CacheCounters) :
    Simulates hash K { db with counters := k } m now :=
  h.tidied (h.quiet.ok.congr rfl rfl rfl) rfl h.quiet.txs (fun _ hr => hr) (fun _ hr _ => hr)

theorem Simulates.advanced {now : Time} (h : Simulates hash K db m now) :
    Simulates hash K db.skipId m now :=
  h.tidied (h.quiet.ok.shrink (fun r hr => ⟨r, hr, rfl, rfl⟩) h.quiet.ok.ids
    (Int.le_of_lt (Int.lt_succ _)) rfl) rfl h.quiet.txs (fun _ hr => hr) (fun _ hr _ => hr)

/-! ## writes -/

theorem sim_written (h : Simulates hash K db m c.now) (rounds : Nat) (ns : String) :
    ∃ db', ((unbounded hash).written rounds ns).alone s c db = some (.ok (), db') ∧
      Simulates hash K db' m c.now := by
  have h1 := h.counted (db.counters.add .writes 1)
  obtain ⟨db', hrun, ht⟩ := alone_enforce_unbounded (s := s)
    (unbounded hash) h1.quiet.ok h1.quiet.txs
    rfl rfl rounds ns
  exact ⟨db', hrun, h1.of_tidied (CacheProg.run_ok h1.quiet.ok hrun) ht⟩

theorem generationOf_started (db : CacheDb) (ns : String) (now : Time) :
    (db.ensureNamespace ns now).generationOf ns = some ((db.generationOf ns).getD 0) := by
  rw [generationOf_ensure, if_pos rfl]

theorem sim_set (h : Simulates hash K db m c.now)
    (hinj : ∀ a ∈ K, ∀ b ∈ K, hash a = hash b → a = b) {ns key : String} {ttl : Option Int}
    (hv : validateWrite ns key ttl = .ok ()) (hb : Bindable c.now key ttl) (hkey : key ∈ K)
    (rounds : Nat) (v : Bytes) :
    ∃ db', ((unbounded hash).set rounds ns key v ttl).alone s c db = some (.ok (), db') ∧
      Simulates hash K db' (m.write ns key (some ⟨v, expiryOf c.now ttl⟩)) c.now := by
  have h1 := h.ensure ns c.now
  obtain ⟨db₁, hx, hw⟩ := alone_upsertEntry (s := s) (c := c) h1.quiet.ok h1.quiet.txs ns
    ((db.generationOf ns).getD 0) (hash key) key v hb.ttl
  have h2 := h1.wrote hinj (generationOf_started db ns c.now) hkey hw
    (CacheStmt.exec_ok h1.quiet.ok hx) (upserted_holds _ _ _ _ _ _ _ _)
  obtain ⟨db', hrun, h3⟩ := sim_written (s := s) h2 rounds ns
  refine ⟨db', (alone_start hv _).trans ?_, h3⟩
  rw [bindKey_ok hb.key]
  exact (alone_query hx).trans hrun

/-- between calls no row is in the way of an INSERT, unless it is the live row of the key -/
theorem CacheDb.Quiet.free (h : db.Quiet hash K)
    (hinj : ∀ a ∈ K, ∀ b ∈ K, hash a = hash b → a = b) {ns key : String} {g : Int} (hkey : key ∈ K)
    {now : Time} (hr : db.liveRow ns g (hash key) key now = none) :
    ¬ ∃ x ∈ db.entries, x.isAt ns g (hash key) = true ∧
      (x.isKey ns g (hash key) key && x.expired now) = false := by
  intro hex
  obtain ⟨x, hx, ha, hp⟩ := hex
  have h1 : x.keyHash = hash key := congrArg (·.2.2) (EntryRow.isAt_iff.mp ha)
  have h2 := hinj _ (h.known x hx) _ hkey ((h.hashed x hx).symm.trans h1)
  have hk : x.isKey ns g (hash key) key = true := EntryRow.isKey_iff.mpr ⟨ha, h2⟩
  rw [hk, Bool.true_and] at hp
  have h3 := h.ok.liveRow_iff.mpr ⟨hx, hk, hp⟩
  rw [hr] at h3
  cases h3

theorem sim_setNx (h : Simulates hash K db m c.now)
    (hinj : ∀ a ∈ K, ∀ b ∈ K, hash a = hash b → a = b) {ns key : String} {ttl : Option Int}
    (hv : validateWrite ns key ttl = .ok ()) (hb : Bindable c.now key ttl) (hkey : key ∈ K)
    (rounds : Nat) (v : Bytes) :
    ∃ db', ((unbounded hash).setNx rounds ns key v ttl).alone s c db
        = some (.ok (m.at_ c.now ns key).isNone, db') ∧
      Simulates hash K db' (if (m.at_ c.now ns key).isNone then
        m.write ns key (some ⟨v, expiryOf c.now ttl⟩) else m) c.now := by
  have h1 := h.ensure ns c.now
  have hg := generationOf_started db ns c.now
  have hagree := h1.agree ns key
  unfold CacheDb.entryAt at hagree
  rw [hg] at hagree
  cases hr : (db.ensureNamespace ns c.now).liveRow ns ((db.generationOf ns).getD 0) (hash key) key
      c.now with
  | none =>
    simp only [hr, Option.map_none] at hagree
    rw [← hagree]
    obtain ⟨db₁, hx, hw⟩ := alone_insertAbsent_new (s := s) h1.quiet.ok h1.quiet.txs
      hb.key (h1.quiet.free hinj hkey hr) v hb.ttl
    have h2 := h1.wrote hinj hg hkey hw (CacheProg.run_ok h1.quiet.ok hx) (newEntry_holds _ v c.now)
    obtain ⟨db', hrun, h3⟩ := sim_written (s := s) h2 rounds ns
    refine ⟨db', ?_, h3⟩
    refine (alone_start hv _).trans ((alone_bind_ok hx).trans ?_)
    exact alone_bind_ok hrun
  | some r =>
    simp only [hr, Option.map_some] at hagree
    rw [← hagree]
    obtain ⟨hmem, hk, he⟩ := CacheDb.liveRow_spec hr
    have hp : (r.isKey ns ((db.generationOf ns).getD 0) (hash key) key && r.expired c.now)
        = false := by
      rw [he, Bool.and_false]
    have hx := alone_insertAbsent_taken (s := s) h1.quiet.ok h1.quiet.txs hb.key
      ⟨r, hmem, (EntryRow.isKey_iff.mp hk).1, hp⟩ v hb.ttl
    exact ⟨_, (alone_start hv _).trans (alone_bind_ok hx), h1.advanced⟩

theorem sim_atomicWrite (h : Simulates hash K db m c.now)
    (hinj : ∀ a ∈ K, ∀ b ∈ K, hash a = hash b → a = b) {op : CacheOp} {ns key : String}
    {f : Option Bytes → PgAppResult (Bytes × α)} {answer : α → CacheReturn} (hf : op.Makes f answer)
    (hv : validateWrite ns key op.ttl = .ok ()) (hb : Bindable c.now key op.ttl) (hkey : key ∈ K)
    (rounds : Nat) :
    ∃ r db', ((unbounded hash).atomicWrite rounds ns key op.ttl op.preserves f).alone s c db
        = some (r, db') ∧
      r.map answer = (m.change c.now op ns key).1 ∧
      Simulates hash K db' (m.change c.now op ns key).2 c.now := by
  have h1 := h.ensure ns c.now
  have hg := generationOf_started db ns c.now
  have hagree := h1.agree ns key
  unfold CacheDb.entryAt at hagree
  rw [hg] at hagree
  simp only at hagree
  unfold CacheMap.change
  simp only [hf _, expiry_eq]
  rw [← hagree]
  have hfin : ∀ {db₁ : CacheDb} {out : α} {m' : CacheMap},
      (inTx (changeValue ns ((db.generationOf ns).getD 0)
        (hash key) key op.ttl op.preserves f)).alone
        s c (db.ensureNamespace ns c.now) = some (.ok out, db₁) → Simulates hash K db₁ m' c.now →
      ∃ db', ((unbounded hash).atomicWrite rounds ns key op.ttl op.preserves f).alone s c db
        = some (.ok out, db') ∧ Simulates hash K db' m' c.now := by
    intro db₁ out m' hx h2
    obtain ⟨db', hrun, h3⟩ := sim_written (s := s) h2 rounds ns
    exact ⟨db', (alone_start hv _).trans ((alone_bind_ok hx).trans (alone_bind_ok hrun)), h3⟩
  cases hr : (db.ensureNamespace ns c.now).liveRow ns ((db.generationOf ns).getD 0) (hash key) key
      c.now with
  | none =>
    simp only [Option.map_none]
    cases hfn : f none with
    | error e =>
      have hx := alone_changeValue_fail (s := s) h1.quiet.ok h1.quiet.txs hb.key
        (by rw [hr]; exact hfn) op.ttl op.preserves
      exact ⟨_, _, (alone_start hv _).trans (alone_bind_error hx), rfl, h1⟩
    | ok p =>
      obtain ⟨db₁, hx, hw⟩ := alone_changeValue_absent (s := s) h1.quiet.ok h1.quiet.txs hb.key hr
        (h1.quiet.free hinj hkey hr) hfn hb.ttl op.preserves
      have h2 := h1.wrote hinj hg hkey hw (CacheProg.run_ok h1.quiet.ok hx)
        (newEntry_holds _ p.1 c.now)
      obtain ⟨db', hrun, h3⟩ := hfin hx h2
      refine ⟨_, db', hrun, rfl, ?_⟩
      show Simulates hash K db' (m.write ns key
        (some ⟨p.1, if op.ttl.isNone && op.preserves then none
        else expiryOf c.now op.ttl⟩)) c.now
      rw [show (if op.ttl.isNone && op.preserves then none else expiryOf c.now op.ttl)
        = expiryOf c.now op.ttl by cases op.ttl <;> simp [expiryOf]]
      exact h3
  | some r =>
    simp only [Option.map_some]
    cases hfn : f (some r.valueBytes) with
    | error e =>
      have hx := alone_changeValue_fail (s := s) h1.quiet.ok h1.quiet.txs hb.key
        (by rw [hr]; exact hfn) op.ttl op.preserves
      exact ⟨_, _, (alone_start hv _).trans (alone_bind_error hx), rfl, h1⟩
    | ok p =>
      obtain ⟨db₁, hx, hw⟩ := alone_changeValue_found (s := s) h1.quiet.ok h1.quiet.txs hb.key hr
        hfn hb.ttl op.preserves
      have h2 := h1.wrote hinj hg hkey hw (CacheProg.run_ok h1.quiet.ok hx)
        (withValue_holds (CacheDb.liveRow_spec hr).2.1 p.1 c.now)
      obtain ⟨db', hrun, h3⟩ := hfin hx h2
      exact ⟨_, db', hrun, rfl, h3⟩

/-! ## reads, deletes, invalidations, sweeps -/

theorem sim_get (h : Simulates hash K db m c.now) {ns key : String}
    (hv : validateRead ns key = .ok ()) (hbind : storable key = true) :
    ∃ db', ((unbounded hash).get ns key).alone s c db = some (.ok (m.read c.now ns key), db') ∧
      Simulates hash K db' m c.now := by
  have hagree := h.agree ns key
  unfold CacheMap.read
  rw [← hagree]
  unfold CacheStore.get CacheDb.entryAt
  rw [hv, bindKey_ok hbind]
  have hs : CacheStmt.exec s c (.selectGeneration ns) db = some (db.generationOf ns, db) := rfl
  show ∃ db', (query (.selectGeneration ns) >>= _ : CacheProg (Option Bytes)).alone s c db = _ ∧ _
  rw [alone_query hs]
  cases db.generationOf ns with
  | none => exact ⟨_, rfl, h.counted _⟩
  | some g =>
    have hl : CacheStmt.exec s c (.selectLive ns g (hash key) key) db
        = some ((db.liveRow ns g (hash key) key c.now).map fun r => (r.id, r.valueBytes), db) := rfl
    show ∃ db', (query (.selectLive ns g (hash key) key) >>= _ : CacheProg (Option Bytes)).alone s c
      db = some (.ok (((db.liveRow ns g (hash key) key c.now).map _).map _), db') ∧ _
    rw [alone_query hl]
    cases db.liveRow ns g (hash key) key c.now with
    | none => exact ⟨_, rfl, h.counted _⟩
    | some r =>
      have ht : CacheStmt.exec s c (.touch r.id) db = some ((), db.touch r.id c.now) := by
        simp [CacheStmt.exec, CacheDb.blocked, h.quiet.txs]
      refine ⟨_, (alone_query ht).trans rfl, (h.touched r.id c.now).counted _⟩

theorem sim_mget (ns : String) (keys : List String)
    (hv : ∀ key ∈ keys, validateRead ns key = .ok ()) (hb : ∀ key ∈ keys, storable key = true)
      {db : CacheDb}
    (h : Simulates hash K db m c.now) (results : List (String × Option Bytes)) :
    ∃ db', ((unbounded hash).mgetLoop ns keys results).alone s c db
        = some (.ok (results ++ keys.map fun key => (key, m.read c.now ns key)), db') ∧
      Simulates hash K db' m c.now := by
  induction keys generalizing db results with
  | nil =>
    refine ⟨db, ?_, h⟩
    rw [List.map_nil, List.append_nil]
    rfl
  | cons key rest ih =>
    obtain ⟨db₁, hx, h1⟩ := sim_get (s := s) h (hv key List.mem_cons_self)
      (hb key List.mem_cons_self)
    obtain ⟨db', hrun, h2⟩ := ih (fun k hk => hv k (List.mem_cons_of_mem _ hk))
      (fun k hk => hb k (List.mem_cons_of_mem _ hk)) h1 (results ++ [(key, m.read c.now ns key)])
    refine ⟨db', (alone_bind_ok hx).trans ?_, h2⟩
    rw [hrun, List.append_assoc]
    rfl

theorem sim_delete (h : Simulates hash K db m c.now) {ns key : String}
    (hv : validateRead ns key = .ok ()) (hbind : storable key = true) :
    ∃ b db', ((unbounded hash).delete ns key).alone s c db = some (.ok b, db') ∧
      Simulates hash K db' (m.write ns key none) c.now := by
  unfold CacheStore.delete
  rw [hv, bindKey_ok hbind]
  have hs : CacheStmt.exec s c (.selectGeneration ns) db = some (db.generationOf ns, db) := rfl
  show ∃ b db', (query (.selectGeneration ns) >>= _ : CacheProg Bool).alone s c db = _ ∧ _
  rw [alone_query hs]
  cases hg : db.generationOf ns with
  | none =>
    refine ⟨false, db, rfl, h.quiet, fun ns' key' => ?_⟩
    rw [h.agree]
    show _ = (m.write ns key none ns' key').filter _
    unfold CacheMap.write
    by_cases e : ns' = ns ∧ key' = key
    · rw [if_pos e, ← h.agree, e.1, e.2]
      unfold CacheDb.entryAt
      rw [hg]
      rfl
    · rw [if_neg e]
      rfl
  | some g =>
    have hd : CacheStmt.exec s c (.deleteKey ns g (hash key) key) db
        = some (db.deleteWhere (·.isKey ns g (hash key) key)) := by
      simp [CacheStmt.exec, CacheDb.blocked, h.quiet.txs]
    show ∃ b db', (query (.deleteKey ns g (hash key) key) >>= _ : CacheProg Bool).alone s c db = _ ∧ _
    rw [alone_query hd]
    have h1 : Simulates hash K (db.deleteWhere (·.isKey ns g (hash key) key)).2
        (m.write ns key none) c.now := h.deletedKey hg
    split
    · exact ⟨true, _, rfl, h1.counted _⟩
    · exact ⟨false, _, rfl, h1⟩

theorem sim_invalidate (h : Simulates hash K db m c.now) {ns : String}
    (hv : validateNamespace ns = .ok ()) :
    ∃ db', (invalidateNamespace ns).alone s c db = some (.ok (), db') ∧
      Simulates hash K db' (m.clear ns) c.now := by
  have h1 := h.ensure ns c.now
  have hw : CacheStmt.exec s c (.viewRows ns) (db.ensureNamespace ns c.now)
      = some ((db.ensureNamespace ns c.now).viewRows ns, db.ensureNamespace ns c.now) := rfl
  have hb : CacheStmt.exec s c (.bumpGeneration ns ((db.ensureNamespace ns c.now).viewRows ns))
      (db.ensureNamespace ns c.now) = some ((), (db.ensureNamespace ns c.now).bumpGeneration ns
        ((db.ensureNamespace ns c.now).viewRows ns) c.now) := by
    simp [CacheStmt.exec, CacheDb.blocked, h1.quiet.txs]
  have he : CacheStmt.exec s c (.ensureNamespace ns) db
      = some ((), db.ensureNamespace ns c.now) := rfl
  refine ⟨_, ?_, h1.bumped (generationOf_started db ns c.now) c.now⟩
  unfold invalidateNamespace
  rw [hv]
  exact (alone_query he).trans ((alone_query hw).trans (Prog.run_exec_of _ hb))

theorem sim_sweep (h : Simulates hash K db m c.now) {limit : Int} (hl : 0 ≤ limit) :
    ∃ n db', (sweepExpired limit).alone s c db = some (.ok n, db') ∧
      Simulates hash K db' m c.now := by
  obtain ⟨db', hrun, he, hn, ht, -⟩ := alone_sweepExpired (s := s) (c := c) h.quiet.txs limit.toNat
  rw [Int.toNat_of_nonneg hl] at hrun
  exact ⟨_, db', hrun, h.of_tidied (CacheProg.run_ok h.quiet.ok hrun)
    (unswept_tidied h.quiet.ok limit.toNat he hn ht)⟩

/-! ## calls -/

theorem CacheOp.Valid.write {op : CacheOp} (h : op.Valid) {ns key : String}
    (htarget : op.target = some (ns, key)) : validateWrite ns key op.ttl = .ok () := by
  cases op with
  | set _ _ _ _ | setNx _ _ _ _ | getSet _ _ _ _ | append _ _ _ _ | prepend _ _ _ _ =>
    cases htarget
    exact h
  | increment _ _ _ _ | decrement _ _ _ _ =>
    cases htarget
    exact h.1
  | get _ _ | mget _ _ | exists_ _ _ | delete _ _ | invalidateNamespace _ | sweepExpired _ | stats =>
    cases htarget

theorem step_atomic {op : CacheOp} (hat : op.atomic = true) {ns key : String}
    (htarget : op.target = some (ns, key)) (m : CacheMap) (now : Time) :
    key ∈ op.keys ∧ (∀ r, op.observed r = r) ∧ m.step now op = m.change now op ns key := by
  cases op with
  | getSet _ _ _ _ | increment _ _ _ _ | decrement _ _ _ _ | append _ _ _ _ | prepend _ _ _ _ =>
    cases htarget
    exact ⟨List.mem_cons_self, fun _ => rfl, rfl⟩
  | set _ _ _ _ | setNx _ _ _ _ | get _ _ | mget _ _ | exists_ _ _ | delete _ _
  | invalidateNamespace _ | sweepExpired _ | stats => cases hat

theorem change_set (m : CacheMap) (now : Time) (ns key : String) (v : Bytes) (ttl : Option Int) :
    m.change now (.set ns key v ttl) ns key
      = (.ok .unit, m.write ns key (some ⟨v, expiryOf now ttl⟩)) := by
  unfold CacheMap.change
  simp only [expiry_eq]
  cases ttl <;> rfl

theorem change_setNx {m : CacheMap} {now : Time} {ns key : String} (h : m.at_ now ns key = none)
    (v : Bytes) (ttl : Option Int) :
    m.change now (.setNx ns key v ttl) ns key
      = (.ok (.bool true), m.write ns key (some ⟨v, expiryOf now ttl⟩)) := by
  unfold CacheMap.change
  simp only [expiry_eq, h]
  cases ttl <;> rfl

/-- **One call**: it returns, answers as the map does, and the tables agree with the map after
it. -/
theorem sim_call (h : Simulates hash K db m c.now)
    (hinj : ∀ a ∈ K, ∀ b ∈ K, hash a = hash b → a = b) {op : CacheOp} (hv : op.Valid)
    (hb : op.Bindable c.now) (hk : ∀ key ∈ op.keys, key ∈ K) (rounds : Nat) :
    ∃ r db', (CacheCall.body ⟨unbounded hash, rounds, op⟩).alone s c db = some (r, db') ∧
      op.observed r = (m.step c.now op).1 ∧ Simulates hash K db' (m.step c.now op).2 c.now := by
  by_cases hat : op.atomic = true
  · obtain ⟨ns, key, htarget, hcases⟩ := CacheCall.body_atomic ⟨unbounded hash, rounds, op⟩ hat
    obtain ⟨hkeys, hobs, hstep⟩ := step_atomic hat htarget m c.now
    rw [hstep]
    rcases hcases with ⟨e, hbody, hreg⟩ | ⟨α, f, answer, hf, hbody⟩
    · have hchange : m.change c.now op ns key = (.error e, m) := by
        unfold CacheMap.change
        simp only [show op.register _ = .error e from hreg _]
      refine ⟨.error e, db, by rw [hbody]; rfl, ?_⟩
      rw [hobs, hchange]
      exact ⟨rfl, h⟩
    · obtain ⟨r, db', hrun, he, h1⟩ := sim_atomicWrite (s := s) h hinj hf (hv.write htarget)
        ⟨hb.1 key hkeys, hb.2⟩ (hk key hkeys) rounds
      refine ⟨_, db', ?_, (hobs _).trans he, h1⟩
      rw [hbody]
      exact alone_answer hrun answer
  cases op with
  | set ns key v ttl =>
    obtain ⟨db', hrun, h1⟩ := sim_set (s := s) h hinj hv
      ⟨hb.1 key (by simp [CacheOp.keys]), hb.2⟩ (hk key (by simp [CacheOp.keys])) rounds v
    refine ⟨_, db', alone_answer hrun fun _ => CacheReturn.unit, ?_⟩
    rw [CacheMap.step, change_set]
    exact ⟨rfl, h1⟩
  | setNx ns key v ttl =>
    obtain ⟨db', hrun, h1⟩ := sim_setNx (s := s) h hinj hv
      ⟨hb.1 key (by simp [CacheOp.keys]), hb.2⟩ (hk key (by simp [CacheOp.keys])) rounds v
    refine ⟨_, db', alone_answer hrun CacheReturn.bool, ?_⟩
    rw [CacheMap.step]
    cases hm : m.at_ c.now ns key with
    | none =>
      rw [hm] at h1
      rw [change_setNx hm]
      exact ⟨rfl, h1⟩
    | some e =>
      rw [hm] at h1
      exact ⟨rfl, h1⟩
  | getSet _ _ _ _ | increment _ _ _ _ | decrement _ _ _ _ | append _ _ _ _ | prepend _ _ _ _ =>
    exact absurd rfl hat
  | get ns key =>
    obtain ⟨db', hrun, h1⟩ := sim_get (s := s) h hv (hb.1 key (by simp [CacheOp.keys]))
    exact ⟨_, db', alone_answer hrun CacheReturn.value, rfl, h1⟩
  | mget ns keys =>
    obtain ⟨db', hrun, h1⟩ := sim_mget (s := s) ns keys hv hb.1 h []
    exact ⟨_, db', alone_answer hrun CacheReturn.values, rfl, h1⟩
  | exists_ ns key =>
    obtain ⟨db', hrun, h1⟩ := sim_get (s := s) h hv (hb.1 key (by simp [CacheOp.keys]))
    exact ⟨_, db', alone_answer (alone_answer hrun Option.isSome) CacheReturn.bool, rfl, h1⟩
  | delete ns key =>
    obtain ⟨b, db', hrun, h1⟩ := sim_delete (s := s) h hv (hb.1 key (by simp [CacheOp.keys]))
    exact ⟨_, db', alone_answer hrun CacheReturn.bool, rfl, h1⟩
  | invalidateNamespace ns =>
    obtain ⟨db', hrun, h1⟩ := sim_invalidate (s := s) h hv
    exact ⟨_, db', alone_answer hrun fun _ => CacheReturn.unit, rfl, h1⟩
  | sweepExpired limit =>
    obtain ⟨n, db', hrun, h1⟩ := sim_sweep (s := s) h hv
    exact ⟨_, db', alone_answer hrun CacheReturn.int, rfl, h1⟩
  | stats => exact absurd hv id

end

/-! ## sequences of calls -/

/-- a call made at a time by a session -/
structure TimedCall where
  sess : Nat
  ctx : CacheCtx
  rounds : Nat
  op : CacheOp

/-- the calls one after the other, each alone: their answers and the tables they leave -/
def runCalls (hash : String → String) :
    List TimedCall → CacheDb → Option (List (PgAppResult CacheReturn) × CacheDb)
  | [], db => some ([], db)
  | x :: rest, db =>
    ((CacheCall.body ⟨unbounded hash, x.rounds, x.op⟩).alone x.sess x.ctx db).bind fun p =>
      (runCalls hash rest p.2).map fun q => (p.1 :: q.1, q.2)

/-- the calls one after the other on the map -/
def CacheMap.run : List TimedCall → CacheMap → List (PgAppResult CacheReturn) × CacheMap
  | [], m => ([], m)
  | x :: rest, m =>
    let p := m.step x.ctx.now x.op
    let q := CacheMap.run rest p.2
    (p.1 :: q.1, q.2)

section
variable {hash : String → String} {K : List String}

theorem sim_calls (hinj : ∀ a ∈ K, ∀ b ∈ K, hash a = hash b → a = b) (calls : List TimedCall)
    (htime : calls.Pairwise fun a b => a.ctx.now ≤ b.ctx.now) (hv : ∀ x ∈ calls, x.op.Valid)
    (hb : ∀ x ∈ calls, x.op.Bindable x.ctx.now)
    (hk : ∀ x ∈ calls, ∀ key ∈ x.op.keys, key ∈ K) {db : CacheDb} {m : CacheMap} {now : Time}
    (h : Simulates hash K db m now) (hnow : ∀ x ∈ calls, now ≤ x.ctx.now) :
    ∃ results db' last, runCalls hash calls db = some (results, db') ∧
      results.length = calls.length ∧
      List.zipWith (fun x r => x.op.observed r) calls results = (CacheMap.run calls m).1 ∧
      Simulates hash K db' (CacheMap.run calls m).2 last ∧
      ∀ t, now ≤ t → (∀ x ∈ calls, x.ctx.now ≤ t) → last ≤ t := by
  induction calls generalizing db m now with
  | nil => exact ⟨[], db, now, rfl, rfl, rfl, h, fun t ht _ => ht⟩
  | cons x rest ih =>
    rw [List.pairwise_cons] at htime
    have h1 := h.later (hnow x List.mem_cons_self)
    obtain ⟨r, db₁, hrun, hobs, h2⟩ := sim_call (s := x.sess) h1 hinj (hv x List.mem_cons_self)
      (hb x List.mem_cons_self) (hk x List.mem_cons_self) x.rounds
    obtain ⟨results, db', last, hrest, hlen, hzip, h3, hlast⟩ := ih htime.2
      (fun y hy => hv y (List.mem_cons_of_mem _ hy)) (fun y hy => hb y (List.mem_cons_of_mem _ hy))
      (fun y hy => hk y (List.mem_cons_of_mem _ hy)) h2 htime.1
    refine ⟨r :: results, db', last, ?_, by simp [hlen], ?_, h3, fun t _ ht => ?_⟩
    · unfold runCalls
      rw [hrun, Option.bind_some, hrest]
      rfl
    · show x.op.observed r :: List.zipWith _ rest results = _
      rw [hzip, hobs]
      rfl
    · exact hlast t (ht x List.mem_cons_self) fun y hy => ht y (List.mem_cons_of_mem _ hy)

theorem Simulates.empty (now : Time) : Simulates hash K CacheDb.empty CacheMap.empty now where
  quiet := ⟨CacheDb.Ok.empty, rfl, fun r hr => (by cases hr), fun r hr => (by cases hr),
    fun r hr => (by cases hr)⟩
  agree := fun _ _ => rfl

end

/-- **The cache is the map.**  Every sequence of calls with valid arguments that PostgreSQL takes,
at non-decreasing times, served without limits, returns; its answers are those of the map, and from
then on the tables hold the entries of the map. -/
theorem cache_refines_map (hash : String → String) (calls : List TimedCall)
    (htime : calls.Pairwise fun a b => a.ctx.now ≤ b.ctx.now) (hv : ∀ x ∈ calls, x.op.Valid)
    (hb : ∀ x ∈ calls, x.op.Bindable x.ctx.now)
    (hinj : ∀ a ∈ calls.flatMap (·.op.keys), ∀ b ∈ calls.flatMap (·.op.keys),
      hash a = hash b → a = b) :
    ∃ results db', runCalls hash calls CacheDb.empty = some (results, db') ∧
      results.length = calls.length ∧
      List.zipWith (fun x r => x.op.observed r) calls results = (CacheMap.empty.run calls).1 ∧
      ∀ now, (∀ x ∈ calls, x.ctx.now ≤ now) → ∀ ns key,
        db'.entryAt hash now ns key = (CacheMap.empty.run calls).2.at_ now ns key := by
  have hk : ∀ x ∈ calls, ∀ key ∈ x.op.keys, key ∈ calls.flatMap (·.op.keys) := fun x hx key hkey =>
    List.mem_flatMap.mpr ⟨x, hx, hkey⟩
  cases calls with
  | nil => exact ⟨[], CacheDb.empty, rfl, rfl, rfl, fun _ _ _ _ => rfl⟩
  | cons x rest =>
    have hfirst : ∀ y ∈ x :: rest, x.ctx.now ≤ y.ctx.now := by
      intro y hy
      rcases List.mem_cons.mp hy with rfl | hy
      · exact le_rfl
      · exact (List.pairwise_cons.mp htime).1 y hy
    obtain ⟨results, db', last, hrun, hlen, hzip, h, hlast⟩ :=
      sim_calls hinj (x :: rest) htime hv hb hk
      (Simulates.empty x.ctx.now) hfirst
    refine ⟨results, db', hrun, hlen, hzip, fun now hnow ns key => ?_⟩
    exact (h.later (hlast now (hnow x List.mem_cons_self) hnow)).agree ns key

/-- SHA-256 of one key -/
def counterHash (key : String) : String :=
  if key = "counter" then "efe899c74558f20b08bbc19bf0228c0c25bddb7871d80bd34ac8b33c030b3698"
  else key

def countedCalls : List TimedCall :=
  [⟨0, ⟨0, id⟩, 0, .set "app" "counter" [53] (some 1)⟩,
   ⟨1, ⟨5, id⟩, 0, .increment "app" "counter" 2 none⟩,
   ⟨0, ⟨2000000, id⟩, 0, .get "app" "counter"⟩]

theorem cache_refines_map_counted :
    (CacheMap.empty.run countedCalls).1 = [.ok .unit, .ok (.int 7), .ok (.value none)] ∧
    ∃ results db', runCalls counterHash countedCalls CacheDb.empty = some (results, db') ∧
      results.length = countedCalls.length ∧
      List.zipWith (fun x r => x.op.observed r) countedCalls results
        = (CacheMap.empty.run countedCalls).1 ∧
      ∀ now, (∀ x ∈ countedCalls, x.ctx.now ≤ now) → ∀ ns key,
        db'.entryAt counterHash now ns key
            = (CacheMap.empty.run countedCalls).2.at_ now ns key := by
  refine ⟨by rfl, cache_refines_map counterHash countedCalls (by decide) ?_ ?_ (by decide)⟩
  · intro x hx
    simp only [countedCalls, List.mem_cons, List.not_mem_nil, or_false] at hx
    rcases hx with rfl | rfl | rfl
    · rfl
    · exact ⟨rfl, by decide⟩
    · rfl
  · unfold CacheOp.Bindable
    decide

end PgApp
