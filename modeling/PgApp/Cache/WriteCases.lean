import PgApp.Cache.Survival

/-!
# Every write, alone

What a write that runs alone does, for all seven at once (`write_cases`): it is refused and no entry
changes, or it is a `set_nx` of a key that is taken, or it writes one row and enforces the capacity.

* `CacheStore.Leaves`   what a write that writes a row leaves in the end;
* `CacheCall.Stores`    the row it writes, and over which one (`EntryRow.Over`).
-/

namespace PgApp
open Interleave CacheProg

/-! ## a write that writes -/

/-- the program ends with `out` and the tables `d`, where the row `r` has been written at the key -/
structure CacheStore.Leaves (store : CacheStore) (s : Nat) (c : CacheCtx) (rounds : Nat)
    (db : CacheDb)
    (ns key : String) {α : Type} (p : CacheProg α) (r : EntryRow) (out : α)
        (d : CacheDb) : Prop where
  only : ∀ q, p.alone s c db = some q → q = (.ok out, d)
  ends : db.entries.length + 1 < rounds → ∃ q, p.alone s c db = some q
  ok : d.Ok
  txs : d.txs = []
  generation : d.generationOf ns = some ((db.generationOf ns).getD 0)
  rows : ∀ x ∈ d.entries, x = r ∨ x ∈ db.others ns ((db.generationOf ns).getD 0) (store.hashKey key)
  keeps : (∀ m, store.limits.maxKeys = some m → 0 ≤ m) →
    (r ∈ d.entries ↔ store.Keeps db c.now ns ((db.generationOf ns).getD 0) (store.hashKey key) r)
  long : (∀ x ∈ db.others ns ((db.generationOf ns).getD 0) (store.hashKey key),
    x.expired c.now = false) →
    ∀ b, store.limits.maxBytes = some b → b < r.sizeBytes → r ∉ d.entries

section
variable {s : Nat} {c : CacheCtx} {db : CacheDb} {store : CacheStore} {rounds : Nat}
variable {ns key : String} {α β : Type} {p : CacheProg α} {r : EntryRow} {out : α}

theorem others_ensure (db : CacheDb) (ns : String) (now : Time) (g : Int) (keyHash : String) :
    (db.ensureNamespace ns now).others ns g keyHash = db.others ns g keyHash := by
  unfold CacheDb.others
  rw [ensure_entries]

theorem keeps_ensure (db : CacheDb) (ns : String) (clock now : Time) (g : Int) (keyHash : String)
    (r : EntryRow) : store.Keeps (db.ensureNamespace ns clock) now ns g keyHash r ↔
      store.Keeps db now ns g keyHash r := by
  unfold CacheStore.Keeps CacheDb.usedSince
  rw [others_ensure]

theorem WritesRow.map (h : WritesRow s c store rounds db ns key p r out) (f : α → β) :
    WritesRow s c store rounds db ns key (p >>= fun a => pure (f a)) r (f out) := by
  obtain ⟨db₁, hw, hok, hrun⟩ := h
  refine ⟨db₁, hw, hok, ?_⟩
  have hbind : (p >>= fun a => pure (f a)).run (CacheStmt.exec s c) db
      = ((store.written rounds ns >>= fun _ => pure out : CacheProg α) >>= fun a => pure (f a)).run
        (CacheStmt.exec s c) db₁ := by
    rw [Prog.run_bind, Prog.run_bind, show p.run (CacheStmt.exec s c) db = _ from hrun]
  refine hbind.trans ?_
  rw [Prog.run_bind, Prog.run_bind, Prog.run_bind]
  cases (store.written rounds ns).run (CacheStmt.exec s c) db₁ with
  | none => rfl
  | some q =>
    obtain ⟨x, d⟩ := q
    cases x <;> rfl

theorem WritesRow.leaves (h : WritesRow s c store rounds db ns key p r out)
    (hin : r.isIn ns ((db.generationOf ns).getD 0) = true) (hlive : r.expired c.now = false)
    (hr : 0 ≤ r.sizeBytes) (hsizes : ∀ x ∈ db.entries, 0 ≤ x.sizeBytes) :
    ∃ d, store.Leaves s c rounds db ns key p r out d := by
  obtain ⟨db₁, hw, hok, hrun⟩ := h
  have hg : (db.ensureNamespace ns c.now).generationOf ns = some ((db.generationOf ns).getD 0) := by
    rw [generationOf_ensure, if_pos rfl]
  have hrows : ∀ x ∈ db₁.entries,
      x = r ∨ x ∈ db.others ns ((db.generationOf ns).getD 0) (store.hashKey key) := by
    intro x hx
    rw [← others_ensure db ns c.now]
    exact List.mem_cons.mp (hw.rows.mem_iff.mp hx)
  have hsz : ∀ x ∈ db₁.entries, 0 ≤ x.sizeBytes := by
    intro x hx
    rcases hrows x hx with rfl | hx
    · exact hr
    · exact hsizes x (List.mem_of_mem_filter hx)
  obtain ⟨d, hd, hkeep, hlong⟩ := written_keeps (s := s) hok hw hg hin hlive hsz store
  rw [others_ensure] at hlong
  have hp : ∀ q, (store.written rounds ns).alone s c db₁ = some q →
      p.alone s c db = some (.ok out, d) := by
    intro q hq
    have hq' := hd.only rounds q hq
    subst hq'
    exact hrun.trans (Prog.run_bind_ok _ hq)
  refine ⟨d, fun q hq => ?_, fun hlt => ?_, hd.ok, hd.txs, ?_, fun x hx => hrows x (hd.sub x hx),
    fun hpos => (hkeep hpos).trans (keeps_ensure db ns c.now c.now _ _ r), hlong⟩
  · cases hwr : (store.written rounds ns).alone s c db₁ with
    | none =>
      rw [hrun, Prog.run_bind, show (store.written rounds ns).run (CacheStmt.exec s c) db₁ = none
        from hwr] at hq
      cases hq
    | some q₁ =>
      rw [hp q₁ hwr] at hq
      exact (Option.some.inj hq).symm
  · have hlen : db₁.entries.length ≤ db.entries.length + 1 := by
      have h1 := hw.rows.length_eq
      rw [others_ensure, List.length_cons] at h1
      have h2 : (db.others ns ((db.generationOf ns).getD 0) (store.hashKey key)).length
          ≤ db.entries.length := List.length_filter_le _ _
      omega
    obtain ⟨q, hq⟩ := hd.ends rounds (by omega)
    exact ⟨_, hp q hq⟩
  · unfold CacheDb.generationOf at hg ⊢
    rw [hd.namespaces, hw.namespaces]
    exact hg

end

/-! ## the writes of the store -/

/-- the row a write takes the place of: `set` updates whatever row has the unique key, `set_nx`
none, and the others the row of the key unless it has expired -/
def CacheStore.overwritten (store : CacheStore) (db : CacheDb) (now : Time) (op : CacheOp)
    (ns key : String) : Option EntryRow :=
  match op with
  | .set _ _ _ _ =>
    db.entries.find? (·.isAt ns ((db.generationOf ns).getD 0) (store.hashKey key))
  | .setNx _ _ _ _ => none
  | _ => db.liveRow ns ((db.generationOf ns).getD 0) (store.hashKey key) key now

/-- when the entry expires that a write leaves -/
def CacheStore.expiryAfter (store : CacheStore) (db : CacheDb) (now : Time) (op : CacheOp)
    (ns key : String) : Option Time :=
  match store.overwritten db now op ns key with
  | some r => if op.ttl.isNone && op.preserves then r.expiresAt
    else expiryOf now op.ttl
  | none => expiryOf now op.ttl

/-- the row `r` is what a write of `v` leaves over `old` -/
structure EntryRow.Over (r : EntryRow) (old : Option EntryRow) (next : Int)
    (now : Time) : Prop where
  kept : ∀ x, old = some x → r.id = x.id ∧ r.lastAccessedAt = x.lastAccessedAt
  fresh : old = none → r.id = next ∧ r.lastAccessedAt = now

/-- the write stores `v` and hands back `out` -/
structure CacheCall.Stores (call : CacheCall) (s : Nat) (c : CacheCtx) (db : CacheDb)
    (ns key : String)
    (v : Bytes) (r : EntryRow) (out : CacheReturn) : Prop where
  valid : validateWrite ns key call.op.ttl = .ok ()
  bound : Bindable c.now key call.op.ttl
  free : call.op.atomic = true →
    ¬ db.Collides ns ((db.generationOf ns).getD 0) (call.store.hashKey key) key
  writes : WritesRow s c call.store call.rounds db ns key call.body r out
  holds : r.Holds ns ((db.generationOf ns).getD 0) (call.store.hashKey key) key v
    (call.store.expiryAfter db c.now call.op ns key)
  live : r.expired c.now = false
  place : r.Over (call.store.overwritten db c.now call.op ns key) db.nextEntryId c.now

/-- the write is refused: it returns an error and no entry changes -/
structure CacheCall.Refuses (call : CacheCall) (s : Nat) (c : CacheCtx) (db : CacheDb)
    (ns key : String) :
    Prop where
  run : ∃ e d, call.body.alone s c db = some (.error e, d) ∧ d.entries = db.entries
  why : (∃ e, validateWrite ns key call.op.ttl = .error e) ∨ ¬ Bindable c.now key call.op.ttl ∨
    (call.op.atomic = true ∧
      (db.Collides ns ((db.generationOf ns).getD 0) (call.store.hashKey key) key ∨
        call.op.stored (call.store.valueAt db c.now ns key) = none))

section
variable {s : Nat} {c : CacheCtx} {db : CacheDb} {ns key : String}

theorem EntryRow.Holds.isIn {r : EntryRow} {g : Int} {keyHash : String} {v : Bytes}
    {e : Option Time}
    (h : r.Holds ns g keyHash key v e) : r.isIn ns g = true := by
  have h1 := (EntryRow.isKey_iff.mp h.key).1
  unfold EntryRow.isAt at h1
  exact (Bool.and_eq_true_iff.mp h1).1

theorem CacheCall.Stores.leaves {call : CacheCall} {v : Bytes} {r : EntryRow} {out : CacheReturn}
    (S : call.Stores s c db ns key v r out) (hsizes : ∀ x ∈ db.entries, 0 ≤ x.sizeBytes) :
    ∃ d, call.store.Leaves s c call.rounds db ns key call.body r out d := by
  refine S.writes.leaves S.holds.isIn S.live ?_ hsizes
  rw [S.holds.size]
  exact Int.natCast_nonneg _

theorem refuses_invalid {call : CacheCall} {e : PgAppError}
    (hv : validateWrite ns key call.op.ttl = .error e)
    (hrun : call.body.alone s c db = some (.error e, db)) : call.Refuses s c db ns key :=
  ⟨⟨e, db, hrun, rfl⟩, .inl ⟨e, hv⟩⟩

theorem changed_over (db : CacheDb) (g : Int) (keyHash : String) (v : Bytes) (ttl : Option Int)
    (preserve : Bool) (now : Time) :
    (db.changed ns g keyHash key v ttl preserve now).Over (db.liveRow ns g keyHash key now)
      db.nextEntryId now := by
  unfold CacheDb.changed
  cases db.liveRow ns g keyHash key now with
  | none => exact ⟨fun x hx => (by cases hx), fun _ => ⟨rfl, rfl⟩⟩
  | some r =>
    refine ⟨fun x hx => ?_, fun hx => (by cases hx)⟩
    cases hx
    exact ⟨rfl, rfl⟩

/-- the row of a `set` -/
theorem upserted_over (db : CacheDb) (g : Int) (keyHash : String) (v : Bytes) (ttl : Option Int)
    (now : Time) :
    (db.upserted ns g keyHash key v ttl now).Over (db.entries.find? (·.isAt ns g keyHash))
      db.nextEntryId now := by
  unfold CacheDb.upserted
  cases db.entries.find? (·.isAt ns g keyHash) with
  | none => exact ⟨fun x hx => (by cases hx), fun _ => ⟨rfl, rfl⟩⟩
  | some r =>
    refine ⟨fun x hx => ?_, fun hx => (by cases hx)⟩
    cases hx
    exact ⟨rfl, rfl⟩

theorem overwritten_atomic (store : CacheStore) {op : CacheOp} (hat : op.atomic = true)
    (now : Time) :
    store.overwritten db now op ns key
      = db.liveRow ns ((db.generationOf ns).getD 0) (store.hashKey key) key now := by
  cases op with
  | getSet _ _ _ _ | increment _ _ _ _ | decrement _ _ _ _ | append _ _ _ _ | prepend _ _ _ _ => rfl
  | set _ _ _ _ | setNx _ _ _ _ | get _ _ | mget _ _ | exists_ _ _ | delete _ _
  | invalidateNamespace _ | sweepExpired _ | stats => cases hat

/-- an atomic write with the change `f` -/
theorem atomic_cases {α : Type} (h : db.Ok) (htx : db.txs = []) {call : CacheCall}
    {f : Option Bytes → PgAppResult (Bytes × α)} {answer : α → CacheReturn}
    (hmakes : call.op.Makes f answer)
    (hbody : call.body = (call.store.atomicWrite call.rounds ns key call.op.ttl
      call.op.preserves f >>= fun a => pure (answer a)))
    (hat : call.op.atomic = true) :
    call.Refuses s c db ns key ∨
      ∃ v r out, call.op.stored (call.store.valueAt db c.now ns key) = some v ∧
        call.Stores s c db ns key v r out := by
  have hover : call.store.overwritten db c.now call.op ns key = _ :=
    overwritten_atomic call.store hat c.now
  cases hv : validateWrite ns key call.op.ttl with
  | error e =>
    refine .inl (refuses_invalid hv ?_)
    rw [hbody]
    unfold CacheStore.atomicWrite
    rw [hv]
    rfl
  | ok u =>
    by_cases hb : Bindable c.now key call.op.ttl
    case neg =>
      obtain ⟨d, hrun, hd⟩ := atomic_declined (s := s) call.store call.rounds h htx hv hb
        call.op.preserves f
      have hfail := alone_bind_error (k := fun a => pure (answer a)) hrun
      rw [← hbody] at hfail
      exact .inl ⟨⟨_, d, hfail, hd.entries.trans (ensure_entries db ns c.now)⟩, .inr (.inl hb)⟩
    rw [hmakes.stored hat]
    cases hf : f (call.store.valueAt db c.now ns key) with
    | error e =>
      refine .inl ⟨⟨e, _, ?_, ensure_entries db ns c.now⟩, .inr (.inr ⟨hat, .inr ?_⟩)⟩
      · rw [hbody]
        exact alone_bind_error (atomic_fails call.store call.rounds h htx hv hb.key hf)
      · rw [hmakes.stored hat, hf]
        rfl
    | ok q =>
      by_cases hc : db.Collides ns ((db.generationOf ns).getD 0) (call.store.hashKey key) key
      · obtain ⟨e, d, hrun, he⟩ := atomic_collides (s := s) call.store call.rounds h htx hv hb hc hf
          call.op.preserves
        refine .inl ⟨⟨e, d, ?_, he⟩, .inr (.inr ⟨hat, .inl hc⟩)⟩
        rw [hbody]
        exact alone_bind_error hrun
      · refine .inr ⟨q.1, _, answer q.2, rfl, hv, hb, fun _ => hc, ?_, ?_,
          changed_not_expired hv db ((db.generationOf ns).getD 0) (call.store.hashKey key) q.1
            call.op.preserves, ?_⟩
        · rw [hbody]
          exact (atomic_writesRow call.store call.rounds h htx hv hb hc hf).map answer
        · have hh := changed_holds db ns ((db.generationOf ns).getD 0) (call.store.hashKey key) key q.1
            call.op.ttl call.op.preserves c.now
          unfold CacheStore.expiryAfter
          rw [hover]
          exact hh
        · rw [hover]
          exact changed_over db _ _ q.1 _ _ c.now

/-- **Every write, alone.** -/
theorem write_cases (h : db.Ok) (htx : db.txs = []) (s : Nat) (c : CacheCtx) (call : CacheCall)
    (hop : call.op.target = some (ns, key)) :
    call.Refuses s c db ns key ∨
    ((∃ v ttl, call.op = .setNx ns key v ttl) ∧
      validateWrite ns key call.op.ttl = .ok () ∧ Bindable c.now key call.op.ttl ∧
      ∃ d, call.body.alone s c db = some (.ok (.bool false), d)) ∨
    ∃ v r out, call.op.stored (call.store.valueAt db c.now ns key) = some v ∧
      call.Stores s c db ns key v r out := by
  by_cases hat : call.op.atomic = true
  · obtain ⟨ns', key', htarget, hcases⟩ := call.body_atomic hat
    cases hop.symm.trans htarget
    rcases hcases with ⟨e, hbody, hreg⟩ | ⟨α, f, answer, hf, hbody⟩
    · refine .inl ⟨⟨e, db, by rw [hbody]; rfl, rfl⟩, .inr (.inr ⟨hat, .inr ?_⟩)⟩
      rw [stored_atomic hat, hreg]
      rfl
    · exact (atomic_cases h htx hf hbody hat).imp id .inr
  obtain ⟨store, rounds, op⟩ := call
  cases op with
  | set ns' key' v ttl =>
    cases hop
    cases hv : validateWrite ns key ttl with
    | error e =>
      refine .inl (refuses_invalid (e := e) hv ?_)
      show ((store.set rounds ns key v ttl) >>= fun _ => pure CacheReturn.unit).alone s c db = _
      unfold CacheStore.set
      rw [hv]
      rfl
    | ok u =>
      by_cases hb : Bindable c.now key ttl
      case neg =>
        obtain ⟨d, hx, hd⟩ := set_declined (s := s) store db rounds hv hb v
        exact .inl ⟨⟨_, d, alone_bind_error hx, hd.entries.trans (ensure_entries db ns c.now)⟩,
          .inr (.inl hb)⟩
      have hh := upserted_holds db ns ((db.generationOf ns).getD 0)
        (store.hashKey key) key v ttl c.now
      refine .inr (.inr ⟨v, _, .unit, rfl, hv, hb, fun hat => (by cases hat),
        (set_writesRow store rounds h htx hv hb v).map fun _ => CacheReturn.unit, ?_,
        not_expired_of_ttl hv hh.expiry, upserted_over db _ _ v ttl c.now⟩)
      have he : store.expiryAfter db c.now (.set ns key v ttl) ns key = expiryOf c.now ttl := by
        unfold CacheStore.expiryAfter
        split
        · simp [CacheOp.preserves, CacheOp.ttl]
        · rfl
      exact he ▸ hh
  | setNx ns' key' v ttl =>
    cases hop
    cases hv : validateWrite ns key ttl with
    | error e =>
      refine .inl (refuses_invalid (e := e) hv ?_)
      show ((store.setNx rounds ns key v ttl) >>= fun b => pure (CacheReturn.bool b)).alone s c db
        = _
      unfold CacheStore.setNx
      rw [hv]
      rfl
    | ok u =>
      by_cases hb : Bindable c.now key ttl
      case neg =>
        obtain ⟨d, hx, hd⟩ := setNx_declined (s := s) store rounds htx hv hb v
        exact .inl ⟨⟨_, d, alone_bind_error hx, hd.entries.trans (ensure_entries db ns c.now)⟩,
          .inr (.inl hb)⟩
      by_cases hc : ∃ x ∈ db.entries, x.isAt ns ((db.generationOf ns).getD 0)
        (store.hashKey key) = true ∧
          (x.isKey ns ((db.generationOf ns).getD 0) (store.hashKey key) key &&
            x.expired c.now) = false
      · obtain ⟨d, hx⟩ := setNx_taken (s := s) store rounds h htx hv hb v hc
        exact .inr (.inl ⟨⟨v, ttl, rfl⟩, hv, hb, d, Prog.run_bind_ok _ hx⟩)
      · refine .inr (.inr ⟨v, _, .bool true, rfl, hv, hb, fun hat => (by cases hat),
          (setNx_writesRow store rounds h htx hv hb v hc).map CacheReturn.bool,
            newEntry_holds _ v c.now,
          not_expired_of_ttl hv rfl, fun x hx => (by cases hx), fun _ => ⟨rfl, rfl⟩⟩)
  | getSet _ _ _ _ | increment _ _ _ _ | decrement _ _ _ _ | append _ _ _ _ | prepend _ _ _ _ =>
    exact absurd rfl hat
  | get _ _ | mget _ _ | exists_ _ _ | delete _ _ | invalidateNamespace _ | sweepExpired _ | stats =>
    cases hop

end

end PgApp
