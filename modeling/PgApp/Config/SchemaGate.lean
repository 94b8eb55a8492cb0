import PgApp.Config.GetRelease

/-!
# The schema of a scope

A schema is checked by `upsert_item` and by `publish`, both while they hold the scope row.

* `SchemaGate`          what a commit lets through satisfies the schema attached to the scope then;
* `FailsWithout`        a call that fails has not committed, and only a commit changes a table;
* `Unblocked`           `delete_item` and removing the schema: no schema stands in their way.
-/

namespace PgApp
open Interleave ConfigProg

/-- the schema attached to a scope -/
def ConfigTables.schemaOf (tb : ConfigTables) (scope : ConfigScope) : Option Json :=
  (tb.scopeOf scope).bind (·.jsonSchema)

/-- `valid(schema, value)` -/
def ConfigStore.Valid (store : ConfigStore) (schema value : Json) : Prop :=
  ∃ validator, store.validatorFor schema = .ok validator ∧ validator value = .ok ()

/-- the value satisfies the schema of the scope, if it has one -/
def ConfigStore.Satisfies (store : ConfigStore) (tb : ConfigTables) (scope : ConfigScope)
    (value : Json) : Prop :=
  ∀ schema, tb.schemaOf scope = some schema → store.Valid schema value

/-- what a commit of `publish` or `upsert_item` adds satisfies the schema of the scope, the one that
is attached before the commit and after it -/
def SchemaGate (e : ConfigEv) : Prop :=
  match e.op.op with
  | .publish scope _ _ => ∃ release fields,
      (e.pre.commit e.sess).tables.releases = e.pre.tables.releases ++ [release] ∧
      release.snapshot = .obj fields ∧ ∀ x ∈ fields,
        e.op.store.Satisfies e.pre.tables scope x.2 ∧
        e.op.store.Satisfies (e.pre.commit e.sess).tables scope x.2
  | .upsertItem scope key value =>
      (∃ i ∈ (e.pre.commit e.sess).tables.items, i.key = key ∧ i.value = value ∧
        i.deleted = false) ∧
      e.op.store.Satisfies e.pre.tables scope value ∧
      e.op.store.Satisfies (e.pre.commit e.sess).tables scope value
  | _ => True

section
variable {store : ConfigStore}

theorem valid_of_check {key : String} {value : Json} {schema : Option Json}
    (h : store.checkSchema key value schema = .ok ()) :
    ∀ s, schema = some s → store.Valid s value := by
  rintro s rfl
  unfold ConfigStore.checkSchema ConfigStore.validateValueAgainstSchema at h
  unfold ConfigStore.Valid
  cases hv : store.validatorFor s with
  | error err =>
    simp only [hv] at h
    cases h
  | ok validator =>
    simp only [hv] at h
    refine ⟨validator, rfl, ?_⟩
    cases hr : validator value with
    | error err =>
      simp only [hr] at h
      cases h
    | ok u => rfl

theorem mem_of_mapInsert {key : String} {value : Json} {l : List (String × Json)}
    {x : String × Json} (h : x ∈ mapInsert key value l) : x = (key, value) ∨ x ∈ l := by
  induction l with
  | nil => exact .inl (List.mem_singleton.mp h)
  | cons y l ih =>
    obtain ⟨k, v⟩ := y
    unfold mapInsert at h
    split at h
    · exact List.mem_cons.mp h
    · split at h
      · rcases List.mem_cons.mp h with h | h
        · exact .inl h
        · exact .inr (List.mem_cons_of_mem _ h)
      · rcases List.mem_cons.mp h with h | h
        · exact .inr (h ▸ List.mem_cons_self)
        · rcases ih h with h | h
          · exact .inl h
          · exact .inr (List.mem_cons_of_mem _ h)

/-- the loop of `publish` lets through only what passes the check -/
theorem buildSnapshot_checked {schema : Option Json} {rows acc fields : List (String × Json)}
    (hacc : ∀ x ∈ acc, store.checkSchema x.1 x.2 schema = .ok ())
    (h : store.buildSnapshot schema rows acc = .ok fields) :
    ∀ x ∈ fields, store.checkSchema x.1 x.2 schema = .ok () := by
  induction rows generalizing acc with
  | nil =>
    obtain rfl : acc = fields := Except.ok.inj h
    exact hacc
  | cons row rows ih =>
    obtain ⟨key, value⟩ := row
    unfold ConfigStore.buildSnapshot at h
    split at h
    · cases h
    · rename_i hcheck
      refine ih (fun x hx => ?_) h
      rcases mem_of_mapInsert hx with rfl | hx
      · exact hcheck
      · exact hacc x hx

end

section
variable {db : ConfigDb} {s : Nat} {t : ConfigTx} {row row' : ScopeRow}

theorem anchored_schema {tb : ConfigTables} (ha : Anchored row (tb.part row)) :
    tb.schemaOf row.scope = row.jsonSchema := by
  unfold ConfigTables.schemaOf
  rcases ha with hr | ⟨hr, -, hs, -⟩
  · have hsc : tb.scopeOf row.scope = some row := hr
    rw [hsc]
    rfl
  · have hsc : tb.scopeOf row.scope = none := hr
    rw [hsc, hs]
    rfl

theorem commit_tables (hg : db.txs.get s = some t) : (db.commit s).tables = t.apply db.tables := by
  unfold ConfigDb.commit
  rw [hg]

theorem commit_schema (L : ConfigLocks db) (hg : db.txs.get s = some t) (hr : t.scope = some row') :
    (db.commit s).tables.schemaOf row'.scope = row'.jsonSchema := by
  have hmem : row' ∈ (db.commit s).tables.scopes := by
    rw [commit_tables hg]
    unfold ConfigTx.apply
    rw [hr]
    exact mem_putScope.mpr (.inl rfl)
  unfold ConfigTables.schemaOf
  rw [(L.commit s).scopeOf_eq hmem]
  rfl

theorem mem_putItem_self (rows : List ItemRow) (i : ItemRow) : i ∈ putItem rows i := by
  unfold putItem
  split
  · rename_i hany
    obtain ⟨x, hx, he⟩ := List.any_eq_true.mp hany
    exact List.mem_map.mpr ⟨x, hx, if_pos he⟩
  · exact List.mem_append_right _ List.mem_cons_self

/-- **One commit** keeps to the schema. -/
theorem schemaGate_of {e : ConfigEv} {h : List ConfigEv} (L : ConfigLocks e.pre)
    (hst : e.stmt = .commit) (hp : configPre e.op e.stmt (configView e.sess e.pre h)) :
    SchemaGate e := by
  rw [hst] at hp
  obtain ⟨t, p, hv, hce⟩ := hp
  obtain ⟨t', hg, he⟩ := Option.map_eq_some_iff.mp hv
  obtain ⟨rfl, hpart⟩ := Prod.mk.inj he
  obtain ⟨r, hscope, rfl⟩ := Option.map_eq_some_iff.mp hpart
  unfold CommitEffect at hce
  unfold SchemaGate
  cases hop : e.op.op with
  | publish scope message publishedBy =>
    rw [hop] at hce
    obtain ⟨row, release, hsc, ha, hpub⟩ := hce
    obtain ⟨time, ht⟩ := hpub.scope
    obtain rfl := Option.some.inj (hscope.symm.trans ht)
    obtain ⟨fields, hbuild, hsnap, -⟩ := hpub.snapshot
    have hpre : e.pre.tables.schemaOf row.scope = row.jsonSchema := anchored_schema ha
    have hpost : (e.pre.commit e.sess).tables.schemaOf row.scope = row.jsonSchema :=
      (commit_schema L hg hscope :)
    refine ⟨release, fields, ?_, hsnap, fun x hx => ?_⟩
    · rw [commit_tables hg, ← hpub.releases]
      rfl
    · have hcheck := buildSnapshot_checked (fun _ h => absurd h List.not_mem_nil) hbuild x hx
      rw [← hsc]
      exact ⟨fun schema hs => valid_of_check hcheck schema (hpre ▸ hs),
        fun schema hs => valid_of_check hcheck schema (hpost ▸ hs)⟩
  | upsertItem scope key value =>
    rw [hop] at hce
    obtain ⟨row, hsc, ha, hw, hcheck⟩ := hce
    obtain rfl := Option.some.inj (hscope.symm.trans hw.scope)
    obtain ⟨id, time, hitems⟩ := hw.items
    have hpre : e.pre.tables.schemaOf r.scope = r.jsonSchema := anchored_schema ha
    have hpost : (e.pre.commit e.sess).tables.schemaOf r.scope = r.jsonSchema :=
      commit_schema L hg hscope
    rw [← hsc]
    refine ⟨⟨⟨id, r.id, key, value, false, time⟩, ?_, rfl, rfl, rfl⟩,
      fun schema hs => valid_of_check hcheck schema (hpre ▸ hs),
      fun schema hs => valid_of_check hcheck schema (hpost ▸ hs)⟩
    rw [commit_tables hg]
    show _ ∈ t'.items.foldl putItem e.pre.tables.items
    rw [hitems]
    exact mem_putItem_self _ _
  | _ => exact trivial

end

/-! ## calls that fail -/

theorem inTx_fails {α : Type} (call : ConfigCall) {p : ConfigProg α} (h : p.Avoids (· = .commit))
    (γ : List ConfigEv) : OwnSafe call (FailsWithout (· = .commit) γ) (inTx p) γ := by
  refine ⟨trivial, fun r γ' hm => ?_⟩
  obtain ⟨s, c, db, rfl⟩ := hm
  refine OwnSafe.bracket (fun h => (by cases h)) call h
    (List.singleton_append ..).symm fun d hd => ?_
  rw [List.mem_singleton.mp hd]
  exact fun h => (by cases h)

theorem check_fails_first {α β : Type} {call : ConfigCall} {r : PgAppResult β}
    {k : β → ConfigProg α} {γ : List ConfigEv}
    (hk : ∀ b, OwnSafe call (FailsWithout (· = .commit) γ) (k b) γ) :
    OwnSafe call (FailsWithout (· = .commit) γ) (Prog.check r >>= k) γ :=
  Safe.check_bind (fun b _ => hk b) fun _ => ⟨[], rfl, fun _ _ hd => absurd hd List.not_mem_nil⟩

theorem avoids_query {α : Type} {st : ConfigStmt} (h : st ≠ .commit) {k : st.Res → ConfigProg α}
    (hk : ∀ r, (k r).Avoids (· = .commit)) : (query st >>= k).Avoids (· = .commit) := ⟨h, hk⟩

theorem watchLoop_avoids (scope : ConfigScope) (known : Int) (interval deadline : Time)
    (rounds : Nat) : (watchLoop scope known interval deadline rounds).Avoids (· = .commit) := by
  induction rounds with
  | zero => exact ⟨by simp, fun _ => trivial⟩
  | succ rounds ih =>
    refine avoids_query (by simp) fun r => ?_
    cases r with
    | some release => exact trivial
    | none =>
      refine avoids_query (by simp) fun _ => avoids_query (by simp) fun now => ?_
      show (if deadline ≤ now then _ else _ : ConfigProg ConfigWatchResult).Avoids _
      split
      · exact trivial
      · exact avoids_query (by simp) fun _ => ih

theorem getLatestRelease_avoids (scope : ConfigScope) :
    (getLatestRelease scope).Avoids (· = .commit) := by
  refine Prog.Avoids.check fun _ => avoids_query (by simp) fun r => ?_
  cases r with
  | none => exact trivial
  | some release => exact trivial

/-- **A call that fails has not committed.** -/
theorem call_failsWithout (call : ConfigCall) (γ : List ConfigEv) :
    OwnSafe call (FailsWithout (· = .commit) γ) call.body γ := by
  have hmap : ∀ {α : Type} {p : ConfigProg α} (f : α → ConfigReturn),
      OwnSafe call (FailsWithout (· = .commit) γ) p γ →
      OwnSafe call (FailsWithout (· = .commit) γ) (p >>= fun a => pure (f a)) γ := by
    intro α p f h
    refine Safe.bind h (fun a γ' hq => ?_) fun e γ' hq => ?_
    · obtain ⟨new, h1, -⟩ := hq
      exact ⟨new, h1, fun ⟨e, he⟩ => (by cases he)⟩
    · obtain ⟨new, h1, h2⟩ := hq
      exact ⟨new, h1, fun _ => h2 ⟨e, rfl⟩⟩
  have hread : ∀ {α : Type} {p : ConfigProg α} (f : α → ConfigReturn), p.Avoids (· = .commit) →
      OwnSafe call (FailsWithout (· = .commit) γ) (p >>= fun a => pure (f a)) γ :=
    fun f h => hmap f (OwnSafe.failsWithout call h γ)
  obtain ⟨store, op⟩ := call
  cases op with
  | upsertItem sc k v =>
    refine hmap (fun _ => .unit) (check_fails_first fun _ => check_fails_first fun _ =>
      check_fails_first fun _ => inTx_fails _ ?_ γ)
    refine avoids_query (by simp) fun _ => avoids_query (by simp) fun _ => ?_
    refine Prog.Avoids.bind trivial fun _ => Prog.Avoids.check fun _ => ?_
    exact avoids_query (by simp) fun _ => trivial
  | setSchema sc schema =>
    refine hmap (fun _ => .unit) (check_fails_first fun _ => check_fails_first fun _ =>
      inTx_fails _ ?_ γ)
    exact avoids_query (by simp) fun _ => ⟨by simp, fun _ => trivial⟩
  | deleteItem sc k =>
    refine hmap .bool (check_fails_first fun _ => check_fails_first fun _ => inTx_fails _ ?_ γ)
    refine avoids_query (by simp) fun _ => avoids_query (by simp) fun _ => ?_
    exact Prog.Avoids.bind trivial fun _ => trivial
  | publish sc m p =>
    refine hmap .release (check_fails_first fun _ => check_fails_first fun _ =>
      check_fails_first fun _ => inTx_fails _ ?_ γ)
    refine avoids_query (by simp) fun _ => avoids_query (by simp) fun _ => ?_
    refine Prog.Avoids.bind trivial fun _ => avoids_query (by simp) fun _ => ?_
    refine avoids_query (by simp) fun _ => Prog.Avoids.bind trivial fun _ => ?_
    refine Prog.Avoids.check fun _ => Prog.Avoids.check fun _ => avoids_query (by simp) fun _ => ?_
    exact Prog.Avoids.bind trivial fun _ => avoids_query (by simp) fun _ => trivial
  | listScopes l o =>
    exact hread .scopes (Prog.Avoids.check fun _ => avoids_query (by simp) fun _ =>
      Prog.Avoids.bind trivial fun _ => trivial)
  | getSchema sc =>
    exact hread .schema (Prog.Avoids.check fun _ => avoids_query (by simp) fun _ => trivial)
  | getDraft sc =>
    refine hread .draft (Prog.Avoids.check fun _ => avoids_query (by simp) fun r => ?_)
    cases r with
    | none => exact trivial
    | some id => exact ⟨by simp, fun _ => trivial⟩
  | getLatestRelease sc => exact hread .release (getLatestRelease_avoids sc)
  | getRelease sc r =>
    refine hread .release (Prog.Avoids.check fun _ => ?_)
    show (if r ≤ 0 then _ else _ : ConfigProg ConfigRelease).Avoids _
    split
    · exact getLatestRelease_avoids sc
    · refine avoids_query (by simp) fun r => ?_
      cases r with
      | none => exact trivial
      | some release => exact trivial
  | listReleases sc l o =>
    exact hread .releases (Prog.Avoids.check fun _ => Prog.Avoids.check fun _ =>
      avoids_query (by simp) fun _ => Prog.Avoids.bind trivial fun _ => trivial)
  | watch sc known timeout interval rounds =>
    refine hread .watched (Prog.Avoids.check fun _ => ?_)
    show (if known < 0 then _ else _ : ConfigProg ConfigWatchResult).Avoids _
    split
    · exact trivial
    · split
      · exact trivial
      · split
        · exact trivial
        · exact avoids_query (by simp) fun now => watchLoop_avoids sc known _ _ rounds

/-! ## calls that no schema stops -/

/-- `delete_item` and the removal of the schema, with valid arguments -/
def Unblocked : ConfigOp → Prop
  | .deleteItem scope key => validateScope scope = .ok () ∧ validateConfigKey key = .ok ()
  | .setSchema scope none => validateScope scope = .ok ()
  | _ => False

theorem bound_null : bound [.null] [] = .ok () := rfl

/-- an item could not be deleted, or a schema not removed -/
def RemovalFails (e : ConfigEv) : Prop :=
  (∃ id key err, (⟨e.stmt, e.res⟩ : (st : ConfigStmt) × st.Res)
    = ⟨.upsertItem id key .null true, .error err⟩) ∨
  ∃ id err, (⟨e.stmt, e.res⟩ : (st : ConfigStmt) × st.Res) = ⟨.updateSchema id none, .error err⟩

theorem removal_succeeds {e : ConfigEv} {h : List ConfigEv}
    (hp : configPre e.op e.stmt (configView e.sess e.pre h))
    (hx : ∃ d, ConfigStmt.exec e.sess e.ctx e.stmt e.pre = some (e.res, d)) : ¬ RemovalFails e := by
  intro hex
  obtain ⟨s, op, c, st, r, db⟩ := e
  obtain ⟨d, hx⟩ := hx
  rcases hex with ⟨id, key, err, heq⟩ | ⟨id, err, heq⟩
  · cases heq
    obtain ⟨t, row, p, hv, hscope, rfl⟩ := hp
    obtain ⟨t', hg, he⟩ := Option.map_eq_some_iff.mp hv
    obtain ⟨rfl, -⟩ := Prod.mk.inj he
    obtain ⟨-, t'', -, ht⟩ := waits_cases hx
    have hseen : (db.seenScopeId s row.id).isNone = false := by
      unfold ConfigDb.seenScopeId ConfigDb.tx
      rw [hg]
      simp [hscope]
    have hres := congrArg Prod.fst (Option.some.inj ht)
    unfold ConfigDb.upsertItem at hres
    rw [bound_null, hseen] at hres
    cases hres
  · cases heq
    obtain ⟨-, t, -, ht⟩ := waits_cases hx
    obtain ⟨p, -, he⟩ := Option.map_eq_some_iff.mp ht
    cases congrArg Prod.fst he

theorem unblocked_answer (call : ConfigCall) (γ : List ConfigEv) :
    OwnSafe call (fun r γ' => Unblocked call.op → (∃ a, r = .ok a) ∨ ∃ e ∈ γ', RemovalFails e)
      call.body γ := by
  obtain ⟨store, op⟩ := call
  by_cases hu : Unblocked op
  · cases op with
    | deleteItem sc k =>
      obtain ⟨h1, h2⟩ := hu
      show OwnSafe _ _ ((Prog.check (validateScope sc) >>= fun _ => Prog.check (validateConfigKey k)
        >>= fun _ => inTx _) >>= _) γ
      rw [h1, h2]
      refine ⟨trivial, fun _ γ₁ _ => ⟨trivial, fun id γ₂ _ => ⟨trivial, fun r γ₃ hm => ?_⟩⟩⟩
      cases r with
      | ok u => exact ⟨trivial, fun _ γ₄ _ _ => .inl ⟨_, rfl⟩⟩
      | error err =>
        obtain ⟨s, c, db, rfl⟩ := hm
        refine ⟨trivial, fun _ γ₄ hm _ => .inr ?_⟩
        obtain ⟨s', c', db', rfl⟩ := hm
        exact ⟨_, List.mem_cons_of_mem _ List.mem_cons_self, .inl ⟨id, k, err, rfl⟩⟩
    | setSchema sc schema =>
      cases schema with
      | some schema => exact absurd hu id
      | none =>
        have h1 : validateScope sc = .ok () := hu
        show OwnSafe _ _ ((Prog.check (validateScope sc) >>= fun _ => Prog.check _
          >>= fun _ => inTx _) >>= _) γ
        rw [h1]
        refine ⟨trivial, fun _ γ₁ _ => ⟨trivial, fun id γ₂ _ => ⟨trivial, fun r γ₃ hm => ?_⟩⟩⟩
        cases r with
        | ok u => exact ⟨trivial, fun _ γ₄ _ _ => .inl ⟨_, rfl⟩⟩
        | error err =>
          obtain ⟨s, c, db, rfl⟩ := hm
          refine ⟨trivial, fun _ γ₄ hm _ => .inr ?_⟩
          obtain ⟨s', c', db', rfl⟩ := hm
          exact ⟨_, List.mem_cons_of_mem _ List.mem_cons_self, .inr ⟨id, err, rfl⟩⟩
    | _ => exact absurd hu id
  · exact (OwnSafe.extends _ _ γ).mono fun _ _ _ h => absurd h hu

section
variable {db : ConfigDb} {s : Nat} {time : Time}

theorem only_others {t : ConfigTx} (h : db.txs = [(s, t)]) (p : ConfigTx → Bool) :
    db.txs.others s p = false ∧ db.txs.get s = some t := by
  rw [h]
  simp [Slots.others, Slots.get]

theorem only_set {t t' : ConfigTx} (h : db.txs = [(s, t)]) : db.txs.set s t' = [(s, t')] := by
  rw [h]
  simp [Slots.set, Slots.erase]

theorem only_ensureScope (clock : Time) (scope : ConfigScope)
    (h : db.txs = [(s, ⟨time, none, [], []⟩)]) :
    ∃ row db', ConfigStmt.exec s clock (.ensureScope scope) db = some (row.id, db') ∧
      db'.txs = [(s, ⟨time, some row, [], []⟩)] := by
  obtain ⟨ho, hg⟩ := only_others h (ConfigTx.holdsScope scope)
  refine ⟨(db.seenScope s scope).getD ⟨db.nextScopeId, scope, 0, time, time, none⟩,
    { db.setTx s ⟨time, some ((db.seenScope s scope).getD
        ⟨db.nextScopeId, scope, 0, time, time, none⟩), [], []⟩ with
      nextScopeId := db.nextScopeId + 1 }, ?_, only_set h⟩
  unfold ConfigStmt.exec ConfigDb.inside
  simp only [ho, hg]
  rfl

theorem only_deleteItem (clock : Time) {row : ScopeRow} (key : String)
    (h : db.txs = [(s, ⟨time, some row, [], []⟩)]) :
    ∃ db', ConfigStmt.exec s clock (.upsertItem row.id key .null true) db = some (.ok (), db') := by
  obtain ⟨ho, hg⟩ := only_others h (ConfigTx.holdsItem row.id key)
  have hseen : (db.seenScopeId s row.id).isNone = false := by
    unfold ConfigDb.seenScopeId ConfigDb.tx
    rw [hg]
    simp
  unfold ConfigStmt.exec ConfigDb.inside ConfigDb.upsertItem
  simp only [ho, hg, bound_null, hseen]
  exact ⟨_, rfl⟩

theorem only_removeSchema (clock : Time) {row : ScopeRow}
    (h : db.txs = [(s, ⟨time, some row, [], []⟩)]) :
    ∃ db', ConfigStmt.exec s clock (.updateSchema row.id none) db = some (.ok (), db') := by
  obtain ⟨ho, hg⟩ := only_others h (ConfigTx.holdsScopeId row.id)
  have hseen : db.seenScopeId s row.id = some row := by
    unfold ConfigDb.seenScopeId ConfigDb.tx
    rw [hg]
    simp
  unfold ConfigStmt.exec ConfigDb.inside ConfigDb.updateSchema ConfigDb.updateScope
  simp only [ho, hg, hseen]
  simp [bound]

end

theorem unblocked_returns {call : ConfigCall} (hu : Unblocked call.op) {db : ConfigDb}
    (htx : db.txs = []) (s : Nat) (clock : Time) :
    ∃ a db', call.body.run (ConfigStmt.exec s clock) db = some (.ok a, db') := by
  obtain ⟨store, op⟩ := call
  have hbegin : (db.begin s clock).txs = [(s, ⟨clock, none, [], []⟩)] := by
    show db.txs.set s _ = _
    rw [htx]
    rfl
  have hb : ConfigStmt.exec s clock .begin db = some ((), db.begin s clock) := rfl
  cases op with
  | deleteItem sc k =>
    obtain ⟨h1, h2⟩ := hu
    obtain ⟨row, db₁, hx₁, ht₁⟩ := only_ensureScope clock sc hbegin
    obtain ⟨db₂, hx₂⟩ := only_deleteItem clock k ht₁
    show ∃ a db', Prog.run _ ((Prog.check (validateScope sc) >>= fun _ =>
      Prog.check (validateConfigKey k) >>= fun _ => inTx _) >>= _) db = _
    rw [h1, h2]
    refine ⟨.bool true, db₂.commit s, ?_⟩
    refine (Prog.run_exec_of _ hb).trans ?_
    refine (Prog.run_exec_of _ hx₁).trans ?_
    exact Prog.run_exec_of _ hx₂
  | setSchema sc schema =>
    cases schema with
    | some schema => exact absurd hu id
    | none =>
      have h1 : validateScope sc = .ok () := hu
      obtain ⟨row, db₁, hx₁, ht₁⟩ := only_ensureScope clock sc hbegin
      obtain ⟨db₂, hx₂⟩ := only_removeSchema clock ht₁
      show ∃ a db', Prog.run _ ((Prog.check (validateScope sc) >>= fun _ => Prog.check _
        >>= fun _ => inTx _) >>= _) db = _
      rw [h1]
      refine ⟨.unit, db₂.commit s, ?_⟩
      refine (Prog.run_exec_of _ hb).trans ?_
      refine (Prog.run_exec_of _ hx₁).trans ?_
      exact Prog.run_exec_of _ hx₂
  | _ => exact absurd hu id

def constTrue : Json := .obj [("const", .bool true)]

/-- `shopStore`, and what it takes to attach the schema `constTrue` and to refuse `false` -/
def strictStore : ConfigStore where
  limits := {}
  toVec := fun
    | .obj [("const", .bool true)] =>
      .ok [123, 34, 99, 111, 110, 115, 116, 34, 58, 116, 114, 117, 101, 125]
    | .bool false => .ok [102, 97, 108, 115, 101]
    | value => shopStore.toVec value
  sha256Hex := shopStore.sha256Hex
  validatorFor := fun
    | .obj [("const", .bool true)] => .ok fun
      | .bool true => .ok ()
      | _ => .error "true was expected"
    | _ => .error "not here"

/-- a schema, an item that it refuses, one that it lets through, a publish, and the item deleted -/
def gatedEdits : List (Act ConfigCall Time) :=
  [.call 0 ⟨strictStore, .setSchema shopScope (some constTrue)⟩] ++ stmts 0 0 4 ++ [.ret 0] ++
  [.call 1 ⟨strictStore, .upsertItem shopScope "a" (.bool false)⟩] ++ stmts 1 10 4 ++ [.ret 1] ++
  [.call 0 ⟨strictStore, .upsertItem shopScope "a" (.bool true)⟩] ++ stmts 0 20 3 ++
  [.call 1 ⟨strictStore, .publish shopScope "first" "ann"⟩] ++ stmts 1 30 1 ++
  stmts 0 40 2 ++ [.ret 0] ++ stmts 1 50 7 ++ [.ret 1] ++
  [.call 0 ⟨strictStore, .deleteItem shopScope "a"⟩] ++ stmts 0 60 4 ++ [.ret 0]

end PgApp
