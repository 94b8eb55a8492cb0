import PgApp.Config.SerialCalls
import PgApp.Interleave.Dropped
import PgApp.Server.WatchRpc

/-!
# The calls of the Config Center, one by one

Each call is one step of the store of documents (`body_answered`), and after the COMMIT of a call
there is nothing left of it but its answer (`body_last`).
-/

namespace PgApp
open Interleave ConfigProg

section
variable {α : Type} {call : ConfigCall} {f : α → ConfigReturn} {l : List ConfigEv}
variable {t : ConfigTx} {p : ScopePart} {row : ScopeRow} {scope : ConfigScope}

theorem refused_at_once {e : PgAppError} (hw : call.op.writes = some scope)
    (h : ∀ now doc, call.change now doc = .error e) : AnswerSafe call f l (.ret (.error e)) := by
  refine answered_at_once fun now docs => ?_
  unfold ConfigCall.Does
  rw [hw]
  dsimp only
  rw [h]
  exact ⟨rfl, rfl⟩

/-! ## the transactions -/

section
variable (store : ConfigStore) (key : String) (value : Json) (message publishedBy : String)

theorem upsertItem_answered : AnswerSafe ⟨store, .upsertItem scope key value⟩ (fun _ => .unit) l
    (store.upsertItem scope key value) := by
  refine Safe.check_cases (fun _ h1 => Safe.check_cases
    (fun _ h2 => Safe.check_cases (fun _ h3 => ?_)
    fun e h3 => ?_) fun e h2 => ?_) fun e h1 => ?_
  · refine inTx_answered ?_ fun time l => ?_
    · refine avoids_query (by simp) fun _ => avoids_query (by simp) fun _ => ?_
      refine Prog.Avoids.bind trivial fun _ => Prog.Avoids.check fun _ => ?_
      exact avoids_query (by simp) fun _ => trivial
    refine takes_bind fun row p l hsc ht => schema_bind rfl fun l => ?_
    subst hsc
    have hchange : ConfigCall.change ⟨store, .upsertItem row.scope key value⟩ time
        (docOf row p.items p.releases) = (do
          store.checkSchema key value row.jsonSchema
          stored [value] []
          pure (.unit, (docOf row p.items p.releases).write ⟨key, value, false, time⟩)) := by
      unfold ConfigCall.change
      dsimp only
      rw [h1, h2, h3]
      rfl
    refine Safe.check_cases (fun _ hc => ?_) fun e hc => ?_
    · refine written_bind (k := fun r => orFail r) rfl (fun hb i l => ?_) fun e l hb => ?_
      · refine ⟨_, p, rfl, ⟨row, rfl, ht.anchored, ⟨rfl, ⟨i, time, rfl⟩, rfl⟩, hc⟩, ?_⟩
        refine ⟨row, row, rfl, rfl, rfl, rfl, ht, ?_⟩
        rw [hchange, hc, stored, hb, List.append_nil, ← ht.write i]
        rfl
      · refine ⟨_, p, rfl, row, rfl, rfl, ht, ?_⟩
        rw [hchange, hc, stored, hb]
        rfl
    · refine ⟨_, p, rfl, row, rfl, rfl, ht, ?_⟩
      rw [hchange, hc]
      rfl
  · refine refused_at_once rfl fun now doc => ?_
    unfold ConfigCall.change
    dsimp only
    rw [h1, h2, h3]
    rfl
  · refine refused_at_once rfl fun now doc => ?_
    unfold ConfigCall.change
    dsimp only
    rw [h1, h2]
    rfl
  · refine refused_at_once rfl fun now doc => ?_
    unfold ConfigCall.change
    dsimp only
    rw [h1]
    rfl

theorem deleteItem_answered : AnswerSafe ⟨store, .deleteItem scope key⟩ (fun b => .bool b) l
    (deleteItem scope key) := by
  refine Safe.check_cases (fun _ h1 => Safe.check_cases (fun _ h2 => ?_) fun e h2 => ?_)
    fun e h1 => ?_
  · refine inTx_answered ?_ fun time l => ?_
    · refine avoids_query (by simp) fun _ => avoids_query (by simp) fun _ => ?_
      exact Prog.Avoids.bind trivial fun _ => trivial
    refine takes_bind fun row p l hsc ht => ?_
    subst hsc
    refine written_bind rfl (fun _ i l => ?_) fun e l hb => by cases hb
    refine ⟨_, p, rfl, ⟨row, rfl, ht.anchored, rfl, ⟨i, time, rfl⟩, rfl⟩, ?_⟩
    refine ⟨row, row, rfl, rfl, rfl, rfl, ht, ?_⟩
    unfold ConfigCall.change
    dsimp only
    rw [h1, h2, List.append_nil, ← ht.write i]
    rfl
  · refine refused_at_once rfl fun now doc => ?_
    unfold ConfigCall.change
    dsimp only
    rw [h1, h2]
    rfl
  · refine refused_at_once rfl fun now doc => ?_
    unfold ConfigCall.change
    dsimp only
    rw [h1]
    rfl

theorem setSchema_answered (schema : Option Json) : AnswerSafe ⟨store, .setSchema scope schema⟩
    (fun _ => .unit) l (store.setSchema scope schema) := by
  have hvalid : store.setSchema scope schema = (do
      Prog.check (validateScope scope)
      Prog.check (store.validateSchema schema)
      ConfigProg.inTx do
        let scopeId ← ConfigProg.query (.ensureScope scope)
        orFail (← ConfigProg.query (.updateSchema scopeId schema))) := by
    unfold ConfigStore.setSchema ConfigStore.validateSchema
    cases schema with
    | none => rfl
    | some schema => rfl
  rw [hvalid]
  refine Safe.check_cases (fun _ h1 => Safe.check_cases (fun _ h2 => ?_) fun e h2 => ?_)
    fun e h1 => ?_
  · refine inTx_answered ?_ fun time l => ?_
    · exact avoids_query (by simp) fun _ => ⟨by simp, fun _ => trivial⟩
    refine takes_bind fun row p l hsc ht => ?_
    subst hsc
    refine schema_set_bind (k := fun r => orFail r) rfl (fun hb l => ?_) fun e l hb => ?_
    · refine ⟨_, p, rfl, ⟨row, time, rfl, ht.anchored, rfl⟩, ?_⟩
      refine ⟨row, _, rfl, rfl, rfl, rfl, ht, ?_⟩
      unfold ConfigCall.change
      dsimp only
      rw [h1, h2, stored, hb, List.append_nil]
      rfl
    · refine ⟨_, p, rfl, row, rfl, rfl, ht, ?_⟩
      unfold ConfigCall.change
      dsimp only
      rw [h1, h2, stored, hb]
      rfl
  · refine refused_at_once rfl fun now doc => ?_
    unfold ConfigCall.change
    dsimp only
    rw [h1, h2]
    rfl
  · refine refused_at_once rfl fun now doc => ?_
    unfold ConfigCall.change
    dsimp only
    rw [h1]
    rfl

theorem publish_answered : AnswerSafe ⟨store, .publish scope message publishedBy⟩
    (fun release => .release release) l (store.publish scope message publishedBy) := by
  refine Safe.check_cases (fun _ h1 => Safe.check_cases
    (fun _ h2 => Safe.check_cases (fun _ h3 => ?_)
    fun e h3 => ?_) fun e h2 => ?_) fun e h1 => ?_
  · refine inTx_answered ?_ fun time l => ?_
    · refine avoids_query (by simp) fun _ => avoids_query (by simp) fun _ => ?_
      refine Prog.Avoids.bind trivial fun _ => avoids_query (by simp) fun _ => ?_
      refine avoids_query (by simp) fun _ => Prog.Avoids.bind trivial fun _ => ?_
      refine Prog.Avoids.check fun _ => Prog.Avoids.check fun _ =>
        avoids_query (by simp) fun _ => ?_
      exact Prog.Avoids.bind trivial fun _ => avoids_query (by simp) fun _ => trivial
    refine takes_bind fun row p l hsc ht => ?_
    subst hsc
    have hdraft := buildSnapshot_eq store row.jsonSchema (keysSorted_activeRows ht.keys)
    have hchange : ConfigCall.change ⟨store, .publish row.scope message publishedBy⟩ time
        (docOf row p.items p.releases) = (do
          let fields ← store.buildSnapshot row.jsonSchema (activeRows p.items) []
          let checksum ← store.checksumJson (.obj fields)
          stored [] [message, publishedBy]
          let release : ConfigRelease := ⟨row.scope, row.currentRevision + 1, checksum, .obj fields,
            message, publishedBy, time⟩
          pure (.release release, (docOf row p.items p.releases).publish time release)) := by
      unfold ConfigCall.change
      dsimp only
      rw [h1, h2, h3, ht.active, ht.revision, hdraft,
        show (docOf row p.items p.releases).schema = row.jsonSchema from rfl]
      cases store.checkDraft row.jsonSchema (activeRows p.items) with
      | error e => rfl
      | ok u => rfl
    refine inside_bind (.selectCurrentRevision row.id) (by simp)
      (holds_row rfl) fun _ γ' l' hm _ => ?_
    obtain ⟨rfl, rfl⟩ := hm _ row p rfl rfl
    refine inside_bind (.selectActiveItems row.id) (by simp) (holds_row rfl) fun _ γ' l' hm _ => ?_
    obtain ⟨rfl, rfl⟩ := hm _ row p rfl rfl rfl
    refine schema_bind rfl fun l => ?_
    refine Safe.check_cases (fun fields hf =>
      Safe.check_cases (fun checksum hc => ?_) fun e hc => ?_)
      fun e hf => ?_
    · have hchange' : ConfigCall.change ⟨store, .publish row.scope message publishedBy⟩ time
          (docOf row p.items p.releases) = (do
            stored [] [message, publishedBy]
            let release : ConfigRelease :=
              ⟨row.scope, row.currentRevision + 1, checksum, .obj fields,
              message, publishedBy, time⟩
            pure (.release release, (docOf row p.items p.releases).publish time release)) := by
        rw [hchange, hf]
        show (do
          let checksum ← store.checksumJson (.obj fields)
          _ : PgAppResult (ConfigReturn × ScopeDoc)) = _
        rw [hc]
        rfl
      refine released_bind rfl rfl ht (fun hb i l => ?_) fun e l hb => ?_
      · refine inside_bind (.updateCurrentRevision row.id _) (by simp) (holds_row rfl)
          fun _ γ' l' hm _ => ?_
        obtain rfl := hm _ row p rfl rfl
        refine ⟨_, p, rfl, ⟨row, ⟨i, row.id, row.currentRevision + 1, .obj fields,
          checksum, message,
          publishedBy, time⟩, rfl, ht.anchored, ⟨time, rfl⟩, rfl, rfl, rfl, rfl,
            ⟨fields, hf, rfl, hc⟩,
          rfl, rfl⟩, ?_⟩
        refine ⟨row, _, rfl, rfl, rfl, rfl, ht, ?_⟩
        rw [hchange', stored, hb]
        show Except.ok (ConfigReturn.release _, ScopeDoc.publish _ _ _)
          = Except.ok (ConfigReturn.release _, _)
        unfold docOf ScopeDoc.publish
        rw [List.map_append]
        rfl
      · refine ⟨_, p, rfl, row, rfl, rfl, ht, ?_⟩
        rw [hchange', stored, hb]
        rfl
    · refine ⟨_, p, rfl, row, rfl, rfl, ht, ?_⟩
      rw [hchange, hf]
      show (do
        let checksum ← store.checksumJson (.obj fields)
        _ : PgAppResult (ConfigReturn × ScopeDoc)) = _
      rw [hc]
      rfl
    · refine ⟨_, p, rfl, row, rfl, rfl, ht, ?_⟩
      rw [hchange, hf]
      rfl
  · refine refused_at_once rfl fun now doc => ?_
    unfold ConfigCall.change
    dsimp only
    rw [h1, h2, h3]
    rfl
  · refine refused_at_once rfl fun now doc => ?_
    unfold ConfigCall.change
    dsimp only
    rw [h1, h2]
    rfl
  · refine refused_at_once rfl fun now doc => ?_
    unfold ConfigCall.change
    dsimp only
    rw [h1]
    rfl

end

/-! ## the queries -/

theorem step_tells {e : ConfigEv} {r : PgAppResult ConfigReturn} (hw : call.op.writes = none)
    (hs : ConfigEv.silent e) (h : call.Tells e.pre.tables.docs r) : ConfigEv.step call r e := by
  have hafter : ConfigEv.docsAfter e = e.pre.tables.docs := by
    unfold ConfigEv.docsAfter
    split
    · rename_i hst
      exact absurd hst hs
    · rfl
  unfold ConfigEv.step ConfigCall.Does
  rw [hw]
  exact ⟨h, hafter⟩

theorem told_at_once {e : PgAppError} (hw : call.op.writes = none)
    (h : ∀ docs, call.Tells docs (.error e)) : AnswerSafe call f l (.ret (.error e)) := by
  refine answered_at_once fun now docs => ?_
  unfold ConfigCall.Does
  rw [hw]
  exact ⟨h docs, rfl⟩

/-- a call of one query -/
theorem told_once (st : ConfigStmt) (hp : st.plain = true) (hw : call.op.writes = none)
    {k : st.Res → PgAppResult α} (hk : ∀ r s c db l₀ d', ConfigMinds db l₀ →
      ConfigStmt.exec s c st db = some (r, d') → call.Tells db.tables.docs ((k r).map f)) :
    AnswerSafe call f l (ConfigProg.query st >>= fun r => .ret (k r)) := by
  refine told_bind hp fun r s c db l₀ d' hG hx hl => ?_
  refine ⟨rfl, [⟨s, call, c, st, r, db⟩], rfl, .inr (Took.last (step_tells hw ?_ ?_) (by simp))⟩
  · intro hc
    obtain rfl : st = .commit := hc
    cases hp
  · exact hk r s c db l₀ d' hG hx

theorem told_eq {s : Nat} {c : Time} {st : ConfigStmt} {r : st.Res} {db d' : ConfigDb} {v : st.Res}
    (hx : ConfigStmt.exec s c st db = some (r, d'))
    (h : ConfigStmt.exec s c st db = some (v, db)) : r = v := by
  rw [h] at hx
  exact (congrArg Prod.fst (Option.some.inj hx)).symm

section
variable (store : ConfigStore)

theorem listScopes_answered (limit : Option Int) (offset : Int) :
    AnswerSafe ⟨store, .listScopes limit offset⟩ (fun page => .scopes page) l
      (store.listScopes limit offset) := by
  refine Safe.check_cases (fun page h1 => ?_) fun e h1 => ?_
  · have hprog : (do
        let rows ← orFail (← ConfigProg.query (.listScopes page.fetchLimit page.offset))
        pure (page.finish rows) : ConfigProg (ConfigPage ConfigScopeSummary))
        = ConfigProg.query (.listScopes page.fetchLimit page.offset) >>= fun r =>
          .ret ((r.mapError PgAppError.ofSqlx).map page.finish) := by
      refine congrArg _ (funext fun r => ?_)
      cases r with
      | error e => rfl
      | ok rows => rfl
    rw [hprog]
    refine told_once (.listScopes page.fetchLimit page.offset) rfl rfl fun r s c db l₀ d' hG hx =>
      ?_
    obtain rfl := told_eq hx rfl
    unfold ConfigCall.Tells
    dsimp only
    rw [h1]
    refine ⟨_, docs_lists hG.1 hG.2.history, ?_⟩
    unfold ConfigTables.listScopes
    cases limitOffset db.tables.listedScopes page.fetchLimit page.offset with
    | error e => rfl
    | ok rows => rfl
  · refine told_at_once rfl fun docs => ?_
    unfold ConfigCall.Tells
    dsimp only
    rw [h1]

theorem getSchema_answered : AnswerSafe ⟨store, .getSchema scope⟩ (fun schema => .schema schema) l
    (getSchema scope) := by
  refine Safe.check_cases (fun _ h1 => ?_) fun e h1 => ?_
  · refine told_once (.jsonSchema scope) (k := fun schema => .ok (Option.join schema)) rfl rfl
      fun r s c db l₀ d' hG hx => ?_
    obtain rfl := told_eq hx rfl
    unfold ConfigCall.Tells
    dsimp only
    rw [h1, ← docs_schema]
    rfl
  · refine told_at_once rfl fun docs => ?_
    unfold ConfigCall.Tells
    dsimp only
    rw [h1]
    rfl

theorem getDraft_answered : AnswerSafe ⟨store, .getDraft scope⟩ (fun items => .draft items) l
    (getDraft scope) := by
  refine Safe.check_cases (fun _ h1 => ?_) fun e h1 => ?_
  · refine told_bind rfl fun r s c db l₀ d' hG hx hl => ?_
    obtain rfl := told_eq hx rfl
    cases hid : (db.tables.scopeOf scope).map (·.id) with
    | none =>
      refine ⟨rfl, [⟨s, _, c, .scopeId scope, none, db⟩], rfl,
        .inr (Took.last (step_tells rfl (by simp [ConfigEv.silent]) ?_) (by simp))⟩
      unfold ConfigCall.Tells
      dsimp only
      rw [h1, docs_items_none (Option.map_eq_none_iff.mp hid)]
      rfl
    | some id =>
      have hret : SerialSafe ⟨store, .getDraft scope⟩
        (fun r x => x.1 = none ∧ ∃ new, x.2 = new ++ l ∧
          ConfigAnswered ⟨store, .getDraft scope⟩ (r.map fun items => .draft items) new)
          (ConfigProg.query (.draftItems id) >>= fun items => .ret (.ok items))
          (none, ⟨s, ⟨store, .getDraft scope⟩, c, .scopeId scope, some id, db⟩ :: l) := by
        refine told_bind rfl fun items s' c' db' l₁ d'' hG' hx' hl' => ?_
        obtain rfl := told_eq hx' rfl
        refine ⟨rfl, [_, _], rfl, .inr (Took.last
          (step_tells rfl (by simp [ConfigEv.silent]) ?_) ?_)⟩
        · have hmem : (⟨s, ⟨store, .getDraft scope⟩, c, .scopeId scope, some id, db⟩ :
              ConfigEv) ∈ l₁ := by
            refine List.mem_of_mem_filter (p := fun e : ConfigEv => e.sess == s') ?_
            have hown : List.filter (fun e : ConfigEv => e.sess == s') l₁ = _ := hl'
            rw [hown]
            exact List.mem_cons_self
          obtain ⟨x, hsc, rfl⟩ := hG'.2.kept _ hmem scope id rfl
          unfold ConfigCall.Tells
          dsimp only
          rw [h1, ← docs_items hsc]
          rfl
        · intro e he
          rw [List.mem_singleton.mp he]
          simp [ConfigEv.silent]
      exact hret
  · refine told_at_once rfl fun docs => ?_
    unfold ConfigCall.Tells
    dsimp only
    rw [h1]
    rfl

theorem releaseOrNotFound_eq (r : Option ConfigRelease) :
    releaseOrNotFound scope r = .ret (releaseFound scope r) := by
  cases r with
  | none => rfl
  | some release => rfl

theorem releaseFound_map (r : Option ConfigRelease) : (releaseFound scope r).map ConfigReturn.release
    = (do
      let release ← releaseFound scope r
      pure (.release release)) := by
  cases r with
  | none => rfl
  | some release => rfl

theorem latestRelease_told (hw : call.op.writes = none)
    (ht : ∀ db l₀, ConfigMinds db l₀ → call.Tells db.tables.docs
      ((releaseFound scope (ConfigDocs.latest db.tables.docs scope)).map .release)) :
    AnswerSafe call (fun release => .release release) l (do
      releaseOrNotFound scope (← ConfigProg.query (.latestRelease scope))) := by
  have hprog : (do releaseOrNotFound scope (← ConfigProg.query (.latestRelease scope)))
      = ConfigProg.query (.latestRelease scope) >>= fun r => .ret (releaseFound scope r) :=
    congrArg _ (funext fun r => releaseOrNotFound_eq r)
  rw [hprog]
  refine told_once (.latestRelease scope) rfl hw fun r s c db l₀ d' hG hx => ?_
  obtain rfl := told_eq hx rfl
  rw [docs_latest hG.1 (hG.2.history scope)]
  exact ht db l₀ hG

theorem getLatestRelease_answered : AnswerSafe ⟨store, .getLatestRelease scope⟩
    (fun release => .release release) l (getLatestRelease scope) := by
  refine Safe.check_cases (fun _ h1 => ?_) fun e h1 => ?_
  · refine latestRelease_told rfl fun db l₀ _ => ?_
    unfold ConfigCall.Tells
    dsimp only
    rw [h1, releaseFound_map]
    rfl
  · refine told_at_once rfl fun docs => ?_
    unfold ConfigCall.Tells
    dsimp only
    rw [h1]
    rfl

theorem getRelease_answered (revision : Int) : AnswerSafe ⟨store, .getRelease scope revision⟩
    (fun release => .release release) l (getRelease scope revision) := by
  refine Safe.check_cases (fun _ h1 => ?_) fun e h1 => ?_
  · show AnswerSafe _ _ l (if revision ≤ 0 then _ else _)
    split
    · rename_i hr
      refine Safe.check_cases (fun _ _ => ?_) fun e h2 => by rw [h1] at h2; cases h2
      refine latestRelease_told rfl fun db l₀ _ => ?_
      unfold ConfigCall.Tells
      dsimp only
      rw [h1, if_pos hr, releaseFound_map]
      rfl
    · rename_i hr
      have hprog : (do releaseOrNotFound scope (← ConfigProg.query (.releaseAt scope revision)))
          = ConfigProg.query (.releaseAt scope revision) >>= fun r => .ret (releaseFound scope r) :=
        congrArg _ (funext fun r => releaseOrNotFound_eq r)
      show AnswerSafe _ _ l (do releaseOrNotFound scope (← ConfigProg.query (.releaseAt scope revision)))
      rw [hprog]
      refine told_once (.releaseAt scope revision) rfl rfl fun r s c db l₀ d' hG hx => ?_
      obtain rfl := told_eq hx rfl
      unfold ConfigCall.Tells ConfigTables.releaseAt
      dsimp only
      rw [h1, if_neg hr, docs_releases hG.1, releaseFound_map]
      rfl
  · refine told_at_once rfl fun docs => ?_
    unfold ConfigCall.Tells
    dsimp only
    rw [h1]
    rfl

theorem listReleases_answered (limit : Option Int) (offset : Int) :
    AnswerSafe ⟨store, .listReleases scope limit offset⟩ (fun page => .releases page) l
      (store.listReleases scope limit offset) := by
  refine Safe.check_cases (fun _ h1 => Safe.check_cases (fun page h2 => ?_) fun e h2 => ?_)
    fun e h1 => ?_
  · have hprog : (do
        let rows ← orFail (← ConfigProg.query (.listReleases scope page.fetchLimit page.offset))
        pure (page.finish rows) : ConfigProg (ConfigPage ConfigRelease))
        = ConfigProg.query (.listReleases scope page.fetchLimit page.offset) >>= fun r =>
          .ret ((r.mapError PgAppError.ofSqlx).map page.finish) := by
      refine congrArg _ (funext fun r => ?_)
      cases r with
      | error e => rfl
      | ok rows => rfl
    rw [hprog]
    refine told_once (.listReleases scope page.fetchLimit page.offset) rfl rfl
      fun r s c db l₀ d' hG hx => ?_
    obtain rfl := told_eq hx rfl
    unfold ConfigCall.Tells ConfigTables.listReleases
    dsimp only
    rw [h1, h2, docs_newestFirst hG.1 (hG.2.history scope)]
    show _ = (do
      let shown ← (limitOffset (ConfigDocs.releases db.tables.docs scope).reverse page.fetchLimit
        page.offset).mapError PgAppError.ofSqlx
      pure (ConfigReturn.releases (page.finish shown)) : PgAppResult ConfigReturn)
    cases limitOffset (ConfigDocs.releases db.tables.docs scope).reverse page.fetchLimit
        page.offset with
    | error e => rfl
    | ok rows => rfl
  · refine told_at_once rfl fun docs => ?_
    unfold ConfigCall.Tells
    dsimp only
    rw [h1, h2]
    rfl
  · refine told_at_once rfl fun docs => ?_
    unfold ConfigCall.Tells
    dsimp only
    rw [h1]
    rfl

/-! ### `watch` -/

/-- a newer release is found by the first query of a round, and "nothing new" is said with the count
of the second -/
theorem watchLoop_answered {known : Int} (hw : call.op.writes = none)
    (ht : ∀ docs res, Watched docs scope known res → call.Tells docs (.ok (.watched res)))
    (interval deadline : Time) (rounds : Nat) (done : List ConfigEv)
    (hdone : ∀ e ∈ done, ConfigEv.silent e) :
    SerialSafe call (fun r x => x.1 = none ∧ ∃ new, x.2 = new ++ l ∧
      ConfigAnswered call (r.map ConfigReturn.watched) new)
      (watchLoop scope known interval deadline rounds) (none, done ++ l) := by
  induction rounds generalizing done with
  | zero =>
    have hprog : watchLoop scope known interval deadline 0
        = ConfigProg.query .idle >>= fun _ => pure ⟨false, 0, none⟩ := rfl
    rw [hprog]
    refine told_bind rfl fun r s c db l₀ d' hG hx hl => ?_
    cases hx
  | succ rounds ih =>
    refine told_bind rfl fun r s c db l₀ d' hG hx hl => ?_
    obtain rfl := told_eq hx rfl
    have hsilent : ∀ e ∈ (⟨s, call, c, .latestNewerThan scope known,
      db.tables.latestNewerThan scope known,
        db⟩ : ConfigEv) :: done, ConfigEv.silent e := by
      intro e he
      rcases List.mem_cons.mp he with rfl | he
      · simp [ConfigEv.silent]
      · exact hdone e he
    cases hr : db.tables.latestNewerThan scope known with
    | some release =>
      obtain ⟨hlatest, hlt⟩ := docs_newer hG.1 (hG.2.history scope) hr
      exact ⟨rfl, _ :: done, rfl, .inr (Took.last (step_tells hw (by simp [ConfigEv.silent])
        (ht _ _ (.inl ⟨release, hlatest, hlt, rfl⟩))) hdone)⟩
    | none =>
      rw [hr] at hsilent
      refine told_bind rfl fun revision s₁ c₁ db₁ l₁ d₁ hG₁ hx₁ hl₁ => ?_
      obtain rfl := told_eq hx₁ rfl
      refine told_bind rfl fun now s₂ c₂ db₂ l₂ d₂ hG₂ hx₂ hl₂ => ?_
      show SerialSafe call _ (if deadline ≤ now then _ else _) _
      split
      · refine ⟨rfl, [_] ++ _ :: (_ :: done), rfl, .inr ⟨[_], _, _ :: done, rfl, ?_, ?_⟩⟩
        · refine step_tells hw (by simp [ConfigEv.silent]) (ht _ _ (.inr ?_))
          rw [← docs_current hG₁.1 (hG₁.2.history scope)]
        · intro e he
          rcases List.mem_cons.mp he with rfl | he
          · simp [ConfigEv.silent]
          · exact hsilent e he
      · refine told_bind rfl fun _ s₃ c₃ db₃ l₃ d₃ hG₃ hx₃ hl₃ => ?_
        refine ih (_ :: _ :: _ :: _ :: done) fun e he => ?_
        simp only [List.mem_cons] at he
        rcases he with rfl | rfl | rfl | rfl | he
        · simp [ConfigEv.silent]
        · simp [ConfigEv.silent]
        · simp [ConfigEv.silent]
        · simp [ConfigEv.silent]
        · exact hdone e he

theorem watch_refused {store : ConfigStore} {known timeout : Int} {e : PgAppError}
    (hv : store.validateWatch scope known timeout = .error e) (interval : Int) (rounds : Nat) :
    store.watch scope known timeout interval rounds = .ret (.error e) := by
  unfold ConfigStore.validateWatch at hv
  unfold ConfigStore.watch
  cases hs : validateScope scope with
  | error e' =>
    rw [hs] at hv
    obtain rfl := Except.error.inj hv
    rfl
  | ok u =>
    rw [hs] at hv
    show (if known < 0 then _ else _) = _
    replace hv : (if known < 0 then _ else _) = Except.error e := hv
    split_ifs at hv ⊢
    all_goals
      obtain rfl := Except.error.inj hv
      rfl

theorem watch_answered (known timeout interval : Int) (rounds : Nat) :
    AnswerSafe ⟨store, .watch scope known timeout interval rounds⟩ (fun res => .watched res) l
      (store.watch scope known timeout interval rounds) := by
  cases hv : store.validateWatch scope known timeout with
  | error e =>
    rw [watch_refused hv]
    refine told_at_once rfl fun docs => ?_
    unfold ConfigCall.Tells
    dsimp only
    rw [hv]
  | ok u =>
    rw [watch_eq hv]
    refine told_bind rfl fun now s c db l₀ d' hG hx hl => ?_
    refine watchLoop_answered rfl (fun docs res hres => ?_) _ _ rounds [_] fun e he => ?_
    · unfold ConfigCall.Tells
      dsimp only
      rw [hv]
      exact ⟨res, hres, rfl⟩
    · rw [List.mem_singleton.mp he]
      simp [ConfigEv.silent]

end

end

/-! ## every call -/

theorem AnswerSafe.handed {α : Type} {call : ConfigCall} {f : α → ConfigReturn} {l : List ConfigEv}
    {p : ConfigProg α} (h : AnswerSafe call f l p) :
    SerialSafe call (fun r x => x.1 = none ∧ ∃ new, x.2 = new ++ l ∧ ConfigAnswered call r new)
      (p >>= fun a => pure (f a)) (none, l) :=
  Safe.bind h (fun _ _ hx => hx) fun _ _ hx => hx

/-- **Every call is one step of the store of documents**, and its answer tells which. -/
theorem body_answered (call : ConfigCall) (l : List ConfigEv) :
    SerialSafe call (fun r x => x.1 = none ∧ ∃ new, x.2 = new ++ l ∧ ConfigAnswered call r new)
      call.body (none, l) := by
  obtain ⟨store, op⟩ := call
  cases op with
  | upsertItem scope key value => exact (upsertItem_answered store key value).handed
  | setSchema scope schema => exact (setSchema_answered store schema).handed
  | deleteItem scope key => exact (deleteItem_answered store key).handed
  | publish scope message publishedBy => exact (publish_answered store message publishedBy).handed
  | listScopes limit offset => exact (listScopes_answered store limit offset).handed
  | getSchema scope => exact (getSchema_answered store).handed
  | getDraft scope => exact (getDraft_answered store).handed
  | getLatestRelease scope => exact (getLatestRelease_answered store).handed
  | getRelease scope revision => exact (getRelease_answered store revision).handed
  | listReleases scope limit offset => exact (listReleases_answered store limit offset).handed
  | watch scope known timeout interval rounds =>
    exact (watch_answered store known timeout interval rounds).handed

theorem inTx_last {α : Type} {p : ConfigProg α} (h : p.Avoids (· = .commit)) :
    (ConfigProg.inTx p).Last (· = .commit) := by
  refine ⟨fun hc => ?_, fun _ => Prog.Last.bracket h⟩
  cases hc

/-- **A call has its answer after its COMMIT.** -/
theorem body_last (call : ConfigCall) : call.body.Last (· = .commit) := by
  have hmap : ∀ {α : Type} {p : ConfigProg α} (f : α → ConfigReturn), p.Last (· = .commit) →
      (p >>= fun a => pure (f a)).Last (· = .commit) := by
    intro α p f h
    rw [Prog.bind_pure_eq]
    exact h.mapResult
  obtain ⟨store, op⟩ := call
  cases op with
  | upsertItem scope key value =>
    refine hmap (fun _ => .unit) (Prog.Last.bind trivial fun _ => Prog.Last.bind trivial fun _ =>
      Prog.Last.bind trivial fun _ => inTx_last ?_)
    refine avoids_query (by simp) fun _ => avoids_query (by simp) fun _ => ?_
    refine Prog.Avoids.bind trivial fun _ => Prog.Avoids.check fun _ => ?_
    exact avoids_query (by simp) fun _ => trivial
  | setSchema scope schema =>
    refine hmap (fun _ => .unit) (Prog.Last.bind trivial fun _ => Prog.Last.bind trivial fun _ =>
      inTx_last ?_)
    exact avoids_query (by simp) fun _ => ⟨by simp, fun _ => trivial⟩
  | deleteItem scope key =>
    refine hmap .bool (Prog.Last.bind trivial fun _ => Prog.Last.bind trivial fun _ => inTx_last ?_)
    refine avoids_query (by simp) fun _ => avoids_query (by simp) fun _ => ?_
    exact Prog.Avoids.bind trivial fun _ => trivial
  | publish scope message publishedBy =>
    refine hmap .release (Prog.Last.bind trivial fun _ => Prog.Last.bind trivial fun _ =>
      Prog.Last.bind trivial fun _ => inTx_last ?_)
    refine avoids_query (by simp) fun _ => avoids_query (by simp) fun _ => ?_
    refine Prog.Avoids.bind trivial fun _ => avoids_query (by simp) fun _ => ?_
    refine avoids_query (by simp) fun _ => Prog.Avoids.bind trivial fun _ => ?_
    refine Prog.Avoids.check fun _ => Prog.Avoids.check fun _ => avoids_query (by simp) fun _ => ?_
    exact Prog.Avoids.bind trivial fun _ => avoids_query (by simp) fun _ => trivial
  | listScopes limit offset =>
    exact hmap .scopes (Prog.Last.bind trivial fun _ => .of_avoids (avoids_query (by simp) fun _ =>
      Prog.Avoids.bind trivial fun _ => trivial))
  | getSchema scope =>
    exact hmap .schema (Prog.Last.bind trivial fun _ => .of_avoids (avoids_query (by simp) fun _ =>
      trivial))
  | getDraft scope =>
    refine hmap .draft (Prog.Last.bind trivial fun _ =>
      .of_avoids (avoids_query (by simp) fun r => ?_))
    cases r with
    | none => exact trivial
    | some id => exact ⟨by simp, fun _ => trivial⟩
  | getLatestRelease scope => exact hmap .release (.of_avoids (getLatestRelease_avoids scope))
  | getRelease scope revision =>
    refine hmap .release (Prog.Last.bind trivial fun _ => .of_avoids ?_)
    show (if revision ≤ 0 then _ else _ : ConfigProg ConfigRelease).Avoids _
    split
    · exact getLatestRelease_avoids scope
    · refine avoids_query (by simp) fun r => ?_
      cases r with
      | none => exact trivial
      | some release => exact trivial
  | listReleases scope limit offset =>
    exact hmap .releases (Prog.Last.bind trivial fun _ => Prog.Last.bind trivial fun _ =>
      .of_avoids (avoids_query (by simp) fun _ => Prog.Avoids.bind trivial fun _ => trivial))
  | watch scope known timeout interval rounds =>
    refine hmap .watched (.of_avoids ?_)
    cases hv : store.validateWatch scope known timeout with
    | error e =>
      rw [watch_refused hv]
      exact trivial
    | ok u =>
      rw [watch_eq hv]
      exact avoids_query (by simp) fun now => watchLoop_avoids scope known _ _ rounds

end PgApp
