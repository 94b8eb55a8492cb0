import PgApp.Config.Documents
import PgApp.Config.SchemaGate
import PgApp.Interleave.Serial

/-!
# Every call is one step of the store of documents

The calls of the Config Center, checked alone with their statements (`LogMove`).  A call that writes
takes the row of its scope first, so what it reads afterwards is the document until its COMMIT or
ROLLBACK, and there it is one step; a call that reads is one step at a query.

* `serialRules`     the views this rests on;
* `Ends`            where a transaction stands before it is closed;
* `ConfigAnswered`  what an answer says of the statements of its call;
* `body_answered`   every call, checked.
-/

namespace PgApp
open Interleave ConfigProg

/-! ## what is known when a statement runs -/

/-- a scope row that was found is still there -/
def ScopesKept (db : ConfigDb) (h : List ConfigEv) : Prop :=
  ∀ e ∈ h, ∀ scope id, (⟨e.stmt, e.res⟩ : (st : ConfigStmt) × st.Res) = ⟨.scopeId scope, some id⟩ →
    ∃ x, db.tables.scopeOf scope = some x ∧ x.id = id

structure ConfigMind (db : ConfigDb) (h : List ConfigEv) : Prop where
  history : ∀ scope, ScopeHistory h scope (db.tables.state scope)
  kept : ScopesKept db h

section
variable {db db' : ConfigDb} {s : Nat} {c : Time} {st : ConfigStmt} {r : st.Res}
variable {t : ConfigTx} {p : ScopePart} {row : ScopeRow} {h : List ConfigEv}

theorem scopeId_kept (L : ConfigLocks db) (hx : ConfigStmt.exec s c st db = some (r, db'))
    {scope : ConfigScope} {x : ScopeRow} (h : db.tables.scopeOf scope = some x) :
    ∃ x', db'.tables.scopeOf scope = some x' ∧ x'.id = x.id := by
  by_cases hst : st = .commit
  · subst hst
    obtain rfl := congrArg Prod.snd (Option.some.inj hx)
    show ∃ x', (db.commit s).tables.scopeOf scope = some x' ∧ x'.id = x.id
    cases hg : db.txs.get s with
    | none =>
      have hdb : db.commit s = db := by
        unfold ConfigDb.commit
        rw [hg]
      rw [hdb]
      exact ⟨x, h, rfl⟩
    | some t =>
      have htb := commit_tables hg
      cases hr : t.scope with
      | none =>
        rw [htb, L.apply_none hg hr]
        exact ⟨x, h, rfl⟩
      | some row =>
        obtain ⟨hmem, hsc⟩ := ConfigLocks.scopeOf_mem h
        by_cases he : row.scope = scope
        · have hrow : row ∈ (db.commit s).tables.scopes := by
            rw [htb]
            unfold ConfigTx.apply
            rw [hr]
            exact mem_putScope.mpr (.inl rfl)
          refine ⟨row, he ▸ (L.commit s).scopeOf_eq hrow, ?_⟩
          exact (((L.tied s t row hg hr).2 x hmem).mp (hsc.trans he.symm)).symm
        · refine ⟨x, ?_, rfl⟩
          rw [htb]
          unfold ConfigTables.scopeOf ConfigTx.apply
          rw [hr]
          exact (scopeOf_putScope_ne he).trans h
  · rw [(exec_txOnly hst hx).1]
    exact ⟨x, h, rfl⟩

theorem configMind_keeps (L : ConfigLocks db) (M : ConfigMind db h) {call : ConfigCall}
    (hp : configPre call st (configView s db h)) (hx : ConfigStmt.exec s c st db = some (r, db')) :
    ConfigMind db' (⟨s, call, c, st, r, db⟩ :: h) := by
  refine ⟨fun scope => ?_, fun e he scope id hfound => ?_⟩
  · by_cases hst : st = .commit
    · subst hst
      obtain rfl := congrArg Prod.snd (Option.some.inj hx)
      exact ScopeHistory.commit L M.history hp scope
    · rw [(exec_txOnly hst hx).1]
      refine (M.history scope).pass rfl rfl rfl (fun key => ?_) fun n => ?_
      · cases st <;> first | rfl | exact absurd rfl hst
      · cases st <;> first | rfl | exact absurd rfl hst
  · have hscope : ∃ x, db.tables.scopeOf scope = some x ∧ x.id = id := by
      rcases List.mem_cons.mp he with rfl | he
      · -- the statement itself
        cases hfound
        have hres : (db.tables.scopeOf scope).map (·.id) = some id :=
          congrArg Prod.fst (Option.some.inj hx)
        obtain ⟨x, hx, hid⟩ := Option.map_eq_some_iff.mp hres
        exact ⟨x, hx, hid⟩
      · exact M.kept e he scope id hfound
    obtain ⟨x, hsc, rfl⟩ := hscope
    exact scopeId_kept L hx hsc

/-- the row that `ensure_scope` takes, with the rows of its scope -/
theorem ensureScope_found (L : ConfigLocks db) (M : ConfigMind db h) {time : Time}
    {scope : ConfigScope} {id : Int} (hv : configView s db h = some (⟨time, none, [], []⟩, none))
    (hx : ConfigStmt.exec s c (.ensureScope scope) db = some (id, db')) {k : List ConfigEv} :
    ∃ row, configView s db' k = some (⟨time, some row, [], []⟩, some (db.tables.part row)) ∧
      row.scope = scope ∧ row.id = id ∧ Takes time row (db.tables.part row) := by
  obtain ⟨hg, -⟩ := get_of_configView hv
  obtain ⟨hfree, t, hg', ht⟩ := waits_cases hx
  obtain rfl := Option.some.inj (hg.symm.trans hg')
  obtain ⟨row, hrow, rfl, rfl⟩ := ensureScope_cases ht
  have hseen : db.seenScope s scope = db.tables.scopeOf scope := by
    unfold ConfigDb.seenScope ConfigDb.tx
    rw [hg]
    rfl
  rw [hseen] at hrow
  obtain ⟨hsc, ha, -⟩ := ensureScope_takes (s := s) L hfree hrow
  obtain ⟨hst, hrev⟩ := anchored_state ha
  have H := M.history row.scope
  rw [← hst] at H
  refine ⟨row, configView_setTx _ _ _, hsc, rfl, ?_, H.keys, ?_, ?_⟩
  · rcases ha with hr | ⟨hr, -, -, hi, hx⟩
    · exact .inl hr
    · refine .inr ⟨hr, ?_, hi, hx⟩
      have hnone : db.tables.scopeOf scope = none := hsc ▸ hr
      rw [hnone] at hrow
      rw [hrow]
      rfl
  · intro i hi
    simpa using (List.mem_filter.mp hi).2
  · rw [← hrev]
    exact H.current

theorem upsertItem_result {key : String} {value : Json} {deleted : Bool} {r : Except SqlError Unit}
    (hv : configView s db h = some (t, some p)) (hr : t.scope = some row)
    (hx : ConfigStmt.exec s c (.upsertItem row.id key value deleted) db = some (r, db')) :
    r = bound [value] [] := by
  obtain ⟨hg, -⟩ := get_of_configView hv
  obtain ⟨-, t', hg', ht⟩ := waits_cases hx
  obtain rfl := Option.some.inj (hg.symm.trans hg')
  have hseen : (db.seenScopeId s row.id).isNone = false := by
    rw [seenScopeId_held hg hr rfl]
    rfl
  have hres := congrArg Prod.fst (Option.some.inj ht)
  unfold ConfigDb.upsertItem at hres
  rw [hseen] at hres
  cases hb : bound [value] [] with
  | error e =>
    rw [hb] at hres
    exact hres.symm
  | ok u =>
    rw [hb] at hres
    exact hres.symm

theorem updateSchema_result {schema : Option Json} {r : Except SqlError Unit}
    (hx : ConfigStmt.exec s c (.updateSchema row.id schema) db = some (r, db')) :
    r = bound schema.toList [] := by
  obtain ⟨-, t, -, ht⟩ := waits_cases hx
  unfold ConfigDb.updateSchema at ht
  split at ht
  · rename_i e hb
    rw [hb]
    exact (congrArg Prod.fst (Option.some.inj ht)).symm
  · rename_i hb
    rw [hb]
    obtain ⟨p, -, he⟩ := Option.map_eq_some_iff.mp ht
    exact (congrArg Prod.fst he).symm

/-- and the next release of the scope, if PostgreSQL takes its texts -/
theorem insertRelease_result (M : ConfigMind db h) {snapshot : Json}
    {checksum message publishedBy : String} {r : Except SqlError Time}
    (hv : configView s db h = some (t, some p)) (hr : t.scope = some row) (hx : t.releases = [])
    (ht : Takes t.startedAt row p)
    (hexec : ConfigStmt.exec s c (.insertRelease row.id (row.currentRevision + 1) snapshot checksum
      message publishedBy) db = some (r, db')) :
    r = (bound [] [message, publishedBy]).map fun _ => t.startedAt := by
  obtain ⟨hg, hpart⟩ := get_of_configView hv
  rw [hr] at hpart
  obtain rfl : db.tables.part row = p := Option.some.inj hpart
  obtain ⟨-, t', hg', ht'⟩ := waits_cases hexec
  obtain rfl := Option.some.inj (hg.symm.trans hg')
  have hseen : (db.seenScopeId s row.id).isNone = false := by
    rw [seenScopeId_held hg hr rfl]
    rfl
  -- the revisions of the scope end at the current one
  have hnew : ((db.seenReleases s).any fun x =>
      x.scopeId == row.id && x.revision == row.currentRevision + 1) = false := by
    have hseen : db.seenReleases s = db.tables.releases := by
      unfold ConfigDb.seenReleases ConfigDb.tx
      rw [hg, Option.getD_some, hx, List.append_nil]
    rw [hseen, List.any_eq_false]
    intro x hmem hc
    rw [Bool.and_eq_true, beq_iff_eq, beq_iff_eq] at hc
    have hst := (anchored_state ht.anchored).1
    have H := M.history row.scope
    rw [← hst] at H
    have hin : x.revision ∈ (db.tables.part row).releases.map (·.revision) :=
      List.mem_map.mpr ⟨x, List.mem_filter.mpr ⟨hmem, by simpa using hc.1⟩, rfl⟩
    rw [H.revisions, mem_revisionsTo] at hin
    have hcur := ht.current
    omega
  have hres := congrArg Prod.fst (Option.some.inj ht')
  unfold ConfigDb.insertRelease at hres
  rw [hseen, hnew] at hres
  cases hb : bound [] [message, publishedBy] with
  | error e =>
    rw [hb] at hres
    exact hres.symm
  | ok u =>
    rw [hb] at hres
    exact hres.symm

end

/-! ## views with statements -/

abbrev ConfigMinds (db : ConfigDb) (h : List ConfigEv) : Prop := ConfigLocks db ∧ ConfigMind db h

/-- a transaction commits what its call makes of the document -/
def serialPre (call : ConfigCall) (st : ConfigStmt) (x : ConfigView × List ConfigEv) : Prop :=
  configPre call st x.1 ∧
    (st = .commit → ∃ answer t p, x.1 = some (t, some p) ∧ Made call answer t p)

abbrev SerialMove : ConfigCall → (st : ConfigStmt) → st.Res → ConfigView × List ConfigEv →
    ConfigView × List ConfigEv → Prop := LogMove ConfigStmt.exec ConfigMinds configView configMove

theorem serialRules : Rules ConfigStmt.exec ConfigDb.empty ConfigMinds
    (fun s db l => (configView s db l, ownEvents s l)) serialPre SerialMove (fun x => x.1 = none) :=
  ((configRules.keeping ConfigMind
      ⟨fun scope => ScopeHistory.empty scope, fun _ he => absurd he List.not_mem_nil⟩
      fun _ _ _ _ _ _ _ _ L M hp hx => configMind_keeps L M hp hx).logged).restrict
    fun _ _ _ hp => hp.1

/-- a program of the call, with what its session has and what it has done -/
abbrev SerialSafe {α : Type} (call : ConfigCall)
    (Q : PgAppResult α → ConfigView × List ConfigEv → Prop) (p : ConfigProg α)
    (x : ConfigView × List ConfigEv) : Prop := Safe (serialPre call) (SerialMove call) Q p x

section
variable {α : Type} {call : ConfigCall} {Q : PgAppResult α → ConfigView × List ConfigEv → Prop}
variable {l : List ConfigEv} {t : ConfigTx} {p : ScopePart} {row : ScopeRow}

/-- a query outside a transaction -/
theorem told_bind {st : ConfigStmt} (h : st.plain = true) {k : st.Res → ConfigProg α}
    (hk : ∀ r s c db l₀ d', ConfigMinds db l₀ → ConfigStmt.exec s c st db = some (r, d') →
      ownEvents s l₀ = l → SerialSafe call Q (k r) (none, ⟨s, call, c, st, r, db⟩ :: l)) :
    SerialSafe call Q (ConfigProg.query st >>= k) (none, l) := by
  refine ⟨⟨?_, fun hc => ?_⟩, fun r x hm => ?_⟩
  · cases st <;> first | exact trivial | cases h
  · subst hc
    cases h
  · obtain ⟨γ', l'⟩ := x
    obtain ⟨hm, s, c, db, l₀, d', hG, hx, -, hl, -, hl'⟩ := hm
    obtain rfl : γ' = none := by
      cases st <;> first | exact hm | cases h
    obtain rfl : l' = _ := hl'
    exact hk r s c db l₀ d' hG hx hl

/-- a statement inside the transaction -/
theorem inside_bind (st : ConfigStmt) (hst : st ≠ .commit)
    (hp : configPre call st (some (t, some p)))
    {k : st.Res → ConfigProg α}
    (hk : ∀ r γ' l', configMove call st r (some (t, some p)) γ' →
      (∃ s c db l₀ d', ConfigMinds db l₀ ∧ ConfigStmt.exec s c st db = some (r, d') ∧
        configView s db l₀ = some (t, some p)) → SerialSafe call Q (k r) (γ', l')) :
    SerialSafe call Q (ConfigProg.query st >>= k) (some (t, some p), l) := by
  refine ⟨⟨hp, fun hc => absurd hc hst⟩, fun r x hm => ?_⟩
  obtain ⟨hm, s, c, db, l₀, d', hG, hx, hv, -⟩ := hm
  exact hk r x.1 x.2 hm ⟨s, c, db, l₀, d', hG, hx, hv⟩

theorem holds_row (hr : t.scope = some row) : HoldsId row.id (some (t, some p)) :=
  ⟨t, row, p, rfl, hr, rfl⟩

/-- the scope row is taken -/
theorem takes_bind {scope : ConfigScope} {time : Time} {k : Int → ConfigProg α}
    (hk : ∀ row p l, row.scope = scope → Takes time row p →
      SerialSafe call Q (k row.id) (some (⟨time, some row, [], []⟩, some p), l)) :
    SerialSafe call Q (ConfigProg.query (.ensureScope scope) >>= k)
      (some (⟨time, none, [], []⟩, none), l) := by
  refine ⟨⟨⟨time, rfl⟩, fun hc => by cases hc⟩, fun id x hm => ?_⟩
  obtain ⟨γ', l'⟩ := x
  obtain ⟨-, s, c, db, l₀, d', hG, hx, hv, -, hv', -⟩ := hm
  obtain ⟨row, hrow, hsc, rfl, ht⟩ := ensureScope_found (k :=
    ⟨s, call, c, .ensureScope scope, id, db⟩ :: l₀)
    hG.1 hG.2 hv hx
  obtain rfl : γ' = _ := hv'.symm.trans hrow
  exact hk row _ l' hsc ht

theorem schema_bind {k : Option Json → ConfigProg α} (hr : t.scope = some row)
    (hk : ∀ l, SerialSafe call Q (k row.jsonSchema) (some (t, some p), l)) :
    SerialSafe call Q (ConfigProg.query (.selectSchema row.id) >>= fun r => orFail r >>= k)
      (some (t, some p), l) := by
  refine inside_bind (.selectSchema row.id) (by simp) (holds_row hr) fun r γ' l' hm _ => ?_
  obtain ⟨rfl, rfl⟩ := hm t row p rfl hr
  exact hk l'

theorem written_bind {key : String} {value : Json} {deleted : Bool}
    {k : Except SqlError Unit → ConfigProg α} (hr : t.scope = some row)
    (hk : bound [value] [] = .ok () → ∀ i l, SerialSafe call Q (k (.ok ())) (some ({ t with
      items := t.items ++ [⟨i, row.id, key, value, deleted, t.startedAt⟩] }, some p), l))
    (he : ∀ e l, bound [value] [] = .error e →
      SerialSafe call Q (k (.error e)) (some (t, some p), l)) :
    SerialSafe call Q (ConfigProg.query (.upsertItem row.id key value deleted) >>= k)
      (some (t, some p), l) := by
  refine inside_bind (.upsertItem row.id key value deleted) (by simp)
    (holds_row hr) fun r γ' l' hm hx => ?_
  obtain ⟨s, c, db, l₀, d', -, hx, hv⟩ := hx
  have hb := upsertItem_result hv hr hx
  rcases hm t row p rfl hr with ⟨e, rfl, rfl⟩ | ⟨rfl, i, rfl⟩
  · exact he e l' hb.symm
  · exact hk hb.symm i l'

theorem schema_set_bind {schema : Option Json} {k : Except SqlError Unit → ConfigProg α}
    (hr : t.scope = some row)
    (hk : bound schema.toList [] = .ok () → ∀ l, SerialSafe call Q (k (.ok ())) (some ({ t with
      scope := some { row with jsonSchema := schema, updatedAt := t.startedAt } }, some p), l))
    (he : ∀ e l, bound schema.toList [] = .error e →
      SerialSafe call Q (k (.error e)) (some (t, some p), l)) :
    SerialSafe call Q (ConfigProg.query (.updateSchema row.id schema) >>= k)
        (some (t, some p), l) := by
  refine inside_bind (.updateSchema row.id schema) (by simp) (holds_row hr) fun r γ' l' hm hx => ?_
  obtain ⟨s, c, db, l₀, d', -, hx, -⟩ := hx
  have hb := updateSchema_result hx
  rcases hm t row p rfl hr with ⟨e, rfl, rfl⟩ | ⟨rfl, rfl⟩
  · exact he e l' hb.symm
  · exact hk hb.symm l'

theorem released_bind {snapshot : Json} {checksum message publishedBy : String}
    {k : Except SqlError Time → ConfigProg α} (hr : t.scope = some row) (hx : t.releases = [])
    (ht : Takes t.startedAt row p) (hk : bound [] [message, publishedBy] = .ok () →
      ∀ i l, SerialSafe call Q (k (.ok t.startedAt)) (some ({ t with
        releases := t.releases ++ [⟨i, row.id, row.currentRevision + 1, snapshot, checksum, message,
          publishedBy, t.startedAt⟩] }, some p), l))
    (he : ∀ e l, bound [] [message, publishedBy] = .error e →
      SerialSafe call Q (k (.error e)) (some (t, some p), l)) :
    SerialSafe call Q (ConfigProg.query (.insertRelease row.id
      (row.currentRevision + 1) snapshot checksum
      message publishedBy) >>= k) (some (t, some p), l) := by
  refine inside_bind (.insertRelease row.id _ snapshot checksum message publishedBy) (by simp)
    (holds_row hr) fun r γ' l' hm hx' => ?_
  obtain ⟨s, c, db, l₀, d', hG, hx', hv⟩ := hx'
  have hb := insertRelease_result hG.2 hv hr hx ht hx'
  rcases hm t row p rfl hr with ⟨e, rfl, rfl⟩ | ⟨rfl, i, rfl⟩
  · cases hc : bound [] [message, publishedBy] with
    | error e' =>
      rw [hc] at hb
      obtain rfl := Except.error.inj hb
      exact he e l' hc
    | ok u =>
      rw [hc] at hb
      cases hb
  · cases hc : bound [] [message, publishedBy] with
    | error e' =>
      rw [hc] at hb
      cases hb
    | ok u => exact hk hc i l'

end

/-! ## one step of a call -/

/-- nothing is committed -/
def ConfigEv.silent (e : ConfigEv) : Prop := e.stmt ≠ .commit

/-- the documents after a statement -/
def ConfigEv.docsAfter (e : ConfigEv) : ConfigDocs :=
  match e.stmt with
  | .commit => (e.pre.commit e.sess).tables.docs
  | _ => e.pre.tables.docs

/-- the call is done, with this answer, at this statement -/
def ConfigEv.step (call : ConfigCall) (r : PgAppResult ConfigReturn) (e : ConfigEv) : Prop :=
  call.Does (e.pre.tx e.sess).startedAt e.pre.tables.docs r (ConfigEv.docsAfter e)

/-- an answer is given without a statement, whatever the documents are, or one statement of the call
is its step and the others are silent -/
def ConfigAnswered (call : ConfigCall) (r : PgAppResult ConfigReturn)
    (part : List ConfigEv) : Prop :=
  (part = [] ∧ ∀ now docs, call.Does now docs r docs) ∨
    Took ConfigEv.silent (ConfigEv.step call r) part

/-- where a transaction stands when it is closed -/
def Ends {α : Type} (call : ConfigCall) (f : α → ConfigReturn) (r : PgAppResult α)
    (x : ConfigView × List ConfigEv) : Prop :=
  ∃ t p, x.1 = some (t, some p) ∧ match r with
    | .ok a => CommitEffect call t p ∧ Made call (f a) t p
    | .error e => Refused call e t p

/-- what a call is checked for -/
abbrev AnswerSafe {α : Type} (call : ConfigCall) (f : α → ConfigReturn) (l : List ConfigEv)
    (p : ConfigProg α) : Prop :=
  SerialSafe call (fun r x => x.1 = none ∧ ∃ new, x.2 = new ++ l ∧
    ConfigAnswered call (r.map f) new) p (none, l)

section
variable {α : Type} {call : ConfigCall} {f : α → ConfigReturn} {l : List ConfigEv}

theorem inTx_answered {p : ConfigProg α} (ha : p.Avoids (· = .commit))
    (h : ∀ time l, SerialSafe call (Ends call f) p (some (⟨time, none, [], []⟩, none), l)) :
    AnswerSafe call f l (ConfigProg.inTx p) := by
  refine ⟨⟨trivial, fun hc => by cases hc⟩, fun _ x hm => ?_⟩
  obtain ⟨γ₁, l₁⟩ := x
  obtain ⟨⟨time, hγ⟩, s₀, c₀, db₀, l₀, d₀, -, -, -, -, -, hl⟩ := hm
  obtain rfl : γ₁ = _ := hγ
  obtain rfl : l₁ = [(⟨s₀, call, c₀, .begin, (), db₀⟩ : ConfigEv)] ++ l := hl
  have hlog : Safe (fun _ _ => True) (SerialMove call)
      (fun _ x' => ∃ new, x'.2 = new ++ l ∧ ∀ e ∈ new, ¬ e.stmt = .commit) p
      (some (⟨time, none, [], []⟩, none), [(⟨s₀, call, c₀, .begin, (), db₀⟩ : ConfigEv)] ++ l) := by
    refine ha.logged rfl fun e he => ?_
    rw [List.mem_singleton.mp he]
    simp
  refine ((h time _).and hlog).bracket ?_ ?_
  · intro a x hx
    obtain ⟨⟨t, p, hγ, hce, hm⟩, new, hl, hnew⟩ := hx
    refine ⟨⟨?_, fun _ => ⟨f a, t, p, hγ, hm⟩⟩, fun _ y hy => ?_⟩
    · rw [hγ]
      exact ⟨t, p, rfl, hce⟩
    · obtain ⟨hγ', s, c, db, l₁, d', hG, -, hv, -, -, hl'⟩ := hy
      refine ⟨hγ', ⟨s, call, c, .commit, (),
        db⟩ :: new, by rw [hl', hl]; rfl, .inr (Took.last ?_ hnew)⟩
      rw [hγ] at hv
      obtain ⟨hg, -⟩ := get_of_configView hv
      have hd := docs_commit hG.1 hv hm
      have htx : db.tx s = t := by
        unfold ConfigDb.tx
        rw [hg]
        rfl
      show call.Does (db.tx s).startedAt _ _ _
      rw [htx]
      exact hd
  · intro e x hx
    obtain ⟨⟨t, p, hγ, hm⟩, new, hl, hnew⟩ := hx
    refine ⟨⟨trivial, fun hc => by cases hc⟩, fun _ y hy => ?_⟩
    obtain ⟨hγ', s, c, db, l₁, d', hG, -, hv, -, -, hl'⟩ := hy
    refine ⟨hγ', ⟨s, call, c, .rollback, (),
      db⟩ :: new, by rw [hl', hl]; rfl, .inr (Took.last ?_ hnew)⟩
    rw [hγ] at hv
    obtain ⟨hg, -⟩ := get_of_configView hv
    have htx : db.tx s = t := by
      unfold ConfigDb.tx
      rw [hg]
      rfl
    show call.Does (db.tx s).startedAt _ _ _
    rw [htx]
    exact docs_refused hv hm

theorem answered_at_once {r : PgAppResult α} (h : ∀ now docs, call.Does now docs (r.map f) docs) :
    AnswerSafe call f l (.ret r) := ⟨rfl, [], rfl, .inl ⟨rfl, h⟩⟩

end

end PgApp
