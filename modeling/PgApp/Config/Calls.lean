import PgApp.Config.Moves

/-!
# The programs keep to their contract

Each call of the store is checked alone: it takes the scope row first, writes only to that scope,
and what it commits is `CommitEffect` of the call (`config_body`).  The check also counts, so that
every `publish` that answers with a revision is paid for by a commit of that revision.
-/

namespace PgApp
open Interleave ConfigProg

abbrev ConfigSafe {α : Type} (call : ConfigCall) (Q : PgAppResult α → ConfigView → Prop)
    (p : ConfigProg α) (γ : ConfigView) : Prop := Safe (configPre call) (configMove call) Q p γ

/-- the statements outside a transaction -/
def ConfigStmt.plain : ConfigStmt → Bool
  | .listScopes _ _ | .jsonSchema _ | .scopeId _ | .draftItems _ | .latestRelease _
  | .releaseAt _ _ | .listReleases _ _ _ | .latestNewerThan _ _ | .currentRevision _ | .utcNow
  | .sleep _ | .idle => true
  | _ => false

section
variable {α β : Type} {call : ConfigCall} {Q : PgAppResult α → ConfigView → Prop}

theorem plain_bind {st : ConfigStmt} (h : st.plain = true) {k : st.Res → ConfigProg α}
    {γ : ConfigView} (hk : ∀ r, ConfigSafe call Q (k r) γ) :
    ConfigSafe call Q (query st >>= k) γ := by
  have hp : configPre call st γ := by
    cases st <;> first | exact trivial | cases h
  refine ⟨hp, fun r γ' hm => ?_⟩
  obtain rfl : γ' = γ := by
    cases st <;> first | exact hm | cases h
  exact hk r

/-! ## inside a transaction -/

theorem ensureScope_bind {scope : ConfigScope} {time : Time} {k : Int → ConfigProg α}
    (hk : ∀ row p, row.scope = scope → Anchored row p →
      ConfigSafe call Q (k row.id) (some (⟨time, some row, [], []⟩, some p))) :
    ConfigSafe call Q (query (.ensureScope scope) >>= k) (some (⟨time, none, [], []⟩, none)) := by
  refine ⟨⟨time, rfl⟩, fun id γ' hm => ?_⟩
  obtain ⟨row, p, rfl, hsc, rfl, ha⟩ := hm time rfl
  exact hk row p hsc ha

variable {t : ConfigTx} {row : ScopeRow} {p : ScopePart}

theorem selectCurrentRevision_bind {k : Int → ConfigProg α} (hr : t.scope = some row)
    (hk : ConfigSafe call Q (k row.currentRevision) (some (t, some p))) :
    ConfigSafe call Q (query (.selectCurrentRevision row.id) >>= fun r => orFail r >>= k)
      (some (t, some p)) := by
  refine ⟨⟨t, row, p, rfl, hr, rfl⟩, fun r γ' hm => ?_⟩
  obtain ⟨rfl, rfl⟩ := hm t row p rfl hr
  exact hk

theorem selectActiveItems_bind {k : List (String × Json) → ConfigProg α}
    (hr : t.scope = some row) (hi : t.items = [])
    (hk : ConfigSafe call Q (k (activeRows p.items)) (some (t, some p))) :
    ConfigSafe call Q (query (.selectActiveItems row.id) >>= k) (some (t, some p)) := by
  refine ⟨⟨t, row, p, rfl, hr, rfl⟩, fun r γ' hm => ?_⟩
  obtain ⟨rfl, rfl⟩ := hm t row p rfl hr hi
  exact hk

theorem selectSchema_bind {k : Option Json → ConfigProg α} (hr : t.scope = some row)
    (hk : ConfigSafe call Q (k row.jsonSchema) (some (t, some p))) :
    ConfigSafe call Q (query (.selectSchema row.id) >>= fun r => orFail r >>= k)
      (some (t, some p)) := by
  refine ⟨⟨t, row, p, rfl, hr, rfl⟩, fun r γ' hm => ?_⟩
  obtain ⟨rfl, rfl⟩ := hm t row p rfl hr
  exact hk

theorem updateSchema_bind {schema : Option Json} {k : Except SqlError Unit → ConfigProg α}
    (hr : t.scope = some row)
    (hk : ConfigSafe call Q (k (.ok ())) (some ({ t with
      scope := some { row with jsonSchema := schema, updatedAt := t.startedAt } }, some p)))
    (he : ∀ e, ConfigSafe call Q (k (.error e)) (some (t, some p))) :
    ConfigSafe call Q (query (.updateSchema row.id schema) >>= k) (some (t, some p)) := by
  refine ⟨⟨t, row, p, rfl, hr, rfl⟩, fun r γ' hm => ?_⟩
  rcases hm t row p rfl hr with ⟨e, rfl, rfl⟩ | ⟨rfl, rfl⟩
  · exact he _
  · exact hk

theorem updateCurrentRevision_bind {revision : Int} {k : Unit → ConfigProg α}
    (hr : t.scope = some row)
    (hk : ConfigSafe call Q (k ()) (some ({ t with
      scope := some { row with currentRevision := revision, updatedAt := t.startedAt } },
        some p))) :
    ConfigSafe call Q (query (.updateCurrentRevision row.id revision) >>= k)
      (some (t, some p)) := by
  refine ⟨⟨t, row, p, rfl, hr, rfl⟩, fun r γ' hm => ?_⟩
  obtain rfl := hm t row p rfl hr
  exact hk

theorem upsertItem_bind {key : String} {value : Json} {deleted : Bool}
    {k : Except SqlError Unit → ConfigProg α} (hr : t.scope = some row)
    (hk : ∀ i, ConfigSafe call Q (k (.ok ())) (some ({ t with
      items := t.items ++ [⟨i, row.id, key, value, deleted, t.startedAt⟩] }, some p)))
    (he : ∀ e, ConfigSafe call Q (k (.error e)) (some (t, some p))) :
    ConfigSafe call Q (query (.upsertItem row.id key value deleted) >>= k) (some (t, some p)) := by
  refine ⟨⟨t, row, p, rfl, hr, rfl⟩, fun r γ' hm => ?_⟩
  rcases hm t row p rfl hr with ⟨e, rfl, rfl⟩ | ⟨rfl, i, rfl⟩
  · exact he _
  · exact hk i

theorem insertRelease_bind {revision : Int} {snapshot : Json}
    {checksum message publishedBy : String} {k : Except SqlError Time → ConfigProg α}
    (hr : t.scope = some row)
    (hk : ∀ i, ConfigSafe call Q (k (.ok t.startedAt)) (some ({ t with
      releases := t.releases ++ [⟨i, row.id, revision, snapshot, checksum, message, publishedBy,
        t.startedAt⟩] }, some p)))
    (he : ∀ e, ConfigSafe call Q (k (.error e)) (some (t, some p))) :
    ConfigSafe call Q (query (.insertRelease row.id revision snapshot checksum message publishedBy)
      >>= k) (some (t, some p)) := by
  refine ⟨⟨t, row, p, rfl, hr, rfl⟩, fun r γ' hm => ?_⟩
  rcases hm t row p rfl hr with ⟨e, rfl, rfl⟩ | ⟨rfl, i, rfl⟩
  · exact he _
  · exact hk i

end

/-! ## counting what is published -/

/-- the transaction is about to commit this revision of this scope -/
def ConfigTx.publishes (scope : ConfigScope) (revision : Int) (t : ConfigTx) : Bool :=
  t.holdsScope scope && t.releases.any (·.revision == revision)

/-- a commit of this revision of this scope -/
def publishEarn (scope : ConfigScope) (revision : Int) :
    (st : ConfigStmt) → st.Res → ConfigView → Nat
  | .commit, _, some (t, _) => (t.publishes scope revision).toNat
  | _, _, _ => 0

/-- a call of `publish` that answered with this revision of this scope -/
def publishedAt (scope : ConfigScope) (revision : Int) (call : ConfigCall)
    (r : PgAppResult ConfigReturn) : Bool :=
  match call.op, r with
  | .publish sc _ _, .ok (.release release) => sc == scope && release.revision == revision
  | _, _ => false

/-- a program, its view, and how often it has committed the revision -/
abbrev PublishSafe {α : Type} (scope : ConfigScope) (revision : Int) (call : ConfigCall)
    (cost : PgAppResult α → Nat) (p : ConfigProg α) : Prop :=
  Safe (fun st x => configPre call st x.1) (Earns (configMove call) (publishEarn scope revision))
    (fun r x => x.1 = none ∧ cost r ≤ x.2) p (none, 0)

section
variable {α β : Type} {call : ConfigCall} {scope : ConfigScope} {revision : Int}

theorem publish_check_bind {cost : PgAppResult α → Nat} {r : PgAppResult β}
    {k : β → ConfigProg α} (hk : ∀ b, r = .ok b → PublishSafe scope revision call cost (k b))
    (he : ∀ e, cost (.error e) = 0) :
    PublishSafe scope revision call cost (Prog.check r >>= k) :=
  Safe.check_bind hk fun e => ⟨rfl, (he e).le⟩

/-- what a transaction has ready when it commits -/
theorem publish_inTx {cost : PgAppResult α → Nat} {p : ConfigProg α}
    {M : α → ConfigTx → Prop}
    (hc : ∀ a t, M a t → cost (.ok a) ≤ (t.publishes scope revision).toNat)
    (he : ∀ e, cost (.error e) = 0)
    (h : ∀ time, ConfigSafe call (fun r γ => ∀ a, r = .ok a →
      ∃ t q, γ = some (t, some q) ∧ CommitEffect call t q ∧ M a t) p
        (some (⟨time, none, [], []⟩, none))) :
    PublishSafe scope revision call cost (inTx p) := by
  refine ⟨trivial, fun _ x hx => ?_⟩
  obtain ⟨γ, n⟩ := x
  obtain ⟨⟨time, hγ⟩, -⟩ := hx
  obtain rfl : γ = some (⟨time, none, [], []⟩, none) := hγ
  refine ((h time).counted (publishEarn scope revision) n).bracket ?_ ?_
  · rintro a ⟨γ, m⟩ hγ
    obtain ⟨t, q, hγ, hce, hM⟩ := hγ a rfl
    obtain rfl : γ = some (t, some q) := hγ
    refine ⟨⟨t, q, rfl, hce⟩, fun _ y hy => ⟨hy.1, ?_⟩⟩
    have h1 : y.2 = m + (t.publishes scope revision).toNat := hy.2
    have h2 := hc a t hM
    omega
  · rintro e ⟨γ, m⟩ -
    exact ⟨trivial, fun _ y hy => ⟨hy.1, (he e).le.trans (Nat.zero_le _)⟩⟩

theorem publish_plain {p : ConfigProg α} {cost : PgAppResult α → Nat} (hc : ∀ r, cost r = 0)
    (h : ConfigSafe call (fun _ γ => γ = none) p none) : PublishSafe scope revision call cost p :=
  (h.counted (publishEarn scope revision) 0).mono fun r _ hx =>
    ⟨hx, (hc r).le.trans (Nat.zero_le _)⟩

end

/-! ## the calls -/

section
variable {scope : ConfigScope} {revision : Int} (store : ConfigStore)

/-- the call is ready to commit, with `M` of its answer -/
def Ready {α : Type} (call : ConfigCall) (M : α → ConfigTx → Prop) (r : PgAppResult α)
    (γ : ConfigView) : Prop :=
  ∀ a, r = .ok a → ∃ t q, γ = some (t, some q) ∧ CommitEffect call t q ∧ M a t

theorem Ready.error {α : Type} {call : ConfigCall} {M : α → ConfigTx → Prop} (e : PgAppError)
    (γ : ConfigView) : Ready call M (.error e) γ := fun _ h => (by cases h)

theorem upsertItem_safe (sc : ConfigScope) (key : String) (value : Json) :
    PublishSafe scope revision ⟨store, .upsertItem sc key value⟩ (fun _ => 0)
      (store.upsertItem sc key value) := by
  refine publish_check_bind (fun _ _ => publish_check_bind (fun _ _ => publish_check_bind
    (fun _ _ => ?_) fun _ => rfl) fun _ => rfl) fun _ => rfl
  refine publish_inTx (M := fun _ _ => True) (fun _ _ _ => Nat.zero_le _) (fun _ => rfl)
    fun time => ?_
  refine ensureScope_bind fun row p hsc ha => selectSchema_bind rfl ?_
  refine Safe.check_bind (fun _ hcheck => ?_) fun e => Ready.error e _
  refine upsertItem_bind rfl (fun i a _ => ?_) fun e => Ready.error _ _
  exact ⟨_, p, rfl, ⟨row, hsc, ha, ⟨rfl, ⟨i, time, rfl⟩, rfl⟩, hcheck⟩, trivial⟩

theorem setSchema_safe (sc : ConfigScope) (schema : Option Json) :
    PublishSafe scope revision ⟨store, .setSchema sc schema⟩ (fun _ => 0)
      (store.setSchema sc schema) := by
  refine publish_check_bind (fun _ _ => publish_check_bind (fun _ _ => ?_) fun _ => rfl)
    fun _ => rfl
  refine publish_inTx (M := fun _ _ => True) (fun _ _ _ => Nat.zero_le _) (fun _ => rfl)
    fun time => ?_
  refine ensureScope_bind fun row p hsc ha => ?_
  refine updateSchema_bind (k := fun r => orFail r) rfl (fun a _ => ?_) fun e => Ready.error _ _
  exact ⟨_, p, rfl, ⟨row, time, hsc, ha, rfl⟩, trivial⟩

theorem deleteItem_safe (sc : ConfigScope) (key : String) :
    PublishSafe scope revision ⟨store, .deleteItem sc key⟩ (fun _ => 0) (deleteItem sc key) := by
  refine publish_check_bind (fun _ _ => publish_check_bind (fun _ _ => ?_) fun _ => rfl)
    fun _ => rfl
  refine publish_inTx (M := fun _ _ => True) (fun _ _ _ => Nat.zero_le _) (fun _ => rfl)
    fun time => ?_
  refine ensureScope_bind fun row p hsc ha => ?_
  refine upsertItem_bind rfl (fun i a _ => ?_) fun e => Ready.error _ _
  exact ⟨_, p, rfl, ⟨row, hsc, ha, rfl, ⟨i, time, rfl⟩, rfl⟩, trivial⟩

/-- what `publish` answers is the release it has inserted -/
theorem publish_safe (sc : ConfigScope) (message publishedBy : String) :
    PublishSafe scope revision ⟨store, .publish sc message publishedBy⟩
      (fun r => (publishedAt scope revision ⟨store, .publish sc message publishedBy⟩
        (r.map .release)).toNat) (store.publish sc message publishedBy) := by
  refine publish_check_bind (fun _ _ => publish_check_bind (fun _ _ => publish_check_bind
    (fun _ _ => ?_) fun _ => rfl) fun _ => rfl) fun _ => rfl
  refine publish_inTx (M := fun (a : ConfigRelease) t => t.publishes sc a.revision = true) ?_
    (fun _ => rfl) fun time => ?_
  · intro a t hM
    show (sc == scope && a.revision == revision).toNat ≤ _
    cases hc : (sc == scope && a.revision == revision) with
    | false => exact Nat.zero_le _
    | true =>
      rw [Bool.and_eq_true, beq_iff_eq, beq_iff_eq] at hc
      rw [← hc.1, ← hc.2, hM]
  · refine ensureScope_bind fun row p hsc ha => selectCurrentRevision_bind rfl ?_
    refine selectActiveItems_bind rfl rfl (selectSchema_bind rfl ?_)
    refine Safe.check_bind (fun fields hf => ?_) fun e => Ready.error e _
    refine Safe.check_bind (fun checksum hc => ?_) fun e => Ready.error e _
    refine insertRelease_bind rfl (fun i => ?_) fun e => Ready.error _ _
    refine updateCurrentRevision_bind rfl fun a ha' => ?_
    obtain rfl := Except.ok.inj ha'
    refine ⟨_, p, rfl, ⟨row, ⟨i, row.id, row.currentRevision + 1, .obj fields, checksum, message,
      publishedBy, time⟩, hsc, ha, ?_⟩, ?_⟩
    · exact ⟨⟨time, rfl⟩, rfl, rfl, rfl, rfl, ⟨fields, hf, rfl, hc⟩, rfl, rfl⟩
    · show ((row.scope == sc) && ((row.currentRevision + 1 == row.currentRevision + 1) || false))
        = true
      rw [hsc]
      simp

/-! ### reading -/

variable {call : ConfigCall}

theorem page_safe {α β : Type} (r : Except SqlError α) (f : α → β) :
    ConfigSafe call (fun _ γ => γ = none) (orFail r >>= fun rows => pure (f rows)) none := by
  cases r with
  | error e => exact rfl
  | ok rows => exact rfl

theorem getLatestRelease_safe (sc : ConfigScope) :
    ConfigSafe call (fun _ γ => γ = none) (getLatestRelease sc) none := by
  refine Safe.check_bind (fun _ _ => plain_bind rfl fun r => ?_) fun _ => rfl
  cases r with
  | none => exact rfl
  | some release => exact rfl

theorem getRelease_safe (sc : ConfigScope) (n : Int) :
    ConfigSafe call (fun _ γ => γ = none) (getRelease sc n) none := by
  refine Safe.check_bind (fun _ _ => ?_) fun _ => rfl
  show ConfigSafe call _ (if n ≤ 0 then _ else _) none
  split
  · exact getLatestRelease_safe sc
  · refine plain_bind rfl fun r => ?_
    cases r with
    | none => exact rfl
    | some release => exact rfl

theorem getDraft_safe (sc : ConfigScope) :
    ConfigSafe call (fun _ γ => γ = none) (getDraft sc) none := by
  refine Safe.check_bind (fun _ _ => plain_bind rfl fun r => ?_) fun _ => rfl
  cases r with
  | none => exact rfl
  | some id => exact plain_bind (k := fun items => .ret (.ok items)) rfl fun _ => rfl

theorem watchLoop_safe (sc : ConfigScope) (known : Int) (interval deadline : Time) (rounds : Nat) :
    ConfigSafe call (fun _ γ => γ = none) (watchLoop sc known interval deadline rounds) none := by
  induction rounds with
  | zero =>
    have h : watchLoop sc known interval deadline 0
        = query .idle >>= fun _ => pure ⟨false, 0, none⟩ := rfl
    rw [h]
    exact plain_bind rfl fun _ => rfl
  | succ rounds ih =>
    refine plain_bind rfl fun r => ?_
    cases r with
    | some release => exact rfl
    | none =>
      refine plain_bind rfl fun _ => plain_bind rfl fun now => ?_
      show ConfigSafe call _ (if deadline ≤ now then _ else _) none
      split
      · exact rfl
      · exact plain_bind rfl fun _ => ih

theorem watch_safe (sc : ConfigScope) (known timeout interval : Int) (rounds : Nat) :
    ConfigSafe call (fun _ γ => γ = none) (store.watch sc known timeout interval rounds) none := by
  refine Safe.check_bind (fun _ _ => ?_) fun _ => rfl
  show ConfigSafe call _ (if known < 0 then _ else _) none
  split
  · exact rfl
  · split
    · exact rfl
    · split
      · exact rfl
      · exact plain_bind rfl fun now => watchLoop_safe sc known _ _ rounds

/-- a call that hands on the answer of its function -/
theorem publish_map {α : Type} {p : ConfigProg α} {f : α → ConfigReturn}
    (h : PublishSafe scope revision call
      (fun r => (publishedAt scope revision call (r.map f)).toNat) p) :
    PublishSafe scope revision call (fun r => (publishedAt scope revision call r).toNat)
      (p >>= fun a => pure (f a)) :=
  Safe.bind h (fun _ _ hx => hx) fun _ _ hx => hx

/-- **Every call keeps to its contract, and pays for the revision it answers with.** -/
theorem config_body (scope : ConfigScope) (revision : Int) (call : ConfigCall) :
    PublishSafe scope revision call (fun r => (publishedAt scope revision call r).toNat)
      call.body := by
  obtain ⟨store, op⟩ := call
  cases op with
  | publish sc m p => exact publish_map (publish_safe store sc m p)
  | upsertItem sc k v => exact publish_map (upsertItem_safe store sc k v)
  | setSchema sc schema => exact publish_map (setSchema_safe store sc schema)
  | deleteItem sc k => exact publish_map (deleteItem_safe store sc k)
  | listScopes l o =>
    refine publish_map (publish_plain (fun _ => rfl) ?_)
    exact Safe.check_bind (fun _ _ => plain_bind rfl fun r => page_safe r _) fun _ => rfl
  | getSchema sc =>
    refine publish_map (publish_plain (fun _ => rfl) ?_)
    exact Safe.check_bind (fun _ _ => plain_bind rfl fun _ => rfl) fun _ => rfl
  | getDraft sc => exact publish_map (publish_plain (fun _ => rfl) (getDraft_safe sc))
  | getLatestRelease sc =>
    exact publish_map (publish_plain (fun _ => rfl) (getLatestRelease_safe sc))
  | getRelease sc n => exact publish_map (publish_plain (fun _ => rfl) (getRelease_safe sc n))
  | listReleases sc l o =>
    refine publish_map (publish_plain (fun _ => rfl) ?_)
    exact Safe.check_bind (fun _ _ => Safe.check_bind
      (fun _ _ => plain_bind rfl fun r => page_safe r _)
      fun _ => rfl) fun _ => rfl
  | watch sc known timeout interval rounds =>
    exact publish_map (publish_plain (fun _ => rfl)
      (watch_safe store sc known timeout interval rounds))

end

/-! ## in every run -/

section
variable {σ : ConfigSys}

theorem ConfigReach.relies (hr : ConfigReach σ) :
    Relies ConfigStmt.exec (fun db _ => ConfigLocks db)
    configView configPre configMove (fun _ _ γ => γ = none) (· = none) σ := by
  refine Reach.rely configRules (fun _ _ _ h => h) (fun call γ hγ => ?_) hr
  subst hγ
  exact Safe.uncounted (Q := fun _ γ => γ = none) (config_body ⟨"", "", "", ""⟩ 0 call)

theorem ConfigReach.locks (hr : ConfigReach σ) : ConfigLocks σ.db := hr.relies.holds

/-- the event commits this revision of this scope -/
def ConfigEv.publishes (scope : ConfigScope) (revision : Int) (e : ConfigEv) : Bool :=
  match e.stmt with
  | .commit => (e.pre.txs.get e.sess).any (·.publishes scope revision)
  | _ => false

theorem publishedAt_le (hr : ConfigReach σ) (scope : ConfigScope) (revision : Int) :
    (σ.done.countP fun x => publishedAt scope revision x.2.1 x.2.2)
      ≤ σ.hist.countP (ConfigEv.publishes scope revision) := by
  have h := Reach.credit configRules (fun _ _ _ (h : _ = none) => h)
    (fun _ => publishEarn scope revision) (fun e => (ConfigEv.publishes scope revision e).toNat)
    (fun call r => (publishedAt scope revision call r).toNat) ?_ ?_ hr
  · rw [sum_map_toNat, sum_map_toNat] at h
    exact h
  · intro db h s call c st r _
    cases st with
    | commit =>
      cases hg : db.txs.get s with
      | none => simp only [configView, hg, publishEarn, Option.map_none, Nat.zero_le]
      | some t =>
        simp only [configView, hg, publishEarn, Option.map_some, ConfigEv.publishes,
          Option.any_some, Nat.le_refl]
    | _ => exact Nat.zero_le _
  · intro call γ hγ
    subst hγ
    exact config_body scope revision call

end

end PgApp
