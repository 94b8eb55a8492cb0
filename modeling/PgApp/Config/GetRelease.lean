import PgApp.Config.Releases

/-!
# Reading releases

* `releasesOf_eq`           the join of `config_releases` with `config_scopes` gives the releases
                            of the scope;
* `releases_kept`         no statement takes a release away or changes one;
* `config_release_history`  numbering, snapshots and immutability of the releases of every scope.
-/

namespace PgApp
open Interleave ConfigProg

theorem releasesOf_eq {db : ConfigDb} (L : ConfigLocks db) (scope : ConfigScope) :
    db.tables.releasesOf scope = (db.tables.state scope).releases.map (rowToRelease scope) := by
  unfold ConfigTables.releasesOf ConfigTables.state
  cases hx : db.tables.scopeOf scope with
  | none =>
    have hnone := ConfigLocks.scopeOf_none hx
    refine List.filterMap_eq_nil_iff.mpr fun r _ => ?_
    rw [Option.map_eq_none_iff, List.find?_eq_none]
    intro x hmem hc
    rw [Bool.and_eq_true, beq_iff_eq, beq_iff_eq] at hc
    exact hnone x hmem hc.2
  | some x =>
    obtain ⟨hmem, rfl⟩ := ConfigLocks.scopeOf_mem hx
    show _ = (db.tables.releases.filter (·.scopeId == x.id)).map (rowToRelease x.scope)
    rw [← List.filterMap_eq_map, List.filterMap_filter]
    refine List.filterMap_congr fun r _ => ?_
    cases hc : r.scopeId == x.id with
    | true =>
      have hid : r.scopeId = x.id := by simpa using hc
      cases hf : db.tables.scopes.find? fun y => y.id == r.scopeId && y.scope == x.scope with
      | none =>
        rw [List.find?_eq_none] at hf
        exact absurd (by rw [hid]; simp) (hf x hmem)
      | some y =>
        have hy : y.scope = x.scope := by
          have := List.find?_some hf
          rw [Bool.and_eq_true, beq_iff_eq, beq_iff_eq] at this
          exact this.2
        show some (rowToRelease y.scope r) = some (rowToRelease x.scope r)
        rw [hy]
    | false =>
      have hid : r.scopeId ≠ x.id := by simpa using hc
      have hf : (db.tables.scopes.find? fun y => y.id == r.scopeId && y.scope == x.scope)
          = none := by
        rw [List.find?_eq_none]
        intro y hy hc'
        rw [Bool.and_eq_true, beq_iff_eq, beq_iff_eq] at hc'
        obtain rfl := L.eq_of_scope hy hmem hc'.2
        exact hid hc'.1.symm
      rw [hf]
      rfl

section
variable {db db' : ConfigDb} {s : Nat} {c : Time} {st : ConfigStmt} {r : st.Res}

/-- rows of `config_releases` are never changed -/
theorem releases_append (hx : ConfigStmt.exec s c st db = some (r, db')) :
    ∃ new, db'.tables.releases = db.tables.releases ++ new := by
  by_cases hst : st = .commit
  · subst hst
    obtain rfl := congrArg Prod.snd (Option.some.inj hx)
    show ∃ new, (db.commit s).tables.releases = db.tables.releases ++ new
    unfold ConfigDb.commit
    cases db.txs.get s with
    | none => exact ⟨[], (List.append_nil _).symm⟩
    | some t => exact ⟨t.releases, rfl⟩
  · exact ⟨[], by rw [(exec_txOnly hst hx).1, List.append_nil]⟩

theorem releases_kept (L : ConfigLocks db) (hx : ConfigStmt.exec s c st db = some (r, db'))
    (scope : ConfigScope) :
    (db.tables.state scope).releases <+: (db'.tables.state scope).releases := by
  have hsame : db'.tables.state scope = db.tables.state scope →
      (db.tables.state scope).releases <+: (db'.tables.state scope).releases :=
    fun h => h.symm ▸ List.prefix_rfl
  by_cases hst : st = .commit
  · subst hst
    obtain rfl := congrArg Prod.snd (Option.some.inj hx)
    cases hg : db.txs.get s with
    | none =>
      have hdb : db.commit s = db := by
        unfold ConfigDb.commit
        rw [hg]
      exact hsame (congrArg (fun d : ConfigDb => d.tables.state scope) hdb)
    | some t =>
      cases hr : t.scope with
      | none =>
        have htb : (db.commit s).tables = db.tables := by
          unfold ConfigDb.commit
          rw [hg]
          exact L.apply_none hg hr
        exact hsame (congrArg (fun tb : ConfigTables => tb.state scope) htb)
      | some row =>
        by_cases hsc : row.scope = scope
        · subst hsc
          have hstate : (db.tables.state row.scope).releases <+: (db.tables.part row).releases := by
            unfold ConfigTables.state
            cases hx' : db.tables.scopeOf row.scope with
            | none => exact List.nil_prefix
            | some x =>
              obtain ⟨hmem, he⟩ := ConfigLocks.scopeOf_mem hx'
              have hid := ((L.tied s t row hg hr).2 x hmem).mp he
              show db.tables.releases.filter (·.scopeId == x.id)
                <+: db.tables.releases.filter (·.scopeId == row.id)
              exact hid ▸ List.prefix_rfl
          show _ <+: ((db.commit s).tables.state row.scope).releases
          rw [state_commit_self L hg hr]
          exact hstate.trans (List.prefix_append _ _)
        · exact hsame (state_commit_ne L hg hr hsc)
  · exact hsame (congrArg (fun tb : ConfigTables => tb.state scope) (exec_txOnly hst hx).1)

end

section
variable {σ τ : ConfigSys}

theorem releaseAt_keep (hσ : ConfigReach σ) (hst : Relation.ReflTransGen ConfigStep σ τ)
    {scope : ConfigScope} {revision : Int} {release : ConfigRelease}
    (h : σ.db.tables.releaseAt scope revision = some release) :
    τ.db.tables.releaseAt scope revision = some release := by
  induction hst with
  | refl => exact h
  | @tail υ _ hυ hs ih =>
    have hr : ConfigReach υ := hσ.trans hυ
    cases hs with
    | call s op _ => exact ih
    | ret s op r _ => exact ih
    | stmt s op c st k r d' _ hx =>
      have hr' : ConfigReach _ := hr.tail (.stmt υ s op c st k r d' ‹_› hx)
      unfold ConfigTables.releaseAt at ih ⊢
      rw [releasesOf_eq hr'.locks]
      rw [releasesOf_eq hr.locks] at ih
      exact ((releases_kept hr.locks hx scope).map _).find?_eq_some ih

theorem releases_keep (hst : Relation.ReflTransGen ConfigStep σ τ) :
    ∃ new, τ.db.tables.releases = σ.db.tables.releases ++ new := by
  induction hst with
  | refl => exact ⟨[], (List.append_nil _).symm⟩
  | tail _ hs ih =>
    obtain ⟨new, ih⟩ := ih
    cases hs with
    | call s op _ => exact ⟨new, ih⟩
    | ret s op r _ => exact ⟨new, ih⟩
    | stmt s op c st k r d' _ hx =>
      obtain ⟨new', h⟩ := releases_append hx
      exact ⟨new ++ new', by rw [h, ih, List.append_assoc]⟩

/-! ## what `get_release` answers -/

/-- a numbered release that a call has handed back was read by its one statement -/
def ReleaseAnswer (call : ConfigCall) (r : PgAppResult ConfigReturn) (γ : List ConfigEv) : Prop :=
  ∀ scope revision release, call.op = .getRelease scope revision → 1 ≤ revision →
    r = .ok (.release release) → validateScope scope = .ok () ∧
      ∃ s c db, (⟨s, call, c, .releaseAt scope revision, some release, db⟩ : ConfigEv) ∈ γ

theorem getRelease_own (call : ConfigCall) {scope : ConfigScope} {revision : Int}
    (h1 : 1 ≤ revision) (γ : List ConfigEv) :
    OwnSafe call (fun r γ' => ∀ release, r = .ok release → validateScope scope = .ok () ∧
      ∃ s c db, (⟨s, call, c, .releaseAt scope revision, some release, db⟩ : ConfigEv) ∈ γ')
      (getRelease scope revision) γ := by
  refine Safe.check_bind (fun _ hv => ?_) fun e release h => (by cases h)
  show OwnSafe call _ (if revision ≤ 0 then _ else _) γ
  rw [if_neg (by omega)]
  refine ⟨trivial, fun r γ' hm => ?_⟩
  obtain ⟨s, c, db, rfl⟩ := hm
  cases r with
  | none => exact fun release h => (by cases h)
  | some x =>
    intro release h
    obtain rfl := Except.ok.inj h
    exact ⟨hv, s, c, db, List.mem_cons_self⟩

theorem release_own (call : ConfigCall) (γ : List ConfigEv) :
    OwnSafe call (ReleaseAnswer call) call.body γ := by
  obtain ⟨store, op⟩ := call
  by_cases h : ∃ scope revision, op = .getRelease scope revision ∧ 1 ≤ revision
  · obtain ⟨scope, revision, rfl, h1⟩ := h
    refine Safe.bind (getRelease_own _ h1 γ) (fun release γ' h => ?_) fun e γ' _ => ?_
    · intro scope' revision' release' hop _ hr
      obtain ⟨rfl, rfl⟩ : scope = scope' ∧ revision = revision' := by
        simpa using hop
      obtain rfl : release = release' := by
        simpa using hr
      exact h release rfl
    · intro _ _ _ _ _ hr
      cases hr
  · refine (Safe.trivial _ γ).mono fun r γ' _ scope revision release hop h1 _ => ?_
    exact absurd ⟨scope, revision, hop, h1⟩ h

theorem past_kept (hr : ConfigReach σ) {e : ConfigEv} (he : e ∈ σ.hist) (scope : ConfigScope) :
    ConfigLocks e.pre ∧
      (e.pre.tables.state scope).releases <+: (σ.db.tables.state scope).releases := by
  refine Reach.invariant_of (d := ConfigDb.empty)
    (fun e h => ConfigLocks e.pre ∧ configPre e.op e.stmt (configView e.sess e.pre h) ∧
      ∃ d, ConfigStmt.exec e.sess e.ctx e.stmt e.pre = some (e.res, d))
    (fun db h => ∀ e ∈ h, ConfigLocks e.pre ∧
      (e.pre.tables.state scope).releases <+: (db.tables.state scope).releases)
    (fun _ h => absurd h List.not_mem_nil) ?_ hr hr.relies.past e he
  rintro db h s call c st r db' ih ⟨L, -, -⟩ hx e he
  have hstep := releases_kept L hx scope
  rcases List.mem_cons.mp he with rfl | he
  · exact ⟨L, hstep⟩
  · exact ⟨(ih e he).1, (ih e he).2.trans hstep⟩

/-- the release a call has handed back is there, and stays there -/
theorem getRelease_answer (hr : ConfigReach σ) {s : Nat} {store : ConfigStore} {scope : ConfigScope}
    {revision : Int} {release : ConfigRelease} (h1 : 1 ≤ revision)
    (hd : (s, ⟨store, .getRelease scope revision⟩, .ok (.release release)) ∈ σ.done) :
    validateScope scope = .ok () ∧ σ.db.tables.releaseAt scope revision = some release := by
  have h := hr.done_of ReleaseAnswer (fun τ s call r hτ hp => ?_) (fun call r e h hh => ?_)
    s _ _ hd scope revision release rfl h1 rfl
  · obtain ⟨hv, s', c, db, he⟩ := h
    refine ⟨hv, ?_⟩
    obtain ⟨L, hpre⟩ := past_kept hr he scope
    obtain ⟨h₁, h₂, hh⟩ := List.append_of_mem he
    have hpast := hr.relies.past
    rw [hh] at hpast
    obtain ⟨-, -, d, hx⟩ := hpast.head
    have hval : db.tables.releaseAt scope revision = some release :=
      congrArg Prod.fst (Option.some.inj hx)
    unfold ConfigTables.releaseAt at hval ⊢
    rw [releasesOf_eq L] at hval
    rw [releasesOf_eq hr.locks]
    exact (hpre.map _).find?_eq_some hval
  · intro scope revision release hop h1 hres
    obtain ⟨hv, s', c, db, he⟩ := hτ.ownEvents _ release_own hp scope revision release hop h1 hres
    exact ⟨hv, s', c, db, List.mem_of_mem_filter he⟩
  · intro scope revision release hop h1 hres
    obtain ⟨hv, s', c, db, he⟩ := hh scope revision release hop h1 hres
    exact ⟨hv, s', c, db, List.mem_cons_of_mem _ he⟩

/-- the answer of a statement, its effect left aside -/
def ConfigStmt.answer (s : Nat) (clock : Time) (db : ConfigDb) (st : ConfigStmt) : Option st.Res :=
  (ConfigStmt.exec s clock st db).map Prod.fst

/-- `get_release` in a state that has the release -/
theorem getRelease_observe {scope : ConfigScope} {revision : Int} {release : ConfigRelease}
    (h1 : 1 ≤ revision) (hv : validateScope scope = .ok ()) (obs : Nat → ConfigDb)
    (hobs : (obs 0).tables.releaseAt scope revision = some release) (s : Nat) (clock : Time) :
    (getRelease scope revision).observe (ConfigStmt.answer s clock) obs 0 = some (.ok release) := by
  unfold getRelease
  rw [hv]
  show (if revision ≤ 0 then _ else _ : ConfigProg ConfigRelease).observe _ obs 0 = _
  rw [if_neg (by omega)]
  show (Option.bind (some ((obs 0).tables.releaseAt scope revision)) _) = _
  rw [hobs]
  rfl

end

/-! ## the history of releases -/

/-- **Release history.**  In every reachable state, whatever the clients interleave: the releases of
a scope are numbered 1 to `current_revision`; no two calls of `publish` answered with the same
revision of a scope; the snapshot of every release has exactly the keys whose last edit committed
before its publish was an upsert, with that value; later steps leave all release rows as they are;
and what `get_release` has once answered for a revision it answers from then on, whatever state
each of its statements finds. -/
theorem config_release_history (σ : ConfigSys) (hr : ConfigReach σ) :
    (∀ row ∈ σ.db.tables.scopes, ∃ n : Nat, row.currentRevision = n ∧
      (σ.db.tables.releases.filter (·.scopeId == row.id)).map (·.revision) = revisionsTo n) ∧
    (∀ x ∈ σ.db.tables.releases, ∃ row ∈ σ.db.tables.scopes, row.id = x.scopeId) ∧
    (∀ scope revision, (σ.done.countP fun x => publishedAt scope revision x.2.1 x.2.2) ≤ 1) ∧
    (∀ row ∈ σ.db.tables.scopes, ∀ x ∈ σ.db.tables.releases, x.scopeId = row.id →
      ∃ h₁ e h₂ fields, σ.hist = h₁ ++ e :: h₂ ∧ e.stmt = .commit ∧
        e.op.op = .publish row.scope x.message x.publishedBy ∧
        ConfigEv.publishes row.scope x.revision e = true ∧
        x.snapshot = .obj fields ∧ keysSorted fields ∧
        ∀ key v, (key, v) ∈ fields ↔ lastEdit h₂ row.scope key = some (some v)) ∧
    (∀ τ, Relation.ReflTransGen ConfigStep σ τ →
      ∃ new, τ.db.tables.releases = σ.db.tables.releases ++ new) ∧
    (∀ s store scope revision release, 1 ≤ revision →
      (s, ⟨store, .getRelease scope revision⟩, .ok (.release release)) ∈ σ.done →
      ∀ obs : Nat → ConfigDb,
        (∀ i, ∃ τ, Relation.ReflTransGen ConfigStep σ τ ∧ τ.db = obs i) →
        ∀ s' clock, (getRelease scope revision).observe (ConfigStmt.answer s' clock) obs 0
          = some (.ok release)) := by
  have L := hr.locks
  have hstate : ∀ row ∈ σ.db.tables.scopes, σ.db.tables.state row.scope = σ.db.tables.part row := by
    intro row hrow
    unfold ConfigTables.state
    rw [L.scopeOf_eq hrow]
  refine ⟨fun row hrow => ?_, L.releases, fun scope revision => ?_, fun row hrow x hx hid => ?_,
    fun τ hτ => releases_keep hτ, ?_⟩
  · have H := hr.history row.scope
    rw [hstate row hrow] at H
    refine ⟨_, ?_, H.revisions⟩
    rw [← H.current]
    unfold ScopePart.revision ConfigTables.part
    rw [L.scopeOf_eq hrow]
    rfl
  · have H := hr.history scope
    have hnd : ((σ.db.tables.state scope).releases.map (·.revision)).Nodup := by
      rw [H.revisions]
      exact nodup_revisionsTo _
    calc (σ.done.countP fun x => publishedAt scope revision x.2.1 x.2.2)
        ≤ σ.hist.countP (ConfigEv.publishes scope revision) := publishedAt_le hr scope revision
      _ = ((σ.db.tables.state scope).releases.map (·.revision)).count revision := H.counted revision
      _ ≤ 1 := List.nodup_iff_count_le_one.mp hnd revision
  · have H := hr.history row.scope
    rw [hstate row hrow] at H
    have hmem : x ∈ (σ.db.tables.part row).releases :=
      List.mem_filter.mpr ⟨hx, by simpa using hid⟩
    obtain ⟨h₁, e, h₂, hh, hp⟩ := H.published x hmem
    obtain ⟨fields, hs, hsorted, hkeys⟩ := hp.snapshot
    exact ⟨h₁, e, h₂, fields, hh, hp.commit, hp.call, hp.revision, hs, hsorted, hkeys⟩
  · intro s store scope revision release h1 hd obs hobs s' clock
    obtain ⟨hv, hat⟩ := getRelease_answer hr h1 hd
    obtain ⟨τ, hτ, he⟩ := hobs 0
    refine getRelease_observe h1 hv obs ?_ s' clock
    rw [← he]
    exact releaseAt_keep hr hτ hat

def shopScope : ConfigScope := ⟨"shop", "prod", "main", "app"⟩

/-- a store for the value `true` and the snapshot that has it under the key `a` -/
def shopStore : ConfigStore where
  limits := {}
  toVec := fun
    | .bool true => .ok [116, 114, 117, 101]
    | .obj [("a", .bool true)] => .ok [123, 34, 97, 34, 58, 116, 114, 117, 101, 125]
    | _ => .error "not here"
  sha256Hex := fun bytes =>
    if bytes = [123, 34, 97, 34, 58, 116, 114, 117, 101, 125] then
      "5daa0644c4a1c43ea018f7f1ef2944b90e0165ef1f2d5669ca89e5d4f69ac597"
    else ""
  validatorFor := fun _ => .ok fun _ => .ok ()

/-- `n` statements of session `s`, from time `c` on -/
def stmts (s : Nat) (c : Time) (n : Nat) : List (Act ConfigCall Time) :=
  (List.range n).map fun i : Nat => .stmt s (c + i)

/-- an edit, a publish that waits for it, a second publish, and a look at the first release -/
def twoPublishers : List (Act ConfigCall Time) :=
  [.call 0 ⟨shopStore, .upsertItem shopScope "a" (.bool true)⟩] ++ stmts 0 0 3 ++
  [.call 1 ⟨shopStore, .publish shopScope "first" "ann"⟩] ++ stmts 1 10 1 ++
  stmts 0 20 2 ++ [.ret 0] ++ stmts 1 30 7 ++
  [.call 0 ⟨shopStore, .publish shopScope "second" "bob"⟩] ++ stmts 0 40 8 ++ [.ret 0, .ret 1] ++
  [.call 1 ⟨shopStore, .getRelease shopScope 1⟩] ++ stmts 1 50 1 ++ [.ret 1]

def firstRelease : ConfigRelease :=
  ⟨shopScope, 1, "5daa0644c4a1c43ea018f7f1ef2944b90e0165ef1f2d5669ca89e5d4f69ac597",
    .obj [("a", .bool true)], "first", "ann", 10⟩

theorem config_release_history_twoPublishers :
    ∃ σ : ConfigSys, ConfigReach σ ∧ σ.db.tables.scopes.map (·.currentRevision) = [2] ∧
      (∀ row ∈ σ.db.tables.scopes, row.currentRevision = 2 →
        (σ.db.tables.releases.filter (·.scopeId == row.id)).map (·.revision) = revisionsTo 2) ∧
      ∀ s clock, (getRelease shopScope 1).observe (ConfigStmt.answer s clock) (fun _ => σ.db) 0
        = some (.ok firstRelease) := by
  have hplay : ((Sys.init ConfigDb.empty : ConfigSys).play ConfigStmt.exec ConfigCall.body
      twoPublishers).map (fun σ => (σ.db.tables.scopes.map (·.currentRevision), σ.done.head?))
      = some ([2], some (1, ⟨shopStore, .getRelease shopScope 1⟩,
          .ok (.release firstRelease))) := by
    rfl
  obtain ⟨σ, hσ, he⟩ := Option.map_eq_some_iff.mp hplay
  obtain ⟨hrev, hdone⟩ := Prod.mk.inj he
  have hr : ConfigReach σ := Sys.play_steps hσ
  obtain ⟨hnum, -, -, -, -, hget⟩ := config_release_history σ hr
  refine ⟨σ, hr, hrev, fun row hrow h2 => ?_, fun s clock => ?_⟩
  · obtain ⟨n, hn, hmap⟩ := hnum row hrow
    obtain rfl : n = 2 := by omega
    exact hmap
  · exact hget 1 shopStore shopScope 1 _ (Int.le_refl 1) (List.mem_of_head? hdone) _
      (fun _ => ⟨σ, .refl, rfl⟩) s clock

end PgApp
