import PgApp.Config.GetRelease

/-!
# What `watch` answers

A round of `watch` makes two queries, `latest_newer_than` and then `current_revision`, and the
answer "nothing new" combines them.

* `WatchAnswer`       the statements behind an answer;
* `lastGap`           what other sessions did between the two queries of the last round;
* `watch_right_iff`   the answer is right exactly when nobody published in that gap;
* `follows_given`     a client that keeps passing what it was answered.
-/

namespace PgApp
open Interleave ConfigProg

/-! ## what was true when a statement ran -/

/-- the state a statement found, and what the history said of it then -/
structure ConfigPast (e : ConfigEv) (h : List ConfigEv) : Prop where
  locks : ConfigLocks e.pre
  history : ∀ scope, ScopeHistory h scope (e.pre.tables.state scope)
  ran : ∃ d, ConfigStmt.exec e.sess e.ctx e.stmt e.pre = some (e.res, d)

theorem ConfigReach.past {σ : ConfigSys} (hr : ConfigReach σ) : Always ConfigPast σ.hist := by
  refine hr.always_of ConfigPast ?_
  intro τ s call c st k r d' hτ _ hx
  exact ⟨ConfigReach.locks hτ, ConfigReach.history hτ, d', hx⟩

/-- `current_revision` of a scope, 0 where it has no row -/
def ConfigTables.revisionOf (tb : ConfigTables) (scope : ConfigScope) : Int :=
  ((tb.scopeOf scope).map (·.currentRevision)).getD 0

section
variable {db : ConfigDb} {h : List ConfigEv} {scope : ConfigScope}

theorem revisionOf_eq (L : ConfigLocks db) :
    db.tables.revisionOf scope = (db.tables.state scope).revision := by
  unfold ConfigTables.revisionOf ConfigTables.state ScopePart.revision
  cases hx : db.tables.scopeOf scope with
  | none => rfl
  | some x =>
    obtain ⟨hmem, rfl⟩ := ConfigLocks.scopeOf_mem hx
    show _ = ((db.tables.scopeOf x.scope).map (·.currentRevision)).getD 0
    rw [L.scopeOf_eq hmem]

theorem mem_revisions_iff (L : ConfigLocks db) (H : ScopeHistory h scope (db.tables.state scope))
    {n : Int} : n ∈ (db.tables.releasesOf scope).map (·.revision)
      ↔ 1 ≤ n ∧ n ≤ db.tables.revisionOf scope := by
  have hmap : (db.tables.releasesOf scope).map (·.revision)
      = revisionsTo (db.tables.state scope).releases.length := by
    rw [releasesOf_eq L, ← H.revisions, List.map_map]
    rfl
  rw [hmap, mem_revisionsTo, revisionOf_eq L, H.current]

/-- `latest_newer_than` that finds a release -/
theorem latestNewerThan_some {tb : ConfigTables} {known : Int} {release : ConfigRelease}
    (hx : tb.latestNewerThan scope known = some release) :
    known < release.revision ∧ release ∈ tb.releasesOf scope := by
  unfold ConfigTables.latestNewerThan newestFirst at hx
  have hm := List.mem_of_head? hx
  rw [List.mem_insertionSort, List.mem_filter] at hm
  exact ⟨by simpa using hm.2, hm.1⟩

/-- `latest_newer_than` that finds nothing -/
theorem latestNewerThan_none (L : ConfigLocks db) (H : ScopeHistory h scope (db.tables.state scope))
    {known : Int} (hk : 0 ≤ known) :
    db.tables.latestNewerThan scope known = none ↔ db.tables.revisionOf scope ≤ known := by
  have hnil : db.tables.latestNewerThan scope known = none
      ↔ ∀ n ∈ (db.tables.releasesOf scope).map (·.revision), n ≤ known := by
    unfold ConfigTables.latestNewerThan newestFirst
    rw [List.head?_eq_none_iff, List.forall_mem_map]
    rw [← List.length_eq_zero_iff, (List.perm_insertionSort _ _).length_eq,
      List.length_eq_zero_iff, List.filter_eq_nil_iff]
    simp
  rw [hnil]
  constructor
  · intro hall
    by_contra hlt
    have hmem : db.tables.revisionOf scope ∈ (db.tables.releasesOf scope).map (·.revision) :=
      (mem_revisions_iff L H).mpr ⟨by omega, Int.le_refl _⟩
    have := hall _ hmem
    omega
  · intro hle n hn
    have := ((mem_revisions_iff L H).mp hn).2
    omega

theorem published_iff (L : ConfigLocks db) (H : ScopeHistory h scope (db.tables.state scope))
    {n : Int} (hn : 1 ≤ n) :
    n ≤ db.tables.revisionOf scope ↔ ∃ e ∈ h, ConfigEv.publishes scope n e = true := by
  have h1 : n ∈ (db.tables.state scope).releases.map (·.revision)
      ↔ n ≤ db.tables.revisionOf scope := by
    rw [H.revisions, mem_revisionsTo, revisionOf_eq L, H.current]
    exact ⟨fun h => h.2, fun h => ⟨hn, h⟩⟩
  rw [← h1, ← List.count_pos_iff, ← H.counted, List.countP_pos_iff]

end

/-! ## the statements behind an answer -/

/-- the last statements of a `watch` that has its answer -/
inductive WatchAnswer (call : ConfigCall) (scope : ConfigScope) (known : Int) :
    ConfigWatchResult → List ConfigEv → Prop
  | newer (s : Nat) (c : Time) (release : ConfigRelease) (db : ConfigDb) (γ : List ConfigEv) :
      WatchAnswer call scope known ⟨true, release.revision, some release⟩
        (⟨s, call, c, .latestNewerThan scope known, some release, db⟩ :: γ)
  | nothing (s₁ s₂ s₃ : Nat) (c₁ c₂ c₃ now : Time) (revision : Option Int) (db₁ db₂ db₃ : ConfigDb)
      (γ : List ConfigEv) : WatchAnswer call scope known ⟨false, revision.getD 0, none⟩
        (⟨s₁, call, c₁, .utcNow, now, db₁⟩ :: ⟨s₂, call, c₂, .currentRevision scope,
          revision, db₂⟩ ::
          ⟨s₃, call, c₃, .latestNewerThan scope known, none, db₃⟩ :: γ)
  | idle (s : Nat) (c : Time) (res : ConfigWatchResult) (db : ConfigDb) (γ : List ConfigEv) :
      WatchAnswer call scope known res (⟨s, call, c, .idle, (), db⟩ :: γ)

theorem WatchAnswer.append {call : ConfigCall} {scope : ConfigScope} {known : Int}
    {res : ConfigWatchResult} {γ : List ConfigEv} (h : WatchAnswer call scope known res γ)
    (γ' : List ConfigEv) : WatchAnswer call scope known res (γ ++ γ') := by
  cases h with
  | newer s c release db γ => exact .newer s c release db _
  | nothing s₁ s₂ s₃ c₁ c₂ c₃ now revision db₁ db₂ db₃ γ =>
    exact .nothing s₁ s₂ s₃ c₁ c₂ c₃ now revision db₁ db₂ db₃ _
  | idle s c res db γ => exact .idle s c res db _

/-- the part of the statements that a call is responsible for -/
abbrev CallSafe {α : Type} (call : ConfigCall) (N : α → List ConfigEv → Prop) (p : ConfigProg α)
    (γ : List ConfigEv) : Prop :=
  OwnSafe call (fun r γ' => ∃ new, γ' = new ++ γ ∧ ∀ a, r = .ok a → N a new) p γ

/-- the rest of a call, with the statements it has issued already -/
theorem CallSafe.later {α : Type} {call : ConfigCall} {N N' : α → List ConfigEv → Prop}
    {p : ConfigProg α} (more γ : List ConfigEv) (h : CallSafe call N p (more ++ γ))
    (hN : ∀ a new, N a new → N' a (new ++ more)) :
    OwnSafe call (fun r γ' => ∃ new, γ' = new ++ γ ∧ ∀ a, r = .ok a → N' a new) p (more ++ γ) := by
  refine h.mono fun r γ' hr => ?_
  obtain ⟨new, rfl, hnew⟩ := hr
  exact ⟨new ++ more, (List.append_assoc new more γ).symm, fun a ha => hN a new (hnew a ha)⟩

theorem watchLoop_own (call : ConfigCall) (scope : ConfigScope) (known : Int)
    (interval deadline : Time) (rounds : Nat) (γ : List ConfigEv) :
    CallSafe call (WatchAnswer call scope known) (watchLoop scope known interval deadline rounds)
      γ := by
  induction rounds generalizing γ with
  | zero =>
    refine ⟨trivial, fun _ γ' hm => ?_⟩
    obtain ⟨s, c, db, rfl⟩ := hm
    exact ⟨[_], rfl, fun res _ => .idle s c res db []⟩
  | succ rounds ih =>
    refine ⟨trivial, fun r γ' hm => ?_⟩
    obtain ⟨s₃, c₃, db₃, rfl⟩ := hm
    cases r with
    | some release =>
      refine ⟨[_], rfl, fun res hres => ?_⟩
      obtain rfl := Except.ok.inj hres
      exact .newer s₃ c₃ release db₃ []
    | none =>
      refine ⟨trivial, fun revision γ' hm => ?_⟩
      obtain ⟨s₂, c₂, db₂, rfl⟩ := hm
      refine ⟨trivial, fun now γ' hm => ?_⟩
      obtain ⟨s₁, c₁, db₁, rfl⟩ := hm
      show OwnSafe call _ (if deadline ≤ now then _ else _) _
      split
      · refine ⟨[_, _, _], rfl, fun res hres => ?_⟩
        obtain rfl := Except.ok.inj hres
        exact .nothing s₁ s₂ s₃ c₁ c₂ c₃ now revision db₁ db₂ db₃ []
      · refine ⟨trivial, fun _ γ' hm => ?_⟩
        obtain ⟨s₀, c₀, db₀, rfl⟩ := hm
        exact CallSafe.later [_, _, _, _] γ (ih _) fun a new h => h.append _

theorem watch_own (call : ConfigCall) (store : ConfigStore) (scope : ConfigScope)
    (known timeout interval : Int) (rounds : Nat) (γ : List ConfigEv) :
    CallSafe call (fun res new => 0 ≤ known ∧ WatchAnswer call scope known res new)
      (store.watch scope known timeout interval rounds) γ := by
  have hfail : ∀ e, (fun r γ' => ∃ new, γ' = new ++ γ ∧ ∀ a, r = .ok a →
      0 ≤ known ∧ WatchAnswer call scope known a new)
          (.error e : PgAppResult ConfigWatchResult) γ :=
    fun e => ⟨[], rfl, fun a ha => (by cases ha)⟩
  refine Safe.check_bind (fun _ _ => ?_) hfail
  show OwnSafe call _ (if known < 0 then _ else _) γ
  split
  · exact hfail _
  · rename_i hk
    split
    · exact hfail _
    · split
      · exact hfail _
      · refine ⟨trivial, fun now γ' hm => ?_⟩
        obtain ⟨s, c, db, rfl⟩ := hm
        exact CallSafe.later [_] γ (watchLoop_own call scope known _ _ rounds _)
          fun a new h => ⟨by omega, h.append _⟩

/-! ## the gap between the two queries -/

/-- the answer is right: it says "changed" exactly when the revision it gives is newer than the
known one, and then it carries the release of that revision -/
def WatchRight (known : Int) (res : ConfigWatchResult) : Prop :=
  (res.changed = true ↔ known < res.latestRevision) ∧
    (res.changed = true → ∃ release, res.release = some release ∧
      release.revision = res.latestRevision)

/-- one of the two queries of session `s` -/
def ConfigEv.isQuery (s : Nat) (e : ConfigEv) : Bool :=
  e.sess == s && match e.stmt with
    | .currentRevision _ => true
    | .latestNewerThan _ _ => true
    | _ => false

/-- what other sessions did between the two queries of the last round of session `s` -/
def lastGap (s : Nat) (h : List ConfigEv) : List ConfigEv :=
  match h.dropWhile fun e => !ConfigEv.isQuery s e with
  | [] => []
  | e :: rest =>
    match e.stmt with
    | .currentRevision _ => rest.takeWhile fun e => e.sess != s
    | _ => []

/-- the revisions an event publishes -/
def ConfigEv.published (e : ConfigEv) : List (ConfigScope × Int) :=
  match e.stmt with
  | .commit =>
    match e.pre.txs.get e.sess with
    | some ⟨_, some row, _, releases⟩ => releases.map fun x => (row.scope, x.revision)
    | _ => []
  | _ => []

theorem mem_published {scope : ConfigScope} {n : Int} {e : ConfigEv} :
    (scope, n) ∈ ConfigEv.published e ↔ ConfigEv.publishes scope n e = true := by
  obtain ⟨s, call, c, st, r, db⟩ := e
  cases st with
  | commit =>
    unfold ConfigEv.published ConfigEv.publishes
    cases hg : db.txs.get s with
    | none => simp
    | some t =>
      obtain ⟨time, sc, items, releases⟩ := t
      cases sc with
      | none => simp [ConfigTx.publishes, ConfigTx.holdsScope]
      | some row =>
        simp only [List.mem_map, Prod.mk.injEq, Option.any_some, ConfigTx.publishes,
          ConfigTx.holdsScope, Bool.and_eq_true, beq_iff_eq, List.any_eq_true]
        constructor
        · intro h
          obtain ⟨x, hx, hs, hn⟩ := h
          exact ⟨hs, x, hx, hn⟩
        · intro h
          obtain ⟨hs, x, hx, hn⟩ := h
          exact ⟨x, hx, hs, hn⟩
  | _ => simp [ConfigEv.published, ConfigEv.publishes]

/-- somebody published a revision above the known one in the gap -/
def Overtaken (s : Nat) (scope : ConfigScope) (known : Int) (h : List ConfigEv) : Prop :=
  ∃ e ∈ lastGap s h, ∃ x ∈ ConfigEv.published e, x.1 = scope ∧ known < x.2

theorem ownEvents_cons_inv {s : Nat} {h γ : List ConfigEv} {e : ConfigEv}
    (he : ownEvents s h = e :: γ) :
    ∃ h₁ h₂, h = h₁ ++ e :: h₂ ∧ (∀ x ∈ h₁, x.sess ≠ s) ∧ e.sess = s ∧ ownEvents s h₂ = γ := by
  unfold ownEvents at he
  obtain ⟨h₁, h₂, rfl, h1, h2, h3⟩ := List.filter_eq_cons_iff.mp he
  exact ⟨h₁, h₂, rfl, fun x hx => by simpa using h1 x hx, by simpa using h2, h3⟩

theorem mem_of_ownEvents_cons {s : Nat} {h γ : List ConfigEv} {e : ConfigEv}
    (he : ownEvents s h = e :: γ) : e ∈ h := by
  have hmem : e ∈ ownEvents s h := by
    rw [he]
    exact List.mem_cons_self
  exact List.mem_of_mem_filter hmem

theorem dropWhile_query {s : Nat} {h₁ h : List ConfigEv} (h1 : ∀ x ∈ h₁, x.sess ≠ s) :
    (h₁ ++ h).dropWhile (fun e => !ConfigEv.isQuery s e)
      = h.dropWhile fun e => !ConfigEv.isQuery s e := by
  refine List.dropWhile_append_of_pos fun x hx => ?_
  unfold ConfigEv.isQuery
  rw [(by simpa using h1 x hx : (x.sess == s) = false)]
  rfl

/-- a session whose last query was `latest_newer_than` has no gap -/
theorem lastGap_newer {s : Nat} {h γ : List ConfigEv} {s' : Nat} {call : ConfigCall} {c : Time}
    {scope : ConfigScope} {known : Int} {r : Option ConfigRelease} {db : ConfigDb}
    (he : ownEvents s h = ⟨s', call, c, .latestNewerThan scope known, r, db⟩ :: γ) :
    lastGap s h = [] := by
  obtain ⟨h₁, h₂, rfl, h1, hs, -⟩ := ownEvents_cons_inv he
  obtain rfl : s' = s := hs
  unfold lastGap
  rw [dropWhile_query h1, List.dropWhile_cons_of_neg (by simp [ConfigEv.isQuery])]

/-- the gap of a round that is over -/
theorem lastGap_nothing {s : Nat} {h γ : List ConfigEv} {s₁ s₂ : Nat} {call : ConfigCall}
    {c₁ c₂ now : Time} {scope : ConfigScope} {revision : Option Int} {db₁ db₂ : ConfigDb}
    {e : ConfigEv} (he : ownEvents s h = ⟨s₁, call, c₁, .utcNow, now, db₁⟩ ::
      ⟨s₂, call, c₂, .currentRevision scope, revision, db₂⟩ :: e :: γ) :
    ∃ h₁ h₂, h = h₁ ++ ⟨s₂, call, c₂, .currentRevision scope, revision, db₂⟩ ::
      (lastGap s h ++ e :: h₂) ∧ (∀ x ∈ lastGap s h, x.sess ≠ s) ∧ e.sess = s := by
  obtain ⟨a, h', rfl, ha, hs₁, h'e⟩ := ownEvents_cons_inv he
  obtain ⟨b, h'', rfl, hb, hs₂, h''e⟩ := ownEvents_cons_inv h'e
  obtain ⟨g, h₂, rfl, hg, hs, -⟩ := ownEvents_cons_inv h''e
  obtain rfl : s₁ = s := hs₁
  obtain rfl : s₂ = s₁ := hs₂
  have hgap : lastGap s₂ (a ++ ⟨s₂, call, c₁, .utcNow, now, db₁⟩ ::
      (b ++ ⟨s₂, call, c₂, .currentRevision scope, revision, db₂⟩ :: (g ++ e :: h₂))) = g := by
    unfold lastGap
    rw [dropWhile_query ha, List.dropWhile_cons_of_pos (by simp [ConfigEv.isQuery]),
      dropWhile_query hb, List.dropWhile_cons_of_neg (by simp [ConfigEv.isQuery])]
    show (g ++ e :: h₂).takeWhile (fun x => x.sess != s₂) = g
    rw [List.takeWhile_append_of_pos (fun x hx => by simpa using hg x hx),
      List.takeWhile_cons_of_neg (by simpa using hs), List.append_nil]
  rw [hgap]
  exact ⟨a ++ ⟨s₂, call, c₁, .utcNow, now, db₁⟩ :: b, h₂, by simp, hg, hs⟩

/-! ## when the answer is right -/

/-- the statements that the calls with a release or a revision in their answer end with -/
structure CallAnswer (call : ConfigCall) (r : PgAppResult ConfigReturn) (new : List ConfigEv) :
    Prop where
  watch : ∀ scope known timeout interval rounds res,
    call.op = .watch scope known timeout interval rounds → r = .ok (.watched res) →
      0 ≤ known ∧ WatchAnswer call scope known res new
  release : ∀ scope release, (call.op = .getLatestRelease scope ∨
      ∃ revision, call.op = .getRelease scope revision) → r = .ok (.release release) →
    ∃ s c db, (⟨s, call, c, .latestRelease scope, some release, db⟩ : ConfigEv) ∈ new ∨
      ∃ revision, (⟨s, call, c, .releaseAt scope revision, some release, db⟩ : ConfigEv) ∈ new

theorem getLatestRelease_answer (call : ConfigCall) (scope : ConfigScope) (γ : List ConfigEv) :
    CallSafe call (fun release new => ∃ s c db,
      (⟨s, call, c, .latestRelease scope, some release, db⟩ : ConfigEv) ∈ new)
      (getLatestRelease scope) γ := by
  refine Safe.check_bind (fun _ _ => ?_) fun e => ⟨[], rfl, fun a ha => (by cases ha)⟩
  refine ⟨trivial, fun r γ' hm => ?_⟩
  obtain ⟨s, c, db, rfl⟩ := hm
  cases r with
  | none => exact ⟨[_], rfl, fun a ha => (by cases ha)⟩
  | some release =>
    refine ⟨[_], rfl, fun a ha => ?_⟩
    obtain rfl := Except.ok.inj ha
    exact ⟨s, c, db, List.mem_cons_self⟩

theorem getRelease_call (call : ConfigCall) (scope : ConfigScope) (revision : Int)
    (γ : List ConfigEv) :
    CallSafe call (fun release new => ∃ s c db,
      (⟨s, call, c, .latestRelease scope, some release, db⟩ : ConfigEv) ∈ new ∨
      ∃ revision, (⟨s, call, c, .releaseAt scope revision, some release, db⟩ : ConfigEv) ∈ new)
      (getRelease scope revision) γ := by
  refine Safe.check_bind (fun _ _ => ?_) fun e => ⟨[], rfl, fun a ha => (by cases ha)⟩
  show OwnSafe call _ (if revision ≤ 0 then _ else _) γ
  split
  · refine (getLatestRelease_answer call scope γ).mono fun r γ' h => ?_
    obtain ⟨new, rfl, hN⟩ := h
    refine ⟨new, rfl, fun a ha => ?_⟩
    obtain ⟨s, c, db, hmem⟩ := hN a ha
    exact ⟨s, c, db, .inl hmem⟩
  · refine ⟨trivial, fun r γ' hm => ?_⟩
    obtain ⟨s, c, db, rfl⟩ := hm
    cases r with
    | none => exact ⟨[_], rfl, fun a ha => (by cases ha)⟩
    | some release =>
      refine ⟨[_], rfl, fun a ha => ?_⟩
      obtain rfl := Except.ok.inj ha
      exact ⟨s, c, db, .inr ⟨revision, List.mem_cons_self⟩⟩

/-- a call whose function ends with `N` of its statements -/
theorem call_map {α : Type} {call : ConfigCall} {N : α → List ConfigEv → Prop} {p : ConfigProg α}
    {f : α → ConfigReturn} {γ : List ConfigEv} (h : CallSafe call N p γ)
    (hok : ∀ a new, N a new → CallAnswer call (.ok (f a)) new) :
    OwnSafe call (fun r γ' => ∃ new, γ' = new ++ γ ∧ CallAnswer call r new)
      (p >>= fun a => pure (f a)) γ := by
  refine Safe.bind h (fun a γ' hN => ?_) fun e γ' hN => ?_
  · obtain ⟨new, rfl, hN⟩ := hN
    exact ⟨new, rfl, hok a new (hN a rfl)⟩
  · obtain ⟨new, rfl, -⟩ := hN
    exact ⟨new, rfl, fun _ _ _ _ _ _ _ h => (by cases h), fun _ _ _ h => (by cases h)⟩

theorem call_answer (call : ConfigCall) (γ : List ConfigEv) :
    OwnSafe call (fun r γ' => ∃ new, γ' = new ++ γ ∧ CallAnswer call r new) call.body γ := by
  obtain ⟨store, op⟩ := call
  have hrest : (∀ scope known timeout interval rounds,
        op ≠ .watch scope known timeout interval rounds) →
      (∀ scope, op ≠ .getLatestRelease scope) →
        (∀ scope revision, op ≠ .getRelease scope revision) →
      OwnSafe ⟨store, op⟩ (fun r γ' => ∃ new, γ' = new ++ γ ∧ CallAnswer ⟨store, op⟩ r new)
        (ConfigCall.body ⟨store, op⟩) γ := by
    intro h1 h2 h3
    refine (OwnSafe.extends _ _ γ).mono fun r γ' h => ?_
    obtain ⟨new, rfl⟩ := h
    refine ⟨new, rfl, fun _ _ _ _ _ _ h => absurd h (h1 _ _ _ _ _), fun _ _ h => ?_⟩
    rcases h with h | ⟨_, h⟩
    · exact absurd h (h2 _)
    · exact absurd h (h3 _ _)
  cases op with
  | watch scope known timeout interval rounds =>
    refine call_map (watch_own _ store scope known timeout interval rounds γ) fun res new h => ?_
    refine ⟨fun sc k t i n res' hop hres => ?_, fun _ _ h => (by simp at h)⟩
    obtain ⟨rfl, rfl, -⟩ : scope = sc ∧ known = k ∧ _ := by simpa using hop
    obtain rfl : res = res' := by simpa using hres
    exact h
  | getLatestRelease scope =>
    refine call_map (getLatestRelease_answer _ scope γ) fun release new h => ?_
    refine ⟨fun _ _ _ _ _ _ h => (by simp at h), fun sc release' hop hres => ?_⟩
    obtain rfl : scope = sc := by simpa using hop
    obtain rfl : release = release' := by simpa using hres
    obtain ⟨s, c, db, hmem⟩ := h
    exact ⟨s, c, db, .inl hmem⟩
  | getRelease scope revision =>
    refine call_map (getRelease_call _ scope revision γ) fun release new h => ?_
    refine ⟨fun _ _ _ _ _ _ h => (by simp at h), fun sc release' hop hres => ?_⟩
    obtain rfl : scope = sc := by simpa using hop
    obtain rfl : release = release' := by simpa using hres
    exact h
  | _ =>
    refine hrest (fun _ _ _ _ _ h => ?_) (fun _ h => ?_) fun _ _ h => ?_
    all_goals cases h

section
variable {σ : ConfigSys}

theorem not_idle (hr : ConfigReach σ) {s : Nat} {call : ConfigCall} {c : Time} {db : ConfigDb} :
    (⟨s, call, c, .idle, (), db⟩ : ConfigEv) ∉ σ.hist := by
  intro he
  obtain ⟨h', hp⟩ := hr.past.of_mem he
  obtain ⟨d, hx⟩ := hp.ran
  cases hx

/-- the statements behind the answer of a `watch` that is about to return -/
theorem watch_statements (hr : ConfigReach σ) {s : Nat} {store : ConfigStore} {scope : ConfigScope}
    {known timeout interval : Int} {rounds : Nat} {res : ConfigWatchResult}
    (hp : σ.prog s = some (⟨store, .watch scope known timeout interval rounds⟩,
      .ret (.ok (.watched res)))) :
    0 ≤ known ∧ WatchAnswer ⟨store, .watch scope known timeout interval rounds⟩ scope known res
      (ownEvents s σ.hist) := by
  refine hr.ownEvents
    (fun call r γ => ∀ scope known timeout interval rounds res,
      call.op = .watch scope known timeout interval rounds → r = .ok (.watched res) →
        0 ≤ known ∧ WatchAnswer call scope known res γ)
    (fun call γ => (call_answer call γ).mono fun r γ' h => ?_) hp _ _ _ _ _ _ rfl rfl
  obtain ⟨new, rfl, hN⟩ := h
  intro scope known timeout interval rounds res hop hres
  obtain ⟨h1, h2⟩ := hN.watch scope known timeout interval rounds res hop hres
  exact ⟨h1, h2.append γ⟩

/-- **The answer is right exactly when nobody published in the gap.** -/
theorem watch_right_iff (hr : ConfigReach σ) {s : Nat} {store : ConfigStore} {scope : ConfigScope}
    {known timeout interval : Int} {rounds : Nat} {res : ConfigWatchResult}
    (hp : σ.prog s = some (⟨store, .watch scope known timeout interval rounds⟩,
      .ret (.ok (.watched res)))) :
    WatchRight known res ↔ ¬ Overtaken s scope known σ.hist := by
  obtain ⟨hk, ha⟩ := watch_statements hr hp
  generalize hown : ownEvents s σ.hist = γ at ha
  cases ha with
  | idle s' c res db γ =>
    exact absurd (mem_of_ownEvents_cons hown) (not_idle hr)
  | newer s' c release db γ =>
    obtain ⟨h', hpast⟩ := hr.past.of_mem (mem_of_ownEvents_cons hown)
    obtain ⟨d, hx⟩ := hpast.ran
    have hval : db.tables.latestNewerThan scope known = some release :=
      congrArg Prod.fst (Option.some.inj hx)
    have hlt := (latestNewerThan_some hval).1
    constructor
    · rintro - ⟨e, he, -⟩
      rw [lastGap_newer hown] at he
      exact absurd he List.not_mem_nil
    · exact fun _ => ⟨⟨fun _ => hlt, fun _ => rfl⟩, fun _ => ⟨release, rfl, rfl⟩⟩
  | nothing s₁ s₂ s₃ c₁ c₂ c₃ now revision db₁ db₂ db₃ γ =>
    obtain ⟨h₁, h₂, hh, hgap, -⟩ := lastGap_nothing hown
    have hall := hr.past
    rw [hh] at hall
    have hp₂ := hall.head
    have hp₃ := (Always.of_suffix h₁ _ hall).2.head
    obtain ⟨d₂, hx₂⟩ := hp₂.ran
    obtain ⟨d₃, hx₃⟩ := hp₃.ran
    have hrev : revision.getD 0 = db₂.tables.revisionOf scope := by
      have : (db₂.tables.scopeOf scope).map (·.currentRevision) = revision :=
        congrArg Prod.fst (Option.some.inj hx₂)
      rw [← this]
      rfl
    have hnone : db₃.tables.latestNewerThan scope known = none :=
      congrArg Prod.fst (Option.some.inj hx₃)
    have hle₃ := (latestNewerThan_none hp₃.locks (hp₃.history scope) hk).mp hnone
    have hright : WatchRight known ⟨false, revision.getD 0, none⟩
        ↔ db₂.tables.revisionOf scope ≤ known := by
      unfold WatchRight
      rw [hrev]
      simp
    rw [hright]
    constructor
    · intro hle h
      obtain ⟨e, he, ⟨sc, n⟩, hx, hsc, hn⟩ := h
      obtain rfl : sc = scope := hsc
      have hn' : known < n := hn
      have hpub : n ≤ db₂.tables.revisionOf sc :=
        (published_iff hp₂.locks (hp₂.history sc) (by omega)).mpr
          ⟨e, List.mem_append_left _ he, mem_published.mp hx⟩
      omega
    · intro hnot
      by_contra hgt
      -- the newest revision is above the known one, so its publish is not older than the gap
      have h1 : 1 ≤ db₂.tables.revisionOf scope := by omega
      obtain ⟨e, he, hpub⟩ := (published_iff hp₂.locks (hp₂.history scope) h1).mp (Int.le_refl _)
      rcases List.mem_append.mp he with he | he
      · exact hnot ⟨e, he, (scope, _), mem_published.mpr hpub, rfl, by omega⟩
      · rcases List.mem_cons.mp he with rfl | he
        · cases hpub
        · have := (published_iff hp₃.locks (hp₃.history scope) h1).mpr ⟨e, he, hpub⟩
          omega

end

end PgApp
