import PgApp.Config.Watch

/-!
# A client that watches in a loop

* `Undisturbed`    in the whole run nobody publishes while a watching session is between its two
                   queries (but for revisions the session already knows);
* `Loops`          a client that passes what it was answered last as the known revision;
* `config_watch`   when answers of `watch` are right, and what a looping client has then been given.
-/

namespace PgApp
open Interleave ConfigProg

/-- the scope and the known revision of a session that is between its two queries -/
def awaits (s : Nat) (h : List ConfigEv) : Option (ConfigScope × Int) :=
  match ownEvents s h with
  | ⟨_, _, _, .latestNewerThan scope known, none, _⟩ :: _ => some (scope, known)
  | _ => none

/-- the event publishes nothing that a session between its two queries would miss -/
def LeavesGaps (e : ConfigEv) (h : List ConfigEv) : Prop :=
  ∀ x ∈ h, ∀ w ∈ (awaits x.sess h).toList, ∀ p ∈ ConfigEv.published e, p.1 = w.1 → p.2 ≤ w.2

instance (e : ConfigEv) (h : List ConfigEv) : Decidable (LeavesGaps e h) :=
  inferInstanceAs (Decidable (∀ x ∈ h, ∀ w ∈ (awaits x.sess h).toList,
    ∀ p ∈ ConfigEv.published e, p.1 = w.1 → p.2 ≤ w.2))

def Undisturbed (h : List ConfigEv) : Prop := Always LeavesGaps h

instance (h : List ConfigEv) : Decidable (Undisturbed h) :=
  inferInstanceAs (Decidable (Always LeavesGaps h))

theorem awaits_append {s : Nat} {g h : List ConfigEv} {call : ConfigCall} {c : Time}
    {scope : ConfigScope} {known : Int} {db : ConfigDb} (hg : ∀ x ∈ g, x.sess ≠ s) :
    awaits s (g ++ ⟨s, call, c, .latestNewerThan scope known, none, db⟩ :: h)
      = some (scope, known) := by
  have hown : ownEvents s (g ++ ⟨s, call, c, .latestNewerThan scope known, none, db⟩ :: h)
      = ⟨s, call, c, .latestNewerThan scope known, none, db⟩ :: ownEvents s h := by
    unfold ownEvents
    rw [List.filter_append, List.filter_eq_nil_iff.mpr fun x hx => by simpa using hg x hx,
      List.nil_append, List.filter_cons_of_pos (by simp)]
  unfold awaits
  rw [hown]

section
variable {σ : ConfigSys}

/-- where every step leaves the gaps alone, no session has been overtaken -/
theorem not_overtaken {s : Nat} {h : List ConfigEv} {scope : ConfigScope} {known : Int}
    {call : ConfigCall} {res : ConfigWatchResult} (hu : Undisturbed h)
    (ha : WatchAnswer call scope known res (ownEvents s h)) (hidle : ∀ s call c db,
      (⟨s, call, c, .idle, (), db⟩ : ConfigEv) ∉ h) : ¬ Overtaken s scope known h := by
  intro hex
  obtain ⟨e, he, x, hx, hsc, hn⟩ := hex
  generalize hown : ownEvents s h = γ at ha
  cases ha with
  | idle s' c res db γ => exact hidle _ _ _ _ (mem_of_ownEvents_cons hown)
  | newer s' c release db γ =>
    rw [lastGap_newer hown] at he
    exact absurd he List.not_mem_nil
  | nothing s₁ s₂ s₃ c₁ c₂ c₃ now revision db₁ db₂ db₃ γ =>
    obtain ⟨h₁, h₂, hh, hgap, hs⟩ := lastGap_nothing hown
    obtain rfl : s₃ = s := hs
    obtain ⟨g₁, g₂, hg⟩ := List.append_of_mem he
    rw [hg] at hh hgap
    have hcut : h = (h₁ ++ ⟨s₂, call, c₂, .currentRevision scope, revision, db₂⟩ :: g₁) ++ e ::
        (g₂ ++ ⟨s₃, call, c₃, .latestNewerThan scope known, none, db₃⟩ :: h₂) := by
      rw [hh]
      simp
    have hw : awaits s₃ (g₂ ++ ⟨s₃, call, c₃, .latestNewerThan scope known, none, db₃⟩ :: h₂)
        = some (scope, known) :=
      awaits_append fun x hx => hgap x (List.mem_append_right _ (List.mem_cons_of_mem _ hx))
    rw [hcut] at hu
    have hle : x.2 ≤ known := by
      refine hu.head ⟨s₃, call, c₃, .latestNewerThan scope known, none, db₃⟩ ?_ (scope, known) ?_
        x hx hsc
      · exact List.mem_append_right _ List.mem_cons_self
      · show (scope, known) ∈ (awaits s₃ _).toList
        rw [hw]
        exact List.mem_cons_self
    omega

theorem watch_right (hr : ConfigReach σ) (hu : Undisturbed σ.hist) :
    ∀ s call r, (s, call, r) ∈ σ.done → ∀ scope known timeout interval rounds res,
      call.op = .watch scope known timeout interval rounds → r = .ok (.watched res) →
      WatchRight known res := by
  intro s call r hd scope known timeout interval rounds res hop hres
  refine hr.done_of (fun call r h => Undisturbed h → ∀ scope known timeout interval rounds res,
    call.op = .watch scope known timeout interval rounds → r = .ok (.watched res) →
    WatchRight known res) ?_ ?_ s call r hd hu scope known timeout interval rounds res hop hres
  · intro τ s call r hτ hp hu scope known timeout interval rounds res hop hres
    obtain ⟨store, op⟩ := call
    subst hop hres
    refine (watch_right_iff hτ hp).mpr ?_
    exact not_overtaken hu (watch_statements hτ hp).2 fun _ _ _ _ => not_idle hτ
  · exact fun call r e h hh hu => hh hu.2

theorem revisions_grow (hr : ConfigReach σ) (scope : ConfigScope) :
    σ.hist.Pairwise fun e e' => e'.pre.tables.revisionOf scope ≤ e.pre.tables.revisionOf scope := by
  refine Always.pairwise (hr.always_of (fun e h => ∀ e' ∈ h,
    e'.pre.tables.revisionOf scope ≤ e.pre.tables.revisionOf scope) ?_)
  intro τ s call c st k r d' hτ _ _ e' he'
  obtain ⟨L, hpre⟩ := past_kept hτ he' scope
  obtain ⟨h', hpast⟩ := (ConfigReach.past hτ).of_mem he'
  have hlen := hpre.length_le
  show e'.pre.tables.revisionOf scope ≤ τ.db.tables.revisionOf scope
  rw [revisionOf_eq L, revisionOf_eq (ConfigReach.locks hτ), (hpast.history scope).current,
    (ConfigReach.history hτ scope).current]
  omega

end

/-! ## the client -/

/-- what a session has been answered, the newest first -/
abbrev ConfigLog := List (Nat × ConfigCall × PgAppResult ConfigReturn)

/-- the revision a client goes on with after an answer about the scope -/
def adopt (scope : ConfigScope) (call : ConfigCall) (r : PgAppResult ConfigReturn)
    (known : Int) : Int :=
  match call.op, r with
  | .watch sc _ _ _ _, .ok (.watched res) => if sc = scope then res.latestRevision else known
  | .getLatestRelease sc, .ok (.release release) => if sc = scope then release.revision else known
  | .getRelease sc _, .ok (.release release) => if sc = scope then release.revision else known
  | _, _ => known

/-- the revision a client has adopted; 0 at first -/
def adopted (scope : ConfigScope) (l : ConfigLog) : Int :=
  l.foldr (fun x known => adopt scope x.2.1 x.2.2 known) 0

/-- the revisions of the releases an answer about the scope carries -/
def carried (scope : ConfigScope) (call : ConfigCall) (r : PgAppResult ConfigReturn) : List Int :=
  match call.op, r with
  | .watch sc _ _ _ _, .ok (.watched res) =>
    if sc = scope then (res.release.map (·.revision)).toList else []
  | .getLatestRelease sc, .ok (.release release) => if sc = scope then [release.revision] else []
  | .getRelease sc _, .ok (.release release) => if sc = scope then [release.revision] else []
  | _, _ => []

/-- the revisions whose releases a client has been given -/
def given (scope : ConfigScope) (l : ConfigLog) : List Int :=
  l.flatMap fun x => carried scope x.2.1 x.2.2

/-- every `watch` of the scope passes the revision the client has adopted -/
def Loops (scope : ConfigScope) : ConfigLog → Prop
  | [] => True
  | x :: l => Loops scope l ∧ ∀ known timeout interval rounds,
      x.2.1.op = .watch scope known timeout interval rounds → known = adopted scope l

section
variable {σ : ConfigSys} {scope : ConfigScope}

theorem revision_le_of_mem (hr : ConfigReach σ) {e : ConfigEv} (he : e ∈ σ.hist)
    {release : ConfigRelease} (hm : release ∈ e.pre.tables.releasesOf scope) :
    release.revision ≤ e.pre.tables.revisionOf scope := by
  obtain ⟨h', hp⟩ := hr.past.of_mem he
  exact ((mem_revisions_iff hp.locks (hp.history scope)).mp (List.mem_map_of_mem hm)).2

/-- the two statements that fetch one release -/
theorem release_statement (hr : ConfigReach σ) {call : ConfigCall} {new : List ConfigEv}
    (hnew : ∀ e ∈ new, e ∈ σ.hist) {release : ConfigRelease}
    (h : ∃ s c db, (⟨s, call, c, .latestRelease scope, some release, db⟩ : ConfigEv) ∈ new ∨
      ∃ revision, (⟨s, call, c, .releaseAt scope revision, some release, db⟩ : ConfigEv) ∈ new) :
    ∃ e ∈ new, release.revision ≤ e.pre.tables.revisionOf scope := by
  obtain ⟨s, c, db, he | ⟨revision, he⟩⟩ := h
  · obtain ⟨h', hp⟩ := hr.past.of_mem (hnew _ he)
    obtain ⟨d, hx⟩ := hp.ran
    have hval : db.tables.latestRelease scope = some release :=
      congrArg Prod.fst (Option.some.inj hx)
    refine ⟨_, he, revision_le_of_mem hr (hnew _ he) ?_⟩
    unfold ConfigTables.latestRelease newestFirst at hval
    exact (List.mem_insertionSort _).mp (List.mem_of_head? hval)
  · obtain ⟨h', hp⟩ := hr.past.of_mem (hnew _ he)
    obtain ⟨d, hx⟩ := hp.ran
    have hval : db.tables.releaseAt scope revision = some release :=
      congrArg Prod.fst (Option.some.inj hx)
    exact ⟨_, he, revision_le_of_mem hr (hnew _ he) (List.mem_of_find?_eq_some hval)⟩

/-- what an answer about the scope makes a client adopt: nothing new, the revision of a release it
carries, or what `watch` found when there was nothing new -/
theorem adopt_cases (hr : ConfigReach σ) {call : ConfigCall} {r : PgAppResult ConfigReturn}
    {new : List ConfigEv} (hN : CallAnswer call r new) (hnew : ∀ e ∈ new, e ∈ σ.hist) (k : Int) :
    adopt scope call r k = k ∨
    (adopt scope call r k ∈ carried scope call r ∧
      ∃ e ∈ new, adopt scope call r k ≤ e.pre.tables.revisionOf scope) ∨
    ∃ known timeout interval rounds res, call.op = .watch scope known timeout interval rounds ∧
      r = .ok (.watched res) ∧ res.changed = false ∧ adopt scope call r k = res.latestRevision ∧
      ∃ e ∈ new, res.latestRevision = e.pre.tables.revisionOf scope := by
  by_cases hw : ∃ known timeout interval rounds res,
      call.op = .watch scope known timeout interval rounds ∧ r = .ok (.watched res)
  · obtain ⟨known, timeout, interval, rounds, res, hop, hres⟩ := hw
    obtain ⟨-, ha⟩ := hN.watch scope known timeout interval rounds res hop hres
    have hadopt : adopt scope call r k = res.latestRevision := by
      unfold adopt
      rw [hop, hres]
      exact if_pos rfl
    have hcarried : carried scope call r = (res.release.map (·.revision)).toList := by
      unfold carried
      rw [hop, hres]
      exact if_pos rfl
    rw [hadopt, hcarried]
    cases ha with
    | idle s c res db γ => exact absurd (hnew _ List.mem_cons_self) (not_idle hr)
    | newer s c release db γ =>
      have he := hnew _ List.mem_cons_self
      obtain ⟨h', hp⟩ := hr.past.of_mem he
      obtain ⟨d, hx⟩ := hp.ran
      have hval : db.tables.latestNewerThan scope known = some release :=
        congrArg Prod.fst (Option.some.inj hx)
      exact .inr (.inl ⟨List.mem_cons_self, _, List.mem_cons_self,
        revision_le_of_mem hr he (latestNewerThan_some hval).2⟩)
    | nothing s₁ s₂ s₃ c₁ c₂ c₃ now revision db₁ db₂ db₃ γ =>
      have hmem : (⟨s₂, call, c₂, .currentRevision scope, revision, db₂⟩ : ConfigEv) ∈
          (⟨s₁, call, c₁, .utcNow, now, db₁⟩ : ConfigEv) ::
            ⟨s₂, call, c₂, .currentRevision scope, revision, db₂⟩ ::
            ⟨s₃, call, c₃, .latestNewerThan scope known, none, db₃⟩ :: γ :=
        List.mem_cons_of_mem _ List.mem_cons_self
      obtain ⟨h', hp⟩ := hr.past.of_mem (hnew _ hmem)
      obtain ⟨d, hx⟩ := hp.ran
      have hval : (db₂.tables.scopeOf scope).map (·.currentRevision) = revision :=
        congrArg Prod.fst (Option.some.inj hx)
      refine .inr (.inr ⟨known, timeout, interval, rounds, _, hop, hres, rfl, rfl, _, hmem, ?_⟩)
      show revision.getD 0 = _
      rw [← hval]
      rfl
  · by_cases hg : (call.op = .getLatestRelease scope ∨
        ∃ revision, call.op = .getRelease scope revision) ∧ ∃ release, r = .ok (.release release)
    · obtain ⟨hop, release, hres⟩ := hg
      obtain ⟨e, he, hle⟩ := release_statement hr hnew (hN.release scope release hop hres)
      have h : adopt scope call r k = release.revision ∧
          release.revision ∈ carried scope call r := by
        unfold adopt carried
        rcases hop with hop | ⟨revision, hop⟩ <;> rw [hop, hres] <;> simp
      rw [h.1]
      exact .inr (.inl ⟨h.2, e, he, hle⟩)
    · left
      unfold adopt
      split
      · rename_i sc known timeout interval rounds res hop
        split
        · rename_i hsc
          subst hsc
          exact absurd ⟨known, timeout, interval, rounds, res, hop, rfl⟩ hw
        · rfl
      · rename_i sc release hop
        split
        · rename_i hsc
          subst hsc
          exact absurd ⟨.inl hop, release, rfl⟩ hg
        · rfl
      · rename_i sc revision release hop
        split
        · rename_i hsc
          subst hsc
          exact absurd ⟨.inr ⟨revision, hop⟩, release, rfl⟩ hg
        · rfl
      · rfl

/-- the client of a run whose answers are right, one answer after the other -/
theorem adopted_given (hr : ConfigReach σ) {l : ConfigLog} {parts : List (List ConfigEv)}
    (hall : List.Forall₂ (fun x part => CallAnswer x.2.1 x.2.2 part) l parts)
    (hparts : ∀ e ∈ parts.flatten, e ∈ σ.hist)
    (hgrow : parts.flatten.Pairwise fun e e' =>
      e'.pre.tables.revisionOf scope ≤ e.pre.tables.revisionOf scope)
    (hright : ∀ x ∈ l, ∀ known timeout interval rounds res,
      x.2.1.op = .watch scope known timeout interval rounds → x.2.2 = .ok (.watched res) →
      WatchRight known res) (hl : Loops scope l) :
    (adopted scope l = 0 ∨ adopted scope l ∈ given scope l) ∧
      (adopted scope l = 0 ∨
        ∃ e ∈ parts.flatten, adopted scope l ≤ e.pre.tables.revisionOf scope) := by
  induction hall with
  | nil => exact ⟨.inl rfl, .inl rfl⟩
  | @cons x part l parts hx _ ih =>
    rw [List.flatten_cons] at hparts hgrow ⊢
    obtain ⟨-, hgrow₂, hcross⟩ := List.pairwise_append.mp hgrow
    obtain ⟨hgiven, hbound⟩ := ih (fun e he => hparts e (List.mem_append_right _ he)) hgrow₂
      (fun y hy => hright y (List.mem_cons_of_mem _ hy)) hl.1
    have hgiven' : adopted scope l ∈ given scope l → adopted scope l ∈ given scope (x :: l) :=
      fun h => List.mem_flatMap.mpr (by
        obtain ⟨y, hy, hv⟩ := List.mem_flatMap.mp h
        exact ⟨y, List.mem_cons_of_mem _ hy, hv⟩)
    have hstep : adopted scope (x :: l) = adopt scope x.2.1 x.2.2 (adopted scope l) := rfl
    have hsame : adopted scope (x :: l) = adopted scope l →
        (adopted scope (x :: l) = 0 ∨ adopted scope (x :: l) ∈ given scope (x :: l)) ∧
        (adopted scope (x :: l) = 0 ∨ ∃ e ∈ part ++ parts.flatten,
          adopted scope (x :: l) ≤ e.pre.tables.revisionOf scope) := by
      intro he
      rw [he]
      refine ⟨hgiven.imp_right hgiven', hbound.imp_right ?_⟩
      intro hex
      obtain ⟨e, hmem, hle⟩ := hex
      exact ⟨e, List.mem_append_right _ hmem, hle⟩
    rcases adopt_cases hr hx (fun e he => hparts e (List.mem_append_left _ he)) (adopted scope l)
      with h | ⟨hc, e, he, hle⟩ | ⟨known, timeout, interval, rounds, res, hop, hres, hch, hlat,
        e, he, hrev⟩
    · exact hsame (hstep.trans h)
    · rw [hstep]
      exact ⟨.inr (List.mem_flatMap.mpr ⟨x, List.mem_cons_self, hc⟩),
        .inr ⟨e, List.mem_append_left _ he, hle⟩⟩
    · refine hsame (hstep.trans (hlat.trans ?_))
      -- nothing new: the answer is at most the known revision, and never behind it
      have hknown := hl.2 known timeout interval rounds hop
      have hle : res.latestRevision ≤ known := by
        have := (hright x List.mem_cons_self known timeout interval rounds res hop hres).1
        rw [hch] at this
        simpa using this
      obtain ⟨h', hp⟩ := hr.past.of_mem (hparts e (List.mem_append_left _ he))
      have hge : adopted scope l ≤ res.latestRevision := by
        rcases hbound with h0 | ⟨e', he', hle'⟩
        · rw [h0, hrev, revisionOf_eq hp.locks, (hp.history scope).current]
          omega
        · have := hcross e he e' he'
          omega
      omega

end

/-- **Watching.**  In every reachable state: an answer of `watch` that is about to be handed back
is right exactly when nobody published a revision above the known one between the two queries of
its last round; and in a run whose steps all leave these gaps alone every answer was right, and a
client that passes the revision it has adopted has been given the release of that revision. -/
theorem config_watch (σ : ConfigSys) (hr : ConfigReach σ) :
    (∀ s store scope known timeout interval rounds res,
      σ.prog s = some (⟨store, .watch scope known timeout interval rounds⟩,
        .ret (.ok (.watched res))) →
      (WatchRight known res ↔ ¬ Overtaken s scope known σ.hist)) ∧
    (Undisturbed σ.hist →
      (∀ s store scope known timeout interval rounds res,
        (s, ⟨store, .watch scope known timeout interval rounds⟩, .ok (.watched res)) ∈ σ.done →
        WatchRight known res) ∧
      (∀ s scope, Loops scope (σ.done.filter (·.1 == s)) →
        adopted scope (σ.done.filter (·.1 == s)) = 0 ∨
        adopted scope (σ.done.filter (·.1 == s)) ∈ given scope (σ.done.filter (·.1 == s)))) := by
  refine ⟨fun s store scope known timeout interval rounds res hp => watch_right_iff hr hp,
    fun hu => ⟨?_, fun s scope hl => ?_⟩⟩
  · intro s store scope known timeout interval rounds res hd
    exact watch_right hr hu s _ _ hd scope known timeout interval rounds res rfl rfl
  · obtain ⟨run, parts, hown, hall⟩ := hr.calls CallAnswer call_answer s
    have hmem : ∀ e ∈ parts.flatten, e ∈ σ.hist := by
      intro e he
      have : e ∈ ownEvents s σ.hist := by
        rw [hown]
        exact List.mem_append_right _ he
      exact List.mem_of_mem_filter this
    have hgrow : (run ++ parts.flatten).Pairwise fun e e' =>
        e'.pre.tables.revisionOf scope ≤ e.pre.tables.revisionOf scope := by
      rw [← hown]
      exact (revisions_grow hr scope).sublist List.filter_sublist
    refine (adopted_given hr hall hmem (List.pairwise_append.mp hgrow).2.1 ?_ hl).1
    intro x hx known timeout interval rounds res hop hres
    exact watch_right hr hu x.1 x.2.1 x.2.2 (List.mem_of_mem_filter hx) scope known timeout interval
      rounds res hop hres

/-- an item written, and published while nobody watches; then a client looks twice -/
def quietWatch : List (Act ConfigCall Time) :=
  [.call 1 ⟨shopStore, .upsertItem shopScope "a" (.bool true)⟩] ++ stmts 1 0 5 ++ [.ret 1] ++
  [.call 1 ⟨shopStore, .publish shopScope "first" "ann"⟩] ++ stmts 1 10 8 ++ [.ret 1] ++
  [.call 0 ⟨shopStore, .watch shopScope 0 0 0 1⟩] ++ stmts 0 20 2 ++ [.ret 0] ++
  [.call 0 ⟨shopStore, .watch shopScope 1 0 0 1⟩] ++ stmts 0 30 4 ++ [.ret 0]

theorem config_watch_quiet :
    ∃ σ : ConfigSys, ConfigReach σ ∧ Undisturbed σ.hist ∧ WatchRight 1 ⟨false, 1, none⟩ ∧
      (adopted shopScope (σ.done.filter (·.1 == 0)) = 0 ∨ adopted shopScope
        (σ.done.filter (·.1 == 0)) ∈ given shopScope (σ.done.filter (·.1 == 0))) := by
  have hplay : ((Sys.init ConfigDb.empty : ConfigSys).play ConfigStmt.exec ConfigCall.body
      quietWatch).map (fun σ => (decide (Undisturbed σ.hist), σ.done.head?,
        σ.done.filter (·.1 == 0)))
      = some (true, some (0, ⟨shopStore, .watch shopScope 1 0 0 1⟩,
        .ok (.watched ⟨false, 1, none⟩)),
        [(0, ⟨shopStore, .watch shopScope 1 0 0 1⟩, .ok (.watched ⟨false, 1, none⟩)),
         (0, ⟨shopStore, .watch shopScope 0 0 0 1⟩,
             .ok (.watched ⟨true, 1, some firstRelease⟩))]) := by
    rfl
  obtain ⟨σ, hσ, he⟩ := Option.map_eq_some_iff.mp hplay
  obtain ⟨hu, he⟩ := Prod.mk.inj he
  obtain ⟨hdone, hlog⟩ := Prod.mk.inj he
  have hr : ConfigReach σ := Sys.play_steps hσ
  have hu : Undisturbed σ.hist := of_decide_eq_true hu
  obtain ⟨-, hrun⟩ := config_watch σ hr
  refine ⟨σ, hr, hu, ?_, (hrun hu).2 0 shopScope ?_⟩
  · exact (hrun hu).1 0 shopStore shopScope 1 0 0 1 _ (List.mem_of_head? hdone)
  · rw [hlog]
    refine ⟨⟨trivial, ?_⟩, ?_⟩
    · intro known timeout interval rounds hop
      cases hop
      rfl
    · intro known timeout interval rounds hop
      cases hop
      rfl

/-- a publish between the two queries of the one round of a watch -/
def overtakenWatch : List (Act ConfigCall Time) :=
  [.call 1 ⟨shopStore, .upsertItem shopScope "a" (.bool true)⟩] ++ stmts 1 0 5 ++ [.ret 1] ++
  [.call 0 ⟨shopStore, .watch shopScope 0 0 0 1⟩] ++ stmts 0 10 2 ++
  [.call 1 ⟨shopStore, .publish shopScope "first" "ann"⟩] ++ stmts 1 20 8 ++ [.ret 1] ++
  stmts 0 30 2 ++ [.ret 0]

theorem config_watch_overtaken :
    ∃ σ : ConfigSys, ConfigReach σ ∧
      (0, ⟨shopStore, .watch shopScope 0 0 0 1⟩, .ok (.watched ⟨false, 1, none⟩)) ∈ σ.done ∧
      ¬ WatchRight 0 ⟨false, 1, none⟩ ∧ Loops shopScope (σ.done.filter (·.1 == 0)) ∧
      ¬ (adopted shopScope (σ.done.filter (·.1 == 0)) = 0 ∨ adopted shopScope
        (σ.done.filter (·.1 == 0)) ∈ given shopScope (σ.done.filter (·.1 == 0))) := by
  have hplay : ((Sys.init ConfigDb.empty : ConfigSys).play ConfigStmt.exec ConfigCall.body
      overtakenWatch).map (fun σ => (σ.done.head?, σ.done.filter (·.1 == 0)))
      = some (some (0, ⟨shopStore, .watch shopScope 0 0 0 1⟩, .ok (.watched ⟨false, 1, none⟩)),
        [(0, ⟨shopStore, .watch shopScope 0 0 0 1⟩, .ok (.watched ⟨false, 1, none⟩))]) := by
    rfl
  obtain ⟨σ, hσ, he⟩ := Option.map_eq_some_iff.mp hplay
  obtain ⟨hdone, hlog⟩ := Prod.mk.inj he
  refine ⟨σ, Sys.play_steps hσ, List.mem_of_head? hdone, ?_, ?_, ?_⟩
  · intro h
    exact absurd (h.1.mpr Int.zero_lt_one) Bool.false_ne_true
  · rw [hlog]
    refine ⟨trivial, ?_⟩
    intro known timeout interval rounds hop
    cases hop
    rfl
  · rw [hlog]
    have h1 : adopted shopScope [(0, ⟨shopStore, .watch shopScope 0 0 0 1⟩,
        .ok (.watched ⟨false, 1, none⟩))] = 1 := by rfl
    have h2 : given shopScope [(0, ⟨shopStore, .watch shopScope 0 0 0 1⟩,
        .ok (.watched ⟨false, 1, none⟩))] = [] := by rfl
    rw [h1, h2]
    simp

end PgApp
