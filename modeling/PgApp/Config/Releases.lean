import PgApp.Config.Snapshot

/-!
# The release history of a scope

The history of a run says what was committed: `lastEdit h scope key` is the last committed upsert
(its value) or delete of a key.  `ScopeHistory h scope p` says that the committed rows `p` of the
scope agree with it: the draft is what was edited last, the releases are numbered 1, 2, … up to
`current_revision`, and each has the snapshot of the draft when it was published.  Every commit
keeps it (`ScopeHistory.commit`), so it holds in every reachable state.
-/

namespace PgApp
open Interleave

/-! ## what was committed -/

/-- the edit of a key that the event commits: `some (some v)` an upsert, `some none` a delete -/
def ConfigEv.edit (scope : ConfigScope) (key : String) (e : ConfigEv) : Option (Option Json) :=
  match e.stmt, e.op.op with
  | .commit, .upsertItem sc k v => if sc = scope ∧ k = key then some (some v) else none
  | .commit, .deleteItem sc k => if sc = scope ∧ k = key then some none else none
  | _, _ => none

/-- the last committed edit of a key -/
def lastEdit : List ConfigEv → ConfigScope → String → Option (Option Json)
  | [], _, _ => none
  | e :: h, scope, key => (ConfigEv.edit scope key e).or (lastEdit h scope key)

/-- the event publishes this release of the scope, out of what was committed in `h` -/
structure PublishedBy (h : List ConfigEv) (scope : ConfigScope) (x : ReleaseRow)
    (e : ConfigEv) : Prop where
  commit : e.stmt = .commit
  call : e.op.op = .publish scope x.message x.publishedBy
  revision : ConfigEv.publishes scope x.revision e = true
  snapshot : ∃ fields, x.snapshot = .obj fields ∧ keysSorted fields ∧
    ∀ key v, (key, v) ∈ fields ↔ lastEdit h scope key = some (some v)
  checksum : e.op.store.checksumJson x.snapshot = .ok x.checksum

/-! ## the committed rows of a scope -/

/-- 1, 2, …, n -/
def revisionsTo (n : Nat) : List Int := (List.range n).map fun i : Nat => (i : Int) + 1

theorem revisionsTo_succ (n : Nat) : revisionsTo (n + 1) = revisionsTo n ++ [(n : Int) + 1] := by
  unfold revisionsTo
  rw [List.range_succ, List.map_append, List.map_singleton]

theorem nodup_revisionsTo (n : Nat) : (revisionsTo n).Nodup := by
  refine (List.nodup_range (n := n)).map fun a b hab => ?_
  have h : (a : Int) + 1 = (b : Int) + 1 := hab
  omega

theorem mem_revisionsTo {n : Nat} {r : Int} : r ∈ revisionsTo n ↔ 1 ≤ r ∧ r ≤ n := by
  unfold revisionsTo
  rw [List.mem_map]
  constructor
  · intro h
    obtain ⟨i, hi, rfl⟩ := h
    rw [List.mem_range] at hi
    omega
  · intro h
    obtain ⟨h1, h2⟩ := h
    exact ⟨(r - 1).toNat, List.mem_range.mpr (by omega), by omega⟩

def ConfigTables.state (tb : ConfigTables) (scope : ConfigScope) : ScopePart :=
  match tb.scopeOf scope with
  | none => ⟨none, [], []⟩
  | some x => tb.part x

def ScopePart.revision (p : ScopePart) : Int := (p.row.map (·.currentRevision)).getD 0

structure ScopeHistory (h : List ConfigEv) (scope : ConfigScope) (p : ScopePart) : Prop where
  keys : (p.items.map (·.key)).Nodup
  draft : ∀ key, draftOf p.items key = lastEdit h scope key
  current : p.revision = p.releases.length
  revisions : p.releases.map (·.revision) = revisionsTo p.releases.length
  published : ∀ x ∈ p.releases, ∃ h₁ e h₂, h = h₁ ++ e :: h₂ ∧ PublishedBy h₂ scope x e
  counted : ∀ n, h.countP (ConfigEv.publishes scope n) = (p.releases.map (·.revision)).count n

namespace ScopeHistory
variable {h : List ConfigEv} {scope : ConfigScope} {p : ScopePart}

theorem empty (scope : ConfigScope) : ScopeHistory [] scope ⟨none, [], []⟩ :=
  ⟨List.nodup_nil, fun _ => rfl, rfl, rfl, fun _ hx => absurd hx List.not_mem_nil, fun _ => rfl⟩

/-- an event that neither edits nor publishes the scope -/
theorem pass (H : ScopeHistory h scope p) {e : ConfigEv} {p' : ScopePart}
    (hitems : p'.items = p.items) (hreleases : p'.releases = p.releases)
    (hrev : p'.revision = p.revision) (hedit : ∀ key, ConfigEv.edit scope key e = none)
    (hpub : ∀ n, ConfigEv.publishes scope n e = false) : ScopeHistory (e :: h) scope p' := by
  refine ⟨hitems ▸ H.keys, fun key => ?_, ?_, hreleases ▸ H.revisions, fun x hx => ?_, fun n => ?_⟩
  · rw [hitems, H.draft, lastEdit, hedit, Option.none_or]
  · rw [hrev, hreleases, H.current]
  · rw [hreleases] at hx
    obtain ⟨h₁, e', h₂, hh, hp⟩ := H.published x hx
    exact ⟨e :: h₁, e', h₂, by rw [hh]; rfl, hp⟩
  · rw [List.countP_cons_of_neg (by rw [hpub]; exact Bool.false_ne_true), H.counted, hreleases]

/-- an item written -/
theorem edited (H : ScopeHistory h scope p) {e : ConfigEv} {p' : ScopePart} {i : ItemRow}
    (hid : ∀ x ∈ p.items, x.scopeId = i.scopeId) (hitems : p'.items = putItem p.items i)
    (hreleases : p'.releases = p.releases) (hrev : p'.revision = p.revision)
    (hedit : ∀ key, ConfigEv.edit scope key e
      = if key = i.key then some (if i.deleted then none else some i.value) else none)
    (hpub : ∀ n, ConfigEv.publishes scope n e = false) : ScopeHistory (e :: h) scope p' := by
  refine ⟨?_, fun key => ?_, ?_, hreleases ▸ H.revisions, fun x hx => ?_, fun n => ?_⟩
  · rw [hitems]
    exact nodup_putItem hid H.keys
  · rw [hitems, draftOf_putItem hid, H.draft, lastEdit, hedit]
    split
    · rfl
    · rfl
  · rw [hrev, hreleases, H.current]
  · rw [hreleases] at hx
    obtain ⟨h₁, e', h₂, hh, hp⟩ := H.published x hx
    exact ⟨e :: h₁, e', h₂, by rw [hh]; rfl, hp⟩
  · rw [List.countP_cons_of_neg (by rw [hpub]; exact Bool.false_ne_true), H.counted, hreleases]

/-- a release published -/
theorem released (H : ScopeHistory h scope p) {e : ConfigEv} {p' : ScopePart} {x : ReleaseRow}
    (hitems : p'.items = p.items) (hreleases : p'.releases = p.releases ++ [x])
    (hx : x.revision = p.revision + 1) (hrev : p'.revision = p.revision + 1)
    (hedit : ∀ key, ConfigEv.edit scope key e = none)
    (hpub : ∀ n, ConfigEv.publishes scope n e = (x.revision == n)) (hby : PublishedBy h scope x e) :
    ScopeHistory (e :: h) scope p' := by
  refine ⟨hitems ▸ H.keys, fun key => ?_, ?_, ?_, fun y hy => ?_, fun n => ?_⟩
  · rw [hitems, H.draft, lastEdit, hedit, Option.none_or]
  · rw [hrev, hreleases, H.current, List.length_append]
    rfl
  · rw [hreleases, List.map_append, H.revisions, List.length_append, List.length_singleton,
      revisionsTo_succ, List.map_singleton, hx, H.current]
  · rw [hreleases] at hy
    rcases List.mem_append.mp hy with hy | hy
    · obtain ⟨h₁, e', h₂, hh, hp⟩ := H.published y hy
      exact ⟨e :: h₁, e', h₂, by rw [hh]; rfl, hp⟩
    · obtain rfl := List.mem_singleton.mp hy
      exact ⟨[], e, h, rfl, hby⟩
  · rw [List.countP_cons, hpub, hreleases, List.map_append, List.count_append, H.counted,
      List.map_singleton, List.count_singleton]

end ScopeHistory

/-! ## every commit -/

section
variable {db : ConfigDb} {s : Nat} {t : ConfigTx} {row : ScopeRow}

theorem anchored_state {tb : ConfigTables} (ha : Anchored row (tb.part row)) :
    tb.part row = tb.state row.scope ∧ (tb.part row).revision = row.currentRevision := by
  unfold ConfigTables.state ScopePart.revision
  rcases ha with hr | ⟨hr, hrev, -, hi, hx⟩
  · have hsc : tb.scopeOf row.scope = some row := hr
    rw [hsc, hr]
    exact ⟨rfl, rfl⟩
  · have hsc : tb.scopeOf row.scope = none := hr
    rw [hsc, hr, hrev]
    refine ⟨?_, rfl⟩
    show tb.part row = ⟨none, [], []⟩
    rw [← hr, ← hi, ← hx]

theorem filter_putItem_eq {rows : List ItemRow} {i : ItemRow} :
    (putItem rows i).filter (·.scopeId == i.scopeId)
      = putItem (rows.filter (·.scopeId == i.scopeId)) i := by
  have hany : (rows.filter (·.scopeId == i.scopeId)).any (·.isAt i.scopeId i.key)
      = rows.any (·.isAt i.scopeId i.key) := by
    rw [List.any_filter]
    congr 1
    funext x
    unfold ItemRow.isAt
    cases x.scopeId == i.scopeId <;> rfl
  unfold putItem
  rw [hany]
  split
  · rw [List.filter_map]
    congr 1
    refine List.filter_congr fun x _ => ?_
    show ((if x.isAt i.scopeId i.key then i else x).scopeId == i.scopeId) = _
    split
    · rename_i he
      unfold ItemRow.isAt at he
      rw [Bool.and_eq_true] at he
      rw [he.1, beq_self_eq_true]
    · rfl
  · rw [List.filter_append]
    congr 1
    rw [List.filter_cons_of_pos (by simp)]
    rfl

theorem filter_foldl_putItem_eq {l rows : List ItemRow} {id : Int} (h : ∀ i ∈ l, i.scopeId = id) :
    (l.foldl putItem rows).filter (·.scopeId == id)
      = l.foldl putItem (rows.filter (·.scopeId == id)) := by
  induction l generalizing rows with
  | nil => rfl
  | cons i l ih =>
    rw [List.foldl_cons, List.foldl_cons, ih fun j hj => h j (List.mem_cons_of_mem _ hj)]
    obtain rfl := h i List.mem_cons_self
    rw [filter_putItem_eq]

theorem state_commit_self (L : ConfigLocks db) (hg : db.txs.get s = some t)
    (hr : t.scope = some row) :
    (db.commit s).tables.state row.scope = ⟨some row,
      t.items.foldl putItem (db.tables.part row).items,
      (db.tables.part row).releases ++ t.releases⟩ := by
  obtain ⟨hitems, hreleases⟩ := L.written hg hr
  have htb : (db.commit s).tables = t.apply db.tables := by
    unfold ConfigDb.commit
    rw [hg]
  have hmem : row ∈ (db.commit s).tables.scopes := by
    rw [htb]
    unfold ConfigTx.apply
    rw [hr]
    exact mem_putScope.mpr (.inl rfl)
  have hsc := (L.commit s).scopeOf_eq hmem
  unfold ConfigTables.state
  rw [hsc]
  show ScopePart.mk _ _ _ = _
  rw [hsc, htb]
  congr 1
  · exact filter_foldl_putItem_eq hitems
  · show (db.tables.releases ++ t.releases).filter _ = _
    rw [List.filter_append]
    congr 1
    exact List.filter_eq_self.mpr fun x hx => by simpa using hreleases x hx

theorem state_commit_ne (L : ConfigLocks db) (hg : db.txs.get s = some t)
    (hr : t.scope = some row) {scope : ConfigScope} (hne : row.scope ≠ scope) :
    (db.commit s).tables.state scope = db.tables.state scope := by
  obtain ⟨hitems, hreleases⟩ := L.written hg hr
  have htb : (db.commit s).tables = t.apply db.tables := by
    unfold ConfigDb.commit
    rw [hg]
  have hrow : (db.commit s).tables.scopeOf scope = db.tables.scopeOf scope := by
    rw [htb]
    unfold ConfigTables.scopeOf ConfigTx.apply
    rw [hr]
    exact scopeOf_putScope_ne hne
  unfold ConfigTables.state
  rw [hrow]
  cases hx : db.tables.scopeOf scope with
  | none => rfl
  | some x =>
    obtain ⟨hmem, rfl⟩ := ConfigLocks.scopeOf_mem hx
    show (db.commit s).tables.part x = db.tables.part x
    rw [htb]
    refine part_apply_ne hr hitems hreleases hne fun he => hne ?_
    exact (((L.tied s t row hg hr).2 x hmem).mpr he.symm).symm

theorem publishes_commit (hg : db.txs.get s = some t) (call : ConfigCall) (c : Time)
    (scope : ConfigScope) (n : Int) :
    ConfigEv.publishes scope n ⟨s, call, c, .commit, (), db⟩ = t.publishes scope n := by
  show (db.txs.get s).any _ = _
  rw [hg]
  rfl

theorem publishes_nil (hx : t.releases = []) (scope : ConfigScope) (n : Int) :
    t.publishes scope n = false := by
  unfold ConfigTx.publishes
  rw [hx, List.any_nil, Bool.and_false]

/-- a commit that writes one item -/
theorem commit_edited (L : ConfigLocks db) {h : List ConfigEv} {call : ConfigCall} {c : Time}
    {key : String} {value : Json} {deleted : Bool}
    (H : ScopeHistory h row.scope (db.tables.state row.scope)) (hg : db.txs.get s = some t)
    (ha : Anchored row (db.tables.part row)) (hw : WritesItem t row key value deleted)
    (hedit : ∀ k, ConfigEv.edit row.scope k ⟨s, call, c, .commit, (), db⟩
      = if k = key then some (if deleted then none else some value) else none) :
    ScopeHistory (⟨s, call, c, .commit, (), db⟩ :: h) row.scope
      ((db.commit s).tables.state row.scope) := by
  obtain ⟨hsc, ⟨i, time, hi⟩, hx⟩ := hw
  obtain ⟨hst, hrev⟩ := anchored_state ha
  rw [← hst] at H
  rw [state_commit_self L hg hsc, hi, hx]
  refine H.edited (i := ⟨i, row.id, key, value, deleted, time⟩) (fun x hx => ?_) rfl ?_ ?_ hedit ?_
  · simpa using (List.mem_filter.mp hx).2
  · exact List.append_nil _
  · exact hrev.symm
  · intro n
    rw [publishes_commit hg, publishes_nil hx]

/-- a commit that publishes -/
theorem commit_released (L : ConfigLocks db) {h : List ConfigEv} {call : ConfigCall} {c : Time}
    {message publishedBy : String} {x : ReleaseRow}
    (H : ScopeHistory h row.scope (db.tables.state row.scope)) (hg : db.txs.get s = some t)
    (ha : Anchored row (db.tables.part row))
      (hcall : call.op = .publish row.scope message publishedBy)
    (hp : Publishes call.store t row (db.tables.part row).items message publishedBy x) :
    ScopeHistory (⟨s, call, c, .commit, (), db⟩ :: h) row.scope
      ((db.commit s).tables.state row.scope) := by
  obtain ⟨⟨time, hsc⟩, hi, hx, hid, hr, ⟨fields, hf, hs, hcs⟩, rfl, rfl⟩ := hp
  obtain ⟨hst, hrev⟩ := anchored_state ha
  rw [← hst] at H
  have hpub : ∀ n, t.publishes row.scope n = (x.revision == n) := by
    intro n
    unfold ConfigTx.publishes ConfigTx.holdsScope
    rw [hsc, hx]
    simp
  have hsnap := mem_buildSnapshot_iff (nodup_activeRows H.keys) hf
  have hself := state_commit_self L hg hsc
  rw [hi, hx] at hself
  show ScopeHistory _ row.scope ((db.commit s).tables.state
    ({ row with currentRevision := row.currentRevision + 1, updatedAt := time } : ScopeRow).scope)
  rw [hself]
  refine H.released (x := x) rfl rfl ?_ ?_ (fun key => ?_) (fun n => ?_) ?_
  · rw [hr, hrev]
  · rw [hrev]
    rfl
  · unfold ConfigEv.edit
    rw [hcall]
  · rw [publishes_commit hg, hpub]
  · refine ⟨rfl, hcall, ?_, ⟨fields, hs, hsnap.1, fun key v => ?_⟩, by rw [hs]; exact hcs⟩
    · rw [publishes_commit hg, hpub, beq_self_eq_true]
    · rw [hsnap.2, mem_activeRows H.keys, H.draft]

/-- **A commit keeps the history of every scope.** -/
theorem ScopeHistory.commit (L : ConfigLocks db) {h : List ConfigEv} {call : ConfigCall} {c : Time}
    (H : ∀ scope, ScopeHistory h scope (db.tables.state scope))
    (hp : configPre call .commit (configView s db h)) (scope : ConfigScope) :
    ScopeHistory (⟨s, call, c, .commit, (), db⟩ :: h) scope
      ((db.commit s).tables.state scope) := by
  obtain ⟨t, p, hv, he⟩ := hp
  obtain ⟨hg, hpart⟩ := get_of_configView hv
  obtain ⟨store, op⟩ := call
  have hother : ∀ (row : ScopeRow) op, t.scope = some row → row.scope ≠ scope →
      (∀ key, ConfigEv.edit scope key ⟨s, ⟨store, op⟩, c, .commit, (), db⟩ = none) →
      ScopeHistory (⟨s, ⟨store, op⟩, c, .commit, (), db⟩ :: h) scope
        ((db.commit s).tables.state scope) := by
    intro row op hr hne hedit
    rw [state_commit_ne L hg hr hne]
    refine (H scope).pass rfl rfl rfl hedit fun n => ?_
    rw [publishes_commit hg]
    unfold ConfigTx.publishes ConfigTx.holdsScope
    rw [hr, Option.any_some, (by simpa using hne : (row.scope == scope) = false), Bool.false_and]
  cases op with
  | upsertItem sc key value =>
    obtain ⟨row, rfl, ha, hw, -⟩ := he
    have hpr : db.tables.part row = p := by
      rw [hw.scope] at hpart
      exact Option.some.inj hpart
    subst hpr
    by_cases hsc : row.scope = scope
    · subst hsc
      refine commit_edited L (H _) hg ha hw fun k => ?_
      show (if row.scope = row.scope ∧ key = k then _ else _) = _
      simp only [true_and, eq_comm]
      rfl
    · exact hother row _ hw.scope hsc fun k => if_neg fun h => hsc h.1
  | deleteItem sc key =>
    obtain ⟨row, rfl, ha, hw⟩ := he
    have hpr : db.tables.part row = p := by
      rw [hw.scope] at hpart
      exact Option.some.inj hpart
    subst hpr
    by_cases hsc : row.scope = scope
    · subst hsc
      refine commit_edited L (H _) hg ha hw fun k => ?_
      show (if row.scope = row.scope ∧ key = k then _ else _) = _
      simp only [true_and, eq_comm]
      rfl
    · exact hother row _ hw.scope hsc fun k => if_neg fun h => hsc h.1
  | setSchema sc schema =>
    obtain ⟨row, time, rfl, ha, ht⟩ := he
    have hr : t.scope = some { row with jsonSchema := schema, updatedAt := time } := by rw [ht]
    have hpr : db.tables.part row = p := by
      rw [hr] at hpart
      exact Option.some.inj hpart
    subst hpr
    obtain ⟨hst, hrev⟩ := anchored_state ha
    by_cases hsc : row.scope = scope
    · subst hsc
      have hself := state_commit_self L hg hr
      rw [ht] at hself
      have H' := H row.scope
      rw [← hst] at H'
      show ScopeHistory _ row.scope ((db.commit s).tables.state
        ({ row with jsonSchema := schema, updatedAt := time } : ScopeRow).scope)
      rw [hself]
      refine H'.pass rfl (List.append_nil _) ?_ (fun _ => rfl) fun n => ?_
      · exact hrev.symm
      · rw [publishes_commit hg, publishes_nil (by rw [ht])]
    · exact hother _ _ hr hsc fun _ => rfl
  | publish sc message publishedBy =>
    obtain ⟨row, x, rfl, ha, hpub⟩ := he
    obtain ⟨time, hr⟩ := hpub.scope
    have hpr : db.tables.part row = p := by
      rw [hr] at hpart
      exact Option.some.inj hpart
    subst hpr
    by_cases hsc : row.scope = scope
    · subst hsc
      exact commit_released L (H _) hg ha rfl hpub
    · exact hother _ _ hr hsc fun _ => rfl
  | _ => exact absurd he id

end

/-- **In every reachable state the committed rows of every scope agree with its history.** -/
theorem ConfigReach.history {σ : ConfigSys} (hr : ConfigReach σ) (scope : ConfigScope) :
    ScopeHistory σ.hist scope (σ.db.tables.state scope) := by
  refine Reach.invariant_of
    (fun e h => ConfigLocks e.pre ∧ configPre e.op e.stmt (configView e.sess e.pre h) ∧
      ∃ d, ConfigStmt.exec e.sess e.ctx e.stmt e.pre = some (e.res, d))
    (fun db h => ∀ scope, ScopeHistory h scope (db.tables.state scope)) (d := ConfigDb.empty)
    (fun scope => ScopeHistory.empty scope) ?_ hr hr.relies.past scope
  rintro db h s call c st r db' H ⟨L, hp, -⟩ hx scope
  by_cases hst : st = .commit
  · subst hst
    obtain rfl := congrArg Prod.snd (Option.some.inj hx)
    exact ScopeHistory.commit L H hp scope
  · rw [(exec_txOnly hst hx).1]
    refine (H scope).pass rfl rfl rfl (fun key => ?_) fun n => ?_
    · cases st <;> first | rfl | exact absurd rfl hst
    · cases st <;> first | rfl | exact absurd rfl hst

end PgApp
