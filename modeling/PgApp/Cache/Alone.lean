import PgApp.Cache.Rows

/-!
# Calls that run alone

A call that meets no open transaction runs through without waiting.  `CacheProg.alone s c p db` is
its result and the tables it leaves, and there is one equation for each part of the programs:

* `alone_changeValue_found`, `…_absent`, `…_conflict`, `…_fail`   the transaction of an atomic
write;
* `alone_insertAbsent_…`                                           the transaction of `set_nx`;
* `alone_sweepExpired`                                             the sweep.
-/

namespace PgApp
open Interleave CacheProg

theorem bindKey_ok {key : String} (h : storable key = true) : bindKey key = .ok () := if_pos h

theorem bindKey_error {key : String} (h : storable key = false) :
    bindKey key = .error (PgAppError.ofSqlx .invalidText) := if_neg (by simp [h])

/-- PostgreSQL takes the key as a TEXT and has the expiry -/
structure Bindable (now : Time) (key : String) (ttlSeconds : Option Int) : Prop where
  key : storable key = true
  ttl : TtlFits now ttlSeconds

/-- a program run alone by session `s`, all at one time -/
abbrev CacheProg.alone {α : Type} (s : Nat) (c : CacheCtx) (p : CacheProg α) (db : CacheDb) :
    Option (PgAppResult α × CacheDb) := p.run (CacheStmt.exec s c) db

/-- the committed row of a key that is live -/
def CacheDb.liveRow (db : CacheDb) (ns : String) (g : Int) (keyHash key : String) (now : Time) :
    Option EntryRow := db.entries.find? fun r => r.isKey ns g keyHash key && r.live now

/-- the committed rows of all other unique keys -/
def CacheDb.others (db : CacheDb) (ns : String) (g : Int) (keyHash : String) : List EntryRow :=
  db.entries.filter fun r => !r.isAt ns g keyHash

/-- the tables with one transaction open -/
def CacheDb.opened (db : CacheDb) (s : Nat) (t : CacheTx) : CacheDb :=
  { db with txs := Slots.set [] s t }

section
variable {s : Nat} {c : CacheCtx} {α β : Type} {db db' : CacheDb}

namespace CacheProg

theorem alone_query {st : CacheStmt} {k : st.Res → CacheProg α} {r : st.Res}
    (h : CacheStmt.exec s c st db = some (r, db')) :
    (query st >>= k).alone s c db = (k r).alone s c db' :=
  Prog.run_exec_of _ h

theorem alone_bind_ok {p : CacheProg α} {k : α → CacheProg β} {a : α}
    (h : p.alone s c db = some (.ok a, db')) : (p >>= k).alone s c db = (k a).alone s c db' :=
  Prog.run_bind_ok _ h

theorem alone_bind_error {p : CacheProg α} {k : α → CacheProg β} {e : PgAppError}
    (h : p.alone s c db = some (.error e, db')) :
    (p >>= k).alone s c db = some (.error e, db') :=
  Prog.run_bind_error _ h

/-! ## transactions -/

theorem alone_inTx_ok {p : CacheProg α} {a : α} {t : CacheTx} (htx : db.txs = [])
    (h : p.alone s c (db.opened s ⟨c.now, [], [], [], []⟩) = some (.ok a, db'.opened s t)) :
    (inTx p).alone s c db
      = some (.ok a, { db' with entries := t.apply db'.entries, txs := [] }) := by
  have hb : CacheStmt.exec s c .begin db
      = some ((), db.opened s ⟨c.now, [], [], [], []⟩) := by
    simp only [CacheStmt.exec, CacheDb.begin, CacheDb.setTx, CacheDb.opened, htx]
  unfold inTx CacheProg.alone
  rw [Prog.run_exec_of _ hb, Prog.run_bracket]
  unfold CacheProg.alone at h
  rw [h]
  simp [CacheStmt.exec, CacheDb.commit, CacheDb.opened]

theorem alone_inTx_error {p : CacheProg α} {e : PgAppError} {t : CacheTx} (htx : db.txs = [])
    (h : p.alone s c (db.opened s ⟨c.now, [], [], [], []⟩) = some (.error e, db'.opened s t)) :
    (inTx p).alone s c db = some (.error e, { db' with txs := [] }) := by
  have hb : CacheStmt.exec s c .begin db
      = some ((), db.opened s ⟨c.now, [], [], [], []⟩) := by
    simp only [CacheStmt.exec, CacheDb.begin, CacheDb.setTx, CacheDb.opened, htx]
  unfold inTx CacheProg.alone
  rw [Prog.run_exec_of _ hb, Prog.run_bracket]
  unfold CacheProg.alone at h
  rw [h]
  simp [CacheStmt.exec, CacheDb.rollback, CacheDb.opened]

end CacheProg

section
variable (db : CacheDb) (t : CacheTx)

@[simp] theorem opened_entries : (db.opened s t).entries = db.entries := rfl
@[simp] theorem opened_busy (held : CacheTx → Bool) : (db.opened s t).busy s held = false := by
  simp [CacheDb.busy, CacheDb.opened]
@[simp] theorem opened_inside (f : CacheTx → Option (α × CacheDb)) :
    (db.opened s t).inside s f = f t := by
  simp [CacheDb.inside, CacheDb.opened]
@[simp] theorem opened_setTx (t' : CacheTx) : (db.opened s t).setTx s t' = db.opened s t' := by
  simp [CacheDb.setTx, CacheDb.opened]
@[simp] theorem opened_seen : (db.opened s t).seen s = t.apply db.entries := by
  simp [CacheDb.seen, CacheDb.opened]

end

/-- the ids of the rows of a key that have expired -/
def CacheDb.deadIds (db : CacheDb) (ns : String) (g : Int) (keyHash key : String) (now : Time) :
    List Int :=
  (db.entries.filter fun r => r.isKey ns g keyHash key && r.expired now).map (·.id)

section
variable {ns : String} {g : Int} {keyHash key : String} {ttl : Option Int}

theorem exec_lockKey (t : CacheTx) :
    CacheStmt.exec s c (.lockKey ns g keyHash) (db.opened s t)
      = some ((), db.opened s { t with advisory := t.advisory ++ [lockText ns g keyHash] }) := by
  simp [CacheStmt.exec]

/-- the transaction after `delete_expired_key` -/
def CacheDb.swept (db : CacheDb) (ns : String) (g : Int) (keyHash key : String) (now : Time)
    (advisory : List String) : CacheTx :=
  ⟨now, advisory, db.deadIds ns g keyHash key now, [], []⟩

theorem exec_deleteExpiredKey (advisory : List String) :
    CacheStmt.exec s c (.deleteExpiredKey ns g keyHash key)
        (db.opened s ⟨c.now, advisory, [], [], []⟩)
      = some ((), db.opened s (db.swept ns g keyHash key c.now advisory)) := by
  simp [CacheStmt.exec, CacheDb.deleteExpiredKey, CacheDb.swept, CacheDb.deadIds, CacheTx.apply]

theorem mem_deadIds (h : db.Ok) {now : Time} {r : EntryRow} (hr : r ∈ db.entries) :
    r.id ∈ db.deadIds ns g keyHash key now ↔
      (r.isKey ns g keyHash key && r.expired now) = true := by
  unfold CacheDb.deadIds
  simp only [List.mem_map, List.mem_filter]
  constructor
  · intro hex
    obtain ⟨x, ⟨hx, hp⟩, e⟩ := hex
    rw [← eq_of_id h.ids hx hr e]
    exact hp
  · exact fun hp => ⟨r, ⟨hr, hp⟩, rfl⟩

theorem apply_swept (h : db.Ok) (now : Time) (advisory : List String) :
    (db.swept ns g keyHash key now advisory).apply db.entries
      = db.entries.filter fun r => !(r.isKey ns g keyHash key && r.expired now) := by
  show db.entries.filter _ = _
  apply List.filter_congr
  intro r hr
  have h1 : r.id ∈ db.deadIds ns g keyHash key now ↔ _ := mem_deadIds h hr
  show (!(db.deadIds ns g keyHash key now).contains r.id) = _
  rw [List.contains_eq_mem, Bool.eq_iff_iff.mpr (decide_eq_true_iff.trans h1)]

theorem findLive_swept (h : db.Ok) (now : Time) (advisory : List String) :
    (db.opened s (db.swept ns g keyHash key now advisory)).findLive s ns g keyHash key now
      = db.liveRow ns g keyHash key now := by
  unfold CacheDb.findLive CacheDb.liveRow
  rw [opened_seen, apply_swept h, List.find?_filter]
  congr 1
  funext r
  cases he : r.expired now <;> simp [EntryRow.live, he]

/-! ## the row of a key -/

theorem CacheDb.liveRow_spec {now : Time} {r : EntryRow}
    (hr : db.liveRow ns g keyHash key now = some r) :
    r ∈ db.entries ∧ r.isKey ns g keyHash key = true ∧ r.expired now = false := by
  have hp := List.find?_some hr
  simp only [EntryRow.live, Bool.and_eq_true, Bool.not_eq_true'] at hp
  exact ⟨List.mem_of_find?_eq_some hr, hp⟩

theorem perm_others (h : db.Ok) {r : EntryRow} (hr : r ∈ db.entries)
    (ha : r.isAt ns g keyHash = true) : db.entries.Perm (r :: db.others ns g keyHash) := by
  have hn : db.entries.Nodup := h.ids.of_map _
  have h1 : db.entries.filter (·.isAt ns g keyHash) = [r] := by
    have hall : ∀ x ∈ db.entries.filter (·.isAt ns g keyHash), x = r := by
      intro x hx
      obtain ⟨hx, hxa⟩ := List.mem_filter.mp hx
      exact h.eq_of_uniq hx hr ((EntryRow.isAt_iff.mp hxa).trans (EntryRow.isAt_iff.mp ha).symm)
    have hmem : r ∈ db.entries.filter (·.isAt ns g keyHash) := List.mem_filter.mpr ⟨hr, ha⟩
    exact List.perm_singleton.mp ((List.perm_ext_iff_of_nodup (hn.filter _) (by simp)).mpr
      fun x => ⟨fun hx => List.mem_singleton.mpr (hall x hx), fun hx =>
        List.mem_singleton.mp hx ▸ hmem⟩)
  have h2 := List.filter_append_perm (·.isAt ns g keyHash) db.entries
  rw [h1] at h2
  exact h2.symm

theorem perm_changed (h : db.Ok) {r r' : EntryRow} (hr : r ∈ db.entries)
    (ha : r.isAt ns g keyHash = true) (f : EntryRow → EntryRow) (hf : f r = r')
    (hid : ∀ x ∈ db.others ns g keyHash, f x = x) :
    (db.entries.map f).Perm (r' :: db.others ns g keyHash) := by
  have h1 := (perm_others h hr ha).map f
  rw [List.map_cons, hf, List.map_congr_left hid, List.map_id'] at h1
  exact h1

theorem others_changed (f : EntryRow → EntryRow)
    (hat : ∀ x, (f x).isAt ns g keyHash = x.isAt ns g keyHash)
    (hid : ∀ x ∈ db.others ns g keyHash, f x = x) :
    (db.entries.map f).filter (fun r => !r.isAt ns g keyHash) = db.others ns g keyHash := by
  rw [List.filter_map]
  have hp : ((fun r : EntryRow => !r.isAt ns g keyHash) ∘ f) = fun r => !r.isAt ns g keyHash := by
    funext x
    simp only [Function.comp, hat]
  rw [hp]
  show (db.others ns g keyHash).map f = _
  rw [List.map_congr_left hid, List.map_id']

theorem others_added {r : EntryRow} (hat : r.isAt ns g keyHash = true) :
    (db.others ns g keyHash ++ [r]).filter (fun r => !r.isAt ns g keyHash)
      = db.others ns g keyHash := by
  unfold CacheDb.others
  rw [List.filter_append, List.filter_filter]
  simp [hat]

theorem ne_of_others (h : db.Ok) {r x : EntryRow} (hr : r ∈ db.entries)
    (ha : r.isAt ns g keyHash = true) (hx : x ∈ db.others ns g keyHash) : x.id ≠ r.id := by
  intro e
  obtain ⟨hx, hp⟩ := List.mem_filter.mp hx
  rw [eq_of_id h.ids hx hr e, ha] at hp
  cases hp

end

/-- a write leaves the row `r` at its unique key and the other rows as they are -/
structure CacheDb.Wrote (db db' : CacheDb) (ns : String) (g : Int) (keyHash : String)
    (r : EntryRow) : Prop where
  rows : db'.entries.Perm (r :: db.others ns g keyHash)
  others : db'.others ns g keyHash = db.others ns g keyHash
  namespaces : db'.namespaces = db.namespaces
  txs : db'.txs = []

/-! ## the transactions of the store -/

section
variable {ns : String} {g : Int} {keyHash key : String} {ttl : Option Int} {preserve : Bool}
variable {f : Option Bytes → PgAppResult (Bytes × α)}

/-- tables that a refused write leaves as they were, but for the sequence -/
def CacheDb.Spared (db d : CacheDb) : Prop := d = db ∨ d = db.skipId

theorem CacheDb.Spared.entries {d : CacheDb} (h : db.Spared d) : d.entries = db.entries := by
  rcases h with rfl | rfl <;> rfl

theorem CacheDb.Spared.namespaces {d : CacheDb} (h : db.Spared d) :
    d.namespaces = db.namespaces := by
  rcases h with rfl | rfl <;> rfl

theorem CacheDb.Spared.txs {d : CacheDb} (h : db.Spared d) : d.txs = db.txs := by
  rcases h with rfl | rfl <;> rfl

theorem CacheDb.Spared.ok {d : CacheDb} (h : db.Spared d) (hok : db.Ok) : d.Ok := by
  rcases h with rfl | rfl
  · exact hok
  · exact hok.skipId

/-- a transaction that fails, in the shape that `Spared` has -/
theorem alone_inTx_spared {p : CacheProg α} {e : PgAppError} {t : CacheTx} (htx : db.txs = [])
    {d : CacheDb} (hd : db.Spared d)
    (h : p.alone s c (db.opened s ⟨c.now, [], [], [], []⟩) = some (.error e, d.opened s t)) :
    (inTx p).alone s c db = some (.error e, d) := by
  have h1 := alone_inTx_error htx h
  have h2 : ({ d with txs := [] } : CacheDb) = d := by
    rw [← hd.txs.trans htx]
  rw [h2] at h1
  exact h1

theorem alone_changeValue_unbound (htx : db.txs = []) (hkey : storable key = false) :
    (inTx (changeValue ns g keyHash key ttl preserve f)).alone s c db
      = some (.error (PgAppError.ofSqlx .invalidText), db) := by
  refine alone_inTx_spared (t := ⟨c.now, [lockText ns g keyHash], [], [], []⟩) htx (.inl rfl) ?_
  unfold changeValue
  rw [alone_query (exec_lockKey _), bindKey_error hkey]
  rfl

/-- the transaction up to the row it finds -/
theorem alone_changeValue (h : db.Ok) (hkey : storable key = true) :
    (changeValue ns g keyHash key ttl preserve f).alone s c (db.opened s ⟨c.now, [], [], [], []⟩)
      = match db.liveRow ns g keyHash key c.now with
        | some r => (updateFound r.id ttl preserve (f (some r.valueBytes))).alone s c (db.opened s
            { db.swept ns g keyHash key c.now [lockText ns g keyHash] with locked := [r.id] })
        | none => (insertNew ns g keyHash key ttl (f none)).alone s c
            (db.opened s (db.swept ns g keyHash key c.now [lockText ns g keyHash])) := by
  unfold changeValue
  rw [alone_query (exec_lockKey _), bindKey_ok hkey]
  show (query (.deleteExpiredKey ns g keyHash key) >>= _ : CacheProg α).alone s c
    (db.opened s ⟨c.now, [lockText ns g keyHash], [], [], []⟩) = _
  rw [alone_query (exec_deleteExpiredKey _)]
  have hl : (db.opened s (db.swept ns g keyHash key c.now [lockText ns g keyHash])).findLive s ns g
      keyHash key (db.swept ns g keyHash key c.now [lockText ns g keyHash]).startedAt
      = db.liveRow ns g keyHash key c.now := findLive_swept h c.now _
  have hs : CacheStmt.exec s c (.selectKeyForUpdate ns g keyHash key)
      (db.opened s (db.swept ns g keyHash key c.now [lockText ns g keyHash]))
      = some ((db.liveRow ns g keyHash key c.now).map fun r => (r.id, r.valueBytes),
        match db.liveRow ns g keyHash key c.now with
        | some r => db.opened s
            { db.swept ns g keyHash key c.now [lockText ns g keyHash] with locked := [r.id] }
        | none => db.opened s (db.swept ns g keyHash key c.now [lockText ns g keyHash])) := by
    simp only [CacheStmt.exec, opened_busy, opened_inside, CacheDb.selectKeyForUpdate, hl]
    cases db.liveRow ns g keyHash key c.now <;> simp [CacheDb.swept]
  rw [alone_query hs]
  cases db.liveRow ns g keyHash key c.now <;> rfl

theorem find_id {rows : List EntryRow} (h : (rows.map (·.id)).Nodup) {r : EntryRow}
    (hr : r ∈ rows) : rows.find? (·.id == r.id) = some r := by
  cases hf : rows.find? (·.id == r.id) with
  | none => exact absurd (by simp) (List.find?_eq_none.mp hf r hr)
  | some x =>
    have hid : x.id = r.id := by simpa using List.find?_some hf
    rw [eq_of_id h (List.mem_of_find?_eq_some hf) hr hid]

theorem filter_of_live (h : db.Ok) {now : Time} {r : EntryRow}
    (hr : db.liveRow ns g keyHash key now = some r) :
    (db.entries.filter fun x => !(x.isKey ns g keyHash key && x.expired now)) = db.entries := by
  obtain ⟨hmem, hkey, hlive⟩ := db.liveRow_spec hr
  rw [List.filter_eq_self]
  intro x hx
  cases hxk : x.isKey ns g keyHash key with
  | false => rfl
  | true =>
    have e : x.uniq = r.uniq := (EntryRow.isAt_iff.mp (EntryRow.isKey_iff.mp hxk).1).trans
      (EntryRow.isAt_iff.mp (EntryRow.isKey_iff.mp hkey).1).symm
    rw [h.eq_of_uniq hx hmem e, hlive]
    rfl

/-- an atomic write that finds a row updates it -/
theorem alone_changeValue_found (h : db.Ok) (htx : db.txs = []) (hbind : storable key = true)
    {r : EntryRow} (hr : db.liveRow ns g keyHash key c.now = some r) {v : Bytes} {out : α}
    (hv : f (some r.valueBytes) = .ok (v, out)) {ttl : Option Int} (hfits : TtlFits c.now ttl)
    (preserve : Bool) :
    ∃ db', (inTx (changeValue ns g keyHash key ttl preserve f)).alone s c db = some (.ok out, db') ∧
      db.Wrote db' ns g keyHash (r.withValue v ttl preserve c.now) := by
  obtain ⟨hmem, hkey, -⟩ := db.liveRow_spec hr
  have hat := (EntryRow.isKey_iff.mp hkey).1
  have hrun : (changeValue ns g keyHash key ttl preserve f).alone s c
    (db.opened s ⟨c.now, [], [], [], []⟩) = _ := alone_changeValue h hbind
  rw [hr] at hrun
  simp only [hv] at hrun
  have hx : CacheStmt.exec s c (.updateValue r.id v ttl preserve) (db.opened s
      { db.swept ns g keyHash key c.now [lockText ns g keyHash] with locked := [r.id] })
      = some (.ok (), db.opened s { db.swept ns g keyHash key c.now [lockText ns g keyHash] with
          locked := [r.id], rows := [r.withValue v ttl preserve c.now] }) := by
    have hf : ((db.opened s { db.swept ns g keyHash key c.now [lockText ns g keyHash] with
        locked := [r.id] }).seen s).find? (·.id == r.id) = some r := by
      rw [opened_seen]
      show ((db.swept ns g keyHash key c.now [lockText ns g keyHash]).apply db.entries).find? _ = _
      rw [apply_swept h, filter_of_live h hr]
      exact find_id h.ids hmem
    simp only [CacheStmt.exec, opened_busy, opened_inside, CacheDb.updateValue, hf]
    refine (withExpiry_fits hfits _ _).trans ?_
    simp [CacheDb.swept, putEntry]
  have hany : db.entries.any (·.id == (r.withValue v ttl preserve c.now).id) = true :=
    List.any_eq_true.mpr ⟨r, hmem, by simp [EntryRow.withValue]⟩
  have hput : putEntry ((db.swept ns g keyHash key c.now [lockText ns g keyHash]).apply db.entries)
      (r.withValue v ttl preserve c.now) = db.entries.map fun x =>
        if x.id == r.id then r.withValue v ttl preserve c.now else x := by
    rw [apply_swept h, filter_of_live h hr]
    unfold putEntry
    rw [if_pos hany]
    rfl
  have hid : ∀ x ∈ db.others ns g keyHash,
      (if x.id == r.id then r.withValue v ttl preserve c.now else x) = x := fun x hx =>
    if_neg (by simpa using ne_of_others h hmem hat hx)
  refine ⟨_, alone_inTx_ok htx (hrun.trans (alone_query hx)), ?_, ?_, rfl, rfl⟩
  · show (putEntry ((db.swept ns g keyHash key c.now [lockText ns g keyHash]).apply
      db.entries) _).Perm _
    rw [hput]
    exact perm_changed h hmem hat _ (if_pos (by simp)) hid
  · show (putEntry ((db.swept ns g keyHash key c.now [lockText ns g keyHash]).apply db.entries)
      _).filter _ = _
    rw [hput]
    -- a row that is not this one is at its own key, and this one stays at its key
    have h1 : (db.entries.map fun x => if x.id == r.id then r.withValue v ttl preserve c.now else x)
        = db.entries.map fun x =>
          if x.isAt ns g keyHash then r.withValue v ttl preserve c.now else x := by
      apply List.map_congr_left
      intro x hx
      cases hxa : x.isAt ns g keyHash with
      | true =>
        have e := h.eq_of_uniq hx hmem ((EntryRow.isAt_iff.mp hxa).trans
          (EntryRow.isAt_iff.mp hat).symm)
        rw [e, if_pos (by simp), if_pos rfl]
      | false =>
        rw [hid x (List.mem_filter.mpr ⟨hx, by rw [hxa]; rfl⟩)]
        rfl
    rw [h1]
    refine others_changed _ (fun x => ?_) fun x hx => ?_
    · by_cases hxa : x.isAt ns g keyHash = true
      · rw [if_pos hxa, hxa]
        exact hat
      · rw [if_neg hxa]
    · have hxa := (List.mem_filter.mp hx).2
      exact if_neg (by simpa using hxa)

/-- an atomic write whose expiry PostgreSQL cannot compute is rolled back -/
theorem alone_changeValue_unfit (h : db.Ok) (htx : db.txs = []) (hbind : storable key = true)
    {v : Bytes} {out : α}
    (hv : f ((db.liveRow ns g keyHash key c.now).map (·.valueBytes)) = .ok (v, out))
    {ttl : Option Int} (hfits : ¬ TtlFits c.now ttl) (preserve : Bool) :
    ∃ d, (inTx (changeValue ns g keyHash key ttl preserve f)).alone s c db
      = some (.error (PgAppError.ofSqlx (.outOfRange "timestamp")), d) ∧ db.Spared d := by
  have hrun : (changeValue ns g keyHash key ttl preserve f).alone s c
    (db.opened s ⟨c.now, [], [], [], []⟩) = _ := alone_changeValue h hbind
  cases hr : db.liveRow ns g keyHash key c.now with
  | some r =>
    rw [hr] at hrun hv
    have hv' : f (some r.valueBytes) = .ok (v, out) := hv
    simp only [hv'] at hrun
    have hx : CacheStmt.exec s c (.updateValue r.id v ttl preserve) (db.opened s
        { db.swept ns g keyHash key c.now [lockText ns g keyHash] with locked := [r.id] })
        = some (.error (.outOfRange "timestamp"), db.opened s
          { db.swept ns g keyHash key c.now [lockText ns g keyHash] with locked := [r.id] }) := by
      simp only [CacheStmt.exec, opened_inside]
      exact withExpiry_not hfits _ _
    exact ⟨db, alone_inTx_spared htx (.inl rfl) (hrun.trans (alone_query hx)), .inl rfl⟩
  | none =>
    rw [hr] at hrun hv
    have hv' : f none = .ok (v, out) := hv
    simp only [hv'] at hrun
    have hx : CacheStmt.exec s c (.insertValue ns g keyHash key v ttl)
        (db.opened s (db.swept ns g keyHash key c.now [lockText ns g keyHash]))
        = some (.error (.outOfRange "timestamp"), db.skipId.opened s
          (db.swept ns g keyHash key c.now [lockText ns g keyHash])) := by
      simp only [CacheStmt.exec, opened_inside]
      exact withExpiry_not hfits _ _
    exact ⟨db.skipId, alone_inTx_spared htx (.inr rfl) (hrun.trans (alone_query hx)), .inr rfl⟩

/-- an atomic write whose change fails is rolled back -/
theorem alone_changeValue_fail (h : db.Ok) (htx : db.txs = []) (hbind : storable key = true)
    {e : PgAppError}
    (hv : f ((db.liveRow ns g keyHash key c.now).map (·.valueBytes)) = .error e)
    (ttl : Option Int) (preserve : Bool) :
    (inTx (changeValue ns g keyHash key ttl preserve f)).alone s c db = some (.error e, db) := by
  have hrun : (changeValue ns g keyHash key ttl preserve f).alone s c
    (db.opened s ⟨c.now, [], [], [], []⟩) = _ := alone_changeValue h hbind
  have hdb : ({ db with txs := [] } : CacheDb) = db := by
    rw [← htx]
  cases hr : db.liveRow ns g keyHash key c.now with
  | some r =>
    rw [hr] at hrun hv
    have hv' : f (some r.valueBytes) = .error e := hv
    simp only [hv'] at hrun
    have h1 := alone_inTx_error htx hrun
    rw [hdb] at h1
    exact h1
  | none =>
    rw [hr] at hrun hv
    have hv' : f none = .error e := hv
    simp only [hv'] at hrun
    have h1 := alone_inTx_error htx hrun
    rw [hdb] at h1
    exact h1

/-- the conflict of an INSERT after `delete_expired_key` -/
theorem conflict_swept (h : db.Ok) (now : Time) (advisory : List String) :
    (db.opened s (db.swept ns g keyHash key now advisory)).conflict s ns g keyHash = true ↔
      ∃ x ∈ db.entries, x.isAt ns g keyHash = true ∧
        (x.isKey ns g keyHash key && x.expired now) = false := by
  unfold CacheDb.conflict
  rw [opened_seen, apply_swept h, List.any_eq_true]
  constructor
  · intro hex
    obtain ⟨x, hx, ha⟩ := hex
    obtain ⟨hx, hp⟩ := List.mem_filter.mp hx
    exact ⟨x, hx, ha, (Bool.not_eq_true' _).mp hp⟩
  · intro hex
    obtain ⟨x, hx, ha, hp⟩ := hex
    exact ⟨x, List.mem_filter.mpr ⟨hx, (Bool.not_eq_true' _).mpr hp⟩, ha⟩

/-- what an INSERT after `delete_expired_key` leaves once committed -/
theorem wrote_newEntry (h : db.Ok) {now : Time} {advisory : List String}
    (hc : ¬ ∃ x ∈ db.entries, x.isAt ns g keyHash = true ∧
      (x.isKey ns g keyHash key && x.expired now) = false) (r : EntryRow)
    (hid : r.id = db.nextEntryId) (hat : r.isAt ns g keyHash = true) :
    db.Wrote { db with
      entries := CacheTx.apply
        { db.swept ns g keyHash key now advisory with rows := [r] } db.entries
      nextEntryId := db.nextEntryId + 1
      txs := [] } ns g keyHash r := by
  have hothers : (db.entries.filter fun x => !(x.isKey ns g keyHash key && x.expired now))
      = db.others ns g keyHash := by
    apply List.filter_congr
    intro x hx
    cases ha : x.isAt ns g keyHash with
    | false => simp [EntryRow.isKey, ha]
    | true =>
      cases hp : x.isKey ns g keyHash key && x.expired now with
      | true => rfl
      | false => exact absurd ⟨x, hx, ha, hp⟩ hc
  have hany : ¬ (db.others ns g keyHash).any (·.id == r.id) = true := by
    intro ha
    obtain ⟨x, hx, e⟩ := List.any_eq_true.mp ha
    have h1 := h.below x (List.mem_of_mem_filter hx)
    have h2 : x.id = r.id := by simpa using e
    omega
  have hput : putEntry ((db.swept ns g keyHash key now advisory).apply db.entries) r
      = db.others ns g keyHash ++ [r] := by
    rw [apply_swept h, hothers]
    unfold putEntry
    rw [if_neg hany]
  refine ⟨?_, ?_, rfl, rfl⟩
  · show (putEntry ((db.swept ns g keyHash key now advisory).apply db.entries) r).Perm _
    rw [hput]
    exact List.perm_append_comm
  · show (putEntry ((db.swept ns g keyHash key now advisory).apply db.entries) r).filter _ = _
    rw [hput]
    exact others_added hat

theorem newEntry_isAt (id : Int) (v : Bytes) (now : Time) :
    (newEntry id ns g keyHash key v ttl now).isAt ns g keyHash = true := by
  simp [EntryRow.isAt, EntryRow.isIn, newEntry]

/-- an atomic write that finds no row inserts one -/
theorem alone_changeValue_absent (h : db.Ok) (htx : db.txs = []) (hbind : storable key = true)
    (hr : db.liveRow ns g keyHash key c.now = none)
    (hc : ¬ ∃ x ∈ db.entries, x.isAt ns g keyHash = true ∧
      (x.isKey ns g keyHash key && x.expired c.now) = false) {v : Bytes} {out : α}
    (hv : f none = .ok (v, out)) {ttl : Option Int} (hfits : TtlFits c.now ttl) (preserve : Bool) :
    ∃ db', (inTx (changeValue ns g keyHash key ttl preserve f)).alone s c db = some (.ok out, db') ∧
      db.Wrote db' ns g keyHash (newEntry db.nextEntryId ns g keyHash key v ttl c.now) := by
  have hrun : (changeValue ns g keyHash key ttl preserve f).alone s c
    (db.opened s ⟨c.now, [], [], [], []⟩) = _ := alone_changeValue h hbind
  rw [hr] at hrun
  simp only [hv] at hrun
  have hx : CacheStmt.exec s c (.insertValue ns g keyHash key v ttl)
      (db.opened s (db.swept ns g keyHash key c.now [lockText ns g keyHash]))
      = some (.ok (), { db with nextEntryId := db.nextEntryId + 1 : CacheDb }.opened s
          { db.swept ns g keyHash key c.now [lockText ns g keyHash] with
            rows := [newEntry db.nextEntryId ns g keyHash key v ttl c.now] }) := by
    have hc' : ¬ (db.opened s (db.swept ns g keyHash key c.now [lockText ns g keyHash])).conflict s
        ns g keyHash = true := fun hcf => hc ((conflict_swept h _ _).mp hcf)
    simp only [CacheStmt.exec, opened_busy, opened_inside, CacheDb.insertValue, if_neg hc']
    refine (withExpiry_fits hfits _ _).trans ?_
    simp [CacheDb.insertRow, CacheDb.opened, CacheDb.swept]
  exact ⟨_, alone_inTx_ok htx (hrun.trans (alone_query hx)),
    wrote_newEntry h hc _ rfl (newEntry_isAt _ v c.now)⟩

/-- an atomic write that finds no row but meets one at its INSERT -/
theorem alone_changeValue_conflict (h : db.Ok) (htx : db.txs = []) (hbind : storable key = true)
    (hr : db.liveRow ns g keyHash key c.now = none)
    (hc : ∃ x ∈ db.entries, x.isAt ns g keyHash = true ∧
      (x.isKey ns g keyHash key && x.expired c.now) = false) {v : Bytes} {out : α}
    (hv : f none = .ok (v, out)) {ttl : Option Int} (hfits : TtlFits c.now ttl) (preserve : Bool) :
    ∃ e, (inTx (changeValue ns g keyHash key ttl preserve f)).alone s c db
      = some (.error e, db.skipId) := by
  have hrun : (changeValue ns g keyHash key ttl preserve f).alone s c
    (db.opened s ⟨c.now, [], [], [], []⟩) = _ := alone_changeValue h hbind
  rw [hr] at hrun
  simp only [hv] at hrun
  have hx : CacheStmt.exec s c (.insertValue ns g keyHash key v ttl)
      (db.opened s (db.swept ns g keyHash key c.now [lockText ns g keyHash]))
      = some (.error (.uniqueViolation "cache_entries_namespace_generation_key_hash_key"),
          db.skipId.opened s (db.swept ns g keyHash key c.now [lockText ns g keyHash])) := by
    have hc' : (db.opened s (db.swept ns g keyHash key c.now [lockText ns g keyHash])).conflict s
        ns g keyHash = true := (conflict_swept h _ _).mpr hc
    simp only [CacheStmt.exec, opened_busy, opened_inside, CacheDb.insertValue, if_pos hc']
    exact withExpiry_fits hfits _ _
  exact ⟨_, alone_inTx_spared htx (.inr rfl) (hrun.trans (alone_query hx))⟩

/-! ## the transaction of `set_nx` -/

theorem alone_insertAbsent_unbound (htx : db.txs = []) (hkey : storable key = false) (v : Bytes)
    (ttl : Option Int) : (inTx (insertAbsent ns g keyHash key v ttl)).alone s c db
      = some (.error (PgAppError.ofSqlx .invalidText), db) := by
  refine alone_inTx_spared (t := ⟨c.now, [], [], [], []⟩) htx (.inl rfl) ?_
  unfold insertAbsent
  rw [bindKey_error hkey]
  rfl

/-- the transaction up to its INSERT -/
theorem alone_insertAbsent (hkey : storable key = true) (v : Bytes) (ttl : Option Int) :
    (insertAbsent ns g keyHash key v ttl).alone s c (db.opened s ⟨c.now, [], [], [], []⟩)
      = (do let affected ← orFail (← query (.insertIfAbsent ns g keyHash key v ttl))
            pure (decide (affected > 0)) : CacheProg Bool).alone s c
          (db.opened s (db.swept ns g keyHash key c.now [])) := by
  unfold insertAbsent
  rw [bindKey_ok hkey]
  exact alone_query (exec_deleteExpiredKey _)

theorem alone_insertAbsent_unfit (htx : db.txs = []) (hbind : storable key = true) (v : Bytes)
    {ttl : Option Int} (hfits : ¬ TtlFits c.now ttl) :
    (inTx (insertAbsent ns g keyHash key v ttl)).alone s c db
      = some (.error (PgAppError.ofSqlx (.outOfRange "timestamp")), db.skipId) := by
  have hx : CacheStmt.exec s c (.insertIfAbsent ns g keyHash key v ttl)
      (db.opened s (db.swept ns g keyHash key c.now []))
      = some (.error (.outOfRange "timestamp"), db.skipId.opened s
        (db.swept ns g keyHash key c.now [])) := by
    simp only [CacheStmt.exec, opened_inside]
    exact withExpiry_not hfits _ _
  exact alone_inTx_spared htx (.inr rfl) ((alone_insertAbsent hbind v ttl).trans (alone_query hx))

theorem alone_insertAbsent_new (h : db.Ok) (htx : db.txs = []) (hbind : storable key = true)
    (hc : ¬ ∃ x ∈ db.entries, x.isAt ns g keyHash = true ∧
      (x.isKey ns g keyHash key && x.expired c.now) = false) (v : Bytes) {ttl : Option Int}
    (hfits : TtlFits c.now ttl) :
    ∃ db', (inTx (insertAbsent ns g keyHash key v ttl)).alone s c db = some (.ok true, db') ∧
      db.Wrote db' ns g keyHash (newEntry db.nextEntryId ns g keyHash key v ttl c.now) := by
  have hx : CacheStmt.exec s c (.insertIfAbsent ns g keyHash key v ttl)
      (db.opened s (db.swept ns g keyHash key c.now []))
      = some (.ok 1, { db with nextEntryId := db.nextEntryId + 1 : CacheDb }.opened s
          { db.swept ns g keyHash key c.now [] with
            rows := [newEntry db.nextEntryId ns g keyHash key v ttl c.now] }) := by
    have hc' : ¬ (db.opened s (db.swept ns g keyHash key c.now [])).conflict s ns g
        keyHash = true :=
      fun hcf => hc ((conflict_swept h _ _).mp hcf)
    simp only [CacheStmt.exec, opened_busy, opened_inside, CacheDb.insertIfAbsent, if_neg hc']
    refine (withExpiry_fits hfits _ _).trans ?_
    simp [CacheDb.insertRow, CacheDb.opened, CacheDb.swept]
  exact ⟨_, alone_inTx_ok htx ((alone_insertAbsent hbind v ttl).trans (alone_query hx)),
    wrote_newEntry h hc _ rfl (newEntry_isAt _ v c.now)⟩

/-- a key that is taken stays as it is -/
theorem alone_insertAbsent_taken (h : db.Ok) (htx : db.txs = []) (hbind : storable key = true)
    (hc : ∃ x ∈ db.entries, x.isAt ns g keyHash = true ∧
      (x.isKey ns g keyHash key && x.expired c.now) = false) (v : Bytes) {ttl : Option Int}
    (hfits : TtlFits c.now ttl) :
    (inTx (insertAbsent ns g keyHash key v ttl)).alone s c db = some (.ok false, db.skipId) := by
  have hx : CacheStmt.exec s c (.insertIfAbsent ns g keyHash key v ttl)
      (db.opened s (db.swept ns g keyHash key c.now []))
      = some (.ok 0, db.skipId.opened s (db.swept ns g keyHash key c.now [])) := by
    have hc' : (db.opened s (db.swept ns g keyHash key c.now [])).conflict s ns g keyHash = true :=
      (conflict_swept h _ _).mpr hc
    simp only [CacheStmt.exec, opened_busy, opened_inside, CacheDb.insertIfAbsent, if_pos hc']
    exact withExpiry_fits hfits _ _
  have hrun : (insertAbsent ns g keyHash key v ttl).alone s c (db.opened s ⟨c.now, [], [], [], []⟩)
      = some (.ok false, db.skipId.opened s (db.swept ns g keyHash key c.now [])) :=
    (alone_insertAbsent hbind v ttl).trans (alone_query hx)
  refine (alone_inTx_ok htx hrun).trans ?_
  have hdead : (db.swept ns g keyHash key c.now []).apply db.entries = db.entries := by
    rw [apply_swept h, List.filter_eq_self]
    obtain ⟨x, hx, ha, hp⟩ := hc
    intro y hy
    cases hyp : y.isKey ns g keyHash key && y.expired c.now with
    | false => rfl
    | true =>
      have hk := (EntryRow.isKey_iff.mp (Bool.and_eq_true_iff.mp hyp).1).1
      have e := h.eq_of_uniq hy hx ((EntryRow.isAt_iff.mp hk).trans (EntryRow.isAt_iff.mp ha).symm)
      rw [e, hp] at hyp
      cases hyp
  show some (Except.ok false, ({ db.skipId with
    entries := (db.swept ns g keyHash key c.now []).apply db.entries, txs := [] } : CacheDb)) = _
  rw [hdead, ← htx]
  rfl

/-! ## the statement of `set` -/

/-- the row holds this value of the key -/
structure EntryRow.Holds (r : EntryRow) (ns : String) (g : Int) (keyHash key : String) (v : Bytes)
    (expiresAt : Option Time) : Prop where
  key : r.isKey ns g keyHash key = true
  value : r.valueBytes = v
  size : r.sizeBytes = v.length
  expiry : r.expiresAt = expiresAt

theorem newEntry_holds (id : Int) (v : Bytes) (now : Time) :
    (newEntry id ns g keyHash key v ttl now).Holds ns g keyHash key v (expiryOf now ttl) :=
  ⟨by simp [EntryRow.isKey, EntryRow.isAt, EntryRow.isIn, newEntry], rfl, rfl, rfl⟩

theorem withValue_holds {r : EntryRow} (hr : r.isKey ns g keyHash key = true) (v : Bytes)
    (now : Time) : (r.withValue v ttl preserve now).Holds ns g keyHash key v
      (if ttl.isNone && preserve then r.expiresAt else expiryOf now ttl) :=
  ⟨hr, rfl, rfl, rfl⟩

/-- the row an upsert leaves -/
def CacheDb.upserted (db : CacheDb) (ns : String) (g : Int) (keyHash key : String) (v : Bytes)
    (ttl : Option Int) (now : Time) : EntryRow :=
  match db.entries.find? (·.isAt ns g keyHash) with
  | some r => r.overwrite key v ttl now
  | none => newEntry db.nextEntryId ns g keyHash key v ttl now

theorem upserted_holds (db : CacheDb) (ns : String) (g : Int) (keyHash key : String) (v : Bytes)
    (ttl : Option Int) (now : Time) :
    (db.upserted ns g keyHash key v ttl now).Holds ns g keyHash key v (expiryOf now ttl) := by
  unfold CacheDb.upserted
  cases hf : db.entries.find? (·.isAt ns g keyHash) with
  | some r =>
    have ha : r.isAt ns g keyHash = true := by simpa using List.find?_some hf
    exact ⟨EntryRow.isKey_iff.mpr ⟨ha, rfl⟩, rfl, rfl, rfl⟩
  | none => exact newEntry_holds db.nextEntryId v now

theorem exec_upsertEntry_unfit {v : Bytes} (hfits : ¬ TtlFits c.now ttl) :
    CacheStmt.exec s c (.upsertEntry ns g keyHash key v ttl) db
      = some (.error (.outOfRange "timestamp"), db.skipId) := withExpiry_not hfits _ _

theorem alone_upsertEntry (h : db.Ok) (htx : db.txs = []) (ns : String) (g : Int)
    (keyHash key : String) (v : Bytes) {ttl : Option Int} (hfits : TtlFits c.now ttl) :
    ∃ db', CacheStmt.exec s c (.upsertEntry ns g keyHash key v ttl) db = some (.ok (), db') ∧
      db.Wrote db' ns g keyHash (db.upserted ns g keyHash key v ttl c.now) := by
  have hx : CacheStmt.exec s c (.upsertEntry ns g keyHash key v ttl) db
      = some (.ok (), db.upsertEntry ns g keyHash key v ttl c.now) := by
    refine (withExpiry_fits hfits _ _).trans ?_
    simp [CacheDb.blocked, htx]
  unfold CacheDb.upserted
  cases hf : db.entries.find? (·.isAt ns g keyHash) with
  | some r =>
    have hr : r ∈ db.entries := List.mem_of_find?_eq_some hf
    have ha : r.isAt ns g keyHash = true := by simpa using List.find?_some hf
    have hc : db.entries.any (·.isAt ns g keyHash) = true := List.any_eq_true.mpr ⟨r, hr, ha⟩
    have hid : ∀ x ∈ db.others ns g keyHash,
        (if x.isAt ns g keyHash then x.overwrite key v ttl c.now else x) = x := fun x hx =>
      if_neg (by simpa using (List.mem_filter.mp hx).2)
    have he : (db.upsertEntry ns g keyHash key v ttl c.now).entries = db.entries.map fun x =>
        if x.isAt ns g keyHash then x.overwrite key v ttl c.now else x := by
      rw [CacheDb.upsertEntry, if_pos hc]
    refine ⟨_, hx, ?_, ?_, rfl, htx⟩
    · rw [he]
      exact perm_changed h hr ha _ (if_pos ha) hid
    · unfold CacheDb.others
      rw [he]
      refine others_changed _ (fun x => ?_) hid
      by_cases hxa : x.isAt ns g keyHash = true
      · rw [if_pos hxa, hxa]
        exact hxa
      · rw [if_neg hxa]
  | none =>
    have hnone : ∀ x ∈ db.entries, ¬ x.isAt ns g keyHash = true := List.find?_eq_none.mp hf
    have hc : ¬ db.entries.any (·.isAt ns g keyHash) = true := by
      rw [List.any_eq_true]
      intro h
      obtain ⟨x, hx, ha⟩ := h
      exact hnone x hx ha
    have hothers : db.others ns g keyHash = db.entries := by
      unfold CacheDb.others
      rw [List.filter_eq_self]
      intro x hx
      simpa using hnone x hx
    have he : (db.upsertEntry ns g keyHash key v ttl c.now).entries = db.others ns g keyHash ++
        [newEntry db.nextEntryId ns g keyHash key v ttl c.now] := by
      rw [CacheDb.upsertEntry, if_neg hc, hothers]
    refine ⟨_, hx, ?_, ?_, rfl, htx⟩
    · rw [he]
      exact List.perm_append_comm
    · show (db.upsertEntry ns g keyHash key v ttl c.now).entries.filter _ = _
      rw [he]
      exact others_added (newEntry_isAt _ v c.now)

/-- another key has this unique key -/
def CacheDb.Collides (db : CacheDb) (ns : String) (g : Int) (keyHash key : String) : Prop :=
  ∃ x ∈ db.entries, x.isAt ns g keyHash = true ∧ x.cacheKey ≠ key

theorem conflict_iff_collides (h : db.Ok) (now : Time) :
    (db.liveRow ns g keyHash key now = none ∧ ∃ x ∈ db.entries, x.isAt ns g keyHash = true ∧
      (x.isKey ns g keyHash key && x.expired now) = false) ↔ db.Collides ns g keyHash key := by
  constructor
  · intro hex
    obtain ⟨hnone, x, hx, ha, hp⟩ := hex
    refine ⟨x, hx, ha, fun hk => ?_⟩
    have hkey : x.isKey ns g keyHash key = true := EntryRow.isKey_iff.mpr ⟨ha, hk⟩
    rw [hkey, Bool.true_and] at hp
    have h1 := List.find?_eq_none.mp hnone x hx
    simp [hkey, EntryRow.live, hp] at h1
  · intro hex
    obtain ⟨x, hx, ha, hk⟩ := hex
    have hkey : x.isKey ns g keyHash key = false := by
      rw [Bool.eq_false_iff]
      exact fun hkey => hk (EntryRow.isKey_iff.mp hkey).2
    refine ⟨?_, x, hx, ha, by rw [hkey]; rfl⟩
    cases hl : db.liveRow ns g keyHash key now with
    | none => rfl
    | some y =>
      obtain ⟨hy, hyk, -⟩ := db.liveRow_spec hl
      have e : x = y := h.eq_of_uniq hx hy ((EntryRow.isAt_iff.mp ha).trans
        (EntryRow.isAt_iff.mp (EntryRow.isKey_iff.mp hyk).1).symm)
      rw [e, hyk] at hkey
      cases hkey

end

/-! ## the sweep -/

/-- the ids the sweep picks -/
def doomedIds (rows : List EntryRow) (limit : Nat) (c : CacheCtx) : List Int :=
  (((rows.filter (·.expired c.now)).insertionSort (expiresBefore c.rank)).take limit).map (·.id)

/-- the rows the sweep leaves -/
def unswept (rows : List EntryRow) (limit : Nat) (c : CacheCtx) : List EntryRow :=
  rows.filter fun r => !(doomedIds rows limit c).contains r.id

theorem expired_of_doomed (h : db.Ok) {limit : Nat} {r : EntryRow} (hr : r ∈ db.entries)
    (hd : r.id ∈ doomedIds db.entries limit c) : r.expired c.now = true := by
  obtain ⟨x, hx, e⟩ := List.mem_map.mp hd
  have h1 := List.mem_of_mem_take hx
  rw [List.mem_insertionSort] at h1
  obtain ⟨h2, h3⟩ := List.mem_filter.mp h1
  rw [← eq_of_id h.ids h2 hr e]
  exact h3

theorem sweeps_iff (limit : Nat) (hl : 0 < limit) :
    (0 < db.entries.countP fun r => (doomedIds db.entries limit c).contains r.id) ↔
      ∃ r ∈ db.entries, r.expired c.now = true := by
  rw [List.countP_pos_iff]
  constructor
  · intro h
    obtain ⟨r, hr, hd⟩ := h
    have hd' : r.id ∈ doomedIds db.entries limit c := by simpa using hd
    obtain ⟨x, hx, -⟩ := List.mem_map.mp hd'
    have h1 := List.mem_of_mem_take hx
    rw [List.mem_insertionSort] at h1
    exact ⟨x, List.mem_filter.mp h1⟩
  · intro h
    obtain ⟨r, hr, he⟩ := h
    have hm : r ∈ (db.entries.filter (·.expired c.now)).insertionSort (expiresBefore c.rank) :=
      (List.mem_insertionSort _).mpr (List.mem_filter.mpr ⟨hr, he⟩)
    cases hs : (db.entries.filter (·.expired c.now)).insertionSort (expiresBefore c.rank) with
    | nil =>
      rw [hs] at hm
      cases hm
    | cons x xs =>
      have hx : x ∈ (db.entries.filter (·.expired c.now)).insertionSort (expiresBefore c.rank) := by
        rw [hs]
        exact List.mem_cons_self
      rw [List.mem_insertionSort] at hx
      refine ⟨x, List.mem_of_mem_filter hx, ?_⟩
      unfold doomedIds
      rw [hs]
      obtain ⟨n, rfl⟩ : ∃ n, limit = n + 1 := ⟨limit - 1, by omega⟩
      simp

/-- the sweep alone -/
theorem alone_sweepExpired (htx : db.txs = []) (limit : Nat) :
    ∃ db', (sweepExpired limit).alone s c db
        = some (.ok ((db.entries.countP fun r => (doomedIds db.entries limit c).contains r.id :
          Nat) : Int),
            db') ∧
      db'.entries = unswept db.entries limit c ∧ db'.namespaces = db.namespaces ∧ db'.txs = [] ∧
      db'.nextEntryId = db.nextEntryId := by
  have hd : CacheStmt.exec s c (.doomed limit) db
      = some (.ok (doomedIds db.entries limit c), db) := by
    have hl : ¬ ((limit : Int) < 0) := by omega
    simp [CacheStmt.exec, CacheDb.doomed, doomedIds, hl]
  have hx : CacheStmt.exec s c (.deleteIds (doomedIds db.entries limit c)) db
      = some (db.deleteWhere fun r => (doomedIds db.entries limit c).contains r.id) := by
    simp only [CacheStmt.exec, CacheDb.blocked, htx]
    rfl
  unfold sweepExpired
  rw [alone_query hd, orFail_ok, Prog.bind_ok, alone_query hx]
  by_cases hp : 0 < db.entries.countP fun r => (doomedIds db.entries limit c).contains r.id
  · refine ⟨{ (db.deleteWhere fun r => (doomedIds db.entries limit c).contains r.id).2 with
      counters := db.counters.add .expiredRemovals
        (db.entries.countP fun r => (doomedIds db.entries limit c).contains r.id) }, ?_, rfl,
          rfl, htx, rfl⟩
    rw [if_pos hp]
    rfl
  · refine ⟨(db.deleteWhere fun r => (doomedIds db.entries limit c).contains r.id).2, ?_, rfl,
      rfl, htx, rfl⟩
    rw [if_neg hp]
    rfl

/-! ## the parts every write has -/

theorem generationOf_ensure (db : CacheDb) (ns ns' : String) (now : Time) :
    (db.ensureNamespace ns now).generationOf ns'
      = if ns' = ns then some ((db.generationOf ns).getD 0) else db.generationOf ns' := by
  unfold CacheDb.ensureNamespace
  by_cases ha : db.namespaces.any (·.name == ns) = true
  · rw [if_pos ha]
    by_cases e : ns' = ns
    · subst e
      rw [if_pos rfl]
      unfold CacheDb.generationOf
      obtain ⟨n, hn, hp⟩ := List.any_eq_true.mp ha
      cases hf : db.namespaces.find? (·.name == ns') with
      | none => exact absurd hp (List.find?_eq_none.mp hf n hn)
      | some x => rfl
    · rw [if_neg e]
  · rw [if_neg ha]
    have hnone : db.namespaces.find? (·.name == ns) = none := by
      rw [List.find?_eq_none]
      exact fun n hn hp => ha (List.any_eq_true.mpr ⟨n, hn, hp⟩)
    unfold CacheDb.generationOf
    simp only [List.find?_append]
    by_cases e : ns' = ns
    · subst e
      rw [if_pos rfl, hnone]
      simp
    · have e' : (ns == ns') = false := by simpa using Ne.symm e
      rw [if_neg e]
      simp [e']

/-- the checks, the namespace and its generation -/
theorem alone_start {ns key : String} {ttl : Option Int} (hv : validateWrite ns key ttl = .ok ())
    (k : Int → CacheProg α) :
    (do Prog.check (validateWrite ns key ttl)
        query (.ensureNamespace ns)
        let g ← namespaceGeneration ns
        k g : CacheProg α).alone s c db
      = (k ((db.generationOf ns).getD 0)).alone s c (db.ensureNamespace ns c.now) := by
  have hg : (namespaceGeneration ns).alone s c (db.ensureNamespace ns c.now)
      = some (.ok ((db.generationOf ns).getD 0), db.ensureNamespace ns c.now) := by
    have h1 : CacheStmt.exec s c (.selectGeneration ns) (db.ensureNamespace ns c.now)
        = some (some ((db.generationOf ns).getD 0), db.ensureNamespace ns c.now) := by
      show some ((db.ensureNamespace ns c.now).generationOf ns, _) = _
      rw [generationOf_ensure, if_pos rfl]
    unfold namespaceGeneration
    rw [alone_query h1]
    rfl
  rw [hv]
  show (query (.ensureNamespace ns) >>= fun _ => namespaceGeneration ns >>= k).alone s c db = _
  have he : CacheStmt.exec s c (.ensureNamespace ns) db
      = some ((), db.ensureNamespace ns c.now) := rfl
  rw [alone_query he, alone_bind_ok hg]

/-- tables from which rows that have expired may be gone -/
structure CacheDb.Tidied (db db' : CacheDb) (now : Time) : Prop where
  sub : ∀ r ∈ db'.entries, r ∈ db.entries
  live : ∀ r ∈ db.entries, r.expired now = false → r ∈ db'.entries
  namespaces : db'.namespaces = db.namespaces
  txs : db'.txs = []

theorem CacheDb.Tidied.refl {now : Time} (htx : db.txs = []) : db.Tidied db now :=
  ⟨fun _ h => h, fun _ h _ => h, rfl, htx⟩

theorem unswept_tidied (h : db.Ok) (limit : Nat) (he : db'.entries = unswept db.entries limit c)
    (hn : db'.namespaces = db.namespaces) (ht : db'.txs = []) : db.Tidied db' c.now := by
  refine ⟨fun r hr => ?_, fun r hr hx => ?_, hn, ht⟩
  · rw [he] at hr
    exact List.mem_of_mem_filter hr
  · rw [he]
    refine List.mem_filter.mpr ⟨hr, ?_⟩
    rw [List.contains_eq_mem, Bool.not_eq_true', decide_eq_false_iff_not]
    intro hd
    rw [expired_of_doomed h hr hd] at hx
    cases hx

/-- without limits `enforce_capacity` is the sweep -/
theorem alone_enforce_unbounded (store : CacheStore) (h : db.Ok) (htx : db.txs = [])
    (hk : store.limits.maxKeys = none) (hb : store.limits.maxBytes = none) (rounds : Nat)
    (ns : String) :
    ∃ db', (store.enforceCapacity rounds ns).alone s c db = some (.ok (), db') ∧
      db.Tidied db' c.now := by
  obtain ⟨db', hrun, he, hn, ht, -⟩ := alone_sweepExpired (s := s) (c := c) htx 1000
  refine ⟨db', ?_, unswept_tidied h 1000 he hn ht⟩
  unfold CacheStore.enforceCapacity
  show (sweepExpired (1000 : Nat) >>= _ : CacheProg Unit).alone s c db = _
  rw [alone_bind_ok hrun]
  split
  · rfl
  · have hs : CacheStmt.exec s c (.selectGeneration ns) db' = some (db'.generationOf ns, db') := rfl
    rw [alone_query hs]
    cases db'.generationOf ns with
    | none => rfl
    | some g =>
      have hu : CacheStmt.exec s c (.usage ns g) db'
          = some ((((db'.rowsOf ns g).length : Int), sumSizes (db'.rowsOf ns g)), db') := rfl
      show (query (.usage ns g) >>= _ : CacheProg Unit).alone s c db' = _
      rw [alone_query hu]
      have h1 : store.excessKeys ((db'.rowsOf ns g).length : Int) = 0 := by
        simp [CacheStore.excessKeys, hk]
      have h2 : store.overBytes (sumSizes (db'.rowsOf ns g)) = false := by
        simp [CacheStore.overBytes, hb]
      simp only [h1, h2]
      cases rounds with
      | zero => rfl
      | succ n => rfl

end

end PgApp
