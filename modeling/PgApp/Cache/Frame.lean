import PgApp.Cache.Refine

/-!
# What the statements of the cache leave alone

* `exec_txs_ne`       a statement opens, changes and closes only its own session's transaction;
* `exec_namespaces`   namespaces are added and their generations raised, nothing else;
* `exec_rows`         where the rows of the table come from: they were there, or the statement
                      publishes them (`CacheStmt.written`): the row of an upsert, the rows of a commit;
* `exec_kept`         which rows go (`CacheStmt.removes`);
* `exec_held`         rows that a transaction holds wait for it (`CacheDb.Exclusive`: no row is held
                      by two).
-/

namespace PgApp
open Interleave

/-! ## transactions -/

section
variable {s : Nat} {c : CacheCtx} {st : CacheStmt} {db db' : CacheDb} {r : st.Res}

/-- the statement belongs to a transaction -/
def CacheStmt.inTx : CacheStmt → Bool
  | .begin | .commit | .rollback | .lockKey _ _ _ | .deleteExpiredKey _ _ _ _
  | .selectKeyForUpdate _ _ _ _ | .insertValue _ _ _ _ _ _ | .insertIfAbsent _ _ _ _ _ _
  | .updateValue _ _ _ _ => true
  | _ => false

/-- the transaction after a statement inside it -/
def CacheStmt.txAfter (s : Nat) (db : CacheDb) (t : CacheTx) : CacheStmt → CacheTx
  | .lockKey ns g h => { t with advisory := t.advisory ++ [lockText ns g h] }
  | .deleteExpiredKey ns g h key =>
      let dead := ((db.seen s).filter fun r =>
        r.isKey ns g h key && r.expired t.startedAt).map (·.id)
      { t with gone := t.gone ++ dead, rows := t.rows.filter fun r => !dead.contains r.id }
  | .selectKeyForUpdate ns g h key =>
      match db.findLive s ns g h key t.startedAt with
      | none => t
      | some r => { t with locked := t.locked ++ [r.id] }
  | .insertValue ns g h key v ttl | .insertIfAbsent ns g h key v ttl =>
      if TtlFits t.startedAt ttl ∧ db.conflict s ns g h = false then
        { t with rows := t.rows ++ [newEntry db.nextEntryId ns g h key v ttl t.startedAt] }
      else t
  | .updateValue id v ttl preserve =>
      match (db.seen s).find? (·.id == id) with
      | none => t
      | some r =>
        if TtlFits t.startedAt ttl then
          { t with rows := putEntry t.rows (r.withValue v ttl preserve t.startedAt) }
        else t
  | _ => t

theorem exec_txs_same (hx : CacheStmt.exec s c st db = some (r, db')) (ht : st.inTx = false) :
    db'.txs = db.txs := by
  cases st with
  | ensureNamespace ns =>
    cases hx
    unfold CacheDb.ensureNamespace
    split <;> rfl
  | bumpGeneration ns ids =>
    obtain ⟨-, hx⟩ := of_guard hx
    cases hx
    unfold CacheDb.bumpGeneration
    split <;> rfl
  | upsertEntry ns g h key v ttl =>
    rcases exec_upsertEntry hx with ⟨-, -, rfl⟩ | ⟨-, -, -, rfl⟩ <;> rfl
  | touch _ | deleteKey _ _ _ _ | deleteIds _ =>
    obtain ⟨-, hx⟩ := of_guard hx
    cases hx
    rfl
  | selectGeneration _ | selectLive _ _ _ _ | doomed _ | victim _ _ | incrementCounter _ _
  | usage _ _ | byteSize _ _ | selectCounters | viewRows _ | usageRows =>
    cases hx
    rfl
  | idle => cases hx
  | begin | commit | rollback | lockKey _ _ _ | deleteExpiredKey _ _ _ _
  | selectKeyForUpdate _ _ _ _ | insertValue _ _ _ _ _ _ | insertIfAbsent _ _ _ _ _ _
  | updateValue _ _ _ _ => cases ht

/-- the statement runs inside an open transaction -/
def CacheStmt.inside : CacheStmt → Bool
  | .lockKey _ _ _ | .deleteExpiredKey _ _ _ _ | .selectKeyForUpdate _ _ _ _
  | .insertValue _ _ _ _ _ _ | .insertIfAbsent _ _ _ _ _ _ | .updateValue _ _ _ _ => true
  | _ => false

/-- a statement inside a transaction changes that transaction only -/
structure InsideOnly (s : Nat) (db db' : CacheDb) (t t' : CacheTx) : Prop where
  open_ : db.txs.get s = some t
  own : db'.txs.get s = some t'
  other : ∀ u, u ≠ s → db'.txs.get u = db.txs.get u
  entries : db'.entries = db.entries
  namespaces : db'.namespaces = db.namespaces
  next : db.nextEntryId ≤ db'.nextEntryId

theorem insideOnly_set {t t' : CacheTx} (ht : db.txs.get s = some t) {n : Int}
    (hn : db.nextEntryId ≤ n) :
    InsideOnly s db { db with txs := db.txs.set s t', nextEntryId := n } t t' :=
  ⟨ht, Slots.get_set_self _ _ _, fun _ hu => Slots.get_set_ne _ _ hu, rfl, rfl, hn⟩

theorem insideOnly_same {t : CacheTx} (ht : db.txs.get s = some t) {n : Int}
    (hn : db.nextEntryId ≤ n) : InsideOnly s db { db with nextEntryId := n } t t :=
  ⟨ht, ht, fun _ _ => rfl, rfl, rfl, hn⟩

theorem exec_inside (hx : CacheStmt.exec s c st db = some (r, db')) (hi : st.inside = true) :
    ∃ t, InsideOnly s db db' t (st.txAfter s db t) := by
  cases st with
  | lockKey ns g h =>
    obtain ⟨-, hx⟩ := of_guard hx
    obtain ⟨t, ht, hx⟩ := CacheDb.inside_some hx
    cases hx
    exact ⟨t, insideOnly_set ht (Int.le_refl _)⟩
  | deleteExpiredKey ns g h key =>
    obtain ⟨-, hx⟩ := of_guard hx
    obtain ⟨t, ht, hx⟩ := CacheDb.inside_some hx
    cases hx
    exact ⟨t, insideOnly_set ht (Int.le_refl _)⟩
  | selectKeyForUpdate ns g h key =>
    obtain ⟨-, hx⟩ := of_guard hx
    obtain ⟨t, ht, hx⟩ := CacheDb.inside_some hx
    refine ⟨t, ?_⟩
    unfold CacheDb.selectKeyForUpdate at hx
    unfold CacheStmt.txAfter
    split at hx
    · rename_i hf
      cases hx
      simp only [hf]
      exact insideOnly_same ht (Int.le_refl _)
    · rename_i x hf
      cases hx
      simp only [hf]
      exact insideOnly_set ht (Int.le_refl _)
  | insertValue ns g h key v ttl =>
    obtain ⟨t, ht, ⟨hf, -, rfl⟩ | ⟨hf, -, ⟨hc, rfl, -⟩ | ⟨hc, -, rfl⟩⟩⟩ := exec_insertValue hx
    · refine ⟨t, ?_⟩
      simp only [CacheStmt.txAfter, hf, false_and, if_false]
      exact insideOnly_same ht (Int.le_of_lt (Int.lt_succ _))
    · refine ⟨t, ?_⟩
      simp only [CacheStmt.txAfter, hc, reduceCtorEq, and_false, if_false]
      exact insideOnly_same ht (Int.le_of_lt (Int.lt_succ _))
    · refine ⟨t, ?_⟩
      simp only [CacheStmt.txAfter, hc, hf, and_self, if_true]
      exact insideOnly_set ht (Int.le_of_lt (Int.lt_succ _))
  | insertIfAbsent ns g h key v ttl =>
    obtain ⟨t, ht, ⟨hf, -, rfl⟩ | ⟨hf, -, ⟨hc, -, rfl⟩ | ⟨hc, -, rfl⟩⟩⟩ := exec_insertIfAbsent hx
    · refine ⟨t, ?_⟩
      simp only [CacheStmt.txAfter, hf, false_and, if_false]
      exact insideOnly_same ht (Int.le_of_lt (Int.lt_succ _))
    · refine ⟨t, ?_⟩
      simp only [CacheStmt.txAfter, hc, reduceCtorEq, and_false, if_false]
      exact insideOnly_same ht (Int.le_of_lt (Int.lt_succ _))
    · refine ⟨t, ?_⟩
      simp only [CacheStmt.txAfter, hc, hf, and_self, if_true]
      exact insideOnly_set ht (Int.le_of_lt (Int.lt_succ _))
  | updateValue id v ttl preserve =>
    obtain ⟨t, ht, ⟨hf, -, rfl⟩ | ⟨hf, -, -, rfl⟩⟩ := exec_updateValue hx
    · refine ⟨t, ?_⟩
      have hsame : (CacheStmt.updateValue id v ttl preserve).txAfter s db' t = t := by
        simp only [CacheStmt.txAfter, hf, if_false]
        split <;> rfl
      rw [hsame]
      exact insideOnly_same ht (Int.le_refl _)
    · refine ⟨t, ?_⟩
      cases hr : (db.seen s).find? (·.id == id) with
      | none =>
        simp only [CacheDb.updateValue, CacheStmt.txAfter, hr]
        exact insideOnly_same ht (Int.le_refl _)
      | some x =>
        simp only [CacheDb.updateValue, CacheStmt.txAfter, hr, hf, if_true]
        exact insideOnly_set ht (Int.le_refl _)
  | _ => cases hi

theorem exec_txs_ne (hx : CacheStmt.exec s c st db = some (r, db')) {u : Nat} (hu : u ≠ s) :
    db'.txs.get u = db.txs.get u := by
  cases ht : st.inTx with
  | false => rw [exec_txs_same hx ht]
  | true =>
    cases hi : st.inside with
    | true =>
      obtain ⟨t, h⟩ := exec_inside hx hi
      exact h.other u hu
    | false =>
      cases st with
      | begin =>
        cases hx
        exact Slots.get_set_ne _ _ hu
      | commit =>
        cases hx
        unfold CacheDb.commit
        cases db.txs.get s with
        | none => rfl
        | some t => exact Slots.get_erase_ne _ hu
      | rollback =>
        cases hx
        exact Slots.get_erase_ne _ hu
      | lockKey _ _ _ | deleteExpiredKey _ _ _ _ | selectKeyForUpdate _ _ _ _
      | insertValue _ _ _ _ _ _ | insertIfAbsent _ _ _ _ _ _ | updateValue _ _ _ _ => cases hi
      | ensureNamespace _ | selectGeneration _ | upsertEntry _ _ _ _ _ _ | selectLive _ _ _ _
      | touch _ | deleteKey _ _ _ _ | bumpGeneration _ _ | doomed _ | victim _ _ | deleteIds _
      | incrementCounter _ _ | usage _ _ | byteSize _ _ | selectCounters | viewRows _ | usageRows | idle =>
        cases ht

/-! ## namespaces -/

theorem exec_namespaces (hx : CacheStmt.exec s c st db = some (r, db')) :
    db'.namespaces = db.namespaces ∨
      (∃ ns, st = .ensureNamespace ns ∧ db' = db.ensureNamespace ns c.now) ∨
      ∃ ns ids, st = .bumpGeneration ns ids ∧ db' = db.bumpGeneration ns ids c.now := by
  cases hi : st.inside with
  | true =>
    obtain ⟨t, h⟩ := exec_inside hx hi
    exact .inl h.namespaces
  | false =>
    cases st with
    | ensureNamespace ns =>
      cases hx
      exact .inr (.inl ⟨ns, rfl, rfl⟩)
    | bumpGeneration ns ids =>
      obtain ⟨-, hx⟩ := of_guard hx
      cases hx
      exact .inr (.inr ⟨ns, ids, rfl, rfl⟩)
    | commit =>
      cases hx
      unfold CacheDb.commit
      cases db.txs.get s <;> exact .inl rfl
    | upsertEntry ns g h key v ttl =>
      rcases exec_upsertEntry hx with ⟨-, -, rfl⟩ | ⟨-, -, -, rfl⟩ <;> exact .inl rfl
    | touch _ | deleteKey _ _ _ _ | deleteIds _ =>
      obtain ⟨-, hx⟩ := of_guard hx
      cases hx
      exact .inl rfl
    | begin | rollback | selectGeneration _ | selectLive _ _ _ _ | doomed _ | victim _ _
    | incrementCounter _ _ | usage _ _ | byteSize _ _ | selectCounters | viewRows _ | usageRows =>
      cases hx
      exact .inl rfl
    | idle => cases hx
    | lockKey _ _ _ | deleteExpiredKey _ _ _ _ | selectKeyForUpdate _ _ _ _
    | insertValue _ _ _ _ _ _ | insertIfAbsent _ _ _ _ _ _ | updateValue _ _ _ _ => cases hi

theorem exec_generation (hx : CacheStmt.exec s c st db = some (r, db')) {ns : String} {g : Int}
    (hg : db.generationOf ns = some g) :
    db'.generationOf ns = some g ∨
      ((∃ ids, st = .bumpGeneration ns ids) ∧ db'.generationOf ns = some (g + 1)) := by
  rcases exec_namespaces hx with he | ⟨ns', -, rfl⟩ | ⟨ns', ids, rfl, rfl⟩
  · refine .inl ?_
    unfold CacheDb.generationOf
    rw [he]
    exact hg
  · refine .inl ?_
    rw [generationOf_ensure]
    by_cases e : ns = ns'
    · rw [if_pos e, ← e, hg]
      rfl
    · rw [if_neg e]
      exact hg
  · cases hg' : db.generationOf ns' with
    | none =>
      refine .inl ?_
      unfold CacheDb.bumpGeneration
      rw [hg']
      exact hg
    | some g' =>
      rw [generationOf_bump hg']
      by_cases e : ns = ns'
      · subst e
        rw [hg] at hg'
        cases hg'
        exact .inr ⟨⟨ids, rfl⟩, if_pos rfl⟩
      · rw [if_neg e]
        exact .inl hg

/-! ## rows -/

/-- what a row holds, but for the columns that `get` updates -/
def EntryRow.content (r : EntryRow) :
    Int × (String × Int × String) × String × Bytes × Option Time × Int :=
  (r.id, r.uniq, r.cacheKey, r.valueBytes, r.expiresAt, r.sizeBytes)

/-- the row versions a statement publishes -/
def CacheStmt.written (s : Nat) (c : CacheCtx) (db : CacheDb) : CacheStmt → List EntryRow
  | .upsertEntry ns g h key v ttl =>
      if TtlFits c.now ttl then
        (db.upsertEntry ns g h key v ttl c.now).entries.filter (·.isAt ns g h)
      else []
  | .commit =>
      match db.txs.get s with
      | none => []
      | some t => t.rows
  | _ => []

theorem mem_written_upsert {ns : String} {g : Int} {h key : String} {v : Bytes} {ttl : Option Int}
    {x : EntryRow} : x ∈ (CacheStmt.upsertEntry ns g h key v ttl).written s c db ↔
      TtlFits c.now ttl ∧ x ∈ (db.upsertEntry ns g h key v ttl c.now).entries ∧
        x.isAt ns g h = true := by
  show x ∈ (if TtlFits c.now ttl then List.filter _ _ else []) ↔ _
  split
  · rename_i hf
    rw [List.mem_filter]
    exact (and_iff_right hf).symm
  · rename_i hf
    exact ⟨fun hx => (by cases hx), fun hx => absurd hx.1 hf⟩

/-- the statement takes the row away -/
def CacheStmt.removes (s : Nat) (db : CacheDb) (x : EntryRow) : CacheStmt → Prop
  | .deleteKey ns g h key => x.isKey ns g h key = true
  | .deleteIds ids => x.id ∈ ids
  | .bumpGeneration ns ids => x.namespace_ = ns ∧ x.id ∈ ids
  | .commit => ∃ t, db.txs.get s = some t ∧ x.id ∈ t.gone
  | _ => False

theorem mem_upsertEntry {ns : String} {g : Int} {h key : String} {v : Bytes} {ttl : Option Int}
    {now : Time} {x : EntryRow} (hx : x ∈ (db.upsertEntry ns g h key v ttl now).entries) :
    x.isAt ns g h = true ∨ x ∈ db.entries := by
  unfold CacheDb.upsertEntry at hx
  split at hx
  · obtain ⟨y, hy, rfl⟩ := List.mem_map.mp hx
    by_cases ha : y.isAt ns g h = true
    · rw [if_pos ha]
      exact .inl ha
    · rw [if_neg ha]
      exact .inr hy
  · rcases List.mem_append.mp hx with hx | hx
    · exact .inr hx
    · rw [List.mem_singleton.mp hx]
      exact .inl (newEntry_isAt _ _ _)

/-- **Where rows come from.**  A row that was there may have been used now. -/
theorem exec_rows_used (hok : db.Ok) (hx : CacheStmt.exec s c st db = some (r, db')) {x : EntryRow}
    (hm : x ∈ db'.entries) :
    x ∈ st.written s c db ∨ ∃ y ∈ db.entries, y.content = x.content ∧
      (x.lastAccessedAt = y.lastAccessedAt ∨ x.lastAccessedAt = c.now) := by
  have hsame : db'.entries = db.entries → ∃ y ∈ db.entries, y.content = x.content ∧
      (x.lastAccessedAt = y.lastAccessedAt ∨ x.lastAccessedAt = c.now) := fun he =>
    ⟨x, he ▸ hm, rfl, .inl rfl⟩
  cases hi : st.inside with
  | true =>
    obtain ⟨t, h⟩ := exec_inside hx hi
    exact .inr (hsame h.entries)
  | false =>
    cases st with
    | ensureNamespace ns =>
      cases hx
      refine .inr (hsame ?_)
      unfold CacheDb.ensureNamespace
      split <;> rfl
    | bumpGeneration ns ids =>
      obtain ⟨-, hx⟩ := of_guard hx
      cases hx
      unfold CacheDb.bumpGeneration at hm
      split at hm
      · exact .inr ⟨x, hm, rfl, .inl rfl⟩
      · exact .inr ⟨x, List.mem_of_mem_filter hm, rfl, .inl rfl⟩
    | commit =>
      cases hx
      cases ht : db.txs.get s with
      | none =>
        simp only [CacheDb.commit, ht] at hm
        exact .inr ⟨x, hm, rfl, .inl rfl⟩
      | some t =>
        simp only [CacheDb.commit, ht] at hm
        rcases (hok.tx s t ht).mem_apply.mp hm with h | ⟨h, -, -⟩
        · refine .inl ?_
          simp only [CacheStmt.written, ht]
          exact h
        · exact .inr ⟨x, h, rfl, .inl rfl⟩
    | upsertEntry ns g h key v ttl =>
      rcases exec_upsertEntry hx with ⟨-, -, rfl⟩ | ⟨hf, -, -, rfl⟩
      · exact .inr ⟨x, hm, rfl, .inl rfl⟩
      · rcases mem_upsertEntry hm with ha | hm'
        · refine .inl ?_
          simp only [CacheStmt.written, hf, if_true]
          exact List.mem_filter.mpr ⟨hm, ha⟩
        · exact .inr ⟨x, hm', rfl, .inl rfl⟩
    | touch id =>
      obtain ⟨-, hx⟩ := of_guard hx
      cases hx
      obtain ⟨y, hy, rfl⟩ := List.mem_map.mp hm
      refine .inr ⟨y, hy, ?_⟩
      split
      · exact ⟨rfl, .inr rfl⟩
      · exact ⟨rfl, .inl rfl⟩
    | deleteKey _ _ _ _ | deleteIds _ =>
      obtain ⟨-, hx⟩ := of_guard hx
      cases hx
      exact .inr ⟨x, List.mem_of_mem_filter hm, rfl, .inl rfl⟩
    | begin | rollback | selectGeneration _ | selectLive _ _ _ _ | doomed _ | victim _ _
    | incrementCounter _ _ | usage _ _ | byteSize _ _ | selectCounters | viewRows _ | usageRows =>
      cases hx
      exact .inr ⟨x, hm, rfl, .inl rfl⟩
    | idle => cases hx
    | lockKey _ _ _ | deleteExpiredKey _ _ _ _ | selectKeyForUpdate _ _ _ _
    | insertValue _ _ _ _ _ _ | insertIfAbsent _ _ _ _ _ _ | updateValue _ _ _ _ => cases hi

theorem exec_rows (hok : db.Ok) (hx : CacheStmt.exec s c st db = some (r, db')) {x : EntryRow}
    (hm : x ∈ db'.entries) :
    x ∈ st.written s c db ∨ ∃ y ∈ db.entries, y.content = x.content :=
  (exec_rows_used hok hx hm).imp id fun ⟨y, hy, e, _⟩ => ⟨y, hy, e⟩

/-- **Where rows go.** -/
theorem exec_kept (hok : db.Ok) (hx : CacheStmt.exec s c st db = some (r, db')) {x : EntryRow}
    (hm : x ∈ db.entries) :
    st.removes s db x ∨ ∃ y ∈ db'.entries, y.id = x.id ∧ y.uniq = x.uniq := by
  have hsame : db'.entries = db.entries → ∃ y ∈ db'.entries, y.id = x.id ∧
      y.uniq = x.uniq := fun he =>
    ⟨x, he ▸ hm, rfl, rfl⟩
  cases hi : st.inside with
  | true =>
    obtain ⟨t, h⟩ := exec_inside hx hi
    exact .inr (hsame h.entries)
  | false =>
    cases st with
    | ensureNamespace ns =>
      cases hx
      refine .inr (hsame ?_)
      unfold CacheDb.ensureNamespace
      split <;> rfl
    | bumpGeneration ns ids =>
      obtain ⟨-, hx⟩ := of_guard hx
      cases hx
      by_cases hn : x.namespace_ = ns ∧ x.id ∈ ids
      · exact .inl hn
      · refine .inr ⟨x, ?_, rfl, rfl⟩
        unfold CacheDb.bumpGeneration
        split
        · exact hm
        · refine List.mem_filter.mpr ⟨hm, ?_⟩
          by_contra hp
          simp only [Bool.not_eq_true, Bool.not_eq_false', Bool.and_eq_true, beq_iff_eq,
            List.contains_iff_mem] at hp
          exact hn ⟨hp.1.1, hp.2⟩
    | commit =>
      cases hx
      cases ht : db.txs.get s with
      | none =>
        refine .inr ⟨x, ?_, rfl, rfl⟩
        simp only [CacheDb.commit, ht]
        exact hm
      | some t =>
        have o := hok.tx s t ht
        by_cases hgone : x.id ∈ t.gone
        · exact .inl ⟨t, ht, hgone⟩
        · simp only [CacheDb.commit, ht]
          by_cases hv : x.id ∈ t.rows.map (·.id)
          · obtain ⟨y, hy, e⟩ := List.mem_map.mp hv
            exact .inr ⟨y, o.mem_apply.mpr (.inl hy), e, (o.version y hy x hm e.symm).symm⟩
          · exact .inr ⟨x, o.mem_apply.mpr (.inr ⟨hm, hgone, hv⟩), rfl, rfl⟩
    | upsertEntry ns g h key v ttl =>
      refine .inr ?_
      rcases exec_upsertEntry hx with ⟨-, -, rfl⟩ | ⟨-, -, -, rfl⟩
      · exact ⟨x, hm, rfl, rfl⟩
      · unfold CacheDb.upsertEntry
        split
        · refine ⟨_, List.mem_map.mpr ⟨x, hm, rfl⟩, ?_⟩
          split <;> exact ⟨rfl, rfl⟩
        · exact ⟨x, List.mem_append_left _ hm, rfl, rfl⟩
    | touch id =>
      obtain ⟨-, hx⟩ := of_guard hx
      cases hx
      refine .inr ⟨_, List.mem_map.mpr ⟨x, hm, rfl⟩, ?_⟩
      split <;> exact ⟨rfl, rfl⟩
    | deleteKey ns g h key =>
      obtain ⟨-, hx⟩ := of_guard hx
      cases hx
      by_cases hk : x.isKey ns g h key = true
      · exact .inl hk
      · exact .inr ⟨x, List.mem_filter.mpr ⟨hm, by simpa using hk⟩, rfl, rfl⟩
    | deleteIds ids =>
      obtain ⟨-, hx⟩ := of_guard hx
      cases hx
      by_cases hk : x.id ∈ ids
      · exact .inl hk
      · exact .inr ⟨x, List.mem_filter.mpr ⟨hm, by simpa using hk⟩, rfl, rfl⟩
    | begin | rollback | selectGeneration _ | selectLive _ _ _ _ | doomed _ | victim _ _
    | incrementCounter _ _ | usage _ _ | byteSize _ _ | selectCounters | viewRows _ | usageRows =>
      cases hx
      exact .inr ⟨x, hm, rfl, rfl⟩
    | idle => cases hx
    | lockKey _ _ _ | deleteExpiredKey _ _ _ _ | selectKeyForUpdate _ _ _ _
    | insertValue _ _ _ _ _ _ | insertIfAbsent _ _ _ _ _ _ | updateValue _ _ _ _ => cases hi

end

end PgApp
