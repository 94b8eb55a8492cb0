import PgApp.Cache.Frame

/-!
# Stamps and sizes of rows

No row was used later than the latest clock reading so far, and its size is that of its value: of
every version of a row, committed or in an open transaction (`CacheDb.Stamped`).

* `exec_stamped`        one statement;
* `CacheReach.stamped`  whole runs.
-/

namespace PgApp
open Interleave

/-- last used by `now`, and of the size of its value -/
structure EntryRow.Stamped (r : EntryRow) (now : Time) : Prop where
  used : r.lastAccessedAt ≤ now
  size : r.sizeBytes = r.valueBytes.length

structure CacheDb.Stamped (db : CacheDb) (now : Time) : Prop where
  rows : ∀ r ∈ db.entries, r.Stamped now
  started : ∀ s t, db.txs.get s = some t → t.startedAt ≤ now
  versions : ∀ s t, db.txs.get s = some t → ∀ r ∈ t.rows, r.Stamped now

section
variable {now : Time} {r : EntryRow}

theorem EntryRow.Stamped.overwrite (h : r.Stamped now) (key : String) (v : Bytes) (ttl : Option Int)
    (at_ : Time) : (r.overwrite key v ttl at_).Stamped now := ⟨h.used, rfl⟩

theorem EntryRow.Stamped.withValue (h : r.Stamped now) (v : Bytes) (ttl : Option Int)
    (preserve : Bool) (at_ : Time) : (r.withValue v ttl preserve at_).Stamped now := ⟨h.used, rfl⟩

theorem newEntry_stamped {at_ : Time} (h : at_ ≤ now) (id : Int) (ns : String) (g : Int)
    (keyHash key : String) (v : Bytes) (ttl : Option Int) :
    (newEntry id ns g keyHash key v ttl at_).Stamped now := ⟨h, rfl⟩

end

section
variable {s : Nat} {c : CacheCtx} {st : CacheStmt} {db db' : CacheDb} {r : st.Res} {now : Time}

theorem CacheDb.Stamped.seen (h : db.Stamped now) (hok : db.Ok) {x : EntryRow}
    (hx : x ∈ db.seen s) :
    x.Stamped now := by
  unfold CacheDb.seen at hx
  cases ht : db.txs.get s with
  | none =>
    rw [ht] at hx
    exact h.rows x hx
  | some t =>
    rw [ht] at hx
    rcases (hok.tx s t ht).mem_apply.mp hx with hx | ⟨hx, -⟩
    · exact h.versions s t ht x hx
    · exact h.rows x hx

theorem txAfter_stamped (h : db.Stamped now) (hok : db.Ok) {t : CacheTx}
    (ht : db.txs.get s = some t)
    (st : CacheStmt) :
    (st.txAfter s db t).startedAt ≤ now ∧ ∀ x ∈ (st.txAfter s db t).rows, x.Stamped now := by
  have h1 := h.started s t ht
  have h2 := h.versions s t ht
  have hnew : ∀ ns g k key v ttl, ∀ x ∈ t.rows ++ [newEntry db.nextEntryId ns g k key v ttl t.startedAt],
      x.Stamped now := by
    intro ns g k key v ttl x hx
    rcases List.mem_append.mp hx with hx | hx
    · exact h2 x hx
    · rw [List.mem_singleton.mp hx]
      exact newEntry_stamped h1 _ _ _ _ _ _ _
  cases st with
  | deleteExpiredKey ns g k key => exact ⟨h1, fun x hx => h2 x (List.mem_of_mem_filter hx)⟩
  | selectKeyForUpdate ns g k key =>
    simp only [CacheStmt.txAfter]
    split
    · exact ⟨h1, h2⟩
    · exact ⟨h1, h2⟩
  | insertValue ns g k key v ttl =>
    simp only [CacheStmt.txAfter]
    split
    · exact ⟨h1, hnew ns g k key v ttl⟩
    · exact ⟨h1, h2⟩
  | insertIfAbsent ns g k key v ttl =>
    simp only [CacheStmt.txAfter]
    split
    · exact ⟨h1, hnew ns g k key v ttl⟩
    · exact ⟨h1, h2⟩
  | updateValue id v ttl preserve =>
    simp only [CacheStmt.txAfter]
    split
    · exact ⟨h1, h2⟩
    · rename_i y hf
      split
      · refine ⟨h1, fun x hx => ?_⟩
        rcases mem_putEntry.mp hx with hx | ⟨hx, -⟩
        · rw [hx]
          exact (h.seen hok (List.mem_of_find?_eq_some hf)).withValue _ _ _ _
        · exact h2 x hx
      · exact ⟨h1, h2⟩
  | lockKey _ _ _ | begin | commit | rollback | ensureNamespace _ | selectGeneration _
  | upsertEntry _ _ _ _ _ _ | selectLive _ _ _ _ | touch _ | deleteKey _ _ _ _ | bumpGeneration _ _
  | doomed _ | victim _ _ | deleteIds _ | incrementCounter _ _ | usage _ _ | byteSize _ _
  | selectCounters | viewRows _ | usageRows | idle => exact ⟨h1, h2⟩

theorem exec_rows_stamped (h : db.Stamped now) (hok : db.Ok) (hc : c.now ≤ now)
    (hx : CacheStmt.exec s c st db = some (r, db')) : ∀ x ∈ db'.entries, x.Stamped now := by
  intro x hm
  rcases exec_rows_used hok hx hm with hw | ⟨y, hy, e, hu⟩
  · cases st with
    | commit =>
      cases ht : db.txs.get s with
      | none =>
        simp only [CacheStmt.written, ht] at hw
        cases hw
      | some t =>
        simp only [CacheStmt.written, ht] at hw
        exact h.versions s t ht x hw
    | upsertEntry ns g k key v ttl =>
      have hw' := (mem_written_upsert.mp hw).2.1
      unfold CacheDb.upsertEntry at hw'
      split at hw'
      · obtain ⟨y, hy, rfl⟩ := List.mem_map.mp hw'
        split
        · exact (h.rows y hy).overwrite _ _ _ _
        · exact h.rows y hy
      · rcases List.mem_append.mp hw' with hy | hy
        · exact h.rows x hy
        · rw [List.mem_singleton.mp hy]
          exact newEntry_stamped hc _ _ _ _ _ _ _
    | _ => cases hw
  · have hs := h.rows y hy
    have hv : y.valueBytes = x.valueBytes := congrArg (·.2.2.2.1) e
    have hz : y.sizeBytes = x.sizeBytes := congrArg (·.2.2.2.2.2) e
    refine ⟨?_, by rw [← hz, ← hv]; exact hs.size⟩
    rcases hu with hu | hu
    · rw [hu]
      exact hs.used
    · rw [hu]
      exact hc

/-- **One statement.** -/
theorem exec_stamped (h : db.Stamped now) (hok : db.Ok) (hc : c.now ≤ now)
    (hx : CacheStmt.exec s c st db = some (r, db')) : db'.Stamped now := by
  have hown : ∀ t, db'.txs.get s = some t → t.startedAt ≤ now ∧ ∀ x ∈ t.rows, x.Stamped now := by
    intro t ht
    cases hi : st.inside with
    | true =>
      obtain ⟨t₀, I⟩ := exec_inside hx hi
      rw [I.own] at ht
      cases ht
      exact txAfter_stamped h hok I.open_ st
    | false =>
      cases st with
      | begin =>
        cases hx
        rw [show (db.begin s c.now).txs.get s = some ⟨c.now, [], [], [], []⟩ from
          Slots.get_set_self _ _ _] at ht
        cases ht
        exact ⟨hc, fun x hx => (by cases hx)⟩
      | commit =>
        cases hx
        unfold CacheDb.commit at ht
        cases hs : db.txs.get s with
        | none =>
          simp only [hs] at ht
          cases ht
        | some t₀ =>
          simp only [hs] at ht
          rw [Slots.get_erase_self] at ht
          cases ht
      | rollback =>
        cases hx
        rw [show (db.rollback s).txs.get s = none from Slots.get_erase_self _ _] at ht
        cases ht
      | lockKey _ _ _ | deleteExpiredKey _ _ _ _ | selectKeyForUpdate _ _ _ _
      | insertValue _ _ _ _ _ _ | insertIfAbsent _ _ _ _ _ _ | updateValue _ _ _ _ => cases hi
      | ensureNamespace _ | selectGeneration _ | upsertEntry _ _ _ _ _ _ | selectLive _ _ _ _
      | touch _ | deleteKey _ _ _ _ | bumpGeneration _ _ | doomed _ | victim _ _ | deleteIds _
      | incrementCounter _ _ | usage _ _ | byteSize _ _ | selectCounters | viewRows _ | usageRows | idle =>
        rw [exec_txs_same hx rfl] at ht
        exact ⟨h.started s t ht, h.versions s t ht⟩
  refine ⟨exec_rows_stamped h hok hc hx, fun u t ht => ?_, fun u t ht => ?_⟩
  · by_cases hu : u = s
    · subst hu
      exact (hown t ht).1
    · rw [exec_txs_ne hx hu] at ht
      exact h.started u t ht
  · by_cases hu : u = s
    · subst hu
      exact (hown t ht).2
    · rw [exec_txs_ne hx hu] at ht
      exact h.versions u t ht

end

/-- **Whole runs.**  At any time after every clock reading so far. -/
theorem CacheReach.stamped {σ : CacheSys} (hr : CacheReach σ) {now : Time}
    (hclock : ∀ e ∈ σ.hist, e.ctx.now ≤ now) : σ.db.Stamped now := by
  have h : σ.db.Ok ∧ ((∀ e ∈ σ.hist, e.ctx.now ≤ now) → σ.db.Stamped now) := by
    refine hr.invariant (fun db h => db.Ok ∧ ((∀ e ∈ h, e.ctx.now ≤ now) → db.Stamped now)) ?_ ?_
    · exact ⟨.empty, fun _ => ⟨fun r hr => (by cases hr), fun s t h => (by cases h),
        fun s t h => (by cases h)⟩⟩
    · intro db h s op c st r db' ih hx
      refine ⟨CacheStmt.exec_ok ih.1 hx, fun hle => ?_⟩
      exact exec_stamped (ih.2 fun e he => hle e (List.mem_cons_of_mem _ he)) ih.1
        (hle _ List.mem_cons_self) hx
  exact h.2 hclock

theorem exists_after (h : List CacheEv) : ∃ now, ∀ e ∈ h, e.ctx.now ≤ now := by
  induction h with
  | nil => exact ⟨0, fun e he => (by cases he)⟩
  | cons e h ih =>
    obtain ⟨now, hnow⟩ := ih
    refine ⟨max e.ctx.now now, fun x hx => ?_⟩
    rcases List.mem_cons.mp hx with rfl | hx
    · exact le_max_left _ _
    · exact le_trans (hnow x hx) (le_max_right _ _)

theorem CacheReach.sizes {σ : CacheSys} (hr : CacheReach σ) : ∀ x ∈ σ.db.entries,
    0 ≤ x.sizeBytes := by
  obtain ⟨now, hnow⟩ := exists_after σ.hist
  intro x hx
  rw [((hr.stamped hnow).rows x hx).size]
  exact Int.natCast_nonneg _

end PgApp
