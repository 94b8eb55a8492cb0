import PgApp.Cache.Frame

/-!
# Rows held by transactions

A transaction holds the rows it has deleted, locked or written (`CacheTx.holdsRow`).

* `CacheDb.Exclusive`   no row is held by two transactions, and only rows that exist are held;
* `exec_exclusive`      every statement keeps this;
* `exec_held`           what one session does leaves the rows alone that another one holds.
-/

namespace PgApp
open Interleave

theorem CacheTx.holdsRow_iff {t : CacheTx} {i : Int} :
    t.holdsRow i = true ↔ i ∈ t.gone ∨ i ∈ t.locked ∨ ∃ x ∈ t.rows, x.id = i := by
  unfold CacheTx.holdsRow
  simp only [Bool.or_eq_true, List.contains_eq_mem, decide_eq_true_eq, List.any_eq_true, beq_iff_eq,
    or_assoc]

structure CacheDb.Exclusive (db : CacheDb) : Prop where
  below : ∀ s t i, db.txs.get s = some t → t.holdsRow i = true → i < db.nextEntryId
  once : ∀ s t s' t' i, s ≠ s' → db.txs.get s = some t → db.txs.get s' = some t' →
    t.holdsRow i = true → t'.holdsRow i = false

theorem CacheDb.Exclusive.empty : CacheDb.empty.Exclusive where
  below := fun s t i h => (by cases h)
  once := fun s t s' t' i _ h => (by cases h)

section
variable {s : Nat} {c : CacheCtx} {st : CacheStmt} {db db' : CacheDb} {r : st.Res}

theorem CacheDb.free_of_busy {p : EntryRow → Bool} (hb : db.busy s (db.heldBy p) = false)
    {x : EntryRow} (hx : x ∈ db.entries) (hp : p x = true) {u : Nat} {t : CacheTx} (hu : u ≠ s)
    (ht : db.txs.get u = some t) : t.holdsRow x.id = false := by
  obtain ⟨h1, h2, h3⟩ := CacheDb.not_held hb hu ht hx hp
  cases hh : t.holdsRow x.id with
  | false => rfl
  | true =>
    rcases CacheTx.holdsRow_iff.mp hh with h | h | ⟨y, hy, e⟩
    · exact absurd h h1
    · exact absurd h h2
    · exact absurd e (h3 y hy)

/-- what a transaction holds after one of its statements: what it held, a committed row that nobody
else holds, or a row that is new -/
def CacheDb.Takes (db db' : CacheDb) (s : Nat) (t t' : CacheTx) : Prop :=
  ∀ i, t'.holdsRow i = true → t.holdsRow i = true ∨
    ((∃ x ∈ db.entries, x.id = i) ∧
      ∀ u t₂, u ≠ s → db.txs.get u = some t₂ → t₂.holdsRow i = false) ∨
    (i = db.nextEntryId ∧ i < db'.nextEntryId)

/-- a row that the transaction sees and that the guard has found free -/
theorem takes_seen (hok : db.Ok) {t : CacheTx} (ht : db.txs.get s = some t) {p : EntryRow → Bool}
    (hb : db.busy s (db.heldBy p) = false) {x : EntryRow} (hx : x ∈ db.seen s) (hp : p x = true) :
    t.holdsRow x.id = true ∨ ((∃ y ∈ db.entries, y.id = x.id) ∧
      ∀ u t₂, u ≠ s → db.txs.get u = some t₂ → t₂.holdsRow x.id = false) := by
  rw [CacheDb.seen_eq ht] at hx
  rcases (hok.tx s t ht).mem_apply.mp hx with h | ⟨h, -, -⟩
  · exact .inl (CacheTx.holdsRow_iff.mpr (.inr (.inr ⟨x, h, rfl⟩)))
  · exact .inr ⟨⟨x, h, rfl⟩, fun u t₂ hu hu' => CacheDb.free_of_busy hb h hp hu hu'⟩

theorem takes_inserted {t : CacheTx} {x : EntryRow} (hid : x.id = db.nextEntryId) {i : Int}
    (hh : i ∈ t.gone ∨ i ∈ t.locked ∨ ∃ y ∈ t.rows ++ [x], y.id = i) :
    t.holdsRow i = true ∨ i = db.nextEntryId := by
  rw [CacheTx.holdsRow_iff]
  rcases hh with hg | hl | ⟨y, hm, e⟩
  · exact .inl (.inl hg)
  · exact .inl (.inr (.inl hl))
  · rcases List.mem_append.mp hm with hm | hm
    · exact .inl (.inr (.inr ⟨y, hm, e⟩))
    · rw [List.mem_singleton.mp hm] at e
      exact .inr (e.symm.trans hid)

theorem exec_takes (hok : db.Ok) (hx : CacheStmt.exec s c st db = some (r, db'))
    (hi : st.inside = true) :
    ∃ t, InsideOnly s db db' t (st.txAfter s db t) ∧ db.Takes db' s t (st.txAfter s db t) := by
  obtain ⟨t, h⟩ := exec_inside hx hi
  refine ⟨t, h, fun i hh => ?_⟩
  have ht := h.open_
  have hold : ∀ {i}, i ∈ t.gone ∨ i ∈ t.locked ∨ (∃ x ∈ t.rows, x.id = i) → t.holdsRow i = true :=
    CacheTx.holdsRow_iff.mpr
  rw [CacheTx.holdsRow_iff] at hh
  cases st with
  | lockKey ns g k => exact .inl (hold hh)
  | deleteExpiredKey ns g k key =>
    obtain ⟨hb, -⟩ := of_guard hx
    rw [CacheDb.now_eq ht] at hb
    rcases hh with hg | hl | ⟨x, hx', e⟩
    · rcases List.mem_append.mp hg with hg | hg
      · exact .inl (hold (.inl hg))
      · obtain ⟨x, hx', rfl⟩ := List.mem_map.mp hg
        obtain ⟨hm, hp⟩ := List.mem_filter.mp hx'
        rcases takes_seen hok ht hb hm hp with h1 | h1
        · exact .inl h1
        · exact .inr (.inl h1)
    · exact .inl (hold (.inr (.inl hl)))
    · exact .inl (hold (.inr (.inr ⟨x, List.mem_of_mem_filter hx', e⟩)))
  | selectKeyForUpdate ns g k key =>
    obtain ⟨hb, -⟩ := of_guard hx
    rw [CacheDb.now_eq ht] at hb
    cases hf : db.findLive s ns g k key t.startedAt with
    | none =>
      simp only [CacheStmt.txAfter, hf] at hh
      exact .inl (hold hh)
    | some x =>
      simp only [CacheStmt.txAfter, hf] at hh
      rcases hh with hg | hl | hr
      · exact .inl (hold (.inl hg))
      · rcases List.mem_append.mp hl with hl | hl
        · exact .inl (hold (.inr (.inl hl)))
        · rw [List.mem_singleton.mp hl]
          have hm := List.mem_of_find?_eq_some hf
          have hp : (x.isKey ns g k key && x.live t.startedAt) = true := by
            simpa using List.find?_some hf
          rcases takes_seen hok ht hb hm hp with h1 | h1
          · exact .inl h1
          · exact .inr (.inl h1)
      · exact .inl (hold (.inr (.inr hr)))
  | insertValue ns g k key v ttl =>
    obtain ⟨t', ht', ⟨hf, -⟩ | ⟨hf, -, ⟨hc, -⟩ | ⟨hc, -, rfl⟩⟩⟩ := exec_insertValue hx
    all_goals
      rw [ht] at ht'
      cases ht'
    · simp only [CacheStmt.txAfter, hf, false_and, if_false] at hh
      exact .inl (hold hh)
    · simp only [CacheStmt.txAfter, hc, reduceCtorEq, and_false, if_false] at hh
      exact .inl (hold hh)
    · simp only [CacheStmt.txAfter, hc, hf, and_self, if_true] at hh
      rcases takes_inserted rfl hh with h1 | h1
      · exact .inl h1
      · exact .inr (.inr ⟨h1, by rw [h1]; exact Int.lt_succ _⟩)
  | insertIfAbsent ns g k key v ttl =>
    obtain ⟨t', ht', ⟨hf, -⟩ | ⟨hf, -, ⟨hc, -⟩ | ⟨hc, -, rfl⟩⟩⟩ := exec_insertIfAbsent hx
    all_goals
      rw [ht] at ht'
      cases ht'
    · simp only [CacheStmt.txAfter, hf, false_and, if_false] at hh
      exact .inl (hold hh)
    · simp only [CacheStmt.txAfter, hc, reduceCtorEq, and_false, if_false] at hh
      exact .inl (hold hh)
    · simp only [CacheStmt.txAfter, hc, hf, and_self, if_true] at hh
      rcases takes_inserted rfl hh with h1 | h1
      · exact .inl h1
      · exact .inr (.inr ⟨h1, by rw [h1]; exact Int.lt_succ _⟩)
  | updateValue id v ttl preserve =>
    cases hf : (db.seen s).find? (·.id == id) with
    | none =>
      simp only [CacheStmt.txAfter, hf] at hh
      exact .inl (hold hh)
    | some x =>
      obtain ⟨t', ht', ⟨hfits, -⟩ | ⟨hfits, hb, -⟩⟩ := exec_updateValue hx
      all_goals
        rw [ht] at ht'
        cases ht'
      · simp only [CacheStmt.txAfter, hf, hfits, if_false] at hh
        exact .inl (hold hh)
      · simp only [CacheStmt.txAfter, hf, hfits, if_true] at hh
        rcases hh with hg | hl | ⟨y, hm, e⟩
        · exact .inl (hold (.inl hg))
        · exact .inl (hold (.inr (.inl hl)))
        · rcases mem_putEntry.mp hm with rfl | ⟨hm, -⟩
          · rw [← e]
            have hp : (x.id == id) = true := by simpa using List.find?_some hf
            rcases takes_seen hok ht hb (List.mem_of_find?_eq_some hf) hp with h1 | h1
            · exact .inl h1
            · exact .inr (.inl h1)
          · exact .inl (hold (.inr (.inr ⟨y, hm, e⟩)))
  | _ => cases hi

theorem exec_next (hx : CacheStmt.exec s c st db = some (r, db')) :
    db.nextEntryId ≤ db'.nextEntryId := by
  cases hi : st.inside with
  | true =>
    obtain ⟨t, h⟩ := exec_inside hx hi
    exact h.next
  | false =>
    cases st with
    | ensureNamespace ns =>
      cases hx
      unfold CacheDb.ensureNamespace
      split <;> exact Int.le_refl _
    | bumpGeneration ns ids =>
      obtain ⟨-, hx⟩ := of_guard hx
      cases hx
      unfold CacheDb.bumpGeneration
      split <;> exact Int.le_refl _
    | commit =>
      cases hx
      unfold CacheDb.commit
      split <;> exact Int.le_refl _
    | upsertEntry _ _ _ _ _ _ =>
      rcases exec_upsertEntry hx with ⟨-, -, rfl⟩ | ⟨-, -, -, rfl⟩ <;> exact Int.le_of_lt (Int.lt_succ _)
    | touch _ | deleteKey _ _ _ _ | deleteIds _ =>
      obtain ⟨-, hx⟩ := of_guard hx
      cases hx
      exact Int.le_refl _
    | begin | rollback | selectGeneration _ | selectLive _ _ _ _ | doomed _ | victim _ _
    | incrementCounter _ _ | usage _ _ | byteSize _ _ | selectCounters | viewRows _ | usageRows =>
      cases hx
      exact Int.le_refl _
    | idle => cases hx
    | lockKey _ _ _ | deleteExpiredKey _ _ _ _ | selectKeyForUpdate _ _ _ _
    | insertValue _ _ _ _ _ _ | insertIfAbsent _ _ _ _ _ _ | updateValue _ _ _ _ => cases hi

theorem CacheDb.Exclusive.fewer (h : db.Exclusive) (hn : db.nextEntryId ≤ db'.nextEntryId)
    (ht : ∀ u t', db'.txs.get u = some t' → (∀ i, t'.holdsRow i = false) ∨ db.txs.get u = some t') :
    db'.Exclusive where
  below := by
    intro u t i hu hh
    rcases ht u t hu with h0 | h1
    · rw [h0 i] at hh
      cases hh
    · exact Int.lt_of_lt_of_le (h.below u t i h1 hh) hn
  once := by
    intro u t u' t' i hne hu hu' hh
    rcases ht u t hu with h0 | h1
    · rw [h0 i] at hh
      cases hh
    · rcases ht u' t' hu' with h0' | h1'
      · exact h0' i
      · exact h.once u t u' t' i hne h1 h1' hh

/-- outside of a transaction's own statements: it has just begun and holds nothing, or it is as it
was -/
theorem exec_outside (hx : CacheStmt.exec s c st db = some (r, db')) (hi : st.inside = false)
    {u : Nat} {t' : CacheTx} (hu : db'.txs.get u = some t') :
    (∀ i, t'.holdsRow i = false) ∨ db.txs.get u = some t' := by
  by_cases e : u = s
  · subst e
    cases ht : st.inTx with
    | false =>
      rw [exec_txs_same hx ht] at hu
      exact .inr hu
    | true =>
      cases st with
      | begin =>
        cases hx
        have h1 : (db.txs.set u ⟨c.now, [], [], [], []⟩).get u = some t' := hu
        rw [Slots.get_set_self] at h1
        cases h1
        exact .inl fun i => rfl
      | commit =>
        cases hx
        unfold CacheDb.commit at hu
        cases hg : db.txs.get u with
        | none =>
          rw [hg] at hu
          rw [hg] at hu
          cases hu
        | some t =>
          rw [hg] at hu
          have h1 : (db.txs.erase u).get u = some t' := hu
          rw [Slots.get_erase_self] at h1
          cases h1
      | rollback =>
        cases hx
        have h1 : (db.txs.erase u).get u = some t' := hu
        rw [Slots.get_erase_self] at h1
        cases h1
      | lockKey _ _ _ | deleteExpiredKey _ _ _ _ | selectKeyForUpdate _ _ _ _
      | insertValue _ _ _ _ _ _ | insertIfAbsent _ _ _ _ _ _ | updateValue _ _ _ _ => cases hi
      | ensureNamespace _ | selectGeneration _ | upsertEntry _ _ _ _ _ _ | selectLive _ _ _ _
      | touch _ | deleteKey _ _ _ _ | bumpGeneration _ _ | doomed _ | victim _ _ | deleteIds _
      | incrementCounter _ _ | usage _ _ | byteSize _ _ | selectCounters | viewRows _ | usageRows | idle =>
        cases ht
  · rw [exec_txs_ne hx e] at hu
    exact .inr hu

theorem exec_exclusive (hok : db.Ok) (h : db.Exclusive)
    (hx : CacheStmt.exec s c st db = some (r, db')) : db'.Exclusive := by
  have hn := exec_next hx
  cases hi : st.inside with
  | true =>
    obtain ⟨t, ho, htk⟩ := exec_takes hok hx hi
    -- what the session's own transaction holds now, the others do not
    have hself : ∀ u t₂ i, u ≠ s → db.txs.get u = some t₂ →
        (st.txAfter s db t).holdsRow i = true → t₂.holdsRow i = false := by
      intro u t₂ i hu hu' hh
      rcases htk i hh with h1 | ⟨-, h1⟩ | ⟨h1, -⟩
      · exact h.once s t u t₂ i (Ne.symm hu) ho.open_ hu' h1
      · exact h1 u t₂ hu hu'
      · cases h2 : t₂.holdsRow i with
        | false => rfl
        | true =>
          have h3 := h.below u t₂ i hu' h2
          omega
    refine ⟨fun u t₂ i hu hh => ?_, fun u t₂ u' t₃ i hne hu hu' hh => ?_⟩
    · by_cases e : u = s
      · subst e
        rw [ho.own] at hu
        cases hu
        rcases htk i hh with h1 | ⟨⟨x, hx', rfl⟩, -⟩ | ⟨-, h1⟩
        · exact Int.lt_of_lt_of_le (h.below u t i ho.open_ h1) hn
        · exact Int.lt_of_lt_of_le (hok.below x hx') hn
        · exact h1
      · rw [ho.other u e] at hu
        exact Int.lt_of_lt_of_le (h.below u t₂ i hu hh) hn
    · by_cases e : u = s
      · subst e
        rw [ho.own] at hu
        cases hu
        rw [ho.other u' (Ne.symm hne)] at hu'
        exact hself u' t₃ i (Ne.symm hne) hu' hh
      · rw [ho.other u e] at hu
        by_cases e' : u' = s
        · subst e'
          rw [ho.own] at hu'
          cases hu'
          cases h2 : (st.txAfter u' db t).holdsRow i with
          | false => rfl
          | true =>
            rw [hself u t₂ i hne hu h2] at hh
            cases hh
        · rw [ho.other u' e'] at hu'
          exact h.once u t₂ u' t₃ i hne hu hu' hh
  | false =>
    exact h.fewer hn fun u t' hu => exec_outside hx hi hu

/-! ## held rows wait -/

theorem CacheDb.free_of_heldBy {p : EntryRow → Bool} {t : CacheTx} (hb : db.heldBy p t = false)
    {x : EntryRow} (hx : x ∈ db.entries) (hh : t.holdsRow x.id = true) : p x = false := by
  unfold CacheDb.heldBy at hb
  rw [List.any_eq_false] at hb
  cases hp : p x with
  | false => rfl
  | true =>
    have h2 := hb x hx
    rw [hp, hh] at h2
    exact absurd rfl h2

theorem CacheDb.free_of_blocked {p : EntryRow → Bool} (hb : db.blocked (db.heldBy p) = false)
    {x : EntryRow} (hx : x ∈ db.entries) {u : Nat} {t : CacheTx} (ht : db.txs.get u = some t)
    (hh : t.holdsRow x.id = true) : p x = false :=
  CacheDb.free_of_heldBy (CacheDb.not_blocked hb ht) hx hh

section
variable {t : CacheTx} {rows : List EntryRow} {p : EntryRow → Bool} {x : EntryRow}

theorem CacheTx.mem_filter_free
    (hfree : ∀ y ∈ rows, t.holdsRow y.id = true → p y = false) (hh : t.holdsRow x.id = true) :
    x ∈ rows.filter (fun r => !p r) ↔ x ∈ rows := by
  rw [List.mem_filter]
  refine ⟨fun h => h.1, fun h => ⟨h, ?_⟩⟩
  rw [hfree x h hh]
  rfl

theorem CacheTx.mem_map_free {f : EntryRow → EntryRow} (hid : ∀ y, (f y).id = y.id)
    (hfree : ∀ y ∈ rows, t.holdsRow y.id = true → p y = false) (hh : t.holdsRow x.id = true) :
    x ∈ rows.map (fun r => if p r = true then f r else r) ↔ x ∈ rows := by
  rw [List.mem_map]
  constructor
  · intro ⟨y, hy, e⟩
    by_cases ha : p y = true
    · rw [if_pos ha] at e
      have hyx : y.id = x.id := by rw [← e, hid]
      rw [hfree y hy (hyx ▸ hh)] at ha
      cases ha
    · rw [if_neg ha] at e
      exact e ▸ hy
  · intro hy
    refine ⟨x, hy, ?_⟩
    rw [hfree x hy hh]
    rfl

theorem CacheTx.mem_apply_free (hok : db.Ok) (ht : db.txs.get s = some t)
    (hfree : t.holdsRow x.id = false) : x ∈ t.apply db.entries ↔ x ∈ db.entries := by
  have h1 : ¬ (x.id ∈ t.gone ∨ x.id ∈ t.locked ∨ ∃ y ∈ t.rows, y.id = x.id) := by
    rw [← CacheTx.holdsRow_iff, hfree]
    exact Bool.false_ne_true
  rw [(hok.tx s t ht).mem_apply]
  constructor
  · intro h
    rcases h with h2 | ⟨h2, -⟩
    · exact absurd (.inr (.inr ⟨x, h2, rfl⟩)) h1
    · exact h2
  · intro h2
    refine .inr ⟨h2, fun h3 => h1 (.inl h3), fun h3 => ?_⟩
    obtain ⟨y, hy, e⟩ := List.mem_map.mp h3
    exact h1 (.inr (.inr ⟨y, hy, e⟩))

end

/-- **What a transaction holds, nobody else changes.** -/
theorem exec_held (hok : db.Ok) (h : db.Exclusive) (hx : CacheStmt.exec s c st db = some (r, db'))
    {u : Nat} (hu : u ≠ s) {t : CacheTx} (ht : db.txs.get u = some t) {x : EntryRow}
    (hh : t.holdsRow x.id = true) : x ∈ db'.entries ↔ x ∈ db.entries := by
  cases hi : st.inside with
  | true =>
    obtain ⟨_, ho⟩ := exec_inside hx hi
    rw [ho.entries]
  | false =>
    cases st with
    | ensureNamespace ns =>
      cases hx
      unfold CacheDb.ensureNamespace
      split <;> rfl
    | bumpGeneration ns ids =>
      obtain ⟨hb, hx⟩ := of_guard hx
      cases hx
      unfold CacheDb.bumpGeneration
      split
      · rfl
      · rename_i g _
        refine CacheTx.mem_filter_free (fun y hy hyh => ?_) hh
        have h1 : (y.namespace_ == ns && ids.contains y.id) = false :=
          CacheDb.free_of_blocked hb hy ht hyh
        rw [Bool.and_right_comm, h1]
        rfl
    | commit =>
      cases hx
      cases hg : db.txs.get s with
      | none => simp only [CacheDb.commit, hg]
      | some t' =>
        simp only [CacheDb.commit, hg]
        exact CacheTx.mem_apply_free hok hg (h.once u t s t' x.id hu ht hg hh)
    | upsertEntry ns g k key v ttl =>
      rcases exec_upsertEntry hx with ⟨-, -, rfl⟩ | ⟨-, hb, -, rfl⟩
      · rfl
      · have hfree : ∀ y ∈ db.entries, t.holdsRow y.id = true → y.isAt ns g k = false := by
          intro y hy hyh
          have h1 := CacheDb.not_blocked hb ht
          rw [Bool.or_eq_false_iff] at h1
          exact CacheDb.free_of_heldBy h1.2 hy hyh
        unfold CacheDb.upsertEntry
        split
        · exact CacheTx.mem_map_free (fun y => rfl) hfree hh
        · rw [List.mem_append, List.mem_singleton]
          constructor
          · intro hex
            rcases hex with h1 | h1
            · exact h1
            · have h2 := h.below u t x.id ht hh
              have h3 : x.id = db.nextEntryId := by rw [h1]; rfl
              omega
          · exact .inl
    | touch id =>
      obtain ⟨hb, hx⟩ := of_guard hx
      cases hx
      exact CacheTx.mem_map_free (fun y => rfl)
        (fun y hy hyh => CacheDb.free_of_blocked hb hy ht hyh) hh
    | deleteKey ns g k key =>
      obtain ⟨hb, hx⟩ := of_guard hx
      cases hx
      exact CacheTx.mem_filter_free (fun y hy hyh => CacheDb.free_of_blocked hb hy ht hyh) hh
    | deleteIds ids =>
      obtain ⟨hb, hx⟩ := of_guard hx
      cases hx
      exact CacheTx.mem_filter_free (fun y hy hyh => CacheDb.free_of_blocked hb hy ht hyh) hh
    | begin | rollback | selectGeneration _ | selectLive _ _ _ _ | doomed _ | victim _ _
    | incrementCounter _ _ | usage _ _ | byteSize _ _ | selectCounters | viewRows _ | usageRows =>
      cases hx
      rfl
    | idle => cases hx
    | lockKey _ _ _ | deleteExpiredKey _ _ _ _ | selectKeyForUpdate _ _ _ _
    | insertValue _ _ _ _ _ _ | insertIfAbsent _ _ _ _ _ _ | updateValue _ _ _ _ => cases hi

end

end PgApp
