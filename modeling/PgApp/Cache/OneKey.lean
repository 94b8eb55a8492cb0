import PgApp.Cache.Invalidation

/-!
# Calls on one key

Which key a published row is of (`published_key`), and systems whose calls are all on one key
(`OnKey`): every stored row is of that key.
-/

namespace PgApp
open Interleave

section
variable {Op : Type} {call : Op → CacheCall}

theorem upsert_key {db : CacheDb} {ns : String} {g : Int} {h key : String} {v : Bytes}
    {ttl : Option Int} {now : Time} {x : EntryRow}
    (hx : x ∈ (db.upsertEntry ns g h key v ttl now).entries) (ha : x.isAt ns g h = true) :
    x.cacheKey = key ∧ x.valueBytes = v := by
  unfold CacheDb.upsertEntry at hx
  split at hx
  · obtain ⟨y, hy, rfl⟩ := List.mem_map.mp hx
    by_cases hya : y.isAt ns g h = true
    · rw [if_pos hya]
      exact ⟨rfl, rfl⟩
    · rw [if_neg hya] at ha
      exact absurd ha hya
  · rename_i hany
    rcases List.mem_append.mp hx with hx | hx
    · exact absurd (List.any_eq_true.mpr ⟨x, hx, ha⟩) hany
    · rw [List.mem_singleton.mp hx]
      exact ⟨rfl, rfl⟩

/-- **A published row is of the key its call is on**, and PostgreSQL takes that key. -/
theorem published_key {e : CacheEvOf Op} {h : List (CacheEvOf Op)} (ho : Ordered call e h)
    {x : EntryRow} (hx : x ∈ publishedBy e) :
    (call e.op).op.target = some (x.namespace_, x.cacheKey) ∧
      x.keyHash = (call e.op).store.hashKey x.cacheKey ∧ storable x.cacheKey = true := by
  obtain ⟨s, op, c, st, r, db⟩ := e
  have hf := ho.follows
  cases st with
  | upsertEntry ns g k key v ttl =>
    obtain ⟨hop, hk, -, hbound, -⟩ := hf
    obtain ⟨-, hm, ha⟩ := mem_written_upsert.mp hx
    have hkey := (upsert_key hm ha).1
    have hu := EntryRow.isAt_iff.mp ha
    have h1 : x.namespace_ = ns := congrArg (·.1) hu
    have h2 : x.keyHash = k := congrArg (·.2.2) hu
    rw [hop, h1, h2, hkey, hk]
    exact ⟨rfl, rfl, hbound⟩
  | commit =>
    obtain ⟨ns, g, k, key, t, htar, hk, hcases⟩ := hf
    have hrow : db.txs.get s = some t → x ∈ t.rows := by
      intro htx
      have hx' : x ∈ CacheStmt.written s c db .commit := hx
      simp only [CacheStmt.written, htx] at hx'
      exact hx'
    have hnew : ∀ {i v ttl now}, x = newEntry i ns g k key v ttl now → storable key = true →
        (call op).op.target = some (x.namespace_, x.cacheKey) ∧
          x.keyHash = (call op).store.hashKey x.cacheKey ∧ storable x.cacheKey = true := by
      intro i v ttl now he hbound
      rw [he]
      exact ⟨htar, hk, hbound⟩
    rcases hcases with ⟨v, ttl, -, htx, -, hrows, -⟩ | ⟨v, ttl, i, -, hc, hrows, -⟩ |
      ⟨a, v, i, -, -, hc, hrows, -⟩ | ⟨a, v, id, old, y, -, -, hc, hfound, hrows, -⟩
    · have hm := hrow htx
      rw [hrows] at hm
      cases hm
    · have hm := hrow hc.tx
      rw [hrows, List.mem_singleton] at hm
      exact hnew hm hc.bound
    · have hm := hrow hc.tx
      rw [hrows, List.mem_singleton] at hm
      exact hnew hm hc.bound
    · have hm := hrow hc.tx
      rw [hrows, List.mem_singleton] at hm
      obtain ⟨ha, hkey⟩ := EntryRow.isKey_iff.mp hfound.2.2.1
      have hu := EntryRow.isAt_iff.mp ha
      have h1 : x.namespace_ = ns := by
        rw [hm]
        exact congrArg (·.1) hu
      have h2 : x.keyHash = k := by
        rw [hm]
        exact congrArg (·.2.2) hu
      have h3 : x.cacheKey = key := by
        rw [hm]
        exact hkey
      rw [h1, h2, h3]
      exact ⟨htar, hk, hc.bound⟩
  | _ => cases hx

/-- **A published value** is what the call makes of nothing, or of the value of the row that is
stored there. -/
theorem published_value {e : CacheEvOf Op} {h : List (CacheEvOf Op)} (ho : Ordered call e h)
    {x : EntryRow} (hx : x ∈ publishedBy e) :
    ∃ a old, (call e.op).op.register old = .ok (a, some x.valueBytes) ∧
      ∀ v, old = some v → (call e.op).op.atomic = true ∧
        ∃ y ∈ e.pre.entries, y.uniq = x.uniq ∧ y.valueBytes = v := by
  obtain ⟨s, op, c, st, r, db⟩ := e
  have hf := ho.follows
  cases st with
  | upsertEntry ns g k key v ttl =>
    obtain ⟨hop, -⟩ := hf
    obtain ⟨-, hm, ha⟩ := mem_written_upsert.mp hx
    refine ⟨.unit, none, ?_, fun v hv => (by cases hv)⟩
    rw [hop, (upsert_key hm ha).2]
    rfl
  | commit =>
    obtain ⟨ns, g, k, key, t, htar, hk, hcases⟩ := hf
    have hrow : db.txs.get s = some t → x ∈ t.rows := by
      intro htx
      have hx' : x ∈ CacheStmt.written s c db .commit := hx
      simp only [CacheStmt.written, htx] at hx'
      exact hx'
    rcases hcases with ⟨v, ttl, -, htx, -, hrows, -⟩ | ⟨v, ttl, i, hop, hc, hrows, -⟩ |
      ⟨a, v, i, -, hreg, hc, hrows, -⟩ | ⟨a, v, id, old, y, hat, hreg, hc, hfound, hrows, -⟩
    · have hm := hrow htx
      rw [hrows] at hm
      cases hm
    · have hm := hrow hc.tx
      rw [hrows, List.mem_singleton] at hm
      refine ⟨.bool true, none, ?_, fun v hv => (by cases hv)⟩
      rw [hop, hm]
      rfl
    · have hm := hrow hc.tx
      rw [hrows, List.mem_singleton] at hm
      refine ⟨a, none, ?_, fun v hv => (by cases hv)⟩
      rw [hm]
      exact hreg
    · have hm := hrow hc.tx
      rw [hrows, List.mem_singleton] at hm
      rw [hm]
      refine ⟨a, some old, hreg, fun w hw => ⟨hat, y, hfound.1.1, rfl, ?_⟩⟩
      cases hw
      exact hfound.2.2.2.2
  | _ => cases hx

/-- the call is on the key, in a store with this hash -/
def OnKey (ns key : String) (hash : String → String) (c : CacheCall) : Prop :=
  (c.op.target = some (ns, key) ∨ c.op = .delete ns key) ∧ c.store.hashKey = hash

/-- all stored rows are of the key -/
def CacheDb.AllOf (db : CacheDb) (ns key : String) (hash : String → String) : Prop :=
  ∀ x ∈ db.entries, x.namespace_ = ns ∧ x.cacheKey = key ∧ x.keyHash = hash key

theorem AllOf.step {ns key : String} {hash : String → String}
    (hkey : ∀ op, OnKey ns key hash (call op))
    {s : Nat} {op : Op} {c : CacheCtx} {st : CacheStmt} {db db' : CacheDb} {r : st.Res}
    {h : List (CacheEvOf Op)} (hi : db.AllOf ns key hash)
      (ho : Ordered call ⟨s, op, c, st, r, db⟩ h)
    (hx : CacheStmt.exec s c st db = some (r, db')) : db'.AllOf ns key hash := by
  intro x hm
  rcases exec_rows ho.good.ok hx hm with hw | ⟨y, hy, hc⟩
  · obtain ⟨ht, hh, -⟩ := published_key ho hw
    obtain ⟨hk, hs⟩ := hkey op
    have ht' : (call op).op.target = some (x.namespace_, x.cacheKey) := ht
    rcases hk with hk | hk
    · rw [hk] at ht'
      simp only [Option.some.injEq, Prod.mk.injEq] at ht'
      refine ⟨ht'.1.symm, ht'.2.symm, ?_⟩
      rw [hh, ht'.2, hs]
    · rw [hk] at ht'
      cases ht'
  · obtain ⟨h1, h2, h3⟩ := hi y hy
    have hu : y.uniq = x.uniq := congrArg (·.2.1) hc
    have hn : y.namespace_ = x.namespace_ := congrArg (·.1) hu
    have hh : y.keyHash = x.keyHash := congrArg (·.2.2) hu
    have hk : y.cacheKey = x.cacheKey := congrArg (·.2.2.1) hc
    rw [← hn, ← hh, ← hk]
    exact ⟨h1, h2, h3⟩

end

end PgApp
