import PgApp.Cache.Cleanup
import PgApp.Cache.WriteUse

/-!
# What holds of every stored row

* `EntryRow.Sound`   `size_bytes` is the length of the value, `key_hash` the hash of the key, and
                     namespace and key pass the checks of `get`.

Each is said of the rows that a statement publishes (`published_key`, `published_size`,
`published_valid`), and a stored row has the content of one of these.  The namespaces of the table
have different names (`NamesApart`).
-/

namespace PgApp
open Interleave

/-- the redundant columns of a row say what they should, and its key can be read -/
structure EntryRow.Sound (hash : String → String) (r : EntryRow) : Prop where
  size : r.sizeBytes = r.valueBytes.length
  hashed : r.keyHash = hash r.cacheKey
  valid : validateRead r.namespace_ r.cacheKey = .ok ()
  bound : storable r.cacheKey = true

/-! ## the size of a published row -/

theorem upsert_size {db : CacheDb} {ns : String} {g : Int} {h key : String} {v : Bytes}
    {ttl : Option Int} {now : Time} {x : EntryRow}
    (hx : x ∈ (db.upsertEntry ns g h key v ttl now).entries) (ha : x.isAt ns g h = true) :
    x.sizeBytes = x.valueBytes.length := by
  unfold CacheDb.upsertEntry at hx
  split at hx
  · obtain ⟨y, hy, rfl⟩ := List.mem_map.mp hx
    by_cases hya : y.isAt ns g h = true
    · rw [if_pos hya]
      rfl
    · rw [if_neg hya] at ha
      exact absurd ha hya
  · rename_i hany
    rcases List.mem_append.mp hx with hx | hx
    · exact absurd (List.any_eq_true.mpr ⟨x, hx, ha⟩) hany
    · rw [List.mem_singleton.mp hx]
      rfl

section
variable {Op : Type} {call : Op → CacheCall}

theorem published_size {e : CacheEvOf Op} {h : List (CacheEvOf Op)} (ho : Ordered call e h)
    {x : EntryRow} (hx : x ∈ publishedBy e) : x.sizeBytes = x.valueBytes.length := by
  obtain ⟨s, op, c, st, r, db⟩ := e
  have hf := ho.follows
  cases st with
  | upsertEntry ns g k key v ttl =>
    obtain ⟨-, hm, ha⟩ := mem_written_upsert.mp hx
    exact upsert_size hm ha
  | commit =>
    obtain ⟨ns, g, k, key, t, -, -, hcases⟩ := hf
    have hrow : db.txs.get s = some t → x ∈ t.rows := by
      intro htx
      have hx' : x ∈ CacheStmt.written s c db .commit := hx
      simp only [CacheStmt.written, htx] at hx'
      exact hx'
    rcases hcases with ⟨v, ttl, -, htx, -, hrows, -⟩ | ⟨v, ttl, i, -, hc, hrows, -⟩ |
      ⟨a, v, i, -, -, hc, hrows, -⟩ | ⟨a, v, id, old, y, -, -, hc, -, hrows, -⟩
    · have hm := hrow htx
      rw [hrows] at hm
      cases hm
    all_goals
      have hm := hrow hc.tx
      rw [hrows, List.mem_singleton] at hm
      rw [hm]
      rfl
  | _ => cases hx

/-! ## the key of a published row -/

theorem CacheCall.body_of_invalid {c : CacheCall} {ns key : String} {e : PgAppError}
    (hop : c.op.target = some (ns, key)) (hv : validateWrite ns key c.op.ttl = .error e) :
    ∃ r, c.body = .ret r := by
  by_cases hat : c.op.atomic = true
  · obtain ⟨ns', key', htarget, hcases⟩ := CacheCall.body_atomic c hat
    obtain ⟨rfl, rfl⟩ := Prod.mk.inj (Option.some.inj (hop.symm.trans htarget))
    rcases hcases with ⟨e', hbody, -⟩ | ⟨α, f, answer, -, hbody⟩
    · exact ⟨_, hbody⟩
    · refine ⟨.error e, hbody.trans ?_⟩
      unfold CacheStore.atomicWrite
      rw [hv]
      rfl
  obtain ⟨store, rounds, op⟩ := c
  cases op with
  | set ns' key' v ttl =>
    cases hop
    change validateWrite ns key ttl = .error e at hv
    refine ⟨.error e, ?_⟩
    show (store.set rounds ns key v ttl >>= fun _ => pure CacheReturn.unit) = _
    unfold CacheStore.set
    rw [hv]
    rfl
  | setNx ns' key' v ttl =>
    cases hop
    change validateWrite ns key ttl = .error e at hv
    refine ⟨.error e, ?_⟩
    show (store.setNx rounds ns key v ttl >>= fun b => pure (CacheReturn.bool b)) = _
    unfold CacheStore.setNx
    rw [hv]
    rfl
  | getSet _ _ _ _ | append _ _ _ _ | prepend _ _ _ _ | increment _ _ _ _ | decrement _ _ _ _ =>
    exact absurd rfl hat
  | get _ _ | mget _ _ | exists_ _ _ | delete _ _ | invalidateNamespace _ | sweepExpired _ | stats =>
    cases hop

variable {σ : CacheSysOf Op}

theorem published_valid (hr : CacheReachOf call σ) {e : CacheEvOf Op} (he : e ∈ σ.hist)
    {x : EntryRow} (hx : x ∈ publishedBy e) : validateRead x.namespace_ x.cacheKey = .ok () := by
  obtain ⟨h', ho⟩ := (cache_follows call hr).of_mem he
  have htarget := (published_key ho hx).1
  cases hv : validateWrite x.namespace_ x.cacheKey (call e.op).op.ttl with
  | ok u => exact validateRead_of_write hv
  | error err =>
    obtain ⟨r, hret⟩ := CacheCall.body_of_invalid htarget hv
    exact absurd hret (hr.issued e he r)

/-! ## reachable states -/

/-- no two namespaces have one name -/
def CacheDb.NamesApart (db : CacheDb) : Prop := (db.namespaces.map (·.name)).Nodup

theorem exec_namesApart {s : Nat} {c : CacheCtx} {st : CacheStmt} {db db' : CacheDb} {r : st.Res}
    (h : db.NamesApart) (hx : CacheStmt.exec s c st db = some (r, db')) : db'.NamesApart := by
  unfold CacheDb.NamesApart at h ⊢
  rcases exec_namespaces hx with he | ⟨ns, -, rfl⟩ | ⟨ns, ids, -, rfl⟩
  · rw [he]
    exact h
  · unfold CacheDb.ensureNamespace
    split
    · exact h
    · rename_i hany
      show (List.map _ (_ ++ [_])).Nodup
      rw [List.map_append]
      refine List.nodup_append.mpr ⟨h, List.nodup_singleton _, ?_⟩
      intro a ha b hb hab
      obtain ⟨n, hn, rfl⟩ := List.mem_map.mp ha
      rw [List.mem_singleton.mp hb] at hab
      exact hany (List.any_eq_true.mpr ⟨n, hn, beq_iff_eq.mpr hab⟩)
  · unfold CacheDb.bumpGeneration
    split
    · exact h
    · -- an invalidation renames nothing
      show (List.map _ (List.map _ db.namespaces)).Nodup
      have hname : ∀ now : Time, (fun n : NamespaceRow => n.name) ∘ (fun n =>
          if n.name == ns then { n with generation := n.generation + 1, updatedAt := now } else n)
          = fun n => n.name := by
        intro now
        funext n
        show (if n.name == ns then _ else n : NamespaceRow).name = n.name
        split <;> rfl
      rw [List.map_map, hname]
      exact h

theorem CacheReachOf.namesApart (hr : CacheReachOf call σ) : σ.db.NamesApart := by
  refine Reach.invariant (fun db _ => db.NamesApart) List.nodup_nil ?_ hr
  intro db h s op c st r db' ih hx
  exact exec_namesApart ih hx

theorem CacheReachOf.ok (hr : CacheReachOf call σ) : σ.db.Ok := (cache_relies hr).holds.ok

end

/-- **Every stored row is sound.** -/
theorem stored_sound {hash : String → String} {σ : CacheSysOf (HashedCall hash)}
    (hr : CacheReachOf Subtype.val σ) : ∀ r ∈ σ.db.entries, r.Sound hash := by
  intro r hm
  obtain ⟨e, he, y, hy, hc⟩ := (cache_traced Subtype.val hr).1.origin r hm
  obtain ⟨h', ho⟩ := (cache_follows Subtype.val hr).of_mem he
  have hns : y.namespace_ = r.namespace_ := congrArg (·.2.1.1) hc
  have hkeyHash : y.keyHash = r.keyHash := congrArg (·.2.1.2.2) hc
  have hkey : y.cacheKey = r.cacheKey := congrArg (·.2.2.1) hc
  have hvalue : y.valueBytes = r.valueBytes := congrArg (·.2.2.2.1) hc
  have hsize : y.sizeBytes = r.sizeBytes := congrArg (·.2.2.2.2.2) hc
  refine ⟨?_, ?_, ?_, bound_of_reach hr r hm⟩
  · rw [← hsize, ← hvalue]
    exact published_size ho hy
  · rw [← hkeyHash, ← hkey, (published_key ho hy).2.1, e.op.2]
  · rw [← hns, ← hkey]
    exact published_valid hr he hy

end PgApp
