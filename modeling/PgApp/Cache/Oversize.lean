import PgApp.Cache.WriteCases

/-!
# A value that cannot fit

A value longer than `max_bytes` is written, and the eviction that follows takes it (and whatever
else it meets on the way) without an error: the capacity is enforced after the commit, and
`enforce_capacity` returns `Ok(())` when nothing is left.

Main result: `cache_oversize`.
-/

namespace PgApp
open Interleave CacheProg

/-- the call returns an error, and the live entries of the other keys of the namespace stay -/
def CacheCall.Reports (call : CacheCall) (s : Nat) (c : CacheCtx) (db : CacheDb) (ns key : String) :
    Prop :=
  ∃ e d, call.body.alone s c db = some (.error e, d) ∧
    ∀ x ∈ db.currentRows ns, x.expired c.now = false → x.cacheKey ≠ key → x ∈ d.entries

/-- the arguments do not pass the checks, PostgreSQL does not take the key or has no moment at which
the ttl ends, or another key has the hash of this one and the write is one that inserts -/
def CacheCall.Rejected (call : CacheCall) (now : Time) (db : CacheDb) (ns key : String) : Prop :=
  (∃ e, validateWrite ns key call.op.ttl = .error e) ∨ ¬ Bindable now key call.op.ttl ∨
    (call.op.atomic = true ∧
      db.Collides ns ((db.generationOf ns).getD 0) (call.store.hashKey key) key)

/-- **A value that cannot fit.**  A write whose value is longer than `max_bytes` is reported if and
only if it is rejected for another reason.  Else it returns well, and its value is gone unless the
sweep has found something to take. -/
theorem cache_oversize {σ : CacheSys} (hr : CacheReach σ) (hq : σ.db.txs = []) (s : Nat)
    (c : CacheCtx)
    (call : CacheCall) {b : Int} (hb : call.store.limits.maxBytes = some b) {ns key : String}
    (hop : call.op.target = some (ns, key)) {v : Bytes}
    (hv : call.op.stored (call.store.valueAt σ.db c.now ns key) = some v) (hlong : b < v.length) :
    (call.Reports s c σ.db ns key ↔ call.Rejected c.now σ.db ns key) ∧
    (¬ call.Rejected c.now σ.db ns key → σ.db.entries.length + 1 < call.rounds →
      ∃ ret d, call.body.alone s c σ.db = some (.ok ret, d) ∧
        (ret ≠ .bool false → (∀ x ∈ σ.db.entries, x.expired c.now = false) →
          ∀ x ∈ d.currentRows ns, x.keyHash ≠ call.store.hashKey key)) := by
  rcases write_cases hr.ok hq s c call hop with hno | ⟨⟨v', ttl, hnx⟩, hval, hbind, d, hrun⟩ | ⟨v',
    r, out, hv', S⟩
  · have hrej : call.Rejected c.now σ.db ns key := by
      rcases hno.why with hbad | hbind | ⟨hat, hcol | hnone⟩
      · exact .inl hbad
      · exact .inr (.inl hbind)
      · exact .inr (.inr ⟨hat, hcol⟩)
      · rw [hv] at hnone
        cases hnone
    obtain ⟨e, d, hrun, he⟩ := hno.run
    refine ⟨⟨fun _ => hrej, fun _ => ⟨e, d, hrun, fun x hx _ _ => ?_⟩⟩,
      fun hnot => absurd hrej hnot⟩
    rw [he]
    exact currentRows_sub hx
  · have hnot : ¬ call.Rejected c.now σ.db ns key := by
      intro h
      rcases h with ⟨e, he⟩ | hno | ⟨hat, -⟩
      · rw [hval] at he
        cases he
      · exact hno hbind
      · rw [hnx] at hat
        cases hat
    refine ⟨⟨fun ⟨e, d', hrun', _⟩ => ?_, fun hrej => absurd hrej hnot⟩,
      fun _ _ => ⟨_, d, hrun, fun hne => absurd rfl hne⟩⟩
    rw [hrun] at hrun'
    cases hrun'
  · rw [hv] at hv'
    cases hv'
    have hnot : ¬ call.Rejected c.now σ.db ns key := by
      intro h
      rcases h with ⟨e, he⟩ | hno | ⟨hat, hcol⟩
      · rw [S.valid] at he
        cases he
      · exact hno S.bound
      · exact S.free hat hcol
    obtain ⟨d, L⟩ := S.leaves hr.sizes
    refine ⟨⟨fun ⟨e, d', hrun', _⟩ => ?_, fun hrej => absurd hrej hnot⟩, fun _ hlt => ?_⟩
    · cases L.only _ hrun'
    · obtain ⟨q, hq'⟩ := L.ends hlt
      obtain rfl := L.only q hq'
      refine ⟨out, d, hq', fun _ hall x hx hk => ?_⟩
      have hxd := currentRows_sub hx
      rcases L.rows x hxd with rfl | ho
      · -- the row itself: it does not fit
        refine L.long (fun y hy => hall y (List.mem_of_mem_filter hy)) b hb ?_ hxd
        rw [S.holds.size]
        exact hlong
      · -- a row of another key
        unfold CacheDb.currentRows at hx
        rw [L.generation] at hx
        have hin : x.isIn ns ((σ.db.generationOf ns).getD 0) = true := (List.mem_filter.mp hx).2
        have hat := (List.mem_filter.mp ho).2
        rw [EntryRow.isAt, hin, hk] at hat
        simp at hat

/-- five bytes at a key that is new -/
def setFive : CacheCall := ⟨fourByteStore, 5, .set "app" "b" [1, 2, 3, 4, 5] none⟩

theorem setFive_reach : ∃ σ : CacheSys, CacheReach σ ∧ σ.db.txs = [] ∧
    (σ.db.currentRows "app").map (fun r => (r.cacheKey, r.expiresAt)) = [("a", none)] ∧
    (setFive.body.alone 0 ⟨1, id⟩ σ.db).map
      (fun p => (p.1.toOption.isSome, p.2.entries.isEmpty)) = some (true, true) := by
  have h : ((Sys.init CacheDb.empty).play CacheStmt.exec CacheCall.body
        (whole 0 ⟨fourByteStore, 5, .set "app" "a" [1] none⟩ ⟨0, id⟩ 8)).map
      (fun σ : CacheSys => (σ.db.txs.isEmpty,
        (σ.db.currentRows "app").map (fun r => (r.cacheKey, r.expiresAt)),
        (setFive.body.alone 0 ⟨1, id⟩ σ.db).map
          (fun p => (p.1.toOption.isSome, p.2.entries.isEmpty))))
      = some (true, [("a", none)], some (true, true)) := by rfl
  obtain ⟨σ, hplay, heq⟩ := Option.map_eq_some_iff.mp h
  simp only [Prod.mk.injEq, List.isEmpty_iff] at heq
  exact ⟨σ, Sys.play_steps hplay, heq.1, heq.2.1, heq.2.2⟩

theorem cache_oversize_setFive : ∃ σ : CacheSys, CacheReach σ ∧ σ.db.txs = [] ∧
    (setFive.Reports 0 ⟨1, id⟩ σ.db "app" "b" ↔ setFive.Rejected 1 σ.db "app" "b") ∧
    (¬ setFive.Rejected 1 σ.db "app" "b" → σ.db.entries.length + 1 < setFive.rounds →
      ∃ ret d, setFive.body.alone 0 ⟨1, id⟩ σ.db = some (.ok ret, d) ∧
        (ret ≠ .bool false → (∀ x ∈ σ.db.entries, x.expired 1 = false) →
          ∀ x ∈ d.currentRows "app", x.keyHash ≠ sampleHash "b")) := by
  obtain ⟨σ, hr, hq, -⟩ := setFive_reach
  exact ⟨σ, hr, hq, cache_oversize hr hq 0 ⟨1, id⟩ setFive rfl rfl rfl (by decide)⟩

/-- five bytes do not fit, `set` returns well, and neither they nor the entry of `a` are left -/
theorem cache_oversize_unreported : ∃ σ : CacheSys, CacheReach σ ∧ σ.db.txs = [] ∧
    (∃ x ∈ σ.db.currentRows "app", x.cacheKey = "a" ∧ x.expiresAt = none) ∧
    (∃ ret d, setFive.body.alone 0 ⟨1, id⟩ σ.db = some (.ok ret, d) ∧ d.entries = []) ∧
    ¬ setFive.Reports 0 ⟨1, id⟩ σ.db "app" "b" := by
  obtain ⟨σ, hr, hq, hrows, hset⟩ := setFive_reach
  obtain ⟨⟨r, d⟩, hrun, heq⟩ := Option.map_eq_some_iff.mp hset
  simp only [Prod.mk.injEq, List.isEmpty_iff] at heq
  cases r with
  | error e => cases heq.1
  | ok ret =>
    refine ⟨σ, hr, hq, ?_, ⟨ret, d, hrun, heq.2⟩, fun ⟨e, d', hrun', _⟩ => ?_⟩
    · obtain ⟨x, hx, hxe⟩ := List.map_eq_singleton_iff.mp hrows
      rw [hx]
      simp only [Prod.mk.injEq] at hxe
      exact ⟨x, List.mem_singleton_self x, hxe.1, hxe.2⟩
    · rw [hrun] at hrun'
      cases hrun'

end PgApp
