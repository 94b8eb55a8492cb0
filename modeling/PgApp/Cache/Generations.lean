import PgApp.Cache.Programs
import PgApp.Cache.Capacity
import PgApp.Cache.Simulation
import Mathlib.Tactic.IntervalCases

/-!
# Generations

Every operation reads the generation of its namespace in one statement and uses it in a later one.

* `published_at`          a row that is published has the namespace and generation that its session
has
                          looked up before;
* `WritesFresh`           the namespace has not been invalidated since that look-up;
* `cache_no_superseded`   in every run whose writes are fresh, every stored row is of the current
                          generation.
-/

namespace PgApp
open Interleave

/-- the statement invalidates the namespace -/
def CacheStmt.bumps (ns : String) : CacheStmt → Bool
  | .bumpGeneration n _ => n == ns
  | _ => false

/-- the statement looks a generation up -/
def CacheStmt.looksUp : CacheStmt → Bool
  | .selectGeneration _ => true
  | _ => false

theorem CacheStmt.bumps_iff {ns : String} {st : CacheStmt} :
    st.bumps ns = true ↔ ∃ ids, st = .bumpGeneration ns ids := by
  cases st with
  | bumpGeneration n ids => simp [CacheStmt.bumps]
  | _ => simp [CacheStmt.bumps]

section
variable {Op : Type} {call : Op → CacheCall}

/-- the versions an executed statement has published -/
abbrev publishedBy (e : CacheEvOf Op) : List EntryRow := e.stmt.written e.sess e.ctx e.pre

/-- what was executed since the session last looked a generation up -/
def sinceLookup (s : Nat) (h : List (CacheEvOf Op)) : List (CacheEvOf Op) :=
  h.takeWhile fun e => !(e.sess == s && e.stmt.looksUp)

/-- the session's last look-up of a generation: `ns` had `g` -/
def LookedUp (s : Nat) (h : List (CacheEvOf Op)) (ns : String) (g : Int) : Prop :=
  ∃ h₁ e h₂, h = h₁ ++ e :: h₂ ∧ sinceLookup s h = h₁ ∧
    (⟨e.stmt, e.res⟩ : Said) = ⟨.selectGeneration ns, some g⟩

theorem lookedUp_of_said {s : Nat} {h : List (CacheEvOf Op)} {ns : String} {g : Int}
    (pre : List Said) {rest : List Said} (hs : said (ownEvents s h) = pre ++
      ⟨.selectGeneration ns, some g⟩ :: rest)
    (hpre : ∀ x ∈ pre, x.1.looksUp = false) : LookedUp s h ns g := by
  obtain ⟨a, b, hab, ha, hb⟩ := List.map_eq_append_iff.mp hs
  obtain ⟨e, b', rfl, he, -⟩ := List.map_eq_cons_iff.mp hb
  obtain ⟨h₁, h₂, rfl, h1, -, hes⟩ := ownEvents_split hab
  refine ⟨h₁, e, h₂, rfl, ?_, he⟩
  have hst : e.stmt.looksUp = true := by
    have h2 : e.stmt = .selectGeneration ns := congrArg Sigma.fst he
    rw [h2]
    rfl
  unfold sinceLookup
  rw [List.takeWhile_append_of_pos, List.takeWhile_cons_of_neg, List.append_nil]
  · simp [hes, hst]
  · intro d hd
    by_cases hds : d.sess = s
    · have hm : d ∈ ownEvents s h₁ := List.mem_filter.mpr ⟨hd, by simpa using hds⟩
      rw [h1] at hm
      have h3 : (⟨d.stmt, d.res⟩ : Said) ∈ pre := by
        rw [← ha]
        exact List.mem_map.mpr ⟨d, hm, rfl⟩
      simp [hpre _ h3]
    · simp [hds]

/-- **What is published has the generation that was looked up.** -/
theorem published_at {e : CacheEvOf Op} {h : List (CacheEvOf Op)} (ho : Ordered call e h)
    {x : EntryRow} (hx : x ∈ publishedBy e) : LookedUp e.sess h x.namespace_ x.generation := by
  obtain ⟨s, op, c, st, r, db⟩ := e
  have hf := ho.follows
  cases st with
  | upsertEntry ns g k key v ttl =>
    obtain ⟨-, -, -, -, l, hl⟩ := hf
    have hat := EntryRow.isAt_iff.mp (mem_written_upsert.mp hx).2.2
    have h1 : x.namespace_ = ns := congrArg (·.1) hat
    have h2 : x.generation = g := congrArg (·.2.1) hat
    rw [h1, h2]
    exact lookedUp_of_said [] hl.symm (fun x hx => (by cases hx))
  | commit =>
    obtain ⟨ns, g, k, key, t, -, -, hcases⟩ := hf
    have hrow : db.txs.get s = some t → x ∈ t.rows := by
      intro htx
      have hx' : x ∈ CacheStmt.written s c db .commit := hx
      simp only [CacheStmt.written, htx] at hx'
      exact hx'
    rcases hcases with ⟨v, ttl, -, htx, -, hrows, -⟩ | ⟨v, ttl, i, -, hc, hrows, -, l, hl⟩ |
      ⟨a, v, i, -, -, hc, hrows, -, l, hl⟩ | ⟨a, v, id, old, y, -, -, hc, hfound, hrows, l, hl⟩
    · have hm := hrow htx
      rw [hrows] at hm
      cases hm
    · have hm := hrow hc.tx
      rw [hrows, List.mem_singleton] at hm
      rw [hm]
      refine lookedUp_of_said [⟨.insertIfAbsent ns g k key v ttl, .ok 1⟩,
        ⟨.deleteExpiredKey ns g k key, ()⟩, ⟨.begin, ()⟩] hl.symm ?_
      simp [CacheStmt.looksUp]
    · have hm := hrow hc.tx
      rw [hrows, List.mem_singleton] at hm
      rw [hm]
      refine lookedUp_of_said [⟨.insertValue ns g k key v _, .ok ()⟩,
        ⟨.selectKeyForUpdate ns g k key, none⟩, ⟨.deleteExpiredKey ns g k key, ()⟩,
        ⟨.lockKey ns g k, ()⟩, ⟨.begin, ()⟩] hl.symm ?_
      simp [CacheStmt.looksUp]
    · have hm := hrow hc.tx
      rw [hrows, List.mem_singleton] at hm
      have hat := EntryRow.isAt_iff.mp (EntryRow.isKey_iff.mp hfound.2.2.1).1
      have h1 : x.namespace_ = ns := by
        rw [hm]
        exact congrArg (·.1) hat
      have h2 : x.generation = g := by
        rw [hm]
        exact congrArg (·.2.1) hat
      rw [h1, h2]
      refine lookedUp_of_said [⟨.updateValue id v _ _, .ok ()⟩,
        ⟨.selectKeyForUpdate ns g k key, some (id, old)⟩, ⟨.deleteExpiredKey ns g k key, ()⟩,
        ⟨.lockKey ns g k, ()⟩, ⟨.begin, ()⟩] hl.symm ?_
      simp [CacheStmt.looksUp]
  | _ => cases hx

/-! ## fresh writes -/

/-- a namespace that was looked up and not invalidated since has the generation it had -/
def LookupsHold (db : CacheDb) (h : List (CacheEvOf Op)) : Prop :=
  ∀ h₁ e h₂ ns g, h = h₁ ++ e :: h₂ → (⟨e.stmt, e.res⟩ : Said) = ⟨.selectGeneration ns, some g⟩ →
    (∀ d ∈ h₁, d.stmt.bumps ns = false) → db.generationOf ns = some g

theorem LookupsHold.step {s : Nat} {op : Op} {c : CacheCtx} {st : CacheStmt} {db db' : CacheDb}
    {r : st.Res} {h : List (CacheEvOf Op)} (hi : LookupsHold db h)
    (hx : CacheStmt.exec s c st db = some (r, db')) :
    LookupsHold db' (⟨s, op, c, st, r, db⟩ :: h) := by
  intro h₁ e h₂ ns g heq he hb
  cases h₁ with
  | nil =>
    obtain ⟨rfl, -⟩ := List.cons.inj heq
    cases he
    have h1 : some (db.generationOf ns, db) = some (some g, db') := hx
    simp only [Option.some.injEq, Prod.mk.injEq] at h1
    obtain ⟨h1, rfl⟩ := h1
    exact h1
  | cons d h₁ =>
    obtain ⟨rfl, heq'⟩ := List.cons.inj heq
    have h1 := hi h₁ e h₂ ns g heq' he fun d hd => hb d (List.mem_cons_of_mem _ hd)
    rcases exec_generation hx h1 with h2 | ⟨h2, -⟩
    · exact h2
    · have h3 : st.bumps ns = false := hb _ List.mem_cons_self
      rw [CacheStmt.bumps_iff.mpr h2] at h3
      cases h3

/-- the session is about to invalidate a namespace and has picked its rows -/
def viewingAt (l : List Said) : Option (String × List Int) :=
  match l with
  | ⟨.viewRows ns, ids⟩ :: _ => some (ns, ids)
  | _ => none

/-- **The namespace of a published row has not been invalidated since its session looked it up**,
and no other session that has picked the rows of this namespace is about to delete them without
it. -/
def WritesFresh (e : CacheEvOf Op) (h : List (CacheEvOf Op)) : Prop :=
  ∀ x ∈ publishedBy e, (∀ d ∈ sinceLookup e.sess h, d.stmt.bumps x.namespace_ = false) ∧
    ∀ d ∈ h, ∀ v ∈ viewingAt (said (ownEvents d.sess h)), v.1 = x.namespace_ → x.id ∈ v.2

instance (e : CacheEvOf Op) (h : List (CacheEvOf Op)) : Decidable (WritesFresh e h) :=
  inferInstanceAs (Decidable (∀ x ∈ publishedBy e, _ ∧ _))

theorem fresh_generation {e : CacheEvOf Op} {h : List (CacheEvOf Op)} (hi : LookupsHold e.pre h)
    (ho : Ordered call e h) (hf : WritesFresh e h) {x : EntryRow} (hx : x ∈ publishedBy e) :
    e.pre.generationOf x.namespace_ = some x.generation := by
  obtain ⟨h₁, d, h₂, heq, hs, hd⟩ := published_at ho hx
  refine hi h₁ d h₂ _ _ heq hd fun d' hd' => ?_
  rw [← hs] at hd'
  exact (hf x hx).1 d' hd'

/-- a session that has picked the rows of a namespace has picked all -/
def ViewsHold (db : CacheDb) (h : List (CacheEvOf Op)) : Prop :=
  ∀ s, ∀ v ∈ viewingAt (said (ownEvents s h)), ∀ x ∈ db.entries, x.namespace_ = v.1 → x.id ∈ v.2

theorem viewingAt_said {l : List Said} {v : String × List Int} (h : v ∈ viewingAt l) :
    ∃ rest, l = ⟨.viewRows v.1, v.2⟩ :: rest := by
  unfold viewingAt at h
  split at h
  · cases h
    exact ⟨_, rfl⟩
  · cases h

theorem ViewsHold.step {s : Nat} {op : Op} {c : CacheCtx} {st : CacheStmt} {db db' : CacheDb}
    {r : st.Res} {h : List (CacheEvOf Op)} (hi : ViewsHold db h) (hok : db.Ok)
    (hf : WritesFresh ⟨s, op, c, st, r, db⟩ h) (hx : CacheStmt.exec s c st db = some (r, db')) :
    ViewsHold db' (⟨s, op, c, st, r, db⟩ :: h) := by
  rintro u ⟨ns, ids⟩ hv x hm hn
  obtain ⟨rest, hs⟩ := viewingAt_said hv
  by_cases e : u = s
  · -- the rows have just been picked
    subst e
    rw [ownEvents_cons_self (e := ⟨u, op, c, st, r, db⟩) rfl] at hs
    have hst : (⟨st, r⟩ : Said) = ⟨.viewRows ns, ids⟩ := (List.cons.inj hs).1
    cases hst
    have hx' : some (db.viewRows ns, db) = some (ids, db') := hx
    simp only [Option.some.injEq, Prod.mk.injEq] at hx'
    obtain ⟨rfl, rfl⟩ := hx'
    exact mem_viewRows hm hn
  · rw [ownEvents_cons_ne (e := ⟨s, op, c, st, r, db⟩) (Ne.symm e)] at hv hs
    rcases exec_rows hok hx hm with hw | ⟨y, hy, hcont⟩
    · obtain ⟨d, rest', hd, -, -⟩ := List.map_eq_cons_iff.mp hs
      have hmem : d ∈ ownEvents u h := hd ▸ List.mem_cons_self
      obtain ⟨hdh, hdu⟩ := List.mem_filter.mp hmem
      obtain rfl : d.sess = u := by simpa using hdu
      exact (hf x hw).2 d hdh _ hv hn.symm
    · have hu : y.uniq = x.uniq := congrArg (·.2.1) hcont
      have hid : y.id = x.id := congrArg (·.1) hcont
      exact hid ▸ hi u _ hv y hy ((congrArg (·.1) hu).trans hn)

/-- every stored row is of the current generation of its namespace -/
def CacheDb.AllCurrent (db : CacheDb) : Prop :=
  ∀ x ∈ db.entries, db.generationOf x.namespace_ = some x.generation

theorem AllCurrent.step {s : Nat} {op : Op} {c : CacheCtx} {st : CacheStmt} {db db' : CacheDb}
    {r : st.Res} {h : List (CacheEvOf Op)} (hc : db.AllCurrent) (hi : LookupsHold db h)
      (hv : ViewsHold db h)
    (ho : Ordered call ⟨s, op, c, st, r, db⟩ h) (hf : WritesFresh ⟨s, op, c, st, r, db⟩ h)
    (hx : CacheStmt.exec s c st db = some (r, db')) : db'.AllCurrent := by
  intro x hm
  -- a row of the namespace's generation is still current after the statement, if it is there
  have hkeep : db.generationOf x.namespace_ = some x.generation →
      db'.generationOf x.namespace_ = some x.generation := by
    intro hg
    rcases exec_generation hx hg with h1 | ⟨⟨ids, rfl⟩, -⟩
    · exact h1
    · exfalso
      obtain ⟨-, hx⟩ := of_guard hx
      cases hx
      unfold CacheDb.bumpGeneration at hm
      rw [hg] at hm
      obtain ⟨hm, hp⟩ := List.mem_filter.mp hm
      obtain ⟨-, rest, hs⟩ := ho.follows
      have hview : (x.namespace_, ids) ∈ viewingAt (said (ownEvents s h)) := by
        rw [show said (ownEvents s h) = _ from hs.symm]
        exact Option.mem_some_self _
      rw [List.contains_iff_mem.mpr (hv s _ hview x hm rfl)] at hp
      have hlt : x.generation < x.generation + 1 := Int.lt_succ _
      simp [hlt] at hp
  rcases exec_rows ho.good.ok hx hm with hw | ⟨y, hy, hcont⟩
  · exact hkeep (fresh_generation (e := ⟨s, op, c, st, r, db⟩) hi ho hf hw)
  · have hu : y.uniq = x.uniq := congrArg (·.2.1) hcont
    have h1 : y.namespace_ = x.namespace_ := congrArg (·.1) hu
    have h2 : y.generation = x.generation := congrArg (·.2.1) hu
    apply hkeep
    rw [← h1, ← h2]
    exact hc y hy

end

/-- **No superseded rows**, in every run whose writes are fresh. -/
theorem cache_no_superseded {σ : CacheSys} (hr : CacheReach σ) (hf : Always WritesFresh σ.hist) :
    ∀ x ∈ σ.db.entries, σ.db.generationOf x.namespace_ = some x.generation := by
  have hord : Always (Ordered id) σ.hist := cache_follows id hr
  have h := hr.invariant_of (fun e h => WritesFresh e h ∧ Ordered id e h)
    (fun db h => db.AllCurrent ∧ LookupsHold db h ∧ ViewsHold db h)
    ⟨fun x hx => (by cases hx), fun h₁ e h₂ ns g heq => (by cases h₁ <;> cases heq),
      fun s v hv => (by cases hv)⟩
    (fun db h s op c st r db' hi hp hx =>
      ⟨AllCurrent.step hi.1 hi.2.1 hi.2.2 hp.2 hp.1 hx, hi.2.1.step hx,
        hi.2.2.step hp.2.good.ok hp.1 hx⟩) (hf.and hord)
  exact h.1

/-- a write, an invalidation, and a write in the new generation -/
def invalidatedBetween : List (Act CacheCall CacheCtx) :=
  whole 0 ⟨unbounded sampleHash, 0, .set "app" "a" [1] none⟩ ⟨0, id⟩ 8 ++
    whole 1 ⟨unbounded sampleHash, 0, .invalidateNamespace "app"⟩ ⟨1, id⟩ 3 ++
    whole 0 ⟨unbounded sampleHash, 0, .set "app" "a" [2] none⟩ ⟨2, id⟩ 8

theorem cache_no_superseded_rewritten : ∃ σ : CacheSys, CacheReach σ ∧ Always WritesFresh σ.hist ∧
    σ.db.entries.map (fun x => (x.namespace_, x.generation)) = [("app", 1)] ∧
    ∀ x ∈ σ.db.entries, σ.db.generationOf x.namespace_ = some x.generation := by
  have h : ((Sys.init CacheDb.empty).play CacheStmt.exec CacheCall.body invalidatedBetween).map
      (fun σ : CacheSys => (decide (Always WritesFresh σ.hist),
        σ.db.entries.map (fun x => (x.namespace_, x.generation))))
          = some (true, [("app", 1)]) := by rfl
  obtain ⟨σ, hplay, heq⟩ := Option.map_eq_some_iff.mp h
  simp only [Prod.mk.injEq, decide_eq_true_eq] at heq
  have hr : CacheReach σ := Sys.play_steps hplay
  exact ⟨σ, hr, heq.1, heq.2, cache_no_superseded hr heq.1⟩

/-- a writer that has looked up generation 0 inserts after the invalidation -/
def insertedLate : List (Act CacheCall CacheCtx) :=
  [.call 0 ⟨unbounded sampleHash, 0, .set "app" "a" [1] none⟩, .stmt 0 ⟨0, id⟩, .stmt 0 ⟨0, id⟩] ++
    whole 1 ⟨unbounded sampleHash, 0, .invalidateNamespace "app"⟩ ⟨1, id⟩ 3 ++
    List.replicate 6 (.stmt 0 ⟨2, id⟩) ++ [.ret 0]

/-- all calls have returned, and a row of generation 0 is left in generation 1 -/
theorem cache_no_superseded_insertedLate : ∃ σ : CacheSys, CacheReach σ ∧ (∀ s, σ.prog s = none) ∧
    ∃ x ∈ σ.db.entries, ∃ g, σ.db.generationOf x.namespace_ = some g ∧ x.generation < g := by
  have h : ((Sys.init CacheDb.empty).play CacheStmt.exec CacheCall.body insertedLate).map
      (fun σ : CacheSys => (σ.db.entries.map (fun x => (x.namespace_, x.generation)),
        σ.db.generationOf "app", (σ.prog 0).isNone, (σ.prog 1).isNone))
      = some ([("app", 0)], some 1, true, true) := by rfl
  obtain ⟨σ, hplay, heq⟩ := Option.map_eq_some_iff.mp h
  simp only [Prod.mk.injEq, Option.isNone_iff_eq_none] at heq
  obtain ⟨hrows, hg, h0, h1⟩ := heq
  refine ⟨σ, Sys.play_steps hplay, fun s => ?_, ?_⟩
  · by_cases e : s < 2
    · interval_cases s
      · exact h0
      · exact h1
    · have hs : ∀ a ∈ insertedLate, a.sess < 2 := by decide
      exact Sys.play_other hplay fun a ha => ne_of_lt (lt_of_lt_of_le (hs a ha) (not_lt.mp e))
  · obtain ⟨x, rest, he, hx, -⟩ := List.map_eq_cons_iff.mp hrows
    simp only [Prod.mk.injEq] at hx
    refine ⟨x, by rw [he]; exact List.mem_cons_self, 1, ?_, ?_⟩
    · rw [hx.1]
      exact hg
    · rw [hx.2]
      decide

end PgApp
