import PgApp.Cache.Generations

/-!
# `set_nx` as a lock

* `Creates`            the commit of a `set_nx` that has inserted its row;
* `Removed`            the ways in which a stored row goes: a delete, a sweep or an eviction (DELETE
by
                       ids), an invalidation, or the commit of a write that had found it expired;
* `published_stays`    a published row is there until it is removed;
* `cache_setNx`        between two creations of one key in one generation the first row was removed;
a
                       creation finds no live row; a `set_nx` that answers false changes no row.
-/

namespace PgApp
open Interleave

/-- the statement is the commit of a `set_nx`, and publishes the row `x` -/
def Creates (e : CacheEv) (x : EntryRow) : Prop :=
  e.stmt = .commit ∧ (∃ key v ttl, e.op.op = .setNx x.namespace_ key v ttl ∧ x.cacheKey = key ∧
    x.keyHash = e.op.store.hashKey key ∧ x.valueBytes = v) ∧ x ∈ publishedBy e

/-- the statement takes the stored row `z` away -/
def Removed (e : CacheEv) (z : EntryRow) : Prop :=
  z ∈ e.pre.entries ∧ match e.stmt with
    | .deleteKey ns g keyHash key => z.isKey ns g keyHash key = true
    | .deleteIds ids => z.id ∈ ids
    | .bumpGeneration ns ids => z.namespace_ = ns ∧ z.id ∈ ids
    | .commit => ∃ t, e.pre.txs.get e.sess = some t ∧ z.id ∈ t.gone ∧ z.expired t.startedAt = true
    | _ => False

/-- the statement leaves all rows as they are -/
def LeavesRows (e : CacheEv) : Prop :=
  ∀ db', CacheStmt.exec e.sess e.ctx e.stmt e.pre = some (e.res, db') → db'.entries = e.pre.entries

/-! ## commits -/

section
variable {Op : Type} {call : Op → CacheCall} {e : CacheEvOf Op} {h : List (CacheEvOf Op)}

theorem commit_gone (ho : Ordered call e h) (hst : e.stmt = .commit) {t : CacheTx}
    (ht : e.pre.txs.get e.sess = some t) {z : EntryRow} (hz : z ∈ e.pre.entries)
    (hg : z.id ∈ t.gone) : z.expired t.startedAt = true := by
  have hf := ho.follows
  rw [hst] at hf
  obtain ⟨ns, g, k, key, t', -, -, hcases⟩ := hf
  have hclear : ∀ {advisory}, Clearing (ownView e.sess e.pre h) ns g k key advisory t' →
      z.expired t.startedAt = true := by
    intro advisory hc
    have htx : some t = some t' := ht.symm.trans hc.tx
    cases htx
    obtain ⟨x, ⟨hx, -⟩, hid, -, he⟩ := hc.gone _ hg
    rw [← eq_of_id ho.good.ok.ids hx hz hid]
    exact he
  rcases hcases with ⟨v, ttl, -, htx, hgone, -⟩ | ⟨v, ttl, i, -, hc, -⟩ | ⟨a, v, i, -, -, hc, -⟩ |
    ⟨a, v, id, old, y, -, -, hc, -⟩
  · have htx' : some t = some t' := ht.symm.trans htx
    cases htx'
    rw [hgone] at hg
    cases hg
  · exact hclear hc
  · exact hclear hc
  · exact hclear hc

/-- the commit of a `set_nx` that had found a row: nothing to do -/
theorem commit_refused (ho : Ordered call e h) (hst : e.stmt = .commit) {ns : String} {g : Int}
    {k key : String} {v : Bytes} {ttl : Option Int} {l : List Said}
    (hs : said (ownEvents e.sess h) = ⟨.insertIfAbsent ns g k key v ttl, .ok 0⟩ :: l) :
    ∃ t, e.pre.txs.get e.sess = some t ∧ t.gone = [] ∧ t.rows = [] := by
  have hf := ho.follows
  rw [hst] at hf
  obtain ⟨ns', g', k', key', t, -, -, hcases⟩ := hf
  rcases hcases with ⟨v', ttl', -, htx, hgone, hrows, -⟩ | ⟨v', ttl', i, -, -, -, -, m, hm⟩ |
    ⟨a, v', i, -, -, -, -, -, m, hm⟩ | ⟨a, v', id, old, y, -, -, -, -, -, m, hm⟩
  · exact ⟨t, htx, hgone, hrows⟩
  · have h1 := (List.cons.inj (hm.trans hs)).1
    cases h1
  · have h1 := congrArg Sigma.fst (List.cons.inj (hm.trans hs)).1
    cases h1
  · have h1 := congrArg Sigma.fst (List.cons.inj (hm.trans hs)).1
    cases h1

/-- the commit of a `set_nx` that has inserted a row -/
theorem commit_created (ho : Ordered call e h) (hst : e.stmt = .commit) {ns : String} {g : Int}
    {k key : String} {v : Bytes} {ttl : Option Int} {l : List Said}
    (hs : said (ownEvents e.sess h) = ⟨.insertIfAbsent ns g k key v ttl, .ok 1⟩ :: l) :
    ∃ t i, e.pre.txs.get e.sess = some t ∧ (call e.op).op = .setNx ns key v ttl ∧
      k = (call e.op).store.hashKey key ∧ t.rows = [newEntry i ns g k key v ttl t.startedAt] := by
  have hf := ho.follows
  rw [hst] at hf
  obtain ⟨ns', g', k', key', t, -, hk, hcases⟩ := hf
  rcases hcases with ⟨v', ttl', -, htx, hgone, hrows, m, hm⟩ |
    ⟨v', ttl', i, hop, hc, hrows, -, m, hm⟩ | ⟨a, v', i, -, -, -, -, -, m, hm⟩ |
    ⟨a, v', id, old, y, -, -, -, -, -, m, hm⟩
  · have h1 := (List.cons.inj (hm.trans hs)).1
    cases h1
  · have h1 := (List.cons.inj (hm.trans hs)).1
    cases h1
    exact ⟨t, i, hc.tx, hop, hk, hrows⟩
  · have h1 := congrArg Sigma.fst (List.cons.inj (hm.trans hs)).1
    cases h1
  · have h1 := congrArg Sigma.fst (List.cons.inj (hm.trans hs)).1
    cases h1

end

theorem removed_of {e : CacheEv} {h : List CacheEv} (ho : Ordered id e h) {z : EntryRow}
    (hz : z ∈ e.pre.entries) (hr : e.stmt.removes e.sess e.pre z) : Removed e z := by
  refine ⟨hz, ?_⟩
  obtain ⟨s, op, c, st, r, db⟩ := e
  cases st with
  | deleteKey _ _ _ _ | deleteIds _ | bumpGeneration _ _ => exact hr
  | commit =>
    obtain ⟨t, ht, hg⟩ := hr
    exact ⟨t, ht, hg, commit_gone ho rfl ht hz hg⟩
  | _ => exact hr

theorem published_mem {s : Nat} {c : CacheCtx} {st : CacheStmt} {db db' : CacheDb} {r : st.Res}
    (hok : db.Ok) (hx : CacheStmt.exec s c st db = some (r, db')) {x : EntryRow}
    (hm : x ∈ st.written s c db) : x ∈ db'.entries := by
  cases st with
  | upsertEntry ns g k key v ttl =>
    obtain ⟨hfits, hm, -⟩ := mem_written_upsert.mp hm
    rcases exec_upsertEntry hx with ⟨hno, -⟩ | ⟨-, -, -, rfl⟩
    · exact absurd hfits hno
    · exact hm
  | commit =>
    cases hx
    cases ht : db.txs.get s with
    | none =>
      simp only [CacheStmt.written, ht] at hm
      cases hm
    | some t =>
      simp only [CacheStmt.written, ht] at hm
      simp only [CacheDb.commit, ht]
      exact (hok.tx s t ht).mem_apply.mpr (.inl hm)
  | _ => cases hm

/-- **A published row stays until it is removed.** -/
def PublishedStays (db : CacheDb) (h : List CacheEv) : Prop :=
  ∀ h₁ e h₂ x, h = h₁ ++ e :: h₂ → x ∈ publishedBy e →
    (∃ z ∈ db.entries, z.id = x.id ∧ z.uniq = x.uniq) ∨ ∃ d ∈ h₁, ∃ z, z.id = x.id ∧ Removed d z

theorem PublishedStays.step {s : Nat} {op : CacheCall} {c : CacheCtx} {st : CacheStmt}
    {db db' : CacheDb} {r : st.Res} {h : List CacheEv} (hi : PublishedStays db h)
    (ho : Ordered id ⟨s, op, c, st, r, db⟩ h) (hx : CacheStmt.exec s c st db = some (r, db')) :
    PublishedStays db' (⟨s, op, c, st, r, db⟩ :: h) := by
  intro h₁ e h₂ x heq hm
  cases h₁ with
  | nil =>
    obtain ⟨rfl, -⟩ := List.cons.inj heq
    exact .inl ⟨x, published_mem ho.good.ok hx hm, rfl, rfl⟩
  | cons d h₁ =>
    obtain ⟨rfl, heq'⟩ := List.cons.inj heq
    rcases hi h₁ e h₂ x heq' hm with ⟨z, hz, hid, hu⟩ | ⟨d, hd, z, hid, hrem⟩
    · rcases exec_kept ho.good.ok hx hz with hrem | ⟨y, hy, hyid, hyu⟩
      · exact .inr ⟨_, List.mem_cons_self, z, hid, removed_of ho hz hrem⟩
      · exact .inl ⟨y, hy, hyid.trans hid, hyu.trans hu⟩
    · exact .inr ⟨d, List.mem_cons_of_mem _ hd, z, hid, hrem⟩

theorem published_stays {σ : CacheSys} (hr : CacheReach σ) :
    Always (fun e h => PublishedStays e.pre h) σ.hist :=
  hr.before_of (Ordered id) PublishedStays
    (fun h₁ e h₂ x heq => (by cases h₁ <;> cases heq))
    (fun _ _ _ _ _ _ _ _ hi ho hx => hi.step ho hx) (cache_follows id hr)

/-! ## creations -/

/-- a row of the key that is stored when a `set_nx` creates its own has expired -/
theorem creates_expired {e : CacheEv} {h : List CacheEv} (ho : Ordered id e h) {x : EntryRow}
    (hc : Creates e x) {z : EntryRow} (hz : z ∈ e.pre.entries) (hu : z.uniq = x.uniq) :
    ∃ t, e.pre.txs.get e.sess = some t ∧ z.id ∈ t.gone ∧ z.expired t.startedAt = true := by
  obtain ⟨hst, ⟨key, v, ttl, hop, -⟩, hm⟩ := hc
  have hf := ho.follows
  rw [hst] at hf
  obtain ⟨ns, g, k, key', t, -, -, hcases⟩ := hf
  have hrow : e.pre.txs.get e.sess = some t → x ∈ t.rows := by
    intro htx
    unfold publishedBy at hm
    rw [hst] at hm
    simp only [CacheStmt.written, htx] at hm
    exact hm
  have hnew : ∀ {advisory} {i : Int} {y : EntryRow},
      Clearing (ownView e.sess e.pre h) ns g k key' advisory t → t.rows = [y] → y.id = i →
      Unused (ownView e.sess e.pre h) i →
      ∃ t, e.pre.txs.get e.sess = some t ∧ z.id ∈ t.gone ∧ z.expired t.startedAt = true := by
    intro advisory i y hcl hrows hyi hun
    have hx := hrow hcl.tx
    have o := ho.good.ok.tx e.sess t hcl.tx
    rcases o.alone x hx z hz hu with hid | hg
    · -- its id is not in the table
      exfalso
      rw [hrows, List.mem_singleton] at hx
      refine hun z ⟨hz, t, hcl.tx, CacheTx.holdsRow_iff.mpr (.inr (.inr ⟨y, ?_, ?_⟩))⟩ ?_
      · rw [hrows]
        exact List.mem_cons_self
      · rw [hid, hx]
      · rw [hid, hx, hyi]
    · exact ⟨t, hcl.tx, hg, commit_gone ho hst hcl.tx hz hg⟩
  rcases hcases with ⟨v', ttl', -, htx, -, hrows, -⟩ | ⟨v', ttl', i, -, hcl, hrows, hun, -⟩ |
    ⟨a, v', i, -, -, hcl, hrows, hun, -⟩ | ⟨a, v', id, old, y, hat, -⟩
  · have h1 := hrow htx
    rw [hrows] at h1
    cases h1
  · exact hnew hcl hrows rfl hun
  · exact hnew hcl hrows rfl hun
  · have hop' : e.op.op = .setNx x.namespace_ key v ttl := hop
    have hat' : e.op.op.atomic = true := hat
    rw [hop'] at hat'
    cases hat'

/-- what the commit of a `set_nx` publishes -/
theorem creates_of_said {e : CacheEv} {h : List CacheEv} (ho : Ordered id e h)
    (hst : e.stmt = .commit) {ns : String} {g : Int} {k key : String} {v : Bytes} {ttl : Option Int}
    {l : List Said}
    (hs : said (ownEvents e.sess h) = ⟨.insertIfAbsent ns g k key v ttl, .ok 1⟩ :: l) :
    ∃ x, Creates e x ∧ x.namespace_ = ns ∧ x.generation = g ∧ x.cacheKey = key := by
  obtain ⟨t, i, ht, hop, hk, hrows⟩ := commit_created ho hst hs
  refine ⟨newEntry i ns g k key v ttl t.startedAt, ⟨hst, ⟨key, v, ttl, hop, rfl, hk, rfl⟩, ?_⟩, rfl,
    rfl, rfl⟩
  unfold publishedBy
  rw [hst]
  simp only [CacheStmt.written, ht, hrows]
  exact List.mem_cons_self

theorem leavesRows_of {e : CacheEv}
    (h : e.stmt.inside = true ∨ e.stmt = .begin ∨ (∃ ns, e.stmt = .selectGeneration ns) ∨
      (∃ ns, e.stmt = .ensureNamespace ns) ∨
      (e.stmt = .commit ∧ ∃ t, e.pre.txs.get e.sess = some t ∧ t.gone = [] ∧ t.rows = [])) :
    LeavesRows e := by
  intro db' hx
  obtain ⟨s, op, c, st, r, db⟩ := e
  rcases h with hi | hst | ⟨ns, hst⟩ | ⟨ns, hst⟩ | ⟨hst, t, ht, hg, hr⟩
  · obtain ⟨_, ho⟩ := exec_inside hx hi
    exact ho.entries
  · obtain rfl : st = .begin := hst
    cases hx
    rfl
  · obtain rfl : st = .selectGeneration ns := hst
    have hx' : some (db.generationOf ns, db) = some (r, db') := hx
    simp only [Option.some.injEq, Prod.mk.injEq] at hx'
    rw [← hx'.2]
  · obtain rfl : st = .ensureNamespace ns := hst
    cases hx
    show (db.ensureNamespace ns c.now).entries = _
    unfold CacheDb.ensureNamespace
    split <;> rfl
  · obtain rfl : st = .commit := hst
    have ht' : db.txs.get s = some t := ht
    cases hx
    show (db.commit s).entries = _
    simp only [CacheDb.commit, ht']
    exact apply_of_empty hg hr _

theorem stmt_inside {d : CacheEv} {x : Said} (h : (⟨d.stmt, d.res⟩ : Said) = x)
    (hx : x.1.inside = true) : d.stmt.inside = true := by
  cases h
  exact hx

/-- what the statements of a `set_nx` were -/
def SetNxEffect (call : CacheCall) (r : PgAppResult CacheReturn) (part : List CacheEv) : Prop :=
  ∀ ns key v ttl, call.op = .setNx ns key v ttl →
    (r = .ok (.bool true) → ∃ e ∈ part, ∃ x, Creates e x ∧ x.namespace_ = ns ∧ x.cacheKey = key) ∧
    (r = .ok (.bool false) → ∀ e ∈ part, LeavesRows e)

theorem setNx_effect {σ : CacheSys} (hr : CacheReach σ) {s : Nat} {call : CacheCall}
    {r : PgAppResult CacheReturn} {a part b : List CacheEv} (ha : Answered call r part)
    (hown : ownEvents s σ.hist = a ++ part ++ b) : SetNxEffect call r part := by
  intro ns key v ttl hop
  obtain ⟨store, rounds, o⟩ := call
  obtain rfl : o = .setNx ns key v ttl := hop
  constructor
  · rintro rfl
    obtain ⟨g, ⟨-, tail, body, rfl, -, hb⟩ | ⟨h, -⟩⟩ := ha
    · -- the commit is the newest statement of the body
      obtain ⟨e, rest, rfl, he, hrest⟩ := List.map_eq_cons_iff.mp hb
      have hown' : ownEvents s σ.hist = (a ++ tail) ++ e :: (rest ++ b) := by
        rw [hown]
        simp
      obtain ⟨h₁, h₂, -, ho, h2, hs⟩ := ordered_of_own id hr hown'
      have hsaid : said (ownEvents e.sess h₂)
          = ⟨.insertIfAbsent ns g (store.hashKey key) key v ttl, .ok 1⟩ ::
            (afterClear ns g (store.hashKey key) key (afterBegin ns g) ++ said b) := by
        rw [hs, h2, said_append]
        show said rest ++ _ = _
        have hr' : said rest = _ := hrest
        rw [hr']
        rfl
      obtain ⟨x, hx, h3, -, h4⟩ := creates_of_said ho (congrArg Sigma.fst he) hsaid
      exact ⟨e, by simp, x, hx, h3, h4⟩
    · cases h
  · rintro rfl
    obtain ⟨g, ⟨h, -⟩ | ⟨-, hb⟩⟩ := ha
    · cases h
    · obtain ⟨e, rest, rfl, he, hrest⟩ := List.map_eq_cons_iff.mp hb
      intro d hd
      rcases List.mem_cons.mp hd with rfl | hd
      · have hown' : ownEvents s σ.hist = a ++ d :: (rest ++ b) := by
          rw [hown]
          simp
        obtain ⟨h₁, h₂, -, ho, h2, hs⟩ := ordered_of_own id hr hown'
        have hsaid : said (ownEvents d.sess h₂)
            = ⟨.insertIfAbsent ns g (store.hashKey key) key v ttl, .ok 0⟩ ::
              (afterClear ns g (store.hashKey key) key (afterBegin ns g) ++ said b) := by
          rw [hs, h2, said_append]
          have hr' : said rest = _ := hrest
          rw [hr']
          rfl
        exact leavesRows_of (.inr (.inr (.inr (.inr ⟨congrArg Sigma.fst he,
          commit_refused ho (congrArg Sigma.fst he) hsaid⟩))))
      · have hm : (⟨d.stmt, d.res⟩ : Said) ∈ said rest := List.mem_map.mpr ⟨d, hd, rfl⟩
        have hr' : said rest = _ := hrest
        rw [hr'] at hm
        apply leavesRows_of
        simp only [List.mem_cons, afterClear, afterBegin, afterRead, List.not_mem_nil,
          or_false] at hm
        rcases hm with h | h | h | h | h
        · exact .inl (stmt_inside h rfl)
        · exact .inl (stmt_inside h rfl)
        · exact .inr (.inl (congrArg Sigma.fst h))
        · exact .inr (.inr (.inl ⟨ns, congrArg Sigma.fst h⟩))
        · exact .inr (.inr (.inr (.inl ⟨ns, congrArg Sigma.fst h⟩)))

/-- between two creations of one key in one generation the first row was removed -/
def CreatedOnce (e : CacheEv) (h : List CacheEv) : Prop :=
  ∀ y, Creates e y → ∀ h₁ d h₂ x, h = h₁ ++ d :: h₂ → Creates d x → x.uniq = y.uniq →
    ∃ b ∈ e :: h₁, ∃ z, z.id = x.id ∧ Removed b z

/-- a row of the key that is stored when a `set_nx` creates its own is expired from then on -/
def CreatedWhenDead (e : CacheEv) : Prop :=
  ∀ y, Creates e y → ∀ z ∈ e.pre.entries, z.uniq = y.uniq →
    ∃ t, e.pre.txs.get e.sess = some t ∧ ∀ now, t.startedAt ≤ now → z.expired now = true

theorem expired_later {z : EntryRow} {now now' : Time} (h : z.expired now = true)
    (hle : now ≤ now') :
    z.expired now' = true := by
  unfold EntryRow.expired at h ⊢
  cases hz : z.expiresAt with
  | none =>
    rw [hz] at h
    cases h
  | some t =>
    rw [hz] at h
    exact decide_eq_true (le_trans (of_decide_eq_true h) hle)

theorem created_once {e : CacheEv} {h : List CacheEv} (hi : PublishedStays e.pre h)
    (ho : Ordered id e h) : CreatedOnce e h := by
  intro y hy h₁ d h₂ x heq hx hu
  rcases hi h₁ d h₂ x heq hx.2.2 with ⟨z, hz, hid, hzu⟩ | ⟨b, hb, z, hid, hrem⟩
  · -- the row is still stored: it has expired, and goes with this commit
    obtain ⟨t, ht, hg, he⟩ := creates_expired ho hy hz (hzu.trans hu)
    refine ⟨e, List.mem_cons_self, z, hid, hz, ?_⟩
    rw [hy.1]
    exact ⟨t, ht, hg, he⟩
  · exact ⟨b, List.mem_cons_of_mem _ hb, z, hid, hrem⟩

theorem created_when_dead {e : CacheEv} {h : List CacheEv} (ho : Ordered id e h) :
    CreatedWhenDead e := by
  intro y hy z hz hu
  obtain ⟨t, ht, -, he⟩ := creates_expired ho hy hz hu
  exact ⟨t, ht, fun now hle => expired_later he hle⟩

/-- a lock for a second -/
def lockA (v : Bytes) : CacheCall := ⟨unbounded sampleHash, 0, .setNx "app" "a" v (some 1)⟩

/-- the lock is taken, refused half a second later, and taken by another once it has expired -/
def lockedTwice : List (Act CacheCall CacheCtx) :=
  whole 0 (lockA [1]) ⟨0, id⟩ 11 ++ whole 1 (lockA [2]) ⟨500000, id⟩ 6 ++
    whole 1 (lockA [2]) ⟨1000000, id⟩ 11

end PgApp
