import PgApp.Cache.Programs
import PgApp.Cache.Capacity
import PgApp.Cache.Simulation

/-!
# What a sweep removes

The sweep picks expired rows in one query and deletes them by id: under READ COMMITTED the DELETE
finds whatever version of the rows there is then.  `cache_sweep` says when all it deletes has
expired: nobody else has meanwhile given a picked row a later expiry (`LeavesPicked`).
-/

namespace PgApp
open Interleave

/-- the rows the session's sweep has picked and is about to delete, and the sweep's `now()` -/
def sweepOf (s : Nat) (h : List CacheEv) : Option (List Int × Time) :=
  match ownEvents s h with
  | ⟨_, _, c, .doomed _, .ok ids, _⟩ :: _ => some (ids, c.now)
  | _ => none

/-- the session is about to delete the row its eviction has picked -/
def evictionOf (s : Nat) (h : List CacheEv) : Option (List Int) :=
  match ownEvents s h with
  | ⟨_, _, _, .victim _ _, id, _⟩ :: _ => some id.toList
  | _ => none

/-- the statement gives no row that a sweep has picked an expiry that the sweep does not know of -/
def LeavesPicked (e : CacheEv) (h : List CacheEv) : Prop :=
  ∀ d ∈ h, ∀ p ∈ sweepOf d.sess h, ∀ x ∈ e.stmt.written e.sess e.ctx e.pre,
    x.id ∈ p.1 → x.expired p.2 = true

instance (e : CacheEv) (h : List CacheEv) : Decidable (LeavesPicked e h) :=
  inferInstanceAs (Decidable (∀ d ∈ h, ∀ p ∈ sweepOf d.sess h,
    ∀ x ∈ e.stmt.written e.sess e.ctx e.pre, x.id ∈ p.1 → x.expired p.2 = true))

/-- a DELETE by ids is that of a sweep, and the rows it deletes have expired, or that of an
eviction -/
def SweepsExpired (e : CacheEv) (h : List CacheEv) : Prop :=
  ∀ ids, e.stmt = .deleteIds ids →
    (∃ now, sweepOf e.sess h = some (ids, now) ∧
      ∀ x ∈ e.pre.entries, x.id ∈ ids → x.expired now = true) ∨
    evictionOf e.sess h = some ids

theorem sweepOf_cons_ne {s : Nat} {e : CacheEv} {h : List CacheEv} (he : e.sess ≠ s) :
    sweepOf s (e :: h) = sweepOf s h := by
  unfold sweepOf
  rw [ownEvents_cons_ne he]

theorem sweepOf_mem {s : Nat} {h : List CacheEv} {p : List Int × Time} (hs : sweepOf s h = some p) :
    ∃ d ∈ h, d.sess = s := by
  unfold sweepOf at hs
  split at hs
  · rename_i s' op c limit ids db l heq
    have hm : (⟨s', op, c, .doomed limit, .ok ids, db⟩ : CacheEv) ∈ ownEvents s h := by
      rw [heq]
      exact List.mem_cons_self
    obtain ⟨hm, hp⟩ := List.mem_filter.mp hm
    exact ⟨_, hm, by simpa using hp⟩
  · cases hs

theorem sweepOf_cons_self {e : CacheEv} {h : List CacheEv} {p : List Int × Time}
    (hs : sweepOf e.sess (e :: h) = some p) :
    ∃ limit, e.stmt = .doomed limit ∧ e.ctx.now = p.2 ∧
      (⟨e.stmt, e.res⟩ : Said) = ⟨.doomed limit, .ok p.1⟩ := by
  unfold sweepOf at hs
  rw [ownEvents_cons_self rfl] at hs
  split at hs
  · rename_i s' op c limit ids db l heq
    obtain ⟨rfl, -⟩ := List.cons.inj heq
    cases hs
    exact ⟨limit, rfl, rfl, rfl⟩
  · cases hs

theorem doomed_expired {db db' : CacheDb} (hok : db.Ok) {s : Nat} {c : CacheCtx} {limit : Int}
    {ids : List Int} (hx : CacheStmt.exec s c (.doomed limit) db = some (.ok ids, db'))
    {x : EntryRow} (hm : x ∈ db'.entries) (hi : x.id ∈ ids) : x.expired c.now = true := by
  have h1 : some (db.doomed limit c, db) = some (.ok ids, db') := hx
  simp only [Option.some.injEq, Prod.mk.injEq] at h1
  obtain ⟨h1, rfl⟩ := h1
  unfold CacheDb.doomed at h1
  split at h1
  · cases h1
  · cases h1
    exact expired_of_doomed (c := c) hok hm hi

/-- what the sweeps under way rely on -/
def PickedExpired (db : CacheDb) (h : List CacheEv) : Prop :=
  ∀ s p, sweepOf s h = some p → ∀ x ∈ db.entries, x.id ∈ p.1 → x.expired p.2 = true

theorem PickedExpired.step {db db' : CacheDb} {h : List CacheEv} {s : Nat} {op : CacheCall}
    {c : CacheCtx} {st : CacheStmt} {r : st.Res} (hok : db.Ok) (hi : PickedExpired db h)
    (hl : LeavesPicked ⟨s, op, c, st, r, db⟩ h) (hx : CacheStmt.exec s c st db = some (r, db')) :
    PickedExpired db' (⟨s, op, c, st, r, db⟩ :: h) := by
  intro u p hu x hm hid
  by_cases e : s = u
  · subst e
    obtain ⟨limit, hst, hnow, heq⟩ := sweepOf_cons_self (e := ⟨s, op, c, st, r, db⟩) hu
    have hst' : st = .doomed limit := hst
    subst hst'
    have hr : r = .ok p.1 := by simpa using heq
    subst hr
    rw [← hnow]
    exact doomed_expired hok hx hm hid
  · rw [sweepOf_cons_ne (e := ⟨s, op, c, st, r, db⟩) e] at hu
    rcases exec_rows hok hx hm with hw | ⟨y, hy, hc⟩
    · obtain ⟨d, hd, rfl⟩ := sweepOf_mem hu
      exact hl d hd p hu x hw hid
    · have h1 : y.id = x.id := congrArg (·.1) hc
      have h2 : y.expiresAt = x.expiresAt := congrArg (·.2.2.2.2.1) hc
      have h3 := hi u p hu y hy (h1 ▸ hid)
      unfold EntryRow.expired at h3 ⊢
      rw [← h2]
      exact h3

/-- **Sweeps remove what has expired**, in every run that leaves the rows alone that a sweep has
picked. -/
theorem cache_sweep {σ : CacheSys} (hr : CacheReach σ) (hl : Always LeavesPicked σ.hist) :
    Always SweepsExpired σ.hist := by
  have hord : Always (Ordered id) σ.hist := cache_follows id hr
  have hpicked := hr.before_of (fun e h => LeavesPicked e h ∧ Ordered id e h) PickedExpired
    (fun s p h => (by cases h)) (fun db h s op c st r db' hi hp hx => hi.step hp.2.good.ok hp.1 hx)
    (hl.and hord)
  refine (hpicked.and hord).mono fun e h ⟨hi, ho⟩ ids hst => ?_
  obtain ⟨s, op, c, st, r, db⟩ := e
  have hst' : st = .deleteIds ids := hst
  subst hst'
  rcases ho.follows with ⟨limit, hp⟩ | ⟨ns, g, id, x, o, l, rfl, hp, -⟩
  · -- the session's last statement was the query of the sweep
    have hs : ∃ now, sweepOf s h = some (ids, now) := by
      obtain ⟨l, hl⟩ := hp
      have hl' : ⟨.doomed limit, .ok ids⟩ :: l = said (ownEvents s h) := hl
      unfold sweepOf
      cases ho : ownEvents s h with
      | nil => rw [ho] at hl'; cases hl'
      | cons d rest =>
        rw [ho] at hl'
        obtain ⟨hd, -⟩ := List.cons.inj hl'
        obtain ⟨s', op', c', st', r', db'⟩ := d
        cases hd
        exact ⟨c'.now, rfl⟩
    obtain ⟨now, hs⟩ := hs
    exact .inl ⟨now, hs, fun x hx hid => hi s _ hs x hx hid⟩
  · refine .inr ?_
    have hp' : said (ownEvents s h) = ⟨.victim ns g, id⟩ :: l := hp
    unfold evictionOf
    cases ho : ownEvents s h with
    | nil => rw [ho] at hp'; cases hp'
    | cons d rest =>
      rw [ho] at hp'
      obtain ⟨hd, -⟩ := List.cons.inj hp'
      obtain ⟨s', op', c', st', r', db'⟩ := d
      cases hd
      rfl

/-- a key for a second, and a sweep five seconds later -/
def sweepLater : List (Act CacheCall CacheCtx) :=
  whole 0 ⟨unbounded sampleHash, 0, .set "app" "a" [1] (some 1)⟩ ⟨0, id⟩ 8 ++
    [.call 1 ⟨unbounded sampleHash, 0, .sweepExpired 10⟩, .stmt 1 ⟨5000000, id⟩]

theorem cache_sweep_alone : ∃ σ : CacheSys, CacheReach σ ∧ Always LeavesPicked σ.hist ∧
    σ.db.entries.length = 0 ∧ Always SweepsExpired σ.hist := by
  have h : ((Sys.init CacheDb.empty).play CacheStmt.exec CacheCall.body
      (sweepLater ++ [.stmt 1 ⟨5000000, id⟩])).map
      (fun σ : CacheSys => (decide (Always LeavesPicked σ.hist), σ.db.entries.length))
      = some (true, 0) := by rfl
  obtain ⟨σ, hplay, heq⟩ := Option.map_eq_some_iff.mp h
  simp only [Prod.mk.injEq, decide_eq_true_eq] at heq
  have hr : CacheReach σ := Sys.play_steps hplay
  exact ⟨σ, hr, heq.1, heq.2, cache_sweep hr heq.1⟩

/-- the key is set again between the query of the sweep and its DELETE -/
def sweepRefreshed : List (Act CacheCall CacheCtx) :=
  sweepLater ++ .call 0 ⟨unbounded sampleHash, 0, .set "app" "a" [2] none⟩ ::
    (List.replicate 3 (.stmt 0 ⟨5000000, id⟩) ++ [.stmt 1 ⟨5000000, id⟩])

/-- what the DELETE of the sweep finds -/
def sweptRows (now : Time) (h : List CacheEv) :
    Option (List Int × Option (List Int × Time) × Option (List Int) × List (Int × Bool)) :=
  match h with
  | ⟨s, _, _, .deleteIds ids, _, db⟩ :: h =>
    some (ids, sweepOf s h, evictionOf s h, db.entries.map fun x => (x.id, x.expired now))
  | _ => none

/-- the value just written is lost -/
theorem cache_sweep_refreshed : ∃ σ : CacheSys, CacheReach σ ∧ ¬ Always SweepsExpired σ.hist := by
  have h : ((Sys.init CacheDb.empty).play CacheStmt.exec CacheCall.body sweepRefreshed).map
      (fun σ : CacheSys => sweptRows 5000000 σ.hist)
      = some (some ([1], some ([1], 5000000), none, [(1, false)])) := by rfl
  obtain ⟨σ, hplay, heq⟩ := Option.map_eq_some_iff.mp h
  refine ⟨σ, Sys.play_steps hplay, fun hal => ?_⟩
  unfold sweptRows at heq
  split at heq
  · rename_i s op c ids r db hist hh
    rw [hh] at hal
    simp only [Option.some.injEq, Prod.mk.injEq] at heq
    obtain ⟨rfl, hs, hev, hrows⟩ := heq
    rcases hal.1 [1] rfl with ⟨now, hsw, hexp⟩ | hev'
    · rw [hs] at hsw
      cases hsw
      obtain ⟨x, rest, he, hx, -⟩ := List.map_eq_cons_iff.mp hrows
      simp only [Prod.mk.injEq] at hx
      have h1 := hexp x (by rw [he]; exact List.mem_cons_self)
        (by rw [hx.1]; exact List.mem_cons_self)
      rw [hx.2] at h1
      cases h1
    · rw [hev] at hev'
      cases hev'
  · cases heq

end PgApp
