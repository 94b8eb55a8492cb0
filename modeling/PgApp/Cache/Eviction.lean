import PgApp.Cache.Generations

/-!
# What an eviction removes

`enforce_capacity` counts the rows of the namespace once and then deletes one row after the other;
only its own deletions lower the count.  `cache_eviction` says when every DELETE of such a loop
finds the namespace over a limit: no other session takes rows or bytes away meanwhile
(`LeavesExcess`).

* `EvictionLoop`, `loopOf`   the loop a session is in, read off its own statements;
* `LoopHolds`                what it believes is true of the table.
-/

namespace PgApp
open Interleave

/-- the namespace is over a limit of the store -/
def CacheStore.Exceeded (store : CacheStore) (db : CacheDb) (ns : String) : Prop :=
  ∃ g, db.generationOf ns = some g ∧
    ((∃ m, store.limits.maxKeys = some m ∧ m < (db.rowsOf ns g).length) ∨
      ∃ m, store.limits.maxBytes = some m ∧ m < sumSizes (db.rowsOf ns g))

/-- the namespace whose row the statement evicts -/
def evictsFrom (e : CacheEv) (h : List CacheEv) : Option String :=
  match e.stmt, ownEvents e.sess h with
  | .deleteIds _, ⟨_, _, _, .victim ns _, _, _⟩ :: _ => some ns
  | _, _ => none

/-- **An eviction finds its namespace over a limit.** -/
def EvictsExcess (e : CacheEv) (h : List CacheEv) : Prop :=
  ∀ ns ∈ evictsFrom e h, e.op.store.Exceeded e.pre ns

/-! ## loops -/

/-- a loop: what it still has to remove.  After a DELETE it does not know the size. -/
structure EvictionLoop where
  ns : String
  generation : Int
  excessKeys : Int
  overBytes : Bool

/-- the loop after one more statement of its session -/
def EvictionLoop.after (store : CacheStore) : Said → Option EvictionLoop → Option EvictionLoop
  | ⟨.usage ns g, (n, b)⟩, _ => some ⟨ns, g, store.excessKeys n, store.overBytes b⟩
  | ⟨.victim _ _, _⟩, p => p
  | ⟨.deleteIds _, deleted⟩, some p =>
    if deleted = (0 : Nat) then none
    else some { p with
      excessKeys := store.asKeys (p.excessKeys - (deleted : Nat)), overBytes := false }
  | ⟨.incrementCounter .evictions _, _⟩, p => p
  | ⟨.byteSize ns g, b⟩, some p =>
    if ns = p.ns ∧ g = p.generation then some { p with overBytes := store.overBytes b } else none
  | _, _ => none

def loopOf (store : CacheStore) (l : List Said) : Option EvictionLoop :=
  l.foldr (EvictionLoop.after store) none

theorem loopOf_cons (store : CacheStore) (x : Said) (l : List Said) :
    loopOf store (x :: l) = EvictionLoop.after store x (loopOf store l) := rfl

/-- the loop a session is in, and its store -/
def evictingOf (s : Nat) (h : List CacheEv) : Option (CacheStore × EvictionLoop) :=
  match ownEvents s h with
  | [] => none
  | d :: l => (loopOf d.op.store (said (d :: l))).map fun p => (d.op.store, p)

theorem Evicting.no_bytes {store : CacheStore} {ns : String} {g x : Int} {o : Bool} {l : List Said}
    (h : Evicting store ns g x o l) (hm : store.limits.maxBytes = none) : o = false := by
  induction h with
  | start n b l => simp only [CacheStore.overBytes, hm]
  | keys h _ _ ih => exact ih
  | bytes b h _ ih => simp only [CacheStore.overBytes, hm]

theorem Evicting.loop {store : CacheStore} {ns : String} {g x : Int} {o : Bool} {l : List Said}
    (h : Evicting store ns g x o l) : loopOf store l = some ⟨ns, g, x, o⟩ := by
  induction h with
  | start n b l => rfl
  | @keys x o l id deleted h hd hm ih =>
    rw [loopOf_cons, loopOf_cons, loopOf_cons, ih, h.no_bytes hm]
    simp only [EvictionLoop.after, if_neg hd]
  | @bytes x o l id deleted b h hd ih =>
    rw [loopOf_cons, loopOf_cons, loopOf_cons, loopOf_cons, ih]
    simp only [EvictionLoop.after, if_neg hd, and_self, if_true]

theorem Evicting.lookup {store : CacheStore} {ns : String} {g x : Int} {o : Bool} {l : List Said}
    (h : Evicting store ns g x o l) :
    ∃ pre rest, l = pre ++ ⟨.selectGeneration ns, some g⟩ :: rest ∧
      ∀ y ∈ pre, y.1.looksUp = false := by
  induction h with
  | start n b l => exact ⟨[⟨.usage ns g, (n, b)⟩], l, rfl, by simp [CacheStmt.looksUp]⟩
  | @keys x o l id deleted h hd hm ih =>
    obtain ⟨pre, rest, rfl, hp⟩ := ih
    refine ⟨⟨.incrementCounter .evictions deleted, ()⟩ :: ⟨.deleteIds id.toList, deleted⟩ ::
      ⟨.victim ns g, id⟩ :: pre, rest, rfl, ?_⟩
    simpa [CacheStmt.looksUp] using hp
  | @bytes x o l id deleted b h hd ih =>
    obtain ⟨pre, rest, rfl, hp⟩ := ih
    refine ⟨⟨.byteSize ns g, b⟩ :: ⟨.incrementCounter .evictions deleted, ()⟩ ::
      ⟨.deleteIds id.toList, deleted⟩ :: ⟨.victim ns g, id⟩ :: pre, rest, rfl, ?_⟩
    simpa [CacheStmt.looksUp] using hp

/-! ## what a loop believes -/

/-- the statements of a loop, but for its count -/
def CacheStmt.evicts : CacheStmt → Bool
  | .victim _ _ | .deleteIds _ | .byteSize _ _ | .incrementCounter .evictions _ => true
  | _ => false

section
variable {store : CacheStore} {db db' : CacheDb}

/-- so many keys are excess of so many: under a negative maximum the count may have wrapped, but
then any key is -/
def KeysOver (store : CacheStore) (excess count : Int) : Prop :=
  ∃ m, store.limits.maxKeys = some m ∧ (m < 0 ∨ excess ≤ count - m)

theorem KeysOver.mono {excess n n' : Int} (h : KeysOver store excess n) (hle : n ≤ n') :
    KeysOver store excess n' := by
  obtain ⟨m, hm, hk⟩ := h
  exact ⟨m, hm, hk.imp id fun hk => by omega⟩

theorem keysOver_excessKeys {n : Int} (h : store.excessKeys n > 0) :
    KeysOver store (store.excessKeys n) n := by
  unfold CacheStore.excessKeys at h ⊢
  cases hm : store.limits.maxKeys with
  | none =>
    rw [hm] at h
    cases h
  | some m =>
    refine ⟨m, hm, ?_⟩
    by_cases hneg : m < 0
    · exact .inl hneg
    · right
      simp only [CacheStore.asKeys, hm, if_neg hneg]
      exact Int.le_refl _

theorem KeysOver.less {x n n' : Int} {deleted : Nat} (hx : x > 0 → KeysOver store x n)
    (hle : n ≤ n' + deleted) (hpos : store.asKeys (x - deleted) > 0) :
    KeysOver store (store.asKeys (x - deleted)) n' := by
  unfold CacheStore.asKeys at hpos ⊢
  cases hm : store.limits.maxKeys with
  | none =>
    simp only [hm] at hpos
    obtain ⟨m, hm', -⟩ := hx (by omega)
    rw [hm] at hm'
    cases hm'
  | some m =>
    refine ⟨m, hm, ?_⟩
    by_cases hneg : m < 0
    · exact .inl hneg
    · right
      simp only [hm, if_neg hneg] at hpos ⊢
      obtain ⟨m', hm', hk⟩ := hx (by omega)
      rw [hm] at hm'
      cases hm'
      omega

theorem overBytes_mono {b b' : Int} (h : b ≤ b') (ho : store.overBytes b = true) :
    store.overBytes b' = true := by
  unfold CacheStore.overBytes at ho ⊢
  cases hm : store.limits.maxBytes with
  | none =>
    rw [hm] at ho
    cases ho
  | some m =>
    simp only [hm, decide_eq_true_eq] at ho ⊢
    omega

structure LoopHolds (store : CacheStore) (db : CacheDb) (p : EvictionLoop) : Prop where
  keys : p.excessKeys > 0 →
    KeysOver store p.excessKeys (db.rowsOf p.ns p.generation).length
  bytes : p.overBytes = true → store.overBytes (sumSizes (db.rowsOf p.ns p.generation)) = true

theorem length_deleteWhere (p q : EntryRow → Bool) (l : List EntryRow) :
    (l.filter q).length ≤ ((l.filter fun r => !p r).filter q).length + l.countP p := by
  induction l with
  | nil => exact Nat.le_refl _
  | cons x l ih =>
    cases hp : p x <;> cases hq : q x <;> simp [hp, hq] at ih ⊢ <;> omega

/-- the session's own statements -/
theorem LoopHolds.own {s : Nat} {c : CacheCtx} {st : CacheStmt} {r : st.Res}
    (hx : CacheStmt.exec s c st db = some (r, db')) {q : Option EvictionLoop}
    (hq : st.evicts = true → ∀ p ∈ q, LoopHolds store db p) {p : EvictionLoop}
    (hp : EvictionLoop.after store ⟨st, r⟩ q = some p) : LoopHolds store db' p := by
  cases st with
  | usage ns g =>
    have h1 : some ((((db.rowsOf ns g).length : Int), sumSizes (db.rowsOf ns g)), db)
        = some (r, db') := hx
    simp only [Option.some.injEq, Prod.mk.injEq] at h1
    obtain ⟨rfl, rfl⟩ := h1
    cases hp
    exact ⟨keysOver_excessKeys, fun h => h⟩
  | victim ns g =>
    have h1 : some (db.victim ns g, db) = some (r, db') := hx
    simp only [Option.some.injEq, Prod.mk.injEq] at h1
    obtain ⟨-, rfl⟩ := h1
    exact hq rfl p hp
  | deleteIds ids =>
    cases q with
    | none => cases hp
    | some q =>
      obtain ⟨-, hx⟩ := of_guard hx
      cases hx
      have hq := hq rfl q rfl
      simp only [EvictionLoop.after] at hp
      split at hp
      · cases hp
      · cases hp
        refine ⟨fun hpos => ?_, fun h => (by cases h)⟩
        have hlen := length_deleteWhere (fun r => ids.contains r.id)
          (·.isIn q.ns q.generation) db.entries
        refine KeysOver.less hq.keys ?_ hpos
        show (List.length (List.filter _ _) : Int)
          ≤ List.length (List.filter _ (List.filter _ _)) + _
        exact_mod_cast hlen
  | incrementCounter k n =>
    cases k with
    | evictions =>
      cases hx
      exact ⟨(hq rfl p hp).keys, (hq rfl p hp).bytes⟩
    | _ => cases hp
  | byteSize ns g =>
    cases q with
    | none => cases hp
    | some q =>
      have h1 : some (sumSizes (db.rowsOf ns g), db) = some (r, db') := hx
      simp only [Option.some.injEq, Prod.mk.injEq] at h1
      obtain ⟨rfl, rfl⟩ := h1
      simp only [EvictionLoop.after] at hp
      split at hp
      · rename_i he
        cases hp
        obtain ⟨rfl, rfl⟩ := he
        exact ⟨(hq rfl q rfl).keys, fun h => h⟩
      · cases hp
  | _ => cases hp

/-- the statements of others, if they take nothing away -/
theorem LoopHolds.other {p : EvictionLoop} (h : LoopHolds store db p)
    (hk : p.excessKeys > 0 →
      (db.rowsOf p.ns p.generation).length ≤ (db'.rowsOf p.ns p.generation).length)
    (hb : p.overBytes = true →
      sumSizes (db.rowsOf p.ns p.generation) ≤ sumSizes (db'.rowsOf p.ns p.generation)) :
    LoopHolds store db' p where
  keys := by
    intro hpos
    have h1 := h.keys hpos
    have h2 := hk hpos
    exact h1.mono (by omega)
  bytes := fun ho => overBytes_mono (hb ho) (h.bytes ho)

end

/-! ## runs -/

/-- the tables after an executed statement -/
def afterwards (e : CacheEv) : CacheDb :=
  ((CacheStmt.exec e.sess e.ctx e.stmt e.pre).map (·.2)).getD e.pre

/-- the statement takes no row away from a loop of another session that still has rows to remove,
and no bytes from one that is over them; and if it evicts, its namespace has not been invalidated
since its session looked the generation up -/
def LeavesExcess (e : CacheEv) (h : List CacheEv) : Prop :=
  (∀ d ∈ h, d.sess ≠ e.sess → ∀ q ∈ evictingOf d.sess h,
    (q.2.excessKeys > 0 → (e.pre.rowsOf q.2.ns q.2.generation).length
      ≤ ((afterwards e).rowsOf q.2.ns q.2.generation).length) ∧
    (q.2.overBytes = true → sumSizes (e.pre.rowsOf q.2.ns q.2.generation)
      ≤ sumSizes ((afterwards e).rowsOf q.2.ns q.2.generation))) ∧
  ∀ ns ∈ evictsFrom e h, ∀ d ∈ sinceLookup e.sess h, d.stmt.bumps ns = false

instance (e : CacheEv) (h : List CacheEv) : Decidable (LeavesExcess e h) :=
  inferInstanceAs (Decidable ((∀ d ∈ h, d.sess ≠ e.sess → ∀ q ∈ evictingOf d.sess h, _ ∧ _) ∧ _))

/-- all loops are right -/
def LoopsHold (db : CacheDb) (h : List CacheEv) : Prop :=
  ∀ s, ∀ q ∈ evictingOf s h, LoopHolds q.1 db q.2

/-- the first statement of a program is not one of a loop -/
def StartsOutside {α : Type} : CacheProg α → Prop
  | .ret _ => True
  | .exec st _ => st.evicts = false

theorem StartsOutside.bind {α β : Type} {p : CacheProg β} {f : β → CacheProg α}
    (hp : StartsOutside p) (hf : ∀ b, StartsOutside (f b)) : StartsOutside (p >>= f) := by
  cases p with
  | ret r =>
    cases r with
    | ok b => exact hf b
    | error e => exact trivial
  | exec st k => exact hp

theorem StartsOutside.check {α β : Type} {r : PgAppResult β} {f : β → CacheProg α}
    (hf : ∀ b, StartsOutside (f b)) : StartsOutside (Prog.check r >>= f) :=
  StartsOutside.bind (p := Prog.check r) trivial hf

theorem get_starts (store : CacheStore) (ns key : String) : StartsOutside (store.get ns key) :=
  StartsOutside.check fun _ => rfl

theorem atomicWrite_starts {α : Type} (store : CacheStore) (rounds : Nat) (ns key : String)
    (ttl : Option Int) (preserve : Bool) (f : Option Bytes → PgAppResult (Bytes × α)) :
    StartsOutside (store.atomicWrite rounds ns key ttl preserve f) :=
  StartsOutside.check fun _ => rfl

theorem mget_starts (store : CacheStore) (ns : String) (keys : List String)
    (results : List (String × Option Bytes)) : StartsOutside (store.mgetLoop ns keys results) := by
  induction keys generalizing results with
  | nil => exact trivial
  | cons key rest ih => exact StartsOutside.bind (get_starts store ns key) fun _ => ih _

theorem body_starts (call : CacheCall) : StartsOutside call.body := by
  obtain ⟨store, rounds, op⟩ := call
  cases op with
  | set ns key v ttl | setNx ns key v ttl | delete ns key | invalidateNamespace ns =>
    exact StartsOutside.bind (StartsOutside.check fun _ => rfl) fun _ => trivial
  | getSet ns key v ttl | increment ns key d ttl | append ns key v ttl | prepend ns key v ttl =>
    exact StartsOutside.bind (atomicWrite_starts store rounds ns key ttl _ _) fun _ => trivial
  | decrement ns key d ttl =>
    exact StartsOutside.bind (StartsOutside.check fun _ =>
      atomicWrite_starts store rounds ns key ttl _ _) fun _ => trivial
  | get ns key => exact StartsOutside.bind (get_starts store ns key) fun _ => trivial
  | exists_ ns key =>
    exact StartsOutside.bind (StartsOutside.bind (get_starts store ns key) fun _ => trivial)
      fun _ => trivial
  | mget ns keys => exact StartsOutside.bind (mget_starts store ns keys []) fun _ => trivial
  | sweepExpired limit => exact StartsOutside.bind rfl fun _ => trivial
  | stats => exact StartsOutside.bind rfl fun _ => trivial

theorem same_call {e : CacheEv} {h : List CacheEv}
    (hc : Continues CacheCall.body e.op e.stmt (ownEvents e.sess h)) (he : e.stmt.evicts = true) :
    ∃ d rest, ownEvents e.sess h = d :: rest ∧ d.op = e.op := by
  rcases hc with ⟨k, hk⟩ | hc
  · exfalso
    have h1 := body_starts e.op
    rw [hk] at h1
    have h2 : e.stmt.evicts = false := h1
    rw [he] at h2
    cases h2
  · exact hc

theorem evictingOf_eq {s : Nat} {h rest : List CacheEv} {d : CacheEv}
    (hd : ownEvents s h = d :: rest) :
    evictingOf s h = (loopOf d.op.store (said (d :: rest))).map fun p => (d.op.store, p) := by
  unfold evictingOf
  rw [hd]

theorem LoopsHold.step {s : Nat} {op : CacheCall} {c : CacheCtx} {st : CacheStmt} {db db' : CacheDb}
    {r : st.Res} {h : List CacheEv} (hi : LoopsHold db h)
    (hl : LeavesExcess ⟨s, op, c, st, r, db⟩ h)
    (hc : Continues CacheCall.body op st (ownEvents s h))
    (hx : CacheStmt.exec s c st db = some (r, db')) :
        LoopsHold db' (⟨s, op, c, st, r, db⟩ :: h) := by
  intro u q hq
  by_cases e : s = u
  · subst e
    rw [evictingOf_eq (ownEvents_cons_self (e := ⟨s, op, c, st, r, db⟩) rfl)] at hq
    obtain ⟨p, hp, rfl⟩ := Option.map_eq_some_iff.mp hq
    rw [said_cons, loopOf_cons] at hp
    refine LoopHolds.own hx (fun he p' hp' => ?_) hp
    obtain ⟨d, rest, hd, hop⟩ := same_call (e := ⟨s, op, c, st, r, db⟩) hc he
    have hd' : ownEvents s h = d :: rest := hd
    have hop' : d.op = op := hop
    refine hi s (op.store, p') ?_
    rw [evictingOf_eq hd', hop']
    rw [hd'] at hp'
    exact Option.map_eq_some_iff.mpr ⟨p', hp', rfl⟩
  · have hq' : q ∈ evictingOf u h := by
      unfold evictingOf at hq ⊢
      rw [ownEvents_cons_ne (e := ⟨s, op, c, st, r, db⟩) e] at hq
      exact hq
    have hafter : afterwards ⟨s, op, c, st, r, db⟩ = db' := by
      unfold afterwards
      rw [hx]
      rfl
    obtain ⟨d, hd, rfl⟩ : ∃ d ∈ h, d.sess = u := by
      cases ho : ownEvents u h with
      | nil =>
        unfold evictingOf at hq'
        rw [ho] at hq'
        cases hq'
      | cons d rest =>
        have hm : d ∈ ownEvents u h := by
          rw [ho]
          exact List.mem_cons_self
        obtain ⟨h1, h2⟩ := List.mem_filter.mp hm
        exact ⟨d, h1, by simpa using h2⟩
    obtain ⟨h1, h2⟩ := hl.1 d hd (Ne.symm e) q hq'
    rw [hafter] at h1 h2
    exact (hi _ q hq').other h1 h2

theorem exceeded_of {store : CacheStore} {db : CacheDb} {ns : String} {g : Int}
    (hg : db.generationOf ns = some g)
    (h : (∃ x > 0, KeysOver store x (db.rowsOf ns g).length) ∨
      store.overBytes (sumSizes (db.rowsOf ns g)) = true) : store.Exceeded db ns := by
  refine ⟨g, hg, ?_⟩
  rcases h with ⟨x, hx, m, hm, hk⟩ | h
  · left
    refine ⟨m, hm, ?_⟩
    omega
  · right
    unfold CacheStore.overBytes at h
    cases hm : store.limits.maxBytes with
    | none =>
      rw [hm] at h
      cases h
    | some m =>
      rw [hm] at h
      exact ⟨m, rfl, of_decide_eq_true h⟩

theorem evicts_excess {e : CacheEv} {h : List CacheEv} (hi : LoopsHold e.pre h)
    (hlook : LookupsHold e.pre h) (ho : Ordered id e h) (hl : LeavesExcess e h)
    (hc : Continues CacheCall.body e.op e.stmt (ownEvents e.sess h)) : EvictsExcess e h := by
  intro ns hns
  have hfresh := hl.2 ns hns
  have hf := ho.follows
  unfold evictsFrom at hns
  split at hns
  · rename_i ids s' op' c' g r' db' rest hst hown
    cases hns
    rw [hst] at hf
    have hsaid : said (ownView e.sess e.pre h).own = ⟨.victim ns g, r'⟩ :: said rest := by
      show said (ownEvents e.sess h) = _
      rw [hown]
      rfl
    rcases hf with ⟨limit, l, hl'⟩ | ⟨ns', g', id', x, o, l, -, hl', hev, hcont⟩
    · -- a sweep comes after its own query
      have h1 := congrArg Sigma.fst (List.cons.inj (hl'.trans hsaid)).1
      cases h1
    · have h1 := List.cons.inj (hl'.symm.trans hsaid)
      have h2 : CacheStmt.victim ns' g' = .victim ns g := congrArg Sigma.fst h1.1
      cases h2
      obtain ⟨d, rest', hd, hop⟩ := same_call hc (by rw [hst]; rfl)
      -- the loop of this session is the one it was when it picked its victim
      have hloop : evictingOf e.sess h = some (e.op.store, ⟨ns, g, x, o⟩) := by
        rw [evictingOf_eq hd, ← hd, hop]
        have h3 : said (ownEvents e.sess h) = ⟨.victim ns g, id'⟩ :: l := hl'
        rw [h3, loopOf_cons]
        have h4 : loopOf e.op.store l = some ⟨ns, g, x, o⟩ := hev.loop
        rw [h4]
        rfl
      have hg : e.pre.generationOf ns = some g := by
        obtain ⟨pre, before, rfl, hpre⟩ := hev.lookup
        obtain ⟨h₁, d', h₂, heq, hs, hd'⟩ := lookedUp_of_said (⟨.victim ns g, id'⟩ :: pre) hl' (by
          intro y hy
          rcases List.mem_cons.mp hy with rfl | hy
          · rfl
          · exact hpre y hy)
        refine hlook h₁ d' h₂ ns g heq hd' fun b hb => hfresh b ?_
        rw [hs]
        exact hb
      have hh := hi e.sess _ hloop
      apply exceeded_of hg
      rcases hcont with hx | ho'
      · exact .inl ⟨x, hx, hh.keys hx⟩
      · exact .inr (hh.bytes ho')
  · cases hns

/-- **No over-eviction**, in every run that leaves the loops of others alone. -/
theorem cache_eviction {σ : CacheSys} (hr : CacheReach σ) (hl : Always LeavesExcess σ.hist) :
    Always EvictsExcess σ.hist := by
  have hp := (hl.and (cache_follows id hr)).and hr.continues
  have hi := hr.before_of _ (fun db h => LoopsHold db h ∧ LookupsHold db h)
    ⟨fun s q hq => (by cases hq), fun h₁ e h₂ ns g heq => (by cases h₁ <;> cases heq)⟩
    (fun db h s op c st r db' hi hp hx => ⟨hi.1.step hp.1.1 hp.2 hx, hi.2.step hx⟩) hp
  exact (hi.and hp).mono fun e h hq => evicts_excess hq.1.1 hq.1.2 hq.2.1.2 hq.2.1.1 hq.2.2

/-- a second key where one is allowed: the first one goes -/
def secondKey : List (Act CacheCall CacheCtx) :=
  whole 0 ⟨oneKey, 1, .set "app" "a" [1] none⟩ ⟨0, id⟩ 8 ++
    whole 1 ⟨oneKey, 1, .set "app" "b" [2] none⟩ ⟨1, id⟩ 11

theorem cache_eviction_secondKey : ∃ σ : CacheSys, CacheReach σ ∧ Always LeavesExcess σ.hist ∧
    σ.db.entries.map (·.cacheKey) = ["b"] ∧ Always EvictsExcess σ.hist := by
  have h : ((Sys.init CacheDb.empty).play CacheStmt.exec CacheCall.body secondKey).map
      (fun σ : CacheSys => (decide (Always LeavesExcess σ.hist), σ.db.entries.map (·.cacheKey)))
      = some (true, ["b"]) := by rfl
  obtain ⟨σ, hplay, heq⟩ := Option.map_eq_some_iff.mp h
  simp only [Prod.mk.injEq, decide_eq_true_eq] at heq
  have hr : CacheReach σ := Sys.play_steps hplay
  exact ⟨σ, hr, heq.1, heq.2, cache_eviction hr heq.1⟩

/-- two writers of the second key count two rows each, and each removes one -/
def bothEvict : List (Act CacheCall CacheCtx) :=
  whole 0 ⟨oneKey, 1, .set "app" "a" [1] none⟩ ⟨0, id⟩ 8 ++
    .call 0 ⟨oneKey, 1, .set "app" "b" [2] none⟩ :: (List.replicate 8 (.stmt 0 ⟨1, id⟩) ++
    .call 1 ⟨oneKey, 1, .set "app" "b" [3] none⟩ :: (List.replicate 8 (.stmt 1 ⟨2, id⟩) ++
    [.stmt 0 ⟨3, id⟩, .stmt 0 ⟨3, id⟩, .stmt 1 ⟨4, id⟩, .stmt 1 ⟨4, id⟩]))

/-- what an eviction finds: its namespace, the limits, and the ids of the rows it counts -/
def evictionFinds (h : List CacheEv) :
    Option (List Int × Option String × Option Int × Option Int × Option Int × List Int) :=
  match h with
  | ⟨s, op, c, .deleteIds ids, r, db⟩ :: h =>
    some (ids, evictsFrom ⟨s, op, c, .deleteIds ids, r, db⟩ h, op.store.limits.maxKeys,
      op.store.limits.maxBytes, db.generationOf "app", (db.rowsOf "app" 0).map (·.id))
  | _ => none

/-- the only row of a namespace that may hold one is evicted -/
theorem cache_eviction_bothEvict : ∃ σ : CacheSys, CacheReach σ ∧ ¬ Always EvictsExcess σ.hist := by
  have h : ((Sys.init CacheDb.empty).play CacheStmt.exec CacheCall.body bothEvict).map
      (fun σ : CacheSys => evictionFinds σ.hist)
      = some (some ([2], some "app", some 1, none, some 0, [2])) := by rfl
  obtain ⟨σ, hplay, heq⟩ := Option.map_eq_some_iff.mp h
  refine ⟨σ, Sys.play_steps hplay, fun hal => ?_⟩
  unfold evictionFinds at heq
  split at heq
  · rename_i s op c ids r db hist hh
    rw [hh] at hal
    simp only [Option.some.injEq, Prod.mk.injEq] at heq
    obtain ⟨-, hns, hkeys, hbytes, hgen, hrows⟩ := heq
    obtain ⟨g, hg, hex⟩ := hal.1 "app" hns
    have hg' : db.generationOf "app" = some g := hg
    rw [hgen] at hg'
    cases hg'
    have hlen : (db.rowsOf "app" 0).length = 1 := by
      have h1 := congrArg List.length hrows
      simpa using h1
    rcases hex with ⟨m, hm, hlt⟩ | ⟨m, hm, -⟩
    · have hm' : op.store.limits.maxKeys = some m := hm
      rw [hkeys] at hm'
      cases hm'
      have hlt' : (1 : Int) < (db.rowsOf "app" 0).length := hlt
      rw [hlen] at hlt'
      omega
    · have hm' : op.store.limits.maxBytes = some m := hm
      rw [hbytes] at hm'
      cases hm'
  · cases heq

end PgApp
