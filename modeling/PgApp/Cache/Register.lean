import PgApp.Cache.Eviction
import PgApp.Cache.OneKey
import PgApp.Cache.SetNx

/-!
# One key as a register

Calls without TTL and without limits on one key (`PlainCall`): `set`, `set_nx`, `get_set`,
`increment`, `decrement`, `append`, `prepend` and `delete`.  Each takes effect in one of its
statements (`takesEffect`): the upsert, the DELETE, the commit that publishes a row, or the
statement that finds that there is nothing to do.  In the order in which they take effect the calls
are a run of the register (`CacheOp.register`), with the answers they hand back and the value that
is stored (`cache_register`).
-/

namespace PgApp
open Interleave

/-! ## the register -/

section
variable {Op : Type} (call : Op → CacheCall)

/-- the calls one after the other on a register, the newest first: what each answers, and the value
after them -/
def registerRun : List (Nat × Op) → List (Nat × Op × PgAppResult CacheReturn) × Option Bytes
  | [] => ([], none)
  | (s, op) :: before =>
    let (out, v) := registerRun before
    match (call op).op.register v with
    | .ok (a, v') => ((s, op, .ok a) :: out, v')
    | .error e => ((s, op, .error e) :: out, v)

/-- the statement in which a call takes effect -/
def takesEffect (e : CacheEvOf Op) : Bool :=
  match (⟨e.stmt, e.res⟩ : Said) with
  | ⟨.upsertEntry _ _ _ _ _ _, .ok _⟩ | ⟨.deleteKey _ _ _ _, _⟩ => true
  | ⟨.insertIfAbsent _ _ _ _ _ _, .ok n⟩ => n == 0
  | ⟨.commit, _⟩ => !(publishedBy e).isEmpty
  | ⟨.selectGeneration ns, none⟩ =>
    match (call e.op).op with
    | .delete ns' _ => ns == ns'
    | _ => false
  | _ => false

/-- the calls that have taken effect, the newest first -/
def effects (h : List (CacheEvOf Op)) : List (Nat × Op) :=
  (h.filter (takesEffect call)).map fun e => (e.sess, e.op)

/-- the value of the register after the statements -/
def valueAfter (h : List (CacheEvOf Op)) : Option Bytes := (registerRun call (effects call h)).2

end

/-- a call on the key without TTL, in a store without limits -/
def PlainOn (ns key : String) (hash : String → String) (c : CacheCall) : Prop :=
  OnKey ns key hash c ∧ c.op.ttl = none ∧ c.store.limits.maxKeys = none ∧
    c.store.limits.maxBytes = none

abbrev PlainCall (ns key : String) (hash : String → String) :=
  { c : CacheCall // PlainOn ns key hash c }

section
variable {Op : Type} {call : Op → CacheCall} {ns key : String} {hash : String → String}

theorem effects_cons (e : CacheEvOf Op) (h : List (CacheEvOf Op)) :
    effects call (e :: h) =
      if takesEffect call e then (e.sess, e.op) :: effects call h else effects call h := by
  unfold effects
  rw [List.filter_cons]
  split <;> rfl

section
variable {n : String} {db : CacheDb}

theorem takesEffect_unknown_delete {s : Nat} {op : Op} {c : CacheCtx} {ns' key' : String}
    (hop : (call op).op = .delete ns' key') :
    takesEffect call ⟨s, op, c, .selectGeneration n, none, db⟩ = (n == ns') := by
  unfold takesEffect
  simp only [hop]

theorem takesEffect_unknown_other {s : Nat} {op : Op} {c : CacheCtx}
    (hop : ∀ ns' key', (call op).op ≠ .delete ns' key') :
    takesEffect call ⟨s, op, c, .selectGeneration n, none, db⟩ = false := by
  unfold takesEffect
  cases hc : (call op).op with
  | delete ns' key' => exact absurd hc (hop ns' key')
  | _ => rfl

end

theorem valueAfter_same {e : CacheEvOf Op} (he : takesEffect call e = false)
    (h : List (CacheEvOf Op)) : valueAfter call (e :: h) = valueAfter call h := by
  unfold valueAfter
  rw [effects_cons, he]
  rfl

theorem registerRun_ok {s : Nat} {op : Op} {before : List (Nat × Op)} {a : CacheReturn}
    {v : Option Bytes} (h : (call op).op.register (registerRun call before).2 = .ok (a, v)) :
    registerRun call ((s, op) :: before) = ((s, op, .ok a) :: (registerRun call before).1, v) := by
  simp only [registerRun, h]

theorem valueAfter_effect {e : CacheEvOf Op} {h : List (CacheEvOf Op)}
    (he : takesEffect call e = true) {a : CacheReturn} {v : Option Bytes}
    (hreg : (call e.op).op.register (valueAfter call h) = .ok (a, v)) :
    valueAfter call (e :: h) = v := by
  unfold valueAfter at hreg ⊢
  rw [effects_cons, he, if_pos rfl, registerRun_ok hreg]

/-! ## rows that stay -/

/-- the table of a plain system -/
structure Plain (ns key : String) (hash : String → String) (db : CacheDb)
    (h : List (CacheEvOf Op)) :
    Prop where
  allOf : db.AllOf ns key hash
  current : db.AllCurrent
  lookups : LookupsHold db h
  forever : ∀ x ∈ db.entries, x.expiresAt = none
  swept : ∀ e ∈ h, ∀ limit ids, (⟨e.stmt, e.res⟩ : Said) = ⟨.doomed limit, .ok ids⟩ → ids = []
  valid : ∀ e ∈ h, ∀ n, e.stmt.bumps n = false ∧ e.stmt ≠ .viewRows n

theorem Plain.unviewed {db : CacheDb} {h : List (CacheEvOf Op)}
    (hp : Plain ns key hash db h) (s : Nat)
    (v : String × List Int) : v ∉ viewingAt (said (ownEvents s h)) := by
  intro hv
  obtain ⟨rest, hs⟩ := viewingAt_said hv
  obtain ⟨d, rest', hd, hsaid, -⟩ := List.map_eq_cons_iff.mp hs
  have hm : d ∈ ownEvents s h := by
    rw [hd]
    exact List.mem_cons_self
  exact (hp.valid d (List.mem_of_mem_filter hm) v.1).2 (congrArg Sigma.fst hsaid)

theorem Plain.fresh {db : CacheDb} {h : List (CacheEvOf Op)} (hp : Plain ns key hash db h)
    (e : CacheEvOf Op) : WritesFresh e h := fun _ _ =>
  ⟨fun d hd => (hp.valid d ((List.takeWhile_sublist _).subset hd) _).1,
    fun d _ v hv => absurd hv (hp.unviewed d.sess v)⟩

theorem Plain.eq_row {db : CacheDb} {h : List (CacheEvOf Op)} (hp : Plain ns key hash db h)
    (hok : db.Ok) {x y : EntryRow} (hx : x ∈ db.entries) (hy : y ∈ db.entries) : x = y := by
  obtain ⟨hx1, -, hx3⟩ := hp.allOf x hx
  obtain ⟨hy1, -, hy3⟩ := hp.allOf y hy
  have hg : some x.generation = some y.generation := by
    rw [← hp.current x hx, ← hp.current y hy, hx1, hy1]
  refine hok.eq_of_uniq hx hy ?_
  unfold EntryRow.uniq
  rw [hx1, hy1, hx3, hy3, Option.some.inj hg]

theorem Plain.not_expired {db : CacheDb} {h : List (CacheEvOf Op)} (hp : Plain ns key hash db h)
    {x : EntryRow} (hx : x ∈ db.entries) (now : Time) : x.expired now = false := by
  unfold EntryRow.expired
  rw [hp.forever x hx]

theorem published_forever {e : CacheEvOf Op} {h : List (CacheEvOf Op)} (ho : Ordered call e h)
    (httl : (call e.op).op.ttl = none) (hf : ∀ y ∈ e.pre.entries, y.expiresAt = none) {x : EntryRow}
    (hx : x ∈ publishedBy e) : x.expiresAt = none := by
  obtain ⟨s, op, c, st, r, db⟩ := e
  have hfol := ho.follows
  cases st with
  | upsertEntry ns g k key v ttl =>
    obtain ⟨hop, -⟩ := hfol
    have ht : ttl = none := by
      have h1 : (call op).op.ttl = none := httl
      rw [hop] at h1
      exact h1
    subst ht
    obtain ⟨-, hm, ha⟩ := mem_written_upsert.mp hx
    unfold CacheDb.upsertEntry at hm
    split at hm
    · obtain ⟨y, hy, rfl⟩ := List.mem_map.mp hm
      split
      · rfl
      · exact hf y hy
    · rcases List.mem_append.mp hm with hm | hm
      · exact hf x hm
      · rw [List.mem_singleton.mp hm]
        rfl
  | commit =>
    obtain ⟨ns, g, k, key, t, -, -, hcases⟩ := hfol
    have hrow : db.txs.get s = some t → x ∈ t.rows := by
      intro htx
      have hx' : x ∈ CacheStmt.written s c db .commit := hx
      simp only [CacheStmt.written, htx] at hx'
      exact hx'
    have httl' : (call op).op.ttl = none := httl
    rcases hcases with ⟨v, ttl, -, htx, -, hrows, -⟩ | ⟨v, ttl, i, hop, hc, hrows, -⟩ |
      ⟨a, v, i, -, -, hc, hrows, -⟩ | ⟨a, v, id, old, y, -, -, hc, hfound, hrows, -⟩
    · have hm := hrow htx
      rw [hrows] at hm
      cases hm
    · have hm := hrow hc.tx
      rw [hrows, List.mem_singleton] at hm
      have ht : ttl = none := by
        have h1 : (call op).op.ttl = none := httl
        have hop' : (call op).op = _ := hop
        rw [hop'] at h1
        exact h1
      rw [hm, ht]
      rfl
    · have hm := hrow hc.tx
      rw [hrows, List.mem_singleton] at hm
      have hm' : x = newEntry i ns g k key v (call op).op.ttl t.startedAt := hm
      rw [hm', httl']
      rfl
    · have hm := hrow hc.tx
      rw [hrows, List.mem_singleton] at hm
      have hm' : x = y.withValue v (call op).op.ttl (call op).op.preserves t.startedAt := hm
      rw [hm', httl']
      show (if _ then y.expiresAt else expiryOf _ none) = none
      split
      · exact hf y hfound.1.1
      · rfl
  | _ => cases hx

theorem Plain.step (hplain : ∀ op, PlainOn ns key hash (call op)) {s : Nat} {op : Op} {c : CacheCtx}
    {st : CacheStmt} {db db' : CacheDb} {r : st.Res} {h : List (CacheEvOf Op)}
    (hp : Plain ns key hash db h) (ho : Ordered call ⟨s, op, c, st, r, db⟩ h)
    (hx : CacheStmt.exec s c st db = some (r, db')) :
    Plain ns key hash db' (⟨s, op, c, st, r, db⟩ :: h) where
  allOf := AllOf.step (fun op => (hplain op).1) hp.allOf ho hx
  current := AllCurrent.step hp.current hp.lookups (fun s v hv => absurd hv (hp.unviewed s v)) ho
    (hp.fresh _) hx
  lookups := hp.lookups.step hx
  forever := by
    intro x hm
    rcases exec_rows ho.good.ok hx hm with hw | ⟨y, hy, hc⟩
    · exact published_forever (e := ⟨s, op, c, st, r, db⟩) ho (hplain op).2.1 hp.forever hw
    · have h1 : y.expiresAt = x.expiresAt := congrArg (·.2.2.2.2.1) hc
      rw [← h1]
      exact hp.forever y hy
  swept := by
    intro e he limit ids hs
    rcases List.mem_cons.mp he with rfl | he
    · cases hs
      have h1 : some (db.doomed limit c, db) = some (.ok ids, db') := hx
      simp only [Option.some.injEq, Prod.mk.injEq] at h1
      have h2 := h1.1
      unfold CacheDb.doomed at h2
      have hnone : db.entries.filter (·.expired c.now) = [] := by
        refine List.filter_eq_nil_iff.mpr fun x hm => ?_
        rw [hp.not_expired hm]
        exact Bool.false_ne_true
      rw [hnone] at h2
      split at h2
      · cases h2
      · cases h2
        simp
    · exact hp.swept e he limit ids hs
  valid := by
    intro e he n
    have hno : (call op).op ≠ .invalidateNamespace n := by
      intro hop
      rcases (hplain op).1.1 with h1 | h1
      · rw [hop] at h1
        cases h1
      · rw [hop] at h1
        cases h1
    rcases List.mem_cons.mp he with rfl | he
    · refine ⟨?_, fun hst => ?_⟩
      · cases hb : st.bumps n with
        | false => rfl
        | true =>
          obtain ⟨ids, rfl⟩ := CacheStmt.bumps_iff.mp hb
          exact absurd ho.follows.1 hno
      · obtain rfl : st = .viewRows n := hst
        exact absurd ho.follows hno
    · exact hp.valid e he n

/-! ## what a statement does to the register -/

/-- the table holds the value -/
def Stores (db : CacheDb) (v : Option Bytes) : Prop :=
  (∀ x ∈ db.entries, v = some x.valueBytes) ∧ (db.entries = [] → v = none)

theorem Stores.some_of {db : CacheDb} {v : Bytes} (h : ∀ x ∈ db.entries, x.valueBytes = v)
    {x : EntryRow} (hx : x ∈ db.entries) : Stores db (some v) := by
  refine ⟨fun y hy => ?_, fun he => ?_⟩
  · rw [h y hy]
  · rw [he] at hx
    cases hx

theorem Stores.same {s : Nat} {c : CacheCtx} {st : CacheStmt} {db db' : CacheDb} {r : st.Res}
    {v : Option Bytes} (hs : Stores db v) (hok : db.Ok)
    (hx : CacheStmt.exec s c st db = some (r, db')) (hw : st.written s c db = [])
    (hr : ∀ x ∈ db.entries, ¬ st.removes s db x) : Stores db' v := by
  refine ⟨fun x hm => ?_, fun he => hs.2 ?_⟩
  · rcases exec_rows hok hx hm with h1 | ⟨y, hy, hc⟩
    · rw [hw] at h1
      cases h1
    · have h1 : y.valueBytes = x.valueBytes := congrArg (·.2.2.2.1) hc
      rw [← h1]
      exact hs.1 y hy
  · cases hent : db.entries with
    | nil => rfl
    | cons x rest =>
      have hxm : x ∈ db.entries := by
        rw [hent]
        exact List.mem_cons_self
      rcases exec_kept hok hx hxm with h1 | ⟨y, hy, -⟩
      · exact absurd h1 (hr x hxm)
      · rw [he] at hy
        cases hy

theorem Evicting.no_keys {store : CacheStore} {n : String} {g x : Int} {o : Bool} {l : List Said}
    (h : Evicting store n g x o l) (hm : store.limits.maxKeys = none) : x ≤ 0 := by
  induction h with
  | start m b l =>
    simp only [CacheStore.excessKeys, hm]
    exact Int.le_refl _
  | keys h _ _ ih =>
    simp only [CacheStore.asKeys, hm]
    omega
  | bytes b h _ ih =>
    simp only [CacheStore.asKeys, hm]
    omega

/-- a DELETE by ids finds nothing -/
theorem deleteIds_none (hplain : ∀ op, PlainOn ns key hash (call op)) {s : Nat} {op : Op}
    {c : CacheCtx} {ids : List Int} {db : CacheDb} {r : (CacheStmt.deleteIds ids).Res}
    {h : List (CacheEvOf Op)} (hp : Plain ns key hash db h)
    (ho : Ordered call ⟨s, op, c, .deleteIds ids, r, db⟩ h) : ids = [] := by
  rcases ho.follows with ⟨limit, l, hl⟩ | ⟨n, g, id, x, o, l, -, -, hev, hc⟩
  · have hs : said (ownEvents s h) = ⟨.doomed limit, .ok ids⟩ :: l := hl.symm
    obtain ⟨e, rest, he, hse, -⟩ := List.map_eq_cons_iff.mp hs
    refine hp.swept e ?_ limit ids hse
    have hm : e ∈ ownEvents s h := by
      rw [he]
      exact List.mem_cons_self
    exact List.mem_of_mem_filter hm
  · exfalso
    obtain ⟨-, -, hk, hb⟩ := hplain op
    have hx := hev.no_keys hk
    have ho' := hev.no_bytes hb
    rcases hc with hc | hc
    · omega
    · rw [ho'] at hc
      cases hc

/-- what a statement that takes effect has learnt of the value -/
def Learnt (call : Op → CacheCall) (e : CacheEvOf Op) (h : List (CacheEvOf Op)) (v : Option Bytes) :
    Prop :=
  match (⟨e.stmt, e.res⟩ : Said) with
  | ⟨.deleteKey _ _ _ _, n⟩ => decide ((n : Nat) > 0) = v.isSome
  | ⟨.insertIfAbsent _ _ _ _ _ _, _⟩ => v.isSome = true
  | ⟨.selectGeneration _, _⟩ => v = none
  | ⟨.commit, _⟩ =>
    (∀ n k u ttl, (call e.op).op = .setNx n k u ttl → v = none) ∧
      ∀ st n g k key found, st :: afterSeek n g k key found <+: said (ownEvents e.sess h) →
        v = found.map (·.2)
  | _ => True

/-- the register takes the call, and the table holds its value then -/
def Applied (call : Op → CacheCall) (e : CacheEvOf Op) (h : List (CacheEvOf Op)) (db' : CacheDb)
    (v : Option Bytes) : Prop :=
  ∃ a v', (call e.op).op.register v = .ok (a, v') ∧ Stores db' v' ∧ Learnt call e h v

theorem applied_upsert {s : Nat} {op : Op} {c : CacheCtx} {db db' : CacheDb}
    {h : List (CacheEvOf Op)} {n : String} {g : Int} {k key' : String} {u : Bytes}
      {ttl : Option Int}
    {v : Option Bytes}
    (hp' : Plain ns key hash db' (⟨s, op, c, .upsertEntry n g k key' u ttl, .ok (), db⟩ :: h))
    (hok' : db'.Ok) (ho : Ordered call ⟨s, op, c, .upsertEntry n g k key' u ttl, .ok (), db⟩ h)
    (hx : CacheStmt.exec s c (.upsertEntry n g k key' u ttl) db = some (.ok (), db')) :
    Applied call ⟨s, op, c, .upsertEntry n g k key' u ttl, .ok (), db⟩ h db' v := by
  obtain ⟨hop, -⟩ := ho.follows
  have hreg : (call op).op.register v = .ok (.unit, some u) := by
    have hop' : (call op).op = _ := hop
    rw [hop']
    rfl
  refine ⟨.unit, some u, hreg, ?_, trivial⟩
  obtain rfl : db' = db.upsertEntry n g k key' u ttl c.now := by
    rcases exec_upsertEntry hx with ⟨-, h, -⟩ | ⟨-, -, -, h⟩
    · cases h
    · exact h
  obtain ⟨y, hy, hv⟩ : ∃ y ∈ (db.upsertEntry n g k key' u ttl c.now).entries, y.valueBytes = u := by
    unfold CacheDb.upsertEntry
    split
    · rename_i hany
      obtain ⟨x, hxm, hat⟩ := List.any_eq_true.mp hany
      refine ⟨x.overwrite key' u ttl c.now, List.mem_map.mpr ⟨x, hxm, by rw [if_pos hat]⟩, rfl⟩
    · exact ⟨_, List.mem_append_right _ List.mem_cons_self, rfl⟩
  refine Stores.some_of (fun x hxm => ?_) hy
  rw [hp'.eq_row hok' hxm hy]
  exact hv

theorem applied_delete {s : Nat} {op : Op} {c : CacheCtx} {db db' : CacheDb}
    {h : List (CacheEvOf Op)} {n : String} {g : Int} {k key' : String}
    {r : (CacheStmt.deleteKey n g k key').Res} {v : Option Bytes}
    (hplain : ∀ op, PlainOn ns key hash (call op)) (hp : Plain ns key hash db h) (hs : Stores db v)
    (ho : Ordered call ⟨s, op, c, .deleteKey n g k key', r, db⟩ h)
    (hx : CacheStmt.exec s c (.deleteKey n g k key') db = some (r, db')) :
    Applied call ⟨s, op, c, .deleteKey n g k key', r, db⟩ h db' v := by
  obtain ⟨hop, hk, -, l, hl⟩ := ho.follows
  have hop' : (call op).op = .delete n key' := hop
  have hreg : (call op).op.register v = .ok (.bool v.isSome, none) := by
    rw [hop']
    rfl
  -- the row, if there is one, is the row of the key in the generation that was looked up
  have hrow : ∀ x ∈ db.entries, x.isKey n g k key' = true := by
    intro x hxm
    obtain ⟨h1, h2, h3⟩ := hp.allOf x hxm
    have hkey : n = ns ∧ key' = key := by
      rcases (hplain op).1.1 with h4 | h4
      · rw [hop'] at h4
        cases h4
      · rw [hop'] at h4
        cases h4
        exact ⟨rfl, rfl⟩
    obtain ⟨rfl, rfl⟩ := hkey
    have hg : db.generationOf n = some g := by
      have hl' : said (ownEvents s h) = [] ++ ⟨.selectGeneration n, some g⟩ :: l := hl.symm
      obtain ⟨h₁, e, h₂, heq, -, he⟩ := lookedUp_of_said [] hl' fun x hx => (by cases hx)
      exact hp.lookups h₁ e h₂ n g heq he fun d hd =>
        (hp.valid d (by rw [heq]; exact List.mem_append_left _ hd) n).1
    have hgen := hp.current x hxm
    rw [h1, hg] at hgen
    refine EntryRow.isKey_iff.mpr ⟨EntryRow.isAt_iff.mpr ?_, h2⟩
    unfold EntryRow.uniq
    have hk' : k = hash key' := by
      rw [← (hplain op).1.2]
      exact hk
    rw [h1, ← Option.some.inj hgen, h3, hk']
  obtain ⟨-, hx⟩ := of_guard hx
  have hcount : r = db.entries.countP (·.isKey n g k key') := by
    have h1 := congrArg Prod.fst (Option.some.inj hx)
    exact h1.symm
  have hdb : db' = (db.deleteWhere (·.isKey n g k key')).2 := by
    have h1 := congrArg Prod.snd (Option.some.inj hx)
    exact h1.symm
  refine ⟨.bool v.isSome, none, hreg, ⟨fun x hxm => ?_, fun _ => rfl⟩, ?_⟩
  · exfalso
    rw [hdb] at hxm
    obtain ⟨h1, h2⟩ := List.mem_filter.mp hxm
    have h3 : (!x.isKey n g k key') = true := h2
    rw [hrow x h1] at h3
    cases h3
  · show decide (r > 0) = v.isSome
    rw [hcount]
    cases hent : db.entries with
    | nil =>
      rw [hs.2 hent]
      rfl
    | cons x rest =>
      have hxm : x ∈ db.entries := by
        rw [hent]
        exact List.mem_cons_self
      rw [hs.1 x hxm]
      have h1 := hrow x hxm
      simp [h1]

theorem applied_present {s : Nat} {op : Op} {c : CacheCtx} {db db' : CacheDb}
    {h : List (CacheEvOf Op)} {n : String} {g : Int} {k key' : String} {u : Bytes}
      {ttl : Option Int}
    {v : Option Bytes} (hs : Stores db v)
    (ho : Ordered call ⟨s, op, c, .insertIfAbsent n g k key' u ttl, .ok 0, db⟩ h)
    (hx : CacheStmt.exec s c (.insertIfAbsent n g k key' u ttl) db = some (.ok 0, db')) :
    Applied call ⟨s, op, c, .insertIfAbsent n g k key' u ttl, .ok 0, db⟩ h db' v := by
  obtain ⟨hop, -, -, t, hc, -, hrows⟩ := ho.follows
  have hop' : (call op).op = .setNx n key' u ttl := hop
  have ht : db.txs.get s = some t := hc.tx
  obtain ⟨_, hin⟩ := exec_inside hx rfl
  have hent : db'.entries = db.entries := hin.entries
  obtain ⟨t₂, ht₂, ⟨-, h, -⟩ | ⟨-, -, ⟨hconf, -⟩ | ⟨-, h, -⟩⟩⟩ := exec_insertIfAbsent hx
  · cases h
  · obtain ⟨x, hm, -⟩ := List.any_eq_true.mp hconf
    have hxm : x ∈ db.entries := by
      rw [CacheDb.seen_eq ht] at hm
      rcases (ho.good.ok.tx s t ht).mem_apply.mp hm with h1 | ⟨h1, -⟩
      · rw [hrows] at h1
        cases h1
      · exact h1
    have hv := hs.1 x hxm
    refine ⟨.bool false, some x.valueBytes, ?_, ?_, ?_⟩
    · show (call op).op.register v = _
      rw [hop', hv]
      rfl
    · unfold Stores
      rw [hent, ← hv]
      exact hs
    · show v.isSome = true
      rw [hv]
      rfl
  · cases h

/-- a new row at the commit: there was none -/
theorem Plain.none_at_insert {e : CacheEvOf Op} {h : List (CacheEvOf Op)}
    (hplain : ∀ op, PlainOn ns key hash (call op)) (hp : Plain ns key hash e.pre h)
    (ho : Ordered call e h) {t : CacheTx} (ht : e.pre.txs.get e.sess = some t) {y : EntryRow}
    (hrows : t.rows = [y]) (hpub : y ∈ publishedBy e) (hun : Unused (ownView e.sess e.pre h) y.id)
    (hgone : ∀ x ∈ e.pre.entries, x.id ∉ t.gone) : e.pre.entries = [] := by
  cases hent : e.pre.entries with
  | nil => rfl
  | cons z rest =>
    exfalso
    have hz : z ∈ e.pre.entries := by
      rw [hent]
      exact List.mem_cons_self
    have hym : y ∈ t.rows := by
      rw [hrows]
      exact List.mem_cons_self
    have hu : z.uniq = y.uniq := by
      obtain ⟨h1, h2, h3⟩ := hp.allOf z hz
      obtain ⟨htar, hhash, -⟩ := published_key ho hpub
      have hy : y.namespace_ = ns ∧ y.cacheKey = key := by
        rcases (hplain e.op).1.1 with h4 | h4
        · rw [h4] at htar
          simp only [Option.some.injEq, Prod.mk.injEq] at htar
          exact ⟨htar.1.symm, htar.2.symm⟩
        · rw [h4] at htar
          cases htar
      have hgy := fresh_generation hp.lookups ho (hp.fresh e) hpub
      have hgz := hp.current z hz
      rw [hy.1] at hgy
      rw [h1, hgy] at hgz
      unfold EntryRow.uniq
      rw [h1, hy.1, h3, hhash, hy.2, (hplain e.op).1.2, Option.some.inj hgz]
    rcases (ho.good.ok.tx e.sess t ht).alone y hym z hz hu with hid | hg
    · exact hun z ⟨hz, t, ht, CacheTx.holdsRow_iff.mpr (.inr (.inr ⟨y, hym, hid.symm⟩))⟩ hid
    · exact hgone z hz hg

theorem found_eq {l : List Said} {x y : Said} {n n' : String} {g g' : Int}
    {k k' key' key'' : String}
    {found found' : Option (Int × Bytes)} (h : x :: afterSeek n g k key' found <+: l)
    (h' : y :: afterSeek n' g' k' key'' found' <+: l) : found = found' := by
  obtain ⟨a, rfl⟩ := h
  obtain ⟨b, hb⟩ := h'
  have h1 := (List.cons.inj (List.cons.inj hb).2).1
  cases h1
  rfl

section
variable {s : Nat} {c : CacheCtx} {db db' : CacheDb} {r : CacheStmt.Res .commit} {t : CacheTx}
  {y : EntryRow}

theorem commit_entries (hx : CacheStmt.exec s c .commit db = some (r, db'))
    (ht : db.txs.get s = some t) : db'.entries = t.apply db.entries := by
  cases hx
  simp only [CacheDb.commit, ht]

theorem Stores.inserted (hx : CacheStmt.exec s c .commit db = some (r, db'))
    (ht : db.txs.get s = some t) (hempty : db.entries = []) (hrows : t.rows = [y]) :
    Stores db' (some y.valueBytes) := by
  have hent : db'.entries = [y] := by
    rw [commit_entries hx ht, hempty]
    unfold CacheTx.apply
    rw [hrows]
    rfl
  refine Stores.some_of (fun x hxm => ?_) (x := y) ?_
  · rw [hent, List.mem_singleton] at hxm
    rw [hxm]
  · rw [hent]
    exact List.mem_cons_self

theorem Stores.updated {h : List (CacheEvOf Op)} {x : EntryRow}
    (hx : CacheStmt.exec s c .commit db = some (r, db')) (ht : db.txs.get s = some t)
    (hok : db.Ok) (hp : Plain ns key hash db h) (hxm : x ∈ db.entries) (hrows : t.rows = [y])
    (hid : y.id = x.id) : Stores db' (some y.valueBytes) := by
  have hmem : ∀ z, z ∈ db'.entries ↔ z = y := by
    intro z
    rw [commit_entries hx ht, (hok.tx s t ht).mem_apply, hrows]
    constructor
    · intro hz
      rcases hz with hz | ⟨hz, -, hne⟩
      · exact List.mem_singleton.mp hz
      · exfalso
        apply hne
        rw [hp.eq_row hok hz hxm, ← hid]
        exact List.mem_cons_self
    · intro hz
      rw [hz]
      exact .inl List.mem_cons_self
  refine Stores.some_of (fun z hz => ?_) ((hmem y).mpr rfl)
  rw [(hmem z).mp hz]

end

theorem applied_commit {s : Nat} {op : Op} {c : CacheCtx} {db db' : CacheDb}
    {h : List (CacheEvOf Op)} {r : CacheStmt.Res .commit} {v : Option Bytes}
    (hplain : ∀ op, PlainOn ns key hash (call op)) (hp : Plain ns key hash db h) (hs : Stores db v)
    (ho : Ordered call ⟨s, op, c, .commit, r, db⟩ h)
    (hx : CacheStmt.exec s c .commit db = some (r, db')) :
    (publishedBy (⟨s, op, c, .commit, r, db⟩ : CacheEvOf Op) = [] ∧ Stores db' v) ∨
      (publishedBy (⟨s, op, c, .commit, r, db⟩ : CacheEvOf Op) ≠ [] ∧
        Applied call ⟨s, op, c, .commit, r, db⟩ h db' v) := by
  obtain ⟨n, g, k, key', t, htar, -, hcases⟩ := ho.follows
  have hpub : db.txs.get s = some t →
      publishedBy (⟨s, op, c, .commit, r, db⟩ : CacheEvOf Op) = t.rows := by
    intro ht
    show CacheStmt.written s c db .commit = _
    simp only [CacheStmt.written, ht]
  have hone : ∀ {y}, db.txs.get s = some t → t.rows = [y] →
      publishedBy (⟨s, op, c, .commit, r, db⟩ : CacheEvOf Op) ≠ [] := by
    intro y ht hrows
    rw [hpub ht, hrows]
    exact List.cons_ne_nil _ _
  have hgone : ∀ {advisory}, Clearing (ownView s db h) n g k key' advisory t →
      ∀ x ∈ db.entries, x.id ∉ t.gone := by
    intro advisory hc x hxm hg
    obtain ⟨y, hy, -, -, he⟩ := hc.gone _ hg
    rw [hp.not_expired hy.1] at he
    cases he
  have hnew : ∀ {advisory i u ttl now a}, Clearing (ownView s db h) n g k key' advisory t →
      t.rows = [newEntry i n g k key' u ttl now] → Unused (ownView s db h) i →
      (call op).op.register none = .ok (a, some u) →
      (v = none → Learnt call ⟨s, op, c, .commit, r, db⟩ h v) →
      Applied call ⟨s, op, c, .commit, r, db⟩ h db' v := by
    intro advisory i u ttl now a hc hrows hun hreg hl
    have ht : db.txs.get s = some t := hc.tx
    have hempty : db.entries = [] := by
      refine hp.none_at_insert (e := ⟨s, op, c, .commit, r, db⟩) hplain ho ht hrows ?_
        hun (hgone hc)
      rw [hpub ht, hrows]
      exact List.mem_cons_self
    have hv := hs.2 hempty
    refine ⟨a, some u, ?_, ?_, hl hv⟩
    · rw [hv]
      exact hreg
    · exact Stores.inserted hx ht hempty hrows
  have htar' : (call op).op.target = some (n, key') := htar
  rcases hcases with ⟨u, ttl, -, htx, hg, hrows, -⟩ | ⟨u, ttl, i, hop, hc, hrows, hun, hl⟩ |
    ⟨a, u, i, hat, hreg, hc, hrows, hun, hl⟩ | ⟨a, u, id, old, x, hat, hreg, hc, hfound, hrows, hl⟩
  · left
    refine ⟨(hpub htx).trans hrows, ?_⟩
    unfold Stores
    rw [commit_entries hx htx, apply_of_empty hg hrows]
    exact hs
  · right
    have hop' : (call op).op = .setNx n key' u ttl := hop
    refine ⟨hone hc.tx hrows, hnew hc hrows hun (a := .bool true) ?_ fun hv =>
      ⟨fun _ _ _ _ _ => hv, fun st n' g' k' key'' found hpre => ?_⟩⟩
    · rw [hop']
      rfl
    · exfalso
      obtain ⟨a, ha⟩ := hl
      obtain ⟨b, hb⟩ := hpre
      have h1 : said (ownEvents s h) = _ := ha.symm
      have hb' : st :: afterSeek n' g' k' key'' found ++ b = said (ownEvents s h) := hb
      rw [h1] at hb'
      have h2 := congrArg Sigma.fst (List.cons.inj (List.cons.inj hb').2).1
      cases h2
  · right
    refine ⟨hone hc.tx hrows, hnew hc hrows hun hreg fun hv =>
      ⟨fun _ _ _ _ hop => hv, fun st n' g' k' key'' found hpre => ?_⟩⟩
    rw [hv, ← found_eq hl hpre]
    rfl
  · right
    have ht : db.txs.get s = some t := hc.tx
    have hxm : x ∈ db.entries := hfound.1.1
    have hv : v = some old := by
      rw [hs.1 x hxm, hfound.2.2.2.2]
    refine ⟨hone ht hrows, a, some u, ?_, ?_,
      ⟨fun n' k' u' ttl' hop => ?_, fun st n' g' k' key'' found hpre => ?_⟩⟩
    · rw [hv]
      exact hreg
    · exact Stores.updated hx ht ho.good.ok hp hxm hrows rfl
    · have hat' : (call op).op.atomic = true := hat
      have hop' : (call op).op = _ := hop
      rw [hop'] at hat'
      cases hat'
    · rw [hv, ← found_eq hl hpre]
      rfl

/-- **What a statement does to the register:** nothing, or what its call does. -/
theorem effect_step (hplain : ∀ op, PlainOn ns key hash (call op)) {e : CacheEvOf Op}
    {h : List (CacheEvOf Op)} {db' : CacheDb} {v : Option Bytes} (hp : Plain ns key hash e.pre h)
    (hs : Stores e.pre v) (ho : Ordered call e h)
    (hx : CacheStmt.exec e.sess e.ctx e.stmt e.pre = some (e.res, db')) :
    (takesEffect call e = false ∧ Stores db' v) ∨
      (takesEffect call e = true ∧ Applied call e h db' v) := by
  obtain ⟨s, op, c, st, r, db⟩ := e
  have hok : db.Ok := ho.good.ok
  have hquiet : st.written s c db = [] → (∀ x ∈ db.entries, ¬ st.removes s db x) → Stores db' v :=
    fun hw hr => hs.same hok hx hw hr
  cases st with
  | upsertEntry n g k key' u ttl =>
    cases r with
    | ok a =>
      exact .inr ⟨rfl, applied_upsert (hp.step hplain ho hx) (CacheStmt.exec_ok hok hx) ho hx⟩
    | error x =>
      have hno : ¬ TtlFits c.now ttl := by
        rcases exec_upsertEntry hx with ⟨hno, -⟩ | ⟨-, -, h, -⟩
        · exact hno
        · cases h
      exact .inl ⟨rfl, hquiet (if_neg hno) fun x _ hrem => hrem⟩
  | deleteKey n g k key' => exact .inr ⟨rfl, applied_delete hplain hp hs ho hx⟩
  | commit =>
    show ((!(publishedBy (⟨s, op, c, .commit, r, db⟩ : CacheEvOf Op)).isEmpty) = false ∧ _) ∨
      ((!(publishedBy (⟨s, op, c, .commit, r, db⟩ : CacheEvOf Op)).isEmpty) = true ∧ _)
    rcases applied_commit hplain hp hs ho hx with ⟨hpub, hs'⟩ | ⟨hpub, happ⟩
    · rw [hpub]
      exact .inl ⟨rfl, hs'⟩
    · obtain ⟨y, rest, hy⟩ := List.exists_cons_of_ne_nil hpub
      rw [hy]
      exact .inr ⟨rfl, happ⟩
  | insertIfAbsent n g k key' u ttl =>
    have hs' : Stores db' v := hquiet rfl fun x _ hrem => hrem
    cases r with
    | error x => exact .inl ⟨rfl, hs'⟩
    | ok n =>
      cases n with
      | zero => exact .inr ⟨rfl, applied_present hs ho hx⟩
      | succ n => exact .inl ⟨rfl, hs'⟩
  | selectGeneration n =>
    have hs' : Stores db' v := hquiet rfl fun x _ hrem => hrem
    cases r with
    | some g => exact .inl ⟨rfl, hs'⟩
    | none =>
      have hgen : db.generationOf n = none := by
        have h1 : some (db.generationOf n, db) = some (none, db') := hx
        simp only [Option.some.injEq, Prod.mk.injEq] at h1
        exact h1.1
      rcases (hplain op).1.1 with hop | hop
      · refine .inl ⟨takesEffect_unknown_other fun ns' key' hop' => ?_, hs'⟩
        rw [hop'] at hop
        cases hop
      · rw [takesEffect_unknown_delete hop]
        by_cases hn : n = ns
        · -- no namespace, no row
          subst hn
          have hempty : db.entries = [] := by
            cases hent : db.entries with
            | nil => rfl
            | cons x rest =>
              have hxm : x ∈ db.entries := by
                rw [hent]
                exact List.mem_cons_self
              have h1 := hp.current x hxm
              rw [(hp.allOf x hxm).1, hgen] at h1
              cases h1
          have hv := hs.2 hempty
          refine .inr ⟨by simp, .bool false, none, ?_, ?_, hv⟩
          · show (call op).op.register v = _
            rw [hop, hv]
            rfl
          · rw [← hv]
            exact hs'
        · exact .inl ⟨by simpa using hn, hs'⟩
  | deleteIds ids =>
    refine .inl ⟨rfl, hquiet rfl fun x _ hrem => ?_⟩
    rw [deleteIds_none hplain hp ho] at hrem
    cases hrem
  | bumpGeneration n ids =>
    exfalso
    have hp' := ((hp.step hplain ho hx).valid _ List.mem_cons_self n).1
    simp [CacheStmt.bumps] at hp'
  | _ => exact .inl ⟨rfl, hquiet rfl fun x _ hrem => hrem⟩

/-- the table holds the value of the register -/
def RegisterHolds (call : Op → CacheCall) (ns key : String) (hash : String → String) (db : CacheDb)
    (h : List (CacheEvOf Op)) : Prop := Plain ns key hash db h ∧ Stores db (valueAfter call h)

theorem RegisterHolds.step (hplain : ∀ op, PlainOn ns key hash (call op)) {s : Nat} {op : Op}
    {c : CacheCtx} {st : CacheStmt} {db db' : CacheDb} {r : st.Res} {h : List (CacheEvOf Op)}
    (hi : RegisterHolds call ns key hash db h) (ho : Ordered call ⟨s, op, c, st, r, db⟩ h)
    (hx : CacheStmt.exec s c st db = some (r, db')) :
    RegisterHolds call ns key hash db' (⟨s, op, c, st, r, db⟩ :: h) := by
  refine ⟨hi.1.step hplain ho hx, ?_⟩
  rcases effect_step hplain hi.1 hi.2 ho hx with ⟨he, hs⟩ | ⟨he, a, v, hreg, hs, -⟩
  · rw [valueAfter_same he]
    exact hs
  · rw [valueAfter_effect he hreg]
    exact hs

theorem RegisterHolds.first :
    RegisterHolds call ns key hash CacheDb.empty ([] : List (CacheEvOf Op)) :=
  ⟨⟨fun x hx => (by cases hx), fun x hx => (by cases hx),
    fun h₁ e h₂ n g heq => (by cases h₁ <;> cases heq), fun x hx => (by cases hx),
    fun e he => (by cases he), fun e he => (by cases he)⟩, fun x hx => (by cases hx), fun _ => rfl⟩

/-- a statement that takes effect does what the register does, with what it has learnt -/
def Effective (call : Op → CacheCall) (e : CacheEvOf Op) (h : List (CacheEvOf Op)) : Prop :=
  takesEffect call e = true → Learnt call e h (valueAfter call h) ∧
    ∃ a v, (call e.op).op.register (valueAfter call h) = .ok (a, v)

theorem cache_effective (hplain : ∀ op, PlainOn ns key hash (call op)) {σ : CacheSysOf Op}
    (hr : CacheReachOf call σ) :
    RegisterHolds call ns key hash σ.db σ.hist ∧
      Always (fun e h => Ordered call e h ∧ Effective call e h) σ.hist := by
  have hord := cache_follows call hr
  refine ⟨hr.invariant_of _ (RegisterHolds call ns key hash) RegisterHolds.first
    (fun _ _ _ _ _ _ _ _ hi ho hx => hi.step hplain ho hx) hord, ?_⟩
  have hi := hr.before_of _ (RegisterHolds call ns key hash) RegisterHolds.first
    (fun _ _ _ _ _ _ _ _ hi ho hx => hi.step hplain ho hx) hord
  refine (hi.and hord).mono fun e h hq => ⟨hq.2, fun he => ?_⟩
  obtain ⟨db', hx⟩ := hq.2.executed
  rcases effect_step hplain hq.1.1 hq.1.2 hq.2 hx with ⟨he', -⟩ | ⟨-, a, v, hreg, -, hl⟩
  · rw [he] at he'
    cases he'
  · exact ⟨hl, a, v, hreg⟩

/-! ## answers -/

/-- a statement that no call takes effect in, given what it has answered -/
def silent (op : CacheOp) (x : Said) : Bool :=
  match x with
  | ⟨.upsertEntry _ _ _ _ _ _, .ok _⟩ | ⟨.deleteKey _ _ _ _, _⟩ | ⟨.commit, _⟩ => false
  | ⟨.insertIfAbsent _ _ _ _ _ _, .ok n⟩ => n != 0
  | ⟨.selectGeneration _, none⟩ =>
    match op with
    | .delete _ _ => false
    | _ => true
  | _ => true

theorem not_effect_of_silent {e : CacheEvOf Op} (h : silent (call e.op).op ⟨e.stmt, e.res⟩ = true) :
    takesEffect call e = false := by
  obtain ⟨s, op, c, st, r, db⟩ := e
  cases st with
  | deleteKey _ _ _ _ | commit => cases h
  | upsertEntry n g k key' u ttl =>
    cases r with
    | ok a => cases h
    | error x => rfl
  | insertIfAbsent n g k key' u ttl =>
    cases r with
    | error x => rfl
    | ok n =>
      cases n with
      | zero => cases h
      | succ n => rfl
  | selectGeneration n =>
    cases r with
    | some g => rfl
    | none =>
      refine takesEffect_unknown_other fun ns' key' hop => ?_
      change silent (call op).op ⟨.selectGeneration n, none⟩ = true at h
      rw [hop] at h
      cases h
  | _ => rfl

theorem silent_of_trails {op : CacheOp} {e : CacheEvOf Op} (ht : e.stmt.trails = true)
    (hop : ∀ n k, op ≠ .delete n k) : silent op ⟨e.stmt, e.res⟩ = true := by
  obtain ⟨s, o, c, st, r, db⟩ := e
  cases st with
  | selectGeneration n =>
    cases r with
    | some g => rfl
    | none =>
      cases op with
      | delete n k => exact absurd rfl (hop n k)
      | _ => rfl
  | incrementCounter _ _ | doomed _ | deleteIds _ | usage _ _ | byteSize _ _ | victim _ _ => rfl
  | _ => cases ht

/-- the answer of the register at a statement -/
def answerAt (call : Op → CacheCall) (m : CacheEvOf Op × List (CacheEvOf Op)) :
    Nat × Op × PgAppResult CacheReturn :=
  (m.1.sess, m.1.op, ((call m.1.op).op.register (valueAfter call m.2)).map (·.1))

theorem answers_eq (h : List (CacheEvOf Op)) :
    (registerRun call (effects call h)).1 =
      ((withPast h).filter fun m => takesEffect call m.1).map (answerAt call) := by
  induction h with
  | nil => rfl
  | cons e h ih =>
    show _ = List.map _ (List.filter _ ((e, h) :: withPast h))
    rw [effects_cons, List.filter_cons]
    cases he : takesEffect call e with
    | false =>
      simp only [Bool.false_eq_true, if_false]
      exact ih
    | true =>
      simp only [if_true, List.map_cons]
      rw [← ih]
      unfold answerAt valueAfter
      cases hreg : (call e.op).op.register (registerRun call (effects call h)).2 with
      | ok p =>
        obtain ⟨a, v⟩ := p
        rw [registerRun_ok hreg]
        rfl
      | error x =>
        simp only [registerRun, hreg]
        rfl

/-- the statements of one session, each with all that were executed before it -/
abbrev ownPast (s : Nat) (h : List (CacheEvOf Op)) : List (CacheEvOf Op × List (CacheEvOf Op)) :=
  (withPast h).filter (·.1.sess == s)

/-- a part of a session's statements whose first one, the newest, takes effect, and no other -/
theorem answers_head {e : CacheEvOf Op} {h : List (CacheEvOf Op)}
    {tail rest : List (CacheEvOf Op × List (CacheEvOf Op))}
    (ht : ∀ m ∈ tail, takesEffect call m.1 = false) (he : takesEffect call e = true)
    (hrest : ∀ m ∈ rest, takesEffect call m.1 = false) :
    ((tail ++ (e, h) :: rest).filter fun m => takesEffect call m.1).map (answerAt call)
      = [answerAt call (e, h)] := by
  rw [List.filter_append, List.filter_cons]
  have h1 : tail.filter (fun m => takesEffect call m.1) = [] :=
    List.filter_eq_nil_iff.mpr fun m hm => by rw [ht m hm]; exact Bool.false_ne_true
  have h2 : rest.filter (fun m => takesEffect call m.1) = [] :=
    List.filter_eq_nil_iff.mpr fun m hm => by rw [hrest m hm]; exact Bool.false_ne_true
  rw [h1, h2]
  simp only [he, if_true]
  rfl

theorem answers_none {l : List (CacheEvOf Op × List (CacheEvOf Op))}
    (h : ∀ m ∈ l, takesEffect call m.1 = false) :
    (l.filter fun m => takesEffect call m.1).map (answerAt call) = [] := by
  have h1 : l.filter (fun m => takesEffect call m.1) = [] :=
    List.filter_eq_nil_iff.mpr fun m hm => by rw [h m hm]; exact Bool.false_ne_true
  rw [h1]
  rfl

/-- what is known where a statement stands -/
theorem at_position {s : Nat} {H : List (CacheEvOf Op)}
    (hal : Always (fun e h => Ordered call e h ∧ Effective call e h) H)
    {a b : List (CacheEvOf Op × List (CacheEvOf Op))} {e : CacheEvOf Op} {h : List (CacheEvOf Op)}
    (hM : ownPast s H = a ++ (e, h) :: b) :
    Ordered call e h ∧ Effective call e h ∧ e.sess = s ∧ ownEvents s h = b.map (·.1) := by
  obtain ⟨⟨h₁, hH⟩, hs, hown⟩ := withPast_own hM
  rw [hH] at hal
  exact ⟨hal.head.1, hal.head.2, hs, hown⟩

/-- the statements of a call, one of which takes effect -/
theorem part_shape {s : Nat} {H : List (CacheEvOf Op)}
    (hal : Always (fun e h => Ordered call e h ∧ Effective call e h) H) {op : Op}
    {a Mp b : List (CacheEvOf Op × List (CacheEvOf Op))} (hM : ownPast s H = a ++ (Mp ++ b))
    (tail : List (CacheEvOf Op)) {body : List (CacheEvOf Op)} (hpart : Mp.map (·.1) = tail ++ body)
    {x : Said}
    {core : List Said} (hbody : said body = x :: core) (hops : ∀ e ∈ tail ++ body, e.op = op)
    (htail : ∀ e ∈ tail, takesEffect call e = false)
    (hcore : ∀ y ∈ core, silent (call op).op y = true) :
    ∃ e h l, (⟨e.stmt, e.res⟩ : Said) = x ∧ e.op = op ∧ e.sess = s ∧ Ordered call e h ∧
      Effective call e h ∧ said (ownEvents s h) = core ++ l ∧
      (takesEffect call e = true →
        (Mp.filter fun m => takesEffect call m.1).map (answerAt call)
            = [answerAt call (e, h)]) := by
  obtain ⟨Mt, Mb, rfl, ht, hb⟩ := List.map_eq_append_iff.mp hpart
  have hbody' : said (Mb.map (·.1)) = x :: core := by
    rw [hb]
    exact hbody
  unfold said at hbody'
  rw [List.map_map] at hbody'
  obtain ⟨⟨e, h⟩, Mc, rfl, he, hc⟩ := List.map_eq_cons_iff.mp hbody'
  have hM' : ownPast s H = (a ++ Mt) ++ (e, h) :: (Mc ++ b) := by
    rw [hM]
    simp
  obtain ⟨ho, heff, hs, hown⟩ := at_position hal hM'
  have hsaid : said (ownEvents s h) = core ++ said (b.map (·.1)) := by
    rw [hown, List.map_append, said_append]
    congr 1
    rw [← hc]
    unfold said
    rw [List.map_map]
  have hop : e.op = op := by
    apply hops
    rw [← hb]
    exact List.mem_append_right _ List.mem_cons_self
  refine ⟨e, h, _, he, hop, hs, ho, heff, hsaid, fun hte => ?_⟩
  apply answers_head
  · intro m hm
    apply htail
    rw [← ht]
    exact List.mem_map_of_mem hm
  · exact hte
  · intro m hm
    have hmop : m.1.op = op := by
      apply hops
      rw [← hb]
      exact List.mem_append_right _ (List.mem_cons_of_mem _ (List.mem_map_of_mem hm))
    apply not_effect_of_silent
    rw [hmop]
    apply hcore
    rw [← hc]
    exact List.mem_map.mpr ⟨m, hm, rfl⟩

/-- a part in which no call takes effect -/
theorem part_silent {op : Op} {Mp : List (CacheEvOf Op × List (CacheEvOf Op))}
    {part : List (CacheEvOf Op)} (hpart : Mp.map (·.1) = part) (hops : ∀ e ∈ part, e.op = op)
    (h : ∀ y ∈ said part, silent (call op).op y = true) :
    (Mp.filter fun m => takesEffect call m.1).map (answerAt call) = [] := by
  apply answers_none
  intro m hm
  have hmp : m.1 ∈ part := by
    rw [← hpart]
    exact List.mem_map_of_mem hm
  apply not_effect_of_silent
  rw [hops m.1 hmp]
  exact h _ (List.mem_map.mpr ⟨m.1, hmp, rfl⟩)

theorem trails_not_effect {op : Op} {tail : List (CacheEvOf Op)} (hops : ∀ e ∈ tail, e.op = op)
    (htail : ∀ e ∈ tail, e.stmt.trails = true) (hop : ∀ n k, (call op).op ≠ .delete n k) :
    ∀ e ∈ tail, takesEffect call e = false := by
  intro e he
  apply not_effect_of_silent
  rw [hops e he]
  exact silent_of_trails (htail e he) hop

/-- the answer where the register is known -/
theorem answerAt_of (v' : Option Bytes) {e : CacheEvOf Op} {h : List (CacheEvOf Op)} {s : Nat}
    {op : Op} (hs : e.sess = s) (hop : e.op = op) {v : Option Bytes} {a : CacheReturn}
      (hv : valueAfter call h = v)
    (hreg : (call op).op.register v = .ok (a, v')) : answerAt call (e, h) = (s, op, .ok a) := by
  unfold answerAt
  rw [hs, hop, hv, hreg]
  rfl

/-- the answers a part of a session's statements owes its call -/
def Owed (s : Nat) (op : Op) (r : PgAppResult CacheReturn) :
    List (Nat × Op × PgAppResult CacheReturn) :=
  match r with
  | .ok a => [(s, op, .ok a)]
  | .error _ => []

section
variable {s : Nat} {H : List (CacheEvOf Op)} {op : Op} {r : PgAppResult CacheReturn}
  {a Mp b : List (CacheEvOf Op × List (CacheEvOf Op))} {part : List (CacheEvOf Op)}

theorem set_answers (hal : Always (fun e h => Ordered call e h ∧ Effective call e h) H)
    (hM : ownPast s H = a ++ (Mp ++ b)) (hpart : Mp.map (·.1) = part)
    (hops : ∀ e ∈ part, e.op = op) {n k : String} {u : Bytes} {ttl : Option Int}
    (hop : (call op).op = .set n k u ttl) (ha : Answered (call op) r part) :
    (Mp.filter fun m => takesEffect call m.1).map (answerAt call) = Owed s op r := by
  unfold Answered at ha
  rw [hop] at ha
  cases r with
  | error e =>
    refine part_silent hpart hops fun y hy => ?_
    rcases ha with hp | ⟨g, -, hp⟩ | ⟨g, x, hp⟩
    · rw [hp] at hy
      cases hy
    · rw [hp] at hy
      simp only [afterRead, List.mem_cons, List.not_mem_nil, or_false] at hy
      rcases hy with rfl | rfl <;> rfl
    · rw [hp] at hy
      simp only [afterRead, List.mem_cons, List.not_mem_nil, or_false] at hy
      rcases hy with rfl | rfl | rfl <;> rfl
  | ok x =>
    obtain ⟨rfl, g, tail, body, rfl, htail, hbody⟩ := ha
    have hnd : ∀ n' k', (call op).op ≠ .delete n' k' := fun n' k' h => (by rw [hop] at h; cases h)
    obtain ⟨e, h, l, he, heop, hs, -, -, -, hans⟩ := part_shape hal hM tail hpart hbody hops
      (trails_not_effect (fun e he => hops e (List.mem_append_left _ he)) htail hnd)
      (by simp [afterRead, silent])
    obtain ⟨s', op', c, st, r, db⟩ := e
    cases he
    rw [hans rfl, answerAt_of (some u) hs heop rfl]
    · rfl
    · rw [hop]
      rfl

theorem setNx_answers (hal : Always (fun e h => Ordered call e h ∧ Effective call e h) H)
    (hM : ownPast s H = a ++ (Mp ++ b)) (hpart : Mp.map (·.1) = part)
    (hops : ∀ e ∈ part, e.op = op) {n k : String} {u : Bytes} {ttl : Option Int}
    (hop : (call op).op = .setNx n k u ttl) (ha : Answered (call op) r part) :
    (Mp.filter fun m => takesEffect call m.1).map (answerAt call) = Owed s op r := by
  unfold Answered at ha
  rw [hop] at ha
  cases r with
  | error e =>
    refine part_silent hpart hops fun y hy => ?_
    rcases ha with hp | ⟨g, -, hp⟩ | ⟨g, x, hp⟩
    · rw [hp] at hy
      cases hy
    · rw [hp] at hy
      simp only [afterBegin, afterRead, List.mem_cons, List.not_mem_nil, or_false] at hy
      rcases hy with rfl | rfl | rfl | rfl <;> rfl
    · rw [hp] at hy
      simp only [afterClear, afterBegin, afterRead, List.mem_cons, List.not_mem_nil, or_false] at hy
      rcases hy with rfl | rfl | rfl | rfl | rfl | rfl <;> rfl
  | ok x =>
    have hnd : ∀ n' k', (call op).op ≠ .delete n' k' := fun n' k' h => (by rw [hop] at h; cases h)
    obtain ⟨g, ⟨rfl, tail, body, rfl, htail, hbody⟩ | ⟨rfl, hsaid⟩⟩ := ha
    · obtain ⟨e, h, l, he, heop, hs, ho, heff, hown, hans⟩ :=
        part_shape hal hM tail hpart hbody hops
        (trails_not_effect (fun e he => hops e (List.mem_append_left _ he)) htail hnd)
        (by simp [afterClear, afterBegin, afterRead, silent])
      obtain ⟨s', op', c, st, r, db⟩ := e
      cases he
      obtain rfl : s' = s := hs
      obtain rfl : op' = op := heop
      obtain ⟨t, i, ht, -, -, hrows⟩ := commit_created ho rfl hown
      have hte : takesEffect call (⟨s', op', c, .commit, (), db⟩ : CacheEvOf Op) = true := by
        have ht' : db.txs.get s' = some t := ht
        show (!(CacheStmt.written s' c db .commit).isEmpty) = true
        simp only [CacheStmt.written, ht', hrows]
        rfl
      obtain ⟨⟨hnone, -⟩, -⟩ := heff hte
      rw [hans hte, answerAt_of (some u) rfl rfl (hnone n k u ttl hop)]
      · rfl
      · rw [hop]
        rfl
    · -- the commit has nothing to publish
      obtain ⟨d, body, rfl, hd, hbody⟩ := List.map_eq_cons_iff.mp hsaid
      obtain ⟨⟨d', h⟩, Mb, rfl, hd', hb⟩ := List.map_eq_cons_iff.mp hpart
      obtain rfl : d' = d := hd'
      have hM' : ownPast s H = a ++ (d', h) :: (Mb ++ b) := hM
      obtain ⟨ho, -, hs, hown⟩ := at_position hal hM'
      have hown' : said (ownEvents d'.sess h)
          = ⟨.insertIfAbsent n g ((call op).store.hashKey k) k u ttl, .ok 0⟩ ::
            (afterClear n g ((call op).store.hashKey k) k (afterBegin n g) ++
                said (b.map (·.1))) := by
        rw [hs, hown, List.map_append, hb, said_append]
        have hb' : said body = _ := hbody
        rw [hb']
        rfl
      have hquiet : ∀ e ∈ [d'], takesEffect call e = false := by
        intro e he
        rw [List.mem_singleton.mp he]
        obtain ⟨t, ht, -, hrows⟩ := commit_refused ho (congrArg Sigma.fst hd) hown'
        obtain ⟨s', op', c, st, r, db⟩ := d'
        cases hd
        have ht' : db.txs.get s' = some t := ht
        show (!(CacheStmt.written s' c db .commit).isEmpty) = false
        simp only [CacheStmt.written, ht', hrows]
        rfl
      obtain ⟨e, h', l, he, heop, hs', -, heff, -, hans⟩ := part_shape hal hM [d']
        hpart hbody hops hquiet (by simp [afterClear, afterBegin, afterRead, silent])
      obtain ⟨s', op', c, st, r, db⟩ := e
      cases he
      obtain ⟨hsome, -⟩ := heff rfl
      obtain ⟨v, hv⟩ := Option.isSome_iff_exists.mp hsome
      rw [hans rfl, answerAt_of (some v) hs' heop hv]
      · rfl
      · rw [hop]
        rfl

theorem atomic_answers (hal : Always (fun e h => Ordered call e h ∧ Effective call e h) H)
    (hM : ownPast s H = a ++ (Mp ++ b)) (hpart : Mp.map (·.1) = part)
    (hops : ∀ e ∈ part, e.op = op) {n k : String} (hop : (call op).op.atomic = true)
    (ha : AnsweredKey (call op) n k r part) :
    (Mp.filter fun m => takesEffect call m.1).map (answerAt call) = Owed s op r := by
  have hnd : ∀ n' k', (call op).op ≠ .delete n' k' := fun n' k' h => (by rw [h] at hop; cases hop)
  cases r with
  | error e =>
    refine part_silent hpart hops fun y hy => ?_
    rcases ha with hp | ⟨g, -, hp⟩ | ⟨g, found, -, hp⟩ | ⟨g, found, v, x, hp⟩
    · rw [hp] at hy
      cases hy
    · rw [hp] at hy
      simp only [afterLock, afterBegin, afterRead, List.mem_cons, List.not_mem_nil, or_false] at hy
      rcases hy with rfl | rfl | rfl | rfl | rfl <;> rfl
    · rw [hp] at hy
      simp only [afterSeek, afterClear, afterLock, afterBegin, afterRead, List.mem_cons,
        List.not_mem_nil, or_false] at hy
      rcases hy with rfl | rfl | rfl | rfl | rfl | rfl | rfl <;> rfl
    · rw [hp] at hy
      simp only [afterSeek, afterClear, afterLock, afterBegin, afterRead, List.mem_cons,
        List.not_mem_nil, or_false] at hy
      rcases hy with rfl | rfl | rfl | rfl | rfl | rfl | rfl | rfl
      · rfl
      · cases found <;> rfl
      all_goals rfl
  | ok x =>
    obtain ⟨g, found, v, hreg, tail, body, rfl, htail, hbody⟩ := ha
    obtain ⟨e, h, l, he, heop, hs, ho, heff, hown, hans⟩ := part_shape hal hM tail hpart hbody hops
      (trails_not_effect (fun e he => hops e (List.mem_append_left _ he)) htail hnd) (by
        intro y hy
        simp only [afterSeek, afterClear, afterLock, afterBegin, afterRead, List.mem_cons,
          List.not_mem_nil, or_false] at hy
        rcases hy with rfl | rfl | rfl | rfl | rfl | rfl | rfl
        · cases found <;> rfl
        all_goals rfl)
    obtain ⟨s', op', c, st, r, db⟩ := e
    cases he
    obtain rfl : s' = s := hs
    obtain rfl : op' = op := heop
    have hte : takesEffect call (⟨s', op', c, .commit, (), db⟩ : CacheEvOf Op) = true := by
      show (!(CacheStmt.written s' c db .commit).isEmpty) = true
      obtain ⟨n', g', k', key', t, -, -, hcases⟩ := ho.follows
      rcases hcases with ⟨u, ttl, hnx, -⟩ | ⟨u, ttl, i, hnx, -⟩ | ⟨_, _, i, -, -, hc, hrows, -⟩ |
        ⟨_, _, id, old, y, -, -, hc, -, hrows, -⟩
      · have hnx' : (call op').op = _ := hnx
        rw [hnx'] at hop
        cases hop
      · have hnx' : (call op').op = _ := hnx
        rw [hnx'] at hop
        cases hop
      · have ht' : db.txs.get s' = some t := hc.tx
        simp only [CacheStmt.written, ht', hrows]
        rfl
      · have ht' : db.txs.get s' = some t := hc.tx
        simp only [CacheStmt.written, ht', hrows]
        rfl
    obtain ⟨⟨-, hfound⟩, -⟩ := heff hte
    have hv := hfound _ _ _ _ _ found ⟨l, hown.symm⟩
    rw [hans hte, answerAt_of _ rfl rfl hv hreg]
    rfl

theorem delete_answers (hal : Always (fun e h => Ordered call e h ∧ Effective call e h) H)
    (hM : ownPast s H = a ++ (Mp ++ b)) (hpart : Mp.map (·.1) = part)
    (hops : ∀ e ∈ part, e.op = op) {n k : String} (hop : (call op).op = .delete n k)
    (ha : Answered (call op) r part) :
    (Mp.filter fun m => takesEffect call m.1).map (answerAt call) = Owed s op r := by
  unfold Answered at ha
  rw [hop] at ha
  cases r with
  | error e =>
    refine part_silent hpart hops fun y hy => ?_
    rcases ha with hp | ⟨g, -, hp⟩
    · rw [hp] at hy
      cases hy
    · rw [hp] at hy
      rw [List.mem_singleton.mp hy]
      rfl
  | ok x =>
    rcases ha with ⟨rfl, hsaid⟩ | ⟨g, m, l, rfl, hl, hsaid⟩
    · obtain ⟨e, h, l, he, heop, hs, -, heff, -, hans⟩ := part_shape hal hM [] hpart hsaid hops
        (fun e he => (by cases he)) (fun y hy => (by cases hy))
      obtain ⟨s', op', c, st, r, db⟩ := e
      cases he
      obtain rfl : op' = op := heop
      have hte : takesEffect call (⟨s', op', c, .selectGeneration n, none, db⟩ : CacheEvOf Op)
          = true := by
        rw [takesEffect_unknown_delete hop]
        simp
      obtain ⟨hv, -⟩ := heff hte
      have hv' : valueAfter call h = none := hv
      rw [hans hte, answerAt_of none hs rfl hv']
      · rfl
      · rw [hop]
        rfl
    · -- the counter, if rows were deleted
      obtain ⟨tail, body, rfl, htail, hbody⟩ := List.map_eq_append_iff.mp hsaid
      have hquiet : ∀ e ∈ tail, takesEffect call e = false := by
        intro e he
        have hm : (⟨e.stmt, e.res⟩ : Said) ∈ l := by
          rw [← htail]
          exact List.mem_map.mpr ⟨e, he, rfl⟩
        apply not_effect_of_silent
        rcases hl with rfl | rfl
        · cases hm
        · rw [List.mem_singleton.mp hm]
          rfl
      obtain ⟨e, h, l', he, heop, hs, -, heff, -, hans⟩ :=
        part_shape hal hM tail hpart hbody hops hquiet
        (by simp [silent])
      obtain ⟨s', op', c, st, r, db⟩ := e
      cases he
      obtain ⟨hv, -⟩ := heff rfl
      have hv' : decide ((r : Nat) > 0) = (valueAfter call h).isSome := hv
      rw [hans rfl, answerAt_of none hs heop rfl, hv']
      · rfl
      · rw [hop]
        rfl

end

/-- **A call that has returned has taken effect once, with its answer, or has failed without.** -/
theorem part_answers (hplain : ∀ op, PlainOn ns key hash (call op)) {s : Nat}
    {H : List (CacheEvOf Op)} (hal : Always (fun e h => Ordered call e h ∧ Effective call e h) H)
    {op : Op} {r : PgAppResult CacheReturn} {a Mp b : List (CacheEvOf Op × List (CacheEvOf Op))}
    {part : List (CacheEvOf Op)} (hM : ownPast s H = a ++ (Mp ++ b)) (hpart : Mp.map (·.1) = part)
    (ha : AnsweredBy call op r part) :
    (Mp.filter fun m => takesEffect call m.1).map (answerAt call) = Owed s op r := by
  obtain ⟨ha, hops⟩ := ha
  have hatomic : ∀ {n k}, (call op).op.atomic = true → AnsweredKey (call op) n k r part →
      (Mp.filter fun m => takesEffect call m.1).map (answerAt call) = Owed s op r :=
    fun hop hk => atomic_answers hal hM hpart hops hop hk
  have ha' := ha
  unfold Answered at ha'
  cases hop : (call op).op with
  | set n k u ttl => exact set_answers hal hM hpart hops hop ha
  | setNx n k u ttl => exact setNx_answers hal hM hpart hops hop ha
  | delete n k => exact delete_answers hal hM hpart hops hop ha
  | getSet n k u ttl | increment n k u ttl | decrement n k u ttl | append n k u ttl
  | prepend n k u ttl =>
    rw [hop] at ha'
    exact hatomic (by rw [hop]; rfl) ha'
  | get _ _ | mget _ _ | exists_ _ _ | invalidateNamespace _ | sweepExpired _ | stats =>
    rcases (hplain op).1.1 with h | h <;> rw [hop] at h <;> cases h

/-- the same for all calls of a session -/
theorem parts_answers (hplain : ∀ op, PlainOn ns key hash (call op)) {s : Nat}
    {H : List (CacheEvOf Op)} (hal : Always (fun e h => Ordered call e h ∧ Effective call e h) H)
    {xs : List (Nat × Op × PgAppResult CacheReturn)} {parts : List (List (CacheEvOf Op))}
    (hall : List.Forall₂ (fun x part => AnsweredBy call x.2.1 x.2.2 part) xs parts)
    (hxs : ∀ x ∈ xs, x.1 = s) :
    ∀ a M, ownPast s H = a ++ M → M.map (·.1) = parts.flatten →
      (M.filter fun m => takesEffect call m.1).map (answerAt call) = xs.filter (·.2.2.toBool) := by
  induction hall with
  | nil =>
    intro a M _ hM
    rw [List.map_eq_nil_iff.mp hM]
    rfl
  | @cons x part xs parts hx _ ih =>
    intro a M hH hM
    obtain ⟨Mp, Mr, rfl, hp, hr⟩ := List.map_eq_append_iff.mp hM
    have h1 := part_answers hplain hal hH hp hx
    have h2 := ih (fun y hy => hxs y (List.mem_cons_of_mem _ hy)) (a ++ Mp) Mr (by
      rw [hH, List.append_assoc]) hr
    rw [List.filter_append, List.map_append, h1, h2, List.filter_cons]
    obtain ⟨s', op, r⟩ := x
    obtain rfl : s' = s := hxs _ List.mem_cons_self
    cases r with
    | ok v => rfl
    | error e => rfl

theorem entryAt_register {db : CacheDb} {h : List (CacheEvOf Op)} {v : Option Bytes} (hok : db.Ok)
    (hp : Plain ns key hash db h) (hs : Stores db v) (now : Time) :
    (db.entryAt hash now ns key).map (·.value) = v := by
  cases hent : db.entries with
  | nil =>
    rw [hs.2 hent]
    unfold CacheDb.entryAt
    cases db.generationOf ns with
    | none => rfl
    | some g =>
      show Option.map _ (Option.map _ (db.entries.find? _)) = none
      rw [hent]
      rfl
  | cons x rest =>
    have hx : x ∈ db.entries := by
      rw [hent]
      exact List.mem_cons_self
    obtain ⟨h1, h2, h3⟩ := hp.allOf x hx
    have hg := hp.current x hx
    rw [h1] at hg
    have hrow : db.liveRow ns x.generation (hash key) key now = some x := by
      refine hok.liveRow_iff.mpr ⟨hx, ?_, hp.not_expired hx now⟩
      refine EntryRow.isKey_iff.mpr ⟨EntryRow.isAt_iff.mpr ?_, h2⟩
      unfold EntryRow.uniq
      rw [h1, h3]
    rw [hs.1 x hx]
    unfold CacheDb.entryAt
    rw [hg]
    simp only [hrow, Option.map_some]

/-- **Increments add up.** -/
theorem registerRun_increments {order : List (Nat × Op)} {deltas : List Int}
    (hops : order.map (fun x => (call x.2).op) = deltas.map fun d => .increment ns key d none)
    (hin : ∀ d ∈ deltas, inI64 d) (hok : ∀ x ∈ (registerRun call order).1, x.2.2.toBool = true)
    (hne : deltas ≠ []) :
    (registerRun call order).2 = some (decimal deltas.sum) ∧ inI64 deltas.sum := by
  induction order generalizing deltas with
  | nil =>
    cases deltas with
    | nil => exact absurd rfl hne
    | cons d rest => cases hops
  | cons x order ih =>
    obtain ⟨s, op⟩ := x
    cases deltas with
    | nil => exact absurd rfl hne
    | cons d rest =>
      obtain ⟨hop, hops'⟩ := List.cons.inj hops
      have hop' : (call op).op = .increment ns key d none := hop
      obtain ⟨a, v, hreg⟩ : ∃ a v, (call op).op.register (registerRun call order).2
          = .ok (a, v) := by
        cases hr : (call op).op.register (registerRun call order).2 with
        | ok p => exact ⟨p.1, p.2, rfl⟩
        | error e =>
          have h1 := hok (s, op, .error e) (by
            simp only [registerRun, hr]
            exact List.mem_cons_self)
          cases h1
      rw [registerRun_ok hreg] at hok ⊢
      have hadd : plus d (registerRun call order).2 = .ok (a, v) := by
        rw [hop'] at hreg
        exact hreg
      cases hrest : rest with
      | nil =>
        subst hrest
        have horder : order = [] := List.map_eq_nil_iff.mp hops'
        subst horder
        cases hadd
        rw [List.sum_singleton]
        exact ⟨rfl, hin d List.mem_cons_self⟩
      | cons d' rest' =>
        rw [← hrest]
        obtain ⟨hv, hs⟩ := ih hops' (fun d hd => hin d (List.mem_cons_of_mem _ hd))
          (fun x hx => hok x (List.mem_cons_of_mem _ hx))
            (by rw [hrest]; exact List.cons_ne_nil _ _)
        rw [hv] at hadd
        simp only [plus, parseI64_decimal hs] at hadd
        split at hadd
        · rename_i hsum
          cases hadd
          rw [List.sum_cons, Int.add_comm d]
          exact ⟨rfl, hsum⟩
        · cases hadd

end

/-- **A key is a register.**  In the order in which they take effect, the calls are a run of the
register from an absent key: none fails there, the value at its end is what is stored, and the
answers of a session are the results it was handed, and that of the call it is in.  So increments
add up. -/
theorem cache_register {ns key : String} {hash : String → String}
    {σ : CacheSysOf (PlainCall ns key hash)} (hr : CacheReachOf Subtype.val σ) :
    (∀ now, (σ.db.entryAt hash now ns key).map (·.value)
      = (registerRun Subtype.val (effects Subtype.val σ.hist)).2) ∧
    (∀ x ∈ (registerRun Subtype.val (effects Subtype.val σ.hist)).1, x.2.2.toBool = true) ∧
    (∀ s, ∃ pending, (registerRun Subtype.val (effects Subtype.val σ.hist)).1.filter (·.1 == s)
        = pending ++ (σ.done.filter (·.1 == s)).filter (·.2.2.toBool) ∧
      (σ.prog s = none → pending = [])) ∧
    ∀ deltas : List Int, deltas ≠ [] → (∀ d ∈ deltas, inI64 d) →
      (effects Subtype.val σ.hist).map (fun x => x.2.1.op)
        = deltas.map (fun d => .increment ns key d none) →
      ∀ now, (σ.db.entryAt hash now ns key).map (·.value) = some (decimal deltas.sum) := by
  have hplain : ∀ op : PlainCall ns key hash, PlainOn ns key hash op.1 := fun op => op.2
  obtain ⟨hhold, hal⟩ := cache_effective hplain hr
  have hok : σ.db.Ok := (cache_relies hr).holds.ok
  have hvalue := entryAt_register hok hhold.1 hhold.2
  have hfine : ∀ x ∈ (registerRun Subtype.val (effects Subtype.val σ.hist)).1,
      x.2.2.toBool = true := by
    intro x hx
    rw [answers_eq] at hx
    obtain ⟨⟨e, h⟩, hm, rfl⟩ := List.mem_map.mp hx
    obtain ⟨hm, he⟩ := List.mem_filter.mp hm
    obtain ⟨-, a, v, hreg⟩ := (hal.withPast hm).2 he
    rw [answerAt_of v rfl rfl rfl hreg]
    rfl
  refine ⟨hvalue, hfine, fun s => ?_, fun deltas hne hin hops now => ?_⟩
  · obtain ⟨run, parts, hown, hall, hidle⟩ := cache_answers Subtype.val hr s
    rw [← map_withPast_own] at hown
    obtain ⟨Mr, Mp, hM, hrun, hparts⟩ := List.map_eq_append_iff.mp hown
    have hp := parts_answers hplain hal hall
      (fun x hx => by simpa using (List.mem_filter.mp hx).2) Mr Mp hM hparts
    refine ⟨(Mr.filter fun m => takesEffect Subtype.val m.1).map (answerAt Subtype.val), ?_,
      fun hi => ?_⟩
    · rw [← hp, ← List.map_append, ← List.filter_append, ← hM, answers_eq, List.filter_map,
        List.filter_filter, List.filter_filter]
      congr 1
      apply List.filter_congr
      intro m _
      exact Bool.and_comm _ _
    · have h1 := hidle hi
      rw [h1] at hrun
      rw [List.map_eq_nil_iff.mp hrun]
      rfl
  · rw [hvalue]
    exact (registerRun_increments hops hin hfine hne).1

/-- an increment of the key `a` -/
def incrementA (d : Int) : PlainCall "app" "a" sampleHash :=
  ⟨⟨unbounded sampleHash, 0, .increment "app" "a" d none⟩, ⟨.inl rfl, rfl⟩, rfl, rfl, rfl⟩

/-- two increments of an absent key at once -/
def bothIncrement : List (Act (PlainCall "app" "a" sampleHash) CacheCtx) :=
  .call 0 (incrementA 5) :: .call 1 (incrementA 7) :: (List.replicate 3 (.stmt 0 ⟨0, id⟩) ++
    (List.replicate 4 (.stmt 1 ⟨1, id⟩) ++ (List.replicate 4 (.stmt 1 ⟨2, id⟩) ++
    List.replicate 5 (.stmt 0 ⟨3, id⟩))))

theorem cache_register_bothIncrement : ∃ σ : CacheSysOf (PlainCall "app" "a" sampleHash),
    CacheReachOf Subtype.val σ ∧
    effects Subtype.val σ.hist = [(0, incrementA 5), (1, incrementA 7)] ∧
    ∀ now, (σ.db.entryAt sampleHash now "app" "a").map (·.value) = some (decimal 12) := by
  have h : ((Sys.init CacheDb.empty).play CacheStmt.exec (fun op => op.1.body) bothIncrement).map
      (fun σ : CacheSysOf (PlainCall "app" "a" sampleHash) => effects Subtype.val σ.hist)
      = some [(0, incrementA 5), (1, incrementA 7)] := by rfl
  obtain ⟨σ, hplay, heq⟩ := Option.map_eq_some_iff.mp h
  have hr : CacheReachOf Subtype.val σ := Sys.play_steps hplay
  exact ⟨σ, hr, heq, (cache_register hr).2.2.2 [5, 7] (by decide) (by decide) (by rw [heq]; rfl)⟩

end PgApp
