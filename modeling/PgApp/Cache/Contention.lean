import PgApp.Cache.OneKey
import PgApp.Cache.Simulation

/-!
# Atomic writes on one key among others

`get_set`, `add_integer` and `concat` decide between UPDATE and a plain INSERT by what
`select_key_for_update` has found.  The advisory lock keeps them apart from each other, but `set`
and `set_nx` do not take it.  `cache_contention` says when the INSERT never meets a row: nobody
publishes the key in the gap (`LeavesAbsent`).

The gap begins before the SELECT has answered.  A SELECT ... FOR UPDATE that waits for a row which
another transaction removes finds nothing, also if that transaction has put a new row in its place:
the new row is not in the snapshot.  `CacheStmt.exec` runs a statement that has waited on the tables
it then finds, so the condition keeps new rows out from the DELETE of what had expired on.
-/

namespace PgApp
open Interleave

section
variable {Op : Type} {call : Op → CacheCall}

/-! ## gaps -/

/-- the session has found no row of the unique key and is about to insert one -/
def insertingAt (l : List Said) : Option (String × Int × String) :=
  match l with
  | ⟨.selectKeyForUpdate ns g keyHash _, none⟩ :: _ => some (ns, g, keyHash)
  | _ => none

/-- the session holds the advisory lock and is about to remove what has expired -/
def clearingAt (l : List Said) : Option (String × Int × String) :=
  match l with
  | ⟨.lockKey ns g keyHash, _⟩ :: _ => some (ns, g, keyHash)
  | _ => none

/-- the session holds the advisory lock, has removed what had expired, and is about to look for a
row -/
def seekingAt (l : List Said) : Option (String × Int × String) :=
  match l with
  | ⟨.deleteExpiredKey ns g keyHash _, _⟩ :: ⟨.lockKey _ _ _, _⟩ :: _ => some (ns, g, keyHash)
  | _ => none

/-- the statement publishes no row of a key that another session has found absent; no new row of a
key that another session is about to look for; and no row that has expired for a session that
removes what has expired -/
def LeavesAbsent (e : CacheEvOf Op) (h : List (CacheEvOf Op)) : Prop :=
  ∀ d ∈ h, d.sess ≠ e.sess → ∀ x ∈ publishedBy e,
    (insertingAt (said (ownEvents d.sess h)) ≠ some x.uniq) ∧
    (seekingAt (said (ownEvents d.sess h)) = some x.uniq → ∃ y ∈ e.pre.entries, y.id = x.id) ∧
    (clearingAt (said (ownEvents d.sess h)) = some x.uniq ∨
        seekingAt (said (ownEvents d.sess h)) = some x.uniq →
      x.expired (e.pre.now d.sess 0) = false)

instance (e : CacheEvOf Op) (h : List (CacheEvOf Op)) : Decidable (LeavesAbsent e h) :=
  inferInstanceAs (Decidable (∀ d ∈ h, d.sess ≠ e.sess → ∀ x ∈ publishedBy e, _ ∧ _))

/-- what the sessions in a gap rely on -/
structure GapsHold (db : CacheDb) (h : List (CacheEvOf Op)) : Prop where
  inserting : ∀ s u, insertingAt (said (ownEvents s h)) = some u →
    ∃ t, db.txs.get s = some t ∧ ∀ x ∈ db.entries, x.uniq = u → x.id ∈ t.gone
  seeking : ∀ s u, seekingAt (said (ownEvents s h)) = some u →
    ∃ t, db.txs.get s = some t ∧ ∀ x ∈ db.entries, x.uniq = u →
      x.id ∈ t.gone ∨ x.live t.startedAt = true

theorem insertingAt_said {l : List Said} {u : String × Int × String} (h : insertingAt l = some u) :
    ∃ ns g keyHash key rest, l = ⟨.selectKeyForUpdate ns g keyHash key, none⟩ :: rest ∧
      u = (ns, g, keyHash) := by
  unfold insertingAt at h
  split at h
  · rename_i ns g keyHash key rest
    cases h
    exact ⟨ns, g, keyHash, key, rest, rfl, rfl⟩
  · cases h

theorem seekingAt_said {l : List Said} {u : String × Int × String} (h : seekingAt l = some u) :
    ∃ ns g keyHash key rest, l = ⟨.deleteExpiredKey ns g keyHash key, ()⟩ :: rest ∧
      u = (ns, g, keyHash) := by
  unfold seekingAt at h
  split at h
  · rename_i ns g keyHash key _ _ _ _ _ rest
    cases h
    exact ⟨ns, g, keyHash, key, _, rfl, rfl⟩
  · cases h

theorem own_of_said {s : Nat} {h : List (CacheEvOf Op)} {x : Said} {l : List Said}
    (hs : said (ownEvents s h) = x :: l) : ∃ d ∈ h, d.sess = s := by
  obtain ⟨d, rest, hd, -, -⟩ := List.map_eq_cons_iff.mp hs
  have hm : d ∈ ownEvents s h := by
    rw [hd]
    exact List.mem_cons_self
  obtain ⟨h1, h2⟩ := List.mem_filter.mp hm
  exact ⟨d, h1, by simpa using h2⟩

/-- a row that was there, or a new one -/
theorem exec_rows_expiry {s : Nat} {c : CacheCtx} {st : CacheStmt} {db db' : CacheDb} {r : st.Res}
    (hok : db.Ok) (hx : CacheStmt.exec s c st db = some (r, db')) {x : EntryRow}
    (hm : x ∈ db'.entries) :
    x ∈ st.written s c db ∨ ∃ y ∈ db.entries, y.id = x.id ∧ y.uniq = x.uniq ∧
      ∀ now, y.live now = x.live now := by
  rcases exec_rows hok hx hm with hw | ⟨y, hy, hc⟩
  · exact .inl hw
  · refine .inr ⟨y, hy, congrArg (·.1) hc, congrArg (·.2.1) hc, fun now => ?_⟩
    have h1 : y.expiresAt = x.expiresAt := congrArg (·.2.2.2.2.1) hc
    unfold EntryRow.live EntryRow.expired
    rw [h1]

/-- the gaps of the other sessions -/
theorem GapsHold.other {s : Nat} {op : Op} {c : CacheCtx} {st : CacheStmt} {db db' : CacheDb}
    {r : st.Res} {h : List (CacheEvOf Op)} (hi : GapsHold db h) (hok : db.Ok)
    (hl : LeavesAbsent ⟨s, op, c, st, r, db⟩ h) (hx : CacheStmt.exec s c st db = some (r, db'))
    {u : Nat} (hu : u ≠ s) :
    (∀ k, insertingAt (said (ownEvents u h)) = some k →
      ∃ t, db'.txs.get u = some t ∧ ∀ x ∈ db'.entries, x.uniq = k → x.id ∈ t.gone) ∧
    ∀ k, seekingAt (said (ownEvents u h)) = some k →
      ∃ t, db'.txs.get u = some t ∧ ∀ x ∈ db'.entries, x.uniq = k →
        x.id ∈ t.gone ∨ x.live t.startedAt = true := by
  have htx := exec_txs_ne hx hu
  constructor
  · intro k hk
    obtain ⟨t, ht, hall⟩ := hi.inserting u k hk
    refine ⟨t, htx.trans ht, fun x hm hxu => ?_⟩
    obtain ⟨_, _, _, _, _, hs, -⟩ := insertingAt_said hk
    obtain ⟨d, hd, rfl⟩ := own_of_said hs
    rcases exec_rows_expiry hok hx hm with hw | ⟨y, hy, hid, hyu, -⟩
    · exact absurd (hxu ▸ hk) (hl d hd hu x hw).1
    · rw [← hid]
      exact hall y hy (hyu.trans hxu)
  · intro k hk
    obtain ⟨t, ht, hall⟩ := hi.seeking u k hk
    refine ⟨t, htx.trans ht, fun x hm hxu => ?_⟩
    obtain ⟨_, _, _, _, _, hs, -⟩ := seekingAt_said hk
    obtain ⟨d, hd, rfl⟩ := own_of_said hs
    rcases exec_rows_expiry hok hx hm with hw | ⟨y, hy, hid, hyu, hlive⟩
    · right
      have h1 := (hl d hd hu x hw).2.2 (.inr (hxu ▸ hk))
      have h2 : x.expired (db.now d.sess 0) = false := h1
      rw [CacheDb.now_eq ht] at h2
      unfold EntryRow.live
      rw [h2]
      rfl
    · rw [← hid, ← hlive]
      exact hall y hy (hyu.trans hxu)

theorem mem_seen_of_empty {db : CacheDb} {s : Nat} {t : CacheTx} (ht : db.txs.get s = some t)
    (hr : t.rows = []) {x : EntryRow} : x ∈ db.seen s ↔ x ∈ db.entries ∧ x.id ∉ t.gone := by
  rw [CacheDb.seen_eq ht]
  unfold CacheTx.apply
  rw [hr]
  simp

theorem AllOf.isKey {db : CacheDb} {ns key : String} {hash : String → String}
    (ha : db.AllOf ns key hash) {x : EntryRow} (hx : x ∈ db.entries) {ns' : String} {g : Int}
    {k key' : String} (hu : x.uniq = (ns', g, k)) (hkey : key' = key) : x.isKey ns' g k key'
        = true := by
  refine EntryRow.isKey_iff.mpr ⟨EntryRow.isAt_iff.mpr hu, ?_⟩
  rw [hkey]
  exact (ha x hx).2.1

/-- after the DELETE of what had expired -/
theorem seeking_own {ns key : String} {hash : String → String} {s : Nat} {op : Op} {c : CacheCtx}
    {db db' : CacheDb} {h : List (CacheEvOf Op)} {ns' : String} {g : Int} {k key' : String}
    {r : (CacheStmt.deleteExpiredKey ns' g k key').Res} (ha : db.AllOf ns key hash)
    (hkey : (call op).op.target = some (ns', key') → key' = key)
    (ho : Ordered call ⟨s, op, c, .deleteExpiredKey ns' g k key', r, db⟩ h)
    (hx : CacheStmt.exec s c (.deleteExpiredKey ns' g k key') db = some (r, db')) :
    ∃ t, db'.txs.get s = some t ∧ ∀ x ∈ db'.entries, x.uniq = (ns', g, k) →
      x.id ∈ t.gone ∨ x.live t.startedAt = true := by
  obtain ⟨htar, -, t, ht, hgone, -, hrows, -⟩ := ho.follows
  obtain ⟨t₀, hin⟩ := exec_inside hx rfl
  have ht₀ : some t = some t₀ := ht.symm.trans hin.open_
  cases ht₀
  refine ⟨_, hin.own, fun x hm hu => ?_⟩
  rw [hin.entries] at hm
  cases he : x.expired t.startedAt with
  | false =>
    right
    show x.live t.startedAt = true
    unfold EntryRow.live
    rw [he]
    rfl
  | true =>
    left
    refine List.mem_append_right _ (List.mem_map.mpr ⟨x, List.mem_filter.mpr ⟨?_, ?_⟩, rfl⟩)
    · refine (mem_seen_of_empty ht hrows).mpr ⟨hm, ?_⟩
      rw [hgone]
      exact List.not_mem_nil
    · rw [AllOf.isKey ha hm hu (hkey htar), he]
      rfl

/-- after a SELECT that has found nothing -/
theorem inserting_own {ns key : String} {hash : String → String} {s : Nat} {op : Op} {c : CacheCtx}
    {db db' : CacheDb} {h : List (CacheEvOf Op)} {ns' : String} {g : Int} {k key' : String}
    (ha : db.AllOf ns key hash) (hkey : (call op).op.target = some (ns', key') → key' = key)
    (hi : GapsHold db h) (ho : Ordered call ⟨s, op, c, .selectKeyForUpdate ns' g k key',
      none, db⟩ h)
    (hx : CacheStmt.exec s c (.selectKeyForUpdate ns' g k key') db = some (none, db')) :
    ∃ t, db'.txs.get s = some t ∧ ∀ x ∈ db'.entries, x.uniq = (ns', g, k) → x.id ∈ t.gone := by
  obtain ⟨htar, -, ⟨l, hl⟩, t, hc, -, hrows⟩ := ho.follows
  have ht : db.txs.get s = some t := hc.tx
  have hseek : seekingAt (said (ownEvents s h)) = some (ns', g, k) := by
    have h1 : said (ownEvents s h) = _ := hl.symm
    rw [h1]
    rfl
  obtain ⟨t₁, ht₁, hall⟩ := hi.seeking s _ hseek
  have h2 : some t = some t₁ := ht.symm.trans ht₁
  cases h2
  obtain ⟨-, hx⟩ := of_guard hx
  obtain ⟨t₂, ht₂, hx⟩ := CacheDb.inside_some hx
  have h3 : some t = some t₂ := ht.symm.trans ht₂
  cases h3
  unfold CacheDb.selectKeyForUpdate at hx
  split at hx
  · rename_i hf
    cases hx
    refine ⟨t, ht, fun x hm hu => ?_⟩
    rcases hall x hm hu with hg | hlive
    · exact hg
    · by_contra hg
      have h4 := List.find?_eq_none.mp hf x ((mem_seen_of_empty ht hrows).mpr ⟨hm, hg⟩)
      rw [AllOf.isKey ha hm hu (hkey htar), hlive] at h4
      exact h4 rfl
  · cases hx

theorem GapsHold.step {ns key : String} {hash : String → String}
    (hkey : ∀ op, OnKey ns key hash (call op)) {s : Nat} {op : Op} {c : CacheCtx} {st : CacheStmt}
    {db db' : CacheDb} {r : st.Res} {h : List (CacheEvOf Op)} (ha : db.AllOf ns key hash)
    (hi : GapsHold db h) (hl : LeavesAbsent ⟨s, op, c, st, r, db⟩ h)
    (ho : Ordered call ⟨s, op, c, st, r, db⟩ h) (hx : CacheStmt.exec s c st db = some (r, db')) :
    GapsHold db' (⟨s, op, c, st, r, db⟩ :: h) := by
  have hown : said (ownEvents s (⟨s, op, c, st, r, db⟩ :: h))
      = ⟨st, r⟩ :: said (ownEvents s h) := by
    rw [ownEvents_cons_self (e := ⟨s, op, c, st, r, db⟩) rfl]
    rfl
  have htar : ∀ {ns' key'}, (call op).op.target = some (ns', key') → key' = key := by
    intro ns' key' ht
    rcases (hkey op).1 with h1 | h1
    · rw [h1] at ht
      simp only [Option.some.injEq, Prod.mk.injEq] at ht
      exact ht.2.symm
    · rw [h1] at ht
      cases ht
  constructor
  · intro u k hk
    by_cases e : u = s
    · subst e
      rw [hown] at hk
      obtain ⟨ns', g, k', key', rest, heq, rfl⟩ := insertingAt_said hk
      obtain ⟨heq, -⟩ := List.cons.inj heq
      cases heq
      exact inserting_own ha htar hi ho hx
    · rw [ownEvents_cons_ne (e := ⟨s, op, c, st, r, db⟩) (Ne.symm e)] at hk
      exact (hi.other ho.good.ok hl hx e).1 k hk
  · intro u k hk
    by_cases e : u = s
    · subst e
      rw [hown] at hk
      obtain ⟨ns', g, k', key', rest, heq, rfl⟩ := seekingAt_said hk
      obtain ⟨heq, -⟩ := List.cons.inj heq
      cases heq
      exact seeking_own ha htar ho hx
    · rw [ownEvents_cons_ne (e := ⟨s, op, c, st, r, db⟩) (Ne.symm e)] at hk
      exact (hi.other ho.good.ok hl hx e).2 k hk

/-! ## inserts -/

/-- an INSERT of an atomic write does not meet the unique index -/
def Inserts (e : CacheEvOf Op) : Prop :=
  ∀ ns g keyHash key v ttl x,
    (⟨e.stmt, e.res⟩ : Said) ≠ ⟨.insertValue ns g keyHash key v ttl, .error (.uniqueViolation x)⟩

theorem inserts_of {e : CacheEvOf Op} {h : List (CacheEvOf Op)} (hi : GapsHold e.pre h)
    (ho : Ordered call e h) : Inserts e := by
  intro ns g k key v ttl x heq
  obtain ⟨s, op, c, st, r, db⟩ := e
  cases heq
  obtain ⟨-, -, -, -, ⟨l, hl⟩, t, hc, -, hrows⟩ := ho.follows
  have ht : db.txs.get s = some t := hc.tx
  have hins : insertingAt (said (ownEvents s h)) = some (ns, g, k) := by
    have h1 : said (ownEvents s h) = _ := hl.symm
    rw [h1]
    rfl
  obtain ⟨t₁, ht₁, hall⟩ := hi.inserting s _ hins
  have h2 : some t = some t₁ := ht.symm.trans ht₁
  cases h2
  obtain ⟨db', hx⟩ := ho.executed
  obtain ⟨t₂, ht₂, ⟨-, h, -⟩ | ⟨-, -, ⟨hconf, -⟩ | ⟨-, h, -⟩⟩⟩ := exec_insertValue hx
  · cases h
  · obtain ⟨x, hm, hat⟩ := List.any_eq_true.mp hconf
    obtain ⟨hm, hg⟩ := (mem_seen_of_empty ht hrows).mp hm
    exact hg (hall x hm (EntryRow.isAt_iff.mp hat))
  · cases h

end

/-- calls on one key -/
abbrev KeyCall (ns key : String) (hash : String → String) :=
    { c : CacheCall // OnKey ns key hash c }

/-- PostgreSQL has no moment at which the ttl ends, counted from the statement or from the start of
its transaction -/
def Unfit {Op : Type} (d : CacheEvOf Op) (ttl : Option Int) : Prop :=
  ∃ now, (now = d.ctx.now ∨ ∃ t, d.pre.txs.get d.sess = some t ∧ now = t.startedAt) ∧
    ¬ TtlFits now ttl

/-- a call that has failed executed nothing, or could not be done on the value it found, or
PostgreSQL does not take its key or its ttl -/
def OwnFault {Op : Type} (call : CacheCall) (r : PgAppResult CacheReturn)
    (part : List (CacheEvOf Op)) :
    Prop :=
  ∀ e, r = .error e → part = [] ∨ (∃ old, call.op.register old = .error e) ∨
    (∃ key ∈ call.op.keys, storable key = false) ∨ ∃ d ∈ part, Unfit d call.op.ttl

/-- an executed statement, and an INSERT has not met the unique index -/
structure Fair {Op : Type} (d : CacheEvOf Op) : Prop where
  executed : ∃ db', CacheStmt.exec d.sess d.ctx d.stmt d.pre = some (d.res, db')
  inserts : Inserts d

section
variable {Op : Type} {ns key : String} {g : Int} {k : String} {v : Bytes} {ttl : Option Int}
variable {x : SqlError} {part : List (CacheEvOf Op)}

theorem unfit_upsert (hf : ∀ d ∈ part, Fair d)
    (hm : (⟨.upsertEntry ns g k key v ttl, .error x⟩ : Said) ∈ said part) :
    ∃ d ∈ part, Unfit d ttl := by
  obtain ⟨⟨s, op, c, st, r, db⟩, hd, heq⟩ := List.mem_map.mp hm
  obtain ⟨db', hx⟩ := (hf _ hd).executed
  cases heq
  rcases exec_upsertEntry hx with ⟨hno, -⟩ | ⟨-, -, h, -⟩
  · exact ⟨_, hd, _, .inl rfl, hno⟩
  · cases h

theorem unfit_insertIfAbsent (hf : ∀ d ∈ part, Fair d)
    (hm : (⟨.insertIfAbsent ns g k key v ttl, .error x⟩ : Said) ∈ said part) :
    ∃ d ∈ part, Unfit d ttl := by
  obtain ⟨⟨s, op, c, st, r, db⟩, hd, heq⟩ := List.mem_map.mp hm
  obtain ⟨db', hx⟩ := (hf _ hd).executed
  cases heq
  obtain ⟨t, ht, ⟨hno, -⟩ | ⟨-, -, ⟨-, h, -⟩ | ⟨-, h, -⟩⟩⟩ := exec_insertIfAbsent hx
  · exact ⟨_, hd, _, .inr ⟨t, ht, rfl⟩, hno⟩
  · cases h
  · cases h

theorem unfit_store {op : CacheOp} {found : Option (Int × Bytes)} (hf : ∀ d ∈ part, Fair d)
    (hm : storeSaid op ns g k key found v (.error x) ∈ said part) : ∃ d ∈ part, Unfit d op.ttl := by
  obtain ⟨⟨s, o, c, st, r, db⟩, hd, heq⟩ := List.mem_map.mp hm
  obtain ⟨db', hx⟩ := (hf _ hd).executed
  cases found with
  | none =>
    have hins := (hf _ hd).inserts
    cases heq
    obtain ⟨t, ht, ⟨hno, -⟩ | ⟨-, -, ⟨-, -, h⟩ | ⟨-, h, -⟩⟩⟩ := exec_insertValue hx
    · exact ⟨_, hd, _, .inr ⟨t, ht, rfl⟩, hno⟩
    · cases h
      exact absurd rfl (hins _ _ _ _ _ _ _)
    · cases h
  | some q =>
    cases heq
    obtain ⟨t, ht, ⟨hno, -⟩ | ⟨-, -, h, -⟩⟩ := exec_updateValue hx
    · exact ⟨_, hd, _, .inr ⟨t, ht, rfl⟩, hno⟩
    · cases h

theorem ownFault_of {hash : String → String} {call : CacheCall}
    (hk : OnKey ns key hash call) {r : PgAppResult CacheReturn}
    (ha : Answered call r part) (hf : ∀ d ∈ part, Fair d) : OwnFault call r part := by
  rintro e rfl
  by_cases hat : call.op.atomic = true
  · obtain ⟨ns', key', htarget, -⟩ := call.body_atomic hat
    rw [answered_atomic hat htarget] at ha
    rcases ha with h | ⟨g, hkey, -⟩ | ⟨g, found, h, -⟩ | ⟨g, found, v, x, h⟩
    · exact .inl h
    · exact .inr (.inr (.inl ⟨key', (step_atomic hat htarget CacheMap.empty 0).1, hkey⟩))
    · exact .inr (.inl ⟨_, h⟩)
    · have hm : storeSaid call.op ns' g (call.store.hashKey key') key' found v (.error x)
          ∈ said part := by
        rw [h]
        exact List.mem_cons_of_mem _ List.mem_cons_self
      exact .inr (.inr (.inr (unfit_store hf hm)))
  obtain ⟨store, rounds, op⟩ := call
  cases op with
  | set ns' key' v' ttl' =>
    rcases ha with h | ⟨g, hkey, -⟩ | ⟨g, x, h⟩
    · exact .inl h
    · exact .inr (.inr (.inl ⟨key', List.mem_cons_self, hkey⟩))
    · have hm : (⟨.upsertEntry ns' g (store.hashKey key') key' v' ttl', .error x⟩ : Said)
          ∈ said part := by
        rw [h]
        exact List.mem_cons_self
      exact .inr (.inr (.inr (unfit_upsert hf hm)))
  | setNx ns' key' v' ttl' =>
    rcases ha with h | ⟨g, hkey, -⟩ | ⟨g, x, h⟩
    · exact .inl h
    · exact .inr (.inr (.inl ⟨key', List.mem_cons_self, hkey⟩))
    · have hm : (⟨.insertIfAbsent ns' g (store.hashKey key') key' v' ttl', .error x⟩ : Said)
          ∈ said part := by
        rw [h]
        exact List.mem_cons_of_mem _ List.mem_cons_self
      exact .inr (.inr (.inr (unfit_insertIfAbsent hf hm)))
  | delete ns' key' =>
    rcases ha with h | ⟨g, hkey, -⟩
    · exact .inl h
    · exact .inr (.inr (.inl ⟨key', List.mem_cons_self, hkey⟩))
  | getSet _ _ _ _ | increment _ _ _ _ | decrement _ _ _ _ | append _ _ _ _ | prepend _ _ _ _ =>
    exact absurd rfl hat
  | get _ _ | mget _ _ | exists_ _ _ | invalidateNamespace _ | sweepExpired _ | stats =>
    rcases hk.1 with h | h <;> cases h

end

/-- a call on the key `a` -/
def onA (op : CacheOp) (h : op.target = some ("app", "a")) : KeyCall "app" "a" sampleHash :=
  ⟨⟨unbounded sampleHash, 0, op⟩, .inl h, rfl⟩

def setOnA (v : Bytes) : KeyCall "app" "a" sampleHash := onA (.set "app" "a" v none) rfl
def getSetOnA (v : Bytes) : KeyCall "app" "a" sampleHash := onA (.getSet "app" "a" v none) rfl

/-- a `set` while a `get_set` has only the advisory lock: the `get_set` finds its row -/
def setFirst : List (Act (KeyCall "app" "a" sampleHash) CacheCtx) :=
  .call 0 (getSetOnA [1]) :: (List.replicate 4 (.stmt 0 ⟨0, id⟩) ++
    .call 1 (setOnA [2]) :: (List.replicate 3 (.stmt 1 ⟨1, id⟩) ++
    (List.replicate 9 (.stmt 0 ⟨2, id⟩) ++ [.ret 0])))

/-- a `set` after a `get_set` has found nothing -/
def setInBetween : List (Act (KeyCall "app" "a" sampleHash) CacheCtx) :=
  .call 0 (getSetOnA [1]) :: (List.replicate 6 (.stmt 0 ⟨0, id⟩) ++
    .call 1 (setOnA [2]) :: (List.replicate 3 (.stmt 1 ⟨1, id⟩) ++
    [.stmt 0 ⟨2, id⟩, .stmt 0 ⟨2, id⟩, .ret 0]))

end PgApp
