import PgApp.Cache.Order

/-!
# The programs of the cache, checked alone

For each statement what it does to the session's view (`OwnStep.…`), then for each operation that it
keeps to `Follows` and ends as `Answered` says.
-/

namespace PgApp
open Interleave CacheProg

abbrev CacheSafe {Op α : Type} (op : Op) (call : CacheCall)
    (Q : PgAppResult α → OwnView Op → Prop) (p : CacheProg α) (γ : OwnView Op) : Prop :=
  Safe (Follows call) (OwnStep op) Q p γ

/-! ## statements -/

section
variable {Op : Type} {op : Op} {γ γ' : OwnView Op} {st : CacheStmt} {r : st.Res}

theorem OwnStep.said (h : OwnStep op st r γ γ') : said γ'.own = ⟨st, r⟩ :: said γ.own := by
  obtain ⟨s, c, db, db', -, -, -, -, -, rfl⟩ := h
  rfl

theorem OwnStep.tail (h : OwnStep op st r γ γ') :
    ∃ e : CacheEvOf Op, e.stmt = st ∧ γ'.own = e :: γ.own := by
  obtain ⟨s, c, db, db', -, -, -, -, -, rfl⟩ := h
  exact ⟨_, rfl, rfl⟩

theorem OwnStep.tx_same (h : OwnStep op st r γ γ') (ht : st.inTx = false) : γ'.tx = γ.tx := by
  obtain ⟨s, c, db, db', -, -, htx, -, hx, rfl⟩ := h
  rw [← htx]
  show db'.txs.get s = _
  rw [exec_txs_same hx ht]

theorem OwnStep.begun {r : CacheStmt.Res .begin} (h : OwnStep op .begin r γ γ') :
    ∃ t, γ'.tx = some t ∧ t.Fresh := by
  obtain ⟨s, c, db, db', -, -, -, -, hx, rfl⟩ := h
  cases hx
  exact ⟨_, Slots.get_set_self _ _ _, rfl, rfl, rfl, rfl⟩

theorem OwnStep.committed {r : CacheStmt.Res .commit} (h : OwnStep op .commit r γ γ') :
    γ'.tx = none := by
  obtain ⟨s, c, db, db', -, -, -, -, hx, rfl⟩ := h
  cases hx
  show (db.commit s).txs.get s = none
  cases ht : db.txs.get s with
  | none =>
    simp only [CacheDb.commit, ht]
  | some t =>
    simp only [CacheDb.commit, ht]
    exact Slots.get_erase_self _ _

theorem OwnStep.rolledBack {r : CacheStmt.Res .rollback} (h : OwnStep op .rollback r γ γ') :
    γ'.tx = none := by
  obtain ⟨s, c, db, db', -, -, -, -, hx, rfl⟩ := h
  cases hx
  exact Slots.get_erase_self _ _

/-- a statement inside the transaction: the store, and what becomes of the transaction -/
theorem OwnStep.inside (h : OwnStep op st r γ γ') (hi : st.inside = true) {t : CacheTx}
    (ht : γ.tx = some t) :
    ∃ s c db db', db.Ok ∧ db.txs.get s = some t ∧ CacheStmt.exec s c st db = some (r, db') ∧
      γ'.tx = some (st.txAfter s db t) ∧
      (∀ x, γ.held x ↔ x ∈ db.entries ∧ t.holdsRow x.id = true) ∧
      ∀ x, γ'.held x ↔ x ∈ db.entries ∧ (st.txAfter s db t).holdsRow x.id = true := by
  obtain ⟨s, c, db, db', hok, -, htx, hheld, hx, rfl⟩ := h
  obtain ⟨t', ho⟩ := exec_inside hx hi
  obtain rfl : t' = t := by
    have h1 := ho.open_
    rw [htx, ht] at h1
    exact (Option.some.inj h1).symm
  refine ⟨s, c, db, db', hok, ho.open_, hx, ho.own, fun x => ?_, fun x => ?_⟩
  · rw [← hheld]
    unfold CacheDb.holding
    rw [ho.open_]
    simp
  · show db'.holding s x ↔ _
    unfold CacheDb.holding
    rw [ho.own, ho.entries]
    simp

variable {ns : String} {g : Int} {keyHash key : String}

theorem OwnStep.locked {r : CacheStmt.Res (.lockKey ns g keyHash)}
    (h : OwnStep op (.lockKey ns g keyHash) r γ γ') {t : CacheTx} (ht : γ.tx = some t)
    (hf : t.Fresh) :
    ∃ t', γ'.tx = some t' ∧ t'.advisory = [lockText ns g keyHash] ∧ t'.gone = [] ∧ t'.locked = [] ∧
      t'.rows = [] := by
  obtain ⟨s, c, db, db', -, -, -, htx, -, -⟩ := h.inside rfl ht
  refine ⟨_, htx, ?_, hf.2.1, hf.2.2.1, hf.2.2.2⟩
  show t.advisory ++ _ = _
  rw [hf.1]
  rfl

theorem apply_of_empty {t : CacheTx} (hg : t.gone = []) (hr : t.rows = []) (rows : List EntryRow) :
    t.apply rows = rows := by
  unfold CacheTx.apply
  rw [hg, hr]
  simp

theorem OwnStep.cleared {r : CacheStmt.Res (.deleteExpiredKey ns g keyHash key)}
    (h : OwnStep op (.deleteExpiredKey ns g keyHash key) r γ γ') (hkey : storable key = true)
    {t : CacheTx} (ht : γ.tx = some t) (hg : t.gone = []) (hl : t.locked = []) (hr : t.rows = []) :
    ∃ t', Clearing γ' ns g keyHash key t.advisory t' ∧ t'.locked = [] ∧ t'.rows = [] := by
  obtain ⟨s, c, db, db', hok, hdb, hx, htx, -, hheld⟩ := h.inside rfl ht
  refine ⟨_, ⟨htx, hkey, rfl, fun i hi => ?_⟩, hl, ?_⟩
  · have hi' : i ∈ t.gone ++ _ := hi
    rw [hg, List.nil_append] at hi'
    obtain ⟨x, hm, rfl⟩ := List.mem_map.mp hi'
    obtain ⟨hm, hp⟩ := List.mem_filter.mp hm
    rw [CacheDb.seen_eq hdb, apply_of_empty hg hr] at hm
    rw [Bool.and_eq_true] at hp
    exact ⟨x, (hheld x).mpr ⟨hm, CacheTx.holdsRow_iff.mpr (.inl hi)⟩, rfl, hp.1, hp.2⟩
  · show t.rows.filter _ = []
    rw [hr]
    rfl

/-- what a transaction holds it goes on holding -/
theorem Clearing.later {advisory : List String} {t t' : CacheTx}
    (h : Clearing γ ns g keyHash key advisory t) {db : CacheDb}
    (hdb : ∀ x, γ.held x ↔ x ∈ db.entries ∧ t.holdsRow x.id = true)
    (hdb' : ∀ x, γ'.held x ↔ x ∈ db.entries ∧ t'.holdsRow x.id = true) (htx : γ'.tx = some t')
    (ha : t'.advisory = t.advisory) (hs : t'.startedAt = t.startedAt) (hg : t'.gone = t.gone) :
    Clearing γ' ns g keyHash key advisory t' where
  tx := htx
  bound := h.bound
  advisory := ha.trans h.advisory
  gone := by
    intro i hi
    rw [hg] at hi
    obtain ⟨x, hx, rfl, hk, he⟩ := h.gone i hi
    refine ⟨x, (hdb' x).mpr ⟨((hdb x).mp hx).1, CacheTx.holdsRow_iff.mpr (.inl ?_)⟩, rfl, hk, ?_⟩
    · rw [hg]
      exact hi
    · rw [hs]
      exact he

theorem OwnStep.sought {found : Option (Int × Bytes)}
    (h : OwnStep op (.selectKeyForUpdate ns g keyHash key) found γ γ') {t : CacheTx}
    {advisory : List String} (hc : Clearing γ ns g keyHash key advisory t) (hr : t.rows = []) :
    match found with
    | none => Clearing γ' ns g keyHash key advisory t
    | some (id, old) => ∃ t' x, Clearing γ' ns g keyHash key advisory t' ∧
        Found γ' ns g keyHash key t' id old x ∧ t'.rows = [] := by
  obtain ⟨s, c, db, db', hok, hdb, hx, htx, hold, hheld⟩ := h.inside rfl hc.tx
  obtain ⟨-, hx⟩ := of_guard hx
  obtain ⟨t₁, ht₁, hx⟩ := CacheDb.inside_some hx
  rw [hdb] at ht₁
  obtain rfl := Option.some.inj ht₁
  unfold CacheDb.selectKeyForUpdate at hx
  cases hf : db.findLive s ns g keyHash key t.startedAt with
  | none =>
    rw [hf] at hx
    cases hx
    simp only [CacheStmt.txAfter, hf] at htx hheld
    exact hc.later hold hheld htx rfl rfl rfl
  | some x =>
    rw [hf] at hx
    cases hx
    simp only [CacheStmt.txAfter, hf] at htx hheld
    have hm := List.mem_of_find?_eq_some hf
    have hp : (x.isKey ns g keyHash key && x.live t.startedAt) = true := by
      simpa using List.find?_some hf
    rw [Bool.and_eq_true] at hp
    rw [CacheDb.seen_eq hdb] at hm
    have hm' : x ∈ db.entries := by
      rcases (hok.tx s t hdb).mem_apply.mp hm with h1 | ⟨h1, -, -⟩
      · rw [hr] at h1
        cases h1
      · exact h1
    refine ⟨_, x, hc.later hold hheld htx rfl rfl rfl,
      ⟨(hheld x).mpr ⟨hm', ?_⟩, rfl, hp.1, hp.2, rfl⟩,
      hr⟩
    exact CacheTx.holdsRow_iff.mpr (.inr (.inl (List.mem_append_right _ List.mem_cons_self)))

/-- a row of the key that the INSERT does not see as its own: the transaction has deleted nothing -/
theorem Clearing.gone_of_conflict {advisory : List String} {t : CacheTx}
    (h : Clearing γ ns g keyHash key advisory t) (hr : t.rows = []) {s : Nat} {db : CacheDb}
    (hok : db.Ok) (hdb : db.txs.get s = some t)
    (hold : ∀ x, γ.held x ↔ x ∈ db.entries ∧ t.holdsRow x.id = true)
    (hc : db.conflict s ns g keyHash = true) : t.gone = [] := by
  obtain ⟨x, hx, ha⟩ := List.any_eq_true.mp hc
  rw [CacheDb.seen_eq hdb] at hx
  rcases (hok.tx s t hdb).mem_apply.mp hx with h1 | ⟨h1, h2, -⟩
  · rw [hr] at h1
    cases h1
  · cases hg : t.gone with
    | nil => rfl
    | cons i l =>
      exfalso
      obtain ⟨y, hy, e, hk, -⟩ := h.gone i (by rw [hg]; exact List.mem_cons_self)
      have hxy : x = y := hok.eq_of_uniq h1 ((hold y).mp hy).1
        ((EntryRow.isAt_iff.mp ha).trans (EntryRow.isAt_iff.mp (EntryRow.isKey_iff.mp hk).1).symm)
      apply h2
      rw [hxy, e, hg]
      exact List.mem_cons_self

/-- the transaction with a new row -/
theorem Clearing.inserted {advisory : List String} {t : CacheTx}
    (h : Clearing γ ns g keyHash key advisory t) (hr : t.rows = []) {db : CacheDb} (hok : db.Ok)
    (hold : ∀ x, γ.held x ↔ x ∈ db.entries ∧ t.holdsRow x.id = true) {v : Bytes} {ttl : Option Int}
    (htx : γ'.tx = some { t with
      rows := t.rows ++ [newEntry db.nextEntryId ns g keyHash key v ttl t.startedAt] })
    (hheld : ∀ x, γ'.held x ↔ x ∈ db.entries ∧ CacheTx.holdsRow { t with
      rows := t.rows ++ [newEntry db.nextEntryId ns g keyHash key v ttl t.startedAt] }
        x.id = true) :
    ∃ i t', Clearing γ' ns g keyHash key advisory t' ∧
      t'.rows = [newEntry i ns g keyHash key v ttl t'.startedAt] ∧ Unused γ' i := by
  refine ⟨db.nextEntryId, _, h.later hold hheld htx rfl rfl rfl, ?_, fun x hx => ?_⟩
  · show t.rows ++ _ = _
    rw [hr]
    rfl
  · have h1 := hok.below x ((hheld x).mp hx).1
    omega

theorem OwnStep.insertedIfAbsent {v : Bytes} {ttl : Option Int} {n : Except SqlError Nat}
    (h : OwnStep op (.insertIfAbsent ns g keyHash key v ttl) n γ γ') {t : CacheTx}
    {advisory : List String} (hc : Clearing γ ns g keyHash key advisory t) (hr : t.rows = []) :
    (∃ x, n = .error x) ∨ (n = .ok 0 ∧ γ'.tx = some t ∧ t.gone = [] ∧ t.rows = []) ∨
      (n = .ok 1 ∧ ∃ i t', Clearing γ' ns g keyHash key advisory t' ∧
        t'.rows = [newEntry i ns g keyHash key v ttl t'.startedAt] ∧ Unused γ' i) := by
  obtain ⟨s, c, db, db', hok, hdb, hx, htx, hold, hheld⟩ := h.inside rfl hc.tx
  obtain ⟨t₁, ht₁, ⟨-, rfl, -⟩ | ⟨hf, -, ⟨hcf, rfl, -⟩ | ⟨hcf, rfl, -⟩⟩⟩ := exec_insertIfAbsent hx
  · exact .inl ⟨_, rfl⟩
  · simp only [CacheStmt.txAfter, hcf, reduceCtorEq, and_false, if_false] at htx
    exact .inr (.inl ⟨rfl, htx, hc.gone_of_conflict hr hok hdb hold hcf, hr⟩)
  · rw [hdb] at ht₁
    obtain rfl := Option.some.inj ht₁
    simp only [CacheStmt.txAfter, hcf, hf, and_self, if_true] at htx hheld
    exact .inr (.inr ⟨rfl, hc.inserted hr hok hold htx hheld⟩)

theorem OwnStep.insertedValue {v : Bytes} {ttl : Option Int} {n : Except SqlError Unit}
    (h : OwnStep op (.insertValue ns g keyHash key v ttl) n γ γ') {t : CacheTx}
    {advisory : List String} (hc : Clearing γ ns g keyHash key advisory t) (hr : t.rows = []) :
    (∃ x, n = .error x) ∨
      (n = .ok () ∧ ∃ i t', Clearing γ' ns g keyHash key advisory t' ∧
        t'.rows = [newEntry i ns g keyHash key v ttl t'.startedAt] ∧ Unused γ' i) := by
  obtain ⟨s, c, db, db', hok, hdb, hx, htx, hold, hheld⟩ := h.inside rfl hc.tx
  obtain ⟨t₁, ht₁, ⟨-, rfl, -⟩ | ⟨hf, -, ⟨-, -, rfl⟩ | ⟨hcf, rfl, -⟩⟩⟩ := exec_insertValue hx
  · exact .inl ⟨_, rfl⟩
  · exact .inl ⟨_, rfl⟩
  · rw [hdb] at ht₁
    obtain rfl := Option.some.inj ht₁
    simp only [CacheStmt.txAfter, hcf, hf, and_self, if_true] at htx hheld
    exact .inr ⟨rfl, hc.inserted hr hok hold htx hheld⟩

/-- the locked row is still there when it is updated -/
theorem OwnStep.updated {id : Int} {v old : Bytes} {ttl : Option Int} {preserve : Bool}
    {r : CacheStmt.Res (.updateValue id v ttl preserve)}
    (h : OwnStep op (.updateValue id v ttl preserve) r γ γ') {t : CacheTx} {advisory : List String}
    (hc : Clearing γ ns g keyHash key advisory t) {x : EntryRow}
    (hf : Found γ ns g keyHash key t id old x) (hr : t.rows = []) :
    (∃ e, r = .error e) ∨ (r = .ok () ∧ ∃ t', Clearing γ' ns g keyHash key advisory t' ∧
      Found γ' ns g keyHash key t' id old x ∧
      t'.rows = [x.withValue v ttl preserve t'.startedAt]) := by
  obtain ⟨s, c, db, db', hok, hdb, hx, htx, hold, hheld⟩ := h.inside rfl hc.tx
  obtain ⟨t₁, ht₁, ⟨-, rfl, -⟩ | ⟨hfits, -, rfl, -⟩⟩ := exec_updateValue hx
  · exact .inl ⟨_, rfl⟩
  rw [hdb] at ht₁
  obtain rfl := Option.some.inj ht₁
  obtain ⟨hxh, rfl, hk, hl, hv⟩ := hf
  have hm := ((hold x).mp hxh).1
  -- it is live, so it is not among the rows that were deleted
  have hng : x.id ∉ t.gone := by
    intro hg
    obtain ⟨y, hy, e, -, he⟩ := hc.gone _ hg
    rw [eq_of_id hok.ids ((hold y).mp hy).1 hm e] at he
    unfold EntryRow.live at hl
    rw [he] at hl
    cases hl
  have hseen : x ∈ t.apply db.entries := by
    refine (hok.tx s t hdb).mem_apply.mpr (.inr ⟨hm, hng, ?_⟩)
    rw [hr]
    exact List.not_mem_nil
  have hfind : (db.seen s).find? (·.id == x.id) = some x := by
    rw [CacheDb.seen_eq hdb]
    exact find_id (ids_foldl_putEntry (ids_filter hok.ids _)) hseen
  simp only [CacheStmt.txAfter, hfind, hfits, if_true] at htx hheld
  have hrows : putEntry t.rows (x.withValue v ttl preserve t.startedAt)
      = [x.withValue v ttl preserve t.startedAt] := by
    rw [hr]
    rfl
  refine .inr ⟨rfl, _, hc.later hold hheld htx rfl rfl rfl,
    ⟨(hheld x).mpr ⟨hm, ?_⟩, rfl, hk, hl, hv⟩, hrows⟩
  refine CacheTx.holdsRow_iff.mpr (.inr (.inr ⟨x.withValue v ttl preserve t.startedAt, ?_, rfl⟩))
  rw [hrows]
  exact List.mem_cons_self

end

/-! ## after a write -/

section
variable {Op : Type} {op : Op} {call : CacheCall} {γ γ' γ₀ : OwnView Op} {α β : Type}

theorem safe_query {Q : PgAppResult α → OwnView Op → Prop} {st : CacheStmt}
    {k : st.Res → CacheProg α}
    (hp : Follows call st γ)
    (hk : ∀ r γ', OwnStep op st r γ γ' → CacheSafe op call Q (k r) γ') :
    CacheSafe op call Q (query st >>= k) γ := ⟨hp, hk⟩

/-- since `γ₀` the session has executed only statements that come after a write -/
def Trails (γ₀ γ : OwnView Op) : Prop :=
  γ.tx = none ∧ ∃ tail, γ.own = tail ++ γ₀.own ∧ ∀ e ∈ tail, e.stmt.trails = true

theorem Trails.refl (h : γ.tx = none) : Trails γ γ := ⟨h, [], rfl, fun e he => (by cases he)⟩

theorem Trails.step (h : Trails γ₀ γ) {st : CacheStmt} {r : st.Res} (hs : OwnStep op st r γ γ')
    (ht : st.trails = true) : Trails γ₀ γ' := by
  obtain ⟨htx, tail, ho, htail⟩ := h
  have hin : st.inTx = false := by
    cases st <;> first | rfl | cases ht
  obtain ⟨e, he, ho'⟩ := hs.tail
  refine ⟨(hs.tx_same hin).trans htx, e :: tail, ?_, fun e' he' => ?_⟩
  · rw [ho', ho]
    rfl
  · rcases List.mem_cons.mp he' with rfl | he'
    · rw [he]
      exact ht
    · exact htail e' he'

theorem sweep_safe (h : Trails γ₀ γ) {limit : Int} :
    CacheSafe op call (fun r γ' => Trails γ₀ γ' ∧ (0 ≤ limit → ∃ n, r = .ok n))
      (sweepExpired limit) γ := by
  refine safe_query trivial fun ids γ₁ h₁ => ?_
  cases ids with
  | error x =>
    refine ⟨h.step h₁ rfl, fun hl => ?_⟩
    obtain ⟨s, c, db, db', -, -, -, -, hx, -⟩ := h₁
    have hl' : ¬ limit < 0 := by omega
    simp [CacheStmt.exec, CacheDb.doomed, hl'] at hx
  | ok ids =>
    have hp : [(⟨.doomed limit, .ok ids⟩ : Said)] <+: said γ₁.own := by
      rw [h₁.said]
      exact ⟨_, rfl⟩
    refine safe_query (.inl ⟨limit, hp⟩) fun removed γ₂ h₂ => ?_
    have ht := (h.step h₁ rfl).step h₂ rfl
    show CacheSafe op call _ (if removed > 0 then _ else _) γ₂
    split
    · refine safe_query trivial fun _ γ₃ h₃ => ?_
      exact ⟨ht.step h₃ rfl, fun _ => ⟨_, rfl⟩⟩
    · exact ⟨ht, fun _ => ⟨_, rfl⟩⟩

theorem idle_safe {Q : PgAppResult α → OwnView Op → Prop} {k : CacheStmt.Res .idle → CacheProg α} :
    CacheSafe op call Q (.exec .idle k) γ := by
  refine ⟨trivial, fun r γ' h => ?_⟩
  obtain ⟨s, c, db, db', -, -, -, -, hx, -⟩ := h
  cases hx

theorem evictLoop_safe (ns : String) (g : Int) (rounds : Nat) {x : Int} {o : Bool} (h : Trails γ₀ γ)
    (he : Evicting call.store ns g x o (said γ.own)) :
    CacheSafe op call (fun r γ' => r = .ok () ∧ Trails γ₀ γ') (call.store.evictLoop ns g rounds x o)
      γ := by
  induction rounds generalizing γ x o with
  | zero =>
    show CacheSafe op call _ (if x > 0 ∨ o = true then _ else _) γ
    split
    · exact idle_safe
    · exact ⟨rfl, h⟩
  | succ rounds ih =>
    show CacheSafe op call _ (if x > 0 ∨ o = true then _ else _) γ
    split
    · rename_i hc
      refine safe_query trivial fun id γ₁ h₁ => ?_
      have hp : Follows call (.deleteIds id.toList) γ₁ :=
        .inr ⟨ns, g, id, x, o, said γ.own, rfl, h₁.said, he, hc⟩
      refine safe_query hp fun deleted γ₂ h₂ => ?_
      have ht := (h.step h₁ rfl).step h₂ rfl
      show CacheSafe op call _ (if deleted = 0 then _ else _) γ₂
      split
      · exact ⟨rfl, ht⟩
      · rename_i hd
        refine safe_query trivial fun _ γ₃ h₃ => ?_
        have ht' := ht.step h₃ rfl
        have hs : said γ₃.own = ⟨.incrementCounter .evictions deleted, ()⟩ ::
            ⟨.deleteIds id.toList, deleted⟩ :: ⟨.victim ns g, id⟩ :: said γ.own := by
          rw [h₃.said, h₂.said, h₁.said]
        -- `over_bytes` is read anew only where there is a limit on bytes
        show CacheSafe op call _ (call.store.stillOver ns g o >>= _) γ₃
        unfold CacheStore.stillOver
        cases hm : call.store.limits.maxBytes with
        | none =>
          show CacheSafe op call _ (call.store.evictLoop ns g rounds
            (call.store.asKeys (x - deleted)) o) γ₃
          apply ih ht'
          rw [hs]
          exact he.keys hd hm
        | some m =>
          refine safe_query trivial fun b γ₄ h₄ => ?_
          show CacheSafe op call _
            (call.store.evictLoop ns g rounds (call.store.asKeys (x - deleted))
              (call.store.overBytes b)) γ₄
          apply ih (ht'.step h₄ rfl)
          rw [h₄.said, hs]
          exact he.bytes b hd
    · exact ⟨rfl, h⟩

theorem enforceCapacity_safe (rounds : Nat) (ns : String) (h : Trails γ₀ γ) :
    CacheSafe op call (fun r γ' => r = .ok () ∧ Trails γ₀ γ')
      (call.store.enforceCapacity rounds ns) γ := by
  refine Safe.bind (sweep_safe h) (fun removed γ₁ h₁ => ?_) fun e γ₁ h₁ => ?_
  · show CacheSafe op call _ (if removed > 0 then _ else _) γ₁
    split
    · exact ⟨rfl, h₁.1⟩
    · refine safe_query trivial fun gen γ₂ h₂ => ?_
      have ht := h₁.1.step h₂ rfl
      cases gen with
      | none => exact ⟨rfl, ht⟩
      | some g =>
        refine safe_query trivial fun usage γ₃ h₃ => ?_
        apply evictLoop_safe ns g rounds (ht.step h₃ rfl)
        rw [h₃.said, h₂.said]
        exact .start usage.1 usage.2 _
  · obtain ⟨n, hn⟩ := h₁.2 (by decide)
    cases hn

theorem written_safe (rounds : Nat) (ns : String) (h : Trails γ₀ γ) :
    CacheSafe op call (fun r γ' => r = .ok () ∧ Trails γ₀ γ') (call.store.written rounds ns) γ := by
  refine safe_query trivial fun _ γ₁ h₁ => ?_
  exact enforceCapacity_safe rounds ns (h.step h₁ rfl)

/-! ## writes -/

/-- since `γ₀` the session has executed these statements -/
def Grown (γ₀ γ : OwnView Op) (core : List Said) : Prop :=
  ∃ body, γ.own = body ++ γ₀.own ∧ said body = core

theorem Grown.refl (γ : OwnView Op) : Grown γ γ [] := ⟨[], rfl, rfl⟩

theorem Grown.step {core : List Said} (h : Grown γ₀ γ core) {st : CacheStmt} {r : st.Res}
    (hs : OwnStep op st r γ γ') : Grown γ₀ γ' (⟨st, r⟩ :: core) := by
  obtain ⟨body, ho, hb⟩ := h
  obtain ⟨s, c, db, db', -, -, -, -, -, rfl⟩ := hs
  refine ⟨⟨s, op, c, st, r, db⟩ :: body, ?_, ?_⟩
  · show _ :: γ.own = _
    rw [ho]
    rfl
  · rw [said_cons, hb]

theorem Grown.said {core : List Said} (h : Grown γ₀ γ core) : core <+: PgApp.said γ.own := by
  obtain ⟨body, ho, hb⟩ := h
  rw [ho, said_append, hb]
  exact List.prefix_append _ _

theorem Grown.wrote {core : List Said} (h : Grown γ₀ γ core) (ht : Trails γ γ') :
    ∃ new, γ'.own = new ++ γ₀.own ∧ Wrote new core := by
  obtain ⟨body, ho, hb⟩ := h
  obtain ⟨-, tail, ho', htail⟩ := ht
  refine ⟨tail ++ body, ?_, tail, body, rfl, htail, hb⟩
  rw [ho', ho, List.append_assoc]

/-- the first statements of every write -/
theorem start_safe {Q : PgAppResult α → OwnView Op → Prop} {ns : String} {k : Int → CacheProg α}
    (h : γ.tx = none)
    (hk : ∀ g γ', γ'.tx = none → Grown γ γ' (afterRead ns g) → CacheSafe op call Q (k g) γ') :
    CacheSafe op call Q (query (.ensureNamespace ns) >>=
        fun _ => namespaceGeneration ns >>= k) γ := by
  refine safe_query trivial fun _ γ₁ h₁ => safe_query trivial fun gen γ₂ h₂ => ?_
  have htx : γ₂.tx = none := (h₂.tx_same rfl).trans ((h₁.tx_same rfl).trans h)
  cases gen with
  | some g => exact hk g γ₂ htx (((Grown.refl γ).step h₁).step h₂)
  | none =>
    exfalso
    obtain ⟨s, c, db, db', -, hknown, -, -, hx, -⟩ := h₂
    obtain ⟨g, hg⟩ := hknown ns (by rw [h₁.said]; exact List.mem_cons_self)
    have hx' : db.generationOf ns = none := by
      have h3 : some (db.generationOf ns, db) = some (none, db') := hx
      simp only [Option.some.injEq, Prod.mk.injEq] at h3
      exact h3.1
    rw [hg] at hx'
    cases hx'

/-- the end of a call of the store: the answer handed on -/
theorem answer_safe {M : PgAppResult α → OwnView Op → Prop}
    {Q : PgAppResult β → OwnView Op → Prop} {p : CacheProg α} {f : α → β}
    (h : CacheSafe op call M p γ) (hk : ∀ a γ, M (.ok a) γ → Q (.ok (f a)) γ)
    (he : ∀ e γ, M (.error e) γ → Q (.error e) γ) :
    CacheSafe op call Q (p >>= fun a => pure (f a)) γ :=
  Safe.bind h hk he

/-- how a call ends: no transaction is open, and `N` of what it has executed -/
def Ended (γ₀ : OwnView Op) (N : PgAppResult α → List (CacheEvOf Op) → Prop) (r : PgAppResult α)
    (γ : OwnView Op) : Prop := γ.tx = none ∧ ∃ new, γ.own = new ++ γ₀.own ∧ N r new

theorem Ended.nothing {N : PgAppResult α → List (CacheEvOf Op) → Prop} {r : PgAppResult α}
    (h : γ.tx = none) (hn : N r []) : Ended γ N r γ := ⟨h, [], rfl, hn⟩

theorem Grown.ended {core : List Said} (h : Grown γ₀ γ core) (ht : Trails γ γ')
    {N : PgAppResult α → List (CacheEvOf Op) → Prop} {r : PgAppResult α}
    (hn : ∀ new, Wrote new core → N r new) : Ended γ₀ N r γ' := by
  obtain ⟨new, ho, hw⟩ := h.wrote ht
  exact ⟨ht.1, new, ho, hn new hw⟩

theorem Grown.endedNow {core : List Said} (h : Grown γ₀ γ core) (ht : γ.tx = none)
    {N : PgAppResult α → List (CacheEvOf Op) → Prop} {r : PgAppResult α}
    (hn : ∀ new, PgApp.said new = core → N r new) : Ended γ₀ N r γ := by
  obtain ⟨body, ho, hb⟩ := h
  exact ⟨ht, body, ho, hn body hb⟩

theorem set_safe (call : CacheCall) (rounds : Nat) {ns key : String} {v : Bytes} {ttl : Option Int}
    (hop : call.op = .set ns key v ttl) (h : γ.tx = none) :
    CacheSafe op call (Ended γ fun r new => match r with
      | .ok _ => ∃ g, Wrote new
          (⟨.upsertEntry ns g (call.store.hashKey key) key v ttl, .ok ()⟩ :: afterRead ns g)
      | .error _ => new = [] ∨ (∃ g, storable key = false ∧ said new = afterRead ns g) ∨
          ∃ g x, said new =
            ⟨.upsertEntry ns g (call.store.hashKey key) key v ttl, .error x⟩ :: afterRead ns g)
      (call.store.set rounds ns key v ttl) γ := by
  refine Safe.check_bind (fun _ _ => ?_) fun e => Ended.nothing h (.inl rfl)
  refine start_safe h fun g γ₁ ht hg => ?_
  cases hkey : storable key with
  | false =>
    rw [bindKey_error hkey]
    exact hg.endedNow ht fun new hn => .inr (.inl ⟨g, rfl, hn⟩)
  | true =>
    rw [bindKey_ok hkey]
    refine safe_query ⟨hop, rfl, ht, hkey, hg.said⟩ fun r γ₂ h₂ => ?_
    have ht₂ : γ₂.tx = none := (h₂.tx_same rfl).trans ht
    cases r with
    | error x => exact (hg.step h₂).endedNow ht₂ fun new hn => .inr (.inr ⟨g, x, hn⟩)
    | ok _ =>
      refine (written_safe rounds ns (Trails.refl ht₂)).mono fun r γ₃ h₃ => ?_
      obtain ⟨rfl, ht₃⟩ := h₃
      exact (hg.step h₂).ended ht₃ fun new hw => ⟨g, hw⟩

theorem setNx_safe (call : CacheCall) (rounds : Nat) {ns key : String} {v : Bytes}
    {ttl : Option Int}
    (hop : call.op = .setNx ns key v ttl) (h : γ.tx = none) :
    CacheSafe op call (Ended γ fun r new => match r with
      | .ok b => ∃ g,
          (b = true ∧ Wrote new (afterInsert ns g (call.store.hashKey key) key v ttl 1)) ∨
          (b = false ∧ said new = afterInsert ns g (call.store.hashKey key) key v ttl 0)
      | .error _ => new = [] ∨
          (∃ g, storable key = false ∧ said new = ⟨.rollback, ()⟩ :: afterBegin ns g) ∨
          ∃ g x, said new = ⟨.rollback, ()⟩ ::
            ⟨.insertIfAbsent ns g (call.store.hashKey key) key v ttl, .error x⟩ ::
            afterClear ns g (call.store.hashKey key) key (afterBegin ns g))
      (call.store.setNx rounds ns key v ttl) γ := by
  have htarget : call.op.target = some (ns, key) := by rw [hop]; rfl
  refine Safe.check_bind (fun _ _ => ?_) fun e => Ended.nothing h (.inl rfl)
  refine start_safe h fun g γ₁ ht₁ hg₁ => ?_
  refine Safe.bind (M := fun r γ' => γ'.tx = none ∧
      ((r = .ok true ∧ Grown γ γ' (afterInsert ns g (call.store.hashKey key) key v ttl 1)) ∨
        (r = .ok false ∧ Grown γ γ' (afterInsert ns g (call.store.hashKey key) key v ttl 0)) ∨
        ((∃ e, r = .error e) ∧
          ((storable key = false ∧ Grown γ γ' (⟨.rollback, ()⟩ :: afterBegin ns g)) ∨
            ∃ x, Grown γ γ' (⟨.rollback, ()⟩ ::
              ⟨.insertIfAbsent ns g (call.store.hashKey key) key v ttl, .error x⟩ ::
              afterClear ns g (call.store.hashKey key) key (afterBegin ns g)))))) ?_ ?_ ?_
  · refine ⟨ht₁, fun _ γ₂ h₂ => ?_⟩
    obtain ⟨t₂, htx₂, hf₂⟩ := h₂.begun
    have hg₂ := hg₁.step h₂
    unfold insertAbsent
    cases hkey : storable key with
    | false =>
      rw [bindKey_error hkey]
      exact ⟨trivial, fun _ γ₃ h₃ => ⟨h₃.rolledBack,
        .inr (.inr ⟨⟨_, rfl⟩, .inl ⟨rfl, hg₂.step h₃⟩⟩)⟩⟩
    | true =>
      rw [bindKey_ok hkey]
      refine ⟨⟨htarget, rfl, t₂, htx₂, hf₂.2.1, hf₂.2.2.1, hf₂.2.2.2,
        .inl ⟨hf₂.1, ⟨v, ttl, hop⟩, hg₂.said⟩⟩, fun _ γ₃ h₃ => ?_⟩
      obtain ⟨t₃, hc₃, hl₃, hr₃⟩ := h₃.cleared hkey htx₂ hf₂.2.1 hf₂.2.2.1 hf₂.2.2.2
      rw [hf₂.1] at hc₃
      have hg₃ := hg₂.step h₃
      refine ⟨⟨hop, rfl, hg₃.said, t₃, hc₃, hl₃, hr₃⟩, fun n γ₄ h₄ => ?_⟩
      have hg₄ := hg₃.step h₄
      rcases h₄.insertedIfAbsent hc₃ hr₃ with ⟨x, rfl⟩ | ⟨rfl, htx, hgone, hrows⟩ |
        ⟨rfl, i, t₄, hc₄, hrows, hu⟩
      · exact ⟨trivial, fun _ γ₅ h₅ =>
          ⟨h₅.rolledBack, .inr (.inr ⟨⟨_, rfl⟩, .inr ⟨x, hg₄.step h₅⟩⟩)⟩⟩
      · exact ⟨⟨ns, g, _, key, t₃, htarget, rfl, .inl ⟨v, ttl, hop, htx, hgone, hrows, hg₄.said⟩⟩,
          fun _ γ₅ h₅ => ⟨h₅.committed, .inr (.inl ⟨rfl, hg₄.step h₅⟩)⟩⟩
      · exact ⟨⟨ns, g, _, key, t₄, htarget, rfl,
          .inr (.inl ⟨v, ttl, i, hop, hc₄, hrows, hu, hg₄.said⟩)⟩,
          fun _ γ₅ h₅ => ⟨h₅.committed, .inl ⟨rfl, hg₄.step h₅⟩⟩⟩
  · intro b γ₂ hex
    obtain ⟨ht₂, ⟨hb, hg₂⟩ | ⟨hb, hg₂⟩ | ⟨⟨e, hb⟩, -⟩⟩ := hex
    · cases hb
      refine Safe.bind (written_safe rounds ns (Trails.refl ht₂))
        (fun _ γ₃ h₃ => ?_) fun e γ₃ h₃ => ?_
      · exact hg₂.ended h₃.2 fun new hw => ⟨g, .inl ⟨rfl, hw⟩⟩
      · cases h₃.1
    · cases hb
      exact hg₂.endedNow ht₂ fun new hn => ⟨g, .inr ⟨rfl, hn⟩⟩
    · cases hb
  · intro e γ₂ hex
    obtain ⟨ht₂, ⟨hb, -⟩ | ⟨hb, -⟩ | ⟨-, ⟨hkey, hg₂⟩ | ⟨x, hg₂⟩⟩⟩ := hex
    · cases hb
    · cases hb
    · exact hg₂.endedNow ht₂ fun new hn => .inr (.inl ⟨g, hkey, hn⟩)
    · exact hg₂.endedNow ht₂ fun new hn => .inr (.inr ⟨g, x, hn⟩)

/-- an atomic write: `f` is what the call makes of the value it finds -/
theorem atomicWrite_safe (call : CacheCall) (rounds : Nat) {ns key : String}
    {f : Option Bytes → PgAppResult (Bytes × α)} {answer : α → CacheReturn}
    (htarget : call.op.target = some (ns, key)) (hatomic : call.op.atomic = true)
    (hf : call.op.Makes f answer)
    (h : γ.tx = none) :
    CacheSafe op call (Ended γ (AnsweredKey call ns key))
      (call.store.atomicWrite rounds ns key call.op.ttl call.op.preserves f >>= fun a =>
        pure (answer a)) γ := by
  refine answer_safe (M := Ended γ fun r new => AnsweredKey call ns key (r.map answer) new) ?_
    (fun a γ' h => h) fun e γ' h => h
  refine Safe.check_bind (fun _ _ => ?_) fun e => Ended.nothing h (.inl rfl)
  refine start_safe h fun g γ₁ ht₁ hg₁ => ?_
  refine Safe.bind (M := fun r γ' => γ'.tx = none ∧ match r with
    | .ok a => ∃ found v, call.op.register (found.map (·.2)) = .ok (answer a, some v) ∧ Grown γ γ'
        (⟨.commit, ()⟩ :: storeStmt call.op ns g (call.store.hashKey key) key found v ::
          afterSeek ns g (call.store.hashKey key) key found)
    | .error e => (storable key = false ∧
          Grown γ γ' (⟨.rollback, ()⟩ :: afterLock ns g (call.store.hashKey key))) ∨
        (∃ found, call.op.register (found.map (·.2)) = .error e ∧ Grown γ γ'
          (⟨.rollback, ()⟩ :: afterSeek ns g (call.store.hashKey key) key found)) ∨
        ∃ found v x, Grown γ γ' (⟨.rollback, ()⟩ ::
          storeSaid call.op ns g (call.store.hashKey key) key found v (.error x) ::
          afterSeek ns g (call.store.hashKey key) key found)) ?_ ?_ ?_
  · refine ⟨ht₁, fun _ γ₂ h₂ => ?_⟩
    obtain ⟨t₂, htx₂, hf₂⟩ := h₂.begun
    have hg₂ := hg₁.step h₂
    refine ⟨⟨⟨t₂, htx₂, hf₂⟩, hg₂.said, key, htarget, rfl⟩, fun _ γ₃ h₃ => ?_⟩
    obtain ⟨t₃, htx₃, ha₃, hgone₃, hl₃, hr₃⟩ := h₃.locked htx₂ hf₂
    have hg₃ := hg₂.step h₃
    cases hkey : storable key with
    | false =>
      rw [bindKey_error hkey]
      exact ⟨trivial, fun _ γ₄ h₄ => ⟨h₄.rolledBack, .inl ⟨rfl, hg₃.step h₄⟩⟩⟩
    | true =>
      rw [bindKey_ok hkey]
      refine ⟨⟨htarget, rfl, t₃, htx₃, hgone₃, hl₃, hr₃, .inr ⟨ha₃, hg₃.said⟩⟩, fun _ γ₄ h₄ => ?_⟩
      obtain ⟨t₄, hc₄, hl₄, hr₄⟩ := h₄.cleared hkey htx₃ hgone₃ hl₃ hr₃
      rw [ha₃] at hc₄
      have hg₄ := hg₃.step h₄
      refine ⟨⟨htarget, rfl, hg₄.said, t₄, hc₄, hl₄, hr₄⟩, fun found γ₅ h₅ => ?_⟩
      have hg₅ := hg₄.step h₅
      have hs₅ := h₅.sought hc₄ hr₄
      cases found with
    | none =>
      have hreg := hf none
      cases hfn : f none with
      | error e =>
        rw [hfn] at hreg
        show CacheSafe op call _ (Prog.bracket .commit .rollback
          (insertNew ns g (call.store.hashKey key) key call.op.ttl (.error e))) γ₅
        exact ⟨trivial, fun _ γ₆ h₆ => ⟨h₆.rolledBack, .inr (.inl ⟨none, hreg, hg₅.step h₆⟩)⟩⟩
      | ok p =>
        rw [hfn] at hreg
        show CacheSafe op call _ (Prog.bracket .commit .rollback
          (insertNew ns g (call.store.hashKey key) key call.op.ttl (.ok p))) γ₅
        refine ⟨⟨htarget, rfl, rfl, ⟨_, hreg⟩, hg₅.said, t₄, hs₅, hl₄, hr₄⟩, fun n γ₆ h₆ => ?_⟩
        have hg₆ := hg₅.step h₆
        rcases h₆.insertedValue hs₅ hr₄ with ⟨x, rfl⟩ | ⟨rfl, i, t₆, hc₆, hrows, hu⟩
        · exact ⟨trivial, fun _ γ₇ h₇ =>
            ⟨h₇.rolledBack, .inr (.inr ⟨none, p.1, x, hg₆.step h₇⟩)⟩⟩
        · exact ⟨⟨ns, g, _, key, t₆, htarget, rfl,
            .inr (.inr (.inl ⟨_, _, i, hatomic, hreg, hc₆, hrows, hu, hg₆.said⟩))⟩,
            fun _ γ₇ h₇ => ⟨h₇.committed, none, p.1, hreg, hg₆.step h₇⟩⟩
    | some q =>
      obtain ⟨id, old⟩ := q
      obtain ⟨t₅, x, hc₅, hx₅, hr₅⟩ := hs₅
      have hreg := hf (some old)
      cases hfn : f (some old) with
      | error e =>
        rw [hfn] at hreg
        show CacheSafe op call _ (Prog.bracket .commit .rollback
          (updateFound id call.op.ttl call.op.preserves (f (some old)))) γ₅
        rw [hfn]
        exact ⟨trivial, fun _ γ₆ h₆ =>
          ⟨h₆.rolledBack, .inr (.inl ⟨some (id, old), hreg, hg₅.step h₆⟩)⟩⟩
      | ok p =>
        rw [hfn] at hreg
        show CacheSafe op call _ (Prog.bracket .commit .rollback
          (updateFound id call.op.ttl call.op.preserves (f (some old)))) γ₅
        rw [hfn]
        refine ⟨⟨ns, g, _, key, old, htarget, rfl, rfl, rfl, ⟨_, hreg⟩, hg₅.said, t₅, x, hc₅, hx₅,
          hr₅⟩, fun _ γ₆ h₆ => ?_⟩
        have hg₆ := hg₅.step h₆
        rcases h₆.updated hc₅ hx₅ hr₅ with ⟨e, rfl⟩ | ⟨rfl, t₆, hc₆, hx₆, hr₆⟩
        · exact ⟨trivial, fun _ γ₇ h₇ =>
            ⟨h₇.rolledBack, .inr (.inr ⟨some (id, old), p.1, e, hg₆.step h₇⟩)⟩⟩
        · exact ⟨⟨ns, g, _, key, t₆, htarget, rfl,
            .inr (.inr (.inr ⟨_, _, id, old, x, hatomic, hreg, hc₆, hx₆, hr₆, hg₆.said⟩))⟩,
            fun _ γ₇ h₇ => ⟨h₇.committed, some (id, old), p.1, hreg, hg₆.step h₇⟩⟩
  · intro a γ₂ hex
    obtain ⟨ht₂, found, v, hreg, hg₂⟩ := hex
    refine Safe.bind (written_safe rounds ns (Trails.refl ht₂))
      (fun _ γ₃ h₃ => ?_) fun e γ₃ h₃ => ?_
    · exact hg₂.ended h₃.2 fun new hw => ⟨g, found, v, hreg, hw⟩
    · cases h₃.1
  · intro e γ₂ hex
    obtain ⟨ht₂, ⟨hkey, hg₂⟩ | ⟨found, hreg, hg₂⟩ | ⟨found, v, x, hg₂⟩⟩ := hex
    · exact hg₂.endedNow ht₂ fun new hn => .inr (.inl ⟨g, hkey, hn⟩)
    · exact hg₂.endedNow ht₂ fun new hn => .inr (.inr (.inl ⟨g, found, hreg, hn⟩))
    · exact hg₂.endedNow ht₂ fun new hn => .inr (.inr (.inr ⟨g, found, v, x, hn⟩))

/-! ## reads, deletes, invalidations -/

theorem delete_safe (call : CacheCall) {ns key : String} (hop : call.op = .delete ns key)
    (h : γ.tx = none) :
    CacheSafe op call (Ended γ fun r new => match r with
      | .ok b => (b = false ∧ said new = [⟨.selectGeneration ns, none⟩]) ∨
          ∃ (g : Int) (n : Nat) (l : List Said), b = decide (n > 0) ∧
            (l = [] ∨ l = [⟨.incrementCounter .deletes n, ()⟩]) ∧ said new = l ++
              [⟨.deleteKey ns g (call.store.hashKey key) key, n⟩, ⟨.selectGeneration ns, some g⟩]
      | .error _ => new = [] ∨
          ∃ g, storable key = false ∧ said new = [⟨.selectGeneration ns, some g⟩])
      (call.store.delete ns key) γ := by
  refine Safe.check_bind (fun _ _ => ?_) fun e => Ended.nothing h (.inl rfl)
  refine safe_query trivial fun gen γ₁ h₁ => ?_
  have ht₁ : γ₁.tx = none := (h₁.tx_same rfl).trans h
  have hg₁ := (Grown.refl γ).step h₁
  cases gen with
  | none => exact hg₁.endedNow ht₁ fun new hn => .inl ⟨rfl, hn⟩
  | some g =>
    cases hkey : storable key with
    | false =>
      rw [bindKey_error hkey]
      exact hg₁.endedNow ht₁ fun new hn => .inr ⟨g, rfl, hn⟩
    | true =>
      rw [bindKey_ok hkey]
      refine safe_query ⟨hop, rfl, ht₁, hg₁.said⟩ fun n γ₂ h₂ => ?_
      have ht₂ : γ₂.tx = none := (h₂.tx_same rfl).trans ht₁
      have hg₂ := hg₁.step h₂
      show CacheSafe op call _ (if n > 0 then _ else _) γ₂
      split
      · rename_i hn
        refine safe_query trivial fun _ γ₃ h₃ => ?_
        refine (hg₂.step h₃).endedNow ((h₃.tx_same rfl).trans ht₂) fun new hs =>
          .inr ⟨g, n, _, ?_, .inr rfl, hs⟩
        exact (decide_eq_true hn).symm
      · rename_i hn
        refine hg₂.endedNow ht₂ fun new hs => .inr ⟨g, n, _, ?_, .inl rfl, hs⟩
        exact (decide_eq_false hn).symm

theorem get_safe (call : CacheCall) (ns key : String) (h : γ.tx = none) :
    CacheSafe op call (Ended γ fun r new => ∀ v, r = .ok (some v) →
      ReadValue call.store.hashKey ns key v (said new)) (call.store.get ns key) γ := by
  have hmiss : ∀ {γ₂ : OwnView Op} {core : List Said}, γ₂.tx = none → Grown γ γ₂ core →
      CacheSafe op call (Ended γ fun r new => ∀ v, r = .ok (some v) →
        ReadValue call.store.hashKey ns key v (said new))
        (query (.incrementCounter .misses 1) >>= fun _ => pure none :
            CacheProg (Option Bytes)) γ₂ := by
    intro γ₂ core ht₂ hg₂
    refine safe_query trivial fun _ γ₃ h₃ => ?_
    refine (hg₂.step h₃).endedNow ((h₃.tx_same rfl).trans ht₂) fun new _ v hv => ?_
    cases hv
  refine Safe.check_bind (fun _ _ => ?_) fun e => Ended.nothing h fun v hv => (by cases hv)
  refine safe_query trivial fun gen γ₁ h₁ => ?_
  have ht₁ : γ₁.tx = none := (h₁.tx_same rfl).trans h
  have hg₁ := (Grown.refl γ).step h₁
  cases gen with
  | none => exact hmiss ht₁ hg₁
  | some g =>
    cases hkey : storable key with
    | false =>
      rw [bindKey_error hkey]
      exact hg₁.endedNow ht₁ fun new hn v hv => (by cases hv)
    | true =>
      rw [bindKey_ok hkey]
      refine safe_query trivial fun found γ₂ h₂ => ?_
      have ht₂ : γ₂.tx = none := (h₂.tx_same rfl).trans ht₁
      have hg₂ := hg₁.step h₂
      cases found with
    | none => exact hmiss ht₂ hg₂
    | some q =>
      obtain ⟨id, value⟩ := q
      refine safe_query trivial fun _ γ₃ h₃ => safe_query trivial fun _ γ₄ h₄ => ?_
      have ht₄ : γ₄.tx = none := (h₄.tx_same rfl).trans ((h₃.tx_same rfl).trans ht₂)
      refine ((hg₂.step h₃).step h₄).endedNow ht₄ fun new hn v hv => ?_
      cases hv
      refine ⟨g, id, [⟨.incrementCounter .hits 1, ()⟩, ⟨.touch id, ()⟩], [], ?_⟩
      rw [hn]
      rfl

theorem ReadValue.within {hash : String → String} {ns key : String} {v : Bytes} {l l' : List Said}
    (h : ReadValue hash ns key v l) (hl : l <:+: l') : ReadValue hash ns key v l' := by
  obtain ⟨g, id, hi⟩ := h
  exact ⟨g, id, hi.trans hl⟩

theorem mget_safe (call : CacheCall) (ns : String) (keys : List String)
    (results : List (String × Option Bytes))
    (h : γ.tx = none) (hown : ∃ old, γ.own = old ++ γ₀.own ∧
      ∀ key v, (key, some v) ∈ results → ReadValue call.store.hashKey ns key v (said old)) :
    CacheSafe op call (Ended γ₀ fun r new => ∀ values, r = .ok values → ∀ key v,
      (key, some v) ∈ values → ReadValue call.store.hashKey ns key v (said new))
      (call.store.mgetLoop ns keys results) γ := by
  obtain ⟨old, ho, hres⟩ := hown
  induction keys generalizing γ results old with
  | nil =>
    refine ⟨h, old, ho, fun values hv => ?_⟩
    cases hv
    exact hres
  | cons k rest ih =>
    refine Safe.bind (get_safe call ns k h) (fun value γ₁ h₁ => ?_) fun e γ₁ h₁ => ?_
    · obtain ⟨ht₁, new, ho₁, hn⟩ := h₁
      refine ih (results ++ [(k, value)]) ht₁ (new ++ old) ?_ fun key v hm => ?_
      · rw [ho₁, ho, List.append_assoc]
      · rw [said_append]
        rcases List.mem_append.mp hm with hm | hm
        · exact (hres key v hm).within (List.suffix_append _ _).isInfix
        · simp only [List.mem_singleton, Prod.mk.injEq] at hm
          obtain ⟨rfl, rfl⟩ := hm
          exact (hn v rfl).within (List.prefix_append _ _).isInfix
    · obtain ⟨ht₁, new, ho₁, -⟩ := h₁
      refine ⟨ht₁, new ++ old, ?_, fun values hv => (by cases hv)⟩
      rw [ho₁, ho, List.append_assoc]

theorem invalidate_safe (call : CacheCall) {ns : String} (hop : call.op = .invalidateNamespace ns)
    (h : γ.tx = none) :
    CacheSafe op call (Ended γ fun r new => ∀ a, r = .ok a →
        ∃ ids, ⟨.bumpGeneration ns ids, ()⟩ ∈ said new)
      (invalidateNamespace ns) γ := by
  refine Safe.check_bind (fun _ _ => ?_) fun e => Ended.nothing h fun a ha => (by cases ha)
  refine safe_query trivial fun _ γ₁ h₁ => safe_query hop fun ids γ₂ h₂ => ?_
  have hg₂ := ((Grown.refl γ).step h₁).step h₂
  refine ⟨⟨hop, hg₂.said⟩, fun _ γ₃ h₃ => ?_⟩
  have ht₃ : γ₃.tx = none :=
    (h₃.tx_same rfl).trans ((h₂.tx_same rfl).trans ((h₁.tx_same rfl).trans h))
  refine (hg₂.step h₃).endedNow ht₃ fun new hn a _ => ⟨ids, ?_⟩
  rw [hn]
  exact List.mem_cons_self

theorem stats_safe (h : γ.tx = none) :
    CacheSafe op call (Ended γ fun _ _ => True) stats γ := by
  refine safe_query trivial fun _ γ₁ h₁ => safe_query trivial fun _ γ₂ h₂ => ?_
  have ht₂ : γ₂.tx = none := (h₂.tx_same rfl).trans ((h₁.tx_same rfl).trans h)
  exact (((Grown.refl γ).step h₁).step h₂).endedNow ht₂ fun _ _ => trivial

end

/-! ## calls -/

theorem answered_atomic {Op : Type} {call : CacheCall} (hat : call.op.atomic = true)
    {ns key : String}
    (htarget : call.op.target = some (ns, key)) :
    @Answered Op call = AnsweredKey call ns key := by
  obtain ⟨store, rounds, op⟩ := call
  cases op with
  | getSet _ _ _ _ | increment _ _ _ _ | decrement _ _ _ _ | append _ _ _ _ | prepend _ _ _ _ =>
    cases htarget
    rfl
  | set _ _ _ _ | setNx _ _ _ _ | get _ _ | mget _ _ | exists_ _ _ | delete _ _
  | invalidateNamespace _ | sweepExpired _ | stats => cases hat

/-- **Every call keeps to the order and ends as it should.** -/
theorem cache_body {Op : Type} (op : Op) (call : CacheCall) {γ : OwnView Op} (h : γ.tx = none) :
    CacheSafe op call (Ended γ (Answered call)) call.body γ := by
  by_cases hat : call.op.atomic = true
  · obtain ⟨ns, key, htarget, hcases⟩ := call.body_atomic hat
    have hans : @Answered Op call = AnsweredKey call ns key := answered_atomic hat htarget
    rw [hans]
    rcases hcases with ⟨e, hbody, -⟩ | ⟨α, f, answer, hf, hbody⟩
    · rw [hbody]
      exact Ended.nothing h (.inl rfl)
    · rw [hbody]
      exact atomicWrite_safe call call.rounds htarget hat hf h
  obtain ⟨store, rounds, o⟩ := call
  cases o with
  | set ns key v ttl =>
    refine answer_safe (set_safe ⟨store, rounds, .set ns key v ttl⟩ rounds rfl h) ?_ ?_
    · intro a γ' hex
      obtain ⟨ht, new, ho, hn⟩ := hex
      exact ⟨ht, new, ho, rfl, hn⟩
    · intro e γ' hex
      obtain ⟨ht, new, ho, hn⟩ := hex
      exact ⟨ht, new, ho, hn⟩
  | setNx ns key v ttl =>
    refine answer_safe (setNx_safe ⟨store, rounds, .setNx ns key v ttl⟩ rounds rfl h) ?_ ?_
    · intro a γ' hex
      obtain ⟨ht, new, ho, g, ⟨rfl, hw⟩ | ⟨rfl, hn⟩⟩ := hex
      · exact ⟨ht, new, ho, g, .inl ⟨rfl, hw⟩⟩
      · exact ⟨ht, new, ho, g, .inr ⟨rfl, hn⟩⟩
    · intro e γ' hex
      obtain ⟨ht, new, ho, hn⟩ := hex
      exact ⟨ht, new, ho, hn⟩
  | getSet _ _ _ _ | increment _ _ _ _ | decrement _ _ _ _ | append _ _ _ _ | prepend _ _ _ _ =>
    exact absurd rfl hat
  | get ns key =>
    refine answer_safe (get_safe ⟨store, rounds, .get ns key⟩ ns key h) ?_ ?_
    · intro a γ' hex
      obtain ⟨ht, new, ho, hn⟩ := hex
      refine ⟨ht, new, ho, fun v hv => hn v ?_⟩
      cases hv
      rfl
    · intro e γ' hex
      obtain ⟨ht, new, ho, hn⟩ := hex
      exact ⟨ht, new, ho, fun v hv => (by cases hv)⟩
  | mget ns keys =>
    refine answer_safe (mget_safe ⟨store, rounds, .mget ns keys⟩ ns keys [] h
      ⟨[], rfl, fun key v hm => (by cases hm)⟩) ?_ ?_
    · intro a γ' hex
      obtain ⟨ht, new, ho, hn⟩ := hex
      refine ⟨ht, new, ho, fun values hv => hn values ?_⟩
      cases hv
      rfl
    · intro e γ' hex
      obtain ⟨ht, new, ho, hn⟩ := hex
      exact ⟨ht, new, ho, fun v hv => (by cases hv)⟩
  | exists_ ns key =>
    refine answer_safe (answer_safe (get_safe ⟨store, rounds, .exists_ ns key⟩ ns key h)
      (Q := Ended γ fun r new => r = .ok true → ∃ v, ReadValue store.hashKey ns key v (said new))
      ?_ ?_) ?_ ?_
    · intro a γ' hex
      obtain ⟨ht, new, ho, hn⟩ := hex
      refine ⟨ht, new, ho, fun hv => ?_⟩
      cases a with
      | none => cases hv
      | some v => exact ⟨v, hn v rfl⟩
    · intro e γ' hex
      obtain ⟨ht, new, ho, hn⟩ := hex
      exact ⟨ht, new, ho, fun hv => (by cases hv)⟩
    · intro a γ' hex
      obtain ⟨ht, new, ho, hn⟩ := hex
      refine ⟨ht, new, ho, fun hv => hn ?_⟩
      cases hv
      rfl
    · intro e γ' hex
      obtain ⟨ht, new, ho, hn⟩ := hex
      exact ⟨ht, new, ho, fun hv => (by cases hv)⟩
  | delete ns key =>
    refine answer_safe (delete_safe ⟨store, rounds, .delete ns key⟩ rfl h) ?_ ?_
    · intro a γ' hex
      obtain ⟨ht, new, ho, ⟨rfl, hn⟩ | ⟨g, n, l, rfl, hl, hs⟩⟩ := hex
      · exact ⟨ht, new, ho, .inl ⟨rfl, hn⟩⟩
      · exact ⟨ht, new, ho, .inr ⟨g, n, l, rfl, hl, hs⟩⟩
    · intro e γ' hex
      obtain ⟨ht, new, ho, hn⟩ := hex
      exact ⟨ht, new, ho, hn⟩
  | invalidateNamespace ns =>
    refine answer_safe (invalidate_safe ⟨store, rounds, .invalidateNamespace ns⟩ rfl h) ?_ ?_
    · intro a γ' hex
      obtain ⟨ht, new, ho, hn⟩ := hex
      exact ⟨ht, new, ho, fun _ _ => hn a rfl⟩
    · intro e γ' hex
      obtain ⟨ht, new, ho, hn⟩ := hex
      exact ⟨ht, new, ho, fun v hv => (by cases hv)⟩
  | sweepExpired limit =>
    refine answer_safe (sweep_safe (Trails.refl h)) ?_ ?_
    · intro a γ' hex
      obtain ⟨⟨ht, tail, ho, -⟩, -⟩ := hex
      exact ⟨ht, tail, ho, trivial⟩
    · intro e γ' hex
      obtain ⟨⟨ht, tail, ho, -⟩, -⟩ := hex
      exact ⟨ht, tail, ho, trivial⟩
  | stats => exact answer_safe (stats_safe h) (fun a γ' h => h) fun e γ' h => h

theorem own_ops {Op : Type} (op : Op) (p : CacheProg CacheReturn) (γ : OwnView Op) :
    Safe (fun _ _ => True) (OwnStep op)
      (fun _ γ' => ∃ new, γ'.own = new ++ γ.own ∧ ∀ e ∈ new, e.op = op) p γ := by
  suffices h : ∀ γ' : OwnView Op, (∃ new, γ'.own = new ++ γ.own ∧ ∀ e ∈ new, e.op = op) →
      Safe (fun _ _ => True) (OwnStep op)
        (fun _ γ' => ∃ new, γ'.own = new ++ γ.own ∧ ∀ e ∈ new, e.op = op) p γ' from
    h γ ⟨[], rfl, fun e he => (by cases he)⟩
  induction p with
  | ret r => exact fun γ' h => h
  | exec st k ih =>
    intro γ' h
    obtain ⟨new, ho, hn⟩ := h
    refine ⟨trivial, fun r γ'' hs => ih r γ'' ?_⟩
    obtain ⟨s, c, db, db', -, -, -, -, -, rfl⟩ := hs
    refine ⟨⟨s, op, c, st, r, db⟩ :: new, ?_, fun e he => ?_⟩
    · show _ :: γ'.own = _
      rw [ho]
      rfl
    · rcases List.mem_cons.mp he with rfl | he
      · rfl
      · exact hn e he

/-- what the statements of a call were, and that they were its own -/
def AnsweredBy {Op : Type} (call : Op → CacheCall) (op : Op) (r : PgAppResult CacheReturn)
    (new : List (CacheEvOf Op)) : Prop := Answered (call op) r new ∧ ∀ e ∈ new, e.op = op

theorem cache_body_own {Op : Type} (call : Op → CacheCall) (op : Op) {γ : OwnView Op}
    (h : γ.tx = none) :
    CacheSafe op (call op) (Ended γ (AnsweredBy call op)) (call op).body γ := by
  refine ((cache_body op (call op) h).and (own_ops op (call op).body γ)).mono fun r γ' h => ?_
  obtain ⟨⟨htx, new, ho, ha⟩, new', ho', hops⟩ := h
  have heq : new = new' := List.append_cancel_right (ho.symm.trans ho')
  subst heq
  exact ⟨htx, new, ho, ha, hops⟩

/-! ## runs -/

section
variable {Op : Type} {call : Op → CacheCall} {σ₀ σ : CacheSysOf Op}

/-- reachable from the empty schema by calls of these kinds -/
abbrev CacheReachOf (call : Op → CacheCall) (σ : CacheSysOf Op) : Prop :=
  Reach CacheStmt.exec (fun op => (call op).body) CacheDb.empty σ

abbrev CacheStepsOf (call : Op → CacheCall) (σ τ : CacheSysOf Op) : Prop :=
  Relation.ReflTransGen (Step CacheStmt.exec fun op => (call op).body) σ τ

/-- an executed statement was in order -/
structure Ordered (call : Op → CacheCall) (e : CacheEvOf Op) (h : List (CacheEvOf Op)) : Prop where
  good : CacheGood e.pre h
  follows : Follows (call e.op) e.stmt (ownView e.sess e.pre h)
  executed : ∃ db', CacheStmt.exec e.sess e.ctx e.stmt e.pre = some (e.res, db')

theorem cache_relies (hr : CacheReachOf call σ) :
    Relies CacheStmt.exec CacheGood ownView (fun op => Follows (call op)) OwnStep
      (fun _ _ γ => γ.tx = none) (fun γ => γ.tx = none) σ :=
  hr.rely (own_rules _) (fun _ _ _ h => h) fun op _ h =>
    (cache_body op (call op) h).mono fun _ _ h => h.1

theorem cache_follows (call : Op → CacheCall) (hr : CacheReachOf call σ) :
    Always (Ordered call) σ.hist :=
  (cache_relies hr).past.mono fun _ _ h => ⟨h.1, h.2.1, h.2.2⟩

/-- the results of a session since it was idle, each with its statements -/
theorem cache_answers_since (call : Op → CacheCall) (hr : CacheReachOf call σ₀) (s : Nat)
    (h0 : σ₀.prog s = none)
    (hst : CacheStepsOf call σ₀ σ) :
    ∃ run parts dones, ownEvents s σ.hist = run ++ parts.flatten ++ ownEvents s σ₀.hist ∧
      σ.done = dones ++ σ₀.done ∧
      List.Forall₂ (fun x part => AnsweredBy call x.2.1 x.2.2 part)
        (dones.filter (·.1 == s)) parts ∧
      (σ.prog s = none → run = []) :=
  Reach.logged_since (own_rules fun op => Follows (call op)) OwnView.own
    (fun op st r γ γ' h => by
      obtain ⟨e, -, he⟩ := h.tail
      exact ⟨[e], he⟩)
    (AnsweredBy call) (fun op γ h => cache_body_own call op h) hr s h0 hst

theorem cache_answers (call : Op → CacheCall) (hr : CacheReachOf call σ) (s : Nat) :
    ∃ run parts, ownEvents s σ.hist = run ++ parts.flatten ∧
      List.Forall₂ (fun x part => AnsweredBy call x.2.1 x.2.2 part)
        (σ.done.filter (·.1 == s)) parts ∧ (σ.prog s = none → run = []) :=
  Reach.logged (own_rules fun op => Follows (call op)) OwnView.own
    (fun op st r γ γ' h => by
      obtain ⟨e, -, he⟩ := h.tail
      exact ⟨[e], he⟩)
    (AnsweredBy call) (fun op γ h => cache_body_own call op h) hr s rfl

theorem ordered_of_own (call : Op → CacheCall) (hr : CacheReachOf call σ) {s : Nat}
    {a b : List (CacheEvOf Op)}
    {e : CacheEvOf Op} (h : ownEvents s σ.hist = a ++ e :: b) :
    ∃ h₁ h₂, σ.hist = h₁ ++ e :: h₂ ∧ Ordered call e h₂ ∧ ownEvents s h₂ = b ∧ e.sess = s := by
  obtain ⟨h₁, h₂, heq, -, hb, hs⟩ := ownEvents_split h
  have hal := cache_follows call hr
  rw [heq] at hal
  exact ⟨h₁, h₂, heq, hal.head, hb, hs⟩

end

end PgApp
