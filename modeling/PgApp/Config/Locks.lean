import PgApp.Config.Store

/-!
# One writer per scope

`ensure_scope` leaves its transaction with a version of the scope row, and a second transaction
that wants the row waits until the first is over.  `ConfigLocks` says what that gives:

* two open transactions never hold the same scope (`apart`);
* what a transaction has written belongs to the scope it holds (`inside`);
* a held row is the committed row of its scope, if there is one (`tied`).

`ConfigView` is what a session can rely on meanwhile: its own transaction, and the committed rows of
the scope it holds.  Nobody else changes these (`configView_other`).
-/

namespace PgApp
open Interleave

structure ConfigLocks (db : ConfigDb) : Prop where
  scopes : (db.tables.scopes.map (·.scope)).Nodup
  ids : (db.tables.scopes.map (·.id)).Nodup
  below : ∀ x ∈ db.tables.scopes, x.id < db.nextScopeId
  items : ∀ i ∈ db.tables.items, ∃ x ∈ db.tables.scopes, x.id = i.scopeId
  releases : ∀ r ∈ db.tables.releases, ∃ x ∈ db.tables.scopes, x.id = r.scopeId
  tied : ∀ s t r, db.txs.get s = some t → t.scope = some r → r.id < db.nextScopeId ∧
    ∀ x ∈ db.tables.scopes, x.scope = r.scope ↔ x.id = r.id
  apart : ∀ s s' t t' r r', s ≠ s' → db.txs.get s = some t → db.txs.get s' = some t' →
    t.scope = some r → t'.scope = some r' → r.scope ≠ r'.scope ∧ r.id ≠ r'.id
  inside : ∀ s t, db.txs.get s = some t →
    (∀ i ∈ t.items, ∃ r, t.scope = some r ∧ i.scopeId = r.id) ∧
    (∀ x ∈ t.releases, ∃ r, t.scope = some r ∧ x.scopeId = r.id)

namespace ConfigLocks

theorem empty : ConfigLocks ConfigDb.empty :=
  ⟨List.nodup_nil, List.nodup_nil, fun _ h => absurd h List.not_mem_nil,
    fun _ h => absurd h List.not_mem_nil, fun _ h => absurd h List.not_mem_nil,
    fun _ _ _ h => (by cases h), fun _ _ _ _ _ _ _ h => (by cases h), fun _ _ h => (by cases h)⟩

section
variable {db : ConfigDb}

theorem eq_of_scope (L : ConfigLocks db) {x y : ScopeRow} (hx : x ∈ db.tables.scopes)
    (hy : y ∈ db.tables.scopes) (h : x.scope = y.scope) : x = y :=
  List.inj_on_of_nodup_map L.scopes hx hy h

theorem eq_of_id (L : ConfigLocks db) {x y : ScopeRow} (hx : x ∈ db.tables.scopes)
    (hy : y ∈ db.tables.scopes) (h : x.id = y.id) : x = y :=
  List.inj_on_of_nodup_map L.ids hx hy h

theorem scopeOf_mem {tb : ConfigTables} {scope : ConfigScope} {x : ScopeRow}
    (h : tb.scopeOf scope = some x) : x ∈ tb.scopes ∧ x.scope = scope := by
  unfold ConfigTables.scopeOf at h
  exact ⟨List.mem_of_find?_eq_some h, by simpa using List.find?_some h⟩

theorem scopeOf_none {tb : ConfigTables} {scope : ConfigScope} (h : tb.scopeOf scope = none) :
    ∀ x ∈ tb.scopes, x.scope ≠ scope := by
  unfold ConfigTables.scopeOf at h
  rw [List.find?_eq_none] at h
  intro x hx he
  exact h x hx (by simpa using he)

theorem scopeOf_eq (L : ConfigLocks db) {x : ScopeRow} (hx : x ∈ db.tables.scopes) :
    db.tables.scopeOf x.scope = some x := by
  cases h : db.tables.scopeOf x.scope with
  | none => exact absurd rfl (scopeOf_none h x hx)
  | some y =>
    obtain ⟨hy, he⟩ := scopeOf_mem h
    rw [L.eq_of_scope hy hx he]

theorem can_hold (L : ConfigLocks db) {x : ScopeRow} (hx : x ∈ db.tables.scopes) :
    x.id < db.nextScopeId ∧ ∀ y ∈ db.tables.scopes, y.scope = x.scope ↔ y.id = x.id := by
  refine ⟨L.below x hx, fun y hy => ⟨fun h => ?_, fun h => ?_⟩⟩
  · rw [L.eq_of_scope hy hx h]
  · rw [L.eq_of_id hy hx h]

/-- another row a session writes to its transaction -/
theorem setTx (L : ConfigLocks db) {s : Nat} {t' : ConfigTx}
    (htied : ∀ r, t'.scope = some r → r.id < db.nextScopeId ∧
      ∀ x ∈ db.tables.scopes, x.scope = r.scope ↔ x.id = r.id)
    (hapart : ∀ r s' t r', t'.scope = some r → s' ≠ s → db.txs.get s' = some t →
      t.scope = some r' → r.scope ≠ r'.scope ∧ r.id ≠ r'.id)
    (hinside : (∀ i ∈ t'.items, ∃ r, t'.scope = some r ∧ i.scopeId = r.id) ∧
      (∀ x ∈ t'.releases, ∃ r, t'.scope = some r ∧ x.scopeId = r.id)) :
    ConfigLocks (db.setTx s t') := by
  have hget : ∀ u t, (db.txs.set s t').get u = some t →
      (u = s ∧ t = t') ∨ (u ≠ s ∧ db.txs.get u = some t) := by
    intro u t h
    by_cases e : u = s
    · subst e
      rw [Slots.get_set_self] at h
      exact .inl ⟨rfl, (Option.some.inj h).symm⟩
    · rw [Slots.get_set_ne _ _ e] at h
      exact .inr ⟨e, h⟩
  refine ⟨L.scopes, L.ids, L.below, L.items, L.releases, ?_, ?_, ?_⟩
  · intro u t r hu hr
    rcases hget u t hu with ⟨-, rfl⟩ | ⟨-, hu⟩
    · exact htied r hr
    · exact L.tied u t r hu hr
  · intro u v t t₂ r r₂ huv hu hv hr hr₂
    rcases hget u t hu with ⟨rfl, rfl⟩ | ⟨hus, hu'⟩
    · rcases hget v t₂ hv with ⟨rfl, -⟩ | ⟨hvs, hv'⟩
      · exact absurd rfl huv
      · exact hapart r v t₂ r₂ hr hvs hv' hr₂
    · rcases hget v t₂ hv with ⟨rfl, rfl⟩ | ⟨hvs, hv'⟩
      · obtain ⟨h1, h2⟩ := hapart r₂ u t r hr₂ hus hu' hr
        exact ⟨h1.symm, h2.symm⟩
      · exact L.apart u v t t₂ r r₂ huv hu' hv' hr hr₂
  · intro u t hu
    rcases hget u t hu with ⟨-, rfl⟩ | ⟨-, hu⟩
    · exact hinside
    · exact L.inside u t hu

/-- a new version of the row the session holds already, or nothing new about the scope -/
theorem setTx_same (L : ConfigLocks db) {s : Nat} {t t' : ConfigTx} (hg : db.txs.get s = some t)
    (hscope : ∀ r', t'.scope = some r' → ∃ r, t.scope = some r ∧ r'.id = r.id ∧ r'.scope = r.scope)
    (hinside : (∀ i ∈ t'.items, ∃ r, t'.scope = some r ∧ i.scopeId = r.id) ∧
      (∀ x ∈ t'.releases, ∃ r, t'.scope = some r ∧ x.scopeId = r.id)) :
    ConfigLocks (db.setTx s t') := by
  refine L.setTx ?_ ?_ hinside
  · intro r' hr'
    obtain ⟨r, hr, hid, hsc⟩ := hscope r' hr'
    rw [hid, hsc]
    exact L.tied s t r hg hr
  · intro r' u v r₂ hr' hus hu hr₂
    obtain ⟨r, hr, hid, hsc⟩ := hscope r' hr'
    rw [hid, hsc]
    exact L.apart s u t v r r₂ (Ne.symm hus) hg hu hr hr₂

theorem erase (L : ConfigLocks db) (s : Nat) :
    ConfigLocks { db with txs := db.txs.erase s } := by
  have hget : ∀ u t, (db.txs.erase s).get u = some t → u ≠ s ∧ db.txs.get u = some t := by
    intro u t h
    by_cases e : u = s
    · subst e
      rw [Slots.get_erase_self] at h
      cases h
    · rw [Slots.get_erase_ne _ e] at h
      exact ⟨e, h⟩
  refine ⟨L.scopes, L.ids, L.below, L.items, L.releases, ?_, ?_, ?_⟩
  · exact fun u t r hu hr => L.tied u t r (hget u t hu).2 hr
  · exact fun u v t t₂ r r₂ huv hu hv hr hr₂ =>
      L.apart u v t t₂ r r₂ huv (hget u t hu).2 (hget v t₂ hv).2 hr hr₂
  · exact fun u t hu => L.inside u t (hget u t hu).2

theorem raise (L : ConfigLocks db) {a b c : Int} (ha : db.nextScopeId ≤ a) :
    ConfigLocks { db with nextScopeId := a, nextItemId := b, nextReleaseId := c } := by
  refine ⟨L.scopes, L.ids, ?_, L.items, L.releases, ?_, L.apart, L.inside⟩
  · exact fun x hx => lt_of_lt_of_le (L.below x hx) ha
  · exact fun s t r hg hr => ⟨lt_of_lt_of_le (L.tied s t r hg hr).1 ha, (L.tied s t r hg hr).2⟩

end
end ConfigLocks

/-! ## what a commit does to the tables -/

section
variable {r : ScopeRow} {rows : List ScopeRow}

theorem mem_putScope {x : ScopeRow} :
    x ∈ putScope r rows ↔ x = r ∨ (x ∈ rows ∧ x.scope ≠ r.scope) := by
  unfold putScope
  split
  · rename_i hany
    rw [List.any_eq_true] at hany
    obtain ⟨y, hy, hye⟩ := hany
    rw [List.mem_map]
    constructor
    · intro h
      obtain ⟨z, hz, rfl⟩ := h
      by_cases e : z.scope == r.scope
      · rw [if_pos e]
        exact .inl rfl
      · rw [if_neg e]
        exact .inr ⟨hz, by simpa using e⟩
    · intro h
      rcases h with rfl | ⟨hx, hne⟩
      · exact ⟨y, hy, if_pos hye⟩
      · exact ⟨x, hx, if_neg (by simpa using hne)⟩
  · rename_i hany
    rw [Bool.not_eq_true, List.any_eq_false] at hany
    rw [List.mem_append, List.mem_singleton]
    constructor
    · intro h
      rcases h with hx | rfl
      · exact .inr ⟨hx, by simpa using hany x hx⟩
      · exact .inl rfl
    · intro h
      rcases h with rfl | ⟨hx, -⟩
      · exact .inr rfl
      · exact .inl hx

theorem nodup_putScope_scope (h : (rows.map (·.scope)).Nodup) :
    ((putScope r rows).map (·.scope)).Nodup := by
  unfold putScope
  split
  · rename_i hany
    have e : ((rows.map fun x => if x.scope == r.scope then r else x).map (·.scope))
        = rows.map (·.scope) := by
      rw [List.map_map]
      refine List.map_congr_left fun x _ => ?_
      show (if x.scope == r.scope then r else x).scope = x.scope
      split
      · rename_i he
        exact (by simpa using he : x.scope = r.scope).symm
      · rfl
    rw [e]
    exact h
  · rename_i hany
    rw [Bool.not_eq_true, List.any_eq_false] at hany
    rw [List.map_append, List.nodup_append]
    refine ⟨h, List.nodup_singleton _, ?_⟩
    intro a ha b hb
    obtain ⟨x, hx, rfl⟩ := List.mem_map.mp ha
    obtain rfl := List.mem_singleton.mp hb
    simpa using hany x hx

theorem nodup_putScope_id (h : (rows.map (·.id)).Nodup)
    (htied : ∀ x ∈ rows, x.scope = r.scope ↔ x.id = r.id) :
    ((putScope r rows).map (·.id)).Nodup := by
  unfold putScope
  split
  · have e : ((rows.map fun x => if x.scope == r.scope then r else x).map (·.id))
        = rows.map (·.id) := by
      rw [List.map_map]
      refine List.map_congr_left fun x hx => ?_
      show (if x.scope == r.scope then r else x).id = x.id
      split
      · rename_i he
        exact ((htied x hx).mp (by simpa using he)).symm
      · rfl
    rw [e]
    exact h
  · rename_i hany
    rw [Bool.not_eq_true, List.any_eq_false] at hany
    rw [List.map_append, List.nodup_append]
    refine ⟨h, List.nodup_singleton _, ?_⟩
    intro a ha b hb he
    obtain ⟨x, hx, rfl⟩ := List.mem_map.mp ha
    obtain rfl := List.mem_singleton.mp hb
    exact hany x hx (by simpa using (htied x hx).mpr he)

end

theorem mem_putItem {rows : List ItemRow} {i x : ItemRow} (h : x ∈ putItem rows i) :
    x ∈ rows ∨ x = i := by
  unfold putItem at h
  split at h
  · obtain ⟨y, hy, rfl⟩ := List.mem_map.mp h
    split
    · exact .inr rfl
    · exact .inl hy
  · rcases List.mem_append.mp h with h | h
    · exact .inl h
    · exact .inr (List.mem_singleton.mp h)

theorem mem_foldl_putItem {l rows : List ItemRow} {x : ItemRow} (h : x ∈ l.foldl putItem rows) :
    x ∈ rows ∨ x ∈ l := by
  induction l generalizing rows with
  | nil => exact .inl h
  | cons i l ih =>
    rcases ih h with h1 | h1
    · rcases mem_putItem h1 with h2 | rfl
      · exact .inl h2
      · exact .inr List.mem_cons_self
    · exact .inr (List.mem_cons_of_mem _ h1)

theorem filter_putItem_ne {rows : List ItemRow} {i : ItemRow} {id : Int} (h : i.scopeId ≠ id) :
    (putItem rows i).filter (·.scopeId == id) = rows.filter (·.scopeId == id) := by
  unfold putItem
  split
  · rw [List.filter_map]
    have hf : ∀ x ∈ rows, ((fun y : ItemRow => y.scopeId == id) ∘
        fun x => if x.isAt i.scopeId i.key then i else x) x = (x.scopeId == id) := by
      intro x _
      show ((if x.isAt i.scopeId i.key then i else x).scopeId == id) = _
      split
      · rename_i he
        unfold ItemRow.isAt at he
        rw [Bool.and_eq_true, beq_iff_eq] at he
        rw [he.1]
      · rfl
    rw [List.filter_congr hf]
    conv_rhs => rw [← List.map_id (rows.filter fun x => x.scopeId == id)]
    refine List.map_congr_left fun x hx => ?_
    have hx2 : x.scopeId = id := by simpa using (List.mem_filter.mp hx).2
    have hne : x.isAt i.scopeId i.key = false := by
      unfold ItemRow.isAt
      rw [Bool.and_eq_false_iff]
      left
      rw [hx2]
      simpa using Ne.symm h
    rw [hne]
    rfl
  · rw [List.filter_append]
    have : List.filter (fun x : ItemRow => x.scopeId == id) [i] = [] := by
      rw [List.filter_cons_of_neg (by simpa using h)]
      rfl
    rw [this, List.append_nil]

theorem filter_foldl_putItem_ne {l rows : List ItemRow} {id : Int}
    (h : ∀ i ∈ l, i.scopeId ≠ id) :
    (l.foldl putItem rows).filter (·.scopeId == id) = rows.filter (·.scopeId == id) := by
  induction l generalizing rows with
  | nil => rfl
  | cons i l ih =>
    rw [List.foldl_cons, ih fun j hj => h j (List.mem_cons_of_mem _ hj)]
    exact filter_putItem_ne (h i List.mem_cons_self)

theorem scopeOf_putScope_ne {r : ScopeRow} {rows : List ScopeRow} {scope : ConfigScope}
    (h : r.scope ≠ scope) :
    (putScope r rows).find? (·.scope == scope) = rows.find? (·.scope == scope) := by
  unfold putScope
  split
  · rw [List.find?_map]
    have hf : ∀ x, ((fun y : ScopeRow => y.scope == scope) ∘
        fun x => if x.scope == r.scope then r else x) x = (x.scope == scope) := by
      intro x
      show ((if x.scope == r.scope then r else x).scope == scope) = _
      split
      · rename_i he
        rw [(by simpa using he : x.scope = r.scope)]
      · rfl
    have hf' : ((fun y : ScopeRow => y.scope == scope) ∘
        fun x => if x.scope == r.scope then r else x) = fun x => x.scope == scope := funext hf
    rw [hf']
    cases hx : rows.find? fun x => x.scope == scope with
    | none => rfl
    | some x =>
      have he : x.scope = scope := by simpa using List.find?_some hx
      have hne : (x.scope == r.scope) = false := by
        rw [he]
        simpa using Ne.symm h
      show some (if x.scope == r.scope then r else x) = some x
      rw [hne]
      rfl
  · rw [List.find?_append]
    have hn : [r].find? (fun x => x.scope == scope) = none := by
      rw [List.find?_cons_of_neg (by simpa using h)]
      rfl
    rw [hn, Option.or_none]

theorem ConfigLocks.written {db : ConfigDb} (L : ConfigLocks db) {s : Nat} {t : ConfigTx}
    {r : ScopeRow} (hg : db.txs.get s = some t) (hr : t.scope = some r) :
    (∀ i ∈ t.items, i.scopeId = r.id) ∧ ∀ x ∈ t.releases, x.scopeId = r.id := by
  obtain ⟨hitems, hreleases⟩ := L.inside s t hg
  refine ⟨fun i hi => ?_, fun x hx => ?_⟩
  · obtain ⟨r', hr', he⟩ := hitems i hi
    obtain rfl := Option.some.inj (hr.symm.trans hr')
    exact he
  · obtain ⟨r', hr', he⟩ := hreleases x hx
    obtain rfl := Option.some.inj (hr.symm.trans hr')
    exact he

theorem ConfigLocks.apply_none {db : ConfigDb} (L : ConfigLocks db) {s : Nat} {t : ConfigTx}
    (hg : db.txs.get s = some t) (hr : t.scope = none) : t.apply db.tables = db.tables := by
  obtain ⟨hitems, hreleases⟩ := L.inside s t hg
  have h1 : t.items = [] := List.eq_nil_iff_forall_not_mem.mpr fun i hi => by
    obtain ⟨r, hr', -⟩ := hitems i hi
    rw [hr] at hr'
    cases hr'
  have h2 : t.releases = [] := List.eq_nil_iff_forall_not_mem.mpr fun x hx => by
    obtain ⟨r, hr', -⟩ := hreleases x hx
    rw [hr] at hr'
    cases hr'
  unfold ConfigTx.apply
  rw [hr, h1, h2, List.append_nil]
  rfl

namespace ConfigLocks
variable {db : ConfigDb}

theorem commit (L : ConfigLocks db) (s : Nat) : ConfigLocks (db.commit s) := by
  unfold ConfigDb.commit
  cases hg : db.txs.get s with
  | none => exact L
  | some t =>
    obtain ⟨hitems, hreleases⟩ := L.inside s t hg
    cases hsc : t.scope with
    | none =>
      simp only [L.apply_none hg hsc]
      exact L.erase s
    | some r =>
      obtain ⟨hlt, htied⟩ := L.tied s t r hg hsc
      have hscopes : (t.apply db.tables).scopes = putScope r db.tables.scopes := by
        unfold ConfigTx.apply
        rw [hsc]
      have hkeep : ∀ x ∈ db.tables.scopes, ∃ y ∈ putScope r db.tables.scopes, y.id = x.id := by
        intro x hx
        by_cases he : x.scope = r.scope
        · exact ⟨r, mem_putScope.mpr (.inl rfl), ((htied x hx).mp he).symm⟩
        · exact ⟨x, mem_putScope.mpr (.inr ⟨hx, he⟩), rfl⟩
      have L' := L.erase s
      refine ⟨?_, ?_, ?_, ?_, ?_, ?_, L'.apart, L'.inside⟩
      · rw [hscopes]
        exact nodup_putScope_scope L.scopes
      · rw [hscopes]
        exact nodup_putScope_id L.ids htied
      · rw [hscopes]
        intro x hx
        rcases mem_putScope.mp hx with rfl | ⟨hx, -⟩
        · exact hlt
        · exact L.below x hx
      · rw [hscopes]
        intro i hi
        rcases mem_foldl_putItem hi with hi | hi
        · obtain ⟨x, hx, he⟩ := L.items i hi
          obtain ⟨y, hy, hye⟩ := hkeep x hx
          exact ⟨y, hy, hye.trans he⟩
        · obtain ⟨r', hr', he⟩ := hitems i hi
          obtain rfl : r = r' := Option.some.inj (hsc.symm.trans hr')
          exact ⟨r, mem_putScope.mpr (.inl rfl), he.symm⟩
      · rw [hscopes]
        intro x hx
        rcases List.mem_append.mp hx with hx | hx
        · obtain ⟨y, hy, he⟩ := L.releases x hx
          obtain ⟨z, hz, hze⟩ := hkeep y hy
          exact ⟨z, hz, hze.trans he⟩
        · obtain ⟨r', hr', he⟩ := hreleases x hx
          obtain rfl : r = r' := Option.some.inj (hsc.symm.trans hr')
          exact ⟨r, mem_putScope.mpr (.inl rfl), he.symm⟩
      · rw [hscopes]
        intro u t' r' hu hr'
        refine ⟨(L'.tied u t' r' hu hr').1, fun x hx => ?_⟩
        rcases mem_putScope.mp hx with rfl | ⟨hx, -⟩
        · have hus : u ≠ s := by
            rintro rfl
            rw [Slots.get_erase_self] at hu
            cases hu
          rw [Slots.get_erase_ne _ hus] at hu
          obtain ⟨h1, h2⟩ := L.apart s u t t' x r' (Ne.symm hus) hg hu hsc hr'
          exact ⟨fun h => absurd h h1, fun h => absurd h h2⟩
        · exact (L'.tied u t' r' hu hr').2 x hx

end ConfigLocks

/-! ## what a session relies on -/

/-- the committed rows of a scope -/
structure ScopePart where
  row : Option ScopeRow
  items : List ItemRow
  releases : List ReleaseRow

def ConfigTables.part (tb : ConfigTables) (r : ScopeRow) : ScopePart :=
  ⟨tb.scopeOf r.scope, tb.items.filter (·.scopeId == r.id), tb.releases.filter (·.scopeId == r.id)⟩

/-- the session's transaction, and the committed rows of the scope it holds -/
abbrev ConfigView := Option (ConfigTx × Option ScopePart)

def configView (s : Nat) (db : ConfigDb) (_ : List ConfigEv) : ConfigView :=
  (db.txs.get s).map fun t => (t, t.scope.map db.tables.part)

theorem part_apply_ne {t : ConfigTx} {tb : ConfigTables} {r r' : ScopeRow}
    (hsc : t.scope = some r') (hitems : ∀ i ∈ t.items, i.scopeId = r'.id)
    (hreleases : ∀ x ∈ t.releases, x.scopeId = r'.id) (h1 : r'.scope ≠ r.scope)
    (h2 : r'.id ≠ r.id) : (t.apply tb).part r = tb.part r := by
  have hrow : (t.apply tb).scopeOf r.scope = tb.scopeOf r.scope := by
    unfold ConfigTables.scopeOf ConfigTx.apply
    rw [hsc]
    exact scopeOf_putScope_ne h1
  have hi : (t.apply tb).items.filter (·.scopeId == r.id)
      = tb.items.filter (·.scopeId == r.id) := by
    refine filter_foldl_putItem_ne fun i hi => ?_
    rw [hitems i hi]
    exact h2
  have hx : (t.apply tb).releases.filter (·.scopeId == r.id)
      = tb.releases.filter (·.scopeId == r.id) := by
    show (tb.releases ++ t.releases).filter _ = _
    rw [List.filter_append]
    have hnil : t.releases.filter (·.scopeId == r.id) = [] := by
      rw [List.filter_eq_nil_iff]
      intro x hx
      simpa [hreleases x hx] using h2
    rw [hnil, List.append_nil]
  unfold ConfigTables.part
  rw [hrow, hi, hx]

theorem part_commit_other {db : ConfigDb} (L : ConfigLocks db) {s u : Nat} {t : ConfigTx}
    {r : ScopeRow} (hus : u ≠ s) (hu : db.txs.get u = some t) (hr : t.scope = some r) :
    (db.commit s).tables.part r = db.tables.part r := by
  unfold ConfigDb.commit
  cases hg : db.txs.get s with
  | none => rfl
  | some t' =>
    cases hsc : t'.scope with
    | none =>
      show (t'.apply db.tables).part r = _
      rw [L.apply_none hg hsc]
    | some r' =>
      obtain ⟨hitems, hreleases⟩ := L.written hg hsc
      obtain ⟨h1, h2⟩ := L.apart s u t' t r' r (Ne.symm hus) hg hu hsc hr
      exact part_apply_ne hsc hitems hreleases h1 h2

end PgApp
