import PgApp.Config.Versioned
import PgApp.Config.Watch

/-!
# What the rows of a scope say as a document

* `draftItemsOf_putItem`   a row written is an item written;
* `buildSnapshot_eq`       the loop of `publish` checks the draft and leaves it as it is;
* `newestFirst_eq`         the releases of a scope, newest first;
* `docs_commit`            a commit changes the document of the scope its transaction holds.
-/

namespace PgApp
open Interleave Keyed

/-! ## the draft -/

section
variable {items : List ItemRow} {i : ItemRow}

theorem mem_putItem_iff {x : ItemRow} :
    x ∈ putItem items i ↔ x = i ∨ (x ∈ items ∧ x.isAt i.scopeId i.key = false) := by
  unfold putItem
  split
  · rename_i hany
    rw [List.any_eq_true] at hany
    obtain ⟨y, hy, hye⟩ := hany
    rw [List.mem_map]
    constructor
    · intro h
      obtain ⟨z, hz, rfl⟩ := h
      cases he : z.isAt i.scopeId i.key with
      | true => exact .inl (if_pos rfl)
      | false => exact .inr ⟨hz, he⟩
    · intro h
      rcases h with rfl | ⟨hx, hne⟩
      · exact ⟨y, hy, if_pos hye⟩
      · exact ⟨x, hx, by rw [hne]; rfl⟩
  · rename_i hany
    rw [Bool.not_eq_true, List.any_eq_false] at hany
    rw [List.mem_append, List.mem_singleton]
    constructor
    · intro h
      rcases h with hx | rfl
      · exact .inr ⟨hx, by simpa using hany x hx⟩
      · exact .inl rfl
    · intro h
      rcases h with rfl | ⟨hx, -⟩
      · exact .inr rfl
      · exact .inl hx

theorem mem_draftItemsOf {x : ConfigItem} : x ∈ draftItemsOf items ↔ ∃ j ∈ items, j.item = x := by
  unfold draftItemsOf
  rw [List.mem_map]
  simp only [List.mem_insertionSort]

theorem rising_draftItemsOf (hk : (items.map (·.key)).Nodup) :
    Rising (fun x : ConfigItem => x.key) (draftItemsOf items) :=
  Rising.map (Rising.insertionSort _ hk) fun _ _ => rfl

theorem draftItemsOf_putItem (hid : ∀ x ∈ items, x.scopeId = i.scopeId)
    (hk : (items.map (·.key)).Nodup) :
    draftItemsOf (putItem items i) = put (·.key) i.item (draftItemsOf items) := by
  have hr := rising_draftItemsOf hk
  refine Rising.ext (rising_draftItemsOf (nodup_putItem hid hk)) (Rising.put hr) fun x => ?_
  have hat : ∀ j ∈ items, j.isAt i.scopeId i.key = false ↔ j.key ≠ i.key := by
    intro j hj
    unfold ItemRow.isAt
    rw [hid j hj, beq_self_eq_true, Bool.true_and, beq_eq_false_iff_ne]
  rw [mem_put hr, mem_draftItemsOf, mem_draftItemsOf]
  simp only [mem_putItem_iff]
  constructor
  · intro h
    obtain ⟨j, rfl | ⟨hj, hne⟩, rfl⟩ := h
    · exact .inl rfl
    · exact .inr ⟨⟨j, hj, rfl⟩, (hat j hj).mp hne⟩
  · intro h
    rcases h with rfl | ⟨⟨j, hj, rfl⟩, hne⟩
    · exact ⟨i, .inl rfl, rfl⟩
    · exact ⟨j, .inr ⟨hj, (hat j hj).mpr hne⟩, rfl⟩

/-- the draft without its deleted keys is what `publish` selects -/
theorem active_draftItemsOf (hk : (items.map (·.key)).Nodup) :
    ((draftItemsOf items).filter fun x => !x.deleted).map (fun x => (x.key, x.value))
      = activeRows items := by
  have hl : Rising (fun x : String × Json => x.1)
      (((draftItemsOf items).filter fun x => !x.deleted).map fun x => (x.key, x.value)) :=
    Rising.map ((rising_draftItemsOf hk).filter _) fun _ _ => rfl
  have hn : (((items.filter fun j => !j.deleted).map fun j => (j.key, j.value)).map
      (·.1)).Nodup := by
    rw [List.map_map]
    exact hk.sublist (List.filter_sublist.map _)
  refine Rising.ext hl (Rising.insertionSort (fun x : String × Json => x.1) hn) fun x => ?_
  unfold draftItemsOf activeRows
  simp only [List.mem_map, List.mem_filter, List.mem_insertionSort]
  constructor
  · intro h
    obtain ⟨_, ⟨⟨j, hj, rfl⟩, hd⟩, rfl⟩ := h
    exact ⟨j, ⟨hj, hd⟩, rfl⟩
  · intro h
    obtain ⟨j, ⟨hj, hd⟩, rfl⟩ := h
    exact ⟨j.item, ⟨⟨j, hj, rfl⟩, hd⟩, rfl⟩

end

/-! ## the snapshot -/

theorem mapInsert_last {key : String} {value : Json} {l : List (String × Json)}
    (h : ∀ x ∈ l, x.1 < key) : mapInsert key value l = l ++ [(key, value)] := by
  induction l with
  | nil => rfl
  | cons x l ih =>
    obtain ⟨k, v⟩ := x
    have hk : k < key := h (k, v) List.mem_cons_self
    unfold mapInsert
    rw [if_neg (lt_asymm hk), if_neg (ne_of_gt hk), ih fun y hy => h y (List.mem_cons_of_mem _ hy)]
    rfl

theorem buildSnapshot_append (store : ConfigStore) (schema : Option Json)
    {rows acc : List (String × Json)} (h : keysSorted (acc ++ rows)) :
    store.buildSnapshot schema rows acc = (store.checkDraft schema rows).map fun _ =>
        acc ++ rows := by
  induction rows generalizing acc with
  | nil =>
    rw [List.append_nil]
    rfl
  | cons x rows ih =>
    obtain ⟨key, value⟩ := x
    have hlast : mapInsert key value acc = acc ++ [(key, value)] :=
      mapInsert_last fun y hy => (List.pairwise_append.mp h).2.2 y hy
        (key, value) List.mem_cons_self
    rw [List.append_cons] at h
    unfold ConfigStore.buildSnapshot ConfigStore.checkDraft
    cases hc : store.checkSchema key value schema with
    | error e => rfl
    | ok u =>
      show store.buildSnapshot schema rows (mapInsert key value acc) = _
      rw [hlast, ih h, ← List.append_cons]
      rfl

/-- **A draft that passes its schema is its own snapshot.** -/
theorem buildSnapshot_eq (store : ConfigStore) (schema : Option Json) {rows : List (String × Json)}
    (h : keysSorted rows) :
    store.buildSnapshot schema rows [] = (store.checkDraft schema rows).map fun _ => rows :=
  buildSnapshot_append store schema h

theorem keysSorted_activeRows {items : List ItemRow} (hk : (items.map (·.key)).Nodup) :
    keysSorted (activeRows items) := by
  have hn : (((items.filter fun j => !j.deleted).map fun j => (j.key, j.value)).map
      (·.1)).Nodup := by
    rw [List.map_map]
    exact hk.sublist (List.filter_sublist.map _)
  exact Rising.insertionSort (fun x : String × Json => x.1) hn

/-! ## the releases -/

theorem newestFirst_eq {l : List ConfigRelease}
    (h : Rising (fun x : ConfigRelease => x.revision) l) :
    newestFirst l = l.reverse := by
  have : Std.Total fun a b : ConfigRelease => b.revision ≤ a.revision := ⟨fun a b => le_total _ _⟩
  have : IsTrans ConfigRelease fun a b => b.revision ≤ a.revision :=
    ⟨fun _ _ _ h1 h2 => le_trans h2 h1⟩
  unfold newestFirst
  have hsorted := List.pairwise_insertionSort (fun a b : ConfigRelease => b.revision ≤ a.revision) l
  refine List.Perm.eq_of_pairwise (fun a b ha hb h1 h2 => ?_) hsorted ?_ ?_
  · rw [List.mem_insertionSort] at ha
    exact h.inj ha (List.mem_reverse.mp hb) (le_antisymm h2 h1)
  · rw [List.pairwise_reverse]
    exact h.imp fun hab => le_of_lt hab
  · exact (List.perm_insertionSort _ l).trans (List.reverse_perm l).symm

/-! ## a scope and its rows -/

/-- what a transaction finds when it takes the row of a scope: the committed row, or a new one -/
structure Takes (time : Time) (row : ScopeRow) (p : ScopePart) : Prop where
  base : p.row = some row ∨
    (p.row = none ∧ row = ⟨row.id, row.scope, 0, time, time, none⟩ ∧ p.items = [] ∧ p.releases = [])
  keys : (p.items.map (·.key)).Nodup
  ids : ∀ i ∈ p.items, i.scopeId = row.id
  current : row.currentRevision = p.releases.length

namespace Takes
variable {time : Time} {row : ScopeRow} {p : ScopePart}

theorem anchored (h : Takes time row p) : Anchored row p := by
  rcases h.base with hr | ⟨hr, hrow, hi, hx⟩
  · exact .inl hr
  · exact .inr ⟨hr, by rw [hrow], by rw [hrow], hi, hx⟩

theorem doc (h : Takes time row p) : p.doc.getD (.new time) = docOf row p.items p.releases := by
  unfold ScopePart.doc
  rcases h.base with hr | ⟨hr, hrow, hi, hx⟩
  · rw [hr]
    rfl
  · rw [hr, hi, hx, hrow]
    rfl

theorem revision (h : Takes time row p) :
    (docOf row p.items p.releases).revision = row.currentRevision := by
  rw [h.current]
  show ((p.releases.map _).length : Int) = _
  rw [List.length_map]

theorem active (h : Takes time row p) :
    (docOf row p.items p.releases).active = activeRows p.items := active_draftItemsOf h.keys

theorem write (h : Takes time row p) (id : Int) (key : String) (value : Json) (deleted : Bool) :
    docOf row (putItem p.items ⟨id, row.id, key, value, deleted, time⟩) p.releases
      = (docOf row p.items p.releases).write ⟨key, value, deleted, time⟩ := by
  unfold docOf ScopeDoc.write
  rw [draftItemsOf_putItem h.ids h.keys]
  rfl

end Takes

/-! ## the documents of the tables -/

section
variable {tb : ConfigTables} {scope : ConfigScope}

theorem docs_eq (tb : ConfigTables) (scope : ConfigScope) : tb.docs scope
    = (tb.scopeOf scope).map fun x => docOf x (tb.part x).items (tb.part x).releases := by
  unfold ConfigTables.docs ConfigTables.state
  cases hx : tb.scopeOf scope with
  | none => rfl
  | some x =>
    obtain ⟨-, rfl⟩ := ConfigLocks.scopeOf_mem hx
    show (tb.scopeOf x.scope).map _ = _
    rw [hx]
    rfl

theorem docs_part {row : ScopeRow} (h : Anchored row (tb.part row)) :
    tb.docs row.scope = (tb.part row).doc := by
  unfold ConfigTables.docs
  rw [(anchored_state h).1]

theorem docs_schema (tb : ConfigTables) (scope : ConfigScope) :
    ((tb.scopeOf scope).map (·.jsonSchema)).join = (tb.docs scope).bind (·.schema) := by
  rw [docs_eq]
  cases tb.scopeOf scope with
  | none => rfl
  | some x => rfl

theorem docs_items_none (h : tb.scopeOf scope = none) : ConfigDocs.items tb.docs scope = [] := by
  unfold ConfigDocs.items
  rw [docs_eq, h]
  rfl

theorem docs_items {x : ScopeRow} (h : tb.scopeOf scope = some x) :
    tb.draftItems x.id = ConfigDocs.items tb.docs scope := by
  unfold ConfigDocs.items
  rw [docs_eq, h]
  rfl

end

section
variable {db : ConfigDb} {h : List ConfigEv} {scope : ConfigScope}

theorem docs_releases (L : ConfigLocks db) (scope : ConfigScope) :
    db.tables.releasesOf scope = ConfigDocs.releases db.tables.docs scope := by
  rw [releasesOf_eq L]
  unfold ConfigDocs.releases
  rw [docs_eq]
  unfold ConfigTables.state
  cases hx : db.tables.scopeOf scope with
  | none => rfl
  | some x =>
    obtain ⟨-, rfl⟩ := ConfigLocks.scopeOf_mem hx
    rfl

theorem rising_revisionsTo (n : Nat) : (revisionsTo n).Pairwise (· < ·) := by
  unfold revisionsTo
  rw [List.pairwise_map]
  exact List.pairwise_lt_range.imp fun hab => by omega

theorem rising_releases (L : ConfigLocks db) (H : ScopeHistory h scope (db.tables.state scope)) :
    Rising (fun x : ConfigRelease => x.revision) (ConfigDocs.releases db.tables.docs scope) := by
  have hmap : (ConfigDocs.releases db.tables.docs scope).map (·.revision)
      = revisionsTo (db.tables.state scope).releases.length := by
    rw [← docs_releases L, releasesOf_eq L, ← H.revisions, List.map_map]
    rfl
  have hs := rising_revisionsTo (db.tables.state scope).releases.length
  rw [← hmap] at hs
  exact List.pairwise_map.mp hs

theorem docs_newestFirst (L : ConfigLocks db) (H : ScopeHistory h scope (db.tables.state scope)) :
    newestFirst (db.tables.releasesOf scope)
        = (ConfigDocs.releases db.tables.docs scope).reverse := by
  rw [docs_releases L, newestFirst_eq (rising_releases L H)]

theorem docs_latest (L : ConfigLocks db) (H : ScopeHistory h scope (db.tables.state scope)) :
    db.tables.latestRelease scope = ConfigDocs.latest db.tables.docs scope := by
  unfold ConfigTables.latestRelease ConfigDocs.latest
  rw [docs_newestFirst L H, List.head?_reverse]

theorem docs_newer (L : ConfigLocks db) (H : ScopeHistory h scope (db.tables.state scope))
    {known : Int}
    {release : ConfigRelease} (hx : db.tables.latestNewerThan scope known = some release) :
    ConfigDocs.latest db.tables.docs scope = some release ∧ known < release.revision := by
  have hr := rising_releases L H
  unfold ConfigTables.latestNewerThan at hx
  rw [docs_releases L, newestFirst_eq (hr.filter _), List.head?_reverse] at hx
  have hmem := List.mem_filter.mp (List.mem_of_getLast? hx)
  have hlt : known < release.revision := by simpa using hmem.2
  refine ⟨?_, hlt⟩
  unfold ConfigDocs.latest
  rcases List.eq_nil_or_concat (ConfigDocs.releases db.tables.docs scope) with hnil | ⟨l, z, hl⟩
  · rw [hnil] at hx
    cases hx
  · rw [List.concat_eq_append] at hl
    rw [hl] at hx hr ⊢
    rw [List.getLast?_concat]
    rw [List.filter_append] at hx
    by_cases hz : known < z.revision
    · rw [List.filter_cons_of_pos (by simpa using hz), List.filter_nil, List.getLast?_concat] at hx
      exact hx
    · -- a release after the last one known would be newer still
      rw [List.filter_cons_of_neg (by simpa using hz), List.filter_nil, List.append_nil] at hx
      have hl' := (List.mem_filter.mp (List.mem_of_getLast? hx)).1
      have hlast : release.revision < z.revision :=
        (List.pairwise_append.mp hr).2.2 release hl' z List.mem_cons_self
      omega

theorem docs_current (L : ConfigLocks db) (H : ScopeHistory h scope (db.tables.state scope)) :
    ((db.tables.scopeOf scope).map (·.currentRevision)).getD 0
      = (ConfigDocs.releases db.tables.docs scope).length := by
  rw [← docs_releases L, releasesOf_eq L, List.length_map, ← H.current]
  exact revisionOf_eq L

theorem docs_lists (L : ConfigLocks db)
    (H : ∀ scope, ScopeHistory h scope (db.tables.state scope)) :
    ConfigDocs.Lists db.tables.docs db.tables.listedScopes := by
  have hkeys : (db.tables.scopes.map scopeKey).Nodup := by
    have hinj : Function.Injective fun sc : ConfigScope =>
        [sc.appId, sc.environment, sc.cluster, sc.namespace_] := by
      intro a b hab
      obtain ⟨a1, a2, a3, a4⟩ := a
      obtain ⟨b1, b2, b3, b4⟩ := b
      simpa using hab
    have hmap : db.tables.scopes.map scopeKey = (db.tables.scopes.map (·.scope)).map
        fun sc => [sc.appId, sc.environment, sc.cluster, sc.namespace_] := by
      rw [List.map_map]
      rfl
    rw [hmap]
    exact L.scopes.map hinj
  refine ⟨Rising.map (Rising.insertionSort _ hkeys) fun _ _ => rfl, fun x => ?_⟩
  have hdoc : ∀ r ∈ db.tables.scopes, ∃ doc, db.tables.docs r.scope = some doc ∧
      (⟨r.scope, r.currentRevision, r.createdAt, r.updatedAt⟩ : ConfigScopeSummary)
        = doc.summary r.scope := by
    intro r hr
    have hsc := L.scopeOf_eq hr
    refine ⟨docOf r (db.tables.part r).items
      (db.tables.part r).releases, by rw [docs_eq, hsc]; rfl, ?_⟩
    have hcur := docs_current L (H r.scope)
    unfold ConfigDocs.releases at hcur
    rw [docs_eq, hsc] at hcur
    exact congrArg (fun n : Int => ConfigScopeSummary.mk r.scope n r.createdAt r.updatedAt) hcur
  unfold ConfigTables.listedScopes
  rw [List.mem_map]
  simp only [List.mem_insertionSort]
  constructor
  · intro hx
    obtain ⟨r, hr, rfl⟩ := hx
    exact hdoc r hr
  · intro hx
    obtain ⟨doc, hd, hx⟩ := hx
    have hd' := hd
    rw [docs_eq] at hd'
    obtain ⟨r, hr, -⟩ := Option.map_eq_some_iff.mp hd'
    obtain ⟨hmem, hsc⟩ := ConfigLocks.scopeOf_mem hr
    refine ⟨r, hmem, ?_⟩
    obtain ⟨doc', hd'', he⟩ := hdoc r hmem
    rw [hsc] at hd'' he
    rw [hsc, he, hx]
    obtain rfl := Option.some.inj (hd''.symm.trans hd)
    rfl

/-! ## a commit -/

/-- a transaction is ready to commit what its call makes of the document -/
def Made (call : ConfigCall) (answer : ConfigReturn) (t : ConfigTx) (p : ScopePart) : Prop :=
  ∃ row row', t.scope = some row' ∧ row'.scope = row.scope ∧ row'.id = row.id ∧
    call.op.writes = some row.scope ∧ Takes t.startedAt row p ∧
    call.change t.startedAt (docOf row p.items p.releases)
      = .ok (answer, docOf row' (t.items.foldl putItem p.items) (p.releases ++ t.releases))

/-- a transaction finds that its call is refused -/
def Refused (call : ConfigCall) (e : PgAppError) (t : ConfigTx) (p : ScopePart) : Prop :=
  ∃ row, t.scope = some row ∧ call.op.writes = some row.scope ∧ Takes t.startedAt row p ∧
    call.change t.startedAt (docOf row p.items p.releases) = .error e

variable {s : Nat} {t : ConfigTx} {p : ScopePart} {call : ConfigCall}

/-- **A commit is one step of the store of documents.** -/
theorem docs_commit (L : ConfigLocks db) (hv : configView s db h = some (t, some p))
    {answer : ConfigReturn} (hm : Made call answer t p) :
    call.Does t.startedAt db.tables.docs (.ok answer) (db.commit s).tables.docs := by
  obtain ⟨hg, hpart⟩ := get_of_configView hv
  obtain ⟨row, row', hr, hsc, hid, hw, ht, hc⟩ := hm
  rw [hr] at hpart
  have hp : db.tables.part row' = p := Option.some.inj hpart
  have hpr : db.tables.part row = p := by
    rw [← hp]
    unfold ConfigTables.part
    rw [hsc, hid]
  subst hpr
  unfold ConfigCall.Does
  rw [hw]
  dsimp only
  rw [docs_part ht.anchored, ht.doc, hc]
  refine ⟨rfl, funext fun scope => ?_⟩
  by_cases he : scope = row.scope
  · subst he
    rw [Function.update_self]
    have hself := state_commit_self L hg hr
    rw [hsc, hp] at hself
    unfold ConfigTables.docs
    rw [hself]
    rfl
  · rw [Function.update_of_ne he]
    unfold ConfigTables.docs
    rw [state_commit_ne L hg hr (by rw [hsc]; exact Ne.symm he)]

theorem docs_refused (hv : configView s db h = some (t, some p)) {e : PgAppError}
    (hm : Refused call e t p) : call.Does t.startedAt db.tables.docs (.error e) db.tables.docs := by
  obtain ⟨hg, hpart⟩ := get_of_configView hv
  obtain ⟨row, hr, hw, ht, hc⟩ := hm
  rw [hr] at hpart
  obtain rfl : db.tables.part row = p := Option.some.inj hpart
  unfold ConfigCall.Does
  rw [hw]
  dsimp only
  rw [docs_part ht.anchored, ht.doc, hc]
  exact ⟨rfl, rfl⟩

end

end PgApp
