import PgApp.Config.Calls

/-!
# What `publish` makes of the draft

`buildSnapshot` inserts the active items of the scope, one by one, in a map with ordered keys.

* `keysSorted`             the keys of a snapshot are in strict order, so each occurs once;
* `mem_buildSnapshot_iff`  a draft with distinct keys comes out as it went in;
* `draftOf`                what the item rows of a scope say of a key.
-/

namespace PgApp

/-- keys in strict order -/
def keysSorted (l : List (String × Json)) : Prop := l.Pairwise fun a b => a.1 < b.1

theorem mem_mapInsert {key k : String} {value v : Json} {l : List (String × Json)}
    (hl : keysSorted l) :
    (k, v) ∈ mapInsert key value l ↔ (k = key ∧ v = value) ∨ (k ≠ key ∧ (k, v) ∈ l) := by
  induction l with
  | nil =>
    unfold mapInsert
    simp only [List.mem_singleton, Prod.mk.injEq, List.not_mem_nil, and_false, or_false]
  | cons x l ih =>
    obtain ⟨k', v'⟩ := x
    obtain ⟨hfirst, hrest⟩ := List.pairwise_cons.mp hl
    have hlater : ∀ w, (k, w) ∈ l → k' < k := fun w hw => hfirst (k, w) hw
    unfold mapInsert
    split
    · rename_i hlt
      rw [List.mem_cons, Prod.mk.injEq]
      refine or_congr_right ⟨fun h => ⟨?_, h⟩, fun h => h.2⟩
      rcases List.mem_cons.mp h with h | h
      · obtain ⟨rfl, -⟩ := Prod.mk.inj h
        exact ne_of_gt hlt
      · exact ne_of_gt (lt_trans hlt (hlater v h))
    · split
      · rename_i heq
        subst heq
        simp only [List.mem_cons, Prod.mk.injEq]
        refine or_congr_right ⟨fun h => ⟨ne_of_gt (hlater v h), .inr h⟩, fun h => ?_⟩
        rcases h.2 with h' | h'
        · exact absurd h'.1 h.1
        · exact h'
      · rename_i hne
        rw [List.mem_cons, ih hrest, List.mem_cons, Prod.mk.injEq]
        constructor
        · intro hex
          rcases hex with ⟨rfl, rfl⟩ | h | h
          · exact .inr ⟨Ne.symm hne, .inl ⟨rfl, rfl⟩⟩
          · exact .inl h
          · exact .inr ⟨h.1, .inr h.2⟩
        · intro hex
          rcases hex with h | ⟨hk, h | h⟩
          · exact .inr (.inl h)
          · exact .inl h
          · exact .inr (.inr ⟨hk, h⟩)

theorem keysSorted_mapInsert {key : String} {value : Json} {l : List (String × Json)}
    (hl : keysSorted l) : keysSorted (mapInsert key value l) := by
  induction l with
  | nil => exact List.pairwise_singleton _ _
  | cons x l ih =>
    obtain ⟨k', v'⟩ := x
    obtain ⟨hfirst, hrest⟩ := List.pairwise_cons.mp hl
    unfold mapInsert
    split
    · rename_i hlt
      refine List.pairwise_cons.mpr ⟨fun y hy => ?_, hl⟩
      rcases List.mem_cons.mp hy with rfl | hy
      · exact hlt
      · exact lt_trans hlt (hfirst y hy)
    · split
      · rename_i heq
        subst heq
        exact List.pairwise_cons.mpr ⟨hfirst, hrest⟩
      · rename_i hnlt hne
        have hgt : k' < key := lt_of_le_of_ne (le_of_not_gt hnlt) (Ne.symm hne)
        refine List.pairwise_cons.mpr ⟨fun y hy => ?_, ih hrest⟩
        obtain ⟨k, v⟩ := y
        rcases (mem_mapInsert hrest).mp hy with ⟨rfl, -⟩ | ⟨-, h⟩
        · exact hgt
        · exact hfirst (k, v) h

/-- the loop of `publish`, from any map built so far -/
theorem buildSnapshot_spec {store : ConfigStore} {schema : Option Json}
    {rows acc fields : List (String × Json)} (hrows : (rows.map (·.1)).Nodup)
    (hacc : keysSorted acc) (h : store.buildSnapshot schema rows acc = .ok fields) :
    keysSorted fields ∧ (∀ k v, (k, v) ∈ fields ↔
        (k, v) ∈ rows ∨ (k ∉ rows.map (·.1) ∧ (k, v) ∈ acc)) ∧
      ∀ x ∈ rows, store.checkSchema x.1 x.2 schema = .ok () := by
  induction rows generalizing acc with
  | nil =>
    obtain rfl : acc = fields := Except.ok.inj h
    exact ⟨hacc, fun k v => by simp, fun x hx => absurd hx List.not_mem_nil⟩
  | cons row rows ih =>
    obtain ⟨key, value⟩ := row
    unfold ConfigStore.buildSnapshot at h
    split at h
    · cases h
    · rename_i hcheck
      rw [List.map_cons, List.nodup_cons] at hrows
      obtain ⟨h1, h2, h3⟩ := ih hrows.2 (keysSorted_mapInsert hacc) h
      refine ⟨h1, fun k v => ?_, fun x hx => ?_⟩
      · rw [h2, mem_mapInsert hacc, List.mem_cons, Prod.mk.injEq, List.map_cons, List.mem_cons,
          not_or]
        constructor
        · intro hex
          rcases hex with h | ⟨hk, ⟨rfl, rfl⟩ | ⟨hne, h⟩⟩
          · exact .inl (.inr h)
          · exact .inl (.inl ⟨rfl, rfl⟩)
          · exact .inr ⟨⟨hne, hk⟩, h⟩
        · intro hex
          rcases hex with (⟨rfl, rfl⟩ | h) | ⟨⟨hne, hk⟩, h⟩
          · exact .inr ⟨hrows.1, .inl ⟨rfl, rfl⟩⟩
          · exact .inl h
          · exact .inr ⟨hk, .inr ⟨hne, h⟩⟩
      · rcases List.mem_cons.mp hx with rfl | hx
        · exact hcheck
        · exact h3 x hx

/-- **A draft with distinct keys comes out of `publish` as it went in.** -/
theorem mem_buildSnapshot_iff {store : ConfigStore} {schema : Option Json}
    {rows fields : List (String × Json)} (hrows : (rows.map (·.1)).Nodup)
    (h : store.buildSnapshot schema rows [] = .ok fields) :
    keysSorted fields ∧ ∀ k v, (k, v) ∈ fields ↔ (k, v) ∈ rows := by
  obtain ⟨h1, h2, -⟩ := buildSnapshot_spec hrows List.Pairwise.nil h
  refine ⟨h1, fun k v => ?_⟩
  rw [h2]
  simp

/-! ## the draft -/

/-- what the item rows of a scope say of a key: nothing, deleted, or its value -/
def draftOf (items : List ItemRow) (key : String) : Option (Option Json) :=
  (items.find? (·.key == key)).map fun i => if i.deleted then none else some i.value

theorem draftOf_of_mem {items : List ItemRow} (hk : (items.map (·.key)).Nodup) {i : ItemRow}
    (hi : i ∈ items) : draftOf items i.key = some (if i.deleted then none else some i.value) := by
  unfold draftOf
  cases hf : items.find? (·.key == i.key) with
  | none =>
    rw [List.find?_eq_none] at hf
    exact absurd (beq_self_eq_true i.key) (hf i hi)
  | some j =>
    have hj : j.key = i.key := by simpa using List.find?_some hf
    obtain rfl := List.inj_on_of_nodup_map hk (List.mem_of_find?_eq_some hf) hi hj
    rfl

theorem mem_activeRows {items : List ItemRow} (hk : (items.map (·.key)).Nodup) {k : String}
    {v : Json} : (k, v) ∈ activeRows items ↔ draftOf items k = some (some v) := by
  unfold activeRows
  rw [List.mem_insertionSort, List.mem_map]
  constructor
  · intro hex
    obtain ⟨i, hi, he⟩ := hex
    obtain ⟨hi, hd⟩ := List.mem_filter.mp hi
    obtain ⟨rfl, rfl⟩ := Prod.mk.inj he
    rw [draftOf_of_mem hk hi, if_neg (by simpa using hd)]
  · intro h
    unfold draftOf at h
    obtain ⟨i, hi, he⟩ := Option.map_eq_some_iff.mp h
    have hkey : i.key = k := by simpa using List.find?_some hi
    cases hd : i.deleted with
    | true =>
      rw [hd] at he
      cases he
    | false =>
      rw [hd] at he
      refine ⟨i, List.mem_filter.mpr ⟨List.mem_of_find?_eq_some hi, by simp [hd]⟩, ?_⟩
      rw [hkey]
      exact congrArg (Prod.mk k) (Option.some.inj he)

theorem nodup_activeRows {items : List ItemRow} (hk : (items.map (·.key)).Nodup) :
    ((activeRows items).map (·.1)).Nodup := by
  unfold activeRows
  have hp := List.perm_insertionSort (fun a b : String × Json => a.1 ≤ b.1)
    ((items.filter fun i => !i.deleted).map fun i => (i.key, i.value))
  rw [(hp.map (·.1)).nodup_iff, List.map_map]
  exact hk.sublist (List.filter_sublist.map _)

theorem draftOf_putItem {items : List ItemRow} {i : ItemRow}
    (hid : ∀ x ∈ items, x.scopeId = i.scopeId) (key : String) :
    draftOf (putItem items i) key
      = if key = i.key then some (if i.deleted then none else some i.value)
        else draftOf items key := by
  have hat : ∀ x ∈ items, x.isAt i.scopeId i.key = (x.key == i.key) := by
    intro x hx
    unfold ItemRow.isAt
    rw [hid x hx, beq_self_eq_true, Bool.true_and]
  unfold draftOf putItem
  split
  · rename_i hany
    rw [List.any_eq_true] at hany
    obtain ⟨y, hy, hye⟩ := hany
    rw [hat y hy] at hye
    have hmap : (items.map fun x => if x.isAt i.scopeId i.key then i else x)
        = items.map fun x => if x.key == i.key then i else x :=
      List.map_congr_left fun x hx => by rw [hat x hx]
    have hkeys : ((fun x : ItemRow => x.key == key) ∘ fun x => if x.key == i.key then i else x)
        = fun x => x.key == key := by
      funext x
      show ((if x.key == i.key then i else x).key == key) = _
      split
      · rename_i he
        rw [(by simpa using he : x.key = i.key)]
      · rfl
    rw [hmap, List.find?_map, hkeys, Option.map_map]
    by_cases e : key = i.key
    · subst e
      rw [if_pos rfl]
      cases hf : items.find? (·.key == i.key) with
      | none =>
        rw [List.find?_eq_none] at hf
        exact absurd hye (hf y hy)
      | some x =>
        have hx : (x.key == i.key) = true :=
          List.find?_some (p := fun y : ItemRow => y.key == i.key) hf
        show some (if (if x.key == i.key then i else x).deleted then none
          else some (if x.key == i.key then i else x).value) = _
        rw [hx]
        rfl
    · rw [if_neg e]
      cases hf : items.find? (·.key == key) with
      | none => rfl
      | some x =>
        have hx : x.key = key := by simpa using List.find?_some hf
        have hne : (x.key == i.key) = false := by
          rw [hx]
          simpa using e
        show some (if (if x.key == i.key then i else x).deleted then none
          else some (if x.key == i.key then i else x).value) = _
        rw [hne]
        rfl
  · rename_i hany
    rw [Bool.not_eq_true, List.any_eq_false] at hany
    rw [List.find?_append]
    by_cases e : key = i.key
    · subst e
      have hn : items.find? (·.key == i.key) = none := by
        rw [List.find?_eq_none]
        intro x hx
        rw [← hat x hx]
        exact hany x hx
      rw [hn, if_pos rfl]
      simp
    · rw [if_neg e]
      have hn : [i].find? (·.key == key) = none := by
        rw [List.find?_cons_of_neg (by simpa using Ne.symm e)]
        rfl
      rw [hn, Option.or_none]

theorem nodup_putItem {items : List ItemRow} {i : ItemRow}
    (hid : ∀ x ∈ items, x.scopeId = i.scopeId) (hk : (items.map (·.key)).Nodup) :
    ((putItem items i).map (·.key)).Nodup := by
  unfold putItem
  split
  · have e : (items.map fun x => if x.isAt i.scopeId i.key then i else x).map (·.key)
        = items.map (·.key) := by
      rw [List.map_map]
      refine List.map_congr_left fun x _ => ?_
      show (if x.isAt i.scopeId i.key then i else x).key = x.key
      split
      · rename_i he
        unfold ItemRow.isAt at he
        rw [Bool.and_eq_true, beq_iff_eq, beq_iff_eq] at he
        exact he.2.symm
      · rfl
    rw [e]
    exact hk
  · rename_i hany
    rw [Bool.not_eq_true, List.any_eq_false] at hany
    rw [List.map_append, List.nodup_append]
    refine ⟨hk, List.nodup_singleton _, ?_⟩
    intro a ha b hb hab
    obtain ⟨x, hx, rfl⟩ := List.mem_map.mp ha
    obtain rfl := List.mem_singleton.mp hb
    refine hany x hx ?_
    unfold ItemRow.isAt
    rw [hid x hx, hab]
    simp

end PgApp
