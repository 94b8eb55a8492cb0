import PgApp.Cache.Store

/-!
# Ids and unique keys

What the two indexes of `cache_entries` promise, kept by every statement of every session:

* `CacheDb.Ok`   committed rows have different ids below the sequence and different unique keys;
each
                 open transaction could commit (`CacheTx.Ok`), and no two are in each other's way
                 (`CacheTx.Apart`);
* `CacheStmt.exec_ok`, `CacheReach.ok`   one step, and whole runs.
-/

namespace PgApp
open Interleave

/-- the unique key of a row -/
def EntryRow.uniq (r : EntryRow) : String × Int × String := (r.namespace_, r.generation, r.keyHash)

theorem EntryRow.isAt_iff {r : EntryRow} {ns : String} {g : Int} {h : String} :
    r.isAt ns g h = true ↔ r.uniq = (ns, g, h) := by
  simp [EntryRow.isAt, EntryRow.isIn, EntryRow.uniq, and_assoc]

theorem EntryRow.isKey_iff {r : EntryRow} {ns : String} {g : Int} {h key : String} :
    r.isKey ns g h key = true ↔ r.isAt ns g h = true ∧ r.cacheKey = key := by
  simp [EntryRow.isKey]

/-! ## versions of rows -/

theorem mem_putEntry {rows : List EntryRow} {r y : EntryRow} :
    y ∈ putEntry rows r ↔ y = r ∨ (y ∈ rows ∧ y.id ≠ r.id) := by
  unfold putEntry
  by_cases h : rows.any (·.id == r.id) = true
  · rw [if_pos h]
    simp only [List.mem_map]
    constructor
    · intro hex
      obtain ⟨x, hx, rfl⟩ := hex
      by_cases e : x.id = r.id
      · simp [e]
      · simp [e, hx]
    · intro hex
      rcases hex with rfl | ⟨hy, hne⟩
      · obtain ⟨x, hx, e⟩ := List.any_eq_true.mp h
        exact ⟨x, hx, by rw [if_pos e]⟩
      · exact ⟨y, hy, by rw [if_neg (by simpa using hne)]⟩
  · rw [if_neg h]
    simp only [List.any_eq_true, beq_iff_eq, not_exists, not_and] at h
    simp only [List.mem_append, List.mem_singleton]
    constructor
    · intro hex
      rcases hex with hy | rfl
      · exact .inr ⟨hy, h y hy⟩
      · exact .inl rfl
    · intro hex
      rcases hex with rfl | ⟨hy, -⟩
      · exact .inr rfl
      · exact .inl hy

theorem ids_putEntry {rows : List EntryRow} {r : EntryRow} (h : (rows.map (·.id)).Nodup) :
    ((putEntry rows r).map (·.id)).Nodup := by
  unfold putEntry
  by_cases ha : rows.any (·.id == r.id) = true
  · rw [if_pos ha, List.map_map]
    have e : ((·.id) ∘ fun x : EntryRow => if x.id == r.id then r else x) = (·.id) := by
      funext x
      by_cases hx : x.id = r.id
      · simp [hx]
      · simp [hx]
    rw [e]
    exact h
  · rw [if_neg ha, List.map_append]
    simp only [List.any_eq_true, beq_iff_eq, not_exists, not_and] at ha
    rw [List.nodup_append]
    refine ⟨h, by simp, ?_⟩
    intro i hi j hj e
    obtain ⟨x, hx, rfl⟩ := List.mem_map.mp hi
    simp only [List.map_cons, List.map_nil, List.mem_singleton] at hj
    exact ha x hx (e.trans hj)

theorem mem_foldl_putEntry {vs rows : List EntryRow} (hv : (vs.map (·.id)).Nodup) {y : EntryRow} :
    y ∈ vs.foldl putEntry rows ↔ y ∈ vs ∨ (y ∈ rows ∧ y.id ∉ vs.map (·.id)) := by
  induction vs generalizing rows with
  | nil => simp
  | cons v vs ih =>
    rw [List.map_cons, List.nodup_cons] at hv
    rw [List.foldl_cons, ih hv.2, mem_putEntry]
    simp only [List.mem_cons, List.map_cons, not_or]
    constructor
    · intro hex
      rcases hex with h | ⟨rfl | ⟨h, hne⟩, hn⟩
      · exact .inl (.inr h)
      · exact .inl (.inl rfl)
      · exact .inr ⟨h, hne, hn⟩
    · intro hex
      rcases hex with (rfl | h) | ⟨h, hne, hn⟩
      · exact .inr ⟨.inl rfl, hv.1⟩
      · exact .inl h
      · exact .inr ⟨.inr ⟨h, hne⟩, hn⟩

theorem ids_foldl_putEntry {vs rows : List EntryRow} (h : (rows.map (·.id)).Nodup) :
    ((vs.foldl putEntry rows).map (·.id)).Nodup := by
  induction vs generalizing rows with
  | nil => exact h
  | cons v vs ih => exact ih (ids_putEntry h)

theorem ids_filter {rows : List EntryRow} (h : (rows.map (·.id)).Nodup) (p : EntryRow → Bool) :
    ((rows.filter p).map (·.id)).Nodup := h.sublist (List.filter_sublist.map _)

theorem eq_of_id {rows : List EntryRow} (h : (rows.map (·.id)).Nodup) {x y : EntryRow}
    (hx : x ∈ rows) (hy : y ∈ rows) (e : x.id = y.id) : x = y := List.inj_on_of_nodup_map h hx hy e

theorem ids_append {rows : List EntryRow} {v : EntryRow} (h : (rows.map (·.id)).Nodup)
    (hv : ∀ r ∈ rows, r.id < v.id) : ((rows ++ [v]).map (·.id)).Nodup := by
  rw [List.map_append, List.nodup_append]
  refine ⟨h, by simp, fun i hi j hj e => ?_⟩
  obtain ⟨x, hx, rfl⟩ := List.mem_map.mp hi
  have hj' : j = v.id := List.mem_singleton.mp hj
  exact Int.ne_of_lt (hv x hx) (e.trans hj')

theorem keys_append {rows : List EntryRow} {v : EntryRow}
    (h : ∀ x ∈ rows, ∀ y ∈ rows, x.uniq = y.uniq → x.id = y.id)
    (hv : ∀ r ∈ rows, r.uniq ≠ v.uniq) :
    ∀ x ∈ rows ++ [v], ∀ y ∈ rows ++ [v], x.uniq = y.uniq → x.id = y.id := by
  intro x hx y hy e
  rcases List.mem_append.mp hx with hx | hx
  · rcases List.mem_append.mp hy with hy | hy
    · exact h x hx y hy e
    · rw [List.mem_singleton.mp hy] at e
      exact absurd e (hv x hx)
  · rw [List.mem_singleton.mp hx] at e ⊢
    rcases List.mem_append.mp hy with hy | hy
    · exact absurd e.symm (hv y hy)
    · rw [List.mem_singleton.mp hy]

/-! ## what an open transaction has -/

section
variable (entries : List EntryRow) (next : Int)

/-- the transaction could commit: its rows have different ids and unique keys, also from those of
the committed rows it has not deleted -/
structure CacheTx.Ok (t : CacheTx) : Prop where
  ids : (t.rows.map (·.id)).Nodup
  keys : ∀ x ∈ t.rows, ∀ y ∈ t.rows, x.uniq = y.uniq → x.id = y.id
  kept : ∀ x ∈ t.rows, x.id ∉ t.gone
  below : ∀ x ∈ t.rows, x.id < next
  goneBelow : ∀ i ∈ t.gone, i < next
  version : ∀ x ∈ t.rows, ∀ r ∈ entries, r.id = x.id → r.uniq = x.uniq
  alone : ∀ x ∈ t.rows, ∀ r ∈ entries, r.uniq = x.uniq → r.id = x.id ∨ r.id ∈ t.gone

/-- `u` does not touch what `t` has written -/
structure CacheTx.Apart (t u : CacheTx) : Prop where
  ids : ∀ x ∈ t.rows, ∀ y ∈ u.rows, x.id ≠ y.id
  keys : ∀ x ∈ t.rows, ∀ y ∈ u.rows, x.uniq ≠ y.uniq
  gone : ∀ x ∈ t.rows, ∀ r ∈ entries, r.uniq = x.uniq → r.id ∉ u.gone

end

structure CacheDb.Ok (db : CacheDb) : Prop where
  ids : (db.entries.map (·.id)).Nodup
  below : ∀ r ∈ db.entries, r.id < db.nextEntryId
  keys : ∀ x ∈ db.entries, ∀ y ∈ db.entries, x.uniq = y.uniq → x.id = y.id
  tx : ∀ s t, db.txs.get s = some t → t.Ok db.entries db.nextEntryId
  apart : ∀ s t s' t', s ≠ s' → db.txs.get s = some t → db.txs.get s' = some t' →
    t.Apart db.entries t'

theorem CacheDb.Ok.empty : CacheDb.empty.Ok where
  ids := .nil
  below := fun r hr => (by cases hr)
  keys := fun x hx => (by cases hx)
  tx := fun s t h => (by cases h)
  apart := fun s t s' t' _ h => (by cases h)

theorem CacheDb.Ok.eq_of_uniq {db : CacheDb} (h : db.Ok) {x y : EntryRow} (hx : x ∈ db.entries)
    (hy : y ∈ db.entries) (e : x.uniq = y.uniq) : x = y := eq_of_id h.ids hx hy (h.keys x hx y hy e)

/-! ## the view of a transaction -/

theorem CacheTx.Ok.mem_apply {entries : List EntryRow} {next : Int} {t : CacheTx}
    (h : t.Ok entries next) {y : EntryRow} :
    y ∈ t.apply entries ↔
      y ∈ t.rows ∨ (y ∈ entries ∧ y.id ∉ t.gone ∧ y.id ∉ t.rows.map (·.id)) := by
  unfold CacheTx.apply
  rw [mem_foldl_putEntry h.ids]
  simp only [List.mem_filter, Bool.not_eq_true', List.contains_eq_mem, decide_eq_false_iff_not,
    and_assoc]

theorem CacheDb.seen_eq {db : CacheDb} {s : Nat} {t : CacheTx} (ht : db.txs.get s = some t) :
    db.seen s = t.apply db.entries := by
  unfold CacheDb.seen
  rw [ht]

theorem CacheDb.now_eq {db : CacheDb} {s : Nat} {t : CacheTx} (ht : db.txs.get s = some t)
    (clock : Time) : db.now s clock = t.startedAt := by
  unfold CacheDb.now
  rw [ht]

theorem CacheTx.Ok.uniq_of_seen {entries : List EntryRow} {next : Int} {t : CacheTx}
    (h : t.Ok entries next) (hids : (entries.map (·.id)).Nodup) {x r : EntryRow}
    (hx : x ∈ t.apply entries) (hr : r ∈ entries) (e : r.id = x.id) : r.uniq = x.uniq := by
  rcases h.mem_apply.mp hx with hx | ⟨hx, -, -⟩
  · exact h.version x hx r hr e
  · rw [eq_of_id hids hr hx e]

theorem CacheTx.Ok.below_of_seen {entries : List EntryRow} {next : Int} {t : CacheTx}
    (h : t.Ok entries next) (hb : ∀ r ∈ entries, r.id < next) {x : EntryRow}
    (hx : x ∈ t.apply entries) : x.id < next := by
  rcases h.mem_apply.mp hx with hx | ⟨hx, -, -⟩
  · exact h.below x hx
  · exact hb x hx

/-! ## locks -/

/-- nobody else holds a committed row with `p` -/
theorem CacheDb.not_held {db : CacheDb} {s : Nat} {p : EntryRow → Bool}
    (hb : db.busy s (db.heldBy p) = false) {s' : Nat} {t' : CacheTx} (hs : s' ≠ s)
    (ht : db.txs.get s' = some t') {r : EntryRow} (hr : r ∈ db.entries) (hp : p r = true) :
    r.id ∉ t'.gone ∧ r.id ∉ t'.locked ∧ ∀ x ∈ t'.rows, x.id ≠ r.id := by
  have h := Slots.not_of_others hb hs ht
  unfold CacheDb.heldBy at h
  rw [List.any_eq_false] at h
  have h1 := h r hr
  rw [hp, Bool.true_and] at h1
  simpa [CacheTx.holdsRow, and_assoc] using h1

theorem CacheDb.not_keyHeld {db : CacheDb} {ns : String} {g : Int} {h : String} {t' : CacheTx}
    (ht : db.keyHeldBy ns g h t' = false) :
    (∀ x ∈ t'.rows, x.uniq ≠ (ns, g, h)) ∧
      ∀ r ∈ db.entries, r.uniq = (ns, g, h) → r.id ∉ t'.gone := by
  unfold CacheDb.keyHeldBy at ht
  rw [Bool.or_eq_false_iff, List.any_eq_false, List.any_eq_false] at ht
  refine ⟨fun x hx e => ht.1 x hx (EntryRow.isAt_iff.mpr e), fun r hr e => ?_⟩
  have h1 := ht.2 r hr
  rw [EntryRow.isAt_iff.mpr e, Bool.true_and] at h1
  simpa using h1

theorem CacheDb.not_blocked {db : CacheDb} {held : CacheTx → Bool} (hb : db.blocked held = false)
    {s : Nat} {t : CacheTx} (ht : db.txs.get s = some t) : held t = false := by
  unfold CacheDb.blocked at hb
  rw [List.any_eq_false] at hb
  simpa using hb (s, t) (Slots.mem_of_get ht)

/-! ## what statements keep -/

section
variable {db : CacheDb}

theorem CacheDb.Ok.congr (h : db.Ok) {db' : CacheDb} (he : db'.entries = db.entries)
    (hn : db'.nextEntryId = db.nextEntryId) (ht : db'.txs = db.txs) : db'.Ok := by
  obtain ⟨h1, h2, h3, h4, h5⟩ := h
  rw [← he] at h1 h2 h3 h4 h5
  rw [← hn] at h2 h4
  rw [← ht] at h4 h5
  exact ⟨h1, h2, h3, h4, h5⟩

theorem CacheDb.Ok.shrink (h : db.Ok) {db' : CacheDb}
    (he : ∀ r' ∈ db'.entries, ∃ r ∈ db.entries, r.id = r'.id ∧ r.uniq = r'.uniq)
    (hids : (db'.entries.map (·.id)).Nodup) (hn : db.nextEntryId ≤ db'.nextEntryId)
    (ht : db'.txs = db.txs) : db'.Ok where
  ids := hids
  below := by
    intro r' hr'
    obtain ⟨r, hr, hid, -⟩ := he r' hr'
    have := h.below r hr
    omega
  keys := by
    intro x hx y hy e
    obtain ⟨x', hx', hxi, hxu⟩ := he x hx
    obtain ⟨y', hy', hyi, hyu⟩ := he y hy
    rw [← hxi, ← hyi]
    exact h.keys x' hx' y' hy' (by rw [hxu, hyu, e])
  tx := by
    intro s t hs
    rw [ht] at hs
    have o := h.tx s t hs
    refine ⟨o.ids, o.keys, o.kept, fun x hx => ?_, fun i hi => ?_, fun x hx r' hr' e => ?_,
      fun x hx r' hr' e => ?_⟩
    · have := o.below x hx
      omega
    · have := o.goneBelow i hi
      omega
    · obtain ⟨r, hr, hid, hu⟩ := he r' hr'
      rw [← hu]
      exact o.version x hx r hr (hid.trans e)
    · obtain ⟨r, hr, hid, hu⟩ := he r' hr'
      rw [← hid]
      exact o.alone x hx r hr (hu.trans e)
  apart := by
    intro s t s' t' hne hs hs'
    rw [ht] at hs hs'
    have a := h.apart s t s' t' hne hs hs'
    refine ⟨a.ids, a.keys, fun x hx r' hr' e => ?_⟩
    obtain ⟨r, hr, hid, hu⟩ := he r' hr'
    rw [← hid]
    exact a.gone x hx r hr (hu.trans e)

/-- committed rows are written over -/
theorem CacheDb.Ok.rewritten (h : db.Ok) {db' : CacheDb} {p : EntryRow → Bool}
    {f : EntryRow → EntryRow} (he : db'.entries = db.entries.map fun r => if p r then f r else r)
    (hf : ∀ r, (f r).id = r.id ∧ (f r).uniq = r.uniq)
    (hn : db.nextEntryId ≤ db'.nextEntryId) (ht : db'.txs = db.txs) : db'.Ok := by
  have hsame : ∀ r, (if p r = true then f r else r).id = r.id ∧
      (if p r = true then f r else r).uniq = r.uniq := by
    intro r
    split
    · exact hf r
    · exact ⟨rfl, rfl⟩
  refine h.shrink (fun r' hr' => ?_) ?_ hn ht
  · rw [he] at hr'
    obtain ⟨r, hr, rfl⟩ := List.mem_map.mp hr'
    exact ⟨r, hr, (hsame r).1.symm, (hsame r).2.symm⟩
  · have e : ((·.id) ∘ fun r : EntryRow => if p r = true then f r else r) = (·.id) := by
      funext r
      exact (hsame r).1
    rw [he, List.map_map, e]
    exact h.ids

/-- the transaction of a session changes -/
theorem CacheDb.Ok.setTx (h : db.Ok) {s : Nat} {t : CacheTx} {next : Int}
    (hn : db.nextEntryId ≤ next) (ht : t.Ok db.entries next)
    (ha : ∀ s' t', s' ≠ s → db.txs.get s' = some t' →
      t.Apart db.entries t' ∧ t'.Apart db.entries t) :
    { db with txs := db.txs.set s t, nextEntryId := next : CacheDb }.Ok where
  ids := h.ids
  below := fun r hr => Int.lt_of_lt_of_le (h.below r hr) hn
  keys := h.keys
  tx := by
    intro s' t' hs
    by_cases e : s' = s
    · subst e
      rw [Slots.get_set_self] at hs
      obtain rfl := Option.some.inj hs
      exact ht
    · rw [Slots.get_set_ne _ _ e] at hs
      have o := h.tx s' t' hs
      exact ⟨o.ids, o.keys, o.kept, fun x hx => Int.lt_of_lt_of_le (o.below x hx) hn,
        fun i hi => Int.lt_of_lt_of_le (o.goneBelow i hi) hn, o.version, o.alone⟩
  apart := by
    intro s₁ t₁ s₂ t₂ hne h1 h2
    by_cases e1 : s₁ = s
    · subst e1
      rw [Slots.get_set_self] at h1
      rw [Slots.get_set_ne _ _ (Ne.symm hne)] at h2
      obtain rfl := Option.some.inj h1
      exact (ha s₂ t₂ (Ne.symm hne) h2).1
    · rw [Slots.get_set_ne _ _ e1] at h1
      by_cases e2 : s₂ = s
      · subst e2
        rw [Slots.get_set_self] at h2
        obtain rfl := Option.some.inj h2
        exact (ha s₁ t₁ e1 h1).2
      · rw [Slots.get_set_ne _ _ e2] at h2
        exact h.apart s₁ t₁ s₂ t₂ hne h1 h2

theorem CacheDb.Ok.setLocks (h : db.Ok) {s : Nat} {t t' : CacheTx} (ht : db.txs.get s = some t)
    (hr : t'.rows = t.rows) (hg : t'.gone = t.gone) : (db.setTx s t').Ok := by
  have o := h.tx s t ht
  refine h.setTx (Int.le_refl _) ?_ fun s' u hne hu => ?_
  · obtain ⟨h1, h2, h3, h4, h5, h6, h7⟩ := o
    rw [← hr] at h1 h2 h3 h4 h6 h7
    rw [← hg] at h3 h5 h7
    exact ⟨h1, h2, h3, h4, h5, h6, h7⟩
  · obtain ⟨a1, a2, a3⟩ := h.apart s t s' u (Ne.symm hne) ht hu
    obtain ⟨b1, b2, b3⟩ := h.apart s' u s t hne hu ht
    rw [← hr] at a1 a2 a3 b1 b2
    rw [← hg] at b3
    exact ⟨⟨a1, a2, a3⟩, ⟨b1, b2, b3⟩⟩

theorem CacheDb.Ok.begin (h : db.Ok) (s : Nat) (clock : Time) : (db.begin s clock).Ok := by
  refine h.setTx (Int.le_refl _) ⟨.nil, ?_, ?_, ?_, ?_, ?_, ?_⟩ fun s' t' _ _ =>
    ⟨⟨?_, ?_, ?_⟩, ?_, ?_, ?_⟩
  all_goals intros
  all_goals simp_all

theorem CacheDb.Ok.rollback (h : db.Ok) (s : Nat) : (db.rollback s).Ok where
  ids := h.ids
  below := h.below
  keys := h.keys
  tx := by
    intro s' t hs
    by_cases e : s' = s
    · subst e
      simp [CacheDb.rollback] at hs
    · exact h.tx s' t (by rwa [CacheDb.rollback, Slots.get_erase_ne _ e] at hs)
  apart := by
    intro s₁ t₁ s₂ t₂ hne h1 h2
    by_cases e1 : s₁ = s
    · subst e1
      simp [CacheDb.rollback] at h1
    · by_cases e2 : s₂ = s
      · subst e2
        simp [CacheDb.rollback] at h2
      · rw [CacheDb.rollback, Slots.get_erase_ne _ e1] at h1
        rw [CacheDb.rollback, Slots.get_erase_ne _ e2] at h2
        exact h.apart s₁ t₁ s₂ t₂ hne h1 h2

theorem CacheDb.Ok.commit (h : db.Ok) (s : Nat) : (db.commit s).Ok := by
  unfold CacheDb.commit
  cases ht : db.txs.get s with
  | none => exact h
  | some t =>
    have o := h.tx s t ht
    have hmem : ∀ r ∈ t.apply db.entries, r ∈ t.rows ∨ r ∈ db.entries := fun r hr =>
      (o.mem_apply.mp hr).imp id (·.1)
    have hb := h.rollback s
    refine ⟨ids_foldl_putEntry (ids_filter h.ids _), fun r hr => o.below_of_seen h.below hr, ?_,
      fun s' u hu => ?_, fun s₁ t₁ s₂ t₂ hne h1 h2 => ?_⟩
    · intro x hx y hy e
      rcases o.mem_apply.mp hx with hx | ⟨hx, hxg, hxr⟩
      · rcases o.mem_apply.mp hy with hy | ⟨hy, hyg, hyr⟩
        · exact o.keys x hx y hy e
        · rcases o.alone x hx y hy e.symm with h1 | h1
          · exact h1.symm
          · exact absurd h1 hyg
      · rcases o.mem_apply.mp hy with hy | ⟨hy, -, -⟩
        · rcases o.alone y hy x hx e with h1 | h1
          · exact h1
          · exact absurd h1 hxg
        · exact h.keys x hx y hy e
    · have hs : s' ≠ s := by
        rintro rfl
        simp at hu
      have hu' : db.txs.get s' = some u := by rwa [Slots.get_erase_ne _ hs] at hu
      have ou := h.tx s' u hu'
      have a := h.apart s' u s t hs hu' ht
      refine ⟨ou.ids, ou.keys, ou.kept, ou.below, ou.goneBelow, fun x hx r hr e => ?_,
        fun x hx r hr e => ?_⟩
      · rcases hmem r hr with hr | hr
        · exact absurd e.symm (a.ids x hx r hr)
        · exact ou.version x hx r hr e
      · rcases hmem r hr with hr | hr
        · exact absurd e.symm (a.keys x hx r hr)
        · exact ou.alone x hx r hr e
    · have a12 := hb.apart s₁ t₁ s₂ t₂ hne h1 h2
      have hs : s₁ ≠ s := by
        rintro rfl
        simp at h1
      have h1' : db.txs.get s₁ = some t₁ := by rwa [Slots.get_erase_ne _ hs] at h1
      have a := h.apart s₁ t₁ s t hs h1' ht
      refine ⟨a12.ids, a12.keys, fun x hx r hr e => ?_⟩
      rcases hmem r hr with hr | hr
      · exact absurd e.symm (a.keys x hx r hr)
      · exact a12.gone x hx r hr e

/-- `delete_expired_key`: what it deletes nobody else holds -/
theorem CacheDb.Ok.deleteExpiredKey (h : db.Ok) {s : Nat} {t : CacheTx}
    (ht : db.txs.get s = some t) {ns : String} {g : Int} {keyHash key : String}
    (hb : db.busy s (db.heldBy fun r => r.isKey ns g keyHash key && r.expired t.startedAt)
      = false) : (db.deleteExpiredKey s t ns g keyHash key).Ok := by
  have o := h.tx s t ht
  have hseen : db.seen s = t.apply db.entries := CacheDb.seen_eq ht
  unfold CacheDb.deleteExpiredKey
  simp only [hseen]
  generalize hd : ((t.apply db.entries).filter fun r =>
    r.isKey ns g keyHash key && r.expired t.startedAt).map (·.id) = dead
  have hdead : ∀ i ∈ dead, ∃ r ∈ t.apply db.entries, r.id = i ∧
      (r.isKey ns g keyHash key && r.expired t.startedAt) = true := by
    intro i hi
    rw [← hd] at hi
    obtain ⟨r, hr, rfl⟩ := List.mem_map.mp hi
    exact ⟨r, List.mem_of_mem_filter hr, rfl, (List.mem_filter.mp hr).2⟩
  have hrows : ∀ x ∈ t.rows.filter (fun r => !dead.contains r.id), x ∈ t.rows ∧ x.id ∉ dead := by
    intro x hx
    obtain ⟨h1, h2⟩ := List.mem_filter.mp hx
    exact ⟨h1, by simpa using h2⟩
  refine h.setTx (Int.le_refl _) ⟨ids_filter o.ids _, ?_, ?_, ?_, ?_, ?_, ?_⟩
    fun s' u hne hu => ⟨⟨?_, ?_, ?_⟩, ?_, ?_, ?_⟩
  · exact fun x hx y hy => o.keys x (hrows x hx).1 y (hrows y hy).1
  · intro x hx hg
    rcases List.mem_append.mp hg with hg | hg
    · exact o.kept x (hrows x hx).1 hg
    · exact (hrows x hx).2 hg
  · exact fun x hx => o.below x (hrows x hx).1
  · intro i hi
    rcases List.mem_append.mp hi with hi | hi
    · exact o.goneBelow i hi
    · obtain ⟨r, hr, rfl, -⟩ := hdead i hi
      exact o.below_of_seen h.below hr
  · exact fun x hx => o.version x (hrows x hx).1
  · exact fun x hx r hr e => (o.alone x (hrows x hx).1 r hr e).imp id
      (List.mem_append_left _)
  · exact fun x hx => (h.apart s t s' u (Ne.symm hne) ht hu).ids x (hrows x hx).1
  · exact fun x hx => (h.apart s t s' u (Ne.symm hne) ht hu).keys x (hrows x hx).1
  · exact fun x hx => (h.apart s t s' u (Ne.symm hne) ht hu).gone x (hrows x hx).1
  · exact fun x hx y hy => (h.apart s' u s t hne hu ht).ids x hx y (hrows y hy).1
  · exact fun x hx y hy => (h.apart s' u s t hne hu ht).keys x hx y (hrows y hy).1
  · intro x hx r hr e hg
    rcases List.mem_append.mp hg with hg | hg
    · exact (h.apart s' u s t hne hu ht).gone x hx r hr e hg
    · obtain ⟨r', hr', hid, hp⟩ := hdead _ hg
      rcases o.mem_apply.mp hr' with hr' | ⟨hr', -, -⟩
      · -- its own version of the row has the same unique key as a row of the other
        have e' := o.version r' hr' r hr hid.symm
        exact (h.apart s' u s t hne hu ht).keys x hx r' hr' (e.symm.trans e')
      · rw [eq_of_id h.ids hr' hr hid] at hp
        obtain ⟨h1, -, h3⟩ := CacheDb.not_held hb hne hu hr hp
        rcases (h.tx s' u hu).alone x hx r hr e with h4 | h4
        · exact h3 x hx h4.symm
        · exact h1 h4

/-- an INSERT that has found no conflict -/
theorem CacheDb.Ok.insertRow (h : db.Ok) {s : Nat} {t : CacheTx} (ht : db.txs.get s = some t)
    {ns : String} {g : Int} {keyHash : String}
    (hb : db.busy s (db.keyHeldBy ns g keyHash) = false)
    (hc : db.conflict s ns g keyHash = false) (key : String) (value : Bytes) (ttl : Option Int) :
    (db.insertRow s t ns g keyHash key value ttl).Ok := by
  have o := h.tx s t ht
  have hfree : ∀ x ∈ t.apply db.entries, x.uniq ≠ (ns, g, keyHash) := by
    unfold CacheDb.conflict at hc
    rw [CacheDb.seen_eq ht, List.any_eq_false] at hc
    exact fun x hx e => hc x hx (EntryRow.isAt_iff.mpr e)
  have hrows : ∀ x ∈ t.rows, x.uniq ≠ (ns, g, keyHash) := fun x hx =>
    hfree x (o.mem_apply.mpr (.inl hx))
  have hother : ∀ s' u, s' ≠ s → db.txs.get s' = some u →
      (∀ x ∈ u.rows, x.uniq ≠ (ns, g, keyHash)) ∧
        ∀ r ∈ db.entries, r.uniq = (ns, g, keyHash) → r.id ∉ u.gone := fun s' u hne hu =>
    CacheDb.not_keyHeld (Slots.not_of_others hb hne hu)
  have hmem : ∀ x ∈ t.rows ++ [newEntry db.nextEntryId ns g keyHash key value ttl t.startedAt],
      x ∈ t.rows ∨ (x.id = db.nextEntryId ∧ x.uniq = (ns, g, keyHash)) := by
    intro x hx
    rcases List.mem_append.mp hx with hx | hx
    · exact .inl hx
    · rw [List.mem_singleton.mp hx]
      exact .inr ⟨rfl, rfl⟩
  refine h.setTx (Int.le_of_lt (Int.lt_succ _)) ⟨?_, ?_, ?_, ?_, ?_, ?_, ?_⟩
    fun s' u hne hu => ⟨⟨?_, ?_, ?_⟩, ?_, ?_, ?_⟩
  · exact ids_append o.ids o.below
  · exact keys_append o.keys hrows
  · intro x hx hg
    rcases hmem x hx with hx | ⟨hxi, -⟩
    · exact o.kept x hx hg
    · have := o.goneBelow _ hg
      omega
  · intro x hx
    rcases hmem x hx with hx | ⟨hxi, -⟩
    · have := o.below x hx
      show x.id < db.nextEntryId + 1
      omega
    · show x.id < db.nextEntryId + 1
      omega
  · intro i hi
    have := o.goneBelow i hi
    show i < db.nextEntryId + 1
    omega
  · intro x hx r hr e
    rcases hmem x hx with hx | ⟨hxi, -⟩
    · exact o.version x hx r hr e
    · have := h.below r hr
      omega
  · intro x hx r hr e
    rcases hmem x hx with hx | ⟨-, hxu⟩
    · exact o.alone x hx r hr e
    · -- a committed row with this key is deleted, or the session would have seen the conflict
      by_cases hg : r.id ∈ t.gone
      · exact .inr hg
      · exfalso
        by_cases hi : r.id ∈ t.rows.map (·.id)
        · obtain ⟨y, hy, e'⟩ := List.mem_map.mp hi
          exact hrows y hy ((o.version y hy r hr e'.symm).symm.trans (e.trans hxu))
        · exact hfree r (o.mem_apply.mpr (.inr ⟨hr, hg, hi⟩)) (e.trans hxu)
  · intro x hx y hy
    rcases hmem x hx with hx | ⟨hxi, -⟩
    · exact (h.apart s t s' u (Ne.symm hne) ht hu).ids x hx y hy
    · have := (h.tx s' u hu).below y hy
      omega
  · intro x hx y hy e
    rcases hmem x hx with hx | ⟨-, hxu⟩
    · exact (h.apart s t s' u (Ne.symm hne) ht hu).keys x hx y hy e
    · exact (hother s' u hne hu).1 y hy (e.symm.trans hxu)
  · intro x hx r hr e
    rcases hmem x hx with hx | ⟨-, hxu⟩
    · exact (h.apart s t s' u (Ne.symm hne) ht hu).gone x hx r hr e
    · exact (hother s' u hne hu).2 r hr (e.trans hxu)
  · intro x hx y hy
    rcases hmem y hy with hy | ⟨hyi, -⟩
    · exact (h.apart s' u s t hne hu ht).ids x hx y hy
    · have := (h.tx s' u hu).below x hx
      omega
  · intro x hx y hy e
    rcases hmem y hy with hy | ⟨-, hyu⟩
    · exact (h.apart s' u s t hne hu ht).keys x hx y hy e
    · exact (hother s' u hne hu).1 x hx (e.trans hyu)
  · exact (h.apart s' u s t hne hu ht).gone

/-- the transaction has nothing to do with the row -/
structure EntryRow.Free (entries : List EntryRow) (r : EntryRow) (u : CacheTx) : Prop where
  ids : ∀ y ∈ u.rows, r.id ≠ y.id
  keys : ∀ y ∈ u.rows, r.uniq ≠ y.uniq
  gone : ∀ r₀ ∈ entries, r₀.uniq = r.uniq → r₀.id ∉ u.gone

theorem CacheDb.Ok.seen_free (h : db.Ok) {s : Nat} {t : CacheTx} (ht : db.txs.get s = some t)
    {r : EntryRow} (hr : r ∈ t.apply db.entries)
    (hb : db.busy s (db.heldBy (·.id == r.id)) = false) {s' : Nat} {u : CacheTx} (hne : s' ≠ s)
    (hu : db.txs.get s' = some u) : r.Free db.entries u := by
  rcases (h.tx s t ht).mem_apply.mp hr with hc | ⟨hc, -, -⟩
  · have a := h.apart s t s' u (Ne.symm hne) ht hu
    exact ⟨a.ids r hc, a.keys r hc, a.gone r hc⟩
  · obtain ⟨hg, -, hrows⟩ := CacheDb.not_held hb hne hu hc (by simp)
    refine ⟨fun y hy e => hrows y hy e.symm, fun y hy e => ?_, fun r₀ hr₀ e => ?_⟩
    · rcases (h.tx s' u hu).alone y hy r hc e with h1 | h1
      · exact hrows y hy h1.symm
      · exact hg h1
    · rw [h.keys r₀ hr₀ r hc e]
      exact hg

/-- a new version of a row the session sees and nobody else holds -/
theorem CacheDb.Ok.putRow (h : db.Ok) {s : Nat} {t : CacheTx} (ht : db.txs.get s = some t)
    {r r' : EntryRow} (hr : r ∈ t.apply db.entries) (hid : r'.id = r.id) (hu : r'.uniq = r.uniq)
    (hb : db.busy s (db.heldBy (·.id == r.id)) = false) :
    (db.setTx s { t with rows := putEntry t.rows r' }).Ok := by
  have o := h.tx s t ht
  have hmem : ∀ x ∈ putEntry t.rows r', x = r' ∨ (x ∈ t.rows ∧ x.id ≠ r.id) := by
    intro x hx
    rw [← hid]
    exact mem_putEntry.mp hx
  have hcase := o.mem_apply.mp hr
  have hapart : ∀ s' u, s' ≠ s → db.txs.get s' = some u → r.Free db.entries u :=
    fun s' u hne hu => h.seen_free ht hr hb hne hu
  refine h.setTx (Int.le_refl _) ⟨ids_putEntry o.ids, ?_, ?_, ?_, o.goneBelow, ?_, ?_⟩
    fun s' u hne hu' => ⟨⟨?_, ?_, ?_⟩, ?_, ?_, (h.apart s' u s t hne hu' ht).gone⟩
  · have hne : ∀ y ∈ t.rows, y.id ≠ r.id → r.uniq ≠ y.uniq := by
      intro y hy hne e
      rcases hcase with hc | ⟨hc, hcg, -⟩
      · exact hne (o.keys y hy r hc e.symm)
      · rcases o.alone y hy r hc e with h1 | h1
        · exact hne h1.symm
        · exact hcg h1
    intro x hx y hy e
    rcases hmem x hx with rfl | ⟨hx', hxi⟩
    · rcases hmem y hy with rfl | ⟨hy', hyi⟩
      · rfl
      · exact absurd (hu.symm.trans e) (hne y hy' hyi)
    · rcases hmem y hy with rfl | ⟨hy', -⟩
      · exact absurd (hu.symm.trans e.symm) (hne x hx' hxi)
      · exact o.keys x hx' y hy' e
  · intro x hx
    rcases hmem x hx with rfl | ⟨hx, -⟩
    · rw [hid]
      rcases hcase with hc | ⟨-, hcg, -⟩
      · exact o.kept r hc
      · exact hcg
    · exact o.kept x hx
  · intro x hx
    rcases hmem x hx with rfl | ⟨hx, -⟩
    · rw [hid]
      exact o.below_of_seen h.below hr
    · exact o.below x hx
  · intro x hx r₀ hr₀ e
    rcases hmem x hx with rfl | ⟨hx, -⟩
    · rw [hu]
      exact o.uniq_of_seen h.ids hr hr₀ (e.trans hid)
    · exact o.version x hx r₀ hr₀ e
  · intro x hx r₀ hr₀ e
    rcases hmem x hx with rfl | ⟨hx, -⟩
    · rw [hid]
      rcases hcase with hc | ⟨hc, -, -⟩
      · exact o.alone r hc r₀ hr₀ (e.trans hu)
      · exact .inl (h.keys r₀ hr₀ r hc (e.trans hu))
    · exact o.alone x hx r₀ hr₀ e
  · intro x hx y hy
    rcases hmem x hx with rfl | ⟨hx, -⟩
    · rw [hid]
      exact (hapart s' u hne hu').ids y hy
    · exact (h.apart s t s' u (Ne.symm hne) ht hu').ids x hx y hy
  · intro x hx y hy
    rcases hmem x hx with rfl | ⟨hx, -⟩
    · rw [hu]
      exact (hapart s' u hne hu').keys y hy
    · exact (h.apart s t s' u (Ne.symm hne) ht hu').keys x hx y hy
  · intro x hx r₀ hr₀ e
    rcases hmem x hx with rfl | ⟨hx, -⟩
    · exact (hapart s' u hne hu').gone r₀ hr₀ (e.trans hu)
    · exact (h.apart s t s' u (Ne.symm hne) ht hu').gone x hx r₀ hr₀ e
  · intro x hx y hy e
    rcases hmem y hy with rfl | ⟨hy, -⟩
    · exact (hapart s' u hne hu').ids x hx (hid.symm.trans e.symm)
    · exact (h.apart s' u s t hne hu' ht).ids x hx y hy e
  · intro x hx y hy e
    rcases hmem y hy with rfl | ⟨hy, -⟩
    · exact (hapart s' u hne hu').keys x hx (hu.symm.trans e.symm)
    · exact (h.apart s' u s t hne hu' ht).keys x hx y hy e

theorem CacheDb.Ok.updateValue (h : db.Ok) {s : Nat} {t : CacheTx} (ht : db.txs.get s = some t)
    {id : Int} (hb : db.busy s (db.heldBy (·.id == id)) = false) (value : Bytes)
    (ttl : Option Int) (preserve : Bool) : (db.updateValue s t id value ttl preserve).Ok := by
  unfold CacheDb.updateValue
  cases hf : (db.seen s).find? (·.id == id) with
  | none => exact h
  | some r =>
    rw [CacheDb.seen_eq ht] at hf
    have hid : r.id = id := by simpa using List.find?_some hf
    rw [← hid] at hb
    exact h.putRow ht (List.mem_of_find?_eq_some hf) rfl rfl hb

/-- the statement of `set` -/
theorem CacheDb.Ok.upsertEntry (h : db.Ok) {ns : String} {g : Int} {keyHash : String}
    (hb : ∀ s t, db.txs.get s = some t → db.keyHeldBy ns g keyHash t = false) (key : String)
    (value : Bytes) (ttl : Option Int) (now : Time) :
    (db.upsertEntry ns g keyHash key value ttl now).Ok := by
  by_cases hc : db.entries.any (·.isAt ns g keyHash) = true
  · have he : (db.upsertEntry ns g keyHash key value ttl now).entries = db.entries.map fun r =>
        if r.isAt ns g keyHash then r.overwrite key value ttl now else r := by
      rw [CacheDb.upsertEntry, if_pos hc]
    exact h.rewritten he (fun _ => ⟨rfl, rfl⟩) (Int.le_of_lt (Int.lt_succ _)) rfl
  · have hfree : ∀ r ∈ db.entries, r.uniq ≠ (ns, g, keyHash) := by
      intro r hr e
      exact hc (List.any_eq_true.mpr ⟨r, hr, EntryRow.isAt_iff.mpr e⟩)
    have hkey : ∀ s t, db.txs.get s = some t → ∀ x ∈ t.rows, x.uniq ≠ (ns, g, keyHash) :=
      fun s t ht => (CacheDb.not_keyHeld (hb s t ht)).1
    have he : (db.upsertEntry ns g keyHash key value ttl now).entries
        = db.entries ++ [newEntry db.nextEntryId ns g keyHash key value ttl now] := by
      rw [CacheDb.upsertEntry, if_neg hc]
    have hmem : ∀ r ∈ (db.upsertEntry ns g keyHash key value ttl now).entries,
        r ∈ db.entries ∨ (r.id = db.nextEntryId ∧ r.uniq = (ns, g, keyHash)) := by
      intro r hr
      rw [he] at hr
      rcases List.mem_append.mp hr with hr | hr
      · exact .inl hr
      · rw [List.mem_singleton.mp hr]
        exact .inr ⟨rfl, rfl⟩
    refine ⟨?_, fun r hr => ?_, fun x hx y hy e => ?_, fun s t ht => ?_,
      fun s t s' t' hne ht ht' => ?_⟩
    · rw [he]
      exact ids_append h.ids h.below
    · show r.id < db.nextEntryId + 1
      rcases hmem r hr with hr | ⟨hr, -⟩
      · have := h.below r hr
        omega
      · omega
    · rw [he] at hx hy
      refine keys_append h.keys ?_ x hx y hy e
      exact hfree
    · have o := h.tx s t ht
      refine ⟨o.ids, o.keys, o.kept, fun x hx => ?_, fun i hi => ?_, fun x hx r hr e => ?_,
        fun x hx r hr e => ?_⟩
      · have := o.below x hx
        show x.id < db.nextEntryId + 1
        omega
      · have := o.goneBelow i hi
        show i < db.nextEntryId + 1
        omega
      · rcases hmem r hr with hr | ⟨hr, -⟩
        · exact o.version x hx r hr e
        · have := o.below x hx
          omega
      · rcases hmem r hr with hr | ⟨-, hru⟩
        · exact o.alone x hx r hr e
        · exact absurd (e.symm.trans hru) (hkey s t ht x hx)
    · have a := h.apart s t s' t' hne ht ht'
      refine ⟨a.ids, a.keys, fun x hx r hr e => ?_⟩
      rcases hmem r hr with hr | ⟨-, hru⟩
      · exact a.gone x hx r hr e
      · exact absurd (e.symm.trans hru) (hkey s t ht x hx)

theorem CacheDb.Ok.deleted (h : db.Ok) {db' : CacheDb} (p : EntryRow → Bool)
    (he : db'.entries = db.entries.filter p) (hn : db'.nextEntryId = db.nextEntryId)
    (ht : db'.txs = db.txs) : db'.Ok := by
  refine h.shrink (fun r hr => ?_) (he ▸ ids_filter h.ids p) (Int.le_of_eq hn.symm) ht
  rw [he] at hr
  exact ⟨r, List.mem_of_mem_filter hr, rfl, rfl⟩

theorem CacheDb.Ok.skipId (h : db.Ok) : db.skipId.Ok :=
  h.shrink (fun r hr => ⟨r, hr, rfl, rfl⟩) h.ids (Int.le_of_lt (Int.lt_succ _)) rfl

theorem CacheDb.Ok.touch (h : db.Ok) (id : Int) (now : Time) : (db.touch id now).Ok :=
  h.rewritten (p := (·.id == id)) rfl (fun _ => ⟨rfl, rfl⟩) (Int.le_refl _) rfl

end

/-! ## every statement, every run -/

theorem CacheDb.inside_some {α : Type} {db db' : CacheDb} {s : Nat}
    {f : CacheTx → Option (α × CacheDb)} {a : α} (h : db.inside s f = some (a, db')) :
    ∃ t, db.txs.get s = some t ∧ f t = some (a, db') := by
  unfold CacheDb.inside at h
  cases ht : db.txs.get s with
  | none =>
    rw [ht] at h
    cases h
  | some t =>
    rw [ht] at h
    exact ⟨t, rfl, h⟩

theorem of_guard {α : Type} {b : Bool} {x : Option α} {a : α}
    (h : (if b then none else x) = some a) : b = false ∧ x = some a := by
  cases b with
  | true => cases h
  | false => exact ⟨rfl, h⟩

/-- a statement that computes an expiry fails, or it does what it does -/
theorem withExpiry_some {α : Type} {now : Time} {ttl : Option Int} {failed db' : CacheDb}
    {x : Option (Except SqlError α × CacheDb)} {r : Except SqlError α}
    (h : withExpiry now ttl failed x = some (r, db')) :
    (¬ TtlFits now ttl ∧ r = .error (.outOfRange "timestamp") ∧ db' = failed) ∨
      (TtlFits now ttl ∧ x = some (r, db')) := by
  unfold withExpiry at h
  split at h
  · rename_i hfits
    exact .inr ⟨hfits, h⟩
  · rename_i hfits
    cases h
    exact .inl ⟨hfits, rfl, rfl⟩

theorem withExpiry_fits {α : Type} {now : Time} {ttl : Option Int} (h : TtlFits now ttl)
    (failed : CacheDb) (x : Option (Except SqlError α × CacheDb)) :
    withExpiry now ttl failed x = x := if_pos h

theorem withExpiry_not {α : Type} {now : Time} {ttl : Option Int} (h : ¬ TtlFits now ttl)
    (failed : CacheDb) (x : Option (Except SqlError α × CacheDb)) :
    withExpiry now ttl failed x = some (.error (.outOfRange "timestamp"), failed) := if_neg h

section
variable {s : Nat} {c : CacheCtx} {db db' : CacheDb} {ns : String} {g : Int} {keyHash key : String}
variable {v : Bytes} {ttl : Option Int}

theorem exec_upsertEntry {r : Except SqlError Unit}
    (hx : CacheStmt.exec s c (.upsertEntry ns g keyHash key v ttl) db = some (r, db')) :
    (¬ TtlFits c.now ttl ∧ r = .error (.outOfRange "timestamp") ∧ db' = db.skipId) ∨
      (TtlFits c.now ttl ∧
        db.blocked (fun t => db.keyHeldBy ns g keyHash t ||
          db.heldBy (·.isAt ns g keyHash) t) = false ∧
        r = .ok () ∧ db' = db.upsertEntry ns g keyHash key v ttl c.now) := by
  rcases withExpiry_some hx with h | ⟨hfits, hx⟩
  · exact .inl h
  · obtain ⟨hb, hx⟩ := of_guard hx
    cases hx
    exact .inr ⟨hfits, hb, rfl, rfl⟩

/-- an INSERT of a transaction fails for its expiry, or meets a row, or adds its own -/
theorem exec_insertValue {r : Except SqlError Unit}
    (hx : CacheStmt.exec s c (.insertValue ns g keyHash key v ttl) db = some (r, db')) :
    ∃ t, db.txs.get s = some t ∧
      ((¬ TtlFits t.startedAt ttl ∧ r = .error (.outOfRange "timestamp") ∧ db' = db.skipId) ∨
        (TtlFits t.startedAt ttl ∧ db.busy s (db.keyHeldBy ns g keyHash) = false ∧
          ((db.conflict s ns g keyHash = true ∧ db' = db.skipId ∧
              r = .error (.uniqueViolation "cache_entries_namespace_generation_key_hash_key")) ∨
            (db.conflict s ns g keyHash = false ∧ r = .ok () ∧
              db' = db.insertRow s t ns g keyHash key v ttl)))) := by
  obtain ⟨t, ht, hx⟩ := CacheDb.inside_some hx
  refine ⟨t, ht, ?_⟩
  rcases withExpiry_some hx with h | ⟨hfits, hx⟩
  · exact .inl h
  · obtain ⟨hb, hx⟩ := of_guard hx
    refine .inr ⟨hfits, hb, ?_⟩
    unfold CacheDb.insertValue at hx
    cases hc : db.conflict s ns g keyHash with
    | true =>
      rw [hc] at hx
      cases hx
      exact .inl ⟨rfl, rfl, rfl⟩
    | false =>
      rw [hc] at hx
      cases hx
      exact .inr ⟨rfl, rfl, rfl⟩

theorem exec_insertIfAbsent {r : Except SqlError Nat}
    (hx : CacheStmt.exec s c (.insertIfAbsent ns g keyHash key v ttl) db = some (r, db')) :
    ∃ t, db.txs.get s = some t ∧
      ((¬ TtlFits t.startedAt ttl ∧ r = .error (.outOfRange "timestamp") ∧ db' = db.skipId) ∨
        (TtlFits t.startedAt ttl ∧ db.busy s (db.keyHeldBy ns g keyHash) = false ∧
          ((db.conflict s ns g keyHash = true ∧ r = .ok 0 ∧ db' = db.skipId) ∨
            (db.conflict s ns g keyHash = false ∧ r = .ok 1 ∧
              db' = db.insertRow s t ns g keyHash key v ttl)))) := by
  obtain ⟨t, ht, hx⟩ := CacheDb.inside_some hx
  refine ⟨t, ht, ?_⟩
  rcases withExpiry_some hx with h | ⟨hfits, hx⟩
  · exact .inl h
  · obtain ⟨hb, hx⟩ := of_guard hx
    refine .inr ⟨hfits, hb, ?_⟩
    unfold CacheDb.insertIfAbsent at hx
    cases hc : db.conflict s ns g keyHash with
    | true =>
      rw [hc] at hx
      cases hx
      exact .inl ⟨rfl, rfl, rfl⟩
    | false =>
      rw [hc] at hx
      cases hx
      exact .inr ⟨rfl, rfl, rfl⟩

theorem exec_updateValue {id : Int} {preserve : Bool} {r : Except SqlError Unit}
    (hx : CacheStmt.exec s c (.updateValue id v ttl preserve) db = some (r, db')) :
    ∃ t, db.txs.get s = some t ∧
      ((¬ TtlFits t.startedAt ttl ∧ r = .error (.outOfRange "timestamp") ∧ db' = db) ∨
        (TtlFits t.startedAt ttl ∧ db.busy s (db.heldBy (·.id == id)) = false ∧ r = .ok () ∧
          db' = db.updateValue s t id v ttl preserve)) := by
  obtain ⟨t, ht, hx⟩ := CacheDb.inside_some hx
  refine ⟨t, ht, ?_⟩
  rcases withExpiry_some hx with h | ⟨hfits, hx⟩
  · exact .inl h
  · obtain ⟨hb, hx⟩ := of_guard hx
    cases hx
    exact .inr ⟨hfits, hb, rfl, rfl⟩

end

theorem CacheStmt.exec_ok {s : Nat} {c : CacheCtx} {st : CacheStmt} {db db' : CacheDb} {r : st.Res}
    (h : db.Ok) (hx : CacheStmt.exec s c st db = some (r, db')) : db'.Ok := by
  cases st with
  | begin =>
    cases hx
    exact h.begin s c.now
  | commit =>
    cases hx
    exact h.commit s
  | rollback =>
    cases hx
    exact h.rollback s
  | ensureNamespace ns =>
    cases hx
    unfold CacheDb.ensureNamespace
    split
    · exact h
    · exact h.congr rfl rfl rfl
  | upsertEntry ns g kh key value ttl =>
    rcases exec_upsertEntry hx with ⟨-, -, rfl⟩ | ⟨-, hb, -, rfl⟩
    · exact h.skipId
    · refine h.upsertEntry (fun s' t ht => ?_) key value ttl c.now
      exact (Bool.or_eq_false_iff.mp (CacheDb.not_blocked hb ht)).1
  | lockKey ns g kh =>
    obtain ⟨-, hx⟩ := of_guard hx
    obtain ⟨t, ht, hx⟩ := CacheDb.inside_some hx
    cases hx
    exact h.setLocks ht rfl rfl
  | deleteExpiredKey ns g kh key =>
    obtain ⟨hb, hx⟩ := of_guard hx
    obtain ⟨t, ht, hx⟩ := CacheDb.inside_some hx
    rw [CacheDb.now_eq ht] at hb
    cases hx
    exact h.deleteExpiredKey ht hb
  | selectKeyForUpdate ns g kh key =>
    obtain ⟨-, hx⟩ := of_guard hx
    obtain ⟨t, ht, hx⟩ := CacheDb.inside_some hx
    unfold CacheDb.selectKeyForUpdate at hx
    split at hx
    · cases hx
      exact h
    · cases hx
      exact h.setLocks ht rfl rfl
  | insertValue ns g kh key value ttl =>
    obtain ⟨t, ht, ⟨-, -, rfl⟩ | ⟨-, hb, ⟨-, rfl, -⟩ | ⟨hc, -, rfl⟩⟩⟩ := exec_insertValue hx
    · exact h.skipId
    · exact h.skipId
    · exact h.insertRow ht hb hc key value ttl
  | insertIfAbsent ns g kh key value ttl =>
    obtain ⟨t, ht, ⟨-, -, rfl⟩ | ⟨-, hb, ⟨-, -, rfl⟩ | ⟨hc, -, rfl⟩⟩⟩ := exec_insertIfAbsent hx
    · exact h.skipId
    · exact h.skipId
    · exact h.insertRow ht hb hc key value ttl
  | updateValue id value ttl preserve =>
    obtain ⟨t, ht, ⟨-, -, rfl⟩ | ⟨-, hb, -, rfl⟩⟩ := exec_updateValue hx
    · exact h
    · exact h.updateValue ht hb value ttl preserve
  | touch id =>
    obtain ⟨-, hx⟩ := of_guard hx
    cases hx
    exact h.touch id c.now
  | deleteKey ns g kh key =>
    obtain ⟨-, hx⟩ := of_guard hx
    cases hx
    exact h.deleted _ rfl rfl rfl
  | bumpGeneration ns ids =>
    obtain ⟨-, hx⟩ := of_guard hx
    cases hx
    unfold CacheDb.bumpGeneration
    split
    · exact h
    · exact h.deleted _ rfl rfl rfl
  | deleteIds ids =>
    obtain ⟨-, hx⟩ := of_guard hx
    cases hx
    exact h.deleted _ rfl rfl rfl
  | incrementCounter counter amount =>
    cases hx
    exact h.congr rfl rfl rfl
  | idle => cases hx
  | selectGeneration _ | selectLive _ _ _ _ | doomed _ | victim _ _ | usage _ _ | byteSize _ _
  | selectCounters | viewRows _ | usageRows =>
    cases hx
    exact h

/-- **Every reachable table has unique ids and unique keys.** -/
theorem CacheReach.ok {σ : CacheSys} (hr : CacheReach σ) : σ.db.Ok := by
  refine Reach.invariant (fun db _ => db.Ok) CacheDb.Ok.empty ?_ hr
  intro db h s op c st r db' ih hx
  exact CacheStmt.exec_ok ih hx

theorem CacheProg.run_ok {α : Type} {s : Nat} {c : CacheCtx} {p : CacheProg α} {db db' : CacheDb}
    {r : PgAppResult α} (h : db.Ok) (hx : p.run (CacheStmt.exec s c) db = some (r, db')) :
    db'.Ok := by
  induction p generalizing db with
  | ret r' =>
    cases hx
    exact h
  | exec st k ih =>
    rw [Prog.run_exec] at hx
    obtain ⟨q, hq, hx⟩ := Option.bind_eq_some_iff.mp hx
    exact ih q.1 (CacheStmt.exec_ok h hq) hx

end PgApp
