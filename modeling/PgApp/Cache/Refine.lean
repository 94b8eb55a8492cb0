import PgApp.Cache.Alone
import PgApp.Cache.Abstract

/-!
# The tables simulate the map

`CacheDb.entryAt` reads an entry off the tables.  Between calls (`Quiet`) the tables and the map
agree on every entry that is there; each call keeps that and answers as the map does (`sim_step`),
and so does every sequence of calls.
-/

namespace PgApp
open Interleave CacheProg

section
variable (hash : String → String)

/-- the entry of a key, as the tables have it -/
def CacheDb.entryAt (db : CacheDb) (now : Time) (ns key : String) : Option Entry :=
  match db.generationOf ns with
  | none => none
  | some g => (db.liveRow ns g (hash key) key now).map fun r => ⟨r.valueBytes, r.expiresAt⟩

/-- the tables between calls whose keys are in `K` -/
structure CacheDb.Quiet (K : List String) (db : CacheDb) : Prop where
  ok : db.Ok
  txs : db.txs = []
  hashed : ∀ r ∈ db.entries, r.keyHash = hash r.cacheKey
  known : ∀ r ∈ db.entries, r.cacheKey ∈ K
  current : ∀ r ∈ db.entries, ∃ g, db.generationOf r.namespace_ = some g ∧ r.generation ≤ g

/-- tables and map agree at `now` -/
structure Simulates (K : List String) (db : CacheDb) (m : CacheMap) (now : Time) : Prop where
  quiet : db.Quiet hash K
  agree : ∀ ns key, db.entryAt hash now ns key = m.at_ now ns key

end

variable {hash : String → String} {K : List String}

/-! ## rows and entries -/

theorem CacheDb.Ok.liveRow_iff {db : CacheDb} (h : db.Ok) {ns : String} {g : Int}
    {keyHash key : String} {now : Time} {r : EntryRow} :
    db.liveRow ns g keyHash key now = some r ↔
      r ∈ db.entries ∧ r.isKey ns g keyHash key = true ∧ r.expired now = false := by
  refine ⟨db.liveRow_spec, fun ⟨hr, hk, he⟩ => ?_⟩
  cases hf : db.liveRow ns g keyHash key now with
  | none =>
    have h1 := List.find?_eq_none.mp hf r hr
    simp [hk, EntryRow.live, he] at h1
  | some x =>
    obtain ⟨hx, hxk, -⟩ := db.liveRow_spec hf
    have e : x.uniq = r.uniq := (EntryRow.isAt_iff.mp (EntryRow.isKey_iff.mp hxk).1).trans
      (EntryRow.isAt_iff.mp (EntryRow.isKey_iff.mp hk).1).symm
    rw [h.eq_of_uniq hx hr e]

/-- tables with the same live rows of a key -/
theorem liveRow_congr {db db' : CacheDb} (h : db.Ok) (h' : db'.Ok) {ns : String} {g : Int}
    {keyHash key : String} {now : Time}
    (he : ∀ r, r.isKey ns g keyHash key = true → r.expired now = false →
      (r ∈ db'.entries ↔ r ∈ db.entries)) :
    db'.liveRow ns g keyHash key now = db.liveRow ns g keyHash key now := by
  apply Option.ext
  intro r
  rw [h'.liveRow_iff, h.liveRow_iff]
  constructor
  · intro hex
    obtain ⟨h1, h2, h3⟩ := hex
    exact ⟨(he r h2 h3).mp h1, h2, h3⟩
  · intro hex
    obtain ⟨h1, h2, h3⟩ := hex
    exact ⟨(he r h2 h3).mpr h1, h2, h3⟩

theorem entryAt_congr {db db' : CacheDb} (h : db.Ok) (h' : db'.Ok) {now : Time} {ns key : String}
    (hg : db'.generationOf ns = db.generationOf ns)
    (he : ∀ r, r.namespace_ = ns → r.cacheKey = key → r.expired now = false →
      (r ∈ db'.entries ↔ r ∈ db.entries)) :
    db'.entryAt hash now ns key = db.entryAt hash now ns key := by
  unfold CacheDb.entryAt
  rw [hg]
  cases db.generationOf ns with
  | none => rfl
  | some g =>
    have hl : db'.liveRow ns g (hash key) key now = db.liveRow ns g (hash key) key now := by
      refine liveRow_congr h h' fun r hk hx => he r ?_ ?_ hx
      · have := EntryRow.isAt_iff.mp (EntryRow.isKey_iff.mp hk).1
        exact congrArg (·.1) this
      · exact (EntryRow.isKey_iff.mp hk).2
    simp only [hl]

theorem at_later (m : CacheMap) {now now' : Time} (h : now ≤ now') (ns key : String) :
    m.at_ now' ns key = (m.at_ now ns key).filter (Entry.present now') := by
  unfold CacheMap.at_
  cases m ns key with
  | none => rfl
  | some e =>
    cases he : e.present now with
    | true => rw [Option.filter_some_pos he]
    | false =>
      have he' : e.present now' = false := by
        unfold Entry.present at he ⊢
        cases hx : e.expiresAt with
        | none => simp [hx] at he
        | some t =>
          simp only [hx, decide_eq_false_iff_not] at he ⊢
          exact fun hlt => he (lt_of_le_of_lt h hlt)
      simp [Option.filter_some, he, he']

theorem present_iff (r : EntryRow) (now : Time) :
    Entry.present now ⟨r.valueBytes, r.expiresAt⟩ = !r.expired now := by
  unfold Entry.present EntryRow.expired
  cases r.expiresAt with
  | none => rfl
  | some t =>
    show decide (now < t) = !decide (t ≤ now)
    by_cases h : t ≤ now
    · rw [decide_eq_true h, decide_eq_false (not_lt.mpr h)]
      rfl
    · rw [decide_eq_false h, decide_eq_true (not_le.mp h)]
      rfl

theorem entryAt_later {db : CacheDb} (h : db.Ok) {now now' : Time} (hle : now ≤ now')
    (ns key : String) :
    db.entryAt hash now' ns key = (db.entryAt hash now ns key).filter (Entry.present now') := by
  unfold CacheDb.entryAt
  cases db.generationOf ns with
  | none => rfl
  | some g =>
    simp only
    have hmono : ∀ r : EntryRow, r.expired now' = false → r.expired now = false := by
      intro r
      unfold EntryRow.expired
      cases r.expiresAt with
      | none => exact id
      | some t =>
        simp only [decide_eq_false_iff_not]
        exact fun h1 h2 => h1 (le_trans h2 hle)
    cases hl : db.liveRow ns g (hash key) key now with
    | none =>
      cases hl' : db.liveRow ns g (hash key) key now' with
      | none => rfl
      | some r =>
        obtain ⟨h1, h2, h3⟩ := h.liveRow_iff.mp hl'
        rw [h.liveRow_iff.mpr ⟨h1, h2, hmono r h3⟩] at hl
        cases hl
    | some r =>
      obtain ⟨h1, h2, -⟩ := h.liveRow_iff.mp hl
      rw [Option.map_some]
      cases he : r.expired now' with
      | false =>
        rw [h.liveRow_iff.mpr ⟨h1, h2, he⟩, Option.map_some,
          Option.filter_some_pos (by rw [present_iff, he]; rfl)]
      | true =>
        rw [Option.filter_some_neg (by rw [present_iff, he]; simp)]
        cases hl' : db.liveRow ns g (hash key) key now' with
        | none => rfl
        | some x =>
          obtain ⟨h4, h5, h6⟩ := h.liveRow_iff.mp hl'
          have := h.liveRow_iff.mpr ⟨h4, h5, hmono x h6⟩
          rw [hl, Option.some.injEq] at this
          rw [← this, he] at h6
          cases h6

theorem Simulates.later {db : CacheDb} {m : CacheMap} {now now' : Time}
    (h : Simulates hash K db m now) (hle : now ≤ now') : Simulates hash K db m now' where
  quiet := h.quiet
  agree := by
    intro ns key
    rw [entryAt_later h.quiet.ok hle, h.agree, at_later m hle]

/-! ## namespaces -/

theorem generationOf_bump {db : CacheDb} {ns : String} {g : Int} (h : db.generationOf ns = some g)
    (ns' : String) (ids : List Int) (now : Time) :
    (db.bumpGeneration ns ids now).generationOf ns'
      = if ns' = ns then some (g + 1) else db.generationOf ns' := by
  unfold CacheDb.bumpGeneration
  rw [h]
  unfold CacheDb.generationOf at h ⊢
  have hp : ((·.name == ns') ∘ fun n : NamespaceRow => if n.name == ns then
      { n with generation := n.generation + 1, updatedAt := now } else n) = (·.name == ns') := by
    funext n
    by_cases hn : n.name = ns
    · simp [hn]
    · simp [hn]
  simp only [List.find?_map, hp, Option.map_map]
  by_cases e : ns' = ns
  · subst e
    rw [if_pos rfl]
    obtain ⟨n, hf, rfl⟩ := Option.map_eq_some_iff.mp h
    have hn : n.name = ns' := by simpa using List.find?_some hf
    rw [hf]
    simp [hn]
  · rw [if_neg e]
    cases hf : db.namespaces.find? (·.name == ns') with
    | none => rfl
    | some n =>
      have hn : n.name = ns' := by simpa using List.find?_some hf
      simp [hn, e]

section
variable {s : Nat} {c : CacheCtx} {db db' : CacheDb} {m : CacheMap} {now : Time}

theorem CacheDb.Quiet.none_of (h : db.Quiet hash K) {ns : String}
    (hn : db.generationOf ns = none) {r : EntryRow} (hr : r ∈ db.entries) : r.namespace_ ≠ ns := by
  rintro rfl
  obtain ⟨g, hg, -⟩ := h.current r hr
  rw [hn] at hg
  cases hg

theorem Simulates.ensure (h : Simulates hash K db m now) (ns : String) (clock : Time) :
    Simulates hash K (db.ensureNamespace ns clock) m now := by
  have he : (db.ensureNamespace ns clock).entries = db.entries := by
    unfold CacheDb.ensureNamespace
    split <;> rfl
  have ht : (db.ensureNamespace ns clock).txs = db.txs := by
    unfold CacheDb.ensureNamespace
    split <;> rfl
  have hok : (db.ensureNamespace ns clock).Ok := by
    refine h.quiet.ok.congr he ?_ ht
    unfold CacheDb.ensureNamespace
    split <;> rfl
  refine ⟨⟨hok, ht.trans h.quiet.txs, he ▸ h.quiet.hashed, he ▸ h.quiet.known, ?_⟩, ?_⟩
  · intro r hr
    rw [he] at hr
    obtain ⟨g, hg, hle⟩ := h.quiet.current r hr
    refine ⟨g, ?_, hle⟩
    rw [generationOf_ensure]
    by_cases e : r.namespace_ = ns
    · rw [if_pos e, ← e, hg]
      rfl
    · rw [if_neg e]
      exact hg
  · intro ns' key
    rw [← h.agree]
    by_cases e : ns' = ns
    · subst e
      cases hg : db.generationOf ns' with
      | some g =>
        refine entryAt_congr h.quiet.ok hok ?_ fun r _ _ _ => by rw [he]
        rw [generationOf_ensure, if_pos rfl, hg]
        rfl
      | none =>
        -- the namespace is new: no row has its name
        unfold CacheDb.entryAt
        rw [generationOf_ensure, if_pos rfl, hg]
        simp only [Option.getD_none, Option.map_eq_none_iff]
        cases hl : (db.ensureNamespace ns' clock).liveRow ns' 0 (hash key) key now with
        | none => rfl
        | some r =>
          obtain ⟨h1, h2, -⟩ := (db.ensureNamespace ns' clock).liveRow_spec hl
          rw [he] at h1
          have h3 := EntryRow.isAt_iff.mp (EntryRow.isKey_iff.mp h2).1
          exact absurd (congrArg (·.1) h3) (h.quiet.none_of hg h1)
    · refine entryAt_congr h.quiet.ok hok ?_ fun r _ _ _ => by rw [he]
      rw [generationOf_ensure, if_neg e]

/-! ## writes, sweeps, deletes -/

/-- a row written at its key -/
theorem Simulates.wrote (h : Simulates hash K db m now)
    (hinj : ∀ a ∈ K, ∀ b ∈ K, hash a = hash b → a = b) {ns key : String} {g : Int}
    (hg : db.generationOf ns = some g) (hkey : key ∈ K) {r : EntryRow}
    (hw : db.Wrote db' ns g (hash key) r) (hok : db'.Ok) {v : Bytes} {e : Option Time}
    (hr : r.Holds ns g (hash key) key v e) :
    Simulates hash K db' (m.write ns key (some ⟨v, e⟩)) now := by
  have hgen : ∀ ns', db'.generationOf ns' = db.generationOf ns' := by
    intro ns'
    unfold CacheDb.generationOf
    rw [hw.namespaces]
  have hmem : ∀ x, x ∈ db'.entries ↔ x = r ∨ x ∈ db.others ns g (hash key) := by
    intro x
    rw [hw.rows.mem_iff, List.mem_cons]
  have hold : ∀ x ∈ db.others ns g (hash key), x ∈ db.entries := fun x hx =>
    List.mem_of_mem_filter hx
  have hat := EntryRow.isAt_iff.mp (EntryRow.isKey_iff.mp hr.key).1
  have hck := (EntryRow.isKey_iff.mp hr.key).2
  refine ⟨⟨hok, hw.txs, ?_, ?_, ?_⟩, ?_⟩
  · intro x hx
    rcases (hmem x).mp hx with rfl | hx
    · rw [hck]
      exact congrArg (·.2.2) hat
    · exact h.quiet.hashed x (hold x hx)
  · intro x hx
    rcases (hmem x).mp hx with rfl | hx
    · rw [hck]
      exact hkey
    · exact h.quiet.known x (hold x hx)
  · intro x hx
    rw [hgen]
    rcases (hmem x).mp hx with rfl | hx
    · have h1 : x.namespace_ = ns := congrArg (·.1) hat
      have h2 : x.generation = g := congrArg (·.2.1) hat
      exact ⟨g, h1 ▸ hg, le_of_eq h2⟩
    · exact h.quiet.current x (hold x hx)
  · intro ns' key'
    by_cases e' : ns' = ns ∧ key' = key
    · obtain ⟨rfl, rfl⟩ := e'
      show _ = (m.write ns' key' (some ⟨v, e⟩) ns' key').filter _
      unfold CacheMap.write CacheDb.entryAt
      rw [if_pos ⟨rfl, rfl⟩, hgen, hg]
      have hent : (⟨r.valueBytes, r.expiresAt⟩ : Entry) = ⟨v, e⟩ := by rw [hr.value, hr.expiry]
      have hpres := present_iff r now
      rw [hent] at hpres
      simp only
      cases hx : r.expired now with
      | false =>
        rw [hok.liveRow_iff.mpr ⟨(hmem r).mpr (.inl rfl), hr.key, hx⟩, Option.map_some, hent,
          Option.filter_some_pos (by rw [hpres, hx]; rfl)]
      | true =>
        rw [Option.filter_some_neg (by rw [hpres, hx]; simp), Option.map_eq_none_iff]
        cases hl : db'.liveRow ns' g (hash key') key' now with
        | none => rfl
        | some x =>
          obtain ⟨h1, h2, h3⟩ := db'.liveRow_spec hl
          have h4 := hok.eq_of_uniq h1 ((hmem r).mpr (.inl rfl))
            ((EntryRow.isAt_iff.mp (EntryRow.isKey_iff.mp h2).1).trans hat.symm)
          rw [h4, hx] at h3
          cases h3
    · show _ = (m.write ns key (some ⟨v, e⟩) ns' key').filter _
      unfold CacheMap.write
      rw [if_neg e']
      show _ = m.at_ now ns' key'
      rw [← h.agree]
      refine entryAt_congr h.quiet.ok hok (hgen ns') fun x hxn hxk _ => ?_
      rw [hmem]
      constructor
      · intro hex
        rcases hex with rfl | hx
        · exact absurd ⟨hxn.symm.trans (congrArg (·.1) hat), hxk.symm.trans hck⟩ e'
        · exact hold x hx
      · -- a row of another key has another unique key: the hash is injective on the keys
        intro hx
        refine .inr (List.mem_filter.mpr ⟨hx, ?_⟩)
        cases hxa : x.isAt ns g (hash key) with
        | false => rfl
        | true =>
          have h1 := EntryRow.isAt_iff.mp hxa
          have h2 : x.keyHash = hash key := congrArg (·.2.2) h1
          have h3 := hinj _ (h.quiet.known x hx) _ hkey ((h.quiet.hashed x hx).symm.trans h2)
          exact absurd ⟨hxn.symm.trans (congrArg (·.1) h1), hxk.symm.trans h3⟩ e'

theorem Simulates.tidied (h : Simulates hash K db m now) (hok : db'.Ok)
    (hn : db'.namespaces = db.namespaces) (ht : db'.txs = [])
    (hs : ∀ r ∈ db'.entries, r ∈ db.entries)
    (hx : ∀ r ∈ db.entries, r.expired now = false → r ∈ db'.entries) :
    Simulates hash K db' m now := by
  have hgen : ∀ ns', db'.generationOf ns' = db.generationOf ns' := by
    intro ns'
    unfold CacheDb.generationOf
    rw [hn]
  refine ⟨⟨hok, ht, fun r hr => h.quiet.hashed r (hs r hr), fun r hr => h.quiet.known r (hs r hr),
    fun r hr => ?_⟩, fun ns key => ?_⟩
  · rw [hgen]
    exact h.quiet.current r (hs r hr)
  · rw [← h.agree]
    exact entryAt_congr h.quiet.ok hok (hgen ns) fun r _ _ he =>
      ⟨hs r, fun hr => hx r hr he⟩

theorem Simulates.deletedKey (h : Simulates hash K db m now) {ns key : String} {g : Int}
    (hg : db.generationOf ns = some g) :
    Simulates hash K (db.deleteWhere (·.isKey ns g (hash key) key)).2
        (m.write ns key none) now := by
  have hok : (db.deleteWhere (·.isKey ns g (hash key) key)).2.Ok :=
    h.quiet.ok.deleted _ rfl rfl rfl
  have hs : ∀ r ∈ (db.deleteWhere (·.isKey ns g (hash key) key)).2.entries, r ∈ db.entries :=
    fun r hr => List.mem_of_mem_filter hr
  refine ⟨⟨hok, h.quiet.txs, fun r hr => h.quiet.hashed r (hs r hr),
    fun r hr => h.quiet.known r (hs r hr), fun r hr => h.quiet.current r (hs r hr)⟩, ?_⟩
  intro ns' key'
  by_cases e' : ns' = ns ∧ key' = key
  · obtain ⟨rfl, rfl⟩ := e'
    show _ = (m.write ns' key' none ns' key').filter _
    unfold CacheMap.write CacheDb.entryAt
    have hg' : (db.deleteWhere (·.isKey ns' g (hash key') key')).2.generationOf ns' = some g := hg
    rw [if_pos ⟨rfl, rfl⟩, hg', Option.filter_none]
    simp only [Option.map_eq_none_iff]
    cases hl : (db.deleteWhere (·.isKey ns' g (hash key') key')).2.liveRow ns' g
      (hash key') key' now with
    | none => rfl
    | some r =>
      obtain ⟨h1, h2, -⟩ := CacheDb.liveRow_spec hl
      have h3 : (!r.isKey ns' g (hash key') key') = true := (List.mem_filter.mp h1).2
      rw [h2] at h3
      cases h3
  · show _ = (m.write ns key none ns' key').filter _
    unfold CacheMap.write
    rw [if_neg e']
    show _ = m.at_ now ns' key'
    rw [← h.agree]
    refine entryAt_congr h.quiet.ok hok rfl fun r hrn hrk _ => ⟨hs r, fun hr => ?_⟩
    refine List.mem_filter.mpr ⟨hr, ?_⟩
    show (!r.isKey ns g (hash key) key) = true
    cases hk : r.isKey ns g (hash key) key with
    | false => rfl
    | true =>
      have h1 := EntryRow.isAt_iff.mp (EntryRow.isKey_iff.mp hk).1
      exact absurd ⟨hrn.symm.trans (congrArg (·.1) h1),
        hrk.symm.trans (EntryRow.isKey_iff.mp hk).2⟩ e'

theorem mem_viewRows {r : EntryRow} (hr : r ∈ db.entries) {ns : String} (e : r.namespace_ = ns) :
    r.id ∈ db.viewRows ns :=
  List.mem_map_of_mem (List.mem_filter.mpr ⟨hr, by simpa using e⟩)

theorem Simulates.bumped (h : Simulates hash K db m now) {ns : String} {g : Int}
    (hg : db.generationOf ns = some g) (clock : Time) :
    Simulates hash K (db.bumpGeneration ns (db.viewRows ns) clock) (m.clear ns) now := by
  have he : (db.bumpGeneration ns (db.viewRows ns) clock).entries
      = db.entries.filter fun r =>
        !(r.namespace_ == ns && r.generation < g + 1 && (db.viewRows ns).contains r.id) := by
    unfold CacheDb.bumpGeneration
    rw [hg]
  have ht : (db.bumpGeneration ns (db.viewRows ns) clock).txs = db.txs := by
    unfold CacheDb.bumpGeneration
    rw [hg]
  have hok : (db.bumpGeneration ns (db.viewRows ns) clock).Ok := by
    refine h.quiet.ok.deleted _ he ?_ ht
    unfold CacheDb.bumpGeneration
    rw [hg]
  have hmem : ∀ r, r ∈ (db.bumpGeneration ns (db.viewRows ns) clock).entries ↔ r ∈ db.entries ∧
      r.namespace_ ≠ ns := by
    intro r
    rw [he, List.mem_filter]
    constructor
    · intro hex
      obtain ⟨hr, hp⟩ := hex
      refine ⟨hr, fun e => ?_⟩
      obtain ⟨g', hg', hle⟩ := h.quiet.current r hr
      rw [e, hg] at hg'
      obtain rfl := Option.some.inj hg'
      have hlt : r.generation < g + 1 := by omega
      rw [List.contains_iff_mem.mpr (mem_viewRows hr e)] at hp
      simp [e, hlt] at hp
    · intro hex
      obtain ⟨hr, hne⟩ := hex
      exact ⟨hr, by simp [hne]⟩
  refine ⟨⟨hok, ht.trans h.quiet.txs, fun r hr => h.quiet.hashed r ((hmem r).mp hr).1,
    fun r hr => h.quiet.known r ((hmem r).mp hr).1, fun r hr => ?_⟩, ?_⟩
  · obtain ⟨h1, h2⟩ := (hmem r).mp hr
    rw [generationOf_bump hg, if_neg h2]
    exact h.quiet.current r h1
  · intro ns' key'
    by_cases e : ns' = ns
    · subst e
      show _ = (m.clear ns' ns' key').filter _
      unfold CacheMap.clear CacheDb.entryAt
      rw [if_pos rfl, generationOf_bump hg, if_pos rfl, Option.filter_none]
      simp only [Option.map_eq_none_iff]
      cases hl : (db.bumpGeneration ns' (db.viewRows ns') clock).liveRow ns' (g + 1)
        (hash key') key' now with
      | none => rfl
      | some r =>
        obtain ⟨h1, h2, -⟩ := CacheDb.liveRow_spec hl
        have h3 := EntryRow.isAt_iff.mp (EntryRow.isKey_iff.mp h2).1
        exact absurd (congrArg (·.1) h3) ((hmem r).mp h1).2
    · show _ = (m.clear ns ns' key').filter _
      unfold CacheMap.clear
      rw [if_neg e]
      show _ = m.at_ now ns' key'
      rw [← h.agree]
      refine entryAt_congr h.quiet.ok hok (by rw [generationOf_bump hg, if_neg e])
        fun r hrn _ _ => ?_
      rw [hmem]
      exact ⟨fun hr => hr.1, fun hr => ⟨hr, fun e' => e (hrn.symm.trans e')⟩⟩

theorem Simulates.touched (h : Simulates hash K db m now) (id : Int) (clock : Time) :
    Simulates hash K (db.touch id clock) m now := by
  have hok := h.quiet.ok.touch id clock
  have hrow : ∀ r' ∈ (db.touch id clock).entries, ∃ r ∈ db.entries,
      r.cacheKey = r'.cacheKey ∧ r.uniq = r'.uniq := by
    intro r' hr'
    obtain ⟨r, hr, rfl⟩ := List.mem_map.mp hr'
    refine ⟨r, hr, ?_⟩
    split
    · exact ⟨rfl, rfl⟩
    · exact ⟨rfl, rfl⟩
  refine ⟨⟨hok, h.quiet.txs, fun r' hr' => ?_, fun r' hr' => ?_, fun r' hr' => ?_⟩,
    fun ns key => ?_⟩
  · obtain ⟨r, hr, hk, hu⟩ := hrow r' hr'
    rw [← hk, ← h.quiet.hashed r hr]
    exact (congrArg (·.2.2) hu).symm
  · obtain ⟨r, hr, hk, -⟩ := hrow r' hr'
    exact hk ▸ h.quiet.known r hr
  · obtain ⟨r, hr, -, hu⟩ := hrow r' hr'
    have hn : r.namespace_ = r'.namespace_ := congrArg (·.1) hu
    have hgn : r.generation = r'.generation := congrArg (·.2.1) hu
    rw [← hn, ← hgn]
    exact h.quiet.current r hr
  · rw [← h.agree]
    unfold CacheDb.entryAt CacheDb.liveRow
    show (match db.generationOf ns with | none => _ | some g => _) = _
    cases db.generationOf ns with
    | none => rfl
    | some g =>
      have hp : ((fun r : EntryRow => r.isKey ns g (hash key) key &&
          r.live now) ∘ fun r : EntryRow =>
          if r.id == id then { r with lastAccessedAt := clock, accessCount := r.accessCount + 1 }
          else r) = fun r => r.isKey ns g (hash key) key && r.live now := by
        funext r
        simp only [Function.comp]
        split <;> rfl
      simp only [CacheDb.touch, List.find?_map, hp, Option.map_map]
      congr 1
      funext r
      simp only [Function.comp]
      split <;> rfl

end

end PgApp
