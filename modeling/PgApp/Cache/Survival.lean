import PgApp.Cache.LruPrefix
import PgApp.Cache.Stamps
import Mathlib.Algebra.Order.BigOperators.Group.List
import Mathlib.Algebra.Order.Group.Int

/-!
# The row a write leaves, after its own capacity enforcement

A write commits its row and then enforces the capacity.  The row stays exactly when the sweep finds
something (nothing is evicted then), or the row fits together with the rows used after it
(`CacheStore.Keeps`).

* `ShortestPrefix.lt_iff`   which positions of a list the shortest prefix reaches;
* `evicted_iff`             the same of a row of the LRU order;
* `written_keeps`           the end of a write;
* `WritesRow.outcome`       a whole write.
-/

namespace PgApp
open Interleave CacheProg

/-- where fitting is kept by dropping, the prefix reaches exactly the positions from which the list
does not fit -/
theorem ShortestPrefix.lt_iff {α : Type} {fits : List α → Prop} {rows : List α} {m k : Nat}
    (S : ShortestPrefix fits rows m) (hdrop : ∀ j, fits (rows.drop j) → fits (rows.drop (j + 1)))
    (hk : k < rows.length) : k < m ↔ ¬ fits (rows.drop k) := by
  refine ⟨S.least k, fun hnot => ?_⟩
  by_contra hle
  have hm : fits (rows.drop m) := S.enough.resolve_right (by omega)
  have hall : ∀ j, fits (rows.drop (m + j)) := by
    intro j
    induction j with
    | zero => exact hm
    | succ j ih => exact hdrop _ ih
  have he : m + (k - m) = k := by omega
  exact hnot (he ▸ hall (k - m))

/-! ## a row of the order -/

/-- the rows of the namespace used after `r`, those of other keys -/
def CacheDb.usedSince (db : CacheDb) (ns : String) (g : Int) (keyHash : String) (r : EntryRow) :
    List EntryRow :=
  (db.others ns g keyHash).filter fun x => x.isIn ns g && decide (usedBefore r x)

/-- the row `r`, written at this unique key, outlives the capacity enforcement -/
def CacheStore.Keeps (store : CacheStore) (db : CacheDb) (now : Time) (ns : String) (g : Int)
    (keyHash : String) (r : EntryRow) : Prop :=
  (∃ x ∈ db.others ns g keyHash, x.expired now = true) ∨
    store.fits (r :: db.usedSince ns g keyHash r)

section
variable {s : Nat} {c : CacheCtx} {db db' : CacheDb} {store : CacheStore} {ns : String} {g : Int}
variable {keyHash key : String} {r : EntryRow} {v : Bytes} {e : Option Time}

theorem fits_perm {a b : List EntryRow} (h : a.Perm b) : store.fits a ↔ store.fits b := by
  unfold CacheStore.fits
  rw [h.length_eq, sumSizes_perm h]

theorem fits_tail {a : EntryRow} {l : List EntryRow} (ha : 0 ≤ a.sizeBytes)
    (h : store.fits (a :: l)) : store.fits l := by
  refine ⟨fun m hm => ?_, fun b hb => ?_⟩
  · have h1 := h.1 m hm
    rw [List.length_cons] at h1
    omega
  · have h1 := h.2 b hb
    have h2 : sumSizes (a :: l) = a.sizeBytes + sumSizes l := by simp [sumSizes]
    omega

theorem fits_drop {l : List EntryRow} (hl : ∀ x ∈ l, 0 ≤ x.sizeBytes) (j : Nat)
    (h : store.fits (l.drop j)) : store.fits (l.drop (j + 1)) := by
  by_cases hj : j < l.length
  · rw [List.drop_eq_getElem_cons hj] at h
    exact fits_tail (hl _ (List.getElem_mem hj)) h
  · rw [List.drop_of_length_le (by omega)] at h ⊢
    exact h

/-- the rows after `r` in the order -/
theorem after_perm {rows a b : List EntryRow} (hids : ((r :: rows).map (·.id)).Nodup)
    (ho : lruOrder (r :: rows) = a ++ r :: b) :
    b.Perm (rows.filter fun x => decide (usedBefore r x)) := by
  have hp : (a ++ r :: b).Perm (r :: rows) := ho ▸ lruOrder_perm _
  have hsorted : (a ++ r :: b).Pairwise usedBefore := ho ▸ lruOrder_pairwise _
  have hp' : (a ++ b).Perm rows := (List.perm_middle.symm.trans hp).cons_inv
  have hids' : ((r :: (a ++ b)).map (·.id)).Nodup :=
    (((List.perm_middle.symm.trans hp).map _).nodup_iff).mpr hids
  have hra : ∀ x ∈ a ++ b, x.id ≠ r.id := by
    intro x hx he
    rw [List.map_cons, List.nodup_cons] at hids'
    exact hids'.1 (he ▸ List.mem_map_of_mem hx)
  have ha : a.filter (fun x => decide (usedBefore r x)) = [] := by
    rw [List.filter_eq_nil_iff]
    intro x hx hxr
    have h1 : usedBefore x r := (List.pairwise_append.mp hsorted).2.2 x hx r List.mem_cons_self
    exact hra x (List.mem_append_left _ hx) (usedBefore_antisymm h1 (by simpa using hxr))
  have hb : b.filter (fun x => decide (usedBefore r x)) = b := by
    rw [List.filter_eq_self]
    intro x hx
    have h1 : (r :: b).Pairwise usedBefore := (List.pairwise_append.mp hsorted).2.1
    simpa using List.rel_of_pairwise_cons h1 hx
  have h2 := hp'.filter fun x => decide (usedBefore r x)
  rw [List.filter_append, ha, hb, List.nil_append] at h2
  exact h2

/-- a row goes exactly when it does not fit with those used after it -/
theorem evicted_iff {rows : List EntryRow} {m : Nat} (hids : ((r :: rows).map (·.id)).Nodup)
    (hsizes : ∀ x ∈ r :: rows, 0 ≤ x.sizeBytes)
    (S : ShortestPrefix store.fits (lruOrder (r :: rows)) m) :
    r ∈ (lruOrder (r :: rows)).take m ↔
      ¬ store.fits (r :: rows.filter fun x => decide (usedBefore r x)) := by
  have hmem : r ∈ lruOrder (r :: rows) := (lruOrder_perm _).mem_iff.mpr List.mem_cons_self
  obtain ⟨a, b, ho⟩ := List.append_of_mem hmem
  have hb := after_perm hids ho
  have hn : (lruOrder (r :: rows)).Nodup := (lruOrder_perm _).nodup_iff.mpr (hids.of_map _)
  have hdrop : ∀ j, store.fits ((lruOrder (r :: rows)).drop j) →
      store.fits ((lruOrder (r :: rows)).drop (j + 1)) := fun j =>
    fits_drop (fun x hx => hsizes x ((lruOrder_perm _).mem_iff.mp hx)) j
  have hlen : a.length < (lruOrder (r :: rows)).length := by
    rw [ho, List.length_append, List.length_cons]
    omega
  have hpos := S.lt_iff hdrop hlen
  have hda : (lruOrder (r :: rows)).drop a.length = r :: b := by
    rw [ho, List.drop_left]
  rw [hda, fits_perm (hb.cons r)] at hpos
  rw [← hpos, ho]
  rw [ho, List.nodup_append] at hn
  have hra : r ∉ a := fun hr => hn.2.2 r hr r List.mem_cons_self rfl
  rw [List.take_append, List.mem_append]
  constructor
  · intro h
    rcases h with hr | hr
    · exact absurd (List.mem_of_mem_take hr) hra
    · by_contra hle
      rw [Nat.sub_eq_zero_of_le (Nat.not_lt.mp hle), List.take_zero] at hr
      cases hr
  · intro hlt
    obtain ⟨k, hk⟩ : ∃ k, m - a.length = k + 1 := ⟨m - a.length - 1, by omega⟩
    rw [hk, List.take_succ_cons]
    exact .inr List.mem_cons_self

/-! ## the end of a write -/

/-- the end of a write of this namespace, run alone on `db`, ends in `d` -/
structure CacheStore.Settles (store : CacheStore) (s : Nat) (c : CacheCtx) (ns : String)
    (db d : CacheDb) : Prop where
  only : ∀ rounds p, (store.written rounds ns).alone s c db = some p → p = (.ok (), d)
  ends : ∀ rounds, db.entries.length < rounds → ∃ p, (store.written rounds ns).alone s c db = some p
  sub : ∀ x ∈ d.entries, x ∈ db.entries
  ok : d.Ok
  txs : d.txs = []
  namespaces : d.namespaces = db.namespaces

theorem settles_swept (h : db.Ok) (htx : db.txs = [])
    (hx : ∃ x ∈ db.entries, x.expired c.now = true)
    (store : CacheStore) (ns : String) :
    ∃ d, store.Settles s c ns db d ∧ ∀ x ∈ db.entries, x.expired c.now = false → x ∈ d.entries := by
  have h1 : ({ db with counters := db.counters.add .writes 1 } : CacheDb).Ok := h.congr rfl rfl rfl
  have htx₁ : ({ db with counters := db.counters.add .writes 1 } : CacheDb).txs = [] := htx
  obtain ⟨d, hrun, he, hn, htx', hnext⟩ := alone_enforce_swept (s := s) (c := c) htx₁ hx store ns
  have T := unswept_tidied h1 1000 he hn htx'
  have hrun' : ∀ rounds, (store.written rounds ns).alone s c db = some (.ok (), d) := hrun
  refine ⟨d, ⟨fun rounds p hp => ?_, fun rounds _ => ⟨_, hrun' rounds⟩, T.sub,
    h1.deleted _ he hnext (htx'.trans htx.symm), htx', hn⟩, T.live⟩
  rw [hrun' rounds] at hp
  exact (Option.some.inj hp).symm

/-- else the shortest prefix goes -/
theorem settles_evicted (h : db.Ok) (htx : db.txs = [])
    (hall : ∀ x ∈ db.entries, x.expired c.now = false) (store : CacheStore) (ns : String) :
    ∃ d m, store.Settles s c ns db d ∧ ShortestPrefix store.halts (lruOrder (db.currentRows ns)) m ∧
      ∀ x, x ∈ d.entries ↔ x ∈ db.entries ∧ x ∉ (lruOrder (db.currentRows ns)).take m := by
  have h1 : ({ db with counters := db.counters.add .writes 1 } : CacheDb).Ok := h.congr rfl rfl rfl
  obtain ⟨m, S⟩ := ShortestPrefix.exists_shortest store.halts (lruOrder (db.currentRows ns))
  have hrun := fun rounds => enforce_shortest (s := s) (c := c) h1 htx hall S rounds
  have hcur : ∀ x ∈ (lruOrder (db.currentRows ns)).take m, x ∈ db.entries := by
    intro x hx
    exact currentRows_sub (lruOrder_mem hx)
  have hmem := fun x => mem_evicted (r := x) h1 hcur
  exact ⟨_, m, ⟨fun rounds => (hrun rounds).1, fun rounds => (hrun rounds).2,
    fun x hx => ((hmem x).mp hx).1, h1.deleted _ rfl rfl rfl, htx, rfl⟩, S, hmem⟩

theorem sumSizes_mem {rows : List EntryRow} (h : ∀ x ∈ rows, 0 ≤ x.sizeBytes) (hr : r ∈ rows) :
    r.sizeBytes ≤ sumSizes rows := by
  induction rows with
  | nil => cases hr
  | cons x rows ih =>
    have hx := h x List.mem_cons_self
    have hrows : ∀ y ∈ rows, 0 ≤ y.sizeBytes := fun y hy => h y (List.mem_cons_of_mem _ hy)
    have hcons : sumSizes (x :: rows) = x.sizeBytes + sumSizes rows := by simp [sumSizes]
    rcases List.mem_cons.mp hr with rfl | hr
    · have hsum : 0 ≤ sumSizes rows := by
        refine List.sum_nonneg fun z hz => ?_
        obtain ⟨y, hy, rfl⟩ := List.mem_map.mp hz
        exact hrows y hy
      omega
    · have h1 := ih hrows hr
      omega

/-- a row longer than `max_bytes` is not among those that the loop leaves -/
theorem long_not_mem {rows : List EntryRow} {m : Nat} (hsizes : ∀ x ∈ rows, 0 ≤ x.sizeBytes)
    (S : ShortestPrefix store.halts (lruOrder rows) m) {b : Int}
      (hb : store.limits.maxBytes = some b)
    (hlong : b < r.sizeBytes) : r ∉ (lruOrder rows).drop m := by
  intro hr
  have hle := overBytes_false (S.fits_of_mem hr).2 b hb
  have hall : ∀ x ∈ (lruOrder rows).drop m, 0 ≤ x.sizeBytes := fun x hx =>
    hsizes x ((lruOrder_perm _).mem_iff.mp (List.mem_of_mem_drop hx))
  have h1 := sumSizes_mem hall hr
  omega

/-- **The row a write leaves**, and why one that is too long is not left (under a negative maximum
the count of keys may overflow). -/
theorem written_keeps (h' : db'.Ok) (hw : db.Wrote db' ns g keyHash r)
    (hg : db.generationOf ns = some g) (hin : r.isIn ns g = true) (hlive : r.expired c.now = false)
    (hsizes : ∀ x ∈ db'.entries, 0 ≤ x.sizeBytes) (store : CacheStore) :
    ∃ d, store.Settles s c ns db' d ∧
      ((∀ m, store.limits.maxKeys = some m → 0 ≤ m) →
        (r ∈ d.entries ↔ store.Keeps db c.now ns g keyHash r)) ∧
      ((∀ x ∈ db.others ns g keyHash, x.expired c.now = false) →
        ∀ b, store.limits.maxBytes = some b → b < r.sizeBytes → r ∉ d.entries) := by
  have hr : r ∈ db'.entries := hw.rows.mem_iff.mpr List.mem_cons_self
  by_cases hx : ∃ x ∈ db.others ns g keyHash, x.expired c.now = true
  · obtain ⟨x, hxm, hxe⟩ := hx
    obtain ⟨d, hd, hkeep⟩ := settles_swept (s := s) h' hw.txs
      ⟨x, hw.rows.mem_iff.mpr (List.mem_cons_of_mem _ hxm), hxe⟩ store ns
    refine ⟨d, hd, fun _ => ⟨fun _ => .inl ⟨x, hxm, hxe⟩, fun _ => hkeep r hr hlive⟩,
      fun hall => ?_⟩
    rw [hall x hxm] at hxe
    cases hxe
  · have hall : ∀ x ∈ db'.entries, x.expired c.now = false := by
      intro x hxm
      rcases List.mem_cons.mp (hw.rows.mem_iff.mp hxm) with rfl | hxm
      · exact hlive
      · cases hxe : x.expired c.now with
        | false => rfl
        | true => exact absurd ⟨x, hxm, hxe⟩ hx
    obtain ⟨d, m, hd, S, hmem⟩ := settles_evicted (s := s) h' hw.txs hall store ns
    have hcur : (db'.currentRows ns).Perm (r :: (db.others ns g keyHash).filter (·.isIn ns g)) := by
      have hg' : db'.generationOf ns = some g := by
        unfold CacheDb.generationOf at hg ⊢
        rw [hw.namespaces]
        exact hg
      have h1 := hw.rows.filter (·.isIn ns g)
      rw [List.filter_cons_of_pos (by exact hin)] at h1
      unfold CacheDb.currentRows
      rw [hg']
      exact h1
    have hids : ((db'.currentRows ns).map (·.id)).Nodup :=
      h'.ids.sublist ((currentRows_sublist db' ns).map _)
    have hids' := ((hcur.map (·.id)).nodup_iff).mp hids
    have ho : lruOrder (db'.currentRows ns)
        = lruOrder (r :: (db.others ns g keyHash).filter (·.isIn ns g)) :=
      lruOrder_eq hids ((lruOrder_perm _).trans hcur.symm) (lruOrder_pairwise _)
    rw [ho] at S hmem
    have hsz : ∀ x ∈ r :: (db.others ns g keyHash).filter (·.isIn ns g), 0 ≤ x.sizeBytes :=
      fun x hxm => hsizes x (currentRows_sub (hcur.mem_iff.mpr hxm))
    refine ⟨d, hd, fun hpos => ?_, fun _ b hb hlong hin' => ?_⟩
    · have hev := evicted_iff hids' hsz (S.fits_of_halts fun m hm hneg =>
        absurd hneg (not_lt.mpr (hpos m hm)))
      rw [List.filter_filter] at hev
      have hsince : (db.others ns g keyHash).filter (fun x => decide (usedBefore r x) &&
        x.isIn ns g)
          = db.usedSince ns g keyHash r :=
        List.filter_congr fun x _ => Bool.and_comm _ _
      rw [hsince] at hev
      rw [hmem r, hev, Classical.not_not]
      unfold CacheStore.Keeps
      exact ⟨fun h1 => .inr h1.2, fun h1 => ⟨hr, h1.resolve_left hx⟩⟩
    · have hall' : r ∈ lruOrder (r :: (db.others ns g keyHash).filter (·.isIn ns g)) :=
        (lruOrder_perm _).mem_iff.mpr List.mem_cons_self
      rw [← List.take_append_drop m (lruOrder _), List.mem_append] at hall'
      exact hall'.elim ((hmem r).mp hin').2 (long_not_mem hsz S hb hlong)

end

end PgApp
