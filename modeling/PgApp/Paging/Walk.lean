import Mathlib.Data.List.Sort

/-!
# Following the pages of an ordered list

A server answers a request for the items from an offset on with a page: some of the items, and
where the next page begins if there is one.

* `Walk fetch o pages`   a client that starts at `o` and follows the pages gets `pages` and is done;
* `slice full n o`       the page of `full` at `o`, of at most `n` items;
* `walk_slice`           over slices a walk ends, and its pages are the rest of `full` cut up;
* `Arranged r rows l`    `l` is the ONE way to list `rows` in the order `r`.

A protocol without optional fields says 0 where there is no next page.  `ofZero_slice`: no next page
begins at 0, so the mark is never taken for an offset.
-/

namespace Paging
variable {α β : Type}

/-- a page: its items, and where the next one begins -/
abbrev Page (α : Type) := List α × Option Int

/-- a client follows the pages from an offset on, until there is no next one -/
inductive Walk (fetch : Int → Option (Page α)) : Int → List (List α) → Prop
  | last {o : Int} {items : List α} (h : fetch o = some (items, none)) : Walk fetch o [items]
  | more {o o' : Int} {items : List α} {pages : List (List α)}
      (h : fetch o = some (items, some o')) (rest : Walk fetch o' pages) :
      Walk fetch o (items :: pages)

theorem Walk.unique {fetch : Int → Option (Page α)} {o : Int} {ps qs : List (List α)}
    (hp : Walk fetch o ps) (hq : Walk fetch o qs) : ps = qs := by
  induction hp generalizing qs with
  | last h =>
    cases hq with
    | last h' =>
      rw [h] at h'
      cases h'
      rfl
    | more h' _ =>
      rw [h] at h'
      cases h'
  | more h _ ih =>
    cases hq with
    | last h' =>
      rw [h] at h'
      cases h'
    | more h' rest =>
      rw [h] at h'
      cases h'
      rw [ih rest]

theorem Walk.fetched {fetch : Int → Option (Page α)} {o : Int} {pages : List (List α)}
    (h : Walk fetch o pages) : ∃ p, fetch o = some p := by
  cases h with
  | last h => exact ⟨_, h⟩
  | more h _ => exact ⟨_, h⟩

/-! ## slices -/

/-- the page of `full` at `o`, of at most `n` items -/
def slice (full : List α) (n : Nat) (o : Int) : Page α :=
  ((full.drop o.toNat).take n, if o + n < full.length then some (o + n) else none)

theorem slice_length (full : List α) (n : Nat) (o : Int) : (slice full n o).1.length ≤ n :=
  List.length_take_le n _

theorem slice_next {full : List α} {n : Nat} {o o' : Int} (hn : 0 < n)
    (h : (slice full n o).2 = some o') : o < o' := by
  unfold slice at h
  split at h
  · cases h
    omega
  · cases h

/-- the mark 0 for the end -/
def ofZero (next : Int) : Option Int := if next = 0 then none else some next

theorem ofZero_slice (full : List α) {n : Nat} {o : Int} (hn : 0 < n) (ho : 0 ≤ o) :
    ofZero ((slice full n o).2.getD 0) = (slice full n o).2 := by
  cases h : (slice full n o).2 with
  | none => rfl
  | some o' =>
    have hlt := slice_next hn h
    show (if o' = 0 then none else some o') = some o'
    rw [if_neg (by omega)]

theorem walk_slice {full : List α} {n : Nat} (hn : 0 < n) {fetch : Int → Option (Page α)}
    (hf : ∀ o, 0 ≤ o → fetch o = some (slice full n o)) {o : Int} (ho : 0 ≤ o) :
    ∃ pages, Walk fetch o pages ∧ pages.flatten = full.drop o.toNat ∧
      ∀ p ∈ pages, p.length ≤ n := by
  -- the offset moves on by `n` until it has passed the end
  induction hk : full.length - o.toNat using Nat.strongRecOn generalizing o with
  | _ k ih =>
    have hpage := hf o ho
    have hlen := slice_length full n o
    by_cases hmore : o + n < full.length
    · have hnext : (o + n).toNat = o.toNat + n := by omega
      obtain ⟨pages, hw, hflat, hle⟩ := ih (full.length - (o + n).toNat) (by omega)
        (o := o + n) (by omega) rfl
      unfold slice at hpage hlen
      rw [if_pos hmore] at hpage
      refine ⟨_ :: pages, .more hpage hw, ?_, fun p hp => ?_⟩
      · rw [List.flatten_cons, hflat, hnext, ← List.drop_drop, List.take_append_drop]
      · rcases List.mem_cons.mp hp with rfl | hp
        · exact hlen
        · exact hle p hp
    · unfold slice at hpage hlen
      rw [if_neg hmore] at hpage
      refine ⟨[_], .last hpage, ?_, fun p hp => ?_⟩
      · rw [List.flatten_singleton, List.take_of_length_le]
        rw [List.length_drop]
        omega
      · rw [List.mem_singleton.mp hp]
        exact hlen

/-! ## the one arrangement of rows -/

/-- `l` lists the rows in the order `r`, and nothing else does -/
structure Arranged (r : α → α → Prop) (rows l : List α) : Prop where
  perm : l.Perm rows
  sorted : l.Pairwise r
  only : ∀ l', l'.Perm rows → l'.Pairwise r → l' = l

theorem arranged_insertionSort (r : α → α → Prop) [DecidableRel r] {rows : List α}
    (total : ∀ a b, r a b ∨ r b a) (trans : ∀ a b c, r a b → r b c → r a c)
    (anti : ∀ a ∈ rows, ∀ b ∈ rows, r a b → r b a → a = b) :
    Arranged r rows (rows.insertionSort r) := by
  have : Std.Total r := ⟨total⟩
  have : IsTrans α r := ⟨trans⟩
  have hp := List.perm_insertionSort r rows
  have hs := List.pairwise_insertionSort r rows
  refine ⟨hp, hs, fun l' hp' hs' => List.Perm.eq_of_pairwise (fun a b ha hb h1 h2 => ?_) hs' hs
    (hp'.trans hp.symm)⟩
  exact anti a (hp'.mem_iff.mp ha) b (hp.mem_iff.mp hb) h1 h2

theorem arranged_by {κ : Type} [LinearOrder κ] (key : α → κ)
    [DecidableRel fun a b : α => key a ≤ key b] {rows : List α} (h : (rows.map key).Nodup) :
    Arranged (fun a b => key a ≤ key b) rows (rows.insertionSort fun a b => key a ≤ key b) :=
  arranged_insertionSort _ (fun a b => le_total (key a) (key b)) (fun _ _ _ => le_trans)
    fun _ ha _ hb h1 h2 => List.inj_on_of_nodup_map h ha hb (le_antisymm h1 h2)

/-- rows ranked by `k`, and where that ties by a key `i` of their own -/
theorem arranged_lex {κ ι : Type} [LinearOrder κ] [LinearOrder ι] (k : α → κ) (i : α → ι)
    (r : α → α → Prop) [DecidableRel r] (hr : ∀ a b, r a b ↔ k a < k b ∨ (k a = k b ∧ i a ≤ i b))
    {rows : List α} (h : (rows.map i).Nodup) : Arranged r rows (rows.insertionSort r) := by
  refine arranged_insertionSort r (fun a b => ?_) (fun a b c h1 h2 => ?_) fun a ha b hb h1 h2 => ?_
  · rw [hr, hr]
    rcases lt_trichotomy (k a) (k b) with hk | hk | hk
    · exact .inl (.inl hk)
    · rcases le_total (i a) (i b) with hi | hi
      · exact .inl (.inr ⟨hk, hi⟩)
      · exact .inr (.inr ⟨hk.symm, hi⟩)
    · exact .inr (.inl hk)
  · rw [hr] at h1 h2 ⊢
    rcases h1 with h1 | ⟨h1, hi1⟩
    · rcases h2 with h2 | ⟨h2, -⟩
      · exact .inl (h1.trans h2)
      · exact .inl (h2 ▸ h1)
    · rcases h2 with h2 | ⟨h2, hi2⟩
      · exact .inl (h1 ▸ h2)
      · exact .inr ⟨h1.trans h2, hi1.trans hi2⟩
  · rw [hr] at h1 h2
    refine List.inj_on_of_nodup_map h ha hb ?_
    rcases h1 with h1 | ⟨hk, hi1⟩
    · rcases h2 with h2 | ⟨h2, -⟩
      · exact absurd h1 h2.asymm
      · exact absurd h1 (h2 ▸ lt_irrefl _)
    · rcases h2 with h2 | ⟨-, hi2⟩
      · exact absurd h2 (hk ▸ lt_irrefl _)
      · exact le_antisymm hi1 hi2

/-! ## rows paged through -/

/-- a client that follows the pages from offset 0 sees every row once, in the one order there is, in
pages of at most `n` items -/
structure Paged (fetch : Int → Option (Page β)) (r : α → α → Prop) (rows : List α) (shown : α → β)
    (n : Nat) : Prop where
  ends : ∃ pages, Walk fetch 0 pages
  whole : ∃ l, Arranged r rows l ∧ ∀ pages, Walk fetch 0 pages → pages.flatten = l.map shown
  small : ∀ pages, Walk fetch 0 pages → ∀ p ∈ pages, p.length ≤ n

theorem Paged.of_slice {fetch : Int → Option (Page β)} {r : α → α → Prop} {rows l : List α}
    {shown : α → β} {n : Nat} (hn : 0 < n) (hl : Arranged r rows l)
    (hf : ∀ o, 0 ≤ o → fetch o = some (slice (l.map shown) n o)) :
    Paged fetch r rows shown n := by
  obtain ⟨pages, hw, hflat, hle⟩ := walk_slice hn hf (Int.le_refl 0)
  refine ⟨⟨pages, hw⟩, ⟨l, hl, fun ps hps => ?_⟩, fun ps hps => ?_⟩
  · rw [hps.unique hw, hflat]
    rfl
  · rw [hps.unique hw]
    exact hle

end Paging
