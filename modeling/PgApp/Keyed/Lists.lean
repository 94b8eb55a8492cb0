import Mathlib.Data.List.Sort
import Mathlib.Order.Lattice

/-!
# Lists in the order of a key

`Rising key l` says that the keys of `l` rise strictly.  Such a list is a finite map: it is known by
its members (`Rising.ext`), and an entry is put in or replaced at its place (`put`).

* `mem_put`               what is in the list then;
* `Rising.insertionSort`   rows with distinct keys, sorted, are such a list.
-/

namespace Keyed

variable {α β κ : Type} [LinearOrder κ] {key : α → κ} {l l' : List α} {x : α}

/-- the keys rise strictly -/
def Rising (key : α → κ) (l : List α) : Prop := l.Pairwise fun a b => key a < key b

/-- put an entry at its place, over the one with its key -/
def put (key : α → κ) (x : α) : List α → List α
  | [] => [x]
  | a :: l =>
    if key x < key a then x :: a :: l
    else if key x = key a then x :: l
    else a :: put key x l

namespace Rising

theorem nil : Rising key [] := List.Pairwise.nil

theorem nodup (h : Rising key l) : l.Nodup :=
  h.imp fun hab he => absurd (congrArg key he) (ne_of_lt hab)

theorem inj (h : Rising key l) {a b : α} (ha : a ∈ l) (hb : b ∈ l)
    (hk : key a = key b) : a = b := by
  have hn : (l.map key).Nodup := (List.pairwise_map.mpr h).imp fun hab => ne_of_lt hab
  exact List.inj_on_of_nodup_map hn ha hb hk

/-- **A list in the order of a key is known by its members.** -/
theorem ext (h : Rising key l) (h' : Rising key l') (hm : ∀ a, a ∈ l ↔ a ∈ l') : l = l' :=
  ((List.perm_ext_iff_of_nodup h.nodup h'.nodup).mpr hm).eq_of_pairwise
    (fun _ _ _ _ hab hba => absurd hab (lt_asymm hba)) h h'

theorem filter (h : Rising key l) (p : α → Bool) : Rising key (l.filter p) :=
  List.Pairwise.sublist List.filter_sublist h

theorem map {key' : β → κ} (h : Rising key l) {f : α → β} (hf : ∀ a ∈ l, key' (f a) = key a) :
    Rising key' (l.map f) := by
  unfold Rising
  rw [List.pairwise_map]
  refine List.Pairwise.imp_of_mem (fun ha hb hab => ?_) h
  rw [hf _ ha, hf _ hb]
  exact hab

end Rising

theorem mem_put (h : Rising key l) {a : α} : a ∈ put key x l ↔ a = x ∨ (a ∈ l ∧ key a ≠ key x) := by
  induction l with
  | nil =>
    unfold put
    simp
  | cons b l ih =>
    obtain ⟨hfirst, hrest⟩ := List.pairwise_cons.mp h
    unfold put
    split
    · rename_i hlt
      rw [List.mem_cons]
      refine or_congr_right ⟨fun ha => ⟨ha, ?_⟩, fun ha => ha.1⟩
      rcases List.mem_cons.mp ha with rfl | ha
      · exact ne_of_gt hlt
      · exact ne_of_gt (hlt.trans (hfirst a ha))
    · split
      · rename_i heq
        rw [List.mem_cons, List.mem_cons]
        refine or_congr_right ⟨fun ha => ⟨.inr ha, ?_⟩, fun ha => ?_⟩
        · rw [heq]
          exact ne_of_gt (hfirst a ha)
        · rcases ha with ⟨rfl | ha, hne⟩
          · exact absurd heq.symm hne
          · exact ha
      · rename_i hne
        rw [List.mem_cons, ih hrest, List.mem_cons]
        constructor
        · intro ha
          rcases ha with rfl | rfl | ⟨ha, hk⟩
          · exact .inr ⟨.inl rfl, fun he => hne he.symm⟩
          · exact .inl rfl
          · exact .inr ⟨.inr ha, hk⟩
        · intro ha
          rcases ha with rfl | ⟨rfl | ha, hk⟩
          · exact .inr (.inl rfl)
          · exact .inl rfl
          · exact .inr (.inr ⟨ha, hk⟩)

theorem Rising.put (h : Rising key l) : Rising key (Keyed.put key x l) := by
  induction l with
  | nil => exact List.pairwise_singleton _ _
  | cons b l ih =>
    obtain ⟨hfirst, hrest⟩ := List.pairwise_cons.mp h
    unfold Keyed.put
    split
    · rename_i hlt
      refine List.pairwise_cons.mpr ⟨fun a ha => ?_, h⟩
      rcases List.mem_cons.mp ha with rfl | ha
      · exact hlt
      · exact hlt.trans (hfirst a ha)
    · split
      · rename_i heq
        refine List.pairwise_cons.mpr ⟨fun a ha => ?_, hrest⟩
        rw [heq]
        exact hfirst a ha
      · rename_i hnlt hne
        refine List.pairwise_cons.mpr ⟨fun a ha => ?_, ih hrest⟩
        rcases (mem_put hrest).mp ha with rfl | ⟨ha, -⟩
        · exact lt_of_le_of_ne (le_of_not_gt hnlt) fun he => hne he.symm
        · exact hfirst a ha

theorem Rising.insertionSort (key : α → κ) [DecidableRel fun a b : α => key a ≤ key b]
    (h : (l.map key).Nodup) :
    Rising key (l.insertionSort fun a b => key a ≤ key b) := by
  have : Std.Total fun a b : α => key a ≤ key b := ⟨fun a b => le_total _ _⟩
  have : IsTrans α fun a b => key a ≤ key b := ⟨fun _ _ _ => le_trans⟩
  have hp := List.perm_insertionSort (fun a b : α => key a ≤ key b) l
  have hs := List.pairwise_insertionSort (fun a b : α => key a ≤ key b) l
  have hn : ((l.insertionSort fun a b => key a ≤ key b).map key).Nodup :=
    (hp.map key).nodup_iff.mpr h
  exact hs.imp₂ (fun a b hle hne => lt_of_le_of_ne hle hne) (List.pairwise_map.mp hn)

end Keyed
