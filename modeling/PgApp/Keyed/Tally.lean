import Mathlib.Data.List.Basic
import Mathlib.Data.List.Nodup

/-!
# Sums by key

`entry` is what a hash map does at a key: change what is there, or the default if nothing is.
`tally` takes the elements of a list one after the other and adds each at its key.

Main result: `mem_tally`: at a key stands what the elements with that key add up to.
-/

namespace Keyed

variable {α β κ : Type} [DecidableEq κ]

/-- change the value at a key -/
def entry (zero : β) (k : κ) (f : β → β) : List (κ × β) → List (κ × β)
  | [] => [(k, f zero)]
  | (k', b) :: l => if k' = k then (k', f b) :: l else (k', b) :: entry zero k f l

/-- add the elements of a list, each at its key -/
def tally (zero : β) (key : α → κ) (add : α → β → β) (xs : List α) (l : List (κ × β)) :
    List (κ × β) :=
  xs.foldl (fun l x => entry zero (key x) (add x) l) l

section
variable {zero : β} {k : κ} {f : β → β} {l : List (κ × β)}

theorem lookup_cons_if (p : κ × β) (k : κ) :
    (p :: l).lookup k = if k = p.1 then some p.2 else l.lookup k := by
  rw [List.lookup_cons]
  by_cases h : k = p.1
  · rw [if_pos h, beq_iff_eq.mpr h]
  · rw [if_neg h, beq_eq_false_iff_ne.mpr h]

theorem lookup_entry (k' : κ) : (entry zero k f l).lookup k'
    = if k' = k then some (f ((l.lookup k).getD zero)) else l.lookup k' := by
  induction l with
  | nil => exact lookup_cons_if _ k'
  | cons p l ih =>
    unfold entry
    by_cases h1 : p.1 = k
    · rw [if_pos h1, lookup_cons_if, lookup_cons_if, lookup_cons_if, if_pos h1.symm, ← h1]
      split <;> rfl
    · rw [if_neg h1, lookup_cons_if, lookup_cons_if, lookup_cons_if, ih, if_neg (Ne.symm h1)]
      by_cases h : k' = p.1
      · rw [if_pos h, if_pos h, if_neg fun he => h1 (h.symm.trans he)]
      · rw [if_neg h, if_neg h]

theorem mem_keys_entry (k' : κ) :
    k' ∈ (entry zero k f l).map (·.1) ↔ k' = k ∨ k' ∈ l.map (·.1) := by
  induction l with
  | nil =>
    unfold entry
    simp
  | cons p l ih =>
    unfold entry
    split
    · rename_i h
      rw [List.map_cons, List.map_cons, List.mem_cons, h]
      exact ⟨.inr, fun hk => hk.elim .inl id⟩
    · rw [List.map_cons, List.map_cons, List.mem_cons, List.mem_cons, ih]
      exact or_left_comm

theorem nodup_entry (h : (l.map (·.1)).Nodup) : ((entry zero k f l).map (·.1)).Nodup := by
  induction l with
  | nil => exact List.nodup_singleton _
  | cons p l ih =>
    obtain ⟨hp, hl⟩ := List.nodup_cons.mp h
    unfold entry
    split
    · exact h
    · rename_i hne
      refine List.nodup_cons.mpr ⟨fun hm => ?_, ih hl⟩
      rcases (mem_keys_entry p.1).mp hm with he | hm
      · exact hne he
      · exact hp hm

end

theorem mem_iff_lookup {l : List (κ × β)} (h : (l.map (·.1)).Nodup) {k : κ} {b : β} :
    (k, b) ∈ l ↔ l.lookup k = some b := by
  induction l with
  | nil => simp
  | cons p l ih =>
    obtain ⟨hp, hl⟩ := List.nodup_cons.mp h
    rw [List.mem_cons, lookup_cons_if]
    by_cases hk : k = p.1
    · subst hk
      rw [if_pos rfl, Option.some.injEq]
      constructor
      · intro hm
        rcases hm with he | hm
        · exact (congrArg Prod.snd he).symm
        · exact absurd (List.mem_map_of_mem hm) hp
      · intro hb
        rw [← hb]
        exact .inl rfl
    · rw [if_neg hk, ih hl]
      exact or_iff_right fun he => hk (congrArg Prod.fst he)

section
variable {zero : β} {key : α → κ} {add : α → β → β}

theorem nodup_tally {xs : List α} {l : List (κ × β)} (h : (l.map (·.1)).Nodup) :
    ((tally zero key add xs l).map (·.1)).Nodup := by
  induction xs generalizing l with
  | nil => exact h
  | cons x xs ih => exact ih (nodup_entry h)

/-- the elements with a key -/
def at_ (key : α → κ) (k : κ) (xs : List α) : List α := xs.filter fun x => key x = k

theorem lookup_tally (xs : List α) (l : List (κ × β)) (k : κ) : (tally zero key add xs l).lookup k
    = if at_ key k xs = [] then l.lookup k
      else some ((at_ key k xs).foldl (fun b x => add x b) ((l.lookup k).getD zero)) := by
  induction xs generalizing l with
  | nil => rfl
  | cons x xs ih =>
    show (tally zero key add xs (entry zero (key x) (add x) l)).lookup k = _
    rw [ih, lookup_entry]
    by_cases hx : key x = k
    · subst hx
      have hcons : at_ key (key x) (x :: xs) = x :: at_ key (key x) xs :=
        List.filter_cons_of_pos (decide_eq_true rfl)
      rw [hcons, if_pos rfl, if_neg (List.cons_ne_nil _ _), List.foldl_cons]
      split
      · rename_i hnil
        rw [hnil]
        rfl
      · rfl
    · have hcons : at_ key k (x :: xs) = at_ key k xs :=
        List.filter_cons_of_neg (by simpa using hx)
      rw [hcons, if_neg (Ne.symm hx)]

/-- **At a key stands what the elements with that key add up to.** -/
theorem mem_tally {xs : List α} {k : κ} {b : β} : (k, b) ∈ tally zero key add xs [] ↔
    at_ key k xs ≠ [] ∧ b = (at_ key k xs).foldl (fun b x => add x b) zero := by
  have hn : ((tally zero key add xs []).map (·.1)).Nodup := nodup_tally (by simp)
  rw [mem_iff_lookup hn, lookup_tally]
  by_cases h : at_ key k xs = []
  · simp [h]
  · rw [if_neg h]
    simp only [Option.some.injEq, ne_eq, h, not_false_eq_true, true_and]
    exact eq_comm

end

end Keyed
