import Mathlib.Computability.Language

/-!
# Words over ranges of letters

The languages of character classes, as in a regular expression:

* `oneOf ranges`       `[a-bc-d…]`, the words of one letter;
* `mem_oneOf_mul`      a class in front of a language: a first letter, and then the rest;
* `mem_oneOf_kstar`    a class repeated: every letter is in it.
-/

namespace Grammar
open scoped Computability

variable {α : Type*} [LE α]

/-- the letter is in one of the ranges, their ends included -/
def InRanges (ranges : List (α × α)) (a : α) : Prop := ∃ r ∈ ranges, r.1 ≤ a ∧ a ≤ r.2

instance [DecidableLE α] (ranges : List (α × α)) (a : α) : Decidable (InRanges ranges a) :=
  inferInstanceAs (Decidable (∃ r ∈ ranges, r.1 ≤ a ∧ a ≤ r.2))

@[simp] theorem inRanges_nil (a : α) : ¬ InRanges [] a := by
  intro h
  obtain ⟨r, hr, -⟩ := h
  cases hr

@[simp] theorem inRanges_cons (r : α × α) (ranges : List (α × α)) (a : α) :
    InRanges (r :: ranges) a ↔ (r.1 ≤ a ∧ a ≤ r.2) ∨ InRanges ranges a := by
  unfold InRanges
  rw [List.exists_mem_cons_iff]

def oneOf (ranges : List (α × α)) : Language α := {w | ∃ a, w = [a] ∧ InRanges ranges a}

variable {ranges : List (α × α)}

theorem mem_oneOf {w : List α} : w ∈ oneOf ranges ↔ ∃ a, w = [a] ∧ InRanges ranges a := Iff.rfl

theorem mem_oneOf_mul {l : Language α} {w : List α} :
    w ∈ oneOf ranges * l ↔ ∃ a v, w = a :: v ∧ InRanges ranges a ∧ v ∈ l := by
  rw [Language.mem_mul]
  constructor
  · intro h
    obtain ⟨u, hu, v, hv, rfl⟩ := h
    obtain ⟨a, rfl, ha⟩ := mem_oneOf.mp hu
    exact ⟨a, v, rfl, ha, hv⟩
  · intro h
    obtain ⟨a, v, rfl, ha, hv⟩ := h
    exact ⟨[a], mem_oneOf.mpr ⟨a, rfl, ha⟩, v, hv, rfl⟩

theorem mem_oneOf_kstar {w : List α} : w ∈ (oneOf ranges)∗ ↔ ∀ a ∈ w, InRanges ranges a := by
  constructor
  · intro h
    obtain ⟨words, rfl, hwords⟩ := Language.mem_kstar.mp h
    intro a ha
    obtain ⟨u, hu, ha⟩ := List.mem_flatten.mp ha
    obtain ⟨b, rfl, hb⟩ := mem_oneOf.mp (hwords u hu)
    rw [List.mem_singleton.mp ha]
    exact hb
  · intro h
    induction w with
    | nil => exact Language.nil_mem_kstar _
    | cons a v ih =>
      have hv := ih fun b hb => h b (List.mem_cons_of_mem a hb)
      obtain ⟨words, hflat, hwords⟩ := Language.mem_kstar.mp hv
      refine Language.mem_kstar.mpr ⟨[a] :: words, ?_, ?_⟩
      · rw [List.flatten_cons, ← hflat]
        rfl
      · intro u hu
        cases hu with
        | head => exact mem_oneOf.mpr ⟨a, rfl, h a List.mem_cons_self⟩
        | tail _ hu => exact hwords u hu

end Grammar
