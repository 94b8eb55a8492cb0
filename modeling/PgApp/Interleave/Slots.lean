import Mathlib.Data.List.Basic
import Mathlib.Tactic.Ring

/-!
# A slot per session

`Slots α` keeps at most one value for each session: the open transaction of a session, say.  It is
a list, so that a statement can look whether ANY OTHER session holds something (`others`).
-/

namespace Interleave

/-- at most one `α` per session -/
abbrev Slots (α : Type) := List (Nat × α)

namespace Slots
variable {α : Type}

def get (l : Slots α) (s : Nat) : Option α := l.lookup s

def erase (l : Slots α) (s : Nat) : Slots α := l.filter fun p => p.1 != s

def set (l : Slots α) (s : Nat) (a : α) : Slots α := (s, a) :: l.erase s

/-- some session other than `s` holds a value with `p` -/
def others (l : Slots α) (s : Nat) (p : α → Bool) : Bool := l.any fun q => q.1 != s && p q.2

@[simp] theorem get_nil (s : Nat) : get ([] : Slots α) s = none := rfl

theorem get_cons (p : Nat × α) (l : Slots α) (s : Nat) :
    get (p :: l) s = if s = p.1 then some p.2 else get l s := by
  obtain ⟨t, a⟩ := p
  by_cases h : s = t
  · subst h; simp [get]
  · have h' : (s == t) = false := by simpa using h
    simp [get, List.lookup_cons, h', h]

theorem eq_nil {l : Slots α} (h : ∀ s, l.get s = none) : l = [] := by
  cases l with
  | nil => rfl
  | cons p l =>
    have hp := h p.1
    rw [get_cons, if_pos rfl] at hp
    cases hp

theorem get_erase (l : Slots α) (s t : Nat) :
    get (l.erase s) t = if t = s then none else get l t := by
  induction l with
  | nil => simp [erase]
  | cons p l ih =>
    have e : erase (p :: l) s = if p.1 = s then erase l s else p :: erase l s := by
      by_cases h : p.1 = s
      · simp [erase, h]
      · simp [erase, h]
    rw [e]
    by_cases h : p.1 = s
    · rw [if_pos h, ih, get_cons]
      by_cases ht : t = s
      · simp [ht]
      · have : t ≠ p.1 := by rw [h]; exact ht
        simp [ht, this]
    · rw [if_neg h, get_cons, get_cons, ih]
      by_cases ht : t = s
      · have : t ≠ p.1 := by rw [ht]; exact fun e => h e.symm
        simp only [if_neg this, if_pos ht]
      · simp only [if_neg ht]

@[simp] theorem get_erase_self (l : Slots α) (s : Nat) : get (l.erase s) s = none := by
  rw [get_erase, if_pos rfl]

theorem get_erase_ne (l : Slots α) {s t : Nat} (h : t ≠ s) : get (l.erase s) t = get l t := by
  rw [get_erase, if_neg h]

@[simp] theorem get_set_self (l : Slots α) (s : Nat) (a : α) : get (l.set s a) s = some a := by
  rw [set, get_cons, if_pos rfl]

theorem get_set_ne (l : Slots α) {s t : Nat} (a : α) (h : t ≠ s) :
    get (l.set s a) t = get l t := by
  rw [set, get_cons, if_neg h, get_erase_ne l h]

theorem mem_of_get {l : Slots α} {s : Nat} {a : α} (h : get l s = some a) : (s, a) ∈ l := by
  induction l with
  | nil => simp at h
  | cons p l ih =>
    rw [get_cons] at h
    by_cases e : s = p.1
    · rw [if_pos e] at h
      obtain ⟨t, b⟩ := p
      have h1 : b = a := Option.some.inj h
      have h2 : s = t := e
      rw [h1, h2]
      exact List.mem_cons_self
    · rw [if_neg e] at h
      exact List.mem_cons_of_mem _ (ih h)

/-- nobody else holds a value with `p`: so no slot of another session does -/
theorem not_of_others {l : Slots α} {s : Nat} {p : α → Bool} (h : l.others s p = false) {t : Nat}
    {a : α} (ht : t ≠ s) (hg : get l t = some a) : p a = false := by
  have hm := mem_of_get hg
  unfold others at h
  rw [List.any_eq_false] at h
  have h1 := h (t, a) hm
  simp only [bne_iff_ne, ne_eq, ht, not_false_eq_true, Bool.and_eq_true, true_and,
    Bool.not_eq_true] at h1
  simpa using h1

theorem get_map {β : Type} (f : α → β) (l : Slots α) (s : Nat) :
    get (l.map fun p => (p.1, f p.2)) s = (get l s).map f := by
  induction l with
  | nil => rfl
  | cons p l ih =>
    rw [List.map_cons, get_cons, get_cons, ih]
    split <;> rfl

/-! ## one slot written again -/

theorem erase_of_get {l : Slots α} {s : Nat} (h : get l s = none) : l.erase s = l := by
  induction l with
  | nil => rfl
  | cons p l ih =>
    rw [get_cons] at h
    by_cases e : s = p.1
    · rw [if_pos e] at h
      cases h
    · rw [if_neg e] at h
      have hp : (p.1 != s) = true := by simpa using Ne.symm e
      have hcons : erase (p :: l) s = p :: erase l s := by
        unfold erase
        rw [List.filter_cons, if_pos hp]
      rw [hcons, ih h]

@[simp] theorem erase_erase (l : Slots α) (s : Nat) : (l.erase s).erase s = l.erase s :=
  erase_of_get (get_erase_self l s)

@[simp] theorem erase_set (l : Slots α) (s : Nat) (a : α) : (l.set s a).erase s = l.erase s := by
  have hcons : (l.set s a).erase s = (l.erase s).erase s := by
    show List.filter _ ((s, a) :: l.erase s) = _
    rw [List.filter_cons, if_neg (by simp)]
    rfl
  rw [hcons, erase_erase]

@[simp] theorem set_set (l : Slots α) (s : Nat) (a b : α) : (l.set s a).set s b = l.set s b := by
  show (s, b) :: (l.set s a).erase s = _
  rw [erase_set]
  rfl

/-! ## totals over the slots -/

/-- the total weight of all slots -/
def total (w : α → Nat) (l : Slots α) : Nat := (l.map fun p => w p.2).sum

theorem total_cons (w : α → Nat) (p : Nat × α) (l : Slots α) :
    total w (p :: l) = w p.2 + total w l := by
  simp [total]

theorem total_erase_le (w : α → Nat) (l : Slots α) (s : Nat) : total w (l.erase s) ≤ total w l := by
  induction l with
  | nil => exact Nat.le_refl _
  | cons p l ih =>
    by_cases h : p.1 = s
    · have e : erase (p :: l) s = erase l s := by simp [erase, h]
      rw [e, total_cons]
      omega
    · have e : erase (p :: l) s = p :: erase l s := by simp [erase, h]
      rw [e, total_cons, total_cons]
      omega

theorem total_erase_add (w : α → Nat) {l : Slots α} {s : Nat} {a : α} (h : get l s = some a) :
    total w (l.erase s) + w a ≤ total w l := by
  induction l with
  | nil => simp at h
  | cons p l ih =>
    rw [get_cons] at h
    by_cases e : s = p.1
    · rw [if_pos e] at h
      have ha : p.2 = a := Option.some.inj h
      have he : erase (p :: l) s = erase l s := by simp [erase, e]
      have hle := total_erase_le w l s
      rw [he, total_cons, ha]
      omega
    · rw [if_neg e] at h
      have he : erase (p :: l) s = p :: erase l s := by
        have : ¬ p.1 = s := fun h => e h.symm
        simp [erase, this]
      have hi := ih h
      rw [he, total_cons, total_cons]
      omega

theorem total_set (w : α → Nat) (l : Slots α) (s : Nat) (a : α) :
    total w (l.set s a) = w a + total w (l.erase s) := total_cons w (s, a) _

/-! ## one session alone -/

@[simp] theorem others_nil (s : Nat) (p : α → Bool) : others ([] : Slots α) s p = false := rfl

@[simp] theorem erase_nil (s : Nat) : erase ([] : Slots α) s = [] := rfl

@[simp] theorem erase_set_nil (s : Nat) (a : α) : erase (set ([] : Slots α) s a) s = [] := by
  simp [set, erase]

@[simp] theorem set_set_nil (s : Nat) (a b : α) :
    set (set ([] : Slots α) s a) s b = set ([] : Slots α) s b := by
  simp [set, erase]

@[simp] theorem others_set_nil (s : Nat) (a : α) (p : α → Bool) :
    others (set ([] : Slots α) s a) s p = false := by
  simp [set, erase, others]

end Slots
end Interleave
