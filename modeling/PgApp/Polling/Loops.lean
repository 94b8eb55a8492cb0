import Mathlib.Order.Basic
import Mathlib.Tactic.Linarith
import Mathlib.Tactic.Ring

/-!
# Polling until a deadline

A world has a clock; a probe of it takes no time and finds some items, or nothing, or fails; between
two probes the world passes some time.  `loop nap deadline` probes until something is found or the
deadline is over, and sleeps `nap` of the world in between:

* `fixed`     always the same interval;
* `clamped`   the interval, but not beyond the deadline.

The probes of both fall on the same moments as long as these are before the deadline
(`loop_on_time`).  After that the first one is late (`fixed_late`), so the two agree, and are on
time, exactly if something is found before or the interval divides the time there is (`agree_iff`).
-/

namespace Polling
variable {W E R : Type}

structure World (W E R : Type) where
  now : W → Int
  probe : W → Except E (List R) × W
  pass : Int → W → W
  now_probe : ∀ w, now (probe w).2 = now w
  now_pass : ∀ d w, now (pass d w) = now w + d

/-- a probe that ends a loop: it has found something, or failed -/
def World.Stops (v : World W E R) (w : W) : Prop := (v.probe w).1 ≠ .ok []

/-- a loop of at most so many rounds -/
def World.loop (v : World W E R) (nap : W → Int) (deadline : Int) :
    Nat → W → Option (Except E (List R) × W)
  | 0, _ => none
  | rounds + 1, w =>
    match v.probe w with
    | (.ok [], w') =>
      if deadline ≤ v.now w' then some (.ok [], w')
      else v.loop nap deadline rounds (v.pass (nap w') w')
    | found => some found

def World.fixed (v : World W E R) (interval deadline : Int) :
    Nat → W → Option (Except E (List R) × W) := v.loop (fun _ => interval) deadline

def World.clamped (v : World W E R) (interval deadline : Int) :
    Nat → W → Option (Except E (List R) × W) :=
  v.loop (fun w => min (deadline - v.now w) interval) deadline

/-- the world after some probes that found nothing, one interval after another -/
def World.after (v : World W E R) (interval : Int) : Nat → W → W
  | 0, w => w
  | k + 1, w => v.after interval k (v.pass interval (v.probe w).2)

section
variable (v : World W E R) {interval deadline : Int} {nap : W → Int}

theorem World.now_after (interval : Int) (k : Nat) (w : W) :
    v.now (v.after interval k w) = v.now w + k * interval := by
  induction k generalizing w with
  | zero => simp [World.after]
  | succ k ih =>
    rw [World.after, ih, v.now_pass, v.now_probe]
    push_cast
    ring

theorem World.loop_stops {w : W} (h : v.Stops w) (rounds : Nat) :
    v.loop nap deadline (rounds + 1) w = some (v.probe w) := by
  unfold World.Stops at h
  unfold World.loop
  split
  · rename_i w' hw
    rw [hw] at h
    exact absurd rfl h
  · rfl

theorem World.loop_ends {w : W} (hd : deadline ≤ v.now w) (rounds : Nat) :
    v.loop nap deadline (rounds + 1) w = some (v.probe w) := by
  by_cases h : v.Stops w
  · exact v.loop_stops h rounds
  · have hnow := v.now_probe w
    obtain ⟨r, w', hp⟩ : ∃ r w', v.probe w = (r, w') := ⟨_, _, rfl⟩
    have hr : r = .ok [] := by
      by_contra hne
      unfold World.Stops at h
      rw [hp] at h
      exact h hne
    subst hr
    rw [hp] at hnow
    unfold World.loop
    rw [hp]
    show (if deadline ≤ v.now w' then _ else _) = _
    rw [if_pos (hnow ▸ hd)]

theorem World.loop_step {w : W} (h : ¬ v.Stops w) (hd : v.now w < deadline) (rounds : Nat) :
    v.loop nap deadline (rounds + 1) w
      = v.loop nap deadline rounds (v.pass (nap (v.probe w).2) (v.probe w).2) := by
  have hnow := v.now_probe w
  obtain ⟨r, w', hp⟩ : ∃ r w', v.probe w = (r, w') := ⟨_, _, rfl⟩
  have hr : r = .ok [] := by
    by_contra hne
    unfold World.Stops at h
    rw [hp] at h
    exact h hne
  subst hr
  rw [hp] at hnow
  conv_lhs => unfold World.loop
  rw [hp]
  show (if deadline ≤ v.now w' then _ else _) = _
  rw [if_neg (by rw [hnow]; omega)]

/-- the first probe that ends a loop, at the deadline or before: a loop that naps the interval
while there is time for it gets there -/
theorem World.loop_on_time (hi : 0 < interval)
    (hnap : ∀ w, v.now w + interval ≤ deadline → nap w = interval) {k rounds : Nat} {w : W}
    (hrounds : k < rounds) (hbefore : ∀ j < k, ¬ v.Stops (v.after interval j w))
    (htime : v.now w + k * interval ≤ deadline)
    (hend : v.Stops (v.after interval k w) ∨ v.now w + k * interval = deadline) :
    v.loop nap deadline rounds w = some (v.probe (v.after interval k w)) := by
  induction k generalizing w rounds with
  | zero =>
    obtain ⟨rounds, rfl⟩ := Nat.exists_eq_add_one_of_ne_zero (Nat.ne_of_gt hrounds)
    rcases hend with hstops | hdeadline
    · exact v.loop_stops hstops rounds
    · refine v.loop_ends ?_ rounds
      simp only [Nat.cast_zero, zero_mul, add_zero] at hdeadline
      exact hdeadline.ge
  | succ k ih =>
    obtain ⟨rounds, rfl⟩ := Nat.exists_eq_add_one_of_ne_zero (Nat.ne_zero_of_lt hrounds)
    have hk : 0 ≤ (k : Int) * interval := Int.mul_nonneg (Int.natCast_nonneg k) hi.le
    have hsucc : ((k + 1 : Nat) : Int) * interval = k * interval + interval := by
      push_cast
      ring
    have hnow := v.now_probe w
    rw [hsucc] at htime hend
    have h0 : ¬ v.Stops w := hbefore 0 (Nat.succ_pos k)
    rw [v.loop_step h0 (by omega), hnap _ (by omega)]
    have hpass : v.now (v.pass interval (v.probe w).2) = v.now w + interval := by
      rw [v.now_pass, hnow]
    refine ih (Nat.lt_of_succ_lt_succ hrounds)
      (fun j hj => hbefore (j + 1) (Nat.succ_lt_succ hj)) ?_ ?_
    · rw [hpass]
      omega
    · refine hend.imp_right fun h => ?_
      rw [hpass]
      omega

/-- when nothing is found before the deadline, the loop with the fixed interval probes once more,
at the first of its moments that is not before it -/
theorem World.fixed_late (interval deadline : Int) (w : W) {k rounds : Nat} (hrounds : k < rounds)
    (hbefore : ∀ j < k, ¬ v.Stops (v.after interval j w) ∧ v.now w + j * interval < deadline)
    (htime : deadline ≤ v.now w + k * interval) :
    v.fixed interval deadline rounds w = some (v.probe (v.after interval k w)) := by
  induction k generalizing w rounds with
  | zero =>
    obtain ⟨rounds, rfl⟩ := Nat.exists_eq_add_one_of_ne_zero (Nat.ne_of_gt hrounds)
    refine v.loop_ends ?_ rounds
    simp only [Nat.cast_zero, zero_mul, add_zero] at htime
    exact htime
  | succ k ih =>
    obtain ⟨rounds, rfl⟩ := Nat.exists_eq_add_one_of_ne_zero (Nat.ne_zero_of_lt hrounds)
    obtain ⟨h0, hd⟩ : ¬ v.Stops w ∧ _ := hbefore 0 (Nat.succ_pos k)
    simp only [Nat.cast_zero, zero_mul, add_zero] at hd
    have hpass : v.now (v.pass interval (v.probe w).2) = v.now w + interval := by
      rw [v.now_pass, v.now_probe]
    unfold World.fixed
    rw [v.loop_step h0 hd]
    refine ih _ (Nat.lt_of_succ_lt_succ hrounds) (fun j hj => ?_) ?_
    · obtain ⟨h1, h2⟩ := hbefore (j + 1) (Nat.succ_lt_succ hj)
      refine ⟨h1, ?_⟩
      rw [hpass]
      push_cast at h2
      linarith
    · rw [hpass]
      push_cast at htime
      linarith

theorem World.clamped_nap (w : W) (h : v.now w + interval ≤ deadline) :
    min (deadline - v.now w) interval = interval := by omega

/-- what a probe has found -/
def found : Except E (List R) → List R
  | .ok items => items
  | .error _ => []

/-- **No item that a probe has taken is lost**: `taken` is what the probes took so far, and a loop
ends with all that it took. -/
theorem World.loop_found (taken : W → List R)
    (hprobe : ∀ w, taken (v.probe w).2 = taken w ++ found (v.probe w).1)
    (hpass : ∀ d w, taken (v.pass d w) = taken w) {rounds : Nat} {w w' : W} {r : Except E (List R)}
    (h : v.loop nap deadline rounds w = some (r, w')) : taken w' = taken w ++ found r := by
  induction rounds generalizing w with
  | zero => cases h
  | succ rounds ih =>
    by_cases hend : v.Stops w ∨ deadline ≤ v.now w
    · have hp : v.probe w = (r, w') := by
        rcases hend with hstops | hd
        · rw [v.loop_stops hstops] at h
          exact Option.some.inj h
        · rw [v.loop_ends hd] at h
          exact Option.some.inj h
      have hw := hprobe w
      rw [hp] at hw
      exact hw
    · push Not at hend
      rw [v.loop_step hend.1 hend.2] at h
      rw [ih h, hpass, hprobe]
      have hnil : found (v.probe w).1 = [] := by
        unfold World.Stops at hend
        rw [not_not.mp hend.1]
        rfl
      rw [hnil, List.append_nil]

/-! ## two loops -/

/-- the two loops end with one result at one moment, and not after the deadline -/
def World.AgreeOnTime (interval deadline : Int) (rounds : Nat) (w : W) : Prop :=
  ∃ r w₁ w₂, v.fixed interval deadline rounds w = some (r, w₁) ∧
    v.clamped interval deadline rounds w = some (r, w₂) ∧ v.now w₁ = v.now w₂ ∧
    v.now w₁ ≤ deadline ∧ (r = .ok [] → v.now w₁ = deadline)

/-- the condition: a probe before the deadline stops, or one falls on the deadline -/
def World.OnGrid (interval deadline : Int) (w : W) : Prop :=
  (∃ k : Nat, v.now w + k * interval < deadline ∧ v.Stops (v.after interval k w)) ∨
    interval ∣ deadline - v.now w

section
variable {v} {w : W} (hi : 0 < interval)
include hi

theorem World.le_div {k : Nat} (h : v.now w + k * interval ≤ deadline) :
    k ≤ ((deadline - v.now w) / interval).toNat := by
  have hdiv : (k : Int) ≤ (deadline - v.now w) / interval :=
    (Int.le_ediv_iff_mul_le hi).mpr (by omega)
  omega

variable (hd : v.now w ≤ deadline)
include hd

theorem World.OnGrid.agree (h : v.OnGrid interval deadline w) {rounds : Nat}
    (hrounds : ((deadline - v.now w) / interval).toNat + 1 < rounds) :
    v.AgreeOnTime interval deadline rounds w := by
  classical
  have hex : ∃ k : Nat, v.now w + k * interval ≤ deadline ∧
      (v.Stops (v.after interval k w) ∨ v.now w + k * interval = deadline) := by
    rcases h with ⟨k, htime, hstops⟩ | ⟨m, hm⟩
    · exact ⟨k, htime.le, .inl hstops⟩
    · have h0 : 0 ≤ m := by
        by_contra hneg
        have := Int.mul_neg_of_pos_of_neg hi (show m < 0 by omega)
        omega
      refine ⟨m.toNat, ?_⟩
      rw [Int.toNat_of_nonneg h0, Int.mul_comm m interval]
      exact ⟨by omega, .inr (by omega)⟩
  obtain ⟨htime, hend⟩ := Nat.find_spec hex
  have hk := World.le_div hi htime
  have hbefore : ∀ j < Nat.find hex, ¬ v.Stops (v.after interval j w) := by
    intro j hj hstops
    have hle : (j : Int) * interval ≤ Nat.find hex * interval :=
      Int.mul_le_mul_of_nonneg_right (by omega) hi.le
    exact Nat.find_min hex hj ⟨by omega, .inl hstops⟩
  have hnow : v.now (v.probe (v.after interval (Nat.find hex) w)).2
      = v.now w + Nat.find hex * interval := by rw [v.now_probe, v.now_after]
  refine ⟨_, _, _, v.loop_on_time hi (fun _ _ => rfl) (by omega) hbefore htime hend,
    v.loop_on_time hi v.clamped_nap (by omega) hbefore htime hend, rfl, hnow.le.trans htime, ?_⟩
  intro hr
  rw [hnow]
  exact hend.resolve_left fun hstops => hstops hr

/-- the two loops agree, and are on time, exactly if something stops a probe before the deadline or
the interval divides the time there is -/
theorem World.agree_iff {rounds : Nat}
    (hrounds : ((deadline - v.now w) / interval).toNat + 1 < rounds) :
    v.AgreeOnTime interval deadline rounds w ↔ v.OnGrid interval deadline w := by
  refine ⟨fun h => ?_, fun h => h.agree hi hd hrounds⟩
  by_contra hgrid
  unfold World.OnGrid at hgrid
  push Not at hgrid
  obtain ⟨hno, hdvd⟩ := hgrid
  have hdiv := Int.ediv_mul_le (deadline - v.now w) (Int.ne_of_gt hi)
  have hnext := Int.lt_ediv_add_one_mul_self (deadline - v.now w) hi
  have hpos : 0 ≤ (deadline - v.now w) / interval := Int.ediv_nonneg (by omega) hi.le
  have hne : (deadline - v.now w) / interval * interval ≠ deadline - v.now w := fun e =>
    hdvd ⟨_, (e.symm.trans (Int.mul_comm _ _))⟩
  have hlate := v.fixed_late interval deadline w hrounds
    (fun j hj => ?_) ?_
  · obtain ⟨r, w₁, w₂, hfixed, -, -, hle, -⟩ := h
    rw [hlate] at hfixed
    have hnow := congrArg (fun p => v.now p.2) (Option.some.inj hfixed)
    simp only [v.now_probe, v.now_after] at hnow
    push_cast at hnow
    rw [Int.toNat_of_nonneg hpos] at hnow
    omega
  · have hj' : (j : Int) ≤ (deadline - v.now w) / interval := by omega
    have hle : (j : Int) * interval ≤ (deadline - v.now w) / interval * interval :=
      Int.mul_le_mul_of_nonneg_right hj' hi.le
    have htime : v.now w + j * interval < deadline := by omega
    exact ⟨hno j htime, htime⟩
  · push_cast
    rw [Int.toNat_of_nonneg hpos]
    omega

end

end

end Polling
