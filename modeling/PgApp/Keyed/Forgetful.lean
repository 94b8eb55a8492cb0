import PgApp.Interleave.Serial

/-!
# Maps that forget

A cache is a map from keys to values that may lose an entry, but never makes one up.  `Forgetful`
says so of one statement: a key that it writes has what it wrote, and any other key has what it had,
or nothing where the statement is one that loses entries.

* `LastWritten k v h`       `v` was written to `k`, and nothing has been written to `k` since;
* `Forgetful.lastWritten`   whatever a run of such statements finds under a key was written there
last.
-/

namespace Keyed
open Interleave

variable {E K V : Type} {writes : E → K → V → Prop} {loses : E → K → Prop}

structure Forgetful (writes : E → K → V → Prop) (loses : E → K → Prop) (e : E)
    (m m' : K → Option V) :
    Prop where
  written : ∀ k v, writes e k v → m' k = some v
  rest : ∀ k, (∀ v, ¬ writes e k v) → m' k = m k ∨ (loses e k ∧ m' k = none)

/-- what was written to a key last, in a history with the newest first -/
def LastWritten (writes : E → K → V → Prop) (k : K) (v : V) (h : List E) : Prop :=
  ∃ h₁ e h₂, h = h₁ ++ e :: h₂ ∧ writes e k v ∧ ∀ d ∈ h₁, ∀ w, ¬ writes d k w

theorem LastWritten.head {k : K} {v : V} {e : E} {h : List E} (he : writes e k v) :
    LastWritten writes k v (e :: h) :=
  ⟨[], e, h, rfl, he, fun _ hd => absurd hd List.not_mem_nil⟩

theorem LastWritten.cons {k : K} {v : V} {h : List E} (hl : LastWritten writes k v h) {e : E}
    (he : ∀ w, ¬ writes e k w) : LastWritten writes k v (e :: h) := by
  obtain ⟨h₁, e', h₂, rfl, hw, hrest⟩ := hl
  refine ⟨e :: h₁, e', h₂, rfl, hw, fun d hd => ?_⟩
  rcases List.mem_cons.mp hd with rfl | hd
  · exact he
  · exact hrest d hd

/-- **What is found was written last.** -/
theorem Forgetful.lastWritten {h : List E} {m : K → Option V}
    (hs : Serial (Forgetful writes loses) (fun _ => none) h m) {k : K} {v : V} (hk : m k = some v) :
    LastWritten writes k v h := by
  induction hs generalizing v with
  | nil => cases hk
  | @cons e h m m' _ hd ih =>
    by_cases hw : ∃ w, writes e k w
    · obtain ⟨w, hw⟩ := hw
      have hv : some w = some v := (hd.written k w hw).symm.trans hk
      rw [Option.some.inj hv] at hw
      exact .head hw
    · have hno : ∀ w, ¬ writes e k w := fun w h => hw ⟨w, h⟩
      rcases hd.rest k hno with h1 | ⟨-, h1⟩
      · exact (ih (h1 ▸ hk)).cons hno
      · rw [h1] at hk
        cases hk

end Keyed
