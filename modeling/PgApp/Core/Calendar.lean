import PgApp.Core.Base

/-!
# Deadlines at the end of a calendar

A library of instants has a last one, and a longest duration; a deadline beyond them is a panic
(`chrono`, `std::time::Instant`) or a database error (PostgreSQL).  `Calendar.deadline` is the
sum where it exists.  Only durations from 0 on come here.

Instants are microseconds since 1970, those of `Instant` microseconds of its own clock.  PostgreSQL
multiplies the seconds as doubles: that rounding, of half a millisecond in the last millennia, is
left out.
-/

namespace PgApp

structure Calendar where
  longest : Int
  last : Int

/-- `now` and a number of seconds -/
def Calendar.deadline (cal : Calendar) (now : Time) (n : Int) : Option Time :=
  if n ≤ cal.longest ∧ now + seconds n ≤ cal.last then some (now + seconds n) else none

/-- `Utc::now() + ChronoDuration::seconds(n)`: `i64::MAX` milliseconds, and the last day of
262142 -/
def chrono : Calendar := ⟨9223372036854775, 8210266876799999999⟩

/-- `Instant::now() + Duration::from_secs(n as u64)`: a `timespec` counts its seconds in an i64 -/
def instant : Calendar := ⟨18446744073709551615, 9223372036854775807999999⟩

/-- `now() + n * interval '1 second'`: `i64::MAX` microseconds, and the last day of 294276 -/
def postgres : Calendar := ⟨9223372036854, 9224318015999999999⟩

/-- a TIMESTAMPTZ that PostgreSQL computes and `chrono` reads back -/
def decoded : Calendar := ⟨postgres.longest, chrono.last⟩

/-- the deadline exists -/
def Calendar.Fits (cal : Calendar) (now : Time) (n : Int) : Prop :=
  n ≤ cal.longest ∧ now + seconds n ≤ cal.last

instance (cal : Calendar) (now : Time) (n : Int) : Decidable (cal.Fits now n) :=
  inferInstanceAs (Decidable (_ ∧ _))

theorem Calendar.deadline_some {cal : Calendar} {now : Time} {n : Int} (h : cal.Fits now n) :
    cal.deadline now n = some (now + seconds n) := if_pos h

theorem Calendar.deadline_none {cal : Calendar} {now : Time} {n : Int} (h : ¬ cal.Fits now n) :
    cal.deadline now n = none := if_neg h

theorem Calendar.isSome_deadline (cal : Calendar) (now : Time) (n : Int) :
    (cal.deadline now n).isSome = true ↔ cal.Fits now n := by
  by_cases h : cal.Fits now n
  · rw [Calendar.deadline_some h]
    exact ⟨fun _ => h, fun _ => rfl⟩
  · rw [Calendar.deadline_none h]
    exact ⟨fun hsome => (by cases hsome), fun hfits => absurd hfits h⟩

theorem fits_def (cal : Calendar) (now : Int) (n : Int) :
    cal.Fits now n ↔ n ≤ cal.longest ∧ now + n * 1000000 ≤ cal.last := Iff.rfl

theorem Calendar.Fits.mono {cal : Calendar} {now now' n n' : Int} (h : cal.Fits now n)
    (hnow : now' ≤ now) (hn : n' ≤ n) : cal.Fits now' n' := by
  rw [fits_def] at h ⊢
  omega

end PgApp
