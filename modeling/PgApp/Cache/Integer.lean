import PgApp.Cache.Tables

/-!
# Integers as cache values

`increment` and `decrement` keep an i64 as its decimal text:

    parseI64Value    `str::from_utf8` and `str::parse::<i64>`: an optional sign, then at least one
                     ASCII digit, and the number in the i64 range (bytes that are no UTF-8 text have
                     a byte that is no digit, and meet the same error);
    decimal          `i64::to_string`;
    checkedAdd, checkedNeg

`parseI64Value_decimal` is the round trip, and `parseI64_iff` says which texts are read and as what
(`Denotes`).
-/

namespace PgApp

def i64Min : Int := -9223372036854775808
def i64Max : Int := 9223372036854775807

def inI64 (v : Int) : Prop := i64Min ≤ v ∧ v ≤ i64Max

instance (v : Int) : Decidable (inI64 v) := inferInstanceAs (Decidable (_ ∧ _))

/-- `i64::checked_add` -/
def checkedAdd (a b : Int) : Option Int := if inI64 (a + b) then some (a + b) else none

/-- `i64::checked_neg` -/
def checkedNeg (a : Int) : Option Int := if inI64 (-a) then some (-a) else none

/-- `i64::to_string`, as bytes -/
def decimalNat (n : Nat) : Bytes := (Nat.toDigits 10 n).map fun c => UInt8.ofNat c.toNat

def decimal (v : Int) : Bytes := if v < 0 then 45 :: decimalNat v.natAbs else decimalNat v.natAbs

/-- the value of an ASCII digit -/
def digitOf (b : UInt8) : Option Nat :=
  if 48 ≤ b.toNat ∧ b.toNat ≤ 57 then some (b.toNat - 48) else none

/-- the digits after the number `n` -/
def digitsValue : Bytes → Nat → Option Nat
  | [], n => some n
  | b :: bs, n =>
    match digitOf b with
    | none => none
    | some d => digitsValue bs (10 * n + d)

/-- the sign of `str::parse` -/
def splitSign : Bytes → Bool × Bytes
  | [] => (false, [])
  | b :: bs => if b = 45 then (true, bs) else if b = 43 then (false, bs) else (false, b :: bs)

/-- `str::parse::<i64>` -/
def parseI64 (text : Bytes) : Option Int :=
  let p := splitSign text
  if p.2.isEmpty then none
  else
    match digitsValue p.2 0 with
    | none => none
    | some n =>
      let v : Int := if p.1 then -(n : Int) else n
      if inI64 v then some v else none

def parseI64Value (value : Bytes) : PgAppResult Int :=
  match parseI64 value with
  | some v => .ok v
  | none => .error (.invalidArgument "cache value is not a numeric i64")

example : parseI64Value [45, 49, 50] = .ok (-12) := by decide
example : (parseI64Value []).toOption = none ∧ (parseI64Value [43]).toOption = none := by decide

/-! ## the round trip -/

theorem digitsValue_cons (x : UInt8) (a : Bytes) (n : Nat) :
    digitsValue (x :: a) n = (digitOf x).bind fun d => digitsValue a (10 * n + d) := by
  show (match digitOf x with
    | none => none
    | some d => digitsValue a (10 * n + d)) = _
  cases digitOf x <;> rfl

theorem digitsValue_append (a b : Bytes) (n : Nat) :
    digitsValue (a ++ b) n = (digitsValue a n).bind (digitsValue b) := by
  induction a generalizing n with
  | nil => rfl
  | cons x a ih =>
    rw [List.cons_append, digitsValue_cons, digitsValue_cons]
    cases digitOf x with
    | none => rfl
    | some d => exact ih _

theorem digitOf_digitChar {d : Nat} (h : d < 10) :
    digitOf (UInt8.ofNat (Nat.digitChar d).toNat) = some d := by
  have hall : ∀ d : Fin 10, digitOf (UInt8.ofNat (Nat.digitChar d).toNat) = some d.1 := by decide
  exact hall ⟨d, h⟩

theorem digitsValue_digit {d : Nat} (h : d < 10) (n : Nat) :
    digitsValue [UInt8.ofNat (Nat.digitChar d).toNat] n = some (10 * n + d) := by
  rw [digitsValue_cons, digitOf_digitChar h]
  rfl

theorem digitsValue_decimalNat (n : Nat) : digitsValue (decimalNat n) 0 = some n := by
  induction n using Nat.strongRecOn with
  | _ n ih =>
    unfold decimalNat
    rw [Nat.toDigits_eq_if (by decide)]
    by_cases h : n < 10
    · rw [if_pos h]
      show digitsValue [UInt8.ofNat (Nat.digitChar n).toNat] 0 = some n
      rw [digitsValue_digit h]
      simp
    · rw [if_neg h, List.map_append, digitsValue_append]
      have hi := ih (n / 10) (by omega)
      unfold decimalNat at hi
      rw [hi]
      show digitsValue [UInt8.ofNat (Nat.digitChar (n % 10)).toNat] (n / 10) = some n
      rw [digitsValue_digit (Nat.mod_lt n (by decide))]
      have : 10 * (n / 10) + n % 10 = n := Nat.div_add_mod n 10
      rw [this]

theorem decimalNat_ne_nil (n : Nat) : decimalNat n ≠ [] := by
  unfold decimalNat
  simp only [ne_eq, List.map_eq_nil_iff]
  exact Nat.toDigits_ne_nil

theorem splitSign_of_digits {bs : Bytes} {n m : Nat} (h : digitsValue bs n = some m) :
    splitSign bs = (false, bs) := by
  cases bs with
  | nil => rfl
  | cons b bs =>
    unfold digitsValue at h
    have h45 : b ≠ 45 := by
      rintro rfl
      simp [digitOf] at h
    have h43 : b ≠ 43 := by
      rintro rfl
      simp [digitOf] at h
    show (if b = 45 then _ else if b = 43 then _ else _) = _
    rw [if_neg h45, if_neg h43]

theorem parseI64_decimal {v : Int} (h : inI64 v) : parseI64 (decimal v) = some v := by
  have hd := digitsValue_decimalNat v.natAbs
  have hne : (decimalNat v.natAbs).isEmpty = false := by
    simpa using decimalNat_ne_nil v.natAbs
  unfold parseI64 decimal
  by_cases hv : v < 0
  · have hs : splitSign (45 :: decimalNat v.natAbs) = (true, decimalNat v.natAbs) := by
      simp [splitSign]
    have e : -(v.natAbs : Int) = v := by omega
    simp only [hv, if_true, hs, hne, Bool.false_eq_true, if_false, hd, e, h]
  · have hs := splitSign_of_digits hd
    have e : (v.natAbs : Int) = v := by omega
    simp only [hv, hs, hne, Bool.false_eq_true, if_false, hd, e, h, if_true]

theorem parseI64Value_decimal {v : Int} (h : inI64 v) : parseI64Value (decimal v) = .ok v := by
  unfold parseI64Value
  rw [parseI64_decimal h]

theorem decimal_length {v : Int} (h : inI64 v) : (decimal v).length ≤ 20 := by
  have hlt : v.natAbs < 10 ^ 19 := by
    unfold inI64 i64Min i64Max at h
    omega
  have hd : (decimalNat v.natAbs).length ≤ 19 := by
    unfold decimalNat
    rw [List.length_map]
    exact (Nat.length_toDigits_le_iff (by decide) (by decide)).mpr hlt
  unfold decimal
  split
  · rw [List.length_cons]
    omega
  · omega

/-! ## what is read -/

/-- the number that ASCII digits denote -/
def numberOf (digits : Bytes) : Nat := digits.foldl (fun n b => 10 * n + (b.toNat - 48)) 0

/-- an optional sign, then at least one ASCII digit, and the number they denote -/
def Denotes (text : Bytes) (v : Int) : Prop :=
  ∃ digits : Bytes, digits ≠ [] ∧ (∀ b ∈ digits, 48 ≤ b.toNat ∧ b.toNat ≤ 57) ∧
    (((text = digits ∨ text = 43 :: digits) ∧ v = numberOf digits) ∨
      (text = 45 :: digits ∧ v = -(numberOf digits : Int)))

theorem digitOf_iff {b : UInt8} {d : Nat} :
    digitOf b = some d ↔ (48 ≤ b.toNat ∧ b.toNat ≤ 57) ∧ d = b.toNat - 48 := by
  unfold digitOf
  by_cases h : 48 ≤ b.toNat ∧ b.toNat ≤ 57
  · rw [if_pos h]
    exact ⟨fun e => ⟨h, (Option.some.inj e).symm⟩, fun e => congrArg some e.2.symm⟩
  · rw [if_neg h]
    exact ⟨fun e => (by cases e), fun e => absurd e.1 h⟩

theorem digitsValue_iff {bs : Bytes} {n m : Nat} : digitsValue bs n = some m ↔
    (∀ b ∈ bs, 48 ≤ b.toNat ∧ b.toNat ≤ 57) ∧
      m = bs.foldl (fun n b => 10 * n + (b.toNat - 48)) n := by
  induction bs generalizing n with
  | nil =>
    refine ⟨fun h => ⟨fun b hb => (by cases hb), (Option.some.inj h).symm⟩, fun h => ?_⟩
    exact congrArg some h.2.symm
  | cons b bs ih =>
    rw [digitsValue_cons, Option.bind_eq_some_iff, List.forall_mem_cons, List.foldl_cons]
    constructor
    · intro hex
      obtain ⟨d, hd, hm⟩ := hex
      obtain ⟨hb, rfl⟩ := digitOf_iff.mp hd
      obtain ⟨hbs, rfl⟩ := ih.mp hm
      exact ⟨⟨hb, hbs⟩, rfl⟩
    · intro hex
      obtain ⟨⟨hb, hbs⟩, rfl⟩ := hex
      exact ⟨_, digitOf_iff.mpr ⟨hb, rfl⟩, ih.mpr ⟨hbs, rfl⟩⟩

theorem text_of_split (text : Bytes) :
    ((splitSign text).1 = true ∧ text = 45 :: (splitSign text).2) ∨
      ((splitSign text).1 = false ∧ (text = (splitSign text).2 ∨
          text = 43 :: (splitSign text).2)) := by
  cases text with
  | nil => exact .inr ⟨rfl, .inl rfl⟩
  | cons b bs =>
    by_cases h45 : b = 45
    · have hs : splitSign (b :: bs) = (true, bs) := if_pos h45
      rw [hs, h45]
      exact .inl ⟨rfl, rfl⟩
    · by_cases h43 : b = 43
      · have hs : splitSign (b :: bs) = (false, bs) := (if_neg h45).trans (if_pos h43)
        rw [hs, h43]
        exact .inr ⟨rfl, .inr rfl⟩
      · have hs : splitSign (b :: bs) = (false, b :: bs) := (if_neg h45).trans (if_neg h43)
        rw [hs]
        exact .inr ⟨rfl, .inl rfl⟩

/-- **What `str::parse::<i64>` reads.** -/
theorem parseI64_iff {text : Bytes} {v : Int} : parseI64 text = some v ↔ Denotes text v ∧
    inI64 v := by
  constructor
  · intro h
    unfold parseI64 at h
    simp only at h
    split at h
    · cases h
    · rename_i hne
      split at h
      · cases h
      · rename_i n hn
        obtain ⟨hdigits, rfl⟩ := digitsValue_iff.mp hn
        have hne' : (splitSign text).2 ≠ [] := by simpa using hne
        rcases text_of_split text with ⟨hs, ht⟩ | ⟨hs, ht⟩
        · simp only [hs, if_true] at h
          obtain ⟨hv, he⟩ := Option.ite_none_right_eq_some.mp h
          cases he
          exact ⟨⟨_, hne', hdigits, .inr ⟨ht, rfl⟩⟩, hv⟩
        · simp only [hs, Bool.false_eq_true, if_false] at h
          obtain ⟨hv, he⟩ := Option.ite_none_right_eq_some.mp h
          cases he
          exact ⟨⟨_, hne', hdigits, .inl ⟨ht, rfl⟩⟩, hv⟩
  · intro hex
    obtain ⟨⟨digits, hne, hdigits, hsign⟩, hv⟩ := hex
    have hn : digitsValue digits 0 = some (numberOf digits) := digitsValue_iff.mpr ⟨hdigits, rfl⟩
    have he : digits.isEmpty = false := by simpa using hne
    rcases hsign with ⟨ht | ht, rfl⟩ | ⟨ht, rfl⟩
    · subst ht
      have hs := splitSign_of_digits hn
      simp only [parseI64, hs, he, Bool.false_eq_true, if_false, hn, hv, if_true]
    · subst ht
      have hs : splitSign (43 :: digits) = (false, digits) := by simp [splitSign]
      simp only [parseI64, hs, he, Bool.false_eq_true, if_false, hn, hv, if_true]
    · subst ht
      have hs : splitSign (45 :: digits) = (true, digits) := by simp [splitSign]
      simp only [parseI64, hs, he, Bool.false_eq_true, if_false, hn, hv, if_true]

end PgApp
