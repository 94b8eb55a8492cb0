import PgApp.Cache.WriteCases

/-!
# `increment` and `decrement`

What the two do to the entry of a key, when they run alone:

* `addTo_iff`, `addTo_error`   the change as arithmetic on what the bytes denote;
* `integer_cases`              a call either writes the sum, or fails and changes no entry (with
another
                               error than InvalidArgument if PostgreSQL does not take its key or
                               ttl);
* `Counted`                    a sequence of successful calls, each of which finds the entry live,
with
                               the amounts and the values returned (`Counted.sums`, by induction on
                               it).

Main result: `cache_integer`.
-/

namespace PgApp
open Interleave CacheProg

/-- an `increment` or `decrement` of the key, by an i64 -/
inductive IntegerOp (ns key : String) : CacheOp → Prop
  | increment {delta : Int} (ttl : Option Int) (h : inI64 delta) :
      IntegerOp ns key (.increment ns key delta ttl)
  | decrement {delta : Int} (ttl : Option Int) (h : inI64 delta) :
      IntegerOp ns key (.decrement ns key delta ttl)

/-- what is added to the number: `-i64::MIN` is no i64 -/
def CacheOp.amount : CacheOp → Option Int
  | .increment _ _ delta _ => some delta
  | .decrement _ _ delta _ => if delta = i64Min then none else some (-delta)
  | _ => none

/-- `v` is the amount `a` added to the number found, if there is one -/
def Sums (found : Option Bytes) (a v : Int) : Prop :=
  match found with
  | none => v = a
  | some text => ∃ n, Denotes text n ∧ inI64 n ∧ v = n + a ∧ inI64 v

/-- the call is valid and makes `v` of the value found -/
def CacheOp.Yields (op : CacheOp) (ns key : String) (found : Option Bytes) (v : Int) : Prop :=
  validateWrite ns key op.ttl = .ok () ∧ ∃ a, op.amount = some a ∧ Sums found a v

/-! ## the arithmetic -/

theorem addTo_iff {a v : Int} {found : Option Bytes} {text : Bytes} :
    addTo a found = .ok (text, v) ↔ text = decimal v ∧ Sums found a v := by
  cases found with
  | none =>
    constructor
    · intro h
      cases h
      exact ⟨rfl, rfl⟩
    · intro hex
      obtain ⟨rfl, h⟩ := hex
      cases h
      rfl
  | some old =>
    unfold addTo parseI64Value
    cases hp : parseI64 old with
    | none =>
      simp only [hp]
      constructor
      · intro h
        cases h
      · intro h
        obtain ⟨-, n, hd, hn, -⟩ := h
        rw [parseI64_iff.mpr ⟨hd, hn⟩] at hp
        cases hp
    | some current =>
      have hsum : ∀ w : Int, Sums (some old) a w ↔ w = current + a ∧ inI64 w := by
        intro w
        constructor
        · intro hex
          obtain ⟨n, hd, hn, hw, hr⟩ := hex
          rw [parseI64_iff.mpr ⟨hd, hn⟩] at hp
          cases hp
          exact ⟨hw, hr⟩
        · intro hex
          obtain ⟨hw, hr⟩ := hex
          exact ⟨current, (parseI64_iff.mp hp).1, (parseI64_iff.mp hp).2, hw, hr⟩
      rw [hsum]
      unfold checkedAdd
      by_cases hr : inI64 (current + a)
      · simp only [hp, hr, if_true]
        constructor
        · intro h
          cases h
          exact ⟨rfl, rfl, hr⟩
        · intro hex
          obtain ⟨rfl, rfl, -⟩ := hex
          rfl
      · simp only [hp, hr, if_false]
        constructor
        · intro h
          cases h
        · intro h
          obtain ⟨-, hw, hr'⟩ := h
          rw [hw] at hr'
          exact absurd hr' hr

theorem addTo_error {a : Int} {found : Option Bytes} {e : PgAppError}
    (h : addTo a found = .error e) :
    ∃ msg, e = .invalidArgument msg := by
  cases found with
  | none => cases h
  | some old =>
    unfold addTo parseI64Value at h
    cases hp : parseI64 old with
    | none =>
      simp only [hp] at h
      cases h
      exact ⟨_, rfl⟩
    | some current =>
      simp only [hp] at h
      cases hc : checkedAdd current a with
      | none =>
        simp only [hc] at h
        cases h
        exact ⟨_, rfl⟩
      | some new =>
        simp only [hc] at h
        cases h

theorem negated_eq {delta : Int} (h : inI64 delta) :
    (delta = i64Min ∧ negated delta = .error (.invalidArgument "delta is too large to decrement")) ∨
      (delta ≠ i64Min ∧ negated delta = .ok (-delta)) := by
  unfold negated checkedNeg
  by_cases hd : delta = i64Min
  · subst hd
    exact .inl ⟨rfl, rfl⟩
  · have hr : inI64 (-delta) := by
      unfold inI64 i64Min i64Max at *
      omega
    rw [if_pos hr]
    exact .inr ⟨hd, rfl⟩

theorem validateIdentifier_error {field value : String} {e : PgAppError}
    (h : validateIdentifier field value = .error e) : ∃ msg, e = .invalidArgument msg := by
  unfold validateIdentifier at h
  split at h
  · cases h
    exact ⟨_, rfl⟩
  · split at h
    · cases h
      exact ⟨_, rfl⟩
    · split at h
      · cases h
        exact ⟨_, rfl⟩
      · split at h
        · cases h
          exact ⟨_, rfl⟩
        · split at h
          · cases h
            exact ⟨_, rfl⟩
          · cases h

theorem validateWrite_error {ns key : String} {ttl : Option Int} {e : PgAppError}
    (h : validateWrite ns key ttl = .error e) : ∃ msg, e = .invalidArgument msg := by
  unfold validateWrite at h
  cases h1 : validateNamespace ns with
  | error e₁ =>
    rw [h1] at h
    cases h
    exact validateIdentifier_error h1
  | ok _ =>
    rw [h1] at h
    cases h2 : validateCacheKey key with
    | error e₂ =>
      rw [h2] at h
      cases h
      unfold validateCacheKey at h2
      split at h2
      · cases h2
        exact ⟨_, rfl⟩
      · split at h2
        · cases h2
          exact ⟨_, rfl⟩
        · cases h2
    | ok _ =>
      rw [h2] at h
      have h3 : validateTtlSeconds ttl = .error e := h
      unfold validateTtlSeconds at h3
      split at h3
      · cases h3
      · split at h3
        · cases h3
          exact ⟨_, rfl⟩
        · cases h3

/-! ## one call -/

section
variable {s : Nat} {c : CacheCtx} {db : CacheDb} {store : CacheStore} {rounds : Nat}
  {ns key : String}
variable {op : CacheOp}

/-- the body of an integer call: the checks of `decrement`, then `add_integer` -/
theorem integer_body (store : CacheStore) (rounds : Nat) (hop : IntegerOp ns key op) :
    (op.amount = none ∧ CacheCall.body ⟨store, rounds, op⟩
      = Prog.throw (.invalidArgument "delta is too large to decrement")) ∨
    ∃ a, op.amount = some a ∧ CacheCall.body ⟨store, rounds, op⟩
      = (store.atomicWrite rounds ns key op.ttl true (addTo a) >>= fun n => pure (.int n)) := by
  cases hop with
  | @increment delta ttl h => exact .inr ⟨delta, rfl, rfl⟩
  | @decrement delta ttl h =>
    have hbody : CacheCall.body ⟨store, rounds, .decrement ns key delta ttl⟩
        = ((Prog.check (negated delta) >>= fun d => store.addInteger rounds ns key d ttl)
          >>= fun n => pure (.int n)) := rfl
    rcases negated_eq h with ⟨hd, hn⟩ | ⟨hd, hn⟩
    · left
      refine ⟨if_pos hd, ?_⟩
      rw [hbody, hn]
      rfl
    · right
      refine ⟨-delta, if_neg hd, ?_⟩
      rw [hbody, hn]
      rfl

/-- the call stores the text of `v` at the key and returns `v`, and the capacity is enforced then -/
def AddsUp (store : CacheStore) (s : Nat) (c : CacheCtx) (rounds : Nat) (db : CacheDb)
    (op : CacheOp)
    (ns key : String) (v : Int) (d : CacheDb) : Prop :=
  ∃ r, r.Holds ns ((db.generationOf ns).getD 0) (store.hashKey key) key (decimal v)
      (store.expiryAfter db c.now op ns key) ∧
    store.Leaves s c rounds db ns key (CacheCall.body ⟨store, rounds, op⟩) r (.int v) d

/-- the call fails with InvalidArgument and no entry changes -/
def FailsUnchanged (s : Nat) (c : CacheCtx) (db : CacheDb) (call : CacheCall) : Prop :=
  ∃ msg d, call.body.alone s c db = some (.error (.invalidArgument msg), d) ∧ d.entries = db.entries

/-- the call fails, with whatever error, and no entry changes -/
def ErrsUnchanged (s : Nat) (c : CacheCtx) (db : CacheDb) (call : CacheCall) : Prop :=
  ∃ e d, call.body.alone s c db = some (.error e, d) ∧ d.entries = db.entries

/-- **One call.** -/
theorem integer_cases (h : db.Ok) (htx : db.txs = []) (hsizes : ∀ x ∈ db.entries, 0 ≤ x.sizeBytes)
    (hfree : ¬ db.Collides ns ((db.generationOf ns).getD 0) (store.hashKey key) key)
    (hop : IntegerOp ns key op) (rounds : Nat) :
    (FailsUnchanged s c db ⟨store, rounds, op⟩ ∧
      ∀ v, ¬ op.Yields ns key (store.valueAt db c.now ns key) v) ∨
    (¬ Bindable c.now key op.ttl ∧ ErrsUnchanged s c db ⟨store, rounds, op⟩) ∨
    (Bindable c.now key op.ttl ∧ ∃ v d, op.Yields ns key (store.valueAt db c.now ns key) v ∧
      AddsUp store s c rounds db op ns key v d) := by
  rcases integer_body store rounds hop with ⟨hnone, hbody⟩ | ⟨a, ha, hbody⟩
  · refine .inl ⟨⟨"delta is too large to decrement", db, ?_, rfl⟩, fun v ⟨_, a, ha, _⟩ => ?_⟩
    · rw [hbody]
      rfl
    · rw [hnone] at ha
      cases ha
  · cases hv : validateWrite ns key op.ttl with
    | error e =>
      obtain ⟨msg, rfl⟩ := validateWrite_error hv
      refine .inl ⟨⟨msg, db, ?_, rfl⟩, fun v hy => ?_⟩
      · rw [hbody]
        unfold CacheStore.atomicWrite
        rw [hv]
        rfl
      · rw [hy.1] at hv
        cases hv
    | ok u =>
      by_cases hb : Bindable c.now key op.ttl
      case neg =>
        obtain ⟨d, hrun, hd⟩ := atomic_declined (s := s) store rounds h htx hv hb true (addTo a)
        have hfail := alone_bind_error (k := fun n => pure (CacheReturn.int n)) hrun
        rw [← hbody] at hfail
        exact .inr (.inl ⟨hb, _, d, hfail, hd.entries.trans (ensure_entries db ns c.now)⟩)
      cases hf : addTo a (store.valueAt db c.now ns key) with
      | error e =>
        obtain ⟨msg, rfl⟩ := addTo_error hf
        refine .inl ⟨⟨msg, _, ?_, ensure_entries db ns c.now⟩, fun v ⟨_, a', ha', hs⟩ => ?_⟩
        · rw [hbody]
          exact alone_bind_error (atomic_fails store rounds h htx hv hb.key hf)
        · rw [ha] at ha'
          cases ha'
          rw [addTo_iff.mpr ⟨rfl, hs⟩] at hf
          cases hf
      | ok p =>
        obtain ⟨text, v⟩ := p
        obtain ⟨rfl, hs⟩ := addTo_iff.mp hf
        have hw₀ : WritesRow s c store rounds db ns key
            (store.atomicWrite rounds ns key op.ttl true (addTo a)) _ v :=
          atomic_writesRow store rounds h htx hv hb hfree hf
        have hw := hw₀.map CacheReturn.int
        rw [← hbody] at hw
        have hh := changed_holds db ns ((db.generationOf ns).getD 0)
          (store.hashKey key) key (decimal v)
          op.ttl true c.now
        have hpos : 0 ≤ (db.changed ns ((db.generationOf ns).getD 0)
          (store.hashKey key) key (decimal v)
            op.ttl true c.now).sizeBytes := by
          rw [hh.size]
          exact Int.natCast_nonneg _
        obtain ⟨d, L⟩ := hw.leaves hh.isIn (changed_not_expired hv db _ _ _ _) hpos hsizes
        have he : store.expiryAfter db c.now op ns key
            = db.changedExpiry ns ((db.generationOf ns).getD 0) (store.hashKey key) key op.ttl
              true c.now := by
          cases hop <;> rfl
        exact .inr (.inr ⟨hb, v, d, ⟨hv, a, ha, hs⟩, _, he ▸ hh, L⟩)

end

/-! ## sequences of calls -/

/-- successful calls one after the other, each of which finds the entry live: their amounts and what
they return -/
inductive Counted (store : CacheStore) (ns key : String) : CacheDb → List (Int × Int) →
    CacheDb → Prop
  | nil (db : CacheDb) : Counted store ns key db [] db
  | cons {db d db' : CacheDb} {op : CacheOp} {a v : Int} {l : List (Int × Int)} (s : Nat)
    (c : CacheCtx)
      (rounds : Nat) (hop : IntegerOp ns key op) (ha : op.amount = some a)
      (hlive : (store.valueAt db c.now ns key).isSome)
      (hrun : (CacheCall.body ⟨store, rounds, op⟩).alone s c db = some (.ok (.int v), d))
      (rest : Counted store ns key d l db') : Counted store ns key db ((a, v) :: l) db'

/-- tables whose row of the key, if there is one, holds the number `n` -/
structure CacheDb.HoldsNumber (db : CacheDb) (store : CacheStore) (ns key : String)
    (n : Int) : Prop where
  ok : db.Ok
  txs : db.txs = []
  sizes : ∀ x ∈ db.entries, 0 ≤ x.sizeBytes
  number : ∀ x ∈ db.entries,
    x.isKey ns ((db.generationOf ns).getD 0) (store.hashKey key) key = true →
      parseI64 x.valueBytes = some n

section
variable {s : Nat} {c : CacheCtx} {db d db' : CacheDb} {store : CacheStore} {rounds : Nat}
variable {ns key : String} {op : CacheOp} {n a v : Int}

theorem CacheDb.HoldsNumber.valueAt (H : db.HoldsNumber store ns key n) {now : Time} {text : Bytes}
    (h : store.valueAt db now ns key = some text) : parseI64 text = some n := by
  obtain ⟨x, hx, rfl⟩ := Option.map_eq_some_iff.mp h
  obtain ⟨hmem, hkey, -⟩ := db.liveRow_spec hx
  exact H.number x hmem hkey

/-- one call -/
theorem CacheDb.HoldsNumber.step (H : db.HoldsNumber store ns key n) (hop : IntegerOp ns key op)
    (ha : op.amount = some a) (hlive : (store.valueAt db c.now ns key).isSome)
    (hrun : (CacheCall.body ⟨store, rounds, op⟩).alone s c db = some (.ok (.int v), d)) :
    v = n + a ∧ d.HoldsNumber store ns key v := by
  obtain ⟨text, htext⟩ := Option.isSome_iff_exists.mp hlive
  have hfree : ¬ db.Collides ns ((db.generationOf ns).getD 0) (store.hashKey key) key := by
    intro hc
    obtain ⟨hnone, -⟩ := (conflict_iff_collides H.ok c.now).mpr hc
    unfold CacheStore.valueAt at htext
    rw [hnone] at htext
    cases htext
  rcases integer_cases (s := s) (c := c) H.ok H.txs H.sizes hfree hop rounds with
    ⟨⟨msg, d', herr, -⟩, -⟩ | ⟨-, e, d', herr, -⟩ | ⟨-, w, d', ⟨-, a', ha', hs⟩, r, hr, L⟩
  · rw [herr] at hrun
    cases hrun
  · rw [herr] at hrun
    cases hrun
  · cases L.only _ hrun
    rw [ha] at ha'
    cases ha'
    rw [htext] at hs
    obtain ⟨n', hd, hn', rfl, hv⟩ := hs
    have hn : some n' = some n := (parseI64_iff.mpr ⟨hd, hn'⟩).symm.trans (H.valueAt htext)
    refine ⟨by rw [Option.some.inj hn], L.ok, L.txs, fun x hx => ?_, fun x hx hk => ?_⟩
    · rcases L.rows x hx with rfl | hx
      · rw [hr.size]
        exact Int.natCast_nonneg _
      · exact H.sizes x (List.mem_of_mem_filter hx)
    · rw [L.generation, Option.getD_some] at hk
      rcases L.rows x hx with rfl | hx
      · rw [hr.value]
        exact parseI64_decimal hv
      · have hat := (List.mem_filter.mp hx).2
        rw [(EntryRow.isKey_iff.mp hk).1] at hat
        cases hat

theorem Counted.sums {l : List (Int × Int)} (h : Counted store ns key db l db')
    (H : db.HoldsNumber store ns key n) :
    n :: l.map (·.2) = (l.map (·.1)).scanl (· + ·) n ∧
      db'.HoldsNumber store ns key (n + (l.map (·.1)).sum) := by
  induction h generalizing n with
  | nil db =>
    refine ⟨rfl, ?_⟩
    rw [List.map_nil, List.sum_nil, Int.add_zero]
    exact H
  | @cons db d db' op a v l s c rounds hop ha hlive hrun rest ih =>
    obtain ⟨rfl, H'⟩ := H.step hop ha hlive hrun
    obtain ⟨h1, h2⟩ := ih H'
    refine ⟨?_, ?_⟩
    · rw [List.map_cons, List.map_cons, List.scanl_cons, h1]
    · rw [List.map_cons, List.sum_cons, ← Int.add_assoc]
      exact h2

theorem yields_inI64 (hop : IntegerOp ns key op) {found : Option Bytes}
    (h : op.Yields ns key found v) : inI64 v := by
  obtain ⟨-, a, ha, hs⟩ := h
  have hia : inI64 a := by
    cases hop with
    | @increment delta ttl h =>
      cases ha
      exact h
    | @decrement delta ttl h =>
      have ha' : (if delta = i64Min then none else some (-delta)) = some a := ha
      obtain ⟨hmin, he⟩ := Option.ite_none_left_eq_some.mp ha'
      cases he
      unfold inI64 i64Min i64Max at *
      omega
  cases found with
  | none =>
    obtain rfl : v = a := hs
    exact hia
  | some text =>
    obtain ⟨_, _, _, _, hv⟩ := hs
    exact hv

end

/-- **Integer operations.**  In every reachable state: a call whose key and ttl PostgreSQL takes
returns `v` and stores its text exactly when it is valid and `v` is what the amount added to the
number found gives, and in every other case it fails with InvalidArgument and no entry changes; a
call whose key or ttl it does not take fails and no entry changes; and successful calls one after
the other add up. -/
theorem cache_integer {σ : CacheSys} (hr : CacheReach σ) (hq : σ.db.txs = []) (store : CacheStore)
    (ns key : String)
    (hfree : ¬ σ.db.Collides ns ((σ.db.generationOf ns).getD 0) (store.hashKey key) key) :
    (∀ s c rounds op, IntegerOp ns key op → σ.db.entries.length + 1 < rounds →
      (Bindable c.now key op.ttl →
        (∀ v, (∃ d, AddsUp store s c rounds σ.db op ns key v d) ↔
          op.Yields ns key (store.valueAt σ.db c.now ns key) v) ∧
        (∀ v, op.Yields ns key (store.valueAt σ.db c.now ns key) v →
          parseI64Value (decimal v) = .ok v) ∧
        ((∀ v, ¬ op.Yields ns key (store.valueAt σ.db c.now ns key) v) →
          FailsUnchanged s c σ.db ⟨store, rounds, op⟩)) ∧
      (¬ Bindable c.now key op.ttl → ErrsUnchanged s c σ.db ⟨store, rounds, op⟩)) ∧
    ∀ now text n l db', store.valueAt σ.db now ns key = some text → Denotes text n → inI64 n →
      Counted store ns key σ.db l db' →
        n :: l.map (·.2) = (l.map (·.1)).scanl (· + ·) n ∧
        ∀ now' text', store.valueAt db' now' ns key = some text' →
          Denotes text' (n + (l.map (·.1)).sum) := by
  refine ⟨fun s c rounds op hop hlt => ⟨fun hb => ⟨fun v => ⟨?_, fun hy => ?_⟩,
    fun v hy => parseI64Value_decimal (yields_inI64 hop hy), fun hno => ?_⟩, fun hb => ?_⟩, ?_⟩
  · intro h
    obtain ⟨d, r, -, L⟩ := h
    obtain ⟨q, hrun⟩ := L.ends hlt
    obtain rfl := L.only q hrun
    rcases integer_cases (s := s) (c := c) hr.ok hq hr.sizes hfree hop rounds with
      ⟨⟨msg, d', herr, -⟩, -⟩ | ⟨hno, -⟩ | ⟨-, w, d', hy, r', -, L'⟩
    · rw [herr] at hrun
      cases hrun
    · exact absurd hb hno
    · cases L'.only _ hrun
      exact hy
  · rcases integer_cases (s := s) (c := c) hr.ok hq hr.sizes hfree hop rounds with
      ⟨-, hno⟩ | ⟨hno, -⟩ | ⟨-, w, d', ⟨-, a, ha, hs⟩, hadd⟩
    · exact absurd hy (hno v)
    · exact absurd hb hno
    · obtain ⟨-, a', ha', hs'⟩ := hy
      rw [ha] at ha'
      cases ha'
      have hw : (decimal v, v) = (decimal w, w) :=
        Except.ok.inj ((addTo_iff.mpr ⟨rfl, hs'⟩).symm.trans (addTo_iff.mpr ⟨rfl, hs⟩))
      obtain rfl : v = w := congrArg Prod.snd hw
      exact ⟨d', hadd⟩
  · rcases integer_cases (s := s) (c := c) hr.ok hq hr.sizes hfree hop rounds with
      ⟨hfail, -⟩ | ⟨hno', -⟩ | ⟨-, w, d', hy, -⟩
    · exact hfail
    · exact absurd hb hno'
    · exact absurd hy (hno w)
  · rcases integer_cases (s := s) (c := c) hr.ok hq hr.sizes hfree hop rounds with
      ⟨⟨msg, d, hrun, hd⟩, -⟩ | ⟨-, herr⟩ | ⟨hb', -⟩
    · exact ⟨_, d, hrun, hd⟩
    · exact herr
    · exact absurd hb' hb
  · intro now text n l db' htext hd hn hc
    have H : σ.db.HoldsNumber store ns key n := by
      refine ⟨hr.ok, hq, hr.sizes, fun x hx hk => ?_⟩
      obtain ⟨y, hy, rfl⟩ := Option.map_eq_some_iff.mp htext
      obtain ⟨hym, hyk, -⟩ := σ.db.liveRow_spec hy
      have he : x = y := hr.ok.eq_of_uniq hx hym
        ((EntryRow.isAt_iff.mp (EntryRow.isKey_iff.mp hk).1).trans
          (EntryRow.isAt_iff.mp (EntryRow.isKey_iff.mp hyk).1).symm)
      rw [he]
      exact parseI64_iff.mpr ⟨hd, hn⟩
    obtain ⟨h1, H'⟩ := hc.sums H
    exact ⟨h1, fun now' text' ht => (parseI64_iff.mp (H'.valueAt ht)).1⟩

/-- one more, for `i64::MAX` seconds -/
def incrementForLong : CacheCall := ⟨⟨{}, sampleHash⟩, 5, .increment "app" "a" 1 (some i64Max)⟩

/-- the text `41` at the key `a` -/
theorem fortyOne_reach : ∃ σ : CacheSys, CacheReach σ ∧ σ.db.txs = [] ∧
    σ.db.entries.map (·.cacheKey) = ["a"] ∧
    CacheStore.valueAt ⟨{}, sampleHash⟩ σ.db 1 "app" "a" = some [52, 49] ∧
    (incrementForLong.body.alone 0 ⟨1, id⟩ σ.db).map Prod.fst
      = some (.error (PgAppError.ofSqlx (.outOfRange "timestamp"))) := by
  have h : ((Sys.init CacheDb.empty).play CacheStmt.exec CacheCall.body
        (whole 0 ⟨⟨{}, sampleHash⟩, 5, .set "app" "a" [52, 49] none⟩ ⟨0, id⟩ 8)).map
      (fun σ : CacheSys => (σ.db.txs.isEmpty, σ.db.entries.map (·.cacheKey),
        CacheStore.valueAt ⟨{}, sampleHash⟩ σ.db 1 "app" "a",
        (incrementForLong.body.alone 0 ⟨1, id⟩ σ.db).map Prod.fst))
      = some (true, ["a"], some [52, 49],
        some (.error (PgAppError.ofSqlx (.outOfRange "timestamp")))) := by rfl
  obtain ⟨σ, hplay, heq⟩ := Option.map_eq_some_iff.mp h
  simp only [Prod.mk.injEq, List.isEmpty_iff] at heq
  exact ⟨σ, Sys.play_steps hplay, heq.1, heq.2.1, heq.2.2.1, heq.2.2.2⟩

theorem fortyOne_free {σ : CacheSys} (hkeys : σ.db.entries.map (·.cacheKey) = ["a"]) :
    ¬ σ.db.Collides "app" ((σ.db.generationOf "app").getD 0) (sampleHash "a") "a" ∧
      σ.db.entries.length + 1 < 5 := by
  refine ⟨fun h => ?_, ?_⟩
  · obtain ⟨x, hx, -, hne⟩ := h
    have h1 : x.cacheKey ∈ σ.db.entries.map (·.cacheKey) := List.mem_map_of_mem hx
    rw [hkeys] at h1
    exact hne (List.mem_singleton.mp h1)
  · have h1 := congrArg List.length hkeys
    rw [List.length_map] at h1
    rw [h1]
    decide

theorem cache_integer_fortyTwo : ∃ (σ : CacheSys) (d : CacheDb), CacheReach σ ∧ σ.db.txs = [] ∧
    CacheStore.valueAt ⟨{}, sampleHash⟩ σ.db 1 "app" "a" = some [52, 49] ∧
    AddsUp ⟨{}, sampleHash⟩ 0 ⟨1, id⟩ 5 σ.db (.increment "app" "a" 1 none) "app" "a" 42 d := by
  obtain ⟨σ, hr, hq, hkeys, hval, -⟩ := fortyOne_reach
  obtain ⟨hfree, hlen⟩ := fortyOne_free hkeys
  obtain ⟨hden, hin⟩ := parseI64_iff.mp (show parseI64 [52, 49] = some 41 from rfl)
  have hsum : Sums (some [52, 49]) 1 42 := ⟨41, hden, hin, rfl, by decide⟩
  obtain ⟨d, hd⟩ := ((((cache_integer hr hq ⟨{}, sampleHash⟩ "app" "a" hfree).1 0 ⟨1, id⟩ 5
    (.increment "app" "a" 1 none) (.increment none (by decide)) hlen).1
      ⟨rfl, fun t ht => (by cases ht)⟩).1 42).mpr ⟨rfl, 1, rfl, hval ▸ hsum⟩
  exact ⟨σ, d, hr, hq, hval, hd⟩

/-- a ttl that PostgreSQL cannot add to the time: a database error -/
theorem cache_integer_ttlTooLong : ∃ σ : CacheSys, CacheReach σ ∧ σ.db.txs = [] ∧
    (incrementForLong.op.Yields "app" "a"
      (CacheStore.valueAt ⟨{}, sampleHash⟩ σ.db 1 "app" "a") 42 ∧
      IntegerOp "app" "a" incrementForLong.op) ∧
    (incrementForLong.body.alone 0 ⟨1, id⟩ σ.db).map Prod.fst
      = some (.error (PgAppError.ofSqlx (.outOfRange "timestamp"))) ∧
    (¬ ∃ d, AddsUp ⟨{}, sampleHash⟩ 0 ⟨1, id⟩ 5 σ.db incrementForLong.op "app" "a" 42 d) ∧
    ¬ FailsUnchanged 0 ⟨1, id⟩ σ.db incrementForLong := by
  obtain ⟨σ, hr, hq, hkeys, hval, herr⟩ := fortyOne_reach
  obtain ⟨-, hlen⟩ := fortyOne_free hkeys
  obtain ⟨hden, hin⟩ := parseI64_iff.mp (show parseI64 [52, 49] = some 41 from rfl)
  have hsum : Sums (some [52, 49]) 1 42 := ⟨41, hden, hin, rfl, by decide⟩
  refine ⟨σ, hr, hq, ⟨⟨rfl, 1, rfl, hval ▸ hsum⟩, .increment _ (by decide)⟩, herr, fun h => ?_,
    fun h => ?_⟩
  · obtain ⟨d, r, -, L⟩ := h
    obtain ⟨q, hrun⟩ := L.ends hlen
    rw [show incrementForLong.body.alone 0 ⟨1, id⟩ σ.db = some q from hrun, L.only q hrun] at herr
    cases herr
  · obtain ⟨msg, d, hrun, -⟩ := h
    rw [hrun] at herr
    cases herr

end PgApp
