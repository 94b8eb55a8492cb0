import PgApp.Cache.Store

/-!
# The cache as a map

What the cache is for, with no tables: a map from (namespace, key) to a value and an optional
expiry. An entry is there while its expiry is absent or later than now.

    CacheOp.register op old    one key as a register: the answer of a call and the value after it
    CacheMap.step now op m     what a call hands back and the map after it

The answers of `delete` and `sweep_expired` are left out of `step` (`CacheOp.observed`): they count
rows.  What the functions of `cache.rs` make of a value is what the register makes of it
(`body_atomic`).
-/

namespace PgApp
open Interleave

structure Entry where
  value : Bytes
  expiresAt : Option Time

def Entry.present (now : Time) (e : Entry) : Bool :=
  match e.expiresAt with
  | none => true
  | some t => now < t

abbrev CacheMap := String → String → Option Entry

namespace CacheMap

def empty : CacheMap := fun _ _ => none

/-- the entry of a key, if it is there -/
def at_ (m : CacheMap) (now : Time) (ns key : String) : Option Entry :=
  (m ns key).filter (Entry.present now)

/-- the map with another entry at one key -/
def write (m : CacheMap) (ns key : String) (e : Option Entry) : CacheMap :=
  fun ns' key' => if ns' = ns ∧ key' = key then e else m ns' key'

/-- the map without a namespace -/
def clear (m : CacheMap) (ns : String) : CacheMap :=
  fun ns' key' => if ns' = ns then none else m ns' key'

end CacheMap

/-! ## one key -/

/-- `d` added to the number that is there; a key that is not there starts with `d` -/
def plus (d : Int) : Option Bytes → PgAppResult (CacheReturn × Option Bytes)
  | none => .ok (.int d, some (decimal d))
  | some text =>
    match parseI64 text with
    | none => .error (.invalidArgument "cache value is not a numeric i64")
    | some n =>
      if inI64 (n + d) then .ok (.int (n + d), some (decimal (n + d)))
      else .error (.invalidArgument "numeric cache value overflowed i64")

/-- a call on one key: its answer and the value after it -/
def CacheOp.register : CacheOp → Option Bytes → PgAppResult (CacheReturn × Option Bytes)
  | .set _ _ v _, _ => .ok (.unit, some v)
  | .setNx _ _ v _, none => .ok (.bool true, some v)
  | .setNx _ _ _ _, some old => .ok (.bool false, some old)
  | .getSet _ _ v _, old => .ok (.value old, some v)
  | .increment _ _ d _, old => plus d old
  | .decrement _ _ d _, old =>
    if inI64 (-d) then plus (-d) old
    else .error (.invalidArgument "delta is too large to decrement")
  | .append _ _ v _, old =>
    .ok (.int (old.getD [] ++ v).length, some (old.getD [] ++ v))
  | .prepend _ _ v _, old =>
    .ok (.int (v ++ old.getD []).length, some (v ++ old.getD []))
  | .delete _ _, old => .ok (.bool old.isSome, none)
  | _, old => .ok (.unit, old)

def CacheOp.ttl : CacheOp → Option Int
  | .set _ _ _ ttl | .setNx _ _ _ ttl | .getSet _ _ _ ttl | .append _ _ _ ttl | .prepend _ _ _ ttl
  | .increment _ _ _ ttl | .decrement _ _ _ ttl => ttl
  | _ => none

/-- without a ttl the expiry stays -/
def CacheOp.preserves : CacheOp → Bool
  | .increment _ _ _ _ | .decrement _ _ _ _ => true
  | _ => false

/-- a ttl counts from now, and without one an entry has no expiry, or keeps the one it has -/
def CacheOp.expiry (op : CacheOp) (now : Time) (old : Option Entry) : Option Time :=
  match op.ttl with
  | some ttl => some (now + 1000000 * ttl)
  | none => if op.preserves then old.bind (·.expiresAt) else none

/-! ## calls on the map -/

namespace CacheMap
variable (m : CacheMap) (now : Time)

/-- a write that does to the entry what the call does to a register -/
def change (op : CacheOp) (ns key : String) : PgAppResult CacheReturn × CacheMap :=
  let old := m.at_ now ns key
  match op.register (old.map (·.value)) with
  | .error e => (.error e, m)
  | .ok (answer, value) =>
    (.ok answer, m.write ns key (value.map fun v => ⟨v, op.expiry now old⟩))

def read (ns key : String) : Option Bytes := (m.at_ now ns key).map (·.value)

/-- one call on the map -/
def step (op : CacheOp) : PgAppResult CacheReturn × CacheMap :=
  match op with
  | .setNx ns key _ _ =>
    if (m.at_ now ns key).isSome then (.ok (.bool false), m) else m.change now op ns key
  | .set ns key _ _ | .getSet ns key _ _ | .increment ns key _ _ | .decrement ns key _ _
  | .append ns key _ _ | .prepend ns key _ _ => m.change now op ns key
  | .get ns key => (.ok (.value (m.read now ns key)), m)
  | .mget ns keys => (.ok (.values (keys.map fun key => (key, m.read now ns key))), m)
  | .exists_ ns key => (.ok (.bool (m.read now ns key).isSome), m)
  | .delete ns key => (.ok .unit, m.write ns key none)
  | .invalidateNamespace ns => (.ok .unit, m.clear ns)
  | .sweepExpired _ => (.ok .unit, m)
  | .stats => (.ok .unit, m)

end CacheMap

/-- what is compared of an answer -/
def CacheOp.observed : CacheOp → PgAppResult CacheReturn → PgAppResult CacheReturn
  | .delete _ _, .ok (.bool _) => .ok .unit
  | .sweepExpired _, .ok (.int _) => .ok .unit
  | _, r => r

/-- the arguments of a call pass its checks -/
def CacheOp.Valid : CacheOp → Prop
  | .set ns key _ ttl | .setNx ns key _ ttl | .getSet ns key _ ttl | .append ns key _ ttl
  | .prepend ns key _ ttl => validateWrite ns key ttl = .ok ()
  | .increment ns key d ttl | .decrement ns key d ttl => validateWrite ns key ttl = .ok () ∧ inI64 d
  | .get ns key | .exists_ ns key | .delete ns key => validateRead ns key = .ok ()
  | .mget ns keys => ∀ key ∈ keys, validateRead ns key = .ok ()
  | .invalidateNamespace ns => validateNamespace ns = .ok ()
  | .sweepExpired limit => 0 ≤ limit
  | .stats => False

/-- the keys of a call -/
def CacheOp.keys : CacheOp → List String
  | .set _ key _ _ | .setNx _ key _ _ | .getSet _ key _ _ | .append _ key _ _ | .prepend _ key _ _
  | .increment _ key _ _ | .decrement _ key _ _ | .get _ key | .exists_ _ key | .delete _ key =>
    [key]
  | .mget _ keys => keys
  | .invalidateNamespace _ | .sweepExpired _ | .stats => []

/-- PostgreSQL takes the arguments: no U+0000 in a key, and it has the moment at which the ttl
ends -/
def CacheOp.Bindable (op : CacheOp) (now : Time) : Prop :=
  (∀ key ∈ op.keys, storable key = true) ∧ TtlFits now op.ttl

/-- the namespace and key a write is on -/
def CacheOp.target : CacheOp → Option (String × String)
  | .set ns key _ _ | .setNx ns key _ _ | .getSet ns key _ _ | .append ns key _ _
  | .prepend ns key _ _ | .increment ns key _ _ | .decrement ns key _ _ => some (ns, key)
  | _ => none

/-- the operations of `atomicWrite` -/
def CacheOp.atomic : CacheOp → Bool
  | .getSet _ _ _ _ | .increment _ _ _ _ | .decrement _ _ _ _ | .append _ _ _ _
  | .prepend _ _ _ _ => true
  | _ => false

/-! ## what `cache.rs` makes of a value -/

/-- a function of `atomicWrite` does to the value what the call does to the register -/
def CacheOp.Makes {α : Type} (op : CacheOp) (f : Option Bytes → PgAppResult (Bytes × α))
    (answer : α → CacheReturn) : Prop :=
  ∀ old, op.register old = (f old).map fun p => (answer p.2, some p.1)

theorem plus_eq (d : Int) (old : Option Bytes) :
    plus d old = (addTo d old).map fun p => (.int p.2, some p.1) := by
  cases old with
  | none => rfl
  | some text =>
    simp only [plus, addTo, parseI64Value]
    cases parseI64 text with
    | none => rfl
    | some n =>
      by_cases h : inI64 (n + d)
      · simp [checkedAdd, h, Except.map]
      · simp [checkedAdd, h, Except.map]

theorem expiry_eq (op : CacheOp) (now : Time) (old : Option Entry) :
    op.expiry now old = if op.ttl.isNone && op.preserves then old.bind (·.expiresAt)
      else expiryOf now op.ttl := by
  unfold CacheOp.expiry expiryOf seconds
  cases op.ttl with
  | none => cases op.preserves <;> rfl
  | some n => simp [Int.mul_comm]

theorem makes_getSet (ns key : String) (v : Bytes) (ttl : Option Int) :
    (CacheOp.getSet ns key v ttl).Makes (replaceWith v) .value := fun _ => rfl

theorem makes_increment (ns key : String) (d : Int) (ttl : Option Int) :
    (CacheOp.increment ns key d ttl).Makes (addTo d) .int := plus_eq d

theorem makes_append (ns key : String) (v : Bytes) (ttl : Option Int) :
    (CacheOp.append ns key v ttl).Makes (concatTo v .append) .int := by
  intro old
  cases old with
  | none => rfl
  | some old => rfl

theorem makes_prepend (ns key : String) (v : Bytes) (ttl : Option Int) :
    (CacheOp.prepend ns key v ttl).Makes (concatTo v .prepend) .int := by
  intro old
  cases old with
  | none => simp [CacheOp.register, concatTo, Except.map]
  | some old => rfl

theorem register_decrement (ns key : String) (d : Int) (ttl : Option Int) (old : Option Bytes) :
    (CacheOp.decrement ns key d ttl).register old
      = (negated d).bind fun d => (addTo d old).map fun p => (.int p.2, some p.1) := by
  unfold negated checkedNeg CacheOp.register
  by_cases h : inI64 (-d)
  · simp only [h, if_true, plus_eq]
    rfl
  · simp only [h, if_false]
    rfl

/-- **The atomic writes.**  Each is `atomicWrite` with a function that does what the register does,
or fails before its first statement, as the register does. -/
theorem CacheCall.body_atomic (call : CacheCall) (h : call.op.atomic = true) :
    ∃ ns key, call.op.target = some (ns, key) ∧
      ((∃ e, call.body = .ret (.error e) ∧ ∀ old, call.op.register old = .error e) ∨
        ∃ (α : Type) (f : Option Bytes → PgAppResult (Bytes × α)) (answer : α → CacheReturn),
          call.op.Makes f answer ∧ call.body =
            (call.store.atomicWrite call.rounds ns key call.op.ttl call.op.preserves f >>= fun a =>
              pure (answer a))) := by
  obtain ⟨store, rounds, op⟩ := call
  cases op with
  | getSet ns key v ttl => exact ⟨ns, key, rfl, .inr ⟨_, _, _, makes_getSet ns key v ttl, rfl⟩⟩
  | increment ns key d ttl =>
    exact ⟨ns, key, rfl, .inr ⟨_, _, _, makes_increment ns key d ttl, rfl⟩⟩
  | append ns key v ttl => exact ⟨ns, key, rfl, .inr ⟨_, _, _, makes_append ns key v ttl, rfl⟩⟩
  | prepend ns key v ttl => exact ⟨ns, key, rfl, .inr ⟨_, _, _, makes_prepend ns key v ttl, rfl⟩⟩
  | decrement ns key d ttl =>
    refine ⟨ns, key, rfl, ?_⟩
    have hbody : CacheCall.body ⟨store, rounds, .decrement ns key d ttl⟩
        = ((Prog.check (negated d) >>= fun d => store.addInteger rounds ns key d ttl)
          >>= fun n => pure (CacheReturn.int n)) := rfl
    cases hn : negated d with
    | error e =>
      refine .inl ⟨e, ?_, fun old => ?_⟩
      · rw [hbody, hn]
        rfl
      · rw [register_decrement, hn]
        rfl
    | ok d' =>
      refine .inr ⟨_, addTo d', .int, fun old => ?_, ?_⟩
      · rw [register_decrement, hn]
        rfl
      · rw [hbody, hn]
        rfl
  | set _ _ _ _ | setNx _ _ _ _ | get _ _ | mget _ _ | exists_ _ _ | delete _ _
  | invalidateNamespace _ | sweepExpired _ | stats => cases h

end PgApp
