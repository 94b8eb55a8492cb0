import PgApp.Cache.Abstract
import PgApp.Interleave.Account

/-!
# The statements that a call can issue

A call computes an expiry of its own ttl only, makes sure of its own namespace only, and nothing but an
invalidation raises a generation (`cache_issues`).
-/

namespace PgApp
open Interleave CacheProg

/-- the namespace that a call makes sure of -/
def CacheOp.opened : CacheOp → Option String
  | .set ns _ _ _ | .setNx ns _ _ _ | .getSet ns _ _ _ | .append ns _ _ _ | .prepend ns _ _ _
  | .increment ns _ _ _ | .decrement ns _ _ _ | .invalidateNamespace ns => some ns
  | _ => none

theorem opened_of_target {op : CacheOp} {ns key : String} (h : op.target = some (ns, key)) :
    op.opened = some ns := by
  cases op with
  | set _ _ _ _ | setNx _ _ _ _ | getSet _ _ _ _ | append _ _ _ _ | prepend _ _ _ _
  | increment _ _ _ _ | decrement _ _ _ _ =>
    cases h
    rfl
  | get _ _ | mget _ _ | exists_ _ _ | delete _ _ | invalidateNamespace _ | sweepExpired _ | stats =>
    cases h

def CacheOp.MayIssue (op : CacheOp) : CacheStmt → Prop
  | .upsertEntry _ _ _ _ _ ttl | .insertValue _ _ _ _ _ ttl | .insertIfAbsent _ _ _ _ _ ttl
  | .updateValue _ _ ttl _ => ttl = op.ttl
  | .ensureNamespace ns => op.opened = some ns
  | .bumpGeneration ns _ => op = .invalidateNamespace ns
  | _ => True

/-- the program issues only statements of the call -/
def CacheOp.Issues {α : Type} (op : CacheOp) (p : CacheProg α) : Prop :=
  p.Avoids fun st => ¬ op.MayIssue st

section
variable {op : CacheOp} {α : Type} {p : CacheProg α}

theorem query_issues {st : CacheStmt} (h : op.MayIssue st) : op.Issues (query st) :=
  ⟨fun hn => hn h, fun _ => trivial⟩

theorem inTx_issues (h : op.Issues p) : op.Issues (inTx p) :=
  ⟨fun hn => hn trivial, fun _ =>
    Prog.Avoids.bracket (fun hn => hn trivial) (fun hn => hn trivial) h⟩

theorem generation_issues (ns : String) : op.Issues (namespaceGeneration ns) := by
  refine Prog.Avoids.bind (query_issues trivial) fun generation => ?_
  cases generation with
  | none => exact trivial
  | some g => exact trivial

/-! ## what every call may issue -/

/-- a statement that neither stores nor deletes an entry for its call, nor changes a namespace -/
def CacheStmt.minor : CacheStmt → Bool
  | .begin | .commit | .rollback | .upsertEntry _ _ _ _ _ _ | .insertValue _ _ _ _ _ _
  | .insertIfAbsent _ _ _ _ _ _ | .updateValue _ _ _ _ | .deleteKey _ _ _ _ | .ensureNamespace _
  | .bumpGeneration _ _ => false
  | _ => true

abbrev Minor (p : CacheProg α) : Prop := p.Avoids fun st => st.minor = false

theorem Minor.issues (h : Minor p) : op.Issues p := by
  refine h.mono fun st hn => ?_
  cases st with
  | begin | commit | rollback | upsertEntry _ _ _ _ _ _ | insertValue _ _ _ _ _ _
  | insertIfAbsent _ _ _ _ _ _ | updateValue _ _ _ _ | deleteKey _ _ _ _ | ensureNamespace _
  | bumpGeneration _ _ => rfl
  | _ => exact absurd trivial hn

theorem query_minor {st : CacheStmt} (h : st.minor = true) : Minor (query st) :=
  ⟨ne_false_of_eq_true h, fun _ => trivial⟩

theorem sweep_minor (limit : Int) : Minor (sweepExpired limit) := by
  refine Prog.Avoids.bind (query_minor rfl) fun r => Prog.Avoids.bind ?_ fun ids => ?_
  · cases r <;> exact trivial
  refine Prog.Avoids.bind (query_minor rfl) fun removed => ?_
  show Minor (if removed > 0 then _ else _)
  split
  · exact Prog.Avoids.bind (query_minor rfl) fun _ => trivial
  · exact trivial

section
variable (store : CacheStore)

theorem evictLoop_minor (ns : String) (generation : Int) (rounds : Nat) (excess : Int)
    (isOver : Bool) : Minor (store.evictLoop ns generation rounds excess isOver) := by
  induction rounds generalizing excess isOver with
  | zero =>
    show Minor (if excess > 0 ∨ isOver = true then _ else _)
    split
    · exact (query_minor rfl).bind fun _ => trivial
    · exact trivial
  | succ rounds ih =>
    show Minor (if excess > 0 ∨ isOver = true then _ else _)
    split
    · refine Prog.Avoids.bind ?_ fun deleted => ?_
      · exact Prog.Avoids.bind (query_minor rfl) fun id => query_minor rfl
      · show Minor (if deleted = 0 then _ else _)
        split
        · exact trivial
        · refine Prog.Avoids.bind (query_minor rfl) fun _ => ?_
          refine Prog.Avoids.bind ?_ fun isOver => ih _ isOver
          unfold CacheStore.stillOver
          split
          · exact Prog.Avoids.bind (query_minor rfl) fun _ => trivial
          · exact trivial
    · exact trivial

theorem written_minor (rounds : Nat) (ns : String) : Minor (store.written rounds ns) := by
  refine Prog.Avoids.bind (query_minor rfl) fun _ => ?_
  refine Prog.Avoids.bind (sweep_minor 1000) fun removed => ?_
  show Minor (if removed > 0 then _ else _)
  split
  · exact trivial
  · refine Prog.Avoids.bind (query_minor rfl) fun generation => ?_
    cases generation with
    | none => exact trivial
    | some g =>
      exact Prog.Avoids.bind (query_minor rfl) fun usage => evictLoop_minor store ns g rounds _ _

theorem get_minor (ns key : String) : Minor (store.get ns key) := by
  refine Prog.Avoids.check fun _ => Prog.Avoids.bind (query_minor rfl) fun generation => ?_
  cases generation with
  | none => exact Prog.Avoids.bind (query_minor rfl) fun _ => trivial
  | some g =>
    refine Prog.Avoids.check fun _ => Prog.Avoids.bind (query_minor rfl) fun row => ?_
    cases row with
    | none => exact Prog.Avoids.bind (query_minor rfl) fun _ => trivial
    | some p =>
      exact Prog.Avoids.bind (query_minor rfl) fun _ =>
        Prog.Avoids.bind (query_minor rfl) fun _ => trivial

theorem mgetLoop_minor (ns : String) (keys : List String)
    (results : List (String × Option Bytes)) : Minor (store.mgetLoop ns keys results) := by
  induction keys generalizing results with
  | nil => exact trivial
  | cons key rest ih =>
    exact Prog.Avoids.bind (get_minor store ns key) fun value => ih (results ++ [(key, value)])

/-! ## the writes -/

theorem set_issues (rounds : Nat) (ns key : String) (v : Bytes) (ttl : Option Int) :
    (CacheOp.set ns key v ttl).Issues (store.set rounds ns key v ttl) := by
  refine Prog.Avoids.check fun _ => Prog.Avoids.bind (query_issues rfl) fun _ => ?_
  refine Prog.Avoids.bind (generation_issues ns) fun g => Prog.Avoids.check fun _ => ?_
  refine Prog.Avoids.bind (query_issues rfl) fun r => Prog.Avoids.bind ?_ fun _ => ?_
  · cases r <;> exact trivial
  · exact (written_minor store rounds ns).issues

theorem setNx_issues (rounds : Nat) (ns key : String) (v : Bytes) (ttl : Option Int) :
    (CacheOp.setNx ns key v ttl).Issues (store.setNx rounds ns key v ttl) := by
  refine Prog.Avoids.check fun _ => Prog.Avoids.bind (query_issues rfl) fun _ => ?_
  refine Prog.Avoids.bind (generation_issues ns) fun g => ?_
  refine Prog.Avoids.bind (inTx_issues (Prog.Avoids.check fun _ => ?_)) fun created => ?_
  · refine Prog.Avoids.bind (query_issues trivial) fun _ => ?_
    refine Prog.Avoids.bind (query_issues rfl) fun r => Prog.Avoids.bind ?_ fun _ => trivial
    cases r <;> exact trivial
  · show (CacheOp.setNx ns key v ttl).Issues (if created = true then _ else _)
    split
    · exact Prog.Avoids.bind (written_minor store rounds ns).issues fun _ => trivial
    · exact trivial

theorem atomicWrite_issues {β : Type} {ns : String} (hns : op.opened = some ns) (rounds : Nat)
    (key : String) (preserve : Bool) (f : Option Bytes → PgAppResult (Bytes × β)) :
    op.Issues (store.atomicWrite rounds ns key op.ttl preserve f) := by
  refine Prog.Avoids.check fun _ => Prog.Avoids.bind (query_issues hns) fun _ => ?_
  refine Prog.Avoids.bind (generation_issues ns) fun g => ?_
  refine Prog.Avoids.bind (inTx_issues ?_) fun out =>
    Prog.Avoids.bind (written_minor store rounds ns).issues fun _ => trivial
  refine Prog.Avoids.bind (query_issues trivial) fun _ => Prog.Avoids.check fun _ => ?_
  refine Prog.Avoids.bind (query_issues trivial) fun _ => ?_
  refine Prog.Avoids.bind (query_issues trivial) fun found => ?_
  cases found with
  | none =>
    refine Prog.Avoids.check fun p => Prog.Avoids.bind (query_issues rfl) fun r => ?_
    refine Prog.Avoids.bind ?_ fun _ => trivial
    cases r <;> exact trivial
  | some row =>
    refine Prog.Avoids.check fun p => Prog.Avoids.bind (query_issues rfl) fun r => ?_
    refine Prog.Avoids.bind ?_ fun _ => trivial
    cases r <;> exact trivial

theorem delete_issues (ns key : String) : op.Issues (store.delete ns key) := by
  refine Prog.Avoids.check fun _ => Prog.Avoids.bind (query_issues trivial) fun generation => ?_
  cases generation with
  | none => exact trivial
  | some g =>
    refine Prog.Avoids.check fun _ => Prog.Avoids.bind (query_issues trivial) fun deleted => ?_
    show op.Issues (if deleted > 0 then _ else _)
    split
    · exact Prog.Avoids.bind (query_issues trivial) fun _ => trivial
    · exact trivial

end

/-- **A call issues only statements of its own.** -/
theorem cache_issues (call : CacheCall) : call.op.Issues call.body := by
  obtain ⟨store, rounds, op⟩ := call
  by_cases hat : op.atomic = true
  · obtain ⟨ns, key, htarget, hcases⟩ := CacheCall.body_atomic ⟨store, rounds, op⟩ hat
    rcases hcases with ⟨e, hbody, -⟩ | ⟨α, f, answer, -, hbody⟩
    · rw [hbody]
      exact trivial
    · rw [hbody]
      exact Prog.Avoids.bind (atomicWrite_issues store (opened_of_target htarget) rounds key
        op.preserves f) fun _ => trivial
  cases op with
  | set ns key v ttl =>
    exact Prog.Avoids.bind (set_issues store rounds ns key v ttl) fun _ => trivial
  | setNx ns key v ttl =>
    exact Prog.Avoids.bind (setNx_issues store rounds ns key v ttl) fun _ => trivial
  | getSet _ _ _ _ | increment _ _ _ _ | decrement _ _ _ _ | append _ _ _ _ | prepend _ _ _ _ =>
    exact absurd rfl hat
  | get ns key => exact Prog.Avoids.bind (get_minor store ns key).issues fun _ => trivial
  | mget ns keys => exact Prog.Avoids.bind (mgetLoop_minor store ns keys []).issues fun _ => trivial
  | exists_ ns key =>
    refine Prog.Avoids.bind ?_ fun _ => trivial
    exact Prog.Avoids.bind (get_minor store ns key).issues fun _ => trivial
  | delete ns key => exact Prog.Avoids.bind (delete_issues store ns key) fun _ => trivial
  | invalidateNamespace ns =>
    refine Prog.Avoids.bind (Prog.Avoids.check fun _ => ?_) fun _ => trivial
    refine Prog.Avoids.bind (query_issues rfl) fun _ => ?_
    exact Prog.Avoids.bind (query_issues trivial) fun ids => query_issues rfl
  | sweepExpired limit => exact Prog.Avoids.bind (sweep_minor limit).issues fun _ => trivial
  | stats =>
    refine Prog.Avoids.bind (Prog.Avoids.bind (query_issues trivial) fun _ => ?_) fun _ => trivial
    exact Prog.Avoids.bind (query_issues trivial) fun _ => trivial

end

end PgApp
