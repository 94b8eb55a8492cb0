import PgApp.Cache.Generations

/-!
# Invalidation is final

Three states of a run: `σ₀` before an invalidation starts, `σ₁` after it has returned, `σ₂` after a
read has returned that started in or after `σ₁`.  What the read has seen was published by a
statement executed after `σ₀`, in a generation above all that was published before
(`cache_invalidation`).

`Traced` is the invariant behind it: generations that were looked up or written are not above the
current one, and every stored row was published by some statement of the history.
-/

namespace PgApp
open Interleave

/-! ## parts of a run -/

section
variable {Op : Type} {call : Op → CacheCall} {σ τ : CacheSysOf Op}

/-- the statements executed between two states of a run -/
def eventsSince (σ τ : CacheSysOf Op) : List (CacheEvOf Op) :=
  τ.hist.take (τ.hist.length - σ.hist.length)

/-- the results handed back between two states of a run -/
def returnedSince (σ τ : CacheSysOf Op) : List (Nat × Op × PgAppResult CacheReturn) :=
  τ.done.take (τ.done.length - σ.done.length)

theorem take_of_append {α : Type} {a b c : List α} (h : a = b ++ c) :
    a.take (a.length - c.length) = b := by
  rw [h, List.length_append, Nat.add_sub_cancel]
  exact List.take_left' rfl

theorem hist_eq_since (call : Op → CacheCall) (hr : CacheReachOf call σ)
    (hst : CacheStepsOf call σ τ) :
    τ.hist = eventsSince σ τ ++ σ.hist := by
  obtain ⟨h, hh⟩ := hr.hist_suffix hst
  unfold eventsSince
  rw [take_of_append hh]
  exact hh

/-- the generation of a namespace goes up by the invalidations, and never down -/
theorem steps_generation (call : Op → CacheCall) (hst : CacheStepsOf call σ τ)
    {ns : String} {g : Int}
    (hg : σ.db.generationOf ns = some g) :
    ∃ new, τ.hist = new ++ σ.hist ∧
      τ.db.generationOf ns = some (g + (new.countP fun e => e.stmt.bumps ns)) ∧
      ∀ e ∈ new, ∃ g', e.pre.generationOf ns = some g' ∧ g ≤ g' := by
  induction hst with
  | refl => exact ⟨[], rfl, by simpa using hg, fun e he => (by cases he)⟩
  | @tail τ₁ _ _ hs ih =>
    obtain ⟨new, hh, hgen, hpre⟩ := ih
    cases hs with
    | call s op h => exact ⟨new, hh, hgen, hpre⟩
    | ret s op r h => exact ⟨new, hh, hgen, hpre⟩
    | stmt s op c st k r d' h hx =>
      refine ⟨⟨s, op, c, st, r, τ₁.db⟩ :: new, by rw [hh]; rfl, ?_, fun e he => ?_⟩
      · rw [List.countP_cons]
        rcases exec_generation hx hgen with h1 | ⟨h1, h2⟩
        · cases hb : st.bumps ns with
          | false => simpa [hb] using h1
          | true =>
            -- an invalidation of a namespace that is there does raise its generation
            exfalso
            obtain ⟨ids, rfl⟩ := CacheStmt.bumps_iff.mp hb
            obtain ⟨-, hx⟩ := of_guard hx
            cases hx
            have h3 := generationOf_bump hgen ns ids c.now
            rw [if_pos rfl] at h3
            have h4 := h3.symm.trans h1
            simp only [Option.some.injEq] at h4
            omega
        · have hb : st.bumps ns = true := CacheStmt.bumps_iff.mpr h1
          show d'.generationOf ns = _
          rw [h2]
          simp only [hb, if_true]
          congr 1
          push_cast
          omega
      · rcases List.mem_cons.mp he with rfl | he
        · exact ⟨_, hgen, by omega⟩
        · exact hpre e he

/-! ## where generations and rows come from -/

structure Traced (db : CacheDb) (h : List (CacheEvOf Op)) : Prop where
  looked : ∀ e ∈ h, ∀ ns g, (⟨e.stmt, e.res⟩ : Said) = ⟨.selectGeneration ns, some g⟩ →
    ∃ g', db.generationOf ns = some g' ∧ g ≤ g'
  published : ∀ e ∈ h, ∀ x ∈ publishedBy e, ∃ g', db.generationOf x.namespace_ = some g' ∧
    x.generation ≤ g'
  origin : ∀ x ∈ db.entries, ∃ e ∈ h, ∃ y ∈ publishedBy e, y.content = x.content

theorem exec_generation_le {s : Nat} {c : CacheCtx} {st : CacheStmt} {db db' : CacheDb} {r : st.Res}
    (hx : CacheStmt.exec s c st db = some (r, db')) {ns : String} {g g' : Int}
    (hg : db.generationOf ns = some g') (hle : g ≤ g') :
    ∃ g'', db'.generationOf ns = some g'' ∧ g ≤ g'' := by
  rcases exec_generation hx hg with h1 | ⟨-, h1⟩
  · exact ⟨g', h1, hle⟩
  · exact ⟨g' + 1, h1, by omega⟩

theorem Traced.step {s : Nat} {op : Op} {c : CacheCtx} {st : CacheStmt} {db db' : CacheDb}
    {r : st.Res} {h : List (CacheEvOf Op)} (hi : Traced db h)
    (ho : Ordered call ⟨s, op, c, st, r, db⟩ h) (hx : CacheStmt.exec s c st db = some (r, db')) :
    Traced db' (⟨s, op, c, st, r, db⟩ :: h) where
  looked := by
    intro e he ns g hs
    rcases List.mem_cons.mp he with rfl | he
    · cases hs
      have h1 : some (db.generationOf ns, db) = some (some g, db') := hx
      simp only [Option.some.injEq, Prod.mk.injEq] at h1
      obtain ⟨h1, rfl⟩ := h1
      exact ⟨g, h1, Int.le_refl _⟩
    · obtain ⟨g', hg, hle⟩ := hi.looked e he ns g hs
      exact exec_generation_le hx hg hle
  published := by
    intro e he x hxp
    rcases List.mem_cons.mp he with rfl | he
    · obtain ⟨h₁, d, h₂, heq, -, hd⟩ := published_at ho hxp
      obtain ⟨g', hg, hle⟩ := hi.looked d (by rw [heq]; simp) _ _ hd
      exact exec_generation_le hx hg hle
    · obtain ⟨g', hg, hle⟩ := hi.published e he x hxp
      exact exec_generation_le hx hg hle
  origin := by
    intro x hm
    rcases exec_rows ho.good.ok hx hm with hw | ⟨y, hy, hc⟩
    · exact ⟨_, List.mem_cons_self, x, hw, rfl⟩
    · obtain ⟨e, he, z, hz, hzc⟩ := hi.origin y hy
      exact ⟨e, List.mem_cons_of_mem _ he, z, hz, hzc.trans hc⟩

theorem Traced.first : Traced CacheDb.empty ([] : List (CacheEvOf Op)) where
  looked := fun e he => (by cases he)
  published := fun e he => (by cases he)
  origin := fun x hx => (by cases hx)

theorem cache_traced (call : Op → CacheCall) (hr : CacheReachOf call σ) :
    Traced σ.db σ.hist ∧ Always (fun e h => Traced e.pre h) σ.hist :=
  ⟨hr.invariant_of (Ordered call) Traced Traced.first
      (fun _ _ _ _ _ _ _ _ hi ho hx => hi.step ho hx) (cache_follows call hr),
    hr.before_of (Ordered call) Traced Traced.first
      (fun _ _ _ _ _ _ _ _ hi ho hx => hi.step ho hx) (cache_follows call hr)⟩

/-- a result handed back between two states, of a session that was idle in the first: the statements
of its call were executed between the two -/
theorem answered_since (call : Op → CacheCall) (hr : CacheReachOf call σ)
    (hst : CacheStepsOf call σ τ) {s : Nat}
    (h0 : σ.prog s = none) {op : Op} {r : PgAppResult CacheReturn}
    (hm : (s, op, r) ∈ returnedSince σ τ) :
    ∃ part, Answered (call op) r part ∧ part <:+: ownEvents s (eventsSince σ τ) := by
  obtain ⟨run, parts, dones, hown, hdone, hall, -⟩ := cache_answers_since call hr s h0 hst
  have hd : returnedSince σ τ = dones := take_of_append hdone
  rw [hd] at hm
  have hm' : (s, op, r) ∈ dones.filter (·.1 == s) := List.mem_filter.mpr ⟨hm, by simp⟩
  obtain ⟨part, hp, hans⟩ : ∃ part ∈ parts, Answered (call op) r part := by
    clear hown
    generalize dones.filter (·.1 == s) = results at hall hm'
    induction hall with
    | nil => cases hm'
    | @cons x part xs ps hx _ ih =>
      rcases List.mem_cons.mp hm' with rfl | hm'
      · exact ⟨part, List.mem_cons_self, hx.1⟩
      · obtain ⟨part, hp, hans⟩ := ih hm'
        exact ⟨part, List.mem_cons_of_mem _ hp, hans⟩
  refine ⟨part, hans, ?_⟩
  have hnew : ownEvents s (eventsSince σ τ) = run ++ parts.flatten := by
    rw [hist_eq_since call hr hst, ownEvents_append] at hown
    exact List.append_cancel_right hown
  rw [hnew]
  obtain ⟨a, b, rfl⟩ := List.append_of_mem hp
  refine ⟨run ++ a.flatten, b.flatten, ?_⟩
  simp

/-- the events of the two statements of a read -/
theorem read_events {hash : String → String} {ns key : String} {v : Bytes} {s : Nat}
    {part : List (CacheEvOf Op)} {l : List (CacheEvOf Op)}
    (h : ReadValue hash ns key v (said part)) (hp : part <:+: ownEvents s l) :
    ∃ g id, ∃ e ∈ l, ∃ d ∈ l, e.sess = s ∧
      (⟨e.stmt, e.res⟩ : Said) = ⟨.selectLive ns g (hash key) key, some (id, v)⟩ ∧
      (⟨d.stmt, d.res⟩ : Said) = ⟨.selectGeneration ns, some g⟩ := by
  obtain ⟨g, id, a, b, hab⟩ := h
  have hmem : ∀ x, x ∈ [(⟨.selectLive ns g (hash key) key, some (id, v)⟩ : Said),
      ⟨.selectGeneration ns, some g⟩] → ∃ e ∈ l, e.sess = s ∧ (⟨e.stmt, e.res⟩ : Said) = x := by
    intro x hx
    have h1 : x ∈ said part := by
      rw [← hab]
      exact List.mem_append_left _ (List.mem_append_right _ hx)
    obtain ⟨e, he, hex⟩ := List.mem_map.mp h1
    obtain ⟨h2, h3⟩ := List.mem_filter.mp (hp.subset he)
    exact ⟨e, h2, by simpa using h3, hex⟩
  obtain ⟨e, he, hes, hx⟩ := hmem _ List.mem_cons_self
  obtain ⟨d, hd, -, hy⟩ := hmem _ (List.mem_cons_of_mem _ List.mem_cons_self)
  exact ⟨g, id, e, he, d, hd, hes, hx, hy⟩

theorem Ordered.lookup {e : CacheEvOf Op} {h : List (CacheEvOf Op)} (ho : Ordered call e h)
    {ns : String} {g : Int} (hs : (⟨e.stmt, e.res⟩ : Said) = ⟨.selectGeneration ns, some g⟩) :
    e.pre.generationOf ns = some g := by
  obtain ⟨s, op, c, st, r, db⟩ := e
  cases hs
  obtain ⟨db', hx⟩ := ho.executed
  have h1 : some (db.generationOf ns, db) = some (some g, db') := hx
  simp only [Option.some.injEq, Prod.mk.injEq] at h1
  exact h1.1

/-- and what a read has found is a row of the table -/
theorem Ordered.read {e : CacheEvOf Op} {h : List (CacheEvOf Op)} (ho : Ordered call e h)
    {ns : String} {g : Int} {keyHash key : String} {id : Int} {v : Bytes}
    (hs : (⟨e.stmt, e.res⟩ : Said) = ⟨.selectLive ns g keyHash key, some (id, v)⟩) :
    ∃ z ∈ e.pre.entries, z.isKey ns g keyHash key = true ∧ z.valueBytes = v := by
  obtain ⟨s, op, c, st, r, db⟩ := e
  cases hs
  obtain ⟨db', hx⟩ := ho.executed
  have h1 : some ((db.entries.find? fun r => r.isKey ns g keyHash key && r.live c.now).map fun r =>
      (r.id, r.valueBytes), db) = some (some (id, v), db') := hx
  simp only [Option.some.injEq, Prod.mk.injEq] at h1
  obtain ⟨z, hz, hzv⟩ := Option.map_eq_some_iff.mp h1.1
  have hp : (z.isKey ns g keyHash key && z.live c.now) = true := by simpa using List.find?_some hz
  rw [Bool.and_eq_true] at hp
  simp only [Prod.mk.injEq] at hzv
  exact ⟨z, List.mem_of_find?_eq_some hz, hp.1, hzv.2⟩

end

/-! ## reads after an invalidation -/

/-- the call has seen the key in the namespace: the bytes, or with `exists` only that it is there -/
def Saw (op : CacheOp) (r : PgAppResult CacheReturn) (ns key : String)
    (value : Option Bytes) : Prop :=
  match op, r with
  | .get ns' key', .ok (.value (some v)) => ns' = ns ∧ key' = key ∧ value = some v
  | .exists_ ns' key', .ok (.bool true) => ns' = ns ∧ key' = key ∧ value = none
  | .mget ns' _, .ok (.values values) => ns' = ns ∧ ∃ v, (key, some v) ∈ values ∧ value = some v
  | _, _ => False

theorem Saw.reads {Op : Type} {call : CacheCall} {r : PgAppResult CacheReturn} {ns key : String}
    {value : Option Bytes} {part : List (CacheEvOf Op)} (h : Saw call.op r ns key value)
    (ha : Answered call r part) :
    ∃ v, ReadValue call.store.hashKey ns key v (said part) ∧ ∀ v', value = some v' → v = v' := by
  obtain ⟨store, rounds, op⟩ := call
  unfold Saw at h
  split at h
  · obtain ⟨rfl, rfl, rfl⟩ := h
    rename_i hop
    obtain rfl : op = _ := hop
    exact ⟨_, ha _ rfl, fun v' hv => Option.some.inj hv⟩
  · obtain ⟨rfl, rfl, rfl⟩ := h
    rename_i hop
    obtain rfl : op = _ := hop
    obtain ⟨v, hv⟩ := ha rfl
    exact ⟨v, hv, fun v' hv' => (by cases hv')⟩
  · obtain ⟨rfl, v, hm, rfl⟩ := h
    rename_i hop
    obtain rfl : op = _ := hop
    exact ⟨v, ha _ rfl key v hm, fun v' hv => Option.some.inj hv⟩
  · cases h

/-- a statement of an invalidation -/
def CacheStmt.InvalidatesIn (ns : String) (st : CacheStmt) : Prop :=
  st = .ensureNamespace ns ∨ st = .viewRows ns ∨ ∃ ids, st = .bumpGeneration ns ids

theorem invalidate_stmts {σ : CacheSys} (hr : CacheReach σ) :
    Always (fun (e : CacheEv) _ => ∀ ns, e.op.op = .invalidateNamespace ns →
      e.stmt.InvalidatesIn ns) σ.hist := by
  have rules : Rules CacheStmt.exec CacheDb.empty (fun _ (_ : List CacheEv) => True)
      (fun _ _ _ => ()) (fun (op : CacheCall) st _ => ∀ ns, op.op = .invalidateNamespace ns →
        st.InvalidatesIn ns) (fun _ _ _ _ _ => True)
      (fun _ => True) :=
    ⟨trivial, fun _ _ _ _ _ _ _ _ _ _ _ => trivial, fun _ _ _ _ _ _ _ _ _ _ _ => trivial,
      fun _ _ _ _ _ _ _ _ _ _ _ _ _ => rfl, fun _ => trivial⟩
  have hrel := Reach.rely (Q := fun _ _ _ => True) rules (fun _ _ _ _ => trivial)
    (fun op _ _ => ?_) hr
  · exact hrel.past.mono fun e h he => he.2.1
  · obtain ⟨store, rounds, o⟩ := op
    cases o with
    | invalidateNamespace ns =>
      show Safe _ _ _ ((Prog.check (validateNamespace ns) >>= fun _ => _) >>= _) ()
      cases validateNamespace ns with
      | error e => exact trivial
      | ok u =>
        refine ⟨fun ns' h => ?_, fun _ _ _ => ⟨fun ns' h => ?_, fun ids _ _ =>
          ⟨fun ns' h => ?_, fun _ _ _ => trivial⟩⟩⟩
        · cases h
          exact .inl rfl
        · cases h
          exact .inr (.inl rfl)
        · cases h
          exact .inr (.inr ⟨ids, rfl⟩)
    | _ => exact (Safe.trivial _ _).mono_pre fun st _ _ ns h => (by cases h)

/-- rows of other namespaces and their generations are left alone -/
def SparesOthers (e : CacheEv) : Prop :=
  ∀ ns, e.op.op = .invalidateNamespace ns → ∀ db',
    CacheStmt.exec e.sess e.ctx e.stmt e.pre = some (e.res, db') →
    (∀ x, x.namespace_ ≠ ns → (x ∈ db'.entries ↔ x ∈ e.pre.entries)) ∧
    ∀ ns', ns' ≠ ns → db'.generationOf ns' = e.pre.generationOf ns'

theorem spares_others {e : CacheEv} (h : ∀ ns, e.op.op = .invalidateNamespace ns →
    e.stmt.InvalidatesIn ns) : SparesOthers e := by
  intro ns hop db' hx
  obtain ⟨s, op, c, st, r, db⟩ := e
  rcases h ns hop with hst | hst | ⟨ids, hst⟩
  · obtain rfl : st = .ensureNamespace ns := hst
    cases hx
    refine ⟨fun x _ => ?_, fun ns' hne => ?_⟩
    · unfold CacheDb.ensureNamespace
      split <;> rfl
    · rw [generationOf_ensure, if_neg hne]
  · obtain rfl : st = .viewRows ns := hst
    obtain rfl : db = db' := congrArg Prod.snd (Option.some.inj hx)
    exact ⟨fun x _ => Iff.rfl, fun ns' _ => rfl⟩
  · obtain rfl : st = .bumpGeneration ns ids := hst
    obtain ⟨-, hx⟩ := of_guard hx
    cases hx
    refine ⟨fun x hne => ?_, fun ns' hne => ?_⟩
    · unfold CacheDb.bumpGeneration
      split
      · rfl
      · rw [List.mem_filter]
        simp [hne]
    · cases hg : db.generationOf ns with
      | none =>
        unfold CacheDb.bumpGeneration
        rw [hg]
      | some g => rw [generationOf_bump hg, if_neg hne]

/-- the row a read has seen was published after `σ₀`, above all that was published before -/
def SeenSince (σ₀ σ₁ σ₂ : CacheSys) (t : Nat) (ns key : String) (value : Option Bytes) : Prop :=
  ∃ d ∈ eventsSince σ₁ σ₂, d.sess = t ∧ ∃ z ∈ d.pre.entries, z.namespace_ = ns ∧ z.cacheKey = key ∧
    (∀ v, value = some v → z.valueBytes = v) ∧
    (∃ e ∈ eventsSince σ₀ σ₂, ∃ y ∈ publishedBy e, y.content = z.content) ∧
    ∀ e ∈ σ₀.hist, ∀ y ∈ publishedBy e, y.namespace_ = ns → y.generation < z.generation

theorem seen_since {σ₀ σ₁ σ₂ : CacheSys} (hr : CacheReach σ₀)
    (h₀₁ : Relation.ReflTransGen CacheStep σ₀ σ₁) (h₁₂ : Relation.ReflTransGen CacheStep σ₁ σ₂)
    {s t : Nat} {inv : CacheCall} {a : CacheReturn} {ns : String} (hs : σ₀.prog s = none)
    (hinv : inv.op = .invalidateNamespace ns) (hret : (s, inv, .ok a) ∈ returnedSince σ₀ σ₁)
    {call : CacheCall} {r : PgAppResult CacheReturn} {key : String} {value : Option Bytes}
    (ht : σ₁.prog t = none) (hread : (t, call, r) ∈ returnedSince σ₁ σ₂)
    (hsaw : Saw call.op r ns key value) : SeenSince σ₀ σ₁ σ₂ t ns key value := by
  have hr₁ : CacheReach σ₁ := hr.trans h₀₁
  have hr₂ : CacheReach σ₂ := hr₁.trans h₁₂
  have hh₁ := hist_eq_since id hr h₀₁
  have hh₂ := hist_eq_since id hr₁ h₁₂
  have hh₀₂ := hist_eq_since id hr (h₀₁.trans h₁₂)
  obtain ⟨part, hans, hinfix⟩ := answered_since id hr₁ h₁₂ ht hread
  obtain ⟨v, hrv, hv⟩ := hsaw.reads hans
  obtain ⟨g, id', e, he, d, hd, hes, hse, hsd⟩ := read_events hrv hinfix
  have hord := cache_follows id hr₂
  have hord' : ∀ x ∈ eventsSince σ₁ σ₂, ∃ h, Ordered id x h := fun x hx =>
    hord.of_mem (by rw [hh₂]; exact List.mem_append_left _ hx)
  obtain ⟨hd', hod⟩ := hord' d hd
  have hgd := hod.lookup hsd
  obtain ⟨h₁, h₂, hsplit⟩ := List.append_of_mem (show e ∈ σ₂.hist by
    rw [hh₂]; exact List.mem_append_left _ he)
  rw [hsplit] at hord
  obtain ⟨z, hz, hzk, hzv⟩ := hord.head.read hse
  have hzu := EntryRow.isAt_iff.mp (EntryRow.isKey_iff.mp hzk).1
  have hzns : z.namespace_ = ns := congrArg (·.1) hzu
  have hzg : z.generation = g := congrArg (·.2.1) hzu
  -- everything published before `σ₀` is of a lower generation
  have hlower : ∀ e ∈ σ₀.hist, ∀ y ∈ publishedBy e, y.namespace_ = ns →
      y.generation < z.generation := by
    intro e₀ he₀ y hy hyns
    obtain ⟨g₀, hg₀, hle⟩ := (cache_traced id hr).1.published e₀ he₀ y hy
    rw [hyns] at hg₀
    obtain ⟨new₁, hnew₁, hg₁, -⟩ := steps_generation id h₀₁ hg₀
    obtain ⟨new₂, hnew₂, -, hpre⟩ := steps_generation id h₁₂ hg₁
    have e₁ : new₁ = eventsSince σ₀ σ₁ := (take_of_append hnew₁).symm
    have e₂ : new₂ = eventsSince σ₁ σ₂ := (take_of_append hnew₂).symm
    obtain ⟨g', hg', hge⟩ := hpre d (by rw [e₂]; exact hd)
    rw [hgd] at hg'
    obtain rfl := Option.some.inj hg'
    obtain ⟨part', hans', hinfix'⟩ := answered_since id hr h₀₁ hs hret
    obtain ⟨ids, hb⟩ : ∃ ids, (⟨.bumpGeneration ns ids, ()⟩ : Said) ∈ said part' := by
      obtain ⟨store, rounds, o⟩ := inv
      obtain rfl : o = .invalidateNamespace ns := hinv
      exact hans' a rfl
    obtain ⟨b, hbm, hbs⟩ := mem_said hb
    have hbm' : b ∈ new₁ := by
      rw [e₁]
      exact List.mem_of_mem_filter (hinfix'.subset hbm)
    have hpos : 0 < new₁.countP fun e => e.stmt.bumps ns :=
      List.countP_pos_iff.mpr ⟨b, hbm', CacheStmt.bumps_iff.mpr ⟨ids, hbs⟩⟩
    rw [hzg]
    omega
  have htr := (cache_traced id hr₂).2
  rw [hsplit] at htr
  obtain ⟨w, hw, y, hy, hyc⟩ := htr.head.origin z hz
  have hw' : w ∈ eventsSince σ₀ σ₂ := by
    have hwm : w ∈ σ₂.hist := by
      rw [hsplit]
      exact List.mem_append_right _ (List.mem_cons_of_mem _ hw)
    rw [hh₀₂] at hwm
    rcases List.mem_append.mp hwm with h3 | h3
    · exact h3
    · exfalso
      have hu : y.uniq = z.uniq := congrArg (·.2.1) hyc
      have h4 := hlower w h3 y hy ((congrArg (·.1) hu).trans hzns)
      have h5 : y.generation = z.generation := congrArg (·.2.1) hu
      omega
  refine ⟨e, he, hes, z, hz, hzns, (EntryRow.isKey_iff.mp hzk).2, fun v' hv' => ?_,
    ⟨w, hw', y, hy, hyc⟩,
    hlower⟩
  rw [hzv]
  exact hv v' hv'

/-- **Invalidation is final.**  A read that starts after an invalidation has returned sees only what
was published after the invalidation started; generations never go down; and an invalidation leaves
the other namespaces alone. -/
theorem cache_invalidation {σ₀ σ₁ σ₂ : CacheSys} (hr : CacheReach σ₀)
    (h₀₁ : Relation.ReflTransGen CacheStep σ₀ σ₁) (h₁₂ : Relation.ReflTransGen CacheStep σ₁ σ₂) :
    (∀ s inv a ns, σ₀.prog s = none → inv.op = .invalidateNamespace ns →
      (s, inv, .ok a) ∈ returnedSince σ₀ σ₁ →
      ∀ t call r key value, σ₁.prog t = none → (t, call, r) ∈ returnedSince σ₁ σ₂ →
        Saw call.op r ns key value → SeenSince σ₀ σ₁ σ₂ t ns key value) ∧
    (∀ ns g, σ₀.db.generationOf ns = some g → ∃ g', σ₁.db.generationOf ns = some g' ∧ g ≤ g') ∧
    ∀ e ∈ σ₂.hist, SparesOthers e := by
  refine ⟨fun s inv a ns hs hinv hret t call r key value ht hread hsaw =>
    seen_since hr h₀₁ h₁₂ hs hinv hret ht hread hsaw, fun ns g hg => ?_, fun e he => ?_⟩
  · obtain ⟨new, -, h1, -⟩ := steps_generation id h₀₁ hg
    exact ⟨_, h1, by omega⟩
  · obtain ⟨h, hst⟩ := (invalidate_stmts (hr.trans (h₀₁.trans h₁₂))).of_mem he
    exact spares_others hst

def setA (v : Bytes) : CacheCall := ⟨unbounded sampleHash, 0, .set "app" "a" v none⟩
def invalidateApp : CacheCall := ⟨unbounded sampleHash, 0, .invalidateNamespace "app"⟩
def getA : CacheCall := ⟨unbounded sampleHash, 0, .get "app" "a"⟩

/-- a key is set, its namespace invalidated, the key set again, and read -/
def readRewritten : List (Act CacheCall CacheCtx) :=
  .call 0 (setA [2]) :: (List.replicate 3 (.stmt 0 ⟨2, id⟩) ++ whole 2 getA ⟨3, id⟩ 4)

theorem cache_invalidation_rewritten : ∃ σ₀ σ₁ σ₂ : CacheSys, CacheReach σ₀ ∧
    Relation.ReflTransGen CacheStep σ₀ σ₁ ∧ Relation.ReflTransGen CacheStep σ₁ σ₂ ∧
    σ₀.db.entries.map (·.valueBytes) = [[1]] ∧ SeenSince σ₀ σ₁ σ₂ 2 "app" "a" (some [2]) := by
  have h : ((Sys.init CacheDb.empty).play CacheStmt.exec CacheCall.body
      (whole 0 (setA [1]) ⟨0, id⟩ 8)).bind (fun σ₀ : CacheSys =>
        (σ₀.play CacheStmt.exec CacheCall.body (whole 1 invalidateApp ⟨1, id⟩ 3)).bind fun σ₁ =>
          (σ₁.play CacheStmt.exec CacheCall.body readRewritten).map fun σ₂ =>
            (σ₀.db.entries.map (·.valueBytes), σ₀.prog 1, returnedSince σ₀ σ₁, σ₁.prog 2,
              returnedSince σ₁ σ₂))
      = some ([[1]], none, [(1, invalidateApp, .ok .unit)], none,
          [(2, getA, .ok (.value (some [2])))]) := by rfl
  obtain ⟨σ₀, h0, h⟩ := Option.bind_eq_some_iff.mp h
  obtain ⟨σ₁, h1, h⟩ := Option.bind_eq_some_iff.mp h
  obtain ⟨σ₂, h2, heq⟩ := Option.map_eq_some_iff.mp h
  simp only [Prod.mk.injEq] at heq
  obtain ⟨hv, hs, hret, ht, hread⟩ := heq
  have hr : CacheReach σ₀ := Sys.play_steps h0
  exact ⟨σ₀, σ₁, σ₂, hr, Sys.play_steps h1, Sys.play_steps h2, hv,
    (cache_invalidation hr (Sys.play_steps h1) (Sys.play_steps h2)).1 1 invalidateApp .unit "app" hs
      rfl (by rw [hret]; exact List.mem_cons_self) 2 getA (.ok (.value (some [2]))) "a"
        (some [2]) ht
      (by rw [hread]; exact List.mem_cons_self) ⟨rfl, rfl, rfl⟩⟩

end PgApp
