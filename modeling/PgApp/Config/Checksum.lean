import PgApp.Config.GetRelease

/-!
# A checksum depends on the content only

* `activePairs h scope`   what the edits committed in `h` leave of the scope: tombstones,
overwritten
                          values and the order of the edits are forgotten;
* `Published`             a release and what had been committed before it, in a run;
* `snapshot_determined`   two sorted maps with the same pairs are the same map.

So any two releases out of the same active pairs have one snapshot and one checksum, in whatever
runs and scopes they were published (`checksum_by_content`), and `get_release` hands that snapshot
back.
-/

namespace PgApp
open Interleave ConfigProg

/-- the keys that are not deleted, with their values -/
def activePairs (h : List ConfigEv) (scope : ConfigScope) : Set (String × Json) :=
  {p | lastEdit h scope p.1 = some (some p.2)}

/-- the release `x` of the scope was published when `past` was what had been executed -/
def Published (σ : ConfigSys) (scope : ConfigScope) (x : ReleaseRow)
    (past : List ConfigEv) : Prop :=
  x ∈ (σ.db.tables.state scope).releases ∧
    ∃ later e, σ.hist = later ++ e :: past ∧ ConfigEv.publishes scope x.revision e = true

/-- the stores of a run have the same `serde_json::to_vec` and the same SHA-256 -/
def SameLibraries (toVec : Json → Except String (List UInt8)) (sha256Hex : List UInt8 → String)
    (h : List ConfigEv) : Prop :=
  ∀ e ∈ h, e.op.store.toVec = toVec ∧ e.op.store.sha256Hex = sha256Hex

/-! ## snapshots -/

theorem nodup_of_keysSorted {l : List (String × Json)} (hl : keysSorted l) : l.Nodup :=
  hl.imp fun h e => absurd (congrArg Prod.fst e) (ne_of_lt h)

/-- **A snapshot is determined by its pairs.** -/
theorem snapshot_determined {a b : List (String × Json)} (ha : keysSorted a) (hb : keysSorted b)
    (h : ∀ x, x ∈ a ↔ x ∈ b) : a = b := by
  have hperm : a.Perm b :=
    (List.perm_ext_iff_of_nodup (nodup_of_keysSorted ha) (nodup_of_keysSorted hb)).mpr h
  exact hperm.eq_of_pairwise (fun x y _ _ hxy hyx => absurd hxy (lt_asymm hyx)) ha hb

/-- two publications of one content -/
theorem PublishedBy.content {past₁ past₂ : List ConfigEv} {scope₁ scope₂ : ConfigScope}
    {x₁ x₂ : ReleaseRow} {e₁ e₂ : ConfigEv} (h₁ : PublishedBy past₁ scope₁ x₁ e₁)
    (h₂ : PublishedBy past₂ scope₂ x₂ e₂)
      (h : activePairs past₁ scope₁ = activePairs past₂ scope₂) :
    x₁.snapshot = x₂.snapshot := by
  obtain ⟨fields₁, hs₁, hsorted₁, hmem₁⟩ := h₁.snapshot
  obtain ⟨fields₂, hs₂, hsorted₂, hmem₂⟩ := h₂.snapshot
  rw [hs₁, hs₂]
  congr 1
  refine snapshot_determined hsorted₁ hsorted₂ fun x => ?_
  obtain ⟨key, v⟩ := x
  rw [hmem₁, hmem₂]
  exact Set.ext_iff.mp h (key, v)

theorem split_unique {E : Type} {p : E → Bool} {h a b a' b' : List E} {e e' : E}
    (hone : h.countP p ≤ 1) (he : h = a ++ e :: b) (he' : h = a' ++ e' :: b') (hp : p e = true)
    (hp' : p e' = true) : b = b' := by
  subst he
  have hcount : ∀ (a b : List E) (e : E), p e = true → 1 ≤ (a ++ e :: b).countP p := by
    intro a b e hp
    rw [List.countP_append, List.countP_cons_of_pos hp]
    omega
  rw [List.countP_append, List.countP_cons_of_pos hp] at hone
  rcases List.append_eq_append_iff.mp he' with ⟨c, rfl, hc⟩ | ⟨c, rfl, hc⟩
  · cases c with
    | nil => exact (List.cons.inj hc).2
    | cons d c =>
      rw [List.cons_append] at hc
      have hlater := hcount c b' e' hp'
      rw [← (List.cons.inj hc).2] at hlater
      omega
  · cases c with
    | nil => exact (List.cons.inj hc).2.symm
    | cons d c =>
      rw [List.cons_append] at hc
      have hearlier := hcount a' c d ((List.cons.inj hc).1 ▸ hp')
      omega

section
variable {σ τ : ConfigSys} {scope : ConfigScope} {x : ReleaseRow}

theorem release_eq (hr : ConfigReach σ) {y : ReleaseRow}
    (hx : x ∈ (σ.db.tables.state scope).releases) (hy : y ∈ (σ.db.tables.state scope).releases)
    (h : x.revision = y.revision) : x = y := by
  have H := hr.history scope
  refine List.inj_on_of_nodup_map ?_ hx hy h
  rw [H.revisions]
  exact nodup_revisionsTo _

theorem Published.by (hr : ConfigReach σ) {past : List ConfigEv} (h : Published σ scope x past) :
    ∃ e ∈ σ.hist, PublishedBy past scope x e := by
  have H := hr.history scope
  obtain ⟨hx, later, e, hsplit, hpub⟩ := h
  obtain ⟨later', e', past', hsplit', hby⟩ := H.published x hx
  have hone : σ.hist.countP (ConfigEv.publishes scope x.revision) ≤ 1 := by
    rw [H.counted]
    refine List.nodup_iff_count_le_one.mp ?_ _
    rw [H.revisions]
    exact nodup_revisionsTo _
  obtain rfl : past' = past := split_unique hone hsplit' hsplit hby.revision hpub
  refine ⟨e', ?_, hby⟩
  rw [hsplit']
  exact List.mem_append_right _ List.mem_cons_self

theorem exists_published (hr : ConfigReach σ) (hx : x ∈ (σ.db.tables.state scope).releases) :
    ∃ past, Published σ scope x past := by
  obtain ⟨later, e, past, hsplit, hby⟩ := (hr.history scope).published x hx
  exact ⟨past, hx, later, e, hsplit, hby.revision⟩

theorem releases_grow (hσ : ConfigReach σ) (hst : Relation.ReflTransGen ConfigStep σ τ)
    (scope : ConfigScope) :
    (σ.db.tables.state scope).releases <+: (τ.db.tables.state scope).releases := by
  induction hst with
  | refl => exact List.prefix_rfl
  | tail hυ hs ih =>
    have hr : ConfigReach _ := hσ.trans hυ
    cases hs with
    | call s op _ => exact ih
    | ret s op r _ => exact ih
    | stmt s op c st k r d' _ hx => exact ih.trans (releases_kept hr.locks hx scope)

end

/-! ## what `get_release` hands back -/

/-- the event reads this release of the scope -/
def ConfigEv.reads (scope : ConfigScope) (release : ConfigRelease) (e : ConfigEv) : Prop :=
  match e with
  | ⟨_, _, _, .latestRelease sc, some r, _⟩ => sc = scope ∧ r = release
  | ⟨_, _, _, .releaseAt sc _, some r, _⟩ => sc = scope ∧ r = release
  | _ => False

theorem releaseOrNotFound_own (call : ConfigCall) {scope : ConfigScope} {r : Option ConfigRelease}
    {γ : List ConfigEv}
    (h : ∀ release, r = some release → ∃ e ∈ γ, ConfigEv.reads scope release e) :
    OwnSafe call (fun r γ' => ∀ release, r = .ok release → ∃ e ∈ γ', ConfigEv.reads scope release e)
      (releaseOrNotFound scope r) γ := by
  cases r with
  | none => exact fun release he => (by cases he)
  | some x =>
    intro release he
    obtain rfl := Except.ok.inj he
    exact h x rfl

theorem getRelease_reads (call : ConfigCall) (scope : ConfigScope) (revision : Int)
    (γ : List ConfigEv) :
    OwnSafe call (fun r γ' => ∀ release, r = .ok release → ∃ e ∈ γ', ConfigEv.reads scope release e)
      (getRelease scope revision) γ := by
  refine Safe.check_bind (fun _ _ => ?_) fun e release h => (by cases h)
  show OwnSafe call _ (if revision ≤ 0 then _ else _) γ
  split
  · refine Safe.check_bind (fun _ _ => ?_) fun e release h => (by cases h)
    refine ⟨trivial, fun r γ' hm => releaseOrNotFound_own call fun release hr => ?_⟩
    obtain ⟨s, c, db, rfl⟩ := hm
    subst hr
    exact ⟨_, List.mem_cons_self, rfl, rfl⟩
  · refine ⟨trivial, fun r γ' hm => releaseOrNotFound_own call fun release hr => ?_⟩
    obtain ⟨s, c, db, rfl⟩ := hm
    subst hr
    exact ⟨_, List.mem_cons_self, rfl, rfl⟩

section
variable {σ : ConfigSys}

theorem reads_row (hr : ConfigReach σ) {e : ConfigEv} (he : e ∈ σ.hist) {scope : ConfigScope}
    {release : ConfigRelease} (h : ConfigEv.reads scope release e) :
    ∃ x ∈ (σ.db.tables.state scope).releases, release = rowToRelease scope x := by
  obtain ⟨L, hpre⟩ := past_kept hr he scope
  obtain ⟨h₁, h₂, hh⟩ := List.append_of_mem he
  have hpast := hr.relies.past
  rw [hh] at hpast
  obtain ⟨-, -, d, hx⟩ := hpast.head
  have hmem : release ∈ e.pre.tables.releasesOf scope := by
    obtain ⟨s, call, c, st, r, db⟩ := e
    cases st with
    | latestRelease sc =>
      cases r with
      | none => exact h.elim
      | some y =>
        obtain ⟨rfl, rfl⟩ := h
        have hval : (newestFirst (db.tables.releasesOf sc)).head? = some y :=
          congrArg Prod.fst (Option.some.inj hx)
        unfold newestFirst at hval
        exact (List.mem_insertionSort _).mp (List.mem_of_head? hval)
    | releaseAt sc n =>
      cases r with
      | none => exact h.elim
      | some y =>
        obtain ⟨rfl, rfl⟩ := h
        have hval : (db.tables.releasesOf sc).find? (·.revision == n) = some y :=
          congrArg Prod.fst (Option.some.inj hx)
        exact List.mem_of_find?_eq_some hval
    | _ => exact h.elim
  rw [releasesOf_eq L] at hmem
  obtain ⟨x, hx, rfl⟩ := List.mem_map.mp hmem
  exact ⟨x, hpre.subset hx, rfl⟩

/-- what `get_release` has handed back is a row of its scope -/
theorem getRelease_row (hr : ConfigReach σ) {s : Nat} {store : ConfigStore} {scope : ConfigScope}
    {n : Int} {release : ConfigRelease}
    (hd : (s, ⟨store, .getRelease scope n⟩, .ok (.release release)) ∈ σ.done) :
    ∃ x ∈ (σ.db.tables.state scope).releases, release = rowToRelease scope x := by
  have h := hr.done_of (fun call r h => ∀ scope n release, call.op = .getRelease scope n →
      r = .ok (.release release) → ∃ e ∈ h, ConfigEv.reads scope release e)
    (fun τ s call r hτ hp => ?_) (fun call r e h hh scope n release hop hres => ?_)
    s _ _ hd scope n release rfl rfl
  · obtain ⟨e, he, hreads⟩ := h
    exact reads_row hr he hreads
  · have hown := hτ.ownEvents (fun call r γ => ∀ scope n release, call.op = .getRelease scope n →
      r = .ok (.release release) → ∃ e ∈ γ, ConfigEv.reads scope release e) ?_ hp
    · intro scope n release hop hres
      obtain ⟨e, he, hreads⟩ := hown scope n release hop hres
      exact ⟨e, List.mem_of_mem_filter he, hreads⟩
    · intro call γ
      obtain ⟨store, op⟩ := call
      by_cases hop : ∃ scope n, op = .getRelease scope n
      · obtain ⟨scope, n, rfl⟩ := hop
        refine Safe.bind (getRelease_reads _ scope n γ) (fun release γ' h => ?_) fun e γ' _ => ?_
        · intro scope' n' release' hop hres
          obtain ⟨rfl, rfl⟩ : scope = scope' ∧ n = n' := by simpa using hop
          obtain rfl : release = release' := by simpa using hres
          exact h release rfl
        · intro _ _ _ _ hres
          cases hres
      · refine (Safe.trivial _ γ).mono fun r γ' _ scope n release he _ => ?_
        exact absurd ⟨scope, n, he⟩ hop
  · obtain ⟨e', he', hreads⟩ := hh scope n release hop hres
    exact ⟨e', List.mem_cons_of_mem _ he', hreads⟩

end

/-! ## the law -/

/-- the releases of one run, against those of another and against what `get_release` answers -/
structure ReleasesByContent (toVec : Json → Except String (List UInt8))
    (sha256Hex : List UInt8 → String) (σ₁ σ₂ : ConfigSys) : Prop where
  equal : ∀ scope₁ scope₂ x₁ x₂ past₁ past₂, Published σ₁ scope₁ x₁ past₁ →
    Published σ₂ scope₂ x₂ past₂ → activePairs past₁ scope₁ = activePairs past₂ scope₂ →
    x₁.snapshot = x₂.snapshot ∧ x₁.checksum = x₂.checksum
  published : ∀ scope, ∀ x ∈ (σ₁.db.tables.state scope).releases, ∃ past, Published σ₁ scope x past
  read : ∀ scope, ∀ x ∈ (σ₁.db.tables.state scope).releases,
    ∀ τ, Relation.ReflTransGen ConfigStep σ₁ τ → ∀ s store n release,
      (s, ⟨store, .getRelease scope n⟩, .ok (.release release)) ∈ τ.done →
      release.revision = x.revision →
      release.snapshot = x.snapshot ∧ release.checksum = x.checksum ∧
        ∀ store' : ConfigStore, store'.toVec = toVec → store'.sha256Hex = sha256Hex →
          store'.checksumJson release.snapshot = .ok x.checksum
  known : ∀ s store scope n release,
    (s, ⟨store, .getRelease scope n⟩, .ok (.release release)) ∈ σ₁.done →
    ∃ x ∈ (σ₁.db.tables.state scope).releases, release.revision = x.revision

theorem checksumJson_congr {store store' : ConfigStore} (h1 : store'.toVec = store.toVec)
    (h2 : store'.sha256Hex = store.sha256Hex) (value : Json) :
    store'.checksumJson value = store.checksumJson value := by
  unfold ConfigStore.checksumJson
  rw [h1, h2]

/-- **Checksums depend on the content only.**  Whatever two runs have interleaved, two releases that
were published out of the same active pairs have equal snapshots and equal checksums, and the
checksum of a release is that of the snapshot which `get_release` hands back. -/
theorem checksum_by_content {toVec : Json → Except String (List UInt8)}
    {sha256Hex : List UInt8 → String} {σ₁ σ₂ : ConfigSys} (h₁ : ConfigReach σ₁)
    (h₂ : ConfigReach σ₂) (hlib₁ : SameLibraries toVec sha256Hex σ₁.hist)
    (hlib₂ : SameLibraries toVec sha256Hex σ₂.hist) :
    ReleasesByContent toVec sha256Hex σ₁ σ₂ where
  equal := by
    intro scope₁ scope₂ x₁ x₂ past₁ past₂ hp₁ hp₂ hpairs
    obtain ⟨e₁, he₁, hby₁⟩ := hp₁.by h₁
    obtain ⟨e₂, he₂, hby₂⟩ := hp₂.by h₂
    have hsnapshot := hby₁.content hby₂ hpairs
    refine ⟨hsnapshot, ?_⟩
    have hchecksum₁ := hby₁.checksum
    have hchecksum₂ := hby₂.checksum
    have hsame : e₂.op.store.checksumJson x₂.snapshot = e₁.op.store.checksumJson x₂.snapshot :=
      checksumJson_congr ((hlib₂ e₂ he₂).1.trans (hlib₁ e₁ he₁).1.symm)
        ((hlib₂ e₂ he₂).2.trans (hlib₁ e₁ he₁).2.symm) _
    rw [hsame, ← hsnapshot, hchecksum₁] at hchecksum₂
    exact Except.ok.inj hchecksum₂
  published := fun _ _ hx => exists_published h₁ hx
  read := by
    intro scope x hx τ hτ s store n release hd hrev
    have hrτ : ConfigReach τ := h₁.trans hτ
    obtain ⟨y, hy, rfl⟩ := getRelease_row hrτ hd
    obtain rfl : y = x := release_eq hrτ hy ((releases_grow h₁ hτ scope).subset hx) hrev
    refine ⟨rfl, rfl, fun store' h1 h2 => ?_⟩
    obtain ⟨past, hp⟩ := exists_published h₁ hx
    obtain ⟨e, he, hby⟩ := hp.by h₁
    have hlib := hlib₁ e he
    exact (checksumJson_congr (h1.trans hlib.1.symm) (h2.trans hlib.2.symm) _).trans hby.checksum
  known := by
    intro s store scope n release hd
    obtain ⟨x, hx, rfl⟩ := getRelease_row h₁ hd
    exact ⟨x, hx, rfl⟩

def devScope : ConfigScope := ⟨"shop", "dev", "main", "app"⟩

/-- one call of session 0, of `n` statements, from time `c` on -/
def serve (op : ConfigOp) (c : Time) (n : Nat) : List (Act ConfigCall Time) :=
  .call 0 ⟨shopStore, op⟩ :: stmts 0 c n ++ [.ret 0]

/-- a key is set and published -/
def oneEdit : List (Act ConfigCall Time) :=
  serve (.upsertItem shopScope "a" (.bool true)) 0 5 ++
    serve (.publish shopScope "first" "ann") 10 8

/-- the same content, after two tombstones, a value set again and a release before it -/
def manyEdits : List (Act ConfigCall Time) :=
  serve (.upsertItem devScope "a" (.bool true)) 0 5 ++
    serve (.publish devScope "early" "bob") 10 8 ++
  serve (.upsertItem devScope "b" (.bool true)) 20 5 ++ serve (.deleteItem devScope "a") 30 4 ++
  serve (.deleteItem devScope "b") 40 4 ++ serve (.upsertItem devScope "a" (.bool true)) 50 5 ++
  serve (.publish devScope "again" "bob") 60 8 ++ serve (.getRelease devScope 2) 70 1

theorem checksum_by_content_manyEdits :
    ∃ σ₁ σ₂ : ConfigSys, ConfigReach σ₁ ∧ ConfigReach σ₂ ∧
      (σ₁.db.tables.state shopScope).releases.map (·.revision) = [1] ∧
      (σ₂.db.tables.state devScope).releases.map (·.revision) = [1, 2] ∧
      ReleasesByContent shopStore.toVec shopStore.sha256Hex σ₁ σ₂ := by
  have h₁ : ((Sys.init ConfigDb.empty : ConfigSys).play ConfigStmt.exec ConfigCall.body oneEdit).map
      (fun σ => ((σ.db.tables.state shopScope).releases.map (·.revision),
        σ.hist.map (·.op.store))) = some ([1], List.replicate 13 shopStore) := by rfl
  have h₂ : ((Sys.init ConfigDb.empty : ConfigSys).play ConfigStmt.exec ConfigCall.body
    manyEdits).map
      (fun σ => ((σ.db.tables.state devScope).releases.map (·.revision),
        σ.hist.map (·.op.store))) = some ([1, 2], List.replicate 40 shopStore) := by rfl
  have hlib : ∀ (h : List ConfigEv) (n : Nat), h.map (·.op.store) = List.replicate n shopStore →
      SameLibraries shopStore.toVec shopStore.sha256Hex h := by
    intro h n hstores e he
    have hmem : e.op.store ∈ List.replicate n shopStore :=
      hstores ▸ List.mem_map_of_mem (f := fun e : ConfigEv => e.op.store) he
    rw [List.eq_of_mem_replicate hmem]
    exact ⟨rfl, rfl⟩
  obtain ⟨σ₁, hσ₁, he₁⟩ := Option.map_eq_some_iff.mp h₁
  obtain ⟨σ₂, hσ₂, he₂⟩ := Option.map_eq_some_iff.mp h₂
  obtain ⟨hrev₁, hstores₁⟩ := Prod.mk.inj he₁
  obtain ⟨hrev₂, hstores₂⟩ := Prod.mk.inj he₂
  have hr₁ : ConfigReach σ₁ := Sys.play_steps hσ₁
  have hr₂ : ConfigReach σ₂ := Sys.play_steps hσ₂
  exact ⟨σ₁, σ₂, hr₁, hr₂, hrev₁, hrev₂,
    checksum_by_content hr₁ hr₂ (hlib _ 13 hstores₁) (hlib _ 40 hstores₂)⟩

end PgApp
