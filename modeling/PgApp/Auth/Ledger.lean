import PgApp.Auth.Gate

/-!
# The table of clients follows the calls made

The calls of a run in the order of their statements, each with its answer (`callLog`), tell which
secret a key has now: `HoldsSecret k secret log`.  The table follows the log (`ClientLedger`), by
what an executed statement can do (`AuthEffect`): it adds the client, gives its row a new hash,
turns the row off, or leaves the table alone.

Assumed of the libraries (`ClientLib.Sound`): SHA-256 has no collisions, Argon2 verifies a hash with
the password it was made of and with no other, and roles come back from JSON as they went in.

Main result: `ClientLedger.step`.
-/

namespace PgApp
open Interleave AuthProg

/-- what the code relies on -/
structure ClientLib.Sound (lib : ClientLib) : Prop where
  hashKey_injective : Function.Injective lib.hashKey
  verify_exact : ∀ password salt hash, lib.hashPassword password salt = .ok hash →
    ∀ password', lib.verifyPassword hash password' = .ok (password' == password)
  roles_back : ∀ roles value, lib.toValue roles = .ok value → lib.fromValue value = .ok roles

/-! ## the log of a run -/

/-- what the call of an executed statement answers when it is made alone, then and there -/
def outcome (lib : ClientLib) (e : AuthEv) : Option (PgAppResult AuthReturn) :=
  (e.op.runAlone lib e.sess e.ctx e.pre).map (·.1)

/-- an operation and its answer -/
abbrev LogEntry := AuthOp × Option (PgAppResult AuthReturn)

/-- the calls of a run in the order of their statements, the newest first -/
def callLog (lib : ClientLib) (h : List AuthEv) : List LogEntry :=
  h.map fun e => (e.op.op, outcome lib e)

/-- the secret that a creation or a rotation has returned for the key -/
def secretGiven (k : String) : LogEntry → Option String
  | (.createClient k' _, some (.ok (.created c))) => if k' = k then some c.secret else none
  | (.rotateSecret k', some (.ok (.rotated (some c)))) => if k' = k then some c.secret else none
  | _ => none

/-- the one returned last -/
def latestSecret (k : String) (log : List LogEntry) : Option String := log.findSome? (secretGiven k)

def Created (k : String) (log : List LogEntry) : Prop :=
  ∃ roles c, (.createClient k roles, some (.ok (.created c))) ∈ log

def Deactivated (k : String) (log : List LogEntry) : Prop :=
  (.deactivate k, some (.ok (.bool true))) ∈ log

/-- the key has a client that was never deactivated, and `secret` is what its creation or its latest
rotation has returned -/
def HoldsSecret (k secret : String) (log : List LogEntry) : Prop :=
  Created k log ∧ ¬ Deactivated k log ∧ latestSecret k log = some secret

theorem latestSecret_cons (k : String) (e : LogEntry) (log : List LogEntry) :
    latestSecret k (e :: log) = (secretGiven k e).or (latestSecret k log) := by
  unfold latestSecret
  rw [List.findSome?_cons]
  cases secretGiven k e with
  | none => rfl
  | some x => rfl

theorem created_cons (k : String) (e : LogEntry) (log : List LogEntry) :
    Created k (e :: log) ↔ (∃ roles c, e = (.createClient k roles, some (.ok (.created c)))) ∨
      Created k log := by
  constructor
  · intro h
    obtain ⟨roles, c, hm⟩ := h
    rcases List.mem_cons.mp hm with h1 | h1
    · exact .inl ⟨roles, c, h1.symm⟩
    · exact .inr ⟨roles, c, h1⟩
  · intro h
    rcases h with ⟨roles, c, rfl⟩ | ⟨roles, c, hm⟩
    · exact ⟨roles, c, List.mem_cons_self⟩
    · exact ⟨roles, c, List.mem_cons_of_mem _ hm⟩

theorem deactivated_cons (k : String) (e : LogEntry) (log : List LogEntry) :
    Deactivated k (e :: log) ↔ e = (.deactivate k, some (.ok (.bool true))) ∨
        Deactivated k log := by
  unfold Deactivated
  rw [List.mem_cons, eq_comm]

/-! ## what an executed statement can do -/

/-- the table after a statement, and what its call answers -/
inductive AuthEffect (lib : ClientLib) (call : AuthCall) (db db' : AuthDb)
    (answer : Option (PgAppResult AuthReturn)) : Prop
  | created (k : String) (roles : List String) (sh : String) (v : Json) (now : Time)
      (hop : call.op = .createClient k roles) (hk : validateClientKey k = .ok ())
      (hsh : lib.hashPassword (generateSecret call.seed) call.seed.salt = .ok sh)
      (hv : lib.toValue roles = .ok v) (hnew : ∀ row ∈ db.clients, row.keyHash ≠ lib.hashKey k)
      (hdb : db'.clients = db.clients ++
        [⟨db.nextClientId, k, lib.hashKey k, sh, true, v, now, now⟩])
      (ha : answer = some (.ok (.created ⟨db.nextClientId, k, generateSecret call.seed, roles⟩)))
  | rotated (k sh : String) (now : Time) (row : ClientRow) (hop : call.op = .rotateSecret k)
      (hsh : lib.hashPassword (generateSecret call.seed) call.seed.salt = .ok sh)
      (hrow : row ∈ db.clients) (hact : row.isActive (lib.hashKey k) = true)
      (hdb : db'.clients = db.clients.map fun row =>
        if row.isActive (lib.hashKey k) then row.withSecret sh now else row)
      (ha : ∀ roles, lib.fromValue row.roles = .ok roles →
        answer = some (.ok (.rotated (some
          ⟨row.id, row.clientKey, generateSecret call.seed, roles⟩))))
  | deactivated (k : String) (now : Time) (row : ClientRow) (hop : call.op = .deactivate k)
      (hrow : row ∈ db.clients) (hact : row.isActive (lib.hashKey k) = true)
      (hdb : db'.clients = db.clients.map fun row =>
        if row.isActive (lib.hashKey k) then { row with active := false, updatedAt :=
          now } else row)
      (ha : answer = some (.ok (.bool true)))
  | silent (hdb : db'.clients = db.clients) (hgives : ∀ k, secretGiven k (call.op, answer) = none)
      (hoff : ∀ k, (call.op, answer) ≠ (.deactivate k, some (.ok (.bool true))))

/-- the statements a call issues: the first of its program, and those of the gate -/
def Issues (lib : ClientLib) (call : AuthCall) (st : AuthStmt) : Prop :=
  match call.op with
  | .request _ _ =>
    (∃ kh, st = .selectActive kh) ∨ ∃ request identity, st = .callInner request identity
  | _ => ∃ k, call.body lib = .exec st k

section
variable {lib : ClientLib} {call : AuthCall} {s : Nat} {now : Time} {db db' : AuthDb}

/-- a call that ends after its statement answers what it makes of the statement's answer -/
theorem issued_outcome {α : Type} {f : α → AuthReturn} {st st₀ : AuthStmt} {r : st.Res}
    {g : st₀.Res → PgAppResult α} {p : AuthProg α}
    (hb : call.body lib = (p >>= fun a => pure (f a))) (hp : p = .exec st₀ fun r => .ret (g r))
    (hi : ∃ kont, call.body lib = .exec st kont) (hx : st.exec s now db = some (r, db')) :
    ∃ r₀ : st₀.Res, st₀.exec s now db = some (r₀, db') ∧
      outcome lib ⟨s, call, now, st, r, db⟩ = some ((g r₀).map f) := by
  obtain ⟨kont, hkont⟩ := hi
  rw [hp] at hb
  rw [hb] at hkont
  injection hkont with h1 h2
  subst h1
  refine ⟨r, hx, ?_⟩
  unfold outcome AuthCall.runAlone
  simp only [hb, Prog.bind_exec]
  rw [Prog.run_exec_of _ hx]
  cases g r <;> rfl

theorem mapError_ok {α : Type} {r : Except String α} {f : String → PgAppError} {a : α}
    (h : r.mapError f = .ok a) : r = .ok a := by
  cases r with
  | error e => cases h
  | ok b =>
    have h1 := Except.ok.inj h
    rw [h1]

/-- `create_client` after its statement -/
def createdClient (seed : Seed) (k : String) (roles : List String) :
    Except SqlError Int → PgAppResult CreatedClient
  | .ok id => .ok ⟨id, k, generateSecret seed, roles⟩
  | .error err => .error (mapCreateError err)

/-- `create_client` ends in a check or issues its INSERT -/
theorem createClient_cases (lib : ClientLib) (seed : Seed) (k : String) (roles : List String) :
    (∃ e, createClient lib seed k roles = .ret (.error e)) ∨
      ∃ sh v, validateClientKey k = .ok () ∧
        lib.hashPassword (generateSecret seed) seed.salt = .ok sh ∧ lib.toValue roles = .ok v ∧
        createClient lib seed k roles = .exec (.insertClient k (lib.hashKey k) sh v) fun r =>
          .ret (createdClient seed k roles r) := by
  unfold createClient
  dsimp only
  cases h1 : validateClientKey k with
  | error e => exact .inl ⟨e, rfl⟩
  | ok u =>
    cases h2 : validateRoles roles with
    | error e => exact .inl ⟨e, rfl⟩
    | ok u' =>
      cases h3 : lib.hashSecret (generateSecret seed) seed.salt with
      | error e => exact .inl ⟨e, rfl⟩
      | ok sh =>
        cases h4 : lib.rolesJson roles with
        | error e => exact .inl ⟨e, rfl⟩
        | ok v =>
          refine .inr ⟨sh, v, rfl, mapError_ok h3, mapError_ok h4, ?_⟩
          show Prog.exec _ _ = _
          congr 1
          funext r
          cases r <;> rfl

/-- `rotate_secret` after its statement -/
def ClientLib.rotatedClient (lib : ClientLib) (seed : Seed) :
    Option ClientRow → PgAppResult (Option CreatedClient)
  | none => .ok none
  | some row => (lib.parseRoles row.roles).map fun roles =>
      some ⟨row.id, row.clientKey, generateSecret seed, roles⟩

/-- `rotate_secret` ends in a check or issues its UPDATE -/
theorem rotateSecret_cases (lib : ClientLib) (seed : Seed) (k : String) :
    (∃ e, rotateSecret lib seed k = .ret (.error e)) ∨
      ∃ sh, lib.hashPassword (generateSecret seed) seed.salt = .ok sh ∧
        rotateSecret lib seed k = .exec (.updateSecret (lib.hashKey k) sh) fun r =>
          .ret (lib.rotatedClient seed r) := by
  unfold rotateSecret
  dsimp only
  cases h1 : validateClientKey k with
  | error e => exact .inl ⟨e, rfl⟩
  | ok u =>
    cases h2 : lib.hashSecret (generateSecret seed) seed.salt with
    | error e => exact .inl ⟨e, rfl⟩
    | ok sh =>
      refine .inr ⟨sh, mapError_ok h2, ?_⟩
      show Prog.exec _ _ = _
      congr 1
      funext r
      cases r with
      | none => rfl
      | some row =>
        show (Prog.check (lib.parseRoles row.roles) >>= _)
          = .ret (Except.map _ (lib.parseRoles row.roles))
        cases lib.parseRoles row.roles <;> rfl

theorem deactivate_cases (lib : ClientLib) (k : String) :
    (∃ e, deactivate lib k = .ret (.error e)) ∨
      deactivate lib k = .exec (.deactivate (lib.hashKey k)) fun n =>
        .ret (.ok (decide (0 < n))) := by
  unfold deactivate
  cases validateClientKey k with
  | error e => exact .inl ⟨e, rfl⟩
  | ok u => exact .inr rfl

theorem authenticate_cases (lib : ClientLib) (k secret : String) :
    authenticate lib k secret = .ret (.ok none) ∨
      authenticate lib k secret = .exec (.selectActive (lib.hashKey k)) fun row =>
        .ret (lib.identify secret row) := by
  unfold authenticate
  split
  · exact .inl rfl
  · exact .inr rfl

/-! ## the effect of each call -/

theorem map_inactive {kh : String} {f : ClientRow → ClientRow} {l : List ClientRow}
    (h : ∀ row ∈ l, row.isActive kh = false) :
    (l.map fun row => if row.isActive kh then f row else row) = l := by
  conv_rhs => rw [← List.map_id l]
  refine List.map_congr_left fun row hrow => ?_
  rw [h row hrow]
  rfl

theorem effect_create {k : String} {roles : List String} {st : AuthStmt} {r : st.Res}
    (hop : call.op = .createClient k roles) (hi : ∃ kont, call.body lib = .exec st kont)
    (hx : st.exec s now db = some (r, db')) :
    AuthEffect lib call db db' (outcome lib ⟨s, call, now, st, r, db⟩) := by
  have hb : call.body lib = (createClient lib call.seed k roles >>=
      fun c => pure (.created c)) := by
    unfold AuthCall.body
    rw [hop]
  rcases createClient_cases lib call.seed k roles with ⟨e, hp⟩ | ⟨sh, v, hk, hsh, hv, hp⟩
  · obtain ⟨kont, hkont⟩ := hi
    rw [hb, hp] at hkont
    cases hkont
  · obtain ⟨r₀, hx₀, ho⟩ := issued_outcome hb hp hi hx
    have hx' : db.insertClient k (lib.hashKey k) sh v now = (r₀, db') := Option.some.inj hx₀
    unfold AuthDb.insertClient at hx'
    rw [ho]
    split at hx'
    · obtain ⟨rfl, rfl⟩ := Prod.mk.inj hx'
      refine .silent rfl (fun k' => ?_) (fun k' => ?_)
      · rw [hop]
        rfl
      · rw [hop]
        exact fun h => by cases h
    · rename_i hany
      obtain ⟨rfl, rfl⟩ := Prod.mk.inj hx'
      refine .created k roles sh v now hop hk hsh hv (fun row hrow he => hany ?_) rfl rfl
      exact List.any_eq_true.mpr ⟨row, hrow, beq_iff_eq.mpr he⟩

theorem effect_rotate {k : String} {st : AuthStmt} {r : st.Res}
    (hop : call.op = .rotateSecret k) (hi : ∃ kont, call.body lib = .exec st kont)
    (hx : st.exec s now db = some (r, db')) :
    AuthEffect lib call db db' (outcome lib ⟨s, call, now, st, r, db⟩) := by
  have hb : call.body lib = (rotateSecret lib call.seed k >>= fun c => pure (.rotated c)) := by
    unfold AuthCall.body
    rw [hop]
  rcases rotateSecret_cases lib call.seed k with ⟨e, hp⟩ | ⟨sh, hsh, hp⟩
  · obtain ⟨kont, hkont⟩ := hi
    rw [hb, hp] at hkont
    cases hkont
  · obtain ⟨r₀, hx₀, ho⟩ := issued_outcome hb hp hi hx
    have hx' : db.updateSecret (lib.hashKey k) sh now = (r₀, db') := Option.some.inj hx₀
    obtain ⟨rfl, rfl⟩ := Prod.mk.inj hx'
    rw [ho]
    cases hf : db.clients.find? (·.isActive (lib.hashKey k)) with
    | none =>
      have hnone : ∀ row ∈ db.clients, row.isActive (lib.hashKey k) = false := fun row hrow => by
        simpa using List.find?_eq_none.mp hf row hrow
      refine .silent (map_inactive hnone) (fun k' => ?_) (fun k' => ?_)
      · rw [hop]
        rfl
      · rw [hop]
        exact fun h => by cases h
    | some row =>
      have hact : row.isActive (lib.hashKey k) = true :=
        List.find?_some (p := fun row : ClientRow => row.isActive (lib.hashKey k)) hf
      refine .rotated k sh now row hop hsh (List.mem_of_find?_eq_some hf) hact rfl ?_
      intro roles hroles
      show some (Except.map _ (Except.map _ (lib.parseRoles row.roles))) = _
      unfold ClientLib.parseRoles
      rw [hroles]
      rfl

theorem effect_deactivate {k : String} {st : AuthStmt} {r : st.Res}
    (hop : call.op = .deactivate k) (hi : ∃ kont, call.body lib = .exec st kont)
    (hx : st.exec s now db = some (r, db')) :
    AuthEffect lib call db db' (outcome lib ⟨s, call, now, st, r, db⟩) := by
  have hb : call.body lib = (deactivate lib k >>= fun c => pure (.bool c)) := by
    unfold AuthCall.body
    rw [hop]
  rcases deactivate_cases lib k with ⟨e, hp⟩ | hp
  · obtain ⟨kont, hkont⟩ := hi
    rw [hb, hp] at hkont
    cases hkont
  · obtain ⟨r₀, hx₀, ho⟩ := issued_outcome hb hp hi hx
    have hx' : db.deactivate (lib.hashKey k) now = (r₀, db') := Option.some.inj hx₀
    obtain ⟨rfl, rfl⟩ := Prod.mk.inj hx'
    rw [ho]
    rcases List.eq_nil_or_concat (db.clients.filter
      (·.isActive (lib.hashKey k))) with hf | ⟨l, row, hf⟩
    · have hnone : ∀ row ∈ db.clients, row.isActive (lib.hashKey k) = false := fun row hrow => by
        simpa using List.filter_eq_nil_iff.mp hf row hrow
      rw [hf]
      refine .silent (map_inactive hnone) (fun k' => ?_) (fun k' => ?_)
      · rw [hop]
        rfl
      · intro h
        have h1 : some (.ok (.bool false) : PgAppResult AuthReturn) = some (.ok (.bool true)) :=
          (Prod.mk.inj h).2
        cases h1
    · have hmem : row ∈ db.clients.filter (·.isActive (lib.hashKey k)) := by
        rw [hf]
        simp
      obtain ⟨hrow, hact⟩ := List.mem_filter.mp hmem
      refine .deactivated k now row hop hrow hact rfl ?_
      have hpos : 0 < (db.clients.filter (·.isActive (lib.hashKey k))).length :=
        List.length_pos_of_mem hmem
      show some (Except.ok (AuthReturn.bool (decide (0 < _)))) = _
      rw [decide_eq_true hpos]

/-- an operation that gives no secret and turns nobody off -/
def AuthOp.reads : AuthOp → Bool
  | .authenticate _ _ => true
  | .listClients => true
  | .request _ _ => true
  | _ => false

theorem effect_reads {answer : Option (PgAppResult AuthReturn)} (hop : call.op.reads = true)
    (hdb : db'.clients = db.clients) : AuthEffect lib call db db' answer := by
  refine .silent hdb (fun k => ?_) (fun k h => ?_)
  · cases ho : call.op with
    | authenticate k' secret => rfl
    | listClients => rfl
    | request enabled request => rfl
    | _ => rw [ho] at hop; cases hop
  · rw [(Prod.mk.inj h).1] at hop
    cases hop

/-- **What an executed statement can do.** -/
theorem effect {st : AuthStmt} {r : st.Res} (hi : Issues lib call st)
    (hx : st.exec s now db = some (r, db')) :
    AuthEffect lib call db db' (outcome lib ⟨s, call, now, st, r, db⟩) := by
  unfold Issues at hi
  cases hop : call.op with
  | createClient k roles =>
    rw [hop] at hi
    exact effect_create hop hi hx
  | rotateSecret k =>
    rw [hop] at hi
    exact effect_rotate hop hi hx
  | deactivate k =>
    rw [hop] at hi
    exact effect_deactivate hop hi hx
  | authenticate k secret =>
    rw [hop] at hi
    have hb : call.body lib = (authenticate lib k secret >>= fun o => pure (.identity o)) := by
      unfold AuthCall.body
      rw [hop]
    refine effect_reads (by rw [hop]; rfl) ?_
    rcases authenticate_cases lib k secret with hp | hp
    · obtain ⟨kont, hkont⟩ := hi
      rw [hb, hp] at hkont
      cases hkont
    · obtain ⟨r₀, hx₀, -⟩ := issued_outcome hb hp hi hx
      obtain rfl : db = db' := congrArg Prod.snd (Option.some.inj hx₀)
      rfl
  | listClients =>
    rw [hop] at hi
    have hb : call.body lib = (listClients lib >>= fun l => pure (.clients l)) := by
      unfold AuthCall.body
      rw [hop]
    refine effect_reads (by rw [hop]; rfl) ?_
    have hp : listClients lib = .exec .selectClients fun rows => .ret (lib.records rows) := rfl
    obtain ⟨r₀, hx₀, -⟩ := issued_outcome hb hp hi hx
    obtain rfl : db = db' := congrArg Prod.snd (Option.some.inj hx₀)
    rfl
  | request enabled request =>
    rw [hop] at hi
    refine effect_reads (by rw [hop]; rfl) ?_
    rcases hi with ⟨kh, rfl⟩ | ⟨request', identity, rfl⟩
    · obtain rfl : db = db' := congrArg Prod.snd (Option.some.inj hx)
      rfl
    · obtain rfl := congrArg Prod.snd (Option.some.inj hx)
      rfl

end

/-! ## the table follows the log -/

/-- a secret and a salt that make the hash -/
def ClientLib.Hashes (lib : ClientLib) (secret hash : String) : Prop :=
  ∃ salt, lib.hashPassword secret salt = .ok hash

structure ClientLedger (lib : ClientLib) (db : AuthDb) (log : List LogEntry) : Prop where
  hashed : ∀ row ∈ db.clients, row.keyHash = lib.hashKey row.clientKey
  single : (db.clients.map (·.keyHash)).Nodup
  named : ∀ row ∈ db.clients, row.clientKey.isEmpty = false
  roles : ∀ row ∈ db.clients, ∃ roles, lib.fromValue row.roles = .ok roles
  secret : ∀ row ∈ db.clients, ∃ secret, latestSecret row.clientKey log = some secret ∧
    secret.isEmpty = false ∧ lib.Hashes secret row.secretHash
  created : ∀ row ∈ db.clients, Created row.clientKey log
  active : ∀ row ∈ db.clients, row.active = true ↔ ¬ Deactivated row.clientKey log
  stored : ∀ k, Created k log ∨ Deactivated k log → ∃ row ∈ db.clients, row.clientKey = k

theorem ClientLedger.empty (lib : ClientLib) : ClientLedger lib AuthDb.empty [] where
  hashed := fun _ h => absurd h List.not_mem_nil
  single := List.nodup_nil
  named := fun _ h => absurd h List.not_mem_nil
  roles := fun _ h => absurd h List.not_mem_nil
  secret := fun _ h => absurd h List.not_mem_nil
  created := fun _ h => absurd h List.not_mem_nil
  active := fun _ h => absurd h List.not_mem_nil
  stored := by
    intro k hex
    rcases hex with ⟨roles, c, hm⟩ | hm
    · exact absurd hm List.not_mem_nil
    · exact absurd hm List.not_mem_nil

theorem generateSecret_nonempty (seed : Seed) : (generateSecret seed).isEmpty = false := by
  rw [Bool.eq_false_iff, ne_eq, String.isEmpty_iff]
  intro h
  have h1 := congrArg String.toList h
  simp [generateSecret, toString] at h1

theorem validateClientKey_nonempty {k : String} (h : validateClientKey k = .ok ()) :
    k.isEmpty = false := by
  cases hk : k.isEmpty with
  | false => rfl
  | true =>
    unfold validateClientKey validateConfigComponent validateIdentifier at h
    rw [if_pos hk] at h
    cases h

namespace ClientLedger

section
variable {lib : ClientLib} {db db' : AuthDb} {log : List LogEntry}

theorem eq_of_key (L : ClientLedger lib db log) {row row' : ClientRow} (hr : row ∈ db.clients)
    (hr' : row' ∈ db.clients) (hk : row.clientKey = row'.clientKey) : row = row' := by
  refine List.inj_on_of_nodup_map L.single hr hr' ?_
  rw [L.hashed row hr, L.hashed row' hr', hk]

theorem key_of_active (L : ClientLedger lib db log) (hs : lib.Sound) {k : String} {row : ClientRow}
    (hr : row ∈ db.clients) (ha : row.isActive (lib.hashKey k) = true) :
    row.clientKey = k ∧ row.active = true := by
  unfold ClientRow.isActive at ha
  rw [Bool.and_eq_true, beq_iff_eq] at ha
  exact ⟨hs.hashKey_injective ((L.hashed row hr).symm.trans ha.1), ha.2⟩

theorem silent (L : ClientLedger lib db log) {e : LogEntry} (hdb : db'.clients = db.clients)
    (hgives : ∀ k, secretGiven k e = none)
    (hoff : ∀ k, e ≠ (.deactivate k, some (.ok (.bool true)))) :
        ClientLedger lib db' (e :: log) := by
  have hlatest : ∀ k, latestSecret k (e :: log) = latestSecret k log := fun k => by
    rw [latestSecret_cons, hgives k]
    rfl
  have hcreated : ∀ k, Created k (e :: log) ↔ Created k log := fun k => by
    rw [created_cons]
    refine or_iff_right ?_
    intro h
    obtain ⟨roles, c, rfl⟩ := h
    have h1 : (if k = k then some c.secret else none) = none := hgives k
    rw [if_pos rfl] at h1
    cases h1
  have hdeact : ∀ k, Deactivated k (e :: log) ↔ Deactivated k log := fun k => by
    rw [deactivated_cons]
    exact or_iff_right (hoff k)
  refine ⟨?_, ?_, ?_, ?_, ?_, ?_, ?_, ?_⟩
  · rw [hdb]
    exact L.hashed
  · rw [hdb]
    exact L.single
  · rw [hdb]
    exact L.named
  · rw [hdb]
    exact L.roles
  · intro row hrow
    rw [hdb] at hrow
    rw [hlatest]
    exact L.secret row hrow
  · intro row hrow
    rw [hdb] at hrow
    rw [hcreated]
    exact L.created row hrow
  · intro row hrow
    rw [hdb] at hrow
    rw [hdeact]
    exact L.active row hrow
  · intro k hk
    rw [hcreated, hdeact] at hk
    rw [hdb]
    exact L.stored k hk

theorem create (L : ClientLedger lib db log) (hs : lib.Sound) {k : String} {roles : List String}
    {seed : Seed} {sh : String} {v : Json} {now : Time} {id : Int}
    (hk : validateClientKey k = .ok ())
    (hsh : lib.hashPassword (generateSecret seed) seed.salt = .ok sh)
    (hv : lib.toValue roles = .ok v) (hnew : ∀ row ∈ db.clients, row.keyHash ≠ lib.hashKey k)
    (hdb : db'.clients = db.clients ++ [⟨id, k, lib.hashKey k, sh, true, v, now, now⟩]) :
    ClientLedger lib db' ((.createClient k roles,
      some (.ok (.created ⟨id, k, generateSecret seed, roles⟩))) :: log) := by
  have hother : ∀ row ∈ db.clients, k ≠ row.clientKey := by
    rintro row hrow rfl
    exact hnew row hrow (L.hashed row hrow)
  have hlatest : ∀ k', latestSecret k' ((.createClient k roles,
      some (.ok (.created ⟨id, k, generateSecret seed, roles⟩))) :: log)
      = if k = k' then some (generateSecret seed) else latestSecret k' log := fun k' => by
    rw [latestSecret_cons]
    show (if k = k' then some (generateSecret seed) else none).or _ = _
    split <;> rfl
  have hdeact : ∀ k', Deactivated k' ((.createClient k roles,
      some (.ok (.created ⟨id, k, generateSecret seed, roles⟩))) :: log) ↔ Deactivated k' log :=
    fun k' => by
      rw [deactivated_cons]
      exact or_iff_right fun h => by cases h
  have hmem : ∀ {row : ClientRow}, row ∈ db'.clients → row ∈ db.clients ∨
      row = ⟨id, k, lib.hashKey k, sh, true, v, now, now⟩ := by
    intro row hrow
    rw [hdb, List.mem_append, List.mem_singleton] at hrow
    exact hrow
  refine ⟨fun row hrow => ?_, ?_, fun row hrow => ?_, fun row hrow => ?_, fun row hrow => ?_,
    fun row hrow => ?_, fun row hrow => ?_, fun k' hk' => ?_⟩
  · rcases hmem hrow with hrow | rfl
    · exact L.hashed row hrow
    · rfl
  · rw [hdb, List.map_append]
    refine List.nodup_append.mpr ⟨L.single, List.nodup_singleton _, ?_⟩
    intro a ha b hb
    obtain ⟨row, hrow, rfl⟩ := List.mem_map.mp ha
    rw [List.mem_singleton.mp hb]
    exact hnew row hrow
  · rcases hmem hrow with hrow | rfl
    · exact L.named row hrow
    · exact validateClientKey_nonempty hk
  · rcases hmem hrow with hrow | rfl
    · exact L.roles row hrow
    · exact ⟨roles, hs.roles_back roles v hv⟩
  · rw [hlatest]
    rcases hmem hrow with hrow | rfl
    · rw [if_neg (hother row hrow)]
      exact L.secret row hrow
    · rw [if_pos rfl]
      exact ⟨_, rfl, generateSecret_nonempty seed, seed.salt, hsh⟩
  · rw [created_cons]
    rcases hmem hrow with hrow | rfl
    · exact .inr (L.created row hrow)
    · exact .inl ⟨roles, _, rfl⟩
  · rw [hdeact]
    rcases hmem hrow with hrow | rfl
    · exact L.active row hrow
    · refine ⟨fun _ hd => ?_, fun _ => rfl⟩
      obtain ⟨row, hrow, hkey⟩ := L.stored k (.inr hd)
      exact hother row hrow hkey.symm
  · rw [created_cons, hdeact] at hk'
    rw [hdb]
    rcases hk' with (⟨roles', c, he⟩ | hc) | hd
    · cases he
      exact ⟨_, List.mem_append_right _ (List.mem_singleton.mpr rfl), rfl⟩
    · obtain ⟨row, hrow, hkey⟩ := L.stored k' (.inl hc)
      exact ⟨row, List.mem_append_left _ hrow, hkey⟩
    · obtain ⟨row, hrow, hkey⟩ := L.stored k' (.inr hd)
      exact ⟨row, List.mem_append_left _ hrow, hkey⟩

/-- an UPDATE of the active row of a key, that keeps its name and roles -/
theorem update (L : ClientLedger lib db log) (hs : lib.Sound) {k : String} {e : LogEntry}
    {f : ClientRow → ClientRow} {row₀ : ClientRow} (hrow₀ : row₀ ∈ db.clients)
    (hact : row₀.isActive (lib.hashKey k) = true)
    (hf : ∀ row, (f row).keyHash = row.keyHash ∧ (f row).clientKey = row.clientKey ∧
      (f row).roles = row.roles)
    (hdb : db'.clients = db.clients.map fun row =>
      if row.isActive (lib.hashKey k) then f row else row)
    (hcreated : ∀ k', Created k' (e :: log) ↔ Created k' log)
    (hother : ∀ k', k' ≠ k → latestSecret k' (e :: log) = latestSecret k' log ∧
      (Deactivated k' (e :: log) ↔ Deactivated k' log))
    (hsecret : ∃ secret, latestSecret k (e :: log) = some secret ∧ secret.isEmpty = false ∧
      lib.Hashes secret (f row₀).secretHash)
    (hactive : (f row₀).active = true ↔ ¬ Deactivated k (e :: log)) :
    ClientLedger lib db' (e :: log) := by
  obtain ⟨hkey₀, hon₀⟩ := L.key_of_active hs hrow₀ hact
  have hmem : ∀ {row : ClientRow}, row ∈ db'.clients →
      row = f row₀ ∨ (row ∈ db.clients ∧ row.clientKey ≠ k) := by
    intro row hrow
    rw [hdb] at hrow
    obtain ⟨old, hold, rfl⟩ := List.mem_map.mp hrow
    split
    · rename_i ha
      obtain ⟨hkey, -⟩ := L.key_of_active hs hold ha
      rw [L.eq_of_key hold hrow₀ (hkey.trans hkey₀.symm)]
      exact .inl rfl
    · rename_i ha
      refine .inr ⟨hold, fun hkey => ha ?_⟩
      rw [L.eq_of_key hold hrow₀ (hkey.trans hkey₀.symm)]
      exact hact
  have hkeyf : (f row₀).clientKey = k := (hf row₀).2.1.trans hkey₀
  refine ⟨fun row hrow => ?_, ?_, fun row hrow => ?_, fun row hrow => ?_, fun row hrow => ?_,
    fun row hrow => ?_, fun row hrow => ?_, fun k' hk' => ?_⟩
  · rcases hmem hrow with rfl | ⟨hrow, -⟩
    · rw [(hf row₀).1, (hf row₀).2.1]
      exact L.hashed row₀ hrow₀
    · exact L.hashed row hrow
  · rw [hdb, List.map_map]
    have h1 : db.clients.map ((·.keyHash) ∘ fun row =>
        if row.isActive (lib.hashKey k) then f row else row) = db.clients.map (·.keyHash) := by
      refine List.map_congr_left fun row _ => ?_
      show (if _ then _ else _ : ClientRow).keyHash = _
      split
      · exact (hf row).1
      · rfl
    rw [h1]
    exact L.single
  · rcases hmem hrow with rfl | ⟨hrow, -⟩
    · rw [(hf row₀).2.1]
      exact L.named row₀ hrow₀
    · exact L.named row hrow
  · rcases hmem hrow with rfl | ⟨hrow, -⟩
    · rw [(hf row₀).2.2]
      exact L.roles row₀ hrow₀
    · exact L.roles row hrow
  · rcases hmem hrow with rfl | ⟨hrow, hne⟩
    · rw [hkeyf]
      exact hsecret
    · rw [(hother _ hne).1]
      exact L.secret row hrow
  · rw [hcreated]
    rcases hmem hrow with rfl | ⟨hrow, -⟩
    · rw [(hf row₀).2.1]
      exact L.created row₀ hrow₀
    · exact L.created row hrow
  · rcases hmem hrow with rfl | ⟨hrow, hne⟩
    · rw [hkeyf]
      exact hactive
    · rw [(hother _ hne).2]
      exact L.active row hrow
  · have hstored : ∀ k', (∃ row ∈ db.clients, row.clientKey = k') →
        ∃ row ∈ db'.clients, row.clientKey = k' := by
      intro k' h
      obtain ⟨row, hrow, rfl⟩ := h
      rw [hdb]
      refine ⟨_, List.mem_map_of_mem hrow, ?_⟩
      split
      · exact (hf row).2.1
      · rfl
    apply hstored
    by_cases he : k' = k
    · rw [he]
      exact ⟨row₀, hrow₀, hkey₀⟩
    · rw [hcreated, (hother k' he).2] at hk'
      exact L.stored k' hk'

/-- **The table follows the log.** -/
theorem step (L : ClientLedger lib db log) (hs : lib.Sound) {call : AuthCall}
    {answer : Option (PgAppResult AuthReturn)} (he : AuthEffect lib call db db' answer) :
    ClientLedger lib db' ((call.op, answer) :: log) := by
  cases he with
  | created k roles sh v now hop hk hsh hv hnew hdb ha =>
    rw [hop, ha]
    exact L.create hs hk hsh hv hnew hdb
  | rotated k sh now row hop hsh hrow hact hdb ha =>
    obtain ⟨roles, hroles⟩ := L.roles row hrow
    rw [hop, ha roles hroles]
    obtain ⟨hkey, hon⟩ := L.key_of_active hs hrow hact
    have hdeact : ∀ k', Deactivated k' ((.rotateSecret k, some (.ok (.rotated (some
        ⟨row.id, row.clientKey, generateSecret call.seed, roles⟩)))) :: log) ↔ Deactivated k' log :=
      fun k' => by
        rw [deactivated_cons]
        exact or_iff_right fun h => by cases h
    have hlatest : ∀ k', latestSecret k' ((.rotateSecret k, some (.ok (.rotated (some
        ⟨row.id, row.clientKey, generateSecret call.seed, roles⟩)))) :: log)
        = if k = k' then some (generateSecret call.seed) else latestSecret k' log := fun k' => by
      rw [latestSecret_cons]
      show (if k = k' then some (generateSecret call.seed) else none).or _ = _
      split <;> rfl
    refine L.update (f := fun row => row.withSecret sh now) hs hrow hact (fun _ => ⟨rfl, rfl, rfl⟩)
      hdb (fun k' => ?_) (fun k' hne => ?_) ?_ ?_
    · rw [created_cons]
      refine or_iff_right ?_
      intro hex
      obtain ⟨roles', c, h⟩ := hex
      cases h
    · rw [hlatest, if_neg (Ne.symm hne)]
      exact ⟨rfl, hdeact k'⟩
    · rw [hlatest, if_pos rfl]
      exact ⟨_, rfl, generateSecret_nonempty call.seed, call.seed.salt, hsh⟩
    · rw [hdeact, ← hkey]
      exact L.active row hrow
  | deactivated k now row hop hrow hact hdb ha =>
    rw [hop, ha]
    obtain ⟨hkey, hon⟩ := L.key_of_active hs hrow hact
    have hlatest : ∀ k', latestSecret k' ((.deactivate k, some (.ok (.bool true))) :: log)
        = latestSecret k' log := fun k' => by
      rw [latestSecret_cons]
      rfl
    refine L.update (f := fun row => { row with active := false, updatedAt := now }) hs hrow hact
      (fun _ => ⟨rfl, rfl, rfl⟩) hdb (fun k' => ?_) (fun k' hne => ?_) ?_ ?_
    · rw [created_cons]
      refine or_iff_right ?_
      intro hex
      obtain ⟨roles', c, h⟩ := hex
      cases h
    · rw [hlatest, deactivated_cons]
      refine ⟨rfl, or_iff_right fun h => hne ?_⟩
      cases h
      rfl
    · rw [hlatest, ← hkey]
      exact L.secret row hrow
    · rw [deactivated_cons]
      exact ⟨fun h => (by cases h), fun h => absurd (Or.inl rfl) h⟩
  | silent hdb hgives hoff => exact L.silent hdb hgives hoff

end

end ClientLedger

end PgApp
