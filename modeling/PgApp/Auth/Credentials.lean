import PgApp.Auth.Ledger

/-!
# What a client's secret opens

What `authenticate` finds is what the log of the calls says (`ClientLedger.identify`), so a call
made alone in a reachable state is told by the log: `authenticate_alone`, `rotate_alone`,
`create_alone`, `gate_alone`.  Among other sessions a call is the same: its one statement on the
table decides (`answered_of_reach`), and nothing reaches the inner service but through it
(`admitted_of_reach`).

Main result: `client_credentials`.
-/

namespace PgApp
open Interleave AuthProg

/-! ## the gate -/

/-- the gate after `authenticate` -/
def passOn (request : Request) : PgAppResult (Option ClientIdentity) → AuthProg AuthReturn
  | .ok (some identity) =>
      .exec (.callInner request (some identity)) fun _ => .ret (.ok (.response .forwarded))
  | .ok none => .ret (.ok (.response (unauthenticatedResponse "invalid pgapp credentials")))
  | .error err =>
      .ret (.ok (.response (.status ⟨.internal, s!"authentication failed: {err.text}"⟩)))

theorem extractCredentials_some {headers : List (String × List UInt8)} {c : AuthCredentials}
    (h : extractCredentials headers = some c) :
    readableHeader headers "x-pgapp-key" = some c.key ∧
      readableHeader headers "x-pgapp-secret" = some c.secret ∧
      (c.key.isEmpty || c.secret.isEmpty) = false := by
  unfold extractCredentials at h
  cases hk : readableHeader headers "x-pgapp-key" with
  | none => rw [hk] at h; cases h
  | some key =>
    cases hsec : readableHeader headers "x-pgapp-secret" with
    | none => rw [hk, hsec] at h; cases h
    | some secret =>
      rw [hk, hsec] at h
      cases he : key.isEmpty || secret.isEmpty with
      | true =>
        simp only [he, if_true] at h
        cases h
      | false =>
        simp only [he] at h
        cases h
        exact ⟨rfl, rfl, he⟩

/-- a request at the gate is passed on at once, refused at once, or looked up -/
inductive GateCase (lib : ClientLib) (call : AuthCall) (enabled : Bool) (request : Request) : Prop
  | exempt (h : (!enabled || isHealthPath request.path) = true)
      (hb : call.body lib = .exec (.callInner request none) fun _ =>
        .ret (.ok (.response .forwarded)))
  | missing (h : (!enabled || isHealthPath request.path) = false)
      (hc : extractCredentials request.headers = none)
      (hb : call.body lib =
        .ret (.ok (.response (unauthenticatedResponse "missing pgapp credentials"))))
  | lookup (c : AuthCredentials) (h : (!enabled || isHealthPath request.path) = false)
      (hc : extractCredentials request.headers = some c)
      (hb : call.body lib = .exec (.selectActive (lib.hashKey c.key)) fun row =>
        passOn request (lib.identify c.secret row))

section
variable {lib : ClientLib} {call : AuthCall}

theorem gate_cases (lib : ClientLib) {enabled : Bool} {request : Request}
    (hop : call.op = .request enabled request) : GateCase lib call enabled request := by
  have hb : call.body lib
      = (AuthService.call lib enabled request >>= fun r => pure (.response r)) := by
    unfold AuthCall.body
    rw [hop]
  cases hex : !enabled || isHealthPath request.path with
  | true =>
    refine .exempt hex ?_
    rw [hb]
    unfold AuthService.call
    rw [if_pos hex]
    rfl
  | false =>
    have hcall : AuthService.call lib enabled request = _ :=
      if_neg (by rw [hex]; exact Bool.false_ne_true)
    cases hc : extractCredentials request.headers with
    | none =>
      refine .missing hex hc ?_
      rw [hb, hcall, hc]
      rfl
    | some c =>
      refine .lookup c hex hc ?_
      obtain ⟨-, -, hne⟩ := extractCredentials_some hc
      have hauth : authenticate lib c.key c.secret
          = .exec (.selectActive (lib.hashKey c.key)) fun row =>
              .ret (lib.identify c.secret row) := by
        unfold authenticate
        rw [hne]
        rfl
      rw [hb, hcall, hc]
      simp only [hauth]
      show Prog.exec _ _ = _
      congr 1
      funext row
      show (match lib.identify c.secret row with
        | .ok (some identity) => forward request (some identity)
        | .ok none => pure (unauthenticatedResponse "invalid pgapp credentials")
        | .error err => pure (.status ⟨.internal, s!"authentication failed: {err.text}"⟩) :
          AuthProg GateResponse) >>= _ = _
      cases lib.identify c.secret row with
      | error err => rfl
      | ok o => cases o <;> rfl

/-! ## among other sessions -/

/-- a statement of the call is executed -/
def AuthMove (call : AuthCall) (st : AuthStmt) (r : st.Res) (γ γ' : List AuthEv) : Prop :=
  ∃ s now db db', γ' = ⟨s, call, now, st, r, db⟩ :: γ ∧ st.exec s now db = some (r, db')

/-- the call has ended in a check, or answers what it would have answered alone at one of the
session's statements -/
def AnswersAs (lib : ClientLib) (call : AuthCall) (r : PgAppResult AuthReturn) (γ : List AuthEv) :
    Prop :=
  call.body lib = .ret r ∨ ∃ e ∈ γ, e.op = call ∧ outcome lib e = some r

/-- the request needs no credentials, or the session has just looked its credentials up and they
were accepted -/
def Cleared (lib : ClientLib) (call : AuthCall) (request : Request) (γ : List AuthEv) : Prop :=
  ∃ enabled, call.op = .request enabled request ∧
    ((!enabled || isHealthPath request.path) = true ∨ ∃ c s now db rest identity,
      γ = ⟨s, call, now, .selectActive (lib.hashKey c.key),
        db.selectActive (lib.hashKey c.key), db⟩ :: rest ∧
      extractCredentials request.headers = some c ∧
      lib.identify c.secret (db.selectActive (lib.hashKey c.key)) = .ok (some identity))

/-- what a call may issue -/
structure Permitted (lib : ClientLib) (call : AuthCall) (st : AuthStmt)
    (γ : List AuthEv) : Prop where
  issues : Issues lib call st
  cleared : ∀ request identity, st = .callInner request identity → Cleared lib call request γ

theorem ledger_rules (hs : lib.Sound) : Rules AuthStmt.exec AuthDb.empty
    (fun db h => ClientLedger lib db (callLog lib h)) (fun s _ h => ownEvents s h)
    (Permitted lib) AuthMove (fun _ => True) where
  first := ClientLedger.empty lib
  keep := fun _ _ _ _ _ _ _ _ L hp hx => L.step hs (effect hp.issues hx)
  own := fun db _ s _ now _ _ db' _ _ hx => ⟨s, now, db, db', ownEvents_cons_self rfl, hx⟩
  other := fun _ _ _ _ _ _ _ _ _ ht _ _ _ => ownEvents_cons_ne (Ne.symm ht)
  init := fun _ => trivial

abbrev AuthSafe (lib : ClientLib) (call : AuthCall) (p : AuthProg AuthReturn) (γ : List AuthEv) :
    Prop :=
  Safe (Permitted lib call) (AuthMove call) (AnswersAs lib call) p γ

/-- a call that issues one statement and ends -/
theorem authSafe_one (call : AuthCall) {α : Type} {f : α → AuthReturn} {st : AuthStmt}
    {g : st.Res → PgAppResult α} {p : AuthProg α} (hb : call.body lib = (p >>= fun a => pure (f a)))
    (hp : p = .exec st fun r => .ret (g r))
    (hi : (∃ kont, call.body lib = .exec st kont) → Issues lib call st)
    (hst : ∀ request identity, st ≠ .callInner request identity) (γ : List AuthEv) :
    AuthSafe lib call (call.body lib) γ := by
  have hb' := hb
  rw [hp] at hb'
  rw [hb']
  refine ⟨⟨hi ⟨_, hb'⟩, fun request identity h => absurd h (hst request identity)⟩,
    fun r γ' hm => ?_⟩
  obtain ⟨s, now, db, db', rfl, hx⟩ := hm
  obtain ⟨r₀, hx₀, ho⟩ := issued_outcome hb hp ⟨_, hb'⟩ hx
  obtain ⟨rfl, -⟩ := Prod.mk.inj (Option.some.inj (hx₀.symm.trans hx))
  have hret : (Prog.ret (g r₀) >>= fun a => pure (f a) : AuthProg AuthReturn)
      = .ret ((g r₀).map f) := by
    cases g r₀ <;> rfl
  show Safe _ _ _ (Prog.ret (g r₀) >>= fun a => pure (f a)) _
  rw [hret]
  exact .inr ⟨_, List.mem_cons_self, rfl, ho⟩

theorem authSafe_ret {r : PgAppResult AuthReturn} (hb : call.body lib = .ret r) (γ : List AuthEv) :
    AuthSafe lib call (call.body lib) γ := by
  have h : AnswersAs lib call r γ := .inl hb
  rw [hb]
  exact h

theorem authSafe_request {enabled : Bool} {request : Request}
    (hop : call.op = .request enabled request) (γ : List AuthEv) :
    AuthSafe lib call (call.body lib) γ := by
  have hissues : ∀ {st : AuthStmt}, ((∃ kh, st = .selectActive kh) ∨
      ∃ request identity, st = .callInner request identity) → Issues lib call st := by
    intro st h
    unfold Issues
    rw [hop]
    exact h
  cases gate_cases lib hop with
  | exempt h hb =>
    rw [hb]
    refine ⟨⟨hissues (.inr ⟨_, _, rfl⟩), fun request' identity he => ?_⟩, fun r γ' hm => ?_⟩
    · cases he
      exact ⟨enabled, hop, .inl h⟩
    obtain ⟨s, now, db, db', rfl, hx⟩ := hm
    refine .inr ⟨_, List.mem_cons_self, rfl, ?_⟩
    unfold outcome AuthCall.runAlone
    rw [hb]
    rfl
  | missing h hc hb => exact authSafe_ret hb γ
  | lookup c h hc hb =>
    rw [hb]
    refine ⟨⟨hissues (.inl ⟨_, rfl⟩), fun _ _ he => (by cases he)⟩, fun row γ' hm => ?_⟩
    obtain ⟨s, now, db, db', rfl, hx⟩ := hm
    have hrow : db.selectActive (lib.hashKey c.key) = row := congrArg Prod.fst (Option.some.inj hx)
    have hrun : outcome lib ⟨s, call, now, .selectActive (lib.hashKey c.key), row, db⟩
        = ((passOn request (lib.identify c.secret row)).run (fun st => st.exec s now) db').map
            (·.1) := by
      unfold outcome AuthCall.runAlone
      simp only [hb]
      rw [Prog.run_exec_of _ hx]
    show AuthSafe lib call (passOn request (lib.identify c.secret row)) _
    cases hid : lib.identify c.secret row with
    | error err =>
      rw [hid] at hrun
      exact .inr ⟨_, List.mem_cons_self, rfl, hrun⟩
    | ok o =>
      cases o with
      | none =>
        rw [hid] at hrun
        exact .inr ⟨_, List.mem_cons_self, rfl, hrun⟩
      | some identity =>
        rw [hid] at hrun
        refine ⟨⟨hissues (.inr ⟨_, _, rfl⟩), fun request' identity' he => ?_⟩, fun r γ'' hm => ?_⟩
        · cases he
          subst hrow
          exact ⟨enabled, hop, .inr ⟨c, s, now, db, γ, identity, rfl, hc, hid⟩⟩
        · obtain ⟨s', now', db₁, db₂, rfl, -⟩ := hm
          exact .inr ⟨_, List.mem_cons_of_mem _ List.mem_cons_self, rfl, hrun⟩

theorem authSafe_body (call : AuthCall) (γ : List AuthEv) :
    AuthSafe lib call (call.body lib) γ := by
  obtain ⟨seed, op⟩ := call
  cases op with
  | createClient k roles =>
    rcases createClient_cases lib seed k roles with ⟨e, hp⟩ | ⟨sh, v, -, -, -, hp⟩
    · refine authSafe_ret (r := .error e) ?_ γ
      show (createClient lib seed k roles >>= _) = _
      rw [hp]
      rfl
    · exact authSafe_one ⟨seed, .createClient k roles⟩ rfl hp (fun h => h)
        (fun _ _ h => by cases h) γ
  | authenticate k secret =>
    rcases authenticate_cases lib k secret with hp | hp
    · refine authSafe_ret (r := .ok (.identity none)) ?_ γ
      show (authenticate lib k secret >>= _) = _
      rw [hp]
      rfl
    · exact authSafe_one ⟨seed, .authenticate k secret⟩ rfl hp (fun h => h)
        (fun _ _ h => by cases h) γ
  | rotateSecret k =>
    rcases rotateSecret_cases lib seed k with ⟨e, hp⟩ | ⟨sh, -, hp⟩
    · refine authSafe_ret (r := .error e) ?_ γ
      show (rotateSecret lib seed k >>= _) = _
      rw [hp]
      rfl
    · exact authSafe_one ⟨seed, .rotateSecret k⟩ rfl hp (fun h => h) (fun _ _ h => by cases h) γ
  | deactivate k =>
    rcases deactivate_cases lib k with ⟨e, hp⟩ | hp
    · refine authSafe_ret (r := .error e) ?_ γ
      show (deactivate lib k >>= _) = _
      rw [hp]
      rfl
    · exact authSafe_one ⟨seed, .deactivate k⟩ rfl hp (fun h => h) (fun _ _ h => by cases h) γ
  | listClients =>
    have hp : listClients lib = .exec .selectClients fun rows => .ret (lib.records rows) := rfl
    exact authSafe_one ⟨seed, .listClients⟩ rfl hp (fun h => h) (fun _ _ h => by cases h) γ
  | request enabled request => exact authSafe_request rfl γ

theorem answered_of_reach (hs : lib.Sound) {σ : AuthSys} (hr : AuthReach lib σ) :
    ∀ s call r, (s, call, r) ∈ σ.done →
      call.body lib = .ret r ∨ ∃ e ∈ σ.hist, e.op = call ∧ outcome lib e = some r := by
  refine hr.done_of (fun call r h => AnswersAs lib call r h) ?_ ?_
  · intro τ s call r hτ hp
    have hrel := hτ.rely (ledger_rules hs) (fun _ _ _ _ => trivial)
      (fun call γ _ => authSafe_body call γ)
    rcases hrel.running s call _ hp with hb | ⟨e, he, h1⟩
    · exact .inl hb
    · exact .inr ⟨e, List.mem_of_mem_filter he, h1⟩
  · intro call r e h hex
    rcases hex with hb | ⟨d, hd, h1⟩
    · exact .inl hb
    · exact .inr ⟨d, List.mem_cons_of_mem _ hd, h1⟩

theorem ClientLedger.of_reach (hs : lib.Sound) {σ : AuthSys} (hr : AuthReach lib σ) :
    ClientLedger lib σ.db (callLog lib σ.hist) :=
  (hr.rely (ledger_rules hs) (fun _ _ _ _ => trivial) (fun call γ _ => authSafe_body call γ)).holds

/-! ## what a secret opens -/

section
variable {db : AuthDb} {log : List LogEntry}

/-- what `authenticate` finds is what the log says -/
theorem ClientLedger.identify (L : ClientLedger lib db log) (hs : lib.Sound) (k secret : String) :
    ∃ o, lib.identify secret (db.selectActive (lib.hashKey k)) = .ok o ∧
      (o.isSome = true ↔ HoldsSecret k secret log) ∧ ∀ identity ∈ o, identity.clientKey = k := by
  unfold AuthDb.selectActive
  cases hf : db.clients.find? (·.isActive (lib.hashKey k)) with
  | none =>
    refine ⟨none, rfl, ⟨fun h => (by cases h), fun h => ?_⟩, fun _ h => (by cases h)⟩
    obtain ⟨row, hrow, rfl⟩ := L.stored k (.inl h.1)
    have hact : row.isActive (lib.hashKey row.clientKey) = true := by
      unfold ClientRow.isActive
      rw [L.hashed row hrow, (L.active row hrow).mpr h.2.1, beq_self_eq_true]
      rfl
    exact absurd hact (List.find?_eq_none.mp hf row hrow)
  | some row =>
    have hrow := List.mem_of_find?_eq_some hf
    have hact : row.isActive (lib.hashKey k) = true :=
      List.find?_some (p := fun row : ClientRow => row.isActive (lib.hashKey k)) hf
    obtain ⟨rfl, hon⟩ := L.key_of_active hs hrow hact
    obtain ⟨latest, hlatest, -, salt, hhash⟩ := L.secret row hrow
    obtain ⟨roles, hroles⟩ := L.roles row hrow
    have hverify : lib.verifySecret row.secretHash secret = .ok (secret == latest) := by
      unfold ClientLib.verifySecret
      rw [hs.verify_exact latest salt row.secretHash hhash secret]
      rfl
    have hparse : lib.parseRoles row.roles = .ok roles := by
      unfold ClientLib.parseRoles
      rw [hroles]
      rfl
    have hholds : HoldsSecret row.clientKey secret log ↔ secret = latest := by
      unfold HoldsSecret
      rw [hlatest]
      constructor
      · exact fun h => (Option.some.inj h.2.2).symm
      · rintro rfl
        exact ⟨L.created row hrow, (L.active row hrow).mp hon, rfl⟩
    unfold ClientLib.identify
    simp only [hverify, hparse]
    cases he : secret == latest with
    | true =>
      refine ⟨some ⟨row.id, row.clientKey, roles⟩, rfl, ?_, ?_⟩
      · rw [hholds]
        exact ⟨fun _ => beq_iff_eq.mp he, fun _ => rfl⟩
      · intro identity hid
        cases hid
        rfl
    | false =>
      refine ⟨none, rfl, ?_, fun _ h => (by cases h)⟩
      rw [hholds]
      exact ⟨fun h => (by cases h), fun h => absurd h (by simpa using he)⟩

theorem ClientLedger.nonempty (L : ClientLedger lib db log) {k secret : String}
    (h : HoldsSecret k secret log) : k.isEmpty = false ∧ secret.isEmpty = false := by
  obtain ⟨row, hrow, rfl⟩ := L.stored k (.inl h.1)
  obtain ⟨latest, hlatest, hne, -⟩ := L.secret row hrow
  obtain rfl : latest = secret := Option.some.inj (hlatest.symm.trans h.2.2)
  exact ⟨L.named row hrow, hne⟩

theorem ClientLedger.authenticate_alone (L : ClientLedger lib db log) (hs : lib.Sound) (s : Nat)
    (now : Time) (seed : Seed) (k secret : String) :
    ∃ o, AuthCall.runAlone lib ⟨seed, .authenticate k secret⟩ s now db
        = some (.ok (.identity o), db) ∧
      (o.isSome = true ↔ HoldsSecret k secret log) ∧ ∀ identity ∈ o, identity.clientKey = k := by
  have hb : AuthCall.body lib ⟨seed, .authenticate k secret⟩
      = (authenticate lib k secret >>= fun o => pure (.identity o)) := rfl
  unfold AuthCall.runAlone
  rw [hb]
  cases he : k.isEmpty || secret.isEmpty with
  | true =>
    have hp : authenticate lib k secret = .ret (.ok none) := if_pos he
    rw [hp]
    refine ⟨none, rfl, ⟨fun h => (by cases h), fun h => ?_⟩, fun _ h => (by cases h)⟩
    obtain ⟨h1, h2⟩ := L.nonempty h
    rw [h1, h2] at he
    cases he
  | false =>
    obtain ⟨o, ho, hiff, hkey⟩ := L.identify hs k secret
    have hp : authenticate lib k secret = .exec (.selectActive (lib.hashKey k)) fun row =>
        .ret (lib.identify secret row) := if_neg (by rw [he]; exact Bool.false_ne_true)
    refine ⟨o, ?_, hiff, hkey⟩
    rw [hp]
    show (Prog.ret (lib.identify secret (db.selectActive (lib.hashKey k))) >>= _ :
      AuthProg _).run _ db = _
    rw [ho]
    rfl

theorem ClientLedger.turned_off (L : ClientLedger lib db log) {k : String}
    (hd : Deactivated k log) :
    ∃ row ∈ db.clients, row.keyHash = lib.hashKey k ∧ row.active = false := by
  obtain ⟨row, hrow, rfl⟩ := L.stored k (.inr hd)
  refine ⟨row, hrow, L.hashed row hrow, ?_⟩
  cases ha : row.active with
  | false => rfl
  | true => exact absurd hd ((L.active row hrow).mp ha)

theorem ClientLedger.inactive (L : ClientLedger lib db log) (hs : lib.Sound) {k : String}
    (hd : Deactivated k log) : ∀ row ∈ db.clients, row.isActive (lib.hashKey k) = false := by
  intro row hrow
  cases ha : row.isActive (lib.hashKey k) with
  | false => rfl
  | true =>
    obtain ⟨rfl, hon⟩ := L.key_of_active hs hrow ha
    exact absurd hd ((L.active row hrow).mp hon)

/-- a key that was deactivated gets no new secret -/
theorem ClientLedger.rotate_alone (L : ClientLedger lib db log) (hs : lib.Sound) {k : String}
    (hd : Deactivated k log) (s : Nat) (now : Time) (seed : Seed) :
    ∃ r db', AuthCall.runAlone lib ⟨seed, .rotateSecret k⟩ s now db = some (r, db') ∧
      db'.clients = db.clients ∧ ∀ c, r ≠ .ok (.rotated (some c)) := by
  have hb : AuthCall.body lib ⟨seed, .rotateSecret k⟩
      = (rotateSecret lib seed k >>= fun c => pure (.rotated c)) := rfl
  unfold AuthCall.runAlone
  rw [hb]
  rcases rotateSecret_cases lib seed k with ⟨e, hp⟩ | ⟨sh, -, hp⟩
  · rw [hp]
    exact ⟨_, _, rfl, rfl, fun c h => (by cases h)⟩
  · rw [hp]
    have hoff := L.inactive hs hd
    have hnone : db.clients.find? (·.isActive (lib.hashKey k)) = none :=
      List.find?_eq_none.mpr fun row hrow => by rw [hoff row hrow]; exact Bool.false_ne_true
    have hx : AuthStmt.exec s now (.updateSecret (lib.hashKey k) sh) db
        = some (none, (db.updateSecret (lib.hashKey k) sh now).2) := by
      show some (db.updateSecret (lib.hashKey k) sh now) = _
      unfold AuthDb.updateSecret
      rw [hnone]
      rfl
    refine ⟨.ok (.rotated none), _, Prog.run_exec_of _ hx, ?_, fun c h => (by cases h)⟩
    exact map_inactive hoff

theorem ClientLedger.create_alone (L : ClientLedger lib db log) {k : String}
    (hd : Deactivated k log) (s : Nat) (now : Time) (seed : Seed) (roles : List String) :
    ∃ e db', AuthCall.runAlone lib ⟨seed, .createClient k roles⟩ s now db = some (.error e, db') ∧
      db'.clients = db.clients := by
  have hb : AuthCall.body lib ⟨seed, .createClient k roles⟩
      = (createClient lib seed k roles >>= fun c => pure (.created c)) := rfl
  unfold AuthCall.runAlone
  rw [hb]
  rcases createClient_cases lib seed k roles with ⟨e, hp⟩ | ⟨sh, v, -, -, -, hp⟩
  · rw [hp]
    exact ⟨e, db, rfl, rfl⟩
  · rw [hp]
    obtain ⟨row, hrow, hkh, -⟩ := L.turned_off hd
    have hany : db.clients.any (·.keyHash == lib.hashKey k) = true :=
      List.any_eq_true.mpr ⟨row, hrow, beq_iff_eq.mpr hkh⟩
    have hx : AuthStmt.exec s now (.insertClient k (lib.hashKey k) sh v) db
        = some (.error (.uniqueViolation "idx_pgapp_clients_key_hash"),
            { db with nextClientId := db.nextClientId + 1 }) := by
      show some (db.insertClient k (lib.hashKey k) sh v now) = _
      unfold AuthDb.insertClient
      rw [if_pos hany]
    exact ⟨_, _, Prog.run_exec_of _ hx, rfl⟩

/-- the gate lets a request through -/
def Admitted (request : Request) (log : List LogEntry) : Prop :=
  isHealthPath request.path = true ∨ ∃ k secret,
    readableHeader request.headers "x-pgapp-key" = some k ∧
    readableHeader request.headers "x-pgapp-secret" = some secret ∧ HoldsSecret k secret log

theorem ClientLedger.gate_alone (L : ClientLedger lib db log) (hs : lib.Sound) (s : Nat)
    (now : Time)
    (seed : Seed) (request : Request) :
    (Admitted request log → ∃ identity,
      AuthCall.runAlone lib ⟨seed, .request true request⟩ s now db
        = some (.ok (.response .forwarded),
        { db with served := db.served ++ [(request, identity)] })) ∧
    (¬ Admitted request log → ∃ message,
      AuthCall.runAlone lib ⟨seed, .request true request⟩ s now db
        = some (.ok (.response (unauthenticatedResponse message)), db)) := by
  have hop : (⟨seed, .request true request⟩ : AuthCall).op = .request true request := rfl
  unfold AuthCall.runAlone
  cases gate_cases lib hop with
  | exempt h hb =>
    have hhealth : Admitted request log := .inl h
    rw [hb]
    exact ⟨fun _ => ⟨none, rfl⟩, fun h => absurd hhealth h⟩
  | missing h hc hb =>
    rw [hb]
    refine ⟨fun ha => ?_, fun _ => ⟨_, rfl⟩⟩
    rcases ha with hh | ⟨k, secret, hk, hsec, hholds⟩
    · rw [hh] at h
      cases h
    · obtain ⟨h1, h2⟩ := L.nonempty hholds
      unfold extractCredentials at hc
      simp only [hk, hsec, h1, h2] at hc
      cases hc
  | lookup c h hc hb =>
    rw [hb]
    obtain ⟨h1, h2, -⟩ := extractCredentials_some hc
    obtain ⟨o, ho, hiff, -⟩ := L.identify hs c.key c.secret
    have hpass : Admitted request log ↔ HoldsSecret c.key c.secret log := by
      constructor
      · intro hex
        rcases hex with hh | ⟨k, secret, hk, hsec, hholds⟩
        · rw [hh] at h
          cases h
        · obtain rfl : c.key = k := Option.some.inj (h1.symm.trans hk)
          obtain rfl : c.secret = secret := Option.some.inj (h2.symm.trans hsec)
          exact hholds
      · exact fun hholds => .inr ⟨c.key, c.secret, h1, h2, hholds⟩
    have hrun : ∀ db', (Prog.exec (.selectActive (lib.hashKey c.key)) fun row =>
        passOn request (lib.identify c.secret row) : AuthProg AuthReturn).run
          (fun st => st.exec s now) db = db' ↔
        (passOn request (.ok o)).run (fun st => st.exec s now) db = db' := by
      intro db'
      rw [← ho]
      exact Iff.rfl
    rw [hpass, ← hiff]
    constructor
    · intro hsome
      obtain ⟨identity, rfl⟩ := Option.isSome_iff_exists.mp hsome
      exact ⟨some identity, (hrun _).mpr rfl⟩
    · intro hnone
      obtain rfl : o = none := by
        cases o with
        | none => rfl
        | some identity => exact absurd rfl hnone
      exact ⟨_, (hrun _).mpr rfl⟩

end

/-- a request reaches the inner service when it has been admitted since its call began -/
theorem admitted_of_reach (hs : lib.Sound) {σ : AuthSys} (hr : AuthReach lib σ) :
    Always (fun e h => ∀ request identity, e.stmt = .callInner request identity →
      ∃ enabled, e.op.op = .request enabled request ∧ (enabled = true →
        ∃ a b, h = a ++ b ∧ (∀ x ∈ a, x.sess = e.sess → x.op = e.op) ∧
          Admitted request (callLog lib b))) σ.hist := by
  have hrel := hr.rely (ledger_rules hs) (fun _ _ _ _ => trivial)
    (fun call γ _ => authSafe_body call γ)
  suffices hall : ∀ h, Always (fun (e : AuthEv) h => ClientLedger lib e.pre (callLog lib h) ∧
      Permitted lib e.op e.stmt (ownEvents e.sess h) ∧
      ∃ d, e.stmt.exec e.sess e.ctx e.pre = some (e.res, d)) h → Always _ h from hall _ hrel.past
  intro h hpast
  induction h with
  | nil => exact trivial
  | cons e h ih =>
    obtain ⟨⟨-, hperm, -⟩, hpast'⟩ := hpast
    refine ⟨fun request identity hst => ?_, ih hpast'⟩
    obtain ⟨enabled, hop, hclear⟩ := hperm.cleared request identity hst
    refine ⟨enabled, hop, fun hen => ?_⟩
    rcases hclear with hex | ⟨c, s, now, db, rest, id, hγ, hc, hid⟩
    · refine ⟨[], h, rfl, fun x hx => absurd hx List.not_mem_nil, .inl ?_⟩
      rw [hen] at hex
      exact hex
    · obtain ⟨h₁, h₂, rfl, hown, -, -⟩ := ownEvents_split (a := []) hγ
      obtain ⟨L, -, -⟩ := hpast'.head
      obtain ⟨hkey, hsecret, -⟩ := extractCredentials_some hc
      obtain ⟨o, ho, hiff, -⟩ := L.identify hs c.key c.secret
      refine ⟨h₁ ++ [_], h₂, List.append_cons .., fun x hx hsess => ?_,
        .inr ⟨c.key, c.secret, hkey, hsecret, hiff.mp ?_⟩⟩
      · rcases List.mem_append.mp hx with hx | hx
        · have hmem : x ∈ ownEvents e.sess h₁ := List.mem_filter.mpr ⟨hx, by simpa using hsess⟩
          rw [hown] at hmem
          exact absurd hmem List.not_mem_nil
        · rw [List.mem_singleton.mp hx]
      · have h1 : (Except.ok o : PgAppResult _) = .ok (some id) := ho.symm.trans hid
        rw [Except.ok.inj h1]
        rfl

/-- **What a key and a secret are good for**, in every state that any number of sessions can reach:
creations, rotations, deactivations, authentications and requests in any order.

* `authenticate` returns an identity, of that key, exactly if the key has a client that was never
  deactivated and the secret is what its creation or its latest rotation has returned;
* a key that was deactivated authenticates with no secret, is not rotated and not created again;
* with authentication enabled the inner service is called exactly for the two health paths and for
  requests whose two headers are readable and authenticate now;
* among other sessions, a request that reaches the inner service was admitted at a moment since its
  call began, and a call answers what it would have answered alone at one of its statements (or ends
  in a check). -/
theorem client_credentials (lib : ClientLib) (hs : lib.Sound) (σ : AuthSys) (hr : AuthReach lib σ) :
    (∀ s now seed k secret, ∃ o, AuthCall.runAlone lib ⟨seed, .authenticate k secret⟩ s now σ.db
        = some (.ok (.identity o), σ.db) ∧
      (o.isSome = true ↔ HoldsSecret k secret (callLog lib σ.hist)) ∧
      ∀ identity ∈ o, identity.clientKey = k) ∧
    (∀ k, Deactivated k (callLog lib σ.hist) → ∀ s now seed,
      (∀ secret, AuthCall.runAlone lib ⟨seed, .authenticate k secret⟩ s now σ.db
        = some (.ok (.identity none), σ.db)) ∧
      (∃ r db', AuthCall.runAlone lib ⟨seed, .rotateSecret k⟩ s now σ.db = some (r, db') ∧
        db'.clients = σ.db.clients ∧ ∀ c, r ≠ .ok (.rotated (some c))) ∧
      ∀ roles, ∃ e db', AuthCall.runAlone lib ⟨seed, .createClient k roles⟩ s now σ.db
        = some (.error e, db') ∧ db'.clients = σ.db.clients) ∧
    (∀ s now seed request,
      (Admitted request (callLog lib σ.hist) → ∃ identity,
        AuthCall.runAlone lib ⟨seed, .request true request⟩ s now σ.db
          = some (.ok (.response .forwarded),
              { σ.db with served := σ.db.served ++ [(request, identity)] })) ∧
      (¬ Admitted request (callLog lib σ.hist) → ∃ message,
        AuthCall.runAlone lib ⟨seed, .request true request⟩ s now σ.db
          = some (.ok (.response (unauthenticatedResponse message)), σ.db))) ∧
    Always (fun e h => ∀ request identity, e.stmt = .callInner request identity →
      ∃ enabled, e.op.op = .request enabled request ∧ (enabled = true →
        ∃ a b, h = a ++ b ∧ (∀ x ∈ a, x.sess = e.sess → x.op = e.op) ∧
          Admitted request (callLog lib b))) σ.hist ∧
    (∀ s call r, (s, call, r) ∈ σ.done →
      call.body lib = .ret r ∨ ∃ e ∈ σ.hist, e.op = call ∧ outcome lib e = some r) := by
  have L := ClientLedger.of_reach hs hr
  refine ⟨fun s now seed k secret => L.authenticate_alone hs s now seed k secret, ?_,
    fun s now seed request => L.gate_alone hs s now seed request, admitted_of_reach hs hr,
    answered_of_reach hs hr⟩
  intro k hd s now seed
  refine ⟨fun secret => ?_, L.rotate_alone hs hd s now seed, L.create_alone hd s now seed⟩
  obtain ⟨o, ho, hiff, -⟩ := L.authenticate_alone hs s now seed k secret
  obtain rfl : o = none := by
    cases o with
    | none => rfl
    | some identity => exact absurd hd (hiff.mp rfl).2.1
  exact ho

end

/-! ## a run -/

/-- SHA-256 of the one key of the run, and a hash that keeps its password readable -/
def openLib : ClientLib where
  hashKey k :=
    if k = "svc-billing" then "044421b0d6ba6bda30dd64dc7a79337a6abf7c9bfba5a2f9c7c5334c4854514f"
    else "x" ++ k
  hashPassword password _ := .ok ("$argon2id$" ++ password)
  verifyPassword hash password := .ok (hash == "$argon2id$" ++ password)
  toValue roles := .ok (.arr (roles.map .str))
  fromValue
    | .arr items => items.mapM fun
      | .str s => .ok s
      | _ => .error "invalid type, expected a string"
    | _ => .error "invalid type, expected a sequence"

theorem openLib_sound : openLib.Sound where
  hashKey_injective := by
    intro k k' h
    change (if k = "svc-billing" then _ else _) = (if k' = "svc-billing" then _ else _) at h
    split at h
    · split at h
      · rename_i h1 h2
        exact h1.trans h2.symm
      · have h1 := congrArg String.toList h
        simp at h1
    · split at h
      · have h1 := congrArg String.toList h
        simp at h1
      · exact (String.append_right_inj "x").mp h
  verify_exact := by
    intro password salt hash h password'
    obtain rfl : "$argon2id$" ++ password = hash := Except.ok.inj h
    show Except.ok ("$argon2id$" ++ password == "$argon2id$" ++ password') = _
    congr 1
    rw [Bool.eq_iff_iff, beq_iff_eq, beq_iff_eq, String.append_right_inj]
    exact eq_comm
  roles_back := by
    intro roles value h
    obtain rfl : Json.arr (roles.map .str) = value := Except.ok.inj h
    show List.mapM _ (roles.map Json.str) = _
    induction roles with
    | nil => rfl
    | cons role roles ih =>
      rw [List.map_cons, List.mapM_cons, ih rfl]
      rfl

def asciiBytes (s : String) : List UInt8 := s.toList.map fun c => UInt8.ofNat c.toNat

/-- a client is created and its secret rotated; a request with the new secret passes the gate -/
def rotatedOnce : List (Act AuthCall Time) :=
  [.call 0 ⟨⟨"a", "b", "salt-1"⟩, .createClient "svc-billing" ["cache"]⟩, .stmt 0 1, .ret 0,
   .call 0 ⟨⟨"c", "d", "salt-2"⟩, .rotateSecret "svc-billing"⟩, .stmt 0 2, .ret 0,
   .call 1 ⟨⟨"", "", ""⟩, .request true ⟨"/pgapp.v1.CacheService/Get",
     [("x-pgapp-key", asciiBytes "svc-billing"), ("x-pgapp-secret", asciiBytes "pgapp_c_d")]⟩⟩,
   .stmt 1 3, .stmt 1 4, .ret 1]

theorem client_credentials_rotatedOnce :
    ∃ σ : AuthSys, (Sys.init AuthDb.empty).play AuthStmt.exec (AuthCall.body openLib) rotatedOnce
        = some σ ∧ σ.db.served.length = 1 ∧
      (∃ identity, AuthCall.runAlone openLib
          ⟨⟨"", "", ""⟩, .authenticate "svc-billing" "pgapp_c_d"⟩ 0 5 σ.db
        = some (.ok (.identity (some identity)), σ.db)) ∧
      AuthCall.runAlone openLib ⟨⟨"", "", ""⟩, .authenticate "svc-billing" "pgapp_a_b"⟩ 0 5 σ.db
        = some (.ok (.identity none), σ.db) := by
  have h : ((Sys.init AuthDb.empty : AuthSys).play AuthStmt.exec (AuthCall.body openLib)
      rotatedOnce).isSome := by rfl
  have hr : AuthReach openLib (Option.get _ h) := Sys.play_steps (Option.some_get h).symm
  have hlatest : latestSecret "svc-billing" (callLog openLib (Option.get _ h).hist)
      = some "pgapp_c_d" := by rfl
  have hcreated : Created "svc-billing" (callLog openLib (Option.get _ h).hist) :=
    ⟨["cache"], _, List.mem_of_getElem? (i := 3) rfl⟩
  have hops : (callLog openLib (Option.get _ h).hist).map (·.1)
      = [.request true _, .request true _, .rotateSecret "svc-billing",
          .createClient "svc-billing" ["cache"]] := rfl
  have hactive : ¬ Deactivated "svc-billing" (callLog openLib (Option.get _ h).hist) := by
    intro hd
    have h1 := List.mem_map_of_mem (f := (·.1)) hd
    rw [hops] at h1
    simp at h1
  have hauth := (client_credentials openLib openLib_sound _ hr).1 0 5 ⟨"", "", ""⟩ "svc-billing"
  refine ⟨_, (Option.some_get h).symm, by rfl, ?_, ?_⟩
  · obtain ⟨o, ho, hiff, -⟩ := hauth "pgapp_c_d"
    obtain ⟨identity, rfl⟩ := Option.isSome_iff_exists.mp (hiff.mpr ⟨hcreated, hactive, hlatest⟩)
    exact ⟨identity, ho⟩
  · obtain ⟨o, ho, hiff, -⟩ := hauth "pgapp_a_b"
    cases o with
    | none => exact ho
    | some identity =>
      have h1 : some "pgapp_c_d" = some "pgapp_a_b" := hlatest.symm.trans (hiff.mp rfl).2.2
      exact absurd h1 (by decide)

end PgApp
