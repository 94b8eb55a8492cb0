import PgApp.Server.Limits
import PgApp.Server.PagedLists

/-!
# The page envelope of the admin API

Eight handlers answer with a page: items, limit, offset and next offset.  Seven take the page of a
store as it is; `mq_dlq_messages` echoes the limit of the request beside the page it got, and `logs`
has an error response of its own.

* `AdminList`          the eight lists, with their routes, rows and envelopes;
* `Envelope.Fits`      what a client may rely on;
* `AdminList.Lawful`   a request is answered with a 400 or with an envelope that fits;
* `AdminList.Meets`    when it is (`list_envelopes`); no filter of the request may have U+0000.

A request without the token, for a queue or a scope that is none, is refused before the limit is
looked at; it is not `InOrder`.
-/

namespace PgApp
open Interleave Paging

/-! ## the lists -/

inductive AdminList where
  | logs
  | cacheNamespaces
  | cacheEntries
  | mqQueues
  | mqMessages (queue : String)
  | mqDlqMessages (queue : String)
  | configScopes
  | configReleases

abbrev AdminList.Row : AdminList → Type
  | .logs => LogRow
  | .cacheNamespaces => CacheNamespaceSummary
  | .cacheEntries => CacheEntryPreview
  | .mqQueues => MqQueueSummary
  | .mqMessages _ => MqMessagePreview
  | .mqDlqMessages _ => DlqMessage
  | .configScopes => ConfigScopeSummary
  | .configReleases => ConfigRelease

def AdminList.route (params : ListParams) : AdminList → AdminRoute
  | .logs => .logs params
  | .cacheNamespaces => .cacheNamespaces params
  | .cacheEntries => .cacheEntries params
  | .mqQueues => .mqQueues params
  | .mqMessages queue => .mqMessages queue params
  | .mqDlqMessages queue => .mqDlqMessages queue params
  | .configScopes => .configScopes params
  | .configReleases => .configReleases params

structure Envelope (α : Type) where
  items : List α
  limit : Int
  offset : Int
  nextOffset : Option Int

def ConfigPage.envelope {α : Type} (page : ConfigPage α) : Envelope α :=
  ⟨page.items, page.limit, page.offset, page.nextOffset⟩

/-- the envelope that a body of the list carries -/
def AdminList.envelope : (list : AdminList) → AdminBody → Option (Envelope list.Row)
  | .logs, .logs page => some page.envelope
  | .cacheNamespaces, .cacheNamespaces page => some page.envelope
  | .cacheEntries, .cacheEntries page => some page.envelope
  | .mqQueues, .mqQueues page => some page.envelope
  | .mqMessages _, .mqMessages page => some page.envelope
  | .mqDlqMessages _, .dlqMessages items limit offset next => some ⟨items, limit, offset, next⟩
  | .configScopes, .configScopes page => some page.envelope
  | .configReleases, .configReleases page => some page.envelope
  | _, _ => none

/-- the filter of a request for the logs -/
def ListParams.logFilter (params : ListParams) : LogFilter :=
  ⟨params.level, params.text, params.target⟩

/-- the rows of a list -/
def AdminList.rows (state : AdminHttpState) (c : ServerCtx) (db : ServerDb) (params : ListParams) :
    (list : AdminList) → List list.Row
  | .logs =>
      (db.logs.filter fun row => row.matches_ c params.logFilter).insertionSort loggedAfter
  | .cacheNamespaces => db.cache.namespaceSummaries c.now
  | .cacheEntries => (db.cache.listedEntries params.namespace_ c.now).map entryPreview
  | .mqQueues => db.mq.queueSummaries c.now
  | .mqMessages queue => (db.mq.listedMessages queue).map (state.adminStore.messagePreview queue)
  | .mqDlqMessages queue => ((db.mq.dlqOf queue).insertionSort dlqBefore).map rowToDlqMessage
  | .configScopes => db.config.tables.listedScopes
  | .configReleases =>
      match configScopeFromQuery params with
      | .ok scope => newestFirst (db.config.tables.releasesOf scope)
      | .error _ => []

/-- the request is right but for its limit and offset -/
def AdminList.InOrder (state : AdminHttpState) (db : ServerDb)
    (headers : List (String × List UInt8)) (params : ListParams) (list : AdminList) : Prop :=
  authorized state.token headers = true ∧
    match list with
    | .mqMessages queue => validateQueueName queue = .ok ()
    | .mqDlqMessages queue =>
      validateQueueName queue = .ok () ∧ ∃ q, db.mq.selectQueueId queue = some q
    | .configReleases =>
      ∃ scope, configScopeFromQuery params = .ok scope ∧ validateScope scope = .ok ()
    | _ => True

/-! ## what a client may rely on -/

/-- the envelope of a request for the rows from `offset` on; `m` is the maximum of the server -/
structure Envelope.Fits {α : Type} (e : Envelope α) (m : Nat) (rows : List α)
    (offset : Int) : Prop where
  start : e.offset = offset
  count : (e.items.length : Int) ≤ e.limit
  most : e.limit ≤ m
  next : e.nextOffset = none ∨ e.nextOffset = some (e.offset + e.limit)
  page : e.items = (rows.drop offset.toNat).take e.limit.toNat
  last : e.nextOffset = none → (rows.length : Int) ≤ offset + e.limit

/-- a 400 -/
def AdminResponse.IsInvalid (response : AdminResponse) : Prop :=
  ∃ message requestId, response = errorResponse .badRequest "invalid_argument" message requestId

def AdminResponse.IsError (response : AdminResponse) : Prop :=
  ∃ status code message requestId, status ≠ StatusCode.ok ∧
    response = errorResponse status code message requestId

/-- the answer to a request that is in order -/
def AdminList.Answers (list : AdminList) (m : Nat) (rows : List list.Row) (limit offset : Int)
    (response : AdminResponse) : Prop :=
  ((limit ≤ 0 ∨ offset < 0) ∧ response.IsInvalid) ∨
    ∃ body e, response = jsonResponse .ok body ∧ list.envelope body = some e ∧ e.Fits m rows offset

def ListParams.at_ (params : ListParams) (limit offset : Int) : ListParams :=
  { params with limit := some limit, offset := some offset }

/-- the request is answered as it should be -/
def AdminList.Lawful (state : AdminHttpState) (m s : Nat) (c : ServerCtx) (db : ServerDb)
    (headers : List (String × List UInt8)) (drawn : Drawn) (params : ListParams)
      (limit offset : Int)
    (list : AdminList) : Prop :=
  ∃ response db', ((list.route (params.at_ limit offset)).handle state headers drawn).run
      (ServerStmt.exec s c) db = some (.ok response, db') ∧
    (list.InOrder state db headers params →
      list.Answers m (list.rows state c db params) limit offset response) ∧
    (¬ list.InOrder state db headers params → response.IsError)

/-- the arithmetic of a page does not overflow, or there is nothing to show -/
def PageFits (m : Nat) (limit offset : Int) (count : Nat) : Prop :=
  (m < 2 ^ 63 ∧ min limit m < 2 ^ 63 - 1) ∨ (m = 18446744073709551615 ∧ (count : Int) ≤ offset)

/-- when a list meets what a client may rely on; 100 is the batch size of `MqLimits::default` -/
def AdminList.Meets (params : ListParams) (m : Nat) (limit offset : Int) (count : Nat) :
    AdminList → Prop
  | .logs => params.logFilter.texts.all storable = true ∧ 0 < limit ∧ 0 ≤ offset ∧
      PageFits m limit offset count
  | .cacheEntries => limit ≤ 0 ∨ offset < 0 ∨
      (params.namespace_.toList.all storable = true ∧ PageFits m limit offset count)
  | .mqDlqMessages _ => offset < 0 ∨ limit < 0 ∨ (limit = 0 ∧ (count : Int) ≤ offset) ∨
      (1 ≤ limit ∧ limit ≤ m ∧ (limit ≤ 100 ∨ (count : Int) ≤ offset + 100))
  | _ => limit ≤ 0 ∨ offset < 0 ∨ PageFits m limit offset count

/-! ## a handler -/

section
variable {s : Nat} {c : ServerCtx} {db : ServerDb}
variable {state : AdminHttpState} {headers : List (String × List UInt8)}

theorem run_recordLog (db : ServerDb) (input : AdminLogInput) :
    ∃ q, (recordLog input).run (ServerStmt.exec s c) db = some q := by
  unfold recordLog
  cases validateNonEmpty "level" input.level with
  | error e => exact ⟨_, rfl⟩
  | ok _ =>
    cases validateNonEmpty "target" input.target with
    | error e => exact ⟨_, rfl⟩
    | ok _ =>
      cases validateNonEmpty "message" input.message with
      | error e => exact ⟨_, rfl⟩
      | ok _ => exact ⟨_, rfl⟩

theorem run_recordRequest (db : ServerDb) (requestId path : String) :
    ∃ db', (recordRequest requestId path).run (ServerStmt.exec s c) db = some (.ok (), db') := by
  unfold recordRequest ignore
  rw [Prog.run_mapResult]
  obtain ⟨⟨r, d⟩, hq⟩ := run_recordLog (s := s) (c := c) db
    ⟨"INFO", "pgapp_server::admin_http", "admin request completed", some requestId,
      .obj [("path", .str path)]⟩
  rw [hq]
  exact ⟨d, rfl⟩

/-- what a handler makes of the result of its work -/
def responseOf {α : Type} (ok : α → AdminResponse) (failed : PgAppError → AdminResponse) :
    PgAppResult α → AdminResponse
  | .ok a => ok a
  | .error err => failed err

theorem run_handler (ha : authorized state.token headers = true) (requestId path : String)
    {α : Type} {p : ServerProg α} {r : PgAppResult α} {d : ServerDb}
      (hrun : p.run (ServerStmt.exec s c) db = some (r, d))
    (ok : α → AdminResponse) (failed : PgAppError → AdminResponse) :
    ∃ db', (handler state headers requestId path (respond p ok failed)).run (ServerStmt.exec s c) db
      = some (.ok (responseOf ok failed r), db') := by
  have hwork : (respond p ok failed).run (ServerStmt.exec s c) db
      = some (.ok (responseOf ok failed r), d) := by
    unfold respond
    rw [Prog.run_mapResult, hrun]
    cases r <;> rfl
  obtain ⟨db', hlog⟩ := run_recordRequest (s := s) (c := c) d requestId path
  refine ⟨db', ?_⟩
  rw [handler_authorized ha, Prog.run_bind_ok _ hwork, Prog.run_bind_ok _ hlog]
  rfl

end

/-! ## errors -/

theorem errorResponse_isError {status : StatusCode} (h : status ≠ .ok)
    (code message requestId : String) :
    (errorResponse status code message requestId).IsError :=
      ⟨status, code, message, requestId, h, rfl⟩

theorem adminStoreError_isError (message requestId : String) (e : PgAppError) :
    (adminStoreError message requestId e).IsError := by
  cases e <;> exact errorResponse_isError (by decide) _ _ _

theorem AdminResponse.IsInvalid.not_page {body : AdminBody} :
    ¬ (jsonResponse .ok body).IsInvalid := by
  intro hex
  obtain ⟨message, requestId, h⟩ := hex
  cases h

theorem isInvalid_of_argument (message requestId text : String) :
    (adminStoreError message requestId (.invalidArgument text)).IsInvalid :=
      ⟨message, requestId, rfl⟩

theorem adminStoreError_database (message requestId text : String) :
    ¬ (adminStoreError message requestId (.database text)).IsInvalid := by
  intro hex
  obtain ⟨message', id', h⟩ := hex
  cases h

theorem adminError_not_invalid (message requestId : String) (e : PgAppError) :
    ¬ (adminError message requestId e).IsInvalid := by
  intro hex
  obtain ⟨message', id', h⟩ := hex
  cases h

theorem AdminList.not_answers_of_error {list : AdminList} {m : Nat} {rows : List list.Row}
    {limit offset : Int} {response : AdminResponse} (he : response.IsError)
      (hi : ¬ response.IsInvalid) :
    ¬ list.Answers m rows limit offset response := by
  obtain ⟨status, code, message, requestId, hstatus, rfl⟩ := he
  intro hex
  rcases hex with ⟨-, h⟩ | ⟨body, e, h, -, -⟩
  · exact hi h
  · cases h
    exact hstatus rfl

theorem AdminList.answers_invalid {list : AdminList} {m : Nat} {rows : List list.Row}
    {limit offset : Int} {response : AdminResponse} (h : response.IsInvalid) :
    list.Answers m rows limit offset response ↔ limit ≤ 0 ∨ offset < 0 := by
  constructor
  · intro hex
    rcases hex with ⟨hbad, -⟩ | ⟨body, e, rfl, -, -⟩
    · exact hbad
    · exact absurd h AdminResponse.IsInvalid.not_page
  · exact fun hbad => .inl ⟨hbad, h⟩

theorem AdminList.answers_page {list : AdminList} {m : Nat} {rows : List list.Row}
    {limit offset : Int}
    {body : AdminBody} {e : Envelope list.Row} (he : list.envelope body = some e) :
    list.Answers m rows limit offset (jsonResponse .ok body) ↔ e.Fits m rows offset := by
  constructor
  · intro hex
    rcases hex with ⟨-, h⟩ | ⟨body', e', h, he', hfits⟩
    · exact absurd h AdminResponse.IsInvalid.not_page
    · cases h
      rw [he] at he'
      cases he'
      exact hfits
  · exact fun h => .inr ⟨body, e, rfl, he, h⟩

/-! ## pages of a store -/

section
variable {α β : Type} {m : Nat} {full : List α} {shown : α → β} {limit o : Int}

theorem pageOfRows_invalid (m : Nat) (full : List α) (shown : α → β) (h : limit ≤ 0 ∨ o < 0) :
    ∃ text, pageOfRows m full shown (some limit) o = .error (.invalidArgument text) := by
  unfold pageOfRows
  rw [pageOf_def, Option.getD_some]
  split
  · exact ⟨_, rfl⟩
  · rw [if_pos (by omega)]
    exact ⟨_, rfl⟩

theorem fits_slice {e : Envelope β} {rows : List β} {n : Nat} (hn : e.limit = n) (hle : n ≤ m)
    (ho : e.offset = o) (hs : (e.items, e.nextOffset) = slice rows n o) : e.Fits m rows o := by
  have hitems : e.items = (rows.drop o.toNat).take n := congrArg Prod.fst hs
  have hnext : e.nextOffset = if o + n < rows.length then some (o + n) else none :=
    congrArg Prod.snd hs
  refine ⟨ho, ?_, by omega, ?_, ?_, fun hnone => ?_⟩
  · rw [hn, hitems]
    exact Int.ofNat_le.mpr (List.length_take_le n _)
  · rw [hnext, ho, hn]
    split
    · exact .inr rfl
    · exact .inl rfl
  · rw [hn, Int.toNat_natCast]
    exact hitems
  · rw [hnext] at hnone
    split at hnone
    · cases hnone
    · omega

theorem pageOfRows_fits (full : List α) (shown : α → β) (hm : 1 ≤ m) (hl : 0 < limit) (ho : 0 ≤ o)
    (hlt : m < 2 ^ 63) (hmin : min limit m < 2 ^ 63 - 1) :
    ∃ p, pageOfRows m full shown (some limit) o = .ok p ∧ p.envelope.Fits m (full.map shown) o := by
  obtain ⟨n, hn⟩ := Int.eq_ofNat_of_zero_le (show 0 ≤ min limit m by omega)
  have hpage : pageOf m (some limit) o = .ok ⟨n, n + 1, o⟩ := by
    rw [pageOf_def, if_neg (by omega), Option.getD_some, if_neg (by omega), asI64_of_lt hlt, hn,
      asUsize_of_lt (by omega) (by omega), Int.toNat_natCast, asI64_of_lt (by omega),
      wrapI64_of_lt (by omega) (by omega)]
  have hslice := finish_slice shown full (show n < 2 ^ 63 by omega) o ho
  refine ⟨(⟨n, n + 1, o⟩ : PageState).finish (((full.drop o.toNat).take (n + 1)).map shown), ?_,
    fits_slice (n := n) rfl (by omega) rfl hslice⟩
  unfold pageOfRows
  rw [hpage]
  show ((limitOffset full ((n : Int) + 1) o).mapError PgAppError.ofSqlx >>= fun rows =>
    pure ((⟨n, n + 1, o⟩ : PageState).finish (rows.map shown))) = _
  rw [limitOffset_ok full (by omega) o]
  rfl

theorem pageOfRows_database (hl : 0 < limit) (ho : 0 ≤ o) (hm : m < 2 ^ 64)
    (hlarge : ¬ (m < 2 ^ 63 ∧ min limit m < 2 ^ 63 - 1)) (hlast : m ≠ 18446744073709551615) :
    pageOfRows m full shown (some limit) o = .error (.ofSqlx .negativeLimit) := by
  have hpage := pageOf_def m (some limit) o
  rw [if_neg (by omega), Option.getD_some, if_neg (by omega)] at hpage
  refine pageOfRows_negative hpage ?_
  dsimp only
  rcases Nat.lt_or_ge m (2 ^ 63) with hlt | hge
  · have hmin : min limit (asI64 m) = asI64 m := by
      rw [asI64_of_lt hlt]
      omega
    rw [hmin]
    exact fetch_wraps (by omega) hlt
  · have hneg := asI64_neg hge hm
    have hmin : min limit (asI64 m) = asI64 m := by omega
    rw [hmin]
    unfold asI64 asUsize wrapI64 at *
    omega

theorem last_fits (ho : 0 ≤ o) {rows : List β} :
    (⟨[], 18446744073709551615, o, none⟩ : Envelope β).Fits 18446744073709551615 rows o
      ↔ (rows.length : Int) ≤ o := by
  constructor
  · intro h
    have hrows : rows.drop o.toNat = [] := by
      have hall := h.page
      simp only at hall
      rcases List.take_eq_nil_iff.mp hall.symm with hzero | hnil
      · omega
      · exact hnil
    have := List.drop_eq_nil_iff.mp hrows
    omega
  · intro hle
    have hrows : rows.drop o.toNat = [] := List.drop_eq_nil_iff.mpr (by omega)
    refine ⟨rfl, by simp, le_refl _, .inl rfl, ?_, fun _ => ?_⟩
    · rw [hrows, List.take_nil]
    · show (rows.length : Int) ≤ o + 18446744073709551615
      omega

end

/-! ## a list of a store -/

/-- a list that hands on the page of a store meets its promise exactly if `PageFits`; `strict` is a
handler that has no 400 -/
theorem AdminList.answers_listed (list : AdminList) (lenient : Bool) {α : Type} {m : Nat}
    (hm : 1 ≤ m)
    (hm64 : m < 2 ^ 64) (full : List α) (shown : α → list.Row)
    {wrap : ConfigPage list.Row → AdminBody} (hwrap : ∀ p, list.envelope (wrap p) = some p.envelope)
    {failed : PgAppError → AdminResponse} (hfailed : ∀ e, (failed e).IsError)
    (hinvalid : ∀ text, (failed (.invalidArgument text)).IsInvalid ↔ lenient = true)
    (hdatabase : ∀ text, ¬ (failed (.database text)).IsInvalid) (limit offset : Int) :
    list.Answers m (full.map shown) limit offset
        (responseOf (fun page => jsonResponse .ok (wrap page)) failed
          (pageOfRows m full shown (some limit) offset))
      ↔ if lenient = true then limit ≤ 0 ∨ offset < 0 ∨ PageFits m limit offset full.length
        else 0 < limit ∧ 0 ≤ offset ∧ PageFits m limit offset full.length := by
  by_cases hbad : limit ≤ 0 ∨ offset < 0
  · obtain ⟨text, htext⟩ := pageOfRows_invalid m full shown hbad
    rw [htext]
    show list.Answers m _ limit offset (failed (.invalidArgument text)) ↔ _
    cases hlen : lenient with
    | true =>
      rw [if_pos rfl, AdminList.answers_invalid ((hinvalid text).mpr hlen)]
      exact ⟨fun h => h.imp_right .inl, fun _ => hbad⟩
    | false =>
      have hno : ¬ (failed (.invalidArgument text)).IsInvalid := fun h => by
        rw [(hinvalid text).mp h] at hlen
        cases hlen
      rw [if_neg Bool.false_ne_true]
      exact ⟨fun h => absurd h (AdminList.not_answers_of_error (hfailed _) hno), fun h => by omega⟩
  · have hl : 0 < limit := by omega
    have ho : 0 ≤ offset := by omega
    have hanswer : list.Answers m (full.map shown) limit offset
        (responseOf (fun page => jsonResponse .ok (wrap page)) failed
          (pageOfRows m full shown (some limit) offset)) ↔ PageFits m limit offset full.length := by
      by_cases hfits : m < 2 ^ 63 ∧ min limit m < 2 ^ 63 - 1
      · obtain ⟨p, hp, hpfits⟩ := pageOfRows_fits full shown hm hl ho hfits.1 hfits.2
        rw [hp]
        exact (AdminList.answers_page (hwrap p)).trans ⟨fun _ => .inl hfits, fun _ => hpfits⟩
      · by_cases hlast : m = 18446744073709551615
        · subst hlast
          rw [pageOfRows_last hl ho]
          refine (AdminList.answers_page (hwrap _)).trans ((last_fits ho).trans ?_)
          rw [List.length_map]
          exact ⟨fun h => .inr ⟨rfl, h⟩, fun h => h.elim (fun h => absurd h hfits) (·.2)⟩
        · rw [pageOfRows_database hl ho hm64 hfits hlast]
          refine ⟨fun h => absurd h (AdminList.not_answers_of_error (hfailed _) (hdatabase _)),
            fun h => ?_⟩
          exact h.elim (fun h => absurd h hfits) fun h => absurd h.1 hlast
    rw [hanswer]
    split
    · exact ⟨fun h => .inr (.inr h), fun h => h.elim (fun h => absurd h (by omega)) fun h =>
        h.elim (fun h => absurd h (by omega)) id⟩
    · exact ⟨fun h => ⟨hl, ho, h⟩, fun h => h.2.2⟩

/-- a list that checks the page and then fails in the database -/
theorem AdminList.answers_refused {list : AdminList} {m : Nat} {rows : List list.Row}
    {limit offset : Int} {ok : ConfigPage list.Row → AdminResponse}
    {failed : PgAppError → AdminResponse} (hfailed : ∀ e, (failed e).IsError)
    (hinvalid : ∀ text, (failed (.invalidArgument text)).IsInvalid)
    (hdatabase : ∀ text, ¬ (failed (.database text)).IsInvalid) :
    list.Answers m rows limit offset
        (responseOf ok failed (pageOf m (some limit) offset >>=
          fun _ => .error (.ofSqlx .invalidText)))
      ↔ limit ≤ 0 ∨ offset < 0 := by
  rw [pageOf_def, Option.getD_some]
  by_cases ho : offset < 0
  · rw [if_pos ho]
    exact AdminList.answers_invalid (hinvalid _)
  · rw [if_neg ho]
    by_cases hl : limit ≤ 0
    · rw [if_pos hl]
      exact AdminList.answers_invalid (hinvalid _)
    · rw [if_neg hl]
      refine ⟨fun h => absurd h (AdminList.not_answers_of_error (hfailed _) (hdatabase _)),
        fun h => ?_⟩
      exact absurd h (by omega)

/-! ## the dead letters -/

/-- the page of a dead letter queue beside the limit of the request -/
theorem fits_dlq {rows : List DlqMessage} {m n : Nat} {limit o : Int} (ho : 0 ≤ o) (hl : 0 ≤ limit)
    (hn : (n : Int) = if limit = 0 then 100 else min limit 100) :
    (⟨(slice rows n o).1, limit, o, (slice rows n o).2⟩ : Envelope DlqMessage).Fits m rows o
      ↔ (limit = 0 ∧ (rows.length : Int) ≤ o) ∨
        (1 ≤ limit ∧ limit ≤ m ∧ (limit ≤ 100 ∨ (rows.length : Int) ≤ o + 100)) := by
  have hitems : (slice rows n o).1 = (rows.drop o.toNat).take n := rfl
  have hnext : (slice rows n o).2 = if o + n < rows.length then some (o + n) else none := rfl
  have hlen : (slice rows n o).1.length = min n (rows.length - o.toNat) := by
    rw [hitems, List.length_take, List.length_drop]
  constructor
  · intro h
    have hcount := h.count
    have hmost := h.most
    have hstep := h.next
    simp only [hlen, hnext] at hcount hstep
    by_cases hzero : limit = 0
    · rw [if_pos hzero] at hn
      exact .inl ⟨hzero, by omega⟩
    · rw [if_neg hzero] at hn
      refine .inr ⟨by omega, hmost, ?_⟩
      split at hstep
      · -- the next offset is the capped one
        rcases hstep with hstep | hstep
        · cases hstep
        · have := Option.some.inj hstep
          omega
      · omega
  · intro h
    by_cases hmore : o + n < rows.length
    · -- a full page; its limit is the one that was asked for
      have heq : limit = n := by
        rcases h with ⟨rfl, hle⟩ | ⟨h1, -, h100⟩
        · omega
        · rw [if_neg (by omega)] at hn
          omega
      exact fits_slice heq (by omega) rfl rfl
    · rcases h with ⟨rfl, hle⟩ | ⟨h1, hm, -⟩
      · have hnil : rows.drop o.toNat = [] := List.drop_eq_nil_iff.mpr (by omega)
        refine ⟨rfl, ?_, Int.natCast_nonneg m, .inl (if_neg hmore), ?_, fun _ => ?_⟩
        · show ((slice rows n o).1.length : Int) ≤ 0
          rw [hitems, hnil, List.take_nil, List.length_nil]
          exact le_refl _
        · show (slice rows n o).1 = _
          rw [hitems, hnil, List.take_nil, List.take_nil]
        · show (rows.length : Int) ≤ o + 0
          omega
      · rw [if_neg (by omega)] at hn
        have hrest : (rows.drop o.toNat).length ≤ n := by
          rw [List.length_drop]
          omega
        refine ⟨rfl, ?_, hm, .inl (if_neg hmore), ?_, fun _ => ?_⟩
        · show ((slice rows n o).1.length : Int) ≤ limit
          omega
        · show (slice rows n o).1 = (rows.drop o.toNat).take limit.toNat
          rw [hitems, List.take_of_length_le hrest, List.take_of_length_le (by omega)]
        · show (rows.length : Int) ≤ o + limit
          omega

section
variable (state : AdminHttpState) {s : Nat} {c : ServerCtx} {db : ServerDb} {queue : String}

theorem run_listDlq {limit o : Int} {r : PgAppResult DlqPage}
    (h : (state.mqStore.listDlqMessages queue limit o).alone s c.mq db.mq = some (r, db.mq)) :
    (onMq (state.mqStore.listDlqMessages queue limit o)).run (ServerStmt.exec s c) db
      = some (r, db) := by
  rw [run_onMq]
  show ((state.mqStore.listDlqMessages queue limit o).alone s c.mq db.mq).map _ = _
  rw [h]
  rfl

variable (hv : validateQueueName queue = .ok ())
include hv

theorem run_listDlq_invalid {q : Int} (hq : db.mq.selectQueueId queue = some q) {limit o : Int}
    (h : limit < 0 ∨ o < 0) :
    ∃ text, (onMq (state.mqStore.listDlqMessages queue limit o)).run (ServerStmt.exec s c) db
      = some (.error (.invalidArgument text), db) := by
  by_cases ho : o < 0
  · refine ⟨"offset must not be negative", run_listDlq state ?_⟩
    unfold MqStore.listDlqMessages
    rw [MqProg.alone_queueId_bind hv hq, if_pos ho]
    rfl
  · refine ⟨"limit must not be negative", run_listDlq state ?_⟩
    have hlimit : state.mqStore.pageLimit limit
        = .error (.invalidArgument "limit must not be negative") := if_pos (by omega)
    unfold MqStore.listDlqMessages
    rw [MqProg.alone_queueId_bind hv hq, if_neg ho, hlimit]
    rfl

/-- `MqLimits::default` has a batch size of 100 -/
theorem run_listDlq_page {q : Int} (hq : db.mq.selectQueueId queue = some q) {limit o : Int}
    (hl : 0 ≤ limit) (ho : 0 ≤ o) :
    ∃ n : Nat, (n : Int) = (if limit = 0 then 100 else min limit 100) ∧
      (onMq (state.mqStore.listDlqMessages queue limit o)).run (ServerStmt.exec s c) db
        = some (.ok ⟨(slice (((db.mq.dlqOf queue).insertionSort dlqBefore).map
          rowToDlqMessage) n o).1,
          (slice (((db.mq.dlqOf queue).insertionSort dlqBefore).map rowToDlqMessage) n o).2⟩,
              db) := by
  obtain ⟨n, hn⟩ := Int.eq_ofNat_of_zero_le
    (show 0 ≤ (if limit = 0 then (100 : Int) else min limit 100) by split <;> omega)
  have hlimit : state.mqStore.pageLimit limit = .ok (n : Int) := by
    unfold MqStore.pageLimit
    show (if limit < 0 then _ else if limit = 0 then Except.ok 100
      else Except.ok (min limit 100)) = _
    rw [if_neg (by omega), ← hn]
    split <;> rfl
  have hlt : n < 2 ^ 63 := by
    split at hn <;> omega
  exact ⟨n, hn.symm, run_listDlq state (alone_listDlq hv hq hlimit hlt ho)⟩

end

/-! ## every list -/

section
variable {state : AdminHttpState} {m s : Nat} {c : ServerCtx} {db : ServerDb}
variable {headers : List (String × List UInt8)} {drawn : Drawn} {params : ListParams}
variable {limit offset : Int}

theorem AdminList.lawful_inOrder {list : AdminList} {response : AdminResponse} {db' : ServerDb}
    (hin : list.InOrder state db headers params)
    (hrun : ((list.route (params.at_ limit offset)).handle state headers drawn).run
      (ServerStmt.exec s c) db = some (.ok response, db')) :
    list.Lawful state m s c db headers drawn params limit offset
      ↔ list.Answers m (list.rows state c db params) limit offset response := by
  constructor
  · intro hex
    obtain ⟨response', d, hrun', h, -⟩ := hex
    rw [hrun] at hrun'
    cases hrun'
    exact h hin
  · exact fun h => ⟨response, db', hrun, fun _ => h, fun hout => absurd hin hout⟩

theorem AdminList.lawful_refused {list : AdminList}
    (hout : ¬ list.InOrder state db headers params) :
    list.Lawful state m s c db headers drawn params limit offset := by
  suffices h : ∃ response db', ((list.route (params.at_ limit offset)).handle state
    headers drawn).run
      (ServerStmt.exec s c) db = some (.ok response, db') ∧ response.IsError by
    obtain ⟨response, db', hrun, herror⟩ := h
    exact ⟨response, db', hrun, fun hin => absurd hin hout, fun _ => herror⟩
  cases ha : authorized state.token headers with
  | false =>
    obtain ⟨d, hrun⟩ : ∃ d, ((list.route (params.at_ limit offset)).handle state headers drawn).run
        (ServerStmt.exec s c) db = some (.ok (unauthorizedResponse drawn.requestId), d) := by
      rw [handle_refused state headers drawn ha]
      exact ⟨_, rfl⟩
    exact ⟨_, d, hrun, errorResponse_isError (by decide) _ _ _⟩
  | true =>
    cases list with
    | mqMessages queue =>
      cases hv : validateQueueName queue with
      | ok u => exact absurd ⟨ha, hv⟩ hout
      | error e =>
        have hrun : (state.adminStore.listMqMessages queue (params.at_ limit offset).listQuery).run
            (ServerStmt.exec s c) db = some (.error e, db) := by
          unfold AdminStore.listMqMessages
          rw [hv]
          rfl
        obtain ⟨db', h⟩ := run_handler ha _ _ hrun _ _
        exact ⟨_, db', h, adminStoreError_isError _ _ e⟩
    | mqDlqMessages queue =>
      obtain ⟨e, he⟩ : ∃ e, (state.mqStore.listDlqMessages queue limit offset).alone s c.mq db.mq
          = some (.error e, db.mq) := by
        unfold MqStore.listDlqMessages
        cases hv : validateQueueName queue with
        | error e => exact ⟨e, MqProg.alone_queueId_invalid hv _⟩
        | ok u =>
          cases hq : db.mq.selectQueueId queue with
          | none => exact ⟨_, MqProg.alone_queueId_unknown hv hq _⟩
          | some q => exact absurd ⟨ha, hv, q, hq⟩ hout
      obtain ⟨db', h⟩ := run_handler ha _ _ (run_listDlq state he) _ _
      exact ⟨_, db', h, adminStoreError_isError _ _ e⟩
    | configReleases =>
      obtain ⟨e, he⟩ : ∃ e, (do
          let scope ← Prog.check (configScopeFromQuery params)
          onConfig (state.configStore.listReleases scope (some limit) offset) :
          ServerProg (ConfigPage ConfigRelease)).run (ServerStmt.exec s c) db
              = some (.error e, db) := by
        cases hs : configScopeFromQuery params with
        | error e => exact ⟨e, rfl⟩
        | ok scope =>
          cases hv : validateScope scope with
          | ok u => exact absurd ⟨ha, scope, hs, hv⟩ hout
          | error e =>
            refine ⟨e, ?_⟩
            show (onConfig (state.configStore.listReleases scope (some limit) offset)).run _ _ = _
            unfold ConfigStore.listReleases
            rw [hv]
            rfl
      obtain ⟨db', h⟩ := run_handler ha _ _ he _ _
      exact ⟨_, db', h, adminStoreError_isError _ _ e⟩
    | _ => exact absurd ⟨ha, trivial⟩ hout

/-- a handler with `admin_store_error` -/
theorem AdminList.lawful_listed {list : AdminList} (hm : 1 ≤ m) (hm64 : m < 2 ^ 64)
    (hin : list.InOrder state db headers params) {α : Type} {full : List α} {shown : α → list.Row}
    {wrap : ConfigPage list.Row → AdminBody} (hwrap : ∀ p, list.envelope (wrap p) = some p.envelope)
    {prog : ServerProg (ConfigPage list.Row)} {path message : String}
    (hhandle : (list.route (params.at_ limit offset)).handle state headers drawn
      = handler state headers drawn.requestId path (respond prog
          (fun page => jsonResponse .ok (wrap page)) (adminStoreError message drawn.requestId)))
    (hrun : prog.run (ServerStmt.exec s c) db
      = some (pageOfRows m full shown (some limit) offset, db))
    (hrows : list.rows state c db params = full.map shown) :
    list.Lawful state m s c db headers drawn params limit offset
      ↔ limit ≤ 0 ∨ offset < 0 ∨ PageFits m limit offset (list.rows state c db params).length := by
  obtain ⟨db', hanswer⟩ := run_handler hin.1 drawn.requestId path hrun
    (fun page => jsonResponse .ok (wrap page)) (adminStoreError message drawn.requestId)
  rw [← hhandle] at hanswer
  rw [AdminList.lawful_inOrder hin hanswer, hrows]
  have h := AdminList.answers_listed list true hm hm64 full shown hwrap
    (adminStoreError_isError message drawn.requestId)
    (fun text => ⟨fun _ => rfl, fun _ => isInvalid_of_argument _ _ _⟩)
    (adminStoreError_database message drawn.requestId) limit offset
  rw [List.length_map]
  rw [if_pos rfl] at h
  exact h

/-- the handler of the logs has a 500 for every error -/
theorem AdminList.listed_logs {α : Type} (hm : 1 ≤ m) (hm64 : m < 2 ^ 64) (full : List α)
    (shown : α → LogRow) (message requestId : String) (limit offset : Int) :
    AdminList.logs.Answers m (full.map shown) limit offset
        (responseOf (fun page => jsonResponse .ok (.logs page)) (adminError message requestId)
          (pageOfRows m full shown (some limit) offset))
      ↔ 0 < limit ∧ 0 ≤ offset ∧ PageFits m limit offset (full.map shown).length := by
  have h := AdminList.answers_listed .logs false hm hm64 full shown
    (show ∀ p, AdminList.logs.envelope (.logs p) = some p.envelope from fun _ => rfl)
    (show ∀ e, (adminError message requestId e).IsError from
      fun _ => errorResponse_isError (by decide) _ _ _)
    (fun text => ⟨fun h => absurd h (adminError_not_invalid _ _ _), fun h => by cases h⟩)
    (fun _ => adminError_not_invalid _ _ _) limit offset
  rw [List.length_map]
  rw [if_neg Bool.false_ne_true] at h
  exact h

/-- **Each list meets its promise exactly if `Meets`.** -/
theorem AdminList.answers_iff (list : AdminList) (hm : 1 ≤ m) (hm64 : m < 2 ^ 64)
    (hadmin : state.adminStore.maxPageSize = m) (hconfig : state.configStore.limits.maxPageSize = m)
    (hin : list.InOrder state db headers params) :
    list.Lawful state m s c db headers drawn params limit offset
      ↔ list.Meets params m limit offset (list.rows state c db params).length := by
  obtain ⟨ha, hin'⟩ := id hin
  cases list with
  | logs =>
    cases htexts : params.logFilter.texts.all storable with
    | true =>
      have h := lists_logs (s := s) (c := c) db state.adminStore htexts (some limit) offset
      rw [hadmin] at h
      obtain ⟨db', hrun⟩ := run_handler ha _ _ h _ _
      refine (AdminList.lawful_inOrder hin hrun).trans ?_
      have hiff := AdminList.listed_logs hm hm64 (AdminList.logs.rows state c db params) id
        "admin logs unavailable" drawn.requestId limit offset
      rw [List.map_id] at hiff
      exact hiff.trans ⟨fun h => ⟨htexts, h⟩, fun h => h.2⟩
    | false =>
      obtain ⟨e, he⟩ := (fails_logs (s := s) (c := c) db state.adminStore htexts).error
        (some limit) offset
      obtain ⟨db', hrun⟩ := run_handler ha _ _ he _ _
      refine (AdminList.lawful_inOrder hin hrun).trans ⟨fun h => ?_, fun h => ?_⟩
      · exact absurd h (AdminList.not_answers_of_error (errorResponse_isError (by decide) _ _ _)
          (adminError_not_invalid _ _ e))
      · exact absurd (htexts.symm.trans h.1) Bool.false_ne_true
  | cacheNamespaces =>
    have h := lists_namespaces (s := s) (c := c) db state.adminStore (some limit) offset
    rw [hadmin] at h
    exact AdminList.lawful_listed hm hm64 hin (fun _ => rfl) rfl h (List.map_id _).symm
  | cacheEntries =>
    cases htexts : params.namespace_.toList.all storable with
    | true =>
      have h := lists_entries (s := s) (c := c) db state.adminStore htexts (some limit) offset
      rw [hadmin] at h
      refine (AdminList.lawful_listed hm hm64 hin (fun _ => rfl) rfl h rfl).trans ?_
      exact or_congr_right (or_congr_right ⟨fun h => ⟨htexts, h⟩, fun h => h.2⟩)
    | false =>
      have h := fails_entries (s := s) (c := c) db state.adminStore htexts (some limit) offset
      rw [hadmin] at h
      obtain ⟨db', hrun⟩ := run_handler ha _ _ h _ _
      refine (AdminList.lawful_inOrder hin hrun).trans ?_
      rw [AdminList.answers_refused (adminStoreError_isError _ _) (isInvalid_of_argument _ _)
        (adminStoreError_database _ _)]
      refine or_congr_right ⟨.inl, fun h => h.elim id fun h => ?_⟩
      exact absurd (htexts.symm.trans h.1) Bool.false_ne_true
  | mqQueues =>
    have h := lists_queues (s := s) (c := c) db state.adminStore (some limit) offset
    rw [hadmin] at h
    exact AdminList.lawful_listed hm hm64 hin (fun _ => rfl) rfl h (List.map_id _).symm
  | mqMessages queue =>
    have h := lists_messages (s := s) (c := c) db state.adminStore hin' (some limit) offset
    rw [hadmin] at h
    exact AdminList.lawful_listed hm hm64 hin (fun _ => rfl) rfl h rfl
  | mqDlqMessages queue =>
    obtain ⟨hv, q, hq⟩ := hin'
    by_cases hbad : limit < 0 ∨ offset < 0
    · obtain ⟨text, hrun⟩ := run_listDlq_invalid state (s := s) (c := c) hv hq hbad
      obtain ⟨db', hanswer⟩ := run_handler ha _ _ hrun _ _
      refine (AdminList.lawful_inOrder hin hanswer).trans ?_
      refine (AdminList.answers_invalid (isInvalid_of_argument _ _ text)).trans ?_
      exact ⟨fun _ => hbad.elim (fun h => .inr (.inl h)) .inl, fun _ => hbad.imp_left Int.le_of_lt⟩
    · have hl : 0 ≤ limit := by omega
      have ho : 0 ≤ offset := by omega
      obtain ⟨n, hn, hrun⟩ := run_listDlq_page state (s := s) (c := c) hv hq hl ho
      obtain ⟨db', hanswer⟩ := run_handler ha _ _ hrun _ _
      refine (AdminList.lawful_inOrder hin hanswer).trans ?_
      refine (AdminList.answers_page rfl).trans ((fits_dlq ho hl hn).trans ?_)
      exact ⟨fun h => .inr (.inr h), fun h => h.elim (fun h => absurd h (by omega)) fun h =>
        h.elim (fun h => absurd h (by omega)) id⟩
  | configScopes =>
    have h := lists_scopes (s := s) (c := c) db state.configStore (some limit) offset
    rw [hconfig] at h
    exact AdminList.lawful_listed hm hm64 hin (fun _ => rfl) rfl h (List.map_id _).symm
  | configReleases =>
    obtain ⟨scope, hscope, hv⟩ := hin'
    have h := lists_releases (s := s) (c := c) db state.configStore hv (some limit) offset
    rw [hconfig] at h
    refine AdminList.lawful_listed hm hm64 hin (fun _ => rfl) rfl ?_ (List.map_id _).symm
    show ((do
      let scope ← Prog.check (configScopeFromQuery params)
      onConfig (state.configStore.listReleases scope (some limit) offset) :
      ServerProg (ConfigPage ConfigRelease))).run (ServerStmt.exec s c) db = _
    have hrows : AdminList.configReleases.rows state c db params
        = newestFirst (db.config.tables.releasesOf scope) := by
      show (match configScopeFromQuery params with
        | .ok scope => newestFirst (db.config.tables.releasesOf scope)
        | .error _ => []) = _
      rw [hscope]
    rw [hscope, hrows]
    exact h

end

end PgApp
