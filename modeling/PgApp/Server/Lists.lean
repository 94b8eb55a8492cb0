import PgApp.Paging.Walk
import PgApp.Mq.Alone
import PgApp.Server.Grpc

/-!
# The lists of the server, page by page

`ConfigStore::page` and `AdminStore::page` are one function (`pageOf`): below `i64::MAX` its casts
do nothing, and the page it describes is a slice of the ordered rows (`finish_slice`).

* `pageOfRows`    the page that a list makes of the rows of its query, for any limit and offset;
* `Lists`         a program that answers with such a page;
* `fetchPage`     what one request of a client finds in a fixed state of the server;
* `Served`        a list whose accepted requests are answered with slices of `full`;
* `PagesOnce`     every limit that is accepted pages through the rows once.

A page size from `i64::MAX` on leaves a list without pages for a client that names no limit
(`Lists.fetch_none`).
-/

namespace PgApp
open Interleave Paging

/-! ## integers that fit -/

theorem asI64_of_lt {n : Nat} (h : n < 2 ^ 63) : asI64 n = n := by
  unfold asI64 wrapI64
  omega

theorem asI64_neg {n : Nat} (h : 2 ^ 63 ≤ n) (h64 : n < 2 ^ 64) : asI64 n < 0 := by
  unfold asI64 wrapI64
  omega

theorem asUsize_of_lt {x : Int} (h0 : 0 ≤ x) (h : x < 2 ^ 63) : asUsize x = x.toNat := by
  unfold asUsize
  omega

theorem wrapI64_of_lt {x : Int} (h0 : 0 ≤ x) (h : x < 2 ^ 63) : wrapI64 x = x := by
  unfold wrapI64
  omega

/-! ## one page -/

/-- the two functions `page` -/
def pageOf (maxPageSize : Nat) (limit : Option Int) (offset : Int) : PgAppResult PageState :=
  AdminStore.page ⟨maxPageSize, fun _ => ""⟩ ⟨limit, offset⟩

theorem AdminStore.page_eq (store : AdminStore) (query : ListQuery) :
    store.page query = pageOf store.maxPageSize query.limit query.offset := rfl

theorem ConfigStore.page_eq (store : ConfigStore) (limit : Option Int) (offset : Int) :
    store.page limit offset = pageOf store.limits.maxPageSize limit offset := rfl

theorem pageOf_def (m : Nat) (limit : Option Int) (o : Int) : pageOf m limit o
    = if o < 0 then .error (.invalidArgument "offset must not be negative")
      else if limit.getD (asI64 m) ≤ 0 then .error (.invalidArgument "limit must be positive")
      else .ok ⟨asUsize (min (limit.getD (asI64 m)) (asI64 m)),
        wrapI64 (asI64 (asUsize (min (limit.getD (asI64 m)) (asI64 m))) + 1), o⟩ := by
  unfold pageOf AdminStore.page
  simp only

/-- the size of a page, if the limit is accepted -/
def pageSize (m : Nat) (limit : Option Int) : Option Nat :=
  if 0 < limit.getD m then some (min (limit.getD m) m).toNat else none

theorem pageSize_spec {m n : Nat} {limit : Option Int} (hm : 1 ≤ m)
    (h : pageSize m limit = some n) :
    0 < n ∧ n ≤ m ∧ ∀ l, limit = some l → 0 < l → (n : Int) ≤ l := by
  unfold pageSize at h
  split at h
  · rename_i hpos
    cases h
    refine ⟨by omega, by omega, fun l hl _ => ?_⟩
    subst hl
    simp only [Option.getD_some] at hpos ⊢
    omega
  · cases h

theorem pageOf_eq {m : Nat} (hm : 1 ≤ m) (hmax : m < 2 ^ 63 - 1) (limit : Option Int) {o : Int}
    (ho : 0 ≤ o) : ∀ n, pageSize m limit = some n → pageOf m limit o = .ok ⟨n, n + 1, o⟩ := by
  intro n hn
  obtain ⟨h0, hle, -⟩ := pageSize_spec hm hn
  unfold pageSize at hn
  split at hn
  · rename_i hpos
    unfold pageOf AdminStore.page
    simp only
    rw [if_neg (by omega), asI64_of_lt (by omega), if_neg (by omega)]
    cases hn
    rw [asUsize_of_lt (by omega) (by omega), asI64_of_lt (by omega),
      wrapI64_of_lt (by omega) (by omega)]
  · cases hn

theorem pageOf_refused {m : Nat} (hmax : m < 2 ^ 63) {limit : Option Int} {o : Int}
    (h : pageSize m limit = none) : ∃ e, pageOf m limit o = .error e := by
  unfold pageSize at h
  split at h
  · cases h
  · unfold pageOf AdminStore.page
    simp only
    split
    · exact ⟨_, rfl⟩
    · rw [asI64_of_lt hmax, if_pos (by omega)]
      exact ⟨_, rfl⟩

theorem limitOffset_ok {α : Type} (rows : List α) {limit : Int} (h : 0 ≤ limit) (o : Int) :
    limitOffset rows limit o = .ok ((rows.drop o.toNat).take limit.toNat) := if_neg (by omega)

/-- what is in a page, and where the next one begins -/
def ConfigPage.page {α : Type} (p : ConfigPage α) : Page α := (p.items, p.nextOffset)

/-- `finish` of a query that has fetched one row more than the page shows -/
theorem finish_slice {α β : Type} (shown : α → β) (full : List α) {n : Nat}
    (hn : n < 2 ^ 63) (o : Int)
    (ho : 0 ≤ o) :
    ((⟨n, n + 1, o⟩ : PageState).finish (((full.drop o.toNat).take (n + 1)).map shown)).page
      = slice (full.map shown) n o := by
  have hlen : (((full.drop o.toNat).take (n + 1)).map shown).length
      = min (n + 1) (full.length - o.toNat) := by
    rw [List.length_map, List.length_take, List.length_drop]
  unfold PageState.finish ConfigPage.page slice
  simp only [hlen, asI64_of_lt hn, List.length_map]
  by_cases hmore : o + n < full.length
  · have h1 : n < min (n + 1) (full.length - o.toNat) := by omega
    simp only [h1, hmore, if_true]
    rw [← List.map_take, List.take_take, ← List.map_drop, ← List.map_take,
      Nat.min_eq_left (by omega)]
  · have h1 : ¬ n < min (n + 1) (full.length - o.toNat) := by omega
    have hrest : (full.drop o.toNat).length ≤ n := by
      rw [List.length_drop]
      omega
    simp only [h1, hmore, if_false]
    rw [← List.map_drop, ← List.map_take, List.take_of_length_le hrest,
      List.take_of_length_le (Nat.le_succ_of_le hrest)]

/-! ## one request -/

section
variable (s : Nat) (c : ServerCtx) (db : ServerDb)

/-- the answer of a request that runs alone -/
def answer {ε α : Type} (p : Prog ServerStmt ServerStmt.Res ε α) : Option α :=
  (p.run (ServerStmt.exec s c) db).bind fun q => q.1.toOption

/-- a page of a store -/
def fetchPage {ε α : Type} (p : Prog ServerStmt ServerStmt.Res ε (ConfigPage α)) :
    Option (Page α) :=
  (answer s c db p).map ConfigPage.page

/-- a page of the dead letter queue -/
def fetchDlq {ε : Type} (p : Prog ServerStmt ServerStmt.Res ε DlqPage) : Option (Page DlqMessage) :=
  (answer s c db p).map fun page => (page.messages, page.nextOffset)

/-- a page of an RPC -/
def fetchRpc {ε α : Type} (p : Prog ServerStmt ServerStmt.Res ε (RpcPage α)) : Option (Page α) :=
  (answer s c db p).map fun page => (page.items, ofZero page.nextOffset)

/-- the error of a store as a `Status`, and the response made of its page -/
theorem answer_asStatus {α β : Type} (p : ServerProg α) (f : α → β) :
    answer s c db (asStatus p >>= fun a => pure (f a)) = (answer s c db p).map f := by
  unfold answer asStatus
  rw [Prog.run_bind, Prog.run_mapResult]
  cases p.run (ServerStmt.exec s c) db with
  | none => rfl
  | some q =>
    obtain ⟨r, d⟩ := q
    cases r <;> rfl

theorem answer_onMq {α : Type} (p : MqProg α) :
    answer s c db (onMq p) = (p.alone s c.mq db.mq).bind fun q => q.1.toOption := by
  unfold answer MqProg.alone
  rw [run_onMq]
  cases p.run (MqStmt.exec s c.mq) db.mq <;> rfl

end

/-! ## lists answered with slices -/

/-- a list whose accepted requests are answered with slices of `full` -/
def Served {L β : Type} (fetch : L → Int → Option (Page β)) (size : L → Option Nat)
    (full : List β) :
    Prop :=
  ∀ limit, (fetch limit 0).isSome = true →
    ∃ n, size limit = some n ∧ ∀ o, 0 ≤ o → fetch limit o = some (slice full n o)

/-- the sizes of the pages of a list -/
def Sized {L : Type} (asked : L → Option Int) (m : Nat) (size : L → Option Nat) : Prop :=
  ∀ limit n, size limit = some n → 0 < n ∧ n ≤ m ∧ ∀ l, asked limit = some l → 0 < l → (n : Int) ≤ l

/-- every limit that is accepted pages through the rows once, in the one order there is; no page has
more than `m` rows, nor more than were asked for -/
def PagesOnce {L α β : Type} (asked : L → Option Int) (m : Nat) (fetch : L → Int → Option (Page β))
    (r : α → α → Prop) (rows : List α) (shown : α → β) : Prop :=
  ∀ limit, (fetch limit 0).isSome = true →
    ∃ n ≤ m, (∀ l, asked limit = some l → 0 < l → (n : Int) ≤ l) ∧
      Paged (fetch limit) r rows shown n

section
variable {L L' α β : Type} {asked : L → Option Int} {m : Nat} {fetch : L → Int → Option (Page β)}
  {size : L → Option Nat} {full : List β}

theorem PagesOnce.of_served {r : α → α → Prop} {rows l : List α} {shown : α → β}
    (hsize : Sized asked m size) (hl : Arranged r rows l) (hs : Served fetch size (l.map shown)) :
    PagesOnce asked m fetch r rows shown := by
  intro limit haccepted
  obtain ⟨n, hn, hslice⟩ := hs limit haccepted
  obtain ⟨h0, hle, hasked⟩ := hsize limit n hn
  exact ⟨n, hle, hasked, .of_slice h0 hl hslice⟩

theorem Served.rpc (h : Served fetch size full) (hsize : Sized asked m size) (g : L' → L)
    {fetch' : L' → Int → Option (Page β)}
    (hf : ∀ limit o, fetch' limit o = (fetch (g limit) o).map fun p => (p.1, ofZero (p.2.getD 0))) :
    Served fetch' (fun limit => size (g limit)) full := by
  intro limit haccepted
  rw [hf, Option.isSome_map] at haccepted
  obtain ⟨n, hn, hslice⟩ := h (g limit) haccepted
  refine ⟨n, hn, fun o ho => ?_⟩
  have hzero := ofZero_slice full (hsize _ _ hn).1 ho
  rw [hf, hslice o ho]
  exact congrArg some (Prod.ext rfl hzero)

end

theorem sized_pageSize {m : Nat} (hm : 1 ≤ m) : Sized id m (pageSize m) := fun _ _ h =>
  pageSize_spec hm h

/-! ## lists of rows -/

/-- no limit, or a positive one -/
def PositiveLimit (limit : Option Int) : Prop := ∀ l, limit = some l → 0 < l

/-- the page that a list makes of the rows of its query -/
def pageOfRows {α β : Type} (m : Nat) (full : List α) (shown : α → β) (limit : Option Int)
    (o : Int) : PgAppResult (ConfigPage β) := do
  let page ← pageOf m limit o
  let rows ← (limitOffset full page.fetchLimit page.offset).mapError PgAppError.ofSqlx
  pure (page.finish (rows.map shown))

section
variable {α β : Type} {m : Nat} {full : List α} {shown : α → β}

theorem pageOfRows_slice (full : List α) (shown : α → β) (hm : 1 ≤ m) (hmax : m < 2 ^ 63 - 1)
    {limit : Option Int} {n : Nat} (hn : pageSize m limit = some n) {o : Int} (ho : 0 ≤ o) :
    ∃ p, pageOfRows m full shown limit o = .ok p ∧ p.page = slice (full.map shown) n o := by
  have hle := (pageSize_spec hm hn).2.1
  refine ⟨_, ?_, finish_slice shown full (by omega) o ho⟩
  unfold pageOfRows
  rw [pageOf_eq hm hmax limit ho n hn]
  show ((limitOffset full ((n : Int) + 1) o).mapError PgAppError.ofSqlx >>= fun rows =>
    pure ((⟨n, n + 1, o⟩ : PageState).finish (rows.map shown))) = _
  rw [limitOffset_ok full (by omega) o]
  rfl

theorem pageOfRows_refused (full : List α) (shown : α → β) (hmax : m < 2 ^ 63)
    {limit : Option Int} (h : pageSize m limit = none) (o : Int) : ∃ e,
        pageOfRows m full shown limit o = .error e := by
  obtain ⟨e, he⟩ := pageOf_refused (o := o) hmax h
  unfold pageOfRows
  rw [he]
  exact ⟨e, rfl⟩

theorem finish_items (page : PageState) (items : List β) :
    (page.finish items).items = items.take page.limit := by
  show (if page.limit < items.length then items.take page.limit else items) = _
  split
  · rfl
  · rw [List.take_of_length_le (by omega)]

theorem pageOfRows_ok {limit : Option Int} {o : Int} {p : ConfigPage β}
    (hp : pageOfRows m full shown limit o = .ok p) :
    ∃ page, pageOf m limit o = .ok page ∧ 0 ≤ page.fetchLimit ∧
      p = page.finish (((full.drop page.offset.toNat).take page.fetchLimit.toNat).map shown) := by
  unfold pageOfRows at hp
  cases hpage : pageOf m limit o with
  | error e =>
    rw [hpage] at hp
    cases hp
  | ok page =>
    rw [hpage] at hp
    change ((limitOffset full page.fetchLimit page.offset).mapError PgAppError.ofSqlx
        >>= fun rows =>
      pure (page.finish (rows.map shown))) = _ at hp
    unfold limitOffset at hp
    split at hp
    · cases hp
    · exact ⟨page, rfl, by omega, (Except.ok.inj hp).symm⟩

theorem items_of_page {limit : Option Int} {o : Int} {p : ConfigPage β}
    (hp : pageOfRows m full shown limit o = .ok p) : ∀ x ∈ p.items, x ∈ full.map shown := by
  obtain ⟨page, -, -, rfl⟩ := pageOfRows_ok hp
  intro x hx
  rw [finish_items] at hx
  obtain ⟨a, ha, rfl⟩ := List.mem_map.mp (List.mem_of_mem_take hx)
  exact List.mem_map_of_mem (List.mem_of_mem_drop (List.mem_of_mem_take ha))

theorem pageOfRows_negative {limit : Option Int} {o : Int} {page : PageState}
    (hp : pageOf m limit o = .ok page) (hneg : page.fetchLimit < 0) :
    pageOfRows m full shown limit o = .error (.ofSqlx .negativeLimit) := by
  unfold pageOfRows
  rw [hp]
  show ((limitOffset full page.fetchLimit page.offset).mapError PgAppError.ofSqlx >>= fun rows =>
    pure (page.finish (rows.map shown))) = _
  unfold limitOffset
  rw [if_pos hneg]
  rfl

/-- `limit as i64 + 1` of the largest limit there is -/
theorem fetch_wraps (hmax : 2 ^ 63 - 1 ≤ m) (hlt : m < 2 ^ 63) :
    wrapI64 (asI64 (asUsize (asI64 m)) + 1) < 0 := by
  rw [asI64_of_lt hlt, asUsize_of_lt (by omega) (by omega), Int.toNat_natCast, asI64_of_lt hlt]
  unfold wrapI64
  omega

/-- a page size from `i64::MAX` on is no page size -/
theorem pageOfRows_overflow (full : List α) (shown : α → β) (hmax : 2 ^ 63 - 1 ≤ m)
    (hm : m < 2 ^ 64) (o : Int) :
    ∃ e, pageOfRows m full shown none o = .error e := by
  cases hp : pageOf m none o with
  | error e =>
    unfold pageOfRows
    rw [hp]
    exact ⟨e, rfl⟩
  | ok page =>
    refine ⟨_, pageOfRows_negative hp ?_⟩
    rw [pageOf_def, Option.getD_none, Int.min_self] at hp
    split at hp
    · cases hp
    · split at hp
      · cases hp
      · rename_i hpos
        have hlt : m < 2 ^ 63 := by
          by_contra hge
          have := asI64_neg (by omega) hm
          omega
        rw [← Except.ok.inj hp]
        exact fetch_wraps hmax hlt

/-- the largest page size: `m as i64` is -1, the limit is `usize::MAX` and nothing is fetched -/
theorem pageOf_last {l o : Int} (hl : 0 < l) (ho : 0 ≤ o) :
    pageOf 18446744073709551615 (some l) o = .ok ⟨18446744073709551615, 0, o⟩ := by
  have hlast : asI64 18446744073709551615 = -1 := by decide
  have hmin : min l (-1) = -1 := by omega
  have hlimit : asUsize (-1) = 18446744073709551615 := by decide
  have hfetch : wrapI64 (-1 + 1) = 0 := by decide
  rw [pageOf_def, if_neg (by omega), Option.getD_some, if_neg (by omega), hlast, hmin,
    hlimit, hlast,
    hfetch]

theorem pageOfRows_last {l o : Int} (hl : 0 < l) (ho : 0 ≤ o) :
    pageOfRows 18446744073709551615 full shown (some l) o
      = .ok ⟨[], 18446744073709551615, o, none⟩ := by
  unfold pageOfRows
  rw [pageOf_last hl ho]
  show ((limitOffset full 0 o).mapError PgAppError.ofSqlx >>= fun rows =>
    pure ((⟨18446744073709551615, 0, o⟩ : PageState).finish (rows.map shown))) = _
  rw [limitOffset_ok full (Int.le_refl 0)]
  rfl

/-- a program that answers with a page of the rows and changes nothing -/
def Lists {α β : Type} (s : Nat) (c : ServerCtx) (db : ServerDb) (m : Nat) (full : List α)
    (shown : α → β) (prog : Option Int → Int → ServerProg (ConfigPage β)) : Prop :=
  ∀ limit o, (prog limit o).run (ServerStmt.exec s c) db
    = some (pageOfRows m full shown limit o, db)

variable {s : Nat} {c : ServerCtx} {db : ServerDb}
variable {prog : Option Int → Int → ServerProg (ConfigPage β)}

/-- the page is checked, and then a query is asked for its rows -/
theorem Lists.of_query {k : PageState → ServerProg (ConfigPage β)}
    (hprog : ∀ limit o, prog limit o = Prog.check (pageOf m limit o) >>= k)
    (hk : ∀ page, (k page).run (ServerStmt.exec s c) db
      = (orFail (limitOffset full page.fetchLimit page.offset) >>= fun rows =>
          pure (page.finish (rows.map shown)) : ServerProg (ConfigPage β)).run
            (ServerStmt.exec s c) db) :
    Lists s c db m full shown prog := by
  intro limit o
  rw [hprog]
  unfold pageOfRows
  cases pageOf m limit o with
  | error e => rfl
  | ok page =>
    refine (hk page).trans ?_
    show _ = some ((limitOffset full page.fetchLimit page.offset).mapError PgAppError.ofSqlx >>= _,
      db)
    cases limitOffset full page.fetchLimit page.offset <;> rfl

/-- a program that checks the page and then fails, whatever is stored -/
def ListFails (s : Nat) (c : ServerCtx) (db : ServerDb) (m : Nat) (e : PgAppError)
    (prog : Option Int → Int → ServerProg (ConfigPage β)) : Prop :=
  ∀ limit o, (prog limit o).run (ServerStmt.exec s c) db
    = some (pageOf m limit o >>= fun _ => .error e, db)

theorem ListFails.of_query {e : PgAppError} {k : PageState → ServerProg (ConfigPage β)}
    (hprog : ∀ limit o, prog limit o = Prog.check (pageOf m limit o) >>= k)
    (hk : ∀ page, (k page).run (ServerStmt.exec s c) db = some (.error e, db)) :
    ListFails s c db m e prog := by
  intro limit o
  rw [hprog]
  cases pageOf m limit o with
  | error e => rfl
  | ok page => exact hk page

theorem ListFails.fetch {e : PgAppError} (hr : ListFails s c db m e prog)
    (limit : Option Int) (o : Int) :
    fetchPage s c db (prog limit o) = none := by
  unfold fetchPage answer
  rw [hr]
  cases pageOf m limit o <;> rfl

theorem ListFails.error {e : PgAppError} (hr : ListFails s c db m e prog)
    (limit : Option Int) (o : Int) :
    ∃ e', (prog limit o).run (ServerStmt.exec s c) db = some (.error e', db) := by
  rw [hr]
  cases pageOf m limit o with
  | error e' => exact ⟨e', rfl⟩
  | ok page => exact ⟨e, rfl⟩

variable (hl : Lists s c db m full shown prog)
include hl

theorem Lists.fetch (limit : Option Int) (o : Int) : fetchPage s c db (prog limit o)
    = (pageOfRows m full shown limit o).toOption.map ConfigPage.page := by
  unfold fetchPage answer
  rw [hl]
  rfl

theorem Lists.served (hm : 1 ≤ m) (hmax : m < 2 ^ 63 - 1) :
    Served (fun limit o => fetchPage s c db (prog limit o)) (pageSize m) (full.map shown) := by
  intro limit haccepted
  cases hsize : pageSize m limit with
  | none =>
    obtain ⟨e, he⟩ := pageOfRows_refused full shown (by omega) hsize 0
    simp only [hl.fetch, he] at haccepted
    cases haccepted
  | some n =>
    refine ⟨n, rfl, fun o ho => ?_⟩
    obtain ⟨p, hp, hslice⟩ := pageOfRows_slice full shown hm hmax hsize ho
    simp only [hl.fetch, hp, ← hslice]
    rfl

/-- a client that names no limit gets a page exactly if the page size is below `i64::MAX` -/
theorem Lists.fetch_none (hm : 1 ≤ m) (hm64 : m < 2 ^ 64) :
    (fetchPage s c db (prog none 0)).isSome = true ↔ m < 2 ^ 63 - 1 := by
  constructor
  · intro h
    by_contra hmax
    obtain ⟨e, he⟩ := pageOfRows_overflow full shown (by omega) hm64 0
    rw [hl.fetch, he] at h
    cases h
  · intro hmax
    have hsize : pageSize m none = some m := by
      unfold pageSize
      rw [if_pos (by simp only [Option.getD_none]; omega)]
      simp only [Option.getD_none, min_self, Int.toNat_natCast]
    obtain ⟨p, hp, -⟩ := pageOfRows_slice full shown hm hmax hsize
      (Int.le_refl 0)
    rw [hl.fetch, hp]
    rfl

/-- every limit that is not refused leads through all rows, if the page size is below `i64::MAX` -/
theorem Lists.walk (hm : 1 ≤ m) (hmax : m < 2 ^ 63 - 1) {limit : Option Int}
    (hlimit : PositiveLimit limit) :
    ∃ pages, Walk (fun o => fetchPage s c db (prog limit o)) 0 pages ∧
      pages.flatten = full.map shown := by
  have hsize : pageSize m limit = some (min (limit.getD m) m).toNat := by
    unfold pageSize
    rw [if_pos]
    cases limit with
    | none =>
      show (0 : Int) < m
      omega
    | some l => exact hlimit l rfl
  obtain ⟨p, hp, -⟩ := pageOfRows_slice full shown hm hmax hsize (Int.le_refl 0)
  have haccepted : (fetchPage s c db (prog limit 0)).isSome = true := by
    rw [hl.fetch, hp]
    rfl
  obtain ⟨n, hn, hslice⟩ := hl.served hm hmax limit haccepted
  obtain ⟨pages, hw, hflat, -⟩ := walk_slice (pageSize_spec hm hn).1 hslice (Int.le_refl 0)
  exact ⟨pages, hw, hflat⟩

theorem Lists.lt_of_walk (hm : 1 ≤ m) (hm64 : m < 2 ^ 64) {pages : List (List β)}
    (hw : Walk (fun o => fetchPage s c db (prog none o)) 0 pages) : m < 2 ^ 63 - 1 := by
  refine (hl.fetch_none hm hm64).mp ?_
  obtain ⟨p, hp⟩ := hw.fetched
  rw [hp]
  rfl

end

/-! ## the lists of the admin API -/

section
variable {s : Nat} {c : ServerCtx} (db : ServerDb) (store : AdminStore)

theorem lists_logs {filter : LogFilter} (h : filter.texts.all storable = true) :
    Lists s c db store.maxPageSize
      ((db.logs.filter fun row => row.matches_ c filter).insertionSort loggedAfter) id
      fun limit o => store.listLogs filter ⟨limit, o⟩ := by
  refine .of_query (fun _ _ => rfl) fun page => ?_
  show (orFail (withTexts filter.texts (db.selectLogs c filter page.fetchLimit page.offset))
    >>= fun rows => pure (page.finish rows) : ServerProg (ConfigPage LogRow)).run _ db = _
  rw [withTexts_storable h]
  simp only [List.map_id]
  rfl

theorem fails_logs {filter : LogFilter} (h : filter.texts.all storable = false) :
    ListFails s c db store.maxPageSize (.ofSqlx .invalidText)
      fun limit o => store.listLogs filter ⟨limit, o⟩ := by
  refine .of_query (fun _ _ => rfl) fun page => ?_
  show (orFail (withTexts filter.texts (db.selectLogs c filter page.fetchLimit page.offset))
    >>= fun rows => pure (page.finish rows) : ServerProg (ConfigPage LogRow)).run _ db = _
  rw [withTexts_invalid h]
  rfl

theorem lists_namespaces :
    Lists s c db store.maxPageSize (db.cache.namespaceSummaries c.now) id
      fun limit o => store.listCacheNamespaces ⟨limit, o⟩ := by
  refine .of_query (fun _ _ => rfl) fun page => ?_
  simp only [List.map_id]
  rfl

theorem lists_entries {ns : Option String} (h : ns.toList.all storable = true) :
    Lists s c db store.maxPageSize (db.cache.listedEntries ns c.now) entryPreview
      fun limit o => store.listCacheEntries ns ⟨limit, o⟩ := by
  refine .of_query (fun _ _ => rfl) fun page => ?_
  show (orFail (withTexts ns.toList
      (limitOffset (db.cache.listedEntries ns c.now) page.fetchLimit page.offset))
    >>= fun rows => pure (page.finish (rows.map entryPreview)) :
      ServerProg (ConfigPage CacheEntryPreview)).run _ db = _
  rw [withTexts_storable h]

theorem fails_entries {ns : Option String} (h : ns.toList.all storable = false) :
    ListFails s c db store.maxPageSize (.ofSqlx .invalidText)
      fun limit o => store.listCacheEntries ns ⟨limit, o⟩ := by
  refine .of_query (fun _ _ => rfl) fun page => ?_
  show (orFail (withTexts ns.toList
      (limitOffset (db.cache.listedEntries ns c.now) page.fetchLimit page.offset))
    >>= fun rows => pure (page.finish (rows.map entryPreview)) :
      ServerProg (ConfigPage CacheEntryPreview)).run _ db = _
  rw [withTexts_invalid h]
  rfl

theorem lists_queues :
    Lists s c db store.maxPageSize (db.mq.queueSummaries c.now) id
      fun limit o => store.listMqQueues ⟨limit, o⟩ := by
  refine .of_query (fun _ _ => rfl) fun page => ?_
  simp only [List.map_id]
  rfl

theorem lists_messages {queueName : String} (hv : validateQueueName queueName = .ok ()) :
    Lists s c db store.maxPageSize (db.mq.listedMessages queueName) (store.messagePreview queueName)
      fun limit o => store.listMqMessages queueName ⟨limit, o⟩ := by
  refine .of_query (k := fun page => adminQuery
    (.selectMessages queueName page.fetchLimit page.offset)
    >>= fun r => orFail r >>= fun rows =>
      pure (page.finish (rows.map (store.messagePreview queueName))))
    (fun limit o => ?_) fun _ => rfl
  unfold AdminStore.listMqMessages
  rw [hv]
  rfl

theorem served_messages (hm : 1 ≤ store.maxPageSize) (hmax : store.maxPageSize < 2 ^ 63 - 1)
    (queueName : String) :
    Served (fun limit o => fetchPage s c db (store.listMqMessages queueName ⟨limit, o⟩))
      (pageSize store.maxPageSize)
      ((db.mq.listedMessages queueName).map (store.messagePreview queueName)) := by
  cases hv : validateQueueName queueName with
  | error e =>
    intro limit haccepted
    simp only [AdminStore.listMqMessages, hv] at haccepted
    cases haccepted
  | ok u => exact (lists_messages db store hv).served hm hmax

end

/-! ## the lists of the Config Center -/

section
variable {s : Nat} {c : ServerCtx} (db : ServerDb) (store : ConfigStore)

theorem onConfig_check {α β : Type} (r : PgAppResult α) (k : α → ConfigProg β) :
    onConfig (Prog.check r >>= k) = Prog.check r >>= fun a => onConfig (k a) := by
  cases r <;> rfl

theorem onConfig_orFail {α β : Type} (r : Except SqlError α) (f : α → β) :
    onConfig (orFail r >>= fun a => pure (f a)) = orFail r >>= fun a => pure (f a) := by
  cases r <;> rfl

theorem lists_scopes :
    Lists s c db store.limits.maxPageSize db.config.tables.listedScopes id
      fun limit o => onConfig (store.listScopes limit o) := by
  refine .of_query (fun _ _ => onConfig_check _ _) fun page => ?_
  simp only [List.map_id]
  show (onConfig (orFail (limitOffset db.config.tables.listedScopes page.fetchLimit page.offset)
    >>= fun rows => pure (page.finish rows))).run (ServerStmt.exec s c) db = _
  rw [onConfig_orFail]

theorem lists_releases {scope : ConfigScope} (hv : validateScope scope = .ok ()) :
    Lists s c db store.limits.maxPageSize (newestFirst (db.config.tables.releasesOf scope)) id
      fun limit o => onConfig (store.listReleases scope limit o) := by
  refine .of_query (k := fun page => onConfig (do
    let rows ← orFail (← ConfigProg.query (.listReleases scope page.fetchLimit page.offset))
    pure (page.finish rows))) (fun limit o => ?_) fun page => ?_
  · unfold ConfigStore.listReleases
    rw [hv]
    exact onConfig_check (store.page limit o) _
  · simp only [List.map_id]
    show (onConfig (orFail (limitOffset (newestFirst (db.config.tables.releasesOf scope))
      page.fetchLimit page.offset) >>= fun rows => pure (page.finish rows))).run
        (ServerStmt.exec s c) db = _
    rw [onConfig_orFail]

theorem served_scopes (hm : 1 ≤ store.limits.maxPageSize)
    (hmax : store.limits.maxPageSize < 2 ^ 63 - 1) :
    Served (fun limit o => fetchPage s c db (onConfig (store.listScopes limit o)))
      (pageSize store.limits.maxPageSize) db.config.tables.listedScopes := by
  have h := (lists_scopes (s := s) (c := c) db store).served hm hmax
  rw [List.map_id] at h
  exact h

theorem served_releases (hm : 1 ≤ store.limits.maxPageSize)
    (hmax : store.limits.maxPageSize < 2 ^ 63 - 1) (scope : ConfigScope) :
    Served (fun limit o => fetchPage s c db (onConfig (store.listReleases scope limit o)))
      (pageSize store.limits.maxPageSize) (newestFirst (db.config.tables.releasesOf scope)) := by
  cases hv : validateScope scope with
  | error e =>
    intro limit haccepted
    simp only [ConfigStore.listReleases, hv] at haccepted
    cases haccepted
  | ok u =>
    have h := (lists_releases (s := s) (c := c) db store hv).served hm hmax
    rw [List.map_id] at h
    exact h

end

/-! ## the dead letter queue -/

/-- the size of a page, if the limit is accepted -/
def dlqPageSize (m : Int) (limit : Int) : Option Nat :=
  if limit < 0 then none else if limit = 0 then some m.toNat else some (min limit m).toNat

theorem sized_dlqPageSize {m : Int} (hm : 1 ≤ m) : Sized some m.toNat (dlqPageSize m) := by
  intro limit n h
  unfold dlqPageSize at h
  split at h
  · cases h
  · split at h
    · cases h
      refine ⟨by omega, by omega, fun l hl hpos => ?_⟩
      cases hl
      omega
    · cases h
      refine ⟨by omega, by omega, fun l hl hpos => ?_⟩
      cases hl
      omega

theorem pageLimit_eq {store : MqStore} (hm : 1 ≤ store.limits.maxBatchSize) {limit : Int} {n : Nat}
    (h : dlqPageSize store.limits.maxBatchSize limit = some n) : store.pageLimit limit = .ok n := by
  unfold dlqPageSize at h
  unfold MqStore.pageLimit
  split at h
  · cases h
  · rename_i hneg
    rw [if_neg hneg]
    split at h
    · rename_i hzero
      cases h
      rw [if_pos hzero, Int.toNat_of_nonneg (by omega)]
    · rename_i hzero
      cases h
      rw [if_neg hzero, Int.toNat_of_nonneg (by omega)]

/-- the rows of the dead letter queue of a queue -/
def MqDb.dlqOf (db : MqDb) (queueName : String) : List DlqRow :=
  match db.selectQueueId queueName with
  | none => []
  | some q => db.dlq.filter fun d => d.queueId == q

/-- the page of a list of rows, of which one more was fetched than the page shows -/
theorem dlqPage_slice (rows : List DlqRow) {n : Nat} (hn : n < 2 ^ 63) {o : Int} (ho : 0 ≤ o) :
    ((((rows.drop o.toNat).take (n + 1)).map rowToDlqMessage).take (asUsize n),
      if (n : Int) < (((rows.drop o.toNat).take (n + 1)).map rowToDlqMessage).length
        then some (o + n) else none)
      = slice (rows.map rowToDlqMessage) n o := by
  have h := finish_slice rowToDlqMessage rows hn o ho
  unfold PageState.finish ConfigPage.page at h
  simp only at h
  rw [← h, asUsize_of_lt (by omega) (by omega), asI64_of_lt hn]
  simp only [Int.toNat_natCast, Nat.cast_lt]
  by_cases hmore : n < (((rows.drop o.toNat).take (n + 1)).map rowToDlqMessage).length
  · rw [if_pos hmore, if_pos hmore]
  · rw [if_neg hmore, if_neg hmore, List.take_of_length_le (by omega)]

section
variable {s : Nat} {queueName : String} {q : Int} (hv : validateQueueName queueName = .ok ())
include hv

/-- the list of a queue that is there, after its two checks -/
theorem alone_listDlq {c : MqCtx} {db : MqDb} (hq : db.selectQueueId queueName = some q)
    {store : MqStore} {limit o : Int} {n : Nat} (hlimit : store.pageLimit limit = .ok (n : Int))
    (hn : n < 2 ^ 63) (ho : 0 ≤ o) :
    (store.listDlqMessages queueName limit o).alone s c db
      = some (.ok ⟨(slice (((db.dlqOf queueName).insertionSort dlqBefore).map
        rowToDlqMessage) n o).1,
          (slice (((db.dlqOf queueName).insertionSort dlqBefore).map rowToDlqMessage) n o).2⟩,
              db) := by
  have hrows : db.dlqOf queueName = db.dlq.filter fun d => d.queueId == q := by
    unfold MqDb.dlqOf
    rw [hq]
  have hpage := dlqPage_slice ((db.dlqOf queueName).insertionSort dlqBefore) hn ho
  have hselect : db.selectDlqPage q ((n : Int) + 1) o = .ok ((((((db.dlqOf queueName).insertionSort
      dlqBefore).drop o.toNat).take (n + 1)).map rowToDlqMessage)) := by
    unfold MqDb.selectDlqPage
    rw [if_neg (by omega), hrows]
    rfl
  unfold MqStore.listDlqMessages
  rw [MqProg.alone_queueId_bind hv hq, if_neg (by omega), hlimit]
  have hx : MqStmt.exec s c (.selectDlqPage q ((n : Int) + 1) o) db
      = some (.ok _, db) := congrArg (fun r => some (r, db)) hselect
  rw [MqProg.alone_check rfl, MqProg.alone_query hx, ← hpage]
  rfl

end

theorem served_dlq {s : Nat} {c : ServerCtx} {db : ServerDb} {store : MqStore}
    (hm : 1 ≤ store.limits.maxBatchSize) (hmax : store.limits.maxBatchSize < 2 ^ 63 - 1)
    (queueName : String) :
    Served (fun limit o => fetchDlq s c db (onMq (store.listDlqMessages queueName limit o)))
      (dlqPageSize store.limits.maxBatchSize)
      (((db.mq.dlqOf queueName).insertionSort dlqBefore).map rowToDlqMessage) := by
  intro limit haccepted
  simp only [fetchDlq, Option.isSome_map, answer_onMq] at haccepted
  cases hv : validateQueueName queueName with
  | error e =>
    have hrun : (store.listDlqMessages queueName limit 0).alone s c.mq db.mq = _ :=
      MqProg.alone_queueId_invalid hv _
    rw [hrun] at haccepted
    cases haccepted
  | ok u =>
    cases hq : db.mq.selectQueueId queueName with
    | none =>
      have hrun : (store.listDlqMessages queueName limit 0).alone s c.mq db.mq = _ :=
        MqProg.alone_queueId_unknown hv hq _
      rw [hrun] at haccepted
      cases haccepted
    | some q =>
      cases hsize : dlqPageSize store.limits.maxBatchSize limit with
      | none =>
        have hneg : limit < 0 := by
          unfold dlqPageSize at hsize
          split at hsize
          · assumption
          · split at hsize <;> cases hsize
        have hlimit : store.pageLimit limit
            = .error (.invalidArgument "limit must not be negative") := if_pos hneg
        unfold MqStore.listDlqMessages at haccepted
        rw [MqProg.alone_queueId_bind hv hq, if_neg (by omega), hlimit] at haccepted
        cases haccepted
      | some n =>
        refine ⟨n, rfl, fun o ho => ?_⟩
        have hle := (sized_dlqPageSize hm _ _ hsize).2.1
        simp only [fetchDlq, answer_onMq]
        rw [alone_listDlq hv hq (pageLimit_eq hm hsize) (by omega) ho]
        rfl

end PgApp
