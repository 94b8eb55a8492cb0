import Mathlib.Data.List.Infix
import PgApp.Server.AdminFrame
import PgApp.Server.Lists

/-!
# The text filters of the logs

`list_logs` splices the filter string in a pattern.  Where the string has no character with a
meaning of its own, the pattern matches the texts that contain the string (`like_contains`); where
it has one, `unescape` of the string is a text that the pattern matches and that does not contain
the string.

* `isWild`        the three characters with a meaning;
* `FoldsCase`     what is assumed of `lower`: it goes character by character and leaves these alone;
* `wanted`        the events that a filter asks for;
* `FiltersLogs`   the pages of `list_logs` have these events.

Main result: `log_filters`.
-/

namespace PgApp
open Interleave Paging

/-! ## patterns -/

/-- the characters with a meaning in a pattern -/
def isWild (c : Char) : Bool := c == '%' || c == '_' || c == '\\'

theorem like_percent {pattern text : List Char} :
    like ('%' :: pattern) text = true ↔ ∃ t, t <:+ text ∧ like pattern t = true := by
  show text.tails.any (like pattern) = true ↔ _
  rw [List.any_eq_true]
  refine exists_congr fun t => ?_
  rw [List.mem_tails]

theorem like_cons {c : Char} (hc : isWild c = false) {pattern text : List Char} :
    like (c :: pattern) text = true ↔ ∃ t, text = c :: t ∧ like pattern t = true := by
  unfold isWild at hc
  simp only [Bool.or_eq_false_iff, beq_eq_false_iff_ne] at hc
  obtain ⟨⟨hpercent, hunder⟩, hback⟩ := hc
  have hescape : ∀ d rest, c = '\\' → pattern = d :: rest → False := fun _ _ h _ => hback h
  cases text with
  | nil =>
    have hstep : like (c :: pattern) [] = false := by
      rw [like]
      · exact hpercent
      · exact hunder
      · exact hescape
    rw [hstep]
    simp
  | cons x text =>
    have hstep : like (c :: pattern) (x :: text) = (c == x && like pattern text) := by
      rw [like]
      · exact hpercent
      · exact hunder
      · exact hescape
    rw [hstep]
    simp only [Bool.and_eq_true, beq_iff_eq, List.cons.injEq]
    constructor
    · intro hex
      obtain ⟨rfl, h⟩ := hex
      exact ⟨text, ⟨rfl, rfl⟩, h⟩
    · intro hex
      obtain ⟨t, ⟨rfl, rfl⟩, h⟩ := hex
      exact ⟨rfl, h⟩

theorem like_append {u : List Char} (hu : ∀ c ∈ u, isWild c = false) {pattern text : List Char} :
    like (u ++ pattern) text = true ↔ ∃ t, text = u ++ t ∧ like pattern t = true := by
  induction u generalizing text with
  | nil => simp
  | cons c u ih =>
    have ih : ∀ text, like (u ++ pattern) text = true ↔ ∃ t, text = u ++ t ∧
        like pattern t = true :=
      fun _ => ih fun x hx => hu x (List.mem_cons_of_mem _ hx)
    rw [List.cons_append, like_cons (hu c List.mem_cons_self)]
    constructor
    · intro hex
      obtain ⟨t, rfl, h⟩ := hex
      obtain ⟨t', rfl, h'⟩ := (ih t).mp h
      exact ⟨t', rfl, h'⟩
    · intro hex
      obtain ⟨t, rfl, h⟩ := hex
      exact ⟨u ++ t, rfl, (ih _).mpr ⟨t, rfl, h⟩⟩

theorem like_anything (text : List Char) : like ['%'] text = true :=
  like_percent.mpr ⟨[], List.nil_suffix, rfl⟩

/-- **A plain string between `%` and `%` matches the texts that contain it.** -/
theorem like_contains {u : List Char} (hu : ∀ c ∈ u, isWild c = false) (text : List Char) :
    like ('%' :: (u ++ ['%'])) text = true ↔ u <:+: text := by
  rw [like_percent]
  constructor
  · intro hex
    obtain ⟨t, ⟨pre, rfl⟩, h⟩ := hex
    obtain ⟨post, rfl, -⟩ := (like_append hu).mp h
    exact ⟨pre, post, by rw [List.append_assoc]⟩
  · intro hex
    obtain ⟨pre, post, rfl⟩ := hex
    refine ⟨u ++ post, ⟨pre, by rw [List.append_assoc]⟩, ?_⟩
    exact (like_append hu).mpr ⟨post, rfl, like_anything post⟩

/-! ## a text that matches -/

/-- what a pattern says literally: `fill` for a wildcard, the character after a backslash; a
backslash at the end takes the `%` that follows -/
def unescape (fill : Char) : List Char → List Char
  | [] => []
  | ['\\'] => ['%']
  | '\\' :: c :: u => c :: unescape fill u
  | c :: u => (if isWild c then fill else c) :: unescape fill u

theorem unescape_cons {fill c : Char} (hc : c ≠ '\\') (u : List Char) :
    unescape fill (c :: u) = (if isWild c then fill else c) :: unescape fill u := by
  rw [unescape.eq_def]
  split
  · rename_i h
    cases h
  · rename_i h
    exact absurd (List.cons.inj h).1 hc
  · rename_i h
    exact absurd (List.cons.inj h).1 hc
  · rename_i h
    obtain ⟨rfl, rfl⟩ := List.cons.inj h
    rfl

section
variable {fill : Char}

theorem escaped_induction {P : List Char → Prop} (nil : P []) (last : P ['\\'])
    (escaped : ∀ c u, P u → P ('\\' :: c :: u)) (cons : ∀ c u, c ≠ '\\' → P u → P (c :: u))
    (u : List Char) : P u := by
  induction u using unescape.induct with
  | case1 => exact nil
  | case2 => exact last
  | case3 c u ih => exact escaped c u ih
  | case4 c u h1 h2 ih =>
    refine cons c u (fun hc => ?_) ih
    cases u with
    | nil => exact h1 hc rfl
    | cons x u => exact h2 x u hc rfl

theorem like_unescape (u : List Char) : like ('%' :: (u ++ ['%'])) (unescape fill u) = true := by
  refine like_percent.mpr ⟨_, List.suffix_refl _, ?_⟩
  induction u using escaped_induction with
  | nil => exact like_anything []
  | last =>
    show like ['\\', '%'] ['%'] = true
    rfl
  | escaped c u ih =>
    show (c == c && like (u ++ ['%']) (unescape fill u)) = true
    rw [ih, beq_self_eq_true]
    rfl
  | cons c u hc ih =>
    rw [unescape_cons hc, List.cons_append]
    by_cases hp : c = '%'
    · subst hp
      exact like_percent.mpr ⟨_, List.suffix_cons _ _, ih⟩
    · by_cases hu : c = '_'
      · subst hu
        exact ih
      · have hw : isWild c = false := by
          unfold isWild
          simp [hp, hu, hc]
        rw [hw]
        exact (like_cons hw).mpr ⟨_, rfl, ih⟩

theorem length_unescape_le (u : List Char) : (unescape fill u).length ≤ u.length := by
  induction u using escaped_induction with
  | nil => exact Nat.le_refl _
  | last => exact Nat.le_refl _
  | escaped c u ih =>
    show (unescape fill u).length + 1 ≤ u.length + 1 + 1
    omega
  | cons c u hc ih =>
    rw [unescape_cons hc, List.length_cons, List.length_cons]
    omega

theorem plain_of_unescape (hfill : isWild fill = false) (u : List Char)
    (h : unescape fill u = u) : ∀ c ∈ u, isWild c = false := by
  induction u using escaped_induction with
  | nil => exact fun c hc => absurd hc List.not_mem_nil
  | last =>
    change ['%'] = ['\\'] at h
    exact absurd h (by decide)
  | escaped c u ih =>
    have hlen : (unescape fill u).length ≤ u.length := length_unescape_le u
    have hcons : c :: unescape fill u = '\\' :: c :: u := h
    have htail := congrArg List.length (List.cons.inj hcons).2
    rw [List.length_cons] at htail
    omega
  | cons c u hc ih =>
    rw [unescape_cons hc] at h
    obtain ⟨hhead, htail⟩ := List.cons.inj h
    have hw : isWild c = false := by
      cases hw : isWild c with
      | false => rfl
      | true =>
        rw [hw, if_pos rfl] at hhead
        rw [← hhead, hfill] at hw
        cases hw
    intro x hx
    rcases List.mem_cons.mp hx with rfl | hx
    · exact hw
    · exact ih htail x hx

/-- **A string that is not plain is not contained in what it says.** -/
theorem plain_of_mem (hfill : isWild fill = false) {u : List Char}
    (h : u <:+: unescape fill u) : ∀ c ∈ u, isWild c = false :=
  plain_of_unescape hfill u (h.eq_of_length_le (length_unescape_le u)).symm

end

/-! ## lower case -/

/-- `lower` goes character by character, and of the characters with a meaning each is the lower case
of itself only -/
structure FoldsCase (lower : String → String) (fold : Char → Char) : Prop where
  chars : ∀ s, (lower s).toList = s.toList.map fold
  wild : ∀ x, isWild x = true → ∀ c, fold c = x ↔ c = x

section
variable {lower : String → String} {fold : Char → Char} (hf : FoldsCase lower fold)
include hf

theorem isWild_fold (c : Char) : isWild (fold c) = isWild c := by
  have h : ∀ x, isWild x = true → (fold c == x) = (c == x) := fun x hx => by
    rw [Bool.eq_iff_iff, beq_iff_eq, beq_iff_eq]
    exact hf.wild x hx c
  unfold isWild
  rw [h '%' rfl, h '_' rfl, h '\\' rfl]

theorem plain_map {u : List Char} :
    (∀ c ∈ u.map fold, isWild c = false) ↔ ∀ c ∈ u, isWild c = false := by
  rw [List.forall_mem_map]
  refine forall₂_congr fun c _ => ?_
  rw [isWild_fold hf]

theorem unescape_map (fill : Char) (u : List Char) :
    (unescape fill u).map fold = unescape (fold fill) (u.map fold) := by
  have hpercent : fold '%' = '%' := (hf.wild '%' rfl '%').mpr rfl
  have hback : fold '\\' = '\\' := (hf.wild '\\' rfl '\\').mpr rfl
  induction u using escaped_induction with
  | nil => rfl
  | last =>
    show [fold '%'] = unescape _ [fold '\\']
    rw [hpercent, hback]
    rfl
  | escaped c u ih =>
    show fold c :: (unescape fill u).map fold = unescape _ (fold '\\' :: fold c :: u.map fold)
    rw [hback, ih]
    rfl
  | cons c u hc ih =>
    have hc' : fold c ≠ '\\' := fun h => hc ((hf.wild '\\' rfl c).mp h)
    rw [unescape_cons hc, List.map_cons, List.map_cons, unescape_cons hc', ih, isWild_fold hf]
    congr 1
    split <;> rfl

end

/-! ## the filters -/

/-- the text contains the string, in whatever case -/
def ServerCtx.contains (c : ServerCtx) (text u : String) : Bool :=
  decide ((c.lower u).toList <:+: (c.lower text).toList)

/-- the event is one of those that the filter asks for -/
def LogRow.wanted (row : LogRow) (c : ServerCtx) (filter : LogFilter) : Bool :=
  orNull (fun level => row.level == level) filter.level &&
    orNull (fun text => c.contains row.message text) filter.text &&
    orNull (fun target => c.contains row.target target) filter.target

/-- the filter strings have no character with a meaning in a pattern, and none has U+0000 -/
structure LogFilter.Plain (filter : LogFilter) : Prop where
  literal : ∀ u, filter.text = some u ∨ filter.target = some u → ∀ c ∈ u.toList, isWild c = false
  storable : filter.texts.all storable = true

/-- following the pages from the start gives the events that the filter asks for -/
def FiltersLogs (s : Nat) (c : ServerCtx) (db : ServerDb) (store : AdminStore)
    (filter : LogFilter) :
    Prop :=
  ∀ limit, PositiveLimit limit → ∃ pages,
    Walk (fun o => fetchPage s c db (store.listLogs filter ⟨limit, o⟩)) 0 pages ∧
      pages.flatten.Perm (db.logs.filter fun row => row.wanted c filter)

section
variable {c : ServerCtx} {fold : Char → Char} (hf : FoldsCase c.lower fold)
include hf

theorem ilike_spliced (text u : String) : c.ilike text ("%" ++ u ++ "%")
    = like ('%' :: (u.toList.map fold ++ ['%'])) (text.toList.map fold) := by
  have hpercent : fold '%' = '%' := (hf.wild '%' rfl '%').mpr rfl
  have hpattern : (c.lower ("%" ++ u ++ "%")).toList = '%' :: (u.toList.map fold ++ ['%']) := by
    rw [hf.chars, String.toList_append, String.toList_append, List.map_append, List.map_append]
    show fold '%' :: (u.toList.map fold ++ [fold '%']) = _
    rw [hpercent]
  unfold ServerCtx.ilike
  rw [hpattern, hf.chars]

theorem contains_iff (text u : String) :
    c.contains text u = true ↔ u.toList.map fold <:+: text.toList.map fold := by
  unfold ServerCtx.contains
  rw [decide_eq_true_iff, hf.chars, hf.chars]

theorem ilike_plain {u : String} (hu : ∀ ch ∈ u.toList, isWild ch = false) (text : String) :
    c.ilike text ("%" ++ u ++ "%") = c.contains text u := by
  rw [Bool.eq_iff_iff, ilike_spliced hf, contains_iff hf]
  exact like_contains ((plain_map hf).mpr hu) _

theorem matches_plain {filter : LogFilter} (h : filter.Plain) (row : LogRow) :
    row.matches_ c filter = row.wanted c filter := by
  have hor : ∀ (o : Option String) (text : String),
      (∀ u, o = some u → ∀ ch ∈ u.toList, isWild ch = false) →
      orNull (fun u => c.ilike text ("%" ++ u ++ "%")) o
          = orNull (fun u => c.contains text u) o := by
    intro o text ho
    cases o with
    | none => rfl
    | some u => exact ilike_plain hf (ho u rfl) text
  unfold LogRow.matches_ LogRow.wanted
  rw [hor _ _ fun u hu => h.literal u (.inl hu), hor _ _ fun u hu => h.literal u (.inr hu)]

theorem ilike_literal (u : String) :
    c.ilike (String.ofList (unescape 'a' u.toList)) ("%" ++ u ++ "%") = true := by
  rw [ilike_spliced hf, String.toList_ofList, unescape_map hf]
  exact like_unescape _

theorem plain_of_contains {u : String}
    (h : c.contains (String.ofList (unescape 'a' u.toList)) u = true) :
    ∀ ch ∈ u.toList, isWild ch = false := by
  rw [contains_iff hf, String.toList_ofList, unescape_map hf] at h
  exact (plain_map hf).mp (plain_of_mem (by rw [isWild_fold hf]; rfl) h)

end

/-- an event that says literally what the filter says -/
def literalRow (filter : LogFilter) : LogRow :=
  let literal := fun o : Option String => String.ofList (unescape 'a' (o.getD "a").toList)
  ⟨1, 0, filter.level.getD "INFO", literal filter.target, literal filter.text, none, .obj []⟩

section
variable {c : ServerCtx} {fold : Char → Char} (hf : FoldsCase c.lower fold)
include hf

theorem literalRow_matches (filter : LogFilter) : (literalRow filter).matches_ c filter = true := by
  have hor : ∀ o : Option String, orNull (fun u => c.ilike
      (String.ofList (unescape 'a' (o.getD "a").toList)) ("%" ++ u ++ "%")) o = true := by
    intro o
    cases o with
    | none => rfl
    | some u => exact ilike_literal hf u
  have hlevel : orNull (fun level => filter.level.getD "INFO" == level) filter.level = true := by
    cases filter.level with
    | none => rfl
    | some level => exact beq_self_eq_true level
  unfold LogRow.matches_ literalRow
  rw [hlevel, hor, hor]
  rfl

theorem literalRow_wanted {filter : LogFilter} (h : (literalRow filter).wanted c filter = true) :
    ∀ u, filter.text = some u ∨ filter.target = some u → ∀ c ∈ u.toList, isWild c = false := by
  unfold LogRow.wanted literalRow at h
  simp only [Bool.and_eq_true] at h
  obtain ⟨⟨-, htext⟩, htarget⟩ := h
  intro u hex
  rcases hex with hu | hu
  · rw [hu] at htext
    exact plain_of_contains hf htext
  · rw [hu] at htarget
    exact plain_of_contains hf htarget

/-- **The text filters are substring filters exactly if they are plain.**  For every filter and
every page size: all stores are filtered as the filter says if and only if its strings have no `%`,
`_` or backslash and no U+0000, and the page size is below `i64::MAX`. -/
theorem log_filters (s : Nat) {m : Nat} (hm : m < 2 ^ 64) (toText : Json → String)
    (filter : LogFilter) :
    (∀ db, FiltersLogs s c db (.new m toText) filter) ↔ filter.Plain ∧ m < 2 ^ 63 - 1 := by
  have hsize : (AdminStore.new m toText).maxPageSize = max m 1 := rfl
  have hnone : PositiveLimit none := fun l hl => by cases hl
  constructor
  · intro h
    obtain ⟨first, hfirst, -⟩ := h .empty none hnone
    have hstorable : filter.texts.all storable = true := by
      by_contra hbad
      obtain ⟨p, hp⟩ := hfirst.fetched
      rw [(fails_logs .empty (.new m toText) (Bool.eq_false_iff.mpr hbad)).fetch] at hp
      cases hp
    have hlists := fun db => lists_logs (s := s) (c := c) db (.new m toText) hstorable
    have hmax := (hlists .empty).lt_of_walk (by omega) (by omega) hfirst
    refine ⟨⟨?_, hstorable⟩, by omega⟩
    obtain ⟨pages, hw, hperm⟩ := h { ServerDb.empty with logs := [literalRow filter] } none hnone
    obtain ⟨pages', hw', hflat⟩ := (hlists { ServerDb.empty with logs := [literalRow filter] }).walk
      (by omega) (by omega) hnone
    obtain rfl := hw.unique hw'
    rw [hflat, List.map_id, List.filter_cons, literalRow_matches hf] at hperm
    refine literalRow_wanted hf ?_
    by_contra hnot
    rw [List.filter_cons, if_neg hnot] at hperm
    exact absurd hperm.length_eq (by simp)
  · rintro ⟨hplain, hmax⟩ db limit hlimit
    obtain ⟨pages, hw, hflat⟩ := (lists_logs db (.new m toText) hplain.storable).walk (by omega)
      (by omega) hlimit
    refine ⟨pages, hw, ?_⟩
    rw [hflat, List.map_id]
    have hsame : (db.logs.filter fun row => row.matches_ c filter)
        = db.logs.filter fun row => row.wanted c filter :=
      List.filter_congr fun row _ => matches_plain hf hplain row
    rw [hsame]
    exact List.perm_insertionSort _ _

end

/-! ## a store with two events -/

/-- `lower` on ASCII -/
def asciiCtx : ServerCtx :=
  { serverAt 0 with lower := fun s => String.ofList (s.toList.map Char.toLower) }

theorem toLower_eq_wild {x : Char} (hx : isWild x = true) (c : Char) : c.toLower = x ↔ c = x := by
  have hwild : x.val.toNat = 37 ∨ x.val.toNat = 95 ∨ x.val.toNat = 92 := by
    unfold isWild at hx
    simp only [Bool.or_eq_true, beq_iff_eq] at hx
    rcases hx with (rfl | rfl) | rfl
    · exact .inl rfl
    · exact .inr (.inl rfl)
    · exact .inr (.inr rfl)
  by_cases h : c.val ≥ 'A'.val ∧ c.val ≤ 'Z'.val
  · have h65 : 65 ≤ c.val.toNat := h.1
    have h90 : c.val.toNat ≤ 90 := h.2
    have hlow : c.toLower.val.toNat = c.val.toNat + 32 := by
      unfold Char.toLower
      rw [dif_pos h]
      show (c.val + 32).toNat = c.val.toNat + 32
      rw [UInt32.toNat_add]
      exact Nat.mod_eq_of_lt (Nat.lt_of_le_of_lt (Nat.add_le_add_right h90 _) (by decide))
    constructor
    · rintro rfl
      omega
    · rintro rfl
      omega
  · have hsame : c.toLower = c := by
      unfold Char.toLower
      rw [dif_neg h]
    rw [hsame]

theorem foldsCase_ascii : FoldsCase asciiCtx.lower Char.toLower where
  chars := fun _ => String.toList_ofList
  wild := fun _ hx c => toLower_eq_wild hx c

def twoEvents : ServerDb :=
  { ServerDb.empty with logs := [
    ⟨1, 5, "INFO", "pgapp_server::admin", "Admin console opened", none, .obj []⟩,
    ⟨2, 6, "INFO", "pgapp_server::admin", "1000 rows deleted", none, .obj []⟩] }

theorem log_filters_console : FiltersLogs 0 asciiCtx twoEvents (.new 100 fun _ => "")
    ⟨some "INFO", some "CONSOLE", some "admin"⟩ := by
  refine (log_filters foldsCase_ascii 0 (by decide) (fun _ => "") _).mpr
    ⟨⟨?_, by decide⟩, by decide⟩
    twoEvents
  intro u hu
  have hall : u.toList.all (fun c => !isWild c) = true := by
    rcases hu with h | h
    · cases h
      decide
    · cases h
      decide
  intro c hc
  simpa using List.all_eq_true.mp hall c hc

/-- a filter for `100%` lets an event pass that has no percent sign -/
theorem log_filters_percent :
    fetchPage 0 asciiCtx twoEvents
        ((AdminStore.new 100 fun _ => "").listLogs ⟨none, some "100%", none⟩ ⟨none, 0⟩)
      = some ([⟨2, 6, "INFO", "pgapp_server::admin", "1000 rows deleted", none, .obj []⟩], none) ∧
    ¬ FiltersLogs 0 asciiCtx twoEvents (.new 100 fun _ => "") ⟨none, some "100%", none⟩ := by
  have hpage : fetchPage 0 asciiCtx twoEvents
      ((AdminStore.new 100 fun _ => "").listLogs ⟨none, some "100%", none⟩ ⟨none, 0⟩)
      = some ([⟨2, 6, "INFO", "pgapp_server::admin", "1000 rows deleted", none, .obj []⟩],
          none) := by
    have htexts : (⟨none, some "100%", none⟩ : LogFilter).texts.all storable = true := by decide
    have hlist := (lists_logs (s := 0) (c := asciiCtx) twoEvents (AdminStore.new 100 fun _ => "")
      htexts).fetch none 0
    obtain ⟨p, hp, hslice⟩ := pageOfRows_slice ((twoEvents.logs.filter fun row =>
      row.matches_ asciiCtx ⟨none, some "100%", none⟩).insertionSort loggedAfter) id
      (show 1 ≤ 100 by decide) (by decide) (show pageSize 100 none = some 100 from rfl)
        (Int.le_refl 0)
    rw [hlist]
    show ((pageOfRows 100 _ id none 0).toOption.map ConfigPage.page) = _
    rw [hp]
    show some p.page = _
    rw [hslice]
    rfl
  refine ⟨hpage, fun h => ?_⟩
  obtain ⟨pages, hw, hperm⟩ := h none fun l hl => by cases hl
  obtain rfl := hw.unique (.last hpage)
  exact absurd hperm.length_eq (by decide)

end PgApp
