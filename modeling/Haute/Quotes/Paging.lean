import Haute.Data.Answers
import Haute.Data.Keyset
import Haute.Quotes.Book
import Mathlib.Data.List.Lex
import Mathlib.Data.Sum.Order

/-!
# Paging through the quotes

`QuoteBook.page` lists the quotes of a view a page at a time. Its order is a list of terms, each
column ascending or descending, compared one after the other as `ORDER BY` compares them; the
cursor of the next page holds the sort key and the identity of the last row, and `cursorFilter`
picks the rows past it, column by column. What is past a row by the filter is what is after it by
the order (`cursorFilter_encodeCursor`), so the pages list every quote once (`pages_spec`).

The database compares the text of each column by the column's own collation, whatever that is; it
folds case and matches a pattern as it does. Two quotes of one reference, as it compares them, and
one option are the same quote: they are its primary key. An option is an integer of 64 bits, and a
search that names a greater one is not answered (`whereFilter_isOk_iff`).
-/

namespace Haute.Quotes

open Data

/-- The lists of the Quotes page: the signed-in underwriter's, everyone's, the archive. -/
inductive View where
  | mine
  | team
  | archived
  deriving DecidableEq

/-- The orders a list is read in. -/
inductive PageSort where
  | saved
  | reference
  | insured
  deriving DecidableEq

/-- The most quotes a page holds. -/
def maxPageSize : ℕ := 200

/-- What a page can raise. -/
inductive PageError where
  | store (e : StoreError)
  /-- `ValueError`: an option of more digits than `int` reads. -/
  | tooManyDigits
  /-- The driver's error: an option that is no integer of 64 bits. -/
  | outOfRange
  deriving DecidableEq

/-- The text columns that a page compares or searches. -/
inductive TextColumn where
  | reference
  | assignee
  | stage
  | quoteName
  | insured
  | broker
  deriving DecidableEq

/-- The database's text, and Python's: `collate` is what the database compares of a column's text,
`like` whether a column's text matches a pattern whose escapes are backslashes, `lower` its own
lower case, and `pyLower` and `digit` Python's. -/
structure Engine (κ : Type) where
  collate : TextColumn → String → κ
  lower : TextColumn → String → String
  like : TextColumn → String → String → Bool
  pyLower : String → String
  digit : Char → Option ℕ

/-- A row of `quote_details` with its key. -/
abbrev DetailsRow := Identity × QuoteDetails

/-- What a page is asked for. -/
structure PageAsk where
  actor : String
  view : View
  stage : Option Stage
  search : String
  assignee : Option String
  sort : PageSort

/-- A value of a column, as SQL compares it. -/
inductive SqlValue where
  | moment (m : Moment)
  | text (column : TextColumn) (s : String)
  | number (n : ℤ)
  deriving DecidableEq

/-- The cursor after a row: its sort key, and its identity, which breaks ties. -/
structure Cursor where
  sort : PageSort
  key : SqlValue
  reference : String
  option : ℤ
  deriving DecidableEq

/-- One page of a list, the cursor of the next when there is one, and the counts. -/
structure QuotePage where
  quotes : List AppQuote
  nextCursor : Option Cursor
  counts : List (String × ℕ)

/-! ### What is searched -/

/-- `str.split()`. -/
def pySplit (text : String) : List String :=
  ((text.toList.splitOnP isPySpace).filter fun word => !word.isEmpty).map String.ofList

/-- `_like`: a `LIKE` pattern for the term anywhere, its wildcards escaped. -/
def likePattern (term : String) : String :=
  "%" ++ String.ofList (term.toList.flatMap fun c =>
    if c = '\\' ∨ c = '%' ∨ c = '_' then ['\\', c] else [c]) ++ "%"

/-- A text column, an absent one read as the empty text. -/
def QuoteDetails.coalesced (quote : QuoteDetails) (column : String) : String :=
  match quote.typed.get column with
  | .text s => s
  | _ => ""

section Page

variable {κ : Type} [LinearOrder κ] (engine : Engine κ)

/-- What SQL compares of a value. -/
def Engine.rank : SqlValue → ℤ ⊕ₗ (κ ⊕ₗ ℤ)
  | .moment m => Sum.inlₗ m
  | .text column s => Sum.inrₗ (Sum.inlₗ (engine.collate column s))
  | .number n => Sum.inrₗ (Sum.inrₗ n)

/-- `=` of two values. -/
def Engine.eq (x y : SqlValue) : Bool := decide (engine.rank x = engine.rank y)

/-- `<` of two values. -/
def Engine.lt (x y : SqlValue) : Bool := decide (engine.rank x < engine.rank y)

/-- `_REFERENCE_OPTION.fullmatch`: a reference, a `/` and the digits of an option. -/
def referenceOption (term : String) : Option (String × List ℕ) :=
  let (tail, front) := term.toList.reverse.span fun c => (engine.digit c).isSome
  match tail, front with
  | _ :: _, '/' :: named =>
    if named ≠ [] ∧ '\n' ∉ named then
      some (String.ofList named.reverse, tail.reverse.filterMap engine.digit)
    else none
  | _, _ => none

/-- The number that digits spell. -/
def numberOf (digits : List ℕ) : ℕ := digits.foldl (fun n d => 10 * n + d) 0

/-- `int` of digits, which has a limit on them, as the database takes it: a `BIGINT`. -/
def optionOfDigits (digits : List ℕ) : Except PageError ℤ :=
  if 4300 < digits.length then .error .tooManyDigits
  else if 2 ^ 63 ≤ numberOf digits then .error .outOfRange
  else .ok (numberOf digits)

/-- `_SEARCHED`: the columns that a word is searched in besides the reference. -/
def searched : List (TextColumn × String) :=
  [(.quoteName, "quote_name"), (.insured, "insured"), (.broker, "broker")]

/-- `_search_filter`. -/
def searchFilter (term : String) : Except PageError (DetailsRow → Bool) :=
  match referenceOption engine term with
  | some (named, digits) => do
    let option ← optionOfDigits digits
    return fun row =>
      engine.like .reference (engine.lower .reference row.1.reference)
        (likePattern (engine.pyLower named)) &&
        engine.eq (.number row.1.option) (.number option)
  | none =>
    let pattern := likePattern (engine.pyLower term)
    .ok fun row =>
      engine.like .reference (engine.lower .reference row.1.reference) pattern ||
        searched.any fun (column, name) =>
          engine.like column (engine.lower column (row.2.coalesced name)) pattern

/-- `_view_filter`. -/
def viewFilter (view : View) (actor : String) (row : DetailsRow) : Bool :=
  match view with
  | .archived => row.2.archived
  | .mine => !row.2.archived && engine.eq (.text .assignee row.2.assignee) (.text .assignee actor)
  | .team => !row.2.archived

/-- What is asked for but the stage. -/
def whereFilter (ask : PageAsk) : Except PageError (DetailsRow → Bool) := do
  let terms ← (pySplit ask.search).mapM (searchFilter engine)
  return fun row =>
    viewFilter engine ask.view ask.actor row &&
      ask.assignee.all
        (fun assignee => engine.eq (.text .assignee row.2.assignee) (.text .assignee assignee)) &&
      terms.all fun term => term row

/-- Whether a row has the stage asked for. -/
def stageFilter (stage : Option Stage) (row : DetailsRow) : Bool :=
  stage.all fun stage => engine.eq (.text .stage row.2.stage.name) (.text .stage stage.name)

/-! ### The order and the cursor -/

/-- `_sort_key`. -/
def sortKey (sort : PageSort) (row : DetailsRow) : SqlValue :=
  match sort with
  | .saved => .moment row.2.savedAt
  | .reference => .text .reference row.1.reference
  | .insured => .text .insured (engine.lower .insured (row.2.coalesced "insured"))

/-- A term of an `ORDER BY`. -/
inductive OrderTerm where
  | asc (column : DetailsRow → SqlValue)
  | desc (column : DetailsRow → SqlValue)

/-- `_order`. -/
def orderTerms (sort : PageSort) : List OrderTerm :=
  let reference : DetailsRow → SqlValue := fun row => .text .reference row.1.reference
  let option : DetailsRow → SqlValue := fun row => .number row.1.option
  match sort with
  | .reference => [.asc reference, .asc option]
  | .saved => [.desc (sortKey engine .saved), .desc reference, .desc option]
  | .insured => [.asc (sortKey engine .insured), .asc reference, .asc option]

/-- What a term compares of a row: a descending one its value the other way round. -/
def OrderTerm.rank (row : DetailsRow) : OrderTerm →
    (ℤ ⊕ₗ (κ ⊕ₗ ℤ)) ⊕ₗ (ℤ ⊕ₗ (κ ⊕ₗ ℤ))ᵒᵈ
  | .asc column => Sum.inlₗ (engine.rank (column row))
  | .desc column => Sum.inrₗ (OrderDual.toDual (engine.rank (column row)))

/-- What `ORDER BY` compares of a row: its terms, one after the other. -/
def orderRank (sort : PageSort) (row : DetailsRow) :
    List ((ℤ ⊕ₗ (κ ⊕ₗ ℤ)) ⊕ₗ (ℤ ⊕ₗ (κ ⊕ₗ ℤ))ᵒᵈ) :=
  (orderTerms engine sort).map (OrderTerm.rank engine row)

/-- `_encode_cursor`, as it is read back: a moment's ISO text stands for the moment. -/
def encodeCursor (sort : PageSort) (row : DetailsRow) : Cursor :=
  ⟨sort, sortKey engine sort row, row.1.reference, row.1.option⟩

/-- `_cursor_filter`: whether a row is past the cursor. -/
def cursorFilter (sort : PageSort) (cursor : Cursor) : Except PageError (DetailsRow → Bool) :=
  let refused := PageError.store (.invalid "The page asked for is not one this list gave.")
  if cursor.sort ≠ sort then .error refused
  else
    let filter : DetailsRow → Bool := fun row =>
      let reference : SqlValue := .text .reference row.1.reference
      let held : SqlValue := .text .reference cursor.reference
      let option : SqlValue := .number row.1.option
      let after := engine.lt held reference ||
        engine.eq reference held && engine.lt (.number cursor.option) option
      let before := engine.lt reference held ||
        engine.eq reference held && engine.lt option (.number cursor.option)
      let column := sortKey engine sort row
      if sort = .saved then engine.lt column cursor.key || engine.eq column cursor.key && before
      else engine.lt cursor.key column || engine.eq column cursor.key && after
    match sort, cursor.key with
    | .saved, .moment _ => .ok filter
    | .saved, _ => .error refused
    | _, .text _ _ => .ok filter
    | _, _ => .error refused

/-- The rows a page starts from. -/
def pastFilter (sort : PageSort) : Option Cursor → Except PageError (DetailsRow → Bool)
  | none => .ok fun _ => true
  | some cursor => cursorFilter engine sort cursor

/-- `_quote`. -/
def quoteOf (row : DetailsRow) : AppQuote := ⟨row.1, row.2, none, none⟩

/-- `_count`. -/
def countRows (db : Db) (p : DetailsRow → Bool) : ℕ := (db.details.entries.filter p).length

/-- `page`. -/
def page (db : Db) (ask : PageAsk) (limit : ℕ) (cursor : Option Cursor) :
    Except PageError QuotePage :=
  if limit < 1 ∨ maxPageSize < limit then
    .error (.store (.invalid ("A page holds 1 to " ++ toString maxPageSize ++ " quotes.")))
  else do
    let asked ← whereFilter engine ask
    let past ← pastFilter engine ask.sort cursor
    let listed :=
      db.details.entries.filter fun row => asked row && stageFilter engine ask.stage row && past row
    let rows := (sortOn (orderRank engine ask.sort) listed).take (limit + 1)
    return {
      quotes := (rows.take limit).map quoteOf
      nextCursor := if limit < rows.length then rows[limit - 1]?.map (encodeCursor engine ask.sort)
        else none
      counts :=
        [("mine", View.mine), ("team", .team), ("archived", .archived)].map (fun (name, view) =>
          (name, countRows db (viewFilter engine view ask.actor))) ++
        [Stage.draft, .final].map fun stage =>
          (stage.name, countRows db fun row => asked row && stageFilter engine (some stage) row) }

variable {engine}

theorem Engine.lt_iff {x y : SqlValue} : engine.lt x y = true ↔ engine.rank x < engine.rank y :=
  decide_eq_true_iff

theorem Engine.eq_iff {x y : SqlValue} : engine.eq x y = true ↔ engine.rank y = engine.rank x :=
  decide_eq_true_iff.trans eq_comm

/-- What is past a row by the filter of its cursor is what is after it in the order. -/
theorem cursorFilter_encodeCursor (sort : PageSort) (c : DetailsRow) :
    cursorFilter engine sort (encodeCursor engine sort c) =
      .ok fun row => decide (orderRank engine sort c < orderRank engine sort row) := by
  cases sort with
  | saved =>
    refine congrArg Except.ok (funext fun row => Bool.eq_iff_iff.mpr ?_)
    simp [encodeCursor, Engine.lt_iff, Engine.eq_iff, orderRank, orderTerms, OrderTerm.rank,
      List.cons_lt_cons_iff]
  | reference =>
    refine congrArg Except.ok (funext fun row => Bool.eq_iff_iff.mpr ?_)
    simp only [encodeCursor, sortKey, Engine.lt_iff, Engine.eq_iff, orderRank, orderTerms,
      OrderTerm.rank, List.map_cons, List.map_nil, List.cons_lt_cons_iff, Sum.Lex.inl_lt_inl_iff,
      List.lt_irrefl, Bool.or_eq_true, Bool.and_eq_true, decide_eq_true_eq, reduceCtorEq, if_false,
      toLex_inj, Sum.inl.injEq, and_false, or_false]
    -- the key is the reference itself, so the filter compares it twice
    constructor
    · rintro (h | ⟨_, h | h⟩)
      · exact .inl h
      · exact .inl h
      · exact .inr h
    · rintro (h | h)
      · exact .inl h
      · exact .inr ⟨h.1, .inr h⟩
  | insured =>
    refine congrArg Except.ok (funext fun row => Bool.eq_iff_iff.mpr ?_)
    simp [encodeCursor, Engine.lt_iff, Engine.eq_iff, orderRank, orderTerms, OrderTerm.rank,
      List.cons_lt_cons_iff]

/-! ### What is searched can be read -/

/-- A search that the store can be asked: each word that names an option (`ABC-1/2`) names one of
at most as many digits as `int` reads, and of 64 bits. -/
def Askable (engine : Engine κ) (search : String) : Prop :=
  ∀ term ∈ pySplit search, ∀ found ∈ referenceOption engine term,
    found.2.length ≤ 4300 ∧ numberOf found.2 < 2 ^ 63

instance (engine : Engine κ) (search : String) : Decidable (Askable engine search) :=
  inferInstanceAs (Decidable (∀ term ∈ pySplit search, ∀ found ∈ referenceOption engine term,
    found.2.length ≤ 4300 ∧ numberOf found.2 < 2 ^ 63))

theorem optionOfDigits_isOk_iff {digits : List ℕ} :
    (∃ option, optionOfDigits digits = .ok option) ↔ digits.length ≤ 4300 ∧
      numberOf digits < 2 ^ 63 := by
  unfold optionOfDigits
  split_ifs with hlong hbig
  · exact iff_of_false (fun ⟨_, h⟩ => by cases h) fun h => by omega
  · exact iff_of_false (fun ⟨_, h⟩ => by cases h) fun h => by omega
  · exact iff_of_true ⟨_, rfl⟩ ⟨by omega, by omega⟩

theorem searchFilter_isOk_iff {term : String} : (∃ filter, searchFilter engine term = .ok filter) ↔
    ∀ found ∈ referenceOption engine term, found.2.length ≤ 4300 ∧ numberOf found.2 < 2 ^ 63 := by
  unfold searchFilter
  cases referenceOption engine term with
  | none => exact iff_of_true ⟨_, rfl⟩ fun _ h => by cases h
  | some found =>
    have hfound : (∀ found' ∈ some found, found'.2.length ≤ 4300 ∧ numberOf found'.2 < 2 ^ 63) ↔
        ∃ option, optionOfDigits found.2 = .ok option := by
      rw [optionOfDigits_isOk_iff]
      simp
    rw [hfound]
    dsimp only
    cases optionOfDigits found.2 with
    | error e => exact iff_of_false (fun ⟨_, h⟩ => by cases h) fun ⟨_, h⟩ => by cases h
    | ok option => exact iff_of_true ⟨_, rfl⟩ ⟨_, rfl⟩

/-- What is asked for is read exactly where every word can be. -/
theorem whereFilter_isOk_iff {ask : PageAsk} :
    (∃ asked, whereFilter engine ask = .ok asked) ↔ Askable engine ask.search := by
  have hread : (∃ asked, whereFilter engine ask = .ok asked) ↔
      ∃ terms, (pySplit ask.search).mapM (searchFilter engine) = .ok terms := by
    unfold whereFilter
    cases (pySplit ask.search).mapM (searchFilter engine) with
    | error e => exact iff_of_false (fun ⟨_, h⟩ => by cases h) fun ⟨_, h⟩ => by cases h
    | ok terms => exact iff_of_true ⟨_, rfl⟩ ⟨_, rfl⟩
  rw [hread, exists_mapM_iff]
  exact forall₂_congr fun term _ => searchFilter_isOk_iff

/-! ### The pages -/

/-- No two quotes have one reference, as the database compares them, and one option. -/
def PrimaryKey (engine : Engine κ) (db : Db) : Prop :=
  ∀ a ∈ db.details.keys, ∀ b ∈ db.details.keys,
    engine.collate .reference a.reference = engine.collate .reference b.reference →
      a.option = b.option → a = b

omit [LinearOrder κ] in
theorem orderRank_inj {sort : PageSort} {a b : DetailsRow}
    (h : orderRank engine sort a = orderRank engine sort b) :
    engine.collate .reference a.1.reference = engine.collate .reference b.1.reference ∧ a.1.option =
      b.1.option := by
  cases sort <;> simp_all [orderRank, orderTerms, OrderTerm.rank, Engine.rank]

omit [LinearOrder κ] in
theorem keyed_details {db : Db} (hkey : PrimaryKey engine db) (sort : PageSort) :
    Keyed (orderRank engine sort) db.details.entries := by
  refine ⟨db.details.nodup_keys.of_map, fun a ha b hb hab => ?_⟩
  obtain ⟨href, hoption⟩ := orderRank_inj hab
  have hid : a.1 = b.1 :=
    hkey a.1 (List.mem_map_of_mem ha) b.1 (List.mem_map_of_mem hb) href hoption
  have hrow : some a.2 = some b.2 := by
    rw [← OrdDict.mem_entries_iff.mp ha, ← OrdDict.mem_entries_iff.mp hb, hid]
  exact Prod.ext hid (Option.some.inj hrow)

/-- Following `next_cursor` from a page until it is absent. -/
inductive Follows (turn : Option Cursor → Except PageError QuotePage) :
    Option Cursor → List QuotePage → Prop where
  | last {cursor p} (hpage : turn cursor = .ok p) (hnext : p.nextCursor = none) : Follows turn
    cursor [p]
  | next {cursor p next ps} (hpage : turn cursor = .ok p) (hnext : p.nextCursor = some next)
      (hrest : Follows turn (some next) ps) : Follows turn cursor (p :: ps)

theorem Follows.unique {turn : Option Cursor → Except PageError QuotePage} {cursor : Option Cursor}
    {ps qs : List QuotePage} (hp : Follows turn cursor ps)
    (hq : Follows turn cursor qs) : ps = qs := by
  induction hp generalizing qs with
  | last hpage hnext =>
    cases hq with
    | last hpage' _ => rw [Except.ok.inj (hpage.symm.trans hpage')]
    | next hpage' hnext' _ =>
      obtain rfl := Except.ok.inj (hpage.symm.trans hpage')
      exact absurd (hnext.symm.trans hnext') (by simp)
  | next hpage hnext _ ih =>
    cases hq with
    | last hpage' hnext' =>
      obtain rfl := Except.ok.inj (hpage.symm.trans hpage')
      exact absurd (hnext'.symm.trans hnext) (by simp)
    | next hpage' hnext' hrest =>
      obtain rfl := Except.ok.inj (hpage.symm.trans hpage')
      obtain rfl := Option.some.inj (hnext.symm.trans hnext')
      rw [ih hrest]

/-- The rows that are asked for. -/
def matching (engine : Engine κ) (db : Db) (ask : PageAsk) (asked : DetailsRow → Bool) :
    List DetailsRow :=
  db.details.entries.filter fun row => asked row && stageFilter engine ask.stage row

/-- A page, from the rows it starts from. -/
theorem page_eq {db : Db} {ask : PageAsk} {limit : ℕ} (hlimit : 1 ≤ limit ∧ limit ≤ maxPageSize)
    {asked past : DetailsRow → Bool} (hasked : whereFilter engine ask = .ok asked)
    {cursor : Option Cursor} (hpast : pastFilter engine ask.sort cursor = .ok past)
    {rows : List DetailsRow}
    (hrows : sortOn (orderRank engine ask.sort)
      ((matching engine db ask asked).filter past) = rows) :
    ∃ p, page engine db ask limit cursor = .ok p ∧ p.quotes = (rows.take limit).map quoteOf ∧
      p.nextCursor = if limit < rows.length then rows[limit - 1]?.map (encodeCursor engine ask.sort)
        else none := by
  have hle : ¬ (limit < 1 ∨ maxPageSize < limit) := by omega
  have hfilter : (db.details.entries.filter fun row =>
      asked row && stageFilter engine ask.stage row && past row) =
      (matching engine db ask asked).filter past := by
    rw [matching, List.filter_filter]
    exact List.filter_congr fun row _ => Bool.and_comm ..
  refine ⟨_, by rw [page, if_neg hle, hasked]; simp only [bind, Except.bind, hpast]; rfl, ?_, ?_⟩
  · simp only [hfilter, hrows]
    rw [List.take_take, Nat.min_eq_left (Nat.le_succ limit)]
  · simp only [hfilter, hrows, List.length_take]
    have hlast : (rows.take (limit + 1))[limit - 1]? = rows[limit - 1]? :=
      List.getElem?_take_of_lt (by omega)
    have hlonger : limit < min (limit + 1) rows.length ↔ limit < rows.length := by omega
    simp only [hlast, hlonger]

/-- The pages from a place in the list hold what is listed from there. -/
theorem exists_follows {db : Db} (hkey : PrimaryKey engine db) {ask : PageAsk} {limit : ℕ}
    (hlimit : 1 ≤ limit ∧ limit ≤ maxPageSize) {asked : DetailsRow → Bool}
    (hasked : whereFilter engine ask = .ok asked) (n : ℕ) :
    ∀ (cursor : Option Cursor) (past : DetailsRow → Bool) (pre rest : List DetailsRow),
      rest.length ≤ n →
      pastFilter engine ask.sort cursor = .ok past →
      sortOn (orderRank engine ask.sort) ((matching engine db ask asked).filter past) = rest →
      sortOn (orderRank engine ask.sort) (matching engine db ask asked) = pre ++ rest →
      ∃ pages, Follows (page engine db ask limit) cursor pages ∧
        pages.flatMap QuotePage.quotes = rest.map quoteOf := by
  have hkeyed : Keyed (orderRank engine ask.sort) (matching engine db ask asked) :=
    (keyed_details hkey ask.sort).filter _
  induction n with
  | zero =>
    intro cursor past pre rest hn hpast hrows _
    obtain rfl := List.length_eq_zero_iff.mp (Nat.le_zero.mp hn)
    obtain ⟨p, hpage, hquotes, hnext⟩ := page_eq hlimit hasked hpast hrows
    exact ⟨[p], .last hpage (by simpa using hnext), by simpa using hquotes⟩
  | succ n ih =>
    intro cursor past pre rest hn hpast hrows hlist
    obtain ⟨p, hpage, hquotes, hnext⟩ := page_eq hlimit hasked hpast hrows
    by_cases hlonger : limit < rest.length
    · have hat : limit - 1 < rest.length := by omega
      have hsplit : rest = rest.take (limit - 1) ++ rest[limit - 1] :: rest.drop limit := by
        have hdrop : rest.drop (limit - 1) = rest[limit - 1] :: rest.drop limit := by
          rw [List.drop_eq_getElem_cons hat, Nat.sub_add_cancel hlimit.1]
        rw [← hdrop, List.take_append_drop]
      rw [if_pos hlonger, List.getElem?_eq_getElem hat, Option.map_some] at hnext
      have hlist' : sortOn (orderRank engine ask.sort) (matching engine db ask asked) =
          (pre ++ rest.take (limit - 1)) ++ rest[limit - 1] :: rest.drop limit := by
        rw [List.append_assoc, ← hsplit, hlist]
      have hlength : (rest.drop limit).length ≤ n := by
        rw [List.length_drop]
        omega
      obtain ⟨pages, hfollows, hflat⟩ :=
        ih (some (encodeCursor engine ask.sort rest[limit - 1])) _ _ _ hlength
        (cursorFilter_encodeCursor ask.sort rest[limit - 1])
        (by convert sortOn_filter_after hkeyed hlist') (hlist'.trans (List.append_cons ..))
      refine ⟨p :: pages, .next hpage hnext hfollows, ?_⟩
      rw [List.flatMap_cons, hflat, hquotes, ← List.map_append, List.take_append_drop]
    · rw [if_neg hlonger] at hnext
      refine ⟨[p], .last hpage hnext, ?_⟩
      rw [List.flatMap_singleton, hquotes, List.take_of_length_le (Nat.le_of_not_lt hlonger)]

/-- **Paging lists every quote once.** From the first page, following `next_cursor` ends; the pages
hold the quotes asked for, each once, in the order of the sort, ties broken by reference and
option. -/
theorem pages_spec (db : Db) (hkey : PrimaryKey engine db) (ask : PageAsk)
    (hsearch : Askable engine ask.search) (limit : ℕ) (hlimit : 1 ≤ limit ∧ limit ≤ maxPageSize) :
    ∃ asked, whereFilter engine ask = .ok asked ∧
      ∃ pages, Follows (page engine db ask limit) none pages ∧
        (∀ other, Follows (page engine db ask limit) none other → other = pages) ∧
        ∃ rows : List DetailsRow, pages.flatMap QuotePage.quotes = rows.map quoteOf ∧
          rows.Perm (db.details.entries.filter fun row =>
            asked row && stageFilter engine ask.stage row) ∧
          rows.Pairwise fun a b => orderRank engine ask.sort a < orderRank engine ask.sort b := by
  obtain ⟨asked, hasked⟩ : ∃ asked, whereFilter engine ask = .ok asked :=
    whereFilter_isOk_iff.mpr hsearch
  have hfirst : (matching engine db ask asked).filter (fun _ => true) =
      matching engine db ask asked := List.filter_eq_self.mpr fun _ _ => rfl
  obtain ⟨pages, hfollows, hflat⟩ :=
    exists_follows hkey hlimit hasked _ none _ [] _ (Nat.le_refl _) rfl (congrArg _ hfirst) rfl
  exact ⟨asked, hasked, pages, hfollows, fun other hother => hother.unique hfollows,
    sortOn (orderRank engine ask.sort) (matching engine db ask asked), hflat,
    sortOn_perm _ _, pairwise_lt_sortOn ((keyed_details hkey ask.sort).filter _)⟩

end Page

/-- A database that compares texts as they are. -/
def exactEngine : Engine String :=
  ⟨fun _ => id, fun _ => id, fun _ text pattern => decide (pattern = likePattern text), id,
    fun c => if c.isDigit then some (c.toNat - 48) else none⟩

/-- Everyone's quotes, the newest first. -/
def newestFirst : PageAsk := ⟨"ann", .team, none, "", none, .saved⟩

/-- Following the pages of more quotes than the most a page holds gives no list. -/
theorem not_follows_tooLarge (pages : List QuotePage) :
    ¬ Follows (page exactEngine .empty newestFirst 201) none pages := by
  intro h
  cases h with
  | last hpage _ => cases hpage
  | next hpage _ _ => cases hpage

/-- The claim's page sizes reach past the most that a page holds. -/
theorem exists_limit_not_follows :
    ∃ limit, 1 ≤ limit ∧
      ¬ ∃ pages, Follows (page exactEngine .empty newestFirst limit) none pages :=
  ⟨201, by decide, fun ⟨pages, h⟩ => not_follows_tooLarge pages h⟩

/-- A quote saved at a moment. -/
def savedQuote (moment : Moment) : QuoteDetails :=
  ⟨[], .draft, "ann", false, 0, "ann", 0, "ann", none, 1, moment, "ann", none, none,
    none, none, none⟩

/-- Two options of one reference, saved at one moment. -/
def twoOptions : Db :=
  ⟨⟨[(⟨"ABC", 1⟩, savedQuote 5), (⟨"ABC", 2⟩, savedQuote 5)], by decide⟩, .empty, .empty⟩

/-- Two quotes with one sort key, a page each. -/
theorem pages_spec_twoOptions :
    ∃ asked, whereFilter exactEngine newestFirst = .ok asked ∧
      ∃ pages, Follows (page exactEngine twoOptions newestFirst 1) none pages ∧
        (∀ other, Follows (page exactEngine twoOptions newestFirst 1) none other → other = pages) ∧
        ∃ rows : List DetailsRow, pages.flatMap QuotePage.quotes = rows.map quoteOf ∧
          rows.Perm (twoOptions.details.entries.filter fun row =>
            asked row && stageFilter exactEngine newestFirst.stage row) ∧
          rows.Pairwise fun a b => orderRank exactEngine newestFirst.sort a <
            orderRank exactEngine newestFirst.sort b :=
  pages_spec twoOptions (fun _ _ _ _ href hoption => Identity.ext href hoption) newestFirst
    (by decide) 1
    (by decide)

end Haute.Quotes
