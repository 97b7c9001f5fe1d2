import Haute.Quotes.Book

/-!
# Calls on a quote book

Each public operation of `QuoteBook` as a program: its checks, then its reads and its one
transaction, then what it answers. Between two of those steps any other call may take its
own, so a call is a member of a `Pool`, and `QuoteBook.machine` runs any number of them in
any order.

What the clock and the key generator give a call is part of it (`Stamp`); two calls may be
given one key, which the store's unique key then refuses.
-/

namespace Haute.Quotes

variable {Values Document : Type}

/-- What a call the page names no key for is stamped with. -/
structure Stamp where
  moment : Moment
  key : String
  deriving DecidableEq

/-- A call on a book. -/
inductive QuoteCall (Values Document : Type) where
  | create (operation actor : String) (values : Values) (moment : Moment)
      (reference : Option String) (source : Option Source)
  | save (id : Identity) (operation : String) (version : ℤ) (actor : String) (values : Values)
      (priced : Option (PricedOutputs Document)) (moment : Moment)
  | assign (id : Identity) (version : ℤ) (actor assignee : String) (stamp : Stamp)
  | archive (id : Identity) (version : ℤ) (actor : String) (stamp : Stamp)
  | restore (id : Identity) (version : ℤ) (actor : String) (stamp : Stamp)
  | amend (id : Identity) (version : ℤ) (actor reason : String) (stamp : Stamp)
  | finalise (id : Identity) (version : ℤ) (actor release : String) (stamp : Stamp)
  | setNote (id : Identity) (actor note : String) (stamp : Stamp)

/-- A call's program: it writes a quote, whose identity its transaction leaves. -/
abbrev CallProgram := Program Db Identity (Except StoreError Answer)

/-- `READS`: how often a load reads a quote again when it moved on while it was read. -/
def reads : ℕ := 3

namespace QuoteBook

open Program

variable (book : QuoteBook Values Document)

/-! ### Reads of several steps -/

/-- `read`, with `n` reads left. -/
def readQuote (id : Identity) (go : OpenQuote → CallProgram) : ℕ → CallProgram
  | 0 => ret (.error (.invalid (id.label ++ " kept changing while it was read: open it again.")))
  | n + 1 =>
    look (fun db => (book.openQuote db id).map fun opened =>
        (opened, (db.details.get? id).map QuoteDetails.quoteVersion)) fun r =>
      if r.2 = some r.1.quote.row.quoteVersion then go r.1 else readQuote id go n

/-- `replayed`, with `n` reads left. -/
def replayed (operation actor : String) (action : Action) (id : Option Identity)
    (go : Option OpenQuote → CallProgram) : ℕ → CallProgram
  | 0 => ret (.error (.invalid "The quote kept changing while it was read: open it again."))
  | n + 1 =>
    look (fun db => replayedQuote db operation actor action id) fun
      | none => go none
      | some quote => book.readQuote quote.identity (fun opened =>
          -- a save moved on past while it was read is looked up again
          if action ≠ .saved ∨ opened.quote.row.quoteVersion = quote.row.quoteVersion then
            go (some opened)
          else replayed operation actor action id go n) reads

/-- `_refuse_change`: why a quote took no `what` over `version`. -/
def refuseChange (id : Identity) (version : ℤ) (what : Action) (db : Db) :
    Except StoreError Unit := do
  let quote ← getQuote db id
  if quote.row.quoteVersion ≠ version then
    throw (.stale id (db.newest id fun a => a.quoteVersion = some quote.row.quoteVersion))
  if quote.row.archived then
    throw (.locked (id.label ++ " is archived: restore it to change it."))
  if quote.row.stage = .final ∧ what = .saved then
    throw (.locked (id.label ++ " is final: amend it, giving a reason, to change it."))

/-! ### The operations -/

/-- `create`. -/
def create (operation actor : String) (values : Values) (moment : Moment)
    (reference : Option String) (source : Option Source) : CallProgram :=
  check (checkOperation operation) fun _ =>
  check (checkPrincipal actor "Who makes a quote") fun actor =>
  let alternative : Bool := source.any fun source => source.relation = .alternative
  if alternative ∧ reference.isSome then
    ret (.error (.invalid "An alternative takes its source's reference: name none."))
  else
    check (if alternative then .ok none else (book.checkReference reference).map some) fun keyed =>
    check (checkName (book.form.quoteName values)) fun _ =>
    transaction (book.createTx operation actor values moment keyed source) fun
      | .raised e => ret (.error e)
      -- another creation of the same reference or option, or of the same key, came first
      | .integrity => book.replayed operation actor .created none (fun
          | some again => ret (.ok (.opened again))
          | none =>
            match keyed with
            | some reference => look (fun db => refuseTaken db reference) fun _ =>
              ret (.error .integrity)
            | none => ret (.error .integrity)) reads
      | .landed quote => book.readQuote quote.identity
        (fun opened => ret (.ok (.opened opened))) reads
      | .notMoved => ret (.error .integrity)

/-- `save`. -/
def save (id : Identity) (operation : String) (version : ℤ) (actor : String) (values : Values)
    (priced : Option (PricedOutputs Document)) (moment : Moment) : CallProgram :=
  check (checkOperation operation) fun _ =>
  check (checkPrincipal actor "Who saves a quote") fun actor =>
  check (checkName (book.form.quoteName values)) fun _ =>
  look (fun db => getQuote db id) fun current =>
  let managed := book.managed (some current) moment actor
  check (book.saveRows values managed id priced) fun saved =>
  transaction (book.saveTx id operation version actor moment priced managed saved) fun
    | .raised e => ret (.error e)
    -- the key's first write came first
    | .integrity => book.replayed operation actor .saved (some id) (fun
        | some done => ret (.ok (.opened done))
        | none => ret (.error .integrity)) reads
    | _ => book.replayed operation actor .saved (some id) (fun
        | some done => ret (.ok (.opened done))
        | none => look (refuseChange id version .saved) fun _ =>
            ret (.error (.invalid (id.label ++ " took no save over version " ++ toString version
              ++ ": open it again.")))) reads

/-- Why a quote at its version does not take a change. -/
def notTaken (id : Identity) (action : Action) : StoreError :=
  match action with
  | .restored => .locked (id.label ++ " is not archived.")
  | .amended => .locked (id.label ++ " is not final.")
  | .finalised => .locked (id.label ++ " is final already.")
  | _ => .locked (id.label ++ " does not take this change as it stands.")

/-- `_change`. -/
def change (id : Identity) (version : ℤ) (actor : String) (stamp : Stamp) (change : Change) :
    CallProgram :=
  check (checkPrincipal actor "Who changes a quote") fun actor =>
  transaction (book.changeTx id version actor stamp.moment stamp.key change) fun
    | .raised e => ret (.error e)
    | .integrity => ret (.error .integrity)
    | _ => look (refuseChange id version change.action) fun _ =>
      look (fun db => getQuote db id) fun _ => ret (.error (notTaken id change.action))

/-- What `finalise` checks before it swaps: only of the quote it names at the version it
names, a draft in use. -/
def checkReady (id : Identity) (version : ℤ) (release : String) (db : Db) :
    Except StoreError Unit := do
  let quote ← getQuote db id
  if quote.row.quoteVersion = version ∧ quote.row.archived = false ∧ quote.row.stage = .draft then
    if quote.row.pricedRelease ≠ some release then
      throw (.notReady id quote.row.pricedRelease [])
    let missing := book.missing (book.rowsOf db id)
    if missing ≠ [] then
      throw (.notReady id quote.row.pricedRelease missing)

/-- `finalise`. -/
def finalise (id : Identity) (version : ℤ) (actor release : String) (stamp : Stamp) : CallProgram :=
  look (book.checkReady id version release) fun _ => book.change id version actor stamp finalised

/-- `set_note`. -/
def setNote (id : Identity) (actor note : String) (stamp : Stamp) : CallProgram :=
  check (checkPrincipal actor "Who writes a note") fun actor =>
  transaction (noteTx id actor (pyStrip note) stamp.moment stamp.key) fun
    | .raised e => ret (.error e)
    | _ => ret (.error .integrity)

/-- The program of a call. -/
def program : QuoteCall Values Document → CallProgram
  | .create operation actor values moment reference source =>
    book.create operation actor values moment reference source
  | .save id operation version actor values priced moment =>
    book.save id operation version actor values priced moment
  | .assign id version actor assignee stamp =>
    check (checkPrincipal assignee "Who a quote is with") fun assignee =>
      book.change id version actor stamp (assigned assignee)
  | .archive id version actor stamp => book.change id version actor stamp archived
  | .restore id version actor stamp => book.change id version actor stamp restored
  | .amend id version actor reason stamp =>
    if (pyStrip reason).isEmpty then
      ret (.error (.invalid "Give a reason for amending a final quote."))
    else book.change id version actor stamp (amended (pyStrip reason))
  | .finalise id version actor release stamp => book.finalise id version actor release stamp
  | .setNote id actor note stamp => setNote id actor note stamp

/-- Callers' calls on an empty store, interleaved in any way. -/
def machine : Machine (Pool Db (QuoteCall Values Document) Identity (Except StoreError Answer))
    (Taken (QuoteCall Values Document) Identity (Except StoreError Answer)) :=
  Pool.machine .empty book.program

/-! ### A small book -/

/-- A table of one row, which requires a name. -/
def driverTable : SchemaTable where
  name := "driver"
  columns := [⟨"driver_name", "Name", true⟩]
  index := none

/-- A book of a form of that table, whose name every page types. -/
def plain : QuoteBook Unit Unit where
  form := {
    tables := [driverTable]
    quoteName := fun _ => none
    typedDetails := fun _ _ => .ok []
    sheetRows := fun _ _ _ => .ok fun name =>
      if name = driverTable.name then some [[("driver_name", .text "Ann")]] else none
    outputRows := fun _ _ _ => none
    withOutputs := fun rows _ => .ok rows
    indexLe := fun _ _ => true }
  hauteVersion := none
  nfc := fun s => s
  isControl := fun _ => false

/-- The first quote of a store. -/
def firstQuote : QuoteCall Unit Unit := .create "operation-1" "ann" () 0 (some "ABC-1") none

/-- The identity of the first quote. -/
def firstId : Identity := ⟨"ABC-1", 1⟩

/-- The store that holds it alone, at version 1 and not priced. -/
def oneQuote : Db := (plain.program firstQuote).after .empty

/-- The first quote put with another, from version 1 to 2. -/
def assignFirst : QuoteCall Unit Unit := .assign firstId 1 "ann" "bob" ⟨1, "key-1"⟩

end QuoteBook

end Haute.Quotes
