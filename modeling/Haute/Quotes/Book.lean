import Haute.Data.Interleaving
import Haute.Quotes.Tables

/-!
# The quote book

The operations of `QuoteBook` as programs on the database: what they check before they
reach it, each of their reads and transactions as one atomic step, and what they do when a
transaction is rolled back. A transaction is a function of the database, which refuses
(`Refusal`) where the source raises inside its block, and so rolls back.

The form is a parameter: how it types the values of a page and derives the rows of each
table is its own matter, and refuses with an error of its own.
-/

namespace Haute.Quotes

/-- The details the app sets on a write. A new quote's identity is taken as it is written. -/
structure Managed where
  identity : Option Identity
  assignee : String
  archived : Bool
  stage : Stage
  createdDate : ℤ
  createdBy : String
  modifiedDate : ℤ
  modifiedBy : String
  hauteVersion : Option String

/-- A required column without a value: its table, the index of its row in a many-row table,
and the column as its label names it. -/
structure MissingCell where
  table : String
  row : Option Cell
  column : String
  deriving DecidableEq

/-- What the store refuses with. -/
inductive StoreError where
  /-- The text says why. -/
  | invalid (message : String)
  /-- The app keeps no such quote. -/
  | notFound (id : Identity)
  /-- The quote has moved on, with the newest change where its activity names it. -/
  | stale (id : Identity) (last : Option ActivityRow)
  | locked (message : String)
  | notReady (id : Identity) (priced : Option String) (missing : List MissingCell)
  /-- The save landed, and the newest change came after it. -/
  | superseded (landed : ActivityRow) (newest : Option ActivityRow)
  | taken (held : Identity)
  /-- An `IntegrityError` no operation key explains. -/
  | integrity
  deriving DecidableEq

variable {Values Document : Type}

/-- The form: its tables, and how it types a page's values into rows. -/
structure FormSpec (Values Document : Type) where
  tables : List SchemaTable
  /-- The name typed for the quote. -/
  quoteName : Values → Option String
  /-- The typed columns of the `quote_details` row. -/
  typedDetails : Values → Managed → Except StoreError Row
  /-- The rows of every other table with inputs. -/
  sheetRows : Values → Managed → Identity → Except StoreError Rows
  outputRows : Option Document → Identity → Rows
  withOutputs : Rows → Option Document → Except StoreError Rows
  /-- The database's order of an index. -/
  indexLe : Cell → Cell → Bool

/-- A book: its form, the Haute version the app runs, and the Unicode database of its
Python. -/
structure QuoteBook (Values Document : Type) where
  form : FormSpec Values Document
  hauteVersion : Option String
  nfc : String → String
  isControl : Char → Bool

/-- A save's pricing. -/
structure PricedOutputs (Document : Type) where
  release : String
  document : Document

/-- A quote as its row holds it, with who marked it final or archived it and when. -/
structure AppQuote where
  identity : Identity
  row : QuoteDetails
  finalBy : Option (String × Moment)
  archivedBy : Option (String × Moment)
  deriving DecidableEq

/-- A quote with what it holds, by table. -/
structure OpenQuote where
  quote : AppQuote
  rows : List (String × List Row)
  deriving DecidableEq

/-- What a call answers. -/
inductive Answer where
  | opened (quote : OpenQuote)
  | quote (quote : AppQuote)
  deriving DecidableEq

/-! ### Checks -/

/-- `_check_operation`. -/
def checkOperation (operation : String) : Except StoreError Unit :=
  if 8 ≤ operation.length ∧ operation.length ≤ 64 ∧
    operation.toList.all isFilesystemSafe then .ok ()
  else .error
    (.invalid "A write's operation key is 8 to 64 letters, digits, dashes or underscores.")

/-- `_check_principal`. -/
def checkPrincipal (principal what : String) : Except StoreError String :=
  let value := pyStrip principal
  if value.isEmpty ∨ 320 < value.length then
    .error (.invalid (what ++ " is a name of 1 to 320 characters."))
  else .ok value

/-- `_check_name`. -/
def checkName (name : Option String) : Except StoreError Unit :=
  match name with
  | none => .ok ()
  | some name =>
    if 200 < name.length then
      .error (.invalid ("A quote's name is at most 200 characters; this one has "
        ++ toString name.length ++ "."))
    else .ok ()

/-- `check_reference`. -/
def QuoteBook.checkReference (book : QuoteBook Values Document) (reference : Option String) :
    Except StoreError String :=
  let value := book.nfc (pyStrip (reference.getD ""))
  if value.isEmpty then .error (.invalid "Key the quote's reference.")
  else if 40 < value.length then
    .error (.invalid ("A reference is at most 40 characters; this one has "
      ++ toString value.length ++ "."))
  else if value.toList.contains '/' then
    .error (.invalid "A reference holds no /, which the app puts before its option.")
  else if value = "." ∨ value = ".." then
    .error (.invalid "A reference is more than . or .., which an address reads as folders.")
  else if value.toList.any book.isControl then
    .error (.invalid "A reference holds no control characters.")
  else .ok value

namespace QuoteBook

variable (book : QuoteBook Values Document)

/-- The details the app sets on a write of `quote`, none for a new one. -/
def managed (quote : Option AppQuote) (moment : Moment) (actor : String) : Managed where
  identity := quote.map AppQuote.identity
  assignee := (quote.map fun q => q.row.assignee).getD actor
  archived := (quote.map fun q => q.row.archived).getD false
  stage := (quote.map fun q => q.row.stage).getD .draft
  createdDate := (quote.map fun q => q.row.createdDate).getD (day moment)
  createdBy := (quote.map fun q => q.row.createdBy).getD actor
  modifiedDate := day moment
  modifiedBy := actor
  hauteVersion := book.hauteVersion

/-! ### Reading -/

/-- `_get`. -/
def getQuote (db : Db) (id : Identity) : Except StoreError AppQuote :=
  match db.details.get? id with
  | none => .error (.notFound id)
  | some row =>
    let who := fun action => (db.last id action).map fun a => (a.actor, a.occurredAt)
    .ok {
      identity := id
      row := row
      finalBy := if row.stage = .final then who .finalised else none
      archivedBy := if row.archived then who .archived else none }

/-- `_rows`: every form table's rows of the quote, by table name. -/
def rowsOf (db : Db) (id : Identity) : List (String × List Row) :=
  book.form.tables.map fun table => (table.name, db.tableRows book.form.indexLe table id)

/-- `_open`. -/
def openQuote (db : Db) (id : Identity) : Except StoreError OpenQuote :=
  match getQuote db id with
  | .error e => .error e
  | .ok quote => .ok ⟨quote, book.rowsOf db id⟩

/-- `_missing`: each required column without a value. -/
def missing (rows : List (String × List Row)) : List MissingCell :=
  book.form.tables.flatMap fun table =>
    ((Assoc.get? rows table.name).getD []).flatMap fun row =>
      (table.columns.filter fun column => column.required && (row.get column.name).blank).map
        fun column => ⟨table.name, table.index.map fun index => row.get index.name,
          if column.label.isEmpty then column.name else column.label⟩

/-- `_replayed`: the quote the write under `operation`'s key wrote, when it landed. -/
def replayedQuote (db : Db) (operation actor : String) (action : Action) (id : Option Identity) :
    Except StoreError (Option AppQuote) :=
  match db.activity.get? operation with
  | none => .ok none
  | some row =>
    if row.actor ≠ actor ∨ row.action ≠ action ∨ (id.isSome ∧ id ≠ some row.identity) then
      .error (.invalid "This write's operation key was used for another write: make it again.")
    else
      match getQuote db row.identity with
      | .error e => .error e
      | .ok quote =>
        if action = .saved ∧ row.quoteVersion ≠ some quote.row.quoteVersion then
          .error (.superseded row (db.newest row.identity fun a => a.quoteVersion.isSome))
        else .ok (some quote)

/-! ### Writing -/

/-- Why a transaction is rolled back: what it raised, a key held already, no row moved by
its compare-and-swap, or nothing to write because the key's write had landed. -/
inductive Refusal where
  | raised (e : StoreError)
  | integrity
  | notMoved
  | landed (quote : AppQuote)

/-- A database write that may meet a key that is held. -/
def unlessHeld {α : Type} (written : Option α) : Except Refusal α :=
  match written with
  | none => .error .integrity
  | some a => .ok a

/-- What the source raises inside a transaction. -/
def orRaise {α : Type} (made : Except StoreError α) : Except Refusal α :=
  match made with
  | .error e => .error (.raised e)
  | .ok a => .ok a

/-- Insert the rows of one table. -/
def writeTable (table : SchemaTable) (id : Identity) (held : List Row) (rows : OrdDict RowKey Row) :
    Option (OrdDict RowKey Row) :=
  held.foldlM (fun rows row => rows.insertNew (table.key id row) row) rows

/-- `_write_rows`. -/
def writeRows (db : Db) (id : Identity) (rows : Rows) : Option Db :=
  (book.form.tables.foldlM (fun held table => writeTable table id ((rows table.name).getD []) held)
    db.rowsHeld).map fun held => { db with rowsHeld := held }

/-- `_replace_rows`. -/
def replaceRows (db : Db) (id : Identity) (rows : Rows) : Option Db :=
  book.writeRows
    { db with
      rowsHeld := db.rowsHeld.filterKeys fun key => ¬(key.identity = id ∧
        key.table ≠ quoteDetailsName ∧ key.table ∈ book.form.tables.map SchemaTable.name) } id rows

/-- `_record`. -/
def record (db : Db) (operation : String) (row : ActivityRow) : Option Db :=
  (db.activity.insertNew operation row).map fun activity => { db with activity := activity }

/-- `_refuse_taken`: the lowest option held under the reference. -/
def refuseTaken (db : Db) (reference : String) : Except StoreError Unit :=
  match (db.optionsOf reference).min? with
  | none => .ok ()
  | some option => .error (.taken ⟨reference, option⟩)

/-- `_next_option`. Its first statement holds option 1, which it leaves as it is. -/
def nextOption (db : Db) (reference : String) : Except StoreError ℤ :=
  if ⟨reference, 1⟩ ∈ db.details.keys then
    .ok ((db.optionsOf reference).foldl max 1 + 1)
  else .error (.notFound ⟨reference, 1⟩)

/-- The rows but those of `quote_details`. -/
def withoutDetails (rows : Rows) : Rows :=
  fun name => if name = quoteDetailsName then none else rows name

/-- The quote a new one is made from must be held. -/
def checkSource (db : Db) (source : Option Source) : Except StoreError Unit :=
  match source with
  | none => .ok ()
  | some source => (getQuote db source.identity).map fun _ => ()

/-- The identity a new quote is written under. -/
def newIdentity (db : Db) (keyed : Option String) (source : Option Source) :
    Except StoreError Identity := do
  checkSource db source
  match keyed with
  | none =>
    -- only an alternative keys none, so there is a source
    let reference := (source.map fun s => s.identity.reference).getD ""
    let option ← nextOption db reference
    return ⟨reference, option⟩
  | some reference =>
    refuseTaken db reference
    return ⟨reference, 1⟩

/-- The `quote_details` row of a new quote. -/
def newDetails (typed : Row) (managed : Managed) (moment : Moment) (actor : String)
    (source : Option Source) : QuoteDetails where
  typed := typed
  stage := managed.stage
  assignee := managed.assignee
  archived := managed.archived
  createdDate := managed.createdDate
  createdBy := managed.createdBy
  modifiedDate := managed.modifiedDate
  modifiedBy := managed.modifiedBy
  hauteVersion := managed.hauteVersion
  quoteVersion := 1
  savedAt := moment
  savedBy := actor
  pricedRelease := none
  source := source
  handoverNote := none
  noteBy := none
  noteAt := none

/-- `_insert`, in its transaction: the new quote under a reference of its own, or the next
option of its source's. -/
def insert (db : Db) (operation actor : String) (values : Values) (moment : Moment)
    (keyed : Option String) (source : Option Source) : Except Refusal (Db × Identity × Answer) := do
  let id ← orRaise (newIdentity db keyed source)
  let managed := { book.managed none moment actor with identity := some id }
  let typed ← orRaise (book.form.typedDetails values managed)
  let rows ← orRaise (book.form.sheetRows values managed id)
  let details ← unlessHeld (db.details.insertNew id (newDetails typed managed moment actor source))
  let db ← unlessHeld (book.writeRows { db with details := details } id (withoutDetails rows))
  let db ← unlessHeld (record db operation {
    identity := id
    quoteVersion := some 1
    occurredAt := moment
    actor := actor
    action := .created })
  let opened ← orRaise (book.openQuote db id)
  return (db, id, .opened opened)

/-- The transaction of `create`: the key's write is looked up first. -/
def createTx (operation actor : String) (values : Values) (moment : Moment) (keyed : Option String)
    (source : Option Source) (db : Db) : Except Refusal (Db × Identity × Answer) :=
  match replayedQuote db operation actor .created none with
  | .error e => .error (.raised e)
  | .ok (some done) => .error (.landed done)
  | .ok none => book.insert db operation actor values moment keyed source

/-- The rows a save writes: `typed` of its `quote_details` row, and every other table's. -/
structure SavedRows where
  typed : Row
  rows : Rows

/-- The rows of a save, from the page's values and the pricing's document. -/
def saveRows (values : Values) (managed : Managed) (id : Identity)
    (priced : Option (PricedOutputs Document)) : Except StoreError SavedRows := do
  let document := priced.map PricedOutputs.document
  let typed ← book.form.typedDetails values managed
  let inputs ← book.form.sheetRows values managed id
  let outputs := book.form.outputRows document id
  let rows ← book.form.withOutputs (fun name => (outputs name).orElse fun _ => inputs name) document
  return ⟨typed, withoutDetails rows⟩

/-- What a save writes of the `quote_details` row, over the row it finds. -/
def savedDetails (quote : QuoteDetails) (typed : Row) (managed : Managed) (moment : Moment)
    (actor : String) (priced : Option (PricedOutputs Document)) : QuoteDetails :=
  { quote with
    typed := typed
    stage := managed.stage
    assignee := managed.assignee
    archived := managed.archived
    createdDate := managed.createdDate
    createdBy := managed.createdBy
    modifiedDate := managed.modifiedDate
    modifiedBy := managed.modifiedBy
    hauteVersion := managed.hauteVersion
    savedAt := moment
    savedBy := actor
    pricedRelease := priced.map PricedOutputs.release
    quoteVersion := quote.quoteVersion + 1 }

/-- The row an update moves: the quote's, where it meets the update's conditions. -/
def moved (db : Db) (id : Identity) (conditions : QuoteDetails → Bool) :
    Except Refusal QuoteDetails :=
  match db.details.get? id with
  | none => .error .notMoved
  | some quote => if conditions quote then .ok quote else .error .notMoved

/-- The transaction of `save`: a compare-and-swap on the details row, every other table's
rows written again, and the activity row. -/
def saveTx (id : Identity) (operation : String) (version : ℤ) (actor : String) (moment : Moment)
    (priced : Option (PricedOutputs Document)) (managed : Managed) (saved : SavedRows) (db : Db) :
    Except Refusal (Db × Identity × Answer) := do
  let quote ← moved db id fun quote =>
    quote.quoteVersion = version ∧ quote.stage = .draft ∧ quote.archived = false
  let details := db.details.insert id (savedDetails quote saved.typed managed moment actor priced)
  let db ← unlessHeld (book.replaceRows { db with details := details } id saved.rows)
  let db ← unlessHeld (record db operation {
    identity := id
    quoteVersion := some (version + 1)
    occurredAt := moment
    actor := actor
    action := .saved
    pricedRelease := priced.map PricedOutputs.release })
  let opened ← orRaise (book.openQuote db id)
  return (db, id, .opened opened)

/-- A change of a quote over a version: what it records, what it sets, and the flags it is
made at. -/
structure Change where
  action : Action
  changed : QuoteDetails → QuoteDetails
  archived : Bool
  stage : Option Stage := none
  assignee : Option String := none
  reason : Option String := none

/-- The change of `assign`. -/
def assigned (assignee : String) : Change where
  action := .assigned
  changed := fun quote => { quote with assignee := assignee }
  archived := false
  assignee := some assignee

/-- The change of `archive`. -/
def archived : Change where
  action := .archived
  changed := fun quote => { quote with archived := true }
  archived := false

/-- The change of `restore`. -/
def restored : Change where
  action := .restored
  changed := fun quote => { quote with archived := false }
  archived := true

/-- The change of `amend`. -/
def amended (reason : String) : Change where
  action := .amended
  changed := fun quote => { quote with stage := .draft }
  archived := false
  stage := some .final
  reason := some reason

/-- The change of `finalise`. -/
def finalised : Change where
  action := .finalised
  changed := fun quote => { quote with stage := .final }
  archived := false
  stage := some .draft

/-- What a change writes of the row it finds: what it sets, who changed it and when, and its
version moved on. -/
def changedDetails (change : Change) (moment : Moment) (actor : String) (quote : QuoteDetails) :
    QuoteDetails :=
  { change.changed quote with
    modifiedDate := day moment
    modifiedBy := actor
    hauteVersion := book.hauteVersion
    quoteVersion := quote.quoteVersion + 1 }

/-- The transaction of `_change`. -/
def changeTx (id : Identity) (version : ℤ) (actor : String) (moment : Moment) (key : String)
    (change : Change) (db : Db) : Except Refusal (Db × Identity × Answer) := do
  let quote ← moved db id fun quote => quote.quoteVersion = version ∧
    quote.archived = change.archived ∧ (change.stage = none ∨ change.stage = some quote.stage)
  let details := db.details.insert id (book.changedDetails change moment actor quote)
  let db ← unlessHeld (record { db with details := details } key {
    identity := id
    quoteVersion := some (version + 1)
    occurredAt := moment
    actor := actor
    action := change.action
    assignee := change.assignee
    reason := change.reason })
  let quote ← orRaise (getQuote db id)
  return (db, id, .quote quote)

/-- What `set_note` writes of the row it finds: a blank note clears it. -/
def notedDetails (quote : QuoteDetails) (actor note : String) (moment : Moment) : QuoteDetails :=
  { quote with
    handoverNote := if note.isEmpty then none else some note
    noteBy := if note.isEmpty then none else some actor
    noteAt := if note.isEmpty then none else some moment }

/-- The row a note is put on: one in use. -/
def notable (db : Db) (id : Identity) : Except Refusal QuoteDetails :=
  match db.details.get? id with
  | none => .error (.raised (.notFound id))
  | some quote =>
    if quote.archived then
      .error (.raised (.locked (id.label ++ " is archived: restore it to change it.")))
    else .ok quote

/-- The transaction of `set_note`. -/
def noteTx (id : Identity) (actor note : String) (moment : Moment) (key : String) (db : Db) :
    Except Refusal (Db × Identity × Answer) := do
  let quote ← notable db id
  let details := db.details.insert id (notedDetails quote actor note moment)
  let db ← unlessHeld (record { db with details := details } key {
    identity := id
    quoteVersion := none
    occurredAt := moment
    actor := actor
    action := .noted
    note := some note })
  let quote ← orRaise (getQuote db id)
  return (db, id, .quote quote)

end QuoteBook

end Haute.Quotes
