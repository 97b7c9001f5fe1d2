import Haute.Data.OrdDict
import Haute.Schema.Labels

/-!
# The quote store's tables

`Db` is the database: `quote_details` by a quote's identity, the form's other tables by the
identity and the row's index, and `haute_activity` by operation key, oldest first. Each is
an `OrdDict`, so a primary key and the unique operation key hold by construction; an
insertion of a key that is held is refused (`insertNew`), which is the database's
`IntegrityError`.

The reads are here too: a quote as its row holds it (`Db.get`), and its rows in every table
(`Db.rows`).
-/

namespace OrdDict

variable {κ ν : Type*} [DecidableEq κ]

/-- Insert a key that is not held. -/
def insertNew (d : OrdDict κ ν) (k : κ) (v : ν) : Option (OrdDict κ ν) :=
  if k ∈ d.keys then none else some (d.insert k v)

theorem insertNew_eq_some {d e : OrdDict κ ν} {k : κ} {v : ν} (h : d.insertNew k v = some e) :
    k ∉ d.keys ∧ e = d.insert k v := by
  unfold insertNew at h
  split_ifs at h with hk
  exact ⟨hk, (Option.some.inj h).symm⟩

/-- A new key goes after the others. -/
theorem entries_insert_of_not_mem {d : OrdDict κ ν} {k : κ} (hk : k ∉ d.keys) (v : ν) :
    (d.insert k v).entries = d.entries ++ [(k, v)] := Assoc.upsert_of_notMem hk _

end OrdDict

namespace Haute.Quotes

/-! ### What the tables hold -/

/-- A moment in UTC, in microseconds. -/
abbrev Moment := ℤ

/-- The date of a moment, in days. -/
def day (moment : Moment) : ℤ := moment / 86400000000

/-- A value of a column. -/
inductive Cell where
  | null
  | text (s : String)
  | tick (b : Bool)
  | number (q : ℚ)
  | day (d : ℤ)
  deriving DecidableEq

/-- Whether a value is empty: text of spaces alone is, and zero and false are values. -/
def Cell.blank : Cell → Bool
  | .null => true
  | .text s => (pyStrip s).isEmpty
  | _ => false

/-- A row of a table, by column name. -/
abbrev Row := List (String × Cell)

/-- A column of a row, null where the row does not name it. -/
def Row.get (row : Row) (column : String) : Cell := (Assoc.get? row column).getD .null

/-- Rows by table name. -/
abbrev Rows := String → Option (List Row)

/-- A quote's reference and option. -/
@[ext]
structure Identity where
  reference : String
  option : ℤ
  deriving DecidableEq

/-- A quote's identity as the app shows it: `ABC-1/2`. -/
def Identity.label (id : Identity) : String := id.reference ++ "/" ++ toString id.option

/-- A quote's stage: draft, which takes saves, or final. -/
inductive Stage where
  | draft
  | final
  deriving DecidableEq

/-- The stage's text. -/
def Stage.name : Stage → String
  | .draft => "draft"
  | .final => "final"

/-- How a quote was made from another. -/
inductive Relation where
  | duplicate
  | renewal
  | alternative
  deriving DecidableEq

/-- The quote a new one is made from, and how. -/
structure Source where
  identity : Identity
  relation : Relation
  deriving DecidableEq

/-- What an activity row records. -/
inductive Action where
  | created
  | saved
  | assigned
  | archived
  | restored
  | finalised
  | amended
  | noted
  deriving DecidableEq

/-- A row of `quote_details`: `typed` are the columns the underwriter types, by name; the
identity is its key. -/
structure QuoteDetails where
  typed : Row
  stage : Stage
  assignee : String
  archived : Bool
  createdDate : ℤ
  createdBy : String
  modifiedDate : ℤ
  modifiedBy : String
  hauteVersion : Option String
  quoteVersion : ℤ
  savedAt : Moment
  savedBy : String
  pricedRelease : Option String
  source : Option Source
  handoverNote : Option String
  noteBy : Option String
  noteAt : Option Moment
  deriving DecidableEq

/-- The row as its form's columns read it. -/
def QuoteDetails.cells (quote : QuoteDetails) (id : Identity) : Row :=
  quote.typed ++
    [("quote_reference", .text id.reference), ("quote_option", .number id.option),
      ("stage", .text quote.stage.name), ("assignee", .text quote.assignee),
      ("archived", .tick quote.archived), ("created_date", .day quote.createdDate),
      ("created_by", .text quote.createdBy), ("modified_date", .day quote.modifiedDate),
      ("modified_by", .text quote.modifiedBy),
      ("haute_version", (quote.hauteVersion.map Cell.text).getD .null)]

/-- A row of `haute_activity`: `quoteVersion` is the version the write left, none for a note,
which moves none; the last four are what the action carried. -/
structure ActivityRow where
  identity : Identity
  quoteVersion : Option ℤ
  occurredAt : Moment
  actor : String
  action : Action
  assignee : Option String := none
  note : Option String := none
  reason : Option String := none
  pricedRelease : Option String := none
  deriving DecidableEq

/-- The primary key of a row of the form's tables. -/
structure RowKey where
  table : String
  identity : Identity
  index : Option Cell
  deriving DecidableEq

/-- The name of the table of the quotes themselves. -/
def quoteDetailsName : String := "quote_details"

/-- A column of the form's schema. -/
structure SchemaColumn where
  name : String
  label : String
  required : Bool

/-- A table of the form's schema: its columns, and the one that numbers the rows of a
many-row table. -/
structure SchemaTable where
  name : String
  columns : List SchemaColumn
  index : Option SchemaColumn

/-- The key of `row` in the table. -/
def SchemaTable.key (table : SchemaTable) (id : Identity) (row : Row) : RowKey :=
  ⟨table.name, id, table.index.map fun column => row.get column.name⟩

/-- The database. -/
structure Db where
  details : OrdDict Identity QuoteDetails
  rowsHeld : OrdDict RowKey Row
  activity : OrdDict String ActivityRow

namespace Db

/-- The store without quotes. -/
def empty : Db := ⟨.empty, .empty, .empty⟩

/-! ### Reading -/

/-- The activity of a quote, oldest first. -/
def activityOf (db : Db) (id : Identity) : List ActivityRow :=
  (db.activity.entries.map Prod.snd).filter fun row => row.identity = id

/-- The newest activity row of a quote that records `action`. -/
def last (db : Db) (id : Identity) (action : Action) : Option ActivityRow :=
  (db.activityOf id).reverse.find? fun row => row.action = action

/-- The newest activity row of a quote that meets `p`. -/
def newest (db : Db) (id : Identity) (p : ActivityRow → Bool) : Option ActivityRow :=
  (db.activityOf id).reverse.find? p

/-- The options held under a reference. -/
def optionsOf (db : Db) (reference : String) : List ℤ :=
  (db.details.keys.filter fun id => id.reference = reference).map Identity.option

/-- The rows held of a quote, in every table but `quote_details`. -/
def heldBy (db : Db) (id : Identity) : OrdDict RowKey Row :=
  db.rowsHeld.filterKeys fun key => key.identity = id

/-- The rows of a quote in one table of the form: its details row, or the rows held, in the
order of their index. -/
def tableRows (db : Db) (indexLe : Cell → Cell → Bool) (table : SchemaTable) (id : Identity) :
    List Row :=
  if table.name = quoteDetailsName then
    ((db.details.get? id).map fun quote => quote.cells id).toList
  else
    let held := ((db.heldBy id).filterKeys fun key => key.table = table.name).entries
    match table.index with
    | none => held.map Prod.snd
    | some column =>
      (held.map Prod.snd).mergeSort fun a b => indexLe (a.get column.name) (b.get column.name)

end Db

end Haute.Quotes
