import Haute.Data.Answers
import Haute.Quotes.Calls

/-!
# What a call writes

Each transaction is inverted once: `Wrote` says, for a call that commits, which quote it
found, under which conditions, and what row, activity and tables it left. Everything later
is by cases on it. A call's other steps write nothing, neither does one that refuses, and one
that answers with a quote it did not write repeats a write that landed under its key
(`StepOf`).
-/

namespace Haute.Quotes

open Haute.Data Program

variable {Values Document : Type} {book : QuoteBook Values Document} {s t : Db} {id : Identity}

/-! ### Rolling back -/

namespace QuoteBook

theorem unlessHeld_eq_ok {α : Type} {written : Option α} {a : α} :
    unlessHeld written = .ok a ↔ written = some a := by
  cases written <;> simp [unlessHeld]

theorem orRaise_eq_ok {α : Type} {made : Except StoreError α} {a : α} :
    orRaise made = .ok a ↔ made = .ok a := by
  cases made <;> simp [orRaise]

/-- A quote that was read is the row held under its id. -/
theorem getQuote_eq_ok {quote : AppQuote} (h : getQuote s id = .ok quote) :
    s.details.get? id = some quote.row ∧ quote.identity = id := by
  unfold getQuote at h
  split at h
  · cases h
  · next row hrow =>
    cases h
    exact ⟨hrow, rfl⟩

/-! ### The tables of the form -/

/-- A row of one quote is no row of another. -/
private theorem heldBy_insertNew {rows rows' : OrdDict RowKey Row} {key : RowKey} {row : Row}
    (h : rows.insertNew key row = some rows') {id' : Identity} (hne : key.identity ≠ id') :
    (rows'.filterKeys fun k => k.identity = id') = rows.filterKeys fun k => k.identity = id' := by
  obtain ⟨hkey, rfl⟩ := OrdDict.insertNew_eq_some h
  apply OrdDict.ext
  change List.filter _ (rows.insert key row).entries = List.filter _ rows.entries
  rw [OrdDict.entries_insert_of_not_mem hkey, List.filter_append]
  simp [hne]

/-- What every step of a loop keeps, the loop keeps. -/
private theorem foldlM_keeps {α β : Type} {P : β → Prop} {f : β → α → Option β}
    (hf : ∀ b a b', P b → f b a = some b' → P b') {l : List α} {b b' : β} (hb : P b)
    (h : l.foldlM f b = some b') : P b' := by
  induction l generalizing b with
  | nil =>
    obtain rfl : b = b' := by simpa using h
    exact hb
  | cons a l ih =>
    rw [List.foldlM_cons] at h
    obtain ⟨c, hc, h⟩ := Option.bind_eq_some_iff.mp h
    exact ih (hf b a c hb hc) h

/-- Writing rows of one quote leaves the rows of the others, and the other tables. -/
theorem writeRows_eq_some {rows : Rows} (h : book.writeRows s id rows = some t) :
    t.details = s.details ∧ t.activity = s.activity ∧
      ∀ id', id' ≠ id → t.heldBy id' = s.heldBy id' := by
  obtain ⟨held, hheld, rfl⟩ := Option.map_eq_some_iff.mp h
  refine ⟨rfl, rfl, fun id' hne => ?_⟩
  refine foldlM_keeps (P := fun held => (held.filterKeys fun k => k.identity = id') = s.heldBy id')
    (fun held table held' hP htable => ?_) rfl hheld
  refine foldlM_keeps (P := fun held => (held.filterKeys fun k => k.identity = id') = s.heldBy id')
    (fun held row held' hP hrow => ?_) hP htable
  exact (heldBy_insertNew hrow (Ne.symm hne)).trans hP

/-- Replacing one quote's rows keeps the other quotes' rows. -/
theorem replaceRows_eq_some {rows : Rows} (h : book.replaceRows s id rows = some t) :
    t.details = s.details ∧ t.activity = s.activity ∧
      ∀ id', id' ≠ id → t.heldBy id' = s.heldBy id' := by
  obtain ⟨hdetails, hactivity, hothers⟩ := writeRows_eq_some h
  refine ⟨hdetails, hactivity, fun id' hne => (hothers id' hne).trans ?_⟩
  -- only rows of the quote itself were deleted
  apply OrdDict.ext
  change List.filter _ (List.filter _ _) = List.filter _ _
  rw [List.filter_filter]
  refine List.filter_congr fun e _ => ?_
  by_cases he : e.1.identity = id'
  · simp [he, hne]
  · simp [he]

/-- What is recorded is new, and nothing else changes. -/
theorem record_eq_some {operation : String} {row : ActivityRow}
    (h : record s operation row = some t) :
    operation ∉ s.activity.keys ∧ t = { s with activity := s.activity.insert operation row } := by
  obtain ⟨activity, hactivity, rfl⟩ := Option.map_eq_some_iff.mp h
  obtain ⟨hkey, rfl⟩ := OrdDict.insertNew_eq_some hactivity
  exact ⟨hkey, rfl⟩

end QuoteBook

/-! ### What has landed -/

/-- An activity row, once written, is held ever after. -/
def Kept (s t : Db) : Prop :=
  ∀ key row, s.activity.get? key = some row → t.activity.get? key = some row

theorem kept_refl (s : Db) : Kept s s := fun _ _ h => h

theorem Kept.trans {r s t : Db} (hrs : Kept r s) (hst : Kept s t) : Kept r t :=
  fun key row h => hst key row (hrs key row h)

/-- A way of getting later that keeps the activity. -/
structure Keeping (Later : Db → Db → Prop) : Prop where
  trans : ∀ {r s t}, Later r s → Later s t → Later r t
  kept : ∀ {s t}, Later s t → Kept s t

theorem keeping_kept : Keeping Kept where
  trans := Kept.trans
  kept h := h

/-- A write of `action` by `actor` has landed under the key `operation`, of the quote `named`
where one is. -/
def Landed (s : Db) (operation actor : String) (action : Action) (named : Option Identity) : Prop :=
  ∃ row, s.activity.get? operation = some row ∧ row.actor = actor ∧ row.action = action ∧
    ∀ id, named = some id → row.identity = id

/-- What landed stays landed. -/
theorem Landed.kept {operation actor : String} {action : Action} {named : Option Identity}
    (h : Landed s operation actor action named) (hkept : Kept s t) :
    Landed t operation actor action named := by
  obtain ⟨row, hrow, hwhat⟩ := h
  exact ⟨row, hkept operation row hrow, hwhat⟩

/-! ### What a call writes -/

/-- A quote's row and an activity row written under a new key; the rows of other quotes are
as they were. -/
structure Lands (s : Db) (id : Identity) (row : QuoteDetails) (key : String)
    (activity : ActivityRow)
    (t : Db) : Prop where
  details : t.details = s.details.insert id row
  fresh : key ∉ s.activity.keys
  recorded : t.activity = s.activity.insert key activity
  about : activity.identity = id
  others : ∀ id', id' ≠ id → t.heldBy id' = s.heldBy id'

/-- A new activity row leaves those there were. -/
theorem Lands.kept {row : QuoteDetails} {key : String} {activity : ActivityRow}
    (h : Lands s id row key activity t) : Kept s t := by
  intro key' row' hrow
  have hne : key' ≠ key := fun heq => h.fresh (OrdDict.mem_keys_iff.mpr ⟨row', heq ▸ hrow⟩)
  rw [h.recorded, OrdDict.insert, OrdDict.get?_upsert, if_neg hne, hrow]

/-- A call of `_change`: the quote and version it names, and the change it makes. -/
structure ChangeCall where
  id : Identity
  version : ℤ
  actor : String
  stamp : Stamp
  change : QuoteBook.Change

namespace QuoteCall

/-- The change a call makes. -/
def asChange : QuoteCall Values Document → Option ChangeCall
  | .assign id version actor assignee stamp =>
    some ⟨id, version, actor, stamp, QuoteBook.assigned (pyStrip assignee)⟩
  | .archive id version actor stamp => some ⟨id, version, actor, stamp, QuoteBook.archived⟩
  | .restore id version actor stamp => some ⟨id, version, actor, stamp, QuoteBook.restored⟩
  | .amend id version actor reason stamp =>
    some ⟨id, version, actor, stamp, QuoteBook.amended (pyStrip reason)⟩
  | .finalise id version actor _ stamp => some ⟨id, version, actor, stamp, QuoteBook.finalised⟩
  | _ => none

/-- The call saves. -/
def isSave : QuoteCall Values Document → Bool
  | .save .. => true
  | _ => false

/-- The key of a call's activity row. -/
def key : QuoteCall Values Document → String
  | .create operation .. => operation
  | .save _ operation .. => operation
  | .assign _ _ _ _ stamp => stamp.key
  | .archive _ _ _ stamp => stamp.key
  | .restore _ _ _ stamp => stamp.key
  | .amend _ _ _ _ stamp => stamp.key
  | .finalise _ _ _ _ stamp => stamp.key
  | .setNote _ _ _ stamp => stamp.key

/-- A creation or a save whose write has landed under its key already. -/
def Repeats (s : Db) : QuoteCall Values Document → Prop
  | .create operation actor .. => Landed s operation (pyStrip actor) .created none
  | .save id operation _ actor .. => Landed s operation (pyStrip actor) .saved (some id)
  | _ => False

end QuoteCall

/-- The option a new quote takes is the first under its reference, or the next. -/
def NextOption (s : Db) (id : Identity) : Prop :=
  (id.option = 1 ∧ s.optionsOf id.reference = []) ∨
    ((1 : ℤ) ∈ s.optionsOf id.reference ∧
      id.option = (s.optionsOf id.reference).foldl max 1 + 1)

/-- A call that committed: the quote it wrote, what it found and what it left. -/
inductive Wrote (book : QuoteBook Values Document) (s : Db) :
    QuoteCall Values Document → Identity → Db → Prop where
  | created {operation actor : String} {values : Values} {moment : Moment}
      {reference : Option String} {source : Option Source} {id : Identity} {t : Db} (typed : Row)
      (hnew : id ∉ s.details.keys) (hoption : NextOption s id)
      (hlands : Lands s id
        (QuoteBook.newDetails typed (book.managed none moment (pyStrip actor))
          moment (pyStrip actor)
          source) operation
        { identity := id, quoteVersion := some 1, occurredAt := moment, actor := pyStrip actor,
          action := .created } t) :
    Wrote book s (.create operation actor values moment reference source) id t
  | saved {id : Identity} {operation : String} {version : ℤ} {actor : String} {values : Values}
      {priced : Option (PricedOutputs Document)} {moment : Moment} {t : Db} (current : AppQuote)
      (typed : Row) (quote : QuoteDetails) (hquote : s.details.get? id = some quote)
      (hversion : quote.quoteVersion = version) (hstage : quote.stage = .draft)
      (harchived : quote.archived = false)
      (hlands : Lands s id
        (QuoteBook.savedDetails quote typed
          (book.managed (some current) moment (pyStrip actor)) moment
          (pyStrip actor) priced) operation
        { identity := id, quoteVersion := some (version + 1), occurredAt := moment,
          actor := pyStrip actor, action := .saved,
          pricedRelease := priced.map PricedOutputs.release } t) :
    Wrote book s (.save id operation version actor values priced moment) id t
  | changed {c : QuoteCall Values Document} {call : ChangeCall} {t : Db}
    (hcall : c.asChange = some call)
      (quote : QuoteDetails) (hquote : s.details.get? call.id = some quote)
      (hversion : quote.quoteVersion = call.version)
        (harchived : quote.archived = call.change.archived)
      (hstage : call.change.stage = none ∨ call.change.stage = some quote.stage)
      (hlands : Lands s call.id
        (book.changedDetails call.change call.stamp.moment (pyStrip call.actor) quote)
          call.stamp.key
        { identity := call.id, quoteVersion := some (call.version + 1),
          occurredAt := call.stamp.moment, actor := pyStrip call.actor,
          action := call.change.action, assignee := call.change.assignee,
          reason := call.change.reason } t)
      (hrows : t.rowsHeld = s.rowsHeld) : Wrote book s c call.id t
  | noted {id : Identity} {actor note : String} {stamp : Stamp} {t : Db} (quote : QuoteDetails)
      (hquote : s.details.get? id = some quote) (harchived : quote.archived = false)
      (hlands : Lands s id
        (QuoteBook.notedDetails quote (pyStrip actor) (pyStrip note) stamp.moment)
        stamp.key
        { identity := id, quoteVersion := none, occurredAt := stamp.moment, actor := pyStrip actor,
          action := .noted, note := some (pyStrip note) } t)
      (hrows : t.rowsHeld = s.rowsHeld) : Wrote book s (.setNote id actor note stamp) id t

/-! ### The transactions -/

namespace QuoteBook

/-- The next option is one above the highest of a reference in use. -/
theorem nextOption_eq_ok {reference : String} {option : ℤ}
    (h : nextOption s reference = .ok option) :
    (1 : ℤ) ∈ s.optionsOf reference ∧ option = (s.optionsOf reference).foldl max 1 + 1 := by
  unfold nextOption at h
  split_ifs at h with hheld
  refine ⟨?_, (Except.ok.inj h).symm⟩
  exact List.mem_map.mpr ⟨⟨reference, 1⟩, List.mem_filter.mpr ⟨hheld, by simp⟩, rfl⟩

/-- A reference passes as free when it has no options. -/
theorem refuseTaken_eq_ok {reference : String} (h : refuseTaken s reference = .ok ()) :
    s.optionsOf reference = [] := by
  unfold refuseTaken at h
  split at h
  · next hmin => exact List.min?_eq_none_iff.mp hmin
  · cases h

/-- A new quote takes the first option of its own reference, or the next of its source's. -/
theorem newIdentity_eq_ok {keyed : Option String} {source : Option Source}
    (h : newIdentity s keyed source = .ok id) : NextOption s id := by
  unfold newIdentity at h
  obtain ⟨_, -, h⟩ := bind_eq_ok.mp h
  cases keyed with
  | none =>
    obtain ⟨option, hoption, h⟩ := bind_eq_ok.mp h
    cases h
    exact .inr (nextOption_eq_ok hoption)
  | some reference =>
    obtain ⟨_, htaken, h⟩ := bind_eq_ok.mp h
    cases h
    exact .inl ⟨rfl, refuseTaken_eq_ok htaken⟩

/-- What an insert writes: one quote under a new identity, and its activity. -/
theorem insert_eq_ok {operation actor : String} {values : Values} {moment : Moment}
    {keyed : Option String} {source : Option Source} {w : Identity} {a : Answer}
    (h : book.insert s operation actor values moment keyed source = .ok (t, w, a)) :
    w ∉ s.details.keys ∧ NextOption s w ∧ ∃ typed, Lands s w
      (newDetails typed (book.managed none moment actor) moment actor source) operation
      { identity := w, quoteVersion := some 1, occurredAt := moment, actor := actor,
        action := .created } t := by
  obtain ⟨id, hid, h⟩ := bind_eq_ok.mp h
  obtain ⟨typed, -, h⟩ := bind_eq_ok.mp h
  obtain ⟨rows, -, h⟩ := bind_eq_ok.mp h
  obtain ⟨details, hdetails, h⟩ := bind_eq_ok.mp h
  obtain ⟨written, hwritten, h⟩ := bind_eq_ok.mp h
  obtain ⟨recorded, hrecorded, h⟩ := bind_eq_ok.mp h
  obtain ⟨opened, -, h⟩ := bind_eq_ok.mp h
  cases h
  obtain ⟨hnew, rfl⟩ := OrdDict.insertNew_eq_some (unlessHeld_eq_ok.mp hdetails)
  obtain ⟨hd, ha, hothers⟩ := writeRows_eq_some (unlessHeld_eq_ok.mp hwritten)
  obtain ⟨hfresh, rfl⟩ := record_eq_some (unlessHeld_eq_ok.mp hrecorded)
  refine ⟨hnew, newIdentity_eq_ok (orRaise_eq_ok.mp hid), typed, ?_⟩
  exact ⟨hd, ha ▸ hfresh, by rw [ha], rfl, hothers⟩

/-- What is created is an insert. -/
theorem createTx_eq_ok {operation actor : String} {values : Values} {moment : Moment}
    {keyed : Option String} {source : Option Source} {w : Identity} {a : Answer}
    (h : book.createTx operation actor values moment keyed source s = .ok (t, w, a)) :
    book.insert s operation actor values moment keyed source = .ok (t, w, a) := by
  unfold createTx at h
  split at h
  · cases h
  · cases h
  · exact h

/-- What `replayed` finds is a write of the same kind that landed under the key. -/
theorem replayedQuote_eq_ok {operation actor : String} {action : Action} {named : Option Identity}
    {quote : AppQuote} (h : replayedQuote s operation actor action named = .ok (some quote)) :
    Landed s operation actor action named := by
  unfold replayedQuote at h
  split at h
  · cases h
  · next row hrow =>
    split_ifs at h with hother
    rw [not_or, not_or, not_not, not_not] at hother
    obtain ⟨hactor, haction, hnamed⟩ := hother
    refine ⟨row, hrow, hactor, haction, fun id hid => ?_⟩
    by_contra hne
    exact hnamed ⟨by simp [hid], fun h => hne (Option.some.inj (h.symm.trans hid))⟩

/-- Binding what a transaction does otherwise than by finding its key's write landed. -/
private theorem bind_ne_landed {α β : Type} {done : AppQuote} {x : Except Refusal α}
    {f : α → Except Refusal β} (hx : x ≠ .error (.landed done))
    (hf : ∀ a, f a ≠ .error (.landed done)) : (x >>= f) ≠ .error (.landed done) := by
  cases x with
  | error e => simpa [bind, Except.bind] using hx
  | ok a => exact hf a

private theorem unlessHeld_ne_landed {α : Type} (done : AppQuote) (written : Option α) :
    unlessHeld written ≠ .error (.landed done) := by
  cases written <;> simp [unlessHeld]

private theorem orRaise_ne_landed {α : Type} (done : AppQuote) (made : Except StoreError α) :
    orRaise made ≠ .error (.landed done) := by
  cases made <;> simp [orRaise]

/-- An insert never answers that it has already landed. -/
theorem insert_ne_landed {operation actor : String} {values : Values} {moment : Moment}
    {keyed : Option String} {source : Option Source} (done : AppQuote) :
    book.insert s operation actor values moment keyed source ≠ .error (.landed done) := by
  refine bind_ne_landed (orRaise_ne_landed done _) fun id => ?_
  refine bind_ne_landed (orRaise_ne_landed done _) fun typed => ?_
  refine bind_ne_landed (orRaise_ne_landed done _) fun rows => ?_
  refine bind_ne_landed (unlessHeld_ne_landed done _) fun details => ?_
  refine bind_ne_landed (unlessHeld_ne_landed done _) fun written => ?_
  refine bind_ne_landed (unlessHeld_ne_landed done _) fun recorded => ?_
  exact bind_ne_landed (orRaise_ne_landed done _) fun opened h => by cases h

/-- A creation that finds its key's write landed finds one of its own kind. -/
theorem createTx_landed {operation actor : String} {values : Values} {moment : Moment}
    {keyed : Option String} {source : Option Source} {done : AppQuote}
    (h : book.createTx operation actor values moment keyed source s = .error (.landed done)) :
    Landed s operation actor .created none := by
  unfold createTx at h
  split at h
  · cases h
  · next found hfound => exact replayedQuote_eq_ok hfound
  · exact absurd h (insert_ne_landed done)

/-- A quote passes as unmoved when its row meets the conditions. -/
theorem moved_eq_ok {conditions : QuoteDetails → Bool} {quote : QuoteDetails}
    (h : moved s id conditions = .ok quote) :
    s.details.get? id = some quote ∧ conditions quote = true := by
  unfold moved at h
  split at h
  · cases h
  · next quote' hquote =>
    split_ifs at h with hmet
    obtain rfl := Except.ok.inj h
    exact ⟨hquote, hmet⟩

/-- A note goes to a quote that is held and not archived. -/
theorem notable_eq_ok {quote : QuoteDetails} (h : notable s id = .ok quote) :
    s.details.get? id = some quote ∧ quote.archived = false := by
  unfold notable at h
  split at h
  · cases h
  · next quote' hquote =>
    split_ifs at h with harchived
    obtain rfl := Except.ok.inj h
    exact ⟨hquote, by simpa using harchived⟩

/-- What a save writes: the next version of a draft at the version named, and its activity. -/
theorem saveTx_eq_ok {operation actor : String} {version : ℤ} {moment : Moment}
    {priced : Option (PricedOutputs Document)} {managed : Managed}
    {saved : SavedRows} {w : Identity}
    {a : Answer}
    (h : book.saveTx id operation version actor moment priced managed saved s = .ok (t, w, a)) :
    w = id ∧ ∃ quote, s.details.get? id = some quote ∧ quote.quoteVersion = version ∧
      quote.stage = .draft ∧ quote.archived = false ∧
      Lands s id (savedDetails quote saved.typed managed moment actor priced) operation
        { identity := id, quoteVersion := some (version + 1), occurredAt := moment, actor := actor,
          action := .saved, pricedRelease := priced.map PricedOutputs.release } t := by
  obtain ⟨quote, hfound, h⟩ := bind_eq_ok.mp h
  obtain ⟨written, hwritten, h⟩ := bind_eq_ok.mp h
  obtain ⟨recorded, hrecorded, h⟩ := bind_eq_ok.mp h
  obtain ⟨opened, -, h⟩ := bind_eq_ok.mp h
  cases h
  obtain ⟨hd, ha, hothers⟩ := replaceRows_eq_some (unlessHeld_eq_ok.mp hwritten)
  obtain ⟨hfresh, rfl⟩ := record_eq_some (unlessHeld_eq_ok.mp hrecorded)
  obtain ⟨hquote, hat⟩ := moved_eq_ok hfound
  obtain ⟨hversion, hstage, harchived⟩ : _ ∧ _ ∧ _ := by simpa using hat
  exact ⟨rfl, quote, hquote, hversion, hstage, harchived, hd, ha ▸ hfresh, by rw [ha], rfl, hothers⟩

/-- What a change writes: the next version of the quote at the version named, no rows, and its
activity. -/
theorem changeTx_eq_ok {version : ℤ} {actor key : String} {moment : Moment} {change : Change}
    {w : Identity} {a : Answer}
    (h : book.changeTx id version actor moment key change s = .ok (t, w, a)) :
    w = id ∧ t.rowsHeld = s.rowsHeld ∧ ∃ quote, s.details.get? id = some quote ∧
      quote.quoteVersion = version ∧ quote.archived = change.archived ∧
      (change.stage = none ∨ change.stage = some quote.stage) ∧
      Lands s id (book.changedDetails change moment actor quote) key
        { identity := id, quoteVersion := some (version + 1), occurredAt := moment, actor := actor,
          action := change.action, assignee := change.assignee, reason := change.reason } t := by
  obtain ⟨quote, hfound, h⟩ := bind_eq_ok.mp h
  obtain ⟨recorded, hrecorded, h⟩ := bind_eq_ok.mp h
  obtain ⟨answer, -, h⟩ := bind_eq_ok.mp h
  cases h
  obtain ⟨hfresh, rfl⟩ := record_eq_some (unlessHeld_eq_ok.mp hrecorded)
  obtain ⟨hquote, hat⟩ := moved_eq_ok hfound
  obtain ⟨hversion, harchived, hstage⟩ : _ ∧ _ ∧ _ := by simpa using hat
  exact ⟨rfl, rfl, quote, hquote, hversion, harchived, hstage, rfl, hfresh, rfl,
    rfl, fun _ _ => rfl⟩

/-- What a note writes: the quote's note, no version and no rows, and its activity. -/
theorem noteTx_eq_ok {actor note key : String} {moment : Moment} {w : Identity} {a : Answer}
    (h : noteTx id actor note moment key s = .ok (t, w, a)) :
    w = id ∧ t.rowsHeld = s.rowsHeld ∧ ∃ quote, s.details.get? id = some quote ∧
      quote.archived = false ∧ Lands s id (notedDetails quote actor note moment) key
        { identity := id, quoteVersion := none, occurredAt := moment, actor := actor,
          action := .noted, note := some note } t := by
  obtain ⟨quote, hfound, h⟩ := bind_eq_ok.mp h
  obtain ⟨recorded, hrecorded, h⟩ := bind_eq_ok.mp h
  obtain ⟨answer, -, h⟩ := bind_eq_ok.mp h
  cases h
  obtain ⟨hfresh, rfl⟩ := record_eq_some (unlessHeld_eq_ok.mp hrecorded)
  obtain ⟨hquote, harchived⟩ := notable_eq_ok hfound
  exact ⟨rfl, rfl, quote, hquote, harchived, rfl, hfresh, rfl, rfl, fun _ _ => rfl⟩

/-! ### The programs -/

/-- A principal passes without the blanks around it. -/
theorem checkPrincipal_eq_ok {principal what value : String}
    (h : checkPrincipal principal what = .ok value) : value = pyStrip principal := by
  unfold checkPrincipal at h
  dsimp only at h
  split_ifs at h
  exact (Except.ok.inj h).symm

variable {Inv : Db → Prop} {Later : Db → Db → Prop}
  {G : Db → Option Identity → Option (Except StoreError Answer) → Db → Prop}

/-- A quote is read in one of three steps, each at a store later than the last. -/
theorem follows_readQuote {go : OpenQuote → CallProgram} (hidle : Idle G)
    (hlater : Keeping Later)
    (hgo : ∀ opened t, Later s t → (go opened).Follows Inv Later G t) (n : ℕ) :
    (book.readQuote id go n).Follows Inv Later G s := by
  induction n generalizing s with
  | zero => exact follows_error hidle _
  | succ n ih =>
    refine follows_look hidle fun t r _ hst _ => ?_
    split_ifs
    · exact hgo r.1 t hst
    · exact ih fun opened u htu => hgo opened u (hlater.trans hst htu)

/-- What a key's write left is answered at a store in which it landed. -/
theorem follows_replayed {operation actor : String} {action : Action} {named : Option Identity}
    {go : Option OpenQuote → CallProgram} (hidle : Idle G)
    (hlater : Keeping Later)
    (hunmade : ∀ t, Later s t → (go none).Follows Inv Later G t)
    (hgo : ∀ opened t, Landed t operation actor action named →
      (go (some opened)).Follows Inv Later G t)
    (n : ℕ) : (book.replayed operation actor action named go n).Follows Inv Later G s := by
  induction n generalizing s with
  | zero => exact follows_error hidle _
  | succ n ih =>
    refine follows_look hidle fun t r _ hst hr => ?_
    cases r with
    | none => exact hunmade t hst
    | some quote =>
      have hlanded := replayedQuote_eq_ok hr
      refine follows_readQuote hidle hlater (fun opened u htu => ?_) reads
      split_ifs
      · exact hgo opened u (hlanded.kept (hlater.kept htu))
      · exact ih fun v huv => hunmade v (hlater.trans hst (hlater.trans htu huv))

/-- A creation is sound where its transaction is, and where it may answer with what its key
made. -/
theorem soundAt_create {operation actor : String} {values : Values} {moment : Moment}
    {reference : Option String} {source : Option Source} (hidle : Idle G)
    (hlater : Keeping Later)
    (hrepeat : ∀ t answer, Landed t operation (pyStrip actor) .created none →
      G t none (some (.ok answer)) t)
    (hcommit : ∀ keyed t w a, book.createTx operation (pyStrip actor) values moment keyed source s
      = .ok (t, w, a) → G s (some w) (some (.ok a)) t) :
    (book.create operation actor values moment reference source).SoundAt Inv Later G s := by
  refine soundAt_check hidle fun _ _ => soundAt_check hidle fun actor' hactor => ?_
  obtain rfl := checkPrincipal_eq_ok hactor
  dsimp only
  split
  · exact soundAt_error hidle _
  · refine soundAt_check hidle fun keyed _ => soundAt_check hidle fun _ _ => ?_
    refine soundAt_transaction (hcommit keyed) fun refusal hrefused => ?_
    cases refusal with
    | raised e => exact follows_error hidle e
    | notMoved => exact follows_error hidle _
    | landed quote =>
      have hlanded := createTx_landed hrefused
      exact follows_readQuote hidle hlater
        (fun opened t hst => follows_ret (hrepeat t _ (hlanded.kept (hlater.kept hst)))) reads
    | integrity =>
      refine follows_replayed hidle hlater (fun t _ => ?_)
        (fun opened t hlanded => follows_ret (hrepeat t _ hlanded)) reads
      rcases keyed with _ | reference
      · exact follows_error hidle _
      · exact follows_look hidle fun _ _ _ _ _ => follows_error hidle _

/-- A save is sound where its transaction is, at any store later than the one it read, and where
it may answer with what its key wrote. -/
theorem soundAt_save {operation actor : String} {version : ℤ} {values : Values}
    {priced : Option (PricedOutputs Document)} {moment : Moment} (hidle : Idle G)
    (hlater : Keeping Later)
    (hrepeat : ∀ t answer, Landed t operation (pyStrip actor) .saved (some id) →
      G t none (some (.ok answer)) t)
    (hcommit : ∀ current saved u t w a, getQuote s id = .ok current → Inv u → Later s u →
      book.saveTx id operation version (pyStrip actor) moment priced
        (book.managed (some current) moment (pyStrip actor)) saved u = .ok (t, w, a) →
      G u (some w) (some (.ok a)) t) :
    (book.save id operation version actor values priced moment).SoundAt Inv Later G s := by
  refine soundAt_check hidle fun _ _ => soundAt_check hidle fun actor' hactor => ?_
  obtain rfl := checkPrincipal_eq_ok hactor
  refine soundAt_check hidle fun _ _ => soundAt_look hidle fun current hcurrent => ?_
  refine follows_of_soundAt hidle (unanswered_check fun _ => unanswered_transaction) fun u hu hsu =>
    soundAt_check hidle fun saved _ => ?_
  refine soundAt_transaction (fun t w a => hcommit current saved u t w a hcurrent hu hsu)
    fun refusal _ => ?_
  cases refusal with
  | raised e => exact follows_error hidle e
  | integrity =>
    exact follows_replayed hidle hlater (fun _ _ => follows_error hidle _)
      (fun opened t hlanded => follows_ret (hrepeat t _ hlanded)) reads
  | notMoved | landed _ =>
    exact follows_replayed hidle hlater
      (fun _ _ => follows_look hidle fun _ _ _ _ _ => follows_error hidle _)
      (fun opened t hlanded => follows_ret (hrepeat t _ hlanded)) reads

/-- A change is sound where its transaction is: it answers with no quote but the one it wrote. -/
theorem soundAt_change {version : ℤ} {actor : String} {stamp : Stamp} {change : Change}
    (hidle : Idle G)
    (hcommit : ∀ t w a, book.changeTx id version (pyStrip actor) stamp.moment stamp.key change s
      = .ok (t, w, a) → G s (some w) (some (.ok a)) t) :
    (book.change id version actor stamp change).SoundAt Inv Later G s := by
  refine soundAt_check hidle fun actor' hactor => ?_
  obtain rfl := checkPrincipal_eq_ok hactor
  refine soundAt_transaction hcommit fun refusal _ => ?_
  cases refusal with
  | raised e => exact follows_error hidle e
  | integrity => exact follows_error hidle _
  | notMoved | landed _ =>
    exact follows_look hidle fun _ _ _ _ _ => follows_look hidle fun _ _ _ _ _ =>
      follows_error hidle _

/-- Marking final is sound where its swap is, at any store later than the one it checked. -/
theorem soundAt_finalise {version : ℤ} {actor release : String} {stamp : Stamp} (hidle : Idle G)
    (hcommit : ∀ u t w a, book.checkReady id version release s = .ok () → Inv u → Later s u →
      book.changeTx id version (pyStrip actor) stamp.moment stamp.key finalised u = .ok (t, w, a) →
      G u (some w) (some (.ok a)) t) :
    (book.finalise id version actor release stamp).SoundAt Inv Later G s := by
  refine soundAt_look hidle fun _ hready => follows_of_soundAt hidle
    (unanswered_check fun _ => unanswered_transaction) fun u hu hsu => ?_
  exact soundAt_change hidle fun t w a => hcommit u t w a hready hu hsu

/-- A note is sound where its transaction is. -/
theorem soundAt_setNote {actor note : String} {stamp : Stamp} (hidle : Idle G)
    (hcommit : ∀ t w a, noteTx id (pyStrip actor) (pyStrip note) stamp.moment stamp.key s
      = .ok (t, w, a) → G s (some w) (some (.ok a)) t) :
    (setNote id actor note stamp).SoundAt Inv Later G s := by
  refine soundAt_check hidle fun actor' hactor => ?_
  obtain rfl := checkPrincipal_eq_ok hactor
  refine soundAt_transaction hcommit fun refusal _ => ?_
  cases refusal <;> exact follows_error hidle _

end QuoteBook

/-! ### What a step of a call does -/

/-- What any step of a call does to the store: nothing, and then a quote is answered only where
the call's own write had landed; or what `Wrote` says, with the call answered by it. -/
def StepOf (book : QuoteBook Values Document) (c : QuoteCall Values Document) (s : Db)
    (w : Option Identity) (a : Option (Except StoreError Answer)) (t : Db) : Prop :=
  match w with
  | none => t = s ∧ ∀ answer, a = some (.ok answer) → c.Repeats s
  | some id => (∃ answer, a = some (.ok answer)) ∧ Wrote book s c id t

namespace QuoteBook

/-- A committed creation, as `Wrote` says it. -/
theorem wrote_create {operation actor : String} {values : Values} {moment : Moment}
    {reference keyed : Option String} {source : Option Source} {w : Identity} {a : Answer}
    (h : book.createTx operation (pyStrip actor) values moment keyed source s = .ok (t, w, a)) :
    Wrote book s (.create operation actor values moment reference source) w t := by
  obtain ⟨hnew, hoption, typed, hlands⟩ := insert_eq_ok (createTx_eq_ok h)
  exact .created typed hnew hoption hlands

/-- A save that commits wrote what a save writes. -/
theorem wrote_save {operation actor : String} {version : ℤ} {values : Values}
    {priced : Option (PricedOutputs Document)} {moment : Moment} {current : AppQuote}
    {saved : SavedRows} {w : Identity} {a : Answer}
    (h : book.saveTx id operation version (pyStrip actor) moment priced
      (book.managed (some current) moment (pyStrip actor)) saved s = .ok (t, w, a)) :
    Wrote book s (.save id operation version actor values priced moment) w t := by
  obtain ⟨rfl, quote, hquote, hversion, hstage, harchived, hlands⟩ := saveTx_eq_ok h
  exact .saved current saved.typed quote hquote hversion hstage harchived hlands

/-- A change that commits wrote what a change writes. -/
theorem wrote_change {c : QuoteCall Values Document} {call : ChangeCall}
    (hcall : c.asChange = some call) {w : Identity} {a : Answer}
    (h : book.changeTx call.id call.version (pyStrip call.actor) call.stamp.moment call.stamp.key
      call.change s = .ok (t, w, a)) : Wrote book s c w t := by
  obtain ⟨rfl, hrows, quote, hquote, hversion, harchived, hstage, hlands⟩ := changeTx_eq_ok h
  exact .changed hcall quote hquote hversion harchived hstage hlands hrows

/-- A note that commits wrote what a note writes. -/
theorem wrote_note {actor note : String} {stamp : Stamp} {w : Identity} {a : Answer}
    (h : noteTx id (pyStrip actor) (pyStrip note) stamp.moment stamp.key s = .ok (t, w, a)) :
    Wrote book s (.setNote id actor note stamp) w t := by
  obtain ⟨rfl, hrows, quote, hquote, harchived, hlands⟩ := noteTx_eq_ok h
  exact .noted quote hquote harchived hlands hrows

/-- A step that answers with an error, or not yet, need only leave the store. -/
theorem idle_stepOf (book : QuoteBook Values Document) (c : QuoteCall Values Document) :
    Idle (StepOf book c) :=
  fun _ _ ha => ⟨rfl, fun answer h => absurd h (ha answer)⟩

/-- Every step of every call's program does what `StepOf` says, whatever others did between
its steps, as long as they kept the activity. -/
theorem soundAt_program {Later : Db → Db → Prop} (hlater : Keeping Later)
    (c : QuoteCall Values Document) (s : Db) :
    (book.program c).SoundAt (fun _ => True) Later (StepOf book c) s := by
  have hidle := idle_stepOf book c
  cases c with
  | create operation actor values moment reference source =>
    exact soundAt_create hidle hlater (fun t answer hlanded => ⟨rfl, fun _ _ => hlanded⟩)
      fun keyed t w a h => ⟨⟨a, rfl⟩, wrote_create h⟩
  | save id operation version actor values priced moment =>
    exact soundAt_save hidle hlater (fun t answer hlanded => ⟨rfl, fun _ _ => hlanded⟩)
      fun current saved u t w a _ _ _ h => ⟨⟨a, rfl⟩, wrote_save h⟩
  | assign id version actor assignee stamp =>
    refine soundAt_check hidle fun assignee' hassignee => ?_
    obtain rfl := checkPrincipal_eq_ok hassignee
    exact soundAt_change hidle fun t w a h => ⟨⟨a, rfl⟩, wrote_change rfl h⟩
  | archive id version actor stamp =>
    exact soundAt_change hidle fun t w a h => ⟨⟨a, rfl⟩, wrote_change rfl h⟩
  | restore id version actor stamp =>
    exact soundAt_change hidle fun t w a h => ⟨⟨a, rfl⟩, wrote_change rfl h⟩
  | amend id version actor reason stamp =>
    simp only [program]
    split_ifs
    · exact soundAt_error hidle _
    · exact soundAt_change hidle fun t w a h => ⟨⟨a, rfl⟩, wrote_change rfl h⟩
  | finalise id version actor release stamp =>
    exact soundAt_finalise hidle fun u t w a _ _ _ h => ⟨⟨a, rfl⟩, wrote_change rfl h⟩
  | setNote id actor note stamp =>
    exact soundAt_setNote hidle fun t w a h => ⟨⟨a, rfl⟩, wrote_note h⟩

end QuoteBook

/-- A step of a call writes the call's own activity and keeps the rest. -/
theorem StepOf.kept {c : QuoteCall Values Document} {w : Option Identity}
    {a : Option (Except StoreError Answer)} (h : StepOf book c s w a t) : Kept s t := by
  cases w with
  | none =>
    obtain rfl : t = s := h.1
    exact kept_refl t
  | some id =>
    cases h.2 with
    | created typed hnew hoption hlands => exact hlands.kept
    | saved current typed quote hquote hversion hstage harchived hlands => exact hlands.kept
    | changed hcall quote hquote hversion harchived hstage hlands hrows => exact hlands.kept
    | noted quote hquote harchived hlands hrows => exact hlands.kept

end Haute.Quotes
