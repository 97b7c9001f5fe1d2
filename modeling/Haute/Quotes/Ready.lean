import Haute.Quotes.Effects

/-!
# What a call read is what it writes over

A save copies the columns the app sets from a quote it read in an earlier step, and
`finalise` checks a quote in an earlier step than it marks it final. Only the version the
caller names ties the two steps together. `Later` says what may happen between them: a
quote's version never falls, and while it stands nothing but the note changes. So where the
version named is not ahead of the quote's when the call reads it, a swap at that version
finds the quote as it was read (`Later.same`).

Without that (`namesAhead`), the check of `finalise` is skipped, and a quote that another
call moves to the version named is marked final unchecked (`final_unready`). With it,
a quote is marked final only when it is ready, in every interleaving
(`final_only_when_ready`).
-/

namespace Haute.Quotes

open Haute.Data Program

variable {Values Document : Type} {book : QuoteBook Values Document} {r s t : Db} {id : Identity}

/-- A quote's row but for its note, which moves no version. -/
def QuoteDetails.besidesNote (quote : QuoteDetails) : QuoteDetails :=
  { quote with
    handoverNote := none
    noteBy := none
    noteAt := none }

/-! ### What may happen between two steps -/

/-- No version falls, and a quote at the version it was at is the quote it was, but for its
note. -/
def Later (s t : Db) : Prop :=
  ∀ id quote, s.details.get? id = some quote → ∃ quote', t.details.get? id = some quote' ∧
    quote.quoteVersion ≤ quote'.quoteVersion ∧ (quote'.quoteVersion = quote.quoteVersion →
      quote'.besidesNote = quote.besidesNote ∧ t.heldBy id = s.heldBy id)

theorem later_refl (s : Db) : Later s s := fun _ quote h => ⟨quote, h, le_rfl, fun _ => ⟨rfl, rfl⟩⟩

theorem Later.trans (hrs : Later r s) (hst : Later s t) : Later r t := by
  intro id quote hquote
  obtain ⟨quote', hquote', hle, hsame⟩ := hrs id quote hquote
  obtain ⟨quote'', hquote'', hle', hsame'⟩ := hst id quote' hquote'
  refine ⟨quote'', hquote'', hle.trans hle', fun heq => ?_⟩
  obtain ⟨hrow', hheld'⟩ := hsame' (by omega)
  obtain ⟨hrow, hheld⟩ := hsame (by omega)
  exact ⟨hrow'.trans hrow, hheld'.trans hheld⟩

/-- Where only the row of one quote changes, and that moves on or gets a note, the store is
later. -/
theorem Lands.later {row : QuoteDetails} {key : String} {activity : ActivityRow}
    (h : Lands s id row key activity t)
    (hrow : ∀ quote, s.details.get? id = some quote → quote.quoteVersion < row.quoteVersion ∨
      (row.quoteVersion = quote.quoteVersion ∧ row.besidesNote = quote.besidesNote ∧
        t.rowsHeld = s.rowsHeld)) : Later s t := by
  intro id' quote hquote
  by_cases hid : id' = id
  · subst hid
    refine ⟨row, by rw [h.details, OrdDict.insert, OrdDict.get?_upsert, if_pos rfl], ?_⟩
    rcases hrow quote hquote with hlt | ⟨hversion, hsame, hheld⟩
    · exact ⟨hlt.le, fun heq => absurd heq hlt.ne'⟩
    · exact ⟨hversion.ge, fun _ => ⟨hsame, by rw [Db.heldBy, hheld, Db.heldBy]⟩⟩
  · refine ⟨quote, ?_, le_rfl, fun _ => ⟨rfl, h.others id' hid⟩⟩
    rw [h.details, OrdDict.insert, OrdDict.get?_upsert, if_neg hid, hquote]

/-- Every step of every call leaves a later store. -/
theorem StepOf.later {c : QuoteCall Values Document} {w : Option Identity}
    {a : Option (Except StoreError Answer)} (h : StepOf book c s w a t) : Later s t := by
  cases w with
  | none =>
    obtain rfl : t = s := h.1
    exact later_refl t
  | some id =>
    cases h.2 with
    | created typed hnew hoption hlands =>
      exact hlands.later fun quote hquote => absurd (OrdDict.mem_keys_iff.mpr ⟨quote, hquote⟩) hnew
    | saved current typed quote' hquote' hversion hstage harchived hlands =>
      refine hlands.later fun quote hquote => .inl ?_
      obtain rfl : quote = quote' := Option.some.inj (hquote.symm.trans hquote')
      exact lt_add_one quote.quoteVersion
    | changed hcall quote' hquote' hversion harchived hstage hlands hrows =>
      refine hlands.later fun quote hquote => .inl ?_
      obtain rfl : quote = quote' := Option.some.inj (hquote.symm.trans hquote')
      exact lt_add_one quote.quoteVersion
    | noted quote' hquote' harchived hlands hrows =>
      refine hlands.later fun quote hquote => .inr ?_
      obtain rfl : quote = quote' := Option.some.inj (hquote.symm.trans hquote')
      exact ⟨rfl, rfl, hrows⟩

/-! ### The version a call names -/

/-- A save or `finalise` that names a version the quote has not reached. -/
def namesAhead (s : Db) : QuoteCall Values Document → Bool
  | .save id _ version .. => (s.details.get? id).any fun quote => quote.quoteVersion < version
  | .finalise id version .. => (s.details.get? id).any fun quote => quote.quoteVersion < version
  | _ => false

/-- A quote read at the version named or past it, and found at the version named, is the
quote that was read. -/
theorem Later.same (h : Later s t) {quote quote' : QuoteDetails} {version : ℤ}
    (hquote : s.details.get? id = some quote) (hquote' : t.details.get? id = some quote')
    (hahead : ((s.details.get? id).any fun quote => quote.quoteVersion < version) = false)
    (hversion : quote'.quoteVersion = version) : quote.quoteVersion = version ∧
      quote'.besidesNote = quote.besidesNote ∧ t.heldBy id = s.heldBy id := by
  obtain ⟨quote'', hquote'', hle, hsame⟩ := h id quote hquote
  obtain rfl : quote' = quote'' := Option.some.inj (hquote'.symm.trans hquote'')
  have hread : version ≤ quote.quoteVersion := by simpa [hquote] using hahead
  exact ⟨by omega, hsame (by omega)⟩

/-- A quote is priced on `release` and has a value in every required column. -/
def Ready (book : QuoteBook Values Document) (s : Db) (id : Identity) (release : String) : Prop :=
  ((s.details.get? id).map QuoteDetails.pricedRelease) = some (some release) ∧
    book.missing (book.rowsOf s id) = []

/-- The columns of a quote that are another operation's business than a save's. -/
structure Owned where
  assignee : String
  archived : Bool
  stage : Stage
  createdDate : ℤ
  createdBy : String
  source : Option Source
  handoverNote : Option String
  noteBy : Option String
  noteAt : Option Moment
  deriving DecidableEq

/-- Those columns of a row. -/
def QuoteDetails.owned (quote : QuoteDetails) : Owned where
  assignee := quote.assignee
  archived := quote.archived
  stage := quote.stage
  createdDate := quote.createdDate
  createdBy := quote.createdBy
  source := quote.source
  handoverNote := quote.handoverNote
  noteBy := quote.noteBy
  noteAt := quote.noteAt

/-- What a committed save or `finalise` owes the store it was written over: a save keeps what
is not its business, and what is marked final is ready. -/
def Careful (book : QuoteBook Values Document) (c : QuoteCall Values Document) (s : Db)
    (id : Identity) (t : Db) : Prop :=
  match c with
  | .save .. => (t.details.get? id).map QuoteDetails.owned =
    (s.details.get? id).map QuoteDetails.owned
  | .finalise _ _ _ release _ => Ready book s id release
  | _ => True

/-- A step of a call that names no version ahead. -/
def CarefulStep (book : QuoteBook Values Document) (c : QuoteCall Values Document) (s : Db)
    (w : Option Identity) (a : Option (Except StoreError Answer)) (t : Db) : Prop :=
  StepOf book c s w a t ∧ ∀ id, w = some id → Careful book c s id t

namespace QuoteBook

/-- The rows of a quote are the rows held of it, and its details but for the note. -/
theorem rowsOf_congr {quote quote' : QuoteDetails} (hquote : s.details.get? id = some quote)
    (hquote' : t.details.get? id = some quote') (hrow : quote'.besidesNote = quote.besidesNote)
    (hheld : t.heldBy id = s.heldBy id) : book.rowsOf t id = book.rowsOf s id := by
  have hcells : quote'.cells id = quote.cells id := by
    change quote'.besidesNote.cells id = quote.besidesNote.cells id
    rw [hrow]
  refine List.map_congr_left fun table _ => ?_
  rw [Db.tableRows, Db.tableRows, hquote, hquote', hheld]
  simp only [Option.map_some, hcells]

/-- What `finalise` found, where it would swap the quote it checked. -/
theorem checkReady_eq_ok {version : ℤ} {release : String} {quote : QuoteDetails}
    (h : book.checkReady id version release s = .ok ()) (hquote : s.details.get? id = some quote)
    (hat : quote.quoteVersion = version ∧ quote.archived = false ∧ quote.stage = .draft) :
    Ready book s id release := by
  obtain ⟨found, hfound, h⟩ := bind_eq_ok.mp h
  obtain rfl : quote = found.row := Option.some.inj (hquote.symm.trans (getQuote_eq_ok hfound).1)
  rw [if_pos hat] at h
  by_cases hpriced : found.row.pricedRelease = some release
  · by_cases hmissing : book.missing (book.rowsOf s id) = []
    · exact ⟨by rw [hquote, Option.map_some, hpriced], hmissing⟩
    · simp [hpriced, hmissing] at h
  · simp [hpriced] at h
    cases h

/-- What may happen between two steps of a call that must find a quote as it read it. -/
def Onward (s t : Db) : Prop := Later s t ∧ Kept s t

theorem keeping_onward : Keeping Onward where
  trans hrs hst := ⟨hrs.1.trans hst.1, hrs.2.trans hst.2⟩
  kept h := h.2

/-- A save over the quote it read keeps what is not its business. -/
theorem careful_save {operation actor actor' : String} {version : ℤ} {values : Values}
    {priced : Option (PricedOutputs Document)} {moment : Moment} {current : AppQuote}
    {saved : SavedRows} {w : Identity} {a : Answer} {u : Db}
    (hahead : ((s.details.get? id).any fun quote => quote.quoteVersion < version) = false)
    (hcurrent : getQuote s id = .ok current) (hlater : Later s u)
    (h : book.saveTx id operation version actor moment priced
      (book.managed (some current) moment actor) saved u = .ok (t, w, a)) :
    Careful book (.save id operation version actor' values priced moment) u w t := by
  obtain ⟨rfl, quote, hquote, hversion, -, -, hlands⟩ := saveTx_eq_ok h
  obtain ⟨-, hsame, -⟩ := hlater.same (getQuote_eq_ok hcurrent).1 hquote hahead hversion
  change (t.details.get? w).map _ = (u.details.get? w).map _
  rw [hlands.details, OrdDict.insert, OrdDict.get?_upsert, if_pos rfl, hquote, Option.map_some,
    Option.map_some]
  simp only [QuoteDetails.besidesNote, QuoteDetails.mk.injEq] at hsame
  obtain ⟨-, hstage, hassignee, harchived, hdate, hby, -⟩ := hsame
  simp only [QuoteDetails.owned, savedDetails, managed, Option.map_some, Option.getD_some, hstage,
    hassignee, harchived, hdate, hby]

/-- What is marked final over the quote that was checked is ready. -/
theorem careful_finalise {actor actor' release key : String} {version : ℤ}
    {moment : Moment} {stamp : Stamp}
    {w : Identity} {a : Answer} {u : Db}
    (hahead : ((s.details.get? id).any fun quote => quote.quoteVersion < version) = false)
    (hready : book.checkReady id version release s = .ok ()) (hlater : Later s u)
    (h : book.changeTx id version actor moment key finalised u = .ok (t, w, a)) :
    Careful book (.finalise id version actor' release stamp) u w t := by
  obtain ⟨rfl, -, quote, hquote, hversion, harchived, hstage, -⟩ := changeTx_eq_ok h
  obtain ⟨found, hfound, -⟩ := bind_eq_ok.mp hready
  have hs := (getQuote_eq_ok hfound).1
  obtain ⟨hat, hsame, hheld⟩ := hlater.same hs hquote hahead hversion
  have hrows := book.rowsOf_congr hs hquote hsame hheld
  have hdraft : quote.stage = .draft := by
    rcases hstage with hstage | hstage
    · cases hstage
    · exact (Option.some.inj hstage).symm
  have hfields := hsame
  simp only [QuoteDetails.besidesNote, QuoteDetails.mk.injEq] at hfields
  obtain ⟨-, hst, -, har, -, -, -, -, -, -, -, -, hpriced, -⟩ := hfields
  obtain ⟨hrelease, hmissing⟩ :=
    checkReady_eq_ok hready hs ⟨hat, har ▸ harchived, hst ▸ hdraft⟩
  refine ⟨?_, hrows ▸ hmissing⟩
  rw [hquote, Option.map_some, hpriced]
  simpa [hs] using hrelease

/-- Every program of a call that names no version ahead is careful. -/
theorem carefulStep_program (c : QuoteCall Values Document) (s : Db) (hc : namesAhead s c = false) :
    (book.program c).SoundAt (fun _ => True) Onward (CarefulStep book c) s := by
  have hidle : Idle (CarefulStep book c) :=
    fun s a ha => ⟨idle_stepOf book c s a ha, fun _ h => by cases h⟩
  cases c with
  | save id operation version actor values priced moment =>
    refine soundAt_save hidle keeping_onward
      (fun t answer hlanded => ⟨⟨rfl, fun _ _ => hlanded⟩, fun _ h => by cases h⟩)
      fun current saved u t w a hcurrent _ hlater h => ?_
    refine ⟨⟨⟨a, rfl⟩, wrote_save h⟩, fun w' hw' => ?_⟩
    obtain rfl := Option.some.inj hw'
    exact careful_save hc hcurrent hlater.1 h
  | finalise id version actor release stamp =>
    refine soundAt_finalise hidle fun u t w a hready _ hlater h => ?_
    refine ⟨⟨⟨a, rfl⟩, wrote_change rfl h⟩, fun w' hw' => ?_⟩
    obtain rfl := Option.some.inj hw'
    exact careful_finalise hc hready hlater.1 h
  | create | assign | archive | restore | amend | setNote =>
    exact (soundAt_program keeping_onward _ s).mono fun h => ⟨h, fun _ _ => trivial⟩

/-- The interleavings in which no save or `finalise` names a version ahead of the quote's. -/
def machineNamed (book : QuoteBook Values Document) :
    Machine (Pool Db (QuoteCall Values Document) Identity (Except StoreError Answer))
      (Taken (QuoteCall Values Document) Identity (Except StoreError Answer)) :=
  Pool.machineWhere .empty book.program fun s c => namesAhead s c = false

/-- There every step is careful. -/
theorem guaranteed_named (book : QuoteBook Values Document) :
    Guaranteed book.program (fun s c => namesAhead s c = false) (fun _ => True) Onward
      (CarefulStep book) where
  refl s := ⟨later_refl s, kept_refl s⟩
  trans := keeping_onward.trans
  later _ h := ⟨h.1.later, h.1.kept⟩
  keeps _ _ := trivial
  starts c s _ hc := carefulStep_program c s hc

variable {pool pool' : Pool Db (QuoteCall Values Document) Identity (Except StoreError Answer)}
  {e : Taken (QuoteCall Values Document) Identity (Except StoreError Answer)}
  {es : List (Taken (QuoteCall Values Document) Identity (Except StoreError Answer))}

/-- A step in such a run is careful. -/
theorem carefulStep_of_run (hrun : book.machineNamed.Run es pool)
    (hstep : book.machineNamed.step pool e pool') :
    CarefulStep book e.call pool.store e.wrote e.answer pool'.store :=
  book.guaranteed_named.step trivial ⟨es, hrun⟩ hstep

/-! ### Marking final -/

/-- Only `finalise` is a change that makes a draft final. -/
theorem finalise_of_final {c : QuoteCall Values Document} {call : ChangeCall}
    (hcall : c.asChange = some call) {quote : QuoteDetails} (hdraft : quote.stage = .draft)
    (hfinal : (call.change.changed quote).stage = .final) :
    ∃ version actor release stamp, c = .finalise call.id version actor release stamp := by
  cases c with
  | finalise id version actor release stamp =>
    cases hcall
    exact ⟨version, actor, release, stamp, rfl⟩
  | create | save | setNote => cases hcall
  | assign | archive | restore =>
    cases hcall
    exact absurd (hdraft.symm.trans hfinal) (by decide)
  | amend =>
    cases hcall
    cases hfinal

/-- A step that makes a draft final is `finalise`'s, and the quote is ready. -/
theorem CarefulStep.final {c : QuoteCall Values Document} {w : Option Identity}
    {a : Option (Except StoreError Answer)} (h : CarefulStep book c s w a t)
    {quote quote' : QuoteDetails} (hquote : s.details.get? id = some quote)
    (hquote' : t.details.get? id = some quote') (hdraft : quote.stage = .draft)
    (hfinal : quote'.stage = .final) :
    ∃ version actor release stamp, c = .finalise id version actor release stamp ∧
      Ready book s id release := by
  have hmoved : quote ≠ quote' := by
    rintro rfl
    exact absurd (hdraft.symm.trans hfinal) (by decide)
  obtain ⟨hstep, hcareful⟩ := h
  rcases w with _ | id'
  · obtain rfl : t = s := hstep.1
    exact absurd (Option.some.inj (hquote.symm.trans hquote')) hmoved
  · have hother : ∀ {row key activity}, Lands s id' row key activity t →
        (id = id' ∧ quote' = row) := by
      intro row key activity hlands
      rw [hlands.details, OrdDict.insert, OrdDict.get?_upsert] at hquote'
      split_ifs at hquote' with hid
      · exact ⟨hid, (Option.some.inj hquote').symm⟩
      · exact absurd (Option.some.inj (hquote.symm.trans hquote')) hmoved
    have hcare := hcareful id' rfl
    cases hstep.2 with
    | created typed hnew hoption hlands =>
      obtain ⟨rfl, -⟩ := hother hlands
      exact absurd (OrdDict.mem_keys_iff.mpr ⟨quote, hquote⟩) hnew
    | saved current typed found hfound hversion hstage harchived hlands =>
      obtain ⟨rfl, -⟩ := hother hlands
      have hown : quote'.owned = quote.owned := by
        simpa [Careful, hquote, hquote'] using hcare
      have hst : quote'.stage = quote.stage := congrArg Owned.stage hown
      exact absurd ((hdraft.symm.trans hst.symm).trans hfinal) (by decide)
    | changed hcall found hfound hversion harchived hstage hlands hrows =>
      obtain ⟨rfl, rfl⟩ := hother hlands
      obtain rfl : quote = found := Option.some.inj (hquote.symm.trans hfound)
      obtain ⟨version, actor, release, stamp, rfl⟩ := finalise_of_final hcall hdraft hfinal
      exact ⟨version, actor, release, stamp, rfl, hcare⟩
    | noted found hfound harchived hlands hrows =>
      obtain ⟨rfl, rfl⟩ := hother hlands
      obtain rfl : quote = found := Option.some.inj (hquote.symm.trans hfound)
      exact absurd (hdraft.symm.trans hfinal) (by decide)

/-- **A quote becomes final only when it is ready.** Where no save or `finalise` names a
version the quote has not reached when the call reads it, every step that takes a quote from
draft to final is a `finalise` of it, and finds the quote priced on the release it names with
no required column blank. -/
theorem final_only_when_ready (hrun : book.machineNamed.Run es pool)
    (hstep : book.machineNamed.step pool e pool') {quote quote' : QuoteDetails}
    (hquote : pool.store.details.get? id = some quote)
    (hquote' : pool'.store.details.get? id = some quote') (hdraft : quote.stage = .draft)
    (hfinal : quote'.stage = .final) :
    ∃ version actor release stamp, e.call = .finalise id version actor release stamp ∧
      Ready book pool.store id release :=
  CarefulStep.final (carefulStep_of_run hrun hstep) hquote hquote' hdraft hfinal

/-- The call that marks the first quote final at version 2. -/
def finaliseSecond : QuoteCall Unit Unit := .finalise firstId 2 "ann" "r1" ⟨2, "key-2"⟩

/-- The call that saves the first quote at version 1, priced on release `r1`. -/
def saveFirst : QuoteCall Unit Unit := .save firstId "operation-2" 1 "ann" () (some ⟨"r1", ()⟩) 1

/-- The store after that save. -/
def savedQuote : Db :=
  ((plain.program saveFirst).rest oneQuote).after ((plain.program saveFirst).after oneQuote)

/-- A quote made, saved on release `r1` and marked final at the version its save left, is
ready. -/
theorem final_only_when_ready_saved : ∃ version actor release stamp,
    finaliseSecond = .finalise firstId version actor release stamp ∧
      Ready plain ((plain.program finaliseSecond).after savedQuote) firstId release := by
  have hrun := Machine.Run.next (Machine.Run.next (Machine.Run.next (Machine.Run.next
    (Machine.Run.start (m := plain.machineNamed) rfl)
    ⟨fun _ => rfl, .call firstQuote⟩)
    ⟨fun _ => by decide, .call saveFirst⟩)
    ⟨fun h => (by cases h), @Pool.Step.resume _ _ _ _ plain.program _ 1 saveFirst
      ((plain.program saveFirst).rest oneQuote) rfl rfl⟩)
    ⟨fun _ => by decide, .call finaliseSecond⟩
  exact final_only_when_ready hrun
    ⟨fun h => (by cases h), @Pool.Step.resume _ _ _ _ plain.program _ 2 finaliseSecond
      ((plain.program finaliseSecond).rest savedQuote) rfl (by decide)⟩
        (Option.some_get (by decide)).symm
    (Option.some_get (by decide)).symm (by decide) (by decide)

/-- `finalise` names version 2 of a quote at version 1, so it checks nothing; the quote is
assigned, which takes it to version 2; and `finalise` marks it final, never priced. -/
theorem final_unready : ¬ ∀ (es : List _) (pool : Pool Db (QuoteCall Unit Unit) Identity _) e pool'
    id quote quote', plain.machine.Run es pool → plain.machine.step pool e pool' →
    pool.store.details.get? id = some quote → pool'.store.details.get? id = some quote' →
    quote.stage = .draft → quote'.stage = .final →
    ∃ version actor release stamp, e.call = .finalise id version actor release stamp ∧
      Ready plain pool.store id release := by
  intro hall
  have hrun := Machine.Run.next (Machine.Run.next (Machine.Run.next
    (Machine.Run.start (m := plain.machine) rfl)
    (.call firstQuote)) (.call finaliseSecond)) (.call assignFirst)
  obtain ⟨version, actor, release, stamp, -, hpriced, -⟩ := hall _ _ _ _ firstId _ _ hrun
    (@Pool.Step.resume _ _ _ _ plain.program _ 1 finaliseSecond
      ((plain.program finaliseSecond).rest oneQuote) rfl rfl) rfl rfl rfl rfl
  have hunpriced : ((((plain.program assignFirst).after oneQuote).details.get? firstId).map
      QuoteDetails.pricedRelease) = some none := by decide
  cases hunpriced.symm.trans hpriced

end QuoteBook

end Haute.Quotes
