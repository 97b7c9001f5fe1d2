import Haute.Quotes.Ledger
import Haute.Quotes.Ready

/-!
# Whose business a column is

The columns of `Owned` are each some operation's business: an assignee is `assign`'s, the
archived flag `archive`'s and `restore`'s, the stage `finalise`'s and `amend`'s, the note
`set_note`'s, and `create` sets them all. `standing` reads them off the calls that took
effect alone, in which a save sets none of them.

A save writes them all the same, from the copy it read. Where no call names a version ahead
the copy is what it finds (`save_undoes_nothing`), so what a quote holds is what `standing`
says after every run; with a version named ahead a save takes an assignment back
(`save_reassigns`).
-/

namespace Haute.Quotes

open Program

variable {Values Document : Type} {book : QuoteBook Values Document} {s t : Db} {id : Identity}

/-- What a call that took effect sets, over what was set before. -/
def QuoteCall.sets (c : QuoteCall Values Document) (held : Option Owned) : Option Owned :=
  match c with
  | .create _ actor _ moment _ source =>
    some {
      assignee := pyStrip actor
      archived := false
      stage := .draft
      createdDate := day moment
      createdBy := pyStrip actor
      source := source
      handoverNote := none
      noteBy := none
      noteAt := none }
  | .save .. => held
  | .assign _ _ _ assignee _ => held.map fun o => { o with assignee := pyStrip assignee }
  | .archive .. => held.map fun o => { o with archived := true }
  | .restore .. => held.map fun o => { o with archived := false }
  | .amend .. => held.map fun o => { o with stage := .draft }
  | .finalise .. => held.map fun o => { o with stage := .final }
  | .setNote _ actor note stamp => held.map fun o =>
    { o with
      handoverNote := if (pyStrip note).isEmpty then none else some (pyStrip note)
      noteBy := if (pyStrip note).isEmpty then none else some (pyStrip actor)
      noteAt := if (pyStrip note).isEmpty then none else some stamp.moment }

/-- The columns of a quote as the calls that took effect on it set them, oldest first. -/
def standing (es : List (Taken (QuoteCall Values Document) Identity (Except StoreError Answer)))
    (id : Identity) : Option Owned :=
  es.foldl (fun held e => if e.wrote = some id then e.call.sets held else held) none

/-- A change sets what is its business and nothing else of it. -/
theorem owned_changed {c : QuoteCall Values Document} {call : ChangeCall}
    (hcall : c.asChange = some call) (moment : Moment) (actor : String) (quote : QuoteDetails) :
    c.sets (some quote.owned) =
      some (book.changedDetails call.change moment actor quote).owned := by
  cases c with
  | create | save | setNote => cases hcall
  | assign | archive | restore | amend | finalise =>
    cases hcall
    rfl

/-- A careful step that writes a quote sets what is the call's business. -/
theorem CarefulStep.sets {c : QuoteCall Values Document} {a : Option (Except StoreError Answer)}
    (h : CarefulStep book c s (some id) a t) :
    (t.details.get? id).map QuoteDetails.owned =
      c.sets ((s.details.get? id).map QuoteDetails.owned) := by
  obtain ⟨⟨-, hwrote⟩, hcareful⟩ := h
  have hcare := hcareful id rfl
  have hrow : ∀ {row key activity}, Lands s id row key activity t →
      t.details.get? id = some row := by
    intro row key activity hlands
    rw [hlands.details, OrdDict.insert, OrdDict.get?_upsert, if_pos rfl]
  cases hwrote with
  | created typed hnew hoption hlands =>
    rw [hrow hlands]
    rfl
  | saved current typed quote hquote hversion hstage harchived hlands => exact hcare
  | changed hcall quote hquote hversion harchived hstage hlands hrows =>
    rw [hrow hlands, hquote, Option.map_some, Option.map_some, owned_changed hcall]
  | noted quote hquote harchived hlands hrows =>
    rw [hrow hlands, hquote, Option.map_some, Option.map_some]
    rfl

/-- A step leaves every quote it does not write. -/
theorem StepOf.get?_eq {c : QuoteCall Values Document} {w : Option Identity}
    {a : Option (Except StoreError Answer)} (h : StepOf book c s w a t) (hne : w ≠ some id) :
    t.details.get? id = s.details.get? id := by
  rcases w with _ | id'
  · obtain rfl : t = s := h.1
    rfl
  · have hid : id ≠ id' := fun heq => hne (congrArg some heq.symm)
    have hother : ∀ {row key activity}, Lands s id' row key activity t →
        t.details.get? id = s.details.get? id := by
      intro row key activity hlands
      rw [hlands.details, OrdDict.insert, OrdDict.get?_upsert, if_neg hid]
    cases h.2 with
    | created typed hnew hoption hlands => exact hother hlands
    | saved current typed quote hquote hversion hstage harchived hlands => exact hother hlands
    | changed hcall quote hquote hversion harchived hstage hlands hrows => exact hother hlands
    | noted quote hquote harchived hlands hrows => exact hother hlands

namespace QuoteBook

variable {pool pool' : Pool Db (QuoteCall Values Document) Identity (Except StoreError Answer)}
  {e : Taken (QuoteCall Values Document) Identity (Except StoreError Answer)}
  {es : List (Taken (QuoteCall Values Document) Identity (Except StoreError Answer))}

/-- What each quote holds is what the calls that took effect set. -/
theorem owned_eq_standing (hrun : book.machineNamed.Run es pool) (id : Identity) :
    (pool.store.details.get? id).map QuoteDetails.owned = standing es id := by
  refine hrun.invariant
    (P := fun es pool => (pool.store.details.get? id).map QuoteDetails.owned = standing es id) ?_ ?_
  · rintro pool rfl
    rfl
  · rintro es pool e pool' hrun ih hstep
    have hcareful := carefulStep_of_run hrun hstep
    rw [standing, List.foldl_append, ← standing, ← ih]
    simp only [List.foldl_cons, List.foldl_nil]
    split_ifs with hwrote
    · rw [hwrote] at hcareful
      exact CarefulStep.sets hcareful
    · rw [hcareful.1.get?_eq hwrote]

/-- **A save undoes nothing.** Where no save or `finalise` names a version the quote has not
reached when the call reads it, a save that takes effect leaves the columns that are not its
business, and after every run each of them is what the last call whose business it is set. A
call that succeeds took effect, by that step or, repeated with its key, by an earlier one. -/
theorem save_undoes_nothing (hrun : book.machineNamed.Run es pool) :
    (∀ id, (pool.store.details.get? id).map QuoteDetails.owned = standing es id) ∧
      (∀ e pool' id, book.machineNamed.step pool e pool' → e.call.isSave = true →
        e.wrote = some id →
        (pool'.store.details.get? id).map QuoteDetails.owned
          = (pool.store.details.get? id).map QuoteDetails.owned) ∧
      ∀ e pool' answer, book.machineNamed.step pool e pool' → e.answer = some (.ok answer) →
        e.wrote.isSome = true ∨ e.call.Repeats pool.store := by
  refine ⟨owned_eq_standing hrun, fun e pool' id hstep hsave hwrote => ?_,
    fun e pool' answer hstep hanswer => ?_⟩
  · have hcareful := carefulStep_of_run hrun hstep
    rw [hwrote] at hcareful
    rw [CarefulStep.sets hcareful]
    cases hcall : e.call with
    | save => rfl
    | create | assign | archive | restore | amend | finalise | setNote =>
      rw [hcall] at hsave
      cases hsave
  · have haccounted := (carefulStep_of_run hrun hstep).1.accounted
    cases hwrote : e.wrote with
    | none => exact .inr (haccounted.repeated hwrote answer hanswer)
    | some id => exact .inl rfl

/-- The call that saves the first quote over version 2. -/
def saveSecond : QuoteCall Unit Unit := .save firstId "operation-2" 2 "ann" () none 1

/-- The store once the first quote is assigned to another. -/
def assignedQuote : Db := (plain.program assignFirst).after oneQuote

/-- A quote is made, assigned to bob and saved over the version that left: the save's write
leaves it with bob. -/
theorem save_undoes_nothing_saved : ∃ es pool e pool', plain.machineNamed.Run es pool ∧
    plain.machineNamed.step pool e pool' ∧ e.wrote = some firstId ∧
    ((standing es firstId).map Owned.assignee) = some "bob" ∧
    (pool'.store.details.get? firstId).map QuoteDetails.owned = standing es firstId := by
  have hrun := Machine.Run.next (Machine.Run.next (Machine.Run.next
    (Machine.Run.start (m := plain.machineNamed) rfl)
    ⟨fun _ => rfl, .call firstQuote⟩)
    ⟨fun _ => by decide, .call assignFirst⟩)
    ⟨fun _ => by decide, .call saveSecond⟩
  have hstep : plain.machineNamed.step ⟨assignedQuote,
      [(firstQuote, (plain.program firstQuote).rest .empty),
        (assignFirst, (plain.program assignFirst).rest oneQuote),
        (saveSecond, (plain.program saveSecond).rest assignedQuote)]⟩ _ _ := ⟨fun h => (by cases h),
    @Pool.Step.resume _ _ _ _ plain.program _ 2 saveSecond
      ((plain.program saveSecond).rest assignedQuote) rfl rfl⟩
  obtain ⟨hstanding, hsaved, -⟩ := save_undoes_nothing hrun
  have hwrote : ((plain.program saveSecond).rest assignedQuote).wrote assignedQuote =
      some firstId := by
    decide
  exact ⟨_, _, _, _, hrun, hstep, hwrote, by decide,
    (hsaved _ _ firstId hstep rfl hwrote).trans (hstanding firstId)⟩

/-- A save reads a quote at version 1 and names version 2; the quote is assigned to another,
which takes it to version 2; and the save writes the assignee it read. -/
theorem save_reassigns : ¬ ∀ (es : List _) (pool : Pool Db (QuoteCall Unit Unit) Identity _),
    plain.machine.Run es pool →
    (∀ id, (pool.store.details.get? id).map QuoteDetails.owned = standing es id) ∧
      ∀ e pool' id, plain.machine.step pool e pool' → e.call.isSave = true → e.wrote = some id →
        (pool'.store.details.get? id).map QuoteDetails.owned
          = (pool.store.details.get? id).map QuoteDetails.owned := by
  intro hall
  have hrun := Machine.Run.next (Machine.Run.next (Machine.Run.next
    (Machine.Run.start (m := plain.machine) rfl)
    (.call firstQuote)) (.call saveSecond)) (.call assignFirst)
  have hkept := (hall _ _ hrun).2 _ _ firstId
    (@Pool.Step.resume _ _ _ _ plain.program _ 1 saveSecond
      ((plain.program saveSecond).rest oneQuote) rfl rfl) rfl (by decide)
  exact absurd (congrArg (Option.map Owned.assignee) hkept) (by decide)

end QuoteBook

end Haute.Quotes
