import Haute.Shred.Trace

/-!
# Shredding conserves elements

The reference for one table: `elementsAt` enumerates the elements that the table's array
path reaches, in document order, each with the elements around it, and `outcome` says what
becomes of one. An element of the table's shape is emitted; in an object table one that holds
nothing is passed over; any other is counted. A scalar table's null is a value, and emitted.

`shred_conserves` proves the shred of every table against the reference: its rows are those
of the emitted elements in order, column by column resolved and coerced, and its skip count
is the number of elements counted and of the losses above them, where a value on the way to
the array has another shape. Nothing depends on the order of the descents.
-/

namespace Haute

open Yielded

/-! ### The reference -/

/-- An element a table's array path reaches: its record, the elements around it, and the
value. -/
structure Element where
  record : ℕ
  ancestors : List Value
  value : Value

/-- The elements that some steps reach from a value, in document order. -/
def elementsAt (record : ℕ) : List Step → Value → List Value → List Element
  | [], value, ancestors => [⟨record, ancestors, value⟩]
  | step :: steps, value, ancestors =>
    match followHops value (step.1 ++ [step.2]) with
    | .list items => items.flatMap fun item => elementsAt record steps item (ancestors ++ [value])
    | _ => []

/-- The elements of a table in some records. -/
def elementsOf (spec : EmittingTableSpec) (records : List Value) : List Element :=
  records.zipIdx.flatMap fun r => elementsAt r.2 spec.steps r.1 []

/-- The places above a table's array where its rows are lost: a value that is not an object on
the way to the array, or one that is not an array where the array is. -/
def lossesAbove : List Step → Value → ℕ
  | [], _ => 0
  | step :: steps, value =>
    match value with
    | .dict fields =>
      match followObjects fields [] step.1 with
      | .inl inner =>
        match Value.getKey inner step.2 with
        | .list items =>
          (items.map fun item => if holdsNothing item then 0 else lossesAbove steps item).sum
        | arr => if holdsNothing arr then 0 else 1
      | .inr (_, container) => if holdsNothing container then 0 else 1
    | _ => 1

/-- What becomes of an element of a table. -/
inductive Outcome where
  | emitted
  | counted
  | nothing
  deriving DecidableEq

/-- An element of the table's shape is emitted, one that holds nothing is passed over, and
any other is counted. -/
def EmittingTableSpec.outcome (spec : EmittingTableSpec) (e : Element) : Outcome :=
  if spec.shapeMatches e.value then .emitted
  else if holdsNothing e.value then .nothing
  else .counted

/-- A value that holds nothing is a scalar. -/
theorem isScalar_of_holdsNothing {v : Value} (h : holdsNothing v = true) : v.isScalar = true := by
  cases v <;> first | rfl | simp [holdsNothing] at h

/-- Only an object table passes over an element. -/
theorem outcome_eq_nothing_iff {spec : EmittingTableSpec} {e : Element} :
    spec.outcome e = .nothing ↔ spec.isScalarTable = false ∧ holdsNothing e.value = true := by
  rw [EmittingTableSpec.outcome, EmittingTableSpec.shapeMatches]
  cases hnothing : holdsNothing e.value with
  | false =>
    by_cases hshape : (if spec.isScalarTable then e.value.isScalar else e.value.isDict) = true <;>
      simp [hshape]
  | true =>
    have hscalar := isScalar_of_holdsNothing hnothing
    have hdict := (Value.isScalar_iff.mp hscalar).1
    cases spec.isScalarTable <;> simp [hscalar, hdict]

/-- The reference row of an element: each column's leaf resolved in the element at its depth,
then coerced. -/
def IsRowOf (spec : EmittingTableSpec) (e : Element) (cells : List Value) : Prop :=
  List.Forall₂ (fun column cell => ∃ v,
    resolveLeaf (sourceAt spec.depth e.value e.ancestors column.depth) column.leaf = .ok v ∧
      coerceCell column v = .ok cell) spec.columns cells

/-! ### A trace accounts for the elements -/

/-- What the table does for one element. -/
def elementEvent (spec : EmittingTableSpec) (e : Element) : Yielded ShredEvent :=
  match spec.outcome e with
  | .emitted => deliverRow spec e.value e.ancestors
  | .counted => ⟨[.skip spec.label e.record spec.segments spec.expected], none⟩
  | .nothing => .done

/-- The event is about an element of the table, not about a loss above it. -/
def EmittingTableSpec.owns (spec : EmittingTableSpec) : ShredEvent → Bool
  | .row _ _ => true
  | .skip _ _ place expected => decide (place = spec.segments) && decide (expected ≠ .array)

/-- A trace does for the table exactly what its elements call for, beside so many losses
above them. -/
structure Accounts (spec : EmittingTableSpec) (y : Yielded ShredEvent) (es : List Element)
    (losses : ℕ) : Prop where
  raised : y.raised = none ↔ ∀ e ∈ es, (elementEvent spec e).raised = none
  own : y.raised = none → y.values.filter spec.owns = es.flatMap fun e =>
    (elementEvent spec e).values
  above : y.raised = none → y.values.countP (fun e => !spec.owns e) = losses

namespace Accounts

variable {spec : EmittingTableSpec} {y z : Yielded ShredEvent} {es fs : List Element} {m n : ℕ}

theorem done : Accounts spec .done [] 0 := ⟨by simp, by simp, by simp⟩

/-- Accounts add up one after the other. -/
theorem append (hy : Accounts spec y es m) (hz : Accounts spec z fs n) :
    Accounts spec (y.append z) (es ++ fs) (m + n) := by
  constructor
  · simp only [raised_append_iff, hy.raised, hz.raised, List.mem_append, or_imp, forall_and]
  · intro h
    obtain ⟨hy', hz'⟩ := raised_append_iff.mp h
    rw [values_append hy', List.filter_append, hy.own hy', hz.own hz', List.flatMap_append]
  · intro h
    obtain ⟨hy', hz'⟩ := raised_append_iff.mp h
    rw [values_append hy', List.countP_append, hy.above hy', hz.above hz']

/-- The account of a loop is the sum of its passes'. -/
theorem forEach {α : Type*} {xs : List α} {f : α → Yielded ShredEvent} {es : α → List Element}
    {n : α → ℕ} (h : ∀ x ∈ xs, Accounts spec (f x) (es x) (n x)) :
    Accounts spec (Yielded.forEach xs f) (xs.flatMap es) (xs.map n).sum := by
  induction xs with
  | nil => exact done
  | cons x xs ih =>
    rw [List.flatMap_cons, List.map_cons, List.sum_cons]
    exact (h x List.mem_cons_self).append (ih fun x hx => h x (List.mem_cons_of_mem _ hx))

/-- A loss above the table's elements. -/
theorem loss {record : ℕ} {place : Level} {expected : Expected}
    (h : place = spec.segments → expected = .array) :
    Accounts spec ⟨[.skip spec.label record place expected], none⟩ [] 1 := by
  have hown : spec.owns (.skip spec.label record place expected) = false := by
    rw [EmittingTableSpec.owns, Bool.and_eq_false_iff, decide_eq_false_iff_not,
      decide_eq_false_iff_not, not_not]
    exact (Classical.em _).symm.imp_right h
  refine ⟨by simp, fun _ => ?_, fun _ => ?_⟩
  · rw [List.filter_cons, if_neg (by simp [hown])]
    rfl
  · rw [List.countP_cons, hown]
    rfl

/-- One element is accounted for by one event. -/
theorem element (e : Element) : Accounts spec (elementEvent spec e) [e] 0 := by
  have hown : ∀ event ∈ (elementEvent spec e).values, spec.owns event = true := by
    intro event hevent
    rw [elementEvent] at hevent
    split at hevent
    · cases hrow : readRow spec.columns spec.depth e.value e.ancestors with
      | ok cells =>
        rw [deliverRow, hrow] at hevent
        obtain rfl := List.mem_singleton.mp hevent
        rfl
      | error err =>
        rw [deliverRow, hrow] at hevent
        exact absurd hevent List.not_mem_nil
    · obtain rfl := List.mem_singleton.mp hevent
      rw [EmittingTableSpec.owns, EmittingTableSpec.expected]
      split_ifs <;> simp
    · exact absurd hevent List.not_mem_nil
  refine ⟨by simp, fun _ => ?_, fun _ => ?_⟩
  · rw [List.filter_eq_self.mpr hown, List.flatMap_singleton]
  · rw [List.countP_eq_zero]
    intro event hevent
    simp [hown event hevent]

end Accounts

/-! ### One table's trace -/

/-- Where the objects on a way are found, the keys lead through the last of them. -/
theorem followHops_of_followObjects_inl {fields inner : List (String × Value)}
    {taken hops : List String} (h : followObjects fields taken hops = .inl inner) (key : String) :
    followHops (.dict fields) (hops ++ [key]) = Value.getKey inner key := by
  induction hops generalizing fields taken with
  | nil =>
    cases h
    rw [List.nil_append, followHops]
    cases Value.getKey inner key <;> rfl
  | cons hop hops ih =>
    rw [followObjects] at h
    rw [List.cons_append, followHops]
    split at h
    next inner' hget => rw [hget, ih h]
    · cases h

/-- Where an object on a way is missing, the keys lead nowhere. -/
theorem followHops_of_followObjects_inr {fields : List (String × Value)}
    {taken hops at_ : List String}
    {container : Value} (h : followObjects fields taken hops = .inr (at_, container))
    (key : String) :
    followHops (.dict fields) (hops ++ [key]) = .none := by
  induction hops generalizing fields taken with
  | nil => simp [followObjects] at h
  | cons hop hops ih =>
    rw [followObjects] at h
    rw [List.cons_append, followHops]
    split at h
    next inner' hget => rw [hget, ih h]
    next hget =>
      refine followHops_of_not_isDict ?_ (by simp)
      cases hv : Value.getKey fields hop <;> first | rfl | exact absurd hv (hget _)

theorem length_objectHops (keys : List String) : (objectHops keys).length = keys.length :=
  List.length_map _

/-- The missing object lies on the way. -/
theorem followObjects_inr_length {fields : List (String × Value)} {taken hops at_ : List String}
    {container : Value} (h : followObjects fields taken hops = .inr (at_, container)) :
    at_.length ≤ taken.length + hops.length := by
  induction hops generalizing fields taken with
  | nil => simp [followObjects] at h
  | cons hop hops ih =>
    rw [followObjects] at h
    split at h
    · have := ih h
      simp only [List.length_append, List.length_cons, List.length_nil] at this ⊢
      omega
    · cases h
      simp

/-- **One table's trace accounts for its elements**, from any element above them. -/
theorem tableTrace_accounts {spec : EmittingTableSpec} (record : ℕ) {ps steps : List Step}
    (hsteps : levelOf (ps ++ steps) = spec.segments) (value : Value) (ancestors : List Value)
    (hvalue : steps = [] → spec.outcome ⟨record, ancestors, value⟩ ≠ .nothing) :
    Accounts spec (tableTrace spec record ps steps value ancestors)
      (elementsAt record steps value ancestors) (lossesAbove steps value) := by
  induction steps generalizing ps value ancestors with
  | nil =>
    rw [List.append_nil] at hsteps
    have hevent : tableTrace spec record ps [] value ancestors
        = elementEvent spec ⟨record, ancestors, value⟩ := by
      have hne := hvalue rfl
      rw [tableTrace, emitTable, elementEvent, EmittingTableSpec.outcome, hsteps]
      rw [EmittingTableSpec.outcome] at hne
      by_cases hshape : spec.shapeMatches value = true
      · simp [hshape]
      · simp only [if_neg hshape] at hne ⊢
        rw [if_neg fun h => hne (if_pos h)]
    rw [hevent]
    exact .element _
  | cons step steps ih =>
    have hbelow : levelOf (ps ++ [step] ++ steps) = spec.segments := by
      rw [List.append_assoc]
      exact hsteps
    have hlength : (levelOf (ps ++ [step])).length ≤ spec.segments.length := by
      rw [← hbelow, levelOf_append (ps ++ [step])]
      simp
    -- the walk stops at the first value that is no object, and counts one loss
    cases hdict : value.isDict with
    | false =>
      have hreach : elementsAt record (step :: steps) value ancestors = [] := by
        rw [elementsAt, followHops_of_not_isDict hdict (by simp)]
      have htrace : tableTrace spec record ps (step :: steps) value ancestors
          = ⟨[.skip spec.label record (levelOf ps) .object], none⟩ := by
        cases value <;> first | rfl | simp at hdict
      have hlosses : lossesAbove (step :: steps) value = 1 := by
        cases value <;> first | rfl | simp at hdict
      rw [hreach, htrace, hlosses]
      refine .loss fun h => absurd (congrArg List.length h) ?_
      simp only [levelOf_append, levelOf_cons, stepSegments, List.length_append,
        List.length_cons] at hlength
      omega
    | true =>
      obtain ⟨fields, rfl⟩ := Value.isDict_eq_true_iff.mp hdict
      cases hfollow : followObjects fields [] step.1 with
      | inr stop =>
        obtain ⟨taken, container⟩ := stop
        have hreach : elementsAt record (step :: steps) (.dict fields) ancestors = [] := by
          rw [elementsAt, followHops_of_followObjects_inr hfollow]
        rw [hreach, tableTrace, lossesAbove, hfollow]
        simp only
        split_ifs
        · exact .done
        · refine .loss fun h => absurd (congrArg List.length h) ?_
          have htaken := followObjects_inr_length hfollow
          simp only [levelOf_append, levelOf_cons, stepSegments, List.length_append,
            List.length_cons, length_objectHops] at hlength htaken ⊢
          omega
      | inl inner =>
        rw [elementsAt, followHops_of_followObjects_inl hfollow, tableTrace, lossesAbove, hfollow]
        simp only
        have hnotList (arr : Value) (harr : arr.isList = false) : Accounts spec
            (if holdsNothing arr then .done
              else ⟨[.skip spec.label record (levelOf (ps ++ [step])) .array], none⟩)
            [] (if holdsNothing arr then 0 else 1) := by
          split_ifs
          · exact .done
          · exact .loss fun _ => rfl
        generalize Value.getKey inner step.2 = arr
        cases hlist : arr.isList with
        | false =>
          have := hnotList arr hlist
          cases arr <;> first | exact this | simp at hlist
        | true =>
          obtain ⟨items, rfl⟩ := Value.isList_eq_true_iff.mp hlist
          rw [traceArray]
          refine .forEach fun item _ => ?_
          -- an item that holds nothing is an element, and has none below it
          by_cases hnothing : holdsNothing item = true
          · rw [if_pos hnothing, if_pos hnothing]
            cases steps with
            | nil =>
              have hitem : (if ([] : List Step).isEmpty && spec.isScalarTable then
                  deliverRow spec item (ancestors ++ [.dict fields]) else .done)
                  = elementEvent spec ⟨record, ancestors ++ [.dict fields], item⟩ := by
                rw [elementEvent, EmittingTableSpec.outcome, EmittingTableSpec.shapeMatches]
                have hscalar := isScalar_of_holdsNothing hnothing
                cases spec.isScalarTable with
                | true => simp [hscalar]
                | false => simp [hnothing, (Value.isScalar_iff.mp hscalar).1]
              rw [hitem]
              exact .element _
            | cons next steps =>
              have hreach : elementsAt record (next :: steps) item (ancestors ++ [.dict fields])
                  = [] := by
                rw [elementsAt, followHops_of_not_isDict
                  (Value.isScalar_iff.mp (isScalar_of_holdsNothing hnothing)).1 (by simp)]
              rw [hreach]
              exact .done
          · rw [if_neg hnothing, if_neg hnothing]
            refine ih hbelow item _ fun _ h => hnothing ?_
            exact (outcome_eq_nothing_iff.mp h).2

/-! ### Buffers and counts -/

/-- An event's cells, where it is a row. -/
def ShredEvent.cells? : ShredEvent → Option (List Value)
  | row _ cells => some cells
  | skip _ _ _ _ => none

/-- The event is a loss. -/
def ShredEvent.isSkip (e : ShredEvent) : Bool := e.cells?.isNone

@[simp] theorem ShredEvent.cells?_row (label : String) (cells : List Value) :
    (row label cells).cells? = some cells := rfl

@[simp] theorem ShredEvent.cells?_skip (label : String) (record : ℕ) (place : Level)
    (expected : Expected) : (skip label record place expected).cells? = none := rfl

@[simp] theorem ShredEvent.isSkip_row (label : String) (cells : List Value) :
    (row label cells).isSkip = false := rfl

@[simp] theorem ShredEvent.isSkip_skip (label : String) (record : ℕ) (place : Level)
    (expected : Expected) : (skip label record place expected).isSkip = true := rfl

/-- The events of one table. -/
def eventsOf (label : String) (events : List ShredEvent) : List ShredEvent :=
  events.filter fun e => decide (e.label = label)

@[simp] theorem eventsOf_nil (label : String) : eventsOf label [] = [] := rfl

/-- The events of a table are those under its label. -/
theorem eventsOf_cons (label : String) (e : ShredEvent) (events : List ShredEvent) :
    eventsOf label (e :: events)
      = if e.label = label then e :: eventsOf label events else eventsOf label events := by
  simp [eventsOf, List.filter_cons]

/-- The buffers begin with one empty list for each table. -/
theorem keys_emptyBuffers {specs : List EmittingTableSpec}
    (hn : (specs.map EmittingTableSpec.label).Nodup) :
    (emptyBuffers specs).keys = specs.map EmittingTableSpec.label ∧
      ∀ spec ∈ specs, (emptyBuffers specs).get? spec.label = some [] := by
  have hfold : ∀ (specs : List EmittingTableSpec) (buffers : OrdDict String (List (List Value))),
      (buffers.keys ++ specs.map EmittingTableSpec.label).Nodup →
      (specs.foldl (fun buffers spec => buffers.insert spec.label []) buffers).keys
        = buffers.keys ++ specs.map EmittingTableSpec.label ∧
      ∀ label, (specs.foldl (fun buffers spec => buffers.insert spec.label []) buffers).get? label
        = if label ∈ specs.map EmittingTableSpec.label then some [] else buffers.get? label := by
    intro specs
    induction specs with
    | nil => simp
    | cons spec specs ih =>
      intro buffers hn
      have hnew : spec.label ∉ buffers.keys := fun h =>
        (List.nodup_append.mp hn).2.2 _ h _ (List.mem_map_of_mem List.mem_cons_self) rfl
      have hkeys : (buffers.insert spec.label []).keys = buffers.keys ++ [spec.label] := by
        rw [OrdDict.insert, OrdDict.keys_upsert, if_neg hnew]
      obtain ⟨hk, hg⟩ := ih (buffers.insert spec.label []) (by
        rw [hkeys, List.append_assoc]
        exact hn)
      refine ⟨by rw [List.foldl_cons, hk, hkeys, List.append_assoc]; rfl, fun label => ?_⟩
      rw [List.foldl_cons, hg, OrdDict.insert, OrdDict.get?_upsert]
      by_cases hlabel : label = spec.label <;> simp [hlabel]
  obtain ⟨hk, hg⟩ := hfold specs .empty (by simpa using hn)
  refine ⟨by simpa [emptyBuffers] using hk, fun spec hspec => ?_⟩
  rw [emptyBuffers, hg, if_pos (List.mem_map_of_mem hspec)]

/-- A table's buffer ends with the rows of its events. -/
theorem get?_foldl_buffer {label : String} (events : List ShredEvent)
    {buffers : OrdDict String (List (List Value))} {rows : List (List Value)}
    (h : buffers.get? label = some rows) : (events.foldl ShredEvent.buffer buffers).get? label
      = some (rows ++ (eventsOf label events).filterMap ShredEvent.cells?) := by
  induction events generalizing buffers rows with
  | nil => simpa using h
  | cons e events ih =>
    rw [List.foldl_cons, eventsOf_cons]
    cases e with
    | skip l record place expected =>
      rw [show ShredEvent.buffer buffers (.skip l record place expected) = buffers from rfl, ih h]
      split_ifs <;> simp [List.filterMap_cons]
    | row l cells =>
      rw [ShredEvent.label_row]
      split_ifs with hl
      · subst hl
        rw [@ih _ (rows ++ [cells]) (by simp [ShredEvent.buffer, h])]
        simp
      · rw [@ih _ rows (by rw [ShredEvent.buffer, OrdDict.get?_upsert_ne (Ne.symm hl), h])]

/-- Buffering events adds no table. -/
theorem keys_foldl_buffer (events : List ShredEvent) {buffers : OrdDict String (List (List Value))}
    (h : ∀ e ∈ events, e.label ∈ buffers.keys) :
    (events.foldl ShredEvent.buffer buffers).keys = buffers.keys := by
  induction events generalizing buffers with
  | nil => rfl
  | cons e events ih =>
    have hkeys : (e.buffer buffers).keys = buffers.keys := by
      cases e with
      | skip => rfl
      | row label cells =>
        have hmem : label ∈ buffers.keys := h _ List.mem_cons_self
        rw [ShredEvent.buffer, OrdDict.keys_upsert, if_pos hmem]
    rw [List.foldl_cons, ih fun e he => hkeys ▸ h e (List.mem_cons_of_mem _ he), hkeys]

/-- A table's count grows by the losses among its events. -/
theorem get?_foldl_count (label : String) (events : List ShredEvent) (stats : ShredSkipStats) :
    (events.foldl ShredEvent.count stats).skippedRowsByTable.get? label
      = if (eventsOf label events).countP ShredEvent.isSkip = 0
        then stats.skippedRowsByTable.get? label
        else some (stats.rowSkips label + (eventsOf label events).countP ShredEvent.isSkip) := by
  induction events generalizing stats with
  | nil => simp
  | cons e events ih =>
    rw [List.foldl_cons, ih, eventsOf_cons]
    cases e with
    | row l cells =>
      rw [show ShredEvent.count stats (.row l cells) = stats from rfl, ShredEvent.label_row]
      by_cases hl : l = label
      · rw [if_pos hl, List.countP_cons_of_neg (by simp)]
      · rw [if_neg hl]
    | skip l record place expected =>
      rw [ShredEvent.label_skip]
      by_cases hl : l = label
      · subst hl
        have hget :
            (ShredEvent.count stats (.skip l record place expected)).skippedRowsByTable.get? l
            = some (stats.rowSkips l + 1) := by
          simp [ShredEvent.count, ShredSkipStats.countRowSkip, ShredSkipStats.rowSkips]
        have hskips : (ShredEvent.count stats (.skip l record place expected)).rowSkips l
            = stats.rowSkips l + 1 := by
          rw [ShredSkipStats.rowSkips, hget, Option.getD_some]
        rw [if_pos rfl, List.countP_cons_of_pos (by simp), if_neg (Nat.succ_ne_zero _),
          hget, hskips]
        split_ifs with hzero
        · rw [hzero]
        · rw [add_assoc, Nat.add_comm 1]
      · have hget : (ShredEvent.count stats (.skip l record place expected)).skippedRowsByTable.get?
            label = stats.skippedRowsByTable.get? label := by
          rw [ShredEvent.count, ShredSkipStats.countRowSkip, OrdDict.get?_upsert_ne (Ne.symm hl)]
        rw [if_neg hl, ShredSkipStats.rowSkips, hget]
        rfl

/-- The rows counted as skipped are the table's skip events. -/
theorem rowSkips_foldl_count (label : String) (events : List ShredEvent) (stats : ShredSkipStats) :
    (events.foldl ShredEvent.count stats).rowSkips label
      = stats.rowSkips label + (eventsOf label events).countP ShredEvent.isSkip := by
  rw [ShredSkipStats.rowSkips, get?_foldl_count]
  split_ifs with hzero
  · rw [hzero]
    rfl
  · rfl

/-- Events count no record as skipped. -/
theorem skippedRecords_foldl_count (events : List ShredEvent) (stats : ShredSkipStats) :
    (events.foldl ShredEvent.count stats).skippedRecords = stats.skippedRecords := by
  induction events generalizing stats with
  | nil => rfl
  | cons e events ih =>
    rw [List.foldl_cons, ih]
    cases e <;> rfl

/-! ### The shred and its reference -/

section Reference

variable {spec : EmittingTableSpec} {es : List Element}

/-- The rows among the elements' events are those of the emitted elements. -/
theorem rows_of_elements (hspec : ValidSpec spec)
    (h : ∀ e ∈ es, (elementEvent spec e).raised = none) :
    List.Forall₂ (IsRowOf spec) (es.filter fun e => decide (spec.outcome e = .emitted))
      ((es.flatMap fun e => (elementEvent spec e).values).filterMap ShredEvent.cells?) := by
  induction es with
  | nil => exact .nil
  | cons e es ih =>
    have hrest := ih fun e he => h e (List.mem_cons_of_mem _ he)
    have he := h e List.mem_cons_self
    rw [List.flatMap_cons, List.filterMap_append, List.filter_cons]
    rw [elementEvent] at he ⊢
    cases hout : spec.outcome e with
    | emitted =>
      rw [hout] at he
      obtain ⟨event, hevent⟩ := raised_ofExcept_iff.mp he
      cases hrow : readRow spec.columns spec.depth e.value e.ancestors with
      | error err =>
        rw [hrow] at hevent
        cases hevent
      | ok cells =>
        simp only [deliverRow, hrow]
        exact .cons ((readRow_eq_ok_iff hspec.leaf_ne_nil).mp hrow) hrest
    | counted =>
      rw [if_neg (by simp)]
      exact hrest
    | nothing =>
      rw [if_neg (by simp)]
      exact hrest

/-- The losses among the elements' events are those of the counted elements. -/
theorem skips_of_elements (h : ∀ e ∈ es, (elementEvent spec e).raised = none) :
    (es.flatMap fun e => (elementEvent spec e).values).countP ShredEvent.isSkip
      = es.countP fun e => decide (spec.outcome e = .counted) := by
  induction es with
  | nil => rfl
  | cons e es ih =>
    have he := h e List.mem_cons_self
    rw [List.flatMap_cons, List.countP_append, ih fun e he => h e (List.mem_cons_of_mem _ he),
      List.countP_cons, Nat.add_comm]
    congr 1
    rw [elementEvent] at he ⊢
    cases hout : spec.outcome e with
    | emitted =>
      rw [hout] at he
      obtain ⟨event, hevent⟩ := raised_ofExcept_iff.mp he
      simp only [deliverRow, hevent]
      cases hrow : readRow spec.columns spec.depth e.value e.ancestors with
      | error err =>
        rw [hrow] at hevent
        cases hevent
      | ok cells =>
        rw [hrow] at hevent
        cases hevent
        rfl
    | counted => simp
    | nothing => simp

/-- The events of a table, of which it owns the rows and the losses of elements. -/
theorem tableEvents_accounts (hspec : ValidSpec spec) {records : List Value}
    (hrecords : ∀ r ∈ records, r.isDict = true) :
    Accounts spec (tableEvents spec records) (elementsOf spec records)
      (records.map (lossesAbove spec.steps)).sum := by
  have hzip : records.map (lossesAbove spec.steps)
      = records.zipIdx.map fun r => lossesAbove spec.steps r.1 := by
    conv_lhs => rw [← List.zipIdx_map_fst 0 records]
    rw [List.map_map]
    rfl
  rw [hzip]
  refine .forEach fun r hr => tableTrace_accounts r.2 ?_ r.1 [] fun _ h => ?_
  · rw [List.nil_append, ← EmittingTableSpec.segments_eq hspec.isLevel]
  · have hdict := hrecords r.1 (List.mem_of_getElem? (List.mem_zipIdx_iff_getElem?.mp hr))
    obtain ⟨fields, hfields⟩ := Value.isDict_eq_true_iff.mp hdict
    have := (outcome_eq_nothing_iff.mp h).2
    simp [hfields, holdsNothing] at this

end Reference

/-- What shredding records gives is what their events buffer and count, unless one raises. -/
theorem shredToBuffers_eq_ok_iff {order : Level → List Descent} {records : List Value}
    {config : List (String × Value)} {before stats : ShredSkipStats}
    {specs : List EmittingTableSpec} (hspecs : emittingTableSpecs config = .ok specs)
    {buffers : OrdDict String (List (List Value))} :
    shredToBuffers order records config before = .ok (buffers, stats) ↔
      (shredEvents specs order records).raised = none ∧
      (shredEvents specs order records).values.foldl ShredEvent.buffer (emptyBuffers specs) =
        buffers ∧
      (shredEvents specs order records).values.foldl ShredEvent.count before = stats := by
  rw [shredToBuffers, hspecs]
  change ((shredEvents specs order records).toExcept >>= _) = _ ↔ _
  rw [bind_eq_ok_iff]
  simp only [toExcept_eq_ok_iff]
  constructor
  · rintro ⟨_, ⟨hraised, rfl⟩, hpure⟩
    cases hpure
    exact ⟨hraised, rfl, rfl⟩
  · rintro ⟨hraised, rfl, rfl⟩
    exact ⟨_, ⟨hraised, rfl⟩, rfl⟩

/-- **Shredding conserves elements.** Each table's rows are those of its emitted elements, in
order; each of its elements is emitted, counted or, in an object table, passed over for holding
nothing; and its skip count is the number of elements counted and of the losses above them.
The order of the descents changes neither the rows nor the counts. -/
theorem shred_conserves {config : List (String × Value)} {specs : List EmittingTableSpec}
    (hspecs : emittingTableSpecs config = .ok specs) {order : Level → List Descent}
    (horder : Iterates specs order) {records : List Value}
    (hrecords : ∀ r ∈ records, r.isDict = true) {before stats : ShredSkipStats}
    {buffers : OrdDict String (List (List Value))}
    (hshred : shredToBuffers order records config before = .ok (buffers, stats)) :
    (∀ spec ∈ specs,
      (∃ rows, buffers.get? spec.label = some rows ∧ List.Forall₂ (IsRowOf spec)
        ((elementsOf spec records).filter fun e => decide (spec.outcome e = .emitted)) rows) ∧
      stats.rowSkips spec.label = before.rowSkips spec.label +
        ((elementsOf spec records).countP (fun e => decide (spec.outcome e = .counted)) +
          (records.map (lossesAbove spec.steps)).sum) ∧
      ∀ e ∈ elementsOf spec records, spec.outcome e = .nothing ↔
        spec.isScalarTable = false ∧ holdsNothing e.value = true) ∧
    ∀ order', Iterates specs order' → ∃ stats',
      shredToBuffers order' records config before = .ok (buffers, stats') ∧
      stats'.skippedRecords = stats.skippedRecords ∧
      ∀ label, stats'.skippedRowsByTable.get? label = stats.skippedRowsByTable.get? label := by
  have hvalid := validSpecs_of_emittingTableSpecs hspecs
  obtain ⟨hraised, rfl, rfl⟩ := (shredToBuffers_eq_ok_iff hspecs).mp hshred
  have hwalk := shredEvents_projects hvalid horder records
  have htables := hwalk.raised.mp hraised
  obtain ⟨hkeys, hempty⟩ := keys_emptyBuffers hvalid.nodupLabels
  refine ⟨fun spec hspec => ?_, fun order' horder' => ?_⟩
  · have haccounts := tableEvents_accounts (hvalid.spec spec hspec) hrecords
    have helements := haccounts.raised.mp (htables spec hspec)
    have hown := haccounts.own (htables spec hspec)
    have habove := haccounts.above (htables spec hspec)
    have hevents : eventsOf spec.label (shredEvents specs order records).values
        = (tableEvents spec records).values := hwalk.values hraised spec hspec
    refine ⟨⟨_, get?_foldl_buffer _ (hempty spec hspec), ?_⟩, ?_, fun e _ => outcome_eq_nothing_iff⟩
    · have hrows : (tableEvents spec records).values.filterMap ShredEvent.cells?
          = ((tableEvents spec records).values.filter spec.owns).filterMap ShredEvent.cells? := by
        rw [List.filterMap_filter]
        refine List.filterMap_congr fun e _ => ?_
        cases e with
        | row => rfl
        | skip => exact (ite_self _).symm
      rw [List.nil_append, hevents, hrows, hown]
      exact rows_of_elements (hvalid.spec spec hspec) helements
    · -- a skip is of an element or of what is lost above the elements
      have hskips : (tableEvents spec records).values.countP ShredEvent.isSkip
          = ((tableEvents spec records).values.filter spec.owns).countP ShredEvent.isSkip
            + (tableEvents spec records).values.countP fun e => !spec.owns e := by
        generalize (tableEvents spec records).values = events
        induction events with
        | nil => rfl
        | cons e events ih =>
          rw [List.countP_cons, List.countP_cons, List.filter_cons, ih]
          cases e with
          | row => simp [EmittingTableSpec.owns]
          | skip l record place expected =>
            cases spec.owns (.skip l record place expected) with
            | true => simp [List.countP_cons, Nat.add_right_comm]
            | false => simp [Nat.add_assoc]
      rw [rowSkips_foldl_count, hevents, hskips, hown, habove, skips_of_elements helements]
  · have hwalk' := shredEvents_projects hvalid horder' records
    have hraised' := hwalk'.raised.mpr htables
    -- each table sees its own events in one order, whatever the order of descents
    have hsame : ∀ label, eventsOf label (shredEvents specs order' records).values
        = eventsOf label (shredEvents specs order records).values := by
      intro label
      by_cases hlabel : label ∈ specs.map EmittingTableSpec.label
      · obtain ⟨spec, hspec, rfl⟩ := List.mem_map.mp hlabel
        exact (hwalk'.values hraised' spec hspec).trans (hwalk.values hraised spec hspec).symm
      · have hnone : ∀ events : List ShredEvent,
            (∀ e ∈ events, e.label ∈ specs.map EmittingTableSpec.label) →
              eventsOf label events = [] :=
          fun events h => List.filter_eq_nil_iff.mpr fun e he heq =>
            hlabel (of_decide_eq_true heq ▸ h e he)
        rw [hnone _ hwalk'.labels, hnone _ hwalk.labels]
    have hbuffers : (shredEvents specs order' records).values.foldl ShredEvent.buffer
        (emptyBuffers specs) = (shredEvents specs order records).values.foldl ShredEvent.buffer
          (emptyBuffers specs) := by
      have hkeys' : ∀ {events : List ShredEvent}, (∀ e ∈ events, e.label ∈ specs.map
          EmittingTableSpec.label) → (events.foldl ShredEvent.buffer (emptyBuffers specs)).keys
            = specs.map EmittingTableSpec.label := fun h => by
        rw [keys_foldl_buffer _ (hkeys ▸ h), hkeys]
      refine OrdDict.ext_get? ((hkeys' hwalk'.labels).trans (hkeys' hwalk.labels).symm)
        fun label => ?_
      by_cases hlabel : label ∈ specs.map EmittingTableSpec.label
      · obtain ⟨spec, hspec, rfl⟩ := List.mem_map.mp hlabel
        rw [get?_foldl_buffer _ (hempty spec hspec), get?_foldl_buffer _ (hempty spec hspec), hsame]
      · rw [OrdDict.get?_eq_none_iff.mpr (hkeys' hwalk'.labels ▸ hlabel),
          OrdDict.get?_eq_none_iff.mpr (hkeys' hwalk.labels ▸ hlabel)]
    refine ⟨_, (shredToBuffers_eq_ok_iff hspecs).mpr ⟨hraised', hbuffers, rfl⟩, ?_, fun label => ?_⟩
    · rw [skippedRecords_foldl_count, skippedRecords_foldl_count]
    · rw [get?_foldl_count, get?_foldl_count, hsame]

/-- A table of policies and a scalar table of their tags, which reads them as strings. -/
def tagConfig : List (String × Value) :=
  [("tables", .list [
    .dict [("path", .str "$[:]"), ("label", .str "policies"), ("emit", .bool true),
      ("columns", .list [.dict [("name", .str "id"), ("path", .str "$[:].id"),
        ("type", .str "int"), ("selected", .bool true)]])],
    .dict [("path", .str "$[:].tags[:]"), ("label", .str "tags"), ("emit", .bool true),
      ("columns", .list [
        .dict [("name", .str "id"), ("path", .str "$[:].id"), ("type", .str "int"),
          ("selected", .bool true)],
        .dict [("name", .str "tag"), ("path", .str "$[:].tags[:].$value"), ("type", .str "str"),
          ("selected", .bool true)]])]])]

def tagRecords : List Value :=
  [.dict [("id", .int 1), ("tags", .list [.str "new", .none, .int 7, .dict []])],
    .dict [("id", .int 2), ("tags", .bool true)]]

def tagSpecs : List EmittingTableSpec :=
  [⟨"policies", [], [⟨"id", ["id"], .int, 0⟩], []⟩,
    ⟨"tags", [⟨"tags", true⟩], [⟨"id", ["id"], .int, 0⟩, ⟨"tag", ["$value"], .str, 1⟩], []⟩]

/-- The table of the tags. -/
def tagSpec : EmittingTableSpec :=
  ⟨"tags", [⟨"tags", true⟩], [⟨"id", ["id"], .int, 0⟩, ⟨"tag", ["$value"], .str, 1⟩], []⟩

/-- The tags are conserved: three rows, one element counted and one loss above. -/
theorem shred_conserves_tags :
    (∃ rows, (OrdDict.mk [("policies", [[Value.int 1], [.int 2]]),
        ("tags", [[.int 1, .str "new"], [.int 1, .none], [.int 1, .str "7"]])]
        (by decide)).get? tagSpec.label = some rows ∧ List.Forall₂ (IsRowOf tagSpec)
      ((elementsOf tagSpec tagRecords).filter fun e =>
        decide (tagSpec.outcome e = .emitted)) rows) ∧
    (ShredSkipStats.mk 0 ⟨[("tags", 2)], by decide⟩).rowSkips tagSpec.label
      = ShredSkipStats.empty.rowSkips tagSpec.label +
        ((elementsOf tagSpec tagRecords).countP (fun e => decide (tagSpec.outcome e = .counted)) +
          (tagRecords.map (lossesAbove tagSpec.steps)).sum) ∧
    ∀ e ∈ elementsOf tagSpec tagRecords, tagSpec.outcome e = .nothing ↔
      tagSpec.isScalarTable = false ∧ holdsNothing e.value = true := by
  have hspecs : emittingTableSpecs tagConfig = .ok tagSpecs := by decide +kernel
  exact (@shred_conserves tagConfig tagSpecs hspecs _ (iterates_firstRegistered tagSpecs) tagRecords
    (by decide +kernel) .empty _ _ (by decide +kernel)).1 tagSpec (by decide +kernel)

/-- A scalar table emits a null element, which holds nothing, and a string column's number is
not what its leaf resolves to. -/
theorem null_element_is_emitted :
    (shredToBuffers (firstRegistered tagSpecs) tagRecords tagConfig .empty).map
        (fun result => (result.1.get? "tags", result.2.rowSkips "tags"))
      = .ok (some [[.int 1, .str "new"], [.int 1, .none], [.int 1, .str "7"]], 2) ∧
    holdsNothing .none = true ∧ resolveLeaf (.int 7) [reservedLeaf] = .ok (.int 7) := by
  decide +kernel

end Haute
