import Haute.Quotes.Effects

/-!
# The versions and the activity of a quote

`Numbered` is the invariant of the store: a quote at version `n` has one activity row for
each of `1` to `n`, in that order, and the options under a reference are `1` to `k`. Every
call that commits keeps it, whoever else is in flight, because it is inverted into one of
three ways of going on (`Advances`): a new quote at version 1, a quote moved on by one, or a
note, which moves no version.

`Accounted` is what one step of one call may do; `quote_store_loses_no_update` has both, for
every interleaving.
-/

namespace Haute.Quotes

variable {Values Document : Type} {book : QuoteBook Values Document} {s t : Db} {id : Identity}

/-! ### Lists of versions and options -/

/-- The versions `1` to `n`. -/
def upTo (n : ℤ) : List ℤ := (List.range n.toNat).map fun i : ℕ => (i : ℤ) + 1

theorem upTo_succ {n : ℤ} (hn : 0 ≤ n) : upTo (n + 1) = upTo n ++ [n + 1] := by
  obtain ⟨m, rfl⟩ := Int.eq_ofNat_of_zero_le hn
  have hm : ((m : ℤ) + 1).toNat = m + 1 := by omega
  rw [upTo, upTo, hm, List.range_succ, List.map_append]
  simp

/-- The largest of a list that holds `k` and nothing above it. -/
theorem foldl_max_eq {k a : ℤ} {l : List ℤ} (ha : a ≤ k) (hk : k ∈ l ∨ a = k)
    (hle : ∀ x ∈ l, x ≤ k) : l.foldl max a = k := by
  induction l generalizing a with
  | nil => simpa using hk
  | cons x l ih =>
    rw [List.foldl_cons]
    refine ih (max_le ha (hle x List.mem_cons_self)) ?_ fun y hy =>
      hle y (List.mem_cons_of_mem _ hy)
    rcases hk with hk | rfl
    · rcases List.mem_cons.mp hk with rfl | hk
      · exact .inr (max_eq_right ha)
      · exact .inl hk
    · exact .inr (max_eq_left (hle x List.mem_cons_self))

namespace Db

/-- The versions the activity of a quote holds, oldest first. -/
def versionsOf (db : Db) (id : Identity) : List ℤ :=
  (db.activityOf id).filterMap ActivityRow.quoteVersion

theorem mem_optionsOf {reference : String} {option : ℤ} :
    option ∈ s.optionsOf reference ↔ ⟨reference, option⟩ ∈ s.details.keys := by
  unfold optionsOf
  constructor
  · intro h
    obtain ⟨id, hmem, rfl⟩ := List.mem_map.mp h
    obtain ⟨hheld, href⟩ := List.mem_filter.mp hmem
    have href : id.reference = reference := by simpa using href
    exact href ▸ hheld
  · intro h
    exact List.mem_map.mpr ⟨⟨reference, option⟩, List.mem_filter.mpr ⟨h, by simp⟩, rfl⟩

end Db

/-! ### What landing leaves -/

namespace Lands

variable {row : QuoteDetails} {key : String} {activity : ActivityRow}

theorem get? (h : Lands s id row key activity t) (id' : Identity) :
    t.details.get? id' = if id' = id then some row else s.details.get? id' := by
  rw [h.details, OrdDict.insert, OrdDict.get?_upsert]

theorem mem_keys (h : Lands s id row key activity t) {id' : Identity} :
    id' ∈ t.details.keys ↔ id' = id ∨ id' ∈ s.details.keys := by
  rw [h.details, OrdDict.insert, OrdDict.mem_keys_upsert]

theorem activity_entries (h : Lands s id row key activity t) :
    t.activity.entries = s.activity.entries ++ [(key, activity)] := by
  rw [h.recorded, OrdDict.entries_insert_of_not_mem h.fresh]

theorem activity_keys (h : Lands s id row key activity t) :
    t.activity.keys = s.activity.keys ++ [key] := by
  rw [h.recorded, OrdDict.insert, OrdDict.keys_upsert, if_neg h.fresh]

/-- The activity of a quote grows by its own. -/
theorem activityOf (h : Lands s id row key activity t) (id' : Identity) :
    t.activityOf id' = s.activityOf id' ++ if id' = id then [activity] else [] := by
  rw [Db.activityOf, Db.activityOf, h.activity_entries, List.map_append, List.filter_append]
  congr 1
  by_cases hid : id' = id
  · simp [hid, h.about]
  · simp [hid, h.about, Ne.symm hid]

theorem versionsOf (h : Lands s id row key activity t) (id' : Identity) :
    t.versionsOf id' = s.versionsOf id' ++ if id' = id then activity.quoteVersion.toList
      else [] := by
  rw [Db.versionsOf, h.activityOf, List.filterMap_append, Db.versionsOf]
  congr 1
  split_ifs
  · cases hv : activity.quoteVersion <;> simp [hv]
  · rfl

end Lands

/-! ### The invariant -/

/-- How a committed call takes a quote on. -/
def Advances (s : Db) (id : Identity) (row : QuoteDetails) (activity : ActivityRow) : Prop :=
  (id ∉ s.details.keys ∧ NextOption s id ∧ row.quoteVersion = 1 ∧ activity.quoteVersion = some 1) ∨
  ∃ quote, s.details.get? id = some quote ∧
    ((row.quoteVersion = quote.quoteVersion + 1 ∧ activity.quoteVersion =
      some (quote.quoteVersion + 1)) ∨
      (row.quoteVersion = quote.quoteVersion ∧ activity.quoteVersion = none))

/-- The versions of each quote are its activity's, and the options of each reference are the
first ones. -/
structure Numbered (db : Db) : Prop where
  versions : ∀ id quote, db.details.get? id = some quote →
    1 ≤ quote.quoteVersion ∧ db.versionsOf id = upTo quote.quoteVersion
  unmade : ∀ id, id ∉ db.details.keys → db.activityOf id = []
  options : ∀ reference, ∃ k : ℤ, 0 ≤ k ∧
    ∀ option, ⟨reference, option⟩ ∈ db.details.keys ↔ 1 ≤ option ∧ option ≤ k

theorem numbered_empty : Numbered .empty where
  versions id quote h := by simp [Db.empty] at h
  unmade _ _ := rfl
  options _ := ⟨0, le_rfl, fun option => by
    simp only [Db.empty, OrdDict.keys_empty, List.not_mem_nil, false_iff]
    omega⟩

/-- The next option under a reference is one more than there are. -/
theorem Numbered.nextOption (hs : Numbered s) (h : NextOption s id) :
    ∃ k : ℤ, 0 ≤ k ∧ id.option = k + 1 ∧
      ∀ option, ⟨id.reference, option⟩ ∈ s.details.keys ↔ 1 ≤ option ∧ option ≤ k := by
  obtain ⟨k, hk, hoptions⟩ := hs.options id.reference
  refine ⟨k, hk, ?_, hoptions⟩
  rcases h with ⟨hone, hnone⟩ | ⟨hone, hmax⟩
  · -- no option is held, so `k` is 0
    have hnot : ¬ (1 ≤ k) := by
      intro hk1
      have hheld := Db.mem_optionsOf.mpr ((hoptions 1).mpr ⟨le_rfl, hk1⟩)
      rw [hnone] at hheld
      exact List.not_mem_nil hheld
    omega
  · have hk1 : 1 ≤ k := ((hoptions 1).mp (Db.mem_optionsOf.mp hone)).2
    rw [hmax, foldl_max_eq hk1 (.inl (Db.mem_optionsOf.mpr ((hoptions k).mpr ⟨hk1, le_rfl⟩)))
      fun x hx => ((hoptions x).mp (Db.mem_optionsOf.mp hx)).2]

/-- Going on keeps the numbering. -/
theorem Numbered.lands {row : QuoteDetails} {key : String} {activity : ActivityRow}
    (hs : Numbered s) (h : Lands s id row key activity t) (hadv : Advances s id row activity) :
    Numbered t where
  versions id' quote' hquote' := by
    rw [h.get?] at hquote'
    rw [h.versionsOf]
    split_ifs at hquote' with hid
    · obtain rfl := Option.some.inj hquote'
      rw [if_pos hid, hid]
      rcases hadv with ⟨hnew, -, hrow, hact⟩ | ⟨quote, hquote, hmove⟩
      · have hversions : s.versionsOf id = [] := by rw [Db.versionsOf, hs.unmade id hnew]; rfl
        rw [hversions, hact, hrow]
        exact ⟨le_rfl, rfl⟩
      · obtain ⟨hone, hversions⟩ := hs.versions id quote hquote
        rcases hmove with ⟨hrow, hact⟩ | ⟨hrow, hact⟩
        · rw [hversions, hact, hrow, upTo_succ (by omega)]
          exact ⟨by omega, rfl⟩
        · rw [hversions, hact, hrow]
          exact ⟨hone, List.append_nil _⟩
    · rw [if_neg hid, List.append_nil]
      exact hs.versions id' quote' hquote'
  unmade id' hid' := by
    rw [h.mem_keys, not_or] at hid'
    rw [h.activityOf, if_neg hid'.1, List.append_nil]
    exact hs.unmade id' hid'.2
  options reference := by
    by_cases hheld : id ∈ s.details.keys
    · -- the quote was held, so the options are what they were
      obtain ⟨k, hk, hoptions⟩ := hs.options reference
      refine ⟨k, hk, fun option => ?_⟩
      rw [h.mem_keys, ← hoptions]
      constructor
      · rintro (heq | hmem)
        · exact heq ▸ hheld
        · exact hmem
      · exact .inr
    · have hnext : NextOption s id := by
        rcases hadv with ⟨-, hnext, -, -⟩ | ⟨quote, hquote, -⟩
        · exact hnext
        · exact absurd (OrdDict.mem_keys_iff.mpr ⟨quote, hquote⟩) hheld
      by_cases href : reference = id.reference
      · obtain ⟨k, hk, hoption, hoptions⟩ := hs.nextOption hnext
        refine ⟨k + 1, by omega, fun option => ?_⟩
        rw [h.mem_keys, href, hoptions, Identity.ext_iff]
        simp only [true_and]
        omega
      · obtain ⟨k, hk, hoptions⟩ := hs.options reference
        refine ⟨k, hk, fun option => ?_⟩
        rw [h.mem_keys, ← hoptions, Identity.ext_iff]
        simp [href]

/-! ### What a call does to the ledger -/

namespace QuoteCall

/-- The quote and version a call names. -/
def names : QuoteCall Values Document → Option (Identity × ℤ)
  | .save id _ version .. => some (id, version)
  | c => c.asChange.map fun call => (call.id, call.version)

/-- Whether a call moves its quote's version: a note does not. -/
def versioned : QuoteCall Values Document → Bool
  | .setNote .. => false
  | _ => true

/-- The call restores `id`. -/
def Restores (c : QuoteCall Values Document) (id : Identity) : Prop :=
  ∃ version actor stamp, c = .restore id version actor stamp

/-- Only restoring is a change made where a quote is archived. -/
theorem restores_of_archived {c : QuoteCall Values Document} {call : ChangeCall}
    (hcall : c.asChange = some call) (harchived : call.change.archived = true) :
    c.Restores call.id := by
  cases c with
  | restore id version actor stamp =>
    cases hcall
    exact ⟨version, actor, stamp, rfl⟩
  | create | save | setNote => cases hcall
  | assign | archive | amend | finalise =>
    cases hcall
    cases harchived

theorem names_of_asChange {c : QuoteCall Values Document} {call : ChangeCall}
    (hcall : c.asChange = some call) : c.names = some (call.id, call.version) ∧
      c.key = call.stamp.key ∧ c.versioned = true ∧ c.isSave = false := by
  cases c <;> cases hcall <;> exact ⟨rfl, rfl, rfl, rfl⟩

end QuoteCall

/-- A committed call lands its row and its activity under its own key, going on from what it
found. -/
theorem Wrote.lands {c : QuoteCall Values Document} (h : Wrote book s c id t) :
    ∃ row activity, Lands s id row c.key activity t ∧ Advances s id row activity ∧
      (c.versioned = true → activity.quoteVersion = some row.quoteVersion) := by
  cases h with
  | created typed hnew hoption hlands =>
    exact ⟨_, _, hlands, .inl ⟨hnew, hoption, rfl, rfl⟩, fun _ => rfl⟩
  | saved current typed quote hquote hversion hstage harchived hlands =>
    subst hversion
    exact ⟨_, _, hlands, .inr ⟨quote, hquote, .inl ⟨rfl, rfl⟩⟩, fun _ => rfl⟩
  | changed hcall quote hquote hversion harchived hstage hlands hrows =>
    obtain ⟨-, hkey, -, -⟩ := QuoteCall.names_of_asChange hcall
    rw [hkey]
    refine ⟨_, _, hlands, .inr ⟨quote, hquote, .inl ⟨rfl, ?_⟩⟩, fun _ => ?_⟩
    · rw [hversion]
    · rw [QuoteBook.changedDetails, hversion]
  | noted quote hquote harchived hlands hrows =>
    exact ⟨_, _, hlands, .inr ⟨quote, hquote, .inr ⟨rfl, rfl⟩⟩, fun h => by cases h⟩

/-- What one step of a call may do: `wrote` is the quote it wrote and `answer` what the call
answered by it. -/
structure Accounted (c : QuoteCall Values Document) (s : Db) (wrote : Option Identity)
    (answer : Option (Except StoreError Answer)) (t : Db) : Prop where
  /-- A step that writes no quote leaves every table. -/
  untouched : wrote = none → t = s
  /-- A step that writes is the call's last, and the call succeeds. -/
  answered : ∀ id, wrote = some id → ∃ quote, answer = some (.ok quote)
  /-- A call that succeeds by a step that writes nothing is a creation or a save whose own write
  landed before, under the call's key. -/
  repeated : wrote = none → ∀ quote, answer = some (.ok quote) → c.Repeats s
  /-- A version moves on by one, with one activity row that holds it. -/
  numbers : ∀ id, wrote = some id → c.versioned = true → ∃ row activity,
    t.details.get? id = some row ∧
    ((s.details.get? id = none ∧ row.quoteVersion = 1) ∨
      ∃ quote, s.details.get? id = some quote ∧ row.quoteVersion = quote.quoteVersion + 1) ∧
    t.activity.entries = s.activity.entries ++ [(c.key, activity)] ∧ activity.identity = id ∧
    activity.quoteVersion = some row.quoteVersion
  /-- A change is made of the quote it names, at the version it names. -/
  named : ∀ id id' version, wrote = some id → c.names = some (id', version) →
    id' = id ∧ ∃ quote, s.details.get? id = some quote ∧ quote.quoteVersion = version
  /-- A key that has taken effect writes nothing. -/
  once : c.key ∈ s.activity.keys → t = s
  /-- An archived quote changes only by being restored. -/
  archived : ∀ id quote, s.details.get? id = some quote → quote.archived = true →
    (t.details.get? id = some quote ∧ t.heldBy id = s.heldBy id ∧ t.activityOf id =
      s.activityOf id) ∨
      c.Restores id
  /-- A final quote takes no save. -/
  final : ∀ id quote, wrote = some id → s.details.get? id = some quote → quote.stage = .final →
    c.isSave = false

/-- What landing leaves of another quote. -/
theorem Lands.other {row : QuoteDetails} {key : String} {activity : ActivityRow} {id' : Identity}
    (h : Lands s id row key activity t) (hne : id' ≠ id) :
    t.details.get? id' = s.details.get? id' ∧ t.heldBy id' = s.heldBy id' ∧
      t.activityOf id' = s.activityOf id' := by
  refine ⟨by rw [h.get?, if_neg hne], h.others id' hne, ?_⟩
  rw [h.activityOf, if_neg hne, List.append_nil]

/-- A committed call found the quote it names at the version it names. -/
theorem Wrote.named {c : QuoteCall Values Document} (h : Wrote book s c id t) {id' : Identity}
    {version : ℤ} (hnames : c.names = some (id', version)) :
    id' = id ∧ ∃ quote, s.details.get? id = some quote ∧ quote.quoteVersion = version := by
  cases h with
  | created typed hnew hoption hlands => cases hnames
  | saved current typed quote hquote hversion hstage harchived hlands =>
    cases hnames
    exact ⟨rfl, quote, hquote, hversion⟩
  | changed hcall quote hquote hversion harchived hstage hlands hrows =>
    rw [(QuoteCall.names_of_asChange hcall).1] at hnames
    cases hnames
    exact ⟨rfl, quote, hquote, hversion⟩
  | noted quote hquote harchived hlands hrows => cases hnames

/-- A call that committed on an archived quote restores it. -/
theorem Wrote.restores {c : QuoteCall Values Document} (h : Wrote book s c id t)
    {quote : QuoteDetails} (hquote : s.details.get? id = some quote)
    (harchived : quote.archived = true) :
    c.Restores id := by
  cases h with
  | created typed hnew hoption hlands =>
    exact absurd (OrdDict.mem_keys_iff.mpr ⟨quote, hquote⟩) hnew
  | saved current typed quote' hquote' hversion hstage hin hlands =>
    obtain rfl : quote = quote' := Option.some.inj (hquote.symm.trans hquote')
    rw [hin] at harchived
    cases harchived
  | changed hcall quote' hquote' hversion hat hstage hlands hrows =>
    obtain rfl : quote = quote' := Option.some.inj (hquote.symm.trans hquote')
    exact QuoteCall.restores_of_archived hcall (hat ▸ harchived)
  | noted quote' hquote' hin hlands hrows =>
    obtain rfl : quote = quote' := Option.some.inj (hquote.symm.trans hquote')
    rw [hin] at harchived
    cases harchived

/-- A save that committed found a draft. -/
theorem Wrote.draft {c : QuoteCall Values Document} (h : Wrote book s c id t)
    {quote : QuoteDetails} (hquote : s.details.get? id = some quote)
    (hfinal : quote.stage = .final) :
    c.isSave = false := by
  cases h with
  | created typed hnew hoption hlands => rfl
  | saved current typed quote' hquote' hversion hstage harchived hlands =>
    obtain rfl : quote = quote' := Option.some.inj (hquote.symm.trans hquote')
    rw [hstage] at hfinal
    cases hfinal
  | changed hcall quote' hquote' hversion harchived hstage hlands hrows =>
    exact (QuoteCall.names_of_asChange hcall).2.2.2
  | noted quote' hquote' harchived hlands hrows => rfl

/-- A step of any call is accounted for. -/
theorem StepOf.accounted {c : QuoteCall Values Document} {w : Option Identity}
    {a : Option (Except StoreError Answer)} (h : StepOf book c s w a t) : Accounted c s w a t := by
  cases w with
  | none =>
    obtain ⟨rfl, hrepeated⟩ := h
    exact {
      untouched := fun _ => rfl
      answered := fun id hid => by cases hid
      repeated := fun _ => hrepeated
      numbers := fun id hid => by cases hid
      named := fun id _ _ hid => by cases hid
      once := fun _ => rfl
      archived := fun id quote hquote _ => .inl ⟨hquote, rfl, rfl⟩
      final := fun id quote hid => by cases hid }
  | some id =>
    obtain ⟨⟨quote, ha⟩, hwrote⟩ := h
    obtain ⟨row, activity, hlands, hadv, hversion⟩ := hwrote.lands
    refine ⟨fun hw => (by cases hw), fun _ _ => ⟨quote, ha⟩, fun hw => (by cases hw),
      fun id' hid' hversioned => ?_,
      fun id' _ _ hid' hnames => ?_, fun hkey => absurd hkey hlands.fresh,
      fun id' quote' hquote' harchived => ?_, fun id' quote' hid' hquote' hfinal => ?_⟩
    · obtain rfl := Option.some.inj hid'
      refine ⟨row, activity, by rw [hlands.get?, if_pos rfl], ?_, hlands.activity_entries,
        hlands.about, hversion hversioned⟩
      rcases hadv with ⟨hnew, -, hrow, -⟩ | ⟨quote, hquote, ⟨hrow, -⟩ | ⟨-, hact⟩⟩
      · exact .inl ⟨OrdDict.get?_eq_none_iff.mpr hnew, hrow⟩
      · exact .inr ⟨quote, hquote, hrow⟩
      · rw [hversion hversioned] at hact
        cases hact
    · obtain rfl := Option.some.inj hid'
      exact hwrote.named hnames
    · by_cases hid : id' = id
      · subst hid
        exact .inr (hwrote.restores hquote' harchived)
      · obtain ⟨hdetails, hheld, hactivity⟩ := hlands.other hid
        exact .inl ⟨hdetails.trans hquote', hheld, hactivity⟩
    · obtain rfl := Option.some.inj hid'
      exact hwrote.draft hquote' hfinal

/-! ### Every interleaving -/

namespace QuoteBook

/-- Every call does what `StepOf` says in every interleaving. -/
theorem guaranteed (book : QuoteBook Values Document) :
    Guaranteed book.program (fun _ _ => True) (fun _ => True) Kept (StepOf book) where
  refl := kept_refl
  trans := Kept.trans
  later _ h := h.kept
  keeps _ _ := trivial
  starts c s _ _ := soundAt_program keeping_kept c s

variable {pool pool' : Pool Db (QuoteCall Values Document) Identity (Except StoreError Answer)}
  {e : Taken (QuoteCall Values Document) Identity (Except StoreError Answer)}
  {es : List (Taken (QuoteCall Values Document) Identity (Except StoreError Answer))}

/-- A step in a run is a step of its call. -/
theorem stepOf_of_run (hrun : book.machine.Run es pool) (hstep : book.machine.step pool e pool') :
    StepOf book e.call pool.store e.wrote e.answer pool'.store :=
  book.guaranteed.step_machine trivial ⟨es, hrun⟩ hstep

/-- The keys of the calls that took effect, oldest first. -/
def tookEffect (es : List (Taken (QuoteCall Values Document) Identity (Except StoreError Answer))) :
    List String :=
  es.filterMap fun e => e.wrote.map fun _ => e.call.key

/-- The store is numbered, and its activity is the calls that took effect. -/
theorem numbered_of_run (hrun : book.machine.Run es pool) :
    Numbered pool.store ∧ tookEffect es = pool.store.activity.keys := by
  refine hrun.invariant (P := fun es pool => Numbered pool.store ∧
    tookEffect es = pool.store.activity.keys) ?_ ?_
  · rintro pool rfl
    exact ⟨numbered_empty, rfl⟩
  · rintro es pool e pool' hrun ⟨hnumbered, hkeys⟩ hstep
    have hstepOf := stepOf_of_run hrun hstep
    rw [tookEffect, List.filterMap_append, ← tookEffect, hkeys]
    rcases hwrote : e.wrote with _ | id
    · rw [hwrote] at hstepOf
      rw [hstepOf.1]
      simp [hwrote, hnumbered]
    · rw [hwrote] at hstepOf
      obtain ⟨-, hw⟩ := hstepOf
      obtain ⟨row, activity, hlands, hadv, -⟩ := hw.lands
      refine ⟨hnumbered.lands hlands hadv, ?_⟩
      rw [hlands.activity_keys]
      simp [hwrote]

/-- **The store loses no update and numbers every change.** Whatever calls are made and
however their steps interleave, the versions and options are numbered, no key takes effect
twice, and every next step is accounted for. -/
theorem quote_store_loses_no_update (hrun : book.machine.Run es pool) :
    Numbered pool.store ∧ (tookEffect es).Nodup ∧
      ∀ e pool', book.machine.step pool e pool' →
        Accounted e.call pool.store e.wrote e.answer pool'.store := by
  obtain ⟨hnumbered, hkeys⟩ := numbered_of_run hrun
  refine ⟨hnumbered, ?_, fun e pool' hstep => (stepOf_of_run hrun hstep).accounted⟩
  rw [hkeys]
  exact pool.store.activity.nodup_keys

/-- The first quote is made and its creation is sent again: the second call's one open step
answers with the quote, and repeats the first. -/
theorem quote_store_loses_no_update_created : ∃ es pool e pool', plain.machine.Run es pool ∧
    plain.machine.step pool e pool' ∧ e.wrote = none ∧ (∃ quote, e.answer = some (.ok quote)) ∧
    Numbered pool.store ∧ firstId ∈ pool.store.details.keys ∧ e.call.Repeats pool.store := by
  have hrun := Machine.Run.next (Machine.Run.next (Machine.Run.start (m := plain.machine) rfl)
    (.call firstQuote)) (.call firstQuote)
  have hstep : plain.machine.step ⟨oneQuote, [(firstQuote, (plain.program firstQuote).rest .empty),
      (firstQuote, (plain.program firstQuote).rest oneQuote)]⟩ _ _ :=
        @Pool.Step.resume _ _ _ _ plain.program _ 1 firstQuote
    ((plain.program firstQuote).rest oneQuote) rfl rfl
  obtain ⟨hnumbered, -, haccounted⟩ := quote_store_loses_no_update hrun
  have hanswer : ∃ quote, (((plain.program firstQuote).rest oneQuote).rest oneQuote).answer?
      = some (.ok quote) := ⟨_, rfl⟩
  obtain ⟨quote, hquote⟩ := hanswer
  exact ⟨_, _, _, _, hrun, hstep, rfl, ⟨quote, hquote⟩, hnumbered, by decide,
    (haccounted _ _ hstep).repeated rfl quote hquote⟩

end QuoteBook

end Haute.Quotes
