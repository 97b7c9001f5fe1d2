import Haute.Data.Answers
import Haute.Workbench.View

/-!
# The server and the view test a cell alike

Wherever the server's reading of text, its test of a cell or its asking of several conditions
gives an answer rather than an error, the view's gives the same one. The two differ in what
they compare: the server compares numbers whatever their type and counts days from the year 1,
the view compares a `bigint` and a `Number` as two things and counts days from 1970.
-/

namespace Haute.Workbench

open Haute.Data

/-! ### Typed text -/

/-- Cleaning again changes nothing. -/
@[simp] theorem cleaned_ofList_cleaned (text : String) :
    cleaned (String.ofList (cleaned text)) = cleaned text := by
  simp [cleaned, List.filter_filter]

/-- Digits alone are a number. -/
theorem exists_number?_of_wholeDigits? {cs : List Char} {found : Bool × List Char}
    (h : wholeDigits? cs = some found) : ∃ q, number? cs = some q := by
  unfold wholeDigits? at h
  split at h
  rename_i negative ds hsign
  split at h
  · rename_i hds
    have hall : ∀ c ∈ ds, c.isDigit = true := List.all_eq_true.mp hds.2
    have htake : ds.takeWhile Char.isDigit = ds := List.takeWhile_eq_self_iff.mpr hall
    have hdrop : ds.dropWhile Char.isDigit = [] := List.dropWhile_eq_nil_iff.mpr hall
    simp [number?, hsign, htake, hdrop, exponent?, hds.1]
  · cases h

section Typed

variable {type : ColumnType} {text s : String} {x y : Typed} {b : Bool}

theorem parseTypedNumber_of_none (h : number? (cleaned s) = none) :
    View.parseTypedNumber s = none := by
  rw [View.parseTypedNumber, h]
  rfl

theorem parseTypedWhole_of_none (h : number? (cleaned s) = none) :
    View.parseTypedWhole s = none := by
  have hwhole : wholeDigits? (cleaned s) = none := by
    cases hfound : wholeDigits? (cleaned s) with
    | none => rfl
    | some found =>
      obtain ⟨q, hq⟩ := exists_number?_of_wholeDigits? hfound
      rw [h] at hq
      cases hq
  simp [View.parseTypedWhole, hwhole, View.parseTypedNumber, h]

/-- A Decimal's text as the view reads it. -/
theorem parseTypedNumber_of_typedAs (h : typedAs .float s = .ok x) :
    (View.parseTypedNumber s).elim (.text s) .decimal = x := by
  unfold typedAs at h
  rw [if_neg (by simp)] at h
  cases hnumber : number? (cleaned s) with
  | none =>
    simp only [hnumber, Except.ok.injEq] at h
    rw [parseTypedNumber_of_none hnumber, ← h]
    rfl
  | some q =>
    simp only [hnumber, Except.ok.injEq] at h
    rw [View.parseTypedNumber, hnumber, ← h, decimalAs, Option.bind_some]
    generalize floatOf q = found
    cases found <;> simp

/-- An Integer's text as the view reads it. -/
theorem parseTypedWhole_of_typedAs (h : typedAs .int s = .ok x) :
    (View.parseTypedWhole s).elim ((View.parseTypedNumber s).elim (.text s) .decimal)
      .whole = x := by
  unfold typedAs at h
  rw [if_neg (by simp)] at h
  cases hnumber : number? (cleaned s) with
  | none =>
    simp only [hnumber, Except.ok.injEq] at h
    rw [parseTypedNumber_of_none hnumber, parseTypedWhole_of_none hnumber, ← h]
    rfl
  | some q =>
    simp only [hnumber] at h
    cases hwhole : wholeDigits? (cleaned s) with
    | some found =>
      obtain ⟨negative, ds⟩ := found
      simp only [hwhole, intOfDigits] at h
      split at h
      · cases h
        simp [View.parseTypedWhole, hwhole]
      · cases h
    | none =>
      simp only [hwhole, Except.ok.injEq] at h
      rw [View.parseTypedWhole, hwhole, ← h]
      simp only [View.parseTypedNumber, cleaned_ofList_cleaned, hnumber, Option.bind_some,
        decimalAs, true_and]
      cases hfloat : floatOf q with
      | finite r => by_cases hden : r.den = 1 <;> simp [hden]
      | _ => rfl

/-- Text typed into a column reads alike. -/
theorem typed_of_typedAs (h : typedAs type (pyStrip text) = .ok x) : View.typed type text = x := by
  cases type with
  | int =>
    rw [View.typed]
    exact parseTypedWhole_of_typedAs h
  | float =>
    rw [View.typed]
    exact parseTypedNumber_of_typedAs h
  | _ =>
    simp only [typedAs, ne_eq, reduceCtorEq, not_false_eq_true, and_self, if_true,
      Except.ok.injEq] at h
    exact h

/-- What an index tells its values apart by. -/
theorem indexIdentity_of_typedAs (htype : type = .int ∨ type = .str) (h : typedAs type s = .ok x) :
    View.indexIdentity type s = x := by
  obtain rfl | rfl := htype
  · exact parseTypedWhole_of_typedAs h
  · simp only [typedAs, ne_eq, reduceCtorEq, not_false_eq_true, and_self, if_true,
      Except.ok.injEq] at h
    exact h

/-- What a column's typed text never is: a fraction that is whole in an Integer column, a
whole number in another. -/
theorem typedAs_plain (h : typedAs type s = .ok x) :
    (∀ r, x = .decimal r → type = .float ∨ r.den ≠ 1) ∧ ∀ n, x = .whole n → type = .int := by
  cases type with
  | int =>
    have hread := parseTypedWhole_of_typedAs h
    refine ⟨fun r hr => .inr fun hden => ?_, fun _ _ => rfl⟩
    subst hr
    cases hwhole : View.parseTypedWhole s with
    | some n => simp [hwhole] at hread
    | none =>
      cases hnumber : View.parseTypedNumber s with
      | none => simp [hwhole, hnumber] at hread
      | some q =>
        simp only [hwhole, hnumber, Option.elim_none, Option.elim_some,
          Typed.decimal.injEq] at hread
        subst hread
        unfold View.parseTypedWhole at hwhole
        split at hwhole
        · cases hwhole
        · rw [View.parseTypedNumber, cleaned_ofList_cleaned, ← View.parseTypedNumber, hnumber]
            at hwhole
          simp [hden] at hwhole
  | float =>
    refine ⟨fun r _ => .inl rfl, fun n hn => ?_⟩
    have hread := parseTypedNumber_of_typedAs h
    subst hn
    cases hnumber : View.parseTypedNumber s <;> simp [hnumber] at hread
  | _ =>
    simp only [typedAs, ne_eq, reduceCtorEq, not_false_eq_true, and_self, if_true,
      Except.ok.injEq] at h
    subst h
    exact ⟨fun r hr => (by cases hr), fun n hn => (by cases hn)⟩

/-- A column's typed values are Python's same exactly when they are the same. -/
theorem same_of_typedAs {t : String} (hx : typedAs type s = .ok x) (hy : typedAs type t = .ok y) :
    x.same y = decide (x = y) := by
  obtain ⟨hxdecimal, hxwhole⟩ := typedAs_plain hx
  obtain ⟨hydecimal, hywhole⟩ := typedAs_plain hy
  cases x with
  | text a => cases y <;> simp [Typed.same]
  | whole m =>
    cases y with
    | text b => simp [Typed.same]
    | whole n => simp [Typed.same, Typed.number?]
    | decimal r =>
      obtain rfl := hxwhole m rfl
      have hden : r.den ≠ 1 := (hydecimal r rfl).resolve_left (by simp)
      have hne : (m : ℚ) ≠ r := fun heq => hden (by rw [← heq]; rfl)
      simp [Typed.same, Typed.number?, hne]
  | decimal q =>
    cases y with
    | text b => simp [Typed.same]
    | decimal r => simp [Typed.same, Typed.number?]
    | whole n =>
      obtain rfl := hywhole n rfl
      have hden : q.den ≠ 1 := (hxdecimal q rfl).resolve_left (by simp)
      have hne : q ≠ (n : ℚ) := fun heq => hden (by rw [heq]; rfl)
      simp [Typed.same, Typed.number?, hne]

end Typed

/-! ### Days -/

/-- View and server agree on the days of a month. -/
theorem daysInMonth_eq {year month : ℕ} (h₁ : 1 ≤ month) (h₂ : month ≤ 12) :
    [31, if isLeap year then 29 else 28, 31, 30, 31, 30, 31, 31, 30, 31, 30, 31].getD
    (month - 1) 0 =
      daysInMonth year month := by
  interval_cases month <;> rfl

/-- View and server agree on what is a day. -/
theorem isDay_eq (text : String) : View.isDay text = isDay text := by
  unfold View.isDay isDay
  cases dayParts? text with
  | none => rfl
  | some parts =>
    obtain ⟨year, month, day⟩ := parts
    dsimp only
    split
    · rename_i hbad
      symm
      rw [decide_eq_false_iff_not]
      omega
    · rename_i hgood
      have hdays := @daysInMonth_eq year month (by omega) (by omega)
      simp only [isLeap, decide_eq_true_eq] at hdays
      rw [hdays, decide_eq_decide]
      omega

/-- The view counts days from 1970-01-01, the server from the year 1. -/
theorem dayNumber_eq {text : String} (h : isDay text = true) :
    View.dayNumber text = dayNumber text - 719163 := by
  unfold isDay at h
  unfold View.dayNumber dayNumber
  cases hparts : dayParts? text with
  | none => simp [hparts] at h
  | some parts =>
    obtain ⟨year, month, day⟩ := parts
    simp only [hparts, decide_eq_true_eq] at h
    obtain ⟨hyear, hmonth, hmonth', hday, -⟩ := h
    dsimp only
    interval_cases month <;> simp [List.range_succ, daysInMonth, isLeap] <;> omega

/-- Questions put together, answered alike wherever both answer. -/
theorem matchesM_agree {α ε ε' : Type} {f : α → Except ε Bool} {g : α → Except ε' Bool}
    {xs : List α}
    {m : Match} {b c : Bool} (hfg : ∀ x ∈ xs, ∀ b c, f x = .ok b → g x = .ok c → c = b)
    (hf : matchesM f m xs = .ok b) (hg : matchesM g m xs = .ok c) : c = b := by
  -- what either answers, and the other does not deny
  obtain ⟨p, hpf, hpg⟩ : ∃ p : α → Bool, (∀ x ∈ xs, ∀ b, f x = .ok b → p x = b) ∧
      ∀ x ∈ xs, ∀ c, g x = .ok c → p x = c := by
    refine ⟨fun x => passed (f x) || passed (g x), fun x hx b hb => ?_, fun x hx c hc => ?_⟩
    · cases hc : g x with
      | error e => simp [hb, hc, passed]
      | ok c => simp [hb, hc, hfg x hx b c hb hc]
    · cases hb : f x with
      | error e => simp [hb, hc, passed]
      | ok b => simp [hb, hc, hfg x hx b c hb hc]
  cases m with
  | all => exact (all_of_allM hpg hg).symm.trans (all_of_allM hpf hf)
  | any => exact (any_of_anyM hpg hg).symm.trans (any_of_anyM hpf hf)
  | atLeast n =>
    simp only [matchesM, bind, Except.bind] at hf hg
    cases hfs : selectM f xs with
    | error e => simp [hfs] at hf
    | ok fs =>
      cases hgs : selectM g xs with
      | error e => simp [hgs] at hg
      | ok gs =>
        simp only [hfs, hgs, pure, Except.pure, Except.ok.injEq] at hf hg
        rw [← hf, ← hg, ← filter_of_selectM hpf hfs, ← filter_of_selectM hpg hgs]

/-! ### Whether a cell passes -/

section Cells

variable {type : ColumnType} {op : ConditionTest} {cell other : Option Cell}
  {text value : String} {b : Bool}

theorem filter_cleaned_dropWhile (cs : List Char) :
    (cs.dropWhile isPySpace).filter (fun c => !(['$', '£', '€', ','].contains c || isPySpace c)) =
      cs.filter fun c => !(['$', '£', '€', ','].contains c || isPySpace c) := by
  induction cs with
  | nil => rfl
  | cons c cs ih =>
    by_cases hc : isPySpace c = true
    · rw [List.dropWhile_cons_of_pos hc, ih, List.filter_cons_of_neg (by simp [hc])]
    · rw [List.dropWhile_cons_of_neg hc]

/-- Cleaning strips too. -/
theorem cleaned_pyStrip (text : String) : cleaned (pyStrip text) = cleaned text := by
  rw [cleaned, pyStrip, strip, List.rdropWhile, String.toList_ofList, List.filter_reverse,
    filter_cleaned_dropWhile, List.filter_reverse, List.reverse_reverse,
      filter_cleaned_dropWhile, cleaned]

/-- Blanks around a number change nothing. -/
theorem parseTypedNumber_pyStrip (text : String) :
    View.parseTypedNumber (pyStrip text) = View.parseTypedNumber text := by
  rw [View.parseTypedNumber, cleaned_pyStrip, View.parseTypedNumber]

/-- Blanks around a whole number change nothing. -/
theorem parseTypedWhole_pyStrip (text : String) :
    View.parseTypedWhole (pyStrip text) = View.parseTypedWhole text := by
  rw [View.parseTypedWhole, cleaned_pyStrip, View.parseTypedWhole]

/-- Whether text is a value of the type. -/
theorem holdsValue_of_ofType (h : ofType type text = .ok b) :
    View.holdsValue type (some (.text text)) = b := by
  by_cases hblank : pyStrip text = ""
  · have hb : b = false := by
      unfold ofType at h
      rw [hblank] at h
      cases type <;> cases h <;> rfl
    simp [View.holdsValue, hblank, hb]
  · simp only [View.holdsValue, ne_eq, hblank, not_false_eq_true, decide_true, Bool.true_and]
    cases type with
    | int =>
      simp only [ofType, bind, Except.bind] at h
      cases hread : typedAs .int (pyStrip text) with
      | error e => simp [hread] at h
      | ok x =>
        simp only [hread, pure, Except.pure, Except.ok.injEq] at h
        rw [← parseTypedWhole_of_typedAs hread] at h
        rw [View.ofType, ← h]
        cases View.parseTypedWhole (pyStrip text) with
        | some n => rfl
        | none => cases View.parseTypedNumber (pyStrip text) <;> rfl
    | float =>
      simp only [ofType, bind, Except.bind] at h
      cases hread : typedAs .float (pyStrip text) with
      | error e => simp [hread] at h
      | ok x =>
        simp only [hread, pure, Except.pure, Except.ok.injEq] at h
        rw [← parseTypedNumber_of_typedAs hread] at h
        rw [View.ofType, ← h]
        cases View.parseTypedNumber (pyStrip text) <;> rfl
    | date =>
      simp only [ofType, Except.ok.injEq] at h
      rw [View.ofType, isDay_eq, h]
    | _ =>
      simp only [ofType, ne_eq, hblank, not_false_eq_true, decide_true, Except.ok.injEq] at h
      simpa [View.ofType] using h

/-- Where the server decides an equality the view decides it alike. -/
theorem equals_of_equalsAny {values : List String} (h : equalsAny type cell values = .ok b) :
    values.any (View.equals type cell) = b := by
  have hnone : (∀ value, View.equals type cell value = false) → b = false →
      values.any (View.equals type cell) = b := by
    rintro hequals rfl
    simp [hequals]
  cases cell with
  | none =>
    cases h
    exact hnone (fun _ => rfl) rfl
  | some cell =>
    cases cell with
    | tick t =>
      cases h
      exact hnone (fun _ => rfl) rfl
    | text text =>
      simp only [equalsAny] at h
      by_cases hfilled : filled (some (.text text)) = true
      · rw [if_pos hfilled] at h
        simp only [bind, Except.bind] at h
        cases hread : typedAs type (pyStrip text) with
        | error e => simp [hread] at h
        | ok x =>
          simp only [hread] at h
          refine any_of_anyM (fun value _ c hc => ?_) h
          cases hwanted : typedAs type (pyStrip value) with
          | error e => simp [hwanted] at hc
          | ok y =>
            simp only [hwanted, pure, Except.pure, Except.ok.injEq] at hc
            rw [← hc, same_of_typedAs hread hwanted, View.equals, hfilled, typed_of_typedAs hread,
              typed_of_typedAs hwanted, Bool.true_and]
      · rw [if_neg hfilled] at h
        cases h
        refine hnone (fun value => ?_) rfl
        rw [View.equals, Bool.eq_false_iff.mpr hfilled, Bool.false_and]

/-- View and server decide a test on text alike. -/
theorem textPasses_eq (h : op ∈ textTests) :
    View.textPasses op cell value = textPasses op cell value := by
  cases cell with
  | none => rfl
  | some cell =>
    cases cell with
    | tick t => rfl
    | text text =>
      simp only [textTests, List.mem_cons, List.not_mem_nil, or_false] at h
      obtain rfl | rfl | rfl | rfl := h <;> simp only [View.textPasses, textPasses, decide_not]

/-- View and server read an order alike. -/
theorem ordersAs_of_comparison {compares : Ordering → Bool} (h : comparison op = .ok compares)
    (o : Ordering) :
    View.ordersAs op (some o) = compares o := by
  cases op <;> cases h <;> cases o <;> rfl

/-- Where the server decides a test on a day the view decides it alike. -/
theorem dayPasses_of_ok {days : ℤ} (hday : isDay (pyStrip value) = true)
    (h : dayPasses op cell value days = .ok b) : View.dayPasses op cell value days = b := by
  cases cell with
  | none =>
    cases h
    rfl
  | some cell =>
    cases cell with
    | tick t =>
      cases h
      rfl
    | text text =>
      simp only [dayPasses, View.dayPasses, isDay_eq] at h ⊢
      by_cases hcell : isDay (pyStrip text) = true
      · rw [if_pos hcell] at h ⊢
        rw [dayNumber_eq hcell, dayNumber_eq hday]
        generalize dayNumber (pyStrip text) = found at h ⊢
        generalize dayNumber (pyStrip value) = wanted at h ⊢
        -- the two count from days apart by the same number
        have hcompare : compare (found - 719163) (wanted - 719163 + days) =
            compare found (wanted + days) := by
          simp only [compare, compareOfLessAndEq]
          congr 1
          · rw [eq_iff_iff]
            omega
          · congr 1
            rw [eq_iff_iff]
            omega
        cases op with
        | equals =>
          simp only [Except.ok.injEq] at h ⊢
          rw [← h, decide_eq_decide]
          omega
        | notEquals =>
          simp only [Except.ok.injEq] at h ⊢
          rw [← h, decide_eq_decide]
          omega
        | _ =>
          simp only [hcompare, bind, Except.bind] at h ⊢
          split at h
          · cases h
          · rename_i compares hcomparison
            simp only [pure, Except.pure, Except.ok.injEq] at h
            rw [← h]
            exact ordersAs_of_comparison hcomparison _
      · rw [if_neg hcell] at h ⊢
        cases h
        rfl

theorem compare_intCast (m n : ℤ) : compare (m : ℚ) (n : ℚ) = compare m n := by
  simp only [LinearOrder.compare_eq_compareOfLessAndEq, compareOfLessAndEq,
    Int.cast_lt, Int.cast_inj]

/-- A cell of the type orders alike against a value of the type. -/
theorem order_of_compareTo {x y : Typed} {o : Ordering}
    (htype : type = .int ∨ type = .float ∨ type = .date)
    (hcell : ofType type text = .ok true) (hvalue : ofType type value = .ok true)
    (hx : typedAs type (pyStrip text) = .ok x) (hy : typedAs type (pyStrip value) = .ok y)
    (h : x.compareTo y = .ok o) : View.order type (some (.text text)) value = some o := by
  have hcell' := holdsValue_of_ofType hcell
  have hvalue' := holdsValue_of_ofType hvalue
  simp only [View.holdsValue, Bool.and_eq_true] at hcell' hvalue'
  simp only [View.order, hcell'.2]
  obtain rfl | rfl | rfl := htype
  · simp only [View.ofType] at hcell' hvalue'
    obtain ⟨m, hm⟩ := Option.isSome_iff_exists.mp hcell'.2
    obtain ⟨n, hn⟩ := Option.isSome_iff_exists.mp hvalue'.2
    have hxm := parseTypedWhole_of_typedAs hx
    have hyn := parseTypedWhole_of_typedAs hy
    rw [hm] at hxm
    rw [hn] at hyn
    rw [parseTypedWhole_pyStrip] at hn
    subst hxm hyn
    simp only [Option.elim_some, Typed.compareTo, Typed.number?, compare_intCast,
      Except.ok.injEq] at h
    simp [hm, hn, h]
  · simp only [View.ofType] at hcell' hvalue'
    obtain ⟨p, hp⟩ := Option.isSome_iff_exists.mp hcell'.2
    obtain ⟨q, hq⟩ := Option.isSome_iff_exists.mp hvalue'.2
    have hxp := parseTypedNumber_of_typedAs hx
    have hyq := parseTypedNumber_of_typedAs hy
    rw [hp] at hxp
    rw [hq] at hyq
    rw [parseTypedNumber_pyStrip] at hq
    subst hxp hyq
    simp only [Option.elim_some, Typed.compareTo, Typed.number?, Except.ok.injEq] at h
    simp [hp, hq, h]
  · simp only [typedAs, ne_eq, reduceCtorEq, not_false_eq_true, and_self, if_true,
      Except.ok.injEq] at hx hy
    subst hx hy
    simp only [Typed.compareTo, Except.ok.injEq] at h
    simp [h]

/-- The types with an order. -/
theorem ordered_of_mem_testsOf (hop : op ∈ testsOf type)
    (horder : op ∈ [.above, .atLeast, .below, .atMost]) :
    type = .int ∨ type = .float ∨ type = .date := by
  cases type <;> simp [testsOf] at hop ⊢ <;> simp at horder <;> aesop

/-- A comparison, spelled out. -/
theorem valuePasses_of_order (horder : op ∈ [.above, .atLeast, .below, .atMost]) :
    valuePasses type op cell value = (match cell with
      | some (.text text) => do
        if !(← ofType type text) then return false
        let compares ← comparison op
        let found ← typedAs type (pyStrip text)
        let wanted ← typedAs type (pyStrip value)
        return compares (← found.compareTo wanted)
      | _ => .ok false) ∧
      View.valuePasses type op cell value = View.ordersAs op (View.order type cell value) := by
  simp only [List.mem_cons, List.not_mem_nil, or_false] at horder
  obtain rfl | rfl | rfl | rfl := horder <;> exact ⟨rfl, rfl⟩

/-- Where the server decides a test on one value the view decides it alike. -/
theorem valuePasses_of_ok (hop : op ∈ testsOf type) (hone : op ∈ oneValue)
    (hvalue : ofType type value = .ok true)
    (h : valuePasses type op cell value = .ok b) : View.valuePasses type op cell value = b := by
  by_cases horder : op ∈ [.above, .atLeast, .below, .atMost]
  · have htype := ordered_of_mem_testsOf hop horder
    obtain ⟨hserver, hview⟩ := @valuePasses_of_order type op cell value horder
    rw [hserver] at h
    rw [hview]
    -- no order between the two, and the test fails on both sides
    have hnan : View.order type cell value = none → b = false →
        View.ordersAs op (View.order type cell value) = b := by
      rintro hnone rfl
      rw [hnone]
      cases op <;> rfl
    cases cell with
    | none =>
      cases h
      exact hnan rfl rfl
    | some cell =>
      cases cell with
      | tick t =>
        cases h
        exact hnan rfl rfl
      | text text =>
        simp only [bind, Except.bind] at h
        cases hcell : ofType type text with
        | error e => simp [hcell] at h
        | ok fits =>
          cases fits with
          | false =>
            simp only [hcell, Bool.not_false, if_true, pure, Except.pure, Except.ok.injEq] at h
            refine hnan ?_ h.symm
            have hcell' := holdsValue_of_ofType hcell
            simp only [View.holdsValue] at hcell'
            by_cases hblank : pyStrip text = ""
            · obtain rfl | rfl | rfl := htype <;> simp only [View.order, hblank] <;> rfl
            · simp only [ne_eq, hblank, not_false_eq_true, decide_true, Bool.true_and] at hcell'
              simp [View.order, hcell']
          | true =>
            simp only [hcell, Bool.not_true, if_false, Bool.false_eq_true] at h
            split at h
            · cases h
            rename_i compares hcomparison
            split at h
            · cases h
            rename_i found hfound
            split at h
            · cases h
            rename_i wanted hwanted
            split at h
            · cases h
            rename_i o ho
            simp only [pure, Except.pure, Except.ok.injEq] at h
            rw [order_of_compareTo htype hcell hvalue hfound hwanted ho,
              ordersAs_of_comparison hcomparison, h]
  · cases op with
    | equals =>
      have hequals := equals_of_equalsAny (show equalsAny type cell [value] = .ok b from h)
      simpa [View.valuePasses] using hequals
    | notEquals =>
      simp only [valuePasses, bind, Except.bind] at h
      cases hasked : equalsAny type cell [value] with
      | error e => simp [hasked] at h
      | ok c =>
        simp only [hasked, pure, Except.pure, Except.ok.injEq] at h
        have hequals := equals_of_equalsAny hasked
        simp only [List.any_cons, List.any_nil, Bool.or_false] at hequals
        rw [View.valuePasses, hequals, h]
    | contains | notContains | startsWith | endsWith =>
      simp only [valuePasses] at h
      rw [if_pos (by decide), Except.ok.injEq] at h
      rw [View.valuePasses, textPasses_eq (by decide), h]
    | above | atLeast | below | atMost => exact absurd (by decide) horder
    | _ => exact absurd hone (by decide)

/-- A test of one value, spelled out. -/
theorem passes_of_oneValue {test : ValueTest} {against : Bool} (hone : test.op ∈ oneValue) :
    passes type test against cell other = (if against then
      match other with
      | some (.text value) => do
        if ← ofType type value then
          if type = .date then dayPasses test.op cell value test.days
          else valuePasses type test.op cell value
        else return decide (test.op ∈ negated)
      | _ => .ok (decide (test.op ∈ negated))
    else
      match test.values with
      | value :: _ => valuePasses type test.op cell value
      | [] => .error .index) ∧
    View.passes type test against cell other = (if against then
      match other with
      | some (.text value) =>
        if View.holdsValue type other then
          if type = .date then View.dayPasses test.op cell value test.days
          else View.valuePasses type test.op cell value
        else decide (test.op ∈ negated)
      | _ => decide (test.op ∈ negated)
    else
      match test.values with
      | value :: _ => View.valuePasses type test.op cell value
      | [] => false) := by
  obtain ⟨op, values, days⟩ := test
  change op ∈ oneValue at hone
  cases op with
  | ticked | notTicked | filled | empty | oneOf | notOneOf => exact absurd hone (by decide)
  | _ => exact ⟨rfl, rfl⟩

/-- Where the server decides a test the view decides it alike. -/
theorem passes_of_ok {test : ValueTest} {against : Bool} (hop : test.op ∈ testsOf type)
    (hvalues : against = false → ∀ value ∈ test.values, ofType type value = .ok true)
    (h : passes type test against cell other = .ok b) :
    View.passes type test against cell other = b := by
  by_cases hone : test.op ∈ oneValue
  · obtain ⟨hserver, hview⟩ := @passes_of_oneValue type cell other test against hone
    rw [hserver] at h
    rw [hview]
    -- against another cell the value is read there, else it is the test's own
    cases against with
    | true =>
      simp only [if_true] at h ⊢
      cases other with
      | none => exact Except.ok.inj h
      | some other =>
        cases other with
        | tick t => exact Except.ok.inj h
        | text value =>
          simp only [bind, Except.bind] at h
          cases hvalue : ofType type value with
          | error e => simp [hvalue] at h
          | ok holds =>
            rw [holdsValue_of_ofType hvalue]
            simp only [hvalue] at h
            cases holds with
            | false => simpa [pure, Except.pure] using h
            | true =>
              simp only [if_true] at h ⊢
              by_cases hdate : type = .date
              · rw [if_pos hdate] at h ⊢
                subst hdate
                exact dayPasses_of_ok (Except.ok.inj hvalue) h
              · rw [if_neg hdate] at h ⊢
                exact valuePasses_of_ok hop hone hvalue h
    | false =>
      simp only [Bool.false_eq_true, if_false] at h ⊢
      cases hfirst : test.values with
      | nil => simp [hfirst] at h
      | cons value rest =>
        simp only [hfirst] at h ⊢
        exact valuePasses_of_ok hop hone
          (hvalues rfl value (by rw [hfirst]; exact List.mem_cons_self)) h
  · obtain ⟨op, values, days⟩ := test
    change op ∉ oneValue at hone
    cases op with
    | ticked | notTicked | filled | empty =>
      simp only [passes, Except.ok.injEq] at h
      rw [View.passes, h]
    | oneOf =>
      rw [View.passes]
      exact equals_of_equalsAny h
    | notOneOf =>
      simp only [passes, bind, Except.bind] at h
      cases hasked : equalsAny type cell values with
      | error e => simp [hasked] at h
      | ok c =>
        simp only [hasked, pure, Except.pure, Except.ok.injEq] at h
        rw [View.passes, equals_of_equalsAny hasked, h]
    | _ => exact absurd (by decide) hone

end Cells

end Haute.Workbench
