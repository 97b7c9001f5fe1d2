import Haute.Workbench.AlikeRows

/-!
# The rows of an index of values

`presetRows` gives a table a row for each of its index's allowed values. `Presets` says how: each
place is made of at most one typed row, the first typed for its value, else the next row that is
blank there. `presetRows_spec` puts the server and the browser side by side. The browser reads text
with its own white space (`Browser`), which differs from Python's on six characters; where the text
holds none of these the two give the same rows, and where no two allowed values read as one, giving
them again changes nothing.
-/

namespace Haute.Workbench

open Haute.Data

/-! ### The browser's white space -/

/-- `\s`, and what `trim` takes. -/
def isJsSpace (c : Char) : Bool :=
  let n := c.toNat
  (9 ≤ n && n ≤ 13) || n == 32 || n == 0xa0 || n == 0x1680 ||
    (0x2000 ≤ n && n ≤ 0x200a) || n == 0x2028 ||
    n == 0x2029 || n == 0x202f || n == 0x205f || n == 0x3000 || n == 0xfeff

/-- Text of which no character is white space in one of the two languages alone. -/
def SpacedAlike (text : String) : Prop := ∀ c ∈ text.toList, isJsSpace c = isPySpace c

namespace Browser

/-- `text.trim()`. -/
def trim (text : String) : String :=
  String.ofList ((text.toList.dropWhile isJsSpace).reverse.dropWhile isJsSpace).reverse

/-- `text.replace(/[$£€,\s]/g, "")`. -/
def cleaned (text : String) : List Char :=
  text.toList.filter fun c => !(['$', '£', '€', ','].contains c || isJsSpace c)

/-- `filled`. -/
def filled : Option Cell → Bool
  | some (.tick b) => b
  | some (.text s) => trim s ≠ ""
  | none => false

/-- `parseTypedNumber`. -/
def parseTypedNumber (text : String) : Option ℚ :=
  (number? (cleaned text)).bind fun q =>
    match floatOf q with
    | .finite r => some r
    | _ => none

/-- `parseTypedWhole`. -/
def parseTypedWhole (text : String) : Option ℤ :=
  match wholeDigits? (cleaned text) with
  | some (negative, ds) => some (if negative then -(digitsValue ds : ℤ) else digitsValue ds)
  | none =>
    (parseTypedNumber (String.ofList (cleaned text))).bind fun r => if r.den = 1 then some r.num
      else none

/-- `indexIdentity` of a `typedIndexValue`: a number by its value and text as itself. -/
def indexIdentity (type : ColumnType) (text : String) : Typed :=
  if type = .int then (parseTypedWhole text).elim
    ((parseTypedNumber text).elim (.text text) .decimal) .whole
  else .text text

/-- The place of the value a row holds in the index. -/
def placeOf (column : SchemaColumn) (row : Row) : Option ℕ :=
  match Assoc.get? row column.name with
  | some (.text text) =>
    column.options.findIdx? fun value => indexIdentity column.type (trim value) =
      indexIdentity column.type (trim text)
  | _ => none

/-- The rows placed by their value, the first of each, and the loose ones. -/
def placeRows (column : SchemaColumn) :
    List Row → List (Option Row) × List Row → List (Option Row) × List Row
  | [], found => found
  | row :: rows, (placed, loose) =>
    if !filled (Assoc.get? row column.name) then placeRows column rows (placed, loose ++ [row])
    else
      match placeOf column row with
      | none => placeRows column rows (placed, loose)
      | some i => placeRows column rows (if placed[i]? = some none then placed.set i (some row)
        else placed, loose)

/-- `presetRows`. -/
def presetRows (table : SchemaTable) (rows : List Row) : List Row :=
  match valuesIndex table with
  | none => rows
  | some column =>
    let (placed, loose) := placeRows column rows (column.options.map fun _ => none, [])
    fillRows column.name (placed.zip column.options) loose

end Browser

section Alike

variable {text : String}

theorem dropWhile_congr {α : Type} {p q : α → Bool} {xs : List α} (h : ∀ x ∈ xs, p x = q x) :
    xs.dropWhile p = xs.dropWhile q := by
  induction xs with
  | nil => rfl
  | cons x xs ih =>
    rw [List.dropWhile_cons, List.dropWhile_cons, h x List.mem_cons_self, ih fun y hy =>
      h y (List.mem_cons_of_mem x hy)]

/-- A text whose blanks both sides know is trimmed alike. -/
theorem SpacedAlike.trim (h : SpacedAlike text) : Browser.trim text = pyStrip text := by
  have hfront : text.toList.dropWhile isJsSpace = text.toList.dropWhile isPySpace :=
    dropWhile_congr h
  rw [Browser.trim, pyStrip, strip, List.rdropWhile, hfront]
  refine congrArg (fun cs => String.ofList (List.reverse cs)) (dropWhile_congr fun c hc => h c ?_)
  exact (List.dropWhile_sublist isPySpace).subset (List.mem_reverse.mp hc)

/-- What is left of such a text is one too. -/
theorem SpacedAlike.of_pyStrip (h : SpacedAlike text) : SpacedAlike (pyStrip text) := by
  intro c hc
  rw [pyStrip, strip, List.rdropWhile, String.toList_ofList] at hc
  refine h c ((List.dropWhile_sublist isPySpace).subset ?_)
  exact List.mem_reverse.mp ((List.dropWhile_sublist isPySpace).subset (List.mem_reverse.mp hc))

/-- Such a text is cleaned alike. -/
theorem SpacedAlike.cleaned (h : SpacedAlike text) :
    Browser.cleaned text = Workbench.cleaned text :=
  List.filter_congr fun c hc => by rw [h c hc]

/-- Such a text is read alike as a number. -/
theorem SpacedAlike.parseTypedNumber (h : SpacedAlike text) :
    Browser.parseTypedNumber text = View.parseTypedNumber text :=
  congrArg (fun cs => (number? cs).bind fun q => match floatOf q with
    | .finite r => some r
    | _ => none) h.cleaned

/-- Such a text is read alike as a whole number. -/
theorem SpacedAlike.parseTypedWhole (h : SpacedAlike text) :
    Browser.parseTypedWhole text = View.parseTypedWhole text := by
  have hcleaned : SpacedAlike (String.ofList (Workbench.cleaned text)) := by
    intro c hc
    rw [String.toList_ofList] at hc
    exact h c (List.mem_of_mem_filter hc)
  cases hwhole : wholeDigits? (Workbench.cleaned text) <;>
    simp only [Browser.parseTypedWhole, h.cleaned, hcleaned.parseTypedNumber, View.parseTypedWhole,
      hwhole]

/-- Such a text is placed alike in an index. -/
theorem SpacedAlike.indexIdentity (h : SpacedAlike text) (type : ColumnType) :
    Browser.indexIdentity type text = View.indexIdentity type text := by
  rw [Browser.indexIdentity, h.parseTypedWhole, h.parseTypedNumber, View.indexIdentity]

variable {column : SchemaColumn} {rows : List Row} {row : Row}

/-- What a row holds in the index reads alike. -/
def ReadAlike (column : SchemaColumn) (row : Row) : Prop :=
  ∀ text, Assoc.get? row column.name = some (.text text) → SpacedAlike text

/-- Whether a cell is filled is read alike. -/
theorem ReadAlike.filled (h : ReadAlike column row) :
    Browser.filled (Assoc.get? row column.name) =
      Workbench.filled (Assoc.get? row column.name) := by
  cases hcell : Assoc.get? row column.name with
  | none => rfl
  | some cell =>
    cases cell with
    | tick b => rfl
    | text text => rw [Browser.filled, Workbench.filled, (h text hcell).trim]

/-- The place of a row is read alike. -/
theorem ReadAlike.placeOf (h : ReadAlike column row)
    (hoptions : ∀ value ∈ column.options, SpacedAlike value) :
    Browser.placeOf column row = View.placeOf column row := by
  unfold Browser.placeOf View.placeOf
  cases hcell : Assoc.get? row column.name with
  | none => rfl
  | some cell =>
    cases cell with
    | tick b => rfl
    | text text =>
      have hsame : List.Forall₂ (· = ·) column.options column.options :=
        List.forall₂_same.mpr fun _ _ => rfl
      refine findIdx?_of_forall₂ hsame fun value _ hvalue heq => ?_
      subst heq
      have hvalue := hoptions value hvalue
      rw [hvalue.trim, (h text hcell).trim, hvalue.of_pyStrip.indexIdentity,
        (h text hcell).of_pyStrip.indexIdentity]

/-- The browser places rows as the view's rule does where both read them alike. -/
theorem browser_placeRows (hrows : ∀ row ∈ rows, ReadAlike column row)
    (hoptions : ∀ value ∈ column.options, SpacedAlike value)
    (found : List (Option Row) × List Row) :
    Browser.placeRows column rows found = View.placeRows column rows found := by
  induction rows generalizing found with
  | nil => rfl
  | cons row rows ih =>
    obtain ⟨placed, loose⟩ := found
    have ih := ih fun r hr => hrows r (List.mem_cons_of_mem row hr)
    have hrow := hrows row List.mem_cons_self
    rw [Browser.placeRows, View.placeRows, hrow.filled, hrow.placeOf hoptions]
    split_ifs
    · exact ih _
    · cases View.placeOf column row with
      | none => exact ih _
      | some i => exact ih _

/-- Where the text holds only white space that both know, the browser's rows are those of the
rule. -/
theorem browser_presetRows {table : SchemaTable} (hindex : valuesIndex table = some column)
    (hrows : ∀ row ∈ rows, ReadAlike column row)
    (hoptions : ∀ value ∈ column.options, SpacedAlike value) :
    Browser.presetRows table rows = View.presetRows table rows := by
  simp only [Browser.presetRows, View.presetRows, hindex, browser_placeRows hrows hoptions]

end Alike

/-! ### The row each place is made of -/

section Places

variable (column : SchemaColumn) (rows : List Row)

/-- Whether a row holds nothing in the index. -/
def blankIn (row : Row) : Bool := !filled (Assoc.get? row column.name)

/-- Whether a row holds the value of a place. -/
def typedAt (i : ℕ) (row : Row) : Bool :=
  filled (Assoc.get? row column.name) && decide (View.placeOf column row = some i)

/-- The rows that are blank in the index, in order. -/
def blankRows : List ℕ := (List.range rows.length).filter fun k => blankIn column (rows[k]?.getD [])

/-- The places whose value no row holds, in order. -/
def leftPlaces : List ℕ :=
  (List.range column.options.length).filter fun i => (rows.findIdx? (typedAt column i)).isNone

/-- The row a place is made of: the first that holds its value, else the next blank one. -/
def rowUsed (i : ℕ) : Option ℕ :=
  (rows.findIdx? (typedAt column i)).or
    (blankRows column rows)[(List.range i).countP fun j =>
      (rows.findIdx? (typedAt column j)).isNone]?

/-- Placing rows leaves the blank ones loose and gives each place its first typed row. -/
theorem view_placeRows (placed : List (Option Row)) (loose : List Row) :
    (View.placeRows column rows (placed, loose)).2 = loose ++ rows.filter (blankIn column) ∧
      ∀ i : ℕ, (View.placeRows column rows (placed, loose)).1[i]? =
        placed[i]?.map fun held : Option Row => held.or (rows.find? (typedAt column i)) := by
  induction rows generalizing placed loose with
  | nil => simp [View.placeRows]
  | cons row rows ih =>
    rw [View.placeRows]
    by_cases hfilled : filled (Assoc.get? row column.name) = true
    · have hblank : blankIn column row = false := by rw [blankIn, hfilled]; rfl
      rw [if_neg (by simp [hfilled]), List.filter_cons_of_neg (by simp [hblank])]
      cases hplace : View.placeOf column row with
      | none =>
        obtain ⟨hloose, hplaced⟩ := ih placed loose
        refine ⟨hloose, fun i => (hplaced i).trans ?_⟩
        rw [List.find?_cons_of_neg (by simp [typedAt, hplace])]
      | some at' =>
        obtain ⟨hloose, hplaced⟩ :=
          ih (if placed[at']? = some none then placed.set at' (some row) else placed) loose
        refine ⟨hloose, fun i => (hplaced i).trans ?_⟩
        by_cases hi : i = at'
        · subst hi
          rw [List.find?_cons_of_pos (by simp [typedAt, hfilled, hplace])]
          split_ifs with hvacant
          · rw [List.getElem?_set_self (by
              by_contra hlen
              rw [List.getElem?_eq_none (by omega)] at hvacant
              cases hvacant), hvacant]
            rfl
          · cases hheld : placed[i]? with
            | none => rfl
            | some held =>
              cases held with
              | none => exact absurd hheld hvacant
              | some held => rfl
        · have hother : typedAt column i row = false := by simp [typedAt, hplace, Ne.symm hi]
          rw [List.find?_cons_of_neg (by simp [hother])]
          split_ifs
          · rw [List.getElem?_set_ne (Ne.symm hi)]
          · rfl
    · have hblank : blankIn column row = true := by simp [blankIn, hfilled]
      obtain ⟨hloose, hplaced⟩ := ih placed (loose ++ [row])
      rw [if_pos (by simp [hfilled]), List.filter_cons_of_pos hblank]
      refine ⟨hloose.trans (by rw [List.append_assoc]; rfl), fun i => (hplaced i).trans ?_⟩
      rw [List.find?_cons_of_neg (by simp [typedAt, hfilled])]

/-- Each place is filled with its own row, or the next free one, or a new one. -/
theorem getElem?_fillRows (name : String) (zs : List (Option Row × String))
    (free : List Row) (i : ℕ) :
    (fillRows name zs free)[i]? = zs[i]?.map fun z =>
      Assoc.set ((z.1.or free[(zs.take i).countP fun z => z.1.isNone]?).getD []) name
        (.text z.2) := by
  induction zs generalizing free i with
  | nil => simp [fillRows]
  | cons z zs ih =>
    obtain ⟨held, value⟩ := z
    cases held with
    | some row =>
      cases i with
      | zero => rfl
      | succ i => simp [fillRows, ih]
    | none =>
      cases free with
      | nil =>
        cases i with
        | zero => rfl
        | succ i => simp [fillRows, ih]
      | cons row free =>
        cases i with
        | zero => rfl
        | succ i => simp [fillRows, ih]

theorem find?_eq_findIdx? {α : Type} (p : α → Bool) (xs : List α) :
    xs.find? p = (xs.findIdx? p).bind fun k => xs[k]? := List.find?_eq_bind_findIdx?_getElem?

/-- The blank rows by their indexes. -/
theorem getElem?_filter_blank (m : ℕ) :
    (rows.filter (blankIn column))[m]? = ((blankRows column rows)[m]?).bind fun k => rows[k]? := by
  have hrows : rows = (List.range rows.length).map fun k => rows[k]?.getD [] := by
    refine List.ext_getElem? fun k => ?_
    rw [List.getElem?_map]
    by_cases hk : k < rows.length
    · rw [List.getElem?_range hk, List.getElem?_eq_getElem hk]
      simp [hk]
    · rw [List.getElem?_eq_none (not_lt.mp hk), List.getElem?_eq_none (by simpa using not_lt.mp hk)]
      rfl
  have hfilter : rows.filter (blankIn column) = (blankRows column rows).map fun k =>
      rows[k]?.getD [] := by
    conv_lhs => rw [hrows, List.filter_map]
    rfl
  rw [hfilter, List.getElem?_map]
  cases hm : (blankRows column rows)[m]? with
  | none => rfl
  | some k =>
    have hk : k < rows.length :=
      List.mem_range.mp (List.mem_of_mem_filter (List.mem_of_getElem? hm))
    simp [hk]

/-- Each place holds its value, and otherwise the row it is made of. -/
theorem getElem?_presetRows {table : SchemaTable} {column : SchemaColumn}
    (hindex : valuesIndex table = some column)
    (i : ℕ) :
    (View.presetRows table rows)[i]? = column.options[i]?.map fun value =>
      Assoc.set (((rowUsed column rows i).bind fun k => rows[k]?).getD []) column.name
        (.text value) := by
  obtain ⟨hloose, hplaced⟩ := view_placeRows column rows (column.options.map fun _ => none) []
  rw [List.nil_append] at hloose
  simp only [List.getElem?_map, Option.map_map] at hplaced
  simp only [View.presetRows, hindex, getElem?_fillRows, hloose, getElem?_filter_blank]
  set placed := (View.placeRows column rows (column.options.map fun _ => none, [])).1
  have hlen : placed.length = column.options.length := by
    refine le_antisymm (not_lt.mp fun hlt => ?_) (not_lt.mp fun hlt => ?_)
    · have h := hplaced column.options.length
      rw [List.getElem?_eq_getElem hlt, List.getElem?_eq_none le_rfl] at h
      cases h
    · have h := hplaced placed.length
      rw [List.getElem?_eq_none le_rfl, List.getElem?_eq_getElem hlt] at h
      cases h
  have hzip {j : ℕ} (hj : j < column.options.length) :
      (placed.zip column.options)[j]? =
        some (rows.find? (typedAt column j), column.options[j]) := by
    refine List.getElem?_zip_eq_some.mpr ⟨?_, List.getElem?_eq_getElem hj⟩
    rw [hplaced, List.getElem?_eq_getElem hj]
    rfl
  by_cases hi : i < column.options.length
  · have hmap : ((placed.zip column.options).take i).map (fun z => z.1.isNone) =
        (List.range i).map fun j => (rows.findIdx? (typedAt column j)).isNone := by
      refine List.ext_getElem? fun j => ?_
      rw [List.getElem?_map, List.getElem?_map, List.getElem?_take]
      by_cases hj : j < i
      · rw [if_pos hj, hzip (hj.trans hi), List.getElem?_range hj, Option.map_some, Option.map_some,
          find?_eq_findIdx?]
        cases hfound : rows.findIdx? (typedAt column j) with
        | none => rfl
        | some k =>
          obtain ⟨hk, -⟩ := List.findIdx?_eq_some_iff_getElem.mp hfound
          simp [hk]
      · rw [if_neg hj, List.getElem?_eq_none (by simpa using not_lt.mp hj)]
        rfl
    have hcount : ((placed.zip column.options).take i).countP (fun z => z.1.isNone) =
        (List.range i).countP fun j => (rows.findIdx? (typedAt column j)).isNone := by
      have h := congrArg (List.countP id) hmap
      rwa [List.countP_map, List.countP_map] at h
    rw [hzip hi, List.getElem?_eq_getElem hi, hcount, Option.map_some, Option.map_some, rowUsed,
      find?_eq_findIdx?]
    cases hfound : rows.findIdx? (typedAt column i) with
    | none => rfl
    | some k =>
      obtain ⟨hk, -⟩ := List.findIdx?_eq_some_iff_getElem.mp hfound
      simp [hk]
  · have hnone : (placed.zip column.options)[i]? = none :=
      List.getElem?_eq_none (by rw [List.length_zip, hlen]; omega)
    rw [hnone, List.getElem?_eq_none (not_lt.mp hi)]
    rfl

variable {column rows}

/-- A row is typed at one place at most. -/
theorem typedAt_unique {i j : ℕ} {row : Row} (hi : typedAt column i row = true)
    (hj : typedAt column j row = true) : i = j := by
  simp only [typedAt, Bool.and_eq_true, decide_eq_true_eq] at hi hj
  exact Option.some.inj (hi.2.symm.trans hj.2)

/-- The count of what is left below a place tells the places left apart. -/
theorem countP_range_lt {p : ℕ → Bool} {i j : ℕ} (hlt : i < j) (hp : p i = true) :
    (List.range i).countP p < (List.range j).countP p := by
  calc (List.range i).countP p < (List.range (i + 1)).countP p := by
        rw [List.range_succ, List.countP_append]
        simp [hp]
    _ ≤ (List.range j).countP p := (List.range_sublist.mpr hlt).countP_le

/-- No typed row is used twice. -/
theorem rowUsed_injective {i j k : ℕ} (hi : rowUsed column rows i = some k)
    (hj : rowUsed column rows j = some k) :
    i = j := by
  have hblank {m : ℕ} (hm : (blankRows column rows)[m]? = some k) : ∃ row, rows[k]? = some row ∧
      blankIn column row = true := by
    obtain ⟨hk, hblank⟩ := List.mem_filter.mp (List.mem_of_getElem? hm)
    have hk := List.mem_range.mp hk
    exact ⟨rows[k], List.getElem?_eq_getElem hk, by simpa [hk] using hblank⟩
  have htyped {l : ℕ} (hl : rows.findIdx? (typedAt column l) = some k) :
      ∃ row, rows[k]? = some row ∧ typedAt column l row = true := by
    obtain ⟨hk, htyped, -⟩ := List.findIdx?_eq_some_iff_getElem.mp hl
    exact ⟨rows[k], List.getElem?_eq_getElem hk, htyped⟩
  have hnot {l : ℕ} {row row' : Row} (h : rows[k]? = some row) (h' : rows[k]? = some row')
      (ht : typedAt column l row = true)
      (hb : blankIn column row' = true) : False := by
    obtain rfl := Option.some.inj (h.symm.trans h')
    simp only [typedAt, blankIn, Bool.and_eq_true, Bool.not_eq_true'] at ht hb
    rw [ht.1] at hb
    cases hb
  rcases Option.or_eq_some_iff.mp hi with hi | ⟨hi, hi'⟩ <;> rcases Option.or_eq_some_iff.mp hj
    with hj | ⟨hj, hj'⟩
  · obtain ⟨row, hrow, hti⟩ := htyped hi
    obtain ⟨row', hrow', htj⟩ := htyped hj
    obtain rfl := Option.some.inj (hrow.symm.trans hrow')
    exact typedAt_unique hti htj
  · obtain ⟨row, hrow, hti⟩ := htyped hi
    obtain ⟨row', hrow', hbj⟩ := hblank hj'
    exact (hnot hrow hrow' hti hbj).elim
  · obtain ⟨row, hrow, htj⟩ := htyped hj
    obtain ⟨row', hrow', hbi⟩ := hblank hi'
    exact (hnot hrow hrow' htj hbi).elim
  · -- two places left, of one blank row
    have hnodup : (blankRows column rows).Nodup := List.nodup_range.filter _
    have hlt := (List.getElem?_eq_some_iff.mp hi').1
    have hcount := (List.getElem?_inj hlt hnodup).mp (hi'.trans hj'.symm)
    rcases Nat.lt_trichotomy i j with h | h | h
    · exact absurd hcount (countP_range_lt h (by rw [hi]; rfl)).ne
    · exact h
    · exact absurd hcount (countP_range_lt h (by rw [hj]; rfl)).ne'

/-- The blank rows are used in order, while places are left. -/
theorem rowUsed_blank {m i k : ℕ} (hleft : (leftPlaces column rows)[m]? = some i)
    (hblank : (blankRows column rows)[m]? = some k) : rowUsed column rows i = some k := by
  have hcount (n : ℕ) (p : ℕ → Bool) (h : ((List.range n).filter p)[m]? = some i) :
      (List.range i).countP p = m := by
    induction n with
    | zero => simp at h
    | succ n ih =>
      rw [List.range_succ, List.filter_append, List.getElem?_append] at h
      split_ifs at h with hm
      · exact ih h
      · by_cases hp : p n = true
        · rw [List.filter_cons_of_pos hp, List.filter_nil] at h
          obtain ⟨hlen, hn⟩ := List.getElem?_eq_some_iff.mp h
          rw [List.length_singleton] at hlen
          have hi : n = i := by
            simpa [show m - ((List.range n).filter p).length = 0 by omega] using hn
          rw [← hi, List.countP_eq_length_filter]
          omega
        · rw [List.filter_cons_of_neg hp, List.filter_nil] at h
          cases h
  have hvacant : rows.findIdx? (typedAt column i) = none := by
    have := (List.mem_filter.mp (List.mem_of_getElem? hleft)).2
    simpa using this
  rw [rowUsed, hvacant, Option.none_or, hcount _ _ hleft]
  exact hblank

end Places

/-! ### What the rule gives -/

/-- A row is typed for an allowed value: it holds text that reads as the value does. -/
def TypedFor (column : SchemaColumn) (value : String) (row : Row) : Prop :=
  ∃ text x y, Assoc.get? row column.name = some (.text text) ∧ filled (some (.text text)) = true ∧
    typedAs column.type (pyStrip text) = .ok x ∧ typedAs column.type value = .ok y ∧ y.same x = true

/-- The rows an index of values gives, `used` telling the typed row each place is made of. -/
structure Presets (column : SchemaColumn) (rows found : List Row) (used : ℕ → Option ℕ) : Prop where
  /-- One row for each allowed value. -/
  length : found.length = column.options.length
  /-- Each holds its value, and the other cells of the row it is made of. -/
  row (i : ℕ) (value : String) (h : column.options[i]? = some value) : ∃ row, found[i]? = some row ∧
    Assoc.get? row column.name = some (.text value) ∧
    ∀ name, name ≠ column.name → Assoc.get? row name =
      Assoc.get? (((used i).bind fun k => rows[k]?).getD []) name
  /-- No typed row is used twice. -/
  once (i j k : ℕ) (hi : used i = some k) (hj : used j = some k) : i = j
  /-- The first row typed for a value is the row of the place that reads as the value does. -/
  first (k : ℕ) (row : Row) (value : String) (hrow : rows[k]? = some row)
    (hvalue : value ∈ column.options)
    (htyped : TypedFor column value row)
    (hfirst : ∀ k' < k, ∀ row', rows[k']? = some row' → ¬ TypedFor column value row') :
    ∃ i value', column.options[i]? = some value' ∧ typedAs column.type value' =
      typedAs column.type value ∧
      used i = some k
  /-- The blank rows are the rows of the places left, in order. -/
  blank (m i k : ℕ) (hleft : (leftPlaces column rows)[m]? = some i)
    (hblank : (blankRows column rows)[m]? = some k) :
    used i = some k

section Rule

variable {table : SchemaTable} {column : SchemaColumn} {rows found : List Row} {places : List Typed}

/-- Where rows were placed, each of them has a place. -/
theorem rowPlace_of_placeRows {start stop : List (Option Row) × List Row}
    (h : placeRows column places rows start = .ok stop) {row : Row} (hrow : row ∈ rows) :
    ∃ place, rowPlace column places row = .ok place := by
  induction rows generalizing start with
  | nil => exact absurd hrow List.not_mem_nil
  | cons first rows ih =>
    obtain ⟨placed, loose⟩ := start
    simp only [placeRows, bind, Except.bind] at h
    cases hplace : rowPlace column places first with
    | error e => simp [hplace] at h
    | ok place =>
      rcases List.mem_cons.mp hrow with rfl | hrow
      · exact ⟨place, hplace⟩
      · simp only [hplace] at h
        rcases place with _ | _ | i <;> exact ih h hrow

/-- Rows are placed where each of them has a place. -/
theorem exists_placeRows (h : ∀ row ∈ rows, ∃ place, rowPlace column places row = .ok place)
    (start : List (Option Row) × List Row) :
    ∃ stop, placeRows column places rows start = .ok stop := by
  induction rows generalizing start with
  | nil => exact ⟨start, rfl⟩
  | cons row rows ih =>
    obtain ⟨placed, loose⟩ := start
    obtain ⟨place, hplace⟩ := h row List.mem_cons_self
    have ih := fun start => ih (fun r hr => h r (List.mem_cons_of_mem row hr)) start
    simp only [placeRows, bind, Except.bind, hplace]
    rcases place with _ | _ | i <;> exact ih _

/-- Text of a row that was placed was read. -/
theorem exists_typedAs_of_rowPlace {row : Row} {place : Option (Option ℕ)}
    (h : rowPlace column places row = .ok place)
    (hfilled : filled (Assoc.get? row column.name) = true) {text : String}
    (htext : Assoc.get? row column.name = some (.text text)) :
    ∃ x, typedAs column.type (pyStrip text) = .ok x := by
  rw [htext] at hfilled
  simp only [rowPlace, htext, hfilled, Bool.not_true, Bool.false_eq_true, if_false, bind,
    Except.bind] at h
  cases hx : typedAs column.type (pyStrip text) with
  | error e => simp [hx] at h
  | ok x => exact ⟨x, rfl⟩

/-- The rows kept are those placed, filled up in the order of the options. -/
theorem presetRows_eq_ok (hindex : valuesIndex table = some column)
    (h : presetRows table rows = .ok found) :
    ∃ places stop, column.options.mapM (typedAs column.type) = .ok places ∧
      placeRows column places rows (column.options.map fun _ => none, []) = .ok stop ∧
      found = fillRows column.name (stop.1.zip column.options) stop.2 := by
  simp only [presetRows, hindex, bind, Except.bind] at h
  cases hplaces : column.options.mapM (typedAs column.type) with
  | error e => simp [hplaces] at h
  | ok places =>
    simp only [hplaces] at h
    cases hstop : placeRows column places rows (column.options.map fun _ => none, []) with
    | error e =>
      simp only [hstop] at h
      cases h
    | ok stop =>
      simp only [hstop] at h
      exact ⟨places, stop, rfl, hstop, (Except.ok.inj h).symm⟩

/-- Each option of an index reads as a value of its type. -/
theorem PlacedBy.typedAs_of_mem (hby : PlacedBy column places) {value : String}
    (hvalue : value ∈ column.options) :
    ∃ y, typedAs column.type value = .ok y := by
  obtain ⟨y, -, hy⟩ := hby.typed.exists_of_mem_left hvalue
  exact ⟨y, hy⟩

/-- A row is typed for a value just where its text has the identity of the value. -/
theorem PlacedBy.typedFor_iff (hby : PlacedBy column places) {value : String}
    (hvalue : value ∈ column.options)
    {row : Row} {text : String} (htext : Assoc.get? row column.name = some (.text text))
    (hfilled : filled (Assoc.get? row column.name) = true) {x : Typed}
    (hx : typedAs column.type (pyStrip text) = .ok x) :
    TypedFor column value row ↔ View.indexIdentity column.type value =
      View.indexIdentity column.type (pyStrip text) := by
  obtain ⟨y, hy⟩ := hby.typedAs_of_mem hvalue
  rw [indexIdentity_of_typedAs hby.type hy, indexIdentity_of_typedAs hby.type hx]
  constructor
  · rintro ⟨text', x', y', htext', -, hx', hy', hsame⟩
    obtain rfl := Cell.text.inj (Option.some.inj (htext.symm.trans htext'))
    obtain rfl := Except.ok.inj (hx.symm.trans hx')
    obtain rfl := Except.ok.inj (hy.symm.trans hy')
    rw [same_of_typedAs hy hx] at hsame
    exact of_decide_eq_true hsame
  · rintro rfl
    refine ⟨text, y, y, htext, htext ▸ hfilled, hx, hy, ?_⟩
    rw [same_of_typedAs hy hy]
    exact decide_eq_true rfl

/-- Where the rows given have places, the view's rows are the preset ones. -/
theorem presets_rowUsed (hindex : valuesIndex table = some column) (hby : PlacedBy column places)
    {start stop : List (Option Row) × List Row}
    (hstop : placeRows column places rows start = .ok stop) :
    Presets column rows (View.presetRows table rows) (rowUsed column rows) where
  length := by
    refine le_antisymm (not_lt.mp fun hlt => ?_) (not_lt.mp fun hlt => ?_)
    · have h := getElem?_presetRows rows hindex column.options.length
      rw [List.getElem?_eq_getElem hlt, List.getElem?_eq_none le_rfl] at h
      cases h
    · have h := getElem?_presetRows rows hindex (View.presetRows table rows).length
      rw [List.getElem?_eq_none le_rfl, List.getElem?_eq_getElem hlt] at h
      cases h
  row i value h := by
    have hrow := getElem?_presetRows rows hindex i
    rw [h, Option.map_some] at hrow
    exact ⟨_, hrow, Assoc.get?_set_self .., fun name hname => Assoc.get?_set_ne hname ..⟩
  once i j k hi hj := rowUsed_injective hi hj
  first k row value hrow hvalue htyped hfirst := by
    obtain ⟨text, x, y, htext, hfilled, hx, hy, -⟩ := id htyped
    have hfilled' : filled (Assoc.get? row column.name) = true := htext ▸ hfilled
    have hidentity := (hby.typedFor_iff hvalue htext hfilled' hx).mp htyped
    -- the place is the first that reads as the value does
    have hplace : ∃ i, View.placeOf column row = some i := by
      rw [View.placeOf, htext]
      refine Option.isSome_iff_exists.mp ?_
      rw [List.findIdx?_isSome, List.any_eq_true]
      exact ⟨value, hvalue, by rw [hby.stripped value hvalue, hidentity]; simp⟩
    obtain ⟨i, hi⟩ := hplace
    have hfound := hi
    rw [View.placeOf, htext] at hfound
    obtain ⟨hlt, hsame, -⟩ := List.findIdx?_eq_some_iff_getElem.mp hfound
    have hvalue' := List.getElem_mem hlt
    have hsame := of_decide_eq_true hsame
    rw [hby.stripped _ hvalue'] at hsame
    refine ⟨i, column.options[i], List.getElem?_eq_getElem hlt, ?_, ?_⟩
    · obtain ⟨y', hy'⟩ := hby.typedAs_of_mem hvalue'
      rw [hy', hy]
      rw [← hidentity, indexIdentity_of_typedAs hby.type hy,
        indexIdentity_of_typedAs hby.type hy'] at hsame
      rw [hsame]
    · have hk := (List.getElem?_eq_some_iff.mp hrow).1
      have hfindIdx : rows.findIdx? (typedAt column i) = some k := by
        rw [List.findIdx?_eq_some_iff_getElem]
        refine ⟨hk, ?_, fun k' hk' htyped' => ?_⟩
        · rw [(List.getElem?_eq_some_iff.mp hrow).2, typedAt, hfilled', hi]
          simp
        · -- an earlier row of the place would be an earlier row typed for the value
          have hlt' : k' < rows.length := hk'.trans hk
          set row' := rows[k'] with hrow'
          simp only [typedAt, Bool.and_eq_true, decide_eq_true_eq] at htyped'
          obtain ⟨hfilled'', hplace'⟩ := htyped'
          have hmem : row' ∈ rows := List.getElem_mem hlt'
          cases htext' : Assoc.get? row' column.name with
          | none => simp [View.placeOf, htext'] at hplace'
          | some cell =>
            cases cell with
            | tick b => simp [View.placeOf, htext'] at hplace'
            | text text' =>
              obtain ⟨place, hrowPlace⟩ := rowPlace_of_placeRows hstop hmem
              obtain ⟨x', hx'⟩ := exists_typedAs_of_rowPlace hrowPlace hfilled'' htext'
              rw [View.placeOf, htext'] at hplace'
              obtain ⟨_, hsame', -⟩ := List.findIdx?_eq_some_iff_getElem.mp hplace'
              have hsame' := of_decide_eq_true hsame'
              rw [hby.stripped _ hvalue', hsame, ← hidentity] at hsame'
              exact hfirst k' hk' row' (List.getElem?_eq_getElem hlt')
                ((hby.typedFor_iff hvalue htext' hfilled'' hx').mpr hsame')
      rw [rowUsed, hfindIdx]
      rfl
  blank m i k hleft hblank := rowUsed_blank hleft hblank

/-- Storing what is held changes nothing. -/
theorem set_eq_self {row : Row} {name : String} {cell : Cell}
    (h : Assoc.get? row name = some cell) :
    Assoc.set row name cell = row := by
  induction row with
  | nil => cases h
  | cons e row ih =>
    rw [Assoc.get?_cons] at h
    rw [Assoc.set, Assoc.upsert]
    split_ifs at h ⊢ with hname
    · obtain ⟨held, value⟩ := e
      obtain rfl := Option.some.inj h
      subst hname
      rfl
    · exact congrArg (e :: ·) (ih h)

/-- Where no two allowed values read as one, the rows given are given again unchanged. -/
theorem presetRows_again (hindex : valuesIndex table = some column)
    (htype : column.type = .int ∨ column.type = .str)
    (hoptions : ∀ value ∈ column.options, pyStrip value = value ∧ value ≠ "")
    (hdistinct : (column.options.map (typedAs column.type)).Nodup)
    (hplaces : column.options.mapM (typedAs column.type) = .ok places) {used : ℕ → Option ℕ}
    (h : Presets column rows found used) : presetRows table found = .ok found := by
  have hby : PlacedBy column places :=
    ⟨htype, fun value hvalue => (hoptions value hvalue).1, forall₂_of_mapM hplaces⟩
  -- what each row holds in the index
  have hholds {i : ℕ} {row : Row} (hrow : found[i]? = some row) : ∃ value, column.options[i]? =
      some value ∧
      Assoc.get? row column.name = some (.text value) := by
    have hi := (List.getElem?_eq_some_iff.mp hrow).1
    rw [h.length] at hi
    obtain ⟨row', hrow', hvalue, -⟩ := h.row i _ (List.getElem?_eq_getElem hi)
    obtain rfl := Option.some.inj (hrow.symm.trans hrow')
    exact ⟨_, List.getElem?_eq_getElem hi, hvalue⟩
  have hfilled {value : String} (hvalue : value ∈ column.options) : filled (some (.text value)) =
      true := by
    obtain ⟨hstrip, hne⟩ := hoptions value hvalue
    rw [filled, hstrip]
    exact decide_eq_true hne
  have hplace {i : ℕ} {row : Row} (hrow : found[i]? = some row) : View.placeOf column row =
      some i := by
    obtain ⟨value, hvalue, htext⟩ := hholds hrow
    obtain ⟨hi, rfl⟩ := List.getElem?_eq_some_iff.mp hvalue
    rw [View.placeOf, htext]
    refine List.findIdx?_eq_some_iff_getElem.mpr ⟨hi, by simp, fun j hj hsame => ?_⟩
    have hj' : j < column.options.length := hj.trans hi
    have hsame := of_decide_eq_true hsame
    rw [hby.stripped _ (List.getElem_mem hj'), hby.stripped _ (List.getElem_mem hi)] at hsame
    obtain ⟨x, hx⟩ := hby.typedAs_of_mem (List.getElem_mem hj')
    obtain ⟨y, hy⟩ := hby.typedAs_of_mem (List.getElem_mem hi)
    rw [indexIdentity_of_typedAs htype hx, indexIdentity_of_typedAs htype hy] at hsame
    subst hsame
    have heq : (column.options.map (typedAs column.type))[j]? =
        (column.options.map (typedAs column.type))[i]? := by
      rw [List.getElem?_map, List.getElem?_map, List.getElem?_eq_getElem hj',
        List.getElem?_eq_getElem hi,
        Option.map_some, Option.map_some, hx, hy]
    exact hj.ne ((List.getElem?_inj (by simpa using hj') hdistinct).mp heq)
  have hread : ∀ row ∈ found, ∃ place, rowPlace column places row = .ok place := by
    intro row hmem
    obtain ⟨i, hrow⟩ := List.mem_iff_getElem?.mp hmem
    obtain ⟨value, hvalue, htext⟩ := hholds hrow
    have hmem := List.mem_of_getElem? hvalue
    obtain ⟨y, hy⟩ := hby.typedAs_of_mem hmem
    rw [rowPlace]
    simp only [htext, hfilled hmem, hby.stripped value hmem, hy, Bool.not_true,
      Bool.false_eq_true, if_false, bind,
      Except.bind]
    exact ⟨_, rfl⟩
  obtain ⟨stop, hstop⟩ := exists_placeRows hread (column.options.map fun _ => none, [])
  have hview : presetRows table found = .ok (View.presetRows table found) := by
    simp only [presetRows, View.presetRows, hindex, bind, Except.bind, hplaces, hstop,
      placeRows_of_ok hby hstop]
    rfl
  rw [hview]
  refine congrArg Except.ok (List.ext_getElem? fun i => ?_)
  rw [getElem?_presetRows found hindex]
  cases hrow : found[i]? with
  | none =>
    have hlen := List.getElem?_eq_none_iff.mp hrow
    rw [h.length] at hlen
    rw [List.getElem?_eq_none hlen]
    rfl
  | some row =>
    obtain ⟨value, hvalue, htext⟩ := hholds hrow
    have hused : rowUsed column found i = some i := by
      have hfirst : found.findIdx? (typedAt column i) = some i := by
        obtain ⟨hi, hget⟩ := List.getElem?_eq_some_iff.mp hrow
        refine List.findIdx?_eq_some_iff_getElem.mpr ⟨hi, ?_, fun j hj htyped => ?_⟩
        · rw [hget, typedAt, htext, hfilled (List.mem_of_getElem? hvalue), hplace hrow]
          simp
        · have hj' := hplace (List.getElem?_eq_getElem (hj.trans hi))
          simp only [typedAt, Bool.and_eq_true, decide_eq_true_eq] at htyped
          have := Option.some.inj (hj'.symm.trans htyped.2)
          omega
      rw [rowUsed, hfirst]
      rfl
    rw [hvalue, hused, Option.map_some, Option.bind_some, hrow, Option.getD_some]
    exact congrArg some (set_eq_self htext)

/-- **The rows of an index of values.** Where the text typed in the index and the allowed values
hold no white space that one language alone knows, and every number among them is read: the browser
gives the same rows; they are one for each allowed value, each made of at most one typed row as
`Presets` says; and where no two allowed values read as one, giving them again changes nothing. -/
theorem presetRows_spec (hindex : valuesIndex table = some column)
    (htype : column.type = .int ∨ column.type = .str)
    (hoptions : ∀ value ∈ column.options, pyStrip value = value ∧ value ≠ "" ∧ SpacedAlike value)
    (hrows : ∀ row ∈ rows, ReadAlike column row) (h : presetRows table rows = .ok found) :
    Browser.presetRows table rows = found ∧ (∃ used, Presets column rows found used) ∧
      ((column.options.map (typedAs column.type)).Nodup → presetRows table found = .ok found) := by
  obtain ⟨places, stop, hplaces, hstop, heq⟩ := presetRows_eq_ok hindex h
  have hby : PlacedBy column places :=
    ⟨htype, fun value hvalue => (hoptions value hvalue).1, forall₂_of_mapM hplaces⟩
  have hview : View.presetRows table rows = found := by
    simp only [View.presetRows, hindex, placeRows_of_ok hby hstop, heq]
  have hpresets : Presets column rows found (rowUsed column rows) :=
    hview ▸ presets_rowUsed hindex hby hstop
  refine ⟨?_, ⟨_, hpresets⟩, fun hdistinct => ?_⟩
  · rw [browser_presetRows hindex hrows fun value hvalue => (hoptions value hvalue).2.2, hview]
  · exact presetRows_again hindex htype
      (fun value hvalue => ⟨(hoptions value hvalue).1, (hoptions value hvalue).2.1⟩)
      hdistinct hplaces hpresets

end Rule

/-- An index giving a row for each value of a params file's column. -/
def valuesOf (type : ColumnType) (values : List String) : SchemaColumn :=
  { name := "layer", type, options := values, optionsSource :=
    some ⟨"layers.csv", "layer"⟩, index := some .values }

/-- A table with such an index, and a note on each row. -/
def notedTable (type : ColumnType) (values : List String) : SchemaTable where
  name := "layers"
  rows := .many
  inputs := [valuesOf type values, { name := "note" }]

/-- A row with a note and no layer, and a row with its layer after it. -/
def looseRows : List Row :=
  [[("note", .text "b")], [("layer", .text "excess"), ("note", .text "a")]]

/-- The rows of two allowed values: the first takes the row without a layer. -/
def layerRows : List Row :=
  [[("note", .text "b"), ("layer", .text "primary")],
    [("layer", .text "excess"), ("note", .text "a")]]

/-- Loose rows for two layers, one typed and one blank, and the rows made of them. -/
theorem presetRows_spec_excess :
    Browser.presetRows (notedTable .str ["primary", "excess"]) looseRows = layerRows ∧
      (∃ used, Presets (valuesOf .str ["primary", "excess"]) looseRows layerRows used) ∧
      (((valuesOf .str ["primary", "excess"]).options.map (typedAs .str)).Nodup →
        presetRows (notedTable .str ["primary", "excess"]) layerRows = .ok layerRows) := by
  refine @presetRows_spec _ (valuesOf .str ["primary", "excess"]) _ _ rfl (.inr rfl) ?_ ?_ rfl
  · intro value hvalue
    simp only [valuesOf, List.mem_cons, List.not_mem_nil, or_false] at hvalue
    rcases hvalue with rfl | rfl
    · exact ⟨rfl, by decide, by simp [SpacedAlike, isJsSpace, isPySpace]⟩
    · exact ⟨rfl, by decide, by simp [SpacedAlike, isJsSpace, isPySpace]⟩
  · intro row hrow text htext
    simp only [looseRows, List.mem_cons, List.not_mem_nil, or_false] at hrow
    rcases hrow with rfl | rfl
    · cases htext
    · obtain rfl : "excess" = text := Cell.text.inj (Option.some.inj htext)
      simp [SpacedAlike, isJsSpace, isPySpace]

/-- Where two allowed values read as one, giving the rows again drops what was typed on the second.
And of a row whose text holds a character that only the browser takes for white space, the browser
keeps what the server drops. -/
theorem presetRows_apart :
    (∃ table rows found, presetRows table rows = .ok found ∧ presetRows table found ≠ .ok found) ∧
      ∃ table rows found, presetRows table rows = .ok found ∧
        Browser.presetRows table rows ≠ found := by
  refine ⟨⟨notedTable .int ["1", "01"], [[("note", .text "a")], [("note", .text "b")]],
    [[("note", .text "a"), ("layer", .text "1")], [("note", .text "b"), ("layer", .text "01")]],
      rfl, ?_⟩,
    ⟨notedTable .str ["primary"], [[("layer", .text "\uFEFFprimary"), ("note", .text "a")]],
      [[("layer", .text "primary")]], rfl, ?_⟩⟩
  · have hagain : presetRows (notedTable .int ["1", "01"])
        [[("note", .text "a"), ("layer", .text "1")],
          [("note", .text "b"), ("layer", .text "01")]] =
        .ok [[("note", .text "a"), ("layer", .text "1")], [("layer", .text "01")]] := rfl
    rw [hagain]
    decide
  · have hkept : Browser.presetRows (notedTable .str ["primary"])
        [[("layer", .text "\uFEFFprimary"), ("note", .text "a")]] =
        [[("layer", .text "primary"), ("note", .text "a")]] := rfl
    rw [hkept]
    decide

end Haute.Workbench
