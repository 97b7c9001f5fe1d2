import Mathlib.Data.List.Forall2
import Mathlib.Tactic.Common

/-!
# Python expressions, read from their tokens

The part of Python's expression grammar that has operators, calls, attributes and lists:
comparisons, `|`, `&`, `+` and `-`, `*`, `/`, `//` and `%`, the unary operators, `**`, and
under these the primaries. `Reads g ts e rest` says that reading the goal `g` at the head of
the tokens `ts` gives the tree `e` and leaves `rest`; each operator is taken as far as it
goes, as Python's grammar takes it, so what is read is determined (`Reads.unique`).

The second half composes readings of texts: `Prim` for a text that reads as a primary,
`Fac` for one that reads as an operand of any operator, `Lev n` for one that a chain of the
operators of level `n` may continue, and `Val` for one that reads as a whole expression.
-/

namespace Haute.Data.PyExpr

/-- The comparison operators. -/
inductive CmpOp where
  | eq
  | ne
  | lt
  | le
  | gt
  | ge
  deriving DecidableEq

/-- The binary operators below the comparisons. -/
inductive BinOp where
  | bitOr
  | bitAnd
  | add
  | sub
  | mul
  | div
  | floorDiv
  | mod
  | pow
  deriving DecidableEq

/-- The unary operators. -/
inductive UnaryOp where
  | plus
  | minus
  | invert
  deriving DecidableEq

/-- A token. A string or a number is one token, the blanks between tokens are none. -/
inductive Token where
  | name (s : String)
  | str (s : String)
  | num (s : String)
  | cmp (op : CmpOp)
  | bin (op : BinOp)
  | tilde
  | dot
  | comma
  | assign
  | lpar
  | rpar
  | lbrack
  | rbrack
  deriving DecidableEq

/-- A tree. -/
inductive Py where
  | name (s : String)
  | str (s : String)
  | num (s : String)
  | attr (e : Py) (s : String)
  | call (f : Py) (args : List (Option String × Py))
  | list (es : List Py)
  | unary (op : UnaryOp) (e : Py)
  | binary (op : BinOp) (l r : Py)
  | compare (first : Py) (rest : List (CmpOp × Py))

/-- The level of a chain of operators, `**` apart. -/
def BinOp.level : BinOp → ℕ
  | bitOr => 1
  | bitAnd => 2
  | add | sub => 3
  | mul | div | floorDiv | mod => 4
  | pow => 6

/-- The unary operator a token is. -/
def unaryOf : Token → Option UnaryOp
  | .bin .add => some .plus
  | .bin .sub => some .minus
  | .tilde => some .invert
  | _ => none

/-- How tightly a token binds to what stands before it. -/
def tight : Token → ℕ
  | .cmp _ => 1
  | .bin op => op.level + 1
  | .dot | .lpar | .lbrack => 8
  | _ => 0

/-- What is being read. -/
inductive Goal where
  /-- An operand of level `n`: 0 a comparison, 1 to 4 a chain of operators, 5 a factor. -/
  | level (n : ℕ)
  /-- The rest of a comparison. -/
  | compares (first : Py) (rest : List (CmpOp × Py))
  /-- The rest of a chain of level `n`. -/
  | more (n : ℕ) (left : Py)
  | primary
  /-- What may follow a primary in a power. -/
  | power (base : Py)
  | trailers (e : Py)
  | args (f : Py) (acc : List (Option String × Py))
  | argsEnd (f : Py) (acc : List (Option String × Py))
  | items (acc : List Py)
  | itemsEnd (acc : List Py)

/-- The next token, if there is one, binds no tighter than `n`. -/
def Ends (n : ℕ) (rest : List Token) : Prop := ∀ t ∈ rest.head?, tight t ≤ n

theorem Ends.nil (n : ℕ) : Ends n [] := by simp [Ends]

theorem Ends.cons {n : ℕ} {t : Token} (h : tight t ≤ n) (rest : List Token) :
    Ends n (t :: rest) := by
  simpa [Ends] using h

/-- What ends a loose operand ends a tighter one. -/
theorem Ends.mono {m n : ℕ} {rest : List Token} (h : Ends m rest) (hmn : m ≤ n) : Ends n rest :=
  fun t ht => Nat.le_trans (h t ht) hmn

/-- The grammar. -/
inductive Reads : Goal → List Token → Py → List Token → Prop where
  | compare {ts l ts' e r} (hl : Reads (.level 1) ts l ts')
    (hmore : Reads (.compares l []) ts' e r) :
      Reads (.level 0) ts e r
  | comparesStep {first rest op ts x ts' e r} (hx : Reads (.level 1) ts x ts')
      (hmore : Reads (.compares first (rest ++ [(op, x)])) ts' e r) :
      Reads (.compares first rest) (.cmp op :: ts) e r
  | comparesOne {first ts} (hstop : ∀ op ts', ts ≠ .cmp op :: ts') : Reads
    (.compares first []) ts first ts
  | comparesStop {first rest ts} (hne : rest ≠ []) (hstop : ∀ op ts', ts ≠ .cmp op :: ts') :
      Reads (.compares first rest) ts (.compare first rest) ts
  | chain {n ts l ts' e r} (hn : 1 ≤ n ∧ n ≤ 4) (hl : Reads (.level (n + 1)) ts l ts')
      (hmore : Reads (.more n l) ts' e r) : Reads (.level n) ts e r
  | moreStep {n left op ts x ts' e r} (hop : op.level = n) (hx : Reads (.level (n + 1)) ts x ts')
      (hmore : Reads (.more n (.binary op left x)) ts' e r) :
      Reads (.more n left) (.bin op :: ts) e r
  | moreStop {n left ts} (hstop : ∀ op ts', ts = .bin op :: ts' → op.level ≠ n) :
      Reads (.more n left) ts left ts
  | unary {t op ts e r} (ht : unaryOf t = some op) (he : Reads (.level 5) ts e r) :
      Reads (.level 5) (t :: ts) (.unary op e) r
  | factor {ts b ts' e r} (hb : Reads .primary ts b ts') (hpower : Reads (.power b) ts' e r) :
      Reads (.level 5) ts e r
  | powerStep {b ts e r} (he : Reads (.level 5) ts e r) :
      Reads (.power b) (.bin .pow :: ts) (.binary .pow b e) r
  | powerStop {b ts} (hstop : ∀ ts', ts ≠ .bin .pow :: ts') : Reads (.power b) ts b ts
  | name {s ts e r} (h : Reads (.trailers (.name s)) ts e r) : Reads .primary (.name s :: ts) e r
  | str {s ts e r} (h : Reads (.trailers (.str s)) ts e r) : Reads .primary (.str s :: ts) e r
  | num {s ts e r} (h : Reads (.trailers (.num s)) ts e r) : Reads .primary (.num s :: ts) e r
  | paren {ts x ts' e r} (hx : Reads (.level 0) ts x (.rpar :: ts'))
    (h : Reads (.trailers x) ts' e r) :
      Reads .primary (.lpar :: ts) e r
  | list {ts x ts' e r} (hx : Reads (.items []) ts x ts') (h : Reads (.trailers x) ts' e r) :
      Reads .primary (.lbrack :: ts) e r
  | attr {b s ts e r} (h : Reads (.trailers (.attr b s)) ts e r) :
      Reads (.trailers b) (.dot :: .name s :: ts) e r
  | call {f ts x ts' e r} (hx : Reads (.args f []) ts x ts') (h : Reads (.trailers x) ts' e r) :
      Reads (.trailers f) (.lpar :: ts) e r
  | trailersStop {e ts} (hstop : Ends 7 ts) : Reads (.trailers e) ts e ts
  | argsNone {f acc ts} : Reads (.args f acc) (.rpar :: ts) (.call f acc) ts
  | argsKeyword {f acc k ts x ts' e r} (hx : Reads (.level 0) ts x ts')
      (h : Reads (.argsEnd f (acc ++ [(some k, x)])) ts' e r) :
      Reads (.args f acc) (.name k :: .assign :: ts) e r
  | argsOne {f acc ts x ts' e r} (hkeyword : ∀ k ts', ts ≠ .name k :: .assign :: ts')
      (hx : Reads (.level 0) ts x ts') (h : Reads (.argsEnd f (acc ++ [(none, x)])) ts' e r) :
      Reads (.args f acc) ts e r
  | argsClose {f acc ts} : Reads (.argsEnd f acc) (.rpar :: ts) (.call f acc) ts
  | argsComma {f acc ts e r} (h : Reads (.args f acc) ts e r) : Reads (.argsEnd f acc)
    (.comma :: ts) e r
  | itemsNone {acc ts} : Reads (.items acc) (.rbrack :: ts) (.list acc) ts
  | itemsOne {acc ts x ts' e r} (hx : Reads (.level 0) ts x ts')
      (h : Reads (.itemsEnd (acc ++ [x])) ts' e r) : Reads (.items acc) ts e r
  | itemsClose {acc ts} : Reads (.itemsEnd acc) (.rbrack :: ts) (.list acc) ts
  | itemsComma {acc ts e r} (h : Reads (.items acc) ts e r) : Reads (.itemsEnd acc)
    (.comma :: ts) e r

/-- A token an expression may start with. -/
def starts : Token → Bool
  | .name _ | .str _ | .num _ | .lpar | .lbrack | .tilde | .bin .add | .bin .sub => true
  | _ => false

/-- An operand starts as an expression does, a primary not with a unary operator. -/
theorem Reads.starts {g : Goal} {ts : List Token} {e : Py} {r : List Token} (h : Reads g ts e r) :
    ((∃ n, g = .level n) → ∃ t rest, ts = t :: rest ∧ PyExpr.starts t = true) ∧
      (g = .primary → ∃ t rest, ts = t :: rest ∧ PyExpr.starts t = true ∧ unaryOf t = none) := by
  induction h with
  | compare _ _ ihl _ => exact ⟨fun _ => ihl.1 ⟨1, rfl⟩, by simp⟩
  | chain _ _ _ ihl _ => exact ⟨fun _ => ihl.1 ⟨_, rfl⟩, by simp⟩
  | @unary t op ts e r ht _ _ =>
    refine ⟨fun _ => ⟨t, ts, rfl, ?_⟩, by simp⟩
    cases t with
    | bin op => cases op <;> simp_all [unaryOf, PyExpr.starts]
    | _ => simp_all [unaryOf, PyExpr.starts]
  | factor _ _ ihb _ =>
    refine ⟨fun _ => ?_, by simp⟩
    obtain ⟨t, rest, hts, hstart, -⟩ := ihb.2 rfl
    exact ⟨t, rest, hts, hstart⟩
  | name | str | num | paren | list =>
    exact ⟨by simp, fun _ => ⟨_, _, rfl, rfl, rfl⟩⟩
  | _ => exact ⟨by simp, by simp⟩

/-- What is read is determined by the goal and the tokens. -/
theorem Reads.unique {g : Goal} {ts : List Token} {e e' : Py} {r r' : List Token}
    (h : Reads g ts e r)
    (h' : Reads g ts e' r') : e = e' ∧ r = r' := by
  -- each goal says from the first token which of its rules reads it
  induction h generalizing e' r' with
  | compare _ _ ihl ihm =>
    cases h' with
    | compare hl' hm' =>
      obtain ⟨rfl, rfl⟩ := ihl hl'
      exact ihm hm'
    | chain hn => omega
  | comparesStep _ _ ihx ihm =>
    cases h' with
    | comparesStep hx' hm' =>
      obtain ⟨rfl, rfl⟩ := ihx hx'
      exact ihm hm'
    | comparesOne hstop => exact absurd rfl (hstop _ _)
    | comparesStop _ hstop => exact absurd rfl (hstop _ _)
  | comparesOne hstop =>
    cases h' with
    | comparesStep => exact absurd rfl (hstop _ _)
    | comparesOne => exact ⟨rfl, rfl⟩
    | comparesStop hne => exact absurd rfl hne
  | comparesStop hne hstop =>
    cases h' with
    | comparesStep => exact absurd rfl (hstop _ _)
    | comparesOne => exact absurd rfl hne
    | comparesStop => exact ⟨rfl, rfl⟩
  | chain hn _ _ ihl ihm =>
    cases h' with
    | compare => omega
    | chain _ hl' hm' =>
      obtain ⟨rfl, rfl⟩ := ihl hl'
      exact ihm hm'
    | unary => omega
    | factor => omega
  | moreStep hop _ _ ihx ihm =>
    cases h' with
    | moreStep _ hx' hm' =>
      obtain ⟨rfl, rfl⟩ := ihx hx'
      exact ihm hm'
    | moreStop hstop => exact absurd hop (hstop _ _ rfl)
  | moreStop hstop =>
    cases h' with
    | moreStep hop => exact absurd hop (hstop _ _ rfl)
    | moreStop => exact ⟨rfl, rfl⟩
  | unary ht _ ih =>
    cases h' with
    | chain hn => omega
    | unary ht' he' =>
      obtain ⟨rfl, rfl⟩ := ih he'
      obtain rfl := Option.some.inj (ht.symm.trans ht')
      exact ⟨rfl, rfl⟩
    | factor hb' =>
      obtain ⟨t, rest, hts, -, hnone⟩ := hb'.starts.2 rfl
      cases hts
      rw [hnone] at ht
      cases ht
  | factor hb _ ihb ihp =>
    cases h' with
    | chain hn => omega
    | unary ht' =>
      obtain ⟨t, rest, hts, -, hnone⟩ := hb.starts.2 rfl
      cases hts
      rw [hnone] at ht'
      cases ht'
    | factor hb' hp' =>
      obtain ⟨rfl, rfl⟩ := ihb hb'
      exact ihp hp'
  | powerStep _ ih =>
    cases h' with
    | powerStep he' =>
      obtain ⟨rfl, rfl⟩ := ih he'
      exact ⟨rfl, rfl⟩
    | powerStop hstop => exact absurd rfl (hstop _)
  | powerStop hstop =>
    cases h' with
    | powerStep => exact absurd rfl (hstop _)
    | powerStop => exact ⟨rfl, rfl⟩
  | name _ ih =>
    cases h' with
    | name h' => exact ih h'
  | str _ ih =>
    cases h' with
    | str h' => exact ih h'
  | num _ ih =>
    cases h' with
    | num h' => exact ih h'
  | paren _ _ ihx ih =>
    cases h' with
    | paren hx' h' =>
      obtain ⟨rfl, hts⟩ := ihx hx'
      cases hts
      exact ih h'
  | list _ _ ihx ih =>
    cases h' with
    | list hx' h' =>
      obtain ⟨rfl, rfl⟩ := ihx hx'
      exact ih h'
  | attr _ ih =>
    cases h' with
    | attr h' => exact ih h'
    | trailersStop hstop => exact absurd (hstop .dot rfl) (by decide)
  | call _ _ ihx ih =>
    cases h' with
    | call hx' h' =>
      obtain ⟨rfl, rfl⟩ := ihx hx'
      exact ih h'
    | trailersStop hstop => exact absurd (hstop .lpar rfl) (by decide)
  | trailersStop hstop =>
    cases h' with
    | attr => exact absurd (hstop .dot rfl) (by decide)
    | call => exact absurd (hstop .lpar rfl) (by decide)
    | trailersStop => exact ⟨rfl, rfl⟩
  | argsNone =>
    cases h' with
    | argsNone => exact ⟨rfl, rfl⟩
    | argsOne _ hx' =>
      obtain ⟨t, rest, hts, hstart⟩ := hx'.starts.1 ⟨0, rfl⟩
      cases hts
      cases hstart
  | argsKeyword _ _ ihx ih =>
    cases h' with
    | argsKeyword hx' h' =>
      obtain ⟨rfl, rfl⟩ := ihx hx'
      exact ih h'
    | argsOne hkeyword => exact absurd rfl (hkeyword _ _)
  | argsOne hkeyword hx _ ihx ih =>
    cases h' with
    | argsNone =>
      obtain ⟨t, rest, hts, hstart⟩ := hx.starts.1 ⟨0, rfl⟩
      cases hts
      cases hstart
    | argsKeyword => exact absurd rfl (hkeyword _ _)
    | argsOne _ hx' h' =>
      obtain ⟨rfl, rfl⟩ := ihx hx'
      exact ih h'
  | argsClose =>
    cases h' with
    | argsClose => exact ⟨rfl, rfl⟩
  | argsComma _ ih =>
    cases h' with
    | argsComma h' => exact ih h'
  | itemsNone =>
    cases h' with
    | itemsNone => exact ⟨rfl, rfl⟩
    | itemsOne hx' =>
      obtain ⟨t, rest, hts, hstart⟩ := hx'.starts.1 ⟨0, rfl⟩
      cases hts
      cases hstart
  | itemsOne hx _ ihx ih =>
    cases h' with
    | itemsNone =>
      obtain ⟨t, rest, hts, hstart⟩ := hx.starts.1 ⟨0, rfl⟩
      cases hts
      cases hstart
    | itemsOne hx' h' =>
      obtain ⟨rfl, rfl⟩ := ihx hx'
      exact ih h'
  | itemsClose =>
    cases h' with
    | itemsClose => exact ⟨rfl, rfl⟩
  | itemsComma _ ih =>
    cases h' with
    | itemsComma h' => exact ih h'

/-! ### Composing readings -/

/-- A text that reads as a primary, whatever trailers follow. -/
def Prim (ts : List Token) (e : Py) : Prop :=
  ∀ rest out r, Reads (.trailers e) rest out r → Reads .primary (ts ++ rest) out r

/-- A text that reads as a factor: an operand of any operator but the left one of `**`. -/
def Fac (ts : List Token) (e : Py) : Prop :=
  ∀ rest, Ends 5 rest → Reads (.level 5) (ts ++ rest) e rest

/-- A text that a chain of level `n` may continue. -/
def Lev (n : ℕ) (ts : List Token) (e : Py) : Prop :=
  ∀ rest out r, Ends (n + 1) rest → Reads (.more n e) rest out r →
    Reads (.level n) (ts ++ rest) out r

/-- A text that reads as a whole expression. -/
def Val (ts : List Token) (e : Py) : Prop :=
  ∀ rest, Ends 0 rest → Reads (.level 0) (ts ++ rest) e rest

section Compose

variable {ts us : List Token} {e x : Py} {n : ℕ}

theorem Prim.name (s : String) : Prim [.name s] (.name s) := fun _ _ _ h => .name h

theorem Prim.str (s : String) : Prim [.str s] (.str s) := fun _ _ _ h => .str h

theorem Prim.num (s : String) : Prim [.num s] (.num s) := fun _ _ _ h => .num h

/-- An attribute of a primary is a primary. -/
theorem Prim.attr (h : Prim ts e) (s : String) : Prim (ts ++ [.dot, .name s]) (.attr e s) := by
  intro rest out r hrest
  rw [List.append_assoc]
  exact h _ _ _ (.attr hrest)

/-- What stands in parentheses is a primary. -/
theorem Prim.paren (h : Val ts e) : Prim (.lpar :: ts ++ [.rpar]) e := by
  intro rest out r hrest
  simp only [List.cons_append, List.append_assoc]
  exact .paren (h _ (.cons (by decide) _)) hrest

/-- Any trailer-free rest leaves a primary as it is. -/
theorem Prim.reads (h : Prim ts e) {rest : List Token} (hrest : Ends 7 rest) :
    Reads .primary (ts ++ rest) e rest := h _ _ _ (.trailersStop hrest)

/-- A primary is a factor. -/
theorem Prim.fac (h : Prim ts e) : Fac ts e := by
  intro rest hrest
  refine .factor (h.reads (hrest.mono (by omega))) (.powerStop fun ts' hts => ?_)
  subst hts
  exact absurd (hrest _ rfl) (by decide)

/-- A signed factor is a factor. -/
theorem Fac.unary {t : Token} {op : UnaryOp} (ht : unaryOf t = some op) (h : Fac ts e) :
    Fac (t :: ts) (.unary op e) := fun rest hrest => .unary ht (h rest hrest)

/-- A power of a primary is a factor. -/
theorem Fac.pow (h : Prim ts e) (hx : Fac us x) :
    Fac (ts ++ .bin .pow :: us) (.binary .pow e x) := by
  intro rest hrest
  rw [List.append_assoc, List.cons_append]
  exact .factor (h.reads (.cons (by decide) _)) (.powerStep (hx rest hrest))

/-- A factor is an operand of the tightest level. -/
theorem Fac.lev4 (h : Fac ts e) : Lev 4 ts e :=
  fun rest _ _ hrest hmore => .chain (by omega) (h rest hrest) hmore

/-- An operand of one level is one of the level below. -/
theorem Lev.down (hn : 1 ≤ n ∧ n ≤ 3) (h : Lev (n + 1) ts e) : Lev n ts e := by
  intro rest out r hrest hmore
  refine .chain (by omega)
    (h _ _ _ (hrest.mono (by omega)) (.moreStop fun op ts' hts hlevel => ?_)) hmore
  subst hts
  have htight := hrest _ rfl
  simp only [tight, hlevel] at htight
  omega

/-- A factor is an operand of every level. -/
theorem Fac.lev (hn : 1 ≤ n ∧ n ≤ 4) (h : Fac ts e) : Lev n ts e := by
  obtain rfl | rfl | rfl | rfl : n = 4 ∨ n = 3 ∨ n = 2 ∨ n = 1 := by omega
  · exact h.lev4
  · exact h.lev4.down (by omega)
  · exact (h.lev4.down (by omega)).down (by omega)
  · exact ((h.lev4.down (by omega)).down (by omega)).down (by omega)

/-- A level reads what is of a tighter one. -/
theorem Lev.mono {m : ℕ} (hn : 1 ≤ n) (hm : m ≤ 4) (hnm : n ≤ m) (h : Lev m ts e) : Lev n ts e := by
  induction hnm with
  | refl => exact h
  | @step m hnm ih =>
    have hle : n ≤ m := hnm
    exact ih (by omega) (h.down (by omega))

/-- A factor is read at each level below. -/
theorem Fac.reads (hn : 1 ≤ n ∧ n ≤ 5) (h : Fac ts e) {rest : List Token} (hrest : Ends n rest) :
    Reads (.level n) (ts ++ rest) e rest := by
  by_cases h5 : n = 5
  · subst h5
    exact h rest hrest
  · refine h.lev (by omega) _ _ _ (hrest.mono (by omega)) (.moreStop fun op ts' hts hlevel => ?_)
    subst hts
    have htight := hrest _ rfl
    simp only [tight, hlevel] at htight
    omega

/-- A chain goes on with an operator of its level and an operand of any. -/
theorem Lev.binary {op : BinOp} (hop : op.level ≤ 4) (h : Lev op.level ts e) (hx : Fac us x) :
    Lev op.level (ts ++ .bin op :: us) (.binary op e x) := by
  intro rest out r hrest hmore
  have hpos : 1 ≤ op.level := by cases op <;> decide
  rw [List.append_assoc, List.cons_append]
  exact h _ _ _ (.cons (Nat.le_refl _) _) (.moreStep rfl (hx.reads (by omega) hrest) hmore)

/-- An operand of the loosest level is a value. -/
theorem Lev.val (h : Lev 1 ts e) : Val ts e := by
  intro rest hrest
  refine .compare (h _ _ _ (hrest.mono (by omega)) (.moreStop fun op ts' hts hlevel => ?_))
    (.comparesOne fun op ts' hts => ?_)
  · subst hts
    exact absurd (hrest _ rfl) (by simp [tight])
  · subst hts
    exact absurd (hrest _ rfl) (by simp [tight])

/-- A factor is a value. -/
theorem Fac.val (h : Fac ts e) : Val ts e := (h.lev (by omega)).val

/-- A primary is a value. -/
theorem Prim.val (h : Prim ts e) : Val ts e := h.fac.val

/-- A comparison of factors is a value. -/
theorem Val.compare {op : CmpOp} (h : Fac ts e) (hx : Fac us x) :
    Val (ts ++ .cmp op :: us) (.compare e [(op, x)]) := by
  intro rest hrest
  rw [List.append_assoc, List.cons_append]
  refine .compare (h.reads (by omega) (.cons (by simp [tight]) _)) ?_
  refine .comparesStep (hx.reads (by omega) (hrest.mono (by omega))) ?_
  refine .comparesStop (by simp) fun op' ts' hts => ?_
  subst hts
  exact absurd (hrest _ rfl) (by simp [tight])

/-! ### Arguments and items -/

/-- The text of an argument, and what it reads as. -/
inductive Arg : List Token → Option String × Py → Prop where
  | one {text value} (h : Val text value) : Arg text (none, value)
  | keyword {text value} (k : String) (h : Val text value) : Arg (.name k :: .assign :: text)
    (some k, value)

/-- Texts with commas between them. -/
def commas : List (List Token) → List Token
  | [] => []
  | [ts] => ts
  | ts :: rest => ts ++ .comma :: commas rest

/-- Nothing that reads as an expression up to a comma or a bracket starts as a keyword
argument. -/
theorem Reads.not_keyword {r : List Token} (h : Reads (.level 0) ts e r)
    (hr : ∀ r', r ≠ .assign :: r')
    (k : String) (ts' : List Token) : ts ≠ .name k :: .assign :: ts' := by
  rintro rfl
  have hname : Reads (.level 0) (.name k :: .assign :: ts') (.name k) (.assign :: ts') :=
    (Prim.name k).val _ (.cons (by decide) _)
  exact hr _ (hname.unique h).2.symm

/-- Arguments with commas between them read up to the closing parenthesis. -/
theorem reads_args {f : Py} {acc : List (Option String × Py)} {texts : List (List Token)}
    {args : List (Option String × Py)} (h : List.Forall₂ Arg texts args) (rest : List Token) :
    Reads (.args f acc) (commas texts ++ .rpar :: rest) (.call f (acc ++ args)) rest := by
  induction h generalizing acc with
  | nil =>
    rw [List.append_nil]
    exact .argsNone
  | @cons ts arg texts args harg hargs ih =>
    have hstep : ∀ after, (∃ t, after.head? = some t ∧ tight t = 0 ∧ t ≠ .assign) →
        ∀ out r, Reads (.argsEnd f (acc ++ [arg])) after out r →
          Reads (.args f acc) (ts ++ after) out r := by
      rintro after ⟨t, ht, htight, hassign⟩ out r hafter
      have hends : Ends 0 after := fun t' ht' => by
        rw [ht] at ht'
        cases ht'
        exact Nat.le_of_eq htight
      cases harg with
      | one hval =>
        have hread := hval _ hends
        refine .argsOne (hread.not_keyword fun r' hr => ?_) hread hafter
        subst hr
        exact hassign (Option.some.inj ht).symm
      | keyword k hval => exact .argsKeyword (hval _ hends) hafter
    cases hargs with
    | nil =>
      refine hstep _ ⟨.rpar, rfl, rfl, by decide⟩ _ _ ?_
      exact .argsClose
    | @cons ts' arg' texts args harg' hargs' =>
      rw [commas, List.append_assoc, List.cons_append]
      refine hstep _ ⟨.comma, rfl, rfl, by decide⟩ _ _ (.argsComma ?_)
      · have := @ih (acc ++ [arg])
        rwa [List.append_assoc] at this
      · simp

/-- A call. -/
theorem Prim.call (h : Prim ts e) {texts : List (List Token)} {args : List (Option String × Py)}
    (hargs : List.Forall₂ Arg texts args) :
    Prim (ts ++ .lpar :: commas texts ++ [.rpar]) (.call e args) := by
  intro rest out r hrest
  simp only [List.append_assoc, List.cons_append, List.nil_append]
  exact h _ _ _ (.call (reads_args hargs rest) hrest)

/-- Items with commas between them read up to the closing bracket. -/
theorem reads_items {acc : List Py} {texts : List (List Token)} {es : List Py}
    (h : List.Forall₂ Val texts es) (rest : List Token) :
    Reads (.items acc) (commas texts ++ .rbrack :: rest) (.list (acc ++ es)) rest := by
  induction h generalizing acc with
  | nil =>
    rw [List.append_nil]
    exact .itemsNone
  | @cons ts e texts es hval hes ih =>
    cases hes with
    | nil => exact .itemsOne (hval _ (.cons (by decide) _)) .itemsClose
    | @cons ts' e' texts es hval' hes' =>
      rw [commas, List.append_assoc, List.cons_append]
      · refine .itemsOne (hval _ (.cons (by decide) _)) (.itemsComma ?_)
        have := @ih (acc ++ [e])
        rwa [List.append_assoc] at this
      · simp

/-- A list. -/
theorem Prim.list {texts : List (List Token)} {es : List Py} (h : List.Forall₂ Val texts es) :
    Prim (.lbrack :: commas texts ++ [.rbrack]) (.list es) := by
  intro rest out r hrest
  simp only [List.cons_append, List.append_assoc]
  exact .list (reads_items h rest) hrest

/-- A text that reads as a whole expression reads as nothing else. -/
theorem Val.reads_iff (h : Val ts e) {out : Py} {rest : List Token} :
    Reads (.level 0) ts out rest ↔ out = e ∧ rest = [] := by
  have hread := h [] (.nil 0)
  rw [List.append_nil] at hread
  constructor
  · intro hout
    exact hout.unique hread
  · rintro ⟨rfl, rfl⟩
    exact hread

end Compose

end Haute.Data.PyExpr
