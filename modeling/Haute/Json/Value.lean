import Haute.Data.Assoc

/-!
# Python values

The values the shred, the inference and the assembler pass around: what a JSON parser
yields, and a date, which a typed frame can hold beside them. A dict is an association
list in insertion order; `Value.WellFormed` says that no dict inside repeats a key, which
is what makes the list a Python dict.

A float is kept as the exact rational it holds, with Python's four exceptions: the
negative zero, the infinities, and a NaN, which carries the identity of its object, since
a NaN equals nothing but is found again *as that object* in a tuple. Integers are
unbounded, as Python's are.

`identity` is the assembler's `_identity` read up to Python's `==`: two values have one
identity exactly when they are found equal as dict keys, so `1`, `1.0` and `True` share
one.
-/

namespace Haute

/-- A Python float, by the number it holds. -/
inductive PyFloat where
  | finite (q : ℚ)
  | negZero
  | inf (neg : Bool)
  | nan (obj : ℕ)
  deriving DecidableEq

/-- A value as the pipeline holds it. -/
inductive Value where
  | none
  | bool (b : Bool)
  | int (n : ℤ)
  | float (x : PyFloat)
  | str (s : String)
  | date (ordinal : ℤ)
  | list (xs : List Value)
  | dict (fields : List (String × Value))

namespace Value

instance : Inhabited Value := ⟨none⟩

/-- `isinstance(value, dict)`. -/
def isDict : Value → Bool
  | dict _ => true
  | _ => false

/-- `isinstance(value, list)`. -/
def isList : Value → Bool
  | list _ => true
  | _ => false

/-- `type(value).__name__`. -/
def typeName : Value → String
  | none => "NoneType"
  | bool _ => "bool"
  | int _ => "int"
  | float _ => "float"
  | str _ => "str"
  | date _ => "date"
  | list _ => "list"
  | dict _ => "dict"

/-- Not a dict and not a list. -/
def isScalar (v : Value) : Bool := !(v.isDict || v.isList)

@[simp] theorem isDict_dict (fs : List (String × Value)) : (dict fs).isDict = true := rfl

@[simp] theorem isList_list (xs : List Value) : (list xs).isList = true := rfl

theorem isDict_eq_true_iff {v : Value} : v.isDict = true ↔ ∃ fs, v = dict fs := by
  cases v <;> simp [isDict]

theorem isList_eq_true_iff {v : Value} : v.isList = true ↔ ∃ xs, v = list xs := by
  cases v <;> simp [isList]

theorem isScalar_iff {v : Value} : v.isScalar = true ↔ v.isDict = false ∧ v.isList = false := by
  simp [isScalar]

/-- `dict.get(key)`: a missing key reads `None`. -/
def getKey (fs : List (String × Value)) (key : String) : Value := (Assoc.get? fs key).getD none

/-! ### Induction through lists and dicts -/

section Induction

variable {motive : Value → Prop}

/-- **Induction on values**: a list by its elements, a dict by the values it holds. -/
@[elab_as_elim]
theorem ind (scalar : ∀ v : Value, v.isScalar = true → motive v)
    (list : ∀ xs, (∀ x ∈ xs, motive x) → motive (list xs))
    (dict : ∀ fs : List (String × Value), (∀ e ∈ fs, motive e.2) → motive (dict fs)) :
    ∀ v, motive v
  | none => scalar none rfl
  | bool b => scalar (bool b) rfl
  | int n => scalar (int n) rfl
  | float x => scalar (float x) rfl
  | str s => scalar (str s) rfl
  | date d => scalar (date d) rfl
  | .list xs => list xs (indList xs)
  | .dict fs => dict fs (indFields fs)
where
  indList : ∀ xs : List Value, ∀ x ∈ xs, motive x
    | [] => by simp
    | y :: ys => List.forall_mem_cons.mpr ⟨ind scalar list dict y, indList ys⟩
  indFields : ∀ fs : List (String × Value), ∀ e ∈ fs, motive e.2
    | [] => by simp
    | (_, v) :: gs => List.forall_mem_cons.mpr ⟨ind scalar list dict v, indFields gs⟩

end Induction

/-! ### Decidable equality -/

mutual

/-- Structural equality of values. -/
def beq : Value → Value → Bool
  | none, none => true
  | bool a, bool b => decide (a = b)
  | int a, int b => decide (a = b)
  | float a, float b => decide (a = b)
  | str a, str b => decide (a = b)
  | date a, date b => decide (a = b)
  | list xs, list ys => beqList xs ys
  | dict fs, dict gs => beqFields fs gs
  | _, _ => false

/-- Structural equality of value lists. -/
def beqList : List Value → List Value → Bool
  | [], [] => true
  | x :: xs, y :: ys => beq x y && beqList xs ys
  | _, _ => false

/-- Structural equality of dict contents. -/
def beqFields : List (String × Value) → List (String × Value) → Bool
  | [], [] => true
  | (k, v) :: fs, (l, w) :: gs => decide (k = l) && beq v w && beqFields fs gs
  | _, _ => false

end

mutual

theorem beq_iff : ∀ v w : Value, beq v w = true ↔ v = w
  | none, w => by cases w <;> simp [beq]
  | bool a, w => by cases w <;> simp [beq]
  | int a, w => by cases w <;> simp [beq]
  | float a, w => by cases w <;> simp [beq]
  | str a, w => by cases w <;> simp [beq]
  | date a, w => by cases w <;> simp [beq]
  | list xs, w => by cases w <;> simp [beq, beqList_iff]
  | dict fs, w => by cases w <;> simp [beq, beqFields_iff]

theorem beqList_iff : ∀ xs ys : List Value, beqList xs ys = true ↔ xs = ys
  | [], ys => by cases ys <;> simp [beqList]
  | x :: xs, ys => by cases ys <;> simp [beqList, beq_iff x, beqList_iff xs]

theorem beqFields_iff : ∀ fs gs : List (String × Value), beqFields fs gs = true ↔ fs = gs
  | [], gs => by cases gs <;> simp [beqFields]
  | (k, v) :: fs, gs => by
    cases gs <;> simp [beqFields, beq_iff v, beqFields_iff fs, Prod.ext_iff]

end

instance : DecidableEq Value := fun v w => decidable_of_iff _ (beq_iff v w)

/-! ### Well-formed dicts -/

mutual

/-- No dict inside repeats a key. -/
def WellFormed : Value → Prop
  | list xs => WellFormedList xs
  | dict fs => (Assoc.keys fs).Nodup ∧ WellFormedFields fs
  | _ => True

/-- Every element is well formed. -/
def WellFormedList : List Value → Prop
  | [] => True
  | x :: xs => WellFormed x ∧ WellFormedList xs

/-- Every value held is well formed. -/
def WellFormedFields : List (String × Value) → Prop
  | [] => True
  | (_, v) :: fs => WellFormed v ∧ WellFormedFields fs

end

end Value

/-- A JSON record: the dict a parser yields for one object, no dict in it repeating a key. -/
structure Record where
  /-- The record's items in insertion order. -/
  fields : List (String × Value)
  /-- The record is a Python dict, and so is every dict inside it. -/
  wellFormed : (Value.dict fields).WellFormed

/-- The record as a value. -/
def Record.toValue (r : Record) : Value := .dict r.fields

/-! ### Identities -/

/-- What Python's `==` and `hash` see of a value used as a dict key. -/
inductive Ident where
  | none
  | num (q : ℚ)
  | inf (neg : Bool)
  | nan (obj : ℕ)
  | str (s : String)
  | date (ordinal : ℤ)
  | tuple (xs : List Ident)

namespace Ident

mutual

/-- Structural equality of identities. -/
def beq : Ident → Ident → Bool
  | none, none => true
  | num a, num b => decide (a = b)
  | inf a, inf b => decide (a = b)
  | nan a, nan b => decide (a = b)
  | str a, str b => decide (a = b)
  | date a, date b => decide (a = b)
  | tuple xs, tuple ys => beqList xs ys
  | _, _ => false

/-- Structural equality of identity lists. -/
def beqList : List Ident → List Ident → Bool
  | [], [] => true
  | x :: xs, y :: ys => beq x y && beqList xs ys
  | _, _ => false

end

mutual

theorem beq_iff : ∀ a b : Ident, beq a b = true ↔ a = b
  | none, b => by cases b <;> simp [beq]
  | num q, b => by cases b <;> simp [beq]
  | inf neg, b => by cases b <;> simp [beq]
  | nan obj, b => by cases b <;> simp [beq]
  | str s, b => by cases b <;> simp [beq]
  | date d, b => by cases b <;> simp [beq]
  | tuple xs, b => by cases b <;> simp [beq, beqList_iff]

theorem beqList_iff : ∀ as bs : List Ident, beqList as bs = true ↔ as = bs
  | [], bs => by cases bs <;> simp [beqList]
  | a :: as, bs => by cases bs <;> simp [beqList, beq_iff a, beqList_iff as]

end

instance : DecidableEq Ident := fun a b => decidable_of_iff _ (beq_iff a b)

end Ident

mutual

/-- Canonicalise one value into a hashable identity component: a scalar is itself, a list
the tuple of its elements' identities, a dict the tuple of its items in order. -/
def identity : Value → Ident
  | .none => .none
  | .bool b => .num (if b then 1 else 0)
  | .int n => .num n
  | .float (.finite q) => .num q
  | .float .negZero => .num 0
  | .float (.inf neg) => .inf neg
  | .float (.nan obj) => .nan obj
  | .str s => .str s
  | .date d => .date d
  | .list xs => .tuple (identityList xs)
  | .dict fs => .tuple (identityFields fs)

/-- The identities of a list's elements. -/
def identityList : List Value → List Ident
  | [] => []
  | x :: xs => identity x :: identityList xs

/-- The identities of a dict's items. -/
def identityFields : List (String × Value) → List Ident
  | [] => []
  | (k, v) :: fs => .tuple [.str k, identity v] :: identityFields fs

end

end Haute
