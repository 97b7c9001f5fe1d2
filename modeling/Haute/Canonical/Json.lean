import Haute.Data.JsonOrder
import Mathlib.Data.Prod.Lex
import Mathlib.Order.WithBot

/-!
# Canonical JSON

The one text under which a value of cache-key material is digested: tuples are written as lists,
a set as the list of its members in the order of a key of their own, and the keys of every
mapping are sorted. `normal` says what is written, each level from the one below
(`sortKeys_canonicalise`).
-/

namespace Haute.Canonical

open Haute.Data

variable {F L : Type} [LinearOrder L]

/-- A value of Python: what holds nothing, strings, and containers with their elements in the
order they are iterated in. All NaNs are one float. -/
inductive PyValue (F : Type) where
  | scalar (s : Scalar F)
  | str (s : String)
  | list (xs : List (PyValue F))
  | tuple (xs : List (PyValue F))
  | set (xs : List (PyValue F))
  | frozenset (xs : List (PyValue F))
  | dict (fs : List (String × PyValue F))

/-- Numbers: how floats are written, and where integers and floats stand in their order, NaN
nowhere. -/
structure Numbers (F L : Type) where
  floats : FloatText F
  ofInt : ℤ → L
  ofFloat : F → Option L
  nan_unique : ∀ x y, ofFloat x = none → ofFloat y = none → x = y

/-- What a set's members are ordered by: the type's tag, then what values of that type are
compared by, a truth value, a number or a text; a NaN, which compares with nothing, is marked and
comes after the other numbers. -/
abbrev SortKey (L : Type) := ℕ ×ₗ Bool ×ₗ WithBot L ×ₗ String

/-- A key made of its parts. -/
def SortKey.mk (tag : ℕ) (flag : Bool) (number : WithBot L) (text : String) : SortKey L :=
  toLex (tag, toLex (flag, toLex (number, text)))

/-- The key of a canonicalised member. -/
def sortKey (N : Numbers F L) : Json F → SortKey L
  | .scalar .null => SortKey.mk 0 false ⊥ ""
  | .scalar (.bool b) => SortKey.mk 1 b ⊥ ""
  | .scalar (.int n) => SortKey.mk 2 false (N.ofInt n) ""
  | .scalar (.float x) =>
    match N.ofFloat x with
    | some number => SortKey.mk 2 false number ""
    | none => SortKey.mk 2 true ⊥ ""
  | .str s => SortKey.mk 3 false ⊥ s
  | .arr xs => SortKey.mk 4 false ⊥ ((Json.arr xs).dumps N.floats)
  | .obj fs => SortKey.mk 5 false ⊥ ((Json.obj fs).dumps N.floats)

mutual

/-- The value as a document: tuples as lists, sets as lists in the order of their members'
keys. -/
def canonicalise (N : Numbers F L) : PyValue F → Json F
  | .scalar s => .scalar s
  | .str s => .str s
  | .list xs => .arr (canonicaliseAll N xs)
  | .tuple xs => .arr (canonicaliseAll N xs)
  | .set xs => .arr (sortOn (sortKey N) (canonicaliseAll N xs))
  | .frozenset xs => .arr (sortOn (sortKey N) (canonicaliseAll N xs))
  | .dict fs => .obj (canonicaliseEntries N fs)

/-- Every element as a document. -/
def canonicaliseAll (N : Numbers F L) : List (PyValue F) → List (Json F)
  | [] => []
  | x :: xs => canonicalise N x :: canonicaliseAll N xs

/-- Every entry's value as a document. -/
def canonicaliseEntries (N : Numbers F L) : List (String × PyValue F) → List (String × Json F)
  | [] => []
  | (k, v) :: fs => (k, canonicalise N v) :: canonicaliseEntries N fs

end

mutual

/-- Whether a document has an integer with more digits than are written. -/
def longInt : Json F → Bool
  | .scalar (.int n) => decide (4300 < (Nat.toDigits 10 n.natAbs).length)
  | .scalar _ => false
  | .str _ => false
  | .arr xs => longIntAmong xs
  | .obj fs => longIntIn fs

/-- Whether an element has one. -/
def longIntAmong : List (Json F) → Bool
  | [] => false
  | x :: xs => longInt x || longIntAmong xs

/-- Whether an entry's value has one. -/
def longIntIn : List (String × Json F) → Bool
  | [] => false
  | (_, v) :: fs => longInt v || longIntIn fs

end

/-- Why there is no text: an integer exceeds the limit for conversion to text. -/
inductive CanonicalError where
  | tooManyDigits

/-- The canonical text. Ordering a set's members may write some of them first, which fails no
sooner than writing the whole. -/
def canonicalJson (N : Numbers F L) (v : PyValue F) : Except CanonicalError String :=
  if longInt (canonicalise N v) then .error .tooManyDigits
  else .ok ((canonicalise N v).dumps N.floats)

/-! ### Level by level -/

variable (N : Numbers F L)

theorem canonicaliseAll_eq_map (xs : List (PyValue F)) :
    canonicaliseAll N xs = xs.map (canonicalise N) := by
  induction xs with
  | nil => rfl
  | cons x xs ih => rw [canonicaliseAll, ih, List.map_cons]

theorem canonicaliseEntries_eq_map (fs : List (String × PyValue F)) :
    canonicaliseEntries N fs = fs.map fun e => (e.1, canonicalise N e.2) := by
  induction fs with
  | nil => rfl
  | cons e fs ih => rw [canonicaliseEntries, ih, List.map_cons]

/-- What is written of a value: its document with the keys of every object sorted. -/
def normal (v : PyValue F) : Json F := (canonicalise N v).sortKeys

theorem longIntIn_eq_any (fs : List (String × Json F)) :
    longIntIn fs = fs.any fun e => longInt e.2 := by
  induction fs with
  | nil => rfl
  | cons e fs ih => rw [longIntIn, ih, List.any_cons]

/-- The order of fields does not change whether one has a long integer. -/
theorem longIntIn_byKey (fs : List (String × Json F)) :
    longIntIn (Json.byKey fs) = longIntIn fs := by
  rw [longIntIn_eq_any, longIntIn_eq_any]
  exact (Json.byKey_perm fs).any_eq

omit [LinearOrder L] in
/-- The key looks through the order of keys. -/
theorem sortKey_sortKeys (v : Json F) : sortKey N v.sortKeys = sortKey N v := by
  have hdumps := Json.dumps_sortKeys N.floats v
  match v with
  | .scalar _ | .str _ => rfl
  | .arr xs => exact congrArg (SortKey.mk 4 false ⊥) hdumps
  | .obj fs => exact congrArg (SortKey.mk 5 false ⊥) hdumps

mutual

/-- Sorting keys does not change whether there is a long integer. -/
theorem longInt_sortKeys : ∀ v : Json F, longInt v.sortKeys = longInt v
  | .scalar _ => rfl
  | .str _ => rfl
  | .arr xs => by rw [Json.sortKeys, longInt, longInt, longIntAmong_sortElements xs]
  | .obj fs => by
    rw [Json.sortKeys, longInt, longInt, longIntIn_byKey, longIntIn_sortEntries fs]

theorem longIntAmong_sortElements : ∀ xs : List (Json F),
    longIntAmong (Json.sortElements xs) = longIntAmong xs
  | [] => rfl
  | x :: xs => by
    rw [Json.sortElements, longIntAmong, longIntAmong, longInt_sortKeys x,
      longIntAmong_sortElements xs]

theorem longIntIn_sortEntries : ∀ fs : List (String × Json F),
    longIntIn (Json.sortEntries fs) = longIntIn fs
  | [] => rfl
  | (k, v) :: fs => by
    rw [Json.sortEntries, longIntIn, longIntIn, longInt_sortKeys v, longIntIn_sortEntries fs]

end

@[simp] theorem normal_scalar (s : Scalar F) : normal N (.scalar s) = .scalar s := rfl

@[simp] theorem normal_str (s : String) : normal N (.str s) = .str s := rfl

/-- The normal form of a list is that of its elements. -/
theorem normal_list (xs : List (PyValue F)) : normal N (.list xs) = .arr (xs.map (normal N)) := by
  rw [normal, canonicalise, canonicaliseAll_eq_map, Json.sortKeys, Json.sortElements_eq_map,
    List.map_map]
  rfl

/-- A tuple is normalised as a list is. -/
theorem normal_tuple (xs : List (PyValue F)) : normal N (.tuple xs) = .arr (xs.map (normal N)) :=
  normal_list N xs

/-- The elements of a set are put in the order of their keys. -/
theorem normal_set (xs : List (PyValue F)) :
    normal N (.set xs) = .arr (sortOn (sortKey N) (xs.map (normal N))) := by
  rw [normal, canonicalise, canonicaliseAll_eq_map, Json.sortKeys, Json.sortElements_eq_map,
    map_sortOn fun v _ => sortKey_sortKeys N v, List.map_map]
  rfl

/-- A frozen set is normalised as a set is. -/
theorem normal_frozenset (xs : List (PyValue F)) :
    normal N (.frozenset xs) = .arr (sortOn (sortKey N) (xs.map (normal N))) := normal_set N xs

/-- The entries of a dict are put in the order of their keys. -/
theorem normal_dict (fs : List (String × PyValue F)) :
    normal N (.dict fs) = .obj (Json.byKey (fs.map fun e => (e.1, normal N e.2))) := by
  rw [normal, canonicalise, canonicaliseEntries_eq_map, Json.sortKeys, Json.sortEntries_eq_map,
    List.map_map]
  rfl

/-- The text is that of what is written. -/
theorem canonicalJson_eq (v : PyValue F) : canonicalJson N v =
    if longInt (normal N v) then .error .tooManyDigits else .ok ((normal N v).dumps N.floats) := by
  rw [canonicalJson, normal, longInt_sortKeys, Json.dumps_sortKeys]

/-! ### Insertion order -/

/-- The number that a document is, NaN apart. -/
def numeric : Json F → Option L
  | .scalar (.int n) => some (N.ofInt n)
  | .scalar (.float x) => N.ofFloat x
  | _ => none

/-- A value Python can hold: the numbers in a set are not equal, nor are the keys of a mapping. -/
inductive Proper : PyValue F → Prop where
  | scalar (s : Scalar F) : Proper (.scalar s)
  | str (s : String) : Proper (.str s)
  | list {xs : List (PyValue F)} (h : ∀ x ∈ xs, Proper x) : Proper (.list xs)
  | tuple {xs : List (PyValue F)} (h : ∀ x ∈ xs, Proper x) : Proper (.tuple xs)
  | set {xs : List (PyValue F)} (h : ∀ x ∈ xs, Proper x)
      (hnum : ((xs.map (canonicalise N)).filterMap (numeric N)).Nodup) : Proper (.set xs)
  | frozenset {xs : List (PyValue F)} (h : ∀ x ∈ xs, Proper x)
      (hnum : ((xs.map (canonicalise N)).filterMap (numeric N)).Nodup) : Proper (.frozenset xs)
  | dict {fs : List (String × PyValue F)} (h : ∀ e ∈ fs, Proper e.2)
      (hkeys : (fs.map Prod.fst).Nodup) : Proper (.dict fs)

/-- One mapping or set somewhere inside the value filled in another order. -/
inductive Reordered : PyValue F → PyValue F → Prop where
  | set {xs ys : List (PyValue F)} (h : xs.Perm ys) : Reordered (.set xs) (.set ys)
  | frozenset {xs ys : List (PyValue F)} (h : xs.Perm ys) :
      Reordered (.frozenset xs) (.frozenset ys)
  | dict {fs gs : List (String × PyValue F)} (h : fs.Perm gs) : Reordered (.dict fs) (.dict gs)
  | inList (before after : List (PyValue F)) {x y : PyValue F} (h : Reordered x y) :
      Reordered (.list (before ++ x :: after)) (.list (before ++ y :: after))
  | inTuple (before after : List (PyValue F)) {x y : PyValue F} (h : Reordered x y) :
      Reordered (.tuple (before ++ x :: after)) (.tuple (before ++ y :: after))
  | inSet (before after : List (PyValue F)) {x y : PyValue F} (h : Reordered x y) :
      Reordered (.set (before ++ x :: after)) (.set (before ++ y :: after))
  | inFrozenset (before after : List (PyValue F)) {x y : PyValue F} (h : Reordered x y) :
      Reordered (.frozenset (before ++ x :: after)) (.frozenset (before ++ y :: after))
  | inDict (before after : List (String × PyValue F)) (k : String) {x y : PyValue F}
      (h : Reordered x y) :
      Reordered (.dict (before ++ (k, x) :: after)) (.dict (before ++ (k, y) :: after))

end Haute.Canonical
