import Haute.Json.Value

/-!
# Raised errors

The exceptions the modelled code raises, each with the data its handlers read: the message
and the context of a schema error, the names a nesting-key error carries, the position of a
decode error. A function that can raise returns `Except PyError`.

A generator that raises has already yielded: `Yielded` keeps what it yielded before the
error that ended it.
-/

namespace Haute

/-- An exception of the modelled code. -/
inductive PyError where
  /-- `ApiInputSchemaError(message, **context)`. -/
  | apiInputSchema (message : String) (context : List (String × Value))
  /-- `OutputMappingSchemaError(message, **context)`. -/
  | outputMapping (message : String) (context : List (String × Value))
  /-- `OutputNestingKeyError`: the frame and the key that is null. -/
  | outputNestingKey (frame key : String)
  /-- `orjson.JSONDecodeError`. -/
  | jsonDecode (message : String) (pos : ℕ)
  /-- `RuntimeError`. -/
  | runtime (message : String)
  /-- `ValueError`. -/
  | value (message : String)
  /-- `OverflowError`. -/
  | overflow (message : String)
  /-- `KeyError`. -/
  | key (name : String)
  /-- `AttributeError`. -/
  | attribute (message : String)
  /-- `ArtifactHandleUnavailableError`. -/
  | artifactHandleUnavailable (message : String)
  /-- `ExecutionAdmissionError`: the reason and the figures its payload shows. -/
  | executionAdmission (reason : String) (context : List (String × Value))
  /-- An exception of the frame library. -/
  | frame (message : String)
  deriving DecidableEq

/-- `if not cond: raise e`. -/
def require (cond : Bool) (e : PyError) : Except PyError Unit := if cond then .ok () else .error e

/-- The value, or the error a missing one raises. -/
def expect {α : Type*} (o : Option α) (e : PyError) : Except PyError α :=
  match o with
  | some a => .ok a
  | none => .error e

/-- A requirement passes exactly when its condition holds. -/
@[simp] theorem require_eq_ok_iff {cond : Bool} {e : PyError} {u : Unit} :
    require cond e = .ok u ↔ cond = true := by
  cases cond <;> simp [require]

/-- A value is found exactly when there is one. -/
@[simp] theorem expect_eq_ok_iff {α : Type*} {o : Option α} {e : PyError} {a : α} :
    expect o e = .ok a ↔ o = some a := by
  cases o <;> simp [expect]

/-- A sequence of two steps succeeds when both do. -/
theorem bind_eq_ok_iff {α β : Type} {x : Except PyError α} {f : α → Except PyError β} {b : β} :
    (x >>= f) = .ok b ↔ ∃ a, x = .ok a ∧ f a = .ok b := by
  cases x with
  | error e => simp [bind, Except.bind]
  | ok a => simp [bind, Except.bind]

/-- What is mapped succeeds exactly when it does before. -/
theorem map_eq_ok_iff {α β : Type} {x : Except PyError α} {f : α → β} {b : β} :
    x.map f = .ok b ↔ ∃ a, x = .ok a ∧ f a = b := by
  cases x <;> simp [Except.map]

/-- A list is mapped exactly when each of its elements is. -/
theorem mapM_eq_ok_iff {α β : Type} {f : α → Except PyError β} {xs : List α} {ys : List β} :
    xs.mapM f = .ok ys ↔ List.Forall₂ (fun x y => f x = .ok y) xs ys := by
  induction xs generalizing ys with
  | nil => simp [pure, Except.pure, eq_comm]
  | cons x xs ih =>
    rw [List.mapM_cons, bind_eq_ok_iff]
    constructor
    · rintro ⟨y, hy, h⟩
      obtain ⟨zs, hzs, h⟩ := bind_eq_ok_iff.mp h
      cases h
      exact .cons hy (ih.mp hzs)
    · rintro (_ | ⟨hy, hys⟩)
      exact ⟨_, hy, bind_eq_ok_iff.mpr ⟨_, ih.mpr hys, rfl⟩⟩

/-- A function that raises on no element maps the list. -/
theorem exists_mapM_eq_ok {α β : Type} {f : α → Except PyError β} {xs : List α}
    (h : ∀ x ∈ xs, ∃ y, f x = .ok y) : ∃ ys, xs.mapM f = .ok ys := by
  induction xs with
  | nil => exact ⟨[], rfl⟩
  | cons x xs ih =>
    obtain ⟨y, hy⟩ := h x List.mem_cons_self
    obtain ⟨ys, hys⟩ := ih fun x hx => h x (List.mem_cons_of_mem _ hx)
    exact ⟨y :: ys, mapM_eq_ok_iff.mpr (.cons hy (mapM_eq_ok_iff.mp hys))⟩

/-- What a generator yields, and the error that ended it, if one did. -/
structure Yielded (α : Type*) where
  /-- The values yielded, in order. -/
  values : List α
  /-- The error raised after the last of them. -/
  raised : Option PyError

namespace Yielded

variable {α : Type*}

/-- A generator that ends normally, having yielded nothing. -/
def done : Yielded α := ⟨[], none⟩

/-- A generator that raises before yielding anything. -/
def fail (e : PyError) : Yielded α := ⟨[], some e⟩

/-- One value, or the error that computing it raises. -/
def ofExcept : Except PyError α → Yielded α
  | .ok a => ⟨[a], none⟩
  | .error e => fail e

/-- Run one generator, and then the other unless the first raised. -/
def append (y z : Yielded α) : Yielded α :=
  match y.raised with
  | none => ⟨y.values ++ z.values, z.raised⟩
  | some _ => y

/-- Run a generator for each element in turn. -/
def forEach {β : Type*} (xs : List β) (f : β → Yielded α) : Yielded α :=
  xs.foldr (fun x rest => (f x).append rest) done

/-- Exhaust the generator: all its values, or its error. -/
def toExcept (y : Yielded α) : Except PyError (List α) :=
  match y.raised with
  | none => .ok y.values
  | some e => .error e

@[simp] theorem toExcept_done : (done : Yielded α).toExcept = .ok [] := rfl

@[simp] theorem toExcept_fail (e : PyError) : (fail e : Yielded α).toExcept = .error e := rfl

/-- A generator that did not raise gives what it yielded. -/
theorem toExcept_eq_ok_iff {y : Yielded α} {as : List α} :
    y.toExcept = .ok as ↔ y.raised = none ∧ y.values = as := by
  rcases y with ⟨vs, _ | e⟩ <;> simp [toExcept]

@[simp] theorem values_done : (done : Yielded α).values = [] := rfl

@[simp] theorem raised_done : (done : Yielded α).raised = none := rfl

@[simp] theorem raised_ofExcept_ok (a : α) : (ofExcept (.ok a)).raised = none := rfl

@[simp] theorem values_ofExcept_ok (a : α) : (ofExcept (.ok a)).values = [a] := rfl

/-- Yielding one value raises exactly when computing it does. -/
theorem raised_ofExcept_iff {x : Except PyError α} :
    (ofExcept x).raised = none ↔ ∃ a, x = .ok a := by
  cases x <;> simp [ofExcept, fail]

@[simp] theorem done_append (y : Yielded α) : done.append y = y := rfl

@[simp] theorem append_done (y : Yielded α) : y.append done = y := by
  rcases y with ⟨vs, _ | e⟩ <;> simp [append, done]

/-- One generator after another raises unless neither does. -/
theorem raised_append_iff {y z : Yielded α} :
    (y.append z).raised = none ↔ y.raised = none ∧ z.raised = none := by
  rcases y with ⟨vs, _ | e⟩ <;> simp [append]

/-- One generator after another yields both values, unless the first raises. -/
theorem values_append {y z : Yielded α} (h : y.raised = none) :
    (y.append z).values = y.values ++ z.values := by
  simp [append, h]

/-- What two generators yield in turn, one of them yields. -/
theorem mem_values_append {y z : Yielded α} {a : α} (h : a ∈ (y.append z).values) :
    a ∈ y.values ∨ a ∈ z.values := by
  rcases y with ⟨vs, _ | e⟩
  · exact List.mem_append.mp h
  · exact .inl h

section ForEach

variable {β : Type*} {f g : β → Yielded α}

@[simp] theorem forEach_nil (f : β → Yielded α) : forEach [] f = done := rfl

@[simp] theorem forEach_cons (x : β) (xs : List β) (f : β → Yielded α) :
    forEach (x :: xs) f = (f x).append (forEach xs f) := rfl

/-- A loop raises unless no pass does. -/
theorem raised_forEach_iff {xs : List β} :
    (forEach xs f).raised = none ↔ ∀ x ∈ xs, (f x).raised = none := by
  induction xs with
  | nil => simp
  | cons x xs ih => simp [raised_append_iff, ih]

/-- A loop that does not raise yields what its passes do. -/
theorem values_forEach {xs : List β} (h : (forEach xs f).raised = none) :
    (forEach xs f).values = xs.flatMap fun x => (f x).values := by
  induction xs with
  | nil => simp
  | cons x xs ih =>
    rw [forEach_cons, raised_append_iff] at h
    rw [forEach_cons, values_append h.1, ih h.2, List.flatMap_cons]

/-- What a loop yields comes from one of its passes. -/
theorem exists_of_mem_values_forEach {xs : List β} {a : α} (h : a ∈ (forEach xs f).values) :
    ∃ x ∈ xs, a ∈ (f x).values := by
  induction xs with
  | nil => simp at h
  | cons x xs ih =>
    rcases mem_values_append h with h | h
    · exact ⟨x, List.mem_cons_self, h⟩
    · obtain ⟨y, hy, h⟩ := ih h
      exact ⟨y, List.mem_cons_of_mem _ hy, h⟩

/-- A loop whose passes yield nothing yields nothing. -/
theorem forEach_eq_done {xs : List β} (h : ∀ x ∈ xs, f x = done) : forEach xs f = done := by
  induction xs with
  | nil => rfl
  | cons x xs ih =>
    rw [forEach_cons, h x List.mem_cons_self, done_append, ih fun x hx =>
      h x (List.mem_cons_of_mem _ hx)]

/-- Where only one element yields anything, the loop is that element's turn. -/
theorem forEach_eq_single {xs : List β} (hn : xs.Nodup) {x : β} (hx : x ∈ xs)
    (h : ∀ y ∈ xs, y ≠ x → f y = done) : forEach xs f = f x := by
  induction xs with
  | nil => simp at hx
  | cons y ys ih =>
    rw [List.nodup_cons] at hn
    rw [forEach_cons]
    rcases List.mem_cons.mp hx with rfl | hx
    · rw [forEach_eq_done fun y hy => h y (List.mem_cons_of_mem _ hy) fun e => hn.1 (e ▸ hy),
        append_done]
    · rw [h y List.mem_cons_self fun e => hn.1 (e ▸ hx), done_append,
        ih hn.2 hx fun y hy => h y (List.mem_cons_of_mem _ hy)]

end ForEach

end Yielded

/-- `repr` of a string. Past Latin-1 a character stands as it is, as the printable ones do. -/
def pyRepr (s : String) : String :=
  let quote := if s.toList.contains '\'' && !s.toList.contains '"' then "\"" else "'"
  let escape (c : Char) : List Char :=
    if c = '\\' then ['\\', '\\']
    else if c = '\'' && quote = "'" then ['\\', '\'']
    else if c = '\n' then ['\\', 'n']
    else if c = '\r' then ['\\', 'r']
    else if c = '\t' then ['\\', 't']
    else if c.toNat < 32 || (127 ≤ c.toNat && c.toNat ≤ 160) || c.toNat = 173 then
      ['\\', 'x', Nat.digitChar (c.toNat / 16), Nat.digitChar (c.toNat % 16)]
    else [c]
  quote ++ String.ofList (s.toList.flatMap escape) ++ quote

end Haute
