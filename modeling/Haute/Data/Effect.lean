import Mathlib.Logic.Relation
import Mathlib.Order.Defs.Unbundled

/-!
# Computations that raise and keep what they did

`Effect σ ε α` is a computation on a state of type `σ` that returns an `α` or raises an
`ε`. What it has done to the state when it raises stays done, as in a language with
exceptions and no transactions: the state is returned in both cases.

`Moves R x` says that `x` takes every state to one related by `R`, whether it returns or
raises. For a reflexive and transitive `R` it is closed under everything a computation is
put together from, loops included.
-/

/-- A computation on a state that may raise; its changes to the state stay when it does. -/
def Effect (σ ε α : Type) : Type := σ → Except ε α × σ

namespace Effect

variable {σ ε α β ι : Type}

instance : Monad (Effect σ ε) where
  pure a s := (.ok a, s)
  bind x f s :=
    match x s with
    | (.ok a, t) => f a t
    | (.error e, t) => (.error e, t)

/-- The state. -/
def get : Effect σ ε σ := fun s => (.ok s, s)

/-- Change the state. -/
def modify (f : σ → σ) : Effect σ ε Unit := fun s => (.ok (), f s)

/-- A computation that does not look at the state. -/
def ofExcept (x : Except ε α) : Effect σ ε α := fun s => (x, s)

/-- One computation for each element in turn, until one raises. -/
def forEach (f : ι → Effect σ ε Unit) : List ι → Effect σ ε Unit
  | [] => pure ()
  | x :: xs => do
    f x
    forEach f xs

/-- A computation whose value is not looked at. -/
def void (x : Effect σ ε α) : Effect σ ε Unit := do
  let _ ← x
  pure ()

/-- What a computation returns or raises, as a value. -/
def attempt (x : Effect σ ε α) : Effect σ ε (Except ε α) := fun s => (.ok (x s).1, (x s).2)

/-- The elements a test that may change the state accepts, each tested in turn. -/
def filterM (p : ι → Effect σ ε Bool) : List ι → Effect σ ε (List ι)
  | [] => pure []
  | x :: xs => do
    let keep ← p x
    let rest ← filterM p xs
    pure (if keep then x :: rest else rest)

theorem bind_apply (x : Effect σ ε α) (f : α → Effect σ ε β) (s : σ) :
    (x >>= f) s = match x s with
      | (.ok a, t) => f a t
      | (.error e, t) => (.error e, t) := rfl

@[simp] theorem pure_apply (a : α) (s : σ) : (pure a : Effect σ ε α) s = (.ok a, s) := rfl

@[simp] theorem get_apply (s : σ) : (get : Effect σ ε σ) s = (.ok s, s) := rfl

@[simp] theorem modify_apply (f : σ → σ) (s : σ) : (modify f : Effect σ ε Unit) s = (.ok (), f s) :=
  rfl

@[simp] theorem ofExcept_apply (x : Except ε α) (s : σ) :
    (ofExcept x : Effect σ ε α) s = (x, s) := rfl

@[simp] theorem attempt_apply (x : Effect σ ε α) (s : σ) : x.attempt s =
    (.ok (x s).1, (x s).2) := rfl

@[simp] theorem void_apply_snd (x : Effect σ ε α) (s : σ) : (x.void s).2 = (x s).2 := by
  rw [void, bind_apply]
  rcases x s with ⟨_ | a, t⟩ <;> rfl

/-- What only reads comes after a computation without a trace. -/
theorem bind_apply_snd {x : Effect σ ε α} {f : α → Effect σ ε β} (hf : ∀ a s, (f a s).2 = s)
    (s : σ) :
    ((x >>= f) s).2 = (x s).2 := by
  rw [bind_apply]
  rcases x s with ⟨_ | a, t⟩
  · rfl
  · exact hf a t

theorem forEach_apply_snd {f : ι → Effect σ ε Unit} (hf : ∀ x s, (f x s).2 = s)
    (xs : List ι) (s : σ) :
    (forEach f xs s).2 = s := by
  induction xs generalizing s with
  | nil => rfl
  | cons x xs ih => exact (bind_apply_snd (fun _ => ih) s).trans (hf x s)

theorem void_eq_error_iff {x : Effect σ ε α} {s : σ} {e : ε} :
    (x.void s).1 = .error e ↔ (x s).1 = .error e := by
  rw [void, bind_apply]
  rcases x s with ⟨_ | a, t⟩ <;> simp

/-- **A loop that returns.** Its turns return where an assertion holds, and keep it. -/
theorem forEach_ok {f : ι → Effect σ ε Unit} {P : σ → Prop} (xs : List ι)
    (hstep : ∀ x ∈ xs, ∀ s, P s → (f x s).1 = .ok () ∧ P (f x s).2) {s : σ} (hs : P s) :
    (forEach f xs s).1 = .ok () := by
  induction xs generalizing s with
  | nil => rfl
  | cons x xs ih =>
    obtain ⟨hok, hkeeps⟩ := hstep x List.mem_cons_self s hs
    rw [forEach, bind_apply]
    rcases hrun : f x s with ⟨_ | _, t⟩ <;> rw [hrun] at hok hkeeps
    · cases hok
    · exact ih (fun y hy => hstep y (List.mem_cons_of_mem _ hy)) hkeeps

/-- **Tests that return.** Each of them does in every state. -/
theorem exists_filterM_ok {p : ι → Effect σ ε Bool} (xs : List ι)
    (hstep : ∀ x ∈ xs, ∀ s, ∃ keep, (p x s).1 = .ok keep) (s : σ) :
    ∃ kept, (filterM p xs s).1 = .ok kept := by
  induction xs generalizing s with
  | nil => exact ⟨[], rfl⟩
  | cons x xs ih =>
    obtain ⟨keep, hkeep⟩ := hstep x List.mem_cons_self s
    rw [filterM, bind_apply]
    rcases hrun : p x s with ⟨_ | keep', t⟩ <;> rw [hrun] at hkeep
    · cases hkeep
    · obtain ⟨kept, hkept⟩ := ih (fun y hy => hstep y (List.mem_cons_of_mem _ hy)) t
      simp only [bind_apply]
      rcases hrest : filterM p xs t with ⟨_ | rest, u⟩ <;> rw [hrest] at hkept
      · cases hkept
      · exact ⟨_, rfl⟩

/-- A computation that raises after one that returned has done what that one did, where its
rest raises only without a trace. -/
theorem eq_of_bind_error {x : Effect σ ε α} {f : α → Effect σ ε β} {s : σ} {e : ε}
    (hx : ∃ a, (x s).1 = .ok a) (hf : ∀ a t, (f a t).1 = .error e → (f a t).2 = t)
    (h : ((x >>= f) s).1 = .error e) : ∃ a, x s = (.ok a, ((x >>= f) s).2) := by
  obtain ⟨a, ha⟩ := hx
  rw [bind_apply] at h ⊢
  rcases hrun : x s with ⟨_ | a', t⟩ <;> rw [hrun] at ha h
  · cases ha
  · exact ⟨a', by rw [hf a' t h]⟩

/-- Every run of `x` relates the state it starts in to the one it ends in. -/
def Moves (R : σ → σ → Prop) (x : Effect σ ε α) : Prop := ∀ s, R s (x s).2

namespace Moves

variable {R : σ → σ → Prop} {x : Effect σ ε α}

theorem pure [IsPreorder σ R] (a : α) : Moves R (pure a : Effect σ ε α) := fun s => refl_of R s

theorem get [IsPreorder σ R] : Moves R (get : Effect σ ε σ) := fun s => refl_of R s

theorem ofExcept [IsPreorder σ R] (x : Except ε α) : Moves R (ofExcept x : Effect σ ε α) :=
  fun s => refl_of R s

/-- **Sequencing.** What comes second only has to do its part from a state the first can
leave with a value. -/
theorem bind_of [IsPreorder σ R] {f : α → Effect σ ε β} (hx : Moves R x)
    (hf : ∀ s a t, x s = (.ok a, t) → R t (f a t).2) : Moves R (x >>= f) := by
  intro s
  have hs := hx s
  rw [bind_apply]
  rcases h : x s with ⟨_ | a, t⟩
  · rwa [h] at hs
  · rw [h] at hs
    exact trans_of R hs (hf s a t h)

theorem bind [IsPreorder σ R] {f : α → Effect σ ε β} (hx : Moves R x) (hf : ∀ a, Moves R (f a)) :
    Moves R (x >>= f) := hx.bind_of fun _ a t _ => hf a t

/-- **Loops.** -/
theorem forEach [IsPreorder σ R] {f : ι → Effect σ ε Unit} (hf : ∀ x, Moves R (f x))
    (xs : List ι) : Moves R (forEach f xs) := by
  induction xs with
  | nil => exact .pure ()
  | cons x xs ih => exact (hf x).bind fun _ => ih

/-- **Tests.** -/
theorem filterM [IsPreorder σ R] {p : ι → Effect σ ε Bool} (hp : ∀ x, Moves R (p x))
    (xs : List ι) : Moves R (filterM p xs) := by
  induction xs with
  | nil => exact .pure []
  | cons x xs ih => exact (hp x).bind fun _ => ih.bind fun _ => .pure _

end Moves

end Effect
