import Haute.Data.Runs

/-!
# Programs that interleave on a store

A `Program` works on a shared store in atomic steps, each of which reads the store, may
write it, and goes on with what it read. A `Pool` holds the store and the calls in flight,
and any of them may take the next step: `Pool.machine` is the machine of all interleavings.

What a program does is stated between two stores, the one a step finds and the one it
leaves, by a *guarantee*; what the others may do between two of its steps is a preorder on
stores, `Later`. A program is `Sound` from a store when each of its steps, taken at any
later store, meets the guarantee. The one rule (`Guaranteed.step`) is that programs sound
from where they start meet their guarantee in every interleaving.
-/

/-- A program over a store `S`: it answers, or takes an atomic step on the store, which may
write something worth a `W`, and goes on. -/
inductive Program (S W A : Type) where
  /-- It has answered. -/
  | ret (answer : A)
  /-- One atomic step, and what follows from the store it found. -/
  | step (act : S → S × Option W) (next : S → Program S W A)

namespace Program

variable {S W A C : Type}

/-- The store the program's next step leaves. -/
def after : Program S W A → S → S
  | ret _, s => s
  | step act _, s => (act s).1

/-- What the program's next step writes. -/
def wrote : Program S W A → S → Option W
  | ret _, _ => none
  | step act _, s => (act s).2

/-- What is left of the program after its next step. -/
def rest : Program S W A → S → Program S W A
  | ret a, _ => ret a
  | step _ next, s => next s

/-- The answer, where the program has given it. -/
def answer? : Program S W A → Option A
  | ret a => some a
  | step _ _ => none

/-! ### Steps of a database -/

variable {E X Y : Type}

/-- A step that reads, and goes on with what it read or answers why it could not. -/
def look (read : S → Except E X) (go : X → Program S W (Except E A)) : Program S W (Except E A) :=
  step (fun s => (s, none)) fun s =>
    match read s with
    | .ok x => go x
    | .error e => ret (.error e)

/-- A transaction: committed, it answers; rolled back, nothing is written. -/
def transaction (tx : S → Except X (S × W × A)) (rolledBack : X → Program S W (Except E A)) :
    Program S W (Except E A) :=
  step (fun s =>
    match tx s with
    | .ok (t, w, _) => (t, some w)
    | .error _ => (s, none)) fun s =>
    match tx s with
    | .ok (_, _, a) => ret (.ok a)
    | .error x => rolledBack x

/-- A program that goes on where a check passes. -/
def check (checked : Except E X) (go : X → Program S W (Except E A)) : Program S W (Except E A) :=
  match checked with
  | .ok x => go x
  | .error e => ret (.error e)

/-! ### Soundness -/

variable (Inv : S → Prop) (Later : S → S → Prop) (G : S → Option W → Option A → S → Prop)

/-- From `s` on, each step of the program meets the guarantee, whatever others did between
its steps. -/
def Sound : Program S W A → S → Prop
  | ret _, _ => True
  | step act next, s => ∀ t, Inv t → Later s t →
      G t (act t).2 (next t).answer? (act t).1 ∧ (next t).Sound (act t).1

/-- What goes on from a step that found `s` and wrote nothing: its answer, where it has one,
may be given there, and it is sound. -/
def Follows (p : Program S W A) (s : S) : Prop := G s none p.answer? s ∧ p.Sound Inv Later G s

/-- The program's next step, taken at `s`, meets the guarantee, and what is left of it is
sound. -/
def SoundAt (p : Program S W A) (s : S) : Prop :=
  G s (p.wrote s) (p.rest s).answer? (p.after s) ∧ (p.rest s).Sound Inv Later G (p.after s)

variable {Inv Later G}

/-- What is sound stays so while others take steps. -/
theorem Sound.later {p : Program S W A} {s t : S}
    (htrans : ∀ {r s t}, Later r s → Later s t → Later r t)
    (hp : p.Sound Inv Later G s) (hst : Later s t) : p.Sound Inv Later G t := by
  cases p with
  | ret _ => trivial
  | step act next => exact fun u hu htu => hp u hu (htrans hst htu)

theorem Sound.soundAt {p : Program S W A} {s : S} (hp : p.Sound Inv Later G s)
    (hrefl : ∀ s, Later s s) (hs : Inv s) (hunanswered : p.answer? = none) :
    p.SoundAt Inv Later G s := by
  cases p with
  | ret a => cases hunanswered
  | step act next => exact hp s hs (hrefl s)

/-- A weaker guarantee is met too. -/
theorem Sound.mono {G' : S → Option W → Option A → S → Prop} {p : Program S W A} {s : S}
    (hp : p.Sound Inv Later G s) (hG : ∀ {s w a t}, G s w a t → G' s w a t) :
    p.Sound Inv Later G' s := by
  induction p generalizing s with
  | ret _ => trivial
  | step act next ih =>
    intro t ht hst
    obtain ⟨hstep, hrest⟩ := hp t ht hst
    exact ⟨hG hstep, ih t hrest⟩

theorem SoundAt.mono {G' : S → Option W → Option A → S → Prop} {p : Program S W A} {s : S}
    (hp : p.SoundAt Inv Later G s) (hG : ∀ {s w a t}, G s w a t → G' s w a t) :
    p.SoundAt Inv Later G' s :=
  ⟨hG hp.1, hp.2.mono hG⟩

/-- A sound program is one whose step is sound at every later store. -/
theorem sound_of_soundAt {p : Program S W A} {s : S}
    (h : ∀ t, Inv t → Later s t → p.SoundAt Inv Later G t) : p.Sound Inv Later G s := by
  cases p with
  | ret _ => trivial
  | step act next => exact h

/-- An answer that needs no store is sound where it may be given without writing. -/
theorem soundAt_ret {a : A} {s : S} (h : G s none (some a) s) :
    (ret a : Program S W A).SoundAt Inv Later G s := ⟨h, trivial⟩

/-! Where an error may be given by any step that writes nothing, and a step may leave the answer
open, only what a program answers well has to be shown. -/

section Answers

variable {G : S → Option W → Option (Except E A) → S → Prop} {s : S}

/-- A step that writes nothing need only be right about what it answers well. -/
def Idle (G : S → Option W → Option (Except E A) → S → Prop) : Prop :=
  ∀ s a, (∀ x, a ≠ some (.ok x)) → G s none a s

theorem follows_ret {a : Except E A} (h : G s none (some a) s) :
    (ret a : Program S W (Except E A)).Follows Inv Later G s := ⟨h, trivial⟩

theorem follows_error (hidle : Idle G) (e : E) :
    (ret (.error e) : Program S W (Except E A)).Follows Inv Later G s :=
  follows_ret (hidle _ _ fun _ h => by cases h)

/-- The program has not answered, or answers with an error. -/
def Unanswered (p : Program S W (Except E A)) : Prop := ∀ a, p.answer? ≠ some (.ok a)

theorem unanswered_transaction {tx : S → Except X (S × W × A)}
    {rolledBack : X → Program S W (Except E A)} : (transaction tx rolledBack).Unanswered :=
  fun _ h => by cases h

theorem unanswered_check {checked : Except E X} {go : X → Program S W (Except E A)}
    (hgo : ∀ x, (go x).Unanswered) : (check checked go).Unanswered := by
  intro a h
  unfold check at h
  rcases checked with e | x
  · cases h
  · exact hgo x a h

/-- A program that has not answered goes on where its next step is sound at every later store. -/
theorem follows_of_soundAt {p : Program S W (Except E A)} (hidle : Idle G) (hp : p.Unanswered)
    (h : ∀ t, Inv t → Later s t → p.SoundAt Inv Later G t) : p.Follows Inv Later G s :=
  ⟨hidle _ _ hp, sound_of_soundAt h⟩

theorem soundAt_error (hidle : Idle G) (e : E) :
    (ret (.error e) : Program S W (Except E A)).SoundAt Inv Later G s :=
  soundAt_ret (hidle _ _ fun _ h => by cases h)

theorem soundAt_look {read : S → Except E X} {go : X → Program S W (Except E A)} (hidle : Idle G)
    (hgo : ∀ x, read s = .ok x → (go x).Follows Inv Later G s) :
    (look read go).SoundAt Inv Later G s := by
  change Follows Inv Later G (match read s with
    | .ok x => go x
    | .error e => ret (.error e)) s
  rcases h : read s with e | x
  · exact follows_error hidle e
  · exact hgo x h

/-- A read goes on where what follows it does, at any later store. -/
theorem follows_look {read : S → Except E X} {go : X → Program S W (Except E A)} (hidle : Idle G)
    (hgo : ∀ t x, Inv t → Later s t → read t = .ok x → (go x).Follows Inv Later G t) :
    (look read go).Follows Inv Later G s :=
  follows_of_soundAt hidle (fun _ h => by cases h)
    fun t ht hst => soundAt_look hidle fun x => hgo t x ht hst

theorem soundAt_transaction {tx : S → Except X (S × W × A)}
    {rolledBack : X → Program S W (Except E A)}
    (hcommit : ∀ t w a, tx s = .ok (t, w, a) → G s (some w) (some (.ok a)) t)
    (hback : ∀ x, tx s = .error x → (rolledBack x).Follows Inv Later G s) :
    (transaction tx rolledBack).SoundAt Inv Later G s := by
  unfold SoundAt transaction
  simp only [wrote, rest, after]
  rcases h : tx s with x | ⟨t, w, a⟩
  · exact hback x h
  · exact ⟨hcommit t w a h, trivial⟩

theorem soundAt_check {checked : Except E X} {go : X → Program S W (Except E A)} (hidle : Idle G)
    (hgo : ∀ x, checked = .ok x → (go x).SoundAt Inv Later G s) :
    (check checked go).SoundAt Inv Later G s := by
  unfold check
  rcases h : checked with e | x
  · exact soundAt_error hidle e
  · exact hgo x h

end Answers

end Program

/-! ### Interleavings -/

/-- A store and the calls made on it, with what is left of each. -/
structure Pool (S C W A : Type) where
  store : S
  running : List (C × Program S W A)

/-- A step taken: whose it is, whether it is the call's first, what it wrote and, if it is
the call's last, the answer. -/
structure Taken (C W A : Type) where
  call : C
  first : Bool
  wrote : Option W
  answer : Option A

namespace Pool

variable {S W A C : Type}

/-- One step of one call: a new one, which takes its first, or one in flight. -/
inductive Step (program : C → Program S W A) (pool : Pool S C W A) : Taken C W A →
    Pool S C W A → Prop where
  | call (c : C) :
    Step program pool
      ⟨c, true, (program c).wrote pool.store, ((program c).rest pool.store).answer?⟩
      ⟨(program c).after pool.store, pool.running ++ [(c, (program c).rest pool.store)]⟩
  | resume {i : ℕ} {c : C} {p : Program S W A} (hp : pool.running[i]? = some (c, p))
      (hunanswered : p.answer? = none) :
    Step program pool ⟨c, false, p.wrote pool.store, (p.rest pool.store).answer?⟩
      ⟨p.after pool.store, pool.running.set i (c, p.rest pool.store)⟩

/-- All interleavings of any calls on a store that starts as `init`. -/
def machine (init : S) (program : C → Program S W A) : Machine (Pool S C W A) (Taken C W A) :=
  ⟨fun pool => pool = ⟨init, []⟩, Step program⟩

/-- The interleavings in which every call is made at a store that meets `Cond`. -/
def machineWhere (init : S) (program : C → Program S W A) (Cond : S → C → Prop) :
    Machine (Pool S C W A) (Taken C W A) :=
  (machine init program).restrict fun pool e => e.first = true → Cond pool.store e.call

end Pool

/-- Every program starts soundly wherever it may be called, for a guarantee that is a way of
getting later and keeps the invariant. -/
structure Guaranteed {S W A C : Type} (program : C → Program S W A) (Cond : S → C → Prop)
    (Inv : S → Prop) (Later : S → S → Prop)
    (G : C → S → Option W → Option A → S → Prop) : Prop where
  refl : ∀ s, Later s s
  trans : ∀ {r s t}, Later r s → Later s t → Later r t
  later : ∀ {c s w a t}, Inv s → G c s w a t → Later s t
  keeps : ∀ {c s w a t}, Inv s → G c s w a t → Inv t
  starts : ∀ c s, Inv s → Cond s c → (program c).SoundAt Inv Later (G c) s

namespace Guaranteed

variable {S W A C : Type} {program : C → Program S W A} {Cond : S → C → Prop} {Inv : S → Prop}
  {Later : S → S → Prop} {G : C → S → Option W → Option A → S → Prop} {init : S}
  {pool pool' : Pool S C W A} {e : Taken C W A}

/-- What holds of a pool in every interleaving: the invariant, and each call in flight is
sound. -/
def Good (Inv : S → Prop) (Later : S → S → Prop) (G : C → S → Option W → Option A → S → Prop)
    (pool : Pool S C W A) : Prop :=
  Inv pool.store ∧ ∀ r ∈ pool.running, r.2.Sound Inv Later (G r.1) pool.store

/-- One step of a good pool meets its guarantee, and leaves the pool good. -/
theorem good_step (h : Guaranteed program Cond Inv Later G) (hgood : Good Inv Later G pool)
    (hcond : e.first = true → Cond pool.store e.call) (hstep : Pool.Step program pool e pool') :
    G e.call pool.store e.wrote e.answer pool'.store ∧ Good Inv Later G pool' := by
  obtain ⟨hinv, hrunning⟩ := hgood
  cases hstep with
  | call c =>
    obtain ⟨hG, hrest⟩ := h.starts c pool.store hinv (hcond rfl)
    refine ⟨hG, h.keeps hinv hG, fun r hr => ?_⟩
    rcases List.mem_append.mp hr with hr | hr
    · exact (hrunning r hr).later h.trans (h.later hinv hG)
    · obtain rfl := List.mem_singleton.mp hr
      exact hrest
  | @resume i c p hp hunanswered =>
    have hsound := hrunning _ (List.mem_of_getElem? hp)
    obtain ⟨hG, hrest⟩ := hsound.soundAt h.refl hinv hunanswered
    refine ⟨hG, h.keeps hinv hG, fun r hr => ?_⟩
    rcases List.mem_or_eq_of_mem_set hr with hr | rfl
    · exact (hrunning r hr).later h.trans (h.later hinv hG)
    · exact hrest

/-- **The rule for interleavings.** Every pool reached is good. -/
theorem good (h : Guaranteed program Cond Inv Later G) (hinit : Inv init)
    (hreach : (Pool.machineWhere init program Cond).Reachable pool) : Good Inv Later G pool := by
  refine hreach.invariant (P := Good Inv Later G) ?_ fun _ _ _ hgood hstep => ?_
  · rintro pool rfl
    exact ⟨hinit, fun r hr => absurd hr List.not_mem_nil⟩
  · exact (h.good_step hgood hstep.1 hstep.2).2

/-- Every step of every interleaving meets the guarantee of its call. -/
theorem step (h : Guaranteed program Cond Inv Later G) (hinit : Inv init)
    (hreach : (Pool.machineWhere init program Cond).Reachable pool)
    (hstep : (Pool.machineWhere init program Cond).step pool e pool') :
    G e.call pool.store e.wrote e.answer pool'.store :=
  (h.good_step (h.good hinit hreach) hstep.1 hstep.2).1

/-- The same, where calls may be made at any store. -/
theorem step_machine (h : Guaranteed program (fun _ _ => True) Inv Later G) (hinit : Inv init)
    (hreach : (Pool.machine init program).Reachable pool) (hstep : Pool.Step program pool e pool') :
    G e.call pool.store e.wrote e.answer pool'.store := by
  refine (h.good_step ?_ (fun _ => trivial) hstep).1
  refine hreach.invariant (P := Good Inv Later G) ?_ fun _ _ _ hgood hstep => ?_
  · rintro pool rfl
    exact ⟨hinit, fun r hr => absurd hr List.not_mem_nil⟩
  · exact (h.good_step hgood (fun _ => trivial) hstep).2

end Guaranteed
