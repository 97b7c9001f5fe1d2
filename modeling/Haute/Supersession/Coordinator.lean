import Haute.Data.Runs
import Haute.Json.Errors
import Mathlib.Logic.Function.Basic

/-!
# The supersession coordinator

`SupersessionCoordinator` runs on an event loop, where a task gives way to the others only
at an `await` that suspends it. Taking the locks never does, since no task is suspended
while it has one. So a call of `run_latest` is a sequence of sections, each of them one
step, between the `await`s that are left: waiting on its key's condition, waiting for the
limiter, draining the two tasks it has waited with, and the worker.

Three readings keep the model small. Who is notified is left out: a waiter checks again
whenever it wakes up, so it may wake up at any time. A cancelled `acquire` takes no permit,
and draining a task takes a turn of the loop even when the task is done. And a cancellation
is modelled where it is delivered, when the call would go on.
-/

namespace Haute

/-- `_SupersessionState`; `active_cancel` by its identity. -/
structure SupersessionState where
  latestGeneration : ℕ
  active : Bool
  references : ℕ
  activeCancel : Option ℕ

/-- `_SupersessionState()`. -/
def SupersessionState.new : SupersessionState := ⟨0, false, 0, none⟩

/-- A task that a call waits with. -/
inductive HelperTask where
  | pending
  /-- It has been cancelled, and has yet to end. -/
  | cancelling
  | returned
  | cancelled
  deriving DecidableEq

namespace HelperTask

/-- `Task.done`. -/
def done : HelperTask → Bool
  | .returned | .cancelled => true
  | .pending | .cancelling => false

/-- `_cancel_and_drain`, up to its `await`. -/
def cancelAndDrain : HelperTask → HelperTask
  | .pending => .cancelling
  | task => task

end HelperTask

/-- What a call raises. -/
inductive CallError where
  /-- `SupersededRequestError`. -/
  | superseded
  /-- `CancelledError`. -/
  | cancelled
  /-- What the worker raised. -/
  | worker (error : PyError)
  deriving DecidableEq

/-- Where a call is suspended, or that it has ended. -/
inductive CallPhase (R : Type) where
  /-- Before it asks for a permit, on the condition. -/
  | waiting
  /-- In `asyncio.wait`, for the permit or for a newer request. -/
  | acquiring
  /-- It has the permit, and drains the other task. -/
  | handingOver
  /-- It is to raise, and drains `acquire_task`; `holds` is `holds_permit`. -/
  | drainingAcquire (holds : Bool) (error : CallError)
  /-- It is to raise, and drains `superseded_task`. -/
  | drainingSuperseded (holds : Bool) (error : CallError)
  /-- It has its permit, and waits on the condition again. -/
  | waitingAgain
  | working
  | ended (outcome : Except CallError R)

/-- A worker's background future, once its call has left it behind. -/
inductive Background where
  | none
  | running
  /-- It is done, and `_clear_active_after_background` is to run. -/
  | clearing
  deriving DecidableEq

/-- A call of `run_latest`: its arguments and its variables. -/
structure Call (K R : Type) where
  key : K
  limiter : Option ℕ
  cancelActive : Option ℕ
  /-- The state object of its key. -/
  state : ℕ
  generation : ℕ
  phase : CallPhase R
  acquireTask : HelperTask
  supersededTask : HelperTask
  background : Background

/-- The coordinator with its calls, the state objects, and the limiters' free permits. -/
structure Coordinator (K R : Type) where
  /-- `_states`. -/
  states : K → Option ℕ
  heap : ℕ → SupersessionState
  /-- The next state object. -/
  nextState : ℕ
  calls : ℕ → Option (Call K R)
  available : ℕ → ℕ
  /-- How many permits each call's `acquire_task` has been granted. -/
  grants : ℕ → ℕ
  /-- How often a permit has been released for each call. -/
  releases : ℕ → ℕ
  /-- The call that was registered last, for each key. -/
  latest : K → Option ℕ
  /-- The `cancel_active` callbacks that have been called, oldest first. -/
  cancelRequests : List ℕ

open Function (update)

namespace Coordinator

variable {K R : Type} [DecidableEq K]

/-- `SupersessionCoordinator()`, and the limiters it is used with. -/
def new (available : ℕ → ℕ) : Coordinator K R where
  states _ := none
  heap _ := .new
  nextState := 0
  calls _ := none
  available := available
  grants _ := 0
  releases _ := 0
  latest _ := none
  cancelRequests := []

/-- A call's new variables. -/
def setCall (x : Coordinator K R) (c : ℕ) (call : Call K R) : Coordinator K R :=
  { x with calls := update x.calls c (some call) }

/-- A state object's new fields. -/
def setState (x : Coordinator K R) (sid : ℕ) (state : SupersessionState) : Coordinator K R :=
  { x with heap := update x.heap sid state }

/-- `limiter.release()`, for a call. -/
def releasePermit (x : Coordinator K R) (c : ℕ) : Option ℕ → Coordinator K R
  | none => x
  | some limiter =>
    { x with
      available := update x.available limiter (x.available limiter + 1)
      releases := update x.releases c (x.releases c + 1) }

/-- A state object that nobody refers to leaves the dictionary. -/
def prune (x : Coordinator K R) (key : K) (sid : ℕ) : Coordinator K R :=
  if (x.heap sid).references = 0 ∧ (x.heap sid).active = false ∧ x.states key = some sid then
    { x with states := update x.states key none }
  else x

/-- `_release_state`. -/
def releaseState (x : Coordinator K R) (key : K) (sid : ℕ) : Coordinator K R :=
  (x.setState sid { x.heap sid with references := (x.heap sid).references - 1 }).prune key sid

/-- The active call of a state object is done. -/
def clearActive (x : Coordinator K R) (call : Call K R) : Coordinator K R :=
  x.setState call.state { x.heap call.state with
    active := false
    activeCancel := if (x.heap call.state).activeCancel = call.cancelActive then none
      else (x.heap call.state).activeCancel }

/-- A call ends; `release` says whether its permit is released. -/
def finish (x : Coordinator K R) (c : ℕ) (call : Call K R) (outcome : Except CallError R)
    (release : Bool) : Coordinator K R :=
  ((x.releasePermit c (if release then call.limiter else none)).releaseState call.key
    call.state).setCall c
    { call with phase := .ended outcome }

/-- Whether a newer call has been registered. -/
def isSuperseded (x : Coordinator K R) (call : Call K R) : Bool :=
  decide (call.generation ≠ (x.heap call.state).latestGeneration)

/-- The loop on the condition before the worker, and the worker's start. -/
def enterActive (x : Coordinator K R) (c : ℕ) (call : Call K R) : Coordinator K R :=
  if x.isSuperseded call then x.finish c call (.error .superseded) true
  else if (x.heap call.state).active then x.setCall c { call with phase := .waitingAgain }
  else (x.setState call.state { x.heap call.state with
    active := true
    activeCancel := call.cancelActive }).setCall c { call with phase := .working }

/-- The loop on the condition before the limiter, and what follows. -/
def enterLimiter (x : Coordinator K R) (c : ℕ) (call : Call K R) : Coordinator K R :=
  if x.isSuperseded call then x.finish c call (.error .superseded) false
  else if (x.heap call.state).active then x.setCall c { call with phase := .waiting }
  else match call.limiter with
    | none => x.enterActive c call
    | some _ => x.setCall c { call with phase := .acquiring }

/-- `_retain_state`: the state object, and the coordinator with one more reference to it. -/
def retainState (x : Coordinator K R) (key : K) : ℕ × Coordinator K R :=
  match x.states key with
  | some sid => (sid, x.setState sid { x.heap sid with references := (x.heap sid).references + 1 })
  | none => (x.nextState,
      { x with
        states := update x.states key (some x.nextState)
        heap := update x.heap x.nextState { SupersessionState.new with references := 1 }
        nextState := x.nextState + 1 })

/-- A call takes the next generation, and asks the active one to stop. -/
def register (x : Coordinator K R) (c : ℕ) (key : K) (sid : ℕ) : Coordinator K R :=
  { x with
    heap := update x.heap sid { x.heap sid with
      latestGeneration := (x.heap sid).latestGeneration + 1 }
    latest := update x.latest key (some c)
    cancelRequests := x.cancelRequests ++
      (if (x.heap sid).active then (x.heap sid).activeCancel.toList else []) }

/-- One turn of the loop: what a task does up to its next `await`, or one of the things it
waits for. -/
inductive CoordinatorEvent (K R : Type) where
  /-- A call of `run_latest`. -/
  | start (c : ℕ) (key : K) (limiter cancelActive : Option ℕ)
  /-- A suspended call goes on. -/
  | resume (c : ℕ)
  /-- `CancelledError` is raised in a suspended call. -/
  | cancel (c : ℕ)
  /-- `acquire_task` gets a permit. -/
  | grant (c : ℕ)
  /-- A cancelled `acquire_task` ends. -/
  | acquireEnds (c : ℕ)
  /-- `superseded_task` sees a newer generation. -/
  | notice (c : ℕ)
  /-- A cancelled `superseded_task` ends. -/
  | supersededEnds (c : ℕ)
  /-- The worker returns. -/
  | workerReturns (c : ℕ) (result : R)
  /-- The worker raises an `Exception`; `background` says whether the future it carries, if
  any, is done. -/
  | workerRaises (c : ℕ) (error : PyError) (background : Option Bool)
  /-- The background future is done. -/
  | backgroundDone (c : ℕ)
  /-- `_clear_active_after_background`. -/
  | clear (c : ℕ)

/-- A call of `run_latest`, up to its first `await`. -/
def start (x : Coordinator K R) (c : ℕ) (key : K) (limiter cancelActive : Option ℕ) :
    Coordinator K R :=
  let (sid, x) := x.retainState key
  let x := x.register c key sid
  let call : Call K R := ⟨key, limiter, cancelActive, sid, (x.heap sid).latestGeneration, .waiting,
    .pending, .pending, .none⟩
  (x.setCall c call).enterLimiter c call

/-- A call goes on, if what it waits for is there. -/
def resume (x : Coordinator K R) (c : ℕ) (call : Call K R) : Option (Coordinator K R) :=
  match call.phase with
  | .waiting => some (x.enterLimiter c call)
  | .acquiring =>
    if call.supersededTask.done then
      some (x.setCall c { call with
        phase := .drainingAcquire (decide (call.acquireTask = .returned)) .superseded
        acquireTask := call.acquireTask.cancelAndDrain })
    else if call.acquireTask.done then
      some (x.setCall c { call with
        phase := .handingOver
        supersededTask := call.supersededTask.cancelAndDrain })
    else none
  | .handingOver => if call.supersededTask.done then some (x.enterActive c call) else none
  | .drainingAcquire holds error =>
    if call.acquireTask.done then
      some (x.setCall c { call with
        phase := .drainingSuperseded (holds || decide (call.acquireTask = .returned)) error
        supersededTask := call.supersededTask.cancelAndDrain })
    else none
  | .drainingSuperseded holds error =>
    if call.supersededTask.done then some (x.finish c call (.error error) holds) else none
  | .waitingAgain => some (x.enterActive c call)
  | .working | .ended _ => none

/-- A call is cancelled where it is suspended. In the handler of
`_acquire_limiter_unless_superseded` there is no other handler. -/
def cancel (x : Coordinator K R) (c : ℕ) (call : Call K R) : Option (Coordinator K R) :=
  match call.phase with
  | .waiting => some (x.finish c call (.error .cancelled) false)
  | .acquiring => some (x.setCall c { call with
      phase := .drainingAcquire false .cancelled
      acquireTask := call.acquireTask.cancelAndDrain })
  | .handingOver =>
    if call.supersededTask.done then
      some (x.setCall c { call with phase := .drainingAcquire true .cancelled })
    else none
  | .drainingAcquire _ _ =>
    if call.acquireTask.done then some (x.finish c call (.error .cancelled) false) else none
  | .drainingSuperseded _ _ =>
    if call.supersededTask.done then some (x.finish c call (.error .cancelled) false) else none
  | .waitingAgain => some (x.finish c call (.error .cancelled) true)
  | .working => some ((x.clearActive call).finish c call (.error .cancelled) true)
  | .ended _ => none

/-- `acquire_task` gets a permit of the call's limiter. -/
def grant (x : Coordinator K R) (c : ℕ) (call : Call K R) : Option (Coordinator K R) :=
  match call.phase, call.limiter with
  | .acquiring, some limiter =>
    if call.acquireTask = .pending ∧ 0 < x.available limiter then
      some (({ x with
        available := update x.available limiter (x.available limiter - 1)
        grants := update x.grants c (x.grants c + 1) } : Coordinator K R).setCall c
          { call with acquireTask := .returned })
    else none
  | _, _ => none

/-- The worker is done, without a background future. -/
def workerEnds (x : Coordinator K R) (c : ℕ) (call : Call K R) (result : Except CallError R) :
    Coordinator K R :=
  (x.clearActive call).finish c call (if x.isSuperseded call then .error .superseded
    else result) true

/-- The worker leaves its background future behind: the slot is kept until that is done, and
so is the permit. -/
def leaveBehind (x : Coordinator K R) (c : ℕ) (call : Call K R) (error : PyError) (done : Bool) :
    Coordinator K R :=
  x.finish c { call with background := if done then .clearing else .running }
    (.error (.worker error)) done

/-- One turn of the loop. -/
def step (x : Coordinator K R) : CoordinatorEvent K R → Option (Coordinator K R)
  | .start c key limiter cancelActive =>
    match x.calls c with
    | none => some (x.start c key limiter cancelActive)
    | some _ => none
  | .resume c => (x.calls c).bind (x.resume c)
  | .cancel c => (x.calls c).bind (x.cancel c)
  | .grant c => (x.calls c).bind (x.grant c)
  | .acquireEnds c => (x.calls c).bind fun call =>
      if call.acquireTask = .cancelling then some
        (x.setCall c { call with acquireTask := .cancelled })
      else none
  | .notice c => (x.calls c).bind fun call =>
      if call.supersededTask = .pending ∧ x.isSuperseded call then
        some (x.setCall c { call with supersededTask := .returned })
      else none
  | .supersededEnds c => (x.calls c).bind fun call =>
      if call.supersededTask = .cancelling then
        some (x.setCall c { call with supersededTask := .cancelled })
      else none
  | .workerReturns c result => (x.calls c).bind fun call =>
      match call.phase with
      | .working => some (x.workerEnds c call (.ok result))
      | _ => none
  | .workerRaises c error background => (x.calls c).bind fun call =>
      match call.phase with
      | .working => some (match background with
        | none => x.workerEnds c call (.error (.worker error))
        | some done => x.leaveBehind c call error done)
      | _ => none
  | .backgroundDone c => (x.calls c).bind fun call =>
      if call.background = .running then
        some ((x.releasePermit c call.limiter).setCall c { call with background := .clearing })
      else none
  | .clear c => (x.calls c).bind fun call =>
      if call.background = .clearing then
        some (((x.clearActive call).prune call.key call.state).setCall c
          { call with background := .none })
      else none

/-- The runs of a coordinator. -/
def machine (K R : Type) [DecidableEq K] : Machine (Coordinator K R) (CoordinatorEvent K R) where
  init x := ∃ available, x = new available
  step x e y := x.step e = some y

end Coordinator

end Haute
