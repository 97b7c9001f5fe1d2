import Haute.Supersession.Coordinator

/-!
# Where a call's permit is

`Accounts` says that every call's permits add up: it is granted one at most, and that one
is released or still held. Every step keeps it but one: the handler of
`_acquire_limiter_unless_superseded` drains two tasks before it releases, and a
cancellation that is delivered there takes the permit with it.
-/

namespace Haute

open Function (update update_self update_of_ne update_idem)

namespace Call

variable {K R : Type}

/-- The call has not ended. -/
def inFlight (call : Call K R) : Bool :=
  match call.phase with
  | .ended _ => false
  | _ => true

/-- The call has a permit that is yet to be released. -/
def holdsPermit (call : Call K R) : Bool :=
  decide (call.acquireTask = .returned) && (call.inFlight || decide (call.background = .running))

/-- The call is in the handler of `_acquire_limiter_unless_superseded`. -/
def draining (call : Call K R) : Bool :=
  match call.phase with
  | .drainingAcquire .. | .drainingSuperseded .. => true
  | _ => false

/-- What a call's phase says about its variables. -/
structure Ok (call : Call K R) : Prop where
  limiter : call.acquireTask = .returned → call.limiter.isSome
  /-- What it knows about its permit. -/
  permit : match call.phase with
    | .waiting => call.acquireTask = .pending
    | .acquiring => call.acquireTask = .pending ∨ call.acquireTask = .returned
    | .handingOver => call.acquireTask = .returned
    | .drainingAcquire holds _ => holds = true → call.acquireTask = .returned
    | .drainingSuperseded holds _ => holds = true ↔ call.acquireTask = .returned
    | .waitingAgain | .working => call.limiter.isSome → call.acquireTask = .returned
    | .ended _ => call.background ≠ .none → call.limiter.isSome → call.acquireTask = .returned
  background : call.inFlight → call.background = .none

/-- A call's permits add up. -/
def Accounted (call : Call K R) (grants releases : ℕ) : Prop :=
  call.Ok ∧ grants = (if call.acquireTask = .returned then 1 else 0) ∧
    releases + (if call.holdsPermit then 1 else 0) = grants

end Call

namespace Coordinator

variable {K R : Type} {x y : Coordinator K R} {c : ℕ} {call : Call K R}

/-! ### Permits -/

/-- Every call's permits add up, and a call that has not started has none. -/
def Accounts (x : Coordinator K R) : Prop :=
  ∀ c, match x.calls c with
    | none => x.grants c = 0 ∧ x.releases c = 0
    | some call => call.Accounted (x.grants c) (x.releases c)

/-- Nothing is done for the other calls. -/
def OnlyCall (c : ℕ) (x y : Coordinator K R) : Prop :=
  ∀ d, d ≠ c → y.calls d = x.calls d ∧ y.grants d = x.grants d ∧ y.releases d = x.releases d

/-- Where one call moves and is accounted for, all calls still are. -/
theorem Accounts.of_onlyCall (h : x.Accounts) (honly : OnlyCall c x y)
    (hcall : ∃ call, y.calls c = some call ∧ call.Accounted (y.grants c) (y.releases c)) :
    y.Accounts := by
  intro d
  by_cases hd : d = c
  · obtain ⟨call, hcalls, haccounted⟩ := hcall
    rw [hd, hcalls]
    exact haccounted
  · obtain ⟨h1, h2, h3⟩ := honly d hd
    rw [h1, h2, h3]
    exact h d

/-- Each call is accounted for. -/
theorem Accounts.accounted (h : x.Accounts) (hcall : x.calls c = some call) :
    call.Accounted (x.grants c) (x.releases c) := by
  have := h c
  rw [hcall] at this
  exact this

@[simp] theorem calls_setCall : (x.setCall c call).calls = update x.calls c (some call) := rfl

@[simp] theorem grants_setCall : (x.setCall c call).grants = x.grants := rfl

@[simp] theorem releases_setCall : (x.setCall c call).releases = x.releases := rfl

/-- Releasing a permit changes the releases alone. -/
theorem releasePermit_frame (x : Coordinator K R) (c : ℕ) (limiter : Option ℕ) :
    (x.releasePermit c limiter).calls = x.calls ∧ (x.releasePermit c limiter).grants = x.grants ∧
    (x.releasePermit c limiter).heap = x.heap ∧ (x.releasePermit c limiter).states = x.states ∧
    (x.releasePermit c limiter).nextState = x.nextState ∧
      (x.releasePermit c limiter).latest = x.latest := by
  rcases limiter with _ | limiter <;> exact ⟨rfl, rfl, rfl, rfl, rfl, rfl⟩

/-- A call with a limiter releases once more. -/
theorem releases_releasePermit (x : Coordinator K R) (c : ℕ) (limiter : Option ℕ) :
    (x.releasePermit c limiter).releases =
      if limiter.isSome then update x.releases c (x.releases c + 1) else x.releases := by
  rcases limiter with _ | limiter <;> rfl

section Sections

variable [DecidableEq K]

/-- Pruning a state leaves the calls and permits. -/
theorem prune_frame (x : Coordinator K R) (key : K) (sid : ℕ) : (x.prune key sid).calls = x.calls ∧
    (x.prune key sid).grants = x.grants ∧ (x.prune key sid).releases = x.releases ∧
    (x.prune key sid).heap = x.heap ∧ (x.prune key sid).nextState = x.nextState ∧
    (x.prune key sid).latest = x.latest := by
  unfold prune
  split_ifs <;> exact ⟨rfl, rfl, rfl, rfl, rfl, rfl⟩

/-- A finished call has ended with its outcome. -/
theorem calls_finish (x : Coordinator K R) (c : ℕ) (call : Call K R) (outcome : Except CallError R)
    (release : Bool) : (x.finish c call outcome release).calls =
      update x.calls c (some { call with phase := .ended outcome }) := by
  rw [finish, calls_setCall, releaseState, (prune_frame _ _ _).1]
  exact congrArg (update · c _) (releasePermit_frame x c _).1

/-- Finishing a call grants nothing. -/
theorem grants_finish (x : Coordinator K R) (c : ℕ) (call : Call K R) (outcome : Except CallError R)
    (release : Bool) : (x.finish c call outcome release).grants = x.grants := by
  rw [finish, grants_setCall, releaseState, (prune_frame _ _ _).2.1]
  exact (releasePermit_frame x c _).2.1

/-- A finished call with a limiter releases if it is to. -/
theorem releases_finish (x : Coordinator K R) (c : ℕ) (call : Call K R)
    (outcome : Except CallError R)
    (release : Bool) : (x.finish c call outcome release).releases =
      if release && call.limiter.isSome then update x.releases c (x.releases c + 1)
        else x.releases := by
  rw [finish, releases_setCall, releaseState, (prune_frame _ _ _).2.2.1]
  refine (releases_releasePermit x c _).trans ?_
  rcases release with _ | _ <;> rfl

/-- A call that ends: its permit is released, unless it has none or leaves it to the
background future. -/
theorem accounts_finish (h : x.Accounts) {old : Call K R} (hcall : x.calls c = some old)
    (hflight : old.inFlight = true) (hlimiter : call.limiter = old.limiter)
    (hacquire : call.acquireTask = old.acquireTask) {outcome : Except CallError R} {release : Bool}
    (hbackground : call.background ≠ .none → call.limiter.isSome → call.acquireTask = .returned)
    (hrelease : (release && call.limiter.isSome) =
      (decide (call.acquireTask = .returned) && decide (call.background ≠ .running))) :
    (x.finish c call outcome release).Accounts := by
  obtain ⟨hok, hgrants, hreleases⟩ := h.accounted hcall
  refine h.of_onlyCall (c := c) (fun d hd => ?_)
    ⟨{ call with phase := .ended outcome }, ?_, ?_, ?_, ?_⟩
  · rw [calls_finish, grants_finish, releases_finish, update_of_ne hd]
    refine ⟨rfl, rfl, ?_⟩
    split_ifs
    · exact update_of_ne hd _ _
    · rfl
  · rw [calls_finish, update_self]
  · exact ⟨fun hreturned => hlimiter ▸ hok.limiter (hacquire ▸ hreturned), hbackground,
      fun hf => by cases hf⟩
  · rw [grants_finish, hgrants, hacquire]
  · rw [grants_finish, releases_finish, hrelease]
    have hheld : old.holdsPermit = decide (call.acquireTask = .returned) := by
      rw [Call.holdsPermit, hflight, Bool.true_or, Bool.and_true, hacquire]
    rw [hheld] at hreleases
    simp only [Call.holdsPermit, Call.inFlight, Bool.false_or]
    by_cases hreturned : call.acquireTask = .returned <;> by_cases hrunning : call.background =
      .running <;>
      simp [hreturned, hrunning] at hreleases ⊢ <;> omega

end Sections

/-- A call whose permit stays where it is. -/
theorem accounts_congr (h : x.Accounts) {old : Call K R} (hcall : x.calls c = some old)
    (hok : call.Ok)
    (hacquire : call.acquireTask = .returned ↔ old.acquireTask = .returned)
    (hholds : call.holdsPermit = old.holdsPermit) : (x.setCall c call).Accounts := by
  obtain ⟨-, hgrants, hreleases⟩ := h.accounted hcall
  refine h.of_onlyCall (c := c) (fun d hd => ?_) ⟨call, update_self _ _ _, hok, ?_, ?_⟩
  · exact ⟨update_of_ne hd _ _, rfl, rfl⟩
  · rw [grants_setCall, hgrants]
    simp only [hacquire]
  · rw [grants_setCall, releases_setCall, ← hreleases, hholds]

/-- A call that goes on with the same permit. -/
theorem accounts_setCall (h : x.Accounts) {old : Call K R} (hcall : x.calls c = some old)
    (hflight : old.inFlight = true) (hnew : call.inFlight = true) (hok : call.Ok)
    (hacquire : call.acquireTask = .returned ↔ old.acquireTask = .returned) :
    (x.setCall c call).Accounts := by
  refine accounts_congr h hcall hok hacquire ?_
  simp only [Call.holdsPermit, hflight, hnew, hacquire, Bool.true_or]

/-- A cancelled `acquire_task` ends without a permit. -/
theorem accounts_acquireEnds (h : x.Accounts) (hcall : x.calls c = some call)
    (hcancelling : call.acquireTask = .cancelling) :
    (x.setCall c { call with acquireTask := .cancelled }).Accounts := by
  have hok := (h.accounted hcall).1
  have hpermit := hok.permit
  have hnot : call.acquireTask ≠ .returned := by
    rw [hcancelling]
    decide
  refine accounts_congr h hcall ⟨nofun, ?_, hok.background⟩ ⟨nofun, fun hr => absurd hr hnot⟩ ?_
  · rcases hphase : call.phase
      with _ | _ | _ | ⟨holds, error⟩ | ⟨holds, error⟩ | _ | _ | outcome <;>
      rw [hphase] at hpermit <;> simp_all
  · simp only [Call.holdsPermit, hnot, decide_false, Bool.false_and]
    rfl

/-- What becomes of the other task has nothing to do with the permit. -/
theorem accounts_supersededTask (h : x.Accounts) (hcall : x.calls c = some call)
    (task : HelperTask) :
    (x.setCall c { call with supersededTask := task }).Accounts := by
  have hok := (h.accounted hcall).1
  exact accounts_congr h hcall ⟨hok.limiter, hok.permit, hok.background⟩ Iff.rfl rfl

variable [DecidableEq K]

/-- A call that has a permit of its limiter, or no limiter, ends. -/
theorem accounts_finish_released (h : x.Accounts) (hcall : x.calls c = some call)
    (hflight : call.inFlight = true) (hpermit : call.limiter.isSome → call.acquireTask = .returned)
    (outcome : Except CallError R) : (x.finish c call outcome true).Accounts := by
  have hok := (h.accounted hcall).1
  have hbackground := hok.background hflight
  refine accounts_finish h hcall hflight rfl rfl (fun hne => absurd hbackground hne) ?_
  rw [hbackground, Bool.eq_iff_iff]
  simp only [Bool.and_eq_true, decide_eq_true_eq, true_and]
  exact ⟨fun hl => ⟨hpermit hl, by decide⟩, fun hand => hok.limiter hand.1⟩

/-- A call that has no permit ends. -/
theorem accounts_finish_without (h : x.Accounts) (hcall : x.calls c = some call)
    (hflight : call.inFlight = true) (hnot : call.acquireTask ≠ .returned)
    (outcome : Except CallError R) : (x.finish c call outcome false).Accounts := by
  have hbackground := (h.accounted hcall).1.background hflight
  refine accounts_finish h hcall hflight rfl rfl (fun hne => absurd hbackground hne) ?_
  simp [hnot]

omit [DecidableEq K] in
/-- A call that has not ended. -/
theorem inFlight_of_phase {phase : CallPhase R} (h : call.phase = phase)
    (hne : ∀ o, phase ≠ .ended o) :
    call.inFlight = true := by
  unfold Call.inFlight
  rw [h]
  cases phase with
  | ended o => exact absurd rfl (hne o)
  | _ => rfl

/-- A call that has a permit of its limiter, or no limiter, tries for the slot. -/
theorem accounts_enterActive (h : x.Accounts) (hcall : x.calls c = some call)
    (hflight : call.inFlight = true)
    (hpermit : call.limiter.isSome → call.acquireTask = .returned) :
    (x.enterActive c call).Accounts := by
  have hok := (h.accounted hcall).1
  have hbackground := hok.background hflight
  unfold enterActive
  split_ifs
  · exact accounts_finish_released h hcall hflight hpermit _
  · exact accounts_setCall h hcall hflight rfl ⟨hok.limiter, hpermit, fun _ => hbackground⟩ Iff.rfl
  · exact accounts_setCall (x := x.setState _ _) h hcall hflight rfl
      ⟨hok.limiter, hpermit, fun _ => hbackground⟩ Iff.rfl

/-- A call that has yet to ask for a permit. -/
theorem accounts_enterLimiter (h : x.Accounts) (hcall : x.calls c = some call)
    (hflight : call.inFlight = true) (hpending : call.acquireTask = .pending) :
    (x.enterLimiter c call).Accounts := by
  have hok := (h.accounted hcall).1
  have hbackground := hok.background hflight
  unfold enterLimiter
  split_ifs
  · exact accounts_finish_without h hcall hflight (by rw [hpending]; decide) _
  · exact accounts_setCall h hcall hflight rfl ⟨hok.limiter, hpending, fun _ => hbackground⟩ Iff.rfl
  · split
    next hlimiter =>
      refine accounts_enterActive h hcall hflight fun hl => ?_
      rw [hlimiter] at hl
      cases hl
    next =>
      exact accounts_setCall h hcall hflight rfl
        ⟨hok.limiter, .inl hpending, fun _ => hbackground⟩ Iff.rfl

/-- Draining a task leaves a permit where it is. -/
theorem cancelAndDrain_eq_returned_iff {task : HelperTask} :
    task.cancelAndDrain = .returned ↔ task = .returned := by
  cases task <;> simp [HelperTask.cancelAndDrain]

/-- The calls stay accounted for when one resumes. -/
theorem accounts_resume (h : x.Accounts) (hcall : x.calls c = some call)
    (hstep : x.resume c call = some y) :
    y.Accounts := by
  have hok := (h.accounted hcall).1
  have hpermit := hok.permit
  unfold resume at hstep
  split at hstep
  case h_1 heq =>
    rw [heq] at hpermit
    cases hstep
    exact accounts_enterLimiter h hcall (inFlight_of_phase heq fun _ h => by cases h) hpermit
  case h_2 heq =>
    have hflight := inFlight_of_phase heq fun _ h => by cases h
    have hbackground := hok.background hflight
    -- superseded meanwhile, it gives up the permit it waits for
    split_ifs at hstep with hsuperseded hacquired
    · cases hstep
      refine accounts_setCall h hcall hflight rfl ⟨fun hr => ?_, fun hr => ?_, fun _ => hbackground⟩
        cancelAndDrain_eq_returned_iff
      · exact hok.limiter (cancelAndDrain_eq_returned_iff.mp hr)
      · exact cancelAndDrain_eq_returned_iff.mpr (of_decide_eq_true hr)
    · cases hstep
      rw [heq] at hpermit
      have hreturned : call.acquireTask = .returned := hpermit.resolve_left fun hp => by
        rw [hp] at hacquired
        cases hacquired
      exact accounts_setCall h hcall hflight rfl
        ⟨hok.limiter, hreturned, fun _ => hbackground⟩ Iff.rfl
  case h_3 heq =>
    rw [heq] at hpermit
    split_ifs at hstep
    cases hstep
    exact accounts_enterActive h hcall (inFlight_of_phase heq fun _ h => by cases h)
      fun _ => hpermit
  case h_4 holds error heq =>
    have hflight := inFlight_of_phase heq fun _ h => by cases h
    rw [heq] at hpermit
    split_ifs at hstep
    cases hstep
    refine accounts_setCall h hcall hflight rfl
      ⟨hok.limiter, ?_, fun _ => hok.background hflight⟩ Iff.rfl
    change (holds || decide (call.acquireTask = .returned)) = true ↔ _
    rw [Bool.or_eq_true, decide_eq_true_eq]
    exact ⟨fun hor => hor.elim hpermit id, .inr⟩
  case h_5 holds error heq =>
    have hflight := inFlight_of_phase heq fun _ h => by cases h
    have hbackground := hok.background hflight
    rw [heq] at hpermit
    split_ifs at hstep
    cases hstep
    refine accounts_finish h hcall hflight rfl rfl (fun hne => absurd hbackground hne) ?_
    rw [hbackground, Bool.eq_iff_iff]
    simp only [Bool.and_eq_true, decide_eq_true_eq, hpermit]
    exact ⟨fun hand => ⟨hand.1, by decide⟩, fun hand => ⟨hand.1, hok.limiter hand.1⟩⟩
  case h_6 heq =>
    rw [heq] at hpermit
    cases hstep
    exact accounts_enterActive h hcall (inFlight_of_phase heq fun _ h => by cases h) hpermit
  case h_7 => cases hstep
  case h_8 => cases hstep

/-- **A cancellation** releases the permit, if it is not delivered to a handler that holds
it. -/
theorem accounts_cancel (h : x.Accounts) (hcall : x.calls c = some call)
    (hcalm : call.draining = true → call.acquireTask ≠ .returned)
    (hstep : x.cancel c call = some y) :
    y.Accounts := by
  have hok := (h.accounted hcall).1
  have hpermit := hok.permit
  have hbackground := hok.background
  unfold cancel at hstep
  split at hstep
  case h_1 heq =>
    rw [heq] at hpermit
    cases hstep
    exact accounts_finish_without h hcall (inFlight_of_phase heq fun _ h => by cases h)
      (by rw [hpermit]; decide) _
  case h_2 heq =>
    have hflight := inFlight_of_phase heq fun _ h => by cases h
    cases hstep
    refine accounts_setCall h hcall hflight rfl ⟨fun hr => ?_, nofun, fun _ => hbackground hflight⟩
      cancelAndDrain_eq_returned_iff
    exact hok.limiter (cancelAndDrain_eq_returned_iff.mp hr)
  case h_3 heq =>
    have hflight := inFlight_of_phase heq fun _ h => by cases h
    rw [heq] at hpermit
    split_ifs at hstep
    cases hstep
    exact accounts_setCall h hcall hflight rfl
      ⟨hok.limiter, fun _ => hpermit, fun _ => hbackground hflight⟩
      Iff.rfl
  case h_4 holds error heq =>
    -- a drain that is cancelled loses a permit it got: the hypothesis rules it out
    have hdraining : call.draining = true := by
      unfold Call.draining
      rw [heq]
    split_ifs at hstep
    cases hstep
    exact accounts_finish_without h hcall (inFlight_of_phase heq fun _ h => by cases h)
      (hcalm hdraining) _
  case h_5 holds error heq =>
    have hdraining : call.draining = true := by
      unfold Call.draining
      rw [heq]
    split_ifs at hstep
    cases hstep
    exact accounts_finish_without h hcall (inFlight_of_phase heq fun _ h => by cases h)
      (hcalm hdraining) _
  case h_6 heq =>
    rw [heq] at hpermit
    cases hstep
    exact accounts_finish_released h hcall (inFlight_of_phase heq fun _ h => by cases h) hpermit _
  case h_7 heq =>
    rw [heq] at hpermit
    cases hstep
    exact accounts_finish_released (x := x.clearActive call) h hcall
      (inFlight_of_phase heq fun _ h => by cases h) hpermit _
  case h_8 => cases hstep

/-- A call is registered: it has no permit yet. -/
theorem accounts_start (h : x.Accounts) {key : K} {limiter cancelActive : Option ℕ}
    (hcall : x.calls c = none) : (x.start c key limiter cancelActive).Accounts := by
  have hretain : (x.retainState key).2.calls = x.calls ∧ (x.retainState key).2.grants = x.grants ∧
      (x.retainState key).2.releases = x.releases := by
    unfold retainState
    split <;> exact ⟨rfl, rfl, rfl⟩
  have hnone := h c
  rw [hcall] at hnone
  unfold start
  refine accounts_enterLimiter ?_ (update_self _ _ _) rfl rfl
  refine h.of_onlyCall (c := c) (fun d hd => ?_)
    ⟨_, update_self _ _ _, ⟨nofun, rfl, fun _ => rfl⟩, ?_, ?_⟩
  · refine ⟨(update_of_ne hd _ _).trans ?_, ?_, ?_⟩
    · exact congrFun hretain.1 d
    · exact congrFun hretain.2.1 d
    · exact congrFun hretain.2.2 d
  · exact (congrFun hretain.2.1 c).trans hnone.1
  · refine (congrFun hretain.2.2 c).trans (hnone.2.trans ?_)
    exact (((congrFun hretain.2.1 c).trans hnone.1)).symm

omit [DecidableEq K] in
/-- `acquire_task` gets its permit. -/
theorem accounts_grant (h : x.Accounts) (hcall : x.calls c = some call)
    (hstep : x.grant c call = some y) :
    y.Accounts := by
  obtain ⟨hok, hgrants, hreleases⟩ := h.accounted hcall
  unfold grant at hstep
  split at hstep
  next limiter hphase hlimiter =>
    split_ifs at hstep with hcond
    cases hstep
    have hflight := inFlight_of_phase hphase fun _ h => by cases h
    have hpending : call.acquireTask ≠ .returned := by
      rw [hcond.1]
      decide
    refine h.of_onlyCall (c := c) (fun d hd => ⟨update_of_ne hd _ _, update_of_ne hd _ _, rfl⟩)
      ⟨_, update_self _ _ _, ⟨fun _ => ?_, ?_, fun _ => hok.background hflight⟩, ?_, ?_⟩
    · exact hlimiter ▸ rfl
    · change match call.phase with | _ => _
      rw [hphase]
      exact .inr rfl
    · change update x.grants c _ c = _
      rw [update_self, hgrants, if_neg hpending]
      rfl
    · have hnot : call.holdsPermit = false := by
        rw [Call.holdsPermit, decide_eq_false hpending, Bool.false_and]
      rw [hnot] at hreleases
      have hholds : ({ call with acquireTask := .returned } : Call K R).holdsPermit = true := by
        change (true && (call.inFlight || _)) = true
        rw [hflight]
        rfl
      change x.releases c + _ = update x.grants c _ c
      rw [update_self, hholds, ← hreleases]
      rfl
  next => cases hstep

/-- A worker that leaves its background future behind leaves it the permit. -/
theorem accounts_leaveBehind (h : x.Accounts) (hcall : x.calls c = some call)
    (hphase : call.phase = .working) (error : PyError) (done : Bool) :
    (x.leaveBehind c call error done).Accounts := by
  have hok := (h.accounted hcall).1
  have hpermit := hok.permit
  rw [hphase] at hpermit
  change (x.finish c { call with background := if done then .clearing else .running }
    _ done).Accounts
  refine accounts_finish h hcall (inFlight_of_phase hphase fun _ h => by cases h) ?_ ?_ ?_ ?_
  · rfl
  · rfl
  · exact fun _ => hpermit
  rcases done with _ | _
  · simp
  · rw [Bool.eq_iff_iff]
    simp only [if_true, Bool.and_eq_true, decide_eq_true_eq, true_and]
    exact ⟨fun hl => ⟨hpermit hl, by decide⟩, fun hand => hok.limiter hand.1⟩

omit [DecidableEq K] in
/-- A call with a background future has ended. -/
theorem inFlight_of_background (h : call.Ok) (hne : call.background ≠ .none) :
    call.inFlight = false := by
  rcases hflight : call.inFlight with _ | _
  · rfl
  · exact absurd (h.background hflight) hne

omit [DecidableEq K] in
/-- The calls stay accounted for when background work is done. -/
theorem accounts_backgroundDone (h : x.Accounts) (hcall : x.calls c = some call)
    (hrunning : call.background = .running) :
    ((x.releasePermit c call.limiter).setCall c { call with background := .clearing }).Accounts :=
  by
  obtain ⟨hok, hgrants, hreleases⟩ := h.accounted hcall
  have hne : call.background ≠ .none := by
    rw [hrunning]
    decide
  have hflight := inFlight_of_background hok hne
  obtain ⟨outcome, hphase⟩ : ∃ outcome, call.phase = .ended outcome := by
    unfold Call.inFlight at hflight
    split at hflight
    next outcome heq => exact ⟨outcome, heq⟩
    next => cases hflight
  have hpermit := hok.permit
  rw [hphase] at hpermit
  -- a call that left work behind holds a permit exactly if it has a limiter
  have hiff : call.limiter.isSome = decide (call.acquireTask = .returned) :=
    Bool.eq_iff_iff.mpr ⟨fun hl => decide_eq_true (hpermit hne hl), fun hr =>
      hok.limiter (of_decide_eq_true hr)⟩
  have hheld : call.holdsPermit = decide (call.acquireTask = .returned) := by
    rw [Call.holdsPermit, hrunning, decide_eq_true rfl, Bool.or_true, Bool.and_true]
  have hfree : ({ call with background := .clearing } : Call K R).holdsPermit = false := by
    change (_ && (call.inFlight || _)) = false
    rw [hflight]
    simp
  have hreleased := releases_releasePermit x c call.limiter
  refine h.of_onlyCall (c := c) (fun d hd => ⟨?_, ?_, ?_⟩) ⟨_, update_self _ _ _,
    ⟨hok.limiter, ?_, fun hf => by
      rw [show call.inFlight = true from hf] at hflight; cases hflight⟩, ?_, ?_⟩
  · exact (update_of_ne hd _ _).trans (congrFun (releasePermit_frame x c call.limiter).1 d)
  · exact congrFun (releasePermit_frame x c call.limiter).2.1 d
  · rw [releases_setCall, hreleased]
    split_ifs
    · exact update_of_ne hd _ _
    · rfl
  · simp only [hphase]
    exact fun _ hl => hpermit hne hl
  · exact (congrFun (releasePermit_frame x c call.limiter).2.1 c).trans hgrants
  · rw [grants_setCall, releases_setCall, (releasePermit_frame x c call.limiter).2.1, hfree,
      hreleased, hiff,
      ← hreleases, hheld]
    by_cases hreturned : call.acquireTask = .returned
    · simp [hreturned]
    · simp [hreturned]

/-- The calls stay accounted for when one is cleared. -/
theorem accounts_clear (h : x.Accounts) (hcall : x.calls c = some call)
    (hclearing : call.background = .clearing) :
    (((x.clearActive call).prune call.key call.state).setCall c
      { call with background := .none }).Accounts := by
  have hok := (h.accounted hcall).1
  have hflight : call.inFlight = false := inFlight_of_background hok (by rw [hclearing]; decide)
  obtain ⟨hcalls, hgrants, hreleases, -⟩ := prune_frame (x.clearActive call) call.key call.state
  have hframe : ((x.clearActive call).prune call.key call.state).Accounts := by
    intro d
    rw [hcalls, hgrants, hreleases]
    exact h d
  refine accounts_congr hframe ((congrFun hcalls c).trans hcall) ⟨hok.limiter, ?_, fun _ => rfl⟩
    Iff.rfl ?_
  · obtain ⟨outcome, hphase⟩ : ∃ outcome, call.phase = .ended outcome := by
      unfold Call.inFlight at hflight
      split at hflight
      next outcome heq => exact ⟨outcome, heq⟩
      next => cases hflight
    simp only [hphase]
    exact fun hne => absurd rfl hne
  · change (_ && (call.inFlight || _)) = (_ && (call.inFlight || _))
    rw [hflight, hclearing]
    rfl

/-- A step takes no permit from its call without releasing it, as long as no handler that
holds one is cancelled. -/
theorem accounts_step (h : x.Accounts) {e : CoordinatorEvent K R}
    (hcalm : ∀ c call, e = .cancel c → x.calls c = some call → call.draining = true →
      call.acquireTask ≠ .returned) (hstep : x.step e = some y) : y.Accounts := by
  have hworking {call : Call K R} {result : Except CallError R} {c : ℕ}
      (hcall : x.calls c = some call)
      (hphase : call.phase = .working) : (x.workerEnds c call result).Accounts := by
    have hpermit := (h.accounted hcall).1.permit
    rw [hphase] at hpermit
    exact accounts_finish_released (x := x.clearActive call) h hcall
      (inFlight_of_phase hphase fun _ h => by cases h) hpermit _
  cases e
  case start c key limiter cancelActive =>
    simp only [step] at hstep
    split at hstep
    next hnone =>
      cases hstep
      exact accounts_start h hnone
    next => cases hstep
  case resume c =>
    obtain ⟨call, hcall, hstep⟩ := Option.bind_eq_some_iff.mp hstep
    exact accounts_resume h hcall hstep
  case cancel c =>
    obtain ⟨call, hcall, hstep⟩ := Option.bind_eq_some_iff.mp hstep
    exact accounts_cancel h hcall (hcalm c call rfl hcall) hstep
  case grant c =>
    obtain ⟨call, hcall, hstep⟩ := Option.bind_eq_some_iff.mp hstep
    exact accounts_grant h hcall hstep
  case acquireEnds c =>
    obtain ⟨call, hcall, hstep⟩ := Option.bind_eq_some_iff.mp hstep
    split_ifs at hstep with hcancelling
    cases hstep
    exact accounts_acquireEnds h hcall hcancelling
  case notice c =>
    obtain ⟨call, hcall, hstep⟩ := Option.bind_eq_some_iff.mp hstep
    split_ifs at hstep
    cases hstep
    exact accounts_supersededTask h hcall _
  case supersededEnds c =>
    obtain ⟨call, hcall, hstep⟩ := Option.bind_eq_some_iff.mp hstep
    split_ifs at hstep
    cases hstep
    exact accounts_supersededTask h hcall _
  case workerReturns c result =>
    obtain ⟨call, hcall, hstep⟩ := Option.bind_eq_some_iff.mp hstep
    split at hstep
    next hphase =>
      cases hstep
      exact hworking hcall hphase
    next => cases hstep
  case workerRaises c error background =>
    obtain ⟨call, hcall, hstep⟩ := Option.bind_eq_some_iff.mp hstep
    split at hstep
    next hphase =>
      rcases background with _ | done
      · cases hstep
        exact hworking hcall hphase
      · cases hstep
        exact accounts_leaveBehind h hcall hphase error done
    next => cases hstep
  case backgroundDone c =>
    obtain ⟨call, hcall, hstep⟩ := Option.bind_eq_some_iff.mp hstep
    split_ifs at hstep with hrunning
    cases hstep
    exact accounts_backgroundDone h hcall hrunning
  case clear c =>
    obtain ⟨call, hcall, hstep⟩ := Option.bind_eq_some_iff.mp hstep
    split_ifs at hstep with hclearing
    cases hstep
    exact accounts_clear h hcall hclearing

end Coordinator

end Haute
