import Haute.Data.OrdDict
import Haute.Data.Runs
import Mathlib.Data.List.Count

/-!
# The event bus

`EventBus` keeps, for each event type, the list of the handlers registered for it, in the
order of their subscriptions. `subscribe` appends; the callable it returns takes out the
first equal handler it finds, so it knows its subscription only by the handler.

Beside the bus, `Wiring` keeps what the bus does not: the subscriptions made so far, and
which of them have had their own callable called. `Independent` compares the two. Equal
handlers are the same to the bus, so a second call of one callable takes out the
registration of another subscription (`second_call_takes_another`); it is the only call
that does, and a sequence of calls stays independent exactly without it
(`subscriptions_independent`).
-/

namespace Haute

variable {H : Type}

/-! ### The bus -/

/-- The handlers registered for each event type. An event type without handlers has no
entry. -/
structure EventBus (H : Type) where
  handlers : OrdDict String (List H)
  tidy : ∀ eventType, handlers.get? eventType ≠ some []

namespace EventBus

/-- The bus without handlers. -/
def new : EventBus H := ⟨.empty, fun _ => by simp⟩

/-- What `publish` fans a payload out to. -/
def registered (bus : EventBus H) (eventType : String) : List H :=
  (bus.handlers.get? eventType).getD []

/-- Register a handler. -/
def subscribe (bus : EventBus H) (eventType : String) (handler : H) : EventBus H where
  handlers := bus.handlers.upsert eventType fun held => held.getD [] ++ [handler]
  tidy eventType' := by
    rw [OrdDict.get?_upsert]
    split_ifs
    · simp
    · exact bus.tidy eventType'

@[simp] theorem registered_new (eventType : String) :
    (new : EventBus H).registered eventType = [] := rfl

@[simp] theorem registered_subscribe (bus : EventBus H) (eventType eventType' : String)
    (handler : H) :
    (bus.subscribe eventType handler).registered eventType'
      = bus.registered eventType' ++ if eventType' = eventType then [handler] else [] := by
  rw [registered, subscribe, OrdDict.get?_upsert]
  split_ifs with h
  · rw [h, Option.getD_some, registered]
  · rw [List.append_nil, registered]

variable [DecidableEq H]

/-- The callable `subscribe` returns. -/
def unsubscribe (bus : EventBus H) (eventType : String) (handler : H) : EventBus H :=
  match bus.handlers.get? eventType with
  | none => bus
  | some handlers =>
    -- no equal handler: already unsubscribed
    if handler ∉ handlers then bus
    else if hleft : handlers.erase handler = [] then
      { handlers := bus.handlers.erase eventType
        tidy := fun eventType' => by
          rw [OrdDict.get?_erase]
          split_ifs
          · simp
          · exact bus.tidy eventType' }
    else
      { handlers := bus.handlers.insert eventType (handlers.erase handler)
        tidy := fun eventType' => by
          rw [OrdDict.insert, OrdDict.get?_upsert]
          split_ifs
          · exact fun h => hleft (Option.some.inj h)
          · exact bus.tidy eventType' }

/-- A callable takes out the first handler equal to its own, if there is one. -/
@[simp] theorem registered_unsubscribe (bus : EventBus H) (eventType eventType' : String)
    (handler : H) : (bus.unsubscribe eventType handler).registered eventType'
      = if eventType' = eventType then (bus.registered eventType).erase handler
        else bus.registered eventType' := by
  rcases hheld : bus.handlers.get? eventType with _ | handlers
  · have hbus : bus.unsubscribe eventType handler = bus := by
      rw [unsubscribe, hheld]
    rw [hbus]
    split_ifs with h
    · rw [h, registered, hheld]
      rfl
    · rfl
  · have hreg : bus.registered eventType = handlers := by rw [registered, hheld, Option.getD_some]
    rw [unsubscribe, hheld, hreg]
    by_cases hmem : handler ∈ handlers
    · by_cases hleft : handlers.erase handler = []
      · simp only [hmem, not_true, if_false, hleft, dif_pos]
        rw [registered, OrdDict.get?_erase]
        split_ifs with h
        · rfl
        · rfl
      · simp only [hmem, not_true, if_false, hleft, dif_neg, not_false_iff]
        change ((bus.handlers.upsert eventType fun _ => handlers.erase handler).get? _).getD [] = _
        rw [OrdDict.get?_upsert]
        split_ifs with h
        · rfl
        · rfl
    · simp only [hmem, not_false_iff, if_true]
      split_ifs with h
      · rw [h, hreg, List.erase_of_not_mem hmem]
      · rfl

end EventBus

/-! ### The subscriptions made -/

/-- One subscription: `unsubscribed` once its own callable has been called. -/
structure Subscription (H : Type) where
  eventType : String
  handler : H
  unsubscribed : Bool
  deriving DecidableEq

/-- Whether the subscription is one of `handler` to `eventType` whose own callable has not
been called. -/
def Subscription.isLive [DecidableEq H] (eventType : String) (handler : H)
    (sub : Subscription H) : Bool :=
  sub.eventType = eventType && sub.handler = handler && !sub.unsubscribed

/-- The bus, and the subscriptions made so far, oldest first. -/
structure Wiring (H : Type) where
  bus : EventBus H
  subscriptions : List (Subscription H)

/-- A call of a subscriber: of `subscribe`, or of the callable the `i`-th `subscribe`
returned. -/
inductive BusCall (H : Type) where
  | subscribe (eventType : String) (handler : H)
  | unsubscribe (i : ℕ)

namespace Wiring

variable [DecidableEq H]

/-- A fresh bus. -/
def new : Wiring H := ⟨.new, []⟩

/-- What a call does. A callable can only be called once it has been returned. -/
def call (w : Wiring H) : BusCall H → Option (Wiring H)
  | .subscribe eventType handler =>
    some ⟨w.bus.subscribe eventType handler, w.subscriptions ++ [⟨eventType, handler, false⟩]⟩
  | .unsubscribe i =>
    w.subscriptions[i]?.map fun sub =>
      ⟨w.bus.unsubscribe sub.eventType sub.handler,
        w.subscriptions.set i { sub with unsubscribed := true }⟩

/-- The machine of subscribers calling in any order. -/
def machine (H : Type) [DecidableEq H] : Machine (Wiring H) (BusCall H) := .ofPartial new call

/-- How often `handler` is registered for `eventType`. -/
def registrations (w : Wiring H) (eventType : String) (handler : H) : ℕ :=
  (w.bus.registered eventType).count handler

/-- How many subscriptions of `handler` to `eventType` have not had their own callable
called. -/
def live (w : Wiring H) (eventType : String) (handler : H) : ℕ :=
  w.subscriptions.countP (Subscription.isLive eventType handler)

/-- Every handler is registered once for each of its live subscriptions. -/
def Independent (w : Wiring H) : Prop :=
  ∀ eventType handler, w.registrations eventType handler = w.live eventType handler

/-- The call repeats that of a subscription whose handler has another, live subscription to
the same event type. -/
def Repeats (w : Wiring H) (c : BusCall H) : Prop :=
  ∃ i sub, c = .unsubscribe i ∧ w.subscriptions[i]? = some sub ∧ sub.unsubscribed = true ∧
    0 < w.live sub.eventType sub.handler

variable {w w' : Wiring H}

theorem independent_new : (new : Wiring H).Independent := fun _ _ => rfl

/-- What a call is and does. -/
theorem call_eq_some {c : BusCall H} (h : w.call c = some w') :
    (∃ eventType handler, c = .subscribe eventType handler ∧
      w' = ⟨w.bus.subscribe eventType handler, w.subscriptions ++ [⟨eventType, handler, false⟩]⟩) ∨
    ∃ i sub, c = .unsubscribe i ∧ w.subscriptions[i]? = some sub ∧
      w' = ⟨w.bus.unsubscribe sub.eventType sub.handler,
        w.subscriptions.set i { sub with unsubscribed := true }⟩ := by
  cases c with
  | subscribe eventType handler => exact .inl ⟨eventType, handler, rfl, (Option.some.inj h).symm⟩
  | unsubscribe i =>
    obtain ⟨sub, hsub, hw⟩ := Option.map_eq_some_iff.mp h
    exact .inr ⟨i, sub, rfl, hsub, hw.symm⟩

/-! ### What a call does to the counts -/

/-- A subscription adds one registration and one live subscription. -/
theorem registrations_subscribe (w : Wiring H) (eventType eventType' : String)
    (handler handler' : H) :
    ((w.bus.subscribe eventType handler).registered eventType').count handler'
      = w.registrations eventType' handler'
        + if Subscription.isLive eventType' handler' ⟨eventType, handler, false⟩ then 1 else 0 := by
  rw [EventBus.registered_subscribe, List.count_append, registrations]
  congr 1
  by_cases he : eventType' = eventType
  · by_cases hh : handler = handler' <;> simp [Subscription.isLive, he, hh]
  · simp [Subscription.isLive, he, Ne.symm he]

theorem live_subscribe (w : Wiring H) (bus : EventBus H) (sub : Subscription H) (eventType : String)
    (handler : H) : (⟨bus, w.subscriptions ++ [sub]⟩ : Wiring H).live eventType handler
      = w.live eventType handler + if sub.isLive eventType handler then 1 else 0 := by
  rw [live, live, List.countP_append]
  congr 1
  split_ifs with h <;> simp [h]

/-- A callable takes out one registration, where there is one. -/
theorem registrations_unsubscribe (w : Wiring H) (sub : Subscription H) (eventType : String)
    (handler : H) :
    ((w.bus.unsubscribe sub.eventType sub.handler).registered eventType).count handler
      = w.registrations eventType handler
        - if sub.eventType = eventType ∧ sub.handler = handler then 1 else 0 := by
  rw [EventBus.registered_unsubscribe, registrations]
  by_cases he : eventType = sub.eventType
  · rw [if_pos he, he]
    by_cases hh : sub.handler = handler
    · rw [← hh, List.count_erase_self, if_pos ⟨rfl, rfl⟩]
    · rw [List.count_erase_of_ne (Ne.symm hh), if_neg fun h => hh h.2, Nat.sub_zero]
  · rw [if_neg he, if_neg fun h => he h.1.symm, Nat.sub_zero]

/-- A callable takes out one live subscription: its own, the first time it is called. -/
theorem live_unsubscribe (bus : EventBus H) {i : ℕ} {sub : Subscription H}
    (hsub : w.subscriptions[i]? = some sub) (eventType : String) (handler : H) :
    (⟨bus, w.subscriptions.set i { sub with unsubscribed := true }⟩ : Wiring H).live
      eventType handler
      = w.live eventType handler - if sub.isLive eventType handler then 1 else 0 := by
  obtain ⟨hi, hget⟩ := List.getElem?_eq_some_iff.mp hsub
  have hdone : Subscription.isLive eventType handler { sub with unsubscribed := true } = false := by
    simp [Subscription.isLive]
  rw [live, live, List.countP_set hi, hget, hdone]
  simp

/-- A callable that repeats has been returned. -/
theorem exists_call_of_repeats {c : BusCall H} (hc : w.Repeats c) : ∃ w', w.call c = some w' := by
  obtain ⟨i, sub, rfl, hsub, -, -⟩ := hc
  exact ⟨_, by rw [call, hsub, Option.map_some]⟩

/-! ### Independence -/

/-- A call that does not repeat another keeps the subscriptions independent. -/
theorem Independent.call {c : BusCall H} (hw : w.Independent) (hc : ¬ w.Repeats c)
    (h : w.call c = some w') : w'.Independent := by
  intro eventType handler
  obtain ⟨eventType', handler', rfl, rfl⟩ | ⟨i, sub, rfl, hsub, rfl⟩ := call_eq_some h
  · rw [live_subscribe, registrations, registrations_subscribe, hw]
  · rw [live_unsubscribe _ hsub, registrations, registrations_unsubscribe, hw]
    by_cases hown : sub.eventType = eventType ∧ sub.handler = handler
    · obtain ⟨rfl, rfl⟩ := hown
      cases hdone : sub.unsubscribed with
      | false => simp [Subscription.isLive, hdone]
      | true =>
        -- a repeated call: nothing equal is live, so nothing is taken out
        have hnone : w.live sub.eventType sub.handler = 0 :=
          Nat.eq_zero_of_not_pos fun hpos => hc ⟨i, sub, rfl, hsub, hdone, hpos⟩
        rw [hnone, Nat.zero_sub, Nat.zero_sub]
    · have hnot : sub.isLive eventType handler = false := by
        simp only [Subscription.isLive, Bool.and_eq_false_iff, decide_eq_false_iff_not]
        tauto
      rw [if_neg hown, hnot]
      simp

/-- **A second call takes another subscription.** Where the subscriptions are independent,
a call that repeats leaves an equal handler registered once less than it has live
subscriptions. -/
theorem second_call_takes_another {c : BusCall H} (hw : w.Independent) (hc : w.Repeats c)
    (h : w.call c = some w') : ¬ w'.Independent := by
  obtain ⟨i, sub, rfl, hsub, hdone, hpos⟩ := hc
  obtain ⟨eventType, handler, heq, -⟩ | ⟨j, sub', heq, hsub', rfl⟩ := call_eq_some h
  · cases heq
  · obtain rfl : i = j := by simpa using heq
    obtain rfl : sub = sub' := by simpa [hsub] using hsub'
    intro hind
    have hcount := hind sub.eventType sub.handler
    rw [live_unsubscribe _ hsub, registrations, registrations_unsubscribe, hw,
      if_pos ⟨rfl, rfl⟩] at hcount
    simp only [Subscription.isLive, hdone] at hcount
    simp at hcount
    omega

/-- **Subscriptions are independent exactly while no call repeats.** Along a sequence of
calls every state reached is independent if and only if no call in it repeats the call of a
callable while an equal handler has a live subscription to the same event type. -/
theorem subscriptions_independent (calls : List (BusCall H)) :
    (∀ made w, made <+: calls → (machine H).Run made w → w.Independent) ↔
      ∀ made c w, made ++ [c] <+: calls → (machine H).Run made w → ¬ w.Repeats c := by
  constructor
  · intro hind made c w hpre hrun hrep
    have hw : w.Independent := hind made w ((List.prefix_append _ _).trans hpre) hrun
    obtain ⟨w', hcall⟩ := exists_call_of_repeats hrep
    exact second_call_takes_another hw hrep hcall (hind (made ++ [c]) w' hpre (.next hrun hcall))
  · intro hnot made w hpre hrun
    -- the invariant: a run along `calls` is independent
    have hinv : made <+: calls → w.Independent :=
      @Machine.Run.invariant _ _ _ (fun made w => made <+: calls → w.Independent)
        (fun w hw _ => hw ▸ independent_new)
        (fun made w c w' hrun ih hcall hpre =>
          (ih ((List.prefix_append _ _).trans hpre)).call (hnot made c w hpre hrun) hcall) _ _ hrun
    exact hinv hpre

/-- Two subscriptions of one handler, the first one's callable called twice: the handler is
registered no more, though the second subscription is live. -/
theorem second_call_silences : ¬ ∀ (calls : List (BusCall String)) (w : Wiring String),
    (machine String).Run calls w → w.Independent := by
  intro hall
  have hrun := Machine.run_ofPartial_iff.mpr (show
    [BusCall.subscribe "parse.error" "forward", .subscribe "parse.error" "forward", .unsubscribe 0,
      .unsubscribe 0].foldlM Wiring.call (new : Wiring String) = some _ from rfl)
  have hcount := hall _ _ hrun "parse.error" "forward"
  exact absurd hcount (by decide)

end Wiring

end Haute
