import Haute.Supersession.Permits
import Mathlib.Data.Finset.Card

/-!
# Who has a seat at a state object

A call has a seat at its key's state object from its registration to its end, and on until
its background future is cleared. `Registry` says what the state objects have to do with
the seats: the slot is taken by one call at most, a state object is kept while anyone has a
seat at it, and the newest generation is the one of the call registered last.
-/

namespace Haute

open Function (update update_self update_of_ne)

namespace Call

variable {K R : Type}

/-- The call has the slot of its state object. -/
def occupies (call : Call K R) : Bool :=
  (match call.phase with
    | .working => true
    | _ => false) || decide (call.background ≠ .none)

/-- The call has a seat at its state object. -/
def seated (call : Call K R) : Bool := call.inFlight || decide (call.background ≠ .none)

/-- The same seat, whatever else has changed. -/
structure SameSeat (new old : Call K R) : Prop where
  key : new.key = old.key
  state : new.state = old.state
  generation : new.generation = old.generation
  inFlight : new.inFlight = old.inFlight
  occupies : new.occupies = old.occupies
  seated : new.seated = old.seated

variable {call : Call K R}

theorem seated_of_inFlight (h : call.inFlight = true) : call.seated = true := by
  rw [seated, h, Bool.true_or]

theorem seated_of_occupies (h : call.occupies = true) : call.seated = true := by
  unfold occupies at h
  unfold seated inFlight
  rcases hphase : call.phase <;> simp_all

/-- A seat is a call's in flight, or a background future's, which has the slot. -/
theorem inFlight_or_occupies (h : call.seated = true) :
    call.inFlight = true ∨ call.occupies = true := by
  unfold seated at h
  unfold occupies
  rcases Bool.or_eq_true_iff.mp h with h | h
  · exact .inl h
  · exact .inr (by rw [h, Bool.or_true])

end Call

namespace Coordinator

variable {K R : Type} {x y : Coordinator K R} {c : ℕ} {call old : Call K R}

/-- What the state objects have to do with the calls. -/
structure Registry (x : Coordinator K R) : Prop where
  fresh : ∀ key sid, x.states key = some sid → sid < x.nextState
  /-- No two keys share a state object. -/
  keyed : ∀ key key' sid, x.states key = some sid → x.states key' = some sid → key = key'
  /-- A seat is at the state object that the dictionary has for the key. -/
  seated : ∀ c call, x.calls c = some call → call.seated = true →
    x.states call.key = some call.state
  occupied : ∀ c call, x.calls c = some call → call.occupies = true →
    (x.heap call.state).active = true
  /-- One call has the slot. -/
  alone : ∀ c d call other, x.calls c = some call → x.calls d = some other → call.occupies = true →
    other.occupies = true → call.state = other.state → c = d
  /-- The references are the calls in flight. -/
  referred : ∀ sid, ∃ members : Finset ℕ, members.card = (x.heap sid).references ∧
    ∀ c, c ∈ members ↔ ∃ call, x.calls c = some call ∧ call.state = sid ∧ call.inFlight = true
  newest : ∀ c call, x.calls c = some call → call.inFlight = true →
    call.generation ≤ (x.heap call.state).latestGeneration ∧
      (call.generation = (x.heap call.state).latestGeneration → x.latest call.key = some c)

namespace Registry

/-- A call that keeps its seat, and a coordinator that keeps its state objects. -/
theorem congr (h : x.Registry) (hcall : x.calls c = some old) (hseat : call.SameSeat old)
    (hcalls : y.calls = update x.calls c (some call)) (hstates : y.states = x.states)
    (hheap : y.heap = x.heap) (hnext : y.nextState = x.nextState) (hlatest : y.latest = x.latest) :
    y.Registry := by
  -- every call has a call with the same seat before
  have hback : ∀ d new, y.calls d = some new → ∃ was, x.calls d = some was ∧ new.SameSeat was := by
    intro d new hnew
    rw [hcalls] at hnew
    by_cases hd : d = c
    · subst hd
      rw [update_self] at hnew
      exact ⟨old, hcall, Option.some.inj hnew ▸ hseat⟩
    · rw [update_of_ne hd] at hnew
      exact ⟨new, hnew, rfl, rfl, rfl, rfl, rfl, rfl⟩
  refine ⟨?_, ?_, ?_, ?_, ?_, ?_, ?_⟩
  · rw [hstates, hnext]
    exact h.fresh
  · rw [hstates]
    exact h.keyed
  · intro d new hnew hseated
    obtain ⟨was, hwas, hsame⟩ := hback d new hnew
    rw [hstates, hsame.key, hsame.state]
    exact h.seated d was hwas (hsame.seated ▸ hseated)
  · intro d new hnew hoccupies
    obtain ⟨was, hwas, hsame⟩ := hback d new hnew
    rw [hheap, hsame.state]
    exact h.occupied d was hwas (hsame.occupies ▸ hoccupies)
  · intro d e new other hnew hother hoccupies hoccupies' hstate
    obtain ⟨was, hwas, hsame⟩ := hback d new hnew
    obtain ⟨was', hwas', hsame'⟩ := hback e other hother
    exact h.alone d e was was' hwas hwas' (hsame.occupies ▸ hoccupies)
      (hsame'.occupies ▸ hoccupies')
      (hsame.state.symm.trans (hstate.trans hsame'.state))
  · intro sid
    obtain ⟨members, hcard, hmem⟩ := h.referred sid
    refine ⟨members, hheap ▸ hcard, fun d => (hmem d).trans ?_⟩
    constructor
    · rintro ⟨was, hwas, hstate, hflight⟩
      by_cases hd : d = c
      · subst hd
        obtain rfl := Option.some.inj (hwas.symm.trans hcall)
        exact ⟨call, by
          rw [hcalls, update_self], hseat.state.trans hstate, hseat.inFlight.trans hflight⟩
      · exact ⟨was, by rw [hcalls, update_of_ne hd, hwas], hstate, hflight⟩
    · rintro ⟨new, hnew, hstate, hflight⟩
      obtain ⟨was, hwas, hsame⟩ := hback d new hnew
      exact ⟨was, hwas, hsame.state.symm.trans hstate, hsame.inFlight.symm.trans hflight⟩
  · intro d new hnew hflight
    obtain ⟨was, hwas, hsame⟩ := hback d new hnew
    rw [hheap, hsame.state, hsame.generation, hlatest, hsame.key]
    exact h.newest d was hwas (hsame.inFlight ▸ hflight)

/-- A call takes the slot of its state object. -/
theorem activates (h : x.Registry) (hcall : x.calls c = some old) (hflight : old.inFlight = true)
    (hkey : call.key = old.key) (hstate : call.state = old.state)
    (hgeneration : call.generation = old.generation)
    (hnew : call.inFlight = true) (hidle : (x.heap old.state).active = false)
    (hcalls : y.calls = update x.calls c (some call)) (hstates : y.states = x.states)
    {state : SupersessionState} (hheap : y.heap = update x.heap old.state state)
    (hactive : state.active = true) (hreferences : state.references = (x.heap old.state).references)
    (hlatestGeneration : state.latestGeneration = (x.heap old.state).latestGeneration)
    (hnext : y.nextState = x.nextState) (hlatest : y.latest = x.latest) : y.Registry := by
  have hfields (sid : ℕ) : (y.heap sid).references = (x.heap sid).references ∧
      (y.heap sid).latestGeneration = (x.heap sid).latestGeneration ∧
      ((x.heap sid).active = true → (y.heap sid).active = true) := by
    rw [hheap]
    by_cases hsid : sid = old.state
    · rw [hsid, update_self]
      exact ⟨hreferences, hlatestGeneration, fun _ => hactive⟩
    · rw [update_of_ne hsid]
      exact ⟨rfl, rfl, id⟩
  -- nobody has the slot yet
  have hvacant : ∀ d other, d ≠ c → y.calls d = some other → other.occupies = true →
      other.state ≠ call.state := by
    intro d other hd hother hoccupies heq
    rw [hcalls, update_of_ne hd] at hother
    have hbusy := h.occupied d other hother hoccupies
    rw [heq, hstate, hidle] at hbusy
    cases hbusy
  have hget : ∀ d new, y.calls d = some new → d = c ∧ new = call ∨ d ≠ c ∧
      x.calls d = some new := by
    intro d new hnew
    rw [hcalls] at hnew
    by_cases hd : d = c
    · rw [hd, update_self] at hnew
      exact .inl ⟨hd, (Option.some.inj hnew).symm⟩
    · rw [update_of_ne hd] at hnew
      exact .inr ⟨hd, hnew⟩
  refine ⟨?_, ?_, ?_, ?_, ?_, ?_, ?_⟩
  · rw [hstates, hnext]
    exact h.fresh
  · rw [hstates]
    exact h.keyed
  · intro d new hnew hseated
    rw [hstates]
    rcases hget d new hnew with ⟨-, rfl⟩ | ⟨-, hwas⟩
    · rw [hkey, hstate]
      exact h.seated c old hcall (Call.seated_of_inFlight hflight)
    · exact h.seated d new hwas hseated
  · intro d new hnew hoccupies
    rcases hget d new hnew with ⟨-, rfl⟩ | ⟨-, hwas⟩
    · rw [hheap, hstate, update_self]
      exact hactive
    · exact (hfields _).2.2 (h.occupied d new hwas hoccupies)
  · intro d e new other hd he hoccupies hoccupies' hsame
    rcases hget d new hd with ⟨hdc, hnew'⟩ | ⟨hdc, hwas⟩ <;>
      rcases hget e other he with ⟨hec, hother'⟩ | ⟨hec, hwas'⟩
    · rw [hdc, hec]
    · exact absurd (hsame.symm.trans (congrArg Call.state hnew'))
        (hvacant e other hec he hoccupies')
    · exact absurd (hsame.trans (congrArg Call.state hother')) (hvacant d new hdc hd hoccupies)
    · exact h.alone d e new other hwas hwas' hoccupies hoccupies' hsame
  · intro sid
    obtain ⟨members, hcard, hmem⟩ := h.referred sid
    refine ⟨members, hcard.trans (hfields sid).1.symm, fun d => (hmem d).trans ?_⟩
    by_cases hd : d = c
    · subst hd
      rw [hcalls, update_self]
      constructor
      · rintro ⟨was, hwas, hsid, -⟩
        obtain rfl := Option.some.inj (hwas.symm.trans hcall)
        exact ⟨call, rfl, hstate.trans hsid, hnew⟩
      · rintro ⟨new, hnew', hsid, -⟩
        obtain rfl := Option.some.inj hnew'
        exact ⟨old, hcall, hstate.symm.trans hsid, hflight⟩
    · rw [hcalls, update_of_ne hd]
  · intro d new hnew' hflight'
    rw [(hfields _).2.1, hlatest]
    rcases hget d new hnew' with ⟨hd, rfl⟩ | ⟨-, hwas⟩
    · rw [hd, hkey, hstate, hgeneration]
      exact h.newest c old hcall hflight
    · exact h.newest d new hwas hflight'

/-- A call gives up its seat, or its slot: it ends, or its background future is cleared. A
state object that nobody refers to may leave the dictionary. -/
theorem leaves [DecidableEq K] (h : x.Registry) (hcall : x.calls c = some old)
    (hold : old.seated = true) (hkey : call.key = old.key)
    (hstate : call.state = old.state) (hended : call.inFlight = false)
    (hslot : call.seated = call.occupies) (hcalls : y.calls = update x.calls c (some call))
    {state : SupersessionState} (hheap : y.heap = update x.heap old.state state)
    (hgeneration : state.latestGeneration = (x.heap old.state).latestGeneration)
    (hreferences : state.references + (if old.inFlight then 1 else 0) =
      (x.heap old.state).references)
    (hactive : state.active = (x.heap old.state).active ∧
      (call.occupies = true → old.occupies = true) ∨
      state.active = false ∧ old.occupies = true ∧ call.occupies = false)
    (hstates : y.states = x.states ∨ state.references = 0 ∧ state.active = false ∧
      y.states = update x.states old.key none)
    (hnext : y.nextState = x.nextState) (hlatest : y.latest = x.latest) : y.Registry := by
  have hget : ∀ d new, y.calls d = some new → d = c ∧ new = call ∨ d ≠ c ∧
      x.calls d = some new := by
    intro d new hnew
    rw [hcalls] at hnew
    by_cases hd : d = c
    · rw [hd, update_self] at hnew
      exact .inl ⟨hd, (Option.some.inj hnew).symm⟩
    · rw [update_of_ne hd] at hnew
      exact .inr ⟨hd, hnew⟩
  -- the others with a seat here have the slot, or keep the object referred to
  have hkept : ∀ d other, d ≠ c → x.calls d = some other → other.occupies = true →
      other.state = old.state → state.active = true := by
    intro d other hd hother hoccupies heq
    rcases hactive with ⟨hsame, -⟩ | ⟨-, hold, -⟩
    · rw [hsame, ← heq]
      exact h.occupied d other hother hoccupies
    · exact absurd (h.alone d c other old hother hcall hoccupies hold heq) hd
  have hreferred : ∀ d other, d ≠ c → x.calls d = some other → other.inFlight = true →
      other.state = old.state → 0 < state.references := by
    intro d other hd hother hflight heq
    obtain ⟨members, hcard, hmem⟩ := h.referred old.state
    have hdmem : d ∈ members := (hmem d).mpr ⟨other, hother, heq, hflight⟩
    split_ifs at hreferences with hold
    · have hcmem : c ∈ members := (hmem c).mpr ⟨old, hcall, rfl, hold⟩
      have htwo : 1 < members.card := Finset.one_lt_card.mpr ⟨d, hdmem, c, hcmem, hd⟩
      omega
    · have hone : 0 < members.card := Finset.card_pos.mpr ⟨d, hdmem⟩
      omega
  have hsub : ∀ key sid, y.states key = some sid → x.states key = some sid := by
    intro key sid hsid
    rcases hstates with heq | ⟨-, -, heq⟩
    · rwa [heq] at hsid
    · rw [heq] at hsid
      by_cases hk : key = old.key
      · rw [hk, update_self] at hsid
        cases hsid
      · rwa [update_of_ne hk] at hsid
  -- nobody who keeps a seat loses the state object
  have hseats : ∀ d new, y.calls d = some new → new.seated = true → y.states new.key =
      x.states new.key := by
    intro d new hnew hseated
    rcases hstates with heq | ⟨hzero, hidle, heq⟩
    · rw [heq]
    · rw [heq]
      refine update_of_ne (fun hk => ?_) _ _
      rcases hget d new hnew with ⟨hd, rfl⟩ | ⟨hd, hwas⟩
      · rw [hslot] at hseated
        rcases hactive with ⟨hsame, hold⟩ | ⟨-, -, hnot⟩
        · rw [hsame, h.occupied c old hcall (hold hseated)] at hidle
          cases hidle
        · rw [hnot] at hseated
          cases hseated
      · have hat := h.seated d new hwas hseated
        rw [hk] at hat
        have heq : new.state = old.state :=
          Option.some.inj (hat.symm.trans (h.seated c old hcall hold))
        rcases Call.inFlight_or_occupies hseated with hflight | hoccupies
        · have hpos := hreferred d new hd hwas hflight heq
          omega
        · rw [hkept d new hd hwas hoccupies heq] at hidle
          cases hidle
  refine ⟨fun key sid hsid => hnext ▸ h.fresh key sid (hsub key sid hsid),
    fun key key' sid hsid hsid' => h.keyed key key' sid (hsub key sid hsid) (hsub key' sid hsid'),
    ?_, ?_, ?_, ?_, ?_⟩
  · intro d new hnew hseated
    rw [hseats d new hnew hseated]
    rcases hget d new hnew with ⟨-, rfl⟩ | ⟨-, hwas⟩
    · rw [hkey, hstate]
      exact h.seated c old hcall hold
    · exact h.seated d new hwas hseated
  · intro d new hnew hoccupies
    rw [hheap]
    rcases hget d new hnew with ⟨-, rfl⟩ | ⟨hd, hwas⟩
    · rw [hstate, update_self]
      rcases hactive with ⟨hsame, hbefore⟩ | ⟨-, -, hnot⟩
      · rw [hsame]
        exact h.occupied c old hcall (hbefore hoccupies)
      · rw [hnot] at hoccupies
        cases hoccupies
    · by_cases hsid : new.state = old.state
      · rw [hsid, update_self]
        exact hkept d new hd hwas hoccupies hsid
      · rw [update_of_ne hsid]
        exact h.occupied d new hwas hoccupies
  · have hslots : ∀ d new, y.calls d = some new → new.occupies = true →
        ∃ was, x.calls d = some was ∧ was.occupies = true ∧ was.state = new.state := by
      intro d new hnew hoccupies
      rcases hget d new hnew with ⟨rfl, rfl⟩ | ⟨-, hwas⟩
      · rcases hactive with ⟨-, hbefore⟩ | ⟨-, -, hnot⟩
        · exact ⟨old, hcall, hbefore hoccupies, hstate.symm⟩
        · rw [hnot] at hoccupies
          cases hoccupies
      · exact ⟨new, hwas, hoccupies, rfl⟩
    intro d e new other hd he hoccupies hoccupies' hsame
    obtain ⟨was, hwas, h1, h2⟩ := hslots d new hd hoccupies
    obtain ⟨was', hwas', h3, h4⟩ := hslots e other he hoccupies'
    exact h.alone d e was was' hwas hwas' h1 h3 (h2.trans (hsame.trans h4.symm))
  · intro sid
    obtain ⟨members, hcard, hmem⟩ := h.referred sid
    refine ⟨members.erase c, ?_, fun d => ?_⟩
    · by_cases hsid : sid = old.state
      · rw [hheap, hsid, update_self]
        rw [hsid] at hcard hmem
        split_ifs at hreferences with hflight
        · have hcmem : c ∈ members := (hmem c).mpr ⟨old, hcall, rfl, hflight⟩
          rw [Finset.card_erase_of_mem hcmem]
          omega
        · have hcmem : c ∉ members := fun hcmem => by
            obtain ⟨was, hwas, -, hf⟩ := (hmem c).mp hcmem
            obtain rfl := Option.some.inj (hwas.symm.trans hcall)
            exact hflight hf
          rw [Finset.erase_eq_of_notMem hcmem]
          omega
      · have hcmem : c ∉ members := fun hcmem => by
          obtain ⟨was, hwas, hat, -⟩ := (hmem c).mp hcmem
          obtain rfl := Option.some.inj (hwas.symm.trans hcall)
          exact hsid hat.symm
        rw [Finset.erase_eq_of_notMem hcmem, hheap, update_of_ne hsid, hcard]
    · rw [Finset.mem_erase, hcalls, hmem]
      by_cases hd : d = c
      · rw [hd, update_self]
        refine ⟨fun hand => absurd rfl hand.1, ?_⟩
        rintro ⟨new, hnew, -, hflight⟩
        obtain rfl := Option.some.inj hnew
        rw [hended] at hflight
        cases hflight
      · rw [update_of_ne hd]
        exact ⟨And.right, fun hex => ⟨hd, hex⟩⟩
  · intro d new hnew hflight
    rcases hget d new hnew with ⟨-, rfl⟩ | ⟨-, hwas⟩
    · rw [hended] at hflight
      cases hflight
    · rw [hheap, hlatest]
      by_cases hsid : new.state = old.state
      · rw [hsid, update_self, hgeneration, ← hsid]
        exact h.newest d new hwas hflight
      · rw [update_of_ne hsid]
        exact h.newest d new hwas hflight

/-- A call gets a seat, and the newest generation. -/
theorem enters [DecidableEq K] (h : x.Registry) (hnone : x.calls c = none)
    (hflight : call.inFlight = true)
    (hidle : call.occupies = false) (hcalls : y.calls = update x.calls c (some call))
    {state : SupersessionState} (hself : y.states call.key = some call.state)
    (hothers : ∀ key, key ≠ call.key → y.states key = x.states key)
    (hbefore : x.states call.key = some call.state ∧ state.active = (x.heap call.state).active ∧
        state.references = (x.heap call.state).references + 1 ∧
        (x.heap call.state).latestGeneration < state.latestGeneration ∨
      x.states call.key = none ∧ call.state = x.nextState ∧ state.references = 1)
    (hheap : y.heap = update x.heap call.state state)
    (hgeneration : call.generation = state.latestGeneration)
    (hnext : x.nextState ≤ y.nextState ∧ call.state < y.nextState)
    (hlatest : y.latest = update x.latest call.key (some c)) : y.Registry := by
  -- who has a seat at the state object has it for the key
  have hseat : ∀ d other, x.calls d = some other → other.seated = true → other.state = call.state →
      other.key = call.key ∧ x.states call.key = some call.state := by
    intro d other hother hseated heq
    have hat := h.seated d other hother hseated
    rw [heq] at hat
    rcases hbefore with ⟨hold, -⟩ | ⟨-, hnew, -⟩
    · exact ⟨h.keyed _ _ _ hat hold, hold⟩
    · exact absurd (h.fresh _ _ hat) (by omega)
  have hkeys : ∀ d other, x.calls d = some other → other.seated = true → other.key = call.key →
      other.state = call.state := by
    intro d other hother hseated heq
    have hat := h.seated d other hother hseated
    rw [heq] at hat
    rcases hbefore with ⟨hold, -⟩ | ⟨hold, -⟩
    · exact Option.some.inj (hat.symm.trans hold)
    · rw [hold] at hat
      cases hat
  have hget : ∀ d new, y.calls d = some new → d = c ∧ new = call ∨ d ≠ c ∧
      x.calls d = some new := by
    intro d new hnew
    rw [hcalls] at hnew
    by_cases hd : d = c
    · rw [hd, update_self] at hnew
      exact .inl ⟨hd, (Option.some.inj hnew).symm⟩
    · rw [update_of_ne hd] at hnew
      exact .inr ⟨hd, hnew⟩
  have hstates : ∀ key sid, y.states key = some sid → key = call.key ∧ sid = call.state ∨
      key ≠ call.key ∧ sid ≠ call.state ∧ x.states key = some sid := by
    intro key sid hsid
    by_cases hk : key = call.key
    · rw [hk, hself] at hsid
      exact .inl ⟨hk, (Option.some.inj hsid).symm⟩
    · rw [hothers key hk] at hsid
      refine .inr ⟨hk, fun heq => ?_, hsid⟩
      rcases hbefore with ⟨hold, -⟩ | ⟨-, hnew, -⟩
      · exact hk (h.keyed _ _ _ hsid (heq ▸ hold))
      · have hlt := h.fresh _ _ hsid
        omega
  refine ⟨?_, ?_, ?_, ?_, ?_, ?_, ?_⟩
  · intro key sid hsid
    rcases hstates key sid hsid with ⟨-, rfl⟩ | ⟨-, -, hwas⟩
    · exact hnext.2
    · exact Nat.lt_of_lt_of_le (h.fresh key sid hwas) hnext.1
  · intro key key' sid hsid hsid'
    rcases hstates key sid hsid with ⟨hk, heq⟩ | ⟨-, hne, hwas⟩ <;>
      rcases hstates key' sid hsid' with ⟨hk', heq'⟩ | ⟨-, hne', hwas'⟩
    · rw [hk, hk']
    · exact absurd heq hne'
    · exact absurd heq' hne
    · exact h.keyed key key' sid hwas hwas'
  · intro d new hnew hseated
    rcases hget d new hnew with ⟨-, rfl⟩ | ⟨-, hwas⟩
    · exact hself
    · by_cases hk : new.key = call.key
      · rw [hk, hkeys d new hwas hseated hk]
        exact hself
      · rw [hothers _ hk]
        exact h.seated d new hwas hseated
  · intro d new hnew hoccupies
    rcases hget d new hnew with ⟨-, rfl⟩ | ⟨-, hwas⟩
    · rw [hidle] at hoccupies
      cases hoccupies
    · have hbusy := h.occupied d new hwas hoccupies
      rw [hheap]
      by_cases hsid : new.state = call.state
      · obtain ⟨-, hold⟩ := hseat d new hwas (Call.seated_of_occupies hoccupies) hsid
        rw [hsid, update_self]
        rcases hbefore with ⟨-, hactive, -⟩ | ⟨hnot, -⟩
        · rw [hactive, ← hsid]
          exact hbusy
        · rw [hold] at hnot
          cases hnot
      · rw [update_of_ne hsid]
        exact hbusy
  · intro d e new other hd he hoccupies hoccupies' hsame
    rcases hget d new hd with ⟨-, rfl⟩ | ⟨-, hwas⟩
    · rw [hidle] at hoccupies
      cases hoccupies
    rcases hget e other he with ⟨-, rfl⟩ | ⟨-, hwas'⟩
    · rw [hidle] at hoccupies'
      cases hoccupies'
    exact h.alone d e new other hwas hwas' hoccupies hoccupies' hsame
  · intro sid
    obtain ⟨members, hcard, hmem⟩ := h.referred sid
    by_cases hsid : sid = call.state
    · subst hsid
      have hc : c ∉ members := fun hc => by
        obtain ⟨other, hother, -⟩ := (hmem c).mp hc
        rw [hnone] at hother
        cases hother
      have hmembers : members.card + 1 = state.references := by
        rcases hbefore with ⟨-, -, hreferences, -⟩ | ⟨hnot, -, hreferences⟩
        · rw [hcard, hreferences]
        · have hempty : members = ∅ := by
            refine Finset.eq_empty_of_forall_notMem fun d hd => ?_
            obtain ⟨other, hother, hsid, hflight⟩ := (hmem d).mp hd
            obtain ⟨-, hold⟩ := hseat d other hother (Call.seated_of_inFlight hflight) hsid
            rw [hold] at hnot
            cases hnot
          rw [hempty, hreferences, Finset.card_empty]
      refine ⟨insert c members, ?_, fun d => ?_⟩
      · rw [Finset.card_insert_of_notMem hc, hmembers, hheap, update_self]
      · rw [Finset.mem_insert, hcalls]
        by_cases hd : d = c
        · rw [hd, update_self]
          exact ⟨fun _ => ⟨call, rfl, rfl, hflight⟩, fun _ => .inl rfl⟩
        · rw [update_of_ne hd, hmem]
          exact ⟨fun hor => hor.resolve_left hd, .inr⟩
    · refine ⟨members, ?_, fun d => (hmem d).trans ?_⟩
      · rw [hheap, update_of_ne hsid, hcard]
      · rw [hcalls]
        by_cases hd : d = c
        · rw [hd, update_self, hnone]
          constructor
          · rintro ⟨_, heq, -⟩
            cases heq
          · rintro ⟨new, hnew, hat, -⟩
            exact absurd (hat.symm.trans (congrArg Call.state (Option.some.inj hnew).symm)) hsid
        · rw [update_of_ne hd]
  · intro d new hnew hflight'
    rcases hget d new hnew with ⟨hd, rfl⟩ | ⟨hd, hwas⟩
    · rw [hheap, update_self, hlatest, update_self, hd]
      exact ⟨hgeneration.le, fun _ => rfl⟩
    · obtain ⟨hle, hlast⟩ := h.newest d new hwas hflight'
      have hseated := Call.seated_of_inFlight hflight'
      by_cases hsid : new.state = call.state
      · obtain ⟨-, hold⟩ := hseat d new hwas hseated hsid
        rw [hheap, hsid, update_self]
        rw [hsid] at hle
        rcases hbefore with ⟨-, -, -, hlt⟩ | ⟨hnot, -⟩
        · exact ⟨by omega, fun heq => by omega⟩
        · rw [hold] at hnot
          cases hnot
      · rw [hheap, update_of_ne hsid, hlatest,
          update_of_ne fun hk => hsid (hkeys d new hwas hseated hk)]
        exact ⟨hle, hlast⟩

/-- A call in flight is one of the references. -/
theorem references_pos (h : x.Registry) (hcall : x.calls c = some call)
    (hflight : call.inFlight = true) :
    0 < (x.heap call.state).references := by
  obtain ⟨members, hcard, hmem⟩ := h.referred call.state
  rw [← hcard]
  exact Finset.card_pos.mpr ⟨c, (hmem c).mpr ⟨call, hcall, rfl, hflight⟩⟩

end Registry

/-! ### Every step -/

variable [DecidableEq K]

theorem prune_states (x : Coordinator K R) (key : K) (sid : ℕ) :
    (x.prune key sid).states = x.states ∨
    (x.heap sid).references = 0 ∧ (x.heap sid).active = false ∧
      (x.prune key sid).states = update x.states key none := by
  unfold prune
  split_ifs with hcond
  · exact .inr ⟨hcond.1, hcond.2.1, rfl⟩
  · exact .inl rfl

/-- What a call's end does to the state objects. -/
theorem finish_fields (x : Coordinator K R) (c : ℕ) (call : Call K R) (outcome : Except CallError R)
    (release : Bool) :
    (x.finish c call outcome release).heap = update x.heap call.state
        { x.heap call.state with references := (x.heap call.state).references - 1 } ∧
      ((x.finish c call outcome release).states = x.states ∨
        (x.heap call.state).references - 1 = 0 ∧ (x.heap call.state).active = false ∧
          (x.finish c call outcome release).states = update x.states call.key none) ∧
      (x.finish c call outcome release).nextState = x.nextState ∧
      (x.finish c call outcome release).latest = x.latest := by
  obtain ⟨-, -, hheap, hstates, hnext, hlatest⟩ :=
    releasePermit_frame x c (if release then call.limiter else none)
  have hprune := prune_frame ((x.releasePermit c (if release then call.limiter else none)).setState
    call.state { x.heap call.state with references := (x.heap call.state).references - 1 })
      call.key call.state
  have hpruned :=
    prune_states ((x.releasePermit c (if release then call.limiter else none)).setState
    call.state { x.heap call.state with references := (x.heap call.state).references - 1 })
      call.key call.state
  have hself : ((x.releasePermit c (if release then call.limiter else none)).setState call.state
      { x.heap call.state with references := (x.heap call.state).references - 1 }).heap call.state =
        { x.heap call.state with references := (x.heap call.state).references - 1 } :=
          update_self _ _ _
  unfold finish releaseState
  rw [hheap]
  refine ⟨hprune.2.2.2.1.trans ?_, ?_, hprune.2.2.2.2.1.trans hnext, hprune.2.2.2.2.2.trans hlatest⟩
  · exact congrArg (update · call.state _) hheap
  · rcases hpruned with heq | ⟨hzero, hidle, heq⟩
    · exact .inl (heq.trans hstates)
    · rw [hself] at hzero hidle
      exact .inr
        ⟨hzero, hidle,
        heq.trans (congrArg (fun states : K → Option ℕ => update states call.key none) hstates)⟩

/-- A call ends, and leaves its slot, if it has it, to its background future. -/
theorem registry_finish (h : x.Registry) (hcall : x.calls c = some old)
    (hflight : old.inFlight = true)
    (hkey : call.key = old.key) (hstate : call.state = old.state)
    (hslot : call.background ≠ .none → old.occupies = true) (outcome : Except CallError R)
    (release : Bool) :
    (x.finish c call outcome release).Registry := by
  obtain ⟨hheap, hstates, hnext, hlatest⟩ := finish_fields x c call outcome release
  have hpos := h.references_pos hcall hflight
  rw [hstate] at hheap hstates
  rw [hkey] at hstates
  refine @Registry.leaves _ _ _ _ c { call with phase := .ended outcome } old _ h hcall
    (Call.seated_of_inFlight hflight) hkey hstate rfl rfl (calls_finish x c call outcome release) _
      hheap rfl ?_ (.inl ⟨rfl, fun hoccupies => ?_⟩) hstates hnext hlatest
  · rw [if_pos hflight]
    exact Nat.sub_add_cancel hpos
  · exact hslot (of_decide_eq_true ((Bool.false_or _).symm.trans hoccupies))

/-- A call that has the slot ends, and gives it up. -/
theorem registry_finish_cleared (h : x.Registry) (hcall : x.calls c = some call)
    (hphase : call.phase = .working) (hbackground : call.background = .none)
    (outcome : Except CallError R) (release : Bool) :
    ((x.clearActive call).finish c call outcome release).Registry := by
  obtain ⟨hheap, hstates, hnext, hlatest⟩ :=
    finish_fields (x.clearActive call) c call outcome release
  have hflight : call.inFlight = true := inFlight_of_phase hphase fun _ h => by cases h
  have hoccupies : call.occupies = true := by
    unfold Call.occupies
    rw [hphase]
    rfl
  have hpos := h.references_pos hcall hflight
  have hself : (x.clearActive call).heap call.state = { x.heap call.state with
      active := false
      activeCancel := if (x.heap call.state).activeCancel = call.cancelActive then none
        else (x.heap call.state).activeCancel } := update_self _ _ _
  rw [hself] at hheap hstates
  refine @Registry.leaves _ _ _ _ c { call with phase := .ended outcome } call _ h hcall
    (Call.seated_of_inFlight hflight) rfl rfl rfl rfl
    (calls_finish (x.clearActive call) c call outcome release) _
      (hheap.trans (Function.update_idem _ _ _)) rfl ?_ (.inr ⟨rfl, hoccupies, ?_⟩)
      hstates hnext hlatest
  · rw [if_pos hflight]
    exact Nat.sub_add_cancel hpos
  · change (false || decide (call.background ≠ .none)) = false
    rw [hbackground]
    rfl

omit [DecidableEq K] in
/-- A call without the slot. -/
theorem occupies_eq_false (hphase : call.phase ≠ .working) (hbackground : call.background = .none) :
    call.occupies = false := by
  unfold Call.occupies
  rw [hbackground]
  split
  · contradiction
  · rfl

omit [DecidableEq K] in
/-- A call that keeps its seat. -/
theorem registry_setCall (h : x.Registry) (hcall : x.calls c = some old)
    (hseat : call.SameSeat old) :
    (x.setCall c call).Registry := h.congr hcall hseat rfl rfl rfl rfl rfl

omit [DecidableEq K] in
/-- A call that is suspended before and after. -/
theorem registry_suspended (h : x.Registry) (hcall : x.calls c = some old)
    (hflight : old.inFlight = true)
    (hphase : old.phase ≠ .working) (hbackground : old.background = .none)
    (hkey : call.key = old.key) (hstate : call.state = old.state)
    (hgeneration : call.generation = old.generation)
    (hflight' : call.inFlight = true) (hphase' : call.phase ≠ .working)
    (hbackground' : call.background = .none) : (x.setCall c call).Registry := by
  refine h.congr hcall ⟨hkey, hstate, hgeneration, hflight'.trans hflight.symm, ?_, ?_⟩
    rfl rfl rfl rfl rfl
  · rw [occupies_eq_false hphase hbackground, occupies_eq_false hphase' hbackground']
  · rw [Call.seated_of_inFlight hflight, Call.seated_of_inFlight hflight']

theorem registry_enterActive (h : x.Registry) (hcall : x.calls c = some call)
    (hflight : call.inFlight = true)
    (hphase : call.phase ≠ .working) (hbackground : call.background = .none) :
    (x.enterActive c call).Registry := by
  unfold enterActive
  split_ifs with hsuperseded hactive
  · exact registry_finish h hcall hflight rfl rfl (fun hne => absurd hbackground hne) _ _
  · exact registry_suspended h hcall hflight hphase hbackground rfl rfl rfl rfl nofun hbackground
  · exact @Registry.activates _ _ _ _ c { call with phase := .working } call h hcall
      hflight rfl rfl rfl rfl
      (Bool.eq_false_iff.mpr hactive) rfl rfl _ rfl rfl rfl rfl rfl rfl

theorem registry_enterLimiter (h : x.Registry) (hcall : x.calls c = some call)
    (hflight : call.inFlight = true)
    (hphase : call.phase ≠ .working) (hbackground : call.background = .none) :
    (x.enterLimiter c call).Registry := by
  unfold enterLimiter
  split_ifs with hsuperseded hactive
  · exact registry_finish h hcall hflight rfl rfl (fun hne => absurd hbackground hne) _ _
  · exact registry_suspended h hcall hflight hphase hbackground rfl rfl rfl rfl nofun hbackground
  · split
    · exact registry_enterActive h hcall hflight hphase hbackground
    · exact registry_suspended h hcall hflight hphase hbackground rfl rfl rfl rfl nofun hbackground

theorem retainState_of_some {key : K} {sid : ℕ} (h : x.states key = some sid) : x.retainState key =
    (sid, x.setState sid { x.heap sid with references := (x.heap sid).references + 1 }) := by
  unfold retainState
  rw [h]

theorem retainState_of_none {key : K} (h : x.states key = none) : x.retainState key = (x.nextState,
    { x with
      states := update x.states key (some x.nextState)
      heap := update x.heap x.nextState { SupersessionState.new with references := 1 }
      nextState := x.nextState + 1 }) := by
  unfold retainState
  rw [h]

/-- A call is registered. -/
theorem registry_start (h : x.Registry) {key : K} {limiter cancelActive : Option ℕ}
    (hcall : x.calls c = none) : (x.start c key limiter cancelActive).Registry := by
  rcases hstates : x.states key with _ | sid
  · simp only [start, retainState_of_none hstates]
    refine registry_enterLimiter ?_ (update_self _ _ _) rfl nofun rfl
    refine h.enters hcall rfl rfl rfl (update_self _ _ _) (fun key' hk => update_of_ne hk _ _)
      (.inr ⟨hstates, rfl, ?_⟩) (Function.update_idem _ _ _) ?_
        ⟨Nat.le_succ _, Nat.lt_succ_self _⟩ rfl
    · have hself : update x.heap x.nextState { SupersessionState.new with references :=
        1 } x.nextState =
          { SupersessionState.new with references := 1 } := update_self _ _ _
      have hreferences := congrArg SupersessionState.references hself
      exact hreferences
    · exact congrArg SupersessionState.latestGeneration (update_self _ _ _)
  · simp only [start, retainState_of_some hstates]
    refine registry_enterLimiter ?_ (update_self _ _ _) rfl nofun rfl
    have hself :
        (x.setState sid { x.heap sid with references := (x.heap sid).references + 1 }).heap sid =
        { x.heap sid with references := (x.heap sid).references + 1 } := update_self _ _ _
    refine h.enters hcall rfl rfl rfl hstates (fun _ _ => rfl)
      (.inl ⟨hstates, ?_, ?_, ?_⟩) (Function.update_idem _ _ _) ?_
        ⟨le_rfl, h.fresh key sid hstates⟩ rfl
    · have hactive := congrArg SupersessionState.active hself
      exact hactive
    · have hreferences := congrArg SupersessionState.references hself
      exact hreferences
    · change _ < SupersessionState.latestGeneration _ + 1
      rw [hself]
      exact Nat.lt_succ_self _
    · exact congrArg SupersessionState.latestGeneration (update_self _ _ _)

/-- A call goes on. -/
theorem registry_resume (h : x.Registry) (hok : call.Ok) (hcall : x.calls c = some call)
    (hstep : x.resume c call = some y) : y.Registry := by
  unfold resume at hstep
  split at hstep
  case h_1 heq =>
    have hflight := inFlight_of_phase heq fun _ h => by cases h
    cases hstep
    exact registry_enterLimiter h hcall hflight (by rw [heq]; nofun) (hok.background hflight)
  case h_2 heq =>
    have hflight := inFlight_of_phase heq fun _ h => by cases h
    have hbackground := hok.background hflight
    split_ifs at hstep <;> cases hstep <;>
    exact registry_suspended h hcall hflight (by rw [heq]; nofun) hbackground rfl rfl rfl rfl
      nofun hbackground
  case h_3 heq =>
    have hflight := inFlight_of_phase heq fun _ h => by cases h
    split_ifs at hstep
    cases hstep
    exact registry_enterActive h hcall hflight (by rw [heq]; nofun) (hok.background hflight)
  case h_4 heq =>
    have hflight := inFlight_of_phase heq fun _ h => by cases h
    have hbackground := hok.background hflight
    split_ifs at hstep
    cases hstep
    exact registry_suspended h hcall hflight (by rw [heq]; nofun) hbackground rfl rfl rfl rfl
      nofun hbackground
  case h_5 heq =>
    have hflight := inFlight_of_phase heq fun _ h => by cases h
    split_ifs at hstep
    cases hstep
    exact registry_finish h hcall hflight rfl rfl
      (fun hne => absurd (hok.background hflight) hne) _ _
  case h_6 heq =>
    have hflight := inFlight_of_phase heq fun _ h => by cases h
    cases hstep
    exact registry_enterActive h hcall hflight (by rw [heq]; nofun) (hok.background hflight)
  case h_7 => cases hstep
  case h_8 => cases hstep

/-- A call is cancelled. -/
theorem registry_cancel (h : x.Registry) (hok : call.Ok) (hcall : x.calls c = some call)
    (hstep : x.cancel c call = some y) : y.Registry := by
  have hfinish (hflight : call.inFlight = true) (release : Bool) :
      (x.finish c call (.error .cancelled) release).Registry :=
    registry_finish h hcall hflight rfl rfl (fun hne => absurd (hok.background hflight) hne) _ _
  unfold cancel at hstep
  -- a cancelled call ends, unless it waits on its permit, which it then drains
  split at hstep
  case h_1 heq =>
    cases hstep
    exact hfinish (inFlight_of_phase heq fun _ h => by cases h) _
  case h_2 heq =>
    have hflight := inFlight_of_phase heq fun _ h => by cases h
    have hbackground := hok.background hflight
    cases hstep
    exact registry_suspended h hcall hflight (by rw [heq]; nofun) hbackground rfl rfl rfl rfl
      nofun hbackground
  case h_3 heq =>
    have hflight := inFlight_of_phase heq fun _ h => by cases h
    have hbackground := hok.background hflight
    split_ifs at hstep
    cases hstep
    exact registry_suspended h hcall hflight (by rw [heq]; nofun) hbackground rfl rfl rfl rfl
      nofun hbackground
  case h_4 heq =>
    split_ifs at hstep
    cases hstep
    exact hfinish (inFlight_of_phase heq fun _ h => by cases h) _
  case h_5 heq =>
    split_ifs at hstep
    cases hstep
    exact hfinish (inFlight_of_phase heq fun _ h => by cases h) _
  case h_6 heq =>
    cases hstep
    exact hfinish (inFlight_of_phase heq fun _ h => by cases h) _
  case h_7 heq =>
    cases hstep
    exact registry_finish_cleared h hcall heq
      (hok.background (inFlight_of_phase heq fun _ h => by cases h)) _ _
  case h_8 => cases hstep

/-- A background future's slot is cleared. -/
theorem registry_clear (h : x.Registry) (hok : call.Ok) (hcall : x.calls c = some call)
    (hclearing : call.background = .clearing) :
    (((x.clearActive call).prune call.key call.state).setCall c
      { call with background := .none }).Registry := by
  have hne : call.background ≠ .none := by
    rw [hclearing]
    decide
  have hended := inFlight_of_background hok hne
  have hoccupies : call.occupies = true := by
    unfold Call.occupies
    rw [decide_eq_true hne, Bool.or_true]
  have hfree : ({ call with background := .none } : Call K R).occupies = false := by
    refine occupies_eq_false (fun hworking => ?_) rfl
    have hflight : call.inFlight = true := inFlight_of_phase hworking fun _ h => by cases h
    rw [hended] at hflight
    cases hflight
  have hself : (x.clearActive call).heap call.state = { x.heap call.state with
      active := false
      activeCancel := if (x.heap call.state).activeCancel = call.cancelActive then none
        else (x.heap call.state).activeCancel } := update_self _ _ _
  obtain ⟨hcalls, -, -, hheap, hnext, hlatest⟩ :=
    prune_frame (x.clearActive call) call.key call.state
  have hstates := prune_states (x.clearActive call) call.key call.state
  rw [hself] at hstates
  refine @Registry.leaves _ _ _ _ c { call with background := .none } call _ h hcall
    (Call.seated_of_occupies hoccupies) rfl rfl hended ?_
      (congrArg (update · c _) hcalls) _ hheap rfl ?_
      (.inr ⟨rfl, hoccupies, hfree⟩) hstates hnext hlatest
  · rw [hfree]
    change (call.inFlight || false) = false
    rw [hended]
    rfl
  · rw [hended]
    rfl

/-- **Every step keeps the seats.** -/
theorem registry_step (h : x.Registry) (haccounts : x.Accounts) {e : CoordinatorEvent K R}
    (hstep : x.step e = some y) : y.Registry := by
  cases e
  case start c key limiter cancelActive =>
    simp only [step] at hstep
    split at hstep
    next hnone =>
      cases hstep
      exact registry_start h hnone
    next => cases hstep
  case resume c =>
    obtain ⟨call, hcall, hstep⟩ := Option.bind_eq_some_iff.mp hstep
    exact registry_resume h (haccounts.accounted hcall).1 hcall hstep
  case cancel c =>
    obtain ⟨call, hcall, hstep⟩ := Option.bind_eq_some_iff.mp hstep
    exact registry_cancel h (haccounts.accounted hcall).1 hcall hstep
  case grant c =>
    obtain ⟨call, hcall, hstep⟩ := Option.bind_eq_some_iff.mp hstep
    unfold grant at hstep
    split at hstep
    next =>
      split_ifs at hstep
      cases hstep
      -- a permit changes nothing about who is seated
      exact @Registry.congr _ _ _ _ c { call with acquireTask := .returned } call h hcall
        ⟨rfl, rfl, rfl, rfl, rfl, rfl⟩ rfl rfl rfl rfl rfl
    next => cases hstep
  case acquireEnds c | notice c | supersededEnds c =>
    obtain ⟨call, hcall, hstep⟩ := Option.bind_eq_some_iff.mp hstep
    split_ifs at hstep
    cases hstep
    exact registry_setCall h hcall ⟨rfl, rfl, rfl, rfl, rfl, rfl⟩
  case workerReturns c result =>
    obtain ⟨call, hcall, hstep⟩ := Option.bind_eq_some_iff.mp hstep
    split at hstep
    next hphase =>
      cases hstep
      exact registry_finish_cleared h hcall hphase ((haccounts.accounted hcall).1.background
        (inFlight_of_phase hphase fun _ h => by cases h)) _ _
    next => cases hstep
  case workerRaises c error background =>
    obtain ⟨call, hcall, hstep⟩ := Option.bind_eq_some_iff.mp hstep
    split at hstep
    next hphase =>
      have hflight := inFlight_of_phase hphase fun _ h => by cases h
      rcases background with _ | done
      · cases hstep
        exact registry_finish_cleared h hcall hphase
          ((haccounts.accounted hcall).1.background hflight) _ _
      · cases hstep
        refine registry_finish h hcall hflight ?_ ?_ (fun _ => ?_) _ _
        · rfl
        · rfl
        · unfold Call.occupies
          rw [hphase]
          rfl
    next => cases hstep
  case backgroundDone c =>
    obtain ⟨call, hcall, hstep⟩ := Option.bind_eq_some_iff.mp hstep
    split_ifs at hstep with hrunning
    cases hstep
    obtain ⟨hcalls, -, hheap, hstates, hnext, hlatest⟩ := releasePermit_frame x c call.limiter
    refine @Registry.congr _ _ _ _ c { call with background := .clearing } call h hcall
      ⟨rfl, rfl, rfl, rfl, ?_, ?_⟩ (congrArg (update · c _) hcalls) hstates hheap hnext hlatest
    · unfold Call.occupies
      rw [hrunning]
      rfl
    · unfold Call.seated
      rw [hrunning]
      rfl
  case clear c =>
    obtain ⟨call, hcall, hstep⟩ := Option.bind_eq_some_iff.mp hstep
    split_ifs at hstep with hclearing
    cases hstep
    exact registry_clear h (haccounts.accounted hcall).1 hcall hclearing

end Coordinator

end Haute
