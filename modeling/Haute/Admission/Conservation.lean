import Haute.Admission.InFlight

/-!
# Admission never over-reserves

`step_cases` says what a step can do to the registry: reserve an amount the limit has room
for, pass a reservation from the thread that builds a context to the context, set a release
flag, or remove the reservation of a flag that is set. `Invariant` follows each id from
there: a reservation stands exactly until the one removal its callback makes, and until
then somebody holds the callback. The bound on the sum is separate, since it depends on the
limits of the run's admissions (`reserved_le_of_run`).
-/

namespace Haute

open InFlight

/-! ### What an admission reserves -/

/-- An attempt that reserves, reserves a positive amount the limit has room for. -/
theorem admitOnce_spec {observed : Option ℤ} {store : InFlight} {request : AdmissionRequest}
    {sample : Option ℤ} {added : ℕ × InFlight}
    (h : store.admitOnce observed request sample = .ok (some added)) :
    ∃ available amount, observed = some available ∧ 0 < amount ∧
      store.reserved + amount ≤ limitOf available request.settings ∧
      added = store.add (request.profile, amount, request.operation) := by
  obtain ⟨budget, hbudget, h⟩ := bind_eq_ok_iff.mp h
  obtain ⟨rss, -, h⟩ := bind_eq_ok_iff.mp h
  unfold reserveInFlightBudget at h
  split_ifs at h with hprofile
  · obtain ⟨limit, hlimit, h⟩ := bind_eq_ok_iff.mp h
    obtain ⟨_, hroom, h⟩ := bind_eq_ok_iff.mp h
    cases h
    obtain ⟨available, hobserved, rfl⟩ := inFlightLimitBytes_eq hbudget hlimit
    refine ⟨available, _, hobserved, ?_, of_decide_eq_true (require_eq_ok_iff.mp hroom), rfl⟩
    rcases request.estimate with _ | estimate
    · exact memoryLimitBytes_pos hprofile hbudget
    · exact estimate.pos
  · cases h

/-- A growth grant is positive, and no more than what the usable memory has left. -/
theorem admitGrowth_spec {observed : Option ℤ} {store : InFlight} {request : AdmissionRequest}
    {sample : Option ℤ} {added : ℕ × InFlight}
    (h : store.admitGrowth observed request sample = .ok added) :
    ∃ available amount, observed = some available ∧ 0 < amount ∧
      store.reserved + amount ≤ limitOf available request.settings ∧
      added = store.add (request.profile, amount, request.operation) := by
  obtain ⟨_, -, h⟩ := bind_eq_ok_iff.mp h
  obtain ⟨terms, hterms, h⟩ := bind_eq_ok_iff.mp h
  obtain ⟨_, hpos, h⟩ := bind_eq_ok_iff.mp h
  cases h
  obtain ⟨rssLimit, -, hterms⟩ := bind_eq_ok_iff.mp hterms
  obtain ⟨available, havailable, hterms⟩ := bind_eq_ok_iff.mp hterms
  obtain ⟨limit, -, hterms⟩ := bind_eq_ok_iff.mp hterms
  obtain ⟨rss, -, hterms⟩ := bind_eq_ok_iff.mp hterms
  cases hterms
  refine ⟨available, _, eq_of_requirePositiveAvailableRam havailable,
    of_decide_eq_true (require_eq_ok_iff.mp hpos), ?_, rfl⟩
  -- the usable memory is below the limit, which is at least one byte
  have husable : available - osReserveBytes available request.settings
      ≤ limitOf available request.settings := le_max_left _ _
  rcases rssLimit with _ | found
  · simp only [Option.map_none]
    omega
  · simp only [Option.map_some]
    omega

namespace Admissions

variable {observed : Option ℤ} {s t : Admissions} {e : AdmissionEvent}

/-- **What a step can do.** -/
theorem step_cases (h : s.step observed e = some t) :
    t = s ∨
    (∃ available settings reservation, observed = some available ∧ e.settings = some settings ∧
      0 < reservation.2.1 ∧ s.store.reserved + reservation.2.1 ≤ limitOf available settings ∧
      t = s.reserve (s.store.add reservation)) ∨
    (∃ id ∈ s.building,
      t = { s with building := s.building.erase id, contexts := insert id s.contexts }) ∨
    (∃ id ∈ s.building, t =
      ({ s with building := s.building.erase id } : Admissions).callRelease id) ∨
    (∃ id ∈ s.contexts, t = s.callRelease id) ∨
    ∃ id ∈ s.returning, t = s.finishRelease id := by
  rcases e with ⟨request, sample⟩ | ⟨request, sample⟩ | id | id | id | id
  case create =>
    simp only [step] at h
    split at h
    · exact .inl (Option.some.inj h).symm
    · exact .inl (Option.some.inj h).symm
    · rename_i added hadmit
      obtain ⟨available, amount, hobserved, hpos, hroom, rfl⟩ := admitOnce_spec hadmit
      exact .inr (.inl ⟨available, request.settings, _, hobserved, rfl, hpos, hroom,
        (Option.some.inj h).symm⟩)
  case grow =>
    simp only [step] at h
    split at h
    · exact .inl (Option.some.inj h).symm
    · rename_i added hadmit
      obtain ⟨available, amount, hobserved, hpos, hroom, rfl⟩ := admitGrowth_spec hadmit
      exact .inr (.inl ⟨available, request.settings, _, hobserved, rfl, hpos, hroom,
        (Option.some.inj h).symm⟩)
  case build =>
    simp only [step] at h
    split_ifs at h with hid
    exact .inr (.inr (.inl ⟨id, hid, (Option.some.inj h).symm⟩))
  case fail =>
    simp only [step] at h
    split_ifs at h with hid
    exact .inr (.inr (.inr (.inl ⟨id, hid, (Option.some.inj h).symm⟩)))
  case release =>
    simp only [step] at h
    split_ifs at h with hid
    exact .inr (.inr (.inr (.inr (.inl ⟨id, hid, (Option.some.inj h).symm⟩))))
  case finish =>
    simp only [step] at h
    split_ifs at h with hid
    exact .inr (.inr (.inr (.inr (.inr ⟨id, hid, (Option.some.inj h).symm⟩))))

/-! ### Following each reservation -/

/-- The counter has given out this id. -/
def Issued (s : Admissions) (id : ℕ) : Prop := 1 ≤ id ∧ id < s.store.counter

/-- What holds of every state of a run. -/
structure Invariant (s : Admissions) : Prop where
  /-- A reservation stands until its callback has removed it. -/
  standing : ∀ id, id ∈ s.store.reservations.keys ↔
    s.Issued id ∧ (id ∉ s.released ∨ id ∈ s.returning)
  /-- What has been removed is what a completed call of a callback names. -/
  returned : ∀ id, id ∈ s.returned ↔ id ∈ s.released ∧ id ∉ s.returning
  nodup : s.returned.Nodup
  /-- Somebody holds the callback of a reservation until it has been called. -/
  held : ∀ id, s.Issued id → id ∈ s.building ∨ id ∈ s.contexts ∨ id ∈ s.released
  issued : ∀ id, id ∈ s.building ∨ id ∈ s.contexts ∨ id ∈ s.released → s.Issued id
  returning : ∀ id ∈ s.returning, id ∈ s.released
  building : ∀ id ∈ s.building, id ∉ s.released ∧ id ∉ s.contexts
  counter : 1 ≤ s.store.counter
  pos : ∀ entry ∈ s.store.reservations.entries, 0 < entry.2.2.1

theorem invariant_start : Invariant start where
  standing id := by simp [start, Issued]; omega
  returned id := by simp [start]
  nodup := List.nodup_nil
  held id h := absurd h (by simp [start, Issued]; omega)
  issued id h := by simp [start] at h
  returning id h := by simp [start] at h
  building id h := by simp [start] at h
  counter := le_rfl
  pos entry h := by simp [start] at h

/-- A reservation under the next id. -/
theorem Invariant.reserve (h : Invariant s) {reservation : Reservation}
    (hpos : 0 < reservation.2.1) :
    Invariant (s.reserve (s.store.add reservation)) := by
  have hcounter := h.counter
  -- the counter has not been issued, so the new reservation is no other's
  have hfresh : ∀ id, s.Issued id → id ≠ s.store.counter := fun id hid => Nat.ne_of_lt hid.2
  have hissued : ∀ id, (s.reserve (s.store.add reservation)).Issued id
      ↔ s.Issued id ∨ id = s.store.counter := by
    intro id
    simp only [Issued, Admissions.reserve, InFlight.add]
    omega
  have hnew : s.store.counter ∉ s.released := fun hmem =>
    hfresh _ (h.issued _ (.inr (.inr hmem))) rfl
  have hnoContext : s.store.counter ∉ s.contexts := fun hmem =>
    hfresh _ (h.issued _ (.inr (.inl hmem))) rfl
  constructor
  case standing =>
    intro id
    rw [hissued]
    simp only [Admissions.reserve, InFlight.add, OrdDict.insert, OrdDict.mem_keys_upsert,
      h.standing id]
    rcases eq_or_ne id s.store.counter with rfl | hne
    · simp [hnew]
    · simp [hne]
  case returned => exact h.returned
  case nodup => exact h.nodup
  case held =>
    intro id hid
    rcases (hissued id).mp hid with hid | rfl
    · exact (h.held id hid).imp_left (Finset.mem_insert_of_mem ·)
    · exact .inl (Finset.mem_insert_self _ _)
  case issued =>
    intro id hid
    rw [hissued]
    rcases hid with hid | hid
    · rcases Finset.mem_insert.mp hid with rfl | hid
      · exact .inr rfl
      · exact .inl (h.issued id (.inl hid))
    · exact .inl (h.issued id (.inr hid))
  case returning => exact h.returning
  case building =>
    intro id hid
    rcases Finset.mem_insert.mp hid with rfl | hid
    · exact ⟨hnew, hnoContext⟩
    · exact h.building id hid
  case counter => exact Nat.le_succ_of_le hcounter
  case pos =>
    intro entry hentry
    obtain ⟨id, value⟩ := entry
    rw [OrdDict.mem_entries_iff] at hentry
    simp only [Admissions.reserve, InFlight.add, OrdDict.insert, OrdDict.get?_upsert] at hentry
    split_ifs at hentry
    · cases hentry
      exact hpos
    · exact h.pos (id, value) (OrdDict.mem_entries_iff.mpr hentry)

/-- The context is built: its callback passes to it. -/
theorem Invariant.build (h : Invariant s) {id : ℕ} (hid : id ∈ s.building) :
    Invariant { s with building := s.building.erase id, contexts := insert id s.contexts } where
  standing := h.standing
  returned := h.returned
  nodup := h.nodup
  held id' hid' := by
    rcases eq_or_ne id' id with rfl | hne
    · exact .inr (.inl (Finset.mem_insert_self _ _))
    · exact (h.held id' hid').imp (fun hmem => Finset.mem_erase.mpr ⟨hne, hmem⟩)
        (·.imp_left (Finset.mem_insert_of_mem ·))
  issued id' hid' := by
    rcases hid' with hmem | hmem | hmem
    · exact h.issued id' (.inl (Finset.mem_of_mem_erase hmem))
    · rcases Finset.mem_insert.mp hmem with rfl | hmem
      · exact h.issued id' (.inl hid)
      · exact h.issued id' (.inr (.inl hmem))
    · exact h.issued id' (.inr (.inr hmem))
  returning := h.returning
  building id' hid' := by
    obtain ⟨hne, hmem⟩ := Finset.mem_erase.mp hid'
    obtain ⟨hreleased, hcontext⟩ := h.building id' hmem
    exact ⟨hreleased, fun hmem => (Finset.mem_insert.mp hmem).elim hne hcontext⟩
  counter := h.counter
  pos := h.pos

/-- A call of the callback sets its flag; every call after the first does nothing. The
thread that was building the context, if it makes the call, gives the callback up. -/
theorem Invariant.callRelease (h : Invariant s) {id : ℕ} {building : Finset ℕ}
    (hid : s.Issued id) (hbuilding : building = s.building.erase id ∨ building = s.building ∧
      id ∉ s.building) :
    Invariant (({ s with building := building } : Admissions).callRelease id) := by
  have hsub : ∀ id' ∈ building, id' ∈ s.building ∧ id' ≠ id := by
    intro id' hmem
    rcases hbuilding with rfl | ⟨rfl, hnot⟩
    · exact ⟨Finset.mem_of_mem_erase hmem, Finset.ne_of_mem_erase hmem⟩
    · exact ⟨hmem, fun heq => hnot (heq ▸ hmem)⟩
  have hsup : ∀ id' ∈ s.building, id' ≠ id → id' ∈ building := by
    intro id' hmem hne
    rcases hbuilding with rfl | ⟨rfl, -⟩
    · exact Finset.mem_erase.mpr ⟨hne, hmem⟩
    · exact hmem
  by_cases hreleased : id ∈ s.released
  · -- the flag is set already
    simp only [Admissions.callRelease, hreleased, if_true]
    exact ⟨h.standing, h.returned, h.nodup,
      fun id' hid' => by
        rcases eq_or_ne id' id with rfl | hne
        · exact .inr (.inr hreleased)
        · exact (h.held id' hid').imp_left (hsup id' · hne),
      fun id' hid' => h.issued id' (hid'.imp_left fun hmem => (hsub id' hmem).1),
      h.returning, fun id' hmem => h.building id' (hsub id' hmem).1, h.counter, h.pos⟩
  · simp only [Admissions.callRelease, hreleased, if_false]
    have hnotReturning : id ∉ s.returning := fun hmem => hreleased (h.returning id hmem)
    constructor
    case standing =>
      intro id'
      refine (h.standing id').trans (and_congr_right fun _ => ?_)
      rcases eq_or_ne id' id with rfl | hne
      · simp [hreleased]
      · simp [hne]
    case returned =>
      intro id'
      refine (h.returned id').trans ?_
      rcases eq_or_ne id' id with rfl | hne
      · simp [hreleased]
      · simp [hne]
    case nodup => exact h.nodup
    case held =>
      intro id' hid'
      rcases eq_or_ne id' id with rfl | hne
      · exact .inr (.inr (Finset.mem_insert_self _ _))
      · exact (h.held id' hid').imp (hsup id' · hne) (·.imp_right (Finset.mem_insert_of_mem ·))
    case issued =>
      intro id' hid'
      rcases hid' with hmem | hmem | hmem
      · exact h.issued id' (.inl (hsub id' hmem).1)
      · exact h.issued id' (.inr (.inl hmem))
      · rcases Finset.mem_insert.mp hmem with rfl | hmem
        · exact hid
        · exact h.issued id' (.inr (.inr hmem))
    case returning =>
      intro id' hmem
      rcases Finset.mem_insert.mp hmem with rfl | hmem
      · exact Finset.mem_insert_self _ _
      · exact Finset.mem_insert_of_mem (h.returning id' hmem)
    case building =>
      intro id' hmem
      obtain ⟨hnot, hcontext⟩ := h.building id' (hsub id' hmem).1
      refine ⟨fun hreleased' => ?_, hcontext⟩
      rcases Finset.mem_insert.mp hreleased' with rfl | hreleased'
      · exact (hsub id' hmem).2 rfl
      · exact hnot hreleased'
    case counter => exact h.counter
    case pos => exact h.pos

/-- The callback removes the reservation its flag is for: there is one, and it is gone. -/
theorem Invariant.finishRelease (h : Invariant s) {id : ℕ} (hid : id ∈ s.returning) :
    Invariant (s.finishRelease id) := by
  have hreleased := h.returning id hid
  have hkey : id ∈ s.store.reservations.keys :=
    (h.standing id).mpr ⟨h.issued id (.inr (.inr hreleased)), .inr hid⟩
  have hnew : id ∉ s.returned := fun hmem => ((h.returned id).mp hmem).2 hid
  constructor
  case standing =>
    intro id'
    simp only [Admissions.finishRelease, OrdDict.mem_keys_erase, h.standing id', Finset.mem_erase]
    rcases eq_or_ne id' id with rfl | hne
    · simp [hreleased]
    · simp [hne, Issued]
  case returned =>
    intro id'
    simp only [Admissions.finishRelease, if_pos hkey, List.mem_append, List.mem_singleton,
      h.returned id', Finset.mem_erase]
    rcases eq_or_ne id' id with rfl | hne
    · simp [hreleased]
    · simp [hne]
  case nodup =>
    simp only [Admissions.finishRelease, if_pos hkey]
    exact List.nodup_append.mpr ⟨h.nodup, List.nodup_singleton _, fun a ha b hb heq =>
      hnew (by rwa [← List.mem_singleton.mp hb, ← heq])⟩
  case held => exact h.held
  case issued => exact h.issued
  case returning => exact fun id' hmem => h.returning id' (Finset.mem_of_mem_erase hmem)
  case building => exact h.building
  case counter => exact h.counter
  case pos => exact fun entry hentry => h.pos entry (List.mem_of_mem_filter hentry)

/-- **Every step keeps the invariant.** -/
theorem Invariant.step (h : Invariant s) (hstep : s.step observed e = some t) : Invariant t := by
  rcases step_cases hstep with rfl | ⟨_, _, reservation, -, -, hpos, -, rfl⟩ | ⟨id, hid, rfl⟩ |
    ⟨id, hid, rfl⟩ | ⟨id, hid, rfl⟩ | ⟨id, hid, rfl⟩
  · exact h
  · exact h.reserve hpos
  · exact h.build hid
  · exact h.callRelease (h.issued id (.inl hid)) (.inl rfl)
  · exact h.callRelease (h.issued id (.inr (.inl hid)))
      (.inr ⟨rfl, fun hbuilding => (h.building id hbuilding).2 hid⟩)
  · exact h.finishRelease hid

/-! ### The sum of the reservations -/

/-- A new reservation adds its amount. -/
theorem Invariant.reserved_reserve (h : Invariant s) (reservation : Reservation) :
    (s.reserve (s.store.add reservation)).store.reserved = s.store.reserved + reservation.2.1 :=
  OrdDict.sum_map_insert_of_notMem (fun hmem =>
    lt_irrefl _ ((h.standing _).mp hmem).1.2) reservation fun r => r.2.1

/-- A removal takes its amount away. -/
theorem Invariant.reserved_finishRelease (h : Invariant s) (id : ℕ) :
    (s.finishRelease id).store.reserved ≤ s.store.reserved := by
  have hsum := OrdDict.sum_map_erase s.store.reservations id fun r => r.2.1
  have hamount : 0 ≤ ((s.store.reservations.get? id).map fun r => r.2.1).getD 0 := by
    rcases hget : s.store.reservations.get? id with _ | reservation
    · exact le_rfl
    · exact (h.pos (id, reservation) (OrdDict.mem_entries_iff.mpr hget)).le
  simp only [InFlight.reserved, Admissions.finishRelease]
  omega

theorem store_callRelease (s : Admissions) (id : ℕ) : (s.callRelease id).store = s.store := by
  unfold callRelease
  split_ifs <;> rfl

/-- The runs keep the invariant. -/
theorem Invariant.of_run {es : List AdmissionEvent} (hrun : (machine observed).Run es s) :
    Invariant s :=
  Machine.Reachable.invariant (fun _ hs => hs ▸ invariant_start) (fun _ _ _ hs h => hs.step h)
    ⟨es, hrun⟩

/-- **The bound.** If no admission of a run was made under a limit above `limit`, the sum of
the reservations has not passed `limit`: only an admission adds to it. -/
theorem reserved_le_of_run {es : List AdmissionEvent} (hrun : (machine observed).Run es s)
    {limit : ℤ} (hlimit : 0 ≤ limit)
    (hes : ∀ e ∈ es, ∀ settings, e.settings = some settings → ∀ available, observed =
      some available →
      limitOf available settings ≤ limit) : s.store.reserved ≤ limit := by
  induction hrun with
  | start h =>
    obtain rfl := h
    exact hlimit
  | @next es s t e hs h ih =>
    have hprev := ih fun e he => hes e (List.mem_append_left _ he)
    have hinv := Invariant.of_run hs
    rcases step_cases h
      with rfl | ⟨available, settings, reservation, hobserved, hsettings, -, hroom, rfl⟩ |
      ⟨id, -, rfl⟩ | ⟨id, -, rfl⟩ | ⟨id, -, rfl⟩ | ⟨id, -, rfl⟩
    · exact hprev
    · rw [hinv.reserved_reserve]
      exact hroom.trans (hes e (by simp) settings hsettings available hobserved)
    · exact hprev
    · rw [store_callRelease]
      exact hprev
    · rw [store_callRelease]
      exact hprev
    · exact (hinv.reserved_finishRelease id).trans hprev

/-- With every callback called and no call under way nothing is reserved. -/
theorem Invariant.reserved_eq_zero (h : Invariant s) (hall : s.AllReleased) :
    s.store.reserved = 0 := by
  obtain ⟨hbuilding, hreturning, hcontexts⟩ := hall
  have hnone : s.store.reservations.entries = [] := by
    refine List.eq_nil_iff_forall_not_mem.mpr fun entry hentry => ?_
    obtain ⟨hid, hstands⟩ := (h.standing entry.1).mp (Assoc.mem_keys_of_mem hentry)
    have hreleased : entry.1 ∈ s.released := by
      rcases h.held entry.1 hid with hmem | hmem | hmem
      · simp [hbuilding] at hmem
      · exact hcontexts hmem
      · exact hmem
    rcases hstands with hnot | hmem
    · exact hnot hreleased
    · simp [hreturning] at hmem
  rw [InFlight.reserved, hnone]
  rfl

end Admissions

/-- **Admission never over-reserves.** In every run of the process under one observation of
the available memory: the outstanding reservations never add up to more than the limit of
the run's admissions; an id the counter has given out is either still reserved or has been
returned, and never both or twice; it has been returned as soon as a call of its release is
complete, and a further call changes nothing; and when every context is released and no
call is under way, nothing is reserved. -/
theorem admission_never_over_reserves {observed : Option ℤ} {es : List AdmissionEvent}
    {s : Admissions}
    (hrun : (Admissions.machine observed).Run es s) :
    (∀ limit, 0 ≤ limit →
      (∀ e ∈ es, ∀ settings, e.settings = some settings → ∀ available, observed = some available →
        limitOf available settings ≤ limit) → s.store.reserved ≤ limit) ∧
    (s.returned.Nodup ∧ ∀ id, s.Issued id →
      (id ∈ s.store.reservations.keys ↔ id ∉ s.returned)) ∧
    (∀ id ∈ s.released, id ∉ s.returning → id ∈ s.returned) ∧
    (∀ id ∈ s.released, ∀ t, s.step observed (.release id) = some t → t = s) ∧
    (s.AllReleased → s.store.reserved = 0) := by
  have h := Admissions.Invariant.of_run hrun
  refine ⟨fun limit hlimit hes => Admissions.reserved_le_of_run hrun hlimit hes,
    ⟨h.nodup, fun id hid => ?_⟩,
    fun id hreleased hdone => (h.returned id).mpr ⟨hreleased, hdone⟩, fun id hreleased t ht => ?_,
    h.reserved_eq_zero⟩
  · rw [h.standing id, h.returned id]
    tauto
  · simp only [Admissions.step, Admissions.callRelease, if_pos hreleased] at ht
    split_ifs at ht
    exact (Option.some.inj ht).symm

/-- A sink admitted with an estimate, on a machine no variable or setting bounds. -/
def sinkRequest : AdmissionRequest where
  operation := "write_sink"
  profile := .lazySink
  settings := ⟨none, none⟩
  env := ⟨none, fun _ => none⟩
  estimate := some ⟨3 * gib, "The sink", "Write fewer columns.", by decide⟩

/-- A sink that runs, beside a growth grant whose context cannot be built. -/
def sinkEvents : List AdmissionEvent :=
  [.create sinkRequest (some gib), .grow sinkRequest (some gib), .build 1, .fail 2,
    .release 1, .finish 2,
    .release 1, .finish 1]

/-- Each callback is called, one of them twice, and the registry ends empty. -/
theorem admission_never_over_reserves_sink :
    ∃ s, (Admissions.machine (some (10 * gib))).Run sinkEvents s ∧ s.returned = [2, 1] ∧
      s.store.reserved = 0 :=
  ⟨_, Machine.run_ofPartial_iff.mpr rfl, rfl,
    (@admission_never_over_reserves (some (10 * gib)) sinkEvents _
      (Machine.run_ofPartial_iff.mpr rfl)).2.2.2.2 ⟨by decide, by decide, by decide⟩⟩

end Haute
