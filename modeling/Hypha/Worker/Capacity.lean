import Hypha.Worker.Holding

/-!
# Capacity

What the reservations add up to. The worker compares a request with what is left as vectors, and what is left grows with
every negative component it has reserved.

* `Task.asks`, `asks_step`, `reserves_asked` : what the tasks will ask for, and that nothing else is reserved;
* `overcommitted` : two requests of a scheduler that reserve six times what a worker has;
* `reservations_within_capacity` : with no negative component the reservations stay within the capacity, in sum and one
  by one;
* `whole_exclusive` : with the whole machine on offer one reservation is live at a time, and a lease is granted when
  those of all the leases before it have been released.
-/

namespace Hypha.Worker

open Hypha.Lib

set_option linter.unusedSectionVars false

variable {PeerId : Type} [DecidableEq PeerId] {cfg : Config} {w : Arbiter PeerId}

/-! ## What is asked for -/

/-- The resources that a request has yet to reserve. -/
def Requesting.resources? : Requesting PeerId → Option Resources
  | .reserve _ resources _ => some resources
  | .reserveWrite _ resources _ => some resources
  | .insert _ _ _ => none

/-- The resources that a task may reserve. -/
def Task.asks (cfg : Config) : Task PeerId → List Resources
  | .batch _ _ rest point => point.resources?.toList ++ rest.map fun request => cfg.leaseResources request.2
  | _ => []

theorem asks_nextRequest (rest : List (PeerId × WorkerRequest)) :
    (nextRequest cfg rest).asks cfg = rest.map fun request => cfg.leaseResources request.2 := by
  cases rest <;> rfl

theorem asks_of_prunes {t : Task PeerId} (h : Prunes t) : t.asks cfg = [] := by
  rcases h with rfl | ⟨point, rfl⟩ <;> rfl

/-- A stretch asks for nothing new. -/
theorem Runs.asks {s : Shared PeerId} {r : Moment} {t t' : Task PeerId} {effect : Effect PeerId}
    {spawned : List (Task PeerId)} (h : Runs cfg s r t effect t' spawned) : ∀ x ∈ t'.asks cfg, x ∈ t.asks cfg := by
  by_cases hprunes : ∃ point, t = .pruning point
  · obtain ⟨point, rfl⟩ := hprunes
    rw [asks_of_prunes h.prunes.1]
    exact fun x hx => absurd hx List.not_mem_nil
  · cases h with
    | compares peer request rest owner resources duration hfits => exact fun x hx => hx
    | declines peer request rest point hheld =>
      rw [asks_nextRequest]
      exact fun x hx => List.mem_append_right _ hx
    | reserves peer request rest owner resources duration hfits => exact fun x hx => List.mem_append_right _ hx
    | grants peer request rest lease duration hid htimeout =>
      rw [asks_nextRequest]
      exact fun x hx => List.mem_append_right _ hx
    | _ => first | exact fun x hx => absurd hx List.not_mem_nil | exact absurd ⟨_, rfl⟩ hprunes

/-- What holds of everything the tasks ask for holds after a step, if it holds of what a new batch asks for. -/
theorem asks_step {P : Resources → Prop} {a : Happening PeerId} {effect : Effect PeerId} {tasks : List (Task PeerId)}
    (hsteps : Steps cfg w a effect tasks) (h : ∀ t ∈ w.tasks, ∀ x ∈ t.asks cfg, P x)
    (hbatch : ∀ batch, a = .requests batch → ∀ request ∈ batch, P (cfg.leaseResources request.2)) :
    ∀ t ∈ tasks, ∀ x ∈ t.asks cfg, P x := by
  intro u hu x hx
  rcases hsteps.mem_cases hu with hold | ⟨i, r, t, spawned, -, ht, hruns⟩ | hbegins
  · exact h u hold x hx
  · exact h t (List.mem_of_getElem? ht) x (hruns.asks x hx)
  · cases hbegins with
    | batch batch =>
      rw [asks_nextRequest] at hx
      obtain ⟨request, hrequest, rfl⟩ := List.mem_map.mp hx
      have hmem := (List.mem_insertionSort _).mp hrequest
      exact hbatch batch rfl request (List.mem_of_mem_filter hmem)
    | _ => exact absurd hx List.not_mem_nil

/-- What is reserved fits and has been asked for. -/
theorem reserves_asked {a : Happening PeerId} {effect : Effect PeerId} {tasks : List (Task PeerId)} {id : Uuid}
    {resources : Resources} (hsteps : Steps cfg w a effect tasks) (heffect : effect.access = .reserves id resources) :
    (∃ t ∈ w.tasks, resources ∈ t.asks cfg) ∧ w.manager.available.ge resources = true := by
  cases hsteps with
  | runs i r t t' effect spawned ht hruns =>
    cases hruns with
    | reserves peer request rest owner asked duration hfits =>
      obtain ⟨rfl, rfl⟩ := Access.reserves.inj heffect
      exact ⟨⟨_, List.mem_of_getElem? ht, List.mem_cons_self⟩, hfits⟩
    | _ => cases heffect
  | _ => cases heffect

/-! ## Over-commitment -/

/-- The reservations, added up. -/
def ResourceLeaseManager.reserved (m : ResourceLeaseManager PeerId) : Resources :=
  Resources.sum (m.reservations.entries.map Sigma.snd)

/-- The sum of the reservations and every single one are within a capacity, in every component. -/
def WithinCapacity (capacity : Resources) (m : ResourceLeaseManager PeerId) : Prop :=
  (∀ c, m.reserved.get c ≤ capacity.get c) ∧
    ∀ id resources, m.reservations.lookup id = some resources → ∀ c, resources.get c ≤ capacity.get c

theorem reserved_get (m : ResourceLeaseManager PeerId) (c : Component) :
    m.reserved.get c = (m.reservations.entries.map fun x => x.2.get c).sum := by
  unfold ResourceLeaseManager.reserved
  rw [Resources.sum_get, List.map_map]
  rfl

theorem available_get (m : ResourceLeaseManager PeerId) (c : Component) :
    m.available.get c = m.computeResources.get c - m.reserved.get c := Resources.sub_get _ _ c

/-- The reservations stay within the capacity: the invariant behind it. -/
structure Bounded (cfg : Config) (w : Arbiter PeerId) : Prop where
  capacity : w.manager.computeResources = cfg.resources
  asked : ∀ t ∈ w.tasks, ∀ x ∈ t.asks cfg, x.Nonneg
  nonneg : ∀ x ∈ w.manager.reservations.entries, x.2.Nonneg
  within : ∀ c, w.manager.reserved.get c ≤ cfg.resources.get c

theorem Access.computeResources_apply (m : ResourceLeaseManager PeerId) (a : Access PeerId) :
    (a.apply m).computeResources = m.computeResources := by
  cases a <;> rfl

/-- What is left of a sum of numbers that are not negative after some are dropped is no more. -/
theorem sum_entries_le {m : ResourceLeaseManager PeerId} (hnonneg : ∀ x ∈ m.reservations.entries, x.2.Nonneg)
    (c : Component) {l : List (Σ _ : Uuid, Resources)} (hl : l.Sublist m.reservations.entries) :
    (l.map fun x => x.2.get c).sum ≤ m.reserved.get c := by
  rw [reserved_get]
  refine (hl.map fun x => x.2.get c).sum_le_sum fun y hy => ?_
  obtain ⟨x, hx, rfl⟩ := List.mem_map.mp hy
  exact (Resources.nonneg_iff x.2).mp (hnonneg x hx) c

theorem Bounded.step {a : Happening PeerId} {effect : Effect PeerId} {tasks : List (Task PeerId)} (h : Bounded cfg w)
    (hsteps : Steps cfg w a effect tasks)
    (hbatch : ∀ batch, a = .requests batch → ∀ request ∈ batch, (cfg.leaseResources request.2).Nonneg) :
    Bounded cfg ⟨effect.apply w.toShared, tasks⟩ := by
  have hasked := asks_step hsteps h.asked hbatch
  have hcapacity : (effect.apply w.toShared).manager.computeResources = cfg.resources := by
    rw [Effect.apply_manager, Access.computeResources_apply, h.capacity]
  have hsame : (effect.apply w.toShared).manager.reservations = w.manager.reservations →
      Bounded cfg ⟨effect.apply w.toShared, tasks⟩ := by
    intro hreservations
    refine ⟨hcapacity, hasked, ?_, ?_⟩
    · rw [hreservations]
      exact h.nonneg
    · unfold ResourceLeaseManager.reserved
      rw [hreservations]
      exact h.within
  have hmanager := effect.apply_manager w.toShared
  cases haccess : effect.access with
  | reserves id resources =>
    obtain ⟨⟨t, ht, hask⟩, hfits⟩ := reserves_asked hsteps haccess
    have hentries : (effect.apply w.toShared).manager.reservations.entries =
        ⟨id, resources⟩ :: (w.manager.reservations.erase id).entries := by
      rw [hmanager, haccess]
      exact AList.entries_insert
    have hsub := Table.entries_erase_sublist id w.manager.reservations
    refine ⟨hcapacity, hasked, ?_, fun c => ?_⟩
    · rw [hentries]
      intro x hx
      rcases List.mem_cons.mp hx with rfl | hx
      · exact h.asked t ht resources hask
      · exact h.nonneg x (hsub.subset hx)
    · have hroom := (Resources.ge_iff _ _).mp hfits c
      rw [available_get, h.capacity] at hroom
      have hrest := sum_entries_le h.nonneg c hsub
      rw [reserved_get, hentries, List.map_cons, List.sum_cons]
      linarith
  | frees reservation =>
    have hentries : (effect.apply w.toShared).manager.reservations.entries =
        (w.manager.reservations.erase reservation).entries := by
      rw [hmanager, haccess]
      rfl
    have hsub := Table.entries_erase_sublist reservation w.manager.reservations
    refine ⟨hcapacity, hasked, ?_, fun c => ?_⟩
    · rw [hentries]
      exact fun x hx => h.nonneg x (hsub.subset hx)
    · have hrest := sum_entries_le h.nonneg c hsub
      have hwithin := h.within c
      rw [reserved_get, hentries]
      linarith
  | _ =>
    apply hsame
    rw [hmanager, haccess]
    rfl

/-- No request of a batch asks for less than nothing. -/
def Happening.NonnegRequests : Happening PeerId → Prop
  | .requests batch => ∀ request ∈ batch, request.2.resources.Nonneg
  | _ => True

instance : ∀ a : Happening PeerId, Decidable a.NonnegRequests
  | .requests batch => inferInstanceAs (Decidable (∀ request ∈ batch, request.2.resources.Nonneg))
  | .renews .. | .dispatches .. | .ticks | .runs .. | .stops .. | .writes .. => isTrue trivial

theorem leaseResources_nonneg {request : WorkerRequest} (hcapacity : cfg.resources.Nonneg)
    (hrequest : request.resources.Nonneg) : (cfg.leaseResources request).Nonneg := by
  unfold Config.leaseResources
  split
  · exact hcapacity
  · exact hrequest

theorem Bounded.initial (hcapacity : cfg.resources.Nonneg) : Bounded cfg (Arbiter.initial cfg : Arbiter PeerId) := by
  refine ⟨rfl, fun t ht => absurd ht List.not_mem_nil, fun x hx => absurd hx List.not_mem_nil, fun c => ?_⟩
  exact (Resources.zero_get c).le.trans ((Resources.nonneg_iff _).mp hcapacity c)

/-- **No over-commitment** if neither the capacity nor a request has a negative component. -/
theorem reservations_within_capacity (cfg : Config) (happenings : List (Happening PeerId))
    (hcapacity : cfg.resources.Nonneg) (hrequests : ∀ a ∈ happenings, a.NonnegRequests) :
    WithinCapacity cfg.resources (run cfg happenings).state.manager := by
  have hbounded : Bounded cfg (run cfg happenings).state := by
    refine (run_state_rule (Bounded cfg) (fun e _ => e.input.NonnegRequests) (Bounded.initial hcapacity) ?_ happenings
      ((arbiter cfg).along_input hrequests)).1
    intro w h a effect tasks hI hsteps hrequest
    refine hI.step hsteps fun batch hbatch request hmem => ?_
    subst hbatch
    exact leaseResources_nonneg hcapacity (hrequest request hmem)
  refine ⟨hbounded.within, fun id resources hlookup c => ?_⟩
  have hmem : (⟨id, resources⟩ : Σ _ : Uuid, Resources) ∈ (run cfg happenings).state.manager.reservations.entries :=
    AList.mem_lookup_iff.mp hlookup
  have hsingle := sum_entries_le hbounded.nonneg c (List.singleton_sublist.mpr hmem)
  rw [List.map_singleton, List.sum_singleton] at hsingle
  exact hsingle.trans (hbounded.within c)

theorem reservations_within_capacity_served :
    Resources.Nonneg { cpu := 4 } ∧ (∀ a ∈ served 0 7 { cpu := 3 } 1 2 0, a.NonnegRequests) ∧
      WithinCapacity { cpu := 4 } (run fourCores (served 0 7 { cpu := 3 } 1 2 0)).state.manager := by
  have hcapacity : fourCores.resources.Nonneg := by decide +kernel
  have hrequests : ∀ a ∈ served 0 7 { cpu := 3 } 1 2 0, a.NonnegRequests := by decide +kernel
  exact ⟨hcapacity, hrequests, reservations_within_capacity _ _ hcapacity hrequests⟩

/-- A scheduler asks for less than nothing, and then for more than there is in one component and less than nothing in
another, so that the vector is not greater than the capacity. The first offer cannot be sent and its lease is removed. -/
def overcommitted : List (Happening Nat) :=
  List.flatten [served 0 7 { cpu := -5 } 1 2 0, served 2 8 { cpu := 6, memory := -1 } 3 4 0,
    [.runs 1 { ok := false }, .runs 1 {}, .runs 1 {}]]

theorem overcommitted_exceeds :
    ¬ WithinCapacity { cpu := 1 } (run (smallWorker { cpu := 1 } .flexible) overcommitted).state.manager := by
  intro h
  have hcpu := h.1 .cpu
  revert hcpu
  decide +kernel

/-! ## The whole machine on offer -/

/-- The reservations released in a history, newest first. -/
def releasedIn (h : List (ArbiterStep PeerId)) : List Uuid :=
  h.filterMap fun e => e.output.bind fun effect => effect.access.freed?

/-- The reservations of the leases granted in a history, newest first. -/
def leasedIn (h : List (ArbiterStep PeerId)) : List Uuid := (grantedIn h).map fun lease => lease.leasable.reservation

theorem leasedIn_taken (w : Arbiter PeerId) (a : Happening PeerId) (effect : Effect PeerId) (tasks : List (Task PeerId))
    (h : List (ArbiterStep PeerId)) :
    leasedIn (taken w a effect tasks :: h) =
      (effect.access.granted?.map fun lease => lease.leasable.reservation).toList ++ leasedIn h := by
  unfold leasedIn
  rw [grantedIn_taken]
  cases effect.access.granted? <;> rfl

theorem releasedIn_taken (w : Arbiter PeerId) (a : Happening PeerId) (effect : Effect PeerId)
    (tasks : List (Task PeerId)) (h : List (ArbiterStep PeerId)) :
    releasedIn (taken w a effect tasks :: h) = effect.access.freed?.toList ++ releasedIn h := by
  unfold releasedIn
  cases hfreed : effect.access.freed? <;> simp [taken, hfreed]

/-- Whether a task requests a lease. -/
def Task.isBatch : Task PeerId → Bool
  | .batch .. => true
  | _ => false

/-- While nobody has a reservation, or a request that has yet to insert the lease, those of all the leases granted so far
have been released; while a lease or a removal has one, all but this. -/
structure Settled (w : Arbiter PeerId) (h : List (ArbiterStep PeerId)) : Prop where
  idle : w.manager.reservations.entries = [] → leasedIn h = releasedIn h
  requested : ∀ (i : Nat) t reservation, w.tasks[i]? = some t → t.isBatch = true → t.held = some reservation →
    leasedIn h = releasedIn h
  leased : ∀ id lease, w.manager.ledger.lookup id = some lease →
    leasedIn h = lease.leasable.reservation :: releasedIn h
  removed : ∀ (i : Nat) t reservation, w.tasks[i]? = some t → t.isBatch = false → t.held = some reservation →
    leasedIn h = reservation :: releasedIn h

/-- One reservation is live at a time, that of the whole machine. -/
structure Exclusive (cfg : Config) (w : Arbiter PeerId) (h : List (ArbiterStep PeerId)) : Prop where
  capacity : w.manager.computeResources = cfg.resources
  asked : ∀ t ∈ w.tasks, ∀ x ∈ t.asks cfg, x = cfg.resources
  whole : ∀ x ∈ w.manager.reservations.entries, x.2 = cfg.resources
  single : w.manager.reservations.entries.length ≤ 1
  custody : InCustody w.manager w.hands
  settled : Settled w h

section Exclusive
variable {h : List (ArbiterStep PeerId)}

/-- With the whole machine asked for, it fits only while nothing is reserved. -/
theorem Exclusive.empty_of_fits (hI : Exclusive cfg w h) {c : Component} (hc : 0 < cfg.resources.get c)
    (hfits : w.manager.available.ge cfg.resources = true) : w.manager.reservations.entries = [] := by
  have hroom := (Resources.ge_iff _ _).mp hfits c
  rw [available_get, hI.capacity, reserved_get] at hroom
  cases hentries : w.manager.reservations.entries with
  | nil => rfl
  | cons x rest =>
    have hlength := hI.single
    rw [hentries] at hlength hroom
    have hrest : rest = [] := by
      apply List.length_eq_zero_iff.mp
      rw [List.length_cons] at hlength
      omega
    have hx : x.2 = cfg.resources := hI.whole x (by rw [hentries]; exact List.mem_cons_self)
    subst hrest
    rw [List.map_singleton, List.sum_singleton, hx] at hroom
    linarith

theorem entries_eq_nil_iff {m : ResourceLeaseManager PeerId} :
    m.reservations.entries = [] ↔ ∀ r, r ∉ m.reservations := by
  rw [List.eq_nil_iff_forall_not_mem]
  refine ⟨fun hnone r hr => ?_, fun hnone x hx => ?_⟩
  · obtain ⟨resources, hlookup⟩ := Table.exists_lookup hr
    exact hnone _ (AList.mem_lookup_iff.mp hlookup)
  · exact hnone x.1 (Table.mem_of_lookup (AList.mem_lookup_iff.mpr hx))

/-- No two have a reservation. -/
theorem Exclusive.one_holder (hI : Exclusive cfg w h) {a b : Uuid ⊕ Nat} {r q : Uuid}
    (ha : holders w.manager w.hands a = some r) (hb : holders w.manager w.hands b = some q) : a = b := by
  have hlive : ∀ x ∈ w.manager.reservations, ∀ y ∈ w.manager.reservations, x = y := by
    intro x hx y hy
    obtain ⟨u, hu⟩ := Table.exists_lookup hx
    obtain ⟨v, hv⟩ := Table.exists_lookup hy
    have hmemx := AList.mem_lookup_iff.mp hu
    have hmemy := AList.mem_lookup_iff.mp hv
    have hsingle := hI.single
    match w.manager.reservations.entries, hmemx, hmemy, hsingle with
    | [e], hmemx, hmemy, _ =>
      have hx := List.mem_singleton.mp hmemx
      have hy := List.mem_singleton.mp hmemy
      exact congrArg Sigma.fst (hx.trans hy.symm)
  have hrq : r = q := hlive r (hI.custody.mem_live ha) q (hI.custody.mem_live hb)
  subst hrq
  exact hI.custody.unique a b r ha hb

section Batch
variable {s : Shared PeerId} {r : Moment} {t t' : Task PeerId} {effect : Effect PeerId} {spawned : List (Task PeerId)}

theorem Runs.isBatch_of_reserves {id : Uuid} {resources : Resources} (hruns : Runs cfg s r t effect t' spawned)
    (heffect : effect.access = .reserves id resources) : t'.isBatch = true := by
  cases hruns with
  | reserves => rfl
  | _ => cases heffect

theorem Runs.isBatch_of_grants {lease : WorkerLease PeerId} (hruns : Runs cfg s r t effect t' spawned)
    (heffect : effect.access = .grants lease) : t.isBatch = true := by
  cases hruns with
  | grants => rfl
  | _ => cases heffect

theorem Runs.not_isBatch_of_takes {id : Uuid} {lease : WorkerLease PeerId} (hruns : Runs cfg s r t effect t' spawned)
    (heffect : effect.access = .takes id lease) : t'.isBatch = false := by
  cases hruns with
  | withdrawTakes => rfl
  | revokeTakes => rfl
  | proceedTakes => rfl
  | _ => cases heffect

theorem Runs.not_isBatch_of_frees {reservation : Uuid} (hruns : Runs cfg s r t effect t' spawned)
    (heffect : effect.access = .frees reservation) : t.isBatch = false := by
  cases hruns with
  | withdrawFrees => rfl
  | revokeFrees => rfl
  | proceedFrees => rfl
  | proceedErrs => rfl
  | _ => cases heffect

end Batch

theorem Exclusive.unused (hI : Exclusive cfg w h) {a : Happening PeerId} {effect : Effect PeerId}
    {tasks : List (Task PeerId)} (hsteps : Steps cfg w a effect tasks) {c : Component} (hc : 0 < cfg.resources.get c) :
    effect.access.Unused w.manager := by
  cases haccess : effect.access with
  | reserves id resources =>
    obtain ⟨⟨t, ht, hask⟩, hfits⟩ := reserves_asked hsteps haccess
    rw [hI.asked t ht resources hask] at hfits
    exact entries_eq_nil_iff.mp (hI.empty_of_fits hc hfits) id
  | grants lease =>
    obtain ⟨i, r, t, t', spawned, rfl, ht, hruns, -⟩ := hsteps.runs_of_access (by rw [haccess]; simp)
    intro hmem
    obtain ⟨old, hold⟩ := Table.exists_lookup hmem
    have hheld := (hruns.moves_of haccess).of_grants.1
    cases hI.one_holder (holders_lease hold) (holders_task ht hheld)
  | _ => exact trivial

/-- The reservations after a step: their values, their number and who has them. -/
theorem Exclusive.step_reservations (hI : Exclusive cfg w h) {a : Happening PeerId} {effect : Effect PeerId}
    {tasks : List (Task PeerId)} (hsteps : Steps cfg w a effect tasks) {c : Component} (hc : 0 < cfg.resources.get c) :
    (∀ x ∈ (effect.apply w.toShared).manager.reservations.entries, x.2 = cfg.resources) ∧
      (effect.apply w.toShared).manager.reservations.entries.length ≤ 1 ∧
      InCustody (effect.apply w.toShared).manager (handsOf Task.held tasks) := by
  have hmanager := effect.apply_manager w.toShared
  have hcustody : InCustody (effect.apply w.toShared).manager (handsOf Task.held tasks) := by
    obtain ⟨i, held, hmove, hhands⟩ := hsteps.moves
    rw [hmanager, hhands]
    exact custody_moves hI.custody hmove (hI.unused hsteps hc)
  rw [hmanager] at hcustody ⊢
  cases haccess : effect.access with
  | reserves id resources =>
    obtain ⟨⟨t, ht, hask⟩, hfits⟩ := reserves_asked hsteps haccess
    have hresources := hI.asked t ht resources hask
    rw [hresources] at hfits
    have hempty := hI.empty_of_fits hc hfits
    have hentries : ((Access.reserves id resources).apply w.manager).reservations.entries = [⟨id, resources⟩] := by
      show (w.manager.reservations.insert id resources).entries = _
      rw [AList.entries_insert, hempty]
      rfl
    rw [haccess] at hcustody
    rw [hentries]
    refine ⟨fun x hx => ?_, le_rfl, hcustody⟩
    rw [List.mem_singleton.mp hx]
    exact hresources
  | frees reservation =>
    have hsub := Table.entries_erase_sublist reservation w.manager.reservations
    rw [haccess] at hcustody
    exact ⟨fun x hx => hI.whole x (hsub.subset hx), hsub.length_le.trans hI.single, hcustody⟩
  | _ =>
    rw [haccess] at hcustody
    exact ⟨hI.whole, hI.single, hcustody⟩

section Settled
variable {a : Happening PeerId} {effect : Effect PeerId} {tasks : List (Task PeerId)}

/-- A step that moves no reservation. -/
theorem Exclusive.settled_quiet (hI : Exclusive cfg w h) (hsteps : Steps cfg w a effect tasks)
    (hquiet : ∀ before after, Moves w.manager before effect.access after → after = none)
    (hledger : ∀ id lease, (effect.access.apply w.manager).ledger.lookup id = some lease →
      ∃ old, w.manager.ledger.lookup id = some old ∧ old.leasable.reservation = lease.leasable.reservation)
    (hreservations : (effect.access.apply w.manager).reservations = w.manager.reservations)
    (hgranted : effect.access.granted? = none) (hfreed : effect.access.freed? = none) :
    Settled ⟨effect.apply w.toShared, tasks⟩ (taken w a effect tasks :: h) := by
  have hleasedIn : leasedIn (taken w a effect tasks :: h) = leasedIn h := by simp [leasedIn_taken, hgranted]
  have hreleasedIn : releasedIn (taken w a effect tasks :: h) = releasedIn h := by simp [releasedIn_taken, hfreed]
  have hold : ∀ {j : Nat} {u : Task PeerId} {reservation : Uuid}, tasks[j]? = some u → u.held = some reservation →
      w.tasks[j]? = some u := by
    intro j u reservation hu hheld
    rcases hsteps.holder_cases hu hheld with ⟨hold, -⟩ | ⟨r, t, spawned, -, -, hruns⟩
    · exact hold
    · rw [hquiet _ _ hruns.moves] at hheld
      cases hheld
  refine ⟨?_, ?_, ?_, ?_⟩
  all_goals rw [hleasedIn, hreleasedIn]
  · rw [Effect.apply_manager, hreservations]
    exact hI.settled.idle
  · exact fun j u _ hu hbatch hheld => hI.settled.requested j u _ (hold hu hheld) hbatch hheld
  · intro id lease hlease
    rw [Effect.apply_manager] at hlease
    obtain ⟨old, hlookup, hsame⟩ := hledger id lease hlease
    rw [← hsame]
    exact hI.settled.leased id old hlookup
  · exact fun j u _ hu hbatch hheld => hI.settled.removed j u _ (hold hu hheld) hbatch hheld

/-- A reservation is made: nobody had one. -/
theorem Exclusive.settled_reserves (hI : Exclusive cfg w h) (hsteps : Steps cfg w a effect tasks) {c : Component}
    (hc : 0 < cfg.resources.get c) {id : Uuid} {resources : Resources}
    (haccess : effect.access = .reserves id resources) :
    Settled ⟨effect.apply w.toShared, tasks⟩ (taken w a effect tasks :: h) := by
  have hleasedIn : leasedIn (taken w a effect tasks :: h) = leasedIn h := by
    simp [leasedIn_taken, haccess, Access.granted?]
  have hreleasedIn : releasedIn (taken w a effect tasks :: h) = releasedIn h := by
    simp [releasedIn_taken, haccess, Access.freed?]
  obtain ⟨⟨asker, hasker, hask⟩, hfits⟩ := reserves_asked hsteps haccess
  rw [hI.asked asker hasker resources hask] at hfits
  have hempty := hI.empty_of_fits hc hfits
  have hall := hI.settled.idle hempty
  have hnobody : ∀ b x, holders w.manager w.hands b ≠ some x := fun b x hb =>
    entries_eq_nil_iff.mp hempty x (hI.custody.mem_live hb)
  refine ⟨?_, ?_, ?_, ?_⟩
  all_goals rw [hleasedIn, hreleasedIn]
  · exact fun _ => hall
  · exact fun _ _ _ _ _ _ => hall
  · intro k lease hlease
    rw [Effect.apply_manager, haccess] at hlease
    exact absurd (holders_lease hlease) (hnobody _ _)
  · intro j u reservation hu hbatch hheld
    rcases hsteps.holder_cases hu hheld with ⟨hold, -⟩ | ⟨r, t, spawned, -, -, hruns⟩
    · exact absurd (holders_task hold hheld) (hnobody _ _)
    · rw [hruns.isBatch_of_reserves haccess] at hbatch
      cases hbatch

/-- A lease is granted: the reservation was in the hands of the request. -/
theorem Exclusive.settled_grants (hI : Exclusive cfg w h) (hsteps : Steps cfg w a effect tasks)
    {lease : WorkerLease PeerId} (haccess : effect.access = .grants lease) :
    Settled ⟨effect.apply w.toShared, tasks⟩ (taken w a effect tasks :: h) := by
  obtain ⟨i, r, t, t', spawned, rfl, ht, hruns, -⟩ := hsteps.runs_of_access (by rw [haccess]; simp)
  obtain ⟨hheld, hafter⟩ := (hruns.moves_of haccess).of_grants
  have hall := hI.settled.requested i t _ ht (hruns.isBatch_of_grants haccess) hheld
  have hholder := holders_task ht hheld
  have hleasedIn : leasedIn (taken w (.runs i r) effect tasks :: h) = lease.leasable.reservation :: leasedIn h := by
    simp [leasedIn_taken, haccess, Access.granted?]
  have hreleasedIn : releasedIn (taken w (.runs i r) effect tasks :: h) = releasedIn h := by
    simp [releasedIn_taken, haccess, Access.freed?]
  have hnobody : ∀ {j : Nat} {u : Task PeerId} {reservation : Uuid}, tasks[j]? = some u → u.held ≠ some reservation := by
    intro j u reservation hu huheld
    rcases hsteps.holder_cases hu huheld with ⟨hold, hother⟩ | ⟨r', t₁, spawned', heq, -, hruns'⟩
    · have hij := Sum.inr.inj (hI.one_holder (holders_task hold huheld) hholder)
      exact hother r (by rw [hij])
    · rw [(hruns'.moves_of haccess).of_grants.2] at huheld
      cases huheld
  refine ⟨?_, fun _ _ _ hu _ huheld => absurd huheld (hnobody hu), ?_,
    fun _ _ _ hu _ huheld => absurd huheld (hnobody hu)⟩
  all_goals rw [hleasedIn, hreleasedIn]
  · intro hempty
    rw [Effect.apply_manager, haccess] at hempty
    exact absurd (hI.custody.mem_live hholder) (entries_eq_nil_iff.mp hempty _)
  · intro k l hl
    rw [Effect.apply_manager, haccess] at hl
    rcases Table.lookup_insert_iff.mp hl with ⟨-, rfl⟩ | ⟨-, hl⟩
    · rw [hall]
    · cases hI.one_holder (holders_lease hl) hholder

/-- A lease is removed: its reservation comes into the hands of the removal. -/
theorem Exclusive.settled_takes (hI : Exclusive cfg w h) (hsteps : Steps cfg w a effect tasks) {id : Uuid}
    {lease : WorkerLease PeerId} (haccess : effect.access = .takes id lease) :
    Settled ⟨effect.apply w.toShared, tasks⟩ (taken w a effect tasks :: h) := by
  obtain ⟨i, r, t, t', spawned, rfl, ht, hruns, -⟩ := hsteps.runs_of_access (by rw [haccess]; simp)
  obtain ⟨-, -, hlease⟩ := (hruns.moves_of haccess).of_takes
  have hholder := holders_lease hlease
  have howed := hI.settled.leased id lease hlease
  have hleasedIn : leasedIn (taken w (.runs i r) effect tasks :: h) = leasedIn h := by
    simp [leasedIn_taken, haccess, Access.granted?]
  have hreleasedIn : releasedIn (taken w (.runs i r) effect tasks :: h) = releasedIn h := by
    simp [releasedIn_taken, haccess, Access.freed?]
  refine ⟨?_, ?_, ?_, ?_⟩
  all_goals rw [hleasedIn, hreleasedIn]
  · intro hempty
    rw [Effect.apply_manager, haccess] at hempty
    exact absurd (hI.custody.mem_live hholder) (entries_eq_nil_iff.mp hempty _)
  · intro j u reservation hu hbatch hheld
    rcases hsteps.holder_cases hu hheld with ⟨hold, -⟩ | ⟨r', t₁, spawned', -, -, hruns'⟩
    · cases hI.one_holder (holders_task hold hheld) hholder
    · rw [hruns'.not_isBatch_of_takes haccess] at hbatch
      cases hbatch
  · intro k l hl
    rw [Effect.apply_manager, haccess] at hl
    exact hI.settled.leased k l (Table.lookup_erase_iff.mp hl).2
  · intro j u reservation hu hbatch hheld
    rcases hsteps.holder_cases hu hheld with ⟨hold, -⟩ | ⟨r', t₁, spawned', -, -, hruns'⟩
    · exact hI.settled.removed j u reservation hold hbatch hheld
    · rw [(hruns'.moves_of haccess).of_takes.2.1] at hheld
      rw [howed, Option.some.inj hheld]

/-- The reservation is released: nobody has one. -/
theorem Exclusive.settled_frees (hI : Exclusive cfg w h) (hsteps : Steps cfg w a effect tasks) {reservation : Uuid}
    (haccess : effect.access = .frees reservation) :
    Settled ⟨effect.apply w.toShared, tasks⟩ (taken w a effect tasks :: h) := by
  obtain ⟨i, r, t, t', spawned, rfl, ht, hruns, -⟩ := hsteps.runs_of_access (by rw [haccess]; simp)
  obtain ⟨hheld, hafter⟩ := (hruns.moves_of haccess).of_frees
  have hholder := holders_task ht hheld
  have howed := hI.settled.removed i t reservation ht (hruns.not_isBatch_of_frees haccess) hheld
  have hleasedIn : leasedIn (taken w (.runs i r) effect tasks :: h) = leasedIn h := by
    simp [leasedIn_taken, haccess, Access.granted?]
  have hreleasedIn : releasedIn (taken w (.runs i r) effect tasks :: h) = reservation :: releasedIn h := by
    simp [releasedIn_taken, haccess, Access.freed?]
  refine ⟨?_, ?_, ?_, ?_⟩
  all_goals rw [hleasedIn, hreleasedIn]
  · exact fun _ => howed
  · exact fun _ _ _ _ _ _ => howed
  · intro k l hl
    rw [Effect.apply_manager, haccess] at hl
    cases hI.one_holder (holders_lease hl) hholder
  · intro j u x hu hbatch huheld
    rcases hsteps.holder_cases hu huheld with ⟨hold, hother⟩ | ⟨r', t₁, spawned', -, -, hruns'⟩
    · have hij := Sum.inr.inj (hI.one_holder (holders_task hold huheld) hholder)
      exact absurd (by rw [hij]) (hother r)
    · rw [(hruns'.moves_of haccess).of_frees.2] at huheld
      cases huheld

end Settled

theorem Exclusive.step (hI : Exclusive cfg w h) {a : Happening PeerId} {effect : Effect PeerId}
    {tasks : List (Task PeerId)} (hsteps : Steps cfg w a effect tasks)
    (hwhole : ∀ request, cfg.leaseResources request = cfg.resources) {c : Component} (hc : 0 < cfg.resources.get c) :
    Exclusive cfg ⟨effect.apply w.toShared, tasks⟩ (taken w a effect tasks :: h) := by
  have hasked := asks_step hsteps hI.asked fun _ _ request _ => hwhole request.2
  obtain ⟨hvalues, hsingle, hcustody⟩ := hI.step_reservations hsteps hc
  have hcapacity : (effect.apply w.toShared).manager.computeResources = cfg.resources := by
    rw [Effect.apply_manager, Access.computeResources_apply, hI.capacity]
  refine ⟨hcapacity, hasked, hvalues, hsingle, hcustody, ?_⟩
  cases haccess : effect.access with
  | reads =>
    refine hI.settled_quiet hsteps ?_ ?_ ?_ ?_ ?_
    all_goals rw [haccess]
    · exact fun _ _ hmove => hmove.of_reads.2
    · exact fun id lease hlease => ⟨lease, hlease, rfl⟩
    all_goals rfl
  | renews id lease =>
    obtain ⟨i, r, t, t', spawned, -, -, hruns, -⟩ := hsteps.runs_of_access (by rw [haccess]; simp)
    obtain ⟨-, -, old, timeout, hold, rfl⟩ := (hruns.moves_of haccess).of_renews
    refine hI.settled_quiet hsteps ?_ ?_ ?_ ?_ ?_
    all_goals rw [haccess]
    · exact fun _ _ hmove => hmove.of_renews.2.1
    · intro k l hl
      rcases Table.lookup_insert_iff.mp hl with ⟨rfl, rfl⟩ | ⟨-, hl⟩
      · exact ⟨old, hold, rfl⟩
      · exact ⟨l, hl, rfl⟩
    all_goals rfl
  | reserves id resources => exact hI.settled_reserves hsteps hc haccess
  | grants lease => exact hI.settled_grants hsteps haccess
  | takes id lease => exact hI.settled_takes hsteps haccess
  | frees reservation => exact hI.settled_frees hsteps haccess

theorem Exclusive.initial (cfg : Config) : Exclusive cfg (Arbiter.initial cfg : Arbiter PeerId) [] := by
  have hno : ∀ id : Uuid, (∅ : Ledger (ResourceLease PeerId)).lookup id = none := fun id => AList.lookup_empty id
  refine ⟨rfl, fun t ht => absurd ht List.not_mem_nil, fun x hx => absurd hx List.not_mem_nil, Nat.zero_le 1,
    (Safe.initial cfg).custody, fun _ => rfl, ?_, ?_, ?_⟩
  · intro i t _ ht
    cases ht
  · intro id lease hlease
    rw [show (Arbiter.initial cfg : Arbiter PeerId).manager.ledger.lookup id = none from hno id] at hlease
    cases hlease
  · intro i t _ ht
    cases ht

end Exclusive

/-- What holds when a lease is granted: its own reservation is the only live one, the ledger is empty, and the
reservations of the leases granted before have all been released, in the same order. -/
def GrantsAlone (e : ArbiterStep PeerId) (h : List (ArbiterStep PeerId)) : Prop :=
  ∀ lease, e.output.bind (fun effect => effect.access.granted?) = some lease →
    (∀ r, r ∈ e.pre.manager.reservations ↔ r = lease.leasable.reservation) ∧ (∀ id, id ∉ e.pre.manager.ledger) ∧
      leasedIn h = releasedIn h

theorem Exclusive.grantsAlone {h : List (ArbiterStep PeerId)} (hI : Exclusive cfg w h) {a : Happening PeerId}
    {effect : Effect PeerId} {tasks : List (Task PeerId)} (hsteps : Steps cfg w a effect tasks) :
    GrantsAlone (taken w a effect tasks) h := by
  intro lease hgranted
  have haccess : effect.access = .grants lease := by
    have hgranted : effect.access.granted? = some lease := hgranted
    unfold Access.granted? at hgranted
    split at hgranted
    · next l hl => rw [hl, Option.some.inj hgranted]
    · cases hgranted
  obtain ⟨i, r, t, t', spawned, -, ht, hruns, -⟩ := hsteps.runs_of_access (by rw [haccess]; simp)
  have hheld := (hruns.moves_of haccess).of_grants.1
  have hholder := holders_task ht hheld
  refine ⟨fun q => ⟨fun hq => ?_, ?_⟩, fun id hid => ?_, ?_⟩
  · obtain ⟨b, hb⟩ := (hI.custody.live_iff q).mp hq
    rw [hI.one_holder hb hholder, hholder] at hb
    exact (Option.some.inj hb).symm
  · rintro rfl
    exact hI.custody.mem_live hholder
  · obtain ⟨old, hold⟩ := Table.exists_lookup hid
    cases hI.one_holder (holders_lease hold) hholder
  · exact hI.settled.requested i t _ ht (hruns.isBatch_of_grants haccess) hheld

/-- **Whole-machine exclusivity.** With the whole machine on offer and something to offer, at most one reservation is
live at any time, and a lease is granted only when the reservations of all the leases before it have been released. -/
theorem whole_exclusive (cfg : Config) (happenings : List (Happening PeerId)) (hstrategy : cfg.offer.strategy = .whole)
    (hpositive : ∃ c, 0 < cfg.resources.get c) :
    (run cfg happenings).state.manager.reservations.entries.length ≤ 1 ∧
      Along GrantsAlone (run cfg happenings).history := by
  obtain ⟨c, hc⟩ := hpositive
  have hwhole : ∀ request, cfg.leaseResources request = cfg.resources := by
    intro request
    simp only [Config.leaseResources, hstrategy]
  have hrefuses : ∀ (w : Arbiter PeerId) h a, Exclusive cfg w h → w.step cfg a = none →
      Exclusive cfg w (refused w a :: h) ∧ GrantsAlone (refused w a) h := by
    intro w h a hI _
    have hsettled : Settled w (refused w a :: h) :=
      ⟨hI.settled.idle, hI.settled.requested, hI.settled.leased, hI.settled.removed⟩
    refine ⟨⟨hI.capacity, hI.asked, hI.whole, hI.single, hI.custody, hsettled⟩, fun lease hgranted => ?_⟩
    cases hgranted
  obtain ⟨hI, halong⟩ := run_rule (Exclusive cfg) (fun _ _ => True) GrantsAlone (Exclusive.initial cfg) hrefuses
    (fun w h a effect tasks hI hsteps _ => ⟨hI.step hsteps hwhole hc, hI.grantsAlone hsteps⟩) happenings (along_true _)
  exact ⟨hI.single, halong⟩

/-- Two requests pass the first check, one is served; its offer cannot be sent, the lease is removed and a third request
is served. -/
def oneByOne : List (Happening Nat) :=
  List.flatten [[.requests [(7, trainRequest { cpu := 1 })], .requests [(8, trainRequest { cpu := 1 })], .runs 0 {},
    .runs 1 {}, .runs 1 { uuid := 1 }, .runs 0 { uuid := 5 }, .runs 1 { uuid := 2 }, .runs 2 { ok := false }, .runs 2 {},
    .runs 2 {}], served 3 9 { cpu := 1 } 3 4 0]

theorem whole_exclusive_oneByOne :
    (smallWorker { cpu := 4 } .whole).offer.strategy = .whole ∧
      (∃ c, 0 < (smallWorker { cpu := 4 } .whole).resources.get c) ∧
      leasedIn (run (smallWorker { cpu := 4 } .whole) oneByOne).history = [3, 1] ∧
      (run (smallWorker { cpu := 4 } .whole) oneByOne).state.manager.reservations.entries.length ≤ 1 ∧
      Along GrantsAlone (run (smallWorker { cpu := 4 } .whole) oneByOne).history := by
  have hpositive : ∃ c, 0 < (smallWorker { cpu := 4 } .whole).resources.get c := ⟨.cpu, by decide +kernel⟩
  exact ⟨rfl, hpositive, by decide +kernel, whole_exclusive _ _ rfl hpositive⟩

end Hypha.Worker
