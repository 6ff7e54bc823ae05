import Hypha.Worker.Holding

/-!
# Ownership of leases

A lease belongs to the peer it was granted to. The owner is checked in one access to the ledger and the lease renewed in
another, and between the two the lease may be removed and others granted; since a lease id is not given out again the
lease that is renewed is still the one that was checked.

* `GrantedTo` : a lease of an id was granted to a peer, at some step of the history;
* `Owned` : the invariant: what is in the ledger was granted, and so was what is about to be renewed;
* `lease_ownership` : only the owner's renewals change a timeout, other peers are refused, and so are dispatches of peers
  without a lease.
-/

namespace Hypha.Worker

open Hypha.Lib

set_option linter.unusedSectionVars false

variable {PeerId : Type} [DecidableEq PeerId] {cfg : Config} {w : Arbiter PeerId} {h : List (ArbiterStep PeerId)}

/-- A lease of the id was granted to the peer. -/
def GrantedTo (h : List (ArbiterStep PeerId)) (id : Uuid) (peer : PeerId) : Prop :=
  ∃ lease ∈ grantedIn h, lease.id = id ∧ lease.leasable.peerId = peer

theorem mem_grantedIn_cons {e : ArbiterStep PeerId} {lease : WorkerLease PeerId} (hlease : lease ∈ grantedIn h) :
    lease ∈ grantedIn (e :: h) := by
  unfold grantedIn at hlease ⊢
  rw [List.filterMap_cons]
  split
  · exact hlease
  · exact List.mem_cons_of_mem _ hlease

theorem GrantedTo.cons {id : Uuid} {peer : PeerId} (hgranted : GrantedTo h id peer) (e : ArbiterStep PeerId) :
    GrantedTo (e :: h) id peer := by
  obtain ⟨lease, hlease, hid⟩ := hgranted
  exact ⟨lease, mem_grantedIn_cons hlease, hid⟩

/-- What is in the ledger was granted, ids are granted once, and what is about to be renewed was granted to who asks. -/
structure Owned (w : Arbiter PeerId) (h : List (ArbiterStep PeerId)) : Prop where
  ledger : ∀ id lease, w.manager.ledger.lookup id = some lease → GrantedTo h id lease.leasable.peerId
  renewing : ∀ peer id, Task.renewing peer id ∈ w.tasks → GrantedTo h id peer
  drawn : ∀ lease ∈ grantedIn h, lease.id ∈ w.manager.drawn
  unique : ∀ lease ∈ grantedIn h, ∀ lease' ∈ grantedIn h, lease.id = lease'.id → lease = lease'
  requested : ∀ peer id, Task.checking peer id ∈ w.tasks ∨ Task.renewing peer id ∈ w.tasks →
    ∃ e ∈ h, e.input = .renews peer id

theorem Owned.owner_unique (hI : Owned w h) {id : Uuid} {peer peer' : PeerId} (hgranted : GrantedTo h id peer)
    (hgranted' : GrantedTo h id peer') : peer = peer' := by
  obtain ⟨lease, hlease, hid, rfl⟩ := hgranted
  obtain ⟨lease', hlease', hid', rfl⟩ := hgranted'
  rw [hI.unique lease hlease lease' hlease' (hid.trans hid'.symm)]

theorem mem_grantedIn_taken {a : Happening PeerId} {effect : Effect PeerId} {tasks : List (Task PeerId)}
    {lease : WorkerLease PeerId} :
    lease ∈ grantedIn (taken w a effect tasks :: h) ↔ effect.access = .grants lease ∨ lease ∈ grantedIn h := by
  rw [grantedIn_taken, List.mem_append, Option.mem_toList]
  refine or_congr ?_ Iff.rfl
  cases effect.access <;> simp [Access.granted?]

theorem Owned.step {a : Happening PeerId} {effect : Effect PeerId} {tasks : List (Task PeerId)} (hI : Owned w h)
    (hsteps : Steps cfg w a effect tasks) (hfresh : Fresh (taken w a effect tasks)) :
    Owned ⟨effect.apply w.toShared, tasks⟩ (taken w a effect tasks :: h) := by
  have hmanager := effect.apply_manager w.toShared
  -- a lease that is granted has an id that has not been drawn before
  have hnew : ∀ lease, effect.access = .grants lease → lease.id ∉ w.manager.drawn := by
    intro lease haccess
    have hnodup : (effect.apply w.toShared).manager.drawn.Nodup := hfresh
    rw [hmanager, haccess] at hnodup
    exact (List.nodup_cons.mp hnodup).1
  have hkeep : ∀ {id : Uuid}, id ∈ w.manager.drawn → id ∈ (effect.apply w.toShared).manager.drawn := by
    intro id hid
    rw [hmanager]
    exact (effect.access.drawn_suffix w.manager).subset hid
  refine ⟨?_, ?_, ?_, ?_, ?_⟩
  · intro id lease hlease
    obtain ⟨i, held, hmove, -⟩ := hsteps.moves
    rw [hmanager] at hlease
    rcases hmove.lookup_cases hlease with hold | ⟨haccess, hid⟩ | ⟨old, timeout, -, hold, rfl⟩
    · exact (hI.ledger id lease hold).cons _
    · exact ⟨lease, mem_grantedIn_taken.mpr (Or.inl haccess), hid, rfl⟩
    · exact (hI.ledger id old hold).cons _
  · intro peer id hu
    apply GrantedTo.cons
    rcases hsteps.mem_cases hu with hold | ⟨i, r, t, spawned, -, ht, hruns⟩ | hbegins
    · exact hI.renewing peer id hold
    · cases hruns.precedes rfl with
      | checksOwner peer id lease hlease howner => exact howner ▸ hI.ledger id lease hlease
    · cases hbegins.serving rfl
  · intro lease hlease
    rcases mem_grantedIn_taken.mp hlease with haccess | hold
    · show lease.id ∈ (effect.apply w.toShared).manager.drawn
      rw [hmanager, haccess]
      exact List.mem_cons_self
    · exact hkeep (hI.drawn lease hold)
  · intro lease hlease lease' hlease' hid
    rcases mem_grantedIn_taken.mp hlease with haccess | hold
    · rcases mem_grantedIn_taken.mp hlease' with haccess' | hold'
      · exact Access.grants.inj (haccess.symm.trans haccess')
      · exact absurd (hid ▸ hI.drawn lease' hold') (hnew lease haccess)
    · rcases mem_grantedIn_taken.mp hlease' with haccess' | hold'
      · exact absurd (hid ▸ hI.drawn lease hold) (hnew lease' haccess')
      · exact hI.unique lease hold lease' hold' hid
  · rintro peer id (hu | hu)
    · rcases hsteps.mem_cases hu with hold | ⟨i, r, t, spawned, -, ht, hruns⟩ | hbegins
      · obtain ⟨e, he, hinput⟩ := hI.requested peer id (Or.inl hold)
        exact ⟨e, List.mem_cons_of_mem _ he, hinput⟩
      · cases hruns.precedes rfl
      · cases hbegins.serving rfl with
        | renewal => exact ⟨_, List.mem_cons_self, rfl⟩
    · have hearlier : ∃ e ∈ h, e.input = .renews peer id := by
        rcases hsteps.mem_cases hu with hold | ⟨i, r, t, spawned, -, ht, hruns⟩ | hbegins
        · exact hI.requested peer id (Or.inr hold)
        · cases hruns.precedes rfl with
          | checksOwner => exact hI.requested peer id (Or.inl (List.mem_of_getElem? ht))
        · cases hbegins.serving rfl
      obtain ⟨e, he, hinput⟩ := hearlier
      exact ⟨e, List.mem_cons_of_mem _ he, hinput⟩

theorem Owned.initial (cfg : Config) : Owned (Arbiter.initial cfg : Arbiter PeerId) [] := by
  refine ⟨fun id lease hlease => ?_, fun _ _ ht => ?_, fun _ hl => ?_, fun _ hl => ?_, fun _ _ ht => ?_⟩
  · cases (AList.lookup_empty id).symm.trans hlease
  · cases ht
  · cases hl
  · cases hl
  · rcases ht with ht | ht <;> cases ht

/-- If a timeout changes in a step, it is renewed by the handler of a request that the owner has sent, the one peer that
the lease was granted to. -/
def RenewedByOwner (e : ArbiterStep PeerId) (h : List (ArbiterStep PeerId)) : Prop :=
  ∀ id lease lease', e.pre.manager.ledger.lookup id = some lease → e.post.manager.ledger.lookup id = some lease' →
    lease'.timeout ≠ lease.timeout →
    (∀ peer, GrantedTo h id peer ↔ peer = lease.leasable.peerId) ∧
      (∃ i r, e.input = .runs i r ∧ e.pre.tasks[i]? = some (.renewing lease.leasable.peerId id)) ∧
      ∃ e' ∈ h, e'.input = .renews lease.leasable.peerId id

/-- The handler of a renewal that a peer has sent for a lease that was not granted to it changes neither the ledger nor
the reservations and answers that it is forbidden or not found. -/
def StrangersRefused (e : ArbiterStep PeerId) (h : List (ArbiterStep PeerId)) : Prop :=
  ∀ i r peer id, e.input = .runs i r →
    e.pre.tasks[i]? = some (.checking peer id) ∨ e.pre.tasks[i]? = some (.renewing peer id) → ¬ GrantedTo h id peer →
    e.post.manager = e.pre.manager ∧
      (e.post.tasks[i]? = some (.ended (some (.renewLease .forbidden))) ∨
        e.post.tasks[i]? = some (.ended (some (.renewLease .notFound))))

/-- The handler of a dispatch from a peer that has no lease when it looks for one answers that it has failed, and no job
is started or recorded. -/
def LeaselessRefused (e : ArbiterStep PeerId) : Prop :=
  ∀ i r peer id spec, e.input = .runs i r → e.pre.tasks[i]? = some (.looking peer id spec) →
    (∀ key lease, e.pre.manager.ledger.lookup key = some lease → lease.leasable.peerId ≠ peer) →
    e.post.jobs = e.pre.jobs ∧ e.post.tasks[i]? = some (.ended (some (.dispatchJob .failed)))

section Taken
variable {a : Happening PeerId} {effect : Effect PeerId} {tasks : List (Task PeerId)}

theorem Owned.renewedByOwner (hI : Owned w h) (hsafe : Safe w) (hsteps : Steps cfg w a effect tasks)
    (hfresh : Fresh (taken w a effect tasks)) : RenewedByOwner (taken w a effect tasks) h := by
  intro id lease lease' hlease hlease' hne
  have hpost : (effect.apply w.toShared).manager.ledger.lookup id = some lease' := hlease'
  rw [Effect.apply_manager] at hpost
  have howner : ∀ peer, GrantedTo h id peer ↔ peer = lease.leasable.peerId := by
    refine fun peer => ⟨fun hgranted => hI.owner_unique hgranted (hI.ledger id lease hlease), ?_⟩
    rintro rfl
    exact hI.ledger id lease hlease
  obtain ⟨j, held, hmove, -⟩ := hsteps.moves
  rcases hmove.lookup_cases hpost with hold | ⟨haccess, hid⟩ | ⟨old, timeout, haccess, hold, -⟩
  · cases hlease.symm.trans hold
    exact absurd rfl hne
  · have hnodup : (effect.apply w.toShared).manager.drawn.Nodup := hfresh
    rw [Effect.apply_manager, haccess] at hnodup
    have hdrawn := hsafe.keyed.leases id (Table.mem_of_lookup hlease)
    exact absurd (hid ▸ hdrawn) (List.nodup_cons.mp hnodup).1
  · obtain ⟨i, r, t, t', spawned, rfl, ht, hruns, -⟩ := hsteps.runs_of_access (by rw [haccess]; simp)
    have hrenewing : ∃ peer, t = .renewing peer id := by
      cases hruns with
      | renews peer k l hl =>
        cases haccess
        exact ⟨peer, rfl⟩
      | _ => cases haccess
    obtain ⟨peer, rfl⟩ := hrenewing
    have hmem := List.mem_of_getElem? ht
    have hpeer := (howner peer).mp (hI.renewing peer id hmem)
    subst hpeer
    exact ⟨howner, ⟨i, r, rfl, ht⟩, hI.requested _ id (Or.inr hmem)⟩

theorem Owned.strangersRefused (hI : Owned w h) (hsteps : Steps cfg w a effect tasks) :
    StrangersRefused (taken w a effect tasks) h := by
  rintro i r peer id rfl htask hstranger
  have htask : w.tasks[i]? = some (.checking peer id) ∨ w.tasks[i]? = some (.renewing peer id) := htask
  cases hsteps with
  | runs i r t t' effect spawned ht hruns =>
    rcases htask with hchecking | hrenewing
    · obtain rfl := Option.some.inj (ht.symm.trans hchecking)
      cases hruns with
      | checksOwner peer id lease hlease howner => exact absurd (howner ▸ hI.ledger id lease hlease) hstranger
      | checksOther peer id lease hlease howner => exact ⟨rfl, Or.inl (getElem?_ran ht)⟩
      | checksMissing peer id hlease => exact ⟨rfl, Or.inr (getElem?_ran ht)⟩
    · exact absurd (hI.renewing peer id (List.mem_of_getElem? hrenewing)) hstranger

theorem leaselessRefused (hsteps : Steps cfg w a effect tasks) : LeaselessRefused (taken w a effect tasks) := by
  rintro i r peer id spec rfl htask hnone
  have htask : w.tasks[i]? = some (.looking peer id spec) := htask
  cases hsteps with
  | runs i r t t' effect spawned ht hruns =>
    obtain rfl := Option.some.inj (ht.symm.trans htask)
    cases hruns with
    | looksUp peer id spec key lease hlease howner => exact absurd howner (hnone key lease hlease)
    | rejects peer id spec => exact ⟨rfl, getElem?_ran ht⟩

end Taken

/-- Ownership, as it is respected by a step. -/
def RespectsOwners (e : ArbiterStep PeerId) (h : List (ArbiterStep PeerId)) : Prop :=
  RenewedByOwner e h ∧ StrangersRefused e h ∧ LeaselessRefused e

theorem refused_respectsOwners {a : Happening PeerId} (hnone : w.step cfg a = none) :
    RespectsOwners (refused w a) h := by
  refine ⟨fun id lease lease' hlease hlease' hne => ?_, ?_, ?_⟩
  · cases hlease.symm.trans hlease'
    exact absurd rfl hne
  · rintro i r peer id rfl htask -
    rcases htask with htask | htask
    · exact absurd hnone (step_ne_none htask (isSome_run_renewal (Or.inl rfl)))
    · exact absurd hnone (step_ne_none htask (isSome_run_renewal (Or.inr rfl)))
  · rintro i r peer id spec rfl htask -
    exact absurd hnone (step_ne_none htask (isSome_run_looking peer id spec))

theorem Owned.cons_refused (hI : Owned w h) (a : Happening PeerId) : Owned w (refused w a :: h) := by
  refine ⟨hI.ledger, hI.renewing, hI.drawn, hI.unique, fun peer id ht => ?_⟩
  obtain ⟨e, he, hinput⟩ := hI.requested peer id ht
  exact ⟨e, List.mem_cons_of_mem _ he, hinput⟩

/-- **Lease ownership.** If no UUID is drawn twice, then in every step of a run a timeout changes only by a renewal that
the owner has sent, a renewal of any other peer is forbidden or not found and changes neither the ledger nor the
reservations, and a dispatch of a peer without a lease fails and starts and records no job. -/
theorem lease_ownership (cfg : Config) (happenings : List (Happening PeerId))
    (hfresh : (run cfg happenings).state.manager.drawn.Nodup) :
    Along RespectsOwners (run cfg happenings).history := by
  refine (run_rule (fun w h => Safe w ∧ Owned w h) (fun e _ => Fresh e) RespectsOwners
    ⟨Safe.initial cfg, Owned.initial cfg⟩ ?_ ?_ happenings (along_fresh happenings hfresh)).2
  · rintro w h a ⟨hsafe, hI⟩ hnone
    exact ⟨⟨hsafe, hI.cons_refused a⟩, refused_respectsOwners hnone⟩
  · rintro w h a effect tasks ⟨hsafe, hI⟩ hsteps hc
    exact ⟨⟨hsafe.step hsteps hc, hI.step hsteps hc⟩, hI.renewedByOwner hsafe hsteps hc, hI.strangersRefused hsteps,
      leaselessRefused hsteps⟩

/-- Peer 8 tries to renew the lease of peer 7 and to dispatch a job, then peer 7 renews it. -/
def strangerAndOwner : List (Happening Nat) :=
  List.flatten [served 0 7 { cpu := 1 } 1 2 0, [.renews 8 2, .runs 2 {}, .dispatches 8 5 ⟨5, .train "train"⟩, .runs 3 {},
    .renews 7 2, .runs 4 {}, .runs 4 { now := 3 }]]

theorem lease_ownership_strangerAndOwner :
    (run fourCores strangerAndOwner).state.manager.drawn.Nodup ∧
      Along RespectsOwners (run fourCores strangerAndOwner).history := by
  have hfresh : (run fourCores strangerAndOwner).state.manager.drawn.Nodup := by decide +kernel
  exact ⟨hfresh, lease_ownership _ _ hfresh⟩

end Hypha.Worker
