import Hypha.Messages
import Hypha.Lib.Custody
import Hypha.Lib.Table
import Hypha.Worker.Resources

/-!
# The lease manager

`hypha-leases` and the worker's `lease_manager` and `resources`. A call runs in stretches: it waits for a lock, reads or
writes one of the two maps under it, and goes on to the next lock. So a stretch makes at most one write, its `Access`,
and other calls may run between two stretches.

* `ResourceLeaseManager` : the ledger and the reservations, which all the clones share;
* `Access`, `Access.apply` : what a stretch writes;
* `Requesting.run`, `Removing.run`, `Proceeding.run` : one stretch of `request`, `remove` and `proceed`;
* `Moves` : how an access moves a reservation between the hands of a call and the ledger;
* `custody_moves` : a move keeps every reservation in the hands of one lease or call.
-/

namespace Hypha.Worker

open Hypha.Lib

variable {PeerId : Type}

/-- `Lease` of `hypha-leases`. -/
structure Lease (T : Type) where
  id : Uuid
  leasable : T
  timeout : SystemTime
  deriving DecidableEq

inductive LedgerError where
  | leaseNotFound (id : Uuid)
  deriving DecidableEq

inductive ResourceManagerError where
  | insufficientResources
  | unknownReservation
  deriving DecidableEq

inductive LeaseError where
  | resourcesReservation (error : ResourceManagerError)
  | ledger (error : LedgerError)
  deriving DecidableEq

structure ResourceLease (PeerId : Type) where
  peerId : PeerId
  reservation : Uuid
  deriving DecidableEq

/-- A lease of the worker. -/
abbrev WorkerLease (PeerId : Type) := Lease (ResourceLease PeerId)

namespace Lease

/-- `is_expired`. -/
def isExpired {T : Type} (lease : Lease T) (now : SystemTime) : Bool := decide (lease.timeout ≤ now)

end Lease

/-- `Ledger`. -/
abbrev Ledger (T : Type) := Table Uuid (Lease T)

namespace Ledger

variable {T : Type} (ledger : Ledger T)

/-- `get`. -/
def get (id : Uuid) : Except LedgerError (Lease T) :=
  match ledger.lookup id with
  | some lease => .ok lease
  | none => .error (.leaseNotFound id)

/-- `list`. -/
def list (rank : Uuid → Nat) : List (Lease T) := Table.values rank ledger

/-- `list_expired`. -/
def listExpired (rank : Uuid → Nat) (now : SystemTime) : List (Lease T) :=
  (Table.values rank ledger).filter fun lease => decide (lease.timeout ≤ now)

end Ledger

/-- What a stretch reads from its surroundings: the clock, a new UUID, and the order in which a hash map lists its
values. -/
structure Reading where
  now : SystemTime := 0
  uuid : Uuid := 0
  rank : Uuid → Nat := fun _ => 0

/-- The state of a `ResourceLeaseManager` over a `StaticResourceManager`, and the UUIDs drawn for it. -/
structure ResourceLeaseManager (PeerId : Type) where
  computeResources : Resources
  reservations : Table Uuid Resources := ∅
  ledger : Ledger (ResourceLease PeerId) := ∅
  drawn : List Uuid := []

/-- What a stretch writes: nothing, a new reservation, a new lease, a new timeout, a lease or a reservation removed. -/
inductive Access (PeerId : Type) where
  | reads
  | reserves (id : Uuid) (resources : Resources)
  | grants (lease : WorkerLease PeerId)
  | renews (id : Uuid) (lease : WorkerLease PeerId)
  | takes (id : Uuid) (lease : WorkerLease PeerId)
  | frees (reservation : Uuid)
  deriving DecidableEq

namespace Access

/-- The state after the write. -/
def apply (m : ResourceLeaseManager PeerId) : Access PeerId → ResourceLeaseManager PeerId
  | .reads => m
  | .reserves id resources => { m with reservations := m.reservations.insert id resources, drawn := id :: m.drawn }
  | .grants lease => { m with ledger := m.ledger.insert lease.id lease, drawn := lease.id :: m.drawn }
  | .renews id lease => { m with ledger := m.ledger.insert id lease }
  | .takes id _ => { m with ledger := m.ledger.erase id }
  | .frees reservation => { m with reservations := m.reservations.erase reservation }

/-- The reservation that is released. -/
def freed? : Access PeerId → Option Uuid
  | .frees reservation => some reservation
  | _ => none

/-- The lease that is granted. -/
def granted? : Access PeerId → Option (WorkerLease PeerId)
  | .grants lease => some lease
  | _ => none

end Access

/-- A call goes on waiting, or it returns. -/
inductive Progress (κ α : Type) where
  | suspends (point : κ)
  | returns (result : α)

/-- What the caller makes of the progress of a call. -/
def Progress.elim {κ α τ : Type} (suspended : κ → τ) (returned : α → τ) : Progress κ α → τ
  | .suspends point => suspended point
  | .returns result => returned result

namespace ResourceLeaseManager

variable (m : ResourceLeaseManager PeerId)

/-- `compute_resources`: what is not reserved. -/
def available : Resources := m.computeResources - Resources.sum (m.reservations.entries.map Sigma.snd)

/-- The result of `release`. -/
def release (id : Uuid) : Except ResourceManagerError Resources :=
  match m.reservations.lookup id with
  | some resources => .ok resources
  | none => .error .unknownReservation

/-- `get`. -/
def get (id : Uuid) : Except LeaseError (WorkerLease PeerId) := (m.ledger.get id).mapError .ledger

/-- `get_by_peer`: the first lease of the peer, in the order of the hash map. -/
def getByPeer [DecidableEq PeerId] (r : Reading) (peer : PeerId) : Except LeaseError (WorkerLease PeerId) :=
  match (m.ledger.list r.rank).find? fun lease => decide (lease.leasable.peerId = peer) with
  | some lease => .ok lease
  | none => .error (.ledger (.leaseNotFound r.uuid))

/-- `renew`. -/
def renew (r : Reading) (id : Uuid) (duration : Duration) : Access PeerId × Except LeaseError (WorkerLease PeerId) :=
  match m.ledger.lookup id with
  | some lease =>
    let lease := { lease with timeout := r.now + duration }
    (.renews id lease, .ok lease)
  | none => (.reads, .error (.ledger (.leaseNotFound id)))

end ResourceLeaseManager

/-- Where a `request` waits: for the resources to compare, for them to write, for the ledger. -/
inductive Requesting (PeerId : Type) where
  | reserve (peer : PeerId) (resources : Resources) (duration : Duration)
  | reserveWrite (peer : PeerId) (resources : Resources) (duration : Duration)
  | insert (peer : PeerId) (reservation : Uuid) (duration : Duration)
  deriving DecidableEq

/-- Where a `remove` waits: for the ledger, then for the resources. -/
inductive Removing (PeerId : Type) where
  | taking (id : Uuid)
  | releasing (lease : WorkerLease PeerId)
  deriving DecidableEq

/-- Where a `proceed` waits: for the ledger to list, or in the removal of a lease. -/
inductive Proceeding (PeerId : Type) where
  | listing
  | removing (point : Removing PeerId) (rest removed : List (WorkerLease PeerId))
  deriving DecidableEq

section Run
variable (m : ResourceLeaseManager PeerId) (r : Reading)

/-- One stretch of `request`. -/
def Requesting.run :
    Requesting PeerId → Access PeerId × Progress (Requesting PeerId) (Except LeaseError (WorkerLease PeerId))
  | .reserve peer resources duration =>
    if m.available.ge resources then (.reads, .suspends (.reserveWrite peer resources duration))
    else (.reads, .returns (.error (.resourcesReservation .insufficientResources)))
  | .reserveWrite peer resources duration =>
    if m.available.ge resources then (.reserves r.uuid resources, .suspends (.insert peer r.uuid duration))
    else (.reads, .returns (.error (.resourcesReservation .insufficientResources)))
  | .insert peer reservation duration =>
    let lease : WorkerLease PeerId := ⟨r.uuid, ⟨peer, reservation⟩, r.now + duration⟩
    (.grants lease, .returns (.ok lease))

/-- One stretch of `remove`. -/
def Removing.run :
    Removing PeerId → Access PeerId × Progress (Removing PeerId) (Except LeaseError (WorkerLease PeerId))
  | .taking id =>
    match m.ledger.lookup id with
    | some lease => (.takes id lease, .suspends (.releasing lease))
    | none => (.reads, .returns (.error (.ledger (.leaseNotFound id))))
  | .releasing lease =>
    match m.release lease.leasable.reservation with
    | .ok _ => (.frees lease.leasable.reservation, .returns (.ok lease))
    | .error e => (.frees lease.leasable.reservation, .returns (.error (.resourcesReservation e)))

/-- The loop of `proceed` over the expired leases. -/
def Proceeding.next (removed : List (WorkerLease PeerId)) :
    List (WorkerLease PeerId) → Progress (Proceeding PeerId) (Except LeaseError (List (WorkerLease PeerId)))
  | [] => .returns (.ok removed)
  | lease :: rest => .suspends (.removing (.taking lease.id) rest removed)

/-- One stretch of `proceed`. -/
def Proceeding.run :
    Proceeding PeerId → Access PeerId × Progress (Proceeding PeerId) (Except LeaseError (List (WorkerLease PeerId)))
  | .listing => (.reads, next [] (m.ledger.listExpired r.rank r.now))
  | .removing point rest removed =>
    match point.run m with
    | (access, .suspends point) => (access, .suspends (.removing point rest removed))
    | (access, .returns (.ok lease)) => (access, next (removed ++ [lease]) rest)
    -- a lease that is gone by now is passed over
    | (access, .returns (.error (.ledger (.leaseNotFound _)))) => (access, next removed rest)
    | (access, .returns (.error e)) => (access, .returns (.error e))

end Run

/-! ## Reservations change hands -/

/-- The reservation that a call has in its hands. -/
def Requesting.held : Requesting PeerId → Option Uuid
  | .insert _ reservation _ => some reservation
  | _ => none

def Removing.held : Removing PeerId → Option Uuid
  | .releasing lease => some lease.leasable.reservation
  | _ => none

def Proceeding.held : Proceeding PeerId → Option Uuid
  | .removing point _ _ => point.held
  | .listing => none

/-- A call that has returned has nothing in its hands. -/
def Progress.held {κ α : Type} (held : κ → Option Uuid) : Progress κ α → Option Uuid
  | .suspends point => held point
  | .returns _ => none

theorem Progress.held_elim {κ α τ : Type} (held : κ → Option Uuid) (taskHeld : τ → Option Uuid) {suspended : κ → τ}
    {returned : α → τ} (hsuspended : ∀ k, taskHeld (suspended k) = held k) (hreturned : ∀ a, taskHeld (returned a) = none)
    (progress : Progress κ α) : taskHeld (progress.elim suspended returned) = progress.held held := by
  cases progress with
  | suspends point => exact hsuspended point
  | returns result => exact hreturned result

/-- How an access changes the reservation in the hands of the call that makes it. -/
inductive Moves (m : ResourceLeaseManager PeerId) : Option Uuid → Access PeerId → Option Uuid → Prop where
  | reads : Moves m none .reads none
  | reserves (id : Uuid) (resources : Resources) (hfits : m.available.ge resources = true) :
      Moves m none (.reserves id resources) (some id)
  | grants (lease : WorkerLease PeerId) : Moves m (some lease.leasable.reservation) (.grants lease) none
  | renews (id : Uuid) (lease : WorkerLease PeerId) (timeout : SystemTime) (hlease : m.ledger.lookup id = some lease) :
      Moves m none (.renews id { lease with timeout := timeout }) none
  | takes (id : Uuid) (lease : WorkerLease PeerId) (hlease : m.ledger.lookup id = some lease) :
      Moves m none (.takes id lease) (some lease.leasable.reservation)
  | frees (reservation : Uuid) : Moves m (some reservation) (.frees reservation) none

namespace Moves

variable {m : ResourceLeaseManager PeerId} {before after : Option Uuid} {id : Uuid} {lease : WorkerLease PeerId}

theorem of_reads (h : Moves m before .reads after) : before = none ∧ after = none := by
  cases h
  exact ⟨rfl, rfl⟩

theorem of_grants (h : Moves m before (.grants lease) after) :
    before = some lease.leasable.reservation ∧ after = none := by
  cases h
  exact ⟨rfl, rfl⟩

theorem of_renews (h : Moves m before (.renews id lease) after) :
    before = none ∧ after = none ∧
      ∃ old timeout, m.ledger.lookup id = some old ∧ lease = { old with timeout := timeout } := by
  cases h with
  | renews _ old timeout hold => exact ⟨rfl, rfl, old, timeout, hold, rfl⟩

theorem of_takes (h : Moves m before (.takes id lease) after) :
    before = none ∧ after = some lease.leasable.reservation ∧ m.ledger.lookup id = some lease := by
  cases h with
  | takes _ _ hlease => exact ⟨rfl, rfl, hlease⟩

theorem of_frees (h : Moves m before (.frees id) after) : before = some id ∧ after = none := by
  cases h
  exact ⟨rfl, rfl⟩

/-- **What a move does to the ledger**: what is found was there, has just been granted, or has got a new timeout. -/
theorem lookup_cases {a : Access PeerId} (h : Moves m before a after)
    (hlease : (a.apply m).ledger.lookup id = some lease) :
    m.ledger.lookup id = some lease ∨ (a = .grants lease ∧ lease.id = id) ∨
      ∃ old timeout, a = .renews id lease ∧ m.ledger.lookup id = some old ∧ lease = { old with timeout := timeout } := by
  cases h with
  | grants l =>
    rcases Table.lookup_insert_iff.mp hlease with ⟨rfl, rfl⟩ | ⟨-, hold⟩
    · exact Or.inr (Or.inl ⟨rfl, rfl⟩)
    · exact Or.inl hold
  | renews k old timeout hold =>
    rcases Table.lookup_insert_iff.mp hlease with ⟨rfl, rfl⟩ | ⟨-, hsame⟩
    · exact Or.inr (Or.inr ⟨old, timeout, rfl, hold, rfl⟩)
    · exact Or.inl hsame
  | takes k l hl => exact Or.inl (Table.lookup_erase_iff.mp hlease).2
  | _ => exact Or.inl hlease

end Moves

section Lookup
variable {m : ResourceLeaseManager PeerId} {r : Reading} {id : Uuid} {lease : WorkerLease PeerId}

theorem Ledger.mem_listExpired {rank : Uuid → Nat} {now : SystemTime} :
    lease ∈ m.ledger.listExpired rank now ↔ (∃ id, m.ledger.lookup id = some lease) ∧ lease.timeout ≤ now := by
  unfold Ledger.listExpired
  rw [List.mem_filter, Table.mem_values, decide_eq_true_iff]

theorem ResourceLeaseManager.get_of_lookup (h : m.ledger.lookup id = some lease) : m.get id = .ok lease := by
  simp [ResourceLeaseManager.get, Ledger.get, h, Except.mapError]

theorem ResourceLeaseManager.get_of_none (h : m.ledger.lookup id = none) :
    m.get id = .error (.ledger (.leaseNotFound id)) := by
  simp [ResourceLeaseManager.get, Ledger.get, h, Except.mapError]

variable [DecidableEq PeerId] {peer : PeerId}

/-- `get_by_peer` finds a lease of the peer. -/
theorem ResourceLeaseManager.lookup_of_getByPeer (h : m.getByPeer r peer = .ok lease) :
    (∃ id, m.ledger.lookup id = some lease) ∧ lease.leasable.peerId = peer := by
  unfold getByPeer at h
  split at h
  · next found hfound =>
    obtain rfl := Except.ok.inj h
    have hpeer := List.find?_some hfound
    exact ⟨Table.mem_values.mp (List.mem_of_find?_eq_some hfound), of_decide_eq_true hpeer⟩
  · cases h

end Lookup

section Spec
variable (m : ResourceLeaseManager PeerId) (r : Reading)

theorem Requesting.run_moves (k : Requesting PeerId) :
    Moves m k.held (k.run m r).1 ((k.run m r).2.held Requesting.held) := by
  cases k with
  | reserve peer resources duration =>
    simp only [Requesting.run]
    split_ifs <;> exact .reads
  | reserveWrite peer resources duration =>
    simp only [Requesting.run]
    split_ifs with hfits
    · exact .reserves r.uuid resources hfits
    · exact .reads
  | insert peer reservation duration => exact .grants ⟨r.uuid, ⟨peer, reservation⟩, r.now + duration⟩

theorem Removing.run_moves (k : Removing PeerId) : Moves m k.held (k.run m).1 ((k.run m).2.held Removing.held) := by
  cases k with
  | taking id =>
    simp only [Removing.run]
    split
    · next lease hlease => exact .takes id lease hlease
    · exact .reads
  | releasing lease =>
    simp only [Removing.run]
    split <;> exact .frees lease.leasable.reservation

theorem Proceeding.next_held (removed rest : List (WorkerLease PeerId)) :
    (Proceeding.next removed rest).held Proceeding.held = none := by
  cases rest <;> rfl

/-- A stretch of `proceed` makes the access of the removal it is in. -/
theorem Proceeding.run_removing (point : Removing PeerId) (rest removed : List (WorkerLease PeerId)) :
    ((Proceeding.removing point rest removed).run m r).1 = (point.run m).1 ∧
      ((Proceeding.removing point rest removed).run m r).2.held Proceeding.held = (point.run m).2.held Removing.held := by
  rcases hrun : point.run m with ⟨access, point' | result⟩
  · simp only [Proceeding.run, hrun]
    exact ⟨trivial, rfl⟩
  · match result with
    | .ok lease =>
      simp only [Proceeding.run, hrun]
      exact ⟨trivial, Proceeding.next_held (removed ++ [lease]) rest⟩
    | .error (.ledger (.leaseNotFound id)) =>
      simp only [Proceeding.run, hrun]
      exact ⟨trivial, Proceeding.next_held removed rest⟩
    | .error (.resourcesReservation e) =>
      simp only [Proceeding.run, hrun]
      exact ⟨trivial, rfl⟩

theorem Proceeding.run_moves (k : Proceeding PeerId) :
    Moves m k.held (k.run m r).1 ((k.run m r).2.held Proceeding.held) := by
  cases k with
  | listing =>
    have hidle := Proceeding.next_held [] (m.ledger.listExpired r.rank r.now)
    simp only [Proceeding.run, hidle]
    exact .reads
  | removing point rest removed =>
    obtain ⟨haccess, hheld⟩ := Proceeding.run_removing m r point rest removed
    rw [haccess, hheld]
    exact Removing.run_moves m point

theorem ResourceLeaseManager.renew_moves (id : Uuid) (duration : Duration) :
    Moves m none (m.renew r id duration).1 none := by
  simp only [ResourceLeaseManager.renew]
  split
  · next lease hlease => exact .renews id lease (r.now + duration) hlease
  · exact .reads

end Spec

section Hands
variable {τ : Type} (held : τ → Option Uuid)

/-- The reservations in the hands of the tasks of a list. -/
def handsOf (tasks : List τ) (i : Nat) : Option Uuid := tasks[i]?.bind held

theorem handsOf_eq {tasks : List τ} {i : Nat} {t : τ} (ht : tasks[i]? = some t) : handsOf held tasks i = held t := by
  simp [handsOf, ht]

theorem handsOf_nil : handsOf held [] = fun _ => none := by
  funext i
  simp [handsOf]

theorem handsOf_set {tasks : List τ} {i : Nat} {t t' : τ} (ht : tasks[i]? = some t) :
    handsOf held (tasks.set i t') = Function.update (handsOf held tasks) i (held t') := by
  have hlt := (List.getElem?_eq_some_iff.mp ht).1
  funext j
  by_cases hj : j = i
  · subst hj
    simp [handsOf, hlt]
  · simp [handsOf, hj, List.getElem?_set_ne (Ne.symm hj)]

/-- New tasks have nothing in their hands. -/
theorem handsOf_append {tasks spawned : List τ} (hidle : ∀ t ∈ spawned, held t = none) :
    handsOf held (tasks ++ spawned) = handsOf held tasks := by
  funext j
  by_cases hj : j < tasks.length
  · simp [handsOf, List.getElem?_append_left hj]
  · have hge : tasks.length ≤ j := by omega
    have hnone : tasks[j]? = none := List.getElem?_eq_none hge
    simp only [handsOf, List.getElem?_append_right hge, hnone, Option.bind_none]
    cases hget : spawned[j - tasks.length]? with
    | none => rfl
    | some t => exact hidle t (List.mem_of_getElem? hget)

end Hands

section Custody
variable {m : ResourceLeaseManager PeerId} {hands : Nat → Option Uuid} {i : Nat}

/-- Who may have a reservation: the leases of the ledger, by their ids, and the calls. -/
def holders (m : ResourceLeaseManager PeerId) (hands : Nat → Option Uuid) : Uuid ⊕ Nat → Option Uuid
  | .inl id => (m.ledger.lookup id).map fun lease => lease.leasable.reservation
  | .inr i => hands i

/-- Every reservation is in the hands of one lease or call. -/
abbrev InCustody (m : ResourceLeaseManager PeerId) (hands : Nat → Option Uuid) : Prop :=
  Custody (holders m hands) {r | r ∈ m.reservations}

/-- The UUID that an access draws is none of those it may be confused with. -/
def Access.Unused (m : ResourceLeaseManager PeerId) : Access PeerId → Prop
  | .reserves id _ => id ∉ m.reservations
  | .grants lease => lease.id ∉ m.ledger
  | _ => True

theorem holders_update (m : ResourceLeaseManager PeerId) (hands : Nat → Option Uuid) (i : Nat) (v : Option Uuid) :
    holders m (Function.update hands i v) = Function.update (holders m hands) (.inr i) v := by
  funext a
  cases a with
  | inl id => rfl
  | inr j =>
    by_cases hj : j = i
    · subst hj
      simp [holders]
    · simp [holders, hj]

theorem holders_insert (m : ResourceLeaseManager PeerId) (hands : Nat → Option Uuid) (id : Uuid)
    (lease : WorkerLease PeerId) :
    holders { m with ledger := m.ledger.insert id lease } hands =
      Function.update (holders m hands) (.inl id) (some lease.leasable.reservation) := by
  funext a
  cases a with
  | inl k =>
    by_cases hk : k = id
    · subst hk
      simp [holders]
    · simp [holders, hk, AList.lookup_insert_ne hk]
  | inr j => rfl

theorem holders_erase (m : ResourceLeaseManager PeerId) (hands : Nat → Option Uuid) (id : Uuid) :
    holders { m with ledger := m.ledger.erase id } hands = Function.update (holders m hands) (.inl id) none := by
  funext a
  cases a with
  | inl k =>
    by_cases hk : k = id
    · subst hk
      simp [holders]
    · simp [holders, hk, AList.lookup_erase_ne hk]
  | inr j => rfl

theorem InCustody.initial (resources : Resources) :
    InCustody ({ computeResources := resources } : ResourceLeaseManager PeerId) (fun _ => none) := by
  have hholders : holders ({ computeResources := resources } : ResourceLeaseManager PeerId) (fun _ => none) =
      fun _ => none := by
    funext a
    cases a <;> rfl
  have hlive : {r : Uuid | r ∈ (∅ : Table Uuid Resources)} = ∅ := by
    ext r
    simp
  show Custody _ {r : Uuid | r ∈ (∅ : Table Uuid Resources)}
  rw [hholders, hlive]
  exact Custody.empty

/-- **A move keeps custody.** -/
theorem custody_moves {a : Access PeerId} {held : Option Uuid} (h : InCustody m hands)
    (hmove : Moves m (hands i) a held) (hunused : a.Unused m) : InCustody (a.apply m) (Function.update hands i held) := by
  have hmine : holders m hands (.inr i) = hands i := rfl
  generalize hhands : hands i = before at hmove hmine
  cases hmove with
  | reads =>
    rw [← hhands, Function.update_eq_self]
    exact h
  | reserves id resources hfits =>
    have hnew := h.acquire hmine hunused
    rw [← holders_update] at hnew
    have hlive : {r | r ∈ m.reservations.insert id resources} = insert id {r | r ∈ m.reservations} := by
      ext r
      simp
    show Custody _ {r | r ∈ m.reservations.insert id resources}
    rw [hlive]
    exact hnew
  | grants lease =>
    have hfree : holders m hands (.inl lease.id) = none := by
      show (m.ledger.lookup lease.id).map _ = none
      rw [AList.lookup_eq_none.mpr hunused]
      rfl
    have hnew := h.transfer hmine hfree
    rw [← holders_update, ← holders_insert] at hnew
    exact hnew
  | renews id lease timeout hlease =>
    have hsame : holders m hands (.inl id) = some lease.leasable.reservation := by
      show (m.ledger.lookup id).map _ = _
      rw [hlease]
      rfl
    have hholders := holders_insert m hands id { lease with timeout := timeout }
    rw [← hsame, Function.update_eq_self] at hholders
    rw [← hhands, Function.update_eq_self]
    show Custody (holders { m with ledger := m.ledger.insert id { lease with timeout := timeout } } hands) _
    rw [hholders]
    exact h
  | takes id lease hlease =>
    have htheirs : holders m hands (.inl id) = some lease.leasable.reservation := by
      show (m.ledger.lookup id).map _ = _
      rw [hlease]
      rfl
    have hnew := h.transfer htheirs hmine
    rw [← holders_erase, ← holders_update] at hnew
    exact hnew
  | frees reservation =>
    have hnew := h.release hmine
    rw [← holders_update] at hnew
    have hlive : {r | r ∈ m.reservations.erase reservation} = {r | r ∈ m.reservations} \ {reservation} := by
      ext r
      simp [and_comm]
    show Custody _ {r | r ∈ m.reservations.erase reservation}
    rw [hlive]
    exact hnew

/-- In custody, what is in the hands of a call can be released. -/
theorem InCustody.release (h : InCustody m hands) {reservation : Uuid} (hmine : hands i = some reservation) :
    ∃ resources, m.release reservation = .ok resources := by
  have hholds : holders m hands (.inr i) = some reservation := hmine
  have hlive : reservation ∈ m.reservations := h.mem_live hholds
  obtain ⟨resources, hresources⟩ := Table.exists_lookup hlive
  refine ⟨resources, ?_⟩
  simp only [ResourceLeaseManager.release, hresources]

end Custody

/-! ## What has been drawn -/

/-- The ids in the maps have been drawn, and a lease is found under its id. -/
structure Keyed (m : ResourceLeaseManager PeerId) : Prop where
  reservations : ∀ r ∈ m.reservations, r ∈ m.drawn
  leases : ∀ id ∈ m.ledger, id ∈ m.drawn
  key : ∀ id lease, m.ledger.lookup id = some lease → lease.id = id

theorem Keyed.initial (resources : Resources) :
    Keyed ({ computeResources := resources } : ResourceLeaseManager PeerId) := by
  refine ⟨fun r hr => ?_, fun id hid => ?_, fun id lease h => ?_⟩
  · exact absurd hr (AList.notMem_empty r)
  · exact absurd hid (AList.notMem_empty id)
  · rw [AList.lookup_empty] at h
    cases h

theorem Keyed.apply {m : ResourceLeaseManager PeerId} {a : Access PeerId} {before after : Option Uuid} (h : Keyed m)
    (hmove : Moves m before a after) : Keyed (a.apply m) := by
  cases hmove with
  | reads => exact h
  | reserves id resources hfits =>
    refine ⟨fun r hr => ?_, fun k hk => List.mem_cons_of_mem _ (h.leases k hk), h.key⟩
    rcases (AList.mem_insert _).mp hr with rfl | hr
    · exact List.mem_cons_self
    · exact List.mem_cons_of_mem _ (h.reservations r hr)
  | grants lease =>
    refine ⟨fun r hr => List.mem_cons_of_mem _ (h.reservations r hr), fun k hk => ?_, fun k l hl => ?_⟩
    · rcases (AList.mem_insert _).mp hk with rfl | hk
      · exact List.mem_cons_self
      · exact List.mem_cons_of_mem _ (h.leases k hk)
    · rcases Table.lookup_insert_iff.mp hl with ⟨rfl, rfl⟩ | ⟨-, hl⟩
      · rfl
      · exact h.key k l hl
  | renews id lease timeout hlease =>
    refine ⟨h.reservations, fun k hk => ?_, fun k l hl => ?_⟩
    · rcases (AList.mem_insert _).mp hk with rfl | hk
      · exact h.leases k (Table.mem_of_lookup hlease)
      · exact h.leases k hk
    · rcases Table.lookup_insert_iff.mp hl with ⟨rfl, rfl⟩ | ⟨-, hl⟩
      · exact h.key k lease hlease
      · exact h.key k l hl
  | takes id lease hlease =>
    refine ⟨h.reservations, fun k hk => h.leases k (AList.mem_erase.mp hk).2, fun k l hl => ?_⟩
    exact h.key k l (Table.lookup_erase_iff.mp hl).2
  | frees reservation => exact ⟨fun r hr => h.reservations r (AList.mem_erase.mp hr).2, h.leases, h.key⟩

/-- A UUID drawn for the first time is none of those in the maps. -/
theorem Keyed.unused {m : ResourceLeaseManager PeerId} {a : Access PeerId} (h : Keyed m)
    (hfresh : (a.apply m).drawn.Nodup) : a.Unused m := by
  cases a with
  | reserves id resources => exact fun hid => (List.nodup_cons.mp hfresh).1 (h.reservations id hid)
  | grants lease => exact fun hid => (List.nodup_cons.mp hfresh).1 (h.leases lease.id hid)
  | _ => exact trivial

/-- UUIDs are drawn and never forgotten. -/
theorem Access.drawn_suffix (m : ResourceLeaseManager PeerId) (a : Access PeerId) : m.drawn <:+ (a.apply m).drawn := by
  cases a with
  | reserves id resources => exact List.suffix_cons id m.drawn
  | grants lease => exact List.suffix_cons lease.id m.drawn
  | _ => exact List.suffix_rfl

/-- A lease stays in the ledger until it is taken out. -/
theorem Access.mem_ledger {m : ResourceLeaseManager PeerId} {id : Uuid} (a : Access PeerId) (h : id ∈ m.ledger) :
    id ∈ (a.apply m).ledger ∨ ∃ lease, a = .takes id lease := by
  cases a with
  | grants lease => exact Or.inl ((AList.mem_insert m.ledger).mpr (Or.inr h))
  | renews key lease => exact Or.inl ((AList.mem_insert m.ledger).mpr (Or.inr h))
  | takes key lease =>
    by_cases hkey : id = key
    · subst hkey
      exact Or.inr ⟨lease, rfl⟩
    · exact Or.inl (AList.mem_erase.mpr ⟨hkey, h⟩)
  | _ => exact Or.inl h

end Hypha.Worker
