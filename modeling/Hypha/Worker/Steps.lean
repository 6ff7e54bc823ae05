import Hypha.Worker.Arbiter

/-!
# What the arbiter may do

The stretches of the handlers and the steps of the worker, each once and with everything that is known of it.

* `Runs`, `runs_of_run` : what a stretch may do;
* `Steps`, `steps_of_step`, `arbiter_event` : what may happen and what it leads to;
* `Begins`, `Arrives`, `Steps.task_cases`, `Steps.goes_on` : where the tasks are after a step.
-/

namespace Hypha.Worker

open Hypha.Lib

set_option linter.unusedSectionVars false

variable {PeerId : Type}

/-- The loop of `proceed` over the leases it has listed, and what follows it. -/
def nextExpired (removed : List (WorkerLease PeerId)) : List (WorkerLease PeerId) → Task PeerId
  | [] => nextLease removed
  | lease :: rest => .pruning (.proceeding (.removing (.taking lease.id) rest removed))

theorem afterProceed_next (removed rest : List (WorkerLease PeerId)) :
    afterProceed (Proceeding.next removed rest) = nextExpired removed rest := by
  cases rest <;> rfl

section Inversion
variable [DecidableEq PeerId] {cfg : Config} {s : Shared PeerId} {r : Moment}

/-- **What a stretch may do**: the task before, what it writes, the task after and the tasks it spawns. -/
inductive Runs (cfg : Config) (s : Shared PeerId) (r : Moment) :
    Task PeerId → Effect PeerId → Task PeerId → List (Task PeerId) → Prop where
  | compares (peer : PeerId) (request : WorkerRequest) (rest : List (PeerId × WorkerRequest)) (owner : PeerId)
      (resources : Resources) (duration : Duration) (hfits : s.manager.available.ge resources = true) :
      Runs cfg s r (.batch peer request rest (.reserve owner resources duration)) (.lease .reads)
        (.batch peer request rest (.reserveWrite owner resources duration)) []
  | declines (peer : PeerId) (request : WorkerRequest) (rest : List (PeerId × WorkerRequest)) (point : Requesting PeerId)
      (hheld : point.held = none) :
      Runs cfg s r (.batch peer request rest point) (.lease .reads) (nextRequest cfg rest) []
  | reserves (peer : PeerId) (request : WorkerRequest) (rest : List (PeerId × WorkerRequest)) (owner : PeerId)
      (resources : Resources) (duration : Duration) (hfits : s.manager.available.ge resources = true) :
      Runs cfg s r (.batch peer request rest (.reserveWrite owner resources duration))
        (.lease (.reserves r.uuid resources)) (.batch peer request rest (.insert owner r.uuid duration)) []
  | grants (peer : PeerId) (request : WorkerRequest) (rest : List (PeerId × WorkerRequest)) (lease : WorkerLease PeerId)
      (duration : Duration) (hid : lease.id = r.uuid) (htimeout : lease.timeout = r.now + duration) :
      Runs cfg s r (.batch peer request rest (.insert lease.leasable.peerId lease.leasable.reservation duration))
        (.lease (.grants lease)) (nextRequest cfg rest) [.offering peer (cfg.offerOf request lease)]
  | offers (peer : PeerId) (offer : WorkerOffer) : Runs cfg s r (.offering peer offer) (.lease .reads) (.ended none) []
  | offerFails (peer : PeerId) (offer : WorkerOffer) :
      Runs cfg s r (.offering peer offer) (.lease .reads) (.withdrawing (.taking offer.id)) []
  | withdrawTakes (id : Uuid) (lease : WorkerLease PeerId) (hlease : s.manager.ledger.lookup id = some lease) :
      Runs cfg s r (.withdrawing (.taking id)) (.lease (.takes id lease)) (.withdrawing (.releasing lease)) []
  | withdrawMisses (id : Uuid) : Runs cfg s r (.withdrawing (.taking id)) (.lease .reads) (.ended none) []
  | withdrawFrees (lease : WorkerLease PeerId) :
      Runs cfg s r (.withdrawing (.releasing lease)) (.lease (.frees lease.leasable.reservation)) (.ended none) []
  | checksOwner (peer : PeerId) (id : Uuid) (lease : WorkerLease PeerId)
      (hlease : s.manager.ledger.lookup id = some lease) (howner : lease.leasable.peerId = peer) :
      Runs cfg s r (.checking peer id) (.lease .reads) (.renewing peer id) []
  | checksOther (peer : PeerId) (id : Uuid) (lease : WorkerLease PeerId)
      (hlease : s.manager.ledger.lookup id = some lease) (howner : lease.leasable.peerId ≠ peer) :
      Runs cfg s r (.checking peer id) (.lease .reads) (.ended (some (.renewLease .forbidden))) []
  | checksMissing (peer : PeerId) (id : Uuid) (hlease : s.manager.ledger.lookup id = none) :
      Runs cfg s r (.checking peer id) (.lease .reads) (.ended (some (.renewLease .notFound))) []
  | renews (peer : PeerId) (id : Uuid) (lease : WorkerLease PeerId)
      (hlease : s.manager.ledger.lookup id = some lease) :
      Runs cfg s r (.renewing peer id) (.lease (.renews id { lease with timeout := r.now + leaseTimeout }))
        (.ended (some (.renewLease (.renewed id (r.now + leaseTimeout))))) []
  | renewMisses (peer : PeerId) (id : Uuid) (hlease : s.manager.ledger.lookup id = none) :
      Runs cfg s r (.renewing peer id) (.lease .reads) (.ended (some (.renewLease .failed))) []
  | looksUp (peer : PeerId) (id : Uuid) (spec : JobSpec) (key : Uuid) (lease : WorkerLease PeerId)
      (hlease : s.manager.ledger.lookup key = some lease) (howner : lease.leasable.peerId = peer)
      (hfound : s.manager.getByPeer r.toReading peer = .ok lease) :
      Runs cfg s r (.looking peer id spec) (.lease .reads) (.starting peer id spec lease) []
  | rejects (peer : PeerId) (id : Uuid) (spec : JobSpec) :
      Runs cfg s r (.looking peer id spec) (.lease .reads) (.ended (some (.dispatchJob .failed))) []
  | startFails (peer : PeerId) (id : Uuid) (spec : JobSpec) (lease : WorkerLease PeerId) :
      Runs cfg s r (.starting peer id spec lease) (.job .reads) (.ended (some (.dispatchJob .failed))) []
  | spawns (peer : PeerId) (id : Uuid) (spec : JobSpec) (lease : WorkerLease PeerId) (hok : r.ok = true)
      (hwaits : r.waits = true) :
      Runs cfg s r (.starting peer id spec lease) (.job (.spawns id))
        (.recording ⟨id, lease.id, peer, spec, s.jobs.executions.length, .running⟩ lease.timeout) []
  | launches (peer : PeerId) (id : Uuid) (spec : JobSpec) (lease : WorkerLease PeerId) (hok : r.ok = true)
      (hwaits : r.waits = false) :
      Runs cfg s r (.starting peer id spec lease)
        (.job (.launches ⟨id, lease.id, peer, spec, s.jobs.executions.length, .running⟩))
        (.ended (some (.dispatchJob (.dispatched id lease.timeout)))) []
  | records (job : Job PeerId) (timeout : SystemTime) :
      Runs cfg s r (.recording job timeout) (.job (.records job))
        (.ended (some (.dispatchJob (.dispatched job.id timeout)))) []
  | finds : Runs cfg s r (.pruning .finding) (.job .reads)
        (.pruning (nextFinished (s.jobs.findJobsWhere r.rank fun job => job.status.isTerminal))) []
  | revokeTakes (id : Uuid) (lease : WorkerLease PeerId) (job : JobDescriptor PeerId) (rest : List (JobDescriptor PeerId))
      (hlease : s.manager.ledger.lookup id = some lease) :
      Runs cfg s r (.pruning (.revoking (.taking id) job rest)) (.lease (.takes id lease))
        (.pruning (.revoking (.releasing lease) job rest)) []
  | revokeMisses (id : Uuid) (job : JobDescriptor PeerId) (rest : List (JobDescriptor PeerId))
      (hlease : s.manager.ledger.lookup id = none) :
      Runs cfg s r (.pruning (.revoking (.taking id) job rest)) (.lease .reads)
        (.pruning (.cancelling job.id (.finished rest))) []
  | revokeFrees (lease : WorkerLease PeerId) (job : JobDescriptor PeerId) (rest : List (JobDescriptor PeerId)) :
      Runs cfg s r (.pruning (.revoking (.releasing lease) job rest)) (.lease (.frees lease.leasable.reservation))
        (.pruning (.cancelling job.id (.finished rest))) []
  | lists : Runs cfg s r (.pruning (.proceeding .listing)) (.lease .reads)
        (nextExpired [] (s.manager.ledger.listExpired r.rank r.now)) []
  | proceedTakes (id : Uuid) (lease : WorkerLease PeerId) (rest removed : List (WorkerLease PeerId))
      (hlease : s.manager.ledger.lookup id = some lease) :
      Runs cfg s r (.pruning (.proceeding (.removing (.taking id) rest removed))) (.lease (.takes id lease))
        (.pruning (.proceeding (.removing (.releasing lease) rest removed))) []
  | proceedMisses (id : Uuid) (rest removed : List (WorkerLease PeerId)) (hlease : s.manager.ledger.lookup id = none) :
      Runs cfg s r (.pruning (.proceeding (.removing (.taking id) rest removed))) (.lease .reads)
        (nextExpired removed rest) []
  | proceedFrees (lease : WorkerLease PeerId) (rest removed : List (WorkerLease PeerId)) :
      Runs cfg s r (.pruning (.proceeding (.removing (.releasing lease) rest removed)))
        (.lease (.frees lease.leasable.reservation)) (nextExpired (removed ++ [lease]) rest) []
  | proceedErrs (lease : WorkerLease PeerId) (rest removed : List (WorkerLease PeerId))
      (hrelease : s.manager.release lease.leasable.reservation = .error .unknownReservation) :
      Runs cfg s r (.pruning (.proceeding (.removing (.releasing lease) rest removed)))
        (.lease (.frees lease.leasable.reservation)) (.ended none) []
  | links (lease : WorkerLease PeerId) (leases : List (WorkerLease PeerId)) :
      Runs cfg s r (.pruning (.linking lease leases)) (.job .reads)
        (nextLinked lease leases (s.jobs.findJobsWhere r.rank fun job => decide (job.lease = lease.id))) []
  | cancels (id : Uuid) (job : Job PeerId) (after : After PeerId) (hjob : s.jobs.jobs.lookup id = some job) :
      Runs cfg s r (.pruning (.cancelling id after)) (.job (.cancels id job))
        (.pruning (.joining job.execution after)) []
  | cancelMisses (id : Uuid) (after : After PeerId) (hjob : s.jobs.jobs.lookup id = none) :
      Runs cfg s r (.pruning (.cancelling id after)) (.job .reads) after.next []
  | joins (execution : Nat) (after : After PeerId) (x : Execution) (status : Status)
      (hx : s.jobs.executions[execution]? = some x) (hphase : x.phase = .monitored status) :
      Runs cfg s r (.pruning (.joining execution after)) (.job .reads) after.next []

theorem runs_of_batch {peer : PeerId} {request : WorkerRequest} {rest : List (PeerId × WorkerRequest)}
    {point : Requesting PeerId} {effect : Effect PeerId} {task : Task PeerId} {spawned : List (Task PeerId)}
    (h : (Task.batch peer request rest point).run s r cfg = some (effect, task, spawned)) :
    Runs cfg s r (.batch peer request rest point) effect task spawned := by
  cases point with
  | reserve owner resources duration =>
    by_cases hfits : s.manager.available.ge resources = true
    · simp only [Task.run, Requesting.run, hfits, if_true, Option.some.injEq, Prod.mk.injEq] at h
      obtain ⟨rfl, rfl, rfl⟩ := h
      exact .compares peer request rest owner resources duration hfits
    · simp only [Task.run, Requesting.run, if_neg hfits, Option.some.injEq, Prod.mk.injEq] at h
      obtain ⟨rfl, rfl, rfl⟩ := h
      exact .declines peer request rest _ rfl
  | reserveWrite owner resources duration =>
    by_cases hfits : s.manager.available.ge resources = true
    · simp only [Task.run, Requesting.run, hfits, if_true, Option.some.injEq, Prod.mk.injEq] at h
      obtain ⟨rfl, rfl, rfl⟩ := h
      exact .reserves peer request rest owner resources duration hfits
    · simp only [Task.run, Requesting.run, if_neg hfits, Option.some.injEq, Prod.mk.injEq] at h
      obtain ⟨rfl, rfl, rfl⟩ := h
      exact .declines peer request rest _ rfl
  | insert owner reservation duration =>
    simp only [Task.run, Requesting.run, Option.some.injEq, Prod.mk.injEq] at h
    obtain ⟨rfl, rfl, rfl⟩ := h
    exact .grants peer request rest ⟨r.uuid, ⟨owner, reservation⟩, r.now + duration⟩ duration rfl rfl

theorem runs_of_withdrawing {point : Removing PeerId} {effect : Effect PeerId} {task : Task PeerId}
    {spawned : List (Task PeerId)} (h : (Task.withdrawing point).run s r cfg = some (effect, task, spawned)) :
    Runs cfg s r (.withdrawing point) effect task spawned := by
  cases point with
  | taking id =>
    cases hlease : s.manager.ledger.lookup id with
    | none =>
      simp only [Task.run, Removing.run, hlease, Progress.elim, Option.some.injEq, Prod.mk.injEq] at h
      obtain ⟨rfl, rfl, rfl⟩ := h
      exact .withdrawMisses id
    | some lease =>
      simp only [Task.run, Removing.run, hlease, Progress.elim, Option.some.injEq, Prod.mk.injEq] at h
      obtain ⟨rfl, rfl, rfl⟩ := h
      exact .withdrawTakes id lease hlease
  | releasing lease =>
    cases hrelease : s.manager.release lease.leasable.reservation with
    | ok resources =>
      simp only [Task.run, Removing.run, hrelease, Progress.elim, Option.some.injEq, Prod.mk.injEq] at h
      obtain ⟨rfl, rfl, rfl⟩ := h
      exact .withdrawFrees lease
    | error e =>
      simp only [Task.run, Removing.run, hrelease, Progress.elim, Option.some.injEq, Prod.mk.injEq] at h
      obtain ⟨rfl, rfl, rfl⟩ := h
      exact .withdrawFrees lease

theorem runs_of_revoking {point : Removing PeerId} {job : JobDescriptor PeerId} {rest : List (JobDescriptor PeerId)}
    {effect : Effect PeerId} {task : Task PeerId} (h : (Pruning.revoking point job rest).run s r = some (effect, task)) :
    Runs cfg s r (.pruning (.revoking point job rest)) effect task [] := by
  cases point with
  | taking id =>
    cases hlease : s.manager.ledger.lookup id with
    | none =>
      simp only [Pruning.run, Removing.run, hlease, Progress.elim, Option.some.injEq, Prod.mk.injEq] at h
      obtain ⟨rfl, rfl⟩ := h
      exact .revokeMisses id job rest hlease
    | some lease =>
      simp only [Pruning.run, Removing.run, hlease, Progress.elim, Option.some.injEq, Prod.mk.injEq] at h
      obtain ⟨rfl, rfl⟩ := h
      exact .revokeTakes id lease job rest hlease
  | releasing lease =>
    cases hrelease : s.manager.release lease.leasable.reservation with
    | ok resources =>
      simp only [Pruning.run, Removing.run, hrelease, Progress.elim, Option.some.injEq, Prod.mk.injEq] at h
      obtain ⟨rfl, rfl⟩ := h
      exact .revokeFrees lease job rest
    | error e =>
      simp only [Pruning.run, Removing.run, hrelease, Progress.elim, Option.some.injEq, Prod.mk.injEq] at h
      obtain ⟨rfl, rfl⟩ := h
      exact .revokeFrees lease job rest

theorem runs_of_proceeding {point : Proceeding PeerId} {effect : Effect PeerId} {task : Task PeerId}
    (h : (Pruning.proceeding point).run s r = some (effect, task)) :
    Runs cfg s r (.pruning (.proceeding point)) effect task [] := by
  cases point with
  | listing =>
    simp only [Pruning.run, Proceeding.run, afterProceed_next, Option.some.injEq, Prod.mk.injEq] at h
    obtain ⟨rfl, rfl⟩ := h
    exact .lists
  | removing point rest removed =>
    cases point with
    | taking id =>
      cases hlease : s.manager.ledger.lookup id with
      | none =>
        simp only [Pruning.run, Proceeding.run, Removing.run, hlease, afterProceed_next, Option.some.injEq,
          Prod.mk.injEq] at h
        obtain ⟨rfl, rfl⟩ := h
        exact .proceedMisses id rest removed hlease
      | some lease =>
        simp only [Pruning.run, Proceeding.run, Removing.run, hlease, afterProceed, Option.some.injEq,
          Prod.mk.injEq] at h
        obtain ⟨rfl, rfl⟩ := h
        exact .proceedTakes id lease rest removed hlease
    | releasing lease =>
      cases hlookup : s.manager.reservations.lookup lease.leasable.reservation with
      | some resources =>
        have hrelease : s.manager.release lease.leasable.reservation = .ok resources := by
          simp only [ResourceLeaseManager.release, hlookup]
        simp only [Pruning.run, Proceeding.run, Removing.run, hrelease, afterProceed_next, Option.some.injEq,
          Prod.mk.injEq] at h
        obtain ⟨rfl, rfl⟩ := h
        exact .proceedFrees lease rest removed
      | none =>
        have hrelease : s.manager.release lease.leasable.reservation = .error .unknownReservation := by
          simp only [ResourceLeaseManager.release, hlookup]
        simp only [Pruning.run, Proceeding.run, Removing.run, hrelease, afterProceed, Option.some.injEq,
          Prod.mk.injEq] at h
        obtain ⟨rfl, rfl⟩ := h
        exact .proceedErrs lease rest removed hrelease

theorem runs_of_pruning {point : Pruning PeerId} {effect : Effect PeerId} {task : Task PeerId}
    (h : point.run s r = some (effect, task)) : Runs cfg s r (.pruning point) effect task [] := by
  cases point with
  | finding =>
    simp only [Pruning.run, Option.some.injEq, Prod.mk.injEq] at h
    obtain ⟨rfl, rfl⟩ := h
    exact .finds
  | revoking point job rest => exact runs_of_revoking h
  | proceeding point => exact runs_of_proceeding h
  | linking lease leases =>
    simp only [Pruning.run, Option.some.injEq, Prod.mk.injEq] at h
    obtain ⟨rfl, rfl⟩ := h
    exact .links lease leases
  | cancelling id after =>
    cases hjob : s.jobs.jobs.lookup id with
    | none =>
      simp only [Pruning.run, hjob, Option.some.injEq, Prod.mk.injEq] at h
      obtain ⟨rfl, rfl⟩ := h
      exact .cancelMisses id after hjob
    | some job =>
      simp only [Pruning.run, hjob, Option.some.injEq, Prod.mk.injEq] at h
      obtain ⟨rfl, rfl⟩ := h
      exact .cancels id job after hjob
  | joining execution after =>
    simp only [Pruning.run] at h
    split at h
    · next status hx =>
      obtain ⟨rfl, rfl⟩ := Prod.mk.inj (Option.some.inj h)
      exact .joins execution after _ status hx rfl
    · cases h

theorem runs_of_run {t t' : Task PeerId} {effect : Effect PeerId} {spawned : List (Task PeerId)}
    (h : t.run s r cfg = some (effect, t', spawned)) : Runs cfg s r t effect t' spawned := by
  cases t with
  | batch peer request rest point => exact runs_of_batch h
  | offering peer offer =>
    simp only [Task.run, Option.some.injEq, Prod.mk.injEq] at h
    obtain ⟨rfl, rfl, rfl⟩ := h
    split_ifs
    · exact .offers peer offer
    · exact .offerFails peer offer
  | withdrawing point => exact runs_of_withdrawing h
  | checking peer id =>
    cases hlease : s.manager.ledger.lookup id with
    | none =>
      simp only [Task.run, ResourceLeaseManager.get_of_none hlease, Option.some.injEq, Prod.mk.injEq] at h
      obtain ⟨rfl, rfl, rfl⟩ := h
      exact .checksMissing peer id hlease
    | some lease =>
      simp only [Task.run, ResourceLeaseManager.get_of_lookup hlease] at h
      split_ifs at h with howner
      · obtain ⟨rfl, rfl, rfl⟩ := h
        exact .checksOwner peer id lease hlease howner
      · obtain ⟨rfl, rfl, rfl⟩ := h
        exact .checksOther peer id lease hlease howner
  | renewing peer id =>
    cases hlease : s.manager.ledger.lookup id with
    | none =>
      simp only [Task.run, ResourceLeaseManager.renew, hlease, Option.some.injEq, Prod.mk.injEq] at h
      obtain ⟨rfl, rfl, rfl⟩ := h
      exact .renewMisses peer id hlease
    | some lease =>
      simp only [Task.run, ResourceLeaseManager.renew, hlease, Option.some.injEq, Prod.mk.injEq] at h
      obtain ⟨rfl, rfl, rfl⟩ := h
      exact .renews peer id lease hlease
  | looking peer id spec =>
    simp only [Task.run] at h
    split at h
    · next lease hlease =>
      obtain ⟨⟨key, hkey⟩, howner⟩ := ResourceLeaseManager.lookup_of_getByPeer hlease
      split at h
      · obtain ⟨rfl, rfl, rfl⟩ := h
        exact .looksUp peer id spec key lease hkey howner hlease
      · obtain ⟨rfl, rfl, rfl⟩ := h
        exact .rejects peer id spec
    · obtain ⟨rfl, rfl, rfl⟩ := h
      exact .rejects peer id spec
  | starting peer id spec lease =>
    simp only [Task.run] at h
    split_ifs at h with hok hwaits
    · obtain ⟨rfl, rfl, rfl⟩ := h
      exact .spawns peer id spec lease hok hwaits
    · obtain ⟨rfl, rfl, rfl⟩ := h
      exact .launches peer id spec lease hok (Bool.eq_false_iff.mpr hwaits)
    · obtain ⟨rfl, rfl, rfl⟩ := h
      exact .startFails peer id spec lease
  | recording job timeout =>
    simp only [Task.run, Option.some.injEq, Prod.mk.injEq] at h
    obtain ⟨rfl, rfl, rfl⟩ := h
    exact .records job timeout
  | pruning point =>
    obtain ⟨⟨effect', task⟩, hrun, h⟩ := Option.map_eq_some_iff.mp h
    simp only [Prod.mk.injEq] at h
    obtain ⟨rfl, rfl, rfl⟩ := h
    exact runs_of_pruning hrun
  | ended response => cases h

/-- Where the prune loop may be: at one of its points, or the iteration has ended. -/
def Prunes (t : Task PeerId) : Prop := t = .ended none ∨ ∃ point, t = .pruning point

theorem prunes_nextLease (leases : List (WorkerLease PeerId)) : Prunes (nextLease leases) := by
  cases leases with
  | nil => exact Or.inl rfl
  | cons lease leases => exact Or.inr ⟨_, rfl⟩

theorem prunes_nextExpired (removed rest : List (WorkerLease PeerId)) : Prunes (nextExpired removed rest) := by
  cases rest with
  | nil => exact prunes_nextLease removed
  | cons lease rest => exact Or.inr ⟨_, rfl⟩

theorem prunes_nextLinked (lease : WorkerLease PeerId) (leases : List (WorkerLease PeerId))
    (jobs : List (JobDescriptor PeerId)) : Prunes (nextLinked lease leases jobs) := by
  cases jobs with
  | nil => exact prunes_nextLease leases
  | cons job jobs => exact Or.inr ⟨_, rfl⟩

theorem prunes_after (after : After PeerId) : Prunes after.next := by
  cases after with
  | finished rest => exact Or.inr ⟨_, rfl⟩
  | linked lease jobs leases => exact prunes_nextLinked lease leases jobs

/-- The prune loop goes on to one of its points or ends, and spawns nothing. -/
theorem Runs.prunes {point : Pruning PeerId} {t' : Task PeerId} {effect : Effect PeerId} {spawned : List (Task PeerId)}
    (h : Runs cfg s r (.pruning point) effect t' spawned) : Prunes t' ∧ spawned = [] := by
  cases h with
  | lists => exact ⟨prunes_nextExpired _ _, rfl⟩
  | proceedMisses id rest removed hlease => exact ⟨prunes_nextExpired _ _, rfl⟩
  | proceedFrees lease rest removed => exact ⟨prunes_nextExpired _ _, rfl⟩
  | proceedErrs lease rest removed hrelease => exact ⟨Or.inl rfl, rfl⟩
  | links lease leases => exact ⟨prunes_nextLinked _ _ _, rfl⟩
  | cancelMisses id after hjob => exact ⟨prunes_after after, rfl⟩
  | joins execution after x status hx hphase => exact ⟨prunes_after after, rfl⟩
  | _ => exact ⟨Or.inr ⟨_, rfl⟩, rfl⟩

section Before
variable {t t' : Task PeerId} {effect : Effect PeerId} {spawned : List (Task PeerId)}

/-- The handlers that are under way and have neither ended nor prune nor request leases. -/
def Task.isServing : Task PeerId → Bool
  | .batch .. | .pruning _ | .ended _ => false
  | _ => true

theorem isServing_nextRequest (rest : List (PeerId × WorkerRequest)) : (nextRequest cfg rest).isServing = false := by
  cases rest <;> rfl

theorem not_isServing_of_prunes (h : Prunes t) : t.isServing = false := by
  rcases h with rfl | ⟨point, rfl⟩ <;> rfl

/-- What precedes a handler that is under way: the stretches that such a handler may end with. -/
inductive Precedes (s : Shared PeerId) (r : Moment) : Task PeerId → Effect PeerId → Task PeerId → Prop where
  | offerFails (peer : PeerId) (offer : WorkerOffer) :
      Precedes s r (.offering peer offer) (.lease .reads) (.withdrawing (.taking offer.id))
  | withdrawTakes (id : Uuid) (lease : WorkerLease PeerId) (hlease : s.manager.ledger.lookup id = some lease) :
      Precedes s r (.withdrawing (.taking id)) (.lease (.takes id lease)) (.withdrawing (.releasing lease))
  | checksOwner (peer : PeerId) (id : Uuid) (lease : WorkerLease PeerId)
      (hlease : s.manager.ledger.lookup id = some lease) (howner : lease.leasable.peerId = peer) :
      Precedes s r (.checking peer id) (.lease .reads) (.renewing peer id)
  | looksUp (peer : PeerId) (id : Uuid) (spec : JobSpec) (key : Uuid) (lease : WorkerLease PeerId)
      (hlease : s.manager.ledger.lookup key = some lease) (howner : lease.leasable.peerId = peer)
      (hfound : s.manager.getByPeer r.toReading peer = .ok lease) :
      Precedes s r (.looking peer id spec) (.lease .reads) (.starting peer id spec lease)
  | spawns (peer : PeerId) (id : Uuid) (spec : JobSpec) (lease : WorkerLease PeerId) (hok : r.ok = true)
      (hwaits : r.waits = true) :
      Precedes s r (.starting peer id spec lease) (.job (.spawns id))
        (.recording ⟨id, lease.id, peer, spec, s.jobs.executions.length, .running⟩ lease.timeout)

theorem Runs.precedes (h : Runs cfg s r t effect t' spawned) (hserving : t'.isServing = true) :
    Precedes s r t effect t' := by
  have hnot : ∀ {u : Task PeerId}, u.isServing = false → u.isServing = true → False := by
    intro u hfalse htrue
    rw [hfalse] at htrue
    cases htrue
  by_cases hprunes : ∃ point, t = .pruning point
  · obtain ⟨point, rfl⟩ := hprunes
    exact (hnot (not_isServing_of_prunes h.prunes.1) hserving).elim
  · cases h with
    | declines peer request rest point hheld => exact (hnot (isServing_nextRequest rest) hserving).elim
    | grants peer request rest lease duration hid htimeout => exact (hnot (isServing_nextRequest rest) hserving).elim
    | offerFails peer offer => exact .offerFails peer offer
    | withdrawTakes id lease hlease => exact .withdrawTakes id lease hlease
    | checksOwner peer id lease hlease howner => exact .checksOwner peer id lease hlease howner
    | looksUp peer id spec key lease hlease howner hfound =>
      exact .looksUp peer id spec key lease hlease howner hfound
    | spawns peer id spec lease hok hwaits => exact .spawns peer id spec lease hok hwaits
    | _ => first | cases hserving | exact absurd ⟨_, rfl⟩ hprunes

/-- What a handler answers, and what it does in the stretch. -/
inductive Answers (s : Shared PeerId) (r : Moment) : Task PeerId → Effect PeerId → Response → Prop where
  | forbids (peer : PeerId) (id : Uuid) (lease : WorkerLease PeerId)
      (hlease : s.manager.ledger.lookup id = some lease) (howner : lease.leasable.peerId ≠ peer) :
      Answers s r (.checking peer id) (.lease .reads) (.renewLease .forbidden)
  | notFound (peer : PeerId) (id : Uuid) (hlease : s.manager.ledger.lookup id = none) :
      Answers s r (.checking peer id) (.lease .reads) (.renewLease .notFound)
  | renews (peer : PeerId) (id : Uuid) (lease : WorkerLease PeerId)
      (hlease : s.manager.ledger.lookup id = some lease) :
      Answers s r (.renewing peer id) (.lease (.renews id { lease with timeout := r.now + leaseTimeout }))
        (.renewLease (.renewed id (r.now + leaseTimeout)))
  | renewFails (peer : PeerId) (id : Uuid) (hlease : s.manager.ledger.lookup id = none) :
      Answers s r (.renewing peer id) (.lease .reads) (.renewLease .failed)
  | rejects (peer : PeerId) (id : Uuid) (spec : JobSpec) :
      Answers s r (.looking peer id spec) (.lease .reads) (.dispatchJob .failed)
  | startFails (peer : PeerId) (id : Uuid) (spec : JobSpec) (lease : WorkerLease PeerId) :
      Answers s r (.starting peer id spec lease) (.job .reads) (.dispatchJob .failed)
  | launches (peer : PeerId) (id : Uuid) (spec : JobSpec) (lease : WorkerLease PeerId) :
      Answers s r (.starting peer id spec lease)
        (.job (.launches ⟨id, lease.id, peer, spec, s.jobs.executions.length, .running⟩))
        (.dispatchJob (.dispatched id lease.timeout))
  | records (job : Job PeerId) (timeout : SystemTime) :
      Answers s r (.recording job timeout) (.job (.records job)) (.dispatchJob (.dispatched job.id timeout))

theorem Runs.answers {response : Response} (h : Runs cfg s r t effect t' spawned)
    (ht' : t' = .ended (some response)) : Answers s r t effect response := by
  by_cases hprunes : ∃ point, t = .pruning point
  · obtain ⟨point, rfl⟩ := hprunes
    rcases h.prunes.1 with rfl | ⟨_, rfl⟩ <;> cases ht'
  · cases h with
    | declines peer request rest point hheld => cases rest <;> cases ht'
    | grants peer request rest lease duration hid htimeout => cases rest <;> cases ht'
    | checksOther peer id lease hlease howner =>
      cases ht'
      exact .forbids peer id lease hlease howner
    | checksMissing peer id hlease =>
      cases ht'
      exact .notFound peer id hlease
    | renews peer id lease hlease =>
      cases ht'
      exact .renews peer id lease hlease
    | renewMisses peer id hlease =>
      cases ht'
      exact .renewFails peer id hlease
    | rejects peer id spec =>
      cases ht'
      exact .rejects peer id spec
    | startFails peer id spec lease =>
      cases ht'
      exact .startFails peer id spec lease
    | launches peer id spec lease =>
      cases ht'
      exact .launches peer id spec lease
    | records job timeout =>
      cases ht'
      exact .records job timeout
    | _ => first | cases ht' | exact absurd ⟨_, rfl⟩ hprunes

end Before

end Inversion

/-! ## What a step may do -/

section Steps
variable [DecidableEq PeerId] {cfg : Config} {w : Arbiter PeerId}

/-- **What may happen**, what it writes and where the tasks are then. -/
inductive Steps (cfg : Config) (w : Arbiter PeerId) :
    Happening PeerId → Effect PeerId → List (Task PeerId) → Prop where
  | requests (batch : List (PeerId × WorkerRequest)) :
      Steps cfg w (.requests batch) (.lease .reads) (w.tasks ++ [nextRequest cfg (cfg.processRequests batch)])
  | renews (peer : PeerId) (id : Uuid) : Steps cfg w (.renews peer id) (.lease .reads) (w.tasks ++ [.checking peer id])
  | dispatches (peer : PeerId) (id : Uuid) (spec : JobSpec) :
      Steps cfg w (.dispatches peer id spec) (.lease .reads) (w.tasks ++ [.looking peer id spec])
  | ticks (hidle : w.tasks.any Task.isPruning = false) :
      Steps cfg w .ticks (.job .reads) (w.tasks ++ [.pruning .finding])
  | runs (i : Nat) (r : Moment) (t t' : Task PeerId) (effect : Effect PeerId) (spawned : List (Task PeerId))
      (ht : w.tasks[i]? = some t) (hruns : Runs cfg w.toShared r t effect t' spawned) :
      Steps cfg w (.runs i r) effect (w.tasks.set i t' ++ spawned)
  | stops (e : Nat) (status : Status) (x : Execution) (hx : w.jobs.executions[e]? = some x)
      (hphase : x.phase = .running) (hstatus : status.isTerminal = true) :
      Steps cfg w (.stops e status) (.job (.stops e status)) w.tasks
  | writes (e : Nat) (status : Status) (x : Execution) (hx : w.jobs.executions[e]? = some x)
      (hphase : x.phase = .stopped status) : Steps cfg w (.writes e) (.job (.writes e x.id status)) w.tasks

theorem steps_of_step {a : Happening PeerId} {effect : Effect PeerId} {tasks : List (Task PeerId)}
    (h : w.step cfg a = some (effect, tasks)) : Steps cfg w a effect tasks := by
  cases a with
  | requests batch =>
    obtain ⟨rfl, rfl⟩ := Prod.mk.inj (Option.some.inj h)
    exact .requests batch
  | renews peer id =>
    obtain ⟨rfl, rfl⟩ := Prod.mk.inj (Option.some.inj h)
    exact .renews peer id
  | dispatches peer id spec =>
    obtain ⟨rfl, rfl⟩ := Prod.mk.inj (Option.some.inj h)
    exact .dispatches peer id spec
  | ticks =>
    simp only [Arbiter.step] at h
    split_ifs at h with hidle
    obtain ⟨rfl, rfl⟩ := Prod.mk.inj (Option.some.inj h)
    exact .ticks (Bool.eq_false_iff.mpr hidle)
  | runs i r =>
    simp only [Arbiter.step] at h
    obtain ⟨t, ht, h⟩ := Option.bind_eq_some_iff.mp h
    obtain ⟨⟨effect', t', spawned⟩, hrun, h⟩ := Option.map_eq_some_iff.mp h
    simp only [Prod.mk.injEq] at h
    obtain ⟨rfl, rfl⟩ := h
    exact .runs i r t t' effect' spawned ht (runs_of_run hrun)
  | stops e status =>
    simp only [Arbiter.step] at h
    split at h
    · next hx =>
      split_ifs at h with hstatus
      obtain ⟨rfl, rfl⟩ := Prod.mk.inj (Option.some.inj h)
      exact .stops e status _ hx rfl hstatus
    · cases h
  | writes e =>
    simp only [Arbiter.step] at h
    split at h
    · next status hx =>
      obtain ⟨rfl, rfl⟩ := Prod.mk.inj (Option.some.inj h)
      exact .writes e status _ hx rfl
    · cases h

/-- What happens, or nothing. -/
theorem arbiter_event (cfg : Config) (w : Arbiter PeerId) (a : Happening PeerId) :
    (w.step cfg a = none ∧ (arbiter cfg).event w a = ⟨w, a, none, w⟩) ∨
      ∃ effect tasks, Steps cfg w a effect tasks ∧
        (arbiter cfg).event w a = ⟨w, a, some effect, ⟨effect.apply w.toShared, tasks⟩⟩ := by
  rcases hstep : w.step cfg a with _ | ⟨effect, tasks⟩
  · exact Or.inl ⟨rfl, by simp [Machine.event, arbiter, hstep]⟩
  · exact Or.inr ⟨effect, tasks, steps_of_step hstep, by simp [Machine.event, arbiter, hstep]⟩

/-- How a task begins: for what has arrived, for a tick, or to send an offer. -/
inductive Begins (cfg : Config) : Happening PeerId → Effect PeerId → Task PeerId → Prop where
  | batch (batch : List (PeerId × WorkerRequest)) :
      Begins cfg (.requests batch) (.lease .reads) (nextRequest cfg (cfg.processRequests batch))
  | renewal (peer : PeerId) (id : Uuid) : Begins cfg (.renews peer id) (.lease .reads) (.checking peer id)
  | dispatch (peer : PeerId) (id : Uuid) (spec : JobSpec) :
      Begins cfg (.dispatches peer id spec) (.lease .reads) (.looking peer id spec)
  | prune : Begins cfg .ticks (.job .reads) (.pruning .finding)
  | offer (i : Nat) (r : Moment) (peer : PeerId) (offer : WorkerOffer) (lease : WorkerLease PeerId) :
      Begins cfg (.runs i r) (.lease (.grants lease)) (.offering peer offer)

/-- How a handler begins: for a renewal, for a dispatch, or to send an offer. -/
inductive Arrives : Happening PeerId → Task PeerId → Prop where
  | renewal (peer : PeerId) (id : Uuid) : Arrives (.renews peer id) (.checking peer id)
  | dispatch (peer : PeerId) (id : Uuid) (spec : JobSpec) : Arrives (.dispatches peer id spec) (.looking peer id spec)
  | offer (a : Happening PeerId) (peer : PeerId) (offer : WorkerOffer) : Arrives a (.offering peer offer)

theorem Begins.serving {a : Happening PeerId} {effect : Effect PeerId} {u : Task PeerId} (h : Begins cfg a effect u)
    (hserving : u.isServing = true) : Arrives a u := by
  cases h with
  | batch batch =>
    rw [isServing_nextRequest] at hserving
    cases hserving
  | renewal peer id => exact .renewal peer id
  | dispatch peer id spec => exact .dispatch peer id spec
  | prune => cases hserving
  | offer i r peer offer lease => exact .offer _ peer offer

/-- A stretch spawns only the task of an offer. -/
theorem Runs.begins {r : Moment} {t t' u : Task PeerId} {effect : Effect PeerId} {spawned : List (Task PeerId)} {i : Nat}
    (h : Runs cfg w.toShared r t effect t' spawned) (hu : u ∈ spawned) : Begins cfg (.runs i r) effect u := by
  cases h with
  | grants peer request rest lease duration hid htimeout =>
    rw [List.mem_singleton.mp hu]
    exact .offer i r peer _ lease
  | _ => exact absurd hu List.not_mem_nil

/-- **The tasks after a step**: one that was there, the one that ran, or one that begins. -/
theorem Steps.task_cases {a : Happening PeerId} {effect : Effect PeerId} {tasks : List (Task PeerId)} {j : Nat}
    {u : Task PeerId} (h : Steps cfg w a effect tasks) (hu : tasks[j]? = some u) :
    (w.tasks[j]? = some u ∧ ∀ r, a ≠ .runs j r) ∨
      (∃ r t spawned, a = .runs j r ∧ w.tasks[j]? = some t ∧ Runs cfg w.toShared r t effect u spawned) ∨
      Begins cfg a effect u := by
  have hnew : ∀ t : Task PeerId, (w.tasks ++ [t])[j]? = some u → w.tasks[j]? = some u ∨ u = t := by
    intro t hget
    rw [List.getElem?_append] at hget
    split_ifs at hget
    · exact Or.inl hget
    · exact Or.inr (List.mem_singleton.mp (List.mem_of_getElem? hget))
  cases h with
  | requests batch =>
    rcases hnew _ hu with hold | rfl
    · exact Or.inl ⟨hold, fun _ ha => by cases ha⟩
    · exact Or.inr (Or.inr (.batch batch))
  | renews peer id =>
    rcases hnew _ hu with hold | rfl
    · exact Or.inl ⟨hold, fun _ ha => by cases ha⟩
    · exact Or.inr (Or.inr (.renewal peer id))
  | dispatches peer id spec =>
    rcases hnew _ hu with hold | rfl
    · exact Or.inl ⟨hold, fun _ ha => by cases ha⟩
    · exact Or.inr (Or.inr (.dispatch peer id spec))
  | ticks hidle =>
    rcases hnew _ hu with hold | rfl
    · exact Or.inl ⟨hold, fun _ ha => by cases ha⟩
    · exact Or.inr (Or.inr .prune)
  | runs i r t t' effect spawned ht hruns =>
    rw [List.getElem?_append] at hu
    split_ifs at hu
    · by_cases hij : i = j
      · subst hij
        rw [List.getElem?_set_self (List.getElem?_eq_some_iff.mp ht).1] at hu
        obtain rfl := Option.some.inj hu
        exact Or.inr (Or.inl ⟨r, t, spawned, rfl, ht, hruns⟩)
      · rw [List.getElem?_set_ne hij] at hu
        refine Or.inl ⟨hu, fun r' ha => hij ?_⟩
        cases ha
        rfl
    · exact Or.inr (Or.inr (hruns.begins (List.mem_of_getElem? hu)))
  | stops e status x hx hphase hstatus => exact Or.inl ⟨hu, fun _ ha => by cases ha⟩
  | writes e status x hx hphase => exact Or.inl ⟨hu, fun _ ha => by cases ha⟩

/-- Where the task is that has run. -/
theorem getElem?_ran {i : Nat} {t t' : Task PeerId} {spawned : List (Task PeerId)} (ht : w.tasks[i]? = some t) :
    (w.tasks.set i t' ++ spawned)[i]? = some t' := by
  have hlt := (List.getElem?_eq_some_iff.mp ht).1
  rw [List.getElem?_append_left (by rw [List.length_set]; exact hlt), List.getElem?_set_self hlt]

/-- The tasks after a step, without their positions. -/
theorem Steps.mem_cases {a : Happening PeerId} {effect : Effect PeerId} {tasks : List (Task PeerId)} {u : Task PeerId}
    (h : Steps cfg w a effect tasks) (hu : u ∈ tasks) :
    u ∈ w.tasks ∨
      (∃ i r t spawned, a = .runs i r ∧ w.tasks[i]? = some t ∧ Runs cfg w.toShared r t effect u spawned) ∨
      Begins cfg a effect u := by
  obtain ⟨j, hj⟩ := List.mem_iff_getElem?.mp hu
  rcases h.task_cases hj with ⟨hold, -⟩ | ⟨r, t, spawned, ha, ht, hruns⟩ | hbegins
  · exact Or.inl (List.mem_of_getElem? hold)
  · exact Or.inr (Or.inl ⟨j, r, t, spawned, ha, ht, hruns⟩)
  · exact Or.inr (Or.inr hbegins)

/-- A task after a step: it is where it was, or it has run. -/
theorem Steps.goes_on {a : Happening PeerId} {effect : Effect PeerId} {tasks : List (Task PeerId)} {j : Nat}
    {u : Task PeerId} (h : Steps cfg w a effect tasks) (hu : w.tasks[j]? = some u) :
    (tasks[j]? = some u ∧ ∀ r, a ≠ .runs j r) ∨
      ∃ r u' spawned, a = .runs j r ∧ tasks[j]? = some u' ∧ Runs cfg w.toShared r u effect u' spawned := by
  have hlt := (List.getElem?_eq_some_iff.mp hu).1
  have hnew : ∀ t : Task PeerId, (w.tasks ++ [t])[j]? = some u := by
    intro t
    rw [List.getElem?_append_left hlt]
    exact hu
  cases h with
  | requests batch => exact Or.inl ⟨hnew _, fun _ ha => by cases ha⟩
  | renews peer id => exact Or.inl ⟨hnew _, fun _ ha => by cases ha⟩
  | dispatches peer id spec => exact Or.inl ⟨hnew _, fun _ ha => by cases ha⟩
  | ticks hidle => exact Or.inl ⟨hnew _, fun _ ha => by cases ha⟩
  | runs i r t t' effect spawned ht hruns =>
    by_cases hij : i = j
    · subst hij
      obtain rfl := Option.some.inj (ht.symm.trans hu)
      exact Or.inr ⟨r, t', spawned, rfl, getElem?_ran ht, hruns⟩
    · refine Or.inl ⟨?_, fun r' ha => hij ?_⟩
      · rw [List.getElem?_append_left (by rw [List.length_set]; exact hlt), List.getElem?_set_ne hij]
        exact hu
      · cases ha
        rfl
  | stops e status x hx hphase hstatus => exact Or.inl ⟨hu, fun _ ha => by cases ha⟩
  | writes e status x hx hphase => exact Or.inl ⟨hu, fun _ ha => by cases ha⟩

/-! ## What always goes on -/

/-- A task that can run is not refused. -/
theorem step_ne_none {i : Nat} {r : Moment} {t : Task PeerId} (ht : w.tasks[i]? = some t)
    (hrun : (t.run w.toShared r cfg).isSome = true) : w.step cfg (.runs i r) ≠ none := by
  obtain ⟨⟨effect, t', spawned⟩, hrun⟩ := Option.isSome_iff_exists.mp hrun
  simp [Arbiter.step, ht, hrun]

/-- The handlers of renewals can always go on. -/
theorem isSome_run_renewal {s : Shared PeerId} {r : Moment} {t : Task PeerId} {peer : PeerId} {id : Uuid}
    (ht : t = .checking peer id ∨ t = .renewing peer id) : (t.run s r cfg).isSome = true := by
  rcases ht with rfl | rfl <;> simp only [Task.run]
  · split
    · split_ifs <;> rfl
    · rfl
  · split <;> rfl

/-- A dispatch can always look for its lease. -/
theorem isSome_run_looking {s : Shared PeerId} {r : Moment} (peer : PeerId) (id : Uuid) (spec : JobSpec) :
    ((Task.looking peer id spec).run s r cfg).isSome = true := by
  simp only [Task.run]
  split
  · split <;> rfl
  · rfl

end Steps

end Hypha.Worker
