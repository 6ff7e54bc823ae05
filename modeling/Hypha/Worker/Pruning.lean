import Hypha.Worker.Jobs

/-!
# One iteration of the prune loop

What an iteration that runs alone does with the jobs that have finished. It comes to the failed ones first, removes
their leases and cancels them; then it removes the leases that have expired and cancels their jobs. The jobs that have
succeeded or been cancelled are counted among the finished ones and passed over.

* `Task.removes` : the leases that the iteration goes on to remove, beside `Task.owes`, the jobs it goes on to cancel;
* `Expires` : a lease that the iteration removes because it has expired;
* `Sweeps` : the invariant: what has to go is still on the way, and what has gone had to go;
* `Frees`, `finished_jobs_freed` : the finished jobs are freed exactly if each of them has failed or its lease expires;
  `jobSucceeds_left` : a job that has succeeded and keeps its resources.
-/

namespace Hypha.Worker

open Hypha.Lib

set_option linter.unusedSectionVars false

variable {PeerId : Type} [DecidableEq PeerId] {cfg : Config}

/-- The lease of the job under an id. -/
def JobManager.leaseOf (m : JobManager PeerId) (id : Uuid) : Option Uuid := (m.jobs.lookup id).map Job.lease

/-- The leases of the failed ones among finished jobs, which the prune loop removes. -/
def failedLeases (jobs : List (JobDescriptor PeerId)) : List Uuid :=
  (jobs.filter fun job => job.status.isFailed).map JobDescriptor.lease

/-- Whether the prune loop goes on to remove a lease. -/
def After.removes (lease : Uuid) : After PeerId → Prop
  | .finished rest => lease ∈ failedLeases rest
  | .linked .. => False

/-- Whether the prune loop goes on to remove a lease: that of a failed job, or one that it has listed as expired. -/
def Task.removes (lease : Uuid) : Task PeerId → Prop
  | .pruning (.revoking (.taking id) _ rest) => lease = id ∨ lease ∈ failedLeases rest
  | .pruning (.revoking (.releasing _) _ rest) => lease ∈ failedLeases rest
  | .pruning (.proceeding (.removing (.taking id) rest _)) => lease = id ∨ lease ∈ rest.map Lease.id
  | .pruning (.proceeding (.removing (.releasing _) rest _)) => lease ∈ rest.map Lease.id
  | .pruning (.cancelling _ after) => after.removes lease
  | .pruning (.joining _ after) => after.removes lease
  | _ => False

/-- Whether the prune loop has yet to list the expired leases. -/
def Task.isUnlisted : Task PeerId → Bool
  | .pruning .finding => true
  | .pruning (.revoking ..) => true
  | .pruning (.proceeding .listing) => true
  | .pruning (.cancelling _ (.finished _)) => true
  | .pruning (.joining _ (.finished _)) => true
  | _ => false

section Next
variable {lease : Uuid}

@[simp] theorem removes_nextLease (leases : List (WorkerLease PeerId)) : ¬ (nextLease leases).removes lease := by
  cases leases <;> exact fun h => h

@[simp] theorem removes_nextExpired (removed rest : List (WorkerLease PeerId)) :
    (nextExpired removed rest).removes lease ↔ lease ∈ rest.map Lease.id := by
  cases rest with
  | nil => simp [nextExpired]
  | cons current rest => simp [nextExpired, Task.removes]

@[simp] theorem removes_nextLinked (current : WorkerLease PeerId) (leases : List (WorkerLease PeerId))
    (jobs : List (JobDescriptor PeerId)) : ¬ (nextLinked current leases jobs).removes lease := by
  cases jobs with
  | nil => exact removes_nextLease leases
  | cons job jobs => exact fun h => h

@[simp] theorem removes_nextFinished (jobs : List (JobDescriptor PeerId)) :
    (Task.pruning (nextFinished jobs)).removes lease ↔ lease ∈ failedLeases jobs := by
  induction jobs with
  | nil => simp [nextFinished, Task.removes, failedLeases]
  | cons job jobs ih =>
    unfold nextFinished
    split_ifs with hfailed
    · simp [Task.removes, failedLeases, hfailed]
    · rw [ih]
      simp [failedLeases, hfailed]

@[simp] theorem removes_after (after : After PeerId) : after.next.removes lease ↔ after.removes lease := by
  cases after with
  | finished rest => exact removes_nextFinished rest
  | linked current jobs leases => exact iff_of_false (removes_nextLinked current leases jobs) fun h => h

@[simp] theorem isUnlisted_nextLease (leases : List (WorkerLease PeerId)) : (nextLease leases).isUnlisted = false := by
  cases leases <;> rfl

@[simp] theorem isUnlisted_nextExpired (removed rest : List (WorkerLease PeerId)) :
    (nextExpired removed rest).isUnlisted = false := by
  cases rest with
  | nil => exact isUnlisted_nextLease removed
  | cons current rest => rfl

@[simp] theorem isUnlisted_nextLinked (current : WorkerLease PeerId) (leases : List (WorkerLease PeerId))
    (jobs : List (JobDescriptor PeerId)) : (nextLinked current leases jobs).isUnlisted = false := by
  cases jobs with
  | nil => exact isUnlisted_nextLease leases
  | cons job jobs => rfl

@[simp] theorem isUnlisted_nextFinished (jobs : List (JobDescriptor PeerId)) :
    (Task.pruning (nextFinished jobs)).isUnlisted = true := by
  induction jobs with
  | nil => rfl
  | cons job jobs ih =>
    unfold nextFinished
    split_ifs
    · rfl
    · exact ih

/-- The prune loop does not go back to look for finished jobs. -/
theorem nextFinished_ne_finding (jobs : List (JobDescriptor PeerId)) : nextFinished jobs ≠ .finding := by
  induction jobs with
  | nil => exact fun heq => by cases heq
  | cons job jobs ih =>
    unfold nextFinished
    split_ifs
    · exact fun heq => by cases heq
    · exact ih

end Next

theorem JobManager.leaseOf_eq_some {m : JobManager PeerId} {id lease : Uuid} :
    m.leaseOf id = some lease ↔ ∃ job, m.jobs.lookup id = some job ∧ job.lease = lease :=
  Option.map_eq_some_iff

/-! ## One stretch -/

section Stretch
variable {s : Shared PeerId} {r : Moment} {point : Pruning PeerId} {t' : Task PeerId} {effect : Effect PeerId}
  {spawned : List (Task PeerId)} {id lease : Uuid}

/-- The prune loop adds nothing to the ledger. -/
theorem Runs.prune_ledger {current : WorkerLease PeerId} (hruns : Runs cfg s r (.pruning point) effect t' spawned)
    (hlease : (effect.apply s).manager.ledger.lookup lease = some current) :
    s.manager.ledger.lookup lease = some current := by
  cases hruns with
  | revokeTakes => exact (Table.lookup_erase_iff.mp hlease).2
  | proceedTakes => exact (Table.lookup_erase_iff.mp hlease).2
  | _ => exact hlease

/-- The prune loop adds nothing to the jobs. -/
theorem Runs.prune_jobs (hruns : Runs cfg s r (.pruning point) effect t' spawned)
    (hjob : (effect.apply s).jobs.leaseOf id = some lease) : s.jobs.leaseOf id = some lease := by
  cases hruns with
  | cancels key removed after hkey =>
    obtain ⟨job, hjob, hlease⟩ := JobManager.leaseOf_eq_some.mp hjob
    exact JobManager.leaseOf_eq_some.mpr ⟨job, (Table.lookup_erase_iff.mp hjob).2, hlease⟩
  | _ => exact hjob

/-- A job goes only when the prune loop comes to it. -/
theorem Runs.prune_cancelled (hruns : Runs cfg s r (.pruning point) effect t' spawned)
    (hjob : s.jobs.leaseOf id = some lease) (hgone : (effect.apply s).jobs.leaseOf id = none) :
    (Task.pruning point).owes id lease := by
  cases hruns with
  | cancels key removed after hkey =>
    by_cases hid : id = key
    · exact Or.inl hid
    · obtain ⟨job, hjob, hlease⟩ := JobManager.leaseOf_eq_some.mp hjob
      have hkept : ((Effect.job (.cancels key removed)).apply s).jobs.leaseOf id = some lease :=
        JobManager.leaseOf_eq_some.mpr ⟨job, Table.lookup_erase_iff.mpr ⟨hid, hjob⟩, hlease⟩
      cases hgone.symm.trans hkept
  | _ => cases hgone.symm.trans hjob

/-- A lease goes only when the prune loop comes to it. -/
theorem Runs.prune_taken (hruns : Runs cfg s r (.pruning point) effect t' spawned) (hmem : lease ∈ s.manager.ledger)
    (hgone : lease ∉ (effect.apply s).manager.ledger) : (Task.pruning point).removes lease := by
  cases hruns with
  | revokeTakes key current failed rest hlease =>
    by_cases hid : lease = key
    · exact Or.inl hid
    · exact absurd (AList.mem_erase.mpr ⟨hid, hmem⟩) hgone
  | proceedTakes key current rest removed hlease =>
    by_cases hid : lease = key
    · exact Or.inl hid
    · exact absurd (AList.mem_erase.mpr ⟨hid, hmem⟩) hgone
  | _ => exact absurd hmem hgone

/-- The prune loop goes on to remove what it was to remove, as long as that is in the ledger. -/
theorem Runs.removes (hruns : Runs cfg s r (.pruning point) effect t' spawned)
    (hrelease : ∀ reservation, (Task.pruning point).held = some reservation →
      ∃ resources, s.manager.release reservation = .ok resources)
    (hmem : lease ∈ (effect.apply s).manager.ledger) (hremoves : (Task.pruning point).removes lease) :
    t'.removes lease := by
  cases hruns with
  | revokeTakes key current failed rest hlease =>
    exact hremoves.resolve_left (AList.mem_erase.mp hmem).1
  | revokeMisses key failed rest hlease =>
    refine hremoves.resolve_left ?_
    rintro rfl
    obtain ⟨current, hcurrent⟩ := Table.exists_lookup hmem
    cases hlease.symm.trans hcurrent
  | revokeFrees current failed rest => exact hremoves
  | proceedTakes key current rest removed hlease =>
    exact hremoves.resolve_left (AList.mem_erase.mp hmem).1
  | proceedMisses key rest removed hlease =>
    rw [removes_nextExpired]
    refine hremoves.resolve_left ?_
    rintro rfl
    obtain ⟨current, hcurrent⟩ := Table.exists_lookup hmem
    cases hlease.symm.trans hcurrent
  | proceedFrees current rest removed => exact (removes_nextExpired _ rest).mpr hremoves
  | proceedErrs current rest removed herr =>
    obtain ⟨resources, hok⟩ := hrelease _ rfl
    cases herr.symm.trans hok
  | cancels key removed after hkey => exact hremoves
  | cancelMisses key after hkey => exact (removes_after after).mpr hremoves
  | joins execution after x status hx hphase => exact (removes_after after).mpr hremoves
  | _ => exact hremoves.elim

/-- What the prune loop goes on to remove it was to remove, unless it has just found or listed it. -/
theorem Runs.removes_of_next (hruns : Runs cfg s r (.pruning point) effect t' spawned) (hfinding : point ≠ .finding)
    (hlisting : point ≠ .proceeding .listing) (hremoves : t'.removes lease) : (Task.pruning point).removes lease := by
  cases hruns with
  | finds => exact absurd rfl hfinding
  | revokeTakes key current failed rest hlease => exact Or.inr hremoves
  | revokeMisses key failed rest hlease => exact Or.inr hremoves
  | revokeFrees current failed rest => exact hremoves
  | lists => exact absurd rfl hlisting
  | proceedTakes key current rest removed hlease => exact Or.inr hremoves
  | proceedMisses key rest removed hlease => exact Or.inr ((removes_nextExpired removed rest).mp hremoves)
  | proceedFrees current rest removed => exact (removes_nextExpired _ rest).mp hremoves
  | proceedErrs current rest removed herr => exact hremoves.elim
  | links current leases => exact (removes_nextLinked current leases _ hremoves).elim
  | cancels key removed after hkey => exact hremoves
  | cancelMisses key after hkey => exact (removes_after after).mp hremoves
  | joins execution after x status hx hphase => exact (removes_after after).mp hremoves

/-- What the prune loop goes on to cancel it was to cancel, unless it has just found it or comes to its lease. -/
theorem Runs.owes_of_next (hruns : Runs cfg s r (.pruning point) effect t' spawned) (hfinding : point ≠ .finding)
    (hkeyed : Keyed s.manager) (hjobs : s.jobs.Keyed) (hjob : s.jobs.leaseOf id = some lease)
    (howes : t'.owes id lease) :
    (Task.pruning point).owes id lease ∨
      ((Task.pruning point).removes lease ∧ (Task.pruning point).isUnlisted = false) := by
  cases hruns with
  | finds => exact absurd rfl hfinding
  | revokeTakes key current failed rest hlease => exact Or.inl howes
  | revokeMisses key failed rest hlease => exact Or.inl howes
  | revokeFrees current failed rest => exact Or.inl howes
  | lists => exact absurd ((owes_nextExpired [] _).mp howes) List.not_mem_nil
  | proceedTakes key current rest removed hlease =>
    rcases howes with rfl | hremoved
    · exact Or.inr ⟨Or.inl (hkeyed.key _ _ hlease), rfl⟩
    · exact Or.inl hremoved
  | proceedMisses key rest removed hlease => exact Or.inl ((owes_nextExpired removed rest).mp howes)
  | proceedFrees current rest removed =>
    rw [owes_nextExpired, List.map_append, List.mem_append, List.map_singleton, List.mem_singleton] at howes
    exact Or.inl howes.symm
  | proceedErrs current rest removed herr => exact howes.elim
  | links current leases =>
    rw [owes_nextLinked] at howes
    refine Or.inl (howes.imp (fun hfound => ?_) fun hlater => hlater)
    obtain ⟨descriptor, hmem, hid⟩ := List.mem_map.mp hfound
    obtain ⟨⟨key, found, hlookup, rfl⟩, hlinked⟩ := JobManager.mem_findJobsWhere.mp hmem
    obtain ⟨job, hlookup', rfl⟩ := JobManager.leaseOf_eq_some.mp hjob
    have hkey : key = id := (hjobs key found hlookup).symm.trans hid
    rw [hkey, hlookup'] at hlookup
    rw [Option.some.inj hlookup]
    exact of_decide_eq_true hlinked
  | cancels key removed after hkey => exact Or.inl (Or.inr howes)
  | cancelMisses key after hkey => exact Or.inl (Or.inr ((owes_after after).mp howes))
  | joins execution after x status hx hphase => exact Or.inl ((owes_after after).mp howes)

/-- The expired leases are listed once. -/
theorem Runs.isUnlisted (hruns : Runs cfg s r (.pruning point) effect t' spawned)
    (hlisting : point ≠ .proceeding .listing) : t'.isUnlisted = (Task.pruning point).isUnlisted := by
  have hafter : ∀ after : After PeerId, after.next.isUnlisted = (Task.pruning (.joining 0 after)).isUnlisted := by
    intro after
    cases after with
    | finished rest => exact isUnlisted_nextFinished rest
    | linked current jobs leases => exact isUnlisted_nextLinked current leases jobs
  cases hruns with
  | finds => exact isUnlisted_nextFinished _
  | lists => exact absurd rfl hlisting
  | proceedMisses key rest removed hlease => exact isUnlisted_nextExpired removed rest
  | proceedFrees current rest removed => exact isUnlisted_nextExpired _ rest
  | links current leases => exact isUnlisted_nextLinked current leases _
  | cancels key removed after hkey => cases after <;> rfl
  | cancelMisses key after hkey =>
    rw [hafter]
    cases after <;> rfl
  | joins execution after x status hx hphase =>
    rw [hafter]
    cases after <;> rfl
  | _ => rfl

/-- The finished jobs are looked for once. -/
theorem Runs.ne_finding (hruns : Runs cfg s r (.pruning point) effect t' spawned) : t' ≠ .pruning .finding := by
  have hlisted : ∀ {t : Task PeerId}, t.isUnlisted = false → t ≠ .pruning .finding := by
    rintro t ht rfl
    cases ht
  have hfinished : ∀ jobs : List (JobDescriptor PeerId), Task.pruning (nextFinished jobs) ≠ .pruning .finding :=
    fun jobs heq => nextFinished_ne_finding jobs (Task.pruning.inj heq)
  have hafter : ∀ after : After PeerId, after.next ≠ .pruning .finding := by
    intro after
    cases after with
    | finished rest => exact hfinished rest
    | linked current jobs leases => exact hlisted (isUnlisted_nextLinked current leases jobs)
  cases hruns with
  | finds => exact hfinished _
  | lists => exact hlisted (isUnlisted_nextExpired _ _)
  | proceedMisses key rest removed hlease => exact hlisted (isUnlisted_nextExpired _ _)
  | proceedFrees current rest removed => exact hlisted (isUnlisted_nextExpired _ _)
  | links current leases => exact hlisted (isUnlisted_nextLinked _ _ _)
  | cancelMisses key after hkey => exact hafter after
  | joins execution after x status hx hphase => exact hafter after
  | _ => exact fun heq => by cases heq

end Stretch

/-! ## The iteration -/

/-- A job under the id had failed. -/
def Failed (w : Shared PeerId) (id : Uuid) : Prop :=
  ∃ job, w.jobs.jobs.lookup id = some job ∧ job.status.isFailed = true

/-- No job of the lease had failed. -/
def Unfailed (w : Shared PeerId) (lease : Uuid) : Prop :=
  ∀ id job, w.jobs.jobs.lookup id = some job → job.status.isFailed = true → job.lease ≠ lease

/-- The iteration removes the lease because it has expired: it is in the ledger, its timeout is not later than the time
at which the expired leases are listed, and it has not been removed before because a job of it had failed. -/
def Expires (w : Shared PeerId) (now : SystemTime) (lease : Uuid) : Prop :=
  (∃ current, w.manager.ledger.lookup lease = some current ∧ current.timeout ≤ now) ∧ Unfailed w lease

/-- **Where an iteration is** that began with `w` and has listed the expired leases at the time `listed`, if it has. What
has to go is still on the way: leases and jobs for which a job had failed, and those of the leases that expire. And what
has gone or is on the way had to go. -/
structure Sweeps (w : Shared PeerId) (listed : Option SystemTime) (s : Shared PeerId) (t : Task PeerId) : Prop where
  stage : listed.isNone = t.isUnlisted
  ledger : ∀ lease current, s.manager.ledger.lookup lease = some current → w.manager.ledger.lookup lease = some current
  jobs : ∀ id lease, s.jobs.leaseOf id = some lease → w.jobs.leaseOf id = some lease
  revoked : ∀ lease, ¬ Unfailed w lease → lease ∈ s.manager.ledger → t.removes lease
  failed : ∀ id lease, Failed w id → s.jobs.leaseOf id = some lease → t.owes id lease
  kept : listed = none → ∀ lease ∈ w.manager.ledger, Unfailed w lease → lease ∈ s.manager.ledger
  expired : ∀ now, listed = some now → ∀ lease, Expires w now lease →
    (lease ∈ s.manager.ledger → t.removes lease) ∧
      ∀ id, s.jobs.leaseOf id = some lease → lease ∈ s.manager.ledger ∨ t.owes id lease
  removes : ∀ lease, t.removes lease →
    (listed = none ∧ ¬ Unfailed w lease) ∨ ∃ now, listed = some now ∧ Expires w now lease
  owes : ∀ id lease, s.jobs.leaseOf id = some lease → t.owes id lease →
    Failed w id ∨ ∃ now, listed = some now ∧ Expires w now lease
  gone : ∀ id lease, w.jobs.leaseOf id = some lease → s.jobs.leaseOf id = none →
    Failed w id ∨ ∃ now, listed = some now ∧ Expires w now lease

section Sweep
variable {w s : Shared PeerId} {listed : Option SystemTime} {r : Moment} {point : Pruning PeerId} {t t' : Task PeerId}
  {effect : Effect PeerId} {spawned : List (Task PeerId)}

/-- What executions and their monitors do changes nothing for the iteration. -/
theorem Sweeps.idle {s' : Shared PeerId} (h : Sweeps w listed s t) (hmanager : s'.manager = s.manager)
    (hjobs : ∀ id, s'.jobs.leaseOf id = s.jobs.leaseOf id) : Sweeps w listed s' t := by
  refine ⟨h.stage, ?_, ?_, ?_, ?_, ?_, ?_, h.removes, ?_, ?_⟩
  · simpa only [hmanager] using h.ledger
  · simpa only [hjobs] using h.jobs
  · simpa only [hmanager] using h.revoked
  · simpa only [hjobs] using h.failed
  · simpa only [hmanager] using h.kept
  · simpa only [hmanager, hjobs] using h.expired
  · simpa only [hjobs] using h.owes
  · simpa only [hjobs] using h.gone

theorem mem_failedIds {rank : Uuid → Nat} (hkeyed : w.jobs.Keyed) {id : Uuid} :
    id ∈ failedIds (w.jobs.findJobsWhere rank fun job => job.status.isTerminal) ↔ Failed w id := by
  unfold failedIds
  rw [List.mem_map]
  refine ⟨?_, ?_⟩
  · rintro ⟨descriptor, hmem, rfl⟩
    obtain ⟨hmem, hfailed⟩ := List.mem_filter.mp hmem
    obtain ⟨⟨key, job, hjob, rfl⟩, -⟩ := JobManager.mem_findJobsWhere.mp hmem
    refine ⟨job, ?_, hfailed⟩
    show w.jobs.jobs.lookup job.id = some job
    rw [hkeyed key job hjob]
    exact hjob
  · rintro ⟨job, hjob, hfailed⟩
    refine ⟨job.descriptor, List.mem_filter.mpr ⟨JobManager.mem_findJobsWhere.mpr ⟨⟨id, job, hjob, rfl⟩, ?_⟩, hfailed⟩,
      hkeyed id job hjob⟩
    exact Status.isTerminal_of_isFailed hfailed

theorem mem_failedLeases {rank : Uuid → Nat} {lease : Uuid} :
    lease ∈ failedLeases (w.jobs.findJobsWhere rank fun job => job.status.isTerminal) ↔ ¬ Unfailed w lease := by
  unfold failedLeases Unfailed
  rw [List.mem_map]
  refine ⟨?_, fun hnot => ?_⟩
  · rintro ⟨descriptor, hmem, rfl⟩ hunfailed
    obtain ⟨hmem, hfailed⟩ := List.mem_filter.mp hmem
    obtain ⟨⟨key, job, hjob, rfl⟩, -⟩ := JobManager.mem_findJobsWhere.mp hmem
    exact hunfailed key job hjob hfailed rfl
  · push Not at hnot
    obtain ⟨id, job, hjob, hfailed, hlease⟩ := hnot
    have hterminal := Status.isTerminal_of_isFailed hfailed
    exact ⟨job.descriptor,
      List.mem_filter.mpr ⟨JobManager.mem_findJobsWhere.mpr ⟨⟨id, job, hjob, rfl⟩, hterminal⟩, hfailed⟩, hlease⟩

/-- The iteration has found the finished jobs. -/
theorem Sweeps.begins (hkeyed : w.jobs.Keyed) (rank : Uuid → Nat) :
    Sweeps w none w (.pruning (nextFinished (w.jobs.findJobsWhere rank fun job => job.status.isTerminal))) := by
  refine ⟨?_, fun _ _ hlease => hlease, fun _ _ hlease => hlease, ?_, ?_, fun _ _ hmem _ => hmem, ?_, ?_, ?_, ?_⟩
  · rw [isUnlisted_nextFinished]
    rfl
  · intro lease hfailed _
    exact (removes_nextFinished _).mpr (mem_failedLeases.mpr hfailed)
  · intro id lease hfailed _
    exact (owes_nextFinished _).mpr ((mem_failedIds hkeyed).mpr hfailed)
  · intro now hnow
    cases hnow
  · intro lease hremoves
    exact Or.inl ⟨rfl, mem_failedLeases.mp ((removes_nextFinished _).mp hremoves)⟩
  · intro id lease _ howes
    exact Or.inl ((mem_failedIds hkeyed).mp ((owes_nextFinished _).mp howes))
  · intro id lease hold hgone
    cases hgone.symm.trans hold

/-- The iteration lists the expired leases. -/
theorem Sweeps.lists (h : Sweeps w listed s (.pruning (.proceeding .listing))) (hkeyed : Keyed s.manager) :
    Sweeps w (some r.now) s (nextExpired [] (s.manager.ledger.listExpired r.rank r.now)) := by
  have hnone : listed = none := Option.isNone_iff_eq_none.mp h.stage
  have hunfailed : ∀ lease ∈ s.manager.ledger, Unfailed w lease := by
    intro lease hmem
    by_contra hfailed
    exact (h.revoked lease hfailed hmem).elim
  refine ⟨?_, h.ledger, h.jobs, ?_, ?_, fun hsome => (by cases hsome), ?_, ?_, ?_, ?_⟩
  · rw [isUnlisted_nextExpired]
    rfl
  · intro lease hfailed hmem
    exact absurd (hunfailed lease hmem) hfailed
  · intro id lease hfailed hlease
    exact (h.failed id lease hfailed hlease).elim
  · rintro now hnow lease ⟨⟨current, hcurrent, hle⟩, hlease⟩
    obtain rfl := Option.some.inj hnow
    have hmem := h.kept hnone lease (Table.mem_of_lookup hcurrent) hlease
    refine ⟨fun _ => ?_, fun _ _ => Or.inl hmem⟩
    obtain ⟨found, hfound⟩ := Table.exists_lookup hmem
    obtain rfl := Option.some.inj (hcurrent.symm.trans (h.ledger lease found hfound))
    rw [removes_nextExpired, List.mem_map]
    exact ⟨current, Ledger.mem_listExpired.mpr ⟨⟨lease, hfound⟩, hle⟩, hkeyed.key lease current hfound⟩
  · intro lease hremoves
    rw [removes_nextExpired, List.mem_map] at hremoves
    obtain ⟨current, hlisted, rfl⟩ := hremoves
    obtain ⟨⟨key, hkey⟩, hle⟩ := Ledger.mem_listExpired.mp hlisted
    have hid := hkeyed.key key current hkey
    rw [hid]
    exact Or.inr ⟨r.now, rfl, ⟨current, h.ledger key current hkey, hle⟩, hunfailed key (Table.mem_of_lookup hkey)⟩
  · intro id lease _ howes
    exact absurd ((owes_nextExpired [] _).mp howes) List.not_mem_nil
  · intro id lease hold hgone
    refine (h.gone id lease hold hgone).imp_right ?_
    rintro ⟨now, hnow, -⟩
    cases hnone.symm.trans hnow

/-- Who removes a lease after the expired ones have been listed goes on to cancel its jobs. -/
theorem follows_of_taking {lease : Uuid} (htaking : (Task.pruning point).taking? = some lease)
    (hlisted : (Task.pruning point).isUnlisted = false) (id : Uuid) : (Task.pruning point).follows id := by
  cases point with
  | proceeding point => exact trivial
  | revoking point job rest => cases hlisted
  | _ => cases htaking

/-- The iteration makes any other stretch. -/
theorem Sweeps.runs (h : Sweeps w listed s (.pruning point)) (hruns : Runs cfg s r (.pruning point) effect t' spawned)
    (hfinding : point ≠ .finding) (hlisting : point ≠ .proceeding .listing) (hkeyed : Keyed s.manager)
    (hjobs : s.jobs.Keyed)
    (hrelease : ∀ reservation, (Task.pruning point).held = some reservation →
      ∃ resources, s.manager.release reservation = .ok resources) :
    Sweeps w listed (effect.apply s) t' := by
  have hmem_old : ∀ {lease : Uuid}, lease ∈ (effect.apply s).manager.ledger → lease ∈ s.manager.ledger := by
    intro lease hmem
    obtain ⟨current, hcurrent⟩ := Table.exists_lookup hmem
    exact Table.mem_of_lookup (hruns.prune_ledger hcurrent)
  have howes : ∀ {id lease : Uuid}, (effect.apply s).jobs.leaseOf id = some lease →
      (Task.pruning point).owes id lease → t'.owes id lease := by
    intro id lease hlease
    obtain ⟨job, hjob, rfl⟩ := JobManager.leaseOf_eq_some.mp hlease
    exact hruns.owes hrelease hjobs hjob
  refine ⟨?_, ?_, ?_, ?_, ?_, ?_, ?_, ?_, ?_, ?_⟩
  · rw [hruns.isUnlisted hlisting]
    exact h.stage
  · exact fun lease current hlease => h.ledger lease current (hruns.prune_ledger hlease)
  · exact fun id lease hlease => h.jobs id lease (hruns.prune_jobs hlease)
  · exact fun lease hfailed hmem => hruns.removes hrelease hmem (h.revoked lease hfailed (hmem_old hmem))
  · exact fun id lease hfailed hlease => howes hlease (h.failed id lease hfailed (hruns.prune_jobs hlease))
  · intro hnone lease hmem hunfailed
    by_contra hgone
    have hremoves := hruns.prune_taken (h.kept hnone lease hmem hunfailed) hgone
    rcases h.removes lease hremoves with ⟨-, hfailed⟩ | ⟨now, hnow, -⟩
    · exact hfailed hunfailed
    · cases hnone.symm.trans hnow
  · intro now hnow lease hexpires
    obtain ⟨hremoves, hcancels⟩ := h.expired now hnow lease hexpires
    refine ⟨fun hmem => hruns.removes hrelease hmem (hremoves (hmem_old hmem)), fun id hlease => ?_⟩
    rcases hcancels id (hruns.prune_jobs hlease) with hmem | hold
    · rw [Effect.apply_manager]
      refine (effect.access.mem_ledger hmem).imp_right ?_
      rintro ⟨current, htakes⟩
      obtain ⟨htaking, -, hfollows⟩ := hruns.takes hkeyed htakes
      have hstage := h.stage
      rw [hnow] at hstage
      exact hfollows (follows_of_taking htaking hstage.symm id)
    · exact Or.inr (howes hlease hold)
  · exact fun lease hremoves => h.removes lease (hruns.removes_of_next hfinding hlisting hremoves)
  · intro id lease hlease hnext
    have hold := hruns.prune_jobs hlease
    rcases hruns.owes_of_next hfinding hkeyed hjobs hold hnext with howed | ⟨hremoves, hlisted⟩
    · exact h.owes id lease hold howed
    · refine Or.inr ((h.removes lease hremoves).resolve_left ?_)
      rintro ⟨hnone, -⟩
      have hstage := h.stage
      rw [hnone, hlisted] at hstage
      cases hstage
  · intro id lease hold hgone
    cases hlease : s.jobs.leaseOf id with
    | none => exact h.gone id lease hold hlease
    | some lease' =>
      obtain rfl := Option.some.inj (hold.symm.trans (h.jobs id lease' hlease))
      exact h.owes id lease hlease (hruns.prune_cancelled hlease hgone)

end Sweep

/-- **The finished jobs are freed** between two states: they are removed from the map, their leases from the ledger, and
their reservations are released. -/
def Frees (w w' : Shared PeerId) : Prop :=
  ∀ id job, w.jobs.jobs.lookup id = some job → job.status.isTerminal = true →
    w'.jobs.jobs.lookup id = none ∧ job.lease ∉ w'.manager.ledger ∧
      ∀ lease, w.manager.ledger.lookup job.lease = some lease → lease.leasable.reservation ∉ w'.manager.reservations

/-- At its end the iteration has freed the finished jobs exactly if each of them has failed or its lease expires. -/
theorem Sweeps.frees_iff {w s : Shared PeerId} {now : SystemTime} (h : Sweeps w (some now) s (.ended none))
    (hreleased : ∀ lease current, w.manager.ledger.lookup lease = some current → lease ∉ s.manager.ledger →
      current.leasable.reservation ∉ s.manager.reservations) :
    Frees w s ↔ ∀ id job, w.jobs.jobs.lookup id = some job → job.status.isTerminal = true →
      job.status.isFailed = true ∨ Expires w now job.lease := by
  refine ⟨fun hfrees id job hjob hterminal => ?_, fun hcond id job hjob hterminal => ?_⟩
  · have hgone : s.jobs.leaseOf id = none := Option.map_eq_none_iff.mpr (hfrees id job hjob hterminal).1
    have hold : w.jobs.leaseOf id = some job.lease := JobManager.leaseOf_eq_some.mpr ⟨job, hjob, rfl⟩
    rcases h.gone id job.lease hold hgone with ⟨job', hjob', hfailed⟩ | ⟨now', hnow, hexpires⟩
    · obtain rfl := Option.some.inj (hjob.symm.trans hjob')
      exact Or.inl hfailed
    · obtain rfl := Option.some.inj hnow
      exact Or.inr hexpires
  · have hremoved : job.lease ∉ s.manager.ledger := by
      intro hmem
      rcases hcond id job hjob hterminal with hfailed | hexpires
      · exact (h.revoked job.lease (fun hunfailed => hunfailed id job hjob hfailed rfl) hmem).elim
      · exact ((h.expired now rfl job.lease hexpires).1 hmem).elim
    refine ⟨?_, hremoved, fun lease hlease => hreleased job.lease lease hlease hremoved⟩
    cases hlookup : s.jobs.jobs.lookup id with
    | none => rfl
    | some job' =>
      have hkept : s.jobs.leaseOf id = some job'.lease := JobManager.leaseOf_eq_some.mpr ⟨job', hlookup, rfl⟩
      obtain ⟨old, hold, hlease⟩ := JobManager.leaseOf_eq_some.mp (h.jobs id job'.lease hkept)
      obtain rfl := Option.some.inj (hjob.symm.trans hold)
      rcases hcond id job hjob hterminal with hfailed | hexpires
      · exact (h.failed id job'.lease ⟨job, hjob, hfailed⟩ hkept).elim
      · rw [hlease] at hexpires hremoved
        exact (((h.expired now rfl _ hexpires).2 id hkept).resolve_left hremoved).elim

/-! ## The iteration in a run -/

/-- The prune loop begins an iteration, and nothing else is under way. -/
structure Alone (w : Arbiter PeerId) (i : Nat) : Prop where
  finding : w.tasks[i]? = some (.pruning .finding)
  others : ∀ (j : Nat) t, w.tasks[j]? = some t → j ≠ i → ∃ response, t = .ended response

/-- A worker's happenings with an iteration: what was before, its first stretch, and what is after. -/
def iterated (before : List (Happening PeerId)) (i : Nat) (r : Moment) (after : List (Happening PeerId)) :
    List (Happening PeerId) :=
  before ++ [.runs i r] ++ after

/-- Nothing arrives: a task runs, an execution stops or a monitor writes. -/
def Happening.isInternal : Happening PeerId → Bool
  | .runs .. | .stops .. | .writes .. => true
  | _ => false

/-- The iteration has listed the expired leases at the time. -/
def ListedAt (i : Nat) (now : SystemTime) (h : List (ArbiterStep PeerId)) : Prop :=
  ∃ e ∈ h, ∃ r, e.input = .runs i r ∧ r.now = now ∧ e.pre.tasks[i]? = some (.pruning (.proceeding .listing))

/-- An iteration that began with `w`, alone and under way. -/
structure Iterates (w : Shared PeerId) (i : Nat) (v : Arbiter PeerId) (h : List (ArbiterStep PeerId))
    (listed : Option SystemTime) (t : Task PeerId) : Prop where
  task : v.tasks[i]? = some t
  others : ∀ (j : Nat) u, v.tasks[j]? = some u → j ≠ i → ∃ response, u = .ended response
  prunes : Prunes t
  begun : t ≠ .pruning .finding
  sweeps : Sweeps w listed v.toShared t
  listedAt : ∀ now, listed = some now → ListedAt i now h

theorem ListedAt.cons {i : Nat} {now : SystemTime} {h : List (ArbiterStep PeerId)} (hlisted : ListedAt i now h)
    (e : ArbiterStep PeerId) : ListedAt i now (e :: h) := by
  obtain ⟨e', he', hlisting⟩ := hlisted
  exact ⟨e', List.mem_cons_of_mem _ he', hlisting⟩

/-- A monitor leaves the leases of the jobs as they are. -/
theorem leaseOf_writes (m : JobManager PeerId) (e : Nat) (key : Uuid) (status : Status) (id : Uuid) :
    ((JobAccess.writes e key status).apply m).leaseOf id = m.leaseOf id := by
  show ((m.setStatus key status).lookup id).map Job.lease = (m.jobs.lookup id).map Job.lease
  unfold JobManager.setStatus
  split
  · next job hjob =>
    by_cases hid : id = key
    · subst hid
      simp [hjob]
    · simp [AList.lookup_insert_ne hid]
  · rfl

section Iteration
variable {w : Shared PeerId} {i : Nat} {v : Arbiter PeerId} {h : List (ArbiterStep PeerId)}
  {listed : Option SystemTime} {t : Task PeerId} {a : Happening PeerId} {effect : Effect PeerId}
  {tasks : List (Task PeerId)}

theorem Iterates.step (hI : Iterates w i v h listed t) (hsafe : Safe v) (hkeyed : v.jobs.Keyed)
    (hsteps : Steps cfg v a effect tasks) (hinternal : a.isInternal = true) :
    ∃ listed t, Iterates w i ⟨effect.apply v.toShared, tasks⟩ (taken v a effect tasks :: h) listed t := by
  cases hsteps with
  | runs j r u u' effect spawned hu hruns =>
    by_cases hij : j = i
    · subst hij
      obtain rfl := Option.some.inj (hI.task.symm.trans hu)
      rcases hI.prunes with rfl | ⟨point, rfl⟩
      · cases hruns
      · obtain ⟨hprunes, rfl⟩ := hruns.prunes
        have hothers : ∀ (k : Nat) u, (v.tasks.set j u' ++ [])[k]? = some u → k ≠ j →
            ∃ response, u = .ended response := by
          intro k u hk hne
          rw [List.append_nil, List.getElem?_set_ne hne.symm] at hk
          exact hI.others k u hk hne
        by_cases hlisting : point = .proceeding .listing
        · subst hlisting
          cases hruns with
          | lists =>
            refine ⟨some r.now, _, getElem?_ran hu, hothers, hprunes, ?_, hI.sweeps.lists hsafe.keyed, ?_⟩
            · intro heq
              have hlisted := isUnlisted_nextExpired [] (v.manager.ledger.listExpired r.rank r.now)
              rw [heq] at hlisted
              cases hlisted
            · intro now hnow
              obtain rfl := Option.some.inj hnow
              exact ⟨_, List.mem_cons_self, r, rfl, rfl, hu⟩
        · have hfinding : point ≠ .finding := fun heq => hI.begun (congrArg Task.pruning heq)
          exact ⟨listed, u', getElem?_ran hu, hothers, hprunes, hruns.ne_finding,
            hI.sweeps.runs hruns hfinding hlisting hsafe.keyed hkeyed (hsafe.release hu),
            fun now hnow => (hI.listedAt now hnow).cons _⟩
    · obtain ⟨response, rfl⟩ := hI.others j u hu hij
      cases hruns
  | stops e status x hx hphase hstatus =>
    exact ⟨listed, t, hI.task, hI.others, hI.prunes, hI.begun, hI.sweeps.idle rfl fun _ => rfl,
      fun now hnow => (hI.listedAt now hnow).cons _⟩
  | writes e status x hx hphase =>
    exact ⟨listed, t, hI.task, hI.others, hI.prunes, hI.begun,
      hI.sweeps.idle rfl (leaseOf_writes v.jobs e x.id status), fun now hnow => (hI.listedAt now hnow).cons _⟩
  | _ => cases hinternal

/-- The first stretch of an iteration. -/
theorem Alone.iterates (halone : Alone v i) (hkeyed : v.jobs.Keyed) {r : Moment}
    (hsteps : Steps cfg v (.runs i r) effect tasks) :
    ∃ listed t, Iterates v.toShared i ⟨effect.apply v.toShared, tasks⟩ (taken v (.runs i r) effect tasks :: h)
      listed t := by
  cases hsteps with
  | runs i r u u' effect spawned hu hruns =>
    obtain rfl := Option.some.inj (halone.finding.symm.trans hu)
    obtain ⟨hprunes, hspawned⟩ := hruns.prunes
    have hbegun := hruns.ne_finding
    cases hruns with
    | finds =>
      refine ⟨none, _, getElem?_ran hu, ?_, hprunes, hbegun, Sweeps.begins hkeyed r.rank,
        fun _ hsome => by cases hsome⟩
      intro k u hk hne
      rw [List.append_nil, List.getElem?_set_ne hne.symm] at hk
      exact halone.others k u hk hne

/-- The iteration and whatever happens besides, in a run. -/
theorem Alone.run_iterates {before : List (Happening PeerId)} (halone : Alone (run cfg before).state i) (r : Moment)
    (after : List (Happening PeerId)) (hinternal : ∀ a ∈ after, a.isInternal = true)
    (hfresh : (run cfg (iterated before i r after)).state.manager.drawn.Nodup) :
    ∃ listed t, Iterates (run cfg before).state.toShared i (run cfg (iterated before i r after)).state
      (run cfg (iterated before i r after)).history listed t := by
  induction after using List.reverseRecOn with
  | nil =>
    rw [iterated, List.append_nil]
    rcases run_snoc_cases cfg before (.runs i r) with ⟨hnone, -⟩ | ⟨effect, tasks, hsteps, hrun⟩
    · exact absurd hnone (step_ne_none halone.finding rfl)
    · rw [hrun]
      exact halone.iterates (run_jobs_keyed cfg before) hsteps
  | append_singleton after a ih =>
    have hsnoc : iterated before i r (after ++ [a]) = iterated before i r after ++ [a] := (List.append_assoc _ _ _).symm
    rw [hsnoc] at hfresh ⊢
    have hearlier := fresh_of_snoc hfresh
    obtain ⟨listed, t, hI⟩ := ih (fun b hb => hinternal b (List.mem_append_left _ hb)) hearlier
    have ha := hinternal a (List.mem_append_right _ (List.mem_singleton_self a))
    rcases run_snoc_cases cfg (iterated before i r after) a with ⟨-, hrun⟩ | ⟨effect, tasks, hsteps, hrun⟩
    · rw [hrun]
      exact ⟨listed, t, hI.task, hI.others, hI.prunes, hI.begun, hI.sweeps,
        fun now hnow => (hI.listedAt now hnow).cons _⟩
    · rw [hrun]
      exact hI.step (run_safe _ hearlier).1 (run_jobs_keyed cfg _) hsteps ha

/-- What has been removed from the ledger has been released, once nothing is under way. -/
theorem released_of_removed {w v : Arbiter PeerId} (hsafe : Safe w) (hsafe' : Safe v)
    (hended : ∀ t ∈ v.tasks, ∃ response, t = .ended response)
    (hledger : ∀ lease current, v.manager.ledger.lookup lease = some current →
      w.manager.ledger.lookup lease = some current)
    {lease : Uuid} {current : WorkerLease PeerId} (hlease : w.manager.ledger.lookup lease = some current)
    (hgone : lease ∉ v.manager.ledger) : current.leasable.reservation ∉ v.manager.reservations := by
  intro hlive
  obtain ⟨holder, hholds⟩ := (hsafe'.custody.live_iff _).mp hlive
  cases holder with
  | inl key =>
    obtain ⟨other, hother, hsame⟩ := Option.map_eq_some_iff.mp hholds
    have hholds' := holders_lease (hledger key other hother)
    rw [hsame] at hholds'
    have hkey : key = lease := Sum.inl.inj (hsafe.custody.unique _ _ _ hholds' (holders_lease hlease))
    rw [hkey] at hother
    exact hgone (Table.mem_of_lookup hother)
  | inr j =>
    obtain ⟨t, ht, hheld⟩ := Option.bind_eq_some_iff.mp hholds
    obtain ⟨response, rfl⟩ := hended t (List.mem_of_getElem? ht)
    cases hheld

end Iteration

/-- **Finished jobs free their resources**, in an iteration of the prune loop that runs alone, exactly if each of them
has failed or its lease expires: those that have succeeded or been cancelled wait for the end of their lease. -/
theorem finished_jobs_freed (cfg : Config) (before after : List (Happening PeerId)) (i : Nat) (r : Moment)
    (hfresh : (run cfg (iterated before i r after)).state.manager.drawn.Nodup)
    (halone : Alone (run cfg before).state i) (hinternal : ∀ a ∈ after, a.isInternal = true)
    (hended : (run cfg (iterated before i r after)).state.tasks[i]? = some (.ended none)) :
    ∃ now, ListedAt i now (run cfg (iterated before i r after)).history ∧
      (Frees (run cfg before).state.toShared (run cfg (iterated before i r after)).state.toShared ↔
        ∀ id job, (run cfg before).state.jobs.jobs.lookup id = some job → job.status.isTerminal = true →
          job.status.isFailed = true ∨ Expires (run cfg before).state.toShared now job.lease) := by
  obtain ⟨listed, t, hI⟩ := halone.run_iterates r after hinternal hfresh
  obtain rfl := Option.some.inj (hI.task.symm.trans hended)
  have hall : ∀ t ∈ (run cfg (iterated before i r after)).state.tasks, ∃ response, t = .ended response := by
    intro t ht
    obtain ⟨j, hj⟩ := List.mem_iff_getElem?.mp ht
    by_cases hij : j = i
    · subst hij
      exact ⟨none, Option.some.inj (hj.symm.trans hended)⟩
    · exact hI.others j t hj hij
  cases listed with
  | none => cases hI.sweeps.stage
  | some now =>
    refine ⟨now, hI.listedAt now rfl, hI.sweeps.frees_iff fun lease current hlease hgone => ?_⟩
    have hsafe := (run_safe before (fresh_of_append (fresh_of_append hfresh))).1
    exact released_of_removed hsafe (run_safe _ hfresh).1 hall hI.sweeps.ledger hlease hgone

theorem alone_of_tasks {w : Arbiter PeerId} (responses : List (Option Response))
    (htasks : w.tasks = responses.map .ended ++ [.pruning .finding]) : Alone w responses.length := by
  refine ⟨by simp [htasks], fun j t ht hne => ?_⟩
  rw [htasks, List.getElem?_append, List.length_map] at ht
  split_ifs at ht with hlt
  · obtain ⟨response, -, rfl⟩ := List.mem_map.mp (List.mem_of_getElem? ht)
    exact ⟨response, rfl⟩
  · have hbound := (List.getElem?_eq_some_iff.mp ht).1
    rw [List.length_singleton] at hbound
    omega

/-- The offer has been sent and the job dispatched; the job ends; the prune loop ticks. -/
def jobEnds (status : Status) : List (Happening Nat) :=
  List.flatten [dispatched, [.runs 1 {}, .stops 0 status, .writes 0, .ticks]]

def jobFails : List (Happening Nat) := jobEnds (.failed none none none)

def jobSucceeds : List (Happening Nat) := jobEnds (.success none none none)

/-- The prune loop runs on for some stretches. -/
def goesOn (n : Nat) : List (Happening Nat) := List.replicate n (.runs 3 {})

/-- The responses of the tasks before it. -/
def responses : List (Option Response) := [none, none, some (.dispatchJob (.dispatched 5 offerTimeout))]

theorem finished_jobs_freed_jobFails :
    (run fourCores (iterated jobFails 3 {} (goesOn 5))).state.manager.drawn.Nodup ∧
      Alone (run fourCores jobFails).state 3 ∧
      (run fourCores (iterated jobFails 3 {} (goesOn 5))).state.tasks[3]? = some (.ended none) ∧
      ∃ now, ListedAt 3 now (run fourCores (iterated jobFails 3 {} (goesOn 5))).history ∧
        (Frees (run fourCores jobFails).state.toShared
            (run fourCores (iterated jobFails 3 {} (goesOn 5))).state.toShared ↔
          ∀ id job, (run fourCores jobFails).state.jobs.jobs.lookup id = some job → job.status.isTerminal = true →
            job.status.isFailed = true ∨ Expires (run fourCores jobFails).state.toShared now job.lease) := by
  have hfresh : (run fourCores (iterated jobFails 3 {} (goesOn 5))).state.manager.drawn.Nodup := by decide +kernel
  have halone : Alone (run fourCores jobFails).state 3 := alone_of_tasks responses (by decide +kernel)
  have hended : (run fourCores (iterated jobFails 3 {} (goesOn 5))).state.tasks[3]? = some (.ended none) := by
    decide +kernel
  exact ⟨hfresh, halone, hended,
    finished_jobs_freed fourCores jobFails (goesOn 5) 3 {} hfresh halone (by decide) hended⟩

theorem jobSucceeds_left :
    (run fourCores (iterated jobSucceeds 3 {} (goesOn 1))).state.manager.drawn.Nodup ∧
      Alone (run fourCores jobSucceeds).state 3 ∧
      (run fourCores (iterated jobSucceeds 3 {} (goesOn 1))).state.tasks[3]? = some (.ended none) ∧
      ¬ Frees (run fourCores jobSucceeds).state.toShared
        (run fourCores (iterated jobSucceeds 3 {} (goesOn 1))).state.toShared := by
  refine ⟨by decide +kernel, alone_of_tasks responses (by decide +kernel), by decide +kernel, fun hfrees => ?_⟩
  have hgone := (hfrees 5 ⟨5, 2, 7, ⟨5, .train "train"⟩, 0, .success none none none⟩ (by decide +kernel) rfl).1
  exact absurd hgone (by decide +kernel)

end Hypha.Worker
