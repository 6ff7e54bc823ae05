import Hypha.Worker.Holding

/-!
# Jobs and their leases

A dispatch looks up some lease of its peer, starts the executor and records the job with the lease. Nothing marks the
lease as used, and nothing looks at the ledger again when the job is recorded. The prune loop removes leases, and
cancels the jobs that it then finds or has found.

* `Task.carries`, `Arbiter.carried` : the jobs with their leases, in the map and under way;
* `UsesFree`, `one_job_per_lease` : a lease has one job if every dispatch finds a free one; `sharedLease_shared` : two
  jobs of one lease;
* `Task.owes` : the jobs that the prune loop goes on to cancel;
* `RemovesOwed`, `RecordsOwed`, `no_job_outlives_lease` : jobs have their leases if none is left behind by a removal and
  none recorded too late; `recordedTooLate_left` : a job without a lease.
-/

namespace Hypha.Worker

open Hypha.Lib

set_option linter.unusedSectionVars false

variable {PeerId : Type} [DecidableEq PeerId] {cfg : Config} {w : Arbiter PeerId} {h : List (ArbiterStep PeerId)}

/-- The access to the job manager that an effect makes. -/
def Effect.jobAccess : Effect PeerId → JobAccess PeerId
  | .lease _ => .reads
  | .job access => access

theorem Effect.apply_jobs (s : Shared PeerId) (effect : Effect PeerId) :
    (effect.apply s).jobs = effect.jobAccess.apply s.jobs := by
  cases effect <;> rfl

/-- Jobs are found under their ids throughout a run. -/
theorem run_jobs_keyed (cfg : Config) (happenings : List (Happening PeerId)) :
    (run cfg happenings).state.jobs.Keyed := by
  refine (run_state_rule (fun w => w.jobs.Keyed) (fun _ _ => True) JobManager.Keyed.initial ?_ happenings
    (along_true _)).1
  intro w h a effect tasks hkeyed _ _
  show (effect.apply w.toShared).jobs.Keyed
  rw [Effect.apply_jobs]
  exact hkeyed.apply effect.jobAccess

/-- The id of a job and that of its lease. -/
structure Carriage where
  id : Uuid
  lease : Uuid
  deriving DecidableEq

/-- The job of a dispatch that has found a lease, and the lease. -/
def Task.carries : Task PeerId → Option Carriage
  | .starting _ id _ lease => some ⟨id, lease.id⟩
  | .recording job _ => some ⟨job.id, job.lease⟩
  | _ => none

/-- The job that a dispatch records in a stretch, and its lease. -/
def Task.recorded? (r : Moment) : Task PeerId → Option Carriage
  | .starting _ id _ lease => if r.ok && !r.waits then some ⟨id, lease.id⟩ else none
  | .recording job _ => some ⟨job.id, job.lease⟩
  | _ => none

theorem Task.carries_of_recorded? {r : Moment} {t : Task PeerId} {x : Carriage}
    (hrecorded : t.recorded? r = some x) : t.carries = some x := by
  cases t with
  | starting peer id spec lease =>
    unfold Task.recorded? at hrecorded
    split_ifs at hrecorded
    exact hrecorded
  | recording job timeout => exact hrecorded
  | _ => cases hrecorded

theorem Task.isServing_of_carries {t : Task PeerId} {x : Carriage} (hcarries : t.carries = some x) :
    t.isServing = true := by
  cases t with
  | starting | recording => rfl
  | _ => cases hcarries

/-- The jobs with their leases: those in the map, and those of the dispatches under way. -/
def Arbiter.carried (w : Arbiter PeerId) : List Carriage :=
  (w.jobs.jobs.entries.map fun x => ⟨x.1, x.2.lease⟩) ++ w.tasks.filterMap Task.carries

theorem mem_carried {id lease : Uuid} :
    ⟨id, lease⟩ ∈ w.carried ↔
      (∃ job, w.jobs.jobs.lookup id = some job ∧ job.lease = lease) ∨ ∃ t ∈ w.tasks, t.carries = some ⟨id, lease⟩ := by
  unfold Arbiter.carried
  rw [List.mem_append, List.mem_filterMap]
  refine or_congr ⟨?_, ?_⟩ Iff.rfl
  · intro hmem
    obtain ⟨⟨key, job⟩, hentry, heq⟩ := List.mem_map.mp hmem
    obtain ⟨rfl, rfl⟩ := Carriage.mk.inj heq
    exact ⟨job, AList.mem_lookup_iff.mpr hentry, rfl⟩
  · rintro ⟨job, hjob, rfl⟩
    exact List.mem_map.mpr ⟨⟨id, job⟩, AList.mem_lookup_iff.mp hjob, rfl⟩

section Taken
variable {a : Happening PeerId} {effect : Effect PeerId} {tasks : List (Task PeerId)}

/-- A job is recorded by the dispatch that carries it. -/
theorem Steps.recorded {job : Job PeerId} (hsteps : Steps cfg w a effect tasks)
    (hrecords : effect.jobAccess = .records job ∨ effect.jobAccess = .launches job) :
    ∃ i r t, a = .runs i r ∧ w.tasks[i]? = some t ∧ t.recorded? r = some ⟨job.id, job.lease⟩ := by
  have hnone : ∀ {access : JobAccess PeerId}, access = .records job ∨ access = .launches job → access ≠ .reads := by
    rintro access (rfl | rfl) heq <;> cases heq
  cases hsteps with
  | runs i r t t' effect spawned ht hruns =>
    refine ⟨i, r, t, rfl, ht, ?_⟩
    cases hruns with
    | spawns peer id spec lease hok hwaits => rcases hrecords with heq | heq <;> cases heq
    | launches peer id spec lease hok hwaits =>
      rcases hrecords with heq | heq
      · cases heq
      · cases heq
        simp [Task.recorded?, hok, hwaits]
    | records job' timeout =>
      rcases hrecords with heq | heq
      · cases heq
        rfl
      · cases heq
    | cancels id job' after hjob => rcases hrecords with heq | heq <;> cases heq
    | _ => exact absurd rfl (hnone hrecords)
  | stops => rcases hrecords with heq | heq <;> cases heq
  | writes => rcases hrecords with heq | heq <;> cases heq
  | _ => exact absurd rfl (hnone hrecords)

/-- The jobs with their leases after a step: one that was there, or one whose dispatch has just found its lease. -/
theorem Steps.carried {id lease : Uuid} (hsteps : Steps cfg w a effect tasks)
    (hcarried : ⟨id, lease⟩ ∈ Arbiter.carried ⟨effect.apply w.toShared, tasks⟩) :
    ⟨id, lease⟩ ∈ w.carried ∨
      ∃ i r peer spec found, a = .runs i r ∧ w.tasks[i]? = some (.looking peer id spec) ∧
        w.manager.getByPeer r.toReading peer = .ok found ∧ found.id = lease := by
  rcases mem_carried.mp hcarried with ⟨job, hjob, rfl⟩ | ⟨u, hu, hcarries⟩
  · apply Or.inl
    rw [mem_carried]
    rw [Effect.apply_jobs] at hjob
    rcases JobAccess.lookup_cases hjob with ⟨hold, -⟩ | ⟨old, e, status, -, hold, rfl⟩ | ⟨rfl, hrecords⟩
    · exact Or.inl ⟨job, hold, rfl⟩
    · exact Or.inl ⟨old, hold, rfl⟩
    · obtain ⟨i, r, t, -, ht, hrecorded⟩ := hsteps.recorded hrecords
      exact Or.inr ⟨t, List.mem_of_getElem? ht, Task.carries_of_recorded? hrecorded⟩
  · have hserving := Task.isServing_of_carries hcarries
    rcases hsteps.mem_cases hu with hold | ⟨i, r, t, spawned, rfl, ht, hruns⟩ | hbegins
    · exact Or.inl (mem_carried.mpr (Or.inr ⟨u, hold, hcarries⟩))
    · cases hruns.precedes hserving with
      | looksUp peer id' spec key found hlease howner hfound =>
        cases hcarries
        exact Or.inr ⟨i, r, peer, spec, found, rfl, ht, hfound, rfl⟩
      | spawns peer id' spec found hok hwaits =>
        cases hcarries
        exact Or.inl (mem_carried.mpr (Or.inr ⟨_, List.mem_of_getElem? ht, rfl⟩))
      | _ => cases hcarries
    · cases hbegins.serving hserving <;> cases hcarries

end Taken

/-! ## One job per lease -/

/-- No two jobs in the map carry the same lease. -/
def OnePerLease (m : JobManager PeerId) : Prop :=
  ∀ id id' job job', m.jobs.lookup id = some job → m.jobs.lookup id' = some job' → job.lease = job'.lease → id = id'

/-- The job of a dispatch that looks for a lease of its peer, and the lease that it finds. -/
def lookedUp? (e : ArbiterStep PeerId) : Option Carriage :=
  match e.input, running e with
  | .runs _ r, some (.looking peer id _) =>
    (e.pre.manager.getByPeer r.toReading peer).toOption.map fun lease => ⟨id, lease.id⟩
  | _, _ => none

/-- When a dispatch looks for a lease of its peer, the one that it finds is carried by no job of another id, neither in
the map nor under way. -/
def UsesFree (e : ArbiterStep PeerId) : Prop :=
  ∀ y ∈ lookedUp? e, ∀ x ∈ e.pre.carried, x.lease = y.lease → x.id = y.id

instance (e : ArbiterStep PeerId) : Decidable (UsesFree e) :=
  inferInstanceAs (Decidable (∀ y ∈ lookedUp? e, ∀ x ∈ e.pre.carried, x.lease = y.lease → x.id = y.id))

/-- Jobs with the same lease, in the map or under way, have the same id. -/
def Separate (w : Arbiter PeerId) : Prop :=
  ∀ id id' lease, ⟨id, lease⟩ ∈ w.carried → ⟨id', lease⟩ ∈ w.carried → id = id'

theorem Separate.step {a : Happening PeerId} {effect : Effect PeerId} {tasks : List (Task PeerId)} (hI : Separate w)
    (hsteps : Steps cfg w a effect tasks) (hfree : UsesFree (taken w a effect tasks)) :
    Separate ⟨effect.apply w.toShared, tasks⟩ := by
  -- the ids of those that were there are that of the dispatch that finds their lease
  have hfound : ∀ {i r peer id spec found id'}, a = .runs i r → w.tasks[i]? = some (.looking peer id spec) →
      w.manager.getByPeer r.toReading peer = .ok found → ⟨id', found.id⟩ ∈ w.carried → id' = id := by
    rintro i r peer id spec found id' rfl ht hget hcarried
    have hlooked : lookedUp? (taken w (.runs i r) effect tasks) = some ⟨id, found.id⟩ := by
      simp [lookedUp?, taken, running, ht, hget, Except.toOption]
    exact hfree ⟨id, found.id⟩ hlooked ⟨id', found.id⟩ hcarried rfl
  intro id id' lease hcarried hcarried'
  rcases hsteps.carried hcarried with hold | ⟨i, r, peer, spec, found, ha, ht, hget, rfl⟩
  · rcases hsteps.carried hcarried' with hold' | ⟨i, r, peer, spec, found, ha, ht, hget, rfl⟩
    · exact hI id id' lease hold hold'
    · exact hfound ha ht hget hold
  · rcases hsteps.carried hcarried' with hold' | ⟨i', r', peer', spec', found', ha', ht', hget', hid⟩
    · exact (hfound ha ht hget hold').symm
    · cases ha.symm.trans ha'
      cases ht.symm.trans ht'
      rfl

/-- **One job per lease** if every dispatch finds a lease that no other job carries. -/
theorem one_job_per_lease (cfg : Config) (happenings : List (Happening PeerId))
    (hfree : Along (fun e _ => UsesFree e) (run cfg happenings).history) :
    OnePerLease (run cfg happenings).state.jobs := by
  have hinitial : Separate (Arbiter.initial cfg : Arbiter PeerId) :=
    fun _ _ _ hcarried => absurd hcarried List.not_mem_nil
  obtain ⟨hseparate, -⟩ := run_state_rule Separate (fun e _ => UsesFree e) hinitial
    (fun _ _ _ _ _ hI hsteps hc => hI.step hsteps hc) happenings hfree
  intro id id' job job' hjob hjob' hlease
  exact hseparate id id' job.lease (mem_carried.mpr (Or.inl ⟨job, hjob, rfl⟩))
    (mem_carried.mpr (Or.inl ⟨job', hjob', hlease.symm⟩))

theorem one_job_per_lease_dispatched : Along (fun e _ => UsesFree e) (run fourCores dispatched).history ∧
    OnePerLease (run fourCores dispatched).state.jobs := by
  have hfree : Along (fun e _ => UsesFree e) (run fourCores dispatched).history := by decide +kernel
  exact ⟨hfree, one_job_per_lease _ _ hfree⟩

/-- The scheduler dispatches a second job. -/
def sharedLease : List (Happening Nat) :=
  List.flatten [dispatched, [.dispatches 7 6 ⟨6, .train "train"⟩, .runs 3 {}, .runs 3 {}]]

theorem sharedLease_shared : ¬ OnePerLease (run fourCores sharedLease).state.jobs := by
  intro hone
  have hsame := hone 5 6 ⟨5, 2, 7, ⟨5, .train "train"⟩, 0, .running⟩ ⟨6, 2, 7, ⟨6, .train "train"⟩, 1, .running⟩
    (by decide +kernel) (by decide +kernel) rfl
  exact absurd hsame (by decide)

/-! ## No job without its lease -/

/-- The failed ones among finished jobs, which the prune loop cancels. -/
def failedIds (jobs : List (JobDescriptor PeerId)) : List Uuid :=
  (jobs.filter fun job => job.status.isFailed).map JobDescriptor.id

/-- Whether the prune loop goes on to cancel a job of a lease. -/
def After.owes (id lease : Uuid) : After PeerId → Prop
  | .finished rest => id ∈ failedIds rest
  | .linked _ jobs leases => id ∈ jobs.map JobDescriptor.id ∨ lease ∈ leases.map Lease.id

/-- Whether the prune loop goes on to cancel a job of a lease: because the job has failed, or because it has removed the
lease and has yet to look for its jobs or to come to this one. -/
def Task.owes (id lease : Uuid) : Task PeerId → Prop
  | .pruning (.revoking _ job rest) => id = job.id ∨ id ∈ failedIds rest
  | .pruning (.proceeding (.removing (.taking _) _ removed)) => lease ∈ removed.map Lease.id
  | .pruning (.proceeding (.removing (.releasing current) _ removed)) =>
    lease = current.id ∨ lease ∈ removed.map Lease.id
  | .pruning (.linking current leases) => lease = current.id ∨ lease ∈ leases.map Lease.id
  | .pruning (.cancelling current after) => id = current ∨ after.owes id lease
  | .pruning (.joining _ after) => after.owes id lease
  | _ => False

instance (id lease : Uuid) : (after : After PeerId) → Decidable (after.owes id lease)
  | .finished rest => inferInstanceAs (Decidable (id ∈ failedIds rest))
  | .linked _ jobs leases =>
    inferInstanceAs (Decidable (id ∈ jobs.map JobDescriptor.id ∨ lease ∈ leases.map Lease.id))

instance (id lease : Uuid) (t : Task PeerId) : Decidable (t.owes id lease) := by
  unfold Task.owes
  split <;> infer_instance

/-- The lease that a task is about to take out of the ledger. -/
def Task.taking? : Task PeerId → Option Uuid
  | .withdrawing (.taking id) => some id
  | .pruning (.revoking (.taking id) _ _) => some id
  | .pruning (.proceeding (.removing (.taking id) _ _)) => some id
  | _ => none

/-- Whether a task that takes a lease out of the ledger goes on to cancel a job of it: the prune loop all of them if the
lease has expired, but if a job has failed only the failed ones it has found, and nobody any if an offer is withdrawn. -/
def Task.follows (id : Uuid) : Task PeerId → Prop
  | .pruning (.revoking _ job rest) => id = job.id ∨ id ∈ failedIds rest
  | .pruning (.proceeding _) => True
  | _ => False

section Owes
variable {id lease : Uuid}

@[simp] theorem owes_nextLease (leases : List (WorkerLease PeerId)) :
    (nextLease leases).owes id lease ↔ lease ∈ leases.map Lease.id := by
  cases leases with
  | nil => simp [nextLease, Task.owes]
  | cons current leases => simp [nextLease, Task.owes]

@[simp] theorem owes_nextExpired (removed rest : List (WorkerLease PeerId)) :
    (nextExpired removed rest).owes id lease ↔ lease ∈ removed.map Lease.id := by
  cases rest with
  | nil => exact owes_nextLease removed
  | cons current rest => exact Iff.rfl

@[simp] theorem owes_nextLinked (current : WorkerLease PeerId) (leases : List (WorkerLease PeerId))
    (jobs : List (JobDescriptor PeerId)) :
    (nextLinked current leases jobs).owes id lease ↔
      id ∈ jobs.map JobDescriptor.id ∨ lease ∈ leases.map Lease.id := by
  cases jobs with
  | nil => simp [nextLinked]
  | cons job jobs => simp [nextLinked, Task.owes, After.owes, or_assoc]

@[simp] theorem owes_nextFinished (jobs : List (JobDescriptor PeerId)) :
    (Task.pruning (nextFinished jobs)).owes id lease ↔ id ∈ failedIds jobs := by
  induction jobs with
  | nil => simp [nextFinished, Task.owes, failedIds]
  | cons job jobs ih =>
    unfold nextFinished
    split_ifs with hfailed
    · simp [Task.owes, failedIds, hfailed]
    · rw [ih]
      simp [failedIds, hfailed]

@[simp] theorem owes_after (after : After PeerId) : after.next.owes id lease ↔ after.owes id lease := by
  cases after with
  | finished rest => exact owes_nextFinished rest
  | linked current jobs leases => exact owes_nextLinked current leases jobs

/-- The prune loop goes on to cancel what it owes, as long as that is in the map. -/
theorem Runs.owes {s : Shared PeerId} {r : Moment} {t t' : Task PeerId} {effect : Effect PeerId}
    {spawned : List (Task PeerId)} {job : Job PeerId} (hruns : Runs cfg s r t effect t' spawned)
    (hrelease : ∀ reservation, t.held = some reservation → ∃ resources, s.manager.release reservation = .ok resources)
    (hkeyed : s.jobs.Keyed) (hjob : (effect.apply s).jobs.jobs.lookup id = some job) (howes : t.owes id job.lease) :
    t'.owes id job.lease := by
  cases hruns with
  | revokeTakes key current failed rest hlease => exact howes
  | revokeMisses key failed rest hlease => exact howes
  | revokeFrees current failed rest => exact howes
  | proceedTakes key current rest removed hlease => exact Or.inr howes
  | proceedMisses key rest removed hlease => exact (owes_nextExpired removed rest).mpr howes
  | proceedFrees current rest removed =>
    rw [owes_nextExpired, List.map_append, List.mem_append, List.map_singleton, List.mem_singleton]
    exact howes.symm
  | proceedErrs current rest removed herr =>
    obtain ⟨resources, hok⟩ := hrelease _ rfl
    cases herr.symm.trans hok
  | links current leases =>
    rw [owes_nextLinked]
    refine howes.imp (fun hlease => ?_) fun hlater => hlater
    have hmem : job.descriptor ∈ s.jobs.findJobsWhere r.rank fun job => decide (job.lease = current.id) :=
      JobManager.mem_findJobsWhere.mpr ⟨⟨id, job, hjob, rfl⟩, decide_eq_true hlease⟩
    exact List.mem_map.mpr ⟨job.descriptor, hmem, hkeyed id job hjob⟩
  | cancels key removed after hkey =>
    rcases howes with rfl | hafter
    · exact absurd rfl (Table.lookup_erase_iff.mp hjob).1
    · exact hafter
  | cancelMisses key after hkey =>
    rw [owes_after]
    rcases howes with rfl | hafter
    · cases hkey.symm.trans hjob
    · exact hafter
  | joins execution after x status hx hphase => exact (owes_after after).mpr howes
  | _ => exact howes.elim

/-- A task that takes a lease out of the ledger was about to, and goes on to cancel what it is said to. -/
theorem Runs.takes {s : Shared PeerId} {r : Moment} {t t' : Task PeerId} {effect : Effect PeerId}
    {spawned : List (Task PeerId)} {current : WorkerLease PeerId} (hruns : Runs cfg s r t effect t' spawned)
    (hkeyed : Keyed s.manager) (htakes : effect.access = .takes lease current) :
    t.taking? = some lease ∧ lease ∈ s.manager.ledger ∧ (t.follows id → t'.owes id lease) := by
  cases hruns with
  | withdrawTakes key found hlease =>
    cases htakes
    exact ⟨rfl, Table.mem_of_lookup hlease, False.elim⟩
  | revokeTakes key found failed rest hlease =>
    cases htakes
    exact ⟨rfl, Table.mem_of_lookup hlease, fun hfollows => hfollows⟩
  | proceedTakes key found rest removed hlease =>
    cases htakes
    exact ⟨rfl, Table.mem_of_lookup hlease, fun _ => Or.inl (hkeyed.key _ _ hlease).symm⟩
  | _ => cases htakes

end Owes

/-- The dispatches that are under way. -/
def Task.isDispatching : Task PeerId → Bool
  | .looking .. | .starting .. | .recording .. => true
  | _ => false

/-- No dispatch and no iteration of the prune loop is under way. -/
def Arbiter.Quiet (w : Arbiter PeerId) : Prop :=
  ∀ t ∈ w.tasks, t.isPruning = false ∧ t.isDispatching = false

/-- Every job in the map refers to a lease of the ledger. -/
def Leased (s : Shared PeerId) : Prop := ∀ id job, s.jobs.jobs.lookup id = some job → job.lease ∈ s.manager.ledger

/-- When a task takes a lease out of the ledger it goes on to cancel all jobs of the lease that are in the map. -/
def RemovesOwed (e : ArbiterStep PeerId) : Prop :=
  ∀ task ∈ running e, ∀ x ∈ e.pre.jobs.jobs.entries, task.taking? = some x.2.lease →
    x.2.lease ∈ e.pre.manager.ledger → task.follows x.1

/-- What a task reads when it runs. -/
def Happening.moment? : Happening PeerId → Option Moment
  | .runs _ r => some r
  | _ => none

/-- When a dispatch records its job the lease is still in the ledger, or the prune loop has yet to cancel the job. -/
def RecordsOwed (e : ArbiterStep PeerId) : Prop :=
  ∀ task ∈ running e, ∀ r ∈ e.input.moment?, ∀ x ∈ task.recorded? r,
    x.lease ∈ e.pre.manager.ledger ∨ ∃ t ∈ e.pre.tasks, t.owes x.id x.lease

/-- A job in the map has its lease, or the prune loop has yet to cancel it. -/
structure Sheltered (w : Arbiter PeerId) : Prop where
  safe : Safe w
  keyed : w.jobs.Keyed
  owed : ∀ id job, w.jobs.jobs.lookup id = some job →
    job.lease ∈ w.manager.ledger ∨ ∃ t ∈ w.tasks, t.owes id job.lease

section Step
variable {a : Happening PeerId} {effect : Effect PeerId} {tasks : List (Task PeerId)}

/-- What a job that was there and is still there has after a step. -/
theorem Sheltered.step_old (hI : Sheltered w) (hsteps : Steps cfg w a effect tasks)
    (hremoves : RemovesOwed (taken w a effect tasks)) {id : Uuid} {job old : Job PeerId}
    (hold : w.jobs.jobs.lookup id = some old) (hlease : old.lease = job.lease)
    (hjob : (effect.apply w.toShared).jobs.jobs.lookup id = some job) :
    job.lease ∈ (effect.apply w.toShared).manager.ledger ∨ ∃ t ∈ tasks, t.owes id job.lease := by
  rcases hI.owed id old hold with hmem | ⟨u, hu, howes⟩
  · rcases effect.access.mem_ledger hmem with hkept | ⟨current, htakes⟩
    · rw [Effect.apply_manager, ← hlease]
      exact Or.inl hkept
    · have haccess : effect.access ≠ .reads := by
        rw [htakes]
        exact fun heq => by cases heq
      obtain ⟨i, r, t, t', spawned, rfl, ht, hruns, rfl⟩ := hsteps.runs_of_access haccess
      obtain ⟨htaking, hin, howes⟩ := hruns.takes hI.safe.keyed htakes
      have hfollows : t.follows id :=
        hremoves t ht ⟨id, old⟩ (AList.mem_lookup_iff.mp hold) htaking hin
      rw [← hlease]
      exact Or.inr ⟨t', List.mem_of_getElem? (getElem?_ran ht), howes hfollows⟩
  · obtain ⟨j, hj⟩ := List.mem_iff_getElem?.mp hu
    rw [hlease] at howes
    rcases hsteps.goes_on hj with ⟨hkept, -⟩ | ⟨r, u', spawned, -, hu', hruns⟩
    · exact Or.inr ⟨u, List.mem_of_getElem? hkept, howes⟩
    · exact Or.inr ⟨u', List.mem_of_getElem? hu', hruns.owes (hI.safe.release hj) hI.keyed hjob howes⟩

/-- What a job that has just been recorded has. -/
theorem Sheltered.step_new (hsteps : Steps cfg w a effect tasks) (hrecords : RecordsOwed (taken w a effect tasks))
    {job : Job PeerId} (hrecorded : effect.jobAccess = .records job ∨ effect.jobAccess = .launches job) :
    job.lease ∈ (effect.apply w.toShared).manager.ledger ∨ ∃ t ∈ tasks, t.owes job.id job.lease := by
  obtain ⟨i, r, t, rfl, ht, hrecorded'⟩ := hsteps.recorded hrecorded
  have hmanager : (effect.apply w.toShared).manager = w.manager := by
    cases effect with
    | lease access => rcases hrecorded with heq | heq <;> cases heq
    | job access => rfl
  rw [hmanager]
  refine (hrecords t ht r rfl _ hrecorded').imp_right ?_
  rintro ⟨u, hu, howes⟩
  obtain ⟨j, hj⟩ := List.mem_iff_getElem?.mp hu
  rcases hsteps.goes_on hj with ⟨hkept, -⟩ | ⟨r', u', spawned, ha, -, -⟩
  · exact ⟨u, List.mem_of_getElem? hkept, howes⟩
  · -- the prune loop does not record jobs
    cases ha
    obtain rfl := Option.some.inj (ht.symm.trans hj)
    cases t with
    | pruning point => cases hrecorded'
    | _ => exact howes.elim

theorem Sheltered.step (hI : Sheltered w) (hsteps : Steps cfg w a effect tasks)
    (hfresh : Fresh (taken w a effect tasks)) (hremoves : RemovesOwed (taken w a effect tasks))
    (hrecords : RecordsOwed (taken w a effect tasks)) :
    Sheltered ⟨effect.apply w.toShared, tasks⟩ := by
  refine ⟨hI.safe.step hsteps hfresh, ?_, fun id job hjob => ?_⟩
  · rw [Effect.apply_jobs]
    exact hI.keyed.apply effect.jobAccess
  · have hjob' := hjob
    rw [Effect.apply_jobs] at hjob'
    rcases JobAccess.lookup_cases hjob' with ⟨hold, -⟩ | ⟨old, e, status, -, hold, rfl⟩ | ⟨rfl, hrecorded⟩
    · exact hI.step_old hsteps hremoves hold rfl hjob
    · exact hI.step_old hsteps hremoves hold rfl hjob
    · exact Sheltered.step_new hsteps hrecords hrecorded

end Step

theorem Sheltered.initial (cfg : Config) : Sheltered (Arbiter.initial cfg : Arbiter PeerId) := by
  refine ⟨Safe.initial cfg, JobManager.Keyed.initial, fun id job hjob => ?_⟩
  cases (AList.lookup_empty id).symm.trans hjob

/-- When nothing is under way that could cancel it a job has its lease. -/
theorem Sheltered.leased (hI : Sheltered w) (hquiet : w.Quiet) : Leased w.toShared := by
  intro id job hjob
  rcases hI.owed id job hjob with hmem | ⟨t, ht, howes⟩
  · exact hmem
  · have hpruning := (hquiet t ht).1
    cases t with
    | pruning point => cases hpruning
    | _ => exact howes.elim

/-- **No job outlives its lease** if no UUID is drawn twice, whoever removes a lease goes on to cancel its jobs, and a
job is recorded only as long as its lease is in the ledger or the prune loop has yet to cancel it. -/
theorem no_job_outlives_lease (cfg : Config) (happenings : List (Happening PeerId))
    (hfresh : (run cfg happenings).state.manager.drawn.Nodup)
    (howed : Along (fun e _ => RemovesOwed e ∧ RecordsOwed e) (run cfg happenings).history)
    (hquiet : (run cfg happenings).state.Quiet) : Leased (run cfg happenings).state.toShared := by
  obtain ⟨hsheltered, -⟩ := run_state_rule Sheltered (fun e _ => Fresh e ∧ RemovesOwed e ∧ RecordsOwed e)
    (Sheltered.initial cfg) (fun _ _ _ _ _ hI hsteps hc => hI.step hsteps hc.1 hc.2.1 hc.2.2) happenings
    ((along_fresh happenings hfresh).and howed)
  exact hsheltered.leased hquiet

instance (w : Arbiter PeerId) : Decidable w.Quiet :=
  inferInstanceAs (Decidable (∀ t ∈ w.tasks, t.isPruning = false ∧ t.isDispatching = false))

instance (id : Uuid) (t : Task PeerId) : Decidable (t.follows id) := by
  unfold Task.follows
  split <;> infer_instance

instance (e : ArbiterStep PeerId) : Decidable (RemovesOwed e) :=
  inferInstanceAs (Decidable (∀ task ∈ running e, ∀ x ∈ e.pre.jobs.jobs.entries, task.taking? = some x.2.lease →
    x.2.lease ∈ e.pre.manager.ledger → task.follows x.1))

instance (e : ArbiterStep PeerId) : Decidable (RecordsOwed e) :=
  inferInstanceAs (Decidable (∀ task ∈ running e, ∀ r ∈ e.input.moment?, ∀ x ∈ task.recorded? r,
    x.lease ∈ e.pre.manager.ledger ∨ ∃ t ∈ e.pre.tasks, t.owes x.id x.lease))

/-- Peer 8 gets a lease and dispatches a job as well, later; the lease of peer 7 expires and its job is cancelled. -/
def oneExpires : List (Happening Nat) :=
  List.flatten [dispatched, served 3 8 { cpu := 1 } 3 4 1, [.dispatches 8 6 ⟨6, .train "train"⟩, .runs 5 { now := 1 },
    .runs 5 { now := 1 }, .ticks], List.replicate 6 (.runs 6 { now := offerTimeout }),
    [.stops 0 (.cancelled none none none), .writes 0, .runs 6 { now := offerTimeout }]]

theorem no_job_outlives_lease_oneExpires :
    (run fourCores oneExpires).state.manager.drawn.Nodup ∧
      Along (fun e _ => RemovesOwed e ∧ RecordsOwed e) (run fourCores oneExpires).history ∧
      (run fourCores oneExpires).state.Quiet ∧ (run fourCores oneExpires).state.jobs.jobs.entries.length = 1 ∧
      Leased (run fourCores oneExpires).state.toShared := by
  have hfresh : (run fourCores oneExpires).state.manager.drawn.Nodup := by decide +kernel
  have howed : Along (fun e _ => RemovesOwed e ∧ RecordsOwed e) (run fourCores oneExpires).history := by decide +kernel
  have hquiet : (run fourCores oneExpires).state.Quiet := by decide +kernel
  exact ⟨hfresh, howed, hquiet, by decide +kernel, no_job_outlives_lease _ _ hfresh howed hquiet⟩

/-- A dispatch has found its lease; the lease expires and is pruned, without any job in the map; the job is recorded. -/
def recordedTooLate : List (Happening Nat) :=
  List.flatten [served 0 7 { cpu := 1 } 1 2 0, [.dispatches 7 5 ⟨5, .train "train"⟩, .runs 2 {}, .ticks],
    List.replicate 5 (.runs 3 { now := offerTimeout }), [.runs 2 { now := offerTimeout }]]

theorem recordedTooLate_left :
    (run fourCores recordedTooLate).state.manager.drawn.Nodup ∧ Along Steady (run fourCores recordedTooLate).history ∧
      (run fourCores recordedTooLate).state.Quiet ∧ ¬ Leased (run fourCores recordedTooLate).state.toShared := by
  refine ⟨by decide +kernel, by decide +kernel, by decide +kernel, fun hleased => ?_⟩
  have hmem := hleased 5 ⟨5, 2, 7, ⟨5, .train "train"⟩, 0, .running⟩ (by decide +kernel)
  exact absurd hmem (by decide +kernel)

end Hypha.Worker
