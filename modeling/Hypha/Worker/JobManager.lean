import Hypha.Messages
import Hypha.Lib.Table

/-!
# The job manager

The worker's `job_manager`, with the executions it starts. A job keeps the cancellation token and the monitor of its
execution, which are known by the position of the execution in the order of their start. The monitor of an execution
waits for it to end and then writes its status under the job id it was started with.

* `Job`, `Execution`, `JobManager` : the map of the jobs, and the executions;
* `checkExecutor` : what `execute` checks before it starts an executor;
* `JobAccess`, `JobAccess.apply`, `JobAccess.lookup_cases` : what a stretch writes, and what is in the map then;
* `JobManager.Keyed` : every job is found under its id.
-/

namespace Hypha.Worker

open Hypha.Lib

variable {PeerId : Type}

inductive Status where
  | running
  | success (description out err : Option String)
  | failed (description out err : Option String)
  | cancelled (description out err : Option String)
  deriving DecidableEq

namespace Status

/-- The states in which a job is finished. -/
def isTerminal : Status → Bool
  | .running => false
  | _ => true

def isFailed : Status → Bool
  | .failed .. => true
  | _ => false

theorem isTerminal_of_isFailed {status : Status} (h : status.isFailed = true) : status.isTerminal = true := by
  cases status with
  | failed => rfl
  | _ => cases h

end Status

inductive ExecutorDescriptor where
  | train (name : String)
  | aggregate (name : String)
  deriving DecidableEq

/-- `Executor`, without the configurations that only the executors read. -/
inductive Executor where
  | train (descriptor : String)
  | aggregate (descriptor : String)
  deriving DecidableEq

/-- `ExecutorDescriptor::from`. -/
def Executor.descriptor : Executor → ExecutorDescriptor
  | .train name => .train name
  | .aggregate name => .aggregate name

structure JobSpec where
  jobId : Uuid
  executor : Executor
  deriving DecidableEq

inductive ExecutorRuntime where
  | process
  | parameterServer
  deriving DecidableEq

structure ExecutorConfig where
  descriptor : ExecutorDescriptor
  runtime : ExecutorRuntime
  deriving DecidableEq

inductive JobManagerError where
  | executorNotSupported
  | executorConfigMissing (descriptor : ExecutorDescriptor)
  deriving DecidableEq

/-- `find_executor_config`. -/
def findExecutorConfig (executors : List ExecutorConfig) (descriptor : ExecutorDescriptor) : Option ExecutorConfig :=
  executors.find? fun config => decide (config.descriptor = descriptor)

/-- What `execute` checks before it starts an executor: that one is configured, with the runtime of its kind. -/
def checkExecutor (executors : List ExecutorConfig) (spec : JobSpec) : Except JobManagerError Unit :=
  match findExecutorConfig executors spec.executor.descriptor with
  | none => .error (.executorConfigMissing spec.executor.descriptor)
  | some config =>
    match spec.executor with
    | .train _ => if config.runtime = .process then .ok () else .error .executorNotSupported
    | .aggregate _ => if config.runtime = .parameterServer then .ok () else .error .executorNotSupported

/-- `execution` is the execution whose cancellation token and monitor the job keeps. -/
structure Job (PeerId : Type) where
  id : Uuid
  lease : Uuid
  scheduler : PeerId
  spec : JobSpec
  execution : Nat
  status : Status
  deriving DecidableEq

structure JobDescriptor (PeerId : Type) where
  id : Uuid
  lease : Uuid
  scheduler : PeerId
  spec : JobSpec
  status : Status
  deriving DecidableEq

/-- `JobDescriptor::from`. -/
def Job.descriptor (job : Job PeerId) : JobDescriptor PeerId where
  id := job.id
  lease := job.lease
  scheduler := job.scheduler
  spec := job.spec
  status := job.status

/-- An execution runs, then it stops with a status, then its monitor has written the status and is finished. -/
inductive Phase where
  | running
  | stopped (status : Status)
  | monitored (status : Status)
  deriving DecidableEq

/-- `id` is the job id that its monitor writes to, `cancelled` whether its token is. -/
structure Execution where
  id : Uuid
  cancelled : Bool := false
  phase : Phase := .running
  deriving DecidableEq

structure JobManager (PeerId : Type) where
  jobs : Table Uuid (Job PeerId) := ∅
  executions : List Execution := []

/-- What a stretch writes: nothing; an execution is started, its job recorded, or both in one stretch; a job is removed
and its token cancelled; an execution stops; a monitor writes its status. -/
inductive JobAccess (PeerId : Type) where
  | reads
  | spawns (id : Uuid)
  | records (job : Job PeerId)
  | launches (job : Job PeerId)
  | cancels (id : Uuid) (job : Job PeerId)
  | stops (e : Nat) (status : Status)
  | writes (e : Nat) (id : Uuid) (status : Status)
  deriving DecidableEq

namespace JobManager

variable (m : JobManager PeerId)

/-- `find_jobs_where`. -/
def findJobsWhere (rank : Uuid → Nat) (predicate : JobDescriptor PeerId → Bool) : List (JobDescriptor PeerId) :=
  ((Table.values rank m.jobs).map Job.descriptor).filter predicate

/-- The write of a monitor: the status of the job that is under the id by then. -/
def setStatus (id : Uuid) (status : Status) : Table Uuid (Job PeerId) :=
  match m.jobs.lookup id with
  | some job => m.jobs.insert id { job with status := status }
  | none => m.jobs

end JobManager

/-- The state after the write. -/
def JobAccess.apply (m : JobManager PeerId) : JobAccess PeerId → JobManager PeerId
  | .reads => m
  | .spawns id => { m with executions := m.executions ++ [{ id := id }] }
  | .records job => { m with jobs := m.jobs.insert job.id job }
  | .launches job => { m with jobs := m.jobs.insert job.id job, executions := m.executions ++ [{ id := job.id }] }
  | .cancels id job =>
    { m with
      jobs := m.jobs.erase id
      executions := m.executions.modify job.execution fun x => { x with cancelled := true } }
  | .stops e status => { m with executions := m.executions.modify e fun x => { x with phase := .stopped status } }
  | .writes e id status =>
    { m with
      jobs := m.setStatus id status
      executions := m.executions.modify e fun x => { x with phase := .monitored status } }

/-- Whether a write neither removes a job nor changes its status. -/
def JobAccess.isPlain : JobAccess PeerId → Bool
  | .cancels .. | .writes .. => false
  | _ => true

section Lookup
variable {m : JobManager PeerId} {id : Uuid} {job : Job PeerId} {d : JobDescriptor PeerId}

theorem JobManager.mem_findJobsWhere {rank : Uuid → Nat} {predicate : JobDescriptor PeerId → Bool} :
    d ∈ m.findJobsWhere rank predicate ↔
      (∃ id job, m.jobs.lookup id = some job ∧ job.descriptor = d) ∧ predicate d = true := by
  unfold findJobsWhere
  rw [List.mem_filter, List.mem_map]
  refine and_congr_left fun _ => ⟨?_, ?_⟩
  · rintro ⟨job, hmem, rfl⟩
    obtain ⟨id, hid⟩ := Table.mem_values.mp hmem
    exact ⟨id, job, hid, rfl⟩
  · rintro ⟨id, job, hid, rfl⟩
    exact ⟨job, Table.mem_values.mpr ⟨id, hid⟩, rfl⟩

/-- What is found after the write of a monitor. -/
theorem JobManager.lookup_setStatus {k : Uuid} {status : Status} (h : (m.setStatus k status).lookup id = some job) :
    (k ≠ id ∧ m.jobs.lookup id = some job) ∨
      ∃ old, k = id ∧ m.jobs.lookup id = some old ∧ job = { old with status := status } := by
  unfold setStatus at h
  split at h
  · next old hold =>
    rcases Table.lookup_insert_iff.mp h with ⟨rfl, rfl⟩ | ⟨hne, h⟩
    · exact Or.inr ⟨old, rfl, hold, rfl⟩
    · exact Or.inl ⟨hne.symm, h⟩
  · next hnone =>
    refine Or.inl ⟨fun hk => ?_, h⟩
    rw [hk, h] at hnone
    cases hnone

/-- The write of a monitor keeps the jobs, with their executions. -/
theorem JobManager.setStatus_lookup (h : m.jobs.lookup id = some job) (k : Uuid) (status : Status) :
    ∃ job', (m.setStatus k status).lookup id = some job' ∧ job'.execution = job.execution := by
  unfold setStatus
  split
  · next old hold =>
    by_cases hk : id = k
    · subst hk
      obtain rfl := Option.some.inj (h.symm.trans hold)
      exact ⟨{ job with status := status }, Table.lookup_insert_iff.mpr (Or.inl ⟨rfl, rfl⟩), rfl⟩
    · exact ⟨job, Table.lookup_insert_iff.mpr (Or.inr ⟨hk, h⟩), rfl⟩
  · exact ⟨job, h, rfl⟩

/-- **The map after a write**: a job was there before and is neither removed nor written to, or it was there and a
monitor writes its status, or it is recorded. -/
theorem JobAccess.lookup_cases {access : JobAccess PeerId} (h : (access.apply m).jobs.lookup id = some job) :
    (m.jobs.lookup id = some job ∧ (∀ k, access ≠ .cancels id k) ∧ ∀ e status, access ≠ .writes e id status) ∨
      (∃ old e status, access = .writes e id status ∧ m.jobs.lookup id = some old ∧
        job = { old with status := status }) ∨
      (job.id = id ∧ (access = .records job ∨ access = .launches job)) := by
  -- what is neither a removal nor the write of a monitor leaves what it finds
  have hkept : m.jobs.lookup id = some job → access.isPlain = true →
      m.jobs.lookup id = some job ∧ (∀ k, access ≠ .cancels id k) ∧ ∀ e status, access ≠ .writes e id status := by
    intro hold hplain
    refine ⟨hold, ?_, ?_⟩
    · rintro k rfl
      cases hplain
    · rintro e status rfl
      cases hplain
  cases access with
  | records new =>
    rcases Table.lookup_insert_iff.mp h with ⟨hid, rfl⟩ | ⟨-, h⟩
    · exact Or.inr (Or.inr ⟨hid.symm, Or.inl rfl⟩)
    · exact Or.inl (hkept h rfl)
  | launches new =>
    rcases Table.lookup_insert_iff.mp h with ⟨hid, rfl⟩ | ⟨-, h⟩
    · exact Or.inr (Or.inr ⟨hid.symm, Or.inr rfl⟩)
    · exact Or.inl (hkept h rfl)
  | cancels key removed =>
    obtain ⟨hne, h⟩ := Table.lookup_erase_iff.mp h
    refine Or.inl ⟨h, fun k heq => hne ?_, fun _ _ heq => ?_⟩
    · cases heq
      rfl
    · cases heq
  | writes e key status =>
    rcases JobManager.lookup_setStatus h with ⟨hne, h⟩ | ⟨old, rfl, hold, rfl⟩
    · refine Or.inl ⟨h, fun _ heq => ?_, fun e' status' heq => hne ?_⟩
      · cases heq
      · cases heq
        rfl
    · exact Or.inr (Or.inl ⟨old, e, status, rfl, hold, rfl⟩)
  | reads => exact Or.inl (hkept h rfl)
  | spawns key => exact Or.inl (hkept h rfl)
  | stops e status => exact Or.inl (hkept h rfl)

/-- Every job is found under its id. -/
def JobManager.Keyed (m : JobManager PeerId) : Prop := ∀ id job, m.jobs.lookup id = some job → job.id = id

theorem JobManager.Keyed.initial : JobManager.Keyed ({} : JobManager PeerId) := by
  intro id job hjob
  cases (AList.lookup_empty id).symm.trans hjob

theorem JobManager.Keyed.apply (hkeyed : m.Keyed) (access : JobAccess PeerId) : (access.apply m).Keyed := by
  intro id job hjob
  rcases JobAccess.lookup_cases hjob with ⟨hold, -⟩ | ⟨old, e, status, -, hold, rfl⟩ | ⟨hid, -⟩
  · exact hkeyed id job hold
  · exact hkeyed id old hold
  · exact hid

end Lookup

end Hypha.Worker
