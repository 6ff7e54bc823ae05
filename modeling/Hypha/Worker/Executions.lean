import Hypha.Worker.Jobs

/-!
# Executions and the status of their jobs

A job keeps the token and the monitor of one execution, and the monitor writes the status of the execution under the id
of the job. The monitor is spawned before the job is recorded, and an id may be dispatched again.

* `Tracks` : a job has the status of its own execution, and every execution that runs can be cancelled;
* `Proper` : the writes that keep it so; `Attended`, `Attended.apply` : the invariant and what keeps it;
* `LaunchesAlone`, `status_tracks_execution` : it is so if a job is recorded at once and under an id without an
  unfinished monitor;
* `recordedAfterEnd_dispatchedTwice` : a job that has ended and runs forever, and an execution nobody can cancel.
-/

namespace Hypha.Worker

open Hypha.Lib

set_option linter.unusedSectionVars false

variable {PeerId : Type}

namespace Phase

/-- The status that an execution has ended with. -/
def final? : Phase → Option Status
  | .running => none
  | .stopped status => some status
  | .monitored status => some status

/-- Whether the monitor has finished. -/
def isMonitored : Phase → Bool
  | .monitored _ => true
  | _ => false

/-- The status that the monitor leaves in the map. -/
def written : Phase → Status
  | .monitored status => status
  | _ => .running

end Phase

/-- **A job has the status of its own execution**: it is running or the status that the execution has ended with, which
it is once the monitor has finished; and every execution that runs is that of a job in the map or has been cancelled. -/
structure Tracks (m : JobManager PeerId) : Prop where
  own : ∀ id job, m.jobs.lookup id = some job → ∃ x, m.executions[job.execution]? = some x ∧
    (job.status = .running ∨ x.phase.final? = some job.status)
  finished : ∀ id job x, m.jobs.lookup id = some job → m.executions[job.execution]? = some x →
    x.phase.isMonitored = true → job.status ≠ .running
  tokens : ∀ (e : Nat) x, m.executions[e]? = some x → x.phase = .running →
    x.cancelled = true ∨ ∃ id job, m.jobs.lookup id = some job ∧ job.execution = e

/-- A job has what the monitor of its execution has written, all other monitors of its id have finished, and executions
end with a terminal status. -/
structure Attended (m : JobManager PeerId) : Prop where
  own : ∀ id job, m.jobs.lookup id = some job → ∃ x, m.executions[job.execution]? = some x ∧ x.id = id ∧
    job.status = x.phase.written
  others : ∀ id job, m.jobs.lookup id = some job → ∀ (e : Nat) x, m.executions[e]? = some x → x.id = id →
    e ≠ job.execution → x.phase.isMonitored = true
  tokens : ∀ (e : Nat) x, m.executions[e]? = some x → x.phase = .running →
    x.cancelled = true ∨ ∃ job, m.jobs.lookup x.id = some job ∧ job.execution = e
  terminal : ∀ (e : Nat) x status, m.executions[e]? = some x → x.phase.final? = some status → status.isTerminal = true

/-- The writes that keep a job together with its execution. -/
inductive Proper (m : JobManager PeerId) : JobAccess PeerId → Prop where
  | reads : Proper m .reads
  | launches (job : Job PeerId) (hexecution : job.execution = m.executions.length) (hstatus : job.status = .running)
      (halone : ∀ x ∈ m.executions, x.id = job.id → x.phase.isMonitored = true) : Proper m (.launches job)
  | cancels (id : Uuid) (job : Job PeerId) (hjob : m.jobs.lookup id = some job) : Proper m (.cancels id job)
  | stops (e : Nat) (status : Status) (x : Execution) (hx : m.executions[e]? = some x) (hphase : x.phase = .running)
      (hstatus : status.isTerminal = true) : Proper m (.stops e status)
  | writes (e : Nat) (status : Status) (x : Execution) (hx : m.executions[e]? = some x)
      (hphase : x.phase = .stopped status) : Proper m (.writes e x.id status)

/-- The executions after one of them has changed. -/
theorem getElem?_modify_cases {executions : List Execution} {f : Execution → Execution} {e e' : Nat} {y : Execution}
    (h : (executions.modify e f)[e']? = some y) :
    (e ≠ e' ∧ executions[e']? = some y) ∨ ∃ x, e = e' ∧ executions[e']? = some x ∧ y = f x := by
  rw [List.getElem?_modify] at h
  obtain ⟨x, hx, hy⟩ := Option.map_eq_some_iff.mp h
  by_cases he : e = e'
  · rw [if_pos he] at hy
    exact Or.inr ⟨x, he, hx, hy.symm⟩
  · rw [if_neg he] at hy
    exact Or.inl ⟨he, hy ▸ hx⟩

theorem getElem?_modify_self {executions : List Execution} {f : Execution → Execution} {e : Nat} {x : Execution}
    (hx : executions[e]? = some x) : (executions.modify e f)[e]? = some (f x) := by
  rw [List.getElem?_modify, hx]
  simp

theorem getElem?_modify_of_ne {executions : List Execution} {f : Execution → Execution} {e e' : Nat} (he : e ≠ e') :
    (executions.modify e f)[e']? = executions[e']? := by
  rw [List.getElem?_modify]
  simp [he]

/-- The executions after one has started. -/
theorem getElem?_started {executions : List Execution} {e : Nat} {new y : Execution}
    (h : (executions ++ [new])[e]? = some y) :
    executions[e]? = some y ∨ (e = executions.length ∧ y = new) := by
  rw [List.getElem?_append] at h
  split_ifs at h with hlt
  · exact Or.inl h
  · have hmem := List.mem_singleton.mp (List.mem_of_getElem? h)
    have hbound := (List.getElem?_eq_some_iff.mp h).1
    rw [List.length_singleton] at hbound
    exact Or.inr ⟨by omega, hmem⟩

section Apply
variable {m : JobManager PeerId}

theorem Attended.launches (hI : Attended m) {job : Job PeerId} (hexecution : job.execution = m.executions.length)
    (hstatus : job.status = .running) (halone : ∀ x ∈ m.executions, x.id = job.id → x.phase.isMonitored = true) :
    Attended ((JobAccess.launches job).apply m) := by
  have hkept : ∀ {e : Nat} {x : Execution}, m.executions[e]? = some x →
      (m.executions ++ [({ id := job.id } : Execution)])[e]? = some x := by
    intro e x hx
    rw [List.getElem?_append_left (List.getElem?_eq_some_iff.mp hx).1]
    exact hx
  refine ⟨?_, ?_, ?_, ?_⟩
  · intro id job' hjob
    rcases Table.lookup_insert_iff.mp hjob with ⟨rfl, rfl⟩ | ⟨hne, hold⟩
    · exact ⟨{ id := job.id }, by simp [JobAccess.apply, hexecution], rfl, hstatus⟩
    · obtain ⟨x, hx, hid, hwritten⟩ := hI.own id job' hold
      exact ⟨x, hkept hx, hid, hwritten⟩
  · intro id job' hjob e x hx hid he
    rcases Table.lookup_insert_iff.mp hjob with ⟨rfl, rfl⟩ | ⟨hne, hold⟩
    · rcases getElem?_started hx with hx | ⟨hlast, -⟩
      · exact halone x (List.mem_of_getElem? hx) hid
      · exact absurd (hlast.trans hexecution.symm) he
    · rcases getElem?_started hx with hx | ⟨-, rfl⟩
      · exact hI.others id job' hold e x hx hid he
      · exact absurd hid.symm hne
  · intro e x hx hphase
    rcases getElem?_started hx with hx | ⟨rfl, rfl⟩
    · refine (hI.tokens e x hx hphase).imp_right ?_
      rintro ⟨job', hjob, he⟩
      refine ⟨job', Table.lookup_insert_iff.mpr (Or.inr ⟨fun hid => ?_, hjob⟩), he⟩
      have hmonitored := halone x (List.mem_of_getElem? hx) hid
      rw [hphase] at hmonitored
      cases hmonitored
    · exact Or.inr ⟨job, Table.lookup_insert_iff.mpr (Or.inl ⟨rfl, rfl⟩), hexecution⟩
  · intro e x status hx hfinal
    rcases getElem?_started hx with hx | ⟨-, rfl⟩
    · exact hI.terminal e x status hx hfinal
    · cases hfinal

theorem Attended.cancels (hI : Attended m) {id : Uuid} {job : Job PeerId} (hjob : m.jobs.lookup id = some job) :
    Attended ((JobAccess.cancels id job).apply m) := by
  -- a token that is cancelled leaves the rest of its execution as it is
  have hsame : ∀ {e : Nat} {y : Execution},
      (m.executions.modify job.execution fun x => { x with cancelled := true })[e]? = some y →
      ∃ x, m.executions[e]? = some x ∧ x.id = y.id ∧ x.phase = y.phase ∧ (x.cancelled = true → y.cancelled = true) := by
    intro e y hy
    rcases getElem?_modify_cases hy with ⟨-, hx⟩ | ⟨x, -, hx, rfl⟩
    · exact ⟨y, hx, rfl, rfl, fun hcancelled => hcancelled⟩
    · exact ⟨x, hx, rfl, rfl, fun _ => rfl⟩
  refine ⟨?_, ?_, ?_, ?_⟩
  · intro id' job' hjob'
    obtain ⟨-, hold⟩ := Table.lookup_erase_iff.mp hjob'
    obtain ⟨x, hx, hid, hwritten⟩ := hI.own id' job' hold
    by_cases he : job.execution = job'.execution
    · rw [← he] at hx
      refine ⟨{ x with cancelled := true }, ?_, hid, hwritten⟩
      rw [← he]
      exact getElem?_modify_self hx
    · refine ⟨x, ?_, hid, hwritten⟩
      show (m.executions.modify job.execution _)[job'.execution]? = some x
      rw [getElem?_modify_of_ne he]
      exact hx
  · intro id' job' hjob' e y hy hid he
    obtain ⟨-, hold⟩ := Table.lookup_erase_iff.mp hjob'
    obtain ⟨x, hx, hid', hphase, -⟩ := hsame hy
    rw [← hphase]
    exact hI.others id' job' hold e x hx (hid'.trans hid) he
  · intro e y hy hphase
    rcases getElem?_modify_cases hy with ⟨hne, hx⟩ | ⟨x, -, hx, rfl⟩
    · refine (hI.tokens e y hx hphase).imp_right ?_
      rintro ⟨job', hjob', rfl⟩
      refine ⟨job', Table.lookup_erase_iff.mpr ⟨fun hid => hne ?_, hjob'⟩, rfl⟩
      rw [hid, hjob] at hjob'
      rw [Option.some.inj hjob']
    · exact Or.inl rfl
  · intro e y status hy hfinal
    obtain ⟨x, hx, -, hphase, -⟩ := hsame hy
    rw [← hphase] at hfinal
    exact hI.terminal e x status hx hfinal

theorem Attended.stops (hI : Attended m) {e : Nat} {status : Status} {x : Execution} (hx : m.executions[e]? = some x)
    (hphase : x.phase = .running) (hstatus : status.isTerminal = true) :
    Attended ((JobAccess.stops e status).apply m) := by
  refine ⟨?_, ?_, ?_, ?_⟩
  · intro id job hjob
    obtain ⟨y, hy, hid, hwritten⟩ := hI.own id job hjob
    by_cases he : e = job.execution
    · subst he
      obtain rfl := Option.some.inj (hx.symm.trans hy)
      refine ⟨{ x with phase := .stopped status }, getElem?_modify_self hx, hid, ?_⟩
      rw [hwritten, hphase]
      rfl
    · refine ⟨y, ?_, hid, hwritten⟩
      show (m.executions.modify e _)[job.execution]? = some y
      rw [getElem?_modify_of_ne he]
      exact hy
  · intro id job hjob e' y hy hid he
    rcases getElem?_modify_cases hy with ⟨-, hy⟩ | ⟨x', rfl, hx', rfl⟩
    · exact hI.others id job hjob e' y hy hid he
    · obtain rfl := Option.some.inj (hx.symm.trans hx')
      have hmonitored := hI.others id job hjob e x hx hid he
      rw [hphase] at hmonitored
      cases hmonitored
  · intro e' y hy hrunning
    rcases getElem?_modify_cases hy with ⟨-, hy⟩ | ⟨x', rfl, -, rfl⟩
    · exact hI.tokens e' y hy hrunning
    · cases hrunning
  · intro e' y status' hy hfinal
    rcases getElem?_modify_cases hy with ⟨-, hy⟩ | ⟨x', rfl, -, rfl⟩
    · exact hI.terminal e' y status' hy hfinal
    · cases hfinal
      exact hstatus

theorem Attended.writes (hI : Attended m) {e : Nat} {status : Status} {x : Execution} (hx : m.executions[e]? = some x)
    (hphase : x.phase = .stopped status) : Attended ((JobAccess.writes e x.id status).apply m) := by
  -- the job that is written to is that of the execution: the monitors of the others have finished
  have hown : ∀ {job : Job PeerId}, m.jobs.lookup x.id = some job → e = job.execution := by
    intro job hjob
    by_contra he
    have hmonitored := hI.others x.id job hjob e x hx rfl he
    rw [hphase] at hmonitored
    cases hmonitored
  refine ⟨?_, ?_, ?_, ?_⟩
  · intro id job hjob
    rcases JobManager.lookup_setStatus hjob with ⟨hne, hold⟩ | ⟨old, rfl, hold, rfl⟩
    · obtain ⟨y, hy, hid, hwritten⟩ := hI.own id job hold
      refine ⟨y, ?_, hid, hwritten⟩
      show (m.executions.modify e _)[job.execution]? = some y
      rw [getElem?_modify_of_ne fun he => hne ?_]
      · exact hy
      · rw [← he, hx] at hy
        rw [Option.some.inj hy]
        exact hid
    · have he := hown hold
      subst he
      exact ⟨{ x with phase := .monitored status }, getElem?_modify_self hx, rfl, rfl⟩
  · intro id job hjob e' y hy hid he
    rcases getElem?_modify_cases hy with ⟨-, hy⟩ | ⟨x', rfl, -, rfl⟩
    · rcases JobManager.lookup_setStatus hjob with ⟨-, hold⟩ | ⟨old, rfl, hold, rfl⟩
      · exact hI.others id job hold e' y hy hid he
      · exact hI.others x.id old hold e' y hy hid he
    · rfl
  · intro e' y hy hrunning
    rcases getElem?_modify_cases hy with ⟨-, hy⟩ | ⟨x', rfl, -, rfl⟩
    · refine (hI.tokens e' y hy hrunning).imp_right ?_
      rintro ⟨job, hjob, he⟩
      obtain ⟨job', hjob', hsame⟩ := JobManager.setStatus_lookup hjob x.id status
      exact ⟨job', hjob', hsame.trans he⟩
    · cases hrunning
  · intro e' y status' hy hfinal
    rcases getElem?_modify_cases hy with ⟨-, hy⟩ | ⟨x', rfl, -, rfl⟩
    · exact hI.terminal e' y status' hy hfinal
    · cases hfinal
      refine hI.terminal e x status hx ?_
      rw [hphase]
      rfl

theorem Attended.apply (hI : Attended m) {access : JobAccess PeerId} (hproper : Proper m access) :
    Attended (access.apply m) := by
  cases hproper with
  | reads => exact hI
  | launches job hexecution hstatus halone => exact hI.launches hexecution hstatus halone
  | cancels id job hjob => exact hI.cancels hjob
  | stops e status x hx hphase hstatus => exact hI.stops hx hphase hstatus
  | writes e status x hx hphase => exact hI.writes hx hphase

theorem Attended.initial : Attended ({} : JobManager PeerId) := by
  have hnone : ∀ {id : Uuid} {job : Job PeerId}, ({} : JobManager PeerId).jobs.lookup id ≠ some job := by
    intro id job hjob
    cases (AList.lookup_empty id).symm.trans hjob
  refine ⟨fun id job hjob => absurd hjob hnone, fun id job hjob => absurd hjob hnone, fun e x hx => ?_,
    fun e x status hx => ?_⟩
  · cases hx
  · cases hx

theorem Attended.tracks (hI : Attended m) : Tracks m := by
  refine ⟨?_, ?_, ?_⟩
  · intro id job hjob
    obtain ⟨x, hx, -, hwritten⟩ := hI.own id job hjob
    refine ⟨x, hx, ?_⟩
    rw [hwritten]
    cases x.phase with
    | running => exact Or.inl rfl
    | stopped status => exact Or.inl rfl
    | monitored status => exact Or.inr rfl
  · intro id job x hjob hx hmonitored
    obtain ⟨x', hx', -, hwritten⟩ := hI.own id job hjob
    obtain rfl := Option.some.inj (hx.symm.trans hx')
    cases hphase : x.phase with
    | running =>
      rw [hphase] at hmonitored
      cases hmonitored
    | stopped status =>
      rw [hphase] at hmonitored
      cases hmonitored
    | monitored status =>
      have hterminal := hI.terminal _ x status hx (by rw [hphase]; rfl)
      rw [hphase] at hwritten
      rw [hwritten]
      rintro hrunning
      rw [show status = .running from hrunning] at hterminal
      cases hterminal
  · intro e x hx hphase
    refine (hI.tokens e x hx hphase).imp_right ?_
    rintro ⟨job, hjob, he⟩
    exact ⟨x.id, job, hjob, he⟩

end Apply

/-! ## The worker -/

variable [DecidableEq PeerId] {cfg : Config} {w : Arbiter PeerId}

/-- The id of the job that a dispatch is about to start. -/
def Task.starting? : Task PeerId → Option Uuid
  | .starting _ id _ _ => some id
  | _ => none

def Task.isRecording : Task PeerId → Bool
  | .recording .. => true
  | _ => false

/-- When a dispatch has started its job it records it at once, without waiting for the lock, and the monitors of all
earlier executions with the id of the job have finished. -/
def LaunchesAlone (e : ArbiterStep PeerId) : Prop :=
  ∀ task ∈ running e, ∀ r ∈ e.input.moment?, task.starting?.isSome = true → r.ok = true →
    r.waits = false ∧ ∀ x ∈ e.pre.jobs.executions, task.starting? = some x.id → x.phase.isMonitored = true

instance (e : ArbiterStep PeerId) : Decidable (LaunchesAlone e) :=
  inferInstanceAs (Decidable (∀ task ∈ running e, ∀ r ∈ e.input.moment?, task.starting?.isSome = true → r.ok = true →
    r.waits = false ∧ ∀ x ∈ e.pre.jobs.executions, task.starting? = some x.id → x.phase.isMonitored = true))

/-- No dispatch waits to record its job, and every job is attended. -/
structure Prompt (w : Arbiter PeerId) : Prop where
  attended : Attended w.jobs
  recording : ∀ t ∈ w.tasks, t.isRecording = false

section Step
variable {a : Happening PeerId} {effect : Effect PeerId} {tasks : List (Task PeerId)}

theorem Prompt.proper (hI : Prompt w) (hsteps : Steps cfg w a effect tasks)
    (halone : LaunchesAlone (taken w a effect tasks)) : Proper w.jobs effect.jobAccess := by
  cases hsteps with
  | runs i r t t' effect spawned ht hruns =>
    cases hruns with
    | spawns peer id spec lease hok hwaits =>
      have hprompt := (halone _ ht r rfl rfl hok).1
      rw [hwaits] at hprompt
      cases hprompt
    | launches peer id spec lease hok hwaits =>
      refine .launches _ rfl rfl fun x hx hid => (halone _ ht r rfl rfl hok).2 x hx ?_
      rw [hid]
      rfl
    | records job timeout => cases hI.recording _ (List.mem_of_getElem? ht)
    | cancels id job after hjob => exact .cancels id job hjob
    | _ => exact .reads
  | stops e status x hx hphase hstatus => exact .stops e status x hx hphase hstatus
  | writes e status x hx hphase => exact .writes e status x hx hphase
  | _ => exact .reads

theorem Prompt.step (hI : Prompt w) (hsteps : Steps cfg w a effect tasks)
    (halone : LaunchesAlone (taken w a effect tasks)) : Prompt ⟨effect.apply w.toShared, tasks⟩ := by
  refine ⟨?_, fun u hu => ?_⟩
  · rw [Effect.apply_jobs]
    exact hI.attended.apply (hI.proper hsteps halone)
  · by_contra hrecording
    rw [Bool.not_eq_false] at hrecording
    have hserving : u.isServing = true := by
      cases u with
      | recording => rfl
      | _ => cases hrecording
    rcases hsteps.mem_cases hu with hold | ⟨i, r, t, spawned, rfl, ht, hruns⟩ | hbegins
    · rw [hI.recording u hold] at hrecording
      cases hrecording
    · cases hruns.precedes hserving with
      | spawns peer id spec lease hok hwaits =>
        have hprompt := (halone _ ht r rfl rfl hok).1
        rw [hwaits] at hprompt
        cases hprompt
      | _ => cases hrecording
    · cases hbegins.serving hserving <;> cases hrecording

end Step

/-- **Job status tracks its own execution** if every job is recorded at once when it has started, and no monitor of an
earlier execution with its id is unfinished then. -/
theorem status_tracks_execution (cfg : Config) (happenings : List (Happening PeerId))
    (halone : Along (fun e _ => LaunchesAlone e) (run cfg happenings).history) :
    Tracks (run cfg happenings).state.jobs := by
  have hinitial : Prompt (Arbiter.initial cfg : Arbiter PeerId) :=
    ⟨Attended.initial, fun _ ht => absurd ht List.not_mem_nil⟩
  obtain ⟨hprompt, -⟩ := run_state_rule Prompt (fun e _ => LaunchesAlone e) hinitial
    (fun _ _ _ _ _ hI hsteps hc => hI.step hsteps hc) happenings halone
  exact hprompt.attended.tracks

/-- The same id is dispatched again once its execution has ended and the monitor has finished. -/
def dispatchedAgain : List (Happening Nat) :=
  List.flatten [dispatched, [.stops 0 (.success none none none), .writes 0, .dispatches 7 5 ⟨5, .train "train"⟩,
    .runs 3 {}, .runs 3 {}]]

theorem status_tracks_execution_dispatchedAgain :
    Along (fun e _ => LaunchesAlone e) (run fourCores dispatchedAgain).history ∧
      Tracks (run fourCores dispatchedAgain).state.jobs := by
  have halone : Along (fun e _ => LaunchesAlone e) (run fourCores dispatchedAgain).history := by decide +kernel
  exact ⟨halone, status_tracks_execution _ _ halone⟩

/-- A dispatch starts its job and waits for the lock; the execution ends and its monitor finds no job; then the job is
recorded. -/
def recordedAfterEnd : List (Happening Nat) :=
  List.flatten [served 0 7 { cpu := 1 } 1 2 0, [.dispatches 7 5 ⟨5, .train "train"⟩, .runs 2 {},
    .runs 2 { waits := true }, .stops 0 (.success none none none), .writes 0, .runs 2 {}]]

/-- The same id is dispatched again while its execution runs. -/
def dispatchedTwice : List (Happening Nat) :=
  List.flatten [dispatched, [.dispatches 7 5 ⟨5, .train "train"⟩, .runs 3 {}, .runs 3 {}]]

theorem recordedAfterEnd_dispatchedTwice :
    ¬ Tracks (run fourCores recordedAfterEnd).state.jobs ∧ ¬ Tracks (run fourCores dispatchedTwice).state.jobs := by
  refine ⟨fun htracks => ?_, fun htracks => ?_⟩
  · exact htracks.finished 5 ⟨5, 2, 7, ⟨5, .train "train"⟩, 0, .running⟩
      ⟨5, false, .monitored (.success none none none)⟩ (by decide +kernel) (by decide +kernel) rfl rfl
  · rcases htracks.tokens 0 ⟨5, false, .running⟩ (by decide +kernel) rfl with hcancelled | ⟨id, job, hjob, hexecution⟩
    · cases hcancelled
    · have hothers : ∀ x ∈ (run fourCores dispatchedTwice).state.jobs.jobs.entries, x.2.execution ≠ 0 := by
        decide +kernel
      exact hothers ⟨id, job⟩ (AList.mem_lookup_iff.mp hjob) hexecution

end Hypha.Worker
