import Hypha.Scheduler.PoolTask
import Hypha.Worker.Renewal

/-!
# Keeping a lease alive (`worker.rs`)

A worker handle of the scheduler renews its lease, sleeps for two thirds of the time that was granted, and renews again;
an attempt that fails is repeated after a delay. Here the task of the handle runs beside the worker, all of whose
handlers and whose prune loop run in any interleaving.

* `Handle.refresh`, `Handle.answered`, `Handle.failed` : the task of `Worker::create`, from one suspension to the next;
* `Lifeline`, `Lifeline.perform`, `lifeline` : the handle and the worker, each with its clock;
* `Margins`, `Punctual` : how late timers and answers may be, how far the clocks may differ, how many attempts may fail;
* `Lifeline.Held` : the lease outlasts what the handle waits for, by what the attempts to come may take;
* `lease_kept` : along a punctual run the lease stays in the ledger, unexpired and unlisted, and the handle lives.
-/

namespace Hypha.WorkerHandle

open Hypha.Lib Hypha.Worker

open Hypha.Scheduler (WorkerError)

set_option linter.unusedSectionVars false

/-- Where the task waits. `Retry` has a number of delays; `failures` of them are used up. -/
inductive HandlePhase where
  | requesting (sentAt : SystemTime) (delays failures : Nat)
  | retrying (wake : SystemTime) (delays failures : Nat)
  | sleeping (wake : SystemTime)
  | ended (error : WorkerError)

structure Handle where
  lastTimeout : Option SystemTime
  phase : HandlePhase

/-- `duration_since`, or another duration if the time has passed. -/
def durationSince (timeout now : SystemTime) (instead : Duration) : Duration :=
  if now ≤ timeout then timeout - now else instead

def retryInterval : Duration := fromMillis 200

def safeDuration (duration : Duration) : Duration := duration / 3 * 2

namespace Handle

/-- How many delays the retry strategy has. -/
def delays (lastTimeout : Option SystemTime) (now : SystemTime) : Nat :=
  asMillis (lastTimeout.elim (fromSecs 1) fun timeout => durationSince timeout now (fromSecs 1)) / 200

/-- The loop from its beginning. -/
def refresh (lastTimeout : Option SystemTime) (now : SystemTime) : Handle :=
  ⟨lastTimeout, .requesting now (delays lastTimeout now) 0⟩

variable (h : Handle)

def fails (error : WorkerError) : Handle := { h with phase := .ended error }

/-- A response of the worker. -/
def answered (now : SystemTime) : Worker.Response → Handle
  | .renewLease (.renewed _ timeout) =>
    ⟨some timeout, .sleeping (now + safeDuration (durationSince timeout now (fromSecs 6)))⟩
  | .renewLease .notFound | .renewLease .failed | .renewLease .forbidden | .dispatchJob _ => h.fails .leaseExpired

/-- An attempt fails; `delay` is the next delay with its jitter. -/
def failed (now : SystemTime) (error : String) (delay : Duration) (delays failures : Nat) : Handle :=
  if failures < delays then { h with phase := .retrying (now + delay) delays (failures + 1) }
  else h.fails (.networkError error)

end Handle

variable {PeerId : Type}

/-- The handle and the worker. `call` is the task of the worker that serves the attempt, once it has arrived. -/
structure Lifeline (PeerId : Type) where
  handle : Handle
  call : Option Nat := none
  worker : Arbiter PeerId
  clock : SystemTime
  workerClock : SystemTime

/-- What may happen: the timer of the handle goes off; the attempt fails, wherever it has come to; it arrives at the
worker; the answer comes back; something happens at the worker. -/
inductive LeaseAct (PeerId : Type) where
  | wakes
  | errs (error : String) (delay : Duration)
  | arrives
  | returns
  | works (a : Happening PeerId)

structure LeaseHappening (PeerId : Type) where
  now : SystemTime
  act : LeaseAct PeerId

section Lifeline
variable [DecidableEq PeerId] (cfg : Config) (peer : PeerId) (id : Uuid)

namespace Lifeline

def perform (s : Lifeline PeerId) (now : SystemTime) : LeaseAct PeerId → Option (Lifeline PeerId)
  | .wakes =>
    match s.handle.phase with
    | .sleeping wake =>
      if wake ≤ now then some { s with handle := .refresh s.handle.lastTimeout now, call := none } else none
    | .retrying wake delays failures =>
      if wake ≤ now then
        some { s with handle := { s.handle with phase := .requesting now delays failures }, call := none }
      else none
    | _ => none
  | .errs error delay =>
    match s.handle.phase with
    | .requesting _ delays failures =>
      if delay ≤ retryInterval then some { s with handle := s.handle.failed now error delay delays failures } else none
    | _ => none
  | .arrives =>
    match s.handle.phase, s.call with
    | .requesting _ _ _, none =>
      some { s with call := some s.worker.tasks.length, worker := ((arbiter cfg).step s.worker (.renews peer id)).1 }
    | _, _ => none
  | .returns =>
    match s.handle.phase, s.call.bind fun i => s.worker.tasks[i]? with
    | .requesting _ _ _, some (.ended (some response)) => some { s with handle := s.handle.answered now response }
    | _, _ => none
  | .works a =>
    some { s with worker := ((arbiter cfg).step s.worker a).1, workerClock := a.now?.getD s.workerClock }

end Lifeline

/-- What cannot happen changes nothing but the clock. -/
def lifeline : Machine (Lifeline PeerId) (LeaseHappening PeerId) Bool where
  step s e :=
    match s.perform cfg peer id e.now e.act with
    | some s' => ({ s' with clock := e.now }, true)
    | none => ({ s with clock := e.now }, false)

end Lifeline

/-! ## Punctual runs -/

/-- How late a timer goes off, how long an attempt takes, how far the clocks differ, how much longer than the timer of
the handle the lease lasts, and how many attempts fail in a row. -/
structure Margins where
  tardiness : Duration
  latency : Duration
  skew : Duration
  slack : Duration
  retries : Nat
  /-- The first renewal has five delays. -/
  few : retries ≤ 5
  outlast : tardiness + latency + skew + retries * (latency + tardiness + retryInterval) < slack
  /-- A third of what is granted is left when the handle wakes. -/
  granted : 3 * slack + latency + skew ≤ leaseTimeout

namespace Margins

variable (margins : Margins)

/-- What one more failure costs. -/
def cost : Duration := margins.latency + margins.tardiness + retryInterval

/-- When something has to happen at the latest. -/
def due : HandlePhase → Option SystemTime
  | .requesting sentAt _ _ => some (sentAt + margins.latency)
  | .retrying wake _ _ | .sleeping wake => some (wake + margins.tardiness)
  | .ended _ => none

end Margins

/-- Whether one more attempt may fail. -/
def HandlePhase.failures : HandlePhase → Nat
  | .requesting _ _ failures => failures
  | _ => 0

/-- Whether a task is about to remove a lease because its offer could not be sent or its job has failed. -/
def revokes (id : Uuid) : Worker.Task PeerId → Bool
  | .withdrawing (.taking k) => decide (k = id)
  | .pruning (.revoking (.taking k) _ _) => decide (k = id)
  | _ => false

def LeaseAct.work? : LeaseAct PeerId → Option (Happening PeerId)
  | .works a => some a
  | _ => none

def LeaseAct.isError : LeaseAct PeerId → Bool
  | .errs _ _ => true
  | _ => false

/-- The task that runs. -/
def ran? (w : Arbiter PeerId) : Happening PeerId → Option (Worker.Task PeerId)
  | .runs i _ => w.tasks[i]?
  | _ => none

/-- A step of a punctual run: the clocks do not go back and differ little, timers and answers are not late, few attempts
fail in a row, no job of the lease fails, its offer was sent, and no UUID is drawn twice. -/
structure Punctual (margins : Margins) (id : Uuid) (e : Event (Lifeline PeerId) (LeaseHappening PeerId) Bool) : Prop where
  forward : e.pre.clock ≤ e.input.now
  due : ∀ time ∈ margins.due e.pre.handle.phase, e.input.now ≤ time
  failures : e.input.act.isError = true → e.pre.handle.phase.failures < margins.retries
  clocks : ∀ a ∈ e.input.act.work?, ∀ now ∈ a.now?,
    e.pre.workerClock ≤ now ∧ now ≤ e.input.now + margins.skew ∧ e.input.now ≤ now + margins.skew
  undisturbed : ∀ a ∈ e.input.act.work?, ∀ t ∈ ran? e.pre.worker a, revokes id t = false
  fresh : e.post.worker.manager.drawn.Nodup

/-- The handle lives and the lease with it: it is in the ledger, no task of the worker reads a clock at which it has
expired, and no iteration of the prune loop has it among those to be removed or whose jobs are to be cancelled. -/
structure Kept (peer : PeerId) (id : Uuid) (e : Event (Lifeline PeerId) (LeaseHappening PeerId) Bool) : Prop where
  lives : ∀ error, e.post.handle.phase ≠ .ended error
  found : ∃ lease, e.pre.worker.manager.ledger.lookup id = some lease ∧ lease.leasable.peerId = peer ∧
    ∀ a ∈ e.input.act.work?, ∀ now ∈ a.now?, lease.isExpired now = false
  stays : id ∈ e.post.worker.manager.ledger
  unlisted : ∀ t ∈ e.post.worker.tasks, id ∉ t.condemned ∧ id ∉ t.sentenced

/-! ## The lease outlasts the timer -/

/-- How much of the slack is used up by now: the lease outlasts what the handle waits for by the rest of it. -/
def Margins.Outlasts (margins : Margins) (h : Handle) (timeout : SystemTime) : Prop :=
  match h.phase with
  | .requesting sentAt delays failures =>
    failures ≤ margins.retries ∧ margins.retries ≤ delays ∧
      sentAt + margins.slack ≤ timeout + margins.tardiness + failures * margins.cost
  | .retrying wake delays failures =>
    failures ≤ margins.retries ∧ margins.retries ≤ delays ∧ wake + margins.slack ≤ timeout + failures * margins.cost
  | .sleeping wake =>
    wake + margins.slack ≤ timeout ∧ ∃ granted, h.lastTimeout = some granted ∧ wake + margins.slack ≤ granted
  | .ended _ => False

/-- What has become of the attempt that the worker serves. -/
def Margins.Serves (margins : Margins) (peer : PeerId) (id : Uuid) (sentAt timeout : SystemTime) (t : Worker.Task PeerId) :
    Prop :=
  t = .checking peer id ∨ t = .renewing peer id ∨
    ∃ granted, t = .ended (some (.renewLease (.renewed id granted))) ∧
      sentAt + leaseTimeout ≤ granted + margins.skew ∧ granted ≤ timeout

/-- The lease is in the ledger and outlasts the timer, and the attempt that is under way will renew it. -/
structure Lifeline.Held (margins : Margins) (peer : PeerId) (id : Uuid) (s : Lifeline PeerId)
    (lease : WorkerLease PeerId) : Prop where
  safe : Safe s.worker
  lookup : s.worker.manager.ledger.lookup id = some lease
  owner : lease.leasable.peerId = peer
  recent : lease.timeout ≤ s.workerClock + leaseTimeout
  unlisted : ∀ t ∈ s.worker.tasks, id ∉ t.condemned ∧ id ∉ t.sentenced
  outlasts : margins.Outlasts s.handle lease.timeout
  served : ∀ sentAt delays failures, s.handle.phase = .requesting sentAt delays failures → sentAt ≤ s.clock ∧
    ∀ i ∈ s.call, ∃ t, s.worker.tasks[i]? = some t ∧ margins.Serves peer id sentAt lease.timeout t

section Handle
variable {margins : Margins} {h : Handle} {id : Uuid} {now timeout later : SystemTime}

theorem Margins.failures_cost (margins : Margins) {failures : Nat} (hle : failures ≤ margins.retries) :
    margins.tardiness + margins.latency + margins.skew + failures * margins.cost < margins.slack := by
  have hcost : failures * margins.cost ≤ margins.retries * margins.cost := Nat.mul_le_mul_right _ hle
  exact lt_of_le_of_lt (Nat.add_le_add_left hcost _) margins.outlast

theorem Margins.Outlasts.mono (houtlasts : margins.Outlasts h timeout) (hle : timeout ≤ later) :
    margins.Outlasts h later := by
  unfold Margins.Outlasts at *
  split at houtlasts
  · obtain ⟨hfew, hdelays, hslack⟩ := houtlasts
    exact ⟨hfew, hdelays, by lia⟩
  · obtain ⟨hfew, hdelays, hslack⟩ := houtlasts
    exact ⟨hfew, hdelays, by lia⟩
  · exact ⟨houtlasts.1.trans hle, houtlasts.2⟩
  · exact houtlasts

theorem Margins.Outlasts.lives (houtlasts : margins.Outlasts h timeout) (error : WorkerError) :
    h.phase ≠ .ended error := by
  intro hended
  rw [Margins.Outlasts, hended] at houtlasts
  exact houtlasts

/-- Until something is due the lease has not expired on either clock. -/
theorem Margins.Outlasts.lt (houtlasts : margins.Outlasts h timeout)
    (hdue : ∀ time ∈ margins.due h.phase, now ≤ time) : now + margins.skew < timeout := by
  unfold Margins.Outlasts at houtlasts
  split at houtlasts
  next sentAt delays failures hphase =>
    obtain ⟨hfew, -, hslack⟩ := houtlasts
    have hnow := hdue (sentAt + margins.latency) (by rw [hphase]; rfl)
    have := margins.failures_cost hfew
    lia
  next wake delays failures hphase =>
    obtain ⟨hfew, -, hslack⟩ := houtlasts
    have hnow := hdue (wake + margins.tardiness) (by rw [hphase]; rfl)
    have := margins.failures_cost hfew
    lia
  next wake hphase =>
    have hnow := hdue (wake + margins.tardiness) (by rw [hphase]; rfl)
    have := margins.failures_cost (Nat.zero_le _)
    lia
  next => exact houtlasts.elim

/-! ### What the handle does -/

/-- After an answer in time the handle sleeps, and a third of what was granted is left. -/
theorem Margins.outlasts_answered {sentAt granted : SystemTime} (hanswered : now ≤ sentAt + margins.latency)
    (hgranted : sentAt + leaseTimeout ≤ granted + margins.skew) (hle : granted ≤ timeout) :
    margins.Outlasts (h.answered now (.renewLease (.renewed id granted))) timeout := by
  have hmargin : 3 * margins.slack + margins.latency + margins.skew ≤ leaseTimeout := margins.granted
  have hfuture : now + 3 * margins.slack ≤ granted := by lia
  have hduration : durationSince granted now (fromSecs 6) = granted - now := if_pos (by lia)
  have hthird : safeDuration (granted - now) + margins.slack ≤ granted - now := by
    have : 3 * margins.slack ≤ granted - now := by lia
    unfold safeDuration
    lia
  have hwake : now + safeDuration (granted - now) + margins.slack ≤ granted := by lia
  show now + safeDuration (durationSince granted now (fromSecs 6)) + margins.slack ≤ timeout ∧
    ∃ t, some granted = some t ∧ now + safeDuration (durationSince granted now (fromSecs 6)) + margins.slack ≤ t
  rw [hduration]
  exact ⟨hwake.trans hle, granted, rfl, hwake⟩

/-- A handle that wakes up in time has delays enough. -/
theorem Margins.retries_le_delays (hfuture : now + margins.slack ≤ timeout + margins.tardiness) :
    margins.retries ≤ Handle.delays (some timeout) now := by
  have hcost : margins.retries * retryInterval ≤ margins.retries * margins.cost :=
    Nat.mul_le_mul_left _ (Nat.le_add_left _ _)
  have hslack : margins.tardiness + margins.retries * retryInterval ≤ margins.slack := by
    have := margins.failures_cost le_rfl
    lia
  have hnow : now ≤ timeout :=
    Nat.le_of_add_le_add_right ((Nat.add_le_add_left (Nat.le_of_add_right_le hslack) now).trans hfuture)
  have hduration : durationSince timeout now (fromSecs 1) = timeout - now := if_pos hnow
  have hleft : margins.retries * retryInterval ≤ timeout - now := by
    clear hcost
    generalize margins.retries * retryInterval = delays at *
    lia
  show margins.retries ≤ asMillis (durationSince timeout now (fromSecs 1)) / 200
  rw [hduration, asMillis, Nat.div_div_eq_div_mul, Nat.le_div_iff_mul_le (by decide)]
  exact hleft

/-- A handle that wakes up in time sends, and the tardiness is used up. -/
theorem Margins.Outlasts.refresh {wake : SystemTime} (houtlasts : margins.Outlasts h timeout)
    (hphase : h.phase = .sleeping wake) (hnow : now ≤ wake + margins.tardiness) :
    margins.Outlasts (.refresh h.lastTimeout now) timeout := by
  rw [Margins.Outlasts, hphase] at houtlasts
  obtain ⟨hslack, granted, hlast, hgranted⟩ := houtlasts
  refine ⟨Nat.zero_le _, ?_, ?_⟩
  · rw [hlast]
    exact margins.retries_le_delays (by lia)
  · rw [Nat.zero_mul]
    lia

/-- The next attempt of a renewal. -/
theorem Margins.Outlasts.retry {wake : SystemTime} {delays failures : Nat} (houtlasts : margins.Outlasts h timeout)
    (hphase : h.phase = .retrying wake delays failures) (hnow : now ≤ wake + margins.tardiness) :
    margins.Outlasts { h with phase := .requesting now delays failures } timeout := by
  rw [Margins.Outlasts, hphase] at houtlasts
  obtain ⟨hfew, hdelays, hslack⟩ := houtlasts
  exact ⟨hfew, hdelays, by lia⟩

/-- One more failure: the latency and a delay are used up. -/
theorem Margins.Outlasts.failed {sentAt : SystemTime} {delays failures : Nat} {error : String} {delay : Duration}
    (houtlasts : margins.Outlasts h timeout) (hphase : h.phase = .requesting sentAt delays failures)
    (hnow : now ≤ sentAt + margins.latency) (hfew : failures < margins.retries) (hdelay : delay ≤ retryInterval) :
    margins.Outlasts (h.failed now error delay delays failures) timeout := by
  rw [Margins.Outlasts, hphase] at houtlasts
  obtain ⟨-, hdelays, hslack⟩ := houtlasts
  have hcost : (failures + 1) * margins.cost = failures * margins.cost + (margins.latency + margins.tardiness + retryInterval) :=
    Nat.succ_mul _ _
  rw [Handle.failed, if_pos (by lia)]
  exact ⟨hfew, hdelays, by rw [hcost]; lia⟩

end Handle

/-! ### What the worker does -/

section Worker
variable [DecidableEq PeerId] {cfg : Config} {margins : Margins} {peer : PeerId} {id : Uuid} {s : Lifeline PeerId}
  {lease : WorkerLease PeerId} {a : Happening PeerId} {effect : Effect PeerId} {tasks : List (Worker.Task PeerId)}
  {now : SystemTime}

/-- What a step of the worker may rely on: its clock, and that the lease is not about to be removed. -/
structure Undisturbed (margins : Margins) (id : Uuid) (s : Lifeline PeerId) (now : SystemTime) (a : Happening PeerId) :
    Prop where
  clocks : ∀ time ∈ a.now?, s.workerClock ≤ time ∧ time ≤ now + margins.skew ∧ now ≤ time + margins.skew
  tasks : ∀ t ∈ ran? s.worker a, revokes id t = false

theorem Lifeline.Held.drawn (hheld : s.Held margins peer id lease) : id ∈ s.worker.manager.drawn :=
  hheld.safe.keyed.leases id (Table.mem_of_lookup hheld.lookup)

/-- Nothing takes the lease out of the ledger. -/
theorem Lifeline.Held.stays (hheld : s.Held margins peer id lease) (hsteps : Steps cfg s.worker a effect tasks)
    (hundisturbed : Undisturbed margins id s now a) : id ∈ (effect.apply s.worker.toShared).manager.ledger := by
  rw [Effect.apply_manager]
  rcases effect.access.mem_ledger (Table.mem_of_lookup hheld.lookup) with hmem | ⟨taken, haccess⟩
  · exact hmem
  · obtain ⟨i, r, t, t', spawned, rfl, ht, hruns, -⟩ := hsteps.runs_of_access (by rw [haccess]; simp)
    have hkeeps : revokes id t = false := hundisturbed.tasks t ht
    cases hruns with
    | withdrawTakes k l hl =>
      cases haccess
      exact absurd rfl (of_decide_eq_false hkeeps)
    | revokeTakes k l job rest hl =>
      cases haccess
      exact absurd rfl (of_decide_eq_false hkeeps)
    | proceedTakes k l rest removed hl =>
      cases haccess
      exact absurd List.mem_cons_self (hheld.unlisted _ (List.mem_of_getElem? ht)).1
    | _ => cases haccess

/-- The lease is not listed as expired. -/
theorem Lifeline.Held.step_unlisted (hheld : s.Held margins peer id lease) (hsteps : Steps cfg s.worker a effect tasks)
    (hlive : ∀ time ∈ a.now?, time < lease.timeout) {u : Worker.Task PeerId} (hu : u ∈ tasks) :
    id ∉ u.condemned ∧ id ∉ u.sentenced := by
  rcases hsteps.mem_cases hu with hu | ⟨i, r, t, spawned, rfl, ht, hruns⟩ | hbegins
  · exact hheld.unlisted u hu
  · obtain ⟨hcondemned, hsentenced⟩ := hheld.unlisted t (List.mem_of_getElem? ht)
    refine ⟨fun hid => ?_, fun hid => ?_⟩
    · rcases hruns.condemned hid with hold | ⟨listed, hlisted, hkey⟩
      · exact hcondemned hold
      · obtain ⟨⟨k, hk⟩, hexpired⟩ := Ledger.mem_listExpired.mp hlisted
        obtain rfl := (hheld.safe.keyed.key k listed hk).symm.trans hkey
        obtain rfl := Option.some.inj (hheld.lookup.symm.trans hk)
        exact absurd hexpired (not_le.mpr (hlive r.now rfl))
    · rcases hruns.sentenced hid with hold | ⟨k, removed, -, hkey, hlisted, hk⟩
      · exact hsentenced hold
      · obtain rfl := (hheld.safe.keyed.key k removed hk).symm.trans hkey
        exact hcondemned hlisted
  · cases hbegins with
    | batch batch =>
      rw [(nextRequest_idle _).1, (nextRequest_idle _).2]
      exact ⟨List.not_mem_nil, List.not_mem_nil⟩
    | _ => exact ⟨List.not_mem_nil, List.not_mem_nil⟩

/-- The lease afterwards: it is as it was, or it has been renewed, by one task. -/
theorem Lifeline.Held.renewed (hheld : s.Held margins peer id lease) (hsteps : Steps cfg s.worker a effect tasks)
    (hfresh : Fresh (taken s.worker a effect tasks)) (hundisturbed : Undisturbed margins id s now a) :
    ∃ after, (effect.apply s.worker.toShared).manager.ledger.lookup id = some after ∧
      after.leasable.peerId = peer ∧ lease.timeout ≤ after.timeout ∧
      after.timeout ≤ a.now?.getD s.workerClock + leaseTimeout := by
  obtain ⟨after, hafter⟩ := Table.exists_lookup (hheld.stays hsteps hundisturbed)
  refine ⟨after, hafter, ?_⟩
  rcases lookup_of_drawn hsteps hfresh hheld.drawn hafter with hsame | ⟨i, r, owner, old, rfl, -, hold, rfl⟩
  · obtain rfl := Option.some.inj (hheld.lookup.symm.trans hsame)
    refine ⟨hheld.owner, le_rfl, hheld.recent.trans (Nat.add_le_add_right ?_ _)⟩
    rcases htime : a.now? with _ | time
    · exact le_rfl
    · exact (hundisturbed.clocks time htime).1
  · obtain rfl := Option.some.inj (hheld.lookup.symm.trans hold)
    have hclock := (hundisturbed.clocks r.now rfl).1
    exact ⟨hheld.owner, hheld.recent.trans (Nat.add_le_add_right hclock _), le_rfl⟩

/-- The task that serves the attempt goes on towards a renewal. -/
theorem Lifeline.Held.serves (hheld : s.Held margins peer id lease) (hsteps : Steps cfg s.worker a effect tasks)
    (hundisturbed : Undisturbed margins id s now a) {sentAt : SystemTime} (hsent : sentAt ≤ now) {i : Nat}
    {t : Worker.Task PeerId} (ht : s.worker.tasks[i]? = some t) (hserves : margins.Serves peer id sentAt lease.timeout t)
    {after : WorkerLease PeerId} (hafter : (effect.apply s.worker.toShared).manager.ledger.lookup id = some after)
    (hle : lease.timeout ≤ after.timeout) :
    ∃ t', tasks[i]? = some t' ∧ margins.Serves peer id sentAt after.timeout t' := by
  rcases hsteps.goes_on ht with ⟨hsame, -⟩ | ⟨r, t', spawned, rfl, ht', hruns⟩
  · refine ⟨t, hsame, ?_⟩
    rcases hserves with hchecking | hrenewing | ⟨granted, hended, hsince, hgranted⟩
    · exact Or.inl hchecking
    · exact Or.inr (Or.inl hrenewing)
    · exact Or.inr (Or.inr ⟨granted, hended, hsince, hgranted.trans hle⟩)
  · refine ⟨t', ht', ?_⟩
    rcases hserves with rfl | rfl | ⟨granted, rfl, -, -⟩
    · cases hruns with
      | checksOwner _ _ l hl howner => exact Or.inr (Or.inl rfl)
      | checksOther _ _ l hl howner =>
        obtain rfl := Option.some.inj (hheld.lookup.symm.trans hl)
        exact absurd hheld.owner howner
      | checksMissing _ _ hl => cases hheld.lookup.symm.trans hl
    · cases hruns with
      | renews _ _ l hl =>
        have hnew : (s.worker.manager.ledger.insert id { l with timeout := r.now + leaseTimeout }).lookup id = some after :=
          hafter
        rw [AList.lookup_insert] at hnew
        obtain rfl := Option.some.inj hnew
        have hclock : now ≤ r.now + margins.skew := (hundisturbed.clocks r.now rfl).2.2
        refine Or.inr (Or.inr ⟨_, rfl, ?_, le_rfl⟩)
        rw [Nat.add_right_comm]
        exact Nat.add_le_add_right (hsent.trans hclock) leaseTimeout
      | renewMisses _ _ hl => cases hheld.lookup.symm.trans hl
    · cases hruns

/-- **What a step of the worker leaves**: the lease, perhaps renewed. -/
theorem Lifeline.Held.work (hheld : s.Held margins peer id lease) (hsteps : Steps cfg s.worker a effect tasks)
    (hfresh : Fresh (taken s.worker a effect tasks)) (hundisturbed : Undisturbed margins id s now a)
    (hclock : s.clock ≤ now) (hdue : ∀ time ∈ margins.due s.handle.phase, now ≤ time) :
    ∃ after, (Lifeline.mk s.handle s.call ⟨effect.apply s.worker.toShared, tasks⟩ now
      (a.now?.getD s.workerClock)).Held margins peer id after := by
  have hlive : ∀ time ∈ a.now?, time < lease.timeout := fun time htime =>
    lt_of_le_of_lt (hundisturbed.clocks time htime).2.1 (hheld.outlasts.lt hdue)
  obtain ⟨after, hafter, howner, hle, hrecent⟩ := hheld.renewed hsteps hfresh hundisturbed
  refine ⟨after, hheld.safe.step hsteps hfresh, hafter, howner, hrecent, fun u hu => hheld.step_unlisted hsteps hlive hu,
    hheld.outlasts.mono hle, fun sentAt delays failures hphase => ?_⟩
  obtain ⟨hsent, hcall⟩ := hheld.served sentAt delays failures hphase
  refine ⟨hsent.trans hclock, fun i hi => ?_⟩
  obtain ⟨t, ht, hserves⟩ := hcall i hi
  exact hheld.serves hsteps hundisturbed (hsent.trans hclock) ht hserves hafter hle

end Worker

/-! ## Along a run -/

section Run
variable [DecidableEq PeerId] {cfg : Config} {margins : Margins} {peer : PeerId} {id : Uuid} {s s' : Lifeline PeerId}
  {lease : WorkerLease PeerId} {now : SystemTime} {act : LeaseAct PeerId}

/-- **What may happen** to the handle and to the worker. -/
inductive Performs (cfg : Config) (peer : PeerId) (id : Uuid) (s : Lifeline PeerId) (now : SystemTime) :
    LeaseAct PeerId → Lifeline PeerId → Prop where
  | wakes (wake : SystemTime) (hphase : s.handle.phase = .sleeping wake) :
      Performs cfg peer id s now .wakes { s with handle := .refresh s.handle.lastTimeout now, call := none }
  | retries (wake : SystemTime) (delays failures : Nat) (hphase : s.handle.phase = .retrying wake delays failures) :
      Performs cfg peer id s now .wakes
        { s with handle := { s.handle with phase := .requesting now delays failures }, call := none }
  | errs (error : String) (delay : Duration) (sentAt : SystemTime) (delays failures : Nat)
      (hphase : s.handle.phase = .requesting sentAt delays failures) (hdelay : delay ≤ retryInterval) :
      Performs cfg peer id s now (.errs error delay) { s with handle := s.handle.failed now error delay delays failures }
  | arrives (hcall : s.call = none) :
      Performs cfg peer id s now .arrives
        { s with call := some s.worker.tasks.length, worker := ((arbiter cfg).step s.worker (.renews peer id)).1 }
  | returns (i : Nat) (response : Worker.Response) (sentAt : SystemTime) (delays failures : Nat)
      (hphase : s.handle.phase = .requesting sentAt delays failures) (hcall : s.call = some i)
      (ht : s.worker.tasks[i]? = some (.ended (some response))) :
      Performs cfg peer id s now .returns { s with handle := s.handle.answered now response }
  | works (a : Happening PeerId) :
      Performs cfg peer id s now (.works a)
        { s with worker := ((arbiter cfg).step s.worker a).1, workerClock := a.now?.getD s.workerClock }

theorem performs_of_perform (h : s.perform cfg peer id now act = some s') : Performs cfg peer id s now act s' := by
  cases act with
  | wakes =>
    simp only [Lifeline.perform] at h
    split at h
    · next wake hphase =>
      split_ifs at h
      obtain rfl := Option.some.inj h
      exact .wakes wake hphase
    · next wake delays failures hphase =>
      split_ifs at h
      obtain rfl := Option.some.inj h
      exact .retries wake delays failures hphase
    · cases h
  | errs error delay =>
    simp only [Lifeline.perform] at h
    split at h
    · next sentAt delays failures hphase =>
      split_ifs at h with hdelay
      obtain rfl := Option.some.inj h
      exact .errs error delay sentAt delays failures hphase hdelay
    · cases h
  | arrives =>
    simp only [Lifeline.perform] at h
    split at h
    · next hcall =>
      obtain rfl := Option.some.inj h
      exact .arrives hcall
    · cases h
  | returns =>
    simp only [Lifeline.perform] at h
    split at h
    · next sentAt delays failures response hphase hended =>
      obtain rfl := Option.some.inj h
      obtain ⟨i, hcall, ht⟩ := Option.bind_eq_some_iff.mp hended
      exact .returns i response sentAt delays failures hphase hcall ht
    · cases h
  | works a =>
    obtain rfl := Option.some.inj h
    exact .works a

/-- Time passes. -/
theorem Lifeline.Held.wait (hheld : s.Held margins peer id lease) (hclock : s.clock ≤ now) :
    ({ s with clock := now } : Lifeline PeerId).Held margins peer id lease := by
  refine ⟨hheld.safe, hheld.lookup, hheld.owner, hheld.recent, hheld.unlisted, hheld.outlasts, ?_⟩
  intro sentAt delays failures hphase
  obtain ⟨hsent, hcall⟩ := hheld.served sentAt delays failures hphase
  exact ⟨hsent.trans hclock, hcall⟩

/-- The handle goes on, with no attempt under way or one that it has just sent. -/
theorem Lifeline.Held.handle (hheld : s.Held margins peer id lease) {h : Handle} {call : Option Nat}
    (houtlasts : margins.Outlasts h lease.timeout)
    (hserved : ∀ sentAt delays failures, h.phase = .requesting sentAt delays failures → sentAt ≤ now ∧ call = none) :
    ({ s with handle := h, call := call, clock := now } : Lifeline PeerId).Held margins peer id lease := by
  refine ⟨hheld.safe, hheld.lookup, hheld.owner, hheld.recent, hheld.unlisted, houtlasts, ?_⟩
  intro sentAt delays failures hphase
  obtain ⟨hsent, hcall⟩ := hserved sentAt delays failures hphase
  refine ⟨hsent, fun i hi => ?_⟩
  rw [hcall] at hi
  cases hi

/-- A renewal that arrives is served by a new task. -/
theorem Lifeline.Held.arrives (cfg : Config) (hheld : s.Held margins peer id lease)
    (hfresh : Fresh (taken s.worker (.renews peer id) (.lease .reads) (s.worker.tasks ++ [.checking peer id])))
    (hclock : s.clock ≤ now) (hdue : ∀ time ∈ margins.due s.handle.phase, now ≤ time) :
    ∃ after, (Lifeline.mk s.handle (some s.worker.tasks.length) ((arbiter cfg).step s.worker (.renews peer id)).1 now
      s.workerClock).Held margins peer id after := by
  have hundisturbed : Undisturbed margins id s now (.renews peer id) := ⟨by rintro _ ⟨⟩, by rintro _ ⟨⟩⟩
  have hsteps : Steps cfg s.worker (.renews peer id) (.lease .reads) (s.worker.tasks ++ [.checking peer id]) :=
    .renews peer id
  obtain ⟨after, hafter⟩ := hheld.work hsteps hfresh hundisturbed hclock hdue
  refine ⟨after, hafter.safe, hafter.lookup, hafter.owner, hafter.recent, hafter.unlisted, hafter.outlasts, ?_⟩
  intro sentAt delays failures hphase
  refine ⟨(hafter.served sentAt delays failures hphase).1, fun i hi => ?_⟩
  obtain rfl := Option.some.inj hi
  exact ⟨_, List.getElem?_concat_length, Or.inl rfl⟩

/-- Whatever happens at the worker. -/
theorem Lifeline.Held.works (hheld : s.Held margins peer id lease) {a : Happening PeerId}
    (hfresh : ((arbiter cfg).step s.worker a).1.manager.drawn.Nodup) (hundisturbed : Undisturbed margins id s now a)
    (hclock : s.clock ≤ now) (hdue : ∀ time ∈ margins.due s.handle.phase, now ≤ time) :
    ∃ after, (Lifeline.mk s.handle s.call ((arbiter cfg).step s.worker a).1 now
      (a.now?.getD s.workerClock)).Held margins peer id after := by
  rcases arbiter_event cfg s.worker a with ⟨-, hevent⟩ | ⟨effect, tasks, hsteps, hevent⟩
  · have hstay : ((arbiter cfg).step s.worker a).1 = s.worker := congrArg Event.post hevent
    rw [hstay]
    obtain ⟨hsafe, hlookup, howner, hrecent, hunlisted, houtlasts, hserved⟩ := hheld.wait hclock
    refine ⟨lease, hsafe, hlookup, howner, hrecent.trans (Nat.add_le_add_right ?_ _), hunlisted, houtlasts, hserved⟩
    rcases htime : a.now? with _ | time
    · exact le_rfl
    · exact (hundisturbed.clocks time htime).1
  · have hstep : ((arbiter cfg).step s.worker a).1 = ⟨effect.apply s.worker.toShared, tasks⟩ := congrArg Event.post hevent
    rw [hstep] at hfresh ⊢
    exact hheld.work hsteps hfresh hundisturbed hclock hdue

theorem Handle.answered_ne_requesting {h : Handle} {sentAt : SystemTime} {delays failures : Nat}
    (response : Worker.Response) : (h.answered now response).phase ≠ .requesting sentAt delays failures := by
  cases response with
  | renewLease response => cases response <;> exact HandlePhase.noConfusion
  | dispatchJob response => exact HandlePhase.noConfusion

/-- An answer renews the lease. -/
theorem Lifeline.Held.returns (hheld : s.Held margins peer id lease) {i : Nat} {response : Worker.Response}
    {sentAt : SystemTime} {delays failures : Nat} (hphase : s.handle.phase = .requesting sentAt delays failures)
    (hcall : s.call = some i) (ht : s.worker.tasks[i]? = some (.ended (some response)))
    (hnow : now ≤ sentAt + margins.latency) : margins.Outlasts (s.handle.answered now response) lease.timeout := by
  obtain ⟨t, ht', hserves⟩ := (hheld.served sentAt delays failures hphase).2 i hcall
  obtain rfl := Option.some.inj (ht.symm.trans ht')
  rcases hserves with hchecking | hrenewing | ⟨granted, hended, hsince, hgranted⟩
  · cases hchecking
  · cases hrenewing
  · obtain ⟨⟨⟩⟩ := hended
    exact margins.outlasts_answered hnow hsince hgranted

/-- **The step.** Whatever happens punctually, the lease outlasts what the handle waits for. -/
theorem Lifeline.Held.performs (hheld : s.Held margins peer id lease) (hperforms : Performs cfg peer id s now act s')
    (hpunctual : Punctual margins id ⟨s, ⟨now, act⟩, true, { s' with clock := now }⟩) :
    ∃ after, ({ s' with clock := now } : Lifeline PeerId).Held margins peer id after := by
  have hdue : ∀ time ∈ margins.due s.handle.phase, now ≤ time := hpunctual.due
  cases hperforms with
  | wakes wake hphase =>
    have hnow := hdue (wake + margins.tardiness) (by rw [hphase]; rfl)
    refine ⟨lease, hheld.handle (hheld.outlasts.refresh hphase hnow) fun sentAt delays failures hsent => ?_⟩
    cases hsent
    exact ⟨le_rfl, rfl⟩
  | retries wake delays failures hphase =>
    have hnow := hdue (wake + margins.tardiness) (by rw [hphase]; rfl)
    refine ⟨lease, hheld.handle (hheld.outlasts.retry hphase hnow) fun sentAt delays failures hsent => ?_⟩
    cases hsent
    exact ⟨le_rfl, rfl⟩
  | errs error delay sentAt delays failures hphase hdelay =>
    have hnow := hdue (sentAt + margins.latency) (by rw [hphase]; rfl)
    have hfew : s.handle.phase.failures < margins.retries := hpunctual.failures rfl
    rw [hphase] at hfew
    refine ⟨lease, hheld.handle (hheld.outlasts.failed hphase hnow hfew hdelay) fun sentAt delays failures hsent => ?_⟩
    rw [Handle.failed] at hsent
    split_ifs at hsent
    cases hsent
  | arrives hcall => exact hheld.arrives cfg hpunctual.fresh hpunctual.forward hdue
  | returns i response sentAt delays failures hphase hcall ht =>
    have hnow := hdue (sentAt + margins.latency) (by rw [hphase]; rfl)
    refine ⟨lease, hheld.handle (hheld.returns hphase hcall ht hnow) fun sentAt delays failures hsent => ?_⟩
    exact absurd hsent (Handle.answered_ne_requesting response)
  | works a =>
    exact hheld.works hpunctual.fresh ⟨hpunctual.clocks a rfl, hpunctual.undisturbed a rfl⟩ hpunctual.forward hdue

/-- A step of the machine: something happens, or time passes. -/
theorem lifeline_event (cfg : Config) (peer : PeerId) (id : Uuid) (s : Lifeline PeerId) (e : LeaseHappening PeerId) :
    (∃ s', Performs cfg peer id s e.now e.act s' ∧
      (lifeline cfg peer id).event s e = ⟨s, e, true, { s' with clock := e.now }⟩) ∨
      (lifeline cfg peer id).event s e = ⟨s, e, false, { s with clock := e.now }⟩ := by
  rcases hperform : s.perform cfg peer id e.now e.act with _ | s'
  · exact Or.inr (by simp [Machine.event, lifeline, hperform])
  · exact Or.inl ⟨s', performs_of_perform hperform, by simp [Machine.event, lifeline, hperform]⟩

theorem Lifeline.Held.step (hheld : s.Held margins peer id lease) (e : LeaseHappening PeerId)
    (hpunctual : Punctual margins id ((lifeline cfg peer id).event s e)) :
    ∃ after, ((lifeline cfg peer id).event s e).post.Held margins peer id after := by
  rcases lifeline_event cfg peer id s e with ⟨s', hperforms, hevent⟩ | hevent
  · rw [hevent] at hpunctual ⊢
    exact hheld.performs hperforms hpunctual
  · rw [hevent] at hpunctual ⊢
    exact ⟨lease, hheld.wait hpunctual.forward⟩

theorem Lifeline.Held.kept (hheld : s.Held margins peer id lease) {e : LeaseHappening PeerId} {after : WorkerLease PeerId}
    (hpunctual : Punctual margins id ((lifeline cfg peer id).event s e))
    (hafter : ((lifeline cfg peer id).event s e).post.Held margins peer id after) :
    Kept peer id ((lifeline cfg peer id).event s e) := by
  refine ⟨hafter.outlasts.lives, ⟨lease, hheld.lookup, hheld.owner, fun a ha now hnow => ?_⟩,
    Table.mem_of_lookup hafter.lookup, hafter.unlisted⟩
  have hlate := (hpunctual.clocks a ha now hnow).2.1
  have hlive := hheld.outlasts.lt hpunctual.due
  exact decide_eq_false (not_le.mpr (lt_of_le_of_lt hlate hlive))

/-- A handle is created for a lease of the worker. -/
def Lifeline.created (worker : Arbiter PeerId) (now workerNow : SystemTime) : Lifeline PeerId where
  handle := .refresh none now
  worker := worker
  clock := now
  workerClock := workerNow

theorem Lifeline.Held.created {w : Arbiter PeerId} {workerNow : SystemTime} (hsafe : Safe w)
    (hlease : w.manager.ledger.lookup id = some lease) (howner : lease.leasable.peerId = peer)
    (hrecent : lease.timeout ≤ workerNow + leaseTimeout) (hslack : now + margins.slack ≤ lease.timeout)
    (hunlisted : ∀ t ∈ w.tasks, id ∉ t.condemned ∧ id ∉ t.sentenced) :
    (Lifeline.created w now workerNow).Held margins peer id lease := by
  have hdelays : Handle.delays none now = 5 := by simp [Handle.delays, asMillis, fromSecs]
  refine ⟨hsafe, hlease, howner, hrecent, hunlisted, ⟨Nat.zero_le _, hdelays ▸ margins.few, ?_⟩, ?_⟩
  · rw [Nat.zero_mul]
    lia
  · intro sentAt delays failures hphase
    cases hphase
    exact ⟨le_rfl, by rintro _ ⟨⟩⟩

/-- **A lease is kept.** A handle is created for a lease of the worker that is not listed and has some slack. If timers
and answers are not too late, the clocks do not differ too much and not too many attempts fail in a row, then whatever
else the worker does the handle lives and the lease with it. -/
theorem lease_kept (cfg : Config) (margins : Margins) (happenings : List (Happening PeerId)) (now workerNow : SystemTime)
    (hfresh : (Worker.run cfg happenings).state.manager.drawn.Nodup)
    (hlease : (Worker.run cfg happenings).state.manager.ledger.lookup id = some lease)
    (howner : lease.leasable.peerId = peer) (hrecent : lease.timeout ≤ workerNow + leaseTimeout)
    (hslack : now + margins.slack ≤ lease.timeout)
    (hunlisted : ∀ t ∈ (Worker.run cfg happenings).state.tasks, id ∉ t.condemned ∧ id ∉ t.sentenced)
    (inputs : List (LeaseHappening PeerId))
    (hpunctual : Along (fun e _ => Punctual margins id e) ((lifeline cfg peer id).run
      (.created (Worker.run cfg happenings).state now workerNow) inputs).history) :
    Along (fun e _ => Kept peer id e)
      ((lifeline cfg peer id).run (.created (Worker.run cfg happenings).state now workerNow) inputs).history := by
  refine ((lifeline cfg peer id).along_of_invariant (fun v => ∃ held, v.state.Held margins peer id held)
    (fun e _ => Punctual margins id e) (fun e _ => Kept peer id e) ?_ ?_ inputs hpunctual).2
  · exact ⟨lease, .created (run_safe happenings hfresh).1 hlease howner hrecent hslack hunlisted⟩
  · rintro v e ⟨held, hheld⟩ hstep
    obtain ⟨after, hafter⟩ := hheld.step e hstep
    exact ⟨⟨after, hafter⟩, hheld.kept hstep hafter⟩

/-! ### A renewal that fails once -/

instance (margins : Margins) (id : Uuid) (e : Event (Lifeline PeerId) (LeaseHappening PeerId) Bool) :
    Decidable (Punctual margins id e) :=
  decidable_of_iff (e.pre.clock ≤ e.input.now ∧ (∀ time ∈ margins.due e.pre.handle.phase, e.input.now ≤ time) ∧
    (e.input.act.isError = true → e.pre.handle.phase.failures < margins.retries) ∧
    (∀ a ∈ e.input.act.work?, ∀ now ∈ a.now?,
      e.pre.workerClock ≤ now ∧ now ≤ e.input.now + margins.skew ∧ e.input.now ≤ now + margins.skew) ∧
    (∀ a ∈ e.input.act.work?, ∀ t ∈ ran? e.pre.worker a, revokes id t = false) ∧
    e.post.worker.manager.drawn.Nodup)
    ⟨fun ⟨hforward, hdue, hfailures, hclocks, hundisturbed, hfresh⟩ =>
      ⟨hforward, hdue, hfailures, hclocks, hundisturbed, hfresh⟩,
    fun h => ⟨h.forward, h.due, h.failures, h.clocks, h.undisturbed, h.fresh⟩⟩

/-- Two failures in a row, a tenth of a second for everything else. -/
def tenth : Margins where
  tardiness := fromMillis 100
  latency := fromMillis 100
  skew := fromMillis 100
  slack := fromSecs 2
  retries := 2
  few := by decide
  outlast := by decide +kernel
  granted := by decide +kernel

/-- The lease of an offer is renewed, the next renewal fails once, and the prune loop finds nothing that has expired. -/
def renewedTwice : List (LeaseHappening Nat) :=
  [⟨0, .arrives⟩, ⟨0, .works (.runs 2 {})⟩, ⟨0, .works (.runs 2 {})⟩, ⟨0, .returns⟩, ⟨fromSecs 120, .wakes⟩,
    ⟨fromSecs 120, .errs "timed out" 0⟩, ⟨fromSecs 120, .wakes⟩, ⟨fromSecs 120, .arrives⟩,
    ⟨fromSecs 120, .works .ticks⟩, ⟨fromSecs 120, .works (.runs 4 { now := fromSecs 120 })⟩,
    ⟨fromSecs 120, .works (.runs 4 { now := fromSecs 120 })⟩, ⟨fromSecs 120, .works (.runs 3 { now := fromSecs 120 })⟩,
    ⟨fromSecs 120, .works (.runs 3 { now := fromSecs 120 })⟩, ⟨fromSecs 120, .returns⟩]

theorem lease_kept_renewedTwice :
    Along (fun e _ => Punctual tenth 2 e) ((lifeline fourCores 7 2).run
      (.created (Worker.run fourCores (served 0 7 { cpu := 1 } 1 2 0)).state 0 0) renewedTwice).history ∧
    Along (fun e _ => Kept 7 2 e) ((lifeline fourCores 7 2).run
      (.created (Worker.run fourCores (served 0 7 { cpu := 1 } 1 2 0)).state 0 0) renewedTwice).history := by
  have hpunctual : Along (fun e _ => Punctual tenth 2 e) ((lifeline fourCores 7 2).run
      (.created (Worker.run fourCores (served 0 7 { cpu := 1 } 1 2 0)).state 0 0) renewedTwice).history := by
    decide +kernel
  have hlease : (Worker.run fourCores (served 0 7 { cpu := 1 } 1 2 0)).state.manager.ledger.lookup 2 =
      some ⟨2, ⟨7, 1⟩, offerTimeout⟩ := by decide +kernel
  exact ⟨hpunctual, lease_kept fourCores tenth (served 0 7 { cpu := 1 } 1 2 0) 0 0 (by decide +kernel) hlease rfl
    (by decide +kernel) (by decide +kernel) (by decide +kernel) renewedTwice hpunctual⟩

end Run

end Hypha.WorkerHandle
