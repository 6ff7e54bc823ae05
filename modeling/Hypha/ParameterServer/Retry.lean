import Mathlib.Data.List.Perm.Subperm
import Hypha.ParameterServer.Aggregate
import Hypha.Scheduler.Run

/-!
# Failed aggregations (`parameter_server.rs`)

An aggregation that fails is reported to the scheduler: as a connection error, after which the scheduler asks for it
again, or as another error, which the scheduler answers with `Terminate`.

* `Accounted` : what was offered or has arrived is still offered or has been taken;
* `Retryable` : a failed call has left everything as it was;
* `aggregateUpdates_ok_iff` : which calls succeed;
* `failed_aggregation` : a failed call has left everything if and only if it has taken nothing, and it has taken nothing if
  the scheduler asks for it again.
-/

namespace Hypha.ParameterServer

open Hypha.Lib Hypha.Action Hypha.Scheduler

set_option linter.unusedSectionVars false

/-- How the executor reports that `aggregate_updates` has failed; it does not live to report a panic. -/
def Failure.report? : Failure → Option AggregateError
  | .invalidExecutorConfig message => some (.connection message)
  | .candle error => some (.other ("Tensor error: Candle core error: " ++ error))
  | .io error => some (.other ("I/O error: " ++ error))
  | .panicked _ => none

section Accounts
variable {PeerId R : Type} [DecidableEq PeerId]

def takenFrom (p : PeerId) (taken : List (PeerId × StagedFile R)) : List (StagedFile R) :=
  (taken.filter (·.1 = p)).map Prod.snd

theorem takenFrom_append (p : PeerId) (before after : List (PeerId × StagedFile R)) :
    takenFrom p (before ++ after) = takenFrom p before ++ takenFrom p after := by
  unfold takenFrom
  rw [List.filter_append, List.map_append]

theorem takenFrom_singleton (p q : PeerId) (file : StagedFile R) :
    takenFrom q [(p, file)] = if q = p then [file] else [] := by
  unfold takenFrom
  split_ifs with hq
  · rw [List.filter_eq_self.mpr (by simp [hq])]
    rfl
  · rw [List.filter_eq_nil_iff.mpr (by simp [Ne.symm hq])]
    rfl

/-- Of each peer, what was offered and what has arrived `meanwhile` is still offered or has been `taken`. -/
structure Accounted (s : Server PeerId R) (meanwhile : List (Arrival PeerId R)) (taken : List (PeerId × StagedFile R))
    (s' : Server PeerId R) : Prop where
  arrivals : s'.arrivals = s.arrivals ++ meanwhile
  files : ∀ p, (filesOf s.store p ++ filesFrom p meanwhile).Perm (filesOf s'.store p ++ takenFrom p taken)

variable {s s' s'' : Server PeerId R} {meanwhile meanwhile' : List (Arrival PeerId R)}
  {taken taken' : List (PeerId × StagedFile R)}

theorem Accounted.of_eq (hstore : s'.store = s.store) (harrivals : s'.arrivals = s.arrivals) :
    Accounted s [] [] s' where
  arrivals := by rw [harrivals, List.append_nil]
  files p := by rw [hstore]; exact .refl _

theorem Accounted.receive (s : Server PeerId R) (arrived : List (Arrival PeerId R)) :
    Accounted s arrived [] (s.receive arrived) where
  arrivals := rfl
  files p := by
    rw [← filesOf_foldl_push]
    exact .of_eq (List.append_nil _).symm

theorem Accounted.chosen {used keys : List PeerId} {p : PeerId} {file : StagedFile R} {store : UpdatesStore PeerId R}
    (h : choose used s.store keys = some (p, file, store)) : Accounted s [] [(p, file)] { s with store } where
  arrivals := (List.append_nil _).symm
  files q := by
    obtain ⟨-, -, hlast, rfl⟩ := of_choose h
    rw [filesOf_insert, takenFrom_singleton]
    split_ifs with hq
    · rw [hq, List.dropLast_append_getLast? file hlast]
      exact .of_eq (List.append_nil _)
    · exact .refl _

open scoped List in
theorem Accounted.trans (h : Accounted s meanwhile taken s') (h' : Accounted s' meanwhile' taken' s'') :
    Accounted s (meanwhile ++ meanwhile') (taken ++ taken') s'' where
  arrivals := by rw [h'.arrivals, h.arrivals, List.append_assoc]
  files p := by
    rw [filesFrom_append, takenFrom_append, ← List.append_assoc]
    calc filesOf s.store p ++ filesFrom p meanwhile ++ filesFrom p meanwhile'
      _ ~ filesOf s'.store p ++ takenFrom p taken ++ filesFrom p meanwhile' := (h.files p).append_right _
      _ ~ filesOf s'.store p ++ filesFrom p meanwhile' ++ takenFrom p taken := by
        rw [List.append_assoc, List.append_assoc]
        exact List.perm_append_comm.append_left _
      _ ~ filesOf s''.store p ++ takenFrom p taken' ++ takenFrom p taken := (h'.files p).append_right _
      _ ~ filesOf s''.store p ++ (takenFrom p taken ++ takenFrom p taken') := by
        rw [List.append_assoc]
        exact List.perm_append_comm.append_left _

/-- Everything offered before the call, and what has arrived during it, is offered after it, and the momentum is what it
was. -/
def Retryable (s s' : Server PeerId R) : Prop :=
  ∃ meanwhile, s'.arrivals = s.arrivals ++ meanwhile ∧
    (∀ p, (filesOf s.store p ++ filesFrom p meanwhile).Subperm (filesOf s'.store p)) ∧
      s'.dir .momentum = s.dir .momentum

/-- What has been taken is missing. -/
theorem Accounted.retryable_iff (h : Accounted s meanwhile taken s') :
    Retryable s s' ↔ taken = [] ∧ s'.dir .momentum = s.dir .momentum := by
  constructor
  · rintro ⟨meanwhile', harrivals, hoffered, hmomentum⟩
    obtain rfl : meanwhile' = meanwhile := List.append_cancel_left (harrivals.symm.trans h.arrivals)
    refine ⟨List.eq_nil_iff_forall_not_mem.mpr fun u hu => ?_, hmomentum⟩
    have hle := (hoffered u.1).length_le
    rw [(h.files u.1).length_eq, List.length_append] at hle
    have hmem : u.2 ∈ takenFrom u.1 taken := by
      refine List.mem_map_of_mem (List.mem_filter.mpr ⟨hu, ?_⟩)
      exact decide_eq_true rfl
    have hpos := List.length_pos_of_mem hmem
    omega
  · rintro ⟨rfl, hmomentum⟩
    refine ⟨meanwhile, h.arrivals, fun p => ?_, hmomentum⟩
    have hperm := h.files p
    rw [show takenFrom p ([] : List (PeerId × StagedFile R)) = [] from rfl, List.append_nil] at hperm
    exact hperm.subperm

end Accounts

section Loop
variable {PeerId R : Type} [DecidableEq PeerId] [CommRing R] {digest : String → BitVec 256} {rank : String → Nat}
  {allowed used : List PeerId} {s : Server PeerId R} {current : Option (Source R)}

theorem merge_accounted (digest : String → BitVec 256) (rank : String → Nat) (s : Server PeerId R) (file : StagedFile R)
    (current : Option (Source R)) : Accounted s [] [] (merge digest rank s file current).1 := by
  cases current with
  | none => exact .of_eq rfl rfl
  | some result =>
    obtain ⟨hstore, harrivals, -⟩ := @merge_some _ _ _ _ digest rank s file result
    exact .of_eq hstore harrivals

/-! ## The loop -/

/-- What the loop comes to in any case, where it would take `selected`. -/
structure Ends (s : Server PeerId R) (turns : List (Turn PeerId R)) (selected : List (PeerId × StagedFile R))
    (current : Option (Source R)) (after : Server PeerId R × Option (Except Failure (Option (Source R)))) : Prop where
  /-- Something is taken, if there is something to take. -/
  accounted : ∃ meanwhile taken, Accounted s meanwhile taken after.1 ∧ (taken = [] ↔ selected = [])
  /-- If there are none, the directory and what is in hand are left as they were. -/
  idle : selected = [] → after.1.dir = s.dir ∧ ∀ merged, after.2 = some (.ok merged) → merged = current
  /-- Nothing is in hand in the end only if nothing has been taken. -/
  nothing : after.2 = some (.ok none) → current = none ∧ selected = []
  /-- An error of configuration means that the loop was cancelled. -/
  config : ∀ message, after.2 = some (.error (.invalidExecutorConfig message)) → ∃ turn ∈ turns, turn.wait = .cancelled

/-- What is taken in a turn that gets an update. -/
theorem Accounted.turn {turn : Turn PeerId R} {p : PeerId} {file : StagedFile R} {store : UpdatesStore PeerId R}
    {after : Server PeerId R × Except Failure (Source R)}
    (chosen : choose used (s.receive turn.arrived).store
      (eligibleKeys allowed turn.keysRank (s.receive turn.arrived).store) = some (p, file, store))
    (merged : merge digest rank { s.receive turn.arrived with store } file current = after) :
    Accounted s turn.arrived [(p, file)] after.1 := by
  have haccounted := ((Accounted.receive s turn.arrived).trans (Accounted.chosen chosen)).trans
    (merge_accounted digest rank { s.receive turn.arrived with store } file current)
  rwa [merged, List.append_nil, List.append_nil] at haccounted

theorem aggregateLoop_ends (turns : List (Turn PeerId R)) :
    ∀ (s : Server PeerId R) used current, Ends s turns (select allowed turns s.store used).1 current
      (aggregateLoop digest allowed turns s used current) := by
  induction turns with
  | nil => exact fun s _ _ => ⟨⟨[], [], .of_eq rfl rfl, Iff.rfl⟩, fun _ => ⟨rfl, nofun⟩, nofun, nofun⟩
  | cons turn turns ih =>
    intro s used current
    have hreceived := Accounted.receive s turn.arrived
    -- where something is taken, something would be
    have htaken : ∀ (u : PeerId × StagedFile R) taken selected, u :: taken = [] ↔ u :: selected = [] :=
      fun _ _ _ => iff_of_false (List.cons_ne_nil _ _) (List.cons_ne_nil _ _)
    have hturned := @turned _ _ _ _ digest allowed turn turns s used current
    generalize select allowed (turn :: turns) s.store used = selected at hturned ⊢
    generalize aggregateLoop digest allowed (turn :: turns) s used current = after at hturned ⊢
    cases hturned with
    | waits =>
      have hrest := ih (s.receive turn.arrived) used current
      obtain ⟨meanwhile, taken, haccounted, htaken⟩ := hrest.accounted
      exact ⟨⟨_, taken, hreceived.trans haccounted, htaken⟩, hrest.idle, hrest.nothing, fun message h =>
        List.exists_mem_cons_of_exists (hrest.config message h)⟩
    | cancelled wait =>
      exact ⟨⟨_, [], hreceived, Iff.rfl⟩, fun _ => ⟨rfl, nofun⟩, nofun, fun _ _ => ⟨turn, List.mem_cons_self, wait⟩⟩
    | finished =>
      exact ⟨⟨_, [], hreceived, Iff.rfl⟩, fun _ => ⟨rfl, fun _ h => (Except.ok.inj (Option.some.inj h)).symm⟩,
        fun h => ⟨Except.ok.inj (Option.some.inj h), rfl⟩, nofun⟩
    | fails chosen merged rest ending =>
      refine ⟨⟨_, _, Accounted.turn chosen merged, htaken _ _ _⟩, nofun, nofun, fun message h => ?_⟩
      obtain ⟨error, rfl⟩ := merge_candle (congrArg Prod.snd merged)
      cases h
    | last chosen merged => exact ⟨⟨_, _, Accounted.turn chosen merged, htaken _ _ _⟩, nofun, nofun, nofun⟩
    | @takes p file store after src chosen merged =>
      have hrest := ih after (p :: used) (some src)
      obtain ⟨meanwhile, taken, haccounted, -⟩ := hrest.accounted
      exact ⟨⟨_, _, (Accounted.turn chosen merged).trans haccounted, htaken _ _ _⟩, nofun,
        fun h => (nomatch (hrest.nothing h).1), fun message h =>
        List.exists_mem_cons_of_exists (hrest.config message h)⟩

end Loop

/-! ## The call -/

section Calls
variable {PeerId R : Type} [DecidableEq PeerId] [CommRing R] {digest : String → BitVec 256} {call : Call PeerId R}
  {s : Server PeerId R}

theorem handOver_accounted (s : Server PeerId R) (current : Option (Source R)) :
    Accounted s [] [] (handOver s current).1 := by
  cases current with
  | none => exact .of_eq rfl rfl
  | some src =>
    unfold handOver
    dsimp only
    split <;> exact .of_eq rfl rfl

theorem gather_accounted : ∃ meanwhile taken, Accounted s meanwhile taken (gather digest call s).1 ∧
    (taken = [] ↔ call.taken s = []) := by
  obtain ⟨meanwhile, taken, haccounted, htaken⟩ := (aggregateLoop_ends call.turns s [] none).accounted
  have hlate := fun s' : Server PeerId R => Accounted.receive s' call.late
  rcases hloop : aggregateLoop digest call.allowed call.turns s [] none with ⟨s', _ | e | current⟩
  all_goals rw [hloop] at haccounted
  · rw [gather_of_none hloop]
    exact ⟨meanwhile, taken, haccounted, htaken⟩
  · rw [gather_of_error hloop]
    refine ⟨_, _, haccounted.trans (hlate s'), ?_⟩
    rwa [List.append_nil]
  · rw [gather_of_loop hloop]
    refine ⟨_, _, (haccounted.trans (hlate s')).trans (handOver_accounted _ current), ?_⟩
    rwa [List.append_nil, List.append_nil]

/-- The optimizer touches neither the store nor what has arrived. -/
theorem aggregateUpdates_store : (aggregateUpdates digest call s).1.store = (gather digest call s).1.store ∧
    (aggregateUpdates digest call s).1.arrivals = (gather digest call s).1.arrivals := by
  unfold aggregateUpdates
  rcases gather digest call s with ⟨s', _ | e | _⟩
  · exact ⟨rfl, rfl⟩
  · exact ⟨rfl, rfl⟩
  · dsimp only
    split <;> exact ⟨rfl, rfl⟩

theorem aggregateUpdates_accounted : ∃ meanwhile taken, Accounted s meanwhile taken (aggregateUpdates digest call s).1 ∧
    (taken = [] ↔ call.taken s = []) := by
  obtain ⟨meanwhile, taken, haccounted, htaken⟩ := @gather_accounted _ _ _ _ digest call s
  obtain ⟨hstore, harrivals⟩ := @aggregateUpdates_store _ _ _ _ digest call s
  refine ⟨_, _, haccounted.trans (.of_eq hstore harrivals), ?_⟩
  rwa [List.append_nil]

/-- Without an update nothing happens in the directory, and the optimizer is not called. -/
theorem gather_idle (h : call.taken s = []) :
    (gather digest call s).1.dir = s.dir ∧ (gather digest call s).2 ≠ some (.ok ()) := by
  obtain ⟨hdir, hmerged⟩ := (@aggregateLoop_ends _ _ _ _ digest call.allowed call.turns s [] none).idle h
  rcases hloop : aggregateLoop digest call.allowed call.turns s [] none with ⟨s', _ | e | current⟩
  all_goals rw [hloop] at hdir hmerged
  · rw [gather_of_none hloop]
    exact ⟨hdir, nofun⟩
  · rw [gather_of_error hloop]
    exact ⟨hdir, nofun⟩
  · rw [gather_of_loop hloop, hmerged current rfl]
    exact ⟨hdir, nofun⟩

theorem aggregateUpdates_idle (h : call.taken s = []) : (aggregateUpdates digest call s).1.dir = s.dir := by
  obtain ⟨hdir, hok⟩ := @gather_idle _ _ _ _ digest call s h
  unfold aggregateUpdates
  rcases hgather : gather digest call s with ⟨s', _ | e | _⟩
  all_goals rw [hgather] at hdir hok
  · exact hdir
  · exact hdir
  · exact absurd rfl hok

/-- **What can be repeated**: a call that has taken no update. -/
theorem retryable_iff : Retryable s (aggregateUpdates digest call s).1 ↔ call.taken s = [] := by
  obtain ⟨meanwhile, taken, haccounted, htaken⟩ := @aggregateUpdates_accounted _ _ _ _ digest call s
  rw [haccounted.retryable_iff, htaken]
  exact and_iff_left_of_imp fun h => congrFun (aggregateUpdates_idle h) .momentum

theorem gather_config {message : String}
    (h : (gather digest call s).2 = some (.error (.invalidExecutorConfig message))) :
    (∃ turn ∈ call.turns, turn.wait = .cancelled) ∨ call.taken s = [] := by
  have hends := @aggregateLoop_ends _ _ _ _ digest call.allowed call.turns s [] none
  rcases hloop : aggregateLoop digest call.allowed call.turns s [] none with ⟨s', _ | e | _ | src⟩
  all_goals rw [hloop] at hends
  · rw [gather_of_none hloop] at h
    cases h
  · rw [gather_of_error hloop] at h
    cases h
    exact .inl (hends.config message rfl)
  · exact .inr (hends.nothing rfl).2
  · rw [gather_of_loop hloop] at h
    cases hread : (s'.receive call.late).dir.read src with
    | none =>
      rw [handOver_none hread] at h
      cases h
    | some content =>
      rw [handOver_some hread] at h
      cases h

theorem aggregateUpdates_config {message : String}
    (h : (aggregateUpdates digest call s).2 = some (.error (.invalidExecutorConfig message))) :
    (∃ turn ∈ call.turns, turn.wait = .cancelled) ∨ call.taken s = [] := by
  unfold aggregateUpdates at h
  rcases hgather : gather digest call s with ⟨s', _ | e | _⟩
  all_goals rw [hgather] at h
  · cases h
  · cases h
    exact gather_config (congrArg Prod.snd hgather)
  · dsimp only at h
    split at h
    · rename_i dir e hrun
      cases h
      exact absurd rfl (nesterov_ne_config (congrArg Prod.snd hrun) message)
    · cases h

/-- The digest tells the names of a sum apart. -/
theorem injOn_sum {total : TensorMap R} (hdigest : TellsApart digest (call.taken s)) (hne : call.taken s ≠ [])
    (hreadable : ∀ u ∈ call.taken s, u.2.content = ofTensors u.2.tensors) (hsum : SumOf (mapsOf (call.taken s)) total) :
    Set.InjOn digest {n | n ∈ total} := by
  obtain ⟨u, hu⟩ := List.exists_mem_of_ne_nil _ hne
  have hmem : u.2.tensors ∈ mapsOf (call.taken s) := List.mem_map_of_mem hu
  exact (hdigest u hu u.2.tensors (hreadable u hu)).mono fun name hname => (hsum.mem_iff name).mp hname _ hmem

/-- Where the sum of the updates reaches the optimizer, the call succeeds if the momentum fits the sum. -/
theorem aggregateUpdates_ok_of_sum (hfresh : s.Fresh) (hdigest : TellsApart digest (call.taken s))
    (hended : call.ending s = .finished) (hne : call.taken s ≠ [])
    (hfitting : FittingContents (contentsOf (call.taken s))) :
    (aggregateUpdates digest call s).2 = some (.ok .gradientUpdate) ↔
      ∃ total, SumOf (mapsOf (call.taken s)) total ∧ OptimizerFits s.dir total := by
  obtain ⟨total, hsum, hok, hfinal, hframe⟩ := gather_sum hfresh hdigest hended hne hfitting
  have hinj := injOn_sum hdigest hne (fittingContents_iff.mp hfitting).1 hsum
  have hfits : OptimizerFits (gather digest call s).1.dir total ↔ OptimizerFits s.dir total :=
    optimizerFits_congr (hframe .momentum rfl nofun) (hframe .momentumUpdate rfl nofun)
  have hiff := @nesterov_ok_iff _ _ digest call.momentum call.learningRate call.momentumRank call.updateRank
    (gather digest call s).1.dir (.named .avgFinal) total rfl hfinal hinj
  rw [aggregateUpdates_of_gather hok, Option.some_inj, hiff, hfits]
  constructor
  · exact fun h => ⟨total, hsum, h⟩
  · rintro ⟨total', hsum', h⟩
    exact h.of_sameLayout (hsum'.sameLayout hsum fun hnil => hne (List.map_eq_nil_iff.mp hnil))

/-- A call that succeeds returns the path of the optimizer's result. -/
theorem aggregateUpdates_path {path : FileName} (h : (aggregateUpdates digest call s).2 = some (.ok path)) :
    (gather digest call s).2 = some (.ok ()) ∧ path = .gradientUpdate := by
  unfold aggregateUpdates at h
  rcases hgather : gather digest call s with ⟨s', _ | e | _⟩
  all_goals rw [hgather] at h
  · cases h
  · cases h
  · dsimp only at h
    split at h
    · cases h
    · rename_i dir gradientFile hrun
      cases h
      exact ⟨rfl, nesterov_path (congrArg Prod.snd hrun)⟩

theorem ending_of_ok {path : FileName} (hfresh : s.Fresh) (hdigest : TellsApart digest (call.taken s))
    (h : (aggregateUpdates digest call s).2 = some (.ok path)) : call.ending s = .finished := by
  have hlooped := looped hfresh hdigest
  rcases hloop : aggregateLoop digest call.allowed call.turns s [] none with ⟨s', _ | e | current⟩
  · unfold aggregateUpdates at h
    rw [gather_of_none hloop] at h
    cases h
  · rw [aggregateUpdates_of_error (e := e) (by rw [gather_of_error hloop])] at h
    cases h
  · rw [hloop] at hlooped
    exact (hlooped.ok current rfl).1

/-- **Which calls succeed**: those that take something, are not cancelled, and have taken updates that can be summed, to
a sum that the momentum fits. -/
theorem aggregateUpdates_ok_iff (hfresh : s.Fresh) (hdigest : TellsApart digest (call.taken s)) :
    (∃ path, (aggregateUpdates digest call s).2 = some (.ok path)) ↔
      call.taken s ≠ [] ∧ call.ending s = .finished ∧ FittingContents (contentsOf (call.taken s)) ∧
        ∃ total, SumOf (mapsOf (call.taken s)) total ∧ OptimizerFits s.dir total := by
  constructor
  · rintro ⟨path, h⟩
    obtain ⟨hgather, rfl⟩ := aggregateUpdates_path h
    have hended := ending_of_ok hfresh hdigest h
    have hne : call.taken s ≠ [] := fun hnil => (gather_idle hnil).2 hgather
    have hfitting : FittingContents (contentsOf (call.taken s)) := by
      by_contra hmisfit
      obtain ⟨e, he⟩ := aggregateUpdates_misfit hfresh hdigest (hended ▸ nofun) hmisfit
      cases h.symm.trans he
    exact ⟨hne, hended, hfitting, (aggregateUpdates_ok_of_sum hfresh hdigest hended hne hfitting).mp h⟩
  · rintro ⟨hne, hended, hfitting, hfits⟩
    exact ⟨.gradientUpdate, (aggregateUpdates_ok_of_sum hfresh hdigest hended hne hfitting).mpr hfits⟩

end Calls

/-! ## The scheduler's answer -/

section Answers
variable {PeerId R T : Type} [LinearOrder PeerId] [RuntimeStatistic T] [CommRing R] (cfg : Settings)
  (scheduler : SchedulerState PeerId T) (clock : Nat → Instant) (now : SystemTime) (ps : PeerId)

theorem answer_other (message : String) :
    answer cfg scheduler clock now ps (.aggregate (.error (.other message))) = .aggregate .terminate := by
  unfold answer
  rw [schedule_eq]
  rfl

theorem answer_connection (message : String) :
    ∃ timeout, answer cfg scheduler clock now ps (.aggregate (.error (.connection message))) =
      .aggregate (.idle timeout) := by
  unfold answer
  rw [schedule_eq]
  exact ⟨_, rfl⟩

/-- What can be said of a failed call: it can be repeated exactly if it has taken no update; and if the executor is not
cancelled, it can be repeated unless the scheduler, told of the failure, terminates it. -/
structure FailedAggregation (call : Call PeerId R) (s : Server PeerId R) (e : Failure) (after : Server PeerId R) :
    Prop where
  retryable_iff : Retryable s after ↔ call.taken s = []
  repeated : (∀ turn ∈ call.turns, turn.wait ≠ .cancelled) → ∀ error, e.report? = some error →
    answer cfg scheduler clock now ps (.aggregate (.error error)) ≠ .aggregate .terminate → Retryable s after

/-- **A failed aggregation** that is asked for again has left everything as it was. -/
theorem failed_aggregation {digest : String → BitVec 256} {call : Call PeerId R} {s : Server PeerId R} {e : Failure}
    (h : (aggregateUpdates digest call s).2 = some (.error e)) :
    FailedAggregation cfg scheduler clock now ps call s e (aggregateUpdates digest call s).1 := by
  refine ⟨retryable_iff, fun hcancelled error hreport hgoesOn => retryable_iff.mpr ?_⟩
  cases e with
  | invalidExecutorConfig message =>
    refine (aggregateUpdates_config h).resolve_left ?_
    rintro ⟨turn, hturn, hwait⟩
    exact hcancelled turn hturn hwait
  | candle error | io error =>
    cases hreport
    exact absurd (answer_other cfg scheduler clock now ps _) hgoesOn
  | panicked => cases hreport

end Answers

/-- The third peer of the allowed ones has not sent anything within the time. -/
def lateCall : Call Nat ℚ := { testCall with allowed := [3], turns := [⟨[], id, fun _ => 0, .maxDelay⟩] }

def testScheduler : SchedulerState Nat RunningMean := initial (smallJob 1 1 1) (joined [1, 2, 3]) (joined [9])

theorem failed_aggregation_late :
    FailedAggregation (smallJob 1 1 1).settings testScheduler (fun _ => 0) 0 9 lateCall testServer
        (.invalidExecutorConfig "no updates available to aggregate")
        (aggregateUpdates testDigest lateCall testServer).1 ∧
      Retryable testServer (aggregateUpdates testDigest lateCall testServer).1 := by
  have herror : (aggregateUpdates testDigest lateCall testServer).2 =
      some (.error (.invalidExecutorConfig "no updates available to aggregate")) := rfl
  have hfailed := failed_aggregation (smallJob 1 1 1).settings testScheduler (fun _ => 0) 0 9 herror
  refine ⟨hfailed, hfailed.repeated (List.forall_mem_singleton.mpr nofun) _ rfl ?_⟩
  obtain ⟨timeout, hidle⟩ := answer_connection (smallJob 1 1 1).settings testScheduler (fun _ => 0) 0 9
    "no updates available to aggregate"
  rw [hidle]
  exact nofun

/-- One of two peers has sent a file that is not one of tensors. -/
def refusedServer : Server Nat ℚ where
  store := AList.insert 1 [testUpdate 10 1] (AList.singleton 2 [⟨20, some .refused⟩])
  dir _ := none

def refusedCall : Call Nat ℚ :=
  { testCall with
    allowed := [1, 2]
    turns := [⟨[], id, fun _ => 0, .notified⟩, ⟨[], id, fun _ => 0, .notified⟩] }

/-- The file of the other peer was taken before, and is not offered any more either. -/
theorem failed_aggregation_fails :
    (¬ ∀ (digest : String → BitVec 256) (call : Call Nat ℚ) (s : Server Nat ℚ) (e : Failure),
      (aggregateUpdates digest call s).2 = some (.error e) → Retryable s (aggregateUpdates digest call s).1) ∧
      (aggregateUpdates testDigest refusedCall refusedServer).2 = some (.error (.candle "invalid safetensors")) ∧
      refusedCall.taken refusedServer = [(1, testUpdate 10 1), (2, ⟨20, some .refused⟩)] := by
  have herror : (aggregateUpdates testDigest refusedCall refusedServer).2 =
      some (.error (.candle "invalid safetensors")) := rfl
  have htaken : refusedCall.taken refusedServer = [(1, testUpdate 10 1), (2, ⟨20, some .refused⟩)] := rfl
  refine ⟨fun hclaim => ?_, herror, htaken⟩
  cases htaken.symm.trans (retryable_iff.mp (hclaim _ _ _ _ herror))

end Hypha.ParameterServer
