import Hypha.Scheduler.ClosedForm
import Hypha.Scheduler.Script
import Hypha.Scheduler.Stretch

/-!
# The number of batches that are handed out

`schedule` hands a worker its entry of a projection. The entry is zero if the projection stops before the worker's first
completion.

* `Workload.done_pos_iff` : when the entry is positive, whatever the times;
* `share?` : what a stretch that answers `ExecuteBatch` takes a share of;
* `batches_useful_iff` : over every interleaving, when all numbers of batches are useful.
-/

namespace Hypha

open Hypha.Lib

namespace Workload

variable (w : Workload)

/-- Nothing stops the projection before worker `i` completes a batch. -/
def InTime (i : Nat) : Prop := 0 < toI32 w.left ∧ ∀ t, w.IsEvent t → t < w.first i → ¬ w.Stops t

variable {w} {bound i : Nat} {s : Projection}

theorem Synced.done_eq_zero (h : w.Synced bound s) (hi : i < w.workers) (hbound : bound ≤ w.first i) : s.done i = 0 := by
  rw [h.done i hi]
  exact Recurring.before_eq_zero hbound

theorem Synced.next_eq_first (h : w.Synced bound s) (hi : i < w.workers) (hbound : bound ≤ w.first i) :
    s.next i = w.first i := by
  rw [h.next i hi, h.done_eq_zero hi hbound, Nat.zero_mul, Nat.add_zero, Nat.min_eq_left (w.first_le i)]

/-- Where the loop has come to, some samples were missing at first, if it goes on. -/
theorem Reached.left (hr : w.Reached bound s) (hgoes : goes s) : 0 < toI32 w.left := by
  cases hr with
  | start =>
    rw [← w.toGo_start]
    exact hgoes.1
  | event left _ _ => exact left

/-- Nothing stops the projection before the time that a pass goes on to. -/
theorem Reached.not_stops (hr : w.Reached bound s) (h : w.Synced bound s) (hgoes : goes s) {t : Nat} (ht : w.IsEvent t)
    (hlt : t < (w.body s).time) : ¬ w.Stops t := by
  have hlate : t < bound := Nat.not_le.mp fun hle => Nat.not_le.mpr hlt (h.least ht hle)
  cases hr with
  | start => exact absurd hlate (Nat.not_lt_zero t)
  | event _ _ past =>
    rcases (Nat.le_of_lt_succ hlate).lt_or_eq with hlt | rfl
    · exact past t ht hlt
    · exact h.not_stops hgoes

/-- A pass up to the first completion of a worker, which is then counted, or to an earlier time. -/
theorem first_pass (hi : i < w.workers) (h : w.Synced bound s) (hr : w.Reached bound s)
    (hbound : bound ≤ w.first i) (hgoes : goes s) :
    (0 < (w.body s).done i ∧ w.InTime i) ∨
      ((w.body s).time + 1 ≤ w.first i ∧ w.Synced ((w.body s).time + 1) (w.body s) ∧
        w.Reached ((w.body s).time + 1) (w.body s)) := by
  have hnext := h.next_eq_first hi hbound
  rcases (hnext ▸ h.pass.2.1 i hi : (w.body s).time ≤ w.first i).lt_or_eq with hlt | heq
  · -- an earlier time is below the largest `u64`, and so it is exact
    have hexact : w.Exact s := by
      intro j hj hjnext
      have hmax := w.first_le i
      rw [h.next j hj] at hjnext
      omega
    exact Or.inr ⟨hlt, h.advance hgoes hexact, hr.body h hgoes hexact⟩
  · refine Or.inl ⟨?_, hr.left hgoes, fun t ht hlt => hr.not_stops h hgoes ht (heq ▸ hlt)⟩
    rw [h.pass.2.2.done, if_pos (Projection.mem_due.mpr ⟨hi, hnext.trans heq.symm⟩)]
    exact Nat.lt_min.mpr ⟨Nat.succ_pos _, by decide⟩

/-- **The entry of a worker is positive** if and only if nothing stops the projection before its first completion. -/
theorem done_pos_iff (hi : i < w.workers) : 0 < w.final.done i ↔ w.InTime i := by
  obtain ⟨⟨-, hcase⟩, hdone⟩ := w.ends_final.rule
    (I := fun s => w.Bounded s ∧ ((0 < s.done i ∧ w.InTime i) ∨
      ∃ bound ≤ w.first i, w.Synced bound s ∧ w.Reached bound s))
    (fun s hs hgoes => by
      obtain ⟨hb, ⟨hpos, hin⟩ | ⟨bound, hbound, h, hr⟩⟩ := hs
      · exact ⟨(hb.body hgoes).1, Or.inl ⟨hpos.trans_le ((hb.body hgoes).2.2 i hi), hin⟩⟩
      · exact ⟨(hb.body hgoes).1, (first_pass hi h hr hbound hgoes).imp_right fun hlater => ⟨_, hlater⟩⟩)
    ⟨w.bounded_start, Or.inr ⟨0, Nat.zero_le _, w.synced_start, Reached.start⟩⟩
  generalize w.final = s at hcase hdone ⊢
  rcases hcase with ⟨hpos, hin⟩ | ⟨bound, hbound, h, hr⟩
  · exact iff_of_true hpos hin
  · -- the loop has ended before the first completion, and something stopped it
    refine iff_of_false (by rw [h.done_eq_zero hi hbound]; exact Nat.lt_irrefl 0) fun hin => ?_
    rcases hr.ended h hdone with ⟨hnone, -⟩ | ⟨-, event, hlt, hstops, -⟩
    · exact absurd hin.1 (Int.not_lt.mpr hnone)
    · exact hin.2 s.time event (hlt.trans_le hbound) hstops

end Workload

namespace Scheduler

open Hypha.Action

set_option linter.unusedSectionVars false

variable {PeerId T ι : Type} [LinearOrder PeerId] [RuntimeStatistic T]

/-! ## The entry of a worker -/

/-- The pool is projected: it is not empty, and every worker has a statistic. -/
structure Projects (snapshot : List (WorkerDescriptorWithInfo PeerId)) : Prop where
  nonempty : snapshot ≠ []
  statistics : ∀ w ∈ snapshot, 0 < w.statistic.getD 0 ∧ w.statistic.getD 0 < u64Max

/-- The arguments that a snapshot is projected with. -/
def Settings.workload (cfg : Settings) (hcap : cfg.multiBatchSize < 2 ^ 32)
    {snapshot : List (WorkerDescriptorWithInfo PeerId)} (h : Projects snapshot) (left : Nat) : Workload where
  progress := snapshot.map (·.lastUpdated.getD 0)
  batchSizes := snapshot.map fun w => cfg.batchSizer w.resources
  statistics := snapshot.map (·.statistic.getD 0)
  left := left
  cap := cfg.multiBatchSize
  progress_length := by rw [List.length_map, List.length_map]
  statistics_length := by rw [List.length_map, List.length_map]
  nonempty := by
    rw [List.length_map]
    exact List.length_pos_iff.mpr h.nonempty
  statistics_pos := fun d hd => by
    obtain ⟨w, hw, rfl⟩ := List.mem_map.mp hd
    exact (h.statistics w hw).1
  cap_lt := hcap

/-- What an `ExecuteBatch` is a share of: the snapshot, the samples counted and due, and the peer that is answered. -/
structure Share (PeerId : Type) where
  snapshot : List (WorkerDescriptorWithInfo PeerId)
  count : Nat
  updateTarget : Nat
  peerId : PeerId

namespace Share

/-- The entry of a projection that is handed out; the first one if the peer is not a member. -/
def position (share : Share PeerId) : Nat := (share.snapshot.findIdx? fun w => w.peerId = share.peerId).getD 0

/-- The batches that are handed out. -/
def batches (cfg : Settings) (share : Share PeerId) : Nat :=
  (cfg.projectBatches share.snapshot share.count share.updateTarget share.peerId).2.2

/-- If the pool is projected, nothing stops the projection before the peer completes a batch. -/
def InTime (cfg : Settings) (hcap : cfg.multiBatchSize < 2 ^ 32) (share : Share PeerId) : Prop :=
  ∀ h : Projects share.snapshot,
    (cfg.workload hcap h (share.updateTarget - share.count)).InTime share.position

theorem position_lt {share : Share PeerId} (h : share.snapshot ≠ []) : share.position < share.snapshot.length := by
  unfold position
  cases hf : share.snapshot.findIdx? fun w => w.peerId = share.peerId with
  | none => exact List.length_pos_iff.mpr h
  | some n => exact (List.findIdx?_eq_some_iff_findIdx_eq.mp hf).1

theorem projects_iff (snapshot : List (WorkerDescriptorWithInfo PeerId)) :
    (!snapshot.isEmpty && (snapshot.map (·.statistic.getD 0)).all fun s => 0 < s && s < u64Max) = true ↔
      Projects snapshot := by
  rw [Bool.and_eq_true, List.all_map, List.all_eq_true]
  constructor
  · rintro ⟨hne, hall⟩
    exact ⟨by simpa using hne, fun w hw => by simpa using hall w hw⟩
  · intro h
    exact ⟨by simpa using h.nonempty, fun w hw => by simpa using h.statistics w hw⟩

variable {cfg : Settings} {share : Share PeerId}

theorem batches_of_project {time : Nat} {toGo : Int} {updates : List Nat} {capped : Bool}
    (hdue : share.count < share.updateTarget) (h : Projects share.snapshot)
    (hproject : cfg.simulation.project (share.snapshot.map (·.lastUpdated.getD 0))
      (share.snapshot.map fun w => cfg.batchSizer w.resources) (share.snapshot.map (·.statistic.getD 0))
      (share.updateTarget - share.count) cfg.multiBatchSize = (time, toGo, updates, capped)) :
    share.batches cfg = updates.getD share.position 0 := by
  simp only [batches, Settings.projectBatches, if_neg (Nat.not_le.mpr hdue), if_pos ((projects_iff _).mpr h), hproject]
  rfl

theorem batches_of_projects (hsim : cfg.simulation = basicSimulation) (hcap : cfg.multiBatchSize < 2 ^ 32)
    (hdue : share.count < share.updateTarget) (h : Projects share.snapshot) :
    share.batches cfg = (cfg.workload hcap h (share.updateTarget - share.count)).final.done share.position := by
  have hproject := (cfg.workload hcap h (share.updateTarget - share.count)).project_eq
  generalize (cfg.workload hcap h (share.updateTarget - share.count)).final = s at hproject ⊢
  rw [← hsim] at hproject
  exact batches_of_project hdue h hproject

theorem batches_of_not_projects (hdue : share.count < share.updateTarget) (h : ¬ Projects share.snapshot) :
    share.batches cfg = 1 := by
  unfold batches Settings.projectBatches
  dsimp only
  rw [if_neg (Nat.not_le.mpr hdue), if_neg (fun hp => h ((projects_iff _).mp hp))]

/-- A share is useful if and only if the peer completes a batch in time. -/
theorem useful_iff (hsim : cfg.simulation = basicSimulation) (hcap : cfg.multiBatchSize < 2 ^ 32)
    (hdue : share.count < share.updateTarget) :
    (1 ≤ share.batches cfg ∧ share.batches cfg ≤ max 1 cfg.multiBatchSize) ↔ share.InTime cfg hcap := by
  by_cases h : Projects share.snapshot
  · have hposition : share.position < (cfg.workload hcap h (share.updateTarget - share.count)).workers := by
      unfold Workload.workers Settings.workload
      rw [List.length_map]
      exact position_lt h.nonempty
    have hle : _ ≤ max 1 cfg.multiBatchSize :=
      (cfg.workload hcap h (share.updateTarget - share.count)).bounded_final.le _ hposition
    have hpos := Workload.done_pos_iff hposition
    rw [← batches_of_projects hsim hcap hdue h] at hle hpos
    rw [and_iff_left hle]
    exact hpos.trans ⟨fun hin _ => hin, fun hin => hin h⟩
  · rw [batches_of_not_projects hdue h]
    exact iff_of_true ⟨Nat.le_refl 1, Nat.le_max_left _ _⟩ fun hp => absurd hp h

end Share

/-! ## Who is handed a share -/

/-- What a stretch answers a share of, with `ExecuteBatch`. -/
def share? (s : SchedulerState PeerId T) : Handler PeerId → Option (Share PeerId)
  | .suspended ctx (.idleTraining snapshot) =>
    let hasAppliedUpdate :=
      ((snapshot.find? (fun w => w.peerId = ctx.peerId)).map (·.state.appliedUpdate)).getD false
    if s.roundState.aggregatedUpdates && !hasAppliedUpdate then none
    else if (hasSentUpdate s.parameterPool ctx.primaryPs ctx.peerId).2 then none
    else if s.trainingState.updateTarget ≤ s.trainingState.counter then none
    else some ⟨snapshot, s.trainingState.counter, s.trainingState.updateTarget, ctx.peerId⟩
  | .suspended ctx (.batchRound snapshot count updateTarget _) =>
    if s.roundState.trainingComplete || (hasSentUpdate s.parameterPool ctx.primaryPs ctx.peerId).2 then none
    else if updateTarget ≤ count then none
    else some ⟨snapshot, count, updateTarget, ctx.peerId⟩
  | _ => none

section Stretches
variable {cfg : Settings} {ctx : Context PeerId} {s : SchedulerState PeerId T}

theorem work_eq_executeBatch_iff {shouldUpdate : Bool} {contribution projectedTarget batches n : Nat} :
    ctx.work shouldUpdate contribution projectedTarget batches = .executeBatch n ↔
      shouldUpdate = false ∧ batches = n := by
  unfold Context.work
  cases shouldUpdate with
  | false => simp
  | true => cases ctx.parameterServers <;> simp

/-- The action of the arms that project, from the samples counted and due. -/
theorem work_share (share : Share PeerId) {contribution n : Nat} :
    ctx.work (cfg.projectBatches share.snapshot share.count share.updateTarget share.peerId).1 contribution
        (cfg.projectBatches share.snapshot share.count share.updateTarget share.peerId).2.1
        (cfg.projectBatches share.snapshot share.count share.updateTarget share.peerId).2.2 = .executeBatch n ↔
      share.count < share.updateTarget ∧ share.batches cfg = n := by
  rw [work_eq_executeBatch_iff, projectBatches_fst, decide_eq_false_iff_not, Nat.not_le]
  rfl

theorem idleTraining_executeBatch_iff {snapshot : List (WorkerDescriptorWithInfo PeerId)} {n : Nat} :
    (idleTraining cfg ctx s snapshot).2.answer? = some (.train (.executeBatch n)) ↔
      ∃ share, share? s (.suspended ctx (.idleTraining snapshot)) = some share ∧ share.batches cfg = n := by
  unfold share?
  simp only [idleTraining, Await.answer?_train, Option.some.injEq, ExecutorAction.train.injEq]
  split_ifs with happly hsent hmet
  · simp [Context.applyUpdate]
  · simp
  · refine (work_share ⟨snapshot, _, _, _⟩).trans ?_
    simp [hmet]
  · refine (work_share ⟨snapshot, _, _, _⟩).trans ?_
    simp [Nat.not_le.mp hmet]

theorem batchRound_executeBatch_iff {snapshot : List (WorkerDescriptorWithInfo PeerId)}
    {count updateTarget contribution n : Nat} :
    (batchRound cfg ctx s snapshot count updateTarget contribution).2.answer? = some (.train (.executeBatch n)) ↔
      ∃ share, share? s (.suspended ctx (.batchRound snapshot count updateTarget contribution)) = some share ∧
        share.batches cfg = n := by
  unfold share?
  simp only [batchRound, Await.answer?_train, Option.some.injEq, ExecutorAction.train.injEq]
  split_ifs with hidle hmet
  · simp
  · refine (work_share ⟨snapshot, count, updateTarget, _⟩).trans ?_
    simp [hmet]
  · refine (work_share ⟨snapshot, count, updateTarget, _⟩).trans ?_
    simp [Nat.not_le.mp hmet]

/-- An `ExecuteBatch` hands out a share, or a single batch after `AppliedUpdate`. -/
theorem resume_executeBatch (t : Instant) (k : Await PeerId) (running : k.isDone = false) {n : Nat}
    (h : (resume cfg ctx s t k).2.answer? = some (.train (.executeBatch n))) :
    (k = .appliedRound ∧ n = 1) ∨ ∃ share, share? s (.suspended ctx k) = some share ∧ share.batches cfg = n := by
  cases k with
  | joinedRound =>
    simp only [resume, joinedRound] at h
    split_ifs at h <;> cases h
  | idleRound =>
    simp only [resume, idleRound, idleComplete] at h
    split_ifs at h <;> first | cases h | (split at h <;> cases h)
  | idleTraining snapshot => exact Or.inr (idleTraining_executeBatch_iff.mp h)
  | batchTraining _ _ _ => cases h
  | batchRound snapshot count updateTarget contribution => exact Or.inr (batchRound_executeBatch_iff.mp h)
  | sentRound _ _ => cases h
  | sentSend message =>
    simp only [resume, sentSend, sendMetrics] at h
    split_ifs at h <;> cases h
  | sentRound' => cases h
  | appliedRound =>
    refine Or.inl ⟨rfl, ?_⟩
    simp only [resume, appliedRound] at h
    split_ifs at h
    · cases h
    · split at h <;> cases h
      rfl
  | pushedRound => cases h
  | aggregateIdleRound =>
    simp only [resume, aggregateIdleRound] at h
    split_ifs at h <;> cases h
  | aggregateIdleRound' workers =>
    simp only [resume, aggregateIdleRound'] at h
    split_ifs at h <;> cases h
  | aggregatedRound workers => cases h
  | broadcastedTraining _ => cases h
  | broadcastedRound _ _ => cases h
  | broadcastedSend message =>
    simp only [resume, broadcastedSend, sendMetrics] at h
    split_ifs at h <;> cases h
  | broadcastedRound' => cases h
  | broadcastedTraining' => cases h
  | broadcastedRound'' => cases h
  | aggregateErrorRound next => cases h
  | done result => cases running

/-- A stretch that has a share to hand out does so. -/
theorem resume_share (t : Instant) (k : Await PeerId) {share : Share PeerId} (h : share? s (.suspended ctx k) = some share) :
    (resume cfg ctx s t k).2.answer? = some (.train (.executeBatch (share.batches cfg))) := by
  cases k with
  | idleTraining snapshot => exact idleTraining_executeBatch_iff.mpr ⟨share, h, rfl⟩
  | batchRound snapshot count updateTarget contribution => exact batchRound_executeBatch_iff.mpr ⟨share, h, rfl⟩
  | _ => cases h

end Stretches

/-! ## Over interleavings -/

section Interleaved
variable [DecidableEq ι] (cfg : Settings)

/-- The batches that a move hands out are at least one and at most `multi_batch_size`, or one if that is zero. -/
def Useful (m : Move ι (SchedulerState PeerId T) (Handler PeerId)) : Prop :=
  ∀ p n, issued m = some (p, .train (.executeBatch n)) → 1 ≤ n ∧ n ≤ max 1 cfg.multiBatchSize

/-- The peer that a move hands a share to completes a batch before anything stops the projection. -/
def SharesInTime (hcap : cfg.multiBatchSize < 2 ^ 32) (m : Move ι (SchedulerState PeerId T) (Handler PeerId)) : Prop :=
  ∀ i share, m.actor = some i → share? m.before.shared (m.before.tasks i) = some share → share.InTime cfg hcap

variable {cfg}

theorem share_due {s : SchedulerState PeerId T} {k : Handler PeerId} {share : Share PeerId}
    (h : share? s k = some share) : share.count < share.updateTarget := by
  unfold share? at h
  split at h
  · dsimp only at h
    split_ifs at h with _ _ hmet
    cases h
    exact Nat.not_le.mp hmet
  · split_ifs at h with _ hmet
    cases h
    exact Nat.not_le.mp hmet
  · cases h

/-- One move. -/
theorem useful_run_iff (hsim : cfg.simulation = basicSimulation) (hcap : cfg.multiBatchSize < 2 ^ 32)
    {c : Config ι (SchedulerState PeerId T) (Handler PeerId)} {i : ι} {s' : SchedulerState PeerId T}
    {k' : Handler PeerId} (hres : Resumes cfg c.shared (c.tasks i) (s', k')) :
    Useful cfg ⟨c, some i, ⟨s', Function.update c.tasks i k'⟩⟩ ↔
      SharesInTime cfg hcap ⟨c, some i, ⟨s', Function.update c.tasks i k'⟩⟩ := by
  unfold Useful SharesInTime
  rw [issued_run]
  generalize hk : c.tasks i = k at hres
  cases hres with
  | start t now request =>
    obtain ⟨peer, jobId, status⟩ := request
    refine iff_of_true (fun p n hi => ?_) fun j share hj hshare => ?_
    · cases enter_answer _ _ (Handler.answer?_suspended.mp hi).2
    · cases hj
      rw [hk] at hshare
      cases hshare
  | resume t ctx k running =>
    constructor
    · intro h j share hj hshare
      cases hj
      rw [hk] at hshare
      have hissued : (resume cfg ctx c.shared t k).2.answer? = some (.train (.executeBatch (share.batches cfg))) :=
        resume_share t k hshare
      exact (Share.useful_iff hsim hcap (share_due hshare)).mp
        (h _ _ (Handler.answer?_suspended.mpr ⟨rfl, hissued⟩))
    · intro h p n hi
      rcases resume_executeBatch t k running (Handler.answer?_suspended.mp hi).2 with ⟨-, rfl⟩ | ⟨share, hshare, rfl⟩
      · exact ⟨Nat.le_refl 1, Nat.le_max_left _ _⟩
      · exact (Share.useful_iff hsim hcap (share_due hshare)).mpr (h i share rfl (by rw [hk]; exact hshare))

/-- **When the work that is handed out is useful**, over every interleaving of handlers. -/
theorem batches_useful_iff (job : Job) {workers servers : List (WorkerDescriptor PeerId)}
    {requests : ι → PeerId × ActionRequest} (hsim : job.settings.simulation = basicSimulation)
    (hcap : job.settings.multiBatchSize < 2 ^ 32) {h : List (Move ι (SchedulerState PeerId T) (Handler PeerId))}
    {c : Config ι (SchedulerState PeerId T) (Handler PeerId)}
    (past : (handlers job.settings).Interleaves (arriving job workers servers requests) h c) :
    Along (fun m _ => Useful job.settings m) h ↔ Along (fun m _ => SharesInTime job.settings hcap m) h := by
  refine Along.congr (past.rule (fun _ _ => True) (fun _ _ _ _ => True) (fun _ _ => True)
    (fun m _ => Useful job.settings m ↔ SharesInTime job.settings hcap m) trivial (fun _ => trivial) ?_ ?_
    (along_true h)).2.2
  · intro h c i s' k' _ _ _ _ hres
    exact ⟨trivial, trivial, fun _ _ => trivial, useful_run_iff hsim hcap hres⟩
  · intro h c s' _ _ _ _
    exact ⟨trivial, fun _ => trivial, iff_of_true (fun p n hi => by cases hi) fun j share hj => by cases hj⟩

end Interleaved

/-- Two batches of worker 1, which needs 1 ms for one, and two of worker 2, which needs 100 ms. -/
def fastAndSlow : Fin 4 → Nat × ActionRequest
  | 0 | 1 => (1, ⟨0, .train (.batchCompleted 1 1)⟩)
  | 2 | 3 => (2, ⟨0, .train (.batchCompleted 1 1)⟩)

/-- Some of these reports, handled one after the other at times in milliseconds. -/
def fastAndSlowScript (reports : List (Fin 4 × Nat)) : Played Nat RunningMean (Fin 4) :=
  play (smallJob 1 1000 1).settings (arriving (smallJob 1 1000 1) (joined [1, 2]) (joined [9]) fastAndSlow)
    (reports.flatMap fun (i, ms) => List.replicate 3 (.runs i (fromMillis ms) 0))

theorem fastAndSlowScript_interleaves (reports : List (Fin 4 × Nat))
    (h : (fastAndSlowScript reports).admitted = true) :
    (handlers (smallJob 1 1000 1).settings).Interleaves
      (arriving (smallJob 1 1000 1) (joined [1, 2]) (joined [9]) fastAndSlow)
      (fastAndSlowScript reports).moves (fastAndSlowScript reports).config :=
  play_interleaves _ _ _ h

theorem batches_useful_iff_one_report :
    Along (fun m _ => Useful (smallJob 1 1000 1).settings m) (fastAndSlowScript [(0, 1)]).moves ↔
      Along (fun m _ => SharesInTime (smallJob 1 1000 1).settings (by decide) m) (fastAndSlowScript [(0, 1)]).moves :=
  batches_useful_iff (smallJob 1 1000 1) rfl (by decide) (fastAndSlowScript_interleaves [(0, 1)] (by decide +kernel))

/-- Worker 1 completes a batch, and the projection stops at the cap, before worker 2 does: worker 2 is told to execute no
batch. -/
theorem batches_useful_fails :
    (handlers (smallJob 1 1000 1).settings).Interleaves
        (arriving (smallJob 1 1000 1) (joined [1, 2]) (joined [9]) fastAndSlow)
        (fastAndSlowScript [(0, 1), (1, 2), (2, 2), (3, 102)]).moves
        (fastAndSlowScript [(0, 1), (1, 2), (2, 2), (3, 102)]).config ∧
      ¬ Along (fun m _ => Useful (smallJob 1 1000 1).settings m)
        (fastAndSlowScript [(0, 1), (1, 2), (2, 2), (3, 102)]).moves := by
  refine ⟨fastAndSlowScript_interleaves _ (by decide +kernel), fun h => ?_⟩
  have hzero : (fastAndSlowScript [(0, 1), (1, 2), (2, 2), (3, 102)]).moves.head?.bind issued =
      some (2, .train (.executeBatch 0)) := by decide +kernel
  generalize (fastAndSlowScript [(0, 1), (1, 2), (2, 2), (3, 102)]).moves = moves at h hzero
  cases moves with
  | nil => cases hzero
  | cons m g => exact absurd (h.1 2 0 hzero).1 (Nat.not_succ_le_zero 0)

end Scheduler

end Hypha
