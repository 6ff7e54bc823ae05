import Hypha.Scheduler.Stretch

/-!
# The completion chain

After the last round every worker applies the final aggregate, one of them is assigned to push the model, and once it
has pushed, the job is cancelled. The flags of this chain lie behind two locks and in the entries of the worker pool,
and seven handlers write them; members join and leave in between.

* `ChainStep` : what a stretch of a handler may do to the flags, `enter_lowers` and `resume_chain` : it does no more;
* `Chain` : the invariant, `chain_step` : kept by every stretch;
* `completion_chain` : it holds wherever an interleaving of handlers leads, and the progress of the job is never lost.
-/

namespace Hypha.Scheduler

open Hypha.Lib Hypha.Action

set_option linter.unusedSectionVars false

variable {PeerId T : Type} [LinearOrder PeerId] [RuntimeStatistic T]

/-- Whether a peer is assigned to push the model. -/
def pushesIn (pool : PoolWithTrainInfo PeerId T) (p : PeerId) : Bool := (pool.stateOf p).isPusher

/-- Whether a peer has applied the final aggregate. -/
def finishedIn (pool : PoolWithTrainInfo PeerId T) (p : PeerId) : Bool := (pool.stateOf p).appliedFinalUpdate

/-! ## Pools that take flags away -/

/-- Flags may go, and the final update not without the assignment. -/
structure Lowers (pool pool' : PoolWithTrainInfo PeerId T) : Prop where
  pusher : ∀ p, pushesIn pool' p = true → pushesIn pool p = true ∧ finishedIn pool' p = finishedIn pool p
  final : ∀ p, finishedIn pool' p = true → finishedIn pool p = true

/-- The same of one entry. -/
def LowersFlags (st st' : WorkerState PeerId) : Prop :=
  (st'.isPusher = true → st.isPusher = true ∧ st'.appliedFinalUpdate = st.appliedFinalUpdate) ∧
    (st'.appliedFinalUpdate = true → st.appliedFinalUpdate = true)

/-- The writes that keep both flags. -/
theorem respects_lowersFlags {f : WorkerState PeerId → WorkerState PeerId}
    (hpusher : ∀ st, (f st).isPusher = st.isPusher)
    (hfinal : ∀ st, (f st).appliedFinalUpdate = st.appliedFinalUpdate) : Respects LowersFlags f := by
  intro st st' hst
  unfold LowersFlags at *
  rw [hpusher, hfinal]
  exact hst

theorem harmless_lowersFlags : Harmless (@LowersFlags PeerId) where
  refl _ := ⟨fun h => ⟨h, rfl⟩, fun h => h⟩
  waits := respects_lowersFlags (fun _ => rfl) (fun _ => rfl)
  received := respects_lowersFlags (fun _ => rfl) (fun _ => rfl)
  applied _ := respects_lowersFlags (fun _ => rfl) (fun _ => rfl)
  revoked _ _ hst := ⟨fun h => Bool.noConfusion h, hst.2⟩

theorem Evolves.lowers {pool pool' : PoolWithTrainInfo PeerId T} (h : Evolves LowersFlags pool pool') :
    Lowers pool pool' := by
  have hnone : ∀ {st : WorkerState PeerId}, LowersFlags {} st →
      st.isPusher = false ∧ st.appliedFinalUpdate = false := by
    intro st hst
    exact ⟨Bool.eq_false_iff.mpr fun h => Bool.noConfusion (hst.1 h).1,
      Bool.eq_false_iff.mpr fun h => Bool.noConfusion (hst.2 h)⟩
  refine ⟨fun p hp => ?_, fun p hp => ?_⟩
  · rcases h.state p with hst | ⟨-, hst⟩
    · exact hst.1 hp
    · cases hp.symm.trans (hnone hst).1
  · rcases h.state p with hst | ⟨-, hst⟩
    · exact hst.2 hp
    · cases hp.symm.trans (hnone hst).2

/-! ## What a stretch may do -/

/-- The round, the completion and the push are as before. -/
structure SameProgress (r r' : RoundState) : Prop where
  round : r'.round = r.round
  trainingComplete : r'.trainingComplete = r.trainingComplete
  pushDone : r'.pushDone = r.pushDone
  updateRounds : r'.updateRounds = r.updateRounds

theorem SameProgress.refl (r : RoundState) : SameProgress r r := ⟨rfl, rfl, rfl, rfl⟩

/-- **What a stretch may do** to the flags of the chain. -/
inductive ChainStep (s s' : SchedulerState PeerId T) : Prop where
  /-- It takes flags away at most. -/
  | lowers (pool : Lowers s.workerPool s'.workerPool) (progress : SameProgress s.roundState s'.roundState)
      (cancelled : s'.cancelled = s.cancelled)
  /-- A worker has applied the final aggregate. -/
  | finishes (p : PeerId) (complete : s.roundState.trainingComplete = true)
      (pusher : ∀ q, pushesIn s'.workerPool q = pushesIn s.workerPool q)
      (others : ∀ q, q ≠ p → finishedIn s'.workerPool q = finishedIn s.workerPool q)
      (final : finishedIn s'.workerPool p = true)
      (progress : SameProgress s.roundState s'.roundState) (cancelled : s'.cancelled = s.cancelled)
  /-- A worker that has applied it is assigned to push, as nobody else is, and if there is nowhere to push to that is
  done. -/
  | assigns (p : PeerId) (complete : s.roundState.trainingComplete = true)
      (free : ∀ q, q ≠ p → pushesIn s'.workerPool q = false) (final : finishedIn s'.workerPool p = true)
      (round : s'.roundState.round = s.roundState.round)
      (complete' : s'.roundState.trainingComplete = true)
      (pushDone : s.roundState.pushDone = true → s'.roundState.pushDone = true)
      (updateRounds : s'.roundState.updateRounds = s.roundState.updateRounds) (cancelled : s'.cancelled = s.cancelled)
  /-- The round advances. -/
  | advances (pool : Lowers s.workerPool s'.workerPool)
      (round : s'.roundState.round = saturatingAdd s.roundState.round 1)
      (complete : s'.roundState.trainingComplete = (s.roundState.trainingComplete ||
        decide (s.roundState.updateRounds ≤ s'.roundState.round)))
      (pushDone : s'.roundState.pushDone = s.roundState.pushDone)
      (updateRounds : s'.roundState.updateRounds = s.roundState.updateRounds) (cancelled : s'.cancelled = s.cancelled)
  /-- The model was pushed. -/
  | pushed (complete : s.roundState.trainingComplete = true)
      (eq : s' = { s with roundState := { s.roundState with pushDone := true } })
  /-- The job is cancelled. -/
  | cancels (pushDone : s.roundState.pushDone = true) (eq : s' = { s with cancelled := true })

section Stretches
variable (cfg : Settings) (ctx : Context PeerId) (s : SchedulerState PeerId T)

/-- A stretch that only takes flags away. -/
theorem ChainStep.onlyLowers {s' : SchedulerState PeerId T} (hpool : Lowers s.workerPool s'.workerPool)
    (hround : s'.roundState = s.roundState) (hcancelled : s'.cancelled = s.cancelled) : ChainStep s s' := by
  refine .lowers hpool ?_ hcancelled
  rw [hround]
  exact SameProgress.refl _

/-- The first stretch of a handler raises no flag. -/
theorem enter_lowers (status : ExecutorStatus) :
    Lowers s.workerPool (enter ctx s status).1.workerPool ∧ (enter ctx s status).1.cancelled = s.cancelled := by
  refine ⟨(enter_evolves ctx s harmless_lowersFlags status).lowers, ?_⟩
  unfold enter
  split <;> first
    | rfl
    | (unfold waitedForModel; dsimp only; split <;> rfl)
    | (unfold aggregatedUpdates; dsimp only; split_ifs <;> rfl)

/-- Nor does a later one, but for those that finish and that assign. -/
theorem resume_lowers (t : Instant) (k : Await PeerId)
    (hidle : k = .idleRound → s.roundState.trainingComplete = false)
    (happlied : k = .appliedRound → s.roundState.trainingComplete = false) :
    Lowers s.workerPool (resume cfg ctx s t k).1.workerPool := by
  refine (resume_evolves cfg ctx s harmless_lowersFlags t k ?_ ?_ ?_ ?_ ?_).lowers
  · exact fun _ _ => respects_lowersFlags (fun _ => rfl) (fun _ => rfl)
  · exact fun _ => respects_lowersFlags (fun _ => rfl) (fun _ => rfl)
  · intro hk hcomplete
    cases hcomplete.symm.trans (hidle hk)
  · intro hk hcomplete
    cases hcomplete.symm.trans (happlied hk)
  · exact fun _ _ => respects_lowersFlags (fun _ => rfl) (fun _ => rfl)

/-- A member that is found to have applied the final aggregate is assigned, when no member is. -/
theorem assigns_of_snapshot (hcomplete : s.roundState.trainingComplete = true)
    (hfree : s.workerPool.retain.snapshot.any (·.state.isPusher) = false)
    (hfinal : ((s.workerPool.retain.snapshot.find? (fun w => w.peerId = ctx.peerId)).map
      (fun w => w.state.appliedFinalUpdate)).getD false = true) {s' : SchedulerState PeerId T}
    (hpool : s'.workerPool = s.workerPool.retain.updateState ctx.peerId fun st => { st with isPusher := true })
    (hround : s'.roundState = s.roundState ∨ s'.roundState = { s.roundState with pushDone := true })
    (hcancelled : s'.cancelled = s.cancelled) : ChainStep s s' := by
  have hmember : ctx.peerId ∈ s.workerPool.ids ∧ finishedIn s.workerPool ctx.peerId = true := by
    rw [PoolWithTrainInfo.find_snapshot s.workerPool ctx.peerId (fun st => st.appliedFinalUpdate)] at hfinal
    split_ifs at hfinal with hmem
    · exact ⟨hmem, hfinal⟩
    · exact absurd hfinal Bool.false_ne_true
  have hnone : ∀ q ∈ s.workerPool.ids, pushesIn s.workerPool q = false := by
    have hall := PoolWithTrainInfo.all_snapshot s.workerPool (fun st => !st.isPusher)
    rw [List.all_eq_not_any_not] at hall
    simp only [Bool.not_not, hfree, Bool.not_false] at hall
    intro q hq
    simpa [pushesIn] using List.all_eq_true.mp hall.symm q hq
  refine .assigns ctx.peerId hcomplete (fun q hq => ?_) ?_ ?_ ?_ ?_ ?_ hcancelled
  · rw [hpool]
    unfold pushesIn
    rw [PoolWithTrainInfo.stateOf_updateState, if_neg hq, PoolWithTrainInfo.stateOf_retain]
    split_ifs with hmem
    · exact hnone q hmem
    · rfl
  · rw [hpool]
    unfold finishedIn
    rw [PoolWithTrainInfo.stateOf_updateState, if_pos rfl, PoolWithTrainInfo.stateOf_retain, if_pos hmember.1]
    exact hmember.2
  all_goals rcases hround with hround | hround <;> rw [hround]
  · exact hcomplete
  · exact hcomplete
  · exact id
  · exact fun _ => rfl

/-- The completion phase of `Idle`. -/
theorem idleComplete_chain (hcomplete : s.roundState.trainingComplete = true) :
    ChainStep s (idleComplete cfg ctx s).1 := by
  have hretain : Lowers s.workerPool s.workerPool.retain :=
    ((Evolves.refl harmless_lowersFlags.refl _).retain harmless_lowersFlags.refl).lowers
  unfold idleComplete
  dsimp only [PoolWithTrainInfo.info]
  split_ifs with hdone happly hassign
  · exact .cancels hdone rfl
  · exact .onlyLowers s hretain rfl rfl
  · obtain ⟨hfree, hfinal⟩ := Bool.and_eq_true_iff.mp hassign
    have hfinal' : ((s.workerPool.retain.snapshot.find? (fun w => w.peerId = ctx.peerId)).map
        (fun w => w.state.appliedFinalUpdate)).getD false = true := by
      cases hfind : s.workerPool.retain.snapshot.find? (fun w => w.peerId = ctx.peerId) with
      | none => simp [hfind] at hfinal
      | some w => simpa [hfind] using hfinal
    split
    · exact assigns_of_snapshot ctx s hcomplete (by simpa using hfree) hfinal' rfl (Or.inl rfl) rfl
    · exact assigns_of_snapshot ctx s hcomplete (by simpa using hfree) hfinal' rfl (Or.inr rfl) rfl
  · exact .onlyLowers s hretain rfl rfl

/-- A handler that is to note that the model was pushed must come in the completion phase. -/
theorem resume_chain (t : Instant) (k : Await PeerId)
    (hpushed : k = .pushedRound → s.roundState.trainingComplete = true) : ChainStep s (resume cfg ctx s t k).1 := by
  by_cases hidle : k = .idleRound ∧ s.roundState.trainingComplete = true
  · obtain ⟨rfl, hcomplete⟩ := hidle
    simp only [resume, idleRound, hcomplete, Bool.not_true, if_neg Bool.false_ne_true]
    exact idleComplete_chain cfg ctx s hcomplete
  by_cases happlied : k = .appliedRound ∧ s.roundState.trainingComplete = true
  · obtain ⟨rfl, hcomplete⟩ := happlied
    simp only [resume, appliedRound, hcomplete, if_true]
    refine .finishes ctx.peerId hcomplete (fun q => ?_) (fun q hq => ?_) ?_ ⟨rfl, rfl, rfl, rfl⟩ rfl
    · unfold pushesIn
      rw [PoolWithTrainInfo.stateOf_updateState]
      split_ifs with hq
      · rw [hq]
      · rfl
    · unfold finishedIn
      rw [PoolWithTrainInfo.stateOf_updateState, if_neg hq]
    · unfold finishedIn
      rw [PoolWithTrainInfo.stateOf_updateState, if_pos rfl]
  have hpool : Lowers s.workerPool (resume cfg ctx s t k).1.workerPool :=
    resume_lowers cfg ctx s t k (fun hk => Bool.eq_false_iff.mpr fun hc => hidle ⟨hk, hc⟩)
      fun hk => Bool.eq_false_iff.mpr fun hc => happlied ⟨hk, hc⟩
  cases k with
  | pushedRound => exact .pushed (hpushed rfl) rfl
  | broadcastedRound' => exact .advances hpool rfl rfl rfl rfl rfl
  | joinedRound =>
    simp only [resume, joinedRound] at hpool ⊢
    split_ifs at hpool ⊢ <;> exact .onlyLowers s hpool rfl rfl
  | idleRound =>
    simp only [resume, idleRound] at hpool ⊢
    split_ifs at hpool ⊢ with hcomplete
    · exact .onlyLowers s hpool rfl rfl
    · exact absurd ⟨rfl, by simpa using hcomplete⟩ hidle
  | sentSend message =>
    simp only [resume, sentSend, sendMetrics] at hpool ⊢
    split_ifs at hpool ⊢ <;> exact .onlyLowers s hpool rfl rfl
  | sentRound' =>
    simp only [resume, sentRound'] at hpool ⊢
    split_ifs at hpool ⊢ <;> exact .lowers hpool ⟨rfl, rfl, rfl, rfl⟩ rfl
  | appliedRound =>
    simp only [resume, appliedRound] at hpool ⊢
    split_ifs at hpool ⊢ with hcomplete
    · exact absurd ⟨rfl, hcomplete⟩ happlied
    · split at hpool <;> exact .onlyLowers s hpool rfl rfl
  | aggregateIdleRound =>
    simp only [resume, aggregateIdleRound] at hpool ⊢
    split_ifs at hpool ⊢ <;> exact .onlyLowers s hpool rfl rfl
  | aggregateIdleRound' workers =>
    simp only [resume, aggregateIdleRound'] at hpool ⊢
    split_ifs at hpool ⊢ <;> exact .lowers hpool ⟨rfl, rfl, rfl, rfl⟩ rfl
  | broadcastedSend message =>
    simp only [resume, broadcastedSend, sendMetrics] at hpool ⊢
    split_ifs at hpool ⊢ <;> exact .onlyLowers s hpool rfl rfl
  | _ => exact .lowers hpool ⟨rfl, rfl, rfl, rfl⟩ rfl

/-- Only an assigned worker's `PushedToHub` leads there. -/
theorem enter_pushedRound {status : ExecutorStatus} (h : (enter ctx s status).2 = .pushedRound) :
    pushesIn s.workerPool ctx.peerId = true := by
  obtain rfl : status = .train .pushedToHub := by
    have hfirst := enter_first ctx s status
    rw [h] at hfirst
    cases hfirst
    rfl
  simp only [enter, pushedToHub] at h
  split at h
  · next hpusher =>
    have hfind := PoolWithTrainInfo.find_snapshot s.workerPool ctx.peerId (fun st => st.isPusher)
    rw [show s.workerPool.info.2 = s.workerPool.retain.snapshot from rfl, hfind] at hpusher
    split_ifs at hpusher
    · exact hpusher
    · exact absurd hpusher Bool.false_ne_true
  · cases h

end Stretches

/-! ## The invariant -/

/-- **The chain**: one peer at most is assigned to push, it has applied the final aggregate, that happens only once
training is complete, which takes all rounds; and a model is pushed after that, a job cancelled after that. It holds of
every peer that the pool has an entry for, members or not. -/
structure Chain (s : SchedulerState PeerId T) : Prop where
  onePusher : ∀ p q, (s.workerPool.stateOf p).isPusher = true → (s.workerPool.stateOf q).isPusher = true → p = q
  pusher : ∀ p, (s.workerPool.stateOf p).isPusher = true → (s.workerPool.stateOf p).appliedFinalUpdate = true
  final : ∀ p, (s.workerPool.stateOf p).appliedFinalUpdate = true → s.roundState.trainingComplete = true
  rounds : s.roundState.trainingComplete = true → s.roundState.updateRounds ≤ s.roundState.round
  pushed : s.roundState.pushDone = true → s.roundState.trainingComplete = true
  cancelled : s.cancelled = true → s.roundState.pushDone = true
  bounded : s.roundState.round ≤ u32Max

/-- What a step never takes back, and when it may cancel the job. -/
structure Progress (s s' : SchedulerState PeerId T) : Prop where
  round : s.roundState.round ≤ s'.roundState.round
  trainingComplete : s.roundState.trainingComplete = true → s'.roundState.trainingComplete = true
  pushDone : s.roundState.pushDone = true → s'.roundState.pushDone = true
  cancels : s.cancelled = false → s'.cancelled = true → s.roundState.pushDone = true

section Step
variable {s s' : SchedulerState PeerId T}

theorem SameProgress.progress (h : SameProgress s.roundState s'.roundState) (hc : s'.cancelled = s.cancelled) :
    Progress s s' where
  round := Nat.le_of_eq h.round.symm
  trainingComplete hcomplete := h.trainingComplete.trans hcomplete
  pushDone hdone := h.pushDone.trans hdone
  cancels hnot hcancels := absurd (hcancels.symm.trans (hc.trans hnot)) (by simp)

/-- A step that takes flags away at most and keeps or completes the progress. -/
theorem Chain.lowers (h : Chain s) (hpool : Lowers s.workerPool s'.workerPool)
    (hcomplete : s.roundState.trainingComplete = true → s'.roundState.trainingComplete = true)
    (hrounds : s'.roundState.trainingComplete = true → s'.roundState.updateRounds ≤ s'.roundState.round)
    (hpush : s'.roundState.pushDone = s.roundState.pushDone) (hcancelled : s'.cancelled = s.cancelled)
    (hbounded : s'.roundState.round ≤ u32Max) : Chain s' where
  onePusher p q hp hq := h.onePusher p q (hpool.pusher p hp).1 (hpool.pusher q hq).1
  pusher p hp := (hpool.pusher p hp).2.trans (h.pusher p (hpool.pusher p hp).1)
  final p hp := hcomplete (h.final p (hpool.final p hp))
  rounds := hrounds
  pushed hp := hcomplete (h.pushed (hpush ▸ hp))
  cancelled hc := hpush.trans (h.cancelled (hcancelled ▸ hc))
  bounded := hbounded

/-- **Every stretch keeps the chain** and takes no progress back. -/
theorem chain_step (h : Chain s) (hstep : ChainStep s s') : Chain s' ∧ Progress s s' := by
  cases hstep with
  | lowers hpool hprogress hcancelled =>
    refine ⟨h.lowers hpool hprogress.trainingComplete.trans ?_ hprogress.pushDone hcancelled
      (hprogress.round ▸ h.bounded), hprogress.progress hcancelled⟩
    rw [hprogress.trainingComplete, hprogress.updateRounds, hprogress.round]
    exact h.rounds
  | finishes p hcomplete hpusher hothers hfinal hprogress hcancelled =>
    have hpusher' : ∀ q, (s'.workerPool.stateOf q).isPusher = (s.workerPool.stateOf q).isPusher := hpusher
    have hcomplete' := hprogress.trainingComplete.trans hcomplete
    refine ⟨⟨fun q r hq hr => ?_, fun q hq => ?_, fun _ _ => hcomplete', ?_, fun _ => hcomplete', ?_, ?_⟩,
      hprogress.progress hcancelled⟩
    · exact h.onePusher q r (hpusher' q ▸ hq) (hpusher' r ▸ hr)
    · by_cases hqp : q = p
      · subst hqp
        exact hfinal
      · exact (hothers q hqp).trans (h.pusher q (hpusher' q ▸ hq))
    · rw [hprogress.trainingComplete, hprogress.updateRounds, hprogress.round]
      exact h.rounds
    · rw [hcancelled, hprogress.pushDone]
      exact h.cancelled
    · exact hprogress.round ▸ h.bounded
  | assigns p hcomplete hfree hfinal hround hcomplete' hpush hrounds hcancelled =>
    have honly : ∀ q, (s'.workerPool.stateOf q).isPusher = true → q = p := by
      intro q hq
      by_contra hqp
      exact Bool.noConfusion ((hfree q hqp).symm.trans hq)
    refine ⟨⟨fun q r hq hr => (honly q hq).trans (honly r hr).symm, fun q hq => ?_, fun _ _ => hcomplete', fun _ => ?_,
      fun _ => hcomplete', fun hc => hpush (h.cancelled (hcancelled ▸ hc)), hround ▸ h.bounded⟩, ?_⟩
    · rw [honly q hq]
      exact hfinal
    · rw [hrounds, hround]
      exact h.rounds hcomplete
    · exact ⟨Nat.le_of_eq hround.symm, fun _ => hcomplete', hpush,
        fun hnot hcancels => absurd (hcancels.symm.trans (hcancelled.trans hnot)) (by simp)⟩
  | advances hpool hround hcomplete hpush hrounds hcancelled =>
    have hle : s.roundState.round ≤ s'.roundState.round := by
      have hbounded := h.bounded
      rw [hround]
      unfold saturatingAdd
      omega
    have hkeeps : s.roundState.trainingComplete = true → s'.roundState.trainingComplete = true := by
      intro hc
      rw [hcomplete, hc, Bool.true_or]
    refine ⟨h.lowers hpool hkeeps (fun hc => ?_) hpush hcancelled ?_, ⟨hle, hkeeps, hpush.trans, ?_⟩⟩
    · rw [hrounds]
      rcases Bool.or_eq_true_iff.mp (hcomplete ▸ hc) with hold | hnew
      · exact (h.rounds hold).trans hle
      · exact of_decide_eq_true hnew
    · rw [hround]
      exact Nat.min_le_right _ _
    · exact fun hnot hcancels => absurd (hcancels.symm.trans (hcancelled.trans hnot)) (by simp)
  | pushed hcomplete heq =>
    subst heq
    exact ⟨⟨h.onePusher, h.pusher, h.final, h.rounds, fun _ => hcomplete, fun _ => rfl, h.bounded⟩,
      ⟨Nat.le_refl _, id, fun _ => rfl, fun hnot hcancels => absurd (hcancels.symm.trans hnot) (by simp)⟩⟩
  | cancels hpush heq =>
    subst heq
    exact ⟨⟨h.onePusher, h.pusher, h.final, h.rounds, h.pushed, fun _ => hpush, h.bounded⟩,
      ⟨Nat.le_refl _, id, id, fun _ _ => hpush⟩⟩

end Step

theorem chain_initial (job : Job) (workers servers : List (WorkerDescriptor PeerId)) :
    Chain (initial job workers servers : SchedulerState PeerId T) where
  onePusher _ _ hp := Bool.noConfusion hp
  pusher _ hp := Bool.noConfusion hp
  final _ hp := Bool.noConfusion hp
  rounds hc := Bool.noConfusion hc
  pushed hp := Bool.noConfusion hp
  cancelled hc := Bool.noConfusion hc
  bounded := Nat.zero_le _

/-- Members that join or leave and a receiver that goes leave the chain alone. -/
theorem chainStep_environment {cfg : Settings} {s s' : SchedulerState PeerId T}
    (h : (handlers cfg).environment s s') : ChainStep s s' := by
  obtain ⟨i, hi, rfl⟩ := h
  cases i with
  | report p status now clock => cases hi
  | _ => exact .lowers ⟨fun _ hp => ⟨hp, rfl⟩, fun _ hp => hp⟩ ⟨rfl, rfl, rfl, rfl⟩ rfl

/-- A handler that is to note that the model was pushed does so in the completion phase. -/
def Noting (s : SchedulerState PeerId T) : Handler PeerId → Prop
  | .pending _ => True
  | .suspended _ k => k = .pushedRound → s.roundState.trainingComplete = true

theorem Noting.mono {s s' : SchedulerState PeerId T} {k : Handler PeerId} (hk : Noting s k) (h : Progress s s') :
    Noting s' k := by
  cases k with
  | pending request => exact trivial
  | suspended ctx k => exact fun hpushed => h.trainingComplete (hk hpushed)

/-- One stretch of a handler. -/
theorem resumes_chain {cfg : Settings} {s s' : SchedulerState PeerId T} {k k' : Handler PeerId} (h : Chain s)
    (hk : Noting s k) (hres : Resumes cfg s k (s', k')) : ChainStep s s' ∧ Noting s' k' := by
  cases hres with
  | start t now request =>
    have hround := (start_protected cfg s t now request).1
    obtain ⟨hpool, hcancelled⟩ := enter_lowers (context cfg s t now request.1 request.2.jobId)
      { s with parameterPool := s.parameterPool.info.1.info.1 } request.2.status
    refine ⟨.onlyLowers s hpool hround hcancelled, fun hpushed => ?_⟩
    have hpusher : pushesIn s.workerPool request.1 = true :=
      enter_pushedRound (context cfg s t now request.1 request.2.jobId)
        { s with parameterPool := s.parameterPool.info.1.info.1 } hpushed
    rw [hround]
    exact h.final _ (h.pusher _ hpusher)
  | resume t ctx k running =>
    refine ⟨resume_chain cfg ctx s t k hk, fun hpushed => ?_⟩
    have hnext := resume_next cfg ctx s t k
    rw [hpushed] at hnext
    cases hnext

/-- **The completion chain.** Wherever an interleaving of handlers leads, while members join and leave the pools, the
chain holds, and no step of it takes progress back or cancels the job before the model was pushed. -/
theorem completion_chain {ι : Type} [DecidableEq ι] (job : Job) (workers servers : List (WorkerDescriptor PeerId))
    (requests : ι → PeerId × ActionRequest) {h : List (Move ι (SchedulerState PeerId T) (Handler PeerId))}
    {c : Config ι (SchedulerState PeerId T) (Handler PeerId)}
    (past : (handlers job.settings).Interleaves (arriving job workers servers requests) h c) :
    Chain c.shared ∧ Along (fun m _ => Progress m.before.shared m.after.shared) h := by
  have hrule := past.rule (fun _ s => Chain s) (fun _ _ s k => Noting s k) (fun _ _ => True)
    (fun m _ => Progress m.before.shared m.after.shared) (chain_initial job workers servers) (fun _ => trivial)
    ?_ ?_ (along_true h)
  · exact ⟨hrule.1, hrule.2.2⟩
  · intro _ c i s' k' hchain hnoting _ _ hres
    obtain ⟨hstep, hnoting'⟩ := resumes_chain hchain (hnoting i) hres
    obtain ⟨hchain', hprogress⟩ := chain_step hchain hstep
    exact ⟨hchain', hnoting', fun j _ => (hnoting j).mono hprogress, hprogress⟩
  · intro _ c s' hchain hnoting _ henv
    obtain ⟨hchain', hprogress⟩ := chain_step hchain (chainStep_environment henv)
    exact ⟨hchain', fun j => (hnoting j).mono hprogress, hprogress⟩

/-- The requests of a run whose inputs are reports, in the order of the reports. -/
def requestsOf (inputs : List (Input Nat)) (n : Nat) : Nat × ActionRequest :=
  match inputs[n]?.bind Input.report? with
  | some (p, status) => (p, ⟨0, status⟩)
  | none => (0, ⟨0, .train .terminated⟩)

/-- The one round of a job: worker 1 applies the aggregate, is assigned to push, and the job is cancelled. -/
def oneRound : List (Input Nat) :=
  oneAggregate ++ [tellPs 9 (.broadcastedUpdate none), tell 1 .idle, tell 1 .appliedUpdate, tell 1 .idle, tell 1 .idle]

theorem completion_chain_one_round :
    (run RunningMean (smallJob 1 1 1) (joined [1]) (joined [9]) oneRound).state.cancelled = true ∧
      Chain (run RunningMean (smallJob 1 1 1) (joined [1]) (joined [9]) oneRound).state := by
  refine ⟨by decide, ?_⟩
  obtain ⟨tasks, hreach, -, -⟩ := reachable_run (T := RunningMean) (smallJob 1 1 1) (joined [1]) (joined [9])
    (requestsOf oneRound) oneRound (fun n p status hn => by rw [requestsOf, hn]; rfl)
  obtain ⟨h, past⟩ := System.reachable_iff_interleaves.mp hreach
  exact (completion_chain (smallJob 1 1 1) (joined [1]) (joined [9]) (requestsOf oneRound) past).1

end Hypha.Scheduler
