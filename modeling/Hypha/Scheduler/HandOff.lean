import Hypha.Scheduler.Script
import Hypha.Scheduler.Stretch

/-!
# Handing the model on

A worker that joins late waits for the model. Whoever reports `AppliedUpdate` next is told to send it, and the waiting
worker, when it asks again, is told whom to receive it from. The pairing goes through two fields of the waiting worker's
entry in the pool: one handler writes them, another one reads them.

* `donor`, `receives` : the two actions as a history records them, `awaited` : who was told to send a worker the model
  since it was last told to receive one;
* `enter_receiveModel`, `resume_receivingFrom` : what a stretch does to the pairing;
* `models_handed_on` : over every interleaving, whoever a worker is told to receive the model from was told to send it.
-/

namespace Hypha.Scheduler

open Hypha.Lib Hypha.Action

set_option linter.unusedSectionVars false

variable {PeerId T ι : Type} [LinearOrder PeerId] [RuntimeStatistic T]

/-! ## The actions of a history -/

/-- Whom a move tells to send its model to `w`. -/
def donor (w : PeerId) (m : Move ι (SchedulerState PeerId T) (Handler PeerId)) : Option PeerId :=
  match issued m with
  | some (d, .train (.sendModel (.peers peers _ _))) => if peers.any (fun q => decide (q = w)) then some d else none
  | _ => none

/-- Whether a move tells `w` to receive a model. -/
def receives (w : PeerId) (m : Move ι (SchedulerState PeerId T) (Handler PeerId)) : Bool :=
  match issued m with
  | some (p, .train (.receiveModel _ _)) => p = w
  | _ => false

/-- Whom the most recent `SendModel` that names `w` was issued to. -/
def lastDonor (w : PeerId) (h : List (Move ι (SchedulerState PeerId T) (Handler PeerId))) : Option PeerId :=
  h.findSome? (donor w)

/-- The same, among the moves since `w` was last told to receive a model. -/
def awaited (w : PeerId) : List (Move ι (SchedulerState PeerId T) (Handler PeerId)) → Option PeerId
  | [] => none
  | m :: h => if receives w m then none else (donor w m).or (awaited w h)

variable {w d : PeerId} {m : Move ι (SchedulerState PeerId T) (Handler PeerId)}
  {h : List (Move ι (SchedulerState PeerId T) (Handler PeerId))}

theorem donor_eq_none (hm : ∀ p peers strategy resource,
    issued m = some (p, .train (.sendModel (.peers peers strategy resource))) → w ∉ peers) : donor w m = none := by
  unfold donor
  split
  · next hi => exact if_neg (by simpa using hm _ _ _ _ hi)
  · rfl

theorem receives_eq_false (hm : ∀ source t, issued m ≠ some (w, .train (.receiveModel source t))) :
    receives w m = false := by
  unfold receives
  split
  · next p source t hi =>
    rw [decide_eq_false_iff_not]
    rintro rfl
    exact hm source t hi
  · rfl

/-- An awaited model is the last one that anybody was told to send. -/
theorem lastDonor_of_awaited (ha : awaited w h = some d) : lastDonor w h = some d := by
  induction h with
  | nil => cases ha
  | cons m h ih =>
    unfold awaited at ha
    split_ifs at ha
    unfold lastDonor
    rw [List.findSome?_cons]
    cases hd : donor w m with
    | none =>
      rw [hd, Option.none_or] at ha
      exact ih ha
    | some d' =>
      rw [hd, Option.some_or] at ha
      exact ha

/-- Since any move that told `w` to receive a model somebody was told to send one. -/
theorem donor_of_awaited {g₁ g₂ : List (Move ι (SchedulerState PeerId T) (Handler PeerId))}
    (ha : awaited w (g₁ ++ m :: g₂) = some d) (hm : receives w m = true) : ∃ e ∈ g₁, donor w e = some d := by
  induction g₁ with
  | nil =>
    rw [List.nil_append] at ha
    unfold awaited at ha
    rw [if_pos hm] at ha
    cases ha
  | cons e g₁ ih =>
    rw [List.cons_append] at ha
    unfold awaited at ha
    split_ifs at ha
    cases hd : donor w e with
    | none =>
      rw [hd, Option.none_or] at ha
      obtain ⟨e', he', hd'⟩ := ih ha
      exact ⟨e', List.mem_cons_of_mem _ he', hd'⟩
    | some d' =>
      rw [hd, Option.some_or] at ha
      exact ⟨e, List.mem_cons_self, hd.trans ha⟩

/-! ## What a stretch does -/

/-- Whom the pool says a worker is to receive the model from. -/
def receivingFrom (pool : PoolWithTrainInfo PeerId T) (q : PeerId) : Option PeerId := (pool.stateOf q).receivingFrom

/-- A worker keeps whom it receives from, or nobody. -/
def KeepsSource (st st' : WorkerState PeerId) : Prop :=
  ∀ d, st'.receivingFrom = some d → st.receivingFrom = some d

theorem harmless_keepsSource : Harmless (@KeepsSource PeerId) where
  refl _ _ hd := hd
  waits _ _ hR := hR
  received _ _ _ _ hd := by cases hd
  applied _ _ _ hR := hR
  revoked _ _ hR := hR

theorem Evolves.receivingFrom {pool pool' : PoolWithTrainInfo PeerId T} (hpool : Evolves KeepsSource pool pool')
    {q : PeerId} (hq : receivingFrom pool' q = some d) : receivingFrom pool q = some d := by
  rcases hpool.state q with hR | ⟨-, hR⟩
  · exact hR d hq
  · exact absurd (hR d hq) (by simp)

section Stretches
variable (cfg : Settings) (ctx : Context PeerId) (s : SchedulerState PeerId T)

/-- A worker is told to receive from whom the pool says, and the pool forgets it. -/
theorem enter_receiveModel {status : ExecutorStatus} {source : Reference PeerId} {t : SystemTime}
    (ha : (enter ctx s status).2.answer? = some (.train (.receiveModel source t))) :
    ∃ d, receivingFrom s.workerPool ctx.peerId = some d ∧ source = .peers [d] .all none ∧
      receivingFrom (enter ctx s status).1.workerPool ctx.peerId = none := by
  obtain rfl : status = .train .waitedForModel := by
    cases enter_answer ctx s ha
    rfl
  simp only [enter, waitedForModel, PoolWithTrainInfo.info] at ha ⊢
  split at ha
  · next d hd =>
    have hfind := PoolWithTrainInfo.find_snapshot s.workerPool ctx.peerId (·.receivingFrom)
    obtain ⟨w, hw, hfrom⟩ := Option.bind_eq_some_iff.mp hd
    rw [hw, Option.map_some, hfrom] at hfind
    cases ha
    refine ⟨d, ?_, rfl, ?_⟩
    · split_ifs at hfind
      exact (Option.some.inj hfind).symm
    · unfold receivingFrom
      rw [PoolWithTrainInfo.stateOf_updateState, if_pos rfl]
  · cases ha

/-- A worker is told to send the model when it has reported `AppliedUpdate`, before the training is complete. -/
theorem resume_sendModel {t : Instant} {k : Await PeerId} (running : k.isDone = false) {target : Reference PeerId}
    (ha : (resume cfg ctx s t k).2.answer? = some (.train (.sendModel target))) :
    k = .appliedRound ∧ s.roundState.trainingComplete = false ∧ ∃ q, target = .peers [q] .one none := by
  obtain rfl : k = .appliedRound := by
    cases resume_answer cfg ctx s t k running ha
    rfl
  simp only [resume, appliedRound] at ha
  split_ifs at ha with hcomplete
  · cases ha
  · split at ha <;> cases ha
    exact ⟨rfl, by simpa using hcomplete, _, rfl⟩

/-- Only a worker told to send the model becomes a source. -/
theorem resume_receivingFrom (t : Instant) (k : Await PeerId) (running : k.isDone = false) {q : PeerId}
    (hq : receivingFrom (resume cfg ctx s t k).1.workerPool q = some d) :
    (d = ctx.peerId ∧ (resume cfg ctx s t k).2.answer? = some (.train (.sendModel (.peers [q] .one none)))) ∨
      receivingFrom s.workerPool q = some d ∧
        (resume cfg ctx s t k).2.answer? ≠ some (.train (.sendModel (.peers [q] .one none))) := by
  have hretain : Evolves KeepsSource s.workerPool s.workerPool.retain :=
    (Evolves.refl harmless_keepsSource.refl _).retain harmless_keepsSource.refl
  by_cases hk : k = .appliedRound ∧ s.roundState.trainingComplete = false
  · obtain ⟨rfl, hcomplete⟩ := hk
    simp only [resume, appliedRound, hcomplete, Bool.false_eq_true, if_false] at hq ⊢
    split at hq
    · next w hw =>
      by_cases hqw : q = w
      · subst hqw
        unfold receivingFrom at hq
        rw [PoolWithTrainInfo.stateOf_updateState, if_pos rfl] at hq
        exact Or.inl ⟨(Option.some.inj hq).symm, rfl⟩
      · unfold receivingFrom at hq
        rw [PoolWithTrainInfo.stateOf_updateState, if_neg hqw] at hq
        refine Or.inr ⟨hretain.receivingFrom hq, fun ha => hqw ?_⟩
        cases ha
        rfl
    · exact Or.inr ⟨hretain.receivingFrom hq, fun ha => by cases ha⟩
  · refine Or.inr ⟨Evolves.receivingFrom ?_ hq, fun ha => ?_⟩
    · refine resume_evolves cfg ctx s harmless_keepsSource t k (fun _ _ _ _ hR => hR) (fun _ _ _ hR => hR)
        (fun _ _ _ _ hR => hR) (fun _ _ _ _ hR => hR) (fun hk' hcomplete => absurd ⟨hk', hcomplete⟩ hk)
    · obtain ⟨hk', hcomplete, -⟩ := resume_sendModel cfg ctx s running ha
      exact hk ⟨hk', hcomplete⟩

end Stretches

/-! ## Over every interleaving -/

section Interleaved
variable [DecidableEq ι] {job : Job} {workers servers : List (WorkerDescriptor PeerId)}
  {requests : ι → PeerId × ActionRequest}

/-- Whoever a worker is to receive the model from is awaited. -/
def SourcesAwaited (h : List (Move ι (SchedulerState PeerId T) (Handler PeerId))) (s : SchedulerState PeerId T) : Prop :=
  ∀ q d, receivingFrom s.workerPool q = some d → awaited q h = some d

/-- A handler serves its request; the await point of `AppliedUpdate` belongs to such a report. -/
def Serves (request : PeerId × ActionRequest) : Handler PeerId → Prop
  | .pending r => r = request
  | .suspended ctx k => ctx.peerId = request.1 ∧ (k = .appliedRound → request.2.status = .train .appliedUpdate)

theorem First.eq_appliedUpdate {status : ExecutorStatus} (hk : First status (.appliedRound : Await PeerId)) :
    status = .train .appliedUpdate := by
  cases hk
  rfl

theorem resumes_serves {cfg : Settings} {s s' : SchedulerState PeerId T} {request : PeerId × ActionRequest}
    {k k' : Handler PeerId} (hk : Serves request k) (hres : Resumes cfg s k (s', k')) : Serves request k' := by
  cases hres with
  | start t now r =>
    obtain rfl : r = request := hk
    refine ⟨rfl, fun happlied => ?_⟩
    have hfirst : First r.2.status (start cfg s t now r).2.2 := enter_first _ _ _
    rw [happlied] at hfirst
    exact hfirst.eq_appliedUpdate
  | resume t ctx k running =>
    refine ⟨hk.1, fun happlied => ?_⟩
    have hnext := resume_next cfg ctx s t k
    rw [happlied] at hnext
    cases hnext

/-- What a move must be like for the model to be handed on: a worker receives it from the one last told to send it,
somebody was told so since it last received one, and it is sent by a worker that reports `AppliedUpdate` before the
training is complete. -/
structure HandsOn (requests : ι → PeerId × ActionRequest) (m : Move ι (SchedulerState PeerId T) (Handler PeerId))
    (h : List (Move ι (SchedulerState PeerId T) (Handler PeerId))) : Prop where
  source : ∀ w source t, issued m = some (w, .train (.receiveModel source t)) →
    ∃ d, source = .peers [d] .all none ∧ lastDonor w h = some d
  between : ∀ w g₁ m' g₂, receives w m = true → h = g₁ ++ m' :: g₂ → receives w m' = true →
    ∃ e ∈ g₁, (donor w e).isSome = true
  sends : ∀ d target, issued m = some (d, .train (.sendModel target)) →
    ∃ i, m.actor = some i ∧ (requests i).1 = d ∧ (requests i).2.status = .train .appliedUpdate ∧
      m.before.shared.roundState.trainingComplete = false

/-- Stretches keep the sources awaited. -/
theorem sourcesAwaited_run {cfg : Settings} {c : Config ι (SchedulerState PeerId T) (Handler PeerId)} {i : ι}
    {s' : SchedulerState PeerId T} {k' : Handler PeerId} (hG : SourcesAwaited h c.shared)
    (hres : Resumes cfg c.shared (c.tasks i) (s', k')) :
    SourcesAwaited (⟨c, some i, ⟨s', Function.update c.tasks i k'⟩⟩ :: h) s' := by
  intro q d hq
  unfold awaited
  generalize c.tasks i = k at hres
  cases hres with
  | start t now request =>
    obtain ⟨p, jobId, status⟩ := request
    have hevolves := enter_evolves (context cfg c.shared t now p jobId)
      { c.shared with parameterPool := c.shared.parameterPool.info.1.info.1 } harmless_keepsSource status
    rw [receives_eq_false, donor_eq_none, Option.none_or]
    · exact hG q d (hevolves.receivingFrom hq)
    · intro p' peers strategy resource hi
      rw [issued_run, Handler.answer?_suspended] at hi
      cases enter_answer _ _ hi.2
    · intro source t' hi
      rw [issued_run, Handler.answer?_suspended] at hi
      obtain ⟨rfl, ha⟩ := hi
      obtain ⟨-, -, -, hnone⟩ := enter_receiveModel _ _ ha
      exact absurd (hnone.symm.trans hq) (by simp)
  | resume t ctx k running =>
    have hreceives : receives q (⟨c, some i, ⟨(resume cfg ctx c.shared t k).1,
        Function.update c.tasks i (.suspended ctx (resume cfg ctx c.shared t k).2)⟩⟩ : Move ι _ _) = false := by
      refine receives_eq_false fun source t' hi => ?_
      rw [issued_run, Handler.answer?_suspended] at hi
      cases resume_answer cfg ctx c.shared t k running hi.2
    rw [hreceives, if_neg Bool.false_ne_true]
    rcases resume_receivingFrom cfg ctx c.shared t k running hq with ⟨rfl, ha⟩ | ⟨hold, ha⟩
    · unfold donor
      rw [issued_run, Handler.answer?_suspended.mpr ⟨rfl, ha⟩]
      exact congrArg (Option.or · _) (if_pos (by simp))
    · rw [donor_eq_none, Option.none_or]
      · exact hG q d hold
      · intro p peers strategy resource hi
        rw [issued_run, Handler.answer?_suspended] at hi
        obtain ⟨-, -, w, hw⟩ := resume_sendModel cfg ctx c.shared running hi.2
        cases hw
        rw [List.mem_singleton]
        rintro rfl
        exact ha hi.2

theorem handsOn_run {cfg : Settings} {c : Config ι (SchedulerState PeerId T) (Handler PeerId)} {i : ι}
    {s' : SchedulerState PeerId T} {k' : Handler PeerId} (hG : SourcesAwaited h c.shared)
    (hk : Serves (requests i) (c.tasks i)) (hres : Resumes cfg c.shared (c.tasks i) (s', k')) :
    HandsOn requests ⟨c, some i, ⟨s', Function.update c.tasks i k'⟩⟩ h := by
  -- whom a worker is told to receive from is awaited
  have hreceive : ∀ w source t, k'.answer? = some (w, .train (.receiveModel source t)) →
      ∃ d, source = .peers [d] .all none ∧ awaited w h = some d := by
    intro w source t hi
    generalize c.tasks i = k at hres
    cases hres with
    | start t' now request =>
      rw [Handler.answer?_suspended] at hi
      obtain ⟨rfl, ha⟩ := hi
      obtain ⟨d, hd, hsource, -⟩ := enter_receiveModel _ _ ha
      exact ⟨d, hsource, hG _ d hd⟩
    | resume t' ctx k running =>
      rw [Handler.answer?_suspended] at hi
      cases resume_answer cfg ctx c.shared t' k running hi.2
  refine ⟨fun w source t hi => ?_, fun w g₁ m' g₂ hm hsplit hm' => ?_, fun d target hi => ⟨i, rfl, ?_⟩⟩
  · rw [issued_run] at hi
    obtain ⟨d, hsource, hd⟩ := hreceive w source t hi
    exact ⟨d, hsource, lastDonor_of_awaited hd⟩
  · unfold receives at hm
    split at hm
    · next p source t hi =>
      obtain rfl : p = w := of_decide_eq_true hm
      rw [issued_run] at hi
      obtain ⟨d, -, hd⟩ := hreceive p source t hi
      rw [hsplit] at hd
      obtain ⟨e, he, hdonor⟩ := donor_of_awaited hd hm'
      exact ⟨e, he, by rw [hdonor]; rfl⟩
    · cases hm
  · rw [issued_run] at hi
    generalize c.tasks i = k at hk hres
    cases hres with
    | start t now request =>
      obtain ⟨p, jobId, status⟩ := request
      rw [Handler.answer?_suspended] at hi
      cases enter_answer _ _ hi.2
    | resume t ctx k running =>
      rw [Handler.answer?_suspended] at hi
      obtain ⟨happlied, hcomplete, -⟩ := resume_sendModel cfg ctx c.shared running hi.2
      exact ⟨hk.1.symm.trans hi.1, hk.2 happlied, hcomplete⟩

/-- **The model is handed on** along every interleaving of handlers, while workers join, leave and join again. -/
theorem models_handed_on {h : List (Move ι (SchedulerState PeerId T) (Handler PeerId))}
    {c : Config ι (SchedulerState PeerId T) (Handler PeerId)}
    (past : (handlers job.settings).Interleaves (arriving job workers servers requests) h c) :
    Along (HandsOn requests) h := by
  refine (past.rule SourcesAwaited (fun _ i _ k => Serves (requests i) k) (fun _ _ => True) (HandsOn requests)
    (fun q d hd => by cases hd) (fun _ => rfl) ?_ ?_ (along_true h)).2.2
  · intro h c i s' k' hG hA _ _ hres
    exact ⟨sourcesAwaited_run hG hres, resumes_serves (hA i) hres, fun j _ => hA j, handsOn_run hG (hA i) hres⟩
  · intro h c s' hG hA _ henv
    refine ⟨fun q d hd => ?_, hA, ⟨fun _ _ _ hi => (by cases hi), fun _ _ _ _ hm => (by cases hm),
      fun _ _ hi => (by cases hi)⟩⟩
    obtain ⟨input, hinput, rfl⟩ := henv
    refine hG q d ?_
    cases input with
    | report p status now clock => cases hinput
    | _ => exact hd

end Interleaved

/-- Worker 2 joins in the second round, worker 1 applies the aggregate, and worker 2 asks for the model. -/
def lateRequests : Fin 4 → Nat × ActionRequest
  | 0 => (9, ⟨0, .aggregate (.broadcastedUpdate none)⟩)
  | 1 => (2, ⟨0, .train .joined⟩)
  | 2 => (1, ⟨0, .train .appliedUpdate⟩)
  | 3 => (2, ⟨0, .train .waitedForModel⟩)

def lateJoin : Played Nat RunningMean (Fin 4) :=
  play (smallJob 1 1 2).settings (arriving (smallJob 1 1 2) (joined [1, 2]) (joined [9]) lateRequests)
    (times 7 0 ++ times 2 1 ++ times 2 2 ++ times 1 3)

theorem models_handed_on_late_join :
    lateJoin.moves.any (receives 2) = true ∧ Along (HandsOn lateRequests) lateJoin.moves :=
  ⟨by decide, models_handed_on (play_interleaves _ _ _ (by decide))⟩

end Hypha.Scheduler
