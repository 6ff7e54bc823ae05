import Hypha.Lib.Directory
import Hypha.Scheduler.Pool

/-!
# Peers that rejoin a pool

A pool drops what it remembers of a peer that left only when `info` is called while the peer is away, and an update for
a peer that is away makes a new entry. So a peer that joins again is a stranger to the pool exactly if it was
`forgotten` meanwhile.

* `PoolCall`, `trainDirectory`, `aggregateDirectory` : the calls of the two pools;
* `Rejoins`, `FirstInfo` : a peer that left joins again, and the first `info` that lists it since;
* `TrainFresh`, `AggregateFresh` : that call reports default information for it;
* `rejoin_fresh_iff` : it does exactly if the peer was forgotten, or its recorded updates were none.
-/

namespace Hypha.Scheduler

open Hypha.Lib

variable {PeerId T : Type} [LinearOrder PeerId] [RuntimeStatistic T]

set_option linter.unusedSectionVars false

/-! ## The calls of a pool -/

/-- A change of the members or a call on the pool's handle; `υ` is what an update does to an entry. -/
inductive PoolCall (PeerId υ : Type) where
  | join (workers : List (WorkerDescriptor PeerId))
  | exit (peer : PeerId)
  | info
  | update (peer : PeerId) (change : υ)

/-- `update_statistics` or `update_state`, with its closure. -/
inductive TrainUpdate (PeerId T : Type) where
  | statistics (f : T × Nat → T × Nat)
  | state (f : WorkerState PeerId → WorkerState PeerId)

/-- What a call is to the pool's entries. -/
def PoolCall.kind {υ : Type} : PoolCall PeerId υ → DirectoryCall PeerId
  | .join _ => .membership
  | .exit _ => .membership
  | .info => .prune
  | .update p _ => .write p

/-- The step of a call on the pool of the training workers. -/
def trainStep (pool : PoolWithTrainInfo PeerId T) :
    PoolCall PeerId (TrainUpdate PeerId T) →
      PoolWithTrainInfo PeerId T × Option (List (WorkerDescriptorWithInfo PeerId))
  | .join workers => ({ pool with members := joinMembers pool.members workers }, none)
  | .exit p => ({ pool with members := exitMembers pool.members p }, none)
  | .info => (pool.info.1, some pool.info.2)
  | .update p (.statistics f) => (pool.updateStatistics p f, none)
  | .update p (.state f) => (pool.updateState p f, none)

/-- The step of a call on the pool of the parameter servers. -/
def aggregateStep (pool : PoolWithAggregateInfo PeerId) :
    PoolCall PeerId (AggregateInfo PeerId → AggregateInfo PeerId) →
      PoolWithAggregateInfo PeerId × Option (List (WorkerDescriptorWithAggregate PeerId))
  | .join workers => ({ pool with members := joinMembers pool.members workers }, none)
  | .exit p => ({ pool with members := exitMembers pool.members p }, none)
  | .info => (pool.info.1, some pool.info.2)
  | .update p f => (pool.updateState p f, none)

/-- The training workers' pool is a directory. -/
def trainDirectory (PeerId T : Type) [LinearOrder PeerId] [RuntimeStatistic T] :
    Directory (PoolWithTrainInfo PeerId T) (PoolCall PeerId (TrainUpdate PeerId T))
      (Option (List (WorkerDescriptorWithInfo PeerId))) PeerId (TrainEntry PeerId T) where
  step := trainStep
  isMember := PoolWithTrainInfo.isMember
  entry := PoolWithTrainInfo.entries
  call := PoolCall.kind
  entry_membership := by
    rintro pool (_ | _ | _ | ⟨q, _ | _⟩) hcall p <;> first | rfl | cases hcall
  entry_prune := by
    rintro pool (_ | _ | _ | ⟨q, _ | _⟩) hcall p <;> cases hcall
    simp only [PoolWithTrainInfo.isMember_iff]
    rfl
  entry_write := by
    rintro pool (_ | _ | _ | ⟨q, f | f⟩) p hcall <;> cases hcall
    · simp [trainStep, PoolWithTrainInfo.updateStatistics]
    · simp [trainStep, PoolWithTrainInfo.updateState]
  entry_write_of_ne := by
    rintro pool (_ | _ | _ | ⟨q, f | f⟩) p hcall p' hne <;> cases hcall
    · exact Function.update_of_ne hne _ _
    · exact Function.update_of_ne hne _ _

/-- Whether a peer is a member of the parameter servers' pool. -/
def isServer (pool : PoolWithAggregateInfo PeerId) (p : PeerId) : Bool :=
  pool.ids.any fun q => decide (q = p)

/-- The parameter servers' pool is a directory. -/
def aggregateDirectory (PeerId : Type) [LinearOrder PeerId] :
    Directory (PoolWithAggregateInfo PeerId) (PoolCall PeerId (AggregateInfo PeerId → AggregateInfo PeerId))
      (Option (List (WorkerDescriptorWithAggregate PeerId))) PeerId (AggregateInfo PeerId) where
  step := aggregateStep
  isMember := isServer
  entry := PoolWithAggregateInfo.entries
  call := PoolCall.kind
  entry_membership := by
    rintro pool (_ | _ | _ | _) hcall p <;> first | rfl | cases hcall
  entry_prune := by
    rintro pool (_ | _ | _ | _) hcall p <;> cases hcall
    simp only [isServer, List.any_eq_true, decide_eq_true_eq, exists_eq_right]
    rfl
  entry_write := by
    rintro pool (_ | _ | _ | ⟨q, f⟩) p hcall <;> cases hcall
    simp [aggregateStep, PoolWithAggregateInfo.updateState]
  entry_write_of_ne := by
    rintro pool (_ | _ | _ | ⟨q, f⟩) p hcall p' hne <;> cases hcall
    exact Function.update_of_ne hne _ _

/-- A pool of training workers after some calls, from the members it begins with. -/
def trainRun (T : Type) [RuntimeStatistic T] (members : List (WorkerDescriptor PeerId))
    (calls : List (PoolCall PeerId (TrainUpdate PeerId T))) :=
  (trainDirectory PeerId T).toMachine.run ⟨members, fun _ => none⟩ calls

/-- A pool of parameter servers after some calls. -/
def aggregateRun (members : List (WorkerDescriptor PeerId))
    (calls : List (PoolCall PeerId (AggregateInfo PeerId → AggregateInfo PeerId))) :=
  (aggregateDirectory PeerId).toMachine.run ⟨members, fun _ => none⟩ calls

/-! ## Joining again -/

section Rejoin
variable {σ υ ο : Type}

/-- A peer that left in a call before `j` becomes a member again with `j`. -/
def Rejoins (ids : σ → List PeerId) (p : PeerId) (j : Event σ (PoolCall PeerId υ) ο)
    (before : List (Event σ (PoolCall PeerId υ) ο)) : Prop :=
  (∃ workers, j.input = .join workers) ∧ p ∉ ids j.pre ∧ p ∈ ids j.post ∧
    ∃ x ∈ before, x.input = .exit p ∧ p ∈ ids x.pre

/-- An `info` that lists the peer, the first one and before any update for the peer. -/
def FirstInfo (ids : σ → List PeerId) (p : PeerId) (e : Event σ (PoolCall PeerId υ) ο)
    (since : List (Event σ (PoolCall PeerId υ) ο)) : Prop :=
  e.input = .info ∧ p ∈ ids e.pre ∧
    ∀ x ∈ since, x.input ≠ .info ∧ x.input ≠ .exit p ∧ ∀ change, x.input ≠ .update p change

/-- Between the two the pool is quiet about the peer. -/
theorem quiet_of_firstInfo {ε : Type} {d : Directory σ (PoolCall PeerId υ) ο PeerId ε} (hd : d.call = PoolCall.kind)
    {ids : σ → List PeerId} {p : PeerId} {e j : Event σ (PoolCall PeerId υ) ο}
    {since before : List (Event σ (PoolCall PeerId υ) ο)} (hj : Rejoins ids p j before)
    (he : FirstInfo ids p e since) : d.Quiet p (since ++ [j]) := by
  have hmembership : DirectoryCall.membership ≠ .write p ∧ (.membership : DirectoryCall PeerId) ≠ .prune := by
    constructor <;> (intro h; cases h)
  intro x hx
  rw [hd]
  rcases List.mem_append.mp hx with hx | hx
  · obtain ⟨hinfo, -, hupdate⟩ := he.2.2 x hx
    cases hinput : x.input with
    | join workers => exact hmembership
    | exit q => exact hmembership
    | info => exact absurd hinput hinfo
    | update q change =>
      constructor <;> intro h <;> cases h
      exact hupdate change hinput
  · obtain rfl := List.mem_singleton.mp hx
    obtain ⟨workers, hjoin⟩ := hj.1
    rw [hjoin]
    exact hmembership

/-- The first `info` after a peer joined again finds the entry the pool had when it joined, none if it was forgotten. -/
theorem along_firstInfo {ε : Type} {d : Directory σ (PoolCall PeerId υ) ο PeerId ε} (hd : d.call = PoolCall.kind)
    (ids : σ → List PeerId) {s : σ} (hs : ∀ p, d.entry s p = none) (calls : List (PoolCall PeerId υ)) :
    Along (fun e h => ∀ p since j before, h = since ++ j :: before → Rejoins ids p j before →
      FirstInfo ids p e since → e = d.toMachine.event e.pre .info ∧ d.entry e.pre p = d.entry j.pre p ∧
        (d.entry j.pre p = none ↔ d.forgotten p before = true)) (d.toMachine.run s calls).history := by
  refine Along.mp (fun e h hforgotten hsame p since j before hh hj he => ⟨?_, ?_, ?_⟩)
    (d.along_entry_eq_none_iff hs calls)
    (Along.mp (fun e h hevent hsame => And.intro hevent.1 hsame) (d.toMachine.along_event s calls)
      (d.along_entry_since s calls))
  · have hevent := hsame.1
    rwa [he.1] at hevent
  · exact hsame.2 p since j before hh (quiet_of_firstInfo hd hj he)
  · have hsuffix : j :: before <:+ e :: h := by
      rw [hh]
      exact ⟨e :: since, rfl⟩
    exact (hforgotten.of_suffix hsuffix).1 p

end Rejoin

/-! ## What `info` reports -/

/-- The first `info` that lists a worker after it joined again reports the default state and no statistic. -/
def TrainFresh (e : Event (PoolWithTrainInfo PeerId T) (PoolCall PeerId (TrainUpdate PeerId T))
    (Option (List (WorkerDescriptorWithInfo PeerId)))) (p : PeerId) : Prop :=
  ∀ listing, e.output = some listing → ∀ w ∈ listing, w.peerId = p → w.state = {} ∧ w.statistic = none

/-- The first `info` that lists a parameter server after it joined again reports no updates. -/
def AggregateFresh (e : Event (PoolWithAggregateInfo PeerId)
    (PoolCall PeerId (AggregateInfo PeerId → AggregateInfo PeerId))
    (Option (List (WorkerDescriptorWithAggregate PeerId)))) (p : PeerId) : Prop :=
  ∀ listing, e.output = some listing → ∀ w ∈ listing, w.peerId = p → w.workerUpdates = ∅

/-- A worker is reported with a statistic exactly if it has an entry. -/
theorem trainFresh_iff {pool : PoolWithTrainInfo PeerId T} {p : PeerId} (hp : p ∈ pool.ids) :
    TrainFresh ((trainDirectory PeerId T).toMachine.event pool .info) p ↔ pool.entries p = none := by
  have hentry : pool.retain.entries p = pool.entries p := if_pos hp
  constructor
  · intro hfresh
    obtain ⟨d, hd, rfl⟩ := List.mem_map.mp hp
    have hstat := (hfresh _ rfl _ (List.mem_map_of_mem hd) rfl).2
    rw [hentry] at hstat
    exact Option.map_eq_none_iff.mp hstat
  · intro hnone listing hlisting w hw hwp
    obtain rfl := Option.some.inj hlisting
    obtain ⟨d, hd, rfl⟩ := List.mem_map.mp hw
    obtain rfl : d.peerId = p := hwp
    rw [hnone] at hentry
    simp [hentry]

theorem aggregateFresh_iff {pool : PoolWithAggregateInfo PeerId} {p : PeerId} (hp : p ∈ pool.ids) :
    AggregateFresh ((aggregateDirectory PeerId).toMachine.event pool .info) p ↔ pool.updatesOf p = ∅ := by
  have hupdates : pool.retain.updatesOf p = pool.updatesOf p := by
    rw [PoolWithAggregateInfo.updatesOf_retain, if_pos hp]
  constructor
  · intro hfresh
    obtain ⟨d, hd, rfl⟩ := List.mem_map.mp hp
    have hempty := hfresh _ rfl _ (List.mem_map_of_mem hd) rfl
    exact hupdates.symm.trans hempty
  · intro hempty listing hlisting w hw hwp
    obtain rfl := Option.some.inj hlisting
    obtain ⟨d, hd, rfl⟩ := List.mem_map.mp hw
    obtain rfl : d.peerId = p := hwp
    exact hupdates.trans hempty

/-- **Who is a stranger again.** In every run of the calls of either pool, the first `info` that lists a peer after it
joined again, before any update for it, reports default information exactly if the peer was forgotten by then: `info`
was called while it was away and no update for it since. For a parameter server it also does if the updates recorded
with it were none. -/
theorem rejoin_fresh_iff (members : List (WorkerDescriptor PeerId)) :
    (∀ calls : List (PoolCall PeerId (TrainUpdate PeerId T)),
      Along (fun e h => ∀ p since j before, h = since ++ j :: before → Rejoins PoolWithTrainInfo.ids p j before →
        FirstInfo PoolWithTrainInfo.ids p e since →
          (TrainFresh e p ↔ (trainDirectory PeerId T).forgotten p before = true))
        (trainRun T members calls).history) ∧
    ∀ calls : List (PoolCall PeerId (AggregateInfo PeerId → AggregateInfo PeerId)),
      Along (fun e h => ∀ p since j before, h = since ++ j :: before → Rejoins PoolWithAggregateInfo.ids p j before →
        FirstInfo PoolWithAggregateInfo.ids p e since →
          (AggregateFresh e p ↔
            (aggregateDirectory PeerId).forgotten p before = true ∨ j.pre.updatesOf p = ∅))
        (aggregateRun members calls).history := by
  constructor
  · intro calls
    refine Along.mp (fun e h _ hfirst p since j before hh hj he => ?_) (along_true _)
      (along_firstInfo (d := trainDirectory PeerId T) rfl PoolWithTrainInfo.ids (fun _ => rfl) calls)
    obtain ⟨hevent, hentry, hforgotten⟩ := hfirst p since j before hh hj he
    rw [hevent, trainFresh_iff he.2.1, ← hforgotten]
    exact Eq.congr_left hentry
  · intro calls
    refine Along.mp (fun e h _ hfirst p since j before hh hj he => ?_) (along_true _)
      (along_firstInfo (d := aggregateDirectory PeerId) rfl PoolWithAggregateInfo.ids (fun _ => rfl) calls)
    obtain ⟨hevent, hentry, hforgotten⟩ := hfirst p since j before hh hj he
    have hupdates : e.pre.updatesOf p = j.pre.updatesOf p :=
      congrArg (fun entry : Option (AggregateInfo PeerId) => (entry.getD {}).workerUpdates) hentry
    rw [hevent, aggregateFresh_iff he.2.1, hupdates]
    refine ⟨Or.inr, fun h => h.elim (fun hgone => ?_) id⟩
    have hnone : j.pre.entries p = none := hforgotten.mpr hgone
    rw [PoolWithAggregateInfo.updatesOf, hnone]
    rfl

/-- The parameter server 9 has the update of worker 1, leaves and joins again before anybody calls `info`. -/
def staleServer : List (PoolCall Nat (AggregateInfo Nat → AggregateInfo Nat)) :=
  [.update 9 (fun info => { info with workerUpdates := insert 1 info.workerUpdates }), .exit 9,
    .join [⟨9, {}, 1⟩], .info]

/-- The worker 1 has processed a sample, leaves and joins again before anybody calls `info`. -/
def staleWorker : List (PoolCall Nat (TrainUpdate Nat RunningMean)) :=
  [.update 1 (.state fun state => { state with samplesProcessed := 1 }), .exit 1, .join [⟨1, {}, 1⟩], .info]

theorem rejoined_peers_are_remembered :
    (¬ ∀ (members : List (WorkerDescriptor Nat)) (calls : List (PoolCall Nat (TrainUpdate Nat RunningMean))),
      Along (fun e h => ∀ p since j before, h = since ++ j :: before → Rejoins PoolWithTrainInfo.ids p j before →
        FirstInfo PoolWithTrainInfo.ids p e since → TrainFresh e p) (trainRun RunningMean members calls).history) ∧
    ¬ ∀ (members : List (WorkerDescriptor Nat)) (calls : List (PoolCall Nat (AggregateInfo Nat → AggregateInfo Nat))),
      Along (fun e h => ∀ p since j before, h = since ++ j :: before → Rejoins PoolWithAggregateInfo.ids p j before →
        FirstInfo PoolWithAggregateInfo.ids p e since → AggregateFresh e p) (aggregateRun members calls).history := by
  constructor
  · intro h
    have hfresh := (h [⟨1, {}, 0⟩] staleWorker).1 1 [] _ _ rfl
      ⟨⟨_, rfl⟩, by decide, by decide, _, List.mem_cons_self .., rfl, by decide⟩
      ⟨rfl, by decide, fun x hx => absurd hx List.not_mem_nil⟩
    have hstat := (hfresh _ rfl _ (List.mem_cons_self ..) rfl).2
    exact absurd hstat (by decide)
  · intro h
    have hfresh := (h [⟨9, {}, 0⟩] staleServer).1 9 [] _ _ rfl
      ⟨⟨_, rfl⟩, by decide, by decide, _, List.mem_cons_self .., rfl, by decide⟩
      ⟨rfl, by decide, fun x hx => absurd hx List.not_mem_nil⟩
    have hupdates := hfresh _ rfl _ (List.mem_cons_self ..) rfl
    exact absurd hupdates (by decide)

end Hypha.Scheduler
