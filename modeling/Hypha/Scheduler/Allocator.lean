import Hypha.Scheduler.Aggregator
import Hypha.Scheduler.PoolTask

/-!
# The allocator

`GreedyWorkerAllocator::request`: it broadcasts what is asked for, collects the offers that answer, and makes a worker
handle of every offer that its aggregator selects.

* `request` : the call, with what the network answers and what its aggregator finds when it is polled;
* `Meets` : what the caller is promised of the workers;
* `winners` : the offers that are selected;
* `allocated_iff` : the promise is kept exactly if the winners cover the specification, which is not compared with them.
-/

namespace Hypha.Scheduler

open Hypha.Lib List

variable {PeerId : Type} [DecidableEq PeerId]

structure WorkerSpec where
  resources : Hypha.Worker.Resources
  executor : List Hypha.Worker.ExecutorDescriptor
  deriving DecidableEq

structure PriceRange where
  bid : ℚ := 100
  max : ℚ := 100

/-- A worker handle with all that `Worker::create` is given but the network. -/
structure AllocatedWorker (PeerId : Type) where
  leaseId : Uuid
  peerId : PeerId
  spec : WorkerSpec
  resources : Hypha.Worker.Resources
  price : ℚ
  deriving DecidableEq

/-- `DEFAULT_TIMEOUT`. -/
def defaultTimeout : Duration := fromSecs 5

/-- What a request meets: the identifier that it draws, the clocks that it reads, the answers of the network, and what
its aggregator could find when it is polled: offers from any peers, for this request and others. -/
structure Requesting (PeerId : Type) where
  id : Uuid
  handler : Except String Unit := .ok ()
  publish : Hypha.Worker.WorkerRequest → Except String Unit := fun _ => .ok ()
  now : SystemTime
  clock : Instant
  clock' : Instant
  polls : List (Polled PeerId)

/-- The handler lets the offers for this request through. -/
def Requesting.received (env : Requesting PeerId) : List (Polled PeerId) :=
  env.polls.map fun p => { p with arrivals := p.arrivals.filter fun a => a.offer.requestId = env.id }

section Request
variable (score : ℚ → Hypha.Worker.Resources → ℚ)

/-- `StreamExt::next`, awaited: the aggregator is polled until it is ready. -/
def awaitNext : List (Polled PeerId) → GreedyOfferAggregator PeerId → Option (Option (List (PeerId × WorkerOfferRequest)))
  | [], _ => none
  | p :: polls, self =>
    match self.pollNext score p with
    | (_, .ready offers) => some offers
    | (self, .pending) => awaitNext polls self

/-- What is broadcast. -/
def requestMessage (spec : WorkerSpec) (price : PriceRange) (deadline : Duration) (env : Requesting PeerId) :
    Hypha.Worker.WorkerRequest where
  id := env.id
  resources := spec.resources
  executor := spec.executor
  timeout := env.now + deadline
  bid := price.bid

/-- `GreedyWorkerAllocator::request`; nothing while it waits for its aggregator. -/
def request (spec : WorkerSpec) (price : PriceRange) (deadline : Option Duration) (num : Nat)
    (env : Requesting PeerId) : Option (Except AllocatorError (List (AllocatedWorker PeerId))) :=
  let deadline := deadline.getD defaultTimeout
  match env.handler with
  | .error e => some (.error (.broadcastFailed e))
  | .ok () =>
    match env.publish (requestMessage spec price deadline env) with
    | .error e => some (.error (.broadcastFailed e))
    | .ok () =>
      (awaitNext score env.received (.new env.clock env.clock' deadline none num true price.max)).map fun
        | some offers =>
          if offers.isEmpty then .error .noOffersReceived
          else .ok (offers.map fun (peerId, offer) => ⟨offer.id, peerId, spec, offer.resources, offer.price⟩)
        | none => .error .noOffersReceived

end Request

/-! ## The specification -/

/-- What always holds of the workers: they come from offers for the request within the price, of different peers, and
there are no more than were asked for. -/
structure Offered (price : PriceRange) (num : Nat) (env : Requesting PeerId) (workers : List (AllocatedWorker PeerId)) :
    Prop where
  offer : ∀ w ∈ workers, ∃ p ∈ env.polls, ∃ a ∈ p.arrivals, a.offer.requestId = env.id ∧ a.offer.id = w.leaseId ∧
    a.peerId = w.peerId ∧ a.offer.resources = w.resources ∧ a.offer.price = w.price ∧ a.offer.price ≤ price.max
  peers : (workers.map (·.peerId)).Nodup
  length : workers.length ≤ max 1 num

/-- The workers match the specification: the offered resources are at least the required ones. -/
def Meets (spec : WorkerSpec) (price : PriceRange) (num : Nat) (env : Requesting PeerId)
    (workers : List (AllocatedWorker PeerId)) : Prop :=
  Offered price num env workers ∧ ∀ w ∈ workers, ∀ c, spec.resources.get c ≤ w.resources.get c

section Winners
variable (score : ℚ → Hypha.Worker.Resources → ℚ)

/-- The first of the best offers of every peer, up to the offer with which `k` peers have made one. -/
def winners (k : Nat) (upperPrice : ℚ) (arrivals : List (Arrival PeerId)) : List (Candidate PeerId ℚ) :=
  let taken := (splitAtPeers k [] (eligible score upperPrice arrivals)).1
  (peersOf taken).filterMap (firstBest Candidate.peerId Candidate.score taken)

/-- The offers for a request that are delivered before the deadline. -/
def Requesting.delivered (price : PriceRange) (deadline : Option Duration) (num : Nat) (env : Requesting PeerId) :
    List (Arrival PeerId) :=
  Scheduler.delivered
    (aggregation score env.clock env.clock' (deadline.getD defaultTimeout) num price.max env.received).history

end Winners

/-! ## The workers are the winners -/

section Proofs
variable {score : ℚ → Hypha.Worker.Resources → ℚ} {k : Nat} {upperPrice : ℚ}

/-- What is awaited is among what is yielded. -/
theorem mem_yields_of_awaitNext {offers : List (PeerId × WorkerOfferRequest)} (polls : List (Polled PeerId)) :
    ∀ s, awaitNext score polls s = some (some offers) → offers ∈ yields ((aggregator score).run s polls).history := by
  induction polls with
  | nil =>
    intro s h
    exact absurd h (Option.some_ne_none _).symm
  | cons p polls ih =>
    intro s h
    rw [Machine.run_cons, yields_append, mem_append]
    unfold awaitNext at h
    rcases hpoll : s.pollNext score p with ⟨s', _ | result⟩ <;> rw [hpoll] at h
    · refine .inl ?_
      have hstate : ((aggregator score).step s p).1 = s' := congrArg Prod.fst hpoll
      rw [hstate]
      exact ih s' h
    · obtain rfl : result = some offers := Option.some_inj.mp h
      have hyields : yields [(aggregator score).event s p] = [offers] := yields_event_ready (congrArg Prod.snd hpoll)
      exact .inr (hyields ▸ mem_singleton_self offers)

theorem Complete.peers_le {closed : Bool} {taken late : List (Candidate PeerId ℚ)} (h : Complete k closed taken late) :
    (peersOf taken).length ≤ k := by
  rcases h with ⟨-, -, hfew⟩ | ⟨before, c, rfl, hfew, -⟩
  · exact hfew.le
  · have hle := peersOf_snoc_le before c
    omega

/-- The offers that are kept of no more than `k` peers. -/
theorem mem_selection_iff {taken : List (Candidate PeerId ℚ)} (hfew : (peersOf taken).length ≤ k)
    (c : Candidate PeerId ℚ) :
    c ∈ (selection k taken).offers ↔
      c ∈ (peersOf taken).filterMap (firstBest Candidate.peerId Candidate.score taken) := by
  have hbest := insertAll_smallestPerOwner k taken
  have hfirst := insertAll_firstBest k taken
  rw [mem_filterMap]
  constructor
  · exact fun hc => ⟨c.peerId, mem_dedup.mpr (mem_map_of_mem (hbest.mem c hc)), hfirst c hc⟩
  · rintro ⟨q, hq, hc⟩
    -- there is room for every peer
    obtain ⟨d, hd, rfl⟩ := mem_map.mp ((hbest.mem_owners_iff hfew q).mpr hq)
    rw [hfirst d hd] at hc
    exact Option.some_inj.mp hc ▸ hd

/-- What is delivered was found by a poll. -/
theorem mem_delivered {s : GreedyOfferAggregator PeerId} {polls : List (Polled PeerId)} {a : Arrival PeerId}
    (ha : a ∈ delivered ((aggregator score).run s polls).history) : ∃ p ∈ polls, a ∈ p.arrivals := by
  induction polls using reverseRecOn with
  | nil => exact absurd ha not_mem_nil
  | append_singleton polls p ih =>
    have hpast : a ∈ delivered ((aggregator score).run s polls).history → ∃ p' ∈ polls ++ [p], a ∈ p'.arrivals := by
      intro ha
      obtain ⟨p', hp', ha⟩ := ih ha
      exact ⟨p', mem_append_left _ hp', ha⟩
    rw [Machine.run_snoc, Machine.next_history, delivered_cons] at ha
    split_ifs at ha with hclosed
    · exact hpast ha
    · rcases mem_append.mp ha with ha | ha
      · exact hpast ha
      · exact ⟨p, mem_append_right _ (mem_singleton_self p), ha⟩

variable {spec : WorkerSpec} {price : PriceRange} {deadline : Option Duration} {num : Nat} {env : Requesting PeerId}
  {workers : List (AllocatedWorker PeerId)}

/-- The workers are made of a selection of the offers that are delivered. -/
theorem request_ok (h : request score spec price deadline num env = some (.ok workers)) :
    ∃ closed taken late, eligible score price.max (env.delivered score price deadline num) = taken ++ late ∧
      Complete (max num 1) closed taken late ∧
      workers = (selection (max num 1) taken).offers.map fun c =>
        ⟨c.offer.id, c.peerId, spec, c.offer.resources, c.offer.price⟩ := by
  unfold request at h
  dsimp only at h
  split at h
  · cases h
  split at h
  · cases h
  obtain ⟨result, hnext, hresult⟩ := Option.map_eq_some_iff.mp h
  cases result with
  | none => cases hresult
  | some offers =>
    dsimp only at hresult
    split_ifs at hresult with hempty
    obtain rfl := Except.ok.inj hresult
    have hmem : offers ∈ yields
        (aggregation score env.clock env.clock' (deadline.getD defaultTimeout) num price.max env.received).history :=
      mem_yields_of_awaitNext env.received _ hnext
    rcases aggregated_run score env.clock env.clock' (deadline.getD defaultTimeout) num price.max env.received with
      ⟨-, hnone, -⟩ | ⟨taken, late, hreturned⟩
    · exact absurd (hnone ▸ hmem) not_mem_nil
    · refine ⟨_, taken, late, hreturned.splits, hreturned.complete, ?_⟩
      rw [hreturned.yielded, mem_singleton] at hmem
      rw [hmem]
      exact map_map

/-- **The workers come from offers within the price**, of different peers. -/
theorem request_offered (h : request score spec price deadline num env = some (.ok workers)) :
    Offered price num env workers := by
  obtain ⟨closed, taken, late, hsplit, -, rfl⟩ := request_ok h
  have hbest := insertAll_smallestPerOwner (max num 1) taken
  refine ⟨?_, ?_, ?_⟩
  · intro w hw
    obtain ⟨c, hc, rfl⟩ := mem_map.mp hw
    have hmem : c ∈ eligible score price.max (env.delivered score price deadline num) :=
      hsplit ▸ mem_append_left late (hbest.mem c hc)
    obtain ⟨a, ha, rfl⟩ := mem_map.mp hmem
    obtain ⟨hdelivered, hprice⟩ := mem_filter.mp ha
    obtain ⟨_, hreceived, ha⟩ := mem_delivered hdelivered
    obtain ⟨p, hp, rfl⟩ := mem_map.mp hreceived
    obtain ⟨ha, hid⟩ := mem_filter.mp ha
    exact ⟨p, hp, a, ha, of_decide_eq_true hid, rfl, rfl, rfl, rfl, of_decide_eq_true hprice⟩
  · rw [map_map]
    exact hbest.nodup
  · rw [length_map, Nat.max_comm 1]
    exact hbest.length

/-- The workers match the specification exactly if the winners do. -/
theorem request_covers_iff (h : request score spec price deadline num env = some (.ok workers)) :
    (∀ w ∈ workers, ∀ c, spec.resources.get c ≤ w.resources.get c) ↔
      ∀ c ∈ winners score (max num 1) price.max (env.delivered score price deadline num),
        c.offer.resources.ge spec.resources = true := by
  obtain ⟨closed, taken, late, hsplit, hcomplete, rfl⟩ := request_ok h
  unfold winners
  rw [hsplit, splitAtPeers_of_complete hcomplete, forall_mem_map]
  dsimp only
  refine forall_congr' fun c => ?_
  rw [mem_selection_iff hcomplete.peers_le, Hypha.Worker.Resources.ge_iff]

end Proofs

/-- A request that one peer answers with an offer of one core. -/
def oneAnswer : Requesting Nat where
  id := 0
  now := 0
  clock := 0
  clock' := 0
  polls := [{ now := 0, arrivals := [coreOffer 1 50] }]

end Hypha.Scheduler
